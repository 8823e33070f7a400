import Firecash.Consensus.UtxoState

/-!
# Fee accounting over a mergeset

The passes of `calculate_utxo_state` put together. `calculateUtxoState_isSome` says when it does not
panic; `calculateUtxoState_ok` what it leaves: the transactions the transition will apply, and for
every mergeset block a reward entry that holds its subsidy and exactly the fees of its applied
transactions.
-/

namespace Firecash

open Checked ShieldedStores List Option

variable {P : Prim}

/-! ## Fees by source -/

@[simp] theorem feesFrom_nil (b : Hash) : feesFrom ([] : List (ShieldedTx P × Hash)) b = 0 := rfl

theorem feesFrom_append (xs ys : List (ShieldedTx P × Hash)) (b : Hash) :
    feesFrom (xs ++ ys) b = feesFrom xs b + feesFrom ys b := by
  simp [feesFrom]

theorem feesFrom_cons (p : ShieldedTx P × Hash) (xs : List (ShieldedTx P × Hash)) (b : Hash) :
    feesFrom (p :: xs) b = (if p.2 = b then p.1.fee.toNat else 0) + feesFrom xs b := by
  by_cases h : p.2 = b <;> simp [feesFrom, h]

theorem feesFrom_mask (txs : List (ShieldedTx P × Hash)) (mask : List Bool) (hlen : mask.length = txs.length)
    (b : Hash) :
    feesFrom (keptTxs txs mask) b + feesFrom (droppedTxs (txs.zip mask)) b = feesFrom txs b := by
  induction txs generalizing mask with
  | nil => simp [keptTxs, droppedTxs]
  | cons p txs ih =>
    cases mask with
    | nil => simp at hlen
    | cons k mask =>
      have ih := ih mask (by simpa using hlen)
      simp only [keptTxs, droppedTxs] at ih
      cases k <;> simp [keptTxs, droppedTxs, feesFrom_cons] <;> omega

/-- The fee accumulated for a shielded transaction is the one its effects carry. -/
def FeeConsistent (v : ValidatedTransaction P) : Prop :=
  ∀ stx, v.tx.isShielded = true → v.extract = some stx → stx.fee = v.calculatedFee

theorem extracted_fees {v : ValidatedTransaction P} (hv : FeeConsistent v) (b b' : Hash) :
    feesFrom (extracted b' v) b = if b' = b then countedFee v - transparentFee v else 0 := by
  unfold extracted countedFee transparentFee
  cases hs : v.tx.isShielded with
  | false => simp
  | true =>
    cases hx : v.extract with
    | none => simp
    | some stx => simp [feesFrom_cons, hv stx hs hx]

theorem transparentFee_le (v : ValidatedTransaction P) : transparentFee v ≤ countedFee v := by
  unfold transparentFee countedFee
  cases v.tx.isShielded <;> simp

variable {vs : List (ValidatedTransaction P)}

theorem countedFees_eq (hv : ∀ v ∈ vs, FeeConsistent v) (b : Hash) :
    countedFees vs = transparentFees vs + feesFrom (vs.flatMap (extracted b)) b := by
  induction vs with
  | nil => rfl
  | cons v vs ih =>
    have ih := ih fun v' hv' => hv v' (by simp [hv'])
    have hx := extracted_fees (hv v (by simp)) b b
    have hle := transparentFee_le v
    rw [if_pos rfl] at hx
    rw [countedFees_cons, ih, flatMap_cons, feesFrom_append, hx]
    simp only [transparentFees, map_cons, sum_cons]
    omega

theorem extracted_source {b : Hash} {p : ShieldedTx P × Hash}
    (h : p ∈ vs.flatMap (extracted b)) : p.2 = b := by
  obtain ⟨v, -, hp⟩ := mem_flatMap.mp h
  unfold extracted at hp
  split at hp
  · obtain ⟨stx, -, rfl⟩ := mem_map.mp hp
    rfl
  · cases hp

theorem feesFrom_eq_zero {txs : List (ShieldedTx P × Hash)} {b : Hash} (h : ∀ p ∈ txs, p.2 ≠ b) :
    feesFrom txs b = 0 := by
  have hf : txs.filter (fun p => p.2 = b) = [] := filter_eq_nil_iff.mpr fun p hp => by simpa using h p hp
  simp [feesFrom, hf]

/-! ## The whole function -/

section Mergeset

variable (env : UtxoEnv P) (stores : ShieldedStores P) (gd : GhostdagData) (view : UtxoView)
  (anchorFinal : ShieldedTx P → Bool)

/-- The shielded transactions of the mergeset in accepted order, with their source. -/
def collectedTxs : List (ShieldedTx P × Hash) :=
  (mergeset env gd view).flatMap fun m => m.2.flatMap (extracted m.1)

/-- Those the partition keeps. -/
def appliedTxs : List (ShieldedTx P × Hash) :=
  keptTxs (collectedTxs env gd view)
    (stores.partitionApplied ((collectedTxs env gd view).map (·.1)) anchorFinal)

/-- The accepted transactions of one merged block. -/
def blockTxs (b : Hash) : List (ValidatedTransaction P) :=
  ((mergeset env gd view).filter fun m => m.1 = b).flatMap (·.2)

/-- What a merged block's applied transactions pay: the fees a coinbase may re-mint for it. -/
def appliedFees (b : Hash) : Nat :=
  transparentFees (blockTxs env gd view b) + feesFrom (appliedTxs env stores gd view anchorFinal) b

theorem validatedMergeset_keys (view : UtxoView) (bs : List Hash) :
    (validatedMergeset env view bs).map (·.1) = bs := by
  induction bs generalizing view with
  | nil => rfl
  | cons b bs ih => simp [validatedMergeset, ih]

theorem mergeset_keys : (mergeset env gd view).map (·.1) = gd.consensusOrderedMergeset env.blueWork :=
  validatedMergeset_keys env _ _

theorem mergeset_nodup : ((mergeset env gd view).map (·.1)).Nodup := by
  rw [mergeset_keys]
  exact gd.consensusOrderedMergeset_nodup env.blueWork

theorem validateTransactions_feeConsistent {rules : Transaction P → List UtxoEntry → Bool} {view : UtxoView}
    {txs : List (Transaction P)} : ∀ v ∈ validateTransactions rules view txs, FeeConsistent v := by
  intro v hv stx hs hx
  obtain ⟨tx, -, htx⟩ := mem_filterMap.mp hv
  exact extract_fee (Except.toOption_eq_some_iff.mp htx) hs hx

theorem mergeset_feeConsistent : ∀ m ∈ mergeset env gd view, ∀ v ∈ m.2, FeeConsistent v := by
  unfold mergeset
  generalize mergesetView env gd view = view'
  generalize gd.consensusOrderedMergeset env.blueWork = bs
  induction bs generalizing view' with
  | nil => simp [validatedMergeset]
  | cons b bs ih =>
    simp only [validatedMergeset, forall_mem_cons]
    exact ⟨validateTransactions_feeConsistent, ih _⟩

theorem mem_mergeset_iff {b : Hash} :
    b ∈ (mergeset env gd view).map (·.1) ↔ b ∈ gd.mergesetBlues ++ gd.mergesetReds := by
  rw [mergeset_keys]
  exact (gd.consensusOrderedMergeset_perm env.blueWork).mem_iff

/-- A block occurs once in the mergeset: its transactions are those of its entry, and the collected
transactions of source `b` are the ones extracted from it. -/
theorem blockTxs_eq {m : Hash × List (ValidatedTransaction P)} (hm : m ∈ mergeset env gd view) :
    blockTxs env gd view m.1 = m.2 ∧
      feesFrom (collectedTxs env gd view) m.1 = feesFrom (m.2.flatMap (extracted m.1)) m.1 := by
  unfold blockTxs collectedTxs
  have hnd := mergeset_nodup env gd view
  generalize mergeset env gd view = ms at hm hnd
  induction ms with
  | nil => cases hm
  | cons k ms ih =>
    obtain ⟨hk, hnd⟩ := nodup_cons.mp hnd
    rcases mem_cons.mp hm with rfl | hm
    · -- the entry itself: no later one has its key
      have hrest : ∀ k ∈ ms, k.1 ≠ m.1 := fun k hkm he => hk (mem_map.mpr ⟨k, hkm, he⟩)
      have hf : ms.filter (fun k => k.1 = m.1) = [] :=
        filter_eq_nil_iff.mpr fun k hkm => by simpa using hrest k hkm
      have hz : feesFrom (ms.flatMap fun k => k.2.flatMap (extracted k.1)) m.1 = 0 := by
        apply feesFrom_eq_zero
        intro p hp
        obtain ⟨k, hkm, hp⟩ := mem_flatMap.mp hp
        rw [extracted_source hp]
        exact hrest k hkm
      refine ⟨by simp [hf], ?_⟩
      rw [flatMap_cons, feesFrom_append, hz, Nat.add_zero]
    · have hne : k.1 ≠ m.1 := fun he => hk (mem_map.mpr ⟨m, hm, he.symm⟩)
      have hz : feesFrom (k.2.flatMap (extracted k.1)) m.1 = 0 :=
        feesFrom_eq_zero fun p hp => by rw [extracted_source hp]; exact hne
      obtain ⟨h1, h2⟩ := ih hm hnd
      refine ⟨by simp [hne, h1], ?_⟩
      rw [flatMap_cons, feesFrom_append, hz, Nat.zero_add, h2]

variable {c : Collected P}

/-- The mergeset loop leaves for each block its subsidy and the fees of all its transactions. -/
theorem collected_gross (h : collectBlocks env ⟨[], fun _ => none⟩ (mergeset env gd view) = some c) :
    ∃ g : Hash → BlockRewardData, ∀ b ∈ (mergeset env gd view).map (·.1), c.rewards b = some (g b) ∧
      (g b).subsidy = (env.bodies b).coinbase.payload.subsidy ∧
      (g b).totalFees.toNat = transparentFees (blockTxs env gd view b) + feesFrom (collectedTxs env gd view) b := by
  obtain ⟨-, hin, -⟩ := collectBlocks_ok (mergeset_nodup env gd view) h
  refine ⟨fun b => (c.rewards b).getD (grossReward env b 0), fun b hb => ?_⟩
  obtain ⟨m, hm, rfl⟩ := mem_map.mp hb
  obtain ⟨fee, hfee, hrew⟩ := hin m hm
  obtain ⟨htxs, hfees⟩ := blockTxs_eq env gd view hm
  simp only [hrew, getD_some, grossReward, true_and]
  rw [hfee, htxs, hfees]
  exact countedFees_eq (mergeset_feeConsistent env gd view m hm) m.1

/-- After the mergeset loop the deductions always succeed, and leave the applied fees. -/
theorem deduct_collected
    (h : collectBlocks env ⟨[], fun _ => none⟩ (mergeset env gd view) = some c) :
    ∃ (rewards' : MergesetRewards) (g' : Hash → BlockRewardData),
      deductDropped c.rewards (c.shielded.zip (stores.partitionApplied (c.shielded.map (·.1)) anchorFinal)) =
          some rewards' ∧
        (∀ b ∈ gd.mergesetBlues ++ gd.mergesetReds, rewards' b = some (g' b)) ∧
        ∀ b ∈ gd.mergesetBlues ++ gd.mergesetReds, (g' b).subsidy = (env.bodies b).coinbase.payload.subsidy ∧
          (g' b).totalFees.toNat = appliedFees env stores gd view anchorFinal b := by
  obtain ⟨g, hg⟩ := collected_gross env gd view h
  have hcoll : c.shielded = collectedTxs env gd view := by
    simpa [collectedTxs] using (collectBlocks_ok (mergeset_nodup env gd view) h).1
  rw [hcoll]
  let mask := stores.partitionApplied ((collectedTxs env gd view).map (·.1)) anchorFinal
  have hlen : mask.length = (collectedTxs env gd view).length := by
    simp [mask, partitionApplied, partitionFrom_length]
  have hsrc : ∀ p ∈ (collectedTxs env gd view).zip mask, p.1.2 ∈ (mergeset env gd view).map (·.1) := by
    intro p hp
    obtain ⟨m, hm, hp'⟩ := mem_flatMap.mp (of_mem_zip hp).1
    rw [extracted_source hp']
    exact mem_map_of_mem hm
  -- what is dropped was counted: kept and dropped fees add up to the collected ones
  have hsplit := feesFrom_mask (collectedTxs env gd view) mask hlen
  have hle : ∀ b ∈ (mergeset env gd view).map (·.1),
      feesFrom (droppedTxs ((collectedTxs env gd view).zip mask)) b ≤ (g b).totalFees.toNat := by
    intro b hb
    have := (hg b hb).2.2
    have := hsplit b
    omega
  obtain ⟨rewards', g', hded, hrew, hspec⟩ := deductDropped_ok (fun b hb => (hg b hb).1) hsrc hle
  refine ⟨rewards', g', hded, fun b hb => hrew b ((mem_mergeset_iff env gd view).mpr hb), ?_⟩
  intro b hb
  have hb' := (mem_mergeset_iff env gd view).mpr hb
  obtain ⟨hsub, hfees⟩ := hspec b hb'
  refine ⟨hsub.trans (hg b hb').2.1, ?_⟩
  have happ : appliedFees env stores gd view anchorFinal b =
      transparentFees (blockTxs env gd view b) + feesFrom (keptTxs (collectedTxs env gd view) mask) b := rfl
  have h1 := (hg b hb').2.2
  have h2 := hsplit b
  omega

/-- `calculate_utxo_state` panics exactly when some merged block's running fee total does not fit. -/
theorem calculateUtxoState_isSome :
    (calculateUtxoState env stores gd view anchorFinal).isSome ↔ ∀ m ∈ mergeset env gd view, RunningFits 0 m.2 := by
  rw [← collectBlocks_isSome env ⟨[], fun _ => none⟩]
  unfold calculateUtxoState
  cases hc : collectBlocks env ⟨[], fun _ => none⟩ (mergeset env gd view) with
  | none => simp
  | some c =>
    obtain ⟨rewards', g', hded, -, -⟩ := deduct_collected env stores gd view anchorFinal hc
    simp [hded]

/-- What `calculate_utxo_state` leaves: the applied transactions, and for every mergeset block a
reward entry with its subsidy and exactly its applied fees. -/
theorem calculateUtxoState_ok {ctx : UtxoProcessingContext P}
    (h : calculateUtxoState env stores gd view anchorFinal = some ctx) :
    ctx.shieldedTxs = (appliedTxs env stores gd view anchorFinal).map (·.1) ∧
      ∃ g : Hash → BlockRewardData, ∀ b ∈ gd.mergesetBlues ++ gd.mergesetReds,
        ctx.mergesetRewards b = some (g b) ∧ (g b).subsidy = (env.bodies b).coinbase.payload.subsidy ∧
          (g b).totalFees.toNat = appliedFees env stores gd view anchorFinal b := by
  unfold calculateUtxoState at h
  simp only [bind_eq_bind, bind_eq_some_iff, Option.pure_def, Option.some.injEq] at h
  obtain ⟨c, hc, rewards, hded, rfl⟩ := h
  obtain ⟨rewards', g', hded', hrew, hspec⟩ := deduct_collected env stores gd view anchorFinal hc
  have hcoll : c.shielded = collectedTxs env gd view := by
    simpa [collectedTxs] using (collectBlocks_ok (mergeset_nodup env gd view) hc).1
  rw [hded'] at hded
  cases hded
  refine ⟨?_, g', ?_⟩
  · simp only [hcoll, appliedTxs, keptTxs_map]
  · intro b hb
    exact ⟨hrew b hb, hspec b hb⟩

end Mergeset

end Firecash
