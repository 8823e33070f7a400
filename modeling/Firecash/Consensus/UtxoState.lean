import Firecash.Consensus.Coinbase
import Firecash.Consensus.TxValidation

/-!
# `calculate_utxo_state` (virtual_processor/utxo_validation.rs:133)

For a chain block, walk its mergeset in consensus order; per merged block validate the transactions
against the composed view, sum their fees into the block's reward entry and collect the shielded
transactions with the block they came from; then decide which of those the state transition will
apply and take every dropped fee back out of its source's reward.

The loop is written as two passes over the mergeset, `validatedMergeset` (which transactions pass, on
a view that grows along the way) and `collectBlocks` (fee accounting on `u64` under overflow checks:
`none` is a panic); the first does not read anything the second computes.

`collectBlocks_ok` and `deductDropped_ok` are the specifications of the two loops.
-/

namespace Firecash

open Checked ShieldedStores List Option Function

variable {P : Prim}

/-- What the virtual processor reads about blocks and does not compute here. -/
structure UtxoEnv (P : Prim) where
  shieldedCoinbase : Bool
  blueWork : Hash → Nat
  /-- `block_transactions_store` -/
  bodies : Hash → BlockBody P
  /-- Transaction id of a coinbase. -/
  coinbaseId : CoinbaseTransaction P → Hash
  /-- The validation rules outside the model, in the context of a merged block. -/
  rules : Hash → Transaction P → List UtxoEntry → Bool

/-! ## First pass: validation on the composed view -/

/-- The view after a merged block's accepted transactions. -/
def addTransactions (view : UtxoView) (vs : List (ValidatedTransaction P)) : UtxoView :=
  vs.foldl (fun view v => view.addTransaction v.tx) view

/-- The merged blocks with the transactions of each that pass, in consensus order. -/
def validatedMergeset (env : UtxoEnv P) (view : UtxoView) :
    List Hash → List (Hash × List (ValidatedTransaction P))
  | [] => []
  | b :: bs =>
    let vs := validateTransactions (env.rules b) view (env.bodies b).txs
    (b, vs) :: validatedMergeset env (addTransactions view vs) bs

variable (env : UtxoEnv P)

/-- On a transparent-coinbase network the selected parent's coinbase outputs enter the view first. -/
def mergesetView (gd : GhostdagData) (selectedParentView : UtxoView) : UtxoView :=
  if env.shieldedCoinbase then selectedParentView
  else
    let coinbase := (env.bodies gd.selectedParent).coinbase
    selectedParentView.addOutputs (env.coinbaseId coinbase) [] coinbase.outputs

def mergeset (gd : GhostdagData) (selectedParentView : UtxoView) :
    List (Hash × List (ValidatedTransaction P)) :=
  validatedMergeset env (mergesetView env gd selectedParentView) (gd.consensusOrderedMergeset env.blueWork)

/-! ## Second pass: fees and shielded transactions -/

/-- One transaction of a merged block (utxo_validation.rs:194-235). -/
def accumulateTx (block : Hash) (acc : UInt64 × List (ShieldedTx P × Hash)) (v : ValidatedTransaction P) :
    Option (UInt64 × List (ShieldedTx P × Hash)) := do
  let blockFee ← checkedAdd acc.1 v.calculatedFee
  if v.tx.version == TX_VERSION_SHIELDED then
    match v.extract with
    | some stx => pure (blockFee, acc.2 ++ [(stx, block)])
    | none =>
      -- the transition will never apply this transaction: its fee must not be re-minted
      let blockFee ← checkedSub blockFee v.calculatedFee
      pure (blockFee, acc.2)
  else pure (blockFee, acc.2)

/-- The accumulators of the mergeset loop: shielded transactions with their source, and rewards. -/
structure Collected (P : Prim) where
  shielded : List (ShieldedTx P × Hash)
  rewards : MergesetRewards

/-- One merged block (utxo_validation.rs:193-257). -/
def collectBlock (c : Collected P) (block : Hash) (vs : List (ValidatedTransaction P)) :
    Option (Collected P) := do
  let (blockFee, shielded) ← vs.foldlM (accumulateTx block) (0, c.shielded)
  let coinbaseData := (env.bodies block).coinbase.payload
  let reward : BlockRewardData := ⟨coinbaseData.subsidy, blockFee, coinbaseData.minerData.scriptPublicKey⟩
  pure ⟨shielded, update c.rewards block (some reward)⟩

def collectBlocks (env : UtxoEnv P) (c : Collected P) : List (Hash × List (ValidatedTransaction P)) →
    Option (Collected P)
  | [] => some c
  | (b, vs) :: rest => do
    let c ← collectBlock env c b vs
    collectBlocks env c rest

/-- The `retain` loop over the collected transactions (utxo_validation.rs:278-291). -/
def deductDropped (rewards : MergesetRewards) : List ((ShieldedTx P × Hash) × Bool) → Option MergesetRewards
  | [] => some rewards
  | ((_, _), true) :: rest => deductDropped rewards rest
  | ((stx, source), false) :: rest => do
    let reward ← rewards source
    let totalFees ← checkedSub reward.totalFees stx.fee
    deductDropped (update rewards source (some { reward with totalFees })) rest

/-- `UtxoProcessingContext`, the fields the shielded path reads. -/
structure UtxoProcessingContext (P : Prim) where
  shieldedTxs : List (ShieldedTx P)
  mergesetRewards : MergesetRewards

/-- `calculate_utxo_state` -/
def calculateUtxoState (stores : ShieldedStores P) (gd : GhostdagData)
    (selectedParentView : UtxoView) (anchorFinal : ShieldedTx P → Bool) : Option (UtxoProcessingContext P) := do
  let c ← collectBlocks env ⟨[], fun _ => none⟩ (mergeset env gd selectedParentView)
  let keep := stores.partitionApplied (c.shielded.map (·.1)) anchorFinal
  let rewards ← deductDropped c.rewards (c.shielded.zip keep)
  pure ⟨keptTxs (c.shielded.map (·.1)) keep, rewards⟩

/-! ## Specification of the accounting

`feesFrom txs b` is what the transactions of source `b` pay. A block's counted fees are its
transparent fees and the fees of its extractable shielded transactions. -/

variable (v : ValidatedTransaction P)

def countedFee : Nat :=
  if v.tx.isShielded && v.extract.isNone then 0 else v.calculatedFee.toNat

def transparentFee : Nat :=
  if v.tx.isShielded then 0 else v.calculatedFee.toNat

variable (vs : List (ValidatedTransaction P))

def countedFees : Nat := (vs.map countedFee).sum

def transparentFees : Nat := (vs.map transparentFee).sum

/-- The shielded transactions a merged block contributes, tagged with it. -/
def extracted (block : Hash) (v : ValidatedTransaction P) : List (ShieldedTx P × Hash) :=
  if v.tx.isShielded then v.extract.toList.map (·, block) else []

def feesFrom (txs : List (ShieldedTx P × Hash)) (b : Hash) : Nat :=
  natSum ((txs.filter fun p => p.2 = b).map fun p => p.1.fee)

/-- The running total, the current fee included, fits at every transaction of a merged block. -/
def RunningFits (total : Nat) : List (ValidatedTransaction P) → Prop
  | [] => True
  | v :: vs => total + v.calculatedFee.toNat < U64_BOUND ∧ RunningFits (total + countedFee v) vs

theorem countedFee_le : countedFee v ≤ v.calculatedFee.toNat := by
  unfold countedFee
  split <;> omega

theorem countedFees_cons :
    countedFees (v :: vs) = countedFee v + countedFees vs := by
  simp [countedFees]

variable {vs : List (ValidatedTransaction P)}

theorem RunningFits.total_lt {total : Nat} (h : RunningFits total vs)
    (ht : total < U64_BOUND) : total + countedFees vs < U64_BOUND := by
  induction vs generalizing total with
  | nil => simpa [countedFees] using ht
  | cons v vs ih =>
    obtain ⟨hfit, hrest⟩ := h
    have hle := countedFee_le v
    have := ih hrest (by omega)
    rw [countedFees_cons]
    omega

variable {block : Hash}

theorem accumulateTx_eq_some {acc acc' : UInt64 × List (ShieldedTx P × Hash)}
    {v : ValidatedTransaction P} :
    accumulateTx block acc v = some acc' ↔
      acc.1.toNat + v.calculatedFee.toNat < U64_BOUND ∧ acc'.1.toNat = acc.1.toNat + countedFee v ∧
        acc'.2 = acc.2 ++ extracted block v := by
  obtain ⟨fee, txs⟩ := acc
  obtain ⟨fee', txs'⟩ := acc'
  have hshielded : (v.tx.version == TX_VERSION_SHIELDED) = v.tx.isShielded := rfl
  unfold accumulateTx
  rw [hshielded]
  cases hadd : checkedAdd fee v.calculatedFee with
  | none =>
    have hge := checkedAdd_eq_none.mp hadd
    simp only [bind_eq_bind, bind_none, reduceCtorEq, false_iff, not_and]
    intro hlt
    omega
  | some sum =>
    have hsum := checkedAdd_eq_some.mp hadd
    have hlt := toNat_lt_bound sum
    rw [hsum] at hlt
    have hback := checkedSub_of_checkedAdd hadd
    simp only [hlt, true_and, bind_eq_bind, bind_some]
    cases hs : v.tx.isShielded with
    | false =>
      simp [countedFee, extracted, hs, ← UInt64.toNat_inj, hsum, eq_comm]
    | true =>
      cases hx : v.extract with
      | none => simp [countedFee, extracted, hs, hx, hback, ← UInt64.toNat_inj, eq_comm]
      | some stx => simp [countedFee, extracted, hs, hx, ← UInt64.toNat_inj, hsum, eq_comm]

/-- The transaction loop of one merged block succeeds exactly when the running total fits. -/
theorem accumulateTxs_eq_some
    {acc acc' : UInt64 × List (ShieldedTx P × Hash)} :
    vs.foldlM (accumulateTx block) acc = some acc' ↔
      RunningFits acc.1.toNat vs ∧ acc'.1.toNat = acc.1.toNat + countedFees vs ∧
        acc'.2 = acc.2 ++ vs.flatMap (extracted block) := by
  induction vs generalizing acc with
  | nil =>
    obtain ⟨fee, txs⟩ := acc
    obtain ⟨fee', txs'⟩ := acc'
    simp [RunningFits, countedFees, ← UInt64.toNat_inj, eq_comm]
  | cons v vs ih =>
    simp only [foldlM_cons, bind_eq_bind, bind_eq_some_iff, accumulateTx_eq_some, ih, RunningFits]
    constructor
    · rintro ⟨mid, ⟨hfit, hfee, htxs⟩, hrest, hfee', htxs'⟩
      rw [hfee] at hrest hfee'
      refine ⟨⟨hfit, hrest⟩, ?_, ?_⟩
      · rw [countedFees_cons]
        omega
      · simp [htxs', htxs]
    · rintro ⟨⟨hfit, hrest⟩, hfee', htxs'⟩
      have hle := countedFee_le v
      have hmid : (UInt64.ofNat (acc.1.toNat + countedFee v)).toNat = acc.1.toNat + countedFee v :=
        UInt64.toNat_ofNat_of_lt' (Nat.lt_of_le_of_lt (Nat.add_le_add_left hle _) hfit)
      refine ⟨(UInt64.ofNat (acc.1.toNat + countedFee v), acc.2 ++ extracted block v), ⟨hfit, hmid, rfl⟩, ?_, ?_, ?_⟩
      · rwa [hmid]
      · rw [countedFees_cons] at hfee'
        rw [hmid]
        omega
      · simp [htxs']

/-- The reward entry a merged block gets before any deduction. -/
def grossReward (block : Hash) (blockFee : UInt64) : BlockRewardData :=
  ⟨(env.bodies block).coinbase.payload.subsidy, blockFee, (env.bodies block).coinbase.payload.minerData.scriptPublicKey⟩

variable {env : UtxoEnv P}

theorem collectBlock_eq_some {c c' : Collected P} :
    collectBlock env c block vs = some c' ↔ RunningFits 0 vs ∧ ∃ blockFee, blockFee.toNat = countedFees vs ∧
      c'.shielded = c.shielded ++ vs.flatMap (extracted block) ∧
      c'.rewards = update c.rewards block (some (grossReward env block blockFee)) := by
  unfold collectBlock
  simp only [bind_eq_bind, bind_eq_some_iff, accumulateTxs_eq_some, Option.pure_def, Option.some.injEq]
  constructor
  · rintro ⟨⟨fee, txs⟩, ⟨hfit, hfee, htxs⟩, rfl⟩
    exact ⟨hfit, fee, by simpa using hfee, htxs, rfl⟩
  · rintro ⟨hfit, fee, hfee, htxs, hrew⟩
    refine ⟨(fee, c.shielded ++ vs.flatMap (extracted block)), ⟨hfit, by simpa using hfee, rfl⟩, ?_⟩
    obtain ⟨shielded, rewards⟩ := c'
    simp only [Collected.mk.injEq]
    exact ⟨htxs.symm, hrew.symm⟩

variable {ms : List (Hash × List (ValidatedTransaction P))}

/-- The mergeset loop succeeds exactly when every merged block's running total fits. -/
theorem collectBlocks_isSome (env : UtxoEnv P) (c : Collected P) :
    (collectBlocks env c ms).isSome ↔ ∀ m ∈ ms, RunningFits 0 m.2 := by
  induction ms generalizing c with
  | nil => simp [collectBlocks]
  | cons m ms ih =>
    obtain ⟨b, vs⟩ := m
    rw [forall_mem_cons, collectBlocks]
    by_cases hfit : RunningFits 0 vs
    · have hlt : countedFees vs < U64_BOUND := by simpa using hfit.total_lt (by decide)
      obtain ⟨c', hc'⟩ : ∃ c', collectBlock env c b vs = some c' :=
        ⟨⟨_, _⟩, collectBlock_eq_some.mpr ⟨hfit, _, UInt64.toNat_ofNat_of_lt' hlt, rfl, rfl⟩⟩
      simp only [hc', bind_eq_bind, bind_some, ih, hfit, true_and]
    · have hnone : collectBlock env c b vs = none := by
        cases hc : collectBlock env c b vs with
        | none => rfl
        | some c' => exact absurd (collectBlock_eq_some.mp hc).1 hfit
      simp [hnone, hfit]

/-- What the mergeset loop leaves: the shielded transactions in accepted order, and one gross
reward entry per merged block. -/
theorem collectBlocks_ok {c c' : Collected P}
    (hnd : (ms.map (·.1)).Nodup) (h : collectBlocks env c ms = some c') :
    c'.shielded = c.shielded ++ ms.flatMap (fun m => m.2.flatMap (extracted m.1)) ∧
      (∀ m ∈ ms, ∃ blockFee, blockFee.toNat = countedFees m.2 ∧ c'.rewards m.1 = some (grossReward env m.1 blockFee)) ∧
      ∀ b ∉ ms.map (·.1), c'.rewards b = c.rewards b := by
  induction ms generalizing c with
  | nil =>
    cases h
    simp
  | cons m ms ih =>
    obtain ⟨b, vs⟩ := m
    simp only [collectBlocks, bind_eq_bind, bind_eq_some_iff] at h
    obtain ⟨mid, hmid, h⟩ := h
    obtain ⟨-, fee, hfee, htxs, hrew⟩ := collectBlock_eq_some.mp hmid
    obtain ⟨hb, hnd⟩ := nodup_cons.mp hnd
    obtain ⟨hs, hin, hout⟩ := ih hnd h
    refine ⟨?_, ?_, ?_⟩
    · rw [hs, htxs]
      simp
    · rw [forall_mem_cons]
      refine ⟨⟨fee, hfee, ?_⟩, hin⟩
      rw [hout b hb, hrew, update_self]
    · intro b' hb'
      simp only [map_cons, mem_cons, not_or] at hb'
      rw [hout b' hb'.2, hrew, update_of_ne hb'.1]

/-! ### Deductions -/

/-- Of masked transactions, those dropped. -/
def droppedTxs {α : Type} (ps : List (α × Bool)) : List α := ps.filterMap fun p => if p.2 then none else some p.1

theorem feesFrom_droppedTxs_cons (stx : ShieldedTx P) (source : Hash) (ps : List ((ShieldedTx P × Hash) × Bool))
    (b : Hash) :
    feesFrom (droppedTxs (((stx, source), false) :: ps)) b =
      (if source = b then stx.fee.toNat else 0) + feesFrom (droppedTxs ps) b := by
  by_cases hb : source = b <;> simp [droppedTxs, feesFrom, hb]

variable {rewards : MergesetRewards} {g : Hash → BlockRewardData} {bs : List Hash}

/-- One deduction: only the fees of its source's entry change, by the dropped fee. -/
theorem deduct_one {source : Hash} {fee : UInt64}
    (hr : ∀ b ∈ bs, rewards b = some (g b)) (hfee : fee.toNat ≤ (g source).totalFees.toNat) :
    ∃ (fees : UInt64) (g₁ : Hash → BlockRewardData), checkedSub (g source).totalFees fee = some fees ∧
      (∀ b ∈ bs, update rewards source (some { g source with totalFees := fees }) b = some (g₁ b)) ∧
      ∀ b, (g₁ b).subsidy = (g b).subsidy ∧
        (g₁ b).totalFees.toNat + (if source = b then fee.toNat else 0) = (g b).totalFees.toNat := by
  obtain ⟨fees, hsub, hval⟩ := exists_checkedSub (a := (g source).totalFees) hfee
  refine ⟨fees, update g source { g source with totalFees := fees }, hsub, ?_, ?_⟩
  · intro b hb
    by_cases hbs : source = b
    · subst hbs
      simp
    · simp [update_of_ne (Ne.symm hbs), hr b hb]
  · intro b
    by_cases hbs : source = b
    · subst hbs
      simp [hval]
    · simp [update_of_ne (Ne.symm hbs), hbs]

/-- The deduction loop never underflows when the dropped fees were counted, and takes exactly them
out of their source's entry. -/
theorem deductDropped_ok
    {ps : List ((ShieldedTx P × Hash) × Bool)} (hr : ∀ b ∈ bs, rewards b = some (g b)) (hsrc : ∀ p ∈ ps, p.1.2 ∈ bs)
    (hle : ∀ b ∈ bs, feesFrom (droppedTxs ps) b ≤ (g b).totalFees.toNat) :
    ∃ (rewards' : MergesetRewards) (g' : Hash → BlockRewardData), deductDropped rewards ps = some rewards' ∧
      (∀ b ∈ bs, rewards' b = some (g' b)) ∧
      ∀ b ∈ bs, (g' b).subsidy = (g b).subsidy ∧
        (g' b).totalFees.toNat + feesFrom (droppedTxs ps) b = (g b).totalFees.toNat := by
  induction ps generalizing rewards g with
  | nil => exact ⟨rewards, g, rfl, hr, fun b _ => ⟨rfl, by simp [droppedTxs, feesFrom]⟩⟩
  | cons p ps ih =>
    have hsrc' : ∀ q ∈ ps, q.1.2 ∈ bs := fun q hq => hsrc q (by simp [hq])
    obtain ⟨⟨stx, source⟩, keep⟩ := p
    cases keep with
    | true =>
      have hd : droppedTxs (((stx, source), true) :: ps) = droppedTxs ps := by simp [droppedTxs]
      rw [hd] at hle ⊢
      simpa [deductDropped] using ih hr hsrc' hle
    | false =>
      have hmem : source ∈ bs := hsrc ((stx, source), false) (by simp)
      simp only [feesFrom_droppedTxs_cons] at hle ⊢
      have hfee := hle source hmem
      rw [if_pos rfl] at hfee
      obtain ⟨fees, g₁, hsub, hr₁, hg₁⟩ := deduct_one hr (Nat.le_of_add_right_le hfee)
      have hle₁ : ∀ b ∈ bs, feesFrom (droppedTxs ps) b ≤ (g₁ b).totalFees.toNat := by
        intro b hb
        have h1 := hle b hb
        have h2 := (hg₁ b).2
        omega
      obtain ⟨rewards', g', hded, hrew, hspec⟩ := ih hr₁ hsrc' hle₁
      refine ⟨rewards', g', ?_, hrew, ?_⟩
      · simpa only [deductDropped, hr source hmem, bind_eq_bind, bind_some, hsub] using hded
      · intro b hb
        obtain ⟨hs, hf⟩ := hspec b hb
        refine ⟨hs.trans (hg₁ b).1, ?_⟩
        have := (hg₁ b).2
        omega

end Firecash
