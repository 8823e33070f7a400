import Mathlib.Algebra.BigOperators.Group.Finset.Piecewise
import Firecash.Consensus.FeeOverflow
import Firecash.Consensus.Verify

/-!
# The fee cycle closes

On a shielded-coinbase network a fee leaves the pool as a bundle's value balance and re-enters it in the
coinbase of the block that merges the bundle. Four computations have to agree for the pool to grow by
exactly the subsidies: the fee accumulation, the deduction of dropped spends per source block, the
coinbase outputs with reds aggregated and blocks outside the DAA window left out, and the turnstile
transition. `poolDelta_exact`: they do, for every mergeset, colouring and drop pattern.
-/

namespace Firecash

open Checked ShieldedStores List Option

variable {P : Prim}

/-! ## Transparent fees vanish without transparent value -/

section ZeroValued

theorem zeroValued_validateTransactions {rules : Transaction P → List UtxoEntry → Bool} {view : UtxoView}
    (hz : view.ZeroValued) {txs : List (Transaction P)} :
    ∀ v ∈ validateTransactions rules view txs, transparentFee v = 0 ∧ totalOut v.tx = 0 := by
  intro v hv
  obtain ⟨tx, -, htx⟩ := mem_filterMap.mp hv
  have hok := Except.toOption_eq_some_iff.mp htx
  obtain ⟨hout, hfee⟩ := hz.totals hok
  obtain rfl := (validated_inv hok).1
  refine ⟨?_, hout⟩
  unfold transparentFee
  cases hs : v.tx.isShielded with
  | true => rfl
  | false => simp [hfee hs]

theorem zeroValued_addTransactions {view : UtxoView} (hz : view.ZeroValued) {vs : List (ValidatedTransaction P)}
    (hvs : ∀ v ∈ vs, totalOut v.tx = 0) : (addTransactions view vs).ZeroValued := by
  induction vs generalizing view with
  | nil => exact hz
  | cons v vs ih =>
    exact ih (hz.addTransaction (hvs v (by simp))) fun v' hv' => hvs v' (by simp [hv'])

theorem zeroValued_validatedMergeset {env : UtxoEnv P} {view : UtxoView} (hz : view.ZeroValued) {bs : List Hash} :
    ∀ m ∈ validatedMergeset env view bs, ∀ v ∈ m.2, transparentFee v = 0 := by
  induction bs generalizing view with
  | nil => simp [validatedMergeset]
  | cons b bs ih =>
    have hvs : ∀ v ∈ validateTransactions (env.rules b) view (env.bodies b).txs,
        transparentFee v = 0 ∧ totalOut v.tx = 0 := zeroValued_validateTransactions hz
    simp only [validatedMergeset, forall_mem_cons]
    exact ⟨fun v hv => (hvs v hv).1, ih (zeroValued_addTransactions hz fun v hv => (hvs v hv).2)⟩

variable (env : UtxoEnv P) (stores : ShieldedStores P) (gd : GhostdagData) (view : UtxoView)
  (anchorFinal : ShieldedTx P → Bool)

/-- With an empty transparent UTXO set a block's applied fees are those of its applied shielded
transactions. -/
theorem appliedFees_shielded (hs : env.shieldedCoinbase = true) (hview : ∀ o, view o = none) (b : Hash) :
    appliedFees env stores gd view anchorFinal b = feesFrom (appliedTxs env stores gd view anchorFinal) b := by
  have hz : view.ZeroValued := fun o e he => by simp [hview o] at he
  have hms : mergesetView env gd view = view := by simp [mergesetView, hs]
  have htf : transparentFees (blockTxs env gd view b) = 0 := by
    refine sum_eq_zero fun x hx => ?_
    obtain ⟨v, hv, rfl⟩ := mem_map.mp hx
    obtain ⟨m, hm, hv⟩ := mem_flatMap.mp hv
    have hm' := (mem_filter.mp hm).1
    unfold mergeset at hm'
    rw [hms] at hm'
    exact zeroValued_validatedMergeset hz m hm' v hv
  unfold appliedFees
  rw [htf, Nat.zero_add]

end ZeroValued

/-! ## Sums over the mergeset -/

theorem sum_feesFrom {txs : List (ShieldedTx P × Hash)} {bs : List Hash} (hnd : bs.Nodup) (hsrc : ∀ p ∈ txs, p.2 ∈ bs) :
    (bs.map (feesFrom txs)).sum = txFees (txs.map (·.1)) := by
  induction txs with
  | nil =>
    have hz : (bs.map (feesFrom ([] : List (ShieldedTx P × Hash)))) = bs.map fun _ => 0 := rfl
    rw [hz]
    simp [txFees]
  | cons p txs ih =>
    have hsplit : bs.map (feesFrom (p :: txs)) =
        bs.map fun b => (if p.2 = b then p.1.fee.toNat else 0) + feesFrom txs b :=
      map_congr_left fun b _ => feesFrom_cons p txs b
    have hone : (bs.map fun b => if p.2 = b then p.1.fee.toNat else 0).sum = p.1.fee.toNat := by
      rw [← sum_toFinset _ hnd, Finset.sum_ite_eq, if_pos (mem_toFinset.mpr (hsrc p (by simp)))]
    rw [hsplit, sum_map_add, hone, ih fun q hq => hsrc q (by simp [hq])]
    simp [txFees]

section Delta

variable {rewards : MergesetRewards} {nonDaa : Finset Hash} {g : Hash → BlockRewardData}

/-- Fees of a block outside the DAA window: collected, and re-minted by no blue output. -/
def outsideFees (nonDaa : Finset Hash) (g : Hash → BlockRewardData) (b : Hash) : Nat :=
  if b ∈ nonDaa then (g b).totalFees.toNat else 0

theorem windowFees_add_outsideFees (b : Hash) :
    windowFees nonDaa g b + outsideFees nonDaa g b = (g b).totalFees.toNat := by
  unfold windowFees outsideFees
  split <;> omega

theorem blueDelta_eq {blues : List Hash} (hr : ∀ b ∈ blues, rewards b = some (g b)) :
    blueDelta rewards nonDaa blues =
      some (((blues.map (windowSubsidy nonDaa g)).sum : Int) - (blues.map (outsideFees nonDaa g)).sum) := by
  induction blues with
  | nil => rfl
  | cons b bs ih =>
    rw [blueDelta, hr b (by simp), ih fun b' hb' => hr b' (by simp [hb'])]
    simp only [bind_eq_bind, bind_some, Option.pure_def, Option.some.injEq, map_cons, sum_cons,
      windowSubsidy, outsideFees]
    split <;> push_cast <;> omega

theorem redDelta_eq {reds : List Hash} (hr : ∀ b ∈ reds, rewards b = some (g b)) :
    redDelta rewards nonDaa reds = some ((reds.map (windowSubsidy nonDaa g)).sum : Int) := by
  induction reds with
  | nil => rfl
  | cons b bs ih =>
    have ih := ih fun b' hb' => hr b' (by simp [hb'])
    by_cases hn : b ∈ nonDaa
    · rw [redDelta, if_pos hn, ih]
      simp [windowSubsidy, hn]
    · rw [redDelta, if_neg hn, hr b (by simp), ih]
      simp [windowSubsidy, hn]

/-- The pool delta that the reward entries of a mergeset account for. -/
def entryDelta (gd : GhostdagData) (nonDaa : Finset Hash) (g : Hash → BlockRewardData) : Int :=
  ((gd.mergesetBlues.map (windowSubsidy nonDaa g)).sum : Int) - (gd.mergesetBlues.map (outsideFees nonDaa g)).sum +
    (gd.mergesetReds.map (windowSubsidy nonDaa g)).sum

variable {gd : GhostdagData}

theorem expectedDelta_eq (hr : ∀ b ∈ gd.mergesetBlues ++ gd.mergesetReds, rewards b = some (g b)) :
    expectedDelta gd rewards nonDaa = some (entryDelta gd nonDaa g) := by
  rw [expectedDelta, blueDelta_eq fun b hb => hr b (by simp [hb]), redDelta_eq fun b hb => hr b (by simp [hb])]
  rfl

variable {minerData : MinerData} {outs : List TransactionOutput} {red : Bool}

/-- What the coinbase pays over the mergeset. -/
theorem coinbaseOutputs_sum
    (hr : ∀ b ∈ gd.mergesetBlues ++ gd.mergesetReds, rewards b = some (g b))
    (h : coinbaseOutputs gd rewards nonDaa minerData = some (outs, red)) :
    natSum (outs.map (·.value)) =
      (gd.mergesetBlues.map (windowSubsidy nonDaa g)).sum + (gd.mergesetBlues.map (windowFees nonDaa g)).sum +
        ((gd.mergesetReds.map (windowSubsidy nonDaa g)).sum +
          (gd.mergesetReds.map fun b => (g b).totalFees.toNat).sum) := by
  unfold coinbaseOutputs at h
  simp only [bind_eq_bind, bind_eq_some_iff] at h
  obtain ⟨blueOuts, hblue, redVal, hred, h⟩ := h
  have hb := blueOutputs_sum (fun b hb => hr b (by simp [hb])) hblue
  have hrv := (computes_redReward (fun b hb => hr b (by simp [hb])) 0 redVal).mp hred
  rw [sum_map_add] at hb hrv
  have h0 : (0 : UInt64).toNat = 0 := rfl
  split at h
  · obtain ⟨rfl, -⟩ := Prod.mk.inj (some.inj h)
    rw [map_append, natSum_append, hb]
    simp only [map_cons, map_nil, natSum_cons, natSum_nil]
    omega
  · obtain ⟨rfl, -⟩ := Prod.mk.inj (some.inj h)
    omega

/-- The expected coinbase pays what `coinbaseOutputs` lists. -/
theorem expectedCoinbaseTransaction_outputs {m : CoinbaseManager} {daaScore : Nat}
    {shieldedCommitment : P.StateRoot} {expected : CoinbaseTransactionTemplate P}
    (h : m.expectedCoinbaseTransaction daaScore minerData gd rewards nonDaa shieldedCommitment = .ok expected) :
    ∃ red, coinbaseOutputs gd rewards nonDaa minerData = some (expected.tx.outputs, red) := by
  unfold CoinbaseManager.expectedCoinbaseTransaction at h
  cases hco : coinbaseOutputs gd rewards nonDaa minerData with
  | none => simp [hco] at h
  | some r =>
    obtain ⟨outs, red⟩ := r
    simp only [hco] at h
    split at h
    · cases h
    · cases h
      exact ⟨red, rfl⟩

/-- What the coinbase pays less all fees of the mergeset is the delta of the reward entries. -/
theorem coinbaseOutputs_sub_fees
    (hr : ∀ b ∈ gd.mergesetBlues ++ gd.mergesetReds, rewards b = some (g b))
    (h : coinbaseOutputs gd rewards nonDaa minerData = some (outs, red)) :
    (natSum (outs.map (·.value)) : Int) -
        ((gd.mergesetBlues ++ gd.mergesetReds).map fun b => (g b).totalFees.toNat).sum = entryDelta gd nonDaa g := by
  have hblue : (gd.mergesetBlues.map fun b => (g b).totalFees.toNat).sum =
      (gd.mergesetBlues.map (windowFees nonDaa g)).sum + (gd.mergesetBlues.map (outsideFees nonDaa g)).sum := by
    rw [← sum_map_add]
    exact congrArg sum (map_congr_left fun b _ => (windowFees_add_outsideFees b).symm)
  rw [coinbaseOutputs_sum hr h, map_append, sum_append, hblue, entryDelta]
  push_cast
  omega

end Delta

/-! ## The theorem -/

section PoolDelta

variable (env : UtxoEnv P) (stores : ShieldedStores P) (gd : GhostdagData) (view : UtxoView)
  (anchorFinal : ShieldedTx P → Bool) (nonDaa : Finset Hash)

/-- Subsidies of the mergeset blocks inside the DAA window. -/
def windowSubsidies : Nat :=
  (((gd.mergesetBlues ++ gd.mergesetReds).filter fun b => b ∉ nonDaa).map fun b =>
    (env.bodies b).coinbase.payload.subsidy.toNat).sum

/-- Applied fees of the blue blocks outside the DAA window. -/
def outsideBlueFees : Nat :=
  ((gd.mergesetBlues.filter fun b => b ∈ nonDaa).map fun b => appliedFees env stores gd view anchorFinal b).sum

theorem sum_map_ite {bs : List Hash} (p : Hash → Prop) [DecidablePred p] (f : Hash → Nat) :
    (bs.map fun b => if p b then f b else 0).sum = ((bs.filter p).map f).sum := by
  induction bs with
  | nil => rfl
  | cons b bs ih => by_cases hb : p b <;> simp [hb, ih]

theorem appliedTxs_source {p : ShieldedTx P × Hash} (h : p ∈ appliedTxs env stores gd view anchorFinal) :
    p.2 ∈ gd.mergesetBlues ++ gd.mergesetReds := by
  have hmem : p ∈ collectedTxs env gd view := by
    obtain ⟨⟨q, k⟩, hq, hk⟩ := mem_filterMap.mp h
    cases k with
    | false => simp at hk
    | true =>
      obtain rfl : q = p := by simpa using hk
      exact (of_mem_zip hq).1
  obtain ⟨m, hm, hp⟩ := mem_flatMap.mp hmem
  rw [extracted_source hp]
  exact (mem_mergeset_iff env gd view).mp (mem_map_of_mem hm)

/-- `compute` collects exactly the fees of the applied transactions. -/
theorem compute_applied {ctx : UtxoProcessingContext P} {mint : Option (CoinbaseMint P)} {c : ComputedBlockShielded P}
    (hctx : calculateUtxoState env stores gd view anchorFinal = some ctx)
    (hc : stores.compute gd.selectedParent mint ctx.shieldedTxs = .ok c) :
    c.supplyTotals.cumulativeCoinbase = (stores.supplyTotalsAt gd.selectedParent).cumulativeCoinbase + totalMint mint ∧
      c.supplyTotals.cumulativeFees = (stores.supplyTotalsAt gd.selectedParent).cumulativeFees +
        txFees ((appliedTxs env stores gd view anchorFinal).map (·.1)) := by
  obtain ⟨tree, tree', -, hspec, -, -⟩ := compute_ok hc
  have htxs := (calculateUtxoState_ok env stores gd view anchorFinal hctx).1
  have hkept : survivors (Resolver.new stores.contains) ((appliedTxs env stores gd view anchorFinal).map (·.1)) =
      (appliedTxs env stores gd view anchorFinal).map (·.1) := by
    unfold appliedTxs
    rw [← keptTxs_map]
    exact survivors_keptTxs _ _ _
  refine ⟨hspec.coinbase, ?_⟩
  have hfees := hspec.fees
  rw [htxs, hkept] at hfees
  exact hfees

/-- The delta of the entries that `calculate_utxo_state` leaves, in terms of the mergeset. -/
theorem entryDelta_eq {g : Hash → BlockRewardData}
    (hsubsidy : ∀ b ∈ gd.mergesetBlues ++ gd.mergesetReds, (g b).subsidy = (env.bodies b).coinbase.payload.subsidy)
    (hfees : ∀ b ∈ gd.mergesetBlues ++ gd.mergesetReds,
      (g b).totalFees.toNat = appliedFees env stores gd view anchorFinal b) :
    entryDelta gd nonDaa g =
      (windowSubsidies env gd nonDaa : Int) - outsideBlueFees env stores gd view anchorFinal nonDaa := by
  have hsubs : windowSubsidies env gd nonDaa =
      (gd.mergesetBlues.map (windowSubsidy nonDaa g)).sum + (gd.mergesetReds.map (windowSubsidy nonDaa g)).sum := by
    rw [← sum_append, ← map_append, windowSubsidies, ← sum_map_ite]
    refine congrArg sum (map_congr_left fun b hb => ?_)
    rw [windowSubsidy, hsubsidy b hb]
    by_cases hn : b ∈ nonDaa <;> simp [hn]
  have hout : outsideBlueFees env stores gd view anchorFinal nonDaa =
      (gd.mergesetBlues.map (outsideFees nonDaa g)).sum := by
    rw [outsideBlueFees, ← sum_map_ite]
    refine congrArg sum (map_congr_left fun b hb => ?_)
    rw [outsideFees, hfees b (by simp [hb])]
  rw [entryDelta, hsubs, hout]
  push_cast
  omega

/-- **The fee cycle closes exactly.** If the coinbase is the expected one for the rewards that
`calculate_utxo_state` leaves, the pool grows by the subsidies of the DAA-included mergeset blocks less
the applied fees of the blue blocks outside the window; so the pool-delta check passes, and the fees
the rewards carry are those of applied transactions only. -/
theorem poolDelta_exact (hs : env.shieldedCoinbase = true) (hview : ∀ o, view o = none)
    {ctx : UtxoProcessingContext P} (hctx : calculateUtxoState env stores gd view anchorFinal = some ctx)
    {m : CoinbaseManager} {daaScore : Nat} {minerData : MinerData} {shieldedCommitment : P.StateRoot}
    {expected : CoinbaseTransactionTemplate P}
    (hexp : m.expectedCoinbaseTransaction daaScore minerData gd ctx.mergesetRewards nonDaa shieldedCommitment =
      .ok expected)
    {txid : Hash} {mint : CoinbaseMint P} (hmint : buildCoinbaseMint txid expected.tx = .ok mint)
    {computed : ComputedBlockShielded P}
    (hcomp : stores.compute gd.selectedParent (some mint) ctx.shieldedTxs = .ok computed) :
    actualDelta (stores.supplyTotalsAt gd.selectedParent) computed.supplyTotals =
        (windowSubsidies env gd nonDaa : Int) - outsideBlueFees env stores gd view anchorFinal nonDaa ∧
      checkPoolDelta gd ctx.mergesetRewards nonDaa (stores.supplyTotalsAt gd.selectedParent)
        computed.supplyTotals = .ok () ∧
      ∀ b ∈ gd.mergesetBlues ++ gd.mergesetReds, ∃ r, ctx.mergesetRewards b = some r ∧
        r.totalFees.toNat = feesFrom (appliedTxs env stores gd view anchorFinal) b := by
  obtain ⟨-, g, hg⟩ := calculateUtxoState_ok env stores gd view anchorFinal hctx
  have hr : ∀ b ∈ gd.mergesetBlues ++ gd.mergesetReds, ctx.mergesetRewards b = some (g b) := fun b hb => (hg b hb).1
  have hfees : ∀ b ∈ gd.mergesetBlues ++ gd.mergesetReds,
      (g b).totalFees.toNat = feesFrom (appliedTxs env stores gd view anchorFinal) b := by
    intro b hb
    rw [(hg b hb).2.2, appliedFees_shielded env stores gd view anchorFinal hs hview]
  have hall : ((gd.mergesetBlues ++ gd.mergesetReds).map fun b => (g b).totalFees.toNat).sum =
      txFees ((appliedTxs env stores gd view anchorFinal).map (·.1)) := by
    rw [map_congr_left hfees]
    exact sum_feesFrom gd.mergeset_nodup fun p hp => appliedTxs_source env stores gd view anchorFinal hp
  -- what the ledger gained is what the coinbase pays, less the fees that `compute` collected
  have hdelta : actualDelta (stores.supplyTotalsAt gd.selectedParent) computed.supplyTotals =
      entryDelta gd nonDaa g := by
    obtain ⟨hcoinbase, hcollected⟩ := compute_applied env stores gd view anchorFinal hctx hcomp
    have hpaid : totalMint (some mint) = natSum (expected.tx.outputs.map (·.value)) := buildCoinbaseMint_totalMint hmint
    obtain ⟨red, houts⟩ := expectedCoinbaseTransaction_outputs hexp
    rw [← coinbaseOutputs_sub_fees hr houts, hall, ← hpaid]
    unfold actualDelta
    rw [hcoinbase, hcollected]
    push_cast
    omega
  refine ⟨?_, ?_, fun b hb => ⟨g b, hr b hb, hfees b hb⟩⟩
  · rw [hdelta]
    exact entryDelta_eq env stores gd view anchorFinal nonDaa (fun b hb => (hg b hb).2.1) fun b hb => (hg b hb).2.2
  · simp [checkPoolDelta, expectedDelta_eq hr, hdelta]

end PoolDelta

/-! A block that merges its selected parent, with subsidy 50 and one applied fee of 7: its coinbase pays 57,
and the pool grows by 50. -/

/-- The selected parent `1` paid its miner's script and carries one shielded transaction. -/
def oneFee : UtxoEnv symbolic where
  shieldedCoinbase := true
  blueWork := fun _ => 0
  bodies := fun _ =>
    ⟨⟨TX_VERSION, [], ⟨0, 50, ([], 0, 0, 0), ⟨⟨0, replicate 43 0⟩, []⟩⟩⟩, [shieldedTxOf 11 21 7]⟩
  coinbaseId := fun _ => 0
  rules := fun _ _ _ => true

/-- The four computations in a row. -/
def oneFeeCycle : Option (UtxoProcessingContext symbolic × CoinbaseTransactionTemplate symbolic ×
    CoinbaseMint symbolic × ComputedBlockShielded symbolic) := do
  let ctx ← calculateUtxoState oneFee empty onlyParent (fun _ => none) (fun _ => true)
  let expected ← (CoinbaseManager.expectedCoinbaseTransaction ⟨150, 0, fun _ => 50⟩ 1 ⟨⟨0, replicate 43 0⟩, []⟩
    onlyParent ctx.mergesetRewards ∅ ([], 0, 0, 0)).toOption
  let mint ← (buildCoinbaseMint 5 expected.tx).toOption
  let computed ← (empty.compute onlyParent.selectedParent (some mint) ctx.shieldedTxs).toOption
  pure (ctx, expected, mint, computed)

theorem oneFeeCycle_delta : ∃ ctx expected mint computed, oneFeeCycle = some (ctx, expected, mint, computed) ∧
    expected.tx.outputs.map (·.value) = [57] ∧
    actualDelta ((empty : ShieldedStores symbolic).supplyTotalsAt onlyParent.selectedParent)
      computed.supplyTotals = 50 := by
  have hsome : oneFeeCycle.isSome := by decide
  have houts : oneFeeCycle.map (fun r => r.2.1.tx.outputs.map (·.value)) = some [57] := by decide
  obtain ⟨⟨ctx, expected, mint, computed⟩, h⟩ := isSome_iff_exists.mp hsome
  rw [h] at houts
  refine ⟨ctx, expected, mint, computed, h, some.inj houts, ?_⟩
  simp only [oneFeeCycle, bind_eq_bind, bind_eq_some_iff, Except.toOption_eq_some_iff, Option.pure_def,
    some.injEq, Prod.mk.injEq] at h
  obtain ⟨_, hctx, _, hexp, _, hmint, _, hcomp, rfl, rfl, rfl, rfl⟩ := h
  have hdelta := (poolDelta_exact oneFee empty onlyParent (fun _ => none) (fun _ => true) ∅ rfl
    (fun _ => rfl) hctx hexp hmint hcomp).1
  rw [hdelta]
  decide

end Firecash
