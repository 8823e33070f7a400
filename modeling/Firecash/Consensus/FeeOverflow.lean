import Firecash.Shielded.Symbolic
import Firecash.Consensus.FeeAccounting

/-!
# Overflow of the fee accounting

A shielded fee is any non-negative `i64`, and a transaction that spends against a made-up anchor still
counts until the anchor is looked at, so nothing bounds the fees that `calculate_utxo_state` adds up
before it drops anything. `rewardAccounting_isSafe_iff` says exactly when the `u64` arithmetic on fees
and rewards stays in range: three sums over the inputs must fit. The subtractions never underflow,
and no intermediate sum overflows when those three do not.

### Counterexample: three fees of `i64::MAX`

`threeMaxFees`: one merged block with three shielded transactions of value balance `i64::MAX`. Each
passes isolation and UTXO-context validation; `2^63 - 1` three times does not fit in `u64`.
-/

namespace Firecash

open Checked ShieldedStores

variable {P : Prim}

theorem runningFits_iff (vs : List (ValidatedTransaction P)) (total : Nat) :
    RunningFits total vs ↔
      ∀ pre v post, vs = pre ++ v :: post → total + countedFees pre + v.calculatedFee.toNat < U64_BOUND := by
  induction vs generalizing total with
  | nil => simp [RunningFits]
  | cons w vs ih =>
    rw [RunningFits, ih]
    constructor
    · rintro ⟨hw, hvs⟩ pre v post heq
      cases pre with
      | nil =>
        obtain ⟨rfl, rfl⟩ := List.cons.inj heq
        simpa [countedFees] using hw
      | cons u pre =>
        obtain ⟨rfl, rfl⟩ := List.cons.inj heq
        have := hvs pre v post rfl
        rw [countedFees_cons]
        omega
    · intro h
      refine ⟨by simpa [countedFees] using h [] w vs rfl, ?_⟩
      rintro pre v post rfl
      have := h (w :: pre) v post rfl
      rw [countedFees_cons] at this
      omega

section Safety

variable (env : UtxoEnv P) (stores : ShieldedStores P) (gd : GhostdagData) (view : UtxoView)
  (anchorFinal : ShieldedTx P → Bool) (nonDaa : Finset Hash)

/-- The three sums that must fit: in every merged block the fees counted so far plus the next fee; for
every rewarded blue its subsidy plus its applied fees; over all reds, subsidies inside the DAA window
plus applied fees. -/
structure FeesFit : Prop where
  running : ∀ m ∈ mergeset env gd view, ∀ pre v post, m.2 = pre ++ v :: post →
    countedFees pre + v.calculatedFee.toNat < U64_BOUND
  blue : ∀ b ∈ gd.mergesetBlues, b ∉ nonDaa →
    (env.bodies b).coinbase.payload.subsidy.toNat + appliedFees env stores gd view anchorFinal b < U64_BOUND
  red : (gd.mergesetReds.map fun b =>
      (if b ∈ nonDaa then 0 else (env.bodies b).coinbase.payload.subsidy.toNat) +
        appliedFees env stores gd view anchorFinal b).sum < U64_BOUND

theorem expectedCoinbaseTransaction_ne_panic (m : CoinbaseManager) (daaScore : Nat) (minerData : MinerData)
    (rewards : MergesetRewards) (shieldedCommitment : P.StateRoot) :
    m.expectedCoinbaseTransaction daaScore minerData gd rewards nonDaa shieldedCommitment ≠ .error .panic ↔
      (blueOutputs rewards nonDaa gd.mergesetBlues).isSome ∧ (redReward rewards nonDaa 0 gd.mergesetReds).isSome := by
  unfold CoinbaseManager.expectedCoinbaseTransaction coinbaseOutputs
  cases blueOutputs rewards nonDaa gd.mergesetBlues with
  | none => simp
  | some outs =>
    cases redReward rewards nonDaa 0 gd.mergesetReds with
    | none => simp
    | some red =>
      by_cases hr : 0 < red.toNat <;> simp [hr] <;> split <;> simp

/-- **The fee and reward arithmetic stays within `u64` exactly when the three sums fit.** -/
theorem rewardAccounting_isSafe_iff (m : CoinbaseManager) (daaScore : Nat) (minerData : MinerData)
    (shieldedCommitment : P.StateRoot) :
    (∃ ctx, calculateUtxoState env stores gd view anchorFinal = some ctx ∧
      m.expectedCoinbaseTransaction daaScore minerData gd ctx.mergesetRewards nonDaa shieldedCommitment ≠
        .error .panic) ↔
    FeesFit env stores gd view anchorFinal nonDaa := by
  have hrun : (∀ k ∈ mergeset env gd view, RunningFits 0 k.2) ↔ ∀ k ∈ mergeset env gd view, ∀ pre v post,
      k.2 = pre ++ v :: post → countedFees pre + v.calculatedFee.toNat < U64_BOUND := by
    simp only [runningFits_iff, Nat.zero_add]
  -- what the coinbase needs, once the rewards are the applied fees
  have hcoinbase : ∀ ctx, calculateUtxoState env stores gd view anchorFinal = some ctx →
      (m.expectedCoinbaseTransaction daaScore minerData gd ctx.mergesetRewards nonDaa shieldedCommitment ≠
          .error .panic ↔
        (∀ b ∈ gd.mergesetBlues, b ∉ nonDaa → (env.bodies b).coinbase.payload.subsidy.toNat +
          appliedFees env stores gd view anchorFinal b < U64_BOUND) ∧
        (gd.mergesetReds.map fun b => (if b ∈ nonDaa then 0 else (env.bodies b).coinbase.payload.subsidy.toNat) +
          appliedFees env stores gd view anchorFinal b).sum < U64_BOUND) := by
    intro ctx hctx
    obtain ⟨-, g, hg⟩ := calculateUtxoState_ok env stores gd view anchorFinal hctx
    have hblue : ∀ b ∈ gd.mergesetBlues, ctx.mergesetRewards b = some (g b) := fun b hb => (hg b (by simp [hb])).1
    have hred : ∀ b ∈ gd.mergesetReds, ctx.mergesetRewards b = some (g b) := fun b hb => (hg b (by simp [hb])).1
    rw [expectedCoinbaseTransaction_ne_panic, blueOutputs_isSome hblue, (computes_redReward hred 0).isSome]
    refine and_congr ?_ ?_
    · refine forall₂_congr fun b hb => ?_
      obtain ⟨-, hsub, hfees⟩ := hg b (by simp [hb])
      rw [hsub, hfees]
    · have hsum : (gd.mergesetReds.map fun b => windowSubsidy nonDaa g b + (g b).totalFees.toNat) =
          gd.mergesetReds.map fun b => (if b ∈ nonDaa then 0 else (env.bodies b).coinbase.payload.subsidy.toNat) +
            appliedFees env stores gd view anchorFinal b := by
        refine List.map_congr_left fun b hb => ?_
        obtain ⟨-, hsub, hfees⟩ := hg b (by simp [hb])
        rw [windowSubsidy, hsub, hfees]
      rw [hsum]
      simp
  constructor
  · rintro ⟨ctx, hctx, hpay⟩
    have hsome : (calculateUtxoState env stores gd view anchorFinal).isSome := by simp [hctx]
    obtain ⟨hblue, hred⟩ := (hcoinbase ctx hctx).mp hpay
    exact ⟨hrun.mp ((calculateUtxoState_isSome env stores gd view anchorFinal).mp hsome), hblue, hred⟩
  · rintro ⟨hfit, hblue, hred⟩
    obtain ⟨ctx, hctx⟩ := Option.isSome_iff_exists.mp
      ((calculateUtxoState_isSome env stores gd view anchorFinal).mpr (hrun.mpr hfit))
    exact ⟨ctx, hctx, (hcoinbase ctx hctx).mpr ⟨hblue, hred⟩⟩

end Safety

/-! ### Counterexample -/

/-- A shielded transaction of one action with the given nullifier and value balance, proved against a
tree of its own. -/
def shieldedTxOf (id nf : Bytes32) (valueBalance : Int64) : Transaction symbolic :=
  ⟨id, TX_VERSION_SHIELDED, [], [], some ⟨[.plain nf nf], valueBalance, [nf]⟩⟩

/-- One merged block, the selected parent `1`, with three maximal fees. -/
def threeMaxFees : UtxoEnv symbolic where
  shieldedCoinbase := true
  blueWork := fun _ => 0
  bodies := fun _ =>
    ⟨⟨TX_VERSION, [], ⟨0, 0, ([], 0, 0, 0), ⟨⟨0, []⟩, []⟩⟩⟩,
      [shieldedTxOf 11 21 Int64.maxValue, shieldedTxOf 12 22 Int64.maxValue, shieldedTxOf 13 23 Int64.maxValue]⟩
  coinbaseId := fun _ => 0
  rules := fun _ _ _ => true

def onlyParent : GhostdagData where
  blueScore := 1
  selectedParent := 1
  mergesetBlues := [1]
  mergesetReds := []
  blues_head := rfl
  mergeset_nodup := by decide

/-- Three valid merged transactions overflow `block_fee`, although none of their anchors is final. -/
theorem threeMaxFees_panics :
    (∀ tx ∈ (threeMaxFees.bodies 1).txs, checkShieldedInIsolation tx = .ok () ∧
      (validateTransactionInUtxoContext (threeMaxFees.rules 1) (fun _ => none) tx).isOk = true) ∧
    calculateUtxoState threeMaxFees empty onlyParent (fun _ => none) (fun _ => false) = none := by
  decide

end Firecash
