import Firecash.Consensus.Types
import Firecash.Consensus.Manager

/-!
# Coinbase rewards

What a block's coinbase must pay (`expected_coinbase_transaction`, processes/coinbase.rs:154) and the
notes its outputs mint on a shielded-coinbase network (`build_coinbase_mint`,
processes/shielded.rs:171). Reward arithmetic is `u64` under overflow checks: `none` is a panic.
-/

namespace Firecash

open Checked List Option

variable {P : Prim}

/-- `BlockRewardData` (coinbase.rs) -/
structure BlockRewardData where
  subsidy : UInt64
  totalFees : UInt64
  scriptPublicKey : ScriptPublicKey
  deriving DecidableEq

/-- `BlockHashMap<BlockRewardData>` -/
abbrev MergesetRewards := Hash → Option BlockRewardData

/-- One output per blue block of the DAA window that earned anything (coinbase.rs:168-174). -/
def blueOutputs (rewards : MergesetRewards) (nonDaa : Finset Hash) : List Hash → Option (List TransactionOutput)
  | [] => some []
  | blue :: blues =>
    if blue ∈ nonDaa then blueOutputs rewards nonDaa blues
    else do
      let reward ← rewards blue
      let value ← checkedAdd reward.subsidy reward.totalFees
      let outputs ← blueOutputs rewards nonDaa blues
      if 0 < value.toNat then pure (⟨value, reward.scriptPublicKey⟩ :: outputs) else pure outputs

/-- What a red block adds to the red reward (coinbase.rs:182-186). -/
def redGain (nonDaa : Finset Hash) (red : Hash) (reward : BlockRewardData) : Option UInt64 :=
  if red ∈ nonDaa then some reward.totalFees else checkedAdd reward.subsidy reward.totalFees

/-- `red_reward` (coinbase.rs:178-187), from a running total. -/
def redReward (rewards : MergesetRewards) (nonDaa : Finset Hash) (total : UInt64) : List Hash → Option UInt64
  | [] => some total
  | red :: reds => do
    let reward ← rewards red
    let gain ← redGain nonDaa red reward
    let total ← checkedAdd total gain
    redReward rewards nonDaa total reds

/-- All outputs: the blue ones, then one for all reds, to the merging block. -/
def coinbaseOutputs (gd : GhostdagData) (rewards : MergesetRewards) (nonDaa : Finset Hash)
    (minerData : MinerData) : Option (List TransactionOutput × Bool) := do
  let outputs ← blueOutputs rewards nonDaa gd.mergesetBlues
  let red ← redReward rewards nonDaa 0 gd.mergesetReds
  if 0 < red.toNat then pure (outputs ++ [⟨red, minerData.scriptPublicKey⟩], true) else pure (outputs, false)

/-- The fields of `CoinbaseManager` that are read here; `calcBlockSubsidy` is the emission schedule. -/
structure CoinbaseManager where
  coinbasePayloadScriptPublicKeyMaxLen : Nat
  toccataActivation : Nat
  calcBlockSubsidy : Nat → UInt64

/-- `CoinbaseError`, of which the payload writer raises this one. -/
inductive CoinbaseError where
  | payloadScriptPublicKeyLenAboveMax (len max : Nat)
  deriving DecidableEq

/-- `CoinbaseTransactionTemplate` -/
structure CoinbaseTransactionTemplate (P : Prim) where
  tx : CoinbaseTransaction P
  hasRedReward : Bool

/-- `expected_coinbase_transaction` (coinbase.rs:154) -/
def CoinbaseManager.expectedCoinbaseTransaction (m : CoinbaseManager) (daaScore : Nat) (minerData : MinerData)
    (gd : GhostdagData) (rewards : MergesetRewards) (nonDaa : Finset Hash) (shieldedCommitment : P.StateRoot) :
    Except (Fault CoinbaseError) (CoinbaseTransactionTemplate P) :=
  match coinbaseOutputs gd rewards nonDaa minerData with
  | none => .error .panic
  | some (outputs, hasRedReward) =>
    if minerData.scriptPublicKey.script.length > m.coinbasePayloadScriptPublicKeyMaxLen then
      .error (.err (.payloadScriptPublicKeyLenAboveMax minerData.scriptPublicKey.script.length
        m.coinbasePayloadScriptPublicKeyMaxLen))
    else
      let version := if daaScore ≥ m.toccataActivation then TX_VERSION_TOCCATA else TX_VERSION
      .ok ⟨⟨version, outputs, ⟨gd.blueScore, m.calcBlockSubsidy daaScore, shieldedCommitment, minerData⟩⟩, hasRedReward⟩

/-! ## Minting -/

/-- The output loop of `build_coinbase_mint`, at index `i`. -/
def buildNotes (txid : Hash) (i : Nat) : List TransactionOutput → Except ShieldedManagerError (List (CoinbaseNote P))
  | [] => .ok []
  | out :: outs =>
    if out.scriptPublicKey.script.length < 43 then
      .error (.malformedCoinbaseNote "coinbase reward script too short for an Orchard address")
    else
      match P.coinbaseCommitment (out.scriptPublicKey.script.take 43) txid i out.value with
      | none => .error (.malformedCoinbaseNote "coinbase reward recipient is not a canonical Orchard address")
      | some commitment => (buildNotes txid (i + 1) outs).map (⟨out.value, commitment⟩ :: ·)

/-- `build_coinbase_mint` (processes/shielded.rs:171) -/
def buildCoinbaseMint (txid : Hash) (coinbase : CoinbaseTransaction P) : Except ShieldedManagerError (CoinbaseMint P) :=
  (buildNotes txid 0 coinbase.outputs).map fun notes => ⟨notes⟩

variable {txid : Hash}

theorem buildNotes_values {i : Nat} {outs : List TransactionOutput} {notes : List (CoinbaseNote P)}
    (h : buildNotes txid i outs = .ok notes) : notes.map (·.value) = outs.map (·.value) := by
  induction outs generalizing i notes with
  | nil => cases h; rfl
  | cons out outs ih =>
    unfold buildNotes at h
    split at h
    · cases h
    · split at h
      · cases h
      · cases hr : buildNotes txid (i + 1) outs with
        | error e => rw [hr] at h; cases h
        | ok rest =>
          rw [hr] at h
          cases h
          simp [ih hr]

/-- A mint's notes carry exactly the coinbase's output values. -/
theorem buildCoinbaseMint_totalMint {coinbase : CoinbaseTransaction P} {mint : CoinbaseMint P}
    (h : buildCoinbaseMint txid coinbase = .ok mint) :
    totalMint (some mint) = natSum (coinbase.outputs.map (·.value)) := by
  unfold buildCoinbaseMint at h
  cases hn : buildNotes txid 0 coinbase.outputs with
  | error e => rw [hn] at h; cases h
  | ok notes =>
    rw [hn] at h
    cases h
    simp [totalMint, mintedNotes, buildNotes_values hn]

/-! ## When the reward arithmetic fits, and what it pays

`g` is the reward entry of each block: every mergeset block has one when the coinbase is built. -/

section Rewards

variable {rewards : MergesetRewards} {nonDaa : Finset Hash} {g : Hash → BlockRewardData}

/-- Subsidy counts inside the DAA window only. -/
def windowSubsidy (nonDaa : Finset Hash) (g : Hash → BlockRewardData) (b : Hash) : Nat :=
  if b ∈ nonDaa then 0 else (g b).subsidy.toNat

/-- Fees the blue outputs pay on: none for a block outside the DAA window. -/
def windowFees (nonDaa : Finset Hash) (g : Hash → BlockRewardData) (b : Hash) : Nat :=
  if b ∈ nonDaa then 0 else (g b).totalFees.toNat

variable {blues : List Hash}

theorem blueOutputs_isSome (hr : ∀ b ∈ blues, rewards b = some (g b)) :
    (blueOutputs rewards nonDaa blues).isSome ↔
      ∀ b ∈ blues, b ∉ nonDaa → (g b).subsidy.toNat + (g b).totalFees.toNat < U64_BOUND := by
  induction blues with
  | nil => simp [blueOutputs]
  | cons b bs ih =>
    have hrb := hr b (by simp)
    have ih := ih fun b' hb' => hr b' (by simp [hb'])
    by_cases hn : b ∈ nonDaa
    · rw [blueOutputs, if_pos hn, ih]
      simp [hn]
    · rw [blueOutputs, if_neg hn, forall_mem_cons, ← ih]
      simp only [hrb, bind_eq_bind, bind_some, hn, not_false_eq_true, forall_true_left]
      cases hv : checkedAdd (g b).subsidy (g b).totalFees with
      | none =>
        have hge := checkedAdd_eq_none.mp hv
        simp only [bind_none, isSome_none, Bool.false_eq_true, false_iff, not_and]
        intro hlt
        omega
      | some v =>
        have hlt := toNat_lt_bound v
        rw [checkedAdd_eq_some.mp hv] at hlt
        simp only [hlt, true_and, bind_some]
        cases blueOutputs rewards nonDaa bs with
        | none => simp
        | some outs =>
          split <;> rfl

theorem blueOutputs_sum {outs : List TransactionOutput}
    (hr : ∀ b ∈ blues, rewards b = some (g b)) (h : blueOutputs rewards nonDaa blues = some outs) :
    natSum (outs.map (·.value)) = (blues.map fun b => windowSubsidy nonDaa g b + windowFees nonDaa g b).sum := by
  induction blues generalizing outs with
  | nil => cases h; rfl
  | cons b bs ih =>
    have hr' : ∀ b' ∈ bs, rewards b' = some (g b') := fun b' hb' => hr b' (by simp [hb'])
    by_cases hn : b ∈ nonDaa
    · rw [blueOutputs, if_pos hn] at h
      simp [ih hr' h, windowSubsidy, windowFees, hn]
    · rw [blueOutputs, if_neg hn] at h
      simp only [hr b (by simp), bind_eq_bind, bind_some, bind_eq_some_iff] at h
      obtain ⟨v, hv, rest, hrest, h⟩ := h
      have hval : v.toNat = windowSubsidy nonDaa g b + windowFees nonDaa g b := by
        simp only [windowSubsidy, windowFees, hn, if_false, checkedAdd_eq_some.mp hv]
      rw [map_cons, sum_cons, ← ih hr' hrest, ← hval]
      split at h
      · cases h
        rw [map_cons, natSum_cons]
      · cases h
        omega

theorem computes_redGain (b : Hash) :
    Computes (redGain nonDaa b (g b)) (windowSubsidy nonDaa g b + (g b).totalFees.toNat) := by
  unfold redGain windowSubsidy
  split
  · simpa using Computes.some (g b).totalFees
  · exact Computes.add _ _

theorem computes_redReward {reds : List Hash} (hr : ∀ b ∈ reds, rewards b = some (g b)) (total : UInt64) :
    Computes (redReward rewards nonDaa total reds)
      (total.toNat + (reds.map fun b => windowSubsidy nonDaa g b + (g b).totalFees.toNat).sum) := by
  induction reds generalizing total with
  | nil => exact Computes.some total
  | cons b bs ih =>
    have hr' : ∀ b' ∈ bs, rewards b' = some (g b') := fun b' hb' => hr b' (by simp [hb'])
    simp only [redReward, hr b (by simp), bind_eq_bind, bind_some, map_cons, sum_cons]
    refine (computes_redGain b).bind (fun gain hgain => ?_) (by omega)
    refine (Computes.add total gain).bind (fun total' htotal => ?_) (by omega)
    have h := ih hr' total'
    rw [htotal, hgain, Nat.add_assoc] at h
    exact h

end Rewards

end Firecash
