import Firecash.Consensus.TxValidation
import Firecash.Walletd.PaymentPlan

/-!
# What the node asks of a shielded payment (consensus/core/src/mass/mod.rs,
mining/src/mempool/check_transaction_standard.rs)

The planner prices a transaction by its bytes alone, with a fixed allowance for the envelope. The node
charges for the actions as well, but the bytes weigh more in every transaction that carries a proof, so a
planned payment passes the node's limits (`planned_relayable`).

Masses are numbers: no payload that exists overflows them. The transient mass is halved in `f64`, which is exact.
-/

namespace Firecash

open Checked

/-- `SHIELDED_MASS_PER_ACTION` (mass/mod.rs:26) -/
def SHIELDED_MASS_PER_ACTION : Nat := 1000

/-- The block mass limit of every dimension (params.rs:770), which bounds a shielded transaction. -/
def BLOCK_MASS_LIMIT : Nat := 500000

def LEGACY_MINIMUM_RELAY_TRANSACTION_FEE : Nat := 1000

def DEFAULT_MINIMUM_RELAY_TRANSACTION_FEE : Nat := 100000

/-- `transaction_estimated_serialized_size` (mass/mod.rs:32), given the sizes of all inputs and of all outputs. -/
def transactionEstimatedSerializedSize (inputsSize outputsSize payloadLen : Nat) : Nat :=
  2 + 8 + inputsSize + 8 + outputsSize + 8 + 20 + 8 + 32 + 8 + payloadLen

structure NonContextualMasses where
  computeMass : Nat
  transientMass : Nat

/-- `calc_non_contextual_masses` (mass/mod.rs:346) of a shielded transaction, which has no inputs and no
outputs, at one gram a byte. -/
def calcNonContextualMasses (payload : List UInt8) : NonContextualMasses :=
  let size := transactionEstimatedSerializedSize 0 0 payload.length
  let actions := (WireBundle.actionCountFromBytes payload).getD 0
  ⟨size + actions * SHIELDED_MASS_PER_ACTION, size * TRANSIENT_BYTE_TO_MASS_FACTOR⟩

/-- `minimum_required_transaction_relay_fee` (check_transaction_standard.rs:182) -/
def minimumRequiredTransactionRelayFee (mass relayFee : Nat) : Nat :=
  let minimumFee := mass * relayFee / 1000
  min (if minimumFee = 0 then relayFee else minimumFee) MAX_SOMPI

/-- The fee `check_transaction_standard_in_context` asks for; the prior rules are those for low priority
before Toccata. -/
def NonContextualMasses.minimumFee (masses : NonContextualMasses) (usePriorP2pFeeRules : Bool) : Nat :=
  if usePriorP2pFeeRules then minimumRequiredTransactionRelayFee masses.computeMass LEGACY_MINIMUM_RELAY_TRANSACTION_FEE
  else
    let normalizedTransientMass := (masses.transientMass + 1) / 2
    minimumRequiredTransactionRelayFee (max masses.computeMass normalizedTransientMass)
      DEFAULT_MINIMUM_RELAY_TRANSACTION_FEE

namespace WireBundle

/-- The bundle of a transaction that spends `n` notes. -/
def Pays (b : WireBundle) (n : Nat) : Prop :=
  b.actions.length = max n 2 ∧ b.proof.length = expectedProofLen b.actions.length

variable {b : WireBundle} {n : Nat} {baseFee : UInt64}

/-- No more actions are charged than there are. -/
theorem actionCount_le (h : b.Pays n) : (actionCountFromBytes b.toBytes).getD 0 ≤ max n 2 := by
  by_cases few : b.actions.length ≤ MAX_ACTIONS_PER_BUNDLE
  · rw [actionCountFromBytes_toBytes
      ⟨few, by rw [h.2]; unfold MAX_ACTIONS_PER_BUNDLE at few; unfold expectedProofLen; omega⟩, Option.getD_some, h.1]
  · have many : MAX_ACTIONS_PER_BUNDLE < max n 2 := by rw [← h.1]; omega
    unfold actionCountFromBytes
    split
    · exact Nat.zero_le _
    · split <;> simp only [Option.getD_none, Option.getD_some] <;> omega

theorem masses_le (h : b.Pays n) : (calcNonContextualMasses b.toBytes).computeMass ≤ 2931 + 4156 * max n 2 ∧
    (calcNonContextualMasses b.toBytes).transientMass = 4 * (2931 + 3156 * max n 2) := by
  have actions := actionCount_le h
  simp only [calcNonContextualMasses, transactionEstimatedSerializedSize, length_toBytes, h.1, h.2,
    expectedProofLen, ACTION_WIRE_LEN, SHIELDED_MASS_PER_ACTION, TRANSIENT_BYTE_TO_MASS_FACTOR]
  omega

/-- The fee of the planner is enough under both rules. -/
theorem minimumFee_le (h : b.Pays n) {fee required : UInt64} (own : chunkFee baseFee n = some required)
    (enough : required ≤ fee) (prior : Bool) :
    (calcNonContextualMasses b.toBytes).minimumFee prior ≤ fee.toNat := by
  obtain ⟨compute, transient⟩ := masses_le h
  obtain ⟨relay, hrelay, rfl⟩ := Option.map_eq_some_iff.mp own
  have value := (minRelayFeeForSpends_eq_some hrelay).2
  have enough : relay.toNat ≤ fee.toNat := by
    have := UInt64.le_iff_toNat_le.mp enough
    rw [toNat_max] at this
    omega
  simp only [expectedWireLen, expectedProofLen, ACTION_WIRE_LEN, TX_ENVELOPE_BYTES_FEE, TRANSIENT_BYTE_TO_MASS_FACTOR,
    RELAY_FEE_PER_KG] at value
  unfold NonContextualMasses.minimumFee minimumRequiredTransactionRelayFee LEGACY_MINIMUM_RELAY_TRANSACTION_FEE
    DEFAULT_MINIMUM_RELAY_TRANSACTION_FEE
  split <;> refine (min_le_left _ _).trans ?_ <;> split <;> omega

end WireBundle

/-- **Planned payments are relayable.** The transactions of a plan are within the node's limits and pay
what it asks for under both rules; so does every number of notes whose fee can be computed. -/
theorem planned_relayable (baseFee : UInt64) :
    (∀ values amount plan, planPayment values amount baseFee maxSpendsPerTx = .ok plan → ∀ chunk ∈ plan.chunks,
      ∀ b : WireBundle, b.Pays (chunk.stop - chunk.start) →
        (calcNonContextualMasses b.toBytes).computeMass ≤ BLOCK_MASS_LIMIT ∧
          (calcNonContextualMasses b.toBytes).transientMass ≤ BLOCK_MASS_LIMIT ∧
        ∀ prior, (calcNonContextualMasses b.toBytes).minimumFee prior ≤ chunk.fee.toNat) ∧
    ∀ n, (expectedWireLen (max n 2) + TX_ENVELOPE_BYTES_FEE) * TRANSIENT_BYTE_TO_MASS_FACTOR / 2 *
      RELAY_FEE_PER_KG < 2 ^ 64 →
      ∃ fee, chunkFee baseFee n = some fee ∧ ∀ b :
      WireBundle, b.Pays n → ∀ prior, (calcNonContextualMasses b.toBytes).minimumFee prior ≤ fee.toNat := by
  refine ⟨fun values amount plan planned chunk listed b pays => ?_, fun n fits => ?_⟩
  · have cap : maxSpendsPerTx = 38 := by decide +kernel
    unfold planPayment at planned
    split_ifs at planned
    obtain ⟨⟨chunks, total⟩, loop, done⟩ := Except.bind_eq_ok_iff.mp planned
    cases done
    obtain ⟨few, required, own, enough⟩ := (planLoop_tiles loop).2 chunk listed
    obtain ⟨compute, transient⟩ := WireBundle.masses_le pays
    unfold BLOCK_MASS_LIMIT
    refine ⟨by omega, by omega, WireBundle.minimumFee_le (by rwa [WireBundle.Pays, Nat.max_assoc]) own enough⟩
  · have fee_eq :=
      congrArg (Option.map (max baseFee))
        (congrArg (Option.map (· / 1000)) (ofNat?_eq_some.mpr (UInt64.toNat_ofNat_of_lt' fits)))
    exact ⟨_, fee_eq, fun b pays => b.minimumFee_le pays fee_eq (UInt64.le_refl _)⟩

/-- The fee of so many notes is not computed. -/
theorem chunkFee_overflows : chunkFee 0 (2 ^ 40) = none := by
  decide +kernel

end Firecash
