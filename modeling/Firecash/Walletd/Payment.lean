import Firecash.Shielded.BundleWire

/-!
# The payment planner (sdk/wallet-engine/src/payment.rs)

A payment is cut into transactions of a standard size over the notes in the order of their value. The
fee of a transaction depends on how many notes it spends and the notes it needs depend on the fee, so
`select_spend_count` goes on until the fee is enough.

A loop takes more fuel than it has rounds. `panic` is an arithmetic overflow that is not checked for.
-/

namespace Firecash

open Checked Except

def STANDARD_TX_MASS_CAP : Nat := 500000

def TRANSIENT_BYTE_TO_MASS_FACTOR : Nat := 4

def TX_ENVELOPE_MARGIN : Nat := 256

def RELAY_FEE_PER_KG : Nat := 100000

def TX_ENVELOPE_BYTES_FEE : Nat := 128

def DEFAULT_FEE_SOMPI : UInt64 := 3000000

/-- `PaymentChunk` (payment.rs:28): the notes are `start..stop` of the sorted list. -/
structure PaymentChunk where
  start : Nat
  stop : Nat
  amount : UInt64
  fee : UInt64
  deriving DecidableEq

/-- `PaymentPlan` (payment.rs:40) -/
structure PaymentPlan where
  sortedNoteValues : List UInt64
  requestedAmount : UInt64
  chunks : List PaymentChunk
  totalFee : UInt64
  deriving DecidableEq

/-- `PlanError` (payment.rs:49) -/
inductive PlanError where
  | zeroAmount
  | noSpendCapacity
  | insufficientFunds
  | amountOverflow
  deriving DecidableEq

/-! ## Fees -/

def growSpends (budget : Nat) : Nat → Nat → Nat
  | 0, n => n
  | fuel + 1, n => if expectedWireLen (max (n + 1) 2) ≤ budget then growSpends budget fuel (n + 1) else n

/-- `max_spends_per_tx` (payment.rs:71) -/
def maxSpendsPerTx : Nat :=
  let budget := STANDARD_TX_MASS_CAP / TRANSIENT_BYTE_TO_MASS_FACTOR - TX_ENVELOPE_MARGIN
  growSpends budget budget 1

/-- `min_relay_fee_for_spends` (payment.rs:81) -/
def minRelayFeeForSpends (nSpends : Nat) : Option UInt64 :=
  let bytes := expectedWireLen (max nSpends 2) + TX_ENVELOPE_BYTES_FEE
  (ofNat? (bytes * TRANSIENT_BYTE_TO_MASS_FACTOR / 2 * RELAY_FEE_PER_KG)).map (· / 1000)

/-- `chunk_fee` (payment.rs:87) -/
def chunkFee (baseFee : UInt64) (nSpends : Nat) : Option UInt64 := (minRelayFeeForSpends nSpends).map (max baseFee)

/-! ## One transaction -/

/-- Notes are taken while there is room and they do not reach the target; `none`: their sum overflows. -/
def takeSpends (maxPerTx : Nat) (target : UInt64) : List UInt64 → Nat → UInt64 → Option Nat
  | [], n, _ => some n
  | value :: values, n, sum =>
    if n < maxPerTx ∧ sum < target then do
      let sum ← checkedAdd sum value
      takeSpends maxPerTx target values (n + 1) sum
    else some n

def settleFee (values : List UInt64) (amount baseFee : UInt64) (maxPerTx : Nat) :
    Nat → UInt64 → Except (Fault PlanError) (Nat × UInt64)
  | 0, _ => .error .panic
  | fuel + 1, fee => do
    let target ← ofOption (.err .amountOverflow) (checkedAdd amount fee)
    let n ← ofOption (.err .amountOverflow) (takeSpends maxPerTx target values 0 0)
    let required ← ofOption .panic (chunkFee baseFee (max n 1))
    if required ≤ fee then .ok (n, fee) else settleFee values amount baseFee maxPerTx fuel required

/-- `select_spend_count` (payment.rs:93): each further round takes more notes than the one before. -/
def selectSpendCount (values : List UInt64) (amount baseFee : UInt64) (maxPerTx : Nat) :
    Except (Fault PlanError) (Nat × UInt64) := do
  if amount = 0 then .error (.err .zeroAmount)
  else if maxPerTx = 0 then .error (.err .noSpendCapacity)
  else
    let fee ← ofOption .panic (chunkFee baseFee 1)
    settleFee values amount baseFee maxPerTx (values.length + 2) fee

/-! ## The whole payment -/

/-- The loop over the notes that are left, from `cursor` on. -/
def planLoop (baseFee : UInt64) (maxPerTx : Nat) :
    Nat → List UInt64 → Nat → UInt64 → UInt64 → Except (Fault PlanError) (List PaymentChunk × UInt64)
  | 0, _, _, _, _ => .error .panic
  | fuel + 1, values, cursor, remaining, totalFee =>
    if remaining = 0 then .ok ([], totalFee)
    else do
      let (count, fee) ← selectSpendCount values remaining baseFee maxPerTx
      require (count ≠ 0) (.err .insufficientFunds)
      let input ← ofOption (.err .amountOverflow) (checkedSum (values.take count))
      let available ← ofOption (.err .insufficientFunds) (checkedSub input fee)
      require (available ≠ 0) (.err .insufficientFunds)
      let amount := min remaining available
      let totalFee ← ofOption (.err .amountOverflow) (checkedAdd totalFee fee)
      let (chunks, totalFee) ← planLoop baseFee maxPerTx fuel (values.drop count) (cursor + count)
        (remaining - amount) totalFee
      .ok (⟨cursor, cursor + count, amount, fee⟩ :: chunks, totalFee)

/-- `plan_payment` (payment.rs:121) -/
def planPayment (noteValues : List UInt64) (amount baseFee : UInt64) (maxPerTx : Nat) :
    Except (Fault PlanError) PaymentPlan := do
  if amount = 0 then .error (.err .zeroAmount)
  else if maxPerTx = 0 then .error (.err .noSpendCapacity)
  else
    let sorted := noteValues.insertionSort (· ≥ ·)
    let (chunks, totalFee) ← planLoop baseFee maxPerTx (sorted.length + 1) sorted 0 amount 0
    .ok ⟨sorted, amount, chunks, totalFee⟩

/-! ## What a plan takes -/

variable {maxPerTx : Nat} {values : List UInt64}

theorem takeSpends_le {target : UInt64} {n m : Nat} {sum : UInt64} (room : n ≤ maxPerTx)
    (h : takeSpends maxPerTx target values n sum = some m) : m ≤ maxPerTx ∧ m ≤ n + values.length := by
  induction values generalizing n sum with
  | nil =>
    cases h
    exact ⟨room, Nat.le_refl _⟩
  | cons value values ih =>
    rw [takeSpends] at h
    by_cases more : n < maxPerTx ∧ sum < target
    · rw [if_pos more] at h
      obtain ⟨sum', -, h⟩ := Option.bind_eq_some_iff.mp h
      have := ih more.1 h
      simp only [List.length_cons]
      omega
    · rw [if_neg more] at h
      cases h
      exact ⟨room, Nat.le_add_right _ _⟩

variable {baseFee : UInt64}

/-- The fee of `n` notes is not above `fee`. -/
def Priced (baseFee fee : UInt64) (n : Nat) : Prop :=
  ∃ required, chunkFee baseFee (max n 1) = some required ∧ required ≤ fee

theorem settleFee_le {amount fee fee' : UInt64} {fuel n : Nat}
    (h : settleFee values amount baseFee maxPerTx fuel fee = .ok (n, fee')) :
    (n ≤ maxPerTx ∧ n ≤ values.length) ∧ Priced baseFee fee' n := by
  induction fuel generalizing fee with
  | zero => cases h
  | succ fuel ih =>
    rw [settleFee] at h
    obtain ⟨target, -, h⟩ := bind_eq_ok_iff.mp h
    obtain ⟨m, taken, h⟩ := bind_eq_ok_iff.mp h
    obtain ⟨required, own, h⟩ := bind_eq_ok_iff.mp h
    by_cases enough : required ≤ fee
    · rw [if_pos enough] at h
      cases h
      have few := takeSpends_le (Nat.zero_le _) (ofOption_eq_ok_iff.mp taken)
      exact ⟨by simpa using few, required, ofOption_eq_ok_iff.mp own, enough⟩
    · rw [if_neg enough] at h
      exact ih h

theorem selectSpendCount_le {amount fee : UInt64} {n : Nat}
    (h : selectSpendCount values amount baseFee maxPerTx = .ok (n, fee)) :
    (n ≤ maxPerTx ∧ n ≤ values.length) ∧ Priced baseFee fee n := by
  unfold selectSpendCount at h
  by_cases zero : amount = 0
  · rw [if_pos zero] at h
    cases h
  · rw [if_neg zero] at h
    by_cases none : maxPerTx = 0
    · rw [if_pos none] at h
      cases h
    · rw [if_neg none] at h
      obtain ⟨first, -, h⟩ := bind_eq_ok_iff.mp h
      exact settleFee_le h

/-- The chunks take consecutive, non-empty stretches from `start` on, the last of which ends at `stop`. -/
def Tiles : Nat → List PaymentChunk → Nat → Prop
  | start, [], stop => start = stop
  | start, chunk :: chunks, stop => chunk.start = start ∧ start < chunk.stop ∧ Tiles chunk.stop chunks stop

theorem planLoop_tiles {fuel cursor : Nat} {remaining fees totalFee : UInt64}
    {chunks : List PaymentChunk} (h : planLoop baseFee maxPerTx fuel values cursor remaining fees =
      .ok (chunks, totalFee)) :
    (∃ stop, Tiles cursor chunks stop ∧ stop ≤ cursor + values.length) ∧
    ∀ chunk ∈ chunks, chunk.stop - chunk.start ≤ maxPerTx ∧ Priced baseFee chunk.fee (chunk.stop - chunk.start) := by
  induction fuel generalizing values cursor remaining fees chunks totalFee with
  | zero => cases h
  | succ fuel ih =>
    rw [planLoop] at h
    by_cases paid : remaining = 0
    · rw [if_pos paid] at h
      cases h
      exact ⟨⟨cursor, rfl, Nat.le_add_right _ _⟩, List.forall_mem_nil _⟩
    · rw [if_neg paid] at h
      obtain ⟨⟨count, fee⟩, selected, h⟩ := bind_eq_ok_iff.mp h
      obtain ⟨some, h⟩ := require_bind_eq_ok_iff.mp h
      obtain ⟨input, -, h⟩ := bind_eq_ok_iff.mp h
      obtain ⟨available, -, h⟩ := bind_eq_ok_iff.mp h
      obtain ⟨-, h⟩ := require_bind_eq_ok_iff.mp h
      obtain ⟨fees', -, h⟩ := bind_eq_ok_iff.mp h
      obtain ⟨⟨rest, total⟩, planned, h⟩ := bind_eq_ok_iff.mp h
      cases h
      obtain ⟨⟨stop, tiles, inside⟩, later⟩ := ih planned
      obtain ⟨⟨few, within⟩, priced⟩ := selectSpendCount_le selected
      rw [List.length_drop] at inside
      refine ⟨⟨stop, ⟨rfl, Nat.lt_add_of_pos_right (Nat.pos_of_ne_zero some), tiles⟩, by omega⟩,
        List.forall_mem_cons.mpr ⟨?_, later⟩⟩
      rw [Nat.add_sub_cancel_left]
      exact ⟨few, priced⟩

example : maxSpendsPerTx = 38 := by decide +kernel

end Firecash
