import Firecash.Wallet.LeafLists

/-!
# The check before a payment is signed

A daemon that holds the viewing key prepares a payment; the device checks the unsigned bundle against what
the daemon discloses of it, and signs. `checkPreparedPayment` recomputes the note commitment and the
value commitment of every action, so with binding commitments a disclosure that passes is the truth about the
notes the bundle creates and the values it spends (`Accepted.agrees`).

What it accepts is the payment that was asked for exactly if three things hold that it does not check
(`checkPreparedPayment_exact_iff`): no second output pays the recipient the amount, the nullifiers are of notes that are
addressed to the wallet, and the fee fits in `i64`.
-/

namespace Firecash

open List Except BitVec

variable {P : Prim} {W : WalletPrim P}

/-! ## The check -/

/-- The value commitments, the encoding of a note commitment, and the addresses of a key. -/
structure PaymentPrim (W : WalletPrim P) where
  Trapdoor : Type
  trapdoorFromBytes : Bytes32 → Option Trapdoor
  /-- `ValueCommitment::derive(..).to_bytes()`; a `ValueSum` is the difference of two `u64`. -/
  valueCommitment : Int → Trapdoor → Bytes32
  cmxToBytes : P.Cmx → Bytes32
  /-- `address_at` gives the key this address at some diversifier index and scope. -/
  HasAddress : W.Fvk → AddressBytes → Prop

structure ActionDisclosure where
  spendValue : UInt64
  outValue : UInt64
  outRecipient : AddressBytes
  outRseed : Bytes32
  rcv : Bytes32

inductive PaymentCheckError where
  | actionCountMismatch
  | commitmentMismatch (i : Nat)
  | valueCommitmentMismatch (i : Nat)
  | valueImbalance
  | feeMismatch (got : Int64) (want : UInt64)
  | recipientNotPaid
  | unexpectedRecipient (i : Nat)
  | malformed (i : Nat)
  deriving DecidableEq

/-- What the loop keeps: two `i128` sums, which no list of `u64` values overflows, and a count. -/
structure PaymentTotals where
  spentTotal : Int
  outTotal : Int
  paidRecipient : Nat

/-- The user asked for this. -/
def ActionDisclosure.paysAmount (d : ActionDisclosure) (dest : AddressBytes) (amount : UInt64) : Bool :=
  d.outRecipient = dest ∧ d.outValue = amount

/-- `ValueSum` of the action: what it spends less what it creates. -/
def ActionDisclosure.net (d : ActionDisclosure) : Int := d.spendValue.toNat - d.outValue.toNat

/-- The checks on action `i`; answers whether it counts as the payment. -/
def checkAction (V : PaymentPrim W) (fvk : W.Fvk) (dest : AddressBytes) (amount : UInt64) (i : Nat) (act : ActionWire)
    (d : ActionDisclosure) : Except PaymentCheckError Bool := do
  let note ← ofOption (.malformed i) (W.noteFromParts d.outRecipient d.outValue act.nullifier d.outRseed)
  require (V.cmxToBytes (W.noteCommitment note) = act.cmx) (.commitmentMismatch i)
  let rcv ← ofOption (.malformed i) (V.trapdoorFromBytes d.rcv)
  require (V.valueCommitment d.net rcv = act.cvNet) (.valueCommitmentMismatch i)
  if d.paysAmount dest amount then .ok true
  else if d.outRecipient ≠ W.addressBytes fvk ∧ d.outValue ≠ 0 then .error (.unexpectedRecipient i)
  else .ok false

/-- The loop from action `i` on. -/
def checkActions (V : PaymentPrim W) (fvk : W.Fvk) (dest : AddressBytes) (amount : UInt64) :
    Nat → PaymentTotals → List (ActionWire × ActionDisclosure) → Except PaymentCheckError PaymentTotals
  | _, t, [] => pure t
  | i, t, (act, d) :: rest => do
    let paid ← checkAction V fvk dest amount i act d
    checkActions V fvk dest amount (i + 1)
      ⟨t.spentTotal + d.spendValue.toNat, t.outTotal + d.outValue.toNat, t.paidRecipient + if paid then 1 else 0⟩ rest

/-- `check_prepared_payment` (payment_check.rs:106) -/
def checkPreparedPayment (V : PaymentPrim W) (wire : ShieldedBundle P) (disclosure : List ActionDisclosure)
    (fvk : W.Fvk) (dest : AddressBytes) (amount fee : UInt64) : Except PaymentCheckError Unit := do
  require (disclosure.length = wire.actions.length) .actionCountMismatch
  let t ← checkActions V fvk dest amount 0 ⟨0, 0, 0⟩ (wire.actions.zip disclosure)
  require (t.spentTotal - t.outTotal = wire.valueBalance.toInt) .valueImbalance
  -- `fee as i64` wraps
  require (wire.valueBalance = fee.toInt64) (.feeMismatch wire.valueBalance fee)
  require (t.paidRecipient ≠ 0) .recipientNotPaid

/-! ## What passes -/

/-- An action that passes with its disclosure. -/
structure Accepted (V : PaymentPrim W) (fvk : W.Fvk) (dest : AddressBytes) (amount : UInt64)
    (p : ActionWire × ActionDisclosure) : Prop where
  note : ∃ note, W.noteFromParts p.2.outRecipient p.2.outValue p.1.nullifier p.2.outRseed = some note ∧
    V.cmxToBytes (W.noteCommitment note) = p.1.cmx
  value : ∃ rcv, V.trapdoorFromBytes p.2.rcv = some rcv ∧ V.valueCommitment p.2.net rcv = p.1.cvNet
  recipient : p.2.paysAmount dest amount ∨ p.2.outRecipient = W.addressBytes fvk ∨ p.2.outValue = 0

variable {V : PaymentPrim W} {fvk : W.Fvk} {dest : AddressBytes} {amount fee : UInt64}
    {p : ActionWire × ActionDisclosure}

theorem checkAction_ok {i : Nat} {paid : Bool}
    (h : checkAction V fvk dest amount i p.1 p.2 = .ok paid) :
    Accepted V fvk dest amount p ∧ paid = p.2.paysAmount dest amount := by
  obtain ⟨note, hnote, h⟩ := bind_eq_ok_iff.mp h
  obtain ⟨commits, h⟩ := require_bind_eq_ok_iff.mp h
  obtain ⟨rcv, hrcv, h⟩ := bind_eq_ok_iff.mp h
  obtain ⟨binds, h⟩ := require_bind_eq_ok_iff.mp h
  rw [ofOption_eq_ok_iff] at hnote hrcv
  have accepted recipient : Accepted V fvk dest amount p := ⟨⟨note, hnote, commits⟩, ⟨rcv, hrcv, binds⟩, recipient⟩
  split at h
  · rename_i pays
    cases h
    exact ⟨accepted (.inl pays), pays.symm⟩
  · rename_i other
    split at h
    · cases h
    · rename_i own
      cases h
      refine ⟨accepted (.inr ?_), (Bool.eq_false_iff.mpr other).symm⟩
      rcases not_and_or.mp own with mine | zero
      · exact .inl (not_not.mp mine)
      · exact .inr (not_not.mp zero)

theorem checkActions_ok {i : Nat} {t t' : PaymentTotals} {ps : List (ActionWire × ActionDisclosure)}
    (h : checkActions V fvk dest amount i t ps = .ok t') :
    (∀ p ∈ ps, Accepted V fvk dest amount p) ∧
      t'.spentTotal = t.spentTotal + (ps.map fun p => (p.2.spendValue.toNat : Int)).sum ∧
      t'.outTotal = t.outTotal + (ps.map fun p => (p.2.outValue.toNat : Int)).sum ∧
      t'.paidRecipient = t.paidRecipient + ps.countP fun p => p.2.paysAmount dest amount := by
  induction ps generalizing i t with
  | nil =>
    cases h
    simp
  | cons p ps ih =>
    obtain ⟨paid, hpaid, h⟩ := bind_eq_ok_iff.mp h
    obtain ⟨accepted, rfl⟩ := checkAction_ok hpaid
    obtain ⟨rest, spent, out, count⟩ := ih h
    refine ⟨?_, ?_, ?_, ?_⟩
    · intro q hq
      rcases mem_cons.mp hq with rfl | later
      · exact accepted
      · exact rest q later
    · rw [spent, map_cons, sum_cons, Int.add_assoc]
    · rw [out, map_cons, sum_cons, Int.add_assoc]
    · rw [count, countP_cons, Nat.add_assoc, Nat.add_comm (countP ..)]

/-- Everything the check has established when it answers `Ok`. -/
structure Passed (V : PaymentPrim W) (wire : ShieldedBundle P) (disclosure : List ActionDisclosure) (fvk : W.Fvk)
    (dest : AddressBytes) (amount fee : UInt64) : Prop where
  length : disclosure.length = wire.actions.length
  accepted : ∀ p ∈ wire.actions.zip disclosure, Accepted V fvk dest amount p
  balance : ((wire.actions.zip disclosure).map fun p => (p.2.spendValue.toNat : Int)).sum -
    ((wire.actions.zip disclosure).map fun p => (p.2.outValue.toNat : Int)).sum = wire.valueBalance.toInt
  fee : wire.valueBalance = fee.toInt64
  paid : 0 < (wire.actions.zip disclosure).countP fun p => p.2.paysAmount dest amount

theorem checkPreparedPayment_passed {wire : ShieldedBundle P} {disclosure : List ActionDisclosure}
    (h : checkPreparedPayment V wire disclosure fvk dest amount fee = .ok ()) :
    Passed V wire disclosure fvk dest amount fee := by
  obtain ⟨length, h⟩ := require_bind_eq_ok_iff.mp h
  obtain ⟨t, ht, h⟩ := bind_eq_ok_iff.mp h
  obtain ⟨balance, h⟩ := require_bind_eq_ok_iff.mp h
  obtain ⟨fee, h⟩ := require_bind_eq_ok_iff.mp h
  have paid := require_eq_ok_iff.mp h
  obtain ⟨accepted, spent, out, count⟩ := checkActions_ok ht
  refine ⟨length, accepted, ?_, fee, ?_⟩
  · simpa only [spent, out, Int.zero_add] using balance
  · rw [count, Nat.zero_add] at paid
    exact Nat.pos_of_ne_zero paid

/-! ## What the bundle does -/

/-- What an action really is: the note it spends and its owner's key, the note it creates and the trapdoor. -/
structure ActionContent (W : WalletPrim P) (V : PaymentPrim W) where
  owner : W.Fvk
  spent : W.Note
  created : W.Note
  rcv : V.Trapdoor

/-- The content of an action that has a proof. The circuit ties the spent note's address to the key of the nullifier. -/
structure Opens (act : ActionWire) (c : ActionContent W V) : Prop where
  owner : V.HasAddress c.owner (W.noteRecipient c.spent)
  nullifier : W.noteNullifier c.owner c.spent = act.nullifier
  cmx : V.cmxToBytes (W.noteCommitment c.created) = act.cmx
  cvNet : V.valueCommitment ((W.noteValue c.spent).toNat - (W.noteValue c.created).toNat) c.rcv = act.cvNet

/-- Note commitments, value commitments and nullifiers are binding, and a note has the parts it was made of. A nullifier
binds the note. An address binds the part of the full viewing key that nullifiers read: two keys that
share one derive the same nullifiers, and may differ in the rest. -/
structure Binding (W : WalletPrim P) (V : PaymentPrim W) : Prop where
  parts : ∀ {recipient value rho rseed note}, W.noteFromParts recipient value rho rseed = some note →
    W.noteRecipient note = recipient ∧ W.noteValue note = value
  note : ∀ {n m : W.Note}, V.cmxToBytes (W.noteCommitment n) = V.cmxToBytes (W.noteCommitment m) →
    W.noteRecipient n = W.noteRecipient m ∧ W.noteValue n = W.noteValue m
  value : ∀ {x y : Int} {r s : V.Trapdoor}, x.natAbs < 2 ^ 64 → y.natAbs < 2 ^ 64 →
    V.valueCommitment x r = V.valueCommitment y s → x = y
  nullifier : ∀ {k l : W.Fvk} {n m : W.Note}, W.noteNullifier k n = W.noteNullifier l m → n = m
  address : ∀ {k l : W.Fvk} {a : AddressBytes}, V.HasAddress k a → V.HasAddress l a →
    W.noteNullifier k = W.noteNullifier l

/-- The disclosure is the truth. -/
structure Agrees (p : ActionWire × ActionDisclosure) (c : ActionContent W V) : Prop where
  owner : V.HasAddress c.owner (W.noteRecipient c.spent)
  recipient : W.noteRecipient c.created = p.2.outRecipient
  created : W.noteValue c.created = p.2.outValue
  spent : W.noteValue c.spent = p.2.spendValue
  nullifier : W.noteNullifier c.owner c.spent = p.1.nullifier

theorem natAbs_net_lt (x y : UInt64) : (x.toNat - y.toNat : Int).natAbs < 2 ^ 64 := by
  have hx := x.toNat_lt
  have hy := y.toNat_lt
  omega

variable {c : ActionContent W V}

/-- A disclosure that passes is the truth about the action. -/
theorem Accepted.agrees (binding : Binding W V)
    (h : Accepted V fvk dest amount p) (opens : Opens p.1 c) : Agrees p c := by
  obtain ⟨note, hnote, commits⟩ := h.note
  obtain ⟨rcv, -, binds⟩ := h.value
  obtain ⟨recipient, value⟩ := binding.parts hnote
  obtain ⟨sameRecipient, sameValue⟩ := binding.note (opens.cmx.trans commits.symm)
  have created : W.noteValue c.created = p.2.outValue := sameValue.trans value
  have net := binding.value (natAbs_net_lt ..) (natAbs_net_lt ..) (opens.cvNet.trans binds.symm)
  refine ⟨opens.owner, sameRecipient.trans recipient, created, ?_, opens.nullifier⟩
  rw [created] at net
  have spent : (W.noteValue c.spent).toNat = p.2.spendValue.toNat := by omega
  exact UInt64.toNat_inj.mp spent

/-- A created note that carries value to the destination. -/
def ActionContent.paysTo (c : ActionContent W V) (dest : AddressBytes) : Bool :=
  W.noteRecipient c.created = dest ∧ W.noteValue c.created ≠ 0

/-- The payment that was asked for. -/
structure PaysExactly (wire : ShieldedBundle P) (contents : List (ActionContent W V)) (fvk : W.Fvk)
    (dest : AddressBytes) (amount fee : UInt64) : Prop where
  payment : ∃ c, contents.filter (·.paysTo dest) = [c] ∧ W.noteValue c.created = amount
  change : ∀ c ∈ contents, W.noteValue c.created ≠ 0 → W.noteRecipient c.created ≠ dest →
    W.noteRecipient c.created = W.addressBytes fvk
  spends : ∀ c ∈ contents, W.noteValue c.spent ≠ 0 → V.HasAddress fvk (W.noteRecipient c.spent)
  balance : (contents.map fun c => ((W.noteValue c.spent).toNat : Int)).sum -
    (contents.map fun c => ((W.noteValue c.created).toNat : Int)).sum = wire.valueBalance.toInt
  fee : wire.valueBalance.toInt = fee.toNat

/-- What the check leaves to the prover. -/
structure Unchecked (V : PaymentPrim W) (wire : ShieldedBundle P) (disclosure : List ActionDisclosure) (fvk : W.Fvk)
    (dest : AddressBytes) (amount fee : UInt64) : Prop where
  /-- No second output pays the destination the amount. -/
  once : (wire.actions.zip disclosure).countP (fun p => p.2.paysAmount dest amount) ≤ 1
  /-- A non-zero spend reveals the nullifier of a note that is addressed to the wallet. -/
  own : ∀ p ∈ wire.actions.zip disclosure, p.2.spendValue ≠ 0 →
    ∃ note, V.HasAddress fvk (W.noteRecipient note) ∧ W.noteNullifier fvk note = p.1.nullifier
  fee : fee.toNat < 2 ^ 63

theorem agreed (binding : Binding W V) {acts : List ActionWire} {ds : List ActionDisclosure}
    {contents : List (ActionContent W V)}
    (opens : List.Forall₂ Opens acts contents) (length : ds.length = acts.length)
    (accepted : ∀ p ∈ acts.zip ds, Accepted V fvk dest amount p) :
    List.Forall₂ (fun p c => Accepted V fvk dest amount p ∧ Agrees p c) (acts.zip ds) contents := by
  induction opens generalizing ds with
  | nil => exact .nil
  | cons first _ ih =>
    cases ds with
    | nil => cases length
    | cons d ds =>
      rw [zip_cons_cons] at accepted ⊢
      obtain ⟨here, later⟩ := forall_mem_cons.mp accepted
      exact .cons ⟨here, here.agrees binding first⟩ (ih (Nat.succ.inj length) later)

/-- A statement about every element of one list, read on the other. -/
theorem forall_mem_iff_of_forall₂ {α β : Type} {R : α → β → Prop} {p : α → Prop} {q : β → Prop}
    {as : List α} {bs : List β}
    (h : List.Forall₂ R as bs) (iff : ∀ a b, R a b → (p a ↔ q b)) : (∀ a ∈ as, p a) ↔ ∀ b ∈ bs, q b := by
  induction h with
  | nil => simp
  | cons first _ ih => rw [forall_mem_cons, forall_mem_cons, iff _ _ first, ih]

theorem map_eq_of_forall₂ {α β γ : Type} {R : α → β → Prop} {f : α → γ} {g : β → γ} {as : List α} {bs : List β}
    (h : List.Forall₂ R as bs) (eq : ∀ a b, R a b → f a = g b) : as.map f = bs.map g := by
  induction h with
  | nil => rfl
  | cons first _ ih => rw [map_cons, map_cons, eq _ _ first, ih]

theorem toInt_toInt64_eq_iff (fee : UInt64) : fee.toInt64.toInt = fee.toNat ↔ fee.toNat < 2 ^ 63 := by
  have h := fee.toNat_lt
  have width : fee.toInt64.toInt = if 2 * fee.toNat < 2 ^ 64 then (fee.toNat : Int) else fee.toNat - (2 ^ 64 : Nat) :=
    toInt_eq_toNat_cond fee.toBitVec
  rw [width]
  split <;> omega

/-- With another destination and a non-zero amount, the outputs that carry value to the destination are those that were
counted. -/
theorem paysTo_iff (foreign : dest ≠ W.addressBytes fvk) (positive : amount ≠ 0)
    (accepted : Accepted V fvk dest amount p) (agrees : Agrees p c) :
    p.2.paysAmount dest amount ↔ c.paysTo dest := by
  unfold ActionContent.paysTo
  rw [decide_eq_true_iff, agrees.recipient, agrees.created]
  have pays : p.2.paysAmount dest amount ↔ p.2.outRecipient = dest ∧ p.2.outValue = amount := decide_eq_true_iff
  constructor
  · intro h
    obtain ⟨recipient, value⟩ := pays.mp h
    exact ⟨recipient, value ▸ positive⟩
  · rintro ⟨recipient, nonzero⟩
    rcases accepted.recipient with h | own | zero
    · exact h
    · exact absurd (recipient.symm.trans own) foreign
    · exact absurd zero nonzero

/-- **What passes is the payment exactly if the unchecked part is right.** For every bundle whose actions open and
every disclosure that passes, with a destination that is not the wallet's own address and a non-zero
amount. -/
theorem checkPreparedPayment_exact_iff (binding : Binding W V) {wire : ShieldedBundle P}
    {disclosure : List ActionDisclosure}
    {contents : List (ActionContent W V)} (opens : List.Forall₂ Opens wire.actions contents)
    (foreign : dest ≠ W.addressBytes fvk)
    (positive : amount ≠ 0) (h : checkPreparedPayment V wire disclosure fvk dest amount fee = .ok ()) :
    PaysExactly wire contents fvk dest amount fee ↔ Unchecked V wire disclosure fvk dest amount fee := by
  have passed := checkPreparedPayment_passed h
  have agree := agreed binding opens passed.length passed.accepted
  have payments := rel_filter (fun _ _ r => paysTo_iff foreign positive r.1 r.2) agree
  have count := payments.length_eq
  rw [← countP_eq_length_filter] at count
  have own : (∀ p ∈ wire.actions.zip disclosure, p.2.spendValue ≠ 0 →
        ∃ note, V.HasAddress fvk (W.noteRecipient note) ∧ W.noteNullifier fvk note = p.1.nullifier) ↔
      ∀ c ∈ contents, W.noteValue c.spent ≠ 0 → V.HasAddress fvk (W.noteRecipient c.spent) := by
    refine forall_mem_iff_of_forall₂ agree fun p c r => ?_
    rw [r.2.spent]
    refine imp_congr_right fun _ => ⟨?_, ?_⟩
    · rintro ⟨note, mine, same⟩
      rw [binding.nullifier (r.2.nullifier.trans same.symm)]
      exact mine
    · intro mine
      refine ⟨c.spent, mine, ?_⟩
      rw [binding.address mine r.2.owner]
      exact r.2.nullifier
  have feeFits : wire.valueBalance.toInt = fee.toNat ↔ fee.toNat < 2 ^ 63 := by
    rw [passed.fee]
    exact toInt_toInt64_eq_iff fee
  constructor
  · intro exactly
    obtain ⟨c, single, -⟩ := exactly.payment
    refine ⟨?_, own.mpr exactly.spends, feeFits.mp exactly.fee⟩
    rw [count, single]
    exact Nat.le_refl 1
  · intro unchecked
    have one : (contents.filter (·.paysTo dest)).length = 1 := by
      rw [← count]
      exact Nat.le_antisymm unchecked.once passed.paid
    obtain ⟨c, single⟩ := length_eq_one_iff.mp one
    refine ⟨⟨c, single, ?_⟩, ?_, own.mp unchecked.own, ?_, feeFits.mpr unchecked.fee⟩
    · -- the one payment is the image of a counted action
      rw [single] at payments
      obtain ⟨p, rest, ⟨-, agrees⟩, -, hp⟩ := forall₂_cons_right_iff.mp payments
      have counted : p ∈ (wire.actions.zip disclosure).filter fun p => p.2.paysAmount dest amount := by
        rw [hp]
        exact mem_cons_self
      rw [agrees.created]
      exact (of_decide_eq_true (mem_filter.mp counted).2).2
    · refine (forall_mem_iff_of_forall₂ agree fun p c r => ?_).mp fun _ _ => trivial
      rw [true_iff, r.2.created, r.2.recipient]
      intro nonzero other
      rcases r.1.recipient with pays | mine | zero
      · exact absurd (of_decide_eq_true pays).1 other
      · exact mine
      · exact absurd zero nonzero
    · rw [← passed.balance]
      congr 2
      · exact (map_eq_of_forall₂ agree fun p c r => by rw [r.2.spent]).symm
      · exact (map_eq_of_forall₂ agree fun p c r => by rw [r.2.created]).symm

/-! ### Small notes -/

/-- A note whose address is one byte. -/
structure SmallNote where
  recipient : UInt8
  value : UInt64

/-- Keys and addresses of one byte, over the trees of leaf lists. -/
@[reducible] def smallNotes : WalletPrim leafPrim :=
  { leafLists with
    Fvk := UInt8
    Note := SmallNote
    fvkFromSeed := fun seed => some (UInt8.ofNat seed.toNat)
    fvkFromBytes := fun bytes => some (UInt8.ofNat bytes.toNat)
    addressBytes := fun k => BitVec.ofNat 344 k.toNat
    noteFromParts := fun recipient value _ _ =>
      if recipient.toNat < 256 then some ⟨UInt8.ofNat recipient.toNat, value⟩ else none
    noteRecipient := fun n => BitVec.ofNat 344 n.recipient.toNat
    noteValue := SmallNote.value
    noteRho := fun _ => 0
    noteRseed := fun _ => 0
    noteCommitment := fun n => BitVec.ofNat 256 (n.recipient.toNat + 256 * n.value.toNat)
    noteNullifier := fun k n => BitVec.ofNat 256 (n.recipient.toNat + 256 * n.value.toNat + 2 ^ 72 * k.toNat)
    tryNoteDecryption := fun _ _ => none
    tryCompactNoteDecryption := fun _ _ => none
    tryOutputRecoveryWithOvk := fun _ _ => none }

/-- A value commitment that hides nothing. -/
@[reducible] def openCommitments : PaymentPrim smallNotes where
  Trapdoor := Unit
  trapdoorFromBytes _ := some ()
  valueCommitment x _ := BitVec.ofInt 256 x
  cmxToBytes := id
  HasAddress k a := a = smallNotes.addressBytes k

/-- A note is bound by the packing of its parts, with a key in front or not. -/
theorem packed_inj {n m : SmallNote} {k l : UInt8}
    (h : BitVec.ofNat 256 (n.recipient.toNat + 256 * n.value.toNat + 2 ^ 72 * k.toNat) =
      BitVec.ofNat 256 (m.recipient.toNat + 256 * m.value.toNat + 2 ^ 72 * l.toNat)) : n = m := by
  have hn := n.recipient.toNat_lt
  have hm := m.recipient.toNat_lt
  have hx := n.value.toNat_lt
  have hy := m.value.toNat_lt
  have hk := k.toNat_lt
  have hl := l.toNat_lt
  have same := congrArg BitVec.toNat h
  rw [toNat_ofNat, toNat_ofNat, Nat.mod_eq_of_lt (by omega), Nat.mod_eq_of_lt (by omega)] at same
  have recipient : n.recipient = m.recipient := UInt8.toNat_inj.mp (by omega)
  have value : n.value = m.value := UInt64.toNat_inj.mp (by omega)
  cases n
  cases m
  cases recipient
  cases value
  rfl

/-- An address is one key's. -/
theorem addressBytes_inj {k l : UInt8} (h : smallNotes.addressBytes k = smallNotes.addressBytes l) : k = l := by
  have hk := k.toNat_lt
  have hl := l.toNat_lt
  have same := congrArg BitVec.toNat h
  rw [toNat_ofNat, toNat_ofNat, Nat.mod_eq_of_lt (by omega), Nat.mod_eq_of_lt (by omega)] at same
  exact UInt8.toNat_inj.mp same

theorem smallNotes_binding : Binding smallNotes openCommitments where
  parts := by
    intro recipient value rho rseed note h
    dsimp only at h
    split at h
    · rename_i small
      cases h
      refine ⟨?_, rfl⟩
      show BitVec.ofNat 344 (UInt8.ofNat recipient.toNat).toNat = recipient
      rw [UInt8.toNat_ofNat_of_lt' small, ofNat_toNat, setWidth_eq]
    · cases h
  note := by
    intro n m h
    obtain rfl : n = m := packed_inj (k := 0) (l := 0) h
    exact ⟨rfl, rfl⟩
  value := by
    intro x y r s hx hy h
    have same := congrArg BitVec.toInt h
    rw [toInt_ofInt, toInt_ofInt, Int.bmod_eq_of_le (by omega) (by omega),
      Int.bmod_eq_of_le (by omega) (by omega)] at same
    exact same
  nullifier := packed_inj
  address := by
    intro k l a hk hl
    rw [addressBytes_inj (hk.symm.trans hl)]

/-- The action and the disclosure of a content. -/
def wireOf (c : ActionContent smallNotes openCommitments) : ActionWire :=
  { ActionWire.plain (smallNotes.noteNullifier c.owner c.spent) (smallNotes.noteCommitment c.created) with
    cvNet := openCommitments.valueCommitment (c.spent.value.toNat - c.created.value.toNat) () }

def discloseOf (c : ActionContent smallNotes openCommitments) : ActionDisclosure :=
  ⟨c.spent.value, c.created.value, smallNotes.noteRecipient c.created, 0, 0⟩

theorem wireOf_opens {contents : List (ActionContent smallNotes openCommitments)}
    (owned : ∀ c ∈ contents, smallNotes.noteRecipient c.spent = smallNotes.addressBytes c.owner) :
    List.Forall₂ Opens (contents.map wireOf) contents := by
  rw [forall₂_map_left_iff, forall₂_same]
  exact fun c hc => ⟨owned c hc, rfl, rfl, rfl⟩

/-- An action of `owner` that spends `x` and pays `y` to `recipient`. -/
def move (owner : UInt8) (x : UInt64) (recipient : UInt8) (y : UInt64) : ActionContent smallNotes openCommitments :=
  ⟨owner, ⟨owner, x⟩, ⟨recipient, y⟩, ()⟩

/-- The bundle with this content, disclosed as it is, checked for key `1`, destination `2` and amount `6`. -/
def signsMove (contents : List (ActionContent smallNotes openCommitments)) (valueBalance : Int64) (fee : UInt64) :
    Except PaymentCheckError Unit :=
  checkPreparedPayment (W := smallNotes) openCommitments ⟨contents.map wireOf, valueBalance,
    0⟩ (contents.map discloseOf) 1 2 6 fee

/-- The wallet pays `6` and a fee of `1` from a note of `10`, and gets the change; a dummy spend of another key. -/
theorem honest_paysExactly :
    PaysExactly (P := leafPrim) ⟨[move 1 10 2 6, move 9 0 1 3].map wireOf, 1, 0⟩ [move 1 10 2 6,
      move 9 0 1 3] 1 2 6 1 := by
  have passes : checkPreparedPayment (W := smallNotes) openCommitments ⟨[move 1 10 2 6, move 9 0 1 3].map wireOf, 1, 0⟩
      ([move 1 10 2 6, move 9 0 1 3].map discloseOf) 1 2 6 1 = .ok () := by decide +kernel
  refine (checkPreparedPayment_exact_iff smallNotes_binding (wireOf_opens (by decide +kernel)) (by decide +kernel)
    (by decide) passes).mpr
    ⟨by decide +kernel, ?_, by decide⟩
  intro p hp spends
  rcases mem_cons.mp hp with rfl | hp
  · exact ⟨⟨1, 10⟩, rfl, rfl⟩
  · obtain rfl := mem_singleton.mp hp
    exact absurd rfl spends

/-- Three payments of `6` to `2` that pass although they are not the one that was asked for: the amount is paid twice;
the payment is made from a note of another key; the fee `2^64 - 5` is a value balance of `-5`. -/
theorem unchecked_payments :
    (signsMove [move 1 10 2 6, move 1 5 2 6] 3 3 = .ok () ∧
      ¬ PaysExactly (P := leafPrim) ⟨[move 1 10 2 6, move 1 5 2 6].map wireOf, 3, 0⟩ [move 1 10 2 6,
        move 1 5 2 6] 1 2 6 3) ∧
    (signsMove [move 9 7 2 6] 1 1 = .ok () ∧
      ¬ PaysExactly (P := leafPrim) ⟨[move 9 7 2 6].map wireOf, 1, 0⟩ [move 9 7 2 6] 1 2 6 1) ∧
    signsMove [move 1 1 2 6] (-5) 18446744073709551611 = .ok () ∧
      ¬ PaysExactly (P := leafPrim) ⟨[move 1 1 2 6].map wireOf, -5, 0⟩ [move 1 1 2 6] 1 2 6 18446744073709551611 := by
  refine ⟨⟨by decide +kernel, fun h => ?_⟩, ⟨by decide +kernel, fun h => ?_⟩, by decide +kernel, fun h => ?_⟩
  · obtain ⟨c, single, -⟩ := h.payment
    have two : ([move 1 10 2 6, move 1 5 2 6].filter (·.paysTo 2)).length = 2 := by decide +kernel
    rw [single] at two
    cases two
  · exact absurd (h.spends _ mem_cons_self (by decide)) (by decide +kernel)
  · exact absurd h.fee (by decide)

end Firecash
