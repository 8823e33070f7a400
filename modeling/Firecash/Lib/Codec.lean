import Firecash.Lib.Bytes
import Firecash.Lib.Fallible

/-!
# Decoders and the strings they accept

A decoder takes bytes from the front of its input and returns a value or an error of its own.
`Accepts p L` says all about its successes at once: it returns `a` exactly on the inputs that start with a
string of `L a`, and leaves what follows. Read from right to left it is a round trip, read from left to
right it is that nothing else is accepted. The rules below compose it along the decoder.

Numbers are big-endian here.
-/

/-! ## Big-endian numbers -/

open List

/-- `to_be_bytes`, on `n` bytes -/
def beBytes (n x : Nat) : List UInt8 := (leBytes n x).reverse

/-- `from_be_bytes` -/
def ofBe (bs : List UInt8) : Nat := ofLe bs.reverse

@[simp] theorem length_beBytes (n x : Nat) : (beBytes n x).length = n := by
  rw [beBytes, length_reverse, length_leBytes]

variable {n : Nat}

theorem ofBe_beBytes {x : Nat} (h : x < 256 ^ n) : ofBe (beBytes n x) = x := by
  rw [ofBe, beBytes, reverse_reverse, ofLe_leBytes_of_lt h]

variable {bs : List UInt8}

theorem beBytes_ofBe (h : bs.length = n) : beBytes n (ofBe bs) = bs := by
  rw [beBytes, ofBe, ← h, ← length_reverse, leBytes_ofLe, reverse_reverse]

theorem ofBe_lt (h : bs.length = n) : ofBe bs < 256 ^ n := by
  have := ofLe_lt bs.reverse
  rwa [length_reverse, h] at this

/-! ## Decoders -/

abbrev Decoder (ε α : Type) := StateT (List UInt8) (Except ε) α

namespace Decoder

variable {ε α β : Type} {eof e : ε} {n : Nat}

/-- The next `n` bytes. -/
def take (eof : ε) (n : Nat) : Decoder ε (List UInt8) := fun bs =>
  if n ≤ bs.length then .ok (bs.take n, bs.drop n) else .error eof

def fail (e : ε) : Decoder ε α := fun _ => .error e

def u8 (eof : ε) : Decoder ε UInt8 := do
  let s ← take eof 1
  pure (s.headD 0)

/-- `[u8; n]` -/
def array (eof : ε) (n : Nat) : Decoder ε (BitVec (8 * n)) := do
  let s ← take eof n
  pure (BitVec.ofBytes n s)

/-- An unsigned number of `n` bytes. -/
def number (eof : ε) (n : Nat) : Decoder ε Nat := do
  let s ← take eof n
  pure (ofBe s)

/-- A 4-byte length and as many bytes. -/
def var (eof : ε) : Decoder ε (List UInt8) := do
  let n ← number eof 4
  take eof n

def times : Nat → Decoder ε α → Decoder ε (List α)
  | 0, _ => pure []
  | n + 1, p => do
    let a ← p
    let as ← times n p
    pure (a :: as)

/-! ## Accepted strings -/

def Accepts (p : Decoder ε α) (L : α → List UInt8 → Prop) : Prop :=
  ∀ bs a rest, p.run bs = .ok (a, rest) ↔ ∃ pre, bs = pre ++ rest ∧ L a pre

variable {p : Decoder ε α} {f : α → Decoder ε β} {L L' : α → List UInt8 → Prop} {M : α → β → List UInt8 → Prop}

theorem Accepts.congr (h : Accepts p L) (same : ∀ a pre, L a pre ↔ L' a pre) : Accepts p L' := by
  intro bs a rest
  rw [h bs a rest]
  simp only [same]

theorem accepts_pure (a : α) : Accepts (pure a : Decoder ε α) fun b pre => b = a ∧ pre = [] := by
  intro bs b rest
  show Except.ok (a, bs) = Except.ok (b, rest) ↔ _
  rw [Except.ok.injEq, Prod.mk.injEq]
  constructor
  · rintro ⟨rfl, rfl⟩
    exact ⟨[], rfl, rfl, rfl⟩
  · rintro ⟨_, rfl, rfl, rfl⟩
    exact ⟨rfl, rfl⟩

theorem accepts_fail : Accepts (fail e : Decoder ε α) fun _ _ => False := by
  intro bs a rest
  simp [fail, StateT.run]

theorem Accepts.unless {c : Prop} [Decidable c] (hp : Accepts p L) :
    Accepts (if c then fail e else p) fun a pre => ¬ c ∧ L a pre := by
  by_cases h : c
  · rw [if_pos h]
    exact accepts_fail.congr fun a pre => iff_of_false id fun no => no.1 h
  · rw [if_neg h]
    exact hp.congr fun a pre => (and_iff_right h).symm

theorem accepts_take : Accepts (take eof n) fun x pre => pre = x ∧ x.length = n := by
  intro bs x rest
  show (if n ≤ bs.length then Except.ok (bs.take n, bs.drop n) else Except.error eof) = .ok (x, rest) ↔ _
  constructor
  · intro h
    split at h
    · rename_i enough
      obtain ⟨rfl, rfl⟩ := h
      exact ⟨bs.take n, (take_append_drop n bs).symm, rfl, by simpa using enough⟩
    · cases h
  · rintro ⟨_, rfl, rfl, len⟩
    rw [if_pos (by rw [length_append]; omega), take_left' len, drop_left' len]

theorem Accepts.bind (hp : Accepts p L) (hf : ∀ a, Accepts (f a) (M a)) :
    Accepts (p >>= f) fun b pre => ∃ a u v, pre = u ++ v ∧ L a u ∧ M a b v := by
  intro bs b rest
  rw [StateT.run_bind, Except.bind_eq_ok_iff]
  constructor
  · rintro ⟨⟨a, mid⟩, first, second⟩
    obtain ⟨u, rfl, hu⟩ := (hp bs a mid).mp first
    obtain ⟨v, rfl, hv⟩ := (hf a mid b rest).mp second
    exact ⟨u ++ v, (append_assoc u v rest).symm, a, u, v, rfl, hu, hv⟩
  · rintro ⟨_, rfl, a, u, v, rfl, hu, hv⟩
    refine ⟨(a, v ++ rest), (hp _ a _).mpr ⟨u, append_assoc u v rest, hu⟩, (hf a _ b rest).mpr ⟨v, rfl, hv⟩⟩

/-- A step that is read as the encoding of a value with `ok`. -/
theorem Accepts.step {enc : α → List UInt8} {ok : α → Prop} (hp : Accepts p fun a pre => pre = enc a ∧ ok a)
    (hf : ∀ a, Accepts (f a) (M a)) : Accepts (p >>= f) fun b pre => ∃ a, ok a ∧ ∃ v, pre = enc a ++ v ∧ M a b v := by
  refine (hp.bind hf).congr fun b pre => ?_
  constructor
  · rintro ⟨a, _, v, rfl, ⟨rfl, ha⟩, hv⟩
    exact ⟨a, ha, v, rfl, hv⟩
  · rintro ⟨a, ha, v, rfl, hv⟩
    exact ⟨a, enc a, v, rfl, ⟨rfl, ha⟩, hv⟩

variable {enc : α → List UInt8} {ok : α → Prop}

theorem Accepts.map {g : α → β} (hp : Accepts p fun a pre => pre = enc a ∧ ok a) :
    Accepts (do let a ← p; pure (g a)) fun b pre => ∃ a, ok a ∧ pre = enc a ∧ b = g a := by
  refine (hp.step fun a => accepts_pure (g a)).congr fun b pre => ?_
  constructor
  · rintro ⟨a, ha, _, rfl, rfl, rfl⟩
    exact ⟨a, ha, append_nil _, rfl⟩
  · rintro ⟨a, ha, rfl, rfl⟩
    exact ⟨a, ha, [], (append_nil _).symm, rfl, rfl⟩

theorem accepts_u8 : Accepts (u8 eof) fun b pre => pre = [b] ∧ True := by
  refine (accepts_take.map).congr fun b pre => ?_
  constructor
  · rintro ⟨s, len, rfl, rfl⟩
    obtain ⟨c, rfl⟩ := length_eq_one_iff.mp len
    exact ⟨rfl, trivial⟩
  · rintro ⟨rfl, _⟩
    exact ⟨[b], rfl, rfl, rfl⟩

theorem accepts_array : Accepts (array eof n) fun x pre => pre = x.bytes ∧ True := by
  refine (accepts_take.map).congr fun x pre => ?_
  constructor
  · rintro ⟨s, len, rfl, rfl⟩
    exact ⟨(BitVec.bytes_ofBytes len).symm, trivial⟩
  · rintro ⟨rfl, _⟩
    exact ⟨x.bytes, BitVec.length_bytes x, rfl, (BitVec.ofBytes_bytes x).symm⟩

theorem accepts_number : Accepts (number eof n) fun x pre => pre = beBytes n x ∧ x < 256 ^ n := by
  refine (accepts_take.map).congr fun x pre => ?_
  constructor
  · rintro ⟨s, len, rfl, rfl⟩
    exact ⟨(beBytes_ofBe len).symm, ofBe_lt len⟩
  · rintro ⟨rfl, fits⟩
    exact ⟨beBytes n x, length_beBytes n x, rfl, (ofBe_beBytes fits).symm⟩

theorem accepts_var : Accepts (var eof) fun x pre => pre = beBytes 4 x.length ++ x ∧ x.length < 256 ^ 4 := by
  refine (accepts_number.step fun n => accepts_take).congr fun x pre => ?_
  constructor
  · rintro ⟨n, fits, _, rfl, rfl, rfl⟩
    exact ⟨rfl, fits⟩
  · rintro ⟨rfl, fits⟩
    exact ⟨x.length, fits, x, rfl, rfl, rfl⟩

theorem accepts_times (hp : Accepts p fun a pre => pre = enc a ∧ ok a) :
    Accepts (times n p) fun as pre => pre = as.flatMap enc ∧ as.length = n ∧ ∀ a ∈ as, ok a := by
  induction n with
  | zero =>
    refine (accepts_pure []).congr fun as pre => ?_
    constructor
    · rintro ⟨rfl, rfl⟩
      exact ⟨rfl, rfl, nofun⟩
    · rintro ⟨rfl, len, _⟩
      obtain rfl := eq_nil_of_length_eq_zero len
      exact ⟨rfl, rfl⟩
  | succ n ih =>
    refine (hp.step fun a => ih.map).congr fun as pre => ?_
    constructor
    · rintro ⟨a, ha, _, rfl, as, ⟨len, has⟩, rfl, rfl⟩
      exact ⟨rfl, congrArg Nat.succ len, forall_mem_cons.mpr ⟨ha, has⟩⟩
    · rintro ⟨rfl, len, has⟩
      obtain ⟨a, as, rfl⟩ := exists_cons_of_length_eq_add_one len
      obtain ⟨ha, has⟩ := forall_mem_cons.mp has
      exact ⟨a, ha, _, rfl, as, ⟨Nat.succ.inj len, has⟩, rfl, rfl⟩

/-- What is read off the front of a string that is accepted. -/
theorem Accepts.run (hp : Accepts p L) {pre rest : List UInt8} {a : α} (h : L a pre) :
    p.run (pre ++ rest) = .ok (a, rest) :=
  (hp _ a rest).mpr ⟨pre, rfl, h⟩

end Decoder
