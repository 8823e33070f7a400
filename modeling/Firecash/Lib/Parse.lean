import Firecash.Lib.Bytes
import Firecash.Lib.Fallible

/-!
# Parsers that reserve memory

A parser takes bytes from the front of its input, can give up, and can ask for memory before it has
read what it will hold. `run` executes it. `requests` are the sizes it asks for on an input whether or
not they can be allocated: it aborts exactly if one of them is beyond an allocation
(`panics_run_iff`).

`Reads p bs a` is the round-trip side: `p` reads `bs` as `a`, whatever follows, and leaves what follows.
The rules below compose it along the program, so a decoder is shown to read an encoding by walking
both. `Refuses p bs` is the opposite end: the program gives up within `bs`.
-/

open List

inductive Parse (α : Type) : Type where
  | done (a : α)
  | fail
  /-- The next `n` bytes; fails if there are fewer. -/
  | take (n : Nat) (k : List UInt8 → Parse α)
  /-- Asks for memory; only a size no allocation can have is refused, not one there is no memory for. -/
  | reserve (bytes : Nat) (k : Parse α)

namespace Parse

variable {α β : Type}

def bind : Parse α → (α → Parse β) → Parse β
  | .done a, f => f a
  | .fail, _ => .fail
  | .take n k, f => .take n fun bs => (k bs).bind f
  | .reserve bytes k, f => .reserve bytes (k.bind f)

instance : Monad Parse where
  pure := .done
  bind := bind

/-- `Err`, here `.err ()`, is a parse failure; the rest of the input is returned with the result. -/
def run : Parse α → List UInt8 → Except (Fault Unit) (α × List UInt8)
  | .done a, bs => .ok (a, bs)
  | .fail, _ => .error (.err ())
  | .take n k, bs => if n ≤ bs.length then (k (bs.take n)).run (bs.drop n) else .error (.err ())
  | .reserve bytes k, bs => if bytes ≤ ISIZE_MAX then k.run bs else .error .panic

/-- The sizes asked for while the input lasts. -/
def requests : Parse α → List UInt8 → List Nat
  | .done _, _ | .fail, _ => []
  | .take n k, bs => if n ≤ bs.length then (k (bs.take n)).requests (bs.drop n) else []
  | .reserve bytes k, bs => bytes :: k.requests bs

variable {p : Parse α} {bs : List UInt8}

/-- A parse aborts exactly if it asks for more than an allocation can be. -/
theorem panics_run_iff : (p.run bs).panics ↔ ∃ r ∈ p.requests bs, ISIZE_MAX < r := by
  induction p generalizing bs with
  | done a => simp [run, requests, Except.panics]
  | fail => simp [run, requests, Except.panics]
  | take n k ih =>
    rw [run, requests]
    split
    · exact ih _
    · simp [Except.panics]
  | reserve bytes k ih =>
    rw [run, requests]
    split
    · rename_i fits
      simp only [exists_mem_cons_iff, Nat.not_lt.mpr fits, false_or]
      exact ih
    · rename_i large
      simp [Except.panics, Nat.lt_of_not_le large]

/-! ## Steps -/

def u8 : Parse UInt8 := .take 1 fun bs => .done (bs.headD 0)

def u16 : Parse Nat := .take 2 fun bs => .done (ofLe bs)

def u64 : Parse Nat := .take 8 fun bs => .done (ofLe bs)

/-- `[u8; n]` -/
def array (n : Nat) : Parse (BitVec (8 * n)) := .take n fun bs => .done (BitVec.ofBytes n bs)

def bytes (n : Nat) : Parse (List UInt8) := .take n .done

def ofOption : Option α → Parse α
  | some a => .done a
  | none => .fail

/-- `p`, `n` times. -/
def times : Nat → Parse α → Parse (List α)
  | 0, _ => pure []
  | n + 1, p => do
    let a ← p
    let as ← times n p
    pure (a :: as)

/-- A count and as many elements. -/
def list (p : Parse α) : Parse (List α) := do
  let n ← u64
  times n p

/-- A count, memory for as many elements of `slot` bytes, and the elements. -/
def vector (slot : Nat) (p : Parse α) : Parse (List α) := do
  let n ← u64
  .reserve (slot * n) (times n p)

/-- A best-effort parse of a whole buffer: any trouble, or bytes left over, is no result. -/
def attempt (p : Parse α) (buf : List UInt8) : Except (Fault Unit) (Option α) :=
  match p.run buf with
  | .ok (a, []) => .ok (some a)
  | .ok (_, _ :: _) => .ok none
  | .error (.err _) => .ok none
  | .error .panic => .error .panic

/-- The writing of a vector: its length and its elements. -/
def writeVec (enc : α → List UInt8) (as : List α) : List UInt8 := leBytes 8 as.length ++ as.flatMap enc

/-! ## Execution -/

theorem run_bind (p : Parse α) (f : α → Parse β) (bs : List UInt8) :
    (p >>= f).run bs = p.run bs >>= fun r => (f r.1).run r.2 := by
  show (p.bind f).run bs = _
  induction p generalizing bs with
  | done a => rfl
  | fail => rfl
  | take n k ih =>
    rw [bind, run, run]
    split
    · exact ih _ _
    · rfl
  | reserve bytes k ih =>
    rw [bind, run, run]
    split
    · exact ih _
    · rfl

variable {f : α → Parse β} {b : β}

theorem run_bind_eq_ok_iff {rest : List UInt8} :
    (p >>= f).run bs = .ok (b, rest) ↔ ∃ a mid, p.run bs = .ok (a, mid) ∧ (f a).run mid = .ok (b, rest) := by
  rw [run_bind, Except.bind_eq_ok_iff]
  constructor
  · rintro ⟨⟨a, mid⟩, hp, hf⟩
    exact ⟨a, mid, hp, hf⟩
  · rintro ⟨a, mid, hp, hf⟩
    exact ⟨(a, mid), hp, hf⟩

variable {o : Option α} {a : α}

theorem run_ofOption_eq_ok_iff {rest : List UInt8} :
    (ofOption o).run bs = .ok (a, rest) ↔ o = some a ∧ rest = bs := by
  cases o with
  | none => simp [ofOption, run]
  | some b => simp [ofOption, run, eq_comm]

/-- Asks for no memory. -/
def Modest : Parse α → Prop
  | .done _ | .fail => True
  | .take _ k => ∀ bs, (k bs).Modest
  | .reserve .. => False

theorem Modest.requests (h : p.Modest) (bs : List UInt8) : p.requests bs = [] := by
  induction p generalizing bs with
  | done a => rfl
  | fail => rfl
  | take n k ih =>
    rw [Parse.requests]
    split
    · exact ih _ (h _) _
    · rfl
  | reserve bytes k ih => exact h.elim

theorem Modest.bind (hp : p.Modest) (hf : ∀ a, (f a).Modest) : (p >>= f).Modest := by
  induction p with
  | done a => exact hf a
  | fail => trivial
  | take n k ih => exact fun bs => ih bs (hp bs)
  | reserve bytes k ih => exact hp.elim

theorem Modest.ofOption (o : Option α) : (ofOption o).Modest := by
  cases o <;> trivial

theorem Modest.times {p : Parse α} (hp : p.Modest) (n : Nat) : (times n p).Modest := by
  induction n with
  | zero => trivial
  | succ n ih => exact hp.bind fun a => ih.bind fun as => trivial

variable {buf : List UInt8}

theorem panics_attempt_iff : (p.attempt buf).panics ↔ ∃ r ∈ p.requests buf, ISIZE_MAX < r := by
  rw [← panics_run_iff]
  unfold attempt
  split <;> simp_all [Except.panics]

/-- A best-effort parse whose requests can be met ends with a result or without one. -/
theorem exists_attempt (fits : ∀ r ∈ p.requests buf, r ≤ ISIZE_MAX) :
    ∃ found, p.attempt buf = .ok found := by
  cases h : p.attempt buf with
  | ok found => exact ⟨found, rfl⟩
  | error e =>
    cases e with
    | err e =>
      unfold attempt at h
      split at h <;> cases h
    | panic =>
      obtain ⟨r, hr, large⟩ := panics_attempt_iff.mp (Except.panics_iff.mpr h)
      exact absurd (fits r hr) (Nat.not_le.mpr large)

theorem Modest.attempt (h : p.Modest) (buf : List UInt8) : ∃ found, p.attempt buf = .ok found := by
  refine exists_attempt ?_
  rw [h.requests]
  exact fun r hr => nomatch hr

/-! ## Reading an encoding -/

def Reads (p : Parse α) (bs : List UInt8) (a : α) : Prop := ∀ rest, p.run (bs ++ rest) = .ok (a, rest)

theorem Reads.run (h : Reads p bs a) : p.run bs = .ok (a, []) := by
  have := h []
  rwa [append_nil] at this

theorem Reads.attempt (h : Reads p bs a) : p.attempt bs = .ok (some a) := by
  rw [Parse.attempt, h.run]

/-- What is read is no result if something is left. -/
theorem Reads.attempt_append {rest : List UInt8} (h : Reads p bs a) (left : rest ≠ []) :
    p.attempt (bs ++ rest) = .ok none := by
  obtain ⟨b, bs', rfl⟩ := exists_cons_of_ne_nil left
  rw [Parse.attempt, h]

theorem Reads.pure (a : α) : Reads (pure a) [] a := fun _ => rfl

theorem Reads.bind {cs : List UInt8} (hp : Reads p bs a)
    (hf : Reads (f a) cs b) : Reads (p >>= f) (bs ++ cs) b := by
  intro rest
  rw [run_bind, append_assoc, hp]
  exact hf rest

theorem Reads.bind_nil (hp : Reads p bs a)
    (hf : Reads (f a) [] b) : Reads (p >>= f) bs b := by
  have := hp.bind hf
  rwa [append_nil] at this

variable {n : Nat}

theorem reads_take {k : List UInt8 → Parse α} {cs : List UInt8} (hn : bs.length = n)
    (hk : Reads (k bs) cs a) : Reads (.take n k) (bs ++ cs) a := by
  intro rest
  have enough : n ≤ (bs ++ cs ++ rest).length := by
    rw [append_assoc, length_append, hn]
    exact Nat.le_add_right _ _
  rw [Parse.run, if_pos enough, append_assoc, take_left' hn, drop_left' hn]
  exact hk rest

theorem reads_reserve {r : Nat} {k : Parse α} (fits : r ≤ ISIZE_MAX) (hk : Reads k bs a) :
    Reads (.reserve r k) bs a := by
  intro rest
  rw [Parse.run, if_pos fits]
  exact hk rest

theorem reads_u8 (b : UInt8) : Reads u8 [b] b := by
  have one : [b].length = 1 := rfl
  exact reads_take one (Reads.pure b)

theorem reads_u16 {x : Nat} (h : x < 65536) : Reads u16 (leBytes 2 x) x := by
  have := reads_take (k := fun bs => .done (ofLe bs)) (length_leBytes 2 x) (Reads.pure _)
  rwa [append_nil, ofLe_leBytes_of_lt (by omega)] at this

theorem reads_u64 {x : Nat} (h : x < 18446744073709551616) : Reads u64 (leBytes 8 x) x := by
  have := reads_take (k := fun bs => .done (ofLe bs)) (length_leBytes 8 x) (Reads.pure _)
  rwa [append_nil, ofLe_leBytes_of_lt (by omega)] at this

theorem reads_array (x : BitVec (8 * n)) : Reads (array n) x.bytes x := by
  have := reads_take (k := fun bs => .done (BitVec.ofBytes n bs)) (BitVec.length_bytes x) (Reads.pure _)
  rwa [append_nil, BitVec.ofBytes_bytes] at this

theorem reads_bytes (h : bs.length = n) : Reads (bytes n) bs bs := by
  have := reads_take h (Reads.pure bs)
  rwa [append_nil] at this

theorem reads_ofOption (h : o = some a) : Reads (ofOption o) [] a := by
  rw [h]
  exact Reads.pure a

variable {enc : α → List UInt8} {as : List α}

theorem reads_times (h : ∀ a ∈ as, Reads p (enc a) a) :
    Reads (times as.length p) (as.flatMap enc) as := by
  induction as with
  | nil => exact Reads.pure []
  | cons a as ih =>
    have tail := ih fun b hb => h b (mem_cons_of_mem a hb)
    exact (h a mem_cons_self).bind (tail.bind_nil (Reads.pure (a :: as)))

/-- `p` gives up on `bs`, whatever follows. -/
def Refuses (p : Parse α) (bs : List UInt8) : Prop := ∀ rest, p.run (bs ++ rest) = .error (.err ())

theorem refuses_ofOption (h : o = none) : Refuses (ofOption o) [] := by
  intro rest
  rw [h]
  rfl

theorem Reads.refuses {cs : List UInt8} (hp : Reads p bs a)
    (hf : Refuses (f a) cs) : Refuses (p >>= f) (bs ++ cs) := by
  intro rest
  rw [run_bind, append_assoc, hp]
  exact hf rest

theorem Reads.refuses_nil (hp : Reads p bs a)
    (hf : Refuses (f a) []) : Refuses (p >>= f) bs := by
  have := hp.refuses hf
  rwa [append_nil] at this

theorem Refuses.bind (hp : Refuses p bs) (f : α → Parse β) : Refuses (p >>= f) bs := by
  intro rest
  rw [run_bind, hp]
  rfl

/-- Encodings of at least `k` bytes each. -/
theorem mul_length_le_flatMap {k : Nat} (h : ∀ a ∈ as, k ≤ (enc a).length) :
    k * as.length ≤ (as.flatMap enc).length := by
  induction as with
  | nil => simp
  | cons a as ih =>
    have head := h a mem_cons_self
    have tail := ih fun b hb => h b (mem_cons_of_mem a hb)
    rw [flatMap_cons, length_append, length_cons, Nat.mul_succ]
    omega

theorem length_le_flatMap (enc : α → List UInt8) (h : a ∈ as) :
    (enc a).length ≤ (as.flatMap enc).length := by
  induction as with
  | nil => cases h
  | cons b as ih =>
    rw [flatMap_cons, length_append]
    rcases mem_cons.mp h with rfl | h
    · omega
    · have := ih h
      omega

/-- A list that was written has a count that can be written. -/
theorem reads_list (h : ∀ a ∈ as, Reads p (enc a) a)
    (size : ∀ a ∈ as, 1 ≤ (enc a).length) (fits : (writeVec enc as).length ≤ ISIZE_MAX) :
    Reads (list p) (writeVec enc as) as := by
  have total := mul_length_le_flatMap size
  have bound : ISIZE_MAX < 18446744073709551616 := by decide
  rw [writeVec, length_append] at fits
  exact (reads_u64 (by omega)).bind (reads_times h)

/-- A vector whose elements take no less room when they are written: its memory can be reserved. -/
theorem reads_vector {slot : Nat} (pos : 0 < slot)
    (h : ∀ a ∈ as, Reads p (enc a) a) (size : ∀ a ∈ as, slot ≤ (enc a).length)
    (fits : (writeVec enc as).length ≤ ISIZE_MAX) : Reads (vector slot p) (writeVec enc as) as := by
  have total := mul_length_le_flatMap size
  have count : as.length ≤ slot * as.length := Nat.le_mul_of_pos_left _ pos
  have bound : ISIZE_MAX < 18446744073709551616 := by decide
  rw [writeVec, length_append] at fits
  exact (reads_u64 (by omega)).bind (reads_reserve (by omega) (reads_times h))

end Parse
