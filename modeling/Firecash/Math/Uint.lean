import Mathlib.Data.List.Induction
import Mathlib.Data.Nat.Size
import Mathlib.Tactic.Linarith
import Mathlib.Tactic.Ring

/-!
# Fixed-width integers (math/src/uint.rs)

The types of `construct_uint`: `n` words of 64 bits, the lowest first. Every loop over the words is given
as an operation on the number they stand for. Multiplication adds one row for each word of the second
factor and stops every row at the top word: products that would stand above it are never formed, so the
flag misses them. It is right exactly if there are none, or if what is kept overflows by itself
(`arithmetic_exact_iff`).
-/

namespace Firecash

open List

abbrev Words := List (BitVec 64)

structure Uint (n : Nat) where
  words : Words
  length_words : words.length = n
  deriving DecidableEq

namespace Words

/-- The number that words stand for. -/
def value : Words → Nat
  | [] => 0
  | w :: ws => w.toNat + 2 ^ 64 * value ws

/-- `bits` (uint.rs:52) -/
def bits (a : Words) : Nat :=
  match a.zipIdx.reverse.find? (·.1 != 0) with
  | some (word, i) => 64 * (i + 1) - word.clz.toNat
  | none => 0

/-- `ret` of `overflowing_shl` (uint.rs:70) -/
def shl (a : Words) (s : Nat) : Words :=
  (range a.length).map fun i =>
    if i < s / 64 then 0
    else (a.getD (i - s / 64) 0 <<< (s % 64)) |||
      if 0 < s % 64 ∧ s / 64 + 1 ≤ i then a.getD (i - 1 - s / 64) 0 >>> (64 - s % 64) else 0

/-- `ret` of `overflowing_shr` (uint.rs:95) -/
def shr (a : Words) (s : Nat) : Words :=
  (range a.length).map fun i =>
    (a.getD (i + s / 64) 0 >>> (s % 64)) ||| if 0 < s % 64 then a.getD (i + s / 64 + 1) 0 <<< (64 - s % 64) else 0

/-- `borrowing_sub_u64` (uint.rs:146) -/
def borrowingSub (lhs rhs : BitVec 64) (borrow : Bool) : BitVec 64 × Bool :=
  let a := lhs - rhs
  let borrow := BitVec.ofNat 64 borrow.toNat
  (a - borrow, decide (lhs < rhs) != decide (a < borrow))

/-- The loop of `overflowing_sub` (uint.rs:154) -/
def sub : Words → Words → Bool → Words × Bool
  | a :: as, b :: bs, carry =>
    let (d, carryOut) := borrowingSub a b carry
    let (ds, carry) := sub as bs carryOut
    (d :: ds, carry)
  | as, _, carry => (as, carry)

/-- The inner loop of `overflowing_mul` (uint.rs:200), over the words of the result from `j` on. The `u128`
stays in range (`wide_lt`). -/
def mulRow (b : BitVec 64) : Words → Words → BitVec 64 → Words × BitVec 64
  | a :: as, r :: rs, carry =>
    let n := a.toNat * b.toNat + r.toNat + carry.toNat
    let (rs, carry) := mulRow b as rs (BitVec.ofNat 64 (n / 2 ^ 64))
    (BitVec.ofNat 64 n :: rs, carry)
  | _, rs, carry => (rs, carry)

/-- The rows of `overflowing_mul` (uint.rs:197). The row of a word adds to the result from its place on, whose
lowest word is then final. -/
def mulRows (a : Words) : Words → Words → Words × Bool
  | b :: bs, rs =>
    match mulRow b a rs 0 with
    | (r :: row, carry) =>
      let (row, carryOut) := mulRows a bs row
      (r :: row, carry != 0 || carryOut)
    | ([], _) => ([], false)
  | [], rs => (rs, false)

@[simp] theorem length_sub (a b : Words) (carry : Bool) : (sub a b carry).1.length = a.length := by
  fun_induction sub a b carry <;> simp_all

theorem wide_lt (a b r carry : BitVec 64) : a.toNat * b.toNat + r.toNat + carry.toNat < 2 ^ 128 := by
  have := Nat.mul_le_mul (Nat.le_sub_one_of_lt a.isLt) (Nat.le_sub_one_of_lt b.isLt)
  have := r.isLt
  have := carry.isLt
  omega

@[simp] theorem length_mulRow (b : BitVec 64) (as rs : Words) (carry : BitVec 64) :
    (mulRow b as rs carry).1.length = rs.length := by
  fun_induction mulRow b as rs carry <;> simp_all

@[simp] theorem length_mulRows (a bs rs : Words) : (mulRows a bs rs).1.length = rs.length := by
  induction bs generalizing rs with
  | nil => rfl
  | cons b bs ih =>
    rw [← length_mulRow b a rs 0, mulRows]
    generalize mulRow b a rs 0 = next
    obtain ⟨_ | ⟨r, row⟩, carry⟩ := next <;> simp [ih]

theorem two_pow_succ (m : Nat) : 2 ^ (64 * (m + 1)) = 2 ^ (64 * m) * 2 ^ 64 := by
  rw [Nat.mul_add_one, Nat.pow_add]

theorem value_append (xs ys : Words) : value (xs ++ ys) = value xs + 2 ^ (64 * xs.length) * value ys := by
  induction xs with
  | nil => simp [value]
  | cons x xs ih =>
    rw [cons_append, value, value, ih, length_cons, two_pow_succ]
    ring

theorem value_concat (xs : Words) (x : BitVec 64) : value (xs ++ [x]) = value xs + 2 ^ (64 * xs.length) * x.toNat := by
  simp [value_append, value]

theorem value_lt (xs : Words) : value xs < 2 ^ (64 * xs.length) := by
  induction xs with
  | nil => simp [value]
  | cons x xs ih =>
    have := x.isLt
    rw [value, length_cons, two_pow_succ]
    omega

theorem value_zeros (m : Nat) : value (replicate m 0#64) = 0 := by
  induction m with
  | zero => rfl
  | succ m ih => simp [replicate_succ, value, ih]

theorem bits_eq (a : Words) : bits a = (value a).size := by
  induction a using List.reverseRec with
  | nil => simp [bits, value]
  | append_singleton ws w ih =>
    rw [value_concat, bits, zipIdx_append, reverse_append]
    by_cases zero : w = 0
    · simpa [zero, bits] using ih
    · have low := value_lt ws
      have first := BitVec.clz_lt_iff_ne_zero.mpr zero
      have high := BitVec.toNat_lt_two_pow_sub_clz (x := w)
      have least := BitVec.two_pow_sub_clz_le_toNat_of_ne_zero (by decide) zero
      have found : ((w, ws.length) :: (ws.zipIdx).reverse).find? (·.1 != 0) = some (w, ws.length) :=
        find?_cons_of_pos (by simpa using zero)
      simp only [zipIdx_cons, zipIdx_nil, Nat.zero_add, reverse_singleton, singleton_append, found]
      have first : w.clz.toNat < 64 := first
      apply Nat.le_antisymm
      · have : 64 * ws.length + (63 - w.clz.toNat) < (value ws + 2 ^ (64 * ws.length) * w.toNat).size := by
          rw [Nat.lt_size, Nat.pow_add]
          exact (Nat.mul_le_mul_left _ least).trans (Nat.le_add_left _ _)
        omega
      · rw [Nat.size_le,
          show 64 * (ws.length + 1) - w.clz.toNat = 64 * ws.length + (64 - w.clz.toNat) by omega, Nat.pow_add]
        have := Nat.mul_le_mul_left (2 ^ (64 * ws.length)) high
        rw [Nat.mul_succ] at this
        omega

/-- The highest words decide unless they are equal. -/
theorem lt_iff {a b : Words} (same : a.length = b.length) : a.reverse < b.reverse ↔ value a < value b := by
  induction a using List.reverseRec generalizing b with
  | nil => simp [length_eq_zero_iff.mp same.symm]
  | append_singleton as x ih =>
    obtain rfl | ⟨bs, y, rfl⟩ := b.eq_nil_or_concat
    · simp at same
    have same : as.length = bs.length := by simpa using same
    have left := value_lt as
    have right := value_lt bs
    simp only [concat_eq_append, reverse_append, reverse_singleton, singleton_append, cons_lt_cons_iff, ih same,
      value_concat, BitVec.lt_def, ← BitVec.toNat_inj, same] at *
    obtain less | equal | more := Nat.lt_trichotomy x.toNat y.toNat
    · have := Nat.mul_le_mul_left (2 ^ (64 * bs.length)) less
      rw [Nat.mul_succ] at this
      omega
    · simp [equal]
    · have := Nat.mul_le_mul_left (2 ^ (64 * bs.length)) more
      rw [Nat.mul_succ] at this
      omega

theorem borrowingSub_spec (a b : BitVec 64) (carry : Bool) :
    (borrowingSub a b carry).1.toNat + b.toNat + carry.toNat = a.toNat + 2 ^ 64 * (borrowingSub a b carry).2.toNat := by
  unfold borrowingSub
  by_cases under : a < b <;> by_cases taken : a - b < BitVec.ofNat 64 carry.toNat <;>
    simp only [under, taken, decide_true, decide_false, Bool.true_bne, Bool.false_bne, Bool.not_true, Bool.not_false,
      Bool.toNat_true, Bool.toNat_false] <;>
    cases carry <;> bv_omega

theorem value_sub (a b : Words) (carry : Bool) (same : a.length = b.length) :
    value (sub a b carry).1 + value b + carry.toNat = value a + 2 ^ (64 * a.length) * (sub a b carry).2.toNat := by
  induction a generalizing b carry with
  | nil => simp [length_eq_zero_iff.mp same.symm, sub, value]
  | cons a as ih =>
    obtain _ | ⟨b, bs⟩ := b
    · simp at same
    have word := borrowingSub_spec a b carry
    have rest := ih bs (borrowingSub a b carry).2 (by simpa using same)
    rw [length_cons, two_pow_succ]
    simp only [sub, value]
    linarith

theorem testBit_value (ws : Words) (i : Nat) : (value ws).testBit i = (ws.getD (i / 64) 0).getLsbD (i % 64) := by
  induction ws generalizing i with
  | nil => simp [value]
  | cons w ws ih =>
    rw [value, Nat.add_comm, Nat.testBit_two_pow_mul_add _ w.isLt]
    split
    · rename_i low
      simp [Nat.div_eq_of_lt low, Nat.mod_eq_of_lt low, BitVec.testBit_toNat]
    · obtain ⟨i, rfl⟩ := Nat.exists_eq_add_of_le (Nat.le_of_not_lt ‹_›)
      simp [ih, Nat.add_comm 64]

theorem value_shl (a : Words) (s : Nat) : value (a.shl s) = value a * 2 ^ s % 2 ^ (64 * a.length) := by
  refine Nat.eq_of_testBit_eq fun i => ?_
  rw [testBit_value, Nat.testBit_mod_two_pow, Nat.testBit_mul_two_pow, testBit_value]
  by_cases inside : i < 64 * a.length
  · have word : i / 64 < a.length := by omega
    simp only [shl, getD_eq_getElem?_getD, getElem?_map, getElem?_range word, Option.map_some, Option.getD_some, inside,
      decide_true, Bool.true_and]
    have within : (i - s) / 64 = if i % 64 < s % 64 then i / 64 - 1 - s / 64 else i / 64 - s / 64 := by
      split <;> omega
    have bit : s ≤ i → (i - s) % 64 = if i % 64 < s % 64 then 64 - s % 64 + i % 64 else i % 64 - s % 64 := by
      split <;> omega
    grind only [BitVec.getLsbD_or, BitVec.getLsbD_shiftLeft, BitVec.getLsbD_ushiftRight, BitVec.getLsbD_zero,
      BitVec.getLsbD_of_ge]
  · simp [shl, show ¬ i / 64 < a.length by omega, inside]

theorem value_shr (a : Words) (s : Nat) : value (a.shr s) = value a / 2 ^ s := by
  refine Nat.eq_of_testBit_eq fun i => ?_
  rw [testBit_value, Nat.testBit_div_two_pow, testBit_value]
  by_cases inside : i < 64 * a.length
  · have word : i / 64 < a.length := by omega
    simp only [shr, getD_eq_getElem?_getD, getElem?_map, getElem?_range word, Option.map_some, Option.getD_some]
    have within : (i + s) / 64 = if s % 64 + i % 64 < 64 then i / 64 + s / 64 else i / 64 + s / 64 + 1 := by
      split <;> omega
    have bit : (i + s) % 64 = if s % 64 + i % 64 < 64 then s % 64 + i % 64 else i % 64 - (64 - s % 64) := by
      split <;> omega
    grind only [BitVec.getLsbD_or, BitVec.getLsbD_shiftLeft, BitVec.getLsbD_ushiftRight, BitVec.getLsbD_of_ge]
  · simp [shr, show ¬ i / 64 < a.length by omega, show ¬ (i + s) / 64 < a.length by omega]

/-- A row adds the product with the words that it meets. -/
theorem value_mulRow (b : BitVec 64) (as rs : Words) (carry : BitVec 64) (long : rs.length ≤ as.length) :
    value (mulRow b as rs carry).1 + 2 ^ (64 * rs.length) * (mulRow b as rs carry).2.toNat =
      value rs + b.toNat * value (as.take rs.length) + carry.toNat := by
  induction rs generalizing as carry with
  | nil => simp [mulRow, value]
  | cons r rs ih =>
    obtain _ | ⟨a, as⟩ := as
    · simp at long
    have wide := wide_lt a b r carry
    have rest := ih as (BitVec.ofNat 64 ((a.toNat * b.toNat + r.toNat + carry.toNat) / 2 ^ 64)) (by simpa using long)
    rw [BitVec.toNat_ofNat, Nat.mod_eq_of_lt (by omega)] at rest
    have split := Nat.mod_add_div (a.toNat * b.toNat + r.toNat + carry.toNat) (2 ^ 64)
    rw [length_cons, two_pow_succ, take_succ_cons]
    simp only [mulRow, value, BitVec.toNat_ofNat]
    linarith

/-- The products that would stand above the top word. -/
def dropped (a : Words) : Words → Nat
  | [] => 0
  | b :: bs => b.toNat * value (a.drop (bs.length + 1)) + dropped a bs

/-- The rows lose a multiple of the top at their ends, and the flag says whether it is 0; they drop another. -/
theorem value_mulRows (a bs rs : Words) (same : rs.length = bs.length) (long : bs.length ≤ a.length) :
    ∃ lost, value (mulRows a bs rs).1 + 2 ^ (64 * bs.length) * (lost + dropped a bs) = value rs + value a * value bs ∧
      ((mulRows a bs rs).2 = true ↔ lost ≠ 0) := by
  induction bs generalizing rs with
  | nil => exact ⟨0, by simp [mulRows, dropped, value], by simp [mulRows]⟩
  | cons b bs ih =>
    have size := length_mulRow b a rs 0
    have row := value_mulRow b a rs 0 (by omega)
    have factor := value_append (a.take (bs.length + 1)) (a.drop (bs.length + 1))
    rw [take_append_drop, length_take, Nat.min_eq_left (by simpa using long)] at factor
    rw [same] at size row
    unfold mulRows
    generalize mulRow b a rs 0 = next at size row ⊢
    obtain ⟨_ | ⟨r, rest⟩, carry⟩ := next
    · cases size
    obtain ⟨lost, whole, flag⟩ := ih rest (by simpa using size) (Nat.le_of_succ_le long)
    refine ⟨carry.toNat + lost, ?_, ?_⟩
    · have scaled := congrArg (2 ^ 64 * ·) whole
      have product := congrArg (b.toNat * ·) factor
      simp only [length_cons, two_pow_succ, value, dropped, show (0 : BitVec 64).toNat = 0 from rfl] at row product ⊢
      linarith
    · simp [flag, BitVec.toNat_eq]
      tauto

end Words

namespace Uint

variable {n : Nat} (a b : Uint n)

def toNat : Nat := a.words.value

instance : OfNat (Uint n) 0 := ⟨⟨replicate n 0, length_replicate⟩⟩

/-- `cmp` (uint.rs:519): the words from the highest one down. -/
instance : LT (Uint n) := ⟨fun a b => a.words.reverse < b.words.reverse⟩

instance : Decidable (a < b) := inferInstanceAs (Decidable (a.words.reverse < b.words.reverse))

/-- `ret[shift_index] |= 1 << shift_val` (uint.rs:332) -/
def setBit (shift : Nat) : Uint n :=
  ⟨a.words.modify (shift / 64) (· ||| 1#64 <<< (shift % 64)), by rw [length_modify, a.length_words]⟩

/-- `overflowing_shl` (uint.rs:67) -/
def overflowingShl (s : Nat) : Uint n × Bool :=
  (⟨a.words.shl (s % (64 * n)), by simp [Words.shl, a.length_words]⟩, decide (64 * n ≤ s))

/-- `overflowing_shr` (uint.rs:92) -/
def overflowingShr (s : Nat) : Uint n × Bool :=
  (⟨a.words.shr (s % (64 * n)), by simp [Words.shr, a.length_words]⟩, decide (64 * n ≤ s))

/-- `overflowing_sub` (uint.rs:143) -/
def overflowingSub : Uint n × Bool :=
  let r := a.words.sub b.words false
  (⟨r.1, by simp [r, a.length_words]⟩, r.2)

/-- `overflowing_mul` (uint.rs:193) -/
def overflowingMul : Uint n × Bool :=
  let r := a.words.mulRows b.words (0 : Uint n).words
  (⟨r.1, by simp [r, length_words]⟩, r.2)

theorem toNat_lt : a.toNat < 2 ^ (64 * n) := by
  have small := Words.value_lt a.words
  rwa [a.length_words] at small

@[simp] theorem toNat_zero : (0 : Uint n).toNat = 0 := Words.value_zeros n

variable {a b}

theorem lt_iff : a < b ↔ a.toNat < b.toNat := Words.lt_iff (a.length_words.trans b.length_words.symm)

theorem setBit_spec {shift : Nat} (inside : shift < 64 * n) : (a.setBit shift).toNat = a.toNat ||| 2 ^ shift := by
  refine Nat.eq_of_testBit_eq fun i => ?_
  rw [toNat, Words.testBit_value, Nat.testBit_or, toNat, Words.testBit_value, Nat.testBit_two_pow]
  simp only [setBit, getD_eq_getElem?_getD, getElem?_modify]
  by_cases here : shift / 64 = i / 64
  · have word : i / 64 < a.words.length := by
      rw [a.length_words]
      omega
    simp [here, word, Nat.mod_lt]
    grind only
  · simp [here, show shift ≠ i by omega]

theorem overflowingShl_spec {s : Nat} (hs : s < 64 * n) :
    (a.overflowingShl s).1.toNat = a.toNat * 2 ^ s % 2 ^ (64 * n) := by
  simpa only [toNat, overflowingShl, Nat.mod_eq_of_lt hs, a.length_words] using a.words.value_shl s

theorem overflowingShr_spec {s : Nat} (hs : s < 64 * n) : (a.overflowingShr s).1.toNat = a.toNat / 2 ^ s := by
  simpa only [toNat, overflowingShr, Nat.mod_eq_of_lt hs] using a.words.value_shr s

/-- A difference that is not negative is exact. -/
theorem overflowingSub_spec (le : b.toNat ≤ a.toNat) : (a.overflowingSub b).1.toNat = a.toNat - b.toNat := by
  have exact := Words.value_sub a.words b.words false (a.length_words.trans b.length_words.symm)
  have small := (a.overflowingSub b).1.toNat_lt
  simp only [toNat, overflowingSub, a.length_words, Bool.toNat_false] at exact le small ⊢
  cases borrow : (a.words.sub b.words false).2 <;> rw [borrow] at exact <;> simp at exact <;> omega

variable (a b)

/-- **When the flag of a product is right.** The product and the shifts are right modulo the width. The flag
is exactly if no product is dropped, or if those that are kept overflow without it. -/
theorem arithmetic_exact_iff :
    (((a.overflowingMul b).1.toNat = a.toNat * b.toNat % 2 ^ (64 * n) ∧
        ((a.overflowingMul b).2 = true ↔ 2 ^ (64 * n) ≤ a.toNat * b.toNat)) ∧
      ∀ s < 64 * n, (a.overflowingShl s).1.toNat = a.toNat * 2 ^ s % 2 ^ (64 * n) ∧
        (a.overflowingShr s).1.toNat = a.toNat / 2 ^ s % 2 ^ (64 * n)) ↔
    a.words.dropped b.words = 0 ∨ 2 ^ (64 * n) ≤ a.toNat * b.toNat - 2 ^ (64 * n) * a.words.dropped b.words := by
  obtain ⟨lost, whole, flag⟩ := Words.value_mulRows a.words b.words (0 : Uint n).words
    (by simp only [length_words]) (by simp only [length_words, le_rfl])
  rw [b.length_words, show (0 : Uint n).words.value = 0 from toNat_zero, Nat.zero_add] at whole
  have whole : (a.overflowingMul b).1.toNat + 2 ^ (64 * n) * (lost + a.words.dropped b.words) = a.toNat * b.toNat :=
    whole
  have flag : (a.overflowingMul b).2 = true ↔ lost ≠ 0 := flag
  have small := (a.overflowingMul b).1.toNat_lt
  refine (and_iff_left fun s hs => ?_).trans ?_
  · rw [overflowingShl_spec hs, overflowingShr_spec hs]
    exact ⟨rfl, (Nat.mod_eq_of_lt ((Nat.div_le_self _ _).trans_lt a.toNat_lt)).symm⟩
  · rw [← whole, Nat.add_mul_mod_self_left, Nat.mod_eq_of_lt small, and_iff_right rfl, flag, Nat.mul_add,
      ← Nat.add_assoc, Nat.add_sub_cancel]
    obtain none | some := Nat.eq_zero_or_pos lost
    · obtain clean | missing := Nat.eq_zero_or_pos (a.words.dropped b.words)
      · simp [none, clean, small]
      · have := Nat.le_mul_of_pos_right (2 ^ (64 * n)) missing
        rw [none]
        omega
    · have := Nat.le_mul_of_pos_right (2 ^ (64 * n)) some
      omega

/-- `2 ^ 128`, a `Uint192`. -/
def highWord : Uint 3 := ⟨[0, 0, 1], rfl⟩

/-- Its square comes out as 0, and no overflow is reported. -/
theorem highWord_squared : highWord.overflowingMul highWord = (0, false) ∧
    2 ^ (64 * 3) ≤ highWord.toNat * highWord.toNat := by
  decide +kernel

end Uint

end Firecash
