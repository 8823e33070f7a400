import Mathlib.Data.BitVec
import Mathlib.Data.Nat.Bitwise

/-!
# Bit strings as paths of a binary tree

A key of `n` bits is read from its most significant bit: bit `d` says on which side of a binary tree the
key is below a node of depth `d`. `Agree d k x` says that two keys go the same way for `d` levels, so the
keys that agree with `k` for `d` levels are those below one node of depth `d`. Where two keys part, the
one on the left is smaller (`lt_of_diverge`).
-/

namespace KeyBits

open BitVec

variable {n : Nat} {d e : Nat} {k k' x y : BitVec n}

/-- Bit `d` from the top: `true` is the right side. -/
def bitAt (k : BitVec n) (d : Nat) : Bool := k.getMsbD d

/-- The first `d` bits are the same. -/
def Agree (d : Nat) (k x : BitVec n) : Prop := ∀ i < d, bitAt k i = bitAt x i

instance (d : Nat) (k x : BitVec n) : Decidable (Agree d k x) := inferInstanceAs (Decidable (∀ i < d, _))

/-- The key with bit `d` set to `b`. -/
def withBit (k : BitVec n) (d : Nat) (b : Bool) : BitVec n :=
  if b then k ||| twoPow n (n - 1 - d) else k &&& ~~~ twoPow n (n - 1 - d)

/-- The key with everything after its first `d` bits cleared. -/
def keep (d : Nat) (k : BitVec n) : BitVec n := k >>> (n - d) <<< (n - d)

theorem eq_of_bitAt (h : ∀ i < n, bitAt k i = bitAt x i) : k = x := eq_of_getMsbD_eq h

theorem bitAt_withBit (hd : d < n) (k : BitVec n) (b : Bool) (i : Nat) :
    bitAt (withBit k d b) i = if i = d then b else bitAt k i := by
  unfold bitAt withBit
  by_cases inside : i < n
  · have top : n - 1 - d = n - 1 - i ↔ i = d := by omega
    cases b <;> simp [getMsbD_eq_getLsbD, getLsbD_twoPow, inside, top]
    all_goals by_cases same : i = d
    all_goals simp [same]
    all_goals omega
  · have other : i ≠ d := by omega
    have beyond : ∀ y : BitVec n, y.getMsbD i = false := by
      intro y
      simp [getMsbD_eq_getLsbD, inside]
    rw [if_neg other, beyond, beyond]

theorem bitAt_keep (hd : d ≤ n) (k : BitVec n) (i : Nat) : bitAt (keep d k) i = (decide (i < d) && bitAt k i) := by
  unfold bitAt keep
  by_cases inside : i < n
  · simp [getMsbD_eq_getLsbD, inside]
    by_cases low : i < d
    · have : n - d + (n - 1 - i - (n - d)) = n - 1 - i := by omega
      simp [low, this]
      omega
    · simp [low]
      omega
  · simp [getMsbD_eq_getLsbD, inside]

/-! ## Keys that agree -/

@[refl] theorem Agree.refl (d : Nat) (k : BitVec n) : Agree d k k := fun _ _ => rfl

@[symm] theorem Agree.symm (h : Agree d k x) : Agree d x k := fun i hi => (h i hi).symm

theorem Agree.trans (h : Agree d k x) (h' : Agree d x y) : Agree d k y := fun i hi => (h i hi).trans (h' i hi)

theorem Agree.mono (h : Agree d k x) (le : e ≤ d) : Agree e k x := fun i hi => h i (by omega)

theorem agree_zero (k x : BitVec n) : Agree 0 k x := fun i hi => absurd hi (Nat.not_lt_zero i)

theorem Agree.eq (h : Agree n k x) : k = x := eq_of_bitAt h

theorem agree_succ : Agree (d + 1) k x ↔ Agree d k x ∧ bitAt k d = bitAt x d := by
  constructor
  · intro h
    exact ⟨h.mono (Nat.le_succ d), h d (Nat.lt_succ_self d)⟩
  · rintro ⟨h, last⟩ i hi
    obtain below | rfl := Nat.lt_succ_iff_lt_or_eq.mp hi
    · exact h i below
    · exact last

theorem agree_withBit (hd : d < n) (k : BitVec n) (b : Bool) : Agree d k (withBit k d b) := by
  intro i hi
  rw [bitAt_withBit hd, if_neg (by omega)]

@[simp] theorem bitAt_withBit_self (hd : d < n) (k : BitVec n) (b : Bool) : bitAt (withBit k d b) d = b := by
  rw [bitAt_withBit hd, if_pos rfl]

theorem agree_child_iff (hd : d < n) {b : Bool} : Agree (d + 1) (withBit k d b) x ↔ Agree d k x ∧ bitAt x d = b := by
  rw [agree_succ, bitAt_withBit_self hd, eq_comm]
  constructor
  · rintro ⟨h, bit⟩
    exact ⟨(agree_withBit hd k b).trans h, bit⟩
  · rintro ⟨h, bit⟩
    exact ⟨(agree_withBit hd k b).symm.trans h, bit⟩

theorem keep_eq_iff (hd : d ≤ n) : keep d k = keep d x ↔ Agree d k x := by
  constructor
  · intro h i hi
    have bit : bitAt (keep d k) i = bitAt (keep d x) i := by rw [h]
    rw [bitAt_keep hd, bitAt_keep hd] at bit
    simpa [hi] using bit
  · intro h
    apply eq_of_bitAt
    intro i hi
    rw [bitAt_keep hd, bitAt_keep hd]
    by_cases low : i < d
    · rw [h i low]
    · simp [low]

/-! ## Order -/

theorem lt_of_diverge (hd : d < n) (same : Agree d k x) (left : bitAt k d = false) (right : bitAt x d = true) :
    k < x := by
  rw [lt_def]
  apply Nat.lt_of_testBit (n - 1 - d)
  · simpa [bitAt, getMsbD_eq_getLsbD, hd, testBit_toNat] using left
  · simpa [bitAt, getMsbD_eq_getLsbD, hd, testBit_toNat] using right
  · intro j hj
    rw [testBit_toNat, testBit_toNat]
    by_cases inside : j < n
    · have above := same (n - 1 - j) (by omega)
      have back : n - 1 - (n - 1 - j) = j := by omega
      have place : n - 1 - j < n := by omega
      simpa [bitAt, getMsbD_eq_getLsbD, place, back] using above
    · rw [getLsbD_of_ge _ _ (by omega), getLsbD_of_ge _ _ (by omega)]

end KeyBits
