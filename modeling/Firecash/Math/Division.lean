import Firecash.Ghostdag.Protocol
import Firecash.Math.Uint

/-!
# Division of fixed-width integers (math/src/uint.rs) and the work of a block

`div_rem` is a bitwise long division: the divisor is aligned with the numerator and moved right one bit at
a time. `div_rem_u64` divides the words from the highest one down.
-/

namespace Firecash.Uint

variable {w : Nat}

/-- The loop of `div_rem` for one `shift`. -/
def divStep (shift : Nat) (ret subCopy shiftCopy : Uint w) : Uint w × Uint w :=
  if subCopy < shiftCopy then (ret, subCopy) else (ret.setBit shift, (subCopy.overflowingSub shiftCopy).1)

def divLoop : Nat → Uint w → Uint w → Uint w → Uint w × Uint w
  | 0, ret, subCopy, shiftCopy => divStep 0 ret subCopy shiftCopy
  | shift + 1, ret, subCopy, shiftCopy =>
    let (ret, subCopy) := divStep (shift + 1) ret subCopy shiftCopy
    divLoop shift ret subCopy (shiftCopy.overflowingShr 1).1

/-- `div_rem` (uint.rs:310); `none`: "attempted to divide by zero". -/
def divRem (n d : Uint w) : Option (Uint w × Uint w) :=
  if d.words.bits = 0 then none
  else if n.words.bits < d.words.bits then some (0, n)
  else some (divLoop (n.words.bits - d.words.bits) 0 n (d.overflowingShl (n.words.bits - d.words.bits)).1)

/-- `div_rem_u64` (uint.rs:262) -/
def divRemU64 (other : BitVec 64) : Words → Words × BitVec 64
  | [] => ([], 0)
  | d :: words =>
    let (quotient, rem) := divRemU64 other words
    let n := rem.toNat * 2 ^ 64 + d.toNat
    (BitVec.ofNat 64 (n / other.toNat) :: quotient, BitVec.ofNat 64 (n % other.toNat))

/-- The quotient `q` and the remainder `r` are exact. -/
def Exact (n d q r : Nat) : Prop := n = q * d + r ∧ r < d

variable {d shift : Nat} {ret sub copy : Uint w}

/-- A step takes the aligned divisor off what is left if it can, and notes the bit in the quotient. -/
theorem divStep_spec (inside : shift < 64 * w) (aligned : copy.toNat = d * 2 ^ shift)
    (left : sub.toNat < d * 2 ^ (shift + 1))
    (free : 2 ^ (shift + 1) ∣ ret.toNat) : (divStep shift ret sub copy).2.toNat < d * 2 ^ shift ∧
      2 ^ shift ∣ (divStep shift ret sub copy).1.toNat ∧
      (divStep shift ret sub copy).1.toNat * d + (divStep shift ret sub copy).2.toNat = ret.toNat * d + sub.toNat := by
  rw [pow_succ, ← mul_assoc] at left
  unfold divStep
  split
  · rename_i tooLarge
    exact ⟨aligned ▸ lt_iff.mp tooLarge, (pow_dvd_pow 2 (Nat.le_succ shift)).trans free, rfl⟩
  · rename_i fits
    obtain ⟨q, hq⟩ := free
    have fits : copy.toNat ≤ sub.toNat := Nat.not_lt.mp (mt lt_iff.mpr fits)
    have bit : (ret.setBit shift).toNat = ret.toNat + 2 ^ shift := by
      rw [setBit_spec inside, hq, Nat.two_pow_add_eq_or_of_lt (Nat.pow_lt_pow_succ (by decide))]
    rw [overflowingSub_spec fits, bit, aligned, hq]
    rw [aligned] at fits
    refine ⟨by omega, ⟨2 * q + 1, by ring⟩, ?_⟩
    rw [add_mul, add_assoc, mul_comm (2 ^ shift) d, Nat.add_sub_cancel' fits]

theorem divLoop_spec (inside : shift < 64 * w) (aligned : copy.toNat = d * 2 ^ shift)
    (left : sub.toNat < d * 2 ^ (shift + 1))
    (free : 2 ^ (shift + 1) ∣ ret.toNat) : (divLoop shift ret sub copy).2.toNat < d ∧
      (divLoop shift ret sub copy).1.toNat * d + (divLoop shift ret sub copy).2.toNat = ret.toNat * d + sub.toNat := by
  induction shift generalizing ret sub copy with
  | zero =>
    obtain ⟨small, -, exact⟩ := divStep_spec inside aligned left free
    exact ⟨by simpa [divLoop] using small, exact⟩
  | succ shift ih =>
    obtain ⟨small, free, exact⟩ := divStep_spec inside aligned left free
    have next : (copy.overflowingShr 1).1.toNat = d * 2 ^ shift := by
      rw [overflowingShr_spec (by omega), aligned, pow_succ, ← mul_assoc, pow_one, Nat.mul_div_cancel _ (by decide)]
    rw [← exact]
    exact ih (Nat.lt_of_succ_lt inside) next small free

theorem divRem_spec (n : Uint w) {d : Uint w} (nonzero : d.toNat ≠ 0) :
    ∃ q r, divRem n d = some (q, r) ∧ Exact n.toNat d.toNat q.toNat r.toNat := by
  have top : n.toNat < 2 ^ n.words.bits := n.words.bits_eq ▸ Nat.lt_size_self _
  have high : d.toNat < 2 ^ d.words.bits := d.words.bits_eq ▸ Nat.lt_size_self _
  have pos : d.words.bits ≠ 0 := d.words.bits_eq ▸ mt Nat.size_eq_zero.mp nonzero
  have low : 2 ^ (d.words.bits - 1) ≤ d.toNat := by
    rw [← Nat.lt_size, toNat, ← Words.bits_eq]
    omega
  rw [divRem, if_neg pos]
  split
  · rename_i shorter
    refine ⟨0, n, rfl, by simp, top.trans_le (le_trans ?_ low)⟩
    exact Nat.pow_le_pow_right (by decide) (by omega)
  · rename_i longer
    have wide : n.words.bits ≤ 64 * w := n.words.bits_eq ▸ Nat.size_le.mpr n.toNat_lt
    generalize hs : n.words.bits - d.words.bits = shift
    have aligned : (d.overflowingShl shift).1.toNat = d.toNat * 2 ^ shift := by
      rw [overflowingShl_spec (by omega)]
      apply Nat.mod_eq_of_lt
      calc d.toNat * 2 ^ shift < 2 ^ d.words.bits * 2 ^ shift := Nat.mul_lt_mul_of_pos_right high (Nat.two_pow_pos _)
        _ = 2 ^ n.words.bits := by rw [← pow_add]; congr 1; omega
        _ ≤ 2 ^ (64 * w) := Nat.pow_le_pow_right (by decide) wide
    have left : n.toNat < d.toNat * 2 ^ (shift + 1) := by
      calc n.toNat < 2 ^ n.words.bits := top
        _ = 2 ^ (d.words.bits - 1) * 2 ^ (shift + 1) := by rw [← pow_add]; congr 1; omega
        _ ≤ d.toNat * 2 ^ (shift + 1) := Nat.mul_le_mul_right _ low
    have run := divLoop_spec (by omega) aligned left (show 2 ^ (shift + 1) ∣ (0 : Uint w).toNat by simp)
    exact ⟨_, _, rfl, by simpa using run.2.symm, run.1⟩

theorem divRemU64_spec {other : BitVec 64} (nonzero : other ≠ 0) (words : Words) :
    Exact words.value other.toNat (divRemU64 other words).1.value (divRemU64 other words).2.toNat := by
  have pos : 0 < other.toNat := Nat.pos_of_ne_zero fun zero => nonzero (BitVec.eq_of_toNat_eq zero)
  induction words with
  | nil => exact ⟨by simp [Words.value, divRemU64], pos⟩
  | cons d words ih =>
    obtain ⟨exact, small⟩ := ih
    simp only [divRemU64, Words.value] at exact ⊢
    generalize divRemU64 other words = previous at exact small ⊢
    have fits : (previous.2.toNat * 2 ^ 64 + d.toNat) / other.toNat < 2 ^ 64 := by
      rw [Nat.div_lt_iff_lt_mul pos]
      have := d.isLt
      omega
    have whole := Nat.div_add_mod (previous.2.toNat * 2 ^ 64 + d.toNat) other.toNat
    have rest := Nat.mod_lt (previous.2.toNat * 2 ^ 64 + d.toNat) pos
    rw [BitVec.toNat_ofNat, BitVec.toNat_ofNat, Nat.mod_eq_of_lt fits, Nat.mod_eq_of_lt (rest.trans other.isLt), exact]
    exact ⟨by linarith, rest⟩

/-- The quotient of `~t` by `t + 1` is one less than that of `2 ^ 256`. -/
theorem calcWork_spec {bits : UInt32} (large : 2 ^ 64 ≤ (fromCompactTargetBits bits).toNat)
    (small : (fromCompactTargetBits bits).toNat < 2 ^ 256 - 1) :
    (calcWork bits).map BitVec.toNat = some (2 ^ 256 / ((fromCompactTargetBits bits).toNat + 1)) := by
  unfold calcWork
  generalize fromCompactTargetBits bits = target at large small ⊢
  have one : (1 : Uint256).toNat = 1 := rfl
  have next : (target + 1).toNat = target.toNat + 1 := by
    rw [BitVec.toNat_add, one]
    omega
  have quotient : (2 ^ 256 - 1 - target.toNat) / (target.toNat + 1) + 1 = 2 ^ 256 / (target.toNat + 1) := by
    rw [← Nat.add_div_right _ (Nat.succ_pos _)]
    congr 1
    omega
  have short : 2 ^ 256 / (target.toNat + 1) < 2 ^ 192 := by
    rw [Nat.div_lt_iff_lt_mul (Nat.succ_pos _)]
    omega
  have res : (~~~target / (target + 1) + 1).toNat = 2 ^ 256 / (target.toNat + 1) := by
    rw [BitVec.toNat_add, BitVec.toNat_udiv, BitVec.toNat_not, next, one, quotient]
    exact Nat.mod_eq_of_lt (short.trans (by decide))
  simp only [res, if_pos short, Option.map_some, BitVec.toNat_ofNat, Nat.mod_eq_of_lt short]

/-- **Division and work are exact.** -/
theorem division_exact :
    (∀ (limbs : Nat) (n d : Uint limbs), d.toNat ≠ 0 →
      ∃ q r, divRem n d = some (q, r) ∧ Exact n.toNat d.toNat q.toNat r.toNat ∧ q.toNat = n.toNat / d.toNat) ∧
    (∀ words other, other ≠ 0 → Exact words.value other.toNat (divRemU64 other words).1.value
      (divRemU64 other words).2.toNat) ∧
    ∀ bits, 2 ^ 64 ≤ (fromCompactTargetBits bits).toNat → (fromCompactTargetBits bits).toNat < 2 ^ 256 - 1 →
      (calcWork bits).map BitVec.toNat = some (2 ^ 256 / ((fromCompactTargetBits bits).toNat + 1)) := by
  refine ⟨fun limbs n d nonzero => ?_, fun words other nonzero => divRemU64_spec nonzero words, fun bits =>
    calcWork_spec⟩
  obtain ⟨q, r, run, whole, less⟩ := divRem_spec n nonzero
  refine ⟨q, r, run, ⟨whole, less⟩, ?_⟩
  rw [whole, Nat.mul_comm q.toNat, Nat.mul_add_div (by omega), Nat.div_eq_of_lt less, Nat.add_zero]

end Firecash.Uint
