import Mathlib.Tactic.Ring
import Mathlib.Data.BitVec

/-!
# Little-endian bytes

Fixed-width integers and byte arrays as the little-endian sequences they are written as. A number
written on `n` bytes reads back as itself when it fits, and every `n` bytes are the writing of the
number they read as.
-/

/-- `to_le_bytes`, on `n` bytes -/
def leBytes : Nat → Nat → List UInt8
  | 0, _ => []
  | n + 1, x => UInt8.ofNat x :: leBytes n (x / 256)

/-- `from_le_bytes` -/
def ofLe : List UInt8 → Nat
  | [] => 0
  | b :: bs => b.toNat + 256 * ofLe bs

@[simp] theorem length_leBytes (n x : Nat) : (leBytes n x).length = n := by
  induction n generalizing x with
  | zero => rfl
  | succ n ih => simp [leBytes, ih]

theorem ofLe_lt (bs : List UInt8) : ofLe bs < 256 ^ bs.length := by
  induction bs with
  | nil => simp [ofLe]
  | cons b bs ih =>
    have hb : b.toNat < 256 := b.toNat_lt_size
    rw [ofLe, List.length_cons, pow_succ]
    omega

theorem ofLe_leBytes (n x : Nat) : ofLe (leBytes n x) = x % 256 ^ n := by
  induction n generalizing x with
  | zero => simp [leBytes, ofLe, Nat.mod_one]
  | succ n ih =>
    rw [leBytes, ofLe, ih, pow_succ, Nat.mul_comm (256 ^ n) 256, Nat.mod_mul]
    simp

variable {n : Nat}

theorem ofLe_leBytes_of_lt {x : Nat} (h : x < 256 ^ n) : ofLe (leBytes n x) = x := by
  rw [ofLe_leBytes, Nat.mod_eq_of_lt h]

theorem leBytes_ofLe (bs : List UInt8) : leBytes bs.length (ofLe bs) = bs := by
  induction bs with
  | nil => rfl
  | cons b bs ih =>
    have hb : b.toNat < 256 := b.toNat_lt_size
    have head : UInt8.ofNat (b.toNat + 256 * ofLe bs) = b := by
      apply UInt8.toNat_inj.mp
      rw [UInt8.toNat_ofNat']
      omega
    have tail : (b.toNat + 256 * ofLe bs) / 256 = ofLe bs := by omega
    rw [ofLe, List.length_cons, leBytes, head, tail, ih]

/-! ## The two halves of a byte -/

theorem toNat_shiftRight_four (b : UInt8) : (b >>> 4).toNat = b.toNat / 16 := by
  simp [Nat.shiftRight_eq_div_pow]

theorem toNat_and_fifteen (b : UInt8) : (b &&& 0x0f).toNat = b.toNat % 16 := by
  simpa using Nat.and_two_pow_sub_one_eq_mod b.toNat 4

theorem toNat_join {hi lo : UInt8} (hhi : hi < 16) (hlo : lo < 16) :
    (hi <<< 4 ||| lo).toNat = 16 * hi.toNat + lo.toNat := by
  have hi16 : hi.toNat < 16 := hhi
  have lo16 : lo.toNat < 2 ^ 4 := hlo
  have shifted : (hi <<< 4).toNat = hi.toNat <<< 4 := by
    simp [Nat.shiftLeft_eq]; omega
  rw [UInt8.toNat_or, shifted, ← Nat.shiftLeft_add_eq_or_of_lt lo16, Nat.shiftLeft_eq]
  omega

theorem join_eq_iff {b hi lo : UInt8} : (hi < 16 ∧ lo < 16 ∧ hi <<< 4 ||| lo = b) ↔ hi = b >>> 4 ∧ lo = b &&& 0x0f := by
  have hb : b.toNat < 256 := b.toNat_lt_size
  constructor
  · rintro ⟨hhi, hlo, rfl⟩
    have join := toNat_join hhi hlo
    have hlo' : lo.toNat < 16 := hlo
    constructor
    · apply UInt8.toNat_inj.mp
      rw [toNat_shiftRight_four, join]
      omega
    · apply UInt8.toNat_inj.mp
      rw [toNat_and_fifteen, join]
      omega
  · rintro ⟨rfl, rfl⟩
    have hhi : b >>> 4 < 16 := by
      rw [UInt8.lt_iff_toNat_lt, toNat_shiftRight_four]
      exact Nat.div_lt_of_lt_mul hb
    have hlo : b &&& 0x0f < 16 := by
      rw [UInt8.lt_iff_toNat_lt, toNat_and_fifteen]
      exact Nat.mod_lt _ (by decide)
    refine ⟨hhi, hlo, UInt8.toNat_inj.mp ?_⟩
    rw [toNat_join hhi hlo, toNat_shiftRight_four, toNat_and_fifteen]
    omega

/-! ## Byte arrays -/

/-- The bytes of `[u8; n]`, byte `i` at bits `8 i` to `8 i + 7`. -/
def BitVec.bytes {n : Nat} (x : BitVec (8 * n)) : List UInt8 := leBytes n x.toNat

/-- The array of the first `n` bytes. -/
def BitVec.ofBytes (n : Nat) (bs : List UInt8) : BitVec (8 * n) := BitVec.ofNat (8 * n) (ofLe bs)

@[simp] theorem BitVec.length_bytes (x : BitVec (8 * n)) : x.bytes.length = n := length_leBytes ..

theorem two_pow_eight_mul (n : Nat) : 2 ^ (8 * n) = 256 ^ n := by
  norm_num [pow_mul]

@[simp] theorem BitVec.ofBytes_bytes (x : BitVec (8 * n)) : BitVec.ofBytes n x.bytes = x := by
  have fits : x.toNat < 256 ^ n := two_pow_eight_mul n ▸ x.isLt
  rw [BitVec.ofBytes, BitVec.bytes, ofLe_leBytes_of_lt fits, BitVec.ofNat_toNat, BitVec.setWidth_eq]

theorem BitVec.bytes_ofBytes {bs : List UInt8} (h : bs.length = n) : (BitVec.ofBytes n bs).bytes = bs := by
  have fits : ofLe bs < 2 ^ (8 * n) := by
    rw [two_pow_eight_mul, ← h]
    exact ofLe_lt bs
  rw [BitVec.bytes, BitVec.ofBytes, BitVec.toNat_ofNat, Nat.mod_eq_of_lt fits, ← h, leBytes_ofLe]

theorem BitVec.bytes_injective : Function.Injective (BitVec.bytes (n := n)) := by
  intro x y h
  rw [← BitVec.ofBytes_bytes x, h, BitVec.ofBytes_bytes]
