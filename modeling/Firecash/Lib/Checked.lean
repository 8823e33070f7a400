import Mathlib.Data.UInt
import Mathlib.Algebra.Order.BigOperators.Group.List
import Mathlib.Tactic.Ring

/-!
# Checked 64-bit arithmetic

Unsigned 64-bit addition and subtraction that stop on overflow, and the left-to-right checked sum
of a list. `none` is the failure: it is read as `Err(Overflow)` where a program calls
`checked_add`, and as a panic where it is compiled with overflow checks and writes `+`.

Every operation is characterised on the naturals: the result exists exactly when the exact result
fits, and is then the exact result (`checkedAdd_eq_some`, `checkedSub_eq_some`,
`checkedSum_eq_some`). Proofs about accounting loops use those three and stay in `Nat`.
-/

namespace Checked

open List Option UInt64

/-- One past the largest 64-bit value, as a literal so that `omega` can use it. -/
abbrev U64_BOUND : Nat := 18446744073709551616

variable (a b : UInt64)

def checkedAdd : Option UInt64 :=
  if a.toNat + b.toNat < U64_BOUND then some (a + b) else none

def checkedSub : Option UInt64 :=
  if b.toNat ≤ a.toNat then some (a - b) else none

theorem toNat_lt_bound (a : UInt64) : a.toNat < U64_BOUND := a.toNat_lt

theorem checkedAdd_eq_some {a b c : UInt64} : checkedAdd a b = some c ↔ c.toNat = a.toNat + b.toNat := by
  have hc := toNat_lt_bound c
  have hadd : (a + b).toNat = (a.toNat + b.toNat) % U64_BOUND := UInt64.toNat_add a b
  unfold checkedAdd
  split
  case isTrue h =>
    rw [Nat.mod_eq_of_lt h] at hadd
    rw [some.injEq, ← UInt64.toNat_inj, hadd, eq_comm]
  case isFalse h =>
    constructor
    · intro h'; cases h'
    · intro h'; omega

theorem checkedAdd_eq_none {a b : UInt64} : checkedAdd a b = none ↔ U64_BOUND ≤ a.toNat + b.toNat := by
  unfold checkedAdd
  split <;> simp <;> omega

theorem checkedSub_eq_some {a b c : UInt64} : checkedSub a b = some c ↔ c.toNat + b.toNat = a.toNat := by
  unfold checkedSub
  split
  case isTrue h =>
    have hsub : (a - b).toNat = a.toNat - b.toNat := UInt64.toNat_sub_of_le a b (UInt64.le_iff_toNat_le.mpr h)
    rw [some.injEq, ← UInt64.toNat_inj, hsub]
    omega
  case isFalse h =>
    constructor
    · intro h'; cases h'
    · intro h'; omega

theorem checkedSub_eq_none {a b : UInt64} : checkedSub a b = none ↔ a.toNat < b.toNat := by
  unfold checkedSub
  split <;> simp <;> omega

theorem exists_checkedSub {a b : UInt64} (h : b.toNat ≤ a.toNat) :
    ∃ c, checkedSub a b = some c ∧ c.toNat + b.toNat = a.toNat := by
  cases hs : checkedSub a b with
  | none =>
    have := checkedSub_eq_none.mp hs
    omega
  | some c => exact ⟨c, rfl, checkedSub_eq_some.mp hs⟩

theorem checkedSub_of_checkedAdd {a b c : UInt64} (h : checkedAdd a b = some c) : checkedSub c b = some a :=
  checkedSub_eq_some.mpr (checkedAdd_eq_some.mp h).symm

theorem toNat_max : (max a b).toNat = max a.toNat b.toNat := by
  show (if a ≤ b then b else a).toNat = _
  split
  case isTrue h => rw [Nat.max_eq_right (le_iff_toNat_le.mp h)]
  case isFalse h =>
    rw [le_iff_toNat_le] at h
    rw [Nat.max_eq_left (by omega)]

theorem toNat_min : (min a b).toNat = min a.toNat b.toNat := by
  show (if a ≤ b then a else b).toNat = _
  split
  case isTrue h => rw [Nat.min_eq_left (le_iff_toNat_le.mp h)]
  case isFalse h =>
    rw [le_iff_toNat_le] at h
    rw [Nat.min_eq_right (by omega)]

/-- `u64::try_from` of a wider total. -/
def ofNat? (n : Nat) : Option UInt64 :=
  if n < U64_BOUND then some (ofNat n) else none

variable {v : UInt64}

theorem ofNat?_eq_some {n : Nat} : ofNat? n = some v ↔ v.toNat = n := by
  have hv := toNat_lt_bound v
  unfold ofNat?
  split
  case isTrue h =>
    have hn : (ofNat n).toNat = n := toNat_ofNat_of_lt' h
    rw [some.injEq, ← UInt64.toNat_inj, hn, eq_comm]
  case isFalse h =>
    constructor
    · intro h'; cases h'
    · intro h'; omega

/-! ## Computations with a known exact value -/

/-- `o` computes `n`: it returns the value `n` when that fits and fails otherwise. -/
def Computes (o : Option UInt64) (n : Nat) : Prop := ∀ v, o = some v ↔ v.toNat = n

namespace Computes

variable {o : Option UInt64} {n m : Nat}

theorem isSome (h : Computes o n) : o.isSome ↔ n < U64_BOUND := by
  constructor
  · intro hs
    obtain ⟨v, hv⟩ := isSome_iff_exists.mp hs
    rw [← (h v).mp hv]
    exact toNat_lt_bound v
  · intro hlt
    rw [(h (ofNat n)).mpr (toNat_ofNat_of_lt' hlt)]
    rfl

theorem some (v : UInt64) : Computes (some v) v.toNat := by
  intro w
  rw [some.injEq, ← UInt64.toNat_inj, eq_comm]

theorem add (a b : UInt64) : Computes (checkedAdd a b) (a.toNat + b.toNat) := fun _ => checkedAdd_eq_some

/-- A computation continued by one that only adds. -/
theorem bind {f : UInt64 → Option UInt64} (ho : Computes o n) (hf : ∀ v, v.toNat = n → Computes (f v) m)
    (hle : n ≤ m) : Computes (o.bind f) m := by
  intro w
  rw [bind_eq_some_iff]
  constructor
  · rintro ⟨v, hv, hw⟩
    exact (hf v ((ho v).mp hv) w).mp hw
  · intro hw
    have hlt : n < U64_BOUND := by
      have := toNat_lt_bound w
      omega
    have hn : (ofNat n).toNat = n := toNat_ofNat_of_lt' hlt
    exact ⟨ofNat n, (ho _).mpr hn, (hf _ hn w).mpr hw⟩

end Computes

/-- Exact sum of a list of 64-bit values. -/
def natSum (l : List UInt64) : Nat := (l.map toNat).sum

@[simp] theorem natSum_nil : natSum [] = 0 := rfl

@[simp] theorem natSum_cons (a : UInt64) (l : List UInt64) : natSum (a :: l) = a.toNat + natSum l := by
  simp [natSum]

@[simp] theorem natSum_append (l l' : List UInt64) : natSum (l ++ l') = natSum l + natSum l' := by
  simp [natSum]

variable {l : List UInt64}

theorem natSum_perm {l' : List UInt64} (h : l.Perm l') : natSum l = natSum l' := (h.map toNat).sum_eq

theorem natSum_le_of_sublist {l' : List UInt64} (h : l.Sublist l') : natSum l ≤ natSum l' :=
  (h.map toNat).sum_le_sum fun _ _ => Nat.zero_le _

section

variable (l : List UInt64) (k : Nat)

theorem natSum_take_drop : natSum (l.take k) + natSum (l.drop k) = natSum l := by
  rw [← natSum_append, take_append_drop]

theorem natSum_take_le : natSum (l.take k) ≤ natSum l := by
  have := natSum_take_drop l k
  omega

theorem natSum_drop_le : natSum (l.drop k) ≤ natSum l := by
  have := natSum_take_drop l k
  omega

end

variable {α : Type}

section

variable (f : α → UInt64) (p : α → Bool) (l : List α)

theorem natSum_filter :
    natSum ((l.filter p).map f) + natSum ((l.filter fun a => !p a).map f) = natSum (l.map f) := by
  induction l with
  | nil => rfl
  | cons a l ih =>
    cases hp : p a
    · simp only [filter_cons, hp, Bool.not_false, Bool.false_eq_true, if_false, if_true, map_cons, natSum_cons]
      omega
    · simp only [filter_cons, hp, Bool.not_true, Bool.false_eq_true, if_false, if_true, map_cons, natSum_cons]
      omega

theorem natSum_filter_le :
    natSum ((l.filter p).map f) ≤ natSum (l.map f) := by
  have := natSum_filter f p l
  omega

end

theorem natSum_eq_zero_iff : natSum l = 0 ↔ ∀ v ∈ l, v = 0 := by
  induction l with
  | nil => simp
  | cons v l ih =>
    have hv : v.toNat = 0 ↔ v = 0 := by rw [← UInt64.toNat_inj]; rfl
    rw [natSum_cons, Nat.add_eq_zero_iff, ih, hv, forall_mem_cons]

/-- Leaving out zeros does not change the sum. -/
theorem natSum_filter_of_zero {f : α → UInt64} {p : α → Bool} {l : List α} (h : ∀ a ∈ l, p a = false → f a = 0) :
    natSum ((l.filter p).map f) = natSum (l.map f) := by
  have zero : natSum ((l.filter fun a => !p a).map f) = 0 := by
    rw [natSum_eq_zero_iff]
    intro v hv
    obtain ⟨a, ha, rfl⟩ := mem_map.mp hv
    obtain ⟨ha, hp⟩ := mem_filter.mp ha
    exact h a ha (by simpa using hp)
  have := natSum_filter f p l
  omega

/-- A list splits into two sums along a predicate that holds on one part of it. -/
theorem natSum_filter_or (f : α → UInt64) {p q : α → Bool} {l : List α} (apart : ∀ a ∈ l, p a → ¬ q a) :
    natSum ((l.filter fun a => p a || q a).map f) = natSum ((l.filter p).map f) + natSum ((l.filter q).map f) := by
  induction l with
  | nil => rfl
  | cons a l ih =>
    have rest := ih fun b hb => apart b (mem_cons_of_mem _ hb)
    by_cases hp : p a
    · have hq : q a = false := by simpa using apart a mem_cons_self hp
      simp only [filter_cons, hp, hq, Bool.true_or, if_true, Bool.false_eq_true, if_false, map_cons, natSum_cons]
      omega
    · rw [Bool.not_eq_true] at hp
      by_cases hq : q a
      · simp only [filter_cons, hp, hq, Bool.false_or, if_true, Bool.false_eq_true, if_false, map_cons, natSum_cons]
        omega
      · rw [Bool.not_eq_true] at hq
        simpa only [filter_cons, hp, hq, Bool.or_self, Bool.false_eq_true, if_false] using rest

section

variable {κ : Type} [DecidableEq κ] (key : α → κ)

theorem filter_key_eq_find (k : κ) {l : List α} (unique : (l.map key).Nodup) :
    (l.filter fun a => key a == k) = (l.find? fun a => key a == k).toList := by
  induction l with
  | nil => rfl
  | cons a l ih =>
    obtain ⟨absent, unique⟩ := nodup_cons.mp unique
    by_cases here : key a = k
    · have none : (l.filter fun b => key b == k) = [] := by
        rw [filter_eq_nil_iff]
        intro b hb same
        exact absent (here ▸ beq_iff_eq.mp same ▸ mem_map_of_mem hb)
      simp [here, none]
    · simp [here, ih unique]

/-- Where keys are unique, looking up distinct keys finds all the elements that have one of them. -/
theorem natSum_find_eq (f : α → UInt64) {ks : List κ} (nodup : ks.Nodup) {l : List α}
    (unique : (l.map key).Nodup) :
    natSum (ks.filterMap fun k => (l.find? fun a => key a == k).map f) =
      natSum ((l.filter fun a => decide (key a ∈ ks)).map f) := by
  induction ks with
  | nil => simp
  | cons k ks ih =>
    obtain ⟨absent, nodup⟩ := nodup_cons.mp nodup
    have parts := natSum_filter_or f (p := fun a => key a == k) (q := fun a => decide (key a ∈ ks)) (l := l)
      fun a _ here there => absent (beq_iff_eq.mp here ▸ of_decide_eq_true there)
    have both : (fun a => decide (key a ∈ k :: ks)) = fun a => (key a == k) || decide (key a ∈ ks) := by
      funext a
      by_cases here : key a = k <;> simp [here]
    rw [both, parts, ← ih nodup, filter_key_eq_find key k unique, filterMap_cons]
    cases l.find? fun a => key a == k <;> simp

/-- Looking up distinct keys finds no element twice. -/
theorem natSum_find_le (f : α → UInt64) {ks : List κ} (nodup : ks.Nodup)
    (l : List α) : natSum (ks.filterMap fun k => (l.find? fun a => key a == k).map f) ≤ natSum (l.map f) := by
  induction ks generalizing l with
  | nil => exact Nat.zero_le _
  | cons k ks ih =>
    obtain ⟨absent, nodup⟩ := nodup_cons.mp nodup
    have parts := natSum_filter f (fun a => key a == k) l
    -- the other keys are looked up among the elements without this one
    have others : (ks.filterMap fun j => (l.find? fun a => key a == j).map f) =
        ks.filterMap fun j => ((l.filter fun a => !(key a == k)).find? fun a => key a == j).map f := by
      refine filterMap_congr fun j hj => ?_
      have ne : j ≠ k := by
        rintro rfl
        exact absent hj
      rw [find?_filter]
      congr 2
      funext a
      by_cases ha : key a = j
      · simp [ha, ne]
      · simp [ha]
    have rest := ih nodup (l.filter fun a => !(key a == k))
    rw [← others] at rest
    rw [filterMap_cons]
    cases hfind : l.find? fun a => key a == k with
    | none =>
      dsimp only [map_none]
      omega
    | some a =>
      have found := find?_some hfind
      have mem : a ∈ l.filter fun a => key a == k := mem_filter.mpr ⟨mem_of_find?_eq_some hfind, found⟩
      have counted : (f a).toNat ≤ natSum ((l.filter fun a => key a == k).map f) :=
        le_sum_of_mem (mem_map_of_mem (mem_map_of_mem mem))
      dsimp only [map_some]
      rw [natSum_cons]
      omega

end

/-- `iter().sum()` -/
def checkedSum (l : List UInt64) : Option UInt64 := l.foldlM checkedAdd 0

theorem foldlM_checkedAdd_computes (l : List UInt64) (a : UInt64) :
    Computes (l.foldlM checkedAdd a) (a.toNat + natSum l) := by
  induction l generalizing a with
  | nil => exact Computes.some a
  | cons b l ih =>
    rw [foldlM_cons, natSum_cons, ← Nat.add_assoc]
    refine Computes.bind (Computes.add a b) (fun v hv => ?_) (Nat.le_add_right _ _)
    rw [← hv]
    exact ih v

theorem checkedSum_eq_some : checkedSum l = some v ↔ v.toNat = natSum l := by
  rw [checkedSum, foldlM_checkedAdd_computes l 0 v]
  simp

theorem exists_checkedSum (h : natSum l < U64_BOUND) : ∃ v, checkedSum l = some v :=
  ⟨ofNat (natSum l), checkedSum_eq_some.mpr (toNat_ofNat_of_lt' h)⟩

/-! ## Saturating arithmetic -/

def saturatingAdd (a b : UInt64) : UInt64 :=
  if a.toNat + b.toNat < U64_BOUND then a + b else ofNat (U64_BOUND - 1)

def saturatingSub (a b : UInt64) : UInt64 := if b ≤ a then a - b else 0

end Checked
