import Mathlib.Data.List.GetD

/-!
# Binary search in a sorted list

`binarySearch keys point` halves the part of the list in which `point` can stand until one element is
left. In a sorted list it returns `ok i` for an occurrence at `i`, and otherwise `error i` for the place
`i` to insert at: smaller keys are before it and larger ones from it on (`binarySearch_ok`,
`binarySearch_error`).
-/

namespace BinarySearch

open List

/-- The element at which the search ends, from the `size` elements at `base` on. -/
def narrow (keys : List Nat) (point : Nat) : Nat → Nat → Nat → Nat
  | 0, base, _ => base
  | fuel + 1, base, size =>
    if 1 < size then
      let half := size / 2
      let mid := base + half
      narrow keys point fuel (if point < keys.getD mid 0 then base else mid) (size - half)
    else base

def binarySearch (keys : List Nat) (point : Nat) : Except Nat Nat :=
  if keys.length = 0 then .error 0
  else
    let base := narrow keys point keys.length 0 keys.length
    if keys.getD base 0 = point then .ok base
    else .error (if keys.getD base 0 < point then base + 1 else base)

variable {keys : List Nat} {point i j : Nat}

theorem getD_le_getD (sorted : keys.Pairwise (· ≤ ·)) (hij : i ≤ j) (hj : j < keys.length) :
    keys.getD i 0 ≤ keys.getD j 0 := by
  have hi : i < keys.length := Nat.lt_of_le_of_lt hij hj
  rw [getD_eq_getElem _ _ hi, getD_eq_getElem _ _ hj]
  rcases Nat.eq_or_lt_of_le hij with rfl | hlt
  · exact Nat.le_refl _
  · exact pairwise_iff_getElem.mp sorted i j hi hj hlt

/-- What the search has excluded: the element at `base` is not too large unless it is the first, and those from
`base + size` on are. -/
structure Bounds (keys : List Nat) (point base size : Nat) : Prop where
  inside : base + size ≤ keys.length
  some : 0 < size
  low : base = 0 ∨ keys.getD base 0 ≤ point
  high : base + size < keys.length → point < keys.getD (base + size) 0

theorem narrow_bounds (sorted : keys.Pairwise (· ≤ ·)) {fuel base size : Nat} (hf : size ≤ fuel + 1)
    (h : Bounds keys point base size) : Bounds keys point (narrow keys point fuel base size) 1 := by
  induction fuel generalizing base size with
  | zero =>
    have := h.some
    obtain rfl : size = 1 := by omega
    exact h
  | succ fuel ih =>
    unfold narrow
    by_cases hs : 1 < size
    · rw [if_pos hs]
      have inside := h.inside
      by_cases hm : point < keys.getD (base + size / 2) 0
      · simp only [if_pos hm]
        refine ih (by omega) ⟨by omega, by omega, h.low, fun _ => ?_⟩
        refine Nat.lt_of_lt_of_le hm (getD_le_getD sorted ?_ ?_) <;> omega
      · simp only [if_neg hm]
        refine ih (by omega) ⟨by omega, by omega, .inr (by omega), fun hl => ?_⟩
        have same : base + size / 2 + (size - size / 2) = base + size := by omega
        rw [same] at hl ⊢
        exact h.high hl
    · rw [if_neg hs]
      have := h.some
      obtain rfl : size = 1 := by omega
      exact h

theorem start_bounds (point : Nat) (h : keys.length ≠ 0) : Bounds keys point 0 keys.length :=
  ⟨by omega, by omega, .inl rfl, fun hl => absurd hl (by omega)⟩

theorem binarySearch_ok (sorted : keys.Pairwise (· ≤ ·)) (h : binarySearch keys point = .ok i) :
    keys[i]? = some point := by
  unfold binarySearch at h
  by_cases hl : keys.length = 0
  · rw [if_pos hl] at h
    cases h
  · rw [if_neg hl] at h
    have bounds := narrow_bounds sorted (Nat.le_succ _) (start_bounds point hl)
    generalize narrow keys point keys.length 0 keys.length = base at h bounds
    have inside := bounds.inside
    by_cases he : keys.getD base 0 = point
    · rw [if_pos he] at h
      cases h
      rw [getElem?_eq_getElem (by omega), ← he, getD_eq_getElem _ _ (by omega)]
    · rw [if_neg he] at h
      cases h

theorem binarySearch_error (sorted : keys.Pairwise (· ≤ ·)) (h : binarySearch keys point = .error i) :
    i ≤ keys.length ∧ (∀ j, j < i → keys.getD j 0 < point) ∧ ∀ j, i ≤ j → j < keys.length → point < keys.getD j 0 := by
  unfold binarySearch at h
  by_cases hl : keys.length = 0
  · rw [if_pos hl] at h
    cases h
    exact ⟨Nat.zero_le _, fun j hj => absurd hj (by omega), fun j _ hj => absurd hj (by omega)⟩
  · rw [if_neg hl] at h
    have bounds := narrow_bounds sorted (Nat.le_succ _) (start_bounds point hl)
    generalize narrow keys point keys.length 0 keys.length = base at h bounds
    have inside := bounds.inside
    have low := bounds.low
    by_cases he : keys.getD base 0 = point
    · rw [if_pos he] at h
      cases h
    · rw [if_neg he] at h
      by_cases hlt : keys.getD base 0 < point
      · rw [if_pos hlt] at h
        cases h
        refine ⟨inside, fun j hj => ?_, fun j hj hjl => ?_⟩
        · have := getD_le_getD sorted (show j ≤ base by omega) (by omega)
          omega
        · have := getD_le_getD sorted hj hjl
          have := bounds.high (by omega)
          omega
      · rw [if_neg hlt] at h
        cases h
        refine ⟨by omega, fun j hj => absurd hj (by omega), fun j hj hjl => ?_⟩
        have := getD_le_getD sorted hj hjl
        omega

theorem binarySearch_error_split (sorted : keys.Pairwise (· ≤ ·)) (h : binarySearch keys point = .error i) :
    i ≤ keys.length ∧ (∀ k ∈ keys.take i, k < point) ∧ ∀ k ∈ keys.drop i, point < k := by
  obtain ⟨le, small, large⟩ := binarySearch_error sorted h
  refine ⟨le, ?_, ?_⟩
  · intro k hk
    obtain ⟨j, hj, rfl⟩ := mem_take_iff_getElem.mp hk
    have := small j (by omega)
    rwa [getD_eq_getElem _ _ (by omega)] at this
  · intro k hk
    obtain ⟨j, hj, rfl⟩ := mem_drop_iff_getElem.mp hk
    have := large (i + j) (by omega) (by omega)
    rwa [getD_eq_getElem _ _ (by omega)] at this

end BinarySearch
