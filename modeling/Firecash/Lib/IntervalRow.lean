import Mathlib.Algebra.Ring.Nat
import Mathlib.Data.List.Pairwise

/-!
# Rows of ranges

`Row first past lo hi l`: the ranges `[first a, past a)` of the elements of `l` stand one after the other
within `[lo, hi)`, with gaps allowed between them. A range may be empty. A row is cut at any place
(`row_append`), moved as a whole (`Row.move`) and holds no more than its width (`Row.sum_le`).
-/

namespace IntervalRow

open List

variable {α : Type}

def Row (first past : α → Nat) (lo hi : Nat) : List α → Prop
  | [] => lo ≤ hi
  | a :: l => lo ≤ first a ∧ first a ≤ past a ∧ Row first past (past a) hi l

variable {first past first' past' : α → Nat} {lo hi lo' hi' : Nat} {l l' : List α} {a : α}

@[simp] theorem row_nil : Row first past lo hi [] ↔ lo ≤ hi := Iff.rfl

@[simp] theorem row_cons :
    Row first past lo hi (a :: l) ↔ lo ≤ first a ∧ first a ≤ past a ∧ Row first past (past a) hi l := Iff.rfl

theorem Row.le (h : Row first past lo hi l) : lo ≤ hi := by
  induction l generalizing lo with
  | nil => exact h
  | cons a l ih =>
    have := ih h.2.2
    have := h.1
    have := h.2.1
    omega

theorem row_append : Row first past lo hi (l ++ l') ↔ ∃ mid, Row first past lo mid l ∧ Row first past mid hi l' := by
  induction l generalizing lo with
  | nil =>
    constructor
    · exact fun h => ⟨lo, Nat.le_refl lo, h⟩
    · rintro ⟨mid, hlo, h⟩
      cases l' with
      | nil => exact Nat.le_trans hlo h
      | cons b l' => exact ⟨Nat.le_trans hlo h.1, h.2⟩
  | cons a l ih =>
    simp only [cons_append, row_cons, ih]
    constructor
    · rintro ⟨h1, h2, mid, h3, h4⟩
      exact ⟨mid, ⟨h1, h2, h3⟩, h4⟩
    · rintro ⟨mid, ⟨h1, h2, h3⟩, h4⟩
      exact ⟨h1, h2, mid, h3, h4⟩

/-- A row is moved as a whole, into bounds that leave it room. -/
theorem Row.move {d : Int} (h : Row first past lo hi l) (moved : ∀ a ∈ l, (first' a : Int) = first a + d ∧
    (past' a : Int) = past a + d)
    (hlo : lo' ≤ lo + d) (hhi : hi + d ≤ hi') : Row first' past' lo' hi' l := by
  induction l generalizing lo lo' with
  | nil =>
    simp only [row_nil] at h ⊢
    omega
  | cons a l ih =>
    obtain ⟨here, rest⟩ := forall_mem_cons.mp moved
    obtain ⟨h1, h2, h⟩ := h
    exact ⟨by omega, by omega, ih h rest (by omega)⟩

theorem Row.widen (h : Row first past lo hi l) (hlo : lo' ≤ lo) (hhi : hi ≤ hi') : Row first past lo' hi' l :=
  h.move (d := 0) (fun a _ => by simp) (by omega) (by omega)

theorem Row.congr (h : Row first past lo hi l) (same : ∀ a ∈ l, first' a = first a ∧ past' a = past a) :
    Row first' past' lo hi l :=
  h.move (d := 0) (fun a ha => by simp [same a ha]) (by omega) (by omega)

/-- Ranges that are ordered in pairs stand in a row. -/
theorem Row.of_pairwise (h : l.Pairwise fun a b => past a ≤ first b)
    (inside : ∀ a ∈ l, lo ≤ first a ∧ first a ≤ past a ∧ past a ≤ hi) (le : lo ≤ hi) : Row first past lo hi l := by
  induction l generalizing lo with
  | nil => exact le
  | cons a l ih =>
    obtain ⟨later, h⟩ := pairwise_cons.mp h
    obtain ⟨here, rest⟩ := forall_mem_cons.mp inside
    exact ⟨here.1, here.2.1, ih h (fun b hb => ⟨later b hb, (rest b hb).2⟩) here.2.2⟩

theorem pairwise_either {R : α → α → Prop} {b : α} (h : l.Pairwise R) (ha : a ∈ l) (hb : b ∈ l) (ne : a ≠ b) :
    R a b ∨ R b a :=
  have : Std.Symm fun a b => R a b ∨ R b a := ⟨fun _ _ => Or.symm⟩
  (h.imp .inl : l.Pairwise fun a b => R a b ∨ R b a).forall ha hb ne

section

variable (h : Row first past lo hi l)
include h

theorem Row.mem (ha : a ∈ l) : lo ≤ first a ∧ first a ≤ past a ∧ past a ≤ hi := by
  induction l generalizing lo with
  | nil => cases ha
  | cons b l ih =>
    rcases mem_cons.mp ha with rfl | ha
    · exact ⟨h.1, h.2.1, h.2.2.le⟩
    · have later := ih h.2.2 ha
      have := h.1
      have := h.2.1
      exact ⟨by omega, later.2.1, later.2.2⟩

theorem Row.shorten (last : l.getLast? = some a) (hhi : past a ≤ hi') : Row first past lo hi' l := by
  obtain ⟨l', rfl⟩ := getLast?_eq_some_iff.mp last
  obtain ⟨mid, left, h1, h2, _⟩ := row_append.mp h
  exact row_append.mpr ⟨mid, left, h1, h2, hhi⟩

variable {b : α}

theorem Row.le_last (last : l.getLast? = some a) (hb : b ∈ l) : past b ≤ past a := by
  obtain ⟨l', rfl⟩ := getLast?_eq_some_iff.mp last
  obtain ⟨mid, left, h1, h2, _⟩ := row_append.mp h
  rcases mem_append.mp hb with hb | hb
  · exact Nat.le_trans (left.mem hb).2.2 (Nat.le_trans h1 h2)
  · obtain rfl := mem_singleton.mp hb
    exact Nat.le_refl _

theorem Row.pairwise : l.Pairwise fun a b => past a ≤ first b := by
  induction l generalizing lo with
  | nil => exact .nil
  | cons a l ih => exact .cons (fun b hb => (h.2.2.mem hb).1) (ih h.2.2)

theorem Row.apart (ha : a ∈ l) (hb : b ∈ l) (ne : a ≠ b) : past a ≤ first b ∨ past b ≤ first a :=
  pairwise_either h.pairwise ha hb ne

/-- Two rows that begin with the same list have it in the same order. -/
theorem Row.apart_both (h' : Row first' past' lo' hi' (l ++ l')) (ha : a ∈ l) (hb : b ∈ l) (ne : a ≠ b) :
    past a ≤ first b ∧ past' a ≤ first' b ∨ past b ≤ first a ∧ past' b ≤ first' a :=
  pairwise_either (h.pairwise.and (pairwise_append.mp h'.pairwise).1) ha hb ne

/-- What fits into the ranges fits into the row. -/
theorem Row.sum_le {w : α → Nat} (fits : ∀ a ∈ l, first a + w a ≤ past a) :
    lo + (l.map w).sum ≤ hi := by
  induction l generalizing lo with
  | nil => simpa using h
  | cons a l ih =>
    obtain ⟨here, rest⟩ := forall_mem_cons.mp fits
    have := ih h.2.2 rest
    have := h.1
    rw [map_cons, sum_cons]
    omega

end

end IntervalRow
