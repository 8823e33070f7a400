import Mathlib.Data.Finset.Union
import Mathlib.Tactic.Basic

/-!
# A DAG that grows by new nodes

Nodes are added one by one, each with parents that are there already, above one root. The history is a list,
newest first, so what is said of an older node does not change when a node is added. `past` is the set of
strict ancestors: `mem_past_iff` is its recursion along parents, and it is a strict order in which the root
is below everything.
-/

namespace GrowingDag

open List

variable {α : Type} [DecidableEq α]

/-- The strict ancestors of a node. -/
def past : List (α × List α) → α → Finset α
  | [], _ => ∅
  | (b, ps) :: g, x => if x = b then ps.toFinset ∪ ps.toFinset.biUnion (past g) else past g x

/-- The root, or a node that was added. -/
def Known (root : α) (g : List (α × List α)) (x : α) : Prop := x = root ∨ x ∈ g.map Prod.fst

instance (root : α) (g : List (α × List α)) (x : α) : Decidable (Known root g x) := by
  unfold Known
  infer_instance

/-- Every node is new, has parents, and all of them are older. -/
def Grown (root : α) : List (α × List α) → Prop
  | [] => True
  | (b, ps) :: g => ¬ Known root g b ∧ ps ≠ [] ∧ (∀ p ∈ ps, Known root g p) ∧ Grown root g

instance decidableGrown (root : α) (g : List (α × List α)) : Decidable (Grown root g) := by
  induction g with
  | nil => exact isTrue trivial
  | cons e g ih =>
    exact inferInstanceAs (Decidable (¬ Known root g e.1 ∧ e.2 ≠ [] ∧ (∀ p ∈ e.2, Known root g p) ∧ Grown root g))

variable {root : α} {g : List (α × List α)} {a b c x : α} {ps : List α}

omit [DecidableEq α] in
theorem known_cons : Known root ((b, ps) :: g) x ↔ x = b ∨ Known root g x := by
  unfold Known
  rw [map_cons, mem_cons]
  tauto

theorem past_cons_self : past ((b, ps) :: g) b = ps.toFinset ∪ ps.toFinset.biUnion (past g) := if_pos rfl

theorem past_cons_of_ne (h : x ≠ b) : past ((b, ps) :: g) x = past g x := if_neg h

theorem mem_past_cons_self : a ∈ past ((b, ps) :: g) b ↔ ∃ p ∈ ps, a = p ∨ a ∈ past g p := by
  rw [past_cons_self, Finset.mem_union, Finset.mem_biUnion]
  simp only [mem_toFinset]
  constructor
  · rintro (h | ⟨p, hp, h⟩)
    · exact ⟨a, h, .inl rfl⟩
    · exact ⟨p, hp, .inr h⟩
  · rintro ⟨p, hp, rfl | h⟩
    · exact .inl hp
    · exact .inr ⟨p, hp, h⟩

theorem Grown.past_cons (h : Grown root ((b, ps) :: g)) (hx : Known root g x) : past ((b, ps) :: g) x = past g x := by
  refine past_cons_of_ne ?_
  rintro rfl
  exact h.1 hx

/-- What is below any node is older than the newest one. -/
theorem Grown.older_of_mem_past (h : Grown root ((c, ps) :: g)) (known : ∀ b, a ∈ past g b → Known root g a)
    (ha : a ∈ past ((c, ps) :: g) b) :
    Known root g a := by
  by_cases hb : b = c
  · subst hb
    obtain ⟨p, hp, rfl | ha⟩ := mem_past_cons_self.mp ha
    · exact h.2.2.1 a hp
    · exact known p ha
  · rw [past_cons_of_ne hb] at ha
    exact known b ha

theorem Grown.known_of_mem_past (h : Grown root g) (ha : a ∈ past g b) : Known root g a := by
  induction g generalizing b with
  | nil => exact absurd ha (Finset.notMem_empty a)
  | cons node g ih => exact known_cons.mpr (.inr (h.older_of_mem_past (fun _ => ih h.2.2.2) ha))

theorem past_eq_empty_of_not_mem (h : b ∉ g.map Prod.fst) : past g b = ∅ := by
  induction g with
  | nil => rfl
  | cons node g ih =>
    rw [map_cons, mem_cons, not_or] at h
    rw [past_cons_of_ne h.1, ih h.2]

omit [DecidableEq α] in
theorem Grown.nodup (h : Grown root g) : (root :: g.map Prod.fst).Nodup := by
  induction g with
  | nil => exact nodup_singleton root
  | cons node g ih =>
    obtain ⟨new, -, -, older⟩ := h
    exact (Perm.swap root _ _).nodup_iff.mp (nodup_cons.mpr ⟨fun again => new (mem_cons.mp again), ih older⟩)

theorem Grown.notMem_past_self (h : Grown root g) (b : α) : b ∉ past g b := by
  induction g with
  | nil => exact Finset.notMem_empty b
  | cons node g ih =>
    intro self
    have older := h.older_of_mem_past (fun _ => h.2.2.2.known_of_mem_past) self
    rw [h.past_cons older] at self
    exact ih h.2.2.2 self

theorem Grown.past_trans (h : Grown root g) (hab : a ∈ past g b) (hbc : b ∈ past g c) : a ∈ past g c := by
  induction g generalizing c with
  | nil => exact absurd hab (Finset.notMem_empty a)
  | cons node g ih =>
    obtain ⟨node, ps⟩ := node
    have older := h.2.2.2
    rw [h.past_cons (h.older_of_mem_past (fun _ => older.known_of_mem_past) hbc)] at hab
    by_cases hc : c = node
    · subst hc
      obtain ⟨p, hp, rfl | hbp⟩ := mem_past_cons_self.mp hbc
      · exact mem_past_cons_self.mpr ⟨b, hp, .inr hab⟩
      · exact mem_past_cons_self.mpr ⟨p, hp, .inr (ih older hab hbp)⟩
    · rw [past_cons_of_ne hc] at hbc ⊢
      exact ih older hab hbc

theorem Grown.root_mem_past (h : Grown root g) (hb : b ∈ g.map Prod.fst) : root ∈ past g b := by
  induction g generalizing b with
  | nil => cases hb
  | cons node g ih =>
    obtain ⟨node, ps⟩ := node
    obtain ⟨-, some, parents, older⟩ := h
    by_cases hne : b = node
    · subst hne
      obtain ⟨p, hp⟩ := exists_mem_of_ne_nil ps some
      rcases parents p hp with rfl | added
      · exact mem_past_cons_self.mpr ⟨p, hp, .inl rfl⟩
      · exact mem_past_cons_self.mpr ⟨p, hp, .inr (ih older added)⟩
    · rw [past_cons_of_ne hne]
      exact ih older ((mem_cons.mp hb).resolve_left hne)

theorem Grown.root_le (h : Grown root g) (hb : Known root g b) : root = b ∨ root ∈ past g b :=
  hb.imp Eq.symm h.root_mem_past

omit [DecidableEq α] in
theorem Grown.known_parent (h : Grown root g) (hb : (b, ps) ∈ g) (ha : a ∈ ps) : Known root g a := by
  induction g with
  | nil => cases hb
  | cons node g ih =>
    obtain ⟨node, qs⟩ := node
    obtain ⟨-, -, parents, older⟩ := h
    rw [known_cons]
    rcases mem_cons.mp hb with same | later
    · cases same
      exact .inr (parents a ha)
    · exact .inr (ih older later)

/-- The recursion of the past along the parents of any node. -/
theorem Grown.mem_past_iff (h : Grown root g) (hb : (b, ps) ∈ g) : a ∈ past g b ↔ ∃ p ∈ ps, a = p ∨ a ∈ past g p := by
  induction g with
  | nil => cases hb
  | cons node g ih =>
    obtain ⟨node, qs⟩ := node
    obtain ⟨new, -, parents, older⟩ := id h
    rcases mem_cons.mp hb with same | later
    · cases same
      rw [mem_past_cons_self]
      refine exists_congr fun p => and_congr_right fun hp => ?_
      rw [h.past_cons (parents p hp)]
    · have added : b ∈ g.map Prod.fst := mem_map_of_mem later
      rw [h.past_cons (.inr added), ih older later]
      refine exists_congr fun p => and_congr_right fun hp => ?_
      rw [h.past_cons (older.known_parent later hp)]

theorem Grown.edge (h : Grown root g) (hb : (b, ps) ∈ g) (ha : a ∈ ps) : a ∈ past g b :=
  (h.mem_past_iff hb).mpr ⟨a, ha, .inl rfl⟩

/-- A node with one above `c` at or below it is above `c` itself. -/
theorem Grown.above_of_le (h : Grown root g) (le : x = b ∨ x ∈ past g b) (above : x ≠ c ∧ x ∉ past g c) :
    b ≠ c ∧ b ∉ past g c := by
  rcases le with rfl | below
  · exact above
  · refine ⟨?_, fun hb => above.2 (h.past_trans below hb)⟩
    rintro rfl
    exact above.2 below

end GrowingDag
