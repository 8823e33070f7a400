import Mathlib.Algebra.BigOperators.Group.Finset.Basic
import Mathlib.Algebra.Order.BigOperators.Group.List
import Mathlib.Algebra.Order.Ring.Nat
import Mathlib.Data.List.Nodup
import Mathlib.Logic.Function.Basic
import Mathlib.Tactic.Basic

/-!
# Rooted trees by links

A tree that is stored as links in both directions: every node has a parent, except the root, and an ordered list of
children. `IsTree` is that the two agree and that a height grows along them. `Above a b` is that `a` lies
on the path from `b` to the root. The ancestors of a node are comparable (`Above.total`) and a proper
descendant is below exactly one child (`IsTree.exists_child`, `IsTree.child_unique`).

`weight` is the number of nodes below a node, itself included: one more than those of its children together
(`IsTree.weight_eq`). It falls along every step down, so it bounds loops in both directions.
-/

open List Function

structure Links (α : Type) where
  nodes : List α
  parent : α → Option α
  children : α → List α
  height : α → Nat

namespace Links

variable {α : Type}

/-- `a` lies on the path from `b` to the root. -/
inductive Above (t : Links α) (a : α) : α → Prop
  | refl : Above t a a
  | step {b p : α} : t.parent b = some p → Above t a p → Above t a b

structure IsTree (t : Links α) (root : α) : Prop where
  nodup : t.nodes.Nodup
  root_mem : root ∈ t.nodes
  parent_root : t.parent root = none
  parent_of_ne : ∀ x ∈ t.nodes, x ≠ root → ∃ p ∈ t.nodes, t.parent x = some p
  mem_children : ∀ p ∈ t.nodes, ∀ c, c ∈ t.children p ↔ c ∈ t.nodes ∧ t.parent c = some p
  children_nodup : ∀ p ∈ t.nodes, (t.children p).Nodup
  height_lt : ∀ x ∈ t.nodes, ∀ p, t.parent x = some p → t.height p < t.height x

variable {t : Links α} {root a b c d p x y : α}

/-! ## Paths -/

theorem Above.trans (h : t.Above a b) (h' : t.Above b c) : t.Above a c := by
  induction h' with
  | refl => exact h
  | step hp _ ih => exact .step hp ih

theorem Above.of_parent (h : t.parent b = some p) : t.Above p b := .step h .refl

theorem above_iff : t.Above a b ↔ a = b ∨ ∃ p, t.parent b = some p ∧ t.Above a p := by
  constructor
  · intro h
    cases h with
    | refl => exact .inl rfl
    | step hp h => exact .inr ⟨_, hp, h⟩
  · rintro (rfl | ⟨p, hp, h⟩)
    · exact .refl
    · exact .step hp h

theorem Above.of_ne (h : t.Above a b) (ne : a ≠ b) (hp : t.parent b = some p) : t.Above a p := by
  rcases above_iff.mp h with rfl | ⟨q, hq, h⟩
  · exact absurd rfl ne
  · rw [hp, Option.some.injEq] at hq
    exact hq ▸ h

theorem Above.total (ha : t.Above a c) (hb : t.Above b c) : t.Above a b ∨ t.Above b a := by
  induction ha with
  | refl => exact .inr hb
  | @step c p hp h ih =>
    by_cases hbc : b = c
    · subst hbc
      exact .inl (.step hp h)
    · exact ih (hb.of_ne hbc hp)

namespace IsTree

variable (T : t.IsTree root)

include T

theorem parent_mem (hx : x ∈ t.nodes) (hp : t.parent x = some p) : p ∈ t.nodes := by
  by_cases hr : x = root
  · rw [hr, T.parent_root] at hp
    exact absurd hp (by simp)
  · obtain ⟨q, hq, hqp⟩ := T.parent_of_ne x hx hr
    rw [hp, Option.some.injEq] at hqp
    exact hqp ▸ hq

section

variable (hp : p ∈ t.nodes) (hc : c ∈ t.children p)
include hp hc

theorem child_mem : c ∈ t.nodes := ((T.mem_children p hp c).mp hc).1

theorem child_parent : t.parent c = some p := ((T.mem_children p hp c).mp hc).2

end

theorem mem_children_of_parent (hc : c ∈ t.nodes) (hp : t.parent c = some p) : c ∈ t.children p :=
  (T.mem_children p (T.parent_mem hc hp) c).mpr ⟨hc, hp⟩

theorem child_above (hp : p ∈ t.nodes) (hc : c ∈ t.children p) : t.Above p c := .of_parent (T.child_parent hp hc)

section

variable (h : t.Above a b) (hb : b ∈ t.nodes)
include h hb

theorem above_mem : a ∈ t.nodes := by
  induction h with
  | refl => exact hb
  | step hp _ ih => exact ih (T.parent_mem hb hp)

theorem height_le : t.height a ≤ t.height b := by
  induction h with
  | refl => exact Nat.le_refl _
  | @step b p hp _ ih =>
    have := T.height_lt b hb p hp
    have := ih (T.parent_mem hb hp)
    omega

theorem eq_of_above_of_height (same : t.height b ≤ t.height a) : a = b := by
  cases h with
  | refl => rfl
  | @step b p hp h =>
    have := T.height_lt b hb p hp
    have := T.height_le h (T.parent_mem hb hp)
    omega

end

theorem antisymm (hab : t.Above a b) (hba : t.Above b a) (hb : b ∈ t.nodes) : a = b :=
  T.eq_of_above_of_height hab hb (T.height_le hba (T.above_mem hab hb))

section

variable (hp : p ∈ t.nodes) (hc : c ∈ t.children p)
include hp hc

theorem not_above_of_child : ¬ t.Above c p := by
  intro h
  have := T.height_le h hp
  have := T.height_lt c (T.child_mem hp hc) p (T.child_parent hp hc)
  omega

theorem strict_of_child (h : t.Above c x) : t.Above p x ∧ x ≠ p := by
  refine ⟨(T.child_above hp hc).trans h, ?_⟩
  rintro rfl
  exact T.not_above_of_child hp hc h

theorem child_ne : c ≠ p := by
  rintro rfl
  exact T.not_above_of_child hp hc .refl

end

theorem root_above (hb : b ∈ t.nodes) : t.Above root b := by
  induction hn : t.height b using Nat.strongRecOn generalizing b with
  | _ n ih =>
    by_cases hr : b = root
    · exact hr ▸ .refl
    · obtain ⟨p, hp, hbp⟩ := T.parent_of_ne b hb hr
      have lower := T.height_lt b hb p hbp
      exact .step hbp (ih (t.height p) (hn ▸ lower) hp rfl)

theorem parent_eq_none_iff (hx : x ∈ t.nodes) : t.parent x = none ↔ x = root := by
  constructor
  · intro h
    by_contra hr
    obtain ⟨p, _, hp⟩ := T.parent_of_ne x hx hr
    simp [h] at hp
  · rintro rfl
    exact T.parent_root

theorem exists_child (h : t.Above a b) (hb : b ∈ t.nodes) (ne : a ≠ b) : ∃ c ∈ t.children a, t.Above c b := by
  induction h with
  | refl => exact absurd rfl ne
  | @step b p hp h ih =>
    by_cases hap : a = p
    · subst hap
      exact ⟨b, T.mem_children_of_parent hb hp, .refl⟩
    · obtain ⟨c, hc, hcp⟩ := ih (T.parent_mem hb hp) hap
      exact ⟨c, hc, .step hp hcp⟩

/-- The paths to two nodes part at some node. -/
theorem exists_fork (ha : a ∈ t.nodes) (hb : b ∈ t.nodes) (hab : ¬ t.Above a b) (hba : ¬ t.Above b a) :
    ∃ p ∈ t.nodes, ∃ c ∈ t.children p, ∃ d ∈ t.children p, c ≠ d ∧ t.Above c a ∧ t.Above d b := by
  have path := T.root_above ha
  induction path with
  | refl => exact absurd (T.root_above hb) hab
  | @step a p hp _ ih =>
    have hpm := T.parent_mem ha hp
    by_cases above : t.Above p b
    · have ne : p ≠ b := by
        rintro rfl
        exact hba (.of_parent hp)
      obtain ⟨d, hd, hdb⟩ := T.exists_child above hb ne
      refine ⟨p, hpm, a, T.mem_children_of_parent ha hp, d, hd, ?_, .refl, hdb⟩
      rintro rfl
      exact hab hdb
    · obtain ⟨q, hq, c, hc, d, hd, ne, hcp, hdb⟩ := ih hpm above fun h => hba (h.trans (.of_parent hp))
      exact ⟨q, hq, c, hc, d, hd, ne, .step hp hcp, hdb⟩

theorem eq_of_leaf (leaf : t.children a = []) (h : t.Above a b) (hb : b ∈ t.nodes) : a = b := by
  by_contra ne
  obtain ⟨c, hc, _⟩ := T.exists_child h hb ne
  rw [leaf] at hc
  exact not_mem_nil hc

theorem above_iff_child (ha : a ∈ t.nodes) (hb : b ∈ t.nodes) :
    t.Above a b ↔ a = b ∨ ∃ c ∈ t.children a, t.Above c b := by
  constructor
  · intro h
    by_cases ne : a = b
    · exact .inl ne
    · exact .inr (T.exists_child h hb ne)
  · rintro (rfl | ⟨c, hc, h⟩)
    · exact .refl
    · exact (T.child_above ha hc).trans h

theorem child_unique (hp : p ∈ t.nodes) (hc : c ∈ t.children p) (hd : d ∈ t.children p) (hcx : t.Above c x)
    (hdx : t.Above d x) :
    c = d := by
  by_contra ne
  rcases hcx.total hdx with h | h
  · exact T.not_above_of_child hp hc (h.of_ne ne (T.child_parent hp hd))
  · exact T.not_above_of_child hp hd (h.of_ne (Ne.symm ne) (T.child_parent hp hc))

end IsTree

/-! ## Weights -/

section Weight

open Classical in
/-- The nodes at or below a node. -/
noncomputable def below (t : Links α) (x : α) : Finset α := t.nodes.toFinset.filter fun y => t.Above x y

/-- The number of nodes at or below a node. -/
noncomputable def weight (t : Links α) (x : α) : Nat := (t.below x).card

theorem mem_below : y ∈ t.below x ↔ y ∈ t.nodes ∧ t.Above x y := by
  classical
  unfold below
  rw [Finset.mem_filter, mem_toFinset]

theorem weight_le_length : t.weight x ≤ t.nodes.length := by
  classical
  exact (Finset.card_filter_le _ _).trans t.nodes.toFinset_card_le

theorem weight_pos (hx : x ∈ t.nodes) : 0 < t.weight x := Finset.card_pos.mpr ⟨x, mem_below.mpr ⟨hx, .refl⟩⟩

namespace IsTree

variable (T : t.IsTree root)

include T

theorem weight_eq (hx : x ∈ t.nodes) : t.weight x = 1 + ((t.children x).map t.weight).sum := by
  classical
  have parts : t.below x = insert x ((t.children x).toFinset.biUnion t.below) := by
    ext y
    simp only [Finset.mem_insert, Finset.mem_biUnion, mem_toFinset, mem_below]
    constructor
    · rintro ⟨hy, h⟩
      rcases (T.above_iff_child hx hy).mp h with rfl | ⟨c, hc, h⟩
      · exact .inl rfl
      · exact .inr ⟨c, hc, hy, h⟩
    · rintro (rfl | ⟨c, hc, hy, h⟩)
      · exact ⟨hx, .refl⟩
      · exact ⟨hy, (T.child_above hx hc).trans h⟩
  have apart : x ∉ (t.children x).toFinset.biUnion t.below := by
    rw [Finset.mem_biUnion]
    rintro ⟨c, hc, h⟩
    exact T.not_above_of_child hx (mem_toFinset.mp hc) (mem_below.mp h).2
  have disjoint : ((t.children x).toFinset : Set α).PairwiseDisjoint t.below := by
    intro c hc d hd ne
    rw [Finset.mem_coe, mem_toFinset] at hc hd
    refine Finset.disjoint_left.mpr fun y hcy hdy => ne ?_
    exact T.child_unique hx hc hd (mem_below.mp hcy).2 (mem_below.mp hdy).2
  have sum := sum_toFinset t.weight (T.children_nodup x hx)
  unfold weight at sum ⊢
  rw [parts, Finset.card_insert_of_notMem apart, Finset.card_biUnion disjoint, sum, Nat.add_comm]

theorem weight_child_lt (hp : p ∈ t.nodes) (hc : c ∈ t.children p) : t.weight c < t.weight p := by
  have := T.weight_eq hp
  have : t.weight c ≤ ((t.children p).map t.weight).sum := le_sum_of_mem (mem_map_of_mem hc)
  omega

theorem weight_lt_of_parent (hx : x ∈ t.nodes) (hp : t.parent x = some p) : t.weight x < t.weight p :=
  T.weight_child_lt (T.parent_mem hx hp) (T.mem_children_of_parent hx hp)

theorem weight_eq_one_iff (hx : x ∈ t.nodes) : t.weight x = 1 ↔ t.children x = [] := by
  rw [T.weight_eq hx]
  constructor
  · intro h
    cases hc : t.children x with
    | nil => rfl
    | cons c l =>
      have pos := weight_pos (T.child_mem hx (hc ▸ mem_cons_self))
      rw [hc, map_cons, sum_cons] at h
      omega
  · intro h
    rw [h]
    rfl

/-- Induction from the leaves. -/
theorem induction_up {motive : α → Prop} (node : ∀ x ∈ t.nodes, (∀ c ∈ t.children x, motive c) → motive x)
    (hx : x ∈ t.nodes) :
    motive x := by
  induction hn : t.weight x using Nat.strongRecOn generalizing x with
  | _ n ih =>
    refine node x hx fun c hc => ?_
    exact ih (t.weight c) (hn ▸ T.weight_child_lt hx hc) (T.child_mem hx hc) rfl

end IsTree

end Weight

/-! ## A new leaf -/

section Hang

variable [DecidableEq α]

/-- `new` becomes the last child of `p`. -/
def hang (t : Links α) (new p : α) (height : Nat) : Links α where
  nodes := new :: t.nodes
  parent := update t.parent new (some p)
  children := update (update t.children p (t.children p ++ [new])) new []
  height := update t.height new height

variable {new : α} {n : Nat}

theorem hang_parent_of_ne (h : x ≠ new) : (t.hang new p n).parent x = t.parent x := update_of_ne h _ _

@[simp] theorem hang_parent_new : (t.hang new p n).parent new = some p := update_self _ _ _

@[simp] theorem hang_children_new : (t.hang new p n).children new = [] := update_self _ _ _

theorem hang_children_parent (h : p ≠ new) : (t.hang new p n).children p = t.children p ++ [new] := by
  show update (update t.children p (t.children p ++ [new])) new [] p = _
  rw [update_of_ne h, update_self]

theorem hang_children_of_ne (h : x ≠ new) (hp : x ≠ p) : (t.hang new p n).children x = t.children x := by
  show update (update t.children p (t.children p ++ [new])) new [] x = _
  rw [update_of_ne h, update_of_ne hp]

theorem hang_children_ne_nil (h : x ≠ new) (kids : t.children x ≠ []) : (t.hang new p n).children x ≠ [] := by
  by_cases hxp : x = p
  · subst hxp
    rw [hang_children_parent h]
    simp
  · rw [hang_children_of_ne h hxp]
    exact kids

variable (T : t.IsTree root)

include T

theorem IsTree.hang (fresh : new ∉ t.nodes) (hp : p ∈ t.nodes) (higher : t.height p < n) :
    (t.hang new p n).IsTree root where
  nodup := nodup_cons.mpr ⟨fresh, T.nodup⟩
  root_mem := mem_cons_of_mem new T.root_mem
  parent_root := by
    rw [hang_parent_of_ne (ne_of_mem_of_not_mem T.root_mem fresh)]
    exact T.parent_root
  parent_of_ne x hx hr := by
    rcases mem_cons.mp hx with rfl | hx
    · exact ⟨p, mem_cons_of_mem x hp, hang_parent_new⟩
    · obtain ⟨q, hq, h⟩ := T.parent_of_ne x hx hr
      exact ⟨q, mem_cons_of_mem new hq, (hang_parent_of_ne (ne_of_mem_of_not_mem hx fresh)).trans h⟩
  mem_children q hq c := by
    have hpn := ne_of_mem_of_not_mem hp fresh
    have links : c ∈ (t.hang new p n).nodes ∧ (t.hang new p n).parent c = some q ↔
        c = new ∧ p = q ∨ c ∈ t.nodes ∧ t.parent c = some q := by
      by_cases hc : c = new
      · subst hc
        simp [Links.hang, fresh]
      · rw [hang_parent_of_ne hc]
        simp [Links.hang, hc]
    rw [links]
    rcases mem_cons.mp hq with rfl | hq
    · rw [hang_children_new]
      simp only [not_mem_nil, false_iff, not_or, not_and]
      refine ⟨fun _ => hpn, fun hc hcq => fresh (T.parent_mem hc hcq)⟩
    · have hqn := ne_of_mem_of_not_mem hq fresh
      by_cases hqp : q = p
      · subst hqp
        rw [hang_children_parent hqn, mem_append, T.mem_children q hp, mem_singleton]
        tauto
      · rw [hang_children_of_ne hqn hqp, T.mem_children q hq]
        have : p ≠ q := Ne.symm hqp
        tauto
  children_nodup q hq := by
    rcases mem_cons.mp hq with rfl | hq
    · rw [hang_children_new]
      exact nodup_nil
    · have hqn := ne_of_mem_of_not_mem hq fresh
      by_cases hqp : q = p
      · subst hqp
        rw [hang_children_parent hqn]
        refine (T.children_nodup q hp).append (nodup_singleton new) ?_
        exact disjoint_singleton.mpr fun h => fresh (T.child_mem hp h)
      · rw [hang_children_of_ne hqn hqp]
        exact T.children_nodup q hq
  height_lt x hx q hq := by
    rcases mem_cons.mp hx with rfl | hx
    · rw [hang_parent_new, Option.some.injEq] at hq
      subst hq
      show update t.height x n p < update t.height x n x
      rw [update_self, update_of_ne (ne_of_mem_of_not_mem hp fresh)]
      exact higher
    · rw [hang_parent_of_ne (ne_of_mem_of_not_mem hx fresh)] at hq
      show update t.height new n q < update t.height new n x
      rw [update_of_ne (ne_of_mem_of_not_mem (T.parent_mem hx hq) fresh),
        update_of_ne (ne_of_mem_of_not_mem hx fresh)]
      exact T.height_lt x hx q hq

theorem above_hang_iff (fresh : new ∉ t.nodes) (hb : b ∈ t.nodes) : (t.hang new p n).Above a b ↔ t.Above a b := by
  have same : ∀ {x}, x ∈ t.nodes → (t.hang new p n).parent x = t.parent x := fun hx =>
    hang_parent_of_ne (ne_of_mem_of_not_mem hx fresh)
  constructor
  · intro h
    induction h with
    | refl => exact .refl
    | step hq _ ih =>
      rw [same hb] at hq
      exact .step hq (ih (T.parent_mem hb hq))
  · intro h
    induction h with
    | refl => exact .refl
    | step hq _ ih => exact .step ((same hb).trans hq) (ih (T.parent_mem hb hq))

theorem above_hang_new (fresh : new ∉ t.nodes) (hp : p ∈ t.nodes) :
    (t.hang new p n).Above a new ↔ a = new ∨ t.Above a p := by
  rw [above_iff, hang_parent_new]
  simp only [Option.some.injEq, exists_eq_left', above_hang_iff T fresh hp]

end Hang

/-! ## Growth -/

/-- Nodes are kept with their ancestors, and new children come last. -/
structure Extends (t t' : Links α) : Prop where
  nodes : ∀ x ∈ t.nodes, x ∈ t'.nodes
  above : ∀ a, ∀ b ∈ t.nodes, t.Above a b → t'.Above a b
  children : ∀ p ∈ t.nodes, ∃ more, t'.children p = t.children p ++ more

theorem Extends.refl (t : Links α) : t.Extends t :=
  ⟨fun _ h => h, fun _ _ _ h => h, fun _ _ => ⟨[], (append_nil _).symm⟩⟩

theorem IsTree.extends_hang [DecidableEq α] {new : α} {n : Nat} (T : t.IsTree root) (fresh : new ∉ t.nodes) :
    t.Extends (t.hang new p n) where
  nodes _ hx := mem_cons_of_mem new hx
  above _ _ hb := (above_hang_iff T fresh hb).mpr
  children q hq := by
    have hqn := ne_of_mem_of_not_mem hq fresh
    by_cases hqp : q = p
    · subst hqp
      exact ⟨[new], hang_children_parent hqn⟩
    · exact ⟨[], by rw [hang_children_of_ne hqn hqp, append_nil]⟩

end Links
