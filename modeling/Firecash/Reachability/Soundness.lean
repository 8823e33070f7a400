import Firecash.Lib.IntervalRow
import Firecash.Reachability.Store

/-!
# Sound interval trees

A block is `Seated` if the intervals of its children stand one after the other in its own interval without
the last number, which is the block's own. `Sound` is that the links are a tree, the origin has the
maximal interval and every block is seated. Then every interval is non-empty, and of two blocks one is
above the other or their intervals are apart (`Sound.trichotomy`), so the queries on intervals are exact:
`isChainAncestorOf_eq`, `getNextChainAncestor_eq`.
-/

namespace Firecash

open List BinarySearch

open Checked (U64_BOUND)
open IntervalRow

namespace ReachabilityStore

variable {H : Type} {s : ReachabilityStore H} {origin a b c d p x : H}

/-! ## Reads -/

section Reads

variable [DecidableEq H] {α : Type} {v : α}

section

variable (h : x ∈ s.nodes)
include h

theorem getInterval_of_mem : s.getInterval x = .ok (s.interval x) := if_pos h

theorem getParent_of_mem : s.getParent x = .ok (s.parent x) := if_pos h

theorem getChildren_of_mem : s.getChildren x = .ok (s.children x) := if_pos h

theorem getHeight_of_mem : s.getHeight x = .ok (s.height x) := if_pos h

end

variable {i : Interval}

theorem setInterval_of_mem (h : x ∈ s.nodes) : s.setInterval x i = .ok (s.withInterval x i) := if_pos h

theorem intervalChildrenCapacity_runs {room : Prop} {bad : ReachabilityError H → Prop} (h : x ∈ s.nodes)
    (pos : room → 1 ≤ (s.interval x).stop) :
    (s.intervalChildrenCapacity x).Runs room bad fun i => i.start = (s.interval x).start ∧
      i.stop + 1 = (s.interval x).stop := by
  refine .step (getInterval_of_mem h) ?_
  exact (U64.sub_runs pos).bind fun stop _ hstop => ⟨rfl, hstop⟩

theorem chainParent_of_parent (h : x ∈ s.nodes) (hp : s.parent x = some p) : s.chainParent x = .ok p := by
  unfold chainParent
  rw [getParent_of_mem h, hp]
  rfl

end Reads

/-! ## Seats -/

def first (s : ReachabilityStore H) (x : H) : Nat := (s.interval x).start

def past (s : ReachabilityStore H) (x : H) : Nat := (s.interval x).stop + 1

def Seated (s : ReachabilityStore H) (x : H) : Prop :=
  Row s.first s.past (s.interval x).start (s.interval x).stop (s.children x)

structure Sound (s : ReachabilityStore H) (origin : H) : Prop where
  tree : s.IsTree origin
  origin_interval : s.interval origin = Interval.maximal
  root_mem : s.reindexRoot ∈ s.nodes
  seated : ∀ x ∈ s.nodes, s.Seated x

theorem Seated.nonempty (h : s.Seated x) : (s.interval x).start ≤ (s.interval x).stop := Row.le h

theorem Seated.child (h : s.Seated p) (hc : c ∈ s.children p) :
    (s.interval p).start ≤ (s.interval c).start ∧ (s.interval c).start ≤ (s.interval c).stop + 1 ∧
      (s.interval c).stop < (s.interval p).stop := Row.mem h hc

theorem Seated.congr {s' : ReachabilityStore H} (h : s.Seated p) (links : s'.toLinks = s.toLinks)
    (own : s'.interval p = s.interval p)
    (same : ∀ c ∈ s.children p, s'.interval c = s.interval c) : s'.Seated p := by
  unfold Seated
  have kids : s'.children p = s.children p := by rw [links]
  rw [own, kids]
  refine Row.congr h fun c hc => ?_
  unfold first past
  rw [same c hc]
  exact ⟨rfl, rfl⟩

/-- An interval contains those below it, as long as the blocks on the way are seated. -/
theorem interval_subset (T : s.IsTree origin) (h : s.Above a b) (hb : b ∈ s.nodes)
    (seated : ∀ x, s.Above a x → s.Above x b → x ≠ b → s.Seated x) :
    (s.interval a).start ≤ (s.interval b).start ∧ (s.interval b).stop ≤ (s.interval a).stop ∧
      (a ≠ b → (s.interval b).stop < (s.interval a).stop) := by
  induction h with
  | refl => exact ⟨Nat.le_refl _, Nat.le_refl _, fun ne => absurd rfl ne⟩
  | @step b p hp h ih =>
    have hpm := T.parent_mem hb hp
    have hbc := T.mem_children_of_parent hb hp
    have child := (seated p h (.of_parent hp) (T.child_ne hpm hbc).symm).child hbc
    have upper := ih hpm fun x hax hxp hx => by
      refine seated x hax (.step hp hxp) ?_
      rintro rfl
      exact T.not_above_of_child hpm hbc hxp
    omega

/-- Every block that has children is seated. A leaf may still have the empty interval it was inserted with. -/
def InnerSeated (s : ReachabilityStore H) : Prop := ∀ x ∈ s.nodes, s.children x ≠ [] → s.Seated x

namespace InnerSeated

variable (I : s.InnerSeated) (T : s.IsTree origin)

include I T

theorem subset (h : s.Above a b) (hb : b ∈ s.nodes) :
    (s.interval a).start ≤ (s.interval b).start ∧ (s.interval b).stop ≤ (s.interval a).stop ∧
      (a ≠ b → (s.interval b).stop < (s.interval a).stop) := by
  refine interval_subset T h hb fun x _ hxb ne => ?_
  obtain ⟨c, hc, _⟩ := T.exists_child hxb hb ne
  exact I x (T.above_mem hxb hb) (ne_nil_of_mem hc)

theorem trichotomy (ha : a ∈ s.nodes) (hb : b ∈ s.nodes) :
    s.Above a b ∨ s.Above b a ∨ (s.interval a).stop < (s.interval b).start ∨
      (s.interval b).stop < (s.interval a).start := by
  by_cases hab : s.Above a b
  · exact .inl hab
  by_cases hba : s.Above b a
  · exact .inr (.inl hba)
  obtain ⟨p, hp, c, hc, d, hd, ne, hca, hdb⟩ := T.exists_fork ha hb hab hba
  have subA := I.subset T hca ha
  have subB := I.subset T hdb hb
  have apart := Row.apart (I p hp (ne_nil_of_mem hc)) hc hd ne
  unfold first past at apart
  omega

section

variable (ha : a ∈ s.nodes) (hb : b ∈ s.nodes) (hbne : (s.interval b).start ≤ (s.interval b).stop)
include ha hb hbne

/-- A block whose interval has the end of another one, not empty, is above it. -/
theorem above_of_stop (start : (s.interval a).start ≤ (s.interval b).stop)
    (stop : (s.interval b).stop ≤ (s.interval a).stop) :
    s.Above a b := by
  rcases I.trichotomy T ha hb with above | below | before | after
  · exact above
  · by_cases ne : b = a
    · exact ne ▸ .refl
    · have := (I.subset T below ha).2.2 ne
      omega
  · omega
  · omega

/-- Containment of an interval that is not empty is the tree order. -/
theorem contains_iff : (s.interval a).contains (s.interval b) = true ↔ s.Above a b := by
  unfold Interval.contains
  rw [decide_eq_true_eq]
  constructor
  · intro h
    exact I.above_of_stop T ha hb hbne (h.1.trans hbne) h.2
  · intro h
    have := I.subset T h hb
    omega

theorem strictlyContains_iff :
    (s.interval a).strictlyContains (s.interval b) = true ↔ s.Above a b ∧ a ≠ b := by
  have inclusive := I.contains_iff T ha hb hbne
  unfold Interval.contains at inclusive
  unfold Interval.strictlyContains
  rw [decide_eq_true_eq] at inclusive ⊢
  constructor
  · intro h
    refine ⟨inclusive.mp (by omega), ?_⟩
    rintro rfl
    omega
  · rintro ⟨h, ne⟩
    have := I.subset T h hb
    have := this.2.2 ne
    omega

end

end InnerSeated

namespace Sound

variable (S : s.Sound origin)

include S

theorem innerSeated : s.InnerSeated := fun x hx _ => S.seated x hx

theorem subset (h : s.Above a b) (hb : b ∈ s.nodes) :
    (s.interval a).start ≤ (s.interval b).start ∧ (s.interval b).stop ≤ (s.interval a).stop ∧
      (a ≠ b → (s.interval b).stop < (s.interval a).stop) := S.innerSeated.subset S.tree h hb

theorem nonempty (hx : x ∈ s.nodes) : (s.interval x).start ≤ (s.interval x).stop := (S.seated x hx).nonempty

theorem bounds (hx : x ∈ s.nodes) : 1 ≤ (s.interval x).start ∧ (s.interval x).stop + 1 < U64_BOUND := by
  have sub := S.subset (S.tree.root_above hx) hx
  rw [S.origin_interval] at sub
  simp only [Interval.maximal] at sub
  unfold U64_BOUND
  omega

theorem contains_iff (ha : a ∈ s.nodes) (hb : b ∈ s.nodes) : (s.interval a).contains (s.interval b) = true ↔
    s.Above a b :=
  S.innerSeated.contains_iff S.tree ha hb (S.nonempty hb)

end Sound

variable [DecidableEq H]

/-! ## The binary search -/

section Search

variable {l : List H} {lo hi : Nat}

omit [DecidableEq H] in
theorem starts_sorted (row : Row s.first s.past lo hi l) : (l.map fun x => (s.interval x).start).Pairwise (· ≤ ·) := by
  rw [pairwise_map]
  refine (Row.pairwise row).imp_of_mem fun {x y} hx _ hxy => ?_
  have := (Row.mem row hx).2.1
  exact Nat.le_trans this hxy

theorem all_mem (hl : ∀ x ∈ l, x ∈ s.nodes) : (l.all (· ∈ s.nodes)) = true := by
  rw [all_eq_true]
  exact fun x hx => decide_eq_true (hl x hx)

section

variable (hl : ∀ x ∈ l, x ∈ s.nodes) (hd : d ∈ s.nodes) (row : Row s.first s.past lo hi l)
include hl hd row

/-- The search finds the block of a row whose interval contains that of the descendant. -/
theorem binarySearchDescendant_found (full : ∀ x ∈ l, (s.interval x).start ≤ (s.interval d).stop →
    (s.interval x).start ≤ (s.interval x).stop) (hc : c ∈ l)
    (nonempty : (s.interval d).start ≤ (s.interval d).stop) (sub : (s.interval c).contains (s.interval d) = true) :
    ∃ i, s.binarySearchDescendant l d = .ok (.found c i) ∧ l[i]? = some c := by
  have inside := of_decide_eq_true sub
  unfold binarySearchDescendant
  rw [getInterval_of_mem hd]
  dsimp only [bind, Except.bind]
  rw [if_pos (all_mem hl)]
  have sorted := starts_sorted row
  cases hres : binarySearch (l.map fun x => (s.interval x).start) (s.interval d).stop with
  | ok i =>
    have hit := binarySearch_ok sorted hres
    rw [getElem?_map, Option.map_eq_some_iff] at hit
    obtain ⟨x, hx, start⟩ := hit
    have hxl : x ∈ l := mem_of_getElem? hx
    have same : x = c := by
      by_contra ne
      have := full x hxl (by omega)
      rcases Row.apart row hxl hc ne with before | after
      · unfold past first at before
        omega
      · unfold past first at after
        omega
    subst same
    refine ⟨i, ?_, hx⟩
    dsimp only
    rw [hx]
    rfl
  | error i =>
    obtain ⟨le, small, large⟩ := binarySearch_error sorted hres
    rw [length_map] at le large
    obtain ⟨pre, post, rfl⟩ := append_of_mem hc
    obtain ⟨mid, _, rest⟩ := row_append.mp row
    -- the block is before the place to insert at, and what follows it is not
    have before : pre.length < i := by
      by_contra h
      have := large pre.length (by omega) (by simp)
      simp at this
      omega
    have last : i ≤ pre.length + 1 := by
      by_contra h
      cases post with
      | nil =>
        simp at le
        omega
      | cons y post =>
        have next := small (pre.length + 1) (by omega)
        have apart := rest.2.2.1
        unfold past first at apart
        simp at next
        omega
    obtain rfl : i = pre.length + 1 := by omega
    have taken : (pre ++ c :: post).take (pre.length + 1) = pre ++ [c] := by
      simp [take_append]
    refine ⟨pre.length, ?_, by simp⟩
    dsimp only
    rw [taken, getLast?_concat]
    dsimp only
    unfold isChainAncestorOf
    rw [getInterval_of_mem (hl c hc), getInterval_of_mem hd]
    dsimp only [bind, Except.bind, pure, Except.pure]
    rw [if_pos sub]
    rfl

/-- The search finds no block if none has the end of the descendant's interval in its own; it tells the
place to insert at. -/
theorem binarySearchDescendant_notFound
    (outside : ∀ x ∈ l, ¬ ((s.interval x).start ≤ (s.interval d).stop ∧ (s.interval d).stop ≤ (s.interval x).stop))
    (full : ∀ x ∈ l, (s.interval x).start ≤ (s.interval x).stop) :
    ∃ i, s.binarySearchDescendant l d = .ok (.notFound i) ∧ i ≤ l.length ∧
      (∀ x ∈ l.take i, (s.interval x).stop < (s.interval d).stop) ∧
      ∀ x ∈ l.drop i, (s.interval d).stop < (s.interval x).start := by
  unfold binarySearchDescendant
  rw [getInterval_of_mem hd]
  dsimp only [bind, Except.bind]
  rw [if_pos (all_mem hl)]
  have sorted := starts_sorted row
  cases hres : binarySearch (l.map fun x => (s.interval x).start) (s.interval d).stop with
  | ok i =>
    have hit := binarySearch_ok sorted hres
    rw [getElem?_map, Option.map_eq_some_iff] at hit
    obtain ⟨x, hx, start⟩ := hit
    have hxl : x ∈ l := mem_of_getElem? hx
    have := full x hxl
    exact absurd ⟨Nat.le_of_eq start, by omega⟩ (outside x hxl)
  | error i =>
    obtain ⟨le, small, large⟩ := binarySearch_error_split sorted hres
    rw [length_map] at le
    rw [← map_take, forall_mem_map] at small
    rw [← map_drop, forall_mem_map] at large
    refine ⟨i, ?_, le, fun x hx => ?_, large⟩
    · dsimp only
      cases hlast : (l.take i).getLast? with
      | none => rfl
      | some x =>
        have hx : x ∈ l.take i := mem_of_getLast? hlast
        have hxl : x ∈ l := mem_of_mem_take hx
        dsimp only
        unfold isChainAncestorOf
        rw [getInterval_of_mem (hl x hxl), getInterval_of_mem hd]
        refine if_neg fun sub => outside x hxl ?_
        have inside := of_decide_eq_true sub
        have := small x hx
        omega
    · have := outside x (mem_of_mem_take hx)
      have := small x hx
      omega

end

/-- The child on the way to a block, where the blocks in between are seated. -/
theorem getNextChainAncestorUnchecked_eq (T : s.IsTree origin) (ha : a ∈ s.nodes) (hd : d ∈ s.nodes)
    (row : Row s.first s.past lo hi (s.children a))
    (full : ∀ x ∈ s.children a, (s.interval x).start ≤ (s.interval d).stop → (s.interval x).start ≤ (s.interval x).stop)
    (hc : c ∈ s.children a) (nonempty : (s.interval d).start ≤ (s.interval d).stop)
    (sub : (s.interval c).contains (s.interval d) = true) : s.getNextChainAncestorUnchecked d a = .ok c := by
  obtain ⟨i, found, _⟩ := binarySearchDescendant_found (fun x hx => T.child_mem ha hx) hd row full hc nonempty sub
  unfold getNextChainAncestorUnchecked
  rw [getChildren_of_mem ha]
  dsimp only [bind, Except.bind]
  rw [found]
  rfl

end Search

/-! ## Chain queries -/

theorem InnerSeated.isStrictChainAncestorOf_eq (I : s.InnerSeated) (T : s.IsTree origin) (ha : a ∈ s.nodes)
    (hb : b ∈ s.nodes) (hbne : (s.interval b).start ≤ (s.interval b).stop) :
    ∃ answer, s.isStrictChainAncestorOf a b = .ok answer ∧ (answer = true ↔ s.Above a b ∧ a ≠ b) := by
  refine ⟨(s.interval a).strictlyContains (s.interval b), ?_, I.strictlyContains_iff T ha hb hbne⟩
  unfold isStrictChainAncestorOf
  rw [getInterval_of_mem ha, getInterval_of_mem hb]
  rfl

namespace Sound

variable (S : s.Sound origin)

include S

section

variable (ha : a ∈ s.nodes) (hb : b ∈ s.nodes)
include ha hb

/-- **`is_chain_ancestor_of` is exact.** -/
theorem isChainAncestorOf_eq :
    ∃ answer, s.isChainAncestorOf a b = .ok answer ∧ (answer = true ↔ s.Above a b) := by
  refine ⟨(s.interval a).contains (s.interval b), ?_, S.contains_iff ha hb⟩
  unfold isChainAncestorOf
  rw [getInterval_of_mem ha, getInterval_of_mem hb]
  rfl

theorem isStrictChainAncestorOf_eq :
    ∃ answer, s.isStrictChainAncestorOf a b = .ok answer ∧ (answer = true ↔ s.Above a b ∧ a ≠ b) :=
  S.innerSeated.isStrictChainAncestorOf_eq S.tree ha hb (S.nonempty hb)

end

/-- **`get_next_chain_ancestor` is exact** where there is one. -/
theorem getNextChainAncestor_eq (hd : d ∈ s.nodes) (h : s.Above a d) (ne : a ≠ d) :
    ∃ c ∈ s.children a, s.Above c d ∧ s.getNextChainAncestor d a = .ok c ∧
      s.getNextChainAncestorUnchecked d a = .ok c := by
  have ha := S.tree.above_mem h hd
  obtain ⟨c, hc, hcd⟩ := S.tree.exists_child h hd ne
  have hcm := S.tree.child_mem ha hc
  have unchecked := getNextChainAncestorUnchecked_eq S.tree ha hd (S.seated a ha)
    (fun x hx _ => S.nonempty (S.tree.child_mem ha hx)) hc (S.nonempty hd) ((S.contains_iff hcm hd).mpr hcd)
  refine ⟨c, hc, hcd, ?_, unchecked⟩
  obtain ⟨answer, query, exact⟩ := S.isStrictChainAncestorOf_eq ha hd
  unfold getNextChainAncestor
  rw [if_neg (Ne.symm ne), query]
  dsimp only [bind, Except.bind]
  rw [if_pos (exact.mpr ⟨h, ne⟩)]
  exact unchecked

end Sound

end ReachabilityStore

end Firecash
