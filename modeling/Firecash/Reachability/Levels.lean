import Firecash.Reachability.Offsets

/-!
# One level of a reclaim

On every level of the chain a reclaim shrinks a chain block from one side and moves its siblings on that
side after it. If the block that needs room is not among them, the gap of their parent on that side grows
by the offset and the rest of the tree stays seated (`level_runs`); if it is, it is given the offset and
refilled (`allocate_runs`).
-/

namespace Firecash

open List Option

open Checked (U64_BOUND)
open IntervalRow ReachabilityStore

namespace ReindexOperationContext

variable {H : Type} {s : ReachabilityStore H} {f f₁ f' : H → Interval} {origin allocation q r x : H} {pre post : List H}
  {room : Prop} {bad : ReachabilityError H → Prop} {slack o lo hi : Nat} {side : Side}

def starts (f : H → Interval) (x : H) : Nat := (f x).start

def ends (f : H → Interval) (x : H) : Nat := (f x).stop + 1

/-! ## Rows of siblings -/

/-- `j` is `i` moved by an offset. -/
def Slides (d : Int) (i j : Interval) : Prop := (j.start : Int) = i.start + d ∧ (j.stop : Int) = i.stop + d

theorem Slides.of_eq {i j : Interval} (same : j = i) : Slides 0 i j := by
  rw [same]
  exact ⟨by omega, by omega⟩

theorem Slides.up {i j : Interval} (h : Side.before.Shifts o i j) : Slides o i j := by
  obtain ⟨h1, h2⟩ := h
  exact ⟨by omega, by omega⟩

theorem Slides.down {i j : Interval} (h : Side.after.Shifts o i j) : Slides (-o) i j := by
  obtain ⟨h1, h2⟩ := h
  exact ⟨by omega, by omega⟩

section Rows

variable {d : Int} {lo' hi' : Nat}

theorem row_slide {l : List H} (row : Row (starts f) (ends f) lo hi l) (moved : ∀ x ∈ l, Slides d (f x) (f' x))
    (hlo : lo' ≤ lo + d) (hhi : hi + d ≤ hi') : Row (starts f') (ends f') lo' hi' l := by
  refine Row.move row (fun x hx => ?_) hlo hhi
  obtain ⟨h1, h2⟩ := moved x hx
  unfold starts ends
  omega

theorem row_congr {l : List H} (row : Row (starts f) (ends f) lo hi l) (same : ∀ x ∈ l, f' x = f x) :
    Row (starts f') (ends f') lo hi l :=
  row_slide row (fun x hx => .of_eq (same x hx)) (by omega) (by omega)

/-- The blocks before a block follow its start. -/
theorem row_cut (row : Row (starts f) (ends f) lo hi (pre ++ q :: post)) (moved : ∀ x ∈ pre, Slides d (f x) (f' x))
    (hlo : lo' ≤ lo + d) (start : (f' q).start = (f q).start + d) (nonempty : (f' q).start ≤ (f' q).stop + 1)
    (rest : Row (starts f) (ends f) (ends f q) hi post → Row (starts f') (ends f') (ends f' q) hi' post) :
    Row (starts f') (ends f') lo' hi' (pre ++ q :: post) := by
  obtain ⟨mid, left, inside, -, right⟩ := row_append.mp row
  unfold starts at inside
  exact row_append.mpr ⟨(f' q).start, row_slide left moved hlo (by omega), Nat.le_refl _, nonempty, rest right⟩

end Rows

theorem SubtreeSeated.update [DecidableEq H] {i : Interval} (T : s.IsTree origin) (seated : SubtreeSeated s q f)
    (row : Row (starts f) (ends f) i.start i.stop (s.children q)) : SubtreeSeated s q (Function.update f q i) := by
  intro y hy hqy
  have kids : ∀ c ∈ s.children y, Function.update f q i c = f c := fun c hc => by
    refine Function.update_of_ne ?_ _ _
    rintro rfl
    exact T.not_above_of_child hy hc hqy
  by_cases hyq : y = q
  · subst hyq
    refine row_congr ?_ kids
    rw [withIntervals_interval, Function.update_self]
    exact row
  · exact (seated y hy hqy).congr rfl (Function.update_of_ne hyq _ _) kids

/-! ## A chain block and its siblings -/

/-- Everything is seated that is not below `allocation`. -/
def SeatedOff (s : ReachabilityStore H) (allocation : H) (f : H → Interval) : Prop :=
  ∀ x ∈ s.nodes, ¬ s.Above allocation x → (s.withIntervals f).Seated x

/-- `q` is a child of `r`, between `pre` and `post`. -/
structure Level (s : ReachabilityStore H) (r q : H) (pre post : List H) : Prop where
  mem : r ∈ s.nodes
  children : s.children r = pre ++ q :: post

/-- The siblings on a side, from the block outwards. -/
def Side.outward (side : Side) (pre post : List H) : List H :=
  match side with
  | .before => pre.reverse
  | .after => post

/-- The gap between a block's interval and the first or last of its children. -/
def gap (s : ReachabilityStore H) (side : Side) (f : H → Interval) (x : H) : Nat :=
  match side with
  | .before => ((s.children x).head?.elim 0 (starts f)) - (f x).start
  | .after => (f x).stop - (s.children x).getLast?.elim 0 (ends f)

section

variable {c : H} {l : List H} (row : (s.withIntervals f).Seated x)

include row

theorem gap_before_eq (eq : s.children x = c :: l) : (f x).start + gap s .before f x = (f c).start := by
  have inside : (f x).start ≤ (f c).start := (Row.mem row (eq ▸ mem_cons_self)).1
  simp only [gap, eq, head?_cons, elim_some, starts]
  omega

theorem gap_after_eq (eq : s.children x = l ++ [c]) : (f c).stop + 1 + gap s .after f x = (f x).stop := by
  have inside : (f c).stop + 1 ≤ (f x).stop := (Row.mem row (eq ▸ mem_concat_self)).2.2
  simp only [gap, eq, getLast?_concat, elim_some, ends]
  omega

end

/-- A block that was shrunk, with its subtree seated. -/
structure Shrunk (s : ReachabilityStore H) (side : Side) (o : Nat) (q : H) (f f₁ : H → Interval) : Prop where
  frame : ∀ y, ¬ s.Above q y → f₁ y = f y
  self : side.Shrinks o (f q) (f₁ q)
  seated : ∀ y ∈ s.nodes, s.Above q y → (s.withIntervals f₁).Seated y

namespace Level

variable (L : Level s r q pre post) (T : s.IsTree origin)

include L

theorem q_mem_children : q ∈ s.children r := by
  rw [L.children]
  exact mem_append_right pre mem_cons_self

theorem pre_child (hx : x ∈ pre) : x ∈ s.children r := by
  rw [L.children]
  exact mem_append_left _ hx

theorem post_child (hx : x ∈ post) : x ∈ s.children r := by
  rw [L.children]
  exact mem_append_right pre (mem_cons_of_mem q hx)

theorem outward_children (hx : x ∈ side.outward pre post) : x ∈ s.children r := by
  cases side with
  | before => exact L.pre_child (mem_reverse.mp hx)
  | after => exact L.post_child hx

include T

theorem q_mem : q ∈ s.nodes := T.child_mem L.mem L.q_mem_children

theorem nodup : (pre ++ q :: post).Nodup := by
  rw [← L.children]
  exact T.children_nodup r L.mem

theorem outward_nodup : (side.outward pre post).Nodup := by
  have nodup := L.nodup T
  cases side with
  | before => exact nodup_reverse.mpr (nodup_append.mp nodup).1
  | after => exact (nodup_cons.mp (nodup_append.mp nodup).2.1).2

theorem outward_ne (hx : x ∈ side.outward pre post) : x ≠ q := by
  have nodup := L.nodup T
  rintro rfl
  cases side with
  | before => exact (nodup_append.mp nodup).2.2 x (mem_reverse.mp hx) x mem_cons_self rfl
  | after => exact (nodup_cons.mp (nodup_append.mp nodup).2.1).1 hx

theorem disjoint {y : H} (hx : x ∈ s.children r) (hy : y ∈ s.children r) (ne : x ≠ y) : Disjoint s x y := by
  intro z hxz hyz
  exact ne (T.child_unique L.mem hx hy hxz hyz)

theorem pairwise {l : List H} (sub : l.Sublist (s.children r)) : l.Pairwise (Disjoint s) :=
  ((T.children_nodup r L.mem).sublist sub).imp_of_mem fun hx hy ne => L.disjoint T (sub.subset hx) (sub.subset hy) ne

theorem pre_disjoint (hx : x ∈ pre) : Disjoint s x q ∧ ∀ z ∈ post, Disjoint s x z := by
  have ne := (nodup_append.mp (L.nodup T)).2.2 x hx
  refine ⟨?_, fun z hz => ?_⟩
  · exact L.disjoint T (L.pre_child hx) L.q_mem_children (ne q mem_cons_self)
  · exact L.disjoint T (L.pre_child hx) (L.post_child hz) (ne z (mem_cons_of_mem q hz))

theorem post_disjoint (hx : x ∈ post) : Disjoint s x q := by
  refine L.disjoint T (L.post_child hx) L.q_mem_children ?_
  rintro rfl
  exact (nodup_cons.mp (nodup_append.mp (L.nodup T)).2.1).1 hx

theorem weight_eq : s.weight r = 1 + (pre.map s.weight).sum + s.weight q + (post.map s.weight).sum := by
  rw [T.weight_eq L.mem, L.children, map_append, sum_append, map_cons, sum_cons]
  omega

theorem outward_pairwise : (side.outward pre post).Pairwise (Disjoint s) :=
  (L.outward_nodup T).imp_of_mem fun hx hy ne => L.disjoint T (L.outward_children hx) (L.outward_children hy) ne

/-- What is below a child of another block is not below one of these. -/
theorem untouched {c z : H} (hz : z ∈ s.children r) (hx : x ∈ s.nodes) (ne : x ≠ r) (out : ¬ s.Above z x)
    (hc : c ∈ s.children x) :
    ¬ s.Above z c := by
  intro h
  by_cases hzc : z = c
  · subst hzc
    have parent := T.child_parent L.mem hz
    rw [T.child_parent hx hc, some.injEq] at parent
    exact ne parent
  · exact out (h.of_ne hzc (T.child_parent hx hc))

theorem strict {z y : H} (hz : z ∈ s.children r) (h : s.Above z y) : s.Above r y ∧ y ≠ r := T.strict_of_child L.mem hz h

end Level

theorem splitChildren_eq [DecidableEq H] (nodup : (pre ++ q :: post).Nodup) :
    splitChildren (pre ++ q :: post) q = .ok (pre, post) := by
  have fresh : q ∉ pre := fun h => (nodup_append.mp nodup).2.2 q h q mem_cons_self rfl
  have index : (pre ++ q :: post).idxOf q = pre.length := by
    rw [idxOf_append_of_notMem fresh, idxOf_cons_self, Nat.add_zero]
  unfold splitChildren
  rw [if_pos (mem_append_right pre mem_cons_self), index]
  simp

theorem Side.offsetSiblings_eq [DecidableEq H] {share : Nat → List Nat → Nat → Nat} {ctx : ReindexOperationContext H}
    (L : Level s r q pre post) (T : s.IsTree origin) (here : At s slack f ctx) :
    side.offsetSiblings share ctx allocation q o =
      ReindexOperationContext.offsetSiblings share side.grow side.shift allocation o ctx (side.outward pre post) := by
  obtain ⟨sizes, rfl, _⟩ := here
  have parent : (s.withIntervals f).chainParent q = .ok r :=
    chainParent_of_parent (L.q_mem T) (T.child_parent L.mem L.q_mem_children)
  have kids : (s.withIntervals f).getChildren r = .ok (pre ++ q :: post) :=
    (getChildren_of_mem L.mem).trans (congrArg Except.ok L.children)
  have split := splitChildren_eq (L.nodup T)
  cases side <;>
    simp only [Side.offsetSiblings, offsetSiblingsBefore, offsetSiblingsAfter, parent, kids, split, bind,
      Except.bind] <;>
    rfl

/-! ## Shrinking a block and moving its siblings -/

section Step

variable (L : Level s r q pre post) (T : s.IsTree origin)

include L

theorem Level.row (h : (s.withIntervals f).Seated r) :
    Row (starts f) (ends f) (f r).start (f r).stop (pre ++ q :: post) := by
  rw [← L.children]
  exact h

/-- The gap of the parent grows by the offset. -/
theorem Level.gap_shift (row : (s.withIntervals f).Seated r) (row' : (s.withIntervals f').Seated r) (own : f' r = f r)
    (shrunk : side.Shrinks o (f q) (f' q)) (moved : ∀ x ∈ side.outward pre post, side.Shifts o (f x) (f' x)) :
    gap s side f' r = gap s side f r + o := by
  cases side with
  | before =>
    obtain ⟨c, l, eq, step⟩ : ∃ c l, s.children r = c :: l ∧ (f' c).start = (f c).start + o := by
      cases pre with
      | nil => exact ⟨q, post, L.children, shrunk.1⟩
      | cons x pre => exact ⟨x, _, L.children, (moved x (mem_reverse.mpr mem_cons_self)).1⟩
    have old := gap_before_eq row eq
    have new := gap_before_eq row' eq
    rw [own] at new
    omega
  | after =>
    obtain ⟨c, l, eq, step⟩ : ∃ c l, s.children r = l ++ [c] ∧ (f' c).stop + o = (f c).stop := by
      rcases eq_nil_or_concat' post with rfl | ⟨l, x, rfl⟩
      · exact ⟨q, pre, L.children, shrunk.2⟩
      · exact ⟨x, pre ++ q :: l, L.children.trans (by simp), (moved x mem_concat_self).2⟩
    have old := gap_after_eq row eq
    have new := gap_after_eq row' eq
    rw [own] at new
    omega

include T

/-- A level is put together: the touched subtrees are seated, the row of siblings is right, and the rest was seated. -/
theorem Level.reseat {tops : List H} (inside : ∀ z ∈ tops, z ∈ s.children r)
    (same : ∀ y, (∀ z ∈ tops, ¬ s.Above z y) → f' y = f y)
    (touched : ∀ z ∈ tops, SubtreeSeated s z f') (row : (s.withIntervals f').Seated r)
    (off : SeatedOff s allocation f) (hx : x ∈ s.nodes) (cover : s.Above allocation x → ∃ z ∈ tops, s.Above z x) :
    (s.withIntervals f').Seated x := by
  by_cases hxr : x = r
  · exact hxr ▸ row
  · by_cases hzx : ∃ z ∈ tops, s.Above z x
    · obtain ⟨z, hz, h⟩ := hzx
      exact touched z hz x hx h
    · have out : ∀ z ∈ tops, ¬ s.Above z x := fun z hz h => hzx ⟨z, hz, h⟩
      refine (off x hx fun h => hzx (cover h)).congr rfl (same x out) fun c hc => same c fun z hz => ?_
      exact L.untouched T (inside z hz) hx hxr (out z hz) hc

variable (S : Shrunk s side o q f f₁)

include S

theorem Level.nonempty : (f₁ q).start ≤ (f₁ q).stop := (S.seated q (L.q_mem T) .refl).nonempty

/-- Shrinking the block does not reach its siblings. -/
theorem Level.early {y : H} (hx : x ∈ s.children r) (ne : x ≠ q) (h : s.Above x y) : f₁ y = f y :=
  S.frame y fun hqy => L.disjoint T L.q_mem_children hx (Ne.symm ne) y hqy h

/-- The siblings move into the room that the block left, so their numbers stay in range. -/
theorem Level.shift_bound (row : Row (starts f) (ends f) (f r).start (f r).stop (pre ++ q :: post))
    (bound : (f r).stop + 1 < U64_BOUND) (hx : x ∈ side.outward pre post) :
    (side = .before → (f x).stop + o + 1 < U64_BOUND) ∧
      (side = .after → o ≤ (f x).start ∧ (f x).stop + 1 < U64_BOUND) := by
  have nonempty := L.nonempty T S
  obtain ⟨mid, left, h1, h2, right⟩ := row_append.mp row
  have inside := (Row.mem row (mem_append_right pre mem_cons_self)).2.2
  constructor
  · rintro rfl
    have before := (Row.mem left (mem_reverse.mp hx)).2.2
    obtain ⟨hs, he⟩ := S.self
    unfold starts ends at *
    omega
  · rintro rfl
    have later := Row.mem right hx
    obtain ⟨hs, he⟩ := S.self
    unfold starts ends at *
    omega

variable [DecidableEq H] {share : Nat → List Nat → Nat → Nat} {ctx : ReindexOperationContext H}

/-- The siblings between the block and a place outwards are moved. -/
theorem Level.shift_runs (small : room → s.nodes.length < U64_BOUND) (off : SeatedOff s allocation f)
    (here : At s slack f₁ ctx)
    (hr : ¬ s.Above allocation r) (bound : room → (f r).stop + 1 < U64_BOUND) {l l' : List H}
    (parts : side.outward pre post = l ++ l') (free : ∀ x ∈ l, Disjoint s x allocation) :
    (offsetSiblings share side.grow side.shift allocation o ctx l).Runs room bad fun ctx' =>
      ∃ f', At s slack f' ctx' ∧ ShiftedAll s side o l f₁ f' := by
  have row := L.row (off r L.mem hr)
  have sub : ∀ x ∈ l, x ∈ side.outward pre post := fun x hx => parts ▸ mem_append_left l' hx
  have early : ∀ x ∈ l, ∀ y, s.Above x y → f₁ y = f y := fun x hx y hxy =>
    L.early T S (L.outward_children (sub x hx)) (L.outward_ne T (sub x hx)) hxy
  refine offsetSiblings_runs T small here (fun x hx => T.child_mem L.mem (L.outward_children (sub x hx)))
    ?_ (fun h => ?_)
    (fun x hx => SubtreeSeated.congr T (fun y hy hxy => off y hy fun h => free x hx y hxy h) (early x hx))
    (fun hs hroom x hx => ?_) fun hs hroom x hx => ?_
  · have pairwise : (side.outward pre post).Pairwise (Disjoint s) := L.outward_pairwise T
    rw [parts] at pairwise
    exact (pairwise_append.mp pairwise).1
  · exact free allocation h allocation .refl .refl
  · rw [early x hx x .refl]
    exact (L.shift_bound T S row (bound hroom) (sub x hx)).1 hs
  · rw [early x hx x .refl]
    exact (L.shift_bound T S row (bound hroom) (sub x hx)).2 hs

end Step

/-- A block was shrunk and some of its siblings were moved after it. -/
structure Pushed (s : ReachabilityStore H) (side : Side) (o : Nat) (q : H) (l : List H) (f f' : H → Interval) :
    Prop where
  frame : ∀ y, (∀ z ∈ q :: l, ¬ s.Above z y) → f' y = f y
  shrunk : side.Shrinks o (f q) (f' q)
  nonempty : (f' q).start ≤ (f' q).stop
  moved : ∀ x ∈ l, side.Shifts o (f x) (f' x)
  seated : ∀ z ∈ q :: l, ∀ y ∈ s.nodes, s.Above z y → (s.withIntervals f').Seated y

variable {l : List H}

theorem Level.pushed [DecidableEq H] (L : Level s r q pre post) (T : s.IsTree origin) (S : Shrunk s side o q f f₁)
    (A : ShiftedAll s side o l f₁ f') (kids : ∀ x ∈ l, x ∈ s.children r) (ne : ∀ x ∈ l, x ≠ q) :
    Pushed s side o q l f f' := by
  have late : ∀ y, s.Above q y → f' y = f₁ y := fun y hqy => A.frame y fun z hz hzy =>
    L.disjoint T L.q_mem_children (kids z hz) (ne z hz).symm y hqy hzy
  refine ⟨fun y hy => ?_, ?_, ?_, fun x hx => ?_, forall_mem_cons.mpr ⟨SubtreeSeated.congr T S.seated late, A.seated⟩⟩
  · obtain ⟨hqy, hy⟩ := forall_mem_cons.mp hy
    rw [A.frame y hy, S.frame y hqy]
  · rw [late q .refl]
    exact S.self
  · rw [late q .refl]
    exact L.nonempty T S
  · rw [← L.early T S (kids x hx) (ne x hx) .refl]
    exact A.moved x hx

theorem Level.tops (L : Level s r q pre post) (kids : ∀ x ∈ l, x ∈ s.children r) : ∀ z ∈ q :: l, z ∈ s.children r :=
  forall_mem_cons.mpr ⟨L.q_mem_children, kids⟩

namespace Pushed

variable {l : List H} (P : Pushed s side o q l f f') (L : Level s r q pre post) (T : s.IsTree origin)
  (kids : ∀ x ∈ l, x ∈ s.children r)

include P L T kids

theorem outside : SameOutside s r f f' := fun y hy =>
  P.frame y fun z hz hzy => hy (L.strict T (L.tops kids z hz) hzy)

theorem kept (hx : x ∈ s.children r) (ne : x ≠ q) (out : x ∉ l) : f' x = f x := by
  refine P.frame x fun z hz h => ?_
  have hzx : z ≠ x := by
    rintro rfl
    rcases mem_cons.mp hz with rfl | hz
    · exact ne rfl
    · exact out hz
  exact L.disjoint T (L.tops kids z hz) hx hzx x h .refl

end Pushed

section Runs

variable (L : Level s r q pre post) (T : s.IsTree origin) [DecidableEq H] {share : Nat → List Nat → Nat → Nat}
  {ctx : ReindexOperationContext H}

include L T

section

variable (small : room → s.nodes.length < U64_BOUND) (off : SeatedOff s allocation f) (S : Shrunk s side o q f f₁)
  (here : At s slack f₁ ctx) (hr : ¬ s.Above allocation r)
include small off S here hr

/-- A level without the block that needs room. -/
theorem level_runs (free : ∀ x ∈ side.outward pre post, Disjoint s x allocation)
    (bound : room → (f r).stop + 1 < U64_BOUND) :
    (side.offsetSiblings share ctx allocation q o).Runs room bad fun ctx' =>
      ∃ f', At s slack f' ctx' ∧ SeatedOff s allocation f' ∧ SameOutside s r f f' ∧
        gap s side f' r = gap s side f r + o := by
  rw [Side.offsetSiblings_eq L T here]
  have kids : ∀ x ∈ side.outward pre post, x ∈ s.children r := fun x hx => L.outward_children hx
  have row := L.row (off r L.mem hr)
  refine (L.shift_runs T S small off here hr bound (append_nil _).symm free).mono fun ctx' h => ?_
  obtain ⟨f', here', A⟩ := h
  have P := L.pushed T S A kids fun x hx => L.outward_ne T hx
  have own : f' r = f r := P.outside L T kids r fun h => h.2 rfl
  have seatedR : (s.withIntervals f').Seated r := by
    show Row (starts f') (ends f') (f' r).start (f' r).stop (s.children r)
    rw [own, L.children]
    have nodup := L.nodup T
    have nonempty := P.nonempty
    cases side with
    | before =>
      obtain ⟨hs, he⟩ := P.shrunk
      refine row_cut row (fun y hy => .up (P.moved y (mem_reverse.mpr hy))) (by omega) (by omega) (by omega)
        fun right => ?_
      refine row_slide right (fun y hy => .of_eq ?_) (by unfold ends; omega) (by omega)
      refine P.kept L T kids (L.post_child hy) ?_ ?_ <;> grind [Side.outward]
    | after =>
      obtain ⟨hs, he⟩ := P.shrunk
      refine row_cut row (fun y hy => .of_eq ?_) (by omega) (by omega) (by omega) fun right => ?_
      · refine P.kept L T kids (L.pre_child hy) ?_ ?_ <;> grind [Side.outward]
      · exact row_slide right (fun y hy => .down (P.moved y hy)) (by unfold ends; omega) (by omega)
  refine ⟨f', here', fun x hx hax => ?_, P.outside L T kids, L.gap_shift (off r L.mem hr) seatedR own P.shrunk P.moved⟩
  exact L.reseat T (L.tops kids) P.frame P.seated seatedR off hx fun h => absurd h hax

/-- The level with the block that needs room: with an offset for its subtree everything is seated. -/
theorem allocate_runs (ha : allocation ∈ side.outward pre post)
    (large : s.weight allocation ≤ o) (bound : room → (f r).stop + 1 < U64_BOUND) :
    (side.offsetSiblings share ctx allocation q o).Runs room bad fun ctx' =>
      ∃ f', At s slack f' ctx' ∧ (∀ x ∈ s.nodes, (s.withIntervals f').Seated x) ∧ SameOutside s r f f' := by
  rw [Side.offsetSiblings_eq L T here]
  obtain ⟨l, l', parts⟩ := append_of_mem ha
  have hak := L.outward_children ha
  have ham := T.child_mem L.mem hak
  have haq := L.outward_ne T ha
  have pos := Links.weight_pos ham
  have row := L.row (off r L.mem hr)
  have inRow := Row.mem row (L.children ▸ hak)
  have nodup : (l ++ allocation :: l').Nodup := parts ▸ L.outward_nodup T
  have fresh : allocation ∉ l := fun h => (nodup_append.mp nodup).2.2 allocation h allocation mem_cons_self rfl
  have sub : ∀ x ∈ l, x ∈ side.outward pre post := fun x hx => parts ▸ mem_append_left _ hx
  have kids : ∀ x ∈ l, x ∈ s.children r := fun x hx => L.outward_children (sub x hx)
  have ne : ∀ x ∈ l, x ≠ allocation := fun x hx => ne_of_mem_of_not_mem hx fresh
  rw [parts, offsetSiblings_append fresh]
  refine (L.shift_runs T S small off here hr bound parts fun x hx => L.disjoint T (kids x hx) hak (ne x hx)).bind
    fun ctx' _ h => ?_
  obtain ⟨f₂, here₂, A⟩ := h
  have P := L.pushed T S A kids fun x hx => L.outward_ne T (sub x hx)
  have old : f₂ allocation = f allocation := P.kept L T kids hak haq fresh
  have hop : (side.grow (f₂ allocation) o : Reach H Interval).Runs room bad (side.Grows o (f allocation)) := by
    rw [old]
    refine Side.grow_runs (fun hs hroom => ?_) fun hs hroom => ?_
    · have := (L.shift_bound T S row (bound hroom) ha).1 hs
      omega
    · exact ((L.shift_bound T S row (bound hroom) ha).2 hs).1
  refine (applyAndPropagate_runs T small ham here₂ hop fun hroom i hi => ?_).mono fun ctx'' h => ?_
  · refine ⟨(Side.Grows.fits hi large pos inRow.2.1).1, ?_⟩
    have bounds := L.shift_bound T S row (bound hroom) ha
    cases side with
    | before =>
      have := bounds.1 rfl
      have := hi.2
      omega
    | after =>
      have := (bounds.2 rfl).2
      have := hi.2
      omega
  obtain ⟨f₃, here₃, M⟩ := h
  -- all that was touched: the block that was given room, the chain block and the siblings between them
  have inside : ∀ z ∈ allocation :: q :: l, z ∈ s.children r := forall_mem_cons.mpr ⟨hak, L.tops kids⟩
  have same : ∀ y, (∀ z ∈ allocation :: q :: l, ¬ s.Above z y) → f₃ y = f y := by
    intro y hy
    obtain ⟨hay, hy⟩ := forall_mem_cons.mp hy
    rw [M.frame y hay, P.frame y hy]
  have late : ∀ z ∈ q :: l, ∀ y, s.Above z y → f₃ y = f₂ y := by
    intro z hz y hzy
    refine M.frame y fun hay => ?_
    refine L.disjoint T (L.tops kids z hz) hak ?_ y hzy hay
    rcases mem_cons.mp hz with rfl | hz
    · exact haq.symm
    · exact ne z hz
  have outside : SameOutside s r f f₃ := fun y hy =>
    same y fun z hz hzy => hy (L.strict T (inside z hz) hzy)
  have own : f₃ r = f r := outside r fun h => h.2 rfl
  have kept : ∀ x ∈ s.children r, x ≠ q → x ≠ allocation → x ∉ l → f₃ x = f x := by
    intro x hx hxq hxa hxl
    rw [M.frame x fun h => L.disjoint T hak hx (Ne.symm hxa) x h .refl]
    exact P.kept L T kids hx hxq hxl
  have shrunk : side.Shrinks o (f q) (f₃ q) := by
    rw [late q mem_cons_self q .refl]
    exact P.shrunk
  have nonempty : (f₃ q).start ≤ (f₃ q).stop := by
    rw [late q mem_cons_self q .refl]
    exact P.nonempty
  have moved : ∀ x ∈ l, side.Shifts o (f x) (f₃ x) := by
    intro x hx
    rw [late x (mem_cons_of_mem q hx) x .refl]
    exact P.moved x hx
  have seatedR : (s.withIntervals f₃).Seated r := by
    show Row (starts f₃) (ends f₃) (f₃ r).start (f₃ r).stop (s.children r)
    rw [own, L.children]
    -- the other siblings were not touched, since the children are distinct
    have apart := L.nodup T
    have filled : (f allocation).start ≤ (f allocation).stop + 1 := inRow.2.1
    cases side with
    | before =>
      have hpre : pre = l'.reverse ++ allocation :: l.reverse := by
        have := congrArg reverse parts
        simpa [Side.outward] using this
      subst hpre
      obtain ⟨hs, he⟩ := shrunk
      obtain ⟨gs, ge⟩ := M.self
      rw [append_assoc, cons_append] at row ⊢
      refine row_cut row (fun x hx => .of_eq ?_) (by omega) (by omega) (by omega) fun right => ?_
      · have child := L.pre_child (mem_append_left _ hx)
        refine kept x child ?_ ?_ ?_ <;> grind
      refine row_cut right (fun x hx => .up (moved x (mem_reverse.mp hx))) (by unfold ends; omega) (by omega)
        (by omega) fun right => ?_
      refine row_slide right (fun x hx => .of_eq ?_) (by unfold ends; omega) (by omega)
      refine kept x (L.post_child hx) ?_ ?_ ?_ <;> grind
    | after =>
      have hpost : post = l ++ allocation :: l' := parts
      subst hpost
      obtain ⟨hs, he⟩ := shrunk
      obtain ⟨gs, ge⟩ := M.self
      refine row_cut row (fun x hx => .of_eq ?_) (by omega) (by omega) (by omega) fun right => ?_
      · refine kept x (L.pre_child hx) ?_ ?_ ?_ <;> grind
      refine row_cut right (fun x hx => .down (moved x hx)) (by unfold ends; omega) (by omega) (by omega)
        fun right => ?_
      refine row_slide right (fun x hx => .of_eq ?_) (by unfold ends; omega) (by omega)
      have child := L.post_child (mem_append_right l (mem_cons_of_mem allocation hx))
      refine kept x child ?_ ?_ ?_ <;> grind
  refine ⟨f₃, here₃, fun x hx => ?_, outside⟩
  refine L.reseat T inside same (forall_mem_cons.mpr ⟨?_, fun z hz => ?_⟩) seatedR off hx fun h => ?_
  · exact M.seated_all fun i hi => (Side.Grows.fits hi large pos inRow.2.1).2
  · exact SubtreeSeated.congr T (P.seated z hz) (late z hz)
  · exact ⟨allocation, mem_cons_self, h⟩

end

end Runs

end ReindexOperationContext

end Firecash
