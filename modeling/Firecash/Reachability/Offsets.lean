import Firecash.Reachability.Propagate

/-!
# Moving blocks

The steps that a reclaim is made of: a block is given a changed interval and its subtree is refilled
(`applyAndPropagate_runs`), and the siblings on one side of a block are moved by an offset, up to the
block that is given the room (`offsetSiblings_runs`). A step is described by the intervals it leaves; the
links, and so the weights, stay.
-/

namespace Firecash

open List Function

open Checked (U64_BOUND)
open IntervalRow ReachabilityStore

namespace ReindexOperationContext

variable {H : Type} {s : ReachabilityStore H} {f f' : H → Interval} {origin x y : H} {room : Prop}
  {bad : ReachabilityError H → Prop} {slack offset : Nat} {ctx : ReindexOperationContext H}
  {share : Nat → List Nat → Nat → Nat}

section Moves

variable [DecidableEq H]

/-- The context has the links of `s`, the intervals `f` and right sizes. -/
def At (s : ReachabilityStore H) (slack : Nat) (f : H → Interval) (ctx : ReindexOperationContext H) : Prop :=
  ∃ sizes, ctx = ⟨s.withIntervals f, sizes, slack⟩ ∧ Counted s sizes

section At

variable (here : At s slack f ctx)

include here

omit [DecidableEq H] in
theorem At.store_eq : ctx.store = s.withIntervals f := by
  obtain ⟨sizes, rfl, _⟩ := here
  rfl

omit [DecidableEq H] in
theorem At.slack_eq : ctx.slack = slack := by
  obtain ⟨sizes, rfl, _⟩ := here
  rfl

theorem At.getInterval (hx : x ∈ s.nodes) : ctx.store.getInterval x = .ok (f x) := by
  rw [here.store_eq]
  exact getInterval_of_mem hx

theorem At.chainParent {p : H} (hx : x ∈ s.nodes) (hp : s.parent x = some p) : ctx.store.chainParent x = .ok p := by
  rw [here.store_eq]
  exact chainParent_of_parent hx hp

end At

section Stays

variable (T : s.IsTree origin)

/-- The blocks of a subtree are seated. -/
abbrev SubtreeSeated (s : ReachabilityStore H) (x : H) (f : H → Interval) : Prop :=
  ∀ y ∈ s.nodes, s.Above x y → (s.withIntervals f).Seated y

/-- Nothing changed but what is strictly below a block. -/
abbrev SameOutside (s : ReachabilityStore H) (x : H) (f f' : H → Interval) : Prop :=
  ∀ y, ¬ (s.Above x y ∧ y ≠ x) → f' y = f y

theorem update_outside (out : ¬ s.Above x y) (i : Interval) : update f x i y = f y := by
  refine update_of_ne ?_ _ _
  rintro rfl
  exact out .refl

include T

omit [DecidableEq H] in
theorem SubtreeSeated.congr (seated : SubtreeSeated s x f) (same : ∀ y, s.Above x y → f' y = f y) :
    SubtreeSeated s x f' :=
  fun y hy hxy => (seated y hy hxy).congr rfl (same y hxy) fun c hc => same c (hxy.trans (T.child_above hy hc))

omit [DecidableEq H] in
theorem SameOutside.seated (same : SameOutside s x f f') (hy : y ∈ s.nodes) (out : ¬ s.Above x y)
    (seated : (s.withIntervals f).Seated y) : (s.withIntervals f').Seated y := by
  refine seated.congr rfl (same y fun h => out h.1) fun c hc => same c fun h => ?_
  exact out (h.1.of_ne (Ne.symm h.2) (T.child_parent hy hc))

omit [DecidableEq H] in
theorem SameOutside.top (same : SameOutside s x f f') (hx : x ∈ s.nodes) : f' origin = f origin :=
  same origin fun h => h.2 (T.antisymm h.1 (T.root_above hx) T.root_mem).symm

end Stays

/-- What a block and its subtree have after a move: the interval of the block satisfies `good`, the rest
of the subtree is seated in it, and nothing else changed. -/
structure Moved (s : ReachabilityStore H) (x : H) (good : Interval → Prop) (f f' : H → Interval) : Prop where
  frame : ∀ y, ¬ s.Above x y → f' y = f y
  self : good (f' x)
  seated : ∀ y ∈ s.nodes, s.Above x y → y ≠ x → (s.withIntervals f').Seated y
  inner : s.children x ≠ [] → (s.withIntervals f').Seated x

variable {good : Interval → Prop}

theorem Moved.seated_all (M : Moved s x good f f') (nonempty : ∀ i, good i → i.start ≤ i.stop) :
    SubtreeSeated s x f' := by
  intro y hy hxy
  by_cases hyx : y = x
  · subst hyx
    by_cases leaf : s.children y = []
    · show Row _ _ (f' y).start (f' y).stop (s.children y)
      rw [leaf]
      exact nonempty _ M.self
    · exact M.inner leaf
  · exact M.seated y hy hxy hyx

variable {op : IntervalOp H}

theorem applyIntervalOp_runs (hx : x ∈ s.nodes) (here : At s slack f ctx)
    (hop : (op (f x) offset).Runs room bad good) :
    (ctx.applyIntervalOp x offset op).Runs room bad fun ctx' =>
      ∃ i, good i ∧ At s slack (update f x i) ctx' := by
  obtain ⟨sizes, rfl, counted⟩ := here
  refine .step (getInterval_of_mem hx) ?_
  refine Except.Runs.bind hop fun i _ hi => ?_
  refine .step (setInterval_of_mem hx) ?_
  exact ⟨i, hi, sizes, rfl, counted⟩

section

variable (T : s.IsTree origin) (small : room → s.nodes.length < U64_BOUND) (hx : x ∈ s.nodes) (here : At s slack f ctx)
include T small hx here

/-- A refill of the subtree of `x`, whose interval is given. -/
theorem propagate_runs (fits : room → (f x).start + s.weight x ≤ (f x).stop + 1 ∧ (f x).stop + 1 < U64_BOUND) :
    (ctx.propagateInterval share x).Runs room bad fun ctx' =>
      ∃ f', At s slack f' ctx' ∧ Moved s x (fun i => i = f x) f f' := by
  obtain ⟨sizes, rfl, counted⟩ := here
  refine (propagateInterval_runs share ⟨s.withIntervals f, sizes, slack⟩ T small counted hx fits).mono fun ctx' h => ?_
  obtain ⟨f', sizes', rfl, counted', filled⟩ := h
  refine ⟨f', ⟨sizes', rfl, counted'⟩, fun y hy => ?_, ?_, ?_, ?_⟩
  · exact filled.frame y fun h => hy h.1
  · exact filled.frame x fun h => h.2 rfl
  · exact fun y hy hxy ne => filled.seated y hy hxy ne
  · exact filled.self

omit here in
/-- A refill after the interval of `x` was set. -/
theorem refill_runs {i : Interval} (set : At s slack (update f x i) ctx)
    (fits : room → i.start + s.weight x ≤ i.stop + 1 ∧ i.stop + 1 < U64_BOUND) :
    (ctx.propagateInterval share x).Runs room bad fun ctx' => ∃ f', At s slack f' ctx' ∧ Moved s x (· = i) f f' := by
  refine (propagate_runs T small hx set fun hr => ?_).mono fun ctx' h => ?_
  · rw [update_self]
    exact fits hr
  · obtain ⟨f', here', M⟩ := h
    refine ⟨f', here', fun y hy => ?_, ?_, M.seated, M.inner⟩
    · rw [M.frame y hy, update_outside hy]
    · rw [M.self, update_self]

theorem applyAndPropagate_runs (hop : (op (f x) offset).Runs room bad good)
    (fits : room → ∀ i, good i → i.start + s.weight x ≤ i.stop + 1 ∧ i.stop + 1 < U64_BOUND) :
    (ctx.applyIntervalOpAndPropagate share x offset op).Runs room bad fun ctx' =>
      ∃ f', At s slack f' ctx' ∧ Moved s x good f f' := by
  refine (applyIntervalOp_runs hx here hop).bind fun ctx' _ h => ?_
  obtain ⟨i, hi, here'⟩ := h
  refine (refill_runs T small hx here' fun hr => fits hr i hi).mono fun ctx'' h => ?_
  obtain ⟨f', at', M⟩ := h
  exact ⟨f', at', M.frame, M.self ▸ hi, M.seated, M.inner⟩

end

end Moves

/-! ## The two sides -/

namespace Side

def grow : Side → IntervalOp H
  | before => Interval.increaseEnd
  | after => Interval.decreaseStart

def shift : Side → IntervalOp H
  | before => Interval.increase
  | after => Interval.decrease

/-- `j` is `i` moved away from the side. -/
def Shifts (side : Side) (o : Nat) (i j : Interval) : Prop :=
  match side with
  | before => j.start = i.start + o ∧ j.stop = i.stop + o
  | after => j.start + o = i.start ∧ j.stop + o = i.stop

/-- `j` is `i` with more room on the inner end. -/
def Grows (side : Side) (o : Nat) (i j : Interval) : Prop :=
  match side with
  | before => j.start = i.start ∧ j.stop = i.stop + o
  | after => j.start + o = i.start ∧ j.stop = i.stop

/-- `j` is `i` without its part on the side. -/
def Shrinks (side : Side) (o : Nat) (i j : Interval) : Prop :=
  match side with
  | before => j.start = i.start + o ∧ j.stop = i.stop
  | after => j.start = i.start ∧ j.stop + o = i.stop

variable {side : Side} {o : Nat} {i j : Interval}

theorem Shifts.nonempty (h : side.Shifts o i j) (hi : i.start ≤ i.stop) : j.start ≤ j.stop := by
  cases side with
  | before =>
    obtain ⟨h1, h2⟩ := h
    omega
  | after =>
    obtain ⟨h1, h2⟩ := h
    omega

theorem Grows.fits {n : Nat} (h : side.Grows o i j) (large : n ≤ o) (pos : 0 < n) (hi : i.start ≤ i.stop + 1) :
    j.start + n ≤ j.stop + 1 ∧ j.start ≤ j.stop := by
  cases side with
  | before =>
    obtain ⟨h1, h2⟩ := h
    omega
  | after =>
    obtain ⟨h1, h2⟩ := h
    omega

theorem shift_runs (up : side = before → room → i.start ≤ i.stop ∧ i.stop + o < U64_BOUND)
    (down : side = after → room → o ≤ i.start ∧ o ≤ i.stop) :
    (side.shift i o : Reach H Interval).Runs room bad (side.Shifts o i) := by
  cases side with
  | before =>
    refine (U64.add_runs fun hr => ?_).bind fun start _ hs => ?_
    · have := up rfl hr
      omega
    refine (U64.add_runs fun hr => (up rfl hr).2).bind fun stop _ hp => ?_
    exact ⟨hs.1, hp.1⟩
  | after =>
    refine (U64.sub_runs fun hr => (down rfl hr).1).bind fun start _ hs => ?_
    refine (U64.sub_runs fun hr => (down rfl hr).2).bind fun stop _ hp => ?_
    exact ⟨hs, hp⟩

theorem grow_runs (up : side = before → room → i.stop + o < U64_BOUND) (down : side = after → room → o ≤ i.start) :
    (side.grow i o : Reach H Interval).Runs room bad (side.Grows o i) := by
  cases side with
  | before => exact (U64.add_runs fun hr => up rfl hr).bind fun stop _ hp => ⟨rfl, hp.1⟩
  | after => exact (U64.sub_runs fun hr => down rfl hr).bind fun start _ hs => ⟨hs, rfl⟩

theorem shrink_runs (up : side = before → room → i.start + o < U64_BOUND) (down : side = after → room → o ≤ i.stop) :
    (side.shrink i o : Reach H Interval).Runs room bad (side.Shrinks o i) := by
  cases side with
  | before => exact (U64.add_runs fun hr => up rfl hr).bind fun start _ hs => ⟨hs.1, rfl⟩
  | after => exact (U64.sub_runs fun hr => down rfl hr).bind fun stop _ hp => ⟨rfl, hp⟩

end Side

/-! ## Siblings -/

variable [DecidableEq H] {side : Side} {l : List H} {allocation : H}

/-- What blocks with disjoint subtrees have after they were all moved. -/
structure ShiftedAll (s : ReachabilityStore H) (side : Side) (offset : Nat) (l : List H) (f f' : H → Interval) :
    Prop where
  frame : ∀ y, (∀ x ∈ l, ¬ s.Above x y) → f' y = f y
  moved : ∀ x ∈ l, side.Shifts offset (f x) (f' x)
  seated : ∀ x ∈ l, ∀ y ∈ s.nodes, s.Above x y → (s.withIntervals f').Seated y

/-- Subtrees do not share blocks. -/
def Disjoint (s : ReachabilityStore H) (x y : H) : Prop := ∀ z, s.Above x z → ¬ s.Above y z

theorem offsetSiblings_runs (T : s.IsTree origin) (small : room → s.nodes.length < U64_BOUND) (here : At s slack f ctx)
    (mem : ∀ x ∈ l, x ∈ s.nodes) (apart : l.Pairwise (Disjoint s)) (other : allocation ∉ l)
    (seated : ∀ x ∈ l, SubtreeSeated s x f)
    (up : side = .before → room → ∀ x ∈ l, (f x).stop + offset + 1 < U64_BOUND)
    (down : side = .after → room → ∀ x ∈ l, offset ≤ (f x).start ∧ (f x).stop + 1 < U64_BOUND) :
    (offsetSiblings share side.grow side.shift allocation offset ctx l).Runs room bad fun ctx' =>
      ∃ f', At s slack f' ctx' ∧ ShiftedAll s side offset l f f' := by
  induction l generalizing ctx f with
  | nil =>
    refine ⟨f, here, fun _ _ => rfl, ?_, ?_⟩
    · exact nofun
    · exact nofun
  | cons x l ih =>
    obtain ⟨hx, mem⟩ := forall_mem_cons.mp mem
    obtain ⟨first, apart⟩ := pairwise_cons.mp apart
    obtain ⟨seatedX, seated⟩ := forall_mem_cons.mp seated
    obtain ⟨ne, other⟩ : allocation ≠ x ∧ allocation ∉ l := by simpa using other
    unfold offsetSiblings
    rw [if_neg (Ne.symm ne)]
    have nonempty : (f x).start ≤ (f x).stop := (seatedX x hx .refl).nonempty
    have weight : (f x).start + s.weight x ≤ (f x).stop + 1 := weight_le_size (s := s.withIntervals f) T hx seatedX
    have hop : (side.shift (f x) offset : Reach H Interval).Runs room bad (side.Shifts offset (f x)) := by
      refine Side.shift_runs (fun hs hr => ⟨nonempty, ?_⟩) fun hs hr => ?_
      · have := up hs hr x mem_cons_self
        omega
      · have := down hs hr x mem_cons_self
        omega
    have fits : room → ∀ i, side.Shifts offset (f x) i → i.start + s.weight x ≤ i.stop + 1 ∧
        i.stop + 1 < U64_BOUND := by
      intro hr i hi
      cases side with
      | before =>
        have := up rfl hr x mem_cons_self
        obtain ⟨h1, h2⟩ := hi
        omega
      | after =>
        have := down rfl hr x mem_cons_self
        obtain ⟨h1, h2⟩ := hi
        omega
    refine (applyAndPropagate_runs T small hx here hop fits).bind fun ctx' _ h => ?_
    obtain ⟨f', here', M⟩ := h
    -- the other subtrees are as they were
    have kept : ∀ z ∈ l, ∀ y, s.Above z y → f' y = f y := fun z hz y hzy => M.frame y fun hxy => first z hz y hxy hzy
    have rest :=
      ih here' mem apart other (fun z hz => SubtreeSeated.congr T (seated z hz) (kept z hz)) (fun hs hr z hz =>
        ?_) (fun hs hr z hz => ?_)
    · refine rest.mono fun ctx'' h => ?_
      obtain ⟨f'', here'', S⟩ := h
      have keptX : ∀ y, s.Above x y → f'' y = f' y := fun y hxy => S.frame y fun z hz hzy => first z hz y hxy hzy
      refine ⟨f'', here'', fun y hy => ?_, ?_, ?_⟩
      · obtain ⟨hxy, hy⟩ := forall_mem_cons.mp hy
        rw [S.frame y hy, M.frame y hxy]
      · refine forall_mem_cons.mpr ⟨?_, fun z hz => ?_⟩
        · rw [keptX x .refl]
          exact M.self
        · rw [← kept z hz z .refl]
          exact S.moved z hz
      · have done := M.seated_all fun i hi => Side.Shifts.nonempty hi nonempty
        exact forall_mem_cons.mpr ⟨SubtreeSeated.congr T done keptX, S.seated⟩
    · rw [kept z hz z .refl]
      exact up hs hr z (mem_cons_of_mem x hz)
    · rw [kept z hz z .refl]
      exact down hs hr z (mem_cons_of_mem x hz)

/-- The loop ends at the block that is given the room. -/
theorem offsetSiblings_append {l' : List H} {grow shift : IntervalOp H} (other : allocation ∉ l) :
    offsetSiblings share grow shift allocation offset ctx (l ++ allocation :: l') =
      offsetSiblings share grow shift allocation offset ctx l >>= fun ctx =>
        ctx.applyIntervalOpAndPropagate share allocation offset grow := by
  induction l generalizing ctx with
  | nil =>
    show (if allocation = allocation then _ else _) = _
    rw [if_pos rfl]
    rfl
  | cons x l ih =>
    obtain ⟨ne, other⟩ : allocation ≠ x ∧ allocation ∉ l := by simpa using other
    rw [cons_append]
    unfold offsetSiblings
    rw [if_neg (Ne.symm ne), if_neg (Ne.symm ne), bind_assoc]
    refine congrArg _ (funext fun ctx' => ?_)
    exact ih other

end ReindexOperationContext

end Firecash
