import Firecash.Reachability.Levels

/-!
# Reclaiming gaps along the chain to the reindex root

The chain from the child of the common ancestor to the reindex root is walked up while its gaps do not
suffice, and down again while the room is handed on. `Owing` is the account on the way down: the gaps of
the blocks that are left hold what is required and the gap each of them keeps, so the last one can give
exactly what is required to the block next to it (`reclaimInterval_runs`).
-/

namespace Firecash

open List Option Function Firecash.Interval

open Checked (U64_BOUND)
open IntervalRow ReachabilityStore

namespace ReindexOperationContext

variable {H : Type} {s : ReachabilityStore H} {f f₁ f' : H → Interval} {origin allocation common chosen q r x y : H}
  {room : Prop} {bad : ReachabilityError H → Prop} {slack o : Nat} {side : Side}

/-! ## Gaps -/

theorem gap_congr (own : f' x = f x) (same : ∀ c ∈ s.children x, f' c = f c) : gap s side f' x = gap s side f x := by
  unfold gap
  cases side with
  | before =>
    cases hc : (s.children x).head? with
    | none => rw [own]; rfl
    | some c =>
      simp only [elim_some]
      unfold starts
      rw [own, same c (mem_of_head? hc)]
  | after =>
    cases hc : (s.children x).getLast? with
    | none => rw [own]; rfl
    | some c =>
      simp only [elim_some]
      unfold ends
      rw [own, same c (mem_of_getLast? hc)]

section Inner

variable (row : (s.withIntervals f).Seated x) (inner : s.children x ≠ [])

include row inner

theorem gap_fits (le : o ≤ gap s side f x) : o ≤ (f x).stop ∧ (f x).start + o ≤ (f x).stop := by
  cases side with
  | before =>
    obtain ⟨c, l, eq⟩ := exists_cons_of_ne_nil inner
    have first := gap_before_eq row eq
    have inside : _ ∧ (f c).start ≤ (f c).stop + 1 ∧ (f c).stop + 1 ≤ (f x).stop := Row.mem row (eq ▸ mem_cons_self)
    omega
  | after =>
    obtain ⟨l, c, eq⟩ := (eq_nil_or_concat' _).resolve_left inner
    have last := gap_after_eq row eq
    have inside : (f x).start ≤ (f c).start ∧ (f c).start ≤ (f c).stop + 1 ∧ _ := Row.mem row (eq ▸ mem_concat_self)
    omega

/-- The children fit into the interval without a part of the gap. -/
theorem row_of_gap (le : o ≤ gap s side f x) {i : Interval} (shrunk : side.Shrinks o (f x) i) :
    Row (starts f) (ends f) i.start i.stop (s.children x) := by
  cases side with
  | before =>
    obtain ⟨c, l, eq⟩ := exists_cons_of_ne_nil inner
    have first := gap_before_eq row eq
    have row : Row (starts f) (ends f) (f x).start (f x).stop (s.children x) := row
    obtain ⟨hs, he⟩ := shrunk
    rw [hs, he]
    rw [eq] at row ⊢
    refine ⟨?_, row.2⟩
    unfold starts
    omega
  | after =>
    obtain ⟨l, c, eq⟩ := (eq_nil_or_concat' _).resolve_left inner
    have last := gap_after_eq row eq
    obtain ⟨hs, he⟩ := shrunk
    rw [hs]
    refine Row.shorten row (eq ▸ getLast?_concat) ?_
    unfold ends
    omega

end Inner

theorem SeatedOff.subset (off : SeatedOff s allocation f) (T : s.IsTree origin) (hx : x ∈ s.nodes)
    (hax : s.Above allocation x → allocation = x) (h : s.Above y x) :
    (f y).start ≤ (f x).start ∧ (f x).stop ≤ (f y).stop := by
  have sub := interval_subset (s := s.withIntervals f) T h hx fun z _ hzx ne => by
    refine off z (T.above_mem hzx hx) fun haz => ?_
    have := hax (haz.trans hzx)
    subst this
    exact ne (T.antisymm hzx haz hx)
  exact ⟨sub.1, sub.2.1⟩

/-- Whatever is not strictly below the block that needs room has 64-bit numbers. -/
theorem SeatedOff.bounds (off : SeatedOff s allocation f) (T : s.IsTree origin) (hO : f origin = maximal)
    (hx : x ∈ s.nodes)
    (hax : s.Above allocation x → allocation = x) : 1 ≤ (f x).start ∧ (f x).stop + 1 < U64_BOUND := by
  have sub := off.subset T hx hax (T.root_above hx)
  rw [hO] at sub
  simp only [maximal] at sub
  unfold U64_BOUND
  omega

section Gap

variable [DecidableEq H] {ctx : ReindexOperationContext H}

theorem remaining_runs (T : s.IsTree origin) (here : At s slack f ctx) (hx : x ∈ s.nodes)
    (seated : (s.withIntervals f).Seated x)
    (inner : s.children x ≠ []) (bound : room → 1 ≤ (f x).start ∧ (f x).stop + 1 < U64_BOUND) :
    (side.remaining ctx.store x).Runs room bad fun i =>
      i.start + gap s side f x = i.stop + 1 ∧ (room → i.stop + 1 < U64_BOUND) := by
  obtain ⟨sizes, rfl, _⟩ := here
  have capacity : ((s.withIntervals f).intervalChildrenCapacity x).Runs room bad fun i =>
      i.start = (f x).start ∧ i.stop + 1 = (f x).stop := by
    refine intervalChildrenCapacity_runs hx fun _ => ?_
    obtain ⟨c, hc⟩ := exists_mem_of_ne_nil _ inner
    exact (Nat.le_add_left 1 _).trans (Row.mem seated hc).2.2
  cases side with
  | before =>
    obtain ⟨c, l, eq⟩ := exists_cons_of_ne_nil inner
    have first := gap_before_eq seated eq
    have inside : _ ∧ (f c).start ≤ (f c).stop + 1 ∧ (f c).stop + 1 ≤ (f x).stop := Row.mem seated (eq ▸ mem_cons_self)
    refine capacity.bind fun i _ hi => ?_
    refine .step (getChildren_of_mem hx) ?_
    simp only [show (s.withIntervals f).children x = c :: l from eq, head?_cons]
    refine .step (getInterval_of_mem (T.child_mem hx (eq ▸ mem_cons_self))) ?_
    refine (U64.sub_runs fun hr => ?_).bind fun stop _ (hstop : stop + 1 = (f c).start) => ⟨?_, fun hr => ?_⟩
    · have := bound hr
      show 1 ≤ (f c).start
      omega
    · show i.start + gap s .before f x = stop + 1
      omega
    · have := bound hr
      show stop + 1 < U64_BOUND
      omega
  | after =>
    obtain ⟨l, c, eq⟩ := (eq_nil_or_concat' _).resolve_left inner
    have last := gap_after_eq seated eq
    refine capacity.bind fun i _ hi => ?_
    refine .step (getChildren_of_mem hx) ?_
    simp only [show (s.withIntervals f).children x = l ++ [c] from eq, getLast?_concat]
    refine .step (getInterval_of_mem (T.child_mem hx (eq ▸ mem_concat_self))) ?_
    refine (U64.add_runs fun hr => ?_).bind fun start _ hstart => ⟨?_, fun hr => ?_⟩
    · have := bound hr
      show (f c).stop + 1 < U64_BOUND
      omega
    · have hstart : start = (f c).stop + 1 := hstart.1
      show start + gap s .after f x = i.stop + 1
      omega
    · have := bound hr
      show i.stop + 1 < U64_BOUND
      omega

/-- A chain block is shrunk by no more than its gap: its subtree stays where it is. -/
theorem shrink_runs (T : s.IsTree origin) (here : At s slack f ctx) (hq : q ∈ s.nodes)
    (seated : SubtreeSeated s q f) (inner : s.children q ≠ []) (le : o ≤ gap s side f q)
    (bound : room → (f q).stop + 1 < U64_BOUND) :
    (ctx.applyIntervalOp q o side.shrink).Runs room bad fun ctx' => ∃ f₁, At s slack f₁ ctx' ∧
      Shrunk s side o q f f₁ := by
  have row := seated q hq .refl
  have fit := gap_fits row inner le
  have hop : (side.shrink (f q) o : Reach H Interval).Runs room bad (side.Shrinks o (f q)) := by
    refine Side.shrink_runs (fun _ hr => ?_) fun _ _ => fit.1
    have := bound hr
    omega
  refine (applyIntervalOp_runs hq here hop).mono fun ctx' h => ?_
  obtain ⟨i, hi, here'⟩ := h
  refine ⟨update f q i, here', fun y hy => update_outside hy i, ?_,
    SubtreeSeated.update T seated (row_of_gap row inner le hi)⟩
  rw [update_self]
  exact hi

/-- The reindex root is shrunk and refilled. -/
theorem shrink_root_runs {share : Nat → List Nat → Nat → Nat} (T : s.IsTree origin)
    (small : room → s.nodes.length < U64_BOUND)
    (here : At s slack f ctx) (hq : q ∈ s.nodes) (inner : s.children q ≠ [])
    (fits : room → (f q).start + o + s.weight q ≤ (f q).stop + 1 ∧ (f q).stop + 1 < U64_BOUND) :
    (ctx.applyIntervalOpAndPropagate share q o side.shrink).Runs room bad fun ctx' =>
      ∃ f₁, At s slack f₁ ctx' ∧ Shrunk s side o q f f₁ := by
  have hop : (side.shrink (f q) o : Reach H Interval).Runs room bad (side.Shrinks o (f q)) := by
    refine Side.shrink_runs (fun _ hr => ?_) fun _ hr => ?_
    · have := fits hr
      omega
    · have := fits hr
      have := Links.weight_pos hq
      omega
  refine (applyAndPropagate_runs T small hq here hop fun hr i hi => ?_).mono fun ctx' h => ?_
  · have := fits hr
    cases side with
    | before =>
      obtain ⟨h1, h2⟩ := hi
      omega
    | after =>
      obtain ⟨h1, h2⟩ := hi
      omega
  · obtain ⟨f₁, here₁, M⟩ := h
    refine ⟨f₁, here₁, M.frame, M.self, fun y hy hqy => ?_⟩
    by_cases hyq : y = q
    · exact hyq ▸ M.inner inner
    · exact M.seated y hy hqy hyq

end Gap

/-! ## The chain -/

/-- Two children of the common ancestor: the one on the chain, and on one side of it the one that needs room. -/
structure Setting (s : ReachabilityStore H) (side : Side) (allocation common chosen : H) (pre post : List H) :
    Prop where
  level : Level s common chosen pre post
  mem : allocation ∈ side.outward pre post

/-- Blocks of the chain, each with its parent next, down to the child of the common ancestor. -/
def Ladder (s : ReachabilityStore H) (common : H) : List H → Prop
  | [] => True
  | q :: rest => q ∈ s.nodes ∧ s.parent q = some (rest.headD common) ∧ Ladder s common rest

section Chain

variable {pre post rest : List H} (C : Setting s side allocation common chosen pre post) (T : s.IsTree origin)

include C

theorem Setting.allocation_child : allocation ∈ s.children common := C.level.outward_children C.mem

include T

theorem Setting.free (h : s.Above chosen q) : Disjoint s q allocation := by
  intro z hqz haz
  exact C.level.disjoint T C.level.q_mem_children C.allocation_child (C.level.outward_ne T C.mem).symm z
    (h.trans hqz) haz

theorem Setting.not_below (h : s.Above chosen q) : ¬ s.Above allocation q := fun ha => C.free T h q .refl ha

theorem Setting.not_below_common : ¬ s.Above allocation common :=
  T.not_above_of_child C.level.mem C.allocation_child

theorem Setting.ne_common (h : s.Above chosen q) : q ≠ common := by
  rintro rfl
  exact T.not_above_of_child C.level.mem C.level.q_mem_children h

/-- A block of the chain whose parent is the common ancestor is the chosen child. -/
theorem Setting.eq_chosen (h : s.Above chosen q) (hp : s.parent q = some common) : q = chosen := by
  by_contra ne
  exact T.not_above_of_child C.level.mem C.level.q_mem_children (h.of_ne (Ne.symm ne) hp)

omit C in
theorem Ladder.length_lt (L : Ladder s common (q :: rest)) : (q :: rest).length + s.weight q ≤ s.weight common := by
  induction rest generalizing q with
  | nil =>
    have lighter : s.weight q < s.weight common := T.weight_lt_of_parent L.1 L.2.1
    simp only [length_cons, length_nil]
    omega
  | cons r rest ih =>
    have lighter : s.weight q < s.weight r := T.weight_lt_of_parent L.1 L.2.1
    have := ih L.2.2
    simp only [length_cons] at this ⊢
    omega

omit C in
theorem Ladder.above (L : Ladder s common (q :: rest)) (hy : y ∈ rest) : s.Above y q ∧ y ≠ q := by
  induction rest generalizing q with
  | nil => cases hy
  | cons r rest ih =>
    obtain ⟨hqm, parent, lower⟩ := L
    have hrm : r ∈ s.nodes := T.parent_mem hqm parent
    have hqr : q ∈ s.children r := T.mem_children_of_parent hqm parent
    rcases mem_cons.mp hy with rfl | hy
    · exact ⟨.of_parent parent, (T.child_ne hrm hqr).symm⟩
    · obtain ⟨above, _⟩ := ih lower hy
      refine ⟨.step parent above, ?_⟩
      rintro rfl
      exact T.not_above_of_child hrm hqr above

omit C in
theorem Ladder.short (L : Ladder s common (q :: rest)) : rest.length + 1 ≤ s.nodes.length :=
  (Nat.le_of_add_right_le (L.length_lt T)).trans Links.weight_le_length

theorem Setting.seated (off : SeatedOff s allocation f) (h : s.Above chosen q) : SubtreeSeated s q f :=
  fun y hy hqy => off y hy fun ha => C.free T h y hqy ha

theorem Setting.bounds (off : SeatedOff s allocation f) (hO : f origin = maximal) (hq : q ∈ s.nodes)
    (h : s.Above chosen q) :
    1 ≤ (f q).start ∧ (f q).stop + 1 < U64_BOUND := off.bounds T hO hq fun ha => absurd ha (C.not_below T h)

theorem Setting.strict (h : s.Above chosen q) : s.Above common q ∧ q ≠ common :=
  ⟨(T.child_above C.level.mem C.level.q_mem_children).trans h, C.ne_common T h⟩

end Chain

/-! ## The way down -/

/-- The account of the blocks that are left: nothing is owed any more, or their gaps hold what is required
and what they keep. -/
def Owing (s : ReachabilityStore H) (side : Side) (allocation : H) (required kept : Nat) (rest : List H)
    (f : H → Interval) : Prop :=
  match rest with
  | [] => ∀ x ∈ s.nodes, (s.withIntervals f).Seated x
  | q :: rest => SeatedOff s allocation f ∧
      gap s side f q + (rest.map (gap s side f)).sum = required + kept * (rest.length + 1) ∧
      (rest.map (gap s side f)).sum ≤ required

section Down

variable [DecidableEq H] {share : Nat → List Nat → Nat → Nat} {ctx : ReindexOperationContext H} {pre post rest : List H}
  {required kept : Nat} (C : Setting s side allocation common chosen pre post) (T : s.IsTree origin)
  (small : room → s.nodes.length < U64_BOUND)

include C T small

/-- A shrunk chain block hands its offset on to the next block, or to the block that needs room. -/
theorem hand_runs (hO : f origin = maximal) (off : SeatedOff s allocation f) (ladder : Ladder s common (q :: rest))
    (below : ∀ x ∈ q :: rest, s.Above chosen x) (S : Shrunk s side o q f f₁) (here : At s slack f₁ ctx)
    (sum : (rest.map (gap s side f)).sum + o = required + kept * rest.length)
    (le : (rest.tail.map (gap s side f)).sum ≤ required) (large : s.weight allocation ≤ required) :
    (side.offsetSiblings share ctx allocation q o).Runs room bad fun ctx' =>
      ∃ f', At s slack f' ctx' ∧ Owing s side allocation required kept rest f' ∧ SameOutside s common f f' := by
  obtain ⟨hq, below⟩ := forall_mem_cons.mp below
  obtain ⟨hqm, parent, ladder⟩ := ladder
  cases rest with
  | nil =>
    obtain rfl := C.eq_chosen T hq parent
    have bound : room → (f common).stop + 1 < U64_BOUND := fun _ =>
      (off.bounds T hO C.level.mem fun h => absurd h (C.not_below_common T)).2
    have enough : s.weight allocation ≤ o := by
      simp only [map_nil, sum_nil, length_nil, Nat.mul_zero, Nat.add_zero, Nat.zero_add] at sum
      omega
    exact allocate_runs C.level T small off S here (C.not_below_common T) C.mem enough bound
  | cons r rest =>
    obtain ⟨hr, _⟩ := forall_mem_cons.mp below
    have hrm := T.parent_mem hqm parent
    obtain ⟨pre', post', children⟩ := append_of_mem (T.mem_children_of_parent hqm parent)
    have L : Level s r q pre' post' := ⟨hrm, children⟩
    have bound : room → (f r).stop + 1 < U64_BOUND := fun _ => (C.bounds T off hO hrm hr).2
    have free : ∀ x ∈ side.outward pre' post', Disjoint s x allocation := fun x hx =>
      C.free T (hr.trans (T.child_above hrm (L.outward_children hx)))
    refine (level_runs L T small off S here (C.not_below T hr) free bound).mono fun ctx' h => ?_
    obtain ⟨f', here', off', frame, wider⟩ := h
    have gaps : rest.map (gap s side f') = rest.map (gap s side f) := by
      -- the blocks further down are above this level, and so are their children
      refine map_congr_left fun y hy => ?_
      obtain ⟨above, ne⟩ := ladder.above T hy
      have hym := T.above_mem above hrm
      refine gap_congr (frame y fun h => ?_) fun c hc => frame c fun h => ?_
      · exact h.2 (T.antisymm above h.1 hrm)
      · have hry := h.1.of_ne h.2.symm (T.child_parent hym hc)
        exact ne (T.antisymm above hry hrm)
    refine ⟨f', here', ⟨off', ?_, ?_⟩, fun y hy => frame y fun h => hy ?_⟩
    · rw [gaps, wider]
      simp only [map_cons, sum_cons, length_cons] at sum
      omega
    · rw [gaps]
      exact le
    · obtain ⟨above, _⟩ := C.strict T hr
      refine ⟨above.trans h.1, ?_⟩
      rintro rfl
      exact (C.strict T hr).2 (T.antisymm above h.1 hrm).symm

/-- **The way down**: what is owed is paid. -/
theorem reclaimDown_runs (large : s.weight allocation ≤ required) {current : H} {fuel : Nat} (hf : rest.length < fuel)
    (hO : f origin = maximal) (ladder : Ladder s common (current :: rest))
    (below : ∀ x ∈ current :: rest, s.Above chosen x) (here : At s slack f ctx)
    (owing : Owing s side allocation required kept rest f) :
    (reclaimDown share side allocation common kept fuel current ctx).Runs room bad fun ctx' =>
      ∃ f', At s slack f' ctx' ∧ (∀ x ∈ s.nodes, (s.withIntervals f').Seated x) ∧ SameOutside s common f f' := by
  induction fuel generalizing rest current f ctx with
  | zero => exact absurd hf (Nat.not_lt_zero _)
  | succ fuel ih =>
    obtain ⟨hcm, parent, lower⟩ := ladder
    have next : ctx.store.chainParent current = .ok (rest.headD common) := here.chainParent hcm parent
    refine .step next ?_
    cases rest with
    | nil =>
      show (if common = common then _ else _ : Reach H (ReindexOperationContext H)).Runs room bad _
      rw [if_pos rfl]
      exact ⟨f, here, owing, fun _ _ => rfl⟩
    | cons q rest =>
      obtain ⟨off, sum, le⟩ := owing
      obtain ⟨_, below⟩ := forall_mem_cons.mp below
      obtain ⟨hq, _⟩ := forall_mem_cons.mp below
      have hqm : q ∈ s.nodes := T.parent_mem hcm parent
      have inner : s.children q ≠ [] := ne_nil_of_mem (T.mem_children_of_parent hcm parent)
      have seated := C.seated T off hq
      have bound := C.bounds T off hO hqm hq
      show (if q = common then _ else _ : Reach H (ReindexOperationContext H)).Runs room bad _
      rw [if_neg (C.ne_common T hq)]
      refine (remaining_runs T here hqm (seated q hqm .refl) inner fun _ => bound).bind fun i _ hi => ?_
      refine (size_runs fun hr => ⟨by omega, hi.2 hr⟩).bind fun n _ hn => ?_
      obtain rfl : n = gap s side f q := by omega
      have covers : kept ≤ gap s side f q := by
        rw [Nat.mul_add, Nat.mul_one] at sum
        omega
      refine (U64.sub_runs fun _ => covers).bind fun o _ ho => ?_
      refine (shrink_runs T here hqm seated inner (by omega) fun _ => bound.2).bind fun ctx₁ _ h => ?_
      obtain ⟨f₁, here₁, S⟩ := h
      have sum' : (rest.map (gap s side f)).sum + o = required + kept * rest.length := by
        rw [Nat.mul_add, Nat.mul_one] at sum
        omega
      have le' : (rest.tail.map (gap s side f)).sum ≤ required := by
        refine Nat.le_trans ?_ le
        cases rest with
        | nil => exact Nat.le_refl _
        | cons r rest =>
          exact Nat.le_add_left _ _
      refine (hand_runs C T small hO off lower below S here₁ sum' le' large).bind fun ctx₂ _ h => ?_
      obtain ⟨f₂, here₂, owing₂, frame₂⟩ := h
      have hO₂ : f₂ origin = maximal := (SameOutside.top T frame₂ C.level.mem).trans hO
      refine (ih (Nat.lt_of_succ_lt_succ hf) hO₂ lower below here₂ owing₂).mono fun ctx₃ h => ?_
      obtain ⟨f₃, here₃, done, frame₃⟩ := h
      exact ⟨f₃, here₃, done, fun y hy => (frame₃ y hy).trans (frame₂ y hy)⟩

end Down

/-! ## The way up -/

section Up

variable [DecidableEq H] {share : Nat → List Nat → Nat → Nat} {ctx : ReindexOperationContext H} {pre post rest : List H}
  {required : Nat} {root : H} (C : Setting s side allocation common chosen pre post) (T : s.IsTree origin)
  (small : room → s.nodes.length < U64_BOUND) (hO : f origin = maximal) (off : SeatedOff s allocation f)
  (hroot : root ∈ s.nodes) (inner : s.children root ≠ [])
  (enough : room → (f root).start + required + slack * s.nodes.length + s.weight root ≤ (f root).stop + 1)
  (large : s.weight allocation ≤ required)

include C T small hO off hroot inner enough large

/-- **The way up**: it ends with an account for the blocks it passed. -/
theorem reclaimUp_runs {fuel slackSum : Nat} (hf : s.weight q ≤ fuel) (ladder : Ladder s common (q :: rest))
    (below : ∀ x ∈ q :: rest, s.Above chosen x) (hq : s.Above q root) (here : At s slack f ctx)
    (sum : (rest.map (gap s side f)).sum = slackSum) (less : slackSum < required) :
    (reclaimUp share side allocation root required fuel q slackSum rest.length ctx).Runs room bad fun next =>
      ∃ f' rest', At s slack f' next.1 ∧ Ladder s common (next.2.1 :: rest') ∧
        (∀ x ∈ next.2.1 :: rest', s.Above chosen x) ∧
        Owing s side allocation required next.2.2 rest' f' ∧ SameOutside s common f f' := by
  induction fuel generalizing q rest slackSum with
  | zero =>
    have := Links.weight_pos ladder.1
    omega
  | succ fuel ih =>
    have hqm := ladder.1
    obtain ⟨hcq, _⟩ := forall_mem_cons.mp below
    have seated := C.seated T off hcq
    have bound := C.bounds T off hO hqm hcq
    have le : (rest.tail.map (gap s side f)).sum ≤ required := by
      cases rest with
      | nil => exact Nat.zero_le _
      | cons r rest =>
        rw [map_cons, sum_cons] at sum
        rw [tail_cons]
        omega
    unfold reclaimUp
    by_cases top : q = root
    · -- the root gives what the gaps lack, and new gaps for the chain
      subst top
      rw [if_pos rfl]
      have short : rest.length ≤ s.nodes.length := (Nat.le_succ _).trans (ladder.short T)
      have scaled : slack * rest.length ≤ slack * s.nodes.length := Nat.mul_le_mul_left slack short
      rw [here.slack_eq]
      refine (U64.mul_runs fun hr => ?_).bind fun product _ hproduct => ?_
      · have := enough hr
        omega
      refine (U64.add_runs fun hr => ?_).bind fun wanted _ hwanted => ?_
      · have := enough hr
        omega
      refine (U64.sub_runs fun _ => by omega).bind fun o _ ho => ?_
      refine (shrink_root_runs T small here hqm inner fun hr => ?_).bind fun ctx₁ _ h => ?_
      · have := enough hr
        omega
      obtain ⟨f₁, here₁, S⟩ := h
      have sum' : (rest.map (gap s side f)).sum + o = required + slack * rest.length := by omega
      refine (hand_runs C T small hO off ladder below S here₁ sum' le large).bind fun ctx₂ _ h => ?_
      obtain ⟨f₂, here₂, owing, frame⟩ := h
      refine ⟨f₂, rest, here₂, ladder, below, ?_, frame⟩
      rw [here₂.slack_eq]
      exact owing
    · rw [if_neg top]
      obtain ⟨c, hc, hcr⟩ := T.exists_child hq hroot top
      have innerQ : s.children q ≠ [] := ne_nil_of_mem hc
      refine (remaining_runs T here hqm (seated q hqm .refl) innerQ fun _ => bound).bind fun i _ hi => ?_
      refine (size_runs fun hr => ⟨by omega, hi.2 hr⟩).bind fun n _ hn => ?_
      obtain rfl : n = gap s side f q := by omega
      have sub := off.subset T hroot (fun h => absurd h (C.not_below T (hcq.trans hq))) hcr
      have gapBound : room → slackSum + gap s side f q < U64_BOUND := by
        intro hr
        have row := seated q hqm .refl
        have fits := gap_fits row innerQ (Nat.le_refl (gap s side f q))
        have beside := fun i => row_of_gap row innerQ (Nat.le_refl (gap s side f q)) (i := i)
        have := enough hr
        cases side with
        | before =>
          have beside : (f q).start + gap s .before f q ≤ (f c).start := (Row.mem (beside ⟨_, _⟩ ⟨rfl, rfl⟩) hc).1
          have rootBound := C.bounds T off hO hroot (hcq.trans hq)
          omega
        | after =>
          have beside : (f c).stop + 1 ≤ (f q).stop - gap s .after f q :=
            (Row.mem (beside ⟨_, (f q).stop - _⟩ ⟨rfl, Nat.sub_add_cancel fits.1⟩) hc).2.2
          omega
      refine (U64.add_runs gapBound).bind fun total _ htotal => ?_
      obtain ⟨rfl, _⟩ := htotal
      by_cases full : required ≤ slackSum + gap s side f q
      · rw [if_pos full]
        refine (U64.sub_runs fun _ => full).bind fun excess _ hexcess => ?_
        refine (U64.sub_runs fun _ => by omega).bind fun o _ ho => ?_
        refine (shrink_runs T here hqm seated innerQ (by omega) fun _ => bound.2).bind fun ctx₁ _ h => ?_
        obtain ⟨f₁, here₁, S⟩ := h
        have sum' : (rest.map (gap s side f)).sum + o = required + 0 * rest.length := by omega
        refine (hand_runs C T small hO off ladder below S here₁ sum' le large).bind fun ctx₂ _ h => ?_
        obtain ⟨f₂, here₂, owing, frame⟩ := h
        exact ⟨f₂, rest, here₂, ladder, below, owing, frame⟩
      · rw [if_neg full]
        have next : ctx.store.getNextChainAncestorUnchecked root q = .ok c := by
          rw [here.store_eq]
          refine getNextChainAncestorUnchecked_eq T hqm hroot (seated q hqm .refl) (fun x hx _ => ?_) hc
            (seated root hroot hq).nonempty (decide_eq_true sub)
          exact (seated x (T.child_mem hqm hx) (T.child_above hqm hx)).nonempty
        refine .step next ?_
        have lighter := T.weight_child_lt hqm hc
        have ladder' : Ladder s common (c :: q :: rest) := ⟨T.child_mem hqm hc, T.child_parent hqm hc, ladder⟩
        refine (U64.add_runs fun hr => ?_).bind fun len _ hlen => ?_
        · exact (ladder.short T).trans_lt (small hr)
        obtain ⟨rfl, _⟩ := hlen
        refine ih (by omega) ladder' (forall_mem_cons.mpr ⟨hcq.trans (T.child_above hqm hc), below⟩) hcr ?_ ?_
        · rw [map_cons, sum_cons]
          omega
        · omega

/-- **A reclaim.** Everything is seated, and what is not strictly below the common ancestor has the interval it had. -/
theorem reclaimInterval_runs (hchosen : s.Above chosen root) (here : At s slack f ctx) :
    (ctx.reclaimInterval share side allocation common chosen root required).Runs room bad fun ctx' =>
      ∃ f', At s slack f' ctx' ∧ (∀ x ∈ s.nodes, (s.withIntervals f').Seated x) ∧ SameOutside s common f f' := by
  have nodes : ctx.store.nodes = s.nodes := congrArg (·.nodes) here.store_eq
  have ladder : Ladder s common [chosen] :=
    ⟨C.level.q_mem T, T.child_parent C.level.mem C.level.q_mem_children, trivial⟩
  have below : ∀ x ∈ [chosen], s.Above chosen x := fun x hx => by
    obtain rfl := mem_singleton.mp hx
    exact .refl
  have pos : 0 < required := Nat.lt_of_lt_of_le (Links.weight_pos (T.child_mem C.level.mem C.allocation_child)) large
  unfold reclaimInterval
  rw [nodes]
  refine (reclaimUp_runs C T small hO off hroot inner enough large Links.weight_le_length ladder below hchosen here rfl
    pos).bind fun next _ h => ?_
  obtain ⟨f₁, rest, here₁, ladder₁, below₁, owing, frame₁⟩ := h
  have hO₁ : f₁ origin = maximal := (SameOutside.top T frame₁ C.level.mem).trans hO
  refine (reclaimDown_runs C T small large (ladder₁.short T) hO₁ ladder₁ below₁ here₁ owing).mono fun ctx₂ h => ?_
  obtain ⟨f₂, here₂, done, frame₂⟩ := h
  exact ⟨f₂, here₂, done, fun y hy => (frame₂ y hy).trans (frame₁ y hy)⟩

end Up

end ReindexOperationContext

end Firecash
