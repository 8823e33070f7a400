import Firecash.Reachability.Climb

/-!
# Packing the blocks next to the chain

`concentrate_interval` packs the subtrees of the children before and after the chosen one at the two ends
of the parent's interval, `slack` away from them, and gives what is left to the chosen child. On the way
to the new reindex root the intervals of the chosen children are not looked at, so they may be too small,
or not even be intervals; what is below a chosen child stays as it was until its own turn. At the new
reindex root the interval either contains the one before or is refilled, and from this all the intervals
above it are known to be right (`concentrateInterval_runs`).
-/

namespace Firecash

open List Function U64

open Checked (U64_BOUND)
open IntervalRow ReachabilityStore

namespace ReindexOperationContext

variable {H : Type} {s : ReachabilityStore H} {f f' : H → Interval} {origin p c x y : H} {room : Prop}
  {bad : ReachabilityError H → Prop} {slack lo hi : Nat} {l pre post : List H}

/-! ## Packed subtrees -/

/-- Disjoint subtrees with their blocks seated and their tops in a row. -/
structure Packed (s : ReachabilityStore H) (lo hi : Nat) (l : List H) (f f' : H → Interval) : Prop where
  frame : ∀ y, (∀ x ∈ l, ¬ s.Above x y) → f' y = f y
  row : Row (starts f') (ends f') lo hi l
  seated : ∀ x ∈ l, ∀ y ∈ s.nodes, s.Above x y → (s.withIntervals f').Seated y

variable [DecidableEq H] {share : Nat → List Nat → Nat → Nat} {ctx : ReindexOperationContext H} (T : s.IsTree origin)
  (small : room → s.nodes.length < U64_BOUND)

include T small

theorem countSizes_runs (mem : ∀ x ∈ l, x ∈ s.nodes) (here : At s slack f ctx) :
    (ctx.countSizes l).Runs room bad fun next => At s slack f next.1 ∧ next.2 = l.map s.weight := by
  induction l generalizing ctx with
  | nil => exact ⟨here, rfl⟩
  | cons x l ih =>
    obtain ⟨hx, mem⟩ := forall_mem_cons.mp mem
    refine (count_runs T small hx here).bind fun ctx₁ _ h => ?_
    obtain ⟨here₁, known⟩ := h
    refine .step (by unfold subtreeSize; rw [known]) ?_
    refine (ih mem here₁).bind fun next _ h => ?_
    obtain ⟨here₂, ns⟩ := h
    exact ⟨here₂, congrArg (s.weight x :: ·) ns⟩

theorem seat_runs {α : Type} {good : α → Prop} {i : Interval} {next : ReindexOperationContext H → Reach H α}
    (hx : x ∈ s.nodes)
    (here : At s slack f ctx) (fits : room → i.start + s.weight x ≤ i.stop + 1 ∧ i.stop + 1 < U64_BOUND)
    (rest : ∀ ctx' f', At s slack f' ctx' → Moved s x (· = i) f f' → (next ctx').Runs room bad good) :
    (ctx.store.setInterval x i >>= fun store => propagateInterval share { ctx with store } x >>= next).Runs room
      bad good := by
  obtain ⟨sizes, rfl, counted⟩ := here
  refine .step (setInterval_of_mem hx) ?_
  have set : At s slack (update f x i) ⟨(s.withIntervals f).withInterval x i, sizes, slack⟩ := ⟨sizes, rfl, counted⟩
  refine (refill_runs T small hx set fits).bind fun ctx' _ h => ?_
  obtain ⟨f', here', M⟩ := h
  exact rest ctx' f' here' M

theorem tighten_runs {is : List Interval} (mem : ∀ x ∈ l, x ∈ s.nodes) (apart : l.Pairwise (Disjoint s))
    (cuts : Interval.Cuts lo hi (l.map s.weight) is) (bound : hi < U64_BOUND) (here : At s slack f ctx) :
    (ctx.tighten share (l.zip is)).Runs room bad fun ctx' => ∃ f', At s slack f' ctx' ∧ Packed s lo hi l f f' := by
  induction l generalizing ctx f is lo with
  | nil =>
    cases is with
    | nil =>
      refine ⟨f, here, fun _ _ => rfl, Nat.le_of_eq cuts, ?_⟩
      exact nofun
    | cons _ _ => exact cuts.elim
  | cons x l ih =>
    cases is with
    | nil => exact cuts.elim
    | cons i is =>
      obtain ⟨hx, mem⟩ := forall_mem_cons.mp mem
      obtain ⟨first, apart⟩ := pairwise_cons.mp apart
      obtain ⟨start, fits, cuts⟩ := cuts
      have pos := Links.weight_pos hx
      have := cuts.sum_le
      rw [zip_cons_cons]
      refine seat_runs T small hx here (fun _ => by omega) fun ctx₁ f₁ here₁ M => ?_
      refine (ih mem apart cuts here₁).mono fun ctx₂ h => ?_
      obtain ⟨f₂, here₂, P⟩ := h
      have kept : ∀ y, s.Above x y → f₂ y = f₁ y := fun y hxy => P.frame y fun z hz hzy => first z hz y hxy hzy
      have top : f₂ x = i := (kept x .refl).trans M.self
      refine ⟨f₂, here₂, fun y hy => ?_, ⟨?_, ?_, ?_⟩, ?_⟩
      · obtain ⟨hxy, hy⟩ := forall_mem_cons.mp hy
        rw [P.frame y hy, M.frame y hxy]
      · unfold starts
        rw [top, start]
      · unfold starts ends
        rw [top]
        omega
      · unfold ends
        rw [top]
        exact P.row
      · have done := M.seated_all fun j hj => by subst hj; omega
        exact forall_mem_cons.mpr ⟨SubtreeSeated.congr T done kept, P.seated⟩

section Ends

variable (mem : ∀ x ∈ l, x ∈ s.nodes) (apart : l.Pairwise (Disjoint s)) (hp : p ∈ s.nodes) (here : At s slack f ctx)

include mem apart hp here

theorem tightenIntervalsBefore_runs
    (fits : room → 1 ≤ (f p).start ∧ (f p).start + slack + (l.map s.weight).sum < U64_BOUND) :
    (ctx.tightenIntervalsBefore share p l).Runs room bad fun next => next.2 = (l.map s.weight).sum ∧
      ∃ f', At s slack f' next.1 ∧
        Packed s ((f p).start + slack) ((f p).start + slack + (l.map s.weight).sum) l f f' := by
  have pos : ∀ n ∈ l.map s.weight, 0 < n := forall_mem_map.mpr fun x hx => Links.weight_pos (mem x hx)
  refine (countSizes_runs T small mem here).bind fun next _ h => ?_
  obtain ⟨ctx₁, sizes⟩ := next
  obtain ⟨here₁, rfl⟩ := h
  refine (sum_runs fun hr => ?_).bind fun sum _ hsum => ?_
  · have := fits hr
    omega
  refine .step (here₁.getInterval hp) ?_
  rw [here₁.slack_eq]
  refine (add_runs fun hr => ?_).bind fun start _ hstart => ?_
  · have := fits hr
    omega
  refine (add_runs fun hr => ?_).bind fun past _ hpast => ?_
  · have := fits hr
    omega
  refine (sub_runs fun hr => ?_).bind fun stop _ hstop => ?_
  · have := fits hr
    omega
  refine (Interval.splitExact_runs pos fun hr => ?_).bind fun is _ his => ?_
  · dsimp only
    omega
  · have ends : stop + 1 = (f p).start + slack + (l.map s.weight).sum := by omega
    rw [ends, hstart.1] at his
    refine (tighten_runs T small mem apart his.1 his.2 here₁).bind fun ctx₂ _ h => ?_
    exact ⟨by omega, h⟩

theorem tightenIntervalsAfter_runs
    (fits : room → slack + (l.map s.weight).sum + 1 ≤ (f p).stop ∧ (f p).stop < U64_BOUND) :
    (ctx.tightenIntervalsAfter share p l).Runs room bad fun next => next.2 = (l.map s.weight).sum ∧
      ∃ f' lo, At s slack f' next.1 ∧ lo + (l.map s.weight).sum + slack = (f p).stop ∧
        Packed s lo (lo + (l.map s.weight).sum) l f f' := by
  have pos : ∀ n ∈ l.map s.weight, 0 < n := forall_mem_map.mpr fun x hx => Links.weight_pos (mem x hx)
  refine (countSizes_runs T small mem here).bind fun next _ h => ?_
  obtain ⟨ctx₁, sizes⟩ := next
  obtain ⟨here₁, rfl⟩ := h
  refine (sum_runs fun hr => ?_).bind fun sum _ hsum => ?_
  · have := fits hr
    omega
  refine .step (here₁.getInterval hp) ?_
  rw [here₁.slack_eq]
  refine (sub_runs fun hr => ?_).bind fun past _ hpast => ?_
  · have := fits hr
    omega
  refine (sub_runs fun hr => ?_).bind fun start _ hstart => ?_
  · have := fits hr
    omega
  refine (sub_runs fun hr => ?_).bind fun stop _ hstop => ?_
  · have := fits hr
    omega
  refine (Interval.splitExact_runs pos fun hr => ?_).bind fun is _ his => ?_
  · have := fits hr
    dsimp only
    omega
  · have ends : stop + 1 = start + (l.map s.weight).sum := by omega
    rw [ends] at his
    refine (tighten_runs T small mem apart his.1 his.2 here₁).bind fun ctx₂ _ h => ?_
    obtain ⟨f', here', P⟩ := h
    exact ⟨by omega, f', start, here', by omega, P⟩

end Ends

/-! ## The chosen child -/

/-- What a chosen child has after its parent was concentrated around it. -/
structure Chosen (s : ReachabilityStore H) (c : H) (final : Bool) (f f' : H → Interval) : Prop where
  frame : ∀ y, ¬ s.Above c y → f' y = f y
  kept : final = false → ∀ y, y ≠ c → f' y = f y
  seated : final = true → ∀ y ∈ s.nodes, s.Above c y → (s.withIntervals f').Seated y

omit small in
theorem Chosen.of_contains {i : Interval} {final : Bool} (hc : c ∈ s.nodes)
    (seated : SubtreeSeated s c f) (start : i.start ≤ (f c).start) (stop : (f c).stop ≤ i.stop) :
    Chosen s c final f (update f c i) := by
  have row : Row (starts f) (ends f) (f c).start (f c).stop (s.children c) := seated c hc .refl
  refine ⟨fun y hy => update_outside hy i, fun _ y hy => update_of_ne hy _ _, fun _ => ?_⟩
  exact SubtreeSeated.update T seated (row.widen start stop)

theorem expandIntervalToChosen_runs {before after : Nat} {final : Bool} (hp : p ∈ s.nodes) (hc : c ∈ s.nodes)
    (inner : s.children c ≠ []) (seated : SubtreeSeated s c f) (here : At s slack f ctx)
    (fits : room → (f p).start + before + slack + (slack + s.weight c + slack) + after + slack + 1 ≤ (f p).stop +
      1 ∧ (f p).stop + 1 < U64_BOUND) :
    (ctx.expandIntervalToChosen share p c before after final).Runs room bad fun ctx' =>
      ∃ f', At s slack f' ctx' ∧ (f' c).start = (f p).start + before + slack ∧
        (f' c).stop + after + slack + 1 = (f p).stop ∧
        Chosen s c final f f' := by
  have pos := Links.weight_pos hc
  have set : ∀ {g : H → Interval} {ctx₁ : ReindexOperationContext H} {i : Interval}, At s slack g ctx₁ →
      ∃ store, ctx₁.store.setInterval c i = .ok store ∧ At s slack (update g c i) { ctx₁ with store } := by
    intro g ctx₁ i at₁
    obtain ⟨sizes, rfl, counted⟩ := at₁
    exact ⟨_, setInterval_of_mem hc, sizes, rfl, counted⟩
  refine .step (here.getInterval hp) ?_
  obtain ⟨sizes, rfl, counted⟩ := here
  have here : At s slack f ⟨s.withIntervals f, sizes, slack⟩ := ⟨sizes, rfl, counted⟩
  dsimp only
  refine (add_runs fun hr => ?_).bind fun low _ hlow => ?_
  · have := fits hr
    omega
  refine (add_runs fun hr => ?_).bind fun start _ hstart => ?_
  · have := fits hr
    omega
  refine (sub_runs fun hr => ?_).bind fun high _ hhigh => ?_
  · have := fits hr
    omega
  refine (sub_runs fun hr => ?_).bind fun past _ hpast => ?_
  · have := fits hr
    omega
  refine (sub_runs fun hr => ?_).bind fun stop _ hstop => ?_
  · have := fits hr
    omega
  refine .step (here.getInterval hc) ?_
  by_cases refill : (final && !Interval.contains ⟨start, stop⟩ (f c)) = true
  · rw [if_pos refill]
    refine (add_runs fun hr => ?_).bind fun start' _ hstart' => ?_
    · have := fits hr
      omega
    refine (sub_runs fun hr => ?_).bind fun stop' _ hstop' => ?_
    · have := fits hr
      omega
    refine seat_runs T small hc here (fun hr => ?_) fun ctx₁ f₁ here₁ M => ?_
    · have := fits hr
      dsimp only
      omega
    -- the block has children, so what it was refilled with is not empty
    have narrow := (M.inner inner).nonempty
    rw [withIntervals_interval, M.self] at narrow
    have seated₁ := M.seated_all fun i hi => by subst hi; exact narrow
    obtain ⟨store, done, here₂⟩ := set here₁
    have larger : Chosen s c final f₁ (update f₁ c ⟨start, stop⟩) := by
      refine Chosen.of_contains T hc seated₁ ?_ ?_
      · rw [M.self]
        dsimp only
        omega
      · rw [M.self]
        dsimp only
        omega
    refine .step done ⟨_, here₂, ?_, ?_, fun y hy => ?_, fun no => ?_, larger.seated⟩
    · rw [update_self]
      dsimp only
      omega
    · rw [update_self]
      dsimp only
      omega
    · rw [larger.frame y hy, M.frame y hy]
    · rw [no] at refill
      exact absurd refill (by simp)
  · rw [if_neg refill]
    obtain ⟨store, done, here₁⟩ := set here
    refine .step done ⟨_, here₁, ?_, ?_, ?_⟩
    · rw [update_self]
      dsimp only
      omega
    · rw [update_self]
      dsimp only
      omega
    · cases final with
      | true =>
        have inside : Interval.contains ⟨start, stop⟩ (f c) = true := by simpa using refill
        have inside := of_decide_eq_true inside
        exact Chosen.of_contains T hc seated inside.1 inside.2
      | false =>
        exact ⟨fun y hy => update_outside hy _, fun _ y hy => update_of_ne hy _ _, fun h => nomatch h⟩

/-! ## A concentration -/

/-- What the parent has after it was concentrated around a child: the other children are seated with their
subtrees, and if the interval of the child is not empty, so is the parent. -/
structure Concentrated (s : ReachabilityStore H) (p c : H) (slack : Nat) (final : Bool) (f f' : H → Interval) :
    Prop where
  frame : ∀ y, ¬ (s.Above p y ∧ y ≠ p) → f' y = f y
  kept : final = false → ∀ y, s.Above c y → y ≠ c → f' y = f y
  beside : ∀ z ∈ s.children p, z ≠ c → ∀ y ∈ s.nodes, s.Above z y → (s.withIntervals f').Seated y
  chosen : final = true → ∀ y ∈ s.nodes, s.Above c y → (s.withIntervals f').Seated y
  parent : (f' c).start ≤ (f' c).stop → (s.withIntervals f').Seated p
  share : ∃ before after, s.weight p = 1 + before + s.weight c + after ∧ (f' c).start = (f p).start + before + slack ∧
    (f' c).stop + after + slack + 1 = (f p).stop

section Assembly

variable {lo' hi' : Nat} {f₁ f₂ f₃ : H → Interval} {final : Bool} (L : Level s p c pre post)
    (P₁ : Packed s lo hi pre f f₁)
  (P₂ : Packed s lo' hi' post f₁ f₂)

include L P₁ P₂

omit [DecidableEq H] small in
theorem Packed.keep_parent : f₁ p = f p ∧ f₂ p = f p := by
  have first : f₁ p = f p := P₁.frame p fun x hx => T.not_above_of_child L.mem (L.pre_child hx)
  exact ⟨first, (P₂.frame p fun x hx => T.not_above_of_child L.mem (L.post_child hx)).trans first⟩

omit [DecidableEq H] small in
theorem Packed.keep_chosen (h : s.Above c y) : f₂ y = f y := by
  rw [P₂.frame y fun x hx hxy => L.post_disjoint T hx y hxy h, P₁.frame y fun x hx hxy =>
    (L.pre_disjoint T hx).1 y hxy h]

variable (C : Chosen s c final f₂ f₃)

include C

omit [DecidableEq H] small in
/-- The two ends and the chosen child, put together. -/
theorem Concentrated.of_packed {before after : Nat} (weight : s.weight p = 1 + before + s.weight c + after)
    (hlo : (f p).start ≤ lo) (hhi : hi ≤ (f₃ c).start) (hlo' : (f₃ c).stop + 1 ≤ lo') (hhi' : hi' ≤ (f p).stop)
    (start : (f₃ c).start = (f p).start + before + slack) (stop : (f₃ c).stop + after + slack + 1 = (f p).stop) :
    Concentrated s p c slack final f f₃ := by
  have hc := L.q_mem_children
  have keepPre : ∀ x ∈ pre, ∀ y, s.Above x y → f₃ y = f₁ y := by
    intro x hx y hxy
    obtain ⟨chosen, others⟩ := L.pre_disjoint T hx
    rw [C.frame y (chosen y hxy), P₂.frame y fun z hz => others z hz y hxy]
  have keepPost : ∀ x ∈ post, ∀ y, s.Above x y → f₃ y = f₂ y := fun x hx y hxy => C.frame y (L.post_disjoint T hx y hxy)
  refine ⟨fun y hy => ?_, fun no y hcy ne => ?_, fun z hz ne y hy hzy => ?_, C.seated, fun nonempty => ?_, ?_⟩
  · have out : ∀ z ∈ s.children p, ¬ s.Above z y := fun z hz h => hy (L.strict T hz h)
    rw [C.frame y (out c hc), P₂.frame y fun x hx => out x (L.post_child hx), P₁.frame y fun x hx =>
      out x (L.pre_child hx)]
  · rw [C.kept no y ne, P₁.keep_chosen T L P₂ hcy]
  · rw [L.children] at hz
    rcases mem_append.mp hz with hz | hz
    · exact SubtreeSeated.congr T (P₁.seated z hz) (keepPre z hz) y hy hzy
    · have hz := (mem_cons.mp hz).resolve_left ne
      exact SubtreeSeated.congr T (P₂.seated z hz) (keepPost z hz) y hy hzy
  · have own : f₃ p = f p := (C.frame p (T.not_above_of_child L.mem hc)).trans (P₁.keep_parent T L P₂).2
    show Row (starts f₃) (ends f₃) (f₃ p).start (f₃ p).stop (s.children p)
    rw [own, L.children]
    have left := row_congr P₁.row fun x hx => keepPre x hx x .refl
    have right := row_congr P₂.row fun x hx => keepPost x hx x .refl
    refine row_append.mpr ⟨hi, left.widen hlo (Nat.le_refl _), hhi, ?_, right.widen hlo' hhi'⟩
    unfold starts ends
    omega
  · exact ⟨before, after, weight, start, stop⟩

end Assembly

/-- **A concentration.** -/
theorem concentrateInterval_runs {final : Bool} (hp : p ∈ s.nodes) (hc : c ∈ s.children p) (inner : s.children c ≠ [])
    (seated : SubtreeSeated s c f) (here : At s slack f ctx)
    (fits : room → 1 ≤ (f p).start ∧ (f p).start + (2 * slack + 1) * s.weight p ≤ (f p).stop + 1 ∧
      (f p).stop + 1 < U64_BOUND) :
    (ctx.concentrateInterval share p c final).Runs room bad fun ctx' =>
      ∃ f', At s slack f' ctx' ∧ Concentrated s p c slack final f f' := by
  obtain ⟨pre, post, split⟩ := append_of_mem hc
  have L : Level s p c pre post := ⟨hp, split⟩
  have pairwisePre : pre.Pairwise (Disjoint s) := L.pairwise T (split ▸ sublist_append_left pre (c :: post))
  have pairwisePost : post.Pairwise (Disjoint s) :=
    L.pairwise T (split ▸ (sublist_cons_self c post).trans (sublist_append_right pre (c :: post)))
  have weights := L.weight_eq T
  have pos := Links.weight_pos (L.q_mem T)
  -- each level takes the two gaps beside the chosen child and its siblings; the last one takes two more gaps
  have budget : room → 1 ≤ (f p).start ∧ (f p).start + 4 * slack + s.weight p ≤ (f p).stop + 1 ∧
      (f p).stop + 1 < U64_BOUND := by
    intro hr
    obtain ⟨start, large, bound⟩ := fits hr
    have two : 2 * slack * 2 ≤ 2 * slack * s.weight p := Nat.mul_le_mul_left _ (by omega)
    rw [Nat.add_mul] at large
    omega
  have kids : ctx.store.getChildren p = .ok (pre ++ c :: post) := by
    rw [here.store_eq, ← split]
    exact getChildren_of_mem hp
  refine .step kids (.step (splitChildren_eq (L.nodup T)) ?_)
  refine (tightenIntervalsBefore_runs T small (fun x hx => T.child_mem hp (L.pre_child hx)) pairwisePre hp here
    fun hr => ?_).bind
    fun next _ h => ?_
  · have := budget hr
    omega
  obtain ⟨ctx₁, before⟩ := next
  obtain ⟨hbefore, f₁, here₁, P₁⟩ := h
  have same₁ : f₁ p = f p := P₁.frame p fun x hx => T.not_above_of_child hp (L.pre_child hx)
  refine (tightenIntervalsAfter_runs T small (fun x hx => T.child_mem hp (L.post_child hx)) pairwisePost hp here₁
    fun hr => ?_).bind
    fun next _ h => ?_
  · have := budget hr
    rw [same₁]
    omega
  obtain ⟨ctx₂, after⟩ := next
  obtain ⟨hafter, f₂, lo, here₂, hlo, P₂⟩ := h
  have same₂ := (P₁.keep_parent T L P₂).2
  have keep : ∀ y, s.Above c y → f₂ y = f y := fun y => P₁.keep_chosen T L P₂
  refine (expandIntervalToChosen_runs T small hp (L.q_mem T) inner (SubtreeSeated.congr T seated keep) here₂
    fun hr => ?_).mono fun ctx₃ h => ?_
  · have := budget hr
    rw [same₂]
    omega
  obtain ⟨f₃, here₃, start, stop, C⟩ := h
  rw [same₂] at start stop
  rw [same₁] at hlo
  have weight : s.weight p = 1 + before + s.weight c + after := by omega
  refine ⟨f₃, here₃, Concentrated.of_packed T L P₁ P₂ C weight ?_ ?_ ?_ ?_ start (by omega)⟩
  all_goals omega

end ReindexOperationContext

end Firecash
