import Firecash.Reachability.Reclaim

/-!
# Room for a new block

A block that was inserted without room has an empty interval at the end of its parent's.
`reindex_intervals` climbs from it to the first block whose interval has a number for every block below
it, and refills that one. If it comes to a child of a strict ancestor of the reindex root first, room is
reclaimed there. Every other block is seated on the way, so all that is asked of the tree is answered as
before (`reindexIntervals_runs`).
-/

namespace Firecash

open Checked (U64_BOUND)
open IntervalRow ReachabilityStore Firecash.Interval

namespace ReindexOperationContext

variable {H : Type} {s : ReachabilityStore H} {f f' : H → Interval} {origin allocation common root new x y : H}
  {room : Prop} {bad : ReachabilityError H → Prop} {slack : Nat}

/-! ## A child next to the chain -/

theorem SeatedOff.mono (off : SeatedOff s new f) (h : s.Above x new) : SeatedOff s x f :=
  fun y hy out => off y hy fun hn => out (h.trans hn)

/-- Two children of a block: on which side of the other one of them is tells the start of its interval. -/
theorem exists_setting {chosen : H} (hp : common ∈ s.nodes)
    (row : Row (starts f) (ends f) (f common).start (f common).stop (s.children common))
    (ha : allocation ∈ s.children common)
    (hc : chosen ∈ s.children common) (ne : allocation ≠ chosen) (nonempty : (f chosen).start ≤ (f chosen).stop)
    (valid : (f allocation).start ≤ (f allocation).stop ∨ (f chosen).stop < (f allocation).start) :
    ∃ pre post, ((f allocation).start < (f chosen).start ∧ Setting s .before allocation common chosen pre post) ∨
      (¬ (f allocation).start < (f chosen).start ∧ Setting s .after allocation common chosen pre post) := by
  obtain ⟨pre, post, split⟩ := List.append_of_mem hc
  rw [split] at row ha
  obtain ⟨mid, left, start, _, rest⟩ := row_append.mp row
  refine ⟨pre, post, ?_⟩
  rcases List.mem_append.mp ha with before | after
  · have inside := Row.mem left before
    unfold starts ends at inside
    unfold starts at start
    exact .inl ⟨by omega, ⟨hp, split⟩, List.mem_reverse.mpr before⟩
  · have after := (List.mem_cons.mp after).resolve_left ne
    have inside := Row.mem rest after
    unfold starts ends at inside
    exact .inr ⟨by omega, ⟨hp, split⟩, after⟩

section Climb

/-- Every block is seated, and the origin has the interval it had. -/
def Reseats (s : ReachabilityStore H) (slack : Nat) (origin : H) (f : H → Interval)
    (ctx : ReindexOperationContext H) : Prop :=
  ∃ f', At s slack f' ctx ∧ (∀ x ∈ s.nodes, (s.withIntervals f').Seated x) ∧ f' origin = f origin

variable [DecidableEq H] {share : Nat → List Nat → Nat → Nat} {ctx : ReindexOperationContext H}

/-- **Room for a child of a strict ancestor of the reindex root.** -/
theorem reindexIntervalsEarlierThanRoot_runs {required : Nat} (T : s.IsTree origin)
    (small : room → s.nodes.length < U64_BOUND)
    (hO : f origin = maximal) (hroot : root ∈ s.nodes) (off : SeatedOff s allocation f) (inner : s.children root ≠ [])
    (enough : room → (f root).start + required + slack * s.nodes.length + s.weight root ≤ (f root).stop + 1)
    (large : s.weight allocation ≤ required) (ha : allocation ∈ s.children common) (above : s.Above common root)
    (ne : common ≠ root) (beside : ¬ s.Above allocation root)
    (valid : (f allocation).start ≤ (f allocation).stop ∨ (f allocation).start = (f common).stop)
    (here : At s slack f ctx) :
    (ctx.reindexIntervalsEarlierThanRoot share allocation root common required).Runs room bad
    (Reseats s slack origin f) := by
  have hcm : common ∈ s.nodes := T.above_mem above hroot
  obtain ⟨chosen, hc, hcr⟩ := T.exists_child above hroot ne
  have hchosen : chosen ∈ s.nodes := T.child_mem hcm hc
  have other : allocation ≠ chosen := by
    rintro rfl
    exact beside hcr
  have row : (s.withIntervals f).Seated common := off common hcm (T.not_above_of_child hcm ha)
  have apart : ∀ x ∈ s.children common, x ≠ allocation → (s.withIntervals f).Seated x := by
    intro x hx hne
    refine off x (T.child_mem hcm hx) fun h => ?_
    exact hne (T.child_unique hcm hx ha .refl h)
  have rootSeated : (s.withIntervals f).Seated root := off root hroot beside
  have chosenSeated : (s.withIntervals f).Seated chosen := apart chosen hc other.symm
  have sub := off.subset T hroot (fun h => absurd h beside) hcr
  have last := row.child hc
  have next : ctx.store.getNextChainAncestorUnchecked root common = .ok chosen := by
    rw [here.store_eq]
    refine getNextChainAncestorUnchecked_eq (s := s.withIntervals f) T hcm hroot row (fun x hx early => ?_) hc
      rootSeated.nonempty (decide_eq_true sub)
    by_cases hxa : x = allocation
    · subst hxa
      -- an empty interval at the end of the parent's is behind that of the reindex root
      simp only [withIntervals_interval] at early last
      exact valid.resolve_right (by omega)
    · exact (apart x hx hxa).nonempty
  have behind : (f allocation).start ≤ (f allocation).stop ∨ (f chosen).stop < (f allocation).start := by
    refine valid.imp_right fun eq => ?_
    rw [eq]
    exact last.2.2
  have reclaimed : ∀ side pre post, Setting s side allocation common chosen pre post →
      (ctx.reclaimInterval share side allocation common chosen root required).Runs room bad
        (Reseats s slack origin f) := by
    intro side pre post C
    refine (reclaimInterval_runs C T small hO off hroot inner enough large hcr here).mono fun ctx' h => ?_
    obtain ⟨f', here', done, frame⟩ := h
    exact ⟨f', here', done, SameOutside.top T frame hcm⟩
  refine .step next (.step (here.getInterval (T.child_mem hcm ha)) (.step (here.getInterval hchosen) ?_))
  obtain ⟨pre, post, ⟨left, C⟩ | ⟨right, C⟩⟩ := exists_setting (f := f) hcm row ha hc other chosenSeated.nonempty behind
  · rw [if_pos left]
    exact reclaimed .before pre post C
  · rw [if_neg right]
    exact reclaimed .after pre post C

/-! ## The climb -/

/-- A leaf without room, where every other block is seated. -/
structure Unseated (s : ReachabilityStore H) (new parent : H) (f : H → Interval) : Prop where
  mem : new ∈ s.nodes
  leaf : s.children new = []
  parent_eq : s.parent new = some parent
  off : SeatedOff s new f
  start : (f new).start = (f parent).stop
  stop : (f new).stop + 1 = (f new).start

section Unseated

variable {parent : H} (U : Unseated s new parent f) (T : s.IsTree origin)

include U T

omit [DecidableEq H] in
theorem Unseated.seated (hy : y ∈ s.nodes) (ne : y ≠ new) : (s.withIntervals f).Seated y :=
  U.off y hy fun h => ne (T.eq_of_leaf U.leaf h hy).symm

omit [DecidableEq H] in
theorem Unseated.bounds (hO : f origin = maximal) (hy : y ∈ s.nodes) :
    (f y).start ≤ (f y).stop + 1 ∧ (f y).stop + 1 < U64_BOUND := by
  have bound := (U.off.bounds T hO hy fun h => T.eq_of_leaf U.leaf h hy).2
  refine ⟨?_, bound⟩
  by_cases ne : y = new
  · subst ne
    exact Nat.le_of_eq U.stop.symm
  · exact Nat.le_succ_of_le (U.seated T hy ne).nonempty

omit [DecidableEq H] in
theorem Unseated.innerSeated : (s.withIntervals f).InnerSeated := by
  intro y hy kids
  refine U.seated T hy ?_
  rintro rfl
  exact kids U.leaf

/-- A refill above the leaf seats everything. -/
theorem Unseated.refill (hO : f origin = maximal) (small : room → s.nodes.length < U64_BOUND) (hx : s.Above x new)
    (ne : x ≠ new) (fits : (f x).start + s.weight x ≤ (f x).stop + 1) (here : At s slack f ctx) :
    (ctx.propagateInterval share x).Runs room bad (Reseats s slack origin f) := by
  have hxm := T.above_mem hx U.mem
  obtain ⟨c, hc, _⟩ := T.exists_child hx U.mem ne
  refine (propagate_runs T small hxm here fun _ => ⟨fits, (U.bounds T hO hxm).2⟩).mono fun ctx' h => ?_
  obtain ⟨f', here', M⟩ := h
  have same : SameOutside s x f f' := by
    intro y hy
    by_cases hyx : y = x
    · subst hyx
      exact M.self
    · exact M.frame y fun h => hy ⟨h, hyx⟩
  refine ⟨f', here', fun y hy => ?_, SameOutside.top T same hxm⟩
  by_cases below : s.Above x y
  · by_cases hyx : y = x
    · subst hyx
      exact M.inner (List.ne_nil_of_mem hc)
    · exact M.seated y hy below hyx
  · exact SameOutside.seated T same hy below (U.off.mono hx y hy below)

end Unseated

theorem count_runs (T : s.IsTree origin) (small : room → s.nodes.length < U64_BOUND) (hx : x ∈ s.nodes)
    (here : At s slack f ctx) :
    (ctx.countSubtrees x).Runs room bad fun ctx' => At s slack f ctx' ∧ ctx'.subtreeSizes x = some (s.weight x) := by
  obtain ⟨sizes, rfl, counted⟩ := here
  refine Except.Runs.mono (countSubtrees_runs T small counted hx) fun ctx' h => ?_
  obtain ⟨sizes', rfl, counted', known⟩ := h
  exact ⟨⟨sizes', rfl, counted'⟩, known⟩

section Loop

variable {parent : H} (U : Unseated s new parent f) (T : s.IsTree origin) (small : room → s.nodes.length < U64_BOUND)
  (hO : f origin = maximal) (hroot : root ∈ s.nodes) (hnew : root ≠ new) (inner : root ≠ origin → s.children root ≠ [])
  (enough : room → (f root).start + (slack + 2) * s.nodes.length ≤ (f root).stop + 1)
  (hbad : ∀ e : ReachabilityError H, e.isCapacity = true → ¬ room → bad e)

include U T small hO hroot hnew inner enough hbad

/-- **The climb.** What it comes to without a refill is not above the reindex root. -/
theorem reindexLoop_runs {fuel : Nat} (hx : s.Above x new) (hf : s.nodes.length < fuel + s.weight x)
    (side : s.Above x root → x = root) (here : At s slack f ctx) :
    (reindexLoop share root fuel x ctx).Runs room bad (Reseats s slack origin f) := by
  induction fuel generalizing x ctx with
  | zero =>
    have := Links.weight_le_length (t := s.toLinks) (x := x)
    omega
  | succ fuel ih =>
    have hxm := T.above_mem hx U.mem
    have light := Links.weight_le_length (t := s.toLinks) (x := x)
    refine .step (here.getInterval hxm) ?_
    refine (count_runs T small hxm here).bind fun ctx₁ _ h => ?_
    obtain ⟨here₁, known⟩ := h
    refine (size_runs fun _ => U.bounds T hO hxm).bind fun size _ hsize => ?_
    refine .step (by unfold subtreeSize; rw [known]) ?_
    by_cases fits : s.weight x ≤ size
    · rw [if_pos fits]
      refine U.refill T hO small hx ?_ (by omega) here₁
      rintro rfl
      have := Links.weight_pos hxm
      have := U.stop
      omega
    · rw [if_neg fits]
      -- with room the reindex root and what is above it have a number for every block
      have roomy : s.Above x root → ¬ room := by
        intro above hr
        have := enough hr
        have sub := U.off.subset T hroot (fun h => T.eq_of_leaf U.leaf h hroot) above
        have : s.nodes.length ≤ (slack + 2) * s.nodes.length := Nat.le_mul_of_pos_left _ (by omega)
        omega
      have hparent : ctx₁.store.getParent x = .ok (s.parent x) := by
        rw [here₁.store_eq]
        exact getParent_of_mem hxm
      refine .step hparent ?_
      cases hp : s.parent x with
      | none =>
        obtain rfl := (T.parent_eq_none_iff hxm).mp hp
        exact hbad _ rfl (roomy (T.root_above hroot))
      | some p =>
        have hpm := T.parent_mem hxm hp
        have hxc := T.mem_children_of_parent hxm hp
        dsimp only
        by_cases top : x = root
        · rw [if_pos top]
          exact hbad _ rfl (roomy (top ▸ .refl))
        · rw [if_neg top]
          have rootSeated := U.seated T hroot hnew
          have query : ∃ answer, ctx₁.store.isStrictChainAncestorOf p root = .ok answer ∧
              (answer = true ↔ s.Above p root ∧ p ≠ root) := by
            rw [here₁.store_eq]
            exact (U.innerSeated T).isStrictChainAncestorOf_eq T hpm hroot rootSeated.nonempty
          obtain ⟨answer, query, exact⟩ := query
          refine .step query ?_
          by_cases strict : answer = true
          · rw [if_pos strict]
            obtain ⟨above, ne⟩ := exact.mp strict
            refine reindexIntervalsEarlierThanRoot_runs T small hO hroot (U.off.mono hx) (inner ?_) (fun hr =>
              ?_) (Nat.le_refl _)
              hxc above ne (fun h => top (side h)) ?_ here₁
            · rintro rfl
              exact ne (T.antisymm above (T.root_above hpm) hroot)
            · have large := enough hr
              rw [Nat.add_mul] at large
              have := Links.weight_le_length (t := s.toLinks) (x := root)
              omega
            · by_cases new : x = new
              · subst new
                obtain rfl : p = parent := Option.some.inj (hp.symm.trans U.parent_eq)
                exact .inr U.start
              · exact .inl (U.seated T hxm new).nonempty
          · rw [if_neg strict]
            have heavier := T.weight_lt_of_parent hxm hp
            refine ih ((Links.Above.of_parent hp).trans hx) (by omega) (fun h => ?_) here₁
            by_contra ne
            exact strict (exact.mpr ⟨h, ne⟩)

/-- **Room for a new block.** -/
theorem reindexIntervals_runs (here : At s slack f ctx) :
    (ctx.reindexIntervals share new root).Runs room bad (Reseats s slack origin f) := by
  have nodes : ctx.store.nodes = s.nodes := congrArg (·.nodes) here.store_eq
  unfold reindexIntervals
  rw [nodes]
  have pos := Links.weight_pos U.mem
  exact reindexLoop_runs U T small hO hroot hnew inner enough hbad .refl (by omega)
    (fun h => absurd (T.eq_of_leaf U.leaf h hroot).symm hnew) here

end Loop

end Climb

end ReindexOperationContext

end Firecash
