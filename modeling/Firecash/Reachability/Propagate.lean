import Firecash.Reachability.Counting

/-!
# Refilling a subtree

`propagate_interval` gives new intervals to everything below a block, breadth first. A block in the queue
has an interval that `Fits` its subtree; when it is taken out, its children are seated in it, each with an
interval that fits. What is not below a queued block is seated already. So the whole subtree is seated in
the end, and the loop needs one turn per block (`propagateInterval_runs`).
-/

namespace Firecash

open List

open Checked (U64_BOUND)
open IntervalRow

namespace ReachabilityStore

variable {H : Type} {s : ReachabilityStore H} {f : H → Interval} {origin block x : H}

/-- The same store with other intervals. -/
def withIntervals (s : ReachabilityStore H) (f : H → Interval) : ReachabilityStore H := { s with interval := f }

@[simp] theorem withIntervals_interval : (s.withIntervals f).interval = f := rfl

@[simp] theorem withIntervals_links : (s.withIntervals f).toLinks = s.toLinks := rfl

@[simp] theorem withIntervals_withIntervals {g : H → Interval} :
    (s.withIntervals f).withIntervals g = s.withIntervals g := rfl

/-- The interval of a block has a number for every block below it. -/
def Fits (s : ReachabilityStore H) (x : H) : Prop :=
  (s.interval x).start + s.weight x ≤ (s.interval x).stop + 1 ∧ (s.interval x).stop + 1 < U64_BOUND

/-- A seated subtree has a number for every block. -/
theorem weight_le_size (T : s.IsTree origin) (hx : x ∈ s.nodes) (seated : ∀ y ∈ s.nodes, s.Above x y → s.Seated y) :
    (s.interval x).start + s.weight x ≤ (s.interval x).stop + 1 := by
  refine T.induction_up (motive := fun x => (∀ y ∈ s.nodes, s.Above x y → s.Seated y) →
    (s.interval x).start + s.weight x ≤ (s.interval x).stop + 1) (fun x hx ih seated => ?_) hx seated
  have kids : ∀ c ∈ s.children x, s.first c + s.weight c ≤ s.past c := by
    intro c hc
    exact ih c hc fun y hy h => seated y hy ((T.child_above hx hc).trans h)
  have := Row.sum_le (seated x hx .refl) kids
  rw [T.weight_eq hx]
  omega

variable [DecidableEq H]

/-! ## Seating a row of children -/

/-- The intervals after some blocks were given new ones. -/
def fill (f : H → Interval) (seats : List (H × Interval)) : H → Interval :=
  seats.foldl (fun f seat => Function.update f seat.1 seat.2) f

variable {l : List H} {is : List Interval}

theorem fill_of_not_mem (h : x ∉ l) : fill f (l.zip is) x = f x := by
  induction l generalizing f is with
  | nil => rfl
  | cons c l ih =>
    obtain ⟨ne, h⟩ : x ≠ c ∧ x ∉ l := by simpa using h
    cases is with
    | nil => rfl
    | cons i is =>
      refine (ih h).trans ?_
      exact Function.update_of_ne ne _ _

theorem setIntervals_eq {seats : List (H × Interval)} (mem : ∀ seat ∈ seats, seat.1 ∈ s.nodes) :
    ReindexOperationContext.setIntervals s seats = .ok (s.withIntervals (fill s.interval seats)) := by
  induction seats generalizing s with
  | nil => rfl
  | cons seat seats ih =>
    obtain ⟨here, rest⟩ := forall_mem_cons.mp mem
    unfold ReindexOperationContext.setIntervals
    rw [foldlM_cons, setInterval_of_mem here]
    exact ih rest

/-- Blocks that are given the parts of a cut stand in a row, and their parts fit. -/
theorem row_fill {lo hi : Nat} {w : H → Nat} (nodup : l.Nodup)
    (cuts : Interval.Cuts lo hi (l.map w) is) :
    Row (fun x => (fill f (l.zip is) x).start) (fun x => (fill f (l.zip is) x).stop + 1) lo hi l ∧
      ∀ c ∈ l, (fill f (l.zip is) c).start + w c ≤ (fill f (l.zip is) c).stop + 1 := by
  induction l generalizing f is lo with
  | nil =>
    cases is with
    | nil => exact ⟨Nat.le_of_eq cuts, nofun⟩
    | cons _ _ => exact cuts.elim
  | cons c l ih =>
    cases is with
    | nil => exact cuts.elim
    | cons i is =>
      obtain ⟨fresh, nodup⟩ := nodup_cons.mp nodup
      obtain ⟨start, fits, cuts⟩ := cuts
      obtain ⟨row, rest⟩ := ih nodup cuts
      have here : fill f ((c :: l).zip (i :: is)) c = i :=
        (fill_of_not_mem fresh).trans (Function.update_self _ _ _)
      simp only [Row, forall_mem_cons, here, start]
      exact ⟨⟨le_rfl, by omega, row⟩, fits, rest⟩

end ReachabilityStore

namespace ReindexOperationContext

open ReachabilityStore

variable {H : Type} {s : ReachabilityStore H} {f : H → Interval} {origin block current x : H}
    {queue : List H} {room : Prop}
  {bad : ReachabilityError H → Prop} {sizes : H → Option Nat}

/-- The state of the loop: `queue` is to be refilled, the rest of the subtree of `block` is. -/
structure Filling (s : ReachabilityStore H) (block : H) (room : Prop) (queue : List H) (f : H → Interval) : Prop where
  frame : ∀ x, ¬ (s.Above block x ∧ x ≠ block) → f x = s.interval x
  below : ∀ q ∈ queue, q ∈ s.nodes ∧ s.Above block q
  fits : ∀ q ∈ queue, q ≠ block ∨ room → (s.withIntervals f).Fits q
  seated : ∀ x ∈ s.nodes, s.Above block x → (∀ q ∈ queue, ¬ s.Above q x) →
    (s.withIntervals f).Seated x ∨ x = block ∧ s.children block = []

theorem Filling.leaf (F : Filling s block room (current :: queue) f) (T : s.IsTree origin)
    (leaf : s.children current = []) :
    Filling s block room queue f where
  frame := F.frame
  below q hq := F.below q (mem_cons_of_mem current hq)
  fits q hq := F.fits q (mem_cons_of_mem current hq)
  seated x hx hbx free := by
    obtain ⟨hcm, _⟩ := F.below current mem_cons_self
    by_cases hcx : s.Above current x
    · rcases (T.above_iff_child hcm hx).mp hcx with rfl | ⟨c, hc, _⟩
      · by_cases hblock : current = block
        · exact .inr ⟨hblock, hblock ▸ leaf⟩
        · have fits := (F.fits current mem_cons_self (.inl hblock)).1
          have one : (s.withIntervals f).weight current = 1 := (T.weight_eq_one_iff hcm).mpr leaf
          refine .inl ?_
          show Row _ _ (f current).start (f current).stop (s.children current)
          rw [leaf]
          rw [one] at fits
          exact Nat.le_of_succ_le_succ fits
      · rw [leaf] at hc
        cases hc
    · exact F.seated x hx hbx (by grind)

/-- A block whose children were seated in it makes room in the queue for them. -/
theorem Filling.seat [DecidableEq H] (F : Filling s block room (current :: queue) f) (T : s.IsTree origin)
    {is : List Interval}
    (cuts : Interval.Cuts (f current).start (f current).stop ((s.children current).map s.weight) is)
    (small : (f current).stop < U64_BOUND) :
    Filling s block room (queue ++ s.children current) (fill f ((s.children current).zip is)) := by
  obtain ⟨hcm, hbc⟩ := F.below current mem_cons_self
  obtain ⟨row, fits⟩ := row_fill (f := f) (T.children_nodup current hcm) cuts
  have strict : ∀ c ∈ s.children current, s.Above block c ∧ c ≠ block := by
    intro c hc
    refine ⟨hbc.trans (T.child_above hcm hc), ?_⟩
    rintro rfl
    exact T.not_above_of_child hcm hc hbc
  have kept : ∀ x, x ∉ s.children current → fill f ((s.children current).zip is) x = f x :=
    fun x hx => fill_of_not_mem hx
  have childFits : ∀ c ∈ s.children current, (s.withIntervals (fill f ((s.children current).zip is))).Fits c := by
    intro c hc
    have inside := (Row.mem row hc).2.2
    refine ⟨fits c hc, Nat.lt_of_le_of_lt inside small⟩
  refine ⟨fun x hx => ?_, fun q hq => ?_, fun q hq cond => ?_, fun x hx hbx free => ?_⟩
  · rw [kept x fun h => hx (strict x h)]
    exact F.frame x hx
  · rcases mem_append.mp hq with hq | hc
    · exact F.below q (mem_cons_of_mem current hq)
    · exact ⟨T.child_mem hcm hc, (strict q hc).1⟩
  · by_cases hc : q ∈ s.children current
    · exact childFits q hc
    · have old := F.fits q (mem_cons_of_mem current ((mem_append.mp hq).resolve_right hc)) cond
      unfold Fits at old ⊢
      simp only [withIntervals_interval, withIntervals_links] at old ⊢
      rwa [kept q hc]
  · have hxc : x ∉ s.children current := by
      intro hc
      exact free x (mem_append_right _ hc) .refl
    by_cases hcx : x = current
    · subst hcx
      refine .inl ?_
      show Row _ _ (fill f _ x).start (fill f _ x).stop (s.children x)
      rw [kept x hxc]
      exact row
    · have above : ¬ s.Above current x := by
        intro h
        obtain ⟨c, hc, hcx'⟩ := T.exists_child h hx (Ne.symm hcx)
        exact free c (mem_append_right _ hc) hcx'
      have old := F.seated x hx hbx (by grind)
      refine old.imp_left fun h => h.congr rfl (kept x hxc) fun c hc => kept c fun hc' => ?_
      -- a child of both would make them equal
      have h1 := T.child_parent hx hc
      rw [T.child_parent hcm hc', Option.some.injEq] at h1
      exact hcx h1.symm

variable [DecidableEq H] (share : Nat → List Nat → Nat → Nat)

theorem propagateLoop_runs (T : s.IsTree origin) (counted : Counted s sizes) (known : (sizes block).isSome) {fuel : Nat}
    (F : Filling s block room queue f) (hf : (queue.map s.weight).sum ≤ fuel) :
    (propagateLoop share sizes fuel queue (s.withIntervals f)).Runs room bad fun s' =>
      ∃ f', s' = s.withIntervals f' ∧ Filling s block room [] f' := by
  induction fuel generalizing queue f with
  | zero =>
    cases queue with
    | nil => exact ⟨f, rfl, F⟩
    | cons current queue =>
      have := Links.weight_pos (F.below current mem_cons_self).1
      rw [map_cons, sum_cons] at hf
      omega
  | succ fuel ih =>
    cases queue with
    | nil => exact ⟨f, rfl, F⟩
    | cons current queue =>
      obtain ⟨hcm, hbc⟩ := F.below current mem_cons_self
      have total := T.weight_eq hcm
      rw [map_cons, sum_cons] at hf
      refine .step (getChildren_of_mem hcm) ?_
      show (if (s.children current).isEmpty then _ else _ : Reach H (ReachabilityStore H)).Runs room bad _
      by_cases leaf : s.children current = []
      · rw [leaf]
        exact ih (F.leaf T leaf) (by omega)
      · rw [if_neg (by simpa using leaf)]
        have fits : room → _ := fun hr => F.fits current mem_cons_self (.inr hr)
        simp only [Fits, withIntervals_interval, withIntervals_links] at fits
        have kids : ∀ c ∈ s.children current, (sizes c).isSome := fun c hc =>
          counted.below T known (T.child_mem hcm hc) (hbc.trans (T.child_above hcm hc))
        refine .step (mapM_subtreeSize counted kids) ?_
        have pos : ∀ n ∈ (s.children current).map s.weight, 0 < n := by
          intro n hn
          obtain ⟨c, hc, rfl⟩ := mem_map.mp hn
          exact Links.weight_pos (T.child_mem hcm hc)
        refine (intervalChildrenCapacity_runs (s := s.withIntervals f) hcm fun hr => ?_).bind fun i _ hi => ?_
        · have := (fits hr).1
          have := Links.weight_pos hcm
          have nonleaf : s.weight current ≠ 1 := fun h => leaf ((T.weight_eq_one_iff hcm).mp h)
          rw [withIntervals_interval]
          omega
        rw [withIntervals_interval] at hi
        refine (Interval.splitExponential_runs (by simpa using leaf) pos fun hr => ?_).bind fun is _ his => ?_
        · have := fits hr
          omega
        rw [hi.1, hi.2] at his
        refine .step (setIntervals_eq fun seat hseat => ?_) ?_
        · exact T.child_mem hcm (of_mem_zip hseat).1
        · refine ih (F.seat T his.1 his.2) ?_
          rw [map_append, sum_append]
          show (queue.map s.weight).sum + ((s.children current).map s.weight).sum ≤ fuel
          omega

/-- What a refill leaves: everything that is not strictly below `block` has the interval it had, and
everything below it is seated. The block itself is, if it has children. -/
structure Refilled (s : ReachabilityStore H) (block : H) (f : H → Interval) : Prop where
  frame : ∀ x, ¬ (s.Above block x ∧ x ≠ block) → f x = s.interval x
  seated : ∀ x ∈ s.nodes, s.Above block x → x ≠ block → (s.withIntervals f).Seated x
  self : s.children block ≠ [] → (s.withIntervals f).Seated block

/-- **A refill.** It succeeds if the interval fits the subtree. -/
theorem propagateInterval_runs (ctx : ReindexOperationContext H) (T : ctx.store.IsTree origin)
    (small : room → ctx.store.nodes.length < U64_BOUND) (counted : Counted ctx.store ctx.subtreeSizes)
    (hb : block ∈ ctx.store.nodes) (fits : room → ctx.store.Fits block) :
    (ctx.propagateInterval share block).Runs room bad fun ctx' =>
      ∃ f sizes', ctx' = ⟨ctx.store.withIntervals f, sizes', ctx.slack⟩ ∧ Counted ctx.store sizes' ∧
        Refilled ctx.store block f := by
  refine (countSubtrees_runs T small counted hb).bind fun ctx' _ h => ?_
  obtain ⟨sizes', rfl, counted', known⟩ := h
  have start : Filling ctx.store block room [block] ctx.store.interval := by
    refine ⟨fun _ _ => rfl, ?_, ?_, fun x hx hbx free => absurd hbx (free block mem_cons_self)⟩
    · simpa using ⟨hb, .refl⟩
    · simp only [mem_singleton, forall_eq, ne_eq, not_true_eq_false, false_or]
      exact fits
  have enough : ([block].map ctx.store.weight).sum ≤ ctx.store.nodes.length := by simpa using Links.weight_le_length
  refine (propagateLoop_runs share T counted' (by rw [known]; rfl) start enough).bind fun s' _ h => ?_
  obtain ⟨f, rfl, done⟩ := h
  refine ⟨f, sizes', rfl, counted', done.frame, fun x hx hbx ne => ?_, fun kids => ?_⟩
  · exact (done.seated x hx hbx nofun).resolve_right fun h => ne h.1
  · exact (done.seated block hb .refl nofun).resolve_right fun h => kids h.2

end ReindexOperationContext

end Firecash
