import Firecash.Reachability.Reindex
import Firecash.Reachability.Soundness

/-!
# Subtree counting

`count_subtrees` walks a subtree breadth first and pushes counts up from the leaves, in place of the
recursion it is documented to be equivalent to. `countSubtrees_runs` is that equivalence: the result for a
block is its `weight`.

While the loop runs, a block that was taken from the queue and waits for its children is open. The
invariant `Waiting` says that the counter of an open block is the number of its children that are neither
in the queue nor open, that these are counted, and that some child is not; so when the queue is empty,
nothing is open.
-/

namespace Firecash

open List Function

open Checked (U64_BOUND)

namespace ReindexOperationContext

variable {H : Type} {s : ReachabilityStore H} {origin block current p x : H} {sizes : H → Option Nat} {counts : H → Nat}
  {queue opened : List H} {room : Prop} {bad : ReachabilityError H → Prop}

/-- The sizes that are known are right, and those of the children are known too. -/
def Counted (s : ReachabilityStore H) (sizes : H → Option Nat) : Prop :=
  ∀ x n, sizes x = some n → x ∈ s.nodes ∧ n = s.weight x ∧ ∀ c ∈ s.children x, (sizes c).isSome

theorem Counted.eq (h : Counted s sizes) (known : (sizes x).isSome) : sizes x = some (s.weight x) := by
  obtain ⟨n, hn⟩ := Option.isSome_iff_exists.mp known
  rw [hn, (h x n hn).2.1]

theorem counted_empty : Counted s fun _ => none := fun _ _ h => nomatch h

theorem Counted.below (h : Counted s sizes) (T : s.IsTree origin) (known : (sizes x).isSome) {y : H} (hy : y ∈ s.nodes)
    (above : s.Above x y) : (sizes y).isSome := by
  induction above with
  | refl => exact known
  | @step y p hp _ ih =>
    obtain ⟨n, hn⟩ := Option.isSome_iff_exists.mp (ih (T.parent_mem hy hp))
    exact (h p n hn).2.2 y (T.mem_children_of_parent hy hp)

variable {l : List H}

theorem mapM_subtreeSize (h : Counted s sizes) (known : ∀ c ∈ l, (sizes c).isSome) :
    l.mapM (subtreeSize sizes) = .ok (l.map s.weight) := by
  induction l with
  | nil => rfl
  | cons c l ih =>
    obtain ⟨here, rest⟩ := forall_mem_cons.mp known
    have first : subtreeSize sizes c = .ok (s.weight c) := by
      unfold subtreeSize
      rw [h.eq here]
    rw [mapM_cons, first, ih rest]
    rfl

/-! ## The invariant of the loop -/

/-- `x` is in the queue or open. -/
def Pending (queue opened : List H) (x : H) : Prop := x ∈ queue ∨ x ∈ opened

open Classical in
/-- The children that were counted. -/
noncomputable def ready (s : ReachabilityStore H) (queue opened : List H) (x : H) : Nat :=
  (s.children x).countP fun c => ¬ Pending queue opened c

structure Waiting (s : ReachabilityStore H) (block : H) (queue opened : List H) (counts : H → Nat)
    (sizes : H → Option Nat) :
    Prop where
  counted : Counted s sizes
  queue_nodup : queue.Nodup
  opened_nodup : opened.Nodup
  disjoint : ∀ x ∈ queue, x ∉ opened
  below : ∀ x, Pending queue opened x → x ∈ s.nodes ∧ s.Above block x
  parent_opened : ∀ x, Pending queue opened x → x ≠ block → ∃ q ∈ opened, s.parent x = some q
  unsized : ∀ x ∈ opened, sizes x = none
  count : ∀ x ∈ opened, counts x = ready s queue opened x
  known : ∀ x ∈ opened, ∀ c ∈ s.children x, ¬ Pending queue opened c → (sizes c).isSome
  waits : ∀ x ∈ opened, ∃ c ∈ s.children x, Pending queue opened c
  fresh : ∀ x, x ∉ opened → sizes x = none → counts x = 0
  start : Pending queue opened block ∨ (sizes block).isSome

theorem Waiting.opened_mem (W : Waiting s block queue opened counts sizes) (hx : x ∈ opened) : x ∈ s.nodes :=
  (W.below x (.inr hx)).1

/-- With nothing in the queue nothing is open: an open block of least weight waits for nothing. -/
theorem Waiting.done (W : Waiting s block [] opened counts sizes) (T : s.IsTree origin) : (sizes block).isSome := by
  have none : ∀ n, ∀ x ∈ opened, s.weight x = n → False := by
    intro n
    induction n using Nat.strongRecOn with
    | _ n ih =>
      intro x hx hn
      obtain ⟨c, hc, pending⟩ := W.waits x hx
      rcases pending with impossible | hopen
      · cases impossible
      · exact ih (s.weight c) (hn ▸ T.weight_child_lt (W.opened_mem hx) hc) c hopen rfl
  rcases W.start with (impossible | hopen) | known
  · cases impossible
  · exact (none _ block hopen rfl).elim
  · exact known

/-- Being ready depends on the children that are pending only. -/
theorem ready_congr {queue' opened' : List H}
    (same : ∀ c ∈ s.children x, Pending queue' opened' c ↔ Pending queue opened c) :
    ready s queue' opened' x = ready s queue opened x := by
  classical
  refine countP_congr fun c hc => ?_
  simp only [decide_eq_true_eq]
  exact not_congr (same c hc)

theorem ready_le : ready s queue opened x ≤ (s.children x).length := countP_le_length

theorem ready_lt_iff : ready s queue opened x < (s.children x).length ↔ ∃ c ∈ s.children x, Pending queue opened c := by
  classical
  have le : ready s queue opened x ≤ (s.children x).length := ready_le
  have all : ready s queue opened x = (s.children x).length ↔ ∀ c ∈ s.children x, ¬ Pending queue opened c := by
    unfold ready
    rw [countP_eq_length]
    simp
  constructor
  · intro lt
    by_contra none
    push Not at none
    exact Nat.ne_of_lt lt (all.mpr none)
  · rintro ⟨c, hc, pending⟩
    refine Nat.lt_of_le_of_ne le fun eq => ?_
    exact all.mp eq c hc pending

theorem countP_succ {P Q : H → Bool} (nodup : l.Nodup) (hx : x ∈ l) (out : P x = false) (here : Q x = true)
    (others : ∀ c ∈ l, c ≠ x → P c = Q c) : l.countP Q = l.countP P + 1 := by
  obtain ⟨pre, post, rfl⟩ := append_of_mem hx
  have hpre : x ∉ pre := fun h => (nodup_append.mp nodup).2.2 x h x mem_cons_self rfl
  have hpost : x ∉ post := (nodup_cons.mp (nodup_append.mp nodup).2.1).1
  have first : pre.countP Q = pre.countP P := by
    refine countP_congr fun c hc => ?_
    rw [others c (mem_append_left _ hc) (ne_of_mem_of_not_mem hc hpre)]
  have rest : post.countP Q = post.countP P := by
    refine countP_congr fun c hc => ?_
    rw [others c (mem_append_right _ (mem_cons_of_mem x hc)) (ne_of_mem_of_not_mem hc hpost)]
  rw [countP_append, countP_append, countP_cons, countP_cons, first, rest, here, out]
  simp
  omega

theorem pending_cons : Pending (current :: queue) opened x ↔ x = current ∨ Pending queue opened x := by
  unfold Pending
  rw [mem_cons, or_assoc]

/-- One more child is ready when it leaves the queue. -/
theorem ready_report (T : s.IsTree origin) (hp : p ∈ s.nodes) (hc : current ∈ s.children p)
    (out : ¬ Pending queue opened current) : ready s queue opened p = ready s (current :: queue) opened p + 1 := by
  classical
  refine countP_succ (T.children_nodup p hp) hc ?_ ?_ fun c _ ne => ?_
  · exact decide_eq_false fun h => h (pending_cons.mpr (.inl rfl))
  · exact decide_eq_true out
  · refine decide_eq_decide.mpr (not_congr ?_)
    rw [pending_cons]
    exact ⟨fun h => h.resolve_left ne, .inr⟩

/-! ## The steps of the loop -/

section Steps

variable (W : Waiting s block (current :: queue) opened counts sizes)

include W

theorem Waiting.current_mem : current ∈ s.nodes := (W.below current (.inl mem_cons_self)).1

theorem Waiting.not_pending : ¬ Pending queue opened current := by
  rintro (h | h)
  · exact (nodup_cons.mp W.queue_nodup).1 h
  · exact W.disjoint current mem_cons_self h

omit W in
theorem isSome_update [DecidableEq H] {n : Nat} (h : (sizes x).isSome) : (update sizes p (some n) x).isSome := by
  by_cases hxp : x = p
  · rw [hxp, update_self]
    rfl
  · rwa [update_of_ne hxp]

omit W in
/-- A size is recorded after those of the children. -/
theorem Counted.update [DecidableEq H] (h : Counted s sizes) (hp : p ∈ s.nodes)
    (known : ∀ c ∈ s.children p, (sizes c).isSome) :
    Counted s (update sizes p (some (s.weight p))) := by
  intro x n hn
  by_cases hxp : x = p
  · subst hxp
    rw [update_self, Option.some.injEq] at hn
    exact ⟨hp, hn.symm, fun c hc => isSome_update (known c hc)⟩
  · rw [update_of_ne hxp] at hn
    obtain ⟨hxm, hw, kids⟩ := h x n hn
    exact ⟨hxm, hw, fun c hc => isSome_update (kids c hc)⟩

theorem Waiting.leaf [DecidableEq H] (T : s.IsTree origin) (leaf : s.children current = []) :
    Waiting s block (current :: queue) opened counts (update sizes current (some 1)) :=
  { W with
    counted := by
      rw [← (T.weight_eq_one_iff W.current_mem).mpr leaf]
      refine W.counted.update W.current_mem ?_
      rw [leaf]
      exact nofun
    unsized x hx := by
      rw [update_of_ne]
      · exact W.unsized x hx
      · rintro rfl
        exact W.disjoint x mem_cons_self hx
    known x hx c hc hp := isSome_update (W.known x hx c hc hp)
    fresh x hx hn := by
      by_cases hxc : x = current
      · rw [hxc, update_self] at hn
        cases hn
      · rw [update_of_ne hxc] at hn
        exact W.fresh x hx hn
    start := W.start.imp_right isSome_update }

/-- A block whose children have to be counted first is opened. -/
theorem Waiting.expand (T : s.IsTree origin) (unsized : sizes current = none) (kids : s.children current ≠ []) :
    Waiting s block (queue ++ s.children current) (current :: opened) counts sizes := by
  have hcm := W.current_mem
  have outside := W.not_pending
  -- the children are new: a pending child would have an open parent
  have new : ∀ c ∈ s.children current, ¬ Pending (current :: queue) opened c := by
    intro c hc pending
    have hne : c ≠ block := by
      rintro rfl
      exact T.not_above_of_child hcm hc (W.below current (.inl mem_cons_self)).2
    obtain ⟨q, hq, hqc⟩ := W.parent_opened c pending hne
    rw [T.child_parent hcm hc, Option.some.injEq] at hqc
    exact W.disjoint current mem_cons_self (hqc ▸ hq)
  have pending_iff : ∀ x, Pending (queue ++ s.children current) (current :: opened) x ↔
      Pending (current :: queue) opened x ∨ x ∈ s.children current := by
    intro x
    unfold Pending
    rw [mem_append, mem_cons, mem_cons]
    tauto
  have others : ∀ x ∈ opened, ∀ c ∈ s.children x,
      (Pending (queue ++ s.children current) (current :: opened) c ↔ Pending (current :: queue) opened c) := by
    intro x hx c hc
    rw [pending_iff]
    refine or_iff_left fun hc' => ?_
    have h1 := T.child_parent (W.opened_mem hx) hc
    rw [T.child_parent hcm hc', Option.some.injEq] at h1
    exact outside (.inr (h1 ▸ hx))
  refine ⟨W.counted, ?_, ?_, ?_, ?_, ?_, ?_, ?_, ?_, ?_, ?_, ?_⟩
  · refine (nodup_cons.mp W.queue_nodup).2.append (T.children_nodup current hcm) ?_
    intro x hx hx'
    exact new x hx' (.inl (mem_cons_of_mem current hx))
  · exact nodup_cons.mpr ⟨fun h => outside (.inr h), W.opened_nodup⟩
  · intro x hx hx'
    rcases mem_append.mp hx with hq | hc
    · rcases mem_cons.mp hx' with rfl | ho
      · exact outside (.inl hq)
      · exact W.disjoint x (mem_cons_of_mem current hq) ho
    · rcases mem_cons.mp hx' with rfl | ho
      · exact T.child_ne hcm hc rfl
      · exact new x hc (.inr ho)
  · intro x hx
    rcases (pending_iff x).mp hx with old | hc
    · exact W.below x old
    · exact ⟨T.child_mem hcm hc, (W.below current (.inl mem_cons_self)).2.trans (T.child_above hcm hc)⟩
  · intro x hx hne
    rcases (pending_iff x).mp hx with old | hc
    · obtain ⟨q, hq, h⟩ := W.parent_opened x old hne
      exact ⟨q, mem_cons_of_mem current hq, h⟩
    · exact ⟨current, mem_cons_self, T.child_parent hcm hc⟩
  · intro x hx
    rcases mem_cons.mp hx with rfl | ho
    · exact unsized
    · exact W.unsized x ho
  · intro x hx
    rcases mem_cons.mp hx with rfl | ho
    · rw [W.fresh x (fun h => outside (.inr h)) unsized, eq_comm]
      classical
      unfold ready
      rw [countP_eq_zero]
      intro c hc
      simp only [decide_eq_true_eq, not_not]
      exact (pending_iff c).mpr (.inr hc)
    · rw [W.count x ho]
      exact (ready_congr (others x ho)).symm
  · intro x hx c hc hp
    rcases mem_cons.mp hx with rfl | ho
    · exact absurd ((pending_iff c).mpr (.inr hc)) hp
    · exact W.known x ho c hc fun h => hp ((pending_iff c).mpr (.inl h))
  · intro x hx
    rcases mem_cons.mp hx with rfl | ho
    · obtain ⟨c, hc⟩ := exists_mem_of_ne_nil _ kids
      exact ⟨c, hc, (pending_iff c).mpr (.inr hc)⟩
    · obtain ⟨c, hc, h⟩ := W.waits x ho
      exact ⟨c, hc, (pending_iff c).mpr (.inl h)⟩
  · exact fun x hx hn => W.fresh x (fun h => hx (mem_cons_of_mem current h)) hn
  · exact W.start.imp_left fun h => (pending_iff block).mpr (.inl h)

theorem Waiting.finish (T : s.IsTree origin) (here : current = block) (sized : (sizes current).isSome) :
    Waiting s block queue opened counts sizes := by
  subst here
  have pending_iff : ∀ x, x ≠ current → (Pending (current :: queue) opened x ↔ Pending queue opened x) := by
    intro x hx
    rw [pending_cons]
    exact or_iff_right hx
  -- it is not below an open block
  have others : ∀ x ∈ opened, ∀ c ∈ s.children x, (Pending queue opened c ↔ Pending (current :: queue) opened c) := by
    intro x hx c hc
    refine (pending_iff c ?_).symm
    rintro rfl
    exact T.not_above_of_child (W.opened_mem hx) hc (W.below x (.inr hx)).2
  refine ⟨W.counted, (nodup_cons.mp W.queue_nodup).2, W.opened_nodup, ?_, ?_, ?_, W.unsized, ?_, ?_, ?_,
    W.fresh, .inr sized⟩
  · exact fun x hx => W.disjoint x (mem_cons_of_mem current hx)
  · exact fun x hx => W.below x (pending_cons.mpr (.inr hx))
  · exact fun x hx hne => W.parent_opened x (pending_cons.mpr (.inr hx)) hne
  · intro x hx
    rw [W.count x hx]
    exact (ready_congr (others x hx)).symm
  · exact fun x hx c hc hp => W.known x hx c hc fun h => hp ((others x hx c hc).mpr h)
  · intro x hx
    obtain ⟨c, hc, h⟩ := W.waits x hx
    exact ⟨c, hc, (others x hx c hc).mpr h⟩

variable (T : s.IsTree origin) (ne : current ≠ block) (sized : (sizes current).isSome) (hp : s.parent current = some p)

include ne hp

theorem Waiting.parent_mem_opened : p ∈ opened := by
  obtain ⟨q, hq, h⟩ := W.parent_opened current (.inl mem_cons_self) ne
  rw [hp, Option.some.injEq] at h
  exact h ▸ hq

include T

theorem Waiting.count_succ : ready s queue opened p = counts p + 1 := by
  have hpo := W.parent_mem_opened ne hp
  rw [W.count p hpo]
  exact ready_report T (W.opened_mem hpo) (T.mem_children_of_parent W.current_mem hp) W.not_pending

/-- Only the parent has the block as a child. -/
theorem Waiting.pending_of_other {x c : H} (hx : x ∈ opened) (hxp : x ≠ p) (hc : c ∈ s.children x) :
    Pending (current :: queue) opened c ↔ Pending queue opened c := by
  rw [pending_cons]
  refine or_iff_right ?_
  rintro rfl
  have := T.child_parent (W.opened_mem hx) hc
  rw [hp, Option.some.injEq] at this
  exact hxp this.symm

include sized

/-- A counted block is reported to its parent, which waits for another child. -/
theorem Waiting.report [DecidableEq H] (more : counts p + 1 < (s.children p).length) :
    Waiting s block queue opened (update counts p (counts p + 1)) sizes := by
  have hpo := W.parent_mem_opened ne hp
  have succ := W.count_succ T ne hp
  refine ⟨W.counted, (nodup_cons.mp W.queue_nodup).2, W.opened_nodup, ?_, ?_, ?_, W.unsized, ?_, ?_, ?_, ?_, ?_⟩
  · exact fun x hx => W.disjoint x (mem_cons_of_mem current hx)
  · exact fun x hx => W.below x (pending_cons.mpr (.inr hx))
  · exact fun x hx hne => W.parent_opened x (pending_cons.mpr (.inr hx)) hne
  · intro x hx
    by_cases hxp : x = p
    · rw [hxp, update_self, succ]
    · rw [update_of_ne hxp, W.count x hx]
      exact ready_congr fun c hc => W.pending_of_other T ne hp hx hxp hc
  · intro x hx c hc hnp
    by_cases hcc : c = current
    · exact hcc ▸ sized
    · exact W.known x hx c hc fun h => hnp ((pending_cons.mp h).resolve_left hcc)
  · intro x hx
    by_cases hxp : x = p
    · subst hxp
      exact ready_lt_iff.mp (succ ▸ more)
    · obtain ⟨c, hc, h⟩ := W.waits x hx
      exact ⟨c, hc, (W.pending_of_other T ne hp hx hxp hc).mp h⟩
  · intro x hx hn
    rw [update_of_ne]
    · exact W.fresh x hx hn
    · rintro rfl
      exact hx hpo
  · rcases W.start with h | h
    · exact .inl ((pending_cons.mp h).resolve_left (Ne.symm ne))
    · exact .inr h

/-- With its last child a block is counted itself. -/
theorem Waiting.close [DecidableEq H] (all : ¬ counts p + 1 < (s.children p).length) :
    (∀ c ∈ s.children p, (sizes c).isSome) ∧
      Waiting s block (p :: queue) (opened.erase p) (update counts p (counts p + 1))
        (update sizes p (some (s.weight p))) := by
  have hpo := W.parent_mem_opened ne hp
  have hpm := W.opened_mem hpo
  have succ := W.count_succ T ne hp
  have free : ∀ c ∈ s.children p, ¬ Pending queue opened c := by
    intro c hc pending
    exact all (succ ▸ ready_lt_iff.mpr ⟨c, hc, pending⟩)
  have known : ∀ c ∈ s.children p, (sizes c).isSome := by
    intro c hc
    by_cases hcc : c = current
    · exact hcc ▸ sized
    · exact W.known p hpo c hc fun h => free c hc ((pending_cons.mp h).resolve_left hcc)
  have mem_erase : ∀ x, x ∈ opened.erase p ↔ x ≠ p ∧ x ∈ opened := fun x => W.opened_nodup.mem_erase_iff
  have pending_iff : ∀ x, Pending (p :: queue) (opened.erase p) x ↔ Pending queue opened x := by
    intro x
    unfold Pending
    rw [mem_cons, mem_erase]
    by_cases hxp : x = p
    · simp [hxp, hpo]
    · simp [hxp]
  refine ⟨known, W.counted.update hpm known, ?_, W.opened_nodup.erase p, ?_, ?_, ?_, ?_, ?_, ?_, ?_, ?_, ?_⟩
  · refine nodup_cons.mpr ⟨fun h => ?_, (nodup_cons.mp W.queue_nodup).2⟩
    exact W.disjoint p (mem_cons_of_mem current h) hpo
  · intro x hx ho
    obtain ⟨hxp, ho⟩ := (mem_erase x).mp ho
    exact W.disjoint x (mem_cons_of_mem current ((mem_cons.mp hx).resolve_left hxp)) ho
  · exact fun x hx => W.below x (pending_cons.mpr (.inr ((pending_iff x).mp hx)))
  · intro x hx hne
    obtain ⟨q, hq, h⟩ := W.parent_opened x (pending_cons.mpr (.inr ((pending_iff x).mp hx))) hne
    refine ⟨q, (mem_erase q).mpr ⟨?_, hq⟩, h⟩
    rintro rfl
    have hxm := (W.below x (pending_cons.mpr (.inr ((pending_iff x).mp hx)))).1
    exact free x (T.mem_children_of_parent hxm h) ((pending_iff x).mp hx)
  · intro x hx
    obtain ⟨hxp, ho⟩ := (mem_erase x).mp hx
    rw [update_of_ne hxp]
    exact W.unsized x ho
  · intro x hx
    obtain ⟨hxp, ho⟩ := (mem_erase x).mp hx
    rw [update_of_ne hxp, W.count x ho]
    refine ready_congr fun c hc => ?_
    rw [pending_iff]
    exact W.pending_of_other T ne hp ho hxp hc
  · intro x hx c hc hnp
    obtain ⟨hxp, ho⟩ := (mem_erase x).mp hx
    refine isSome_update (W.known x ho c hc fun h => hnp ((pending_iff c).mpr ?_))
    exact (W.pending_of_other T ne hp ho hxp hc).mp h
  · intro x hx
    obtain ⟨hxp, ho⟩ := (mem_erase x).mp hx
    obtain ⟨c, hc, h⟩ := W.waits x ho
    exact ⟨c, hc, (pending_iff c).mpr ((W.pending_of_other T ne hp ho hxp hc).mp h)⟩
  · intro x hx hn
    by_cases hxp : x = p
    · rw [hxp, update_self] at hn
      cases hn
    · rw [update_of_ne hxp] at hn ⊢
      exact W.fresh x (fun h => hx ((mem_erase x).mpr ⟨hxp, h⟩)) hn
  · rcases W.start with h | h
    · exact .inl ((pending_iff block).mpr ((pending_cons.mp h).resolve_left (Ne.symm ne)))
    · exact .inr (isSome_update h)

end Steps

/-! ## The loop -/

variable [DecidableEq H] {fuel : Nat}

theorem pushUp_runs (T : s.IsTree origin) (small : room → s.nodes.length < U64_BOUND)
    (W : Waiting s block (current :: queue) opened counts sizes) (sized : (sizes current).isSome)
    (hf : s.nodes.length < fuel + s.weight current) :
    (pushUp s block fuel current counts sizes).Runs room bad fun next =>
      ∃ opened', Waiting s block queue opened' next.1 next.2 := by
  induction fuel generalizing current counts sizes opened with
  | zero =>
    have := Links.weight_le_length (t := s.toLinks) (x := current)
    omega
  | succ fuel ih =>
    unfold pushUp
    by_cases here : current = block
    · rw [if_pos here]
      exact ⟨opened, W.finish T here sized⟩
    · rw [if_neg here]
      obtain ⟨p, hpo, hp⟩ := W.parent_opened current (.inl mem_cons_self) here
      have hpm := W.opened_mem hpo
      have lighter := T.weight_lt_of_parent W.current_mem hp
      have heavy := Links.weight_le_length (t := s.toLinks) (x := p)
      have total := T.weight_eq hpm
      refine .step (ReachabilityStore.chainParent_of_parent W.current_mem hp) ?_
      refine .step (ReachabilityStore.getChildren_of_mem hpm) ?_
      have kids : (s.children p).length ≤ s.nodes.length :=
        List.Nodup.length_le_of_subset (T.children_nodup p hpm) fun c hc => T.child_mem hpm hc
      have counted := W.count_succ T here hp
      have le : ready s queue opened p ≤ (s.children p).length := ready_le
      refine (U64.add_runs fun hr => ?_).bind fun count _ hcount => ?_
      · have := small hr
        omega
      obtain ⟨rfl, _⟩ := hcount
      by_cases more : counts p + 1 < (s.children p).length
      · rw [if_pos more]
        exact ⟨opened, W.report T here sized hp more⟩
      · rw [if_neg more]
        obtain ⟨known, W'⟩ := W.close T here sized hp more
        refine .step (mapM_subtreeSize W.counted known) ?_
        refine (U64.sum_runs fun hr => ?_).bind fun sum _ hsum => ?_
        · have := small hr
          omega
        refine (U64.add_runs fun hr => ?_).bind fun n _ hn => ?_
        · have := small hr
          omega
        have weight : n = s.weight p := by omega
        rw [weight]
        refine ih W' ?_ (by omega)
        rw [update_self]
        rfl

theorem countLoop_runs (T : s.IsTree origin) (small : room → s.nodes.length < U64_BOUND)
    (W : Waiting s block queue opened counts sizes) (hf : (queue.map s.weight).sum ≤ fuel) :
    (countLoop s block fuel queue counts sizes).Runs room bad fun sizes' => Counted s sizes' ∧
      (sizes' block).isSome := by
  induction fuel generalizing queue counts sizes opened with
  | zero =>
    cases queue with
    | nil => exact ⟨W.counted, W.done T⟩
    | cons current queue =>
      have := Links.weight_pos W.current_mem
      rw [map_cons, sum_cons] at hf
      omega
  | succ fuel ih =>
    cases queue with
    | nil => exact ⟨W.counted, W.done T⟩
    | cons current queue =>
      have hcm := W.current_mem
      have pos := Links.weight_pos hcm
      rw [map_cons, sum_cons] at hf
      have hfuel : s.nodes.length < s.nodes.length + s.weight current := by omega
      refine .step (ReachabilityStore.getChildren_of_mem hcm) ?_
      by_cases leaf : s.children current = []
      · rw [leaf]
        refine (pushUp_runs T small (W.leaf T leaf) (by rw [update_self]; rfl) hfuel).bind fun next _ h => ?_
        obtain ⟨opened', W'⟩ := h
        exact ih W' (by omega)
      · rw [if_neg (by simpa using leaf)]
        by_cases unsized : sizes current = none
        · rw [unsized]
          refine ih (W.expand T unsized leaf) ?_
          have total := T.weight_eq hcm
          rw [map_append, sum_append]
          omega
        · have sized := Option.isSome_iff_ne_none.mpr unsized
          rw [if_neg (by simpa using unsized)]
          refine (pushUp_runs T small W sized hfuel).bind fun next _ h => ?_
          obtain ⟨opened', W'⟩ := h
          exact ih W' (by omega)

omit [DecidableEq H] in
theorem waiting_start (counted : Counted s sizes) (hb : block ∈ s.nodes) :
    Waiting s block [block] [] (fun _ => 0) sizes where
  counted := counted
  queue_nodup := nodup_singleton block
  opened_nodup := nodup_nil
  disjoint _ _ := not_mem_nil
  below x hx := by
    rcases hx with h | h
    · obtain rfl := mem_singleton.mp h
      exact ⟨hb, .refl⟩
    · cases h
  parent_opened x hx hne := by
    rcases hx with h | h
    · exact absurd (mem_singleton.mp h) hne
    · cases h
  unsized _ h := absurd h not_mem_nil
  count _ h := absurd h not_mem_nil
  known _ h := absurd h not_mem_nil
  waits _ h := absurd h not_mem_nil
  fresh _ _ _ := rfl
  start := .inl (.inl mem_cons_self)

/-- **Subtrees are counted.** The other contents of the context stay. -/
theorem countSubtrees_runs {ctx : ReindexOperationContext H} (T : ctx.store.IsTree origin)
    (small : room → ctx.store.nodes.length < U64_BOUND) (counted : Counted ctx.store ctx.subtreeSizes)
    (hb : block ∈ ctx.store.nodes) :
    (ctx.countSubtrees block).Runs room bad fun ctx' =>
      ∃ sizes', ctx' = { ctx with subtreeSizes := sizes' } ∧ Counted ctx.store sizes' ∧
        sizes' block = some (ctx.store.weight block) := by
  unfold countSubtrees
  by_cases known : (ctx.subtreeSizes block).isSome
  · rw [if_pos known]
    exact ⟨ctx.subtreeSizes, rfl, counted, counted.eq known⟩
  · rw [if_neg known]
    refine (countLoop_runs T small (waiting_start counted hb) ?_).bind fun sizes' _ h => ?_
    · simpa using Links.weight_le_length
    · exact ⟨sizes', rfl, h.1, h.1.eq h.2⟩

end ReindexOperationContext

end Firecash
