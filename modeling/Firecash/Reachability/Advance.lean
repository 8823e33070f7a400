import Firecash.Reachability.Tree

/-!
# Moving the reindex root

The new reindex root is a block with children on the chain to the hint, and the concentration starts at a
block above the old reindex root (`findNextReindexRoot_runs`). The loop of concentrations seats everything
below the block it starts at (`concentrateLoop_runs`). Together with the insertions: what holds in every
state of a run (`Reached.steady`).
-/

namespace Firecash

open Checked (U64_BOUND)
open IntervalRow ReindexOperationContext Links ReachabilityStore Firecash.Interval

namespace ReachabilityStore

variable {H : Type} [DecidableEq H] {s s' : ReachabilityStore H} {f f' : H → Interval}
    {origin a current hint next x y : H} {slack depth : Nat}
  {room : Prop} {bad : ReachabilityError H → Prop} {share : Nat → List Nat → Nat → Nat}

/-! ## The next reindex root -/

namespace Sound

variable (S : s.Sound origin)

include S

variable {fuel : Nat}

theorem findCommonTreeAncestor_runs (hroot : current ∈ s.nodes) (hx : x ∈ s.nodes) (hh : s.Above x hint)
    (hf : s.nodes.length < fuel + s.weight x) :
    (s.findCommonTreeAncestor current fuel x).Runs room bad fun a => s.Above a current ∧ s.Above a hint := by
  induction fuel generalizing x with
  | zero =>
    have := weight_le_length (t := s.toLinks) (x := x)
    omega
  | succ fuel ih =>
    obtain ⟨answer, query, exact⟩ := S.isChainAncestorOf_eq hx hroot
    refine .step query ?_
    by_cases found : answer = true
    · rw [if_pos found]
      exact ⟨exact.mp found, hh⟩
    · rw [if_neg found]
      cases hp : s.parent x with
      | none =>
        -- the origin is above every block
        obtain rfl := (S.tree.parent_eq_none_iff hx).mp hp
        exact absurd (exact.mpr (S.tree.root_above hroot)) found
      | some p =>
        refine .step (chainParent_of_parent hx hp) ?_
        have := S.tree.weight_lt_of_parent hx hp
        exact ih (S.tree.parent_mem hx hp) ((Links.Above.of_parent hp).trans hh) (by omega)

/-- No child of a block is above it, so there is no next one. -/
theorem getNextChainAncestorUnchecked_self (hx : x ∈ s.nodes) :
    s.getNextChainAncestorUnchecked x x = .error (.err .badQuery) := by
  obtain ⟨i, miss, _⟩ := binarySearchDescendant_notFound (fun c hc => S.tree.child_mem hx hc) hx (S.seated x hx)
    (fun c hc inside => by have := (S.seated x hx).child hc; omega) fun c hc => S.nonempty (S.tree.child_mem hx hc)
  unfold getNextChainAncestorUnchecked
  rw [getChildren_of_mem hx]
  dsimp only [bind, Except.bind]
  rw [miss]

theorem findNextLoop_runs (hhint : hint ∈ s.nodes) (hx : s.Above x hint) (hf : s.weight x ≤ fuel)
    (hbad : bad .badQuery) :
    (s.findNextLoop hint (s.height hint) depth fuel x).Runs room bad fun next =>
      next ∈ s.nodes ∧ s.Above x next ∧ s.children next ≠ [] := by
  have hxm := S.tree.above_mem hx hhint
  induction fuel generalizing x with
  | zero =>
    have := weight_pos hxm
    omega
  | succ fuel ih =>
    unfold findNextLoop
    by_cases last : x = hint
    · subst last
      rw [S.getNextChainAncestorUnchecked_self hxm]
      exact hbad
    · obtain ⟨c, hc, hch, _, found⟩ := S.getNextChainAncestor_eq hhint hx last
      have hcm := S.tree.child_mem hxm hc
      refine .step found (.step (getHeight_of_mem hcm) ?_)
      rw [if_neg (Nat.not_lt.mpr (S.tree.height_le hch hhint))]
      by_cases near : s.height hint - s.height c < depth
      · rw [if_pos near]
        exact ⟨hxm, .refl, List.ne_nil_of_mem hc⟩
      · rw [if_neg near]
        have := S.tree.weight_child_lt hxm hc
        refine (ih hch (by omega) hcm).mono fun next h => ?_
        exact ⟨h.1, (S.tree.child_above hxm hc).trans h.2.1, h.2.2⟩

theorem findNextReindexRoot_runs (hcurrent : current ∈ s.nodes) (hhint : hint ∈ s.nodes) (hbad : bad .badQuery) :
    (s.findNextReindexRoot current hint depth slack).Runs room bad fun found => found.2 = current ∨
      found.2 ∈ s.nodes ∧ s.Above found.1 current ∧ s.Above found.1 found.2 ∧ s.children found.2 ≠ [] := by
  unfold findNextReindexRoot
  refine .step (getHeight_of_mem hhint) ?_
  obtain ⟨answer, query, exact⟩ := S.isChainAncestorOf_eq hcurrent hhint
  refine .step query ?_
  by_cases onChain : answer = true
  · rw [if_pos onChain]
    refine (S.findNextLoop_runs hhint (exact.mp onChain) weight_le_length hbad).bind fun next _ h => ?_
    exact .inr ⟨h.1, .refl, h.2.1, h.2.2⟩
  · rw [if_neg onChain]
    refine .step (getHeight_of_mem hcurrent) ?_
    by_cases early : s.height hint < s.height current ∨ s.height hint - s.height current < slack
    · rw [if_pos early]
      exact .inl rfl
    · rw [if_neg early]
      have pos := weight_pos hhint
      refine (S.findCommonTreeAncestor_runs hcurrent hhint .refl (by omega)).bind fun common _ h => ?_
      refine (S.findNextLoop_runs hhint h.2 weight_le_length hbad).bind fun next _ h' => ?_
      exact .inr ⟨h'.1, h.1, h'.2.1, h'.2.2⟩

end Sound

/-! ## The loop of concentrations -/

/-- Everything strictly below a block is seated, whatever its own interval is. -/
structure SeatedBelow (s : ReachabilityStore H) (a : H) (f : H → Interval) : Prop where
  kids : ∃ lo hi, Row (starts f) (ends f) lo hi (s.children a)
  below : ∀ y ∈ s.nodes, s.Above a y → y ≠ a → (s.withIntervals f).Seated y

/-- The interval of a block has room for the concentrations below it. -/
def Spacious (s : ReachabilityStore H) (slack : Nat) (a : H) (f : H → Interval) : Prop :=
  1 ≤ (f a).start ∧ (f a).start + (2 * slack + 1) * s.weight a ≤ (f a).stop + 1 ∧ (f a).stop + 1 < U64_BOUND

section Loop

variable (T : s.IsTree origin)

include T

/-- The child on the way, in a tree where only the block itself may not be seated. -/
theorem SeatedBelow.exists_next (B : SeatedBelow s a f) (hnext : next ∈ s.nodes) (above : s.Above a next)
    (ne : a ≠ next) :
    ∃ c ∈ s.children a, s.Above c next ∧ (s.withIntervals f).getNextChainAncestorUnchecked next a = .ok c := by
  have ha := T.above_mem above hnext
  obtain ⟨c, hc, hcn⟩ := T.exists_child above hnext ne
  have seated : ∀ {d z : H}, d ∈ s.children a → z ∈ s.nodes → s.Above d z → (s.withIntervals f).Seated z :=
    fun hd hz hdz =>
    B.below _ hz (T.strict_of_child ha hd hdz).1 (T.strict_of_child ha hd hdz).2
  obtain ⟨lo, hi, row⟩ := B.kids
  have sub := interval_subset (s := s.withIntervals f) T hcn hnext fun x hcx hxn _ =>
      seated hc (T.above_mem hxn hnext) hcx
  refine ⟨c, hc, hcn, getNextChainAncestorUnchecked_eq T ha hnext row (fun x hx _ => ?_) hc
    (seated hc hnext hcn).nonempty (decide_eq_true ⟨sub.1, sub.2.1⟩)⟩
  exact (seated hx (T.child_mem ha hx) .refl).nonempty

section Step

variable {c : H} {final : Bool} {f₁ g : H → Interval} (ha : a ∈ s.nodes) (hc : c ∈ s.children a)
    (C : Concentrated s a c slack final f f₁)

include ha hc C

/-- Once everything below the chosen child is seated, everything below its parent is. -/
theorem seated_of_concentrated (same : SameOutside s c f₁ g) (done : SubtreeSeated s c g) :
    SameOutside s a f g ∧ SubtreeSeated s a g := by
  have sibling : ∀ {z y : H}, z ∈ s.children a → z ≠ c → s.Above z y → g y = f₁ y := fun hz ne hzy =>
    same _ fun h => ne (T.child_unique ha hz hc hzy h.1)
  refine ⟨fun y hy => ?_, fun y hy hay => ?_⟩
  · rw [same y fun h => hy (T.strict_of_child ha hc h.1), C.frame y hy]
  · by_cases top : a = y
    · subst top
      have nonempty := (done c (T.child_mem ha hc) .refl).nonempty
      rw [withIntervals_interval, same c fun h => h.2 rfl] at nonempty
      refine (C.parent nonempty).congr rfl (same a fun h => T.not_above_of_child ha hc h.1) fun z hz => ?_
      by_cases hzc : z = c
      · subst hzc
        exact same z fun h => h.2 rfl
      · exact sibling hz hzc .refl
    · obtain ⟨z, hz, hzy⟩ := T.exists_child hay hy top
      by_cases hzc : z = c
      · subst hzc
        exact done y hy hzy
      · exact SubtreeSeated.congr T (C.beside z hz hzc) (fun _ => sibling hz hzc) y hy hzy

omit [DecidableEq H] in
/-- Before the last step, what is below the chosen child is as it was. -/
theorem seatedBelow_of_concentrated (no : final = false) (seated : SubtreeSeated s c f) :
    SeatedBelow s c f₁ := by
  have hcm := T.child_mem ha hc
  have kept : ∀ {y d : H}, y ∈ s.nodes → s.Above c y → d ∈ s.children y → f₁ d = f d := fun hy hcy hd =>
    C.kept no _ (hcy.trans (T.child_above hy hd)) fun eq => T.not_above_of_child hy (eq ▸ hd) hcy
  refine ⟨⟨_, _, row_congr (seated c hcm .refl) fun d hd => kept hcm .refl hd⟩, fun y hy hcy ne => ?_⟩
  exact (seated y hy hcy).congr rfl (C.kept no y hcy ne) fun d hd => kept hy hcy hd

omit [DecidableEq H] T ha hc in
theorem spacious_of_concentrated (spacious : Spacious s slack a f) : Spacious s slack c f₁ := by
  obtain ⟨before, after, weight, start, stop⟩ := C.share
  obtain ⟨positive, large, bound⟩ := spacious
  have scaled : (2 * slack + 1) * (1 + before + after) ≥ (2 * slack + 1) + before + after := by
    have := Nat.le_mul_of_pos_left (before + after) (show 0 < 2 * slack + 1 by omega)
    rw [Nat.add_assoc, Nat.mul_add, Nat.mul_one]
    omega
  have split : (2 * slack + 1) * s.weight a = (2 * slack + 1) * s.weight c +
      (2 * slack + 1) * (1 + before + after) := by
    rw [← Nat.mul_add]
    congr 1
    omega
  exact ⟨by omega, by omega, by omega⟩

end Step

variable (small : room → s.nodes.length < U64_BOUND)

include small

/-- **The concentrations.** Everything below the block they start at is seated. -/
theorem concentrateLoop_runs {fuel : Nat} (hnext : next ∈ s.nodes) (inner : s.children next ≠ [])
    (above : s.Above a next) (ne : a ≠ next)
    (hf : s.weight a ≤ fuel) (B : SeatedBelow s a f) (spacious : room → Spacious s slack a f) :
    (concentrateLoop share slack next fuel a (s.withIntervals f)).Runs room bad fun s' =>
      ∃ f', s' = s.withIntervals f' ∧ SameOutside s a f f' ∧ SubtreeSeated s a f' := by
  induction fuel generalizing a f with
  | zero =>
    have := weight_pos (T.above_mem above hnext)
    omega
  | succ fuel ih =>
    have ha := T.above_mem above hnext
    obtain ⟨c, hc, hcn, found⟩ := B.exists_next T hnext above ne
    have hcm := T.child_mem ha hc
    have lighter := T.weight_child_lt ha hc
    have innerC : s.children c ≠ [] := by
      by_cases last : c = next
      · subst last
        exact inner
      · obtain ⟨d, hd, _⟩ := T.exists_child hcn hnext last
        exact List.ne_nil_of_mem hd
    have seatedC : SubtreeSeated s c f := fun y hy hcy =>
      B.below y hy (T.strict_of_child ha hc hcy).1 (T.strict_of_child ha hc hcy).2
    have here : At s slack f (.new (s.withIntervals f) slack) := ⟨fun _ => none, rfl, counted_empty⟩
    unfold concentrateLoop
    rw [if_neg ne]
    refine .step found ?_
    refine (concentrateInterval_runs T small ha hc innerC seatedC here spacious).bind fun ctx _ h => ?_
    obtain ⟨f₁, here₁, C⟩ := h
    rw [here₁.store_eq]
    by_cases last : c = next
    · -- the last one was refilled
      have final : decide (c = next) = true := decide_eq_true last
      unfold concentrateLoop
      rw [if_pos last]
      exact ⟨f₁, rfl, seated_of_concentrated T ha hc C (fun _ _ => rfl) (C.chosen final)⟩
    · have final : decide (c = next) = false := decide_eq_false last
      refine (ih hcn last (by omega) (seatedBelow_of_concentrated T ha hc C final seatedC) fun hr =>
        spacious_of_concentrated C (spacious hr)).mono fun s' h => ?_
      obtain ⟨f₂, rfl, same, done⟩ := h
      exact ⟨f₂, rfl, seated_of_concentrated T ha hc C same done⟩

end Loop

/-! ## An advance -/

/-- What an advance leaves as it was. -/
structure Moves (s s' : ReachabilityStore H) : Prop where
  links : s'.toLinks = s.toLinks
  covering : s'.futureCoveringSet = s.futureCoveringSet

/-- **An advance.** A hint it cannot move towards is a bad query. -/
theorem tryAdvancingReindexRoot_runs (K : s.Steady origin) (hhint : hint ∈ s.nodes) (roomy : room → s.Roomy slack)
    (hbad : bad .badQuery) :
    (s.tryAdvancingReindexRoot share hint depth slack).Runs room bad fun s' => Moves s s' ∧ s'.Steady origin := by
  have S := K.sound
  have T := S.tree
  unfold tryAdvancingReindexRoot
  refine (S.findNextReindexRoot_runs S.root_mem hhint hbad).bind fun found _ h => ?_
  obtain ⟨a, next⟩ := found
  dsimp only at h ⊢
  by_cases stay : s.reindexRoot = next
  · rw [if_pos stay]
    exact ⟨⟨rfl, rfl⟩, K⟩
  · rw [if_neg stay]
    obtain ⟨hnext, above, down, inner⟩ := h.resolve_left (Ne.symm stay)
    by_cases ne : a = next
    · -- the new reindex root is above the old one
      subst ne
      unfold concentrateLoop
      rw [if_pos rfl]
      exact ⟨⟨rfl, rfl⟩, ⟨T, S.origin_interval, hnext, S.seated⟩, K.low, fun _ => inner⟩
    · have ha := T.above_mem above S.root_mem
      have B : SeatedBelow s a s.interval := ⟨⟨_, _, S.seated a ha⟩, fun y hy _ _ => S.seated y hy⟩
      have spacious : room → Spacious s slack a s.interval := by
        intro hr
        have large := roomy hr
        unfold Roomy at large
        have sub := S.subset above S.root_mem
        have bounds := S.bounds ha
        have light := weight_le_length (t := s.toLinks) (x := a)
        have : (2 * slack + 1) * s.weight a ≤ 2 * (slack + 1) * (s.nodes.length + 1) :=
          Nat.mul_le_mul (by omega) (by omega)
        exact ⟨bounds.1, by omega, bounds.2⟩
      have small : room → s.nodes.length < U64_BOUND := fun hr => by
        have := K.length_lt (roomy hr)
        omega
      refine (concentrateLoop_runs T small hnext inner down ne weight_le_length B spacious).bind fun s' _ h => ?_
      obtain ⟨f', rfl, same, done⟩ := h
      have top : f' origin = maximal := (SameOutside.top T same ha).trans S.origin_interval
      have seated : ∀ y ∈ s.nodes, (s.withIntervals f').Seated y := by
        intro y hy
        by_cases below : s.Above a y
        · exact done y hy below
        · exact SameOutside.seated T same hy below (S.seated y hy)
      exact ⟨⟨rfl, rfl⟩, ⟨T, top, hnext, seated⟩, K.low, fun _ => inner⟩

/-! ## Runs -/

/-- The states of a tree under insertions and hints, with any depth and slack in each call. A bad query
leaves the store as it was; the other errors and panics end the run. -/
inductive TreeReached (share : Nat → List Nat → Nat → Nat) (origin : H) : ReachabilityStore H → Prop
  | init : TreeReached share origin (.init origin maximal)
  | add {s s' : ReachabilityStore H} {new parent : H} {depth slack : Nat} : TreeReached share origin s →
    new ∉ s.nodes → parent ∈ s.nodes →
      s.addTreeBlock share new parent depth slack = .ok s' → TreeReached share origin s'
  | advance {s s' : ReachabilityStore H} {hint : H} {depth slack : Nat} : TreeReached share origin s → hint ∈ s.nodes →
      s.tryAdvancingReindexRoot share hint depth slack = .ok s' → TreeReached share origin s'

omit [DecidableEq H] in
theorem steady_init : (init origin maximal).Steady origin where
  sound := by
    refine ⟨⟨?_, ?_, rfl, ?_, ?_, ?_, ?_⟩, rfl, List.mem_singleton.mpr rfl, fun x hx => ?_⟩
    · exact List.nodup_singleton origin
    · exact List.mem_singleton.mpr rfl
    · exact fun x hx ne => absurd (List.mem_singleton.mp hx) ne
    · exact fun p _ c => ⟨nofun, fun h => nomatch h.2⟩
    · exact fun p _ => List.nodup_nil
    · exact fun x _ p hp => nomatch hp
    · show (1 : Nat) ≤ 18446744073709551614
      decide
  low x _ := Nat.zero_lt_one
  inner ne := absurd rfl ne

/-- **Every state of a run is a sound tree.** -/
theorem TreeReached.steady (h : TreeReached share origin s) : s.Steady origin := by
  induction h with
  | init => exact steady_init
  | @add s s' new parent depth slack _ fresh hp ok ih =>
    have runs : (s.addTreeBlock share new parent depth slack).Runs False (fun _ => True) fun s' =>
        Grown s new parent s' ∧ s'.Steady origin :=
      addTreeBlock_runs ih fresh hp False.elim fun _ _ _ => trivial
    exact (runs.of_ok ok).2
  | @advance s s' hint depth slack _ hhint ok ih =>
    have runs : (s.tryAdvancingReindexRoot share hint depth slack).Runs False (fun _ => True) fun s' => Moves s s' ∧
        s'.Steady origin :=
      tryAdvancingReindexRoot_runs ih hhint False.elim trivial
    exact (runs.of_ok ok).2

/-- **The interval tree is sound in every state of a run**: intervals are not empty, children stand in
their parent's interval without its last number, in the order of the children, and chain queries are
exact. With room in the interval of the reindex root no call underflows, overflows or runs out of
capacity. -/
theorem interval_tree_sound (h : TreeReached share origin s) :
    (∀ x ∈ s.nodes, (s.interval x).start ≤ (s.interval x).stop) ∧
    (∀ p ∈ s.nodes, ∀ c ∈ s.children p, (s.interval p).start ≤ (s.interval c).start ∧
      (s.interval c).stop < (s.interval p).stop) ∧
    (∀ p ∈ s.nodes, (s.children p).Pairwise fun c d => (s.interval c).stop < (s.interval d).start) ∧
    (∀ a ∈ s.nodes, ∀ b ∈ s.nodes, ∃ answer, s.isChainAncestorOf a b = .ok answer ∧ (answer = true ↔ s.Above a b)) ∧
    ∀ slack, s.Roomy slack →
      (∀ new parent depth, new ∉ s.nodes → parent ∈ s.nodes →
        ∃ s', s.addTreeBlock share new parent depth slack = .ok s') ∧
      ∀ hint depth, hint ∈ s.nodes → (∃ s', s.tryAdvancingReindexRoot share hint depth slack = .ok s') ∨
        s.tryAdvancingReindexRoot share hint depth slack = .error (.err .badQuery) := by
  have K := h.steady
  have S := K.sound
  refine ⟨fun x hx => S.nonempty hx, fun p hp c hc => ?_, fun p hp => Row.pairwise (S.seated p hp), fun a ha b hb =>
    S.isChainAncestorOf_eq ha hb, fun slack roomy => ⟨fun new parent depth fresh hp => ?_, fun hint depth hhint => ?_⟩⟩
  · have := (S.seated p hp).child hc
    exact ⟨this.1, this.2.2⟩
  · have runs : (s.addTreeBlock share new parent depth slack).Runs (s.Roomy slack) (fun _ => False) fun s' =>
        Grown s new parent s' ∧ s'.Steady origin := addTreeBlock_runs K fresh hp id fun _ _ no => absurd roomy no
    obtain ⟨s', ok, _⟩ := runs.exists_ok roomy
    exact ⟨s', ok⟩
  · have runs : (s.tryAdvancingReindexRoot share hint depth slack).Runs (s.Roomy slack) (· = .badQuery) fun s' =>
        Moves s s' ∧ s'.Steady origin := tryAdvancingReindexRoot_runs K hhint id rfl
    rcases runs.cases roomy with ⟨s', ok, _⟩ | ⟨e, err, rfl⟩
    · exact .inl ⟨s', ok⟩
    · exact .inr err

section Concrete

/-- Two blocks above the origin. -/
def pair : Reach Nat (ReachabilityStore Nat) := do
  let s ← (init 0 maximal).addTreeBlock (fun _ _ _ => 0) 1 0 100 16384
  s.addTreeBlock (fun _ _ _ => 0) 2 1 100 16384

theorem pair_reached : ∃ s, pair = .ok s ∧ s.nodes = [2, 1, 0] ∧ TreeReached (fun _ _ _ => 0) 0 s := by
  have names₁ : ((init 0 maximal).addTreeBlock (fun _ _ _ => 0) 1 0 100 16384).map (·.nodes) = .ok [1, 0] := by
    decide +kernel
  have names₂ : pair.map (·.nodes) = .ok [2, 1, 0] := by decide +kernel
  obtain ⟨s₁, first, nodes₁⟩ := Except.map_eq_ok_iff.mp names₁
  obtain ⟨s₂, second, nodes₂⟩ := Except.map_eq_ok_iff.mp names₂
  have reached₁ : TreeReached (fun _ _ _ => 0) 0 s₁ := .add .init (by decide) (by decide) first
  have step : s₁.addTreeBlock (fun _ _ _ => 0) 2 1 100 16384 = .ok s₂ := by
    rw [← second, pair, first]
    rfl
  exact ⟨s₂, second, nodes₂, .add reached₁ (by rw [nodes₁]; decide) (by rw [nodes₁]; decide) step⟩

def advancedPair : Reach Nat (ReachabilityStore Nat) := do
  let s ← pair
  s.tryAdvancingReindexRoot (fun _ _ _ => 0) 2 1 16384

/-- The reindex root moves to the first of them, and there is room for a third one. -/
theorem interval_tree_sound_pair : ∃ s s', advancedPair = .ok s ∧
    s.reindexRoot = 1 ∧ s.Roomy 16384 ∧ (∀ x ∈ s.nodes, (s.interval x).start ≤ (s.interval x).stop) ∧
    s.addTreeBlock (fun _ _ _ => 0) 3 1 100 16384 = .ok s' := by
  have moved : advancedPair.map (fun s => (s.nodes, s.reindexRoot, decide (s.Roomy 16384))) =
      .ok ([2, 1, 0], 1, true) := by
    decide +kernel
  obtain ⟨s, ok, read⟩ := Except.map_eq_ok_iff.mp moved
  obtain ⟨nodes, root, roomy⟩ : s.nodes = [2, 1, 0] ∧ s.reindexRoot = 1 ∧ decide (s.Roomy 16384) = true := by
    simpa using read
  obtain ⟨s₂, pair_ok, nodes₂, reached⟩ := pair_reached
  have step : s₂.tryAdvancingReindexRoot (fun _ _ _ => 0) 2 1 16384 = .ok s := by
    rw [← ok, advancedPair, pair_ok]
    rfl
  obtain ⟨nonempty, -, -, -, returns⟩ := interval_tree_sound (.advance reached (by rw [nodes₂]; decide) step)
  obtain ⟨s', added⟩ :=
    (returns 16384 (of_decide_eq_true roomy)).1 3 1 100 (by rw [nodes]; decide) (by rw [nodes]; decide)
  exact ⟨s, s', ok, root, of_decide_eq_true roomy, nonempty, added⟩

/-- With a slack near the end of the 64-bit numbers the first move of the reindex root underflows. -/
theorem large_slack_underflows : ∃ s, TreeReached (fun _ _ _ => 0) 0 s ∧ 2 ∈ s.nodes ∧
    s.tryAdvancingReindexRoot (fun _ _ _ => 0) 2 1 18446744073709551614 = .error .panic := by
  have underflow : (do (← pair).tryAdvancingReindexRoot (fun _ _ _ => 0) 2 1 18446744073709551614).map (fun _ =>
      ()) = .error .panic := by
    decide +kernel
  obtain ⟨s, ok, nodes, reached⟩ := pair_reached
  rw [ok] at underflow
  refine ⟨s, reached, by rw [nodes]; decide, ?_⟩
  change (s.tryAdvancingReindexRoot (fun _ _ _ => 0) 2 1 18446744073709551614).map (fun _ => ()) =
    .error .panic at underflow
  cases move : s.tryAdvancingReindexRoot (fun _ _ _ => 0) 2 1 18446744073709551614 with
  | ok s' =>
    rw [move] at underflow
    cases underflow
  | error e =>
    rw [move] at underflow
    exact congrArg Except.error (Except.error.inj underflow)

end Concrete

end ReachabilityStore

end Firecash
