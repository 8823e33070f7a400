import Firecash.Lib.GrowingDag
import Firecash.Reachability.Advance

/-!
# Future covering sets (`reachability/inquirer.rs`)

Beside its place in the tree every block has a future covering set: blocks that merged it, in the order of
their intervals. `add_block` hangs a block below its selected parent and puts it into the sets of the
blocks it merges. A block is then an ancestor of another one if it is above it in the tree, or if a block
that covers it is.

`Tracks s g` is that the store answers for the DAG `g`. An insertion keeps it (`Tracks.addBlock_runs`) and
so does a move of the reindex root: the order of two blocks that are not above each other is that of the
children above them where their paths part (`Sorted.extend`). The database keeps a set unordered and sorts
it by the intervals when it is read, which is the order it has here.
-/

namespace Firecash

open List Function IntervalRow Links

open Checked (U64_BOUND)
open GrowingDag (Known known_cons mem_past_cons_self past_cons_of_ne past_eq_empty_of_not_mem)

namespace ReachabilityStore

variable {H : Type} [DecidableEq H]

/-! ## The functions -/

def DEFAULT_REINDEX_DEPTH : Nat := 100

def DEFAULT_REINDEX_SLACK : Nat := 16384

section Functions

variable (s : ReachabilityStore H) (share : Nat → List Nat → Nat → Nat)

def withCovering (sets : H → List H) : ReachabilityStore H := { s with futureCoveringSet := sets }

/-- `Vec::insert` panics on an index beyond the end. -/
def insertFutureCoveringItem (x item : H) (index : Nat) : Reach H (ReachabilityStore H) := do
  let set ← s.getFutureCoveringSet x
  if index ≤ set.length then
    return s.withCovering (update s.futureCoveringSet x (set.take index ++ item :: set.drop index))
  else .error .panic

/-- `insert_to_future_covering_set` (inquirer.rs:132) -/
def insertToFutureCoveringSet (mergedBlock newBlock : H) : Reach H (ReachabilityStore H) := do
  match ← s.binarySearchDescendant (← s.getFutureCoveringSet mergedBlock) newBlock with
  | .found _ _ => .error (.err .dataInconsistency)
  | .notFound i => s.insertFutureCoveringItem mergedBlock newBlock i

def addDagBlock (newBlock : H) (mergeset : List H) : Reach H (ReachabilityStore H) :=
  mergeset.foldlM (fun s mergedBlock => s.insertToFutureCoveringSet mergedBlock newBlock) s

def addBlockWithParams (newBlock selectedParent : H) (mergeset : List H) (reindexDepth reindexSlack : Option Nat) :
    Reach H (ReachabilityStore H) := do
  let s ← s.addTreeBlock share newBlock selectedParent
    (reindexDepth.getD DEFAULT_REINDEX_DEPTH) (reindexSlack.getD DEFAULT_REINDEX_SLACK)
  s.addDagBlock newBlock mergeset

/-- `add_block` (inquirer.rs:24) -/
def addBlock (newBlock selectedParent : H) (mergeset : List H) : Reach H (ReachabilityStore H) :=
  s.addBlockWithParams share newBlock selectedParent mergeset none none

/-- `hint_virtual_selected_parent` (inquirer.rs:150) -/
def hintVirtualSelectedParent (hint : H) : Reach H (ReachabilityStore H) :=
  s.tryAdvancingReindexRoot share hint DEFAULT_REINDEX_DEPTH DEFAULT_REINDEX_SLACK

end Functions

variable {share : Nat → List Nat → Nat → Nat} {s s' : ReachabilityStore H} {origin a b m new parent : H}
    {l mergeset : List H}

/-- A block that covers `a` is on the tree chain of `b`. -/
def Covered (s : ReachabilityStore H) (a b : H) : Prop := ∃ c ∈ s.futureCoveringSet a, s.Above c b

/-! ## Ordered sets -/

/-- Blocks in the order of their intervals. -/
structure Sorted (s : ReachabilityStore H) (l : List H) : Prop where
  mem : ∀ c ∈ l, c ∈ s.nodes
  order : l.Pairwise fun c d => (s.interval c).stop < (s.interval d).start

omit [DecidableEq H] in
theorem sorted_nil : s.Sorted [] := ⟨nofun, .nil⟩

omit [DecidableEq H] in
/-- The order of two blocks stays what it is while the tree grows and is reindexed. -/
theorem Sound.left_extend (S : s.Sound origin) (S' : s'.Sound origin) (E : s.toLinks.Extends s'.toLinks)
    (ha : a ∈ s.nodes)
    (hb : b ∈ s.nodes) (left : (s.interval a).stop < (s.interval b).start) :
    (s'.interval a).stop < (s'.interval b).start := by
  have nonemptyA := S.nonempty ha
  have nonemptyB := S.nonempty hb
  have hab : ¬ s.Above a b := fun h => by
    have := S.subset h hb
    omega
  have hba : ¬ s.Above b a := fun h => by
    have := S.subset h ha
    omega
  obtain ⟨p, hp, c, hc, d, hd, ne, hca, hdb⟩ := S.tree.exists_fork ha hb hab hba
  obtain ⟨more, kids⟩ := E.children p hp
  have row := S'.seated p (E.nodes p hp)
  unfold Seated at row
  rw [kids] at row
  have subA := S.subset hca ha
  have subB := S.subset hdb hb
  have subA' := S'.subset (E.above c a ha hca) (E.nodes a ha)
  have subB' := S'.subset (E.above d b hb hdb) (E.nodes b hb)
  have both := Row.apart_both (S.seated p hp) row hc hd ne
  unfold first past at both
  omega

namespace Sorted

variable (sorted : s.Sorted l) (S : s.Sound origin)

include sorted S

omit [DecidableEq H] in
theorem extend (S' : s'.Sound origin) (E : s.toLinks.Extends s'.toLinks) : s'.Sorted l where
  mem c hc := E.nodes c (sorted.mem c hc)
  order := sorted.order.imp_of_mem fun hc hd left => S.left_extend S' E (sorted.mem _ hc) (sorted.mem _ hd) left

omit [DecidableEq H] in
theorem row : Row s.first s.past 0 U64_BOUND l := by
  refine .of_pairwise sorted.order (fun c hc => ?_) (Nat.zero_le _)
  have := S.nonempty (sorted.mem c hc)
  have := S.bounds (sorted.mem c hc)
  unfold first past
  omega

/-- The search in an ordered set finds a block above the one in question, or its place. -/
theorem search (hb : b ∈ s.nodes) :
    (∃ c ∈ l, s.Above c b) ∧ (∃ c i, s.binarySearchDescendant l b = .ok (.found c i)) ∨
    (∀ c ∈ l, ¬ s.Above c b) ∧ ∃ i, s.binarySearchDescendant l b = .ok (.notFound i) ∧ i ≤ l.length ∧
      (∀ x ∈ l.take i, (s.interval x).stop < (s.interval b).stop) ∧ ∀ x ∈ l.drop i, (s.interval b).stop <
        (s.interval x).start := by
  have full : ∀ x ∈ l, (s.interval x).start ≤ (s.interval x).stop := fun x hx => S.nonempty (sorted.mem x hx)
  by_cases covered : ∃ c ∈ l, s.Above c b
  · obtain ⟨c, hc, hcb⟩ := id covered
    obtain ⟨i, found, -⟩ :=
      binarySearchDescendant_found sorted.mem hb (sorted.row S) (fun x hx _ => full x hx) hc (S.nonempty hb)
      ((S.contains_iff (sorted.mem c hc) hb).mpr hcb)
    exact .inl ⟨covered, c, i, found⟩
  · push Not at covered
    refine .inr ⟨covered, binarySearchDescendant_notFound sorted.mem hb (sorted.row S) (fun x hx inside =>
      covered x hx ?_) full⟩
    exact S.innerSeated.above_of_stop S.tree (sorted.mem x hx) hb (S.nonempty hb) inside.1 inside.2

omit [DecidableEq H] in
/-- A leaf that no block of the set is above has its place where the search says. -/
theorem insert {i : Nat} (hb : b ∈ s.nodes) (leaf : s.children b = []) (free : ∀ c ∈ l, ¬ s.Above c b)
    (small : ∀ x ∈ l.take i, (s.interval x).stop < (s.interval b).stop)
    (large : ∀ x ∈ l.drop i, (s.interval b).stop < (s.interval x).start) :
    s.Sorted (l.take i ++ b :: l.drop i) := by
  have before : ∀ x ∈ l.take i, (s.interval x).stop < (s.interval b).start := by
    intro x hx
    have hxl := mem_of_mem_take hx
    have := small x hx
    have := S.nonempty (sorted.mem x hxl)
    rcases S.innerSeated.trichotomy S.tree (sorted.mem x hxl) hb with above | below | left | right
    · exact absurd above (free x hxl)
    · exact absurd (S.tree.eq_of_leaf leaf below (sorted.mem x hxl) ▸ .refl) (free x hxl)
    · exact left
    · omega
  refine ⟨fun c hc => ?_, ?_⟩
  · rcases mem_append.mp hc with hc | hc
    · exact sorted.mem c (mem_of_mem_take hc)
    · rcases mem_cons.mp hc with rfl | hc
      · exact hb
      · exact sorted.mem c (mem_of_mem_drop hc)
  · have order := sorted.order
    rw [← take_append_drop i l, pairwise_append] at order
    obtain ⟨first, rest, cross⟩ := order
    refine pairwise_append.mpr ⟨first, pairwise_cons.mpr ⟨large, rest⟩, fun x hx y hy => ?_⟩
    rcases mem_cons.mp hy with rfl | hy
    · exact before x hx
    · exact cross x hx y hy

end Sorted

/-- **`is_dag_ancestor_of`** looks at the tree and at the covering set. -/
theorem Sound.isDagAncestorOf_eq (S : s.Sound origin) (ha : a ∈ s.nodes) (hb : b ∈ s.nodes)
    (sorted : s.Sorted (s.futureCoveringSet a)) :
    ∃ answer, s.isDagAncestorOf a b = .ok answer ∧ (answer = true ↔ s.Above a b ∨ s.Covered a b) := by
  obtain ⟨answer, query, exact⟩ := S.isChainAncestorOf_eq ha hb
  have sets : s.getFutureCoveringSet a = .ok (s.futureCoveringSet a) := if_pos ha
  unfold isDagAncestorOf
  rw [query, sets]
  dsimp only [bind, Except.bind]
  by_cases chain : answer = true
  · rw [if_pos chain]
    exact ⟨true, rfl, iff_of_true rfl (.inl (exact.mp chain))⟩
  · rw [if_neg chain]
    rcases sorted.search S hb with ⟨covered, c, i, found⟩ | ⟨free, i, missed, -⟩
    · rw [found]
      exact ⟨true, rfl, iff_of_true rfl (.inr covered)⟩
    · rw [missed]
      refine ⟨false, rfl, iff_of_false Bool.false_ne_true ?_⟩
      rintro (above | ⟨c, hc, above⟩)
      · exact chain (exact.mpr above)
      · exact free c hc above

/-! ## The merged blocks -/

section Merge

variable (S : s.Sound origin) (hnew : new ∈ s.nodes) (leaf : s.children new = [])

include S hnew leaf

theorem Sound.insertToFutureCoveringSet_eq (hm : m ∈ s.nodes) (sorted : s.Sorted (s.futureCoveringSet m))
    (free : ¬ s.Covered m new) :
    ∃ l, s.insertToFutureCoveringSet m new = .ok (s.withCovering (update s.futureCoveringSet m l)) ∧ s.Sorted l ∧
      ∀ c, c ∈ l ↔ c = new ∨ c ∈ s.futureCoveringSet m := by
  have sets : s.getFutureCoveringSet m = .ok (s.futureCoveringSet m) := if_pos hm
  unfold insertToFutureCoveringSet insertFutureCoveringItem
  rw [sets]
  dsimp only [bind, Except.bind]
  rcases sorted.search S hnew with ⟨covered, -⟩ | ⟨free, i, missed, le, small, large⟩
  · exact absurd covered free
  · rw [missed]
    refine ⟨_, if_pos le, sorted.insert S hnew leaf free small large, fun c => ?_⟩
    rw [mem_append, mem_cons, or_left_comm, ← mem_append, take_append_drop]

/-- The new block is put into the sets of all the merged ones. -/
theorem Sound.addDagBlock_eq (nodup : mergeset.Nodup) (known : ∀ m ∈ mergeset, m ∈ s.nodes)
    (sorted : ∀ m ∈ mergeset, s.Sorted (s.futureCoveringSet m)) (free : ∀ m ∈ mergeset, ¬ s.Covered m new) :
    ∃ sets, s.addDagBlock new mergeset = .ok (s.withCovering sets) ∧ (∀ x ∉ mergeset, sets x = s.futureCoveringSet x) ∧
      ∀ m ∈ mergeset, s.Sorted (sets m) ∧ ∀ c, c ∈ sets m ↔ c = new ∨ c ∈ s.futureCoveringSet m := by
  induction mergeset generalizing s with
  | nil => exact ⟨s.futureCoveringSet, rfl, fun _ _ => rfl, nofun⟩
  | cons m ms ih =>
    obtain ⟨fresh, nodup⟩ := nodup_cons.mp nodup
    obtain ⟨hm, known⟩ := forall_mem_cons.mp known
    obtain ⟨sortedM, sorted⟩ := forall_mem_cons.mp sorted
    obtain ⟨freeM, free⟩ := forall_mem_cons.mp free
    obtain ⟨l, accepted, sortedL, members⟩ := S.insertToFutureCoveringSet_eq hnew leaf hm sortedM freeM
    -- the other sets, and all intervals, are as they were
    have same : ∀ x ∈ ms, (s.withCovering (update s.futureCoveringSet m l)).futureCoveringSet x =
        s.futureCoveringSet x :=
      fun x hx => update_of_ne (ne_of_mem_of_not_mem hx fresh) _ _
    have S' : (s.withCovering (update s.futureCoveringSet m l)).Sound origin :=
      ⟨S.tree, S.origin_interval, S.root_mem, S.seated⟩
    obtain ⟨sets, ok, outside, inside⟩ := ih S' hnew leaf nodup known
      (fun x hx => by
        rw [same x hx]
        exact ⟨(sorted x hx).mem, (sorted x hx).order⟩)
      (fun x hx covered => free x hx (by
        unfold Covered at covered
        rw [same x hx] at covered
        exact covered))
    refine ⟨sets, ?_, fun x hx => ?_, forall_mem_cons.mpr ⟨?_, fun x hx => ?_⟩⟩
    · unfold addDagBlock
      rw [foldlM_cons, accepted]
      exact ok
    · obtain ⟨ne, hx⟩ := not_or.mp (mt mem_cons.mpr hx)
      exact (outside x hx).trans (update_of_ne ne _ _)
    · rw [outside m fresh]
      dsimp only [withCovering]
      rw [update_self]
      exact ⟨sortedL, members⟩
    · obtain ⟨sortedX, membersX⟩ := inside x hx
      rw [same x hx] at membersX
      exact ⟨⟨sortedX.mem, sortedX.order⟩, membersX⟩

end Merge

/-! ## The store of a DAG -/

/-- The store is that of the DAG `g` above `origin`: the tree hangs every block below one of its
ancestors, and the covering sets hold the rest of its future. -/
structure Tracks (origin : H) (s : ReachabilityStore H) (g : List (H × List H)) : Prop where
  steady : s.Steady origin
  nodes : ∀ x, x ∈ s.nodes ↔ Known origin g x
  parent : ∀ x ∈ s.nodes, ∀ p, s.parent x = some p → p ∈ GrowingDag.past g x
  sorted : ∀ a ∈ s.nodes, s.Sorted (s.futureCoveringSet a)
  sound : ∀ a ∈ s.nodes, ∀ c ∈ s.futureCoveringSet a, a ∈ GrowingDag.past g c
  complete : ∀ a b, a ∈ GrowingDag.past g b → s.Above a b ∨ s.Covered a b

/-- A block that can come next, with a parent that is selected and what it merges besides. -/
structure Next (origin : H) (g : List (H × List H)) (new : H) (parents : List H) (parent : H) (mergeset : List H) :
    Prop where
  dag : GrowingDag.Grown origin ((new, parents) :: g)
  selected : parent ∈ parents
  nodup : mergeset.Nodup
  merges : mergeset.toFinset = (GrowingDag.past ((new, parents) :: g) new \ GrowingDag.past g parent).erase parent

variable {g : List (H × List H)} {parents : List H}

theorem Next.mem_iff (next : Next origin g new parents parent mergeset) :
    m ∈ mergeset ↔ m ≠ parent ∧ (∃ p ∈ parents, m = p ∨ m ∈ GrowingDag.past g p) ∧ m ∉ GrowingDag.past g parent := by
  rw [← mem_toFinset, next.merges, Finset.mem_erase, Finset.mem_sdiff, mem_past_cons_self]

namespace Tracks

theorem init : Tracks origin (.init origin .maximal) [] where
  steady := steady_init
  nodes x := by simp [ReachabilityStore.init, Known]
  parent _ _ p hp := nomatch hp
  sorted _ _ := sorted_nil
  sound _ _ _ hc := nomatch hc
  complete a _ h := absurd h (Finset.notMem_empty a)

variable (h : Tracks origin s g)

include h

theorem above (grown : GrowingDag.Grown origin g) (hb : b ∈ s.nodes) (above : s.Above a b) :
    a = b ∨ a ∈ GrowingDag.past g b := by
  induction above with
  | refl => exact .inl rfl
  | @step b p hp _ ih =>
    have below := h.parent b hb p hp
    rcases ih (h.steady.sound.tree.parent_mem hb hp) with rfl | further
    · exact .inr below
    · exact .inr (grown.past_trans further below)

theorem of_covered (grown : GrowingDag.Grown origin g) (ha : a ∈ s.nodes) (hb : b ∈ s.nodes)
    (covered : s.Covered a b) : a ∈ GrowingDag.past g b := by
  obtain ⟨c, hc, above⟩ := covered
  have below := h.sound a ha c hc
  rcases h.above grown hb above with rfl | further
  · exact below
  · exact grown.past_trans below further

/-- **Ancestor queries are exact.** -/
theorem isDagAncestorOf_eq (grown : GrowingDag.Grown origin g) (ha : a ∈ s.nodes) (hb : b ∈ s.nodes) :
    ∃ answer, s.isDagAncestorOf a b = .ok answer ∧ (answer = true ↔ a = b ∨ a ∈ GrowingDag.past g b) := by
  obtain ⟨answer, query, exact⟩ := h.steady.sound.isDagAncestorOf_eq ha hb (h.sorted a ha)
  refine ⟨answer, query, exact.trans ⟨?_, ?_⟩⟩
  · rintro (above | covered)
    · exact h.above grown hb above
    · exact .inr (h.of_covered grown ha hb covered)
  · rintro (rfl | below)
    · exact .inl .refl
    · exact h.complete a b below

/-- The reindex root is moved. -/
theorem moved (moves : Moves s s') (steady : s'.Steady origin) : Tracks origin s' g := by
  have links := moves.links
  have E : s.toLinks.Extends s'.toLinks := links ▸ .refl _
  have nodes : s'.nodes = s.nodes := congrArg Links.nodes links
  have above : ∀ a b, s'.Above a b ↔ s.Above a b := fun a b => by rw [links]
  refine ⟨steady, fun x => nodes ▸ h.nodes x, fun x hx p hp => ?_, fun a ha => ?_, fun a ha => ?_, fun a b hab => ?_⟩
  · rw [links] at hp
    exact h.parent x (nodes ▸ hx) p hp
  · rw [moves.covering]
    exact (h.sorted a (nodes ▸ ha)).extend h.steady.sound steady.sound E
  · rw [moves.covering]
    exact h.sound a (nodes ▸ ha)
  · unfold Covered
    simp only [above, moves.covering]
    exact h.complete a b hab

/-- What is merged is in the store. -/
theorem merged_mem (next : Next origin g new parents parent mergeset) (hm : m ∈ mergeset) : m ∈ s.nodes :=
  (h.nodes m).mpr (next.dag.older_of_mem_past (fun _ => next.dag.2.2.2.known_of_mem_past)
    (mem_past_cons_self.mpr (next.mem_iff.mp hm).2.1))

/-- A new block in the tree and in the sets of the blocks it merges. -/
theorem grown {sets : H → List H} (next : Next origin g new parents parent mergeset) (G : Grown s new parent s')
    (steady : s'.Steady origin) (outside : ∀ x ∉ mergeset, sets x = s'.futureCoveringSet x)
    (inside : ∀ m ∈ mergeset, s'.Sorted (sets m) ∧ ∀ c, c ∈ sets m ↔ c = new ∨ c ∈ s'.futureCoveringSet m) :
    Tracks origin (s'.withCovering sets) ((new, parents) :: g) := by
  have T := h.steady.sound.tree
  have fresh : new ∉ s.nodes := fun again => next.dag.1 ((h.nodes new).mp again)
  have parentMem : parent ∈ s.nodes := (h.nodes parent).mpr (next.dag.2.2.1 parent next.selected)
  have nodes : s'.nodes = new :: s.nodes := congrArg Links.nodes G.links
  have E : s.toLinks.Extends s'.toLinks := G.links ▸ T.extends_hang fresh
  have aboveNew : ∀ a, s'.Above a new ↔ a = new ∨ s.Above a parent := fun a => by
    rw [G.links]
    exact above_hang_new T fresh parentMem
  have old : ∀ x ∈ s.nodes, GrowingDag.past ((new, parents) :: g) x = GrowingDag.past g x :=
    fun x hx => next.dag.past_cons ((h.nodes x).mp hx)
  have covering : ∀ x ∈ s.nodes, s'.futureCoveringSet x = s.futureCoveringSet x := fun x hx => by
    rw [G.covering]
    exact update_of_ne (ne_of_mem_of_not_mem hx fresh) _ _
  have setNew : sets new = [] := by
    rw [outside new fun again => fresh (h.merged_mem next again), G.covering]
    exact update_self _ _ _
  have members : ∀ x ∈ s.nodes, ∀ c, c ∈ sets x ↔ c = new ∧ x ∈ mergeset ∨ c ∈ s.futureCoveringSet x := by
    intro x hx c
    by_cases hm : x ∈ mergeset
    · rw [(inside x hm).2, covering x hx]
      simp [hm]
    · rw [outside x hm, covering x hx]
      simp [hm]
  refine ⟨⟨⟨steady.sound.tree, steady.sound.origin_interval, steady.sound.root_mem, steady.sound.seated⟩,
    steady.low, steady.inner⟩,
    fun x => ?_, fun x hx p hxp => ?_, fun a ha => ?_, fun a ha c hc => ?_, fun a b hab => ?_⟩
  · show x ∈ s'.nodes ↔ _
    rw [nodes, mem_cons, known_cons, h.nodes]
  · change x ∈ s'.nodes at hx
    change s'.parent x = some p at hxp
    rw [nodes] at hx
    rw [G.links] at hxp
    rcases mem_cons.mp hx with rfl | hx
    · rw [hang_parent_new] at hxp
      cases hxp
      exact mem_past_cons_self.mpr ⟨parent, next.selected, .inl rfl⟩
    · rw [hang_parent_of_ne (ne_of_mem_of_not_mem hx fresh)] at hxp
      rw [old x hx]
      exact h.parent x hx p hxp
  · change a ∈ s'.nodes at ha
    suffices sorted : s'.Sorted (sets a) from ⟨sorted.mem, sorted.order⟩
    rw [nodes] at ha
    rcases mem_cons.mp ha with rfl | ha
    · rw [setNew]
      exact sorted_nil
    · by_cases hm : a ∈ mergeset
      · exact (inside a hm).1
      · rw [outside a hm, covering a ha]
        exact (h.sorted a ha).extend h.steady.sound steady.sound E
  · change a ∈ s'.nodes at ha
    change c ∈ sets a at hc
    rw [nodes] at ha
    rcases mem_cons.mp ha with rfl | ha
    · rw [setNew] at hc
      cases hc
    · rcases (members a ha c).mp hc with ⟨rfl, hm⟩ | hc
      · exact mem_past_cons_self.mpr (next.mem_iff.mp hm).2.1
      · rw [old c ((h.sorted a ha).mem c hc)]
        exact h.sound a ha c hc
  · show s'.Above a b ∨ ∃ c ∈ sets a, s'.Above c b
    have ha : a ∈ s.nodes :=
      (h.nodes a).mpr (next.dag.older_of_mem_past (fun _ => next.dag.2.2.2.known_of_mem_past) hab)
    -- what was answered by the tree or a set still is
    have kept : ∀ {y z}, (∀ c, s.Above c y → s'.Above c z) → s.Above a y ∨ s.Covered a y → s'.Above a z ∨
        ∃ c ∈ sets a, s'.Above c z := by
      rintro y z up (above | ⟨c, hc, above⟩)
      · exact .inl (up a above)
      · exact .inr ⟨c, (members a ha c).mpr (.inr hc), up c above⟩
    by_cases hb : b = new
    · subst hb
      have up : ∀ c, s.Above c parent → s'.Above c b := fun c above => (aboveNew c).mpr (.inr above)
      by_cases selected : a = parent
      · exact kept up (.inl (selected ▸ .refl))
      · by_cases below : a ∈ GrowingDag.past g parent
        · exact kept up (h.complete a parent below)
        · have hm : a ∈ mergeset := next.mem_iff.mpr ⟨selected, mem_past_cons_self.mp hab, below⟩
          exact .inr ⟨b, (members a ha b).mpr (.inl ⟨rfl, hm⟩), .refl⟩
    · rw [past_cons_of_ne hb] at hab
      have hbm : b ∈ s.nodes := by
        refine (h.nodes b).mpr (.inr ?_)
        by_contra none
        rw [past_eq_empty_of_not_mem none] at hab
        exact absurd hab (Finset.notMem_empty a)
      exact kept (fun c above => E.above c b hbm above) (h.complete a b hab)

variable {depth slack : Option Nat} {room : Prop} {bad : ReachabilityError H → Prop}

/-- **`add_block`**: what can fail is the tree. -/
theorem addBlock_runs (next : Next origin g new parents parent mergeset)
    (roomy : room → s.Roomy (slack.getD DEFAULT_REINDEX_SLACK))
    (hbad : ∀ e : ReachabilityError H, e.isCapacity = true → ¬ room → bad e) :
    (s.addBlockWithParams share new parent mergeset depth slack).Runs room bad fun s' => Tracks origin s'
    ((new, parents) :: g) := by
  have T := h.steady.sound.tree
  have fresh : new ∉ s.nodes := fun again => next.dag.1 ((h.nodes new).mp again)
  have parentMem : parent ∈ s.nodes := (h.nodes parent).mpr (next.dag.2.2.1 parent next.selected)
  refine (addTreeBlock_runs h.steady fresh parentMem roomy hbad).bind fun s₁ _ grows => ?_
  obtain ⟨G, steady⟩ := grows
  have nodes : s₁.nodes = new :: s.nodes := congrArg Links.nodes G.links
  have leaf : s₁.children new = [] := by
    rw [G.links]
    exact hang_children_new
  have sets : ∀ m ∈ mergeset, s₁.futureCoveringSet m = s.futureCoveringSet m := fun m hm => by
    rw [G.covering]
    exact update_of_ne (ne_of_mem_of_not_mem (h.merged_mem next hm) fresh) _ _
  have sorted : ∀ m ∈ mergeset, s₁.Sorted (s₁.futureCoveringSet m) := fun m hm => by
    rw [sets m hm]
    exact (h.sorted m (h.merged_mem next hm)).extend h.steady.sound steady.sound (G.links ▸ T.extends_hang fresh)
  -- a block that covers a merged one is not on the chain of the selected parent
  have free : ∀ m ∈ mergeset, ¬ s₁.Covered m new := by
    rintro m hm ⟨c, hc, above⟩
    rw [sets m hm] at hc
    rw [G.links, above_hang_new T fresh parentMem] at above
    have older := (h.sorted m (h.merged_mem next hm)).mem c hc
    have covered : s.Covered m parent := ⟨c, hc, above.resolve_left (ne_of_mem_of_not_mem older fresh)⟩
    exact (next.mem_iff.mp hm).2.2 (h.of_covered next.dag.2.2.2 (h.merged_mem next hm) parentMem covered)
  obtain ⟨F, ok, outside, inside⟩ := steady.sound.addDagBlock_eq (nodes ▸ mem_cons_self) leaf next.nodup
    (fun m hm => nodes ▸ mem_cons_of_mem new (h.merged_mem next hm)) sorted free
  rw [ok]
  exact h.grown next G steady outside inside

end Tracks

/-! ## Runs -/

/-- The stores that `add_block` and moves of the reindex root lead to, with the DAG that was inserted. -/
inductive DagReached (share : Nat → List Nat → Nat → Nat) (origin : H) : ReachabilityStore H → List (H × List H) → Prop
  | init : DagReached share origin (.init origin .maximal) []
  | add {s s' : ReachabilityStore H} {g : List (H × List H)} {new parent : H} {parents mergeset : List H}
    {depth slack : Option Nat} :
      DagReached share origin s g → Next origin g new parents parent mergeset →
      s.addBlockWithParams share new parent mergeset depth slack = .ok s' →
        DagReached share origin s' ((new, parents) :: g)
  | advance {s s' : ReachabilityStore H} {g : List (H × List H)} {hint : H} {depth slack : Nat} :
      DagReached share origin s g → hint ∈ s.nodes → s.tryAdvancingReindexRoot share hint depth slack = .ok s' →
      DagReached share origin s' g

theorem DagReached.tracks (h : DagReached share origin s g) : GrowingDag.Grown origin g ∧ Tracks origin s g := by
  induction h with
  | init => exact ⟨trivial, .init⟩
  | @add s s' g new parent parents mergeset depth slack _ next ok ih =>
    have runs : (s.addBlockWithParams share new parent mergeset depth slack).Runs False (fun _ => True) _ :=
      ih.2.addBlock_runs next False.elim fun _ _ _ => trivial
    exact ⟨next.dag, runs.of_ok ok⟩
  | @advance s s' g hint depth slack _ hhint ok ih =>
    have runs : (s.tryAdvancingReindexRoot share hint depth slack).Runs False (fun _ => True) _ :=
      tryAdvancingReindexRoot_runs ih.2.steady hhint False.elim trivial
    obtain ⟨moves, steady⟩ := runs.of_ok ok
    exact ⟨ih.1, ih.2.moved moves steady⟩

/-- **Ancestry queries are exact in every state of a run.** No insertion of a next block finds an
inconsistency, and with room in the interval of the reindex root it returns; the covering sets are in the
order of the intervals, with no block of a set above another; and both queries tell the truth about the
DAG and its tree. -/
theorem dag_queries_exact (h : DagReached share origin s g) :
    (∀ new parents parent mergeset depth slack, Next origin g new parents parent mergeset →
      s.addBlockWithParams share new parent mergeset depth slack ≠ .error (.err .dataInconsistency) ∧
      (s.Roomy (slack.getD DEFAULT_REINDEX_SLACK) →
        ∃ s', s.addBlockWithParams share new parent mergeset depth slack = .ok s')) ∧
    (∀ a, Known origin g a → (s.futureCoveringSet a).Pairwise fun c d =>
      (s.interval c).stop < (s.interval d).start ∧ ¬ s.Above c d ∧ ¬ s.Above d c) ∧
    (∀ a b, Known origin g a → Known origin g b →
      ∃ answer, s.isDagAncestorOf a b = .ok answer ∧ (answer = true ↔ a = b ∨ a ∈ GrowingDag.past g b)) ∧
    ∀ a d, Known origin g d → s.Above a d → a ≠ d →
      ∃ c ∈ s.children a, s.getNextChainAncestor d a = .ok c ∧ ∀ x ∈ s.children a, s.Above x d ↔ x = c := by
  obtain ⟨dag, tracks⟩ := h.tracks
  have S := tracks.steady.sound
  refine ⟨fun new parents parent mergeset depth slack next => ⟨fun inconsistent => ?_, fun roomy => ?_⟩, fun a ha => ?_,
    fun a b ha hb => tracks.isDagAncestorOf_eq dag ((tracks.nodes a).mpr ha) ((tracks.nodes b).mpr hb),
    fun a d hd above ne => ?_⟩
  · have runs : (s.addBlockWithParams share new parent mergeset depth slack).Runs False (fun e =>
        e.isCapacity = true) _ :=
      tracks.addBlock_runs next False.elim fun _ capacity _ => capacity
    rw [inconsistent] at runs
    cases runs
  · have runs : (s.addBlockWithParams share new parent mergeset depth slack).Runs
        (s.Roomy (slack.getD DEFAULT_REINDEX_SLACK)) (fun _ => False) _ :=
      tracks.addBlock_runs next id fun _ _ no => absurd roomy no
    obtain ⟨s', ok, -⟩ := runs.exists_ok roomy
    exact ⟨s', ok⟩
  · have sorted := tracks.sorted a ((tracks.nodes a).mpr ha)
    refine sorted.order.imp_of_mem fun hc hd left => ⟨left, fun above => ?_, fun above => ?_⟩
    · have := S.subset above (sorted.mem _ hd)
      have := S.nonempty (sorted.mem _ hd)
      omega
    · have := S.subset above (sorted.mem _ hc)
      have := S.nonempty (sorted.mem _ hc)
      omega
  · have hdm := (tracks.nodes d).mpr hd
    obtain ⟨c, hc, hcd, found, -⟩ := S.getNextChainAncestor_eq hdm above ne
    refine ⟨c, hc, found, fun x hx => ⟨fun hxd => ?_, ?_⟩⟩
    · exact S.tree.child_unique (S.tree.above_mem above hdm) hx hc hxd hcd
    · rintro rfl
      exact hcd

/-- Block 4 merges 3 above its selected parent 2, and the reindex root moves towards it. -/
def diamond : Reach Nat (ReachabilityStore Nat) := do
  let s ← (init 0 .maximal).addBlock (fun _ _ _ => 0) 1 0 []
  let s ← s.addBlock (fun _ _ _ => 0) 2 1 []
  let s ← s.addBlock (fun _ _ _ => 0) 3 1 []
  let s ← s.addBlock (fun _ _ _ => 0) 4 2 [3]
  s.tryAdvancingReindexRoot (fun _ _ _ => 0) 4 1 16384

/-- The query for 3 and 4 is answered from the covering set of 3, and there is room for a fifth block that
merges 3 as well. -/
theorem dag_queries_exact_diamond : ∃ s, diamond = .ok s ∧ s.reindexRoot = 2 ∧ s.futureCoveringSet 3 = [4] ∧
    s.isChainAncestorOf 3 4 = .ok false ∧ s.isDagAncestorOf 3 4 = .ok true ∧
    ∃ s', s.addBlock (fun _ _ _ => 0) 5 2 [3] = .ok s' := by
  have read : diamond.map (fun s => (s.reindexRoot, s.futureCoveringSet 3, s.isChainAncestorOf 3 4,
      decide (s.Roomy 16384))) =
      .ok (2, [4], .ok false, true) := by decide +kernel
  obtain ⟨s, ok, read⟩ := Except.map_eq_ok_iff.mp read
  obtain ⟨root, covering, chain, roomy⟩ : s.reindexRoot = 2 ∧ s.futureCoveringSet 3 = [4] ∧
    s.isChainAncestorOf 3 4 = .ok false ∧
      decide (s.Roomy 16384) = true := by simpa using read
  obtain ⟨s₁, ok₁, run⟩ := Except.bind_eq_ok_iff.mp ok
  obtain ⟨s₂, ok₂, run⟩ := Except.bind_eq_ok_iff.mp run
  obtain ⟨s₃, ok₃, run⟩ := Except.bind_eq_ok_iff.mp run
  obtain ⟨s₄, ok₄, moved⟩ := Except.bind_eq_ok_iff.mp run
  have reached₃ : DagReached (fun _ _ _ => 0) 0 s₃ [(3, [1]), (2, [1]), (1, [0])] :=
    .add (.add (.add .init ⟨by decide, by decide, by decide, by decide⟩ ok₁)
      ⟨by decide, by decide, by decide, by decide⟩ ok₂)
      ⟨by decide, by decide, by decide, by decide⟩ ok₃
  have reached₄ : DagReached (fun _ _ _ => 0) 0 s₄ [(4, [2, 3]), (3, [1]), (2, [1]), (1, [0])] :=
    .add reached₃ ⟨by decide, by decide, by decide, by decide⟩ ok₄
  have hint : 4 ∈ s₄.nodes := (reached₄.tracks.2.nodes 4).mpr (by decide)
  obtain ⟨insert, -, query, -⟩ := dag_queries_exact (.advance reached₄ hint moved)
  obtain ⟨answer, asked, exact⟩ := query 3 4 (by decide) (by decide)
  obtain rfl : answer = true := exact.mpr (by decide)
  obtain ⟨s', added⟩ :=
    (insert 5 [2, 3] 2 [3] none none ⟨by decide, by decide, by decide, by decide⟩).2 (of_decide_eq_true roomy)
  exact ⟨s, ok, root, covering, chain, asked, s', added⟩

end ReachabilityStore

end Firecash
