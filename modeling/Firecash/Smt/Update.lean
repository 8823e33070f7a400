import Mathlib.Data.List.Find
import Mathlib.Data.List.TakeWhile
import Mathlib.Tactic.Tauto
import Firecash.Smt.Canonical

/-!
# Batches of leaf updates (crypto/smt/src/tree.rs)

What `compute_subtree` does to a store, exactly (`computeSubtree_settles`). The result is the canonical
content for the map that the batch leads to, with one exception: of two leaves with a common parent, an
update of one drops the other (`applied`), since the parent holds a hash only. The store then reads that
map's tree, with one exception: a collapsed node is kept if its leaf is removed together with the removal
of an absent key below the same node (`Emptied`), since the node counts as absent once its leaf is taken
into the batch.
-/

namespace Firecash.Smt

open KeyBits SparseTree List NodeResult BranchKey

/-! ## Slices of updates -/

/-- The hash that a batch sets for a key. -/
def updateOf (U : List LeafUpdate) (k : Hash) : Option Hash := (U.find? (·.key == k)).map (·.leafHash)

/-- By increasing keys. -/
abbrev Sorted (U : List LeafUpdate) : Prop := U.Pairwise (·.key < ·.key)

variable {U : List LeafUpdate} {k : Hash}

theorem updateOf_eq_none_iff : updateOf U k = none ↔ ∀ u ∈ U, u.key ≠ k := by
  simp [updateOf]

theorem eq_of_key (sorted : Sorted U) {u v : LeafUpdate} (hu : u ∈ U) (hv : v ∈ U)
    (same : u.key = v.key) : u = v := by
  have distinct : (U.map (·.key)).Nodup := pairwise_map.mpr (sorted.imp BitVec.ne_of_lt)
  exact inj_on_of_nodup_map distinct hu hv same

theorem updateOf_eq_some_iff (sorted : Sorted U) {h : Hash} :
    updateOf U k = some h ↔ ⟨k, h⟩ ∈ U := by
  constructor
  · intro found
    obtain ⟨u, hu, rfl⟩ := Option.map_eq_some_iff.mp found
    have key : u.key = k := by simpa using find?_some hu
    subst key
    exact mem_of_find?_eq_some hu
  · intro mem
    cases found : U.find? (·.key == k) with
    | none =>
      have absent := find?_eq_none.mp found _ mem
      simp at absent
    | some v =>
      have key : v.key = k := by simpa using find?_some found
      obtain rfl := eq_of_key sorted (mem_of_find?_eq_some found) mem key
      rw [updateOf, found]
      rfl

theorem updateOf_congr {U' : List LeafUpdate} (sorted : Sorted U) (sorted' : Sorted U')
    (same : ∀ u : LeafUpdate, u.key = k → (u ∈ U ↔ u ∈ U')) : updateOf U k = updateOf U' k := by
  apply Option.ext
  intro h
  rw [updateOf_eq_some_iff sorted, updateOf_eq_some_iff sorted', same ⟨k, h⟩ rfl]

/-- Below one node the keys without a bit come before those that have it. -/
theorem partitionByBit_eq {d : Nat} (hd : d < 256) (sorted : Sorted U)
    (below : ∀ u ∈ U, Agree d k u.key) :
    partitionByBit U d = (U.filter (bitAt ·.key d == false), U.filter (bitAt ·.key d == true)) := by
  unfold partitionByBit
  induction U with
  | nil => rfl
  | cons u U ih =>
    obtain ⟨first, rest⟩ := pairwise_cons.mp sorted
    have hrest : ∀ v ∈ U, Agree d k v.key := fun v hv => below v (mem_cons_of_mem u hv)
    cases bit : bitAt u.key d with
    | false =>
      have ih := Prod.mk.inj (ih rest hrest)
      simp [bit, ih.1, ih.2]
    | true =>
      -- every later key is on the right too
      have right : ∀ v ∈ U, bitAt v.key d = true := by
        intro v hv
        by_contra left
        have left : bitAt v.key d = false := by simpa using left
        have same : Agree d v.key u.key := (hrest v hv).symm.trans (below u mem_cons_self)
        exact BitVec.lt_asymm (first v hv) (lt_of_diverge hd same left bit)
      have all : U.filter (bitAt ·.key d) = U := filter_eq_self.mpr right
      simp [bit, all]
      exact right

/-- A leaf parent has at most one update on a side. -/
theorem firstWithBit_eq (sorted : Sorted U)
    (below : ∀ u ∈ U, Agree 255 k u.key) (b : Bool) : firstWithBit U 255 b = U.find? (·.key == withBit k 255 b) := by
  have side : firstWithBit U 255 b = U.find? (bitAt ·.key 255 == b) := by
    unfold firstWithBit
    rw [partitionByBit_eq (by decide) sorted below]
    cases b <;> simp [head?_filter]
  rw [side]
  refine find?_congr fun u hu => ?_
  have here : Agree 256 (withBit k 255 b) u.key ↔ bitAt u.key 255 = b := by
    rw [agree_child_iff (by decide)]
    exact and_iff_right (below u hu)
  by_cases bit : bitAt u.key 255 = b
  · have key : u.key = withBit k 255 b := (here.mpr bit).eq.symm
    rw [beq_iff_eq.mpr bit, beq_iff_eq.mpr key]
  · have key : u.key ≠ withBit k 255 b := by
      intro same
      exact bit (here.mp (same ▸ .refl _ _))
    rw [beq_eq_false_iff_ne.mpr bit, beq_eq_false_iff_ne.mpr key]

/-- Where a search ends without success, the later keys are larger. -/
theorem lt_of_mem_dropWhile (sorted : Sorted U) (absent : ∀ u ∈ U, u.key ≠ k) :
    ∀ v ∈ U.dropWhile fun u => decide (u.key < k), k < v.key := by
  induction U with
  | nil => exact fun v hv => nomatch hv
  | cons u U ih =>
    obtain ⟨first, rest⟩ := pairwise_cons.mp sorted
    by_cases small : u.key < k
    · rw [dropWhile_cons_of_pos (by simpa using small)]
      exact ih rest fun v hv => absent v (mem_cons_of_mem u hv)
    · rw [dropWhile_cons_of_neg (by simpa using small)]
      have above : k < u.key := BitVec.lt_of_le_ne (BitVec.not_lt.mp small) (absent u mem_cons_self).symm
      intro v hv
      rcases mem_cons.mp hv with rfl | later
      · exact above
      · exact BitVec.lt_trans above (first v later)

/-- The leaf of a collapsed node as an update among the others. -/
theorem expandSingleton_collapsed (sorted : Sorted U) (leaf : CollapsedLeaf) :
    ∃ U', expandSingleton (some (.collapsed leaf)) U = (none, U') ∧ Sorted U' ∧
      ∀ u, u ∈ U' ↔ u ∈ U ∨ (updateOf U leaf.laneKey = none ∧ u = ⟨leaf.laneKey, leaf.leafHash⟩) := by
  cases found : U.findIdx? (·.key == leaf.laneKey) with
  | some i =>
    have search : binarySearchByKey U leaf.laneKey = .ok i := by
      unfold binarySearchByKey
      rw [found]
    refine ⟨U, by rw [expandSingleton, search], sorted, fun u => ?_⟩
    have present : updateOf U leaf.laneKey ≠ none := by
      rw [Ne, updateOf_eq_none_iff]
      intro absent
      have none : U.findIdx? (·.key == leaf.laneKey) = none := by simpa [findIdx?_eq_none_iff] using absent
      rw [none] at found
      cases found
    simp [present]
  | none =>
    have absent : ∀ u ∈ U, u.key ≠ leaf.laneKey := by simpa [findIdx?_eq_none_iff] using found
    generalize hlow : U.takeWhile (fun u => decide (u.key < leaf.laneKey)) = low
    generalize hhigh : U.dropWhile (fun u => decide (u.key < leaf.laneKey)) = high
    have whole : low ++ high = U := by rw [← hlow, ← hhigh, takeWhile_append_dropWhile]
    have search : binarySearchByKey U leaf.laneKey = .error low.length := by
      unfold binarySearchByKey
      rw [found, hlow]
    refine ⟨low ++ ⟨leaf.laneKey, leaf.leafHash⟩ :: high, ?_, ?_, fun u => ?_⟩
    · rw [expandSingleton, search]
      dsimp only
      rw [← whole, take_left, drop_left]
    · have above : ∀ v ∈ high, leaf.laneKey < v.key := hhigh ▸ lt_of_mem_dropWhile sorted absent
      unfold Sorted at sorted ⊢
      rw [← whole, pairwise_append] at sorted
      obtain ⟨lows, highs, across⟩ := sorted
      rw [pairwise_append, pairwise_cons]
      refine ⟨lows, ⟨above, highs⟩, fun u hu v hv => ?_⟩
      rcases mem_cons.mp hv with rfl | later
      · rw [← hlow] at hu
        simpa using mem_takeWhile_imp hu
      · exact across u hu v later
    · rw [updateOf_eq_none_iff, and_iff_right absent, ← whole]
      simp only [mem_append, mem_cons]
      tauto

/-! ## The map after a batch -/

/-- The other leaf below the same parent. -/
def sibling (k : Hash) : Hash := withBit k 255 !bitAt k 255

/-- The map updated by a batch. -/
def updated (M : LeafMap) (U : List LeafUpdate) : LeafMap := fun k => (updateOf U k).getD (M k)

/-- The map whose tree the code computes: an update drops the other leaf of its parent. -/
def applied (M : LeafMap) (U : List LeafUpdate) : LeafMap := fun k =>
  match updateOf U k with
  | some h => h
  | none => if updateOf U (sibling k) ≠ none ∧ M (sibling k) ≠ 0 then 0 else M k

section

variable {M M' : LeafMap} {U U' : List LeafUpdate} {d e s : Nat} {k x h : Hash}

theorem agree_sibling (hd : d ≤ 255) (k : Hash) : Agree d k (sibling k) := (agree_withBit (by decide) k _).mono hd

theorem sibling_withBit (k : Hash) (b : Bool) : sibling (withBit k 255 b) = withBit k 255 !b := by
  apply eq_of_bitAt
  intro i hi
  unfold sibling
  rw [bitAt_withBit_self (by decide), bitAt_withBit (by decide), bitAt_withBit (by decide), bitAt_withBit (by decide)]
  by_cases last : i = 255
  · rw [if_pos last, if_pos last]
  · rw [if_neg last, if_neg last, if_neg last]

theorem sibling_ne (k : Hash) : sibling k ≠ k := by
  intro same
  have bit : bitAt (sibling k) 255 = !bitAt k 255 := bitAt_withBit_self (by decide) k _
  rw [same] at bit
  cases h : bitAt k 255 <;> rw [h] at bit <;> cases bit

theorem sibling_of_lone {a : Hash} (hd : d ≤ 255) (lone : Lone M d k a) : M (sibling a) = 0 := by
  by_contra held
  exact sibling_ne a (lone.2.2 _ (lone.1.trans (agree_sibling hd a)) held)

theorem applied_of_some (named : updateOf U k = some h) : applied M U k = h := by
  unfold applied
  rw [named]

theorem applied_of_absent (named : updateOf U k = none) (absent : M k = 0) : applied M U k = 0 := by
  unfold applied
  rw [named]
  dsimp only
  split
  · rfl
  · exact absent

theorem applied_of_alone (named : updateOf U k = none) (alone : M (sibling k) = 0) : applied M U k = M k := by
  unfold applied
  rw [named]
  rw [if_neg fun dropped => dropped.2 alone]

theorem applied_congr (hd : d ≤ 255) (maps : Same M M' d k)
    (updates : ∀ x, Agree d k x → updateOf U x = updateOf U' x) :
    Same (applied M U) (applied M' U') d k := by
  intro x hx
  have beside : Agree d k (sibling x) := hx.trans (agree_sibling hd x)
  unfold applied
  rw [updates x hx, updates _ beside, maps x hx, maps _ beside]

theorem applied_untouched (hd : d ≤ 255) (untouched : ∀ u ∈ U, ¬ Agree d k u.key) : Same (applied M U) M d k := by
  intro x hx
  have none : ∀ y, Agree d k y → updateOf U y = none := by
    intro y hy
    rw [updateOf_eq_none_iff]
    rintro u hu rfl
    exact untouched u hu hy
  unfold applied
  rw [none x hx, none _ (hx.trans (agree_sibling hd x))]
  rfl

/-- A collapsed node that is reached, whose leaf is removed, and the batch names another key below it. -/
def Emptied (M : LeafMap) (U : List LeafUpdate) (s d : Nat) (k : Hash) : Prop :=
  ¬ Passed M s d k ∧ ∃ a, Lone M d k a ∧ Vacant (applied M U) d k ∧ ∃ u ∈ U, u.key ≠ a ∧ Agree d k u.key

theorem emptied_succ (h : s < d) (start : ∀ a, ¬ Lone M s k a) : Emptied M U s d k ↔ Emptied M U (s + 1) d k := by
  have same : Passed M s d k ↔ Passed M (s + 1) d k := by
    rw [passed_iff h]
    exact or_iff_right (not_exists.mpr start)
  unfold Emptied
  rw [same]

open Classical in
/-- What the store reads after a batch. -/
noncomputable def after (H : SmtHasher) (M : LeafMap) (U : List LeafUpdate) (s d : Nat) (k : Hash) : Option Node :=
  if Emptied M U s d k then (content H M d k).node else stored H (applied M U) s d k

variable {H : SmtHasher}

theorem after_of_emptied (h : Emptied M U s d k) : after H M U s d k = (content H M d k).node := if_pos h

theorem after_of_not_emptied (h : ¬ Emptied M U s d k) : after H M U s d k = stored H (applied M U) s d k := if_neg h

theorem after_eq {s' : Nat} (emptied : Emptied M U s d k ↔ Emptied M U' s' d k)
    (kept : stored H (applied M U) s d k = stored H (applied M U') s' d k) :
    after H M U s d k = after H M U' s' d k := by
  classical exact if_congr emptied rfl kept

theorem after_congr (hd : d ≤ 255) (le : s ≤ d) (sorted : Sorted U) (sorted' : Sorted U')
    (updates : ∀ u : LeafUpdate, Agree s k u.key → (u ∈ U ↔ u ∈ U')) (below : Agree s k x) :
    after H M U s d x = after H M U' s d x := by
  have maps : Same (applied M U) (applied M U') s k := by
    refine applied_congr (le.trans hd) (fun _ _ => rfl) fun y hy => ?_
    apply updateOf_congr sorted sorted'
    rintro u rfl
    exact updates u hy
  have emptied : Emptied M U s d x ↔ Emptied M U' s d x := by
    unfold Emptied
    have vacant : Vacant (applied M U) d x ↔ Vacant (applied M U') d x :=
      ⟨(maps.below le below).vacant, (maps.below le below).symm.vacant⟩
    have named : ∀ a : Hash, (∃ u ∈ U, u.key ≠ a ∧ Agree d x u.key) ↔ ∃ u ∈ U', u.key ≠ a ∧ Agree d x u.key := by
      intro a
      constructor
      · rintro ⟨u, hu, ne, here⟩
        exact ⟨u, (updates u (below.trans (here.mono le))).mp hu, ne, here⟩
      · rintro ⟨u, hu, ne, here⟩
        exact ⟨u, (updates u (below.trans (here.mono le))).mpr hu, ne, here⟩
    simp only [vacant, named]
  exact after_eq emptied (stored_congr (by omega) le maps below)

end

/-! ## One subtree -/

section

variable {ε : Type} {H : SmtHasher} {store : SmtStore ε} {M : LeafMap} {U : List LeafUpdate} {s d : Nat} {k x : Hash}
  {changes changes' : SmtNodeChanges} {child : SubtreeStep ε}

variable {key : BranchKey}

theorem readNode_congr (h : changes key = changes' key) : readNode store changes key = readNode store changes' key := by
  unfold readNode
  rw [h]

theorem readNode_insert (key : BranchKey) (node : Option Node) :
    readNode store (changes.insert key node) key = .ok node := by
  unfold readNode SmtNodeChanges.insert
  rw [Function.update_self]

theorem insert_of_ne {key' : BranchKey} (ne : key' ≠ key) (node : Option Node) :
    changes.insert key node key' = changes key' :=
  Function.update_of_ne ne _ _

theorem recordChange_of_ne {key' : BranchKey} (ne : key' ≠ key) (existing newNode : Option Node) :
    recordChange changes key existing newNode key' = changes key' := by
  unfold recordChange
  split
  · exact insert_of_ne ne newNode
  · rfl

theorem readNode_recordChange (key : BranchKey) (existing newNode : Option Node) :
    readNode store (recordChange changes key existing newNode) key =
      if existing = newNode then readNode store changes key else .ok newNode := by
  unfold recordChange
  by_cases same : existing = newNode
  · rw [if_pos same, if_neg (not_not.mpr same)]
  · rw [if_neg same, if_pos same, readNode_insert]

/-- A tombstone is at a child. -/
theorem buryPromoted_of_ne {key' : BranchKey} (ne : ∀ b, key' ≠ childBranchKey key b d) (result : NodeResult) :
    buryPromoted changes key d result key' = changes key' := by
  cases result with
  | collapsed leaf => exact insert_of_ne (ne _) none
  | empty => rfl
  | internal hash => rfl

/-- The branch keys of a subtree. -/
def Inside (s : Nat) (k : Hash) (key : BranchKey) : Prop := ∃ d x, s ≤ d ∧ d < 256 ∧ Agree s k x ∧ key = .new d x

theorem inside_new (le : s ≤ d) (hd : d < 256) (below : Agree s k x) : Inside s k (.new d x) :=
  ⟨d, x, le, hd, below, rfl⟩

theorem inside_new_iff (hd : d < 256) : Inside s k (.new d x) ↔ s ≤ d ∧ Agree s k x := by
  constructor
  · rintro ⟨d', x', le, lt, below, key⟩
    obtain ⟨rfl, same⟩ := (branchKey_eq_iff hd.le).mp key
    exact ⟨le, below.trans (same.symm.mono le)⟩
  · rintro ⟨le, below⟩
    exact inside_new le hd below

theorem Inside.of_child {b : Bool} (hs : s < 256) (h : Inside (s + 1) (withBit k s b) key) : Inside s k key := by
  obtain ⟨d, x, le, lt, below, rfl⟩ := h
  exact inside_new (by omega) lt ((agree_child_iff hs).mp below).1

/-- What a step leaves in the changes: outside its subtree nothing new, inside what the batch leads to. -/
structure Effect (H : SmtHasher) (store : SmtStore ε) (M : LeafMap) (U : List LeafUpdate) (s : Nat) (k : Hash)
    (changes changes' : SmtNodeChanges) : Prop where
  frame : ∀ key, ¬ Inside s k key → changes' key = changes key
  reads : ∀ d x, s ≤ d → d < 256 → Agree s k x → readNode store changes' (.new d x) = .ok (after H M U s d x)

/-- A step at depth `s` computes the content that a batch leads to, in any subtree of any map that the
store holds there. -/
def Settles (H : SmtHasher) (store : SmtStore ε) (s : Nat) (step : SubtreeStep ε) : Prop :=
  ∀ (M : LeafMap) (k : Hash) (changes : SmtNodeChanges) (U : List LeafUpdate), U ≠ [] → Sorted U →
    (∀ u ∈ U, Agree s k u.key) →
    (∀ d x, s ≤ d → d < 256 → Agree s k x → readNode store changes (.new d x) = .ok (stored H M s d x)) →
    ∃ changes', step changes U = .ok (content H (applied M U) s k, changes') ∧ Effect H store M U s k changes changes'

/-- The changes over the store read as `node` says at the branches below `k` from depth `d₀` on. -/
abbrev ReadsAs (store : SmtStore ε) (changes : SmtNodeChanges) (d₀ s : Nat) (k : Hash)
    (node : Nat → Hash → Option Node) : Prop :=
  ∀ d x, d₀ ≤ d → d < 256 → Agree s k x → readNode store changes (.new d x) = .ok (node d x)

theorem childResult_settles (hs : s < 255) (hchild : Settles H store (s + 1) child) (sorted : Sorted U)
    (below : ∀ u ∈ U, Agree s k u.key) (b : Bool)
    (reads : ReadsAs store changes (s + 1) (s + 1) (withBit k s b) (stored H M (s + 1))) :
    ∃ changes', childResult store s child (.new s k) b changes (U.filter (bitAt ·.key s == b)) =
        .ok (content H (applied M U) (s + 1) (withBit k s b), changes') ∧
      Effect H store M U (s + 1) (withBit k s b) changes changes' := by
  have hs' : s < 256 := by omega
  generalize hV : U.filter (bitAt ·.key s == b) = V
  have mem : ∀ u, u ∈ V ↔ u ∈ U ∧ bitAt u.key s = b := by
    intro u
    rw [← hV, mem_filter, beq_iff_eq]
  have same : ∀ u : LeafUpdate, Agree (s + 1) (withBit k s b) u.key → (u ∈ V ↔ u ∈ U) := by
    intro u hu
    rw [mem, and_iff_left ((agree_child_iff hs').mp hu).2]
  have inside : ∀ u ∈ V, Agree (s + 1) (withBit k s b) u.key := by
    intro u hu
    obtain ⟨hu, bit⟩ := (mem u).mp hu
    exact (agree_child_iff hs').mpr ⟨below u hu, bit⟩
  have sortedV : Sorted V := by
    rw [← hV]
    exact sorted.filter _
  unfold childResult
  by_cases none : V = []
  · have untouched : ∀ u ∈ U, ¬ Agree (s + 1) (withBit k s b) u.key := by
      intro u hu here
      have := (same u here).mpr hu
      rw [none] at this
      cases this
    have keeps : Same (applied M U) M (s + 1) (withBit k s b) := applied_untouched (by omega) untouched
    refine ⟨changes, ?_, fun _ _ => rfl, fun d x le hd here => ?_⟩
    · rw [if_pos (by rw [none]; rfl), readSiblingResult, childBranchKey_new hs',
        reads (s + 1) _ le_rfl (by omega) (.refl _ _)]
      show Except.ok (ofNode (stored H M (s + 1) (s + 1) (withBit k s b)), changes) = _
      rw [stored_of_not_passed not_passed_self, ofNode_node, content_congr (by omega) (.refl _ _) keeps]
    · have kept : ¬ Emptied M U (s + 1) d x := by
        rintro ⟨-, a, -, -, u, hu, -, named⟩
        exact untouched u hu (here.trans (named.mono le))
      rw [reads d x le hd here, after_of_not_emptied kept, stored_congr (by omega) le keeps here]
  · obtain ⟨changes', run, left⟩ := hchild M _ changes V none sortedV inside reads
    have maps : Same (applied M V) (applied M U) (s + 1) (withBit k s b) := by
      refine applied_congr (by omega) (fun _ _ => rfl) fun y hy => ?_
      apply updateOf_congr sortedV sorted
      rintro u rfl
      exact same u hy
    refine ⟨changes', ?_, left.frame, fun d x le hd here => ?_⟩
    · rw [if_neg (by simpa using none), run, content_congr (by omega) (.refl _ _) maps]
    · rw [left.reads d x le hd here, after_congr (by omega) le sortedV sorted same here]

/-- A leaf of a leaf parent: the update that names it, and nothing otherwise. -/
theorem leafResult_firstWithBit (ne : U ≠ []) (sorted : Sorted U) (below : ∀ u ∈ U, Agree 255 k u.key)
    (start : ∀ a, ¬ Lone M 255 k a) (b : Bool) :
    leafResult (firstWithBit U 255 b) = content H (applied M U) 256 (withBit k 255 b) := by
  rw [firstWithBit_eq sorted below, content_leaf]
  cases found : U.find? (·.key == withBit k 255 b) with
  | some u =>
    have key : u.key = withBit k 255 b := by simpa using find?_some found
    have named : updateOf U (withBit k 255 b) = some u.leafHash := by
      rw [updateOf, found]
      rfl
    rw [applied_of_some named, ← key]
  | none =>
    have named : updateOf U (withBit k 255 b) = none := by
      rw [updateOf, found]
      rfl
    have zero : applied M U (withBit k 255 b) = 0 := by
      by_cases alone : M (sibling (withBit k 255 b)) = 0
      · apply applied_of_absent named
        by_contra held
        rw [sibling_withBit] at alone
        exact start _ (Lone.of_child (by decide) (lone_full.mpr ⟨rfl, held⟩) (vacant_full.mpr alone))
      · -- the batch has an update here, so it is the other leaf's
        obtain ⟨u, hu⟩ := exists_mem_of_ne_nil U ne
        have other : bitAt u.key 255 = !b := by
          rw [Bool.eq_not]
          intro bit
          have key : Agree 256 (withBit k 255 b) u.key := (agree_child_iff (by decide)).mpr ⟨below u hu, bit⟩
          exact updateOf_eq_none_iff.mp named u hu key.eq.symm
        have key : Agree 256 (withBit k 255 !b) u.key := (agree_child_iff (by decide)).mpr ⟨below u hu, other⟩
        unfold applied
        rw [named]
        refine if_pos ⟨?_, alone⟩
        rw [Ne, updateOf_eq_none_iff, sibling_withBit]
        intro absent
        exact absent u hu key.eq.symm
    rw [zero]
    rfl

/-- Below a leaf that was promoted nothing is left but what the batch forgot to delete. -/
theorem after_of_promoted {a : Hash} (hs : s < d) (hd : d < 256) (start : ∀ a, ¬ Lone M s k a) (below : Agree s k x)
    (lone : Lone (applied M U) s k a) (elsewhere : ¬ (d = s + 1 ∧ Agree d x a)) :
    after H M U (s + 1) d x = after H M U s d x := by
  have start' : ∀ b, ¬ Lone M s x b := fun b lone => start b (lone.congr below.symm)
  refine after_eq (emptied_succ hs start').symm ?_
  rw [stored_of_passed ⟨s, le_rfl, hs, a, lone.congr below⟩]
  by_cases here : Agree (s + 1) x a
  · -- the leaf's own side, further down
    have deeper : s + 1 < d := by
      by_contra last
      obtain rfl : d = s + 1 := by omega
      exact elsewhere ⟨rfl, here⟩
    exact stored_of_passed ⟨s + 1, le_rfl, deeper, a, lone.below (Nat.le_succ s) below here⟩
  · have vacant : Vacant (applied M U) (s + 1) x := lone.vacant_beside (Nat.le_succ s) below here
    exact stored_of_vacant (vacant.below hs (.refl _ _))

theorem joinSubtree_branch {V W : List LeafUpdate} {left right : NodeResult} {changes₁ changes₂ : SmtNodeChanges}
    (existing : Option Node) (hs : s ≠ 255) (sides : partitionByBit U s = (V, W))
    (first : childResult store s child key false changes V = .ok (left, changes₁))
    (second : childResult store s child key true changes₁ W = .ok (right, changes₂)) :
    joinSubtree H store s child key existing changes U =
      .ok (mergedNode H left right s,
        recordChange (buryPromoted changes₂ key s (mergedNode H left right s)) key existing
          (mergedNode H left right s).node) := by
  unfold joinSubtree
  rw [if_neg (show s ≠ DEPTH - 1 from hs), sides]
  dsimp only
  rw [first]
  dsimp only [bind, Except.bind]
  rw [second]
  rfl

/-- A subtree that is not collapsed, or no longer: both sides, then the node over them. -/
theorem joinSubtree_settles (hs : s < 256) (hchild : s < 255 → Settles H store (s + 1) child) (ne : U ≠ [])
    (sorted : Sorted U) (below : ∀ u ∈ U, Agree s k u.key) (start : ∀ a, ¬ Lone M s k a)
    (reads : ReadsAs store changes (s + 1) s k (stored H M s)) :
    ∃ changes', joinSubtree H store s child (.new s k) (content H M s k).node changes U =
        .ok (content H (applied M U) s k, changes') ∧
      (∀ key, ¬ Inside s k key → changes' key = changes key) ∧
      ReadsAs store changes' (s + 1) s k (after H M U s) ∧
      readNode store changes' (.new s k) =
        if (content H M s k).node = (content H (applied M U) s k).node then readNode store changes (.new s k)
        else .ok (content H (applied M U) s k).node := by
  by_cases last : s = 255
  · subst last
    unfold joinSubtree
    rw [if_pos (show 255 = DEPTH - 1 from rfl), leafResult_firstWithBit ne sorted below start,
      leafResult_firstWithBit ne sorted below start]
    dsimp only [DEPTH]
    rw [mergedNode_content (by decide)]
    refine ⟨_, rfl, fun key out => ?_, fun d x lt hd => ?_, ?_⟩
    · apply recordChange_of_ne
      rintro rfl
      exact out (inside_new le_rfl hs (.refl _ _))
    · omega
    · exact readNode_recordChange ..
  · have hs' : s < 255 := by omega
    have inner : ∀ b, ReadsAs store changes (s + 1) (s + 1) (withBit k s b) (stored H M (s + 1)) := by
      intro b d x le hd here
      have side := ((agree_child_iff hs).mp here).1
      rw [reads d x le hd side, stored_succ le fun a lone => start a (lone.congr side.symm)]
    -- the left side leaves the right one alone, and the right side the left one
    have apart : ∀ b d x, d < 256 → Agree (s + 1) (withBit k s b) x → ¬ Inside (s + 1) (withBit k s !b) (.new d x) := by
      intro b d x hd here crossed
      have bit := ((agree_child_iff hs).mp here).2
      have other := ((agree_child_iff hs).mp ((inside_new_iff hd).mp crossed).2).2
      rw [bit] at other
      cases b <;> cases other
    obtain ⟨changes₁, run₁, left⟩ := childResult_settles hs' (hchild hs') sorted below false (inner false)
    have second : ReadsAs store changes₁ (s + 1) (s + 1) (withBit k s true) (stored H M (s + 1)) := by
      intro d x le hd here
      rw [readNode_congr (left.frame _ (apart true d x hd here)), inner true d x le hd here]
    obtain ⟨changes₂, run₂, right⟩ := childResult_settles hs' (hchild hs') sorted below true second
    have children : ReadsAs store changes₂ (s + 1) s k (after H M U (s + 1)) := by
      intro d x lt hd here
      cases bit : bitAt x s with
      | false =>
        have side : Agree (s + 1) (withBit k s false) x := (agree_child_iff hs).mpr ⟨here, bit⟩
        rw [readNode_congr (right.frame _ (apart false d x hd side)), left.reads d x lt hd side]
      | true => exact right.reads d x lt hd ((agree_child_iff hs).mpr ⟨here, bit⟩)
    have outside : ∀ key, (∀ b, ¬ Inside (s + 1) (withBit k s b) key) → changes₂ key = changes key := by
      intro key out
      rw [right.frame key (out true), left.frame key (out false)]
    have own : ∀ d x, s < d → new d x ≠ .new s k := by
      intro d x lt same
      have := congrArg depth same
      dsimp only [new] at this
      omega
    rw [joinSubtree_branch _ last (partitionByBit_eq hs sorted below) run₁ run₂, mergedNode_content hs]
    refine ⟨_, rfl, ?_, ?_, ?_⟩
    · intro key out
      have notOwn : key ≠ .new s k := by
        rintro rfl
        exact out (inside_new le_rfl hs (.refl _ _))
      have notBuried : ∀ b, key ≠ childBranchKey (.new s k) b s := by
        rintro b rfl
        rw [childBranchKey_new hs] at out
        exact out (inside_new (by omega) (by omega) (agree_withBit hs k b))
      rw [recordChange_of_ne notOwn, buryPromoted_of_ne notBuried, outside key fun b inside => out (inside.of_child hs)]
    · intro d x lt hd here
      rw [readNode_congr (recordChange_of_ne (own d x lt) _ _)]
      by_cases lone : ∃ a, Lone (applied M U) s k a
      · obtain ⟨a, lone⟩ := lone
        rw [content_of_lone lone, buryPromoted, childBranchKey_new hs]
        by_cases grave : d = s + 1 ∧ Agree d x a
        · -- the old place of the promoted leaf
          obtain ⟨rfl, side⟩ := grave
          have key : new (s + 1) x = .new (s + 1) (withBit k s (bitAt a s)) := by
            apply branchKey_congr (by omega)
            exact ((agree_child_iff hs).mpr ⟨here, (agree_succ.mp side).2⟩).symm
          have kept : ¬ Emptied M U s (s + 1) x := by
            rintro ⟨-, b, -, vacant, -⟩
            exact (lone.below (Nat.le_succ s) here side).not_vacant vacant
          rw [key, readNode_insert, after_of_not_emptied kept, stored_of_passed ⟨s, le_rfl, lt, a, lone.congr here⟩]
        · have elsewhere : new d x ≠ .new (s + 1) (withBit k s (bitAt a s)) := by
            intro key
            obtain ⟨rfl, side⟩ := (branchKey_eq_iff hd.le).mp key
            exact grave ⟨rfl, side.trans ((agree_child_iff hs).mpr ⟨lone.1, rfl⟩)⟩
          rw [readNode_congr (insert_of_ne elsewhere none), children d x lt hd here,
            after_of_promoted lt hd start here lone grave]
      · have start' : ∀ b, ¬ Lone M s x b := fun b lone => start b (lone.congr here.symm)
        have open_ : ∀ b, ¬ Lone (applied M U) s x b := fun b h => lone ⟨b, h.congr here.symm⟩
        have unburied : buryPromoted changes₂ (.new s k) s (content H (applied M U) s k) = changes₂ := by
          rcases trichotomy (applied M U) s k with vacant | collapsed | crowded
          · rw [content_of_vacant vacant]
            rfl
          · exact absurd collapsed lone
          · rw [content_of_crowded crowded]
            rfl
        rw [unburied, children d x lt hd here, after_eq (emptied_succ lt start').symm (stored_succ lt open_).symm]
    · have kept : changes₂ (.new s k) = changes (.new s k) := by
        apply outside
        intro b inside
        have := ((inside_new_iff hs).mp inside).1
        omega
      have notBuried : ∀ b, new s k ≠ childBranchKey (.new s k) b s := by
        intro b
        rw [childBranchKey_new hs]
        exact (own (s + 1) _ (by omega)).symm
      rw [readNode_recordChange, readNode_congr ((buryPromoted_of_ne notBuried _).trans kept)]

/-- One update of a subtree that holds nothing else. -/
theorem settles_single {u : LeafUpdate} (hs : s < 256) (below : Agree s k u.key)
    (only : ∀ x, Agree s k x → x ≠ u.key → M x = 0) (reads : ReadsAs store changes s s k (stored H M s)) :
    content H (applied M [u]) s k = leafResult (some u) ∧
      Effect H store M [u] s k changes (recordChange changes (.new s k) (content H M s k).node
        (leafResult (some u)).node) := by
  have own : applied M [u] u.key = u.leafHash := applied_of_some (by simp [updateOf])
  have other : ∀ x, Agree s k x → x ≠ u.key → applied M [u] x = 0 := by
    intro x hx ne
    exact applied_of_absent (updateOf_eq_none_iff.mpr fun v hv => by rw [mem_singleton.mp hv]; exact ne.symm)
      (only x hx ne)
  -- before and after, the key of the update is the only one there can be
  have small : ∀ N : LeafMap, (∀ x, Agree s k x → x ≠ u.key → N x = 0) → Vacant N s k ∨ Lone N s k u.key := by
    intro N zero
    by_cases held : N u.key = 0
    · left
      intro x hx
      by_cases same : x = u.key
      · rw [same, held]
      · exact zero x hx same
    · exact .inr ⟨below, held, fun x hx hm => by_contra fun ne => hm (zero x hx ne)⟩
  have result : content H (applied M [u]) s k = leafResult (some u) := by
    unfold leafResult
    dsimp only
    rcases small _ other with vacant | lone
    · have zero : u.leafHash = ZERO_HASH := own.symm.trans (vacant _ below)
      rw [content_of_vacant vacant, if_neg (not_not.mpr zero)]
    · have held : u.leafHash ≠ ZERO_HASH := own ▸ lone.2.1
      rw [content_of_lone lone, own, if_pos held]
  have kept : ∀ d x, s ≤ d → Agree s k x → ¬ Emptied M [u] s d x := by
    rintro d x le here ⟨-, a, lone, -, v, hv, ne, -⟩
    rw [mem_singleton.mp hv] at ne
    by_contra
    exact lone.2.1 (only a (here.trans (lone.1.mono le)) ne.symm)
  refine ⟨result, fun key out => ?_, fun d x le hd here => ?_⟩
  · apply recordChange_of_ne
    rintro rfl
    exact out (inside_new le_rfl hs (.refl _ _))
  · rw [after_of_not_emptied (kept d x le here)]
    rcases Nat.eq_or_lt_of_le le with rfl | lt
    · rw [branchKey_congr hs.le here.symm, readNode_recordChange, reads s k le_rfl hs (.refl _ _),
        stored_of_not_passed not_passed_self,
        stored_of_not_passed not_passed_self, ← content_congr hs.le here fun _ _ => rfl, result]
      exact ite_eq_right_iff.mpr (congrArg Except.ok)
    · have ne : new d x ≠ .new s k := by
        intro same
        exact absurd ((branchKey_eq_iff hd.le).mp same).1 (by omega)
      rw [readNode_congr (recordChange_of_ne ne _ _), reads d x le hd here,
        stored_below lt here ((small M only).imp_right fun h => ⟨_, h⟩),
        stored_below lt here ((small _ other).imp_right fun h => ⟨_, h⟩)]

theorem joinSubtree_of_open (hs : s < 256) (hchild : s < 255 → Settles H store (s + 1) child) (ne : U ≠ [])
    (sorted : Sorted U) (below : ∀ u ∈ U, Agree s k u.key) (start : ∀ a, ¬ Lone M s k a)
    (reads : ReadsAs store changes s s k (stored H M s)) :
    ∃ changes', joinSubtree H store s child (.new s k) (content H M s k).node changes U =
        .ok (content H (applied M U) s k, changes') ∧ Effect H store M U s k changes changes' := by
  obtain ⟨changes', run, frame, deeper, own⟩ :=
    joinSubtree_settles hs hchild ne sorted below start fun d x lt => reads d x (Nat.le_of_lt lt)
  refine ⟨changes', run, frame, fun d x le hd here => ?_⟩
  rcases Nat.eq_or_lt_of_le le with rfl | lt
  · have kept : ¬ Emptied M U s s x := by
      rintro ⟨-, a, lone, -⟩
      exact start a (lone.congr here.symm)
    rw [branchKey_congr hs.le here.symm, own, reads s k le_rfl hs (.refl _ _), after_of_not_emptied kept,
      stored_of_not_passed not_passed_self, stored_of_not_passed not_passed_self,
      ← content_congr hs.le here fun _ _ => rfl]
    exact ite_eq_right_iff.mpr (congrArg Except.ok)
  · exact deeper d x lt hd here

/-- A collapsed subtree: its leaf joins the batch, and the subtree is built up from nothing. -/
theorem splitSubtree_of_lone {a : Hash} (hs : s < 256) (hchild : s < 255 → Settles H store (s + 1) child)
    (sorted : Sorted U) (below : ∀ u ∈ U, Agree s k u.key) (lone : Lone M s k a) (other : ∃ u ∈ U, u.key ≠ a)
    (reads : ReadsAs store changes s s k (stored H M s)) :
    ∃ changes', splitSubtree H store s child (.new s k) (some (.collapsed ⟨a, M a⟩)) changes U =
        .ok (content H (applied M U) s k, changes') ∧ Effect H store M U s k changes changes' := by
  obtain ⟨U', expanded, sorted', mem⟩ := expandSingleton_collapsed sorted ⟨a, M a⟩
  have nothing : ∀ d x, Vacant (fun _ : Hash => (0 : Hash)) d x := fun d x y _ => rfl
  have ne : U' ≠ [] := by
    obtain ⟨u, hu, -⟩ := other
    exact ne_nil_of_mem ((mem u).mpr (.inl hu))
  have below' : ∀ u ∈ U', Agree s k u.key := by
    intro u hu
    rcases (mem u).mp hu with hu | ⟨-, rfl⟩
    · exact below u hu
    · exact lone.1
  have maps : Same (applied (fun _ => 0) U') (applied M U) s k := by
    intro x hx
    by_cases leaf : x = a ∧ updateOf U a = none
    · obtain ⟨rfl, named⟩ := leaf
      have named' : updateOf U' x = some (M x) := (updateOf_eq_some_iff sorted').mpr ((mem _).mpr (.inr ⟨named, rfl⟩))
      rw [applied_of_some named', applied_of_alone named (sibling_of_lone (by omega) lone)]
    · have same : updateOf U' x = updateOf U x := by
        apply updateOf_congr sorted' sorted
        rintro u rfl
        rw [mem]
        refine or_iff_left ?_
        rintro ⟨named, rfl⟩
        exact leaf ⟨rfl, named⟩
      cases named : updateOf U x with
      | some h => rw [applied_of_some named, applied_of_some (same.trans named)]
      | none =>
        have absent : M x = 0 := by
          by_contra held
          obtain rfl := lone.2.2 x hx held
          exact leaf ⟨rfl, named⟩
        rw [applied_of_absent named absent, applied_of_absent (same.trans named) rfl]
  have blank : ReadsAs store changes (s + 1) s k (stored H (fun _ => 0) s) := by
    intro d x lt hd here
    rw [reads d x (Nat.le_of_lt lt) hd here, stored_below lt here (.inr ⟨a, lone⟩), stored_of_vacant (nothing d x)]
  obtain ⟨changes', run, frame, deeper, own⟩ :=
    joinSubtree_settles hs hchild ne sorted' below' (fun b h => h.2.1 rfl) blank
  have result : content H (applied (fun _ => 0) U') s k = content H (applied M U) s k :=
    content_congr hs.le (.refl _ _) maps
  rw [content_of_vacant (nothing s k), result] at run own
  refine ⟨changes', by rw [splitSubtree, expanded]; exact run, frame, fun d x le hd here => ?_⟩
  rcases Nat.eq_or_lt_of_le le with rfl | lt
  · rw [branchKey_congr hs.le here.symm, own, reads s k le_rfl hs (.refl _ _), stored_of_not_passed not_passed_self]
    by_cases vacant : Vacant (applied M U) s k
    · have emptied : Emptied M U s s x := by
        obtain ⟨u, hu, key⟩ := other
        exact ⟨not_passed_self, a, lone.congr here, vacant.congr here, u, hu, key, here.symm.trans (below u hu)⟩
      rw [content_of_vacant vacant, if_pos rfl, after_of_emptied emptied, ← content_congr hs.le here fun _ _ => rfl]
    · have kept : ¬ Emptied M U s s x := by
        rintro ⟨-, b, -, empty, -⟩
        exact vacant (empty.congr here.symm)
      have some : empty.node ≠ (content H (applied M U) s k).node := by
        intro same
        exact vacant (content_eq_empty_iff.mp (node_injective same).symm)
      rw [if_neg some, after_of_not_emptied kept, stored_of_not_passed not_passed_self,
        ← content_congr hs.le here fun _ _ => rfl]
  · have kept : ¬ Emptied M U s d x := by
      rintro ⟨open_, -⟩
      exact open_ ⟨s, le_rfl, lt, a, lone.congr here⟩
    have kept' : ¬ Emptied (fun _ => 0) U' s d x := by
      rintro ⟨-, b, h, -⟩
      exact h.2.1 rfl
    rw [deeper d x lt hd here, after_of_not_emptied kept, after_of_not_emptied kept', stored_congr hd.le le maps here]

theorem subtreeStep_settles (hs : s < 256) (hchild : s < 255 → Settles H store (s + 1) child) :
    Settles H store s (subtreeStep H store s child) := by
  intro M k changes U ne sorted below reads
  obtain ⟨first, rest, rfl⟩ := exists_cons_of_ne_nil ne
  have key : new s first.key = .new s k := branchKey_congr hs.le (below first mem_cons_self).symm
  have existing : readNode store changes (.new s k) = .ok (content H M s k).node := by
    rw [reads s k le_rfl hs (.refl _ _), stored_of_not_passed not_passed_self]
  unfold subtreeStep
  dsimp only
  rw [key, existing]
  dsimp only [bind, Except.bind]
  rcases trichotomy M s k with vacant | ⟨a, lone⟩ | crowded
  · cases rest with
    | nil =>
      obtain ⟨result, effect⟩ := settles_single hs (below first mem_cons_self) (fun x hx _ => vacant x hx) reads
      rw [content_of_vacant vacant] at effect ⊢
      rw [result]
      refine ⟨_, ?_, effect⟩
      unfold leafResult
      by_cases zero : first.leafHash = ZERO_HASH
      · simp [single, zero, recordChange, node]
        rfl
      · simp [single, zero, node]
        rfl
    | cons second rest =>
      have joined := joinSubtree_of_open hs hchild ne sorted below (fun a lone => lone.not_vacant vacant) reads
      rw [content_of_vacant vacant] at joined ⊢
      exact joined
  · have leaf : (content H M s k).node = some (.collapsed ⟨a, M a⟩) := by
      rw [content_of_lone lone]
      rfl
    cases rest with
    | nil =>
      by_cases own : first.key = a
      · have only : ∀ x, Agree s k x → x ≠ first.key → M x = 0 := by
          intro x hx ne
          by_contra held
          exact ne ((lone.2.2 x hx held).trans own.symm)
        obtain ⟨result, effect⟩ := settles_single hs (below first mem_cons_self) only reads
        rw [leaf] at effect ⊢
        rw [result]
        refine ⟨_, ?_, effect⟩
        unfold leafResult
        by_cases zero : first.leafHash = ZERO_HASH
        · simp [single, zero, own, node]
          rfl
        · simp [single, zero, own, node]
          rfl
      · rw [leaf]
        simp only [single, own, if_false]
        exact splitSubtree_of_lone hs hchild sorted below lone ⟨first, mem_cons_self, own⟩ reads
    | cons second rest =>
      have other : ∃ u ∈ first :: second :: rest, u.key ≠ a := by
        by_cases own : first.key = a
        · have above := (pairwise_cons.mp sorted).1 second mem_cons_self
          rw [own] at above
          exact ⟨second, mem_cons_of_mem _ mem_cons_self, (BitVec.ne_of_lt above).symm⟩
        · exact ⟨first, mem_cons_self, own⟩
      rw [leaf]
      exact splitSubtree_of_lone hs hchild sorted below lone other reads
  · have joined := joinSubtree_of_open hs hchild ne sorted below crowded.2 reads
    rw [content_of_crowded crowded] at joined ⊢
    cases single (first :: rest) with
    | none => exact joined
    | some u => exact joined

theorem computeSubtree_settles (H : SmtHasher) (store : SmtStore ε) {below : Nat} (h : below ≤ 255) :
    Settles H store (255 - below) (computeSubtree H store below) := by
  induction below with
  | zero => exact subtreeStep_settles (by decide) fun lt => absurd lt (by decide)
  | succ below ih =>
    have child : 255 - (below + 1) + 1 = 255 - below := by omega
    refine subtreeStep_settles (by omega) fun _ => ?_
    rw [child]
    exact ih (by omega)

end

end Firecash.Smt
