import Firecash.Smt.Update

/-!
# Sequences of batches (crypto/smt/src/tree.rs)

`compute_root_update` on a store that represents a map: when the root and the store are those of the
updated map (`Sound`), and what a sequence of batches leads to. The condition is sharp. A batch that names
one of two leaves with a common parent loses the other, and one that removes the leaf of a collapsed node
together with an absent key below it leaves that node in the store, where a later batch finds it. Nor can
nodes below a collapsed one be allowed: the removal of its leaf leaves them where nothing is (`noStale_iff`).
-/

namespace Firecash.Smt

open KeyBits SparseTree

/-- What a batch must not do: name one of two leaves with a common parent and not the other, or remove the
leaf of a collapsed node together with absent keys below that node and nothing else there. -/
structure Sound (M : LeafMap) (U : List LeafUpdate) : Prop where
  parents : ∀ k, M k ≠ 0 → M (sibling k) ≠ 0 → updateOf U (sibling k) ≠ none → updateOf U k ≠ none
  removals : ∀ d < 256, ∀ k a, Lone M d k a → ¬ Passed M 0 d k → updateOf U a = some 0 →
    ∀ u ∈ U, Agree d k u.key → u.key ≠ a → ∃ v ∈ U, Agree d k v.key ∧ v.leafHash ≠ 0

section

variable {M : LeafMap} {U : List LeafUpdate} {d : Nat} {k a : Hash}

/-- A collapsed subtree ends up empty if the batch has only removals for it, one of them of its leaf. -/
theorem vacant_applied_iff (hd : d < 256) (sorted : Sorted U) (lone : Lone M d k a) :
    Vacant (applied M U) d k ↔ updateOf U a = some 0 ∧ ∀ u ∈ U, Agree d k u.key → u.leafHash = 0 := by
  constructor
  · intro vacant
    constructor
    · cases named : updateOf U a with
      | some h => rw [← vacant a lone.1, applied_of_some named]
      | none =>
        have kept := vacant a lone.1
        rw [applied_of_alone named (sibling_of_lone (by omega) lone)] at kept
        exact absurd kept lone.2.1
    · intro u hu here
      rw [← vacant u.key here, applied_of_some ((updateOf_eq_some_iff sorted).mpr hu)]
  · rintro ⟨removed, zero⟩ x hx
    cases named : updateOf U x with
    | some h =>
      rw [applied_of_some named]
      exact zero _ ((updateOf_eq_some_iff sorted).mp named) hx
    | none =>
      apply applied_of_absent named
      by_contra held
      obtain rfl := lone.2.2 x hx held
      rw [removed] at named
      cases named

/-- A sound batch leads to the updated map. -/
theorem Sound.applied_eq (h : Sound M U) : applied M U = updated M U := by
  funext x
  unfold updated
  cases named : updateOf U x with
  | some v => exact applied_of_some named
  | none =>
    by_cases held : M x = 0
    · rw [applied_of_absent named held, Option.getD_none, held]
    · by_cases alone : M (sibling x) = 0
      · rw [applied_of_alone named alone, Option.getD_none]
      · unfold applied
        rw [named]
        rw [if_neg fun dropped => h.parents x held alone dropped.1 named, Option.getD_none]

theorem withBit_bitAt (k : Hash) : withBit k 255 (bitAt k 255) = k :=
  Agree.eq ((agree_child_iff (by decide)).mpr ⟨.refl _ _, rfl⟩)

theorem sibling_sibling (k : Hash) : sibling (sibling k) = k := by
  show sibling (withBit k 255 !bitAt k 255) = k
  rw [sibling_withBit, Bool.not_not, withBit_bitAt]

/-- A batch with one update is sound if the leaf has no sibling. -/
theorem sound_single {h : Hash} (alone : M (sibling a) = 0) : Sound M [⟨a, h⟩] := by
  have named {k : Hash} (present : updateOf [⟨a, h⟩] k ≠ none) : k = a := by
    by_contra ne
    exact present (updateOf_eq_none_iff.mpr (by simpa using Ne.symm ne))
  constructor
  · intro k held _ present
    rw [← named present, sibling_sibling] at alone
    exact absurd alone held
  · intro d _ k b _ _ removed u hu _ ne
    have own : b = a := named (by rw [removed]; exact Option.some_ne_none 0)
    rw [List.mem_singleton.mp hu, own] at ne
    exact absurd rfl ne

theorem Sound.not_emptied (h : Sound M U) (sorted : Sorted U) (hd : d < 256) : ¬ Emptied M U 0 d k := by
  rintro ⟨open_, a, lone, vacant, u, hu, ne, here⟩
  obtain ⟨removed, zero⟩ := (vacant_applied_iff hd sorted lone).mp vacant
  obtain ⟨v, hv, below, held⟩ := h.removals d hd k a lone open_ removed u hu here ne
  exact held (zero v hv below)

theorem crowded_of_leaves (held : M k ≠ 0) (beside : M (sibling k) ≠ 0) : Crowded M 255 k := by
  constructor
  · intro vacant
    exact held (vacant k (.refl _ _))
  · intro a lone
    have own := lone.2.2 k (.refl _ _) held
    have other := lone.2.2 _ (agree_sibling le_rfl k) beside
    exact sibling_ne k (other.trans own.symm)

/-- A leaf parent is crowded only if it has the leaf in question. -/
theorem held_of_crowded (h : Crowded M 255 k) : M k ≠ 0 := by
  intro absent
  have here : Vacant M 256 (withBit k 255 (bitAt k 255)) := by
    rw [vacant_full, withBit_bitAt, absent]
  rcases trichotomy M 256 (withBit k 255 !bitAt k 255) with vacant | ⟨b, lone⟩ | crowded
  · apply h.1
    rw [vacant_iff_children (by decide)]
    cases bit : bitAt k 255 <;> rw [bit] at here vacant
    · exact ⟨here, vacant⟩
    · exact ⟨vacant, here⟩
  · refine h.2 b (lone.of_child (by decide) ?_)
    rwa [Bool.not_not]
  · exact not_crowded_full crowded

end

section

variable {ε : Type} {H : SmtHasher} {store : SmtStore ε} {M : LeafMap} {U : List LeafUpdate}

/-- A store that a batch left as `after` represents the updated map only if the batch was sound. -/
theorem sound_of_represents (sorted : Sorted U)
    (reads : ∀ d < 256, ∀ k, store.getNode (.new d k) = .ok (after H M U 0 d k))
    (h : Represents H store (updated M U)) : Sound M U := by
  classical
  constructor
  · intro k held beside named other
    have kept : updated M U k ≠ 0 := by
      unfold updated
      rwa [other]
    have dropped : applied M U k = 0 := by
      unfold applied
      rw [other]
      rw [if_pos ⟨named, beside⟩]
    have crowded : ∀ d ≤ 255, Crowded M d k := by
      intro d hd
      exact (crowded_of_leaves held beside).above hd (.refl _ _)
    have open_ : ∀ d ≤ 255, store.getNode (.new d k) = .ok (stored H (applied M U) 0 d k) := by
      intro d hd
      rw [reads d (by omega) k, after_of_not_emptied]
      rintro ⟨-, a, lone, -⟩
      exact (crowded d hd).2 a lone
    by_cases lone : ∃ d, d ≤ 255 ∧ ∃ b, Lone (updated M U) d k b
    · -- the key should be collapsed at the first such depth
      obtain ⟨hd, b, first⟩ := Nat.find_spec lone
      obtain rfl := first.2.2 k (.refl _ _) kept
      have reached : ¬ Passed (updated M U) 0 (Nat.find lone) k := by
        rintro ⟨i, -, lt, found⟩
        exact Nat.find_min lone lt ⟨by omega, found⟩
      have read := h.lone _ (by omega) k k first reached
      rw [open_ _ hd, Except.ok.injEq] at read
      by_cases passed : Passed (applied M U) 0 (Nat.find lone) k
      · rw [stored_of_passed passed] at read
        cases read
      · rw [stored_of_not_passed passed] at read
        have collapsed : content H (applied M U) (Nat.find lone) k = .collapsed ⟨k, updated M U k⟩ :=
          NodeResult.node_injective read
        exact (content_eq_collapsed_iff.mp collapsed).1.2.1 dropped
    · -- the key should be one of two leaves of its parent
      have last : Crowded (updated M U) 255 k := by
        constructor
        · intro vacant
          exact kept (vacant k (.refl _ _))
        · intro b here
          exact lone ⟨255, le_rfl, b, here⟩
      have read := h.crowded 255 (by decide) k last
      rw [open_ 255 le_rfl, Except.ok.injEq] at read
      rcases trichotomy (applied M U) 255 k with vacant | ⟨b, here⟩ | both
      · rw [stored_of_vacant vacant] at read
        cases read
      · by_cases passed : Passed (applied M U) 0 255 k
        · rw [stored_of_passed passed] at read
          cases read
        · rw [stored_of_not_passed passed, content_of_lone here] at read
          cases read
      · exact held_of_crowded both dropped
  · intro d hd k a lone open_ removed u hu here ne
    by_contra none
    push Not at none
    have vacant : Vacant (applied M U) d k := (vacant_applied_iff hd sorted lone).mpr ⟨removed, none⟩
    have emptied : Emptied M U 0 d k := ⟨open_, a, lone, vacant, u, hu, ne, here⟩
    have gone : Vacant (updated M U) d k := by
      intro x hx
      unfold updated
      cases named : updateOf U x with
      | some v => exact none _ ((updateOf_eq_some_iff sorted).mp named) hx
      | none =>
        by_contra held
        obtain rfl := lone.2.2 x hx held
        rw [removed] at named
        cases named
    have left := h.vacant d hd k gone
    rw [reads d hd k, after_of_emptied emptied, content_of_lone lone] at left
    cases left

variable {current : Hash}

/-- What `compute_root_update` returns, and what the store then reads. -/
theorem computeRootUpdate_eq {U : SortedLeafUpdates}
    (reads : ∀ d < 256, ∀ k, store.getNode (.new d k) = .ok (stored H M 0 d k)) (hroot : current = root H M) :
    ∃ changes, computeRootUpdate H store current U = .ok (root H (applied M U.list), changes) ∧
      ∀ d < 256, ∀ k, (store.overlay changes).getNode (.new d k) = .ok (after H M U.list 0 d k) := by
  unfold computeRootUpdate computeRootUpdateInto
  by_cases none : U.list = []
  · have untouched : ∀ d x, Same (applied M U.list) M d x := by
      intro d x y _
      rw [none]
      rfl
    refine ⟨fun _ => Option.none, ?_, fun d hd k => ?_⟩
    · have same : applied M U.list = M := funext fun x => untouched 0 0 x (agree_zero 0 x)
      rw [if_pos (by rw [none]; rfl), same, hroot]
      rfl
    · have kept : ¬ Emptied M U.list 0 d k := by
        rintro ⟨-, a, -, -, u, hu, -⟩
        rw [none] at hu
        cases hu
      rw [after_of_not_emptied kept, stored_congr hd.le (Nat.zero_le d) (untouched 0 k) (agree_zero k k)]
      exact reads d hd k
  · obtain ⟨changes, run, effect⟩ :=
      computeSubtree_settles H store (le_refl 255) M 0 (fun _ => Option.none) U.list none U.sorted
      (fun u _ => agree_zero 0 u.key) fun d x _ hd _ => reads d hd x
    refine ⟨changes, ?_, fun d hd k => effect.reads d k (Nat.zero_le d) hd (agree_zero 0 k)⟩
    rw [if_neg (by simpa using none), show DEPTH - 1 = 255 from rfl, run]
    show Except.ok ((content H (applied M U.list) 0 0).rootHash H, changes) = _
    rw [rootHash_content]

theorem computeRootUpdate_of_sound {U : SortedLeafUpdates} (represents : Represents H store M)
    (clean : NoStale store M) (hroot : current = root H M) (sound : Sound M U.list) :
    ∃ changes, computeRootUpdate H store current U = .ok (root H (updated M U.list), changes) ∧
      Represents H (store.overlay changes) (updated M U.list) ∧ NoStale (store.overlay changes) (updated M U.list) := by
  obtain ⟨changes, run, reads⟩ := computeRootUpdate_eq (represents_and_noStale_iff.mp ⟨represents, clean⟩) hroot
  refine ⟨changes, sound.applied_eq ▸ run, represents_and_noStale_iff.mpr fun d hd k => ?_⟩
  rw [reads d hd k, after_of_not_emptied (sound.not_emptied U.sorted hd), sound.applied_eq]

/-- Batches one after the other, each written to the store. -/
def runBatches (H : SmtHasher) (store : SmtStore ε) (current : Hash) :
    List SortedLeafUpdates → Except (Fault ε) (SmtStore ε × Hash)
  | [] => .ok (store, current)
  | U :: rest => do
    let (next, changes) ← computeRootUpdate H store current U
    runBatches H (store.overlay changes) next rest

/-- The map after a sequence of batches. -/
def updatedBy (M : LeafMap) (batches : List SortedLeafUpdates) : LeafMap :=
  batches.foldl (fun M U => updated M U.list) M

/-- Every batch is sound for the map it finds. -/
def SoundRun (M : LeafMap) : List SortedLeafUpdates → Prop
  | [] => True
  | U :: rest => Sound M U.list ∧ SoundRun (updated M U.list) rest

theorem runBatches_canonical {batches : List SortedLeafUpdates} (represents : Represents H store M)
    (clean : NoStale store M) (hroot : current = root H M) (sound : SoundRun M batches) :
    ∃ store', runBatches H store current batches = .ok (store', root H (updatedBy M batches)) ∧
      Represents H store' (updatedBy M batches) ∧ NoStale store' (updatedBy M batches) := by
  induction batches generalizing store M current with
  | nil => exact ⟨store, by rw [runBatches, hroot]; rfl, represents, clean⟩
  | cons U rest ih =>
    obtain ⟨first, later⟩ := sound
    obtain ⟨changes, run, represents', clean'⟩ := computeRootUpdate_of_sound represents clean hroot first
    obtain ⟨store', rest, final⟩ := ih represents' clean' rfl later
    refine ⟨store', ?_, final⟩
    rw [runBatches, run]
    exact rest

/-- For a store that represents a map and has nothing below a collapsed node: a batch returns a root, and
that root and the store with the changes are those of the updated map exactly if the batch is sound; so
they are along every sequence of sound batches. -/
theorem computeRootUpdate_canonical {current : Hash} (represents : Represents H store M) (clean : NoStale store M)
    (hroot : current = root H M) :
    (∀ U : SortedLeafUpdates, ∃ next changes, computeRootUpdate H store current U = .ok (next, changes) ∧
      (next = root H (updated M U.list) ∧ Represents H (store.overlay changes) (updated M U.list) ↔ Sound M U.list) ∧
      (Sound M U.list → NoStale (store.overlay changes) (updated M U.list))) ∧
    ∀ batches, SoundRun M batches → ∃ store', runBatches H store current batches =
      .ok (store', root H (updatedBy M batches)) ∧
      Represents H store' (updatedBy M batches) ∧ NoStale store' (updatedBy M batches) := by
  constructor
  · intro U
    obtain ⟨changes, run, reads⟩ := computeRootUpdate_eq (represents_and_noStale_iff.mp ⟨represents, clean⟩) hroot
    refine ⟨_, changes, run, ⟨fun canonical => sound_of_represents U.sorted reads canonical.2, fun sound => ?_⟩,
      fun sound => ?_⟩
    all_goals
      obtain ⟨changes', run', represents', clean'⟩ := computeRootUpdate_of_sound represents clean hroot sound
      obtain ⟨-, rfl⟩ := Prod.mk.inj (Except.ok.inj (run.symm.trans run'))
    · exact ⟨congrArg (root H) sound.applied_eq, represents'⟩
    · exact clean'
  · intro batches sound
    exact runBatches_canonical represents clean hroot sound

/-- **The tree forgets its history.** Sound batches from canonical stores to one map end with one root and
with stores that read alike. -/
theorem runBatches_forget {store' : SmtStore ε} {M' : LeafMap} {batches batches' : List SortedLeafUpdates}
    (canonical : Represents H store M ∧ NoStale store M) (canonical' : Represents H store' M' ∧ NoStale store' M')
    (sound : SoundRun M batches) (sound' : SoundRun M' batches') (same : updatedBy M batches = updatedBy M' batches') :
    ∃ after after' next, runBatches H store (root H M) batches = .ok (after, next) ∧
      runBatches H store' (root H M') batches' = .ok (after', next) ∧
      ∀ d < 256, ∀ k, after.getNode (.new d k) = after'.getNode (.new d k) := by
  obtain ⟨after, run, reads⟩ := runBatches_canonical canonical.1 canonical.2 rfl sound
  obtain ⟨after', run', reads'⟩ := runBatches_canonical canonical'.1 canonical'.2 rfl sound'
  rw [← same] at run' reads'
  refine ⟨after, after', _, run, run', fun d hd k => ?_⟩
  rw [represents_and_noStale_iff.mp reads d hd k, represents_and_noStale_iff.mp reads' d hd k]

/-! ### Stale nodes -/

variable {s d : Nat} {k : Hash} {u : LeafUpdate} {child : SubtreeStep ε}

/-- A step for one update changes nothing deeper than `s`. -/
def Shallow (s : Nat) (u : LeafUpdate) (step : SubtreeStep ε) : Prop :=
  ∀ r, step (fun _ => none) [u] = .ok r → ∀ key : BranchKey, s < key.depth → r.2 key = none

theorem subtreeStep_shallow_of_leaf {v : Hash}
    (leaf : store.getNode (.new s u.key) = .ok (some (.collapsed ⟨u.key, v⟩))) :
    Shallow s u (subtreeStep H store s child) := by
  intro r run key deeper
  have read : readNode store (fun _ => none) (.new s u.key) = .ok (some (.collapsed ⟨u.key, v⟩)) := leaf
  have own : key ≠ .new s u.key := by
    rintro rfl
    exact Nat.lt_irrefl s deeper
  simp only [subtreeStep, read, single, if_true, bind, Except.bind] at run
  cases run
  exact recordChange_of_ne own ..

theorem childResult_nil {key : BranchKey} {b : Bool} {changes : SmtNodeChanges} {r : NodeResult × SmtNodeChanges}
    (run : childResult store d child key b changes [] = .ok r) : r.2 = changes := by
  obtain ⟨result, -, done⟩ := Except.bind_eq_ok_iff.mp run
  cases done
  rfl

theorem subtreeStep_shallow {h : Hash} (hd : d < s) (hs : s < 256)
    (inner : store.getNode (.new d u.key) = .ok (some (.internal h))) (below : Shallow s u child) :
    Shallow s u (subtreeStep H store d child) := by
  intro r run key deeper
  have read : readNode store (fun _ => none) (.new d u.key) = .ok (some (.internal h)) := inner
  have last : d ≠ DEPTH - 1 := by
    unfold DEPTH
    omega
  have run : joinSubtree H store d child (.new d u.key) (some (.internal h)) (fun _ => none) [u] = .ok r := by
    unfold subtreeStep at run
    dsimp only at run
    rw [read] at run
    exact run
  rw [joinSubtree, if_neg last] at run
  obtain ⟨left, first, run⟩ := Except.bind_eq_ok_iff.mp run
  obtain ⟨right, second, run⟩ := Except.bind_eq_ok_iff.mp run
  cases run
  -- the key is on one side, and the other side is only read
  have kept : right.2 key = none := by
    cases bit : bitAt u.key d with
    | false =>
      simp only [List.takeWhile_cons, List.takeWhile_nil, bit, Bool.not_false, if_true] at first
      simp only [List.dropWhile_cons, List.dropWhile_nil, bit, Bool.not_false, if_true] at second
      rw [childResult_nil second]
      exact below left first key deeper
    | true =>
      simp only [List.takeWhile_cons, bit, Bool.not_true, Bool.false_eq_true, if_false] at first
      simp only [List.dropWhile_cons, bit, Bool.not_true, Bool.false_eq_true, if_false] at second
      rw [childResult_nil first] at second
      exact below right second key deeper
  have own : key ≠ .new d u.key := by
    rintro rfl
    exact absurd hd (Nat.lt_asymm deeper)
  have grave : ∀ b, key ≠ childBranchKey (.new d u.key) b d := by
    rintro b rfl
    have : s < d + 1 := deeper
    omega
  show recordChange _ _ _ _ key = none
  rw [recordChange_of_ne own, buryPromoted_of_ne grave, kept]

/-- Down to the node of its leaf, an update passes internal nodes only. -/
theorem computeSubtree_shallow {v : Hash} {below : Nat} (hs : s < 256) (le : 255 - below ≤ s) (hbelow : below ≤ 255)
    (inner : ∀ d < s, ∃ h, store.getNode (.new d u.key) = .ok (some (.internal h)))
    (leaf : store.getNode (.new s u.key) = .ok (some (.collapsed ⟨u.key, v⟩))) :
    Shallow s u (computeSubtree H store below) := by
  induction below with
  | zero =>
    obtain rfl : s = 255 := by omega
    exact subtreeStep_shallow_of_leaf leaf
  | succ below ih =>
    rcases Nat.eq_or_lt_of_le le with rfl | lt
    · exact subtreeStep_shallow_of_leaf leaf
    · obtain ⟨h, read⟩ := inner _ lt
      exact subtreeStep_shallow lt hs read (ih (by omega) (by omega))

/-- An update of the leaf of a collapsed node changes nothing below the node. -/
theorem changes_below_leaf {U : SortedLeafUpdates} {current next : Hash} {changes : SmtNodeChanges}
    (represents : Represents H store M) (hs : s < 256) (lone : Lone M s k u.key) (reached : ¬ Passed M 0 s k)
    (one : U.list = [u]) (run : computeRootUpdate H store current U = .ok (next, changes)) (deeper : s < d) :
    changes (.new d k) = none := by
  have path {j : Nat} (le : j ≤ s) : BranchKey.new j u.key = .new j k :=
    branchKey_congr (by omega) (lone.1.symm.mono le)
  have inner : ∀ j < s, ∃ h, store.getNode (.new j u.key) = .ok (some (.internal h)) := by
    intro j hj
    have crowded : Crowded M j k :=
      ⟨fun vacant => lone.2.1 (vacant u.key (lone.1.mono hj.le)), fun b above => reached ⟨j, j.zero_le, hj, b, above⟩⟩
    rw [path hj.le]
    exact ⟨_, represents.crowded j (by omega) k crowded⟩
  have leaf : store.getNode (.new s u.key) = .ok (some (.collapsed ⟨u.key, M u.key⟩)) := by
    rw [path le_rfl]
    exact represents.lone s hs k _ lone reached
  unfold computeRootUpdate computeRootUpdateInto at run
  rw [one] at run
  obtain ⟨r, subtree, done⟩ := Except.bind_eq_ok_iff.mp run
  cases done
  exact computeSubtree_shallow hs s.zero_le (by decide) inner leaf r subtree _ deeper

/-- **Stale nodes are found out.** A store that represents a map keeps to it under every sound batch exactly
if it has no stale node: the removal of the leaf above one leaves the node where there is nothing. -/
theorem noStale_iff (represents : Represents H store M) :
    NoStale store M ↔ ∀ U : SortedLeafUpdates, Sound M U.list → ∃ next changes,
      computeRootUpdate H store (root H M) U = .ok (next, changes) ∧
        Represents H (store.overlay changes) (updated M U.list) := by
  constructor
  · intro clean U sound
    obtain ⟨changes, run, after, -⟩ := computeRootUpdate_of_sound represents clean rfl sound
    exact ⟨_, changes, run, after⟩
  · classical
    intro keeps d hd k passed
    rcases trichotomy M d k with vacant | ⟨a, lone⟩ | crowded
    · exact represents.vacant d hd k vacant
    · -- the first collapsed node on the way to the stale one
      obtain ⟨i, -, lt, above⟩ := passed
      have found : ∃ i, ∃ b, Lone M i k b := ⟨i, above⟩
      obtain ⟨b, top⟩ := Nat.find_spec found
      have deeper : Nat.find found < d := (Nat.find_min' found above).trans_lt lt
      have reached : ¬ Passed M 0 (Nat.find found) k := fun ⟨j, _, hj, lone⟩ => Nat.find_min found hj lone
      obtain rfl := top.2.2 a (lone.1.mono deeper.le) lone.2.1
      let U : SortedLeafUpdates := ⟨[⟨a, 0⟩], List.pairwise_singleton _ _⟩
      have sound : Sound M U.list := sound_single (sibling_of_lone (by omega) lone)
      obtain ⟨next, changes, run, after⟩ := keeps U sound
      have untouched : changes (.new d k) = none :=
        changes_below_leaf represents (by omega) top reached rfl run deeper
      have gone : Vacant (updated M U.list) d k := by
        rw [← sound.applied_eq, vacant_applied_iff hd U.sorted lone]
        refine ⟨(updateOf_eq_some_iff U.sorted).mpr (List.mem_singleton_self _), fun u hu _ => ?_⟩
        rw [List.mem_singleton.mp hu]
      have read := after.vacant d hd k gone
      unfold SmtStore.overlay readNode at read
      simpa only [untouched] using read
    · exact absurd passed (not_passed_of_crowded crowded)

end

/-! ## A tree of one leaf -/

def sampleHasher : SmtHasher := ⟨fun l r => l + 3 * r + 1, fun k v => 5 * k + v⟩

def loneMap (a v : Hash) : LeafMap := fun k => if k = a then v else 0

def loneStore (a v : Hash) : SmtStore Empty where
  getNode key := .ok (if key = .new 0 a then some (.collapsed ⟨a, v⟩) else none)
  getLeaf key := .ok (if key = a then some v else none)

theorem lone_loneMap {a v k : Hash} {d : Nat} (hv : v ≠ 0) (below : Agree d k a) : Lone (loneMap a v) d k a := by
  refine ⟨below, ?_, fun x _ held => ?_⟩
  · rwa [loneMap, if_pos rfl]
  · by_contra ne
    exact held (if_neg ne)

theorem represents_loneStore {a v : Hash} (hv : v ≠ 0) :
    Represents sampleHasher (loneStore a v) (loneMap a v) ∧ NoStale (loneStore a v) (loneMap a v) := by
  rw [represents_and_noStale_iff]
  intro d hd k
  have top : Lone (loneMap a v) 0 k a := lone_loneMap hv (agree_zero k a)
  show Except.ok (if BranchKey.new d k = .new 0 a then some (Node.collapsed ⟨a, v⟩) else none) = _
  cases d with
  | zero =>
    have value : loneMap a v a = v := if_pos rfl
    rw [if_pos (branchKey_congr hd.le (agree_zero k a)), stored_of_not_passed not_passed_self,
      content_of_lone top, value]
    rfl
  | succ d =>
    have ne : BranchKey.new (d + 1) k ≠ .new 0 a := by
      intro same
      exact absurd ((branchKey_eq_iff hd.le).mp same).1 (Nat.succ_ne_zero d)
    rw [if_neg ne, stored_of_passed ⟨0, le_rfl, Nat.succ_pos d, a, top⟩]

/-- A batch that sets another key. -/
def insertTop : SortedLeafUpdates := ⟨[⟨1 <<< 255, 7⟩], by decide⟩

theorem computeRootUpdate_canonical_insertTop :
    SoundRun (loneMap 0 1) [insertTop] ∧ ∃ store',
      runBatches sampleHasher (loneStore 0 1) (root sampleHasher (loneMap 0 1)) [insertTop] =
        .ok (store', root sampleHasher (updatedBy (loneMap 0 1) [insertTop])) ∧
      Represents sampleHasher store' (updatedBy (loneMap 0 1) [insertTop]) := by
  have sound : SoundRun (loneMap 0 1) [insertTop] := ⟨sound_single (by decide), trivial⟩
  obtain ⟨represents, clean⟩ := represents_loneStore (a := 0) (v := 1) (by decide)
  obtain ⟨-, runs⟩ := computeRootUpdate_canonical represents clean rfl
  obtain ⟨store', run, canonical, -⟩ := runs _ sound
  exact ⟨sound, store', run, canonical⟩

def removeTop : SortedLeafUpdates := ⟨[⟨1 <<< 255, 0⟩], by decide⟩

/-- The key is set and removed again: root and store are what they were. -/
theorem runBatches_forget_removeTop : ∃ after,
    runBatches sampleHasher (loneStore 0 1) (root sampleHasher (loneMap 0 1)) [insertTop, removeTop] =
      .ok (after, root sampleHasher (loneMap 0 1)) ∧
    ∀ d < 256, ∀ k, after.getNode (.new d k) = (loneStore 0 1).getNode (.new d k) := by
  have canonical := represents_loneStore (a := 0) (v := 1) (by decide)
  have sound : SoundRun (loneMap 0 1) [insertTop, removeTop] :=
    ⟨sound_single (by decide), sound_single (by decide), trivial⟩
  have same : updatedBy (loneMap 0 1) [insertTop, removeTop] = loneMap 0 1 := by
    funext k
    by_cases top : k = 1 <<< 255
    · rw [top]
      decide
    · have absent (h : Hash) : updateOf [⟨1 <<< 255, h⟩] k = none :=
        updateOf_eq_none_iff.mpr (by simpa using Ne.symm top)
      show (updateOf [⟨_, 0⟩] k).getD ((updateOf [⟨_, 7⟩] k).getD _) = _
      rw [absent, absent]
      rfl
  have none : SoundRun (loneMap 0 1) [] := trivial
  obtain ⟨after, kept, next, run, unchanged, reads⟩ := runBatches_forget canonical canonical sound none same
  cases unchanged
  exact ⟨after, run, reads⟩

/-- The batch that removes the leaf and an absent key. -/
def removeBoth : SortedLeafUpdates := ⟨[⟨0, 0⟩, ⟨1 <<< 255, 0⟩], by decide⟩

/-- It returns the empty root and no change at all, so the store still reads the leaf. -/
theorem removeBoth_keeps_leaf : ∃ changes,
    Represents sampleHasher (loneStore 0 1) (loneMap 0 1) ∧ NoStale (loneStore 0 1) (loneMap 0 1) ∧
    computeRootUpdate sampleHasher (loneStore 0 1) (root sampleHasher (loneMap 0 1)) removeBoth =
      .ok (EMPTY_HASHES sampleHasher DEPTH, changes) ∧
    ((loneStore 0 1).overlay changes).getNode (.new 0 0) = .ok (some (.collapsed ⟨0, 1⟩)) ∧
    ¬ Represents sampleHasher ((loneStore 0 1).overlay changes) (updated (loneMap 0 1) removeBoth.list) := by
  obtain ⟨represents, clean⟩ := represents_loneStore (a := 0) (v := 1) (by decide)
  have read : ((loneStore 0 1).overlay fun _ => none).getNode (.new 0 0) = .ok (some (.collapsed ⟨0, 1⟩)) := rfl
  refine ⟨fun _ => none, represents, clean, rfl, read, fun after => ?_⟩
  have gone : Vacant (updated (loneMap 0 1) removeBoth.list) 0 0 := by
    intro x _
    unfold updated
    by_cases own : x = 0
    · subst own
      rfl
    · by_cases other : x = 1 <<< 255
      · subst other
        rfl
      · have named : updateOf removeBoth.list x = none := by
          rw [updateOf_eq_none_iff]
          simpa [removeBoth] using ⟨Ne.symm own, Ne.symm other⟩
        rw [named, Option.getD_none]
        exact if_neg own
  have nothing := after.vacant 0 (by decide) 0 gone
  rw [read] at nothing
  cases nothing

end Firecash.Smt
