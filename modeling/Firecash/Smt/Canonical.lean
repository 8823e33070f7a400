import Firecash.Smt.Tree

/-!
# What a store of the sparse tree holds

The canonical tree of a map: a subtree with no key is empty, one with a single key is collapsed to it, any
other is internal with the hash of its children. `content` is that, and `mergedNode` computes it from the
children (`mergedNode_content`).

A store represents a map (`Represents`) if it reads so at every subtree that is reached from the root
without passing a collapsed one; it has no stale nodes (`NoStale`) if it reads nothing below a collapsed
one. Both together say what every node reads (`stored`).
-/

namespace Firecash.Smt

open KeyBits SparseTree BranchKey

/-- A finite map from keys to leaf hashes; the hash is zero where there is no leaf. -/
abbrev LeafMap := Hash → Hash

/-! ## Branch keys -/

variable {d : Nat}

theorem branchKey_eq_iff {d' : Nat} {k k' : Hash} (hd : d ≤ 256) : new d k = new d' k' ↔ d = d' ∧ Agree d k k' := by
  rw [mk.injEq]
  constructor
  · rintro ⟨rfl, same⟩
    exact ⟨rfl, (keep_eq_iff hd).mp same⟩
  · rintro ⟨rfl, same⟩
    exact ⟨rfl, (keep_eq_iff hd).mpr same⟩

theorem branchKey_congr {k k' : Hash} (hd : d ≤ 256) (same : Agree d k k') : new d k = new d k' :=
  (branchKey_eq_iff hd).mpr ⟨rfl, same⟩

theorem childBranchKey_new (hd : d < 256) (k : Hash) (b : Bool) :
    childBranchKey (new d k) b d = new (d + 1) (withBit k d b) := by
  unfold childBranchKey new
  rw [mk.injEq]
  refine ⟨rfl, eq_of_bitAt fun i hi => ?_⟩
  rw [bitAt_keep (by omega), bitAt_withBit hd]
  cases b with
  | false =>
    rw [if_neg Bool.false_ne_true, bitAt_keep (by omega)]
    by_cases low : i < d
    · simp [low, show i < d + 1 by omega, show i ≠ d by omega]
    · by_cases here : i = d
      · simp [here]
      · simp [low, show ¬ i < d + 1 by omega]
  | true =>
    have set : bitAt (keep d k ||| BitVec.twoPow 256 (255 - d)) i = (bitAt (keep d k) i || decide (i = d)) := by
      have place : 255 - d = 256 - 1 - i ↔ i = d := by omega
      simp [bitAt, BitVec.getMsbD_eq_getLsbD, BitVec.getLsbD_twoPow, hi, place, show 255 - d < 256 by omega]
    rw [if_pos rfl, set, bitAt_keep (by omega)]
    by_cases low : i < d
    · simp [low, show i < d + 1 by omega, show i ≠ d by omega]
    · by_cases here : i = d
      · simp [here]
      · simp [low, here, show ¬ i < d + 1 by omega]

/-! ## The canonical content of a subtree -/

open Classical in
/-- What the subtree of depth `d` on the path of `k` is. -/
noncomputable def content (H : SmtHasher) (M : LeafMap) (d : Nat) (k : Hash) : NodeResult :=
  if Vacant M d k then .empty
  else if lone : ∃ a, Lone M d k a then .collapsed ⟨lone.choose, M lone.choose⟩
  else .internal (hashAt H M d k)

section

variable {H : SmtHasher} {M M' : LeafMap} {d e s : Nat} {k k' a : Hash}

theorem content_of_vacant (h : Vacant M d k) : content H M d k = .empty := if_pos h

theorem content_of_lone (h : Lone M d k a) : content H M d k = .collapsed ⟨a, M a⟩ := by
  unfold content
  rw [if_neg h.not_vacant, dif_pos ⟨a, h⟩]
  generalize_proofs some
  rw [some.choose_spec.eq h]

theorem content_of_crowded (h : Crowded M d k) : content H M d k = .internal (hashAt H M d k) := by
  unfold content
  rw [if_neg h.1, dif_neg (not_exists.mpr h.2)]

theorem content_eq_empty_iff : content H M d k = .empty ↔ Vacant M d k := by
  rcases trichotomy M d k with vacant | ⟨a, lone⟩ | crowded
  · exact iff_of_true (content_of_vacant vacant) vacant
  · rw [content_of_lone lone]
    exact iff_of_false NodeResult.noConfusion lone.not_vacant
  · rw [content_of_crowded crowded]
    exact iff_of_false NodeResult.noConfusion crowded.1

theorem content_eq_collapsed_iff {leaf : CollapsedLeaf} :
    content H M d k = .collapsed leaf ↔ Lone M d k leaf.laneKey ∧ leaf.leafHash = M leaf.laneKey := by
  constructor
  · intro h
    rcases trichotomy M d k with vacant | ⟨a, lone⟩ | crowded
    · rw [content_of_vacant vacant] at h
      cases h
    · rw [content_of_lone lone] at h
      cases h
      exact ⟨lone, rfl⟩
    · rw [content_of_crowded crowded] at h
      cases h
  · rintro ⟨lone, value⟩
    rw [content_of_lone lone, ← value]

theorem content_congr (hd : d ≤ 256) (same : Agree d k k') (maps : Same M M' d k) :
    content H M d k = content H M' d k' := by
  rcases trichotomy M d k with vacant | ⟨a, lone⟩ | crowded
  · rw [content_of_vacant vacant, content_of_vacant ((maps.vacant vacant).congr same)]
  · rw [content_of_lone lone, content_of_lone ((maps.lone lone).congr same), maps a lone.1]
  · have crowded' : Crowded M' d k' := by
      constructor
      · intro vacant
        exact crowded.1 (maps.symm.vacant (vacant.congr same.symm))
      · intro a lone
        exact crowded.2 a (maps.symm.lone (lone.congr same.symm))
    rw [content_of_crowded crowded, content_of_crowded crowded', hashAt_congr H hd same maps]

theorem content_leaf (H : SmtHasher) (M : LeafMap) (k : Hash) : content H M 256 k = leafResult (some ⟨k, M k⟩) := by
  unfold leafResult
  dsimp only
  by_cases held : M k = 0
  · rw [content_of_vacant (vacant_full.mpr held), if_neg (by simpa [ZERO_HASH] using held)]
  · rw [content_of_lone (lone_full.mpr ⟨rfl, held⟩), if_pos (by simpa [ZERO_HASH] using held)]

theorem hash_content (hd : d < 256) (k : Hash) : (content H M (d + 1) k).hash H d = hashAt H M (d + 1) k := by
  rcases trichotomy M (d + 1) k with vacant | ⟨a, lone⟩ | crowded
  · have height : DEPTH - 1 - d = 256 - (d + 1) := by
      unfold DEPTH
      omega
    rw [content_of_vacant vacant, hashAt_of_vacant H hd vacant, NodeResult.hash, EMPTY_HASHES, height]
  · rw [content_of_lone lone, hashAt_of_lone H hd lone]
    rfl
  · rw [content_of_crowded crowded]
    rfl

/-- `merged_node` gives the content of the parent. -/
theorem mergedNode_content (hd : d < 256) (k : Hash) :
    mergedNode H (content H M (d + 1) (withBit k d false)) (content H M (d + 1) (withBit k d true)) d =
      content H M d k := by
  have internal : Crowded M d k → NodeResult.internal (H.node ((content H M (d + 1) (withBit k d false)).hash H d)
      ((content H M (d + 1) (withBit k d true)).hash H d)) = content H M d k := by
    intro crowded
    rw [hash_content hd, hash_content hd, content_of_crowded crowded, hashAt_of_crowded H hd crowded]
  rcases trichotomy M (d + 1) (withBit k d false) with left | ⟨a, left⟩ | left
  · rcases trichotomy M (d + 1) (withBit k d true) with right | ⟨b, right⟩ | right
    · rw [content_of_vacant left, content_of_vacant right,
        content_of_vacant ((vacant_iff_children hd).mpr ⟨left, right⟩)]
      rfl
    · rw [content_of_vacant left, content_of_lone right, content_of_lone (right.of_child hd left)]
      rfl
    · rw [← internal (crowded_of_child hd right), content_of_crowded right, content_of_vacant left]
      rfl
  · rcases trichotomy M (d + 1) (withBit k d true) with right | ⟨b, right⟩ | right
    · rw [content_of_lone left, content_of_vacant right, content_of_lone (left.of_child hd right)]
      rfl
    · rw [← internal (crowded_of_both hd left.not_vacant right.not_vacant), content_of_lone left, content_of_lone right]
      rfl
    · rw [← internal (crowded_of_child hd right), content_of_lone left, content_of_crowded right]
      rfl
  · rw [← internal (crowded_of_child hd left), content_of_crowded left]
    rfl

theorem rootHash_content (k : Hash) : (content H M 0 k).rootHash H = root H M := by
  have start : hashAt H M 0 k = root H M := hashAt_congr H (Nat.zero_le _) (agree_zero k 0) fun _ _ => rfl
  rw [← start]
  rcases trichotomy M 0 k with vacant | ⟨a, lone⟩ | crowded
  · rw [content_of_vacant vacant, hashAt_of_vacant H (Nat.zero_le _) vacant]
    rfl
  · rw [content_of_lone lone, hashAt_of_lone H (Nat.zero_le _) lone]
    rfl
  · rw [content_of_crowded crowded]
    rfl

/-! ## Stores -/

/-- On the way from depth `s` down to depth `d` a subtree with a single key is passed. -/
def Passed (M : LeafMap) (s d : Nat) (k : Hash) : Prop := ∃ i, s ≤ i ∧ i < d ∧ ∃ a, Lone M i k a

theorem not_passed_self : ¬ Passed M s s k := by
  rintro ⟨i, le, lt, -⟩
  omega

theorem passed_iff (h : s < d) : Passed M s d k ↔ (∃ a, Lone M s k a) ∨ Passed M (s + 1) d k := by
  constructor
  · rintro ⟨i, le, lt, lone⟩
    rcases Nat.eq_or_lt_of_le le with rfl | above
    · exact .inl lone
    · exact .inr ⟨i, above, lt, lone⟩
  · rintro (lone | ⟨i, le, lt, lone⟩)
    · exact ⟨s, le_rfl, h, lone⟩
    · exact ⟨i, by omega, lt, lone⟩

theorem not_passed_of_crowded (h : Crowded M d k) : ¬ Passed M s d k := by
  rintro ⟨i, -, lt, a, lone⟩
  exact (h.above lt.le (.refl i k)).2 a lone

open Classical in
/-- What a store without stale nodes reads at depth `d` if the tree begins at depth `s`. -/
noncomputable def stored (H : SmtHasher) (M : LeafMap) (s d : Nat) (k : Hash) : Option Node :=
  if Passed M s d k then none else (content H M d k).node

theorem stored_of_passed (h : Passed M s d k) : stored H M s d k = none := if_pos h

theorem stored_of_not_passed (h : ¬ Passed M s d k) : stored H M s d k = (content H M d k).node := if_neg h

theorem stored_of_vacant (h : Vacant M d k) : stored H M s d k = none := by
  by_cases passed : Passed M s d k
  · exact stored_of_passed passed
  · rw [stored_of_not_passed passed, content_of_vacant h]
    rfl

theorem stored_below (h : s < d) (below : Agree s k k') (small : Vacant M s k ∨ ∃ a, Lone M s k a) :
    stored H M s d k' = none := by
  rcases small with vacant | ⟨a, lone⟩
  · exact stored_of_vacant (vacant.below h.le below)
  · exact stored_of_passed ⟨s, le_rfl, h, a, lone.congr below⟩

theorem stored_succ (h : s < d) (start : ∀ a, ¬ Lone M s k a) : stored H M s d k = stored H M (s + 1) d k := by
  have same : Passed M s d k ↔ Passed M (s + 1) d k := by
    rw [passed_iff h]
    exact or_iff_right (not_exists.mpr start)
  by_cases passed : Passed M s d k
  · rw [stored_of_passed passed, stored_of_passed (same.mp passed)]
  · rw [stored_of_not_passed passed, stored_of_not_passed (mt same.mpr passed)]

theorem stored_congr (hd : d ≤ 256) (le : s ≤ d) (maps : Same M M' s k) (below : Agree s k k') :
    stored H M s d k' = stored H M' s d k' := by
  have passes : ∀ {N N' : LeafMap}, Same N N' s k → Passed N s d k' → Passed N' s d k' := by
    rintro N N' maps ⟨i, hi, lt, a, lone⟩
    exact ⟨i, hi, lt, a, (maps.below hi below).lone lone⟩
  by_cases passed : Passed M s d k'
  · rw [stored_of_passed passed, stored_of_passed (passes maps passed)]
  · rw [stored_of_not_passed passed, stored_of_not_passed (mt (passes maps.symm) passed),
      content_congr hd (.refl d k') (maps.below le below)]

end

section

variable {ε : Type} {H : SmtHasher} {M : LeafMap} {store : SmtStore ε}

/-- A store reads the canonical tree of a map wherever it is reached without passing a collapsed subtree,
and nothing at a subtree without a key. -/
structure Represents (H : SmtHasher) (store : SmtStore ε) (M : LeafMap) : Prop where
  vacant : ∀ d < 256, ∀ k, Vacant M d k → store.getNode (.new d k) = .ok none
  lone : ∀ d < 256, ∀ k a, Lone M d k a → ¬ Passed M 0 d k → store.getNode (.new d k) = .ok (some (.collapsed ⟨a, M a⟩))
  crowded : ∀ d < 256, ∀ k, Crowded M d k → store.getNode (.new d k) = .ok (some (.internal (hashAt H M d k)))

/-- A store reads nothing below a collapsed subtree. -/
def NoStale (store : SmtStore ε) (M : LeafMap) : Prop :=
  ∀ d < 256, ∀ k, Passed M 0 d k → store.getNode (.new d k) = .ok none

theorem represents_and_noStale_iff :
    Represents H store M ∧ NoStale store M ↔ ∀ d < 256, ∀ k, store.getNode (.new d k) = .ok (stored H M 0 d k) := by
  constructor
  · rintro ⟨represents, clean⟩ d hd k
    by_cases passed : Passed M 0 d k
    · rw [stored_of_passed passed, clean d hd k passed]
    · rw [stored_of_not_passed passed]
      rcases trichotomy M d k with vacant | ⟨a, lone⟩ | crowded
      · rw [content_of_vacant vacant, represents.vacant d hd k vacant]
        rfl
      · rw [content_of_lone lone, represents.lone d hd k a lone passed]
        rfl
      · rw [content_of_crowded crowded, represents.crowded d hd k crowded]
        rfl
  · intro reads
    refine ⟨⟨fun d hd k vacant => ?_, fun d hd k a lone open_ => ?_, fun d hd k crowded => ?_⟩, fun d hd k passed => ?_⟩
    · rw [reads d hd k, stored_of_vacant vacant]
    · rw [reads d hd k, stored_of_not_passed open_, content_of_lone lone]
      rfl
    · rw [reads d hd k, stored_of_not_passed (not_passed_of_crowded crowded), content_of_crowded crowded]
      rfl
    · rw [reads d hd k, stored_of_passed passed]

end

end Firecash.Smt
