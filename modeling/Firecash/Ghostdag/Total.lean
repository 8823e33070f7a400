import Firecash.Lib.Fallible
import Firecash.Ghostdag.Colouring

/-!
# When GHOSTDAG returns

`ghostdag` runs on headers that nobody has validated when a headers proof is checked, over parents that
need not be an antichain. This is what holds of it then, without the colouring invariant.
-/

namespace Firecash

open List Option Function StoredGhostdagData GhostdagManager

namespace GhostdagManager

variable {M : GhostdagManager} {parents mergeset : List Hash} {sp c x : Hash} {data data' : StoredGhostdagData}

/-- The first part of `ghostdag` over the selected parent: the colours of the mergeset. -/
def coloured (M : GhostdagManager) (sp : Hash) (parents : List Hash) : Option StoredGhostdagData := do
  let data ← newWithSelectedParent sp M.k
  let orderedMergeset ← M.orderedMergesetWithoutSelectedParent sp parents
  orderedMergeset.foldlM M.colour data

theorem ghostdag_eq_coloured (selected : M.findSelectedParent parents = some sp) (notOrigin : sp ≠ ORIGIN) :
    M.ghostdag parents = (M.coloured sp parents).bind M.finalizeScoreAndWork := by
  unfold ghostdag coloured
  rw [selected]
  show (if sp = ORIGIN then _ else _ : Option StoredGhostdagData) = _
  rw [if_neg notOrigin]
  cases newWithSelectedParent sp M.k with
  | none => rfl
  | some start =>
    cases M.orderedMergesetWithoutSelectedParent sp parents with
    | none => rfl
    | some mergeset => rfl

theorem ghostdag_eq_origin (selected : M.findSelectedParent parents = some ORIGIN) :
    M.ghostdag parents = newWithSelectedParent ORIGIN 1 := by
  unfold ghostdag
  rw [selected]
  rw [bind_eq_bind, bind_some, if_pos rfl]

theorem finalizeScoreAndWork_eq {coloured : StoredGhostdagData} (h : M.finalizeScoreAndWork coloured = some data) :
    ∃ parent ws, M.getData coloured.selectedParent = some parent ∧ coloured.mergesetBlues.mapM M.workOf = some ws ∧
      data = { coloured with
        blueScore := parent.blueScore + coloured.mergesetBlues.length
        blueWork := parent.blueWork + ws.sum } := by
  obtain ⟨parent, hparent, h⟩ := bind_eq_some_iff.mp h
  dsimp only at h
  split at h
  · obtain ⟨ws, hws, h⟩ := bind_eq_some_iff.mp h
    exact ⟨parent, ws, hparent, hws, (some.inj h).symm⟩
  · cases h

theorem mapM_isSome_iff {α β : Type} {f : α → Option β} {as : List α} :
    (as.mapM f).isSome ↔ ∀ a ∈ as, (f a).isSome := by
  induction as with
  | nil => exact iff_of_true rfl nofun
  | cons a as ih =>
    rw [mapM_cons, forall_mem_cons, ← ih]
    cases f a with
    | none => exact iff_of_false Bool.false_ne_true fun h => Bool.false_ne_true h.1
    | some b =>
      cases as.mapM f with
      | none => exact iff_of_false Bool.false_ne_true fun h => Bool.false_ne_true h.2
      | some bs => exact iff_of_true rfl ⟨rfl, rfl⟩

/-- The end of `ghostdag` can fail only on a blue block whose work does not fit. -/
theorem finalizeScoreAndWork_isSome_iff {parent : StoredGhostdagData}
    (stored : M.getData data.selectedParent = some parent)
    (small : parent.blueScore + data.mergesetBlues.length < 2 ^ 64) :
    (M.finalizeScoreAndWork data).isSome ↔ ∀ x ∈ data.mergesetBlues, (M.workOf x).isSome := by
  unfold finalizeScoreAndWork
  rw [stored]
  show (if _ then _ else _ : Option StoredGhostdagData).isSome ↔ _
  rw [if_pos small, ← mapM_isSome_iff]
  cases data.mergesetBlues.mapM M.workOf with
  | none => rfl
  | some ws => rfl

/-! ## What is coloured -/

theorem colour_perm (h : M.colour data c = some data') :
    data'.selectedParent = data.selectedParent ∧
      (data'.mergesetBlues ++ data'.mergesetReds).Perm (data.mergesetBlues ++ data.mergesetReds ++ [c]) ∧
      (data'.mergesetBlues = data.mergesetBlues ∨ data'.mergesetBlues = data.mergesetBlues ++ [c]) := by
  unfold colour at h
  split at h
  · cases h
  · cases h
    refine ⟨rfl, ?_, .inr rfl⟩
    show ((data.mergesetBlues ++ [c]) ++ data.mergesetReds).Perm _
    rw [append_assoc, append_assoc]
    exact List.Perm.append_left _ perm_append_comm
  · cases h
    refine ⟨rfl, ?_, .inl rfl⟩
    show (data.mergesetBlues ++ (data.mergesetReds ++ [c])).Perm _
    rw [append_assoc]

theorem foldlM_colour_perm (h : mergeset.foldlM M.colour data = some data') :
    data'.selectedParent = data.selectedParent ∧
      (data'.mergesetBlues ++ data'.mergesetReds).Perm (data.mergesetBlues ++ data.mergesetReds ++ mergeset) ∧
      ∃ more, data'.mergesetBlues = data.mergesetBlues ++ more := by
  induction h using foldlM_induction with
  | nil => exact ⟨rfl, by rw [append_nil], [], by rw [append_nil]⟩
  | cons c mergeset data data₁ h₁ _ ih =>
    obtain ⟨selected₁, perm₁, blues₁⟩ := colour_perm h₁
    obtain ⟨selected, perm, more, blues⟩ := ih
    refine ⟨selected.trans selected₁, ?_, ?_⟩
    · have step := perm.trans (perm₁.append_right mergeset)
      rwa [append_assoc _ [c], singleton_append] at step
    · rcases blues₁ with same | added
      · exact ⟨more, by rw [blues, same]⟩
      · exact ⟨c :: more, by rw [blues, added, append_assoc, singleton_append]⟩

/-- The coloured data: the selected parent first, and the ordered mergeset split between the two lists. -/
theorem coloured_perm (h : M.coloured sp parents = some data) :
    data.selectedParent = sp ∧ data.mergesetBlues.head? = some sp ∧
      ∃ mergeset, M.orderedMergesetWithoutSelectedParent sp parents = some mergeset ∧
        (data.mergesetBlues ++ data.mergesetReds).Perm (sp :: mergeset) := by
  obtain ⟨start, hstart, h⟩ := bind_eq_some_iff.mp h
  obtain ⟨mergeset, hmergeset, h⟩ := bind_eq_some_iff.mp h
  unfold newWithSelectedParent at hstart
  split at hstart
  · cases hstart
    obtain ⟨selected, perm, more, blues⟩ := foldlM_colour_perm h
    exact ⟨selected, by rw [blues]; rfl, mergeset, hmergeset, perm⟩
  · cases hstart

theorem mapM_sortable {bs : List Hash} {ks : List SortableBlock} (h : bs.mapM M.sortable = some ks) :
    ks.map SortableBlock.hash = bs ∧ ∀ x ∈ bs, (M.getData x).isSome := by
  induction bs generalizing ks with
  | nil =>
    cases h
    exact ⟨rfl, nofun⟩
  | cons b bs ih =>
    rw [mapM_cons] at h
    obtain ⟨k, hk, h⟩ := bind_eq_some_iff.mp h
    obtain ⟨ks', hks, h⟩ := bind_eq_some_iff.mp h
    cases h
    obtain ⟨d, hd, rfl⟩ := map_eq_some_iff.mp hk
    obtain ⟨hashes, stored⟩ := ih hks
    refine ⟨congrArg (b :: ·) hashes, forall_mem_cons.mpr ⟨?_, stored⟩⟩
    rw [hd]
    rfl

theorem findSelectedParent_mem (h : M.findSelectedParent parents = some sp) : sp ∈ parents ∧ (M.getData sp).isSome := by
  obtain ⟨ks, hks, h⟩ := bind_eq_some_iff.mp h
  obtain ⟨best, hbest, h⟩ := bind_eq_some_iff.mp h
  cases h
  obtain ⟨hashes, stored⟩ := mapM_sortable hks
  have nonempty : ks ≠ [] := by
    rintro rfl
    cases hbest
  obtain ⟨m, hm, mem, -⟩ := maxSortable_spec nonempty
  obtain rfl := some.inj (hbest.symm.trans hm)
  have mem : best.hash ∈ parents := hashes ▸ mem_map_of_mem mem
  exact ⟨mem, stored _ mem⟩

theorem sortBlocks_perm {bs sorted : List Hash} (h : M.sortBlocks bs = some sorted) :
    sorted.Perm bs ∧ ∀ x ∈ bs, (M.getData x).isSome := by
  obtain ⟨ks, hks, h⟩ := bind_eq_some_iff.mp h
  cases h
  obtain ⟨hashes, stored⟩ := mapM_sortable hks
  refine ⟨?_, stored⟩
  rw [← hashes]
  exact (perm_insertionSort _ ks).map _

/-- Everything that is merged is in the stores. -/
theorem mergeset_stored (h : M.ghostdag parents = some data) {x : Hash}
    (hx : x ∈ data.mergesetBlues ++ data.mergesetReds) :
    (M.getData x).isSome := by
  cases selected : M.findSelectedParent parents with
  | none =>
    unfold ghostdag at h
    rw [selected] at h
    cases h
  | some sp =>
    have stored := (findSelectedParent_mem selected).2
    by_cases origin : sp = ORIGIN
    · subst origin
      rw [ghostdag_eq_origin selected] at h
      cases h
      obtain rfl := mem_singleton.mp hx
      exact stored
    · rw [ghostdag_eq_coloured selected origin] at h
      obtain ⟨coloured, hcoloured, h⟩ := bind_eq_some_iff.mp h
      obtain ⟨-, -, mergeset, hmergeset, perm⟩ := coloured_perm hcoloured
      obtain ⟨parent, ws, -, -, rfl⟩ := finalizeScoreAndWork_eq h
      rcases mem_cons.mp (perm.mem_iff.mp hx) with rfl | merged
      · exact stored
      · obtain ⟨unordered, -, hmergeset⟩ := bind_eq_some_iff.mp hmergeset
        obtain ⟨permuted, stored⟩ := sortBlocks_perm hmergeset
        exact stored x (permuted.mem_iff.mp merged)

end GhostdagManager

end Firecash
