import Firecash.Ghostdag.Total
import Mathlib.Algebra.Order.BigOperators.Group.Finset

/-!
# Growing a DAG by `ghostdag`

`GhostdagGrowth` is the DAGs that repeated calls of `ghostdag` build above a base block: a new block over
known parents, none in the past of another, stored with the data that the manager computes for it.
`Coloured` is an invariant of this growth, as long as every header has positive work and the work of all
of them fits in the 192 bits of `BlueWorkType`: only then does blue work grow along the edges, and the
order in which `sort_blocks` puts the mergeset is topological.
-/

namespace Firecash

open Cluster List Option Dag

/-- What a call of `ghostdag` is given: a manager over the DAG, and parents among its blocks. -/
structure Extends (k : Nat) (levelWork : BlueWork) (M : GhostdagManager) (D : Dag) (parents : List Hash) : Prop where
  serves : Serves M D
  size : M.k = k
  level : M.levelWork = levelWork
  nonempty : parents ≠ []
  known : ∀ p ∈ parents, D.Known p
  antichain : ∀ p ∈ parents, ∀ q ∈ parents, p ∉ D.past q

/-- The DAGs grown above a base block without score or work. -/
inductive GhostdagGrowth (k : Nat) (levelWork : BlueWork) : Dag → Prop
  | base (b : DagEntry) (score : b.data.blueScore = 0) (work : b.data.blueWork = 0) : GhostdagGrowth k levelWork ⟨b, []⟩
  | insert {D : Dag} (e : DagEntry) (M : GhostdagManager) (grown : GhostdagGrowth k levelWork D)
    (call : Extends k levelWork M D e.parents)
      (new : ¬ D.Known e.hash) (result : M.ghostdag e.parents = some e.data) : GhostdagGrowth k levelWork (D.insert e)

variable {M : GhostdagManager} {D : Dag} {levelWork : BlueWork} {k : Nat}

/-! ## The work of a set of blocks -/

theorem toNat_bitVecSum {n : Nat} (ws : List (BitVec n)) : ws.sum.toNat = (ws.map BitVec.toNat).sum % 2 ^ n := by
  induction ws with
  | nil => rfl
  | cons w ws ih => rw [sum_cons, BitVec.toNat_add, ih, map_cons, sum_cons, Nat.add_mod_mod]

namespace Dag

section

variable (weighed : D.Weighed levelWork) (ordered : D.Ordered)
include weighed ordered

theorem Weighed.sum_lt {S : Finset Hash} (known : ∀ x ∈ S, D.Known x) :
    ∑ x ∈ S, D.weight levelWork x < 2 ^ 192 := by
  have sub : S ⊆ (D.entries.map DagEntry.hash).toFinset := fun x hx => by
    obtain ⟨e, he, same⟩ := known_iff.mp (known x hx)
    exact mem_toFinset.mpr (mem_map.mpr ⟨e, he, same⟩)
  have all : ∑ x ∈ (D.entries.map DagEntry.hash).toFinset, D.weight levelWork x =
      (D.entries.map fun e => weightOf levelWork e.bits).sum := by
    rw [sum_toFinset _ ordered.nodup, List.map_map]
    congr 1
    exact map_congr_left fun e he => ordered.weight_eq levelWork he
  calc ∑ x ∈ S, D.weight levelWork x
      ≤ ∑ x ∈ (D.entries.map DagEntry.hash).toFinset, D.weight levelWork x := Finset.sum_le_sum_of_subset sub
    _ = (D.entries.map fun e => weightOf levelWork e.bits).sum := all
    _ < 2 ^ 192 := weighed.total

theorem Weighed.weight_pos {x : Hash} (hx : D.Known x) :
    0 < D.weight levelWork x := by
  obtain ⟨e, he, rfl⟩ := known_iff.mp hx
  rw [ordered.weight_eq levelWork he]
  exact weighed.pos e he

end

end Dag

section

variable (S : Serves M D) (level : M.levelWork = levelWork) (weighed : D.Weighed levelWork) (ordered : D.Ordered)
include S level weighed ordered

theorem Serves.workOf {x : Hash}
    (hx : D.Known x) : ∃ w, M.workOf x = some w ∧ w.toNat = D.weight levelWork x := by
  obtain ⟨e, he, rfl⟩ := known_iff.mp hx
  obtain ⟨w, hw⟩ := weighed.work e he
  refine ⟨if w < M.levelWork then M.levelWork else w, ?_, ?_⟩
  · unfold GhostdagManager.workOf
    rw [S.bits e he]
    show (calcWork e.bits).bind _ = _
    rw [hw]
    rfl
  · rw [ordered.weight_eq levelWork he, level]
    unfold weightOf
    rw [hw]
    rfl

theorem Serves.sum_workOf {xs : List Hash} (known : ∀ x ∈ xs, D.Known x) :
    ∃ ws, xs.mapM M.workOf = some ws ∧ (ws.map BitVec.toNat).sum = (xs.map (D.weight levelWork)).sum := by
  induction xs with
  | nil => exact ⟨[], rfl, rfl⟩
  | cons x xs ih =>
    obtain ⟨first, later⟩ := forall_mem_cons.mp known
    obtain ⟨w, hw, weight⟩ := S.workOf level weighed ordered first
    obtain ⟨ws, hws, weights⟩ := ih later
    refine ⟨w :: ws, ?_, ?_⟩
    · rw [mapM_cons, hw, hws]
      rfl
    · rw [map_cons, sum_cons, map_cons, sum_cons, weight, weights]

end

/-! ## A call -/

section Call

variable {parents : List Hash} {sp : Hash} {mergeset : List Hash} {data : StoredGhostdagData}

/-- The mergeset of a call: the selected parent, and the rest of the past of the new block that is not below it. -/
structure MergesetOf (M : GhostdagManager) (D : Dag) (parents : List Hash) (sp : Hash) (mergeset : List Hash) :
    Prop where
  parent : sp ∈ parents
  selected : M.findSelectedParent parents = some sp
  highest : ∀ p ∈ parents, D.work p ≤ D.work sp
  ordered : M.orderedMergesetWithoutSelectedParent sp parents = some mergeset
  merges : Merges D sp mergeset
  mem : ∀ x, x ∈ mergeset ↔ (∃ p ∈ parents, x = p ∨ x ∈ D.past p) ∧ x ≠ sp ∧ x ∉ D.past sp

section

variable (inv : Coloured levelWork k D) (call : Extends k levelWork M D parents)
include inv call

theorem Extends.exists_mergeset :
    ∃ sp mergeset, MergesetOf M D parents sp mergeset := by
  have S := call.serves
  obtain ⟨sp, hsp, selected, highest⟩ := S.findSelectedParent call.nonempty call.known
  obtain ⟨r, hr, nodup, mem⟩ := S.mergeset_spec inv.ordered hsp call.known fun p hp => call.antichain p hp sp hsp
  have known : ∀ x ∈ r, D.Known x := by
    intro x hx
    obtain ⟨⟨p, hp, rfl | below⟩, -, -⟩ := (mem x).mp hx
    · exact call.known x hp
    · exact GrowingDag.Grown.known_of_mem_past inv.ordered below
  obtain ⟨sorted, hsorted, perm, topological⟩ := S.ordered_spec inv.increasing known
  have mem' : ∀ x, x ∈ sorted ↔ (∃ p ∈ parents, x = p ∨ x ∈ D.past p) ∧ x ≠ sp ∧ x ∉ D.past sp :=
    fun x => perm.mem_iff.trans (mem x)
  refine ⟨sp, sorted, hsp, selected, highest, ?_, ⟨?_, ?_, ?_, topological⟩, mem'⟩
  · unfold GhostdagManager.orderedMergesetWithoutSelectedParent
    rw [hr]
    exact hsorted
  · exact fun x hx => known x (perm.mem_iff.mp hx)
  · exact nodup_cons.mpr ⟨fun h => ((mem' sp).mp h).2.1 rfl, perm.nodup_iff.mpr nodup⟩
  · exact fun x hx => ((mem' x).mp hx).2.2

/-- The colouring of a call, up to any point of the mergeset. -/
theorem Extends.colouring {start : StoredGhostdagData} {done rest : List Hash}
    (merge : MergesetOf M D parents sp (done ++ rest))
    (hstart : StoredGhostdagData.newWithSelectedParent sp k = some start) :
    ∃ data, done.foldlM M.colour start = some data ∧ Context k D sp done data := by
  have known := call.known sp merge.parent
  have ctx := Context.start inv known hstart
  exact ctx.foldlM_colour call.serves inv call.size known (nil_append done ▸ merge.merges.left)

/-- What `ghostdag` returns: the coloured mergeset, with a score and a work. -/
theorem Extends.ghostdag_eq (h : M.ghostdag parents = some data) :
    ∃ sp mergeset coloured, MergesetOf M D parents sp mergeset ∧ Context k D sp mergeset coloured ∧
      M.finalizeScoreAndWork coloured = some data := by
  obtain ⟨sp, mergeset, merge⟩ := call.exists_mergeset inv
  have notOrigin : sp ≠ ORIGIN := by
    obtain ⟨e, he, rfl⟩ := known_iff.mp (call.known sp merge.parent)
    exact call.serves.origin e he
  unfold GhostdagManager.ghostdag at h
  rw [merge.selected] at h
  replace h : (if sp = ORIGIN then _ else _ : Option StoredGhostdagData) = some data := h
  rw [if_neg notOrigin, call.size] at h
  obtain ⟨start, hstart, h⟩ := bind_eq_some_iff.mp h
  rw [merge.ordered] at h
  have whole : MergesetOf M D parents sp (mergeset ++ []) := by rwa [append_nil]
  obtain ⟨coloured, hcoloured, ctx⟩ := call.colouring inv whole hstart
  replace h : (mergeset.foldlM M.colour start).bind M.finalizeScoreAndWork = some data := h
  rw [hcoloured] at h
  exact ⟨sp, mergeset, coloured, merge, ctx, h⟩

end

section

variable (inv : Coloured levelWork k D)
include inv

/-- A sum over the blue set is one over the new blues and one over those of the selected parent. -/
theorem Context.sum_blueSet (merges : Merges D sp mergeset) (ctx : Context k D sp mergeset data)
    (f : Hash → Nat) : ∑ x ∈ data.blueSet D, f x = (data.mergesetBlues.map f).sum + ∑ x ∈ D.blues sp, f x := by
  have blues : data.blueSet D = (data.blueList D).toFinset := by
    ext x
    rw [StoredGhostdagData.mem_blueSet, List.mem_toFinset]
  rw [blues, sum_toFinset _ (ctx.nodup_blueList inv merges)]
  unfold StoredGhostdagData.blueList Dag.blues
  rw [map_append, sum_append, ctx.selected, sum_toFinset _ (inv.nodup sp)]

theorem Context.known_of_blue (hsp : D.Known sp) (merges : Merges D sp mergeset)
    (ctx : Context k D sp mergeset data) {x : Hash} (hx : x ∈ data.blueSet D) : D.Known x := by
  rcases Finset.mem_union.mp hx with own | older
  · rcases ctx.mem_merged (mem_toFinset.mp own) with rfl | merged
    · exact hsp
    · exact merges.known x merged
  · exact inv.known_of_blue older

/-- **What a call returns.** The colours of the mergeset, the number of blues and their work. -/
theorem Extends.ghostdag_spec (weighed : D.Weighed levelWork) (call : Extends k levelWork M D parents)
    (h : M.ghostdag parents = some data) :
    ∃ sp mergeset, MergesetOf M D parents sp mergeset ∧ Context k D sp mergeset data ∧
      data.blueScore = (data.blueSet D).card ∧ data.blueWork.toNat = ∑ x ∈ data.blueSet D, D.weight levelWork x := by
  obtain ⟨sp, mergeset, coloured, merge, ctx, hdata⟩ := call.ghostdag_eq inv h
  obtain ⟨parent, ws, hparent, hws, rfl⟩ := GhostdagManager.finalizeScoreAndWork_eq hdata
  have hsp := call.known sp merge.parent
  obtain ⟨f, hf, rfl⟩ := known_iff.mp hsp
  rw [ctx.selected, call.serves.data f hf] at hparent
  cases hparent
  have total := ctx.sum_blueSet inv merge.merges
  refine ⟨f.hash, mergeset, merge, ⟨ctx.selected, ctx.head, ctx.perm, ctx.exact, ctx.cluster⟩, ?_, ?_⟩
  · have count := total fun _ => 1
    rw [← Finset.card_eq_sum_ones, ← Finset.card_eq_sum_ones, map_const', sum_replicate_nat, Nat.mul_one] at count
    show f.data.blueScore + coloured.mergesetBlues.length = (coloured.blueSet D).card
    rw [inv.score f hf, count, Nat.add_comm]
  · obtain ⟨ws', hws', weights⟩ := call.serves.sum_workOf call.level weighed inv.ordered fun x hx =>
      ctx.known_of_blue inv hsp merge.merges (StoredGhostdagData.mem_blueSet.mpr (mem_append_left _ hx))
    obtain rfl := some.inj (hws.symm.trans hws')
    show (f.data.blueWork + ws.sum).toNat = ∑ x ∈ coloured.blueSet D, D.weight levelWork x
    have fits := weighed.sum_lt inv.ordered fun x hx => ctx.known_of_blue inv hsp merge.merges hx
    rw [total] at fits ⊢
    rw [BitVec.toNat_add, toNat_bitVecSum, weights, inv.work f hf, Nat.add_mod_mod, Nat.add_comm, Nat.mod_eq_of_lt fits]

end

end Call

/-! ## The invariant -/

section Insert

variable {e : DagEntry} {sp : Hash} {mergeset : List Hash}

theorem Dag.blues_insert_self : (D.insert e).blues e.hash = e.data.blueSet D := by
  ext x
  rw [mem_blues, StoredGhostdagData.mem_blueSet]
  show x ∈ bluesIn (e :: D.blocks) e.hash ↔ _
  rw [bluesIn_cons_self]
  rfl

/-- The past of the new block is its mergeset above the past of the selected parent. -/
theorem MergesetOf.mem_past (merge : MergesetOf M D e.parents sp mergeset) {x : Hash} :
    x ∈ (D.insert e).past e.hash ↔ x ∈ sp :: mergeset ∨ x ∈ D.past sp := by
  rw [mem_past_insert_self, mem_cons, merge.mem]
  constructor
  · intro h
    by_cases here : x = sp
    · exact .inl (.inl here)
    · by_cases below : x ∈ D.past sp
      · exact .inr below
      · exact .inl (.inr ⟨h, here, below⟩)
  · rintro ((rfl | ⟨h, -, -⟩) | below)
    · exact ⟨x, merge.parent, .inl rfl⟩
    · exact h
    · exact ⟨sp, merge.parent, .inr below⟩

theorem Dag.work_insert_self (e : DagEntry) : (D.insert e).work e.hash = e.data.blueWork.toNat := by
  have found : (D.insert e).lookup e.hash = some e := find?_cons_of_pos (decide_eq_true rfl)
  unfold work sortable
  rw [found]
  rfl

/-- The new block has more work than its selected parent, which is one of its blues. -/
theorem Context.work_lt (inv : Coloured levelWork k D) (weighed : D.Weighed levelWork) (hsp : D.Known sp)
    (merges : Merges D sp mergeset)
    (ctx : Context k D sp mergeset e.data)
    (work : e.data.blueWork.toNat = ∑ x ∈ e.data.blueSet D, D.weight levelWork x) :
    D.work sp < e.data.blueWork.toNat := by
  obtain ⟨f, hf, rfl⟩ := known_iff.mp hsp
  rw [work, ctx.sum_blueSet inv merges, inv.ordered.work_eq hf, inv.work f hf]
  have first : f.hash ∈ e.data.mergesetBlues := mem_of_mem_head? ctx.head
  have counted := single_le_sum (fun _ _ => Nat.zero_le _) _ (List.mem_map_of_mem (f := D.weight levelWork) first)
  have pos := weighed.weight_pos inv.ordered hsp
  omega

/-- **The invariant is kept.** -/
theorem Coloured.insert (inv : Coloured levelWork k D) (weighed : (D.insert e).Weighed levelWork)
    (call : Extends k levelWork M D e.parents)
    (new : ¬ D.Known e.hash) (result : M.ghostdag e.parents = some e.data) : Coloured levelWork k (D.insert e) := by
  obtain ⟨sp, mergeset, merge, ctx, score, work⟩ := call.ghostdag_spec inv weighed.of_insert result
  have hsp := call.known sp merge.parent
  have older : ∀ x, D.Known x → x ≠ e.hash := by
    rintro x hx rfl
    exact new hx
  have known : ∀ h, ∀ x ∈ (D.insert e).blues h, D.Known x := by
    intro h x hx
    by_cases here : h = e.hash
    · subst here
      rw [blues_insert_self] at hx
      exact ctx.known_of_blue inv hsp merge.merges hx
    · rw [blues_insert here] at hx
      exact inv.known_of_blue hx
  refine ⟨⟨new, call.nonempty, call.known, inv.ordered⟩, ?_, ?_, ?_, ?_, ?_, ?_, ?_, ?_, ?_, ?_, ?_⟩
  · exact forall_mem_cons.mpr ⟨ctx.selected ▸ merge.parent, inv.selected⟩
  · intro h
    show (bluesIn (e :: D.blocks) h).Nodup
    by_cases here : h = e.hash
    · subst here
      rw [bluesIn_cons_self]
      exact ctx.nodup_blueList inv merge.merges
    · rw [bluesIn_cons_of_ne here]
      exact inv.nodup h
  · intro h x hx
    by_cases here : h = e.hash
    · subst here
      rw [blues_insert_self] at hx
      rw [merge.mem_past]
      rcases Finset.mem_union.mp hx with own | inherited
      · exact .inl (mem_cons.mpr (ctx.mem_merged (mem_toFinset.mp own)))
      · exact .inr (inv.below sp x (ctx.selected ▸ inherited))
    · rw [blues_insert here] at hx
      rw [past_insert here]
      exact inv.below h x hx
  · intro h x hx
    rw [conflicts_insert new (known h) (known h x hx)]
    show sizeIn (e :: D.blocks) h x = _
    by_cases here : h = e.hash
    · subst here
      rw [blues_insert_self] at hx ⊢
      rw [sizeIn_cons_self, ctx.selected, ctx.exact x hx]
    · rw [blues_insert here] at hx ⊢
      rw [sizeIn_cons_of_ne here, inv.exact h x hx]
  · intro h x hx
    rw [conflicts_insert new (known h) (known h x hx)]
    by_cases here : h = e.hash
    · subst here
      rw [blues_insert_self] at hx ⊢
      exact ctx.cluster x hx
    · rw [blues_insert here] at hx ⊢
      exact inv.cluster h x hx
  · refine forall_mem_cons.mpr ⟨?_, fun f hf => ?_⟩
    · rw [blues_insert_self, score]
    · rw [blues_insert (older _ (.of_mem hf))]
      exact inv.score f hf
  · refine forall_mem_cons.mpr ⟨?_, fun f hf => ?_⟩
    · rw [work, ← blues_insert_self]
      exact Finset.sum_congr rfl fun x hx => (weight_insert (older x (known _ x hx))).symm
    · rw [inv.work f hf, ← blues_insert (older _ (.of_mem hf))]
      exact Finset.sum_congr rfl fun x hx => (weight_insert (older x (known _ x hx))).symm
  · intro a b hab
    by_cases here : b = e.hash
    · subst here
      rw [work_insert_self]
      obtain ⟨p, hp, below⟩ := mem_past_insert_self.mp hab
      have lt := ctx.work_lt inv weighed.of_insert hsp merge.merges work
      have le := merge.highest p hp
      rcases below with rfl | below
      · rw [work_insert (older a (call.known a hp))]
        omega
      · rw [work_insert (older a (GrowingDag.Grown.known_of_mem_past inv.ordered below))]
        have := inv.increasing a p below
        omega
    · rw [past_insert here] at hab
      rw [work_insert here, work_insert (older a (GrowingDag.Grown.known_of_mem_past inv.ordered hab))]
      exact inv.increasing a b hab
  · exact forall_mem_cons.mpr ⟨ctx.selected ▸ ctx.head, inv.head⟩
  · exact forall_mem_cons.mpr ⟨ctx.perm.nodup_iff.mpr merge.merges.nodup, inv.disjoint⟩
  · refine forall_mem_cons.mpr ⟨fun x => ?_, fun f hf x => ?_⟩
    · rw [ctx.perm.mem_iff, merge.mem_past, ctx.selected, past_insert (older sp hsp)]
      constructor
      · intro merged
        refine ⟨.inl merged, ?_⟩
        rcases mem_cons.mp merged with rfl | merged
        · exact GrowingDag.Grown.notMem_past_self inv.ordered x
        · exact merge.merges.above x merged
      · rintro ⟨merged | below, above⟩
        · exact merged
        · exact absurd below above
    · have hf' : f ∈ D.entries := mem_append_left _ hf
      rw [past_insert (older _ (.of_mem hf')), past_insert (older _ ?_)]
      · exact inv.mergeset f hf x
      · exact GrowingDag.Grown.known_parent inv.ordered (mem_map_of_mem hf) (inv.selected f hf)

end Insert

theorem GhostdagGrowth.coloured (grown : GhostdagGrowth k levelWork D) (weighed : D.Weighed levelWork) :
    Coloured levelWork k D := by
  induction grown with
  | base b score work =>
    refine ⟨trivial, ?_, ?_, ?_, ?_, ?_, ?_, ?_, ?_, ?_, ?_, ?_⟩
    -- above the base there are no blocks, and no blues
    case refine_6 => exact forall_mem_singleton.mpr score
    case refine_7 => exact forall_mem_singleton.mpr (congrArg BitVec.toNat work)
    all_goals simp [blues, bluesIn, past, historyOf, GrowingDag.past, Dag.Increasing, IsCluster]
  | insert e M _ call new result ih => exact (ih weighed.of_insert).insert weighed call new result

/-! ## The data of any stored block -/

section Stored

variable {e f : DagEntry} {es : List DagEntry} {root x : Hash}

/-- An older block and its selected parent are not the newest block. -/
theorem Dag.older (grown : GrowingDag.Grown root (historyOf (f :: es))) (he : e ∈ es)
    (selected : e.data.selectedParent ∈ e.parents) :
    e.hash ≠ f.hash ∧ e.data.selectedParent ≠ f.hash := by
  have here : (e.hash, e.parents) ∈ historyOf es := mem_map_of_mem he
  constructor
  · intro same
    exact grown.1 (same ▸ .inr (mem_map_of_mem here))
  · intro same
    exact grown.1 (same ▸ GrowingDag.Grown.known_parent grown.2.2.2 here selected)

/-- A function that walks the selected chain steps from every block to its selected parent. -/
theorem Dag.chain_eq {β : Type} {F : List DagEntry → Hash → β} {G : DagEntry → β → β}
    (self : ∀ f fs, F (f :: fs) f.hash = G f (F fs f.data.selectedParent))
    (other : ∀ f fs h, h ≠ f.hash → F (f :: fs) h = F fs h)
    (grown : GrowingDag.Grown root (historyOf es)) (selected : ∀ e ∈ es, e.data.selectedParent ∈ e.parents)
    (he : e ∈ es) :
    F es e.hash = G e (F es e.data.selectedParent) := by
  induction es with
  | nil => cases he
  | cons f es ih =>
    obtain ⟨first, later⟩ := forall_mem_cons.mp selected
    rcases mem_cons.mp he with rfl | he
    · have below : e.data.selectedParent ≠ e.hash := fun same => grown.1 (same ▸ grown.2.2.1 _ first)
      rw [self, other _ _ _ below]
    · obtain ⟨notNewest, below⟩ := older grown he (later e he)
      rw [other _ _ _ notNewest, other _ _ _ below]
      exact ih grown.2.2.2 later he

section

variable (inv : Coloured levelWork k D)
include inv

theorem Coloured.bluesIn_eq (he : e ∈ D.blocks) :
    bluesIn D.blocks e.hash = e.data.mergesetBlues ++ bluesIn D.blocks e.data.selectedParent :=
  chain_eq (fun _ _ => bluesIn_cons_self _)
    (fun _ _ _ => bluesIn_cons_of_ne) inv.ordered inv.selected he

theorem Coloured.sizeIn_eq (he : e ∈ D.blocks) (x : Hash) :
    sizeIn D.blocks e.hash x = (e.data.bluesAnticoneSizes x).or (sizeIn D.blocks e.data.selectedParent x) :=
  chain_eq (F := fun es h => sizeIn es h x) (G := fun e size => (e.data.bluesAnticoneSizes x).or size)
    (fun _ _ => sizeIn_cons_self _) (fun _ _ _ => sizeIn_cons_of_ne) inv.ordered inv.selected he

/-- The recorded sizes, looked up from a stored block. -/
theorem Coloured.blueAnticoneSize (S : Serves M D) (he : e ∈ D.blocks) (hx : x ∈ D.blues e.hash) :
    M.blueAnticoneSize x e.data = some (conflicts D.Anti (D.blues e.hash) x) := by
  refine S.blueAnticoneSizeFrom (fun _ h => h) inv.ordered inv.selected S.size.le ?_
  rw [← inv.sizeIn_eq he, inv.exact e.hash x hx]

end

end Stored

/-! ## Stores that hold a DAG -/

namespace Dag

/-- The manager whose stores and oracle are read off the DAG. -/
def manager (k : Nat) (levelWork : BlueWork) (D : Dag) : GhostdagManager where
  genesisHash := D.base.hash
  k := k
  getData h := (D.lookup h).map DagEntry.data
  getParents h := (D.lookup h).map DagEntry.parents
  getBits h := (D.lookup h).map DagEntry.bits
  isDagAncestorOf a b := decide (a = b ∨ a ∈ D.past b)
  levelWork := levelWork
  size := D.blocks.length + 1

theorem Ordered.serves (ordered : D.Ordered) (origin : ∀ e ∈ D.entries, e.hash ≠ ORIGIN) :
    Serves (D.manager k levelWork) D where
  data e he := by
    show (D.lookup e.hash).map _ = _
    rw [ordered.lookup he]
    rfl
  parents e he := by
    show (D.lookup e.hash).map _ = _
    rw [ordered.lookup (mem_append_left _ he)]
    rfl
  bits e he := by
    show (D.lookup e.hash).map _ = _
    rw [ordered.lookup he]
    rfl
  reach a b _ _ := decide_eq_true_iff
  size := Nat.lt_succ_self _
  genesis e he same := by
    have added : e.hash ∈ (historyOf D.blocks).map Prod.fst := mem_map_of_mem (mem_map_of_mem he)
    rw [show e.hash = D.base.hash from same] at added
    exact (nodup_cons.mp (GrowingDag.Grown.nodup ordered)).1 added
  origin := origin

/-- The new block may be added over these parents. -/
def Accepts (D : Dag) (hash : Hash) (parents : List Hash) : Prop :=
  (∀ e ∈ D.entries, e.hash ≠ ORIGIN) ∧ ¬ D.Known hash ∧ parents ≠ [] ∧ (∀ p ∈ parents, D.Known p) ∧
    ∀ p ∈ parents, ∀ q ∈ parents, p ∉ D.past q

instance (D : Dag) (hash : Hash) (parents : List Hash) : Decidable (D.Accepts hash parents) :=
  -- over the lists: the instance for bit vectors would try all of them
  haveI : Decidable (∀ p ∈ parents, D.Known p) := decidableBAll _ _
  haveI : ∀ p, Decidable (∀ q ∈ parents, p ∉ D.past q) := fun _ => decidableBAll _ _
  haveI : Decidable (∀ p ∈ parents, ∀ q ∈ parents, p ∉ D.past q) := decidableBAll _ _
  inferInstanceAs (Decidable (_ ∧ _ ∧ _ ∧ _ ∧ _))

end Dag

theorem GhostdagGrowth.ordered (grown : GhostdagGrowth k levelWork D) : D.Ordered := by
  induction grown with
  | base => trivial
  | insert e M _ call new _ ih => exact ⟨new, call.nonempty, call.known, ih⟩

variable {e : DagEntry}

theorem GhostdagGrowth.accept (grown : GhostdagGrowth k levelWork D) (accepts : D.Accepts e.hash e.parents)
    (result : (D.manager k levelWork).ghostdag e.parents = some e.data) : GhostdagGrowth k levelWork (D.insert e) := by
  obtain ⟨origin, new, nonempty, known, antichain⟩ := accepts
  exact grown.insert e _ ⟨grown.ordered.serves origin, rfl, rfl, nonempty, known, antichain⟩ new result

/-! ## The colouring of a grown DAG -/

/-- The data of a block is a colouring of its mergeset, and its blues are a `k`-cluster. -/
structure ColoursBlock (k : Nat) (D : Dag) (e : DagEntry) : Prop where
  parent : e.data.selectedParent ∈ e.parents
  disjoint : e.data.mergesetBlues.Disjoint e.data.mergesetReds
  mergeset : ∀ x, x ∈ e.data.mergesetBlues ∨ x ∈ e.data.mergesetReds ↔ x ∈ D.past e.hash ∧
    x ∉ D.past e.data.selectedParent
  first : e.data.mergesetBlues.head? = some e.data.selectedParent
  blues : D.blues e.hash = D.blues e.data.selectedParent ∪ e.data.mergesetBlues.toFinset
  cluster : IsCluster D.Anti k (D.blues e.hash)
  score : e.data.blueScore = (D.blues e.hash).card

theorem Coloured.coloursBlock (inv : Coloured levelWork k D) (he : e ∈ D.blocks) : ColoursBlock k D e where
  parent := inv.selected e he
  disjoint := disjoint_of_nodup_append (inv.disjoint e he)
  mergeset x := by rw [← mem_append, inv.mergeset e he x]
  first := inv.head e he
  blues := by
    unfold blues
    rw [inv.bluesIn_eq he, toFinset_append, Finset.union_comm]
  cluster := inv.cluster e.hash
  score := inv.score e (mem_append_left _ he)

/-- **The colouring invariant.** Every stored block is coloured; a call over any parents colours its whole
mergeset, and the sizes that are looked up on the way, or later from a stored block, are the numbers of
blues in the anticone. -/
theorem grown_coloured (grown : GhostdagGrowth k levelWork D) (weighed : D.Weighed levelWork) :
    (∀ e ∈ D.blocks, ColoursBlock k D e ∧
      ∀ M, Serves M D → ∀ x ∈ D.blues e.hash, M.blueAnticoneSize x e.data =
        some (conflicts D.Anti (D.blues e.hash) x)) ∧
    ∀ M parents, Extends k levelWork M D parents →
      ∃ sp mergeset, M.findSelectedParent parents = some sp ∧ M.orderedMergesetWithoutSelectedParent sp parents =
        some mergeset ∧
        ∀ start, StoredGhostdagData.newWithSelectedParent sp k = some start → ∀ done rest, mergeset = done ++ rest →
          ∃ data, done.foldlM M.colour start = some data ∧
            ∀ x ∈ data.blueSet D, M.blueAnticoneSize x data = some (conflicts D.Anti (data.blueSet D) x) := by
  have inv := grown.coloured weighed
  refine ⟨fun e he => ⟨inv.coloursBlock he, fun M S x hx => inv.blueAnticoneSize S he hx⟩, fun M parents call => ?_⟩
  obtain ⟨sp, mergeset, merge⟩ := call.exists_mergeset inv
  refine ⟨sp, mergeset, merge.selected, merge.ordered, ?_⟩
  rintro start hstart done rest rfl
  obtain ⟨data, hdata, ctx⟩ := call.colouring inv merge hstart
  exact ⟨data, hdata, fun x hx => ctx.blueAnticoneSize call.serves inv hx⟩

/-- Two blocks over genesis, a third one over both of them. -/
def diamond : Dag where
  base := ⟨1, [], 0x207fffff, genesisGhostdagData⟩
  blocks := [
    ⟨4, [2, 3], 0x207fffff, ⟨3, 6, 3, [3, 2], [],
      Function.update (Function.update (Function.update (fun _ => none) 3 (some 0)) 2 (some 1)) 3 (some 1)⟩⟩,
    ⟨3, [1], 0x207fffff, ⟨1, 2, 1, [1], [], Function.update (fun _ => none) 1 (some 0)⟩⟩,
    ⟨2, [1], 0x207fffff, ⟨1, 2, 1, [1], [], Function.update (fun _ => none) 1 (some 0)⟩⟩]

theorem diamond_grown : GhostdagGrowth 1 0 diamond :=
  (((GhostdagGrowth.base _ rfl rfl).accept (by decide +kernel) rfl).accept (by decide +kernel) rfl).accept
    (by decide +kernel) rfl

theorem diamond_weighed : diamond.Weighed 0 where
  work e he := isSome_iff_exists.mp ((by decide +kernel : ∀ e ∈ diamond.entries, (calcWork e.bits).isSome) e he)
  pos := by decide +kernel
  total := by decide +kernel

/-- All of its blocks are blue. -/
theorem diamond_coloured : diamond.blues 4 = {3, 2, 1} ∧ ∀ e ∈ diamond.blocks, ColoursBlock 1 diamond e :=
  ⟨by decide +kernel, fun e he => ((grown_coloured diamond_grown diamond_weighed).1 e he).1⟩

/-- **Growth is never stuck.** A call of `ghostdag` over any antichain of known parents returns, and a new
block may be stored with its result. -/
theorem ghostdag_returns (grown : GhostdagGrowth k levelWork D) (weighed : D.Weighed levelWork) (fits : k + 1 < 65536)
    (few : D.blocks.length + 1 < 2 ^ 64) {parents : List Hash} (call : Extends k levelWork M D parents) :
    ∃ data, M.ghostdag parents = some data ∧ ∀ hash bits, ¬ D.Known hash →
      GhostdagGrowth k levelWork (D.insert ⟨hash, parents, bits, data⟩) := by
  have inv := grown.coloured weighed
  obtain ⟨sp, mergeset, merge⟩ := call.exists_mergeset inv
  have hsp := call.known sp merge.parent
  have whole : MergesetOf M D parents sp (mergeset ++ []) := by rwa [append_nil]
  obtain ⟨coloured, hcoloured, ctx⟩ := call.colouring inv whole (if_pos fits)
  have known : ∀ x ∈ coloured.blueList D, D.Known x := fun x hx =>
    ctx.known_of_blue inv hsp merge.merges (StoredGhostdagData.mem_blueSet.mpr hx)
  obtain ⟨f, hf, rfl⟩ := known_iff.mp hsp
  -- the blues are different blocks, so their number is a `u64` as the number of blocks is
  have score : f.data.blueScore + coloured.mergesetBlues.length < 2 ^ 64 := by
    have sub : coloured.blueList D ⊆ D.entries.map DagEntry.hash := fun x hx => mem_map.mpr (known_iff.mp (known x hx))
    have length := (subperm_of_subset (ctx.nodup_blueList inv merge.merges) sub).length_le
    have parent : f.data.blueScore ≤ (bluesIn D.blocks f.hash).length := inv.score f hf ▸ toFinset_card_le _
    simp [StoredGhostdagData.blueList, entries, ctx.selected] at length
    omega
  have works : ∀ x ∈ coloured.mergesetBlues, (M.workOf x).isSome := fun x hx => by
    obtain ⟨w, hw, -⟩ := call.serves.workOf call.level weighed inv.ordered (known x (mem_append_left _ hx))
    rw [hw]
    rfl
  have stored := call.serves.data f hf
  rw [← ctx.selected] at stored
  obtain ⟨data, hdata⟩ :=
    isSome_iff_exists.mp ((GhostdagManager.finalizeScoreAndWork_isSome_iff stored score).mpr works)
  have returned : M.ghostdag parents = some data := by
    rw [GhostdagManager.ghostdag_eq_coloured merge.selected (call.serves.origin f hf), GhostdagManager.coloured,
      merge.ordered, call.size, StoredGhostdagData.newWithSelectedParent, if_pos fits, ← hdata]
    exact congrArg (·.bind M.finalizeScoreAndWork) hcoloured
  exact ⟨data, returned, fun hash bits new => grown.insert ⟨hash, parents, bits, data⟩ M call new returned⟩

/-- A second block over 2 and 3: block 2 is merged and coloured, and the block can be stored. -/
theorem ghostdag_returns_diamond : ∃ data, (diamond.manager 1 0).ghostdag [2, 3] = some data ∧
    data.mergesetBlues = [3, 2] ∧
    GhostdagGrowth 1 0 (diamond.insert ⟨5, [2, 3], 0x207fffff, data⟩) := by
  obtain ⟨origin, fresh, nonempty, known, antichain⟩ : diamond.Accepts 5 [2, 3] := by decide +kernel
  have call : Extends 1 0 (diamond.manager 1 0) diamond [2, 3] :=
    ⟨diamond_grown.ordered.serves origin, rfl, rfl, nonempty, known, antichain⟩
  have blues : ((diamond.manager 1 0).ghostdag [2, 3]).map (·.mergesetBlues) = some [3, 2] := by decide +kernel
  obtain ⟨data, returned, stored⟩ := ghostdag_returns diamond_grown diamond_weighed (by decide) (by decide +kernel) call
  rw [returned] at blues
  exact ⟨data, returned, some.inj blues, stored 5 0x207fffff fresh⟩

/-- Headers without work: the target of these is 0, and its `calc_work` wraps to 0. -/
def weightlessPast : Dag where
  base := ⟨1, [], 0, genesisGhostdagData⟩
  blocks := [
    ⟨3, [5], 0, ⟨2, 0, 5, [5], [], Function.update (fun _ => none) 5 (some 0)⟩⟩,
    ⟨5, [1], 0, ⟨1, 0, 1, [1], [], Function.update (fun _ => none) 1 (some 0)⟩⟩,
    ⟨9, [1], 0, ⟨1, 0, 1, [1], [], Function.update (fun _ => none) 1 (some 0)⟩⟩]

theorem weightlessPast_grown : GhostdagGrowth 3 0 weightlessPast :=
  (((GhostdagGrowth.base _ rfl rfl).accept (by decide +kernel) rfl).accept (by decide +kernel) rfl).accept
    (by decide +kernel) rfl

theorem weightless_isSome : ((weightlessPast.manager 3 0).ghostdag [9, 3]).isSome = true := by decide +kernel

/-- Block 3 is above block 5 but sorts before it in the mergeset of the new block. -/
def weightless : Dag :=
  weightlessPast.insert ⟨7, [9, 3], 0, ((weightlessPast.manager 3 0).ghostdag [9, 3]).get weightless_isSome⟩

/-- Block 3 is counted in the anticone of block 5. -/
theorem weightless_miscounted :
    GhostdagGrowth 3 0 weightless ∧ Serves (weightless.manager 3 0) weightless ∧
    ∃ e ∈ weightless.blocks, 5 ∈ weightless.blues e.hash ∧ conflicts weightless.Anti (weightless.blues e.hash) 5 = 1 ∧
      (weightless.manager 3 0).blueAnticoneSize 5 e.data = some 2 := by
  have grown : GhostdagGrowth 3 0 weightless :=
    weightlessPast_grown.accept (by decide +kernel) (some_get weightless_isSome).symm
  refine ⟨grown, grown.ordered.serves (by decide +kernel), ?_⟩
  exact ⟨_, mem_cons_self, by decide +kernel⟩

end Firecash
