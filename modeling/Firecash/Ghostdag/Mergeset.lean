import Firecash.Ghostdag.Dag
import Mathlib.Algebra.BigOperators.Group.Finset.Basic

/-!
# Selected parent and mergeset

In a DAG in which blue work grows along the edges, the selected parent has the highest blue work among the
parents, the search finds what the new block merges (`mergeset_spec`), and ascending blue work is a
topological order (`ordered_spec`).
-/

namespace Firecash

open List SortableBlock Worklist

theorem mapM_eq_some_map {α β : Type} {f : α → Option β} {g : α → β} {as : List α} (h : ∀ a ∈ as, f a = some (g a)) :
    as.mapM f = some (as.map g) := by
  induction as with
  | nil => rfl
  | cons a as ih =>
    obtain ⟨first, later⟩ := forall_mem_cons.mp h
    rw [mapM_cons, first, ih later]
    rfl

/-! ## Order -/

theorem bigEndian_lt (h : Hash) : Hash.bigEndian h < 2 ^ 256 := by
  have := ofLe_lt (BitVec.bytes (n := 32) h).reverse
  rw [length_reverse, BitVec.length_bytes] at this
  exact this

theorem SortableBlock.key_lt_of_blueWork {a b : SortableBlock} (h : a.blueWork.toNat < b.blueWork.toNat) :
    a.key < b.key := by
  have := bigEndian_lt a.hash
  unfold key
  omega

theorem SortableBlock.blueWork_le_of_key {a b : SortableBlock} (h : a.key ≤ b.key) :
    a.blueWork.toNat ≤ b.blueWork.toNat := by
  by_contra less
  have := key_lt_of_blueWork (Nat.lt_of_not_le less)
  omega

instance : Std.Total fun a b : SortableBlock => a.key ≤ b.key := ⟨fun a b => Nat.le_total a.key b.key⟩

instance : IsTrans SortableBlock fun a b => a.key ≤ b.key := ⟨fun _ _ _ => Nat.le_trans⟩

theorem maxSortable_spec {bs : List SortableBlock} (ne : bs ≠ []) :
    ∃ m, maxSortable bs = some m ∧ m ∈ bs ∧ ∀ b ∈ bs, b.key ≤ m.key := by
  induction bs with
  | nil => exact absurd rfl ne
  | cons b bs ih =>
    unfold maxSortable
    cases bs with
    | nil => exact ⟨b, rfl, mem_cons_self, fun x hx => by rw [mem_singleton.mp hx]⟩
    | cons c cs =>
      obtain ⟨m, hm, mem, max⟩ := ih (cons_ne_nil c cs)
      rw [hm]
      dsimp only
      split
      · rename_i less
        refine ⟨b, rfl, mem_cons_self, forall_mem_cons.mpr ⟨Nat.le_refl _, fun x hx => ?_⟩⟩
        have := max x hx
        omega
      · rename_i more
        exact ⟨m, rfl, mem_cons_of_mem b mem, forall_mem_cons.mpr ⟨Nat.le_of_not_lt more, max⟩⟩

namespace Dag

/-- A block with its blue work. -/
def sortable (D : Dag) (h : Hash) : SortableBlock :=
  ⟨h, (D.lookup h).elim 0 fun e => e.data.blueWork⟩

def work (D : Dag) (h : Hash) : Nat := (D.sortable h).blueWork.toNat

/-- Blue work grows along the edges. -/
def Increasing (D : Dag) : Prop := ∀ a b, a ∈ D.past b → D.work a < D.work b

variable {D : Dag} {M : GhostdagManager} {e : DagEntry} {x : Hash}

theorem exists_lookup (hx : D.Known x) : ∃ e, D.lookup x = some e ∧ e ∈ D.entries ∧ e.hash = x := by
  obtain ⟨e, he, same⟩ := known_iff.mp hx
  have found : (D.lookup x).isSome := find?_isSome.mpr ⟨e, he, decide_eq_true same⟩
  obtain ⟨f, hf⟩ := Option.isSome_iff_exists.mp found
  exact ⟨f, hf, mem_of_find?_eq_some hf,
    of_decide_eq_true (find?_some (p := fun e : DagEntry => decide (e.hash = x)) hf)⟩

theorem Ordered.nodup (ordered : D.Ordered) : (D.entries.map DagEntry.hash).Nodup := by
  have nodup := GrowingDag.Grown.nodup ordered
  unfold historyOf at nodup
  rw [map_map] at nodup
  unfold entries
  rw [map_append, map_singleton]
  exact (perm_append_singleton _ _).nodup_iff.mpr nodup

theorem Ordered.lookup (ordered : D.Ordered) (he : e ∈ D.entries) : D.lookup e.hash = some e := by
  obtain ⟨f, hf, mem, same⟩ := exists_lookup (Known.of_mem he)
  rw [hf, inj_on_of_nodup_map ordered.nodup mem he same]

theorem Ordered.work_eq (ordered : D.Ordered) (he : e ∈ D.entries) : D.work e.hash = e.data.blueWork.toNat := by
  unfold work sortable
  rw [ordered.lookup he]
  rfl

theorem Ordered.weight_eq (ordered : D.Ordered) (levelWork : BlueWork) (he : e ∈ D.entries) :
    D.weight levelWork e.hash = weightOf levelWork e.bits := by
  unfold weight
  rw [ordered.lookup he]
  rfl

theorem work_insert (hx : x ≠ e.hash) : (D.insert e).work x = D.work x := by
  unfold work sortable
  rw [lookup_insert hx]

end Dag

/-- The relations and the reachability oracle of a manager hold a DAG. -/
structure HoldsDag (M : GhostdagManager) (root : Hash) (g : List (Hash × List Hash)) : Prop where
  parents : ∀ b ps, (b, ps) ∈ g → M.getParents b = some ps
  reach : ∀ a b, GrowingDag.Known root g a → GrowingDag.Known root g b →
    (M.isDagAncestorOf a b = true ↔ a = b ∨ a ∈ GrowingDag.past g b)
  size : g.length < M.size

namespace HoldsDag

open GrowingDag

variable {M : GhostdagManager} {root : Hash} {g : List (Hash × List Hash)} {sp p q x : Hash} {ps : List Hash}
    (R : HoldsDag M root g)
  (grown : Grown root g) (hsp : Known root g sp)

include R grown hsp

theorem step_iff (hp : (p, ps) ∈ g) :
    Worklist.Step M.getParents (M.isDagAncestorOf · sp) p q ↔ q ∈ ps ∧ q ≠ sp ∧ q ∉ past g sp := by
  unfold Worklist.Step
  rw [R.parents p ps hp]
  constructor
  · rintro ⟨as, has, hq, go⟩
    cases has
    dsimp only at go
    have stop : ¬ (q = sp ∨ q ∈ past g sp) := fun h => by
      rw [(R.reach q sp (grown.known_parent hp hq) hsp).mpr h] at go
      cases go
    exact ⟨hq, not_or.mp stop⟩
  · rintro ⟨hq, other, above⟩
    refine ⟨ps, rfl, hq, Bool.eq_false_iff.mpr fun h => ?_⟩
    rcases (R.reach q sp (grown.known_parent hp hq) hsp).mp h with same | below
    · exact other same
    · exact above below

omit R in
theorem added_of_above (hq : Known root g q) (above : q ≠ sp ∧ q ∉ past g sp) : ∃ ps, (q, ps) ∈ g := by
  rcases hq with rfl | added
  · exact ((grown.root_le hsp).elim above.1 above.2).elim
  · obtain ⟨node, hnode, rfl⟩ := mem_map.mp added
    exact ⟨node.2, hnode⟩

/-- What the search reaches from a block above the selected parent's past. -/
theorem reaches_iff (hp : Known root g p) (above : p ≠ sp ∧ p ∉ past g sp) :
    Relation.ReflTransGen (Worklist.Step M.getParents (M.isDagAncestorOf · sp)) p x ↔
      (x = p ∨ x ∈ past g p) ∧ x ≠ sp ∧ x ∉ past g sp := by
  constructor
  · intro path
    induction path with
    | refl => exact ⟨.inl rfl, above⟩
    | @tail b c _ step ih =>
      obtain ⟨below, aboveB⟩ := ih
      have hb : Known root g b := by
        rcases below with rfl | below
        · exact hp
        · exact grown.known_of_mem_past below
      obtain ⟨ps, hb⟩ := added_of_above grown hsp hb aboveB
      obtain ⟨hc, aboveC⟩ := (R.step_iff grown hsp hb).mp step
      refine ⟨.inr ?_, aboveC⟩
      have edge := grown.edge hb hc
      rcases below with rfl | below
      · exact edge
      · exact grown.past_trans edge below
  · -- by induction on the past of `p`: the next block on the way down to `x` has a smaller one
    rintro ⟨below, aboveX⟩
    induction hn : (past g p).card using Nat.strong_induction_on generalizing p with
    | _ n ih =>
      subst hn
      rcases below with rfl | below
      · exact .refl
      · obtain ⟨ps, hps⟩ := added_of_above grown hsp hp above
        obtain ⟨q, hq, belowQ⟩ := (grown.mem_past_iff hps).mp below
        have knownQ := grown.known_parent hps hq
        have edge := grown.edge hps hq
        have aboveQ := grown.above_of_le belowQ aboveX
        have fewer : (past g q).card < (past g p).card := by
          refine Finset.card_lt_card ⟨fun y hy => grown.past_trans hy edge, fun sub => ?_⟩
          exact grown.notMem_past_self q (sub edge)
        have step : Worklist.Step M.getParents (M.isDagAncestorOf · sp) p q :=
          (R.step_iff grown hsp hps).mpr ⟨hq, aboveQ⟩
        exact .head step (ih _ fewer knownQ aboveQ belowQ rfl)

/-- From a block in the past of the selected parent the search goes nowhere. -/
theorem reaches_below (hp : (p, ps) ∈ g) (below : p ∈ past g sp) :
    Relation.ReflTransGen (Worklist.Step M.getParents (M.isDagAncestorOf · sp)) p x ↔ x = p := by
  constructor
  · intro path
    rcases path.cases_head with same | ⟨q, step, -⟩
    · exact same.symm
    · obtain ⟨hq, -, above⟩ := (R.step_iff grown hsp hp).mp step
      exact absurd (grown.past_trans (grown.edge hp hq) below) above
  · rintro rfl
    exact .refl

/-- What the search finds over any parents: those in the past of the selected parent are found as well,
without what is below them. -/
theorem mergeset {parents : List Hash} (added : ∀ p ∈ parents, p ≠ sp → p ∈ g.map Prod.fst) :
    ∃ r, M.unorderedMergesetWithoutSelectedParent sp parents = some r ∧ r.Nodup ∧
      ∀ x, x ∈ r ↔ (x ∈ parents ∧ x ≠ sp) ∨ ((∃ p ∈ parents, x = p ∨ x ∈ past g p) ∧ x ≠ sp ∧ x ∉ past g sp) := by
  -- the search moves among the blocks above the root
  have inside : ∀ q, Known root g q → M.isDagAncestorOf q sp = false → q ∈ (g.map Prod.fst).toFinset := by
    intro q hq go
    refine mem_toFinset.mpr (hq.resolve_left ?_)
    rintro rfl
    exact Bool.false_ne_true (go.symm.trans ((R.reach q sp (.inl rfl) hsp).mpr (grown.root_le hsp)))
  have total : ∀ a ∈ (g.map Prod.fst).toFinset, ∃ as, M.getParents a = some as ∧
      ∀ b ∈ as, M.isDagAncestorOf b sp = false → b ∈ (g.map Prod.fst).toFinset := by
    intro a ha
    obtain ⟨node, hnode, rfl⟩ := mem_map.mp (mem_toFinset.mp ha)
    exact ⟨node.2, R.parents _ _ hnode, fun b hb go => inside b (grown.known_parent hnode hb) go⟩
  have starts : ∀ a ∈ parents.filter (· ≠ sp), a ∈ (g.map Prod.fst).toFinset := by
    intro a ha
    obtain ⟨ha, other⟩ := mem_filter.mp ha
    exact mem_toFinset.mpr (added a ha (of_decide_eq_true other))
  have enough : todo (g.map Prod.fst).toFinset (start (parents.filter (· ≠ sp))) ≤
      (parents.filter (· ≠ sp)).length + M.size := by
    have few : ((g.map Prod.fst).toFinset.filter (· ∉ (start (parents.filter (· ≠ sp))).found)).card ≤ g.length := by
      refine (Finset.card_filter_le ..).trans ((toFinset_card_le _).trans ?_)
      rw [length_map]
    have size := R.size
    show (parents.filter (· ≠ sp)).length + _ ≤ _
    omega
  obtain ⟨r, hr, nodup, found⟩ := run_spec total (inv_start starts) enough
  refine ⟨r, hr, nodup, fun x => ?_⟩
  rw [found x]
  constructor
  · rintro ⟨p, hp, path⟩
    obtain ⟨hp, other⟩ := mem_filter.mp hp
    have other := of_decide_eq_true other
    by_cases below : p ∈ past g sp
    · obtain ⟨node, hnode, rfl⟩ := mem_map.mp (added p hp other)
      obtain rfl := (R.reaches_below grown hsp hnode below).mp path
      exact .inl ⟨hp, other⟩
    · obtain ⟨down, rest⟩ := (R.reaches_iff grown hsp (.inr (added p hp other)) ⟨other, below⟩).mp path
      exact .inr ⟨⟨p, hp, down⟩, rest⟩
  · rintro (⟨hx, other⟩ | ⟨⟨p, hp, down⟩, rest⟩)
    · exact ⟨x, mem_filter.mpr ⟨hx, decide_eq_true other⟩, .refl⟩
    · have above := grown.above_of_le down rest
      refine ⟨p, mem_filter.mpr ⟨hp, decide_eq_true above.1⟩, ?_⟩
      exact (R.reaches_iff grown hsp (.inr (added p hp above.1)) above).mpr ⟨down, rest⟩

end HoldsDag

namespace Serves

variable {M : GhostdagManager} {D : Dag} (S : Serves M D)

include S

theorem sortable {x : Hash} (hx : D.Known x) : M.sortable x = some (D.sortable x) := by
  obtain ⟨e, found, he, rfl⟩ := Dag.exists_lookup hx
  unfold GhostdagManager.sortable Dag.sortable
  rw [S.data e he, found]
  rfl

theorem base_ancestor (ordered : D.Ordered) {x : Hash} (hx : D.Known x) : M.isDagAncestorOf D.base.hash x = true :=
  (S.reach _ _ .base hx).mpr (ordered.root_le hx)

variable {parents : List Hash}

/-- The selected parent is a parent of highest blue work. -/
theorem findSelectedParent (ne : parents ≠ []) (known : ∀ p ∈ parents, D.Known p) :
    ∃ sp ∈ parents, M.findSelectedParent parents = some sp ∧ ∀ p ∈ parents, D.work p ≤ D.work sp := by
  have blocks := mapM_eq_some_map fun p hp => S.sortable (known p hp)
  have nonempty : parents.map D.sortable ≠ [] := by simpa using ne
  obtain ⟨m, hm, mem, max⟩ := maxSortable_spec nonempty
  obtain ⟨sp, hsp, rfl⟩ := mem_map.mp mem
  refine ⟨sp, hsp, ?_, fun p hp => ?_⟩
  · unfold GhostdagManager.findSelectedParent
    rw [blocks]
    show (maxSortable _).bind _ = _
    rw [hm]
    rfl
  · exact blueWork_le_of_key (max _ (mem_map_of_mem hp))

theorem reads : HoldsDag M D.base.hash (Dag.historyOf D.blocks) where
  parents b ps hb := by
    obtain ⟨e, he, same⟩ := mem_map.mp hb
    cases same
    exact S.parents e he
  reach := S.reach
  size := by
    unfold Dag.historyOf
    rw [length_map]
    exact S.size

/-- **The mergeset.** The search finds what the parents and their pasts have outside the selected parent
and its past. -/
theorem mergeset_spec (ordered : D.Ordered) {sp : Hash} (hsp : sp ∈ parents) (known : ∀ p ∈ parents, D.Known p)
    (above : ∀ p ∈ parents, p ∉ D.past sp) :
    ∃ r, M.unorderedMergesetWithoutSelectedParent sp parents = some r ∧ r.Nodup ∧
      ∀ x, x ∈ r ↔ (∃ p ∈ parents, x = p ∨ x ∈ D.past p) ∧ x ≠ sp ∧ x ∉ D.past sp := by
  have added : ∀ p ∈ parents, p ≠ sp → p ∈ (Dag.historyOf D.blocks).map Prod.fst := by
    intro p hp other
    obtain ⟨ps, added⟩ := HoldsDag.added_of_above ordered (known sp hsp) (known p hp) ⟨other, above p hp⟩
    exact mem_map_of_mem added
  obtain ⟨r, hr, nodup, mem⟩ := S.reads.mergeset ordered (known sp hsp) added
  refine ⟨r, hr, nodup, fun x => (mem x).trans ⟨fun h => ?_, .inr⟩⟩
  rcases h with ⟨hx, other⟩ | h
  · exact ⟨⟨x, hx, .inl rfl⟩, other, above x hx⟩
  · exact h

/-- **The order.** In ascending blue work no block comes before one of its ancestors. -/
theorem ordered_spec (increasing : D.Increasing) {blocks : List Hash} (known : ∀ b ∈ blocks, D.Known b) :
    ∃ sorted, M.sortBlocks blocks = some sorted ∧ sorted.Perm blocks ∧ sorted.Pairwise fun a b => b ∉ D.past a := by
  have keyed := mapM_eq_some_map fun b hb => S.sortable (known b hb)
  have perm := perm_insertionSort (fun a b : SortableBlock => a.key ≤ b.key) (blocks.map D.sortable)
  refine ⟨((blocks.map D.sortable).insertionSort fun a b => a.key ≤ b.key).map hash, ?_, ?_, ?_⟩
  · unfold GhostdagManager.sortBlocks
    rw [keyed]
    rfl
  · refine (perm.map hash).trans ?_
    rw [map_map]
    exact List.Perm.of_eq (map_id _)
  · rw [pairwise_map]
    have sorted := pairwise_insertionSort (fun a b : SortableBlock => a.key ≤ b.key)
    refine (sorted _).imp_of_mem fun {a b} ha hb le below => ?_
    obtain ⟨x, -, rfl⟩ := mem_map.mp (perm.mem_iff.mp ha)
    obtain ⟨y, -, rfl⟩ := mem_map.mp (perm.mem_iff.mp hb)
    have less : (D.sortable y).key < (D.sortable x).key := key_lt_of_blueWork (increasing y x below)
    omega

end Serves

end Firecash
