import Firecash.Consensus.Committed

/-!
# The nullifier set follows the walk

`nullifiersAt b` is the union of the stored per-block nullifier diffs over the selected chain of `b`.
The global set is one mutable set; this module says at which block it stands.

`WellFormed` is the database side: committed blocks form a subtree, and no nullifier occurs twice on
a committed chain, which is what makes a revert undo exactly what the block added although a competing
branch may have added the same nullifier.

`Inv` is the running node's side, crashes included. While the walk is at the ghost `point`, the set is
`nullifiersAt point`. A crash brings the walk back to the sink and leaves the set behind; until the walk
meets `point` again the set lies between what the sink's chain and the chain of `point` share and
`nullifiersAt point`, and every step keeps it there as long as the walk leads through `point`
(`Resumes`). Without crashes the walk never leaves `point` (`tracks_step`).
-/

namespace Firecash

open List ShieldedStores

variable {P : Prim} {env : ChainEnv P}

namespace VirtualDb

/-- The union of the stored nullifier diffs over the selected chain of a block. -/
def nullifiersAt (env : ChainEnv P) (db : VirtualDb P) (block : Hash) : Finset NullifierBytes :=
  env.tree.chainSet db.stores.getDiff block

structure WellFormed (env : ChainEnv P) (db : VirtualDb P) : Prop extends db.Committed env where
  nodup : ∀ {b}, db.hasUtxoDiff b → (env.tree.chainKeys db.stores.getDiff b).Nodup

theorem wellFormed_genesis (statuses : Hash → BlockStatus) :
    (genesis env.tree.root statuses : VirtualDb P).WellFormed env where
  toCommitted := committed_genesis statuses
  nodup := by
    intro b _
    have hnil : env.tree.chainKeys (genesis env.tree.root statuses : VirtualDb P).stores.getDiff b = [] :=
      flatMap_eq_nil_iff.mpr fun _ _ => rfl
    rw [hnil]
    exact nodup_nil

namespace WellFormed

variable {db db' : VirtualDb P} {a b : Hash}

theorem congr (wf : db.WellFormed env) (hcommits : db'.commits = db.commits)
    (hsame : db.stores.SameRecords db'.stores) : db'.WellFormed env where
  toCommitted := wf.toCommitted.congr hcommits hsame
  nodup := by
    intro b hd
    rw [hasUtxoDiff_congr hcommits] at hd
    obtain ⟨nfs, hstores⟩ := hsame
    rw [hstores]
    exact wf.nodup hd

/-- The diffs along a committed chain are pairwise disjoint. -/
theorem pairwise_disjoint (wf : db.WellFormed env) (hb : db.hasUtxoDiff b) :
    (env.tree.chain b).Pairwise fun x y => Disjoint (db.stores.getDiff x).toFinset (db.stores.getDiff y).toFinset := by
  have hnodup := (nodup_flatMap.mp (wf.nodup hb)).2
  refine hnodup.imp ?_
  intro x y hxy
  exact disjoint_toFinset_iff_disjoint.mpr hxy

section Commit

variable {c : ComputedBlockShielded P}

theorem nullifiersAt_commit_self (wf : db.WellFormed env) (hb : db.hasUtxoDiff b = false)
    (hp : db.hasUtxoDiff (env.tree.parent b)) (hne : b ≠ env.tree.root) :
    (db.commitUtxoState b (some c)).nullifiersAt env b =
      db.nullifiersAt env (env.tree.parent b) ∪ c.outcome.newNullifiers.toFinset := by
  unfold nullifiersAt ChainTree.chainSet
  rw [wf.chainKeys_commit_self hb hp hne, toFinset_append, Finset.union_comm]

/-- Committing a child of a committed block, with nullifiers that are new to its chain. -/
theorem commit (wf : db.WellFormed env) (hb : db.hasUtxoDiff b = false) (hp : db.hasUtxoDiff (env.tree.parent b))
    (hne : b ≠ env.tree.root) (hnodup : c.outcome.newNullifiers.Nodup)
    (hfresh : ∀ nf ∈ c.outcome.newNullifiers, nf ∉ db.nullifiersAt env (env.tree.parent b)) :
    (db.commitUtxoState b (some c)).WellFormed env where
  toCommitted := wf.toCommitted.commit hb hp c
  nodup := by
    intro x hd
    rcases hasUtxoDiff_commit_iff.mp hd with rfl | hd
    · rw [wf.chainKeys_commit_self hb hp hne]
      refine nodup_append.mpr ⟨hnodup, wf.nodup hp, ?_⟩
      rintro nf hnf _ hmem rfl
      exact hfresh nf hnf (mem_toFinset.mpr hmem)
    · rw [wf.chainKeys_commit hb hd]
      exact wf.nodup hd

end Commit

end WellFormed

end VirtualDb

theorem validateBlock_nullifiers {view : NodeView} {stores : ShieldedStores P} {block : Hash}
    {c : ComputedBlockShielded P} (h : validateBlock env view stores block = .ok c) :
    c.outcome.newNullifiers.Nodup ∧ ∀ nf ∈ c.outcome.newNullifiers, nf ∉ stores.nullifiers := by
  obtain ⟨ctx, mint, -, -, hc⟩ := validateBlock_ok h
  obtain ⟨tree, tree', -, spec, -, -⟩ := compute_ok hc
  refine ⟨spec.nodup, fun nf hnf => ?_⟩
  simpa [ShieldedStores.contains] using spec.not_finalized nf hnf

/-! ## The invariant of a running node -/

namespace VirtualNode

open ChainTree

/-- The walk is at `point`, and the set stands there. -/
def Settled (env : ChainEnv P) (n : VirtualNode P) : Prop :=
  n.point = n.ctl.position ∧ n.db.stores.nullifiers = n.db.nullifiersAt env n.point

/-- After a crash: the walk is on its way from the sink back to `point`. -/
def Returning (env : ChainEnv P) (n : VirtualNode P) : Prop :=
  match n.ctl with
  | .idle diffPoint => diffPoint = n.sink
  | .down current dst =>
    current ∈ env.tree.chain n.sink ∧ current ≠ n.point ∧ env.tree.OnPath n.point current dst
  | .up diffPoint todo =>
    ∃ dst, env.tree.Ascends diffPoint todo dst ∧ n.point ∈ env.tree.chain dst ∧
      diffPoint ∈ env.tree.chain n.point ∧ diffPoint ≠ n.point ∧
      n.db.nullifiersAt env diffPoint ⊆ n.db.stores.nullifiers

structure Inv (env : ChainEnv P) (n : VirtualNode P) : Prop extends n.Placed env where
  wf : n.db.WellFormed env
  point : n.db.hasUtxoDiff n.point
  /-- The set keeps what the chains of the sink and of `point` share … -/
  shared : ∀ y ∈ env.tree.chain n.sink, y ∈ env.tree.chain n.point → n.db.nullifiersAt env y ⊆ n.db.stores.nullifiers
  /-- … and holds nothing outside the chain of `point`. -/
  bound : n.db.stores.nullifiers ⊆ n.db.nullifiersAt env n.point
  walk : n.Settled env ∨ n.Returning env

/-- A settled node needs no more than its database. -/
theorem Inv.of_settled {n : VirtualNode P} (placed : n.Placed env) (wf : n.db.WellFormed env) (h : n.Settled env) :
    n.Inv env where
  toPlaced := placed
  wf := wf
  point := h.1 ▸ placed.position
  shared := by
    intro y _ hy
    rw [h.2]
    exact chainSet_mono hy
  bound := by rw [h.2]
  walk := Or.inl h

theorem Inv.eq_of_mem {n : VirtualNode P} (inv : n.Inv env) (h : n.point ∈ env.tree.chain n.sink) :
    n.db.stores.nullifiers = n.db.nullifiersAt env n.point :=
  Finset.Subset.antisymm inv.bound (inv.shared n.point h (env.tree.mem_chain_self _))

theorem Inv.settled {n : VirtualNode P} (inv : n.Inv env) (h : n.point = n.ctl.position) :
    n.db.stores.nullifiers = n.db.nullifiersAt env n.point := by
  rcases inv.walk with hs | hr
  · exact hs.2
  · unfold Returning at hr
    cases hc : n.ctl with
    | idle d =>
      rw [hc] at hr h
      have hsink : n.point = n.sink := h.trans hr
      exact inv.eq_of_mem (hsink ▸ env.tree.mem_chain_self _)
    | down q dst =>
      rw [hc] at hr h
      exact absurd h.symm hr.2.1
    | up d todo =>
      rw [hc] at hr h
      obtain ⟨-, -, -, -, hne, -⟩ := hr
      exact absurd h.symm hne

theorem inv_genesis (env : ChainEnv P) (statuses : Hash → BlockStatus) : (genesis env statuses).Inv env := by
  have wf : (genesis env statuses).db.WellFormed env := VirtualDb.wellFormed_genesis statuses
  refine Inv.of_settled (placed_genesis env statuses) wf ⟨rfl, ?_⟩
  have hnil : env.tree.chainKeys (genesis env statuses).db.stores.getDiff env.tree.root = [] :=
    flatMap_eq_nil_iff.mpr fun _ _ => rfl
  show ∅ = (env.tree.chainKeys (genesis env statuses).db.stores.getDiff env.tree.root).toFinset
  rw [hnil]
  rfl

/-! ### Steps -/

variable {n n' : VirtualNode P}

/-- The condition on a new walk: it leads through `point`. -/
def Resumes (env : ChainEnv P) (n : VirtualNode P) : Event → Prop
  | .start dst => n.db.statuses dst ≠ .disqualifiedFromChain → env.tree.OnPath n.point n.ctl.position dst
  | _ => True

variable {db : VirtualDb P} {sink point : Hash}

/-- An idle node is settled or at its sink. -/
theorem Inv.idle_eq_sink {d : Hash} (inv : Inv env ⟨db, sink, .idle d, point⟩)
    (hd : point ≠ d) : d = sink := by
  rcases inv.walk with hs | hr
  · exact absurd hs.1 hd
  · exact hr

theorem inv_start {d dst : Hash} (inv : Inv env ⟨db, sink, .idle d, point⟩)
    (hpath : env.tree.OnPath point d dst) (placed : Placed env ⟨db, sink, .down d dst, point⟩) :
    Inv env ⟨db, sink, .down d dst, point⟩ := by
  by_cases hd : point = d
  · exact Inv.of_settled placed inv.wf ⟨hd, inv.settled hd⟩
  · refine ⟨placed, inv.wf, inv.point, inv.shared, inv.bound, Or.inr ?_⟩
    have hsink := inv.idle_eq_sink hd
    exact ⟨hsink ▸ env.tree.mem_chain_self _, Ne.symm hd, hpath⟩

theorem inv_commitVirtual {d : Hash} (inv : Inv env ⟨db, sink, .idle d, point⟩)
    (placed : Placed env ⟨db, d, .idle d, point⟩) : Inv env ⟨db, d, .idle d, point⟩ := by
  by_cases hd : point = d
  · exact Inv.of_settled placed inv.wf ⟨hd, inv.settled hd⟩
  · obtain rfl := inv.idle_eq_sink hd
    exact inv

/-- The downward loop reaches the split point. -/
theorem inv_split {q dst : Hash} (inv : Inv env ⟨db, sink, .down q dst, point⟩)
    (hq : q ∈ env.tree.chain dst) (placed : Placed env ⟨db, sink, .up q (env.tree.above q dst), point⟩) :
    Inv env ⟨db, sink, .up q (env.tree.above q dst), point⟩ := by
  have hasc := ascends_above hq
  refine ⟨placed, inv.wf, inv.point, inv.shared, inv.bound, ?_⟩
  rcases inv.walk with hs | ⟨hsink, hne, hside, hsplit⟩
  · exact Or.inl hs
  · -- the split point is shared by both chains, so it is below `point`, which is on the way up
    have hqp : q ∈ env.tree.chain point := hsplit q (env.tree.mem_chain_self q) hq
    have hpd : point ∈ env.tree.chain dst := by
      rcases hside with hpq | hpd
      · exact absurd (mem_chain_antisymm hqp hpq) hne
      · exact hpd
    exact Or.inr ⟨dst, hasc, hpd, hqp, hne, inv.shared q hsink hqp⟩

theorem inv_revert {q dst : Hash} (inv : Inv env ⟨db, sink, .down q dst, point⟩)
    (hq : q ∉ env.tree.chain dst) :
    Inv env ⟨{ db with stores := db.stores.revertNullifiersFromStore q }, sink, .down (env.tree.parent q) dst,
      if point = q then env.tree.parent q else point⟩ := by
  have hroot : q ≠ env.tree.root := by
    rintro rfl
    exact hq (env.tree.root_mem_chain dst)
  have hset : (db.stores.revertNullifiersFromStore q).nullifiers =
      db.stores.nullifiers \ (db.stores.getDiff q).toFinset :=
    deleteNullifiers_nullifiers _ _
  rcases inv.walk with ⟨hpq, hs⟩ | ⟨hsink, hne, hside, hsplit⟩
  · obtain rfl : point = q := hpq
    rw [if_pos rfl]
    refine Inv.of_settled (placed_revert inv.toPlaced hq) (inv.wf.congr rfl ⟨_, rfl⟩) ⟨rfl, ?_⟩
    have hs' : db.stores.nullifiers = db.nullifiersAt env point := hs
    calc (db.stores.revertNullifiersFromStore point).nullifiers
        = db.nullifiersAt env point \ (db.stores.getDiff point).toFinset := by rw [hset, hs']
      _ = db.nullifiersAt env (env.tree.parent point) := chainSet_sdiff (inv.wf.nodup inv.position) hroot
  · rw [if_neg (Ne.symm hne)]
    have hqp : q ∉ env.tree.chain point := by
      intro hqp
      rcases hside with hpq | hpd
      · exact hne (mem_chain_antisymm hqp hpq)
      · exact hq (mem_chain_trans hqp hpd)
    have hbound : (db.stores.revertNullifiersFromStore q).nullifiers ⊆ db.nullifiersAt env point := by
      rw [hset]
      exact Finset.sdiff_subset.trans inv.bound
    have hshared : ∀ y ∈ env.tree.chain sink, y ∈ env.tree.chain point →
        db.nullifiersAt env y ⊆ (db.stores.revertNullifiersFromStore q).nullifiers := by
      intro y hy hyp
      -- what is shared lies below `q`, whose own nullifiers are disjoint from it
      have hyq : y ∈ env.tree.chain (env.tree.parent q) := by
        rcases mem_chain_total hy hsink with hyq | hqy
        · exact (mem_chain_parent_of_ne hyq fun h => hqp (h ▸ hyp)).2
        · exact absurd (mem_chain_trans hqy hyp) hqp
      rw [hset]
      exact Finset.subset_sdiff.mpr ⟨inv.shared y hy hyp,
        disjoint_keys_chainSet hsink (inv.wf.nodup inv.sink) hroot hyq⟩
    refine ⟨placed_revert inv.toPlaced hq, inv.wf.congr rfl ⟨_, rfl⟩, inv.point, hshared, hbound, ?_⟩
    by_cases hpp : point = env.tree.parent q
    · have hps : point ∈ env.tree.chain sink := hpp ▸ mem_chain_trans (parent_mem_chain hroot) hsink
      exact Or.inl ⟨hpp, Finset.Subset.antisymm hbound (hshared point hps (env.tree.mem_chain_self _))⟩
    · refine Or.inr ⟨mem_chain_trans (parent_mem_chain hroot) hsink, Ne.symm hpp, ?_, ?_⟩
      · exact hside.imp (fun h => (mem_chain_parent_of_ne h (Ne.symm hne)).2) id
      · exact fun y hy => hsplit y (mem_chain_of_parent hroot hy)

variable {todo : List Hash}

/-- The next block of a walk that is below `point` and leads through it is still on the chain of `point`. -/
theorem next_mem_chain {b dst : Hash} (hasc : env.tree.Ascends b todo dst)
    (hpd : point ∈ env.tree.chain dst) (hdp : env.tree.parent b ∈ env.tree.chain point)
    (hne : env.tree.parent b ≠ point) : b ∈ env.tree.chain point := by
  rcases mem_chain_total hasc.mem_chain hpd with h | h
  · exact h
  · by_cases hpb : point = b
    · exact hpb ▸ env.tree.mem_chain_self _
    · exact absurd (mem_chain_antisymm hdp (mem_chain_parent_of_ne h hpb).2) hne

theorem inv_reapply {d b : Hash}
    (inv : Inv env ⟨db, sink, .up d (b :: todo), point⟩) (hparent : env.tree.parent b = d) (hb : db.hasUtxoDiff b) :
    Inv env ⟨{ db with stores := db.stores.applyNullifiersFromStore b }, sink, .up b todo,
      if point = d then b else point⟩ := by
  subst hparent
  have hroot : b ≠ env.tree.root := (inv.todo mem_cons_self).ne_root
  have placed : ∀ point', Placed env ⟨{ db with stores := db.stores.applyNullifiersFromStore b }, sink,
      .up b todo, point'⟩ :=
    fun _ => ⟨inv.committed.congr rfl ⟨_, rfl⟩, inv.sink, hb, inv.climb.tail⟩
  have hset : (db.stores.applyNullifiersFromStore b).nullifiers =
      db.stores.nullifiers ∪ (db.stores.getDiff b).toFinset :=
    insertNullifiers_nullifiers _ _
  rcases inv.walk with ⟨hpoint, hs⟩ | ⟨dst, ⟨-, -, hasc⟩, hpd, hdp, hne, hsub⟩
  · obtain rfl : point = env.tree.parent b := hpoint
    have hs' : db.stores.nullifiers = db.nullifiersAt env (env.tree.parent b) := hs
    rw [if_pos rfl]
    refine Inv.of_settled (placed b) (inv.wf.congr rfl ⟨_, rfl⟩) ⟨rfl, ?_⟩
    calc (db.stores.applyNullifiersFromStore b).nullifiers
        = db.nullifiersAt env (env.tree.parent b) ∪ (db.stores.getDiff b).toFinset := by rw [hset, hs']
      _ = db.nullifiersAt env b := (chainSet_of_ne_root hroot).symm
  · rw [if_neg (Ne.symm hne)]
    have hbp := next_mem_chain hasc hpd hdp hne
    have hbound : (db.stores.applyNullifiersFromStore b).nullifiers ⊆ db.nullifiersAt env point := by
      rw [hset]
      exact Finset.union_subset inv.bound (keys_subset_chainSet hbp)
    have hsub' : db.nullifiersAt env b ⊆ (db.stores.applyNullifiersFromStore b).nullifiers := by
      rw [hset, VirtualDb.nullifiersAt, chainSet_of_ne_root hroot]
      exact Finset.union_subset_union hsub (Finset.Subset.refl _)
    refine ⟨placed point, inv.wf.congr rfl ⟨_, rfl⟩, inv.point, ?_, hbound, ?_⟩
    · intro y hy hyp
      exact (inv.shared y hy hyp).trans (hset ▸ Finset.subset_union_left)
    · by_cases hpb : point = b
      · subst hpb
        exact Or.inl ⟨rfl, Finset.Subset.antisymm hbound hsub'⟩
      · exact Or.inr ⟨dst, hasc, hpd, hbp, Ne.symm hpb, hsub'⟩

/-- A node about to validate a block is settled: while the walk is still returning to `point`, the next
block is below `point` and committed. -/
theorem Inv.settled_of_new {b : Hash}
    (inv : Inv env ⟨db, sink, .up (env.tree.parent b) (b :: todo), point⟩) (hb : db.hasUtxoDiff b = false) :
    point = env.tree.parent b ∧ db.stores.nullifiers = db.nullifiersAt env (env.tree.parent b) := by
  rcases inv.walk with ⟨hpoint, hs⟩ | ⟨dst, ⟨-, -, hasc⟩, hpd, hdp, hne, -⟩
  · obtain rfl : point = env.tree.parent b := hpoint
    exact ⟨rfl, hs⟩
  · exact absurd (next_mem_chain hasc hpd hdp hne) (inv.wf.notMem_chain_of_new inv.point hb)

theorem inv_commit {d b : Hash} {view : NodeView}
    {c : ComputedBlockShielded P} (inv : Inv env ⟨db, sink, .up d (b :: todo), point⟩) (hparent : env.tree.parent b = d)
    (hb : db.hasUtxoDiff b = false) (hvalid : validateBlock env view db.stores b = .ok c) :
    Inv env ⟨db.commitUtxoState b (some c), sink, .up b todo, if point = d then b else point⟩ := by
  subst hparent
  have hroot : b ≠ env.tree.root := (inv.todo mem_cons_self).ne_root
  have hp : db.hasUtxoDiff (env.tree.parent b) := inv.position
  obtain ⟨rfl, hs⟩ := inv.settled_of_new hb
  obtain ⟨hnodup, hfresh⟩ := validateBlock_nullifiers hvalid
  have hset : (db.commitUtxoState b (some c)).stores.nullifiers =
      db.stores.nullifiers ∪ c.outcome.newNullifiers.toFinset :=
    congrArg nullifiers (persist_eq db.stores b c)
  rw [if_pos rfl]
  refine Inv.of_settled (placed_upStep inv.toPlaced (.commit rfl hb c hvalid))
    (inv.wf.commit hb hp hroot hnodup fun nf hnf => hs ▸ hfresh nf hnf) ⟨rfl, ?_⟩
  rw [hset, hs]
  exact (inv.wf.nullifiersAt_commit_self hb hp hroot).symm

/-- A block left off the chain. -/
theorem inv_skip {db' : VirtualDb P} {d b : Hash}
    (inv : Inv env ⟨db, sink, .up d (b :: todo), point⟩) (hstores : db'.stores = db.stores)
    (hcommits : db'.commits = db.commits) (hnew : env.tree.parent b = d → db.hasUtxoDiff b = false) :
    Inv env ⟨db', sink, .up d todo, point⟩ := by
  have hhas := VirtualDb.hasUtxoDiff_congr hcommits
  have hsame : db.stores.SameRecords db'.stores := ⟨db.stores.nullifiers, hstores⟩
  have placed : Placed env ⟨db', sink, .up d todo, point⟩ :=
    ⟨inv.committed.congr hcommits hsame, (hhas sink).trans inv.sink, (hhas d).trans inv.position,
      inv.climb.sublist ((sublist_cons_self b todo).cons_cons d)⟩
  have hat : ∀ x, db'.nullifiersAt env x = db.nullifiersAt env x := by
    intro x
    rw [VirtualDb.nullifiersAt, hstores]
    rfl
  have hsettled : point = d ∧ db.stores.nullifiers = db.nullifiersAt env point := by
    rcases inv.walk with ⟨hpoint, hs⟩ | ⟨dst, ⟨-, hpar, -⟩, -, -, -, -⟩
    · exact ⟨hpoint, hs⟩
    · subst hpar
      obtain ⟨rfl, hs⟩ := inv.settled_of_new (hnew rfl)
      exact ⟨rfl, hs⟩
  obtain ⟨rfl, hs⟩ := hsettled
  refine Inv.of_settled placed (inv.wf.congr hcommits hsame) ⟨rfl, ?_⟩
  rw [hat, hstores, hs]

theorem inv_arrive {d : Hash} (inv : Inv env ⟨db, sink, .up d [], point⟩)
    (placed : Placed env ⟨db, sink, .idle d, point⟩) : Inv env ⟨db, sink, .idle d, point⟩ := by
  refine ⟨placed, inv.wf, inv.point, inv.shared, inv.bound, Or.inl ?_⟩
  rcases inv.walk with hs | ⟨dst, hdst, hpd, hdp, hne, -⟩
  · exact hs
  · -- the walk passed `point` before it arrived
    obtain rfl : d = dst := hdst
    exact absurd (mem_chain_antisymm hdp hpd) hne

/-- A step keeps the invariant, if a walk it starts leads through `point`. -/
theorem inv_step {e : Event} (inv : n.Inv env) (hres : n.Resumes env e) (h : n.step env e = some n') : n'.Inv env := by
  have placed := placed_step inv.toPlaced h
  cases step_inv h with
  | refuse => exact inv
  | start hst => exact inv_start inv (hres hst) placed
  | split hq => exact inv_split inv hq placed
  | revert hq => exact inv_revert inv hq
  | arrive => exact inv_arrive inv placed
  | commitVirtual => exact inv_commitVirtual inv placed
  | crash => exact ⟨placed, inv.wf, inv.point, inv.shared, inv.bound, Or.inr rfl⟩
  | @climb db db' sink d b next point todo view hup =>
    cases upStep_inv hup with
    | skip hstores hcommits hnew =>
      have hpoint : (if point = d then d else point) = point := by
        split
        · symm; assumption
        · rfl
      simp only [hpoint]
      exact inv_skip inv hstores hcommits hnew
    | reapply hparent hdiff => exact inv_reapply inv hparent hdiff
    | commit hparent hdiff c hvalid => exact inv_commit inv hparent hdiff hvalid

end VirtualNode

end Firecash
