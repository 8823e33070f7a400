import Mathlib.Data.List.Find
import Firecash.Consensus.Committed
import Firecash.Shielded.Symbolic

/-!
# What the per-block snapshots mean

The manager keeps three snapshots per committed block (frontier, accumulator, supply) and one global
index from tree roots to blocks. Every run keeps them meaningful:

* the frontier of a block is that of the tree over its leaf sequence `leavesAt`, the subtrees
  appended along its selected chain (`TreeSnapshots`);
* the accumulator is that of the nullifiers of its chain (`MuHashSnapshots`), if it does not collide
  with the empty one, whose snapshot is left out;
* the index holds for every root the block committed last among those with that root
  (`AnchorIndexed`). Over collision-free roots that is the block last committed with a leaf sequence
  (`anchorBlock_eq_lastWith`).
-/

namespace Firecash

open List GlobalTree ShieldedStores MuHash VirtualDb

variable {P : Prim} {env : ChainEnv P}

open ChainTree

namespace VirtualDb

/-- The batch of a committed block. -/
def computedAt (db : VirtualDb P) (block : Hash) : Option (ComputedBlockShielded P) := (db.commits.lookup block).join

/-- The leaves a committed block appended. -/
def subtreeOf (db : VirtualDb P) (block : Hash) : List P.Cmx :=
  match db.computedAt block with
  | some c => c.outcome.subtree
  | none => []

/-- The leaf sequence under a block: the subtrees along its chain, genesis first. -/
def leavesAt (env : ChainEnv P) (db : VirtualDb P) (block : Hash) : List P.Cmx :=
  (env.tree.chain block).reverse.flatMap db.subtreeOf

/-- The block committed last among those with a leaf sequence. -/
def lastWith (env : ChainEnv P) (db : VirtualDb P) (leaves : List P.Cmx) : Option Hash :=
  (db.commits.find? fun e => db.leavesAt env e.1 = leaves).map (·.1)

variable {db db' : VirtualDb P} {a b : Hash} {c : ComputedBlockShielded P}

theorem computedAt_commit_self (db : VirtualDb P) (b : Hash) (c : Option (ComputedBlockShielded P)) :
    (db.commitUtxoState b c).computedAt b = c := by
  simp [computedAt, commitUtxoState]

theorem computedAt_commit_of_ne (c : Option (ComputedBlockShielded P)) (h : a ≠ b) :
    (db.commitUtxoState b c).computedAt a = db.computedAt a := by
  have hne : (a == b) = false := beq_false_of_ne h
  simp [computedAt, commitUtxoState, lookup_cons, hne]

theorem computedAt_of_new (h : db.hasUtxoDiff a = false) : db.computedAt a = none := by
  have hlookup : db.commits.lookup a = none := by
    rw [lookup_eq_none_iff]
    intro p hp
    have hne : p.1 ≠ a := ne_of_new (hasUtxoDiff_iff.mpr (mem_map_of_mem hp)) h
    simpa using hne.symm
  rw [computedAt, hlookup]
  rfl

theorem leavesAt_of_ne_root (hb : b ≠ env.tree.root) :
    db.leavesAt env b = db.leavesAt env (env.tree.parent b) ++ db.subtreeOf b := by
  simp [leavesAt, chain_of_ne_root hb]

theorem Committed.leavesAt_commit (h : db.Committed env) (hb : db.hasUtxoDiff b = false) (ha : db.hasUtxoDiff a) :
    (db.commitUtxoState b (some c)).leavesAt env a = db.leavesAt env a := by
  refine flatMap_congr fun x hx => ?_
  have hne : x ≠ b := by
    rintro rfl
    exact h.notMem_chain_of_new ha hb (mem_reverse.mp hx)
  unfold subtreeOf
  rw [computedAt_commit_of_ne _ hne]

theorem Committed.leavesAt_commit_self (h : db.Committed env) (hb : db.hasUtxoDiff b = false)
    (hp : db.hasUtxoDiff (env.tree.parent b)) (hroot : b ≠ env.tree.root) :
    (db.commitUtxoState b (some c)).leavesAt env b = db.leavesAt env (env.tree.parent b) ++ c.outcome.subtree := by
  rw [leavesAt_of_ne_root hroot, h.leavesAt_commit hb hp, subtreeOf, computedAt_commit_self]

/-! ## What the manager writes -/

/-- A database after a call of the manager: the global set has moved, or a child of a committed block is
computed from it and persisted. -/
inductive ManagerStep (env : ChainEnv P) (db : VirtualDb P) : VirtualDb P → Prop
  | move {db' : VirtualDb P} (hcommits : db'.commits = db.commits)
      (hsame : db.stores.SameRecords db'.stores) : ManagerStep env db db'
  | commit {b : Hash} {coinbase : Option (CoinbaseMint P)} {txs : List (ShieldedTx P)} {c : ComputedBlockShielded P}
      (hroot : b ≠ env.tree.root) (hparent : db.hasUtxoDiff (env.tree.parent b)) (hnew : db.hasUtxoDiff b = false)
      (hc : db.stores.compute (env.tree.parent b) coinbase txs = .ok c) :
      ManagerStep env db (db.commitUtxoState b (some c))

/-- A step of the node makes such a call: a validated block is computed from its selected parent. -/
theorem ManagerStep.of_dbStep (h : VirtualNode.DbStep env db db') : db.ManagerStep env db' := by
  cases h with
  | move hcommits hsame => exact .move hcommits hsame
  | commit hroot hparent hnew hvalid =>
    obtain ⟨ctx, mint, -, -, hc⟩ := validateBlock_ok hvalid
    rw [env.gd_parent _ hroot] at hc
    exact .commit hroot hparent hnew hc

/-! ## Frontiers -/

structure TreeSnapshots (env : ChainEnv P) (db : VirtualDb P) : Prop where
  frontier : ∀ {b}, db.hasUtxoDiff b → ∃ t, ofLeaves (db.leavesAt env b) = .ok t ∧
    db.stores.frontierAt b = t.toState
  batch : ∀ e ∈ db.commits, match e.2 with
    | none => db.leavesAt env e.1 = []
    | some c => ∃ t, ofLeaves (db.leavesAt env e.1) = .ok t ∧ c.frontierState = t.toState ∧ c.anchor = t.anchor

theorem TreeSnapshots.loadTree (h : db.TreeSnapshots env) (laws : FrontierLaws P) (hb : db.hasUtxoDiff b) :
    ∃ t, ofLeaves (db.leavesAt env b) = .ok t ∧ db.stores.loadTree b = some t := by
  obtain ⟨t, ht, hf⟩ := h.frontier hb
  refine ⟨t, ht, ?_⟩
  rw [ShieldedStores.loadTree, hf, fromState_toState laws ht]
  rfl

theorem leavesAt_genesis (env : ChainEnv P) (statuses : Hash → BlockStatus) (b : Hash) :
    (genesis env.tree.root statuses : VirtualDb P).leavesAt env b = [] := by
  refine flatMap_eq_nil_iff.mpr fun x _ => ?_
  by_cases hx : x = env.tree.root
  · subst hx
    rw [subtreeOf, genesis, computedAt_commit_self]
  · rw [subtreeOf, genesis, computedAt_commit_of_ne _ hx]
    rfl

theorem treeSnapshots_genesis (laws : FrontierLaws P) (env : ChainEnv P) (statuses : Hash → BlockStatus) :
    (genesis env.tree.root statuses : VirtualDb P).TreeSnapshots env where
  frontier := by
    intro b _
    rw [leavesAt_genesis]
    exact ⟨new, rfl, (toState_eq_default laws rfl).symm⟩
  batch := by
    intro e he
    obtain rfl : e = (env.tree.root, none) := by simpa [genesis, commitUtxoState] using he
    exact leavesAt_genesis env statuses _

variable {leaves : List P.Cmx} {t : GlobalTree P}

/-- The snapshot a batch writes is the one it computed: only an empty one is left out. -/
theorem frontierAt_commit_self (laws : FrontierLaws P)
    (hfresh : db.stores.NoRecord b) (ht : ofLeaves leaves = .ok t) (hc : c.frontierState = t.toState) :
    (db.commitUtxoState b (some c)).stores.frontierAt b = t.toState := by
  show (db.stores.persist b c).frontierAt b = t.toState
  rw [frontierAt_persist]
  by_cases hsize : c.frontierState.size > 0
  · rw [if_pos ⟨hsize, rfl⟩, hc]
  · rw [if_neg (fun h => hsize h.1), frontierAt, hfresh.tree]
    rw [hc, toState_size laws ht] at hsize
    obtain rfl : leaves = [] := eq_nil_of_length_eq_zero (by omega)
    exact (toState_eq_default laws ht).symm

/-- The tree of a computed block is its parent's with its subtree appended. -/
theorem TreeSnapshots.computed (h : db.TreeSnapshots env) (laws : FrontierLaws P)
    (hparent : db.hasUtxoDiff (env.tree.parent b)) {coinbase : Option (CoinbaseMint P)} {txs : List (ShieldedTx P)}
    (hc : db.stores.compute (env.tree.parent b) coinbase txs = .ok c) :
    ∃ t, ofLeaves (db.leavesAt env (env.tree.parent b) ++ c.outcome.subtree) = .ok t ∧
      c.frontierState = t.toState ∧ c.anchor = t.anchor := by
  obtain ⟨tree, t, htree, spec, hfront, -⟩ := compute_ok hc
  obtain ⟨tp, htp, hload⟩ := h.loadTree laws hparent
  obtain rfl : tp = tree := Option.some.inj (hload.symm.trans htree)
  exact ⟨t, appendSubtree_ofLeaves htp spec.tree, hfront, spec.anchor⟩

theorem treeSnapshots_step (laws : FrontierLaws P) (hcom : db.Committed env) (h : db.TreeSnapshots env)
    (hstep : db.ManagerStep env db') : db'.TreeSnapshots env := by
  cases hstep with
  | move hcommits hsame =>
    obtain ⟨stores', statuses', commits'⟩ := db'
    obtain ⟨nfs, rfl⟩ := hsame
    obtain rfl : commits' = db.commits := hcommits
    exact ⟨h.frontier, h.batch⟩
  | @commit b coinbase txs c hroot hparent hnew hc =>
    obtain ⟨t, ht, hfront, hanchor⟩ := h.computed laws hparent hc
    rw [← hcom.leavesAt_commit_self hnew hparent hroot] at ht
    refine ⟨?_, ?_⟩
    · intro x hx
      rcases hasUtxoDiff_commit_iff.mp hx with rfl | hx
      · exact ⟨t, ht, frontierAt_commit_self laws (hcom.fresh hnew) ht hfront⟩
      · have hsame : (db.commitUtxoState b (some c)).stores.frontierAt x = db.stores.frontierAt x :=
          (db.stores.frontierAt_persist b x c).trans (if_neg fun h => ne_of_new hx hnew h.2)
        rw [hcom.leavesAt_commit hnew hx, hsame]
        exact h.frontier hx
    · intro e he
      rcases mem_cons.mp he with rfl | he
      · exact ⟨t, ht, hfront, hanchor⟩
      · rw [hcom.leavesAt_commit hnew (hasUtxoDiff_iff.mpr (mem_map_of_mem he))]
        exact h.batch e he

/-! ## Accumulators -/

def MuHashSnapshots (env : ChainEnv P) (db : VirtualDb P) : Prop :=
  ∀ b, db.hasUtxoDiff b →
    db.stores.loadNullifierMuhash b = ofList (env.tree.chainKeys db.stores.getDiff b)

theorem muHashSnapshots_genesis (env : ChainEnv P) (statuses : Hash → BlockStatus) :
    (genesis env.tree.root statuses : VirtualDb P).MuHashSnapshots env := by
  intro b _
  have hnil : env.tree.chainKeys (genesis env.tree.root statuses : VirtualDb P).stores.getDiff b = [] :=
    flatMap_eq_nil_iff.mpr fun _ _ => rfl
  rw [hnil]
  rfl

/-- The accumulator a batch writes is the one it computed: only that of no nullifiers is left out. -/
theorem loadNullifierMuhash_commit_self (ideal : MuHashIdeal P) {nfs : List NullifierBytes}
    (hfresh : db.stores.NoRecord b) (hc : c.nullifierMuhash = ofList nfs) :
    (db.commitUtxoState b (some c)).stores.loadNullifierMuhash b = ofList nfs := by
  show (db.stores.persist b c).loadNullifierMuhash b = _
  rw [loadNullifierMuhash_persist]
  by_cases hempty : c.nullifierMuhash.finalize = MuHash.EMPTY_MUHASH P
  · rw [if_neg (fun h => h.1 hempty), loadNullifierMuhash, hfresh.muhash]
    rw [hc] at hempty
    have hperm : nfs.Perm [] := ideal.injective nfs [] hempty
    rw [perm_nil.mp hperm]
    rfl
  · rw [if_pos ⟨hempty, rfl⟩, hc]
    exact fromUint3072_of_tryInto (tryInto_ofList nfs)

theorem muHashSnapshots_step (ideal : MuHashIdeal P) (hcom : db.Committed env) (h : db.MuHashSnapshots env)
    (hstep : db.ManagerStep env db') : db'.MuHashSnapshots env := by
  cases hstep with
  | move hcommits hsame =>
    obtain ⟨stores', statuses', commits'⟩ := db'
    obtain ⟨nfs, rfl⟩ := hsame
    obtain rfl : commits' = db.commits := hcommits
    exact h
  | @commit b coinbase txs c hroot hparent hnew hc =>
    intro x hx
    rcases hasUtxoDiff_commit_iff.mp hx with rfl | hx
    · obtain ⟨-, -, -, -, -, hadd⟩ := compute_ok hc
      rw [h _ hparent, addAll_ofList, ofList_perm perm_append_comm] at hadd
      rw [hcom.chainKeys_commit_self hnew hparent hroot]
      exact loadNullifierMuhash_commit_self ideal (hcom.fresh hnew) hadd
    · rw [hcom.chainKeys_commit hnew hx, ← h x hx]
      exact (db.stores.loadNullifierMuhash_persist b x c).trans (if_neg fun h => ne_of_new hx hnew h.2)

/-! ## The anchor index -/

/-- Does a batch index a root? -/
def indexes (anchor : P.Anchor) (e : Hash × Option (ComputedBlockShielded P)) : Bool :=
  match e.2 with
  | some c => decide (c.frontierState.size > 0) && decide (c.anchor = anchor)
  | none => false

/-- The index holds the block that last wrote a root. -/
def AnchorIndexed (db : VirtualDb P) : Prop :=
  ∀ anchor, db.stores.anchorBlock anchor = (db.commits.find? (indexes anchor)).map (·.1)

theorem anchorIndexed_genesis (root : Hash) (statuses : Hash → BlockStatus) :
    (genesis root statuses : VirtualDb P).AnchorIndexed := fun _ => rfl

theorem anchorIndexed_step (h : db.AnchorIndexed) (hstep : db.ManagerStep env db') : db'.AnchorIndexed := by
  intro anchor
  cases hstep with
  | move hcommits hsame =>
    obtain ⟨nfs, hstores⟩ := hsame
    rw [hstores, hcommits]
    exact h anchor
  | @commit b coinbase txs c hroot hparent hnew hc =>
    show (db.stores.persist b c).anchorBlock anchor = (((b, some c) :: db.commits).find? (indexes anchor)).map (·.1)
    rw [persist_eq, find?_cons]
    by_cases hw : c.frontierState.size > 0 ∧ anchor = c.anchor
    · simp [indexes, hw]
    · simp [indexes, hw, h anchor, eq_comm, ← Bool.decide_and]

/-- Over collision-free roots the index maps the root of a leaf sequence to the block last committed with
that sequence. -/
theorem anchorBlock_eq_lastWith (laws : FrontierLaws P) (cf : CollisionFree P) (hidx : db.AnchorIndexed)
    (h : db.TreeSnapshots env) (hne : leaves ≠ [])
    (ht : ofLeaves leaves = .ok t) : db.stores.anchorBlock t.anchor = db.lastWith env leaves := by
  rw [hidx t.anchor, lastWith]
  congr 1
  refine find?_congr fun e he => ?_
  have hbatch := h.batch e he
  rw [Bool.eq_iff_iff, decide_eq_true_eq]
  unfold indexes
  cases hc : e.2 with
  | none =>
    simp only [hc] at hbatch
    simp [hbatch, Ne.symm hne]
  | some c =>
    simp only [hc] at hbatch
    obtain ⟨u, hu, hfront, hanchor⟩ := hbatch
    simp only [Bool.and_eq_true, decide_eq_true_eq]
    constructor
    · rintro ⟨-, heq⟩
      exact cf.anchor_injective hu ht (hanchor.symm.trans heq)
    · intro heq
      rw [heq] at hu
      obtain rfl : u = t := Except.ok.inj (hu.symm.trans ht)
      have hpos : leaves.length ≠ 0 := fun h0 => hne (eq_nil_of_length_eq_zero h0)
      rw [hfront, toState_size laws hu]
      exact ⟨by omega, hanchor⟩

/-- What the index holds is the root of a non-empty leaf sequence. -/
theorem exists_leaves_of_anchorBlock (laws : FrontierLaws P) (hidx : db.AnchorIndexed) (h : db.TreeSnapshots env)
    {anchor : P.Anchor} (hb : db.stores.anchorBlock anchor = some b) :
    db.hasUtxoDiff b ∧ db.leavesAt env b ≠ [] ∧
      ∃ t, ofLeaves (db.leavesAt env b) = .ok t ∧ t.anchor = anchor := by
  rw [hidx anchor, Option.map_eq_some_iff] at hb
  obtain ⟨e, hfind, rfl⟩ := hb
  have hmem := mem_of_find?_eq_some hfind
  have hind := find?_some hfind
  have hbatch := h.batch e hmem
  unfold indexes at hind
  cases hc : e.2 with
  | none => simp [hc] at hind
  | some c =>
    simp only [hc, Bool.and_eq_true, decide_eq_true_eq] at hind hbatch
    obtain ⟨t, ht, hfront, hanchor⟩ := hbatch
    refine ⟨hasUtxoDiff_iff.mpr (mem_map_of_mem hmem), ?_, t, ht, hanchor.symm.trans hind.2⟩
    intro hnil
    rw [hfront, toState_size laws ht, hnil] at hind
    exact absurd hind.1 (by simp)

end VirtualDb

/-! ## Every run -/

namespace VirtualNode

variable {n : VirtualNode P} {statuses : Hash → BlockStatus} {es : List Event}

theorem run_placed (h : (genesis env statuses).run env es = some n) : n.Placed env :=
  (db_run (placed_genesis env statuses) trivial (fun _ _ _ _ _ => trivial) h).1

theorem run_treeSnapshots (laws : FrontierLaws P) (h : (genesis env statuses).run env es = some n) :
    n.db.TreeSnapshots env :=
  (db_run (placed_genesis env statuses) (treeSnapshots_genesis laws env statuses)
    (fun _ _ hcom hI hstep => treeSnapshots_step laws hcom hI (.of_dbStep hstep)) h).2

theorem run_muHashSnapshots (ideal : MuHashIdeal P) (h : (genesis env statuses).run env es = some n) :
    n.db.MuHashSnapshots env :=
  (db_run (placed_genesis env statuses) (muHashSnapshots_genesis env statuses)
    (fun _ _ hcom hI hstep => muHashSnapshots_step ideal hcom hI (.of_dbStep hstep)) h).2

theorem run_anchorIndexed (h : (genesis env statuses).run env es = some n) : n.db.AnchorIndexed :=
  (db_run (placed_genesis env statuses) (anchorIndexed_genesis _ statuses)
    (fun _ _ _ hI hstep => anchorIndexed_step hI (.of_dbStep hstep)) h).2

end VirtualNode

end Firecash
