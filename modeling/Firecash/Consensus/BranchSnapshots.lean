import Firecash.Consensus.Reorg
import Firecash.Consensus.Snapshots

/-!
# Snapshots belong to their branch

The manager alone, without the validation around it: blocks of a tree are computed from their selected
parent while the global set stands there, and persisted, with reverts and re-applications of any stored
diff in between. Each of the four snapshot stores is written only when there is something to write and
reads a missing key as the default.

`snapshots_intrinsic`: whatever the interleaving of the branches, what is read back for a persisted block
is what was computed for it, and is determined by the blocks of its own chain.
-/

namespace Firecash

open List Option ShieldedStores

variable {P : Prim} {env : ChainEnv P}

/-- `ComputedBlockShielded::state_root` -/
def ComputedBlockShielded.stateRoot (c : ComputedBlockShielded P) : P.StateRoot :=
  P.shieldedStateRoot c.anchor c.nullifierMuhash.finalize c.supplyTotals.cumulativeCoinbase
    c.supplyTotals.cumulativeFees

/-- What each block of a tree is computed from. -/
structure BlockInputs (P : Prim) where
  coinbase : Hash → Option (CoinbaseMint P)
  txs : Hash → List (ShieldedTx P)

inductive ManagerCall where
  /-- `compute` against the selected parent, and `persist` if it succeeds. -/
  | compute (block : Hash)
  | revert (block : Hash)
  | apply (block : Hash)

namespace VirtualDb

/-- A block is computed once, after its selected parent, while the global set is the union of the diffs on
the parent's chain; `none`: not so, or a panic. -/
def managerCall (env : ChainEnv P) (inputs : BlockInputs P) (db : VirtualDb P) : ManagerCall → Option (VirtualDb P)
  | .compute b =>
    let parent := env.tree.parent b
    if b ≠ env.tree.root ∧ db.hasUtxoDiff b = false ∧ db.hasUtxoDiff parent = true ∧
        db.stores.nullifiers = db.nullifiersAt env parent then
      match db.stores.compute parent (inputs.coinbase b) (inputs.txs b) with
      | .ok c => some (db.commitUtxoState b (some c))
      | .error (.err _) => some db
      | .error .panic => none
    else none
  | .revert b => some { db with stores := db.stores.revertNullifiersFromStore b }
  | .apply b => some { db with stores := db.stores.applyNullifiersFromStore b }

def managerRun (env : ChainEnv P) (inputs : BlockInputs P) (db : VirtualDb P) : List ManagerCall → Option (VirtualDb P)
  | [] => some db
  | e :: es => do
    let db ← db.managerCall env inputs e
    db.managerRun env inputs es

/-! ## What the blocks of a chain amount to -/

variable (env : ChainEnv P) (inputs : BlockInputs P) (db : VirtualDb P)

/-- The transactions a persisted block applied. -/
def blockTransactions (x : Hash) : List (ShieldedTx P) :=
  match db.computedAt x with
  | some c => selectTxs (inputs.txs x) c.outcome.accepted
  | none => []

/-- The notes a persisted block minted. -/
def blockNotes (x : Hash) : List (CoinbaseNote P) :=
  match db.computedAt x with
  | some _ => mintedNotes (inputs.coinbase x)
  | none => []

/-- The leaves of a persisted block: its coinbase notes, then the commitments of what it applied. -/
def blockLeaves (x : Hash) : List P.Cmx :=
  (db.blockNotes inputs x).map (·.commitment) ++ txCommitments (db.blockTransactions inputs x)

/-- The leaves of a chain, genesis first. -/
def chainLeaves (b : Hash) : List P.Cmx := (env.tree.chain b).reverse.flatMap (db.blockLeaves inputs)

/-- The nullifiers of a chain. -/
def chainNullifiers (b : Hash) : List NullifierBytes :=
  (env.tree.chain b).flatMap fun x => txNullifiers (db.blockTransactions inputs x)

/-- What a chain minted, and the fees of what it applied. -/
def chainSupply (b : Hash) : SupplyTotals where
  cumulativeCoinbase := ((env.tree.chain b).map fun x => Checked.natSum ((db.blockNotes inputs x).map (·.value))).sum
  cumulativeFees := ((env.tree.chain b).map fun x => txFees (db.blockTransactions inputs x)).sum

/-! ## The invariant -/

/-- Every record belongs to the computation that wrote it, and the supply is that of the chain. -/
structure BranchRecords : Prop where
  committed : db.Committed env
  frontiers : db.TreeSnapshots env
  accumulators : db.MuHashSnapshots env
  diffs : ∀ x, db.stores.getDiff x = txNullifiers (db.blockTransactions inputs x)
  subtrees : ∀ x, db.subtreeOf x = db.blockLeaves inputs x
  supply : ∀ x, db.hasUtxoDiff x → db.stores.supplyTotalsAt x = db.chainSupply env inputs x
  /-- What is read back is what was computed. -/
  readBack : ∀ x c, db.computedAt x = some c → db.stores.frontierAt x = c.frontierState ∧
    db.stores.supplyTotalsAt x = c.supplyTotals ∧ db.stores.loadNullifierMuhash x = c.nullifierMuhash

variable {env inputs db} {db' : VirtualDb P} {b x : Hash} {c : ComputedBlockShielded P} {e : ManagerCall}

/-- Specification of a call: it moves the global set, or computes and persists a new block. -/
theorem managerCall_inv (h : db.managerCall env inputs e = some db') :
    (db'.commits = db.commits ∧ db.stores.SameRecords db'.stores) ∨
      ∃ b c, b ≠ env.tree.root ∧ db.hasUtxoDiff b = false ∧ db.hasUtxoDiff (env.tree.parent b) = true ∧
        db.stores.compute (env.tree.parent b) (inputs.coinbase b) (inputs.txs b) = .ok c ∧
        db' = db.commitUtxoState b (some c) := by
  cases e with
  | revert b =>
    cases h
    exact .inl ⟨rfl, _, rfl⟩
  | apply b =>
    cases h
    exact .inl ⟨rfl, _, rfl⟩
  | compute b =>
    simp only [managerCall] at h
    split at h
    case isFalse => cases h
    case isTrue hguard =>
      obtain ⟨hroot, hnew, hparent, -⟩ := hguard
      cases hc : db.stores.compute (env.tree.parent b) (inputs.coinbase b) (inputs.txs b) with
      | ok c =>
        simp only [hc] at h
        exact .inr ⟨b, c, hroot, hnew, hparent, hc, (some.inj h).symm⟩
      | error e =>
        cases e with
        | panic => simp [hc] at h
        | err e =>
          simp only [hc] at h
          cases h
          exact .inl ⟨rfl, _, rfl⟩

theorem branchRecords_genesis (laws : FrontierLaws P) (statuses : Hash → BlockStatus) :
    (genesis env.tree.root statuses : VirtualDb P).BranchRecords env inputs := by
  have hnone : ∀ x, (genesis env.tree.root statuses : VirtualDb P).computedAt x = none := by
    intro x
    by_cases hx : x = env.tree.root
    · subst hx
      exact computedAt_commit_self _ _ _
    · exact computedAt_commit_of_ne _ hx
  refine ⟨committed_genesis statuses, treeSnapshots_genesis laws env statuses, muHashSnapshots_genesis env statuses,
    ?_, ?_, ?_, ?_⟩
  · intro x
    rw [blockTransactions, hnone]
    rfl
  · intro x
    rw [subtreeOf, blockLeaves, blockNotes, blockTransactions, hnone]
    rfl
  · intro x _
    have hnotes : ∀ y, (genesis env.tree.root statuses : VirtualDb P).blockNotes inputs y = [] := by
      intro y
      rw [blockNotes, hnone]
    have htxs : ∀ y, (genesis env.tree.root statuses : VirtualDb P).blockTransactions inputs y = [] := by
      intro y
      rw [blockTransactions, hnone]
    rw [chainSupply]
    simp only [hnotes, htxs]
    simp [txFees, genesis, commitUtxoState, supplyTotalsAt, empty, SupplyLedger.new]
  · intro x c hc
    rw [hnone] at hc
    cases hc

/-! ### A commit -/

section Commit

variable {coinbase : Option (CoinbaseMint P)} {txs : List (ShieldedTx P)}

theorem blockTransactions_commit_of_ne (h : x ≠ b) :
    (db.commitUtxoState b (some c)).blockTransactions inputs x = db.blockTransactions inputs x := by
  rw [blockTransactions, computedAt_commit_of_ne _ h]
  rfl

theorem blockNotes_commit_of_ne (h : x ≠ b) :
    (db.commitUtxoState b (some c)).blockNotes inputs x = db.blockNotes inputs x := by
  rw [blockNotes, computedAt_commit_of_ne _ h]
  rfl

theorem blockTransactions_commit_self :
    (db.commitUtxoState b (some c)).blockTransactions inputs b = selectTxs (inputs.txs b) c.outcome.accepted := by
  rw [blockTransactions, computedAt_commit_self]

theorem blockNotes_commit_self :
    (db.commitUtxoState b (some c)).blockNotes inputs b = mintedNotes (inputs.coinbase b) := by
  rw [blockNotes, computedAt_commit_self]

theorem Committed.chainSupply_commit (h : db.Committed env) (hnew : db.hasUtxoDiff b = false) (hx : db.hasUtxoDiff x) :
    (db.commitUtxoState b (some c)).chainSupply env inputs x = db.chainSupply env inputs x := by
  have hne : ∀ y ∈ env.tree.chain x, y ≠ b := by
    rintro y hy rfl
    exact h.notMem_chain_of_new hx hnew hy
  unfold chainSupply
  congr 2
  · refine map_congr_left fun y hy => ?_
    rw [blockNotes_commit_of_ne (hne y hy)]
  · refine map_congr_left fun y hy => ?_
    rw [blockTransactions_commit_of_ne (hne y hy)]

/-- The supply of a computed block is its parent's with its own notes and fees. -/
theorem Committed.chainSupply_commit_self (h : db.Committed env) (hnew : db.hasUtxoDiff b = false)
    (hparent : db.hasUtxoDiff (env.tree.parent b)) (hroot : b ≠ env.tree.root) :
    (db.commitUtxoState b (some c)).chainSupply env inputs b =
      ⟨(db.chainSupply env inputs (env.tree.parent b)).cumulativeCoinbase + totalMint (inputs.coinbase b),
        (db.chainSupply env inputs (env.tree.parent b)).cumulativeFees +
          txFees (selectTxs (inputs.txs b) c.outcome.accepted)⟩ := by
  have hchain : (db.commitUtxoState b (some c)).chainSupply env inputs (env.tree.parent b) =
      db.chainSupply env inputs (env.tree.parent b) := h.chainSupply_commit hnew hparent
  rw [← hchain]
  unfold chainSupply
  rw [ChainTree.chain_of_ne_root hroot]
  simp only [map_cons, sum_cons, blockNotes_commit_self, blockTransactions_commit_self, totalMint]
  rw [Nat.add_comm, Nat.add_comm (txFees _)]

/-- The supply a batch writes is the one it computed: only zero totals are left out. -/
theorem supplyTotalsAt_commit_self (hfresh : db.stores.NoRecord b) :
    (db.commitUtxoState b (some c)).stores.supplyTotalsAt b = c.supplyTotals := by
  show (db.stores.persist b c).supplyTotalsAt b = _
  rw [supplyTotalsAt_persist]
  by_cases hpos : c.supplyTotals.cumulativeCoinbase > 0 ∨ c.supplyTotals.cumulativeFees > 0
  · rw [if_pos ⟨hpos, rfl⟩]
  · rw [if_neg (fun h => hpos h.1), supplyTotalsAt, hfresh.supply]
    obtain ⟨h1, h2⟩ := not_or.mp hpos
    ext
    · show 0 = c.supplyTotals.cumulativeCoinbase
      omega
    · show 0 = c.supplyTotals.cumulativeFees
      omega

theorem readBack_commit_of_ne (db : VirtualDb P) (c : ComputedBlockShielded P) (h : x ≠ b) :
    (db.commitUtxoState b (some c)).stores.frontierAt x = db.stores.frontierAt x ∧
      (db.commitUtxoState b (some c)).stores.supplyTotalsAt x = db.stores.supplyTotalsAt x ∧
      (db.commitUtxoState b (some c)).stores.loadNullifierMuhash x = db.stores.loadNullifierMuhash x :=
  ⟨(db.stores.frontierAt_persist b x c).trans (if_neg fun hw => h hw.2),
    (db.stores.supplyTotalsAt_persist b x c).trans (if_neg fun hw => h hw.2),
    (db.stores.loadNullifierMuhash_persist b x c).trans (if_neg fun hw => h hw.2)⟩

theorem branchRecords_commit (laws : FrontierLaws P) (ideal : MuHashIdeal P) (h : db.BranchRecords env inputs)
    (hroot : b ≠ env.tree.root) (hnew : db.hasUtxoDiff b = false) (hparent : db.hasUtxoDiff (env.tree.parent b))
    (hc : db.stores.compute (env.tree.parent b) (inputs.coinbase b) (inputs.txs b) = .ok c) :
    (db.commitUtxoState b (some c)).BranchRecords env inputs := by
  have hstep : db.ManagerStep env (db.commitUtxoState b (some c)) := .commit hroot hparent hnew hc
  have hfresh := h.committed.fresh hnew
  obtain ⟨tree, tree', -, spec, -, hmu⟩ := compute_ok hc
  refine ⟨h.committed.commit hnew hparent c, treeSnapshots_step laws h.committed h.frontiers hstep,
    muHashSnapshots_step ideal h.committed h.accumulators hstep, ?_, ?_, ?_, ?_⟩
  · intro x
    show (db.stores.persist b c).getDiff x = _
    rw [persist_getDiff c hfresh.getDiff]
    by_cases hx : x = b
    · subst hx
      rw [Function.update_self, blockTransactions_commit_self, spec.accepted]
      exact spec.nullifiers
    · rw [Function.update_of_ne hx, blockTransactions_commit_of_ne hx]
      exact h.diffs x
  · intro x
    by_cases hx : x = b
    · subst hx
      rw [subtreeOf, computedAt_commit_self, blockLeaves, blockNotes_commit_self, blockTransactions_commit_self,
        spec.accepted]
      exact spec.subtree
    · rw [subtreeOf, computedAt_commit_of_ne _ hx, blockLeaves, blockNotes_commit_of_ne hx,
        blockTransactions_commit_of_ne hx]
      exact h.subtrees x
  · intro x hx
    rcases hasUtxoDiff_commit_iff.mp hx with rfl | hx
    · rw [supplyTotalsAt_commit_self hfresh, h.committed.chainSupply_commit_self hnew hparent hroot,
        ← h.supply _ hparent, spec.accepted]
      ext
      · exact spec.coinbase
      · exact spec.fees
    · rw [(readBack_commit_of_ne db c (ne_of_new hx hnew)).2.1, h.committed.chainSupply_commit hnew hx]
      exact h.supply x hx
  · intro x c' hc'
    by_cases hx : x = b
    · subst hx
      rw [computedAt_commit_self] at hc'
      cases hc'
      obtain ⟨t, ht, hfront, -⟩ := h.frontiers.computed laws hparent hc
      rw [h.accumulators _ hparent, MuHash.addAll_ofList] at hmu
      refine ⟨?_, supplyTotalsAt_commit_self hfresh, ?_⟩
      · rw [frontierAt_commit_self laws hfresh ht hfront, hfront]
      · rw [loadNullifierMuhash_commit_self ideal hfresh hmu, hmu]
    · rw [computedAt_commit_of_ne _ hx] at hc'
      obtain ⟨h1, h2, h3⟩ := readBack_commit_of_ne db c hx
      rw [h1, h2, h3]
      exact h.readBack x c' hc'

end Commit

theorem branchRecords_step (laws : FrontierLaws P) (ideal : MuHashIdeal P) (h : db.BranchRecords env inputs)
    (hstep : db.managerCall env inputs e = some db') : db'.BranchRecords env inputs := by
  rcases managerCall_inv hstep with ⟨hcommits, hsame⟩ | ⟨b, c, hroot, hnew, hparent, hc, rfl⟩
  · have hmove : db.ManagerStep env db' := .move hcommits hsame
    have hcommitted := h.committed.congr hcommits hsame
    have hfrontiers := treeSnapshots_step laws h.committed h.frontiers hmove
    have haccumulators := muHashSnapshots_step ideal h.committed h.accumulators hmove
    obtain ⟨stores', statuses', commits'⟩ := db'
    obtain ⟨nfs, rfl⟩ := hsame
    obtain rfl : commits' = db.commits := hcommits
    exact ⟨hcommitted, hfrontiers, haccumulators, h.diffs, h.subtrees, h.supply, h.readBack⟩
  · exact branchRecords_commit laws ideal h hroot hnew hparent hc

theorem branchRecords_run (laws : FrontierLaws P) (ideal : MuHashIdeal P) (h : db.BranchRecords env inputs)
    {es : List ManagerCall} (hrun : db.managerRun env inputs es = some db') : db'.BranchRecords env inputs := by
  induction es generalizing db with
  | nil =>
    cases hrun
    exact h
  | cons e es ih =>
    simp only [managerRun, bind_eq_bind, bind_eq_some_iff] at hrun
    obtain ⟨db₁, hstep, hrun⟩ := hrun
    exact ih (branchRecords_step laws ideal h hstep) hrun

theorem mem_commits_of_computedAt (h : db.computedAt b = some c) : (b, some c) ∈ db.commits := by
  obtain ⟨l₁, l₂, hsplit, -⟩ := lookup_eq_some_iff.mp (join_eq_some_iff.mp h)
  rw [hsplit]
  simp

/-- **Snapshots belong to their branch.** After any run of the manager from genesis, over any tree of blocks
and any interleaving of its branches, every persisted block has the state root that was computed for it,
the frontier of the leaves of its chain in order, the supply its chain minted and burned, and the
accumulator of exactly the nullifiers of its chain. -/
theorem snapshots_intrinsic (laws : FrontierLaws P) (ideal : MuHashIdeal P) {statuses : Hash → BlockStatus}
    {es : List ManagerCall} (hrun : (genesis env.tree.root statuses).managerRun env inputs es = some db)
    (hb : db.computedAt b = some c) :
    db.stores.stateRootAt b = some c.stateRoot ∧
      (∃ t, GlobalTree.ofLeaves (db.chainLeaves env inputs b) = .ok t ∧ db.stores.frontierAt b = t.toState) ∧
      db.stores.supplyTotalsAt b = db.chainSupply env inputs b ∧
      db.stores.loadNullifierMuhash b = MuHash.ofList (db.chainNullifiers env inputs b) := by
  have h := branchRecords_run laws ideal (branchRecords_genesis laws statuses) hrun
  have hmem := mem_commits_of_computedAt hb
  have hpersisted : db.hasUtxoDiff b := hasUtxoDiff_iff.mpr (mem_map_of_mem hmem)
  obtain ⟨hfrontier, hsupply, hmuhash⟩ := h.readBack b c hb
  have hleaves : db.leavesAt env b = db.chainLeaves env inputs b := flatMap_congr fun x _ => h.subtrees x
  have hnfs : env.tree.chainKeys db.stores.getDiff b = db.chainNullifiers env inputs b :=
    flatMap_congr fun x _ => h.diffs x
  obtain ⟨t, ht, hfront, hanchor⟩ := h.frontiers.batch _ hmem
  refine ⟨?_, ⟨t, hleaves ▸ ht, hfrontier.trans hfront⟩, h.supply b hpersisted, hnfs ▸ h.accumulators b hpersisted⟩
  unfold stateRootAt loadTree
  rw [hfrontier, hfront, GlobalTree.fromState_toState laws ht, hsupply, hmuhash]
  simp only [Except.toOption, bind_eq_bind, bind_some, Option.pure_def, ComputedBlockShielded.stateRoot, hanchor]

/-- On the tree of `forkNet`: block `1` mints a note, `2` and its competitor `4` spend the nullifier `7`, and `3`
has nothing of its own. -/
def forkInputs : BlockInputs symbolic where
  coinbase b := if b = 1 then some ⟨[⟨50, 51⟩]⟩ else none
  txs b := if b = 2 then [⟨[7], [52], 3, []⟩] else if b = 4 then [⟨[7], [53], 4, []⟩] else []

/-- The branch of `3` is computed and reverted, and the branch of `4` computed over it. -/
def bothBranches : List ManagerCall := [.compute 1, .compute 2, .compute 3, .revert 3, .revert 2, .compute 4]

/-- The empty block `3` reads the records of its own chain after the other branch was computed. -/
theorem bothBranches_intrinsic :
    ∃ db c, (genesis forkNet.tree.root pendingAll).managerRun forkNet forkInputs bothBranches = some db ∧
    db.computedAt 3 = some c ∧ db.hasUtxoDiff 4 = true ∧ db.stores.stateRootAt 3 = some c.stateRoot ∧
    db.stores.supplyTotalsAt 3 = db.chainSupply forkNet forkInputs 3 ∧
    db.stores.loadNullifierMuhash 3 = MuHash.ofList (db.chainNullifiers forkNet forkInputs 3) := by
  have hrun : ((genesis forkNet.tree.root pendingAll).managerRun forkNet forkInputs bothBranches).map
      (fun db => ((db.computedAt 3).isSome, db.hasUtxoDiff 4)) = some (true, true) := by decide
  obtain ⟨db, hrun, hdb⟩ := map_eq_some_iff.mp hrun
  obtain ⟨hsome, hfour⟩ := Prod.mk.inj hdb
  obtain ⟨c, hc⟩ := isSome_iff_exists.mp hsome
  obtain ⟨hroot, -, hsupply, hmuhash⟩ := snapshots_intrinsic symbolic_frontierLaws symbolic_muHashIdeal hrun hc
  exact ⟨db, c, hrun, hc, hfour, hroot, hsupply, hmuhash⟩

end VirtualDb

end Firecash
