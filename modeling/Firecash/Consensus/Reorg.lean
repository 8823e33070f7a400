import Firecash.Consensus.NullifierWalk
import Firecash.Shielded.Symbolic

/-!
# Reorgs and crashes

The two consequences of the walk invariant. Without crashes the global nullifier set always describes
the block the walk is at, so a block is validated against exactly the nullifiers of its selected
parent's chain (`nullifierSet_follows_walk`). With crashes the same holds in the runs in which every
walk leads through the block at which the set was left (`crashed_validates_against_chain`); a restart that
moves on to another branch instead validates against a set that has lost nullifiers
(`crash_then_doubleSpend`).
-/

namespace Firecash

variable {P : Prim} {env : ChainEnv P}

namespace VirtualNode

variable {n n' : VirtualNode P}

/-- The block that the next tick validates, if it validates one. -/
def nextValidated (env : ChainEnv P) (n : VirtualNode P) : Option Hash :=
  match n.ctl with
  | .up diffPoint (current :: _) =>
    if env.tree.parent current = diffPoint ∧ n.db.hasUtxoDiff current = false ∧
        n.db.statuses current ≠ .disqualifiedFromChain then
      some current
    else none
  | _ => none

variable {block : Hash}

theorem nextValidated_eq_some :
    n.nextValidated env = some block ↔
      ∃ todo, n.ctl = .up (env.tree.parent block) (block :: todo) ∧ n.db.hasUtxoDiff block = false ∧
        n.db.statuses block ≠ .disqualifiedFromChain := by
  constructor
  · intro h
    unfold nextValidated at h
    split at h
    case h_1 d b todo hctl =>
      split at h
      case isTrue hb =>
        cases h
        exact ⟨todo, hb.1 ▸ hctl, hb.2⟩
      case isFalse => cases h
    case h_2 => cases h
  · rintro ⟨todo, hctl, hb⟩
    simp [nextValidated, hctl, hb]

/-- A block is validated against the nullifiers of its selected parent's chain. -/
theorem Inv.validating (inv : n.Inv env) (h : n.nextValidated env = some block) :
    n.db.stores.nullifiers = n.db.nullifiersAt env (env.gd block).selectedParent := by
  obtain ⟨todo, hctl, hnew, -⟩ := nextValidated_eq_some.mp h
  obtain ⟨db, sink, ctl, point⟩ := n
  subst hctl
  rw [env.gd_parent block (inv.todo List.mem_cons_self).ne_root]
  exact (inv.settled_of_new hnew).2

/-! ## Runs without crashes -/

/-- Without a crash the walk stays at the block at which the set stands. -/
theorem tracks_step {e : Event} (he : e ≠ .crash) (htr : n.point = n.ctl.position) (h : n.step env e = some n') :
    n'.point = n'.ctl.position := by
  cases step_inv h with
  | refuse => exact htr
  | start => exact htr
  | split => exact htr
  | revert => exact if_pos htr
  | arrive => exact htr
  | climb => exact if_pos htr
  | commitVirtual => exact htr
  | crash => exact absurd rfl he

theorem resumes_of_tracks (htr : n.point = n.ctl.position) (e : Event) : n.Resumes env e := by
  cases e with
  | start dst =>
    intro _
    rw [htr]
    exact ChainTree.onPath_self _ _
  | _ => trivial

theorem inv_run_of_no_crash {es : List Event} (hes : Event.crash ∉ es) (inv : n.Inv env)
    (htr : n.point = n.ctl.position) (h : n.run env es = some n') : n'.Inv env ∧ n'.point = n'.ctl.position := by
  induction es generalizing n with
  | nil =>
    cases h
    exact ⟨inv, htr⟩
  | cons e es ih =>
    simp only [run, Option.bind_eq_some_iff] at h
    obtain ⟨n₁, hstep, hrun⟩ := h
    rw [List.mem_cons, not_or] at hes
    exact ih hes.2 (inv_step inv (resumes_of_tracks htr e) hstep) (tracks_step (Ne.symm hes.1) htr hstep) hrun

/-- **The global nullifier set describes the diff point.** In every run without a crash, whatever calls
sink search issues and whatever the blocks' verdicts: between calls the set is that of the current
diff point, so is it on return of every call, the diffs along committed chains are pairwise disjoint, and
a block is partitioned and computed against the set of its selected parent. -/
theorem nullifierSet_follows_walk (env : ChainEnv P) (statuses : Hash → BlockStatus) {es : List Event}
    (hes : Event.crash ∉ es) {n : VirtualNode P} (hrun : (genesis env statuses).run env es = some n) :
    (∀ d, n.ctl = .idle d → n.db.stores.nullifiers = n.db.nullifiersAt env d) ∧
    (∀ view src dst d db', n.ctl = .idle src →
      calculateUtxoStateRelatively env view n.db src dst = some (d, db') →
        db'.stores.nullifiers = db'.nullifiersAt env d) ∧
    (∀ b, n.db.hasUtxoDiff b → (env.tree.chain b).Pairwise fun x y =>
      Disjoint (n.db.stores.getDiff x).toFinset (n.db.stores.getDiff y).toFinset) ∧
    ∀ b, n.nextValidated env = some b → n.db.stores.nullifiers = n.db.nullifiersAt env (env.gd b).selectedParent := by
  obtain ⟨inv, htr⟩ := inv_run_of_no_crash hes (inv_genesis env statuses) rfl hrun
  have hidle : ∀ m : VirtualNode P, m.Inv env → m.point = m.ctl.position → ∀ d, m.ctl = .idle d →
      m.db.stores.nullifiers = m.db.nullifiersAt env d := by
    intro m hm hpos d hd
    have hset := hm.settled hpos
    rw [hpos, hd] at hset
    exact hset
  refine ⟨hidle n inv htr, ?_, fun b hb => inv.wf.pairwise_disjoint hb, fun b hb => inv.validating hb⟩
  intro view src dst d db' hctl hcall
  obtain ⟨k, n', hrun', hd, rfl⟩ := relatively_run hctl hcall
  have hno : Event.crash ∉ Event.start dst :: List.replicate k (Event.tick view) := by simp
  obtain ⟨inv', htr'⟩ := inv_run_of_no_crash hno inv htr hrun'
  exact hidle n' inv' htr' d hd

end VirtualNode

/-! ### A small network

Every block merges its selected parent only, every coinbase pays the subsidy 50 of the merged parent to
one miner, and nothing is rejected by the rules outside the model. A block's transactions are
accepted by its children. -/

/-- A zero-value spend; like the dummy spends of a bundle it may prove against the empty tree. -/
def spendOf (id nf : Bytes32) (anchor : symbolic.Anchor) : Transaction symbolic :=
  ⟨id, TX_VERSION_SHIELDED, [], [], some ⟨[.plain nf nf], 0, anchor⟩⟩

def soloMiner : MinerData := ⟨⟨0, List.replicate 43 0⟩, []⟩

/-- `roots b` is the state root that the coinbase of `b` commits to, `txs b` the transactions of `b`. -/
def soloNet (tree : ChainTree Hash) (roots : Hash → symbolic.StateRoot) (txs : Hash → List (Transaction symbolic))
    (depth : Nat) : ChainEnv symbolic where
  tree := tree
  gd b := ⟨tree.height b, tree.parent b, [tree.parent b], [], rfl, by simp⟩
  gd_parent := fun _ _ => rfl
  daaScore := tree.height
  mergesetNonDaa := fun _ => ∅
  coinbaseManager := ⟨150, 0, fun _ => 50⟩
  shieldedCoinbase := true
  blueWork := tree.height
  bodies b :=
    ⟨⟨TX_VERSION_TOCCATA, [⟨50, soloMiner.scriptPublicKey⟩], ⟨tree.height b, 50, roots b, soloMiner⟩⟩, txs b⟩
  coinbaseId := fun coinbase => BitVec.ofNat 256 coinbase.payload.blueScore
  rules := fun _ _ _ _ => true
  utxoView := fun _ _ => none
  headerChecks := fun _ => .ok ()
  contextChecks := fun _ => .ok ()
  shieldedAnchorDepth := depth

/-- Genesis `0`, its child `1`, the children `2` and `4` of `1`, and the child `3` of `2`. -/
def forkTree : ChainTree Hash where
  root := 0
  parent b := if b = 3 then 2 else if b = 2 ∨ b = 4 then 1 else 0
  height b := if b = 0 then 0 else if b = 3 then 3 else if b = 2 ∨ b = 4 then 2 else 1
  height_root := rfl
  height_parent := by
    intro b hb
    by_cases h3 : b = 3
    · subst h3
      decide
    · by_cases h24 : b = 2 ∨ b = 4
      · rcases h24 with rfl | rfl <;> decide
      · simp only [if_neg hb, if_neg h3, if_neg h24]
        decide

/-- Blocks `1` and `2` carry a spend of the same nullifier `7`. -/
def forkNet : ChainEnv symbolic :=
  soloNet forkTree
    (fun b => if b = 3 then ([51, 52, 7], {7}, 100, 0) else if b = 1 then ([], 0, 0, 0) else ([51], 0, 50, 0))
    (fun b => if b = 1 then [spendOf 11 7 []] else if b = 2 then [spendOf 12 7 []] else []) 0

def pendingAll : Hash → BlockStatus := fun _ => .utxoPendingVerification

namespace VirtualNode

/-- `k` loop iterations on an unpruned node of `forkNet`. -/
def forkTicks (k : Nat) : List Event := List.replicate k (.tick forkNet.fullView)

/-- Resolve to `2` and make it the sink, then reorganise to `4`. -/
def reorgToFour : List Event := .start 2 :: forkTicks 4 ++ .commitVirtual :: .start 4 :: forkTicks 4

/-- Both branches spend `7`: the reorg takes it out of the set and puts it back. -/
theorem reorgToFour_nullifiers : ∃ n, (genesis forkNet pendingAll).run forkNet reorgToFour = some n ∧
    n.db.stores.getDiff 2 = [7] ∧ n.db.stores.getDiff 4 = [7] ∧
      n.db.stores.nullifiers = n.db.nullifiersAt forkNet 4 := by
  have hdiffs : ((genesis forkNet pendingAll).run forkNet reorgToFour).map
      (fun n => (n.ctl, n.db.stores.getDiff 2, n.db.stores.getDiff 4)) = some (.idle 4, [7], [7]) := by decide
  obtain ⟨n, hrun, hn⟩ := Option.map_eq_some_iff.mp hdiffs
  obtain ⟨hctl, h2, h4⟩ := by simpa only [Prod.mk.injEq] using hn
  have hno : Event.crash ∉ reorgToFour := by simp [reorgToFour, forkTicks]
  exact ⟨n, hrun, h2, h4, (nullifierSet_follows_walk forkNet pendingAll hno hrun).1 4 hctl⟩

/-! ## Runs with crashes -/

instance (env : ChainEnv P) (n : VirtualNode P) (e : Event) : Decidable (n.Resumes env e) := by
  cases e <;> unfold Resumes <;> infer_instance

/-- Every walk of the run leads through the block at which the nullifier set stands when it starts. -/
def RunResumes (env : ChainEnv P) : VirtualNode P → List Event → Prop
  | _, [] => True
  | n, e :: es =>
    n.Resumes env e ∧
      match n.step env e with
      | some n' => RunResumes env n' es
      | none => True

instance decidableRunResumes (env : ChainEnv P) :
    ∀ (n : VirtualNode P) (es : List Event), Decidable (RunResumes env n es)
  | _, [] => .isTrue trivial
  | n, e :: es => by
    unfold RunResumes
    have : ∀ n', Decidable (RunResumes env n' es) := fun n' => decidableRunResumes env n' es
    cases n.step env e <;> infer_instance

theorem inv_run {es : List Event} (inv : n.Inv env) (hres : RunResumes env n es) (h : n.run env es = some n') :
    n'.Inv env := by
  induction es generalizing n with
  | nil =>
    cases h
    exact inv
  | cons e es ih =>
    simp only [run, Option.bind_eq_some_iff] at h
    obtain ⟨n₁, hstep, hrun⟩ := h
    obtain ⟨hres, hrest⟩ := hres
    rw [hstep] at hrest
    exact ih (inv_step inv hres hstep) hrest hrun

/-- **Crash consistency, where the walk resumes.** If after every crash the walks lead through the block
at which the crash left the set, every block is validated against the nullifiers of its selected
parent's chain, and its verdict is that of a node that never crashed and holds the same records. -/
theorem crashed_validates_against_chain (env : ChainEnv P) (statuses : Hash → BlockStatus) {es : List Event}
    (hres : RunResumes env (genesis env statuses) es) {n : VirtualNode P}
    (hrun : (genesis env statuses).run env es = some n) (b : Hash) (hb : n.nextValidated env = some b) :
    n.db.stores.nullifiers = n.db.nullifiersAt env (env.gd b).selectedParent ∧
    ∀ (es' : List Event) (m : VirtualNode P), Event.crash ∉ es' → (genesis env statuses).run env es' = some m →
      m.nextValidated env = some b → m.db.stores = { n.db.stores with nullifiers := m.db.stores.nullifiers } →
        ∀ view, validateBlock env view n.db.stores b = validateBlock env view m.db.stores b := by
  have hset := (inv_run (inv_genesis env statuses) hres hrun).validating hb
  refine ⟨hset, ?_⟩
  intro es' m hno hrun' hb' hsame view
  have hset' := (inv_run_of_no_crash hno (inv_genesis env statuses) rfl hrun').1.validating hb'
  have hdiff : m.db.stores.getDiff = n.db.stores.getDiff := by
    rw [hsame]
    rfl
  have heq : m.db.stores.nullifiers = n.db.stores.nullifiers := by
    rw [hset, hset', VirtualDb.nullifiersAt, VirtualDb.nullifiersAt, hdiff]
  rw [hsame, heq]

/-- Stopped after the first revert of a reorg from `2` to `4`, and resumed. -/
def crashAndResume : List Event :=
  .start 2 :: forkTicks 4 ++ .commitVirtual :: .start 4 :: forkTicks 1 ++ .crash :: .start 4 :: forkTicks 2

theorem crashAndResume_validates : ∃ n, (genesis forkNet pendingAll).run forkNet crashAndResume = some n ∧
    n.nextValidated forkNet = some 4 ∧ n.db.stores.nullifiers = n.db.nullifiersAt forkNet 1 := by
  have hnext : ((genesis forkNet pendingAll).run forkNet crashAndResume).map (fun n => n.nextValidated forkNet) =
      some (some 4) := by decide
  obtain ⟨n, hrun, hnext⟩ := Option.map_eq_some_iff.mp hnext
  exact ⟨n, hrun, hnext, (crashed_validates_against_chain forkNet pendingAll (by decide) hrun 4 hnext).1⟩

/-- The same crash, after which `3` arrives on top of the sink `2`. -/
def crashAndExtend : List Event :=
  .start 2 :: forkTicks 4 ++ .commitVirtual :: .start 4 :: forkTicks 1 ++ .crash :: .start 3 :: forkTicks 1

/-- The reverted nullifier is missing: `3` is validated against the empty set, although `2` on its chain
spent `7`, and accepts a second spend of it. A node that did not crash drops that spend. -/
theorem crash_then_doubleSpend :
    ((genesis forkNet pendingAll).run forkNet crashAndExtend).map
        (fun n => (n.nextValidated forkNet, n.db.stores.nullifiers, n.db.nullifiersAt forkNet 2)) =
          some (some 3, ∅, {7}) ∧
      ((genesis forkNet pendingAll).run forkNet (crashAndExtend ++ forkTicks 2)).map
        (fun n => (n.ctl, n.db.stores.getDiff 2, n.db.stores.getDiff 3)) = some (.idle 3, [7], [7]) ∧
      ((genesis forkNet pendingAll).run forkNet (.start 3 :: forkTicks 5)).map
        (fun n => (n.ctl, n.db.stores.getDiff 2, n.db.stores.getDiff 3)) = some (.idle 3, [7], []) := by
  decide

end VirtualNode

end Firecash
