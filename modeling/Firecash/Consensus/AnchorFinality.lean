import Firecash.Consensus.Reorg
import Firecash.Consensus.Snapshots

/-!
# Anchor finality across nodes

`is_shielded_anchor_final` decides which spends a block applies, so two nodes have to give the same
answer to the same question. The answer reads the anchor index, which is one global map with the last
writer winning, and the node's own GHOSTDAG and reachability stores, of which a missing entry is
taken to mean a final source.

* Arrival order (`anchorFinality_agrees_iff`): two unpruned nodes agree on every question about common
  blocks exactly if among the blocks with one leaf sequence they committed the same one last. Siblings
  that merge the same blocks with the same coinbase payload share a leaf sequence
  (`siblings_disagree`).
* Pruning (`prunedFinality_eq_iff`): a node that deleted blocks below its pruning point agrees on a
  question exactly if the source is kept, or is on the pruning point's chain and deep enough. An
  anchor of a branch that lost is neither (`prunedSibling_disagrees`).
-/

namespace Firecash

variable {P : Prim} {env : ChainEnv P}

open ChainTree GlobalTree Option VirtualNode

/-- On an unpruned node an anchor is final if it is the empty one, or its source is on the selected
parent's chain and deep enough. -/
theorem isShieldedAnchorFinal_full {index : P.Anchor → Option Hash} {anchor : P.Anchor} {sp : Hash} {blueScore : Nat} :
    isShieldedAnchorFinal env.fullView env.shieldedAnchorDepth index anchor sp blueScore = true ↔
      anchor = P.emptyAnchor ∨ ∃ source, index anchor = some source ∧ source ∈ env.tree.chain sp ∧
        env.shieldedAnchorDepth ≤ blueScore - (env.gd source).blueScore := by
  unfold isShieldedAnchorFinal ChainEnv.fullView
  by_cases he : anchor = P.emptyAnchor
  · simp [he]
  · cases hs : index anchor with
    | none => simp [he]
    | some source =>
      by_cases hm : source ∈ env.tree.chain sp
      · simp [he, hm]
      · have hne : source ≠ sp := by
          rintro rfl
          exact hm (env.tree.mem_chain_self _)
        simp [hne]

/-! ## Arrival order -/

namespace VirtualNode

/-- `is_shielded_anchor_final` on a node that has deleted nothing. -/
def anchorFinal (env : ChainEnv P) (n : VirtualNode P) (anchor : P.Anchor) (selectedParent : Hash)
    (blueScore : Nat) : Bool :=
  isShieldedAnchorFinal env.fullView env.shieldedAnchorDepth n.db.stores.anchorBlock anchor selectedParent blueScore

variable {n m : VirtualNode P}

/-- The index of a node whose snapshots are right, by leaf sequences. -/
structure LeafIndexed (env : ChainEnv P) (n : VirtualNode P) : Prop where
  committed : n.db.Committed env
  lookup : ∀ {leaves : List P.Cmx} {t : GlobalTree P}, leaves ≠ [] → ofLeaves leaves = .ok t →
    n.db.stores.anchorBlock t.anchor = n.db.lastWith env leaves
  source : ∀ {anchor : P.Anchor} {b : Hash}, n.db.stores.anchorBlock anchor = some b →
    ∃ leaves t, leaves ≠ [] ∧ ofLeaves leaves = .ok t ∧ t.anchor = anchor

variable {statuses : Hash → BlockStatus} {es : List Event}

theorem run_leafIndexed (laws : FrontierLaws P) (cf : CollisionFree P)
    (h : (genesis env statuses).run env es = some n) : n.LeafIndexed env where
  committed := (run_placed h).committed
  lookup := fun hne ht =>
    VirtualDb.anchorBlock_eq_lastWith laws cf (run_anchorIndexed h) (run_treeSnapshots laws h) hne ht
  source := by
    intro anchor b hb
    obtain ⟨-, hne, t, ht, ha⟩ :=
      VirtualDb.exists_leaves_of_anchorBlock laws (run_anchorIndexed h) (run_treeSnapshots laws h) hb
    exact ⟨_, t, hne, ht, ha⟩

variable {leaves : List P.Cmx}

/-- The last writer of a leaf sequence has it. -/
theorem tree_of_lastWith (laws : FrontierLaws P)
    (h : (genesis env statuses).run env es = some n) {b : Hash}
    (hb : n.db.lastWith env leaves = some b) : ∃ t, ofLeaves leaves = .ok t := by
  obtain ⟨e, hfind, rfl⟩ := map_eq_some_iff.mp hb
  have hleaves : n.db.leavesAt env e.1 = leaves := by simpa using List.find?_some hfind
  have hcom : n.db.hasUtxoDiff e.1 :=
    VirtualDb.hasUtxoDiff_iff.mpr (List.mem_map_of_mem (List.mem_of_find?_eq_some hfind))
  obtain ⟨t, ht, -⟩ := (run_treeSnapshots laws h).frontier hcom
  exact ⟨t, hleaves ▸ ht⟩

variable {t : GlobalTree P}

theorem anchor_ne_empty (cf : CollisionFree P) (hne : leaves ≠ [])
    (ht : ofLeaves leaves = .ok t) : t.anchor ≠ P.emptyAnchor := by
  intro he
  rw [cf.emptyAnchor_eq] at he
  exact hne (cf.anchor_injective ht rfl he)

/-- A yes on one node is a yes on the other, if they agree on the last writer of every leaf sequence. -/
theorem anchorFinal_of_lastWith (hn : n.LeafIndexed env) (hm : m.LeafIndexed env)
    (hlast : ∀ leaves b, leaves ≠ [] → n.db.hasUtxoDiff b → m.db.hasUtxoDiff b → n.db.lastWith env leaves = some b →
      m.db.lastWith env leaves = some b)
    {anchor : P.Anchor} {sp : Hash} {blueScore : Nat} (hspn : n.db.hasUtxoDiff sp) (hspm : m.db.hasUtxoDiff sp)
    (h : n.anchorFinal env anchor sp blueScore = true) : m.anchorFinal env anchor sp blueScore = true := by
  rcases isShieldedAnchorFinal_full.mp h with he | ⟨source, hs, hsp, hdeep⟩
  · exact isShieldedAnchorFinal_full.mpr (Or.inl he)
  · obtain ⟨leaves, t, hne, ht, rfl⟩ := hn.source hs
    rw [hn.lookup hne ht] at hs
    -- the source is on the chain of a block both have committed
    have hs' := hlast leaves source hne (hn.committed.mem_chain hspn hsp) (hm.committed.mem_chain hspm hsp) hs
    rw [← hm.lookup hne ht] at hs'
    exact isShieldedAnchorFinal_full.mpr (Or.inr ⟨source, hs', hsp, hdeep⟩)

/-- Two agreeing nodes have the same last writer of a leaf sequence: each one's writer is an ancestor of
the other's. -/
theorem lastWith_of_anchorFinal (cf : CollisionFree P) (hn : n.LeafIndexed env) (hm : m.LeafIndexed env)
    (hagree : ∀ anchor sp blueScore, n.db.hasUtxoDiff sp → m.db.hasUtxoDiff sp →
      n.anchorFinal env anchor sp blueScore = m.anchorFinal env anchor sp blueScore)
    (hne : leaves ≠ []) (ht : ofLeaves leaves = .ok t) {b : Hash}
    (hbn : n.db.hasUtxoDiff b) (hbm : m.db.hasUtxoDiff b) (hb : n.db.lastWith env leaves = some b) :
    m.db.lastWith env leaves = some b := by
  have hempty := anchor_ne_empty cf hne ht
  have hidx : n.db.stores.anchorBlock t.anchor = some b := (hn.lookup hne ht).trans hb
  have hyes : n.anchorFinal env t.anchor b (env.shieldedAnchorDepth + (env.gd b).blueScore) = true :=
    isShieldedAnchorFinal_full.mpr (Or.inr ⟨b, hidx, env.tree.mem_chain_self b, by omega⟩)
  rw [hagree _ _ _ hbn hbm] at hyes
  obtain ⟨s, hs, hsb, -⟩ := (isShieldedAnchorFinal_full.mp hyes).resolve_left hempty
  have hback : m.anchorFinal env t.anchor s (env.shieldedAnchorDepth + (env.gd s).blueScore) = true :=
    isShieldedAnchorFinal_full.mpr (Or.inr ⟨s, hs, env.tree.mem_chain_self s, by omega⟩)
  rw [← hagree _ _ _ (hn.committed.mem_chain hbn hsb) (hm.committed.mem_chain hbm hsb)] at hback
  obtain ⟨b', hb', hbs, -⟩ := (isShieldedAnchorFinal_full.mp hback).resolve_left hempty
  obtain rfl : b = b' := some.inj (hidx.symm.trans hb')
  obtain rfl : s = b := mem_chain_antisymm hsb hbs
  rw [← hm.lookup hne ht]
  exact hs

/-- **Arrival order.** Two nodes from genesis over one DAG answer alike, on every anchor, every common
selected parent and every blue score, if and only if for every non-empty leaf sequence a common block is
the last committed with it on the one exactly when it is on the other. -/
theorem anchorFinality_agrees_iff (laws : FrontierLaws P) (cf : CollisionFree P)
    {statuses₁ statuses₂ : Hash → BlockStatus}
    {es₁ es₂ : List Event} (h₁ : (genesis env statuses₁).run env es₁ = some n)
    (h₂ : (genesis env statuses₂).run env es₂ = some m) :
    (∀ anchor sp blueScore, n.db.hasUtxoDiff sp → m.db.hasUtxoDiff sp →
        n.anchorFinal env anchor sp blueScore = m.anchorFinal env anchor sp blueScore) ↔
      ∀ leaves b, leaves ≠ [] → n.db.hasUtxoDiff b → m.db.hasUtxoDiff b →
        (n.db.lastWith env leaves = some b ↔ m.db.lastWith env leaves = some b) := by
  have hn := run_leafIndexed laws cf h₁
  have hm := run_leafIndexed laws cf h₂
  constructor
  · intro hagree leaves b hne hbn hbm
    constructor
    · intro hb
      obtain ⟨t, ht⟩ := tree_of_lastWith laws h₁ hb
      exact lastWith_of_anchorFinal cf hn hm hagree hne ht hbn hbm hb
    · intro hb
      obtain ⟨t, ht⟩ := tree_of_lastWith laws h₂ hb
      exact lastWith_of_anchorFinal cf hm hn (fun a sp s hm hn => (hagree a sp s hn hm).symm) hne ht hbm hbn hb
  · intro hlast anchor sp blueScore hspn hspm
    rw [Bool.eq_iff_iff]
    constructor
    · exact anchorFinal_of_lastWith hn hm (fun leaves b hne h h' => (hlast leaves b hne h h').mp) hspn hspm
    · exact anchorFinal_of_lastWith hm hn (fun leaves b hne h h' => (hlast leaves b hne h' h).mpr) hspm hspn

theorem lastWith_eq_find {db : VirtualDb P} {entries : List (Hash × List P.Cmx)}
    (h : db.commits.map (fun e => (e.1, db.leavesAt env e.1)) = entries) (leaves : List P.Cmx) :
    db.lastWith env leaves = (entries.find? fun e => e.2 = leaves).map (·.1) := by
  rw [← h, List.find?_map, map_map]
  rfl

/-- Two orders on `forkNet`: the branch `2`, `3` first and then `4`, or `3` last. -/
def forkOrder₁ : List Event := .start 3 :: forkTicks 5 ++ .start 4 :: forkTicks 5

def forkOrder₂ : List Event := .start 2 :: forkTicks 4 ++ .start 4 :: forkTicks 4 ++ .start 3 :: forkTicks 5

/-- In both orders `4` is written after its sibling `2`, so the nodes agree. -/
theorem forkOrders_agree : ∃ n m, (genesis forkNet pendingAll).run forkNet forkOrder₁ = some n ∧
    (genesis forkNet pendingAll).run forkNet forkOrder₂ = some m ∧
    ∀ anchor sp blueScore, n.db.hasUtxoDiff sp → m.db.hasUtxoDiff sp →
      n.anchorFinal forkNet anchor sp blueScore = m.anchorFinal forkNet anchor sp blueScore := by
  have hn : ((genesis forkNet pendingAll).run forkNet forkOrder₁).map
      (fun n => n.db.commits.map fun e => (e.1, n.db.leavesAt forkNet e.1)) =
        some [(4, [51, 52, 7]), (3, [51, 52, 7, 53]), (2, [51, 52, 7]), (1, [51]), (0, [])] := by decide
  have hm : ((genesis forkNet pendingAll).run forkNet forkOrder₂).map
      (fun n => n.db.commits.map fun e => (e.1, n.db.leavesAt forkNet e.1)) =
        some [(3, [51, 52, 7, 53]), (4, [51, 52, 7]), (2, [51, 52, 7]), (1, [51]), (0, [])] := by decide
  obtain ⟨n, hrunn, hn⟩ := map_eq_some_iff.mp hn
  obtain ⟨m, hrunm, hm⟩ := map_eq_some_iff.mp hm
  refine ⟨n, m, hrunn, hrunm, ?_⟩
  refine (anchorFinality_agrees_iff symbolic_frontierLaws symbolic_collisionFree hrunn hrunm).mpr ?_
  intro leaves b _ _ _
  rw [lastWith_eq_find hn, lastWith_eq_find hm]
  refine iff_of_eq (congrArg (· = some b) ?_)
  by_cases h3 : [51, 52, 7, 53] = leaves
  · subst h3
    decide
  · simp [List.find?_cons, h3]

/-- `2` and `4` are siblings that merge the same block with the same coinbase: they have one leaf sequence.
A node that commits `4` after `2` no longer finds it final below `2`; one that commits `2` last does. -/
theorem siblings_disagree :
    ((genesis forkNet pendingAll).run forkNet (.start 2 :: forkTicks 4 ++ .start 4 :: forkTicks 4)).map
        (fun n => (n.db.hasUtxoDiff 2, n.anchorFinal forkNet [51, 52, 7] 2 10)) = some (true, false) ∧
      ((genesis forkNet pendingAll).run forkNet (.start 4 :: forkTicks 4 ++ .start 2 :: forkTicks 4)).map
        (fun n => (n.db.hasUtxoDiff 2, n.anchorFinal forkNet [51, 52, 7] 2 10)) = some (true, true) := by
  decide

/-- **A final anchor is a confirmed root.** Whatever a node did, crashes included, it takes an anchor for
final only if it is the root of the leaves of a block on the selected chain, at least
`shielded_anchor_depth` below. -/
theorem anchorFinal_sound (laws : FrontierLaws P) (run : (genesis env statuses).run env es = some n)
    {anchor : P.Anchor} {sp : Hash} {blueScore : Nat}
    (final : n.anchorFinal env anchor sp blueScore = true) : anchor = P.emptyAnchor ∨ ∃ source ∈ env.tree.chain sp,
      env.shieldedAnchorDepth ≤ blueScore - (env.gd source).blueScore ∧ ∃ t, ofLeaves (n.db.leavesAt env source) =
        .ok t ∧ t.anchor = anchor := by
  refine (isShieldedAnchorFinal_full.mp final).imp_right fun ⟨source, indexed, chain, deep⟩ => ?_
  obtain ⟨-, -, root⟩ :=
    VirtualDb.exists_leaves_of_anchorBlock laws (run_anchorIndexed run) (run_treeSnapshots laws run) indexed
  exact ⟨source, chain, deep, root⟩

theorem anchorFinal_sound_fork : ∃ n, (genesis forkNet pendingAll).run forkNet reorgToFour = some n ∧
    ∃ source ∈ forkTree.chain 4, ∃ t, ofLeaves (n.db.leavesAt forkNet source) = .ok t ∧ t.anchor = [51] := by
  have reached :
      ((genesis forkNet pendingAll).run forkNet reorgToFour).any (·.anchorFinal forkNet [51] 4 2) := by decide
  obtain ⟨n, run, final⟩ := (any_eq_true _ _).mp reached
  rcases anchorFinal_sound symbolic_frontierLaws run final with empty | ⟨source, chain, -, root⟩
  · cases empty
  · exact ⟨n, run, source, chain, root⟩

end VirtualNode

/-! ## Pruning -/

/-- A node that has deleted the GHOSTDAG and reachability data of some blocks. -/
def ChainEnv.prunedView (env : ChainEnv P) (deleted : Hash → Bool) : NodeView where
  blueScore b := if deleted b then none else env.fullView.blueScore b
  tryIsChainAncestorOf a b := if deleted a || deleted b then none else env.fullView.tryIsChainAncestorOf a b

section Pruned

variable {index : P.Anchor → Option Hash} {pruningPoint b : Hash} {deleted : Hash → Bool}

/-- The blocks above the pruning point are kept. -/
theorem kept_of_mem_chain (hdeleted : ∀ b, deleted b → pruningPoint ∉ env.tree.chain b)
    (hb : pruningPoint ∈ env.tree.chain b) : deleted b = false := by
  cases hd : deleted b with
  | false => rfl
  | true => exact absurd hb (hdeleted b hd)

/-- A node that has kept an anchor's source and the selected parent answers as an unpruned one. -/
theorem prunedFinality_of_kept {anchor : P.Anchor} {sp source : Hash} (hs : index anchor = some source)
    (hsource : deleted source = false) (hsp : deleted sp = false) (blueScore : Nat) :
    isShieldedAnchorFinal (env.prunedView deleted) env.shieldedAnchorDepth index anchor sp blueScore =
      isShieldedAnchorFinal env.fullView env.shieldedAnchorDepth index anchor sp blueScore := by
  simp [isShieldedAnchorFinal, hs, ChainEnv.prunedView, hsource, hsp]

end Pruned

/-- **Pruning.** For every anchor index, every set of deleted blocks below the pruning point, every selected
parent above it and every blue score: the pruned node answers as the unpruned one if and only if the
anchor's source is not deleted, or it is on the pruning point's selected chain and at least
`shielded_anchor_depth` below the block. -/
theorem prunedFinality_eq_iff (env : ChainEnv P) (index : P.Anchor → Option Hash) (pruningPoint : Hash)
    (deleted : Hash → Bool) (hdeleted : ∀ b, deleted b → pruningPoint ∉ env.tree.chain b)
    (anchor : P.Anchor) (sp : Hash) (hsp : pruningPoint ∈ env.tree.chain sp) (blueScore : Nat) :
    isShieldedAnchorFinal (env.prunedView deleted) env.shieldedAnchorDepth index anchor sp blueScore =
        isShieldedAnchorFinal env.fullView env.shieldedAnchorDepth index anchor sp blueScore ↔
      anchor ≠ P.emptyAnchor → ∀ source, index anchor = some source → deleted source →
        source ∈ env.tree.chain pruningPoint ∧ env.shieldedAnchorDepth ≤ blueScore - (env.gd source).blueScore := by
  have hspkept : deleted sp = false := kept_of_mem_chain hdeleted hsp
  by_cases he : anchor = P.emptyAnchor
  · simp [isShieldedAnchorFinal, he]
  · cases hs : index anchor with
    | none => simp [isShieldedAnchorFinal, he, hs]
    | some source =>
      cases hd : deleted source with
      | false =>
        simp [prunedFinality_of_kept hs hd hspkept, hd]
      | true =>
        -- a deleted source is taken as final
        have hyes : isShieldedAnchorFinal (env.prunedView deleted) env.shieldedAnchorDepth index anchor sp blueScore =
            true := by
          simp [isShieldedAnchorFinal, he, hs, ChainEnv.prunedView, hd]
        have hchain : source ∈ env.tree.chain sp ↔ source ∈ env.tree.chain pruningPoint := by
          constructor
          · intro hm
            exact (mem_chain_total hm hsp).resolve_right (hdeleted source hd)
          · intro hm
            exact mem_chain_trans hm hsp
        rw [hyes, eq_comm, isShieldedAnchorFinal_full]
        simp [he, hs, hd, hchain]

/-- Resolve to `3`, which indexes its anchor, and then reorganise to `4`, the new pruning point. -/
def loseBranch : List Event :=
  .start 3 :: forkTicks 5 ++ .start 4 :: forkTicks 5 ++ [.commitVirtual]

/-- All of `forkNet` below or beside the pruning point `4`, genesis apart. -/
def belowFour (b : Hash) : Bool := b == 1 || b == 2 || b == 3

/-- The anchor of `1`, on the chain of `4`, is judged alike after `1` is deleted. -/
theorem prunedAncestor_agrees : ∃ n, (genesis forkNet pendingAll).run forkNet loseBranch = some n ∧
    n.db.stores.anchorBlock [51] = some 1 ∧
    isShieldedAnchorFinal (forkNet.prunedView belowFour) forkNet.shieldedAnchorDepth n.db.stores.anchorBlock [51] 4 10 =
      isShieldedAnchorFinal forkNet.fullView forkNet.shieldedAnchorDepth n.db.stores.anchorBlock [51] 4 10 := by
  have hidx : ((genesis forkNet pendingAll).run forkNet loseBranch).map
      (fun n => n.db.stores.anchorBlock [51]) = some (some 1) := by decide
  obtain ⟨n, hrun, hidx⟩ := map_eq_some_iff.mp hidx
  refine ⟨n, hrun, hidx,
    (prunedFinality_eq_iff forkNet n.db.stores.anchorBlock 4 belowFour ?_ [51] 4 (by decide) 10).mpr ?_⟩
  · intro b hb
    simp only [belowFour, Bool.or_eq_true, beq_iff_eq] at hb
    rcases hb with (rfl | rfl) | rfl <;> decide
  · intro _ source hs _
    obtain rfl : 1 = source := some.inj (hidx.symm.trans hs)
    decide

/-- The anchor of `3`, on the branch that lost, turns final for blocks on top of `4` once `3` is deleted. -/
theorem prunedSibling_disagrees :
    ((genesis forkNet pendingAll).run forkNet loseBranch).map
      (fun n => (n.sink, n.db.stores.anchorBlock [51, 52, 7, 53],
        isShieldedAnchorFinal forkNet.fullView forkNet.shieldedAnchorDepth n.db.stores.anchorBlock [51, 52, 7, 53] 4 10,
        isShieldedAnchorFinal (forkNet.prunedView belowFour) forkNet.shieldedAnchorDepth n.db.stores.anchorBlock
          [51, 52, 7, 53] 4 10)) = some (4, some 3, false, true) := by
  decide

end Firecash
