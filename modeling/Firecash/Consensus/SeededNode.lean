import Firecash.Consensus.FeeAccounting
import Firecash.Consensus.AnchorFinality
import Firecash.Consensus.PruningSync

/-!
# A seeded node beside a full node

A node that was seeded at a pruning point knows the frontier, supply, accumulator and nullifiers of that
block, and one anchor: its own. A full node's anchor index covers its whole history.

`Mirrors` relates a full node to one seeded at `pp` while both process blocks above `pp`: the same
place in the walk, the same nullifier set, snapshots and batches for the blocks above `pp`, and an
index that is part of the full node's. `mirrors_step` is the simulation step. It needs that the
seeded node can judge the anchors a block's spends prove against (`SpendsKnown`): an anchor that only
the full node has indexed is dropped by the seeded node, and the two part (`deepAnchor_splits`).
-/

namespace Firecash

open List Option Function ShieldedStores VirtualDb

variable {P : Prim} {env : ChainEnv P}

open ChainTree

/-! ## What a verdict depends on -/

namespace ShieldedStores

/-- The snapshots of a block agree. -/
structure AgreeAt (s t : ShieldedStores P) (block : Hash) : Prop where
  frontier : t.frontierAt block = s.frontierAt block
  supply : t.supplyTotalsAt block = s.supplyTotalsAt block
  muhash : t.loadNullifierMuhash block = s.loadNullifierMuhash block

variable {b : Hash}

section

variable {s t : ShieldedStores P}

theorem AgreeAt.persist (h : s.AgreeAt t b) (block : Hash)
    (c : ComputedBlockShielded P) : (s.persist block c).AgreeAt (t.persist block c) b where
  frontier := by rw [frontierAt_persist, frontierAt_persist, h.frontier]
  supply := by rw [supplyTotalsAt_persist, supplyTotalsAt_persist, h.supply]
  muhash := by rw [loadNullifierMuhash_persist, loadNullifierMuhash_persist, h.muhash]

theorem NoRecord.agreeAt (hs : s.NoRecord b) (ht : t.NoRecord b) : s.AgreeAt t b where
  frontier := by rw [frontierAt, frontierAt, hs.tree, ht.tree]
  supply := by rw [supplyTotalsAt, supplyTotalsAt, hs.supply, ht.supply]
  muhash := by rw [loadNullifierMuhash, loadNullifierMuhash, hs.muhash, ht.muhash]

theorem AgreeAt.stateRootAt (h : s.AgreeAt t b) :
    t.stateRootAt b = s.stateRootAt b := by
  rw [stateRootAt_eq, stateRootAt_eq, h.frontier, h.supply, h.muhash]

theorem contains_congr (h : t.nullifiers = s.nullifiers) : t.contains = s.contains := by
  funext nf
  simp [contains, h]

theorem AgreeAt.compute {sp : Hash} (h : s.AgreeAt t sp) (hset : t.nullifiers = s.nullifiers)
    (coinbase : Option (CoinbaseMint P)) (txs : List (ShieldedTx P)) :
    t.compute sp coinbase txs = s.compute sp coinbase txs := by
  have htree : t.loadTree sp = s.loadTree sp := by rw [loadTree, loadTree, h.frontier]
  have hsupply : t.loadSupply sp = s.loadSupply sp := by rw [loadSupply, loadSupply, h.supply]
  unfold ShieldedStores.compute
  rw [htree, hsupply, h.muhash, contains_congr hset]

end

/-- The mask reads the finality of spending transactions only. -/
theorem partitionFrom_congr {f g : ShieldedTx P → Bool} {txs : List (ShieldedTx P)} (r : Resolver)
    (h : ∀ stx ∈ txs, stx.nullifiers ≠ [] → g stx = f stx) : partitionFrom g r txs = partitionFrom f r txs := by
  induction txs generalizing r with
  | nil => rfl
  | cons stx txs ih =>
    have ih' : ∀ r, partitionFrom g r txs = partitionFrom f r txs :=
      fun r => ih r fun stx' hstx' => h stx' (mem_cons_of_mem _ hstx')
    have hguard : (stx.nullifiers.isEmpty || g stx) = (stx.nullifiers.isEmpty || f stx) := by
      by_cases hnil : stx.nullifiers = []
      · simp [hnil]
      · rw [h stx mem_cons_self hnil]
    simp only [partitionFrom, hguard, ih']

end ShieldedStores

/-- The context of a block depends on the nullifier set and on the finality of the collected spends. -/
theorem calculateUtxoState_congr {uenv : UtxoEnv P} {s t : ShieldedStores P} {gd : GhostdagData} {view : UtxoView}
    {f g : ShieldedTx P → Bool} (hset : t.nullifiers = s.nullifiers)
    (hfinal : ∀ p ∈ collectedTxs uenv gd view, p.1.nullifiers ≠ [] → g p.1 = f p.1) :
    calculateUtxoState uenv t gd view g = calculateUtxoState uenv s gd view f := by
  unfold calculateUtxoState
  cases hc : collectBlocks uenv ⟨[], fun _ => none⟩ (mergeset uenv gd view) with
  | none => rfl
  | some c =>
    have hcoll : c.shielded = collectedTxs uenv gd view := by
      simpa [collectedTxs] using (collectBlocks_ok (mergeset_nodup uenv gd view) hc).1
    have hmask : t.partitionApplied (c.shielded.map (·.1)) g = s.partitionApplied (c.shielded.map (·.1)) f := by
      unfold partitionApplied
      rw [contains_congr hset]
      refine partitionFrom_congr _ fun stx hstx hne => ?_
      obtain ⟨p, hp, rfl⟩ := mem_map.mp hstx
      exact hfinal p (hcoll ▸ hp) hne
    simp only [bind_eq_bind, bind_some, hmask]

variable {block : Hash}

/-- The verdict on a block with a given context depends on the set and the selected parent's snapshots. -/
theorem verifyExpectedUtxoState_congr {s t : ShieldedStores P} (hset : t.nullifiers = s.nullifiers)
    (hagree : s.AgreeAt t (env.gd block).selectedParent) (ctx : UtxoProcessingContext P) :
    verifyExpectedUtxoState env t block ctx = verifyExpectedUtxoState env s block ctx := by
  have hcoinbase : verifyCoinbaseTransaction env t block ctx.mergesetRewards =
      verifyCoinbaseTransaction env s block ctx.mergesetRewards := by
    unfold verifyCoinbaseTransaction
    simp only [hagree.stateRootAt]
  have hcompute := hagree.compute hset
  unfold verifyExpectedUtxoState
  simp only [hcoinbase, hcompute, hagree.supply]

/-- Two nodes judge a block alike, if they have the same set and the same snapshots of its selected parent and
agree on the anchors of its spends. -/
theorem validateBlock_congr {v w : NodeView} {s t : ShieldedStores P} (hset : t.nullifiers = s.nullifiers)
    (hagree : s.AgreeAt t (env.gd block).selectedParent)
    (hfinal : ∀ p ∈ collectedTxs (env.utxoEnv block) (env.gd block) (env.utxoView block), p.1.nullifiers ≠ [] →
      isShieldedAnchorFinal w env.shieldedAnchorDepth t.anchorBlock p.1.anchor (env.gd block).selectedParent
          (env.gd block).blueScore =
        isShieldedAnchorFinal v env.shieldedAnchorDepth s.anchorBlock p.1.anchor (env.gd block).selectedParent
          (env.gd block).blueScore) :
    blockContext env w t block = blockContext env v s block ∧
      validateBlock env w t block = validateBlock env v s block := by
  have hctx : blockContext env w t block = blockContext env v s block := calculateUtxoState_congr hset hfinal
  refine ⟨hctx, ?_⟩
  unfold validateBlock
  rw [hctx]
  cases blockContext env v s block with
  | none => rfl
  | some ctx => exact verifyExpectedUtxoState_congr hset hagree ctx

/-! ## The relation -/

/-- A database seeded at `pp` beside a full one, as far as blocks above `pp` are concerned. -/
structure DbMirrors (env : ChainEnv P) (pp : Hash) (full seeded : VirtualDb P) : Prop where
  committed : ∀ x, env.tree.Below pp x → seeded.hasUtxoDiff x = full.hasUtxoDiff x
  disqualified : ∀ x, pp ∈ env.tree.chain x →
    (seeded.statuses x = .disqualifiedFromChain ↔ full.statuses x = .disqualifiedFromChain)
  nullifiers : seeded.stores.nullifiers = full.stores.nullifiers
  diffs : ∀ x, env.tree.Below pp x → seeded.stores.getDiff x = full.stores.getDiff x
  snapshots : ∀ x, pp ∈ env.tree.chain x → full.stores.AgreeAt seeded.stores x
  batches : ∀ x, env.tree.Below pp x → seeded.computedAt x = full.computedAt x
  /-- The seeded index is part of the full one, and its sources are not below `pp`. -/
  index : ∀ anchor source, seeded.stores.anchorBlock anchor = some source →
    full.stores.anchorBlock anchor = some source ∧ pp ∈ env.tree.chain source

namespace DbMirrors

variable {pp b q : Hash} {full seeded : VirtualDb P}

theorem revert (h : DbMirrors env pp full seeded) (hq : env.tree.Below pp q) :
    DbMirrors env pp { full with stores := full.stores.revertNullifiersFromStore q }
      { seeded with stores := seeded.stores.revertNullifiersFromStore q } :=
  { h with
    nullifiers := by
      simp only [revertNullifiersFromStore, deleteNullifiers_nullifiers, h.diffs q hq,
        h.nullifiers]
    snapshots := fun x hx => ⟨(h.snapshots x hx).frontier, (h.snapshots x hx).supply, (h.snapshots x hx).muhash⟩ }

section

variable (h : DbMirrors env pp full seeded)
include h

theorem reapply (hb : env.tree.Below pp b) :
    DbMirrors env pp { full with stores := full.stores.applyNullifiersFromStore b }
      { seeded with stores := seeded.stores.applyNullifiersFromStore b } :=
  { h with
    nullifiers := by
      simp only [applyNullifiersFromStore, insertNullifiers_nullifiers, h.diffs b hb,
        h.nullifiers]
    snapshots := fun x hx => ⟨(h.snapshots x hx).frontier, (h.snapshots x hx).supply, (h.snapshots x hx).muhash⟩ }

theorem setStatus (b : Hash) (status : BlockStatus) :
    DbMirrors env pp (full.setStatus b status) (seeded.setStatus b status) :=
  { h with
    disqualified := by
      intro x hx
      by_cases hxb : x = b
      · subst hxb
        simp [VirtualDb.setStatus]
      · simpa [VirtualDb.setStatus, hxb] using h.disqualified x hx }

end

theorem commit (h : DbMirrors env pp full seeded) (hb : pp ∈ env.tree.chain b) (c : ComputedBlockShielded P) :
    DbMirrors env pp (full.commitUtxoState b (some c)) (seeded.commitUtxoState b (some c)) where
  committed := by
    intro x hx
    rw [hasUtxoDiff_commit, hasUtxoDiff_commit, h.committed x hx]
  disqualified := (h.setStatus b .utxoValid).disqualified
  nullifiers := by
    show (seeded.stores.persist b c).nullifiers = (full.stores.persist b c).nullifiers
    rw [persist_eq, persist_eq, h.nullifiers]
  diffs := by
    intro x hx
    show (seeded.stores.persist b c).getDiff x = (full.stores.persist b c).getDiff x
    rw [getDiff_persist, getDiff_persist, h.diffs x hx]
  snapshots := fun x hx => (h.snapshots x hx).persist b c
  batches := by
    intro x hx
    by_cases hxb : x = b
    · subst hxb
      rw [computedAt_commit_self, computedAt_commit_self]
    · rw [computedAt_commit_of_ne _ hxb, computedAt_commit_of_ne _ hxb, h.batches x hx]
  index := by
    intro anchor source hs
    show (full.stores.persist b c).anchorBlock anchor = some source ∧ _
    have hs' : (seeded.stores.persist b c).anchorBlock anchor = some source := hs
    simp only [persist_eq] at hs' ⊢
    split at hs'
    case isTrue here =>
      cases hs'
      exact ⟨if_pos here, hb⟩
    case isFalse other =>
      rw [if_neg other]
      exact h.index anchor source hs'

/-- Where the seeded node can judge an anchor, it judges as the full node: it has kept the blocks above
`pp`. -/
theorem anchorFinal (h : DbMirrors env pp full seeded) {deleted : Hash → Bool}
    (hdeleted : ∀ x, deleted x → pp ∉ env.tree.chain x) {sp : Hash} (hsp : pp ∈ env.tree.chain sp) {anchor : P.Anchor}
    {blueScore : Nat}
    (hknown : anchor = P.emptyAnchor ∨ seeded.stores.anchorBlock anchor ≠ none ∨
      isShieldedAnchorFinal env.fullView env.shieldedAnchorDepth full.stores.anchorBlock anchor sp blueScore = false) :
    isShieldedAnchorFinal (env.prunedView deleted) env.shieldedAnchorDepth seeded.stores.anchorBlock anchor
      sp blueScore =
      isShieldedAnchorFinal env.fullView env.shieldedAnchorDepth full.stores.anchorBlock anchor sp blueScore := by
  by_cases he : anchor = P.emptyAnchor
  · simp [isShieldedAnchorFinal, he]
  · cases hs : seeded.stores.anchorBlock anchor with
    | none =>
      have hno := (hknown.resolve_left he).resolve_left (not_not.mpr hs)
      rw [hno]
      simp [isShieldedAnchorFinal, he, hs]
    | some source =>
      obtain ⟨hfull, hsource⟩ := h.index anchor source hs
      rw [prunedFinality_of_kept hs (kept_of_mem_chain hdeleted hsource) (kept_of_mem_chain hdeleted hsp)]
      simp [isShieldedAnchorFinal, hs, hfull]

end DbMirrors

namespace VirtualNode

structure Mirrors (env : ChainEnv P) (pp : Hash) (full seeded : VirtualNode P) : Prop where
  ctl : seeded.ctl = full.ctl
  position : pp ∈ env.tree.chain full.ctl.position
  target : ∀ q dst, full.ctl = .down q dst → pp ∈ env.tree.chain dst
  todo : ∀ x ∈ full.ctl.todo, env.tree.Below pp x
  db : DbMirrors env pp full.db seeded.db

/-- The seeded node can judge every anchor that the spends of the block about to be validated prove against:
it is the empty one, or indexed, or the full node rejects it too. -/
def SpendsKnown (env : ChainEnv P) (full seeded : VirtualNode P) : Prop :=
  match full.nextValidated env with
  | none => True
  | some block => ∀ p ∈ collectedTxs (env.utxoEnv block) (env.gd block) (env.utxoView block), p.1.nullifiers ≠ [] →
      p.1.anchor = P.emptyAnchor ∨ seeded.db.stores.anchorBlock p.1.anchor ≠ none ∨
        full.anchorFinal env p.1.anchor (env.gd block).selectedParent (env.gd block).blueScore = false

theorem Mirrors.validate {pp : Hash} {full seeded : VirtualNode P} (h : Mirrors env pp full seeded)
    {deleted : Hash → Bool} (hdeleted : ∀ x, deleted x → pp ∉ env.tree.chain x) (hknown : SpendsKnown env full seeded)
    {block : Hash} (hnext : full.nextValidated env = some block) :
    blockContext env (env.prunedView deleted) seeded.db.stores block =
      blockContext env env.fullView full.db.stores block ∧
      validateBlock env (env.prunedView deleted) seeded.db.stores block =
        validateBlock env env.fullView full.db.stores block := by
  obtain ⟨todo, hctl, -⟩ := nextValidated_eq_some.mp hnext
  have hblock : env.tree.Below pp block := h.todo block (by simp [hctl, Ctl.todo])
  have hsp : pp ∈ env.tree.chain (env.gd block).selectedParent := by
    rw [env.gd_parent block hblock.ne_root]
    exact hblock.mem_chain_parent
  unfold SpendsKnown at hknown
  rw [hnext] at hknown
  refine validateBlock_congr h.db.nullifiers (h.db.snapshots _ hsp) fun p hp hne => ?_
  exact h.db.anchorFinal hdeleted hsp (hknown p hp hne)

theorem upStep_mirrors {pp diffPoint b next : Hash} {v w : NodeView} {full seeded full' : VirtualDb P}
    (h : DbMirrors env pp full seeded) (hb : env.tree.Below pp b)
    (hvalid : env.tree.parent b = diffPoint → full.hasUtxoDiff b = false → full.statuses b ≠ .disqualifiedFromChain →
      validateBlock env w seeded.stores b = validateBlock env v full.stores b)
    (hup : upStep env v diffPoint full b = some (next, full')) :
    ∃ seeded', upStep env w diffPoint seeded b = some (next, seeded') ∧ DbMirrors env pp full' seeded' := by
  have hdisq := h.disqualified b hb.1
  unfold upStep at hup ⊢
  by_cases hp : env.tree.parent b = diffPoint
  · rw [if_neg (not_not.mpr hp)] at hup ⊢
    rw [h.committed b hb]
    cases hd : full.hasUtxoDiff b with
    | true =>
      rw [hd, if_pos rfl] at hup
      cases hup
      exact ⟨_, rfl, h.reapply hb⟩
    | false =>
      rw [hd, if_neg (by decide)] at hup
      by_cases hst : full.statuses b = .disqualifiedFromChain
      · rw [if_pos hst] at hup
        rw [if_pos (hdisq.mpr hst)]
        cases hup
        exact ⟨_, rfl, h⟩
      · rw [if_neg hst] at hup
        rw [if_neg (fun hs => hst (hdisq.mp hs)), hvalid hp hd hst]
        cases hv : validateBlock env v full.stores b with
        | error e =>
          cases e with
          | panic => simp [hv] at hup
          | err e =>
            simp only [hv] at hup
            cases hup
            exact ⟨_, rfl, h.setStatus b _⟩
        | ok c =>
          simp only [hv] at hup
          cases hup
          exact ⟨_, rfl, h.commit hb.1 c⟩
  · rw [if_pos hp] at hup ⊢
    by_cases hst : full.statuses b = .disqualifiedFromChain
    · rw [if_neg (not_not.mpr hst)] at hup
      rw [if_neg (not_not.mpr (hdisq.mpr hst))]
      cases hup
      exact ⟨_, rfl, h⟩
    · rw [if_pos hst] at hup
      rw [if_pos (fun hs => hst (hdisq.mp hs))]
      cases hup
      exact ⟨_, rfl, h.setStatus b _⟩

/-! ## Simulation -/

/-- The same event on a node with another view. -/
def withView (view : NodeView) : Event → Event
  | .tick _ => .tick view
  | e => e

/-- Events above a pruning point: sink search only considers its descendants, and nothing crashes. -/
def Above (env : ChainEnv P) (pp : Hash) : Event → Prop
  | .start dst => pp ∈ env.tree.chain dst
  | .crash => False
  | _ => True

variable {pp : Hash} {full seeded full' : VirtualNode P} {deleted : Hash → Bool}

section Pruned

variable (hdeleted : ∀ x, deleted x → pp ∉ env.tree.chain x)

include hdeleted

theorem mirrors_tick (h : Mirrors env pp full seeded) (hknown : SpendsKnown env full seeded)
    (htick : full.step env (.tick env.fullView) = some full') :
    ∃ seeded', seeded.step env (.tick (env.prunedView deleted)) = some seeded' ∧ Mirrors env pp full' seeded' := by
  obtain ⟨sdb, ssink, sctl, spoint⟩ := seeded
  cases step_inv htick with
  | @split db sink q dst point view hq =>
    obtain rfl : sctl = .down q dst := h.ctl
    refine ⟨⟨sdb, ssink, .up q (env.tree.above q dst), spoint⟩, if_pos hq, rfl,
      h.position, by simp, fun x hx => ?_, h.db⟩
    exact ((pairwise_cons.mp (ascends_above hq).pairwise).1 x hx).of_mem_chain h.position
  | @revert db sink q dst point view hq hdiff =>
    obtain rfl : sctl = .down q dst := h.ctl
    have hdst : pp ∈ env.tree.chain dst := h.target q dst rfl
    have hpq : env.tree.Below pp q := ⟨h.position, fun he => hq (he ▸ hdst)⟩
    have hsdiff : sdb.hasUtxoDiff q = true := (h.db.committed q hpq).trans hdiff
    refine ⟨⟨{ sdb with stores := sdb.stores.revertNullifiersFromStore q }, ssink, .down (env.tree.parent q) dst,
      if spoint = q then env.tree.parent q else spoint⟩, ?_, rfl, hpq.mem_chain_parent, ?_, by simp [Ctl.todo],
      h.db.revert hpq⟩
    · simp only [step, tick, if_neg hq, revertStep, hsdiff, if_true, bind_eq_bind, bind_some]
    · rintro q' dst' hctl
      cases hctl
      exact hdst
  | @arrive db sink d point view =>
    obtain rfl : sctl = .up d [] := h.ctl
    exact ⟨_, rfl, rfl, h.position, by simp, by simp [Ctl.todo], h.db⟩
  | @climb db db' sink d b next point todo view hup =>
    obtain rfl : sctl = .up d (b :: todo) := h.ctl
    have hb : env.tree.Below pp b := h.todo b mem_cons_self
    have hvalid : env.tree.parent b = d → db.hasUtxoDiff b = false → db.statuses b ≠ .disqualifiedFromChain →
        validateBlock env (env.prunedView deleted) sdb.stores b = validateBlock env env.fullView db.stores b := by
      rintro rfl hnew hst
      exact (h.validate hdeleted hknown (nextValidated_eq_some.mpr ⟨todo, rfl, hnew, hst⟩)).2
    obtain ⟨sdb', hsup, hdb⟩ := upStep_mirrors h.db hb hvalid hup
    refine ⟨⟨sdb', ssink, .up next todo, if spoint = d then next else spoint⟩, ?_, rfl, ?_, by simp, ?_, hdb⟩
    · simp [step, tick, hsup]
    · cases upStep_inv hup with
      | skip => exact h.position
      | reapply => exact hb.1
      | commit => exact hb.1
    · exact fun x hx => h.todo x (mem_cons_of_mem _ hx)

theorem mirrors_step {e : Event} (h : Mirrors env pp full seeded) (habove : Above env pp e)
    (hknown : SpendsKnown env full seeded) (hstep : full.step env (withView env.fullView e) = some full') :
    ∃ seeded', seeded.step env (withView (env.prunedView deleted) e) = some seeded' ∧ Mirrors env pp full' seeded' := by
  cases e with
  | tick view => exact mirrors_tick hdeleted h hknown hstep
  | crash => exact habove.elim
  | start dst =>
    obtain ⟨sdb, ssink, sctl, spoint⟩ := seeded
    have hdisq := h.db.disqualified dst habove
    cases step_inv hstep with
    | @refuse db sink d dst point hst =>
      obtain rfl : sctl = .idle d := h.ctl
      exact ⟨_, if_pos (hdisq.mpr hst), h⟩
    | @start db sink d dst point hst =>
      obtain rfl : sctl = .idle d := h.ctl
      refine ⟨⟨sdb, ssink, .down d dst, spoint⟩, if_neg fun hs => hst (hdisq.mp hs), rfl, h.position, ?_,
        by simp [Ctl.todo], h.db⟩
      rintro q dst' hctl
      cases hctl
      exact habove
  | commitVirtual =>
    obtain ⟨sdb, ssink, sctl, spoint⟩ := seeded
    cases step_inv hstep with
    | @commitVirtual db sink d point =>
      obtain rfl : sctl = .idle d := h.ctl
      exact ⟨_, rfl, rfl, h.position, by simp, by simp [Ctl.todo], h.db⟩

/-- Along the run of both nodes, the seeded node can judge the anchors of every block that is validated. -/
def RunKnown (env : ChainEnv P) (deleted : Hash → Bool) : VirtualNode P → VirtualNode P → List Event → Prop
  | _, _, [] => True
  | full, seeded, e :: es =>
    SpendsKnown env full seeded ∧
      match full.step env (withView env.fullView e), seeded.step env (withView (env.prunedView deleted) e) with
      | some full', some seeded' => RunKnown env deleted full' seeded' es
      | _, _ => True

instance (env : ChainEnv P) (full seeded : VirtualNode P) : Decidable (SpendsKnown env full seeded) := by
  unfold SpendsKnown
  cases full.nextValidated env <;> infer_instance

instance decidableRunKnown (env : ChainEnv P) (deleted : Hash → Bool) :
    ∀ (full seeded : VirtualNode P) (es : List Event), Decidable (RunKnown env deleted full seeded es)
  | _, _, [] => .isTrue trivial
  | full, seeded, e :: es => by
    unfold RunKnown
    have : ∀ full' seeded', Decidable (RunKnown env deleted full' seeded' es) :=
      fun full' seeded' => decidableRunKnown env deleted full' seeded' es
    cases full.step env (withView env.fullView e) <;>
      cases seeded.step env (withView (env.prunedView deleted) e) <;> infer_instance

theorem mirrors_run {es : List Event} (h : Mirrors env pp full seeded) (habove : ∀ e ∈ es, Above env pp e)
    (hknown : RunKnown env deleted full seeded es)
    (hrun : full.run env (es.map (withView env.fullView)) = some full') :
    ∃ seeded', seeded.run env (es.map (withView (env.prunedView deleted))) = some seeded' ∧
      Mirrors env pp full' seeded' := by
  induction es generalizing full seeded with
  | nil =>
    cases hrun
    exact ⟨seeded, rfl, h⟩
  | cons e es ih =>
    simp only [map_cons, run, bind_eq_some_iff] at hrun ⊢
    obtain ⟨full₁, hstep, hrun⟩ := hrun
    obtain ⟨hspends, hrest⟩ := hknown
    obtain ⟨seeded₁, hstep', h₁⟩ := mirrors_step hdeleted h (habove e mem_cons_self) hspends hstep
    simp only [hstep, hstep'] at hrest
    obtain ⟨seeded', hrun', h'⟩ := ih h₁ (fun e' he' => habove e' (mem_cons_of_mem _ he')) hrest hrun
    exact ⟨seeded', ⟨seeded₁, hstep', hrun'⟩, h'⟩

end Pruned

theorem Mirrors.nextValidated (h : Mirrors env pp full seeded) : seeded.nextValidated env = full.nextValidated env := by
  have hiff : ∀ block, seeded.nextValidated env = some block ↔ full.nextValidated env = some block := by
    intro block
    simp only [nextValidated_eq_some, h.ctl]
    refine exists_congr fun todo => and_congr_right fun hctl => ?_
    have hblock : env.tree.Below pp block := h.todo block (by simp [hctl, Ctl.todo])
    rw [h.db.committed block hblock, ne_eq, ne_eq, h.db.disqualified block hblock.1]
  exact ext hiff

/-! ## From the seed on -/

/-- A node after the import of pruning point `pp`. The import writes no utxo diff for `pp`. -/
def seededNode (pp : Hash) (stores : ShieldedStores P) (statuses : Hash → BlockStatus) (ctl : Ctl) : VirtualNode P :=
  ⟨⟨stores, statuses, []⟩, pp, ctl, pp⟩

section Seed

variable {codec : MetadataCodec P} {statuses seededStatuses : Hash → BlockStatus} {history : List Event}
  {metadata : ShieldedExportMetadata codec} {nullifiers : List NullifierBytes} {stores : ShieldedStores P}

variable (ideal : MuHashIdeal P) (hcodec : codec.RoundTrips)
  (hhistory : (genesis env statuses).run env history = some full)
  (hat : full.ctl = .idle pp ∨ ∃ todo, full.ctl = .up pp todo)
  (hnew : ∀ x, env.tree.Below pp x → full.db.hasUtxoDiff x = false)
  (hexport : full.db.stores.exportPruningPointShielded codec pp = some (some metadata))
  (hiter : full.db.stores.IterAll nullifiers)
  (hseed : empty.seedPruningPointShielded codec pp metadata nullifiers = .ok stores)
  (hstatuses : ∀ x, pp ∈ env.tree.chain x →
    (seededStatuses x = .disqualifiedFromChain ↔ full.db.statuses x = .disqualifiedFromChain))

include ideal hcodec hhistory hat hnew hexport hiter hseed hstatuses

/-- A node that has just reached `pp` and one that was seeded from its export. -/
theorem mirrors_seeded
    (hindex : ∀ tree, full.db.stores.loadTree pp = some tree → full.db.stores.anchorBlock tree.anchor = some pp) :
    Mirrors env pp full (seededNode pp stores seededStatuses full.ctl) := by
  have placed := run_placed hhistory
  have hposition : full.ctl.position = pp := by
    rcases hat with h | ⟨todo, h⟩ <;> rw [h] <;> rfl
  have hpp : full.db.hasUtxoDiff pp := hposition ▸ placed.position
  obtain ⟨root, -, rfl⟩ := exportPruningPointShielded_inv hexport
  obtain ⟨md, hmd, -, -, -, hstores⟩ := seedPruningPointShielded_eq_ok.mp hseed
  rw [hcodec, Except.ok.injEq] at hmd
  subst hmd
  obtain ⟨tree, seeded⟩ := seedStores_seeded hstores
  obtain ⟨hfrontier, hsupply, hset⟩ := seeded.of_empty
  have hmuhash := seeded.muhash_of_empty ideal (run_muHashSnapshots ideal hhistory pp hpp)
  have hfresh : ∀ x, env.tree.Below pp x → full.db.stores.NoRecord x := fun x hx => placed.committed.fresh (hnew x hx)
  refine ⟨rfl, hposition ▸ env.tree.mem_chain_self _, ?_, fun x hx => hposition ▸ placed.todo hx, ?_⟩
  · intro q dst hctl
    rcases hat with h | ⟨todo, h⟩ <;> rw [h] at hctl <;> cases hctl
  · exact {
      committed := fun x hx => (hnew x hx).symm
      disqualified := hstatuses
      nullifiers := hset.trans hiter.2
      diffs := fun x hx => (seeded.noRecord hx.2).getDiff.trans (hfresh x hx).getDiff.symm
      snapshots := by
        intro x hx
        by_cases hxp : x = pp
        · subst hxp
          exact ⟨hfrontier, hsupply, hmuhash⟩
        · exact (hfresh x ⟨hx, hxp⟩).agreeAt (seeded.noRecord hxp)
      batches := fun x hx => (computedAt_of_new (hnew x hx)).symm
      index := by
        intro anchor source hs
        have hs' : stores.anchorBlock anchor = some source := hs
        rw [seeded.anchorBlock] at hs'
        by_cases ha : anchor = tree.anchor
        · subst ha
          rw [update_self] at hs'
          cases hs'
          exact ⟨hindex tree (Except.toOption_eq_some_iff.mpr seeded.frontier), env.tree.mem_chain_self _⟩
        · rw [update_of_ne ha] at hs'
          cases hs' }

/-- **A seeded node follows the full node, as far as it knows the anchors.** A full node reaches `pp` and has
validated nothing above it; a fresh node is seeded with its export and stream (which passed the check
against the accumulator at `pp`) and has any blocks below `pp` pruned. If the full node's index has `pp`
under the anchor of `pp`, then through every further run above `pp` in which the seeded node can judge
the anchors of the validated blocks, it takes the same steps: same place, same nullifier set, same
verdicts, batches and snapshots above `pp`, and the block at hand gets the same context (so the same
transactions are kept) and the same verdict. -/
theorem seeded_follows_full
    (hdeleted : ∀ x, deleted x → pp ∉ env.tree.chain x) {es : List Event} (habove : ∀ e ∈ es, Above env pp e)
    (hrun : full.run env (es.map (withView env.fullView)) = some full')
    (hindex : ∀ tree, full.db.stores.loadTree pp = some tree → full.db.stores.anchorBlock tree.anchor = some pp)
    (hknown : RunKnown env deleted full (seededNode pp stores seededStatuses full.ctl) es) :
    ∃ seeded', (seededNode pp stores seededStatuses full.ctl).run env (es.map (withView (env.prunedView deleted))) =
        some seeded' ∧
      seeded'.ctl = full'.ctl ∧ seeded'.db.stores.nullifiers = full'.db.stores.nullifiers ∧
      (∀ x, env.tree.Below pp x →
        seeded'.db.hasUtxoDiff x = full'.db.hasUtxoDiff x ∧
        (seeded'.db.statuses x = .disqualifiedFromChain ↔ full'.db.statuses x = .disqualifiedFromChain) ∧
        seeded'.db.computedAt x = full'.db.computedAt x ∧ full'.db.stores.AgreeAt seeded'.db.stores x) ∧
      seeded'.nextValidated env = full'.nextValidated env ∧
      ∀ block, full'.nextValidated env = some block → SpendsKnown env full' seeded' →
        blockContext env (env.prunedView deleted) seeded'.db.stores block =
            blockContext env env.fullView full'.db.stores block ∧
          validateBlock env (env.prunedView deleted) seeded'.db.stores block =
            validateBlock env env.fullView full'.db.stores block := by
  have hstart := mirrors_seeded ideal hcodec hhistory hat hnew hexport hiter hseed hstatuses hindex
  obtain ⟨seeded', hrun', h⟩ := mirrors_run hdeleted hstart habove hknown hrun
  refine ⟨seeded', hrun', h.ctl, h.db.nullifiers, fun x hx => ?_, h.nextValidated, ?_⟩
  · exact ⟨h.db.committed x hx, h.db.disqualified x hx.1, h.db.batches x hx, h.db.snapshots x hx.1⟩
  · exact fun block hblock hspends => h.validate hdeleted hspends hblock

end Seed

end VirtualNode

/-! ## A sample chain -/

/-- The chain `0`, `1`, `2`, `3`, `4`; every other block is a child of `0`. -/
def lineTree : ChainTree Hash where
  root := 0
  parent b := if b = 4 then 3 else if b = 3 then 2 else if b = 2 then 1 else 0
  height b := if b = 0 then 0 else if b = 4 then 4 else if b = 3 then 3 else if b = 2 then 2 else 1
  height_root := rfl
  height_parent := by
    intro b hb
    by_cases h4 : b = 4
    · subst h4
      decide
    · by_cases h3 : b = 3
      · subst h3
        decide
      · by_cases h2 : b = 2
        · subst h2
          decide
        · simp only [if_neg hb, if_neg h4, if_neg h3, if_neg h2]
          decide

/-- Block `2` carries a spend of nullifier `8` against `anchor`, and block `4` commits to its inclusion. -/
def lineNet (anchor : symbolic.Anchor) : ChainEnv symbolic :=
  soloNet lineTree
    (fun b => if b = 4 then ([51, 52, 53, 8], {8}, 150, 0) else if b = 3 then ([51, 52], 0, 100, 0)
      else if b = 2 then ([51], 0, 50, 0) else ([], 0, 0, 0))
    (fun b => if b = 2 then [spendOf 12 8 anchor] else []) 0

namespace VirtualNode

variable (anchor : symbolic.Anchor)

/-- Resolve to `2`, the pruning point. -/
def reachTwo : List Event := .start 2 :: replicate 4 (.tick (lineNet anchor).fullView)

/-- Go on to `4`. -/
def goOn : List Event := .start 4 :: replicate 4 (.tick (lineNet anchor).fullView)

/-- The blocks below the pruning point. -/
def belowTwo (x : Hash) : Bool := x = 0 ∨ x = 1

theorem belowTwo_notMem (x : Hash) (hx : belowTwo x) : 2 ∉ (lineNet anchor).tree.chain x := by
  show (2 : Hash) ∉ lineTree.chain x
  rcases (decide_eq_true_iff.mp hx : x = 0 ∨ x = 1) with rfl | rfl <;> decide

theorem goOn_above : ∀ e ∈ goOn anchor, Above (lineNet anchor) 2 e := by
  intro e he
  rcases mem_cons.mp he with rfl | he
  · show (2 : Hash) ∈ lineTree.chain 4
    decide
  · rw [eq_of_mem_replicate he]
    trivial

/-- A spend against the empty anchor: the node seeded at `2` goes on to `4` with the full node. -/
theorem emptyAnchor_follows : ∃ full metadata stores full' seeded',
    (genesis (lineNet []) pendingAll).run (lineNet []) (reachTwo []) = some full ∧
    full.db.stores.exportPruningPointShielded plainCodec 2 = some (some metadata) ∧
    empty.seedPruningPointShielded plainCodec 2 metadata [] = .ok stores ∧
    full.run (lineNet []) ((goOn []).map (withView (lineNet []).fullView)) = some full' ∧
    (seededNode 2 stores full.db.statuses full.ctl).run (lineNet [])
      ((goOn []).map (withView ((lineNet []).prunedView belowTwo))) = some seeded' ∧
    seeded'.ctl = .idle 4 ∧ seeded'.db.stores.nullifiers = {8} := by
  have hstate : (do
      let full ← (genesis (lineNet []) pendingAll).run (lineNet []) (reachTwo [])
      let metadata ← (full.db.stores.exportPruningPointShielded plainCodec 2).join
      let stores ← (empty.seedPruningPointShielded plainCodec 2 metadata []).toOption
      let full' ← full.run (lineNet []) ((goOn []).map (withView (lineNet []).fullView))
      let tree ← full.db.stores.loadTree 2
      some (full.ctl, full.db.commits.map (·.1), full.db.stores.anchorBlock tree.anchor, full'.ctl,
        decide (full.db.stores.nullifiers = ∅ ∧ full'.db.stores.nullifiers = {8} ∧
          RunKnown (lineNet []) belowTwo full (seededNode 2 stores full.db.statuses full.ctl) (goOn [])))) =
      some (.idle 2, [2, 1, 0], some 2, .idle 4, true) := by
    decide
  simp only [bind_eq_bind, bind_eq_some_iff, some.injEq, Prod.mk.injEq] at hstate
  obtain ⟨full, hhistory, metadata, hexport, stores, hseed, full', hrun, tree, htree, hctl, hcommits, hindex, hctl',
    hrest⟩ := hstate
  obtain ⟨hset, hset', hknown⟩ := of_decide_eq_true hrest
  have hexport := join_eq_some_iff.mp hexport
  have hseed := Except.toOption_eq_some_iff.mp hseed
  have hnew : ∀ x, (lineNet []).tree.Below 2 x → full.db.hasUtxoDiff x = false := by
    intro x hx
    rw [hasUtxoDiff, decide_eq_false_iff_not, hcommits]
    intro hmem
    have hx' : (2 : Hash) ∈ lineTree.chain x ∧ x ≠ 2 := hx
    rcases hmem with _ | ⟨_, _ | ⟨_, _ | ⟨_, h⟩⟩⟩
    · exact hx'.2 rfl
    · exact absurd hx'.1 (by decide)
    · exact absurd hx'.1 (by decide)
    · cases h
  obtain ⟨seeded', hrun', hctl'', hset'', -⟩ := seeded_follows_full symbolic_muHashIdeal plainCodec_roundTrips hhistory
    (.inl hctl) hnew hexport ⟨nodup_nil, hset ▸ rfl⟩ hseed (fun _ _ => Iff.rfl) (belowTwo_notMem []) (goOn_above [])
    hrun (fun t ht => by rw [some.inj (ht.symm.trans htree), hindex]) hknown
  exact ⟨full, metadata, stores, full', seeded', hhistory, hexport, hseed, hrun, hrun', hctl''.trans hctl',
    hset''.trans hset'⟩

/-- The spend in `2` proves against the root at `1`. The full node keeps it in `3` and goes on to `4`. The
node seeded at `2` does not have that root, drops the spend and then rejects the coinbase of `4`. -/
theorem deepAnchor_splits :
    (do let full ← (genesis (lineNet [51]) pendingAll).run (lineNet [51]) (reachTwo [51])
        let metadata ← (full.db.stores.exportPruningPointShielded plainCodec 2).join
        let stores ← (empty.seedPruningPointShielded plainCodec 2 metadata []).toOption
        let full' ← full.run (lineNet [51]) ((goOn [51]).map (withView (lineNet [51]).fullView))
        let seeded' ← (seededNode 2 stores full.db.statuses full.ctl).run (lineNet [51])
          ((goOn [51]).map (withView ((lineNet [51]).prunedView belowTwo)))
        some (full.ctl, full'.ctl, full'.db.stores.getDiff 3, seeded'.ctl, seeded'.db.stores.getDiff 3)) =
      some (.idle 2, .idle 4, [8], .idle 3, []) := by
  decide

end VirtualNode

end Firecash
