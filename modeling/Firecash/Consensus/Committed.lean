import Firecash.Consensus.Virtual

/-!
# The committed subtree

What holds of a node in every run, crashed or not: the blocks with a committed UTXO state form a
subtree with the root, each committed once (`VirtualDb.Committed`), and the walk, its sink and the
blocks ahead of it stay on it (`VirtualNode.Placed`). `step_db` says what a step can write.
-/

namespace Firecash

open List ChainTree

variable {P : Prim} {env : ChainEnv P}

namespace VirtualDb

variable {db db' : VirtualDb P} {a b : Hash}

theorem hasUtxoDiff_iff : db.hasUtxoDiff b = true ↔ b ∈ db.commits.map (·.1) := decide_eq_true_iff

theorem hasUtxoDiff_commit (db : VirtualDb P) (block b : Hash) (computed : Option (ComputedBlockShielded P)) :
    (db.commitUtxoState block computed).hasUtxoDiff b = (decide (b = block) || db.hasUtxoDiff b) := by
  rw [Bool.eq_iff_iff, hasUtxoDiff_iff, Bool.or_eq_true, hasUtxoDiff_iff, decide_eq_true_eq]
  exact mem_cons

theorem hasUtxoDiff_commit_iff {block : Hash} {computed : Option (ComputedBlockShielded P)} :
    (db.commitUtxoState block computed).hasUtxoDiff b = true ↔ b = block ∨ db.hasUtxoDiff b = true := by
  rw [hasUtxoDiff_commit, Bool.or_eq_true, decide_eq_true_eq]

theorem ne_of_new (ha : db.hasUtxoDiff a) (hb : db.hasUtxoDiff b = false) : a ≠ b := by
  rintro rfl
  rw [hb] at ha
  cases ha

theorem hasUtxoDiff_congr (hcommits : db'.commits = db.commits) (b : Hash) : db'.hasUtxoDiff b = db.hasUtxoDiff b := by
  rw [hasUtxoDiff, hasUtxoDiff, hcommits]

structure Committed (env : ChainEnv P) (db : VirtualDb P) : Prop where
  root : db.hasUtxoDiff env.tree.root
  parent : ∀ {b}, b ≠ env.tree.root → db.hasUtxoDiff b → db.hasUtxoDiff (env.tree.parent b)
  once : (db.commits.map (·.1)).Nodup
  fresh : ∀ {b}, db.hasUtxoDiff b = false → db.stores.NoRecord b

theorem committed_genesis (statuses : Hash → BlockStatus) :
    (genesis env.tree.root statuses : VirtualDb P).Committed env where
  root := by simp [genesis, hasUtxoDiff_commit]
  parent := by
    intro b hb hd
    rw [hasUtxoDiff_iff] at hd
    simp [genesis, commitUtxoState, hb] at hd
  once := by simp [genesis, commitUtxoState]
  fresh := fun _ => ⟨rfl, rfl, rfl, rfl⟩

namespace Committed

theorem congr (h : db.Committed env) (hcommits : db'.commits = db.commits) (hsame : db.stores.SameRecords db'.stores) :
    db'.Committed env where
  root := (hasUtxoDiff_congr hcommits _).trans h.root
  parent := by
    intro b hb hd
    rw [hasUtxoDiff_congr hcommits] at hd ⊢
    exact h.parent hb hd
  once := by
    rw [hcommits]
    exact h.once
  fresh := by
    intro b hb
    rw [hasUtxoDiff_congr hcommits] at hb
    obtain ⟨nfs, hstores⟩ := hsame
    rw [hstores]
    exact ⟨(h.fresh hb).tree, (h.fresh hb).supply, (h.fresh hb).muhash, (h.fresh hb).diff⟩

theorem mem_chain (h : db.Committed env) (hb : db.hasUtxoDiff b) (ha : a ∈ env.tree.chain b) : db.hasUtxoDiff a := by
  refine induction_on (T := env.tree)
    (motive := fun b => db.hasUtxoDiff b → a ∈ env.tree.chain b → db.hasUtxoDiff a) b ?_ ?_ hb ha
  · intro hb ha
    rwa [mem_chain_root.mp ha]
  · intro b hne ih hb ha
    rcases (mem_chain_iff hne).mp ha with rfl | ha
    · exact hb
    · exact ih (h.parent hne hb) ha

theorem notMem_chain_of_new (h : db.Committed env) (ha : db.hasUtxoDiff a) (hb : db.hasUtxoDiff b = false) :
    b ∉ env.tree.chain a := by
  intro hm
  have := h.mem_chain ha hm
  simp [hb] at this

theorem commit (h : db.Committed env) (hb : db.hasUtxoDiff b = false) (hp : db.hasUtxoDiff (env.tree.parent b))
    (c : ComputedBlockShielded P) : (db.commitUtxoState b (some c)).Committed env where
  root := by simp [hasUtxoDiff_commit, h.root]
  parent := by
    intro x hx hd
    rcases hasUtxoDiff_commit_iff.mp hd with rfl | hd
    · exact hasUtxoDiff_commit_iff.mpr (.inr hp)
    · exact hasUtxoDiff_commit_iff.mpr (.inr (h.parent hx hd))
  once := by
    have hnew : b ∉ db.commits.map (·.1) := by
      rw [← hasUtxoDiff_iff, hb]
      decide
    exact nodup_cons.mpr ⟨hnew, h.once⟩
  fresh := by
    intro x hx
    rw [hasUtxoDiff_commit, Bool.or_eq_false_iff, decide_eq_false_iff_not] at hx
    exact (h.fresh hx.2).persist hx.1 c

section Diffs

variable {c : ComputedBlockShielded P}

theorem chainKeys_commit (h : db.Committed env) (hb : db.hasUtxoDiff b = false) (ha : db.hasUtxoDiff a) :
    env.tree.chainKeys (db.commitUtxoState b (some c)).stores.getDiff a = env.tree.chainKeys db.stores.getDiff a := by
  refine chainKeys_congr fun x hx => ?_
  show (db.stores.persist b c).getDiff x = _
  rw [ShieldedStores.persist_getDiff c (h.fresh hb).getDiff, Function.update_of_ne]
  rintro rfl
  exact h.notMem_chain_of_new ha hb hx

theorem chainKeys_commit_self (h : db.Committed env) (hb : db.hasUtxoDiff b = false)
    (hp : db.hasUtxoDiff (env.tree.parent b)) (hne : b ≠ env.tree.root) :
    env.tree.chainKeys (db.commitUtxoState b (some c)).stores.getDiff b =
      c.outcome.newNullifiers ++ env.tree.chainKeys db.stores.getDiff (env.tree.parent b) := by
  have hself : (db.commitUtxoState b (some c)).stores.getDiff b = c.outcome.newNullifiers := by
    show (db.stores.persist b c).getDiff b = _
    rw [ShieldedStores.persist_getDiff c (h.fresh hb).getDiff, Function.update_self]
  rw [chainKeys_of_ne_root hne, h.chainKeys_commit hb hp, hself]

end Diffs

end Committed

end VirtualDb

/-- The block at which the walk is. -/
def Ctl.position : Ctl → Hash
  | .idle diffPoint => diffPoint
  | .down current _ => current
  | .up diffPoint _ => diffPoint

/-- The blocks ahead in the upward loop. -/
def Ctl.todo : Ctl → List Hash
  | .up _ todo => todo
  | _ => []

namespace VirtualNode

variable {n n' : VirtualNode P}

structure Placed (env : ChainEnv P) (n : VirtualNode P) : Prop where
  committed : n.db.Committed env
  sink : n.db.hasUtxoDiff n.sink
  position : n.db.hasUtxoDiff n.ctl.position
  climb : (n.ctl.position :: n.ctl.todo).Pairwise env.tree.Below

theorem Placed.todo (h : n.Placed env) {b : Hash} (hb : b ∈ n.ctl.todo) : env.tree.Below n.ctl.position b :=
  (pairwise_cons.mp h.climb).1 b hb

theorem placed_genesis (env : ChainEnv P) (statuses : Hash → BlockStatus) : (genesis env statuses).Placed env where
  committed := VirtualDb.committed_genesis statuses
  sink := (VirtualDb.committed_genesis statuses).root
  position := (VirtualDb.committed_genesis statuses).root
  climb := pairwise_singleton _ _

/-- One iteration of the downward loop below the root. -/
theorem placed_revert {db : VirtualDb P} {sink point q dst next : Hash} (h : Placed env ⟨db, sink, .down q dst, point⟩)
    (hq : q ∉ env.tree.chain dst) :
    Placed env ⟨{ db with stores := db.stores.revertNullifiersFromStore q }, sink, .down (env.tree.parent q) dst,
      next⟩ where
  committed := h.committed.congr rfl ⟨_, rfl⟩
  sink := h.sink
  position := by
    refine h.committed.parent ?_ h.position
    rintro rfl
    exact hq (env.tree.root_mem_chain dst)
  climb := pairwise_singleton _ _

/-- One iteration of the upward loop. -/
theorem placed_upStep {db db' : VirtualDb P} {sink point d b next point' : Hash} {todo : List Hash} {view : NodeView}
    (h : Placed env ⟨db, sink, .up d (b :: todo), point⟩) (hup : UpStep env view d db b next db') :
    Placed env ⟨db', sink, .up next todo, point'⟩ := by
  have hrest : (b :: todo).Pairwise env.tree.Below := h.climb.tail
  cases hup with
  | skip hstores hcommits hnew =>
    have hhas := VirtualDb.hasUtxoDiff_congr hcommits
    exact ⟨h.committed.congr hcommits ⟨db.stores.nullifiers, hstores⟩, (hhas sink).trans h.sink,
      (hhas d).trans h.position, h.climb.sublist ((sublist_cons_self b todo).cons_cons d)⟩
  | reapply hparent hdiff => exact ⟨h.committed.congr rfl ⟨_, rfl⟩, h.sink, hdiff, hrest⟩
  | commit hparent hdiff c hvalid =>
    have hsink : db.hasUtxoDiff sink := h.sink
    have hposition : db.hasUtxoDiff (env.tree.parent b) := hparent.symm ▸ h.position
    refine ⟨h.committed.commit hdiff hposition c, ?_, ?_, hrest⟩
    · simp [VirtualDb.hasUtxoDiff_commit, hsink]
    · simp [VirtualDb.hasUtxoDiff_commit, Ctl.position]

variable {e : Event}

theorem placed_step (h : n.Placed env) (hstep : n.step env e = some n') : n'.Placed env := by
  cases step_inv hstep with
  | refuse hst => exact h
  | start hst => exact ⟨h.committed, h.sink, h.position, pairwise_singleton _ _⟩
  | split hq => exact ⟨h.committed, h.sink, h.position, (ascends_above hq).pairwise⟩
  | revert hq hdiff => exact placed_revert h hq
  | arrive => exact ⟨h.committed, h.sink, h.position, pairwise_singleton _ _⟩
  | climb hup => exact placed_upStep h (upStep_inv hup)
  | commitVirtual => exact ⟨h.committed, h.position, h.position, pairwise_singleton _ _⟩
  | crash => exact ⟨h.committed, h.sink, h.sink, pairwise_singleton _ _⟩

/-! ## What a step writes -/

/-- The database after a step: the nullifier set or a status has moved, or a validated child of a committed
block is added. -/
inductive DbStep (env : ChainEnv P) (db : VirtualDb P) : VirtualDb P → Prop
  | move {db' : VirtualDb P} (hcommits : db'.commits = db.commits)
      (hsame : db.stores.SameRecords db'.stores) : DbStep env db db'
  | commit {b : Hash} {view : NodeView} {c : ComputedBlockShielded P} (hroot : b ≠ env.tree.root)
      (hparent : db.hasUtxoDiff (env.tree.parent b)) (hnew : db.hasUtxoDiff b = false)
      (hvalid : validateBlock env view db.stores b = .ok c) : DbStep env db (db.commitUtxoState b (some c))

theorem DbStep.refl (db : VirtualDb P) : DbStep env db db := .move rfl ⟨db.stores.nullifiers, rfl⟩

theorem step_db (h : n.Placed env) (hstep : n.step env e = some n') : DbStep env n.db n'.db := by
  cases step_inv hstep with
  | refuse => exact DbStep.refl _
  | start => exact DbStep.refl _
  | split => exact DbStep.refl _
  | revert => exact .move rfl ⟨_, rfl⟩
  | arrive => exact DbStep.refl _
  | commitVirtual => exact DbStep.refl _
  | crash => exact DbStep.refl _
  | @climb db db' sink d b next point todo view hup =>
    cases upStep_inv hup with
    | skip hstores hcommits hnew => exact .move hcommits ⟨db.stores.nullifiers, hstores⟩
    | reapply hparent hdiff => exact .move rfl ⟨_, rfl⟩
    | commit hparent hdiff c hvalid =>
      have hposition : db.hasUtxoDiff (env.tree.parent b) := hparent.symm ▸ h.position
      exact .commit (h.todo mem_cons_self).ne_root hposition hdiff hvalid

/-- An invariant of the database that every step keeps holds after every run. -/
theorem db_run {I : VirtualDb P → Prop} {es : List Event} (hplaced : n.Placed env) (hI : I n.db)
    (hstep : ∀ db db', db.Committed env → I db → DbStep env db db' → I db') (h : n.run env es = some n') :
    n'.Placed env ∧ I n'.db := by
  induction es generalizing n with
  | nil =>
    cases h
    exact ⟨hplaced, hI⟩
  | cons e es ih =>
    simp only [run, Option.bind_eq_some_iff] at h
    obtain ⟨n₁, h₁, hrun⟩ := h
    exact ih (placed_step hplaced h₁) (hstep _ _ hplaced.committed hI (step_db hplaced h₁)) hrun

end VirtualNode

end Firecash
