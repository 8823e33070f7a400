import Firecash.Consensus.Verify

/-!
# The reorg walk of the virtual processor (virtual_processor/processor.rs)

`calculate_utxo_state_relatively` moves the UTXO state, and with it the global nullifier set, from one
chain block to another: down to the split point, reverting every block's nullifiers in a write of its
own, then up, re-applying the nullifiers of blocks validated before, validating and committing new
ones, and disqualifying the rest. The sink moves only in `commit_virtual_state`.

`calculateUtxoStateRelatively` is the function as it stands. `VirtualNode.step` is the same code cut
at its database writes: a loop iteration makes at most one, so a node stopped between two of them is a
node between two ticks, and a restart resumes from the persisted sink. `relatively_run` connects the
two: a call that returns is a run of ticks.
-/

namespace Firecash

open List Option

variable {P : Prim}

/-- `BlockStatus`, of blocks with a body. -/
inductive BlockStatus where
  | utxoPendingVerification
  | utxoValid
  | disqualifiedFromChain
  deriving DecidableEq

/-- What the virtual processor persists per block. `commits` are the batches of `commit_utxo_state`,
newest first; their keys are the keys of the UTXO diff store. -/
structure VirtualDb (P : Prim) where
  stores : ShieldedStores P
  statuses : Hash → BlockStatus
  commits : List (Hash × Option (ComputedBlockShielded P))

namespace VirtualDb

variable (db : VirtualDb P)

/-- `utxo_diffs_store.get(block).is_ok()` -/
def hasUtxoDiff (block : Hash) : Bool := decide (block ∈ db.commits.map (·.1))

def setStatus (block : Hash) (status : BlockStatus) : VirtualDb P :=
  { db with statuses := Function.update db.statuses block status }

/-- `commit_utxo_state`: one batch. -/
def commitUtxoState (block : Hash) (computed : Option (ComputedBlockShielded P)) : VirtualDb P where
  stores :=
    match computed with
    | some c => db.stores.persist block c
    | none => db.stores
  statuses := Function.update db.statuses block .utxoValid
  commits := (block, computed) :: db.commits

/-- A fresh node after `process_genesis`, which commits genesis without shielded data. -/
def genesis (root : Hash) (statuses : Hash → BlockStatus) : VirtualDb P :=
  commitUtxoState ⟨ShieldedStores.empty, statuses, []⟩ root none

end VirtualDb

/-! ## The walk -/

/-- One iteration of the downward loop: the block leaves the selected chain. `none`: the
`utxo_diffs_store.get(..).unwrap()` panics. -/
def revertStep (db : VirtualDb P) (current : Hash) : Option (VirtualDb P) :=
  if db.hasUtxoDiff current then some { db with stores := db.stores.revertNullifiersFromStore current } else none

/-- The downward loop over the backward chain iterator, up to the first block on `chain(dst)`. -/
def walkDown (env : ChainEnv P) (dst : Hash) : List Hash → VirtualDb P → Option (Hash × VirtualDb P)
  | [], _ => none
  | current :: rest, db =>
    if current ∈ env.tree.chain dst then some (current, db)
    else do
      let db ← revertStep db current
      walkDown env dst rest db

/-- One iteration of the upward loop: the new `diff_point`, and what was written. -/
def upStep (env : ChainEnv P) (view : NodeView) (diffPoint : Hash) (db : VirtualDb P) (current : Hash) :
    Option (Hash × VirtualDb P) :=
  if env.tree.parent current ≠ diffPoint then
    -- the selected parent is disqualified: propagate up and continue
    if db.statuses current ≠ .disqualifiedFromChain then
      some (diffPoint, db.setStatus current .disqualifiedFromChain)
    else some (diffPoint, db)
  else if db.hasUtxoDiff current then
    some (current, { db with stores := db.stores.applyNullifiersFromStore current })
  else if db.statuses current = .disqualifiedFromChain then some (diffPoint, db)
  else
    match validateBlock env view db.stores current with
    | .error .panic => none
    | .error (.err _) => some (diffPoint, db.setStatus current .disqualifiedFromChain)
    | .ok computed => some (current, db.commitUtxoState current (some computed))

/-- What an iteration of the upward loop can do. -/
inductive UpStep (env : ChainEnv P) (view : NodeView) (diffPoint : Hash) (db : VirtualDb P) (current : Hash) :
    Hash → VirtualDb P → Prop
  /-- The block stays off the chain; at most its status is written. -/
  | skip {db' : VirtualDb P} (hstores : db'.stores = db.stores) (hcommits : db'.commits = db.commits)
      (hnew : env.tree.parent current = diffPoint → db.hasUtxoDiff current = false) :
      UpStep env view diffPoint db current diffPoint db'
  | reapply (hparent : env.tree.parent current = diffPoint) (hdiff : db.hasUtxoDiff current = true) :
      UpStep env view diffPoint db current current
        { db with stores := db.stores.applyNullifiersFromStore current }
  | commit (hparent : env.tree.parent current = diffPoint) (hdiff : db.hasUtxoDiff current = false)
      (computed : ComputedBlockShielded P) (hvalid : validateBlock env view db.stores current = .ok computed) :
      UpStep env view diffPoint db current current (db.commitUtxoState current (some computed))

theorem upStep_inv {env : ChainEnv P} {view : NodeView} {diffPoint current next : Hash} {db db' : VirtualDb P}
    (h : upStep env view diffPoint db current = some (next, db')) :
    UpStep env view diffPoint db current next db' := by
  unfold upStep at h
  split at h
  case isTrue hp =>
    have hnew : env.tree.parent current = diffPoint → db.hasUtxoDiff current = false := fun h => absurd h hp
    split at h <;>
      · obtain ⟨rfl, rfl⟩ := Prod.mk.inj (some.inj h)
        exact .skip rfl rfl hnew
  case isFalse hp =>
    rw [not_not] at hp
    split at h
    case isTrue hd =>
      obtain ⟨rfl, rfl⟩ := Prod.mk.inj (some.inj h)
      exact .reapply hp hd
    case isFalse hd =>
      rw [Bool.not_eq_true] at hd
      split at h
      · obtain ⟨rfl, rfl⟩ := Prod.mk.inj (some.inj h)
        exact .skip rfl rfl fun _ => hd
      · cases hv : validateBlock env view db.stores current with
        | error e =>
          cases e with
          | panic => simp [hv] at h
          | err e =>
            simp only [hv] at h
            obtain ⟨rfl, rfl⟩ := Prod.mk.inj (some.inj h)
            exact .skip rfl rfl fun _ => hd
        | ok computed =>
          simp only [hv] at h
          obtain ⟨rfl, rfl⟩ := Prod.mk.inj (some.inj h)
          exact .commit hp hd computed hv

def walkUp (env : ChainEnv P) (view : NodeView) : Hash → VirtualDb P → List Hash → Option (Hash × VirtualDb P)
  | diffPoint, db, [] => some (diffPoint, db)
  | diffPoint, db, current :: rest => do
    let (diffPoint, db) ← upStep env view diffPoint db current
    walkUp env view diffPoint db rest

/-- `calculate_utxo_state_relatively` (processor.rs:630); `none` is a panic. -/
def calculateUtxoStateRelatively (env : ChainEnv P) (view : NodeView) (db : VirtualDb P) (src dst : Hash) :
    Option (Hash × VirtualDb P) :=
  if db.statuses dst = .disqualifiedFromChain then some (src, db)
  else do
    let (splitPoint, db) ← walkDown env dst (env.tree.chain src) db
    walkUp env view splitPoint db (env.tree.above splitPoint dst)

/-! ## The walk cut at its writes -/

/-- Where the virtual processor is: between two calls with its `diff_point`, in the downward loop, or in
the upward loop with the blocks still ahead. -/
inductive Ctl where
  | idle (diffPoint : Hash)
  | down (current dst : Hash)
  | up (diffPoint : Hash) (todo : List Hash)
  deriving DecidableEq

/-- A running node: its database and persisted sink, and the volatile position in the walk. `point`
is a ghost: the block at which the nullifier set stands. The walk carries it along once it has
reached it; a crash leaves it where it is. -/
structure VirtualNode (P : Prim) where
  db : VirtualDb P
  sink : Hash
  ctl : Ctl
  point : Hash

inductive Event where
  /-- Sink search calls `calculate_utxo_state_relatively` on a candidate. -/
  | start (dst : Hash)
  /-- One loop iteration, with what the node's stores hold of the tree at that time. -/
  | tick (view : NodeView)
  /-- `commit_virtual_state` makes the current `diff_point` the persisted sink. -/
  | commitVirtual
  /-- The process stops and is started again. -/
  | crash

namespace VirtualNode

def start (n : VirtualNode P) (dst : Hash) : Option (VirtualNode P) :=
  match n.ctl with
  | .idle diffPoint =>
    if n.db.statuses dst = .disqualifiedFromChain then some n else some { n with ctl := .down diffPoint dst }
  | _ => none

def tick (env : ChainEnv P) (view : NodeView) (n : VirtualNode P) : Option (VirtualNode P) :=
  match n.ctl with
  | .idle _ => none
  | .down current dst =>
    if current ∈ env.tree.chain dst then some { n with ctl := .up current (env.tree.above current dst) }
    else do
      let db ← revertStep n.db current
      let next := env.tree.parent current
      some { n with db, ctl := .down next dst, point := if n.point = current then next else n.point }
  | .up diffPoint [] => some { n with ctl := .idle diffPoint }
  | .up diffPoint (current :: rest) => do
    let (next, db) ← upStep env view diffPoint n.db current
    some { n with db, ctl := .up next rest, point := if n.point = diffPoint then next else n.point }

def commitVirtual (n : VirtualNode P) : Option (VirtualNode P) :=
  match n.ctl with
  | .idle diffPoint => some { n with sink := diffPoint }
  | _ => none

/-- Restart: the walk starts over from the persisted sink. -/
def crash (n : VirtualNode P) : VirtualNode P := { n with ctl := .idle n.sink }

def step (env : ChainEnv P) (n : VirtualNode P) : Event → Option (VirtualNode P)
  | .start dst => n.start dst
  | .tick view => n.tick env view
  | .commitVirtual => n.commitVirtual
  | .crash => some n.crash

/-- What an event can do to a node. -/
inductive Step (env : ChainEnv P) : VirtualNode P → Event → VirtualNode P → Prop
  /-- A disqualified candidate is returned from at once. -/
  | refuse {db : VirtualDb P} {sink d dst point : Hash} (hst : db.statuses dst = .disqualifiedFromChain) :
      Step env ⟨db, sink, .idle d, point⟩ (.start dst) ⟨db, sink, .idle d, point⟩
  | start {db : VirtualDb P} {sink d dst point : Hash} (hst : db.statuses dst ≠ .disqualifiedFromChain) :
      Step env ⟨db, sink, .idle d, point⟩ (.start dst) ⟨db, sink, .down d dst, point⟩
  /-- The downward loop has reached the split point. -/
  | split {db : VirtualDb P} {sink q dst point : Hash} {view : NodeView} (hq : q ∈ env.tree.chain dst) :
      Step env ⟨db, sink, .down q dst, point⟩ (.tick view) ⟨db, sink, .up q (env.tree.above q dst), point⟩
  | revert {db : VirtualDb P} {sink q dst point : Hash} {view : NodeView} (hq : q ∉ env.tree.chain dst)
      (hdiff : db.hasUtxoDiff q = true) :
      Step env ⟨db, sink, .down q dst, point⟩ (.tick view)
        ⟨{ db with stores := db.stores.revertNullifiersFromStore q }, sink, .down (env.tree.parent q) dst,
          if point = q then env.tree.parent q else point⟩
  | arrive {db : VirtualDb P} {sink d point : Hash} {view : NodeView} :
      Step env ⟨db, sink, .up d [], point⟩ (.tick view) ⟨db, sink, .idle d, point⟩
  | climb {db db' : VirtualDb P} {sink d b next point : Hash} {todo : List Hash} {view : NodeView}
      (hup : upStep env view d db b = some (next, db')) :
      Step env ⟨db, sink, .up d (b :: todo), point⟩ (.tick view)
        ⟨db', sink, .up next todo, if point = d then next else point⟩
  | commitVirtual {db : VirtualDb P} {sink d point : Hash} :
      Step env ⟨db, sink, .idle d, point⟩ .commitVirtual ⟨db, d, .idle d, point⟩
  | crash (n : VirtualNode P) : Step env n .crash n.crash

theorem step_inv {env : ChainEnv P} {n n' : VirtualNode P} {e : Event} (h : n.step env e = some n') :
    Step env n e n' := by
  obtain ⟨db, sink, ctl, point⟩ := n
  cases e with
  | crash =>
    cases h
    exact .crash _
  | start dst =>
    cases ctl with
    | idle d =>
      simp only [step, start] at h
      split at h
      case isTrue hst =>
        cases h
        exact .refuse hst
      case isFalse hst =>
        cases h
        exact .start hst
    | down q dst' => cases h
    | up d todo => cases h
  | commitVirtual =>
    cases ctl with
    | idle d =>
      cases h
      exact .commitVirtual
    | down q dst => cases h
    | up d todo => cases h
  | tick view =>
    cases ctl with
    | idle d => cases h
    | down q dst =>
      simp only [step, tick] at h
      split at h
      case isTrue hq =>
        cases h
        exact .split hq
      case isFalse hq =>
        unfold revertStep at h
        split at h
        case isTrue hdiff =>
          cases h
          exact .revert hq hdiff
        case isFalse => cases h
    | up d todo =>
      cases todo with
      | nil =>
        cases h
        exact .arrive
      | cons b todo =>
        simp only [step, tick, bind_eq_bind, bind_eq_some_iff, some.injEq] at h
        obtain ⟨⟨next, db'⟩, hup, rfl⟩ := h
        exact .climb hup

def run (env : ChainEnv P) (n : VirtualNode P) : List Event → Option (VirtualNode P)
  | [] => some n
  | e :: es => (n.step env e).bind fun n' => n'.run env es

/-- A fresh node: genesis is the sink, and the other blocks have any status. -/
def genesis (env : ChainEnv P) (statuses : Hash → BlockStatus) : VirtualNode P :=
  ⟨VirtualDb.genesis env.tree.root statuses, env.tree.root, .idle env.tree.root, env.tree.root⟩

theorem run_append (env : ChainEnv P) (n : VirtualNode P) (es es' : List Event) :
    n.run env (es ++ es') = (n.run env es).bind fun n' => n'.run env es' := by
  induction es generalizing n with
  | nil => rfl
  | cons e es ih =>
    simp only [cons_append, run, bind_assoc]
    exact bind_congr fun n' _ => ih n'

end VirtualNode

/-! ## A call is a run of ticks -/

section Run

variable {env : ChainEnv P} {view : NodeView}

open VirtualNode

variable {n : VirtualNode P} {db' : VirtualDb P}

theorem walkUp_run {diffPoint d : Hash} {todo : List Hash}
    (hn : n.ctl = .up diffPoint todo) (h : walkUp env view diffPoint n.db todo = some (d, db')) :
    ∃ k n', n.run env (replicate k (.tick view)) = some n' ∧ n'.ctl = .idle d ∧ n'.db = db' := by
  induction todo generalizing n diffPoint with
  | nil =>
    cases h
    exact ⟨1, { n with ctl := .idle d }, by simp [run, step, tick, hn], rfl, rfl⟩
  | cons b todo ih =>
    simp only [walkUp, bind_eq_bind, bind_eq_some_iff] at h
    obtain ⟨⟨next, db⟩, hstep, h⟩ := h
    obtain ⟨k, n', hrun, hctl, hdb⟩ := ih (n := { n with
      db, ctl := .up next todo, point := if n.point = diffPoint then next else n.point }) rfl h
    refine ⟨k + 1, n', ?_, hctl, hdb⟩
    rw [replicate_succ, run]
    simpa [step, tick, hn, hstep] using hrun

theorem walkDown_run (view : NodeView) {src dst split : Hash} (hn : n.ctl = .down src dst)
    (h : walkDown env dst (env.tree.chain src) n.db = some (split, db')) :
    ∃ k n', n.run env (replicate k (.tick view)) = some n' ∧
      n'.ctl = .up split (env.tree.above split dst) ∧ n'.db = db' := by
  refine ChainTree.induction_on (T := env.tree) (motive := fun src => ∀ n : VirtualNode P, n.ctl = .down src dst →
    walkDown env dst (env.tree.chain src) n.db = some (split, db') → ∃ k n',
      n.run env (replicate k (.tick view)) = some n' ∧ n'.ctl = .up split (env.tree.above split dst) ∧
        n'.db = db') src ?_ ?_ n hn h
  · intro n hn h
    rw [ChainTree.chain_root, walkDown, if_pos (env.tree.root_mem_chain dst)] at h
    cases h
    exact ⟨1, { n with ctl := .up env.tree.root (env.tree.above env.tree.root dst) },
      by simp [run, step, tick, hn, env.tree.root_mem_chain dst], rfl, rfl⟩
  · intro src hsrc ih n hn h
    rw [ChainTree.chain_of_ne_root hsrc, walkDown] at h
    by_cases hm : src ∈ env.tree.chain dst
    · rw [if_pos hm] at h
      obtain ⟨rfl, rfl⟩ := Prod.mk.inj (some.inj h)
      exact ⟨1, { n with ctl := .up src (env.tree.above src dst) }, by simp [run, step, tick, hn, hm], rfl, rfl⟩
    · rw [if_neg hm] at h
      simp only [bind_eq_bind, bind_eq_some_iff] at h
      obtain ⟨db, hrev, h⟩ := h
      obtain ⟨k, n', hrun, hctl, hdb⟩ := ih { n with
        db, ctl := .down (env.tree.parent src) dst
        point := if n.point = src then env.tree.parent src else n.point } rfl h
      refine ⟨k + 1, n', ?_, hctl, hdb⟩
      rw [replicate_succ, run]
      simpa [step, tick, hn, hm, hrev] using hrun

/-- A call that returns is a start followed by ticks, and ends idle at the returned block. -/
theorem relatively_run {src dst d : Hash} (hn : n.ctl = .idle src)
    (h : calculateUtxoStateRelatively env view n.db src dst = some (d, db')) :
    ∃ k n', n.run env (.start dst :: replicate k (.tick view)) = some n' ∧ n'.ctl = .idle d ∧ n'.db = db' := by
  unfold calculateUtxoStateRelatively at h
  split at h
  case isTrue hst =>
    cases h
    exact ⟨0, n, by simp [run, step, start, hn, hst], hn, rfl⟩
  case isFalse hst =>
    simp only [bind_eq_bind, bind_eq_some_iff] at h
    obtain ⟨⟨split, db⟩, hdown, hup⟩ := h
    obtain ⟨k, n₁, hrun₁, hctl₁, hdb₁⟩ := walkDown_run view (n := { n with ctl := .down src dst }) rfl hdown
    subst hdb₁
    obtain ⟨l, n₂, hrun₂, hctl₂, hdb₂⟩ := walkUp_run hctl₁ hup
    refine ⟨k + l, n₂, ?_, hctl₂, hdb₂⟩
    have hstart : n.step env (.start dst) = some { n with ctl := .down src dst } := by simp [step, start, hn, hst]
    rw [run, hstart, replicate_add, bind_some, run_append, hrun₁, bind_some, hrun₂]

end Run

end Firecash
