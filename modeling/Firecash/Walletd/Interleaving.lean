import Firecash.Wallet.RoundTrip
import Firecash.Walletd.Spend

/-!
# Requests that spend from one wallet at the same time (zkas-walletd/src/lib.rs)

`wallet_send` and `wallet_consolidate` choose notes under the wallet's lock, prove and submit without
it, and take it again to park the notes of an accepted transaction. A `Daemon` is one wallet of the
daemon with the requests in flight; a step is what happens between two points where the lock is
released. An entry stays alive in the requests that hold it after it was evicted, so all that were ever
loaded are kept, and a request remembers which one is its own.

Address, memo and amount of a request are parsed before; a proof that fails and a handler that is
dropped are one step, `abandon`.

Two requests that have both chosen before either has marked can choose the same note
(`respent_while_pending`), the replayed wallet knows of no pending spends, and a wallet that is loaded
again after it was retired has forgotten them. With none of that no pending note is submitted again
(`inputs_not_pending`).
-/

namespace Firecash

open Checked List Option

variable {P : Prim} {W : WalletPrim P}

inductive SpendRequest where
  | send (amount : UInt64) (fee : Option UInt64)
  | consolidate (fee : Option UInt64)

/-- Where a request is. -/
inductive Stage (W : WalletPrim P) where
  | started
  /-- The size and the anchor of the wallet, which are compared with the node's. -/
  | probing (size : Nat) (anchor : P.Anchor)
  | ready (seed : Bytes32)
  | replaying (seed : Bytes32)
  /-- The transactions that are still to be submitted. -/
  | planned (chunks : List (Chunk W))
  /-- The node has accepted a transaction whose notes are not parked yet. -/
  | accepted (chunk : Chunk W) (txid : Bytes32) (chunks : List (Chunk W))
  | ended (result : Except (Fault SpendError) Unit)

structure Request (W : WalletPrim P) where
  entry : Nat
  request : SpendRequest
  stage : Stage W

/-- One wallet of the daemon. -/
structure Daemon (W : WalletPrim P) where
  key : WalletKey
  /-- Every entry that was ever loaded. -/
  entries : List (WalletEntry W)
  /-- The entry in the map of wallets. -/
  loaded : Option Nat
  /-- The entry as the checkpoint has it. -/
  disk : Option (WalletEntry W)
  /-- The last pass retired the wallet. -/
  retired : Bool
  requests : List (Request W)

inductive DaemonStep (P : Prim) where
  /-- `tip` is the node's frontier at the cursor of the checkpoint. The other frontier, its block and what
  is below it are used if there is no checkpoint, or one that is rejected. -/
  | load (tip : Option FrontierState) (frontier : FrontierState) (low : Hash) (daaScore : UInt64) (blindBelow : Nat)
  | begin (request : SpendRequest)
  | probe (i : Nat)
  | check (i : Nat) (reply : Option FrontierState) (nodeTip : UInt64)
  | select (i : Nat)
  | replay (i : Nat) (frontier : FrontierState) (pages : List ReplayPage)
  /-- `none`: the node rejects the transaction. -/
  | submit (i : Nat) (verdict : Option Bytes32)
  | mark (i : Nat)
  | abandon (i : Nat)
  | sync (input : SyncInput P)
  | evict

/-- The chunks whose notes are chosen and not parked. -/
def Stage.remaining : Stage W → List (Chunk W)
  | .planned chunks => chunks
  | .accepted chunk _ chunks => chunk :: chunks
  | _ => []

/-- The notes that are chosen and not parked. -/
def Stage.positions (stage : Stage W) : List Nat := stage.remaining.flatMap Chunk.positions

/-- Are there notes that are chosen and not parked? -/
def Stage.busy (stage : Stage W) : Bool := !stage.remaining.isEmpty

namespace WalletEntry

/-- The notes of an accepted transaction are parked at the wallet's own clock. -/
def markAll (e : WalletEntry W) (positions : List Nat) (txid : Bytes32) : WalletEntry W :=
  { e with db := positions.foldl (fun db p => db.markSpent p txid e.scanned) e.db }

/-- Is the wallet too far behind the node, or off its chain? -/
def outdated (e : WalletEntry W) (nodeTip : UInt64) : Bool :=
  decide (nodeTip = 0) || decide (saturatingAdd e.scanned (SYNC_TIP_MARGIN + 2 * SYNC_MARGIN) < nodeTip) ||
    decide (0 < e.reorgedStrikes)

end WalletEntry

namespace Daemon

variable (s : Daemon W)

def setStage (i : Nat) (r : Request W) (stage : Stage W) : Daemon W :=
  { s with requests := s.requests.set i { r with stage } }

def setEntry (k : Nat) (e : WalletEntry W) : Daemon W := { s with entries := s.entries.set k e }

/-- Is the wallet at the node's frontier? The last check of `parse_scan_bytes` (lib.rs:907) on what a
checkpoint is restored to. -/
def canonical (db : WalletDb W) (tip : FrontierState) : Bool :=
  match (GlobalTree.fromState tip : Except TreeStateError (GlobalTree P)) with
  | .error _ => false
  | .ok tree => decide (db.size = tip.size ∧ db.anchor = tree.anchor)

/-- The checkpoint, as `get_wallet` (lib.rs:2320) loads it. `none`: the node does not answer, and the
wallet is not loaded; `some none`: there is no checkpoint, or it is rejected and copied aside. -/
def restoredEntry (fvk : W.Fvk) (tip : Option FrontierState) : Option (Option (WalletEntry W)) :=
  match s.disk, tip with
  | none, _ => some none
  | some _, none => none
  | some saved, some tip =>
    let db := saved.db.restored fvk
    if canonical db tip then
      some (some (.fromParts s.key db saved.low saved.scanned saved.boundaries saved.sinkBlue saved.blindBelow))
    else some none

/-- What is loaded: the checkpoint, or a wallet that starts at a frontier; the leaves are decoded at once. -/
def loadEntry (tip : Option FrontierState) (frontier : FrontierState) (low : Hash) (daaScore : UInt64)
    (blindBelow : Nat) :
    Option (WalletEntry W) := do
  let fresh ← s.key.wallet W
  let restored ← s.restoredEntry fresh.fvk tip
  let e ← restored.or ((fresh.applyFrontier frontier).map fun db => .fromParts s.key db low daaScore [] 0 blindBelow)
  some { e with db := e.db.warmLeaves }

/-- `ensure_canonical_checkpoint` on what was read before, then the checks of `wallet_send` up to its
selection; `true`: the wallet is marked for repair. -/
def checked (e : WalletEntry W) (size : Nat) (anchor : P.Anchor) (reply : Option FrontierState)
    (nodeTip amount fee : UInt64) :
    Stage W × Bool :=
  match reply with
  | none => (.ended (.error (.err .cannotValidate)), false)
  | some frontier =>
    match (GlobalTree.fromState frontier : Except TreeStateError (GlobalTree P)) with
    | .error _ => (.ended (.error (.err .invalidFrontier)), false)
    | .ok tree =>
      if size ≠ frontier.size ∨ anchor ≠ tree.anchor then (.ended (.error (.err .checkpointDiverged)), true)
      else if e.outdated nodeTip then (.ended (.error (.err .stillUpdating)), false)
      else
        match e.key with
        | .viewing _ => (.ended (.error (.err .viewingKeyOnly)), false)
        | .seed seed =>
          if (checkedAdd amount fee).isNone then (.ended (.error (.err .amountOverflow)), false)
          else if amount = 0 then (.ended (.error (.err .zeroAmount)), false)
          else (.ready seed, false)

/-- The stage after a selection. -/
def afterSelect (fallback : Stage W) : Except (Fault SpendError) (Option (List (Chunk W))) → Stage W
  | .ok (some chunks) => .planned chunks
  | .ok none => fallback
  | .error e => .ended (.error e)

/-- The stage of a request with some chunks left to submit. -/
def nextChunk : List (Chunk W) → Stage W
  | [] => .ended (.ok ())
  | chunk :: chunks => .planned (chunk :: chunks)

/-- `none`: the step is not possible, or the sync task panics. -/
def step (s : Daemon W) : DaemonStep P → Option (Daemon W)
  | .load tip frontier low daaScore blindBelow =>
    if s.loaded.isSome then none
    else do
      let e ← s.loadEntry tip frontier low daaScore blindBelow
      some { s with entries := s.entries ++ [e], loaded := some s.entries.length }
  | .begin request => do
    let k ← s.loaded
    some { s with requests := s.requests ++ [⟨k, request, .started⟩] }
  | .probe i => do
    let r ← s.requests[i]?
    let e ← s.entries[r.entry]?
    match r.request, r.stage with
    | .send .., .started => some (s.setStage i r (.probing e.db.size e.db.anchor))
    | _, _ => none
  | .check i reply nodeTip => do
    let r ← s.requests[i]?
    let e ← s.entries[r.entry]?
    match r.request, r.stage with
    | .send amount fee, .probing size anchor =>
      let (stage, diverged) := checked e size anchor reply nodeTip amount (fee.getD DEFAULT_FEE_SOMPI)
      let e := if diverged then { e with reorgedStrikes := REORG_STRIKES, failed := true } else e
      some ((s.setEntry r.entry e).setStage i r stage)
    | _, _ => none
  | .select i => do
    let r ← s.requests[i]?
    let e ← s.entries[r.entry]?
    match r.request, r.stage with
    | .send amount fee, .ready seed =>
      let e := e.advanceSpendWitnessesBounded
      let stage := afterSelect (.replaying seed) (selectSend e amount (fee.getD DEFAULT_FEE_SOMPI))
      some ((s.setEntry r.entry e).setStage i r stage)
    | .consolidate fee, .started =>
      match e.key with
      | .viewing _ => some (s.setStage i r (.ended (.error (.err .viewingKeyOnly))))
      | .seed _ =>
        let stage :=
          afterSelect .started ((selectConsolidate e (fee.getD DEFAULT_FEE_SOMPI)).map fun chunk => some [chunk])
        some (s.setStage i r stage)
    | _, _ => none
  | .replay i frontier pages => do
    let r ← s.requests[i]?
    match r.request, r.stage with
    | .send amount fee, .replaying seed =>
      let chosen := selectReplay W seed frontier pages amount (fee.getD DEFAULT_FEE_SOMPI)
      some (s.setStage i r (afterSelect .started (chosen.map some)))
    | _, _ => none
  | .submit i verdict => do
    let r ← s.requests[i]?
    match r.stage, verdict with
    | .planned (chunk :: chunks), some txid => some (s.setStage i r (.accepted chunk txid chunks))
    | .planned (_ :: _), none => some (s.setStage i r (.ended (.error (.err .rejected))))
    | _, _ => none
  | .mark i => do
    let r ← s.requests[i]?
    let e ← s.entries[r.entry]?
    match r.stage with
    | .accepted chunk txid chunks =>
      some ((s.setEntry r.entry (e.markAll chunk.positions txid)).setStage i r (nextChunk chunks))
    | _ => none
  | .abandon i => do
    let r ← s.requests[i]?
    some (s.setStage i r (.ended (.error (.err .proofFailed))))
  | .sync input => do
    let k ← s.loaded
    let e ← s.entries[k]?
    let (outcome, e, saved) ← e.syncOneWallet input
    let disk := if outcome = .retired then none else if saved then some e else s.disk
    some { s.setEntry k e with disk, retired := decide (outcome = .retired) }
  | .evict => if s.retired then some { s with loaded := none, retired := false } else none

/-! ## Pending notes -/

/-- Some entry has seen the nullifier on chain. -/
def Observed (nf : NullifierBytes) : Prop := ∃ e ∈ s.entries, nf ∈ e.db.spentNullifiers
  deriving Decidable

/-- The note at this position was parked, and its spend was neither observed nor given up. -/
def Pending (position : Nat) : Prop :=
  ∃ e ∈ s.entries, ∃ p ∈ e.db.pendingSpends, p.note.position = position ∧ ¬ s.Observed p.note.nullifier
  deriving Decidable

/-- No spend is pending. -/
def NonePending : Prop := ∀ e ∈ s.entries, ∀ p ∈ e.db.pendingSpends, s.Observed p.note.nullifier
  deriving Decidable

/-- The next thing request `i` does is to submit this transaction. -/
def Submits (i : Nat) (chunk : Chunk W) : Prop :=
  ∃ r chunks, s.requests[i]? = some r ∧ r.stage = .planned (chunk :: chunks)

/-- A daemon that has just started; what is on disk are the books of a wallet. -/
structure Initial (s : Daemon W) : Prop where
  entries : s.entries = []
  loaded : s.loaded = none
  requests : s.requests = []
  disk : ∀ saved ∈ s.disk, saved.db.InOrder

/-- What holds in every run whose steps are all `Ok`. -/
inductive Reached (Ok : Daemon W → DaemonStep P → Prop) : Daemon W → Prop
  | start {s : Daemon W} (h : s.Initial) : Reached Ok s
  | step {s s' : Daemon W} {st : DaemonStep P} (h : Reached Ok s) (ok : Ok s st) (hs : s.step st = some s') :
    Reached Ok s'

/-- No other request has notes that are chosen and not parked, and the wallet of request `i` is the one
that is loaded. -/
def Undisturbed (i : Nat) : Prop :=
  (∀ j < s.requests.length, j ≠ i → ∀ r ∈ s.requests[j]?, r.stage.busy = false) ∧
    s.loaded = s.requests[i]?.map Request.entry

instance (s : Daemon W) (i : Nat) : Decidable (s.Undisturbed i) := inferInstanceAs (Decidable (_ ∧ _))

/-- Notes are chosen by one request at a time, from the wallet that is loaded; the chain is replayed, and
a wallet loaded again, only while no spend is pending. -/
def OneAtATime : DaemonStep P → Prop
  | .select i => s.Undisturbed i
  | .replay i _ _ => s.Undisturbed i ∧ s.NonePending
  | .load .. => s.NonePending ∧ ∀ r ∈ s.requests, r.stage.busy = false
  | _ => True

instance (s : Daemon W) : ∀ st, Decidable (s.OneAtATime st)
  | .select i => inferInstanceAs (Decidable (s.Undisturbed i))
  | .replay .. | .load .. => inferInstanceAs (Decidable (_ ∧ _))
  | .begin _ | .probe _ | .check .. | .submit .. | .mark _ | .abandon _ | .sync _ | .evict => .isTrue trivial

/-! ## What every step keeps -/

structure Safe (s : Daemon W) : Prop where
  books : ∀ e ∈ s.entries, e.db.InOrder
  disk : ∀ saved ∈ s.disk, saved.db.InOrder
  /-- The loaded entry is the newest. -/
  newest : ∀ k ∈ s.loaded, k + 1 = s.entries.length
  /-- In the older entries nothing is pending. -/
  older : ∀ k e, s.entries[k]? = some e → k + 1 < s.entries.length →
    ∀ p ∈ e.db.pendingSpends, s.Observed p.note.nullifier
  nodup : ∀ r ∈ s.requests, r.stage.positions.Nodup
  apart : ∀ r ∈ s.requests, ∀ p ∈ r.stage.positions, ¬ s.Pending p
  single : ∀ (i j : Nat) (r r' : Request W), s.requests[i]? = some r → s.requests[j]? = some r' → r.stage.busy →
    r'.stage.busy → i = j
  home : ∀ r ∈ s.requests, r.stage.busy → r.entry + 1 = s.entries.length

variable {s s' : Daemon W}

theorem Initial.safe (h : s.Initial) : s.Safe where
  books := by simp [h.entries]
  disk := h.disk
  newest := by simp [h.loaded]
  older := by simp [h.entries]
  nodup := by simp [h.requests]
  apart := by simp [h.requests]
  single := by simp [h.requests]
  home := by simp [h.requests]

section

variable (s : Daemon W) (i : Nat) (r : Request W) (stage : Stage W)

@[simp] theorem setStage_entries :
    (s.setStage i r stage).entries = s.entries := rfl

@[simp] theorem setStage_loaded :
    (s.setStage i r stage).loaded = s.loaded := rfl

end

section

variable (s : Daemon W) (k : Nat) (e : WalletEntry W)

@[simp] theorem setEntry_requests : (s.setEntry k e).requests = s.requests := rfl

@[simp] theorem setEntry_loaded : (s.setEntry k e).loaded = s.loaded := rfl

@[simp] theorem setEntry_length :
    (s.setEntry k e).entries.length = s.entries.length := length_set

end

variable {stage : Stage W}

/-- A request with nothing chosen has no positions. -/
theorem Stage.positions_of_not_busy (h : stage.busy = false) : stage.positions = [] := by
  have none : stage.remaining = [] := by simpa [Stage.busy] using h
  rw [Stage.positions, none]
  rfl

/-! ### Changes of an entry -/

variable {k : Nat} {e : WalletEntry W}

section

variable {e' : WalletEntry W}

/-- What is known of an entry that replaces another one: it has seen all that the other had. -/
theorem Observed.setEntry {nf : NullifierBytes} (he : s.entries[k]? = some e)
    (spent : e.db.spentNullifiers ⊆ e'.db.spentNullifiers) (h : s.Observed nf) : (s.setEntry k e').Observed nf := by
  obtain ⟨e₀, mem, seen⟩ := h
  obtain ⟨j, hj⟩ := mem_iff_getElem?.mp mem
  by_cases same : j = k
  · subst same
    obtain rfl := some.inj (hj.symm.trans he)
    have inside : j < s.entries.length := (List.getElem?_eq_some_iff.mp he).1
    exact ⟨e', mem_iff_getElem?.mpr ⟨j, by simp [Daemon.setEntry, inside]⟩, spent seen⟩
  · exact ⟨e₀, mem_iff_getElem?.mpr ⟨j, by rw [← hj]; exact getElem?_set_ne (Ne.symm same)⟩, seen⟩

/-- What is pending after an entry was replaced was so before, or is new in it. -/
theorem Pending.of_setEntry {position : Nat} (he : s.entries[k]? = some e)
    (spent : e.db.spentNullifiers ⊆ e'.db.spentNullifiers) (h : (s.setEntry k e').Pending position) :
    s.Pending position ∨ ∃ p ∈ e'.db.pendingSpends, p.note.position = position ∧ p ∉ e.db.pendingSpends := by
  obtain ⟨e₀, mem, p, hp, at_, unseen⟩ := h
  have before : ¬ s.Observed p.note.nullifier := fun seen => unseen (seen.setEntry he spent)
  rcases mem_or_eq_of_mem_set mem with mem | rfl
  · exact .inl ⟨e₀, mem, p, hp, at_, before⟩
  · by_cases old : p ∈ e.db.pendingSpends
    · exact .inl ⟨e, mem_of_getElem? he, p, old, at_, before⟩
    · exact .inr ⟨p, hp, at_, old⟩

/-- An entry is replaced; what it parks is new in the loaded wallet and chosen by no request. -/
theorem Safe.replaceEntry (h : s.Safe) (he : s.entries[k]? = some e) (books : e'.db.InOrder)
    (spent : e.db.spentNullifiers ⊆ e'.db.spentNullifiers)
    (fresh : ∀ p ∈ e'.db.pendingSpends, p ∉ e.db.pendingSpends →
      k + 1 = s.entries.length ∧ ∀ r ∈ s.requests, p.note.position ∉ r.stage.positions) : (s.setEntry k e').Safe where
  books := by
    intro e₀ mem
    rcases mem_or_eq_of_mem_set mem with mem | rfl
    · exact h.books e₀ mem
    · exact books
  disk := h.disk
  newest := by simpa using h.newest
  older := by
    intro j e₀ hj below p hp
    rw [setEntry_length] at below
    by_cases same : j = k
    · subst same
      have inside : j < s.entries.length := (List.getElem?_eq_some_iff.mp he).1
      have : e' = e₀ := by simpa [Daemon.setEntry, inside] using hj
      subst this
      have old : p ∈ e.db.pendingSpends := by
        by_contra new
        exact below.ne (fresh p hp new).1
      exact (h.older j e he below p old).setEntry he spent
    · have hj : s.entries[j]? = some e₀ := by rw [← hj]; exact (getElem?_set_ne (Ne.symm same)).symm
      exact (h.older j e₀ hj below p hp).setEntry he spent
  nodup := h.nodup
  apart := by
    intro r hr p hp waiting
    rcases waiting.of_setEntry he spent with old | ⟨q, new, rfl, absent⟩
    · exact h.apart r hr p hp old
    · exact (fresh q new absent).2 r hr hp
  single := h.single
  home := by simpa using h.home

theorem Safe.setEntry (h : s.Safe) (he : s.entries[k]? = some e)
    (follows : WalletDb.Follows e.db e'.db) : (s.setEntry k e').Safe :=
  h.replaceEntry he ((h.books e (mem_of_getElem? he)).follows follows) follows.settles.spent fun _ new absent =>
    absurd (follows.settles.pending.subset new) absent

end

/-! ### Changes of a request -/

variable {i : Nat} {r : Request W}

/-- The request at place `j` is the new one or an old one. -/
theorem setStage_getElem? {j : Nat} {r' : Request W} (hr : s.requests[i]? = some r)
    (hj : (s.setStage i r stage).requests[j]? = some r') :
    j = i ∧ r'.stage = stage ∨ j ≠ i ∧ s.requests[j]? = some r' := by
  have inside : i < s.requests.length := (List.getElem?_eq_some_iff.mp hr).1
  by_cases same : i = j
  · subst same
    have : { r with stage } = r' := by simpa [Daemon.setStage, inside] using hj
    subst this
    exact .inl ⟨rfl, rfl⟩
  · exact .inr ⟨Ne.symm same, by rw [← hj]; exact (getElem?_set_ne same).symm⟩

section

variable (h : s.Safe) (hr : s.requests[i]? = some r)
include h hr

/-- A request takes another stage; if it has notes then, no other one has, and they are of the loaded wallet. -/
theorem Safe.replaceStage (nodup : stage.positions.Nodup)
    (apart : ∀ p ∈ stage.positions, ¬ s.Pending p)
    (alone : stage.busy → (∀ j r', s.requests[j]? = some r' → r'.stage.busy → j = i) ∧ r.entry + 1 = s.entries.length) :
    (s.setStage i r stage).Safe where
  books := h.books
  disk := h.disk
  newest := h.newest
  older := h.older
  nodup := by
    intro r' hr'
    rcases mem_or_eq_of_mem_set hr' with old | rfl
    · exact h.nodup r' old
    · exact nodup
  apart := by
    intro r' hr' p hp
    rcases mem_or_eq_of_mem_set hr' with old | rfl
    · exact h.apart r' old p hp
    · exact apart p hp
  single := by
    intro j j' r₁ r₂ hj hj' busy₁ busy₂
    rcases setStage_getElem? hr hj with ⟨rfl, rfl⟩ | ⟨-, old⟩ <;>
      rcases setStage_getElem? hr hj' with ⟨rfl, same⟩ | ⟨-, old'⟩
    · rfl
    · exact ((alone busy₁).1 j' r₂ old' busy₂).symm
    · exact (alone (same ▸ busy₂)).1 j r₁ old busy₁
    · exact h.single j j' r₁ r₂ old old' busy₁ busy₂
  home := by
    intro r' hr' busy'
    rcases mem_or_eq_of_mem_set hr' with old | rfl
    · exact h.home r' old busy'
    · exact (alone busy').2

/-- A request goes on with some of the notes it had. -/
theorem Safe.setStage (fewer : stage.positions.Sublist r.stage.positions) (busy : stage.busy → r.stage.busy) :
    (s.setStage i r stage).Safe := by
  have mem := mem_of_getElem? hr
  exact h.replaceStage hr ((h.nodup r mem).sublist fewer) (fun p hp => h.apart r mem p (fewer.subset hp)) fun now =>
    ⟨fun j r' hj busy' => h.single j i r' r hj hr busy' (busy now), h.home r mem (busy now)⟩

/-- An undisturbed request chooses notes of which none is pending. -/
theorem Safe.choose (alone : s.Undisturbed i) (nodup : stage.positions.Nodup)
    (apart : ∀ p ∈ stage.positions, ¬ s.Pending p) :
    (s.setStage i r stage).Safe := by
  refine h.replaceStage hr nodup apart fun _ => ⟨fun j r' hj busy => ?_, ?_⟩
  · by_contra other
    rw [alone.1 j (List.getElem?_eq_some_iff.mp hj).1 other r' hj] at busy
    cases busy
  · have loaded := alone.2
    rw [hr] at loaded
    exact h.newest r.entry loaded

/-- A request may always choose nothing. -/
theorem Safe.end_ (idle : stage.busy = false) : (s.setStage i r stage).Safe := by
  refine h.setStage hr ?_ ?_
  · rw [Stage.positions_of_not_busy idle]
    exact nil_sublist _
  · intro busy
    rw [idle] at busy
    cases busy

end

theorem Safe.listed_not_pending (h : s.Safe) (newest : k + 1 = s.entries.length)
    (he : s.entries[k]? = some e) {p : Nat} (listed : p ∈ e.db.notes.map (·.position)) : ¬ s.Pending p := by
  rintro ⟨e₀, mem, spend, hspend, at_, unseen⟩
  obtain ⟨j, hj⟩ := mem_iff_getElem?.mp mem
  have inside : j < s.entries.length := (List.getElem?_eq_some_iff.mp hj).1
  by_cases same : j = k
  · subst same
    obtain rfl := some.inj (hj.symm.trans he)
    exact (h.books e₀ mem).not_parked listed spend hspend at_
  · exact unseen (h.older j e₀ hj (by omega) spend hspend)

/-! ### Parking -/

theorem markAll_inOrder (h : e.db.InOrder) (positions : List Nat) (txid : Bytes32) :
    (e.markAll positions txid).db.InOrder :=
  foldlRecOn positions _ h fun _ ih p _ => ih.markSpent p txid e.scanned

section

variable (e : WalletEntry W) (positions : List Nat) (txid : Bytes32)

theorem markAll_pending :
    ∀ p ∈ (e.markAll positions txid).db.pendingSpends, p ∈ e.db.pendingSpends ∨ p.note.position ∈ positions := by
  refine foldlRecOn (motive := fun db : WalletDb W => ∀ p ∈ db.pendingSpends, p ∈ e.db.pendingSpends ∨
    p.note.position ∈ positions) positions _
    (fun _ => .inl) fun db ih q hq p hp => ?_
  rcases db.markSpent_pending q txid e.scanned p hp with old | here
  · exact ih p old
  · exact .inr (here ▸ hq)

theorem markAll_spent :
    (e.markAll positions txid).db.spentNullifiers = e.db.spentNullifiers :=
  foldlRecOn (motive := fun db : WalletDb W => db.spentNullifiers = e.db.spentNullifiers) positions _ rfl
    fun db ih q _ => (db.markSpent_spent q txid e.scanned).trans ih

end

/-- The notes of an accepted transaction are parked; the request keeps the others. -/
theorem Safe.mark {chunk : Chunk W} {txid : Bytes32} {chunks : List (Chunk W)}
    (h : s.Safe) (hr : s.requests[i]? = some r) (he : s.entries[r.entry]? = some e)
    (stage : r.stage = .accepted chunk txid chunks) :
    ((s.setEntry r.entry (e.markAll chunk.positions txid)).setStage i r (nextChunk chunks)).Safe := by
  have mem := mem_of_getElem? hr
  have busy : r.stage.busy := by rw [stage]; rfl
  have positions : r.stage.positions = chunk.positions ++ (nextChunk chunks).positions := by
    rw [stage]
    cases chunks <;> rfl
  have nodup := h.nodup r mem
  rw [positions] at nodup
  have fewer : (nextChunk chunks).positions.Sublist r.stage.positions := positions ▸ sublist_append_right _ _
  refine (h.setStage hr fewer fun _ => busy).replaceEntry he (markAll_inOrder (h.books e (mem_of_getElem? he)) _ _)
    (by rw [markAll_spent]) fun p new absent => ⟨h.home r mem busy, fun r' hr' hp => ?_⟩
  have parked : p.note.position ∈ chunk.positions := (markAll_pending e chunk.positions txid p new).resolve_left absent
  obtain ⟨j, hj⟩ := mem_iff_getElem?.mp hr'
  rcases setStage_getElem? hr hj with ⟨-, rest⟩ | ⟨other, hj⟩
  · rw [rest] at hp
    exact (nodup_append.mp nodup).2.2 _ parked _ hp rfl
  · -- no other request has anything chosen
    have idle : r'.stage.busy = false := by
      by_contra busy'
      exact other (h.single j i r' r hj hr (by simpa using busy') busy)
    rw [Stage.positions_of_not_busy idle] at hp
    cases hp

/-! ### Loading -/

theorem restoredEntry_inOrder {fvk : W.Fvk} {tip : Option FrontierState} (disk : ∀ saved ∈ s.disk, saved.db.InOrder)
    (h : s.restoredEntry fvk tip = some (some e)) : e.db.InOrder := by
  unfold restoredEntry at h
  split at h
  · cases h
  · cases h
  · rename_i saved tip hd
    dsimp only at h
    split at h
    · cases h
      have books : saved.db.InOrder := disk saved hd
      exact books.of_same rfl rfl rfl rfl rfl
    · cases h

theorem loadEntry_inOrder {tip : Option FrontierState} {frontier : FrontierState} {low : Hash} {daaScore : UInt64}
    {blindBelow : Nat} (disk : ∀ saved ∈ s.disk, saved.db.InOrder)
    (h : s.loadEntry tip frontier low daaScore blindBelow = some e) : e.db.InOrder := by
  obtain ⟨fresh, opened, h⟩ := bind_eq_some_iff.mp h
  obtain ⟨fvk, rfl⟩ := WalletKey.wallet_eq_fresh opened
  obtain ⟨restored, hrestored, h⟩ := bind_eq_some_iff.mp h
  obtain ⟨e₀, h₀, h⟩ := bind_eq_some_iff.mp h
  cases h
  have books : e₀.db.InOrder := by
    cases restored with
    | some e' =>
      cases h₀
      exact restoredEntry_inOrder disk hrestored
    | none =>
      obtain ⟨db, rooted, rfl⟩ := map_eq_some_iff.mp h₀
      have started : WalletDb.Started db := .frontier rooted
      exact started.accounts
  exact books.of_same rfl rfl rfl rfl rfl

/-- A wallet is loaded while nothing is pending and no request has anything chosen. -/
theorem Safe.load (h : s.Safe) (books : e.db.InOrder) (quiet : s.NonePending)
    (idle : ∀ r ∈ s.requests, r.stage.busy = false) :
    ({ s with entries := s.entries ++ [e], loaded := some s.entries.length } : Daemon W).Safe where
  books := by
    intro e₀ mem
    rcases mem_append.mp mem with old | new
    · exact h.books e₀ old
    · obtain rfl := mem_singleton.mp new
      exact books
  disk := h.disk
  newest := by simp
  older := by
    intro k e₀ hk below p hp
    have inside : k < s.entries.length := by simpa using below
    rw [getElem?_append_left inside] at hk
    obtain ⟨e₁, mem, seen⟩ := quiet e₀ (mem_of_getElem? hk) p hp
    exact ⟨e₁, mem_append_left _ mem, seen⟩
  nodup := h.nodup
  apart := by
    intro r hr p hp
    rw [Stage.positions_of_not_busy (idle r hr)] at hp
    cases hp
  single := h.single
  home := by
    intro r hr busy
    rw [idle r hr] at busy
    cases busy

theorem Safe.begin {request : SpendRequest} (h : s.Safe) :
    ({ s with requests := s.requests ++ [⟨k, request, .started⟩] } : Daemon W).Safe := by
  have old : ∀ r ∈ s.requests ++ [⟨k, request, .started⟩], r.stage.busy → r ∈ s.requests := by
    intro r hr busy
    rcases mem_append.mp hr with old | new
    · exact old
    · obtain rfl := mem_singleton.mp new
      cases busy
  have place : ∀ (j : Nat) (r : Request W), (s.requests ++ [⟨k, request, .started⟩])[j]? = some r → r.stage.busy →
      s.requests[j]? = some r := by
    intro j r hj busy
    by_cases inside : j < s.requests.length
    · rwa [getElem?_append_left inside] at hj
    · rw [getElem?_append_right (by omega)] at hj
      obtain rfl := mem_singleton.mp (mem_of_getElem? hj)
      cases busy
  exact
    { books := h.books
      disk := h.disk
      newest := h.newest
      older := h.older
      nodup := by
        intro r hr
        by_cases busy : r.stage.busy
        · exact h.nodup r (old r hr busy)
        · rw [Stage.positions_of_not_busy (by simpa using busy)]
          exact nodup_nil
      apart := by
        intro r hr p hp
        by_cases busy : r.stage.busy
        · exact h.apart r (old r hr busy) p hp
        · rw [Stage.positions_of_not_busy (by simpa using busy)] at hp
          cases hp
      single := fun i j r r' hi hj busy busy' => h.single i j r r' (place i r hi busy) (place j r' hj busy') busy busy'
      home := fun r hr busy => h.home r (old r hr busy) busy }

/-! ### Steps -/

theorem advanceSpendWitnessesBounded_follows (e : WalletEntry W) :
    WalletDb.Follows e.db e.advanceSpendWitnessesBounded.db := by
  unfold WalletEntry.advanceSpendWitnessesBounded
  split
  · exact .refl _
  · rename_i matured _
    split
    · exact .apply (.advanceWitnessesCapped matured (U64_BOUND - 1)) rfl rfl
    · exact .refl _

/-- A selection under the lock of the loaded wallet. -/
theorem Safe.select {fallback : Stage W}
    {chosen : Except (Fault SpendError) (Option (List (Chunk W)))} (h : s.Safe) (hr : s.requests[i]? = some r)
    (he : s.entries[r.entry]? = some e) (alone : s.Undisturbed i) (idle : fallback.busy = false)
    (listed : ∀ chunks, chosen = .ok (some chunks) → ChosenFrom e.db.notes chunks) :
    (s.setStage i r (afterSelect fallback chosen)).Safe := by
  have loaded := alone.2
  rw [hr] at loaded
  have newest := h.newest r.entry loaded
  cases chosen with
  | error fault => exact h.end_ hr rfl
  | ok chunks =>
    cases chunks with
    | none => exact h.end_ hr idle
    | some chunks =>
      have chosen := listed chunks rfl
      exact h.choose hr alone chosen.nodup fun p hp => h.listed_not_pending newest he (chosen.listed p hp)

theorem Undisturbed.setEntry (h : s.Undisturbed i) : (s.setEntry k e).Undisturbed i := h

/-- Every step that keeps to one selection at a time keeps the requests apart. -/
theorem Safe.step {st : DaemonStep P} (h : s.Safe) (ok : s.OneAtATime st) (hs : s.step st = some s') : s'.Safe := by
  cases st with
  | load tip frontier low daaScore blindBelow =>
    simp only [Daemon.step] at hs
    split at hs
    · cases hs
    · obtain ⟨e, loaded, hs⟩ := bind_eq_some_iff.mp hs
      cases hs
      exact h.load (loadEntry_inOrder h.disk loaded) ok.1 ok.2
  | begin request =>
    obtain ⟨k, -, hs⟩ := bind_eq_some_iff.mp hs
    cases hs
    exact h.begin
  | probe i =>
    obtain ⟨r, hr, hs⟩ := bind_eq_some_iff.mp hs
    obtain ⟨e, he, hs⟩ := bind_eq_some_iff.mp hs
    split at hs
    · cases hs
      exact h.end_ hr rfl
    · cases hs
  | check i reply nodeTip =>
    obtain ⟨r, hr, hs⟩ := bind_eq_some_iff.mp hs
    obtain ⟨e, he, hs⟩ := bind_eq_some_iff.mp hs
    split at hs
    · rename_i amount fee size anchor _ _
      cases hs
      have idle : (checked e size anchor reply nodeTip amount (fee.getD DEFAULT_FEE_SOMPI)).1.busy = false := by
        unfold checked
        repeat' split
        all_goals rfl
      have moved :
          (s.setEntry r.entry (if (checked e size anchor reply nodeTip amount (fee.getD DEFAULT_FEE_SOMPI)).2 then
          { e with reorgedStrikes := REORG_STRIKES, failed := true } else e)).Safe := by
        refine h.setEntry he ?_
        split <;> exact .refl _
      exact moved.end_ hr idle
    · cases hs
  | select i =>
    obtain ⟨r, hr, hs⟩ := bind_eq_some_iff.mp hs
    obtain ⟨e, he, hs⟩ := bind_eq_some_iff.mp hs
    have inside : r.entry < s.entries.length := (List.getElem?_eq_some_iff.mp he).1
    split at hs
    · cases hs
      have moved := h.setEntry he (advanceSpendWitnessesBounded_follows e)
      have here : (s.setEntry r.entry e.advanceSpendWitnessesBounded).entries[r.entry]? =
          some e.advanceSpendWitnessesBounded := by
        simp [Daemon.setEntry, inside]
      exact moved.select hr here (Undisturbed.setEntry ok) rfl fun chunks chosen =>
        selectSend_chosen (moved.books _ (mem_of_getElem? here)).notes_nodup chosen
    · split at hs
      · cases hs
        exact h.end_ hr rfl
      · cases hs
        refine h.select hr he ok rfl fun chunks chosen => ?_
        obtain ⟨chunk, found, one⟩ := Except.map_eq_ok_iff.mp chosen
        cases one
        exact selectConsolidate_chosen (h.books e (mem_of_getElem? he)).notes_nodup found
    · cases hs
  | replay i frontier pages =>
    obtain ⟨r, hr, hs⟩ := bind_eq_some_iff.mp hs
    split at hs
    · rename_i amount fee seed _ _
      cases hs
      cases chosen : selectReplay W seed frontier pages amount (fee.getD DEFAULT_FEE_SOMPI) with
      | error fault => exact h.end_ hr rfl
      | ok chunks =>
        refine h.choose hr ok.1 (selectReplay_nodup chosen) fun p _ => ?_
        rintro ⟨e, mem, spend, hspend, -, unseen⟩
        exact unseen (ok.2 e mem spend hspend)
    · cases hs
  | submit i verdict =>
    obtain ⟨r, hr, hs⟩ := bind_eq_some_iff.mp hs
    split at hs
    · rename_i chunk chunks txid stage _
      cases hs
      refine h.setStage hr ?_ ?_
      · rw [stage]
        exact List.Sublist.refl _
      · rw [stage]
        exact fun _ => rfl
    · cases hs
      exact h.end_ hr rfl
    · cases hs
  | mark i =>
    obtain ⟨r, hr, hs⟩ := bind_eq_some_iff.mp hs
    obtain ⟨e, he, hs⟩ := bind_eq_some_iff.mp hs
    split at hs
    · rename_i chunk txid chunks stage
      cases hs
      exact h.mark hr he stage
    · cases hs
  | abandon i =>
    obtain ⟨r, hr, hs⟩ := bind_eq_some_iff.mp hs
    cases hs
    exact h.end_ hr rfl
  | sync input =>
    obtain ⟨k, loaded, hs⟩ := bind_eq_some_iff.mp hs
    obtain ⟨e, he, hs⟩ := bind_eq_some_iff.mp hs
    obtain ⟨⟨outcome, e', saved⟩, pass, hs⟩ := bind_eq_some_iff.mp hs
    cases hs
    have follows := WalletEntry.syncOneWallet_follows pass
    have moved := h.setEntry he follows
    refine { moved with disk := ?_ }
    intro kept hkept
    split at hkept
    · cases hkept
    · split at hkept
      · cases hkept
        exact (h.books e (mem_of_getElem? he)).follows follows
      · exact h.disk kept hkept
  | evict =>
    simp only [Daemon.step] at hs
    split at hs
    · cases hs
      exact { h with newest := fun k hk => nomatch hk }
    · cases hs

theorem Reached.safe (h : Reached OneAtATime s) : s.Safe := by
  induction h with
  | start h => exact h.safe
  | step _ ok hs ih => exact ih.step ok hs

/-- **No note is submitted again while its spend is pending**, in any run in which notes are chosen by one
request at a time, from the wallet that is loaded, and the chain is replayed, or a wallet loaded, only
while no spend is pending. -/
theorem inputs_not_pending {s : Daemon W} (reached : Reached OneAtATime s) {i : Nat} {chunk : Chunk W}
    (submits : s.Submits i chunk) :
    ∀ input ∈ chunk.inputs, ¬ s.Pending input.1.position := by
  obtain ⟨r, chunks, hr, stage⟩ := submits
  intro input hinput
  refine reached.safe.apart r (mem_of_getElem? hr) _ ?_
  rw [stage]
  exact mem_append_left _ (mem_map_of_mem hinput)

/-! ## Two runs -/

def run (s : Daemon W) (steps : List (DaemonStep P)) : Option (Daemon W) := steps.foldlM step s

/-- All steps of a run are `Ok` where they are taken. -/
def AllOk (Ok : Daemon W → DaemonStep P → Prop) : Daemon W → List (DaemonStep P) → Prop
  | _, [] => True
  | s, st :: steps => Ok s st ∧ ∀ s' ∈ s.step st, AllOk Ok s' steps

instance decidableAllOk : ∀ (s : Daemon W) steps, Decidable (AllOk OneAtATime s steps)
  | _, [] => .isTrue trivial
  | s, st :: steps =>
    have : Decidable (∀ s' ∈ s.step st, AllOk OneAtATime s' steps) :=
      match s.step st with
      | none => .isTrue fun _ h => nomatch h
      | some s' =>
        have := decidableAllOk s' steps
        decidable_of_iff (AllOk OneAtATime s' steps) ⟨fun h _ e => some.inj e ▸ h, fun h => h s' rfl⟩
    inferInstanceAs (Decidable (OneAtATime s st ∧ ∀ s' ∈ s.step st, AllOk OneAtATime s' steps))

theorem Reached.run {Ok : Daemon W → DaemonStep P → Prop} {steps : List (DaemonStep P)} (h : Reached Ok s)
    (ok : AllOk Ok s steps) (hs : s.run steps = some s') : Reached Ok s' := by
  induction hs using foldlM_induction with
  | nil => exact h
  | cons st steps s s₁ first _ ih => exact ih (h.step ok.1 first) (ok.2 s₁ first)

theorem allOk_any (s : Daemon W) (steps : List (DaemonStep P)) : AllOk (fun _ _ => True) s steps := by
  induction steps generalizing s with
  | nil => trivial
  | cons st steps ih => exact ⟨trivial, fun s' _ => ih s'⟩

/-- A daemon without a checkpoint, for the wallet with key 7. -/
def started : Daemon leafLists := ⟨.seed 7, [], none, none, false, []⟩

theorem started_initial : started.Initial := ⟨rfl, rfl, rfl, fun _ h => nomatch h⟩

/-- The wallet mines two notes of ten million, which mature. -/
def minedAndMatured : List (DaemonStep leafPrim) :=
  [.load none ⟨0, none, []⟩ 0 0 0,
    .sync ⟨[.page ⟨false, 2000, [⟨1, 100, 100, [(WalletDb.minedNote, 10000000, 10000040)], [], [], 0, 0⟩,
        ⟨2, 101, 101, [(⟨7, 50, 0⟩, 10000000, 10000050)], [], [], 0, 0⟩]⟩,
      .page ⟨false, 2000, []⟩], [], false⟩]

/-- A request to send a million, up to the point where its notes are chosen. -/
def chooses (i : Nat) : List (DaemonStep leafPrim) :=
  [.begin (.send 1000000 none), .probe i, .check i (some ⟨2, some 10000050, [10000040]⟩) 100, .select i]

/-- Request 0 is accepted and parks its notes. -/
def parks : List (DaemonStep leafPrim) := [.submit 0 (some 99), .mark 0]

/-- The note request `i` spends next. -/
def nextInput (s : Daemon leafLists) (i : Nat) : Option (Chunk leafLists) :=
  s.requests[i]?.bind fun r =>
    match r.stage with
    | .planned (chunk :: _) => some chunk
    | _ => none

theorem submits_of_nextInput {s : Daemon leafLists} {chunk : Chunk leafLists} (h : s.nextInput i = some chunk) :
    s.Submits i chunk := by
  obtain ⟨r, hr, h⟩ := bind_eq_some_iff.mp h
  cases stage : r.stage with
  | planned chunks =>
    rw [stage] at h
    cases chunks with
    | nil => cases h
    | cons first rest =>
      cases h
      exact ⟨r, rest, hr, stage⟩
  | _ =>
    rw [stage] at h
    cases h

/-- One request after the other: the first has parked a note, and the second is about to submit the other one. -/
theorem inputs_not_pending_once : ∃ (s : Daemon leafLists) (chunk : Chunk leafLists), Reached OneAtATime s ∧
    s.Pending 0 ∧
    s.Submits 1 chunk ∧ chunk.positions = [1] ∧ ∀ input ∈ chunk.inputs, ¬ s.Pending input.1.position := by
  have reached : (started.run (minedAndMatured ++ chooses 0 ++ parks ++ chooses 1)).any fun s => decide (s.Pending 0 ∧
      (s.nextInput 1).any fun chunk => decide (chunk.positions = [1])) := by decide +kernel
  obtain ⟨s, hrun, chosen⟩ := (Option.any_eq_true ..).mp reached
  obtain ⟨pending, chosen⟩ := of_decide_eq_true chosen
  obtain ⟨chunk, next, positions⟩ := (Option.any_eq_true ..).mp chosen
  have ok : Reached OneAtATime s := (Reached.start started_initial).run (by decide +kernel) hrun
  have submits := submits_of_nextInput next
  exact ⟨s, chunk, ok, pending, submits, of_decide_eq_true positions, inputs_not_pending ok submits⟩

/-- Two requests choose the same note; the first is accepted and parks it, and the second submits it. -/
def bothChoose : List (DaemonStep leafPrim) :=
  minedAndMatured ++ chooses 0 ++ chooses 1 ++ parks

/-- **A pending note is submitted again**: the second request chose it before the first had parked it. -/
theorem respent_while_pending : ∃ (s : Daemon leafLists) (chunk : Chunk leafLists), Reached (fun _ _ => True) s ∧
    s.Submits 1 chunk ∧
    ∃ input ∈ chunk.inputs, s.Pending input.1.position := by
  have reached : (started.run bothChoose).any fun s => (s.nextInput 1).any fun chunk =>
      chunk.inputs.any fun input => decide (s.Pending input.1.position) := by decide +kernel
  obtain ⟨s, hrun, chosen⟩ := (Option.any_eq_true ..).mp reached
  obtain ⟨chunk, next, chosen⟩ := (Option.any_eq_true ..).mp chosen
  obtain ⟨input, hinput, pending⟩ := any_eq_true.mp chosen
  exact ⟨s, chunk, (Reached.start started_initial).run (allOk_any ..) hrun, submits_of_nextInput next, input, hinput,
    of_decide_eq_true pending⟩

end Daemon

end Firecash
