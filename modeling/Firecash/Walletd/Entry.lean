import Firecash.Wallet.Checkpoint

/-!
# A loaded wallet and its sync pass (zkas-walletd/src/lib.rs)

The daemon keeps each loaded wallet in a `WalletEntry`. A sync pass, which holds the wallet's lock to
its end, asks the node for pages of chain blocks after the cursor and ingests those that are settled,
tops up the live witnesses, hands expired spends back and decides whether the checkpoint is written.

Which steps of the witness upkeep a pass gets to depends on the clock and on permits, and so does
whether it ends warm: a pass takes both as input (`SyncInput`), with the replies of the node. Previews
of blocks that are not settled, which touch nothing but the display, are left out, and a checkpoint
that is written arrives on disk.
-/

namespace Firecash

open Checked List Option

variable {P : Prim} {W : WalletPrim P}

def DEFAULT_ANCHOR_DEPTH : UInt64 := 600

def ANCHOR_SLACK : UInt64 := 30

def SYNC_TIP_MARGIN : UInt64 := 200

def SYNC_MARGIN : UInt64 := 32

def REORG_STRIKES : Nat := 3

def PAGES_PER_CHUNK : Nat := 4

def CHECKPOINT_EVERY : Nat := 1000

def PENDING_SPEND_EXPIRY_DAA : UInt64 := 3600

def EAGER_WARM_MAX_NOTES : Nat := 32

def SPENDABLE_WITNESS_BUDGET : Nat := 12

/-- `MATURED_RING` (lib.rs:1353) -/
def MATURED_RING : Nat := (DEFAULT_ANCHOR_DEPTH + ANCHOR_SLACK).toNat + 64

/-- `DecodedBlock` (lib.rs:1129) -/
structure DecodedBlock (P : Prim) where
  hash : Hash
  blueScore : UInt64
  daaScore : UInt64
  coinbase : List (CoinbaseNoteDesc × UInt64 × P.Cmx)
  compact : List (List CompactActionRecord)
  txids : List Bytes32
  coinbaseTxid : Bytes32
  timestamp : UInt64

/-- `DecodedPage` (lib.rs:1147) -/
structure DecodedPage (P : Prim) where
  reorged : Bool
  sinkBlueScore : UInt64
  blocks : List (DecodedBlock P)

/-- How a page fetch ends. -/
inductive PageReply (P : Prim) where
  | page (page : DecodedPage P)
  /-- Timed out, or an error that says nothing about the cursor. -/
  | unavailable
  /-- The node answered that the cursor is gone. -/
  | cursorGone

/-- `WalletEntry` (lib.rs:1269) -/
structure WalletEntry (W : WalletPrim P) where
  key : WalletKey
  db : WalletDb W
  low : Hash
  caughtUp : Bool
  scanned : UInt64
  /-- `error.is_some()` -/
  failed : Bool
  savedScanned : UInt64
  /-- `(blue_score, absolute leaf count)` after each ingested block, oldest first. -/
  boundaries : List (UInt64 × Nat)
  sinkBlue : UInt64
  reorgedStrikes : Nat
  forceCheckpoint : Bool
  blindBelow : Nat

/-- A step of the witness upkeep, with its cap on leaves or the note it adopts. -/
inductive UpkeepCall where
  | advanceBase (maxLeaves : Nat)
  | advanceWitnesses (maxLeaves : Nat)
  | installWitness (position : Nat)

/-- What a pass depends on besides the entry. -/
structure SyncInput (P : Prim) where
  replies : List (PageReply P)
  upkeep : List UpkeepCall
  /-- The upkeep asks for a checkpoint. -/
  warmed : Bool

/-- `SyncOutcome` (lib.rs:2481) -/
inductive SyncOutcome where
  | retired
  | behind
  | idle
  deriving DecidableEq

namespace DecodedBlock

/-- The metadata a history row needs; a node without the newer fields serves none. -/
def info (b : DecodedBlock P) : Option BlockMeta :=
  if 0 < b.timestamp ∧ b.txids.length = b.compact.length then some ⟨b.coinbaseTxid, b.txids, b.timestamp,
    b.daaScore⟩ else none

def walletBlock (b : DecodedBlock P) : WalletBlock P := .compactPrecomputed b.coinbase b.compact

end DecodedBlock

def UpkeepCall.op (matured : Nat) : UpkeepCall → WalletOp P
  | .advanceBase maxLeaves => .advanceBaseCapped matured maxLeaves
  | .advanceWitnesses maxLeaves => .advanceWitnessesCapped matured maxLeaves
  | .installWitness position => .installWitness position matured

namespace WalletEntry

/-- `WalletEntry::from_parts` (lib.rs:1375), with `blind_below` set afterwards. -/
def fromParts (key : WalletKey) (db : WalletDb W) (low : Hash) (scanned : UInt64) (boundaries : List (UInt64 × Nat))
    (sinkBlue : UInt64) (blindBelow : Nat) : WalletEntry W where
  key := key
  db := db
  low := low
  caughtUp := false
  scanned := scanned
  failed := false
  savedScanned := scanned
  boundaries := boundaries
  sinkBlue := sinkBlue
  reorgedStrikes := 0
  forceCheckpoint := false
  blindBelow := blindBelow

variable (e : WalletEntry W)

/-- `matured_leaves` (lib.rs:1732) -/
def maturedLeaves : Option Nat :=
  let cutoffBlue := saturatingSub e.sinkBlue (DEFAULT_ANCHOR_DEPTH + ANCHOR_SLACK)
  (e.boundaries.reverse.find? fun b => decide (b.1 ≤ cutoffBlue)).map (·.2)

/-- One settled block: the cursor moves to it and the ring gets its boundary. -/
def ingestBlock (b : DecodedBlock P) : Option (WalletEntry W) := do
  let db ← e.db.ingest b.walletBlock b.info
  let boundaries := e.boundaries ++ [(b.blueScore, db.size)]
  some { e with
    db
    low := b.hash
    scanned := b.daaScore
    boundaries := if boundaries.length > MATURED_RING then boundaries.tail else boundaries }

/-- The blocks of a page that are below the reorg margin. -/
def settled (page : DecodedPage P) : List (DecodedBlock P) :=
  page.blocks.takeWhile fun b => decide (b.blueScore ≤ saturatingSub page.sinkBlueScore SYNC_TIP_MARGIN)

/-- A pass that saw the cursor off the selected chain. -/
def strike : WalletEntry W := { e with reorgedStrikes := e.reorgedStrikes + 1, failed := true }

/-- The loop over pages; `false`: it returned from the whole function. With no reply left the fetch times
out. -/
def syncPages : Nat → WalletEntry W → List (PageReply P) → Option (WalletEntry W × Bool)
  | 0, e, _ => some (e, true)
  | _ + 1, e, [] => some ({ e with failed := true }, false)
  | n + 1, e, reply :: replies =>
    match reply with
    | .unavailable => some ({ e with failed := true }, false)
    | .cursorGone => some (e.strike, false)
    | .page page =>
      if page.reorged then some (e.strike, false)
      else do
        let e ← (settled page).foldlM ingestBlock { e with reorgedStrikes := 0, sinkBlue := page.sinkBlueScore }
        if settled page = [] ∨ (settled page).length < page.blocks.length then some ({ e with caughtUp := true }, true)
        else syncPages n e replies

/-- The calls of the witness upkeep, which runs near the tip once there is a matured anchor. -/
def upkeepOps (calls : List UpkeepCall) : List (WalletOp P) :=
  match e.caughtUp, e.maturedLeaves with
  | true, some matured =>
    let notes := e.db.notes.length
    .setWitnessBudget (if notes > EAGER_WARM_MAX_NOTES then SPENDABLE_WITNESS_BUDGET else max notes 1) ::
      calls.map (UpkeepCall.op matured)
  | _, _ => []

/-- `sync_chunk` (lib.rs:1434) -/
def syncChunk (input : SyncInput P) : Option (WalletEntry W) := do
  let (e, ended) ← syncPages PAGES_PER_CHUNK e input.replies
  if ended then
    let ops := e.upkeepOps input.upkeep
    let db ← e.db.run ops
    some { e with db, failed := false, forceCheckpoint := e.forceCheckpoint || (input.warmed && !ops.isEmpty) }
  else some e

/-- `e.db.reclaim_expired(..)`, of a wallet that is caught up. -/
def reclaim : WalletEntry W :=
  if e.caughtUp then
    let (db, returned) := e.db.reclaimExpired e.scanned PENDING_SPEND_EXPIRY_DAA
    { e with db, forceCheckpoint := e.forceCheckpoint || !returned.isEmpty }
  else e

/-- Does the pass write the checkpoint? -/
def savesCheckpoint (wasCaughtUp : Bool) : Bool :=
  let advanced := e.scanned.toNat - e.savedScanned.toNat
  !e.failed && (decide (CHECKPOINT_EVERY ≤ advanced) || (e.caughtUp && !wasCaughtUp && decide (0 < advanced)) ||
    e.forceCheckpoint)

/-- `sync_one_wallet` (lib.rs:2495); the last part is whether the checkpoint was written. -/
def syncOneWallet (input : SyncInput P) : Option (SyncOutcome × WalletEntry W × Bool) := do
  let synced ← syncChunk { e with caughtUp := false } input
  if REORG_STRIKES ≤ synced.reorgedStrikes then some (.retired, synced, false)
  else if 0 < synced.reorgedStrikes then some (.behind, synced, false)
  else
    let e' := synced.reclaim
    let outcome := if e'.caughtUp then .idle else .behind
    if e'.savesCheckpoint e.caughtUp then
      some (outcome, { e' with savedScanned := e'.scanned, forceCheckpoint := false }, true)
    else some (outcome, e', false)

end WalletEntry

/-! ## The blocks a pass ingests -/

/-- The blocks that the loop over pages ingests; the entry has no say in it. -/
def ingestedBy : Nat → List (PageReply P) → List (DecodedBlock P)
  | 0, _ => []
  | _ + 1, [] => []
  | n + 1, reply :: replies =>
    match reply with
    | .unavailable | .cursorGone => []
    | .page page =>
      if page.reorged then []
      else if WalletEntry.settled page = [] ∨ (WalletEntry.settled page).length < page.blocks.length then
        WalletEntry.settled page
      else WalletEntry.settled page ++ ingestedBy n replies

/-- The blocks that a sync pass ingests. -/
def SyncInput.ingested (input : SyncInput P) : List (DecodedBlock P) := ingestedBy PAGES_PER_CHUNK input.replies

/-! ## What a pass does to the wallet -/

def WalletOp.parks : WalletOp P → Bool
  | .markSpent .. => true
  | _ => false

namespace WalletDb

variable {db db₁ db₂ : WalletDb W}

/-- Calls that park no note lead from one wallet to the other. -/
def Follows (db db' : WalletDb W) : Prop :=
  ∃ ops : List (WalletOp P), (∀ op ∈ ops, op.parks = false) ∧ db.run ops = some db'

theorem Follows.refl (db : WalletDb W) : Follows db db := ⟨[], by simp, rfl⟩

theorem Follows.trans (h₁ : Follows db db₁) (h₂ : Follows db₁ db₂) : Follows db db₂ := by
  obtain ⟨ops₁, quiet₁, run₁⟩ := h₁
  obtain ⟨ops₂, quiet₂, run₂⟩ := h₂
  refine ⟨ops₁ ++ ops₂, ?_, ?_⟩
  · intro op hop
    rcases mem_append.mp hop with h | h
    · exact quiet₁ op h
    · exact quiet₂ op h
  · rw [run, foldlM_append]
    exact bind_eq_some_iff.mpr ⟨db₁, run₁, run₂⟩

theorem Follows.apply (op : WalletOp P) (quiet : op.parks = false) (h : db.apply op = some db₁) : Follows db db₁ := by
  refine ⟨[op], by simpa using quiet, ?_⟩
  rw [run, foldlM_cons, h]
  rfl

theorem Follows.ingests {β : Type} {bs : List β} (block : β → WalletBlock P) (info : β → Option BlockMeta)
    (h : bs.foldlM (fun db b => db.ingest (block b) (info b)) db = some db') : Follows db db' := by
  refine ⟨bs.map fun b => .ingest (block b) (info b), ?_, ?_⟩
  · intro op hop
    obtain ⟨b, -, rfl⟩ := mem_map.mp hop
    rfl
  · rw [run, foldlM_map]
    exact h

end WalletDb

namespace WalletEntry

open WalletDb

variable {e e' : WalletEntry W}

theorem upkeepOps_quiet (e : WalletEntry W) (calls : List UpkeepCall) : ∀ op ∈ e.upkeepOps calls, op.parks = false := by
  intro op hop
  unfold upkeepOps at hop
  split at hop
  · rcases mem_cons.mp hop with rfl | hop
    · rfl
    · obtain ⟨call, -, rfl⟩ := mem_map.mp hop
      cases call <;> rfl
  · cases hop

theorem reclaim_follows (e : WalletEntry W) : Follows e.db e.reclaim.db := by
  unfold reclaim
  split
  · exact Follows.apply (.reclaimExpired e.scanned PENDING_SPEND_EXPIRY_DAA) rfl rfl
  · exact Follows.refl _

/-- What ingest does to an entry: the wallet ingests the blocks in order, the cursor is at the last of them,
and the entry is as blind as before. -/
structure Ingests (e : WalletEntry W) (bs : List (DecodedBlock P)) (e' : WalletEntry W) : Prop where
  db : bs.foldlM (fun db b => db.ingest b.walletBlock b.info) e.db = some e'.db
  low : e'.low = (bs.getLast?.map (·.hash)).getD e.low
  blind : e'.blindBelow = e.blindBelow

variable {bs : List (DecodedBlock P)}

theorem ingestBlocks_ingests (h : bs.foldlM ingestBlock e = some e') : Ingests e bs e' := by
  induction h using foldlM_induction with
  | nil => exact ⟨rfl, rfl, rfl⟩
  | cons b bs e e₁ first _ ih =>
    obtain ⟨db, ingested, first⟩ := bind_eq_some_iff.mp first
    cases first
    have rest := ih
    refine ⟨?_, ?_, rest.blind⟩
    · rw [foldlM_cons, ingested]
      exact rest.db
    · rw [rest.low]
      cases bs with
      | nil => rfl
      | cons b' bs =>
        rw [getLast?_cons_cons]
        rw [getLast?_eq_some_getLast (cons_ne_nil b' bs)]
        rfl

theorem Ingests.follows (h : Ingests e bs e') : Follows e.db e'.db := .ingests _ _ h.db

theorem Ingests.append {e₁ : WalletEntry W} {bs' : List (DecodedBlock P)} (h : Ingests e bs e₁)
    (h' : Ingests e₁ bs' e') :
    Ingests e (bs ++ bs') e' := by
  refine ⟨?_, ?_, h'.blind.trans h.blind⟩
  · rw [foldlM_append, h.db]
    exact h'.db
  · rw [h'.low, h.low, getLast?_append]
    cases bs'.getLast? with
    | none => simp
    | some b => simp

theorem syncPages_ingests {n : Nat} {replies : List (PageReply P)} {ended : Bool}
    (h : syncPages n e replies = some (e', ended)) : Ingests e (ingestedBy n replies) e' := by
  induction n generalizing e replies with
  | zero =>
    cases h
    exact ⟨rfl, rfl, rfl⟩
  | succ n ih =>
    cases replies with
    | nil =>
      cases h
      exact ⟨rfl, rfl, rfl⟩
    | cons reply replies =>
      cases reply with
      | unavailable =>
        cases h
        exact ⟨rfl, rfl, rfl⟩
      | cursorGone =>
        cases h
        exact ⟨rfl, rfl, rfl⟩
      | page page =>
        simp only [syncPages] at h
        simp only [ingestedBy]
        by_cases reorged : page.reorged
        · rw [if_pos reorged] at h ⊢
          cases h
          exact ⟨rfl, rfl, rfl⟩
        · rw [if_neg reorged] at h ⊢
          obtain ⟨e₁, ingested, h⟩ := bind_eq_some_iff.mp h
          obtain ⟨db, low, blind⟩ := ingestBlocks_ingests ingested
          have first : Ingests e (settled page) e₁ := ⟨db, low, blind⟩
          by_cases margin : settled page = [] ∨ (settled page).length < page.blocks.length
          · rw [if_pos margin] at h ⊢
            cases h
            exact ⟨db, low, blind⟩
          · rw [if_neg margin] at h ⊢
            exact first.append (ih h)

variable {input : SyncInput P} {outcome : SyncOutcome} {saved : Bool}

/-- **What a sync pass ingests**: exactly the settled blocks of the pages it gets, in their order, with the
cursor at the last of them; upkeep and reclaiming come after. -/
theorem syncOneWallet_ingests
    (h : e.syncOneWallet input = some (outcome, e', saved)) :
    ∃ e₁ : WalletEntry W, Ingests e input.ingested e₁ ∧ Follows e₁.db e'.db ∧ e'.low = e₁.low ∧
      e'.blindBelow = e₁.blindBelow := by
  obtain ⟨synced, chunk, h⟩ := bind_eq_some_iff.mp h
  obtain ⟨⟨e₁, ended⟩, pages, chunk⟩ := bind_eq_some_iff.mp chunk
  obtain ⟨db, low, blind⟩ := syncPages_ingests pages
  have kept : Follows e₁.db synced.db ∧ synced.low = e₁.low ∧ synced.blindBelow = e₁.blindBelow := by
    cases ended with
    | true =>
      obtain ⟨db, upkept, chunk⟩ := bind_eq_some_iff.mp chunk
      cases chunk
      exact ⟨⟨_, upkeepOps_quiet e₁ input.upkeep, upkept⟩, rfl, rfl⟩
    | false =>
      cases chunk
      exact ⟨.refl _, rfl, rfl⟩
  refine ⟨e₁, ⟨db, low, blind⟩, ?_⟩
  have reclaimed : Follows e₁.db synced.reclaim.db ∧ synced.reclaim.low = e₁.low ∧
      synced.reclaim.blindBelow = e₁.blindBelow := by
    refine ⟨kept.1.trans (reclaim_follows synced), ?_⟩
    unfold reclaim
    split <;> exact kept.2
  by_cases retired : REORG_STRIKES ≤ synced.reorgedStrikes
  · rw [if_pos retired] at h
    cases h
    exact kept
  · rw [if_neg retired] at h
    by_cases struck : 0 < synced.reorgedStrikes
    · rw [if_pos struck] at h
      cases h
      exact kept
    · rw [if_neg struck] at h
      dsimp only at h
      split at h
      · cases h
        exact reclaimed
      · cases h
        exact reclaimed

/-- **A sync pass parks no note**: all it does to the wallet are calls other than `mark_spent`. -/
theorem syncOneWallet_follows
    (h : e.syncOneWallet input = some (outcome, e', saved)) : Follows e.db e'.db := by
  obtain ⟨e₁, ingests, rest, -, -⟩ := syncOneWallet_ingests h
  exact ingests.follows.trans rest

end WalletEntry

end Firecash
