import Firecash.Lib.Bytes
import Firecash.Wallet.Primitives

/-!
# The wallet's view of the chain (shielded-core/src/walletdb.rs)

`WalletDb` walks the stream of note commitments in the order consensus appends them. Here are its
state, the ways it starts, and ingest in its four variants: coinbase notes first, then the
transactions, of which those that reveal a nullifier already seen are dropped whole.

Sums of `u64` values and the leaf counter are checked: `none` is the panic. The keys the wallet
derives from its full viewing key are not stored again.
-/

namespace Firecash

open Checked

variable {P : Prim} {W : WalletPrim P}

/-- `OwnedNote` (walletdb.rs:59) -/
structure OwnedNote (W : WalletPrim P) where
  note : W.Note
  position : Nat
  nullifier : NullifierBytes

def OwnedNote.value (n : OwnedNote W) : UInt64 := W.noteValue n.note

/-- `PendingSpend` (walletdb.rs:84) -/
structure PendingSpend (W : WalletPrim P) where
  note : OwnedNote W
  txid : Bytes32
  submittedDaa : UInt64

/-- `HistoryKind` (walletdb.rs:100) -/
inductive HistoryKind where
  | coinbase
  | received
  | sent
  deriving DecidableEq

/-- `HistoryEntry` (walletdb.rs:119) -/
structure HistoryEntry where
  kind : HistoryKind
  txid : Bytes32
  daaScore : UInt64
  timestampMs : UInt64
  amount : UInt64
  fee : UInt64
  recipient : Option AddressBytes
  memo : List UInt8
  deriving DecidableEq

/-- `BlockMeta` (walletdb.rs:143) -/
structure BlockMeta where
  coinbaseTxid : Bytes32
  txids : List Bytes32
  timestampMs : UInt64
  daaScore : UInt64

/-- `ReceivedNote` (wallet.rs:35) -/
structure ReceivedNote (W : WalletPrim P) where
  actionIndex : Nat
  note : W.Note
  memo : List UInt8

/-- `WalletDb` (walletdb.rs:173) -/
structure WalletDb (W : WalletPrim P) where
  fvk : W.Fvk
  tree : W.Tree
  baseFrontier : P.Frontier
  baseSize : Nat
  leaves : List Bytes32
  /-- `OnceCell<Vec<MerkleHashOrchard>>`: the decoded stream, once something needed it. -/
  decoded : Option (List P.Node)
  notes : List (OwnedNote W)
  size : Nat
  witnesses : List (Nat × W.Witness)
  witnessBudget : Nat
  lagTree : W.Tree
  witnessedUpto : Nat
  spentNullifiers : Finset NullifierBytes
  history : List HistoryEntry
  historyEnabled : Bool
  pendingSpends : List (PendingSpend W)
  lastDaa : UInt64

def MAX_LIVE_WITNESSES : Nat := 256

def HISTORY_CAP : Nat := 20000

namespace WalletDb

/-! ## Starting -/

/-- The record `from_seed` and `from_fvk` build around a key. -/
def fresh (fvk : W.Fvk) : WalletDb W where
  fvk := fvk
  tree := W.treeEmpty
  baseFrontier := P.frontierEmpty
  baseSize := 0
  leaves := []
  decoded := none
  notes := []
  size := 0
  witnesses := []
  witnessBudget := MAX_LIVE_WITNESSES
  lagTree := W.treeEmpty
  witnessedUpto := 0
  spentNullifiers := ∅
  history := []
  historyEnabled := true
  pendingSpends := []
  lastDaa := 0

/-- `from_seed` (walletdb.rs:287) -/
def fromSeed (W : WalletPrim P) (seed : Bytes32) : Option (WalletDb W) := (W.fvkFromSeed seed).map fresh

/-- `from_fvk` (walletdb.rs:327) -/
def fromFvk (W : WalletPrim P) (bytes : BitVec 768) : Option (WalletDb W) := (W.fvkFromBytes bytes).map fresh

/-- `apply_frontier` (walletdb.rs:393) -/
def applyFrontier (db : WalletDb W) (checkpoint : FrontierState) : Option (WalletDb W) :=
  if db.leaves ≠ [] ∨ db.baseSize ≠ 0 then none
  else
    match (GlobalTree.fromState checkpoint : Except TreeStateError (GlobalTree P)) with
    | .error _ => none
    | .ok gt =>
      some { db with
        baseFrontier := gt.frontier
        baseSize := gt.size
        tree := W.treeFromFrontier gt.frontier
        lagTree := W.treeFromFrontier gt.frontier
        witnessedUpto := gt.size
        witnesses := []
        size := gt.size }

/-- The wallet a key opens at a node's frontier. -/
def atFrontier (fvk : W.Fvk) (gt : GlobalTree P) : WalletDb W :=
  { fresh fvk with
    baseFrontier := gt.frontier
    baseSize := gt.size
    tree := W.treeFromFrontier gt.frontier
    lagTree := W.treeFromFrontier gt.frontier
    witnessedUpto := gt.size
    size := gt.size }

theorem applyFrontier_fresh {fvk : W.Fvk} {checkpoint : FrontierState} {db : WalletDb W}
    (h : (fresh fvk).applyFrontier checkpoint = some db) :
    ∃ gt : GlobalTree P, GlobalTree.fromState checkpoint = .ok gt ∧ db = atFrontier fvk gt := by
  unfold applyFrontier at h
  rw [if_neg (by simp [fresh])] at h
  split at h
  · cases h
  · rename_i gt hgt
    exact ⟨gt, hgt, (Option.some.inj h).symm⟩

/-- `anchor` (walletdb.rs:449) -/
def anchor (db : WalletDb W) : P.Anchor := if db.size = 0 then P.emptyAnchor else W.nodeAnchor (W.treeRoot db.tree)

end WalletDb

/-! ## Scanning -/

/-- `trim_memo` (wallet.rs:68): up to the last non-zero byte, and the lone marker `0xf6` is no memo. -/
def trimMemo (memo : Memo) : List UInt8 :=
  let trimmed := ((BitVec.bytes (n := 512) memo).reverse.dropWhile (· == 0)).reverse
  if trimmed = [0xf6] then [] else trimmed

/-- `scan_bundle_prepared` (wallet.rs:116) -/
def scanBundlePrepared (fvk : W.Fvk) (actions : List ActionWire) : List (ReceivedNote W) :=
  actions.zipIdx.filterMap fun (a, i) => (W.tryNoteDecryption fvk a).map fun (note, memo) => ⟨i, note, trimMemo memo⟩

/-- `scan_compact_prepared` (wallet.rs:217): compact records carry no memo. -/
def scanCompactPrepared (fvk : W.Fvk) (records : List CompactActionRecord) : List (ReceivedNote W) :=
  records.zipIdx.filterMap fun (r, i) => (W.tryCompactNoteDecryption fvk r).map fun note => ⟨i, note, []⟩

/-- `coinbase_note_commitment` (coinbase.rs); `none` is any of its errors. -/
def coinbaseNoteCommitment (W : WalletPrim P) (desc : CoinbaseNoteDesc) (value : UInt64) : Option P.Cmx :=
  (W.noteFromParts desc.recipient value desc.rho desc.rseed).map W.noteCommitment

/-- The nullifier and the commitment of an action: what ingest reads besides the ciphertexts. -/
abbrev ActionEffect := NullifierBytes × Bytes32

def actionEffects (actions : List ActionWire) : List ActionEffect := actions.map fun a => (a.nullifier, a.cmx)

def recordEffects (records : List CompactActionRecord) : List ActionEffect := records.map fun r => (r.nullifier, r.cmx)

namespace WalletDb

/-! ## History rows -/

variable (db : WalletDb W)

/-- `push_history` (walletdb.rs:773): a full history loses its older half first. -/
def pushHistory (entry : HistoryEntry) : WalletDb W :=
  let kept := if db.history.length ≥ HISTORY_CAP then db.history.drop (HISTORY_CAP / 2) else db.history
  { db with history := kept ++ [entry] }

/-- `record_coinbase_history` (walletdb.rs:690) -/
def recordCoinbaseHistory (value : UInt64) (info : BlockMeta) : WalletDb W :=
  if db.historyEnabled then
    db.pushHistory
      { kind := .coinbase, txid := info.coinbaseTxid, daaScore := info.daaScore, timestampMs := info.timestampMs,
        amount := value, fee := 0, recipient := none, memo := [] }
  else db

/-- `received.iter().map(|r| r.value()).sum()` -/
def receivedValue (received : List (ReceivedNote W)) : Option UInt64 :=
  checkedSum (received.map fun r => W.noteValue r.note)

/-- `record_income_history_compact` (walletdb.rs:658): the row is pushed without `push_history`. -/
def recordIncomeHistoryCompact (spent : UInt64) (received : List (ReceivedNote W)) (txid : Bytes32)
    (info : BlockMeta) : Option (WalletDb W) :=
  if db.historyEnabled then do
    let value ← receivedValue received
    if 0 < spent ∨ value = 0 then some db
    else
      let entry : HistoryEntry :=
        { kind := .received, txid, daaScore := info.daaScore, timestampMs := info.timestampMs,
          amount := value, fee := 0, recipient := received.head?.map fun r => W.noteRecipient r.note, memo := [] }
      some { db with history := db.history ++ [entry] }
  else some db

/-- The outputs of our own spend that went to others, as far as our OVK recovers them. -/
def recoveredOutputs (fvk : W.Fvk) (actions : List ActionWire) : List (W.Note × AddressBytes × Memo) :=
  (actions.filterMap (W.tryOutputRecoveryWithOvk fvk)).filter fun (_, addr, _) => addr != W.addressBytes fvk

/-- `record_bundle_history` (walletdb.rs:713) -/
def recordBundleHistory (bundle : ShieldedBundle P) (spent : UInt64) (received : List (ReceivedNote W))
    (txid : Bytes32) (info : BlockMeta) : Option (WalletDb W) :=
  if db.historyEnabled then do
    let value ← receivedValue received
    if spent = 0 ∧ value = 0 then some db
    else if 0 < spent then
      let fee := if bundle.valueBalance < 0 then 0 else bundle.valueBalance.toUInt64
      let netOut := saturatingSub spent value
      let recovered := recoveredOutputs db.fvk bundle.actions
      let paid := (recovered.map fun (note, _, _) => W.noteValue note).foldl saturatingAdd 0
      some <| db.pushHistory
        { kind := .sent, txid, daaScore := info.daaScore, timestampMs := info.timestampMs,
          amount := if recovered.isEmpty then saturatingSub netOut fee else paid, fee,
          recipient := recovered.head?.map fun (_, addr, _) => addr
          memo := (recovered.head?.map fun (_, _, memo) => trimMemo memo).getD [] }
    else
      some <| db.pushHistory
        { kind := .received, txid, daaScore := info.daaScore, timestampMs := info.timestampMs,
          amount := value, fee := 0, recipient := received.head?.map fun r => W.noteRecipient r.note
          memo := ((received.find? fun r => !r.memo.isEmpty).map fun r => r.memo).getD [] }
  else some db

/-! ## Ingest -/

/-- `append_leaf` (walletdb.rs:1278). A full tree is left as it is; the counter overflows in the end. -/
def appendLeaf (cmx : P.Cmx) (owned : Option W.Note) : Option (WalletDb W) :=
  let leaf := P.fromCmx cmx
  if db.size + 1 < U64_BOUND then
    some { db with
      leaves := db.leaves ++ [P.nodeToBytes leaf]
      decoded := db.decoded.map (· ++ [leaf])
      tree := (W.treeAppend db.tree leaf).getD db.tree
      notes := db.notes ++ (owned.map fun note => ⟨note, db.size, W.noteNullifier db.fvk note⟩).toList
      size := db.size + 1 }
  else none

/-- `recover_coinbase_note` (walletdb.rs:1342); of the wallet it reads the address. -/
def recoverCoinbaseNote (fvk : W.Fvk) (desc : CoinbaseNoteDesc) (value : UInt64) : Option W.Note :=
  if desc.recipient ≠ W.addressBytes fvk then none
  else W.noteFromParts desc.recipient value desc.rho desc.rseed

/-- `self.last_daa = self.last_daa.max(m.daa_score)` -/
def observeMeta (info : Option BlockMeta) : WalletDb W :=
  match info with
  | some m => { db with lastDaa := max db.lastDaa m.daaScore }
  | none => db

variable (info : Option BlockMeta)

/-- The body of the coinbase loops, for a note whose leaf is known. -/
def ingestCoinbaseNote (db : WalletDb W) (note : CoinbaseNoteDesc × UInt64 × P.Cmx) :
    Option (WalletDb W) :=
  let owned := recoverCoinbaseNote db.fvk note.1 note.2.1
  let db :=
    match owned, info with
    | some _, some m => db.recordCoinbaseHistory note.2.1 m
    | _, _ => db
  db.appendLeaf note.2.2 owned

/-- The body of the coinbase loops that compute the leaf: a note that does not commit is skipped. -/
def ingestCoinbaseDesc (db : WalletDb W) (note : CoinbaseNoteDesc × UInt64) : Option (WalletDb W) :=
  match coinbaseNoteCommitment W note.1 note.2 with
  | none => some db
  | some cmx => db.ingestCoinbaseNote info (note.1, note.2, cmx)

/-- The notes that commit, with their leaves. -/
def committedNotes (W : WalletPrim P) (coinbase : List (CoinbaseNoteDesc × UInt64)) :
    List (CoinbaseNoteDesc × UInt64 × P.Cmx) :=
  coinbase.filterMap fun (desc, value) => (coinbaseNoteCommitment W desc value).map fun cmx => (desc, value, cmx)

/-- `owned_note_value` (walletdb.rs:681) -/
def ownedNoteValue (nf : NullifierBytes) : Option UInt64 :=
  let owned := (db.notes.find? (·.nullifier == nf)).or ((db.pendingSpends.map (·.note)).find? (·.nullifier == nf))
  owned.map OwnedNote.value

/-- A revealed nullifier: the note is spent, and a pending spend of it is confirmed. -/
def reveal (nf : NullifierBytes) : WalletDb W :=
  { db with
    notes := db.notes.filter (·.nullifier != nf)
    pendingSpends := db.pendingSpends.filter (·.note.nullifier != nf)
    spentNullifiers := insert nf db.spentNullifiers }

/-- The body of the loop over the actions of a transaction. -/
def ingestAction (received : List (ReceivedNote W)) (db : WalletDb W) (action : ActionEffect × Nat) :
    Option (WalletDb W) :=
  let db := db.reveal action.1.1
  match P.cmxFromBytes action.1.2 with
  | none => some db
  | some cmx => db.appendLeaf cmx ((received.find? (·.actionIndex == action.2)).map (·.note))

/-- One transaction of `ingest_bundles` and of `ingest_bundles_compact`, which differ in how they scan
and in the history row they record. -/
def ingestTx (effects : List ActionEffect) (received : List (ReceivedNote W))
    (record : WalletDb W → UInt64 → Option (WalletDb W)) : Option (WalletDb W) :=
  if effects.any fun e => decide (e.1 ∈ db.spentNullifiers) then some db
  else do
    let spent ← checkedSum (effects.filterMap fun e => db.ownedNoteValue e.1)
    let db ← effects.zipIdx.foldlM (ingestAction received) db
    record db spent

/-- `m.txids.get(bi)` -/
def txidAt (bi : Nat) : Option (Bytes32 × BlockMeta) := info.bind fun m => m.txids[bi]?.map (·, m)

/-- The loop over the transactions of a block, in the form `τ` in which they come. -/
def ingestTxs {τ : Type} (effects : τ → List ActionEffect) (scan : W.Fvk → τ → List (ReceivedNote W))
    (record : τ → Nat → List (ReceivedNote W) → WalletDb W → UInt64 → Option (WalletDb W)) (db : WalletDb W)
    (txs : List τ) :
    Option (WalletDb W) :=
  txs.zipIdx.foldlM (fun db (x : τ × Nat) =>
    db.ingestTx (effects x.1) (scan db.fvk x.1) (record x.1 x.2 (scan db.fvk x.1))) db

/-- The history row of the `bi`-th bundle, if the metadata has its txid. -/
def recordBundle (bundle : ShieldedBundle P) (bi : Nat) (received : List (ReceivedNote W))
    (db : WalletDb W) (spent : UInt64) : Option (WalletDb W) :=
  match txidAt info bi with
  | some (txid, m) => db.recordBundleHistory bundle spent received txid m
  | none => some db

def recordRecords (_ : List CompactActionRecord) (bi : Nat) (received : List (ReceivedNote W))
    (db : WalletDb W) (spent : UInt64) : Option (WalletDb W) :=
  match txidAt info bi with
  | some (txid, m) => db.recordIncomeHistoryCompact spent received txid m
  | none => some db

/-- `ingest_bundles` (walletdb.rs:533) -/
def ingestBundles (txs : List (ShieldedBundle P)) (info : Option BlockMeta) : Option (WalletDb W) :=
  ingestTxs (fun b => actionEffects b.actions) (fun fvk b => scanBundlePrepared fvk b.actions)
    (recordBundle info) db txs

/-- `ingest_bundles_compact` (walletdb.rs:628) -/
def ingestBundlesCompact (txs : List (List CompactActionRecord)) (info : Option BlockMeta) :
    Option (WalletDb W) :=
  ingestTxs recordEffects scanCompactPrepared (recordRecords info) db txs

/-- `ingest_block_precomputed_with_meta` (walletdb.rs:508) -/
def ingestBlockPrecomputedWithMeta (coinbase : List (CoinbaseNoteDesc × UInt64 × P.Cmx))
    (txs : List (ShieldedBundle P)) (info : Option BlockMeta) : Option (WalletDb W) := do
  let db ← coinbase.foldlM (ingestCoinbaseNote info) (db.observeMeta info)
  db.ingestBundles txs info

variable (coinbase : List (CoinbaseNoteDesc × UInt64))

/-- `ingest_block_with_meta` (walletdb.rs:472) -/
def ingestBlockWithMeta (txs : List (ShieldedBundle P))
    (info : Option BlockMeta) : Option (WalletDb W) := do
  let db ← coinbase.foldlM (ingestCoinbaseDesc info) (db.observeMeta info)
  db.ingestBundles txs info

/-- `ingest_block_compact_precomputed_with_meta` (walletdb.rs:605) -/
def ingestBlockCompactPrecomputedWithMeta (coinbase : List (CoinbaseNoteDesc × UInt64 × P.Cmx))
    (txs : List (List CompactActionRecord)) (info : Option BlockMeta) : Option (WalletDb W) := do
  let db ← coinbase.foldlM (ingestCoinbaseNote info) (db.observeMeta info)
  db.ingestBundlesCompact txs info

/-- `ingest_block_compact_with_meta` (walletdb.rs:579) -/
def ingestBlockCompactWithMeta
    (txs : List (List CompactActionRecord)) (info : Option BlockMeta) : Option (WalletDb W) := do
  let db ← coinbase.foldlM (ingestCoinbaseDesc info) (db.observeMeta info)
  db.ingestBundlesCompact txs info

theorem foldlM_ingestCoinbaseDesc (db : WalletDb W) :
    coinbase.foldlM (ingestCoinbaseDesc info) db = (committedNotes W coinbase).foldlM (ingestCoinbaseNote info) db := by
  induction coinbase generalizing db with
  | nil => rfl
  | cons note coinbase ih =>
    obtain ⟨desc, value⟩ := note
    cases committed : coinbaseNoteCommitment W desc value with
    | none =>
      have skipped : committedNotes W ((desc, value) :: coinbase) =
          committedNotes W coinbase := by simp [committedNotes, committed]
      rw [List.foldlM_cons, skipped, ← ih]
      simp only [ingestCoinbaseDesc, committed]
      rfl
    | some cmx =>
      have kept : committedNotes W ((desc, value) :: coinbase) = (desc, value, cmx) :: committedNotes W coinbase := by
        simp [committedNotes, committed]
      rw [List.foldlM_cons, kept, List.foldlM_cons]
      simp only [ingestCoinbaseDesc, committed]
      exact bind_congr ih

theorem ingestBlockWithMeta_eq (txs : List (ShieldedBundle P))
    (info : Option BlockMeta) :
    db.ingestBlockWithMeta coinbase txs info =
      db.ingestBlockPrecomputedWithMeta (committedNotes W coinbase) txs info := by
  rw [ingestBlockWithMeta, ingestBlockPrecomputedWithMeta, foldlM_ingestCoinbaseDesc]

theorem ingestBlockCompactWithMeta_eq
    (txs : List (List CompactActionRecord)) (info : Option BlockMeta) :
    db.ingestBlockCompactWithMeta coinbase txs info =
      db.ingestBlockCompactPrecomputedWithMeta (committedNotes W coinbase) txs info := by
  rw [ingestBlockCompactWithMeta, ingestBlockCompactPrecomputedWithMeta, foldlM_ingestCoinbaseDesc]

end WalletDb

end Firecash
