import Mathlib.Data.Finset.Sort
import Firecash.Lib.Parse
import Firecash.Wallet.Witness

/-!
# The checkpoint blob (shielded-core/src/walletdb.rs)

A wallet is written as one byte string: a head (base frontier, leaves, notes, nullifiers, tip frontier)
and three length-prefixed sections (witnesses, history, pending spends) that are read best effort: what
is wrong with a section drops the section, not the wallet.

Vectors that are reserved for a declared count are `Parse.vector`. The capacities of the history rows
and the pending spends are capped by constants and left out.
-/

namespace Firecash

open Parse

variable {P : Prim} {W : WalletPrim P}

def CHECKPOINT_VERSION : UInt8 := 7

def CHECKPOINT_VERSION_V6 : UInt8 := 6

def CHECKPOINT_VERSION_V5 : UInt8 := 5

def CHECKPOINT_VERSION_V4 : UInt8 := 4

def CHECKPOINT_VERSION_V3 : UInt8 := 3

/-! ## Writing -/

def writeBytes32 (x : Bytes32) : List UInt8 := BitVec.bytes (n := 32) x

def writeU64 (x : UInt64) : List UInt8 := leBytes 8 x.toNat

/-- `write_frontier` (walletdb.rs:1698) -/
def writeFrontier (f : P.Frontier) : List UInt8 :=
  match P.frontierValue f with
  | none => [0]
  | some (leaf, ommers) =>
    [1] ++ (writeBytes32 (P.nodeToBytes leaf) ++ writeVec writeBytes32 (ommers.map P.nodeToBytes))

/-- `write_tree` (walletdb.rs:1736) -/
def writeTree (t : W.Tree) : List UInt8 := leBytes 8 (W.treeSize t) ++ writeFrontier (W.treeToFrontier t)

/-- The optional subtree a witness is filling. -/
def writeCursor (cursor : Option W.Tree) : List UInt8 :=
  match cursor with
  | some c => [1] ++ writeTree c
  | none => [0]

/-- `write_witness` (walletdb.rs:1754) -/
def writeWitness (w : W.Witness) : List UInt8 :=
  writeTree (W.witnessTree w) ++
    (writeVec (fun h => writeBytes32 (P.nodeToBytes h)) (W.witnessFilled w) ++ writeCursor (W.witnessCursor w))

/-- The record of a note, in the list of notes and in the pending spends. -/
def writeNote (n : OwnedNote W) : List UInt8 :=
  leBytes 8 n.position ++ (writeBytes32 n.nullifier ++ (BitVec.bytes (n := 43) (W.noteRecipient n.note) ++
    (writeU64 (W.noteValue n.note) ++ (writeBytes32 (W.noteRho n.note) ++ writeBytes32 (W.noteRseed n.note)))))

/-- The order of `nfs.sort()`: the first byte counts most. -/
def bytesLe (x y : Bytes32) : Prop := ofLe (writeBytes32 x).reverse ≤ ofLe (writeBytes32 y).reverse
  deriving Decidable

instance : IsTrans Bytes32 bytesLe := ⟨fun _ _ _ => Nat.le_trans⟩

instance : Std.Total bytesLe := ⟨fun _ _ => Nat.le_total ..⟩

instance : Std.Antisymm bytesLe where
  antisymm x y hxy hyx := by
    have same := Nat.le_antisymm hxy hyx
    have reversed : (writeBytes32 x).reverse = (writeBytes32 y).reverse := by
      have length : ∀ z : Bytes32, (writeBytes32 z).reverse.length = 32 := fun z => by
        rw [List.length_reverse]
        exact BitVec.length_bytes (n := 32) z
      rw [← leBytes_ofLe (writeBytes32 x).reverse, ← leBytes_ofLe (writeBytes32 y).reverse, length, length, same]
    exact BitVec.bytes_injective (n := 32) (List.reverse_injective reversed)

/-- `h.kind as u8` -/
def HistoryKind.code : HistoryKind → UInt8
  | .coinbase => 0
  | .received => 1
  | .sent => 2

def writeRecipient (recipient : Option AddressBytes) : List UInt8 :=
  match recipient with
  | some r => [1] ++ BitVec.bytes (n := 43) r
  | none => [0]

/-- A history row; a memo is cut at `u16::MAX` bytes. -/
def writeHistoryEntry (h : HistoryEntry) : List UInt8 :=
  [h.kind.code] ++ (writeBytes32 h.txid ++ (writeU64 h.daaScore ++ (writeU64 h.timestampMs ++ (writeU64 h.amount ++
    (writeU64 h.fee ++ (writeRecipient h.recipient ++
      (leBytes 2 (min h.memo.length 65535) ++ h.memo.take 65535)))))))

def writePendingSpend (p : PendingSpend W) : List UInt8 :=
  writeNote p.note ++ (writeBytes32 p.txid ++ writeU64 p.submittedDaa)

/-- A length-prefixed section. -/
def writeSection (sec : List UInt8) : List UInt8 := leBytes 8 sec.length ++ sec

namespace WalletDb

variable (db : WalletDb W)

/-- Up to the nullifiers. -/
def writeBody : List UInt8 :=
  [CHECKPOINT_VERSION] ++ (leBytes 8 db.baseSize ++ (writeFrontier db.baseFrontier ++ (leBytes 8 db.size ++
    (writeVec writeBytes32 db.leaves ++ (writeVec writeNote db.notes ++
      writeVec writeBytes32 (db.spentNullifiers.sort bytesLe))))))

def writeHead : List UInt8 := db.writeBody ++ writeFrontier (W.treeToFrontier db.tree)

def writeWitnesses : List UInt8 :=
  leBytes 8 db.witnessedUpto ++ (writeTree db.lagTree ++
    writeVec (fun pw => leBytes 8 pw.1 ++ writeWitness pw.2) db.witnesses)

def writeHistory : List UInt8 := writeVec writeHistoryEntry db.history

def writePending : List UInt8 :=
  writeU64 db.lastDaa ++ writeVec writePendingSpend db.pendingSpends

/-- `to_checkpoint` (walletdb.rs:1364). A `Vec` holds at most `isize::MAX` bytes: a longer blob is a panic. -/
def toCheckpoint : Option (List UInt8) :=
  let out := db.writeHead ++
    (writeSection db.writeWitnesses ++ (writeSection db.writeHistory ++ writeSection db.writePending))
  if out.length ≤ ISIZE_MAX then some out else none

end WalletDb

/-! ## Reading -/

def readBytes32 : Parse Bytes32 := array 32

def readU64 : Parse UInt64 := do
  let x ← u64
  pure (UInt64.ofNat x)

/-- `GlobalTree::from_state(fs).ok()?.frontier()` -/
def stateFrontier (P : Prim) (fs : FrontierState) : Option P.Frontier :=
  match (GlobalTree.fromState fs : Except TreeStateError (GlobalTree P)) with
  | .ok gt => some gt.frontier
  | .error _ => none

/-- `read_frontier` (walletdb.rs:1716): an empty frontier is read whatever the size. -/
def readFrontier (P : Prim) (size : Nat) : Parse P.Frontier := do
  let tag ← u8
  if tag = 0 then pure P.frontierEmpty
  else if tag = 1 then do
    let leaf ← readBytes32
    let ommers ← vector 32 readBytes32
    ofOption (stateFrontier P ⟨size, some leaf, ommers⟩)
  else .fail

/-- `read_tree` (walletdb.rs:1744) -/
def readTree (W : WalletPrim P) : Parse W.Tree := do
  let size ← u64
  let f ← readFrontier P size
  pure (W.treeFromFrontier f)

def readCursor (W : WalletPrim P) : Parse (Option W.Tree) := do
  let tag ← u8
  if tag = 0 then pure none
  else if tag = 1 then do
    let tree ← readTree W
    pure (some tree)
  else .fail

def readNode (P : Prim) : Parse P.Node := do
  let bytes ← readBytes32
  ofOption (P.nodeFromBytes bytes)

/-- `read_witness` (walletdb.rs:1772) -/
def readWitness (W : WalletPrim P) : Parse W.Witness := do
  let tree ← readTree W
  let filled ← vector 32 (readNode P)
  let cursor ← readCursor W
  ofOption (W.witnessFromParts tree filled cursor)

def readNote (W : WalletPrim P) : Parse (OwnedNote W) := do
  let position ← u64
  let nullifier ← readBytes32
  let recipient ← (array 43 : Parse AddressBytes)
  let value ← readU64
  let rho ← readBytes32
  let rseed ← readBytes32
  let note ← ofOption (W.noteFromParts recipient value rho rseed)
  pure ⟨note, position, nullifier⟩

/-- What the head of a blob declares. -/
structure Head (W : WalletPrim P) where
  version : UInt8
  baseSize : Nat
  baseFrontier : P.Frontier
  size : Nat
  leaves : List Bytes32
  notes : List (OwnedNote W)
  spentNullifiers : List NullifierBytes
  /-- Before v4 there is none. -/
  tip : Option P.Frontier

/-- Up to the nullifiers. -/
def readBody (W : WalletPrim P) : Parse (Head W) := do
  let version ← u8
  if version < CHECKPOINT_VERSION_V3 ∨ CHECKPOINT_VERSION < version then .fail
  else do
    let baseSize ← u64
    let baseFrontier ← readFrontier P baseSize
    let size ← u64
    let leaves ← vector 32 readBytes32
    let notes ← list (readNote W)
    let spentNullifiers ← list readBytes32
    pure ⟨version, baseSize, baseFrontier, size, leaves, notes, spentNullifiers, none⟩

/-- From v4 on the tip frontier follows. -/
def readHead (W : WalletPrim P) : Parse (Head W) := do
  let h ← readBody W
  if CHECKPOINT_VERSION_V4 ≤ h.version then do
    let tip ← readFrontier P h.size
    pure { h with tip := some tip }
  else pure h

/-- The wallet a head describes: the tip tree is the one declared, else the caller's if it has the
declared size, else the leaves are replayed. -/
def Head.install (h : Head W) (db : WalletDb W) (tip : Option FrontierState) : Option (WalletDb W) :=
  let db :=
    { db with
      baseFrontier := h.baseFrontier
      baseSize := h.baseSize
      lagTree := W.treeFromFrontier h.baseFrontier
      witnessedUpto := h.baseSize
      witnesses := []
      leaves := db.leaves ++ h.leaves
      notes := db.notes ++ h.notes
      spentNullifiers := db.spentNullifiers ∪ h.spentNullifiers.toFinset
      size := h.size }
  match h.tip, tip.filter (·.size == h.size) with
  | some f, _ => some { db with tree := W.treeFromFrontier f }
  | none, some fs => (stateFrontier P fs).map fun f => { db with tree := W.treeFromFrontier f }
  | none, none => some { db.warmLeaves with tree := W.treeFill (W.treeFromFrontier h.baseFrontier) db.decodedLeaves }

/-! ## Sections -/

/-- The buffer of the next section. A length that cannot be read consumes nothing, one that is too large
only itself. -/
def readSection (bs : List UInt8) : Option (List UInt8) × List UInt8 :=
  if bs.length < 8 then (none, bs)
  else
    let len := ofLe (bs.take 8)
    let rest := bs.drop 8
    if len ≤ rest.length then (some (rest.take len), rest.drop len) else (none, rest)

def readWitnesses (W : WalletPrim P) : Parse (Nat × W.Tree × List (Nat × W.Witness)) := do
  let witnessedUpto ← u64
  let lagTree ← readTree W
  let witnesses ← vector W.witnessSlot do
    let position ← u64
    let w ← readWitness W
    pure (position, w)
  pure (witnessedUpto, lagTree, witnesses)

variable (db : WalletDb W) (buf : List UInt8)

/-- `read_witness_section` (walletdb.rs:1670): kept only if it lies above the base, not past the tip, and
every witness is one of an unspent note. -/
def readWitnessSection : Except (Fault Unit) (WalletDb W) := do
  match ← (readWitnesses W).attempt buf with
  | some (witnessedUpto, lagTree, witnesses) =>
    if db.baseSize ≤ witnessedUpto ∧ witnessedUpto ≤ db.size ∧ ∀ pw ∈ witnesses, pw.1 ∈ db.notes.map (·.position) then
      .ok { db with witnessedUpto, lagTree, witnesses }
    else .ok db
  | none => .ok db

def readHistoryKind : Parse HistoryKind := do
  let code ← u8
  if code = 0 then pure .coinbase
  else if code = 1 then pure .received
  else if code = 2 then pure .sent
  else .fail

def readRecipient : Parse (Option AddressBytes) := do
  let tag ← u8
  if tag = 0 then pure none
  else if tag = 1 then do
    let r ← (array 43 : Parse AddressBytes)
    pure (some r)
  else .fail

def readHistoryEntry : Parse HistoryEntry := do
  let kind ← readHistoryKind
  let txid ← readBytes32
  let daaScore ← readU64
  let timestampMs ← readU64
  let amount ← readU64
  let fee ← readU64
  let recipient ← readRecipient
  let memoLen ← u16
  let memo ← bytes memoLen
  pure { kind, txid, daaScore, timestampMs, amount, fee, recipient, memo }

/-- At most `HISTORY_CAP` rows are read, whatever count is declared. -/
def readHistory : Parse (List HistoryEntry) := do
  let n ← u64
  times (min n HISTORY_CAP) readHistoryEntry

/-- `read_history_section` (walletdb.rs:1632) -/
def readHistorySection : Except (Fault Unit) (WalletDb W) := do
  match ← readHistory.attempt buf with
  | some history => .ok { db with history }
  | none => .ok db

def readPendingSpend (W : WalletPrim P) : Parse (PendingSpend W) := do
  let note ← readNote W
  let txid ← readBytes32
  let submittedDaa ← readU64
  pure { note, txid, submittedDaa }

def readPending (W : WalletPrim P) : Parse (UInt64 × List (PendingSpend W)) := do
  let lastDaa ← readU64
  let pending ← list (readPendingSpend W)
  pure (lastDaa, pending)

/-- `read_pending_section` (walletdb.rs:1600) -/
def readPendingSection : Except (Fault Unit) (WalletDb W) := do
  match ← (readPending W).attempt buf with
  | some (lastDaa, pendingSpends) => .ok { db with lastDaa, pendingSpends }
  | none => .ok db

/-- A section that a blob has from version `since` on. -/
def bestEffort (read : WalletDb W → List UInt8 → Except (Fault Unit) (WalletDb W)) (since version : UInt8)
    (db : WalletDb W) (bs : List UInt8) : Except (Fault Unit) (WalletDb W × List UInt8) :=
  if version < since then .ok (db, bs)
  else
    match readSection bs with
    | (none, rest) => .ok (db, rest)
    | (some buf, rest) => do
      let db ← read db buf
      .ok (db, rest)

/-! ## Restoring -/

/-- What a wallet is opened with: a seed, or a full viewing key for a watch-only one. -/
inductive WalletKey where
  | seed (seed : Bytes32)
  | viewing (fvk : BitVec 768)

/-- The fresh wallet of a key, if the key is valid. -/
def WalletKey.wallet (W : WalletPrim P) : WalletKey → Option (WalletDb W)
  | .seed bytes => WalletDb.fromSeed W bytes
  | .viewing bytes => WalletDb.fromFvk W bytes

theorem WalletKey.wallet_eq_fresh {key : WalletKey} {db : WalletDb W} (h : key.wallet W = some db) :
    ∃ fvk, db = .fresh fvk := by
  cases key with
  | seed bytes =>
    obtain ⟨fvk, -, rfl⟩ := Option.map_eq_some_iff.mp h
    exact ⟨fvk, rfl⟩
  | viewing bytes =>
    obtain ⟨fvk, -, rfl⟩ := Option.map_eq_some_iff.mp h
    exact ⟨fvk, rfl⟩

namespace WalletDb

/-- `restore` (walletdb.rs:1502); `.err ()` is `None`. -/
def restore (db : WalletDb W) (bytes : List UInt8) (tip : Option FrontierState) : Except (Fault Unit) (WalletDb W) := do
  let (head, rest) ← (readHead W).run bytes
  let db ← Except.ofOption (.err ()) (head.install db tip)
  let (db, rest) ← bestEffort readWitnessSection CHECKPOINT_VERSION_V5 head.version db rest
  let (db, rest) ← bestEffort readHistorySection CHECKPOINT_VERSION_V6 head.version db rest
  let (db, rest) ← bestEffort readPendingSection CHECKPOINT_VERSION head.version db rest
  if rest = [] then .ok db else .error (.err ())

/-- A restore, stage by stage. -/
theorem restore_of_stages {db db₁ db₂ db₃ db₄ : WalletDb W} {bytes rest₁ rest₂ rest₃ rest₄ : List UInt8}
    {tip : Option FrontierState} {head : Head W} (hhead : (readHead W).run bytes = .ok (head, rest₁))
    (hinstall : head.install db tip = some db₁)
    (hwitnesses : bestEffort readWitnessSection CHECKPOINT_VERSION_V5 head.version db₁ rest₁ = .ok (db₂, rest₂))
    (hhistory : bestEffort readHistorySection CHECKPOINT_VERSION_V6 head.version db₂ rest₂ = .ok (db₃, rest₃))
    (hpending : bestEffort readPendingSection CHECKPOINT_VERSION head.version db₃ rest₃ = .ok (db₄, rest₄)) :
    db.restore bytes tip = if rest₄ = [] then .ok db₄ else .error (.err ()) := by
  unfold restore
  rw [hhead]
  show (Except.ofOption (Fault.err ()) (head.install db tip) >>= _) = _
  rw [hinstall]
  show (bestEffort readWitnessSection CHECKPOINT_VERSION_V5 head.version db₁ rest₁ >>= _) = _
  rw [hwitnesses]
  show (bestEffort readHistorySection CHECKPOINT_VERSION_V6 head.version db₂ rest₂ >>= _) = _
  rw [hhistory]
  show (bestEffort readPendingSection CHECKPOINT_VERSION head.version db₃ rest₃ >>= _) = _
  rw [hpending]
  rfl

/-- `from_checkpoint_with_tip` and `from_checkpoint_fvk_with_tip` (walletdb.rs:1490) for the two kinds of
keys; without a tip, `from_checkpoint` and `from_checkpoint_fvk`. -/
def restoreWith (W : WalletPrim P) (key : WalletKey) (bytes : List UInt8) (tip : Option FrontierState) :
    Except (Fault Unit) (WalletDb W) := do
  let db ← Except.ofOption (.err ()) (key.wallet W)
  db.restore bytes tip

/-- `from_checkpoint` (walletdb.rs:1470) -/
def fromCheckpoint (W : WalletPrim P) (seed : Bytes32) (bytes : List UInt8) : Except (Fault Unit) (WalletDb W) :=
  restoreWith W (.seed seed) bytes none

theorem restoreWith_eq {key : WalletKey} {fvk : W.Fvk} (hkey : key.wallet W = some (fresh fvk)) (bytes : List UInt8)
    (tip : Option FrontierState) : restoreWith W key bytes tip = (fresh fvk).restore bytes tip := by
  rw [restoreWith, hkey]
  rfl

end WalletDb

end Firecash
