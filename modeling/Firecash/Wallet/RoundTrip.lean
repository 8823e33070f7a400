import Firecash.Wallet.Bookkeeping
import Firecash.Wallet.Checkpoint

/-!
# Reading a checkpoint back

Each writer is read back by its reader, piece by piece, as long as the blob exists at all (a declared
count then never asks for more than an allocation). `restored` is the wallet that results: the head, the
history up to its cap and the pending spends as they were; the witnesses only if each is one of an
unspent note.
-/

namespace Firecash

open Parse List Reads HistoryEntry

variable {P : Prim} {W : WalletPrim P}

/-! ## Pieces -/

@[simp] theorem length_writeBytes32 (x : Bytes32) : (writeBytes32 x).length = 32 := BitVec.length_bytes (n := 32) x

theorem reads_bytes32 (x : Bytes32) : Reads readBytes32 (writeBytes32 x) x := reads_array (n := 32) x

theorem reads_bytes32Vec (xs : List Bytes32) (fits : (writeVec writeBytes32 xs).length ≤ ISIZE_MAX) :
    Reads (vector 32 readBytes32) (writeVec writeBytes32 xs) xs :=
  reads_vector (by decide) (fun x _ => reads_bytes32 x) (fun x _ => (length_writeBytes32 x).ge) fits

theorem reads_readU64 (x : UInt64) : Reads readU64 (writeU64 x) x := by
  refine (reads_u64 x.toNat_lt).bind_nil ?_
  rw [UInt64.ofNat_toNat]
  exact pure x

section Laws

variable (laws : IncrementalLaws W)

include laws

variable {f : P.Frontier}

theorem stateFrontier_parts {leaf : P.Node} {ommers : List P.Node}
    (hv : P.frontierValue f = some (leaf, ommers)) :
    stateFrontier P ⟨W.frontierPosition f + 1, some (P.nodeToBytes leaf), ommers.map P.nodeToBytes⟩ = some f := by
  have parts := laws.fromParts_parts hv
  simp [stateFrontier, GlobalTree.fromState, laws.nodeFromBytes_toBytes,
    GlobalTree.nodesFromBytes_map laws.toFrontierLaws, parts]

omit laws in
theorem writeFrontier_parts {leaf : P.Node} {ommers : List P.Node} (hv : P.frontierValue f = some (leaf, ommers)) :
    writeFrontier f = [1] ++
      (writeBytes32 (P.nodeToBytes leaf) ++ writeVec writeBytes32 (ommers.map P.nodeToBytes)) := by
  rw [writeFrontier, hv]

theorem reads_frontier (fits : (writeFrontier f).length ≤ ISIZE_MAX) :
    Reads (readFrontier P (W.frontierSize f)) (writeFrontier f) f := by
  cases hv : P.frontierValue f with
  | none =>
    obtain rfl := laws.eq_empty_of_frontierValue hv
    have written : writeFrontier P.frontierEmpty = [0] := by rw [writeFrontier, hv]
    rw [written]
    exact (reads_u8 0).bind_nil (pure _)
  | some parts =>
    obtain ⟨leaf, ommers⟩ := parts
    have size : W.frontierSize f = W.frontierPosition f + 1 := by rw [WalletPrim.frontierSize, hv]
    rw [writeFrontier_parts hv] at fits ⊢
    simp only [length_append] at fits
    have ommers := reads_bytes32Vec (ommers.map P.nodeToBytes) (by omega)
    rw [size]
    exact (reads_u8 1).bind ((reads_bytes32 _).bind (ommers.bind_nil (reads_ofOption (stateFrontier_parts laws hv))))

theorem reads_tree {t : W.Tree} (fits : (writeTree t).length ≤ ISIZE_MAX) : Reads (readTree W) (writeTree t) t := by
  unfold writeTree at fits ⊢
  rw [length_append] at fits
  have small : W.treeSize t < 2 ^ 64 := (laws.treeSize_le t).trans_lt (by decide)
  have frontier := reads_frontier laws (f := W.treeToFrontier t) (by omega)
  refine (reads_u64 small).bind (frontier.bind_nil ?_)
  rw [laws.treeFromFrontier_toFrontier]
  exact pure t

theorem reads_cursor {c : Option W.Tree} (fits : (writeCursor c).length ≤ ISIZE_MAX) :
    Reads (readCursor W) (writeCursor c) c := by
  cases c with
  | none => exact (reads_u8 0).bind_nil (pure _)
  | some t =>
    simp only [writeCursor, length_append] at fits
    have tree := reads_tree laws (t := t) (by omega)
    exact (reads_u8 1).bind (tree.bind_nil (pure _))

theorem reads_node (n : P.Node) : Reads (readNode P) (writeBytes32 (P.nodeToBytes n)) n :=
  (reads_bytes32 (P.nodeToBytes n)).bind_nil (reads_ofOption (laws.nodeFromBytes_toBytes n))

theorem reads_witness {w : W.Witness} (fits : (writeWitness w).length ≤ ISIZE_MAX) :
    Reads (readWitness W) (writeWitness w) w := by
  unfold writeWitness at fits ⊢
  simp only [length_append] at fits
  have tree := reads_tree laws (t := W.witnessTree w) (by omega)
  have filled : Reads (vector 32 (readNode P)) _ (W.witnessFilled w) :=
    reads_vector (by decide) (fun n _ => reads_node laws n) (fun n _ => (length_writeBytes32 _).ge) (by omega)
  have cursor := reads_cursor laws (c := W.witnessCursor w) (by omega)
  exact tree.bind (filled.bind (cursor.bind_nil (reads_ofOption (laws.witnessFromParts_parts w))))

theorem reads_note {n : OwnedNote W} (small : n.position < 2 ^ 64) : Reads (readNote W) (writeNote n) n :=
  (reads_u64 small).bind ((reads_bytes32 _).bind ((reads_array _).bind ((reads_readU64 _).bind
    ((reads_bytes32 _).bind ((reads_bytes32 _).bind_nil
      ((reads_ofOption (laws.noteFromParts_parts n.note)).bind_nil (pure _)))))))

theorem reads_pendingSpend {p : PendingSpend W} (small : p.note.position < 2 ^ 64) :
    Reads (readPendingSpend W) (writePendingSpend p) p :=
  (reads_note laws small).bind ((reads_bytes32 _).bind ((reads_readU64 _).bind_nil (pure _)))

end Laws

/-! ## History rows -/

variable (h : HistoryEntry)

/-- A row as it is written: with its memo cut. -/
def HistoryEntry.cut : HistoryEntry := { h with memo := h.memo.take 65535 }

theorem HistoryEntry.cut_eq {h : HistoryEntry} (short : h.memo.length ≤ 65535) : h.cut = h := by
  rw [cut, take_of_length_le short]

theorem writeHistoryEntry_cut : writeHistoryEntry h.cut = writeHistoryEntry h := by
  simp only [writeHistoryEntry, cut, length_take, take_take, min_self]
  rw [min_comm (min 65535 _), ← min_assoc, min_self, min_comm]

theorem reads_historyKind (k : HistoryKind) : Reads readHistoryKind [k.code] k := by
  cases k <;> exact (reads_u8 _).bind_nil (pure _)

theorem reads_recipient (r : Option AddressBytes) : Reads readRecipient (writeRecipient r) r := by
  cases r with
  | none => exact (reads_u8 0).bind_nil (pure _)
  | some r => exact (reads_u8 1).bind ((reads_array (n := 43) r).bind_nil (pure _))

theorem reads_historyEntry : Reads readHistoryEntry (writeHistoryEntry h) h.cut := by
  have memoLen : (h.memo.take 65535).length = min h.memo.length 65535 := by rw [length_take, min_comm]
  exact (reads_historyKind h.kind).bind ((reads_bytes32 _).bind ((reads_readU64 _).bind ((reads_readU64 _).bind
    ((reads_readU64 _).bind ((reads_readU64 _).bind ((reads_recipient _).bind ((reads_u16 (by omega)).bind
      ((reads_bytes memoLen).bind_nil (pure _)))))))))

theorem writeHistoryEntry_ne_nil : writeHistoryEntry h ≠ [] := by
  simp [writeHistoryEntry]

theorem reads_historyEntries {n : Nat} {rows : List HistoryEntry} (hn : rows.length = n) :
    Reads (times n readHistoryEntry) (rows.flatMap writeHistoryEntry) (rows.map cut) := by
  have written : rows.flatMap writeHistoryEntry = (rows.map cut).flatMap writeHistoryEntry := by
    rw [flatMap_map]
    simp only [writeHistoryEntry_cut]
  have count : n = (rows.map cut).length := by rw [length_map, hn]
  rw [written, count]
  refine reads_times fun row hrow => ?_
  obtain ⟨h, -, rfl⟩ := mem_map.mp hrow
  rw [writeHistoryEntry_cut]
  exact reads_historyEntry h

/-! ## Sections -/

variable {sec : List UInt8}

theorem readSection_writeSection (fits : sec.length < 2 ^ 64) (rest : List UInt8) :
    readSection (writeSection sec ++ rest) = (some sec, rest) := by
  have length := length_leBytes 8 sec.length
  unfold readSection writeSection
  rw [append_assoc, take_left' length, drop_left' length, ofLe_leBytes_of_lt (by omega)]
  simp

theorem bestEffort_writeSection {read : WalletDb W → List UInt8 → Except (Fault Unit) (WalletDb W)} {since : UInt8}
    (has : since ≤ CHECKPOINT_VERSION) (fits : sec.length < 2 ^ 64) (db : WalletDb W)
    (rest : List UInt8) {db' : WalletDb W} (hread : read db sec = .ok db') :
    bestEffort read since CHECKPOINT_VERSION db (writeSection sec ++ rest) = .ok (db', rest) := by
  unfold bestEffort
  rw [if_neg (UInt8.not_lt.mpr has), readSection_writeSection fits]
  show (read db sec >>= fun db => _) = _
  rw [hread]
  rfl

namespace WalletDb

/-- What a blob must satisfy to be read back. -/
structure Writable (db : WalletDb W) : Prop where
  base : W.frontierSize db.baseFrontier = db.baseSize
  tip : W.treeSize db.tree = db.size
  base_le : db.baseSize ≤ db.witnessedUpto
  upto_le : db.witnessedUpto ≤ db.size
  positions : ∀ n ∈ db.held, n.position < db.size
  live : ∀ pw ∈ db.witnesses, pw.1 < db.size
  live_le : db.witnesses.length ≤ MAX_LIVE_WITNESSES

variable (db : WalletDb W)

/-- Every live witness is one of an unspent note. -/
def WitnessesOwned : Prop := ∀ pw ∈ db.witnesses, pw.1 ∈ db.notes.map (·.position)
  deriving Decidable

variable (fvk : W.Fvk)

/-- What the head of a blob gives. -/
def restoredHead (db : WalletDb W) : WalletDb W :=
  { fresh fvk with
    tree := db.tree
    baseFrontier := db.baseFrontier
    baseSize := db.baseSize
    leaves := db.leaves
    notes := db.notes
    size := db.size
    lagTree := W.treeFromFrontier db.baseFrontier
    witnessedUpto := db.baseSize
    spentNullifiers := db.spentNullifiers }

/-- With the witness section, which is kept whole or dropped whole. -/
def restoredWitnesses (db : WalletDb W) : WalletDb W :=
  { db.restoredHead fvk with
    witnesses := if db.WitnessesOwned then db.witnesses else []
    lagTree := if db.WitnessesOwned then db.lagTree else W.treeFromFrontier db.baseFrontier
    witnessedUpto := if db.WitnessesOwned then db.witnessedUpto else db.baseSize }

def restoredHistory : List HistoryEntry :=
  if db.history.length ≤ HISTORY_CAP then db.history.map cut else []

def restoredRows (db : WalletDb W) : WalletDb W :=
  { db.restoredWitnesses fvk with history := db.restoredHistory }

/-- The wallet that a blob of `db` is restored to. -/
def restored (db : WalletDb W) : WalletDb W :=
  { db.restoredRows fvk with lastDaa := db.lastDaa, pendingSpends := db.pendingSpends }

/-- What the head of `db`'s blob declares. -/
def declared (tip : Option P.Frontier) : Head W where
  version := CHECKPOINT_VERSION
  baseSize := db.baseSize
  baseFrontier := db.baseFrontier
  size := db.size
  leaves := db.leaves
  notes := db.notes
  spentNullifiers := db.spentNullifiers.sort bytesLe
  tip := tip

variable {db : WalletDb W} (laws : IncrementalLaws W)

include laws

theorem reads_body (base : W.frontierSize db.baseFrontier = db.baseSize) (size : db.size < 2 ^ 64)
    (positions : ∀ n ∈ db.notes, n.position < 2 ^ 64) (fits : db.writeBody.length ≤ ISIZE_MAX) :
    Reads (readBody W) db.writeBody (db.declared none) := by
  unfold writeBody at fits ⊢
  simp only [length_append] at fits
  have baseSize : db.baseSize < 2 ^ 64 := by
    rw [← base]
    exact (laws.frontierSize_le _).trans_lt (by decide)
  have frontier := reads_frontier laws (f := db.baseFrontier) (by omega)
  rw [base] at frontier
  have leaves := reads_bytes32Vec db.leaves (by omega)
  have notes : Reads (list (readNote W)) (writeVec writeNote db.notes) db.notes :=
    reads_list (fun n hn => reads_note laws (positions n hn)) (fun n _ => by simp [writeNote]; omega) (by omega)
  have nfs : Reads (list readBytes32) _ (db.spentNullifiers.sort bytesLe) :=
    reads_list (fun x _ => reads_bytes32 x) (fun x _ => by simp) (by omega)
  refine (reads_u8 CHECKPOINT_VERSION).bind ?_
  rw [if_neg (by decide)]
  exact (reads_u64 baseSize).bind (frontier.bind ((reads_u64 size).bind (leaves.bind (notes.bind
    (nfs.bind_nil (pure _))))))

theorem Writable.size_lt (h : db.Writable) : db.size < 2 ^ 64 := by
  rw [← h.tip]
  exact (laws.treeSize_le _).trans_lt (by decide)

theorem reads_head (h : db.Writable) (fits : db.writeHead.length ≤ ISIZE_MAX) :
    Reads (readHead W) db.writeHead (db.declared (some (W.treeToFrontier db.tree))) := by
  have size := h.size_lt laws
  rw [writeHead, length_append] at fits
  have body := reads_body laws h.base size
    (fun n hn => (h.positions n (mem_append_left _ hn)).trans size) (by omega)
  have tip := reads_frontier laws (f := W.treeToFrontier db.tree) (by omega)
  have tipSize : W.frontierSize (W.treeToFrontier db.tree) = db.size := h.tip
  rw [tipSize] at tip
  refine body.bind ?_
  have v4 : CHECKPOINT_VERSION_V4 ≤ (db.declared none).version :=
    show CHECKPOINT_VERSION_V4 ≤ CHECKPOINT_VERSION by decide
  rw [if_pos v4]
  exact tip.bind_nil (pure _)

theorem reads_witnesses (h : db.Writable) (fits : db.writeWitnesses.length ≤ ISIZE_MAX) :
    Reads (readWitnesses W) db.writeWitnesses (db.witnessedUpto, db.lagTree, db.witnesses) := by
  have size := h.size_lt laws
  have upto := h.upto_le
  have live := h.live_le
  have slot := laws.witnessSlot_le
  have few : MAX_LIVE_WITNESSES = 256 := rfl
  unfold writeWitnesses writeVec at fits ⊢
  simp only [length_append] at fits
  have lag := reads_tree laws (t := db.lagTree) (by omega)
  have witnesses : Reads (times db.witnesses.length do
      let position ← u64
      let w ← readWitness W
      pure (position, w)) (db.witnesses.flatMap fun pw => leBytes 8 pw.1 ++ writeWitness pw.2) db.witnesses := by
    refine reads_times fun pw hpw => ?_
    have part : (leBytes 8 pw.1 ++ writeWitness pw.2).length ≤ _ :=
      length_le_flatMap (fun pw : Nat × W.Witness => leBytes 8 pw.1 ++ writeWitness pw.2) hpw
    rw [length_append] at part
    have position := (h.live pw hpw).trans size
    exact (reads_u64 position).bind ((reads_witness laws (by omega)).bind_nil (pure _))
  have room : W.witnessSlot * db.witnesses.length ≤ ISIZE_MAX := by
    have : W.witnessSlot * db.witnesses.length ≤ 65536 * 256 := Nat.mul_le_mul slot (by omega)
    exact this.trans (by decide)
  exact (reads_u64 (by omega)).bind (lag.bind (((reads_u64 (by omega)).bind (reads_reserve room witnesses)).bind_nil
    (pure _)))

theorem reads_pending (h : db.Writable) (fits : db.writePending.length ≤ ISIZE_MAX) :
    Reads (readPending W) db.writePending (db.lastDaa, db.pendingSpends) := by
  have size := h.size_lt laws
  rw [writePending, length_append] at fits
  have positions : ∀ p ∈ db.pendingSpends, p.note.position < 2 ^ 64 := fun p hp =>
    (h.positions p.note (mem_append_right _ (mem_map_of_mem hp))).trans size
  have pending : Reads (list (readPendingSpend W)) (writeVec writePendingSpend db.pendingSpends) db.pendingSpends :=
    reads_list (fun p hp => reads_pendingSpend laws (positions p hp))
      (fun p _ => by simp [writePendingSpend]; omega) (by omega)
  exact (reads_readU64 _).bind (pending.bind_nil (pure _))

/-! ## The restored wallet -/

variable (fvk : W.Fvk)

theorem install_declared (tip : Option FrontierState) :
    (db.declared (some (W.treeToFrontier db.tree))).install (fresh fvk) tip = some (db.restoredHead fvk) := by
  simp [Head.install, declared, restoredHead, fresh, laws.treeFromFrontier_toFrontier]

theorem readWitnessSection_written (h : db.Writable) (fits : db.writeWitnesses.length ≤ ISIZE_MAX) :
    readWitnessSection (db.restoredHead fvk) db.writeWitnesses = .ok (db.restoredWitnesses fvk) := by
  unfold readWitnessSection restoredWitnesses
  rw [(reads_witnesses laws h fits).attempt]
  show (if db.baseSize ≤ db.witnessedUpto ∧ db.witnessedUpto ≤ db.size ∧ db.WitnessesOwned then _ else _) = _
  by_cases owned : db.WitnessesOwned
  · rw [if_pos ⟨h.base_le, h.upto_le, owned⟩]
    simp only [if_pos owned]
  · rw [if_neg fun all => owned all.2.2]
    simp only [if_neg owned]
    rfl

omit laws in
/-- Rows beyond the cap are left unread, and with bytes left over the section is dropped. -/
theorem attempt_history (fits : db.writeHistory.length ≤ ISIZE_MAX) :
    readHistory.attempt db.writeHistory =
      .ok (if db.history.length ≤ HISTORY_CAP then some (db.history.map cut) else none) := by
  have rows : 1 * db.history.length ≤ _ :=
    mul_length_le_flatMap fun h _ => length_pos_iff.mpr (writeHistoryEntry_ne_nil h)
  have bound : ISIZE_MAX < 2 ^ 64 := by decide
  rw [writeHistory, writeVec, length_append] at fits
  have count : db.history.length < 2 ^ 64 := by omega
  rw [writeHistory, writeVec]
  split
  · rename_i few
    have all := reads_historyEntries (min_eq_left few).symm
    exact ((reads_u64 count).bind all).attempt
  · rename_i many
    have length : (db.history.take HISTORY_CAP).length = min db.history.length HISTORY_CAP := by
      rw [length_take, min_comm]
    have read : Reads readHistory _ _ := (reads_u64 count).bind (reads_historyEntries length)
    have left : (db.history.drop HISTORY_CAP).flatMap writeHistoryEntry ≠ [] := by
      intro nil
      have more : 1 * (db.history.drop HISTORY_CAP).length ≤ _ :=
        mul_length_le_flatMap fun h _ => length_pos_iff.mpr (writeHistoryEntry_ne_nil h)
      rw [nil, length_drop, length_nil] at more
      omega
    have split : db.history.flatMap writeHistoryEntry =
        (db.history.take HISTORY_CAP).flatMap writeHistoryEntry ++
          (db.history.drop HISTORY_CAP).flatMap writeHistoryEntry := by
      rw [← flatMap_append, take_append_drop]
    rw [split, ← append_assoc]
    exact read.attempt_append left

omit laws in
theorem readHistorySection_written (fits : db.writeHistory.length ≤ ISIZE_MAX) :
    readHistorySection (db.restoredWitnesses fvk) db.writeHistory = .ok (db.restoredRows fvk) := by
  unfold readHistorySection restoredRows restoredHistory
  rw [attempt_history fits]
  split <;> rfl

theorem readPendingSection_written (h : db.Writable) (fits : db.writePending.length ≤ ISIZE_MAX) :
    readPendingSection (db.restoredRows fvk) db.writePending = .ok (db.restored fvk) := by
  unfold readPendingSection
  rw [(reads_pending laws h fits).attempt]
  rfl

variable {bytes : List UInt8}

omit laws in
theorem toCheckpoint_eq_some (hcp : db.toCheckpoint = some bytes) :
    bytes.length ≤ ISIZE_MAX ∧
      bytes = db.writeHead ++
        (writeSection db.writeWitnesses ++ (writeSection db.writeHistory ++ writeSection db.writePending)) := by
  unfold toCheckpoint at hcp
  dsimp only at hcp
  split at hcp
  · rename_i fits
    cases hcp
    exact ⟨fits, rfl⟩
  · cases hcp

/-- **A blob is read back** as `restored`, under any key. -/
theorem restore_toCheckpoint (h : db.Writable) (hcp : db.toCheckpoint = some bytes) (fvk : W.Fvk)
    (tip : Option FrontierState) : (fresh fvk).restore bytes tip = .ok (db.restored fvk) := by
  obtain ⟨fits, rfl⟩ := toCheckpoint_eq_some hcp
  simp only [writeSection, length_append, length_leBytes] at fits
  have bound : ISIZE_MAX < 2 ^ 64 := by decide
  have head := reads_head laws h (by omega)
  have witnesses := bestEffort_writeSection (show CHECKPOINT_VERSION_V5 ≤ CHECKPOINT_VERSION by decide)
    (show db.writeWitnesses.length < _ by omega) _ (writeSection db.writeHistory ++ writeSection db.writePending)
    (readWitnessSection_written laws fvk h (by omega))
  have history := bestEffort_writeSection (show CHECKPOINT_VERSION_V6 ≤ CHECKPOINT_VERSION by decide)
    (show db.writeHistory.length < _ by omega) _ (writeSection db.writePending)
      (readHistorySection_written fvk (by omega))
  have pending := bestEffort_writeSection (show CHECKPOINT_VERSION ≤ CHECKPOINT_VERSION by decide)
    (show db.writePending.length < _ by omega) _ [] (readPendingSection_written laws fvk h (by omega))
  rw [append_nil] at pending
  rw [restore_of_stages (head _) (install_declared laws fvk tip) witnesses history pending, if_pos rfl]

/-! ## Reachable wallets -/

variable {t₀ : W.Tree} {ns : List P.Node} {b u : Nat} {inOrder : Prop} {rec : List (OwnedNote W)}

theorem Tracks.base_frontierSize (h : Tracks t₀ ns b u db) : W.frontierSize db.baseFrontier = db.baseSize := by
  have size := laws.treeSize_extend h.baseTree
  rw [laws.treeSize_fromFrontier, length_take_of_le (h.base_le.trans h.upto_le)] at size
  rw [size, h.base_eq]

/-- A wallet on its stream can be written and read back while the tree has room. -/
theorem Tracks.writable (h : Tracks t₀ ns b u db) (books : Accounts inOrder rec db) (room : db.size ≤ TREE_CAPACITY) :
    db.Writable where
  base := h.base_frontierSize laws
  tip := by
    have size := h.size_eq
    rw [h.tip, laws.treeSize_fill]
    omega
  base_le := by
    have := h.base_le
    rw [h.base_eq, h.upto_eq]
    omega
  upto_le := by
    have := h.upto_le
    rw [h.upto_eq, h.size_eq]
    omega
  positions := fun n hn => (books.range n hn).2
  live := by
    intro pw hpw
    obtain ⟨p, -, hp, hpos, -⟩ := h.live pw hpw
    have upto := h.upto_le
    have size := h.size_eq
    omega
  live_le := h.live_le

/-- A frontier is not read back under a size that no frontier has. -/
theorem readFrontier_overfull {f : P.Frontier} {size : Nat} (fits : (writeFrontier f).length ≤ ISIZE_MAX)
    (nonempty : P.frontierValue f ≠ none) (large : TREE_CAPACITY < size) :
    Refuses (readFrontier P size) (writeFrontier f) := by
  obtain ⟨⟨leaf, ommers⟩, hv⟩ := Option.ne_none_iff_exists'.mp nonempty
  have refused : stateFrontier P ⟨size, some (P.nodeToBytes leaf), ommers.map P.nodeToBytes⟩ = none := by
    have noFrontier : P.frontierFromParts (size - 1) leaf ommers = none := by
      cases hf : P.frontierFromParts (size - 1) leaf ommers with
      | none => rfl
      | some g =>
        obtain ⟨-, -, inside⟩ := laws.parts_fromParts hf
        omega
    simp [stateFrontier, GlobalTree.fromState, laws.nodeFromBytes_toBytes,
      GlobalTree.nodesFromBytes_map laws.toFrontierLaws, noFrontier, show size ≠ 0 by omega]
  rw [writeFrontier_parts hv] at fits ⊢
  simp only [length_append] at fits
  have ommers := reads_bytes32Vec (ommers.map P.nodeToBytes) (by omega)
  exact (reads_u8 1).refuses ((reads_bytes32 _).refuses (ommers.refuses_nil (refuses_ofOption refused)))

/-- Past its capacity the tree no longer has the size of the wallet, and its frontier is refused. -/
theorem Tracks.restore_overfull (h : Tracks t₀ ns b u db) (books : Accounts inOrder rec db)
    (full : TREE_CAPACITY < db.size) (hcp : db.toCheckpoint = some bytes) (fvk : W.Fvk) (tip : Option FrontierState) :
    (fresh fvk).restore bytes tip = .error (.err ()) := by
  obtain ⟨fits, rfl⟩ := toCheckpoint_eq_some hcp
  simp only [writeHead, length_append] at fits
  have size := h.size_lt
  have body := reads_body laws (h.base_frontierSize laws) size
    (fun n hn => (books.range n (mem_append_left _ hn)).2.trans size) (by omega)
  have nonempty : P.frontierValue (W.treeToFrontier db.tree) ≠ none := by
    intro none
    have empty : W.treeSize db.tree = 0 := by rw [WalletPrim.treeSize, WalletPrim.frontierSize, none]
    have total := h.size_eq
    rw [h.tip, laws.treeSize_fill] at empty
    have : 0 < TREE_CAPACITY := by decide
    omega
  have tip' := readFrontier_overfull laws (by omega) nonempty full
  have head : Refuses (readHead W) (db.writeBody ++ writeFrontier (W.treeToFrontier db.tree)) := by
    refine body.refuses ?_
    have v4 : CHECKPOINT_VERSION_V4 ≤ (db.declared none).version :=
      show CHECKPOINT_VERSION_V4 ≤ CHECKPOINT_VERSION by decide
    rw [if_pos v4]
    exact tip'.bind _
  unfold restore
  rw [writeHead, head]
  rfl

/-- What a wallet on its stream is restored to. -/
theorem Tracks.restore_eq (h : Tracks t₀ ns b u db) (books : Accounts inOrder rec db)
    (hcp : db.toCheckpoint = some bytes) (fvk : W.Fvk) (tip : Option FrontierState) :
    (fresh fvk).restore bytes tip = if db.size ≤ TREE_CAPACITY then .ok (db.restored fvk) else .error (.err ()) := by
  split
  · rename_i room
    exact restore_toCheckpoint laws (h.writable laws books room) hcp fvk tip
  · rename_i full
    exact h.restore_overfull laws books (Nat.lt_of_not_le full) hcp fvk tip

/-- `from_checkpoint` after a run: the wallet is `restored`, unless it has more leaves than a tree. -/
theorem Started.fromCheckpoint_eq {db₀ : WalletDb W} {ops : List (WalletOp P)} {seed : Bytes32} {fvk : W.Fvk}
    (start : Started db₀) (hrun : db₀.run ops = some db) (hkey : W.fvkFromSeed seed = some fvk)
    (hcp : db.toCheckpoint = some bytes) :
    fromCheckpoint W seed bytes = if db.size ≤ TREE_CAPACITY then .ok (db.restored fvk) else .error (.err ()) := by
  obtain ⟨ns, b, u, tracks⟩ := tracks_run laws (start.tracks laws) hrun
  have books : Accounts False _ db := accounts_run start.accounts False.elim hrun
  have opened : (WalletKey.seed seed).wallet W =
      some (WalletDb.fresh fvk) := by rw [WalletKey.wallet, fromSeed, hkey]; rfl
  rw [fromCheckpoint, restoreWith_eq opened, tracks.restore_eq laws books hcp]

omit laws in
/-- The same wallet as far as a restart is to keep it: the live witnesses are at the same positions and
give the same paths after any further leaves. -/
structure SameAs (db db' : WalletDb W) : Prop where
  baseFrontier : db'.baseFrontier = db.baseFrontier
  baseSize : db'.baseSize = db.baseSize
  leaves : db'.leaves = db.leaves
  size : db'.size = db.size
  tree : db'.tree = db.tree
  notes : db'.notes = db.notes
  pendingSpends : db'.pendingSpends = db.pendingSpends
  spentNullifiers : db'.spentNullifiers = db.spentNullifiers
  lastDaa : db'.lastDaa = db.lastDaa
  witnessedUpto : db'.witnessedUpto = db.witnessedUpto
  positions : db'.witnesses.map (·.1) = db.witnesses.map (·.1)
  paths : ∀ ms, (db'.witnesses.map fun pw => (W.witnessExtend pw.2 ms).bind W.witnessPath) =
    db.witnesses.map fun pw => (W.witnessExtend pw.2 ms).bind W.witnessPath

omit laws in
theorem sameAs_restored_iff (fvk : W.Fvk) : db.SameAs (db.restored fvk) ↔ db.WitnessesOwned := by
  constructor
  · intro same
    by_contra lost
    have positions := same.positions
    rw [show (db.restored fvk).witnesses = [] from if_neg lost] at positions
    have none : db.witnesses = [] := map_eq_nil_iff.mp positions.symm
    exact lost (by simp [WitnessesOwned, none])
  · intro owned
    have witnesses : (db.restored fvk).witnesses = db.witnesses := if_pos owned
    exact ⟨rfl, rfl, rfl, rfl, rfl, rfl, rfl, rfl, rfl, if_pos owned, by rw [witnesses], fun ms => by rw [witnesses]⟩

/-- **When a checkpoint gives the wallet back.** A live witness of a note that is parked or spent drops the
whole witness section; a wallet with more leaves than a tree holds is not restored at all. -/
theorem checkpoint_restores_iff {db₀ : WalletDb W} {ops : List (WalletOp P)} {seed : Bytes32} {fvk : W.Fvk}
    {bytes : List UInt8} (start : Started db₀) (hrun : db₀.run ops = some db) (hkey : W.fvkFromSeed seed = some fvk)
    (hcp : db.toCheckpoint = some bytes) :
    (∃ db', fromCheckpoint W seed bytes = .ok db' ∧ db.SameAs db') ↔
      db.size ≤ TREE_CAPACITY ∧ ∀ pw ∈ db.witnesses, pw.1 ∈ db.notes.map (·.position) := by
  rw [start.fromCheckpoint_eq laws hrun hkey hcp]
  by_cases room : db.size ≤ TREE_CAPACITY
  · rw [if_pos room]
    constructor
    · rintro ⟨db', read, same⟩
      cases read
      exact ⟨room, (sameAs_restored_iff fvk).mp same⟩
    · rintro ⟨-, owned⟩
      exact ⟨_, rfl, (sameAs_restored_iff fvk).mpr owned⟩
  · simp [room]

omit laws

/-- The note is mined and a live witness opened for it. -/
def minedAndWitnessed : List (WalletOp leafPrim) :=
  [.ingest (.compact [(minedNote, 5)] []) none, .advanceWitnessesCapped 1 1]

theorem minedAndWitnessed_restores : ∃ db bytes db', (fresh (W := leafLists) 7).run minedAndWitnessed = some db ∧
    db.toCheckpoint = some bytes ∧ db.witnesses ≠ [] ∧ fromCheckpoint leafLists 7 bytes = .ok db' ∧ db.SameAs db' := by
  have reached : ((fresh (W := leafLists) 7).run minedAndWitnessed).any fun db =>
      decide (db.toCheckpoint.isSome ∧ db.witnesses.length = 1 ∧ db.size ≤ TREE_CAPACITY ∧
        ∀ pw ∈ db.witnesses, pw.1 ∈ db.notes.map (·.position)) := by
    decide +kernel
  obtain ⟨db, hrun, h⟩ := (Option.any_eq_true ..).mp reached
  obtain ⟨written, live, small, owned⟩ := of_decide_eq_true h
  obtain ⟨bytes, hcp⟩ := Option.isSome_iff_exists.mp written
  have hkey : leafLists.fvkFromSeed 7 = some 7 := by decide +kernel
  obtain ⟨db', read, same⟩ :=
    (checkpoint_restores_iff leafLists_laws (Started.fresh (W := leafLists) 7) hrun hkey hcp).mpr ⟨small, owned⟩
  exact ⟨db, bytes, db', hrun, hcp, fun none => by simp [none] at live, read, same⟩

/-- Its spend is submitted and the wallet restarted before the witnesses are advanced again. -/
def parkedWitness : List (WalletOp leafPrim) := minedAndWitnessed ++ [.markSpent 0 9 1]

/-- The live witness is lost, and with it the leaf count the witnesses are at. -/
theorem parkedWitness_dropped : ∃ db bytes db', (fresh (W := leafLists) 7).run parkedWitness = some db ∧
    db.toCheckpoint = some bytes ∧ fromCheckpoint leafLists 7 bytes = .ok db' ∧
    (db.witnesses.map (·.1) = [0] ∧ db.witnessedUpto = 1) ∧ db'.witnesses.map (·.1) = [] ∧ db'.witnessedUpto = 0 := by
  have reached : ((fresh (W := leafLists) 7).run parkedWitness).any fun db => db.toCheckpoint.any fun bytes =>
      (fromCheckpoint leafLists 7 bytes).toOption.any fun db' =>
        decide ((db.witnesses.map (·.1) = [0] ∧ db.witnessedUpto = 1) ∧
        db'.witnesses.map (·.1) = [] ∧ db'.witnessedUpto = 0) := by
    decide +kernel
  obtain ⟨db, hrun, reached⟩ := (Option.any_eq_true ..).mp reached
  obtain ⟨bytes, hcp, reached⟩ := (Option.any_eq_true ..).mp reached
  obtain ⟨db', read, facts⟩ := (Option.any_eq_true ..).mp reached
  exact ⟨db, bytes, db', hrun, hcp, Except.toOption_eq_some_iff.mp read, of_decide_eq_true facts⟩

end WalletDb

end Firecash
