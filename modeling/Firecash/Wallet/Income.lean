import Firecash.Wallet.History

/-!
# The income of a wallet

What the received rows of a wallet say, for blocks whose transactions spend nothing of ours: one row
per transaction that pays us, with the total of the notes found in it and the address of the first of
them (`ingestAll_receipts`). The rows of the full and of the compact ingest agree in what a reader of
received rows takes from them, the `Receipt`; `push_history` forgets rows only beyond its cap.
-/

namespace Firecash

open List Option HistoryEntry WalletBlock

variable {P : Prim} {W : WalletPrim P}

/-- What a received row says: who was paid, by which transaction, how much. -/
structure Receipt where
  recipient : AddressBytes
  txid : Bytes32
  amount : UInt64
  deriving DecidableEq

def HistoryEntry.receipt (row : HistoryEntry) : Option Receipt :=
  if row.kind = .received then row.recipient.map fun recipient => ⟨recipient, row.txid, row.amount⟩ else none

/-- The receipt of a transaction of others in which `received` was found. -/
def receiptOf (txid : Bytes32) (received : List (ReceivedNote W)) : Option Receipt := do
  let value ← WalletDb.receivedValue received
  if value = 0 then none else received.head?.map fun r => ⟨W.noteRecipient r.note, txid, value⟩

/-- The transactions of a block, by their txid, with what the key finds in them. -/
def WalletBlock.income (fvk : W.Fvk) (block : WalletBlock P) (info : BlockMeta) :
    List (Bytes32 × List (ReceivedNote W)) :=
  info.txids.zip ((block.txs fvk).map (·.2))

/-- The nullifiers the transactions of a block reveal. -/
def WalletBlock.nullifiers (fvk : W.Fvk) (block : WalletBlock P) : List NullifierBytes :=
  (block.txs fvk).flatMap fun tx => tx.1.map (·.1)

/-- A transaction of others gets a row if what is found in it has a value. -/
def incomeRows (received : List (ReceivedNote W)) : Nat := if WalletDb.receivedValue received = some 0 then 0 else 1

/-- The rows of a block whose transactions are of others: the coinbase notes of ours, and the transactions
that pay us. -/
def WalletBlock.ownRows (fvk : W.Fvk) (block : WalletBlock P) (info : BlockMeta) : Nat :=
  WalletDb.coinbaseRows fvk (block.coinbase W) (some info) + ((block.txs fvk).map fun tx => incomeRows tx.2).sum

namespace WalletDb

def receipts (db : WalletDb W) : List Receipt := db.history.filterMap receipt

def ingestAll (db : WalletDb W) (blocks : List (WalletBlock P × BlockMeta)) : Option (WalletDb W) :=
  blocks.foldlM (fun db block => db.ingest block.1 (some block.2)) db

/-- Nothing of `nfs` was seen before, and none of it is of a note of ours. -/
structure Foreign (nfs : List NullifierBytes) (db : WalletDb W) : Prop where
  unspent : ∀ nf ∈ nfs, nf ∉ db.spentNullifiers
  others : ∀ nf ∈ nfs, ∀ n ∈ db.held, n.nullifier ≠ nf

variable {db db' : WalletDb W} {nfs : List NullifierBytes}

theorem Foreign.ownedNoteValue (h : Foreign nfs db) {nf : NullifierBytes} (hnf : nf ∈ nfs) :
    db.ownedNoteValue nf = none := by
  have none : ∀ l : List (OwnedNote W), (∀ n ∈ l, n ∈ db.held) → l.find? (·.nullifier == nf) = none := by
    intro l hl
    rw [find?_eq_none]
    intro n hn
    rw [beq_iff_eq]
    exact h.others nf hnf n (hl n hn)
  unfold WalletDb.ownedNoteValue
  rw [none db.notes fun n hn => mem_append_left _ hn,
    none (db.pendingSpends.map (·.note)) fun n hn => mem_append_right _ hn]
  rfl

variable {es : List (WalletEvent W)}

/-- The notes held after some events are those held before and those the events bring. -/
theorem events_held (h : db.events es = some db') {n : OwnedNote W} (hn : n ∈ db'.held) :
    n ∈ db.held ∨ ∃ cmx note, .leaf cmx (some note) ∈ es ∧ n.nullifier = W.noteNullifier db.fvk note := by
  induction h using foldlM_induction with
  | nil => exact .inl hn
  | cons e es db db₁ he _ ih =>
    rcases ih with held | ⟨cmx, note, hmem, hnf⟩
    · cases e with
      | leaf cmx owned =>
        obtain ⟨-, rfl⟩ := appendLeaf_eq he
        rcases mem_append.mp held with listed | pending
        · rcases mem_append.mp listed with old | new
          · exact .inl (mem_append_left _ old)
          · obtain ⟨note, ho, rfl⟩ := map_eq_some_iff.mp (mem_toList.mp new)
            exact .inr ⟨cmx, note, by rw [ho]; exact mem_cons_self, rfl⟩
        · exact .inl (mem_append_right _ pending)
      | reveal nf =>
        cases he
        rw [held_reveal] at held
        exact .inl (mem_of_mem_filter held)
    · rw [event_fvk he] at hnf
      exact .inr ⟨cmx, note, mem_cons_of_mem _ hmem, hnf⟩

/-- Events that reveal nothing of `nfs` and bring no note with one of these nullifiers. -/
theorem Foreign.events (h : Foreign nfs db)
    (hes : db.events es = some db') (revealed_ne : ∀ nf ∈ nfs, nf ∉ revealed es)
    (notes_ne : ∀ nf ∈ nfs, ∀ cmx note, .leaf cmx (some note) ∈ es → W.noteNullifier db.fvk note ≠ nf) :
    Foreign nfs db' where
  unspent nf hnf := by
    rw [events_spent hes, Finset.mem_union, not_or]
    exact ⟨h.unspent nf hnf, revealed_ne nf hnf⟩
  others nf hnf n hn := by
    rcases events_held hes hn with old | ⟨cmx, note, hmem, heq⟩
    · exact h.others nf hnf n old
    · rw [heq]
      exact notes_ne nf hnf cmx note hmem

theorem Foreign.of_books (h : Foreign nfs db) (same : db'.books = db.books) : Foreign nfs db' where
  unspent nf hnf := by
    rw [spent_of_books same]
    exact h.unspent nf hnf
  others nf hnf n hn := h.others nf hnf n (by
    have : db'.held = db.held := show db'.books.held = db.books.held by rw [same]
    rwa [← this])

theorem leaf_mem_txEvents {tx : List ActionEffect × List (ReceivedNote W)} {cmx : P.Cmx} {note : W.Note}
    (h : .leaf cmx (some note) ∈ txEvents tx) : note ∈ tx.2.map (·.note) := by
  obtain ⟨action, -, h⟩ := mem_flatMap.mp h
  rcases mem_cons.mp h with h | h
  · cases h
  · obtain ⟨c, -, hleaf⟩ := map_eq_some_iff.mp (mem_toList.mp h)
    injection hleaf with _ hnote
    obtain ⟨r, hr, rfl⟩ := map_eq_some_iff.mp hnote
    exact mem_map_of_mem (mem_of_find?_eq_some hr)

/-! ## Recording -/

/-- The row of a transaction of others, while the history has room: its receipt if it has one. -/
def RecordsIncome {τ : Type} (info : BlockMeta)
    (record : τ → Nat → List (ReceivedNote W) → WalletDb W → UInt64 → Option (WalletDb W)) : Prop :=
  ∀ (t : τ) (bi : Nat) (received : List (ReceivedNote W)) (db db' : WalletDb W), db.historyEnabled = true →
    db.history.length + incomeRows received ≤ HISTORY_CAP → record t bi received db 0 = some db' →
    db'.books = db.books ∧ db'.history.length ≤ db.history.length + incomeRows received ∧
      db'.receipts = db.receipts ++ (info.txids[bi]?.bind (receiptOf · received)).toList

theorem pushHistory_of_room (room : db.history.length < HISTORY_CAP) (row : HistoryEntry) :
    (db.pushHistory row).history = db.history ++ [row] := by
  rw [pushHistory, if_neg (by omega)]

theorem receipts_append {row : HistoryEntry} (h : db'.history = db.history ++ [row]) :
    db'.receipts = db.receipts ++ row.receipt.toList := by
  unfold receipts
  rw [h, filterMap_append]
  cases hr : row.receipt <;> simp [hr]

variable {received : List (ReceivedNote W)}

theorem incomeRows_of_value {value : UInt64} (hvalue : receivedValue received = some value) (pays : value ≠ 0) :
    incomeRows received = 1 := by
  rw [incomeRows, hvalue, if_neg fun h => pays (some.inj h)]

theorem receiptOf_eq {value : UInt64} (hvalue : receivedValue received = some value)
    (txid : Bytes32) :
    receiptOf txid received = if value = 0 then none else received.head?.map fun r =>
      ⟨W.noteRecipient r.note, txid, value⟩ := by
  unfold receiptOf
  rw [hvalue]
  rfl

theorem recordRecords_recordsIncome (info : BlockMeta) : RecordsIncome (W := W) info (recordRecords (some info)) := by
  intro records bi received db db' enabled room h
  have books := books_of_row (map_books_recordRecords records) h
  unfold recordRecords txidAt at h
  rw [bind_some] at h
  cases htxid : info.txids[bi]? with
  | none =>
    rw [htxid] at h
    cases h
    exact ⟨rfl, Nat.le_add_right .., (append_nil _).symm⟩
  | some txid =>
    rw [htxid] at h
    dsimp only [map_some] at h
    refine ⟨books, ?_⟩
    unfold recordIncomeHistoryCompact at h
    rw [if_pos enabled] at h
    obtain ⟨value, hvalue, h⟩ := bind_eq_some_iff.mp h
    rw [bind_some, receiptOf_eq hvalue]
    split at h
    case isTrue hzero =>
      have hzero : value = 0 := hzero.resolve_left (by decide)
      cases h
      rw [if_pos hzero]
      exact ⟨Nat.le_add_right .., (append_nil _).symm⟩
    case isFalse hpays =>
      have hpays : value ≠ 0 := fun h => hpays (.inr h)
      cases h
      rw [if_neg hpays, incomeRows_of_value hvalue hpays]
      refine ⟨by simp, ?_⟩
      rw [receipts_append rfl, receipt, if_pos rfl, Option.map_map]
      rfl

theorem recordBundle_recordsIncome (info : BlockMeta) : RecordsIncome (W := W) info (recordBundle (some info)) := by
  intro bundle bi received db db' enabled room h
  have books := books_of_row (map_books_recordBundle bundle) h
  unfold recordBundle txidAt at h
  rw [bind_some] at h
  cases htxid : info.txids[bi]? with
  | none =>
    rw [htxid] at h
    cases h
    exact ⟨rfl, Nat.le_add_right .., (append_nil _).symm⟩
  | some txid =>
    rw [htxid] at h
    dsimp only [map_some] at h
    refine ⟨books, ?_⟩
    unfold recordBundleHistory at h
    rw [if_pos enabled] at h
    obtain ⟨value, hvalue, h⟩ := bind_eq_some_iff.mp h
    rw [bind_some, receiptOf_eq hvalue]
    split at h
    case isTrue hzero =>
      cases h
      rw [if_pos hzero.2]
      exact ⟨Nat.le_add_right .., (append_nil _).symm⟩
    case isFalse hpays =>
      have hpays : value ≠ 0 := fun h => hpays ⟨rfl, h⟩
      rw [if_neg (by decide)] at h
      cases h
      rw [incomeRows_of_value hvalue hpays] at room ⊢
      rw [if_neg hpays]
      refine ⟨by rw [pushHistory_of_room room]; simp, ?_⟩
      rw [receipts_append (pushHistory_of_room room _), receipt, if_pos rfl, Option.map_map]
      rfl

/-! ## Transactions of others -/

theorem Foreign.ingestTx (h : Foreign nfs db) {effects : List ActionEffect}
    {record : WalletDb W → UInt64 → Option (WalletDb W)} (mem : ∀ e ∈ effects, e.1 ∈ nfs)
    (ht : db.ingestTx effects received record = some db') :
    ∃ db₁, db.events (txEvents (effects, received)) = some db₁ ∧ record db₁ 0 = some db' := by
  rw [ingestTx_of_others record (fun e he => h.unspent e.1 (mem e he)) fun e he => h.ownedNoteValue (mem e he)] at ht
  exact bind_eq_some_iff.mp ht

theorem filterMap_zip_drop {α β γ : Type} (f : α × β → Option γ) (as : List α) (k : Nat) (b : β) (bs : List β) :
    ((as.drop k).zip (b :: bs)).filterMap f =
      (as[k]?.bind fun a => f (a, b)).toList ++ ((as.drop (k + 1)).zip bs).filterMap f := by
  cases ha : as[k]? with
  | none =>
    have hlen := getElem?_eq_none_iff.mp ha
    rw [drop_of_length_le hlen, drop_of_length_le (by omega)]
    rfl
  | some a =>
    obtain ⟨hk, rfl⟩ := List.getElem?_eq_some_iff.mp ha
    rw [drop_eq_getElem_cons hk, zip_cons_cons, filterMap_cons, bind_some]
    cases f (as[k], b) <;> rfl

/-- What ingesting transactions of others, or a whole block of them, leaves. -/
structure Earned (rest : List NullifierBytes) (rows : Nat) (income : List (Bytes32 × List (ReceivedNote W)))
    (db db' : WalletDb W) : Prop where
  fvk : db'.fvk = db.fvk
  enabled : db'.historyEnabled = true
  foreign : Foreign rest db'
  length_le : db'.history.length ≤ db.history.length + rows
  receipts : db'.receipts = db.receipts ++ income.filterMap fun tx => receiptOf tx.1 tx.2

variable {info : BlockMeta} {rest : List NullifierBytes}

/-- The loop over the transactions of a block, in both forms in which they come. -/
theorem ingestTxs_earned {τ : Type} {effects : τ → List ActionEffect} {scan : W.Fvk → τ → List (ReceivedNote W)}
    {record : τ → Nat → List (ReceivedNote W) → WalletDb W → UInt64 → Option (WalletDb W)}
    (records : RecordsIncome info record) {txs : List τ} (enabled : db.historyEnabled = true)
    (foreign : Foreign ((txs.flatMap fun t => (effects t).map (·.1)) ++ rest) db)
    (nodup : ((txs.flatMap fun t => (effects t).map (·.1)) ++ rest).Nodup)
    (notes_ne : ∀ nf ∈ (txs.flatMap fun t => (effects t).map (·.1)) ++ rest, ∀ t ∈ txs, ∀ r ∈ scan db.fvk t,
      W.noteNullifier db.fvk r.note ≠ nf)
    (room : db.history.length + (txs.map fun t => incomeRows (scan db.fvk t)).sum ≤ HISTORY_CAP)
    (h : ingestTxs effects scan record db txs = some db') :
    Earned rest (txs.map fun t => incomeRows (scan db.fvk t)).sum (info.txids.zip (txs.map (scan db.fvk))) db db' := by
  unfold ingestTxs at h
  have start : info.txids = info.txids.drop 0 := rfl
  rw [start]
  generalize 0 = k at h ⊢
  induction txs generalizing db k with
  | nil =>
    cases h
    exact ⟨rfl, enabled, foreign, Nat.le_refl _, by simp⟩
  | cons t txs ih =>
    rw [zipIdx_cons, foldlM_cons] at h
    obtain ⟨db₂, ht, h⟩ := bind_eq_some_iff.mp h
    rw [flatMap_cons, append_assoc] at foreign nodup notes_ne
    rw [map_cons, sum_cons] at room
    obtain ⟨db₁, hes, hrecord⟩ := foreign.ingestTx
      (fun e he => mem_append_left _ (mem_map_of_mem (f := (·.1)) he)) ht
    obtain ⟨history₁, enabled₁, key₁⟩ := events_history hes
    obtain ⟨books₂, length₂, receipts₂⟩ :=
      records t k (scan db.fvk t) db₁ db₂ (enabled₁.trans enabled) (by rw [history₁]; omega) hrecord
    rw [history₁] at length₂
    have key₂ : db₂.fvk = db.fvk := (fvk_of_books books₂).trans key₁
    have later : ∀ nf ∈ (txs.flatMap fun t => (effects t).map (·.1)) ++ rest,
        nf ∈ (effects t).map (·.1) ++ ((txs.flatMap fun t => (effects t).map (·.1)) ++ rest) :=
      fun nf hnf => mem_append_right _ hnf
    -- the nullifiers still to come are neither those just revealed nor those of the notes just found
    have foreign₂ : Foreign ((txs.flatMap fun t => (effects t).map (·.1)) ++ rest) db₂ := by
      refine ((Foreign.mk (fun nf hnf => foreign.unspent nf (later nf hnf))
        fun nf hnf => foreign.others nf (later nf hnf)).events hes ?_ ?_).of_books books₂
      · intro nf hnf hrev
        rw [revealed_txEvents, List.mem_toFinset] at hrev
        exact (nodup_append.mp nodup).2.2 nf hrev nf hnf rfl
      · intro nf hnf cmx note hleaf
        obtain ⟨r, hr, rfl⟩ := mem_map.mp (leaf_mem_txEvents hleaf)
        exact notes_ne nf (later nf hnf) t mem_cons_self r hr
    have enabled₂ : db₂.historyEnabled = true :=
      (show db₂.books.historyEnabled = db₁.books.historyEnabled by rw [books₂]).trans (enabled₁.trans enabled)
    have earned := ih enabled₂ foreign₂ (nodup_append.mp nodup).2.1
      (fun nf hnf t ht r hr => by
        rw [key₂] at hr ⊢
        exact notes_ne nf (later nf hnf) t (mem_cons_of_mem _ ht) r hr)
      (by rw [key₂]; omega) (k + 1) h
    refine ⟨earned.fvk.trans key₂, earned.enabled, earned.foreign, ?_, ?_⟩
    · have := earned.length_le
      rw [key₂] at this
      rw [map_cons, sum_cons]
      omega
    · have same : db₁.receipts = db.receipts := congrArg (filterMap _) history₁
      rw [earned.receipts, receipts₂, same, key₂, map_cons, filterMap_zip_drop, append_assoc]

/-! ## Blocks -/

theorem ingestCoinbaseNote_receipts {note : CoinbaseNoteDesc × UInt64 × P.Cmx}
    (room : db.history.length + coinbaseRows db.fvk [note] (some info) ≤ HISTORY_CAP)
    (h : ingestCoinbaseNote (some info) db note = some db') :
    db'.receipts = db.receipts ∧ db'.history.length ≤ db.history.length + coinbaseRows db.fvk [note] (some info) := by
  obtain ⟨db₁, eq, -, row⟩ := ingestCoinbaseNote_cases (some info) db note
  rw [eq] at h
  obtain ⟨history, -, -⟩ := appendLeaf_history h
  obtain ⟨rfl, -⟩ | ⟨m, -, own, rfl⟩ := row
  · exact ⟨congrArg (filterMap _) history, by rw [history]; exact Nat.le_add_right ..⟩
  · have one : coinbaseRows db.fvk [note] (some info) = 1 := by simp [coinbaseRows, own]
    rw [one] at room ⊢
    unfold recordCoinbaseHistory at history
    split at history
    · rw [pushHistory_of_room room] at history
      refine ⟨?_, by rw [history]; simp⟩
      rw [receipts_append history, receipt, if_neg (by simp)]
      exact append_nil _
    · exact ⟨congrArg (filterMap _) history, by rw [history]; exact Nat.le_succ _⟩

theorem ingestCoinbase_receipts {notes : List (CoinbaseNoteDesc × UInt64 × P.Cmx)}
    (room : db.history.length + coinbaseRows db.fvk notes (some info) ≤ HISTORY_CAP)
    (h : notes.foldlM (ingestCoinbaseNote (some info)) db = some db') :
    db'.receipts = db.receipts ∧ db'.history.length ≤ db.history.length + coinbaseRows db.fvk notes (some info) := by
  induction h using foldlM_induction with
  | nil => exact ⟨rfl, Nat.le_add_right ..⟩
  | cons n notes db db₁ hn _ ih =>
    rw [coinbaseRows_cons] at room ⊢
    obtain ⟨receipts₁, length₁⟩ := ingestCoinbaseNote_receipts (by omega) hn
    have key : db₁.fvk = db.fvk := (event_fvk (ingestCoinbaseNote_books hn) :)
    rw [key] at ih
    obtain ⟨receipts, length⟩ := ih (by omega)
    exact ⟨receipts.trans receipts₁, by omega⟩

theorem ingestCoinbase_earned {notes : List (CoinbaseNoteDesc × UInt64 × P.Cmx)}
    (enabled : db.historyEnabled = true) (foreign : Foreign nfs db)
    (notes_ne : ∀ nf ∈ nfs, ∀ n ∈ notes, ∀ note, recoverCoinbaseNote db.fvk n.1 n.2.1 = some note →
      W.noteNullifier db.fvk note ≠ nf)
    (room : db.history.length + coinbaseRows db.fvk notes (some info) ≤ HISTORY_CAP)
    (h : notes.foldlM (ingestCoinbaseNote (some info)) db = some db') :
    Earned nfs (coinbaseRows db.fvk notes (some info)) [] db db' := by
  have books := ingestCoinbase_books h
  obtain ⟨receipts, length⟩ := ingestCoinbase_receipts room h
  obtain ⟨-, enabled', key⟩ := events_history books
  have before : Foreign nfs db.books := foreign.of_books rfl
  have foreign' : Foreign nfs db'.books := before.events books (fun nf _ => by simp) fun nf hnf cmx note hleaf => by
    obtain ⟨n, hn, same⟩ := mem_map.mp hleaf
    injection same with _ hnote
    exact notes_ne nf hnf n hn note hnote
  exact ⟨key, enabled'.trans enabled, foreign'.of_books rfl, length, by simpa using receipts⟩

/-- The block of a ledger that spends nothing of ours, in any of the four variants. -/
theorem ingest_earned {block : WalletBlock P}
    (enabled : db.historyEnabled = true) (foreign : Foreign (block.nullifiers db.fvk ++ rest) db)
    (nodup : (block.nullifiers db.fvk ++ rest).Nodup)
    (notes_ne : ∀ nf ∈ block.nullifiers db.fvk ++ rest, ∀ note ∈ block.notes db.fvk, W.noteNullifier db.fvk note ≠ nf)
    (room : db.history.length + block.ownRows db.fvk info ≤ HISTORY_CAP) (h : db.ingest block (some info) = some db') :
    Earned rest (block.ownRows db.fvk info) (block.income db.fvk info) db db' := by
  -- the coinbase notes, then the transactions in the form `τ`
  have parts : ∀ {τ : Type} {effects : τ → List ActionEffect} {scan : W.Fvk → τ → List (ReceivedNote W)}
      {record : τ → Nat → List (ReceivedNote W) → WalletDb W → UInt64 → Option (WalletDb W)} {txs : List τ}
        {db₁ : WalletDb W},
      RecordsIncome info record →
      block.txs db.fvk = txs.map (fun t => (effects t, scan db.fvk t)) →
      (block.coinbase W).foldlM (ingestCoinbaseNote (some info)) (db.observeMeta (some info)) = some db₁ →
      ingestTxs effects scan record db₁ txs = some db' →
      Earned rest (block.ownRows db.fvk info) (block.income db.fvk info) db db' := by
    intro τ effects scan record txs db₁ records htxs hcoinbase hrun
    have nullifiers : block.nullifiers db.fvk = txs.flatMap fun t => (effects t).map (·.1) := by
      unfold nullifiers
      rw [htxs, flatMap_map]
    have rows : ((block.txs db.fvk).map fun tx => incomeRows tx.2).sum =
        (txs.map fun t => incomeRows (scan db.fvk t)).sum := by
      rw [htxs, List.map_map]
      rfl
    rw [ownRows, rows] at room ⊢
    have begun : Foreign (block.nullifiers db.fvk ++ rest) (db.observeMeta (some info)) :=
      foreign.of_books (books_observeMeta db (some info))
    have recorded : (db.observeMeta (some info)).historyEnabled = true := enabled
    have mined := ingestCoinbase_earned recorded begun
      (fun nf hnf n hn note hnote => notes_ne nf hnf note
        (mem_append_left _ (mem_filterMap.mpr ⟨n, hn, hnote⟩)))
      (by show db.history.length + coinbaseRows db.fvk _ _ ≤ _; omega) hcoinbase
    have key : db₁.fvk = db.fvk := mined.fvk
    have short : db₁.history.length ≤ db.history.length + coinbaseRows db.fvk (block.coinbase W) (some info) :=
      mined.length_le
    have foreign₁ := mined.foreign
    rw [nullifiers] at foreign₁ nodup notes_ne
    have earned := ingestTxs_earned records mined.enabled foreign₁ nodup
      (fun nf hnf t ht r hr => by
        rw [key] at hr ⊢
        refine notes_ne nf hnf r.note (mem_append_right _ ?_)
        rw [htxs, flatMap_map]
        exact mem_flatMap.mpr ⟨t, ht, mem_map_of_mem hr⟩)
      (by rw [key]; omega) hrun
    refine ⟨earned.fvk.trans key, earned.enabled, earned.foreign, ?_, ?_⟩
    · have := earned.length_le
      rw [key] at this
      omega
    · rw [earned.receipts, mined.receipts, key, income, htxs, List.map_map, filterMap_nil, append_nil]
      rfl
  rw [ingest_eq] at h
  obtain ⟨db₁, hcoinbase, hrun⟩ := bind_eq_some_iff.mp h
  cases block with
  | full coinbase txs | precomputed coinbase txs =>
    have run : db₁.ingestBundles txs (some info) = some db' := hrun
    exact parts (recordBundle_recordsIncome info) rfl hcoinbase run
  | compact coinbase txs | compactPrecomputed coinbase txs =>
    have run : db₁.ingestBundlesCompact txs (some info) = some db' := hrun
    exact parts (recordRecords_recordsIncome info) rfl hcoinbase run

/-- Accepted blocks whose transactions spend nothing of ours: their nullifiers are new, and those of no
note that is ours before or in them. -/
structure Accepts (db : WalletDb W) (blocks : List (WalletBlock P × BlockMeta)) : Prop where
  nodup : (blocks.flatMap fun b => b.1.nullifiers db.fvk).Nodup
  foreign : Foreign (blocks.flatMap fun b => b.1.nullifiers db.fvk) db
  notes_ne : ∀ nf ∈ blocks.flatMap fun b => b.1.nullifiers db.fvk, ∀ b ∈ blocks, ∀ note ∈ b.1.notes db.fvk,
    W.noteNullifier db.fvk note ≠ nf

/-- **The received rows of a ledger that spends nothing of ours**: the receipts of its transactions, in their order. -/
theorem ingestAll_receipts {blocks : List (WalletBlock P × BlockMeta)} (enabled : db.historyEnabled = true)
    (accepts : db.Accepts blocks)
    (room : db.history.length + (blocks.map fun b => b.1.ownRows db.fvk b.2).sum ≤ HISTORY_CAP)
    (h : db.ingestAll blocks = some db') :
    db'.receipts = db.receipts ++ (blocks.flatMap fun b => b.1.income db.fvk b.2).filterMap fun tx =>
      receiptOf tx.1 tx.2 := by
  induction h using foldlM_induction with
  | nil => simp
  | cons b blocks db db₁ hb _ ih =>
    obtain ⟨nodup, foreign, notes_ne⟩ := accepts
    rw [flatMap_cons] at nodup foreign notes_ne
    rw [map_cons, sum_cons] at room
    have earned := ingest_earned enabled foreign nodup (fun nf hnf => notes_ne nf hnf b mem_cons_self) (by omega) hb
    have accepts₁ : db₁.Accepts blocks := by
      refine ⟨?_, ?_, ?_⟩
      · rw [earned.fvk]
        exact (nodup_append.mp nodup).2.1
      · rw [earned.fvk]
        exact earned.foreign
      · rw [earned.fvk]
        exact fun nf hnf b hb => notes_ne nf (mem_append_right _ hnf) b (mem_cons_of_mem _ hb)
    have rest := ih earned.enabled accepts₁ (by rw [earned.fvk]; have := earned.length_le; omega)
    rw [rest, earned.receipts, earned.fvk, flatMap_cons, filterMap_append, append_assoc]

end WalletDb

end Firecash
