import Firecash.Wallet.Witness

/-!
# What an ingested block does to the books

However a block is ingested, all it does to a wallet besides its history and its clock is a sequence
of two kinds of events: a leaf is appended, with the note it is if it is ours, or a nullifier is
revealed. `blockEvents` reads them off the block, the viewing key and the nullifiers seen before;
`ingest_events` is that the four ingest functions perform exactly these. What later modules say of a
whole block they say of one event.
-/

namespace Firecash

open List Option

variable {P : Prim} {W : WalletPrim P}

inductive WalletEvent (W : WalletPrim P) where
  | leaf (cmx : P.Cmx) (owned : Option W.Note)
  | reveal (nf : NullifierBytes)

/-- The events of a block's coinbase notes. -/
def coinbaseEvents (fvk : W.Fvk) (notes : List (CoinbaseNoteDesc × UInt64 × P.Cmx)) : List (WalletEvent W) :=
  notes.map fun note => .leaf note.2.2 (WalletDb.recoverCoinbaseNote fvk note.1 note.2.1)

/-- An action reveals its nullifier; its commitment is a leaf if it is canonical. -/
def actionEvents (received : List (ReceivedNote W)) (action : ActionEffect × Nat) : List (WalletEvent W) :=
  .reveal action.1.1 :: ((P.cmxFromBytes action.1.2).map fun cmx =>
    WalletEvent.leaf cmx ((received.find? (·.actionIndex == action.2)).map (·.note))).toList

def txEvents (tx : List ActionEffect × List (ReceivedNote W)) : List (WalletEvent W) :=
  tx.1.zipIdx.flatMap (actionEvents tx.2)

/-- The events of the transactions that are not dropped. -/
def txsEvents (spent : Finset NullifierBytes) : List (List ActionEffect × List (ReceivedNote W)) → List (WalletEvent W)
  | [] => []
  | tx :: txs =>
    if tx.1.any fun e => decide (e.1 ∈ spent) then txsEvents spent txs
    else txEvents tx ++ txsEvents (spent ∪ (tx.1.map (·.1)).toFinset) txs

namespace WalletBlock

/-- The coinbase notes that get a leaf. -/
def coinbase (W : WalletPrim P) : WalletBlock P → List (CoinbaseNoteDesc × UInt64 × P.Cmx)
  | .full notes _ | .compact notes _ => WalletDb.committedNotes W notes
  | .precomputed notes _ | .compactPrecomputed notes _ => notes

/-- The transactions with what the key finds in them. -/
def txs (fvk : W.Fvk) : WalletBlock P → List (List ActionEffect × List (ReceivedNote W))
  | .full _ txs | .precomputed _ txs => txs.map fun b => (actionEffects b.actions, scanBundlePrepared fvk b.actions)
  | .compact _ txs | .compactPrecomputed _ txs => txs.map fun r => (recordEffects r, scanCompactPrepared fvk r)

/-- The notes of ours in a block. -/
def notes (fvk : W.Fvk) (block : WalletBlock P) : List W.Note :=
  (block.coinbase W).filterMap (fun note => WalletDb.recoverCoinbaseNote fvk note.1 note.2.1) ++
    (block.txs fvk).flatMap fun tx => tx.2.map (·.note)

end WalletBlock

def blockEvents (fvk : W.Fvk) (spent : Finset NullifierBytes) (block : WalletBlock P) : List (WalletEvent W) :=
  coinbaseEvents fvk (block.coinbase W) ++ txsEvents spent (block.txs fvk)

/-- The nullifiers that events reveal. -/
def revealed (es : List (WalletEvent W)) : Finset NullifierBytes :=
  (es.filterMap fun | .reveal nf => some nf | .leaf .. => none).toFinset

namespace WalletDb

variable (db : WalletDb W)

/-- Everything but the history and the clock. -/
def books : WalletDb W := { db with history := [], lastDaa := 0 }

def event : WalletEvent W → Option (WalletDb W)
  | .leaf cmx owned => db.appendLeaf cmx owned
  | .reveal nf => some (db.reveal nf)

def events (es : List (WalletEvent W)) : Option (WalletDb W) := es.foldlM event db

@[simp] theorem events_nil : db.events [] = some db := rfl

theorem events_cons (e : WalletEvent W) (es : List (WalletEvent W)) :
    db.events (e :: es) = (db.event e).bind (·.events es) := foldlM_cons

theorem events_append (es fs : List (WalletEvent W)) :
    db.events (es ++ fs) = (db.events es).bind (·.events fs) := foldlM_append

/-! ## The books of a recorded history -/

@[simp] theorem books_books : db.books.books = db.books := rfl

@[simp] theorem books_observeMeta (info : Option BlockMeta) : (db.observeMeta info).books = db.books := by
  cases info <;> rfl

@[simp] theorem books_recordCoinbaseHistory (value : UInt64) (info : BlockMeta) :
    (db.recordCoinbaseHistory value info).books = db.books := by
  unfold recordCoinbaseHistory
  split <;> rfl

variable {db db' : WalletDb W} {spent : UInt64} {received : List (ReceivedNote W)}

variable {info : Option BlockMeta} {bi : Nat}

/-- The books after the row of a transaction, if it gets one. -/
def rowBooks (info : Option BlockMeta) (bi : Nat) (received : List (ReceivedNote W)) (db : WalletDb W) :
    Option (WalletDb W) :=
  match txidAt info bi with
  | some _ => if db.historyEnabled then (receivedValue received).map fun _ => db.books else some db.books
  | none => some db.books

theorem map_books_recordBundle (bundle : ShieldedBundle P) :
    (recordBundle info bundle bi received db spent).map books = rowBooks info bi received db := by
  unfold recordBundle rowBooks
  cases txidAt info bi with
  | none => rfl
  | some x =>
    unfold recordBundleHistory
    dsimp only
    split
    · cases receivedValue received with
      | none => rfl
      | some value =>
        simp only [bind_eq_bind, bind_some, map_some]
        split
        · rfl
        · split <;> rfl
    · rfl

theorem map_books_recordRecords (records : List CompactActionRecord) :
    (recordRecords info records bi received db spent).map books = rowBooks info bi received db := by
  unfold recordRecords rowBooks
  cases txidAt info bi with
  | none => rfl
  | some x =>
    unfold recordIncomeHistoryCompact
    dsimp only
    split
    · cases receivedValue received with
      | none => rfl
      | some value =>
        simp only [bind_eq_bind, bind_some, map_some]
        split <;> rfl
    · rfl

theorem books_of_row {o : Option (WalletDb W)} (row : o.map books = rowBooks info bi received db) (h : o = some db') :
    db'.books = db.books := by
  rw [h, rowBooks] at row
  split at row
  · split at row
    · obtain ⟨_, _, same⟩ := map_eq_some_iff.mp row.symm
      exact same.symm
    · exact some.inj row
  · exact some.inj row

theorem books_appendLeaf (db : WalletDb W) (cmx : P.Cmx) (owned : Option W.Note) :
    (db.appendLeaf cmx owned).map books = db.books.appendLeaf cmx owned := by
  show (if db.size + 1 < Checked.U64_BOUND then _ else none : Option (WalletDb W)).map books =
    if db.size + 1 < Checked.U64_BOUND then _ else none
  split <;> rfl

theorem books_event (db : WalletDb W) (e : WalletEvent W) : (db.event e).map books = db.books.event e := by
  cases e with
  | leaf cmx owned => exact books_appendLeaf db cmx owned
  | reveal nf => rfl

theorem books_events (db : WalletDb W) (es : List (WalletEvent W)) : (db.events es).map books = db.books.events es := by
  induction es generalizing db with
  | nil => rfl
  | cons e es ih =>
    rw [events_cons, events_cons, ← books_event]
    cases db.event e with
    | none => rfl
    | some db' => exact ih db'

variable {es : List (WalletEvent W)}

theorem books_of_events (h : db.events es = some db') :
    db.books.events es = some db'.books := by
  rw [← books_events, h]
  rfl

/-! ## What events leave alone, and what they reveal -/

theorem appendLeaf_eq {cmx : P.Cmx} {owned : Option W.Note} (h : db.appendLeaf cmx owned = some db') :
    db.size + 1 < Checked.U64_BOUND ∧
      db' = { db with
        leaves := db.leaves ++ [P.nodeToBytes (P.fromCmx cmx)]
        decoded := db.decoded.map (· ++ [P.fromCmx cmx])
        tree := (W.treeAppend db.tree (P.fromCmx cmx)).getD db.tree
        notes := db.notes ++ (owned.map fun note => ⟨note, db.size, W.noteNullifier db.fvk note⟩).toList
        size := db.size + 1 } := by
  unfold appendLeaf at h
  split at h
  · exact ⟨‹_›, (some.inj h).symm⟩
  · cases h

theorem event_fvk {e : WalletEvent W} (h : db.event e = some db') : db'.fvk = db.fvk := by
  cases e with
  | leaf cmx owned =>
    obtain ⟨-, rfl⟩ := appendLeaf_eq h
    rfl
  | reveal nf =>
    cases h
    rfl

theorem events_fvk (h : db.events es = some db') : db'.fvk = db.fvk := by
  induction h using foldlM_induction with
  | nil => rfl
  | cons e es db db₁ he _ ih => rw [ih, event_fvk he]

@[simp] theorem revealed_nil : revealed ([] : List (WalletEvent W)) = ∅ := rfl

@[simp] theorem revealed_leaf (cmx : P.Cmx) (owned : Option W.Note) (es : List (WalletEvent W)) :
    revealed (.leaf cmx owned :: es) = revealed es := rfl

@[simp] theorem revealed_reveal (nf : NullifierBytes) (es : List (WalletEvent W)) :
    revealed (.reveal nf :: es) = insert nf (revealed es) := by
  simp [revealed]

@[simp] theorem revealed_append (es fs : List (WalletEvent W)) : revealed (es ++ fs) = revealed es ∪ revealed fs := by
  simp [revealed]

theorem events_spent (h : db.events es = some db') :
    db'.spentNullifiers = db.spentNullifiers ∪ revealed es := by
  induction h using foldlM_induction with
  | nil => simp
  | cons e es db db₁ he _ ih =>
    rw [ih]
    cases e with
    | leaf cmx owned =>
      obtain ⟨-, rfl⟩ := appendLeaf_eq he
      rfl
    | reveal nf =>
      cases he
      simp [reveal, Finset.insert_union]

/-- Events between books leave the wallet's key, and the nullifiers they reveal. -/
theorem fvk_of_events (h : db.books.events es = some db'.books) : db'.fvk = db.fvk := (events_fvk h :)

theorem spent_of_events (h : db.books.events es = some db'.books) :
    db'.spentNullifiers = db.spentNullifiers ∪ revealed es :=
  (events_spent h :)

@[simp] theorem revealed_coinbaseEvents (fvk : W.Fvk) (notes : List (CoinbaseNoteDesc × UInt64 × P.Cmx)) :
    revealed (coinbaseEvents fvk notes) = ∅ := by
  induction notes with
  | nil => rfl
  | cons note notes ih => exact ih

theorem revealed_txEvents (tx : List ActionEffect × List (ReceivedNote W)) :
    revealed (txEvents tx) = (tx.1.map (·.1)).toFinset := by
  have general : ∀ (l : List ActionEffect) (k : Nat),
      revealed ((l.zipIdx k).flatMap (actionEvents tx.2)) = (l.map (·.1)).toFinset := by
    intro l
    induction l with
    | nil => intro k; rfl
    | cons e l ih =>
      intro k
      have action : revealed (actionEvents tx.2 (e, k)) = {e.1} := by
        unfold actionEvents
        cases P.cmxFromBytes e.2 <;> simp
      rw [zipIdx_cons, flatMap_cons, revealed_append, action, ih]
      simp
  exact general tx.1 0

theorem revealed_flatMap (txs : List (List ActionEffect × List (ReceivedNote W))) :
    revealed (txs.flatMap txEvents) = (txs.flatMap fun tx => tx.1.map (·.1)).toFinset := by
  induction txs with
  | nil => rfl
  | cons tx txs ih =>
    rw [flatMap_cons, flatMap_cons, revealed_append, ih, revealed_txEvents, toFinset_append]

/-! ## Ingest as events -/

theorem ingestAction_events (received : List (ReceivedNote W)) (db : WalletDb W) (action : ActionEffect × Nat) :
    ingestAction received db action = db.events (actionEvents received action) := by
  unfold ingestAction actionEvents
  cases P.cmxFromBytes action.1.2 with
  | none => rfl
  | some cmx =>
    show _ = (db.event (.reveal action.1.1)).bind fun db => (db.event (.leaf cmx _)).bind some
    simp only [event, bind_some, bind_fun_some]

theorem ingestActions_events (received : List (ReceivedNote W)) (db : WalletDb W)
    (actions : List (ActionEffect × Nat)) :
    actions.foldlM (ingestAction received) db = db.events (actions.flatMap (actionEvents received)) := by
  induction actions generalizing db with
  | nil => rfl
  | cons action actions ih =>
    rw [foldlM_cons, flatMap_cons, events_append, ← ingestAction_events]
    cases ingestAction received db action with
    | none => rfl
    | some db' => exact ih db'

/-- A coinbase note is a leaf, after the row it gets if it is ours. -/
theorem ingestCoinbaseNote_cases (info : Option BlockMeta) (db : WalletDb W)
    (note : CoinbaseNoteDesc × UInt64 × P.Cmx) :
    ∃ db₁, ingestCoinbaseNote info db note = db₁.appendLeaf note.2.2 (recoverCoinbaseNote db.fvk note.1 note.2.1) ∧
      db₁.books = db.books ∧ (db₁ = db ∧ (info.isSome → recoverCoinbaseNote db.fvk note.1 note.2.1 = none) ∨
        ∃ m, info = some m ∧ (recoverCoinbaseNote db.fvk note.1 note.2.1).isSome ∧
          db₁ = db.recordCoinbaseHistory note.2.1 m) := by
  unfold ingestCoinbaseNote
  cases recoverCoinbaseNote db.fvk note.1 note.2.1 with
  | none => exact ⟨db, rfl, rfl, .inl ⟨rfl, fun _ => rfl⟩⟩
  | some own =>
    cases info with
    | none => exact ⟨db, rfl, rfl, .inl ⟨rfl, (nomatch ·)⟩⟩
    | some m => exact ⟨_, rfl, books_recordCoinbaseHistory db _ m, .inr ⟨m, rfl, rfl, rfl⟩⟩

theorem ingestCoinbaseNote_books {note : CoinbaseNoteDesc × UInt64 × P.Cmx}
    (h : ingestCoinbaseNote info db note = some db') :
    db.books.event (.leaf note.2.2 (recoverCoinbaseNote db.fvk note.1 note.2.1)) = some db'.books := by
  obtain ⟨db₁, eq, same, -⟩ := ingestCoinbaseNote_cases info db note
  rw [eq] at h
  rw [← same]
  show db₁.books.appendLeaf _ _ = _
  rw [← books_appendLeaf, h]
  rfl

theorem fvk_of_books (h : db'.books = db.books) : db'.fvk = db.fvk := by
  show db'.books.fvk = db.books.fvk
  rw [h]

theorem spent_of_books (h : db'.books = db.books) : db'.spentNullifiers = db.spentNullifiers := by
  show db'.books.spentNullifiers = db.books.spentNullifiers
  rw [h]

variable {notes : List (CoinbaseNoteDesc × UInt64 × P.Cmx)}

theorem ingestCoinbase_books
    (h : notes.foldlM (ingestCoinbaseNote info) db = some db') :
    db.books.events (coinbaseEvents db.fvk notes) = some db'.books := by
  induction h using foldlM_induction with
  | nil => rfl
  | cons note notes db db₁ hn _ ih =>
    have first := ingestCoinbaseNote_books hn
    have key : db₁.fvk = db.fvk := (event_fvk first :)
    rw [coinbaseEvents, map_cons, events_cons, first, ← key]
    exact ih

/-- A kept transaction performs its events, whatever row it records; a dropped one does nothing. -/
theorem ingestTx_books (tx : List ActionEffect × List (ReceivedNote W))
    {record : WalletDb W → UInt64 → Option (WalletDb W)}
    (rows : ∀ {db db' : WalletDb W} {spent : UInt64}, record db spent = some db' → db'.books = db.books)
    (h : db.ingestTx tx.1 tx.2 record = some db') :
    db.books.events (if tx.1.any fun e => decide (e.1 ∈ db.spentNullifiers) then [] else txEvents tx) =
      some db'.books := by
  unfold ingestTx at h
  split at h
  · rename_i dropped
    cases h
    rw [if_pos dropped]
    rfl
  · rename_i kept
    obtain ⟨spent, -, h⟩ := bind_eq_some_iff.mp h
    obtain ⟨db₁, hacts, h⟩ := bind_eq_some_iff.mp h
    rw [ingestActions_events] at hacts
    rw [if_neg kept, rows h]
    exact books_of_events hacts

theorem ingestTxs_books {τ : Type} {effects : τ → List ActionEffect} {scan : W.Fvk → τ → List (ReceivedNote W)}
    {record : τ → Nat → List (ReceivedNote W) → WalletDb W → UInt64 → Option (WalletDb W)}
    (rows : ∀ {t i received} {db db' : WalletDb W} {spent : UInt64}, record t i received db spent = some db' →
      db'.books = db.books)
    {txs : List τ} (h : ingestTxs effects scan record db txs = some db') :
    db.books.events (txsEvents db.spentNullifiers (txs.map fun t => (effects t, scan db.fvk t))) = some db'.books := by
  unfold ingestTxs at h
  generalize 0 = k at h
  induction txs generalizing db k with
  | nil =>
    cases h
    rfl
  | cons t txs ih =>
    rw [zipIdx_cons, foldlM_cons] at h
    obtain ⟨db₁, ht, h⟩ := bind_eq_some_iff.mp h
    have first := ingestTx_books (effects t, scan db.fvk t) rows ht
    have key := fvk_of_events first
    have spent := spent_of_events first
    have rest := ih (k + 1) h
    rw [map_cons, txsEvents]
    split at first
    · rename_i dropped
      have same : db₁.books = db.books := (some.inj first).symm
      rw [if_pos dropped, ← same, ← key, ← spent_of_books same]
      exact rest
    · rename_i kept
      rw [if_neg kept, events_append, first]
      rw [if_neg kept, revealed_txEvents] at spent
      rw [spent, key] at rest
      exact rest

/-- Coinbase notes reveal nothing, so the transactions meet the nullifiers seen before the block. -/
theorem books_block {db₁ : WalletDb W}
    (txs : W.Fvk → List (List ActionEffect × List (ReceivedNote W)))
    (hnotes : notes.foldlM (ingestCoinbaseNote info) (db.observeMeta info) = some db₁)
    (htxs : db₁.books.events (txsEvents db₁.spentNullifiers (txs db₁.fvk)) = some db'.books) :
    db.books.events (coinbaseEvents db.fvk notes ++ txsEvents db.spentNullifiers (txs db.fvk)) = some db'.books := by
  have first := ingestCoinbase_books hnotes
  rw [fvk_of_books (books_observeMeta db info), books_observeMeta] at first
  have spent := spent_of_events first
  rw [revealed_coinbaseEvents, Finset.union_empty] at spent
  rw [events_append, first, ← fvk_of_events first, ← spent]
  exact htxs

/-- The transactions of a block, in the form in which they come. -/
def ingestTransactions (db : WalletDb W) (block : WalletBlock P) (info : Option BlockMeta) : Option (WalletDb W) :=
  match block with
  | .full _ txs | .precomputed _ txs => db.ingestBundles txs info
  | .compact _ txs | .compactPrecomputed _ txs => db.ingestBundlesCompact txs info

/-- Every variant takes the coinbase notes that get a leaf, then the transactions. -/
theorem ingest_eq (db : WalletDb W) (block : WalletBlock P) (info : Option BlockMeta) :
    db.ingest block info =
      ((block.coinbase W).foldlM (ingestCoinbaseNote info) (db.observeMeta info)).bind
      (·.ingestTransactions block info) := by
  cases block with
  | full notes txs => exact db.ingestBlockWithMeta_eq notes txs info
  | precomputed notes txs => rfl
  | compact notes txs => exact db.ingestBlockCompactWithMeta_eq notes txs info
  | compactPrecomputed notes txs => rfl

/-- **Ingest performs the events of the block**, in any of its variants. -/
theorem ingest_events {block : WalletBlock P}
    (h : db.ingest block info = some db') :
    db.books.events (blockEvents db.fvk db.spentNullifiers block) = some db'.books := by
  rw [ingest_eq] at h
  obtain ⟨db₁, hnotes, htxs⟩ := bind_eq_some_iff.mp h
  refine books_block block.txs hnotes ?_
  cases block with
  | full notes txs | precomputed notes txs =>
    have run : db₁.ingestBundles txs info = some db' := htxs
    exact ingestTxs_books (fun h => books_of_row (map_books_recordBundle _) h) run
  | compact notes txs | compactPrecomputed notes txs =>
    have run : db₁.ingestBundlesCompact txs info = some db' := htxs
    exact ingestTxs_books (fun h => books_of_row (map_books_recordRecords _) h) run

end WalletDb

end Firecash
