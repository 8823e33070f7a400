import Firecash.Wallet.Bookkeeping

/-!
# When ingest does not panic

Ingest of compact records sums two kinds of `u64` values under overflow checks, one transaction at a time:
what it spends of the wallet's notes, and what it pays to the key. The first is part of what the key has
found on the chain so far under the nullifiers of the transaction. While both fit for every transaction,
and the leaf counter has room, no sum overflows (`ingest_compact_total`). On the chain they fit because the
proofs of the bundles keep every value within the supply; here it is a condition on the transactions.
-/

namespace Firecash

open Checked List Option WalletBlock

variable {P : Prim} {W : WalletPrim P}

/-- The notes that events add. -/
def createdNotes (es : List (WalletEvent W)) : List W.Note :=
  es.filterMap fun | .leaf _ owned => owned | .reveal _ => none

def eventValues (es : List (WalletEvent W)) : List UInt64 := (createdNotes es).map W.noteValue

@[simp] theorem createdNotes_append (es fs : List (WalletEvent W)) :
    createdNotes (es ++ fs) = createdNotes es ++ createdNotes fs :=
  filterMap_append

@[simp] theorem eventValues_append (es fs : List (WalletEvent W)) :
    eventValues (es ++ fs) = eventValues es ++ eventValues fs := by
  rw [eventValues, createdNotes_append, map_append]
  rfl

theorem createdNotes_coinbase (fvk : W.Fvk) (notes : List (CoinbaseNoteDesc × UInt64 × P.Cmx)) :
    createdNotes (coinbaseEvents fvk notes) =
      notes.filterMap fun note => WalletDb.recoverCoinbaseNote fvk note.1 note.2.1 := by
  rw [createdNotes, coinbaseEvents, filterMap_map]
  rfl

theorem eventValues_coinbase (fvk : W.Fvk) (notes : List (CoinbaseNoteDesc × UInt64 × P.Cmx)) :
    eventValues (coinbaseEvents fvk notes) =
      notes.filterMap fun note => (WalletDb.recoverCoinbaseNote fvk note.1 note.2.1).map W.noteValue := by
  rw [eventValues, createdNotes_coinbase, map_filterMap]

/-- The value of a note, if its nullifier is one of these. -/
def valueUnder (fvk : W.Fvk) (nfs : List NullifierBytes) (note : W.Note) : UInt64 :=
  if W.noteNullifier fvk note ∈ nfs then W.noteValue note else 0

/-- What a transaction pays to the key fits in a `u64`, and so does what it spends of the notes found. -/
structure TxFits (fvk : W.Fvk) (found : List W.Note) (tx : List ActionEffect × List (ReceivedNote W)) : Prop where
  received : natSum (tx.2.map fun r => W.noteValue r.note) < U64_BOUND
  spent : natSum (found.map (valueUnder fvk (tx.1.map (·.1)))) < U64_BOUND

/-- The indices of the actions that append a leaf. -/
def leafIndices (P : Prim) (actions : List (ActionEffect × Nat)) : List Nat :=
  (actions.filter fun a => (P.cmxFromBytes a.1.2).isSome).map (·.2)

theorem leafIndices_nodup (effects : List ActionEffect) : (leafIndices P effects.zipIdx).Nodup := by
  have indices : (effects.zipIdx.map (·.2)).Nodup := by
    rw [zipIdx_map_snd]
    exact nodup_range'
  exact indices.sublist (filter_sublist.map _)

theorem createdNotes_actions (received : List (ReceivedNote W)) (actions : List (ActionEffect × Nat)) :
    createdNotes (actions.flatMap (actionEvents received)) =
      (leafIndices P actions).filterMap fun i => (received.find? (·.actionIndex == i)).map (·.note) := by
  induction actions with
  | nil => rfl
  | cons a actions ih =>
    rw [flatMap_cons, createdNotes_append, ih]
    unfold actionEvents leafIndices
    cases hc : P.cmxFromBytes a.1.2 with
    | none => simp [createdNotes, hc]
    | some cmx =>
      simp only [filter_cons, hc, isSome_some, if_true, map_cons, filterMap_cons]
      cases received.find? (·.actionIndex == a.2) <;> simp [createdNotes]

section

variable (f : W.Note → UInt64)

/-- A transaction's leaves are among the notes received. -/
theorem createdNotes_txEvents_le (tx : List ActionEffect × List (ReceivedNote W)) :
    natSum ((createdNotes (txEvents tx)).map f) ≤ natSum ((tx.2.map (·.note)).map f) := by
  have looked : (createdNotes (txEvents tx)).map f =
      (leafIndices P tx.1.zipIdx).filterMap fun i => (tx.2.find? (·.actionIndex == i)).map fun r => f r.note := by
    rw [txEvents, createdNotes_actions, map_filterMap]
    simp only [Option.map_map, Function.comp_def]
  rw [looked, List.map_map]
  exact natSum_find_le _ _ (leafIndices_nodup tx.1) tx.2

theorem createdNotes_txsEvents_le (spent : Finset NullifierBytes)
    (txs : List (List ActionEffect × List (ReceivedNote W))) :
    natSum ((createdNotes (txsEvents spent txs)).map f) ≤ natSum ((txs.flatMap fun tx => tx.2.map (·.note)).map f) := by
  induction txs generalizing spent with
  | nil => exact Nat.le_refl _
  | cons tx txs ih =>
    rw [txsEvents, flatMap_cons, map_append, natSum_append]
    split
    · exact (ih spent).trans (Nat.le_add_left ..)
    · rw [createdNotes_append, map_append, natSum_append]
      exact Nat.add_le_add (createdNotes_txEvents_le f tx) (ih _)

theorem createdNotes_block_le (fvk : W.Fvk) (spent : Finset NullifierBytes) (block : WalletBlock P) :
    natSum ((createdNotes (blockEvents fvk spent block)).map f) ≤ natSum ((block.notes fvk).map f) := by
  rw [blockEvents, createdNotes_append, map_append, natSum_append, notes, map_append, natSum_append,
    createdNotes_coinbase]
  exact Nat.add_le_add_left (createdNotes_txsEvents_le f _ _) _

end

namespace WalletDb

/-- The value of the notes held under these nullifiers. -/
def heldValue (nfs : List NullifierBytes) (db : WalletDb W) : Nat :=
  natSum (db.held.map fun n => if n.nullifier ∈ nfs then n.value else 0)

variable {db db' : WalletDb W} {nfs : List NullifierBytes}

theorem appendLeaf_heldValue {cmx : P.Cmx} {owned : Option W.Note} (h : db.appendLeaf cmx owned = some db') :
    db'.heldValue nfs = db.heldValue nfs + natSum (owned.map (valueUnder db.fvk nfs)).toList := by
  obtain ⟨-, rfl⟩ := appendLeaf_eq h
  cases owned with
  | none => simp [heldValue, held]
  | some note =>
    simp only [heldValue, held, valueUnder, map_some, toList_some, map_append, map_cons, map_nil,
      natSum_append, natSum_cons, natSum_nil, OwnedNote.value]
    omega

variable {es : List (WalletEvent W)}

/-- Events add at most the notes they recover. -/
theorem events_heldValue (h : db.events es = some db') :
    db'.heldValue nfs ≤ db.heldValue nfs + natSum ((createdNotes es).map (valueUnder db.fvk nfs)) := by
  induction h using foldlM_induction with
  | nil => exact Nat.le_refl _
  | cons e es db db₁ he _ ih =>
    have rest := ih
    rw [event_fvk he] at rest
    cases e with
    | leaf cmx owned =>
      have first : db₁.heldValue nfs = _ := appendLeaf_heldValue he
      have split : (createdNotes (WalletEvent.leaf cmx owned :: es)).map (valueUnder db.fvk nfs) =
          (owned.map (valueUnder db.fvk nfs)).toList ++ (createdNotes es).map (valueUnder db.fvk nfs) := by
        cases owned <;> rfl
      rw [split, natSum_append]
      omega
    | reveal nf =>
      cases he
      have fewer : (db.reveal nf).heldValue nfs ≤ db.heldValue nfs := by
        rw [heldValue, held_reveal]
        exact natSum_filter_le ..
      exact rest.trans (Nat.add_le_add_right fewer _)

theorem events_size (h : db.events es = some db') :
    db'.size = db.size + (eventLeaves es).length := by
  induction h using foldlM_induction with
  | nil => rfl
  | cons e es db db₁ he _ ih =>
    rw [ih]
    cases e with
    | leaf cmx owned =>
      obtain ⟨-, rfl⟩ := appendLeaf_eq he
      have split : eventLeaves (WalletEvent.leaf cmx owned :: es) = cmx :: eventLeaves es := rfl
      rw [split, length_cons]
      show db.size + 1 + _ = _
      omega
    | reveal nf =>
      cases he
      rfl

theorem heldValue_of_events (h : db.books.events es = some db'.books) :
    db'.heldValue nfs ≤ db.heldValue nfs + natSum ((createdNotes es).map (valueUnder db.fvk nfs)) :=
  (events_heldValue h :)

theorem size_of_events (h : db.books.events es = some db'.books) : db'.size = db.size + (eventLeaves es).length :=
  (events_size h :)

theorem length_eventLeaves_txEvents_le (tx : List ActionEffect × List (ReceivedNote W)) :
    (eventLeaves (txEvents tx)).length ≤ tx.1.length := by
  have general : ∀ actions : List (ActionEffect × Nat),
      (eventLeaves (actions.flatMap (actionEvents tx.2))).length ≤ actions.length := by
    intro actions
    induction actions with
    | nil => exact Nat.le_refl _
    | cons a actions ih =>
      have one : (eventLeaves (actionEvents tx.2 a)).length ≤ 1 := by
        unfold actionEvents
        cases P.cmxFromBytes a.1.2 <;> simp [eventLeaves]
      rw [flatMap_cons, eventLeaves, filterMap_append, length_append, length_cons]
      have := Nat.add_le_add one ih
      unfold eventLeaves at this
      omega
  have all := general tx.1.zipIdx
  rwa [length_zipIdx] at all

/-! ## Ingest is total while the values fit -/

/-- What distinct nullifiers spend of the wallet's notes is part of what it holds under them. -/
theorem spentValue_le (nodup : nfs.Nodup) (db : WalletDb W) :
    natSum (nfs.filterMap db.ownedNoteValue) ≤ db.heldValue nfs := by
  have found : nfs.filterMap db.ownedNoteValue = nfs.filterMap fun nf =>
      (db.held.find? (·.nullifier == nf)).map fun n => if n.nullifier ∈ nfs then n.value else 0 := by
    refine filterMap_congr fun nf hnf => ?_
    have held : db.ownedNoteValue nf = (db.held.find? (·.nullifier == nf)).map OwnedNote.value := by
      rw [ownedNoteValue, held, find?_append]
    rw [held]
    refine map_congr fun n hn => ?_
    have same : n.nullifier = nf := by simpa using find?_some hn
    rw [if_pos (same ▸ hnf)]
  rw [found]
  exact natSum_find_le _ _ nodup db.held

theorem ingestTx_total (db : WalletDb W) {effects : List ActionEffect} (received : List (ReceivedNote W))
    (record : WalletDb W → UInt64 → Option (WalletDb W)) (nodup : (effects.map (·.1)).Nodup)
    (value : db.heldValue (effects.map (·.1)) < U64_BOUND) (room : db.size + effects.length < U64_BOUND)
    (rows : ∀ db spent, ∃ db', record db spent = some db') : ∃ db', db.ingestTx effects received record = some db' := by
  unfold ingestTx
  split
  · exact ⟨db, rfl⟩
  · have part := spentValue_le nodup db
    rw [filterMap_map] at part
    obtain ⟨spent, hspent⟩ := exists_checkedSum (Nat.lt_of_le_of_lt part value)
    have leaves := length_eventLeaves_txEvents_le (effects, received)
    have fits : db.size + (eventLeaves (txEvents (effects, received))).length < U64_BOUND :=
      Nat.lt_of_le_of_lt (Nat.add_le_add_left leaves _) room
    obtain ⟨db₁, hacts⟩ := events_total fits
    obtain ⟨db', hrow⟩ := rows db₁ spent
    refine ⟨db', ?_⟩
    rw [ingestActions_events]
    simp only [bind_eq_bind, bind_eq_some_iff]
    exact ⟨spent, hspent, db₁, hacts, hrow⟩

theorem recordRecords_total (info : Option BlockMeta) (records : List CompactActionRecord) (bi : Nat)
    {received : List (ReceivedNote W)} (value : natSum (received.map fun r => W.noteValue r.note) < U64_BOUND)
    (db : WalletDb W) (spent : UInt64) : ∃ db', recordRecords info records bi received db spent = some db' := by
  obtain ⟨total, htotal⟩ := exists_checkedSum value
  unfold recordRecords
  split
  · unfold recordIncomeHistoryCompact receivedValue
    rw [htotal]
    split
    · rw [bind_eq_bind, bind_some]
      split
      · exact ⟨_, rfl⟩
      · exact ⟨_, rfl⟩
    · exact ⟨_, rfl⟩
  · exact ⟨_, rfl⟩

/-- The notes that the key receives in transactions. -/
def receivedNotes (fvk : W.Fvk) (txs : List (List CompactActionRecord)) : List W.Note :=
  txs.flatMap fun records => (scanCompactPrepared fvk records).map (·.note)

/-- The notes of the wallet, and those still to come, are among the notes found. -/
def Within (found : List W.Note) (db : WalletDb W) (coming : List W.Note) : Prop :=
  ∀ nfs, db.heldValue nfs + natSum (coming.map (valueUnder db.fvk nfs)) ≤ natSum (found.map (valueUnder db.fvk nfs))

variable {txs : List (List CompactActionRecord)} {found : List W.Note}

/-- Notes that come are then among those held. -/
theorem Within.events {coming rest : List W.Note} (h : Within found db (coming ++ rest))
    (hes : db.books.events es = some db'.books)
    (part : ∀ f : W.Note → UInt64, natSum ((createdNotes es).map f) ≤ natSum (coming.map f)) :
    Within found db' rest := by
  intro nfs
  have held : db'.heldValue nfs ≤ _ := heldValue_of_events hes
  have new := part (valueUnder db.fvk nfs)
  have all := h nfs
  rw [map_append, natSum_append] at all
  rw [fvk_of_events hes]
  omega

theorem Within.coming (h : Within found db []) (coming : List W.Note) : Within (coming ++ found) db coming := by
  intro nfs
  have held : db.heldValue nfs + 0 ≤ _ := h nfs
  rw [map_append, natSum_append]
  omega

/-- The loop over the transactions. -/
theorem ingestBundlesCompact_total {db : WalletDb W} (info : Option BlockMeta)
    (nodup : ∀ records ∈ txs, (records.map (·.nullifier)).Nodup)
    (fits : ∀ records ∈ txs, TxFits db.fvk found (recordEffects records, scanCompactPrepared db.fvk records))
    (within : Within found db (receivedNotes db.fvk txs))
    (room : db.size + (txs.map length).sum < U64_BOUND) : ∃ db', db.ingestBundlesCompact txs info = some db' := by
  unfold ingestBundlesCompact ingestTxs
  generalize 0 = k
  induction txs generalizing db k with
  | nil => exact ⟨db, rfl⟩
  | cons records txs ih =>
    rw [receivedNotes, flatMap_cons] at within
    rw [map_cons, sum_cons] at room
    obtain ⟨received, spent⟩ := fits records mem_cons_self
    have held : db.heldValue ((recordEffects records).map (·.1)) < U64_BOUND :=
      Nat.lt_of_le_of_lt ((Nat.le_add_right ..).trans (within _)) spent
    have distinct : ((recordEffects records).map (·.1)).Nodup := by
      have := nodup records mem_cons_self
      rwa [recordEffects, List.map_map]
    have count : (recordEffects records).length = records.length := length_map ..
    obtain ⟨db₁, hfirst⟩ := ingestTx_total db (scanCompactPrepared db.fvk records)
      (recordRecords info records k (scanCompactPrepared db.fvk records)) distinct held (by omega)
      (recordRecords_total info records k received)
    have books := ingestTx_books (recordEffects records, scanCompactPrepared db.fvk records)
      (fun h => books_of_row (map_books_recordRecords records) h) hfirst
    have key := fvk_of_events books
    have within₁ : Within found db₁ (receivedNotes db.fvk txs) := by
      refine within.events books fun f => ?_
      split
      · exact Nat.zero_le _
      · exact createdNotes_txEvents_le f (recordEffects records, scanCompactPrepared db.fvk records)
    have size : db₁.size ≤ db.size + records.length := by
      have := size_of_events books
      have leaves := length_eventLeaves_txEvents_le (recordEffects records, scanCompactPrepared db.fvk records)
      split at this
      · rw [this]
        exact Nat.add_le_add_left (Nat.zero_le _) _
      · rw [count] at leaves
        omega
    rw [← key] at fits within₁
    obtain ⟨db', hrest⟩ :=
      ih (fun r hr => nodup r (mem_cons_of_mem _ hr)) (fun r hr => fits r (mem_cons_of_mem _ hr)) within₁
      (by omega) (k + 1)
    refine ⟨db', ?_⟩
    rw [zipIdx_cons, foldlM_cons]
    exact bind_eq_some_iff.mpr ⟨db₁, hfirst, hrest⟩

theorem ingestCoinbase_total {db : WalletDb W} (info : Option BlockMeta)
    {notes : List (CoinbaseNoteDesc × UInt64 × P.Cmx)}
    (room : db.size + notes.length < U64_BOUND) : ∃ db', notes.foldlM (ingestCoinbaseNote info) db = some db' := by
  induction notes generalizing db with
  | nil => exact ⟨db, rfl⟩
  | cons note notes ih =>
    rw [length_cons] at room
    have step : ∃ db₁, ingestCoinbaseNote info db note = some db₁ ∧ db₁.size = db.size + 1 := by
      obtain ⟨db₀, eq, same, -⟩ := ingestCoinbaseNote_cases info db note
      have same : db₀.size = db.size := show db₀.books.size = db.books.size by rw [same]
      exact ⟨_, eq.trans (if_pos (by omega)), by rw [← same]⟩
    obtain ⟨db₁, hnote, size⟩ := step
    have room₁ : db₁.size + notes.length < U64_BOUND := by omega
    obtain ⟨db', hrest⟩ := ih room₁
    exact ⟨db', by rw [foldlM_cons, hnote]; exact hrest⟩

variable {info : Option BlockMeta}

/-- **Ingest does not panic** while the sums of every transaction fit, and the counter has room. -/
theorem ingest_compact_total {coinbase : List (CoinbaseNoteDesc × UInt64)}
    (nodup : ∀ records ∈ txs, (records.map (·.nullifier)).Nodup)
    (fits : ∀ tx ∈ WalletBlock.txs db.fvk (.compact coinbase txs), TxFits db.fvk found tx)
    (within : Within found db (WalletBlock.notes db.fvk (.compact coinbase txs)))
    (room : db.size + (committedNotes W coinbase).length + (txs.map length).sum < U64_BOUND) :
    ∃ db', db.ingest (.compact coinbase txs) info = some db' := by
  have begun : (db.observeMeta info).books = db.books := books_observeMeta db info
  have size₀ : (db.observeMeta info).size = db.size :=
    show (db.observeMeta info).books.size = db.books.size by rw [begun]
  have room₀ : (db.observeMeta info).size + (committedNotes W coinbase).length < U64_BOUND := by omega
  obtain ⟨db₁, hnotes⟩ := ingestCoinbase_total info room₀
  have books := ingestCoinbase_books hnotes
  rw [fvk_of_books begun, begun] at books
  have key := fvk_of_events books
  have size := size_of_events books
  have leaves : (eventLeaves (coinbaseEvents db.fvk (committedNotes W coinbase))).length =
      (committedNotes W coinbase).length := by
    rw [eventLeaves, coinbaseEvents, filterMap_map]
    simp
  have coming : WalletBlock.notes db.fvk (.compact coinbase txs) =
      createdNotes (coinbaseEvents db.fvk (committedNotes W coinbase)) ++ receivedNotes db.fvk txs := by
    rw [WalletBlock.notes, createdNotes_coinbase]
    simp only [WalletBlock.coinbase, WalletBlock.txs, receivedNotes, flatMap_map]
  have within₁ : Within found db₁ (receivedNotes db.fvk txs) := (coming ▸ within).events books fun f => Nat.le_refl _
  have fits₁ : ∀ records ∈ txs, TxFits db.fvk found (recordEffects records, scanCompactPrepared db.fvk records) :=
    fun records hr => fits _ (mem_map_of_mem hr)
  rw [← key] at within₁ fits₁
  obtain ⟨db', htxs⟩ := ingestBundlesCompact_total info nodup fits₁ within₁ (by omega)
  exact ⟨db', (db.ingestBlockCompactWithMeta_eq coinbase txs info).trans (bind_eq_some_iff.mpr ⟨db₁, hnotes, htxs⟩)⟩

theorem Within.ingest {block : WalletBlock P} (h : Within found db (block.notes db.fvk))
    (hi : db.ingest block info = some db') :
    Within found db' [] := by
  rw [← append_nil (block.notes db.fvk)] at h
  exact h.events (ingest_events hi) fun f => createdNotes_block_le f _ _ _

end WalletDb

end Firecash
