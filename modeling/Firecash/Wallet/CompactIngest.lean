import Firecash.Consensus.ScanArchive
import Firecash.Wallet.Events
import Firecash.Wallet.LeafLists

/-!
# Full and compact ingest

A wallet may ingest a block from the bundles, with leaf commitments that were computed before, or from
compact records. The three differ in the history they write and in nothing else: `books` is the same after
each (`ingestBlock_books_eq`), as long as a compact record decrypts to the note its action does. They also
panic on the same blocks, since both histories sum what was received.
-/

namespace Firecash

open Checked List Option CompactActionRecord

variable {P : Prim} {W : WalletPrim P}

/-! ## What a scan finds -/

/-- What ingest reads of the received notes: which action, and the note. -/
def foundNotes (received : List (ReceivedNote W)) : List (Nat × W.Note) := received.map fun r => (r.actionIndex, r.note)

/-- The compact record of an action of `actions` decrypts to the note that the action does. -/
def DecryptAlike (W : WalletPrim P) (fvk : W.Fvk) (actions : List ActionWire) : Prop :=
  ∀ a ∈ actions, W.tryCompactNoteDecryption fvk (.fromWire a) = (W.tryNoteDecryption fvk a).map (·.1)

theorem foundNotes_scan {fvk : W.Fvk} {actions : List ActionWire} (alike : DecryptAlike W fvk actions) :
    foundNotes (scanCompactPrepared fvk (actions.map .fromWire)) = foundNotes (scanBundlePrepared fvk actions) := by
  unfold foundNotes scanCompactPrepared scanBundlePrepared
  rw [zipIdx_map, filterMap_map, map_filterMap, map_filterMap]
  refine filterMap_congr fun x hx => ?_
  have same := alike x.1 (fst_mem_of_mem_zipIdx hx)
  simp only [Function.comp_apply, Prod.map_fst, Prod.map_snd, id_eq, same, Option.map_map]
  rfl

theorem find_actionIndex (received : List (ReceivedNote W)) (i : Nat) :
    (received.find? (·.actionIndex == i)).map (·.note) = ((foundNotes received).find? (·.1 == i)).map (·.2) := by
  rw [foundNotes, find?_map, Option.map_map]
  rfl

theorem actionEvents_congr {received received' : List (ReceivedNote W)}
    (found : foundNotes received = foundNotes received') :
    actionEvents received = actionEvents received' := by
  funext action
  unfold actionEvents
  rw [find_actionIndex, find_actionIndex, found]

theorem recordEffects_fromWire (actions : List ActionWire) :
    recordEffects (actions.map .fromWire) = actionEffects actions := by
  rw [recordEffects, actionEffects, List.map_map]
  rfl

namespace WalletDb

variable {received : List (ReceivedNote W)}

theorem receivedValue_congr {received' : List (ReceivedNote W)} (found : foundNotes received = foundNotes received') :
    receivedValue received = receivedValue received' := by
  have value : ∀ l : List (ReceivedNote W), receivedValue l =
      checkedSum ((foundNotes l).map fun x => W.noteValue x.2) := by
    intro l
    rw [receivedValue, foundNotes, List.map_map]
    rfl
  rw [value, value, found]

variable {db db' : WalletDb W}

/-- The rows of a bundle and of its compact records leave the same books. -/
theorem map_books_record (info : Option BlockMeta) (bundle : ShieldedBundle P) (records : List CompactActionRecord)
    (bi : Nat)
    {received' : List (ReceivedNote W)} (found : foundNotes received = foundNotes received')
    (same : db'.books = db.books) (spent : UInt64) :
    (recordRecords info records bi received' db' spent).map books =
      (recordBundle info bundle bi received db spent).map books := by
  have enabled : db'.historyEnabled = db.historyEnabled := by
    show db'.books.historyEnabled = db.books.historyEnabled
    rw [same]
  rw [map_books_recordRecords, map_books_recordBundle]
  unfold rowBooks
  rw [enabled, receivedValue_congr found, same]

/-! ## Transactions -/

/-- Two ways to go on from states with the same books, that leave the same books. -/
def BooksAlike (f g : WalletDb W → Option (WalletDb W)) : Prop :=
  ∀ db db' : WalletDb W, db'.books = db.books → (g db').map books = (f db).map books

theorem map_books_bind {o o' : Option (WalletDb W)} {f g : WalletDb W → Option (WalletDb W)}
    (same : o'.map books = o.map books)
    (alike : BooksAlike f g) : (o'.bind g).map books = (o.bind f).map books := by
  cases o with
  | none =>
    rw [map_none, map_eq_none_iff] at same
    rw [same]
    rfl
  | some db =>
    obtain ⟨db', rfl, books⟩ := map_eq_some_iff.mp same
    exact alike db db' books

theorem ingestTx_alike (effects : List ActionEffect) {received' : List (ReceivedNote W)}
    (found : foundNotes received = foundNotes received') {record record' : WalletDb W → UInt64 → Option (WalletDb W)}
    (rows : ∀ spent, BooksAlike (record · spent) (record' · spent)) :
    BooksAlike (fun db => db.ingestTx effects received record) fun db => db.ingestTx effects received' record' := by
  intro db db' same
  have spent := spent_of_books same
  have value : ∀ nf, db'.ownedNoteValue nf = db.ownedNoteValue nf := by
    intro nf
    show db'.books.ownedNoteValue nf = db.books.ownedNoteValue nf
    rw [same]
  unfold ingestTx
  simp only [spent, value]
  split
  · exact congrArg some same
  · cases checkedSum (effects.filterMap fun e => db.ownedNoteValue e.1) with
    | none => rfl
    | some total =>
      refine map_books_bind ?_ (rows total)
      rw [ingestActions_events, ingestActions_events, books_events, books_events, same, actionEvents_congr found]

/-- The compact records of the bundles leave the books that the bundles do. -/
theorem ingestBundles_alike {fvk : W.Fvk} (info : Option BlockMeta) {txs : List (ShieldedBundle P)}
    (alike : ∀ b ∈ txs, DecryptAlike W fvk b.actions) (key : db.fvk = fvk) (same : db'.books = db.books) :
    (db'.ingestBundlesCompact (txs.map fun b => b.actions.map .fromWire) info).map books =
      (db.ingestBundles txs info).map books := by
  unfold ingestBundlesCompact ingestBundles ingestTxs
  rw [zipIdx_map]
  generalize 0 = k
  induction txs generalizing db db' k with
  | nil => exact congrArg some same
  | cons b txs ih =>
    obtain ⟨first, rest⟩ := forall_mem_cons.mp alike
    rw [zipIdx_cons, map_cons, foldlM_cons, foldlM_cons]
    have key' : db'.fvk = fvk := (fvk_of_books same).trans key
    have one := ingestTx_alike (actionEffects b.actions) (foundNotes_scan first).symm
      (fun spent db db' same =>
        map_books_record info b (b.actions.map .fromWire) k (foundNotes_scan first).symm same spent) db db' same
    dsimp only [Prod.map_fst, Prod.map_snd, id_eq] at one ⊢
    rw [key, key', recordEffects_fromWire]
    cases full : db.ingestTx (actionEffects b.actions) (scanBundlePrepared fvk b.actions)
        (recordBundle info b k (scanBundlePrepared fvk b.actions)) with
    | none =>
      rw [full, map_none, map_eq_none_iff] at one
      rw [one]
      rfl
    | some db₁ =>
      rw [full] at one
      obtain ⟨db₁', compact, same₁⟩ := map_eq_some_iff.mp one
      rw [compact]
      have events := ingestTx_books (_, _) (fun h => books_of_row (map_books_recordBundle b) h) full
      exact ih rest ((fvk_of_events events).trans key) same₁ (k + 1)

/-- The compact records of a block, each written and read back. -/
def archivedRecords (txs : List (ShieldedBundle P)) : Option (List (List CompactActionRecord)) :=
  txs.mapM fun b => b.actions.mapM fun a => fromBytes (fromWire a).toBytes

theorem archivedRecords_eq (txs : List (ShieldedBundle P)) :
    archivedRecords txs = some (txs.map fun b => b.actions.map .fromWire) := by
  have bundle : ∀ actions : List ActionWire,
      actions.mapM (fun a => fromBytes (fromWire a).toBytes) =
        some (actions.map .fromWire) := by
    intro actions
    simp only [fromBytes_toBytes]
    exact mapM_pure
  unfold archivedRecords
  simp only [bundle]
  exact mapM_pure

end WalletDb

/-- **The three ways to ingest a block leave the same books**: with the leaf commitments computed before,
from the bundles, and from the compact records after a round trip through their bytes. -/
theorem WalletDb.ingestBlock_books_eq (db : WalletDb W) (coinbase : List (CoinbaseNoteDesc × UInt64))
    (txs : List (ShieldedBundle P)) (info : Option BlockMeta) (alike : ∀ b ∈ txs, DecryptAlike W db.fvk b.actions) :
    db.ingestBlockPrecomputedWithMeta (committedNotes W coinbase) txs info = db.ingestBlockWithMeta coinbase txs info ∧
    ∃ records, archivedRecords txs = some records ∧
      (db.ingestBlockCompactWithMeta coinbase records info).map books =
        (db.ingestBlockWithMeta coinbase txs info).map books := by
  refine ⟨(db.ingestBlockWithMeta_eq coinbase txs info).symm, _, archivedRecords_eq txs, ?_⟩
  rw [ingestBlockCompactWithMeta, ingestBlockWithMeta]
  cases notes : coinbase.foldlM (ingestCoinbaseDesc info) (db.observeMeta info) with
  | none => rfl
  | some db₁ =>
    rw [foldlM_ingestCoinbaseDesc] at notes
    have key := fvk_of_events (ingestCoinbase_books notes)
    exact ingestBundles_alike info alike (key.trans (fvk_of_books (books_observeMeta db info))) rfl

/-- Pays 5 to the wallet with key 7. -/
def payingBundle : ShieldedBundle leafPrim := ⟨[⟨1000, 0, 1, 0, 0, BitVec.ofNat 4640 (5 * 2 ^ 344 + 7), 0, 0⟩], 0, 0⟩

/-- A coinbase note of 6 for the wallet. -/
def payingCoinbase : List (CoinbaseNoteDesc × UInt64) := [(⟨7, 40, 0⟩, 6)]

theorem WalletDb.ingestBlock_books_eq_paying : ∃ records db, archivedRecords [payingBundle] = some records ∧
    (fresh (W := leafLists) 7).ingestBlockWithMeta payingCoinbase [payingBundle] none = some db ∧
    db.notes.map (fun n => n.note.value) = [6, 5] ∧
    (fresh (W := leafLists) 7).ingestBlockPrecomputedWithMeta (committedNotes leafLists payingCoinbase)
      [payingBundle] none = some db ∧
    ((fresh (W := leafLists) 7).ingestBlockCompactWithMeta payingCoinbase records none).map books = some db.books := by
  have alike : ∀ b ∈ [payingBundle], DecryptAlike leafLists 7 b.actions := by
    intro b hb a ha
    obtain rfl := mem_singleton.mp hb
    obtain rfl := mem_singleton.mp ha
    decide +kernel
  have ingested : ((fresh (W := leafLists) 7).ingestBlockWithMeta payingCoinbase [payingBundle] none).map
      (fun db => db.notes.map fun n => n.note.value) = some [6, 5] := by decide +kernel
  obtain ⟨db, full, values⟩ := map_eq_some_iff.mp ingested
  obtain ⟨precomputed, records, archived, compact⟩ :=
    ingestBlock_books_eq (fresh (W := leafLists) 7) payingCoinbase [payingBundle] none alike
  rw [full] at precomputed compact
  exact ⟨records, db, archived, full, values, precomputed, compact⟩

end Firecash
