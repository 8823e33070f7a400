import Firecash.Wallet.Session

/-!
# The history and its cap

`push_history` keeps the history at most `HISTORY_CAP` rows long and a restart reads as many. The rows of
compact blocks are pushed past it (`record_income_history_compact`), and a history with one row too
many is dropped whole by the next restart (`compactRow_exceeds`). `RunRoom` is that every compact block
fits what is left; then the history stays within its cap and survives a restart (`history_kept`).
-/

namespace Firecash

open List Option

variable {P : Prim} {W : WalletPrim P}

namespace WalletDb

/-- The length of a history of `l` rows after one is pushed. -/
def pushedLength (l : Nat) : Nat := (if HISTORY_CAP ≤ l then l - HISTORY_CAP / 2 else l) + 1

variable {l : Nat}

theorem pushedLength_le (h : l ≤ HISTORY_CAP) : pushedLength l ≤ HISTORY_CAP := by
  have : HISTORY_CAP = 20000 := rfl
  unfold pushedLength
  split <;> omega

theorem iterate_pushedLength_le (h : l ≤ HISTORY_CAP) (n : Nat) : pushedLength^[n] l ≤ HISTORY_CAP := by
  induction n generalizing l with
  | zero => exact h
  | succ n ih => exact ih (pushedLength_le h)

/-- The coinbase notes of a block that get a row. -/
def coinbaseRows (fvk : W.Fvk) (notes : List (CoinbaseNoteDesc × UInt64 × P.Cmx)) (info : Option BlockMeta) : Nat :=
  if info.isSome then notes.countP fun note => (recoverCoinbaseNote fvk note.1 note.2.1).isSome else 0

theorem coinbaseRows_cons (fvk : W.Fvk) (note : CoinbaseNoteDesc × UInt64 × P.Cmx)
    (notes : List (CoinbaseNoteDesc × UInt64 × P.Cmx)) (info : Option BlockMeta) :
    coinbaseRows fvk (note :: notes) info = coinbaseRows fvk notes info + coinbaseRows fvk [note] info := by
  unfold coinbaseRows
  split
  · rw [countP_cons, countP_singleton]
  · rfl

/-- A compact transaction with a txid in which the key finds a value. -/
def paysUs (fvk : W.Fvk) (info : Option BlockMeta) (tx : List CompactActionRecord × Nat) : Bool :=
  (txidAt info tx.2).isSome && receivedValue (scanCompactPrepared fvk tx.1) != some 0

/-- The transactions of a block that can get a row past `push_history`. -/
def compactRows (fvk : W.Fvk) (block : WalletBlock P) (info : Option BlockMeta) : Nat :=
  match block with
  | .full .. | .precomputed .. => 0
  | .compact _ txs | .compactPrecomputed _ txs => txs.zipIdx.countP (paysUs fvk info)

/-- After its coinbase rows there is room for the compact rows of a block. -/
def OpRoom (db : WalletDb W) : WalletOp P → Prop
  | .ingest block info =>
    pushedLength^[coinbaseRows db.fvk (block.coinbase W) info] db.history.length + compactRows db.fvk block info ≤
      HISTORY_CAP
  | _ => True

def RunRoom : WalletDb W → List (WalletOp P) → Prop
  | _, [] => True
  | db, op :: ops => db.OpRoom op ∧ (db.apply op).elim True fun db' => RunRoom db' ops

instance decidableOpRoom (db : WalletDb W) : ∀ op, Decidable (db.OpRoom op)
  | .ingest .. => inferInstanceAs (Decidable (_ ≤ _))
  | .markSpent .. | .reclaimExpired .. | .setWitnessBudget .. | .advanceWitnessesCapped .. | .advanceBaseCapped ..
  | .installWitness .. | .warmLeaves => .isTrue trivial

instance decidableRunRoom : ∀ (db : WalletDb W) ops, Decidable (db.RunRoom ops)
  | _, [] => .isTrue trivial
  | db, op :: ops =>
    have := fun db' : WalletDb W => decidableRunRoom db' ops
    inferInstanceAs (Decidable (db.OpRoom op ∧ _))

/-- A history that is recorded, with memos that are written in full. -/
structure Recorded (db : WalletDb W) : Prop where
  enabled : db.historyEnabled = true
  short : ∀ row ∈ db.history, row.memo.length ≤ 65535

variable {db db' : WalletDb W}

theorem Recorded.of_same (h : Recorded db) (history : db'.history = db.history)
    (enabled : db'.historyEnabled = db.historyEnabled) : Recorded db' :=
  ⟨by rw [enabled, h.enabled], by rw [history]; exact h.short⟩

theorem length_pushHistory (db : WalletDb W) (row : HistoryEntry) :
    (db.pushHistory row).history.length = pushedLength db.history.length := by
  unfold pushHistory pushedLength
  rw [length_append, length_singleton]
  split <;> simp

theorem Recorded.pushHistory (h : Recorded db) {row : HistoryEntry} (short : row.memo.length ≤ 65535) :
    Recorded (db.pushHistory row) where
  enabled := h.enabled
  short := by
    intro r hr
    rcases mem_append.mp hr with old | new
    · refine h.short r ?_
      split at old
      · exact mem_of_mem_drop old
      · exact old
    · rw [mem_singleton.mp new]
      exact short

/-! ## Ingest -/

theorem appendLeaf_history {cmx : P.Cmx} {owned : Option W.Note} (h : db.appendLeaf cmx owned = some db') :
    db'.history = db.history ∧ db'.historyEnabled = db.historyEnabled ∧ db'.fvk = db.fvk := by
  obtain ⟨-, rfl⟩ := appendLeaf_eq h
  exact ⟨rfl, rfl, rfl⟩

theorem events_history {es : List (WalletEvent W)} (h : db.events es = some db') :
    db'.history = db.history ∧ db'.historyEnabled = db.historyEnabled ∧ db'.fvk = db.fvk := by
  induction h using foldlM_induction with
  | nil => exact ⟨rfl, rfl, rfl⟩
  | cons e es db db₁ he _ ih =>
    obtain ⟨history, enabled, key⟩ := ih
    cases e with
    | leaf cmx owned =>
      obtain ⟨history₁, enabled₁, key₁⟩ := appendLeaf_history he
      exact ⟨history.trans history₁, enabled.trans enabled₁, key.trans key₁⟩
    | reveal nf =>
      cases he
      exact ⟨history, enabled, key⟩

variable {info : Option BlockMeta}

theorem ingestCoinbaseNote_history {note : CoinbaseNoteDesc × UInt64 × P.Cmx} (h : Recorded db)
    (hn : ingestCoinbaseNote info db note = some db') :
    Recorded db' ∧ db'.fvk = db.fvk ∧
      db'.history.length = pushedLength^[coinbaseRows db.fvk [note] info] db.history.length := by
  obtain ⟨db₁, eq, -, row⟩ := ingestCoinbaseNote_cases info db note
  rw [eq] at hn
  obtain ⟨history, enabled, key⟩ := appendLeaf_history hn
  obtain ⟨rfl, unrecorded⟩ | ⟨m, rfl, own, rfl⟩ := row
  · refine ⟨h.of_same history enabled, key, ?_⟩
    rw [history]
    cases info with
    | none => rfl
    | some m => simp [coinbaseRows, unrecorded rfl]
  · rw [recordCoinbaseHistory, if_pos h.enabled] at history enabled key
    refine ⟨(h.pushHistory (Nat.zero_le _)).of_same history enabled, key, ?_⟩
    rw [history, length_pushHistory]
    simp [coinbaseRows, own]

theorem ingestCoinbase_history {notes : List (CoinbaseNoteDesc × UInt64 × P.Cmx)} (h : Recorded db)
    (hn : notes.foldlM (ingestCoinbaseNote info) db = some db') :
    Recorded db' ∧ db'.fvk = db.fvk ∧
      db'.history.length = pushedLength^[coinbaseRows db.fvk notes info] db.history.length := by
  induction hn using foldlM_induction with
  | nil =>
    refine ⟨h, rfl, ?_⟩
    simp [coinbaseRows]
  | cons note notes db db₁ hnote _ ih =>
    obtain ⟨h₁, key₁, length₁⟩ := ingestCoinbaseNote_history h hnote
    obtain ⟨h', key, length⟩ := ih h₁
    refine ⟨h', key.trans key₁, ?_⟩
    rw [length, length₁, key₁, coinbaseRows_cons db.fvk note notes, Function.iterate_add_apply]

theorem observeMeta_history (db : WalletDb W) (info : Option BlockMeta) :
    (db.observeMeta info).history = db.history ∧ (db.observeMeta info).historyEnabled = db.historyEnabled ∧
      (db.observeMeta info).fvk = db.fvk := by
  cases info <;> exact ⟨rfl, rfl, rfl⟩

variable {effects : List ActionEffect} {received : List (ReceivedNote W)}

/-- What a transaction does to the history is what recording its row does. -/
theorem ingestTx_cases
    {record : WalletDb W → UInt64 → Option (WalletDb W)} (h : db.ingestTx effects received record = some db') :
    db' = db ∨ ∃ db₁ spent, (db₁.history = db.history ∧ db₁.historyEnabled = db.historyEnabled ∧ db₁.fvk = db.fvk) ∧
      record db₁ spent = some db' := by
  unfold ingestTx at h
  split at h
  · exact .inl (some.inj h).symm
  · obtain ⟨spent, -, h⟩ := bind_eq_some_iff.mp h
    obtain ⟨db₁, hacts, h⟩ := bind_eq_some_iff.mp h
    rw [ingestActions_events] at hacts
    exact .inr ⟨db₁, spent, events_history hacts, h⟩

/-- The loop over the transactions, with an invariant that has a budget for those counted by `p`. -/
theorem ingestTxs_rows {τ : Type} {effects : τ → List ActionEffect} {scan : W.Fvk → τ → List (ReceivedNote W)}
    {record : τ → Nat → List (ReceivedNote W) → WalletDb W → UInt64 → Option (WalletDb W)} {I : WalletDb W → Nat → Prop}
    (p : τ × Nat → Bool)
    (step : ∀ {x : τ × Nat} {db db' : WalletDb W} {n : Nat}, I db (n + if p x then 1 else 0) →
      db.ingestTx (effects x.1) (scan db.fvk x.1) (record x.1 x.2 (scan db.fvk x.1)) = some db' → I db' n)
    {txs : List τ} (h : I db (txs.zipIdx.countP p)) (hrun : ingestTxs effects scan record db txs = some db') :
    I db' 0 := by
  unfold ingestTxs at hrun
  generalize txs.zipIdx = xs at h hrun
  induction hrun using foldlM_induction with
  | nil => exact h
  | cons x xs db db₁ hx _ ih =>
    rw [countP_cons] at h
    exact ih (step h hx)

theorem length_trimMemo_le (memo : Memo) : (trimMemo memo).length ≤ 512 := by
  unfold trimMemo
  dsimp only
  split
  · exact Nat.zero_le _
  · rw [length_reverse]
    refine (dropWhile_sublist _).length_le.trans ?_
    rw [length_reverse, BitVec.length_bytes]

theorem memo_scanBundle {fvk : W.Fvk} {actions : List ActionWire} {r : ReceivedNote W}
    (h : r ∈ scanBundlePrepared fvk actions) : r.memo.length ≤ 512 := by
  obtain ⟨x, -, hx⟩ := mem_filterMap.mp h
  obtain ⟨⟨note, memo⟩, -, rfl⟩ := map_eq_some_iff.mp hx
  dsimp only
  exact length_trimMemo_le memo

variable {spent : UInt64}

/-- The row of a bundle goes through `push_history`. -/
theorem recordBundle_cases {bundle : ShieldedBundle P} {bi : Nat}
    (short : ∀ r ∈ received, r.memo.length ≤ 512)
    (h : recordBundle info bundle bi received db spent = some db') :
    db' = db ∨ ∃ row : HistoryEntry, row.memo.length ≤ 512 ∧ db' = db.pushHistory row := by
  unfold recordBundle at h
  split at h
  · unfold recordBundleHistory at h
    split at h
    · obtain ⟨value, -, h⟩ := bind_eq_some_iff.mp h
      split at h
      · exact .inl (some.inj h).symm
      · split at h
        · refine .inr ⟨_, ?_, (some.inj h).symm⟩
          show (((recoveredOutputs db.fvk bundle.actions).head?.map fun out => trimMemo out.2.2).getD []).length ≤ 512
          cases (recoveredOutputs db.fvk bundle.actions).head? with
          | none => exact Nat.zero_le _
          | some out =>
            rw [map_some, getD_some]
            exact length_trimMemo_le out.2.2
        · refine .inr ⟨_, ?_, (some.inj h).symm⟩
          cases found : received.find? fun r => !r.memo.isEmpty with
          | none => exact Nat.zero_le _
          | some r => exact short r (mem_of_find?_eq_some found)
    · exact .inl (some.inj h).symm
  · exact .inl (some.inj h).symm

/-- The row of a compact transaction is added at the end, whatever the length. -/
theorem recordRecords_cases {records : List CompactActionRecord} {bi : Nat}
    (h : recordRecords info records bi received db spent = some db') :
    db' = db ∨ (∃ row : HistoryEntry, row.memo = [] ∧ db' = { db with history := db.history ++ [row] }) ∧
      (txidAt info bi).isSome ∧ receivedValue received ≠ some 0 := by
  unfold recordRecords at h
  split at h
  · rename_i txid m found
    unfold recordIncomeHistoryCompact at h
    split at h
    · obtain ⟨value, hvalue, h⟩ := bind_eq_some_iff.mp h
      split at h
      · exact .inl (some.inj h).symm
      · rename_i income
        refine .inr ⟨⟨_, rfl, (some.inj h).symm⟩, by rw [found]; rfl, ?_⟩
        intro zero
        rw [hvalue] at zero
        exact income (.inr (some.inj zero))
    · exact .inl (some.inj h).symm
  · exact .inl (some.inj h).symm

theorem ingestBundles_history {txs : List (ShieldedBundle P)} (h : Recorded db)
    (le : db.history.length ≤ HISTORY_CAP) (ht : db.ingestBundles txs info = some db') :
    Recorded db' ∧ db'.history.length ≤ HISTORY_CAP := by
  refine ingestTxs_rows (I := fun db _ => Recorded db ∧ db.history.length ≤ HISTORY_CAP) (fun _ => false) ?_ ⟨h, le⟩ ht
  intro x db db' n ⟨h, le⟩ ht
  obtain rfl | ⟨db₁, spent, ⟨history, enabled, -⟩, hrow⟩ := ingestTx_cases ht
  · exact ⟨h, le⟩
  have h₁ := h.of_same history enabled
  rw [← history] at le
  obtain rfl | ⟨row, short, rfl⟩ := recordBundle_cases (fun r => memo_scanBundle) hrow
  · exact ⟨h₁, le⟩
  · refine ⟨h₁.pushHistory (by omega), ?_⟩
    rw [length_pushHistory]
    exact pushedLength_le le

theorem ingestBundlesCompact_history {txs : List (List CompactActionRecord)} (h : Recorded db)
    (le : db.history.length + txs.zipIdx.countP (paysUs db.fvk info) ≤ HISTORY_CAP)
    (ht : db.ingestBundlesCompact txs info = some db') : Recorded db' ∧ db'.history.length ≤ HISTORY_CAP := by
  generalize hkey : db.fvk = fvk at le
  refine (ingestTxs_rows (I := fun db n => db.fvk = fvk ∧ Recorded db ∧ db.history.length + n ≤ HISTORY_CAP)
    (paysUs fvk info) ?_ ⟨hkey, h, le⟩ ht).2
  clear h le ht hkey
  intro x db db' n ⟨hkey, h, le⟩ ht
  obtain rfl | ⟨db₁, spent, ⟨history, enabled, key⟩, hrow⟩ := ingestTx_cases ht
  · exact ⟨hkey, h, by omega⟩
  have h₁ := h.of_same history enabled
  have key₁ : db₁.fvk = fvk := key.trans hkey
  rw [← history] at le
  obtain rfl | ⟨⟨row, memo, rfl⟩, hasTxid, income⟩ := recordRecords_cases hrow
  · exact ⟨key₁, h₁, by omega⟩
  · have counted : paysUs fvk info x = true := by
      rw [hkey] at income
      simpa [paysUs, hasTxid] using income
    rw [if_pos counted] at le
    refine ⟨key₁, ⟨h₁.enabled, ?_⟩, ?_⟩
    · intro r hr
      rcases mem_append.mp hr with old | new
      · exact h₁.short r old
      · rw [mem_singleton.mp new, memo]
        exact Nat.zero_le _
    · rw [length_append, length_singleton]
      omega

/-- A block that has room for its rows keeps the history within its cap. -/
theorem ingest_history {block : WalletBlock P} (h : Recorded db)
    (le : db.history.length ≤ HISTORY_CAP) (room : db.OpRoom (.ingest block info))
    (hi : db.ingest block info = some db') :
    Recorded db' ∧ db'.history.length ≤ HISTORY_CAP := by
  obtain ⟨history, enabled, key⟩ := observeMeta_history db info
  have begun := h.of_same history enabled
  rw [ingest_eq] at hi
  obtain ⟨db₁, hnotes, htxs⟩ := bind_eq_some_iff.mp hi
  obtain ⟨h₁, key₁, length⟩ := ingestCoinbase_history begun hnotes
  cases block with
  | full notes txs | precomputed notes txs =>
    refine ingestBundles_history h₁ ?_ htxs
    rw [length, history]
    exact iterate_pushedLength_le le _
  | compact notes txs | compactPrecomputed notes txs =>
    refine ingestBundlesCompact_history h₁ ?_ htxs
    rw [length, key₁, history, key]
    exact room

/-! ## Runs -/

theorem apply_history {op : WalletOp P} (hop : db.apply op = some db') :
    (∃ block info, op = .ingest block info) ∨ (db'.history = db.history ∧ db'.historyEnabled = db.historyEnabled) := by
  cases op with
  | ingest block info => exact .inl ⟨block, info, rfl⟩
  | markSpent position txid submittedDaa =>
    cases hop
    unfold markSpent
    split <;> exact .inr ⟨rfl, rfl⟩
  | reclaimExpired _ _ =>
    cases hop
    exact .inr ⟨rfl, rfl⟩
  | setWitnessBudget _ | advanceWitnessesCapped _ _ | advanceBaseCapped _ _ | installWitness _ _ | warmLeaves =>
    have same := (apply_upkeep rfl hop).1
    exact .inr ⟨(congrArg WalletDb.history same :), (congrArg WalletDb.historyEnabled same :)⟩

theorem run_history {ops : List (WalletOp P)} (h : Recorded db) (le : db.history.length ≤ HISTORY_CAP)
    (room : db.RunRoom ops) (hrun : db.run ops = some db') : Recorded db' ∧ db'.history.length ≤ HISTORY_CAP := by
  induction hrun using foldlM_induction with
  | nil => exact ⟨h, le⟩
  | cons op ops db db₁ hop _ ih =>
    rw [RunRoom, hop] at room
    obtain ⟨h₁, le₁⟩ : Recorded db₁ ∧ db₁.history.length ≤ HISTORY_CAP := by
      obtain ⟨block, info, rfl⟩ | ⟨history, enabled⟩ := apply_history hop
      · exact ingest_history h le room.1 hop
      · exact ⟨h.of_same history enabled, history ▸ le⟩
    exact ih h₁ le₁ room.2

theorem Started.recorded (h : Started db) : Recorded db ∧ db.history = [] := by
  cases h with
  | fresh fvk => exact ⟨⟨rfl, fun row hrow => nomatch hrow⟩, rfl⟩
  | frontier h =>
    obtain ⟨gt, -, rfl⟩ := applyFrontier_fresh h
    exact ⟨⟨rfl, fun row hrow => nomatch hrow⟩, rfl⟩

/-- A history within its cap and with memos of a block's size is read back row by row. -/
theorem Recorded.restoredHistory (h : Recorded db) (le : db.history.length ≤ HISTORY_CAP) :
    db.restoredHistory = db.history := by
  unfold WalletDb.restoredHistory
  rw [if_pos le]
  exact (map_congr_left fun row hrow => row.cut_eq (h.short row hrow)).trans (map_id' _)

/-- **The history stays within its cap and survives a restart**, in every run in which each compact block
has room for its rows. -/
theorem history_kept {db₀ : WalletDb W} {ops : List (WalletOp P)} (laws : IncrementalLaws W) (start : Started db₀)
    (hrun : db₀.run ops = some db) (room : db₀.RunRoom ops) :
    db.history.length ≤ HISTORY_CAP ∧ ∀ seed fvk bytes, W.fvkFromSeed seed = some fvk → db.toCheckpoint = some bytes →
      (db.size ≤ TREE_CAPACITY → ∃ db', fromCheckpoint W seed bytes = .ok db') ∧
      ∀ db', fromCheckpoint W seed bytes = .ok db' → db'.history = db.history := by
  obtain ⟨recorded, empty⟩ := start.recorded
  obtain ⟨recorded, le⟩ := run_history recorded (by rw [empty]; exact Nat.zero_le _) room hrun
  refine ⟨le, fun seed fvk bytes hkey hcp => ?_⟩
  rw [start.fromCheckpoint_eq laws hrun hkey hcp]
  refine ⟨fun small => ⟨_, if_pos small⟩, fun db' read => ?_⟩
  split at read
  · cases read
    exact recorded.restoredHistory le
  · cases read

/-! ## One row too many -/

def minedMeta : BlockMeta := ⟨3, [], 0, 1⟩

def paidMeta : BlockMeta := ⟨3, [9], 0, 2⟩

/-- Pays 5 to the wallet with key 7. -/
def payment : CompactActionRecord := ⟨1000, 1, 0, BitVec.ofNat 416 (5 * 2 ^ 344 + 7)⟩

/-- A note is mined and another one received. -/
def minedAndPaid : List (WalletOp leafPrim) :=
  [.ingest (.compact [(minedNote, 5)] []) (some minedMeta), .ingest (.compact [] [[payment]]) (some paidMeta)]

theorem minedAndPaid_kept : ∃ db bytes db', (fresh (W := leafLists) 7).run minedAndPaid = some db ∧
    db.history.length = 2 ∧
    db.toCheckpoint = some bytes ∧ fromCheckpoint leafLists 7 bytes = .ok db' ∧ db'.history = db.history := by
  have reached : ((fresh (W := leafLists) 7).run minedAndPaid).any fun db => decide (db.toCheckpoint.isSome ∧
      db.history.length = 2 ∧ db.size ≤ TREE_CAPACITY) := by
    decide +kernel
  obtain ⟨db, hrun, h⟩ := (Option.any_eq_true ..).mp reached
  obtain ⟨written, rows, small⟩ := of_decide_eq_true h
  obtain ⟨bytes, hcp⟩ := isSome_iff_exists.mp written
  have hkey : leafLists.fvkFromSeed 7 = some 7 := by decide +kernel
  obtain ⟨-, restarts⟩ := history_kept leafLists_laws (Started.fresh (W := leafLists) 7) hrun (by decide +kernel)
  obtain ⟨restores, kept⟩ := restarts 7 7 bytes hkey hcp
  obtain ⟨db', read⟩ := restores small
  exact ⟨db, bytes, db', hrun, rows, hcp, read, kept db' read⟩

theorem iterate_pushedLength {n : Nat} (h : l + n ≤ HISTORY_CAP) : pushedLength^[n] l = l + n := by
  induction n generalizing l with
  | zero => rfl
  | succ n ih =>
    have below : pushedLength l = l + 1 := by rw [pushedLength, if_neg (by omega)]
    rw [Function.iterate_succ_apply, below, ih (by omega)]
    omega

/-- Mining the same note again and again: the leaves are counted and every listed note has the nullifier 41. -/
theorem ingest_minedNotes (n : Nat) (db : WalletDb leafLists) (hkey : db.fvk = 7)
    (room : db.size + n < Checked.U64_BOUND)
    (listed : ∀ note ∈ db.notes, note.nullifier = 41) (parked : db.pendingSpends = []) :
    ∃ db', (replicate n (minedNote, 5, 45)).foldlM (ingestCoinbaseNote (some minedMeta)) db = some db' ∧
      db'.size = db.size + n ∧ (∀ note ∈ db'.notes, note.nullifier = 41) ∧ db'.pendingSpends = [] ∧
      db'.spentNullifiers = db.spentNullifiers := by
  induction n generalizing db with
  | zero => exact ⟨db, rfl, rfl, listed, parked, rfl⟩
  | succ n ih =>
    have owned : recoverCoinbaseNote db.fvk minedNote 5 = some ⟨7, 5, 40, 0⟩ := by
      rw [hkey]
      decide +kernel
    have books := books_recordCoinbaseHistory db 5 minedMeta
    generalize hrow : db.recordCoinbaseHistory 5 minedMeta = row at books
    have size : row.size = db.size := show row.books.size = db.books.size by rw [books]
    have notes : row.notes = db.notes := show row.books.notes = db.books.notes by rw [books]
    have pending : row.pendingSpends = db.pendingSpends :=
      show row.books.pendingSpends = db.books.pendingSpends by rw [books]
    have key : row.fvk = db.fvk := fvk_of_books books
    have spent : row.spentNullifiers = db.spentNullifiers := spent_of_books books
    have step : ingestCoinbaseNote (some minedMeta) db (minedNote, 5, 45) = row.appendLeaf 45 (some ⟨7, 5, 40, 0⟩) := by
      unfold ingestCoinbaseNote
      rw [← hrow, owned]
    obtain ⟨next, appended, key₁, size₁, listed₁, parked₁, spent₁⟩ :
      ∃ next, row.appendLeaf 45 (some ⟨7, 5, 40, 0⟩) = some next ∧
        next.fvk = 7 ∧ next.size = db.size + 1 ∧ (∀ note ∈ next.notes, note.nullifier = 41) ∧ next.pendingSpends = [] ∧
        next.spentNullifiers = db.spentNullifiers := by
      refine ⟨_, if_pos (by omega), key.trans hkey, congrArg (· + 1) size, ?_, pending.trans parked, spent⟩
      intro note hnote
      rcases mem_append.mp hnote with old | new
      · exact listed note (notes ▸ old)
      · rw [mem_singleton.mp new]
        show (40 : Bytes32) + 1 = 41
        decide
    obtain ⟨db', run, size', listed', parked', spent'⟩ := ih next key₁ (by omega) listed₁ parked₁
    refine ⟨db', ?_, by omega, listed', parked', spent'.trans spent₁⟩
    rw [replicate_succ, foldlM_cons, step, appended]
    exact run

theorem apply_coinbase (db : WalletDb W) (coinbase : List (CoinbaseNoteDesc × UInt64)) (info : Option BlockMeta) :
    db.apply (.ingest (.compact coinbase []) info) =
      (committedNotes W coinbase).foldlM (ingestCoinbaseNote info) (db.observeMeta info) := by
  refine (db.ingestBlockCompactWithMeta_eq coinbase [] info).trans ?_
  show ((committedNotes W coinbase).foldlM (ingestCoinbaseNote info) (db.observeMeta info)).bind some = _
  rw [bind_fun_some]

/-- A transaction of others that is not dropped: its events, then its row. -/
theorem ingestTx_of_others (record : WalletDb W → UInt64 → Option (WalletDb W))
    (unspent : ∀ e ∈ effects, e.1 ∉ db.spentNullifiers) (others : ∀ e ∈ effects, db.ownedNoteValue e.1 = none) :
    db.ingestTx effects received record = (db.events (txEvents (effects, received))).bind (record · 0) := by
  have kept : ¬(effects.any fun e => decide (e.1 ∈ db.spentNullifiers)) = true := by
    rw [List.any_eq_true]
    rintro ⟨e, he, hspent⟩
    exact unspent e he (of_decide_eq_true hspent)
  unfold ingestTx
  rw [if_neg kept, filterMap_eq_nil_iff.mpr others, ingestActions_events]
  rfl

/-- A compact transaction of others that pays us gets its row, whatever the length of the history. -/
theorem recordRecords_income (info : Option BlockMeta) (records : List CompactActionRecord) (bi : Nat)
    {txid : Bytes32} {m : BlockMeta} {value : UInt64} (enabled : db.historyEnabled = true)
    (hasTxid : txidAt info bi = some (txid, m)) (hvalue : receivedValue received = some value) (income : value ≠ 0) :
    ∃ db', recordRecords info records bi received db 0 = some db' ∧ db'.history.length = db.history.length + 1 := by
  unfold recordRecords
  rw [hasTxid]
  dsimp only
  unfold recordIncomeHistoryCompact
  rw [if_pos enabled, hvalue]
  refine ⟨_, if_neg ?_, length_append⟩
  rintro (spent | zero)
  · exact absurd spent (by decide)
  · exact income zero

theorem apply_payment {db : WalletDb leafLists} (hkey : db.fvk = 7) (enabled : db.historyEnabled = true)
    (room : db.size + 1 < Checked.U64_BOUND) (listed : ∀ note ∈ db.notes, note.nullifier = 41)
    (parked : db.pendingSpends = []) (unspent : db.spentNullifiers = ∅) :
    ∃ db', db.apply (.ingest (.compact [] [[payment]]) (some paidMeta)) = some db' ∧
      db'.history.length = db.history.length + 1 := by
  have decrypted : leafLists.tryCompactNoteDecryption 7 payment = some ⟨7, 5, 1000, 0⟩ := by decide +kernel
  have scanned : scanCompactPrepared db.fvk [payment] = [⟨0, ⟨7, 5, 1000, 0⟩, []⟩] := by
    rw [hkey]
    have found :
        (leafLists.tryCompactNoteDecryption 7 payment).map (fun note => (⟨0, note, []⟩ : ReceivedNote leafLists)) =
        some ⟨0, ⟨7, 5, 1000, 0⟩, []⟩ := by rw [decrypted]; rfl
    exact filterMap_cons_some found
  have value : receivedValue (W := leafLists) [⟨0, ⟨7, 5, 1000, 0⟩, []⟩] = some 5 := by decide +kernel
  have others : (db.observeMeta (some paidMeta)).ownedNoteValue 1000 = none := by
    have noNote : db.notes.find? (·.nullifier == 1000) = none := by
      rw [find?_eq_none]
      intro note hnote
      rw [listed note hnote]
      decide
    show ((db.notes.find? (·.nullifier == 1000)).or
      ((db.pendingSpends.map (·.note)).find? (·.nullifier == 1000))).map _ = none
    rw [noNote, parked]
    rfl
  obtain ⟨db₁, hes⟩ : ∃ db₁, (db.observeMeta (some paidMeta)).events
      (txEvents (recordEffects [payment], scanCompactPrepared db.fvk [payment])) = some db₁ := events_total room
  obtain ⟨history, enabled₁, -⟩ := events_history hes
  obtain ⟨db', hrow, length⟩ :=
    recordRecords_income (some paidMeta) [payment] 0 (enabled₁.trans enabled) rfl (scanned ▸ value) (by decide)
  refine ⟨db', ?_, length.trans (congrArg (·.length + 1) history)⟩
  show ((db.observeMeta (some paidMeta)).ingestTx (recordEffects [payment]) (scanCompactPrepared db.fvk [payment])
    (recordRecords (some paidMeta) [payment] 0 (scanCompactPrepared db.fvk [payment]))).bind some = some db'
  have spent : (db.observeMeta (some paidMeta)).spentNullifiers = ∅ := unspent
  rw [ingestTx_of_others _ (fun e _ => by rw [spent]; exact Finset.notMem_empty _)
    fun e he => by rw [mem_singleton.mp he]; exact others, hes]
  exact congrArg (·.bind some) hrow

/-- As many notes as the history has rows are mined, then a payment comes in a compact block. -/
def fullAndPaid : List (WalletOp leafPrim) :=
  [.ingest (.compact (replicate HISTORY_CAP (minedNote, 5)) []) (some minedMeta),
    .ingest (.compact [] [[payment]]) (some paidMeta)]

/-- The history is one row too long, and whatever is restored from a checkpoint has no history. -/
theorem compactRow_exceeds : ∃ db, (fresh (W := leafLists) 7).run fullAndPaid = some db ∧
    db.history.length = HISTORY_CAP + 1 ∧
    ∀ bytes db', db.toCheckpoint = some bytes → fromCheckpoint leafLists 7 bytes = .ok db' → db'.history = [] := by
  have notes : committedNotes leafLists (replicate HISTORY_CAP (minedNote, 5)) =
      replicate HISTORY_CAP (minedNote, 5, 45) := by
    have one : (coinbaseNoteCommitment leafLists minedNote 5).map (fun cmx => (minedNote, (5 : UInt64), cmx)) =
        some (minedNote, 5, 45) := by decide +kernel
    exact filterMap_replicate_of_some one
  have recorded : Recorded ((fresh (W := leafLists) 7).observeMeta (some minedMeta)) :=
    ⟨rfl, fun row hrow => nomatch hrow⟩
  obtain ⟨db₁, mined, size, listed, parked, spent⟩ := ingest_minedNotes HISTORY_CAP
    ((fresh (W := leafLists) 7).observeMeta (some minedMeta)) rfl (by decide) (fun note hnote => nomatch hnote) rfl
  obtain ⟨recorded, key, length⟩ := ingestCoinbase_history recorded mined
  have full : db₁.history.length = HISTORY_CAP := by
    have rows : coinbaseRows (W := leafLists) 7 (List.replicate HISTORY_CAP (minedNote, 5, 45)) (some minedMeta) =
        HISTORY_CAP := by
      have own : (recoverCoinbaseNote (W := leafLists) 7 minedNote 5).isSome = true := by decide +kernel
      rw [coinbaseRows, if_pos isSome_some, countP_replicate, if_pos own]
    have zero : pushedLength^[HISTORY_CAP] 0 = 0 + HISTORY_CAP := iterate_pushedLength (Nat.zero_add _).le
    rw [length, show ((fresh (W := leafLists) 7).observeMeta (some minedMeta)).fvk = 7 from rfl, rows]
    exact zero.trans (Nat.zero_add _)
  have small : db₁.size + 1 < Checked.U64_BOUND := by
    rw [size]
    decide
  obtain ⟨db, paid, exceeded⟩ := apply_payment key recorded.enabled small listed parked spent
  have hrun : (fresh (W := leafLists) 7).run fullAndPaid = some db := by
    rw [run, fullAndPaid, foldlM_cons, apply_coinbase, notes, mined]
    show (db₁.apply (.ingest (.compact [] [[payment]]) (some paidMeta))).bind some = some db
    rw [paid]
    rfl
  have hkey : leafLists.fvkFromSeed 7 = some 7 := by decide +kernel
  rw [full] at exceeded
  refine ⟨db, hrun, exceeded, fun bytes db' hcp read => ?_⟩
  rw [(Started.fresh (W := leafLists) 7).fromCheckpoint_eq leafLists_laws hrun hkey hcp] at read
  split at read
  · cases read
    exact if_neg (by omega)
  · cases read

end WalletDb

end Firecash
