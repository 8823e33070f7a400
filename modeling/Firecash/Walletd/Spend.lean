import Firecash.Wallet.Bookkeeping
import Firecash.Walletd.Entry
import Firecash.Walletd.Payment

/-!
# Choosing what a request spends (zkas-walletd/src/lib.rs)

`wallet_send` plans its transactions over the matured notes of the loaded wallet. Where the wallet has
no matured boundary yet, or is behind and has too little, it replays the chain into a fresh wallet and
plans over that one's notes. `wallet_consolidate` takes the smallest matured notes of the loaded wallet.
Either way the transactions of a request spend different notes: the chunks are cut, one after the
other, from the list of candidates (`cutChunks_inputs`).

`panic` is a sum of values that overflows, or a slice out of range.
-/

namespace Firecash

open Checked List Option Except

variable {P : Prim} {W : WalletPrim P}

def SPEND_CLIMB_INLINE_MAX : Nat := 512

/-- The errors of the two requests. -/
inductive SpendError where
  | noWallet
  | cannotValidate
  | invalidFrontier
  | checkpointDiverged
  | stillUpdating
  | viewingKeyOnly
  | amountOverflow
  | zeroAmount
  | insufficientFunds (available stranded : UInt64)
  | noWitnessPath
  | badSeed
  | replayFailed
  | proofFailed
  | rejected
  | stillSyncing
  | nothingToConsolidate
  | notWorthTheFee (sum fee : UInt64)

/-- A transaction to be proven: its notes with their paths, what it pays and its fee. -/
structure Chunk (W : WalletPrim P) where
  inputs : List (OwnedNote W × MerklePath P)
  pay : UInt64
  fee : UInt64

def Chunk.positions (chunk : Chunk W) : List Nat := chunk.inputs.map (·.1.position)

/-! ## Candidates -/

/-- `matured_candidates` (lib.rs:3311), with the value that is stranded. -/
def maturedCandidates (db : WalletDb W) (matured : Nat) : Option (List (OwnedNote W) × UInt64) := do
  let stranded ← checkedSum (db.strandedNotes.map OwnedNote.value)
  let skip := db.strandedNotes.map (·.position)
  some (db.notes.filter fun n => decide (n.position < matured) && !decide (n.position ∈ skip), stranded)

/-- `plan_chunks` (lib.rs:3131): the number of notes, the payment and the fee of each chunk. -/
def planChunks (values : List UInt64) (amount baseFee : UInt64) (maxPer : Nat) :
    Except (Fault SpendError) (Option (List (Nat × UInt64 × UInt64))) :=
  match planPayment values amount baseFee maxPer with
  | .ok plan => .ok (some (plan.chunks.map fun c => (c.stop - c.start, c.amount, c.fee)))
  | .error (.err _) => .ok none
  | .error .panic => .error .panic

/-- The notes with the paths they are spent by. -/
def withPaths (path : Nat → Option (MerklePath P)) (notes : List (OwnedNote W)) :
    Option (List (OwnedNote W × MerklePath P)) :=
  notes.mapM fun n => (path n.position).map (n, ·)

/-- Each chunk takes the next notes of the list. -/
def cutChunks (path : Nat → Option (MerklePath P)) :
    List (Nat × UInt64 × UInt64) → List (OwnedNote W) → Except (Fault SpendError) (List (Chunk W))
  | [], _ => .ok []
  | (count, pay, fee) :: plan, candidates => do
    require (count ≤ candidates.length) .panic
    let inputs ← ofOption (.err .noWitnessPath) (withPaths path (candidates.take count))
    let chunks ← cutChunks path plan (candidates.drop count)
    .ok (⟨inputs, pay, fee⟩ :: chunks)

/-- The plan over some candidates, the most valuable first, and their total value. -/
def planSpend (path : Nat → Option (MerklePath P)) (candidates : List (OwnedNote W)) (amount fee : UInt64) :
    Except (Fault SpendError) (Option (List (Chunk W)) × UInt64) := do
  let sorted := candidates.insertionSort fun a b => b.value ≤ a.value
  let values := sorted.map OwnedNote.value
  let available ← ofOption .panic (checkedSum values)
  let plan ← planChunks values amount fee maxSpendsPerTx
  match plan with
  | none => .ok (none, available)
  | some plan => do
    let chunks ← cutChunks path plan sorted
    .ok (some chunks, available)

/-! ## The two ways of a send -/

variable (e : WalletEntry W)

/-- `advance_spend_witnesses_bounded` (lib.rs:1752) -/
def WalletEntry.advanceSpendWitnessesBounded : WalletEntry W :=
  match e.maturedLeaves with
  | none => e
  | some matured =>
    if e.db.notes.length ≤ EAGER_WARM_MAX_NOTES ∨ matured - e.db.witnessedUpto ≤ SPEND_CLIMB_INLINE_MAX then
      { e with db := (e.db.advanceWitnessesCapped matured (U64_BOUND - 1)).1 }
    else e

/-- The fast path; `none`: the chain has to be replayed. -/
def selectSend (amount fee : UInt64) : Except (Fault SpendError) (Option (List (Chunk W))) :=
  match e.maturedLeaves with
  | none => .ok none
  | some matured => do
    let (candidates, stranded) ← ofOption .panic (maturedCandidates e.db matured)
    let (chunks, available) ← planSpend (e.db.witnessPathAt · matured) candidates amount fee
    match chunks with
    | some (chunk :: chunks) => .ok (some (chunk :: chunks))
    | _ => if e.caughtUp then .error (.err (.insufficientFunds available stranded)) else .ok none

/-- A chain block as the replay reads it, its coinbase notes and its actions decoded. -/
structure ReplayBlock where
  blueScore : UInt64
  coinbase : List (CoinbaseNoteDesc × UInt64)
  compact : List (List CompactActionRecord)

structure ReplayPage where
  reorged : Bool
  sinkBlueScore : UInt64
  blocks : List ReplayBlock

/-- The loop over the pages, up to the first block that is not matured or the first empty page; with no
page left the node has failed. -/
def replayPages (db : WalletDb W) : List ReplayPage → Except (Fault SpendError) (WalletDb W)
  | [] => .error (.err .replayFailed)
  | page :: pages =>
    if page.reorged then .error (.err .replayFailed)
    else do
      let cutoff := saturatingSub page.sinkBlueScore (DEFAULT_ANCHOR_DEPTH + ANCHOR_SLACK)
      let matured := page.blocks.takeWhile fun b => decide (b.blueScore ≤ cutoff)
      let db ← ofOption .panic (matured.foldlM (fun db b => db.ingest (.compact b.coinbase b.compact) none) db)
      if matured.length < page.blocks.length ∨ matured = [] then .ok db else replayPages db pages

/-- `replay_matured` (lib.rs:1797) -/
def replayMatured (db : WalletDb W) (frontier : FrontierState) (pages : List ReplayPage) :
    Except (Fault SpendError) (WalletDb W) := do
  let db ← ofOption (.err .replayFailed) (db.applyFrontier frontier)
  replayPages db pages

/-- The fallback: the notes of the replayed wallet, at its own tip. -/
def selectReplay (W : WalletPrim P) (seed : Bytes32) (frontier : FrontierState) (pages : List ReplayPage)
    (amount fee : UInt64) :
    Except (Fault SpendError) (List (Chunk W)) := do
  let fresh ← ofOption (.err .badSeed) (WalletDb.fromSeed W seed)
  let db ← replayMatured fresh frontier pages
  let (chunks, available) ← planSpend (db.witnessPathAt · db.size) db.notes amount fee
  ofOption (.err (.insufficientFunds available 0)) chunks

/-! ## Consolidation -/

/-- The selection of `wallet_consolidate` (lib.rs:3622). -/
def selectConsolidate (baseFee : UInt64) : Except (Fault SpendError) (Chunk W) :=
  match e.maturedLeaves with
  | none => .error (.err .stillSyncing)
  | some matured => do
    let (candidates, _) ← ofOption .panic (maturedCandidates e.db matured)
    let smallest := (candidates.insertionSort fun a b => a.value ≤ b.value).take maxSpendsPerTx
    let sum ← ofOption .panic (checkedSum (smallest.map OwnedNote.value))
    require (2 ≤ smallest.length) (.err .nothingToConsolidate)
    let fee ← ofOption .panic (chunkFee baseFee smallest.length)
    require (fee < sum) (.err (.notWorthTheFee sum fee))
    let inputs ← ofOption (.err .noWitnessPath) (withPaths (e.db.witnessPathAt · matured) smallest)
    .ok ⟨inputs, sum - fee, fee⟩

/-! ## What is chosen -/

/-- The chunks spend different notes, all of them in the list. -/
structure ChosenFrom (notes : List (OwnedNote W)) (chunks : List (Chunk W)) : Prop where
  nodup : (chunks.flatMap Chunk.positions).Nodup
  listed : ∀ p ∈ chunks.flatMap Chunk.positions, p ∈ notes.map (·.position)

variable {path : Nat → Option (MerklePath P)} {notes : List (OwnedNote W)} {inputs : List (OwnedNote W × MerklePath P)}

theorem withPaths_notes
    (h : withPaths path notes = some inputs) : inputs.map (·.1) = notes := by
  induction notes generalizing inputs with
  | nil =>
    cases h
    rfl
  | cons n notes ih =>
    rw [withPaths, mapM_cons] at h
    obtain ⟨input, found, h⟩ := bind_eq_some_iff.mp h
    obtain ⟨rest, others, h⟩ := bind_eq_some_iff.mp h
    cases h
    obtain ⟨p, -, rfl⟩ := map_eq_some_iff.mp found
    rw [map_cons, ih others]

theorem withPaths_positions
    (h : withPaths path notes = some inputs) (pay fee : UInt64) :
    Chunk.positions ⟨inputs, pay, fee⟩ = notes.map (·.position) := by
  rw [← withPaths_notes h, List.map_map]
  rfl

variable {candidates : List (OwnedNote W)} {chunks : List (Chunk W)}

theorem cutChunks_inputs {plan : List (Nat × UInt64 × UInt64)}
    (h : cutChunks path plan candidates = .ok chunks) :
    chunks.flatMap Chunk.positions <+: candidates.map (·.position) := by
  induction plan generalizing candidates chunks with
  | nil =>
    cases h
    exact nil_prefix
  | cons part plan ih =>
    obtain ⟨count, pay, fee⟩ := part
    rw [cutChunks] at h
    obtain ⟨-, h⟩ := require_bind_eq_ok_iff.mp h
    obtain ⟨inputs, found, h⟩ := bind_eq_ok_iff.mp h
    obtain ⟨rest, others, h⟩ := bind_eq_ok_iff.mp h
    cases h
    have taken := withPaths_positions (ofOption_eq_ok_iff.mp found) pay fee
    have split : candidates.map (·.position) =
        (candidates.take count).map (·.position) ++ (candidates.drop count).map (·.position) := by
      rw [← map_append, take_append_drop]
    rw [flatMap_cons, taken, split]
    exact (prefix_append_right_inj _).mpr (ih others)

theorem planSpend_chosen {amount fee available : UInt64}
    (nodup : (candidates.map (·.position)).Nodup)
    (h : planSpend path candidates amount fee = .ok (some chunks, available)) : ChosenFrom candidates chunks := by
  obtain ⟨sum, -, h⟩ := bind_eq_ok_iff.mp h
  obtain ⟨plan, -, h⟩ := bind_eq_ok_iff.mp h
  cases plan with
  | none => cases h
  | some plan =>
    obtain ⟨cut, found, h⟩ := bind_eq_ok_iff.mp h
    cases h
    have front := (cutChunks_inputs found).sublist
    have sorted := (perm_insertionSort (fun a b : OwnedNote W => b.value ≤ a.value) candidates).map (·.position)
    exact
      { nodup := (sorted.nodup_iff.mpr nodup).sublist front
        listed := fun p hp => sorted.mem_iff.mp (front.subset hp) }

theorem maturedCandidates_sublist {db : WalletDb W} {matured : Nat} {stranded : UInt64}
    (h : maturedCandidates db matured = some (candidates, stranded)) : candidates.Sublist db.notes := by
  obtain ⟨value, -, h⟩ := bind_eq_some_iff.mp h
  cases h
  exact filter_sublist

theorem ChosenFrom.mono {notes' : List (OwnedNote W)} (h : ChosenFrom notes chunks)
    (sub : notes.Sublist notes') : ChosenFrom notes' chunks :=
  ⟨h.nodup, fun p hp => (sub.map _).subset (h.listed p hp)⟩

variable {e : WalletEntry W}

theorem selectSend_chosen {amount fee : UInt64}
    (nodup : (e.db.notes.map (·.position)).Nodup) (h : selectSend e amount fee = .ok (some chunks)) :
    ChosenFrom e.db.notes chunks := by
  unfold selectSend at h
  split at h
  · cases h
  · obtain ⟨⟨candidates, stranded⟩, matured, h⟩ := bind_eq_ok_iff.mp h
    obtain ⟨⟨planned, available⟩, plan, h⟩ := bind_eq_ok_iff.mp h
    have sub := maturedCandidates_sublist (ofOption_eq_ok_iff.mp matured)
    dsimp only at h
    split at h
    · cases h
      exact (planSpend_chosen (nodup.sublist (sub.map _)) plan).mono sub
    · split at h <;> cases h

theorem selectConsolidate_chosen {baseFee : UInt64} {chunk : Chunk W}
    (nodup : (e.db.notes.map (·.position)).Nodup) (h : selectConsolidate e baseFee = .ok chunk) :
    ChosenFrom e.db.notes [chunk] := by
  unfold selectConsolidate at h
  split at h
  · cases h
  · obtain ⟨⟨candidates, stranded⟩, matured, h⟩ := bind_eq_ok_iff.mp h
    obtain ⟨sum, -, h⟩ := bind_eq_ok_iff.mp h
    obtain ⟨-, h⟩ := require_bind_eq_ok_iff.mp h
    obtain ⟨fee, -, h⟩ := bind_eq_ok_iff.mp h
    obtain ⟨-, h⟩ := require_bind_eq_ok_iff.mp h
    obtain ⟨inputs, found, h⟩ := bind_eq_ok_iff.mp h
    cases h
    have sub := (maturedCandidates_sublist (ofOption_eq_ok_iff.mp matured)).map (·.position)
    have sorted := (perm_insertionSort (fun a b : OwnedNote W => a.value ≤ b.value) candidates).map (·.position)
    have smallest := ((take_sublist maxSpendsPerTx
      (candidates.insertionSort fun a b : OwnedNote W => a.value ≤ b.value)).map (·.position))
    have positions := withPaths_positions (ofOption_eq_ok_iff.mp found) (sum - fee) fee
    constructor
    · rw [flatMap_singleton, positions]
      exact (sorted.nodup_iff.mpr (nodup.sublist sub)).sublist smallest
    · rw [flatMap_singleton, positions]
      exact fun p hp => sub.subset (sorted.mem_iff.mp (smallest.subset hp))

/-! ## Books that are in order -/

namespace WalletDb

variable {db db' : WalletDb W}

/-- Held notes have positions of their own, inside the stream, and are listed in order. -/
abbrev InOrder (db : WalletDb W) : Prop := Accounts False [] db

variable {op : WalletOp P}

theorem InOrder.follows (h : db.InOrder) (hdb : Follows db db') : db'.InOrder := by
  obtain ⟨ops, -, hrun⟩ := hdb
  have books := accounts_run h (fun never => never.elim) hrun
  exact { books with accounted := fun n hn => nomatch hn }

theorem InOrder.notes_nodup (h : db.InOrder) : (db.notes.map (·.position)).Nodup := by
  have nodup := h.nodup
  rw [held, map_append] at nodup
  exact (nodup_append.mp nodup).1

theorem InOrder.not_parked (h : db.InOrder) {p : Nat} (listed : p ∈ db.notes.map (·.position)) :
    ∀ s ∈ db.pendingSpends, s.note.position ≠ p := by
  intro s hs same
  have nodup := h.nodup
  rw [held, map_append] at nodup
  refine (nodup_append.mp nodup).2.2 p listed p ?_ rfl
  rw [← same]
  exact mem_map_of_mem (mem_map_of_mem hs)

/-- Nothing new is parked, and what was seen stays seen. -/
structure Settles (db db' : WalletDb W) : Prop where
  pending : db'.pendingSpends.Sublist db.pendingSpends
  spent : db.spentNullifiers ⊆ db'.spentNullifiers

theorem Settles.of_same (pending : db'.pendingSpends = db.pendingSpends)
    (spent : db'.spentNullifiers = db.spentNullifiers) :
    Settles db db' := ⟨by rw [pending], by rw [spent]⟩

theorem Settles.trans {db'' : WalletDb W} (h : Settles db db') (h' : Settles db' db'') : Settles db db'' :=
  ⟨h'.pending.trans h.pending, h.spent.trans h'.spent⟩

theorem settles_events {es : List (WalletEvent W)} (h : db.events es = some db') : Settles db db' := by
  induction h using foldlM_induction with
  | nil => exact .of_same rfl rfl
  | cons ev es db db₁ first _ ih =>
    have step : Settles db db₁ := by
      cases ev with
      | leaf cmx owned =>
        obtain ⟨-, rfl⟩ := appendLeaf_eq first
        exact .of_same rfl rfl
      | reveal nf =>
        cases first
        exact ⟨filter_sublist, Finset.subset_insert _ _⟩
    exact step.trans (ih)

theorem settles_apply (quiet : op.parks = false) (h : db.apply op = some db') : Settles db db' := by
  cases op with
  | ingest block info =>
    have books : Settles db.books db'.books := settles_events (ingest_events h)
    exact ⟨books.pending, books.spent⟩
  | markSpent position txid submittedDaa => cases quiet
  | reclaimExpired now maxAge =>
    cases h
    exact ⟨filter_sublist, Finset.Subset.refl _⟩
  | setWitnessBudget _ | advanceWitnessesCapped _ _ | advanceBaseCapped _ _ | installWitness _ _ | warmLeaves =>
    have same := (apply_upkeep rfl h).1
    exact .of_same (congrArg WalletDb.pendingSpends same :) (congrArg WalletDb.spentNullifiers same :)

theorem Follows.settles (h : Follows db db') : Settles db db' := by
  obtain ⟨ops, quiet, hrun⟩ := h
  induction hrun using foldlM_induction with
  | nil => exact .of_same rfl rfl
  | cons op ops db db₁ first _ ih =>
    have rest := ih (fun op hop => quiet op (mem_cons_of_mem _ hop))
    exact (settles_apply (quiet op mem_cons_self) first).trans rest

theorem markSpent_spent (db : WalletDb W) (position : Nat) (txid : Bytes32) (daa : UInt64) :
    (db.markSpent position txid daa).spentNullifiers = db.spentNullifiers := by
  unfold markSpent
  split <;> rfl

/-- `mark_spent` parks the note at the position it is given, or nothing. -/
theorem markSpent_pending (db : WalletDb W) (position : Nat) (txid : Bytes32) (daa : UInt64) :
    ∀ s ∈ (db.markSpent position txid daa).pendingSpends, s ∈ db.pendingSpends ∨ s.note.position = position := by
  intro s hs
  unfold markSpent at hs
  split at hs
  · rename_i note found
    rcases mem_append.mp hs with old | new
    · exact .inl old
    · obtain rfl := mem_singleton.mp new
      exact .inr (by simpa using find?_some found)
  · exact .inl hs

end WalletDb

/-! ## The replayed wallet -/

variable {pages : List ReplayPage}

theorem replayPages_inOrder {db db' : WalletDb W} (h : db.InOrder) (hp : replayPages db pages = .ok db') :
    db'.InOrder := by
  induction pages generalizing db with
  | nil => cases hp
  | cons page pages ih =>
    rw [replayPages] at hp
    by_cases reorged : page.reorged
    · rw [if_pos reorged] at hp
      cases hp
    · rw [if_neg reorged] at hp
      obtain ⟨db₁, ingested, hp⟩ := bind_eq_ok_iff.mp hp
      have first := h.follows (.ingests (fun b : ReplayBlock => .compact b.coinbase b.compact) (fun _ => none)
        (ofOption_eq_ok_iff.mp ingested))
      split at hp
      · cases hp
        exact first
      · exact ih first hp

theorem selectReplay_nodup {seed : Bytes32} {frontier : FrontierState} {amount fee : UInt64}
    (h : selectReplay W seed frontier pages amount fee = .ok chunks) :
    (chunks.flatMap Chunk.positions).Nodup := by
  obtain ⟨fresh, opened, h⟩ := bind_eq_ok_iff.mp h
  obtain ⟨db, replayed, h⟩ := bind_eq_ok_iff.mp h
  obtain ⟨⟨planned, available⟩, plan, h⟩ := bind_eq_ok_iff.mp h
  obtain ⟨start, rooted, pages⟩ := bind_eq_ok_iff.mp replayed
  obtain ⟨fvk, -, rfl⟩ := map_eq_some_iff.mp (ofOption_eq_ok_iff.mp opened)
  have started : WalletDb.Started start := .frontier (ofOption_eq_ok_iff.mp rooted)
  have books := replayPages_inOrder started.accounts pages
  cases planned with
  | none => cases h
  | some planned =>
    cases h
    exact (planSpend_chosen books.notes_nodup plan).nodup

end Firecash
