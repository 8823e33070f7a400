import Firecash.Wallet.CompactIngest
import Firecash.Wallet.Found

/-!
# The preview of an unsettled block (shielded-core/src/walletdb.rs)

A block near the tip is not ingested, because its leaves could not be taken back; `preview_block` reads
off it what it would do to the balance.

A transaction that spends a note of ours counts as outgoing, and what it pays back is taken off that with
saturation: where it pays us more than it takes, the difference is in neither number. So the preview
predicts the balance exactly if no transaction of the block does that (`preview_predicts`). Sums are of
`u64` values in `u128`, and do not overflow.
-/

namespace Firecash

open Checked List Option OwnedNote

variable {P : Prim} {W : WalletPrim P}

/-- `Preview` (walletdb.rs:154) -/
structure Preview where
  incoming : Nat
  outgoing : Nat
  deriving DecidableEq

/-- A transaction as both forms of ingest read it: its effects, and what the key finds in it. -/
abbrev ReadTx (W : WalletPrim P) := List ActionEffect × List (ReceivedNote W)

/-- What a transaction pays to the key. -/
def ReadTx.paid (tx : ReadTx W) : Nat := natSum (tx.2.map fun r => W.noteValue r.note)

def ReadTx.nullifiers (tx : ReadTx W) : List NullifierBytes := tx.1.map (·.1)

namespace WalletDb

variable (db : WalletDb W)

/-- `balance` (walletdb.rs:443) -/
def balance : Nat := natSum (db.notes.map value)

/-- The notes that the preview sees spent: for each action the first with its nullifier. -/
def spentBy (tx : ReadTx W) : Nat :=
  natSum (tx.nullifiers.filterMap fun nf => (db.notes.find? (·.nullifier == nf)).map value)

/-- Does a transaction reveal a nullifier that was seen before? -/
def drops (tx : ReadTx W) : Bool := tx.1.any fun e => decide (e.1 ∈ db.spentNullifiers)

def previewCoinbaseNote (p : Preview) (note : CoinbaseNoteDesc × UInt64) : Preview :=
  if (recoverCoinbaseNote db.fvk note.1 note.2).isSome then { p with incoming := p.incoming + note.2.toNat } else p

def previewTx (p : Preview) (tx : ReadTx W) : Preview :=
  if db.drops tx then p
  else
    let spent := db.spentBy tx
    let received := tx.paid
    -- our own spend: what it pays us is change
    if 0 < spent then { p with outgoing := p.outgoing + (spent - received) }
    else { p with incoming := p.incoming + received }

/-- `preview_block` (walletdb.rs:857) -/
def previewBlock (coinbase : List (CoinbaseNoteDesc × UInt64)) (txs : List (ShieldedBundle P)) : Preview :=
  txs.foldl (fun p b => db.previewTx p (actionEffects b.actions, scanBundlePrepared db.fvk b.actions))
    (coinbase.foldl db.previewCoinbaseNote ⟨0, 0⟩)

/-- `preview_block_compact` (walletdb.rs:898) -/
def previewBlockCompact (coinbase : List (CoinbaseNoteDesc × UInt64)) (txs : List (List CompactActionRecord)) :
    Preview :=
  txs.foldl (fun p r => db.previewTx p (recordEffects r, scanCompactPrepared db.fvk r))
    (coinbase.foldl db.previewCoinbaseNote ⟨0, 0⟩)

/-- The preview of a block; `none`: there is none for blocks with computed leaves. -/
def preview : WalletBlock P → Option Preview
  | .full coinbase txs => some (db.previewBlock coinbase txs)
  | .compact coinbase txs => some (db.previewBlockCompact coinbase txs)
  | .precomputed .. | .compactPrecomputed .. => none

/-! ## The transactions that count -/

/-- The transactions that do not spend again what was spent before the block. -/
def kept (txs : List (ReadTx W)) : List (ReadTx W) := txs.filter fun tx => !db.drops tx

variable {db db' : WalletDb W} {tx : ReadTx W} {txs : List (ReadTx W)}

theorem kept_of_drops (dropped : db.drops tx) : db.kept (tx :: txs) = db.kept txs :=
  filter_cons_of_neg (by simpa using dropped)

theorem kept_of_keeps (keeps : ¬ db.drops tx) : db.kept (tx :: txs) = tx :: db.kept txs :=
  filter_cons_of_pos (by simpa using keeps)

theorem foldl_previewTx (db : WalletDb W) (txs : List (ReadTx W)) (p : Preview) :
    txs.foldl db.previewTx p =
      ⟨p.incoming + ((db.kept txs).map fun tx => if 0 < db.spentBy tx then 0 else tx.paid).sum,
        p.outgoing + ((db.kept txs).map fun tx => if 0 < db.spentBy tx then db.spentBy tx - tx.paid else 0).sum⟩ := by
  induction txs generalizing p with
  | nil => rfl
  | cons tx txs ih =>
    rw [foldl_cons, ih, previewTx]
    by_cases dropped : db.drops tx
    · rw [if_pos dropped, kept_of_drops dropped]
    · rw [if_neg dropped, kept_of_keeps dropped]
      by_cases spends : 0 < db.spentBy tx
      · simp [spends, Nat.add_assoc]
      · simp [spends, Nat.add_assoc]

/-- A transaction is dropped for a nullifier seen before the block, since those of the block are distinct. -/
theorem txsEvents_eq {spent : Finset NullifierBytes}
    (distinct : ((txs.filter fun tx => !tx.1.any fun e => decide (e.1 ∈ spent)).flatMap ReadTx.nullifiers).Nodup) :
    txsEvents spent txs = (txs.filter fun tx => !tx.1.any fun e => decide (e.1 ∈ spent)).flatMap txEvents := by
  induction txs generalizing spent with
  | nil => rfl
  | cons tx txs ih =>
    rw [txsEvents]
    by_cases dropped : tx.1.any fun e => decide (e.1 ∈ spent)
    · rw [filter_cons_of_neg (by simpa using dropped)] at distinct ⊢
      rw [if_pos dropped]
      exact ih distinct
    · rw [filter_cons_of_pos (by simpa using dropped)] at distinct ⊢
      rw [flatMap_cons] at distinct ⊢
      rw [if_neg dropped]
      obtain ⟨-, rest, apart⟩ := nodup_append.mp distinct
      -- what this one reveals drops none of the others
      have same : (txs.filter fun t => !t.1.any fun e => decide (e.1 ∈ spent ∪ (tx.1.map (·.1)).toFinset)) =
          txs.filter fun t => !t.1.any fun e => decide (e.1 ∈ spent) := by
        refine filter_congr fun t ht => congrArg _ ?_
        by_cases gone : t.1.any fun e => decide (e.1 ∈ spent)
        · rw [gone]
          obtain ⟨e, he, seen⟩ := any_eq_true.mp gone
          exact any_eq_true.mpr ⟨e, he, decide_eq_true (Finset.mem_union_left _ (of_decide_eq_true seen))⟩
        · rw [Bool.not_eq_true] at gone
          rw [gone, List.any_eq_false]
          intro e he seen
          rcases Finset.mem_union.mp (of_decide_eq_true seen) with old | new
          · exact any_eq_false.mp gone e he (decide_eq_true old)
          · have stays : t ∈ txs.filter fun t => !t.1.any fun e => decide (e.1 ∈ spent) :=
              mem_filter.mpr ⟨ht, by rw [gone]; rfl⟩
            exact apart e.1 (mem_toFinset.mp new) e.1
              (mem_flatMap.mpr ⟨t, stays, mem_map_of_mem he⟩) rfl
      rw [ih (by rw [same]; exact rest), same]

/-! ## The balance after the events of a block -/

/-- What is left of the notes, and what the events add, where they reveal none of the notes they add. -/
theorem events_balance {es : List (WalletEvent W)} (h : db.events es = some db')
    (fresh : ∀ note ∈ createdNotes es, W.noteNullifier db.fvk note ∉ revealed es) :
    db'.balance = natSum ((db.notes.filter fun n => decide (n.nullifier ∉ revealed es)).map value) +
      natSum (eventValues es) := by
  induction es generalizing db with
  | nil =>
    cases h
    simp [balance, eventValues, createdNotes]
  | cons e es ih =>
    obtain ⟨db₁, he, h⟩ := bind_eq_some_iff.mp h
    cases e with
    | leaf cmx owned =>
      obtain ⟨-, rfl⟩ := appendLeaf_eq he
      rw [revealed_leaf] at fresh ⊢
      cases owned with
      | none =>
        have rest := ih h fresh
        have values : eventValues (WalletEvent.leaf cmx none :: es) = eventValues es := rfl
        rw [values]
        simpa using rest
      | some note =>
        have rest := ih h fun n hn => fresh n (mem_cons_of_mem _ hn)
        have stays : W.noteNullifier db.fvk note ∉ revealed es := fresh note mem_cons_self
        have values : eventValues (WalletEvent.leaf cmx (some note) :: es) = W.noteValue note :: eventValues es := rfl
        rw [rest, values, natSum_cons]
        simp [filter_append, stays, value]
        omega
    | reveal nf =>
      cases he
      have rest := ih h fun n hn seen => fresh n hn (by rw [revealed_reveal]; exact Finset.mem_insert_of_mem seen)
      rw [rest, revealed_reveal]
      have left : (db.reveal nf).notes.filter (fun n => decide (n.nullifier ∉ revealed es)) =
          db.notes.filter fun n => decide (n.nullifier ∉ insert nf (revealed es)) := by
        rw [reveal, List.filter_filter]
        refine filter_congr fun n _ => ?_
        by_cases same : n.nullifier = nf <;> simp [same]
      rw [left]
      rfl

/-- The notes whose nullifiers a transaction reveals. -/
def takenBy (db : WalletDb W) (tx : ReadTx W) : Nat :=
  natSum ((db.notes.filter fun n => decide (n.nullifier ∈ tx.nullifiers)).map value)

/-- Transactions with distinct nullifiers take distinct notes. -/
theorem sum_takenBy (db : WalletDb W) (distinct : (txs.flatMap ReadTx.nullifiers).Nodup) :
    natSum ((db.notes.filter fun n => decide (n.nullifier ∈ txs.flatMap ReadTx.nullifiers)).map value) =
      (txs.map db.takenBy).sum := by
  induction txs with
  | nil => simp
  | cons tx txs ih =>
    obtain ⟨-, rest, apart⟩ := nodup_append.mp distinct
    rw [map_cons, sum_cons, ← ih rest, takenBy]
    have parts := natSum_filter_or value (p := fun n : OwnedNote W => decide (n.nullifier ∈ tx.nullifiers))
      (q := fun n => decide (n.nullifier ∈ txs.flatMap ReadTx.nullifiers)) (l := db.notes)
      fun n _ here there => apart _ (of_decide_eq_true here) _ (of_decide_eq_true there) rfl
    rw [← parts]
    congr 3
    funext n
    rw [← Bool.decide_or]
    exact decide_eq_decide.mpr mem_append

/-- Where no two notes share a nullifier, the preview sees every note that is taken. -/
theorem spentBy_eq_takenBy (unique : (db.notes.map (·.nullifier)).Nodup) (distinct : tx.nullifiers.Nodup) :
    db.spentBy tx = db.takenBy tx :=
  natSum_find_eq nullifier value distinct unique

end WalletDb

/-! ## Every note found is a leaf -/

/-- What the wallet relies on in a scan: a note has the value it was made of, and an action whose
commitment is not canonical is not decrypted (`reconstruct_action`, `to_compact_action`). -/
structure ScanLaws (W : WalletPrim P) : Prop where
  noteValue_fromParts : ∀ {recipient value rho rseed note}, W.noteFromParts recipient value rho rseed = some note →
    W.noteValue note = value
  cmx_of_action : ∀ {fvk a}, W.tryNoteDecryption fvk a ≠ none → P.cmxFromBytes a.cmx ≠ none
  cmx_of_record : ∀ {fvk r}, W.tryCompactNoteDecryption fvk r ≠ none → P.cmxFromBytes r.cmx ≠ none

section Scan

variable {α : Type} {l : List α} {effect : α → ActionEffect} (note : α → Option W.Note)
    {received : List (ReceivedNote W)}

/-- A scan is looked up by the index of the action. -/
theorem find_zipIdx {k : Nat} {x : α × Nat} (hx : x ∈ l.zipIdx k) :
    ((l.zipIdx k).filterMap fun y => (note y.1).map (y.2, ·)).find? (·.1 == x.2) = (note x.1).map (x.2, ·) := by
  induction l generalizing k with
  | nil => cases hx
  | cons a l ih =>
    have later : ∀ y ∈ (l.zipIdx (k + 1)).filterMap fun y => (note y.1).map (y.2, ·), k < y.1 := by
      intro y hy
      obtain ⟨z, hz, found⟩ := mem_filterMap.mp hy
      obtain ⟨n, -, rfl⟩ := map_eq_some_iff.mp found
      exact le_snd_of_mem_zipIdx hz
    rw [zipIdx_cons] at hx ⊢
    rw [filterMap_cons]
    rcases mem_cons.mp hx with rfl | hx
    · cases found : note a with
      | none =>
        simp only [map_none]
        rw [find?_eq_none]
        intro y hy same
        have := later y hy
        have := beq_iff_eq.mp same
        omega
      | some n => simp
    · have ne : k ≠ x.2 := by
        have := le_snd_of_mem_zipIdx hx
        omega
      cases found : note a with
      | none =>
        exact ih hx
      | some n =>
        simp only [map_some]
        rw [find?_cons_of_neg (by simpa using ne)]
        exact ih hx

theorem eventValues_scan (found : foundNotes received = l.zipIdx.filterMap fun y => (note y.1).map (y.2, ·))
    (canonical : ∀ a, note a ≠ none → P.cmxFromBytes (effect a).2 ≠ none) :
    eventValues (txEvents (l.map effect, received)) = l.filterMap fun a => (note a).map W.noteValue := by
  have one : ∀ x ∈ l.zipIdx, eventValues (actionEvents received (effect x.1, x.2)) =
      ((note x.1).map W.noteValue).toList := by
    intro x hx
    have owned := find_actionIndex received x.2
    rw [found, find_zipIdx note hx, Option.map_map] at owned
    unfold actionEvents
    cases committed : P.cmxFromBytes (effect x.1).2 with
    | none =>
      have none : note x.1 = none := by
        by_contra some
        exact canonical x.1 some committed
      rw [none]
      rfl
    | some cmx =>
      simp only [map_some, toList_some, owned]
      cases note x.1 <;> rfl
  have first : l = l.zipIdx.map (·.1) := (zipIdx_map_fst 0 l).symm
  rw [txEvents, zipIdx_map, flatMap_map, eventValues, createdNotes, filterMap_flatMap, map_flatMap]
  conv_rhs => rw [first, filterMap_map, filterMap_eq_flatMap_toList]
  refine flatMap_congr fun x hx => ?_
  exact one x hx

theorem paid_scan (found : foundNotes received = l.zipIdx.filterMap fun y => (note y.1).map (y.2, ·))
    (effects : List ActionEffect) :
    ReadTx.paid (effects, received) = natSum (l.filterMap fun a => (note a).map W.noteValue) := by
  have values : received.map (fun r => W.noteValue r.note) = (foundNotes received).map fun x => W.noteValue x.2 := by
    rw [foundNotes, List.map_map]
    rfl
  have first : l = l.zipIdx.map (·.1) := (zipIdx_map_fst 0 l).symm
  rw [ReadTx.paid, values, found, map_filterMap]
  conv_rhs => rw [first, filterMap_map]
  congr 1
  refine filterMap_congr fun x _ => ?_
  rw [Option.map_map]
  rfl

end Scan

/-- A transaction that is kept adds all the notes that the key finds in it. -/
theorem eventValues_block (laws : ScanLaws W) (fvk : W.Fvk) (block : WalletBlock P) :
    ∀ tx ∈ block.txs fvk, natSum (eventValues (txEvents tx)) = ReadTx.paid tx := by
  have full : ∀ actions :
      List ActionWire, natSum (eventValues (txEvents (actionEffects actions, scanBundlePrepared fvk actions))) =
      ReadTx.paid (actionEffects actions, scanBundlePrepared fvk actions) := by
    intro actions
    let note := fun a => (W.tryNoteDecryption fvk a).map (·.1)
    have found : foundNotes (scanBundlePrepared fvk actions) = actions.zipIdx.filterMap fun y =>
        (note y.1).map (y.2, ·) := by
      rw [foundNotes, scanBundlePrepared, map_filterMap]
      refine filterMap_congr fun x _ => ?_
      rw [Option.map_map, Option.map_map]
      rfl
    rw [paid_scan note found, actionEffects, eventValues_scan note found]
    intro a decrypts
    exact laws.cmx_of_action fun none => decrypts (map_eq_none_iff.mpr none)
  have compact : ∀ records : List CompactActionRecord,
      natSum (eventValues (txEvents (recordEffects records, scanCompactPrepared fvk records))) =
        ReadTx.paid (recordEffects records, scanCompactPrepared fvk records) := by
    intro records
    have found : foundNotes (scanCompactPrepared fvk records) =
        records.zipIdx.filterMap fun y => (W.tryCompactNoteDecryption fvk y.1).map (y.2, ·) := by
      rw [foundNotes, scanCompactPrepared, map_filterMap]
      refine filterMap_congr fun x _ => ?_
      rw [Option.map_map]
      rfl
    rw [paid_scan (W.tryCompactNoteDecryption fvk) found, recordEffects,
      eventValues_scan (W.tryCompactNoteDecryption fvk) found fun r decrypts => laws.cmx_of_record decrypts]
  intro tx htx
  cases block with
  | full notes txs | precomputed notes txs =>
    obtain ⟨b, -, rfl⟩ := mem_map.mp htx
    exact full b.actions
  | compact notes txs | compactPrecomputed notes txs =>
    obtain ⟨records, -, rfl⟩ := mem_map.mp htx
    exact compact records

/-! ## The prediction -/

theorem mem_createdNotes_txEvents {tx : ReadTx W} {note : W.Note} (h : note ∈ createdNotes (txEvents tx)) :
    note ∈ tx.2.map (·.note) := by
  obtain ⟨e, he, owned⟩ := mem_filterMap.mp h
  obtain ⟨action, -, he⟩ := mem_flatMap.mp he
  rcases mem_cons.mp he with rfl | he
  · cases owned
  · obtain ⟨cmx, -, rfl⟩ := map_eq_some_iff.mp (mem_toList.mp he)
    obtain ⟨r, found, rfl⟩ := map_eq_some_iff.mp owned
    exact mem_map_of_mem (mem_of_find?_eq_some found)

namespace WalletDb

variable {db db' : WalletDb W}

/-- The notes that a block creates for the wallet. -/
def createdBy (db : WalletDb W) (block : WalletBlock P) : List W.Note :=
  ((block.coinbase W).filterMap fun note => recoverCoinbaseNote db.fvk note.1 note.2.1) ++
    (db.kept (block.txs db.fvk)).flatMap fun tx => tx.2.map (·.note)

/-- The nullifiers that a block reveals. -/
def revealedBy (db : WalletDb W) (block : WalletBlock P) : List NullifierBytes :=
  (db.kept (block.txs db.fvk)).flatMap ReadTx.nullifiers

variable {block : WalletBlock P}

theorem blockEvents_eq (distinct : (db.revealedBy block).Nodup) :
    blockEvents db.fvk db.spentNullifiers block =
      coinbaseEvents db.fvk (block.coinbase W) ++ (db.kept (block.txs db.fvk)).flatMap txEvents := by
  rw [blockEvents, txsEvents_eq distinct]
  rfl

theorem ingest_balance (laws : ScanLaws W) {info : Option BlockMeta} (distinct : (db.revealedBy block).Nodup)
    (fresh : ∀ note ∈ db.createdBy block, W.noteNullifier db.fvk note ∉ db.revealedBy block)
    (h : db.ingest block info = some db') :
    db'.balance + ((db.kept (block.txs db.fvk)).map db.takenBy).sum =
      db.balance + natSum (eventValues (coinbaseEvents db.fvk (block.coinbase W))) +
        ((db.kept (block.txs db.fvk)).map ReadTx.paid).sum := by
  have events := ingest_events h
  rw [blockEvents_eq distinct] at events
  have seen : revealed (coinbaseEvents db.fvk (block.coinbase W) ++ (db.kept (block.txs db.fvk)).flatMap txEvents) =
      (db.revealedBy block).toFinset := by
    rw [revealed_append, revealed_coinbaseEvents, revealed_flatMap, Finset.empty_union]
    rfl
  have after : db'.books.balance = _ := events_balance events (by
    intro note hn
    rw [seen, List.mem_toFinset]
    refine fresh note ?_
    rw [createdNotes_append, createdNotes_coinbase] at hn
    rcases mem_append.mp hn with coinbase | hn
    · exact mem_append_left _ coinbase
    · refine mem_append_right _ ?_
      obtain ⟨e, he, owned⟩ := mem_filterMap.mp hn
      obtain ⟨tx, htx, he⟩ := mem_flatMap.mp he
      exact mem_flatMap.mpr ⟨tx, htx, mem_createdNotes_txEvents (mem_filterMap.mpr ⟨e, he, owned⟩)⟩)
  have paid : ∀ txs : List (ReadTx W), (∀ tx ∈ txs, natSum (eventValues (txEvents tx)) = tx.paid) →
      natSum (eventValues (txs.flatMap txEvents)) = (txs.map ReadTx.paid).sum := by
    intro txs exact
    induction txs with
    | nil => rfl
    | cons tx txs ih =>
      obtain ⟨one, rest⟩ := forall_mem_cons.mp exact
      rw [flatMap_cons, eventValues_append, natSum_append, one, ih rest, map_cons, sum_cons]
  have paid :=
    paid (db.kept (block.txs db.fvk)) fun tx htx => eventValues_block laws db.fvk block tx (mem_of_mem_filter htx)
  rw [seen, eventValues_append, natSum_append, paid] at after
  have taken := db.sum_takenBy distinct
  have parts := natSum_filter value (fun n : OwnedNote W => decide (n.nullifier ∈ db.revealedBy block)) db.notes
  have rest : (db.notes.filter fun n => !decide (n.nullifier ∈ db.revealedBy block)) =
      db.books.notes.filter fun n => decide (n.nullifier ∉ (db.revealedBy block).toFinset) := by
    refine filter_congr fun n _ => ?_
    simp
  rw [rest] at parts
  have before : db.balance = natSum (db.notes.map value) := rfl
  have after' : db'.balance = db'.books.balance := rfl
  have taken : natSum ((db.notes.filter fun n => decide (n.nullifier ∈ db.revealedBy block)).map value) = _ := taken
  omega

theorem foldl_previewCoinbaseNote (laws : ScanLaws W) (coinbase : List (CoinbaseNoteDesc × UInt64)) (p : Preview) :
    coinbase.foldl db.previewCoinbaseNote p =
      { p with incoming := p.incoming + natSum (eventValues (coinbaseEvents db.fvk (committedNotes W coinbase))) } := by
  induction coinbase generalizing p with
  | nil => rfl
  | cons note coinbase ih =>
    obtain ⟨desc, value⟩ := note
    rw [foldl_cons, ih, eventValues_coinbase, eventValues_coinbase, previewCoinbaseNote]
    cases made : W.noteFromParts desc.recipient value desc.rho desc.rseed with
    | none =>
      have lost : recoverCoinbaseNote db.fvk desc value = none := by
        rw [recoverCoinbaseNote, made]
        split <;> rfl
      have skipped : committedNotes W ((desc, value) :: coinbase) = committedNotes W coinbase := by
        simp [committedNotes, coinbaseNoteCommitment, made]
      rw [lost, skipped]
      rfl
    | some note =>
      have kept : committedNotes W ((desc, value) :: coinbase) =
          (desc, value, W.noteCommitment note) :: committedNotes W coinbase := by
        simp [committedNotes, coinbaseNoteCommitment, made]
      rw [kept, filterMap_cons]
      by_cases mine : desc.recipient = W.addressBytes db.fvk
      · have found : recoverCoinbaseNote db.fvk desc value = some note := by
          rw [recoverCoinbaseNote, if_neg (not_not.mpr mine), made]
        simp [found, laws.noteValue_fromParts made, Nat.add_assoc]
      · have lost : recoverCoinbaseNote db.fvk desc value = none := by
          rw [recoverCoinbaseNote, if_pos mine]
        simp [lost]

theorem preview_eq (laws : ScanLaws W) {p : Preview} (hp : db.preview block = some p) :
    p = (block.txs db.fvk).foldl db.previewTx ⟨natSum (eventValues (coinbaseEvents db.fvk (block.coinbase W))), 0⟩ := by
  have start : ∀ coinbase : List (CoinbaseNoteDesc × UInt64), coinbase.foldl db.previewCoinbaseNote ⟨0, 0⟩ =
      ⟨natSum (eventValues (coinbaseEvents db.fvk (committedNotes W coinbase))), 0⟩ := by
    intro coinbase
    rw [foldl_previewCoinbaseNote laws, Nat.zero_add]
  cases block with
  | full coinbase txs =>
    cases hp
    rw [previewBlock, start, WalletBlock.txs, foldl_map]
    rfl
  | compact coinbase txs =>
    cases hp
    rw [previewBlockCompact, start, WalletBlock.txs, foldl_map]
    rfl
  | precomputed coinbase txs => cases hp
  | compactPrecomputed coinbase txs => cases hp

/-- A transaction with its spends in sight takes or pays, whichever is more. -/
theorem sum_paid (db : WalletDb W) (txs : List (ReadTx W)) :
    (txs.map ReadTx.paid).sum + (txs.map fun tx => if 0 < db.spentBy tx then db.spentBy tx - tx.paid else 0).sum =
      (txs.map fun tx => if 0 < db.spentBy tx then 0 else tx.paid).sum +
        (txs.map fun tx => if 0 < db.spentBy tx then max (db.spentBy tx) tx.paid else 0).sum := by
  induction txs with
  | nil => rfl
  | cons tx txs ih =>
    simp only [map_cons, sum_cons]
    split <;> omega

theorem sum_max_eq_iff (db : WalletDb W) (txs : List (ReadTx W)) :
    (txs.map fun tx => if 0 < db.spentBy tx then max (db.spentBy tx) tx.paid else 0).sum = (txs.map db.spentBy).sum ↔
      ∀ tx ∈ txs, 0 < db.spentBy tx → tx.paid ≤ db.spentBy tx := by
  have least : ∀ txs : List (ReadTx W), (txs.map db.spentBy).sum ≤
      (txs.map fun tx => if 0 < db.spentBy tx then max (db.spentBy tx) tx.paid else 0).sum := by
    intro txs
    refine sum_le_sum fun tx _ => ?_
    split <;> omega
  induction txs with
  | nil => simp
  | cons tx txs ih =>
    have := least txs
    simp only [map_cons, sum_cons, forall_mem_cons, ← ih]
    split <;> omega

/-- The preview predicts the balance exactly if the transactions that spend notes of ours take or pay,
whichever is more, what the notes they reveal are worth. Where no two notes share a nullifier, that is:
none of them pays us more than it takes. -/
theorem preview_predicts (laws : ScanLaws W) (block : WalletBlock P) (info : Option BlockMeta) (p : Preview)
    (distinct : (db.revealedBy block).Nodup)
    (fresh : ∀ note ∈ db.createdBy block, W.noteNullifier db.fvk note ∉ db.revealedBy block)
    (hp : db.preview block = some p) (h : db.ingest block info = some db') :
    (db'.balance + p.outgoing = db.balance + p.incoming ↔
      ((db.kept (block.txs db.fvk)).map fun tx => if 0 < db.spentBy tx then max (db.spentBy tx) tx.paid else 0).sum =
        ((db.kept (block.txs db.fvk)).map db.takenBy).sum) ∧
    ((db.notes.map (·.nullifier)).Nodup →
      (db'.balance + p.outgoing = db.balance + p.incoming ↔
        ∀ tx ∈ db.kept (block.txs db.fvk), 0 < db.spentBy tx → tx.paid ≤ db.spentBy tx)) := by
  have change := ingest_balance laws distinct fresh h
  obtain rfl := preview_eq laws hp
  rw [foldl_previewTx]
  have paid := db.sum_paid (db.kept (block.txs db.fvk))
  have general : db'.balance + (0 + ((db.kept (block.txs db.fvk)).map
        fun tx => if 0 < db.spentBy tx then db.spentBy tx - tx.paid else 0).sum) =
      db.balance + (natSum (eventValues (coinbaseEvents db.fvk (block.coinbase W))) + ((db.kept (block.txs db.fvk)).map
        fun tx => if 0 < db.spentBy tx then 0 else tx.paid).sum) ↔
      ((db.kept (block.txs db.fvk)).map fun tx => if 0 < db.spentBy tx then max (db.spentBy tx) tx.paid else 0).sum =
        ((db.kept (block.txs db.fvk)).map db.takenBy).sum := by
    omega
  refine ⟨general, fun unique => general.trans ?_⟩
  have same : (db.kept (block.txs db.fvk)).map db.takenBy = (db.kept (block.txs db.fvk)).map db.spentBy := by
    refine map_congr_left fun tx htx => (spentBy_eq_takenBy unique ?_).symm
    exact (nodup_flatMap.mp distinct).1 tx htx
  rw [same]
  exact db.sum_max_eq_iff _

theorem leafLists_scanLaws : ScanLaws leafLists where
  noteValue_fromParts := by
    intro recipient value rho rseed note h
    cases h
    rfl
  cmx_of_action := fun _ => some_ne_none _
  cmx_of_record := fun _ => some_ne_none _

/-- Spends the note with nullifier 41, and pays `value` to the wallet with key 7 from a note of someone else. -/
def jointSpend (value : Nat) : WalletBlock leafPrim :=
  .full [] [⟨[⟨41, 0, 1, 0, 0, 0, 0, 0⟩, ⟨1000, 0, 2, 0, 0, BitVec.ofNat 4640 (value * 2 ^ 344 + 7), 0, 0⟩], 0, 0⟩]

theorem preview_predicts_jointSpend : ∃ db db' : WalletDb leafLists, ∃ p,
    (fresh (W := leafLists) 7).ingest (.full [(minedNote, 5)] []) none = some db ∧ db.preview (jointSpend 2) = some p ∧
    db.ingest (jointSpend 2) none = some db' ∧ db'.balance + p.outgoing = db.balance + p.incoming := by
  have reached : ((fresh (W := leafLists) 7).ingest (.full [(minedNote, 5)] []) none).any fun db =>
      decide ((db.revealedBy (jointSpend 2)).Nodup ∧
        (∀ note ∈ db.createdBy (jointSpend 2), leafLists.noteNullifier db.fvk note ∉ db.revealedBy (jointSpend 2)) ∧
        (db.notes.map (·.nullifier)).Nodup ∧
        (∀ tx ∈ db.kept ((jointSpend 2).txs db.fvk), 0 < db.spentBy tx → tx.paid ≤ db.spentBy tx) ∧
        (db.ingest (jointSpend 2) none).isSome) := by decide +kernel
  obtain ⟨db, hdb, facts⟩ := (Option.any_eq_true ..).mp reached
  obtain ⟨distinct, new, unique, covered, total⟩ := of_decide_eq_true facts
  obtain ⟨db', h⟩ := isSome_iff_exists.mp total
  have predicted := (preview_predicts leafLists_scanLaws (jointSpend 2) none _ distinct new rfl h).2 unique
  exact ⟨db, db', _, hdb, rfl, h, predicted.mpr covered⟩

/-- A transaction that takes 1 from the wallet and pays it 5 is in neither number of the preview, and the
balance rises by 4. -/
theorem preview_misses_income : ∃ db db' : WalletDb leafLists, ∃ p,
    (fresh (W := leafLists) 7).ingest (.full [(minedNote, 1)] []) none = some db ∧
      (db.revealedBy (jointSpend 5)).Nodup ∧
    (∀ note ∈ db.createdBy (jointSpend 5), leafLists.noteNullifier db.fvk note ∉ db.revealedBy (jointSpend 5)) ∧
    db.preview (jointSpend 5) = some p ∧ db.ingest (jointSpend 5) none = some db' ∧
    db.balance = 1 ∧ p = ⟨0, 0⟩ ∧ db'.balance = 5 := by
  have reached : ((fresh (W := leafLists) 7).ingest (.full [(minedNote, 1)] []) none).any fun db =>
      decide ((db.revealedBy (jointSpend 5)).Nodup ∧
        (∀ note ∈ db.createdBy (jointSpend 5), leafLists.noteNullifier db.fvk note ∉ db.revealedBy (jointSpend 5)) ∧
        db.preview (jointSpend 5) = some ⟨0, 0⟩ ∧ db.balance = 1 ∧
        (db.ingest (jointSpend 5) none).any fun db' => decide (db'.balance = 5)) := by decide +kernel
  obtain ⟨db, hdb, facts⟩ := (Option.any_eq_true ..).mp reached
  obtain ⟨distinct, new, previewed, before, after⟩ := of_decide_eq_true facts
  obtain ⟨db', h, after⟩ := (Option.any_eq_true ..).mp after
  exact ⟨db, db', _, hdb, distinct, new, previewed, h, before, rfl, of_decide_eq_true after⟩

end WalletDb

end Firecash
