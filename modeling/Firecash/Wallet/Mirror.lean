import Firecash.Consensus.ScanArchive
import Firecash.Wallet.Found
import Firecash.Wallet.Session

/-!
# A wallet that replays the scan archive

A light wallet is fed the archived data of every block of a selected chain. It derives the coinbase
notes again from the transaction id and the output index, reads the 148-byte records back, and has a
drop rule of its own for transactions that reveal a nullifier it has seen.

Block by block it appends the leaves that consensus appended and records the nullifiers that consensus
recorded (`ingest_lists`), so after the chain of a block it has the size, the anchor and the nullifiers that the
node has there (`replay_mirrors`). That needs the nullifiers of a chain to be distinct, which holds in the runs
in which the node's nullifier set is right, `RunResumes`. After a crash that leaves the set behind the node
archives a second spend of a nullifier, the wallet drops it, and the two trees part (`crashed_drifts`).
-/

namespace Firecash

open Checked WalletPrim List Option Except WalletDb ChainTree

variable {P : Prim} {W : WalletPrim P}

/-! ## The client -/

/-- The hashes of `derive_coinbase_note_desc`. -/
structure NoteDerivation where
  /-- `blake2b` to 64 bytes, personalised `zkas_cb_rho_0000`, reduced into the base field. -/
  rhoOf : List UInt8 → Bytes32
  /-- `blake2b` to 32 bytes, personalised `zkas_cb_seed0000`. -/
  seedHash : List UInt8 → Bytes32
  /-- `RandomSeed::from_bytes(seed, rho).is_some()` -/
  validSeed : Bytes32 → Bytes32 → Bool

/-- The candidates from counter `ctr` on; `none`: the counter overflows. -/
def NoteDerivation.findSeed (d : NoteDerivation) (seed : List UInt8) (rho : Bytes32) : Nat → Nat → Option Bytes32
  | 0, _ => none
  | fuel + 1, ctr =>
    let candidate := d.seedHash (seed ++ leBytes 4 ctr)
    if d.validSeed candidate rho then some candidate else d.findSeed seed rho fuel (ctr + 1)

/-- `derive_coinbase_note_desc` (coinbase.rs:64) -/
def deriveCoinbaseNoteDesc (d : NoteDerivation) (recipient : AddressBytes) (seed : List UInt8) :
    Option CoinbaseNoteDesc :=
  (d.findSeed seed (d.rhoOf seed) 4294967296 0).map fun rseed => ⟨recipient, d.rhoOf seed, rseed⟩

/-- `txid ‖ (i as u32)` -/
def noteSeed (txid : Hash) (i : Nat) : List UInt8 := BitVec.bytes (n := 32) txid ++ leBytes 4 i

def ORCHARD_SCRIPT_LEN : Nat := 43

/-- The loop over the coinbase outputs, at index `i`. -/
def clientNotes (d : NoteDerivation) (txid : Hash) (i : Nat) :
    List (List UInt8 × UInt64) → Option (List (CoinbaseNoteDesc × UInt64))
  | [] => some []
  | (script, value) :: outs =>
    if ORCHARD_SCRIPT_LEN ≤ script.length then do
      let desc ← deriveCoinbaseNoteDesc d (BitVec.ofBytes 43 (script.take 43)) (noteSeed txid i)
      let notes ← clientNotes d txid (i + 1) outs
      pure ((desc, value) :: notes)
    else clientNotes d txid (i + 1) outs

/-- What the client makes of a block's data. -/
def clientBlock (P : Prim) (d : NoteDerivation) (data : ShieldedChainBlockData) : Option (WalletBlock P) :=
  (clientNotes d data.coinbaseTxid 0 data.coinbaseOutputs).map fun notes =>
    .compact notes (data.acceptedActions.filterMap decodeCompactActions)

/-- `ingest_shielded_chain_block` (shielded-pay/src/main.rs:453), with any metadata. -/
def WalletDb.ingestShieldedChainBlock (d : NoteDerivation) (db : WalletDb W) (data : ShieldedChainBlockData)
    (info : Option BlockMeta) : Option (WalletDb W) := do
  let block ← clientBlock P d data
  db.ingest block info

/-- What the client shares with consensus: the commitment of a coinbase note is that of the derived
description. -/
def CoinbaseDerived (W : WalletPrim P) (d : NoteDerivation) : Prop :=
  ∀ (script : List UInt8) (txid : Hash) (i : Nat) (value : UInt64), script.length = 43 →
    P.coinbaseCommitment script txid i value =
      (deriveCoinbaseNoteDesc d (BitVec.ofBytes 43 script) (noteSeed txid i)).bind fun desc =>
        coinbaseNoteCommitment W desc value

variable {d : NoteDerivation}

/-- The client's notes commit to what the node minted. -/
theorem clientNotes_committed (derived : CoinbaseDerived W d) {txid : Hash} {i : Nat} {outs : List TransactionOutput}
    {notes : List (CoinbaseNote P)} (h : buildNotes txid i outs = .ok notes) :
    ∃ client, clientNotes d txid i (outs.map fun o => (o.scriptPublicKey.script, o.value)) = some client ∧
      (committedNotes W client).map (·.2.2) = notes.map (·.commitment) := by
  induction outs generalizing i notes with
  | nil =>
    cases h
    exact ⟨[], rfl, rfl⟩
  | cons out outs ih =>
    unfold buildNotes at h
    split at h
    · cases h
    · rename_i long
      split at h
      · cases h
      · rename_i cmx hcmx
        cases hr : buildNotes txid (i + 1) outs with
        | error e =>
          rw [hr] at h
          cases h
        | ok rest =>
          rw [hr] at h
          cases h
          obtain ⟨client, hclient, committed⟩ := ih hr
          have exact43 : (out.scriptPublicKey.script.take 43).length = 43 := length_take_of_le (by omega)
          rw [derived _ txid i out.value exact43] at hcmx
          obtain ⟨desc, hdesc, hcommit⟩ := bind_eq_some_iff.mp hcmx
          refine ⟨(desc, out.value) :: client, ?_, ?_⟩
          · rw [map_cons, clientNotes, if_pos (by unfold ORCHARD_SCRIPT_LEN; omega), hdesc, hclient]
            rfl
          · unfold committedNotes at committed ⊢
            rw [filterMap_cons]
            dsimp only
            rw [hcommit]
            simp [committed]

/-! ## Transactions that are not dropped -/

/-- The drop rule skips no transaction: the events are those of all of them. -/
def SkipsNone (spent : Finset NullifierBytes) (txs : List (List ActionEffect × List (ReceivedNote W))) : Prop :=
  txsEvents spent txs = txs.flatMap txEvents

/-- Distinct nullifiers that were not seen before. -/
theorem skipsNone_of_new {spent : Finset NullifierBytes} {txs : List (List ActionEffect × List (ReceivedNote W))}
    (nodup : (txs.flatMap fun tx => tx.1.map (·.1)).Nodup)
    (new : ∀ nf ∈ txs.flatMap fun tx => tx.1.map (·.1), nf ∉ spent) :
    SkipsNone spent txs := by
  unfold SkipsNone
  induction txs generalizing spent with
  | nil => rfl
  | cons tx txs ih =>
    rw [flatMap_cons] at nodup new
    obtain ⟨-, rest, apart⟩ := nodup_append.mp nodup
    have kept : ¬ (tx.1.any fun e => decide (e.1 ∈ spent)) = true := by
      intro dropped
      obtain ⟨e, he, seen⟩ := any_eq_true.mp dropped
      exact new e.1 (mem_append_left _ (mem_map_of_mem he)) (of_decide_eq_true seen)
    rw [txsEvents, if_neg kept, flatMap_cons]
    congr 1
    refine ih rest fun nf hnf seen => ?_
    rcases Finset.mem_union.mp seen with old | here
    · exact new nf (mem_append_right _ hnf) old
    · exact apart nf (mem_toFinset.mp here) nf hnf rfl

/-- The leaves of a transaction whose commitments are canonical. -/
theorem eventLeaves_txEvents {effects : List ActionEffect} (received : List (ReceivedNote W)) {cmxs : List P.Cmx}
    (h : effects.mapM (fun e => P.cmxFromBytes e.2) = some cmxs) :
    eventLeaves (txEvents (effects, received)) = cmxs := by
  have general : ∀ (effects : List ActionEffect) (k : Nat) (cmxs : List P.Cmx),
      effects.mapM (fun e => P.cmxFromBytes e.2) = some cmxs →
        eventLeaves ((effects.zipIdx k).flatMap (actionEvents received)) = cmxs := by
    intro effects
    induction effects with
    | nil =>
      intro k cmxs h
      cases h
      rfl
    | cons e effects ih =>
      intro k cmxs h
      rw [mapM_cons] at h
      obtain ⟨cmx, hcmx, h⟩ := bind_eq_some_iff.mp h
      obtain ⟨rest, hrest, h⟩ := bind_eq_some_iff.mp h
      cases h
      have later := ih (k + 1) rest hrest
      rw [zipIdx_cons, flatMap_cons, eventLeaves, filterMap_append]
      unfold eventLeaves at later
      rw [later, actionEvents, hcmx]
      rfl
  exact general effects 0 cmxs h

/-! ## One block -/

variable (t : ScannedTx P)

/-- The records of an archived transaction. -/
def ScannedTx.records : List CompactActionRecord := t.bundle.actions.map CompactActionRecord.fromWire

theorem decode_actionBytes : decodeCompactActions (actionBytes t.bundle) = some t.records := by
  have bytes : actionBytes t.bundle = t.records.flatMap CompactActionRecord.toBytes := by
    rw [actionBytes, ScannedTx.records, flatMap_map]
  rw [bytes, decodeCompactActions_flatMap]

/-- The nullifiers and the commitments of the records are those the transition applied. -/
theorem ScannedTx.effects :
    (recordEffects t.records).map (·.1) = t.stx.nullifiers ∧
      (recordEffects t.records).mapM (fun e => P.cmxFromBytes e.2) = some t.stx.commitments := by
  have h := t.extracted
  obtain ⟨cmxs, hcmxs, h⟩ := bind_eq_ok_iff.mp h
  rw [ofOption_eq_ok_iff] at hcmxs
  split at h
  · cases h
  · have h := pure_eq_ok_iff.mp h
    rw [← h, recordEffects, records]
    refine ⟨by simp [Function.comp_def, CompactActionRecord.fromWire], ?_⟩
    rw [← hcmxs, List.map_map, mapM_map]
    rfl

/-- The notes that the key finds in the data of a block. -/
def clientFound (W : WalletPrim P) (d : NoteDerivation) (fvk : W.Fvk) (data : ShieldedChainBlockData) : List W.Note :=
  (clientBlock P d data).elim [] fun block => block.notes fvk

theorem length_of_mapM {α β : Type} {f : α → Option β} {as : List α} {bs : List β} (h : as.mapM f = some bs) :
    bs.length = as.length := by
  induction as generalizing bs with
  | nil =>
    cases h
    rfl
  | cons a as ih =>
    rw [mapM_cons] at h
    obtain ⟨b, -, h⟩ := bind_eq_some_iff.mp h
    obtain ⟨rest, hrest, h⟩ := bind_eq_some_iff.mp h
    cases h
    rw [length_cons, length_cons, ih hrest]

/-- **One block.** A wallet that has not seen the nullifiers of a block ingests its data without a panic,
drops nothing, and appends the leaves that the node appended. -/
theorem ingest_lists (derived : CoinbaseDerived W d) {nfs : List NullifierBytes} {leaves : List P.Cmx}
    {txs : List (ScannedTx P)}
    {data : ShieldedChainBlockData} (lists : ArchiveNode.Lists nfs leaves txs data) {db : WalletDb W}
    (nodup : nfs.Nodup) (new : ∀ nf ∈ nfs, nf ∉ db.spentNullifiers) {found : List W.Note}
    (fits : ∀ block ∈ clientBlock P d data, ∀ tx ∈ block.txs db.fvk, TxFits db.fvk found tx)
    (within : db.Within found (clientFound W d db.fvk data))
    (room : db.size + leaves.length < U64_BOUND) (info : Option BlockMeta) :
    ∃ block db', clientBlock P d data = some block ∧ SkipsNone db.spentNullifiers (block.txs db.fvk) ∧
      db.ingest block info = some db' ∧ eventLeaves (blockEvents db.fvk db.spentNullifiers block) = leaves ∧
      revealed (blockEvents db.fvk db.spentNullifiers block) = nfs.toFinset := by
  obtain ⟨outs, notes, houts, hnotes, hleaves⟩ := lists.leaves
  obtain ⟨client, hclient, committed⟩ := clientNotes_committed derived hnotes
  have decoded : data.acceptedActions.filterMap decodeCompactActions = txs.map ScannedTx.records := by
    rw [lists.actions, filterMap_map]
    simp only [Function.comp_def, decode_actionBytes]
    exact congrFun filterMap_eq_map txs
  generalize hblock : (WalletBlock.compact client (txs.map ScannedTx.records) : WalletBlock P) = block
  have made : clientBlock P d data = some block := by
    rw [clientBlock, houts, hclient, decoded, ← hblock]
    rfl
  have hash : block.txs db.fvk = txs.map fun t => (recordEffects t.records, scanCompactPrepared db.fvk t.records) := by
    rw [← hblock]
    exact map_map ..
  have nullifiers : ((block.txs db.fvk).flatMap fun tx => tx.1.map (·.1)) = nfs := by
    rw [hash, lists.nullifiers, flatMap_map, txNullifiers, flatMap_map]
    exact flatMap_congr fun t _ => t.effects.1
  have skips : SkipsNone db.spentNullifiers (block.txs db.fvk) :=
    skipsNone_of_new (by rw [nullifiers]; exact nodup) (by rw [nullifiers]; exact new)
  have coinbase : (block.coinbase W).map (·.2.2) = notes.map (·.commitment) := by
    rw [← hblock]
    exact committed
  have txLeaves : eventLeaves ((block.txs db.fvk).flatMap txEvents) = txCommitments (txs.map ScannedTx.stx) := by
    rw [hash, flatMap_map, txCommitments, flatMap_map, eventLeaves, filterMap_flatMap]
    exact flatMap_congr fun t _ => eventLeaves_txEvents _ t.effects.2
  have coinbaseLeaves : eventLeaves (coinbaseEvents db.fvk (block.coinbase W)) = notes.map (·.commitment) := by
    rw [← coinbase, eventLeaves, coinbaseEvents, filterMap_map]
    exact congrFun filterMap_eq_map _
  have count : (committedNotes W client).length + ((txs.map ScannedTx.records).map length).sum = leaves.length := by
    have first := congrArg length committed
    rw [length_map, length_map] at first
    rw [first, hleaves, length_append, length_map, txCommitments, length_flatMap, List.map_map, List.map_map]
    congr 2
    refine map_congr_left fun t _ => ?_
    have := length_of_mapM t.effects.2
    rwa [recordEffects, length_map, eq_comm] at this
  have distinct : ∀ records ∈ txs.map ScannedTx.records, (records.map (·.nullifier)).Nodup := by
    intro records hr
    obtain ⟨t, ht, rfl⟩ := mem_map.mp hr
    have own := t.effects.1
    rw [recordEffects, List.map_map] at own
    have part : t.stx.nullifiers.Nodup := by
      rw [lists.nullifiers, txNullifiers, nodup_flatMap] at nodup
      exact nodup.1 t.stx (mem_map_of_mem ht)
    rw [← own] at part
    exact part
  have coming : clientFound W d db.fvk data = block.notes db.fvk := by rw [clientFound, made]; rfl
  have ingested : ∃ db', db.ingest block info = some db' := by
    have fits := fits block made
    rw [coming, ← hblock] at within
    rw [← hblock] at fits ⊢
    exact ingest_compact_total distinct fits within (by omega)
  obtain ⟨db', hdb'⟩ := ingested
  refine ⟨block, db', made, skips, hdb', ?_, ?_⟩
  · rw [blockEvents, skips, eventLeaves, filterMap_append]
    unfold eventLeaves at coinbaseLeaves txLeaves
    rw [coinbaseLeaves, txLeaves, hleaves]
  · rw [blockEvents, skips, revealed_append, revealed_coinbaseEvents, Finset.empty_union, revealed_flatMap,
      nullifiers]

/-! ## The replay of a chain -/

/-- `anchor_at` (processes/shielded.rs:248) -/
def ShieldedStores.anchorAt (s : ShieldedStores P) (block : Hash) : Option P.Anchor := (s.loadTree block).map (·.anchor)

/-- The client's loop over the blocks of a chain. -/
def WalletDb.replay (d : NoteDerivation) (data : Hash → ShieldedChainBlockData) (info : Hash → Option BlockMeta)
    (db : WalletDb W) (blocks : List Hash) : Option (WalletDb W) :=
  blocks.foldlM (fun db b => db.ingestShieldedChainBlock d (data b) (info b)) db

/-- A wallet that has ingested blocks with these leaves and nullifiers, in which the key finds these notes. -/
structure Ingested (leaves : List P.Cmx) (nfs : Finset NullifierBytes) (found : List W.Note) (fvk : W.Fvk)
    (db : WalletDb W) :
    Prop where
  key : db.fvk = fvk
  tracks : ∃ b u, WalletDb.Tracks W.treeEmpty (leaves.map P.fromCmx) b u db
  spent : db.spentNullifiers = nfs
  held : db.Within found []

section Fits

/-- The notes that the key finds on the chain of a block. -/
def foundOnChain (W : WalletPrim P) (d : NoteDerivation) (fvk : W.Fvk) (data : Hash → ShieldedChainBlockData)
    (env : ChainEnv P) (b : Hash) : List W.Note :=
  (env.tree.chain b).flatMap fun a => clientFound W d fvk (data a)

/-- No transaction on the chain of a block pays the key `2^64`, or spends as much of what it has found up to
the block of the transaction. -/
def ValuesFit (W : WalletPrim P) (d : NoteDerivation) (fvk : W.Fvk) (data : Hash → ShieldedChainBlockData)
    (env : ChainEnv P) (b : Hash) : Prop :=
  ∀ a ∈ env.tree.chain b, ∀ block ∈ clientBlock P d (data a), ∀ tx ∈
    block.txs fvk, TxFits fvk (foundOnChain W d fvk data env a) tx

variable {env : ChainEnv P} {data : Hash → ShieldedChainBlockData} {fvk : W.Fvk} {b : Hash}

theorem foundOnChain_of_ne_root (W : WalletPrim P) (d : NoteDerivation) (fvk : W.Fvk)
    (data : Hash → ShieldedChainBlockData) (hne : b ≠ env.tree.root) : foundOnChain W d fvk data env b =
      clientFound W d fvk (data b) ++ foundOnChain W d fvk data env (env.tree.parent b) := by
  rw [foundOnChain, foundOnChain, chain_of_ne_root hne, flatMap_cons]

theorem ValuesFit.parent (h : ValuesFit W d fvk data env b) (hne : b ≠ env.tree.root) :
    ValuesFit W d fvk data env (env.tree.parent b) :=
  fun a ha => h a ((mem_chain_iff hne).mpr (.inr ha))

/-- It is enough that all the notes found on the chain together fit. -/
theorem valuesFit_of_total (total : natSum ((foundOnChain W d fvk data env b).map W.noteValue) < U64_BOUND) :
    ValuesFit W d fvk data env b := by
  intro a ha block made tx htx
  have mine : clientFound W d fvk (data a) = block.notes fvk := by rw [clientFound, made]; rfl
  have paid : (tx.2.map (·.note)).Sublist (foundOnChain W d fvk data env b) := by
    refine .trans ?_ (sublist_flatten_of_mem (mem_map_of_mem ha))
    rw [mine, WalletBlock.notes, flatMap_def]
    refine .trans (sublist_flatten_of_mem ?_) (sublist_append_right ..)
    exact mem_map.mpr ⟨tx, htx, rfl⟩
  have before : (foundOnChain W d fvk data env a).Sublist (foundOnChain W d fvk data env b) := by
    obtain ⟨later, split⟩ := chain_suffix ha
    rw [foundOnChain, foundOnChain, ← split, flatMap_append]
    exact sublist_append_right ..
  refine ⟨?_, ?_⟩
  · have part := natSum_le_of_sublist (paid.map W.noteValue)
    rw [List.map_map] at part
    exact part.trans_lt total
  · have part := natSum_le_of_sublist (before.map W.noteValue)
    refine lt_of_le_of_lt ?_ (part.trans_lt total)
    rw [natSum, natSum, List.map_map, List.map_map]
    refine sum_le_sum fun note _ => ?_
    show (valueUnder ..).toNat ≤ (W.noteValue note).toNat
    unfold valueUnder
    split
    · exact Nat.le_refl _
    · exact Nat.zero_le _

end Fits

section Replay

variable (laws : IncrementalLaws W)

include laws

theorem ingested_fresh (fvk : W.Fvk) : Ingested [] ∅ [] fvk (fresh fvk) :=
  ⟨rfl, ⟨0, 0, tracks_fresh laws fvk⟩, rfl, fun _ => Nat.le_refl _⟩

variable {db : WalletDb W}

theorem Ingested.size {leaves : List P.Cmx} {seen : Finset NullifierBytes} {found : List W.Note} {fvk : W.Fvk}
    (h : Ingested leaves seen found fvk db) : db.size = leaves.length := by
  obtain ⟨b, u, tracks⟩ := h.tracks
  rw [tracks.size_eq, laws.treeSize_empty, length_map, Nat.zero_add]

theorem Ingested.block (derived : CoinbaseDerived W d) {leaves sub : List P.Cmx} {seen : Finset NullifierBytes}
    {found : List W.Note} {fvk : W.Fvk} {db : WalletDb W} (h : Ingested leaves seen found fvk db)
    {nfs : List NullifierBytes}
    {txs : List (ScannedTx P)} {data : ShieldedChainBlockData} (lists : ArchiveNode.Lists nfs sub txs data)
    (nodup : nfs.Nodup) (new : ∀ nf ∈ nfs, nf ∉ seen)
    (fits : ∀ block ∈ clientBlock P d data, ∀ tx ∈ block.txs fvk, TxFits fvk (clientFound W d fvk data ++ found) tx)
    (room : (leaves ++ sub).length ≤ TREE_CAPACITY) (info : Option BlockMeta) :
    ∃ block db', clientBlock P d data = some block ∧ SkipsNone seen (block.txs fvk) ∧
      db.ingestShieldedChainBlock d data info = some db' ∧
      Ingested (leaves ++ sub) (seen ∪ nfs.toFinset) (clientFound W d fvk data ++ found) fvk db' := by
  have size := h.size laws
  obtain ⟨rfl, ⟨b, u, tracks⟩, rfl, held⟩ := h
  rw [length_append] at room
  have capacity : TREE_CAPACITY < U64_BOUND := by decide
  have within := held.coming (clientFound W d db.fvk data)
  obtain ⟨block, db', made, skips, ingested, hleaves, hnfs⟩ :=
    ingest_lists derived lists nodup new fits within (by omega) info
  have next := tracks.ingest ingested
  have events := ingest_events ingested
  have key := fvk_of_events events
  have spent := spent_of_events events
  rw [hleaves, ← map_append] at next
  rw [hnfs] at spent
  refine ⟨block, db', made, skips, ?_, key, ⟨b, u, next⟩, spent, ?_⟩
  · rw [ingestShieldedChainBlock, made]
    exact ingested
  · have same : clientFound W d db.fvk data = block.notes db.fvk := by rw [clientFound, made]; rfl
    rw [same] at within ⊢
    exact within.ingest ingested

/-- What a wallet that follows the leaves of a block has in common with the node at that block. -/
theorem Ingested.anchor {leaves : List P.Cmx} {seen : Finset NullifierBytes} {found : List W.Note} {fvk : W.Fvk}
    {db : WalletDb W} (h : Ingested leaves seen found fvk db) {gt : GlobalTree P}
    (hgt : GlobalTree.ofLeaves leaves = .ok gt) :
    db.anchor = gt.anchor := by
  have size := h.size laws
  obtain ⟨b, u, tracks⟩ := h.tracks
  unfold WalletDb.anchor
  by_cases empty : leaves = []
  · subst empty
    cases hgt
    replace size : db.size = 0 := size
    rw [if_pos size, GlobalTree.anchor, GlobalTree.new, laws.frontierValue_empty]
  · have nonzero : db.size ≠ 0 := by
      rw [size]
      exact fun zero => empty (eq_nil_of_length_eq_zero zero)
    have frontier := GlobalTree.ofLeaves_frontier hgt
    have root := laws.frontierRoot_eq (fun nil => empty (map_eq_nil_iff.mp nil)) frontier
    rw [laws.frontierOf_eq] at frontier
    obtain ⟨t, ht, -⟩ := map_eq_some_iff.mp frontier
    rw [if_neg nonzero, anchor_of_ne_nil laws hgt empty, root, tracks.tip, treeFill_of_extend ht, laws.treeRoot_eq ht]

/-- The wallet has what the node has at a block. -/
structure Mirrors (env : ChainEnv P) (node : VirtualNode P) (b : Hash) (db : WalletDb W) : Prop where
  size : db.size = (node.db.stores.frontierAt b).size
  anchor : node.db.stores.anchorAt b = some db.anchor
  spent : db.spentNullifiers = node.db.nullifiersAt env b

variable {env : ChainEnv P} {node : VirtualNode P} {data : Hash → ShieldedChainBlockData}
    {info : Hash → Option BlockMeta}
  {fvk : W.Fvk}

section

variable (derived : CoinbaseDerived W d) (snapshots : node.db.TreeSnapshots env) (wf : node.db.WellFormed env)
  (diffs : node.db.DiffsRecorded)
include derived snapshots wf diffs

theorem follows_chain_step {b : Hash} (hb : node.db.hasUtxoDiff b) (hne : b ≠ env.tree.root) {txs : List (ScannedTx P)}
    (lists : ArchiveNode.Lists (node.db.nullifiersOf b) (node.db.subtreeOf b) txs (data b))
    (fits : ValuesFit W d fvk data env b) (time : Option BlockMeta)
    (h : Ingested (node.db.leavesAt env (env.tree.parent b)) (node.db.nullifiersAt env (env.tree.parent b))
      (foundOnChain W d fvk data env (env.tree.parent b)) fvk db) :
    ∃ block db', clientBlock P d (data b) = some block ∧
      SkipsNone (node.db.nullifiersAt env (env.tree.parent b)) (block.txs fvk) ∧
      db.ingestShieldedChainBlock d (data b) time = some db' ∧
      Ingested (node.db.leavesAt env b) (node.db.nullifiersAt env b) (foundOnChain W d fvk data env b) fvk db' := by
  have keys := wf.nodup hb
  rw [chainKeys_of_ne_root hne, diffs] at keys
  obtain ⟨nodup, -, apart⟩ := nodup_append.mp keys
  have new : ∀ nf ∈ node.db.nullifiersOf b, nf ∉ node.db.nullifiersAt env (env.tree.parent b) := by
    intro nf hnf seen
    rw [VirtualDb.nullifiersAt, chainSet, List.mem_toFinset, diffs] at seen
    exact apart nf hnf nf seen rfl
  have found := foundOnChain_of_ne_root W d fvk data hne
  have here := fits b (env.tree.mem_chain_self b)
  obtain ⟨t, ht, -⟩ := snapshots.frontier hb
  have room : (node.db.leavesAt env b).length ≤ TREE_CAPACITY := by
    have := length_le_of_frontierOf laws (GlobalTree.ofLeaves_frontier ht)
    rwa [length_map] at this
  rw [VirtualDb.leavesAt_of_ne_root hne] at room ⊢
  have set : node.db.nullifiersAt env b =
      node.db.nullifiersAt env (env.tree.parent b) ∪ (node.db.nullifiersOf b).toFinset := by
    rw [VirtualDb.nullifiersAt, chainSet_of_ne_root hne, VirtualDb.nullifiersAt, diffs]
  rw [set, found]
  rw [found] at here
  exact h.block laws derived lists nodup new here room time

theorem follows_chain
    (lists : ∀ b, ∃ txs, ArchiveNode.Lists (node.db.nullifiersOf b) (node.db.subtreeOf b) txs (data b)) {b : Hash}
    (hb : node.db.hasUtxoDiff b) (fits : ValuesFit W d fvk data env b) :
    ∃ db, (fresh fvk).replay d data info (env.tree.chain b).reverse = some db ∧
      Ingested (node.db.leavesAt env b) (node.db.nullifiersAt env b) (foundOnChain W d fvk data env b) fvk db := by
  refine induction_on (T := env.tree)
    (motive := fun b => node.db.hasUtxoDiff b → ValuesFit W d fvk data env b →
      ∃ db, (fresh fvk).replay d data info (env.tree.chain b).reverse = some db ∧
        Ingested (node.db.leavesAt env b) (node.db.nullifiersAt env b) (foundOnChain W d fvk data env b) fvk db)
          b ?_ ?_ hb fits
  · intro hroot fits
    have chain := env.tree.chain_root
    obtain ⟨txs, served⟩ := lists env.tree.root
    have keys := wf.nodup hroot
    rw [chainKeys, chain, flatMap_cons, flatMap_nil, append_nil, diffs] at keys
    have leaves : node.db.leavesAt env env.tree.root = [] ++ node.db.subtreeOf env.tree.root := by
      simp [VirtualDb.leavesAt, chain]
    have set : node.db.nullifiersAt env env.tree.root = ∅ ∪ (node.db.nullifiersOf env.tree.root).toFinset := by
      rw [VirtualDb.nullifiersAt, chainSet, chainKeys, chain, flatMap_singleton, diffs, Finset.empty_union]
    have found : foundOnChain W d fvk data env env.tree.root = clientFound W d fvk (data env.tree.root) ++ [] := by
      rw [foundOnChain, chain, flatMap_cons, flatMap_nil]
    have here := fits env.tree.root (env.tree.mem_chain_self _)
    obtain ⟨t, ht, -⟩ := snapshots.frontier hroot
    have room := length_le_of_frontierOf laws (GlobalTree.ofLeaves_frontier ht)
    rw [length_map] at room
    rw [leaves] at room ⊢
    rw [set, found]
    rw [found] at here
    obtain ⟨block, db, -, -, ingested, follows⟩ :=
      (ingested_fresh laws fvk).block laws derived served keys (fun nf _ => Finset.notMem_empty nf) here room
        (info env.tree.root)
    refine ⟨db, ?_, follows⟩
    rw [chain, reverse_singleton, replay, foldlM_cons, ingested]
    rfl
  · intro b hne ih hb fits
    obtain ⟨w, replayed, before⟩ := ih (wf.parent hne hb) (fits.parent hne)
    obtain ⟨txs, served⟩ := lists b
    obtain ⟨block, db, -, -, ingested, follows⟩ :=
      follows_chain_step laws derived snapshots wf diffs hb hne served fits (info b) before
    refine ⟨db, ?_, follows⟩
    rw [replay] at replayed ⊢
    rw [chain_of_ne_root hne, reverse_cons, foldlM_append, replayed]
    show (some w).bind _ = _
    rw [bind_some, foldlM_cons, ingested]
    rfl

end

/-- **A wallet that replays the archive mirrors consensus.** In every run whose walks lead through the block
at which a crash left the nullifier set, the archive is kept without a panic, and for every committed block:
the data it serves lists what the block's transition applied; a fresh wallet that is fed the block's chain,
none of whose transactions pays it or spends of it `2^64` or more, has the node's size, anchor and nullifiers; and
its drop rule skips none of the block's transactions. -/
theorem replay_mirrors (derived : CoinbaseDerived W d) (env : ChainEnv P) (statuses : Hash → BlockStatus)
    (timestamp : Hash → Nat)
    {es : List Event} {node : VirtualNode P} (hrun : (VirtualNode.genesis env statuses).run env es = some node)
    (hres : VirtualNode.RunResumes env (VirtualNode.genesis env statuses) es) :
    ∃ archive, (ArchiveNode.genesis env statuses).run env timestamp es = some ⟨node, archive⟩ ∧
      ∀ (view : NodeView) (info : Hash → Option BlockMeta) (fvk : W.Fvk) (b : Hash), node.db.hasUtxoDiff b →
        ValuesFit W d fvk (shieldedChainBlockData env timestamp view archive) env b →
        (∃ txs, ArchiveNode.Lists (node.db.nullifiersOf b) (node.db.subtreeOf b) txs
          (shieldedChainBlockData env timestamp view archive b)) ∧
        (∃ db, (fresh fvk).replay d (shieldedChainBlockData env timestamp view archive) info
          (env.tree.chain b).reverse =
          some db ∧ Mirrors env node b db) ∧
        (b ≠ env.tree.root → ∃ w block,
          (fresh fvk).replay d (shieldedChainBlockData env timestamp view archive) info
            (env.tree.chain (env.tree.parent b)).reverse = some w ∧
          clientBlock P d (shieldedChainBlockData env timestamp view archive b) = some block ∧
          SkipsNone w.spentNullifiers (block.txs fvk)) := by
  have inv := VirtualNode.inv_run (VirtualNode.inv_genesis env statuses) hres hrun
  have snapshots := VirtualNode.run_treeSnapshots laws.toFrontierLaws hrun
  have diffs := run_diffsRecorded hrun
  obtain ⟨archive, harchive, archived⟩ :=
    ArchiveNode.run_archived (ArchiveNode.archived_genesis env timestamp statuses) hrun
  refine ⟨archive, harchive, fun view info fvk b hb fits => ?_⟩
  have lists : ∀ b, ∃ txs, ArchiveNode.Lists (node.db.nullifiersOf b) (node.db.subtreeOf b) txs
      (shieldedChainBlockData env timestamp view archive b) := by
    intro b
    obtain ⟨txs, served⟩ := archived.lists b
    exact ⟨txs, served view⟩
  obtain ⟨db, replayed, follows⟩ := follows_chain laws derived snapshots inv.wf diffs lists hb fits
  obtain ⟨t, ht, hload⟩ := snapshots.loadTree laws.toFrontierLaws hb
  obtain ⟨t', ht', hfrontier⟩ := snapshots.frontier hb
  refine ⟨lists b, ⟨db, replayed, ?_, ?_, follows.spent⟩, fun hne => ?_⟩
  · rw [follows.size laws, hfrontier, GlobalTree.toState_size laws.toFrontierLaws ht']
  · rw [ShieldedStores.anchorAt, hload, follows.anchor laws ht]
    rfl
  · obtain ⟨w, hw, before⟩ :=
      follows_chain laws derived snapshots inv.wf diffs lists (inv.wf.parent hne hb) (fits.parent hne)
    obtain ⟨txs, served⟩ := lists b
    obtain ⟨block, -, made, skips, -⟩ :=
      follows_chain_step laws derived snapshots inv.wf diffs hb hne served fits (info b) before
    rw [← before.spent] at skips
    exact ⟨w, block, hw, made, skips⟩

end Replay

/-! ### The fork, over leaf lists -/

/-- Coinbase notes whose parts are the transaction id and the index. -/
def leafDerivation : NoteDerivation where
  rhoOf seed := BitVec.ofBytes 32 (seed.take 32)
  seedHash bytes := BitVec.ofNat 256 (ofLe ((bytes.drop 32).take 4) * 18446744073709551616)
  validSeed _ _ := true

theorem leafDerivation_derived : CoinbaseDerived leafLists leafDerivation := by
  intro script txid i value length
  have width : (BitVec.bytes (n := 32) txid).length = 32 := BitVec.length_bytes (n := 32) txid
  have rho : leafDerivation.rhoOf (noteSeed txid i) = txid := by
    show BitVec.ofBytes 32 ((BitVec.bytes (n := 32) txid ++ leBytes 4 i).take 32) = txid
    rw [take_left' width]
    exact BitVec.ofBytes_bytes (n := 32) txid
  have seed : leafDerivation.findSeed (noteSeed txid i) (leafDerivation.rhoOf (noteSeed txid i)) 4294967296 0 =
      some (BitVec.ofNat 256 (i % 4294967296 * 18446744073709551616)) := by
    show some (BitVec.ofNat 256
      (ofLe ((((BitVec.bytes (n := 32) txid ++ leBytes 4 i) ++ leBytes 4 0).drop 32).take 4) * _)) = _
    rw [append_assoc, drop_left' width, take_left' (length_leBytes 4 i), ofLe_leBytes]
    rfl
  rw [deriveCoinbaseNoteDesc, seed, rho]
  exact if_pos length

/-- The fork of `forkNet`, in a tree of leaf lists. -/
def leafFork : ChainEnv leafPrim where
  tree := forkTree
  gd := forkNet.gd
  gd_parent := forkNet.gd_parent
  daaScore := forkNet.daaScore
  mergesetNonDaa := forkNet.mergesetNonDaa
  coinbaseManager := forkNet.coinbaseManager
  shieldedCoinbase := true
  blueWork := forkNet.blueWork
  bodies b :=
    let root : leafPrim.StateRoot :=
      if b = 3 then (leafHasher.root TREE_DEPTH [51, 52, 7], {7}, 100, 0)
      else if b = 1 then (leafHasher.emptyRoot TREE_DEPTH, 0, 0, 0)
      else (leafHasher.root TREE_DEPTH [51], 0, 50, 0)
    let spend (id : Hash) : Transaction leafPrim :=
      ⟨id, TX_VERSION_SHIELDED, [], [], some ⟨[.plain 7 7], 0, leafHasher.emptyRoot TREE_DEPTH⟩⟩
    ⟨⟨TX_VERSION_TOCCATA, [⟨50, soloMiner.scriptPublicKey⟩], ⟨forkTree.height b, 50, root, soloMiner⟩⟩,
      if b = 1 then [spend 11] else if b = 2 then [spend 12] else []⟩
  coinbaseId coinbase := BitVec.ofNat 256 coinbase.payload.blueScore
  rules := fun _ _ _ _ => true
  utxoView := fun _ _ => none
  headerChecks := fun _ => .ok ()
  contextChecks := fun _ => .ok ()
  shieldedAnchorDepth := 0

/-- What the miner's wallet makes of what the node serves for the chain of a block. -/
def minerReplay (archive : Hash → Option ShieldedScanBlockData) (b : Hash) : Option (WalletDb leafLists) :=
  (fresh (W := leafLists) 0).replay leafDerivation
    (shieldedChainBlockData leafFork (fun _ => 0) leafFork.fullView archive) (fun _ =>
      none) (leafFork.tree.chain b).reverse

open VirtualNode in
/-- A crash in the middle of a reorg, after which the walk resumes: the miner's wallet mirrors block `4`. -/
theorem resumed_mirrors : ∃ n db, (ArchiveNode.genesis leafFork pendingAll).run leafFork (fun _ => 0)
      (crashAndResume ++ forkTicks 2) = some n ∧ minerReplay n.archive 4 = some db ∧ Mirrors leafFork n.node 4 db ∧
    db.size = 3 ∧ db.spentNullifiers = {7} := by
  have reached :
      ((ArchiveNode.genesis leafFork pendingAll).run leafFork (fun _ => 0) (crashAndResume ++ forkTicks 2)).any
      fun n => decide (n.node.db.hasUtxoDiff 4 ∧
        natSum ((foundOnChain leafLists leafDerivation 0
          (shieldedChainBlockData leafFork (fun _ => 0) leafFork.fullView n.archive) leafFork 4).map
            leafLists.noteValue) < U64_BOUND ∧
        (minerReplay n.archive 4).all fun db => decide (db.size = 3 ∧ db.spentNullifiers = {7})) := by decide +kernel
  have resumes : ((genesis leafFork pendingAll).run leafFork (crashAndResume ++ forkTicks 2)).isSome ∧
      RunResumes leafFork (genesis leafFork pendingAll) (crashAndResume ++ forkTicks 2) := by decide +kernel
  obtain ⟨node, hnode⟩ := isSome_iff_exists.mp resumes.1
  obtain ⟨archive, hrun, mirrors⟩ :=
    replay_mirrors leafLists_laws leafDerivation_derived leafFork pendingAll (fun _ => 0) hnode resumes.2
  rw [hrun, any_some] at reached
  obtain ⟨committed, fits, facts⟩ := of_decide_eq_true reached
  obtain ⟨-, ⟨db, hdb, mirror⟩, -⟩ := mirrors leafFork.fullView (fun _ => none) 0 4 committed (valuesFit_of_total fits)
  replace hdb : minerReplay archive 4 = some db := hdb
  rw [hdb, all_some, decide_eq_true_iff] at facts
  exact ⟨⟨node, archive⟩, db, hrun, hdb, mirror, facts⟩

open VirtualNode in
/-- The crash after which `3` is validated against a set that lacks `7`: the node applies and archives the second
spend of `7`, the wallet drops it, and has one leaf less and another anchor than the node. -/
theorem crashed_drifts : ∃ n db, (ArchiveNode.genesis leafFork pendingAll).run leafFork (fun _ => 0)
      (crashAndExtend ++ forkTicks 2) = some n ∧ n.node.db.hasUtxoDiff 3 ∧ n.node.db.nullifiersOf 3 = [7] ∧
    minerReplay n.archive 3 = some db ∧ db.size = 4 ∧ (n.node.db.stores.frontierAt 3).size = 5 ∧
    n.node.db.stores.anchorAt 3 ≠ some db.anchor := by
  have reached :
      ((ArchiveNode.genesis leafFork pendingAll).run leafFork (fun _ => 0) (crashAndExtend ++ forkTicks 2)).any
      fun n => (minerReplay n.archive 3).any fun db =>
        decide (n.node.db.hasUtxoDiff 3 ∧ n.node.db.nullifiersOf 3 = [7] ∧ db.size = 4 ∧
          (n.node.db.stores.frontierAt 3).size = 5 ∧ n.node.db.stores.anchorAt 3 ≠ some db.anchor) := by decide +kernel
  obtain ⟨n, hrun, hreplay⟩ := (Option.any_eq_true ..).mp reached
  obtain ⟨db, hdb, facts⟩ := (Option.any_eq_true ..).mp hreplay
  obtain ⟨committed, spent, size, frontier, anchor⟩ := of_decide_eq_true facts
  exact ⟨n, db, hrun, committed, spent, hdb, size, frontier, anchor⟩

end Firecash
