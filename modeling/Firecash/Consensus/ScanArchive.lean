import Firecash.Consensus.Reorg
import Firecash.Consensus.Snapshots
import Firecash.Wallet.Primitives

/-!
# The compact scan archive

What a node keeps of a chain block for wallets: the outputs of its coinbase, and for every shielded
transaction that the transition applied the 148-byte records of its actions. The records are collected in
a vector of their own, parallel to the shielded transactions, filtered by a `retain` of their own with
the same mask, and picked by the indices that the transition accepted.

The three passes keep the two vectors aligned (`scanBlock_ok`), so none of them panics where the block is
valid, and in every run the data served for a committed block lists exactly what its transition applied
(`run_archived`).
-/

namespace Firecash

open List Option Function VirtualDb

variable {P : Prim}

/-! ## Compact records -/

namespace CompactActionRecord

def SERIALIZED_LEN : Nat := 148

/-- `from_wire` (wallet.rs:170): of the ciphertext the first 52 bytes. -/
def fromWire (a : ActionWire) : CompactActionRecord :=
  ⟨a.nullifier, a.cmx, a.ephemeralKey, a.encCiphertext.setWidth 416⟩

variable (r : CompactActionRecord)

/-- `to_bytes` (wallet.rs:177) -/
def toBytes : List UInt8 :=
  BitVec.bytes (n := 32) r.nullifier ++ BitVec.bytes (n := 32) r.cmx ++ BitVec.bytes (n := 32) r.ephemeralKey ++
    BitVec.bytes (n := 52) r.encCiphertext

/-- `from_bytes` (wallet.rs:187) -/
def fromBytes (b : List UInt8) : Option CompactActionRecord :=
  if b.length ≠ SERIALIZED_LEN then none
  else
    some
      { nullifier := BitVec.ofBytes 32 (b.take 32)
        cmx := BitVec.ofBytes 32 ((b.drop 32).take 32)
        ephemeralKey := BitVec.ofBytes 32 ((b.drop 64).take 32)
        encCiphertext := BitVec.ofBytes 52 ((b.drop 96).take 52) }

@[simp] theorem length_toBytes : r.toBytes.length = SERIALIZED_LEN := by
  simp [toBytes, SERIALIZED_LEN]

theorem fromBytes_toBytes : fromBytes r.toBytes = some r := by
  unfold fromBytes
  rw [if_neg (not_not.mpr (length_toBytes r))]
  obtain ⟨nf, cmx, key, enc⟩ := r
  have first : (toBytes ⟨nf, cmx, key, enc⟩).take 32 = BitVec.bytes (n := 32) nf := by
    rw [toBytes, append_assoc, append_assoc]
    exact take_left' (BitVec.length_bytes (n := 32) nf)
  have second : ((toBytes ⟨nf, cmx, key, enc⟩).drop 32).take 32 = BitVec.bytes (n := 32) cmx := by
    rw [toBytes, append_assoc, append_assoc, drop_left' (BitVec.length_bytes (n := 32) nf)]
    exact take_left' (BitVec.length_bytes (n := 32) cmx)
  have third : ((toBytes ⟨nf, cmx, key, enc⟩).drop 64).take 32 = BitVec.bytes (n := 32) key := by
    rw [toBytes, append_assoc, drop_left' (by simp)]
    exact take_left' (BitVec.length_bytes (n := 32) key)
  have fourth : ((toBytes ⟨nf, cmx, key, enc⟩).drop 96).take 52 = BitVec.bytes (n := 52) enc := by
    rw [toBytes, drop_left' (by simp)]
    exact take_of_length_le (by simp)
  rw [first, second, third, fourth, BitVec.ofBytes_bytes, BitVec.ofBytes_bytes, BitVec.ofBytes_bytes,
    BitVec.ofBytes_bytes]

end CompactActionRecord

/-- The first `k` chunks of `chunks_exact(n)`. -/
def chunksExact {α : Type} (n : Nat) : Nat → List α → List (List α)
  | 0, _ => []
  | k + 1, l => l.take n :: chunksExact n k (l.drop n)

/-- `decode_compact_actions`: the records of one transaction; `None` unless they fill the bytes. -/
def decodeCompactActions (b : List UInt8) : Option (List CompactActionRecord) :=
  if b.length % CompactActionRecord.SERIALIZED_LEN ≠ 0 then none
  else
    (chunksExact CompactActionRecord.SERIALIZED_LEN (b.length / CompactActionRecord.SERIALIZED_LEN) b).mapM
      CompactActionRecord.fromBytes

theorem length_flatMap_toBytes (rs : List CompactActionRecord) :
    (rs.flatMap CompactActionRecord.toBytes).length = rs.length * CompactActionRecord.SERIALIZED_LEN := by
  simp [length_flatMap]

/-- Concatenated records are read back. -/
theorem decodeCompactActions_flatMap (rs : List CompactActionRecord) :
    decodeCompactActions (rs.flatMap CompactActionRecord.toBytes) = some rs := by
  have chunks : (chunksExact CompactActionRecord.SERIALIZED_LEN rs.length (rs.flatMap CompactActionRecord.toBytes)).mapM
      CompactActionRecord.fromBytes = some rs := by
    induction rs with
    | nil => rfl
    | cons r rs ih =>
      have length := CompactActionRecord.length_toBytes r
      rw [length_cons, chunksExact, flatMap_cons, take_left' length, drop_left' length, mapM_cons,
        CompactActionRecord.fromBytes_toBytes, ih]
      rfl
  unfold decodeCompactActions
  rw [length_flatMap_toBytes, if_neg (by simp), Nat.mul_div_cancel _ (by decide)]
  exact chunks

/-! ## The record of a block -/

/-- `ShieldedScanTx` (stores/shielded.rs:428) -/
structure ShieldedScanTx where
  txid : Hash
  actionBytes : List UInt8
  deriving DecidableEq

/-- `ShieldedScanBlockData` (stores/shielded.rs:411) -/
structure ShieldedScanBlockData where
  blueScore : Nat
  daaScore : Nat
  timestamp : Nat
  coinbaseTxid : Hash
  coinbaseOutputs : List (List UInt8 × UInt64)
  accepted : List ShieldedScanTx
  deriving DecidableEq

/-- The concatenated records of a bundle's actions. -/
def actionBytes (bundle : ShieldedBundle P) : List UInt8 :=
  bundle.actions.flatMap fun a => (CompactActionRecord.fromWire a).toBytes

variable (scan : List ShieldedScanTx) (v : ValidatedTransaction P)

/-- The push into `shielded_scan` beside that into `shielded_txs` (utxo_validation.rs:202-224). -/
def accumulateScan : List ShieldedScanTx :=
  if v.tx.version == TX_VERSION_SHIELDED then
    match v.tx.bundle with
    | some bundle =>
      match ShieldedTx.fromBundle bundle with
      | .ok _ => scan ++ [⟨v.tx.id, actionBytes bundle⟩]
      | .error _ => scan
    | none => scan
  else scan

variable (ms : List (Hash × List (ValidatedTransaction P)))

def collectScan : List ShieldedScanTx :=
  ms.foldl (fun scan m => m.2.foldl accumulateScan scan) scan

/-- `retain` with a counter into the mask, from index `i`; `none`: `keep[i]` is out of bounds. -/
def retainMasked {α : Type} (keep : List Bool) : Nat → List α → Option (List α)
  | _, [] => some []
  | i, a :: as => do
    let keepIt ← keep[i]?
    let rest ← retainMasked keep (i + 1) as
    pure (if keepIt then a :: rest else rest)

/-- `ctx.shielded_scan` after `calculate_utxo_state`. -/
def retainedScan (env : UtxoEnv P) (stores : ShieldedStores P) (gd : GhostdagData) (selectedParentView : UtxoView)
    (anchorFinal : ShieldedTx P → Bool) : Option (List ShieldedScanTx) := do
  let c ← collectBlocks env ⟨[], fun _ => none⟩ (mergeset env gd selectedParentView)
  let scan := collectScan [] (mergeset env gd selectedParentView)
  if c.shielded.isEmpty then pure scan
  else retainMasked (stores.partitionApplied (c.shielded.map (·.1)) anchorFinal) 0 scan

/-- The record of a block's own data and of what it accepted (utxo_validation.rs:433-447). -/
def scanRecord (env : ChainEnv P) (timestamp : Hash → Nat) (block : Hash) (accepted : List ShieldedScanTx) :
    ShieldedScanBlockData :=
  let coinbase := (env.bodies block).coinbase
  { blueScore := (env.gd block).blueScore
    daaScore := env.daaScore block
    timestamp := timestamp block
    coinbaseTxid := env.coinbaseId coinbase
    coinbaseOutputs := if env.shieldedCoinbase then coinbase.outputs.map fun o =>
      (o.scriptPublicKey.script, o.value) else []
    accepted }

/-- `computed.scan_block` of a valid block (utxo_validation.rs:419-448); `none`: an index is out of bounds. -/
def scanBlock (env : ChainEnv P) (timestamp : Hash → Nat) (view : NodeView) (stores : ShieldedStores P) (block : Hash)
    (computed : ComputedBlockShielded P) : Option ShieldedScanBlockData := do
  let gd := env.gd block
  let scan ← retainedScan (env.utxoEnv block) stores gd (env.utxoView block) fun stx =>
    isShieldedAnchorFinal view env.shieldedAnchorDepth stores.anchorBlock stx.anchor gd.selectedParent gd.blueScore
  let accepted ← computed.outcome.accepted.mapM fun i => scan[i]?
  pure (scanRecord env timestamp block accepted)

/-! ## Alignment

`ScannedTx` is a collected transaction with the bundle both vectors were made from. -/

structure ScannedTx (P : Prim) where
  txid : Hash
  bundle : ShieldedBundle P
  stx : ShieldedTx P
  extracted : ShieldedTx.fromBundle bundle = .ok stx

def ScannedTx.record (t : ScannedTx P) : ShieldedScanTx := ⟨t.txid, actionBytes t.bundle⟩

/-- What a transaction contributes to the two vectors. -/
def scannedOf : List (ScannedTx P) :=
  if v.tx.isShielded then
    match v.tx.bundle with
    | some bundle =>
      match h : ShieldedTx.fromBundle bundle with
      | .ok stx => [⟨v.tx.id, bundle, stx, h⟩]
      | .error _ => []
    | none => []
  else []

def scanned : List (ScannedTx P) := ms.flatMap fun m => m.2.flatMap scannedOf

theorem extracted_eq (block : Hash) (v : ValidatedTransaction P) :
    extracted block v = (scannedOf v).map fun t => (t.stx, block) := by
  unfold extracted scannedOf ValidatedTransaction.extract
  split
  · cases v.tx.bundle with
    | none => rfl
    | some bundle =>
      rw [bind_some]
      dsimp only
      split
      · rename_i stx h
        simp [h, Except.toOption]
      · rename_i e h
        simp [h, Except.toOption]
  · rfl

theorem accumulateScan_eq :
    accumulateScan scan v = scan ++ (scannedOf v).map ScannedTx.record := by
  unfold accumulateScan scannedOf Transaction.isShielded
  split
  · cases v.tx.bundle with
    | none => simp
    | some bundle =>
      dsimp only
      split
      · rename_i stx h
        split
        · rfl
        · rename_i e h'
          rw [h] at h'
          cases h'
      · rename_i e h
        split
        · rename_i stx h'
          rw [h] at h'
          cases h'
        · simp
  · simp

theorem collectScan_eq :
    collectScan scan ms = scan ++ (scanned ms).map ScannedTx.record := by
  have block : ∀ (scan : List ShieldedScanTx) (vs : List (ValidatedTransaction P)),
      vs.foldl accumulateScan scan = scan ++ (vs.flatMap scannedOf).map ScannedTx.record := by
    intro scan vs
    induction vs generalizing scan with
    | nil => simp
    | cons v vs ih => rw [foldl_cons, ih, accumulateScan_eq, flatMap_cons, map_append, append_assoc]
  unfold collectScan
  induction ms generalizing scan with
  | nil => simp [scanned]
  | cons m ms ih => rw [foldl_cons, ih, block, scanned, scanned, flatMap_cons, map_append, append_assoc]

variable {gd : GhostdagData} {view : UtxoView}

/-- The shielded transactions are those of the same list. -/
theorem collected_eq {env : UtxoEnv P} {c : Collected P}
    (h : collectBlocks env ⟨[], fun _ => none⟩ (mergeset env gd view) = some c) :
    c.shielded.map (·.1) = (scanned (mergeset env gd view)).map ScannedTx.stx := by
  have general : ∀ (ms : List (Hash × List (ValidatedTransaction P))) (c c' : Collected P), collectBlocks env c ms =
      some c' →
      c'.shielded.map (·.1) = c.shielded.map (·.1) ++ (scanned ms).map ScannedTx.stx := by
    intro ms
    induction ms with
    | nil =>
      intro c c' h
      cases h
      simp [scanned]
    | cons m ms ih =>
      intro c c' h
      obtain ⟨mid, hmid, h⟩ := bind_eq_some_iff.mp h
      obtain ⟨-, fee, -, htxs, -⟩ := collectBlock_eq_some.mp hmid
      rw [ih mid c' h, htxs, scanned, scanned, flatMap_cons]
      simp [extracted_eq, map_flatMap, comp_def]
  have all := general _ _ _ h
  simpa using all

open ShieldedStores

theorem retainMasked_eq {α : Type} {keep : List Bool} {i : Nat} {as : List α} (h : i + as.length ≤ keep.length) :
    retainMasked keep i as = some (keptTxs as (keep.drop i)) := by
  induction as generalizing i with
  | nil => rfl
  | cons a as ih =>
    rw [length_cons] at h
    have inside : i < keep.length := by omega
    rw [retainMasked, getElem?_eq_getElem inside, ih (by omega), drop_eq_getElem_cons inside]
    cases keep[i] <;> simp [keptTxs]

variable {stores : ShieldedStores P}

/-- The two retain passes leave the two vectors aligned. -/
theorem retainedScan_eq {env : UtxoEnv P}
    {anchorFinal : ShieldedTx P → Bool} {ctx : UtxoProcessingContext P}
    (h : calculateUtxoState env stores gd view anchorFinal = some ctx) :
    ∃ txs : List (ScannedTx P), retainedScan env stores gd view anchorFinal = some (txs.map ScannedTx.record) ∧
      ctx.shieldedTxs = txs.map ScannedTx.stx := by
  obtain ⟨c, hc, h⟩ := bind_eq_some_iff.mp h
  obtain ⟨rewards, -, h⟩ := bind_eq_some_iff.mp h
  cases h
  have stxs := collected_eq hc
  have length : c.shielded.length = (scanned (mergeset env gd view)).length := by simpa using congrArg length stxs
  generalize hkeep : stores.partitionApplied (c.shielded.map (·.1)) anchorFinal = keep
  have masked : keep.length = c.shielded.length := by
    rw [← hkeep, partitionApplied, partitionFrom_length, length_map]
  refine ⟨keptTxs (scanned (mergeset env gd view)) keep, ?_, ?_⟩
  · unfold retainedScan
    rw [hc, collectScan_eq]
    dsimp only [bind_eq_bind, bind_some]
    rw [hkeep, nil_append]
    split
    · rename_i empty
      have nil : scanned (mergeset env gd view) = [] := by
        rw [isEmpty_iff.mp empty] at length
        exact eq_nil_of_length_eq_zero length.symm
      rw [nil]
      rfl
    · rw [retainMasked_eq (by rw [length_map]; omega), drop_zero, keptTxs_map]
  · rw [← keptTxs_map, ← stxs]

/-- Indexing a mapped vector at indices that are in bounds. -/
theorem mapM_getElem?_map {α β : Type} (f : α → β) {as : List α} {is : List Nat} (h : ∀ i ∈ is, i < as.length) :
    is.mapM (fun i => (as.map f)[i]?) = some ((is.filterMap fun i => as[i]?).map f) := by
  induction is with
  | nil => rfl
  | cons i is ih =>
    have inside : i < as.length := h i mem_cons_self
    rw [mapM_cons, ih fun j hj => h j (mem_cons_of_mem i hj), filterMap_cons, getElem?_map,
      getElem?_eq_getElem inside]
    rfl

variable {env : ChainEnv P} {block : Hash}

/-- **The record of a valid block** lists the transactions that its transition applied, in order. -/
theorem scanBlock_ok (timestamp : Hash → Nat) {view : NodeView}
    {c : ComputedBlockShielded P} (h : validateBlock env view stores block = .ok c) :
    ∃ (txs : List (ScannedTx P)) (mint : Option (CoinbaseMint P)),
      scanBlock env timestamp view stores block c = some (scanRecord env timestamp block (txs.map ScannedTx.record)) ∧
      c.outcome.newNullifiers = txNullifiers (txs.map ScannedTx.stx) ∧ coinbaseMintOf env block = .ok mint ∧
      c.outcome.subtree = (mintedNotes mint).map (·.commitment) ++ txCommitments (txs.map ScannedTx.stx) := by
  obtain ⟨ctx, mint, hctx, hmint, hc⟩ := validateBlock_ok h
  obtain ⟨retained, hscan, hstxs⟩ := retainedScan_eq hctx
  obtain ⟨tree, tree', -, spec, -, -⟩ := compute_ok hc
  have inside : ∀ i ∈ c.outcome.accepted, i < retained.length := by
    intro i hi
    have := compute_accepted hc i hi
    rwa [hstxs, length_map] at this
  have applied : (c.outcome.accepted.filterMap fun i => retained[i]?).map ScannedTx.stx =
      survivors (Resolver.new stores.contains) ctx.shieldedTxs := by
    rw [← spec.accepted, hstxs, selectTxs, map_filterMap]
    simp only [getElem?_map]
  refine ⟨c.outcome.accepted.filterMap fun i => retained[i]?, mint, ?_, ?_, hmint, ?_⟩
  · unfold scanBlock
    dsimp only
    rw [hscan, bind_eq_bind, bind_some, mapM_getElem?_map ScannedTx.record inside]
    rfl
  · rw [applied, spec.nullifiers]
  · rw [applied, spec.subtree]

/-! ## The diffs are the nullifiers of the batches -/

namespace VirtualDb

/-- The nullifiers a committed block revealed. -/
def nullifiersOf (db : VirtualDb P) (block : Hash) : List NullifierBytes :=
  match db.computedAt block with
  | some c => c.outcome.newNullifiers
  | none => []

def DiffsRecorded (db : VirtualDb P) : Prop := db.stores.getDiff = db.nullifiersOf

theorem diffsRecorded_genesis (root : Hash) (statuses : Hash → BlockStatus) :
    (genesis root statuses : VirtualDb P).DiffsRecorded := by
  funext b
  unfold nullifiersOf
  have none : (genesis root statuses : VirtualDb P).computedAt b = none := by
    by_cases hb : b = root
    · rw [hb]
      exact computedAt_commit_self ..
    · exact computedAt_commit_of_ne _ hb
  rw [none]
  rfl

theorem diffsRecorded_step {env : ChainEnv P} {db db' : VirtualDb P} (hcom : db.Committed env) (h : db.DiffsRecorded)
    (hstep : VirtualNode.DbStep env db db') : db'.DiffsRecorded := by
  cases hstep with
  | move hcommits hsame =>
    obtain ⟨nfs, hstores⟩ := hsame
    have same : db'.nullifiersOf = db.nullifiersOf := by
      funext b
      unfold nullifiersOf computedAt
      rw [hcommits]
    unfold DiffsRecorded at h ⊢
    rw [same, ← h, hstores]
    rfl
  | @commit b view c hroot hparent hnew hvalid =>
    have diff : (db.commitUtxoState b (some c)).stores.getDiff = update db.stores.getDiff b c.outcome.newNullifiers :=
      persist_getDiff c (hcom.fresh hnew).getDiff
    unfold DiffsRecorded at h ⊢
    rw [diff, h]
    funext a
    by_cases ha : a = b
    · subst ha
      rw [update_self, nullifiersOf, computedAt_commit_self]
    · rw [update_of_ne ha, nullifiersOf, nullifiersOf, computedAt_commit_of_ne _ ha]

end VirtualDb

theorem run_diffsRecorded {statuses : Hash → BlockStatus} {es : List Event} {n : VirtualNode P}
    (h : (VirtualNode.genesis env statuses).run env es = some n) : n.db.DiffsRecorded :=
  (VirtualNode.db_run (VirtualNode.placed_genesis env statuses) (diffsRecorded_genesis _ _)
    (fun _ _ hcom hI hstep => diffsRecorded_step hcom hI hstep) h).2

/-! ## The archive of a running node -/

/-- The write of the record in the commit batch (processes/shielded.rs:403): an empty one is left out. -/
def persistScan (archive : Hash → Option ShieldedScanBlockData) (block : Hash) (scan : ShieldedScanBlockData) :
    Hash → Option ShieldedScanBlockData :=
  if scan.coinbaseOutputs ≠ [] ∨ scan.accepted ≠ [] then update archive block (some scan) else archive

/-- `ShieldedChainBlockData` (api/mod.rs:41) -/
structure ShieldedChainBlockData where
  hash : Hash
  blueScore : Nat
  daaScore : Nat
  coinbaseTxid : Hash
  coinbaseOutputs : List (List UInt8 × UInt64)
  acceptedActions : List (List UInt8)
  acceptedTxids : List Hash
  timestamp : Nat
  deriving DecidableEq

/-- `shielded_chain_block_data` (processor.rs:400): what is archived, or an empty record with the fields of
the header. -/
def shieldedChainBlockData (env : ChainEnv P) (timestamp : Hash → Nat) (view : NodeView)
    (archive : Hash → Option ShieldedScanBlockData) (block : Hash) : ShieldedChainBlockData :=
  match archive block with
  | some scan =>
    { hash := block, blueScore := scan.blueScore, daaScore := scan.daaScore, coinbaseTxid := scan.coinbaseTxid,
      coinbaseOutputs := scan.coinbaseOutputs, acceptedActions := scan.accepted.map (·.actionBytes),
      acceptedTxids := scan.accepted.map (·.txid), timestamp := scan.timestamp }
  | none =>
    { hash := block, blueScore := (view.blueScore block).getD 0, daaScore := env.daaScore block, coinbaseTxid := 0,
      coinbaseOutputs := [], acceptedActions := [], acceptedTxids := [], timestamp := timestamp block }

theorem persistScan_of_ne {archive : Hash → Option ShieldedScanBlockData} {a : Hash} (scan : ShieldedScanBlockData)
    (h : a ≠ block) : persistScan archive block scan a = archive a := by
  unfold persistScan
  split
  · exact update_of_ne h ..
  · rfl

theorem shieldedChainBlockData_congr {timestamp : Hash → Nat} {view : NodeView}
    {archive archive' : Hash → Option ShieldedScanBlockData} (h : archive' block = archive block) :
    shieldedChainBlockData env timestamp view archive' block =
      shieldedChainBlockData env timestamp view archive block := by
  unfold shieldedChainBlockData
  rw [h]

/-- A node with its scan archive. -/
structure ArchiveNode (P : Prim) where
  node : VirtualNode P
  archive : Hash → Option ShieldedScanBlockData

namespace ArchiveNode

def genesis (env : ChainEnv P) (statuses : Hash → BlockStatus) : ArchiveNode P := ⟨.genesis env statuses, fun _ => none⟩

/-- The archive after an event: a tick that validates a block archives its record with the commit. -/
def archiveStep (env : ChainEnv P) (timestamp : Hash → Nat) (n : ArchiveNode P) (e : Event) :
    Option (Hash → Option ShieldedScanBlockData) :=
  match e, n.node.nextValidated env with
  | .tick view, some block =>
    match validateBlock env view n.node.db.stores block with
    | .ok computed => (scanBlock env timestamp view n.node.db.stores block computed).map (persistScan n.archive block)
    | .error _ => some n.archive
  | _, _ => some n.archive

def step (env : ChainEnv P) (timestamp : Hash → Nat) (n : ArchiveNode P) (e : Event) : Option (ArchiveNode P) := do
  let archive ← n.archiveStep env timestamp e
  let node ← n.node.step env e
  some ⟨node, archive⟩

def run (env : ChainEnv P) (timestamp : Hash → Nat) (n : ArchiveNode P) : List Event → Option (ArchiveNode P)
  | [] => some n
  | e :: es => (n.step env timestamp e).bind fun n' => n'.run env timestamp es

variable {env : ChainEnv P} {timestamp : Hash → Nat} {n : ArchiveNode P} {node' : VirtualNode P}

/-- What an event does to the batches and to the archive. -/
theorem archiveStep_cases (timestamp : Hash → Nat) {e : Event} (h : n.node.step env e = some node') :
    (node'.db.commits = n.node.db.commits ∧ n.archiveStep env timestamp e = some n.archive) ∨
      ∃ b view c, n.node.db.hasUtxoDiff b = false ∧ validateBlock env view n.node.db.stores b = .ok c ∧
        node'.db = n.node.db.commitUtxoState b (some c) ∧
        n.archiveStep env timestamp e = (scanBlock env timestamp view n.node.db.stores b c).map
          (persistScan n.archive b) := by
  obtain ⟨⟨db, sink, ctl, point⟩, archive⟩ := n
  cases VirtualNode.step_inv h with
  | refuse => exact .inl ⟨rfl, rfl⟩
  | start => exact .inl ⟨rfl, rfl⟩
  | split => exact .inl ⟨rfl, rfl⟩
  | revert => exact .inl ⟨rfl, rfl⟩
  | arrive => exact .inl ⟨rfl, rfl⟩
  | commitVirtual => exact .inl ⟨rfl, rfl⟩
  | crash => exact .inl ⟨rfl, rfl⟩
  | @climb _ db' _ d b next _ todo view hup =>
    by_cases next : env.tree.parent b = d ∧ db.hasUtxoDiff b = false ∧ db.statuses b ≠ .disqualifiedFromChain
    · -- the block is validated: the two functions look at the same verdict
      have found : VirtualNode.nextValidated env ⟨db, sink, .up d (b :: todo), point⟩ = some b := if_pos next
      obtain ⟨hparent, hnew, hstatus⟩ := next
      unfold upStep at hup
      rw [if_neg (not_not.mpr hparent), if_neg (by simp [hnew]), if_neg hstatus] at hup
      unfold archiveStep
      rw [found]
      dsimp only
      cases hv : validateBlock env view db.stores b with
      | error e =>
        rw [hv] at hup
        cases e with
        | panic => cases hup
        | err e =>
          cases hup
          exact .inl ⟨rfl, rfl⟩
      | ok c =>
        rw [hv] at hup
        cases hup
        exact .inr ⟨b, view, c, hnew, hv, rfl, rfl⟩
    · have none : VirtualNode.nextValidated env ⟨db, sink, .up d (b :: todo), point⟩ = none := if_neg next
      refine .inl ⟨?_, ?_⟩
      · cases upStep_inv hup with
        | skip _ hcommits _ => exact hcommits
        | reapply => rfl
        | commit hparent hdiff c _ =>
          have hstatus : db.statuses b = .disqualifiedFromChain := by
            by_contra hstatus
            exact next ⟨hparent, hdiff, hstatus⟩
          unfold upStep at hup
          rw [if_neg (not_not.mpr hparent), if_neg (by simp [hdiff]), if_pos hstatus] at hup
          exact congrArg (fun r => r.2.commits) (some.inj hup).symm
      · unfold archiveStep
        rw [none]

/-- The data of a block lists what its transition applied: the notes of the coinbase, then `txs`, with the
nullifiers `nfs` they revealed and the leaves appended. -/
structure Lists (nfs : List NullifierBytes) (leaves : List P.Cmx) (txs : List (ScannedTx P))
    (data : ShieldedChainBlockData) :
    Prop where
  actions : data.acceptedActions = txs.map fun t => actionBytes t.bundle
  txids : data.acceptedTxids = txs.map (·.txid)
  nullifiers : nfs = txNullifiers (txs.map ScannedTx.stx)
  leaves : ∃ (outs : List TransactionOutput) (notes : List (CoinbaseNote P)),
    data.coinbaseOutputs = outs.map (fun o => (o.scriptPublicKey.script, o.value)) ∧
    buildNotes data.coinbaseTxid 0 outs = .ok notes ∧
    leaves = notes.map (·.commitment) ++ txCommitments (txs.map ScannedTx.stx)

/-- The data served for a block whose record is written, or left out because it is empty. -/
theorem lists_persistScan {archive : Hash → Option ShieldedScanBlockData} {b : Hash} {c : ComputedBlockShielded P}
    {txs : List (ScannedTx P)} {mint : Option (CoinbaseMint P)} (view : NodeView) (hnew : archive b = none)
    (hnfs : c.outcome.newNullifiers = txNullifiers (txs.map ScannedTx.stx)) (hmint : coinbaseMintOf env b = .ok mint)
    (hsub : c.outcome.subtree = (mintedNotes mint).map (·.commitment) ++ txCommitments (txs.map ScannedTx.stx)) :
    Lists c.outcome.newNullifiers c.outcome.subtree txs (shieldedChainBlockData env timestamp view
      (persistScan archive b (scanRecord env timestamp b (txs.map ScannedTx.record))) b) := by
  have outputs : ∃ (outs : List TransactionOutput) (notes : List (CoinbaseNote P)),
      (scanRecord env timestamp b (txs.map ScannedTx.record)).coinbaseOutputs =
        outs.map (fun o => (o.scriptPublicKey.script, o.value)) ∧
      buildNotes (env.coinbaseId (env.bodies b).coinbase) 0 outs = .ok notes ∧ mintedNotes mint = notes := by
    unfold coinbaseMintOf at hmint
    cases hnet : env.shieldedCoinbase with
    | false =>
      rw [hnet] at hmint
      cases hmint
      refine ⟨[], [], ?_, rfl, rfl⟩
      simp [scanRecord, hnet]
    | true =>
      rw [hnet] at hmint
      unfold buildCoinbaseMint at hmint
      cases hn : buildNotes (P := P) (env.coinbaseId (env.bodies b).coinbase) 0 (env.bodies b).coinbase.outputs with
      | error e => simp [hn, Except.map] at hmint
      | ok notes =>
        simp only [hn, Except.map, if_true, Except.ok.injEq] at hmint
        subst hmint
        refine ⟨(env.bodies b).coinbase.outputs, notes, ?_, hn, rfl⟩
        simp [scanRecord, hnet]
  obtain ⟨outs, notes, houts, hnotes, minted⟩ := outputs
  rw [minted] at hsub
  unfold persistScan
  split
  · simp only [shieldedChainBlockData, update_self]
    exact ⟨by simp [scanRecord, ScannedTx.record], by simp [scanRecord, ScannedTx.record], hnfs,
      outs, notes, houts, hnotes, hsub⟩
  · rename_i empty
    rw [not_or, not_not, not_not] at empty
    have nothing : txs = [] := by simpa [scanRecord] using empty.2
    have none : outs = [] := by simpa [houts] using empty.1
    subst nothing none
    simp only [shieldedChainBlockData, hnew]
    cases hnotes
    exact ⟨rfl, rfl, hnfs, [], [], rfl, rfl, hsub⟩

/-- The archive of a node serves for every batch what it applied, and has nothing else. -/
structure Archived (env : ChainEnv P) (timestamp : Hash → Nat) (n : ArchiveNode P) : Prop where
  applied : ∀ {b c}, n.node.db.computedAt b = some c → ∃ txs, ∀ view,
    Lists c.outcome.newNullifiers c.outcome.subtree txs (shieldedChainBlockData env timestamp view n.archive b)
  others : ∀ {b}, n.node.db.computedAt b = none → n.archive b = none

theorem archived_genesis (env : ChainEnv P) (timestamp : Hash → Nat) (statuses : Hash → BlockStatus) :
    Archived env timestamp (genesis env statuses) where
  applied := by
    intro b c h
    have none : (VirtualDb.genesis env.tree.root statuses : VirtualDb P).computedAt b = none := by
      by_cases hb : b = env.tree.root
      · rw [hb]
        exact computedAt_commit_self ..
      · exact computedAt_commit_of_ne _ hb
    rw [genesis, VirtualNode.genesis, none] at h
    cases h
  others := fun _ => rfl

theorem Archived.step {e : Event} {node' : VirtualNode P} (h : Archived env timestamp n)
    (hstep : n.node.step env e = some node') :
    ∃ archive, n.archiveStep env timestamp e = some archive ∧ Archived env timestamp ⟨node', archive⟩ := by
  rcases archiveStep_cases timestamp hstep with ⟨commits, same⟩ | ⟨b, view, c, hnew, hvalid, hdb, harchive⟩
  · have computed : node'.db.computedAt = n.node.db.computedAt := by
      funext b
      rw [computedAt, computedAt, commits]
    exact ⟨n.archive, same, by rw [computed]; exact h.applied, by rw [computed]; exact h.others⟩
  · obtain ⟨txs, mint, hscan, hnfs, hmint, hsub⟩ := scanBlock_ok timestamp hvalid
    have empty : n.archive b = none := h.others (computedAt_of_new hnew)
    refine ⟨_, by rw [harchive, hscan]; rfl, ?_, ?_⟩
    · intro a c' ha
      rw [hdb] at ha
      by_cases hab : a = b
      · subst hab
        rw [computedAt_commit_self] at ha
        cases ha
        exact ⟨txs, fun view => lists_persistScan view empty hnfs hmint hsub⟩
      · rw [computedAt_commit_of_ne _ hab] at ha
        obtain ⟨txs', lists⟩ := h.applied ha
        refine ⟨txs', fun view => ?_⟩
        rw [shieldedChainBlockData_congr (persistScan_of_ne _ hab)]
        exact lists view
    · intro a ha
      rw [hdb] at ha
      have hab : a ≠ b := by
        rintro rfl
        rw [computedAt_commit_self] at ha
        cases ha
      rw [computedAt_commit_of_ne _ hab] at ha
      exact (persistScan_of_ne _ hab).trans (h.others ha)

/-- **The archive never panics and never drifts.** Whatever a node does, its archive can be kept along,
and what it serves for a committed block is what the block's transition applied. -/
theorem run_archived {es : List Event} (h : Archived env timestamp n)
    (hrun : n.node.run env es = some node') :
    ∃ archive, n.run env timestamp es = some ⟨node', archive⟩ ∧ Archived env timestamp ⟨node', archive⟩ := by
  induction es generalizing n with
  | nil =>
    cases hrun
    exact ⟨n.archive, rfl, h⟩
  | cons e es ih =>
    obtain ⟨node₁, hstep, hrun⟩ := bind_eq_some_iff.mp hrun
    obtain ⟨archive₁, harchive, archived⟩ := h.step hstep
    obtain ⟨archive, hrest, last⟩ := ih archived hrun
    refine ⟨archive, ?_, last⟩
    rw [run, step, harchive, bind_eq_bind, bind_some, hstep]
    exact hrest

/-- What is served for any block: a block without a batch has an empty record. -/
theorem Archived.lists (h : Archived env timestamp n) (b : Hash) : ∃ txs, ∀ view,
    Lists (n.node.db.nullifiersOf b) (n.node.db.subtreeOf b) txs
      (shieldedChainBlockData env timestamp view n.archive b) := by
  unfold nullifiersOf subtreeOf
  cases hc : n.node.db.computedAt b with
  | some c => exact h.applied hc
  | none =>
    refine ⟨[], fun view => ?_⟩
    unfold shieldedChainBlockData
    rw [h.others hc]
    exact ⟨rfl, rfl, rfl, [], [], rfl, rfl, rfl⟩

/-- **The archive follows the node.** Along every run, crashes included, keeping it never fails, and what
it serves for a block is what the transition of the block applied. -/
theorem archive_follows {statuses : Hash → BlockStatus} {es : List Event}
    (run : (VirtualNode.genesis env statuses).run env es = some node') :
    ∃ archive, (genesis env statuses).run env timestamp es = some ⟨node', archive⟩ ∧ ∀ b, ∃ txs, ∀ view,
      Lists (node'.db.nullifiersOf b) (node'.db.subtreeOf b) txs
        (shieldedChainBlockData env timestamp view archive b) := by
  obtain ⟨archive, kept, archived⟩ := run_archived (archived_genesis env timestamp statuses) run
  exact ⟨archive, kept, archived.lists⟩

/-- After a crash in a reorg from block 2, its spend, its coinbase note and the note of the spend are still served. -/
theorem archive_follows_fork :
    ∃ n txs, (genesis forkNet pendingAll).run forkNet (fun _ => 0) VirtualNode.crashAndResume = some n ∧
    ∀ view, Lists (P := symbolic) [7] [52, 7] txs (shieldedChainBlockData forkNet (fun _ => 0) view n.archive 2) := by
  have reached : ((VirtualNode.genesis forkNet pendingAll).run forkNet VirtualNode.crashAndResume).map
      (fun n => (n.db.nullifiersOf 2, n.db.subtreeOf 2)) = some ([7], [52, 7]) := by decide
  obtain ⟨node, run, applied⟩ := map_eq_some_iff.mp reached
  obtain ⟨nullifiers, leaves⟩ := Prod.mk.inj applied
  obtain ⟨archive, kept, served⟩ := archive_follows run
  obtain ⟨txs, lists⟩ := served 2
  rw [nullifiers, leaves] at lists
  exact ⟨_, txs, kept, lists⟩

end ArchiveNode

end Firecash
