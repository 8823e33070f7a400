import Firecash.Wallet.Db

/-!
# Spends, live witnesses and base compaction (shielded-core/src/walletdb.rs)

A note whose spend was submitted is parked and handed back if the spend is lost. Witnesses of some of
the notes are kept live at a lagging leaf count, which the sweep moves forward; the others are rebuilt
from the base frontier and the stored leaves. Compaction rolls the base forward and drops the leaves
below it.

`WalletOp` gathers the calls that change a wallet, `WalletDb.run` a sequence of them.
-/

namespace Firecash

variable {P : Prim} {W : WalletPrim P}

/-- `orchard::tree::MerklePath`: a `u32` position and the siblings from the leaf up. -/
structure MerklePath (P : Prim) where
  position : Nat
  authPath : List P.Node

/-- `MerklePath::root` -/
def MerklePath.root (W : WalletPrim P) (path : MerklePath P) (leaf : P.Node) : P.Anchor :=
  W.nodeAnchor (W.hasher.pathRoot path.position leaf path.authPath)

/-- `path_elems().try_into()`, then `MerklePath::from_parts(position as u32, auth)`. -/
def MerklePath.ofElems (elems : Nat × List P.Node) : Option (MerklePath P) :=
  if elems.2.length = TREE_DEPTH then some ⟨elems.1 % TREE_CAPACITY, elems.2⟩ else none

namespace WalletDb

/-! ## Spends -/

variable (db : WalletDb W)

/-- `mark_spent` (walletdb.rs:933) -/
def markSpent (position : Nat) (txid : Bytes32) (submittedDaa : UInt64) : WalletDb W :=
  match db.notes.find? (·.position == position) with
  | some note =>
    { db with
      notes := db.notes.eraseP (·.position == position)
      pendingSpends := db.pendingSpends ++ [⟨note, txid, submittedDaa⟩] }
  | none => db

/-- Parked too long, with a known origin. -/
def expired (now maxAge : UInt64) (p : PendingSpend W) : Bool :=
  p.submittedDaa != 0 && decide (maxAge.toNat < now.toNat - p.submittedDaa.toNat)

/-- `self.notes.insert(at, note)`, before the first note of a larger position. -/
def insertNote (notes : List (OwnedNote W)) (note : OwnedNote W) : List (OwnedNote W) :=
  let below := fun n : OwnedNote W => decide (n.position ≤ note.position)
  notes.takeWhile below ++ note :: notes.dropWhile below

/-- `reclaim_expired` (walletdb.rs:822): the loop takes the expired spends out in order. -/
def reclaimExpired (now maxAge : UInt64) : WalletDb W × List (Bytes32 × UInt64) :=
  let lost := db.pendingSpends.filter (expired now maxAge)
  ({ db with
      pendingSpends := db.pendingSpends.filter fun p => !expired now maxAge p
      notes := (lost.map (·.note)).foldl insertNote db.notes },
    lost.map fun p => (p.txid, p.note.value))

/-! ## The decoded stream -/

/-- `decoded_leaves` (walletdb.rs:1260): the cache if it is filled; a leaf that does not decode leaves
nothing. -/
def decodedLeaves : List P.Node :=
  match db.decoded with
  | some nodes => nodes
  | none => (GlobalTree.nodesFromBytes P db.leaves).getD []

/-- `warm_leaves` (walletdb.rs:1274): whatever reads the decoded stream leaves the cache filled. -/
def warmLeaves : WalletDb W := { db with decoded := some db.decodedLeaves }

/-! ## Live witnesses -/

/-- `set_witness_budget` (walletdb.rs:965) -/
def setWitnessBudget (budget : Nat) : WalletDb W :=
  { db with witnessBudget := min (max budget 1) MAX_LIVE_WITNESSES }

/-- The order of `witness_eligible`: most valuable first, then by position. -/
def spendsBefore (a b : OwnedNote W) : Prop := b.value < a.value ∨ (a.value = b.value ∧ a.position ≤ b.position)
  deriving Decidable

/-- `witness_eligible` (walletdb.rs:995) -/
def witnessEligible : List Nat :=
  if db.notes.length ≤ db.witnessBudget then db.notes.map (·.position)
  else ((db.notes.insertionSort spendsBefore).take db.witnessBudget).map (·.position)

/-- `self.witnesses.retain(|(pos, _)| eligible.contains(pos))` -/
def retainWitnesses (eligible : List Nat) : WalletDb W :=
  { db with witnesses := db.witnesses.filter fun pw => decide (pw.1 ∈ eligible) }

/-- One leaf of the sweep: open witnesses and the lagging tree see it, and a witness may be opened at it. -/
def sweepLeaf (eligible : List Nat) (db : WalletDb W) (abs : Nat) (leaf : P.Node) : WalletDb W :=
  let lagTree := (W.treeAppend db.lagTree leaf).getD db.lagTree
  let witnesses := db.witnesses.map fun (p, w) => (p, (W.witnessAppend w leaf).getD w)
  let opened :=
    if abs ∈ eligible ∧ witnesses.length < db.witnessBudget then (W.witnessFromTree lagTree).map (abs, ·) else none
  { db with lagTree, witnesses := witnesses ++ opened.toList }

/-- The loop of the sweep, for `n` leaves from `abs` on. -/
def sweep (eligible : List Nat) : Nat → Nat → WalletDb W → WalletDb W
  | 0, _, db => db
  | n + 1, abs, db =>
    match db.decodedLeaves[abs - db.baseSize]? with
    | none => db
    | some leaf => sweep eligible n (abs + 1) (sweepLeaf eligible db abs leaf)

/-- `advance_witnesses_range` (walletdb.rs:1004) -/
def advanceWitnessesRange (start target : Nat) : WalletDb W :=
  if target ≤ start then db
  else
    let eligible := db.witnessEligible
    { sweep eligible (target - start) start (db.warmLeaves.retainWitnesses eligible) with witnessedUpto := target }

/-- `advance_witnesses_capped` (walletdb.rs:973) -/
def advanceWitnessesCapped (targetLeaves maxLeaves : Nat) : WalletDb W × Bool :=
  let fullTarget := min targetLeaves db.size
  let start := max db.witnessedUpto db.baseSize
  if fullTarget ≤ start then (db, false)
  else
    let target := min fullTarget (start + maxLeaves)
    (db.advanceWitnessesRange start target, decide (target < fullTarget))

/-- What the sweep can do: nothing, or go on from where it is to a leaf that is not past the tip. -/
theorem advanceWitnessesCapped_cases (targetLeaves maxLeaves : Nat) :
    (db.advanceWitnessesCapped targetLeaves maxLeaves).1 = db ∨
      ∃ target, max db.witnessedUpto db.baseSize < target ∧ target ≤ db.size ∧
        (db.advanceWitnessesCapped targetLeaves maxLeaves).1 =
          { sweep db.witnessEligible (target - max db.witnessedUpto db.baseSize) (max db.witnessedUpto db.baseSize)
              (db.warmLeaves.retainWitnesses db.witnessEligible) with
            witnessedUpto := target } := by
  unfold advanceWitnessesCapped advanceWitnessesRange
  dsimp only
  split
  · exact .inl rfl
  · split
    · exact .inl rfl
    · exact .inr ⟨_, by omega, by omega, rfl⟩

/-! ## Compaction -/

/-- The position of the earliest note that is held, pending spends included. -/
def earliestHeld : Nat :=
  (db.notes.map (·.position) ++ db.pendingSpends.map (·.note.position)).min?.getD db.size

/-- The leaves below `stepTarget`, which `tree` holds, are dropped from the stream and from its cache. -/
def rollBase (stepTarget : Nat) (tree : W.Tree) : WalletDb W :=
  let rel := stepTarget - db.baseSize
  { db with
    baseFrontier := W.treeToFrontier tree
    baseSize := stepTarget
    leaves := db.leaves.drop rel
    decoded := db.decoded.map (·.drop rel) }

/-- Witnesses that have fallen behind the base start over at it. -/
def realign : WalletDb W :=
  if db.witnessedUpto < db.baseSize then
    { db with
      witnessedUpto := db.baseSize
      lagTree := W.treeFromFrontier db.baseFrontier
      witnesses := db.witnesses.filter fun pw => decide (db.baseSize ≤ pw.1) }
  else db

/-- `advance_base_capped` (walletdb.rs:1045) -/
def advanceBaseCapped (target maxLeaves : Nat) : WalletDb W × Bool :=
  let fullTarget := min (min target db.earliestHeld) db.size
  if fullTarget ≤ db.baseSize then (db, false)
  else
    let stepTarget := min fullTarget (db.baseSize + maxLeaves)
    let rel := stepTarget - db.baseSize
    let db := db.warmLeaves
    if rel > db.decodedLeaves.length then (db, false)
    else
      match W.treeExtend (W.treeFromFrontier db.baseFrontier) (db.decodedLeaves.take rel) with
      | none => (db, false)
      | some tree => ((db.rollBase stepTarget tree).realign, decide (stepTarget < fullTarget))

/-- What compaction can do: nothing, fill the cache, or roll the base to a leaf that is neither past a
held note nor past the tip. -/
theorem advanceBaseCapped_cases (target maxLeaves : Nat) :
    (db.advanceBaseCapped target maxLeaves).1 = db ∨ (db.advanceBaseCapped target maxLeaves).1 = db.warmLeaves ∨
      ∃ stepTarget tree, db.baseSize ≤ stepTarget ∧ stepTarget ≤ db.earliestHeld ∧ stepTarget ≤ db.size ∧
        W.treeExtend (W.treeFromFrontier db.baseFrontier) (db.decodedLeaves.take (stepTarget - db.baseSize)) =
          some tree ∧
        (db.advanceBaseCapped target maxLeaves).1 = (db.warmLeaves.rollBase stepTarget tree).realign := by
  unfold advanceBaseCapped
  dsimp only
  split
  · exact .inl rfl
  · rename_i ahead
    split
    · exact .inr (.inl rfl)
    · split
      · exact .inr (.inl rfl)
      · rename_i tree htree
        exact .inr (.inr ⟨_, tree, by omega, by omega, by omega, htree, rfl⟩)

/-! ## Paths -/

variable (position maturedLeaves : Nat)

/-- `rebuild_witness` (walletdb.rs:1145) -/
def rebuildWitness : Option W.Witness :=
  if position < db.baseSize ∨ maturedLeaves < db.baseSize then none
  else
    let rel := position - db.baseSize
    let maturedRel := maturedLeaves - db.baseSize
    let leaves := db.decodedLeaves
    if rel ≥ maturedRel ∨ maturedRel > leaves.length then none
    else W.witnessOver (W.treeFromFrontier db.baseFrontier) (leaves.take maturedRel) rel

/-- `install_witness` (walletdb.rs:1184) -/
def installWitness (position target : Nat) : WalletDb W × Bool :=
  if db.witnessedUpto ≠ target then (db, false)
  else if db.witnesses.any fun (p, _) => p == position then (db, true)
  else if db.witnesses.length ≥ db.witnessBudget then (db, false)
  else if position ∉ db.witnessEligible then (db, false)
  -- `rebuild_witness` returns from its two subtractions before it decodes the leaves
  else if position < db.baseSize ∨ target < db.baseSize then (db, false)
  else
    let db := db.warmLeaves
    match db.rebuildWitness position target with
    | some w => ({ db with witnesses := db.witnesses ++ [(position, w)] }, true)
    | none => (db, false)

/-- What an install can do: nothing, fill the cache, or keep the witness it rebuilt. -/
theorem installWitness_cases (position target : Nat) :
    (db.installWitness position target).1 = db ∨ (db.installWitness position target).1 = db.warmLeaves ∨
      ∃ w, db.witnessedUpto = target ∧ db.witnesses.length < db.witnessBudget ∧
        db.rebuildWitness position target = some w ∧
        (db.installWitness position target).1 =
          { db.warmLeaves with witnesses := db.witnesses ++ [(position, w)] } := by
  unfold installWitness
  dsimp only
  split
  · exact .inl rfl
  · rename_i here
    split
    · exact .inl rfl
    · split
      · exact .inl rfl
      · rename_i room
        split
        · exact .inl rfl
        · split
          · exact .inl rfl
          · split
            · rename_i w hw
              exact .inr (.inr ⟨w, not_not.mp here, by omega, hw, rfl⟩)
            · exact .inr (.inl rfl)

/-- `live_witness_path` (walletdb.rs:1246) -/
def liveWitnessPath : Option (MerklePath P) :=
  if db.witnessedUpto ≠ maturedLeaves then none
  else do
    let (_, w) ← db.witnesses.find? fun (p, _) => p == position
    let elems ← W.witnessPath w
    MerklePath.ofElems elems

/-- `witness_path_at` (walletdb.rs:1318): the live witness if it is at this leaf count, else a rebuild,
whose bounds `rebuild_witness` checks again. -/
def witnessPathAt : Option (MerklePath P) :=
  (db.liveWitnessPath position maturedLeaves).orElse fun _ => do
    let w ← db.rebuildWitness position maturedLeaves
    let elems ← W.witnessPath w
    MerklePath.ofElems elems

/-- `stranded_notes` (walletdb.rs:1239) -/
def strandedNotes : List (OwnedNote W) :=
  db.notes.filter fun n => decide (n.position < db.baseSize) && !(db.witnesses.any fun (p, _) => p == n.position)

end WalletDb

/-! ## Calls and runs -/

/-- A block as one of the four ingest functions takes it. -/
inductive WalletBlock (P : Prim) where
  | full (coinbase : List (CoinbaseNoteDesc × UInt64)) (txs : List (ShieldedBundle P))
  | precomputed (coinbase : List (CoinbaseNoteDesc × UInt64 × P.Cmx)) (txs : List (ShieldedBundle P))
  | compact (coinbase : List (CoinbaseNoteDesc × UInt64)) (txs : List (List CompactActionRecord))
  | compactPrecomputed (coinbase : List (CoinbaseNoteDesc × UInt64 × P.Cmx)) (txs : List (List CompactActionRecord))

/-- A call that changes a wallet. -/
inductive WalletOp (P : Prim) where
  | ingest (block : WalletBlock P) (info : Option BlockMeta)
  | markSpent (position : Nat) (txid : Bytes32) (submittedDaa : UInt64)
  | reclaimExpired (now maxAge : UInt64)
  | setWitnessBudget (budget : Nat)
  | advanceWitnessesCapped (targetLeaves maxLeaves : Nat)
  | advanceBaseCapped (target maxLeaves : Nat)
  | installWitness (position target : Nat)
  /-- `warm_leaves`, or a query that fills the cache. -/
  | warmLeaves

/-- The calls that only tend the cache, the witnesses and the base. -/
def WalletOp.tends : WalletOp P → Bool
  | .ingest .. | .markSpent .. | .reclaimExpired .. => false
  | _ => true

namespace WalletDb

variable (db : WalletDb W)

def ingest (block : WalletBlock P) (info : Option BlockMeta) : Option (WalletDb W) :=
  match block with
  | .full coinbase txs => db.ingestBlockWithMeta coinbase txs info
  | .precomputed coinbase txs => db.ingestBlockPrecomputedWithMeta coinbase txs info
  | .compact coinbase txs => db.ingestBlockCompactWithMeta coinbase txs info
  | .compactPrecomputed coinbase txs => db.ingestBlockCompactPrecomputedWithMeta coinbase txs info

/-- `none`: the call panics. -/
def apply : WalletOp P → Option (WalletDb W)
  | .ingest block info => db.ingest block info
  | .markSpent position txid submittedDaa => some (db.markSpent position txid submittedDaa)
  | .reclaimExpired now maxAge => some (db.reclaimExpired now maxAge).1
  | .setWitnessBudget budget => some (db.setWitnessBudget budget)
  | .advanceWitnessesCapped targetLeaves maxLeaves => some (db.advanceWitnessesCapped targetLeaves maxLeaves).1
  | .advanceBaseCapped target maxLeaves => some (db.advanceBaseCapped target maxLeaves).1
  | .installWitness position target => some (db.installWitness position target).1
  | .warmLeaves => some db.warmLeaves

def run (ops : List (WalletOp P)) : Option (WalletDb W) := ops.foldlM apply db

/-! ## Upkeep -/

/-- The wallet without its stored stream and its witnesses. -/
def ledger : WalletDb W :=
  { db with
    baseFrontier := P.frontierEmpty, baseSize := 0, leaves := [], decoded := none
    witnesses := [], witnessBudget := 0, lagTree := W.treeEmpty, witnessedUpto := 0 }

theorem ledger_sweep (eligible : List Nat) (n abs : Nat) (db : WalletDb W) :
    (sweep eligible n abs db).ledger = db.ledger ∧ (sweep eligible n abs db).baseSize = db.baseSize := by
  induction n generalizing abs db with
  | zero => exact ⟨rfl, rfl⟩
  | succ n ih =>
    rw [sweep]
    split
    · exact ⟨rfl, rfl⟩
    · exact ih (abs + 1) _

variable {db}

/-- Upkeep leaves the ledger alone, and a base that moves stops at the earliest held note. -/
theorem apply_upkeep {op : WalletOp P} {db' : WalletDb W} (tends : op.tends = true) (h : db.apply op = some db') :
    db'.ledger = db.ledger ∧
      (db'.baseSize = db.baseSize ∨ db'.baseSize ≤ db.earliestHeld ∧ db'.baseSize ≤ db.size) := by
  cases op with
  | ingest _ _ | markSpent _ _ _ | reclaimExpired _ _ => cases tends
  | setWitnessBudget _ | warmLeaves =>
    cases h
    exact ⟨rfl, .inl rfl⟩
  | advanceWitnessesCapped target maxLeaves =>
    cases h
    obtain same | ⟨t, -, -, eq⟩ := advanceWitnessesCapped_cases db target maxLeaves
    · rw [same]
      exact ⟨rfl, .inl rfl⟩
    · rw [eq]
      exact (ledger_sweep ..).imp id .inl
  | advanceBaseCapped target maxLeaves =>
    cases h
    obtain same | warmed | ⟨step, tree, -, held, tip, -, eq⟩ := advanceBaseCapped_cases db target maxLeaves
    · rw [same]
      exact ⟨rfl, .inl rfl⟩
    · rw [warmed]
      exact ⟨rfl, .inl rfl⟩
    · rw [eq]
      unfold realign
      split <;> exact ⟨rfl, .inr ⟨held, tip⟩⟩
  | installWitness position target =>
    cases h
    obtain same | warmed | ⟨w, -, -, -, eq⟩ := installWitness_cases db position target
    · rw [same]
      exact ⟨rfl, .inl rfl⟩
    · rw [warmed]
      exact ⟨rfl, .inl rfl⟩
    · rw [eq]
      exact ⟨rfl, .inl rfl⟩

end WalletDb

end Firecash
