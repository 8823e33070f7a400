import Firecash.Lib.Worklist
import Firecash.Pow.Gate
import Mathlib.Data.List.Sort

/-!
# GHOSTDAG (consensus/src/processes/ghostdag)

The colouring of a new block: its selected parent is the parent of highest blue work, the rest of what it
merges is found by a search down from the other parents, and one by one, in ascending blue work, each merged block
becomes blue if that leaves the blue set a `k`-cluster, and red otherwise. Whether it does is read off counters that
are kept with the blocks of the selected chain.

`none` is a panic: an `unwrap` of a missing entry, the `panic!` of `blue_anticone_size`, an `assert!`, or an overflow of
a machine integer. Blue work is a `Uint192`, whose addition wraps in a release build. The walks down the
selected chain are given as much fuel as the stores have blocks.
-/

namespace Firecash

/-- `blockhash::ORIGIN`: 32 bytes `0xfe` -/
def ORIGIN : Hash := BitVec.ofBytes 32 (List.replicate 32 0xfe)

/-- `BlueWorkType` -/
abbrev BlueWork := BitVec 192

/-! ## Work -/

/-- `calc_work` (difficulty.rs:304); `none`: "Work should not exceed 2**192". -/
def calcWork (bits : UInt32) : Option BlueWork :=
  let target := fromCompactTargetBits bits
  let res := ~~~target / (target + 1) + 1
  if res.toNat < 2 ^ 192 then some (BitVec.ofNat 192 res.toNat) else none

def MAX_WORK_LEVEL : Nat := 128

/-- `level_work` (difficulty.rs:316) -/
def levelWork (level maxBlockLevel : BlockLevel) : BlueWork :=
  if level = 0 then 0 else 1 <<< min (level.toNat + 256 - maxBlockLevel.toNat) MAX_WORK_LEVEL

/-! ## Stored data -/

/-- `GhostdagData` (stores/ghostdag.rs:23) -/
structure StoredGhostdagData where
  blueScore : Nat
  blueWork : BlueWork
  selectedParent : Hash
  mergesetBlues : List Hash
  mergesetReds : List Hash
  bluesAnticoneSizes : Hash → Option Nat

namespace StoredGhostdagData

/-- `new_with_selected_parent`; `none`: `k + 1` overflows a `u16`. -/
def newWithSelectedParent (selectedParent : Hash) (k : Nat) : Option StoredGhostdagData :=
  if k + 1 < 65536 then
    some ⟨0, 0, selectedParent, [selectedParent], [], Function.update (fun _ => none) selectedParent (some 0)⟩
  else none

def addBlue (data : StoredGhostdagData) (block : Hash) (blueAnticoneSize : Nat) (sizes : List (Hash × Nat)) :
    StoredGhostdagData :=
  { data with
    mergesetBlues := data.mergesetBlues ++ [block]
    bluesAnticoneSizes := sizes.foldl (fun m (blue, size) => Function.update m blue (some (size + 1)))
      (Function.update data.bluesAnticoneSizes block (some blueAnticoneSize)) }

def addRed (data : StoredGhostdagData) (block : Hash) : StoredGhostdagData :=
  { data with mergesetReds := data.mergesetReds ++ [block] }

end StoredGhostdagData

/-- `genesis_ghostdag_data` (protocol.rs:77) -/
def genesisGhostdagData : StoredGhostdagData := ⟨0, 0, ORIGIN, [], [], fun _ => none⟩

/-- `origin_ghostdag_data` (protocol.rs:88) -/
def originGhostdagData : StoredGhostdagData := ⟨0, 0, 0, [], [], fun _ => none⟩

/-! ## Order -/

structure SortableBlock where
  hash : Hash
  blueWork : BlueWork

/-- The bytes of a hash are compared from the first one on. -/
def Hash.bigEndian (h : Hash) : Nat := ofLe (BitVec.bytes (n := 32) h).reverse

/-- `cmp`: by blue work, then by hash. -/
def SortableBlock.key (b : SortableBlock) : Nat := b.blueWork.toNat * 2 ^ 256 + Hash.bigEndian b.hash

/-- `Iterator::max` -/
def maxSortable : List SortableBlock → Option SortableBlock
  | [] => none
  | b :: bs =>
    match maxSortable bs with
    | none => some b
    | some m => if m.key < b.key then some b else some m

/-! ## The manager -/

/-- `GhostdagManager` (protocol.rs:25) with what its stores hold. -/
structure GhostdagManager where
  genesisHash : Hash
  k : Nat
  getData : Hash → Option StoredGhostdagData
  getParents : Hash → Option (List Hash)
  getBits : Hash → Option UInt32
  isDagAncestorOf : Hash → Hash → Bool
  levelWork : BlueWork
  /-- The number of blocks in the stores. -/
  size : Nat

namespace GhostdagManager

variable (M : GhostdagManager)

def sortable (h : Hash) : Option SortableBlock := (M.getData h).map fun d => ⟨h, d.blueWork⟩

/-- `find_selected_parent` (protocol.rs:99) -/
def findSelectedParent (parents : List Hash) : Option Hash := do
  let blocks ← parents.mapM M.sortable
  let best ← maxSortable blocks
  pure best.hash

/-- `sort_blocks` (ordering.rs:45) -/
def sortBlocks (blocks : List Hash) : Option (List Hash) := do
  let blocks ← blocks.mapM M.sortable
  pure ((blocks.insertionSort fun a b => a.key ≤ b.key).map SortableBlock.hash)

/-- `unordered_mergeset_without_selected_parent` (mergeset.rs:9) -/
def unorderedMergesetWithoutSelectedParent (selectedParent : Hash) (parents : List Hash) : Option (List Hash) :=
  let starts := parents.filter (· ≠ selectedParent)
  Worklist.run M.getParents (M.isDagAncestorOf · selectedParent) (starts.length + M.size) (Worklist.start starts)

def orderedMergesetWithoutSelectedParent (selectedParent : Hash) (parents : List Hash) : Option (List Hash) := do
  let mergeset ← M.unorderedMergesetWithoutSelectedParent selectedParent parents
  M.sortBlocks mergeset

/-- The loop of `blue_anticone_size` from the chain block with these sizes and this selected parent. -/
def blueAnticoneSizeFrom (block : Hash) : Nat → (Hash → Option Nat) → Hash → Option Nat
  | fuel, sizes, selectedParent =>
    match sizes block with
    | some size => some size
    | none =>
      if selectedParent = M.genesisHash ∨ selectedParent = ORIGIN then none
      else
        match fuel, M.getData selectedParent with
        | fuel + 1, some data => blueAnticoneSizeFrom block fuel data.bluesAnticoneSizes data.selectedParent
        | _, _ => none

/-- `blue_anticone_size` (protocol.rs:230) -/
def blueAnticoneSize (block : Hash) (context : StoredGhostdagData) : Option Nat :=
  M.blueAnticoneSizeFrom block M.size context.bluesAnticoneSizes context.selectedParent

/-- `candidate_blue_anticone_size` and `candidate_blues_anticone_sizes`, in the order of insertion. -/
structure Candidate where
  size : Nat
  sizes : List (Hash × Nat)

/-- The loop over the blue peers of a chain block; `some none` is `ColoringState::Red`. -/
def checkPeers (newBlockData : StoredGhostdagData) (blueCandidate : Hash) :
    List Hash → Candidate → Option (Option Candidate)
  | [], acc => some (some acc)
  | peer :: peers, acc =>
    if M.isDagAncestorOf peer blueCandidate then checkPeers newBlockData blueCandidate peers acc
    else
      match M.blueAnticoneSize peer newBlockData with
      | none => none
      | some peerSize =>
        let acc : Candidate := ⟨acc.size + 1, acc.sizes ++ [(peer, peerSize)]⟩
        if acc.size > M.k then some none
        else if peerSize = M.k then some none
        -- `assert!(peer_blue_anticone_size <= k)`
        else if peerSize > M.k then none
        else checkPeers newBlockData blueCandidate peers acc

/-- The loop of `check_blue_candidate` from a chain block on, which has no hash if it is the new block. -/
def checkChainBlock (newBlockData : StoredGhostdagData) (blueCandidate : Hash) :
    Nat → Option Hash → StoredGhostdagData → Candidate → Option (Option Candidate)
  | fuel, hash, data, acc =>
    if hash.any (M.isDagAncestorOf · blueCandidate) then some (some acc)
    else
      match M.checkPeers newBlockData blueCandidate data.mergesetBlues acc with
      | none => none
      | some none => some none
      | some (some acc) =>
        match fuel, M.getData data.selectedParent with
        | fuel + 1, some next => checkChainBlock newBlockData blueCandidate fuel (some data.selectedParent) next acc
        | _, _ => none

/-- `check_blue_candidate` (protocol.rs:247) -/
def checkBlueCandidate (newBlockData : StoredGhostdagData) (blueCandidate : Hash) : Option (Option Candidate) :=
  if newBlockData.mergesetBlues.length = M.k + 1 then some none
  else M.checkChainBlock newBlockData blueCandidate M.size none newBlockData ⟨0, []⟩

/-- The body of the colouring loop. -/
def colour (data : StoredGhostdagData) (blueCandidate : Hash) : Option StoredGhostdagData :=
  match M.checkBlueCandidate data blueCandidate with
  | none => none
  | some (some c) => some (data.addBlue blueCandidate c.size c.sizes)
  | some none => some (data.addRed blueCandidate)

/-- `calc_work(bits).max(level_work)` -/
def workOf (h : Hash) : Option BlueWork := do
  let bits ← M.getBits h
  let work ← calcWork bits
  pure (if work < M.levelWork then M.levelWork else work)

/-- The end of `ghostdag`: score and work of the new block. -/
def finalizeScoreAndWork (data : StoredGhostdagData) : Option StoredGhostdagData := do
  let parentData ← M.getData data.selectedParent
  let blueScore := parentData.blueScore + data.mergesetBlues.length
  if blueScore < 2 ^ 64 then do
    let works ← data.mergesetBlues.mapM M.workOf
    pure { data with blueScore := blueScore, blueWork := parentData.blueWork + works.sum }
  else none

/-- `ghostdag` (protocol.rs:126) -/
def ghostdag (parents : List Hash) : Option StoredGhostdagData := do
  -- `find_selected_parent` of no parents is `None.unwrap()`, and the assertion fails before it
  let selectedParent ← M.findSelectedParent parents
  if selectedParent = ORIGIN then StoredGhostdagData.newWithSelectedParent selectedParent 1
  else do
    let data ← StoredGhostdagData.newWithSelectedParent selectedParent M.k
    let orderedMergeset ← M.orderedMergesetWithoutSelectedParent selectedParent parents
    let data ← orderedMergeset.foldlM M.colour data
    M.finalizeScoreAndWork data

end GhostdagManager

end Firecash
