import Firecash.Lib.Fallible
import Firecash.Lib.SparseTree

/-!
# The sparse Merkle tree (crypto/smt)

A tree of depth 256 over keys of 256 bits. A node store holds its inner nodes by depth and key prefix; a
subtree with a single leaf is one `Collapsed` node instead of a chain down to the leaf.
`compute_root_update` reads the store, follows a batch of leaf updates down, and returns the new root with
the nodes that changed.

A hash is its 32 bytes as a number, the first byte the most significant: bit `d` from the top is then
`bit_at(key, d)`, and the order is that of the bytes.
-/

namespace Firecash.Smt

open KeyBits SparseTree

/-- `kaspa_hashes::Hash` -/
abbrev Hash := BitVec 256

def DEPTH : Nat := 256

def ZERO_HASH : Hash := 0

/-- `SmtHasher` (lib.rs:82): `node` is `hash_node::<H>`, `leaf` is `hash_node::<H::CollapsedHasher>`. -/
abbrev SmtHasher := TreeHasher 256 Hash

/-- `EMPTY_HASHES` (lib.rs:97), by the height above the leaves. -/
def EMPTY_HASHES (H : SmtHasher) (height : Nat) : Hash := emptyHash H height

structure BranchKey where
  depth : Nat
  nodeKey : Hash
  deriving DecidableEq

/-- `BranchKey::new` (store.rs:32) -/
def BranchKey.new (depth : Nat) (key : Hash) : BranchKey := ⟨depth, keep depth key⟩

structure CollapsedLeaf where
  laneKey : Hash
  leafHash : Hash
  deriving DecidableEq

inductive Node where
  | internal (hash : Hash)
  | collapsed (leaf : CollapsedLeaf)
  deriving DecidableEq

/-- A leaf to set, or to remove if its hash is zero. -/
structure LeafUpdate where
  key : Hash
  leafHash : Hash
  deriving DecidableEq

/-- `SortedLeafUpdates` (store.rs:120) -/
structure SortedLeafUpdates where
  list : List LeafUpdate
  sorted : list.Pairwise (·.key < ·.key)

/-! ## Slices of updates -/

/-- `single` (store.rs:207) -/
def single : List LeafUpdate → Option LeafUpdate
  | [u] => some u
  | _ => none

variable (updates : List LeafUpdate)

/-- `partition_by_bit` (store.rs:218), with `partition_point` as documented: up to the first key that has the bit. -/
def partitionByBit (depth : Nat) : List LeafUpdate × List LeafUpdate :=
  (updates.takeWhile fun u => !bitAt u.key depth, updates.dropWhile fun u => !bitAt u.key depth)

/-- `first_with_bit` (store.rs:223) -/
def firstWithBit (depth : Nat) (right : Bool) : Option LeafUpdate :=
  if right then (partitionByBit updates depth).2.head? else (partitionByBit updates depth).1.head?

/-- `binary_search_by_key` as documented for a sorted slice: where the key is, or else where it would go. -/
def binarySearchByKey (key : Hash) : Except Nat Nat :=
  match updates.findIdx? (·.key == key) with
  | some found => .ok found
  | none => .error (updates.takeWhile fun u => decide (u.key < key)).length

/-! ## The store -/

/-- `SmtStore` (store.rs:234) -/
structure SmtStore (ε : Type) where
  getNode : BranchKey → Except (Fault ε) (Option Node)
  getLeaf : Hash → Except (Fault ε) (Option Hash)

/-- `SmtNodeChanges` (tree.rs:196): what `get` returns for each key; `some none` is a deleted node. -/
abbrev SmtNodeChanges := BranchKey → Option (Option Node)

variable {ε : Type}

/-- `read_node` (tree.rs:266) -/
def readNode (store : SmtStore ε) (changes : SmtNodeChanges) (key : BranchKey) : Except (Fault ε) (Option Node) :=
  match changes key with
  | some node => .ok node
  | none => store.getNode key

/-- The store overlaid with changes. -/
def SmtStore.overlay (store : SmtStore ε) (changes : SmtNodeChanges) : SmtStore ε :=
  { store with getNode := readNode store changes }

/-- `child_branch_key` (tree.rs:279) -/
def childBranchKey (parent : BranchKey) (right : Bool) (depth : Nat) : BranchKey :=
  ⟨parent.depth + 1, if right then parent.nodeKey ||| BitVec.twoPow 256 (255 - depth) else parent.nodeKey⟩

/-! ## Results of a subtree -/

/-- `NodeResult` (tree.rs:199) -/
inductive NodeResult where
  | empty
  | collapsed (leaf : CollapsedLeaf)
  | internal (hash : Hash)
  deriving DecidableEq

namespace NodeResult

/-- `NodeResult::hash` (tree.rs:214) -/
def hash (H : SmtHasher) (parentDepth : Nat) : NodeResult → Hash
  | empty => EMPTY_HASHES H (DEPTH - 1 - parentDepth)
  | collapsed leaf => H.leaf leaf.laneKey leaf.leafHash
  | internal hash => hash

/-- The node that stores a result. -/
def node : NodeResult → Option Node
  | empty => none
  | collapsed leaf => some (.collapsed leaf)
  | internal hash => some (.internal hash)

def ofNode : Option Node → NodeResult
  | none => empty
  | some (.collapsed leaf) => collapsed leaf
  | some (.internal hash) => internal hash

@[simp] theorem ofNode_node (result : NodeResult) : ofNode result.node = result := by
  cases result <;> rfl

theorem node_injective {result result' : NodeResult} (h : result.node = result'.node) : result = result' := by
  rw [← ofNode_node result, h, ofNode_node]

/-- The match at the end of `compute_root_update_into` (tree.rs:257). -/
def rootHash (H : SmtHasher) : NodeResult → Hash
  | empty => EMPTY_HASHES H DEPTH
  | collapsed leaf => H.leaf leaf.laneKey leaf.leafHash
  | internal hash => hash

end NodeResult

/-- `leaf_result` (tree.rs:289) -/
def leafResult : Option LeafUpdate → NodeResult
  | some u => if u.leafHash ≠ ZERO_HASH then .collapsed ⟨u.key, u.leafHash⟩ else .empty
  | none => .empty

variable (H : SmtHasher)

/-- The result of `merged_node` (tree.rs:298); the node it also returns is `NodeResult.node` of it. -/
def mergedNode (left right : NodeResult) (depth : Nat) : NodeResult :=
  match left, right with
  | .empty, .empty => .empty
  | .collapsed leaf, .empty => .collapsed leaf
  | .empty, .collapsed leaf => .collapsed leaf
  | left, right => .internal (H.node (left.hash H depth) (right.hash H depth))

variable (changes : SmtNodeChanges) (key : BranchKey)

def SmtNodeChanges.insert (node : Option Node) : SmtNodeChanges :=
  Function.update changes key (some node)

/-- `record_change` (tree.rs:317) -/
def recordChange (existing newNode : Option Node) : SmtNodeChanges :=
  if existing ≠ newNode then changes.insert key newNode else changes

/-- `expand_singleton` (tree.rs:323): a collapsed leaf becomes an update of its own, unless the batch has
one for its key. -/
def expandSingleton (existing : Option Node) (updates : List LeafUpdate) : Option Node × List LeafUpdate :=
  match existing with
  | some (.collapsed leaf) =>
    match binarySearchByKey updates leaf.laneKey with
    | .error at_ => (none, updates.take at_ ++ ⟨leaf.laneKey, leaf.leafHash⟩ :: updates.drop at_)
    | .ok _ => (none, updates)
  | other => (other, updates)

/-! ## Computing a root -/

/-- What a subtree leaves: its result, and the changes so far. -/
abbrev SubtreeStep (ε : Type) := SmtNodeChanges → List LeafUpdate → Except (Fault ε) (NodeResult × SmtNodeChanges)

variable (store : SmtStore ε)

/-- `read_sibling_result` (tree.rs:448) -/
def readSiblingResult (changes : SmtNodeChanges) (parent : BranchKey) (right : Bool) (depth : Nat) :
    Except (Fault ε) NodeResult := do
  let node ← readNode store changes (childBranchKey parent right depth)
  pure (.ofNode node)

variable (depth : Nat)

/-- One side of a branch: the sibling as it is stored if nothing on that side changes. -/
def childResult (child : SubtreeStep ε) (parent : BranchKey) (right : Bool)
    (changes : SmtNodeChanges) (updates : List LeafUpdate) : Except (Fault ε) (NodeResult × SmtNodeChanges) :=
  if updates.isEmpty then do
    let result ← readSiblingResult store changes parent right depth
    pure (result, changes)
  else child changes updates

/-- The tombstone of a leaf that was promoted (tree.rs:431): its old place is deleted. -/
def buryPromoted : NodeResult → SmtNodeChanges
  | .collapsed leaf => changes.insert (childBranchKey key (bitAt leaf.laneKey depth) depth) none
  | _ => changes

/-- `compute_subtree` (tree.rs:343) after `expand_singleton`; `child` is the recursive call one level down. -/
def joinSubtree (child : SubtreeStep ε) (key : BranchKey)
    (existingForWrite : Option Node) (changes : SmtNodeChanges) (updates : List LeafUpdate) :
    Except (Fault ε) (NodeResult × SmtNodeChanges) :=
  if depth = DEPTH - 1 then
    let result :=
      mergedNode H (leafResult (firstWithBit updates depth false)) (leafResult (firstWithBit updates depth true))
        (DEPTH - 1)
    pure (result, recordChange changes key existingForWrite result.node)
  else do
    let (leftUpdates, rightUpdates) := partitionByBit updates depth
    let (left, changes) ← childResult store depth child key false changes leftUpdates
    let (right, changes) ← childResult store depth child key true changes rightUpdates
    let result := mergedNode H left right depth
    pure (result, recordChange (buryPromoted changes key depth result) key existingForWrite result.node)

def splitSubtree (child : SubtreeStep ε) (key : BranchKey)
    (existing : Option Node) (changes : SmtNodeChanges) (updates : List LeafUpdate) :
    Except (Fault ε) (NodeResult × SmtNodeChanges) :=
  let (existingForWrite, updates) := expandSingleton existing updates
  joinSubtree H store depth child key existingForWrite changes updates

/-- `compute_subtree` (tree.rs:343) at one depth. -/
def subtreeStep (child : SubtreeStep ε) : SubtreeStep ε := fun changes updates =>
  match updates with
  | [] => .error .panic
  | first :: _ => do
    let key := BranchKey.new depth first.key
    let existing ← readNode store changes key
    match single updates, existing with
    | some u, none =>
      if u.leafHash = ZERO_HASH then pure (.empty, changes)
      else pure (.collapsed ⟨u.key, u.leafHash⟩,
        recordChange changes key existing (some (.collapsed ⟨u.key, u.leafHash⟩)))
    | some u, some (.collapsed leaf) =>
      if u.key = leaf.laneKey then
        let newNode := if u.leafHash = ZERO_HASH then none else some (Node.collapsed ⟨u.key, u.leafHash⟩)
        pure (leafResult (some u), recordChange changes key existing newNode)
      else splitSubtree H store depth child key existing changes updates
    | _, _ => splitSubtree H store depth child key existing changes updates

/-- `compute_subtree` (tree.rs:343), by the number of levels below; a leaf parent makes no further call. -/
def computeSubtree (H : SmtHasher) (store : SmtStore ε) : Nat → SubtreeStep ε
  | 0 => subtreeStep H store (DEPTH - 1) fun _ _ => .error .panic
  | below + 1 => subtreeStep H store (DEPTH - 1 - (below + 1)) (computeSubtree H store below)

/-- `compute_root_update_into` (tree.rs:245) -/
def computeRootUpdateInto (currentRoot : Hash) (updates : SortedLeafUpdates)
    (changes : SmtNodeChanges) : Except (Fault ε) (Hash × SmtNodeChanges) :=
  if updates.list.isEmpty then pure (currentRoot, changes)
  else do
    let (result, changes) ← computeSubtree H store (DEPTH - 1) changes updates.list
    pure (result.rootHash H, changes)

/-- `compute_root_update` (tree.rs:231) -/
def computeRootUpdate (currentRoot : Hash) (updates : SortedLeafUpdates) :
    Except (Fault ε) (Hash × SmtNodeChanges) :=
  computeRootUpdateInto H store currentRoot updates fun _ => none

end Firecash.Smt
