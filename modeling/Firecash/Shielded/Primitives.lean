import Mathlib.Data.UInt

/-!
# Primitives: what the shielded pool calls and does not define

`shielded-core` and the consensus crate call the `orchard`, `incrementalmerkletree`, `blake2b_simd`
and `kaspa-muhash` primitives through a handful of functions. They are gathered here as one record
`Prim`; everything above is a function of it.

Digests (`Anchor`, `NfRoot`, `StateRoot`) are types of the record rather than 32-byte strings: where
a result needs a hash without collisions it says so, and over a finite digest no hash is.
-/

namespace Firecash

/-- `[u8; 32]` -/
abbrev Bytes32 := BitVec 256

instance : LawfulBEq Bytes32 := inferInstance

/-- `kaspa_hashes::Hash`: block hashes and transaction ids. -/
abbrev Hash := Bytes32

/-- `NullifierBytes` (nullifier.rs): the conflict key of a spend. -/
abbrev NullifierBytes := Bytes32

structure Prim where
  Cmx : Type
  Node : Type
  Frontier : Type
  Anchor : Type
  Elt : Type
  NfRoot : Type
  StateRoot : Type
  [decCmx : DecidableEq Cmx]
  [decAnchor : DecidableEq Anchor]
  [decNfRoot : DecidableEq NfRoot]
  [decStateRoot : DecidableEq StateRoot]
  [decElt : DecidableEq Elt]
  /-- Multiplication of `U3072` elements. -/
  [eltMonoid : CommMonoid Elt]
  cmxFromBytes : Bytes32 → Option Cmx
  fromCmx : Cmx → Node
  nodeToBytes : Node → Bytes32
  nodeFromBytes : Bytes32 → Option Node
  frontierEmpty : Frontier
  /-- `none`: `Frontier::append` returned `false`, the tree is full. -/
  frontierAppend : Frontier → Node → Option Frontier
  /-- The newest leaf and the ommers of a non-empty frontier. -/
  frontierValue : Frontier → Option (Node × List Node)
  frontierRoot : Frontier → Anchor
  frontierFromParts : Nat → Node → List Node → Option Frontier
  emptyAnchor : Anchor
  dataToElement : NullifierBytes → Elt
  eltDiv : Elt → Elt → Elt
  finalizeHash : Elt → NfRoot
  shieldedStateRoot : Anchor → NfRoot → Nat → Nat → StateRoot
  /-- Recipient address, coinbase transaction id, output index, value; `none`: not an address. -/
  coinbaseCommitment : List UInt8 → Hash → Nat → UInt64 → Option Cmx

attribute [instance] Prim.decCmx Prim.decAnchor Prim.decNfRoot Prim.decStateRoot Prim.decElt Prim.eltMonoid

variable (P : Prim)

/-- The frontier that holds exactly the given leaves, appended in order to the empty one. -/
def Prim.frontierOf (leaves : List P.Node) : Option P.Frontier :=
  leaves.foldlM P.frontierAppend P.frontierEmpty

/-- What `incrementalmerkletree` documents of a frontier: it is empty until the first append, and
`from_parts` rebuilds it from the position of its newest leaf, that leaf and its ommers; and a
`MerkleHashOrchard` survives its byte encoding. -/
structure FrontierLaws : Prop where
  value_eq_none : ∀ {leaves f}, P.frontierOf leaves = some f → (P.frontierValue f = none ↔ leaves = [])
  fromParts_value : ∀ {leaves f leaf ommers}, P.frontierOf leaves = some f →
    P.frontierValue f = some (leaf, ommers) → P.frontierFromParts (leaves.length - 1) leaf ommers = some f
  nodeFromBytes_toBytes : ∀ n, P.nodeFromBytes (P.nodeToBytes n) = some n

end Firecash
