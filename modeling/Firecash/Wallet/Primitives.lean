import Firecash.Lib.Merkle
import Firecash.Shielded.State

/-!
# Primitives of the wallet

What `walletdb.rs` calls of the `orchard`, `zcash_note_encryption` and `incrementalmerkletree` crates,
as one record `WalletPrim`, and the behaviour it relies on as `IncrementalLaws`: notes survive their
encoding, frontiers, trees and witnesses survive the parts they are written as, and all three
implement the Merkle tree of depth 32 over the leaves appended to them.
-/

namespace Firecash

open List Option

/-- `[u8; 43]`: a raw Orchard address. -/
abbrev AddressBytes := BitVec 344

/-- A decrypted memo field, `[u8; 512]`. -/
abbrev Memo := BitVec 4096

/-- `CompactActionRecord` (wallet.rs:155) -/
structure CompactActionRecord where
  nullifier : NullifierBytes
  cmx : Bytes32
  ephemeralKey : Bytes32
  encCiphertext : BitVec 416
  deriving DecidableEq

/-- `CoinbaseNoteDesc` (coinbase.rs) -/
structure CoinbaseNoteDesc where
  recipient : AddressBytes
  rho : Bytes32
  rseed : Bytes32
  deriving DecidableEq

structure WalletPrim (P : Prim) where
  Fvk : Type
  Note : Type
  Tree : Type
  Witness : Type
  /-- `SpendingKey::from_bytes`, then `FullViewingKey::from`. -/
  fvkFromSeed : Bytes32 → Option Fvk
  fvkFromBytes : BitVec 768 → Option Fvk
  /-- `address_at(0, Scope::External)` -/
  addressBytes : Fvk → AddressBytes
  /-- `Address::from_raw_address_bytes`, `Rho::from_bytes`, `RandomSeed::from_bytes`, `Note::from_parts`. -/
  noteFromParts : AddressBytes → UInt64 → Bytes32 → Bytes32 → Option Note
  noteRecipient : Note → AddressBytes
  noteValue : Note → UInt64
  noteRho : Note → Bytes32
  noteRseed : Note → Bytes32
  noteCommitment : Note → P.Cmx
  noteNullifier : Fvk → Note → NullifierBytes
  tryNoteDecryption : Fvk → ActionWire → Option (Note × Memo)
  tryCompactNoteDecryption : Fvk → CompactActionRecord → Option Note
  tryOutputRecoveryWithOvk : Fvk → ActionWire → Option (Note × AddressBytes × Memo)
  /-- The index of the newest leaf of a non-empty frontier. -/
  frontierPosition : P.Frontier → Nat
  treeEmpty : Tree
  treeFromFrontier : P.Frontier → Tree
  treeToFrontier : Tree → P.Frontier
  /-- `none`: the tree is full. -/
  treeAppend : Tree → P.Node → Option Tree
  treeRoot : Tree → P.Node
  /-- A witness of the newest leaf; `none`: the tree is empty. -/
  witnessFromTree : Tree → Option Witness
  witnessAppend : Witness → P.Node → Option Witness
  /-- The position and the siblings from the leaf up. -/
  witnessPath : Witness → Option (Nat × List P.Node)
  witnessTree : Witness → Tree
  witnessFilled : Witness → List P.Node
  witnessCursor : Witness → Option Tree
  witnessFromParts : Tree → List P.Node → Option Tree → Option Witness
  hasher : MerkleHasher P.Node
  nodeAnchor : P.Node → P.Anchor
  /-- `size_of::<(u64, IncrementalWitness<_, 32>)>()` -/
  witnessSlot : Nat

variable {P : Prim} (W : WalletPrim P)

namespace WalletPrim

/-- The leaves a frontier stands for, as `write_tree` counts them. -/
def frontierSize (f : P.Frontier) : Nat :=
  match P.frontierValue f with
  | none => 0
  | some _ => W.frontierPosition f + 1

def treeSize (t : W.Tree) : Nat := W.frontierSize (W.treeToFrontier t)

/-- The tree that a tree becomes by appending `ns`, if they fit. -/
def treeExtend (t : W.Tree) (ns : List P.Node) : Option W.Tree := ns.foldlM W.treeAppend t

/-- A witness after `ns` were appended to it. -/
def witnessExtend (w : W.Witness) (ns : List P.Node) : Option W.Witness := ns.foldlM W.witnessAppend w

/-- The witness of leaf `p` over `ns`, above the tree `t`: opened at leaf `p` and shown the later ones. -/
def witnessOver (t : W.Tree) (ns : List P.Node) (p : Nat) : Option W.Witness := do
  let t ← W.treeExtend t (ns.take (p + 1))
  let w ← W.witnessFromTree t
  W.witnessExtend w (ns.drop (p + 1))

end WalletPrim

/-- What the wallet relies on. -/
structure IncrementalLaws : Prop extends FrontierLaws P where
  /-- `Note::from_parts` of a note's own parts. -/
  noteFromParts_parts : ∀ n, W.noteFromParts (W.noteRecipient n) (W.noteValue n) (W.noteRho n) (W.noteRseed n) = some n
  frontierValue_empty : P.frontierValue P.frontierEmpty = none
  eq_empty_of_frontierValue : ∀ {f}, P.frontierValue f = none → f = P.frontierEmpty
  fromParts_parts : ∀ {f leaf ommers}, P.frontierValue f = some (leaf, ommers) →
    P.frontierFromParts (W.frontierPosition f) leaf ommers = some f
  /-- A frontier keeps the parts it was made of, and its position is in the tree. -/
  parts_fromParts : ∀ {p leaf ommers f}, P.frontierFromParts p leaf ommers = some f →
    P.frontierValue f = some (leaf, ommers) ∧ W.frontierPosition f = p ∧ p < TREE_CAPACITY
  treeFromFrontier_empty : W.treeFromFrontier P.frontierEmpty = W.treeEmpty
  treeFromFrontier_toFrontier : ∀ t, W.treeFromFrontier (W.treeToFrontier t) = t
  treeToFrontier_fromFrontier : ∀ f, W.treeToFrontier (W.treeFromFrontier f) = f
  /-- Appending to a tree appends to its frontier. -/
  treeAppend_toFrontier : ∀ t n, (W.treeAppend t n).map W.treeToFrontier = P.frontierAppend (W.treeToFrontier t) n
  treeAppend_isSome : ∀ {t n}, (W.treeAppend t n).isSome ↔ W.treeSize t < TREE_CAPACITY
  treeSize_append : ∀ {t n t'}, W.treeAppend t n = some t' → W.treeSize t' = W.treeSize t + 1
  /-- A witness of the newest leaf of a tree can be opened and extended while the tree can. -/
  witness_total : ∀ t ns, 0 < W.treeSize t → W.treeSize t + ns.length ≤ TREE_CAPACITY →
    ∃ w w' path, W.witnessFromTree t = some w ∧ W.witnessExtend w ns = some w' ∧
      W.witnessPath w' = some (W.treeSize t - 1, path) ∧ path.length = TREE_DEPTH
  witnessFromParts_parts : ∀ w, W.witnessFromParts (W.witnessTree w) (W.witnessFilled w) (W.witnessCursor w) = some w
  /-- The depth-32 Merkle tree: roots of trees and frontiers, and the path of a witness. -/
  treeRoot_eq : ∀ {ns t}, W.treeExtend W.treeEmpty ns = some t → W.treeRoot t = W.hasher.root TREE_DEPTH ns
  frontierRoot_eq : ∀ {ns f}, ns ≠ [] → P.frontierOf ns = some f →
    P.frontierRoot f = W.nodeAnchor (W.hasher.root TREE_DEPTH ns)
  witnessPath_eq : ∀ {ns p w}, p < ns.length → W.witnessOver W.treeEmpty ns p = some w →
    W.witnessPath w = some (p, W.hasher.authPath TREE_DEPTH ns p)
  witnessSlot_le : W.witnessSlot ≤ 65536

namespace WalletPrim

variable (t : W.Tree)

/-- `let _ = tree.append(leaf)` for each leaf: what does not fit is left out. -/
def treeFill (ns : List P.Node) : W.Tree := ns.foldl (fun t n => (W.treeAppend t n).getD t) t

def witnessFill (w : W.Witness) (ns : List P.Node) : W.Witness := ns.foldl (fun w n => (W.witnessAppend w n).getD w) w

variable {W}

@[simp] theorem treeFill_nil : W.treeFill t [] = t := rfl

theorem treeFill_append (ns ms : List P.Node) : W.treeFill t (ns ++ ms) = W.treeFill (W.treeFill t ns) ms :=
  foldl_append

theorem treeFill_concat (ns : List P.Node) (n : P.Node) :
    W.treeFill t (ns ++ [n]) = (W.treeAppend (W.treeFill t ns) n).getD (W.treeFill t ns) :=
  treeFill_append t ns [n]

theorem witnessFill_append (w : W.Witness) (ns ms : List P.Node) :
    W.witnessFill w (ns ++ ms) = W.witnessFill (W.witnessFill w ns) ms :=
  foldl_append

variable {t : W.Tree} {ns : List P.Node}

theorem treeExtend_cons {n : P.Node} :
    W.treeExtend t (n :: ns) = (W.treeAppend t n).bind fun t => W.treeExtend t ns := foldlM_cons

theorem treeExtend_append {ms : List P.Node} :
    W.treeExtend t (ns ++ ms) = (W.treeExtend t ns).bind fun t => W.treeExtend t ms := foldlM_append

theorem treeFill_of_extend {t' : W.Tree} (h : W.treeExtend t ns = some t') : W.treeFill t ns = t' := by
  induction ns generalizing t with
  | nil => exact some.inj h
  | cons n ns ih =>
    rw [treeExtend_cons] at h
    obtain ⟨t₁, hn, h⟩ := bind_eq_some_iff.mp h
    show W.treeFill ((W.treeAppend t n).getD t) ns = t'
    rw [hn]
    exact ih h

theorem witnessFill_of_extend {w w' : W.Witness} (h : W.witnessExtend w ns = some w') :
    W.witnessFill w ns = w' := by
  induction ns generalizing w with
  | nil => exact some.inj h
  | cons n ns ih =>
    obtain ⟨w₁, hn, h⟩ := bind_eq_some_iff.mp (foldlM_cons.symm.trans h)
    show W.witnessFill ((W.witnessAppend w n).getD w) ns = w'
    rw [hn]
    exact ih h

/-- A witness over leaves that a tree already has: the tree is the one the leaves before lead to. -/
theorem witnessOver_eq_some_iff {p : Nat} {w : W.Witness} :
    W.witnessOver t ns p = some w ↔ ∃ t' w₀, W.treeExtend t (ns.take (p + 1)) = some t' ∧
      W.witnessFromTree t' = some w₀ ∧ W.witnessExtend w₀ (ns.drop (p + 1)) = some w := by
  unfold witnessOver
  simp only [bind_eq_bind, bind_eq_some_iff]
  constructor
  · rintro ⟨t', ht, w₀, hw₀, hw⟩
    exact ⟨t', w₀, ht, hw₀, hw⟩
  · rintro ⟨t', w₀, ht, hw₀, hw⟩
    exact ⟨t', ht, w₀, hw₀, hw⟩

/-- The witness over `ms` above a tree that holds `ns` is the one over both. -/
theorem witnessOver_append {t' : W.Tree} {ms : List P.Node} {p : Nat} (ht : W.treeExtend t ns = some t') :
    W.witnessOver t (ns ++ ms) (ns.length + p) = W.witnessOver t' ms p := by
  have take : (ns ++ ms).take (ns.length + p + 1) = ns ++ ms.take (p + 1) := by
    rw [Nat.add_assoc, take_length_add_append]
  have drop : (ns ++ ms).drop (ns.length + p + 1) = ms.drop (p + 1) := by
    rw [Nat.add_assoc, drop_length_add_append]
  unfold witnessOver
  rw [take, drop, treeExtend_append, ht]
  rfl

end WalletPrim

namespace IncrementalLaws

variable {W} (laws : IncrementalLaws W)

include laws

theorem frontierSize_le (f : P.Frontier) : W.frontierSize f ≤ TREE_CAPACITY := by
  unfold WalletPrim.frontierSize
  cases hv : P.frontierValue f with
  | none => exact Nat.zero_le _
  | some parts =>
    obtain ⟨-, -, inside⟩ := laws.parts_fromParts (laws.fromParts_parts hv)
    exact inside

theorem treeSize_le (t : W.Tree) : W.treeSize t ≤ TREE_CAPACITY := laws.frontierSize_le _

@[simp] theorem treeSize_fromFrontier (f : P.Frontier) : W.treeSize (W.treeFromFrontier f) = W.frontierSize f := by
  rw [WalletPrim.treeSize, laws.treeToFrontier_fromFrontier]

theorem treeSize_empty : W.treeSize W.treeEmpty = 0 := by
  rw [← laws.treeFromFrontier_empty, laws.treeSize_fromFrontier, WalletPrim.frontierSize, laws.frontierValue_empty]

variable {ns : List P.Node}

theorem treeSize_extend {t t' : W.Tree} (h : W.treeExtend t ns = some t') :
    W.treeSize t' = W.treeSize t + ns.length := by
  induction ns generalizing t with
  | nil =>
    cases h
    rfl
  | cons n ns ih =>
    rw [WalletPrim.treeExtend_cons] at h
    obtain ⟨t₁, hn, h⟩ := bind_eq_some_iff.mp h
    rw [ih h, laws.treeSize_append hn, length_cons]
    omega

theorem exists_treeExtend (t : W.Tree) (ns : List P.Node) (fits : W.treeSize t + ns.length ≤ TREE_CAPACITY) :
    ∃ t', W.treeExtend t ns = some t' := by
  induction ns generalizing t with
  | nil => exact ⟨t, rfl⟩
  | cons n ns ih =>
    rw [length_cons] at fits
    have room : (W.treeAppend t n).isSome := laws.treeAppend_isSome.mpr (by omega)
    obtain ⟨t₁, hn⟩ := isSome_iff_exists.mp room
    have size₁ := laws.treeSize_append hn
    obtain ⟨t', h⟩ := ih t₁ (by omega)
    exact ⟨t', by rw [WalletPrim.treeExtend_cons, hn]; exact h⟩

theorem treeSize_fill (t : W.Tree) (ns : List P.Node) :
    W.treeSize (W.treeFill t ns) = min (W.treeSize t + ns.length) TREE_CAPACITY := by
  induction ns generalizing t with
  | nil =>
    have := laws.treeSize_le t
    simp [this]
  | cons n ns ih =>
    show W.treeSize (W.treeFill ((W.treeAppend t n).getD t) ns) = _
    rw [ih, length_cons]
    cases hn : W.treeAppend t n with
    | some t₁ =>
      rw [getD_some, laws.treeSize_append hn]
      congr 1
      omega
    | none =>
      have full : ¬ W.treeSize t < TREE_CAPACITY := by
        rw [← laws.treeAppend_isSome, hn]
        exact Bool.false_ne_true
      have := laws.treeSize_le t
      rw [getD_none]
      omega

/-- Trees and frontiers grow alike: the frontier of a leaf sequence is that of its tree. -/
theorem frontierOf_eq : P.frontierOf ns = (W.treeExtend W.treeEmpty ns).map W.treeToFrontier := by
  have general : ∀ t : W.Tree, ns.foldlM P.frontierAppend (W.treeToFrontier t) =
      (W.treeExtend t ns).map W.treeToFrontier := by
    induction ns with
    | nil => intro t; rfl
    | cons n ns ih =>
      intro t
      rw [foldlM_cons, WalletPrim.treeExtend_cons, ← laws.treeAppend_toFrontier]
      cases W.treeAppend t n with
      | none => rfl
      | some t₁ => exact ih t₁
  have start : W.treeToFrontier W.treeEmpty = P.frontierEmpty := by
    rw [← laws.treeFromFrontier_empty, laws.treeToFrontier_fromFrontier]
  rw [Prim.frontierOf, ← start, general]

end IncrementalLaws

end Firecash
