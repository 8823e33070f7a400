import Firecash.Shielded.Symbolic
import Firecash.Wallet.Primitives

/-!
# Wallet primitives over leaf lists

An instance of the wallet's primitives that evaluates: a frontier and a tree are their leaf lists, a
witness is a leaf list with the position it witnesses, a note is its parts. The Merkle tree is the
real one over a small hash, and everything the wallet relies on holds (`leafLists_laws`), so
concrete runs of the wallet are run on it.
-/

namespace Firecash

open List Option

/-- Leaves that fit in a tree. -/
@[ext] structure Leaves where
  list : List Bytes32
  fits : list.length ≤ TREE_CAPACITY

namespace Leaves

def empty : Leaves := ⟨[], Nat.zero_le _⟩

def ofList (list : List Bytes32) : Option Leaves :=
  if fits : list.length ≤ TREE_CAPACITY then some ⟨list, fits⟩ else none

def append (ls : Leaves) (n : Bytes32) : Option Leaves := ofList (ls.list ++ [n])

variable {ls : Leaves}

theorem ofList_eq_some_iff {list : List Bytes32} : ofList list = some ls ↔ ls.list = list := by
  unfold ofList
  split
  · simp [Leaves.ext_iff, eq_comm]
  · rename_i large
    refine iff_of_false nofun ?_
    rintro rfl
    exact large ls.fits

variable {n : Bytes32}

theorem append_eq_some_iff {ls' : Leaves} : ls.append n = some ls' ↔ ls'.list = ls.list ++ [n] :=
  ofList_eq_some_iff

theorem foldlM_append {ls' : Leaves} {ns : List Bytes32} :
    ns.foldlM append ls = some ls' ↔ ls'.list = ls.list ++ ns := by
  induction ns generalizing ls with
  | nil =>
    rw [append_nil]
    exact ⟨fun h => by rw [some.inj h], fun h => by rw [Leaves.ext h]; rfl⟩
  | cons n ns ih =>
    rw [foldlM_cons, bind_eq_bind, bind_eq_some_iff]
    constructor
    · rintro ⟨ls₁, h₁, h⟩
      rw [ih.mp h, append_eq_some_iff.mp h₁, append_assoc, singleton_append]
    · intro h
      have fits : (ls.list ++ [n]).length ≤ TREE_CAPACITY := by
        have := ls'.fits
        rw [h] at this
        simp only [length_append, length_cons, length_nil] at this ⊢
        omega
      refine ⟨⟨ls.list ++ [n], fits⟩, append_eq_some_iff.mpr rfl, ih.mpr ?_⟩
      rw [h, append_assoc, singleton_append]

theorem append_isSome : (ls.append n).isSome ↔ ls.list.length < TREE_CAPACITY := by
  have length : (ls.list ++ [n]).length = ls.list.length + 1 := by simp
  unfold append ofList
  split <;> simp <;> omega

end Leaves

/-- The hash of the sample tree. -/
def leafHasher : MerkleHasher Bytes32 where
  combine level l r := 3 * l + 5 * r + BitVec.ofNat 256 level
  emptyLeaf := 2

/-- The parts of a note. -/
structure NoteParts where
  recipient : AddressBytes
  value : UInt64
  rho : Bytes32
  rseed : Bytes32
  deriving DecidableEq

/-- Binds the value to the note. -/
def NoteParts.commitment (n : NoteParts) : Bytes32 := n.rho + n.rseed + BitVec.ofNat 256 n.value.toNat

/-- The note in a ciphertext: its address and its value; `ρ` is the nullifier of the action. -/
def NoteParts.decrypt (address : AddressBytes) (nf : NullifierBytes) (enc : Nat) : Option NoteParts :=
  if BitVec.ofNat 344 enc = address then some ⟨address, UInt64.ofNat (enc / 2 ^ 344), nf, 0⟩ else none

@[ext] structure LeafWitness where
  leaves : Leaves
  position : Nat
  inside : position < leaves.list.length

namespace LeafWitness

def append (w : LeafWitness) (n : Bytes32) : Option LeafWitness :=
  if fits : w.leaves.list.length + 1 ≤ TREE_CAPACITY then
    some ⟨⟨w.leaves.list ++ [n], by simpa using fits⟩, w.position, by have := w.inside; simp; omega⟩
  else none

def ofTree (t : Leaves) : Option LeafWitness :=
  if inside : t.list.length - 1 < t.list.length then some ⟨t, t.list.length - 1, inside⟩ else none

def ofParts (t : Leaves) (filled : List Bytes32) (cursor : Option Leaves) : Option LeafWitness :=
  if h : cursor.isNone ∧ 0 < t.list.length ∧ t.list.length + filled.length ≤ TREE_CAPACITY then
    some ⟨⟨t.list ++ filled, by simpa using h.2.2⟩, t.list.length - 1, by have := h.2.1; simp; omega⟩
  else none

theorem ofTree_eq_some {t : Leaves} {w : LeafWitness} (h : ofTree t = some w) :
    w.leaves = t ∧ w.position = t.list.length - 1 := by
  unfold ofTree at h
  split at h
  · cases h
    exact ⟨rfl, rfl⟩
  · cases h

theorem foldlM_append {w w' : LeafWitness} {ns : List Bytes32} :
    ns.foldlM append w = some w' ↔ w'.leaves.list = w.leaves.list ++ ns ∧ w'.position = w.position := by
  induction ns generalizing w with
  | nil =>
    rw [append_nil]
    constructor
    · intro h
      cases h
      exact ⟨rfl, rfl⟩
    · rintro ⟨leaves, position⟩
      rw [LeafWitness.ext (Leaves.ext leaves) position]
      rfl
  | cons n ns ih =>
    rw [foldlM_cons, bind_eq_bind, bind_eq_some_iff]
    constructor
    · rintro ⟨w₁, h₁, h⟩
      obtain ⟨leaves, position⟩ := ih.mp h
      unfold append at h₁
      split at h₁
      · cases h₁
        exact ⟨by rw [leaves, append_assoc, singleton_append], position⟩
      · cases h₁
    · rintro ⟨leaves, position⟩
      have fits : w.leaves.list.length + 1 ≤ TREE_CAPACITY := by
        have := w'.leaves.fits
        rw [leaves] at this
        simp only [length_append, length_cons] at this
        omega
      refine ⟨_, dif_pos fits, ih.mpr ⟨?_, position⟩⟩
      rw [leaves, append_assoc, singleton_append]

end LeafWitness

@[reducible] def leafPrim : Prim where
  Cmx := Bytes32
  Node := Bytes32
  Frontier := Leaves
  Anchor := Bytes32
  Elt := Multiplicative (Multiset NullifierBytes)
  NfRoot := Multiset NullifierBytes
  StateRoot := Bytes32 × Multiset NullifierBytes × Nat × Nat
  decElt := symbolic.decElt
  cmxFromBytes := some
  fromCmx := id
  nodeToBytes := id
  nodeFromBytes := some
  frontierEmpty := .empty
  frontierAppend := Leaves.append
  frontierValue f := f.list.getLast?.map (·, f.list.dropLast)
  frontierRoot f := leafHasher.root TREE_DEPTH f.list
  frontierFromParts position leaf ommers := if ommers.length = position then Leaves.ofList (ommers ++ [leaf]) else none
  emptyAnchor := leafHasher.emptyRoot TREE_DEPTH
  dataToElement := symbolic.dataToElement
  eltDiv := symbolic.eltDiv
  finalizeHash := symbolic.finalizeHash
  shieldedStateRoot anchor nullifierRoot coinbase fees := (anchor, nullifierRoot, coinbase, fees)
  coinbaseCommitment recipient txid i value :=
    if recipient.length = 43 then
      some (txid + BitVec.ofNat 256 (i % 4294967296 * 18446744073709551616) + BitVec.ofNat 256 value.toNat)
    else none

@[reducible] def leafLists : WalletPrim leafPrim where
  Fvk := AddressBytes
  Note := NoteParts
  Tree := Leaves
  Witness := LeafWitness
  fvkFromSeed seed := some (seed.setWidth 344)
  fvkFromBytes bytes := some (bytes.setWidth 344)
  addressBytes := id
  noteFromParts recipient value rho rseed := some ⟨recipient, value, rho, rseed⟩
  noteRecipient := NoteParts.recipient
  noteValue := NoteParts.value
  noteRho := NoteParts.rho
  noteRseed := NoteParts.rseed
  noteCommitment := NoteParts.commitment
  noteNullifier _ n := n.rho + 1
  tryNoteDecryption fvk a := (NoteParts.decrypt fvk a.nullifier a.encCiphertext.toNat).map (·, 0)
  tryCompactNoteDecryption fvk r := NoteParts.decrypt fvk r.nullifier r.encCiphertext.toNat
  tryOutputRecoveryWithOvk _ _ := none
  frontierPosition f := f.list.length - 1
  treeEmpty := .empty
  treeFromFrontier := id
  treeToFrontier := id
  treeAppend := Leaves.append
  treeRoot t := leafHasher.root TREE_DEPTH t.list
  witnessFromTree := LeafWitness.ofTree
  witnessAppend := LeafWitness.append
  witnessPath w := some (w.position, leafHasher.authPath TREE_DEPTH w.leaves.list w.position)
  witnessTree w := ⟨w.leaves.list.take (w.position + 1), (length_take_le' ..).trans w.leaves.fits⟩
  witnessFilled w := w.leaves.list.drop (w.position + 1)
  witnessCursor _ := none
  witnessFromParts := LeafWitness.ofParts
  hasher := leafHasher
  nodeAnchor := id
  witnessSlot := 2048

theorem leafLists_frontierSize (f : Leaves) : leafLists.frontierSize f = f.list.length := by
  unfold WalletPrim.frontierSize
  cases hl : f.list.getLast? with
  | none => simp [getLast?_eq_none_iff.mp hl]
  | some last =>
    have : 0 < f.list.length := length_pos_iff.mpr fun nil => by simp [nil] at hl
    simp [hl]
    omega

variable {ns : List Bytes32}

theorem leafLists_treeExtend {t t' : Leaves} :
    leafLists.treeExtend t ns = some t' ↔ t'.list = t.list ++ ns := Leaves.foldlM_append

theorem leafLists_witnessExtend {w w' : LeafWitness} :
    leafLists.witnessExtend w ns = some w' ↔ w'.leaves.list = w.leaves.list ++ ns ∧ w'.position = w.position :=
  LeafWitness.foldlM_append

theorem leafPrim_frontierOf {f : Leaves} : leafPrim.frontierOf ns = some f ↔ f.list = ns :=
  Leaves.foldlM_append

theorem leafPrim_frontierLaws : FrontierLaws leafPrim where
  value_eq_none := by
    intro leaves f h
    obtain rfl := leafPrim_frontierOf.mp h
    simp
  fromParts_value := by
    intro leaves f leaf ommers h hv
    obtain rfl := leafPrim_frontierOf.mp h
    simp only [map_eq_some_iff, Prod.mk.injEq] at hv
    obtain ⟨last, hlast, rfl, rfl⟩ := hv
    show (if f.list.dropLast.length = f.list.length - 1 then Leaves.ofList (f.list.dropLast ++ [last]) else none) =
      some f
    rw [if_pos length_dropLast, Leaves.ofList_eq_some_iff]
    exact (dropLast_append_getLast? last hlast).symm
  nodeFromBytes_toBytes := fun _ => rfl

theorem leafLists_witnessOver {p : Nat} {w : LeafWitness} (hp : p < ns.length)
    (h : leafLists.witnessOver .empty ns p = some w) : w.leaves.list = ns ∧ w.position = p := by
  obtain ⟨t, w₀, ht, hw₀, hw⟩ := WalletPrim.witnessOver_eq_some_iff.mp h
  have ht : t.list = ns.take (p + 1) := leafLists_treeExtend.mp ht
  obtain ⟨leaves₀, position₀⟩ := LeafWitness.ofTree_eq_some hw₀
  obtain ⟨leaves, position⟩ := leafLists_witnessExtend.mp hw
  have length : (ns.take (p + 1)).length = p + 1 := length_take_of_le (by omega)
  constructor
  · rw [leaves, leaves₀, ht, take_append_drop]
  · rw [position, position₀, ht, length]
    rfl

/-- Everything the wallet relies on holds of the leaf lists. -/
theorem leafLists_laws : IncrementalLaws leafLists where
  toFrontierLaws := leafPrim_frontierLaws
  noteFromParts_parts := fun _ => rfl
  frontierValue_empty := rfl
  eq_empty_of_frontierValue := by
    intro f h
    have none : f.list.getLast? = none := by simpa using h
    exact Leaves.ext (getLast?_eq_none_iff.mp none)
  fromParts_parts := by
    intro f leaf ommers hv
    exact leafPrim_frontierLaws.fromParts_value (leafPrim_frontierOf.mpr rfl) hv
  parts_fromParts := by
    intro p leaf ommers f h
    dsimp only at h
    split at h
    · rename_i length
      have list := Leaves.ofList_eq_some_iff.mp h
      have fits := f.fits
      rw [list, length_append, length_singleton] at fits
      refine ⟨?_, ?_, by omega⟩
      · simp [list]
      · simp [list, length]
    · cases h
  treeFromFrontier_empty := rfl
  treeFromFrontier_toFrontier := fun _ => rfl
  treeToFrontier_fromFrontier := fun _ => rfl
  treeAppend_toFrontier := fun t n => map_id_apply
  treeAppend_isSome := by
    intro t n
    rw [WalletPrim.treeSize, leafLists_frontierSize]
    exact Leaves.append_isSome
  treeSize_append := by
    intro t n t' h
    have list := Leaves.append_eq_some_iff.mp h
    rw [WalletPrim.treeSize, WalletPrim.treeSize, leafLists_frontierSize, leafLists_frontierSize]
    simp [list]
  witness_total := by
    intro t ns pos fits
    have size : leafLists.treeSize t = t.list.length := leafLists_frontierSize t
    rw [size] at pos fits ⊢
    have inside : t.list.length - 1 < t.list.length := by omega
    have opened : leafLists.witnessFromTree t = some ⟨t, t.list.length - 1, inside⟩ := dif_pos inside
    have total : (t.list ++ ns).length ≤ TREE_CAPACITY := by rwa [length_append]
    have position : t.list.length - 1 < (t.list ++ ns).length := by
      rw [length_append]
      omega
    exact ⟨_, ⟨⟨t.list ++ ns, total⟩, t.list.length - 1, position⟩, _, opened,
      leafLists_witnessExtend.mpr ⟨rfl, rfl⟩, rfl, leafHasher.length_authPath ..⟩
  witnessFromParts_parts := by
    intro w
    have inside := w.inside
    have fits := w.leaves.fits
    have length : (w.leaves.list.take (w.position + 1)).length = w.position + 1 := length_take_of_le inside
    have rest : (w.leaves.list.drop (w.position + 1)).length = w.leaves.list.length - (w.position + 1) := length_drop
    have nonempty : 0 < (w.leaves.list.take (w.position + 1)).length := by omega
    have total : (w.leaves.list.take (w.position + 1)).length + (w.leaves.list.drop (w.position + 1)).length ≤
        TREE_CAPACITY := by
      omega
    refine (dif_pos ⟨rfl, nonempty, total⟩).trans (congrArg some (LeafWitness.ext (Leaves.ext ?_) ?_))
    · exact take_append_drop ..
    · show (w.leaves.list.take (w.position + 1)).length - 1 = w.position
      omega
  treeRoot_eq := by
    intro ns t h
    have list : t.list = ns := leafLists_treeExtend.mp h
    rw [← list]
  frontierRoot_eq := by
    intro ns f ne h
    rw [← leafPrim_frontierOf.mp h]
    rfl
  witnessPath_eq := by
    intro ns p w hp h
    obtain ⟨list, position⟩ := leafLists_witnessOver hp h
    show some (w.position, leafHasher.authPath TREE_DEPTH w.leaves.list w.position) = _
    rw [list, position]
  witnessSlot_le := by decide

end Firecash
