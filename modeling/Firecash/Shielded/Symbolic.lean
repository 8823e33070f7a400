import Mathlib.Algebra.Group.TypeTags.Basic
import Mathlib.Algebra.Order.Group.Multiset
import Firecash.Lib.Fallible
import Firecash.Crypto.MuHash
import Firecash.Shielded.Tree

/-!
# Symbolic primitives

An instance of `Prim` in which every hash is its own preimage: a frontier is its leaf list, an anchor
the list of leaves under it, the accumulator the multiset of its elements. Nothing collides, the
laws the development assumes of the real primitives hold here (`symbolic_frontierLaws`,
`symbolic_collisionFree`, `symbolic_muHashIdeal`), and everything evaluates, so concrete runs of the
model are run on it. Up to two leaves its frontier parts are those of the real tree: the newest leaf,
and the first leaf as the one ommer.
-/

namespace Firecash

open GlobalTree Multiplicative

/-- Distinct leaf sequences have distinct anchors: the roots of the note-commitment tree do not
collide, and no non-empty tree has the empty anchor. -/
structure CollisionFree (P : Prim) : Prop where
  anchor_injective : ∀ {xs ys : List P.Cmx} {t u : GlobalTree P}, ofLeaves xs = .ok t →
    ofLeaves ys = .ok u → t.anchor = u.anchor → xs = ys
  emptyAnchor_eq : P.emptyAnchor = (new : GlobalTree P).anchor

@[reducible] def symbolic : Prim where
  Cmx := Bytes32
  Node := Bytes32
  Frontier := List Bytes32
  Anchor := List Bytes32
  Elt := Multiplicative (Multiset NullifierBytes)
  NfRoot := Multiset NullifierBytes
  StateRoot := List Bytes32 × Multiset NullifierBytes × Nat × Nat
  decElt := inferInstanceAs (DecidableEq (Multiset NullifierBytes))
  cmxFromBytes := some
  fromCmx := id
  nodeToBytes := id
  nodeFromBytes := some
  frontierEmpty := []
  frontierAppend f n := if f.length < TREE_CAPACITY then some (f ++ [n]) else none
  frontierValue f := f.getLast?.map (·, f.dropLast)
  frontierRoot f := f
  frontierFromParts position leaf ommers := if ommers.length = position then some (ommers ++ [leaf]) else none
  emptyAnchor := []
  dataToElement nf := ofAdd {nf}
  eltDiv a b := ofAdd (toAdd a - toAdd b)
  finalizeHash := toAdd
  shieldedStateRoot anchor nullifierRoot coinbase fees := (anchor, nullifierRoot, coinbase, fees)
  coinbaseCommitment recipient txid i value :=
    if recipient.length = 43 then some (txid + BitVec.ofNat 256 (i * 18446744073709551616 + value.toNat)) else none

theorem symbolic_foldlM {f g ns : List Bytes32} (h : ns.foldlM symbolic.frontierAppend f = some g) : g = f ++ ns := by
  induction h using Option.foldlM_induction with
  | nil => simp
  | cons n ns f f' hf' _ ih =>
    dsimp only at hf'
    split at hf'
    · cases hf'
      rw [ih, List.append_assoc, List.singleton_append]
    · cases hf'

theorem symbolic_frontierOf {ns f : List Bytes32} (h : symbolic.frontierOf ns = some f) : f = ns := symbolic_foldlM h

theorem symbolic_frontierLaws : FrontierLaws symbolic where
  value_eq_none := by
    intro leaves f h
    obtain rfl := symbolic_frontierOf h
    simp
  fromParts_value := by
    intro leaves f leaf ommers h hv
    obtain rfl := symbolic_frontierOf h
    simp only [Option.map_eq_some_iff, Prod.mk.injEq] at hv
    obtain ⟨last, hlast, rfl, rfl⟩ := hv
    have hsplit := List.dropLast_append_getLast? last hlast
    simp [hsplit]
  nodeFromBytes_toBytes := fun _ => rfl

theorem symbolic_anchor (t : GlobalTree symbolic) : t.anchor = t.frontier := by
  unfold anchor
  cases hl : t.frontier.getLast? with
  | none => simp [List.getLast?_eq_none_iff.mp hl]
  | some last => simp [hl]

theorem symbolic_collisionFree : CollisionFree symbolic where
  anchor_injective := by
    intro xs ys t u ht hu h
    have hx := symbolic_frontierOf (ofLeaves_frontier ht)
    have hy := symbolic_frontierOf (ofLeaves_frontier hu)
    rw [symbolic_anchor, symbolic_anchor, hx, hy] at h
    simpa using h
  emptyAnchor_eq := rfl

theorem symbolic_prod (xs : List NullifierBytes) :
    (xs.map fun nf => ofAdd ({nf} : Multiset NullifierBytes)).prod = ofAdd ↑xs := by
  induction xs with
  | nil => rfl
  | cons x xs ih =>
    rw [List.map_cons, List.prod_cons, ih, ← ofAdd_add]
    rfl

/-- The accumulator of a list finalizes to its multiset. -/
theorem symbolic_finalize (xs : List NullifierBytes) : (MuHash.ofList xs : MuHash symbolic).finalize = ↑xs := by
  have hprod := symbolic_prod xs
  rw [MuHash.ofList_eq]
  show toAdd _ - toAdd (1 : Multiplicative (Multiset NullifierBytes)) = _
  rw [hprod, toAdd_ofAdd, toAdd_one, tsub_zero]

theorem symbolic_muHashIdeal : MuHashIdeal symbolic where
  injective := by
    intro xs ys h
    rw [symbolic_finalize, symbolic_finalize] at h
    exact Multiset.coe_eq_coe.mp h

end Firecash
