import Mathlib.Algebra.BigOperators.Group.List.Basic
import Firecash.Shielded.Primitives

/-!
# MuHash (crypto/muhash/src/lib.rs)

A multiplicative hash of a multiset: adding an element multiplies the numerator by its image,
removing one multiplies the denominator, and finalizing hashes their quotient. `ofList` is the
accumulator of a list of additions; its value is that of the multiset (`ofList_perm`).

`MuHashIdeal` is what a collision-resistant multiset hash promises: distinct multisets finalize
to distinct roots.
-/

namespace Firecash

@[ext] structure MuHash (P : Prim) where
  numerator : P.Elt
  denominator : P.Elt
  deriving DecidableEq

namespace MuHash

variable {P : Prim}

def new : MuHash P := ⟨1, 1⟩

variable (m : MuHash P)

def addElement (data : NullifierBytes) : MuHash P :=
  { m with numerator := m.numerator * P.dataToElement data }

/-- `finalize`: normalize, then hash. -/
def finalize : P.NfRoot := P.finalizeHash (P.eltDiv m.numerator m.denominator)

/-- `TryFrom<MuHash> for Uint3072`: `none` is `NonNormalizedValue`. -/
def tryIntoUint3072 : Option P.Elt :=
  if m.denominator = 1 then some m.numerator else none

/-- `From<Uint3072> for MuHash` -/
def fromUint3072 (u : P.Elt) : MuHash P := ⟨u, 1⟩

/-- `EMPTY_MUHASH`: the hash of `MuHash::new().finalize()`. -/
def EMPTY_MUHASH (P : Prim) : P.NfRoot := (new : MuHash P).finalize

/-- Adding a list of elements one by one. -/
def addAll (nfs : List NullifierBytes) : MuHash P := nfs.foldl addElement m

variable (nfs : List NullifierBytes)

def ofList : MuHash P := new.addAll nfs

theorem addAll_eq (nfs : List NullifierBytes) :
    m.addAll nfs = ⟨m.numerator * (nfs.map P.dataToElement).prod, m.denominator⟩ := by
  induction nfs generalizing m with
  | nil => simp [addAll]
  | cons nf nfs ih =>
    have hstep : m.addAll (nf :: nfs) = (m.addElement nf).addAll nfs := rfl
    rw [hstep, ih, List.map_cons, List.prod_cons, ← mul_assoc]
    rfl

theorem ofList_eq : (ofList nfs : MuHash P) = ⟨(nfs.map P.dataToElement).prod, 1⟩ := by
  rw [ofList, addAll_eq]
  simp [new]

theorem ofList_perm {xs ys : List NullifierBytes} (h : xs.Perm ys) : (ofList xs : MuHash P) = ofList ys := by
  rw [ofList_eq, ofList_eq, (h.map P.dataToElement).prod_eq]

theorem addAll_ofList (xs ys : List NullifierBytes) : (ofList xs : MuHash P).addAll ys = ofList (xs ++ ys) := by
  unfold ofList addAll
  rw [List.foldl_append]

theorem fromUint3072_of_tryInto {m : MuHash P} {u : P.Elt} (h : m.tryIntoUint3072 = some u) : fromUint3072 u = m := by
  unfold tryIntoUint3072 at h
  split at h
  case isTrue hd =>
    cases h
    ext
    · rfl
    · exact hd.symm
  case isFalse => cases h

theorem tryInto_ofList :
    (ofList nfs : MuHash P).tryIntoUint3072 = some (ofList nfs : MuHash P).numerator := by
  simp [tryIntoUint3072, ofList_eq]

end MuHash

/-- The accumulator is a collision-free hash of multisets of nullifiers. -/
structure MuHashIdeal (P : Prim) : Prop where
  injective : ∀ xs ys : List NullifierBytes,
    (MuHash.ofList xs : MuHash P).finalize = (MuHash.ofList ys : MuHash P).finalize → xs.Perm ys

namespace MuHashIdeal

variable {P : Prim}

theorem finalize_eq_iff (ideal : MuHashIdeal P) {xs ys : List NullifierBytes} :
    (MuHash.ofList xs : MuHash P).finalize = (MuHash.ofList ys : MuHash P).finalize ↔ xs.Perm ys := by
  constructor
  · exact ideal.injective xs ys
  · intro h
    rw [MuHash.ofList_perm h]

end MuHashIdeal

end Firecash
