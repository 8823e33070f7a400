import Mathlib.Data.List.Induction
import Mathlib.Data.Nat.Bitwise
import Mathlib.Tactic.Ring

/-!
# Fixed-depth Merkle trees over a leaf sequence

A tree of depth `d` holds up to `2 ^ d` leaves, filled from the left; the leaves that are missing
count as an empty leaf. `root` and `authPath` follow the tree from the top, `pathRoot` hashes a leaf
upwards along the bits of its position as a verifier does. The path of a leaf leads to the root
(`pathRoot_authPath`).
-/

/-- The hash of two children at a level, and the leaf that stands for a missing one. -/
structure MerkleHasher (H : Type) where
  combine : Nat → H → H → H
  emptyLeaf : H

namespace MerkleHasher

variable {H : Type} (h : MerkleHasher H)

/-- The root of the empty tree of depth `d`. -/
def emptyRoot : Nat → H
  | 0 => h.emptyLeaf
  | d + 1 => h.combine d (emptyRoot d) (emptyRoot d)

/-- The root of the tree of depth `d` over `ls`; an empty part is not hashed out. -/
def root : Nat → List H → H
  | 0, ls => ls.headD h.emptyLeaf
  | d + 1, ls =>
    if ls.isEmpty then h.emptyRoot (d + 1)
    else h.combine d (root d (ls.take (2 ^ d))) (root d (ls.drop (2 ^ d)))

/-- The siblings on the way from leaf `p` to the root, lowest level first. -/
def authPath : Nat → List H → Nat → List H
  | 0, _, _ => []
  | d + 1, ls, p =>
    if p < 2 ^ d then authPath d (ls.take (2 ^ d)) p ++ [h.root d (ls.drop (2 ^ d))]
    else authPath d (ls.drop (2 ^ d)) (p - 2 ^ d) ++ [h.root d (ls.take (2 ^ d))]

/-- One step up from level `l`: bit `l` of the position says on which side the sibling is. -/
def climb (p : Nat) (node : H) (step : H × Nat) : H :=
  if p.testBit step.2 then h.combine step.2 step.1 node else h.combine step.2 node step.1

/-- The root a leaf hashes to along its siblings. -/
def pathRoot (p : Nat) (leaf : H) (path : List H) : H := path.zipIdx.foldl (h.climb p) leaf

@[simp] theorem length_authPath (d : Nat) (ls : List H) (p : Nat) : (h.authPath d ls p).length = d := by
  induction d generalizing ls p with
  | zero => rfl
  | succ d ih =>
    rw [authPath]
    split <;> simp [ih]

variable {ls : List H}

theorem root_succ_of_ne_nil {d : Nat} (ne : ls ≠ []) :
    h.root (d + 1) ls = h.combine d (h.root d (ls.take (2 ^ d))) (h.root d (ls.drop (2 ^ d))) := by
  rw [root, if_neg (by simpa using ne)]

theorem pathRoot_append_singleton (p : Nat) (leaf : H) (path : List H) (top : H) :
    h.pathRoot p leaf (path ++ [top]) = h.climb p (h.pathRoot p leaf path) (top, path.length) := by
  simp [pathRoot, List.zipIdx_append]

/-- Only the bits below the length of the path are looked at. -/
theorem pathRoot_congr {p q : Nat} {path : List H} (same : ∀ i < path.length, p.testBit i = q.testBit i) (leaf : H) :
    h.pathRoot p leaf path = h.pathRoot q leaf path := by
  induction path using List.reverseRecOn with
  | nil => rfl
  | append_singleton path top ih =>
    have lower : ∀ i < path.length, p.testBit i = q.testBit i := by
      intro i hi
      apply same
      simp only [List.length_append, List.length_singleton]
      omega
    have here : p.testBit path.length = q.testBit path.length := same _ (by simp)
    rw [pathRoot_append_singleton, pathRoot_append_singleton, ih lower, climb, climb, here]

/-- The siblings of a leaf lead from it to the root. -/
theorem pathRoot_authPath {d : Nat} {p : Nat} {leaf : H} (fits : p < 2 ^ d) (at_p : ls[p]? = some leaf) :
    h.pathRoot p leaf (h.authPath d ls p) = h.root d ls := by
  induction d generalizing ls p with
  | zero =>
    obtain rfl : p = 0 := by simpa using fits
    cases ls with
    | nil => cases at_p
    | cons x ls => simpa [root, authPath, pathRoot] using at_p.symm
  | succ d ih =>
    have ne : ls ≠ [] := by
      rintro rfl
      cases at_p
    rw [h.root_succ_of_ne_nil ne, authPath]
    by_cases left : p < 2 ^ d
    · have inLeft : (ls.take (2 ^ d))[p]? = some leaf := by rw [List.getElem?_take_of_lt left, at_p]
      have bit : p.testBit d = false := Nat.testBit_lt_two_pow left
      rw [if_pos left, pathRoot_append_singleton, ih left inLeft, length_authPath, climb, bit]
      rfl
    · have offset : p = 2 ^ d + (p - 2 ^ d) := by omega
      have low : p - 2 ^ d < 2 ^ d := by
        rw [pow_succ] at fits
        omega
      have inRight : (ls.drop (2 ^ d))[p - 2 ^ d]? = some leaf := by rw [List.getElem?_drop, ← offset, at_p]
      have bit : p.testBit d = true := by
        rw [offset, Nat.testBit_two_pow_add_eq, Nat.testBit_lt_two_pow low]
        rfl
      have lower : ∀ i < (h.authPath d (ls.drop (2 ^ d)) (p - 2 ^ d)).length, p.testBit i = (p - 2 ^ d).testBit i := by
        intro i hi
        rw [length_authPath] at hi
        rw [offset, Nat.testBit_two_pow_add_gt hi, ← offset]
      rw [if_neg left, pathRoot_append_singleton, h.pathRoot_congr lower, ih low inRight, length_authPath, climb, bit]
      rfl

end MerkleHasher
