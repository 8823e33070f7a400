import Mathlib.Data.Nat.Log
import Firecash.Pow.Gate

/-!
# The transaction Merkle root and the coinbase branch (crypto/merkle/src/lib.rs, auxpow.rs)

`calc_merkle_root` fills an array from the leaves at its front to the root at its end. The coinbase is its
first leaf, so the branch of the coinbase is read off the array: one slot for each level, right of the
leftmost one (`coinbaseBranch`). `coinbaseInclusion_complete` is that the fold of the verifier along this
branch ends at the root.
-/

namespace Firecash

open List

def ZERO_HASH : Hash := 0

section

variable (H : Hash → Hash → Hash)

/-- The slot over `i` and `i + 1`: no hash if the left one has none, and `ZERO_HASH` for a missing right one. -/
def mergedSlot (merkles : List (Option Hash)) (i : Nat) : Option Hash :=
  merkles[i]?.join.map fun left => H left (merkles[i + 1]?.join.getD ZERO_HASH)

/-- `merkles` after `n` rounds of the loop (merkle/src/lib.rs:42-48), for `pot` leaves. -/
def merkles (hashes : List Hash) (pot : Nat) : Nat → List (Option Hash)
  | 0 => hashes.map some ++ replicate (2 * pot - 1 - hashes.length) none
  | n + 1 => (merkles hashes pot n).set (pot + n) (mergedSlot H (merkles hashes pot n) (2 * n))

variable (hashes : List Hash)

/-- The leaves with the missing ones: `hashes.len().next_power_of_two()`. -/
def nextPot : Nat := 2 ^ Nat.clog 2 hashes.length

/-- `merkles` after the loop. -/
def filled : List (Option Hash) := merkles H hashes (nextPot hashes) (nextPot hashes - 1)

/-- `calc_merkle_root_with_hasher` (merkle/src/lib.rs:30); `none` is a failed `unwrap`. -/
def calcMerkleRoot : Option Hash :=
  match hashes with
  | [] => some ZERO_HASH
  | [hash] => some hash
  | _ :: _ :: _ => (filled H hashes).getLast?.join

/-- The first slot of level `d`. -/
def leftmost (pot : Nat) : Nat → Nat
  | 0 => 0
  | d + 1 => pot + leftmost pot d / 2

/-- The siblings on the way from the first leaf to the root. -/
def coinbaseBranch : List Hash :=
  (range (Nat.clog 2 hashes.length)).map fun d =>
    (filled H hashes)[leftmost (nextPot hashes) d + 1]?.join.getD ZERO_HASH

end

variable {H : Hash → Hash → Hash} {hashes : List Hash} {pot n p : Nat}

theorem length_merkles (fits : hashes.length ≤ 2 * pot - 1) : (merkles H hashes pot n).length = 2 * pot - 1 := by
  induction n with
  | zero =>
    simp [merkles]
    omega
  | succ n ih => simp [merkles, ih]

theorem merkles_stable {m : Nat} (below : p < pot + m) (le : m ≤ n) :
    (merkles H hashes pot n)[p]? = (merkles H hashes pot m)[p]? := by
  induction n with
  | zero => rw [Nat.le_zero.mp le]
  | succ n ih =>
    by_cases last : m = n + 1
    · rw [last]
    · rw [merkles, getElem?_set_ne (by omega), ih (by omega)]

/-- At the end every slot above the leaves is merged from the two below it. -/
theorem merkles_merged (fits : hashes.length ≤ 2 * pot - 1) {j : Nat} (hj : j < n) (hn : n < pot) :
    (merkles H hashes pot n)[pot + j]?.join = mergedSlot H (merkles H hashes pot n) (2 * j) := by
  have read : ∀ i, i < pot + j → (merkles H hashes pot n)[i]? = (merkles H hashes pot j)[i]? := by
    intro i hi
    exact merkles_stable hi (by omega)
  have bound : pot + j < (merkles H hashes pot j).length := by
    rw [length_merkles fits]
    omega
  rw [merkles_stable (by omega) hj, merkles, getElem?_set_self bound, mergedSlot, mergedSlot, read _ (by omega),
    read _ (by omega)]
  rfl

theorem two_pow_sub {k d : Nat} (lt : d < k) : 2 ^ (k - d) = 2 * 2 ^ (k - (d + 1)) := by
  rw [← pow_succ']
  congr 1
  omega

theorem leftmost_eq {k d : Nat} (le : d ≤ k) : leftmost (2 ^ k) d + 2 * 2 ^ (k - d) = 2 * 2 ^ k := by
  induction d with
  | zero => simp [leftmost]
  | succ d ih =>
    have half := two_pow_sub le
    have := ih (by omega)
    rw [leftmost]
    omega

theorem length_le_nextPot (hashes : List Hash) : hashes.length ≤ nextPot hashes := Nat.le_pow_clog (by decide) _

variable {coinbase : Hash}

/-- The fold along the first `d` siblings is the first slot of level `d`. -/
theorem filled_leftmost (first : hashes.head? = some coinbase) {d : Nat} (le : d ≤ Nat.clog 2 hashes.length) :
    (filled H hashes)[leftmost (nextPot hashes) d]?.join =
      some (((coinbaseBranch H hashes).take d).foldl H coinbase) := by
  have fits := length_le_nextPot hashes
  have pos : 0 < nextPot hashes := Nat.two_pow_pos _
  induction d with
  | zero =>
    rw [leftmost, filled, merkles_stable (m := 0) (by omega) (by omega)]
    cases hashes <;> simp_all [merkles]
  | succ d ih =>
    have here := leftmost_eq (Nat.le_of_succ_le le)
    have half := two_pow_sub le
    have even : 2 * (leftmost (nextPot hashes) d / 2) = leftmost (nextPot hashes) d := by
      unfold nextPot
      omega
    have inside : leftmost (nextPot hashes) d / 2 < nextPot hashes - 1 := by
      have := Nat.two_pow_pos (Nat.clog 2 hashes.length - (d + 1))
      unfold nextPot
      omega
    have sibling : d < (coinbaseBranch H hashes).length := by simpa [coinbaseBranch] using Nat.lt_of_succ_le le
    rw [leftmost, filled, merkles_merged (by omega) inside (by omega), even, ← filled, mergedSlot,
      ih (by omega), take_add_one, getElem?_eq_getElem sibling, foldl_append]
    simp [coinbaseBranch]

theorem calcMerkleRoot_eq (first : hashes.head? = some coinbase) :
    calcMerkleRoot H hashes = some ((coinbaseBranch H hashes).foldl H coinbase) := by
  have whole := filled_leftmost (H := H) first (Nat.le_refl _)
  have top := leftmost_eq (Nat.le_refl (Nat.clog 2 hashes.length))
  have fits := length_le_nextPot hashes
  rw [take_of_length_le (by simp [coinbaseBranch])] at whole
  rw [Nat.sub_self] at top
  match hashes with
  | [hash] => simpa [calcMerkleRoot, coinbaseBranch] using first
  | _ :: _ :: _ =>
    rw [← whole, calcMerkleRoot, getLast?_eq_getElem?, filled, length_merkles (by omega)]
    congr 3
    unfold nextPot
    omega

/-- **Every parent block has an accepted branch.** The siblings on the leftmost path of its Merkle tree
are as many as the tree has levels at most, they lead from the coinbase to the root, and so they pass with
a header that commits to the root. -/
theorem coinbaseInclusion_complete {Q : PowPrim} (coinbase : Q.Tx) (rest : List Hash) (header : Header) :
    let hashes := Q.txHash coinbase :: rest
    let branch := coinbaseBranch Q.merkleHash hashes
    branch.length ≤ Nat.clog 2 hashes.length ∧
      calcMerkleRoot Q.merkleHash hashes = some (branch.foldl Q.merkleHash (Q.txHash coinbase)) ∧
      (hashes.length ≤ 2 ^ MAX_COINBASE_MERKLE_BRANCH → calcMerkleRoot Q.merkleHash hashes =
        some header.hashMerkleRoot →
        (⟨header, coinbase, branch⟩ : AuxPow Q).verifyCoinbaseInclusion = true) := by
  have whole := calcMerkleRoot_eq (H := Q.merkleHash) (head?_cons (a := Q.txHash coinbase) (l := rest))
  refine ⟨by simp [coinbaseBranch], whole, fun few root => verifyCoinbaseInclusion_iff.mpr ⟨?_, ?_⟩⟩
  · simpa [coinbaseBranch] using Nat.clog_le_of_le_pow few
  · exact Option.some.inj (whole.symm.trans root)

/-- Three transactions: the fourth leaf is missing. -/
theorem threeTransactions_included :
    (⟨{ mergeMined with hashMerkleRoot := 10 }, [], coinbaseBranch noncePow.merkleHash [7, 1, 2]⟩ :
      AuxPow noncePow).verifyCoinbaseInclusion = true :=
  (coinbaseInclusion_complete [] [1, 2] { mergeMined with hashMerkleRoot := 10 }).2.2 (by decide) (by decide)

end Firecash
