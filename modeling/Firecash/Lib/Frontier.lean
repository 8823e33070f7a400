import Firecash.Lib.Merkle

/-!
# Frontiers

A frontier is what appending to a fixed-depth Merkle tree needs of it: the newest leaf, its position, and
the roots of the complete subtrees to the left of its path, lowest first. There is one such ommer for each
bit that is set in the position, and appending is counting: the old leaf goes up through the set bits
(`pushOmmer`) and stays at the first clear one.

`Over` says which frontier a leaf sequence has.
-/

open List

/-- The number of set bits. -/
def ommerCount (position : Nat) : Nat := position.bits.count true

theorem ommerCount_zero : ommerCount 0 = 0 := by simp [ommerCount]

theorem ommerCount_odd (p : Nat) : ommerCount (2 * p + 1) = ommerCount p + 1 := by
  simp [ommerCount, Nat.bit1_bits]

theorem ommerCount_even (p : Nat) : ommerCount (2 * p) = ommerCount p := by
  by_cases zero : p = 0
  · rw [zero]
  · simp [ommerCount, Nat.bit0_bits p zero]

theorem ommerCount_eq_zero {p : Nat} (h : ommerCount p = 0) : p = 0 := by
  induction p using Nat.strong_induction_on with
  | _ p ih =>
    rcases Nat.even_or_odd' p with ⟨q, rfl | rfl⟩
    · by_cases zero : q = 0
      · rw [zero]
      · rw [ommerCount_even] at h
        have := ih q (by omega) h
        omega
    · rw [ommerCount_odd] at h
      omega

/-- The newest leaf of a tree of depth `depth`, with the complete subtrees to its left. -/
@[ext] structure NonEmptyFrontier (depth : Nat) (H : Type) where
  position : Nat
  leaf : H
  ommers : List H
  counted : ommers.length = ommerCount position
  inside : position < 2 ^ depth

/-- `none` is the frontier of the empty tree. -/
def MerkleFrontier (depth : Nat) (H : Type) : Type := Option (NonEmptyFrontier depth H)

namespace MerkleFrontier

open MerkleFrontier

variable {depth : Nat} {H : Type} (h : MerkleHasher H)

/-- A complete subtree at `level` is added beside the ommers of `position`, of which the bits below
`level` are dropped. -/
def pushOmmer : Nat → Nat → List H → H → List H
  | _, _, [], node => [node]
  | level, position, ommer :: ommers, node =>
    if position % 2 = 0 then node :: ommer :: ommers
    else pushOmmer (level + 1) (position / 2) ommers (h.combine level ommer node)

theorem length_pushOmmer {level position : Nat} {ommers : List H} {node : H}
    (counted : ommers.length = ommerCount position) :
    (pushOmmer h level position ommers node).length = ommerCount (position + 1) := by
  induction ommers generalizing level position node with
  | nil =>
    obtain rfl := ommerCount_eq_zero counted.symm
    have one := ommerCount_odd 0
    rw [ommerCount_zero] at one
    exact one.symm
  | cons ommer ommers ih =>
    rw [pushOmmer]
    rcases Nat.even_or_odd' position with ⟨p, rfl | rfl⟩
    · rw [if_pos (by omega), ommerCount_odd]
      rw [ommerCount_even] at counted
      rw [length_cons, counted]
    · rw [ommerCount_odd] at counted
      rw [if_neg (by omega),
        show (2 * p + 1) / 2 = p by omega, show 2 * p + 1 + 1 = 2 * (p + 1) by omega, ommerCount_even]
      exact ih (Nat.succ.inj counted)

def empty : MerkleFrontier depth H := none

variable (f : MerkleFrontier depth H)

/-- `none`: the tree is full. -/
def append (leaf : H) : Option (MerkleFrontier depth H) :=
  match f with
  | none => some (some ⟨0, leaf, [], ommerCount_zero.symm, Nat.two_pow_pos depth⟩)
  | some f =>
    if inside : f.position + 1 < 2 ^ depth then
      some (some ⟨f.position + 1, leaf, pushOmmer h 0 f.position f.ommers f.leaf, length_pushOmmer h f.counted, inside⟩)
    else none

/-- `none`: there is not one ommer for each set bit of the position, or the position is not in the tree. -/
def fromParts (position : Nat) (leaf : H) (ommers : List H) : Option (MerkleFrontier depth H) :=
  if counted : ommers.length = ommerCount position then
    if inside : position < 2 ^ depth then some (some ⟨position, leaf, ommers, counted, inside⟩) else none
  else none

/-- The newest leaf and the ommers. -/
def value : Option (H × List H) := f.map fun f => (f.leaf, f.ommers)

/-- A node at `level` goes up `n` levels, past an ommer where the position has a set bit and an empty
subtree elsewhere. -/
def climbRoot : Nat → Nat → Nat → List H → H → H
  | 0, _, _, _, node => node
  | n + 1, level, position, ommers, node =>
    if position % 2 = 0 then climbRoot n (level + 1) (position / 2) ommers (h.combine level node (h.emptyRoot level))
    else
      match ommers with
      | [] => node
      | ommer :: ommers => climbRoot n (level + 1) (position / 2) ommers (h.combine level ommer node)

def root : H :=
  match f with
  | none => h.emptyRoot depth
  | some f => climbRoot h depth 0 f.position f.ommers f.leaf

/-- The leaves are appended in order; `none`: they do not fit. -/
def extend (leaves : List H) : Option (MerkleFrontier depth H) := leaves.foldlM (append h) f

variable {ommers : List H}

theorem fromParts_eq_some {position : Nat} {leaf : H} {f : MerkleFrontier depth H}
    (hf : fromParts position leaf ommers = some f) :
    f.value = some (leaf, ommers) ∧ ommers.length = ommerCount position ∧ position < 2 ^ depth := by
  unfold fromParts at hf
  split at hf
  · split at hf
    · rename_i counted inside
      cases hf
      exact ⟨rfl, counted, inside⟩
    · cases hf
  · cases hf

theorem fromParts_parts (f : NonEmptyFrontier depth H) :
    fromParts f.position f.leaf f.ommers = some (some f : MerkleFrontier depth H) := by
  rw [fromParts, dif_pos f.counted, dif_pos f.inside]
  rfl

/-! ## The ommers of a leaf sequence -/

/-- The roots of the complete subtrees to the left of the newest of the leaves, in a tree of depth `d`. -/
def ommersOf : Nat → List H → List H
  | 0, _ => []
  | d + 1, leaves =>
    if leaves.length ≤ 2 ^ d then ommersOf d leaves
    else ommersOf d (leaves.drop (2 ^ d)) ++ [h.root d (leaves.take (2 ^ d))]

theorem ommersOf_le {d : Nat} {leaves : List H} (few : leaves.length ≤ 2 ^ d) :
    ommersOf h (d + 1) leaves = ommersOf h d leaves := by
  rw [ommersOf, if_pos few]

theorem ommersOf_gt {d : Nat} {leaves : List H} (many : 2 ^ d < leaves.length) :
    ommersOf h (d + 1) leaves = ommersOf h d (leaves.drop (2 ^ d)) ++ [h.root d (leaves.take (2 ^ d))] := by
  rw [ommersOf, if_neg (by omega)]

theorem ommersOf_singleton (d : Nat) (leaf : H) : ommersOf h d [leaf] = [] := by
  induction d with
  | zero => rfl
  | succ d ih => rw [ommersOf_le h (show [leaf].length ≤ 2 ^ d from Nat.one_le_two_pow), ih]

/-- The position is the one of the newest of the leaves among the `2 ^ d` around it. -/
structure Newest (d position : Nat) (leaves : List H) (leaf : H) : Prop where
  position_eq : position % 2 ^ d + 1 = leaves.length
  last : leaves.getLast? = some leaf

variable {h} {d position : Nat} {leaves : List H} {leaf : H}

namespace Newest

theorem bit (d position : Nat) : position % 2 ^ (d + 1) = position % 2 ^ d + 2 ^ d * (position / 2 ^ d % 2) := by
  rw [pow_succ, Nat.mod_mul]

theorem half (position d : Nat) : position / 2 ^ d / 2 = position / 2 ^ (d + 1) := by
  rw [Nat.div_div_eq_div_mul, pow_succ]

theorem left (n : Newest (d + 1) position leaves leaf) (few : leaves.length ≤ 2 ^ d) :
    Newest d position leaves leaf ∧ position / 2 ^ d % 2 = 0 := by
  have := n.position_eq
  rw [bit] at this
  rcases Nat.mod_two_eq_zero_or_one (position / 2 ^ d) with even | odd
  · rw [even] at this
    exact ⟨⟨by omega, n.last⟩, even⟩
  · rw [odd] at this
    omega

theorem right (n : Newest (d + 1) position leaves leaf) (many : 2 ^ d < leaves.length) :
    Newest d position (leaves.drop (2 ^ d)) leaf ∧ position / 2 ^ d % 2 = 1 := by
  have eq := n.position_eq
  have low := Nat.mod_lt position (Nat.two_pow_pos d)
  rw [bit] at eq
  rcases Nat.mod_two_eq_zero_or_one (position / 2 ^ d) with even | odd
  · rw [even] at eq
    omega
  · rw [odd] at eq
    refine ⟨⟨?_, ?_⟩, odd⟩
    · rw [length_drop]
      omega
    · rw [getLast?_drop, if_neg (by omega), n.last]

end Newest

variable {level : Nat}

theorem pushOmmer_even {node : H} (even : position % 2 = 0) :
    pushOmmer h level position ommers node = node :: ommers := by
  cases ommers with
  | nil => rfl
  | cons ommer ommers => rw [pushOmmer, if_pos even]

theorem pushOmmer_odd {ommer : H} {node : H} (odd : position % 2 = 1) :
    pushOmmer h level position (ommer :: ommers) node =
      pushOmmer h (level + 1) (position / 2) ommers (h.combine level ommer node) := by
  rw [pushOmmer, if_neg (by omega)]

theorem ne_nil_of_last (last : leaves.getLast? = some leaf) : leaves ≠ [] := by
  rintro rfl
  cases last

/-- The newest leaf completes a subtree of depth `d`, and goes up as its root. -/
theorem pushOmmer_complete (n : Newest d position leaves leaf) (full : leaves.length = 2 ^ d) (above : List H) :
    pushOmmer h 0 position (ommersOf h d leaves ++ above) leaf =
      pushOmmer h d (position / 2 ^ d) above (h.root d leaves) := by
  induction d generalizing leaves above with
  | zero =>
    obtain ⟨x, rfl⟩ := length_eq_one_iff.mp full
    have last := n.last
    rw [getLast?_singleton, Option.some.injEq] at last
    rw [last, pow_zero, Nat.div_one]
    rfl
  | succ d ih =>
    have many : 2 ^ d < leaves.length := by
      have := Nat.two_pow_pos d
      rw [full, pow_succ]
      omega
    obtain ⟨lower, odd⟩ := n.right many
    have rest : (leaves.drop (2 ^ d)).length = 2 ^ d := by
      rw [length_drop, full, pow_succ]
      omega
    rw [ommersOf_gt h many, append_assoc, singleton_append, ih lower rest, pushOmmer_odd odd, Newest.half,
      h.root_succ_of_ne_nil (ne_nil_of_last n.last)]

/-- A leaf is appended to a tree of depth `d` that is not full. -/
theorem pushOmmer_ommersOf (n : Newest d position leaves leaf) (room : leaves.length < 2 ^ d)
    (above : List H) (next : H) :
    pushOmmer h 0 position (ommersOf h d leaves ++ above) leaf = ommersOf h d (leaves ++ [next]) ++ above := by
  induction d generalizing leaves above with
  | zero =>
    have := n.position_eq
    omega
  | succ d ih =>
    have longer : (leaves ++ [next]).length = leaves.length + 1 := by simp
    rcases Nat.lt_trichotomy leaves.length (2 ^ d) with few | half | many
    · obtain ⟨lower, -⟩ := n.left few.le
      rw [ommersOf_le h few.le, ommersOf_le h (by omega), ih lower few]
    · -- the left half is complete, and the new leaf opens the right one
      obtain ⟨lower, even⟩ := n.left half.le
      rw [ommersOf_le h half.le, pushOmmer_complete lower half, pushOmmer_even even, ommersOf_gt h (by omega), ← half,
        drop_left, take_left, ommersOf_singleton]
      rfl
    · obtain ⟨lower, -⟩ := n.right many
      have rest : (leaves.drop (2 ^ d)).length < 2 ^ d := by
        rw [pow_succ] at room
        rw [length_drop]
        omega
      rw [ommersOf_gt h many, ommersOf_gt h (by omega), append_assoc, ih lower rest, drop_append_of_le_length many.le,
        take_append_of_le_length many.le, append_assoc]

/-! ## The frontier of a leaf sequence -/

/-- The frontier of the tree over `leaves`. -/
inductive Over (h : MerkleHasher H) : MerkleFrontier depth H → List H → Prop
  | empty : Over h none []
  | newest {f : NonEmptyFrontier depth H} {leaves : List H} (position : f.position + 1 = leaves.length)
      (last : leaves.getLast? = some f.leaf) (ommers : f.ommers = ommersOf h depth leaves) : Over h (some f) leaves

namespace Over

variable {f f' : MerkleFrontier depth H}

theorem value_eq_none (o : Over h f leaves) : f.value = none ↔ leaves = [] := by
  cases o with
  | empty => exact ⟨fun _ => rfl, fun _ => rfl⟩
  | newest position last ommers => exact ⟨(nomatch ·), fun nil => absurd nil (ne_nil_of_last last)⟩

theorem newest_of {f : NonEmptyFrontier depth H} (position : f.position + 1 = leaves.length)
    (last : leaves.getLast? = some f.leaf) :
    Newest depth f.position leaves f.leaf := by
  refine ⟨?_, last⟩
  rw [Nat.mod_eq_of_lt f.inside, position]

theorem fromParts_value (o : Over h f leaves) {leaf : H} {ommers : List H} (hv : f.value = some (leaf, ommers)) :
    fromParts (leaves.length - 1) leaf ommers = some f := by
  cases o with
  | empty => cases hv
  | @newest f _ position last eq =>
    cases hv
    rw [← position]
    exact fromParts_parts f

theorem append (o : Over h f leaves) (next : H) (added : append h f next = some f') : Over h f' (leaves ++ [next]) := by
  cases o with
  | empty =>
    cases added
    exact .newest rfl rfl (ommersOf_singleton h depth next).symm
  | @newest f _ position last eq =>
    rw [append] at added
    split at added
    · rename_i inside
      cases added
      have pushed := pushOmmer_ommersOf (h := h) (newest_of position last) (by omega) [] next
      rw [append_nil, append_nil, ← eq] at pushed
      refine .newest ?_ getLast?_concat pushed
      rw [length_append, ← position]
      rfl
    · cases added

theorem exists_append (o : Over h f leaves) (next : H) (room : leaves.length < 2 ^ depth) :
    ∃ f', MerkleFrontier.append h f next = some f' := by
  cases o with
  | empty => exact ⟨_, rfl⟩
  | @newest f _ position last eq =>
    rw [MerkleFrontier.append, dif_pos (by omega)]
    exact ⟨_, rfl⟩

variable {more : List H}

theorem extend (o : Over h f leaves) (added : extend h f more = some f') : Over h f' (leaves ++ more) := by
  induction more generalizing f leaves with
  | nil =>
    cases added
    rwa [append_nil]
  | cons next more ih =>
    rw [extend, foldlM_cons] at added
    obtain ⟨g, one, rest⟩ := Option.bind_eq_some_iff.mp added
    have := ih (o.append next one) rest
    rwa [append_assoc, singleton_append] at this

theorem exists_extend (o : Over h f leaves) (room : (leaves ++ more).length ≤ 2 ^ depth) :
    ∃ f', MerkleFrontier.extend h f more = some f' := by
  induction more generalizing f leaves with
  | nil => exact ⟨f, rfl⟩
  | cons next more ih =>
    have longer : (leaves ++ next :: more).length = leaves.length + 1 + more.length := by
      rw [length_append, length_cons]
      omega
    obtain ⟨g, one⟩ := o.exists_append next (by omega)
    obtain ⟨f', rest⟩ := ih (o.append next one) (by rwa [append_assoc, singleton_append])
    refine ⟨f', ?_⟩
    rw [MerkleFrontier.extend, foldlM_cons, one]
    exact rest

end Over

end MerkleFrontier
