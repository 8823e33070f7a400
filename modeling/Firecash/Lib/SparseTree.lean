import Firecash.Lib.KeyBits

/-!
# Sparse binary trees over a map

A map from keys of `n` bits to values, zero where there is none, as a binary tree of depth `n`. The
subtree of depth `d` on the path of `k` holds the keys that agree with `k` for `d` bits. It is `Vacant`,
has a `Lone` key, or is `Crowded`; each is said of its two children. `hashAt` is its hash: a vacant
subtree has the empty hash of its height, a lone key is hashed on its own at any height, and a crowded
subtree is hashed from its children.
-/

/-- The hashes of a sparse tree: of two children, and of a key that is alone in its subtree. -/
structure TreeHasher (n : Nat) (V : Type) where
  node : V → V → V
  leaf : BitVec n → V → V

namespace SparseTree

open KeyBits

variable {n : Nat} {V : Type} [Zero V] {M M' : BitVec n → V} {d e : Nat} {k x a b : BitVec n}

def Vacant (M : BitVec n → V) (d : Nat) (k : BitVec n) : Prop := ∀ x, Agree d k x → M x = 0

/-- `a` is the only key below. -/
def Lone (M : BitVec n → V) (d : Nat) (k a : BitVec n) : Prop :=
  Agree d k a ∧ M a ≠ 0 ∧ ∀ x, Agree d k x → M x ≠ 0 → x = a

def Crowded (M : BitVec n → V) (d : Nat) (k : BitVec n) : Prop := ¬ Vacant M d k ∧ ∀ a, ¬ Lone M d k a

theorem trichotomy (M : BitVec n → V) (d : Nat) (k : BitVec n) :
    Vacant M d k ∨ (∃ a, Lone M d k a) ∨ Crowded M d k := by
  by_cases vacant : Vacant M d k
  · exact .inl vacant
  · by_cases lone : ∃ a, Lone M d k a
    · exact .inr (.inl lone)
    · exact .inr (.inr ⟨vacant, not_exists.mp lone⟩)

theorem Lone.not_vacant (h : Lone M d k a) : ¬ Vacant M d k := fun vacant => h.2.1 (vacant a h.1)

theorem Lone.eq (h : Lone M d k a) (h' : Lone M d k b) : a = b := h'.2.2 a h.1 h.2.1

/-! ## Below a subtree, and at the leaves -/

theorem Vacant.below (h : Vacant M d k) (le : d ≤ e) (same : Agree d k x) : Vacant M e x :=
  fun y hy => h y (same.trans (hy.mono le))

theorem Lone.below (h : Lone M d k a) (le : d ≤ e) (same : Agree d k x) (here : Agree e x a) : Lone M e x a :=
  ⟨here, h.2.1, fun y hy => h.2.2 y (same.trans (hy.mono le))⟩

theorem Lone.vacant_beside (h : Lone M d k a) (le : d ≤ e) (same : Agree d k x) (off : ¬ Agree e x a) :
    Vacant M e x := by
  intro y hy
  by_contra held
  obtain rfl := h.2.2 y (same.trans (hy.mono le)) held
  exact off hy

theorem Crowded.above (h : Crowded M e x) (le : d ≤ e) (same : Agree d k x) : Crowded M d k := by
  constructor
  · intro vacant
    exact h.1 (vacant.below le same)
  · intro a lone
    by_cases here : Agree e x a
    · exact h.2 a (lone.below le same here)
    · exact h.1 (lone.vacant_beside le same here)

theorem vacant_full : Vacant M n k ↔ M k = 0 := by
  constructor
  · intro h
    exact h k (.refl n k)
  · intro h x hx
    rw [← hx.eq, h]

theorem lone_full : Lone M n k a ↔ a = k ∧ M k ≠ 0 := by
  constructor
  · rintro ⟨same, held, -⟩
    obtain rfl := same.eq
    exact ⟨rfl, held⟩
  · rintro ⟨rfl, held⟩
    exact ⟨.refl n a, held, fun x hx _ => hx.eq.symm⟩

theorem not_crowded_full : ¬ Crowded M n k := by
  rintro ⟨vacant, lone⟩
  exact lone k (lone_full.mpr ⟨rfl, fun none => vacant (vacant_full.mpr none)⟩)

/-! ## The two children -/

section Children

variable (hd : d < n)

include hd

theorem vacant_iff_children :
    Vacant M d k ↔ Vacant M (d + 1) (withBit k d false) ∧ Vacant M (d + 1) (withBit k d true) := by
  constructor
  · intro h
    exact ⟨h.below (Nat.le_succ d) (agree_withBit hd k false), h.below (Nat.le_succ d) (agree_withBit hd k true)⟩
  · rintro ⟨left, right⟩ x hx
    cases side : bitAt x d with
    | false => exact left x ((agree_child_iff hd).mpr ⟨hx, side⟩)
    | true => exact right x ((agree_child_iff hd).mpr ⟨hx, side⟩)

theorem Lone.of_child {b : Bool} (h : Lone M (d + 1) (withBit k d b) a) (other : Vacant M (d + 1) (withBit k d !b)) :
    Lone M d k a := by
  obtain ⟨here, held, only⟩ := h
  refine ⟨((agree_child_iff hd).mp here).1, held, fun x hx hm => ?_⟩
  by_cases side : bitAt x d = b
  · exact only x ((agree_child_iff hd).mpr ⟨hx, side⟩) hm
  · have across : bitAt x d = !b := by
      rw [Bool.eq_not]
      exact side
    exact absurd (other x ((agree_child_iff hd).mpr ⟨hx, across⟩)) hm

theorem Lone.child (h : Lone M d k a) :
    Lone M (d + 1) (withBit k d (bitAt a d)) a ∧ Vacant M (d + 1) (withBit k d !bitAt a d) := by
  constructor
  · exact h.below (Nat.le_succ d) (agree_withBit hd k _) ((agree_child_iff hd).mpr ⟨h.1, rfl⟩)
  · apply h.vacant_beside (Nat.le_succ d) (agree_withBit hd k _)
    intro here
    have bit := ((agree_child_iff hd).mp here).2
    cases side : bitAt a d <;> rw [side] at bit <;> cases bit

theorem crowded_of_both {k : BitVec n} (left : ¬ Vacant M (d + 1) (withBit k d false))
    (right : ¬ Vacant M (d + 1) (withBit k d true)) :
    Crowded M d k := by
  constructor
  · intro vacant
    exact left ((vacant_iff_children hd).mp vacant).1
  · intro a lone
    have other := (lone.child hd).2
    cases side : bitAt a d <;> rw [side] at other
    · exact right other
    · exact left other

theorem crowded_of_child {b : Bool} (h : Crowded M (d + 1) (withBit k d b)) : Crowded M d k :=
  h.above (Nat.le_succ d) (agree_withBit hd k b)

end Children

/-! ## What a subtree depends on -/

/-- Only the keys below count. -/
def Same (M M' : BitVec n → V) (d : Nat) (k : BitVec n) : Prop := ∀ x, Agree d k x → M x = M' x

omit [Zero V] in
theorem Same.below (h : Same M M' d k) (le : d ≤ e) (same : Agree d k x) : Same M M' e x :=
  fun y hy => h y (same.trans (hy.mono le))

omit [Zero V] in
theorem Same.symm (h : Same M M' d k) : Same M' M d k := fun x hx => (h x hx).symm

theorem Same.vacant (h : Same M M' d k) (vacant : Vacant M d k) : Vacant M' d k :=
  fun x hx => (h x hx).symm.trans (vacant x hx)

theorem Same.lone (h : Same M M' d k) (lone : Lone M d k a) : Lone M' d k a := by
  obtain ⟨here, held, only⟩ := lone
  refine ⟨here, by rwa [← h a here], fun x hx hm => only x hx ?_⟩
  rwa [h x hx]

theorem Vacant.congr (same : Agree d k x) (h : Vacant M d k) : Vacant M d x := h.below le_rfl same

theorem Lone.congr (same : Agree d k x) (h : Lone M d k a) : Lone M d x a := h.below le_rfl same (same.symm.trans h.1)

/-! ## Hashes -/

/-- The hash of the vacant subtree of a height. -/
def emptyHash (T : TreeHasher n V) : Nat → V
  | 0 => 0
  | h + 1 => T.node (emptyHash T h) (emptyHash T h)

open Classical in
/-- The hash of the subtree of height `h` on the path of a key. -/
noncomputable def subtreeHash (T : TreeHasher n V) (M : BitVec n → V) : Nat → BitVec n → V
  | 0, k => if M k = 0 then 0 else T.leaf k (M k)
  | h + 1, k =>
    let d := n - (h + 1)
    if Vacant M d k then emptyHash T (h + 1)
    else if lone : ∃ a, Lone M d k a then T.leaf lone.choose (M lone.choose)
    else T.node (subtreeHash T M h (withBit k d false)) (subtreeHash T M h (withBit k d true))

/-- The hash of the subtree of depth `d` on the path of a key. -/
noncomputable def hashAt (T : TreeHasher n V) (M : BitVec n → V) (d : Nat) (k : BitVec n) : V :=
  subtreeHash T M (n - d) k

/-- The hash of the whole tree. -/
noncomputable def root (T : TreeHasher n V) (M : BitVec n → V) : V := hashAt T M 0 0

variable (T : TreeHasher n V)

theorem hashAt_of_vacant (hd : d ≤ n) (h : Vacant M d k) : hashAt T M d k = emptyHash T (n - d) := by
  unfold hashAt
  cases height : n - d with
  | zero =>
    obtain rfl : d = n := by omega
    rw [subtreeHash, if_pos (vacant_full.mp h)]
    rfl
  | succ below =>
    have depth : n - (below + 1) = d := by omega
    rw [subtreeHash, depth, if_pos h]

theorem hashAt_of_lone (hd : d ≤ n) (h : Lone M d k a) : hashAt T M d k = T.leaf a (M a) := by
  unfold hashAt
  cases height : n - d with
  | zero =>
    obtain rfl : d = n := by omega
    obtain ⟨rfl, held⟩ := lone_full.mp h
    rw [subtreeHash, if_neg held]
  | succ below =>
    have depth : n - (below + 1) = d := by omega
    rw [subtreeHash, depth, if_neg h.not_vacant, dif_pos ⟨a, h⟩]
    generalize_proofs some
    rw [some.choose_spec.eq h]

theorem hashAt_of_crowded (hd : d < n) (h : Crowded M d k) :
    hashAt T M d k = T.node (hashAt T M (d + 1) (withBit k d false)) (hashAt T M (d + 1) (withBit k d true)) := by
  unfold hashAt
  obtain ⟨below, height⟩ : ∃ below, n - d = below + 1 := ⟨n - d - 1, by omega⟩
  have depth : n - (below + 1) = d := by omega
  have child : n - (d + 1) = below := by omega
  rw [height, subtreeHash, depth, if_neg h.1, dif_neg (not_exists.mpr h.2), child]

/-- A vacant subtree hashes as if it were made of its children, except at the leaves. -/
theorem hashAt_of_not_lone (hd : d < n) (h : ∀ a, ¬ Lone M d k a) :
    hashAt T M d k = T.node (hashAt T M (d + 1) (withBit k d false)) (hashAt T M (d + 1) (withBit k d true)) := by
  by_cases vacant : Vacant M d k
  · obtain ⟨left, right⟩ := (vacant_iff_children hd).mp vacant
    have height : n - d = n - (d + 1) + 1 := by omega
    rw [hashAt_of_vacant T (by omega) vacant, hashAt_of_vacant T hd left, hashAt_of_vacant T hd right, height]
    rfl
  · exact hashAt_of_crowded T hd ⟨vacant, h⟩

/-- The hash is one of the subtree, not of the key that names it, and of the keys below. -/
theorem hashAt_congr (hd : d ≤ n) (same : Agree d k x) (maps : Same M M' d k) : hashAt T M d k = hashAt T M' d x := by
  induction height : n - d generalizing d k x with
  | zero =>
    obtain rfl : d = n := by omega
    obtain rfl := same.eq
    have value : M k = M' k := maps k (.refl _ k)
    by_cases held : M k = 0
    · rw [hashAt_of_vacant T hd (vacant_full.mpr held), hashAt_of_vacant T hd (vacant_full.mpr (value.symm.trans held))]
    · have held' : M' k ≠ 0 := by rwa [← value]
      rw [hashAt_of_lone T hd (lone_full.mpr ⟨rfl, held⟩), hashAt_of_lone T hd (lone_full.mpr ⟨rfl, held'⟩), value]
  | succ below ih =>
    have lt : d < n := by omega
    by_cases lone : ∃ a, Lone M d k a
    · obtain ⟨a, ha⟩ := lone
      rw [hashAt_of_lone T hd ha, hashAt_of_lone T hd ((maps.lone ha).congr same), maps a ha.1]
    · have lone' : ∀ a, ¬ Lone M' d x a := by
        intro a ha
        exact lone ⟨a, maps.symm.lone (ha.congr same.symm)⟩
      rw [hashAt_of_not_lone T lt (not_exists.mp lone), hashAt_of_not_lone T lt lone']
      have child : ∀ b, hashAt T M (d + 1) (withBit k d b) = hashAt T M' (d + 1) (withBit x d b) := by
        intro b
        apply ih lt
        · rw [agree_child_iff lt]
          exact ⟨same.trans (agree_withBit lt x b), bitAt_withBit_self lt x b⟩
        · exact maps.below (Nat.le_succ d) (agree_withBit lt k b)
        · omega
      rw [child, child]

end SparseTree
