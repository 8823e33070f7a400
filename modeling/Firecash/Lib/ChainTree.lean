import Mathlib.Data.List.Nodup
import Mathlib.Data.Finset.Basic
import Mathlib.Data.Finset.Lattice.Lemmas

/-!
# Rooted trees by parent pointers, and sets kept along a chain

A tree is a parent function with a height that drops by one at every step down to the root. The chain
of a node is the list from the node to the root, and a node is an ancestor of another if it is on its
chain (inclusively). Ancestors of one node are comparable (`mem_chain_total`), and mutual ancestors
are equal (`mem_chain_antisymm`).

The second half is about a set that is moved along such a tree: every node has a list of keys it adds,
`chainKeys` collects them along the chain, and when no key occurs twice on a chain, stepping down
removes exactly what stepping up added (`chainSet_sdiff`).
-/

open List

structure ChainTree (B : Type) where
  root : B
  parent : B → B
  height : B → Nat
  height_root : height root = 0
  height_parent : ∀ {b}, b ≠ root → height b = height (parent b) + 1

namespace ChainTree

variable {B : Type} (T : ChainTree B)

/-- The first `n + 1` nodes on the way to the root. -/
def chainUpTo (T : ChainTree B) : Nat → B → List B
  | 0, b => [b]
  | n + 1, b => b :: T.chainUpTo n (T.parent b)

/-- A node, its parent, and so on to the root. -/
def chain (b : B) : List B := T.chainUpTo (T.height b) b

theorem chain_root : T.chain T.root = [T.root] := by
  simp [chain, T.height_root, chainUpTo]

variable {T} {a b c : B}

theorem chain_of_ne_root (hb : b ≠ T.root) : T.chain b = b :: T.chain (T.parent b) := by
  rw [chain, T.height_parent hb]
  rfl

/-- Induction from the root upwards. -/
theorem induction_on {motive : B → Prop} (b : B) (root : motive T.root)
    (step : ∀ b, b ≠ T.root → motive (T.parent b) → motive b) : motive b := by
  induction hn : T.height b generalizing b with
  | zero =>
    by_cases hb : b = T.root
    · exact hb ▸ root
    · have := T.height_parent hb
      omega
  | succ n ih =>
    by_cases hb : b = T.root
    · exact hb ▸ root
    · refine step b hb (ih (T.parent b) ?_)
      have := T.height_parent hb
      omega

theorem mem_chain_self (T : ChainTree B) (b : B) : b ∈ T.chain b := by
  by_cases hb : b = T.root
  · simp [hb, T.chain_root]
  · simp [chain_of_ne_root hb]

theorem mem_chain_iff (hb : b ≠ T.root) : a ∈ T.chain b ↔ a = b ∨ a ∈ T.chain (T.parent b) := by
  rw [chain_of_ne_root hb, mem_cons]

theorem chain_suffix (h : a ∈ T.chain b) : T.chain a <:+ T.chain b := by
  induction b using induction_on (T := T) with
  | root =>
    rw [T.chain_root, mem_singleton] at h
    rw [h]
  | step b hb ih =>
    rcases (mem_chain_iff hb).mp h with rfl | h
    · exact suffix_rfl
    · rw [chain_of_ne_root hb]
      exact (ih h).trans (suffix_cons ..)

theorem mem_chain_root : a ∈ T.chain T.root ↔ a = T.root := by
  rw [T.chain_root, mem_singleton]

theorem mem_chain_of_parent (hb : b ≠ T.root) (h : a ∈ T.chain (T.parent b)) : a ∈ T.chain b :=
  (mem_chain_iff hb).mpr (Or.inr h)

theorem parent_mem_chain (hb : b ≠ T.root) : T.parent b ∈ T.chain b :=
  mem_chain_of_parent hb (T.mem_chain_self _)

theorem root_mem_chain (T : ChainTree B) (b : B) : T.root ∈ T.chain b := by
  refine induction_on (motive := fun b => T.root ∈ T.chain b) b (T.mem_chain_self _) ?_
  intro b hb ih
  exact mem_chain_of_parent hb ih

theorem mem_chain_trans (hab : a ∈ T.chain b) (hbc : b ∈ T.chain c) : a ∈ T.chain c := by
  refine induction_on (T := T) (motive := fun c => b ∈ T.chain c → a ∈ T.chain c) c ?_ ?_ hbc
  · intro hb
    rwa [mem_chain_root.mp hb] at hab
  · intro c hc ih hb
    rcases (mem_chain_iff hc).mp hb with rfl | hb
    · exact hab
    · exact mem_chain_of_parent hc (ih hb)

theorem height_le_of_mem (h : a ∈ T.chain b) : T.height a ≤ T.height b := by
  refine induction_on (T := T) (motive := fun b => a ∈ T.chain b → T.height a ≤ T.height b) b ?_ ?_ h
  · intro h
    rw [mem_chain_root.mp h]
  · intro b hb ih h
    have hp := T.height_parent hb
    rcases (mem_chain_iff hb).mp h with rfl | h
    · exact Nat.le_refl _
    · have := ih h
      omega

theorem notMem_chain_parent (hb : b ≠ T.root) : b ∉ T.chain (T.parent b) := by
  intro h
  have := height_le_of_mem h
  have := T.height_parent hb
  omega

theorem mem_chain_antisymm (hab : a ∈ T.chain b) (hba : b ∈ T.chain a) : a = b := by
  by_cases hb : b = T.root
  · subst hb
    exact mem_chain_root.mp hab
  · rcases (mem_chain_iff hb).mp hab with h | h
    · exact h
    · have h1 := height_le_of_mem h
      have h2 := height_le_of_mem hba
      have h3 := T.height_parent hb
      omega

theorem mem_chain_total (ha : a ∈ T.chain c) (hb : b ∈ T.chain c) : a ∈ T.chain b ∨ b ∈ T.chain a := by
  refine induction_on (T := T)
    (motive := fun c => a ∈ T.chain c → b ∈ T.chain c → a ∈ T.chain b ∨ b ∈ T.chain a) c ?_ ?_ ha hb
  · intro ha hb
    rw [mem_chain_root.mp ha, mem_chain_root.mp hb]
    exact Or.inl (T.mem_chain_self _)
  · intro c hc ih ha hb
    rcases (mem_chain_iff hc).mp ha with rfl | ha'
    · exact Or.inr hb
    · rcases (mem_chain_iff hc).mp hb with rfl | hb'
      · exact Or.inl ha
      · exact ih ha' hb'

theorem mem_chain_parent_of_ne (h : a ∈ T.chain b) (hne : a ≠ b) : b ≠ T.root ∧ a ∈ T.chain (T.parent b) := by
  by_cases hb : b = T.root
  · subst hb
    exact absurd (mem_chain_root.mp h) hne
  · exact ⟨hb, ((mem_chain_iff hb).mp h).resolve_left hne⟩

/-- `a` is strictly below `b`. -/
def Below (T : ChainTree B) (a b : B) : Prop := a ∈ T.chain b ∧ b ≠ a

theorem Below.ne_root (h : T.Below a b) : b ≠ T.root := (mem_chain_parent_of_ne h.1 (Ne.symm h.2)).1

theorem Below.mem_chain_parent (h : T.Below a b) : a ∈ T.chain (T.parent b) :=
  (mem_chain_parent_of_ne h.1 (Ne.symm h.2)).2

theorem Below.of_mem_chain (h : T.Below a b) (hc : c ∈ T.chain a) : T.Below c b := by
  refine ⟨mem_chain_trans hc h.1, ?_⟩
  rintro rfl
  exact h.2 (mem_chain_antisymm hc h.1)

theorem below_parent (hb : b ≠ T.root) : T.Below (T.parent b) b :=
  ⟨parent_mem_chain hb, fun he => notMem_chain_parent hb (he ▸ T.mem_chain_self b)⟩

/-! ## Walking up -/

/-- `todo` lists the nodes above `pos` up to `dst`, each the parent of the next. -/
def Ascends (T : ChainTree B) (pos : B) : List B → B → Prop
  | [], dst => pos = dst
  | b :: todo, dst => b ≠ T.root ∧ T.parent b = pos ∧ T.Ascends b todo dst

variable {pos dst : B} {todo : List B}

theorem Ascends.mem_chain (h : T.Ascends pos todo dst) : pos ∈ T.chain dst := by
  induction todo generalizing pos with
  | nil =>
    have hpos : pos = dst := h
    exact hpos ▸ T.mem_chain_self pos
  | cons b todo ih =>
    obtain ⟨hb, rfl, h⟩ := h
    exact mem_chain_trans (parent_mem_chain hb) (ih h)

theorem Ascends.snoc (hto : dst ≠ T.root) (h : T.Ascends pos todo (T.parent dst)) :
    T.Ascends pos (todo ++ [dst]) dst := by
  induction todo generalizing pos with
  | nil => exact ⟨hto, Eq.symm h, rfl⟩
  | cons b todo ih =>
    obtain ⟨hb, hp, h⟩ := h
    exact ⟨hb, hp, ih h⟩

/-- An ascent is strict. -/
theorem Ascends.pairwise (h : T.Ascends pos todo dst) : (pos :: todo).Pairwise T.Below := by
  induction todo generalizing pos with
  | nil => exact pairwise_singleton _ _
  | cons b todo ih =>
    obtain ⟨hb, rfl, h⟩ := h
    have htail := ih h
    refine pairwise_cons.mpr ⟨fun x hx => ?_, htail⟩
    rcases mem_cons.mp hx with rfl | hx
    · exact below_parent hb
    · exact ((pairwise_cons.mp htail).1 x hx).of_mem_chain (parent_mem_chain hb)

theorem ascends_append {rest : List B} :
    T.Ascends pos (todo ++ rest) dst ↔ ∃ mid, T.Ascends pos todo mid ∧ T.Ascends mid rest dst := by
  induction todo generalizing pos with
  | nil =>
    constructor
    · intro h
      exact ⟨pos, rfl, h⟩
    · rintro ⟨mid, rfl, h⟩
      exact h
  | cons b todo ih =>
    constructor
    · rintro ⟨hb, hp, h⟩
      obtain ⟨mid, first, second⟩ := ih.mp h
      exact ⟨mid, ⟨hb, hp, first⟩, second⟩
    · rintro ⟨mid, ⟨hb, hp, first⟩, second⟩
      exact ⟨hb, hp, ih.mpr ⟨mid, first, second⟩⟩

theorem Ascends.dst_eq (h : T.Ascends pos todo dst) : dst = todo.getLast?.getD pos := by
  induction todo generalizing pos with
  | nil => exact Eq.symm h
  | cons b todo ih =>
    obtain ⟨-, -, h⟩ := h
    rw [ih h]
    cases todo with
    | nil => rfl
    | cons c todo =>
      rw [getLast?_cons_cons, getLast?_eq_some_getLast (cons_ne_nil c todo)]
      rfl

theorem Ascends.mem_chain_iff (h : T.Ascends pos todo dst) :
    a ∈ T.chain dst ↔ a ∈ todo ∨ a ∈ T.chain pos := by
  induction todo generalizing pos with
  | nil =>
    have hpos : pos = dst := h
    simp [hpos]
  | cons b todo ih =>
    obtain ⟨hb, rfl, h⟩ := h
    rw [ih h, ChainTree.mem_chain_iff hb, mem_cons]
    tauto

variable [DecidableEq B]

/-- The nodes of `chain dst` above `pos`, in ascending order. -/
def above (T : ChainTree B) (pos dst : B) : List B := ((T.chain dst).takeWhile fun b => b ≠ pos).reverse

theorem above_self (pos : B) : T.above pos pos = [] := by
  by_cases hp : pos = T.root
  · simp [above, hp, T.chain_root]
  · simp [above, chain_of_ne_root hp]

theorem above_of_ne (hto : dst ≠ T.root) (hne : dst ≠ pos) :
    T.above pos dst = T.above pos (T.parent dst) ++ [dst] := by
  simp [above, chain_of_ne_root hto, hne]

theorem ascends_above (h : pos ∈ T.chain dst) : T.Ascends pos (T.above pos dst) dst := by
  refine induction_on (T := T) (motive := fun dst => pos ∈ T.chain dst →
    T.Ascends pos (T.above pos dst) dst) dst ?_ ?_ h
  · intro h
    obtain rfl := mem_chain_root.mp h
    rw [above_self]
    rfl
  · intro dst hto ih h
    by_cases hne : dst = pos
    · subst hne
      rw [above_self]
      rfl
    · rw [above_of_ne hto hne]
      exact (ih ((mem_chain_iff hto).mp h |>.resolve_left (Ne.symm hne))).snoc hto

/-- `x` lies on the way from `a` down to the latest common ancestor and up to `b`. -/
def OnPath (T : ChainTree B) (x a b : B) : Prop :=
  (x ∈ T.chain a ∨ x ∈ T.chain b) ∧ ∀ y ∈ T.chain a, y ∈ T.chain b → y ∈ T.chain x

instance (x a b : B) : Decidable (T.OnPath x a b) := by
  unfold OnPath
  infer_instance

omit [DecidableEq B] in
theorem onPath_self (a b : B) : T.OnPath a a b := ⟨Or.inl (T.mem_chain_self a), fun _ hy _ => hy⟩

end ChainTree

/-! ## Keys along a chain -/

namespace ChainTree

variable {B K : Type} [DecidableEq K] (T : ChainTree B) (keys : B → List K)

/-- The keys added along the chain of a node. -/
def chainKeys (b : B) : List K := (T.chain b).flatMap keys

def chainSet (b : B) : Finset K := (T.chainKeys keys b).toFinset

variable {T keys} {a b c : B}

omit [DecidableEq K] in
theorem chainKeys_of_ne_root (hb : b ≠ T.root) :
    T.chainKeys keys b = keys b ++ T.chainKeys keys (T.parent b) := by
  simp [chainKeys, chain_of_ne_root hb]

theorem chainSet_of_ne_root (hb : b ≠ T.root) :
    T.chainSet keys b = T.chainSet keys (T.parent b) ∪ (keys b).toFinset := by
  rw [chainSet, chainKeys_of_ne_root hb, toFinset_append, Finset.union_comm]
  rfl

theorem mem_chainSet {k : K} : k ∈ T.chainSet keys b ↔ ∃ a ∈ T.chain b, k ∈ keys a := by
  simp [chainSet, chainKeys]

theorem chainSet_mono (h : a ∈ T.chain b) : T.chainSet keys a ⊆ T.chainSet keys b := by
  intro k hk
  obtain ⟨x, hx, hk⟩ := mem_chainSet.mp hk
  exact mem_chainSet.mpr ⟨x, mem_chain_trans hx h, hk⟩

theorem keys_subset_chainSet (h : a ∈ T.chain b) : (keys a).toFinset ⊆ T.chainSet keys b := by
  intro k hk
  exact mem_chainSet.mpr ⟨a, h, mem_toFinset.mp hk⟩

omit [DecidableEq K] in
theorem chainKeys_nodup_of_mem (hab : a ∈ T.chain b) (h : (T.chainKeys keys b).Nodup) : (T.chainKeys keys a).Nodup := by
  refine induction_on (T := T)
    (motive := fun b => a ∈ T.chain b → (T.chainKeys keys b).Nodup → (T.chainKeys keys a).Nodup) b ?_ ?_ hab h
  · intro hab h
    rwa [mem_chain_root.mp hab]
  · intro b hb ih hab h
    rcases (mem_chain_iff hb).mp hab with rfl | hab
    · exact h
    · rw [chainKeys_of_ne_root hb] at h
      exact ih hab (nodup_append.mp h).2.1

/-- On a chain without repeated keys, a node's keys are not among those of its proper ancestors. -/
theorem disjoint_keys_chainSet (hc : b ∈ T.chain c) (hnd : (T.chainKeys keys c).Nodup) (hb : b ≠ T.root)
    (ha : a ∈ T.chain (T.parent b)) : Disjoint (T.chainSet keys a) (keys b).toFinset := by
  have hnd := chainKeys_nodup_of_mem hc hnd
  rw [chainKeys_of_ne_root hb] at hnd
  rw [Finset.disjoint_right]
  intro k hk hka
  have hk' : k ∈ T.chainKeys keys (T.parent b) := mem_toFinset.mp (chainSet_mono ha hka)
  exact (nodup_append.mp hnd).2.2 k (mem_toFinset.mp hk) k hk' rfl

theorem chainSet_sdiff (hnd : (T.chainKeys keys b).Nodup) (hb : b ≠ T.root) :
    T.chainSet keys b \ (keys b).toFinset = T.chainSet keys (T.parent b) := by
  have hdis := disjoint_keys_chainSet (T.mem_chain_self b) hnd hb (T.mem_chain_self (T.parent b))
  rw [chainSet_of_ne_root hb, Finset.union_sdiff_right, Finset.sdiff_eq_self_of_disjoint hdis]

/-- On a chain without repeated keys, a node has the set of an ancestor exactly if nothing above the
ancestor adds a key. -/
theorem chainSet_eq_iff [DecidableEq B] (hab : a ∈ T.chain b) (hnd : (T.chainKeys keys b).Nodup) :
    T.chainSet keys b = T.chainSet keys a ↔ ∀ x ∈ T.above a b, keys x = [] := by
  refine induction_on (T := T) (motive := fun b => a ∈ T.chain b → (T.chainKeys keys b).Nodup →
    (T.chainSet keys b = T.chainSet keys a ↔ ∀ x ∈ T.above a b, keys x = [])) b ?_ ?_ hab hnd
  · intro hab _
    obtain rfl := mem_chain_root.mp hab
    simp [above_self]
  · intro b hb ih hab hnd
    by_cases hne : b = a
    · subst hne
      simp [above_self]
    · have hap : a ∈ T.chain (T.parent b) := (mem_chain_parent_of_ne hab (Ne.symm hne)).2
      have ih := ih hap (chainKeys_nodup_of_mem (parent_mem_chain hb) hnd)
      have hdis := disjoint_keys_chainSet (T.mem_chain_self b) hnd hb (T.mem_chain_self (T.parent b))
      rw [above_of_ne hb hne, forall_mem_append, ← ih, chainSet_of_ne_root hb]
      simp only [mem_singleton, forall_eq]
      constructor
      · intro h
        have hsub : (keys b).toFinset ⊆ T.chainSet keys (T.parent b) :=
          (Finset.subset_union_right.trans h.subset).trans (chainSet_mono hap)
        have hempty : (keys b).toFinset = ∅ := Finset.disjoint_self_iff_empty _ |>.mp (hdis.mono_left hsub)
        rw [hempty, Finset.union_empty] at h
        exact ⟨h, toFinset_eq_empty_iff _ |>.mp hempty⟩
      · rintro ⟨h, hnil⟩
        rw [h, hnil, toFinset_nil, Finset.union_empty]

omit [DecidableEq K] in
theorem chainKeys_congr {keys' : B → List K} (h : ∀ a ∈ T.chain b, keys' a = keys a) :
    T.chainKeys keys' b = T.chainKeys keys b := by
  exact flatMap_congr h

end ChainTree
