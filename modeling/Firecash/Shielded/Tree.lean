import Firecash.Shielded.Primitives

/-!
# The global note-commitment tree (shielded-core/src/tree.rs)

`GlobalTree` keeps only the frontier of the append-only tree and its size; `FrontierState` is the
snapshot that is persisted. `GlobalTree.ofLeaves` is the tree a leaf sequence determines:
appending a subtree to it is appending to the sequence (`appendSubtree_ofLeaves`), and its
snapshot rebuilds it (`fromState_toState`).
-/

namespace Firecash

open List

/-- `TREE_DEPTH` (tree.rs:39) -/
def TREE_DEPTH : Nat := 32

/-- The leaves a tree of that depth holds. -/
def TREE_CAPACITY : Nat := 4294967296

/-- `ShieldedStateError::TreeFull` is raised from this. -/
inductive TreeFull where
  | treeFull
  deriving DecidableEq

/-- `GlobalTree` (tree.rs:110) -/
@[ext] structure GlobalTree (P : Prim) where
  frontier : P.Frontier
  size : Nat

/-- `FrontierState` (tree.rs:184) -/
structure FrontierState where
  size : Nat
  leaf : Option Bytes32
  ommers : List Bytes32
  deriving DecidableEq

/-- `#[derive(Default)]`: what a store that holds no frontier for a block returns. -/
def FrontierState.default : FrontierState := ⟨0, none, []⟩

/-- `TreeStateError` (tree.rs:195) -/
inductive TreeStateError where
  | nonCanonicalNode
  | inconsistent
  deriving DecidableEq

namespace GlobalTree

variable {P : Prim}

def new : GlobalTree P := ⟨P.frontierEmpty, 0⟩

def append (t : GlobalTree P) (cmx : P.Cmx) : Except TreeFull (GlobalTree P) :=
  match P.frontierAppend t.frontier (P.fromCmx cmx) with
  | some frontier => .ok ⟨frontier, t.size + 1⟩
  | none => .error .treeFull

/-- `append_subtree`: leaf by leaf, stopping at the first that does not fit. -/
def appendSubtree (t : GlobalTree P) : List P.Cmx → Except TreeFull (GlobalTree P)
  | [] => .ok t
  | cmx :: cmxs =>
    match t.append cmx with
    | .ok t' => t'.appendSubtree cmxs
    | .error e => .error e

def anchor (t : GlobalTree P) : P.Anchor :=
  match P.frontierValue t.frontier with
  | none => P.emptyAnchor
  | some _ => P.frontierRoot t.frontier

def toState (t : GlobalTree P) : FrontierState :=
  match P.frontierValue t.frontier with
  | none => ⟨0, none, []⟩
  | some (leaf, ommers) => ⟨t.size, some (P.nodeToBytes leaf), ommers.map P.nodeToBytes⟩

/-- `node_from_bytes` over a list, stopping at the first non-canonical node. -/
def nodesFromBytes (P : Prim) : List Bytes32 → Option (List P.Node) :=
  mapM P.nodeFromBytes

def fromState (state : FrontierState) : Except TreeStateError (GlobalTree P) :=
  if state.size = 0 then .ok new
  else
    match state.leaf with
    | none => .error .inconsistent
    | some leafBytes =>
      match P.nodeFromBytes leafBytes, nodesFromBytes P state.ommers with
      | some leaf, some ommers =>
        -- the frontier's position is the index of its newest leaf
        match P.frontierFromParts (state.size - 1) leaf ommers with
        | some frontier => .ok ⟨frontier, state.size⟩
        | none => .error .inconsistent
      | _, _ => .error .nonCanonicalNode

/-! ## Trees as leaf sequences -/

/-- The tree that holds exactly `leaves`, if it is not full. -/
def ofLeaves (leaves : List P.Cmx) : Except TreeFull (GlobalTree P) := new.appendSubtree leaves

theorem appendSubtree_append (t : GlobalTree P) (xs ys : List P.Cmx) :
    t.appendSubtree (xs ++ ys) = (t.appendSubtree xs).bind (·.appendSubtree ys) := by
  induction xs generalizing t with
  | nil => rfl
  | cons x xs ih =>
    simp only [cons_append, appendSubtree]
    cases t.append x with
    | ok t' => exact ih t'
    | error e => rfl

variable {leaves : List P.Cmx} {t : GlobalTree P}

/-- Appending a subtree to the tree of a leaf sequence appends to the sequence. -/
theorem appendSubtree_ofLeaves {sub : List P.Cmx} {t' : GlobalTree P} (ht : ofLeaves leaves = .ok t)
    (h : t.appendSubtree sub = .ok t') : ofLeaves (leaves ++ sub) = .ok t' := by
  have hl : new.appendSubtree leaves = .ok t := ht
  rw [ofLeaves, appendSubtree_append, hl]
  exact h

theorem appendSubtree_frontier (t t' : GlobalTree P) (leaves : List P.Cmx) (h : t.appendSubtree leaves = .ok t') :
    t'.size = t.size + leaves.length ∧
      (leaves.map P.fromCmx).foldlM P.frontierAppend t.frontier = some t'.frontier := by
  induction leaves generalizing t with
  | nil => cases h; exact ⟨rfl, rfl⟩
  | cons cmx cmxs ih =>
    simp only [appendSubtree, append] at h
    cases hf : P.frontierAppend t.frontier (P.fromCmx cmx) with
    | none => rw [hf] at h; cases h
    | some f =>
      rw [hf] at h
      obtain ⟨hsize, hfold⟩ := ih ⟨f, t.size + 1⟩ h
      refine ⟨?_, ?_⟩
      · rw [hsize, length_cons]; exact Nat.add_right_comm _ _ _
      · simp [foldlM_cons, hf, hfold]

theorem appendSubtree_of_frontier {f : P.Frontier}
    (h : (leaves.map P.fromCmx).foldlM P.frontierAppend t.frontier = some f) :
    t.appendSubtree leaves = .ok ⟨f, t.size + leaves.length⟩ := by
  induction leaves generalizing t with
  | nil =>
    cases h
    rfl
  | cons cmx cmxs ih =>
    rw [map_cons, foldlM_cons] at h
    obtain ⟨g, one, rest⟩ := Option.bind_eq_some_iff.mp h
    have added : t.append cmx = .ok ⟨g, t.size + 1⟩ := by simp only [append, one]
    rw [appendSubtree, added]
    dsimp only
    rw [ih rest, length_cons, Nat.add_right_comm, Nat.add_assoc]

theorem ofLeaves_size (h : ofLeaves leaves = .ok t) :
    t.size = leaves.length := by
  simpa [new] using (appendSubtree_frontier new t leaves h).1

theorem ofLeaves_frontier (h : ofLeaves leaves = .ok t) :
    P.frontierOf (leaves.map P.fromCmx) = some t.frontier :=
  (appendSubtree_frontier new t leaves h).2

theorem nodesFromBytes_map (laws : FrontierLaws P) (ns : List P.Node) :
    nodesFromBytes P (ns.map P.nodeToBytes) = some ns := by
  induction ns with
  | nil => rfl
  | cons n ns ih =>
    have ih' : mapM P.nodeFromBytes (ns.map P.nodeToBytes) = some ns := ih
    simp [nodesFromBytes, laws.nodeFromBytes_toBytes, ih']

/-- The snapshot of a tree built from the empty one rebuilds it. -/
theorem fromState_toState (laws : FrontierLaws P)
    (h : ofLeaves leaves = .ok t) : fromState t.toState = .ok t := by
  have hf := ofLeaves_frontier h
  have hsize := ofLeaves_size h
  have hnone := laws.value_eq_none hf
  cases hv : P.frontierValue t.frontier with
  | none =>
    obtain rfl : leaves = [] := map_eq_nil_iff.mp (hnone.mp hv)
    cases h
    simp [toState, hv, fromState]
  | some value =>
    obtain ⟨leaf, ommers⟩ := value
    have hparts := laws.fromParts_value hf hv
    have hne : leaves ≠ [] := by
      rintro rfl
      have := hnone.mpr rfl
      rw [hv] at this
      cases this
    have hpos : t.size ≠ 0 := by rw [hsize]; exact fun h0 => hne (eq_nil_of_length_eq_zero h0)
    rw [length_map, ← hsize] at hparts
    simp [toState, hv, fromState, hpos, laws.nodeFromBytes_toBytes, nodesFromBytes_map laws, hparts]

variable {fs : FrontierState}

/-- What a snapshot that is not empty was rebuilt from. -/
theorem fromState_cases (nonempty : fs.size ≠ 0) (h : fromState fs = .ok t) :
    ∃ bytes leaf ommers frontier, fs.leaf = some bytes ∧ P.nodeFromBytes bytes = some leaf ∧
      nodesFromBytes P fs.ommers = some ommers ∧ P.frontierFromParts (fs.size - 1) leaf ommers = some frontier ∧
      t = ⟨frontier, fs.size⟩ := by
  rw [fromState, if_neg nonempty] at h
  split at h
  · cases h
  · rename_i bytes present
    split at h
    · rename_i leaf ommers hleaf hommers
      split at h
      · rename_i frontier parts
        cases h
        exact ⟨bytes, leaf, ommers, frontier, present, hleaf, hommers, parts, rfl⟩
      · cases h
    · cases h

theorem fromState_size (h : fromState fs = .ok t) : t.size = fs.size := by
  by_cases zero : fs.size = 0
  · rw [fromState, if_pos zero] at h
    cases h
    exact zero.symm
  · obtain ⟨_, _, _, _, -, -, -, -, rfl⟩ := fromState_cases zero h
    rfl

/-- A snapshot is empty exactly when the tree is. -/
theorem toState_size (laws : FrontierLaws P) (h : ofLeaves leaves = .ok t) :
    t.toState.size = leaves.length := by
  have hnone := laws.value_eq_none (ofLeaves_frontier h)
  cases hv : P.frontierValue t.frontier with
  | none =>
    obtain rfl : leaves = [] := map_eq_nil_iff.mp (hnone.mp hv)
    simp [toState, hv]
  | some value => simp [toState, hv, ofLeaves_size h]

/-- The snapshot of an empty tree is the default one, which the stores leave out. -/
theorem toState_eq_default (laws : FrontierLaws P) (h : ofLeaves [] = .ok t) :
    t.toState = .default := by
  have hnone := (laws.value_eq_none (ofLeaves_frontier h)).mpr rfl
  rw [toState, hnone]
  rfl

end GlobalTree

end Firecash
