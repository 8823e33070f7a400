import Firecash.Lib.Frontier
import Firecash.Shielded.Symbolic

/-!
# Persisted frontiers

`Prim.withFrontier` puts the frontier of depth 32 in the place of the one a `Prim` leaves open, so that
`from_state` meets the checks of `Frontier::from_parts`. A tree may then be written and read back between
any two of its appends (`TreeStep.reload`): the run ends with the tree of all the leaves.
-/

namespace Firecash

open GlobalTree

variable {P : Prim}

/-- The primitives with `incrementalmerkletree::frontier::Frontier<MerkleHashOrchard, 32>`; `toAnchor` is
`Anchor::from`. -/
@[reducible] def Prim.withFrontier (P : Prim) (h : MerkleHasher P.Node) (toAnchor : P.Node → P.Anchor) : Prim :=
  { P with
    Frontier := MerkleFrontier TREE_DEPTH P.Node
    frontierEmpty := MerkleFrontier.empty
    frontierAppend := MerkleFrontier.append h
    frontierValue := MerkleFrontier.value
    frontierRoot := fun f => toAnchor (f.root h)
    frontierFromParts := MerkleFrontier.fromParts }

/-- `MerkleHashOrchard` has one encoding for each node, and `from_bytes` accepts no other bytes. -/
def CanonicalNodes (P : Prim) : Prop := ∀ bytes node, P.nodeFromBytes bytes = some node ↔ P.nodeToBytes node = bytes

section

variable {h : MerkleHasher P.Node} {toAnchor : P.Node → P.Anchor}

theorem withFrontier_over {leaves : List P.Node} {f : MerkleFrontier TREE_DEPTH P.Node}
    (hf : (P.withFrontier h toAnchor).frontierOf leaves = some f) : MerkleFrontier.Over h f leaves :=
  MerkleFrontier.Over.extend .empty hf

theorem withFrontier_laws (canonical : CanonicalNodes P) : FrontierLaws (P.withFrontier h toAnchor) where
  value_eq_none := fun hf => (withFrontier_over hf).value_eq_none
  fromParts_value := fun hf hv => (withFrontier_over hf).fromParts_value hv
  nodeFromBytes_toBytes := fun node => (canonical _ node).mpr rfl

end

/-! ## Appending and reloading -/

/-- What is done to a tree: a leaf or a whole subtree is appended, or it is written and read back. -/
inductive TreeStep (P : Prim) where
  | append (cmx : P.Cmx)
  | appendSubtree (commitments : List P.Cmx)
  | reload

namespace TreeStep

def leaves : TreeStep P → List P.Cmx
  | append cmx => [cmx]
  | appendSubtree commitments => commitments
  | reload => []

def run (t : GlobalTree P) : TreeStep P → Option (GlobalTree P)
  | append cmx => (t.append cmx).toOption
  | appendSubtree commitments => (t.appendSubtree commitments).toOption
  | reload => (fromState t.toState).toOption

/-- The steps in order; `none`: one of them failed. -/
def runAll (steps : List (TreeStep P)) : Option (GlobalTree P) := steps.foldlM run new

/-- All the leaves that the steps append. -/
def allLeaves (steps : List (TreeStep P)) : List P.Cmx := steps.flatMap leaves

end TreeStep

section

variable {h : MerkleHasher P.Node} {toAnchor : P.Node → P.Anchor}

theorem exists_ofLeaves (leaves : List (P.withFrontier h toAnchor).Cmx) (fits : leaves.length ≤ 2 ^ TREE_DEPTH) :
    ∃ t : GlobalTree (P.withFrontier h toAnchor), ofLeaves leaves = .ok t := by
  have start : MerkleFrontier.Over h (MerkleFrontier.empty : MerkleFrontier TREE_DEPTH P.Node) [] := .empty
  obtain ⟨f, extended⟩ : ∃ f, MerkleFrontier.extend h MerkleFrontier.empty (leaves.map P.fromCmx) = some f :=
    start.exists_extend (by simpa using fits)
  exact ⟨_, appendSubtree_of_frontier extended⟩

variable {t : GlobalTree (P.withFrontier h toAnchor)}

/-- A step takes the tree of the leaves so far to the tree of those and its own. -/
theorem TreeStep.run_ofLeaves (canonical : CanonicalNodes P) {leaves : List (P.withFrontier h toAnchor).Cmx}
    (ht : ofLeaves leaves = .ok t)
    (step : TreeStep (P.withFrontier h toAnchor)) (fits : (leaves ++ step.leaves).length ≤ 2 ^ TREE_DEPTH) :
    ∃ t', step.run t = some t' ∧ ofLeaves (leaves ++ step.leaves) = .ok t' := by
  obtain ⟨t', all⟩ := exists_ofLeaves (leaves ++ step.leaves) fits
  have added : t.appendSubtree step.leaves = .ok t' := by
    have whole := appendSubtree_append new leaves step.leaves
    have first : new.appendSubtree leaves = .ok t := ht
    rw [first] at whole
    exact whole.symm.trans all
  refine ⟨t', ?_, all⟩
  cases step with
  | append cmx =>
    rw [TreeStep.leaves, GlobalTree.appendSubtree] at added
    rw [TreeStep.run]
    cases one : t.append cmx with
    | error e =>
      rw [one] at added
      cases added
    | ok u =>
      rw [one] at added
      cases added
      rfl
  | appendSubtree commitments =>
    rw [TreeStep.leaves] at added
    rw [TreeStep.run, added]
    rfl
  | reload =>
    cases added
    rw [TreeStep.run, fromState_toState (withFrontier_laws canonical) ht]
    rfl

theorem TreeStep.runAll_ofLeaves (canonical : CanonicalNodes P) (steps : List (TreeStep (P.withFrontier h toAnchor)))
    (fits : (allLeaves steps).length ≤ 2 ^ TREE_DEPTH) :
    ∃ t, runAll steps = some t ∧ ofLeaves (allLeaves steps) = .ok t := by
  induction steps using List.reverseRecOn with
  | nil => exact ⟨new, rfl, rfl⟩
  | append_singleton steps step ih =>
    have leaves_eq : allLeaves (steps ++ [step]) = allLeaves steps ++ step.leaves := by simp [allLeaves]
    rw [leaves_eq] at fits ⊢
    obtain ⟨t, ran, ht⟩ := ih (by rw [List.length_append] at fits; omega)
    obtain ⟨t', one, ht'⟩ := run_ofLeaves canonical ht step fits
    have ran : steps.foldlM run new = some t := ran
    refine ⟨t', ?_, ht'⟩
    rw [runAll, List.foldlM_append, ran]
    simpa using one

theorem nodesFromBytes_eq_some (canonical : CanonicalNodes P) {bytes : List Bytes32} {nodes : List P.Node}
    (hn : nodesFromBytes P bytes = some nodes) : nodes.map P.nodeToBytes = bytes := by
  induction bytes generalizing nodes with
  | nil =>
    cases hn
    rfl
  | cons b bytes ih =>
    rw [nodesFromBytes, List.mapM_cons] at hn
    obtain ⟨node, hb, hn⟩ := Option.bind_eq_some_iff.mp hn
    obtain ⟨rest, hr, hn⟩ := Option.bind_eq_some_iff.mp hn
    cases hn
    rw [List.map_cons, (canonical b node).mp hb, ih hr]

/-- What a snapshot must be to be rebuilt, and that writing the tree again gives it back. -/
theorem toState_fromState (canonical : CanonicalNodes P) {state : FrontierState}
    (nonempty : state.size ≠ 0) (rebuilt : fromState state = .ok t) :
    ∃ leaf, state.leaf = some leaf ∧ (∀ b ∈ leaf :: state.ommers, ∃ node, P.nodeFromBytes b = some node) ∧
      state.ommers.length = ommerCount (state.size - 1) ∧ t.toState = state := by
  obtain ⟨bytes, leaf, ommers, frontier, present, hleaf, hommers, parts, rfl⟩ := fromState_cases nonempty rebuilt
  obtain ⟨value, counted, -⟩ := MerkleFrontier.fromParts_eq_some parts
  have leaf_eq := (canonical bytes leaf).mp hleaf
  have ommers_eq := nodesFromBytes_eq_some canonical hommers
  refine ⟨bytes, present, ?_, ?_, ?_⟩
  · intro b hb
    rcases List.mem_cons.mp hb with rfl | hb
    · exact ⟨leaf, hleaf⟩
    · rw [← ommers_eq] at hb
      obtain ⟨node, -, rfl⟩ := List.mem_map.mp hb
      exact ⟨node, (canonical _ node).mpr rfl⟩
  · rw [← ommers_eq, List.length_map, counted]
  · have written : toState ⟨frontier, state.size⟩ =
        ⟨state.size, some (P.nodeToBytes leaf), ommers.map P.nodeToBytes⟩ := by
      simp only [toState, value]
    rw [written, leaf_eq, ommers_eq, ← present]

end

/-- Writing a tree and reading it back changes nothing, wherever in a run it is done; and `from_state`
accepts only a snapshot with a leaf, canonical nodes and one ommer for each set bit of the position, which
`to_state` then writes again. -/
theorem frontier_persistence (h : MerkleHasher P.Node) (toAnchor : P.Node → P.Anchor) (canonical : CanonicalNodes P) :
    (∀ steps : List (TreeStep (P.withFrontier h toAnchor)), (TreeStep.allLeaves steps).length ≤ 2 ^ 32 →
      ∀ pre, pre <+: steps → ∃ t u, TreeStep.runAll pre = some t ∧ ofLeaves (TreeStep.allLeaves pre) = .ok u ∧
        t.size = u.size ∧ t.anchor = u.anchor) ∧
    ∀ state : FrontierState, 0 < state.size → ∀ t : GlobalTree (P.withFrontier h toAnchor), fromState state = .ok t →
      ∃ leaf, state.leaf = some leaf ∧ (∀ b ∈ leaf :: state.ommers, ∃ node, P.nodeFromBytes b = some node) ∧
        state.ommers.length = ommerCount (state.size - 1) ∧ t.toState = state := by
  constructor
  · rintro steps fits pre ⟨post, rfl⟩
    have shorter : (TreeStep.allLeaves pre).length ≤ (TreeStep.allLeaves (pre ++ post)).length := by
      simp [TreeStep.allLeaves]
    obtain ⟨t, ran, ht⟩ := TreeStep.runAll_ofLeaves canonical pre (shorter.trans fits)
    exact ⟨t, t, ran, ht, rfl, rfl⟩
  · intro state nonempty t rebuilt
    exact toState_fromState canonical nonempty.ne' rebuilt

/-- Nodes are hashed by adding them. -/
def sumHasher : MerkleHasher Bytes32 := ⟨fun _ l r => l + r, 0⟩

theorem frontier_persistence_two_leaves : ∃ t u : GlobalTree (symbolic.withFrontier sumHasher fun n => [n]),
    TreeStep.runAll [.append (5 : Bytes32), .reload, .appendSubtree [(7 : Bytes32)]] = some t ∧
      ofLeaves [(5 : Bytes32), (7 : Bytes32)] = .ok u ∧ t.size = u.size ∧ t.anchor = u.anchor := by
  have canonical : CanonicalNodes symbolic := fun bytes node => by simp [eq_comm]
  exact (frontier_persistence sumHasher (fun n => [n]) canonical).1
    [.append (5 : Bytes32), .reload, .appendSubtree [(7 : Bytes32)]] (by decide) _ List.prefix_rfl

end Firecash
