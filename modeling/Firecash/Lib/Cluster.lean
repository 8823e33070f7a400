import Mathlib.Data.Finset.Card
import Mathlib.Tactic.Basic

/-!
# Clusters

`conflicts anti S x` counts the members of `S` that a symmetric, irreflexive relation sets against `x`. A set is
a `k`-cluster if no member conflicts with more than `k` members. A cluster is extended by a new element that
conflicts with at most `k` members, none of which has `k` conflicts already (`IsCluster.insert`).
-/

namespace Cluster

variable {α : Type} [DecidableEq α] {anti : α → α → Prop} [DecidableRel anti]

def conflicts (anti : α → α → Prop) [DecidableRel anti] (S : Finset α) (x : α) : Nat := (S.filter (anti x)).card

def IsCluster (anti : α → α → Prop) [DecidableRel anti] (k : Nat) (S : Finset α) : Prop :=
  ∀ x ∈ S, conflicts anti S x ≤ k

variable {S : Finset α} {c x : α} {k : Nat}

theorem conflicts_insert (hc : c ∉ S) : conflicts anti (insert c S) x = conflicts anti S x + if anti x c then 1
    else 0 := by
  unfold conflicts
  rw [Finset.filter_insert]
  split
  · rw [Finset.card_insert_of_notMem]
    exact fun h => hc (Finset.mem_of_mem_filter c h)
  · rfl

theorem IsCluster.insert (irrefl : ¬ anti c c) (symm : ∀ x, anti x c → anti c x) (h : IsCluster anti k S) (hc : c ∉ S)
    (few : conflicts anti S c ≤ k) (free : ∀ x ∈ S, anti c x → conflicts anti S x < k) :
    IsCluster anti k (insert c S) := by
  intro x hx
  rw [conflicts_insert hc]
  rcases Finset.mem_insert.mp hx with rfl | old
  · rw [if_neg irrefl]
    exact few
  · split
    · rename_i against
      exact free x old (symm x against)
    · exact h x old

end Cluster
