import Firecash.Ghostdag.Protocol
import Firecash.Lib.Cluster
import Firecash.Lib.GrowingDag

/-!
# The DAG behind a GHOSTDAG manager

Blocks with their parents and their stored data, newest first, above a base block: genesis in the consensus store,
the first header of a level in a pruning proof. `Serves M D` is that the stores of a manager hold the DAG and that its
reachability oracle is right about it.

`blues` is the blue set of a block, the union of the mergeset blues along its selected chain, and `sizeIn`
the size that is recorded for a blue block, at the chain block nearest to the one that asks.
-/

namespace Firecash

open List

structure DagEntry where
  hash : Hash
  parents : List Hash
  bits : UInt32
  data : StoredGhostdagData

structure Dag where
  base : DagEntry
  blocks : List DagEntry

namespace Dag

variable (D : Dag)

def insert (e : DagEntry) : Dag := { D with blocks := e :: D.blocks }

def entries : List DagEntry := D.blocks ++ [D.base]

def historyOf (es : List DagEntry) : List (Hash × List Hash) := es.map fun e => (e.hash, e.parents)

/-- The strict ancestors of a block. -/
def past (h : Hash) : Finset Hash := GrowingDag.past (historyOf D.blocks) h

def Known (h : Hash) : Prop := GrowingDag.Known D.base.hash (historyOf D.blocks) h
  deriving Decidable

/-- Neither block is in the past of the other. -/
def Anti (x y : Hash) : Prop := x ≠ y ∧ x ∉ D.past y ∧ y ∉ D.past x
  deriving Decidable

/-- The mergeset blues along the selected chain of a block. -/
def bluesIn : List DagEntry → Hash → List Hash
  | [], _ => []
  | e :: es, h => if h = e.hash then e.data.mergesetBlues ++ bluesIn es e.data.selectedParent else bluesIn es h

def blues (h : Hash) : Finset Hash := (bluesIn D.blocks h).toFinset

/-- The first size recorded for `x` along the selected chain of a block. -/
def sizeIn : List DagEntry → Hash → Hash → Option Nat
  | [], _, _ => none
  | e :: es, h, x => if h = e.hash then (e.data.bluesAnticoneSizes x).or (sizeIn es e.data.selectedParent x)
    else sizeIn es h x

/-- The work a block counts for. -/
def weightOf (levelWork : BlueWork) (bits : UInt32) : Nat :=
  (calcWork bits).elim 0 fun work => (if work < levelWork then levelWork else work).toNat

def lookup (h : Hash) : Option DagEntry := D.entries.find? fun e => decide (e.hash = h)

def weight (levelWork : BlueWork) (D : Dag) (h : Hash) : Nat := (D.lookup h).elim 0 fun e => weightOf levelWork e.bits

/-- Every header has positive work, and all of it together fits in a `Uint192`. -/
structure Weighed (levelWork : BlueWork) (D : Dag) : Prop where
  work : ∀ e ∈ D.entries, ∃ w, calcWork e.bits = some w
  pos : ∀ e ∈ D.entries, 0 < weightOf levelWork e.bits
  total : (D.entries.map fun e => weightOf levelWork e.bits).sum < 2 ^ 192

/-- The order of the blocks: new ones above known parents. -/
def Ordered : Prop := GrowingDag.Grown D.base.hash (historyOf D.blocks)

variable {D : Dag} {e : DagEntry} {x y h : Hash}

theorem known_iff : D.Known x ↔ ∃ e ∈ D.entries, e.hash = x := by
  unfold Known GrowingDag.Known historyOf entries
  rw [map_map]
  constructor
  · rintro (rfl | added)
    · exact ⟨D.base, mem_append_right _ mem_cons_self, rfl⟩
    · obtain ⟨e, he, same⟩ := mem_map.mp added
      exact ⟨e, mem_append_left _ he, same⟩
  · rintro ⟨e, he, rfl⟩
    rcases mem_append.mp he with block | base
    · exact .inr (mem_map.mpr ⟨e, block, rfl⟩)
    · obtain rfl := mem_singleton.mp base
      exact .inl rfl

theorem Known.base : D.Known D.base.hash := .inl rfl

theorem Known.of_mem (he : e ∈ D.entries) : D.Known e.hash := known_iff.mpr ⟨e, he, rfl⟩

/-! ## Older blocks do not change -/

section Insert

theorem past_insert (hx : x ≠ e.hash) : (D.insert e).past x = D.past x := GrowingDag.past_cons_of_ne hx

theorem mem_past_insert_self : x ∈ (D.insert e).past e.hash ↔ ∃ p ∈ e.parents, x = p ∨ x ∈ D.past p :=
  GrowingDag.mem_past_cons_self

theorem anti_insert (hx : x ≠ e.hash) (hy : y ≠ e.hash) : (D.insert e).Anti x y ↔ D.Anti x y := by
  unfold Anti
  rw [past_insert hx, past_insert hy]

theorem blues_insert (hx : x ≠ e.hash) : (D.insert e).blues x = D.blues x := by
  unfold blues
  show (if _ then _ else _ : List Hash).toFinset = _
  rw [if_neg hx]

theorem bluesIn_cons_self (es : List DagEntry) :
    bluesIn (e :: es) e.hash = e.data.mergesetBlues ++ bluesIn es e.data.selectedParent :=
  if_pos rfl

variable {es : List DagEntry}

theorem bluesIn_cons_of_ne (hx : x ≠ e.hash) : bluesIn (e :: es) x = bluesIn es x := if_neg hx

theorem sizeIn_cons_self (es : List DagEntry) :
    sizeIn (e :: es) e.hash x = (e.data.bluesAnticoneSizes x).or (sizeIn es e.data.selectedParent x) := if_pos rfl

theorem sizeIn_cons_of_ne (hx : h ≠ e.hash) : sizeIn (e :: es) h x = sizeIn es h x := if_neg hx

theorem lookup_insert (hx : x ≠ e.hash) : (D.insert e).lookup x = D.lookup x :=
  find?_cons_of_neg (by simpa using fun h => hx h.symm)

variable {levelWork : BlueWork}

theorem weight_insert (hx : x ≠ e.hash) : (D.insert e).weight levelWork x = D.weight levelWork x := by
  unfold weight
  rw [lookup_insert hx]

theorem Weighed.of_insert (h : (D.insert e).Weighed levelWork) : D.Weighed levelWork where
  work e' he' := h.work e' (mem_cons_of_mem e he')
  pos e' he' := h.pos e' (mem_cons_of_mem e he')
  total := by
    have total := h.total
    change ((e :: D.entries).map _).sum < _ at total
    rw [map_cons, sum_cons] at total
    omega

theorem conflicts_insert {S : Finset Hash} (new : ¬ D.Known e.hash) (known : ∀ y ∈ S, D.Known y) (hx : D.Known x) :
    Cluster.conflicts (D.insert e).Anti S x = Cluster.conflicts D.Anti S x := by
  have older : ∀ y, D.Known y → y ≠ e.hash := by
    rintro y hy rfl
    exact new hy
  unfold Cluster.conflicts
  congr 1
  exact Finset.filter_congr fun y hy => anti_insert (older x hx) (older y (known y hy))

end Insert

end Dag

/-! ## A manager over a DAG -/

/-- The stores of the manager hold the DAG; its oracle answers for it. -/
structure Serves (M : GhostdagManager) (D : Dag) : Prop where
  data : ∀ e ∈ D.entries, M.getData e.hash = some e.data
  parents : ∀ e ∈ D.blocks, M.getParents e.hash = some e.parents
  bits : ∀ e ∈ D.entries, M.getBits e.hash = some e.bits
  reach : ∀ a b, D.Known a → D.Known b → (M.isDagAncestorOf a b = true ↔ a = b ∨ a ∈ D.past b)
  size : D.blocks.length < M.size
  /-- Only the base can be genesis, and `ORIGIN` is no block. -/
  genesis : ∀ e ∈ D.blocks, e.hash ≠ M.genesisHash
  origin : ∀ e ∈ D.entries, e.hash ≠ ORIGIN

end Firecash
