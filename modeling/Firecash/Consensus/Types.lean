import Firecash.Shielded.State

/-!
# Transactions, coinbase payloads and GHOSTDAG data

The data the virtual processor reads about a block. A transaction keeps its payload in decoded form:
the Orchard bundle of a shielded transaction, the coinbase data of a coinbase. Block body validation
(`check_only_one_coinbase`, body_validation_in_isolation.rs:46) puts the coinbase first and nowhere
else, so a body is a coinbase and a list of other transactions.
-/

namespace Firecash

/-- `TX_VERSION`, `TX_VERSION_TOCCATA` (constants.rs) and `TX_VERSION_SHIELDED` (tx.rs:255) -/
def TX_VERSION : UInt16 := 0
def TX_VERSION_TOCCATA : UInt16 := 1
def TX_VERSION_SHIELDED : UInt16 := 2

structure ScriptPublicKey where
  version : UInt16
  script : List UInt8
  deriving DecidableEq

structure TransactionOutput where
  value : UInt64
  scriptPublicKey : ScriptPublicKey
  deriving DecidableEq

structure TransactionOutpoint where
  transactionId : Hash
  index : Nat
  deriving DecidableEq

/-- A transaction other than a coinbase. -/
structure Transaction (P : Prim) where
  id : Hash
  version : UInt16
  inputs : List TransactionOutpoint
  outputs : List TransactionOutput
  /-- The payload as `ShieldedBundle::from_bytes` decodes it; `none`: it does not decode. -/
  bundle : Option (ShieldedBundle P)

/-- `is_shielded` (tx.rs:408), of a transaction that is not a coinbase. -/
def Transaction.isShielded {P : Prim} (tx : Transaction P) : Bool := tx.version == TX_VERSION_SHIELDED

/-- `MinerData` (coinbase.rs) -/
structure MinerData where
  scriptPublicKey : ScriptPublicKey
  extraData : List UInt8
  deriving DecidableEq

/-- `CoinbaseData` (coinbase.rs): the payload of a coinbase transaction. -/
structure CoinbaseData (P : Prim) where
  blueScore : Nat
  subsidy : UInt64
  shieldedCommitment : P.StateRoot
  minerData : MinerData
  deriving DecidableEq

structure CoinbaseTransaction (P : Prim) where
  version : UInt16
  outputs : List TransactionOutput
  payload : CoinbaseData P
  deriving DecidableEq

/-- A block body: `txs[0]` and `txs[1..]`. -/
structure BlockBody (P : Prim) where
  coinbase : CoinbaseTransaction P
  txs : List (Transaction P)

/-! ## GHOSTDAG data -/

/-- `GhostdagData` (model/stores/ghostdag.rs), as every block that passed header processing has it:
the blues start with the selected parent and no block is listed twice. -/
structure GhostdagData where
  blueScore : Nat
  selectedParent : Hash
  mergesetBlues : List Hash
  mergesetReds : List Hash
  blues_head : mergesetBlues.head? = some selectedParent
  mergeset_nodup : (mergesetBlues ++ mergesetReds).Nodup

/-- `Itertools::merge_join_by` of two lists: the smaller head first. The outer recursion is on the
first list, the inner on the second. -/
def mergeJoinBy {α : Type} (le : α → α → Bool) : List α → List α → List α
  | [] => fun ys => ys
  | x :: xs => insertRun x (mergeJoinBy le xs) (x :: xs)
where
  insertRun (x : α) (rest : List α → List α) (all : List α) : List α → List α
  | [] => all
  | y :: ys => if le x y then x :: rest (y :: ys) else y :: insertRun x rest all ys

theorem mergeJoinBy_perm {α : Type} (le : α → α → Bool) (xs ys : List α) :
    (mergeJoinBy le xs ys).Perm (xs ++ ys) := by
  induction xs generalizing ys with
  | nil => exact List.Perm.refl ys
  | cons x xs ihx =>
    rw [mergeJoinBy]
    induction ys with
    | nil => simp [mergeJoinBy.insertRun]
    | cons y ys ihy =>
      rw [mergeJoinBy.insertRun]
      split
      · exact (ihx (y :: ys)).cons x
      · exact (ihy.cons y).trans List.perm_middle.symm

namespace GhostdagData

/-- `SortableBlock` order: blue work, then hash. -/
def sortableLe (blueWork : Hash → Nat) (a b : Hash) : Bool :=
  decide (blueWork a < blueWork b) || (blueWork a == blueWork b && decide (a ≤ b))

variable (gd : GhostdagData) (blueWork : Hash → Nat)

/-- `consensus_ordered_mergeset` (ghostdag.rs:175): the selected parent, then blues and reds by
ascending blue work. -/
def consensusOrderedMergeset : List Hash :=
  gd.selectedParent :: mergeJoinBy (sortableLe blueWork) gd.mergesetBlues.tail gd.mergesetReds

theorem mergesetBlues_eq : gd.mergesetBlues = gd.selectedParent :: gd.mergesetBlues.tail := by
  have h := gd.blues_head
  cases hb : gd.mergesetBlues with
  | nil => simp [hb] at h
  | cons b bs =>
    rw [hb, List.head?_cons, Option.some.injEq] at h
    rw [h, List.tail_cons]

theorem consensusOrderedMergeset_perm :
    (gd.consensusOrderedMergeset blueWork).Perm (gd.mergesetBlues ++ gd.mergesetReds) := by
  have h := (mergeJoinBy_perm (sortableLe blueWork) gd.mergesetBlues.tail gd.mergesetReds).cons gd.selectedParent
  rw [← List.cons_append, ← gd.mergesetBlues_eq] at h
  exact h

theorem consensusOrderedMergeset_nodup :
    (gd.consensusOrderedMergeset blueWork).Nodup :=
  (gd.consensusOrderedMergeset_perm blueWork).nodup_iff.mpr gd.mergeset_nodup

end GhostdagData

end Firecash
