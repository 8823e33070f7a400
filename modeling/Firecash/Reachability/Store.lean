import Firecash.Lib.BinarySearch
import Firecash.Lib.RootedTree
import Firecash.Reachability.Interval

/-!
# The reachability store and its queries (`stores/reachability.rs`, `reachability/extensions.rs`,
`reachability/inquirer.rs`)

The store holds for every block its tree parent and children, its interval, its height and its future
covering set, and the reindex root. Reading a block that is not there is a `KeyNotFound`. The parent of
the origin is `blockhash::NONE`, which is `none` here; where the code goes on to read that hash,
`chainParent` fails as the read does.

The queries compare intervals: a block is a chain ancestor of another if its interval contains the
other's, and the child of a block on the way to a descendant is found by binary search for the end of the
descendant's interval.
-/

namespace Firecash

open Function

inductive ReachabilityError (H : Type) where
  | keyNotFound (hash : Option H)
  | hashAlreadyExists (hash : H)
  /-- `DataOverflow`: no tree parent is left during a reindexing. -/
  | missingTreeParent
  /-- `DataOverflow`: the reindex root is out of capacity. -/
  | rootOutOfCapacity (root : H)
  | dataInconsistency
  | badQuery
  /-- A loop of the model ran out of fuel. -/
  | outOfFuel
  deriving DecidableEq

/-- `DataOverflow` -/
def ReachabilityError.isCapacity {H : Type} : ReachabilityError H → Bool
  | .missingTreeParent => true
  | .rootOutOfCapacity _ => true
  | _ => false

abbrev Reach (H α : Type) := Except (Fault (ReachabilityError H)) α

structure ReachabilityStore (H : Type) extends Links H where
  interval : H → Interval
  futureCoveringSet : H → List H
  reindexRoot : H

inductive SearchOutput (H : Type) where
  /-- With the place to insert at. -/
  | notFound (index : Nat)
  | found (hash : H) (index : Nat)

namespace ReachabilityStore

variable {H : Type} [DecidableEq H]

def init (origin : H) (capacity : Interval) : ReachabilityStore H where
  nodes := [origin]
  parent _ := none
  children _ := []
  height _ := 0
  interval _ := capacity
  futureCoveringSet _ := []
  reindexRoot := origin

def read {α : Type} (s : ReachabilityStore H) (x : H) (value : α) : Reach H α :=
  if x ∈ s.nodes then .ok value else .error (.err (.keyNotFound (some x)))

variable (s : ReachabilityStore H) (x : H)

def getInterval : Reach H Interval := s.read x (s.interval x)

def getParent : Reach H (Option H) := s.read x (s.parent x)

/-- A tree parent whose data is read next. -/
def chainParent : Reach H H := do
  match ← s.getParent x with
  | some p => pure p
  | none => .error (.err (.keyNotFound none))

def getChildren : Reach H (List H) := s.read x (s.children x)

def getHeight : Reach H Nat := s.read x (s.height x)

def getFutureCoveringSet : Reach H (List H) := s.read x (s.futureCoveringSet x)

def withInterval (i : Interval) : ReachabilityStore H :=
  { s with interval := update s.interval x i }

def setInterval (i : Interval) : Reach H (ReachabilityStore H) := s.read x (s.withInterval x i)

def appendChild (x child : H) : Reach H (ReachabilityStore H) :=
  s.read x { s with children := update s.children x (s.children x ++ [child]) }

def insert (x parent : H) (i : Interval) (height : Nat) : Reach H (ReachabilityStore H) :=
  if x ∈ s.nodes then .error (.err (.hashAlreadyExists x))
  else .ok
    { s with
      nodes := x :: s.nodes
      parent := update s.parent x (some parent)
      children := update s.children x []
      height := update s.height x height
      interval := update s.interval x i
      futureCoveringSet := update s.futureCoveringSet x [] }

/-! ## `ReachabilityStoreIntervalExtensions` -/

/-- The end of an interval is the number of the block itself. -/
def intervalChildrenCapacity : Reach H Interval := do
  (← s.getInterval x).decreaseEnd 1

def intervalRemainingBefore : Reach H Interval := do
  let capacity ← s.intervalChildrenCapacity x
  match (← s.getChildren x).head? with
  | some first => return ⟨capacity.start, ← U64.sub (← s.getInterval first).start 1⟩
  | none => return capacity

def intervalRemainingAfter : Reach H Interval := do
  let capacity ← s.intervalChildrenCapacity x
  match (← s.getChildren x).getLast? with
  | some last => return ⟨← U64.add (← s.getInterval last).stop 1, capacity.stop⟩
  | none => return capacity

/-! ## Queries -/

variable (this queried : H)

def isStrictChainAncestorOf : Reach H Bool := do
  return (← s.getInterval this).strictlyContains (← s.getInterval queried)

def isChainAncestorOf : Reach H Bool := do
  return (← s.getInterval this).contains (← s.getInterval queried)

/-- The search unwraps the intervals of the hashes it looks at; here all of them are looked at. -/
def binarySearchDescendant (ordered : List H) (descendant : H) : Reach H (SearchOutput H) := do
  let point := (← s.getInterval descendant).stop
  if ordered.all (· ∈ s.nodes) then
    match BinarySearch.binarySearch (ordered.map fun c => (s.interval c).start) point with
    | .ok i =>
      match ordered[i]? with
      | some hash => return .found hash i
      | none => .error .panic
    | .error i =>
      match (ordered.take i).getLast? with
      | some hash =>
        if ← s.isChainAncestorOf hash descendant then return .found hash (i - 1) else return .notFound i
      | none => return .notFound i
  else .error .panic

def getNextChainAncestorUnchecked (descendant ancestor : H) : Reach H H := do
  match ← s.binarySearchDescendant (← s.getChildren ancestor) descendant with
  | .found hash _ => pure hash
  | .notFound _ => .error (.err .badQuery)

def getNextChainAncestor (descendant ancestor : H) : Reach H H := do
  if descendant = ancestor then .error (.err .badQuery)
  else if ← s.isStrictChainAncestorOf ancestor descendant then s.getNextChainAncestorUnchecked descendant ancestor
  else .error (.err .badQuery)

def isDagAncestorOf : Reach H Bool := do
  if ← s.isChainAncestorOf this queried then return true
  else
    match ← s.binarySearchDescendant (← s.getFutureCoveringSet this) queried with
    | .found _ _ => return true
    | .notFound _ => return false

end ReachabilityStore

end Firecash
