import Firecash.Reachability.Store

/-!
# Reindexing (`processes/reachability/reindex.rs`)

A reindexing gives new intervals to parts of the tree. Subtrees are counted and refilled breadth first; room for a
block that is not below the reindex root is taken from the gaps along the chain to the root, before or
after it, and from the root itself if the gaps do not suffice; when the reindex root moves, the blocks
next to the chain are packed together.

The queues and walks of the source are loops with fuel: the number of stored blocks, which no loop needs
more of. The two directions of a reclaim differ only in what stands in `Side`.
-/

namespace Firecash

open ReachabilityStore U64 Firecash.Interval

structure ReindexOperationContext (H : Type) where
  store : ReachabilityStore H
  subtreeSizes : H → Option Nat
  slack : Nat

namespace ReindexOperationContext

variable {H : Type} [DecidableEq H]

def new (store : ReachabilityStore H) (slack : Nat) : ReindexOperationContext H := ⟨store, fun _ => none, slack⟩

/-- `self.subtree_sizes[&block]` -/
def subtreeSize (sizes : H → Option Nat) (x : H) : Reach H Nat :=
  match sizes x with
  | some n => .ok n
  | none => .error .panic

/-! ## Counting -/

/-- The walk from a counted block towards `block`, as long as the last child of a parent was counted. -/
def pushUp (s : ReachabilityStore H) (block : H) :
    Nat → H → (H → Nat) → (H → Option Nat) → Reach H ((H → Nat) × (H → Option Nat))
  | 0, _, _, _ => .error (.err .outOfFuel)
  | fuel + 1, current, counts, sizes =>
    if current = block then .ok (counts, sizes)
    else do
      let parent ← s.chainParent current
      let children ← s.getChildren parent
      let count ← add (counts parent) 1
      let counts := Function.update counts parent count
      if count < children.length then return (counts, sizes)
      else
        let sum ← sum (← children.mapM (subtreeSize sizes))
        let total ← add sum 1
        pushUp s block fuel parent counts (Function.update sizes parent (some total))

def countLoop (s : ReachabilityStore H) (block : H) :
    Nat → List H → (H → Nat) → (H → Option Nat) → Reach H (H → Option Nat)
  | _, [], _, sizes => .ok sizes
  | 0, _ :: _, _, _ => .error (.err .outOfFuel)
  | fuel + 1, current :: queue, counts, sizes => do
    let children ← s.getChildren current
    if children.isEmpty then
      let (counts, sizes) ← pushUp s block s.nodes.length current counts (Function.update sizes current (some 1))
      countLoop s block fuel queue counts sizes
    else if (sizes current).isNone then countLoop s block fuel (queue ++ children) counts sizes
    else
      let (counts, sizes) ← pushUp s block s.nodes.length current counts sizes
      countLoop s block fuel queue counts sizes

def countSubtrees (ctx : ReindexOperationContext H) (block : H) : Reach H (ReindexOperationContext H) := do
  if (ctx.subtreeSizes block).isSome then return ctx
  else
    let sizes ← countLoop ctx.store block ctx.store.nodes.length [block] (fun _ => 0) ctx.subtreeSizes
    return { ctx with subtreeSizes := sizes }

/-! ## Refilling -/

variable (share : Nat → List Nat → Nat → Nat)

def setIntervals (s : ReachabilityStore H) (seats : List (H × Interval)) : Reach H (ReachabilityStore H) :=
  seats.foldlM (fun s seat => s.setInterval seat.1 seat.2) s

def propagateLoop (sizes : H → Option Nat) : Nat → List H → ReachabilityStore H → Reach H (ReachabilityStore H)
  | _, [], s => .ok s
  | 0, _ :: _, _ => .error (.err .outOfFuel)
  | fuel + 1, current :: queue, s => do
    let children ← s.getChildren current
    if children.isEmpty then propagateLoop sizes fuel queue s
    else
      let ns ← children.mapM (subtreeSize sizes)
      let interval ← s.intervalChildrenCapacity current
      let s ← setIntervals s (children.zip (← interval.splitExponential share ns))
      propagateLoop sizes fuel (queue ++ children) s

variable (ctx : ReindexOperationContext H)

def propagateInterval (block : H) : Reach H (ReindexOperationContext H) := do
  let ctx ← ctx.countSubtrees block
  let store ← propagateLoop share ctx.subtreeSizes ctx.store.nodes.length [block] ctx.store
  return { ctx with store }

/-- A change of an interval by an offset. -/
abbrev IntervalOp (H : Type) := Interval → Nat → Reach H Interval

def applyIntervalOp (block : H) (offset : Nat) (op : IntervalOp H) :
    Reach H (ReindexOperationContext H) := do
  let interval ← op (← ctx.store.getInterval block) offset
  return { ctx with store := ← ctx.store.setInterval block interval }

def applyIntervalOpAndPropagate (block : H) (offset : Nat) (op : IntervalOp H) :
    Reach H (ReindexOperationContext H) := do
  (← ctx.applyIntervalOp block offset op).propagateInterval share block

/-! ## Reclaiming gaps -/

def splitChildren (children : List H) (pivot : H) : Reach H (List H × List H) :=
  if pivot ∈ children then .ok (children.take (children.idxOf pivot), children.drop (children.idxOf pivot + 1))
  else .error (.err .dataInconsistency)

/-- The loop over the siblings from the chain outwards, to the one that is given the offset. -/
def offsetSiblings (grow shift : IntervalOp H) (allocationBlock : H) (offset : Nat) :
    ReindexOperationContext H → List H → Reach H (ReindexOperationContext H)
  | ctx, [] => .ok ctx
  | ctx, sibling :: siblings => do
    if sibling = allocationBlock then ctx.applyIntervalOpAndPropagate share allocationBlock offset grow
    else
      let ctx ← ctx.applyIntervalOpAndPropagate share sibling offset shift
      offsetSiblings grow shift allocationBlock offset ctx siblings

def offsetSiblingsBefore (allocationBlock current : H) (offset : Nat) :
    Reach H (ReindexOperationContext H) := do
  let parent ← ctx.store.chainParent current
  let (before, _) ← splitChildren (← ctx.store.getChildren parent) current
  offsetSiblings share increaseEnd increase allocationBlock offset ctx before.reverse

def offsetSiblingsAfter (allocationBlock current : H) (offset : Nat) :
    Reach H (ReindexOperationContext H) := do
  let parent ← ctx.store.chainParent current
  let (_, after) ← splitChildren (← ctx.store.getChildren parent) current
  offsetSiblings share decreaseStart decrease allocationBlock offset ctx after

inductive Side where
  | before
  | after
  deriving DecidableEq

namespace Side

/-- The gap between a block's interval and those of its children. -/
def remaining (side : Side) (s : ReachabilityStore H) (x : H) : Reach H Interval :=
  match side with
  | before => s.intervalRemainingBefore x
  | after => s.intervalRemainingAfter x

def shrink : Side → IntervalOp H
  | before => increaseStart
  | after => decreaseEnd

def offsetSiblings (side : Side) (ctx : ReindexOperationContext H) (allocationBlock current : H) (offset : Nat) :
    Reach H (ReindexOperationContext H) :=
  match side with
  | before => ctx.offsetSiblingsBefore share allocationBlock current offset
  | after => ctx.offsetSiblingsAfter share allocationBlock current offset

end Side

/-- The walk up the chain, until the gaps suffice or the reindex root is reached. It ends with the first change, and
tells where it was made and the gap to leave on the way down. -/
def reclaimUp (side : Side) (allocationBlock reindexRoot : H) (requiredAllocation : Nat) :
    Nat → H → Nat → Nat → ReindexOperationContext H → Reach H (ReindexOperationContext H × H × Nat)
  | 0, _, _, _, _ => .error (.err .outOfFuel)
  | fuel + 1, current, slackSum, pathLen, ctx =>
    if current = reindexRoot then do
      let offset ← sub (← add requiredAllocation (← mul ctx.slack pathLen)) slackSum
      let ctx ← ctx.applyIntervalOpAndPropagate share current offset side.shrink
      let ctx ← side.offsetSiblings share ctx allocationBlock current offset
      return (ctx, current, ctx.slack)
    else do
      let slack ← (← side.remaining ctx.store current).size
      let slackSum ← add slackSum slack
      if requiredAllocation ≤ slackSum then
        let offset ← sub slack (← sub slackSum requiredAllocation)
        let ctx ← ctx.applyIntervalOp current offset side.shrink
        let ctx ← side.offsetSiblings share ctx allocationBlock current offset
        return (ctx, current, 0)
      else
        let next ← ctx.store.getNextChainAncestorUnchecked reindexRoot current
        reclaimUp side allocationBlock reindexRoot requiredAllocation fuel next slackSum (← add pathLen 1) ctx

def reclaimDown (side : Side) (allocationBlock commonAncestor : H) (pathSlackAlloc : Nat) :
    Nat → H → ReindexOperationContext H → Reach H (ReindexOperationContext H)
  | 0, _, _ => .error (.err .outOfFuel)
  | fuel + 1, current, ctx => do
    let current ← ctx.store.chainParent current
    if current = commonAncestor then return ctx
    else
      let slack ← (← side.remaining ctx.store current).size
      let offset ← sub slack pathSlackAlloc
      let ctx ← ctx.applyIntervalOp current offset side.shrink
      let ctx ← side.offsetSiblings share ctx allocationBlock current offset
      reclaimDown side allocationBlock commonAncestor pathSlackAlloc fuel current ctx

def reclaimInterval (side : Side) (ctx : ReindexOperationContext H)
    (allocationBlock commonAncestor chosenChild reindexRoot : H) (requiredAllocation : Nat) :
    Reach H (ReindexOperationContext H) := do
  let fuel := ctx.store.nodes.length
  let (ctx, current, pathSlackAlloc) ←
    reclaimUp share side allocationBlock reindexRoot requiredAllocation fuel chosenChild 0 0 ctx
  reclaimDown share side allocationBlock commonAncestor pathSlackAlloc fuel current ctx

variable (ctx : ReindexOperationContext H)

def reclaimIntervalBefore := ctx.reclaimInterval share .before

def reclaimIntervalAfter := ctx.reclaimInterval share .after

def reindexIntervalsEarlierThanRoot (allocationBlock reindexRoot commonAncestor : H)
    (requiredAllocation : Nat) : Reach H (ReindexOperationContext H) := do
  let chosenChild ← ctx.store.getNextChainAncestorUnchecked reindexRoot commonAncestor
  let blockInterval ← ctx.store.getInterval allocationBlock
  let chosenInterval ← ctx.store.getInterval chosenChild
  if blockInterval.start < chosenInterval.start then
    ctx.reclaimIntervalBefore share allocationBlock commonAncestor chosenChild reindexRoot requiredAllocation
  else ctx.reclaimIntervalAfter share allocationBlock commonAncestor chosenChild reindexRoot requiredAllocation

def reindexLoop (reindexRoot : H) : Nat → H → ReindexOperationContext H → Reach H (ReindexOperationContext H)
  | 0, _, _ => .error (.err .outOfFuel)
  | fuel + 1, current, ctx => do
    let currentInterval ← ctx.store.getInterval current
    let ctx ← ctx.countSubtrees current
    let size ← currentInterval.size
    let subtree ← subtreeSize ctx.subtreeSizes current
    if subtree ≤ size then ctx.propagateInterval share current
    else
      match ← ctx.store.getParent current with
      | none => .error (.err .missingTreeParent)
      | some parent =>
        if current = reindexRoot then .error (.err (.rootOutOfCapacity reindexRoot))
        else if ← ctx.store.isStrictChainAncestorOf parent reindexRoot then
          ctx.reindexIntervalsEarlierThanRoot share current reindexRoot parent subtree
        else reindexLoop reindexRoot fuel parent ctx

def reindexIntervals (newChild reindexRoot : H) : Reach H (ReindexOperationContext H) :=
  reindexLoop share reindexRoot ctx.store.nodes.length newChild ctx

/-! ## Moving the reindex root -/

def countSizes : ReindexOperationContext H → List H → Reach H (ReindexOperationContext H × List Nat)
  | ctx, [] => .ok (ctx, [])
  | ctx, block :: blocks => do
    let ctx ← ctx.countSubtrees block
    let n ← subtreeSize ctx.subtreeSizes block
    let (ctx, ns) ← countSizes ctx blocks
    return (ctx, n :: ns)

/-- The loop that seats every block and refills its subtree. -/
def tighten : ReindexOperationContext H → List (H × Interval) → Reach H (ReindexOperationContext H)
  | ctx, [] => .ok ctx
  | ctx, (c, ci) :: seats => do
    let ctx := { ctx with store := ← ctx.store.setInterval c ci }
    let ctx ← ctx.propagateInterval share c
    tighten ctx seats

def tightenIntervalsBefore (parent : H) (childrenBefore : List H) :
    Reach H (ReindexOperationContext H × Nat) := do
  let (ctx, sizes) ← ctx.countSizes childrenBefore
  let sum ← sum sizes
  let interval ← ctx.store.getInterval parent
  let start ← add interval.start ctx.slack
  let intervalBefore : Interval := ⟨start, ← sub (← add start sum) 1⟩
  let ctx ← ctx.tighten share (childrenBefore.zip (← intervalBefore.splitExact sizes))
  return (ctx, sum)

def tightenIntervalsAfter (parent : H) (childrenAfter : List H) :
    Reach H (ReindexOperationContext H × Nat) := do
  let (ctx, sizes) ← ctx.countSizes childrenAfter
  let sum ← sum sizes
  let interval ← ctx.store.getInterval parent
  let stop ← sub interval.stop ctx.slack
  let intervalAfter : Interval := ⟨← sub stop sum, ← sub stop 1⟩
  let ctx ← ctx.tighten share (childrenAfter.zip (← intervalAfter.splitExact sizes))
  return (ctx, sum)

def expandIntervalToChosen (parent child : H) (before after : Nat) (isFinalReindexRoot : Bool) :
    Reach H (ReindexOperationContext H) := do
  let interval ← ctx.store.getInterval parent
  let allocation : Interval := ⟨← add (← add interval.start before) ctx.slack,
    ← sub (← sub (← sub interval.stop after) ctx.slack) 1⟩
  let current ← ctx.store.getInterval child
  if isFinalReindexRoot && !allocation.contains current then
    let narrowed : Interval := ⟨← add allocation.start ctx.slack, ← sub allocation.stop ctx.slack⟩
    let ctx := { ctx with store := ← ctx.store.setInterval child narrowed }
    let ctx ← ctx.propagateInterval share child
    return { ctx with store := ← ctx.store.setInterval child allocation }
  else return { ctx with store := ← ctx.store.setInterval child allocation }

def concentrateInterval (parent child : H) (isFinalReindexRoot : Bool) :
    Reach H (ReindexOperationContext H) := do
  let (siblingsBefore, siblingsAfter) ← splitChildren (← ctx.store.getChildren parent) child
  let (ctx, before) ← ctx.tightenIntervalsBefore share parent siblingsBefore
  let (ctx, after) ← ctx.tightenIntervalsAfter share parent siblingsAfter
  ctx.expandIntervalToChosen share parent child before after isFinalReindexRoot

end ReindexOperationContext

end Firecash
