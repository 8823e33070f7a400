import Firecash.Reachability.Concentrate

/-!
# The interval tree (`processes/reachability/tree.rs`)

`add_tree_block` hangs a new block below its parent: with the first half of what is left of the parent's
interval, or with an empty interval at the end of it and a reindexing. `try_advancing_reindex_root` moves
the reindex root towards the selected tip and concentrates the intervals on the way. This module has the
two functions and what an insertion does to a sound tree (`addTreeBlock_runs`).
-/

namespace Firecash

open List Function ReindexOperationContext Links Firecash.Interval

open Checked (U64_BOUND)
open IntervalRow

namespace ReachabilityStore

variable {H : Type} [DecidableEq H]

/-! ## The functions -/

section Functions

variable (share : Nat → List Nat → Nat → Nat) (s : ReachabilityStore H)

/-- The reindex depth is handed to the context, which does not use it. -/
def addTreeBlock (newBlock parent : H) (_reindexDepth reindexSlack : Nat) : Reach H (ReachabilityStore H) := do
  let remaining ← s.intervalRemainingAfter parent
  let s ← s.appendChild parent newBlock
  let parentHeight ← s.getHeight parent
  if ← remaining.isEmpty then
    let s ← s.insert newBlock parent remaining (← U64.add parentHeight 1)
    let ctx ← (new s reindexSlack).reindexIntervals share newBlock s.reindexRoot
    return ctx.store
  else
    let allocated := (← remaining.splitHalf).1
    s.insert newBlock parent allocated (← U64.add parentHeight 1)

def findCommonTreeAncestor (s : ReachabilityStore H) (reindexRoot : H) : Nat → H → Reach H H
  | 0, _ => .error (.err .outOfFuel)
  | fuel + 1, current => do
    if ← s.isChainAncestorOf current reindexRoot then return current
    else findCommonTreeAncestor s reindexRoot fuel (← s.chainParent current)

/-- The walk towards the hint, as long as it is `reindexDepth` above it. -/
def findNextLoop (s : ReachabilityStore H) (hint : H) (hintHeight reindexDepth : Nat) : Nat → H → Reach H H
  | 0, _ => .error (.err .outOfFuel)
  | fuel + 1, next => do
    let child ← s.getNextChainAncestorUnchecked hint next
    let childHeight ← s.getHeight child
    if hintHeight < childHeight then .error (.err .dataInconsistency)
    else if hintHeight - childHeight < reindexDepth then return next
    else findNextLoop s hint hintHeight reindexDepth fuel child

def findNextReindexRoot (current hint : H) (reindexDepth reindexSlack : Nat) : Reach H (H × H) := do
  let fuel := s.nodes.length
  let hintHeight ← s.getHeight hint
  if ← s.isChainAncestorOf current hint then
    return (current, ← s.findNextLoop hint hintHeight reindexDepth fuel current)
  else
    let currentHeight ← s.getHeight current
    if hintHeight < currentHeight ∨ hintHeight - currentHeight < reindexSlack then return (current, current)
    else
      let common ← s.findCommonTreeAncestor current fuel hint
      return (common, ← s.findNextLoop hint hintHeight reindexDepth fuel common)

/-- `while ancestor != next` -/
def concentrateLoop (reindexSlack : Nat) (next : H) : Nat → H → ReachabilityStore H → Reach H (ReachabilityStore H)
  | fuel, ancestor, s =>
    if ancestor = next then .ok s
    else
      match fuel with
      | 0 => .error (.err .outOfFuel)
      | fuel + 1 => do
        let child ← s.getNextChainAncestorUnchecked next ancestor
        let ctx ← (new s reindexSlack).concentrateInterval share ancestor child (child = next)
        concentrateLoop reindexSlack next fuel child ctx.store

def tryAdvancingReindexRoot (hint : H) (reindexDepth reindexSlack : Nat) : Reach H (ReachabilityStore H) := do
  let current := s.reindexRoot
  let (ancestor, next) ← s.findNextReindexRoot current hint reindexDepth reindexSlack
  if current = next then return s
  else
    let s ← concentrateLoop share reindexSlack next s.nodes.length ancestor s
    return { s with reindexRoot := next }

end Functions

/-! ## A new leaf -/

variable {s : ReachabilityStore H} {origin new p x y : H} {i : Interval} {n slack : Nat} {room : Prop}
    {bad : ReachabilityError H → Prop}

/-- The store with a new block as last child of `p`. -/
def hung (s : ReachabilityStore H) (new p : H) (i : Interval) (height : Nat) : ReachabilityStore H where
  toLinks := s.toLinks.hang new p height
  interval := update s.interval new i
  futureCoveringSet := update s.futureCoveringSet new []
  reindexRoot := s.reindexRoot

/-- What is left after the children of a block. -/
structure Remaining (s : ReachabilityStore H) (p : H) (i : Interval) : Prop where
  start : (s.interval p).start ≤ i.start
  behind : ∀ c ∈ s.children p, (s.interval c).stop + 1 ≤ i.start
  valid : i.start ≤ i.stop + 1
  stop : i.stop + 1 = (s.interval p).stop

theorem intervalRemainingAfter_runs (S : s.Sound origin) (hp : p ∈ s.nodes) :
    (s.intervalRemainingAfter p).Runs room bad (Remaining s p) := by
  have seated := S.seated p hp
  have nonempty := S.nonempty hp
  have bounds := S.bounds hp
  refine (intervalChildrenCapacity_runs hp fun _ => by omega).bind fun i _ hi => ?_
  refine .step (getChildren_of_mem hp) ?_
  cases hl : (s.children p).getLast? with
  | none =>
    have leaf := getLast?_eq_none_iff.mp hl
    refine ⟨by omega, fun c hc => ?_, by omega, hi.2⟩
    rw [leaf] at hc
    cases hc
  | some last =>
    have hlast : last ∈ s.children p := mem_of_getLast? hl
    have inside := seated.child hlast
    refine .step (getInterval_of_mem (S.tree.child_mem hp hlast)) ?_
    refine (U64.add_runs fun _ => by omega).bind fun start _ hstart => ?_
    refine ⟨?_, fun c hc => ?_, ?_, hi.2⟩
    · dsimp only
      omega
    · have := Row.le_last seated hl hc
      unfold past at this
      dsimp only
      omega
    · dsimp only
      omega

section Hung

variable (S : s.Sound origin) (fresh : new ∉ s.nodes) (hp : p ∈ s.nodes)

include fresh

theorem hung_interval_of_mem (hx : x ∈ s.nodes) : (s.hung new p i n).interval x = s.interval x :=
  update_of_ne (ne_of_mem_of_not_mem hx fresh) _ _

include S hp

/-- The old blocks are seated as before, with the new one in the rest of its parent's interval. -/
theorem hung_seated {rest : Interval} (R : Remaining s p rest) (start : rest.start ≤ i.start)
    (valid : i.start ≤ i.stop + 1)
    (stop : i.stop ≤ rest.stop) (hx : x ∈ s.nodes) : (s.hung new p i n).Seated x := by
  have ne := ne_of_mem_of_not_mem hx fresh
  have old : ∀ c ∈ s.children x, (s.hung new p i n).first c = s.first c ∧ (s.hung new p i n).past c = s.past c := by
    intro c hc
    have same : (s.hung new p i n).interval c = s.interval c := hung_interval_of_mem fresh (S.tree.child_mem hx hc)
    unfold first past
    rw [same]
    exact ⟨rfl, rfl⟩
  have row : Row (s.hung new p i n).first (s.hung new p i n).past _ _ (s.children x) := Row.congr (S.seated x hx) old
  unfold Seated
  rw [hung_interval_of_mem fresh hx]
  by_cases hxp : x = p
  · subst hxp
    have kids : (s.hung new x i n).children x = s.children x ++ [new] := hang_children_parent ne
    have own : (s.hung new x i n).interval new = i := update_self _ _ _
    rw [kids, row_append]
    refine ⟨rest.start, ?_, ?_, ?_, ?_⟩
    · cases hl : (s.children x).getLast? with
      | none =>
        rw [getLast?_eq_none_iff.mp hl]
        exact R.start
      | some last =>
        have hlast := mem_of_getLast? hl
        refine row.shorten hl ?_
        rw [(old last hlast).2]
        exact R.behind last hlast
    · unfold first
      rw [own]
      exact start
    · unfold first past
      rw [own]
      exact valid
    · unfold past
      rw [own]
      have := R.stop
      show i.stop + 1 ≤ (s.interval x).stop
      omega
  · have kids : (s.hung new p i n).children x = s.children x := hang_children_of_ne ne hxp
    rw [kids]
    exact row

theorem hung_tree (higher : s.height p < n) : (s.hung new p i n).IsTree origin := S.tree.hang fresh hp higher

theorem hung_unseated (R : Remaining s p i) (empty : i.stop + 1 = i.start) :
    ReindexOperationContext.Unseated (s.hung new p i n) new p (s.hung new p i n).interval where
  mem := mem_cons_self
  leaf := hang_children_new
  parent_eq := hang_parent_new
  off x hx out := by
    rcases mem_cons.mp hx with rfl | hx
    · exact absurd .refl out
    · exact hung_seated S fresh hp R (Nat.le_refl _) (Nat.le_of_eq empty.symm) (Nat.le_refl _) hx
  start := by
    show (update s.interval new i new).start = (update s.interval new i p).stop
    rw [update_self, update_of_ne (ne_of_mem_of_not_mem hp fresh)]
    have := R.stop
    omega
  stop := by
    show (update s.interval new i new).stop + 1 = (update s.interval new i new).start
    rw [update_self]
    exact empty

end Hung

/-! ## Insertions -/

/-- A sound tree as the calls leave it: no height exceeds the number of blocks, and the reindex root has
children unless it is the origin. -/
structure Steady (s : ReachabilityStore H) (origin : H) : Prop where
  sound : s.Sound origin
  low : ∀ x ∈ s.nodes, s.height x < s.nodes.length
  inner : s.reindexRoot ≠ origin → s.children s.reindexRoot ≠ []

/-- The interval of the reindex root has room for a call with this slack. -/
def Roomy (s : ReachabilityStore H) (slack : Nat) : Prop :=
  (s.interval s.reindexRoot).start + 2 * (slack + 1) * (s.nodes.length + 1) ≤ (s.interval s.reindexRoot).stop + 1
  deriving Decidable

/-- The links and sets after an insertion. -/
structure Grown (s : ReachabilityStore H) (new p : H) (s' : ReachabilityStore H) : Prop where
  links : s'.toLinks = s.toLinks.hang new p (s.height p + 1)
  covering : s'.futureCoveringSet = update s.futureCoveringSet new []
  root : s'.reindexRoot = s.reindexRoot

omit [DecidableEq H] in
theorem Steady.length_lt (K : s.Steady origin) (roomy : s.Roomy slack) : s.nodes.length + 1 < U64_BOUND := by
  have bounds := K.sound.bounds K.sound.root_mem
  unfold Roomy at roomy
  have : s.nodes.length + 1 ≤ 2 * (slack + 1) * (s.nodes.length + 1) := Nat.le_mul_of_pos_left _ (by omega)
  omega

/-- What an insertion makes of the links keeps the other conditions. -/
theorem Steady.grow {s' : ReachabilityStore H} (K : s.Steady origin) (fresh : new ∉ s.nodes) (hp : p ∈ s.nodes)
    (G : Grown s new p s')
    (top : s'.interval origin = maximal) (seated : ∀ x ∈ s'.nodes, s'.Seated x) : s'.Steady origin := by
  have nodes : s'.nodes = new :: s.nodes := by rw [G.links]; rfl
  have height : s'.height = update s.height new (s.height p + 1) := by rw [G.links]; rfl
  refine ⟨⟨?_, top, ?_, seated⟩, fun x hx => ?_, fun ne => ?_⟩
  · rw [G.links]
    exact K.sound.tree.hang fresh hp (Nat.lt_succ_self _)
  · rw [G.root, nodes]
    exact mem_cons_of_mem new K.sound.root_mem
  · rw [nodes] at hx
    rw [nodes, height, length_cons]
    rcases mem_cons.mp hx with rfl | hx
    · rw [update_self]
      exact Nat.succ_lt_succ (K.low p hp)
    · rw [update_of_ne (ne_of_mem_of_not_mem hx fresh)]
      exact Nat.lt_succ_of_lt (K.low x hx)
  · rw [G.root] at ne ⊢
    rw [G.links]
    exact hang_children_ne_nil (ne_of_mem_of_not_mem K.sound.root_mem fresh) (K.inner ne)

section Insert

variable {share : Nat → List Nat → Nat → Nat} {depth : Nat} (K : s.Steady origin) (fresh : new ∉ s.nodes)
    (hp : p ∈ s.nodes)
  (roomy : room → s.Roomy slack) (hbad : ∀ e : ReachabilityError H, e.isCapacity = true → ¬ room → bad e)

include K fresh

theorem hung_origin : (s.hung new p i n).interval origin = maximal :=
  (hung_interval_of_mem fresh K.sound.tree.root_mem).trans K.sound.origin_interval

include hp

/-- The new block is given the first half of the rest. -/
theorem hung_steady {rest : Interval} (R : Remaining s p rest) (start : i.start = rest.start)
    (nonempty : i.start ≤ i.stop)
    (stop : i.stop ≤ rest.stop) : (s.hung new p i (s.height p + 1)).Steady origin := by
  refine K.grow fresh hp ⟨rfl, rfl, rfl⟩ (hung_origin K fresh) fun x hx => ?_
  rcases mem_cons.mp hx with rfl | hx
  · have leaf : (s.hung x p i (s.height p + 1)).children x = [] := hang_children_new
    unfold Seated
    rw [leaf]
    show (update s.interval x i x).start ≤ (update s.interval x i x).stop
    rw [update_self]
    exact nonempty
  · exact hung_seated K.sound fresh hp R (Nat.le_of_eq start.symm) (Nat.le_succ_of_le nonempty) stop hx

include roomy hbad

/-- **An insertion.** -/
theorem addTreeBlock_runs :
    (s.addTreeBlock share new p depth slack).Runs room bad fun s' => Grown s new p s' ∧ s'.Steady origin := by
  have S := K.sound
  have inserted :
      ∀ j m, ({ s with children := update s.children p (s.children p ++ [new]) } : ReachabilityStore H).insert new p
        j m =
      .ok (s.hung new p j m) := fun j m => if_neg fresh
  have height : room → s.height p + 1 < U64_BOUND := fun hr => by
    have := K.length_lt (roomy hr)
    have := K.low p hp
    omega
  refine (intervalRemainingAfter_runs S hp).bind fun rest _ R => ?_
  refine .step (if_pos hp) (.step (if_pos hp) ?_)
  have bounds := S.bounds hp
  have stop := R.stop
  have valid := R.valid
  unfold Interval.isEmpty
  rw [bind_assoc]
  refine (size_runs fun _ => ⟨valid, by omega⟩).bind fun size _ hsize => ?_
  by_cases empty : size = 0
  · rw [pure_bind, if_pos (decide_eq_true empty)]
    refine (U64.add_runs height).bind fun n _ hn => ?_
    obtain ⟨rfl, _⟩ := hn
    refine .step (inserted rest (s.height p + 1)) ?_
    -- a reindexing of the store with the empty interval
    have T := hung_tree (i := rest) S fresh hp (Nat.lt_succ_self (s.height p))
    have U := hung_unseated (n := s.height p + 1) S fresh hp R (by omega)
    have rootMem : s.reindexRoot ∈ (s.hung new p rest (s.height p + 1)).nodes := mem_cons_of_mem new S.root_mem
    have rootInterval : (s.hung new p rest (s.height p + 1)).interval s.reindexRoot = s.interval s.reindexRoot :=
      hung_interval_of_mem fresh S.root_mem
    have here : ReindexOperationContext.At (s.hung new p rest (s.height p + 1)) slack
        (s.hung new p rest (s.height p + 1)).interval
        (.new (s.hung new p rest (s.height p + 1)) slack) := ⟨fun _ => none, rfl, counted_empty⟩
    refine (reindexIntervals_runs U T (fun hr => K.length_lt (roomy hr)) (hung_origin K fresh) rootMem
      (ne_of_mem_of_not_mem S.root_mem fresh) (fun ne => ?_) (fun hr => ?_) hbad here).bind fun ctx _ h => ?_
    · exact hang_children_ne_nil (ne_of_mem_of_not_mem S.root_mem fresh) (K.inner ne)
    · have large := roomy hr
      unfold Roomy at large
      rw [rootInterval]
      show _ + (slack + 2) * (s.nodes.length + 1) ≤ _
      have : (slack + 2) * (s.nodes.length + 1) ≤ 2 * (slack + 1) * (s.nodes.length + 1) :=
        Nat.mul_le_mul_right _ (by omega)
      omega
    · obtain ⟨f', here', seated, top⟩ := h
      have G : Grown s new p ctx.store := by
        rw [here'.store_eq]
        exact ⟨rfl, rfl, rfl⟩
      refine ⟨G, K.grow fresh hp G ?_ ?_⟩
      · rw [here'.store_eq, withIntervals_interval, top]
        exact hung_origin K fresh
      · rw [here'.store_eq]
        exact seated
  · rw [pure_bind, if_neg (by simpa using empty)]
    refine (splitHalf_runs (fun _ => by omega) (by omega)).bind fun halves _ h => ?_
    refine (U64.add_runs height).bind fun n _ hn => ?_
    obtain ⟨rfl, _⟩ := hn
    rw [inserted]
    exact ⟨⟨rfl, rfl, rfl⟩, hung_steady K fresh hp R h.1 h.2.1 h.2.2⟩

end Insert

end ReachabilityStore

end Firecash
