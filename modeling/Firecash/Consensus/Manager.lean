import Firecash.Crypto.MuHash
import Firecash.Shielded.State

/-!
# Shielded stores and the shielded state manager

The persisted shielded state (model/stores/shielded.rs) and the functions of
`ShieldedStateManager` (processes/shielded.rs) that the virtual processor calls.

Per-block snapshots (frontier, supply, accumulator) are keyed by block and written only when
non-trivial; a missing key reads as the default. The nullifier set and the anchor index are global:
the set is moved along with the walk through `nullifierDiffs`, the index is only ever overwritten.
-/

namespace Firecash

open Function List

/-- `SupplyTotals` (stores/shielded.rs) has the two fields of the ledger. -/
abbrev SupplyTotals := SupplyLedger

@[ext] structure ShieldedStores (P : Prim) where
  /-- `DbNullifierSetStore`: the global set. -/
  nullifiers : Finset NullifierBytes
  /-- `DbNullifierDiffStore`: what each chain block added to it. -/
  nullifierDiffs : Hash → Option (List NullifierBytes)
  treeStore : Hash → Option FrontierState
  supplyStore : Hash → Option SupplyTotals
  nullifierMuhash : Hash → Option P.Elt
  /-- `DbAnchorBlockStore`: the block last indexed under a tree root. -/
  anchorBlock : P.Anchor → Option Hash

/-- `ShieldedManagerError`; a store error is fatal and not modelled. -/
inductive ShieldedManagerError where
  | state (e : ShieldedStateError)
  | malformedCoinbaseNote (msg : String)
  deriving DecidableEq

/-- `ComputedBlockShielded` (processes/shielded.rs:44) without the scan record. -/
structure ComputedBlockShielded (P : Prim) where
  frontierState : FrontierState
  supplyTotals : SupplyTotals
  nullifierMuhash : MuHash P
  outcome : BlockShieldedOutcome P

variable {P : Prim}

def ComputedBlockShielded.anchor (c : ComputedBlockShielded P) : P.Anchor := c.outcome.anchor

namespace ShieldedStores

/-- The stores of a fresh node. -/
def empty : ShieldedStores P := ⟨∅, fun _ => none, fun _ => none, fun _ => none, fun _ => none, fun _ => none⟩

/-! ## Readers: a missing key is the default -/

variable (s : ShieldedStores P)

def contains (nf : NullifierBytes) : Bool := decide (nf ∈ s.nullifiers)

variable (block : Hash)

def getDiff : List NullifierBytes := (s.nullifierDiffs block).getD []

def frontierAt : FrontierState := (s.treeStore block).getD .default

def supplyTotalsAt : SupplyTotals := (s.supplyStore block).getD SupplyLedger.new

def loadNullifierMuhash : MuHash P :=
  match s.nullifierMuhash block with
  | some u => MuHash.fromUint3072 u
  | none => MuHash.new

/-- `load_tree`: `from_state(..).expect(..)`, `none` is the panic. -/
def loadTree : Option (GlobalTree P) :=
  (GlobalTree.fromState (s.frontierAt block)).toOption

def loadSupply : SupplyLedger :=
  SupplyLedger.fromTotals (s.supplyTotalsAt block).cumulativeCoinbase (s.supplyTotalsAt block).cumulativeFees

/-- `state_root_at` -/
def stateRootAt : Option P.StateRoot := do
  let tree ← s.loadTree block
  let t := s.supplyTotalsAt block
  pure (P.shieldedStateRoot tree.anchor (s.loadNullifierMuhash block).finalize t.cumulativeCoinbase t.cumulativeFees)

/-! ## Validation phase -/

/-- The keep mask, from a resolver that has seen the transactions before. -/
def partitionFrom (anchorFinal : ShieldedTx P → Bool) (r : Resolver) : List (ShieldedTx P) → List Bool
  | [] => []
  | stx :: txs =>
    if stx.nullifiers.isEmpty || anchorFinal stx then
      match r.tryAccept stx.nullifiers with
      | .ok r' => true :: partitionFrom anchorFinal r' txs
      | .error _ => false :: partitionFrom anchorFinal r txs
    else false :: partitionFrom anchorFinal r txs

/-- `partition_applied` (processes/shielded.rs:297) -/
def partitionApplied (txs : List (ShieldedTx P)) (anchorFinal : ShieldedTx P → Bool) :
    List Bool :=
  partitionFrom anchorFinal (Resolver.new s.contains) txs

/-- `compute` (processes/shielded.rs:329) -/
def compute (selectedParent : Hash) (coinbase : Option (CoinbaseMint P))
    (txs : List (ShieldedTx P)) : Except (Fault ShieldedManagerError) (ComputedBlockShielded P) :=
  match s.loadTree selectedParent with
  | none => .error .panic
  | some tree =>
    match applyChainBlockTo s.contains tree (s.loadSupply selectedParent) coinbase txs with
    | (.error e, _, _) => .error (.err (.state e))
    | (.ok outcome, tree', supply') =>
      let muhash := outcome.newNullifiers.foldl MuHash.addElement (s.loadNullifierMuhash selectedParent)
      .ok ⟨tree'.toState, ⟨supply'.cumulativeCoinbase, supply'.cumulativeFees⟩, muhash, outcome⟩

/-! ## Commit phase -/

def insertNullifiers (nfs : List NullifierBytes) : ShieldedStores P :=
  { s with nullifiers := nfs.foldl (fun set nf => insert nf set) s.nullifiers }

def deleteNullifiers (nfs : List NullifierBytes) : ShieldedStores P :=
  { s with nullifiers := nfs.foldl (fun set nf => set.erase nf) s.nullifiers }

variable (c : ComputedBlockShielded P)

/-- The frontier snapshot and the anchor index entry of a block with a non-empty tree. -/
def persistTree : ShieldedStores P :=
  if c.frontierState.size > 0 then
    { s with
      treeStore := update s.treeStore block (some c.frontierState)
      anchorBlock := update s.anchorBlock c.anchor (some block) }
  else s

def persistSupply : ShieldedStores P :=
  if c.supplyTotals.cumulativeCoinbase > 0 ∨ c.supplyTotals.cumulativeFees > 0 then
    { s with supplyStore := update s.supplyStore block (some c.supplyTotals) }
  else s

def persistNullifiers : ShieldedStores P :=
  if c.outcome.newNullifiers.isEmpty then s
  else
    { s with nullifierDiffs := update s.nullifierDiffs block (some c.outcome.newNullifiers) }.insertNullifiers
      c.outcome.newNullifiers

/-- The accumulator snapshot. What `compute` returns has denominator one, so the store's
`try_into().expect(..)` succeeds and keeps the numerator. -/
def persistMuhash : ShieldedStores P :=
  if c.nullifierMuhash.finalize ≠ MuHash.EMPTY_MUHASH P then
    { s with nullifierMuhash := update s.nullifierMuhash block (some c.nullifierMuhash.numerator) }
  else s

/-- `persist` (processes/shielded.rs:373), one batch. -/
def persist : ShieldedStores P :=
  (((s.persistTree block c).persistSupply block c).persistNullifiers block c).persistMuhash block c

/-- `apply_nullifiers_from_store` -/
def applyNullifiersFromStore : ShieldedStores P :=
  s.insertNullifiers (s.getDiff block)

/-- `revert_nullifiers_from_store` -/
def revertNullifiersFromStore : ShieldedStores P :=
  s.deleteNullifiers (s.getDiff block)

/-! ## Specifications -/

section

variable (s : ShieldedStores P) (nfs : List NullifierBytes)

theorem insertNullifiers_nullifiers :
    (s.insertNullifiers nfs).nullifiers = s.nullifiers ∪ nfs.toFinset := MemNullifierSet.extend_eq s.nullifiers nfs

theorem deleteNullifiers_nullifiers :
    (s.deleteNullifiers nfs).nullifiers = s.nullifiers \ nfs.toFinset := by
  show nfs.foldl (fun set nf => set.erase nf) s.nullifiers = _
  induction nfs generalizing s with
  | nil => simp
  | cons nf nfs ih =>
    have hstep := ih { s with nullifiers := s.nullifiers.erase nf }
    rw [foldl_cons, hstep]
    ext x
    simp only [Finset.mem_sdiff, Finset.mem_erase, mem_toFinset, mem_cons, not_or]
    tauto

end

section

variable (s : ShieldedStores P) (block b : Hash) (c : ComputedBlockShielded P)

/-- What a batch writes, store by store. -/
theorem persist_eq : s.persist block c =
    { nullifiers := s.nullifiers ∪ c.outcome.newNullifiers.toFinset
      nullifierDiffs := fun b => if c.outcome.newNullifiers ≠ [] ∧ b = block then some c.outcome.newNullifiers
        else s.nullifierDiffs b
      treeStore := fun b => if c.frontierState.size > 0 ∧ b = block then some c.frontierState else s.treeStore b
      supplyStore := fun b => if (c.supplyTotals.cumulativeCoinbase > 0 ∨ c.supplyTotals.cumulativeFees > 0) ∧
        b = block then
          some c.supplyTotals
        else s.supplyStore b
      nullifierMuhash := fun b => if c.nullifierMuhash.finalize ≠ MuHash.EMPTY_MUHASH P ∧ b = block then
          some c.nullifierMuhash.numerator
        else s.nullifierMuhash b
      anchorBlock := fun a => if c.frontierState.size > 0 ∧ a = c.anchor then some block else s.anchorBlock a } := by
  have inserted : ∀ (s : ShieldedStores P) nfs, s.insertNullifiers nfs =
      { s with nullifiers := s.nullifiers ∪ nfs.toFinset } := by
    intro s nfs
    rw [← insertNullifiers_nullifiers]
    rfl
  unfold persist persistMuhash persistNullifiers persistSupply persistTree
  simp only [inserted, List.isEmpty_iff]
  split_ifs <;> simp_all [ShieldedStores.ext_iff, funext_iff, update_apply]

/-! What is read after a batch. -/

theorem frontierAt_persist :
    (s.persist block c).frontierAt b =
      if c.frontierState.size > 0 ∧ b = block then c.frontierState else s.frontierAt b := by
  simp only [persist_eq, frontierAt]
  split <;> rfl

theorem supplyTotalsAt_persist :
    (s.persist block c).supplyTotalsAt b =
      if (c.supplyTotals.cumulativeCoinbase > 0 ∨ c.supplyTotals.cumulativeFees > 0) ∧ b = block then c.supplyTotals
      else s.supplyTotalsAt b := by
  simp only [persist_eq, supplyTotalsAt]
  split <;> rfl

theorem loadNullifierMuhash_persist :
    (s.persist block c).loadNullifierMuhash b =
      if c.nullifierMuhash.finalize ≠ MuHash.EMPTY_MUHASH P ∧ b = block then
        MuHash.fromUint3072 c.nullifierMuhash.numerator
      else s.loadNullifierMuhash b := by
  simp only [persist_eq, loadNullifierMuhash]
  split_ifs <;> rfl

theorem getDiff_persist :
    (s.persist block c).getDiff b =
      if c.outcome.newNullifiers ≠ [] ∧ b = block then c.outcome.newNullifiers else s.getDiff b := by
  simp only [persist_eq, getDiff]
  split <;> rfl

end

variable {s : ShieldedStores P} {block : Hash}

theorem persist_getDiff (c : ComputedBlockShielded P) (hs : s.getDiff block = []) :
    (s.persist block c).getDiff = update s.getDiff block c.outcome.newNullifiers := by
  funext b
  rw [getDiff_persist]
  by_cases hb : b = block
  · subst hb
    rw [update_self]
    by_cases hempty : c.outcome.newNullifiers = []
    · rw [if_neg (fun h => h.1 hempty), hs, hempty]
    · rw [if_pos ⟨hempty, rfl⟩]
  · rw [update_of_ne hb, if_neg (fun h => hb h.2)]

/-- No snapshot and no diff is stored for a block. -/
structure NoRecord (s : ShieldedStores P) (block : Hash) : Prop where
  tree : s.treeStore block = none
  supply : s.supplyStore block = none
  muhash : s.nullifierMuhash block = none
  diff : s.nullifierDiffs block = none

theorem NoRecord.getDiff (h : s.NoRecord block) : s.getDiff block = [] := by
  rw [ShieldedStores.getDiff, h.diff]
  rfl

theorem NoRecord.persist {a : Hash} (h : s.NoRecord a) (hne : a ≠ block)
    (c : ComputedBlockShielded P) : (s.persist block c).NoRecord a where
  tree := by simp [persist_eq, hne, h.tree]
  supply := by simp [persist_eq, hne, h.supply]
  muhash := by simp [persist_eq, hne, h.muhash]
  diff := by simp [persist_eq, hne, h.diff]

/-- The global set apart, nothing differs. -/
def SameRecords (s s' : ShieldedStores P) : Prop := ∃ nfs, s' = { s with nullifiers := nfs }

variable {selectedParent : Hash} {coinbase : Option (CoinbaseMint P)} {txs : List (ShieldedTx P)}
    {c : ComputedBlockShielded P}

section

variable (h : s.compute selectedParent coinbase txs = .ok c)
include h

theorem compute_inv :
    ∃ tree tree', s.loadTree selectedParent = some tree ∧
      applyChainBlockTo s.contains tree (s.loadSupply selectedParent) coinbase txs =
        (.ok c.outcome, tree', c.supplyTotals) ∧
      c.frontierState = tree'.toState ∧
      c.nullifierMuhash = (s.loadNullifierMuhash selectedParent).addAll c.outcome.newNullifiers := by
  unfold compute at h
  cases ht : s.loadTree selectedParent with
  | none => simp [ht] at h
  | some tree =>
    simp only [ht] at h
    rcases ha : applyChainBlockTo s.contains tree (s.loadSupply selectedParent) coinbase txs with
      ⟨e | o, tree', supply'⟩
    · simp [ha] at h
    · simp only [ha, Except.ok.injEq] at h
      obtain rfl := h
      exact ⟨tree, tree', rfl, ha, rfl, rfl⟩

/-- Specification of `compute`: a transition from the selected parent's snapshots against the
global nullifier set. -/
theorem compute_ok :
    ∃ tree tree', s.loadTree selectedParent = some tree ∧
      TransitionSpec s.contains tree tree' (s.loadSupply selectedParent) c.supplyTotals coinbase txs c.outcome ∧
      c.frontierState = tree'.toState ∧
      c.nullifierMuhash = (s.loadNullifierMuhash selectedParent).addAll c.outcome.newNullifiers := by
  obtain ⟨tree, tree', loaded, applied, rest⟩ := compute_inv h
  exact ⟨tree, tree', loaded, applyChainBlockTo_ok applied, rest⟩

theorem compute_accepted : ∀ i ∈ c.outcome.accepted, i < txs.length := by
  obtain ⟨_, _, _, applied, _⟩ := compute_inv h
  exact applyChainBlockTo_accepted applied

end

/-! ### The keep mask -/

/-- The transactions a mask keeps. -/
def keptTxs {α : Type} (txs : List α) (mask : List Bool) : List α :=
  (txs.zip mask).filterMap fun p => if p.2 then some p.1 else none

theorem keptTxs_map {β : Type} (f : α → β) (txs : List α) (mask : List Bool) :
    keptTxs (txs.map f) mask = (keptTxs txs mask).map f := by
  induction txs generalizing mask with
  | nil => rfl
  | cons t txs ih =>
    cases mask with
    | nil => rfl
    | cons k mask =>
      have ih := ih mask
      simp only [keptTxs] at ih
      cases k <;> simp [keptTxs, ih]

variable (anchorFinal : ShieldedTx P → Bool)

theorem partitionFrom_length (r : Resolver) (txs : List (ShieldedTx P)) :
    (partitionFrom anchorFinal r txs).length = txs.length := by
  induction txs generalizing r with
  | nil => rfl
  | cons stx txs ih =>
    unfold partitionFrom
    split
    · split <;> simp [ih]
    · simp [ih]

@[simp] theorem keptTxs_cons (t : α) (txs : List α) (k : Bool) (mask : List Bool) :
    keptTxs (t :: txs) (k :: mask) = if k then t :: keptTxs txs mask else keptTxs txs mask := by
  cases k <;> simp [keptTxs]

/-- The transactions that pass the anchor rule. -/
def eligible (txs : List (ShieldedTx P)) : List (ShieldedTx P) :=
  txs.filter fun stx => stx.nullifiers.isEmpty || anchorFinal stx

theorem eligible_cons (stx : ShieldedTx P) (txs : List (ShieldedTx P)) :
    eligible anchorFinal (stx :: txs) =
      if (stx.nullifiers.isEmpty || anchorFinal stx) = true then stx :: eligible anchorFinal txs
        else eligible anchorFinal txs :=
  filter_cons

section

variable (anchorFinal : ShieldedTx P → Bool) (r : Resolver)

/-- One step of the partition: kept, dropped by a conflict, or dropped by the anchor rule. -/
theorem partitionFrom_cons (stx : ShieldedTx P) (txs : List (ShieldedTx P)) :
    (∃ r', (stx.nullifiers.isEmpty || anchorFinal stx) = true ∧ r.tryAccept stx.nullifiers = .ok r' ∧
      partitionFrom anchorFinal r (stx :: txs) = true :: partitionFrom anchorFinal r' txs) ∨
    (∃ e, (stx.nullifiers.isEmpty || anchorFinal stx) = true ∧ r.tryAccept stx.nullifiers = .error e ∧
      partitionFrom anchorFinal r (stx :: txs) = false :: partitionFrom anchorFinal r txs) ∨
    (¬ (stx.nullifiers.isEmpty || anchorFinal stx) = true ∧
      partitionFrom anchorFinal r (stx :: txs) = false :: partitionFrom anchorFinal r txs) := by
  by_cases pass : (stx.nullifiers.isEmpty || anchorFinal stx) = true
  · cases ht : r.tryAccept stx.nullifiers with
    | ok r' => exact .inl ⟨r', pass, rfl, by rw [partitionFrom, if_pos pass, ht]⟩
    | error e => exact .inr (.inl ⟨e, pass, rfl, by rw [partitionFrom, if_pos pass, ht]⟩)
  · exact .inr (.inr ⟨pass, by rw [partitionFrom, if_neg pass]⟩)

/-- Conflict resolution is a no-op on a kept set: the transition applies exactly what the partition
kept. -/
theorem survivors_keptTxs (txs : List (ShieldedTx P)) :
    survivors r (keptTxs txs (partitionFrom anchorFinal r txs)) = keptTxs txs (partitionFrom anchorFinal r txs) := by
  induction txs generalizing r with
  | nil => rfl
  | cons stx txs ih =>
    rcases partitionFrom_cons anchorFinal r stx txs with ⟨r', _, ok, mask⟩ | ⟨_, _, _, mask⟩ | ⟨_, mask⟩
    · rw [mask, keptTxs_cons, if_pos rfl, survivors_cons_ok ok, ih]
    · rw [mask, keptTxs_cons, if_neg Bool.false_ne_true, ih]
    · rw [mask, keptTxs_cons, if_neg Bool.false_ne_true, ih]

/-- Resolving everything that passes the anchor rule keeps the same transactions as the partition. -/
theorem survivors_eligible (txs : List (ShieldedTx P)) :
    survivors r (eligible anchorFinal txs) = keptTxs txs (partitionFrom anchorFinal r txs) := by
  induction txs generalizing r with
  | nil => rfl
  | cons stx txs ih =>
    rcases partitionFrom_cons anchorFinal r stx txs with ⟨r', pass, ok, mask⟩ | ⟨e, pass, err, mask⟩ | ⟨drop, mask⟩
    · rw [mask, keptTxs_cons, if_pos rfl, eligible_cons, if_pos pass, survivors_cons_ok ok, ih]
    · rw [mask, keptTxs_cons, if_neg Bool.false_ne_true, eligible_cons, if_pos pass, survivors_cons_error err, ih]
    · rw [mask, keptTxs_cons, if_neg Bool.false_ne_true, eligible_cons, if_neg drop, ih]

/-- A second partition of what was kept drops nothing. -/
theorem partitionFrom_keptTxs (txs : List (ShieldedTx P)) :
    partitionFrom anchorFinal r (keptTxs txs (partitionFrom anchorFinal r txs)) =
      replicate (keptTxs txs (partitionFrom anchorFinal r txs)).length true := by
  induction txs generalizing r with
  | nil => rfl
  | cons stx txs ih =>
    rcases partitionFrom_cons anchorFinal r stx txs with ⟨r', pass, ok, mask⟩ | ⟨_, _, _, mask⟩ | ⟨_, mask⟩
    · rw [mask, keptTxs_cons, if_pos rfl, length_cons, replicate_succ, ← ih, partitionFrom, if_pos pass, ok]
    · rw [mask, keptTxs_cons, if_neg Bool.false_ne_true, ih]
    · rw [mask, keptTxs_cons, if_neg Bool.false_ne_true, ih]

end

/-- **The partition mirrors the transition.** The transition accepts all of what the partition keeps, and
of everything that passes the anchor rule it accepts exactly that; both have the same effects or the same
error; and a second partition drops nothing. -/
theorem partitionApplied_mirrors (s : ShieldedStores P) (txs : List (ShieldedTx P)) (anchorFinal : ShieldedTx P → Bool)
    (tree : GlobalTree P) (supply : SupplyLedger) (coinbase : Option (CoinbaseMint P)) :
    let kept := keptTxs txs (s.partitionApplied txs anchorFinal)
    let onKept := applyChainBlockTo s.contains tree supply coinbase kept
    let onEligible := applyChainBlockTo s.contains tree supply coinbase (eligible anchorFinal txs)
    (∀ o, onKept.1 = .ok o → o.accepted = range kept.length) ∧
    (∀ o, onEligible.1 = .ok o → selectTxs (eligible anchorFinal txs) o.accepted = kept) ∧
    onKept.1.map (fun o => (o.subtree, o.newNullifiers, o.anchor)) =
      onEligible.1.map (fun o => (o.subtree, o.newNullifiers, o.anchor)) ∧
    onKept.2 = onEligible.2 ∧
    (gather s.contains coinbase kept).totalFees = (gather s.contains coinbase (eligible anchorFinal txs)).totalFees ∧
    s.partitionApplied kept anchorFinal = replicate kept.length true := by
  intro kept onKept onEligible
  have all : survivors (Resolver.new s.contains) kept = kept := survivors_keptTxs anchorFinal _ txs
  have some : survivors (Resolver.new s.contains) (eligible anchorFinal txs) = kept :=
    survivors_eligible anchorFinal _ txs
  obtain ⟨effects, states⟩ := applyChainBlockTo_congr (all.trans some.symm) tree supply coinbase
  refine ⟨fun o ho => ?_, fun o ho => ?_, effects, states, (gather_congr (all.trans some.symm) coinbase).2.2,
    partitionFrom_keptTxs anchorFinal _ txs⟩
  · rw [applyChainBlockTo_accepted_eq (Prod.ext ho rfl), gather, gatherTxs_accepts_all all, nil_append, range_eq_range']
  · exact (applyChainBlockTo_ok (Prod.ext ho rfl)).accepted.trans some

end ShieldedStores

end Firecash
