import Firecash.Lib.ChainTree
import Firecash.Consensus.UtxoState

/-!
# Chain block validation

A chain block is validated by `calculate_utxo_state` followed by `verify_expected_utxo_state`
(virtual_processor/utxo_validation.rs:306). `ChainEnv` is what the virtual processor reads about the
block tree and never changes; the persisted shielded state is the argument `ShieldedStores`. Header
checks that do not read shielded state (UTXO commitment, accepted id merkle root, pruning point, first
parent, the block's own transactions) are two parameters, before and after the coinbase check.
-/

namespace Firecash

open Except

variable {P : Prim}

/-- Why a block's shielded state is invalid: the texts of `InvalidShieldedState`. -/
inductive ShieldedFailure where
  | coinbaseMint (e : ShieldedManagerError)
  | state (e : ShieldedStateError)
  | poolDelta (actual expected : Int)
  deriving DecidableEq

/-- `RuleError`: what disqualifies a block from the chain. -/
inductive RuleError where
  | badUtxoCommitment
  | badAcceptedIdMerkleRoot
  | badCoinbaseTransaction
  | wrongHeaderPruningPoint
  | wrongSelectedParentOrder
  | invalidTransactionsInUtxoContext
  | invalidShieldedState (f : ShieldedFailure)
  deriving DecidableEq

/-- The block tree and the data of its blocks. -/
structure ChainEnv (P : Prim) where
  tree : ChainTree Hash
  gd : Hash → GhostdagData
  gd_parent : ∀ b, b ≠ tree.root → (gd b).selectedParent = tree.parent b
  daaScore : Hash → Nat
  mergesetNonDaa : Hash → Finset Hash
  coinbaseManager : CoinbaseManager
  shieldedCoinbase : Bool
  blueWork : Hash → Nat
  bodies : Hash → BlockBody P
  coinbaseId : CoinbaseTransaction P → Hash
  /-- Validation rules outside the model, for a validated block and a merged one. -/
  rules : Hash → Hash → Transaction P → List UtxoEntry → Bool
  /-- The UTXO view at a block's selected parent. -/
  utxoView : Hash → UtxoView
  headerChecks : Hash → Except RuleError Unit
  contextChecks : Hash → Except RuleError Unit
  shieldedAnchorDepth : Nat

variable (env : ChainEnv P)

def ChainEnv.utxoEnv (block : Hash) : UtxoEnv P :=
  ⟨env.shieldedCoinbase, env.blueWork, env.bodies, env.coinbaseId, env.rules block⟩

/-! ## Anchor finality -/

/-- What a node's GHOSTDAG and reachability stores answer; `none` is a missing key. -/
structure NodeView where
  blueScore : Hash → Option Nat
  tryIsChainAncestorOf : Hash → Hash → Option Bool

/-- A node that has deleted nothing. -/
def ChainEnv.fullView : NodeView :=
  ⟨fun b => some (env.gd b).blueScore, fun a b => some (decide (a ∈ env.tree.chain b))⟩

variable (view : NodeView)

/-- `is_shielded_anchor_final` (processor.rs:593) -/
def isShieldedAnchorFinal (depth : Nat) (anchorBlock : P.Anchor → Option Hash) (anchor : P.Anchor)
    (selectedParent : Hash) (blockBlueScore : Nat) : Bool :=
  if anchor = P.emptyAnchor then true
  else
    match anchorBlock anchor with
    | none => false
    | some source =>
      match view.blueScore source with
      -- blue score unavailable: pruned, taken as final
      | none => true
      | some sourceBlueScore =>
        if source ≠ selectedParent ∧ view.tryIsChainAncestorOf source selectedParent = some false then false
        else decide (depth ≤ blockBlueScore - sourceBlueScore)

/-! ## Verification -/

variable (stores : ShieldedStores P)

/-- `verify_coinbase_transaction`: the coinbase must be the expected one, with the commitment to the
selected parent's state root in it. Transactions are compared by hash there, as values here. -/
def verifyCoinbaseTransaction (block : Hash)
    (rewards : MergesetRewards) : Except (Fault RuleError) Unit :=
  let coinbase := (env.bodies block).coinbase
  let gd := env.gd block
  match stores.stateRootAt gd.selectedParent with
  | none => .error .panic
  | some shieldedCommitment =>
    match env.coinbaseManager.expectedCoinbaseTransaction (env.daaScore block) coinbase.payload.minerData gd rewards
        (env.mergesetNonDaa block) shieldedCommitment with
    | .error _ => .error .panic
    | .ok expected => if coinbase = expected.tx then .ok () else .error (.err .badCoinbaseTransaction)

/-- The coinbase mint of the block's own coinbase (utxo_validation.rs:404-411). -/
def coinbaseMintOf (block : Hash) : Except (Fault RuleError) (Option (CoinbaseMint P)) :=
  if env.shieldedCoinbase then
    let coinbase := (env.bodies block).coinbase
    match buildCoinbaseMint (env.coinbaseId coinbase) coinbase with
    | .ok mint => .ok (some mint)
    | .error e => .error (.err (.invalidShieldedState (.coinbaseMint e)))
  else .ok none

/-- What the mergeset adds to the pool: subsidies inside the DAA window, less the fees of blues outside
it, which no coinbase pays (utxo_validation.rs:470-484). -/
def blueDelta (rewards : MergesetRewards) (nonDaa : Finset Hash) : List Hash → Option Int
  | [] => some 0
  | blue :: blues => do
    let reward ← rewards blue
    let rest ← blueDelta rewards nonDaa blues
    pure ((if blue ∈ nonDaa then -(reward.totalFees.toNat : Int) else reward.subsidy.toNat) + rest)

def redDelta (rewards : MergesetRewards) (nonDaa : Finset Hash) : List Hash → Option Int
  | [] => some 0
  | red :: reds =>
    if red ∈ nonDaa then redDelta rewards nonDaa reds
    else do
      let reward ← rewards red
      let rest ← redDelta rewards nonDaa reds
      pure ((reward.subsidy.toNat : Int) + rest)

def expectedDelta (gd : GhostdagData) (rewards : MergesetRewards) (nonDaa : Finset Hash) : Option Int := do
  let blue ← blueDelta rewards nonDaa gd.mergesetBlues
  let red ← redDelta rewards nonDaa gd.mergesetReds
  pure (blue + red)

/-- `actual_delta`: how the pool value changed from the selected parent. -/
def actualDelta (parent computed : SupplyTotals) : Int :=
  ((computed.cumulativeCoinbase : Int) - parent.cumulativeCoinbase) -
    ((computed.cumulativeFees : Int) - parent.cumulativeFees)

/-- The pool-delta check. -/
def checkPoolDelta (gd : GhostdagData) (rewards : MergesetRewards) (nonDaa : Finset Hash)
    (parent computed : SupplyTotals) : Except (Fault RuleError) Unit :=
  match expectedDelta gd rewards nonDaa with
  | none => .error .panic
  | some expected =>
    let actual := actualDelta parent computed
    if actual ≠ expected then .error (.err (.invalidShieldedState (.poolDelta actual expected))) else .ok ()

/-- A manager error as the verifier reports it (utxo_validation.rs:446-457). -/
def managerFault : Fault ShieldedManagerError → Fault RuleError
  | .panic => .panic
  | .err (.state e) => .err (.invalidShieldedState (.state e))
  | .err (.malformedCoinbaseNote msg) => .err (.invalidShieldedState (.coinbaseMint (.malformedCoinbaseNote msg)))

/-- `verify_expected_utxo_state` -/
def verifyExpectedUtxoState (block : Hash)
    (ctx : UtxoProcessingContext P) : Except (Fault RuleError) (ComputedBlockShielded P) := do
  let gd := env.gd block
  (env.headerChecks block).mapError .err
  verifyCoinbaseTransaction env stores block ctx.mergesetRewards
  (env.contextChecks block).mapError .err
  let mint ← coinbaseMintOf env block
  let computed ← (stores.compute gd.selectedParent mint ctx.shieldedTxs).mapError managerFault
  if env.shieldedCoinbase then
    checkPoolDelta gd ctx.mergesetRewards (env.mergesetNonDaa block) (stores.supplyTotalsAt gd.selectedParent)
      computed.supplyTotals
    pure computed
  else pure computed

/-- The context of a block: `calculate_utxo_state` at its selected parent. -/
def blockContext (block : Hash) :
    Option (UtxoProcessingContext P) :=
  let gd := env.gd block
  calculateUtxoState (env.utxoEnv block) stores gd (env.utxoView block) fun stx =>
    isShieldedAnchorFinal view env.shieldedAnchorDepth stores.anchorBlock stx.anchor gd.selectedParent gd.blueScore

/-- Validation of one chain block against the persisted shielded state. -/
def validateBlock (block : Hash) :
    Except (Fault RuleError) (ComputedBlockShielded P) :=
  match blockContext env view stores block with
  | none => .error .panic
  | some ctx => verifyExpectedUtxoState env stores block ctx

variable {env : ChainEnv P} {stores : ShieldedStores P} {block : Hash} {c : ComputedBlockShielded P}

/-- What a valid block passed. -/
theorem verifyExpectedUtxoState_ok
    {ctx : UtxoProcessingContext P}
    (h : verifyExpectedUtxoState env stores block ctx = .ok c) :
    verifyCoinbaseTransaction env stores block ctx.mergesetRewards = .ok () ∧
      ∃ mint, coinbaseMintOf env block = .ok mint ∧
        stores.compute (env.gd block).selectedParent mint ctx.shieldedTxs = .ok c := by
  obtain ⟨-, -, h⟩ := bind_eq_ok_iff.mp h
  obtain ⟨_, hcb, h⟩ := bind_eq_ok_iff.mp h
  obtain ⟨-, -, h⟩ := bind_eq_ok_iff.mp h
  obtain ⟨mint, hmint, h⟩ := bind_eq_ok_iff.mp h
  obtain ⟨c', hc', h⟩ := bind_eq_ok_iff.mp h
  rw [mapError_eq_ok_iff] at hc'
  have heq : c' = c := by
    split at h
    · obtain ⟨-, -, h⟩ := bind_eq_ok_iff.mp h
      exact pure_eq_ok_iff.mp h
    · exact pure_eq_ok_iff.mp h
  exact ⟨hcb, mint, hmint, heq ▸ hc'⟩

theorem validateBlock_ok {view : NodeView}
    (h : validateBlock env view stores block = .ok c) :
    ∃ ctx mint, blockContext env view stores block = some ctx ∧ coinbaseMintOf env block = .ok mint ∧
      stores.compute (env.gd block).selectedParent mint ctx.shieldedTxs = .ok c := by
  unfold validateBlock at h
  cases hctx : blockContext env view stores block with
  | none => simp [hctx] at h
  | some ctx =>
    simp only [hctx] at h
    obtain ⟨-, mint, hmint, hc⟩ := verifyExpectedUtxoState_ok h
    exact ⟨ctx, mint, rfl, hmint, hc⟩

end Firecash
