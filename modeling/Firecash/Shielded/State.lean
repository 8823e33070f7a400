import Firecash.Lib.Checked
import Firecash.Lib.Fallible
import Firecash.Shielded.Nullifier
import Firecash.Shielded.Turnstile
import Firecash.Shielded.Tree

/-!
# The shielded state transition (shielded-core/src/state.rs)

One accepted chain block: its coinbase notes are minted, its transactions are resolved against the
finalized nullifier set in accepted order (the losers are dropped), and the survivors' fees,
commitments and nullifiers are applied to working copies that replace the state on success only.

`survivors` names the transactions that win; `gatherTxs_spec` says that what the loop gathers is
exactly theirs, and `applyChainBlockTo_ok` is the specification of a successful call.
-/

namespace Firecash

open Checked List Except Resolver SupplyLedger

/-- `ActionWire` (bundle.rs): one action of a bundle as it is on the wire. The transition reads the
nullifier and the commitment, wallets the key and the ciphertexts. -/
structure ActionWire where
  nullifier : NullifierBytes
  rk : Bytes32
  cmx : Bytes32
  cvNet : Bytes32
  ephemeralKey : Bytes32
  encCiphertext : BitVec 4640
  outCiphertext : BitVec 640
  spendAuthSig : BitVec 512
  deriving DecidableEq

/-- An action that reveals `nf` and creates `cmx`, and encrypts nothing. -/
def ActionWire.plain (nf : NullifierBytes) (cmx : Bytes32) : ActionWire := ⟨nf, 0, cmx, 0, 0, 0, 0, 0⟩

/-- `ShieldedBundle` (bundle.rs) without its proof and signatures. -/
structure ShieldedBundle (P : Prim) where
  actions : List ActionWire
  valueBalance : Int64
  anchor : P.Anchor

/-- `ShieldedTx` (state.rs:34) -/
structure ShieldedTx (P : Prim) where
  nullifiers : List NullifierBytes
  commitments : List P.Cmx
  fee : UInt64
  anchor : P.Anchor
  deriving DecidableEq

/-- `BundleExtractError` (state.rs:49) -/
inductive BundleExtractError where
  | nonCanonicalCommitment
  | mintingValueBalance
  deriving DecidableEq

/-- `ShieldedTx::from_bundle` (state.rs:65) -/
def ShieldedTx.fromBundle {P : Prim} (bundle : ShieldedBundle P) : Except BundleExtractError (ShieldedTx P) := do
  let commitments ← ofOption .nonCanonicalCommitment (bundle.actions.mapM fun a => P.cmxFromBytes a.cmx)
  let nullifiers := bundle.actions.map (·.nullifier)
  if bundle.valueBalance < 0 then .error .mintingValueBalance
  else pure ⟨nullifiers, commitments, bundle.valueBalance.toUInt64, bundle.anchor⟩

/-- `CoinbaseNote` (state.rs:101) -/
structure CoinbaseNote (P : Prim) where
  value : UInt64
  commitment : P.Cmx
  deriving DecidableEq

/-- `CoinbaseMint` (state.rs:84) -/
structure CoinbaseMint (P : Prim) where
  notes : List (CoinbaseNote P)
  deriving DecidableEq

/-- `ShieldedStateError` (state.rs:123) -/
inductive ShieldedStateError where
  | turnstile (v : TurnstileViolation)
  | treeFull
  deriving DecidableEq

/-- `BlockShieldedOutcome` (state.rs:144); the subtree is its list of commitments. -/
structure BlockShieldedOutcome (P : Prim) where
  accepted : List Nat
  newNullifiers : List NullifierBytes
  subtree : List P.Cmx
  anchor : P.Anchor

variable {P : Prim}

/-- The notes a block's coinbase mints: none without a coinbase. -/
def mintedNotes (coinbase : Option (CoinbaseMint P)) : List (CoinbaseNote P) :=
  match coinbase with
  | some cb => cb.notes
  | none => []

/-- `total_mint`. A `u128` sum of `u64` values over a slice, so it cannot overflow. -/
def totalMint (coinbase : Option (CoinbaseMint P)) : Nat :=
  natSum ((mintedNotes coinbase).map (·.value))

/-! ## Phase 1: conflict resolution -/

/-- The accumulators of phase 1. -/
structure Gathered (P : Prim) where
  resolver : Resolver
  subtree : List P.Cmx
  accepted : List Nat
  totalFees : Nat

/-- The transaction loop of phase 1, at index `i`. -/
def gatherTxs (g : Gathered P) (i : Nat) : List (ShieldedTx P) → Gathered P
  | [] => g
  | tx :: txs =>
    match g.resolver.tryAccept tx.nullifiers with
    | .ok resolver =>
      gatherTxs ⟨resolver, g.subtree ++ tx.commitments, g.accepted ++ [i], g.totalFees + tx.fee.toNat⟩ (i + 1) txs
    -- conflicting transaction: dropped, records nothing
    | .error _ => gatherTxs g (i + 1) txs

def gather (finalized : NullifierBytes → Bool) (coinbase : Option (CoinbaseMint P)) (txs : List (ShieldedTx P)) :
    Gathered P :=
  gatherTxs ⟨new finalized, (mintedNotes coinbase).map (·.commitment), [], 0⟩ 0 txs

/-! ## Phase 2: effects on working copies -/

/-- `mint_coinbase(u64::try_from(total)?)`, skipped for a zero total. -/
def mintTotal (supply : SupplyLedger) (total : Nat) : Except TurnstileViolation SupplyLedger :=
  if total > 0 then do
    let v ← ofOption .overflow (ofNat? total)
    supply.mintCoinbase v
  else pure supply

/-- `collect_fees(u64::try_from(total)?)`, skipped for a zero total. -/
def collectTotal (supply : SupplyLedger) (total : Nat) : Except TurnstileViolation SupplyLedger :=
  if total > 0 then do
    let v ← ofOption .overflow (ofNat? total)
    supply.collectFees v
  else pure supply

def commitEffects (tree : GlobalTree P) (supply : SupplyLedger) (mint : Nat) (g : Gathered P) :
    Except ShieldedStateError (GlobalTree P × SupplyLedger) := do
  let newSupply ← (mintTotal supply mint).mapError .turnstile
  let newSupply ← (collectTotal newSupply g.totalFees).mapError .turnstile
  let newTree ← (tree.appendSubtree g.subtree).mapError fun _ => .treeFull
  newSupply.check.mapError .turnstile
  pure (newTree, newSupply)

/-- `apply_chain_block_to` (state.rs:212). `tree` and `supply` are `&mut`: the result carries
their values on return, and only the success path assigns them. -/
def applyChainBlockTo (finalized : NullifierBytes → Bool) (tree : GlobalTree P) (supply : SupplyLedger)
    (coinbase : Option (CoinbaseMint P)) (txs : List (ShieldedTx P)) :
    Except ShieldedStateError (BlockShieldedOutcome P) × GlobalTree P × SupplyLedger :=
  let g := gather finalized coinbase txs
  match commitEffects tree supply (totalMint coinbase) g with
  | .error e => (.error e, tree, supply)
  | .ok (newTree, newSupply) =>
    (.ok ⟨g.accepted, g.resolver.accepted, g.subtree, newTree.anchor⟩, newTree, newSupply)

/-- `ShieldedState` (state.rs:161) -/
@[ext] structure ShieldedState (P : Prim) where
  nullifiers : MemNullifierSet
  tree : GlobalTree P
  supply : SupplyLedger

namespace ShieldedState

def new : ShieldedState P := ⟨∅, GlobalTree.new, SupplyLedger.new⟩

/-- `apply_chain_block` (state.rs:191) -/
def applyChainBlock (st : ShieldedState P) (coinbase : Option (CoinbaseMint P)) (txs : List (ShieldedTx P)) :
    Except ShieldedStateError (BlockShieldedOutcome P) × ShieldedState P :=
  match applyChainBlockTo (fun nf => decide (nf ∈ st.nullifiers)) st.tree st.supply coinbase txs with
  | (.error e, tree, supply) => (.error e, { st with tree, supply })
  | (.ok outcome, tree, supply) => (.ok outcome, ⟨st.nullifiers.extend outcome.newNullifiers, tree, supply⟩)

end ShieldedState

/-! ## Specification of the transition -/

/-- The transactions that win conflict resolution, in accepted order. -/
def survivors (r : Resolver) : List (ShieldedTx P) → List (ShieldedTx P)
  | [] => []
  | tx :: txs =>
    match r.tryAccept tx.nullifiers with
    | .ok r' => tx :: survivors r' txs
    | .error _ => survivors r txs

variable (txs : List (ShieldedTx P))

/-- Transactions selected by index. -/
def selectTxs (accepted : List Nat) : List (ShieldedTx P) :=
  accepted.filterMap fun i => txs[i]?

def txFees : Nat := natSum (txs.map (·.fee))

def txNullifiers : List NullifierBytes := txs.flatMap (·.nullifiers)

def txCommitments : List P.Cmx := txs.flatMap (·.commitments)

variable {tx : ShieldedTx P}

theorem survivors_cons_ok {r r' : Resolver} (h : r.tryAccept tx.nullifiers = .ok r')
    (txs : List (ShieldedTx P)) : survivors r (tx :: txs) = tx :: survivors r' txs := by
  simp [survivors, h]

theorem survivors_cons_error {r : Resolver} {e : NullifierConflict}
    (h : r.tryAccept tx.nullifiers = .error e) (txs : List (ShieldedTx P)) :
    survivors r (tx :: txs) = survivors r txs := by
  simp [survivors, h]

/-- What a pass over `txs` adds to the accumulators: the effects of its survivors and their
indices. `done` are the transactions already visited. -/
structure GatherSpec (g g' : Gathered P) (done txs : List (ShieldedTx P)) : Prop where
  fresh : g.resolver.Fresh → g'.resolver.Fresh
  finalized : g'.resolver.finalized = g.resolver.finalized
  nullifiers : g'.resolver.accepted = g.resolver.accepted ++ txNullifiers (survivors g.resolver txs)
  subtree : g'.subtree = g.subtree ++ txCommitments (survivors g.resolver txs)
  totalFees : g'.totalFees = g.totalFees + txFees (survivors g.resolver txs)
  accepted : selectTxs (done ++ txs) g'.accepted = selectTxs (done ++ txs) g.accepted ++ survivors g.resolver txs

theorem gatherTxs_spec (g : Gathered P) (done txs : List (ShieldedTx P)) :
    GatherSpec g (gatherTxs g done.length txs) done txs := by
  induction txs generalizing g done with
  | nil => exact ⟨id, rfl, by simp [gatherTxs, survivors, txNullifiers], by simp [gatherTxs, survivors, txCommitments],
      by simp [gatherTxs, survivors, txFees], by simp [gatherTxs, survivors]⟩
  | cons tx txs ih =>
    have hlen : done.length + 1 = (done ++ [tx]).length := by simp
    have happ : done ++ tx :: txs = (done ++ [tx]) ++ txs := by simp
    cases ht : g.resolver.tryAccept tx.nullifiers with
    | error e =>
      rw [gatherTxs, ht, hlen]
      have h := ih g (done ++ [tx])
      have hs := survivors_cons_error ht txs
      exact ⟨h.fresh, h.finalized, hs ▸ h.nullifiers, hs ▸ h.subtree, hs ▸ h.totalFees, hs ▸ happ ▸ h.accepted⟩
    | ok r =>
      rw [gatherTxs, ht, hlen]
      have h := ih ⟨r, g.subtree ++ tx.commitments, g.accepted ++ [done.length], g.totalFees + tx.fee.toNat⟩
        (done ++ [tx])
      have hs := survivors_cons_ok ht txs
      have hr := (tryAccept_eq_ok.mp ht).2.2
      refine ⟨?_, ?_, ?_, ?_, ?_, ?_⟩
      · exact fun hf => h.fresh (hf.tryAccept ht)
      · rw [h.finalized, hr]
      · rw [h.nullifiers, hs, hr]; simp [txNullifiers]
      · rw [h.subtree, hs]; simp [txCommitments]
      · rw [h.totalFees, hs]; simp [txFees]; omega
      · rw [happ, h.accepted, hs]; simp [selectTxs]

theorem survivors_sublist (r : Resolver) (txs : List (ShieldedTx P)) : (survivors r txs).Sublist txs := by
  induction txs generalizing r with
  | nil => exact .slnil
  | cons tx txs ih =>
    cases ht : r.tryAccept tx.nullifiers with
    | ok r' =>
      rw [survivors_cons_ok ht]
      exact (ih r').cons_cons tx
    | error e =>
      rw [survivors_cons_error ht]
      exact (ih r).cons tx

variable {g : Gathered P} {txs : List (ShieldedTx P)}

/-- Where all transactions survive, all are accepted. -/
theorem gatherTxs_accepts_all {i : Nat} (h : survivors g.resolver txs = txs) :
    (gatherTxs g i txs).accepted = g.accepted ++ range' i txs.length := by
  induction txs generalizing g i with
  | nil => simp [gatherTxs]
  | cons tx txs ih =>
    cases ht : g.resolver.tryAccept tx.nullifiers with
    | error e =>
      -- a dropped transaction would make the list of survivors shorter
      rw [survivors_cons_error ht] at h
      have := (survivors_sublist g.resolver txs).length_le
      rw [h, length_cons] at this
      omega
    | ok r =>
      rw [survivors_cons_ok ht, cons.injEq] at h
      rw [gatherTxs, ht, ih h.2, length_cons, range'_succ, append_assoc]
      rfl

theorem gatherTxs_accepted {i k : Nat}
    (h : k ∈ (gatherTxs g i txs).accepted) : k ∈ g.accepted ∨ i ≤ k ∧ k < i + txs.length := by
  induction txs generalizing g i with
  | nil => exact .inl h
  | cons tx txs ih =>
    rw [length_cons]
    cases ht : g.resolver.tryAccept tx.nullifiers with
    | error e =>
      rw [gatherTxs, ht] at h
      rcases ih h with old | inside
      · exact .inl old
      · exact .inr (by omega)
    | ok r =>
      rw [gatherTxs, ht] at h
      rcases ih h with old | inside
      · rcases mem_append.mp old with old | this
        · exact .inl old
        · exact .inr (by rw [mem_singleton.mp this]; omega)
      · exact .inr (by omega)

variable {finalized : NullifierBytes → Bool}

section

variable {txs' : List (ShieldedTx P)} (h : survivors (new finalized) txs = survivors (new finalized) txs')
include h

/-- The effects gathered are those of the survivors. -/
theorem gather_congr (coinbase : Option (CoinbaseMint P)) :
    (gather finalized coinbase txs).resolver.accepted = (gather finalized coinbase txs').resolver.accepted ∧
    (gather finalized coinbase txs).subtree = (gather finalized coinbase txs').subtree ∧
    (gather finalized coinbase txs).totalFees = (gather finalized coinbase txs').totalFees := by
  have hg : GatherSpec _ (gather finalized coinbase txs) [] txs := gatherTxs_spec _ [] txs
  have hg' : GatherSpec _ (gather finalized coinbase txs') [] txs' := gatherTxs_spec _ [] txs'
  refine ⟨?_, ?_, ?_⟩
  · rw [hg.nullifiers, hg'.nullifiers, h]
  · rw [hg.subtree, hg'.subtree, h]
  · rw [hg.totalFees, hg'.totalFees, h]

/-- So is all that a call does but the indices it reports. -/
theorem applyChainBlockTo_congr (tree : GlobalTree P) (supply : SupplyLedger)
    (coinbase : Option (CoinbaseMint P)) :
    (applyChainBlockTo finalized tree supply coinbase txs).1.map (fun o => (o.subtree, o.newNullifiers, o.anchor)) =
      (applyChainBlockTo finalized tree supply coinbase txs').1.map (fun o => (o.subtree, o.newNullifiers, o.anchor)) ∧
    (applyChainBlockTo finalized tree supply coinbase txs).2 =
      (applyChainBlockTo finalized tree supply coinbase txs').2 := by
  obtain ⟨nullifiers, subtree, fees⟩ := gather_congr h coinbase
  have effects : commitEffects tree supply (totalMint coinbase) (gather finalized coinbase txs) =
      commitEffects tree supply (totalMint coinbase) (gather finalized coinbase txs') := by
    unfold commitEffects
    rw [subtree, fees]
  unfold applyChainBlockTo
  dsimp only
  rw [effects]
  cases commitEffects tree supply (totalMint coinbase) (gather finalized coinbase txs') with
  | error e => exact ⟨rfl, rfl⟩
  | ok r =>
    rw [subtree, nullifiers]
    exact ⟨rfl, rfl⟩

end

/-- What one successful call does, in terms of the transactions that survive. -/
structure TransitionSpec (finalized : NullifierBytes → Bool) (tree tree' : GlobalTree P)
    (supply supply' : SupplyLedger) (coinbase : Option (CoinbaseMint P)) (txs : List (ShieldedTx P))
    (o : BlockShieldedOutcome P) : Prop where
  accepted : selectTxs txs o.accepted = survivors (new finalized) txs
  nullifiers : o.newNullifiers = txNullifiers (survivors (new finalized) txs)
  nodup : o.newNullifiers.Nodup
  not_finalized : ∀ nf ∈ o.newNullifiers, finalized nf = false
  subtree : o.subtree =
    (mintedNotes coinbase).map (·.commitment) ++ txCommitments (survivors (new finalized) txs)
  tree : tree.appendSubtree o.subtree = .ok tree'
  anchor : o.anchor = tree'.anchor
  coinbase : supply'.cumulativeCoinbase = supply.cumulativeCoinbase + totalMint coinbase
  fees : supply'.cumulativeFees = supply.cumulativeFees + txFees (survivors (new finalized) txs)
  pool : supply'.cumulativeFees ≤ supply'.cumulativeCoinbase

variable {total : Nat}

theorem mintTotal_ok {l l' : SupplyLedger} (h : mintTotal l total = .ok l') :
    l' = ⟨l.cumulativeCoinbase + total, l.cumulativeFees⟩ := by
  unfold mintTotal at h
  split at h
  · obtain ⟨v, hv, hm⟩ := bind_eq_ok_iff.mp h
    rw [ofOption_eq_ok_iff, ofNat?_eq_some] at hv
    rw [mintCoinbase_ok hm, hv]
  · obtain rfl := pure_eq_ok_iff.mp h
    ext <;> simp; omega

theorem collectTotal_ok {l l' : SupplyLedger} (h : collectTotal l total = .ok l') :
    l' = ⟨l.cumulativeCoinbase, l.cumulativeFees + total⟩ := by
  unfold collectTotal at h
  split at h
  · obtain ⟨v, hv, hm⟩ := bind_eq_ok_iff.mp h
    rw [ofOption_eq_ok_iff, ofNat?_eq_some] at hv
    rw [collectFees_ok hm, hv]
  · obtain rfl := pure_eq_ok_iff.mp h
    ext <;> simp; omega

variable {supply' : SupplyLedger}

theorem commitEffects_ok {tree tree' : GlobalTree P} {supply : SupplyLedger} {mint : Nat}
    (h : commitEffects tree supply mint g = .ok (tree', supply')) :
    tree.appendSubtree g.subtree = .ok tree' ∧
      supply' = ⟨supply.cumulativeCoinbase + mint, supply.cumulativeFees + g.totalFees⟩ ∧
      supply'.cumulativeFees ≤ supply'.cumulativeCoinbase := by
  obtain ⟨l₁, h₁, h⟩ := bind_eq_ok_iff.mp h
  obtain ⟨l₂, h₂, h⟩ := bind_eq_ok_iff.mp h
  obtain ⟨t, ht, h⟩ := bind_eq_ok_iff.mp h
  obtain ⟨u, hc, h⟩ := bind_eq_ok_iff.mp h
  obtain ⟨rfl, rfl⟩ := Prod.mk.inj (pure_eq_ok_iff.mp h)
  rw [mapError_eq_ok_iff] at h₁ h₂ ht hc
  obtain rfl := mintTotal_ok h₁
  obtain rfl := collectTotal_ok h₂
  exact ⟨ht, rfl, check_eq_ok.mp hc⟩

variable {coinbase : Option (CoinbaseMint P)} {o : BlockShieldedOutcome P}

theorem applyChainBlockTo_ok {tree tree' : GlobalTree P} {supply : SupplyLedger}
    (h : applyChainBlockTo finalized tree supply coinbase txs = (.ok o, tree', supply')) :
    TransitionSpec finalized tree tree' supply supply' coinbase txs o := by
  have hg : GatherSpec _ (gather finalized coinbase txs) [] txs := gatherTxs_spec _ [] txs
  unfold applyChainBlockTo at h
  cases hc : commitEffects tree supply (totalMint coinbase) (gather finalized coinbase txs) with
  | error e => simp [hc] at h
  | ok r =>
    obtain ⟨t, l⟩ := r
    simp only [hc, Prod.mk.injEq, ok.injEq] at h
    obtain ⟨rfl, rfl, rfl⟩ := h
    obtain ⟨ht, rfl, hpool⟩ := commitEffects_ok hc
    have hfresh := hg.fresh (fresh_new finalized)
    have hnf : (gather finalized coinbase txs).resolver.finalized = finalized := hg.finalized
    refine ⟨?_, ?_, hfresh.nodup, ?_, hg.subtree, ht, rfl, rfl, ?_, hpool⟩
    · simpa [selectTxs] using hg.accepted
    · simpa [Resolver.new] using hg.nullifiers
    · simpa [hnf] using hfresh.not_finalized
    · simpa using hg.totalFees

theorem applyChainBlockTo_accepted_eq {tree tree' : GlobalTree P} {supply : SupplyLedger}
    (h : applyChainBlockTo finalized tree supply coinbase txs = (.ok o, tree', supply')) :
    o.accepted = (gather finalized coinbase txs).accepted := by
  unfold applyChainBlockTo at h
  cases hc : commitEffects tree supply (totalMint coinbase) (gather finalized coinbase txs) with
  | error e => simp [hc] at h
  | ok r =>
    simp only [hc, Prod.mk.injEq, ok.injEq] at h
    obtain ⟨rfl, -⟩ := h
    rfl

theorem applyChainBlockTo_accepted {tree tree' : GlobalTree P} {supply : SupplyLedger}
    (h : applyChainBlockTo finalized tree supply coinbase txs = (.ok o, tree', supply')) :
    ∀ i ∈ o.accepted, i < txs.length := by
  intro i hi
  rw [applyChainBlockTo_accepted_eq h] at hi
  rcases gatherTxs_accepted hi with none | inside
  · cases none
  · omega

/-- A rejected block assigns neither the tree nor the ledger. -/
theorem applyChainBlockTo_error {tree tree' : GlobalTree P} {supply : SupplyLedger} {e : ShieldedStateError}
    (h : applyChainBlockTo finalized tree supply coinbase txs = (.error e, tree', supply')) :
    tree' = tree ∧ supply' = supply := by
  unfold applyChainBlockTo at h
  cases hc : commitEffects tree supply (totalMint coinbase) (gather finalized coinbase txs) with
  | error e' =>
    simp only [hc, Prod.mk.injEq] at h
    exact ⟨h.2.1.symm, h.2.2.symm⟩
  | ok r => simp [hc] at h

end Firecash
