import Firecash.Shielded.State

/-!
# Runs of the in-memory shielded state

`ShieldedState` is the reference that the persisted stores mirror. Here it is run: any sequence of
`apply_chain_block` calls from the genesis state, failing ones included. The log of the calls and
their results determines the state (`RunInv`): the nullifier set is the accepted transactions'
nullifiers, which never repeat, the tree is the accepted leaves in order, and the pool holds what
was minted less the accepted fees.
-/

namespace Firecash

open Checked

variable {P : Prim}

/-- The arguments of one `apply_chain_block` call. -/
structure Call (P : Prim) where
  coinbase : Option (CoinbaseMint P)
  txs : List (ShieldedTx P)

/-- A call and what it returned. -/
abbrev Entry (P : Prim) := Call P × Except ShieldedStateError (BlockShieldedOutcome P)

/-- The transactions a call accepted: none if it failed. -/
def acceptedTxs : Entry P → List (ShieldedTx P)
  | (c, .ok o) => selectTxs c.txs o.accepted
  | (_, .error _) => []

/-- The notes a call minted: none if it failed. -/
def acceptedNotes : Entry P → List (CoinbaseNote P)
  | (c, .ok _) => mintedNotes c.coinbase
  | (_, .error _) => []

/-- The leaves a call appended: its coinbase notes, then its accepted transactions' commitments. -/
def appendedLeaves (e : Entry P) : List P.Cmx :=
  (acceptedNotes e).map (·.commitment) ++ txCommitments (acceptedTxs e)

variable (log : List (Entry P))

/-- Nullifiers of every transaction accepted in the run. -/
def runNullifiers : List NullifierBytes := txNullifiers (log.flatMap acceptedTxs)

def runLeaves : List P.Cmx := log.flatMap appendedLeaves

def runMinted : Nat := natSum ((log.flatMap acceptedNotes).map (·.value))

def runFees : Nat := txFees (log.flatMap acceptedTxs)

namespace ShieldedState

/-- A sequence of calls, with the log of what each returned. -/
def runCalls (st : ShieldedState P) : List (Call P) → ShieldedState P × List (Entry P)
  | [] => (st, [])
  | c :: cs =>
    let (result, st') := st.applyChainBlock c.coinbase c.txs
    let (st'', log) := st'.runCalls cs
    (st'', (c, result) :: log)

/-- The state is determined by the log. -/
structure RunInv (st : ShieldedState P) (log : List (Entry P)) : Prop where
  nodup : (runNullifiers log).Nodup
  nullifiers : st.nullifiers = (runNullifiers log).toFinset
  tree : GlobalTree.ofLeaves (runLeaves log) = .ok st.tree
  coinbase : st.supply.cumulativeCoinbase = runMinted log
  fees : st.supply.cumulativeFees = runFees log
  pool : st.supply.cumulativeFees ≤ st.supply.cumulativeCoinbase

theorem runInv_new : RunInv (new : ShieldedState P) [] :=
  ⟨List.nodup_nil, rfl, rfl, rfl, rfl, Nat.le_refl 0⟩

variable {st : ShieldedState P} {coinbase : Option (CoinbaseMint P)} {txs : List (ShieldedTx P)}

theorem applyChainBlock_error {st' : ShieldedState P}
    {e : ShieldedStateError} (h : st.applyChainBlock coinbase txs = (.error e, st')) :
    st' = st := by
  unfold applyChainBlock at h
  rcases ha : applyChainBlockTo (fun nf => decide (nf ∈ st.nullifiers)) st.tree st.supply coinbase txs with
    ⟨e' | o, tree, supply⟩
  · obtain ⟨rfl, rfl⟩ := applyChainBlockTo_error ha
    simp only [ha, Prod.mk.injEq] at h
    exact h.2.symm
  · simp [ha] at h

variable {o : BlockShieldedOutcome P}

/-- A successful call is a transition that also extends the nullifier set. -/
theorem applyChainBlock_ok {st' : ShieldedState P}
    (h : st.applyChainBlock coinbase txs = (.ok o, st')) :
    TransitionSpec (fun nf => decide (nf ∈ st.nullifiers)) st.tree st'.tree st.supply st'.supply coinbase txs o ∧
      st'.nullifiers = st.nullifiers ∪ o.newNullifiers.toFinset := by
  unfold applyChainBlock at h
  rcases ha : applyChainBlockTo (fun nf => decide (nf ∈ st.nullifiers)) st.tree st.supply coinbase txs with
    ⟨e' | o', tree, supply⟩
  · simp [ha] at h
  · simp only [ha, Prod.mk.injEq, Except.ok.injEq] at h
    obtain ⟨rfl, rfl⟩ := h
    exact ⟨applyChainBlockTo_ok ha, MemNullifierSet.extend_eq _ _⟩

variable {log : List (Entry P)}

theorem RunInv.snoc_error (hi : RunInv st log) (c : Call P)
    (e : ShieldedStateError) : RunInv st (log ++ [(c, .error e)]) := by
  have hnf : runNullifiers (log ++ [(c, .error e)]) = runNullifiers log := by simp [runNullifiers, acceptedTxs]
  have hleaves : runLeaves (log ++ [(c, .error e)]) = runLeaves log := by
    simp [runLeaves, appendedLeaves, acceptedNotes, acceptedTxs, txCommitments]
  have hmint : runMinted (log ++ [(c, .error e)]) = runMinted log := by simp [runMinted, acceptedNotes]
  have hfees : runFees (log ++ [(c, .error e)]) = runFees log := by simp [runFees, acceptedTxs]
  exact ⟨hnf ▸ hi.nodup, hnf ▸ hi.nullifiers, hleaves ▸ hi.tree, hmint ▸ hi.coinbase, hfees ▸ hi.fees, hi.pool⟩

theorem RunInv.snoc_ok {st' : ShieldedState P} (hi : RunInv st log) {c : Call P}
    (h : st.applyChainBlock c.coinbase c.txs = (.ok o, st')) :
    RunInv st' (log ++ [(c, .ok o)]) := by
  obtain ⟨hs, hset⟩ := applyChainBlock_ok h
  have hnf : runNullifiers (log ++ [(c, .ok o)]) = runNullifiers log ++ o.newNullifiers := by
    simp [runNullifiers, acceptedTxs, txNullifiers, hs.accepted, hs.nullifiers]
  have hleaves : runLeaves (log ++ [(c, .ok o)]) = runLeaves log ++ o.subtree := by
    simp [runLeaves, appendedLeaves, acceptedNotes, acceptedTxs, hs.accepted, hs.subtree]
  refine ⟨?_, ?_, ?_, ?_, ?_, hs.pool⟩
  · rw [hnf, List.nodup_append]
    refine ⟨hi.nodup, hs.nodup, ?_⟩
    rintro a ha b hb rfl
    have hfresh := hs.not_finalized a hb
    rw [hi.nullifiers] at hfresh
    simp [ha] at hfresh
  · rw [hset, hi.nullifiers, hnf, List.toFinset_append]
  · rw [hleaves]
    exact GlobalTree.appendSubtree_ofLeaves hi.tree hs.tree
  · rw [hs.coinbase, hi.coinbase]
    simp [runMinted, acceptedNotes, totalMint]
  · rw [hs.fees, hi.fees]
    simp [runFees, acceptedTxs, txFees, hs.accepted]

theorem RunInv.applyChainBlock (hi : RunInv st log) (c : Call P) :
    RunInv (st.applyChainBlock c.coinbase c.txs).2 (log ++ [(c, (st.applyChainBlock c.coinbase c.txs).1)]) := by
  rcases h : st.applyChainBlock c.coinbase c.txs with ⟨e | o, st'⟩
  · obtain rfl := applyChainBlock_error h
    exact hi.snoc_error c e
  · exact hi.snoc_ok h

theorem RunInv.runCalls (hi : RunInv st log) (calls : List (Call P)) :
    RunInv (st.runCalls calls).1 (log ++ (st.runCalls calls).2) := by
  induction calls generalizing st log with
  | nil => simpa [ShieldedState.runCalls] using hi
  | cons c cs ih => simpa [ShieldedState.runCalls] using ih (hi.applyChainBlock c)

/-- **The state after any run is exactly what its accepted transactions say.** The accepted
nullifiers never repeat and are the nullifier set; the tree is the coinbase and accepted leaves,
block by block; the pool value is defined and is minted less fees; and a call that fails next
leaves all three parts of the state as they are. -/
theorem runCalls_exact (calls : List (Call P)) :
    let st := ((new : ShieldedState P).runCalls calls).1
    let log := ((new : ShieldedState P).runCalls calls).2
    ((runNullifiers log).Nodup ∧ ∀ nf, nf ∈ st.nullifiers ↔ nf ∈ runNullifiers log) ∧
      (GlobalTree.ofLeaves (runLeaves log) = .ok st.tree ∧ st.tree.size = (runLeaves log).length) ∧
      (st.supply.poolValue = .ok (runMinted log - runFees log) ∧ runFees log ≤ runMinted log) ∧
      ∀ (coinbase : Option (CoinbaseMint P)) (txs : List (ShieldedTx P)) (e : ShieldedStateError),
        (st.applyChainBlock coinbase txs).1 = .error e → (st.applyChainBlock coinbase txs).2 = st := by
  intro st log
  have hi : RunInv st log := runInv_new.runCalls calls
  refine ⟨⟨hi.nodup, ?_⟩, ⟨hi.tree, GlobalTree.ofLeaves_size hi.tree⟩, ⟨?_, ?_⟩, ?_⟩
  · intro nf
    rw [hi.nullifiers, List.mem_toFinset]
  · have hpool := hi.pool
    rw [SupplyLedger.poolValue_eq_ok, hi.coinbase, hi.fees]
    rw [hi.coinbase, hi.fees] at hpool
    omega
  · rw [← hi.fees, ← hi.coinbase]
    exact hi.pool
  · intro coinbase txs e he
    rcases h : st.applyChainBlock coinbase txs with ⟨r, st'⟩
    rw [h] at he
    obtain rfl : r = .error e := he
    exact applyChainBlock_error h

end ShieldedState

end Firecash
