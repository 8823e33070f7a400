import Firecash.Consensus.Types
import Firecash.Shielded.BundleWire

/-!
# Transaction validation in UTXO context

`validate_transaction_in_utxo_context` (virtual_processor/utxo_validation.rs:598) populates a
transaction from a UTXO view, and `validate_populated_transaction_and_get_fee`
(tx_validation_in_utxo_context.rs:64) checks amounts and returns the fee: the bundle's value
balance for a shielded transaction, inputs less outputs otherwise. The checks that read nothing the
model keeps (coinbase maturity, mass commitment, sequence locks, covenants, scripts, the bundle's
proof and signatures) are one parameter `rules`.

A shielded fee is any non-negative `i64`: no rule bounds it (`transactionFee_shielded`). On a view
that holds no value, every transparent fee is zero and the view stays so (`ZeroValued`).
-/

namespace Firecash

open Checked List Option Except

variable {P : Prim}

/-- `MAX_SOMPI` (constants.rs:39) -/
def MAX_SOMPI : Nat := 29000000000 * 100000000

/-- `TxRuleError`: the errors of the modelled checks; `otherRule` stands for the rest. -/
inductive TxRuleError where
  | missingTxOutpoints
  | inputAmountOverflow
  | inputAmountTooHigh
  | spendTooHigh (totalOut totalIn : Nat)
  | invalidShieldedTransaction (msg : String)
  | otherRule
  deriving DecidableEq

/-- `UtxoEntry`: only the amount is read here. -/
structure UtxoEntry where
  amount : UInt64
  deriving DecidableEq

/-- `UtxoView::get` -/
abbrev UtxoView := TransactionOutpoint → Option UtxoEntry

variable (tx : Transaction P)

/-- `check_shielded_in_isolation` (tx_validation_in_isolation.rs:38) -/
def checkShieldedInIsolation : Except TxRuleError Unit :=
  if !tx.isShielded then .ok ()
  else if !tx.inputs.isEmpty then
    .error (.invalidShieldedTransaction "shielded transaction must have no transparent inputs")
  else if !tx.outputs.isEmpty then
    .error (.invalidShieldedTransaction "shielded transaction must have no transparent outputs")
  else
    match tx.bundle with
    | none => .error (.invalidShieldedTransaction "malformed Orchard bundle in payload")
    | some bundle =>
      if bundle.actions.isEmpty then .error (.invalidShieldedTransaction "shielded bundle has no actions")
      else if bundle.actions.length > MAX_ACTIONS_PER_BUNDLE then
        .error (.invalidShieldedTransaction "shielded bundle exceeds the maximum number of actions")
      else .ok ()

/-- `check_transaction_input_amounts`, from a running total. -/
def checkTransactionInputAmounts (total : UInt64) : List UtxoEntry → Except TxRuleError UInt64
  | [] => .ok total
  | entry :: entries =>
    match checkedAdd total entry.amount with
    | none => .error .inputAmountOverflow
    | some newTotal =>
      if newTotal.toNat > MAX_SOMPI then .error .inputAmountTooHigh
      else checkTransactionInputAmounts newTotal entries

/-- The sum of a transaction's output values. Its `u64` sum was checked in isolation. -/
def totalOut : Nat := natSum (tx.outputs.map (·.value))

/-- The fee computation of `validate_populated_transaction_and_get_fee` (:79-88). -/
def transactionFee (totalIn : Nat) : Except TxRuleError UInt64 :=
  if tx.isShielded then
    match tx.bundle with
    | none => .error (.invalidShieldedTransaction "malformed Orchard bundle in payload")
    | some bundle =>
      if bundle.valueBalance < 0 then
        .error (.invalidShieldedTransaction "shielded fee (value balance) must be non-negative")
      else .ok bundle.valueBalance.toUInt64
  else .ok (UInt64.ofNat (totalIn - totalOut tx))

variable (rules : Transaction P → List UtxoEntry → Bool)

/-- `validate_populated_transaction_and_get_fee` -/
def validatePopulatedTransactionAndGetFee (tx : Transaction P)
    (entries : List UtxoEntry) : Except TxRuleError UInt64 := do
  let totalIn ← checkTransactionInputAmounts 0 entries
  if totalIn.toNat < totalOut tx then .error (.spendTooHigh (totalOut tx) totalIn.toNat)
  else
    let fee ← transactionFee tx totalIn.toNat
    if rules tx entries then .ok fee else .error .otherRule

/-- `ValidatedTransaction` -/
structure ValidatedTransaction (P : Prim) where
  tx : Transaction P
  calculatedFee : UInt64

variable (view : UtxoView)

/-- `validate_transaction_in_utxo_context` -/
def validateTransactionInUtxoContext
    (tx : Transaction P) : Except TxRuleError (ValidatedTransaction P) := do
  let entries ← ofOption .missingTxOutpoints (tx.inputs.mapM view)
  let fee ← validatePopulatedTransactionAndGetFee rules tx entries
  pure ⟨tx, fee⟩

/-- `validate_transactions_with_muhash_in_parallel`, of the transactions after the coinbase: those
that pass, in block order. -/
def validateTransactions
    (txs : List (Transaction P)) : List (ValidatedTransaction P) :=
  txs.filterMap fun tx => (validateTransactionInUtxoContext rules view tx).toOption

/-- `UtxoDiff::add_transaction`, seen through the composed view: inputs leave, outputs enter. -/
def UtxoView.addOutputs (id : Hash) (inputs : List TransactionOutpoint)
    (outputs : List TransactionOutput) : UtxoView := fun o =>
  if o.transactionId = id ∧ o.index < outputs.length then outputs[o.index]?.map fun out => ⟨out.value⟩
  else if o ∈ inputs then none
  else view o

def UtxoView.addTransaction (tx : Transaction P) : UtxoView :=
  view.addOutputs tx.id tx.inputs tx.outputs

/-- The shielded effects of a validated transaction (utxo_validation.rs:203-207). -/
def ValidatedTransaction.extract (v : ValidatedTransaction P) : Option (ShieldedTx P) :=
  v.tx.bundle.bind fun bundle => (ShieldedTx.fromBundle bundle).toOption

/-! ## What validation guarantees -/

variable {tx : Transaction P} {totalIn : Nat} {fee : UInt64}

/-- A shielded fee is the bundle's value balance, whatever non-negative number that is. -/
theorem transactionFee_shielded (hs : tx.isShielded = true)
    (h : transactionFee tx totalIn = .ok fee) :
    ∃ bundle, tx.bundle = some bundle ∧ ¬ bundle.valueBalance < 0 ∧ fee = bundle.valueBalance.toUInt64 := by
  simp only [transactionFee, hs, if_true] at h
  cases hb : tx.bundle with
  | none => simp [hb] at h
  | some bundle =>
    simp only [hb] at h
    split at h
    · cases h
    · cases h
      exact ⟨bundle, rfl, ‹_›, rfl⟩

theorem transactionFee_transparent (hs : tx.isShielded = false)
    (h : transactionFee tx totalIn = .ok fee) : fee = UInt64.ofNat (totalIn - totalOut tx) := by
  simp only [transactionFee, hs, Bool.false_eq_true, if_false] at h
  cases h
  rfl

variable {rules : Transaction P → List UtxoEntry → Bool} {view : UtxoView} {v : ValidatedTransaction P}

theorem validated_inv
    (h : validateTransactionInUtxoContext rules view tx = .ok v) :
    v.tx = tx ∧ ∃ entries totalIn, tx.inputs.mapM view = some entries ∧
      checkTransactionInputAmounts 0 entries = .ok totalIn ∧ totalOut tx ≤ totalIn.toNat ∧
      transactionFee tx totalIn.toNat = .ok v.calculatedFee := by
  obtain ⟨entries, he, h⟩ := bind_eq_ok_iff.mp h
  obtain ⟨fee, hf, h⟩ := bind_eq_ok_iff.mp h
  obtain rfl := pure_eq_ok_iff.mp h
  rw [ofOption_eq_ok_iff] at he
  obtain ⟨totalIn, hin, hf⟩ := bind_eq_ok_iff.mp hf
  split at hf
  · cases hf
  case isFalse hle =>
  obtain ⟨fee', hfee, hf⟩ := bind_eq_ok_iff.mp hf
  split at hf
  · cases hf
    exact ⟨rfl, entries, totalIn, he, hin, Nat.le_of_not_lt hle, hfee⟩
  · cases hf

/-- The fee that is accumulated for a shielded transaction is the fee its effects carry. -/
theorem extract_fee
    {stx : ShieldedTx P} (h : validateTransactionInUtxoContext rules view tx = .ok v)
    (hs : v.tx.isShielded = true) (hx : v.extract = some stx) : stx.fee = v.calculatedFee := by
  obtain ⟨rfl, entries, totalIn, -, -, -, hfee⟩ := validated_inv h
  obtain ⟨bundle, hb, hneg, hfee⟩ := transactionFee_shielded hs hfee
  simp only [ValidatedTransaction.extract, hb, bind_some, Except.toOption_eq_some_iff] at hx
  obtain ⟨cmxs, -, hx⟩ := bind_eq_ok_iff.mp hx
  simp only [hneg, if_false] at hx
  obtain rfl := pure_eq_ok_iff.mp hx
  exact hfee.symm

/-! ### Views without value -/

/-- Every unspent output has amount zero: there is no transparent value. -/
def UtxoView.ZeroValued (view : UtxoView) : Prop := ∀ o e, view o = some e → e.amount = 0

theorem mapM_mem {α β : Type} {f : α → Option β} {l : List α} {r : List β} (h : l.mapM f = some r) :
    ∀ b ∈ r, ∃ a ∈ l, f a = some b := by
  induction l generalizing r with
  | nil =>
    simp at h
    simp [h]
  | cons a l ih =>
    simp only [mapM_cons, bind, bind_eq_some_iff, pure, some.injEq] at h
    obtain ⟨b, hb, bs, hbs, rfl⟩ := h
    intro c hc
    rcases mem_cons.mp hc with rfl | hc
    · exact ⟨a, by simp, hb⟩
    · obtain ⟨a', ha', hf⟩ := ih hbs c hc
      exact ⟨a', by simp [ha'], hf⟩

theorem checkTransactionInputAmounts_zero {entries : List UtxoEntry} {totalIn : UInt64}
    (hz : ∀ e ∈ entries, e.amount = 0) (h : checkTransactionInputAmounts 0 entries = .ok totalIn) : totalIn = 0 := by
  induction entries with
  | nil => cases h; rfl
  | cons e es ih =>
    have h0 : checkedAdd 0 e.amount = some 0 := by
      rw [hz e (by simp), checkedAdd_eq_some]
      rfl
    simp only [checkTransactionInputAmounts, h0] at h
    split at h
    · cases h
    · exact ih (fun e' he' => hz e' (by simp [he'])) h

theorem UtxoView.ZeroValued.totals (hz : view.ZeroValued)
    (h : validateTransactionInUtxoContext rules view tx = .ok v) :
    totalOut tx = 0 ∧ (tx.isShielded = false → v.calculatedFee = 0) := by
  obtain ⟨-, entries, totalIn, he, hin, hle, hfee⟩ := validated_inv h
  have hentries : ∀ e ∈ entries, e.amount = 0 := by
    intro e hmem
    obtain ⟨o, -, ho⟩ := mapM_mem he e hmem
    exact hz o e ho
  obtain rfl := checkTransactionInputAmounts_zero hentries hin
  have hout : totalOut tx = 0 := Nat.le_zero.mp hle
  refine ⟨hout, fun hs => ?_⟩
  rw [transactionFee_transparent hs hfee, hout]
  rfl

theorem output_value_le_totalOut {out : TransactionOutput} (h : out ∈ tx.outputs) :
    out.value.toNat ≤ totalOut tx := by
  apply le_sum_of_mem
  simp only [List.map_map, List.mem_map, Function.comp_apply]
  exact ⟨out, h, rfl⟩

theorem UtxoView.ZeroValued.addTransaction (hz : view.ZeroValued) (hout : totalOut tx = 0) :
    (view.addTransaction tx).ZeroValued := by
  intro o e he
  unfold UtxoView.addTransaction UtxoView.addOutputs at he
  split at he
  · cases hg : tx.outputs[o.index]? with
    | none => simp [hg] at he
    | some out =>
      simp only [hg, map_some, some.injEq] at he
      have hle := output_value_le_totalOut (mem_of_getElem? hg)
      rw [hout] at hle
      rw [← he]
      exact UInt64.toNat_inj.mp (Nat.le_zero.mp hle)
  · split at he
    · cases he
    · exact hz o e he

end Firecash
