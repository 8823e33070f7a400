import Firecash.Gateway.Finality
import Firecash.Wallet.Income

/-!
# From the wallet's rows to the invoices (gateway/service/src/main.rs:198)

`poll_wallet` reads the wallet's history again and again and passes every received row to
`observe_payment`. The gateway counts a transaction once per invoice, so neither the order nor the
repetitions matter (`Ledger.feeds`): an invoice ends with the total of the receipts that name its
address.

The wallet, however, makes one receipt of a transaction and names the first note's recipient. What
the notes of a transaction pay to a second invoice is credited to the first. The totals are right
for transactions all of whose notes go to one address (`invoices_credited`); a transaction that pays
two invoices is `paid_to_the_first`.

The text forms in which the row travels (address, hex txid, decimal amount) are left out: `pollRow`
takes the row itself.
-/

namespace Firecash

open Checked List Option WalletDb

variable {P : Prim} {W : WalletPrim P}

/-- The arguments `poll_wallet` takes from a row: the DAA score stands for the blue score. -/
def pollRow (row : HistoryEntry) (tipDaa now : Nat) : Option Observation :=
  if row.kind = .received then
    row.recipient.map fun recipient =>
      ⟨recipient, row.txid, row.amount.toNat, row.daaScore.toNat, row.daaScore.toNat, tipDaa, now⟩
  else none

def GatewayCall.IsCreate : GatewayCall → Prop
  | .create .. => True
  | .observe .. | .advance .. => False

/-- The calls of `poll_wallet`: rows of the history are observed, and all invoices advanced. -/
def GatewayCall.Polls (history : List HistoryEntry) : GatewayCall → Prop
  | .create .. => False
  | .observe o _ => ∃ row ∈ history, pollRow row o.sinkBlueScore o.observedAt = some o
  | .advance .. => True

def Gateway.calls (K : MerchantKeys) (G : Gateway) (cs : List GatewayCall) : Gateway := cs.foldl (Gateway.call K) G

/-- What an observed row says. -/
def Observation.Of (o : Observation) (r : Receipt) : Prop :=
  o.recipient = r.recipient ∧ o.transactionId = r.txid ∧ o.amountSompi = r.amount.toNat

variable {o : Observation}

theorem pollRow_of {row : HistoryEntry} {tipDaa now : Nat} (h : pollRow row tipDaa now = some o) :
    ∃ r, row.receipt = some r ∧ o.Of r := by
  unfold pollRow at h
  split at h
  case isTrue hkind =>
    obtain ⟨recipient, hrecipient, rfl⟩ := map_eq_some_iff.mp h
    refine ⟨⟨recipient, row.txid, row.amount⟩, ?_, rfl, rfl, rfl⟩
    rw [HistoryEntry.receipt, if_pos hkind, hrecipient]
    rfl
  case isFalse => cases h

/-! ## The gateway's totals -/

/-- Diversifier indices give different addresses. -/
def MerchantKeys.Distinct (K : MerchantKeys) : Prop :=
  ∀ i j, i < 4294967296 → j < 4294967296 → K.addressAt i = K.addressAt j → i = j

/-- The invoices and their addresses. -/
structure Gateway.Addressed (K : MerchantKeys) (G : Gateway) : Prop where
  unique : G.UniqueIds
  next_lt : G.nextDiversifier < 4294967296
  index_lt : ∀ i ∈ G.invoices, i.diversifierIndex < G.nextDiversifier
  byAddress : ∀ a id, G.byAddress a = some id ↔ ∃ i ∈ G.invoices, i.id = id ∧ K.addressAt i.diversifierIndex = a

variable {G : Gateway} {id : String}

theorem Gateway.Addressed.createInvoice {K : MerchantKeys} (keys : K.Distinct) (h : G.Addressed K)
    (request : CreateInvoice) (fresh : ∀ i ∈ G.invoices, i.id ≠ id) :
    (G.createInvoice K request id).2.Addressed K := by
  have unique := h.unique.createInvoice K request id
  rcases G.createInvoice_cases K request id with ⟨next, hnext, heq⟩ | ⟨invoice, idem, hnext, hid, hindex,
    -, -, -, -, heq⟩
  · rw [heq] at unique ⊢
    have := h.next_lt
    refine ⟨unique, ?_, fun i hi => ?_, h.byAddress⟩
    · show next < _
      omega
    · have := h.index_lt i hi
      show _ < next
      omega
  · have kept : G.invoices.filter (·.id ≠ id) = G.invoices :=
      filter_eq_self.mpr fun i hi => decide_eq_true (fresh i hi)
    rw [heq] at unique ⊢
    rw [kept] at unique ⊢
    refine ⟨unique, hnext, fun i hi => ?_, fun a id' => ?_⟩
    · rcases mem_cons.mp hi with rfl | hi
      · rw [hindex]
        exact Nat.lt_succ_self _
      · exact Nat.lt_succ_of_lt (h.index_lt i hi)
    · show Function.update G.byAddress (K.addressAt G.nextDiversifier) (some id) a = some id' ↔ _
      by_cases ha : a = K.addressAt G.nextDiversifier
      · -- no earlier invoice has the new address
        subst ha
        rw [Function.update_self]
        constructor
        · intro h
          exact ⟨invoice, mem_cons_self, hid.trans (some.inj h), by rw [hindex]⟩
        · rintro ⟨i, hi, rfl, haddr⟩
          rcases mem_cons.mp hi with rfl | hi
          · rw [hid]
          · have hlt := h.index_lt i hi
            have heq := keys _ _ (hlt.trans h.next_lt) h.next_lt haddr
            omega
      · rw [Function.update_of_ne ha, h.byAddress]
        constructor
        · rintro ⟨i, hi, hid', haddr⟩
          exact ⟨i, mem_cons_of_mem _ hi, hid', haddr⟩
        · rintro ⟨i, hi, hid', haddr⟩
          rcases mem_cons.mp hi with rfl | hi
          · rw [hindex] at haddr
            exact absurd haddr.symm ha
          · exact ⟨i, hi, hid', haddr⟩

/-- The invoices before anything is observed. -/
structure Gateway.Unpaid (K : MerchantKeys) (G : Gateway) : Prop where
  addressed : G.Addressed K
  seen : G.seenTransactions = ∅
  paid : ∀ i ∈ G.invoices, i.paidSompi = 0

theorem Gateway.Reached.unpaid {K : MerchantKeys} (keys : K.Distinct)
    (run : G.Reached K fun _ c => c.IsCreate) : G.Unpaid K := by
  induction run with
  | new publicUrl =>
    refine ⟨⟨nodup_nil, by show 1 < _; decide, fun _ h => (nomatch h), fun a id => ?_⟩, rfl, fun _ h => (nomatch h)⟩
    exact ⟨fun h => (nomatch h), fun ⟨_, h, _⟩ => (nomatch h)⟩
  | @call G run c fresh ok ih =>
    cases c with
    | create request id =>
      refine ⟨ih.addressed.createInvoice keys request fresh, ?_, fun i hi => ?_⟩
      · show (G.createInvoice K request id).2.seenTransactions = ∅
        rcases G.createInvoice_cases K request id with ⟨next, -, heq⟩ | ⟨invoice, idem, -, -, -, -, -, -, -, heq⟩ <;>
        · rw [heq]
          exact ih.seen
      · cases Gateway.createInvoice_step hi with
        | created id_eq amount_ne paid => exact paid
        | same mem => exact ih.paid _ mem
    | observe o eventId => exact ok.elim
    | advance now sink eventId => exact ok.elim

/-! ## Feeding receipts -/

variable (rs : List Receipt)

/-- What an invoice is credited of the receipts whose pair was seen. -/
def creditedOf (seen : Finset (Bytes32 × String)) (address : AddressBytes) (id : String) : Nat :=
  (rs.map fun r => if r.recipient = address ∧ (r.txid, id) ∈ seen then r.amount.toNat else 0).sum

/-- What the receipts pay to an address. -/
def receivedAt (address : AddressBytes) : Nat :=
  (rs.map fun r => if r.recipient = address then r.amount.toNat else 0).sum

theorem creditedOf_le (seen : Finset (Bytes32 × String)) (address : AddressBytes) (id : String) :
    creditedOf rs seen address id ≤ receivedAt rs address := by
  refine sum_le_sum fun r _ => ?_
  split
  case isTrue h => rw [if_pos h.1]
  case isFalse => exact Nat.zero_le _

variable {rs : List Receipt} {seen : Finset (Bytes32 × String)}

theorem creditedOf_eq {address : AddressBytes}
    (h : ∀ r ∈ rs, r.recipient = address → (r.txid, id) ∈ seen) :
    creditedOf rs seen address id = receivedAt rs address := by
  refine congrArg sum (map_congr_left fun r hr => ?_)
  by_cases ha : r.recipient = address
  · rw [if_pos ⟨ha, h r hr ha⟩, if_pos ha]
  · rw [if_neg fun h => ha h.1, if_neg ha]

variable {r : Receipt}

theorem creditedOf_insert (nodup : (rs.map (·.txid)).Nodup)
    (hr : r ∈ rs) (unseen : (r.txid, id) ∉ seen) :
    creditedOf rs (insert (r.txid, id) seen) r.recipient id = creditedOf rs seen r.recipient id + r.amount.toNat := by
  have other : ∀ s : Receipt, s.txid ≠ r.txid →
      (if s.recipient = r.recipient ∧ (s.txid, id) ∈ insert (r.txid, id) seen then s.amount.toNat else 0) =
        if s.recipient = r.recipient ∧ (s.txid, id) ∈ seen then s.amount.toNat else 0 := by
    intro s hne
    simp [hne]
  unfold creditedOf
  induction rs with
  | nil => exact nomatch hr
  | cons s rs ih =>
    rw [map_cons, nodup_cons] at nodup
    rw [map_cons, map_cons, sum_cons, sum_cons]
    rcases mem_cons.mp hr with rfl | hr
    · -- no later receipt has this transaction
      rw [map_congr_left fun s hs => other s fun h => nodup.1 (h ▸ mem_map_of_mem hs),
        if_pos ⟨rfl, Finset.mem_insert_self _ _⟩, if_neg fun h => unseen h.2]
      omega
    · rw [ih nodup.2 hr, other s fun h => nodup.1 (h ▸ mem_map_of_mem hr)]
      omega

theorem creditedOf_insert_ne (rs : List Receipt) (seen : Finset (Bytes32 × String)) (address : AddressBytes)
    {id' : String} (hne : id' ≠ id) (txid : Bytes32) :
    creditedOf rs (insert (txid, id) seen) address id' = creditedOf rs seen address id' := by
  refine congrArg sum (map_congr_left fun r _ => ?_)
  simp [hne]

/-- The gateway's totals are those of the receipts it has seen. -/
structure Gateway.Ledger (K : MerchantKeys) (rs : List Receipt) (G : Gateway) : Prop where
  addressed : G.Addressed K
  paid : ∀ i ∈ G.invoices, i.paidSompi = creditedOf rs G.seenTransactions (K.addressAt i.diversifierIndex) i.id

theorem Gateway.Unpaid.ledger {K : MerchantKeys} (h : G.Unpaid K) (rs : List Receipt) : G.Ledger K rs := by
  refine ⟨h.addressed, fun i hi => ?_⟩
  rw [h.paid i hi, h.seen]
  simp [creditedOf]

theorem Gateway.Addressed.of_map {K : MerchantKeys} {G' : Gateway} (h : G.Addressed K) {f : Invoice → Invoice}
    (invoices : G'.invoices = G.invoices.map f) (next : G'.nextDiversifier = G.nextDiversifier)
    (byAddress : G'.byAddress = G.byAddress)
    (same : ∀ i, (f i).id = i.id ∧ (f i).diversifierIndex = i.diversifierIndex) : G'.Addressed K where
  unique := by
    have hid : (fun i : Invoice => i.id) ∘ f = fun i => i.id := funext fun i => (same i).1
    rw [UniqueIds, invoices, List.map_map, hid]
    exact h.unique
  next_lt := next ▸ h.next_lt
  index_lt i hi := by
    rw [invoices] at hi
    obtain ⟨j, hj, rfl⟩ := mem_map.mp hi
    rw [next, (same j).2]
    exact h.index_lt j hj
  byAddress a id := by
    rw [byAddress, h.byAddress, invoices]
    constructor
    · rintro ⟨i, hi, hid, ha⟩
      exact ⟨f i, mem_map_of_mem hi, (same i).1.trans hid, by rw [(same i).2, ha]⟩
    · rintro ⟨i, hi, hid, ha⟩
      obtain ⟨j, hj, rfl⟩ := mem_map.mp hi
      exact ⟨j, hj, (same j).1.symm.trans hid, by rw [← (same j).2, ha]⟩

theorem Invoice.advance_fields (now sink : Nat) (i : Invoice) :
    (i.advance now sink).diversifierIndex = i.diversifierIndex ∧ (i.advance now sink).paidSompi = i.paidSompi := by
  unfold Invoice.advance
  split
  · exact ⟨rfl, rfl⟩
  split <;> exact ⟨rfl, rfl⟩

/-- What feeding keeps: the ledger, the addresses, and what was seen. -/
structure Gateway.Fed (K : MerchantKeys) (rs : List Receipt) (G G' : Gateway) : Prop where
  ledger : G'.Ledger K rs
  byAddress : G'.byAddress = G.byAddress
  seen : G.seenTransactions ⊆ G'.seenTransactions

theorem Gateway.Ledger.advance {K : MerchantKeys} {rs : List Receipt} {G : Gateway} (h : G.Ledger K rs) (now sink : Nat)
    (eventId : String → String) : G.Fed K rs (G.advance now sink eventId).2 := by
  refine ⟨⟨?_, fun i hi => ?_⟩, rfl, Finset.Subset.refl _⟩
  · exact h.addressed.of_map rfl rfl rfl fun i => ⟨i.advance_id now sink, (i.advance_fields now sink).1⟩
  · obtain ⟨j, hj, rfl⟩ := mem_map.mp hi
    rw [(j.advance_fields now sink).1, (j.advance_fields now sink).2, j.advance_id]
    exact h.paid j hj

theorem Gateway.observePayment_credits (h : G.Credits o id) (eventId : String) :
    (G.observePayment o eventId).2 =
      { G with seenTransactions := insert (o.transactionId, id) G.seenTransactions }.modify id (·.credit o) := by
  rcases G.observePayment_cases o eventId with ⟨id', hcr, heq⟩ | ⟨hnot, -⟩
  · cases some.inj (hcr.1.symm.trans h.1)
    exact heq
  · exact absurd h (hnot id)

/-- The receipts of every invoice fit in a `u64`. -/
def Gateway.Fits (rs : List Receipt) (G : Gateway) : Prop :=
  ∀ a, (G.byAddress a).isSome → receivedAt rs a < U64_BOUND

section

variable {K : MerchantKeys} (h : G.Ledger K rs) (nodup : (rs.map (·.txid)).Nodup) (fits : G.Fits rs)
include h nodup fits

/-- An observed receipt is credited to the invoice of its recipient, once. -/
theorem Gateway.Ledger.observe (hr : r ∈ rs) (ho : o.Of r)
    (eventId : String) :
    G.Fed K rs (G.observePayment o eventId).2 ∧
      ∀ id, G.byAddress r.recipient = some id → (r.txid, id) ∈ (G.observePayment o eventId).2.seenTransactions := by
  obtain ⟨hrecipient, htxid, hamount⟩ := ho
  cases ha : G.byAddress r.recipient with
  | none =>
    have same : (G.observePayment o eventId).2 = G := by simp [observePayment, hrecipient, ha]
    rw [same]
    exact ⟨⟨h, rfl, Finset.Subset.refl _⟩, fun id hid => by cases hid⟩
  | some id =>
    by_cases hseen : (r.txid, id) ∈ G.seenTransactions
    · have same : (G.observePayment o eventId).2 = G := by simp [observePayment, hrecipient, htxid, ha, hseen]
      rw [same]
      exact ⟨⟨h, rfl, Finset.Subset.refl _⟩, fun id' hid => some.inj hid ▸ hseen⟩
    obtain ⟨i, hi, rfl, haddr⟩ := (h.addressed.byAddress _ _).mp ha
    have sum := creditedOf_insert nodup hr hseen
    have hfits : creditedOf rs (insert (r.txid, i.id) G.seenTransactions) r.recipient i.id < U64_BOUND :=
      (creditedOf_le ..).trans_lt (fits _ (by rw [ha]; rfl))
    have hpaid := h.paid i hi
    rw [haddr] at hpaid
    obtain ⟨j, hj⟩ := G.exists_invoice hi
    obtain ⟨hjmem, hjid⟩ := Gateway.invoice_eq_some hj
    cases h.addressed.unique.eq hjmem hi hjid
    have credits : G.Credits o i.id := ⟨by rw [hrecipient, ha], by rwa [htxid], i, hj, by omega⟩
    rw [observePayment_credits credits, htxid]
    refine ⟨⟨⟨?_, fun k' hk' => ?_⟩, rfl, Finset.subset_insert _ _⟩, fun id hid => ?_⟩
    · refine h.addressed.of_map rfl rfl rfl fun k => ?_
      split <;> exact ⟨rfl, rfl⟩
    · obtain ⟨k, hk, rfl⟩ := mem_map.mp hk'
      split
      case isTrue hkid =>
        cases h.addressed.unique.eq hk hi hkid
        show i.paidSompi + o.amountSompi = creditedOf rs (insert _ _) (K.addressAt i.diversifierIndex) i.id
        rw [haddr, sum]
        omega
      case isFalse hkid =>
        show k.paidSompi = creditedOf rs (insert _ _) _ _
        rw [creditedOf_insert_ne _ _ _ hkid]
        exact h.paid k hk
    · cases hid
      exact Finset.mem_insert_self _ _

/-- Rows fed in any order and any number of times, with `advance` in between. -/
theorem Gateway.Ledger.feeds {cs : List GatewayCall}
    (fed : ∀ c ∈ cs, (∃ now sink eventId, c = .advance now sink eventId) ∨ ∃ o eventId, c = .observe o eventId ∧
      ∃ r ∈ rs, o.Of r) :
    G.Fed K rs (G.calls K cs) ∧
      ∀ o eventId, .observe o eventId ∈ cs → ∀ r, o.Of r → ∀ id, G.byAddress r.recipient = some id →
        (r.txid, id) ∈ (G.calls K cs).seenTransactions := by
  induction cs generalizing G with
  | nil => exact ⟨⟨h, rfl, Finset.Subset.refl _⟩, fun o eventId ho => nomatch ho⟩
  | cons c cs ih =>
    rw [show G.calls K (c :: cs) = (G.call K c).calls K cs from rfl]
    have step : G.Fed K rs (G.call K c) ∧ ∀ o eventId, c = .observe o eventId → ∀ r, o.Of r → ∀ id,
        G.byAddress r.recipient = some id → (r.txid, id) ∈ (G.call K c).seenTransactions := by
      rcases fed c mem_cons_self with ⟨now, sink, eventId, rfl⟩ | ⟨o, eventId, rfl, r, hr, ho⟩
      · exact ⟨h.advance now sink eventId, fun o e he => nomatch he⟩
      · obtain ⟨hfed, hseen⟩ := h.observe nodup fits hr ho eventId
        refine ⟨hfed, fun o' e' he r' ho' id hid => ?_⟩
        cases he
        rw [← ho'.1, ho.1] at hid
        rw [← ho'.2.1, ho.2.1]
        exact hseen id hid
    obtain ⟨hstep, hseen⟩ := step
    obtain ⟨hrest, hlater⟩ := ih hstep.ledger (fun a ha => fits a (by rwa [hstep.byAddress] at ha))
      fun c hc => fed c (mem_cons_of_mem _ hc)
    refine ⟨⟨hrest.ledger, hrest.byAddress.trans hstep.byAddress, hstep.seen.trans hrest.seen⟩, ?_⟩
    intro o eventId ho r hof id hid
    rcases mem_cons.mp ho with rfl | ho
    · exact hrest.seen (hseen o eventId rfl r hof id hid)
    · exact hlater o eventId ho r hof id (by rwa [hstep.byAddress])

end

/-! ## What was sent -/

/-- What notes pay to an address. -/
def notesTo (address : AddressBytes) (received : List (ReceivedNote W)) : Nat :=
  natSum ((received.filter fun r => W.noteRecipient r.note = address).map fun r => W.noteValue r.note)

/-- What a block pays to an address, in its coinbase and in its transactions. -/
def WalletBlock.paidTo (fvk : W.Fvk) (address : AddressBytes) (block : WalletBlock P) : Nat :=
  natSum (((block.coinbase W).filter fun n => n.1.recipient = address).map fun n => n.2.1) +
    ((block.txs fvk).map fun tx => notesTo address tx.2).sum

/-- All notes of some value go where the first one goes. -/
def OneRecipient (received : List (ReceivedNote W)) : Prop :=
  ∀ r ∈ received, W.noteValue r.note ≠ 0 → received.head?.map (fun r => W.noteRecipient r.note) =
    some (W.noteRecipient r.note)

/-- The receipt of a transaction to one recipient pays each address what its notes do. -/
theorem receivedAt_receiptOf {received : List (ReceivedNote W)} (one : OneRecipient received)
    (fits : natSum (received.map fun r => W.noteValue r.note) < U64_BOUND) (txid : Bytes32) (address : AddressBytes) :
    receivedAt (receiptOf txid received).toList address = notesTo address received := by
  obtain ⟨value, hvalue⟩ : ∃ v, receivedValue received = some v := exists_checkedSum fits
  have total := checkedSum_eq_some.mp hvalue
  rw [receiptOf_eq hvalue]
  by_cases hzero : value = 0
  · rw [if_pos hzero]
    subst hzero
    have hall := natSum_eq_zero_iff.mp total.symm
    have none : natSum ((received.filter fun r => W.noteRecipient r.note = address).map fun r =>
        W.noteValue r.note) = 0 := by
      rw [natSum_eq_zero_iff]
      intro v hv
      obtain ⟨r, hr, rfl⟩ := mem_map.mp hv
      exact hall _ (mem_map_of_mem (mem_of_mem_filter hr))
    exact none.symm
  · rw [if_neg hzero]
    cases received with
    | nil =>
      have : value.toNat = (0 : UInt64).toNat := total
      exact absurd (UInt64.toNat_inj.mp this) hzero
    | cons r₀ rest =>
      show receivedAt [⟨W.noteRecipient r₀.note, txid, value⟩] address = _
      simp only [receivedAt, map_cons, map_nil, sum_cons, sum_nil, Nat.add_zero]
      unfold notesTo
      split
      case isTrue haddr =>
        rw [total]
        refine (natSum_filter_of_zero fun r hr hne => ?_).symm
        by_contra hvalue
        have := some.inj (one r hr hvalue)
        exact absurd (this.symm.trans haddr) (of_decide_eq_false hne)
      case isFalse haddr =>
        symm
        rw [natSum_eq_zero_iff]
        intro v hv
        obtain ⟨r, hr, rfl⟩ := mem_map.mp hv
        obtain ⟨hr, heq⟩ := mem_filter.mp hr
        by_contra hvalue
        have := some.inj (one r hr hvalue)
        exact haddr (this.trans (of_decide_eq_true heq))

theorem receivedAt_append (rs rs' : List Receipt) (address : AddressBytes) :
    receivedAt (rs ++ rs') address = receivedAt rs address + receivedAt rs' address := by
  simp [receivedAt]

/-- The receipts of transactions that each pay one recipient. -/
theorem receivedAt_income {income : List (Bytes32 × List (ReceivedNote W))} (one : ∀ tx ∈ income, OneRecipient tx.2)
    (fits : ∀ tx ∈ income, natSum (tx.2.map fun r => W.noteValue r.note) < U64_BOUND) (address : AddressBytes) :
    receivedAt (income.filterMap fun tx => receiptOf tx.1 tx.2) address =
      (income.map fun tx => notesTo address tx.2).sum := by
  induction income with
  | nil => rfl
  | cons tx income ih =>
    have first := receivedAt_receiptOf (one tx mem_cons_self) (fits tx mem_cons_self) tx.1 address
    have rest := ih (fun tx h => one tx (mem_cons_of_mem _ h)) fun tx h => fits tx (mem_cons_of_mem _ h)
    have split : (tx :: income).filterMap (fun tx => receiptOf tx.1 tx.2) =
        (receiptOf tx.1 tx.2).toList ++ income.filterMap fun tx => receiptOf tx.1 tx.2 := by
      rw [filterMap_cons]
      cases receiptOf tx.1 tx.2 <;> rfl
    rw [split, receivedAt_append, first, rest, map_cons, sum_cons]

/-- A merchant's invoices and wallet: transactions of others are ingested once with their history rows,
and every received row is observed at least once. -/
structure MerchantRun (K : MerchantKeys) (G₀ : Gateway) (db₀ db : WalletDb W)
    (blocks : List (WalletBlock P × BlockMeta)) (calls : List GatewayCall) : Prop where
  keys : K.Distinct
  created : G₀.Reached K fun _ c => c.IsCreate
  enabled : db₀.historyEnabled = true
  new : db₀.receipts = []
  accepts : db₀.Accepts blocks
  identified : ∀ b ∈ blocks, b.2.txids.length = (b.1.txs db₀.fvk).length
  txids_nodup : (blocks.flatMap (·.2.txids)).Nodup
  ingested : db₀.ingestAll blocks = some db
  polls : ∀ c ∈ calls, c.Polls db.history
  observed : ∀ row ∈ db.history, row.receipt.isSome → ∃ o eventId, .observe o eventId ∈ calls ∧
    pollRow row o.sinkBlueScore o.observedAt = some o
  tx_fits : ∀ b ∈ blocks, ∀ tx ∈ b.1.txs db₀.fvk, natSum (tx.2.map fun r => W.noteValue r.note) < U64_BOUND
  fits : ∀ i ∈ G₀.invoices, (blocks.map fun b => b.1.paidTo db₀.fvk (K.addressAt i.diversifierIndex)).sum < U64_BOUND

/-- Every invoice has what was sent to its address. -/
def Credited (K : MerchantKeys) (fvk : W.Fvk) (blocks : List (WalletBlock P × BlockMeta)) (G : Gateway) : Prop :=
  ∀ i ∈ G.invoices, i.paidSompi = (blocks.map fun b => b.1.paidTo fvk (K.addressAt i.diversifierIndex)).sum

/-- No transaction pays two addresses, no coinbase pays an invoice, and the history has room for the rows
of the wallet. -/
structure Attributable (K : MerchantKeys) (G₀ : Gateway) (db₀ : WalletDb W)
    (blocks : List (WalletBlock P × BlockMeta)) : Prop where
  one : ∀ b ∈ blocks, ∀ tx ∈ b.1.txs db₀.fvk, OneRecipient tx.2
  coinbase : ∀ b ∈ blocks, ∀ n ∈ b.1.coinbase W, ∀ i ∈ G₀.invoices, n.1.recipient ≠ K.addressAt i.diversifierIndex
  room : db₀.history.length + (blocks.map fun b => b.1.ownRows db₀.fvk b.2).sum ≤ HISTORY_CAP

variable {K : MerchantKeys} {G₀ : Gateway} {db₀ db : WalletDb W} {blocks : List (WalletBlock P × BlockMeta)}
  {calls : List GatewayCall}

theorem mem_income {fvk : W.Fvk} {block : WalletBlock P} {info : BlockMeta} {tx : Bytes32 × List (ReceivedNote W)}
    (h : tx ∈ block.income fvk info) : ∃ t ∈ block.txs fvk, t.2 = tx.2 := by
  obtain ⟨-, h⟩ := of_mem_zip h
  exact mem_map.mp h

section

variable (h : MerchantRun K G₀ db₀ db blocks calls)
include h

theorem MerchantRun.receipts_nodup :
    (((blocks.flatMap fun b => b.1.income db₀.fvk b.2).filterMap fun tx => receiptOf tx.1 tx.2).map
      (·.txid)).Nodup := by
  have txid : ∀ {x : Bytes32 × List (ReceivedNote W)} {r : Receipt}, receiptOf x.1 x.2 = some r → r.txid = x.1 := by
    intro x r hr
    obtain ⟨value, -, hr⟩ := bind_eq_some_iff.mp hr
    split at hr
    · cases hr
    · obtain ⟨_, -, rfl⟩ := map_eq_some_iff.mp hr
      rfl
  have sublist : ∀ l : List (Bytes32 × List (ReceivedNote W)),
      ((l.filterMap fun tx => receiptOf tx.1 tx.2).map (·.txid)).Sublist (l.map (·.1)) := by
    intro l
    induction l with
    | nil => exact List.Sublist.refl _
    | cons x l ih =>
      rw [filterMap_cons, map_cons]
      cases hx : receiptOf x.1 x.2 with
      | none => exact ih.cons _
      | some r =>
        rw [map_cons, txid hx]
        exact ih.cons_cons _
  have all : (blocks.flatMap fun b => b.1.income db₀.fvk b.2).map (·.1) = blocks.flatMap (·.2.txids) := by
    rw [map_flatMap]
    refine flatMap_congr fun b hb => map_fst_zip ?_
    rw [length_map, h.identified b hb]
  exact (all ▸ h.txids_nodup).sublist (sublist _)

theorem MerchantRun.receivedAt_eq (ok : Attributable K G₀ db₀ blocks) {i : Invoice}
    (hi : i ∈ G₀.invoices) :
    receivedAt ((blocks.flatMap fun b => b.1.income db₀.fvk b.2).filterMap fun tx => receiptOf tx.1 tx.2)
      (K.addressAt i.diversifierIndex) =
        (blocks.map fun b => b.1.paidTo db₀.fvk (K.addressAt i.diversifierIndex)).sum := by
  rw [receivedAt_income]
  · rw [map_flatMap, flatMap_def, sum_flatten, List.map_map]
    refine congrArg sum (map_congr_left fun b hb => ?_)
    have coinbase : natSum (((b.1.coinbase W).filter fun n => n.1.recipient = K.addressAt i.diversifierIndex).map
        fun n => n.2.1) = 0 := by
      rw [natSum_eq_zero_iff]
      intro v hv
      obtain ⟨n, hn, -⟩ := mem_map.mp hv
      obtain ⟨hn, heq⟩ := mem_filter.mp hn
      exact absurd (of_decide_eq_true heq) (ok.coinbase b hb n hn i hi)
    show ((b.1.income db₀.fvk b.2).map fun tx => notesTo _ tx.2).sum = _
    rw [WalletBlock.paidTo, coinbase, Nat.zero_add, WalletBlock.income]
    have second : (b.2.txids.zip ((b.1.txs db₀.fvk).map (·.2))).map (·.2) = (b.1.txs db₀.fvk).map (·.2) :=
      map_snd_zip (by rw [length_map, h.identified b hb])
    show ((b.2.txids.zip ((b.1.txs db₀.fvk).map (·.2))).map (notesTo _ ∘ (·.2))).sum = _
    rw [← List.map_map, second, List.map_map]
    rfl
  · intro tx htx
    obtain ⟨b, hb, htx⟩ := mem_flatMap.mp htx
    obtain ⟨t, ht, heq⟩ := mem_income htx
    exact heq ▸ ok.one b hb t ht
  · intro tx htx
    obtain ⟨b, hb, htx⟩ := mem_flatMap.mp htx
    obtain ⟨t, ht, heq⟩ := mem_income htx
    exact heq ▸ h.tx_fits b hb t ht

end

/-- **Every invoice is credited what was sent to its address**, for transactions that pay one address each. -/
theorem invoices_credited (h : MerchantRun K G₀ db₀ db blocks calls) (ok : Attributable K G₀ db₀ blocks) :
    Credited K db₀.fvk blocks (G₀.calls K calls) := by
  have receipts := ingestAll_receipts h.enabled h.accepts ok.room h.ingested
  rw [h.new, nil_append] at receipts
  have nodup := h.receipts_nodup
  rw [← receipts] at nodup
  have sent : ∀ i ∈ G₀.invoices, receivedAt db.receipts (K.addressAt i.diversifierIndex) = _ :=
    fun i hi => (congrArg (receivedAt · _) receipts).trans (h.receivedAt_eq ok hi)
  have unpaid := h.created.unpaid h.keys
  have fits : G₀.Fits db.receipts := by
    intro a ha
    obtain ⟨id, hid⟩ := isSome_iff_exists.mp ha
    obtain ⟨i, hi, -, rfl⟩ := (unpaid.addressed.byAddress a id).mp hid
    rw [sent i hi]
    exact h.fits i hi
  have feeds : ∀ c ∈ calls, (∃ now sink eventId, c = .advance now sink eventId) ∨
      ∃ o eventId, c = .observe o eventId ∧ ∃ r ∈ db.receipts, o.Of r := by
    intro c hc
    have polls := h.polls c hc
    cases c with
    | create request id => exact polls.elim
    | observe o eventId =>
      obtain ⟨row, hrow, hpoll⟩ := polls
      obtain ⟨r, hr, ho⟩ := pollRow_of hpoll
      exact .inr ⟨o, eventId, rfl, r, mem_filterMap.mpr ⟨row, hrow, hr⟩, ho⟩
    | advance now sink eventId => exact .inl ⟨now, sink, eventId, rfl⟩
  obtain ⟨fed, seen⟩ := (unpaid.ledger db.receipts).feeds nodup fits feeds
  intro i hi
  -- the address of the invoice is one it was created with
  have hbyAddress := (fed.ledger.addressed.byAddress _ _).mpr ⟨i, hi, rfl, rfl⟩
  rw [fed.byAddress] at hbyAddress
  obtain ⟨j, hj, -, haddr⟩ := (unpaid.addressed.byAddress _ _).mp hbyAddress
  rw [fed.ledger.paid i hi, creditedOf_eq, ← haddr, sent j hj]
  intro r hr hrecipient
  obtain ⟨row, hrow, hreceipt⟩ := mem_filterMap.mp hr
  obtain ⟨o, eventId, ho, hpoll⟩ := h.observed row hrow (by rw [hreceipt]; rfl)
  obtain ⟨r', hr', hof⟩ := pollRow_of hpoll
  cases some.inj (hreceipt.symm.trans hr')
  exact seen o eventId ho r hof i.id (by rw [hrecipient, hbyAddress])

/-! A merchant with two invoices, and a key that finds the notes of the first sixteen addresses. -/

@[reducible] def diversified : WalletPrim leafPrim :=
  { leafLists with
    tryCompactNoteDecryption := fun _ r =>
      let enc := r.encCiphertext.toNat
      if enc % 2 ^ 344 < 16 then some ⟨BitVec.ofNat 344 enc, UInt64.ofNat (enc / 2 ^ 344), r.nullifier, 0⟩ else none }

def twoInvoices : Gateway := shop.call merchant (.create order "inv_2")

/-- Pays `value` to the invoice with this index. -/
def paysInvoice (nullifier : NullifierBytes) (index value : Nat) : CompactActionRecord :=
  ⟨nullifier, nullifier + 7, 0, BitVec.ofNat 416 (value * 2 ^ 344 + index)⟩

def paidBlock (actions : List CompactActionRecord) : List (WalletBlock leafPrim × BlockMeta) :=
  [(.compact [] [actions], ⟨3, [9], 0, 2⟩)]

/-- One transaction pays 5 to the first invoice and 3 to the one with this index. -/
def paysTwice (index : Nat) : List (WalletBlock leafPrim × BlockMeta) :=
  paidBlock [paysInvoice 1000 1 5, paysInvoice 2000 index 3]

def receivedRow : HistoryEntry := ⟨.received, 9, 2, 0, 8, 0, some 1, []⟩

def pollOnce : List GatewayCall := [.observe ⟨1, 9, 8, 2, 2, 20, 1100⟩ "evt"]

theorem merchant_distinct : merchant.Distinct := by
  intro i j hi hj h
  have := congrArg BitVec.toNat h
  simp only [merchant, BitVec.toNat_ofNat] at this
  omega

theorem shop_fresh : ∀ i ∈ shop.invoices, i.id ≠ "inv_2" := by
  intro i hi
  rw [shop_invoices, mem_singleton] at hi
  rw [hi]
  decide

theorem twoInvoices_created : twoInvoices.Reached merchant fun _ c => c.IsCreate :=
  .call (shop_reached trivial) (.create order "inv_2") shop_fresh trivial

/-- Whichever invoice the second note is for, the wallet has one row and the gateway is told of it. -/
theorem paysTwice_collected {index : Nat} (hindex : index = 1 ∨ index = 2) :
    ∃ db : WalletDb diversified,
      MerchantRun merchant twoInvoices (fresh (W := diversified) 7) db (paysTwice index) pollOnce := by
  have history : ((fresh (W := diversified) 7).ingestAll (paysTwice index)).map (·.history) = some [receivedRow] := by
    rcases hindex with rfl | rfl <;> decide +kernel
  obtain ⟨db, ingested, rows⟩ := map_eq_some_iff.mp history
  have nullifiers : ((paysTwice index).flatMap fun b => b.1.nullifiers (W := diversified) 7) = [1000, 2000] := by
    rcases hindex with rfl | rfl <;> decide +kernel
  have found : ((paysTwice index).flatMap fun b => (b.1.notes (W := diversified) 7).map (diversified.noteNullifier 7)) =
      [1001, 2001] := by
    rcases hindex with rfl | rfl <;> decide +kernel
  have values : ((paysTwice index).flatMap fun b => (b.1.txs (W := diversified) 7).map fun tx =>
      natSum (tx.2.map fun r => diversified.noteValue r.note)) = [8] := by
    rcases hindex with rfl | rfl <;> decide +kernel
  have paid : (twoInvoices.invoices.all fun i => ((paysTwice index).map fun b =>
      b.1.paidTo (W := diversified) 7 (merchant.addressAt i.diversifierIndex)).sum < U64_BOUND) = true := by
    rcases hindex with rfl | rfl <;> decide +kernel
  have lengths : (paysTwice index).all (fun b => b.2.txids.length = (b.1.txs (W := diversified) 7).length) = true := by
    rcases hindex with rfl | rfl <;> decide +kernel
  exact ⟨db, {
    keys := merchant_distinct
    created := twoInvoices_created
    enabled := rfl
    new := rfl
    accepts := {
      nodup := nullifiers.symm ▸ by decide
      foreign := ⟨fun nf _ => Finset.notMem_empty _, fun nf _ n hn => nomatch hn⟩
      notes_ne := by
        intro nf hnf b hb note hnote heq
        have hnf : nf ∈ ([1000, 2000] : List NullifierBytes) := nullifiers ▸ hnf
        have : diversified.noteNullifier 7 note ∈ ([1001, 2001] : List NullifierBytes) :=
          found ▸ mem_flatMap.mpr ⟨b, hb, mem_map_of_mem hnote⟩
        rw [show diversified.noteNullifier 7 note = nf from heq] at this
        simp only [mem_cons, not_mem_nil, or_false] at hnf this
        rcases hnf with rfl | rfl <;> rcases this with h | h <;> exact absurd h (by decide) }
    identified := fun b hb => of_decide_eq_true (all_eq_true.mp lengths b hb)
    txids_nodup := by
      show ([9] ++ [] : List Bytes32).Nodup
      decide
    ingested := ingested
    polls := by
      intro c hc
      rw [mem_singleton.mp hc]
      exact ⟨receivedRow, rows ▸ mem_singleton_self _, by decide +kernel⟩
    observed := by
      intro row hrow _
      rw [rows, mem_singleton] at hrow
      exact ⟨_, _, mem_singleton_self _, by rw [hrow]; decide +kernel⟩
    tx_fits := by
      intro b hb tx htx
      have : natSum (tx.2.map fun r => diversified.noteValue r.note) ∈ [8] :=
        values ▸ mem_flatMap.mpr ⟨b, hb, mem_map_of_mem htx⟩
      rw [mem_singleton.mp this]
      decide
    fits := fun i hi => of_decide_eq_true (all_eq_true.mp paid i hi) }⟩

theorem paysFirst_attributable : Attributable merchant twoInvoices (fresh (W := diversified) 7) (paysTwice 1) := by
  have one : ((paysTwice 1).all fun b => (b.1.txs (W := diversified) 7).all fun tx => tx.2.all fun r =>
      tx.2.head?.map (fun r => diversified.noteRecipient r.note) = some (diversified.noteRecipient r.note)) = true := by
    decide +kernel
  refine ⟨fun b hb tx htx r hr _ => ?_, fun b hb n hn => ?_, by decide +kernel⟩
  · exact of_decide_eq_true (all_eq_true.mp (all_eq_true.mp (all_eq_true.mp one b hb) tx htx) r hr)
  · rw [mem_singleton.mp hb] at hn
    exact nomatch hn

/-- Both notes of the transaction are for the first invoice. -/
theorem invoices_credited_once : ∃ db : WalletDb diversified,
    MerchantRun merchant twoInvoices (fresh (W := diversified) 7) db (paysTwice 1) pollOnce ∧
      Credited merchant (fresh (W := diversified) 7).fvk (paysTwice 1) (twoInvoices.calls merchant pollOnce) := by
  obtain ⟨db, collected⟩ := paysTwice_collected (.inl rfl)
  exact ⟨db, collected, invoices_credited collected paysFirst_attributable⟩

/-- A transaction that pays two invoices: the first is credited with both notes, the second with nothing. -/
theorem paid_to_the_first : ∃ db : WalletDb diversified,
    MerchantRun merchant twoInvoices (fresh (W := diversified) 7) db (paysTwice 2) pollOnce ∧
      (twoInvoices.calls merchant pollOnce).invoices.map (fun i => (i.diversifierIndex, i.paidSompi)) =
        [(2, 0), (1, 8)] ∧
      ¬ Credited merchant (fresh (W := diversified) 7).fvk (paysTwice 2) (twoInvoices.calls merchant pollOnce) := by
  obtain ⟨db, collected⟩ := paysTwice_collected (.inr rfl)
  refine ⟨db, collected, by decide +kernel, fun credited => ?_⟩
  have wrong : ((twoInvoices.calls merchant pollOnce).invoices.all fun i => i.paidSompi = ((paysTwice 2).map fun b =>
      b.1.paidTo (W := diversified) 7 (merchant.addressAt i.diversifierIndex)).sum) = false := by
    decide +kernel
  exact absurd (all_eq_true.mpr fun i hi => decide_eq_true (credited i hi)) (by rw [Bool.not_eq_true]; exact wrong)

end Firecash
