import Firecash.Wallet.Primitives
import Mathlib.Data.List.DropRight

/-!
# The merchant gateway (gateway/core/src/lib.rs)

Invoices with an address each, the payments observed for them, and the status the merchant acts
on. A gateway lives by three calls: `create_invoice`, `observe_payment` for every received row of
the wallet (again and again: a transaction counts once per invoice) and `advance` with the time and
the blue score of the sink.

The two random identifiers are arguments; that a new invoice has an unused one is the only thing
assumed of them (`GatewayCall.Fresh`). The viewing key enters as the addresses it derives.

The confirmation depth is looked at on one branch of `payment_status` only: an invoice paid in
excess is `Overpaid` at depth zero. `fulfilled_backed` is what is left of the promise.
-/

namespace Firecash

open Checked (U64_BOUND)

inductive InvoiceStatus where
  | new
  | partlyPaid
  | paid
  | confirmed
  | overpaid
  | paidLate
  | expired
  deriving DecidableEq

/-- `InvoiceStatus::terminal` (lib.rs:31) -/
def InvoiceStatus.terminal : InvoiceStatus → Bool
  | .confirmed | .overpaid | .paidLate | .expired => true
  | .new | .partlyPaid | .paid => false

/-- The two statuses on which a merchant ships the goods. -/
def InvoiceStatus.Fulfil (status : InvoiceStatus) : Prop := status = .confirmed ∨ status = .overpaid
  deriving Decidable

structure Payment where
  transactionId : Bytes32
  amountSompi : Nat
  blueScore : Nat
  daaScore : Nat
  deriving DecidableEq

structure Invoice where
  id : String
  orderId : String
  address : String
  diversifierIndex : Nat
  amountSompi : Nat
  paidSompi : Nat
  status : InvoiceStatus
  createdAt : Nat
  expiresAt : Nat
  requiredBlueScore : Nat
  checkoutUrl : String
  redirectUrl : Option String
  metadata : List (String × String)
  payments : List Payment
  deriving DecidableEq

structure CreateInvoice where
  orderId : String
  amountSompi : Nat
  now : Nat
  expiresIn : Nat
  requiredBlueScore : Nat
  redirectUrl : Option String
  metadata : List (String × String)
  idempotencyKey : Option String

structure WebhookEvent where
  id : String
  eventType : String
  createdAt : Nat
  invoice : Invoice

inductive GatewayError where
  | invalidViewingKey
  | invalidAmount
  | invalidExpiry
  | diversifierExhausted
  | unknownInvoice
  | addressMismatch
  | amountOverflow
  deriving DecidableEq

/-- The viewing key and the address prefix: `address_at(index, External)` and its text. -/
structure MerchantKeys where
  addressAt : Nat → AddressBytes
  encodeAddress : AddressBytes → String

structure Gateway where
  publicUrl : String
  nextDiversifier : Nat
  invoices : List Invoice
  byAddress : AddressBytes → Option String
  idempotency : String → Option String
  seenTransactions : Finset (Bytes32 × String)

/-- `Gateway::new` (lib.rs:124), the viewing key apart. -/
def Gateway.new (publicUrl : String) : Gateway where
  publicUrl := String.ofList (publicUrl.toList.rdropWhile (· = '/'))
  nextDiversifier := 1
  invoices := []
  byAddress := fun _ => none
  idempotency := fun _ => none
  seenTransactions := ∅

variable (G : Gateway)

/-- `self.invoices.get(id)` -/
def Gateway.invoice (id : String) : Option Invoice := G.invoices.find? (·.id == id)

/-- A write through `self.invoices.get_mut(id)`. -/
def Gateway.modify (id : String) (f : Invoice → Invoice) : Gateway :=
  { G with invoices := G.invoices.map fun i => if i.id = id then f i else i }

/-- `create_invoice` (lib.rs:138). `id` is the random identifier. -/
def Gateway.createInvoice (K : MerchantKeys) (G : Gateway) (request : CreateInvoice) (id : String) :
    Except (Fault GatewayError) Invoice × Gateway :=
  if request.amountSompi = 0 then (.error (.err .invalidAmount), G)
  else if request.expiresIn = 0 then (.error (.err .invalidExpiry), G)
  else
    match request.idempotencyKey.bind G.idempotency with
    -- `self.invoices[id]`
    | some known => (Except.ofOption .panic (G.invoice known), G)
    | none =>
      if 4294967296 ≤ G.nextDiversifier + 1 then (.error (.err .diversifierExhausted), G)
      else
        let index := G.nextDiversifier
        let G := { G with nextDiversifier := G.nextDiversifier + 1 }
        let raw := K.addressAt index
        -- the index is used up before the expiry is checked
        if U64_BOUND ≤ request.now + request.expiresIn then (.error (.err .invalidExpiry), G)
        else
          let invoice : Invoice :=
            { id, orderId := request.orderId, address := K.encodeAddress raw, diversifierIndex := index,
              amountSompi := request.amountSompi, paidSompi := 0, status := .new, createdAt := request.now,
              expiresAt := request.now + request.expiresIn, requiredBlueScore := request.requiredBlueScore,
              checkoutUrl := G.publicUrl ++ "/checkout/" ++ id, redirectUrl := request.redirectUrl,
              metadata := request.metadata, payments := [] }
          (.ok invoice,
            { G with
              byAddress := Function.update G.byAddress raw (some id)
              idempotency := match request.idempotencyKey with
                | some key => Function.update G.idempotency key (some id)
                | none => G.idempotency
              invoices := invoice :: G.invoices.filter (·.id ≠ id) })

variable (invoice : Invoice)

/-- `payment_status` (lib.rs:259). The subtraction saturates. -/
def Invoice.paymentStatus (sinkBlueScore : Nat) : InvoiceStatus :=
  if invoice.paidSompi < invoice.amountSompi then .partlyPaid
  else if invoice.amountSompi < invoice.paidSompi then .overpaid
  else if invoice.payments.all fun payment => invoice.requiredBlueScore ≤ sinkBlueScore - payment.blueScore then
    .confirmed
  else .paid

/-- The arguments of one `observe_payment`. -/
structure Observation where
  recipient : AddressBytes
  transactionId : Bytes32
  amountSompi : Nat
  blueScore : Nat
  daaScore : Nat
  sinkBlueScore : Nat
  observedAt : Nat
  deriving DecidableEq

variable (o : Observation)

/-- The total and the list of payments after `o`. -/
def Invoice.addPayment : Invoice :=
  { invoice with
    paidSompi := invoice.paidSompi + o.amountSompi
    payments := invoice.payments ++ [⟨o.transactionId, o.amountSompi, o.blueScore, o.daaScore⟩] }

/-- What `observe_payment` leaves of the invoice it credits. -/
def Invoice.credit : Invoice :=
  { invoice.addPayment o with
    status := if invoice.status = .expired ∨ invoice.expiresAt ≤ o.observedAt then .paidLate
      else (invoice.addPayment o).paymentStatus o.sinkBlueScore }

/-- `observe_payment` (lib.rs:216). The pair is marked as seen before the checks that can fail. -/
def Gateway.observePayment (eventId : String) :
    Except GatewayError (Option WebhookEvent) × Gateway :=
  match G.byAddress o.recipient with
  | none => (.error .addressMismatch, G)
  | some id =>
    if (o.transactionId, id) ∈ G.seenTransactions then (.ok none, G)
    else
      let G := { G with seenTransactions := insert (o.transactionId, id) G.seenTransactions }
      match G.invoice id with
      | none => (.error .unknownInvoice, G)
      | some invoice =>
        if U64_BOUND ≤ invoice.paidSompi + o.amountSompi then (.error .amountOverflow, G)
        else
          let credited := invoice.credit o
          (.ok (if invoice.status ≠ credited.status
              then some ⟨eventId, "invoice.updated", credited.createdAt, credited⟩ else none),
            G.modify id (·.credit o))

/-- The body of the loop of `advance`. -/
def Invoice.advance (now sinkBlueScore : Nat) (invoice : Invoice) : Invoice :=
  if invoice.paidSompi = 0 ∧ invoice.expiresAt ≤ now then { invoice with status := .expired }
  else if invoice.amountSompi ≤ invoice.paidSompi then { invoice with status := invoice.paymentStatus sinkBlueScore }
  else invoice

/-- `advance` (lib.rs:242). `eventId` gives the identifier of the event of an invoice. -/
def Gateway.advance (G : Gateway) (now sinkBlueScore : Nat) (eventId : String → String) : List WebhookEvent × Gateway :=
  (G.invoices.filterMap fun i =>
      let advanced := i.advance now sinkBlueScore
      if advanced.status ≠ i.status then some ⟨eventId i.id, "invoice.updated", now, advanced⟩ else none,
    { G with invoices := G.invoices.map (Invoice.advance now sinkBlueScore) })

/-! ## Calls -/

inductive GatewayCall where
  | create (request : CreateInvoice) (id : String)
  | observe (o : Observation) (eventId : String)
  | advance (now sinkBlueScore : Nat) (eventId : String → String)

def Gateway.call (K : MerchantKeys) (G : Gateway) : GatewayCall → Gateway
  | .create request id => (G.createInvoice K request id).2
  | .observe o eventId => (G.observePayment o eventId).2
  | .advance now sinkBlueScore eventId => (G.advance now sinkBlueScore eventId).2

/-- The random identifier of a new invoice is not in use. -/
def GatewayCall.Fresh : GatewayCall → Prop
  | .create _ id => ∀ i ∈ G.invoices, i.id ≠ id
  | .observe .. | .advance .. => True

/-- The invoice `observe_payment` adds the payment to. -/
def Gateway.Credits (id : String) : Prop :=
  G.byAddress o.recipient = some id ∧ (o.transactionId, id) ∉ G.seenTransactions ∧
    ∃ i, G.invoice id = some i ∧ i.paidSompi + o.amountSompi < U64_BOUND

variable {G : Gateway} {id : String} {i : Invoice}

theorem Gateway.invoice_eq_some (h : G.invoice id = some i) :
    i ∈ G.invoices ∧ i.id = id :=
  ⟨List.mem_of_find?_eq_some h, by simpa using List.find?_some h⟩

theorem Gateway.exists_invoice (h : i ∈ G.invoices) : ∃ j, G.invoice i.id = some j :=
  Option.isSome_iff_exists.mp (List.find?_isSome.mpr ⟨i, h, beq_self_eq_true _⟩)

/-- `observe_payment` credits one invoice, or changes nothing but the seen pairs. -/
theorem Gateway.observePayment_cases (G : Gateway) (o : Observation) (eventId : String) :
    (∃ id, G.Credits o id ∧
      (G.observePayment o eventId).2 =
        { G with seenTransactions := insert (o.transactionId, id) G.seenTransactions }.modify id (·.credit o)) ∨
    ((∀ id, ¬ G.Credits o id) ∧ ∃ seen, (G.observePayment o eventId).2 = { G with seenTransactions := seen }) := by
  cases ha : G.byAddress o.recipient with
  | none =>
    refine .inr ⟨fun id h => ?_, G.seenTransactions, by simp [observePayment, ha]⟩
    exact nomatch ha.symm.trans h.1
  | some id =>
    have hid : ∀ {id'}, G.Credits o id' → id' = id := fun h => (Option.some.inj (ha.symm.trans h.1)).symm
    by_cases hs : (o.transactionId, id) ∈ G.seenTransactions
    · refine .inr ⟨fun id' h => ?_, G.seenTransactions, by simp [observePayment, ha, hs]⟩
      exact h.2.1 (hid h ▸ hs)
    · cases hi : G.invoice id with
      | none =>
        refine .inr ⟨fun id' h => ?_, insert (o.transactionId, id) G.seenTransactions, ?_⟩
        · obtain ⟨i, hi', -⟩ := h.2.2
          rw [hid h, hi] at hi'
          cases hi'
        · have : Gateway.invoice { G with seenTransactions := insert (o.transactionId, id) G.seenTransactions } id =
              none := hi
          simp [observePayment, ha, hs, this]
      | some i =>
        have hi' : Gateway.invoice { G with seenTransactions := insert (o.transactionId, id) G.seenTransactions }
            id = some i := hi
        by_cases hb : U64_BOUND ≤ i.paidSompi + o.amountSompi
        · refine .inr ⟨fun id' h => ?_, insert (o.transactionId, id) G.seenTransactions, ?_⟩
          · obtain ⟨j, hj, hlt⟩ := h.2.2
            rw [hid h, hi] at hj
            cases hj
            omega
          · simp only [observePayment, ha, hs, hi', if_false, if_pos hb]
        · refine .inl ⟨id, ⟨ha, hs, i, hi, by omega⟩, ?_⟩
          simp only [observePayment, ha, hs, hi', if_false, if_neg hb]

/-- What an invoice can be after a call: it is new, or it is an earlier one that the call left alone, credited with
the payment, or advanced. -/
inductive InvoiceStep (G : Gateway) : GatewayCall → Invoice → Prop where
  | created {request : CreateInvoice} {id : String} {i : Invoice} (id_eq : i.id = id) (amount_ne : i.amountSompi ≠ 0)
      (paid : i.paidSompi = 0) (status : i.status = .new) (payments : i.payments = []) :
        InvoiceStep G (.create request id) i
  | same {c : GatewayCall} {i : Invoice} (mem : i ∈ G.invoices) (call : ∀ now sink eventId, c ≠
    .advance now sink eventId)
      (not_credits : ∀ o eventId, c = .observe o eventId → ¬ G.Credits o i.id) : InvoiceStep G c i
  | credited {o : Observation} {eventId : String} {i : Invoice} (mem : i ∈ G.invoices) (credits : G.Credits o i.id) :
      InvoiceStep G (.observe o eventId) (i.credit o)
  | advanced {now sink : Nat} {eventId : String → String} {i : Invoice} (mem : i ∈ G.invoices) :
      InvoiceStep G (.advance now sink eventId) (i.advance now sink)

/-- `create_invoice` adds one invoice at the next address, or changes nothing but the next index. -/
theorem Gateway.createInvoice_cases (K : MerchantKeys) (G : Gateway) (request : CreateInvoice) (id : String) :
    (∃ next, (next = G.nextDiversifier ∨ next = G.nextDiversifier + 1 ∧ next < 4294967296) ∧
      (G.createInvoice K request id).2 = { G with nextDiversifier := next }) ∨
    ∃ (invoice : Invoice) (idempotency : String → Option String), G.nextDiversifier + 1 < 4294967296 ∧ invoice.id = id ∧
      invoice.diversifierIndex = G.nextDiversifier ∧ invoice.amountSompi ≠ 0 ∧ invoice.paidSompi = 0 ∧
      invoice.status = .new ∧ invoice.payments = [] ∧
      (G.createInvoice K request id).2 =
        { G with
          nextDiversifier := G.nextDiversifier + 1
          byAddress := Function.update G.byAddress (K.addressAt G.nextDiversifier) (some id)
          idempotency := idempotency
          invoices := invoice :: G.invoices.filter (·.id ≠ id) } := by
  unfold createInvoice
  by_cases hamount : request.amountSompi = 0
  · rw [if_pos hamount]
    exact .inl ⟨_, .inl rfl, rfl⟩
  rw [if_neg hamount]
  split
  · exact .inl ⟨_, .inl rfl, rfl⟩
  split
  · exact .inl ⟨_, .inl rfl, rfl⟩
  split
  · exact .inl ⟨_, .inl rfl, rfl⟩
  case isFalse hnext =>
    have hnext : G.nextDiversifier + 1 < 4294967296 := by omega
    split
    · exact .inl ⟨_, .inr ⟨rfl, hnext⟩, rfl⟩
    · exact .inr ⟨_, _, hnext, rfl, rfl, hamount, rfl, rfl, rfl, rfl⟩

variable {K : MerchantKeys}

theorem Gateway.createInvoice_step {request : CreateInvoice}
    (hi : i ∈ (G.createInvoice K request id).2.invoices) : InvoiceStep G (.create request id) i := by
  have same : i ∈ G.invoices → InvoiceStep G (.create request id) i := fun h => .same h (by simp) (by simp)
  rcases G.createInvoice_cases K request id with ⟨next, -, heq⟩ | ⟨invoice, idem, -, hid, -, hamount, hpaid,
    hstatus, hpay, heq⟩
  · rw [heq] at hi
    exact same hi
  · rw [heq] at hi
    rcases List.mem_cons.mp hi with rfl | hi
    · exact .created hid hamount hpaid hstatus hpay
    · exact same (List.mem_of_mem_filter hi)

variable {c : GatewayCall}

theorem Gateway.call_step
    (hi : i ∈ (G.call K c).invoices) : InvoiceStep G c i := by
  cases c with
  | create request id => exact createInvoice_step hi
  | observe o eventId =>
    rcases G.observePayment_cases o eventId with ⟨id, hcr, heq⟩ | ⟨hnot, seen, heq⟩
    · rw [call, heq] at hi
      obtain ⟨j, hj, rfl⟩ := List.mem_map.mp hi
      split
      case isTrue h => exact .credited hj (h ▸ hcr)
      case isFalse h =>
        refine .same hj (by simp) fun o' e' hc hcr' => h ?_
        cases hc
        exact (Option.some.inj (hcr.1.symm.trans hcr'.1)).symm
    · rw [call, heq] at hi
      refine .same hi (by simp) fun o' e' hc => ?_
      cases hc
      exact hnot _
  | advance now sink eventId =>
    obtain ⟨j, hj, rfl⟩ := List.mem_map.mp hi
    exact .advanced hj

/-- The gateways a merchant can have, through calls that all meet `Ok` in the state they are made in. -/
inductive Gateway.Reached (K : MerchantKeys) (Ok : Gateway → GatewayCall → Prop) : Gateway → Prop where
  | new (publicUrl : String) : Reached K Ok (Gateway.new publicUrl)
  | call {G : Gateway} (run : Reached K Ok G) (c : GatewayCall) (fresh : c.Fresh G) (ok : Ok G c) :
    Reached K Ok (G.call K c)

variable {Ok : Gateway → GatewayCall → Prop}

theorem Gateway.Reached.forall_invoices {Q : Invoice → Prop}
    (run : Reached K Ok G)
    (step : ∀ (G : Gateway) (c : GatewayCall) (i : Invoice), Ok G c → (∀ j ∈ G.invoices, Q j) →
      InvoiceStep G c i → Q i) :
    ∀ i ∈ G.invoices, Q i := by
  induction run with
  | new publicUrl => exact fun i hi => nomatch hi
  | call run c fresh ok ih => exact fun i hi => step _ c i ok ih (call_step hi)

/-! ## What a fulfilled invoice rests on -/

/-- `p` lies `required_blue_score` or more below the sink. -/
def Invoice.Deep (i : Invoice) (sink : Nat) (p : Payment) : Prop := p.blueScore + i.requiredBlueScore ≤ sink
  deriving Decidable

def totalOf (payments : List Payment) : Nat := (payments.map (·.amountSompi)).sum

def Invoice.deepTotal (i : Invoice) (sink : Nat) : Nat := totalOf (i.payments.filter (i.Deep sink ·))

/-- Confirmed money covers the amount. -/
def Invoice.Backed (i : Invoice) (sink : Nat) : Prop := i.amountSompi ≤ i.paidSompi ∧ i.amountSompi ≤ i.deepTotal sink

/-- The call, made with this sink, looked at the invoice. -/
def GatewayCall.Evaluates (G : Gateway) (sink : Nat) (id : String) : GatewayCall → Prop
  | .create .. => False
  | .observe o _ => G.Credits o id ∧ o.sinkBlueScore = sink
  | .advance _ sinkBlueScore _ => sinkBlueScore = sink

/-- No payment of an invoice that asks for no depth lies above the sink. -/
def Invoice.Settled (i : Invoice) (sink : Nat) : Prop := i.requiredBlueScore = 0 → ∀ p ∈ i.payments, p.blueScore ≤ sink

/-- The payment leaves the invoice within its amount, or the invoice asks for no depth. -/
def Invoice.Within (i : Invoice) (paidSompi : Nat) : Prop := paidSompi ≤ i.amountSompi ∨ i.requiredBlueScore = 0

/-- No excess payment to an invoice that asks for depth, and a sink above the payments of those that do not. -/
def GatewayCall.Exact (G : Gateway) : GatewayCall → Prop
  | .create .. => True
  | .observe o _ => ∀ i ∈ G.invoices, G.Credits o i.id →
      i.Within (i.paidSompi + o.amountSompi) ∧ (i.addPayment o).Settled o.sinkBlueScore
  | .advance _ sinkBlueScore _ => ∀ i ∈ G.invoices, i.Settled sinkBlueScore

/-- The total is that of the payments, and a status that fulfils has the amount. -/
structure Invoice.Accounted (i : Invoice) : Prop where
  paid_eq : i.paidSompi = totalOf i.payments
  amount_le : i.status.Fulfil → i.amountSompi ≤ i.paidSompi

variable {sink : Nat}

theorem Invoice.paymentStatus_fulfil (h : (i.paymentStatus sink).Fulfil) :
    i.amountSompi ≤ i.paidSompi ∧
      (i.paidSompi = i.amountSompi → ∀ p ∈ i.payments, i.requiredBlueScore ≤ sink - p.blueScore) := by
  unfold paymentStatus at h
  split at h
  · rcases h with h | h <;> cases h
  split at h
  · exact ⟨by omega, fun heq => by omega⟩
  split at h
  case isTrue hall => exact ⟨by omega, fun _ p hp => of_decide_eq_true (List.all_eq_true.mp hall p hp)⟩
  case isFalse => rcases h with h | h <;> cases h

theorem totalOf_append (a b : List Payment) : totalOf (a ++ b) = totalOf a + totalOf b := by
  simp [totalOf]

theorem Invoice.Accounted.credit (h : i.Accounted) (o : Observation) : (i.credit o).Accounted := by
  refine ⟨?_, fun hf => ?_⟩
  · show i.paidSompi + o.amountSompi = totalOf (i.payments ++ [_])
    rw [totalOf_append, h.paid_eq]
    simp [totalOf]
  · dsimp only [Invoice.credit] at hf
    split at hf
    · rcases hf with h | h <;> cases h
    · exact (paymentStatus_fulfil hf).1

theorem Invoice.Accounted.advance {i : Invoice} (h : i.Accounted) (now sink : Nat) :
    (i.advance now sink).Accounted := by
  unfold Invoice.advance
  split
  · exact ⟨h.paid_eq, fun hf => by rcases hf with h | h <;> cases h⟩
  split
  case isTrue hle => exact ⟨h.paid_eq, fun _ => hle⟩
  case isFalse => exact h

theorem InvoiceStep.accounted (h : InvoiceStep G c i)
    (inv : ∀ j ∈ G.invoices, j.Accounted) : i.Accounted := by
  cases h with
  | created id_eq amount_ne paid status payments =>
    refine ⟨by rw [paid, payments]; rfl, fun hf => ?_⟩
    rw [status] at hf
    rcases hf with h | h <;> cases h
  | same mem => exact inv _ mem
  | credited mem => exact (inv _ mem).credit _
  | advanced mem => exact (inv _ mem).advance _ _

/-- All payments are deep enough for a status computed within the amount. -/
theorem Invoice.backed_of_paymentStatus (paid_eq : i.paidSompi = totalOf i.payments)
    (within : i.Within i.paidSompi) (settled : i.Settled sink) (hf : (i.paymentStatus sink).Fulfil) :
    i.Backed sink := by
  obtain ⟨hle, hall⟩ := paymentStatus_fulfil hf
  refine ⟨hle, ?_⟩
  have hdeep : ∀ p ∈ i.payments, decide (i.Deep sink p) = true := by
    intro p hp
    rw [decide_eq_true_eq, Deep]
    -- at depth zero the saturating subtraction does not see a payment above the sink
    by_cases hzero : i.requiredBlueScore = 0
    · have := settled hzero p hp
      omega
    · have heq : i.paidSompi = i.amountSompi := by
        rcases within with h | h
        · omega
        · exact absurd h hzero
      have := hall heq p hp
      omega
  rw [deepTotal, List.filter_eq_self.mpr hdeep, ← paid_eq]
  exact hle

theorem Invoice.credit_backed {o : Observation} (h : i.Accounted) (within : i.Within (i.paidSompi + o.amountSompi))
    (settled : (i.addPayment o).Settled o.sinkBlueScore) (hf : (i.credit o).status.Fulfil) :
    (i.credit o).Backed o.sinkBlueScore := by
  dsimp only [Invoice.credit] at hf
  split at hf
  · rcases hf with h | h <;> cases h
  · exact backed_of_paymentStatus (h.credit o).paid_eq within settled hf

theorem Invoice.advance_backed {now : Nat} (h : i.Accounted) (within : i.Within i.paidSompi)
    (settled : i.Settled sink) (hf : (i.advance now sink).status.Fulfil) : (i.advance now sink).Backed sink := by
  unfold Invoice.advance at hf ⊢
  split at hf
  · rcases hf with h | h <;> cases h
  rw [if_neg ‹_›]
  split at hf
  case isTrue hle =>
    rw [if_pos hle]
    exact backed_of_paymentStatus h.paid_eq within settled hf
  case isFalse hle => exact absurd (h.amount_le hf) hle

theorem Invoice.advance_within (now sink : Nat) (h : i.Within i.paidSompi) :
    (i.advance now sink).Within (i.advance now sink).paidSompi := by
  unfold Invoice.advance
  split
  · exact h
  split <;> exact h

theorem InvoiceStep.within (h : InvoiceStep G c i) (exact_ : c.Exact G)
    (inv : ∀ j ∈ G.invoices, j.Within j.paidSompi) : i.Within i.paidSompi := by
  cases h with
  | created id_eq amount_ne paid => exact .inl (by omega)
  | same mem => exact inv _ mem
  | credited mem credits => exact (exact_ _ mem credits).1
  | advanced mem => exact Invoice.advance_within _ _ (inv _ mem)

/-- A status that tells the merchant to fulfil rests on payments of at least the amount, all at the required depth,
in every run without excess payments. -/
theorem fulfilled_backed {K : MerchantKeys} {G : Gateway} (run : G.Reached K fun G c => c.Exact G) (c : GatewayCall)
    (ok : c.Exact G) (sink : Nat) (i : Invoice) (mem : i ∈ (G.call K c).invoices) (evaluated : c.Evaluates G sink i.id)
    (fulfil : i.status.Fulfil) : i.Backed sink := by
  have accounted := run.forall_invoices fun _ _ _ _ inv h => h.accounted inv
  have within := run.forall_invoices fun _ _ _ ok inv h => h.within ok inv
  cases Gateway.call_step mem with
  | created => exact evaluated.elim
  | same mem call not_credits =>
    cases c with
    | create request id => exact evaluated.elim
    | observe o eventId => exact absurd evaluated.1 (not_credits _ _ rfl)
    | advance now sink' eventId => exact absurd rfl (call _ _ _)
  | credited old credits =>
    obtain ⟨-, rfl⟩ := evaluated
    obtain ⟨hwithin, hsettled⟩ := ok _ old credits
    exact Invoice.credit_backed (accounted _ old) hwithin hsettled fulfil
  | advanced old =>
    cases evaluated
    exact Invoice.advance_backed (accounted _ old) (within _ old) (ok _ old) fulfil

/-! A merchant with one invoice of 100 that asks for ten blue scores of depth. -/

def merchant : MerchantKeys := ⟨fun index => BitVec.ofNat 344 index, fun _ => "zkas:merchant"⟩

def order : CreateInvoice := ⟨"order-42", 100, 1000, 900, 10, none, [], none⟩

def shop : Gateway := (Gateway.new "https://pay").call merchant (.create order "inv_1")

def orderInvoice : Invoice :=
  { id := "inv_1", orderId := "order-42", address := "zkas:merchant", diversifierIndex := 1, amountSompi := 100,
    paidSompi := 0, status := .new, createdAt := 1000, expiresAt := 1900, requiredBlueScore := 10,
    checkoutUrl := "https://pay/checkout/inv_1", redirectUrl := none, metadata := [], payments := [] }

/-- A payment to the invoice in a block of blue score 100. -/
def payment (amountSompi sinkBlueScore observedAt : Nat) (transactionId : Bytes32) : GatewayCall :=
  .observe ⟨1, transactionId, amountSompi, 100, 100, sinkBlueScore, observedAt⟩ "evt_1"

theorem shop_invoices : shop.invoices = [orderInvoice] := by decide +kernel

theorem payment_exact : (payment 100 110 1100 7).Exact shop := by
  intro i hi _
  rw [shop_invoices, List.mem_singleton] at hi
  subst hi
  exact ⟨.inl (by decide), fun h => by cases h⟩

theorem shop_reached (h : Ok (Gateway.new "https://pay") (.create order "inv_1")) :
    shop.Reached merchant Ok :=
  .call (.new _) _ (fun _ h => nomatch h) h

theorem fulfilled_backed_paid :
    (orderInvoice.credit ⟨1, 7, 100, 100, 100, 110, 1100⟩).status = .confirmed ∧
      (orderInvoice.credit ⟨1, 7, 100, 100, 100, 110, 1100⟩).Backed 110 :=
  have confirmed : (orderInvoice.credit ⟨1, 7, 100, 100, 100, 110, 1100⟩).status = .confirmed := by decide
  ⟨confirmed, fulfilled_backed (shop_reached trivial) (payment 100 110 1100 7) payment_exact 110 _
    (by decide +kernel) ⟨⟨by decide +kernel, by decide +kernel, orderInvoice, by decide +kernel, by decide⟩, rfl⟩
    (.inl confirmed)⟩

/-- One sompi too much in the block of the sink itself: the invoice is fulfilled with nothing confirmed. -/
theorem overpaid_unconfirmed :
    ¬ ∀ (G : Gateway), G.Reached merchant (fun _ _ => True) → ∀ (c : GatewayCall) (sink : Nat),
      ∀ i ∈ (G.call merchant c).invoices, c.Evaluates G sink i.id → i.status.Fulfil → i.Backed sink := by
  intro h
  have backed := h shop (shop_reached trivial) (payment 101 100 1100 7) 100
    (orderInvoice.credit ⟨1, 7, 101, 100, 100, 100, 1100⟩) (by decide +kernel)
    ⟨⟨by decide +kernel, by decide +kernel, orderInvoice, by decide +kernel, by decide⟩, rfl⟩ (by decide)
  exact absurd backed.2 (by decide)

end Firecash
