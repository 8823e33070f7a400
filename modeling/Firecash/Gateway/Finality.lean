import Firecash.Gateway.Invoice

/-!
# Outcomes of invoices over time

A merchant's integration reacts to a terminal status once. `OutcomesFinal` says that it may: a
terminal status stays terminal, an expired invoice can only become paid late, and an invoice whose
amount was reached late is never reported as confirmed or overpaid.

`advance` computes the status anew from the totals and the sink, without the earlier status and
without the time of the payments. So the three hold along the runs of `Orderly` calls
(`outcomes_final`): sinks that do not go back, payments of some value, and no `advance` while an
invoice paid late has its amount. `paidLate_confirmed` is what happens without the last.
-/

namespace Firecash

open Invoice List Gateway

def GatewayCall.time : GatewayCall → Nat
  | .create request _ => request.now
  | .observe o _ => o.observedAt
  | .advance now _ _ => now

/-- The sink after the call: creating an invoice does not read it. -/
def GatewayCall.sinkAfter (sink : Nat) : GatewayCall → Nat
  | .create .. => sink
  | .observe o _ => o.sinkBlueScore
  | .advance _ sinkBlueScore _ => sinkBlueScore

/-- A gateway with the time and the sink of the last call. -/
structure Moment where
  gateway : Gateway
  time : Nat
  sink : Nat

def Moment.after (K : MerchantKeys) (m : Moment) (c : GatewayCall) : Moment :=
  ⟨m.gateway.call K c, c.time, c.sinkAfter m.sink⟩

/-- A call at a time that does not go back. -/
structure Moment.Allows (Ok : Moment → GatewayCall → Prop) (m : Moment) (c : GatewayCall) : Prop where
  fresh : c.Fresh m.gateway
  time_le : m.time ≤ c.time
  ok : Ok m c

/-- `m'` comes after `m` by calls that all meet `Ok`. -/
def Moment.Later (K : MerchantKeys) (Ok : Moment → GatewayCall → Prop) : Moment → Moment → Prop :=
  Relation.ReflTransGen fun m m' => ∃ c, m.Allows Ok c ∧ m' = m.after K c

/-- What the statuses promise, over every run whose calls meet `Ok`. -/
structure OutcomesFinal (K : MerchantKeys) (Ok : Moment → GatewayCall → Prop) : Prop where
  terminal : ∀ (publicUrl : String) (time sink : Nat) (m m' : Moment),
    Moment.Later K Ok ⟨.new publicUrl, time, sink⟩ m → m.Later K Ok m' →
    ∀ i ∈ m.gateway.invoices, ∀ i' ∈ m'.gateway.invoices, i'.id = i.id → i.status.terminal → i'.status.terminal
  expired : ∀ (publicUrl : String) (time sink : Nat) (m : Moment) (c : GatewayCall),
    Moment.Later K Ok ⟨.new publicUrl, time, sink⟩ m → m.Allows Ok c →
    ∀ i ∈ m.gateway.invoices, ∀ i' ∈ (m.after K c).gateway.invoices, i'.id = i.id →
      i.status = .expired → i'.status = .expired ∨ i'.status = .paidLate
  late : ∀ (publicUrl : String) (time sink : Nat) (m m' : Moment) (o : Observation) (eventId : String),
    Moment.Later K Ok ⟨.new publicUrl, time, sink⟩ m → m.Allows Ok (.observe o eventId) →
    (m.after K (.observe o eventId)).Later K Ok m' →
    ∀ i ∈ m.gateway.invoices, ∀ i₁ ∈ (m.after K (.observe o eventId)).gateway.invoices, ∀ i' ∈ m'.gateway.invoices,
      i₁.id = i.id → i'.id = i.id → i.paidSompi < i.amountSompi → i₁.amountSompi ≤ i₁.paidSompi →
      i.expiresAt ≤ o.observedAt → ¬ i'.status.Fulfil

/-- The sink does not go back, a payment has some value, and no invoice paid late in full is advanced. -/
def Orderly (m : Moment) : GatewayCall → Prop
  | .create .. => True
  | .observe o _ => m.sink ≤ o.sinkBlueScore ∧ 0 < o.amountSompi
  | .advance _ sinkBlueScore _ =>
    m.sink ≤ sinkBlueScore ∧ ∀ i ∈ m.gateway.invoices, i.status = .paidLate → i.paidSompi < i.amountSompi

/-! ## Where an invoice comes from -/

theorem Invoice.advance_id (now sink : Nat) (i : Invoice) : (i.advance now sink).id = i.id := by
  unfold advance
  split
  · rfl
  split <;> rfl

def Gateway.UniqueIds (G : Gateway) : Prop := (G.invoices.map (·.id)).Nodup

variable {G : Gateway} {i : Invoice}

theorem Gateway.UniqueIds.eq (h : G.UniqueIds) {j : Invoice} (hi : i ∈ G.invoices) (hj : j ∈ G.invoices)
    (hid : i.id = j.id) : i = j :=
  inj_on_of_nodup_map h hi hj hid

theorem Gateway.UniqueIds.createInvoice (h : G.UniqueIds) (K : MerchantKeys) (request : CreateInvoice)
    (id : String) : (G.createInvoice K request id).2.UniqueIds := by
  rcases G.createInvoice_cases K request id with ⟨next, -, heq⟩ | ⟨invoice, idem, -, hid, -, -, -, -, -, heq⟩
  · rw [heq]
    exact h
  · rw [heq]
    refine nodup_cons.mpr ⟨?_, h.sublist (filter_sublist.map _)⟩
    simp [hid]

theorem Gateway.UniqueIds.call {G : Gateway} (h : G.UniqueIds) (K : MerchantKeys) (c : GatewayCall) :
    (G.call K c).UniqueIds := by
  cases c with
  | create request id => exact h.createInvoice K request id
  | observe o eventId =>
    rcases G.observePayment_cases o eventId with ⟨id, -, heq⟩ | ⟨-, seen, heq⟩
    · rw [Gateway.call, heq, UniqueIds, Gateway.modify, List.map_map]
      have hid : (fun i : Invoice => i.id) ∘ (fun i => if i.id = id then i.credit o else i) = fun i => i.id := by
        funext i
        show (if i.id = id then i.credit o else i).id = i.id
        split <;> rfl
      rw [hid]
      exact h
    · rw [Gateway.call, heq]
      exact h
  | advance now sink eventId =>
    have hid : (fun i : Invoice => i.id) ∘ Invoice.advance now sink = fun i => i.id :=
      funext fun i => i.advance_id now sink
    rw [UniqueIds]
    show (map _ (map _ _)).Nodup
    rw [map_map, hid]
    exact h

/-- The steps an earlier invoice can take. -/
inductive Invoice.Becomes (G : Gateway) (i : Invoice) : GatewayCall → Invoice → Prop where
  | same {c : GatewayCall} : Becomes G i c i
  | credited {o : Observation} {eventId : String} (credits : G.Credits o i.id) :
    Becomes G i (.observe o eventId) (i.credit o)
  | advanced {now sink : Nat} {eventId : String → String} : Becomes G i (.advance now sink eventId) (i.advance now sink)

variable {K : MerchantKeys} {c : GatewayCall}

theorem Gateway.becomes (unique : G.UniqueIds) (fresh : c.Fresh G)
    {i' : Invoice} (hi : i ∈ G.invoices) (hi' : i' ∈ (G.call K c).invoices) (hid : i'.id = i.id) :
    i.Becomes G c i' := by
  cases call_step hi' with
  | created id_eq => exact absurd (hid.symm.trans id_eq) (fresh i hi)
  | same mem =>
    cases unique.eq mem hi hid
    exact .same
  | credited mem credits =>
    cases unique.eq mem hi hid
    exact .credited credits
  | advanced mem =>
    cases unique.eq mem hi ((advance_id _ _ _).symm.trans hid)
    exact .advanced

/-! ## What the statuses say -/

/-- What each terminal status says of an invoice, at a time and a sink. -/
structure Invoice.Truthful (time sink : Nat) (i : Invoice) : Prop where
  amount_pos : 0 < i.amountSompi
  confirmed : i.status = .confirmed →
    i.paidSompi = i.amountSompi ∧ ∀ p ∈ i.payments, i.requiredBlueScore ≤ sink - p.blueScore
  overpaid : i.status = .overpaid → i.amountSompi < i.paidSompi
  paidLate : i.status = .paidLate → i.expiresAt ≤ time
  expired : i.status = .expired → i.expiresAt ≤ time ∧ i.paidSompi = 0

theorem Invoice.Truthful.later {time time' sink sink' : Nat} (h : i.Truthful time sink) (htime : time ≤ time')
    (hsink : sink ≤ sink') : i.Truthful time' sink' where
  amount_pos := h.amount_pos
  confirmed hs := by
    obtain ⟨hpaid, hdeep⟩ := h.confirmed hs
    refine ⟨hpaid, fun p hp => ?_⟩
    have := hdeep p hp
    omega
  overpaid := h.overpaid
  paidLate hs := (h.paidLate hs).trans htime
  expired hs := ⟨(h.expired hs).1.trans htime, (h.expired hs).2⟩

/-- `payment_status` answers four statuses, each with its reason. -/
theorem Invoice.paymentStatus_cases (i : Invoice) (sink : Nat) :
    (i.paymentStatus sink = .partlyPaid ∧ i.paidSompi < i.amountSompi) ∨
    (i.paymentStatus sink = .overpaid ∧ i.amountSompi < i.paidSompi) ∨
    (i.paymentStatus sink = .confirmed ∧ i.paidSompi = i.amountSompi ∧
      ∀ p ∈ i.payments, i.requiredBlueScore ≤ sink - p.blueScore) ∨
    (i.paymentStatus sink = .paid ∧ i.paidSompi = i.amountSompi ∧
      ¬ ∀ p ∈ i.payments, i.requiredBlueScore ≤ sink - p.blueScore) := by
  unfold paymentStatus
  split
  case isTrue h => exact .inl ⟨rfl, h⟩
  case isFalse hge =>
    split
    case isTrue h => exact .inr (.inl ⟨rfl, h⟩)
    case isFalse hle =>
      have heq : i.paidSompi = i.amountSompi := by omega
      split
      case isTrue h => exact .inr (.inr (.inl ⟨rfl, heq, by simpa using h⟩))
      case isFalse h => exact .inr (.inr (.inr ⟨rfl, heq, by simpa using h⟩))

theorem Invoice.truthful_of_paymentStatus {sink : Nat} (time : Nat) (hpos : 0 < i.amountSompi)
    (hstatus : i.status = i.paymentStatus sink) : i.Truthful time sink := by
  rcases i.paymentStatus_cases sink with ⟨h, hr⟩ | ⟨h, hr⟩ | ⟨h, hr⟩ | ⟨h, hr⟩ <;>
    constructor <;> simp_all

variable {o : Observation}

/-- A credited invoice, once its lateness is known. -/
theorem Invoice.credit_status_late (h : i.status = .expired ∨ i.expiresAt ≤ o.observedAt) :
    (i.credit o).status = .paidLate :=
  if_pos h

theorem Invoice.credit_status_timely
    (h : ¬ (i.status = .expired ∨ i.expiresAt ≤ o.observedAt)) :
    (i.credit o).status = (i.credit o).paymentStatus o.sinkBlueScore :=
  if_neg h

theorem Invoice.Truthful.credit {time sink : Nat} (h : i.Truthful time sink)
    (htime : time ≤ o.observedAt) : (i.credit o).Truthful o.observedAt o.sinkBlueScore := by
  by_cases hlate : i.status = .expired ∨ i.expiresAt ≤ o.observedAt
  · have hexp : i.expiresAt ≤ o.observedAt := hlate.elim (fun hs => (h.expired hs).1.trans htime) (fun h => h)
    have hstatus := credit_status_late hlate
    exact ⟨h.amount_pos, by simp [hstatus], by simp [hstatus], fun _ => hexp, by simp [hstatus]⟩
  · exact truthful_of_paymentStatus _ h.amount_pos (credit_status_timely hlate)

/-- `advance` expires an unpaid invoice, computes the status of one with its amount, and leaves the rest. -/
theorem Invoice.advance_cases (now sink : Nat) (i : Invoice) :
    (i.paidSompi = 0 ∧ i.expiresAt ≤ now ∧ i.advance now sink = { i with status := .expired }) ∨
    (i.amountSompi ≤ i.paidSompi ∧ i.advance now sink = { i with status := i.paymentStatus sink }) ∨
    (i.paidSompi < i.amountSompi ∧ i.advance now sink = i) := by
  unfold advance
  split
  case isTrue h => exact .inl ⟨h.1, h.2, rfl⟩
  case isFalse =>
    split
    case isTrue h => exact .inr (.inl ⟨h, rfl⟩)
    case isFalse h => exact .inr (.inr ⟨by omega, rfl⟩)

theorem Invoice.Truthful.advance {i : Invoice} {time sink now sink' : Nat} (h : i.Truthful time sink)
    (htime : time ≤ now) (hsink : sink ≤ sink') : (i.advance now sink').Truthful now sink' := by
  rcases i.advance_cases now sink' with ⟨hpaid, hexp, heq⟩ | ⟨-, heq⟩ | ⟨-, heq⟩
  · rw [heq]
    exact ⟨h.amount_pos, (nomatch ·), (nomatch ·), (nomatch ·), fun _ => ⟨hexp, hpaid⟩⟩
  · rw [heq]
    exact truthful_of_paymentStatus _ h.amount_pos rfl
  · rw [heq]
    exact h.later htime hsink

/-- What every moment of an orderly run keeps. -/
structure Moment.Kept (m : Moment) : Prop where
  unique : m.gateway.UniqueIds
  truthful : ∀ i ∈ m.gateway.invoices, i.Truthful m.time m.sink

variable {m : Moment}

theorem Orderly.sink_le (h : Orderly m c) : m.sink ≤ c.sinkAfter m.sink := by
  cases c with
  | create request id => exact Nat.le_refl _
  | observe o eventId => exact h.1
  | advance now sink eventId => exact h.1

theorem Moment.Kept.after (h : m.Kept) (K : MerchantKeys) (hc : m.Allows Orderly c) :
    (m.after K c).Kept := by
  refine ⟨h.unique.call K c, fun i hi => ?_⟩
  cases call_step hi with
  | created id_eq amount_ne paid status payments =>
    exact ⟨Nat.pos_of_ne_zero amount_ne, by simp [status], by simp [status], by simp [status], by simp [status]⟩
  | same mem => exact (h.truthful _ mem).later hc.time_le hc.ok.sink_le
  | credited mem => exact (h.truthful _ mem).credit hc.time_le
  | advanced mem => exact (h.truthful _ mem).advance hc.time_le hc.ok.1

theorem Moment.Later.kept {m' : Moment} (h : m.Later K Orderly m') (hm : m.Kept) : m'.Kept := by
  induction h with
  | refl => exact hm
  | tail _ hstep ih =>
    obtain ⟨c, hc, rfl⟩ := hstep
    exact ih.after K hc

theorem Moment.Kept.new (publicUrl : String) (time sink : Nat) : Moment.Kept ⟨.new publicUrl, time, sink⟩ :=
  ⟨nodup_nil, fun _ h => nomatch h⟩

/-! ## Runs -/

theorem Gateway.exists_after (K : MerchantKeys) (fresh : c.Fresh G)
    (hi : i ∈ G.invoices) : ∃ i' ∈ (G.call K c).invoices, i'.id = i.id := by
  cases c with
  | create request id =>
    refine ⟨i, ?_, rfl⟩
    show i ∈ (G.createInvoice K request id).2.invoices
    rcases G.createInvoice_cases K request id with ⟨next, -, heq⟩ | ⟨invoice, idem, -, -, -, -, -, -, -, heq⟩
    · rw [heq]
      exact hi
    · rw [heq]
      exact mem_cons_of_mem _ (mem_filter.mpr ⟨hi, decide_eq_true (fresh i hi)⟩)
  | observe o eventId =>
    rcases G.observePayment_cases o eventId with ⟨id, -, heq⟩ | ⟨-, seen, heq⟩
    · rw [call, heq]
      refine ⟨_, mem_map_of_mem hi, ?_⟩
      split <;> rfl
    · rw [call, heq]
      exact ⟨i, hi, rfl⟩
  | advance now sink eventId => exact ⟨_, mem_map_of_mem hi, i.advance_id now sink⟩

/-- What every step keeps of an invoice holds of it ever after. -/
theorem Moment.Later.invoice {Q : Moment → Invoice → Prop} {m' : Moment} (h : m.Later K Orderly m')
    (step : ∀ (m : Moment) (c : GatewayCall) (i i' : Invoice), m.Kept → m.Allows Orderly c → i ∈ m.gateway.invoices →
      i.Becomes m.gateway c i' → Q m i → Q (m.after K c) i')
    (hm : m.Kept) {i' : Invoice} (hi : i ∈ m.gateway.invoices) (hQ : Q m i) (hi' : i' ∈ m'.gateway.invoices)
    (hid : i'.id = i.id) : Q m' i' := by
  induction h using Relation.ReflTransGen.head_induction_on generalizing i with
  | refl => exact hm.unique.eq hi' hi hid ▸ hQ
  | head hstep _ ih =>
    obtain ⟨c, hc, rfl⟩ := hstep
    obtain ⟨i₁, hi₁, hid₁⟩ := exists_after K hc.fresh hi
    have hQ₁ := step _ c i i₁ hm hc hi (becomes hm.unique hc.fresh hi hi₁ hid₁) hQ
    exact ih (hm.after K hc) hi₁ hQ₁ (hid.trans hid₁.symm)

theorem Invoice.Becomes.terminal {i' : Invoice} (hi : i.Truthful m.time m.sink)
    (hmem : i ∈ m.gateway.invoices) (hc : m.Allows Orderly c) (h : i.Becomes m.gateway c i')
    (hterminal : i.status.terminal) : i'.status.terminal := by
  cases h with
  | same => exact hterminal
  | @credited o eventId _ =>
    by_cases hlate : i.status = .expired ∨ i.expiresAt ≤ o.observedAt
    · rw [credit_status_late hlate]
      rfl
    · -- in time the invoice was confirmed or overpaid, and now has more than its amount
      have hover : i.amountSompi < (i.credit o).paidSompi := by
        show i.amountSompi < i.paidSompi + o.amountSompi
        have hpos : 0 < o.amountSompi := hc.ok.2
        have htime : m.time ≤ o.observedAt := hc.time_le
        cases hs : i.status with
        | confirmed =>
          have := (hi.confirmed hs).1
          omega
        | overpaid =>
          have := hi.overpaid hs
          omega
        | paidLate => exact absurd (.inr ((hi.paidLate hs).trans htime)) hlate
        | expired => exact absurd (.inl hs) hlate
        | new | partlyPaid | paid =>
          rw [hs] at hterminal
          cases hterminal
      rw [credit_status_timely hlate]
      rcases (i.credit o).paymentStatus_cases o.sinkBlueScore with ⟨h, hr⟩ | ⟨h, hr⟩ | ⟨h, hr⟩ | ⟨h, hr, -⟩
      · exact absurd hr (Nat.not_lt.mpr (Nat.le_of_lt hover))
      · rw [h]
        rfl
      · rw [h]
        rfl
      · exact absurd hr (Nat.ne_of_gt hover)
  | @advanced now sink eventId =>
    rcases i.advance_cases now sink with ⟨-, -, heq⟩ | ⟨hle, heq⟩ | ⟨-, heq⟩
    · rw [heq]
      rfl
    · rw [heq]
      have hsink : m.sink ≤ sink := hc.ok.1
      rcases i.paymentStatus_cases sink with ⟨h, hr⟩ | ⟨h, hr⟩ | ⟨h, hr⟩ | ⟨h, hr, hshallow⟩
      · omega
      · rw [h]
        rfl
      · rw [h]
        rfl
      · cases hs : i.status with
        | confirmed => exact absurd (((hi.later (Nat.le_refl _) hsink).confirmed hs).2) hshallow
        | overpaid =>
          have := hi.overpaid hs
          omega
        | paidLate =>
          have := hc.ok.2 i hmem hs
          omega
        | expired =>
          have := (hi.expired hs).2
          have := hi.amount_pos
          omega
        | new | partlyPaid | paid =>
          rw [hs] at hterminal
          cases hterminal
    · rw [heq]
      exact hterminal

theorem Invoice.Becomes.expired {m : Moment} {c : GatewayCall} {i i' : Invoice} (hi : i.Truthful m.time m.sink)
    (htime : m.time ≤ c.time) (h : i.Becomes m.gateway c i') (hs : i.status = .expired) :
    i'.status = .expired ∨ i'.status = .paidLate := by
  cases h with
  | same => exact .inl hs
  | credited => exact .inr (credit_status_late (.inl hs))
  | @advanced now sink eventId =>
    rcases i.advance_cases now sink with ⟨-, -, heq⟩ | ⟨hle, -⟩ | ⟨-, heq⟩
    · exact .inl (by rw [heq])
    · have := (hi.expired hs).2
      have := hi.amount_pos
      omega
    · exact .inl (by rw [heq, hs])

/-- Paid in full, and late. -/
structure Invoice.Late (m : Moment) (i : Invoice) : Prop where
  status : i.status = .paidLate
  amount_le : i.amountSompi ≤ i.paidSompi
  expired : i.expiresAt ≤ m.time

theorem Invoice.Becomes.late {i' : Invoice}
    (hmem : i ∈ m.gateway.invoices) (hc : m.Allows Orderly c) (h : i.Becomes m.gateway c i') (hi : i.Late m) :
    i'.Late (m.after K c) := by
  have hexp : i.expiresAt ≤ c.time := hi.expired.trans hc.time_le
  cases h with
  | same => exact ⟨hi.status, hi.amount_le, hexp⟩
  | @credited o eventId _ =>
    exact ⟨credit_status_late (.inr hexp), hi.amount_le.trans (Nat.le_add_right _ _), hexp⟩
  | advanced => exact absurd (hc.ok.2 i hmem hi.status) (Nat.not_lt.mpr hi.amount_le)

/-- Along orderly calls, outcomes are final and lateness sticks. -/
theorem outcomes_final (K : MerchantKeys) : OutcomesFinal K Orderly where
  terminal publicUrl time sink m m' hm hlater i hi i' hi' hid hterminal :=
    hlater.invoice
      (fun m _ i _ kept hc hi h => h.terminal (kept.truthful i hi) hi hc)
      (hm.kept (.new publicUrl time sink)) hi hterminal hi' hid
  expired publicUrl time sink m c hm hc i hi i' hi' hid hs := by
    have kept := hm.kept (.new publicUrl time sink)
    exact (becomes kept.unique hc.fresh hi hi' hid).expired (kept.truthful i hi) hc.time_le hs
  late publicUrl time sink m m' o eventId hm hc hlater i hi i₁ hi₁ i' hi' hid₁ hid hbefore hreached hexp := by
    have kept := hm.kept (.new publicUrl time sink)
    have hlate : i₁.Late (m.after K (.observe o eventId)) := by
      cases becomes (K := K) kept.unique hc.fresh hi hi₁ hid₁ with
      | same => omega
      | credited => exact ⟨credit_status_late (.inr hexp), hreached, hexp⟩
    have := (hlater.invoice (fun m _ i _ _ hc hi h => h.late hi hc)
      (kept.after K hc) hi₁ hlate hi' (hid.trans hid₁.symm)).status
    rintro (h | h) <;> cases this.symm.trans h

/-- The invoice of `shop`, paid in full when it has expired. -/
def shopPaidLate : Moment := (Moment.after merchant ⟨shop, 1000, 100⟩ (payment 100 100 2000 7))

theorem shop_later {Ok : Moment → GatewayCall → Prop} (h : Ok ⟨.new "https://pay", 0, 100⟩ (.create order "inv_1")) :
    Moment.Later merchant Ok ⟨.new "https://pay", 0, 100⟩ ⟨shop, 1000, 100⟩ :=
  .single ⟨.create order "inv_1", ⟨fun _ h => (nomatch h), Nat.zero_le _, h⟩, rfl⟩

/-- The late invoice is paid once more, and stays late. -/
theorem shopPaidLate_final :
    shopPaidLate.gateway.invoices.map (·.status) = [.paidLate] ∧
    ∀ i ∈ (shopPaidLate.after merchant (payment 5 110 2100 8)).gateway.invoices, i.id = "inv_1" →
      ¬ i.status.Fulfil := by
  have again : shopPaidLate.Later merchant Orderly (shopPaidLate.after merchant (payment 5 110 2100 8)) :=
    .single ⟨payment 5 110 2100 8, ⟨trivial, by decide, by decide, by decide⟩, rfl⟩
  refine ⟨by decide +kernel, fun i hi hid => ?_⟩
  exact (outcomes_final merchant).late _ _ _ _ _ _ "evt_1" (shop_later trivial)
    ⟨trivial, by decide, by decide, by decide⟩ again
    orderInvoice (by decide +kernel) (orderInvoice.credit ⟨1, 7, 100, 100, 100, 100, 2000⟩)
      (by decide +kernel) i hi rfl hid
    (by decide) (by decide) (by decide)

/-- `advance` turns an invoice paid late back into a paid one, and at the required depth into a confirmed one. -/
theorem paidLate_confirmed :
    (shopPaidLate.gateway.invoices.map (·.status) = [.paidLate] ∧
      ((shopPaidLate.after merchant (.advance 2000 100 id)).gateway.invoices.map (·.status) = [.paid])) ∧
    ¬ OutcomesFinal merchant fun _ _ => True := by
  refine ⟨⟨by decide +kernel, by decide +kernel⟩, fun h => ?_⟩
  have advanced : shopPaidLate.Later merchant (fun _ _ => True) (shopPaidLate.after merchant (.advance 2000 110 id)) :=
    .single ⟨.advance 2000 110 id, ⟨trivial, Nat.le_refl _, trivial⟩, rfl⟩
  exact h.late _ _ _ _ _ _ "evt_1" (shop_later trivial) ⟨trivial, by decide, trivial⟩ advanced orderInvoice
    (by decide +kernel)
    (orderInvoice.credit ⟨1, 7, 100, 100, 100, 100, 2000⟩) (by decide +kernel)
    ((orderInvoice.credit ⟨1, 7, 100, 100, 100, 100, 2000⟩).advance 2000 110) (by decide +kernel)
    rfl (advance_id _ _ _) (by decide) (by decide) (by decide) (.inl (by decide))

/-! ## Payments that are observed again -/

theorem Gateway.seen_call : G.seenTransactions ⊆ (G.call K c).seenTransactions := by
  cases c with
  | create request id =>
    rcases G.createInvoice_cases K request id with ⟨_, -, eq⟩ | ⟨_, _, -, -, -, -, -, -, -, eq⟩ <;>
    simp [call, eq]
  | observe o eventId =>
    unfold call observePayment
    dsimp only
    repeat' split
    all_goals simp [modify]
  | advance now sink eventId => exact fun _ h => h

/-- The payments of an invoice are of different transactions, all marked as seen. -/
def Invoice.CreditedOnce (G : Gateway) (i : Invoice) : Prop :=
  (i.payments.map (·.transactionId)).Nodup ∧ ∀ p ∈ i.payments, (p.transactionId, i.id) ∈ G.seenTransactions

/-- **A payment is credited once**, however often and in whatever order payments are observed, and the
total of an invoice is that of its payments. -/
theorem payments_credited_once {Ok : Gateway → GatewayCall → Prop} (run : G.Reached K Ok) :
    ∀ i ∈ G.invoices, i.CreditedOnce G ∧ i.paidSompi = totalOf i.payments := by
  have accounted := run.forall_invoices fun _ _ _ _ inv h => h.accounted inv
  suffices once : ∀ i ∈ G.invoices, i.CreditedOnce G from fun i hi => ⟨once i hi, (accounted i hi).paid_eq⟩
  clear accounted
  induction run with
  | new publicUrl => exact fun i hi => nomatch hi
  | @call G _ c _ _ ih =>
    intro i hi
    cases call_step hi with
    | created _ _ _ _ payments => simp [CreditedOnce, payments]
    | same mem => exact ⟨(ih i mem).1, fun p hp => seen_call ((ih i mem).2 p hp)⟩
    | @credited o eventId i mem credits =>
      obtain ⟨nodup, seen⟩ := ih i mem
      have new : o.transactionId ∉ i.payments.map (·.transactionId) := fun again => by
        obtain ⟨p, hp, same⟩ := mem_map.mp again
        exact credits.2.1 (same ▸ seen p hp)
      refine ⟨by simpa [credit, addPayment] using nodup.concat new, fun p hp => ?_⟩
      rcases mem_append.mp hp with hp | hp
      · exact seen_call (seen p hp)
      · rcases G.observePayment_cases o eventId with ⟨id, other, eq⟩ | ⟨none, -⟩
        · rw [mem_singleton.mp hp, call, eq, Option.some.inj (other.1.symm.trans credits.1)]
          exact Finset.mem_insert_self ..
        · exact absurd credits (none _)
    | @advanced now sink eventId i mem =>
      rcases i.advance_cases now sink with ⟨-, -, eq⟩ | ⟨-, eq⟩ | ⟨-, eq⟩ <;>
      · rw [eq]
        exact ih i mem

/-- A payment of 40 is observed twice, and one of 60 after it. -/
def shopPaidInParts : Gateway :=
  ((shop.call merchant (payment 40 100 1100 7)).call merchant (payment 40 105 1150 7)).call merchant
    (payment 60 110 1200 8)

theorem payments_credited_once_parts :
    shopPaidInParts.invoices.map (fun i => (i.payments.map (·.transactionId), i.paidSompi)) = [([7, 8], 100)] ∧
    ∀ i ∈ shopPaidInParts.invoices, i.CreditedOnce shopPaidInParts ∧ i.paidSompi = totalOf i.payments :=
  have first := (@shop_reached (fun _ _ => True) trivial).call (payment 40 100 1100 7) trivial trivial
  have again := first.call (payment 40 105 1150 7) trivial trivial
  ⟨by decide +kernel, payments_credited_once (again.call (payment 60 110 1200 8) trivial trivial)⟩

end Firecash
