import Firecash.Lib.Outcome
import Firecash.Walletd.Payment

/-!
# What a payment plan pays

The rounds of `select_spend_count` go up: a higher fee has a higher target and takes more notes, and more
notes have a higher fee. They stop at a count whose own fee they charge (`SettledFee`), and they never
pass a count whose notes cover the amount and their own fee, so they stop at the least such count. A plan
over those rounds pays the amount exactly (`SoundPlan`).
-/

namespace Firecash

open Checked List Option Except

/-! ## Fees grow with the notes -/

variable {n : Nat}

theorem expectedWireLen_mono {m : Nat} (h : n ≤ m) : expectedWireLen n ≤ expectedWireLen m := by
  unfold expectedWireLen expectedProofLen
  have := Nat.mul_le_mul_right ACTION_WIRE_LEN h
  omega

theorem minRelayFeeForSpends_eq_some {fee : UInt64} (h : minRelayFeeForSpends n = some fee) :
    (expectedWireLen (max n 2) + TX_ENVELOPE_BYTES_FEE) * TRANSIENT_BYTE_TO_MASS_FACTOR / 2 * RELAY_FEE_PER_KG <
      U64_BOUND ∧
    fee.toNat = (expectedWireLen (max n 2) + TX_ENVELOPE_BYTES_FEE) * TRANSIENT_BYTE_TO_MASS_FACTOR / 2 *
      RELAY_FEE_PER_KG / 1000 := by
  obtain ⟨v, hv, rfl⟩ := map_eq_some_iff.mp h
  have exact := ofNat?_eq_some.mp hv
  constructor
  · rw [← exact]
    exact toNat_lt_bound v
  · rw [UInt64.toNat_div, exact]
    rfl

/-- Where the fee of more notes is a number, the fee of fewer is one that is not higher. -/
theorem exists_minRelayFee_le {m : Nat} {high : UInt64} (h : n ≤ m) (hm : minRelayFeeForSpends m = some high) :
    ∃ low, minRelayFeeForSpends n = some low ∧ low ≤ high := by
  obtain ⟨fits, value⟩ := minRelayFeeForSpends_eq_some hm
  have longer : expectedWireLen (max n 2) ≤ expectedWireLen (max m 2) := expectedWireLen_mono (max_le_max_right 2 h)
  have product :
      (expectedWireLen (max n 2) + TX_ENVELOPE_BYTES_FEE) * TRANSIENT_BYTE_TO_MASS_FACTOR / 2 * RELAY_FEE_PER_KG ≤
      (expectedWireLen (max m 2) + TX_ENVELOPE_BYTES_FEE) * TRANSIENT_BYTE_TO_MASS_FACTOR / 2 * RELAY_FEE_PER_KG := by
    gcongr
  obtain ⟨v, hv⟩ :
    ∃ v, ofNat? ((expectedWireLen (max n 2) + TX_ENVELOPE_BYTES_FEE) * TRANSIENT_BYTE_TO_MASS_FACTOR / 2 *
      RELAY_FEE_PER_KG) = some v :=
    ⟨_, ofNat?_eq_some.mpr (UInt64.toNat_ofNat_of_lt' (product.trans_lt fits))⟩
  have low : minRelayFeeForSpends n = some (v / 1000) := congrArg (Option.map (· / 1000)) hv
  refine ⟨_, low, UInt64.le_iff_toNat_le.mpr ?_⟩
  rw [(minRelayFeeForSpends_eq_some low).2, value]
  exact Nat.div_le_div_right product

variable {baseFee : UInt64}

theorem exists_chunkFee_le {high : UInt64} {m : Nat} (h : n ≤ m) (hm : chunkFee baseFee m = some high) :
    ∃ low, chunkFee baseFee n = some low ∧ low ≤ high := by
  obtain ⟨relay, hr, rfl⟩ := map_eq_some_iff.mp hm
  obtain ⟨low, hl, le⟩ := exists_minRelayFee_le h hr
  refine ⟨max baseFee low, congrArg (Option.map (max baseFee)) hl, UInt64.le_iff_toNat_le.mpr ?_⟩
  rw [toNat_max, toNat_max]
  exact max_le_max_left _ (UInt64.le_iff_toNat_le.mp le)

theorem chunkFee_mono {low high : UInt64} {m : Nat} (h : n ≤ m) (hn : chunkFee baseFee n = some low)
    (hm : chunkFee baseFee m = some high) : low ≤ high := by
  obtain ⟨low', hl, le⟩ := exists_chunkFee_le h hm
  rw [hn] at hl
  cases hl
  exact le

/-! ## The notes of one round -/

/-- Going through `values` for `target` ends after `n` notes. -/
structure Stops (maxPerTx : Nat) (values : List UInt64) (target n : Nat) : Prop where
  room : n ≤ maxPerTx
  inside : n ≤ values.length
  below : ∀ k < n, natSum (values.take k) < target
  reached : n < maxPerTx → n < values.length → target ≤ natSum (values.take n)

namespace Stops

variable {maxPerTx target target' n m : Nat} {values : List UInt64}

theorem mono (low : Stops maxPerTx values target n) (high : Stops maxPerTx values target' m)
    (h : target ≤ target') : n ≤ m := by
  by_contra more
  have under := low.below m (by omega)
  have big := high.reached (by have := low.room; omega) (by have := low.inside; omega)
  omega

/-- The round takes no more notes than any number that reaches the target. -/
theorem le_of_reaches (h : Stops maxPerTx values target n) (reaches : target ≤ natSum (values.take m)) : n ≤ m := by
  by_contra more
  have := h.below m (by omega)
  omega

/-- A number that fits a transaction and reaches the target lets the round reach it. -/
theorem reaches (h : Stops maxPerTx values target n) (room : m ≤ maxPerTx) (reaches : target ≤ natSum (values.take m)) :
    target ≤ natSum (values.take n) := by
  have le := h.le_of_reaches reaches
  by_cases all : values.length ≤ n
  · rw [take_of_length_le all]
    rw [take_of_length_le (all.trans le)] at reaches
    exact reaches
  · by_cases same : n = m
    · subst same
      exact reaches
    · exact h.reached (by omega) (by omega)

end Stops

variable {maxPerTx : Nat} {values : List UInt64}

theorem takeSpends_stops {target sum : UInt64} {m : Nat}
    (h : takeSpends maxPerTx target values n sum = some m) (room : n ≤ maxPerTx) :
    ∃ k, m = n + k ∧ Stops (maxPerTx - n) values (target.toNat - sum.toNat) k := by
  induction values generalizing n sum with
  | nil =>
    cases h
    exact ⟨0, rfl, Nat.zero_le _, Nat.le_refl _, fun k hk => absurd hk (Nat.not_lt_zero k), fun _ hk =>
      absurd hk (Nat.lt_irrefl 0)⟩
  | cons value values ih =>
    rw [takeSpends] at h
    by_cases more : n < maxPerTx ∧ sum < target
    · rw [if_pos more] at h
      obtain ⟨sum', added, h⟩ := bind_eq_some_iff.mp h
      have total := checkedAdd_eq_some.mp added
      have short := UInt64.lt_iff_toNat_lt.mp more.2
      obtain ⟨k, rfl, stops⟩ := ih h more.1
      refine ⟨k + 1, by omega, ⟨?_, ?_, ?_, ?_⟩⟩
      · have := stops.room
        omega
      · exact Nat.succ_le_succ stops.inside
      · intro j hj
        cases j with
        | zero =>
          rw [take_zero, natSum_nil]
          omega
        | succ j =>
          have := stops.below j (by omega)
          rw [take_succ_cons, natSum_cons]
          omega
      · intro hk inside
        have := stops.reached (by omega) (by simpa using inside)
        rw [take_succ_cons, natSum_cons]
        omega
    · rw [if_neg more] at h
      cases h
      refine ⟨0, rfl, Nat.zero_le _, Nat.zero_le _, fun k hk => absurd hk (Nat.not_lt_zero k), fun hn _ => ?_⟩
      have done : ¬ sum < target := fun short => more ⟨by omega, short⟩
      have := UInt64.le_iff_toNat_le.mp (UInt64.not_lt.mp done)
      rw [take_zero, natSum_nil]
      omega

theorem takeSpends_ne_none {target sum : UInt64}
    (fits : sum.toNat + natSum values < U64_BOUND) : takeSpends maxPerTx target values n sum ≠ none := by
  induction values generalizing n sum with
  | nil => exact some_ne_none n
  | cons value values ih =>
    rw [natSum_cons] at fits
    rw [takeSpends]
    by_cases more : n < maxPerTx ∧ sum < target
    · obtain ⟨sum', added⟩ : ∃ sum', checkedAdd sum value = some sum' := by
        rw [← isSome_iff_exists, (Computes.add sum value).isSome]
        omega
      have total := checkedAdd_eq_some.mp added
      rw [if_pos more, added]
      exact ih (by omega)
    · rw [if_neg more]
      exact some_ne_none n

/-! ## The fee of a transaction -/

/-- The fee of every number of notes a transaction can spend here is a number. -/
def FeesInRange (baseFee : UInt64) (maxPerTx available : Nat) : Prop :=
  ∀ n ≤ maxPerTx, n ≤ available → chunkFee baseFee (max n 1) ≠ none

/-- The first `n` notes cover the amount and the fee of spending them. -/
def Covers (baseFee : UInt64) (values : List UInt64) (amount : UInt64) (n : Nat) : Prop :=
  ∃ fee, chunkFee baseFee n = some fee ∧ amount.toNat + fee.toNat ≤ natSum (values.take n)

theorem Covers.pos {amount : UInt64} (h : Covers baseFee values amount n)
    (wanted : amount ≠ 0) : 1 ≤ n := by
  obtain ⟨fee, -, enough⟩ := h
  by_contra none
  obtain rfl : n = 0 := by omega
  rw [take_zero, natSum_nil] at enough
  exact wanted (UInt64.toNat_inj.mp (show amount.toNat = 0 by omega))

theorem Covers.chunkFee_ne_none {amount : UInt64} {m : Nat} (h : Covers baseFee values amount n) (le : m ≤ n) :
    chunkFee baseFee m ≠ none := by
  obtain ⟨fee, fee_eq, -⟩ := h
  obtain ⟨low, low_eq, -⟩ := exists_chunkFee_le le fee_eq
  exact ne_none_iff_exists'.mpr ⟨low, low_eq⟩

/-- The rounds abort only if a fee overflows, and return an error only if no count covers the amount. -/
def RoundRuns {α : Type} (baseFee : UInt64) (maxPerTx : Nat) (values : List UInt64) (amount : UInt64)
    (r : Except (Fault PlanError) α) (good : α → Prop) : Prop :=
  r.Runs (FeesInRange baseFee maxPerTx values.length ∨ ∃ n ≤ maxPerTx, Covers baseFee values amount n)
    (fun _ => ∀ n ≤ maxPerTx, ¬ Covers baseFee values amount n) good

/-- The count at which the rounds stop, and the fee they charge. -/
structure SettledFee (baseFee : UInt64) (maxPerTx : Nat) (values : List UInt64) (amount : UInt64) (n : Nat)
    (fee : UInt64) : Prop where
  stops : Stops maxPerTx values (amount.toNat + fee.toNat) n
  fee_eq : chunkFee baseFee (max n 1) = some fee
  notPast : ∀ k ≤ maxPerTx, Covers baseFee values amount k → n ≤ k

section Rounds

variable {baseFee amount : UInt64} {maxPerTx : Nat} {values : List UInt64}

theorem settleFee_runs (fits : natSum values < U64_BOUND) (wanted : amount ≠ 0) {fuel m : Nat} {fee : UInt64}
    (fee_eq : chunkFee baseFee (max m 1) = some fee) (inside : m ≤ values.length) (enough : values.length < fuel + m)
    (below : ∀ n, Stops maxPerTx values (amount.toNat + fee.toNat) n → m ≤ n)
    (least : ∀ n ≤ maxPerTx, Covers baseFee values amount n → m ≤ n) :
    RoundRuns baseFee maxPerTx values amount (settleFee values amount baseFee maxPerTx fuel fee)
      fun r => SettledFee baseFee maxPerTx values amount r.1 r.2 := by
  induction fuel generalizing m fee with
  | zero => omega
  | succ fuel ih =>
    rw [settleFee]
    -- a count that covers the amount has at least this fee
    have reaches : ∀ n ≤ maxPerTx, Covers baseFee values amount n →
        amount.toNat + fee.toNat ≤ natSum (values.take n) := by
      intro n room covers
      obtain ⟨own, own_eq, enough⟩ := covers
      have le := least n room ⟨own, own_eq, enough⟩
      have one := Covers.pos ⟨own, own_eq, enough⟩ wanted
      have := UInt64.le_iff_toNat_le.mp (chunkFee_mono (max_le le one) fee_eq own_eq)
      omega
    have targets : RoundRuns baseFee maxPerTx values amount (ofOption (.err .amountOverflow) (checkedAdd amount fee))
        fun target => target.toNat = amount.toNat + fee.toNat := by
      refine runs_ofOption_err (fun big n room covers => ?_) fun target added => checkedAdd_eq_some.mp added
      have := checkedAdd_eq_none.mp big
      have := reaches n room covers
      have := natSum_take_le values n
      omega
    refine targets.bind fun target _ target_eq => ?_
    have taken :
        RoundRuns baseFee maxPerTx values amount
          (ofOption (.err .amountOverflow) (takeSpends maxPerTx target values 0 0))
        fun n => Stops maxPerTx values (amount.toNat + fee.toNat) n := by
      refine runs_ofOption_err (fun big => ?_) fun n counted => ?_
      · exact absurd big (takeSpends_ne_none (by simpa using fits))
      · obtain ⟨k, rfl, stops⟩ := takeSpends_stops counted (Nat.zero_le _)
        rw [Nat.zero_add, ← target_eq]
        exact stops
    refine taken.bind fun n _ stops => ?_
    have above := below n stops
    have notPast : ∀ k ≤ maxPerTx, Covers baseFee values amount k → n ≤ k := fun k room covers =>
      stops.le_of_reaches (reaches k room covers)
    refine Except.Runs.bind (runs_ofOption_panic ?_ fun required required_eq => required_eq)
      fun required _ required_eq => ?_
    · rintro big (fees | ⟨k, room, covers⟩)
      · exact fees n stops.room stops.inside big
      · exact covers.chunkFee_ne_none (max_le (notPast k room covers) (covers.pos wanted)) big
    by_cases done : required ≤ fee
    · -- more notes than the round before have no lower fee, so this one is the fee of the notes taken
      rw [if_pos done]
      have same := chunkFee_mono (max_le_max_right 1 above) fee_eq required_eq
      obtain rfl : required = fee := UInt64.le_antisymm done same
      exact ⟨stops, required_eq, notPast⟩
    · rw [if_neg done]
      have rises := UInt64.lt_iff_toNat_lt.mp (UInt64.not_le.mp done)
      have more : m < n := by
        by_contra same
        obtain rfl : n = m := by omega
        rw [fee_eq] at required_eq
        cases required_eq
        omega
      exact ih required_eq stops.inside (by omega) (fun k next => stops.mono next (by omega)) notPast

theorem selectSpendCount_runs (fits : natSum values < U64_BOUND) (wanted : amount ≠ 0) (room : maxPerTx ≠ 0) :
    RoundRuns baseFee maxPerTx values amount (selectSpendCount values amount baseFee maxPerTx)
      fun r => SettledFee baseFee maxPerTx values amount r.1 r.2 := by
  rw [selectSpendCount, if_neg wanted, if_neg room]
  refine Except.Runs.bind (runs_ofOption_panic ?_ fun fee fee_eq => fee_eq) fun fee _ fee_eq => ?_
  · rintro big (fees | ⟨n, -, covers⟩)
    · exact fees 0 (Nat.zero_le _) (Nat.zero_le _) big
    · exact covers.chunkFee_ne_none (covers.pos wanted) big
  · exact settleFee_runs (m := 0) fits wanted fee_eq (Nat.zero_le _) (by omega) (fun _ _ => Nat.zero_le _)
      fun _ _ _ => Nat.zero_le _

end Rounds

/-! ## The whole plan -/

/-- One transaction of a plan over the notes `sorted`. -/
structure SoundChunk (baseFee : UInt64) (maxPerTx : Nat) (sorted : List UInt64) (chunk : PaymentChunk) : Prop where
  amount_pos : 0 < chunk.amount.toNat
  room : chunk.stop - chunk.start ≤ maxPerTx
  fee_eq : chunkFee baseFee (chunk.stop - chunk.start) = some chunk.fee
  covered : chunk.amount.toNat + chunk.fee.toNat ≤ natSum ((sorted.drop chunk.start).take (chunk.stop - chunk.start))

/-- A plan pays `amount` from consecutive stretches of the notes in the order of their value. -/
structure SoundPlan (noteValues : List UInt64) (amount baseFee : UInt64) (maxPerTx : Nat) (plan : PaymentPlan) :
    Prop where
  notes : plan.sortedNoteValues.Perm noteValues
  descending : plan.sortedNoteValues.Pairwise (· ≥ ·)
  requested : plan.requestedAmount = amount
  tiles : ∃ stop ≤ plan.sortedNoteValues.length, Tiles 0 plan.chunks stop
  disjoint : plan.chunks.Pairwise fun c d => c.stop ≤ d.start
  chunks : ∀ chunk ∈ plan.chunks, SoundChunk baseFee maxPerTx plan.sortedNoteValues chunk
  amounts : natSum (plan.chunks.map PaymentChunk.amount) = amount.toNat
  fees : natSum (plan.chunks.map PaymentChunk.fee) = plan.totalFee.toNat

variable {chunks : List PaymentChunk}

theorem Tiles.le_start {start stop : Nat} (h : Tiles start chunks stop) :
    ∀ c ∈ chunks, start ≤ c.start := by
  induction chunks generalizing start with
  | nil => exact nofun
  | cons chunk chunks ih =>
    obtain ⟨rfl, grows, rest⟩ := h
    intro c hc
    rcases mem_cons.mp hc with rfl | hc
    · exact Nat.le_refl _
    · exact (Nat.le_of_lt grows).trans (ih rest c hc)

theorem Tiles.disjoint {start stop : Nat} (h : Tiles start chunks stop) :
    chunks.Pairwise fun c d => c.stop ≤ d.start := by
  induction chunks generalizing start with
  | nil => exact List.Pairwise.nil
  | cons chunk chunks ih =>
    obtain ⟨-, -, rest⟩ := h
    exact List.Pairwise.cons rest.le_start (ih rest)

theorem FeesInRange.mono {m : Nat} (h : FeesInRange baseFee maxPerTx m) (le : n ≤ m) :
    FeesInRange baseFee maxPerTx n := fun k room inside => h k room (inside.trans le)

section Plan

variable {baseFee : UInt64} {maxPerTx : Nat}

/-- The loop is at note `cursor`, and its rounds are no more than the notes that are left. -/
theorem planLoop_runs {sorted : List UInt64} (fits : natSum sorted < U64_BOUND) (room : maxPerTx ≠ 0)
    {fuel cursor : Nat}
    {remaining fees : UInt64} (inside : cursor ≤ sorted.length) (enough : sorted.length < fuel + cursor) :
    (planLoop baseFee maxPerTx fuel (sorted.drop cursor) cursor remaining fees).Runs
      (FeesInRange baseFee maxPerTx sorted.length) (fun _ => True)
      fun r => (∀ chunk ∈ r.1, SoundChunk baseFee maxPerTx sorted chunk) ∧
        natSum (r.1.map PaymentChunk.amount) = remaining.toNat ∧
        fees.toNat + natSum (r.1.map PaymentChunk.fee) = r.2.toNat := by
  induction fuel generalizing cursor remaining fees with
  | zero => omega
  | succ fuel ih =>
    rw [planLoop]
    by_cases paid : remaining = 0
    · rw [if_pos paid, paid]
      exact ⟨forall_mem_nil _, rfl, rfl⟩
    · rw [if_neg paid]
      have left := natSum_drop_le sorted cursor
      have selected : (selectSpendCount (sorted.drop cursor) remaining baseFee maxPerTx).Runs
          (FeesInRange baseFee maxPerTx sorted.length) (fun _ => True)
          fun r => SettledFee baseFee maxPerTx (sorted.drop cursor) remaining r.1 r.2 := by
        have rounds := @selectSpendCount_runs baseFee _ _ _ (left.trans_lt fits) paid room
        have shorter : (sorted.drop cursor).length ≤ sorted.length := by
          rw [length_drop]
          omega
        exact (rounds.of_room fun fees => .inl (fees.mono shorter)).imp (fun _ _ => trivial) fun _ settled => settled
      refine selected.bind ?_
      rintro ⟨count, fee⟩ - settled
      have counted := settled.stops.inside
      rw [length_drop] at counted
      refine (runs_require_err fun _ => trivial).bind fun _ _ nonzero => ?_
      refine (runs_ofOption_err (fun _ => trivial) fun input summed => checkedSum_eq_some.mp summed).bind
        fun input _ input_eq => ?_
      refine (runs_ofOption_err (fun _ => trivial) fun available subtracted => checkedSub_eq_some.mp subtracted).bind
        fun available _ available_eq => ?_
      refine (runs_require_err fun _ => trivial).bind fun _ _ positive => ?_
      refine (runs_ofOption_err (fun _ => trivial) fun total added => checkedAdd_eq_some.mp added).bind
        fun total _ total_eq => ?_
      rw [drop_drop]
      refine (ih (by omega) (by omega)).bind ?_
      rintro ⟨rest, totalFee⟩ - ⟨sound, amounts, charged⟩
      have least := toNat_min remaining available
      have owed : remaining.toNat ≠ 0 := fun zero => paid (UInt64.toNat_inj.mp zero)
      have spare : available.toNat ≠ 0 := fun zero => positive (UInt64.toNat_inj.mp zero)
      have after : (remaining - min remaining available).toNat = remaining.toNat - (min remaining available).toNat :=
        UInt64.toNat_sub_of_le _ _ (UInt64.le_iff_toNat_le.mpr (by omega))
      have chunk : SoundChunk baseFee maxPerTx sorted ⟨cursor, cursor + count, min remaining available, fee⟩ := by
        refine ⟨by dsimp only; omega, ?_, ?_, ?_⟩
        · simpa using settled.stops.room
        · have := settled.fee_eq
          rw [Nat.max_eq_left (by omega)] at this
          simpa using this
        · simp only [Nat.add_sub_cancel_left]
          omega
      refine ⟨forall_mem_cons.mpr ⟨chunk, sound⟩, ?_, ?_⟩
      · rw [map_cons, natSum_cons, amounts, after]
        dsimp only
        omega
      · rw [map_cons, natSum_cons]
        dsimp only at charged ⊢
        omega

variable {values : List UInt64}

theorem SettledFee.isLeast {baseFee amount fee : UInt64} {n : Nat}
    (h : SettledFee baseFee maxPerTx values amount n fee) (wanted : amount ≠ 0)
    (covered : ∃ k ≤ maxPerTx, Covers baseFee values amount k) :
    IsLeast {k | k ≤ maxPerTx ∧ Covers baseFee values amount k} n ∧ chunkFee baseFee n = some fee ∧
      amount.toNat + fee.toNat ≤ natSum (values.take n) := by
  obtain ⟨k, room, own, own_eq, enough⟩ := covered
  have covers : Covers baseFee values amount k := ⟨own, own_eq, enough⟩
  have le := h.notPast k room covers
  have cheaper := UInt64.le_iff_toNat_le.mp (chunkFee_mono (max_le le (covers.pos wanted)) h.fee_eq own_eq)
  have reaches := h.stops.reaches room (by omega)
  have one : 1 ≤ n := by
    by_contra none
    obtain rfl : n = 0 := by omega
    rw [take_zero, natSum_nil] at reaches
    exact wanted (UInt64.toNat_inj.mp (show amount.toNat = 0 by omega))
  have fee_eq := h.fee_eq
  rw [Nat.max_eq_left one] at fee_eq
  exact ⟨⟨⟨h.stops.room, fee, fee_eq, reaches⟩, fun j hj => h.notPast j hj.1 hj.2⟩, fee_eq, reaches⟩

theorem exists_selectSpendCount {baseFee amount : UInt64} (fits : natSum values < U64_BOUND)
    (wanted : amount ≠ 0) (covered : ∃ n ≤ maxPerTx, Covers baseFee values amount n) :
    ∃ n fee, selectSpendCount values amount baseFee maxPerTx = .ok (n, fee) ∧
      IsLeast {k | k ≤ maxPerTx ∧ Covers baseFee values amount k} n ∧ chunkFee baseFee n = some fee ∧
      amount.toNat + fee.toNat ≤ natSum (values.take n) := by
  obtain ⟨k, room, covers⟩ := id covered
  have one := covers.pos wanted
  rcases (@selectSpendCount_runs baseFee amount maxPerTx values fits wanted (by omega)).cases (.inr covered) with
    ⟨⟨n, fee⟩, selected, settled⟩ | ⟨e, -, uncovered⟩
  · exact ⟨n, fee, selected, settled.isLeast wanted covered⟩
  · exact absurd covers (uncovered k room)

/-- A round whose notes cover all that remains is the last. -/
theorem planLoop_of_enough {cursor count fuel : Nat} {remaining fee : UInt64}
    (fits : natSum values < U64_BOUND) (wanted : remaining ≠ 0)
    (selected : selectSpendCount values remaining baseFee maxPerTx = .ok (count, fee)) (nonzero : count ≠ 0)
    (enough : remaining.toNat + fee.toNat ≤ natSum (values.take count)) :
    planLoop baseFee maxPerTx (fuel + 2) values cursor remaining 0 =
      .ok ([⟨cursor, cursor + count, remaining, fee⟩], fee) := by
  obtain ⟨input, summed⟩ := exists_checkedSum ((natSum_take_le values count).trans_lt fits)
  have input_eq := checkedSum_eq_some.mp summed
  obtain ⟨available, subtracted, available_eq⟩ := exists_checkedSub (a := input) (b := fee) (by omega)
  have owed : remaining.toNat ≠ 0 := fun zero => wanted (UInt64.toNat_inj.mp zero)
  have spare : available ≠ 0 := by
    rintro rfl
    have : (0 : UInt64).toNat = 0 := rfl
    omega
  have whole : min remaining available = remaining := by
    rw [← UInt64.toNat_inj, toNat_min]
    omega
  have added : checkedAdd 0 fee = some fee := checkedAdd_eq_some.mpr (Nat.zero_add _).symm
  rw [planLoop, if_neg wanted]
  refine bind_eq_ok_iff.mpr ⟨(count, fee), selected, require_bind_eq_ok_iff.mpr ⟨nonzero, ?_⟩⟩
  refine bind_eq_ok_iff.mpr ⟨input, ofOption_eq_ok_iff.mpr summed, ?_⟩
  refine bind_eq_ok_iff.mpr ⟨available, ofOption_eq_ok_iff.mpr subtracted, ?_⟩
  refine require_bind_eq_ok_iff.mpr ⟨spare, ?_⟩
  refine bind_eq_ok_iff.mpr ⟨fee, ofOption_eq_ok_iff.mpr added, ?_⟩
  rw [whole, UInt64.sub_self, planLoop, if_pos rfl]
  rfl

end Plan

/-- A payment that one transaction can make is made by one, with as few notes as possible. -/
theorem planPayment_single {noteValues : List UInt64} {amount : UInt64} (wanted : amount ≠ 0)
    (fits : natSum noteValues < U64_BOUND)
    (covered : ∃ n ≤ maxPerTx, Covers baseFee (noteValues.insertionSort (· ≥ ·)) amount n) :
    ∃ n fee, IsLeast {n | n ≤ maxPerTx ∧ Covers baseFee (noteValues.insertionSort (· ≥ ·)) amount n} n ∧
      chunkFee baseFee n = some fee ∧
      planPayment noteValues amount baseFee maxPerTx =
        .ok ⟨noteValues.insertionSort (· ≥ ·), amount, [⟨0, n, amount, fee⟩], fee⟩ := by
  have fits' : natSum (noteValues.insertionSort (· ≥ ·)) < U64_BOUND := by
    rw [natSum_perm (perm_insertionSort _ noteValues)]
    exact fits
  obtain ⟨n, fee, selected, least, fee_eq, enough⟩ := exists_selectSpendCount fits' wanted covered
  refine ⟨n, fee, least, fee_eq, ?_⟩
  have one := least.1.2.pos wanted
  have room : maxPerTx ≠ 0 := by
    have : n ≤ maxPerTx := least.1.1
    omega
  obtain ⟨fuel, fuel_eq⟩ : ∃ fuel, (noteValues.insertionSort (· ≥ ·)).length = fuel + 1 := by
    refine Nat.exists_eq_succ_of_ne_zero fun none => ?_
    have := (selectSpendCount_le selected).1.2
    omega
  rw [planPayment, if_neg wanted, if_neg room]
  simp only [fuel_eq, planLoop_of_enough fits' wanted selected (by omega) enough, Nat.zero_add]
  rfl

theorem pairwise_insertionSort_ge (values : List UInt64) : (values.insertionSort (· ≥ ·)).Pairwise (· ≥ ·) := by
  have : Std.Total fun a b : UInt64 => a ≥ b := ⟨fun a b => UInt64.le_total b a⟩
  have : IsTrans UInt64 (· ≥ ·) := ⟨fun _ _ _ hab hbc => UInt64.le_trans hbc hab⟩
  exact pairwise_insertionSort (· ≥ ·) values

theorem planPayment_runs {noteValues : List UInt64} {amount baseFee : UInt64} {maxPerTx : Nat}
    (fits : natSum noteValues < U64_BOUND) :
    (planPayment noteValues amount baseFee maxPerTx).Runs (FeesInRange baseFee maxPerTx noteValues.length)
    (fun _ => True)
      (SoundPlan noteValues amount baseFee maxPerTx) := by
  rw [planPayment]
  by_cases zero : amount = 0
  · rw [if_pos zero]
    trivial
  by_cases closed : maxPerTx = 0
  · rw [if_neg zero, if_pos closed]
    trivial
  rw [if_neg zero, if_neg closed]
  have perm := perm_insertionSort (· ≥ ·) noteValues
  have loop :=
    @planLoop_runs baseFee maxPerTx (noteValues.insertionSort (· ≥ ·)) (by rw [natSum_perm perm]; exact fits) closed
    ((noteValues.insertionSort (· ≥ ·)).length + 1) 0 amount 0 (Nat.zero_le _) (Nat.lt_succ_self _)
  rw [drop_zero] at loop
  refine (loop.of_room fun fees => fees.mono perm.length_eq.le).bind fun ⟨chunks, totalFee⟩ planned ⟨sound,
    amounts, fees⟩ => ?_
  obtain ⟨⟨stop, tiles, inside⟩, -⟩ := planLoop_tiles planned
  rw [Nat.zero_add] at inside
  exact ⟨perm, pairwise_insertionSort_ge noteValues, rfl, ⟨stop, inside, tiles⟩, tiles.disjoint, sound, amounts,
    (Nat.zero_add _).symm.trans fees⟩

/-- The planner ends with a plan or an error unless the fee of some number of its notes overflows; a plan
is sound; and a positive amount that one transaction can pay is paid by one, with the least number of
notes. -/
theorem planPayment_sound (noteValues : List UInt64) (amount baseFee : UInt64) (maxPerTx : Nat)
    (fits : natSum noteValues < 2 ^ 64) :
    (planPayment noteValues amount baseFee maxPerTx = .error .panic →
      ∃ n ≤ maxPerTx, n ≤ noteValues.length ∧ chunkFee baseFee (max n 1) = none) ∧
    (∀ plan, planPayment noteValues amount baseFee maxPerTx = .ok plan →
      SoundPlan noteValues amount baseFee maxPerTx plan) ∧
    (0 < amount → (∃ n ≤ maxPerTx, Covers baseFee (noteValues.insertionSort (· ≥ ·)) amount n) →
      ∃ n fee, IsLeast {n | n ≤ maxPerTx ∧ Covers baseFee (noteValues.insertionSort (· ≥ ·)) amount n} n ∧
        chunkFee baseFee n = some fee ∧
        planPayment noteValues amount baseFee maxPerTx =
          .ok ⟨noteValues.insertionSort (· ≥ ·), amount, [⟨0, n, amount, fee⟩], fee⟩) := by
  have runs := @planPayment_runs noteValues amount baseFee maxPerTx fits
  refine ⟨fun aborts => ?_, fun plan planned => runs.of_ok planned, fun wanted covered => ?_⟩
  · rw [aborts, runs_panic] at runs
    simpa [FeesInRange] using runs
  · refine planPayment_single ?_ fits covered
    rintro rfl
    exact absurd wanted (UInt64.lt_irrefl 0)

theorem planPayment_sound_two_notes :
    ∃ n fee, planPayment [10000000, 30000000] 20000000 0 6 =
      .ok ⟨[30000000, 10000000], 20000000, [⟨0, n, 20000000, fee⟩], fee⟩ := by
  obtain ⟨n, fee, -, -, planned⟩ := (planPayment_sound [10000000, 30000000] 20000000 0 6 (by decide)).2.2 (by decide)
    ⟨1, by decide, 1855400, by decide, by decide⟩
  exact ⟨n, fee, planned⟩

/-- A payment of nothing is refused, whatever the notes are worth. -/
theorem planPayment_zero_amount : (∃ n ≤ 1, Covers 0 ([1000000000].insertionSort (· ≥ ·)) 0 n) ∧
    planPayment [1000000000] 0 0 1 = .error (.err .zeroAmount) :=
  ⟨⟨1, by decide, 1855400, by decide, by decide⟩, by decide⟩

end Firecash
