import Mathlib.Algebra.Order.Floor.Div
import Firecash.Lib.Outcome

/-!
# The emission schedule (processes/coinbase.rs:291-350)

From the deflationary start on, a block is paid the larger of a curve that decays by the month and a tail
with one step. Time is counted at one rate before the fork activation and at another after it. No
arithmetic check can fail (`curveSubsidy_eq`, `tailSubsidy_eq`); `emission_monotone` is what the schedule
is for.
-/

namespace Firecash

open Checked (U64_BOUND)

/-- `SUBSIDY_BY_MONTH_TABLE` (coinbase.rs:381) -/
def SUBSIDY_BY_MONTH_TABLE : List Nat :=
  [44000000000, 41530469757, 39199543598, 36999442271, 34922823143, 32962755691, 31112698372, 29366476791,
   27718263097, 26162556530, 24694165062, 23308188075, 22000000000, 20765234878, 19599771799, 18499721135,
   17461411571, 16481377845, 15556349186, 14683238395, 13859131548, 13081278265, 12347082531, 11654094037,
   11000000000, 10382617439, 9799885899, 9249860567, 8730705785, 8240688922, 7778174593, 7341619197,
   6929565774, 6540639132, 6173541265, 5827047018, 5500000000, 5191308719, 4899942949, 4624930283,
   4365352892, 4120344461, 3889087296, 3670809598, 3464782887, 3270319566, 3086770632, 2913523509,
   2750000000, 2595654359, 2449971474, 2312465141, 2182676446, 2060172230, 1944543648, 1835404799,
   1732391443, 1635159783, 1543385316, 1456761754, 1375000000, 1297827179, 1224985737, 1156232570,
   1091338223, 1030086115, 972271824, 917702399, 866195721, 817579891, 771692658, 728380877, 687500000,
   648913589, 612492868, 578116285, 545669111, 515043057, 486135912, 458851199, 433097860, 408789945,
   385846329, 364190438, 343750000, 324456794, 306246434, 289058142, 272834555, 257521528, 243067956,
   229425599, 216548930, 204394972, 192923164, 182095219, 171875000, 162228397, 153123217, 144529071,
   136417277, 128760764, 121533978, 114712799, 108274465, 102197486, 96461582, 91047609, 85937500, 81114198,
   76561608, 72264535, 68208638, 64380382, 60766989, 57356399, 54137232, 51098743, 48230791, 45523804,
   42968750, 40557099, 38280804, 36132267, 34104319, 32190191, 30383494, 28678199, 27068616, 25549371,
   24115395, 22761902, 21484375, 20278549, 19140402, 18066133, 17052159, 16095095, 15191747, 14339099,
   13534308, 12774685, 12057697, 11380951, 10742187, 10139274, 9570201, 9033066, 8526079, 8047547, 7595873,
   7169549, 6767154, 6387342, 6028848, 5690475, 5371093, 5069637, 4785100, 4516533, 4263039, 4023773,
   3797936, 3584774, 3383577, 3193671, 3014424, 2845237, 2685546, 2534818, 2392550, 2258266, 2131519,
   2011886, 1898968, 1792387, 1691788, 1596835, 1507212, 1422618, 1342773, 1267409, 1196275, 1129133,
   1065759, 1005943, 949484, 896193, 845894, 798417, 753606, 711309, 671386, 633704, 598137, 564566, 532879,
   502971, 474742, 448096, 422947, 399208, 376803, 355654, 335693, 316852, 299068, 282283, 266439, 251485,
   237371, 224048, 211473, 199604, 188401, 177827, 167846, 158426, 149534, 141141, 133219, 125742, 118685,
   112024, 105736, 99802, 94200, 88913, 83923, 79213, 74767, 70570, 66609, 62871, 59342, 56012, 52868,
   49901, 47100, 44456, 41961, 39606, 37383, 35285, 33304, 31435, 29671, 28006, 26434, 24950, 23550, 22228,
   20980, 19803, 18691, 17642, 16652, 15717, 14835, 14003, 13217, 12475, 11775, 11114, 10490, 9901, 9345,
   8821, 8326, 7858, 7417, 7001, 6608, 6237, 5887, 5557, 5245, 4950, 4672, 4410, 4163, 3929, 3708, 3500,
   3304, 3118, 2943, 2778, 2622, 2475, 2336, 2205, 2081, 1964, 1854, 1750, 1652, 1559, 1471, 1389, 1311,
   1237, 1168, 1102, 1040, 982, 927, 875, 826, 779, 735, 694, 655, 618, 584, 551, 520, 491, 463, 437, 413,
   389, 367, 347, 327, 309, 292, 275, 260, 245, 231, 218, 206, 194, 183, 173, 163, 154, 146, 137, 130, 122,
   115, 109, 103, 97, 91, 86, 81, 77, 73, 68, 65, 61, 57, 54, 51, 48, 45, 43, 40, 38, 36, 34, 32, 30, 28,
   27, 25, 24, 22, 21, 20, 19, 18, 17, 16, 15, 14, 13, 12, 12, 11, 10, 10, 9, 9, 8, 8, 7, 7, 6, 6, 6, 5, 5,
   5, 4, 4, 4, 4, 3, 3, 3, 3, 3, 2, 2, 2, 2, 2, 2, 2, 1, 1, 1, 1, 1, 1, 1, 1, 1, 1, 1, 1, 0]

def SECONDS_PER_MONTH : Nat := 2629800
def SUBSIDY_HALVING_INTERVAL_MONTHS : Nat := 3
def LEGACY_MONTHS_PER_HALVING : Nat := 12
def REWARD_SCALE_NUM : Nat := 3
def REWARD_SCALE_DEN : Nat := 22
def TAIL_SUBSIDY_INITIAL_PER_SEC_SOMPI : Nat := 600000000
def TAIL_SUBSIDY_FINAL_PER_SEC_SOMPI : Nat := 60000000
def TAIL_STEP_DOWN_MONTH : Nat := 24

/-- `scaled_subsidy` (coinbase.rs:56) -/
def scaledSubsidy (tableValue bps : Nat) : Nat := (tableValue ⌈/⌉ bps) * REWARD_SCALE_NUM / REWARD_SCALE_DEN % U64_BOUND

/-- `ForkedParam<u64>` (config/params.rs:88) -/
structure ForkedParam where
  pre : Nat
  post : Nat
  activation : UInt64

def ForkedParam.before (p : ForkedParam) : Nat := if p.activation = 0 then p.post else p.pre

/-- The value of a fork that is never scheduled stays. -/
def ForkedParam.after (p : ForkedParam) : Nat := if p.activation = UInt64.ofNat (U64_BOUND - 1) then p.pre else p.post

/-- The fields of `CoinbaseManager` that the subsidy is read from; its two tables are the table scaled by
the two rates. -/
structure SubsidySchedule where
  deflationaryPhaseDaaScore : UInt64
  preDeflationaryPhaseBaseSubsidy : Nat
  bpsHistory : ForkedParam
  before_pos : 0 < bpsHistory.before
  before_le_after : bpsHistory.before ≤ bpsHistory.after

namespace SubsidySchedule

variable (m : SubsidySchedule)

abbrev start : Nat := m.deflationaryPhaseDaaScore.toNat

/-- `crescendo_activation_daa_score` -/
abbrev activation : Nat := m.bpsHistory.activation.toNat

abbrev before : Nat := m.bpsHistory.before

abbrev after : Nat := m.bpsHistory.after

variable (daaScore : Nat)

/-- `seconds_since_deflationary_phase_started` (coinbase.rs:330-342) -/
def secondsSinceStart : Except (Fault Empty) Nat :=
  if m.activation < m.start then do
    let since ← U64.sub daaScore m.start
    pure (since / m.after)
  else if daaScore < m.activation then do
    let since ← U64.sub daaScore m.start
    pure (since / m.before)
  else do
    let early ← U64.sub m.activation m.start
    let late ← U64.sub daaScore m.activation
    U64.add (early / m.before) (late / m.after)

/-- `subsidy_month` (coinbase.rs:331) -/
def subsidyMonth : Except (Fault Empty) Nat := do
  let seconds ← m.secondsSinceStart daaScore
  pure (seconds * LEGACY_MONTHS_PER_HALVING / (SECONDS_PER_MONTH * SUBSIDY_HALVING_INTERVAL_MONTHS) % U64_BOUND)

/-- `tail_subsidy` (coinbase.rs:305) -/
def tailSubsidy : Except (Fault Empty) Nat := do
  let months ← U64.mul (← m.subsidyMonth daaScore) SUBSIDY_HALVING_INTERVAL_MONTHS
  let perSec := if months / LEGACY_MONTHS_PER_HALVING < TAIL_STEP_DOWN_MONTH then TAIL_SUBSIDY_INITIAL_PER_SEC_SOMPI
    else TAIL_SUBSIDY_FINAL_PER_SEC_SOMPI
  pure (perSec ⌈/⌉ m.after)

/-- `curve_subsidy` (coinbase.rs:318) -/
def curveSubsidy : Except (Fault Empty) Nat := do
  let month ← m.subsidyMonth daaScore
  let bps := if m.activation ≤ daaScore then m.after else m.before
  let table := SUBSIDY_BY_MONTH_TABLE.map (scaledSubsidy · bps)
  Except.ofOption .panic table[min month (table.length - 1)]?

/-- `calc_block_subsidy` (coinbase.rs:291) -/
def calcBlockSubsidy (daaScore : UInt64) : Except (Fault Empty) Nat :=
  if daaScore.toNat < m.start then pure m.preDeflationaryPhaseBaseSubsidy
  else do
    let curve ← m.curveSubsidy daaScore.toNat
    let tail ← m.tailSubsidy daaScore.toNat
    pure (max curve tail)

/-! ## Without the checks -/

def elapsed (daa : Nat) : Nat :=
  if m.activation < m.start then (daa - m.start) / m.after
  else if daa < m.activation then (daa - m.start) / m.before
  else (m.activation - m.start) / m.before + (daa - m.activation) / m.after

def month (daa : Nat) : Nat := m.elapsed daa * 12 / 7889400

def curve (daa : Nat) : Nat :=
  (SUBSIDY_BY_MONTH_TABLE.getD (min (m.month daa) 425) 0 ⌈/⌉ if m.activation ≤ daa then m.after else m.before) * 3 / 22

def tail (daa : Nat) : Nat :=
  (if m.month daa * 3 / 12 < 24 then TAIL_SUBSIDY_INITIAL_PER_SEC_SOMPI
    else TAIL_SUBSIDY_FINAL_PER_SEC_SOMPI) ⌈/⌉ m.after

variable {m} {daa daa' : Nat}

theorem elapsed_le (h : m.start ≤ daa) : m.elapsed daa ≤ daa - m.start := by
  have early := Nat.div_le_self (m.activation - m.start) m.before
  have late := Nat.div_le_self (daa - m.activation) m.after
  unfold elapsed
  split_ifs
  · exact Nat.div_le_self ..
  · exact Nat.div_le_self ..
  · omega

theorem elapsed_mono (le : daa ≤ daa') : m.elapsed daa ≤ m.elapsed daa' := by
  unfold elapsed
  split_ifs
  · exact Nat.div_le_div_right (by omega)
  · exact Nat.div_le_div_right (by omega)
  · exact (Nat.div_le_div_right (by omega)).trans (Nat.le_add_right ..)
  · omega
  · exact Nat.add_le_add_left (Nat.div_le_div_right (by omega)) _

theorem subsidyMonth_eq (h : m.start ≤ daa) (fits : daa < U64_BOUND) : m.subsidyMonth daa = .ok (m.month daa) := by
  have le := elapsed_le h
  have seconds : m.secondsSinceStart daa = .ok (m.elapsed daa) := by
    unfold elapsed at le
    unfold secondsSinceStart elapsed
    split_ifs at le ⊢ with early before
    · simp [U64.sub, h, bind, Except.bind, pure, Except.pure]
    · simp [U64.sub, h, bind, Except.bind, pure, Except.pure]
    · have sum : (m.activation - m.start) / m.before + (daa - m.activation) / m.after < U64_BOUND := by omega
      simp [U64.sub, U64.add, Nat.not_lt.mp early, Nat.not_lt.mp before, sum, bind, Except.bind]
  rw [subsidyMonth, seconds]
  show Except.ok (m.elapsed daa * 12 / 7889400 % U64_BOUND) = _
  rw [month, Nat.mod_eq_of_lt (by omega)]

theorem table_antitone {i j : Nat} (le : i ≤ j) :
    SUBSIDY_BY_MONTH_TABLE.getD j 0 ≤ SUBSIDY_BY_MONTH_TABLE.getD i 0 := by
  have chain : SUBSIDY_BY_MONTH_TABLE.IsChain (· ≥ ·) := by decide +kernel
  have sorted := List.pairwise_iff_getElem.mp (List.isChain_iff_pairwise.mp chain)
  by_cases inside : j < SUBSIDY_BY_MONTH_TABLE.length
  · rcases Nat.eq_or_lt_of_le le with rfl | lt
    · rfl
    · simpa [inside, lt.trans inside] using sorted i j (lt.trans inside) inside lt
  · simp [inside]

theorem bps_pos (daa : Nat) : 0 < if m.activation ≤ daa then m.after else m.before := by
  split
  · exact m.before_pos.trans_le m.before_le_after
  · exact m.before_pos

theorem curveSubsidy_eq (h : m.start ≤ daa) (fits : daa < U64_BOUND) : m.curveSubsidy daa = .ok (m.curve daa) := by
  have length : SUBSIDY_BY_MONTH_TABLE.length = 426 := by decide +kernel
  have first : SUBSIDY_BY_MONTH_TABLE.getD 0 0 = 44000000000 := rfl
  have small := table_antitone (Nat.zero_le (min (m.month daa) 425))
  have ceil : SUBSIDY_BY_MONTH_TABLE.getD (min (m.month daa) 425) 0 ⌈/⌉
      (if m.activation ≤ daa then m.after else m.before) ≤
      SUBSIDY_BY_MONTH_TABLE.getD (min (m.month daa) 425) 0 :=
    (ceilDiv_le_iff_le_mul (bps_pos daa)).mpr (Nat.le_mul_of_pos_left _ (bps_pos daa))
  have scaled : scaledSubsidy (SUBSIDY_BY_MONTH_TABLE.getD (min (m.month daa) 425) 0)
      (if m.activation ≤ daa then m.after else m.before) = m.curve daa :=
    Nat.mod_eq_of_lt (by unfold REWARD_SCALE_NUM REWARD_SCALE_DEN U64_BOUND; omega)
  rw [curveSubsidy, subsidyMonth_eq h fits, ← scaled]
  simp [bind, Except.bind, length]

theorem tailSubsidy_eq (h : m.start ≤ daa) (fits : daa < U64_BOUND) : m.tailSubsidy daa = .ok (m.tail daa) := by
  have le := elapsed_le h
  have months : m.month daa * 3 < U64_BOUND := by
    unfold month
    omega
  rw [tailSubsidy, subsidyMonth_eq h fits]
  simp [U64.mul, SUBSIDY_HALVING_INTERVAL_MONTHS, months, bind, Except.bind]
  rfl

/-- **Emission falls from the deflationary start on, down to a floor.** No check of the arithmetic fails
at any score; from the start on a later block is never paid more, and none less than the final tail at the
rate after the activation. -/
theorem emission_monotone (m : SubsidySchedule) :
    (∀ daaScore : UInt64, ∃ subsidy, m.calcBlockSubsidy daaScore = .ok subsidy) ∧
    (∀ daaScore daaScore' : UInt64, ∀ subsidy subsidy', m.deflationaryPhaseDaaScore ≤ daaScore → daaScore ≤ daaScore' →
      m.calcBlockSubsidy daaScore = .ok subsidy → m.calcBlockSubsidy daaScore' = .ok subsidy' → subsidy' ≤ subsidy) ∧
    ∀ daaScore : UInt64, ∀ subsidy, m.deflationaryPhaseDaaScore ≤ daaScore → m.calcBlockSubsidy daaScore = .ok subsidy →
      TAIL_SUBSIDY_FINAL_PER_SEC_SOMPI ⌈/⌉ m.after ≤ subsidy := by
  have pos : 0 < m.after := m.before_pos.trans_le m.before_le_after
  have ceil_le : ∀ {v v' r r' : Nat}, 0 < r → v' ≤ v → r ≤ r' → v' ⌈/⌉ r' ≤ v ⌈/⌉ r := by
    intro v v' r r' hr hv hrr
    have : v ≤ r * (v ⌈/⌉ r) := (ceilDiv_le_iff_le_mul hr).mp le_rfl
    exact (ceilDiv_le_iff_le_mul (hr.trans_le hrr)).mpr (hv.trans (this.trans (Nat.mul_le_mul_right _ hrr)))
  have value : ∀ d : UInt64, m.start ≤ d.toNat →
      m.calcBlockSubsidy d = .ok (max (m.curve d.toNat) (m.tail d.toNat)) := by
    intro d h
    rw [calcBlockSubsidy, if_neg (Nat.not_lt.mpr h), curveSubsidy_eq h d.toNat_lt, tailSubsidy_eq h d.toNat_lt]
    rfl
  refine ⟨fun d => ?_, fun d d' v v' h le hv hv' => ?_, fun d v h hv => ?_⟩
  · by_cases h : d.toNat < m.start
    · exact ⟨_, if_pos h⟩
    · exact ⟨_, value d (Nat.not_lt.mp h)⟩
  · have le : d.toNat ≤ d'.toNat := le
    have h : m.start ≤ d.toNat := h
    cases (value d h).symm.trans hv
    cases (value d' (h.trans le)).symm.trans hv'
    have months : m.month d.toNat ≤ m.month d'.toNat := Nat.div_le_div_right (Nat.mul_le_mul_right _ (elapsed_mono le))
    apply max_le_max
    · refine Nat.div_le_div_right (Nat.mul_le_mul_right _ (ceil_le (bps_pos _) (table_antitone (by omega)) ?_))
      have := m.before_le_after
      split_ifs <;> omega
    · refine ceil_le pos ?_ le_rfl
      unfold TAIL_SUBSIDY_INITIAL_PER_SEC_SOMPI TAIL_SUBSIDY_FINAL_PER_SEC_SOMPI
      split_ifs <;> omega
  · cases (value d h).symm.trans hv
    refine le_max_of_le_right (ceil_le pos ?_ le_rfl)
    unfold TAIL_SUBSIDY_INITIAL_PER_SEC_SOMPI TAIL_SUBSIDY_FINAL_PER_SEC_SOMPI
    split_ifs <;> omega

/-- Below the start a block is paid what is configured, and before the activation the tail is already
divided by the later rate. -/
theorem subsidy_below_floor :
    let early : SubsidySchedule := ⟨1, 0, ⟨1, 1, 0⟩, by decide, by decide⟩
    let late : SubsidySchedule := ⟨0, 0, ⟨1, 10, 1000000000⟩, by decide, by decide⟩
    early.calcBlockSubsidy 0 = .ok 0 ∧ TAIL_SUBSIDY_FINAL_PER_SEC_SOMPI ⌈/⌉ early.after = 60000000 ∧
      late.calcBlockSubsidy 900000000 = .ok 6000000 ∧ TAIL_SUBSIDY_FINAL_PER_SEC_SOMPI ⌈/⌉ late.before = 60000000 := by
  refine ⟨rfl, rfl, ?_, rfl⟩
  decide +kernel

end SubsidySchedule

end Firecash
