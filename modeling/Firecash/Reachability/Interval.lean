import Mathlib.Data.Nat.Log
import Firecash.Lib.Outcome

/-!
# Reachability intervals (`processes/reachability/interval.rs`)

An interval `[start, end]` of 64-bit numbers; `end` is called `stop` here, and `end = start - 1` is an
empty interval. The arithmetic is checked: an overflow aborts. `Interval::new` asserts its bounds in debug
builds only.

`split_half` computes with `f32`, which is modelled bit by bit. The proportions of `split_exponential` are computed
with `f64`: here they are a parameter `share`, the rounded share of the slack of each part, about which
nothing is assumed. What makes the split exact is the code around it: a share is cut to what is left, and
the last part takes the rest.
-/

namespace Firecash

open U64 List

open Checked (U64_BOUND)

structure Interval where
  start : Nat
  stop : Nat
  deriving DecidableEq

namespace Interval

variable {ε : Type}

/-- All 64-bit numbers but the first and the last. -/
def maximal : Interval := ⟨1, 18446744073709551614⟩

variable (i : Interval)

def size : Except (Fault ε) Nat := do
  sub (← add i.stop 1) i.start

def isEmpty : Except (Fault ε) Bool := do
  return decide ((← i.size) = 0)

variable (offset : Nat)

def increase : Except (Fault ε) Interval := do
  return ⟨← add i.start offset, ← add i.stop offset⟩

def decrease : Except (Fault ε) Interval := do
  return ⟨← sub i.start offset, ← sub i.stop offset⟩

def increaseStart : Except (Fault ε) Interval := do
  return ⟨← add i.start offset, i.stop⟩

def decreaseStart : Except (Fault ε) Interval := do
  return ⟨← sub i.start offset, i.stop⟩

def increaseEnd : Except (Fault ε) Interval := do
  return ⟨i.start, ← add i.stop offset⟩

def decreaseEnd : Except (Fault ε) Interval := do
  return ⟨i.start, ← sub i.stop offset⟩

def contains (i other : Interval) : Bool := decide (i.start ≤ other.start ∧ other.stop ≤ i.stop)

def strictlyContains (i other : Interval) : Bool := decide (i.start ≤ other.start ∧ other.stop < i.stop)

/-- `n as f32`: 24 significant bits, rounded to the nearest and on a tie to the even one. -/
def asF32 (n : Nat) : Nat :=
  if n < 2 ^ 24 then n
  else
    let unit := 2 ^ (Nat.log 2 n - 23)
    let kept := n / unit
    let lost := n % unit
    if unit < 2 * lost ∨ unit = 2 * lost ∧ kept % 2 = 1 then (kept + 1) * unit else kept * unit

/-- `ceil(size as f32 * 0.5) as u64`; halving a float is exact. -/
def leftSize (size : Nat) : Nat := (asF32 size + 1) / 2

def splitHalf : Except (Fault ε) (Interval × Interval) := do
  let left := leftSize (← i.size)
  let middle ← add i.start left
  return (⟨i.start, ← sub middle 1⟩, ⟨middle, i.stop⟩)

/-- The parts of `split_exact` from `start` on. -/
def cut : Nat → List Nat → Except (Fault ε) (List Interval)
  | _, [] => pure []
  | start, size :: sizes => do
    let next ← add start size
    let stop ← sub next 1
    return ⟨start, stop⟩ :: (← cut next sizes)

def splitExact (sizes : List Nat) : Except (Fault ε) (List Interval) := do
  let total ← sum sizes
  let size ← i.size
  if total = size then cut i.start sizes else .error .panic

/-- The loop of `split_exponential`: `remaining` is the slack that is not given away yet. -/
def biasedSizes (share : Nat → Nat) : Nat → Nat → List Nat → Except (Fault ε) (List Nat)
  | _, _, [] => pure []
  | index, remaining, size :: sizes => do
    let bias := if sizes.isEmpty then remaining else min remaining (share index)
    let biased ← add size bias
    return biased :: (← biasedSizes share (index + 1) (remaining - bias) sizes)

def splitExponential (share : Nat → List Nat → Nat → Nat) (i : Interval) (sizes : List Nat) :
    Except (Fault ε) (List Interval) := do
  let intervalSize ← i.size
  let sizesSum ← sum sizes
  if intervalSize < sizesSum ∨ sizesSum = 0 then .error .panic
  else if intervalSize = sizesSum then i.splitExact sizes
  else
    let slack := intervalSize - sizesSum
    i.splitExact (← biasedSizes (share slack sizes) 0 slack sizes)

/-! ## Sizes -/

section Size

variable {room : Prop} {bad : ε → Prop} {i : Interval}

theorem size_runs (h : room → i.start ≤ i.stop + 1 ∧ i.stop + 1 < U64_BOUND) :
    (i.size : Except (Fault ε) Nat).Runs room bad fun n => i.start + n = i.stop + 1 ∧ i.stop + 1 < U64_BOUND := by
  refine (add_runs fun hr => (h hr).2).bind fun past _ hp => ?_
  refine (sub_runs fun hr => ?_).mono fun n hn => ?_
  · have := (h hr).1
    omega
  · omega

theorem asF32_le (n : Nat) : asF32 n ≤ n + n / 2 ^ 23 := by
  unfold asF32
  by_cases h : n < 2 ^ 24
  · rw [if_pos h]
    omega
  · rw [if_neg h]
    have hn : n ≠ 0 := by omega
    have log : 23 ≤ Nat.log 2 n := by
      refine (Nat.le_log_iff_pow_le (by decide) hn).mpr ?_
      omega
    have split : 2 ^ 23 * 2 ^ (Nat.log 2 n - 23) ≤ n := by
      rw [← pow_add, Nat.add_sub_cancel' log]
      exact Nat.pow_log_le_self 2 hn
    have small : 2 ^ (Nat.log 2 n - 23) ≤ n / 2 ^ 23 := by
      rw [Nat.le_div_iff_mul_le (by decide), Nat.mul_comm]
      exact split
    have whole := Nat.div_add_mod n (2 ^ (Nat.log 2 n - 23))
    have kept : n / 2 ^ (Nat.log 2 n - 23) * 2 ^ (Nat.log 2 n - 23) ≤ n := Nat.div_mul_le_self _ _
    dsimp only
    split
    · rw [Nat.add_mul, Nat.one_mul]
      omega
    · omega

theorem asF32_pos {n : Nat} (hn : 0 < n) : 0 < asF32 n := by
  unfold asF32
  by_cases h : n < 2 ^ 24
  · rwa [if_pos h]
  · rw [if_neg h]
    have kept : 0 < n / 2 ^ (Nat.log 2 n - 23) := by
      refine Nat.div_pos ?_ (Nat.pow_pos (by decide))
      refine (Nat.pow_le_pow_right (by decide) (Nat.sub_le _ 23)).trans (Nat.pow_log_le_self 2 (by omega))
    dsimp only
    split
    · exact Nat.mul_pos (Nat.succ_pos _) (Nat.pow_pos (by decide))
    · exact Nat.mul_pos kept (Nat.pow_pos (by decide))

/-- The first half of a non-empty interval is not empty, however the size is rounded. -/
theorem leftSize_bounds {n : Nat} (hn : 0 < n) : 0 < leftSize n ∧ leftSize n ≤ n := by
  have le := asF32_le n
  have pos := asF32_pos hn
  have small : n < 2 ^ 24 → asF32 n = n := fun h => if_pos h
  unfold leftSize
  by_cases h : n < 2 ^ 24
  · rw [small h]
    omega
  · omega

theorem splitHalf_runs (h : room → i.stop + 1 < U64_BOUND) (valid : i.start ≤ i.stop) :
    (i.splitHalf : Except (Fault ε) (Interval × Interval)).Runs room bad fun halves =>
      halves.1.start = i.start ∧ halves.1.start ≤ halves.1.stop ∧ halves.1.stop ≤ i.stop := by
  refine (size_runs fun hr => ⟨by omega, h hr⟩).bind fun size _ hsize => ?_
  have left := leftSize_bounds (n := size) (by omega)
  refine (add_runs fun _ => by omega).bind fun middle _ hmiddle => ?_
  refine (sub_runs fun _ => by omega).bind fun stop _ hstop => ?_
  refine ⟨rfl, ?_, ?_⟩
  · show i.start ≤ stop
    omega
  · show stop ≤ i.stop
    omega

example : leftSize 18446744073709551614 = 9223372036854775808 := by decide +kernel

end Size

/-! ## Splits -/

/-- The intervals stand one after the other from `lo` to `hi`, each with room for its size. -/
def Cuts : Nat → Nat → List Nat → List Interval → Prop
  | lo, hi, [], [] => lo = hi
  | lo, hi, n :: ns, i :: is => i.start = lo ∧ lo + n ≤ i.stop + 1 ∧ Cuts (i.stop + 1) hi ns is
  | _, _, _, _ => False

section Split

variable {room : Prop} {bad : ε → Prop} {i : Interval} {lo hi : Nat} {sizes : List Nat} {is : List Interval}

theorem Cuts.sum_le (h : Cuts lo hi sizes is) : lo + sizes.sum ≤ hi := by
  induction sizes generalizing lo is with
  | nil =>
    cases is with
    | nil => exact Nat.le_of_eq h
    | cons _ _ => exact h.elim
  | cons n ns ih =>
    cases is with
    | nil => exact h.elim
    | cons i is =>
      have := ih h.2.2
      have := h.2.1
      rw [sum_cons]
      omega

theorem Cuts.mono {sizes' : List Nat} (h : Cuts lo hi sizes is) (le : List.Forall₂ (· ≤ ·) sizes' sizes) :
    Cuts lo hi sizes' is := by
  induction le generalizing lo is with
  | nil => exact h
  | cons hle _ ih =>
    cases is with
    | nil => exact h.elim
    | cons i is => exact ⟨h.1, Nat.le_trans (Nat.add_le_add_left hle lo) h.2.1, ih h.2.2⟩

theorem cut_runs (pos : ∀ n ∈ sizes, 0 < n) (h : room → lo + sizes.sum < U64_BOUND) :
    (cut lo sizes : Except (Fault ε) (List Interval)).Runs room bad (Cuts lo (lo + sizes.sum) sizes) := by
  induction sizes generalizing lo with
  | nil => exact rfl
  | cons n ns ih =>
    obtain ⟨hn, pos⟩ := forall_mem_cons.mp pos
    rw [sum_cons] at h ⊢
    refine (add_runs fun hr => ?_).bind fun next _ hnext => ?_
    · have := h hr
      omega
    refine (sub_runs fun _ => ?_).bind fun stop _ hstop => ?_
    · omega
    refine (ih pos fun hr => ?_).bind fun is _ his => ?_
    · have := h hr
      omega
    rw [← hstop] at his
    refine ⟨rfl, ?_, ?_⟩
    · show lo + n ≤ stop + 1
      omega
    · have same : lo + (n + ns.sum) = stop + 1 + ns.sum := by omega
      rwa [same]

theorem splitExact_runs (pos : ∀ n ∈ sizes, 0 < n) (h : room → i.start + sizes.sum = i.stop + 1 ∧
    i.stop + 1 < U64_BOUND) :
    (i.splitExact sizes : Except (Fault ε) (List Interval)).Runs room bad fun is =>
      Cuts i.start (i.stop + 1) sizes is ∧ i.stop + 1 < U64_BOUND := by
  refine (sum_runs fun hr => ?_).bind fun total _ ht => ?_
  · have := h hr
    omega
  refine (size_runs fun hr => ?_).bind fun size _ hs => ?_
  · have := h hr
    omega
  by_cases heq : total = size
  · rw [if_pos heq]
    have hi : i.start + sizes.sum = i.stop + 1 := by omega
    refine (cut_runs pos fun _ => by omega).mono fun is his => ⟨?_, hs.2⟩
    rwa [← hi]
  · rw [if_neg heq]
    intro hr
    have := h hr
    omega

/-- The shares of the slack are not negative and sum up to it. -/
theorem biasedSizes_runs {share : Nat → Nat} {index remaining : Nat} (ne : sizes ≠ [])
    (h : room → sizes.sum + remaining < U64_BOUND) :
    (biasedSizes share index remaining sizes : Except (Fault ε) (List Nat)).Runs room bad fun biased =>
      List.Forall₂ (· ≤ ·) sizes biased ∧ biased.sum = sizes.sum + remaining := by
  induction sizes generalizing index remaining with
  | nil => exact absurd rfl ne
  | cons n ns ih =>
    rw [sum_cons] at h ⊢
    unfold biasedSizes
    cases ns with
    | nil =>
      refine (add_runs fun hr => ?_).bind fun biased _ hb => ?_
      · have := h hr
        simpa using this
      · refine ⟨.cons ?_ .nil, ?_⟩
        · omega
        · simpa using hb.1
    | cons m ms =>
      simp only [isEmpty_cons, Bool.false_eq_true, if_false]
      refine (add_runs fun hr => ?_).bind fun biased _ hb => ?_
      · have := h hr
        omega
      refine (ih (by simp) fun hr => ?_).bind fun rest _ hrest => ?_
      · have := h hr
        omega
      refine ⟨.cons (by omega) hrest.1, ?_⟩
      rw [sum_cons, hrest.2]
      omega

theorem pos_of_le {biased : List Nat} (le : List.Forall₂ (· ≤ ·) sizes biased) (pos : ∀ n ∈ sizes, 0 < n) :
    ∀ n ∈ biased, 0 < n := by
  induction le with
  | nil => exact pos
  | cons hle _ ih =>
    obtain ⟨here, rest⟩ := forall_mem_cons.mp pos
    exact forall_mem_cons.mpr ⟨Nat.lt_of_lt_of_le here hle, ih rest⟩

theorem splitExponential_runs {share : Nat → List Nat → Nat → Nat} (ne : sizes ≠ []) (pos : ∀ n ∈ sizes, 0 < n)
    (h : room → i.start + sizes.sum ≤ i.stop + 1 ∧ i.stop + 1 < U64_BOUND) :
    (i.splitExponential share sizes : Except (Fault ε) (List Interval)).Runs room bad fun is =>
      Cuts i.start (i.stop + 1) sizes is ∧ i.stop + 1 < U64_BOUND := by
  refine (size_runs fun hr => ?_).bind fun size _ hs => ?_
  · have := h hr
    omega
  refine (sum_runs fun hr => ?_).bind fun total _ ht => ?_
  · have := h hr
    omega
  have some : 0 < sizes.sum := by
    obtain ⟨n, hn⟩ := exists_mem_of_ne_nil sizes ne
    exact Nat.lt_of_lt_of_le (pos n hn) (le_sum_of_mem hn)
  by_cases big : size < total ∨ total = 0
  · rw [if_pos big]
    intro hr
    have := h hr
    omega
  · rw [if_neg big]
    by_cases exact : size = total
    · rw [if_pos exact]
      exact splitExact_runs pos fun _ => by omega
    · rw [if_neg exact]
      refine (biasedSizes_runs ne fun _ => by omega).bind fun biased _ hb => ?_
      exact (splitExact_runs (pos_of_le hb.1 pos) fun _ => by omega).mono fun is his => ⟨his.1.mono hb.1, his.2⟩

end Split

end Interval

end Firecash
