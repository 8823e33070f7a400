import Mathlib.Data.UInt

/-!
# The turnstile supply ledger (shielded-core/src/turnstile.rs)

Value enters the pool through the coinbase and leaves it as fees; the ledger keeps both totals and
the pool value is their difference. The totals are `u128`: naturals here, with the bound written
out where the code calls `checked_add`.
-/

namespace Firecash

/-- One past `u128::MAX`. -/
abbrev U128_BOUND : Nat := 340282366920938463463374607431768211456

/-- `TurnstileViolation` (turnstile.rs:51) -/
inductive TurnstileViolation where
  | poolUnderflow (coinbase fees : Nat)
  | overflow
  deriving DecidableEq

/-- `SupplyLedger` (turnstile.rs:67) -/
@[ext] structure SupplyLedger where
  cumulativeCoinbase : Nat
  cumulativeFees : Nat
  deriving DecidableEq

namespace SupplyLedger

def new : SupplyLedger := ⟨0, 0⟩

def fromTotals (cumulativeCoinbase cumulativeFees : Nat) : SupplyLedger := ⟨cumulativeCoinbase, cumulativeFees⟩

variable (l : SupplyLedger)

def mintCoinbase (subsidy : UInt64) : Except TurnstileViolation SupplyLedger :=
  if l.cumulativeCoinbase + subsidy.toNat < U128_BOUND then
    .ok { l with cumulativeCoinbase := l.cumulativeCoinbase + subsidy.toNat }
  else .error .overflow

def collectFees (fee : UInt64) : Except TurnstileViolation SupplyLedger :=
  if l.cumulativeFees + fee.toNat < U128_BOUND then
    .ok { l with cumulativeFees := l.cumulativeFees + fee.toNat }
  else .error .overflow

def poolValue : Except TurnstileViolation Nat :=
  if l.cumulativeFees ≤ l.cumulativeCoinbase then .ok (l.cumulativeCoinbase - l.cumulativeFees)
  else .error (.poolUnderflow l.cumulativeCoinbase l.cumulativeFees)

def check : Except TurnstileViolation Unit := l.poolValue.map fun _ => ()

variable {l : SupplyLedger} {v : UInt64}

theorem mintCoinbase_ok {l' : SupplyLedger} (h : l.mintCoinbase v = .ok l') :
    l' = ⟨l.cumulativeCoinbase + v.toNat, l.cumulativeFees⟩ := by
  unfold mintCoinbase at h
  split at h
  · cases h; rfl
  · cases h

theorem collectFees_ok {l' : SupplyLedger} (h : l.collectFees v = .ok l') :
    l' = ⟨l.cumulativeCoinbase, l.cumulativeFees + v.toNat⟩ := by
  unfold collectFees at h
  split at h
  · cases h; rfl
  · cases h

theorem poolValue_eq_ok {v : Nat} :
    l.poolValue = .ok v ↔ l.cumulativeCoinbase = v + l.cumulativeFees := by
  unfold poolValue
  split
  · simp only [Except.ok.injEq]; omega
  · constructor
    · intro h; cases h
    · intro h; omega

theorem check_eq_ok : l.check = .ok () ↔ l.cumulativeFees ≤ l.cumulativeCoinbase := by
  unfold check poolValue
  split <;> simp_all [Except.map]

end SupplyLedger

end Firecash
