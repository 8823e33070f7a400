import Mathlib.Tactic.Basic

/-!
# Fallible computations

Induction along a loop in `Option`, and inversion rules for `Except`: a composed computation that
succeeded had every part succeed. A computation that can also abort has the error type `Fault ε`: `err e`
is an error the caller sees, `panic` ends the process (`unwrap`, `expect`, an arithmetic overflow check).
-/

/-- A returned error, or an abort of the process. -/
inductive Fault (ε : Type) where
  | err (e : ε)
  | panic
  deriving DecidableEq

namespace Option

open Except

instance decidableElim {α : Type} {p : α → Prop} [DecidablePred p] : ∀ o : Option α, Decidable (o.elim True p)
  | none => .isTrue trivial
  | some a => inferInstanceAs (Decidable (p a))

/-- Induction along a loop that was run to its end. -/
theorem foldlM_induction {α β : Type} {f : β → α → Option β} {b' : β}
    {motive : ∀ (l : List α) (b : β), l.foldlM f b = some b' → Prop} (nil : motive [] b' rfl)
    (cons : ∀ a l b b₁ (first : f b a = some b₁) (rest : l.foldlM f b₁ = some b'), motive l b₁ rest →
      motive (a :: l) b (by rw [List.foldlM_cons, first]; exact rest))
    {l : List α} {b : β} (h : l.foldlM f b = some b') : motive l b h := by
  induction l generalizing b with
  | nil =>
    cases h
    exact nil
  | cons a l ih =>
    obtain ⟨b₁, first, rest⟩ := bind_eq_some_iff.mp (List.foldlM_cons.symm.trans h)
    exact cons a l b b₁ first rest (ih rest)

end Option

namespace Except

variable {ε ε' α β : Type} {x : Except ε α} {b : β}

theorem bind_eq_ok_iff {f : α → Except ε β} :
    (x >>= f) = .ok b ↔ ∃ a, x = .ok a ∧ f a = .ok b := by
  cases x with
  | error e => simp [bind, Except.bind]
  | ok a => simp [bind, Except.bind]

theorem map_eq_ok_iff {f : α → β} : x.map f = .ok b ↔ ∃ a, x = .ok a ∧ f a = b := by
  cases x with
  | error e => simp [Except.map]
  | ok a => simp [Except.map]

variable {a : α}

theorem mapError_eq_ok_iff {f : ε → ε'} : x.mapError f = .ok a ↔ x = .ok a := by
  cases x with
  | error e =>
    show (error (f e) : Except ε' α) = .ok a ↔ (error e : Except ε α) = .ok a
    simp
  | ok b =>
    show (ok b : Except ε' α) = .ok a ↔ (ok b : Except ε α) = .ok a
    simp

theorem toOption_eq_some_iff : x.toOption = some a ↔ x = .ok a := by
  cases x with
  | error e => exact ⟨(nomatch ·), (nomatch ·)⟩
  | ok b => exact ⟨fun h => congrArg ok (Option.some.inj h), fun h => congrArg some (ok.inj h)⟩

theorem pure_eq_ok_iff {b : α} : (pure a : Except ε α) = .ok b ↔ a = b := by
  simp [pure, Except.pure]

/-- `Option::ok_or` -/
def ofOption (e : ε) : Option α → Except ε α
  | some a => .ok a
  | none => .error e

variable {e : ε}

@[simp] theorem ofOption_eq_ok_iff {o : Option α} : ofOption e o = .ok a ↔ o = some a := by
  cases o <;> simp [ofOption]

/-- `if !p { return Err(e) }` -/
def require (p : Prop) [Decidable p] (e : ε) : Except ε Unit := if p then .ok () else .error e

@[simp] theorem require_eq_ok_iff {p : Prop} [Decidable p] {u : Unit} : require p e = .ok u ↔ p := by
  unfold require
  split <;> simp [*]

theorem require_bind_eq_ok_iff {p : Prop} [Decidable p] {f : Unit → Except ε β} :
    (require p e >>= f) = .ok b ↔ p ∧ f () = .ok b := by
  rw [bind_eq_ok_iff]
  constructor
  · rintro ⟨_, h, hf⟩
    exact ⟨require_eq_ok_iff.mp h, hf⟩
  · rintro ⟨h, hf⟩
    exact ⟨(), require_eq_ok_iff.mpr h, hf⟩

end Except

/-! ## Aborts and reservations -/

/-- Does a computation end the process? -/
def Except.panics {ε α : Type} : Except (Fault ε) α → Bool
  | .error .panic => true
  | _ => false

theorem Except.panics_iff {ε α : Type} {x : Except (Fault ε) α} : x.panics = true ↔ x = .error .panic := by
  rcases x with (e | _) | a <;> simp [panics]

theorem Except.panics_bind_iff {ε α β : Type} {x : Except (Fault ε) α} {f : α → Except (Fault ε) β} :
    (x >>= f).panics ↔ x.panics ∨ ∃ a, x = .ok a ∧ (f a).panics := by
  rcases x with (e | _) | a <;> simp [bind, Except.bind, Except.panics]

/-- `isize::MAX` of a 64-bit target: the largest allocation. -/
def ISIZE_MAX : Nat := 9223372036854775807

/-- `Vec::with_capacity` and `Vec::reserve`: a request beyond `isize::MAX` bytes panics with "capacity
overflow" before anything is allocated. That a smaller request cannot be met is outside the model. -/
def reserve {ε : Type} (bytes : Nat) : Except (Fault ε) Unit :=
  if bytes ≤ ISIZE_MAX then .ok () else .error .panic

theorem reserve_eq_ok_iff {ε : Type} {bytes : Nat} : (reserve bytes : Except (Fault ε) Unit) = .ok () ↔
    bytes ≤ ISIZE_MAX := by
  unfold reserve
  split <;> simp_all
