import Firecash.Lib.Fallible
import Firecash.Lib.Checked

/-!
# Outcomes of a fallible computation

`m.Runs room bad good` says what each outcome of a computation that can return an error or abort tells: a value has
`good`, an error has `bad`, and an abort means that there was no `room`. It is partial correctness where
nothing is known of `room`, and with `room` it is total up to the errors in `bad`. The rules follow the
shape of a program: a value, a step and the rest of it (`Runs.bind`), a loop over a list (`Runs.foldlM`).

The second part is 64-bit arithmetic on naturals that aborts on overflow.
-/

namespace Except

variable {ε α β γ : Type}

def Runs (m : Except (Fault ε) α) (room : Prop) (bad : ε → Prop) (good : α → Prop) : Prop :=
  match m with
  | .ok a => good a
  | .error (.err e) => bad e
  | .error .panic => ¬ room

variable {m : Except (Fault ε) α} {room : Prop} {bad bad' : ε → Prop} {good good' : α → Prop} {post : β → Prop}
    {a : α} {e : ε}

@[simp] theorem runs_panic : (Except.error .panic : Except (Fault ε) α).Runs room bad good ↔ ¬ room := Iff.rfl

theorem Runs.imp (h : m.Runs room bad good) (errors : ∀ e, bad e → bad' e) (values : ∀ a, good a → good' a) :
    m.Runs room bad' good' := by
  rcases m with (e | _) | a
  · exact errors e h
  · exact h
  · exact values a h

theorem Runs.mono (h : m.Runs room bad good) (values : ∀ a, good a → good' a) : m.Runs room bad good' :=
  h.imp (fun _ he => he) values

theorem Runs.of_room {room' : Prop} (h : m.Runs room bad good) (rooms : room' → room) : m.Runs room' bad good := by
  rcases m with (e | _) | a
  · exact h
  · exact fun hr => h (rooms hr)
  · exact h

theorem Runs.of_ok (h : m.Runs room bad good) (ok : m = .ok a) : good a := by
  subst ok
  exact h

/-- With room, a computation returns a value or one of its errors. -/
theorem Runs.cases (h : m.Runs room bad good) (hr : room) :
    (∃ a, m = .ok a ∧ good a) ∨ ∃ e, m = .error (.err e) ∧ bad e := by
  rcases m with (e | _) | a
  · exact .inr ⟨e, rfl, h⟩
  · exact absurd hr h
  · exact .inl ⟨a, rfl, h⟩

theorem Runs.exists_ok (h : m.Runs room (fun _ => False) good) (hr : room) : ∃ a, m = .ok a ∧ good a := by
  rcases h.cases hr with found | ⟨_, _, impossible⟩
  · exact found
  · exact impossible.elim

theorem Runs.bind {f : α → Except (Fault ε) β} (first : m.Runs room bad good)
    (rest : ∀ a, m = .ok a → good a → (f a).Runs room bad post) : (m >>= f).Runs room bad post := by
  rcases m with (e | _) | a
  · exact first
  · exact first
  · exact rest a rfl first

theorem Runs.step {f : α → Except (Fault ε) β} {a : α} (first : m = .ok a) (rest : (f a).Runs room bad post) :
    (m >>= f).Runs room bad post := by
  subst first
  exact rest

variable {o : Option α}

theorem runs_ofOption_err (absent : o = none → bad e) (present : ∀ a, o = some a → good a) :
    (ofOption (.err e) o : Except (Fault ε) α).Runs room bad good := by
  cases o with
  | none => exact absent rfl
  | some a => exact present a rfl

theorem runs_ofOption_panic (absent : o = none → ¬ room) (present : ∀ a, o = some a → good a) :
    (ofOption .panic o : Except (Fault ε) α).Runs room bad good := by
  cases o with
  | none => exact absent rfl
  | some a => exact present a rfl

theorem runs_require_err {p : Prop} [Decidable p] (fails : ¬ p → bad e) :
    (require p (.err e) : Except (Fault ε) Unit).Runs room bad fun _ => p := by
  by_cases h : p
  · rw [require, if_pos h]
    exact h
  · rw [require, if_neg h]
    exact fails h

/-- A loop keeps an invariant of the elements that are left and the state. -/
theorem Runs.foldlM {f : β → γ → Except (Fault ε) β} (inv : List γ → β → Prop) {l : List γ} {b : β} (start : inv l b)
    (step : ∀ x rest b, inv (x :: rest) b → (f b x).Runs room bad (inv rest)) :
    (l.foldlM f b).Runs room bad (inv []) := by
  induction l generalizing b with
  | nil => exact start
  | cons x rest ih =>
    rw [List.foldlM_cons]
    exact (step x rest b start).bind fun b' _ hb => ih hb

/-! ## 64-bit numbers -/

end Except

namespace U64

open Checked (U64_BOUND)

variable {ε : Type} {room : Prop} {bad : ε → Prop} {a b c : Nat}

def add (a b : Nat) : Except (Fault ε) Nat := if a + b < U64_BOUND then .ok (a + b) else .error .panic

def sub (a b : Nat) : Except (Fault ε) Nat := if b ≤ a then .ok (a - b) else .error .panic

def mul (a b : Nat) : Except (Fault ε) Nat := if a * b < U64_BOUND then .ok (a * b) else .error .panic

/-- `iter().sum()` -/
def sum (l : List Nat) : Except (Fault ε) Nat := l.foldlM add 0

theorem add_runs (h : room → a + b < U64_BOUND) :
    (add a b : Except (Fault ε) Nat).Runs room bad fun c => c = a + b ∧ c < U64_BOUND := by
  unfold add
  split
  · rename_i fits
    exact ⟨rfl, fits⟩
  · rename_i big
    exact fun hr => big (h hr)

theorem sub_runs (h : room → b ≤ a) : (sub a b : Except (Fault ε) Nat).Runs room bad fun c => c + b = a := by
  unfold sub
  split
  · rename_i fits
    exact Nat.sub_add_cancel fits
  · rename_i under
    exact fun hr => under (h hr)

theorem mul_runs (h : room → a * b < U64_BOUND) :
    (mul a b : Except (Fault ε) Nat).Runs room bad fun c => c = a * b ∧ c < U64_BOUND := by
  unfold mul
  split
  · rename_i fits
    exact ⟨rfl, fits⟩
  · rename_i big
    exact fun hr => big (h hr)

theorem sum_runs {l : List Nat} (h : room → l.sum < U64_BOUND) :
    (sum l : Except (Fault ε) Nat).Runs room bad fun c => c = l.sum := by
  have loop : (l.foldlM add 0 : Except (Fault ε) Nat).Runs room bad fun c => c + [].sum = l.sum := by
    refine Except.Runs.foldlM (fun rest c => c + rest.sum = l.sum) (Nat.zero_add _) fun x rest b hb => ?_
    rw [List.sum_cons] at hb
    refine (add_runs fun hr => ?_).mono fun c hc => ?_
    · have := h hr
      omega
    · omega
  exact loop.mono fun c hc => by simpa using hc

end U64
