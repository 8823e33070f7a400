import Mathlib.Data.List.Chain

/-!
# Run-length encoding with cumulative counts

A run `(cum, a)` stands for `a` at the positions from the previous run's count up to `cum`. `encode` is
total; `expand` aborts on counts that do not increase, and does so exactly then (`expand_isSome_iff`).
Runs whose neighbours differ are the encoding of what they expand to (`Compresses.encode_eq`).
-/

namespace RunLength

open List

variable {α : Type} [DecidableEq α]

/-- Equal neighbours, counted. -/
def dedupWithCount : List α → List (Nat × α)
  | [] => []
  | a :: as =>
    match dedupWithCount as with
    | [] => [(1, a)]
    | (n, b) :: rest => if a = b then (n + 1, a) :: rest else (1, a) :: (n, b) :: rest

/-- Running sums of the counts. -/
def cumulate (sum : Nat) : List (Nat × α) → List (Nat × α)
  | [] => []
  | (n, a) :: rest => (sum + n, a) :: cumulate (sum + n) rest

def encode (as : List α) : List (Nat × α) := cumulate 0 (dedupWithCount as)

/-- The runs from the count `prev` on; `none`: a count does not exceed the one before it. -/
def expand (prev : Nat) : List (Nat × α) → Option (List α)
  | [] => some []
  | (cum, a) :: rest => if prev < cum then (expand cum rest).map (replicate (cum - prev) a ++ ·) else none

/-- The counts increase, from a first one above `prev`. -/
def Increasing (prev : Nat) : List (Nat × α) → Prop
  | [] => True
  | (cum, _) :: rest => prev < cum ∧ Increasing cum rest

instance decidableIncreasing : ∀ (prev : Nat) (runs : List (Nat × α)), Decidable (Increasing prev runs)
  | _, [] => .isTrue trivial
  | prev, (cum, _) :: rest => @instDecidableAnd (prev < cum) (Increasing cum rest) _ (decidableIncreasing cum rest)

omit [DecidableEq α] in
theorem expand_isSome_iff {prev : Nat} {runs : List (Nat × α)} : (expand prev runs).isSome ↔ Increasing prev runs := by
  induction runs generalizing prev with
  | nil => simp [expand, Increasing]
  | cons run rest ih =>
    rw [expand, Increasing, ← ih]
    split <;> simp [*]

omit [DecidableEq α] in
theorem expand_cons_iff {prev : Nat} {run : Nat × α} {rest : List (Nat × α)} {as : List α} :
    expand prev (run :: rest) = some as ↔
    prev < run.1 ∧ ∃ tail, expand run.1 rest = some tail ∧ replicate (run.1 - prev) run.2 ++ tail = as := by
  rw [expand]
  split <;> simp [*]

omit [DecidableEq α] in
theorem expand_concat_iff {prev cum : Nat} {a : α} {runs : List (Nat × α)} {as : List α} :
    expand prev (runs ++ [(cum, a)]) = some as ↔
    ∃ bs, expand prev runs = some bs ∧ prev + bs.length < cum ∧ bs ++ replicate (cum - (prev + bs.length)) a = as := by
  induction runs generalizing prev as with
  | nil => simp [expand]
  | cons run rest ih =>
    simp only [cons_append, expand_cons_iff, ih]
    constructor
    · rintro ⟨less, _, ⟨bs, hbs, small, rfl⟩, rfl⟩
      refine ⟨_, ⟨less, bs, hbs, rfl⟩, ?_⟩
      rw [length_append, length_replicate, append_assoc,
        show prev + (run.1 - prev + bs.length) = run.1 + bs.length by omega]
      exact ⟨small, rfl⟩
    · rintro ⟨_, ⟨less, bs, hbs, rfl⟩, small, rfl⟩
      have total : prev + (run.1 - prev + bs.length) = run.1 + bs.length := by omega
      rw [length_append, length_replicate, total] at small ⊢
      exact ⟨less, _, ⟨bs, hbs, small, rfl⟩, (append_assoc ..).symm⟩

omit [DecidableEq α] in
/-- The last count is the number of positions. -/
theorem length_of_expand {runs : List (Nat × α)} {as : List α} (h : expand 0 runs = some as) :
    (runs.getLast?.map Prod.fst).getD 0 = as.length := by
  obtain rfl | ⟨init, run, rfl⟩ := runs.eq_nil_or_concat'
  · cases h
    rfl
  · obtain ⟨bs, -, less, rfl⟩ := expand_concat_iff.mp h
    simp
    omega

omit [DecidableEq α] in
/-- Random access is by the first run that reaches the index. -/
theorem getElem?_of_expand {prev : Nat} {runs : List (Nat × α)} {as : List α} (h : expand prev runs = some as)
    (i : Nat) :
    as[i]? = (runs.find? fun run => prev + i < run.1).map Prod.snd := by
  induction runs generalizing prev as i with
  | nil =>
    cases h
    rfl
  | cons run rest ih =>
    obtain ⟨less, tail, htail, rfl⟩ := expand_cons_iff.mp h
    rw [getElem?_append, length_replicate, getElem?_replicate, find?_cons]
    by_cases inside : prev + i < run.1
    · have : i < run.1 - prev := by omega
      simp [*]
    · have : ¬ i < run.1 - prev := by omega
      have : run.1 + (i - (run.1 - prev)) = prev + i := by omega
      simp [*, ih htail]

/-- The runs are a compressed form of `as`. -/
structure Compresses (runs : List (Nat × α)) (as : List α) : Prop where
  expands : expand 0 runs = some as
  compressed : (runs.map Prod.snd).IsChain (· ≠ ·)

/-- Fully compressed runs are the encoding of what they expand to. -/
theorem cumulate_dedupWithCount {prev : Nat} {runs : List (Nat × α)} {as : List α} (h : expand prev runs = some as)
    (compressed : (runs.map Prod.snd).IsChain (· ≠ ·)) : cumulate prev (dedupWithCount as) = runs := by
  induction runs generalizing prev as with
  | nil =>
    cases h
    rfl
  | cons run rest ih =>
    obtain ⟨less, tail, htail, rfl⟩ := expand_cons_iff.mp h
    have later_eq := ih htail (isChain_of_isChain_cons compressed)
    have block (n : Nat) : dedupWithCount (replicate (n + 1) run.2 ++ tail) =
        (n + 1, run.2) :: dedupWithCount tail := by
      induction n with
      | zero =>
        rw [replicate_one, singleton_append, dedupWithCount]
        cases hd : dedupWithCount tail with
        | nil => rfl
        | cons next later =>
          -- the next run is the first of `rest`, so its value is another one
          rw [hd, cumulate] at later_eq
          subst later_eq
          exact if_neg (isChain_cons_cons.mp compressed).1
      | succ n ih =>
        rw [replicate_succ, cons_append, dedupWithCount, ih]
        simp
    obtain ⟨n, hn⟩ := Nat.exists_eq_add_of_lt less
    rw [show run.1 - prev = n + 1 by omega, block, cumulate, show prev + (n + 1) = run.1 by omega, later_eq]

/-- One position more. -/
def push (runs : List (Nat × α)) (a : α) : List (Nat × α) :=
  match runs.getLast? with
  | none => [(1, a)]
  | some (n, b) => if b = a then runs.dropLast ++ [(n + 1, b)] else runs ++ [(n + 1, a)]

namespace Compresses

variable {runs : List (Nat × α)} {as : List α}

theorem encode_eq (h : Compresses runs as) : encode as = runs :=
  cumulate_dedupWithCount h.expands h.compressed

theorem push (h : Compresses runs as) (a : α) : Compresses (push runs a) (as ++ [a]) := by
  obtain rfl | ⟨init, ⟨n, b⟩, rfl⟩ := runs.eq_nil_or_concat'
  · cases h.expands
    exact ⟨rfl, .singleton _⟩
  · obtain ⟨bs, hbs, less, rfl⟩ := expand_concat_iff.mp h.expands
    have compressed := h.compressed
    simp only [RunLength.push, getLast?_concat, dropLast_concat]
    split
    · rename_i same
      refine ⟨expand_concat_iff.mpr ⟨bs, hbs, by omega, ?_⟩, by simpa using compressed⟩
      rw [← same, append_assoc, ← replicate_succ', show n + 1 - (0 + bs.length) = n - (0 + bs.length) + 1 by omega]
    · rename_i other
      refine ⟨expand_concat_iff.mpr ⟨_, h.expands, ?_⟩, ?_⟩
      · rw [length_append, length_replicate,
          show 0 + (bs.length + (n - (0 + bs.length))) = n by omega, Nat.add_sub_cancel_left]
        exact ⟨Nat.lt_succ_self n, rfl⟩
      · simp only [map_append, map_cons, map_nil, append_assoc, cons_append, nil_append] at compressed ⊢
        exact isChain_append_cons_cons.mpr ⟨compressed, other, .singleton _⟩

end Compresses

end RunLength
