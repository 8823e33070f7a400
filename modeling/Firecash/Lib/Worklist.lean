import Mathlib.Data.Finset.Card
import Mathlib.Logic.Relation
import Mathlib.Tactic.Basic

/-!
# Worklist search

A queue of nodes to expand, the set of nodes found so far, and a set of nodes at which the search has stopped. A node
that is met is skipped if it is in one of the two sets, put into the second one if `stop` holds of it, and
otherwise found and queued. With enough fuel the search ends, and it has found what can be reached from the
starts without a stop (`run_spec`).
-/

namespace Worklist

open List

variable {α : Type} [DecidableEq α]

structure State (α : Type) where
  queue : List α
  found : List α
  stopped : List α

def visit (stop : α → Bool) (s : State α) (a : α) : State α :=
  if a ∈ s.found ∨ a ∈ s.stopped then s
  else if stop a then { s with stopped := a :: s.stopped }
  else { s with found := s.found ++ [a], queue := s.queue ++ [a] }

/-- `none`: a node has no known successors, or the fuel is used up. -/
def run (next : α → Option (List α)) (stop : α → Bool) : Nat → State α → Option (List α)
  | fuel, s =>
    match s.queue with
    | [] => some s.found
    | a :: queue =>
      match fuel, next a with
      | fuel + 1, some as => run next stop fuel (as.foldl (visit stop) { s with queue := queue })
      | _, _ => none

def start (starts : List α) : State α := ⟨starts, starts.dedup, []⟩

/-- One step of the search that does not stop. -/
def Step (next : α → Option (List α)) (stop : α → Bool) (a b : α) : Prop :=
  ∃ as, next a = some as ∧ b ∈ as ∧ stop b = false

variable {next : α → Option (List α)} {stop : α → Bool}

/-- What a search from `starts` keeps in a universe `U` of nodes, while it expands `current`, if any. -/
structure Inv (next : α → Option (List α)) (stop : α → Bool) (U : Finset α) (starts : List α) (current : Option α)
    (s : State α) :
    Prop where
  nodup : s.found.Nodup
  inside : ∀ a ∈ s.found, a ∈ U
  sound : ∀ a ∈ s.found, ∃ b ∈ starts, Relation.ReflTransGen (Step next stop) b a
  starts : ∀ a ∈ starts, a ∈ s.found
  queue : ∀ a ∈ s.queue, a ∈ s.found
  stopped : ∀ a ∈ s.stopped, stop a = true
  /-- A node that waits no longer was expanded. -/
  closed : ∀ a ∈ s.found, a ∉ s.queue → current ≠ some a → ∀ b, Step next stop a b → b ∈ s.found

/-- What is left to do. -/
def todo (U : Finset α) (s : State α) : Nat := s.queue.length + (U.filter (· ∉ s.found)).card

variable {U : Finset α} {starts : List α} {current : α} {s : State α} {a : α} {as : List α}

theorem found_visit {x : α} (hx : x ∈ s.found) : x ∈ (visit stop s a).found := by
  unfold visit
  split
  · exact hx
  · split
    · exact hx
    · exact mem_append_left _ hx

theorem found_foldl {x : α} (hx : x ∈ s.found) : x ∈ (as.foldl (visit stop) s).found := by
  induction as generalizing s with
  | nil => exact hx
  | cons a as ih => exact ih (found_visit hx)

theorem visit_found (stopped : ∀ a ∈ s.stopped, stop a = true) (go : stop a = false) : a ∈ (visit stop s a).found := by
  unfold visit
  split
  · rename_i seen
    rcases seen with found | halted
    · exact found
    · rw [stopped a halted] at go
      cases go
  · rw [go, if_neg Bool.false_ne_true]
    exact mem_append_right _ mem_cons_self

theorem Inv.visit (h : Inv next stop U starts (some current) s) (hc : current ∈ s.found) {succ : List α}
    (hnext : next current = some succ) (ha : a ∈ succ) (inside : stop a = false → a ∈ U) :
    Inv next stop U starts (some current) (visit stop s a) ∧ todo U (Worklist.visit stop s a) ≤ todo U s := by
  unfold Worklist.visit
  split
  · exact ⟨h, Nat.le_refl _⟩
  · rename_i fresh
    obtain ⟨fresh, -⟩ := not_or.mp fresh
    split
    · rename_i halts
      refine ⟨⟨h.nodup, h.inside, h.sound, h.starts, h.queue, ?_, h.closed⟩, Nat.le_refl _⟩
      exact forall_mem_cons.mpr ⟨halts, h.stopped⟩
    · rename_i goes
      have go : stop a = false := Bool.eq_false_iff.mpr goes
      have step : Step next stop current a := ⟨succ, hnext, ha, go⟩
      constructor
      · refine ⟨?_, ?_, ?_, ?_, ?_, h.stopped, ?_⟩
        · grind [h.nodup]
        · grind [h.inside]
        · intro x hx
          rcases mem_append.mp hx with old | new
          · exact h.sound x old
          · obtain rfl := mem_singleton.mp new
            obtain ⟨b, hb, path⟩ := h.sound current hc
            exact ⟨b, hb, path.tail step⟩
        · grind [h.starts]
        · grind [h.queue]
        · intro x hx done other b hb
          have closed := h.closed x
          grind
      · have less : (U.filter (· ∉ s.found ++ [a])).card < (U.filter (· ∉ s.found)).card := by
          refine Finset.card_lt_card (Finset.ssubset_iff_of_subset ?_ |>.mpr ⟨a, ?_, ?_⟩)
          · grind
          · exact Finset.mem_filter.mpr ⟨inside go, fresh⟩
          · grind
        show (s.queue ++ [a]).length + (U.filter (· ∉ s.found ++ [a])).card ≤ s.queue.length +
          (U.filter (· ∉ s.found)).card
        rw [length_append, length_singleton]
        omega

theorem Inv.foldl (h : Inv next stop U starts (some current) s) (hc : current ∈ s.found) {succ : List α}
    (hnext : next current = some succ) (sub : ∀ a ∈ as, a ∈ succ) (inside : ∀ a ∈ succ, stop a = false → a ∈ U) :
    Inv next stop U starts (some current) (as.foldl (Worklist.visit stop) s) ∧
      todo U (as.foldl (Worklist.visit stop) s) ≤ todo U s ∧
      ∀ a ∈ as, stop a = false → a ∈ (as.foldl (Worklist.visit stop) s).found := by
  induction as generalizing s with
  | nil => exact ⟨h, Nat.le_refl _, nofun⟩
  | cons a as ih =>
    obtain ⟨first, later⟩ := forall_mem_cons.mp sub
    obtain ⟨visited, less⟩ := h.visit hc hnext first (inside a first)
    obtain ⟨inv, less', found⟩ := ih visited (found_visit hc) later
    refine ⟨inv, Nat.le_trans less' less, forall_mem_cons.mpr ⟨fun go => ?_, found⟩⟩
    show a ∈ (as.foldl (Worklist.visit stop) (Worklist.visit stop s a)).found
    exact found_foldl (visit_found h.stopped go)

omit [DecidableEq α] in
/-- A search with nothing left has found what steps lead to. -/
theorem Inv.mem_iff_of_done (h : Inv next stop U starts none s) (done : s.queue = []) (x : α) :
    x ∈ s.found ↔ ∃ b ∈ starts, Relation.ReflTransGen (Step next stop) b x := by
  refine ⟨h.sound x, ?_⟩
  rintro ⟨b, hb, path⟩
  induction path with
  | refl => exact h.starts b hb
  | tail _ step ih => exact h.closed _ ih (by rw [done]; exact not_mem_nil) (by simp) _ step

/-- **The search.** Within a finite universe that is closed under steps, enough fuel finds exactly what
steps lead to. -/
theorem run_spec (total : ∀ a ∈ U, ∃ as, next a = some as ∧ ∀ b ∈ as, stop b = false → b ∈ U) {fuel : Nat}
    (h : Inv next stop U starts none s) (enough : todo U s ≤ fuel) :
    ∃ r, run next stop fuel s = some r ∧ r.Nodup ∧ ∀ x, x ∈ r ↔
      ∃ b ∈ starts, Relation.ReflTransGen (Step next stop) b x := by
  induction fuel generalizing s with
  | zero =>
    have empty : s.queue = [] := by
      unfold todo at enough
      exact length_eq_zero_iff.mp (by omega)
    refine ⟨s.found, ?_, h.nodup, h.mem_iff_of_done empty⟩
    unfold run
    rw [empty]
  | succ fuel ih =>
    cases hq : s.queue with
    | nil =>
      refine ⟨s.found, ?_, h.nodup, h.mem_iff_of_done hq⟩
      unfold run
      rw [hq]
    | cons a queue =>
      have found : a ∈ s.found := h.queue a (by rw [hq]; exact mem_cons_self)
      obtain ⟨as, hnext, inside⟩ := total a (h.inside a found)
      have popped : Inv next stop U starts (some a) { s with queue := queue } := by
        refine ⟨h.nodup, h.inside, h.sound, h.starts, ?_, h.stopped, ?_⟩
        · exact fun x hx => h.queue x (by rw [hq]; exact mem_cons_of_mem a hx)
        · intro x hx done other b hb
          refine h.closed x hx ?_ (by simp) b hb
          rw [hq]
          rintro (_ | ⟨_, later⟩)
          · exact other rfl
          · exact done later
      obtain ⟨inv, less, expanded⟩ := popped.foldl found hnext (fun _ h => h) inside
      have closed : Inv next stop U starts none (as.foldl (visit stop) { s with queue := queue }) := by
        refine ⟨inv.nodup, inv.inside, inv.sound, inv.starts, inv.queue, inv.stopped, fun x hx done _ b hb => ?_⟩
        by_cases same : x = a
        · subst same
          obtain ⟨bs, hbs, hb, go⟩ := hb
          rw [hnext] at hbs
          cases hbs
          exact expanded b hb go
        · exact inv.closed x hx done (fun h => same (Option.some.inj h).symm) b hb
      have fewer : todo U (as.foldl (visit stop) { s with queue := queue }) ≤ fuel := by
        have pop : todo U { s with queue := queue } + 1 = todo U s := by
          show queue.length + (U.filter (· ∉ s.found)).card + 1 = s.queue.length + (U.filter (· ∉ s.found)).card
          rw [hq, length_cons]
          omega
        omega
      obtain ⟨r, hr, rest⟩ := ih closed fewer
      refine ⟨r, ?_, rest⟩
      unfold run
      rw [hq]
      dsimp only
      rw [hnext]
      exact hr

theorem inv_start (inside : ∀ a ∈ starts, a ∈ U) : Inv next stop U starts none (start starts) where
  nodup := nodup_dedup starts
  inside a ha := inside a (mem_dedup.mp ha)
  sound a ha := ⟨a, mem_dedup.mp ha, .refl⟩
  starts _ ha := mem_dedup.mpr ha
  queue _ ha := mem_dedup.mpr ha
  stopped _ ha := absurd ha not_mem_nil
  closed _ ha waits _ _ _ := absurd (mem_dedup.mp ha) waits

end Worklist
