import Firecash.Shielded.Primitives

/-!
# Nullifier conflict resolution (shielded-core/src/nullifier.rs)

A transaction is accepted when none of its nullifiers is in the finalized set, none was accepted
earlier in the batch and none occurs twice in the transaction itself; otherwise it is dropped as a
whole and records nothing.

`tryAccept_eq_ok` is the specification of one call; `Resolver.Fresh` is what every batch keeps:
the accepted nullifiers are pairwise distinct and disjoint from the finalized set.
-/

namespace Firecash

/-- `NullifierConflict` (nullifier.rs) -/
inductive NullifierConflict where
  | alreadySpent (nf : NullifierBytes)
  | duplicateWithinTx (nf : NullifierBytes)
  deriving DecidableEq

/-- `NullifierConflictResolver` (nullifier.rs:103). The finalized set is read through the one
method of the `NullifierSet` trait. -/
structure Resolver where
  finalized : NullifierBytes → Bool
  seen : Finset NullifierBytes
  accepted : List NullifierBytes

namespace Resolver

def new (finalized : NullifierBytes → Bool) : Resolver := ⟨finalized, ∅, []⟩

def conflicts (r : Resolver) (nf : NullifierBytes) : Bool := r.finalized nf || decide (nf ∈ r.seen)

/-- The first loop of `try_accept`: the duplicate test comes before the conflict test. -/
def checkAll (r : Resolver) : Finset NullifierBytes → List NullifierBytes → Except NullifierConflict Unit
  | _, [] => .ok ()
  | withinTx, nf :: nfs =>
    if nf ∈ withinTx then .error (.duplicateWithinTx nf)
    else if r.conflicts nf then .error (.alreadySpent nf)
    else r.checkAll (insert nf withinTx) nfs

/-- The second loop of `try_accept`. -/
def record (r : Resolver) : List NullifierBytes → Resolver
  | [] => r
  | nf :: nfs => { r with seen := insert nf r.seen, accepted := r.accepted ++ [nf] }.record nfs

/-- `try_accept` (nullifier.rs:126). An error leaves the resolver as it was. -/
def tryAccept (r : Resolver) (nfs : List NullifierBytes) : Except NullifierConflict Resolver :=
  match r.checkAll ∅ nfs with
  | .error e => .error e
  | .ok () => .ok (r.record nfs)

theorem checkAll_eq_ok (r : Resolver) (withinTx : Finset NullifierBytes) (nfs : List NullifierBytes) :
    r.checkAll withinTx nfs = .ok () ↔
      nfs.Nodup ∧ (∀ nf ∈ nfs, nf ∉ withinTx) ∧ ∀ nf ∈ nfs, r.conflicts nf = false := by
  induction nfs generalizing withinTx with
  | nil => simp [checkAll]
  | cons nf nfs ih =>
    by_cases hw : nf ∈ withinTx
    · simp [checkAll, hw]
    by_cases hc : r.conflicts nf
    · simp [checkAll, hw, hc]
    rw [checkAll, if_neg hw, if_neg hc, ih]
    grind

theorem record_eq (r : Resolver) (nfs : List NullifierBytes) :
    r.record nfs = ⟨r.finalized, r.seen ∪ nfs.toFinset, r.accepted ++ nfs⟩ := by
  induction nfs generalizing r with
  | nil => simp [record]
  | cons nf nfs ih => simp [record, ih, Finset.insert_union, Finset.union_insert]

variable {nfs : List NullifierBytes}

/-- Specification of `try_accept`: all or nothing. -/
theorem tryAccept_eq_ok {r r' : Resolver} :
    r.tryAccept nfs = .ok r' ↔
      nfs.Nodup ∧ (∀ nf ∈ nfs, r.conflicts nf = false) ∧
        r' = ⟨r.finalized, r.seen ∪ nfs.toFinset, r.accepted ++ nfs⟩ := by
  have hspec := r.checkAll_eq_ok ∅ nfs
  simp only [Finset.notMem_empty, not_false_eq_true, implies_true, true_and] at hspec
  unfold tryAccept
  cases hc : r.checkAll ∅ nfs with
  | error e =>
    rw [hc] at hspec
    constructor
    · intro h; cases h
    · rintro ⟨hnd, hcf, -⟩
      cases hspec.mpr ⟨hnd, hcf⟩
  | ok u =>
    obtain ⟨hnd, hcf⟩ := hspec.mp hc
    simp only [Except.ok.injEq, record_eq]
    constructor
    · rintro rfl; exact ⟨hnd, hcf, rfl⟩
    · rintro ⟨-, -, rfl⟩; rfl

/-! ## What a batch keeps -/

/-- The accepted nullifiers are the seen ones, pairwise distinct and not finalized before. -/
structure Fresh (r : Resolver) : Prop where
  seen_eq : r.seen = r.accepted.toFinset
  nodup : r.accepted.Nodup
  not_finalized : ∀ nf ∈ r.accepted, r.finalized nf = false

theorem fresh_new (finalized : NullifierBytes → Bool) : (new finalized).Fresh :=
  ⟨by simp [new], by simp [new], by simp [new]⟩

theorem Fresh.tryAccept {r r' : Resolver} (hr : r.Fresh)
    (h : r.tryAccept nfs = .ok r') : r'.Fresh := by
  obtain ⟨hnd, hcf, rfl⟩ := tryAccept_eq_ok.mp h
  have hcf' : ∀ nf ∈ nfs, r.finalized nf = false ∧ nf ∉ r.accepted := by
    intro nf hnf
    simpa [conflicts, hr.seen_eq] using hcf nf hnf
  refine ⟨?_, ?_, ?_⟩
  · simp [hr.seen_eq]
  · refine List.nodup_append.mpr ⟨hr.nodup, hnd, ?_⟩
    rintro a ha b hb rfl
    exact (hcf' a hb).2 ha
  · intro nf hnf
    rcases List.mem_append.mp hnf with h' | h'
    · exact hr.not_finalized nf h'
    · exact (hcf' nf h').1

end Resolver

/-- `MemNullifierSet` (nullifier.rs): the reference in-memory set. -/
abbrev MemNullifierSet := Finset NullifierBytes

/-- `MemNullifierSet::extend` -/
def MemNullifierSet.extend (s : MemNullifierSet) (nfs : List NullifierBytes) : MemNullifierSet :=
  nfs.foldl (fun acc nf => insert nf acc) s

theorem MemNullifierSet.extend_eq (s : MemNullifierSet) (nfs : List NullifierBytes) :
    s.extend nfs = s ∪ nfs.toFinset := by
  induction nfs generalizing s with
  | nil => simp [extend]
  | cons nf nfs ih =>
    have hstep : extend s (nf :: nfs) = extend (insert nf s) nfs := rfl
    rw [hstep, ih, List.toFinset_cons, Finset.insert_union, Finset.union_insert]

end Firecash
