import Firecash.Smt.Batches

/-!
# Verification of proofs (crypto/smt/src/proof.rs)

A proof lists the siblings on the way from a leaf, or a collapsed subtree, to the root. `verify_cached`
remembers the hash of every branch it passes and takes a remembered hash instead of hashing. The branch of
depth 0 is on every path, so after the first call the remembered root decides, whatever a proof says:
`forged_accepted`. The results are those of `verify` exactly if the proofs are all valid or all invalid
(`verifyCached_eq_verify_iff`).
-/

namespace Firecash.Smt

open KeyBits List

inductive ProofTerminal where
  | full
  | collapsed (depth : UInt8)
  | collapsedOther (depth : UInt8) (leaf : CollapsedLeaf)

def ProofTerminal.depth : ProofTerminal → Nat
  | .full => DEPTH
  | .collapsed depth | .collapsedOther depth _ => depth.toNat

inductive SmtProofError where
  | siblingCountMismatch (expected actual : Nat)
  deriving DecidableEq

/-- The hashes of branches by their keys. -/
abbrev ProofBranchCache := BranchKey → Option Hash

/-- Bit `d` of the 32 bytes, the least significant of each byte first. -/
def isEmptyAtDepth (bitmap : Hash) (d : Nat) : Bool := bitmap.getLsbD d

def clearCount (bitmap : Hash) (limit : Nat) : Nat := (range limit).countP (!isEmptyAtDepth bitmap ·)

def bitmapClearCountBefore (bitmap : Hash) (terminal : ProofTerminal) : Nat := clearCount bitmap terminal.depth

variable (H : SmtHasher)

/-- The sibling at depth `d`, and those that are left; the last one is used first. -/
def takeSibling (bitmap : Hash) (d : Nat) (siblings : List Hash) : Except (Fault SmtProofError) (Hash × List Hash) :=
  if isEmptyAtDepth bitmap d then .ok (EMPTY_HASHES H (DEPTH - 1 - d), siblings)
  else
    match siblings with
    | [] => .error .panic
    | sibling :: rest => .ok (sibling, rest)

/-- The hash of a branch, taken from the cache if it is there. -/
def branchHash (key : BranchKey) (left right : Hash) : Option ProofBranchCache → Hash × Option ProofBranchCache
  | none => (H.node left right, none)
  | some cache =>
    match cache key with
    | some hash => (hash, some cache)
    | none => (H.node left right, some (Function.update cache key (some (H.node left right))))

/-- The loop of `compute_root_inner`, from depth `d - 1` up to the root. -/
def climb (bitmap key : Hash) : Nat → Hash → List Hash → Option ProofBranchCache →
    Except (Fault SmtProofError) (Hash × Option ProofBranchCache)
  | 0, current, _, cache => .ok (current, cache)
  | d + 1, current, siblings, cache =>
    match takeSibling H bitmap d siblings with
    | .error e => .error e
    | .ok (sibling, rest) =>
      let (left, right) := if bitAt key d then (sibling, current) else (current, sibling)
      let (current, cache) := branchHash H (.new d key) left right cache
      climb bitmap key d current rest cache

structure SmtProof where
  bitmap : Hash
  siblings : List Hash
  terminal : ProofTerminal

/-- The hash at the end of the path. -/
def seedHash (terminal : ProofTerminal) (key : Hash) (leafHash : Option Hash) : Hash :=
  match terminal, leafHash with
  | .collapsedOther _ leaf, none => if leaf.laneKey ≠ key then H.leaf leaf.laneKey leaf.leafHash else ZERO_HASH
  | _, some leafHash => H.leaf key leafHash
  | _, none => ZERO_HASH

namespace SmtProof

variable (proof : SmtProof) (key : Hash) (leafHash : Option Hash)

def computeRootInner (cache : Option ProofBranchCache) :
    Except (Fault SmtProofError) (Hash × Option ProofBranchCache) :=
  let expected := bitmapClearCountBefore proof.bitmap proof.terminal
  if proof.siblings.length ≠ expected then .error (.err (.siblingCountMismatch expected proof.siblings.length))
  else climb H proof.bitmap key proof.terminal.depth (seedHash H proof.terminal key leafHash)
    proof.siblings.reverse cache

def computeRoot : Except (Fault SmtProofError) Hash :=
  (proof.computeRootInner H key leafHash none).map (·.1)

def verify (root : Hash) : Except (Fault SmtProofError) Bool :=
  (proof.computeRoot H key leafHash).map (· == root)

/-- The result, and the cache after the call. -/
def verifyCached (root : Hash) (cache : ProofBranchCache) :
    Except (Fault SmtProofError) Bool × ProofBranchCache :=
  match proof.computeRootInner H key leafHash (some cache) with
  | .ok (computed, cache') => (.ok (computed == root), cache'.getD cache)
  | .error e => (.error e, cache)

end SmtProof

/-- The arguments of a call besides the root. -/
structure ProofCall where
  proof : SmtProof
  key : Hash
  leafHash : Option Hash

namespace ProofCall

variable (call : ProofCall)

def computeRoot : Except (Fault SmtProofError) Hash := call.proof.computeRoot H call.key call.leafHash

def verify (root : Hash) : Except (Fault SmtProofError) Bool := call.proof.verify H call.key call.leafHash root

def verifyCached : Hash → ProofBranchCache → Except (Fault SmtProofError) Bool × ProofBranchCache :=
  call.proof.verifyCached H call.key call.leafHash

/-- The path of the proof has a branch. -/
def Deep : Prop := 0 < call.proof.terminal.depth
  deriving Decidable

end ProofCall

/-- The results of calls that share a cache. -/
def runCached (root : Hash) : ProofBranchCache → List ProofCall → List (Except (Fault SmtProofError) Bool)
  | _, [] => []
  | cache, call :: calls =>
    let (result, cache) := call.verifyCached H root cache
    result :: runCached root cache calls

variable {H} {bitmap key root r current : Hash} {siblings : List Hash} {cache : ProofBranchCache} {d : Nat}

@[simp] theorem new_zero (key : Hash) : BranchKey.new 0 key = .new 0 0 := branchKey_congr (by decide) (agree_zero _ _)

theorem new_ne {d e : Nat} (h : e ≠ d) : BranchKey.new e key ≠ .new d r := fun same => h (congrArg BranchKey.depth same)

theorem takeSibling_ok (count : siblings.length = clearCount bitmap (d + 1)) :
    ∃ sibling rest, takeSibling H bitmap d siblings = .ok (sibling, rest) ∧ rest.length = clearCount bitmap d := by
  rw [clearCount, range_succ, countP_append, countP_singleton] at count
  by_cases he : isEmptyAtDepth bitmap d
  · simp_all [takeSibling, clearCount]
  · cases siblings <;> simp_all [takeSibling, clearCount]

/-- A cache with nothing on the path leads to the same hash, and keeps it as the root's. -/
theorem climb_fresh (count : siblings.length = clearCount bitmap d) (fresh : ∀ e < d, cache (.new e key) = none) :
    ∃ hash cache', climb H bitmap key d current siblings none = .ok (hash, none) ∧
      climb H bitmap key d current siblings (some cache) = .ok (hash, some cache') ∧
      if d = 0 then cache' = cache else cache' (.new 0 0) = some hash := by
  induction d generalizing current siblings cache with
  | zero => simp [climb]
  | succ d ih =>
    obtain ⟨sibling, rest, taken, count⟩ := takeSibling_ok (H := H) count
    simp only [climb, taken, branchHash, fresh d d.lt_succ_self]
    generalize H.node _ _ = above
    obtain ⟨hash, cache', plain, run, kept⟩ := @ih above rest (Function.update cache (.new d key) (some above)) count
      fun e he => by rw [Function.update_of_ne (new_ne he.ne), fresh e (by omega)]
    refine ⟨hash, cache', plain, run, ?_⟩
    by_cases hd : d = 0
    · subst hd
      cases plain
      simp_all
    · simpa [hd] using kept

/-- A remembered root is the result. -/
theorem climb_known (count : siblings.length = clearCount bitmap (d + 1)) (known : cache (.new 0 0) = some r) :
    ∃ cache', climb H bitmap key (d + 1) current siblings (some cache) = .ok (r, some cache') ∧
      cache' (.new 0 0) = some r := by
  induction d generalizing current siblings cache with
  | zero =>
    obtain ⟨sibling, rest, taken, _⟩ := takeSibling_ok (H := H) count
    simp [climb, taken, branchHash, known]
  | succ d ih =>
    obtain ⟨sibling, rest, taken, count⟩ := takeSibling_ok (H := H) count
    rw [climb, taken]
    simp only [branchHash]
    cases cache (.new (d + 1) key) with
    | some hash => exact ih count known
    | none => exact ih count (by rwa [Function.update_of_ne (new_ne d.succ_ne_zero.symm)])

variable {call : ProofCall} {calls : List ProofCall}

/-- Either a call leaves the cache out, or it is decided by a remembered root and by its own hash if there is none. -/
theorem verifyCached_cases (call : ProofCall) (root : Hash) :
    ((∀ b, call.Deep → call.verify H root ≠ .ok b) ∧ ∀ cache, call.verifyCached H root cache =
      (call.verify H root, cache)) ∨
    call.Deep ∧ ∃ hash, call.verify H root = .ok (hash == root) ∧
      (∃ cache, call.verifyCached H root (fun _ => none) = (.ok (hash == root), cache) ∧ cache (.new 0 0) = some hash) ∧
      ∀ cache r, cache (.new 0 0) = some r →
        ∃ cache', call.verifyCached H root cache = (.ok (r == root), cache') ∧ cache' (.new 0 0) = some r := by
  simp only [ProofCall.verify, ProofCall.verifyCached, ProofCall.Deep, SmtProof.verify, SmtProof.verifyCached,
    SmtProof.computeRoot, SmtProof.computeRootInner, bitmapClearCountBefore]
  by_cases count : call.proof.siblings.length = clearCount call.proof.bitmap call.proof.terminal.depth
  · simp only [count, ne_eq, not_true_eq_false, if_false]
    rw [← length_reverse] at count
    revert count
    generalize call.proof.terminal.depth = d
    intro count
    cases d with
    | zero => simp [climb, Except.map]
    | succ d =>
      obtain ⟨hash, cache, plain, run, kept⟩ := @climb_fresh H _ _ _ _ (fun _ => none) _ count fun e _ => rfl
      refine .inr ⟨d.succ_pos,
        hash, by rw [plain]; rfl, ⟨cache, by rw [run]; rfl, by simpa using kept⟩, fun cache r known => ?_⟩
      obtain ⟨cache', run, kept⟩ := climb_known count known
      exact ⟨cache', by rw [run]; rfl, kept⟩
  · simp [count, Except.map]

/-- With a remembered root, no proof may say otherwise. -/
theorem runCached_known (known : cache (.new 0 0) = some r) :
    runCached H root cache calls = calls.map (·.verify H root) ↔
    ∀ call ∈ calls, call.Deep → call.verify H root ≠ .ok (!(r == root)) := by
  induction calls generalizing cache with
  | nil => simp [runCached]
  | cons call calls ih =>
    rw [forall_mem_cons, map_cons, runCached]
    rcases verifyCached_cases (H := H) call root with ⟨passes, same⟩ | ⟨deep, hash, plain, _, decided⟩
    · simp only [same, cons_inj_right, ih known, and_iff_right (passes _)]
    · obtain ⟨cache', run, known⟩ := decided cache r known
      simp [run, ih known, plain, deep, eq_comm]

theorem runCached_empty : runCached H root (fun _ => none) calls = calls.map (·.verify H root) ↔
    ∃ b, ∀ call ∈ calls, call.Deep → call.verify H root ≠ .ok b := by
  induction calls with
  | nil => simp [runCached]
  | cons call calls ih =>
    rw [map_cons, runCached]
    rcases verifyCached_cases (H := H) call root with ⟨passes, same⟩ | ⟨deep, hash, plain, ⟨cache, run, known⟩, _⟩
    · simp only [same, cons_inj_right, ih, forall_mem_cons, and_iff_right (passes _)]
    · by_cases same : hash = root <;> simp [run, runCached_known known, plain, deep, same, beq_eq_false_iff_ne.mpr]

/-- Calls that share an initially empty cache return what `verify` does exactly if, of the proofs that
have a branch and the right number of siblings, all imply the root or none does. -/
theorem verifyCached_eq_verify_iff (H : SmtHasher) (root : Hash) (calls : List ProofCall) :
    runCached H root (fun _ => none) calls = calls.map (·.verify H root) ↔
      (∀ call ∈ calls, call.Deep → ∀ computed, call.computeRoot H = .ok computed → computed = root) ∨
        ∀ call ∈ calls, call.Deep → call.computeRoot H ≠ .ok root := by
  rw [runCached_empty, Bool.exists_bool]
  have verify_eq (call : ProofCall) : call.verify H root = (call.computeRoot H).map (· == root) := rfl
  refine or_congr (forall₃_congr fun call _ _ => ?_) (forall₃_congr fun call _ _ => ?_) <;> rw [verify_eq] <;>
    cases call.computeRoot H <;> simp [Except.map]

/-- A proof of depth 1 for key 0 with leaf hash `leaf`. -/
def sampleCall (leaf : Hash) : ProofCall := ⟨⟨0, [9], .collapsed 1⟩, 0, some leaf⟩

/-- After the proof of leaf 5, the proof of leaf 6 is accepted under the same root. -/
theorem forged_accepted : (sampleCall 6).verify sampleHasher 33 = .ok false ∧
    runCached sampleHasher 33 (fun _ => none) [sampleCall 5, sampleCall 6] = [.ok true, .ok true] := by
  decide

end Firecash.Smt
