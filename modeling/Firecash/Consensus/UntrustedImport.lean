import Firecash.Consensus.PruningSync

/-!
# Untrusted pruning-point data

What `import_pruning_point_shielded` (consensus/mod.rs:1718) does with data no honest node sends. The
checks run in the order capacity, decoding, accumulator, frontier, state root, count, accumulator
again, and four of the inputs they let through are not returned as errors:

* the declared count is reserved before anything is looked at, and a count of `2^58` or more
  overflows the capacity;
* a stream that reproduces the accumulator brings the frontier to
  `from_state(..).expect("frontier corrupt")`, whatever it is;
* an accumulator sent as a fraction passes every check, since they finalize it, and meets
  `try_into().expect(..)` in the store;
* a frontier of size zero is the empty tree whatever leaf and ommers come with it, and is written as
  it came.

`import_survives_iff` is the exact condition under which none of them happens.
-/

namespace Firecash

open ShieldedStores GlobalTree Except

variable {P : Prim}

/-- The size, the leaf and the ommers describe one frontier. -/
def FrontierState.Consistent (P : Prim) (f : FrontierState) : Prop :=
  (∃ tree : GlobalTree P, fromState f = .ok tree) ∧ (f.size = 0 → f.leaf = none ∧ f.ommers = [])

namespace ShieldedStores

variable {frontier : FrontierState} {tree : GlobalTree P}

theorem recomputeStateRoot_of_ok
    (h : fromState frontier = .ok tree) (supply : SupplyTotals) (mu : MuHash P) :
    recomputeStateRoot frontier supply mu =
      some (P.shieldedStateRoot tree.anchor mu.finalize supply.cumulativeCoinbase supply.cumulativeFees) := by
  unfold recomputeStateRoot
  rw [h]
  rfl

theorem recomputeStateRoot_of_error {e : TreeStateError}
    (h : (fromState frontier : Except _ (GlobalTree P)) = .error e) (supply : SupplyTotals) (mu : MuHash P) :
    recomputeStateRoot frontier supply mu = none := by
  unfold recomputeStateRoot
  rw [h]
  rfl

/-- Seeding a rebuilt frontier panics on a fraction only. -/
theorem seedStores_isSome_iff (s : ShieldedStores P) (block : Hash) (nullifiers : List NullifierBytes)
    {md : PruningPointShieldedMetadata P} (htree : fromState md.frontier = .ok tree) :
    (s.seedStores block md nullifiers).isSome ↔
      (md.nullifierMuhash.finalize ≠ MuHash.EMPTY_MUHASH P → md.nullifierMuhash.denominator = 1) := by
  unfold seedStores seedMuhash MuHash.tryIntoUint3072
  rw [htree]
  by_cases hempty : md.nullifierMuhash.finalize = MuHash.EMPTY_MUHASH P
  · simp [hempty, Except.toOption]
  · by_cases hden : md.nullifierMuhash.denominator = 1
    · simp [hempty, hden, Except.toOption]
    · simp [hempty, hden, Except.toOption]

end ShieldedStores

namespace ConsensusStores

variable {codec : MetadataCodec P} {c c' : ConsensusStores P} {pp : Hash} {metadata : ShieldedExportMetadata codec}
  {batches : List (List NullifierBytes)} {md : PruningPointShieldedMetadata P}

/-- An import neither aborts the process nor takes an inconsistent frontier. An error comes back before
the one batch is written, so it leaves the stores as they were. -/
def Survives (codec : MetadataCodec P) (c : ConsensusStores P) (pp : Hash) (metadata : ShieldedExportMetadata codec)
    (batches : List (List NullifierBytes)) : Prop :=
  c.importPruningPointShielded codec pp metadata batches ≠ .error .panic ∧
    ∀ md, codec.fromWireBytes metadata.data = .ok md → ¬ md.frontier.Consistent P →
      ∃ msg, c.importPruningPointShielded codec pp metadata batches = .error (.err msg)

section

variable (hr : metadata.nullifierCount * 32 ≤ ISIZE_MAX)
include hr

/-- Past the reservation, an import fails as the seeding does. -/
theorem import_eq_error {e : Fault String} :
    c.importPruningPointShielded codec pp metadata batches = .error e ↔
      c.shielded.seedPruningPointShielded codec pp metadata batches.flatten = .error e := by
  unfold importPruningPointShielded
  rw [reserve_eq_ok_iff.mpr hr]
  cases hs : c.shielded.seedPruningPointShielded codec pp metadata batches.flatten with
  | error e' =>
    constructor
    · intro h
      cases h
      rfl
    · intro h
      cases h
      rfl
  | ok s =>
    constructor
    · intro h
      cases h
    · intro h
      cases h

/-- An import that is reserved, decoded and returned as an error survives. -/
theorem survives_of_err (h : ∃ msg, c.shielded.seedPruningPointShielded codec pp metadata batches.flatten =
    .error (.err msg)) :
    Survives codec c pp metadata batches := by
  obtain ⟨msg, h⟩ := h
  have himport := (import_eq_error hr).mpr h
  refine ⟨?_, fun _ _ _ => ⟨msg, himport⟩⟩
  rw [himport]
  intro h
  cases h

/-- Every check passed: what is left are the two things no check looks at. -/
theorem survives_of_verified {tree : GlobalTree P}
    (hmd : codec.fromWireBytes metadata.data = .ok md)
    (hacc : (MuHash.ofList batches.flatten : MuHash P).finalize = md.nullifierMuhash.finalize)
    (htree : fromState md.frontier = .ok tree)
    (hroot : P.shieldedStateRoot tree.anchor md.nullifierMuhash.finalize md.supply.cumulativeCoinbase
      md.supply.cumulativeFees = md.stateRoot)
    (hcount : batches.flatten.length = metadata.nullifierCount) :
    Survives codec c pp metadata batches ↔
      (md.frontier.size = 0 → md.frontier.leaf = none ∧ md.frontier.ommers = []) ∧
        (md.nullifierMuhash.finalize ≠ MuHash.EMPTY_MUHASH P → md.nullifierMuhash.denominator = 1) := by
  have hrecompute : recomputeStateRoot md.frontier md.supply md.nullifierMuhash = some md.stateRoot := by
    rw [recomputeStateRoot_of_ok htree, hroot]
  have hverify := verifyPruningPointShielded_eq_ok.mpr ⟨hacc, hrecompute, rfl⟩
  rw [← seedStores_isSome_iff c.shielded pp batches.flatten htree]
  cases hs : c.shielded.seedStores pp md batches.flatten with
  | none =>
    have hpanic : c.shielded.seedPruningPointShielded codec pp metadata batches.flatten = .error .panic := by
      simp [seedPruningPointShielded, hmd, hverify, hcount, hs]
    constructor
    · intro h
      exact absurd ((import_eq_error hr).mpr hpanic) h.1
    · rintro ⟨-, h⟩
      cases h
  | some s' =>
    have hok := seedPruningPointShielded_eq_ok.mpr ⟨md, hmd, hacc, hrecompute, hcount, hs⟩
    have hnot : ∀ e, c.importPruningPointShielded codec pp metadata batches ≠ .error e := by
      intro e he
      rw [import_eq_error hr, hok] at he
      cases he
    constructor
    · intro h
      refine ⟨?_, rfl⟩
      by_contra hne
      obtain ⟨msg, hmsg⟩ := h.2 md hmd (fun hc => hne hc.2)
      exact hnot _ hmsg
    · rintro ⟨hzero, -⟩
      refine ⟨hnot _, fun md' hmd' hne => ?_⟩
      obtain rfl : md = md' := ok.inj (hmd.symm.trans hmd')
      exact absurd ⟨⟨tree, htree⟩, hzero⟩ hne

end

/-- **Untrusted imports.** An import returns a value or an error, and an error whenever the frontier is
inconsistent, if and only if the declared count can be reserved and, for metadata that decodes and whose
accumulator the stream reproduces, the frontier can be rebuilt and, once state root and count agree too,
is empty when its size is zero and comes with an accumulator that is not a fraction. -/
theorem import_survives_iff (codec : MetadataCodec P) (c : ConsensusStores P) (pp : Hash)
    (metadata : ShieldedExportMetadata codec) (batches : List (List NullifierBytes)) :
    Survives codec c pp metadata batches ↔
      metadata.nullifierCount * 32 ≤ ISIZE_MAX ∧
        ∀ md, codec.fromWireBytes metadata.data = .ok md →
          (MuHash.ofList batches.flatten : MuHash P).finalize = md.nullifierMuhash.finalize →
          ∃ tree : GlobalTree P, fromState md.frontier = .ok tree ∧
            (P.shieldedStateRoot tree.anchor md.nullifierMuhash.finalize md.supply.cumulativeCoinbase
                md.supply.cumulativeFees = md.stateRoot →
              batches.flatten.length = metadata.nullifierCount →
              (md.frontier.size = 0 → md.frontier.leaf = none ∧ md.frontier.ommers = []) ∧
                (md.nullifierMuhash.finalize ≠ MuHash.EMPTY_MUHASH P → md.nullifierMuhash.denominator = 1)) := by
  by_cases hr : metadata.nullifierCount * 32 ≤ ISIZE_MAX
  · rw [and_iff_right hr]
    cases hmd : codec.fromWireBytes metadata.data with
    | error msg =>
      refine ⟨fun _ md h => (by cases h), fun _ => survives_of_err hr ?_⟩
      simp only [seedPruningPointShielded, hmd]
      exact ⟨_, rfl⟩
    | ok md =>
      simp only [ok.injEq, forall_eq']
      by_cases hacc : (MuHash.ofList batches.flatten : MuHash P).finalize = md.nullifierMuhash.finalize
      · rw [forall_prop_of_true hacc]
        cases htree : (fromState md.frontier : Except _ (GlobalTree P)) with
        | error e =>
          -- the accumulator agrees, so the frontier is rebuilt under an expect
          have hpanic : c.shielded.seedPruningPointShielded codec pp metadata batches.flatten = .error .panic := by
            simp [seedPruningPointShielded, hmd, verifyPruningPointShielded, hacc,
              recomputeStateRoot_of_error htree]
          refine ⟨fun h => absurd ((import_eq_error hr).mpr hpanic) h.1, ?_⟩
          rintro ⟨tree, h, -⟩
          cases h
        | ok tree =>
          simp only [ok.injEq, exists_eq_left']
          have hrecompute := recomputeStateRoot_of_ok htree md.supply md.nullifierMuhash
          by_cases hroot : P.shieldedStateRoot tree.anchor md.nullifierMuhash.finalize md.supply.cumulativeCoinbase
              md.supply.cumulativeFees = md.stateRoot
          · rw [forall_prop_of_true hroot]
            by_cases hcount : batches.flatten.length = metadata.nullifierCount
            · rw [forall_prop_of_true hcount]
              exact survives_of_verified hr hmd hacc htree hroot hcount
            · refine ⟨fun _ h => absurd h hcount, fun _ => survives_of_err hr ?_⟩
              have hverify := verifyPruningPointShielded_eq_ok.mpr
                ⟨hacc, hrecompute.trans (congrArg some hroot), rfl⟩
              simp only [seedPruningPointShielded, hmd, hverify, ne_eq, hcount, not_false_eq_true, if_true]
              exact ⟨_, rfl⟩
          · refine ⟨fun _ h => absurd h hroot, fun _ => survives_of_err hr ?_⟩
            simp only [seedPruningPointShielded, hmd, verifyPruningPointShielded, hacc, ne_eq,
              not_true_eq_false, if_false, hrecompute, hroot, not_false_eq_true, if_true]
            exact ⟨_, rfl⟩
      · refine ⟨fun _ h => absurd h hacc, fun _ => survives_of_err hr ?_⟩
        simp only [seedPruningPointShielded, hmd, verifyPruningPointShielded, ne_eq, hacc,
          not_false_eq_true, if_true]
        exact ⟨_, rfl⟩
  · refine ⟨fun h => absurd ?_ h.1, fun h => absurd h.1 hr⟩
    have hreserve : (reserve (metadata.nullifierCount * 32) : Except (Fault String) Unit) = .error .panic := if_neg hr
    unfold importPruningPointShielded
    rw [hreserve]
    rfl

/-- The accumulator of `7`, as `7 · 8 / 8`. -/
def sevenAsFraction : MuHash symbolic :=
  ⟨Multiplicative.ofAdd ({7, 8} : Multiset NullifierBytes), Multiplicative.ofAdd ({8} : Multiset NullifierBytes)⟩

/-- Four imports that do not: `2^58` declared nullifiers; no nullifiers and one leaf that is missing; the
nullifier `7` under the accumulator `7 · 8 / 8`; an empty tree with a leaf, which is taken as it is. -/
theorem untrusted_imports :
    fresh.importPruningPointShielded plainCodec 1 ⟨⟨.default, .new, .new, ([], 0, 0, 0)⟩, 288230376151711744⟩ [] =
        .error .panic ∧
      fresh.importPruningPointShielded plainCodec 1 ⟨⟨⟨1, none, []⟩, .new, .new, ([], 0, 0, 0)⟩, 0⟩ [] = .error .panic ∧
      fresh.importPruningPointShielded plainCodec 1 ⟨⟨.default, .new, sevenAsFraction, ([], {7}, 0, 0)⟩, 1⟩ [[7]] =
        .error .panic ∧
      (fresh.importPruningPointShielded plainCodec 1 ⟨⟨⟨0, some 5, [6]⟩, .new, .new, ([], 0, 0, 0)⟩, 0⟩ []).toOption.map
        (fun c => c.shielded.frontierAt 1) = some ⟨0, some 5, [6]⟩ := by
  refine ⟨panics_iff.mp ?_, panics_iff.mp ?_, panics_iff.mp ?_, ?_⟩
  · decide
  · decide
  · decide
  · decide

end ConsensusStores

end Firecash
