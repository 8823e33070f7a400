import Firecash.PruningProof.Stores

/-!
# Comparing two proofs

A challenger is compared with the defender at the lowest level where it has `2M` blues and its selected
chain meets the defender's blocks; if there is no such level, it wins against genesis, or by a level with
`2M` blues that the defender lacks. `compareProofsInner_eq` says when it wins. The meeting points of the
two directions can differ, and without one each of two proofs can have a level that the other lacks, so
both can win (`both_supersede`); `supersede_once_iff` is when they do not.
-/

namespace Firecash

open List Option Except LevelContext

variable {Q : PowPrim} {P : ProofParams}

/-- The level has `2M` blues. -/
def LevelContext.full (P : ProofParams) (c : LevelContext) : Bool := decide (2 * P.pruningProofM ≤ c.blueScore.getD 0)

/-- The lowest level at which the challenger is full and meets the defender, with the block where they meet. -/
def meeting (P : ProofParams) : List (LevelContext × LevelContext) → Option ((LevelContext × LevelContext) × Hash)
  | [] => none
  | (challenger, defender) :: rest =>
    match challenger.full P, (challenger.findCommonAncestor defender).join with
    | true, some ancestor => some ((challenger, defender), ancestor)
    | _, _ => meeting P rest

/-- Work since the ancestor, with that of the pruning period. -/
def LevelContext.workSince (c : LevelContext) (ancestor : Hash) (periodWork : BlueWork) : BlueWork :=
  saturatingAdd ((c.blueWorkDiff ancestor).getD 0) periodWork

/-- The work claimed from the pruning point to the relay block. -/
def ProofContext.periodWork (ctx : ProofContext Q) (relayBlueWork : BlueWork) : BlueWork :=
  saturatingSub relayBlueWork ctx.ppHeader.header.blueWork

/-- A level with `2M` blues that the defender lacks. -/
def hasBetterLevel (P : ProofParams) (pairs : List (LevelContext × LevelContext)) : Bool :=
  pairs.any fun pair => pair.1.full P && !pair.2.full P

section Compare

variable {pairs : List (LevelContext × LevelContext)} {cWork dWork : BlueWork}

/-- The first loop stops at the meeting point. -/
theorem compareLevels_eq (sound : ∀ pair ∈ pairs, pair.1.Sound ∧ pair.2.Sound) :
    compareLevels P cWork dWork pairs = some ((meeting P pairs).map fun m =>
      if m.1.2.workSince m.2 dWork < m.1.1.workSince m.2 cWork then .ok () else .error .insufficientBlueWork) := by
  induction pairs with
  | nil => rfl
  | cons pair rest ih =>
    obtain ⟨challenger, defender⟩ := pair
    obtain ⟨⟨soundC, soundD⟩, later⟩ := forall_mem_cons.mp sound
    obtain ⟨score, hscore⟩ := soundC.blueScore
    unfold compareLevels meeting full
    rw [hscore]
    show (if score < 2 * P.pruningProofM then _ else _) = _
    rw [getD_some]
    split
    · rw [decide_eq_false (by omega)]
      exact ih later
    · rw [decide_eq_true (by omega)]
      rcases soundC.findCommonAncestor defender with none | ⟨x, found, hasC, hasD⟩
      · rw [none]
        exact ih later
      · obtain ⟨dDiff, hd⟩ := soundD.blueWorkDiff hasD
        obtain ⟨cDiff, hc⟩ := soundC.blueWorkDiff hasC
        rw [found]
        show ((defender.blueWorkDiff x).bind fun _ => (challenger.blueWorkDiff x).bind fun _ => _) = _
        unfold workSince
        dsimp only [join_some, map_some]
        rw [hd, hc]
        show (if saturatingAdd dDiff dWork ≥ saturatingAdd cDiff cWork then _ else _) = _
        by_cases less : saturatingAdd dDiff dWork < saturatingAdd cDiff cWork
        · rw [if_neg (BitVec.not_le.mpr less), getD_some, getD_some, if_pos less]
          rfl
        · rw [if_pos (BitVec.not_lt.mp less), getD_some, getD_some, if_neg less]
          rfl

theorem betterLevel_eq (sound : ∀ pair ∈ pairs, pair.1.Sound ∧ pair.2.Sound) :
    betterLevel P pairs = some (hasBetterLevel P pairs) := by
  induction pairs with
  | nil => rfl
  | cons pair rest ih =>
    obtain ⟨challenger, defender⟩ := pair
    obtain ⟨⟨soundC, soundD⟩, later⟩ := forall_mem_cons.mp sound
    obtain ⟨c, hc⟩ := soundC.blueScore
    obtain ⟨d, hd⟩ := soundD.blueScore
    unfold betterLevel hasBetterLevel
    rw [any_cons, ← hasBetterLevel]
    unfold full
    rw [hc, hd]
    show (if c < 2 * P.pruningProofM then betterLevel P rest
      else if d < 2 * P.pruningProofM then some true else betterLevel P rest) = _
    rw [ih later]
    by_cases shortC : c < 2 * P.pruningProofM
    · simp [shortC, Nat.not_le.mpr shortC]
    · by_cases shortD : d < 2 * P.pruningProofM
      · simp [shortC, shortD, Nat.not_lt.mp shortC]
      · simp [shortC, shortD, Nat.not_lt.mp shortD]

/-- **When a challenger wins.** Otherwise it is refused with an error. -/
theorem compareProofsInner_eq {defender challenger : ProofContext Q} (soundD : ∀ c ∈ defender.levels, c.Sound)
    (soundC : ∀ c ∈ challenger.levels, c.Sound) (d c : BlueWork) :
    compareProofsInner P defender challenger d c =
      match meeting P (challenger.levels.zip defender.levels) with
      | some ((lc, ld), x) =>
        require (ld.workSince x (defender.periodWork d) < lc.workSince x (challenger.periodWork c))
          (.err .insufficientBlueWork)
      | none => require (defender.ppHeader.hash = P.genesisHash ∨
        hasBetterLevel P (challenger.levels.zip defender.levels) = true)
          (.err .notEnoughHeaders) := by
  have sound : ∀ pair ∈ challenger.levels.zip defender.levels, pair.1.Sound ∧ pair.2.Sound := fun pair hp =>
    ⟨soundC _ (of_mem_zip hp).1, soundD _ (of_mem_zip hp).2⟩
  have soundRev : ∀ pair ∈ (challenger.levels.zip defender.levels).reverse, pair.1.Sound ∧ pair.2.Sound :=
    fun pair hp => sound pair (mem_reverse.mp hp)
  have reversed : hasBetterLevel P (challenger.levels.zip defender.levels).reverse =
      hasBetterLevel P (challenger.levels.zip defender.levels) :=
    any_reverse ..
  unfold compareProofsInner
  dsimp only
  rw [compareLevels_eq sound, betterLevel_eq soundRev, reversed]
  cases meeting P (challenger.levels.zip defender.levels) with
  | some m =>
    show (if _ then _ else _ : Except PruningImportError Unit).mapError _ = _
    split
    · exact (if_pos ‹_›).symm
    · exact (if_neg ‹_›).symm
  | none =>
    show (if defender.ppHeader.hash = P.genesisHash then pure () else require (_ = true) _) = _
    split
    · exact (if_pos (.inl ‹_›)).symm
    · simp only [‹¬ _›, false_or]

end Compare

/-! ## Both directions -/

/-- The comparison of `A` with `B` and that of `B` with `A` cannot both favour the challenger. -/
def Settled (P : ProofParams) (A B : ProofContext Q) (a b : BlueWork) : Prop :=
  match meeting P (B.levels.zip A.levels), meeting P (A.levels.zip B.levels) with
  -- both meet: not both are heavier, each since its own meeting point
  | some ((lb, la), x), some ((la', lb'), y) =>
    la.workSince x (A.periodWork a) < lb.workSince x (B.periodWork b) → la'.workSince y (A.periodWork a) ≤
      lb'.workSince y (B.periodWork b)
  -- only one meets and is heavier: the other has neither genesis before it nor a better level
  | some ((lb, la), x), none =>
    la.workSince x (A.periodWork a) < lb.workSince x (B.periodWork b) →
      B.ppHeader.hash ≠ P.genesisHash ∧ hasBetterLevel P (A.levels.zip B.levels) = false
  | none, some ((la, lb), y) =>
    lb.workSince y (B.periodWork b) < la.workSince y (A.periodWork a) →
      A.ppHeader.hash ≠ P.genesisHash ∧ hasBetterLevel P (B.levels.zip A.levels) = false
  -- none meets: one of the two is past genesis and full wherever the other is
  | none, none =>
    (A.ppHeader.hash ≠ P.genesisHash ∧ hasBetterLevel P (B.levels.zip A.levels) = false) ∨
      (B.ppHeader.hash ≠ P.genesisHash ∧ hasBetterLevel P (A.levels.zip B.levels) = false)

section Both

variable {exitingA exitingB : BlockLevel → Bool} {proofA proofB : List (List (ProofHeader Q))} {A B : ProofContext Q}

/-- **At most one of two proofs supersedes the other** exactly if they are settled. -/
theorem supersede_once_iff (hA : fromProof P exitingA proofA = .ok (some A))
    (hB : fromProof P exitingB proofB = .ok (some B)) (a b : BlueWork) :
    (compareProofsInner P A B a b = .ok () → compareProofsInner P B A b a ≠ .ok ()) ↔ Settled P A B a b := by
  have soundA := accepted_sound hA
  have soundB := accepted_sound hB
  rw [compareProofsInner_eq soundA soundB, compareProofsInner_eq soundB soundA]
  unfold Settled
  rcases meeting P (B.levels.zip A.levels) with _ | m <;> rcases meeting P (A.levels.zip B.levels) with _ | n <;>
    simp only [ne_eq, require_eq_ok_iff]
  · rw [← Bool.not_eq_true, ← not_or, ← Bool.not_eq_true, ← not_or]
    exact imp_iff_not_or
  · rw [← Bool.not_eq_true, ← not_or]
    exact ⟨fun h lt other => h other lt, fun h other lt => h lt other⟩
  · exact imp_congr_right fun _ => by rw [not_or, Bool.not_eq_true]
  · exact imp_congr_right fun _ => BitVec.not_lt

end Both

/-! ## Concrete proofs -/

instance (A B : ProofContext Q) (a b : BlueWork) : Decidable (Settled P A B a b) := by
  unfold Settled
  split <;> infer_instance

/-- Two proofs that are accepted and pass a test. -/
theorem exists_accepted_pair {proofA proofB : List (List (ProofHeader Q))}
    {test : ProofContext Q → ProofContext Q → Bool}
    (h : ((fromProof P (fun _ => false) proofA).toOption.join.any fun A =>
      (fromProof P (fun _ => false) proofB).toOption.join.any fun B => test A B) = true) :
    ∃ A B, fromProof P (fun _ => false) proofA = .ok (some A) ∧ fromProof P (fun _ => false) proofB = .ok (some B) ∧
      test A B = true := by
  obtain ⟨A, hA, h⟩ := (any_eq_true _ _).mp h
  obtain ⟨B, hB, h⟩ := (any_eq_true _ _).mp h
  exact ⟨A, B, toOption_eq_some_iff.mp (join_eq_some_iff.mp hA),
    toOption_eq_some_iff.mp (join_eq_some_iff.mp hB), h⟩

/-- A fork of the chain of three headers, with a heavier tip. -/
def forkedHeaders : List (List (ProofHeader highNoncePow)) :=
  [[smallHeader 1 [] 5 0, smallHeader 2 [1] 0 1, smallHeader 4 [2] 0 2, smallHeader 5 [4] 0 3]]

theorem forkedHeaders_supersede_once :
    ∃ A B, fromProof smallParams (fun _ => false) (threeHeaders 5) = .ok (some A) ∧
      fromProof smallParams (fun _ => false) forkedHeaders = .ok (some B) ∧
      compareProofsInner smallParams A B 2 3 = .ok () ∧ compareProofsInner smallParams B A 3 2 ≠ .ok () := by
  obtain ⟨A, B, hA, hB, h⟩ : ∃ A B, fromProof smallParams (fun _ => false) (threeHeaders 5) = .ok (some A) ∧
      fromProof smallParams (fun _ => false) forkedHeaders = .ok (some B) ∧
      decide (Settled smallParams A B 2 3 ∧ (compareProofsInner smallParams A B 2 3).toOption.isSome) = true :=
    exists_accepted_pair (by decide +kernel)
  obtain ⟨settled, wins⟩ := of_decide_eq_true h
  obtain ⟨u, wins⟩ := isSome_iff_exists.mp wins
  replace wins : compareProofsInner smallParams A B 2 3 = .ok () := toOption_eq_some_iff.mp wins
  exact ⟨A, B, hA, hB, wins, (supersede_once_iff hA hB 2 3).mpr settled wins⟩

/-- A header of level 1 with parents at both levels. -/
def twoLevelHeader (hash : Hash) (parents levelParents : List Hash) (blueWork : BlueWork) : ProofHeader highNoncePow :=
  let h := smallHeader hash parents 0 blueWork
  let runs := if parents = levelParents then [(2, parents)] else [(1, parents), (2, levelParents)]
  { h with header := { h.header with parentsByLevel := ⟨runs⟩ } }

/-- Two levels and `M = 3`. -/
def twoLevelParams : ProofParams := { smallParams with maxBlockLevel := 1, pruningProofM := 3 }

/-- Full at level 0, rooted at genesis and not full at level 1. -/
def lowProof : List (List (ProofHeader highNoncePow)) :=
  let h₁ := twoLevelHeader 11 [77] [99] 1
  let h₂ := twoLevelHeader 12 [11] [11] 2
  let h₃ := twoLevelHeader 13 [12] [12] 3
  let h₄ := twoLevelHeader 14 [13] [13] 4
  let pp := twoLevelHeader 17 [16] [14] 7
  [[h₁, h₂, h₃, h₄, twoLevelHeader 15 [14] [14] 5, twoLevelHeader 16 [15] [14] 6, pp],
    [smallHeader 99 [] 0 0, h₁, h₂, h₃, h₄, pp]]

/-- Full at level 1, rooted at genesis and not full at level 0. -/
def highProof : List (List (ProofHeader highNoncePow)) :=
  let h₂ := twoLevelHeader 22 [99] [21] 2
  let pp := twoLevelHeader 26 [22] [25] 6
  [[smallHeader 99 [] 0 0, h₂, pp],
    [twoLevelHeader 20 [78] [78] 0, twoLevelHeader 21 [20] [20] 1, h₂, twoLevelHeader 23 [22] [22] 3,
      twoLevelHeader 24 [23] [23] 4, twoLevelHeader 25 [24] [24] 5, pp]]

/-- Each of the two proofs has a level that the other lacks. -/
theorem both_supersede :
    ∃ A B, fromProof twoLevelParams (fun _ => false) lowProof = .ok (some A) ∧
      fromProof twoLevelParams (fun _ => false) highProof = .ok (some B) ∧
      compareProofsInner twoLevelParams A B 100 100 = .ok () ∧
        compareProofsInner twoLevelParams B A 100 100 = .ok () := by
  obtain ⟨A, B, hA, hB, h⟩ : ∃ A B, fromProof twoLevelParams (fun _ => false) lowProof = .ok (some A) ∧
      fromProof twoLevelParams (fun _ => false) highProof = .ok (some B) ∧
      ((compareProofsInner twoLevelParams A B 100 100).toOption.isSome &&
        (compareProofsInner twoLevelParams B A 100 100).toOption.isSome) = true :=
    exists_accepted_pair (by decide +kernel)
  obtain ⟨winsB, winsA⟩ := Bool.and_eq_true_iff.mp h
  obtain ⟨_, winsB⟩ := isSome_iff_exists.mp winsB
  obtain ⟨_, winsA⟩ := isSome_iff_exists.mp winsA
  exact ⟨A, B, hA, hB, toOption_eq_some_iff.mp winsB, toOption_eq_some_iff.mp winsA⟩

end Firecash
