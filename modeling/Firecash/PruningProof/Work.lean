import Firecash.Ghostdag.Total
import Firecash.PruningProof.Validate

/-!
# The work behind the headers of an accepted proof

The level function takes a header without parents for genesis: it has the highest level and passes without a look at
its proof of work. Past the first header of a level such a header is refused, since it names no known
parent, so every header of an accepted proof has its work except possibly the ones that open a level
(`accepted_worked_iff`). Nothing compares those with genesis when the level has `2M` blues
(`unminedRoot_accepted`).
-/

namespace Firecash

open List Option Except

variable {Q : PowPrim} {P : ProofParams}

/-! ## What an accepted header passed -/

section Inversion

variable {level : BlockLevel} {st st' : LevelState Q} {h : ProofHeader Q} {hs : List (ProofHeader Q)} {first : Bool}

theorem unwrap_bind_eq_ok_iff {ε α β : Type} {o : Option α} {f : α → Except (Fault ε) β} {b : β} :
    (unwrap o >>= f) = .ok b ↔ ∃ a, o = some a ∧ f a = .ok b := by
  rw [bind_eq_ok_iff]
  exact exists_congr fun a => and_congr_left fun _ => ofOption_eq_ok_iff

/-- The stores `addHeader` works on: with the header in the headers store. -/
def LevelState.withHeader (st : LevelState Q) (h : ProofHeader Q) : LevelState Q :=
  { st with headers := insertHeader st.headers h }

/-- The parents a header is inserted with. -/
def LevelStores.parentsFor (P : ProofParams) (level : BlockLevel) (S : LevelStores) (h : ProofHeader Q) : List Hash :=
  if (S.knownParents P level h).isEmpty then [ORIGIN] else S.knownParents P level h

theorem addHeader_ok (ok : addHeader P level st h first = .ok st') :
    (∃ headerLevel powPasses, P.levelAndPow h = some (headerLevel, powPasses) ∧ level ≤ headerLevel ∧
      (P.skipProofOfWork = true ∨ powPasses = true)) ∧
    (st.stores.knownParents P level h ≠ [] ∨ first = true) ∧
    checkBlueWork (st.withHeader h).headers level h (st.stores.knownParents P level h) = .ok () ∧
    st.stores.has h.hash = false ∧
    insertBlock P level (st.withHeader h) h (st.stores.parentsFor P level h) = .ok st' := by
  obtain ⟨⟨headerLevel, powPasses⟩, hlevel, ok⟩ := unwrap_bind_eq_ok_iff.mp ok
  obtain ⟨high, ok⟩ := require_bind_eq_ok_iff.mp ok
  obtain ⟨passes, ok⟩ := require_bind_eq_ok_iff.mp ok
  obtain ⟨some, ok⟩ := require_bind_eq_ok_iff.mp ok
  obtain ⟨_, blueWork, ok⟩ := bind_eq_ok_iff.mp ok
  obtain ⟨fresh, ok⟩ := require_bind_eq_ok_iff.mp ok
  exact ⟨⟨headerLevel, powPasses, hlevel, high, passes⟩, some, blueWork, fresh, ok⟩

theorem addHeaders_cons_ok :
    addHeaders P level st (h :: hs) first = .ok st' ↔ ∃ st₁, addHeader P level st h first = .ok st₁ ∧
      addHeaders P level st₁ hs false = .ok st' :=
  bind_eq_ok_iff

/-- Every header after the first was added as one that is not the first. -/
theorem addHeaders_mem (ok : addHeaders P level st hs false = .ok st') (hh : h ∈ hs) :
    ∃ st₁ st₂, addHeader P level st₁ h false = .ok st₂ := by
  induction hs generalizing st with
  | nil => cases hh
  | cons h' hs ih =>
    obtain ⟨st₁, first, rest⟩ := addHeaders_cons_ok.mp ok
    rcases mem_cons.mp hh with rfl | hh
    · exact ⟨st, st₁, first⟩
    · exact ih rest hh

variable {exiting : BlockLevel → Bool} {pp : ProofHeader Q} {ppLevel : BlockLevel} {headers : List (ProofHeader Q)}
  {above done ctxs : List LevelContext} {proofLevel : List (ProofHeader Q)} {levels : List (List (ProofHeader Q))}

theorem processLevel_ok {r : List (ProofHeader Q) × LevelContext}
    (ok : processLevel P pp ppLevel level above headers proofLevel = .ok r) :
    ∃ root rest st, proofLevel = root :: rest ∧ addHeaders P level ⟨headers, .init, root.hash⟩ proofLevel true =
      .ok st ∧
      r.1 = st.headers ∧ r.2.stores = st.stores ∧ r.2.selectedTip = st.selectedTip := by
  obtain ⟨root, hroot, ok⟩ := bind_eq_ok_iff.mp ok
  obtain ⟨rest, rfl⟩ := head?_eq_some_iff.mp (ofOption_eq_ok_iff.mp hroot)
  obtain ⟨st, hst, ok⟩ := bind_eq_ok_iff.mp ok
  obtain ⟨last, -, ok⟩ := unwrap_bind_eq_ok_iff.mp ok
  obtain ⟨ctx, hctx, ok⟩ := bind_eq_ok_iff.mp ok
  obtain rfl := pure_eq_ok_iff.mp ok
  obtain ⟨_, -, hctx⟩ := bind_eq_ok_iff.mp hctx
  obtain ⟨_, -, hctx⟩ := bind_eq_ok_iff.mp hctx
  obtain ⟨-, hctx⟩ := require_bind_eq_ok_iff.mp hctx
  obtain ⟨tip, -, hctx⟩ := unwrap_bind_eq_ok_iff.mp hctx
  obtain ⟨-, hctx⟩ := require_bind_eq_ok_iff.mp hctx
  obtain rfl := pure_eq_ok_iff.mp hctx
  exact ⟨root, rest, st, rfl, hst, rfl, rfl, rfl⟩

theorem processLevels_cons_ok {proofLevel : List (ProofHeader Q)} {below : List (List (ProofHeader Q))}
    (ok : processLevels P exiting pp ppLevel (proofLevel :: below) headers done = .ok (some ctxs)) :
    ∃ r, processLevel P pp ppLevel (UInt8.ofNat below.length) done headers proofLevel = .ok r ∧
      processLevels P exiting pp ppLevel below r.1 (r.2 :: done) = .ok (some ctxs) := by
  unfold processLevels at ok
  dsimp only at ok
  split at ok
  · cases ok
  · obtain ⟨⟨headers', ctx⟩, hctx, ok⟩ := bind_eq_ok_iff.mp ok
    exact ⟨(headers', ctx), hctx, ok⟩

theorem processLevels_append (ok : processLevels P exiting pp ppLevel levels headers done = .ok (some ctxs)) :
    ∃ new, ctxs = new ++ done ∧ new.length = levels.length := by
  induction levels generalizing headers done with
  | nil =>
    obtain rfl := Option.some.inj (Except.ok.inj ok)
    exact ⟨[], rfl, rfl⟩
  | cons l ls ih =>
    obtain ⟨r, -, ok⟩ := processLevels_cons_ok ok
    obtain ⟨new, rfl, length⟩ := ih ok
    exact ⟨new ++ [r.2], by simp, by simp [length]⟩

/-- Every level was processed, and its context is where its number says. -/
theorem processLevels_level {pre below : List (List (ProofHeader Q))}
    (ok : processLevels P exiting pp ppLevel (pre ++ proofLevel :: below) headers done = .ok (some ctxs)) :
    ∃ above headers r, processLevel P pp ppLevel (UInt8.ofNat below.length) above headers proofLevel = .ok r ∧
      ctxs[below.length]? = some r.2 := by
  induction pre generalizing headers done with
  | nil =>
    obtain ⟨r, hr, ok⟩ := processLevels_cons_ok ok
    obtain ⟨new, rfl, length⟩ := processLevels_append ok
    exact ⟨done, headers, r, hr, by simp [← length]⟩
  | cons l pre ih =>
    obtain ⟨r, -, ok⟩ := processLevels_cons_ok ok
    exact ih ok

end Inversion

/-! ## Work -/

/-- The header passes the gate against its own bits, and the value that passed gives it the level. -/
def ProofParams.Worked (P : ProofParams) (level : Nat) (h : ProofHeader Q) : Prop :=
  ∃ pow, h.header.checkPowGated h.auxPow (P.mergedMiningActivation ≤ h.header.daaScore) = some (true, pow) ∧
    level ≤ (calcLevelFromPow pow P.maxBlockLevel).toNat

section Worked

variable {level : BlockLevel} {st st' : LevelState Q} {h : ProofHeader Q} {first : Bool}

/-- A header with parents was not taken for genesis. -/
theorem worked_of_parents (gate : P.skipProofOfWork = false) (parents : h.header.parentsByLevel.runs ≠ [])
    (ok : addHeader P level st h first = .ok st') : P.Worked level.toNat h := by
  obtain ⟨⟨headerLevel, powPasses, hlevel, high, passes⟩, -⟩ := addHeader_ok ok
  have passes : powPasses = true := passes.resolve_left (by rw [gate]; exact Bool.false_ne_true)
  unfold ProofParams.levelAndPow RawHeader.calcBlockLevelCheckPowGated at hlevel
  rw [if_neg (by simpa using parents), gate, if_neg Bool.false_ne_true] at hlevel
  obtain ⟨⟨passed, pow⟩, hpow, same⟩ := map_eq_some_iff.mp hlevel
  cases same
  refine ⟨pow, ?_, UInt8.le_iff_toNat_le.mp high⟩
  rw [hpow, passes]

/-- Without parents a header can only be the first of its level. -/
theorem parents_of_not_first (ok : addHeader P level st h false = .ok st') : h.header.parentsByLevel.runs ≠ [] := by
  intro none
  obtain ⟨-, known, -⟩ := addHeader_ok ok
  refine known.elim (fun known => known ?_) Bool.false_ne_true
  unfold LevelStores.knownParents ProofParams.parentsAtLevel CompressedParents.get
  rw [none]
  rfl

/-- The blocks of a level are headers of the proof, and so is everything they merge. -/
structure ListedBlocks (listed : List (ProofHeader Q)) (st : LevelState Q) : Prop where
  blocks : ∀ e ∈ st.stores.blocks, ∃ h ∈ listed, h.hash = e.hash
  merged : ∀ e ∈ st.stores.blocks, ∀ x ∈ e.data.mergesetBlues ++ e.data.mergesetReds, x = ORIGIN ∨
    ∃ h ∈ listed, h.hash = x

theorem insertBlock_ok {parents : List Hash} (ok : insertBlock P level st h parents = .ok st') :
    ∃ data h' tip I, (st.stores.manager P level st.headers).ghostdag parents = some data ∧
      getHeader st.headers h.hash = some h' ∧
      (tip = st.selectedTip ∨ tip = h.hash) ∧
      st' = ⟨st.headers, ⟨⟨h.hash, parents.eraseDups, h'.header.bits, data⟩ :: st.stores.blocks, I⟩, tip⟩ := by
  obtain ⟨data, hdata, ok⟩ := unwrap_bind_eq_ok_iff.mp ok
  obtain ⟨bits, hbits, ok⟩ := unwrap_bind_eq_ok_iff.mp ok
  obtain ⟨tip, htip, ok⟩ := unwrap_bind_eq_ok_iff.mp ok
  obtain ⟨I, -, ok⟩ := bind_eq_ok_iff.mp ok
  obtain ⟨h', found, rfl⟩ := map_eq_some_iff.mp hbits
  have which : tip = st.selectedTip ∨ tip = h.hash := by simpa using (GhostdagManager.findSelectedParent_mem htip).1
  exact ⟨data, h', tip, I, hdata, found, which, (pure_eq_ok_iff.mp ok).symm⟩

theorem ListedBlocks.step {listed : List (ProofHeader Q)} (inv : ListedBlocks listed st) (hh : h ∈ listed)
    (ok : addHeader P level st h first = .ok st') : ListedBlocks listed st' := by
  obtain ⟨-, -, -, -, ok⟩ := addHeader_ok ok
  obtain ⟨data, h', tip, I, hdata, -, -, rfl⟩ := insertBlock_ok ok
  have stored : ∀ x ∈ data.mergesetBlues ++ data.mergesetReds, x = ORIGIN ∨ ∃ h ∈ listed, h.hash = x := by
    intro x hx
    have known : (st.stores.getData x).isSome := GhostdagManager.mergeset_stored hdata hx
    unfold LevelStores.getData at known
    split at known
    · rename_i origin
      exact .inl origin
    · rw [isSome_map] at known
      obtain ⟨e, found⟩ := isSome_iff_exists.mp known
      obtain ⟨h, hh, same⟩ := inv.blocks e (mem_of_find?_eq_some found)
      have here := find?_some (p := fun e : DagEntry => decide (e.hash = x)) found
      exact .inr ⟨h, hh, same.trans (of_decide_eq_true here)⟩
  exact ⟨forall_mem_cons.mpr ⟨⟨h, hh, rfl⟩, inv.blocks⟩, forall_mem_cons.mpr ⟨stored, inv.merged⟩⟩

theorem ListedBlocks.run {listed hs : List (ProofHeader Q)} (inv : ListedBlocks listed st) (sub : ∀ h ∈ hs, h ∈ listed)
    (ok : addHeaders P level st hs first = .ok st') : ListedBlocks listed st' := by
  induction hs generalizing st first with
  | nil =>
    cases ok
    exact inv
  | cons h hs ih =>
    obtain ⟨st₁, head, rest⟩ := addHeaders_cons_ok.mp ok
    obtain ⟨here, later⟩ := forall_mem_cons.mp sub
    exact ih (inv.step here head) later rest

end Worked

section Accepted

variable {exiting : BlockLevel → Bool} {proof : List (List (ProofHeader Q))} {ctx : ProofContext Q}

theorem fromProof_ok (ok : fromProof P exiting proof = .ok (some ctx)) :
    proof.length = P.maxBlockLevel.toNat + 1 ∧
      ∃ ppLevel, processLevels P exiting ctx.ppHeader ppLevel proof.reverse [] [] = .ok (some ctx.levels) := by
  obtain ⟨length, ok⟩ := require_bind_eq_ok_iff.mp ok
  obtain ⟨pp, -, ok⟩ := bind_eq_ok_iff.mp ok
  obtain ⟨⟨ppLevel, _⟩, -, ok⟩ := unwrap_bind_eq_ok_iff.mp ok
  obtain ⟨levels, hlevels, ok⟩ := bind_eq_ok_iff.mp ok
  obtain ⟨levels, rfl, rfl⟩ := map_eq_some_iff.mp (pure_eq_ok_iff.mp ok)
  exact ⟨length, ppLevel, hlevels⟩

theorem reverse_split {α : Type} {as : List α} {a : α} {i : Nat} (h : as[i]? = some a) :
    as.reverse = (as.drop (i + 1)).reverse ++ a :: (as.take i).reverse ∧ (as.take i).reverse.length = i := by
  obtain ⟨lt, rfl⟩ := List.getElem?_eq_some_iff.mp h
  refine ⟨?_, by rw [length_reverse, length_take]; omega⟩
  conv_lhs => rw [← take_append_drop i as, drop_eq_getElem_cons lt]
  rw [reverse_append, reverse_cons, append_assoc, singleton_append]

/-- Every level of an accepted proof was processed from its first header on. -/
theorem accepted_level (ok : fromProof P exiting proof = .ok (some ctx)) {i : Nat} {hs : List (ProofHeader Q)}
    (level : proof[i]? = some hs) :
    ∃ root rest headers st c, hs = root :: rest ∧ (UInt8.ofNat i).toNat = i ∧ ctx.levels[i]? = some c ∧
      c.stores = st.stores ∧
      addHeaders P (UInt8.ofNat i) ⟨headers, .init, root.hash⟩ hs true = .ok st := by
  obtain ⟨length, ppLevel, ok⟩ := fromProof_ok ok
  obtain ⟨split, below⟩ := reverse_split level
  rw [split] at ok
  obtain ⟨above, headers, r, hr, here⟩ := processLevels_level ok
  rw [below] at hr here
  obtain ⟨root, rest, st, rfl, run, -, stores, -⟩ := processLevel_ok hr
  have small : i < 256 := by
    have := (List.getElem?_eq_some_iff.mp level).1
    have := P.maxBlockLevel.toNat_lt
    omega
  exact ⟨root, rest, headers, st, r.2, rfl, UInt8.toNat_ofNat_of_lt' small, here, stores, run⟩

/-- Every header but genesis has its work, and the blue blocks of a level are such headers. -/
structure AllWorked (P : ProofParams) (proof : List (List (ProofHeader Q))) (ctx : ProofContext Q) : Prop where
  headers : ∀ level hs, proof[level]? = some hs → ∀ h ∈ hs, h.hash ≠ P.genesisHash → P.Worked level h
  counted : ∀ level c, ctx.levels[level]? = some c → ∀ e ∈ c.stores.blocks, ∀ x ∈ e.data.mergesetBlues, x ≠ ORIGIN →
    x ≠ P.genesisHash →
    ∃ hs, proof[level]? = some hs ∧ ∃ h ∈ hs, h.hash = x ∧ P.Worked level h

/-- **The work behind an accepted proof.** All of it is there exactly if it is there for the first headers
without parents. -/
theorem accepted_worked_iff (gate : P.skipProofOfWork = false) (ok : fromProof P exiting proof = .ok (some ctx)) :
    AllWorked P proof ctx ↔ ∀ level root rest, proof[level]? = some (root :: rest) →
      root.header.parentsByLevel.runs = [] →
      root.hash ≠ P.genesisHash → P.Worked level root := by
  constructor
  · intro all level root rest here _ other
    exact all.headers level _ here root mem_cons_self other
  · intro roots
    have worked : ∀ level hs, proof[level]? = some hs → ∀ h ∈ hs, h.hash ≠ P.genesisHash → P.Worked level h := by
      intro level hs here h hh other
      obtain ⟨root, rest, headers, st, c, rfl, number, -, -, run⟩ := accepted_level ok here
      obtain ⟨st₁, head, tail⟩ := addHeaders_cons_ok.mp run
      rw [← number]
      rcases mem_cons.mp hh with rfl | hh
      · by_cases parents : h.header.parentsByLevel.runs = []
        · rw [number]
          exact roots level h rest here parents other
        · exact worked_of_parents gate parents head
      · obtain ⟨st₂, st₃, later⟩ := addHeaders_mem tail hh
        exact worked_of_parents gate (parents_of_not_first later) later
    refine ⟨worked, fun level c hc e he x hx origin genesis => ?_⟩
    have bound : level < proof.length := by
      obtain ⟨-, ppLevel, run⟩ := fromProof_ok ok
      obtain ⟨new, same, length⟩ := processLevels_append run
      have := (List.getElem?_eq_some_iff.mp hc).1
      rw [same, append_nil, length, length_reverse] at this
      exact this
    have here : proof[level]? = some proof[level] := getElem?_eq_getElem bound
    obtain ⟨root, rest, headers, st, c', same, -, hc', stores, run⟩ := accepted_level ok here
    obtain rfl := some.inj (hc.symm.trans hc')
    have listed : ListedBlocks proof[level] st := by
      refine ListedBlocks.run ⟨?_, ?_⟩ (fun _ h => h) run
      · exact nofun
      · exact nofun
    rw [stores] at he
    obtain ⟨h, hh, rfl⟩ := (listed.merged e he x (mem_append_left _ hx)).resolve_left origin
    exact ⟨_, here, h, hh, rfl, worked level _ here h hh genesis⟩

end Accepted

/-! ## A header nobody mined -/

/-- A hash whose proof of work is `nonce * 2^192`. -/
def highNoncePow : PowPrim := { noncePow with powHash := fun _ _ nonce => BitVec.ofNat 256 nonce.toNat <<< 192 }

/-- A header with target `0xffff << 208`. -/
def smallHeader (hash : Hash) (parents : List Hash) (nonce : UInt64) (blueWork : BlueWork) :
    ProofHeader highNoncePow where
  header :=
    { hash := hash
      version := 1
      parentsByLevel := ⟨if parents.isEmpty then [] else [(1, parents)]⟩
      hashMerkleRoot := 0
      acceptedIdMerkleRoot := 0
      utxoCommitment := 0
      timestamp := 0
      bits := 0x1d00ffff
      nonce := nonce
      daaScore := 0
      blueWork := blueWork
      blueScore := 0
      pruningPoint := 0 }
  auxPow := none

/-- One level, `M = 1`, genesis is block 99. -/
def smallParams : ProofParams where
  maxBlockLevel := 0
  genesisHash := 99
  pruningProofM := 1
  ghostdagK := 1
  skipProofOfWork := false
  mergedMiningActivation := 0
  reindexShare _ _ _ := 0

/-- A chain of three headers; the first has no parents and the given nonce. -/
def threeHeaders (nonce : UInt64) : List (List (ProofHeader highNoncePow)) :=
  [[smallHeader 1 [] nonce 0, smallHeader 2 [1] 0 1, smallHeader 3 [2] 0 2]]

theorem exists_accepted {proof : List (List (ProofHeader Q))}
    (h : ((fromProof P (fun _ => false) proof).toOption.join).isSome = true) :
    ∃ ctx, fromProof P (fun _ => false) proof = .ok (some ctx) := by
  obtain ⟨ctx, hctx⟩ := isSome_iff_exists.mp h
  obtain hctx := join_eq_some_iff.mp hctx
  exact ⟨ctx, toOption_eq_some_iff.mp hctx⟩

theorem threeHeaders_worked : ∃ ctx, fromProof smallParams (fun _ => false) (threeHeaders 5) = .ok (some ctx) ∧
    AllWorked smallParams (threeHeaders 5) ctx := by
  obtain ⟨ctx, ok⟩ : ∃ ctx, fromProof smallParams (fun _ => false) (threeHeaders 5) = .ok (some ctx) :=
    exists_accepted (by decide +kernel)
  refine ⟨ctx, ok, (accepted_worked_iff rfl ok).mpr fun level root rest here _ _ => ?_⟩
  cases level with
  | zero =>
    obtain ⟨rfl, rfl⟩ := cons.inj (some.inj here)
    exact ⟨BitVec.ofNat 256 5 <<< 192, by decide +kernel, Nat.zero_le _⟩
  | succ level => cases here

/-- The first header has proof of work `2^225`, above its target, and is not genesis. -/
theorem unminedRoot_accepted :
    (∃ ctx, fromProof smallParams (fun _ => false) (threeHeaders 0x200000000) = .ok (some ctx) ∧
      (ctx.levels.map fun c => c.blueScore) = [some 2] ∧ ctx.levels.all fun c => c.stores.blocks.any fun e =>
        1 ∈ e.data.mergesetBlues) ∧
    smallParams.skipProofOfWork = false ∧
    ∃ h ∈ (threeHeaders 0x200000000).flatten, h.hash = 1 ∧ h.hash ≠ smallParams.genesisHash ∧
      ¬ smallParams.Worked 0 h := by
  have counted : (fromProof smallParams (fun _ => false) (threeHeaders 0x200000000)).toOption.join.any fun ctx =>
      decide ((ctx.levels.map fun c => c.blueScore) = [some 2] ∧
        ctx.levels.all fun c => c.stores.blocks.any fun e => 1 ∈ e.data.mergesetBlues) := by decide +kernel
  obtain ⟨ctx, hctx, counted⟩ := any_eq_true _ _ |>.mp counted
  obtain ⟨score, blue⟩ := of_decide_eq_true counted
  refine ⟨⟨ctx, toOption_eq_some_iff.mp (join_eq_some_iff.mp hctx), score, blue⟩, rfl, ?_⟩
  refine ⟨_, mem_cons_self, rfl, by decide, ?_⟩
  rintro ⟨pow, passed, -⟩
  have failed : (RawHeader.checkPowGated (smallHeader 1 [] 0x200000000 0).header
      (smallHeader 1 [] 0x200000000 0).auxPow true).all fun r => !r.1 := by decide +kernel
  rw [show (decide (smallParams.mergedMiningActivation ≤ _)) = true from rfl] at passed
  rw [passed] at failed
  cases failed

end Firecash
