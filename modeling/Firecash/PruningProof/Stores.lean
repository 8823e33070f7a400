import Firecash.PruningProof.Work

/-!
# The level stores of a run

What every header that is added keeps: the blocks of a level hang below each other by their selected
parents down to `ORIGIN`, each of them has a header, and the selected tip is one of them. The walks down a
selected chain, `block_at_depth` and `find_common_ancestor`, therefore end.
-/

namespace Firecash

open List Option GhostdagManager LevelStores

variable {Q : PowPrim} {P : ProofParams}

/-! ## Selected chains -/

/-- Each block is new, and its selected parent is an older block or `ORIGIN`. -/
def Chained : List DagEntry → Prop
  | [] => True
  | e :: es => e.hash ≠ ORIGIN ∧ (∀ f ∈ es, f.hash ≠ e.hash) ∧
      (e.data.selectedParent = ORIGIN ∨ ∃ f ∈ es, f.hash = e.data.selectedParent) ∧ Chained es

namespace LevelStores

variable {S : LevelStores} {e : DagEntry} {x : Hash}

theorem get_isSome_iff : (S.get x).isSome ↔ ∃ e ∈ S.blocks, e.hash = x := by
  unfold get
  rw [find?_isSome]
  exact exists_congr fun e => and_congr_right fun _ => decide_eq_true_iff

theorem has_iff : S.has x = true ↔ x = ORIGIN ∨ ∃ e ∈ S.blocks, e.hash = x := by
  unfold has
  rw [Bool.or_eq_true, decide_eq_true_iff, get_isSome_iff]

end LevelStores

variable {es : List DagEntry} {e : DagEntry}

theorem Chained.ne_origin (chained : Chained es) (he : e ∈ es) : e.hash ≠ ORIGIN := by
  induction es with
  | nil => cases he
  | cons f es ih =>
    obtain ⟨notOrigin, -, -, older⟩ := chained
    rcases mem_cons.mp he with rfl | he
    · exact notOrigin
    · exact ih older he

theorem Chained.find (chained : Chained es) (he : e ∈ es) :
    es.find? (fun f => decide (f.hash = e.hash)) = some e := by
  induction es with
  | nil => cases he
  | cons f es ih =>
    obtain ⟨-, new, -, older⟩ := chained
    rcases mem_cons.mp he with rfl | he
    · exact find?_cons_of_pos (decide_eq_true rfl)
    · rw [find?_cons_of_neg (by simpa using fun h => new e he h.symm)]
      exact ih older he

variable {S : LevelStores}

theorem Chained.getData (chained : Chained S.blocks) (he : e ∈ S.blocks) :
    S.getData e.hash = some e.data := by
  unfold LevelStores.getData LevelStores.get
  rw [if_neg (chained.ne_origin he), chained.find he]
  rfl

/-- Induction along a selected chain, for loops with as much fuel as there are blocks. -/
theorem Chained.walk (chained : Chained es) {motive : Nat → DagEntry → Prop}
    (root : ∀ e ∈ es, e.data.selectedParent = ORIGIN → ∀ fuel, motive fuel e)
    (step : ∀ e ∈ es, ∀ f ∈ es, f.hash = e.data.selectedParent → ∀ fuel, motive fuel f → motive (fuel + 1) e)
    {fuel : Nat} (enough : es.length ≤ fuel + 1) (he : e ∈ es) : motive fuel e := by
  induction es generalizing fuel e with
  | nil => cases he
  | cons f es ih =>
    obtain ⟨-, -, parent, older⟩ := chained
    rw [length_cons] at enough
    have later : ∀ {e fuel}, e ∈ es → es.length ≤ fuel + 1 → motive fuel e := fun he enough =>
      ih older (fun e he => root e (mem_cons_of_mem f he))
        (fun e he g hg => step e (mem_cons_of_mem f he) g (mem_cons_of_mem f hg)) enough he
    rcases mem_cons.mp he with rfl | he
    · rcases parent with origin | ⟨g, hg, same⟩
      · exact root e mem_cons_self origin fuel
      · have some : 0 < es.length := length_pos_of_mem hg
        obtain ⟨fuel, rfl⟩ : ∃ m, fuel = m + 1 := ⟨fuel - 1, by omega⟩
        exact step e mem_cons_self g (mem_cons_of_mem e hg) same fuel (later hg (by omega))
    · exact later he (by omega)

/-- `find_common_ancestor` ends, and what it finds is in both stores. -/
theorem Chained.findCommonAncestor {challenger : LevelContext} (defender : LevelContext)
    (chained : Chained challenger.stores.blocks)
    (he : e ∈ challenger.stores.blocks) (tip : challenger.selectedTip = e.hash) :
    challenger.findCommonAncestor defender = some none ∨
      ∃ f ∈ challenger.stores.blocks, challenger.findCommonAncestor defender = some (some f.hash) ∧
        defender.stores.has f.hash = true := by
  unfold LevelContext.findCommonAncestor
  rw [tip, chained.getData he]
  refine chained.walk (motive := fun fuel e' => challenger.findCommonAncestorFrom defender fuel e'.hash e'.data =
    some none ∨
    ∃ f ∈ challenger.stores.blocks, challenger.findCommonAncestorFrom defender fuel e'.hash e'.data =
      some (some f.hash) ∧
      defender.stores.has f.hash = true) ?_ ?_ (Nat.le_succ _) he
  · intro e' he' origin fuel
    unfold LevelContext.findCommonAncestorFrom
    split
    · rename_i shared
      exact .inr ⟨e', he', rfl, shared⟩
    · exact .inl rfl
  · intro e' he' f hf same fuel ih
    unfold LevelContext.findCommonAncestorFrom
    split
    · rename_i shared
      exact .inr ⟨e', he', rfl, shared⟩
    · rw [← same, if_neg (chained.ne_origin hf), chained.getData hf]
      exact ih

/-! ## One header -/

/-- What holds of the stores while a level is processed. -/
structure StoresInv (st : LevelState Q) : Prop where
  chained : Chained st.stores.blocks
  headers : ∀ e ∈ st.stores.blocks, ∃ h, getHeader st.headers e.hash = some h ∧ h.header.bits = e.bits
  origin : ∀ h ∈ st.headers, h.hash ≠ ORIGIN

section Step

variable {level : BlockLevel} {st st' : LevelState Q} {h : ProofHeader Q} {first : Bool} {x : Hash}
    {headers : List (ProofHeader Q)}

theorem getHeader_mem (found : getHeader headers x = some h) : h ∈ headers ∧ h.hash = x :=
  ⟨mem_of_find?_eq_some found, of_decide_eq_true (find?_some (p := fun h : ProofHeader Q => decide (h.hash = x)) found)⟩

theorem mem_insertHeader {h' : ProofHeader Q} (mem : h' ∈ insertHeader headers h) : h' = h ∨ h' ∈ headers := by
  unfold insertHeader at mem
  split at mem
  · exact .inr mem
  · exact mem_cons.mp mem

theorem getHeader_insertHeader {old : ProofHeader Q} (found : getHeader headers x = some old) :
    getHeader (insertHeader headers h) x = some old := by
  unfold insertHeader
  split
  · exact found
  · rename_i new
    obtain ⟨mem, same⟩ := getHeader_mem found
    unfold getHeader
    rw [find?_cons_of_neg, ← getHeader, found]
    simp only [List.any_eq_true, decide_eq_true_eq, not_exists, not_and] at new
    simpa using fun here => new old mem (same.trans here.symm)

variable {parents : List Hash}

/-- The header of a parent has less blue work. -/
def lighter (headers : List (ProofHeader Q)) (h : ProofHeader Q) (parent : Hash) : Bool :=
  (getHeader headers parent).any fun parentHeader => decide (parentHeader.header.blueWork < h.header.blueWork)

theorem checkBlueWork_ok_iff : checkBlueWork headers level h parents = .ok () ↔
    ∀ p ∈ parents, lighter headers h p = true := by
  induction parents with
  | nil => exact iff_of_true rfl nofun
  | cons p ps ih =>
    unfold checkBlueWork
    rw [unwrap_bind_eq_ok_iff, forall_mem_cons, ← ih]
    unfold lighter
    rw [Option.any_eq_true]
    constructor
    · rintro ⟨h', found, ok⟩
      obtain ⟨less, ok⟩ := Except.require_bind_eq_ok_iff.mp ok
      exact ⟨⟨h', found, decide_eq_true less⟩, ok⟩
    · rintro ⟨⟨h', found, less⟩, ok⟩
      exact ⟨h', found, Except.require_bind_eq_ok_iff.mpr ⟨of_decide_eq_true less, ok⟩⟩

theorem ghostdag_selectedParent {M : GhostdagManager} {data : StoredGhostdagData}
    (ok : M.ghostdag parents = some data) :
    M.findSelectedParent parents = some data.selectedParent := by
  cases selected : M.findSelectedParent parents with
  | none =>
    unfold ghostdag at ok
    rw [selected] at ok
    cases ok
  | some sp =>
    by_cases origin : sp = ORIGIN
    · subst origin
      rw [ghostdag_eq_origin selected] at ok
      cases ok
      rfl
    · rw [ghostdag_eq_coloured selected origin] at ok
      obtain ⟨coloured, hcoloured, ok⟩ := bind_eq_some_iff.mp ok
      obtain ⟨same, -⟩ := coloured_perm hcoloured
      obtain ⟨parent, ws, -, -, rfl⟩ := finalizeScoreAndWork_eq ok
      exact congrArg some same.symm

/-- The known parents of a header that passed: blocks of the level. -/
theorem StoresInv.parent_mem (inv : StoresInv (st.withHeader h)) (ok : checkBlueWork (st.withHeader h).headers level h
    (st.stores.knownParents P level h) = .ok ()) (hx :
    x ∈ st.stores.knownParents P level h) : ∃ e ∈ st.stores.blocks, e.hash = x := by
  obtain ⟨h', found, -⟩ := (Option.any_eq_true _ _).mp (checkBlueWork_ok_iff.mp ok x hx)
  obtain ⟨mem, rfl⟩ := getHeader_mem found
  have known : st.stores.has h'.hash = true := (mem_filter.mp hx).2
  exact (has_iff.mp known).resolve_left (inv.origin h' mem)

theorem StoresInv.withHeader (inv : StoresInv st) (new : h.hash ≠ ORIGIN) : StoresInv (st.withHeader h) where
  chained := inv.chained
  headers e he := by
    obtain ⟨h', found, bits⟩ := inv.headers e he
    exact ⟨h', getHeader_insertHeader found, bits⟩
  origin h' mem := (mem_insertHeader mem).elim (fun same => same ▸ new) (inv.origin h')

theorem StoresInv.insertBlock (inv : StoresInv st) (notOrigin : h.hash ≠ ORIGIN)
    (new : ∀ e ∈ st.stores.blocks, e.hash ≠ h.hash)
    {parents : List Hash} (known : ∀ p ∈ parents, p = ORIGIN ∨ ∃ e ∈ st.stores.blocks, e.hash = p)
    (ok : insertBlock P level st h parents = .ok st') :
    StoresInv st' ∧ ∃ e, st'.stores.blocks = e :: st.stores.blocks ∧ e.hash = h.hash ∧
      (st'.selectedTip = st.selectedTip ∨ st'.selectedTip = h.hash) := by
  obtain ⟨data, h', tip, I, hdata, found, which, rfl⟩ := insertBlock_ok ok
  have selected := known _ (findSelectedParent_mem (ghostdag_selectedParent hdata)).1
  exact ⟨⟨⟨notOrigin, new, selected, inv.chained⟩, forall_mem_cons.mpr ⟨⟨h', found, rfl⟩, inv.headers⟩, inv.origin⟩,
    _, rfl, rfl, which⟩

theorem StoresInv.step (inv : StoresInv st) (ok : addHeader P level st h first = .ok st') :
    StoresInv st' ∧ ∃ e, st'.stores.blocks = e :: st.stores.blocks ∧ e.hash = h.hash ∧
      (st'.selectedTip = st.selectedTip ∨ st'.selectedTip = h.hash) := by
  obtain ⟨-, -, blueWork, fresh, ok⟩ := addHeader_ok ok
  have notHas : ¬ (h.hash = ORIGIN ∨ ∃ e ∈ st.stores.blocks, e.hash = h.hash) := fun has =>
    Bool.false_ne_true (fresh.symm.trans (has_iff.mpr has))
  obtain ⟨notOrigin, new⟩ := not_or.mp notHas
  have inv' := inv.withHeader notOrigin
  refine inv'.insertBlock notOrigin (fun e he same => new ⟨e, he, same⟩) (fun p hp => ?_) ok
  unfold parentsFor at hp
  split at hp
  · exact .inl (mem_singleton.mp hp)
  · exact .inr (inv'.parent_mem blueWork hp)

end Step

/-! ## Levels -/

section Levels

variable {level : BlockLevel} {st st' : LevelState Q} {headers hs : List (ProofHeader Q)} {root pp : ProofHeader Q}
    {ppLevel : BlockLevel}
  {exiting : BlockLevel → Bool} {above done ctxs : List LevelContext} {levels : List (List (ProofHeader Q))}

theorem StoresInv.init (origin : ∀ h ∈ headers, h.hash ≠ ORIGIN) (tip : Hash) :
    StoresInv (⟨headers, .init, tip⟩ : LevelState Q) where
  chained := trivial
  headers _ he := absurd he not_mem_nil
  origin := origin

theorem StoresInv.run (inv : StoresInv st) (tip : ∃ e ∈ st.stores.blocks, e.hash = st.selectedTip)
    (ok : addHeaders P level st hs false = .ok st') :
    StoresInv st' ∧ ∃ e ∈ st'.stores.blocks, e.hash = st'.selectedTip := by
  induction hs generalizing st with
  | nil =>
    cases ok
    exact ⟨inv, tip⟩
  | cons h hs ih =>
    obtain ⟨st₁, head, rest⟩ := addHeaders_cons_ok.mp ok
    obtain ⟨inv₁, e, blocks, here, tip₁⟩ := inv.step head
    refine ih inv₁ ?_ rest
    rw [blocks]
    rcases tip₁ with same | new
    · obtain ⟨f, hf, found⟩ := tip
      exact ⟨f, mem_cons_of_mem e hf, found.trans same.symm⟩
    · exact ⟨e, mem_cons_self, here.trans new.symm⟩

/-- A level from its first header on. -/
theorem StoresInv.of_level (origin : ∀ h ∈ headers, h.hash ≠ ORIGIN)
    (ok : addHeaders P level ⟨headers, .init, root.hash⟩ (root :: hs) true = .ok st) :
    StoresInv st ∧ ∃ e ∈ st.stores.blocks, e.hash = st.selectedTip := by
  obtain ⟨st₁, head, rest⟩ := addHeaders_cons_ok.mp ok
  obtain ⟨inv₁, e, blocks, here, tip⟩ := (StoresInv.init origin root.hash).step head
  refine inv₁.run ?_ rest
  rw [blocks]
  exact ⟨e, mem_cons_self, here.trans (tip.elim Eq.symm Eq.symm)⟩

/-- A level whose chains are in order, with its tip. -/
structure LevelContext.Sound (c : LevelContext) : Prop where
  chained : Chained c.stores.blocks
  tip : ∃ e ∈ c.stores.blocks, e.hash = c.selectedTip

theorem processLevels_sound (origin : ∀ h ∈ headers, h.hash ≠ ORIGIN) (sound : ∀ c ∈ done, c.Sound)
    (ok : processLevels P exiting pp ppLevel levels headers done = .ok (some ctxs)) : ∀ c ∈ ctxs, c.Sound := by
  induction levels generalizing headers done with
  | nil =>
    obtain rfl := some.inj (Except.ok.inj ok)
    exact sound
  | cons l ls ih =>
    obtain ⟨r, hr, below⟩ := processLevels_cons_ok ok
    obtain ⟨root, rest, st, rfl, run, hheaders, stores, tip⟩ := processLevel_ok hr
    obtain ⟨inv, found⟩ := StoresInv.of_level origin run
    rw [hheaders] at below
    refine ih inv.origin (forall_mem_cons.mpr ⟨⟨?_, ?_⟩, sound⟩) below
    · rw [stores]
      exact inv.chained
    · rw [stores, tip]
      exact found

theorem accepted_sound {proof : List (List (ProofHeader Q))} {ctx : ProofContext Q}
    (ok : fromProof P exiting proof = .ok (some ctx)) :
    ∀ c ∈ ctx.levels, c.Sound := by
  obtain ⟨-, ppLevel, run⟩ := fromProof_ok ok
  exact processLevels_sound (fun h hh => absurd hh not_mem_nil) (fun c hc => absurd hc not_mem_nil) run

variable {c : LevelContext}

theorem LevelContext.Sound.blueScore (sound : c.Sound) : ∃ score, c.blueScore = some score := by
  obtain ⟨e, he, tip⟩ := sound.tip
  refine ⟨e.data.blueScore, ?_⟩
  unfold LevelContext.blueScore
  rw [← tip, sound.chained.getData he]
  rfl

theorem LevelContext.Sound.blueWorkDiff (sound : c.Sound) {x : Hash} (hx : c.stores.has x = true) :
    ∃ diff, c.blueWorkDiff x = some diff := by
  obtain ⟨e, he, tip⟩ := sound.tip
  have data : ∃ d, c.stores.getData x = some d := by
    rcases has_iff.mp hx with rfl | ⟨f, hf, rfl⟩
    · exact ⟨originGhostdagData, if_pos rfl⟩
    · exact ⟨f.data, sound.chained.getData hf⟩
  obtain ⟨d, hd⟩ := data
  unfold LevelContext.blueWorkDiff
  rw [← tip, sound.chained.getData he, hd]
  exact ⟨_, rfl⟩

theorem LevelContext.Sound.findCommonAncestor (sound : c.Sound) (defender : LevelContext) :
    c.findCommonAncestor defender = some none ∨
      ∃ x, c.findCommonAncestor defender = some (some x) ∧ c.stores.has x = true ∧ defender.stores.has x = true := by
  obtain ⟨e, he, tip⟩ := sound.tip
  refine (sound.chained.findCommonAncestor defender he tip.symm).imp_right fun ⟨f, hf, found, shared⟩ => ?_
  exact ⟨f.hash, found, has_iff.mpr (.inr ⟨f, hf, rfl⟩), shared⟩

end Levels

end Firecash
