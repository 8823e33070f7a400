import Firecash.Ghostdag.Mergeset

/-!
# The colouring of one block

The walk of `check_blue_candidate` down the selected chain meets every blue block that is not in the past
of the candidate, once, and adds the sizes recorded for them; it stops at the first chain block below the
candidate, whose blues are all in the candidate's past. The blues it meets are the candidate's blue
anticone, since no blue block is in its future: the chain is not, because the candidate is outside the
past of the selected parent, and the mergeset is processed in topological order.

`Coloured` is what holds of a stored DAG, `Context` what holds of the new block's data while its mergeset is
processed. `Context.colour` is one step of the loop.
-/

namespace Firecash

open Cluster List Option Function StoredGhostdagData GhostdagManager Dag

/-- What the stores hold about a DAG that was coloured with `k`. -/
structure Coloured (levelWork : BlueWork) (k : Nat) (D : Dag) : Prop where
  ordered : D.Ordered
  selected : ∀ e ∈ D.blocks, e.data.selectedParent ∈ e.parents
  nodup : ∀ h, (bluesIn D.blocks h).Nodup
  below : ∀ h, ∀ x ∈ D.blues h, x ∈ D.past h
  exact : ∀ h, ∀ x ∈ D.blues h, sizeIn D.blocks h x = some (conflicts D.Anti (D.blues h) x)
  cluster : ∀ h, IsCluster D.Anti k (D.blues h)
  score : ∀ e ∈ D.entries, e.data.blueScore = (D.blues e.hash).card
  work : ∀ e ∈ D.entries, e.data.blueWork.toNat = ∑ x ∈ D.blues e.hash, D.weight levelWork x
  increasing : D.Increasing
  head : ∀ e ∈ D.blocks, e.data.mergesetBlues.head? = some e.data.selectedParent
  disjoint : ∀ e ∈ D.blocks, (e.data.mergesetBlues ++ e.data.mergesetReds).Nodup
  mergeset : ∀ e ∈ D.blocks, ∀ x, x ∈ e.data.mergesetBlues ++ e.data.mergesetReds ↔
    x ∈ D.past e.hash ∧ x ∉ D.past e.data.selectedParent

variable {M : GhostdagManager} {D : Dag} {levelWork : BlueWork} {k : Nat} {h : Hash}

theorem Dag.mem_blues {x : Hash} : x ∈ D.blues h ↔ x ∈ bluesIn D.blocks h := mem_toFinset

theorem Coloured.known_of_blue (inv : Coloured levelWork k D) {x : Hash} (hx : x ∈ D.blues h) : D.Known x :=
  GrowingDag.Grown.known_of_mem_past inv.ordered (inv.below h x hx)

/-! ## Looking up a recorded size -/

variable {es : List DagEntry} {fuel : Nat}

/-- The loop of `blue_anticone_size` finds what is recorded along the chain. -/
theorem Serves.blueAnticoneSizeFrom (S : Serves M D) (sub : ∀ e ∈ es, e ∈ D.blocks)
    (grown : GrowingDag.Grown D.base.hash (historyOf es)) (selected : ∀ e ∈ es, e.data.selectedParent ∈ e.parents)
    (enough : es.length ≤ fuel) {sizes : Hash → Option Nat} {sp x : Hash} {n : Nat}
    (h : (sizes x).or (sizeIn es sp x) = some n) : M.blueAnticoneSizeFrom x fuel sizes sp = some n := by
  induction es generalizing fuel sizes sp with
  | nil =>
    rw [sizeIn, or_none] at h
    unfold blueAnticoneSizeFrom
    rw [h]
  | cons e es ih =>
    obtain ⟨here, later⟩ := forall_mem_cons.mp sub
    obtain ⟨-, laterSelected⟩ := forall_mem_cons.mp selected
    rw [length_cons] at enough
    by_cases hsp : sp = e.hash
    · subst hsp
      rw [sizeIn_cons_self] at h
      unfold blueAnticoneSizeFrom
      cases hx : sizes x with
      | some m =>
        rw [hx, some_or] at h
        rw [h]
      | none =>
        rw [hx, none_or] at h
        have inner : ¬ (e.hash = M.genesisHash ∨ e.hash = ORIGIN) :=
          not_or.mpr ⟨S.genesis e here, S.origin e (mem_append_left _ here)⟩
        obtain ⟨fuel, rfl⟩ : ∃ f, fuel = f + 1 := ⟨fuel - 1, by omega⟩
        rw [if_neg inner, S.data e (mem_append_left _ here)]
        exact ih later grown.2.2.2 laterSelected (by omega) h
    · rw [sizeIn_cons_of_ne hsp] at h
      exact ih later grown.2.2.2 laterSelected (by omega) h

/-! ## The walk -/

namespace GhostdagManager

/-- The peers that are met: those not in the past of the candidate. -/
def met (M : GhostdagManager) (c : Hash) (peers : List Hash) : List Hash := peers.filter fun x => !M.isDagAncestorOf x c

theorem met_append (c : Hash) (xs ys : List Hash) : M.met c (xs ++ ys) = M.met c xs ++ M.met c ys := filter_append ..

variable (acc : Candidate) (f : Hash → Nat)

/-- A candidate after it has met `xs`, for which the sizes `f` are recorded. -/
def Candidate.meet (xs : List Hash) : Candidate :=
  ⟨acc.size + xs.length, acc.sizes ++ xs.map fun x => (x, f x)⟩

theorem Candidate.meet_nil : acc.meet f [] = acc := by
  unfold meet
  rw [map_nil, append_nil]
  rfl

theorem Candidate.meet_append (xs ys : List Hash) :
    acc.meet f (xs ++ ys) = (acc.meet f xs).meet f ys := by
  unfold meet
  rw [length_append, map_append, append_assoc, Nat.add_assoc]

/-- The walk ends in red, or it has met all of `xs`, each with room for one more, and not too many of them. -/
def Outcome (k : Nat) (f : Hash → Nat) (acc : Candidate) (xs : List Hash) (r : Option (Option Candidate)) : Prop :=
  r = some none ∨ r = some (some (acc.meet f xs)) ∧ (∀ x ∈ xs, f x < k) ∧ (acc.size ≤ k → (acc.meet f xs).size ≤ k)

theorem outcome_nil (k : Nat) (f : Hash → Nat) (acc : Candidate) : Outcome k f acc [] (some (some acc)) := by
  refine .inr ⟨by rw [Candidate.meet_nil], nofun, fun le => ?_⟩
  rw [Candidate.meet_nil]
  exact le

variable {acc : Candidate}

/-- Two parts of the walk, one after the other. -/
theorem Outcome.append {f : Hash → Nat} {xs ys : List Hash} {r : Option (Option Candidate)}
    (room : ∀ x ∈ xs, f x < k) (few : acc.size ≤ k → (acc.meet f xs).size ≤ k)
    (rest : Outcome k f (acc.meet f xs) ys r) :
    Outcome k f acc (xs ++ ys) r := by
  rcases rest with red | ⟨hr, room', few'⟩
  · exact .inl red
  · refine .inr ⟨by rw [Candidate.meet_append]; exact hr, ?_, fun le => ?_⟩
    · intro x hx
      rcases mem_append.mp hx with first | second
      · exact room x first
      · exact room' x second
    · rw [Candidate.meet_append]
      exact few' (few le)

variable {data : StoredGhostdagData} {c : Hash} {f : Hash → Nat}

theorem checkPeers_outcome {peers : List Hash} (sizes : ∀ x ∈ peers, M.blueAnticoneSize x data = some (f x))
    (le : ∀ x ∈ peers, f x ≤ M.k) (acc : Candidate) :
    Outcome M.k f acc (M.met c peers) (M.checkPeers data c peers acc) := by
  induction peers generalizing acc with
  | nil => exact outcome_nil M.k f acc
  | cons x peers ih =>
    obtain ⟨size, sizes⟩ := forall_mem_cons.mp sizes
    obtain ⟨fx, le⟩ := forall_mem_cons.mp le
    unfold checkPeers met
    by_cases past : M.isDagAncestorOf x c = true
    · rw [if_pos past, filter_cons_of_neg (by simp [past])]
      exact ih sizes le acc
    · rw [if_neg past, filter_cons_of_pos (by simp [past]), size]
      dsimp only
      split
      · exact .inl rfl
      · rename_i few
        split
        · exact .inl rfl
        · rename_i notFull
          rw [if_neg (by omega)]
          have one : acc.meet f [x] = ⟨acc.size + 1, acc.sizes ++ [(x, f x)]⟩ := rfl
          have room : ∀ y ∈ [x], f y < M.k := by
            intro y hy
            obtain rfl := mem_singleton.mp hy
            omega
          have first : acc.size ≤ M.k → (acc.meet f [x]).size ≤ M.k := fun _ => Nat.le_of_not_lt few
          exact Outcome.append room first (one ▸ ih sizes le _)

/-- A call of `check_blue_candidate_with_chain_block` that is not blue at once. -/
theorem checkChainBlock_step (acc : Candidate) {fuel : Nat} {hash : Option Hash} {d next : StoredGhostdagData}
    {P : List Hash → Prop} (above : hash.any (M.isDagAncestorOf · c) = false)
    (hnext : M.getData d.selectedParent = some next)
    (sizes : ∀ x ∈ d.mergesetBlues, M.blueAnticoneSize x data = some (f x)) (le : ∀ x ∈ d.mergesetBlues, f x ≤ M.k)
    (rest : ∀ acc, ∃ xs, Outcome M.k f acc xs (M.checkChainBlock data c fuel (some d.selectedParent) next acc) ∧ P xs) :
    ∃ xs, Outcome M.k f acc (M.met c d.mergesetBlues ++ xs) (M.checkChainBlock data c (fuel + 1) hash d acc) ∧
      P xs := by
  unfold checkChainBlock
  rw [above, if_neg Bool.false_ne_true]
  rcases checkPeers_outcome sizes le acc with red | ⟨hr, room, few⟩
  · obtain ⟨xs, -, hxs⟩ := rest acc
    rw [red]
    exact ⟨xs, .inl rfl, hxs⟩
  · obtain ⟨xs, outcome, hxs⟩ := rest (acc.meet f (M.met c d.mergesetBlues))
    rw [hr, hnext]
    exact ⟨xs, .append room few outcome, hxs⟩

/-- Where the walk stops, there is nothing left to meet: the blues of the candidate's chain ancestors are
in its past. -/
def Stops (M : GhostdagManager) (D : Dag) (c : Hash) : Prop :=
  ∀ es h, (∀ e ∈ es, e ∈ D.blocks) → D.Known h → M.isDagAncestorOf h c = true → M.met c (bluesIn es h) = []

end GhostdagManager

theorem Coloured.bluesIn_below (inv : Coloured levelWork k D) (sub : ∀ e ∈ es, e ∈ D.blocks) {x : Hash}
    (hx : x ∈ bluesIn es h) : x ∈ D.past h := by
  induction es generalizing h with
  | nil => cases hx
  | cons e es ih =>
    obtain ⟨here, later⟩ := forall_mem_cons.mp sub
    by_cases hh : h = e.hash
    · subst hh
      rw [bluesIn_cons_self] at hx
      rcases mem_append.mp hx with own | older
      · exact ((inv.mergeset e here x).mp (mem_append_left _ own)).1
      · have edge : e.data.selectedParent ∈ D.past e.hash :=
          (GrowingDag.Grown.mem_past_iff inv.ordered (mem_map.mpr ⟨e, here, rfl⟩)).mpr ⟨_,
            inv.selected e here, .inl rfl⟩
        exact GrowingDag.Grown.past_trans inv.ordered (ih later older) edge
    · rw [bluesIn_cons_of_ne hh] at hx
      exact ih later hx

theorem Serves.exists_data (S : Serves M D) (known : D.Known h) : ∃ d, M.getData h = some d := by
  obtain ⟨e, he, rfl⟩ := known_iff.mp known
  exact ⟨e.data, S.data e he⟩

theorem Coloured.stops (inv : Coloured levelWork k D) (S : Serves M D) {c : Hash} (hc : D.Known c) : M.Stops D c := by
  intro es h sub hh ancestor
  refine filter_eq_nil_iff.mpr fun x hx => ?_
  have below := inv.bluesIn_below sub hx
  have knownX : D.Known x := GrowingDag.Grown.known_of_mem_past inv.ordered below
  have belowC : x ∈ D.past c := by
    rcases (S.reach h c hh hc).mp ancestor with rfl | hhc
    · exact below
    · exact GrowingDag.Grown.past_trans inv.ordered below hhc
  rw [(S.reach x c knownX hc).mpr (.inr belowC)]
  exact Bool.false_ne_true

/-- The blues so far, as the walk lists them. -/
def StoredGhostdagData.blueList (D : Dag) (data : StoredGhostdagData) : List Hash :=
  data.mergesetBlues ++ bluesIn D.blocks data.selectedParent

section

variable (S : Serves M D) (ordered : D.Ordered) (selected : ∀ e ∈ D.blocks, e.data.selectedParent ∈ e.parents)
  {data : StoredGhostdagData} {c : Hash} (hc : D.Known c) {f : Hash → Nat}
include S ordered selected hc

/-- The walk from a stored chain block on meets the blues of that block, or those above where it stops. -/
theorem Serves.checkChainBlock_outcome (sub : ∀ e ∈ es, e ∈ D.blocks)
    (grown : GrowingDag.Grown D.base.hash (historyOf es)) (enough : es.length ≤ fuel)
    (known : GrowingDag.Known D.base.hash (historyOf es) h) {d : StoredGhostdagData} (hd : M.getData h = some d)
    (sizes : ∀ x ∈ bluesIn es h, M.blueAnticoneSize x data = some (f x)) (le : ∀ x ∈ bluesIn es h, f x ≤ M.k)
    (acc : GhostdagManager.Candidate) :
    ∃ xs, GhostdagManager.Outcome M.k f acc xs (M.checkChainBlock data c fuel (some h) d acc) ∧
      (M.Stops D c → xs = M.met c (bluesIn es h)) := by
  have ends : ∀ (es : List DagEntry) (fuel : Nat) (h : Hash) (d : StoredGhostdagData) (acc : GhostdagManager.Candidate),
      (∀ e ∈ es, e ∈ D.blocks) → D.Known h → M.isDagAncestorOf h c = true →
      ∃ xs, GhostdagManager.Outcome M.k f acc xs (M.checkChainBlock data c fuel (some h) d acc) ∧
        (M.Stops D c → xs = M.met c (bluesIn es h)) := by
    intro es fuel h d acc sub hh ancestor
    refine ⟨[], ?_, fun stops => (stops es h sub hh ancestor).symm⟩
    unfold checkChainBlock
    rw [any_some, ancestor, if_pos rfl]
    exact outcome_nil M.k f acc
  induction es generalizing fuel h d acc with
  | nil =>
    obtain rfl : h = D.base.hash := known.resolve_right not_mem_nil
    exact ends [] fuel _ d acc sub .base (S.base_ancestor ordered hc)
  | cons e es ih =>
    obtain ⟨here, later⟩ := forall_mem_cons.mp sub
    rw [length_cons] at enough
    by_cases hh : h = e.hash
    · subst hh
      by_cases ancestor : M.isDagAncestorOf e.hash c = true
      · exact ends (e :: es) fuel _ d acc sub (.of_mem (mem_append_left _ here)) ancestor
      · obtain rfl : e.data = d := some.inj ((S.data e (mem_append_left _ here)).symm.trans hd)
        have older := grown.2.2.1 _ (selected e here)
        have edge : D.Known e.data.selectedParent :=
          GrowingDag.Grown.known_parent ordered (mem_map.mpr ⟨e, here, rfl⟩) (selected e here)
        obtain ⟨next, hnext⟩ := S.exists_data edge
        rw [bluesIn_cons_self] at sizes le ⊢
        obtain ⟨fuel, rfl⟩ : ∃ f, fuel = f + 1 := ⟨fuel - 1, by omega⟩
        have above : (some e.hash).any (M.isDagAncestorOf · c) = false := by
          rw [any_some]
          exact Bool.eq_false_iff.mpr ancestor
        obtain ⟨xs, outcome, all⟩ := checkChainBlock_step acc above hnext
          (fun x hx => sizes x (mem_append_left _ hx)) (fun x hx => le x (mem_append_left _ hx))
          (ih later grown.2.2.2 (Nat.le_of_succ_le_succ enough) older hnext (fun x hx =>
            sizes x (mem_append_right _ hx))
            fun x hx => le x (mem_append_right _ hx))
        exact ⟨_, outcome, fun stops => by rw [all stops, met_append]⟩
    · rw [bluesIn_cons_of_ne hh] at sizes le ⊢
      exact ih later grown.2.2.2 (by omega) ((GrowingDag.known_cons.mp known).resolve_left hh) hd sizes le acc

/-- The walk of `check_blue_candidate`. -/
theorem Serves.checkBlueCandidate_outcome (hsp : D.Known data.selectedParent)
    (sizes : ∀ x ∈ data.blueList D, M.blueAnticoneSize x data = some (f x)) (le : ∀ x ∈ data.blueList D, f x ≤ M.k) :
    ∃ xs, GhostdagManager.Outcome M.k f ⟨0, []⟩ xs (M.checkBlueCandidate data c) ∧
      (M.Stops D c → xs = M.met c (data.blueList D)) := by
  obtain ⟨next, hnext⟩ := S.exists_data hsp
  have size := S.size
  unfold checkBlueCandidate
  split
  · exact ⟨_, .inl rfl, fun _ => rfl⟩
  · obtain ⟨fuel, hfuel⟩ : ∃ f, M.size = f + 1 := ⟨M.size - 1, by omega⟩
    rw [hfuel]
    obtain ⟨xs, outcome, all⟩ := checkChainBlock_step ⟨0, []⟩ any_none hnext
      (fun x hx => sizes x (mem_append_left _ hx)) (fun x hx => le x (mem_append_left _ hx))
      (S.checkChainBlock_outcome ordered selected hc (fun _ h => h) ordered (Nat.le_of_lt_succ (hfuel ▸ size)) hsp hnext
        (fun x hx => sizes x (mem_append_right _ hx)) fun x hx => le x (mem_append_right _ hx))
    exact ⟨_, outcome, fun stops => by rw [all stops, blueList, met_append]⟩

end

/-! ## One step of the colouring -/

/-- The blue set of a block under construction. -/
def StoredGhostdagData.blueSet (D : Dag) (data : StoredGhostdagData) : Finset Hash :=
  data.mergesetBlues.toFinset ∪ D.blues data.selectedParent

/-- The data of the new block after `done` of its mergeset. -/
structure Context (k : Nat) (D : Dag) (sp : Hash) (done : List Hash) (data : StoredGhostdagData) : Prop where
  selected : data.selectedParent = sp
  head : data.mergesetBlues.head? = some sp
  perm : (data.mergesetBlues ++ data.mergesetReds).Perm (sp :: done)
  exact : ∀ x ∈ data.blueSet D, (data.bluesAnticoneSizes x).or (sizeIn D.blocks sp x) =
    some (conflicts D.Anti (data.blueSet D) x)
  cluster : IsCluster D.Anti k (data.blueSet D)

/-- What is left to colour: known blocks outside the past of the selected parent, in topological order. -/
structure Merges (D : Dag) (sp : Hash) (mergeset : List Hash) : Prop where
  known : ∀ x ∈ mergeset, D.Known x
  nodup : (sp :: mergeset).Nodup
  above : ∀ x ∈ mergeset, x ∉ D.past sp
  topological : mergeset.Pairwise fun a b => b ∉ D.past a

theorem Dag.anti_symm {x y : Hash} (h : D.Anti x y) : D.Anti y x := ⟨h.1.symm, h.2.2, h.2.1⟩

theorem Dag.not_anti_self (x : Hash) : ¬ D.Anti x x := fun h => h.1 rfl

/-- The sizes after `add_blue`: one more for the blocks that were met. -/
theorem foldl_update_sizes (f : Hash → Nat) (xs : List Hash) (m : Hash → Option Nat) (y : Hash) :
    (xs.map fun x => (x, f x)).foldl (fun m (p : Hash × Nat) => update m p.1 (some (p.2 + 1))) m y =
      if y ∈ xs then some (f y + 1) else m y := by
  induction xs generalizing m with
  | nil => simp
  | cons x xs ih =>
    rw [map_cons, foldl_cons, ih]
    by_cases later : y ∈ xs
    · rw [if_pos later, if_pos (mem_cons_of_mem x later)]
    · rw [if_neg later]
      by_cases here : y = x
      · subst here
        rw [if_pos mem_cons_self, update_self]
      · rw [update_of_ne here, if_neg]
        exact fun h => (mem_cons.mp h).elim here later

section Step

variable {sp c : Hash} {done rest : List Hash} {data : StoredGhostdagData} {x : Hash}

theorem StoredGhostdagData.mem_blueSet : x ∈ data.blueSet D ↔ x ∈ data.blueList D := by
  unfold blueSet blueList
  rw [Finset.mem_union, List.mem_toFinset, mem_append, mem_blues]

theorem Context.mem_merged (ctx : Context k D sp done data) (hx : x ∈ data.mergesetBlues) : x = sp ∨ x ∈ done :=
  mem_cons.mp (ctx.perm.mem_iff.mp (mem_append_left _ hx))

theorem Merges.left (merges : Merges D sp (done ++ rest)) : Merges D sp done where
  known x hx := merges.known x (mem_append_left _ hx)
  nodup := by
    have nodup := merges.nodup
    rw [← cons_append] at nodup
    exact (nodup_append.mp nodup).1
  above x hx := merges.above x (mem_append_left _ hx)
  topological := (pairwise_append.mp merges.topological).1

theorem Context.nodup_blueList (inv : Coloured levelWork k D) (merges : Merges D sp done)
    (ctx : Context k D sp done data) :
    (data.blueList D).Nodup := by
  have own := (nodup_append.mp (ctx.perm.nodup_iff.mpr merges.nodup)).1
  refine nodup_append.mpr ⟨own, inv.nodup _, ?_⟩
  rintro x hx y hy rfl
  rw [ctx.selected] at hy
  have below := inv.below sp x (mem_blues.mpr hy)
  rcases ctx.mem_merged hx with rfl | processed
  · exact GrowingDag.Grown.notMem_past_self inv.ordered x below
  · exact merges.above x processed below

/-- A size is recorded for every blue block, and it is right. -/
theorem Context.blueAnticoneSize (S : Serves M D) (inv : Coloured levelWork k D) (ctx : Context k D sp done data)
    (hx : x ∈ data.blueSet D) : M.blueAnticoneSize x data = some (conflicts D.Anti (data.blueSet D) x) := by
  have exact := ctx.exact x hx
  rw [← ctx.selected] at exact
  exact S.blueAnticoneSizeFrom (fun _ h => h) inv.ordered inv.selected S.size.le exact

theorem StoredGhostdagData.sizes_addBlue (n : Nat) (xs : List Hash) (f : Hash → Nat) (y : Hash) :
    (data.addBlue c n (xs.map fun x => (x, f x))).bluesAnticoneSizes y =
      if y ∈ xs then some (f y + 1) else update data.bluesAnticoneSizes c (some n) y := by
  exact foldl_update_sizes ..

theorem Context.addRed (ctx : Context k D sp done data) (c : Hash) : Context k D sp (done ++ [c]) (data.addRed c) :=
  { ctx with
    perm := by
      show (data.mergesetBlues ++ (data.mergesetReds ++ [c])).Perm _
      rw [← append_assoc, ← cons_append]
      exact ctx.perm.append_right [c] }

section

variable (S : Serves M D) (inv : Coloured levelWork k D) (hsp : D.Known sp) (merges : Merges D sp (done ++ c :: rest))
  (ctx : Context k D sp done data)
include inv hsp merges ctx

/-- No blue block is the candidate or in its future. -/
theorem Context.blue (hx : x ∈ data.blueSet D) : D.Known x ∧ x ≠ c ∧ c ∉ D.past x := by
  have above : c ∉ D.past sp := merges.above c (mem_append_right _ mem_cons_self)
  have fresh : c ∉ sp :: done := by
    have nodup := merges.nodup
    rw [← cons_append] at nodup
    exact fun h => (nodup_append.mp nodup).2.2 c h c mem_cons_self rfl
  rcases Finset.mem_union.mp hx with own | older
  · rcases ctx.mem_merged (mem_toFinset.mp own) with rfl | processed
    · exact ⟨hsp, fun h => fresh (h ▸ mem_cons_self), above⟩
    · refine ⟨merges.known x (mem_append_left _ processed), ?_, ?_⟩
      · rintro rfl
        exact fresh (mem_cons_of_mem sp processed)
      · exact (pairwise_append.mp merges.topological).2.2 x processed c mem_cons_self
  · rw [ctx.selected] at older
    have below := inv.below sp x older
    refine ⟨inv.known_of_blue older, ?_, fun h => above (GrowingDag.Grown.past_trans inv.ordered h below)⟩
    rintro rfl
    exact above below

include S

/-- What the walk meets is the candidate's blue anticone. -/
theorem Context.mem_met : x ∈ M.met c (data.blueList D) ↔ x ∈ data.blueSet D ∧ D.Anti c x := by
  unfold met
  rw [mem_filter, ← mem_blueSet]
  refine and_congr_right fun hx => ?_
  obtain ⟨known, other, notFuture⟩ := ctx.blue inv hsp merges hx
  have reach := S.reach x c known (merges.known c (mem_append_right _ mem_cons_self))
  rw [Bool.not_eq_true', Bool.eq_false_iff, ne_eq, reach, not_or]
  exact ⟨fun h => ⟨Ne.symm other, notFuture, h.2⟩, fun h => ⟨other, h.2.2⟩⟩

theorem Context.length_met : (M.met c (data.blueList D)).length = conflicts D.Anti (data.blueSet D) c := by
  have nodup : (M.met c (data.blueList D)).Nodup := (ctx.nodup_blueList inv merges.left).filter _
  rw [← toFinset_card_of_nodup nodup]
  congr 1
  ext x
  rw [List.mem_toFinset, ctx.mem_met S inv hsp merges, Finset.mem_filter]

theorem Context.checkBlueCandidate (hk : M.k = k) :
    GhostdagManager.Outcome k (conflicts D.Anti (data.blueSet D)) ⟨0, []⟩ (M.met c (data.blueList D))
      (M.checkBlueCandidate data c) := by
  subst hk
  have hc := merges.known c (mem_append_right _ mem_cons_self)
  obtain ⟨xs, outcome, all⟩ := S.checkBlueCandidate_outcome inv.ordered inv.selected hc (ctx.selected ▸ hsp)
    (fun x hx => ctx.blueAnticoneSize S inv (mem_blueSet.mpr hx))
    fun x hx => ctx.cluster x (mem_blueSet.mpr hx)
  rwa [all (inv.stops S hc)] at outcome

/-- A block that meets at most `k` blues, all of which have room, joins them. -/
theorem Context.addBlue (few : (M.met c (data.blueList D)).length ≤ k)
    (room : ∀ x ∈ M.met c (data.blueList D), conflicts D.Anti (data.blueSet D) x < k) :
    Context k D sp (done ++ [c]) (data.addBlue c (M.met c (data.blueList D)).length
      ((M.met c (data.blueList D)).map fun x => (x, conflicts D.Anti (data.blueSet D) x))) := by
  have new : c ∉ data.blueSet D := fun h => (ctx.blue inv hsp merges h).2.1 rfl
  have notMet : c ∉ M.met c (data.blueList D) := fun h => new ((ctx.mem_met S inv hsp merges).mp h).1
  have length := ctx.length_met S inv hsp merges
  have blues : ∀ n xs, (data.addBlue c n xs).blueSet D = insert c (data.blueSet D) := by
    intro n xs
    ext x
    rw [Finset.mem_insert, mem_blueSet, mem_blueSet]
    show x ∈ (data.mergesetBlues ++ [c]) ++ _ ↔ x = c ∨ x ∈ data.mergesetBlues ++ _
    simp only [mem_append, mem_singleton]
    tauto
  refine ⟨ctx.selected, ?_, ?_, ?_, ?_⟩
  · show (data.mergesetBlues ++ [c]).head? = some sp
    rw [head?_append, ctx.head]
    rfl
  · have move :
        ((data.mergesetBlues ++ [c]) ++ data.mergesetReds).Perm ((data.mergesetBlues ++ data.mergesetReds) ++ [c]) := by
      rw [append_assoc, append_assoc]
      exact List.Perm.append_left _ perm_append_comm
    rw [← cons_append]
    exact move.trans (ctx.perm.append_right [c])
  · intro x hx
    rw [blues] at hx ⊢
    rw [conflicts_insert new, sizes_addBlue]
    rcases Finset.mem_insert.mp hx with rfl | old
    · rw [if_neg notMet, update_self, if_neg (not_anti_self x), length]
      rfl
    · have other := (ctx.blue inv hsp merges old).2.1
      by_cases against : D.Anti x c
      · rw [if_pos ((ctx.mem_met S inv hsp merges).mpr ⟨old, anti_symm against⟩), if_pos against]
        rfl
      · have notMet : x ∉ M.met c (data.blueList D) :=
          fun h => against (anti_symm ((ctx.mem_met S inv hsp merges).mp h).2)
        rw [if_neg notMet, update_of_ne other, if_neg against]
        exact ctx.exact x old
  · rw [blues]
    refine IsCluster.insert (not_anti_self c) (fun x => anti_symm) ctx.cluster new (length ▸ few) fun x hx against => ?_
    exact room x ((ctx.mem_met S inv hsp merges).mpr ⟨hx, against⟩)

/-- **One step of the colouring.** It does not panic, and what is recorded stays right. -/
theorem Context.colour (hk : M.k = k) :
    ∃ data', M.colour data c = some data' ∧ Context k D sp (done ++ [c]) data' := by
  unfold GhostdagManager.colour
  rcases ctx.checkBlueCandidate S inv hsp merges hk with red | ⟨blue, room, few⟩
  · rw [red]
    exact ⟨_, rfl, ctx.addRed c⟩
  · rw [blue]
    have few := few (Nat.zero_le k)
    unfold GhostdagManager.Candidate.meet at few ⊢
    rw [Nat.zero_add] at few ⊢
    exact ⟨_, rfl, ctx.addBlue S inv hsp merges few room⟩

end

/-- The colouring loop. -/
theorem Context.foldlM_colour (S : Serves M D) (inv : Coloured levelWork k D) (hk : M.k = k) (hsp : D.Known sp)
    {todo : List Hash} (merges : Merges D sp (done ++ todo)) (ctx : Context k D sp done data) :
    ∃ data', todo.foldlM M.colour data = some data' ∧ Context k D sp (done ++ todo) data' := by
  induction todo generalizing done data with
  | nil => exact ⟨data, rfl, by rwa [append_nil]⟩
  | cons c todo ih =>
    obtain ⟨data₁, h₁, ctx₁⟩ := ctx.colour S inv hsp merges hk
    have assoc : done ++ c :: todo = (done ++ [c]) ++ todo := by rw [append_assoc, singleton_append]
    rw [assoc] at merges ⊢
    obtain ⟨data', h', ctx'⟩ := ih merges ctx₁
    refine ⟨data', ?_, ctx'⟩
    rw [foldlM_cons, h₁]
    exact h'

/-- The start of the colouring: the selected parent is blue, and all of its blues are in its past. -/
theorem Context.start (inv : Coloured levelWork k D) (hsp : D.Known sp)
    (h : newWithSelectedParent sp k = some data) : Context k D sp [] data := by
  unfold newWithSelectedParent at h
  split at h
  · cases h
    have blues : blueSet D ⟨0, 0, sp, [sp], [], update (fun _ => none) sp (some 0)⟩ =
        insert sp (D.blues sp) := by
      unfold blueSet
      rw [toFinset_cons, toFinset_nil, Finset.insert_union, Finset.empty_union]
    have new : sp ∉ D.blues sp := fun h => GrowingDag.Grown.notMem_past_self inv.ordered sp (inv.below sp sp h)
    have apart : ∀ x ∈ D.blues sp, ¬ D.Anti x sp := fun x hx against => against.2.1 (inv.below sp x hx)
    have alone : conflicts D.Anti (D.blues sp) sp = 0 := by
      unfold conflicts
      rw [Finset.card_eq_zero, Finset.filter_eq_empty_iff]
      exact fun x hx against => apart x hx (anti_symm against)
    refine ⟨rfl, rfl, List.Perm.refl _, ?_, ?_⟩
    · intro x hx
      rw [blues] at hx ⊢
      rw [conflicts_insert new]
      rcases Finset.mem_insert.mp hx with rfl | old
      · dsimp only
        rw [update_self, if_neg (not_anti_self x), alone]
        rfl
      · have other : x ≠ sp := fun h => new (h ▸ old)
        dsimp only
        rw [update_of_ne other, if_neg (apart x old)]
        exact inv.exact sp x old
    · rw [blues]
      refine IsCluster.insert (not_anti_self sp) (fun x => anti_symm) (inv.cluster sp) new
        (by rw [alone]; exact Nat.zero_le k)
        fun x hx against => absurd (anti_symm against) (apart x hx)
  · cases h

end Step

end Firecash
