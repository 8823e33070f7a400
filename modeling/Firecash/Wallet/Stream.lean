import Firecash.Wallet.Events

/-!
# The stream a wallet has followed

A wallet starts from a tree (the empty one, or that of a node's frontier) and is fed leaves. Its base
frontier, its stored leaves and their decoded cache, the tip tree, the lagging tree and every live
witness are cut from this one stream at three cursors: the base, the leaf count the witnesses are at,
and the tip. `Tracks` says where each of them is cut, and every call keeps it (`tracks_apply`).
-/

namespace Firecash

open WalletPrim List

variable {P : Prim} {W : WalletPrim P}

/-- The commitments that events append as leaves. -/
def eventLeaves (es : List (WalletEvent W)) : List P.Cmx :=
  es.filterMap fun | .leaf cmx _ => some cmx | .reveal _ => none

namespace WalletDb

variable {es : List (WalletEvent W)}

/-- Events do not panic while the counter has room for their leaves. -/
theorem events_total {db : WalletDb W}
    (room : db.size + (eventLeaves es).length < Checked.U64_BOUND) : ∃ db', db.events es = some db' := by
  induction es generalizing db with
  | nil => exact ⟨db, rfl⟩
  | cons e es ih =>
    rw [events_cons]
    cases e with
    | leaf cmx owned =>
      have split : eventLeaves (WalletEvent.leaf cmx owned :: es) = cmx :: eventLeaves es := rfl
      rw [split, length_cons] at room
      have step : ∃ db₁, db.event (.leaf cmx owned) = some db₁ ∧ db₁.size = db.size + 1 := ⟨_, if_pos (by omega), rfl⟩
      obtain ⟨db₁, he, size⟩ := step
      rw [he]
      exact ih (by omega)
    | reveal nf => exact ih room

/-- A live witness of leaf `p`, at leaf `u` of the stream. -/
def Live (t₀ : W.Tree) (ns : List P.Node) (u : Nat) (pw : Nat × W.Witness) : Prop :=
  ∃ p w₀, p < u ∧ pw.1 = W.treeSize t₀ + p ∧ W.witnessFromTree (W.treeFill t₀ (ns.take (p + 1))) = some w₀ ∧
    pw.2 = W.witnessFill w₀ ((ns.take u).drop (p + 1))

/-- The wallet started from the tree `t₀`, was fed `ns`, has its base at the `b`-th of them and its
witnesses at the `u`-th. -/
structure Tracks (t₀ : W.Tree) (ns : List P.Node) (b u : Nat) (db : WalletDb W) : Prop where
  size_eq : db.size = W.treeSize t₀ + ns.length
  size_lt : db.size < Checked.U64_BOUND
  base_eq : db.baseSize = W.treeSize t₀ + b
  upto_eq : db.witnessedUpto = W.treeSize t₀ + u
  base_le : b ≤ u
  upto_le : u ≤ ns.length
  leaves_eq : db.leaves = (ns.drop b).map P.nodeToBytes
  decoded_eq : ∀ d, db.decoded = some d → d = ns.drop b
  baseTree : W.treeExtend t₀ (ns.take b) = some (W.treeFromFrontier db.baseFrontier)
  tip : db.tree = W.treeFill t₀ ns
  lag : db.lagTree = W.treeFill t₀ (ns.take u)
  live : ∀ pw ∈ db.witnesses, Live t₀ ns u pw
  budget_le : db.witnessBudget ≤ MAX_LIVE_WITNESSES
  live_le : db.witnesses.length ≤ MAX_LIVE_WITNESSES

variable {t₀ : W.Tree} {ns : List P.Node} {b u : Nat} {db db' : WalletDb W}

variable {pw : Nat × W.Witness}

theorem Live.concat (h : Live t₀ ns u pw) (hu : u ≤ ns.length) (ms : List P.Node) :
    Live t₀ (ns ++ ms) u pw := by
  obtain ⟨p, w₀, hp, hpos, hw₀, hw⟩ := h
  refine ⟨p, w₀, hp, hpos, ?_, ?_⟩
  · rwa [take_append_of_le_length (by omega)]
  · rwa [take_append_of_le_length hu]

/-! ## Ingest -/

theorem tracks_books : Tracks t₀ ns b u db.books ↔ Tracks t₀ ns b u db :=
  ⟨fun h => { h with }, fun h => { h with }⟩

theorem Tracks.appendLeaf {cmx : P.Cmx} {owned : Option W.Note} (h : Tracks t₀ ns b u db)
    (ha : db.appendLeaf cmx owned = some db') : Tracks t₀ (ns ++ [P.fromCmx cmx]) b u db' := by
  obtain ⟨room, rfl⟩ := appendLeaf_eq ha
  have hb : b ≤ ns.length := h.base_le.trans h.upto_le
  have drop : (ns ++ [P.fromCmx cmx]).drop b = ns.drop b ++ [P.fromCmx cmx] := drop_append_of_le_length hb
  exact
    { size_eq := by rw [length_append]; simp [h.size_eq, Nat.add_assoc]
      size_lt := room
      base_eq := h.base_eq
      upto_eq := h.upto_eq
      base_le := h.base_le
      upto_le := by rw [length_append]; exact h.upto_le.trans (Nat.le_add_right _ _)
      leaves_eq := by rw [drop, map_append, ← h.leaves_eq]; rfl
      decoded_eq := by
        intro d hd
        obtain ⟨e, he, rfl⟩ := Option.map_eq_some_iff.mp hd
        rw [h.decoded_eq e he, drop]
      baseTree := by rw [take_append_of_le_length hb]; exact h.baseTree
      tip := by rw [treeFill_concat, ← h.tip]
      lag := by rw [take_append_of_le_length h.upto_le]; exact h.lag
      live := fun pw hpw => (h.live pw hpw).concat h.upto_le _
      budget_le := h.budget_le
      live_le := h.live_le }

theorem Tracks.event {e : WalletEvent W} (h : Tracks t₀ ns b u db) (he : db.event e = some db') :
    Tracks t₀ (ns ++ (eventLeaves [e]).map P.fromCmx) b u db' := by
  cases e with
  | leaf cmx owned => exact h.appendLeaf he
  | reveal nf =>
    cases he
    rw [show eventLeaves [WalletEvent.reveal nf] = [] from rfl, map_nil, append_nil]
    exact { h with }

theorem Tracks.events (h : Tracks t₀ ns b u db) (hes : db.events es = some db') :
    Tracks t₀ (ns ++ (eventLeaves es).map P.fromCmx) b u db' := by
  induction hes using Option.foldlM_induction generalizing ns with
  | nil => simpa [eventLeaves] using h
  | cons e es db db₁ he _ ih =>
    have step := ih (h.event he)
    have split : eventLeaves (e :: es) = eventLeaves [e] ++ eventLeaves es := filterMap_append (l := [e])
    rwa [split, map_append, ← append_assoc]

theorem Tracks.ingest {block : WalletBlock P} {info : Option BlockMeta} (h : Tracks t₀ ns b u db)
    (hi : db.ingest block info = some db') :
    Tracks t₀ (ns ++ (eventLeaves (blockEvents db.fvk db.spentNullifiers block)).map P.fromCmx) b u db' :=
  tracks_books.mp ((tracks_books.mpr h).events (ingest_events hi))

/-! ## Starting -/

/-- A wallet that has just been created, from a key alone or at a node's frontier. -/
inductive Started : WalletDb W → Prop
  | fresh (fvk : W.Fvk) : Started (fresh fvk)
  | frontier {fvk : W.Fvk} {checkpoint : FrontierState} {db : WalletDb W}
      (h : (fresh fvk).applyFrontier checkpoint = some db) : Started db

variable (laws : IncrementalLaws W)

include laws

variable {checkpoint : FrontierState}

/-- The size a frontier state declares is that of the frontier it describes. -/
theorem frontierSize_of_fromState {gt : GlobalTree P}
    (h : GlobalTree.fromState checkpoint = .ok gt) : gt.size = W.frontierSize gt.frontier := by
  unfold GlobalTree.fromState at h
  split at h
  · cases h
    simp [GlobalTree.new, frontierSize, laws.frontierValue_empty]
  · rename_i nonzero
    split at h
    · cases h
    · split at h
      · split at h
        · rename_i hparts
          cases h
          obtain ⟨hv, hp, -⟩ := laws.parts_fromParts hparts
          simp only [frontierSize, hv, hp]
          omega
        · cases h
      · cases h

theorem tracks_atFrontier (fvk : W.Fvk) {gt : GlobalTree P} (size : gt.size = W.frontierSize gt.frontier) :
    Tracks (W.treeFromFrontier gt.frontier) [] 0 0 (atFrontier fvk gt) where
  size_eq := by simp [laws.treeSize_fromFrontier, atFrontier, size]
  size_lt := by
    have le := laws.frontierSize_le gt.frontier
    have : TREE_CAPACITY < Checked.U64_BOUND := by decide
    show gt.size < Checked.U64_BOUND
    omega
  base_eq := by simp [laws.treeSize_fromFrontier, atFrontier, size]
  upto_eq := by simp [laws.treeSize_fromFrontier, atFrontier, size]
  base_le := le_rfl
  upto_le := le_rfl
  leaves_eq := rfl
  decoded_eq := by intro d hd; cases hd
  baseTree := rfl
  tip := rfl
  lag := rfl
  live := by intro pw hpw; cases hpw
  budget_le := le_rfl
  live_le := Nat.zero_le _

theorem tracks_fresh (fvk : W.Fvk) : Tracks W.treeEmpty [] 0 0 (fresh fvk) := by
  have size : (GlobalTree.new : GlobalTree P).size = W.frontierSize GlobalTree.new.frontier := by
    simp [GlobalTree.new, frontierSize, laws.frontierValue_empty]
  have empty : W.treeFromFrontier (GlobalTree.new : GlobalTree P).frontier = W.treeEmpty := laws.treeFromFrontier_empty
  have tracks := tracks_atFrontier laws fvk size
  rw [atFrontier, empty] at tracks
  exact tracks

theorem Started.tracks (h : Started db) : Tracks (W.treeFromFrontier db.baseFrontier) [] 0 0 db := by
  cases h with
  | fresh fvk =>
    have := tracks_fresh laws fvk
    rwa [← laws.treeFromFrontier_empty] at this
  | frontier h =>
    obtain ⟨gt, hgt, rfl⟩ := applyFrontier_fresh h
    exact tracks_atFrontier laws _ (frontierSize_of_fromState laws hgt)

/-! ## The decoded stream -/

theorem Tracks.decodedLeaves (h : Tracks t₀ ns b u db) : db.decodedLeaves = ns.drop b := by
  unfold WalletDb.decodedLeaves
  cases hd : db.decoded with
  | some d => exact h.decoded_eq d hd
  | none => rw [h.leaves_eq, GlobalTree.nodesFromBytes_map laws.toFrontierLaws]; rfl

theorem Tracks.warmLeaves (h : Tracks t₀ ns b u db) : Tracks t₀ ns b u db.warmLeaves :=
  { h with
    decoded_eq := by
      intro d hd
      cases hd
      exact h.decodedLeaves laws }

/-! ## The sweep -/

variable {leaf : P.Node}

omit laws in
theorem Live.sweep (h : Live t₀ ns u pw) (hleaf : ns[u]? = some leaf) :
    Live t₀ ns (u + 1) (pw.1, (W.witnessAppend pw.2 leaf).getD pw.2) := by
  obtain ⟨p, w₀, hp, hpos, hw₀, hw⟩ := h
  refine ⟨p, w₀, by omega, hpos, hw₀, ?_⟩
  have next : ns.take (u + 1) = ns.take u ++ [leaf] := by rw [take_add_one, hleaf]; rfl
  have long : p + 1 ≤ (ns.take u).length := by
    have := (List.getElem?_eq_some_iff.mp hleaf).1
    rw [length_take]
    omega
  rw [next, drop_append_of_le_length long, witnessFill_append, ← hw]
  rfl

variable {w : W.Witness}

omit laws in
/-- The witness opened at the leaf just appended. -/
theorem live_opened
    (h : W.witnessFromTree (W.treeFill t₀ (ns.take (u + 1))) = some w) : Live t₀ ns (u + 1) (W.treeSize t₀ + u, w) := by
  refine ⟨u, w, Nat.lt_succ_self u, rfl, h, ?_⟩
  have nothing : (ns.take (u + 1)).drop (u + 1) = [] := drop_take_self
  rw [nothing]
  rfl

omit laws in
theorem Tracks.sweepLeaf {eligible : List Nat} (h : Tracks t₀ ns b u db) (hleaf : ns[u]? = some leaf) :
    Tracks t₀ ns b (u + 1)
      { WalletDb.sweepLeaf eligible db (W.treeSize t₀ + u) leaf with witnessedUpto := W.treeSize t₀ + (u + 1) } := by
  have inside : u < ns.length := (List.getElem?_eq_some_iff.mp hleaf).1
  have next : ns.take (u + 1) = ns.take u ++ [leaf] := by rw [take_add_one, hleaf]; rfl
  have lag : (W.treeAppend db.lagTree leaf).getD db.lagTree = W.treeFill t₀ (ns.take (u + 1)) := by
    rw [next, treeFill_concat, ← h.lag]
  have base_le : b ≤ u + 1 := Nat.le_succ_of_le h.base_le
  refine { h with upto_eq := rfl, base_le := base_le, upto_le := inside, lag := lag, live := ?_, live_le := ?_ }
  · intro pw hpw
    rcases mem_append.mp hpw with old | opened
    · obtain ⟨pw, mem, rfl⟩ := mem_map.mp old
      exact (h.live pw mem).sweep hleaf
    · split at opened
      · rw [Option.mem_toList, Option.map_eq_some_iff] at opened
        obtain ⟨w, hw, rfl⟩ := opened
        rw [lag] at hw
        exact live_opened hw
      · cases opened
  · have count := h.live_le
    have budget := h.budget_le
    simp only [WalletDb.sweepLeaf, length_append, length_map]
    split
    · rename_i room
      cases W.witnessFromTree ((W.treeAppend db.lagTree leaf).getD db.lagTree) with
      | none => simpa using count
      | some w =>
        have := room.2
        simp only [Option.map_some, Option.toList_some, length_singleton]
        omega
    · simpa using count

theorem Tracks.sweep (eligible : List Nat) (n : Nat) (db : WalletDb W)
    (h : Tracks t₀ ns b u { db with witnessedUpto := W.treeSize t₀ + u })
    (fits : u + n ≤ ns.length) :
    Tracks t₀ ns b (u + n)
      { WalletDb.sweep eligible n (W.treeSize t₀ + u) db with witnessedUpto := W.treeSize t₀ + (u + n) } := by
  induction n generalizing u db with
  | zero => exact h
  | succ n ih =>
    have inside : u < ns.length := by omega
    have base : db.baseSize = W.treeSize t₀ + b := h.base_eq
    have decoded : WalletDb.decodedLeaves { db with witnessedUpto := W.treeSize t₀ + u } = ns.drop b :=
      h.decodedLeaves laws
    have decoded : db.decodedLeaves = ns.drop b := decoded
    have index : W.treeSize t₀ + u - (W.treeSize t₀ + b) = u - b := by omega
    have hleaf : db.decodedLeaves[W.treeSize t₀ + u - db.baseSize]? = some ns[u] := by
      have := h.base_le
      rw [base, decoded, index, getElem?_drop, Nat.add_sub_cancel' this]
      exact getElem?_eq_getElem inside
    have step : Tracks t₀ ns b (u + 1) { WalletDb.sweepLeaf eligible db (W.treeSize t₀ + u) ns[u] with
        witnessedUpto := W.treeSize t₀ + (u + 1) } := h.sweepLeaf (getElem?_eq_getElem inside)
    have rest := ih _ step (by omega)
    rw [WalletDb.sweep, hleaf]
    rwa [Nat.add_assoc, Nat.add_comm 1 n] at rest

omit laws in
theorem Tracks.retainWitnesses (h : Tracks t₀ ns b u db) (eligible : List Nat) :
    Tracks t₀ ns b u (db.retainWitnesses eligible) :=
  { h with
    live := fun pw hpw => h.live pw (mem_of_mem_filter hpw)
    live_le := (length_filter_le _ _).trans h.live_le }

theorem Tracks.advanceWitnessesCapped (target maxLeaves : Nat) (h : Tracks t₀ ns b u db) :
    ∃ u', Tracks t₀ ns b u' (db.advanceWitnessesCapped target maxLeaves).1 := by
  have start : max db.witnessedUpto db.baseSize = W.treeSize t₀ + u := by
    have := h.base_le
    rw [h.upto_eq, h.base_eq]
    omega
  obtain same | ⟨t, ahead, le, eq⟩ := advanceWitnessesCapped_cases db target maxLeaves
  · exact ⟨u, by rw [same]; exact h⟩
  · rw [start] at ahead eq
    have begun : Tracks t₀ ns b u { db.warmLeaves.retainWitnesses db.witnessEligible with
        witnessedUpto := W.treeSize t₀ + u } :=
      { (h.warmLeaves laws).retainWitnesses db.witnessEligible with upto_eq := rfl }
    have fits : u + (t - (W.treeSize t₀ + u)) ≤ ns.length := by
      have := h.size_eq
      omega
    have swept := Tracks.sweep laws db.witnessEligible (t - (W.treeSize t₀ + u)) _ begun fits
    have reached : W.treeSize t₀ + (u + (t - (W.treeSize t₀ + u))) = t := by omega
    rw [reached] at swept
    exact ⟨_, by rw [eq]; exact swept⟩

/-! ## Compaction -/

theorem Tracks.rollBase {tree : W.Tree} {rel : Nat} (h : Tracks t₀ ns b u db) (fits : b + rel ≤ ns.length)
    (htree : W.treeExtend (W.treeFromFrontier db.baseFrontier) (db.decodedLeaves.take rel) = some tree) :
    ∃ u', Tracks t₀ ns (b + rel) u' (db.rollBase (W.treeSize t₀ + (b + rel)) tree).realign := by
  have moved : W.treeSize t₀ + (b + rel) - db.baseSize = rel := by
    rw [h.base_eq]
    omega
  have extended : W.treeExtend t₀ (ns.take (b + rel)) = some tree := by
    rw [h.decodedLeaves laws] at htree
    rw [take_add, treeExtend_append, h.baseTree]
    exact htree
  have leaves : db.leaves.drop rel = (ns.drop (b + rel)).map P.nodeToBytes := by
    rw [h.leaves_eq, ← map_drop, drop_drop]
  have decoded : ∀ d, db.decoded.map (·.drop rel) = some d → d = ns.drop (b + rel) := by
    intro d hd
    obtain ⟨e, he, rfl⟩ := Option.map_eq_some_iff.mp hd
    rw [h.decoded_eq e he, drop_drop]
  have base : W.treeExtend t₀ (ns.take (b + rel)) = some (W.treeFromFrontier (W.treeToFrontier tree)) := by
    rw [laws.treeFromFrontier_toFrontier, extended]
  unfold WalletDb.realign WalletDb.rollBase
  rw [moved]
  dsimp only
  split
  · -- the sweep is behind the new base: no witness is above it
    rename_i behind
    have behind : u < b + rel := by
      rw [h.upto_eq] at behind
      omega
    have none_left : db.witnesses.filter (fun pw => decide (W.treeSize t₀ + (b + rel) ≤ pw.1)) = [] := by
      rw [filter_eq_nil_iff]
      intro pw hpw
      obtain ⟨p, -, hp, hpos, -⟩ := h.live pw hpw
      rw [decide_eq_true_eq, hpos]
      omega
    exact ⟨b + rel,
      { h with
        base_eq := rfl
        upto_eq := rfl
        base_le := le_rfl
        upto_le := fits
        leaves_eq := leaves
        decoded_eq := decoded
        baseTree := base
        lag := by rw [laws.treeFromFrontier_toFrontier]; exact (treeFill_of_extend extended).symm
        live := by
          intro pw hpw
          rw [none_left] at hpw
          cases hpw
        live_le := by rw [none_left]; exact Nat.zero_le _ }⟩
  · rename_i ahead
    have ahead : b + rel ≤ u := by
      rw [h.upto_eq] at ahead
      omega
    exact ⟨u, { h with base_eq := rfl, base_le := ahead, leaves_eq := leaves, decoded_eq := decoded, baseTree := base }⟩

theorem Tracks.advanceBaseCapped (target maxLeaves : Nat) (h : Tracks t₀ ns b u db) :
    ∃ b' u', Tracks t₀ ns b' u' (db.advanceBaseCapped target maxLeaves).1 := by
  obtain same | warmed | ⟨step, tree, ge, -, le, htree, eq⟩ := advanceBaseCapped_cases db target maxLeaves
  · exact ⟨b, u, by rw [same]; exact h⟩
  · exact ⟨b, u, by rw [warmed]; exact h.warmLeaves laws⟩
  · have warm := h.warmLeaves laws
    have place : W.treeSize t₀ + (b + (step - db.baseSize)) = step := by
      have := h.base_eq
      omega
    have fits : b + (step - db.baseSize) ≤ ns.length := by
      have := h.size_eq
      omega
    obtain ⟨u', rolled⟩ := warm.rollBase laws fits htree
    rw [place] at rolled
    exact ⟨_, u', by rw [eq]; exact rolled⟩

/-! ## Rebuilt witnesses -/

/-- A rebuild replays the stream from the base: it gives the witness of the whole stream. -/
theorem Tracks.rebuildWitness {position matured : Nat} (h : Tracks t₀ ns b u db)
    (hw : db.rebuildWitness position matured = some w) :
    ∃ p m, position = W.treeSize t₀ + p ∧ matured = W.treeSize t₀ + m ∧ b ≤ p ∧ p < m ∧ m ≤ ns.length ∧
      W.witnessOver t₀ (ns.take m) p = some w := by
  unfold WalletDb.rebuildWitness at hw
  dsimp only at hw
  split at hw
  · cases hw
  · rename_i above
    split at hw
    · cases hw
    · rename_i inside
      rw [h.decodedLeaves laws] at inside hw
      rw [h.base_eq] at above inside hw
      rw [length_drop] at inside
      have hb : b ≤ ns.length := h.base_le.trans h.upto_le
      refine ⟨position - W.treeSize t₀, matured - W.treeSize t₀, by omega, by omega, by omega, by omega, by omega, ?_⟩
      have cut : ns.take (matured - W.treeSize t₀) =
          ns.take b ++ (ns.drop b).take (matured - (W.treeSize t₀ + b)) := by
        rw [← take_add]
        congr 1
        omega
      have index : position - W.treeSize t₀ = (ns.take b).length + (position - (W.treeSize t₀ + b)) := by
        rw [length_take_of_le hb]
        omega
      rw [cut, index, witnessOver_append h.baseTree]
      exact hw

omit laws in
/-- The witness over a stretch of the stream is live at its end. -/
theorem live_of_witnessOver {p : Nat} (hp : p < u) (h : W.witnessOver t₀ (ns.take u) p = some w) :
    Live t₀ ns u (W.treeSize t₀ + p, w) := by
  obtain ⟨t, w₀, ht, hw₀, hw⟩ := witnessOver_eq_some_iff.mp h
  rw [take_take, min_eq_left (by omega)] at ht
  refine ⟨p, w₀, hp, rfl, ?_, (witnessFill_of_extend hw).symm⟩
  rw [treeFill_of_extend ht, hw₀]

theorem Tracks.installWitness (position target : Nat) (h : Tracks t₀ ns b u db) :
    Tracks t₀ ns b u (db.installWitness position target).1 := by
  obtain same | warmed | ⟨w, here, room, hw, eq⟩ := installWitness_cases db position target
  · rw [same]
    exact h
  · rw [warmed]
    exact h.warmLeaves laws
  · obtain ⟨p, m, hp, hm, -, lt, -, hover⟩ := h.rebuildWitness laws hw
    have hu : m = u := by
      have := h.upto_eq
      omega
    subst hu
    rw [eq]
    exact
      { h.warmLeaves laws with
        live := by
          intro pw hpw
          rcases mem_append.mp hpw with old | new
          · exact h.live pw old
          · rw [mem_singleton.mp new, hp]
            exact live_of_witnessOver lt hover
        live_le := by
          have := h.budget_le
          rw [length_append, length_singleton]
          exact Nat.lt_of_lt_of_le room this }

/-! ## Runs -/

omit laws in
/-- The leaves a call appends. -/
def opLeaves (db : WalletDb W) : WalletOp P → List P.Cmx
  | .ingest block _ => eventLeaves (blockEvents db.fvk db.spentNullifiers block)
  | _ => []

theorem tracks_apply {op : WalletOp P} (h : Tracks t₀ ns b u db) (hop : db.apply op = some db') :
    ∃ b' u', Tracks t₀ (ns ++ (db.opLeaves op).map P.fromCmx) b' u' db' := by
  cases op with
  | ingest block info => exact ⟨b, u, h.ingest hop⟩
  | markSpent position txid submittedDaa =>
    cases hop
    refine ⟨b, u, ?_⟩
    simp only [opLeaves, map_nil, append_nil]
    unfold WalletDb.markSpent
    split
    · exact { h with }
    · exact h
  | reclaimExpired now maxAge =>
    cases hop
    refine ⟨b, u, ?_⟩
    simp only [opLeaves, map_nil, append_nil]
    exact { h with }
  | setWitnessBudget budget =>
    cases hop
    refine ⟨b, u, ?_⟩
    simp only [opLeaves, map_nil, append_nil]
    exact { h with budget_le := min_le_right _ _ }
  | advanceWitnessesCapped target maxLeaves =>
    cases hop
    simp only [opLeaves, map_nil, append_nil]
    exact ⟨b, h.advanceWitnessesCapped laws target maxLeaves⟩
  | advanceBaseCapped target maxLeaves =>
    cases hop
    simp only [opLeaves, map_nil, append_nil]
    exact h.advanceBaseCapped laws target maxLeaves
  | installWitness position target =>
    cases hop
    simp only [opLeaves, map_nil, append_nil]
    exact ⟨b, u, h.installWitness laws position target⟩
  | warmLeaves =>
    cases hop
    simp only [opLeaves, map_nil, append_nil]
    exact ⟨b, u, h.warmLeaves laws⟩

theorem tracks_run {ops : List (WalletOp P)} (h : Tracks t₀ ns b u db) (hrun : db.run ops = some db') :
    ∃ ns' b' u', Tracks t₀ ns' b' u' db' := by
  induction hrun using Option.foldlM_induction generalizing ns b u with
  | nil => exact ⟨ns, b, u, h⟩
  | cons op ops db db₁ hop _ ih =>
    obtain ⟨b₁, u₁, h₁⟩ := tracks_apply laws h hop
    exact ih h₁

end WalletDb

end Firecash
