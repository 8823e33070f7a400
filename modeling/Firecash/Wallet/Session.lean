import Firecash.Wallet.RoundTrip

/-!
# Spend paths over whole sessions

A session is a sequence of calls and restarts. The wallet starts at the leaves a node has (none, for a
fresh one) and is fed the rest of the stream. Wherever a path comes from, a live witness or a rebuild,
before or after any number of restarts, it leads from the leaf it is asked for to the anchor consensus
has at that leaf count (`spend_path_anchored`).

The wallet goes on counting leaves after the tree is full. A note past the capacity of the tree gets no
path (`pastCapacity_noPath`), so the result is about the leaf counts a tree has.
-/

namespace Firecash

open WalletPrim List Option Except GlobalTree

variable {P : Prim} {W : WalletPrim P}

inductive SessionOp (P : Prim) where
  | call (op : WalletOp P)
  /-- `to_checkpoint`, then one of the `from_checkpoint` functions. -/
  | restart (key : WalletKey) (tip : Option FrontierState)

namespace WalletDb

/-- `none`: the call panics, or the wallet is not restored. -/
def step (db : WalletDb W) : SessionOp P → Option (WalletDb W)
  | .call op => db.apply op
  | .restart key tip => do
    let bytes ← db.toCheckpoint
    (restoreWith W key bytes tip).toOption

def session (db : WalletDb W) (ops : List (SessionOp P)) : Option (WalletDb W) := ops.foldlM step db

def stepLeaves (db : WalletDb W) : SessionOp P → List P.Cmx
  | .call op => db.opLeaves op
  | .restart .. => []

/-- The leaves appended in a session. -/
def appended : WalletDb W → List (SessionOp P) → List P.Cmx
  | _, [] => []
  | db, op :: ops => db.stepLeaves op ++ (db.step op).elim [] fun db' => appended db' ops

/-- A wallet that has just been created where the chain has the leaves `pre`. -/
inductive Opened : List P.Cmx → WalletDb W → Prop
  | fresh (fvk : W.Fvk) : Opened [] (fresh fvk)
  | frontier {pre : List P.Cmx} {gt : GlobalTree P} {fvk : W.Fvk} {db : WalletDb W} (hgt : ofLeaves pre = .ok gt)
      (h : (WalletDb.fresh fvk).applyFrontier gt.toState = some db) : Opened pre db

variable {pre : List P.Cmx}

theorem Opened.started {db : WalletDb W} (h : Opened pre db) : Started db := by
  cases h with
  | fresh fvk => exact .fresh fvk
  | frontier _ h => exact .frontier h

variable {t₀ : W.Tree} {ns : List P.Node} {b u : Nat} {db db' : WalletDb W} {rec : List (OwnedNote W)}
    (laws : IncrementalLaws W)

include laws

/-! ## Restarts -/

omit laws in
/-- A restored wallet is at the same place of the stream; without its witnesses it is back at its base. -/
theorem Tracks.restored (h : Tracks t₀ ns b u db) (fvk : W.Fvk) : ∃ u', Tracks t₀ ns b u' (db.restored fvk) := by
  have noCache : ∀ d, (db.restored fvk).decoded = some d → d = ns.drop b := fun d hd => nomatch hd
  by_cases owned : db.WitnessesOwned
  · have witnesses : (db.restored fvk).witnesses = db.witnesses := if_pos owned
    have lag : (db.restored fvk).lagTree = db.lagTree := if_pos owned
    have upto : (db.restored fvk).witnessedUpto = db.witnessedUpto := if_pos owned
    exact ⟨u,
      { size_eq := h.size_eq
        size_lt := h.size_lt
        base_eq := h.base_eq
        upto_eq := by rw [upto, h.upto_eq]
        base_le := h.base_le
        upto_le := h.upto_le
        leaves_eq := h.leaves_eq
        decoded_eq := noCache
        baseTree := h.baseTree
        tip := h.tip
        lag := by rw [lag, h.lag]
        live := by rw [witnesses]; exact h.live
        budget_le := le_rfl
        live_le := by rw [witnesses]; exact h.live_le }⟩
  · have witnesses : (db.restored fvk).witnesses = [] := if_neg owned
    have lag : (db.restored fvk).lagTree = W.treeFromFrontier db.baseFrontier := if_neg owned
    have upto : (db.restored fvk).witnessedUpto = db.baseSize := if_neg owned
    exact ⟨b,
      { size_eq := h.size_eq
        size_lt := h.size_lt
        base_eq := h.base_eq
        upto_eq := by rw [upto, h.base_eq]
        base_le := le_rfl
        upto_le := h.base_le.trans h.upto_le
        leaves_eq := h.leaves_eq
        decoded_eq := noCache
        baseTree := h.baseTree
        tip := h.tip
        lag := by rw [lag, treeFill_of_extend h.baseTree]
        live := by rw [witnesses]; exact fun pw hpw => nomatch hpw
        budget_le := le_rfl
        live_le := by rw [witnesses]; exact Nat.zero_le _ }⟩

theorem restart_cases {key : WalletKey} {tip : Option FrontierState} (h : Tracks t₀ ns b u db)
    (books : Accounts False rec db) (hop : db.step (.restart key tip) = some db') : ∃ fvk, db' = db.restored fvk := by
  obtain ⟨bytes, hcp, read⟩ := bind_eq_some_iff.mp hop
  have read := toOption_eq_some_iff.mp read
  obtain ⟨db₁, opened, -⟩ := bind_eq_ok_iff.mp read
  have opened := ofOption_eq_ok_iff.mp opened
  obtain ⟨fvk, rfl⟩ := WalletKey.wallet_eq_fresh opened
  rw [restoreWith_eq opened, h.restore_eq laws books hcp] at read
  split at read
  · exact ⟨fvk, (ok.inj read).symm⟩
  · cases read

/-- Every step of a session keeps the wallet on its stream and its notes inside it. -/
theorem session_step {op : SessionOp P} (h : Tracks t₀ ns b u db) (books : Accounts False rec db)
    (hop : db.step op = some db') :
    (∃ b' u', Tracks t₀ (ns ++ (db.stepLeaves op).map P.fromCmx) b' u' db') ∧ ∃ rec', Accounts False rec' db' := by
  cases op with
  | call op => exact ⟨tracks_apply laws h hop, _, accounts_apply books False.elim hop⟩
  | restart key tip =>
    obtain ⟨fvk, rfl⟩ := restart_cases laws h books hop
    obtain ⟨u', restored⟩ := h.restored fvk
    refine ⟨⟨b, u', ?_⟩, rec, books.of_same rfl rfl rfl rfl rfl⟩
    rw [stepLeaves, map_nil, append_nil]
    exact restored

theorem tracks_session {ops : List (SessionOp P)} (h : Tracks t₀ ns b u db) (books : Accounts False rec db)
    (hrun : db.session ops = some db') : ∃ b' u', Tracks t₀ (ns ++ (db.appended ops).map P.fromCmx) b' u' db' := by
  induction hrun using foldlM_induction generalizing ns b u rec with
  | nil => exact ⟨b, u, by rwa [appended, map_nil, append_nil]⟩
  | cons op ops db db₁ hop _ ih =>
    obtain ⟨⟨b₁, u₁, h₁⟩, rec₁, books₁⟩ := session_step laws h books hop
    rw [appended, hop, map_append, ← append_assoc]
    exact ih h₁ books₁

/-! ## Anchors -/

theorem Opened.treeExtend (h : Opened pre db) :
    W.treeExtend W.treeEmpty (pre.map P.fromCmx) = some (W.treeFromFrontier db.baseFrontier) := by
  cases h with
  | fresh fvk =>
    show some W.treeEmpty = some (W.treeFromFrontier P.frontierEmpty)
    rw [laws.treeFromFrontier_empty]
  | frontier hgt h =>
    rename_i gt fvk
    have base : db.baseFrontier = gt.frontier := by
      obtain ⟨gt', read, rfl⟩ := applyFrontier_fresh h
      rw [fromState_toState laws.toFrontierLaws hgt] at read
      cases read
      rfl
    have frontier := ofLeaves_frontier hgt
    rw [laws.frontierOf_eq] at frontier
    obtain ⟨t, ht, same⟩ := map_eq_some_iff.mp frontier
    rw [ht, base, ← same, laws.treeFromFrontier_toFrontier]

variable {leaves : List P.Cmx}

/-- Consensus has a tree for every leaf sequence that fits. -/
theorem exists_ofLeaves (fits : leaves.length ≤ TREE_CAPACITY) :
    ∃ gt : GlobalTree P, ofLeaves leaves = .ok gt := by
  have general : ∀ (leaves : List P.Cmx) (t : W.Tree) (gt : GlobalTree P), W.treeToFrontier t = gt.frontier →
      W.treeSize t + leaves.length ≤ TREE_CAPACITY → ∃ gt', gt.appendSubtree leaves = .ok gt' := by
    intro leaves
    induction leaves with
    | nil => exact fun t gt _ _ => ⟨gt, rfl⟩
    | cons cmx leaves ih =>
      intro t gt same fits
      rw [length_cons] at fits
      have room : (W.treeAppend t (P.fromCmx cmx)).isSome := laws.treeAppend_isSome.mpr (by omega)
      obtain ⟨t₁, ht₁⟩ := isSome_iff_exists.mp room
      have frontier := laws.treeAppend_toFrontier t (P.fromCmx cmx)
      rw [ht₁, same, map_some] at frontier
      have size := laws.treeSize_append ht₁
      obtain ⟨gt', h⟩ := ih t₁ ⟨W.treeToFrontier t₁, gt.size + 1⟩ rfl (by omega)
      refine ⟨gt', ?_⟩
      rw [appendSubtree, append, ← frontier]
      exact h
  have start : W.treeToFrontier W.treeEmpty = (new : GlobalTree P).frontier := by
    rw [← laws.treeFromFrontier_empty, laws.treeToFrontier_fromFrontier]
    rfl
  exact general leaves W.treeEmpty .new start (by rw [laws.treeSize_empty]; omega)

theorem anchor_of_ne_nil {gt : GlobalTree P} (h : ofLeaves leaves = .ok gt) (ne : leaves ≠ []) :
    gt.anchor = P.frontierRoot gt.frontier := by
  have value := laws.value_eq_none (ofLeaves_frontier h)
  unfold GlobalTree.anchor
  cases hv : P.frontierValue gt.frontier with
  | none => exact absurd (map_eq_nil_iff.mp (value.mp hv)) ne
  | some parts => rfl

/-- **Every path leads to the anchor of its leaf count.** -/
theorem spend_path_anchored {pre : List P.Cmx} {db₀ db : WalletDb W} {ops : List (SessionOp P)} (position matured : Nat)
    (start : Opened pre db₀) (hrun : db₀.session ops = some db) (room : matured ≤ TREE_CAPACITY) :
    db.size = (pre ++ db₀.appended ops).length ∧
      (∀ path, db.witnessPathAt position matured = some path →
        ∃ gt cmx, ofLeaves ((pre ++ db₀.appended ops).take matured) = .ok gt ∧ gt.size = matured ∧
          (pre ++ db₀.appended ops)[position]? = some cmx ∧ path.root W (P.fromCmx cmx) = gt.anchor) ∧
      (db.baseSize ≤ position → position < matured → matured ≤ db.size →
        (db.witnessPathAt position matured).isSome) := by
  have hpre := start.treeExtend laws
  have started := start.started
  have books : Accounts False [] db₀ := started.accounts
  obtain ⟨b, u, tracks⟩ := tracks_session laws (started.tracks laws) books hrun
  rw [nil_append] at tracks
  have offset : W.treeSize (W.treeFromFrontier db₀.baseFrontier) = pre.length := by
    rw [laws.treeSize_extend hpre, laws.treeSize_empty, length_map, Nat.zero_add]
  have size := tracks.size_eq
  rw [offset, length_map] at size
  refine ⟨by rw [size, length_append], fun path hpath => ?_, fun above inside held =>
    tracks.witnessPathAt_isSome laws above inside held room⟩
  obtain ⟨p, m, w, elems, hp, hm, lt, le, hover, helems, ho⟩ := tracks.witnessPathAt laws room hpath
  rw [offset] at hp hm
  rw [length_map] at le
  have cut : (pre ++ db₀.appended ops).take matured = pre ++ (db₀.appended ops).take m := by
    rw [hm, take_length_add_append]
  have length : (pre ++ (db₀.appended ops).take m).length = matured := by
    rw [length_append, length_take_of_le le, hm]
  obtain ⟨gt, hgt⟩ : ∃ gt : GlobalTree P, ofLeaves (pre ++ (db₀.appended ops).take m) = .ok gt :=
    exists_ofLeaves laws (by omega)
  have frontier := ofLeaves_frontier hgt
  rw [map_append, map_take] at frontier
  obtain ⟨leaf, hleaf, root⟩ := path_root_of_witnessOver laws hpre lt (by rwa [length_map]) frontier hover helems ho
  rw [getElem?_map, map_eq_some_iff] at hleaf
  obtain ⟨cmx, hcmx, rfl⟩ := hleaf
  have ne : pre ++ (db₀.appended ops).take m ≠ [] := by
    intro nil
    rw [nil, length_nil] at length
    omega
  refine ⟨gt, cmx, by rw [cut, hgt], by rw [ofLeaves_size hgt, length], ?_, ?_⟩
  · rw [hp, getElem?_append_right (by omega), Nat.add_sub_cancel_left, hcmx]
  · rw [root, anchor_of_ne_nil laws hgt ne]

/-- A leaf past the capacity of the tree has no witness to rebuild. -/
theorem Tracks.rebuildWitness_pastCapacity {position : Nat} (h : Tracks t₀ ns b u db) (past : TREE_CAPACITY ≤ position)
    (matured : Nat) : db.rebuildWitness position matured = none := by
  cases hw : db.rebuildWitness position matured with
  | none => rfl
  | some w =>
    obtain ⟨p, m, hp, -, -, lt, le, hover⟩ := h.rebuildWitness laws hw
    obtain ⟨t, -, ht, -⟩ := witnessOver_eq_some_iff.mp hover
    have size := laws.treeSize_extend ht
    have capacity := laws.treeSize_le t
    rw [take_take, length_take_of_le (by omega)] at size
    omega

omit laws

/-! ## Two sessions -/

/-- The note is mined and witnessed, the wallet restarted; then it mines another note, and somebody else one. -/
def minedAndRestarted : List (SessionOp leafPrim) :=
  minedAndWitnessed.map .call ++
    [.restart (.seed 7) none, .call (.ingest (.compact [(⟨7, 50, 0⟩, 6), (⟨8, 60, 0⟩, 1)] []) none)]

/-- The path of the first note at two leaves of three. -/
theorem minedAndRestarted_anchored : ∃ db path gt, (fresh (W := leafLists) 7).session minedAndRestarted = some db ∧
    (fresh (W := leafLists) 7).appended minedAndRestarted = [45, 56, 61] ∧ db.witnessPathAt 0 2 = some path ∧
    ofLeaves (P := leafPrim) [45, 56] = .ok gt ∧ path.root leafLists 45 = gt.anchor := by
  have reached : ((fresh (W := leafLists) 7).session minedAndRestarted).any fun db =>
      decide (db.baseSize = 0 ∧ db.size = 3) := by
    decide +kernel
  have stream : (fresh (W := leafLists) 7).appended minedAndRestarted = [45, 56, 61] := by decide +kernel
  obtain ⟨db, hrun, facts⟩ := (Option.any_eq_true ..).mp reached
  obtain ⟨base, size⟩ := of_decide_eq_true facts
  have room : 2 ≤ TREE_CAPACITY := by decide
  obtain ⟨-, anchored, given⟩ :=
    spend_path_anchored leafLists_laws 0 2 (Opened.fresh (W := leafLists) 7) hrun room
  obtain ⟨path, hpath⟩ := isSome_iff_exists.mp (given (by omega) (by omega) (by omega))
  obtain ⟨gt, cmx, hgt, -, leaf, root⟩ := anchored path hpath
  rw [stream] at hgt leaf
  obtain rfl : 45 = cmx := some.inj leaf
  exact ⟨db, path, gt, hrun, stream, hpath, hgt, root⟩

/-- A wallet of key 7 that mines the note appends its leaf. -/
theorem apply_mined {db : WalletDb leafLists} (hkey : db.fvk = 7) :
    db.apply (.ingest (.compact [(minedNote, 5)] []) none) = db.appendLeaf 45 (some ⟨7, 5, 40, 0⟩) := by
  have owned : recoverCoinbaseNote db.fvk minedNote 5 = some ⟨7, 5, 40, 0⟩ := by
    rw [hkey]
    decide +kernel
  have notes : committedNotes leafLists [(minedNote, 5)] = [(minedNote, 5, 45)] := by decide +kernel
  have step : ingestCoinbaseNote none db (minedNote, 5, 45) = db.appendLeaf 45 (some ⟨7, 5, 40, 0⟩) := by
    unfold ingestCoinbaseNote
    rw [owned]
  refine (db.ingestBlockCompactWithMeta_eq [(minedNote, 5)] [] none).trans ?_
  show (do
    let db ← (committedNotes leafLists [(minedNote, 5)]).foldlM (ingestCoinbaseNote none) db
    db.ingestBundlesCompact [] none) = _
  rw [notes, foldlM_cons, step]
  cases db.appendLeaf 45 (some ⟨7, 5, 40, 0⟩) <;> rfl

/-- As many leaves as a tree holds. -/
def fullTree : List Bytes32 := replicate TREE_CAPACITY 0

/-- A wallet opened at a full tree mines one more note: at its base, below its tip, and without a path. -/
theorem pastCapacity_noPath : ∃ db₀ db : WalletDb leafLists, Opened fullTree db₀ ∧
    db₀.session [.call (.ingest (.compact [(minedNote, 5)] []) none)] = some db ∧
    ∃ n ∈ db.held, db.baseSize ≤ n.position ∧ n.position + 1 ≤ db.size ∧
      db.witnessPathAt n.position (n.position + 1) = none := by
  have length : fullTree.length = TREE_CAPACITY := length_replicate
  obtain ⟨gt, hgt⟩ : ∃ gt : GlobalTree leafPrim, ofLeaves fullTree = .ok gt :=
    exists_ofLeaves leafLists_laws length.le
  have size : gt.size = TREE_CAPACITY := by rw [ofLeaves_size hgt, length]
  obtain ⟨db₀, opened, hkey, hbase, hupto, hsize⟩ : ∃ db₀, (fresh (W := leafLists) 7).applyFrontier gt.toState =
    some db₀ ∧
      db₀.fvk = 7 ∧ db₀.baseSize = TREE_CAPACITY ∧ db₀.witnessedUpto = TREE_CAPACITY ∧ db₀.size = TREE_CAPACITY := by
    unfold applyFrontier
    rw [if_neg (by simp [fresh]), fromState_toState leafPrim_frontierLaws hgt]
    exact ⟨_, rfl, rfl, size, size, size⟩
  have start : Opened fullTree db₀ := .frontier hgt opened
  obtain ⟨db, mined, base, upto, tip, n, hn, position⟩ : ∃ db,
      db₀.apply (.ingest (.compact [(minedNote, 5)] []) none) = some db ∧ db.baseSize = TREE_CAPACITY ∧
        db.witnessedUpto = TREE_CAPACITY ∧ db.size = TREE_CAPACITY + 1 ∧ ∃ n ∈ db.held, n.position = TREE_CAPACITY := by
    have room : db₀.size + 1 < Checked.U64_BOUND := by
      rw [hsize]
      decide
    rw [apply_mined hkey, appendLeaf, if_pos room]
    refine ⟨_, rfl, hbase, hupto, by rw [hsize], ⟨⟨7, 5, 40, 0⟩, db₀.size, 41⟩, ?_, hsize⟩
    exact mem_append_left _ (mem_append_right _ mem_cons_self)
  obtain ⟨b, u, tracks⟩ := tracks_apply leafLists_laws (start.started.tracks leafLists_laws) mined
  refine ⟨db₀, db, start, ?_, n, hn, by omega, by omega, ?_⟩
  · rw [session, foldlM_cons, step, mined]
    rfl
  · have live : db.liveWitnessPath n.position (n.position + 1) = none := if_pos (by omega)
    rw [witnessPathAt, live, tracks.rebuildWitness_pastCapacity leafLists_laws position.ge]
    rfl

end WalletDb

end Firecash
