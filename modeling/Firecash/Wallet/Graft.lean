import Firecash.Wallet.LeafLists
import Firecash.Wallet.Paths

/-!
# Grafting history back (shielded-core/src/walletdb.rs)

`graft_history` (walletdb.rs:1113) moves the base of a wallet back to that of an older snapshot of it and
puts the leaves between the two bases in front of its own. It compares the two leaf streams where they
overlap, which is at and above the wallet's base: of the leaves that it takes over it compares none. So
the wallet's trees stay what they were exactly if the snapshot's leaves lead to the wallet's base
(`Reaches`), and the function does not look whether they do.
-/

namespace Firecash

open WalletPrim List

variable {P : Prim} {W : WalletPrim P}

namespace WalletDb

/-- `graft_history` (walletdb.rs:1113): the wallet after the call, and what it returns. -/
def graftHistory (db older : WalletDb W) : WalletDb W × Except String Nat :=
  if W.addressBytes older.fvk ≠ W.addressBytes db.fvk then (db, .error "snapshots belong to different wallets")
  else if older.baseSize > db.baseSize then (db, .error "snapshot is not older: its base is ahead of this wallet's")
  else
    let gap := db.baseSize - older.baseSize
    if gap = 0 then (db, .ok 0)
    else if older.leaves.length < gap then (db, .error "older snapshot's leaf stream does not reach this wallet's base")
    else
      let n := min (older.leaves.length - gap) db.leaves.length
      if (older.leaves.drop gap).take n ≠ db.leaves.take n then
        (db, .error "snapshots disagree where their leaf streams overlap")
      else
        ({ db with
            leaves := older.leaves.take gap ++ db.leaves
            baseFrontier := older.baseFrontier
            baseSize := older.baseSize
            decoded := none },
          .ok gap)

/-- The tree after `m` leaves, as a rebuild gets it from the base frontier and the stored leaves. -/
def treeAt (db : WalletDb W) (m : Nat) : Option W.Tree :=
  if m < db.baseSize ∨ db.baseSize + db.decodedLeaves.length < m then none
  else W.treeExtend (W.treeFromFrontier db.baseFrontier) (db.decodedLeaves.take (m - db.baseSize))

variable {m : Nat}

theorem le_of_treeAt {db : WalletDb W} {t : W.Tree} (h : db.treeAt m = some t) :
    m ≤ db.baseSize + db.decodedLeaves.length := by
  unfold treeAt at h
  split at h
  · cases h
  · omega

/-- The base frontier, the leaves, the tip tree and the sizes describe one tree. -/
structure Coherent (db : WalletDb W) (ns : List P.Node) : Prop where
  base : db.baseSize = W.frontierSize db.baseFrontier
  leaves : db.leaves = ns.map P.nodeToBytes
  decoded : ∀ d, db.decoded = some d → d = ns
  tip : W.treeExtend (W.treeFromFrontier db.baseFrontier) ns = some db.tree
  size : db.size = db.baseSize + ns.length

/-- The leaves of `older` lead from its base to that of `db`. -/
def Reaches (older db : WalletDb W) : Prop :=
  older.baseSize = db.baseSize ∨
    W.treeExtend (W.treeFromFrontier older.baseFrontier) (older.decodedLeaves.take (db.baseSize - older.baseSize)) =
      some (W.treeFromFrontier db.baseFrontier)

variable {db older db' : WalletDb W} {ns os : List P.Node}

/-- What a graft can do: fail and change nothing, find no gap and change nothing, or fill the gap. -/
theorem graftHistory_cases (db older : WalletDb W) :
    (∃ e, db.graftHistory older = (db, .error e)) ∨
      (older.baseSize = db.baseSize ∧ db.graftHistory older = (db, .ok 0)) ∨
      (older.baseSize < db.baseSize ∧ db.baseSize - older.baseSize ≤ older.leaves.length ∧
        db.graftHistory older =
          ({ db with
              leaves := older.leaves.take (db.baseSize - older.baseSize) ++ db.leaves
              baseFrontier := older.baseFrontier
              baseSize := older.baseSize
              decoded := none },
            .ok (db.baseSize - older.baseSize))) := by
  unfold graftHistory
  by_cases wallet : W.addressBytes older.fvk ≠ W.addressBytes db.fvk
  · rw [if_pos wallet]
    exact .inl ⟨_, rfl⟩
  rw [if_neg wallet]
  by_cases ahead : older.baseSize > db.baseSize
  · rw [if_pos ahead]
    exact .inl ⟨_, rfl⟩
  rw [if_neg ahead]
  by_cases none : db.baseSize - older.baseSize = 0
  · rw [if_pos none]
    exact .inr (.inl ⟨by omega, rfl⟩)
  rw [if_neg none]
  by_cases short : older.leaves.length < db.baseSize - older.baseSize
  · rw [if_pos short]
    exact .inl ⟨_, rfl⟩
  rw [if_neg short]
  by_cases differ : (older.leaves.drop (db.baseSize - older.baseSize)).take
      (min (older.leaves.length - (db.baseSize - older.baseSize)) db.leaves.length) ≠
        db.leaves.take (min (older.leaves.length - (db.baseSize - older.baseSize)) db.leaves.length)
  · rw [if_pos differ]
    exact .inl ⟨_, rfl⟩
  · rw [if_neg differ]
    exact .inr (.inr ⟨by omega, by omega, rfl⟩)

/-- The wallet with the leaves of `older` up to its base in front of its own. -/
structure Filled (db older db' : WalletDb W) (ns os : List P.Node) : Prop where
  below : older.baseSize < db.baseSize
  covers : db.baseSize - older.baseSize ≤ os.length
  baseFrontier : db'.baseFrontier = older.baseFrontier
  baseSize : db'.baseSize = older.baseSize
  leaves : db'.decodedLeaves = os.take (db.baseSize - older.baseSize) ++ ns

section

variable (h : Filled db older db' ns os)
include h

theorem Filled.reaches_iff (hos : older.decodedLeaves = os) :
    Reaches older db ↔
      W.treeExtend (W.treeFromFrontier older.baseFrontier) (os.take (db.baseSize - older.baseSize)) =
        some (W.treeFromFrontier db.baseFrontier) := by
  have below := h.below
  rw [Reaches, hos]
  constructor
  · rintro (same | reached)
    · omega
    · exact reached
  · exact .inr

/-- Above the old base the rebuilt stream is the gap, then the leaves the wallet had. -/
theorem Filled.take (above : db.baseSize ≤ m) :
    db'.decodedLeaves.take (m - db'.baseSize) = os.take (db.baseSize - older.baseSize) ++
      ns.take (m - db.baseSize) := by
  have below := h.below
  have gap : (os.take (db.baseSize - older.baseSize)).length = db.baseSize - older.baseSize :=
    length_take_of_le h.covers
  have offset : m - db'.baseSize = (os.take (db.baseSize - older.baseSize)).length + (m - db.baseSize) := by
    rw [gap, h.baseSize]
    omega
  rw [h.leaves, offset, take_length_add_append]

theorem Filled.treeAt (hdb : Coherent db ns) (above : db.baseSize ≤ m) (held : m ≤ db.size) :
    db'.treeAt m =
      (W.treeExtend (W.treeFromFrontier older.baseFrontier) (os.take (db.baseSize - older.baseSize))).bind
        (W.treeExtend · (ns.take (m - db.baseSize))) := by
  have below := h.below
  have size := hdb.size
  have length : db'.decodedLeaves.length = db.baseSize - older.baseSize + ns.length := by
    rw [h.leaves, length_append, length_take_of_le h.covers]
  rw [WalletDb.treeAt, h.take above, h.baseFrontier, treeExtend_append, length, h.baseSize, if_neg (by omega)]

end

section

variable (laws : IncrementalLaws W)

include laws

theorem Coherent.decodedLeaves (h : Coherent db ns) : db.decodedLeaves = ns := by
  unfold WalletDb.decodedLeaves
  cases cached : db.decoded with
  | some d => exact h.decoded d cached
  | none => rw [h.leaves, GlobalTree.nodesFromBytes_map laws.toFrontierLaws]; rfl

variable {m : Nat}

section

variable (h : Coherent db ns) (above : db.baseSize ≤ m) (held : m ≤ db.size)
include h above held

theorem Coherent.treeAt :
    db.treeAt m = W.treeExtend (W.treeFromFrontier db.baseFrontier) (ns.take (m - db.baseSize)) := by
  have size := h.size
  rw [WalletDb.treeAt, h.decodedLeaves laws, if_neg (by omega)]

theorem Coherent.exists_treeAt :
    ∃ t, db.treeAt m = some t := by
  have tip := h.tip
  rw [← take_append_drop (m - db.baseSize) ns, treeExtend_append] at tip
  obtain ⟨t, here, -⟩ := Option.bind_eq_some_iff.mp tip
  exact ⟨t, (h.treeAt laws above held).trans here⟩

end

/-- A path that is rebuilt at `m` leaves leads to the root of the tree after `m` leaves. -/
theorem Coherent.path_root (h : Coherent db ns) {pre : List P.Node} {position : Nat} {w : W.Witness}
    {elems : Nat × List P.Node} {path : MerklePath P}
    (hpre : W.treeExtend W.treeEmpty pre = some (W.treeFromFrontier db.baseFrontier))
    (hw : db.rebuildWitness position m = some w) (hpath : W.witnessPath w = some elems)
    (ho : MerklePath.ofElems elems = some path) :
    ∃ leaf t, ns[position - db.baseSize]? = some leaf ∧ db.treeAt m = some t ∧
      path.root W leaf = W.nodeAnchor (W.treeRoot t) := by
  have size := h.size
  unfold WalletDb.rebuildWitness at hw
  split at hw
  · cases hw
  · rename_i above
    dsimp only at hw
    rw [h.decodedLeaves laws] at hw
    split at hw
    · cases hw
    · rename_i inside
      obtain ⟨t, here⟩ := h.exists_treeAt laws (show db.baseSize ≤ m by omega) (by omega)
      have extended := here
      rw [h.treeAt laws (by omega) (by omega)] at extended
      have whole : W.treeExtend W.treeEmpty (pre ++ ns.take (m - db.baseSize)) = some t := by
        rw [treeExtend_append, hpre]
        exact extended
      have frontier : P.frontierOf (pre ++ ns.take (m - db.baseSize)) = some (W.treeToFrontier t) := by
        rw [laws.frontierOf_eq, whole]
        rfl
      obtain ⟨leaf, at_p, root⟩ :=
        path_root_of_witnessOver laws hpre (by omega) (by omega) frontier hw hpath ho
      have nonempty : pre ++ ns.take (m - db.baseSize) ≠ [] := by
        intro nil
        have length := congrArg length nil
        rw [length_append, length_take, length_nil] at length
        omega
      refine ⟨leaf, t, at_p, here, ?_⟩
      rw [root, laws.frontierRoot_eq nonempty frontier, laws.treeRoot_eq whole]

section

variable (h : Filled db older db' ns os) (hdb : Coherent db ns)
include h hdb

/-- The trees are the ones from before exactly if the gap leads to the old base. -/
theorem Filled.treeAt_eq_iff (hos : older.decodedLeaves = os) :
    (∀ m, db.baseSize ≤ m → m ≤ db.size → db'.treeAt m = db.treeAt m) ↔ Reaches older db := by
  rw [h.reaches_iff hos]
  constructor
  · intro same
    have size := hdb.size
    -- at the old base itself no leaf of the wallet's own is replayed
    have here := same db.baseSize le_rfl (by omega)
    have nothing : (fun t : W.Tree => W.treeExtend t []) = some := rfl
    rw [h.treeAt hdb le_rfl (by omega), hdb.treeAt laws le_rfl (by omega), Nat.sub_self, take_zero, nothing,
      Option.bind_fun_some] at here
    exact here
  · intro reached m above held
    rw [h.treeAt hdb above held, hdb.treeAt laws above held, reached]
    rfl

/-- A gap that leads to the old base leaves a coherent wallet. -/
theorem Filled.coherent (hold : Coherent older os)
    (leaves : db'.leaves = (os.take (db.baseSize - older.baseSize) ++ ns).map P.nodeToBytes)
    (decoded : db'.decoded = none)
    (tree : db'.tree = db.tree) (size : db'.size = db.size) (reached : Reaches older db) :
    Coherent db' (os.take (db.baseSize - older.baseSize) ++ ns) where
  base := by rw [h.baseSize, h.baseFrontier, hold.base]
  leaves := leaves
  decoded := by
    intro d cached
    rw [decoded] at cached
    cases cached
  tip := by
    rw [h.baseFrontier, treeExtend_append, (h.reaches_iff (hold.decodedLeaves laws)).mp reached, tree]
    exact hdb.tip
  size := by
    have below := h.below
    have before := hdb.size
    rw [size, h.baseSize, length_append, length_take_of_le h.covers]
    omega

theorem Filled.rebuildWitness (hold : Coherent older os)
    (reached : Reaches older db) {position : Nat} (m : Nat) (above : db.baseSize ≤ position) :
    db'.rebuildWitness position m = db.rebuildWitness position m := by
  have below := h.below
  have gap : (os.take (db.baseSize - older.baseSize)).length = db.baseSize - older.baseSize :=
    length_take_of_le h.covers
  have length : db'.decodedLeaves.length = db.baseSize - older.baseSize + ns.length := by
    rw [h.leaves, length_append, gap]
  unfold WalletDb.rebuildWitness
  dsimp only
  rw [hdb.decodedLeaves laws, length]
  by_cases inside : position < m ∧ m - db.baseSize ≤ ns.length
  · have offset : position - older.baseSize = (os.take (db.baseSize - older.baseSize)).length +
        (position - db.baseSize) := by omega
    rw [h.take (by omega), h.baseFrontier, h.baseSize, if_neg (by omega), if_neg (by omega), if_neg (by omega),
      if_neg (by omega), offset]
    exact witnessOver_append ((h.reaches_iff (hold.decodedLeaves laws)).mp reached)
  · -- neither has a leaf below `m` to witness
    rw [h.baseSize]
    by_cases early : m < db.baseSize
    · rw [if_pos (show position < db.baseSize ∨ m < db.baseSize from .inr early)]
      split
      · rfl
      · rw [if_pos (by omega)]
    · rw [if_neg (by omega), if_pos (by omega), if_neg (by omega), if_pos (by omega)]

end

end

/-- What a graft of coherent states leaves behind. -/
theorem graftHistory_filled (laws : IncrementalLaws W) (hdb : Coherent db ns) (hold : Coherent older os)
    (below : older.baseSize < db.baseSize) (covers : db.baseSize - older.baseSize ≤ older.leaves.length) :
    Filled db older
      { db with
        leaves := older.leaves.take (db.baseSize - older.baseSize) ++ db.leaves
        baseFrontier := older.baseFrontier
        baseSize := older.baseSize
        decoded := none } ns os where
  below := below
  covers := by rwa [hold.leaves, length_map] at covers
  baseFrontier := rfl
  baseSize := rfl
  leaves := by
    unfold WalletDb.decodedLeaves
    rw [hold.leaves, hdb.leaves, ← map_take, ← map_append, GlobalTree.nodesFromBytes_map laws.toFrontierLaws]
    rfl

/-- A graft that fails changes nothing. After one that succeeds the rebuilt trees are the ones from before
exactly if the snapshot's leaves lead to the wallet's base. Then the base with the leaves also has the
tip's root, the paths from the old base up are the same, and every path, those of the restored leaves
included, leads to the anchor it is rebuilt at. -/
theorem graftHistory_keeps_tree (laws : IncrementalLaws W) (hdb : Coherent db ns) (hold : Coherent older os)
    {result : Except String Nat} (h : db.graftHistory older = (db', result)) :
    (∀ e, result = .error e → db' = db) ∧
      ∀ restored, result = .ok restored →
        db'.tree = db.tree ∧
        ((∀ m, db.baseSize ≤ m → m ≤ db.size → db'.treeAt m = db.treeAt m) ↔ Reaches older db) ∧
        (Reaches older db →
          (∃ t, W.treeExtend (W.treeFromFrontier db'.baseFrontier) db'.decodedLeaves = some t ∧
            W.treeRoot t = W.treeRoot db.tree) ∧
          (∀ position m, db.baseSize ≤ position → db'.rebuildWitness position m = db.rebuildWitness position m) ∧
          ∀ pre, W.treeExtend W.treeEmpty pre = some (W.treeFromFrontier db'.baseFrontier) →
            ∀ position m w elems path, db.baseSize ≤ m → db'.rebuildWitness position m = some w →
              W.witnessPath w = some elems → MerklePath.ofElems elems = some path →
              ∃ leaf t, db'.decodedLeaves[position - db'.baseSize]? = some leaf ∧ db.treeAt m = some t ∧
                path.root W leaf = W.nodeAnchor (W.treeRoot t)) := by
  obtain ⟨e, run⟩ | ⟨same, run⟩ | ⟨below, covers, run⟩ := graftHistory_cases db older
  · rw [run] at h
    cases h
    exact ⟨fun _ _ => rfl, fun restored ok => nomatch ok⟩
  · rw [run] at h
    cases h
    refine ⟨fun _ _ => rfl, fun restored ok => ⟨rfl, ⟨fun _ => .inl same, fun _ _ _ _ => rfl⟩, fun _ =>
      ⟨?_, fun _ _ _ => rfl, ?_⟩⟩⟩
    · exact ⟨db.tree, by rw [hdb.decodedLeaves laws, hdb.tip], rfl⟩
    · intro pre hpre position m w elems path above hw hpath ho
      rw [hdb.decodedLeaves laws]
      exact hdb.path_root laws hpre hw hpath ho
  · have filled := graftHistory_filled laws hdb hold below covers
    rw [run] at h
    cases h
    refine ⟨fun e err => (nomatch err), fun restored ok =>
      ⟨rfl, filled.treeAt_eq_iff laws hdb (hold.decodedLeaves laws), ?_⟩⟩
    intro reached
    have same := (filled.treeAt_eq_iff laws hdb (hold.decodedLeaves laws)).mpr reached
    have after :=
      filled.coherent laws hdb hold (by rw [hold.leaves, hdb.leaves, map_append, map_take]) rfl rfl rfl reached
    refine ⟨⟨db.tree, ?_, rfl⟩, fun position m above => filled.rebuildWitness laws hdb hold reached m above, ?_⟩
    · rw [after.decodedLeaves laws]
      exact after.tip
    · intro pre hpre position m w elems path above hw hpath ho
      obtain ⟨leaf, t, at_p, here, root⟩ := after.path_root laws hpre hw hpath ho
      refine ⟨leaf, t, by rwa [after.decodedLeaves laws], ?_, root⟩
      have held := le_of_treeAt here
      rw [after.decodedLeaves laws, ← after.size] at held
      rw [← same m above held, here]

/-! ## Two snapshots of one wallet -/

/-- A state of the wallet of key 7 whose base is the tree of `base` and whose stream goes on with `ns`. -/
def snapshot (base tip : Leaves) (ns : List Bytes32) : WalletDb leafLists :=
  { fresh (W := leafLists) 7 with
    tree := tip, baseFrontier := base, baseSize := base.list.length, leaves := ns, size :=
      base.list.length + ns.length }

theorem coherent_snapshot {base tip : Leaves} {ns : List Bytes32} (h : tip.list = base.list ++ ns) :
    Coherent (snapshot base tip ns) ns where
  base := (leafLists_frontierSize base).symm
  leaves := map_id ns |>.symm
  decoded := by
    intro d cached
    cases cached
  tip := leafLists_treeExtend.mpr h
  size := rfl

/-- A graft over one leaf, from a state that began with nothing and agrees where the leaves overlap. -/
theorem graftHistory_snapshot {base tip tip' : Leaves} {x : Bytes32} {ns os : List Bytes32} (one : base.list.length = 1)
    (agree : os.take (min os.length ns.length) = ns.take (min os.length ns.length)) :
    (snapshot base tip ns).graftHistory (snapshot .empty tip' (x :: os)) =
      ({ snapshot base tip ns with leaves := x :: ns, baseFrontier := .empty, baseSize := 0, decoded := none },
        .ok 1) := by
  have below : ¬ Leaves.empty.list.length > base.list.length := by
    rw [one]
    decide
  have gap : base.list.length - Leaves.empty.list.length = 1 := by
    rw [one]
    rfl
  unfold graftHistory snapshot
  rw [if_neg (not_not.mpr rfl), if_neg below, gap, if_neg (by decide), if_neg (by simp)]
  rw [if_neg (by simpa using agree)]
  rfl

theorem graftHistory_keeps_tree_of_second_leaf : ∃ db older db' : WalletDb leafLists,
    Coherent db [6] ∧ Coherent older [5, 6] ∧ db.graftHistory older = (db', .ok 1) ∧ Reaches older db ∧
      ∀ m, 1 ≤ m → m ≤ 2 → db'.treeAt m = db.treeAt m := by
  have hdb : Coherent (snapshot ⟨[5], by decide⟩ ⟨[5, 6], by decide⟩ [6]) [6] := coherent_snapshot rfl
  have hold : Coherent (snapshot .empty ⟨[5, 6], by decide⟩ [5, 6]) [5, 6] := coherent_snapshot rfl
  have reached :
      Reaches (snapshot .empty ⟨[5, 6], by decide⟩ [5, 6]) (snapshot ⟨[5], by decide⟩ ⟨[5, 6], by decide⟩ [6]) :=
    .inr (leafLists_treeExtend.mpr rfl)
  have run : (snapshot ⟨[5], by decide⟩ ⟨[5, 6], by decide⟩ [6]).graftHistory
      (snapshot .empty ⟨[5, 6], by decide⟩ [5, 6]) =
      (_, .ok 1) := graftHistory_snapshot rfl rfl
  obtain ⟨-, done⟩ := graftHistory_keeps_tree leafLists_laws hdb hold run
  obtain ⟨-, same, -⟩ := done 1 rfl
  exact ⟨_, _, _, hdb, hold, run, reached, same.mpr reached⟩

/-- One leaf decides the root of the sample tree. -/
theorem root_singleton_injective (d : Nat) {x y : Bytes32} (h : leafHasher.root d [x] = leafHasher.root d [y]) :
    x = y := by
  induction d with
  | zero => exact h
  | succ d ih =>
    apply ih
    have pos : 0 < 2 ^ d := Nat.two_pow_pos d
    have whole : ∀ z : Bytes32, [z].take (2 ^ d) = [z] := fun z => take_of_length_le pos
    have rest : ∀ z : Bytes32, [z].drop (2 ^ d) = [] := fun z => drop_eq_nil_of_le pos
    rw [leafHasher.root_succ_of_ne_nil (cons_ne_nil x []), leafHasher.root_succ_of_ne_nil (cons_ne_nil y []), whole,
      whole, rest, rest] at h
    generalize leafHasher.root d [x] = l at h ⊢
    generalize leafHasher.root d [y] = r at h ⊢
    have triple : 3 * l = 3 * r := add_right_cancel (add_right_cancel h)
    -- 3 is odd, so it has an inverse
    obtain ⟨c, inverse⟩ : ∃ c : Bytes32, c * 3 = 1 :=
      ⟨0xAAAAAAAAAAAAAAAAAAAAAAAAAAAAAAAAAAAAAAAAAAAAAAAAAAAAAAAAAAAAAAAB, by decide⟩
    calc
      l = c * 3 * l := by rw [inverse, one_mul]
      _ = c * 3 * r := by rw [mul_assoc, triple, ← mul_assoc]
      _ = r := by rw [inverse, one_mul]

/-- Two states on different sides of a fork: the older one ends with leaf 5 where the other's base begins
after leaf 6. Nothing overlaps, and the graft puts leaf 5 under a tip that holds leaf 6. -/
theorem graftHistory_takes_other_stream : ∃ db older db' : WalletDb leafLists,
    Coherent db [] ∧ Coherent older [5] ∧ db.graftHistory older = (db', .ok 1) ∧
      ∃ t, leafLists.treeExtend (leafLists.treeFromFrontier db'.baseFrontier) db'.decodedLeaves = some t ∧
        leafLists.treeRoot t ≠ leafLists.treeRoot db'.tree := by
  refine ⟨snapshot ⟨[6], by decide⟩ ⟨[6], by decide⟩ [], snapshot .empty ⟨[5], by decide⟩ [5], _, coherent_snapshot rfl,
    coherent_snapshot rfl, graftHistory_snapshot rfl rfl, ⟨[5], by decide⟩, leafLists_treeExtend.mpr rfl, ?_⟩
  intro same
  have leaf : (5 : Bytes32) = 6 := root_singleton_injective TREE_DEPTH same
  exact absurd leaf (by decide)

end WalletDb

end Firecash
