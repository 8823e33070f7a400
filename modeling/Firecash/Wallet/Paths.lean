import Firecash.Wallet.Stream

/-!
# Paths and anchors

For a wallet that started at a tree of known leaves: a path it hands out leads from the leaf it is
asked for to the root of the tree of the first leaves of the stream, and for a leaf at or above its
base it hands one out. A live witness and a rebuild are the same witness of the stream
(`Live.witnessOver`, `Tracks.rebuildWitness`), so both go through one lemma.
-/

namespace Firecash

open WalletPrim List Option MerklePath

variable {P : Prim} {W : WalletPrim P}

namespace WalletDb

variable {t₀ : W.Tree} {pre ns : List P.Node} {b u : Nat} {db : WalletDb W} (laws : IncrementalLaws W)

include laws

variable {f : P.Frontier}

theorem length_le_of_frontierOf (h : P.frontierOf ns = some f) : ns.length ≤ TREE_CAPACITY := by
  rw [laws.frontierOf_eq] at h
  obtain ⟨t, ht, -⟩ := map_eq_some_iff.mp h
  have size := laws.treeSize_extend ht
  have le := laws.treeSize_le t
  rw [laws.treeSize_empty] at size
  omega

/-- While the tree has room, a live witness is the witness of the stream. -/
theorem Live.witnessOver {pw : Nat × W.Witness} (h : Live t₀ ns u pw) (hu : u ≤ ns.length)
    (room : W.treeSize t₀ + u ≤ TREE_CAPACITY) :
    ∃ p, p < u ∧ pw.1 = W.treeSize t₀ + p ∧ W.witnessOver t₀ (ns.take u) p = some pw.2 := by
  obtain ⟨p, w₀, hp, hpos, hw₀, hw⟩ := h
  refine ⟨p, hp, hpos, ?_⟩
  have taken : (ns.take u).take (p + 1) = ns.take (p + 1) := by rw [take_take, min_eq_left (by omega)]
  have length : (ns.take (p + 1)).length = p + 1 := length_take_of_le (by omega)
  have rest : ((ns.take u).drop (p + 1)).length = u - (p + 1) := by
    rw [length_drop, length_take_of_le hu]
  obtain ⟨t, ht⟩ := laws.exists_treeExtend t₀ (ns.take (p + 1)) (by omega)
  have size := laws.treeSize_extend ht
  rw [treeFill_of_extend ht] at hw₀
  obtain ⟨w₁, w, -, hw₁, hext, -⟩ := laws.witness_total t ((ns.take u).drop (p + 1)) (by omega) (by omega)
  rw [hw₀] at hw₁
  cases hw₁
  rw [witnessOver_eq_some_iff, taken]
  refine ⟨t, w₀, ht, hw₀, ?_⟩
  rw [hext, hw, witnessFill_of_extend hext]

variable {path : MerklePath P}

/-- The path of a witness of the stream leads from its leaf to the root. -/
theorem path_root_of_witnessOver {p m : Nat} {w : W.Witness} {elems : Nat × List P.Node}
    (hpre : W.treeExtend W.treeEmpty pre = some t₀) (hp : p < m) (hm : m ≤ ns.length)
    (hf : P.frontierOf (pre ++ ns.take m) = some f) (hw : W.witnessOver t₀ (ns.take m) p = some w)
    (hpath : W.witnessPath w = some elems) (ho : ofElems elems = some path) :
    ∃ leaf, ns[p]? = some leaf ∧ path.root W leaf = P.frontierRoot f := by
  have inside : p < ns.length := by omega
  have length : (ns.take m).length = m := length_take_of_le hm
  have capacity := length_le_of_frontierOf laws hf
  rw [length_append, length] at capacity
  rw [← witnessOver_append hpre] at hw
  have here : pre.length + p < (pre ++ ns.take m).length := by
    rw [length_append, length]
    omega
  rw [laws.witnessPath_eq here hw] at hpath
  cases hpath
  unfold ofElems at ho
  rw [if_pos (W.hasher.length_authPath ..)] at ho
  cases ho
  have position : (pre.length + p) % TREE_CAPACITY = pre.length + p := Nat.mod_eq_of_lt (by omega)
  have leaf : (pre ++ ns.take m)[pre.length + p]? = some ns[p] := by
    rw [getElem?_append_right (by omega), Nat.add_sub_cancel_left, getElem?_take_of_lt hp]
    exact getElem?_eq_getElem inside
  have nonempty : pre ++ ns.take m ≠ [] := by
    rintro nil
    rw [nil] at here
    cases here
  refine ⟨ns[p], getElem?_eq_getElem inside, ?_⟩
  have fits : pre.length + p < 2 ^ TREE_DEPTH := by
    have : 2 ^ TREE_DEPTH = TREE_CAPACITY := by decide
    omega
  rw [laws.frontierRoot_eq nonempty hf, root]
  rw [position, W.hasher.pathRoot_authPath fits leaf]

/-- A path the wallet hands out, live or rebuilt, comes from a witness of the stream. -/
theorem Tracks.witnessPathAt {position matured : Nat} (h : Tracks t₀ ns b u db)
    (room : matured ≤ TREE_CAPACITY) (hpath : db.witnessPathAt position matured = some path) :
    ∃ p m w elems, position = W.treeSize t₀ + p ∧ matured = W.treeSize t₀ + m ∧ p < m ∧ m ≤ ns.length ∧
      W.witnessOver t₀ (ns.take m) p = some w ∧ W.witnessPath w = some elems ∧ ofElems elems = some path := by
  unfold WalletDb.witnessPathAt at hpath
  cases live : db.liveWitnessPath position matured with
  | some found =>
    rw [live] at hpath
    obtain rfl : found = path := some.inj hpath
    unfold WalletDb.liveWitnessPath at live
    split at live
    · cases live
    · rename_i here
      have here : db.witnessedUpto = matured := not_not.mp here
      obtain ⟨pw, hfind, live⟩ := bind_eq_some_iff.mp live
      obtain ⟨elems, helems, ho⟩ := bind_eq_some_iff.mp live
      have hpos : pw.1 = position := by simpa using find?_some hfind
      have hupto := h.upto_eq
      obtain ⟨p, hp, hpw, hw⟩ := (h.live pw (mem_of_find?_eq_some hfind)).witnessOver laws h.upto_le (by omega)
      exact ⟨p, u, pw.2, elems, by omega, by omega, hp, h.upto_le, hw, helems, ho⟩
  | none =>
    rw [live] at hpath
    obtain ⟨w, hw, rebuilt⟩ := bind_eq_some_iff.mp hpath
    obtain ⟨elems, helems, ho⟩ := bind_eq_some_iff.mp rebuilt
    obtain ⟨p, m, hp, hm, -, lt, le, hover⟩ := h.rebuildWitness laws hw
    exact ⟨p, m, w, elems, hp, hm, lt, le, hover, helems, ho⟩

section

variable {position matured : Nat} (h : Tracks t₀ ns b u db) (above : db.baseSize ≤ position)
    (inside : position < matured)
  (held : matured ≤ db.size) (room : matured ≤ TREE_CAPACITY)
include h above inside held room

theorem Tracks.rebuildWitness_isSome :
    ∃ w path, db.rebuildWitness position matured = some w ∧ W.witnessPath w = some path ∧
      path.2.length = TREE_DEPTH := by
  have hb : b ≤ ns.length := h.base_le.trans h.upto_le
  have hsize := h.size_eq
  have hbase := h.base_eq
  have baseSize := laws.treeSize_extend h.baseTree
  rw [length_take_of_le hb] at baseSize
  have length : (ns.drop b).length = ns.length - b := length_drop
  generalize hrel : position - db.baseSize = rel
  generalize hm : matured - db.baseSize = m
  have cut : ((ns.drop b).take m).length = m := length_take_of_le (by omega)
  have opened : (((ns.drop b).take m).take (rel + 1)).length = rel + 1 := length_take_of_le (by omega)
  have later : (((ns.drop b).take m).drop (rel + 1)).length = m - (rel + 1) := by rw [length_drop, cut]
  obtain ⟨t, ht⟩ :=
    laws.exists_treeExtend (W.treeFromFrontier db.baseFrontier) (((ns.drop b).take m).take (rel + 1)) (by omega)
  have size := laws.treeSize_extend ht
  obtain ⟨w₀, w, path, hw₀, hw, hpath, hlen⟩ :=
    laws.witness_total t (((ns.drop b).take m).drop (rel + 1)) (by omega) (by omega)
  refine ⟨w, _, ?_, hpath, hlen⟩
  unfold WalletDb.rebuildWitness
  rw [h.decodedLeaves laws, hrel, hm, if_neg (by omega), if_neg (by omega), witnessOver_eq_some_iff]
  exact ⟨t, w₀, ht, hw₀, hw⟩

/-- For a leaf at or above the base the wallet hands out a path, while the tree has room. -/
theorem Tracks.witnessPathAt_isSome : (db.witnessPathAt position matured).isSome := by
  unfold WalletDb.witnessPathAt
  cases db.liveWitnessPath position matured with
  | some path => rfl
  | none =>
    obtain ⟨w, path, hw, hpath, hlen⟩ := h.rebuildWitness_isSome laws above inside held room
    simp [hw, hpath, ofElems, hlen]

end

end WalletDb

end Firecash
