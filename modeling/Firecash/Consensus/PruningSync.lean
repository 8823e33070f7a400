import Firecash.Consensus.Reorg
import Firecash.Consensus.Snapshots

/-!
# Pruning-point transfer of the shielded state

A node that syncs from a pruning point receives the metadata of that block (frontier, supply,
accumulator, state root) and the list of spent nullifiers, verifies the one against the other and seeds
its stores. The metadata is read from the snapshots at the pruning point, the nullifiers from the one
global set, which stands at the sink.

`export_importable_iff`: an honest export is importable exactly if the set holds the nullifiers of the
pruning point's chain, so for a node at its sink exactly if no block above the pruning point spent.
`import_replaces_iff`: an import over old stores leaves the streamed set exactly if the old set was
part of it, because the clear step only lowers a flag.
-/

namespace Firecash

open List Function ShieldedStores

variable {P : Prim}

structure PruningPointShieldedMetadata (P : Prim) where
  frontier : FrontierState
  supply : SupplyTotals
  nullifierMuhash : MuHash P
  stateRoot : P.StateRoot

/-- `to_wire_bytes` and `from_wire_bytes`: bincode of the metadata. -/
structure MetadataCodec (P : Prim) where
  Wire : Type
  toWireBytes : PruningPointShieldedMetadata P → Wire
  fromWireBytes : Wire → Except String (PruningPointShieldedMetadata P)

/-- A decoded encoding is the original. -/
def MetadataCodec.RoundTrips (codec : MetadataCodec P) : Prop :=
  ∀ md, codec.fromWireBytes (codec.toWireBytes md) = .ok md

/-- `ShieldedExportMetadata` -/
structure ShieldedExportMetadata (codec : MetadataCodec P) where
  data : codec.Wire
  nullifierCount : Nat

namespace ShieldedStores

/-! ## Serving side -/

/-- `recompute_state_root`; `none`: the frontier does not decode, `expect` panics. -/
def recomputeStateRoot (frontier : FrontierState) (supply : SupplyTotals) (nullifierMuhash : MuHash P) :
    Option P.StateRoot := do
  let tree ← (GlobalTree.fromState frontier).toOption
  pure (P.shieldedStateRoot tree.anchor nullifierMuhash.finalize supply.cumulativeCoinbase supply.cumulativeFees)

variable (s : ShieldedStores P) (block : Hash)

/-- The metadata at a block: `none` is a panic, `some none` an empty pool with nothing to transfer. -/
def exportMetadata : Option (Option (PruningPointShieldedMetadata P)) :=
  let frontier := s.frontierAt block
  if frontier.size = 0 then some none
  else do
    let supply := s.supplyTotalsAt block
    let nullifierMuhash := s.loadNullifierMuhash block
    let stateRoot ← recomputeStateRoot frontier supply nullifierMuhash
    pure (some ⟨frontier, supply, nullifierMuhash, stateRoot⟩)

/-- `export_pruning_point_shielded` of the virtual processor. -/
def exportPruningPointShielded (codec : MetadataCodec P) (s : ShieldedStores P) (pp : Hash) :
    Option (Option (ShieldedExportMetadata codec)) :=
  (s.exportMetadata pp).map (·.map fun md => ⟨codec.toWireBytes md, s.nullifiers.card⟩)

/-- `iter_all`: every key of the global set once. The order is that of the keys; nothing depends on it. -/
def IterAll (nullifiers : List NullifierBytes) : Prop :=
  nullifiers.Nodup ∧ nullifiers.toFinset = s.nullifiers

/-! ## Receiving side -/

/-- `verify_pruning_point_shielded`: the number of nullifiers, if they reproduce the accumulator and the
state root is that of the parts. -/
def verifyPruningPointShielded (md : PruningPointShieldedMetadata P) (nullifiers : List NullifierBytes) :
    Except (Fault String) Nat :=
  let count := nullifiers.length
  if (MuHash.ofList nullifiers : MuHash P).finalize ≠ md.nullifierMuhash.finalize then
    .error (.err s!"streamed nullifier set ({count}) does not reproduce the committed accumulator")
  else
    match recomputeStateRoot md.frontier md.supply md.nullifierMuhash with
    | none => .error .panic
    | some recomputed =>
      if recomputed ≠ md.stateRoot then
        .error (.err "declared shielded state root is inconsistent with (frontier, supply, nullifier_muhash)")
      else .ok count

/-- The snapshot and index entry of the frontier. -/
def seedTree (frontier : FrontierState) (tree : GlobalTree P) : ShieldedStores P :=
  { s with
    treeStore := update s.treeStore block (some frontier)
    anchorBlock := update s.anchorBlock tree.anchor (some block) }

def seedSupply (supply : SupplyTotals) : ShieldedStores P :=
  if supply.cumulativeCoinbase > 0 ∨ supply.cumulativeFees > 0 then
    { s with supplyStore := update s.supplyStore block (some supply) }
  else s

/-- The accumulator snapshot; the store's `try_into().expect(..)` panics on a fraction. -/
def seedMuhash (nullifierMuhash : MuHash P) : Option (ShieldedStores P) :=
  if nullifierMuhash.finalize ≠ MuHash.EMPTY_MUHASH P then
    nullifierMuhash.tryIntoUint3072.map fun u => { s with nullifierMuhash := update s.nullifierMuhash block (some u) }
  else some s

/-- `seed_pruning_point_shielded` of the manager: one batch; `none` is a panic. -/
def seedStores (md : PruningPointShieldedMetadata P)
    (nullifiers : List NullifierBytes) : Option (ShieldedStores P) := do
  let tree ← (GlobalTree.fromState md.frontier).toOption
  let s ← ((s.seedTree block md.frontier tree).seedSupply block md.supply).seedMuhash block md.nullifierMuhash
  pure (s.insertNullifiers nullifiers)

/-- `seed_pruning_point_shielded` of the virtual processor. -/
def seedPruningPointShielded (codec : MetadataCodec P) (s : ShieldedStores P) (pp : Hash)
    (metadata : ShieldedExportMetadata codec) (nullifiers : List NullifierBytes) :
    Except (Fault String) (ShieldedStores P) :=
  match codec.fromWireBytes metadata.data with
  | .error msg => .error (.err msg)
  | .ok md =>
    match verifyPruningPointShielded md nullifiers with
    | .error e => .error e
    | .ok n =>
      let declared := metadata.nullifierCount
      if n ≠ declared then .error (.err s!"nullifier count mismatch: metadata says {declared}, streamed {n}")
      else
        match s.seedStores pp md nullifiers with
        | none => .error .panic
        | some s' => .ok s'

/-! ## Specifications -/

variable {md : PruningPointShieldedMetadata P} {nullifiers : List NullifierBytes}

theorem verifyPruningPointShielded_eq_ok {n : Nat} :
    verifyPruningPointShielded md nullifiers = .ok n ↔
      (MuHash.ofList nullifiers : MuHash P).finalize = md.nullifierMuhash.finalize ∧
        recomputeStateRoot md.frontier md.supply md.nullifierMuhash = some md.stateRoot ∧ n = nullifiers.length := by
  unfold verifyPruningPointShielded
  by_cases hacc : (MuHash.ofList nullifiers : MuHash P).finalize = md.nullifierMuhash.finalize
  · cases hr : recomputeStateRoot md.frontier md.supply md.nullifierMuhash with
    | none => simp [hacc]
    | some r =>
      by_cases hroot : r = md.stateRoot
      · simp [hacc, hroot, eq_comm]
      · simp [hacc, hroot]
  · simp [hacc]

variable {codec : MetadataCodec P} {s' : ShieldedStores P} {pp : Hash}

theorem seedPruningPointShielded_eq_ok {s : ShieldedStores P}
    {metadata : ShieldedExportMetadata codec} :
    s.seedPruningPointShielded codec pp metadata nullifiers = .ok s' ↔
      ∃ md, codec.fromWireBytes metadata.data = .ok md ∧
        (MuHash.ofList nullifiers : MuHash P).finalize = md.nullifierMuhash.finalize ∧
        recomputeStateRoot md.frontier md.supply md.nullifierMuhash = some md.stateRoot ∧
        nullifiers.length = metadata.nullifierCount ∧ s.seedStores pp md nullifiers = some s' := by
  unfold seedPruningPointShielded
  cases hd : codec.fromWireBytes metadata.data with
  | error msg => simp
  | ok md =>
    simp only [Except.ok.injEq, exists_eq_left']
    cases hv : verifyPruningPointShielded md nullifiers with
    | error e =>
      simp only [reduceCtorEq, false_iff, not_and]
      intro hacc hroot _ _
      rw [verifyPruningPointShielded_eq_ok.mpr ⟨hacc, hroot, rfl⟩] at hv
      cases hv
    | ok n =>
      obtain ⟨hacc, hroot, rfl⟩ := verifyPruningPointShielded_eq_ok.mp hv
      by_cases hcount : nullifiers.length = metadata.nullifierCount
      · cases hs : s.seedStores pp md nullifiers <;> simp [hacc, hroot, hcount]
      · simp [hcount]

/-- What a seeding writes. -/
structure Seeded (s s' : ShieldedStores P) (block : Hash) (md : PruningPointShieldedMetadata P)
    (nullifiers : List NullifierBytes) (tree : GlobalTree P) : Prop where
  frontier : GlobalTree.fromState md.frontier = .ok tree
  nullifiers : s'.nullifiers = s.nullifiers ∪ nullifiers.toFinset
  nullifierDiffs : s'.nullifierDiffs = s.nullifierDiffs
  treeStore : s'.treeStore = update s.treeStore block (some md.frontier)
  anchorBlock : s'.anchorBlock = update s.anchorBlock tree.anchor (some block)
  supplyStore : s'.supplyStore =
    if md.supply.cumulativeCoinbase > 0 ∨ md.supply.cumulativeFees > 0 then
      update s.supplyStore block (some md.supply)
    else s.supplyStore
  muhash : s'.loadNullifierMuhash block =
    if md.nullifierMuhash.finalize ≠ MuHash.EMPTY_MUHASH P then md.nullifierMuhash else s.loadNullifierMuhash block
  muhash_of_ne : ∀ x, x ≠ block → s'.nullifierMuhash x = s.nullifierMuhash x

theorem seedSupply_eq (supply : SupplyTotals) :
    s.seedSupply block supply =
      { s with
        supplyStore :=
          if supply.cumulativeCoinbase > 0 ∨ supply.cumulativeFees > 0 then
            update s.supplyStore block (some supply)
          else s.supplyStore } := by
  unfold seedSupply
  split <;> rfl

variable {block : Hash}

theorem seedMuhash_spec {s : ShieldedStores P} {mu : MuHash P} (h : s.seedMuhash block mu = some s') :
    (∃ store, s' = { s with nullifierMuhash := store } ∧ ∀ x, x ≠ block → store x = s.nullifierMuhash x) ∧
      s'.loadNullifierMuhash block = if mu.finalize ≠ MuHash.EMPTY_MUHASH P then mu
        else s.loadNullifierMuhash block := by
  unfold seedMuhash at h
  by_cases hempty : mu.finalize = MuHash.EMPTY_MUHASH P
  · rw [if_neg (not_not.mpr hempty)] at h ⊢
    obtain rfl := Option.some.inj h
    exact ⟨⟨s.nullifierMuhash, rfl, fun _ _ => rfl⟩, rfl⟩
  · rw [if_pos hempty] at h ⊢
    obtain ⟨u, hu, rfl⟩ := Option.map_eq_some_iff.mp h
    refine ⟨⟨_, rfl, fun x hx => update_of_ne hx _ _⟩, ?_⟩
    simp only [loadNullifierMuhash, update_self]
    exact MuHash.fromUint3072_of_tryInto hu

theorem seedStores_seeded {s : ShieldedStores P}
    (h : s.seedStores block md nullifiers = some s') :
    ∃ tree, Seeded s s' block md nullifiers tree := by
  unfold seedStores at h
  simp only [Option.bind_eq_bind, Option.bind_eq_some_iff, Option.pure_def, Option.some.injEq] at h
  obtain ⟨tree, htree, s₁, hmu, rfl⟩ := h
  obtain ⟨⟨store, rfl, hstore⟩, hload⟩ := seedMuhash_spec hmu
  rw [seedSupply_eq] at *
  refine ⟨tree, ?_, insertNullifiers_nullifiers _ _, rfl, rfl, rfl, rfl, hload, hstore⟩
  exact Except.toOption_eq_some_iff.mp htree

variable {tree : GlobalTree P}

/-- Seeding succeeds for an integral accumulator. -/
theorem exists_seedStores (block : Hash) (md : PruningPointShieldedMetadata P)
    (nullifiers : List NullifierBytes) (htree : GlobalTree.fromState md.frontier = .ok tree)
    (hden : md.nullifierMuhash.denominator = 1) : ∃ s', s.seedStores block md nullifiers = some s' := by
  unfold seedStores seedMuhash MuHash.tryIntoUint3072
  rw [htree, if_pos hden]
  by_cases hempty : md.nullifierMuhash.finalize = MuHash.EMPTY_MUHASH P
  · exact ⟨_, by simp [hempty, Except.toOption]; rfl⟩
  · exact ⟨_, by simp [hempty, Except.toOption]; rfl⟩

theorem seedStores_isSome (s t : ShieldedStores P) (block : Hash) (md : PruningPointShieldedMetadata P)
    (nullifiers : List NullifierBytes) :
    (s.seedStores block md nullifiers).isSome = (t.seedStores block md nullifiers).isSome := by
  unfold seedStores seedMuhash
  cases GlobalTree.fromState md.frontier with
  | error e => rfl
  | ok tree =>
    by_cases hempty : md.nullifierMuhash.finalize = MuHash.EMPTY_MUHASH P
    · simp [Except.toOption, hempty]
    · cases md.nullifierMuhash.tryIntoUint3072 <;> simp [Except.toOption, hempty]

theorem stateRootAt_eq (block : Hash) :
    s.stateRootAt block =
      recomputeStateRoot (s.frontierAt block) (s.supplyTotalsAt block) (s.loadNullifierMuhash block) := rfl

/-- A fresh node reads back what it was seeded with. -/
theorem Seeded.of_empty
    (h : Seeded empty s' block md nullifiers tree) :
    s'.frontierAt block = md.frontier ∧ s'.supplyTotalsAt block = md.supply ∧ s'.nullifiers = nullifiers.toFinset := by
  refine ⟨?_, ?_, ?_⟩
  · rw [frontierAt, h.treeStore, update_self]
    rfl
  · rw [supplyTotalsAt, h.supplyStore]
    split
    case isTrue =>
      rw [update_self]
      rfl
    case isFalse hz =>
      obtain ⟨h1, h2⟩ := not_or.mp hz
      ext
      · show 0 = md.supply.cumulativeCoinbase
        omega
      · show 0 = md.supply.cumulativeFees
        omega
  · rw [h.nullifiers]
    exact Finset.empty_union _

/-- The accumulator of no nullifiers, which a seeding leaves out, is what a fresh node reads. -/
theorem Seeded.muhash_of_empty (ideal : MuHashIdeal P)
    {nfs : List NullifierBytes}
    (h : Seeded empty s' block md nullifiers tree) (hmu : md.nullifierMuhash = MuHash.ofList nfs) :
    s'.loadNullifierMuhash block = md.nullifierMuhash := by
  rw [h.muhash]
  by_cases hempty : md.nullifierMuhash.finalize = MuHash.EMPTY_MUHASH P
  · rw [if_neg (not_not.mpr hempty)]
    rw [hmu] at hempty ⊢
    rw [perm_nil.mp (ideal.injective nfs [] hempty)]
    rfl
  · rw [if_pos hempty]

/-- A fresh node that was seeded has records of the one block only. -/
theorem Seeded.noRecord {x : Hash}
    (h : Seeded empty s' block md nullifiers tree)
    (hx : x ≠ block) : s'.NoRecord x where
  tree := by
    rw [h.treeStore, update_of_ne hx]
    rfl
  supply := by
    rw [h.supplyStore]
    split
    · rw [update_of_ne hx]
      rfl
    · rfl
  muhash := h.muhash_of_ne x hx
  diff := by
    rw [h.nullifierDiffs]
    rfl

theorem exportPruningPointShielded_inv {s : ShieldedStores P}
    {metadata : ShieldedExportMetadata codec} (h : s.exportPruningPointShielded codec pp = some (some metadata)) :
    ∃ root, s.stateRootAt pp = some root ∧
      metadata = ⟨codec.toWireBytes ⟨s.frontierAt pp, s.supplyTotalsAt pp, s.loadNullifierMuhash pp, root⟩,
        s.nullifiers.card⟩ := by
  unfold exportPruningPointShielded exportMetadata at h
  rw [stateRootAt_eq]
  by_cases hz : (s.frontierAt pp).size = 0
  · simp [hz] at h
  · cases hr : recomputeStateRoot (s.frontierAt pp) (s.supplyTotalsAt pp) (s.loadNullifierMuhash pp) with
    | none => simp [hz, hr] at h
    | some root =>
      simp only [hz, hr, if_false, Option.bind_eq_bind, Option.bind_some, Option.pure_def, Option.map_some,
        Option.some.injEq] at h
      exact ⟨root, rfl, h.symm⟩

end ShieldedStores

/-! ## Honest exports -/

section Export

variable {env : ChainEnv P} {codec : MetadataCodec P}

/-- The transferred state is accepted by a fresh node, which then has the serving node's values as of the
pruning point. -/
def Importable (codec : MetadataCodec P) (env : ChainEnv P) (db : VirtualDb P) (pp : Hash)
    (metadata : ShieldedExportMetadata codec) (nullifiers : List NullifierBytes) : Prop :=
  ∃ s', empty.seedPruningPointShielded codec pp metadata nullifiers = .ok s' ∧
    s'.stateRootAt pp = db.stores.stateRootAt pp ∧ s'.frontierAt pp = db.stores.frontierAt pp ∧
    s'.supplyTotalsAt pp = db.stores.supplyTotalsAt pp ∧ s'.nullifiers = db.nullifiersAt env pp

/-- On any database whose accumulator at the pruning point is right: the export is importable exactly if
the global set holds the nullifiers of the pruning point's chain, each of them spent once. -/
theorem importable_iff (ideal : MuHashIdeal P) (hcodec : codec.RoundTrips) {db : VirtualDb P} {pp : Hash}
    (hmu : db.stores.loadNullifierMuhash pp = MuHash.ofList (env.tree.chainKeys db.stores.getDiff pp))
    {metadata : ShieldedExportMetadata codec}
    (hexp : db.stores.exportPruningPointShielded codec pp = some (some metadata))
    {nullifiers : List NullifierBytes} (hiter : db.stores.IterAll nullifiers) :
    Importable codec env db pp metadata nullifiers ↔
      db.stores.nullifiers = db.nullifiersAt env pp ∧ (env.tree.chainKeys db.stores.getDiff pp).Nodup := by
  obtain ⟨root, hroot, rfl⟩ := exportPruningPointShielded_inv hexp
  obtain ⟨hnodup, hset⟩ := hiter
  have hcount : nullifiers.length = db.stores.nullifiers.card := by
    rw [← hset, toFinset_card_of_nodup hnodup]
  constructor
  · rintro ⟨s', hs', -⟩
    obtain ⟨md, hmd, hacc, -⟩ := seedPruningPointShielded_eq_ok.mp hs'
    rw [hcodec, Except.ok.injEq] at hmd
    subst hmd
    rw [hmu, ideal.finalize_eq_iff] at hacc
    refine ⟨?_, hacc.nodup_iff.mp hnodup⟩
    rw [← hset, VirtualDb.nullifiersAt, ChainTree.chainSet, toFinset_eq_of_perm _ _ hacc]
  · rintro ⟨heq, hchain⟩
    have hperm : nullifiers.Perm (env.tree.chainKeys db.stores.getDiff pp) :=
      perm_of_nodup_nodup_toFinset_eq hnodup hchain (hset.trans heq)
    obtain ⟨tree, htree⟩ : ∃ tree, GlobalTree.fromState (db.stores.frontierAt pp) = .ok (tree : GlobalTree P) := by
      unfold stateRootAt at hroot
      simp only [Option.bind_eq_bind, Option.bind_eq_some_iff] at hroot
      obtain ⟨tree, htree, -⟩ := hroot
      exact ⟨tree, Except.toOption_eq_some_iff.mp htree⟩
    obtain ⟨s', hs'⟩ := exists_seedStores empty pp
      ⟨db.stores.frontierAt pp, db.stores.supplyTotalsAt pp, db.stores.loadNullifierMuhash pp, root⟩
      nullifiers htree (by rw [hmu, MuHash.ofList_eq])
    obtain ⟨tree', hseed⟩ := seedStores_seeded hs'
    obtain ⟨hfrontier, hsupply, hnullifiers⟩ := hseed.of_empty
    refine ⟨s', ?_, ?_, hfrontier, hsupply, ?_⟩
    · refine seedPruningPointShielded_eq_ok.mpr ⟨_, hcodec _, ?_, hroot, hcount, hs'⟩
      rw [hmu, ideal.finalize_eq_iff]
      exact hperm
    · rw [stateRootAt_eq, hfrontier, hsupply, hseed.muhash_of_empty ideal hmu]
      rfl
    · rw [hnullifiers, hset, heq]

/-- **Honest exports.** In every state a serving node reaches, the metadata of its pruning point with its
global nullifier set is importable if and only if the set is that of the pruning point's chain. For
a node that never crashed and rests at its sink that means: no block above the pruning point spent. -/
theorem export_importable_iff (ideal : MuHashIdeal P) (hcodec : codec.RoundTrips) {statuses : Hash → BlockStatus}
    {es : List Event} {n : VirtualNode P} (hrun : (VirtualNode.genesis env statuses).run env es = some n) {pp : Hash}
    (hpp : pp ∈ env.tree.chain n.sink) {metadata : ShieldedExportMetadata codec}
    (hexp : n.db.stores.exportPruningPointShielded codec pp = some (some metadata))
    {nullifiers : List NullifierBytes} (hiter : n.db.stores.IterAll nullifiers) :
    (Importable codec env n.db pp metadata nullifiers ↔
      n.db.stores.nullifiers = n.db.nullifiersAt env pp ∧ (env.tree.chainKeys n.db.stores.getDiff pp).Nodup) ∧
    (Event.crash ∉ es → n.ctl = .idle n.sink →
      (Importable codec env n.db pp metadata nullifiers ↔
        ∀ b ∈ env.tree.above pp n.sink, n.db.stores.getDiff b = [])) := by
  have hplaced := VirtualNode.run_placed hrun
  have hmu := VirtualNode.run_muHashSnapshots ideal hrun pp (hplaced.committed.mem_chain hplaced.sink hpp)
  have hiff := importable_iff ideal hcodec hmu hexp hiter
  refine ⟨hiff, fun hno hidle => ?_⟩
  obtain ⟨inv, htr⟩ := VirtualNode.inv_run_of_no_crash hno (VirtualNode.inv_genesis env statuses) rfl hrun
  have hset := inv.settled htr
  rw [htr, hidle] at hset
  have hsink : n.db.stores.nullifiers = n.db.nullifiersAt env n.sink := hset
  have hnodup := inv.wf.nodup inv.sink
  rw [hiff, hsink, VirtualDb.nullifiersAt, VirtualDb.nullifiersAt, ChainTree.chainSet_eq_iff hpp hnodup]
  exact and_iff_left (ChainTree.chainKeys_nodup_of_mem hpp hnodup)

end Export

/-- Metadata sent as it is. -/
def plainCodec : MetadataCodec symbolic := ⟨PruningPointShieldedMetadata symbolic, id, .ok⟩

theorem plainCodec_roundTrips : plainCodec.RoundTrips := fun _ => rfl

section ForkExport

open VirtualNode

/-- Resolve to `3`, whose second spend of `7` is dropped, so that nothing above `2` spends. -/
def serveThree : List Event := .start 3 :: forkTicks 5 ++ [.commitVirtual]

theorem serveThree_importable : ∃ n metadata, (genesis forkNet pendingAll).run forkNet serveThree = some n ∧
    n.db.stores.exportPruningPointShielded plainCodec 2 = some (some metadata) ∧
    Importable plainCodec forkNet n.db 2 metadata [7] := by
  have hstate : ((genesis forkNet pendingAll).run forkNet serveThree).map (fun n =>
      (n.sink, n.ctl, n.db.stores.nullifiers,
      n.db.stores.getDiff 3, (n.db.stores.exportPruningPointShielded plainCodec 2).join.isSome)) =
      some (3, .idle 3, {7}, [], true) := by decide
  obtain ⟨n, hrun, hn⟩ := Option.map_eq_some_iff.mp hstate
  obtain ⟨hsink, hctl, hset, hdiff, hexp⟩ := by simpa only [Prod.mk.injEq] using hn
  obtain ⟨metadata, hexp⟩ := Option.isSome_iff_exists.mp hexp
  have hexp := Option.join_eq_some_iff.mp hexp
  refine ⟨n, metadata, hrun, hexp, ?_⟩
  refine ((export_importable_iff symbolic_muHashIdeal plainCodec_roundTrips hrun (by rw [hsink]; decide) hexp
    ⟨by decide, by rw [hset]; decide⟩).2 (by simp [serveThree, forkTicks]) (by rw [hsink, hctl])).mpr ?_
  intro b hb
  rw [hsink] at hb
  obtain rfl : b = 3 := by
    have habove : forkNet.tree.above 2 3 = [3] := by decide
    rw [habove] at hb
    exact mem_singleton.mp hb
  exact hdiff

/-- The pruning point `1` is below the spend of `7` in `2`: the stream holds a nullifier that the
accumulator at `1` does not, and the import fails. -/
theorem spendAbove_notImportable :
    ((genesis forkNet pendingAll).run forkNet (.start 2 :: forkTicks 4 ++ [.commitVirtual])).map
      (fun n => (n.sink, n.db.stores.nullifiers, n.db.nullifiersAt forkNet 1,
        (n.db.stores.exportPruningPointShielded plainCodec 1).join.map fun metadata =>
          (empty.seedPruningPointShielded plainCodec 1 metadata [7]).isOk)) =
      some (2, {7}, ∅, some false) := by
  decide

end ForkExport

/-! ## Importing over old stores -/

/-- The shielded stores of a consensus instance with the stable flag of its pruning meta stores. -/
structure ConsensusStores (P : Prim) where
  shielded : ShieldedStores P
  pruningShieldedStable : Bool

namespace ConsensusStores

variable {codec : MetadataCodec P} {c c' : ConsensusStores P} {pp : Hash} {metadata : ShieldedExportMetadata codec}
  {batches : List (List NullifierBytes)}

/-- `clear_pruning_shielded_stores` (consensus/mod.rs:1734): the flag is all it writes. -/
def clearPruningShieldedStores (c : ConsensusStores P) : ConsensusStores P := { c with pruningShieldedStable := false }

/-- `import_pruning_point_shielded` (consensus/mod.rs:1718). Room for the declared number of nullifiers is
reserved before the first one is read. -/
def importPruningPointShielded (codec : MetadataCodec P) (c : ConsensusStores P) (pp : Hash)
    (metadata : ShieldedExportMetadata codec) (batches : List (List NullifierBytes)) :
    Except (Fault String) (ConsensusStores P) := do
  reserve (metadata.nullifierCount * 32)
  let s ← c.shielded.seedPruningPointShielded codec pp metadata batches.flatten
  pure { c with shielded := s }

/-- A fresh node. -/
def fresh : ConsensusStores P := ⟨empty, true⟩

theorem import_eq_ok : c.importPruningPointShielded codec pp metadata batches = .ok c' ↔
    metadata.nullifierCount * 32 ≤ ISIZE_MAX ∧
      ∃ s, c.shielded.seedPruningPointShielded codec pp metadata batches.flatten = .ok s ∧
        { c with shielded := s } = c' := by
  unfold importPruningPointShielded
  simp only [Except.bind_eq_ok_iff, Except.pure_eq_ok_iff]
  constructor
  · rintro ⟨⟨⟩, hr, h⟩
    exact ⟨reserve_eq_ok_iff.mp hr, h⟩
  · rintro ⟨hr, h⟩
    exact ⟨(), reserve_eq_ok_iff.mpr hr, h⟩

theorem import_ok (h : c.importPruningPointShielded codec pp metadata batches = .ok c') :
    ∃ md tree, codec.fromWireBytes metadata.data = .ok md ∧
      (MuHash.ofList batches.flatten : MuHash P).finalize = md.nullifierMuhash.finalize ∧
      c.shielded.Seeded c'.shielded pp md batches.flatten tree := by
  obtain ⟨-, s', hs, rfl⟩ := import_eq_ok.mp h
  obtain ⟨md, hmd, hacc, -, -, hseed⟩ := seedPruningPointShielded_eq_ok.mp hs
  obtain ⟨tree, hseeded⟩ := seedStores_seeded hseed
  exact ⟨md, tree, hmd, hacc, hseeded⟩

/-- Whether an import is accepted does not depend on the stores it is made into. -/
theorem import_fresh (h : c.importPruningPointShielded codec pp metadata batches = .ok c') :
    ∃ f, fresh.importPruningPointShielded codec pp metadata batches = .ok f ∧
      f.shielded.nullifiers = batches.flatten.toFinset := by
  obtain ⟨hr, s', hs, -⟩ := import_eq_ok.mp h
  obtain ⟨md, hmd, hacc, hroot, hcount, hseed⟩ := seedPruningPointShielded_eq_ok.mp hs
  have hsome : (empty.seedStores pp md batches.flatten).isSome := by
    rw [seedStores_isSome _ c.shielded, hseed]
    rfl
  obtain ⟨s₀, hs₀⟩ := Option.isSome_iff_exists.mp hsome
  obtain ⟨tree, hseeded⟩ := seedStores_seeded hs₀
  have hok := seedPruningPointShielded_eq_ok.mpr ⟨md, hmd, hacc, hroot, hcount, hs₀⟩
  exact ⟨⟨s₀, true⟩, import_eq_ok.mpr ⟨hr, s₀, hok, rfl⟩, hseeded.of_empty.2.2⟩

variable {nullifiers : List NullifierBytes}

/-- The contents of a set reproduce the accumulator of a list exactly if they are that list. -/
theorem iterAll_perm_iff {s : ShieldedStores P}
    (hset : s.nullifiers = nullifiers.toFinset) :
    (∀ nfs, s.IterAll nfs → nfs.Perm nullifiers) ↔ nullifiers.Nodup := by
  constructor
  · intro h
    have hperm := h s.nullifiers.toList ⟨s.nullifiers.nodup_toList, Finset.toList_toFinset _⟩
    exact hperm.nodup_iff.mp s.nullifiers.nodup_toList
  · rintro hnodup nfs ⟨hnfs, heq⟩
    exact perm_of_nodup_nodup_toFinset_eq hnfs hnodup (heq.trans hset)

/-- What the contents of the set hash to, against the accumulator the import left at the pruning point. -/
theorem reproduces_iff (ideal : MuHashIdeal P) {s s' : ShieldedStores P} {md : PruningPointShieldedMetadata P}
    {tree : GlobalTree P} (hseed : s.Seeded s' pp md nullifiers tree)
    (hacc : (MuHash.ofList nullifiers : MuHash P).finalize = md.nullifierMuhash.finalize)
    (hset : s'.nullifiers = nullifiers.toFinset) :
    (∀ nfs, s'.IterAll nfs → (MuHash.ofList nfs : MuHash P).finalize = (s'.loadNullifierMuhash pp).finalize) ↔
      nullifiers.Nodup ∧ (nullifiers = [] → (s.loadNullifierMuhash pp).finalize = MuHash.EMPTY_MUHASH P) := by
  have hnil : md.nullifierMuhash.finalize = MuHash.EMPTY_MUHASH P ↔ nullifiers = [] := by
    have hiff : (MuHash.ofList nullifiers : MuHash P).finalize = (MuHash.ofList [] : MuHash P).finalize ↔
        nullifiers.Perm [] :=
      ideal.finalize_eq_iff
    rw [hacc, perm_nil] at hiff
    exact hiff
  rw [hseed.muhash]
  by_cases hz : nullifiers = []
  · -- the accumulator is not written and the old one stays
    subst hz
    rw [if_neg (not_not.mpr (hnil.mpr rfl))]
    have hiter : ∀ nfs, s'.IterAll nfs ↔ nfs = [] := by
      intro nfs
      rw [ShieldedStores.IterAll, hset, toFinset_nil, toFinset_eq_empty_iff]
      constructor
      · exact fun h => h.2
      · rintro rfl
        exact ⟨nodup_nil, rfl⟩
    simp only [hiter, forall_eq, nodup_nil, true_and, forall_true_left]
    exact eq_comm
  · rw [if_pos (fun he => hz (hnil.mp he)), ← hacc]
    simp only [ideal.finalize_eq_iff, iterAll_perm_iff hset, hz, false_implies, and_true]

/-- **Imports.** After the clear step and a successful import, the global set is the streamed one, its
contents reproduce the accumulator stored at the pruning point, and a fresh node would have the same
set, if and only if the old set was part of the stream, the stream has no repetition, and an empty
stream does not leave an older accumulator at the pruning point in place. -/
theorem import_replaces_iff (ideal : MuHashIdeal P)
    (h : c.clearPruningShieldedStores.importPruningPointShielded codec pp metadata batches = .ok c') :
    (c'.shielded.nullifiers = batches.flatten.toFinset ∧
      (∀ nfs, c'.shielded.IterAll nfs →
        (MuHash.ofList nfs : MuHash P).finalize = (c'.shielded.loadNullifierMuhash pp).finalize) ∧
      ∃ f, fresh.importPruningPointShielded codec pp metadata batches = .ok f ∧
        f.shielded.nullifiers = c'.shielded.nullifiers) ↔
    c.shielded.nullifiers ⊆ batches.flatten.toFinset ∧ batches.flatten.Nodup ∧
      (batches.flatten = [] → (c.shielded.loadNullifierMuhash pp).finalize = MuHash.EMPTY_MUHASH P) := by
  obtain ⟨md, tree, -, hacc, hseed⟩ := import_ok h
  obtain ⟨f, hf, hfset⟩ := import_fresh h
  have hold : c'.shielded.nullifiers = batches.flatten.toFinset ↔ c.shielded.nullifiers ⊆ batches.flatten.toFinset := by
    rw [hseed.nullifiers]
    exact Finset.union_eq_right
  constructor
  · rintro ⟨hset, hrep, -⟩
    exact ⟨hold.mp hset, (reproduces_iff ideal hseed hacc hset).mp hrep⟩
  · rintro ⟨hsub, hrest⟩
    have hset := hold.mpr hsub
    exact ⟨hset, (reproduces_iff ideal hseed hacc hset).mpr hrest, f, hf, hfset.trans hset.symm⟩

end ConsensusStores

/-- Genesis `0` with two branches: `1`, `2` and `3`, `4`. -/
def twoBranches : ChainTree Hash where
  root := 0
  parent b := if b = 2 then 1 else if b = 4 then 3 else 0
  height b := if b = 0 then 0 else if b = 2 ∨ b = 4 then 2 else 1
  height_root := rfl
  height_parent := by
    intro b hb
    by_cases h2 : b = 2
    · subst h2
      decide
    · by_cases h4 : b = 4
      · subst h4
        decide
      · simp only [if_neg hb, h2, h4, or_self, if_false]
        decide

/-- The first branch spends `7`, the second `8`. -/
def branchNet : ChainEnv symbolic :=
  soloNet twoBranches (fun b => if b = 2 ∨ b = 4 then ([51], 0, 50, 0) else ([], 0, 0, 0))
    (fun b => if b = 1 then [spendOf 11 7 []] else if b = 3 then [spendOf 12 8 []] else []) 0

section BranchImport

open VirtualNode ConsensusStores

/-- A node of `branchNet` that has resolved to a tip: an iteration per block, and one into and one out of
the upward loop. -/
def branchNode (tip : Hash) : Option (VirtualNode symbolic) :=
  (genesis branchNet pendingAll).run branchNet
    (.start tip :: replicate (branchNet.tree.height tip + 2) (.tick branchNet.fullView) ++ [.commitVirtual])

/-- What a node at `4` exports for the pruning point `4`. -/
def serveFour : Option (ShieldedExportMetadata plainCodec) :=
  (branchNode 4).bind fun n => (n.db.stores.exportPruningPointShielded plainCodec 4).join

/-- A node at `3`, where nothing is spent yet, imports the state at `4`. -/
theorem importFour_replaces : ∃ n metadata c', branchNode 3 = some n ∧ serveFour = some metadata ∧
    (clearPruningShieldedStores ⟨n.db.stores, true⟩).importPruningPointShielded plainCodec 4 metadata [[8]] = .ok c' ∧
    c'.shielded.nullifiers = {8} := by
  have hstate : (branchNode 3).bind (fun n => serveFour.map fun metadata => (n.db.stores.nullifiers,
      ((clearPruningShieldedStores ⟨n.db.stores, true⟩).importPruningPointShielded plainCodec 4 metadata
        [[8]]).toOption.isSome)) =
      some (∅, true) := by decide
  simp only [Option.bind_eq_some_iff, Option.map_eq_some_iff, Prod.mk.injEq] at hstate
  obtain ⟨n, hn, metadata, hmd, hset, hok⟩ := hstate
  obtain ⟨c', hc'⟩ := Option.isSome_iff_exists.mp hok
  have himport := Except.toOption_eq_some_iff.mp hc'
  have hreplaced := (import_replaces_iff symbolic_muHashIdeal himport).mpr ⟨by simp [hset], by decide, by simp⟩
  exact ⟨n, metadata, c', hn, hmd, himport, hreplaced.1⟩

/-- A node on the branch that lost keeps `7` through clear and import; a fresh node has only `8`. -/
theorem staleBranch_survives :
    (branchNode 2).bind (fun n => serveFour.map fun metadata => (n.db.stores.nullifiers,
      ((clearPruningShieldedStores ⟨n.db.stores, true⟩).importPruningPointShielded plainCodec 4 metadata
        [[8]]).toOption.map
        (·.shielded.nullifiers),
      (fresh.importPruningPointShielded plainCodec 4 metadata [[8]]).toOption.map (·.shielded.nullifiers))) =
      some ({7}, some {7, 8}, some {8}) := by
  decide

end BranchImport

end Firecash
