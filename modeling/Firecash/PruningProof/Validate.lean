import Firecash.Ghostdag.Dag
import Firecash.Pow.PeerHeader
import Firecash.Reachability.Covering

/-!
# Validation of a headers proof (consensus/src/processes/pruning_proof/validate.rs)

A pruning-point proof lists headers for every block level. `from_proof` goes through the levels from the
highest one down and rebuilds, for each of them, a DAG of its headers from the parents they name at that
level: relations, GHOSTDAG data and reachability.

A panic is an `unwrap` or `expect` that fails. The sums with `pruning_proof_m`, a constant of the network, are not
checked for overflow. `exiting` is what the exit flag reads before each level.
-/

namespace Firecash

open Except

variable {Q : PowPrim}

/-- `PruningImportError`, as far as proofs are concerned. -/
inductive PruningImportError where
  | proofNotEnoughLevels (levels : Nat)
  | pruningProofWrongBlockLevel (hash : Hash) (headerLevel level : BlockLevel)
  | pruningProofHeaderWithNoKnownParents (hash : Hash) (level : BlockLevel)
  | pruningProofInconsistentBlueWork (hash : Hash) (level : BlockLevel)
  | pruningProofMissingBlockAtDepthMFromNextLevel (level next : BlockLevel)
  | pruningProofSelectedTipIsNotThePruningPoint (hash : Hash) (level : BlockLevel)
  | pruningProofSelectedTipNotParentOfPruningPoint (hash : Hash) (level : BlockLevel)
  | pruningProofSelectedTipNotEnoughBlueScore (hash : Hash) (level : BlockLevel) (score : Nat)
  | pruningProofSelectedTipNotLast (last tip : Hash) (level : BlockLevel)
  | pruningProofNotEnoughHeaders
  | pruningProofDuplicateHeaderAtLevel (hash : Hash) (level : BlockLevel)
  | proofOfWorkFailed (hash : Hash) (level : BlockLevel)
  | insufficientBlueWork
  | notEnoughHeaders
  deriving DecidableEq

/-- The fields of `PruningProofManager` that validation reads, and the rounded shares by which a
reindexing splits an interval. -/
structure ProofParams where
  maxBlockLevel : BlockLevel
  genesisHash : Hash
  pruningProofM : Nat
  ghostdagK : Nat
  skipProofOfWork : Bool
  mergedMiningActivation : UInt64
  reindexShare : Nat → List Nat → Nat → Nat

/-- A header of a proof, with its witness. -/
structure ProofHeader (Q : PowPrim) where
  header : RawHeader
  auxPow : Option (RawAuxPow Q)

def ProofHeader.hash (h : ProofHeader Q) : Hash := h.header.hash

/-- A failed `unwrap` or `expect`. -/
def unwrap {ε α : Type} (o : Option α) : Except (Fault ε) α := ofOption .panic o

namespace ProofParams

variable (P : ProofParams)

/-- `parents_at_level` (parents_builder.rs:187) -/
def parentsAtLevel (header : RawHeader) (level : BlockLevel) : List Hash :=
  (header.parentsByLevel.get level.toNat).getD (if header.parentsByLevel.runs.isEmpty then [] else [P.genesisHash])

/-- `calc_block_level_check_pow_gated` with the parameters of the network -/
def levelAndPow (h : ProofHeader Q) : Option (BlockLevel × Bool) :=
  h.header.calcBlockLevelCheckPowGated h.auxPow P.maxBlockLevel P.skipProofOfWork (P.mergedMiningActivation ≤
    h.header.daaScore)

end ProofParams

/-! ## The stores of a level -/

/-- The headers store: a hash keeps the header that came first. -/
def insertHeader (headers : List (ProofHeader Q)) (h : ProofHeader Q) : List (ProofHeader Q) :=
  if headers.any fun old => old.hash = h.hash then headers else h :: headers

def getHeader (headers : List (ProofHeader Q)) (hash : Hash) : Option (ProofHeader Q) :=
  headers.find? fun h => h.hash = hash

/-- Relations, GHOSTDAG data and reachability of one level; `ORIGIN` is in all three. -/
structure LevelStores where
  blocks : List DagEntry
  reachability : ReachabilityStore Hash

namespace LevelStores

def init : LevelStores := ⟨[], .init ORIGIN .maximal⟩

variable (S : LevelStores)

def get (hash : Hash) : Option DagEntry := S.blocks.find? fun e => e.hash = hash

/-- `ghostdag_store.has`, which agrees with `relations_store.has` -/
def has (hash : Hash) : Bool := hash = ORIGIN || (S.get hash).isSome

def getData (hash : Hash) : Option StoredGhostdagData :=
  if hash = ORIGIN then some originGhostdagData else (S.get hash).map DagEntry.data

/-- `is_dag_ancestor_of` of the reachability service. It unwraps the answer, which is there for blocks of
the level (`Tracks.isDagAncestorOf_eq`). -/
def isDagAncestorOf (a b : Hash) : Bool := (S.reachability.isDagAncestorOf a b).toOption.getD false

/-- `GhostdagManager::with_level` -/
def manager (P : ProofParams) (level : BlockLevel) (headers : List (ProofHeader Q)) : GhostdagManager where
  genesisHash := P.genesisHash
  k := P.ghostdagK
  getData := S.getData
  getParents hash := if hash = ORIGIN then some [] else (S.get hash).map DagEntry.parents
  getBits hash := (getHeader headers hash).map fun h => h.header.bits
  isDagAncestorOf := S.isDagAncestorOf
  levelWork := levelWork level P.maxBlockLevel
  size := S.blocks.length + 1

end LevelStores

/-- `unordered_mergeset_without_selected_parent` of GHOSTDAG data (stores/ghostdag.rs:164) -/
def StoredGhostdagData.unorderedMergesetWithoutSelectedParent (data : StoredGhostdagData) : List Hash :=
  data.mergesetBlues.drop 1 ++ data.mergesetReds

/-- `headers_store`, the stores of the level and its `selected_tip` -/
structure LevelState (Q : PowPrim) where
  headers : List (ProofHeader Q)
  stores : LevelStores
  selectedTip : Hash

/-- The loop that compares blue works; `get_header` panics on a block without a header. -/
def checkBlueWork (headers : List (ProofHeader Q)) (level : BlockLevel) (h : ProofHeader Q) :
    List Hash → Except (Fault PruningImportError) Unit
  | [] => .ok ()
  | parent :: parents => do
    let parentHeader ← unwrap (getHeader headers parent)
    require (parentHeader.header.blueWork < h.header.blueWork) (.err (.pruningProofInconsistentBlueWork h.hash level))
    checkBlueWork headers level h parents

variable (P : ProofParams) (level : BlockLevel)

/-- The known parents of a header at the level. -/
def LevelStores.knownParents (S : LevelStores) (h : ProofHeader Q) : List Hash :=
  (P.parentsAtLevel h.header level).filter S.has

/-- The reachability store after a block, with a hint if it is the selected tip. -/
def extendReachability (s : ReachabilityStore Hash) (hash selectedParent : Hash) (mergeset : List Hash) (isTip : Bool) :
    Except (Fault PruningImportError) (ReachabilityStore Hash) := do
  let s ← unwrap (s.addBlock P.reindexShare hash selectedParent mergeset).toOption
  if isTip then unwrap (s.hintVirtualSelectedParent P.reindexShare hash).toOption else pure s

/-- The stores after a header: GHOSTDAG data, selected tip, reachability. -/
def insertBlock (st : LevelState Q) (h : ProofHeader Q) (parents : List Hash) :
    Except (Fault PruningImportError) (LevelState Q) := do
  let data ← unwrap ((st.stores.manager P level st.headers).ghostdag parents)
  let bits ← unwrap ((getHeader st.headers h.hash).map fun h => h.header.bits)
  let stores := { st.stores with blocks := ⟨h.hash, parents.eraseDups, bits, data⟩ :: st.stores.blocks }
  let selectedTip ← unwrap ((stores.manager P level st.headers).findSelectedParent [st.selectedTip, h.hash])
  let mergeset := data.unorderedMergesetWithoutSelectedParent.filter fun m => decide (m ∈ st.stores.reachability.nodes)
  let reachability ← extendReachability P st.stores.reachability h.hash data.selectedParent mergeset
    (selectedTip = h.hash)
  pure { st with stores := { stores with reachability := reachability }, selectedTip := selectedTip }

/-- One header of a level; `first` is `i == 0`. -/
def addHeader (st : LevelState Q) (h : ProofHeader Q) (first : Bool) :
    Except (Fault PruningImportError) (LevelState Q) := do
  let (headerLevel, powPasses) ← unwrap (P.levelAndPow h)
  require (level ≤ headerLevel) (.err (.pruningProofWrongBlockLevel h.hash headerLevel level))
  require (P.skipProofOfWork = true ∨ powPasses = true) (.err (.proofOfWorkFailed h.hash level))
  let st := { st with headers := insertHeader st.headers h }
  let parents := st.stores.knownParents P level h
  require (parents ≠ [] ∨ first = true) (.err (.pruningProofHeaderWithNoKnownParents h.hash level))
  checkBlueWork st.headers level h parents
  require (st.stores.has h.hash = false) (.err (.pruningProofDuplicateHeaderAtLevel h.hash level))
  -- `push_if_empty(ORIGIN)`
  insertBlock P level st h (if parents.isEmpty then [ORIGIN] else parents)

/-- The headers of a level in order. -/
def addHeaders (P : ProofParams) (level : BlockLevel) (st : LevelState Q) : List (ProofHeader Q) → Bool →
    Except (Fault PruningImportError) (LevelState Q)
  | [], _ => .ok st
  | h :: hs, first => do
    let st ← addHeader P level st h first
    addHeaders P level st hs false

/-! ## Levels -/

/-- A level that passed: its stores and its selected tip -/
structure LevelContext where
  stores : LevelStores
  selectedTip : Hash

/-- The loop of `block_at_depth` from `current` on. -/
def LevelStores.blockAtDepthFrom (S : LevelStores) (highScore depth : Nat) :
    Nat → Hash → StoredGhostdagData → Option Hash
  | fuel, current, data =>
    if data.blueScore + depth ≥ highScore then
      if data.selectedParent = ORIGIN then some current
      else
        match fuel, S.getData data.selectedParent with
        | fuel + 1, some next => S.blockAtDepthFrom highScore depth fuel data.selectedParent next
        | _, _ => none
    else some current

/-- `block_at_depth` (mod.rs:445); `none` is its error. -/
def LevelStores.blockAtDepth (S : LevelStores) (high : Hash) (depth : Nat) : Option Hash :=
  (S.getData high).bind fun data => S.blockAtDepthFrom data.blueScore depth S.blocks.length high data

/-- The block at depth `M` of the level above must be there. -/
def checkDepth (S : LevelStores) : List LevelContext → Except (Fault PruningImportError) Unit
  | [] => .ok ()
  | next :: _ => do
    let block ← unwrap (next.stores.blockAtDepth next.selectedTip P.pruningProofM)
    require (S.has block = true) (.err (.pruningProofMissingBlockAtDepthMFromNextLevel level (level + 1)))

variable (pp : ProofHeader Q)

/-- The selected tip is the pruning point, or a parent of it at levels that the pruning point does not reach. -/
def checkAnchored (ppLevel level : BlockLevel) (selectedTip : Hash) :
    Except (Fault PruningImportError) Unit :=
  if level ≤ ppLevel then
    require (selectedTip = pp.hash) (.err (.pruningProofSelectedTipIsNotThePruningPoint selectedTip level))
  else
    require (selectedTip ∈ P.parentsAtLevel pp.header level)
      (.err (.pruningProofSelectedTipNotParentOfPruningPoint selectedTip level))

/-- The end of a level; `above` is the contexts of the levels above it, the next one first. -/
def finishLevel (ppLevel level : BlockLevel) (root last : ProofHeader Q) (above : List LevelContext)
    (st : LevelState Q) : Except (Fault PruningImportError) LevelContext := do
  checkDepth P level st.stores above
  checkAnchored P pp ppLevel level st.selectedTip
  require (last.hash = st.selectedTip) (.err (.pruningProofSelectedTipNotLast last.hash st.selectedTip level))
  let tip ← unwrap (st.stores.getData st.selectedTip)
  require (root.hash = P.genesisHash ∨ 2 * P.pruningProofM ≤ tip.blueScore)
    (.err (.pruningProofSelectedTipNotEnoughBlueScore st.selectedTip level tip.blueScore))
  pure ⟨st.stores, st.selectedTip⟩

/-- One level, from its first header on. -/
def processLevel (ppLevel level : BlockLevel) (above : List LevelContext)
    (headers : List (ProofHeader Q)) (proofLevel : List (ProofHeader Q)) :
    Except (Fault PruningImportError) (List (ProofHeader Q) × LevelContext) := do
  let root ← ofOption (.err .pruningProofNotEnoughHeaders) proofLevel.head?
  let st ← addHeaders P level ⟨headers, .init, root.hash⟩ proofLevel true
  let last ← unwrap proofLevel.getLast?
  let ctx ← finishLevel P pp ppLevel level root last above st
  pure (st.headers, ctx)

/-- The levels from the highest one down; the number of a level is the number of levels below it. `none`:
the process exits. -/
def processLevels (P : ProofParams) (exiting : BlockLevel → Bool) (pp : ProofHeader Q) (ppLevel : BlockLevel) :
    List (List (ProofHeader Q)) → List (ProofHeader Q) → List LevelContext →
      Except (Fault PruningImportError) (Option (List LevelContext))
  | [], _, done => .ok (some done)
  | proofLevel :: below, headers, done =>
    let level := UInt8.ofNat below.length
    if exiting level then .ok none
    else do
      let (headers, ctx) ← processLevel P pp ppLevel level done headers proofLevel
      processLevels P exiting pp ppLevel below headers (ctx :: done)

/-- `ProofContext`: the levels from 0 on, and the header of the pruning point. -/
structure ProofContext (Q : PowPrim) where
  levels : List LevelContext
  ppHeader : ProofHeader Q

/-- `ProofContext::from_proof` (validate.rs:99) -/
def fromProof (exiting : BlockLevel → Bool) (proof : List (List (ProofHeader Q))) :
    Except (Fault PruningImportError) (Option (ProofContext Q)) := do
  require (proof.length = P.maxBlockLevel.toNat + 1) (.err (.proofNotEnoughLevels (P.maxBlockLevel.toNat + 1)))
  let pp ← ofOption (.err .pruningProofNotEnoughHeaders) (proof.head?.bind List.getLast?)
  let (ppLevel, _) ← unwrap (P.levelAndPow pp)
  let levels ← processLevels P exiting pp ppLevel proof.reverse [] []
  pure (levels.map fun levels => ⟨levels, pp⟩)

/-! ## Comparison -/

namespace LevelContext

variable (challenger defender : LevelContext)

/-- The loop of `find_common_ancestor`; the outer `none` is a panic. -/
def findCommonAncestorFrom : Nat → Hash → StoredGhostdagData → Option (Option Hash)
  | fuel, current, data =>
    if defender.stores.has current then some (some current)
    else if data.selectedParent = ORIGIN then some none
    else
      match fuel, challenger.stores.getData data.selectedParent with
      | fuel + 1, some next => findCommonAncestorFrom fuel data.selectedParent next
      | _, _ => none

/-- `find_common_ancestor` (validate.rs:67) -/
def findCommonAncestor : Option (Option Hash) :=
  (challenger.stores.getData challenger.selectedTip).bind
    (challenger.findCommonAncestorFrom defender challenger.stores.blocks.length challenger.selectedTip)

variable (ctx : LevelContext)

/-- `Uint192::saturating_sub` -/
def saturatingSub (a b : BlueWork) : BlueWork := BitVec.ofNat 192 (a.toNat - b.toNat)

/-- `Uint192::saturating_add` -/
def saturatingAdd (a b : BlueWork) : BlueWork := BitVec.ofNat 192 (min (a.toNat + b.toNat) (2 ^ 192 - 1))

/-- `blue_work_diff` -/
def blueWorkDiff (ancestor : Hash) : Option BlueWork := do
  let tip ← ctx.stores.getData ctx.selectedTip
  let low ← ctx.stores.getData ancestor
  pure (saturatingSub tip.blueWork low.blueWork)

def blueScore : Option Nat := (ctx.stores.getData ctx.selectedTip).map StoredGhostdagData.blueScore

end LevelContext

open LevelContext in
/-- The first loop of `compare_proofs_inner`, over pairs of the challenger's and the defender's level; the
inner `none`: no level decides. -/
def compareLevels (P : ProofParams) (challengerWork defenderWork : BlueWork) :
    List (LevelContext × LevelContext) → Option (Option (Except PruningImportError Unit))
  | [] => some none
  | (challenger, defender) :: rest => do
    let score ← challenger.blueScore
    if score < 2 * P.pruningProofM then compareLevels P challengerWork defenderWork rest
    else
      match ← challenger.findCommonAncestor defender with
      | some ancestor => do
        let defenderDiff ← defender.blueWorkDiff ancestor
        let challengerDiff ← challenger.blueWorkDiff ancestor
        if saturatingAdd defenderDiff defenderWork ≥ saturatingAdd challengerDiff challengerWork then
          pure (some (.error .insufficientBlueWork))
        else pure (some (.ok ()))
      | none => compareLevels P challengerWork defenderWork rest

/-- The last loop: a level with `2M` blues that the defender lacks. -/
def betterLevel (P : ProofParams) : List (LevelContext × LevelContext) → Option Bool
  | [] => some false
  | (challenger, defender) :: rest => do
    let challengerScore ← challenger.blueScore
    if challengerScore < 2 * P.pruningProofM then betterLevel P rest
    else do
      let defenderScore ← defender.blueScore
      if defenderScore < 2 * P.pruningProofM then pure true else betterLevel P rest

/-- `compare_proofs_inner` (validate.rs:381) -/
def compareProofsInner (P : ProofParams) (defender challenger : ProofContext Q)
    (defenderRelayBlueWork challengerRelayBlueWork : BlueWork) :
    Except (Fault PruningImportError) Unit := do
  let defenderWork := LevelContext.saturatingSub defenderRelayBlueWork defender.ppHeader.header.blueWork
  let challengerWork := LevelContext.saturatingSub challengerRelayBlueWork challenger.ppHeader.header.blueWork
  let levels := challenger.levels.zip defender.levels
  match ← unwrap (compareLevels P challengerWork defenderWork levels) with
  | some result => result.mapError .err
  | none =>
    if defender.ppHeader.hash = P.genesisHash then pure ()
    else do
      let better ← unwrap (betterLevel P levels.reverse)
      require (better = true) (.err .notEnoughHeaders)

end Firecash
