import Firecash.Lib.Parse
import Firecash.Lib.RunLength
import Firecash.Pow.Gate

/-!
# Headers from peers

A header is stored with its parents run-length encoded (a canonical form of them, `compressed_canonical`),
and hashing it expands them; the expansion panics on counts that do not increase. The conversion of a
peer's header checks the counts (`tryFrom_ne_panic`), but the parent header inside its merged-mining
witness comes out of a derived decoder as it is. The gate hashes that header as soon as the witness is
bound to the block, before any proof of work is known: it panics exactly on a bound witness with such
counts under a header without native proof of work (`witness_harmless_iff`).

The witness inside a witness's own parent header is decoded and dropped: nothing reads it.
-/

namespace Firecash

open Option Except

variable {Q : PowPrim}

/-! ## Compressed parents -/

/-- `CompressedParents` (header.rs:19) -/
structure CompressedParents where
  runs : List (UInt8 × List Hash)
  deriving DecidableEq

inductive CompressedParentsError where
  | levelsExceeded
  | levelsNotStrictlyIncreasing
  | notFullyCompressed
  deriving DecidableEq

namespace CompressedParents

variable (parents : CompressedParents)

/-- `(*cum as usize, v)` -/
def wide : List (Nat × List Hash) := parents.runs.map fun run => (run.1.toNat, run.2)

/-- `expanded_iter`, run to its end; `none`: "cumulative counts must be strictly increasing". -/
def expandedIter : Option (List (List Hash)) := RunLength.expand 0 parents.wide

/-- `expanded_len` (header.rs:22) -/
def expandedLen : Nat := (parents.runs.getLast?.map fun run => run.1.toNat).getD 0

/-- The parents of one level. On counts that increase, `partition_point` finds the first run that reaches the index. -/
def get (index : Nat) : Option (List Hash) :=
  (parents.runs.find? fun run => decide (index < run.1.toNat)).map Prod.snd

/-- `get` (header.rs:30) with its shortcuts and its search; `none`: an index beyond the runs. -/
def getIndexed (index : Nat) : Option (Option (List Hash)) :=
  if index ≥ parents.expandedLen then some none
  else if index = 0 then parents.runs[0]?.map (some ·.2)
  -- `partition_point` is the index of the first run for which the predicate fails
  else parents.runs[parents.runs.findIdx fun run => !decide (run.1.toNat - 1 < index)]?.map (some ·.2)

/-- `push` (header.rs:51); `none`: "exceeded max levels of 255". -/
def push (level : List Hash) : Option CompressedParents :=
  match parents.runs.getLast? with
  | none => some ⟨[(1, level)]⟩
  | some (count, last) =>
    if count = 255 then none
    else if last = level then some ⟨parents.runs.dropLast ++ [(count + 1, last)]⟩
    else some ⟨parents.runs ++ [(count + 1, level)]⟩

/-- The loop of `try_from(Vec<(u8, Vec<Hash>)>)` over neighbouring runs. -/
def checkWindows : List (UInt8 × List Hash) → Except CompressedParentsError Unit
  | last :: run :: rest =>
    if run.1 ≤ last.1 then .error .levelsNotStrictlyIncreasing
    else if last.2 = run.2 then .error .notFullyCompressed
    else checkWindows (run :: rest)
  | _ => .ok ()

/-- `try_from(Vec<(u8, Vec<Hash>)>)` (header.rs:97) -/
def tryFromRuns (runs : List (UInt8 × List Hash)) : Except CompressedParentsError CompressedParents := do
  require (runs.head?.map Prod.fst ≠ some 0) .levelsNotStrictlyIncreasing
  checkWindows runs
  pure ⟨runs⟩

/-- `try_from(Vec<Vec<Hash>>)` (header.rs:84) -/
def tryFromLevels (levels : List (List Hash)) : Except CompressedParentsError CompressedParents :=
  if levels.length > 255 then .error .levelsExceeded
  else .ok ⟨(RunLength.encode levels).map fun run => (UInt8.ofNat run.1, run.2)⟩

/-- Expanding does not panic. -/
def WellFormed : Prop := RunLength.Increasing 0 parents.wide

instance (parents : CompressedParents) : Decidable parents.WellFormed := RunLength.decidableIncreasing ..

variable {parents : CompressedParents}

theorem expandedIter_isSome_iff : parents.expandedIter.isSome ↔ parents.WellFormed :=
  RunLength.expand_isSome_iff

/-- The neighbouring runs that pass: the counts increase and the parents differ. -/
theorem checkWindows_ok_iff {run : UInt8 × List Hash} {rest : List (UInt8 × List Hash)} :
    checkWindows (run :: rest) = .ok () ↔
    RunLength.Increasing run.1.toNat (rest.map fun run => (run.1.toNat, run.2)) ∧
      ((run :: rest).map Prod.snd).IsChain (· ≠ ·) := by
  induction rest generalizing run with
  | nil => simp [checkWindows, RunLength.Increasing]
  | cons next rest ih =>
    have less : ¬ next.1 ≤ run.1 ↔ run.1.toNat < next.1.toNat := UInt8.not_le.trans UInt8.lt_iff_toNat_lt
    simp only [checkWindows, List.map_cons, RunLength.Increasing, List.isChain_cons_cons, ← less] at ih ⊢
    split_ifs with low same
    · simp [low]
    · simp [same]
    · simp [ih, low, same]

/-- The runs are the compressed form of the levels. -/
def Compresses (parents : CompressedParents) (levels : List (List Hash)) : Prop :=
  RunLength.Compresses parents.wide levels

variable {levels : List (List Hash)}

theorem Compresses.wellFormed (h : parents.Compresses levels) : parents.WellFormed :=
  expandedIter_isSome_iff.mp (isSome_of_eq_some h.expands)

/-- The raw runs that are accepted. -/
theorem tryFromRuns_ok_iff {runs : List (UInt8 × List Hash)} :
    tryFromRuns runs = .ok parents ↔ parents = ⟨runs⟩ ∧ ∃ levels, parents.Compresses levels := by
  have compresses : (∃ levels, (mk runs).Compresses levels) ↔ (mk runs).WellFormed ∧
      (runs.map Prod.snd).IsChain (· ≠ ·) := by
    have differ : (mk runs).wide.map Prod.snd = runs.map Prod.snd := by simp [wide]
    rw [← expandedIter_isSome_iff, isSome_iff_exists, ← differ]
    exact ⟨fun ⟨levels, h⟩ => ⟨⟨levels, h.expands⟩, h.compressed⟩, fun ⟨⟨levels, h⟩, differ⟩ => ⟨levels, h, differ⟩⟩
  have accepted : tryFromRuns runs = .ok parents ↔ parents = ⟨runs⟩ ∧ runs.head?.map Prod.fst ≠ some 0 ∧
      checkWindows runs = .ok () := by
    constructor
    · intro h
      obtain ⟨first, h⟩ := require_bind_eq_ok_iff.mp h
      obtain ⟨_, windows, h⟩ := bind_eq_ok_iff.mp h
      exact ⟨(pure_eq_ok_iff.mp h).symm, first, windows⟩
    · rintro ⟨rfl, first, windows⟩
      exact require_bind_eq_ok_iff.mpr ⟨first, bind_eq_ok_iff.mpr ⟨_, windows, rfl⟩⟩
  rw [accepted]
  refine and_congr_right ?_
  rintro rfl
  rw [compresses]
  cases runs with
  | nil => simp [checkWindows, WellFormed, wide, RunLength.Increasing]
  | cons run rest =>
    have first : run.1 ≠ 0 ↔ 0 < run.1.toNat := by rw [Nat.pos_iff_ne_zero, ne_eq, ne_eq, ← UInt8.toNat_inj]; rfl
    rw [checkWindows_ok_iff, List.head?_cons, map_some, ne_eq, Option.some_inj, ← ne_eq, first, ← and_assoc]
    rfl

namespace Compresses

theorem expandedLen_eq (h : parents.Compresses levels) : parents.expandedLen = levels.length := by
  rw [← RunLength.length_of_expand h.expands, wide, List.getLast?_map, Option.map_map]
  rfl

theorem get_eq (h : parents.Compresses levels) (index : Nat) : parents.get index = levels[index]? := by
  rw [RunLength.getElem?_of_expand h.expands, wide, List.find?_map, Option.map_map, Nat.zero_add]
  rfl

theorem getIndexed_eq (h : parents.Compresses levels) (index : Nat) :
    parents.getIndexed index = some levels[index]? := by
  rw [getIndexed, h.expandedLen_eq]
  split_ifs with beyond first
  · rw [List.getElem?_eq_none beyond]
  all_goals
    have found := h.get_eq index
    rw [List.getElem?_eq_getElem (Nat.not_le.mp beyond)] at found ⊢
    obtain ⟨run, hrun, same⟩ := map_eq_some_iff.mp found
  · obtain ⟨_ | ⟨first, rest⟩⟩ := parents
    · cases hrun
    · have positive : 0 < first.1.toNat := h.wellFormed.1
      simp [*] at hrun
      simp [hrun, same]
  · have search : (fun run : UInt8 × List Hash => !decide (run.1.toNat - 1 < index)) = fun run =>
        decide (index < run.1.toNat) := by
      funext run
      rw [← decide_not, decide_eq_decide]
      omega
    rw [search, ← List.find?_eq_getElem?_findIdx, hrun, map_some, same]

theorem push (h : parents.Compresses levels) (room : levels.length < 255) (level : List Hash) :
    ∃ pushed, parents.push level = some pushed ∧ pushed.Compresses (levels ++ [level]) := by
  have next := RunLength.Compresses.push h level
  have length := h.expandedLen_eq
  unfold CompressedParents.push
  unfold expandedLen at length
  rw [wide, RunLength.push, List.getLast?_map] at next
  cases last : parents.runs.getLast? with
  | none =>
    rw [last] at next
    exact ⟨_, rfl, next⟩
  | some run =>
    rw [last] at next length
    have small : run.1.toNat < 255 := by
      rw [← length] at room
      exact room
    have full : run.1 ≠ 255 := fun full => absurd (full ▸ small) (by decide)
    have count : (run.1 + 1).toNat = run.1.toNat + 1 := by
      rw [UInt8.toNat_add, UInt8.toNat_one]
      omega
    simp only [if_neg full]
    simp only [Option.map_some, ← List.map_dropLast] at next
    split_ifs at next ⊢ with same
    all_goals exact ⟨_, rfl, by simpa [CompressedParents.Compresses, wide, count] using next⟩

theorem length_le (h : parents.Compresses levels) : levels.length ≤ 255 := by
  rw [← h.expandedLen_eq, expandedLen]
  cases parents.runs.getLast? with
  | none => exact Nat.zero_le _
  | some run => exact Nat.le_of_lt_succ run.1.toNat_lt

theorem tryFromLevels_eq (h : parents.Compresses levels) : tryFromLevels levels = .ok parents := by
  rw [tryFromLevels, if_neg (Nat.not_lt.mpr h.length_le), h.encode_eq, wide, List.map_map]
  simp [Function.comp_def]

end Compresses

/-- Pushing the levels one by one gives their compressed form. -/
theorem push_levels (few : levels.length ≤ 255) :
    ∃ parents, levels.foldlM push ⟨[]⟩ = some parents ∧ parents.Compresses levels := by
  induction levels using List.reverseRecOn with
  | nil => exact ⟨_, rfl, rfl, .nil⟩
  | append_singleton levels level ih =>
    rw [List.length_append, List.length_singleton] at few
    obtain ⟨parents, run, h⟩ := ih (by omega)
    obtain ⟨pushed, pushes, compresses⟩ := h.push (by omega) level
    exact ⟨pushed, by rw [List.foldlM_append, run]; simpa using pushes, compresses⟩

/-- The levels of a legacy header are read back by the expansion. -/
theorem tryFromLevels_expand (h : tryFromLevels levels = .ok parents) :
    parents.expandedIter = some levels := by
  have few : levels.length ≤ 255 := by
    by_contra many
    rw [tryFromLevels, if_pos (by omega)] at h
    cases h
  obtain ⟨pushed, -, compresses⟩ := push_levels few
  cases compresses.tryFromLevels_eq.symm.trans h
  exact compresses.expands

end CompressedParents

/-! ## Stored headers -/

/-- `Header` (header.rs:137) as it is stored, without its witness. -/
structure RawHeader where
  hash : Hash
  version : UInt16
  parentsByLevel : CompressedParents
  hashMerkleRoot : Hash
  acceptedIdMerkleRoot : Hash
  utxoCommitment : Hash
  timestamp : UInt64
  bits : UInt32
  nonce : UInt64
  daaScore : UInt64
  blueWork : BitVec 192
  blueScore : UInt64
  pruningPoint : Hash

/-- The header that is hashed; `none`: its parents cannot be expanded. -/
def RawHeader.expand (header : RawHeader) : Option Header :=
  header.parentsByLevel.expandedIter.map fun levels =>
    ⟨header.hash, header.version, levels, header.hashMerkleRoot, header.acceptedIdMerkleRoot, header.utxoCommitment,
      header.timestamp, header.bits, header.nonce, header.daaScore, header.blueWork, header.blueScore,
      header.pruningPoint⟩

/-- **Compressed parents are a canonical encoding.** Levels that are converted or pushed one by one are
read back by each of the accessors, and the raw runs that are accepted are those of some levels, so
accepted runs that expand to the same levels are the same. -/
theorem CompressedParents.compressed_canonical :
    (∀ levels : List (List Hash), levels.length ≤ 255 → ∃ parents, tryFromLevels levels = .ok parents ∧
      levels.foldlM push ⟨[]⟩ = some parents ∧ parents.expandedIter = some levels ∧
        parents.expandedLen = levels.length ∧
      ∀ index, parents.getIndexed index = some levels[index]?) ∧
    (∀ runs, (∃ parents, tryFromRuns runs = .ok parents) ↔ ∃ levels : List (List Hash), levels.length ≤ 255 ∧
      tryFromLevels levels = .ok ⟨runs⟩) ∧
    ∀ runs₁ runs₂ parents₁ parents₂, tryFromRuns runs₁ = .ok parents₁ → tryFromRuns runs₂ = .ok parents₂ →
      parents₁.expandedIter = parents₂.expandedIter → runs₁ = runs₂ ∧
        ∀ (headerHash : Header → Hash) (header : RawHeader),
        ({ header with parentsByLevel := parents₁ }.expand).map headerHash =
          ({ header with parentsByLevel := parents₂ }.expand).map headerHash := by
  refine ⟨fun levels few => ?_, fun runs => ?_, fun runs₁ runs₂ parents₁ parents₂ h₁ h₂ same => ?_⟩
  · obtain ⟨parents, pushes, h⟩ := push_levels few
    exact ⟨parents, h.tryFromLevels_eq, pushes, h.expands, h.expandedLen_eq, h.getIndexed_eq⟩
  · constructor
    · rintro ⟨_, accepted⟩
      obtain ⟨rfl, levels, h⟩ := tryFromRuns_ok_iff.mp accepted
      exact ⟨levels, h.length_le, h.tryFromLevels_eq⟩
    · rintro ⟨levels, few, converted⟩
      obtain ⟨parents, -, h⟩ := push_levels few
      cases h.tryFromLevels_eq.symm.trans converted
      exact ⟨_, tryFromRuns_ok_iff.mpr ⟨rfl, levels, h⟩⟩
  · obtain ⟨rfl, levels₁, compresses₁⟩ := tryFromRuns_ok_iff.mp h₁
    obtain ⟨rfl, levels₂, compresses₂⟩ := tryFromRuns_ok_iff.mp h₂
    cases compresses₁.expands.symm.trans (same.trans compresses₂.expands)
    cases compresses₁.tryFromLevels_eq.symm.trans compresses₂.tryFromLevels_eq
    exact ⟨rfl, fun _ _ => rfl⟩

structure RawAuxPow (Q : PowPrim) where
  parentHeader : RawHeader
  parentCoinbase : Q.Tx
  coinbaseMerkleBranch : List Hash

def RawAuxPow.expand (aux : RawAuxPow Q) : Option (AuxPow Q) :=
  aux.parentHeader.expand.map fun header => ⟨header, aux.parentCoinbase, aux.coinbaseMerkleBranch⟩

variable {header : RawHeader}

theorem RawHeader.expand_isSome_iff : header.expand.isSome ↔ header.parentsByLevel.WellFormed := by
  rw [expand, isSome_map, CompressedParents.expandedIter_isSome_iff]

variable {h : Header}

theorem RawHeader.expand_fields (eq : header.expand = some h) :
    h.hash = header.hash ∧ h.hashMerkleRoot = header.hashMerkleRoot ∧ h.bits = header.bits ∧ h.nonce = header.nonce ∧
      header.parentsByLevel.expandedIter = some h.parentsByLevel := by
  obtain ⟨levels, hlevels, rfl⟩ := map_eq_some_iff.mp eq
  exact ⟨rfl, rfl, rfl, rfl, hlevels⟩

/-! ## The derived decoders -/

/-- The derived decoder of `Transaction`, and the text of a decoding error. -/
structure BorshTx (Q : PowPrim) where
  tx : Parse Q.Tx
  errorText : List UInt8 → String

def borshU32 : Parse Nat := .take 4 fun bs => .done (ofLe bs)

/-- `Vec<T>` -/
def borshVec {α : Type} (p : Parse α) : Parse (List α) := do
  let n ← borshU32
  Parse.times n p

/-- `Option<Box<T>>`, of which the value is not kept. -/
def borshSkipOption {α : Type} (p : Parse α) : Parse Unit := do
  let tag ← Parse.u8
  if tag = 0 then pure ()
  else if tag = 1 then do
    let _ ← p
    pure ()
  else .fail

/-- `Header::deserialize`; `witness` decodes its `aux_pow`. -/
def borshHeader {α : Type} (witness : Parse α) : Parse RawHeader := do
  let hash ← Parse.array 32
  let version ← Parse.u16
  let runs ← borshVec (do
    let cum ← Parse.u8
    let parents ← borshVec (Parse.array 32)
    pure (cum, parents))
  let hashMerkleRoot ← Parse.array 32
  let acceptedIdMerkleRoot ← Parse.array 32
  let utxoCommitment ← Parse.array 32
  let timestamp ← Parse.u64
  let bits ← borshU32
  let nonce ← Parse.u64
  let daaScore ← Parse.u64
  let blueWork ← Parse.array 24
  let blueScore ← Parse.u64
  let pruningPoint ← Parse.array 32
  borshSkipOption witness
  pure ⟨hash, .ofNat version, ⟨runs⟩, hashMerkleRoot, acceptedIdMerkleRoot, utxoCommitment,
    .ofNat timestamp, .ofNat bits, .ofNat nonce, .ofNat daaScore, blueWork, .ofNat blueScore, pruningPoint⟩

/-- `AuxPow::deserialize`. A witness in a witness takes bytes of its own, so `fuel` is the length of the
input. How deep the recursion may get on the stack of the process is outside the model. -/
def borshAuxPow (B : BorshTx Q) : Nat → Parse (RawAuxPow Q)
  | 0 => .fail
  | fuel + 1 => do
    let parentHeader ← borshHeader (borshAuxPow B fuel)
    let parentCoinbase ← B.tx
    let coinbaseMerkleBranch ← borshVec (Parse.array 32)
    pure ⟨parentHeader, parentCoinbase, coinbaseMerkleBranch⟩

/-- `borsh::from_slice` -/
def decodeAuxPow (B : BorshTx Q) (bytes : List UInt8) : Option (RawAuxPow Q) :=
  match (borshAuxPow B (bytes.length + 1)).attempt bytes with
  | .ok found => found
  | .error _ => none

/-! ## The conversion -/

inductive HeaderFormat where
  | compressed
  | legacy
  deriving DecidableEq

/-- `protowire::BlockLevelParents`; a `protowire::Hash` is its bytes. -/
structure BlockLevelParentsMessage where
  parentHashes : List (List UInt8)
  cumulativeLevel : UInt32

/-- `protowire::BlockHeader` -/
structure BlockHeaderMessage where
  version : UInt32
  parents : List BlockLevelParentsMessage
  hashMerkleRoot : Option (List UInt8)
  acceptedIdMerkleRoot : Option (List UInt8)
  utxoCommitment : Option (List UInt8)
  timestamp : Int64
  bits : UInt32
  nonce : UInt64
  daaScore : UInt64
  blueWork : List UInt8
  pruningPoint : Option (List UInt8)
  blueScore : UInt64
  auxPow : List UInt8

inductive ConversionError where
  | noneValue
  | arrayBytesSizeError
  | uintBytesSizeError
  | intCastingError
  | compressedParentsError (e : CompressedParentsError)
  | auxPowDecodeError (text : String)
  deriving DecidableEq

/-- `Hash::try_from(protowire::Hash)` -/
def hashTryFrom (bytes : List UInt8) : Except ConversionError Hash :=
  if bytes.length = 32 then .ok (BitVec.ofBytes 32 bytes) else .error .arrayBytesSizeError

/-- `try_into_ex` of an optional hash. -/
def hashTryFromEx : Option (List UInt8) → Except ConversionError Hash
  | some bytes => hashTryFrom bytes
  | none => .error .noneValue

/-- `BlueWorkType::from_be_bytes_var` -/
def blueWorkTryFrom (bytes : List UInt8) : Except ConversionError (BitVec 192) :=
  if bytes.length ≤ 24 then .ok (BitVec.ofNat 192 (ofLe bytes.reverse)) else .error .uintBytesSizeError

def parentsTryFrom (format : HeaderFormat) (parents : List BlockLevelParentsMessage) :
    Except ConversionError CompressedParents :=
  match format with
  | .compressed => do
    let runs ← parents.mapM fun p => do
      require (p.cumulativeLevel.toNat ≤ 255) .intCastingError
      let hashes ← p.parentHashes.mapM hashTryFrom
      pure (UInt8.ofNat p.cumulativeLevel.toNat, hashes)
    (CompressedParents.tryFromRuns runs).mapError .compressedParentsError
  | .legacy => do
    let levels ← parents.mapM fun p => p.parentHashes.mapM hashTryFrom
    (CompressedParents.tryFromLevels levels).mapError .compressedParentsError

/-- The fields of the new header, before it is finalized. -/
def BlockHeaderMessage.fields (format : HeaderFormat) (item : BlockHeaderMessage) :
    Except ConversionError RawHeader := do
  let parentsByLevel ← parentsTryFrom format item.parents
  require (item.version.toNat ≤ 65535) .intCastingError
  let hashMerkleRoot ← hashTryFromEx item.hashMerkleRoot
  let acceptedIdMerkleRoot ← hashTryFromEx item.acceptedIdMerkleRoot
  let utxoCommitment ← hashTryFromEx item.utxoCommitment
  require (0 ≤ item.timestamp.toInt) .intCastingError
  let blueWork ← blueWorkTryFrom item.blueWork
  let pruningPoint ← hashTryFromEx item.pruningPoint
  pure ⟨0, .ofNat item.version.toNat, parentsByLevel, hashMerkleRoot, acceptedIdMerkleRoot, utxoCommitment,
    item.timestamp.toUInt64, item.bits, item.nonce, item.daaScore, blueWork, item.blueScore, pruningPoint⟩

/-- The witness of the message. -/
def BlockHeaderMessage.witness (B : BorshTx Q) (item : BlockHeaderMessage) :
    Except ConversionError (Option (RawAuxPow Q)) :=
  if item.auxPow = [] then .ok none
  else
    match decodeAuxPow B item.auxPow with
    | none => .error (.auxPowDecodeError (B.errorText item.auxPow))
    | some aux =>
      if aux.coinbaseMerkleBranch.length > MAX_COINBASE_MERKLE_BRANCH then
        .error (.auxPowDecodeError ("coinbase merkle branch too long: " ++
          toString aux.coinbaseMerkleBranch.length ++ " > " ++
          toString MAX_COINBASE_MERKLE_BRANCH))
      else .ok (some aux)

/-- `TryFrom<Versioned<protowire::BlockHeader>> for Header` (convert/header.rs:74); `headerHash` is
`hashing::header::hash`. -/
def BlockHeaderMessage.tryFrom (headerHash : Header → Hash) (B : BorshTx Q) (format : HeaderFormat)
    (item : BlockHeaderMessage) :
    Except (Fault ConversionError) (RawHeader × Option (RawAuxPow Q)) := do
  let header ← (item.fields format).mapError .err
  -- `new_finalized` hashes the header
  let expanded ← ofOption .panic header.expand
  let aux ← (item.witness B).mapError .err
  pure ({ header with hash := headerHash expanded }, aux)

theorem parentsTryFrom_wellFormed {format : HeaderFormat} {parents : List BlockLevelParentsMessage}
    {c : CompressedParents} (h : parentsTryFrom format parents = .ok c) : c.WellFormed := by
  cases format with
  | compressed =>
    obtain ⟨runs, -, h⟩ := bind_eq_ok_iff.mp h
    obtain ⟨-, levels, compresses⟩ := CompressedParents.tryFromRuns_ok_iff.mp (mapError_eq_ok_iff.mp h)
    exact compresses.wellFormed
  | legacy =>
    obtain ⟨levels, -, h⟩ := bind_eq_ok_iff.mp h
    have expands := CompressedParents.tryFromLevels_expand (mapError_eq_ok_iff.mp h)
    exact CompressedParents.expandedIter_isSome_iff.mp (by rw [expands]; rfl)

namespace BlockHeaderMessage

variable {header : RawHeader}

theorem fields_wellFormed {format : HeaderFormat} {item : BlockHeaderMessage}
    (h : item.fields format = .ok header) : header.parentsByLevel.WellFormed := by
  obtain ⟨parents, hparents, h⟩ := bind_eq_ok_iff.mp h
  obtain ⟨-, h⟩ := require_bind_eq_ok_iff.mp h
  obtain ⟨_, -, h⟩ := bind_eq_ok_iff.mp h
  obtain ⟨_, -, h⟩ := bind_eq_ok_iff.mp h
  obtain ⟨_, -, h⟩ := bind_eq_ok_iff.mp h
  obtain ⟨-, h⟩ := require_bind_eq_ok_iff.mp h
  obtain ⟨_, -, h⟩ := bind_eq_ok_iff.mp h
  obtain ⟨_, -, h⟩ := bind_eq_ok_iff.mp h
  obtain rfl := pure_eq_ok_iff.mp h
  exact parentsTryFrom_wellFormed hparents

variable {headerHash : Header → Hash} {B : BorshTx Q} {format : HeaderFormat} {item : BlockHeaderMessage}

/-- The conversion hashes a header whose parents it has checked. -/
theorem tryFrom_ne_panic : item.tryFrom headerHash B format ≠ .error .panic := by
  intro h
  unfold tryFrom at h
  cases hfields : item.fields format with
  | error e =>
    rw [hfields] at h
    cases h
  | ok header =>
    obtain ⟨expanded, hexpanded⟩ := isSome_iff_exists.mp (RawHeader.expand_isSome_iff.mpr (fields_wellFormed hfields))
    rw [hfields] at h
    replace h : (ofOption Fault.panic header.expand >>= _ : Except (Fault ConversionError) _) = .error .panic := h
    rw [hexpanded] at h
    cases hwitness : item.witness B with
    | error e =>
      rw [hwitness] at h
      cases h
    | ok aux =>
      rw [hwitness] at h
      cases h

theorem tryFrom_wellFormed {aux : Option (RawAuxPow Q)}
    (h : item.tryFrom headerHash B format = .ok (header, aux)) : header.parentsByLevel.WellFormed := by
  obtain ⟨raw, hraw, h⟩ := bind_eq_ok_iff.mp h
  obtain ⟨_, -, h⟩ := bind_eq_ok_iff.mp h
  obtain ⟨_, -, h⟩ := bind_eq_ok_iff.mp h
  have checked := fields_wellFormed (mapError_eq_ok_iff.mp hraw)
  cases pure_eq_ok_iff.mp h
  exact checked

end BlockHeaderMessage

/-! ## The gate on stored headers

`none` is a panic. -/

/-- `State::new` hashes the header. -/
def RawHeader.powState (Q : PowPrim) (header : RawHeader) : Option PowState := header.expand.map (PowState.new Q)

/-- `parent_pow` (auxpow.rs:28) -/
def RawAuxPow.parentPow (aux : RawAuxPow Q) : Option Uint256 :=
  (aux.parentHeader.powState Q).map (·.calculatePow aux.parentHeader.nonce)

/-- `AuxPow::verify_binding` (auxpow.rs:148); of the parent header it reads the Merkle root. -/
def RawAuxPow.verifyBinding (aux : RawAuxPow Q) (expected : Hash) : Bool :=
  scanCommitment none (Q.payload aux.parentCoinbase) == some expected &&
    (if aux.coinbaseMerkleBranch.length > MAX_COINBASE_MERKLE_BRANCH then false
    else aux.coinbaseMerkleBranch.foldl Q.merkleHash (Q.txHash aux.parentCoinbase) == aux.parentHeader.hashMerkleRoot)

/-- `check_pow_gated` (auxpow.rs:72) -/
def RawHeader.checkPowGated (header : RawHeader) (aux : Option (RawAuxPow Q)) (mergedMiningActive : Bool) :
    Option (Bool × Uint256) := do
  let state ← header.powState Q
  let (nativeOk, nativePow) := state.checkPow header.nonce
  if nativeOk then some (true, nativePow)
  else
    match mergedMiningActive, aux with
    | true, some a =>
      -- `verify_aux_pow` looks at the proof of work of a bound parent only
      if a.verifyBinding header.hash then
        a.parentPow.map fun pow => if pow ≤ fromCompactTargetBits header.bits then (true, pow) else (false, nativePow)
      else some (false, nativePow)
    | _, _ => some (false, nativePow)

/-- `calc_block_level_check_pow_gated` (lib.rs:90) -/
def RawHeader.calcBlockLevelCheckPowGated (header : RawHeader) (aux : Option (RawAuxPow Q)) (maxBlockLevel : BlockLevel)
    (skipPow mergedMiningActive : Bool) : Option (BlockLevel × Bool) :=
  if header.parentsByLevel.runs.isEmpty then some (maxBlockLevel, true)
  else if skipPow then
    (header.powState Q).map fun state => (calcLevelFromPow (state.checkPow header.nonce).2 maxBlockLevel, true)
  else (header.checkPowGated aux mergedMiningActive).map fun (passed, pow) =>
    (calcLevelFromPow pow maxBlockLevel, passed)

/-- The header's own proof of work suffices. -/
def RawHeader.nativelyValid (Q : PowPrim) (header : RawHeader) : Bool :=
  header.expand.any fun h => (nativeCheckPow Q h).1

theorem RawAuxPow.parentPow_isSome_iff {aux : RawAuxPow Q} :
    aux.parentPow.isSome ↔ aux.parentHeader.parentsByLevel.WellFormed := by
  rw [parentPow, isSome_map, RawHeader.powState, isSome_map, RawHeader.expand_isSome_iff]

variable {aux : Option (RawAuxPow Q)}

/-- `mergeMined` with three levels of parents in two runs, and its parent block with two levels in one. -/
def RawHeader.mergeMined : RawHeader := ⟨9, 1, ⟨[(1, [1]), (3, [1, 2])]⟩, 0, 0, 0, 0, 0x03007fff, 40000, 0, 0, 0, 0⟩

def RawAuxPow.parentWithNonce (nonce : UInt64) : RawAuxPow noncePow :=
  ⟨⟨10, 1, ⟨[(2, [4])]⟩, 15, 0, 0, 0, 0x03007fff, nonce, 0, 0, 0, 0⟩, (Firecash.parentWithNonce 0).parentCoinbase,
    [3, 5]⟩

/-- The gate on a header that can be hashed panics exactly on a bound witness whose parent header cannot. -/
theorem RawHeader.checkPowGated_isSome_iff (checked : header.parentsByLevel.WellFormed)
    (aux : Option (RawAuxPow Q)) (active : Bool) :
    (header.checkPowGated aux active).isSome ↔ (active = true → ∀ a, aux = some a → header.nativelyValid Q = true ∨
      a.verifyBinding header.hash = false ∨ a.parentHeader.parentsByLevel.WellFormed) := by
  obtain ⟨h, hexpand⟩ := isSome_iff_exists.mp (expand_isSome_iff.mpr checked)
  obtain ⟨-, -, -, nonce, -⟩ := expand_fields hexpand
  have native : header.nativelyValid Q = ((PowState.new Q h).checkPow header.nonce).1 := by
    rw [nativelyValid, hexpand, any_some, nativeCheckPow, nonce]
  unfold checkPowGated powState
  rw [hexpand, map_some, native]
  show (if ((PowState.new Q h).checkPow header.nonce).1 = true then _ else _ : Option _).isSome ↔ _
  cases ((PowState.new Q h).checkPow header.nonce).1 with
  | true => simp
  | false =>
    rw [if_neg Bool.false_ne_true]
    match active, aux with
    | false, _ => simp
    | true, none => simp
    | true, some a =>
      dsimp only
      cases bound : a.verifyBinding header.hash with
      | false => simp [bound]
      | true =>
        rw [if_pos rfl, isSome_map, RawAuxPow.parentPow_isSome_iff]
        simp [bound]

theorem RawHeader.calcBlockLevelCheckPowGated_isSome (checked : header.parentsByLevel.WellFormed)
    {active : Bool} (gate : (header.checkPowGated aux active).isSome) (maxBlockLevel : BlockLevel)
    (skipPow : Bool) : (header.calcBlockLevelCheckPowGated aux maxBlockLevel skipPow active).isSome := by
  unfold calcBlockLevelCheckPowGated
  split
  · rfl
  · split
    · rw [isSome_map, powState, isSome_map]
      exact expand_isSome_iff.mpr checked
    · rw [isSome_map]
      exact gate

/-- **What a peer's witness can do.** For every header message and every byte string in its witness field: the
conversion and both functions of the gate, on or off, end without a panic exactly if a witness that was decoded
does not matter, is not bound to the header, or holds a parent header with increasing counts. -/
theorem witness_harmless_iff (headerHash : Header → Hash) (B : BorshTx Q) (format : HeaderFormat)
    (item : BlockHeaderMessage) :
    (item.tryFrom headerHash B format ≠ .error .panic ∧
      ∀ header aux, item.tryFrom headerHash B format = .ok (header, aux) → ∀ active,
        (header.checkPowGated aux active).isSome ∧
        ∀ maxBlockLevel skipPow, (header.calcBlockLevelCheckPowGated aux maxBlockLevel skipPow active).isSome) ↔
      ∀ header a, item.tryFrom headerHash B format = .ok (header, some a) →
        header.nativelyValid Q = true ∨ a.verifyBinding header.hash = false ∨
          a.parentHeader.parentsByLevel.WellFormed := by
  constructor
  · rintro ⟨-, harmless⟩ header a converted
    have checked := BlockHeaderMessage.tryFrom_wellFormed converted
    exact (RawHeader.checkPowGated_isSome_iff checked (some a) true).mp
      (harmless header (some a) converted true).1 rfl a rfl
  · intro condition
    refine ⟨BlockHeaderMessage.tryFrom_ne_panic, fun header aux converted active => ?_⟩
    have checked := BlockHeaderMessage.tryFrom_wellFormed converted
    have gate : (header.checkPowGated aux active).isSome := by
      refine (RawHeader.checkPowGated_isSome_iff checked aux active).mpr fun _ a ha => ?_
      rw [ha] at converted
      exact condition header a converted
    exact ⟨gate, RawHeader.calcBlockLevelCheckPowGated_isSome checked gate⟩

/-- A message with one parent, target `0x7fff`, the nonce 40000 and the given witness. -/
def peerMessage (auxPow : List UInt8) : BlockHeaderMessage where
  version := 1
  parents := [⟨[List.replicate 32 1], 1⟩]
  hashMerkleRoot := some (List.replicate 32 0)
  acceptedIdMerkleRoot := some (List.replicate 32 0)
  utxoCommitment := some (List.replicate 32 0)
  timestamp := 0
  bits := 0x03007fff
  nonce := 40000
  daaScore := 0
  blueWork := []
  pruningPoint := some (List.replicate 32 0)
  blueScore := 0
  auxPow := auxPow

/-- A transaction is its payload. -/
def borshPayload : BorshTx noncePow where
  tx := borshVec Parse.u8
  errorText := fun _ => "Unexpected length of input"

/-- The bytes of a witness: a parent header with the Merkle root `7` and one run of count zero, a coinbase that
commits to the header hash `9`, an empty branch. -/
def zeroCountWitness : List UInt8 :=
  List.replicate 32 0 ++ [1, 0] ++ [1, 0, 0, 0] ++ [0, 0, 0, 0, 0] ++ (7 :: List.replicate 31 0) ++
    List.replicate 64 0 ++
    List.replicate 60 0 ++ List.replicate 32 0 ++ [0] ++
    (leBytes 4 68 ++ MERGE_MINE_MAGIC ++ encodeHex32 9) ++ [0, 0, 0, 0]

/-- It is decoded, and the gate panics on it. -/
theorem zeroCountWitness_panics :
    ((peerMessage zeroCountWitness).tryFrom (fun _ => 9) borshPayload .compressed).toOption.any fun c =>
      c.2.isSome && (c.1.checkPowGated c.2 true).isNone &&
        (c.1.calcBlockLevelCheckPowGated c.2 225 false true).isNone := by
  decide +kernel

end Firecash
