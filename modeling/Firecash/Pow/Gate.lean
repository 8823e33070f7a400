import Firecash.Pow.AuxPow

/-!
# Merged mining: the proof-of-work gate and block levels (consensus/pow)

A header is accepted on its own proof of work, or, once merged mining is active, on that of the
parent block its witness carries. The value that passed also decides the block's level.

`checkPowGated_cases` says what an accepted header rests on. The level of a header accepted through
its witness is read off the parent's proof of work, and the witness is not covered by the header's
hash: `level_agrees_iff` says for which pairs of witnesses the two levels are the same.
-/

namespace Firecash

/-- `kaspa_math::Uint256` -/
abbrev Uint256 := BitVec 256

/-- `Uint256::bits`: the number of bits up to the highest one that is set. -/
def Uint256.bits (x : Uint256) : Nat := if x.toNat = 0 then 0 else x.toNat.log2 + 1

theorem Uint256.bits_le_iff {x : Uint256} {k : Nat} : x.bits ≤ k ↔ x.toNat < 2 ^ k := by
  unfold Uint256.bits
  split
  · rename_i zero
    simp [zero]
  · rename_i nonzero
    rw [Nat.succ_le_iff, Nat.log2_lt nonzero]

/-- `Uint256::from_compact_target_bits` (math/src/lib.rs:64). `Shl` takes the shift modulo 256. -/
def fromCompactTargetBits (bits : UInt32) : Uint256 :=
  let unshiftedExpt := bits >>> 24
  let (mant, expt) :=
    if unshiftedExpt ≤ 3 then ((bits &&& 0xFFFFFF) >>> (8 * (3 - unshiftedExpt)), 0)
    else (bits &&& 0xFFFFFF, 8 * (unshiftedExpt - 3))
  if mant > 0x7FFFFF then 0 else BitVec.ofNat 256 mant.toNat <<< (expt.toNat % 256)

/-- `State` (lib.rs:19): the target, the hasher that waits for the nonce, the matrix. -/
structure PowState where
  target : Uint256
  hasher : UInt64 → Hash
  matrix : Hash → Hash

variable {Q : PowPrim}

/-- `State::new` (lib.rs:29); `State::new_skip_pow` is the same function. -/
def PowState.new (Q : PowPrim) (header : Header) : PowState where
  target := fromCompactTargetBits header.bits
  hasher := Q.powHash (Q.prePowHash header) header.timestamp
  matrix := Q.heavyHash (Q.prePowHash header)

/-- `State::calculate_pow` (lib.rs:52); `Uint256::from_le_bytes` reads the 32 bytes as they are. -/
def PowState.calculatePow (state : PowState) (nonce : UInt64) : Uint256 := state.matrix (state.hasher nonce)

/-- `State::check_pow` (lib.rs:61) -/
def PowState.checkPow (state : PowState) (nonce : UInt64) : Bool × Uint256 :=
  let pow := state.calculatePow nonce
  (pow ≤ state.target, pow)

/-- `State::new(header).check_pow(header.nonce)`: the native check. -/
def nativeCheckPow (Q : PowPrim) (header : Header) : Bool × Uint256 := (PowState.new Q header).checkPow header.nonce

/-- `parent_pow` (auxpow.rs:28) -/
def parentPow (aux : AuxPow Q) : Uint256 := (PowState.new Q aux.parentHeader).calculatePow aux.parentHeader.nonce

/-- `verify_aux_pow` (auxpow.rs:37) -/
def verifyAuxPow (aux : AuxPow Q) (expected : Hash) (target : Uint256) : Bool :=
  aux.verifyBinding expected && decide (parentPow aux ≤ target)

variable (header : Header) (aux : Option (AuxPow Q))

/-- `check_pow_gated` (auxpow.rs:72) -/
def checkPowGated (mergedMiningActive : Bool) : Bool × Uint256 :=
  let (nativeOk, nativePow) := nativeCheckPow Q header
  if nativeOk then (true, nativePow)
  else
    match mergedMiningActive, aux with
    | true, some a =>
      if verifyAuxPow a header.hash (fromCompactTargetBits header.bits) then (true, parentPow a)
      else (false, nativePow)
    | _, _ => (false, nativePow)

/-- `BlockLevel` -/
abbrev BlockLevel := UInt8

/-- `calc_level_from_pow` (lib.rs:117) -/
def calcLevelFromPow (pow : Uint256) (maxBlockLevel : BlockLevel) : BlockLevel :=
  let signedBlockLevel : Int := maxBlockLevel.toNat - pow.bits
  UInt8.ofNat (max signedBlockLevel 0).toNat

/-- `calc_block_level_check_pow_gated` (lib.rs:90); `aux` is the header's `aux_pow`. -/
def calcBlockLevelCheckPowGated (maxBlockLevel : BlockLevel)
    (skipPow mergedMiningActive : Bool) : BlockLevel × Bool :=
  if header.parentsByLevel.isEmpty then (maxBlockLevel, true)
  else if skipPow then (calcLevelFromPow (nativeCheckPow Q header).2 maxBlockLevel, true)
  else
    let (passed, pow) := checkPowGated header aux mergedMiningActive
    (calcLevelFromPow pow maxBlockLevel, passed)

/-! ## What acceptance rests on -/

/-- What a witness must show for the header it is attached to. -/
structure AuxPow.Proves (aux : AuxPow Q) (header : Header) : Prop where
  commits : CommitsOnce (Q.payload aux.parentCoinbase) header.hash
  branch_le : aux.coinbaseMerkleBranch.length ≤ MAX_COINBASE_MERKLE_BRANCH
  included : aux.coinbaseMerkleBranch.foldl Q.merkleHash (Q.txHash aux.parentCoinbase) = aux.parentHeader.hashMerkleRoot
  pow_le : parentPow aux ≤ fromCompactTargetBits header.bits

variable {aux : AuxPow Q} {header : Header}

theorem verifyAuxPow_iff :
    verifyAuxPow aux header.hash (fromCompactTargetBits header.bits) = true ↔ aux.Proves header := by
  rw [verifyAuxPow, Bool.and_eq_true, decide_eq_true_eq, verifyBinding_iff, verifyCoinbaseInclusion_iff]
  constructor
  · rintro ⟨⟨commits, branch_le, included⟩, pow_le⟩
    exact ⟨commits, branch_le, included, pow_le⟩
  · rintro ⟨commits, branch_le, included, pow_le⟩
    exact ⟨⟨commits, branch_le, included⟩, pow_le⟩

theorem checkPowGated_of_native (native : (nativeCheckPow Q header).1 = true)
    (aux : Option (AuxPow Q)) (active : Bool) :
    checkPowGated header aux active = (true, (nativeCheckPow Q header).2) := by
  exact if_pos native

/-- What the gate returns, by what the header rests on. -/
theorem checkPowGated_cases (header : Header) (aux : Option (AuxPow Q)) (active : Bool) :
    ((nativeCheckPow Q header).1 = true ∧ checkPowGated header aux active = (true, (nativeCheckPow Q header).2)) ∨
    ((nativeCheckPow Q header).1 = false ∧ active = true ∧
      ∃ a, aux = some a ∧ a.Proves header ∧ checkPowGated header aux active = (true, parentPow a)) ∨
    ((nativeCheckPow Q header).1 = false ∧ (∀ a, aux = some a → active = true → ¬ a.Proves header) ∧
      checkPowGated header aux active = (false, (nativeCheckPow Q header).2)) := by
  cases native : (nativeCheckPow Q header).1 with
  | true => exact .inl ⟨rfl, checkPowGated_of_native native aux active⟩
  | false =>
    refine .inr ?_
    have off : ¬ (nativeCheckPow Q header).1 = true := by rw [native]; exact Bool.false_ne_true
    have unfolded : checkPowGated header aux active =
        match active, aux with
        | true, some a =>
          if verifyAuxPow a header.hash (fromCompactTargetBits header.bits) then (true, parentPow a)
          else (false, (nativeCheckPow Q header).2)
        | _, _ => (false, (nativeCheckPow Q header).2) := by
      exact if_neg off
    rw [unfolded]
    match active, aux with
    | true, some a =>
      by_cases proves : verifyAuxPow a header.hash (fromCompactTargetBits header.bits) = true
      · exact .inl ⟨rfl, rfl, a, rfl, verifyAuxPow_iff.mp proves, if_pos proves⟩
      · refine .inr ⟨rfl, fun b hb _ h => ?_, if_neg proves⟩
        cases hb
        exact proves (verifyAuxPow_iff.mpr h)
    | true, none => exact .inr ⟨rfl, fun a ha => (by cases ha), rfl⟩
    | false, some a => exact .inr ⟨rfl, fun _ _ h => (by cases h), rfl⟩
    | false, none => exact .inr ⟨rfl, fun _ _ h => (by cases h), rfl⟩

/-- A header accepted without native proof of work has a witness that proves it, whose parent's
proof of work the gate returns. -/
theorem proves_of_accepted {aux : Option (AuxPow Q)} {active : Bool}
    (accepted : (checkPowGated header aux active).1 = true) (native : (nativeCheckPow Q header).1 = false) :
    ∃ a, aux = some a ∧ a.Proves header ∧ (checkPowGated header aux active).2 = parentPow a := by
  rcases checkPowGated_cases header aux active with ⟨h, -⟩ | ⟨-, -, a, ha, proves, eq⟩ | ⟨-, -, eq⟩
  · rw [native] at h
    cases h
  · exact ⟨a, ha, proves, by rw [eq]⟩
  · rw [eq] at accepted
    cases accepted

/-- A parent block commits to one header hash at most. -/
theorem AuxPow.Proves.hash_eq {g h : Header} (hg : aux.Proves g) (hh : aux.Proves h) : g.hash = h.hash :=
  hg.commits.unique hh.commits

/-- The witness is ignored before the activation, cannot touch a header with native proof of work,
and where it is needed it proves the header, and no header with another hash. -/
theorem mergedMining_sound (Q : PowPrim) :
    (∀ header (aux : Option (AuxPow Q)), checkPowGated header aux false = nativeCheckPow Q header) ∧
    (∀ header (aux : Option (AuxPow Q)) active, (nativeCheckPow Q header).1 = true →
      checkPowGated header aux active = (true, (nativeCheckPow Q header).2)) ∧
    (∀ header (aux : Option (AuxPow Q)) active, (checkPowGated header aux active).1 = true →
      (nativeCheckPow Q header).1 = false → ∃ a, aux = some a ∧ a.Proves header) ∧
    (∀ g h (a : AuxPow Q) activeG activeH,
      (checkPowGated g (some a) activeG).1 = true → (nativeCheckPow Q g).1 = false →
      (checkPowGated h (some a) activeH).1 = true → (nativeCheckPow Q h).1 = false → g.hash = h.hash) := by
  refine ⟨?_, fun header aux active native => checkPowGated_of_native native aux active, ?_, ?_⟩
  · intro header aux
    rcases checkPowGated_cases header aux false with ⟨native, eq⟩ | ⟨-, h, -⟩ | ⟨native, -, eq⟩
    · rw [eq, ← native]
    · cases h
    · rw [eq, ← native]
  · intro header aux active accepted native
    obtain ⟨a, ha, proves, -⟩ := proves_of_accepted accepted native
    exact ⟨a, ha, proves⟩
  · intro g h a activeG activeH acceptedG nativeG acceptedH nativeH
    obtain ⟨x, hx, provesG, -⟩ := proves_of_accepted acceptedG nativeG
    obtain ⟨y, hy, provesH, -⟩ := proves_of_accepted acceptedH nativeH
    cases hx
    cases hy
    exact provesG.hash_eq provesH

/-- Hash functions that can be followed by hand: a header's proof of work is its nonce. -/
def noncePow : PowPrim where
  Tx := List UInt8
  payload := id
  txHash _ := 7
  merkleHash l r := l + r
  prePowHash _ := 0
  powHash _ _ nonce := BitVec.ofNat 256 nonce.toNat
  heavyHash _ h := h

/-- A header with target `0x7fff` whose own nonce misses it. -/
def mergeMined : Header where
  hash := 9
  version := 1
  parentsByLevel := [[1]]
  hashMerkleRoot := 0
  acceptedIdMerkleRoot := 0
  utxoCommitment := 0
  timestamp := 0
  bits := 0x03007fff
  nonce := 40000
  daaScore := 0
  blueWork := 0
  blueScore := 0
  pruningPoint := 0

/-- A parent block of three transactions that commits to `mergeMined`, with the given nonce. -/
def parentWithNonce (nonce : UInt64) : AuxPow noncePow where
  parentHeader := { mergeMined with hash := 10, hashMerkleRoot := 15, nonce }
  parentCoinbase := MERGE_MINE_MAGIC ++ encodeHex32 mergeMined.hash
  coinbaseMerkleBranch := [3, 5]

theorem mergeMined_proved :
    ∃ a, some (parentWithNonce 1000) = some a ∧ a.Proves mergeMined :=
  (mergedMining_sound noncePow).2.2.1 mergeMined (some (parentWithNonce 1000)) true (by decide) (by decide)

/-! ## Levels -/

theorem toNat_calcLevelFromPow (pow : Uint256) (maxBlockLevel : BlockLevel) :
    (calcLevelFromPow pow maxBlockLevel).toNat = maxBlockLevel.toNat - pow.bits := by
  have hmax : maxBlockLevel.toNat < 256 := maxBlockLevel.toNat_lt_size
  rw [calcLevelFromPow, UInt8.toNat_ofNat']
  omega

/-- Two values give the same level when no power of two below the maximal level lies between them. -/
theorem calcLevelFromPow_eq_iff {p q : Uint256} {maxBlockLevel : BlockLevel} :
    calcLevelFromPow p maxBlockLevel = calcLevelFromPow q maxBlockLevel ↔
      ∀ k < maxBlockLevel.toNat, p.toNat < 2 ^ k ↔ q.toNat < 2 ^ k := by
  simp only [← Uint256.bits_le_iff]
  rw [← UInt8.toNat_inj, toNat_calcLevelFromPow, toNat_calcLevelFromPow]
  constructor
  · intro h k hk
    omega
  · intro h
    have hp := h p.bits
    have hq := h q.bits
    omega

theorem calcBlockLevelCheckPowGated_of_checked (parents : header.parentsByLevel ≠ [])
    (aux : Option (AuxPow Q)) (maxBlockLevel : BlockLevel) (active : Bool) :
    (calcBlockLevelCheckPowGated header aux maxBlockLevel false active).1 =
      calcLevelFromPow (checkPowGated header aux active).2 maxBlockLevel := by
  have nonempty : ¬ header.parentsByLevel.isEmpty = true := by simpa using parents
  unfold calcBlockLevelCheckPowGated
  rw [if_neg nonempty, if_neg Bool.false_ne_true]

/-- Two witnesses with which a header is accepted give it the same level exactly when the level is
not read off the witness, or when no power of two separates the proofs of work of the two parents. -/
theorem level_agrees_iff (header : Header) (a b : Option (AuxPow Q)) (maxBlockLevel : BlockLevel)
    (skipPow active : Bool) (acceptedA : (checkPowGated header a active).1 = true)
    (acceptedB : (checkPowGated header b active).1 = true) :
    (calcBlockLevelCheckPowGated header a maxBlockLevel skipPow active).1 =
        (calcBlockLevelCheckPowGated header b maxBlockLevel skipPow active).1 ↔
      header.parentsByLevel = [] ∨ skipPow = true ∨ (nativeCheckPow Q header).1 = true ∨
        ∀ x ∈ a, ∀ y ∈ b, ∀ k < maxBlockLevel.toNat, (parentPow x).toNat < 2 ^ k ↔ (parentPow y).toNat < 2 ^ k := by
  by_cases parents : header.parentsByLevel = []
  · simp [calcBlockLevelCheckPowGated, parents]
  cases skipPow with
  | true => simp [calcBlockLevelCheckPowGated]
  | false =>
    rw [calcBlockLevelCheckPowGated_of_checked parents, calcBlockLevelCheckPowGated_of_checked parents]
    cases native : (nativeCheckPow Q header).1 with
    | true => simp [checkPowGated_of_native native]
    | false =>
      obtain ⟨x, rfl, -, powA⟩ := proves_of_accepted acceptedA native
      obtain ⟨y, rfl, -, powB⟩ := proves_of_accepted acceptedB native
      rw [powA, powB, calcLevelFromPow_eq_iff]
      simp [parents]

/-- Mined again with another nonce, the parent gives the same header another level. -/
theorem mergeMined_levels :
    (checkPowGated mergeMined (some (parentWithNonce 1)) true).1 = true ∧
    (checkPowGated mergeMined (some (parentWithNonce 1000)) true).1 = true ∧
    (calcBlockLevelCheckPowGated mergeMined (some (parentWithNonce 1)) 225 false true).1 = 224 ∧
    (calcBlockLevelCheckPowGated mergeMined (some (parentWithNonce 1000)) 225 false true).1 = 215 := by
  decide

theorem mergeMined_levels_agree :
    (calcBlockLevelCheckPowGated mergeMined (some (parentWithNonce 600)) 225 false true).1 =
      (calcBlockLevelCheckPowGated mergeMined (some (parentWithNonce 1000)) 225 false true).1 := by
  refine (level_agrees_iff mergeMined (some (parentWithNonce 600)) (some (parentWithNonce 1000)) 225 false true
    (by decide) (by decide)).mpr (.inr (.inr (.inr ?_)))
  rintro x hx y hy k -
  cases hx
  cases hy
  have p : (parentPow (parentWithNonce 600)).toNat = 600 := by decide
  have q : (parentPow (parentWithNonce 1000)).toNat = 1000 := by decide
  rw [p, q]
  rcases le_or_gt k 9 with small | large
  · have := Nat.pow_le_pow_right (by decide : 0 < 2) small
    omega
  · have := Nat.pow_le_pow_right (by decide : 0 < 2) (Nat.succ_le_of_lt large)
    omega

end Firecash
