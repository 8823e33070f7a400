import Firecash.Lib.Bytes
import Firecash.Shielded.Primitives

/-!
# Merged mining: the structural half (consensus/core/src/auxpow.rs)

A block mined on top of a parent block is bound to it through the parent's coinbase payload: the
payload carries the tag `ZKMM` and, in lowercase hex, the hash of the block. `committed_hash`
scans the payload for the tag; the coinbase is tied to the parent header by a Merkle branch.

`CommitsOnce` says what the scanner looks for without scanning; `committedHash_eq_some_iff` is that
it accepts exactly the payloads with one commitment.
-/

namespace Firecash

open List Option

/-- `Header` (consensus/core/src/header.rs) without its `aux_pow`, which the hash does not cover
and which the functions below take as an argument of their own. `hash` is the cached hash. -/
structure Header where
  hash : Hash
  version : UInt16
  parentsByLevel : List (List Hash)
  hashMerkleRoot : Hash
  acceptedIdMerkleRoot : Hash
  utxoCommitment : Hash
  timestamp : UInt64
  bits : UInt32
  nonce : UInt64
  daaScore : UInt64
  blueWork : BitVec 192
  blueScore : UInt64
  pruningPoint : Hash

/-- The hash functions of proof of work and of the transaction Merkle tree. -/
structure PowPrim where
  Tx : Type
  payload : Tx → List UInt8
  /-- `hashing::tx::hash` -/
  txHash : Tx → Hash
  /-- `kaspa_merkle::merkle_hash` -/
  merkleHash : Hash → Hash → Hash
  /-- `hashing::header::hash_override_nonce_time(header, 0, 0)` -/
  prePowHash : Header → Hash
  /-- `PowHash::new(pre_pow_hash, timestamp).finalize_with_nonce(nonce)` -/
  powHash : Hash → UInt64 → UInt64 → Hash
  /-- `Matrix::generate(pre_pow_hash).heavy_hash(hash)` -/
  heavyHash : Hash → Hash → Hash

/-- `b"ZKMM"` -/
def MERGE_MINE_MAGIC : List UInt8 := [0x5a, 0x4b, 0x4d, 0x4d]

def MAX_COINBASE_MERKLE_BRANCH : Nat := 64

def COMMITMENT_HEX_LEN : Nat := 64

/-- `AuxPow` (auxpow.rs:68) -/
structure AuxPow (Q : PowPrim) where
  parentHeader : Header
  parentCoinbase : Q.Tx
  coinbaseMerkleBranch : List Hash

/-! ## Hex -/

/-- `b"0123456789abcdef"[n]` -/
def hexDigit (n : UInt8) : UInt8 := if n < 10 then 0x30 + n else 0x61 + (n - 10)

/-- `hex_nibble` (auxpow.rs:192): uppercase is refused. -/
def hexNibble (c : UInt8) : Option UInt8 :=
  if 0x30 ≤ c ∧ c ≤ 0x39 then some (c - 0x30)
  else if 0x61 ≤ c ∧ c ≤ 0x66 then some (c - 0x61 + 10)
  else none

/-- The loop of `encode_hex32`. -/
def encodeHex : List UInt8 → List UInt8
  | [] => []
  | b :: bs => hexDigit (b >>> 4) :: hexDigit (b &&& 0x0f) :: encodeHex bs

/-- `encode_hex32` (auxpow.rs:171) -/
def encodeHex32 (h : Hash) : List UInt8 := encodeHex (BitVec.bytes (n := 32) h)

/-- The loop of `decode_hex32`, over `chunks_exact(2)`. -/
def decodeHex : List UInt8 → Option (List UInt8)
  | x :: y :: s => do
    let hi ← hexNibble x
    let lo ← hexNibble y
    let rest ← decodeHex s
    pure ((hi <<< 4 ||| lo) :: rest)
  | _ => some []

/-- `decode_hex32` (auxpow.rs:181) -/
def decodeHex32 (s : List UInt8) : Option Hash :=
  if s.length ≠ COMMITMENT_HEX_LEN then none
  else (decodeHex s).map (BitVec.ofBytes 32)

theorem hexNibble_eq_some_iff {c v : UInt8} : hexNibble c = some v ↔ v < 16 ∧ c = hexDigit v := by
  unfold hexNibble hexDigit
  grind

@[simp] theorem length_encodeHex (bs : List UInt8) : (encodeHex bs).length = 2 * bs.length := by
  induction bs with
  | nil => rfl
  | cons b bs ih =>
    rw [encodeHex, length_cons, length_cons, length_cons, ih]
    omega

@[simp] theorem length_encodeHex32 (h : Hash) : (encodeHex32 h).length = COMMITMENT_HEX_LEN := by
  rw [encodeHex32, length_encodeHex, BitVec.length_bytes, COMMITMENT_HEX_LEN]

theorem decodeHex_encodeHex (bs : List UInt8) : decodeHex (encodeHex bs) = some bs := by
  induction bs with
  | nil => rfl
  | cons b bs ih =>
    obtain ⟨hi, lo, join⟩ := (join_eq_iff (b := b)).mpr ⟨rfl, rfl⟩
    have first := hexNibble_eq_some_iff.mpr ⟨hi, rfl⟩
    have second := hexNibble_eq_some_iff.mpr ⟨lo, rfl⟩
    simp [encodeHex, decodeHex, first, second, ih, join]

/-- An even number of characters decodes only if it is the encoding of what it decodes to. -/
theorem encodeHex_of_decodeHex {s bs : List UInt8} (even : 2 ∣ s.length) (h : decodeHex s = some bs) :
    s = encodeHex bs := by
  fun_induction decodeHex s generalizing bs with
  | case1 x y s ih =>
    simp only [bind_eq_bind, bind_eq_some_iff, Option.pure_def, Option.some.injEq] at h
    obtain ⟨hi, hx, lo, hy, rest, hrest, rfl⟩ := h
    obtain ⟨hhi, rfl⟩ := hexNibble_eq_some_iff.mp hx
    obtain ⟨hlo, rfl⟩ := hexNibble_eq_some_iff.mp hy
    obtain ⟨ehi, elo⟩ := join_eq_iff.mp ⟨hhi, hlo, rfl⟩
    have even' : 2 ∣ s.length := by
      simp only [length_cons] at even
      omega
    rw [encodeHex, ← ehi, ← elo, ← ih even' hrest]
  | case2 s short =>
    cases h
    match s, even with
    | [], _ => rfl
    | [x], even => simp at even
    | x :: y :: s, _ => exact absurd rfl (short x y s)

variable {h : Hash}

theorem decodeHex32_eq_some_iff {s : List UInt8} : decodeHex32 s = some h ↔ s = encodeHex32 h := by
  constructor
  · intro hs
    unfold decodeHex32 at hs
    split at hs
    · cases hs
    · rename_i len
      obtain ⟨bs, hbs, rfl⟩ := map_eq_some_iff.mp hs
      have len64 : s.length = 64 := by simpa [COMMITMENT_HEX_LEN] using len
      have enc : s = encodeHex bs := encodeHex_of_decodeHex (by omega) hbs
      have len32 : bs.length = 32 := by
        rw [enc, length_encodeHex] at len64
        omega
      rw [encodeHex32, BitVec.bytes_ofBytes len32, enc]
  · rintro rfl
    rw [decodeHex32, if_neg (by simp), encodeHex32, decodeHex_encodeHex]
    exact congrArg some (BitVec.ofBytes_bytes (n := 32) h)

/-! ## The commitment in the payload -/

/-- The loop of `committed_hash` on the payload from position `i` on. -/
def scanCommitment (found : Option Hash) : List UInt8 → Option Hash
  | a :: b :: c :: d :: rest =>
    if [a, b, c, d] = MERGE_MINE_MAGIC then
      if found.isSome then none
      else if rest.length < COMMITMENT_HEX_LEN then none
      else
        match decodeHex32 (rest.take COMMITMENT_HEX_LEN) with
        | none => none
        | some h => scanCommitment (some h) rest
    else scanCommitment found (b :: c :: d :: rest)
  | _ => found

/-- `AuxPow::committed_hash` (auxpow.rs:96) -/
def AuxPow.committedHash {Q : PowPrim} (aux : AuxPow Q) : Option Hash :=
  scanCommitment none (Q.payload aux.parentCoinbase)

/-- `AuxPow::verify_coinbase_inclusion` (auxpow.rs:131) -/
def AuxPow.verifyCoinbaseInclusion {Q : PowPrim} (aux : AuxPow Q) : Bool :=
  if aux.coinbaseMerkleBranch.length > MAX_COINBASE_MERKLE_BRANCH then false
  else aux.coinbaseMerkleBranch.foldl Q.merkleHash (Q.txHash aux.parentCoinbase) == aux.parentHeader.hashMerkleRoot

/-- `AuxPow::verify_binding` (auxpow.rs:148) -/
def AuxPow.verifyBinding {Q : PowPrim} (aux : AuxPow Q) (expected : Hash) : Bool :=
  aux.committedHash == some expected && aux.verifyCoinbaseInclusion

/-- The tag stands in the payload right after `pre`. -/
def MagicAfter (payload pre : List UInt8) : Prop := ∃ post, payload = pre ++ MERGE_MINE_MAGIC ++ post

/-- The tag stands in the payload at one place only, and there it is followed by the hex of `h`. -/
def CommitsOnce (payload : List UInt8) (h : Hash) : Prop :=
  ∃ pre post, payload = pre ++ MERGE_MINE_MAGIC ++ encodeHex32 h ++ post ∧
    ∀ pre', MagicAfter payload pre' → pre' = pre

/-- A payload is shorter than the tag, starts with it, or goes on after a byte at which it does not
stand: the three cases of the loop. -/
theorem payload_cases (payload : List UInt8) :
    payload.length < 4 ∨ (∃ rest, payload = MERGE_MINE_MAGIC ++ rest) ∨
      ∃ a b c d rest, payload = a :: b :: c :: d :: rest ∧ [a, b, c, d] ≠ MERGE_MINE_MAGIC := by
  match payload with
  | a :: b :: c :: d :: rest =>
    by_cases tag : [a, b, c, d] = MERGE_MINE_MAGIC
    · exact .inr (.inl ⟨rest, by rw [← tag]; rfl⟩)
    · exact .inr (.inr ⟨a, b, c, d, rest, rfl, tag⟩)
  | [] | [_] | [_, _] | [_, _, _] => exact .inl (by simp)

variable {payload : List UInt8}

theorem not_magicAfter_of_short {pre : List UInt8} (short : payload.length < 4) : ¬ MagicAfter payload pre := by
  rintro ⟨post, rfl⟩
  simp [MERGE_MINE_MAGIC] at short
  omega

variable {rest : List UInt8}

theorem magicAfter_skip {a b c d : UInt8} {pre : List UInt8} (other : [a, b, c, d] ≠ MERGE_MINE_MAGIC) :
    MagicAfter (a :: b :: c :: d :: rest) pre ↔ ∃ pre', pre = a :: pre' ∧ MagicAfter (b :: c :: d :: rest) pre' := by
  constructor
  · rintro ⟨post, hp⟩
    cases pre with
    | nil =>
      have head : [a, b, c, d] = MERGE_MINE_MAGIC := congrArg (take 4) hp
      exact absurd head other
    | cons x pre =>
      obtain ⟨rfl, tail⟩ := cons.inj hp
      exact ⟨pre, rfl, post, tail⟩
  · rintro ⟨pre, rfl, post, hp⟩
    exact ⟨post, by rw [hp]; rfl⟩

/-- No two tags overlap: behind a tag the next one starts at the earliest where it ends. -/
theorem magicAfter_magic {pre : List UInt8} :
    MagicAfter (MERGE_MINE_MAGIC ++ rest) pre ↔
      pre = [] ∨ ∃ pre', pre = MERGE_MINE_MAGIC ++ pre' ∧ MagicAfter rest pre' := by
  constructor
  · rintro ⟨post, hp⟩
    match pre, hp with
    | [], _ => exact .inl rfl
    | [_], hp | [_, _], hp | [_, _, _], hp => simp [MERGE_MINE_MAGIC] at hp
    | x :: y :: z :: w :: pre, hp =>
      have tag : [x, y, z, w] = MERGE_MINE_MAGIC := (congrArg (take 4) hp).symm
      have tail : rest = pre ++ MERGE_MINE_MAGIC ++ post := congrArg (drop 4) hp
      exact .inr ⟨pre, by rw [← tag]; rfl, post, tail⟩
  · rintro (rfl | ⟨pre, rfl, post, rfl⟩)
    · exact ⟨rest, rfl⟩
    · exact ⟨post, by simp only [append_assoc]⟩

theorem commitsOnce_skip {a b c d : UInt8} (other : [a, b, c, d] ≠ MERGE_MINE_MAGIC) :
    CommitsOnce (a :: b :: c :: d :: rest) h ↔ CommitsOnce (b :: c :: d :: rest) h := by
  constructor
  · rintro ⟨pre, post, hp, unique⟩
    have here : MagicAfter (a :: b :: c :: d :: rest) pre := ⟨encodeHex32 h ++ post, by rw [hp, append_assoc]⟩
    obtain ⟨pre, rfl, -⟩ := (magicAfter_skip other).mp here
    refine ⟨pre, post, (cons.inj hp).2, fun pre' h' => ?_⟩
    exact (cons.inj (unique (a :: pre') ((magicAfter_skip other).mpr ⟨pre', rfl, h'⟩))).2
  · rintro ⟨pre, post, hp, unique⟩
    refine ⟨a :: pre, post, by rw [hp]; rfl, fun pre' h' => ?_⟩
    obtain ⟨tail, rfl, htail⟩ := (magicAfter_skip other).mp h'
    rw [unique tail htail]

theorem commitsOnce_magic :
    CommitsOnce (MERGE_MINE_MAGIC ++ rest) h ↔
      (∃ post, rest = encodeHex32 h ++ post) ∧ ∀ pre, ¬ MagicAfter rest pre := by
  constructor
  · rintro ⟨pre, post, hp, unique⟩
    obtain rfl : [] = pre := unique [] ⟨rest, rfl⟩
    refine ⟨⟨post, by simpa using hp⟩, fun pre' h' => ?_⟩
    have second := unique _ (magicAfter_magic.mpr (.inr ⟨pre', rfl, h'⟩))
    simp [MERGE_MINE_MAGIC] at second
  · rintro ⟨⟨post, rfl⟩, none⟩
    refine ⟨[], post, by simp, fun pre' h' => ?_⟩
    rcases magicAfter_magic.mp h' with rfl | ⟨pre', -, h'⟩
    · rfl
    · exact absurd h' (none pre')

variable {found : Option Hash}

theorem scanCommitment_short (short : payload.length < 4) :
    scanCommitment found payload = found := by
  match payload, short with
  | [], _ | [_], _ | [_, _], _ | [_, _, _], _ => rfl

theorem scanCommitment_skip {a b c d : UInt8}
    (other : [a, b, c, d] ≠ MERGE_MINE_MAGIC) :
    scanCommitment found (a :: b :: c :: d :: rest) = scanCommitment found (b :: c :: d :: rest) := by
  rw [scanCommitment, if_neg other]

theorem scanCommitment_magic :
    scanCommitment none (MERGE_MINE_MAGIC ++ rest) = some h ↔
      ∃ g, rest.take COMMITMENT_HEX_LEN = encodeHex32 g ∧ scanCommitment (some g) rest = some h := by
  show (if rest.length < COMMITMENT_HEX_LEN then none
    else match decodeHex32 (rest.take COMMITMENT_HEX_LEN) with
      | none => none
      | some h => scanCommitment (some h) rest) = some h ↔ _
  split
  · rename_i short
    constructor
    · intro hs
      cases hs
    · rintro ⟨g, hex, -⟩
      have len := congrArg length hex
      rw [length_encodeHex32, length_take] at len
      omega
  · constructor
    · intro hs
      split at hs
      · cases hs
      · rename_i g hg
        exact ⟨g, decodeHex32_eq_some_iff.mp hg, hs⟩
    · rintro ⟨g, hex, hs⟩
      rw [decodeHex32_eq_some_iff.mpr hex]
      exact hs

/-- With one commitment found, the rest of the payload must be free of tags. -/
theorem scanCommitment_found {g : Hash} :
    scanCommitment (some g) payload = some h ↔ g = h ∧ ∀ pre, ¬ MagicAfter payload pre := by
  induction payload with
  | nil => simp [scanCommitment, not_magicAfter_of_short]
  | cons x l ih =>
    rcases payload_cases (x :: l) with short | ⟨rest, hp⟩ | ⟨a, b, c, d, rest, hp, other⟩
    · simp [scanCommitment_short short, not_magicAfter_of_short short]
    · rw [hp]
      constructor
      · intro hs
        cases hs
      · rintro ⟨-, none⟩
        exact absurd ⟨rest, rfl⟩ (none [])
    · obtain ⟨rfl, rfl⟩ := cons.inj hp
      rw [scanCommitment_skip other, ih]
      simp only [magicAfter_skip other]
      grind

/-- The scanner accepts exactly the payloads with one commitment. -/
theorem scanCommitment_none :
    scanCommitment none payload = some h ↔ CommitsOnce payload h := by
  induction payload with
  | nil => simp [scanCommitment, CommitsOnce, MERGE_MINE_MAGIC]
  | cons x l ih =>
    rcases payload_cases (x :: l) with short | ⟨rest, hp⟩ | ⟨a, b, c, d, rest, hp, other⟩
    · rw [scanCommitment_short short]
      constructor
      · intro hs
        cases hs
      · rintro ⟨pre, post, hp, -⟩
        have here : MagicAfter (x :: l) pre := ⟨encodeHex32 h ++ post, by rw [hp, append_assoc]⟩
        exact absurd here (not_magicAfter_of_short short)
    · rw [hp, commitsOnce_magic]
      constructor
      · intro hs
        obtain ⟨g, hex, hg⟩ := scanCommitment_magic.mp hs
        obtain ⟨rfl, none⟩ := scanCommitment_found.mp hg
        exact ⟨⟨rest.drop COMMITMENT_HEX_LEN, by rw [← hex, take_append_drop]⟩, none⟩
      · rintro ⟨⟨post, hpost⟩, none⟩
        have hex : rest.take COMMITMENT_HEX_LEN = encodeHex32 h := by
          rw [hpost, ← length_encodeHex32 h, take_left]
        exact scanCommitment_magic.mpr ⟨h, hex, scanCommitment_found.mpr ⟨rfl, none⟩⟩
    · obtain ⟨rfl, rfl⟩ := cons.inj hp
      rw [scanCommitment_skip other, ih, commitsOnce_skip other]

variable {Q : PowPrim}

theorem committedHash_eq_some_iff {aux : AuxPow Q} :
    aux.committedHash = some h ↔ CommitsOnce (Q.payload aux.parentCoinbase) h := scanCommitment_none

theorem verifyCoinbaseInclusion_iff {aux : AuxPow Q} :
    aux.verifyCoinbaseInclusion = true ↔ aux.coinbaseMerkleBranch.length ≤ MAX_COINBASE_MERKLE_BRANCH ∧
      aux.coinbaseMerkleBranch.foldl Q.merkleHash (Q.txHash aux.parentCoinbase) = aux.parentHeader.hashMerkleRoot := by
  unfold AuxPow.verifyCoinbaseInclusion
  split
  · rename_i long
    simp only [Bool.false_eq_true, false_iff, not_and]
    intro short
    omega
  · rename_i short
    simp only [beq_iff_eq, not_lt.mp short, true_and]

theorem verifyBinding_iff {aux : AuxPow Q} {expected : Hash} :
    aux.verifyBinding expected = true ↔
      CommitsOnce (Q.payload aux.parentCoinbase) expected ∧ aux.verifyCoinbaseInclusion = true := by
  rw [AuxPow.verifyBinding, Bool.and_eq_true, beq_iff_eq, committedHash_eq_some_iff]

/-- A payload commits to one hash at most. -/
theorem CommitsOnce.unique {g : Hash} (hg : CommitsOnce payload g)
    (hh : CommitsOnce payload h) : g = h :=
  some.inj ((scanCommitment_none.mpr hg).symm.trans (scanCommitment_none.mpr hh))

end Firecash
