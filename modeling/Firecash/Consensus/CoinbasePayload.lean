import Firecash.Consensus.Types
import Firecash.Lib.Bytes

/-!
# The coinbase payload (processes/coinbase.rs:210-289)

A payload is a fixed part (blue score, subsidy, shielded commitment), the miner's script behind its
version and length, and extra data up to the end. `deserialize_cases` says what the reader does on every
payload; the codec laws follow from it.
-/

namespace Firecash

open List

/-- The limits of `CoinbaseManager` that the payload functions read. -/
structure PayloadLimits where
  coinbasePayloadScriptPublicKeyMaxLen : UInt8
  maxCoinbasePayloadLen : Nat

/-- `CoinbaseError` (errors/coinbase.rs) -/
inductive PayloadError where
  | payloadLenBelowMin (len min : Nat)
  | payloadLenAboveMax (len max : Nat)
  | payloadScriptPublicKeyLenAboveMax (len : Nat) (max : UInt8)
  | payloadCantContainScriptPublicKey (len min : Nat)

/-- `CoinbaseData` with its fields as they are written. -/
structure CoinbasePayload where
  blueScore : BitVec (8 * 8)
  subsidy : BitVec (8 * 8)
  shieldedCommitment : BitVec (8 * 32)
  minerData : MinerData

/-- The blue score, the subsidy and the commitment. -/
def FIXED_LENGTH : Nat := 48

def MIN_PAYLOAD_LENGTH : Nat := FIXED_LENGTH + 3

def CoinbasePayload.fixedBytes (d : CoinbasePayload) : List UInt8 :=
  d.blueScore.bytes ++ (d.subsidy.bytes ++ d.shieldedCommitment.bytes)

def scriptBytes (version : UInt16) (len : UInt8) (rest : List UInt8) : List UInt8 :=
  BitVec.bytes (n := 2) version.toBitVec ++ (BitVec.bytes (n := 1) len.toBitVec ++ rest)

/-- Version, length and script, then the extra data. -/
def MinerData.bytes (m : MinerData) : List UInt8 :=
  scriptBytes m.scriptPublicKey.version (UInt8.ofNat m.scriptPublicKey.script.length) (m.scriptPublicKey.script ++
    m.extraData)

/-- `PayloadParser::take` of a field; `split_at` panics at the end of the bytes. -/
def takeField (n : Nat) (bs : List UInt8) : Except (Fault PayloadError) (BitVec (8 * n) × List UInt8) :=
  if n ≤ bs.length then .ok (BitVec.ofBytes n (bs.take n), bs.drop n) else .error .panic

namespace PayloadLimits

variable (m : PayloadLimits)

/-- The check of the script that both writers make. -/
def withScript (miner : MinerData) (payload : List UInt8) : Except PayloadError (List UInt8) :=
  if miner.scriptPublicKey.script.length > m.coinbasePayloadScriptPublicKeyMaxLen.toNat then
    .error (.payloadScriptPublicKeyLenAboveMax miner.scriptPublicKey.script.length
      m.coinbasePayloadScriptPublicKeyMaxLen)
  else .ok payload

/-- `serialize_coinbase_payload` (coinbase.rs:210) -/
def serializeCoinbasePayload (d : CoinbasePayload) : Except PayloadError (List UInt8) :=
  m.withScript d.minerData (d.fixedBytes ++ d.minerData.bytes)

/-- `modify_coinbase_payload` (coinbase.rs:230) -/
def modifyCoinbasePayload (payload : List UInt8) (miner : MinerData) : Except PayloadError (List UInt8) :=
  m.withScript miner (payload.take FIXED_LENGTH ++ miner.bytes)

/-- `deserialize_coinbase_payload` (coinbase.rs:253) -/
def deserializeCoinbasePayload (payload : List UInt8) : Except (Fault PayloadError) CoinbasePayload :=
  if payload.length < MIN_PAYLOAD_LENGTH then .error (.err (.payloadLenBelowMin payload.length MIN_PAYLOAD_LENGTH))
  else if payload.length > m.maxCoinbasePayloadLen then
    .error (.err (.payloadLenAboveMax payload.length m.maxCoinbasePayloadLen))
  else do
    let (blueScore, rest) ← takeField 8 payload
    let (subsidy, rest) ← takeField 8 rest
    let (commitment, rest) ← takeField 32 rest
    let (version, rest) ← takeField 2 rest
    let (len, rest) ← takeField 1 rest
    if ⟨len⟩ > m.coinbasePayloadScriptPublicKeyMaxLen then
      .error (.err (.payloadScriptPublicKeyLenAboveMax len.toNat m.coinbasePayloadScriptPublicKeyMaxLen))
    else if rest.length < len.toNat then
      .error (.err (.payloadCantContainScriptPublicKey payload.length (MIN_PAYLOAD_LENGTH + len.toNat)))
    else .ok ⟨blueScore, subsidy, commitment, ⟨⟨⟨version⟩, rest.take len.toNat⟩, rest.drop len.toNat⟩⟩

variable {payload rest : List UInt8} {d : CoinbasePayload} {version : UInt16} {len : UInt8}

theorem takeField_append {n : Nat} (x : BitVec (8 * n)) (rest : List UInt8) :
    takeField n (x.bytes ++ rest) = .ok (x, rest) := by
  simp [takeField, take_left' (BitVec.length_bytes x), drop_left' (BitVec.length_bytes x)]

theorem exists_field {n : Nat} (h : n ≤ payload.length) :
    ∃ (x : BitVec (8 * n)) (rest : List UInt8), payload = x.bytes ++ rest ∧ payload.length = n + rest.length := by
  refine ⟨BitVec.ofBytes n (payload.take n), payload.drop n, ?_, by simp; omega⟩
  rw [BitVec.bytes_ofBytes (by simpa using h), take_append_drop]

/-- The reader on the fields of a payload. -/
theorem deserialize_fields (few : (d.fixedBytes ++ scriptBytes version len rest).length ≤ m.maxCoinbasePayloadLen) :
    m.deserializeCoinbasePayload (d.fixedBytes ++ scriptBytes version len rest) =
      if len > m.coinbasePayloadScriptPublicKeyMaxLen then
        .error (.err (.payloadScriptPublicKeyLenAboveMax len.toNat m.coinbasePayloadScriptPublicKeyMaxLen))
      else if rest.length < len.toNat then
        .error (.err (.payloadCantContainScriptPublicKey (d.fixedBytes ++ scriptBytes version len rest).length
          (MIN_PAYLOAD_LENGTH + len.toNat)))
      else .ok { d with minerData := ⟨⟨version, rest.take len.toNat⟩, rest.drop len.toNat⟩ } := by
  have long : ¬ (d.fixedBytes ++ scriptBytes version len rest).length < MIN_PAYLOAD_LENGTH := by
    simp [CoinbasePayload.fixedBytes, scriptBytes, MIN_PAYLOAD_LENGTH, FIXED_LENGTH]
    omega
  rw [deserializeCoinbasePayload, if_neg long, if_neg (by omega)]
  generalize (d.fixedBytes ++ scriptBytes version len rest).length = n
  simp [CoinbasePayload.fixedBytes, scriptBytes, takeField_append, bind, Except.bind]

/-- A payload is refused for its length, or it is made of the fields. -/
theorem deserialize_cases (payload : List UInt8) : (∃ e, m.deserializeCoinbasePayload payload = .error (.err e)) ∨
    ∃ (d : CoinbasePayload) (version : UInt16) (len : UInt8) (rest : List UInt8),
      payload = d.fixedBytes ++ scriptBytes version len rest ∧ payload.length ≤ m.maxCoinbasePayloadLen := by
  by_cases short : payload.length < MIN_PAYLOAD_LENGTH
  · exact .inl ⟨_, if_pos short⟩
  by_cases long : payload.length > m.maxCoinbasePayloadLen
  · exact .inl ⟨_, (if_neg short).trans (if_pos long)⟩
  rw [MIN_PAYLOAD_LENGTH, FIXED_LENGTH] at short
  obtain ⟨a, p, rfl, size⟩ := exists_field (by omega : 8 ≤ payload.length)
  obtain ⟨b, p, rfl, size⟩ := exists_field (by omega : 8 ≤ p.length)
  obtain ⟨c, p, rfl, size⟩ := exists_field (by omega : 32 ≤ p.length)
  obtain ⟨v, p, rfl, size⟩ := exists_field (by omega : 2 ≤ p.length)
  obtain ⟨l, p, rfl, size⟩ := exists_field (by omega : 1 ≤ p.length)
  exact .inr ⟨⟨a, b, c, ⟨⟨0, []⟩, []⟩⟩, ⟨v⟩, ⟨l⟩,
    p, by simp [CoinbasePayload.fixedBytes, scriptBytes], Nat.not_lt.mp long⟩

/-- **The payload functions agree on one layout.** What is written within the limits reads back; what is
read is written as the same bytes; no payload makes the reader panic; a written payload that is given
other miner data is the payload of the same blue score, subsidy and commitment with that miner data. -/
theorem coinbasePayload_codec :
    (∀ d : CoinbasePayload, d.minerData.scriptPublicKey.script.length ≤ m.coinbasePayloadScriptPublicKeyMaxLen.toNat →
      ∃ payload, m.serializeCoinbasePayload d = .ok payload ∧
        (payload.length ≤ m.maxCoinbasePayloadLen → m.deserializeCoinbasePayload payload = .ok d)) ∧
    (∀ payload d, m.deserializeCoinbasePayload payload = .ok d → m.serializeCoinbasePayload d = .ok payload) ∧
    (∀ payload, m.deserializeCoinbasePayload payload ≠ .error .panic) ∧
    ∀ d payload miner, m.serializeCoinbasePayload d = .ok payload →
      m.modifyCoinbasePayload payload miner = m.serializeCoinbasePayload { d with minerData := miner } := by
  refine ⟨fun d short => ?_, fun payload d read => ?_, fun payload => ?_, fun d payload miner written => ?_⟩
  · refine ⟨d.fixedBytes ++ d.minerData.bytes, if_neg (Nat.not_lt.mpr short), fun few => ?_⟩
    have fits := m.coinbasePayloadScriptPublicKeyMaxLen.toNat_lt
    have size : (UInt8.ofNat d.minerData.scriptPublicKey.script.length).toNat =
        d.minerData.scriptPublicKey.script.length := by
      simp
      omega
    rw [MinerData.bytes] at few ⊢
    rw [m.deserialize_fields few]
    simp [UInt8.lt_iff_toNat_lt, size, short]
  · rcases m.deserialize_cases payload with ⟨e, failed⟩ | ⟨d, version, len, rest, rfl, few⟩
    · cases failed.symm.trans read
    · rw [m.deserialize_fields few] at read
      split_ifs at read with wide cut
      cases read
      have size : (rest.take len.toNat).length = len.toNat := by simpa using Nat.not_lt.mp cut
      have narrow : ¬ len.toNat > m.coinbasePayloadScriptPublicKeyMaxLen.toNat := wide
      simp [serializeCoinbasePayload, withScript, size, narrow, MinerData.bytes, CoinbasePayload.fixedBytes]
  · rcases m.deserialize_cases payload with ⟨e, failed⟩ | ⟨d, version, len, rest, rfl, few⟩
    · simp [failed]
    · rw [m.deserialize_fields few]
      split_ifs <;> simp
  · unfold serializeCoinbasePayload withScript at written
    split_ifs at written
    cases written
    rw [modifyCoinbasePayload, take_left' (by simp [CoinbasePayload.fixedBytes, FIXED_LENGTH])]
    rfl

end PayloadLimits

end Firecash
