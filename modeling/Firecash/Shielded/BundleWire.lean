import Firecash.Lib.Codec
import Firecash.Shielded.State

/-!
# The bundle on the wire (shielded-core/src/bundle.rs)

The decoder accepts exactly the encodings of bundles with at most `MAX_ACTIONS_PER_BUNDLE` actions and a
proof whose length fits its prefix (`fromBytes_eq_ok_iff`), so the format is a bijection between these.
-/

namespace Firecash

open Decoder BitVec

/-- `MAX_ACTIONS_PER_BUNDLE` (bundle.rs:58) -/
def MAX_ACTIONS_PER_BUNDLE : Nat := 512

/-- `ActionWire::SERIALIZED_LEN` (bundle.rs:85) -/
def ACTION_WIRE_LEN : Nat := 32 * 5 + 580 + 80 + 64

/-- `expected_proof_len` (bundle.rs:92) -/
def expectedProofLen (nActions : Nat) : Nat := 2720 + 2272 * nActions

/-- `expected_wire_len` (bundle.rs:105) -/
def expectedWireLen (nActions : Nat) : Nat := 117 + nActions * ACTION_WIRE_LEN + expectedProofLen nActions

namespace ActionWire

/-- The fields of one action, as `to_bytes` writes them. -/
def toBytes (a : ActionWire) : List UInt8 :=
  a.nullifier.bytes (n := 32) ++ (a.rk.bytes (n := 32) ++ (a.cmx.bytes (n := 32) ++ (a.cvNet.bytes (n := 32) ++
    (a.ephemeralKey.bytes (n := 32) ++ (a.encCiphertext.bytes (n := 580) ++ (a.outCiphertext.bytes (n := 80) ++
      a.spendAuthSig.bytes (n := 64)))))))

@[simp] theorem length_toBytes (a : ActionWire) : a.toBytes.length = ACTION_WIRE_LEN := by
  simp only [toBytes, List.length_append, length_bytes]
  rfl

end ActionWire

/-- `BundleDecodeError`. A position and a length never overflow `usize`, so `lengthOverflow` is not returned. -/
inductive BundleDecodeError where
  | unexpectedEof
  | lengthOverflow
  | trailingBytes
  | tooManyActions
  deriving DecidableEq

/-- `ShieldedBundle` with all its fields -/
structure WireBundle where
  actions : List ActionWire
  flags : UInt8
  valueBalance : Int64
  anchor : Bytes32
  proof : List UInt8
  bindingSig : BitVec 512
  deriving DecidableEq

namespace WireBundle

/-- `Writer::var`: the length is cut to 32 bits. -/
def writeVar (b : List UInt8) : List UInt8 := beBytes 4 (b.length % 2 ^ 32) ++ b

/-- `to_bytes` -/
def toBytes (b : WireBundle) : List UInt8 :=
  [b.flags] ++
    (beBytes 8 b.valueBalance.toUInt64.toNat ++ (b.anchor.bytes (n := 32) ++ (writeVar (b.bindingSig.bytes (n := 64)) ++
    (beBytes 4 (b.actions.length % 2 ^ 32) ++ (b.actions.flatMap ActionWire.toBytes ++ writeVar b.proof)))))

def u8 : Decoder BundleDecodeError UInt8 := Decoder.u8 .unexpectedEof

def array (n : Nat) : Decoder BundleDecodeError (BitVec (8 * n)) := Decoder.array .unexpectedEof n

def u32 : Decoder BundleDecodeError Nat := number .unexpectedEof 4

def i64 : Decoder BundleDecodeError Int64 := do
  let x ← number .unexpectedEof 8
  pure (UInt64.ofNat x).toInt64

def var : Decoder BundleDecodeError (List UInt8) := Decoder.var .unexpectedEof

/-- The fields of one action, as `from_bytes` reads them. -/
def readAction : Decoder BundleDecodeError ActionWire := do
  let nullifier ← array 32
  let rk ← array 32
  let cmx ← array 32
  let cvNet ← array 32
  let ephemeralKey ← array 32
  let encCiphertext ← array 580
  let outCiphertext ← array 80
  let spendAuthSig ← array 64
  pure ⟨nullifier, rk, cmx, cvNet, ephemeralKey, encCiphertext, outCiphertext, spendAuthSig⟩

/-- `try_into` of the signature. -/
def asSignature (bs : List UInt8) : Decoder BundleDecodeError (BitVec 512) :=
  if bs.length = 64 then pure (ofBytes 64 bs) else fail .unexpectedEof

def readBundle : Decoder BundleDecodeError WireBundle := do
  let flags ← u8
  let valueBalance ← i64
  let anchor ← array 32
  let bindingSigVec ← var
  let bindingSig ← asSignature bindingSigVec
  let nActions ← u32
  if nActions > MAX_ACTIONS_PER_BUNDLE then fail .tooManyActions
  else
    let actions ← times nActions readAction
    let proof ← var
    pure ⟨actions, flags, valueBalance, anchor, proof, bindingSig⟩

/-- `from_bytes` -/
def fromBytes (bytes : List UInt8) : Except BundleDecodeError WireBundle :=
  match readBundle.run bytes with
  | .error e => .error e
  | .ok (b, []) => .ok b
  | .ok (_, _ :: _) => .error .trailingBytes

def readActionCount : Decoder BundleDecodeError Nat := do
  let _flags ← u8
  let _valueBalance ← i64
  let _anchor ← array 32
  let _bindingSig ← var
  u32

/-- `action_count_from_bytes` -/
def actionCountFromBytes (bytes : List UInt8) : Option Nat :=
  match readActionCount.run bytes with
  | .error _ => none
  | .ok (nActions, _) => if nActions > MAX_ACTIONS_PER_BUNDLE then none else some nActions

/-! ## What is accepted -/

theorem accepts_i64 : Accepts i64 fun x pre => pre = beBytes 8 x.toUInt64.toNat ∧ True := by
  refine (accepts_number.map).congr fun x pre => ?_
  constructor
  · rintro ⟨n, fits, rfl, rfl⟩
    have same : (UInt64.ofNat n).toInt64.toUInt64.toNat = n := by
      rw [show (UInt64.ofNat n).toInt64.toUInt64 = UInt64.ofNat n from rfl, UInt64.toNat_ofNat']
      exact Nat.mod_eq_of_lt fits
    exact ⟨by rw [same], trivial⟩
  · rintro ⟨rfl, _⟩
    refine ⟨x.toUInt64.toNat, x.toUInt64.toNat_lt, rfl, ?_⟩
    rw [UInt64.ofNat_toNat]
    rfl

theorem accepts_readAction : Accepts readAction fun a pre => pre = a.toBytes ∧ True := by
  refine (accepts_array.step fun nullifier => accepts_array.step fun rk => accepts_array.step fun cmx =>
    accepts_array.step fun cvNet =>
    accepts_array.step fun ephemeralKey => accepts_array.step fun enc => accepts_array.step fun out =>
      accepts_array.map).congr
      fun a pre => ?_
  constructor
  · rintro ⟨nullifier, _, _, rfl, rk, _, _, rfl, cmx, _, _, rfl, cvNet, _, _, rfl, epk, _, _, rfl, enc, _, _, rfl,
      out, _, _, rfl, sig, _, rfl, rfl⟩
    exact ⟨rfl, trivial⟩
  · rintro ⟨rfl, _⟩
    exact ⟨a.nullifier, trivial, _, rfl, a.rk, trivial, _, rfl, a.cmx, trivial, _, rfl, a.cvNet, trivial, _, rfl,
      a.ephemeralKey, trivial, _, rfl,
      a.encCiphertext, trivial, _, rfl, a.outCiphertext, trivial, _, rfl, a.spendAuthSig, trivial, rfl, rfl⟩

theorem accepts_asSignature (bs : List UInt8) :
    Accepts (asSignature bs) fun x pre => bs = x.bytes (n := 64) ∧ pre = [] := by
  unfold asSignature
  by_cases len : bs.length = 64
  · rw [if_pos len]
    refine (accepts_pure _).congr fun x pre => and_congr_left fun _ => ?_
    constructor
    · rintro rfl
      exact (bytes_ofBytes len).symm
    · rintro rfl
      exact (ofBytes_bytes (n := 64) x).symm
  · rw [if_neg len]
    refine accepts_fail.congr fun x pre => iff_of_false id ?_
    rintro ⟨rfl, _⟩
    exact len (length_bytes (n := 64) x)

/-- A bundle that can be written. -/
def Writable (b : WireBundle) : Prop := b.actions.length ≤ MAX_ACTIONS_PER_BUNDLE ∧ b.proof.length < 2 ^ 32

theorem writeVar_eq {bs : List UInt8} (h : bs.length < 256 ^ 4) : writeVar bs = beBytes 4 bs.length ++ bs := by
  rw [writeVar, Nat.mod_eq_of_lt (show bs.length < 2 ^ 32 from h)]

theorem accepts_readBundle : Accepts readBundle fun b pre => pre = b.toBytes ∧ b.Writable := by
  refine (accepts_u8.step fun flags => accepts_i64.step fun balance => accepts_array.step fun anchor =>
    accepts_var.step fun sigVec =>
    (accepts_asSignature sigVec).bind fun sig => accepts_number.step fun n =>
      ((accepts_times accepts_readAction).step fun actions => accepts_var.map).unless).congr fun b pre => ?_
  constructor
  · rintro ⟨flags, _, _, rfl, balance, _, _, rfl, anchor, _, _, rfl, _, _, _, rfl, sig, _, _, rfl, ⟨rfl, rfl⟩, _,
      fits, _, rfl, few, actions, ⟨rfl, _⟩, _, rfl, proof, short, rfl, rfl⟩
    refine ⟨?_, Nat.not_lt.mp few, short⟩
    rw [toBytes, writeVar_eq short, writeVar_eq (by rw [length_bytes]; decide),
      Nat.mod_eq_of_lt (show _ < 2 ^ 32 from fits)]
    rfl
  · rintro ⟨rfl, few, short⟩
    have sig : (b.bindingSig.bytes (n := 64)).length < 256 ^ 4 := by rw [length_bytes]; decide
    have count : b.actions.length < 256 ^ 4 := Nat.lt_of_le_of_lt few (by decide)
    rw [toBytes, writeVar_eq short, writeVar_eq sig, Nat.mod_eq_of_lt (show b.actions.length < 2 ^ 32 from count)]
    exact ⟨b.flags, trivial, _, rfl, b.valueBalance, trivial, _, rfl, b.anchor, trivial, _, rfl, _, sig, _, rfl,
      b.bindingSig, [], _, rfl,
      ⟨rfl, rfl⟩, _, count, _, rfl, Nat.not_lt.mpr few, b.actions, ⟨rfl, fun _ _ => trivial⟩, _, rfl, b.proof,
      short, rfl, rfl⟩

variable {b : WireBundle}

/-- **Exactly the encodings of writable bundles are accepted.** -/
theorem fromBytes_eq_ok_iff {bytes : List UInt8} : fromBytes bytes = .ok b ↔ bytes = b.toBytes ∧ b.Writable := by
  have whole : readBundle.run bytes = .ok (b, []) ↔ bytes = b.toBytes ∧ b.Writable := by
    rw [accepts_readBundle bytes b []]
    constructor
    · rintro ⟨pre, rfl, h⟩
      rwa [List.append_nil]
    · exact fun h => ⟨bytes, (List.append_nil bytes).symm, h⟩
  rw [← whole]
  unfold fromBytes
  split <;> simp_all

theorem length_toBytes (b : WireBundle) :
    b.toBytes.length = 117 + b.actions.length * ACTION_WIRE_LEN + b.proof.length := by
  have actions : (b.actions.flatMap ActionWire.toBytes).length = b.actions.length * ACTION_WIRE_LEN := by
    simp [List.length_flatMap]
  simp only [toBytes, writeVar, List.length_append, length_beBytes, length_bytes, List.length_singleton, actions]
  omega

theorem accepts_readActionCount :
    Accepts readActionCount fun n pre => ∃ (flags : UInt8) (balance : Int64) (anchor : Bytes32) (sig : List UInt8),
    sig.length < 256 ^ 4 ∧ n < 256 ^ 4 ∧
      pre = [flags] ++
        (beBytes 8 balance.toUInt64.toNat ++
          (anchor.bytes (n := 32) ++ (beBytes 4 sig.length ++ sig ++ beBytes 4 n))) := by
  refine (accepts_u8.step fun _ => accepts_i64.step fun _ => accepts_array.step fun _ => accepts_var.step fun _ =>
    accepts_number).congr
    fun n pre => ?_
  constructor
  · rintro ⟨flags, _, _, rfl, balance, _, _, rfl, anchor, _, _, rfl, sig, short, _, rfl, rfl, fits⟩
    exact ⟨flags, balance, anchor, sig, short, fits, rfl⟩
  · rintro ⟨flags, balance, anchor, sig, short, fits, rfl⟩
    exact ⟨flags, trivial, _, rfl, balance, trivial, _, rfl, anchor, trivial, _, rfl, sig, short, _, rfl, rfl, fits⟩

/-- The count is read off the header of every accepted string. -/
theorem actionCountFromBytes_toBytes (h : b.Writable) : actionCountFromBytes b.toBytes = some b.actions.length := by
  have sig : (b.bindingSig.bytes (n := 64)).length < 256 ^ 4 := by rw [length_bytes]; decide
  have count : b.actions.length < 256 ^ 4 := Nat.lt_of_le_of_lt h.1 (by decide)
  have split : b.toBytes = [b.flags] ++ (beBytes 8 b.valueBalance.toUInt64.toNat ++ (b.anchor.bytes (n := 32) ++
      (beBytes 4 (b.bindingSig.bytes (n := 64)).length ++ b.bindingSig.bytes (n := 64) ++
        beBytes 4 b.actions.length))) ++
        (b.actions.flatMap ActionWire.toBytes ++ writeVar b.proof) := by
    rw [toBytes, writeVar_eq sig, Nat.mod_eq_of_lt (show b.actions.length < 2 ^ 32 from count)]
    simp only [List.append_assoc]
  unfold actionCountFromBytes
  rw [split, accepts_readActionCount.run ⟨b.flags, b.valueBalance, b.anchor, b.bindingSig.bytes (n := 64),
    sig, count, rfl⟩]
  exact if_neg (Nat.not_lt.mpr h.1)

/-- **The wire format is a canonical bijection.** -/
theorem wire_canonical :
    (∀ b : WireBundle, b.actions.length ≤ MAX_ACTIONS_PER_BUNDLE → b.proof.length < 2 ^ 32 →
      fromBytes b.toBytes = .ok b) ∧
    (∀ bytes b, fromBytes bytes = .ok b → b.toBytes = bytes ∧ actionCountFromBytes bytes = some b.actions.length) ∧
    ∀ b : WireBundle, b.toBytes.length = expectedWireLen b.actions.length ↔
      b.proof.length = expectedProofLen b.actions.length := by
  refine ⟨fun b few short => fromBytes_eq_ok_iff.mpr ⟨rfl, few, short⟩, fun bytes b h => ?_, fun b => ?_⟩
  · obtain ⟨rfl, writable⟩ := fromBytes_eq_ok_iff.mp h
    exact ⟨rfl, actionCountFromBytes_toBytes writable⟩
  · rw [length_toBytes, expectedWireLen]
    omega

end WireBundle

end Firecash
