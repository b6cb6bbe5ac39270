import ScpCore.KelPreimage

/-! One event unit of a frame, decoded stage by stage, and the digests read off
its bytes. -/

namespace ScpCore.Kel

/-- `"SCP-KEL-ID-V1:"`. -/
def kelIdSeparator : Bytes :=
  [0x53, 0x43, 0x50, 0x2d, 0x4b, 0x45, 0x4c, 0x2d, 0x49, 0x44, 0x2d, 0x56, 0x31, 0x3a]

/-- `"SCP-PREROTATION-COMMITMENT-V1:"`. -/
def prerotationSeparator : Bytes :=
  [0x53, 0x43, 0x50, 0x2d, 0x50, 0x52, 0x45, 0x52, 0x4f, 0x54, 0x41, 0x54, 0x49, 0x4f, 0x4e,
    0x2d, 0x43, 0x4f, 0x4d, 0x4d, 0x49, 0x54, 0x4d, 0x45, 0x4e, 0x54, 0x2d, 0x56, 0x31, 0x3a]

def lengthPrefixBytes : ℕ := 4

inductive IndexedSignaturePart
  | rawSignature | authenticatorDataLength | authenticatorData
  | clientDataJsonLength | clientDataJson | assertionSignature
  deriving DecidableEq

inductive IndexedSignatureReadError
  | truncated (part : IndexedSignaturePart) (remaining : ℕ)
  | authenticatorDataLength (len : ℕ)
  | clientDataJsonLength (len : ℕ)
  deriving DecidableEq

abbrev RawSignature := BitVec 512

structure AssertionSignature where
  authenticatorData : Bytes
  clientDataJson : Bytes
  signature : RawSignature
  deriving DecidableEq

inductive IndexedSignature
  | raw (signature : RawSignature)
  | webAuthnAssertion (assertion : AssertionSignature)
  deriving DecidableEq

def IndexedSignature.form : IndexedSignature → SignatureForm
  | .raw _ => .raw
  | .webAuthnAssertion _ => .webAuthnAssertion

/-- Why an indexed signature does not verify. -/
inductive IndexedSignatureError
  | formMismatch (declared carried : SignatureForm)
  | invalidKey | userPresenceNotSet | userVerificationNotSet | clientData
  | clientDataTypeMismatch | challengeMismatch | signature
  deriving DecidableEq

/-- What the validator takes from the cryptographic crates: SHA-256, P-256
point validation, and the one operation of the `Verify` trait. -/
structure Crypto where
  sha256 : Bytes → Digest
  validPoint : Key → Bool
  verify : Key → Digest → SignatureForm → IndexedSignature → Except IndexedSignatureError Unit

section Digests
variable (C : Crypto)

def signedPreimageOf (fields : Bytes) : Bytes := kelEventSeparator ++ fields

def eventDigestOf (fields : Bytes) : Digest := C.sha256 (signedPreimageOf fields)

def identifierOf (fields : Bytes) : Identifier :=
  C.sha256 (kelIdSeparator ++ signedPreimageOf fields)

def prerotationCommitment (point : Key) : Digest := C.sha256 (prerotationSeparator ++ pointOut point)

end Digests

section Signature

def checkAuthenticatorDataLength (len : ℕ) : Except IndexedSignatureReadError Unit :=
  require (minAuthenticatorDataBytes ≤ len && len ≤ maxAuthenticatorDataBytes)
    (.authenticatorDataLength len)

def checkClientDataJsonLength (len : ℕ) : Except IndexedSignatureReadError Unit :=
  require (1 ≤ len && len ≤ maxClientDataJsonBytes) (.clientDataJsonLength len)

def fieldBytesOf (len : ℕ) (part : IndexedSignaturePart) (rest : Bytes) :
    Except IndexedSignatureReadError (Bytes × Bytes) :=
  readBytes len (.truncated part rest.length) rest

def fieldLength (part : IndexedSignaturePart) (rest : Bytes) :
    Except IndexedSignatureReadError (ℕ × Bytes) := do
  let (length, rest) ← readU32 (.truncated part rest.length) rest
  pure (length.toNat, rest)

def fieldSignature (part : IndexedSignaturePart) (rest : Bytes) :
    Except IndexedSignatureReadError (RawSignature × Bytes) :=
  readBe 64 (.truncated part rest.length) rest

/-- One indexed signature of `form` off the front of a signature field. -/
def IndexedSignature.readFront (form : SignatureForm) (field : Bytes) :
    Except IndexedSignatureReadError (IndexedSignature × Bytes) :=
  match form with
  | .raw => do
    let (signature, rest) ← fieldSignature .rawSignature field
    pure (.raw signature, rest)
  | .webAuthnAssertion => do
    let (authenticatorLen, rest) ← fieldLength .authenticatorDataLength field
    checkAuthenticatorDataLength authenticatorLen
    let (authenticatorData, rest) ← fieldBytesOf authenticatorLen .authenticatorData rest
    let (clientDataLen, rest) ← fieldLength .clientDataJsonLength rest
    checkClientDataJsonLength clientDataLen
    let (clientDataJson, rest) ← fieldBytesOf clientDataLen .clientDataJson rest
    let (signature, rest) ← fieldSignature .assertionSignature rest
    pure (.webAuthnAssertion ⟨authenticatorData, clientDataJson, signature⟩, rest)

end Signature

structure SignatureFieldError where
  role : SignerGroupRole
  position : ℕ
  index : UInt8
  error : IndexedSignatureReadError
  deriving DecidableEq

structure NamedSignature where
  index : UInt8
  signature : IndexedSignature
  deriving DecidableEq

/-- A walked signature field: one list per header group, and the bytes the
whole unit took. -/
structure SignatureField where
  signatures : List (List NamedSignature)
  consumed : ℕ
  deriving DecidableEq

structure HeaderFailedUnit where
  fields : Bytes
  error : HeaderError
  predecessor : Option Digest

structure ReadUnit where
  fields : Bytes
  header : EventHeader
  signatureField : Except SignatureFieldError SignatureField
  preimage : Except BodyError EventPreimage

inductive EventUnit
  | unframed
  | noSeparator
  | headerFailed (unit : HeaderFailedUnit)
  | read (unit : ReadUnit)

/-- The field bytes after the separator, where `signed` begins with it. -/
def fieldBytes (signed : Bytes) : Option Bytes :=
  if kelEventSeparator.isPrefixOf signed then some (signed.drop kelEventSeparator.length) else none

def walkGroup (role : SignerGroupRole) (signers : List NamedSigner) (field : Bytes) :
    Except SignatureFieldError (List NamedSignature × Bytes) :=
  readEach (fun (t : NamedSigner × ℕ) rest => do
    let (signature, rest) ← (IndexedSignature.readFront t.1.form rest).mapError
      (fun error => ⟨role, t.2, t.1.index, error⟩)
    pure (⟨t.1.index, signature⟩, rest)) signers.zipIdx field

/-- Step 5: one indexed signature per named signer, in group order. -/
def walkSignatureField (header : EventHeader) (field : Bytes) :
    Except SignatureFieldError (List (List NamedSignature) × Bytes) :=
  readEach (fun (group : HeaderGroup) rest => walkGroup group.role group.signers rest)
    header.groups field

/-- Steps 2 and 4, then step 5 over `field` and the decode of fields 8 through 12. -/
def decodePrefixed (prefixed field : Bytes) : EventUnit :=
  match fieldBytes prefixed with
  | none => .noSeparator
  | some fields =>
    match readEvent fields (signedLenOf fields) with
    | .error failure => .headerFailed ⟨fields, failure.error, failure.predecessor⟩
    | .ok (header, preimage) =>
      let signatureField := (walkSignatureField header field).map (fun (signatures, rest) =>
        ⟨signatures, lengthPrefixBytes + prefixed.length + (field.length - rest.length)⟩)
      .read ⟨fields, header, signatureField, preimage⟩

/-- Step 1: the bytes the length prefix at `offset` covers and those after them. -/
def prefixedBytes (value : Bytes) (offset : ℕ) : Option (Bytes × Bytes) := do
  let rest ← if offset ≤ value.length then some (value.drop offset) else none
  let (length, rest) ← (readU32 () rest).toOption
  if length.toNat ≤ rest.length then some (rest.take length.toNat, rest.drop length.toNat) else none

def decodeEvent (value : Bytes) (offset : ℕ) : EventUnit :=
  match prefixedBytes value offset with
  | none => .unframed
  | some (prefixed, field) => decodePrefixed prefixed field

/-- An unsigned candidate's signed preimage, which carries no signature field. -/
def decodeCandidate (signedPreimage : Bytes) : EventUnit := decodePrefixed signedPreimage []

/-- A unit that read past step 4 carries the preimage its own fields decode to. -/
theorem decodePrefixed_eq_read {prefixed field : Bytes} {unit : ReadUnit}
    (h : decodePrefixed prefixed field = .read unit) :
    prefixed = signedPreimageOf unit.fields ∧
      readEvent unit.fields (signedLenOf unit.fields) = .ok (unit.header, unit.preimage) := by
  unfold decodePrefixed fieldBytes at h
  split at h
  · cases h
  · rename_i fields hf
    split_ifs at hf with hp
    obtain rfl := Option.some.inj hf
    split at h
    · cases h
    · rename_i header preimage hr
      obtain rfl := EventUnit.read.inj h
      refine ⟨?_, hr⟩
      obtain ⟨t, rfl⟩ := List.isPrefixOf_iff_prefix.mp hp
      simp [signedPreimageOf]

theorem decodeEvent_eq_read {value : Bytes} {offset : ℕ} {unit : ReadUnit}
    (h : decodeEvent value offset = .read unit) :
    readEvent unit.fields (signedLenOf unit.fields) = .ok (unit.header, unit.preimage) := by
  unfold decodeEvent at h
  split at h
  · cases h
  · exact (decodePrefixed_eq_read h).2

end ScpCore.Kel
