import ScpCore.KelEvent

/-! The byte construction of the key-event preimage: the encoder, the decoder
and the checks of fields 1 through 7 they share. A reader takes the unread
bytes and returns what it read with the rest. -/

namespace ScpCore.Kel

/-- `"SCP-KEL-EVENT-V1:"`. -/
def kelEventSeparator : Bytes :=
  [0x53, 0x43, 0x50, 0x2d, 0x4b, 0x45, 0x4c, 0x2d, 0x45, 0x56, 0x45, 0x4e, 0x54, 0x2d, 0x56,
    0x31, 0x3a]

def pointBytes : ℕ := 33
def digestBytes : ℕ := 32
def keyEntryBytes : ℕ := 45
def commitmentEntryBytes : ℕ := 34
/-- The `BE32(0)` absent sentinel of fields 9, 10 and 12. -/
def compositeSentinel : Bytes := [0, 0, 0, 0]
def standingRootAbsent : UInt8 := 0x00
def continuationAbandons : UInt8 := 0x00
def continuationFixesCommitment : UInt8 := 0x01

/-- The registered bound of each count-prefixed list; both directions read it. -/
def countCap : ListField → Option ℕ
  | .signer (.indices .reveal) | .body .commitments => some maxNextSetSize
  | .body .installedRootSet => some maxRootSetSize
  | .body .witnesses => some maxWitnessSetSize
  | .signer (.indices .root) | .signer (.indices .replacementRoot)
  | .signer (.indices .standingRoot) | .signer (.forms _)
  | .body .revealedKeys | .body .snapshotKeys | .body .seals => none

/-- The bytes reserved for one indexed signature of `form`. -/
def indexCeiling : SignatureForm → ℕ
  | .raw => rawSignatureBytes
  | .webAuthnAssertion =>
    4 + maxAuthenticatorDataBytes + 4 + maxClientDataJsonBytes + rawSignatureBytes

structure NamedSigner where
  index : UInt8
  form : SignatureForm
  deriving DecidableEq

structure HeaderGroup where
  role : SignerGroupRole
  signers : List NamedSigner
  deriving DecidableEq

/-- Pairs an index list with its form list. -/
def HeaderGroup.pair (role : SignerGroupRole) (indices : List UInt8) (forms : List SignatureForm) :
    Except FormListLength HeaderGroup := do
  require (indices.length = forms.length) ⟨role, indices.length, forms.length⟩
  pure ⟨role, List.zipWith NamedSigner.mk indices forms⟩

def encodedEventLen (signedLen : ℕ) (groups : List HeaderGroup) : ℕ :=
  signedLen + ((groups.flatMap (·.signers)).map (fun s => indexCeiling s.form)).sum

def withinEventBytes (encodedLen : ℕ) : Bool := encodedLen ≤ maxEventBytes

def kindByte : EventKind → UInt8
  | .inception => 0x01
  | .keyState => 0x02
  | .commitmentRollover => 0x03
  | .rootRecovery => 0x04

def kindFromByte (byte : UInt8) : Option EventKind :=
  [EventKind.inception, .keyState, .commitmentRollover, .rootRecovery].find? (kindByte · == byte)

def standingRootByte : StandingRootDeclaration → UInt8
  | .coSigns => 0x01
  | .lost => 0x02

def formByte : SignatureForm → UInt8
  | .raw => 0x01
  | .webAuthnAssertion => 0x02

def formFromByte (byte : UInt8) : Option SignatureForm :=
  [SignatureForm.raw, .webAuthnAssertion].find? (formByte · == byte)

def signedLenOf (fields : Bytes) : ℕ := kelEventSeparator.length + fields.length

/-- A preimage with the field bytes it encodes to, the separator implied. -/
structure EncodedPreimage where
  preimage : EventPreimage
  fields : Bytes
  deriving DecidableEq

/-- Compares a count with its registered bound. -/
def checkCap {ε : Type} (list : ListField) (overMax : ℕ → ε) (count : ℕ) : Except ε Unit :=
  match countCap list with
  | some max => require (count ≤ max) (overMax max)
  | none => .ok ()

section Encode

def putCount (list : ListField) (len : ℕ) : Except EncodeError Bytes := do
  checkCap list (.countOverMax list len) len
  require (len < 2^32) (.countOverflow list len)
  pure (beBytes 4 len)

def pointOut (key : Key) : Bytes := beBytes 33 key.toNat
def digestOut (digest : Digest) : Bytes := beBytes 32 digest.toNat
def u32Out (value : U32) : Bytes := beBytes 4 value.toNat
def u64Out (value : U64) : Bytes := beBytes 8 value.toNat

def keyEntryOut (entry : KeyEntry) : Bytes :=
  pointOut entry.key ++ [NameBound.toByte entry.role, NameBound.toByte entry.condition] ++
    u64Out entry.compromisedFrom ++
    [NameBound.toByte entry.custodyType, NameBound.toByte entry.keyAlgorithm]

def commitmentEntryOut (entry : CommitmentEntry) : Bytes :=
  digestOut entry.commitment ++
    [NameBound.toByte entry.custodyType, NameBound.toByte entry.keyAlgorithm]

def writeInstalledRootSet (set : InstalledRootSet) : Except EncodeError Bytes := do
  require (!set.members.isEmpty) .emptyInstalledRootSet
  let count ← putCount (.body .installedRootSet) set.members.length
  pure (count ++ set.members.flatMap pointOut ++ u32Out set.threshold)

def writeKeyEntry (entryIndex : ℕ) (entry : KeyEntry) : Except EncodeError Bytes := do
  require (entry.condition = .compromised || entry.compromisedFrom = 0)
    (.compromisedFromWithoutCompromise entryIndex entry.condition entry.compromisedFrom)
  pure (keyEntryOut entry)

def writeSnapshot (snapshot : KeyStateSnapshot) : Except EncodeError Bytes := do
  require (snapshot.rootThreshold ≠ 0) .zeroRootThreshold
  let keyCount ← putCount (.body .snapshotKeys) snapshot.keys.length
  let keys ← mapEach (fun (entry, i) => writeKeyEntry i entry) snapshot.keys.zipIdx
  let witnessCount ← putCount (.body .witnesses) snapshot.witnesses.length
  pure (u32Out snapshot.rootThreshold ++ keyCount ++ keys.flatten ++ witnessCount ++
    snapshot.witnesses.flatMap digestOut ++ u32Out snapshot.witnessingInterval ++
    [NameBound.toByte snapshot.serviceKeyRole] ++ digestOut snapshot.delegator)

/-- Field 12; the abandonment byte is never the four-byte sentinel. -/
def writeContinuation : Option Continuation → Except EncodeError Bytes
  | none => pure compositeSentinel
  | some .abandons => pure [continuationAbandons]
  | some (.fixesCommitment commitment) => do
    let count ← putCount (.body .commitments) commitment.commitments.length
    pure ([continuationFixesCommitment] ++ count ++
      commitment.commitments.flatMap commitmentEntryOut ++ u32Out commitment.nextThreshold)

/-- Fields 1 through 12, with the signer groups paired for the encoded length. -/
def writeFields (preimage : EventPreimage) : Except EncodeError (List HeaderGroup × Bytes) := do
  let roles ← okOr preimage.signerGroupRoles .rootRecoveryWithoutStandingRoot
  require (preimage.signerGroups.length = roles.length)
    (.signerGroupCount preimage.kind roles.length preimage.signerGroups.length)
  let leading := [kindByte preimage.kind] ++ digestOut preimage.identifier ++
    u64Out preimage.sequence ++ digestOut preimage.predecessorDigest ++
    [preimage.standingRoot.elim standingRootAbsent standingRootByte]
  let named := preimage.signerGroups.zip roles
  let indices ← mapEach (fun (group, role) => do
    let count ← putCount (.signer (.indices role)) group.indices.length
    pure (count ++ group.indices)) named
  let forms ← mapEach (fun (group, role) => do
    let count ← putCount (.signer (.forms role)) group.forms.length
    pure (count ++ group.forms.map formByte)) named
  -- Every count is checked before any group is paired.
  let groups ← mapEach (fun (group, role) =>
    (HeaderGroup.pair role group.indices group.forms).mapError .formListLength) named
  let revealedCount ← putCount (.body .revealedKeys) preimage.revealedKeys.length
  let installed ← preimage.installedRootSet.elim (pure compositeSentinel) writeInstalledRootSet
  let snapshot ← preimage.keyState.elim (pure compositeSentinel) writeSnapshot
  let sealCount ← putCount (.body .seals) preimage.seals.length
  let continuation ← writeContinuation preimage.continuation
  pure (groups, leading ++ indices.flatten ++ forms.flatten ++ revealedCount ++
    preimage.revealedKeys.flatMap pointOut ++ installed ++ snapshot ++ sealCount ++
    preimage.seals.flatMap digestOut ++ continuation)

def encodePreimage (preimage : EventPreimage) : Except EncodeError EncodedPreimage := do
  let (groups, fields) ← writeFields preimage
  let encodedLen := encodedEventLen (signedLenOf fields) groups
  require (withinEventBytes encodedLen) (.eventTooLong encodedLen)
  pure ⟨preimage, fields⟩

end Encode

section Decode
variable {ε : Type}

def readPoint (e : ε) : Bytes → Except ε (Key × Bytes) := readBe 33 e
def readDigest (e : ε) : Bytes → Except ε (Digest × Bytes) := readBe 32 e
def readU32 (e : ε) : Bytes → Except ε (U32 × Bytes) := readBe 4 e
def readU64 (e : ε) : Bytes → Except ε (U64 × Bytes) := readBe 8 e

/-- A four-byte count, held to its registered bound and to the bytes left
before any element is read. -/
def readCount (list : ListField) (truncated : ε) (overMax overRemaining : ℕ → ℕ → ε)
    (elementBytes : ℕ) (b : Bytes) : Except ε (ℕ × Bytes) := do
  let (word, rest) ← readU32 truncated b
  let count := word.toNat
  checkCap list (overMax count) count
  require (count*elementBytes ≤ rest.length) (overRemaining count rest.length)
  pure (count, rest)

def readHeaderCount (field : HeaderField) (list : SignerList) (elementBytes : ℕ) :
    Bytes → Except HeaderError (ℕ × Bytes) :=
  readCount (.signer list) (.truncated field) (.countOverMax list) (.countOverRemaining list)
    elementBytes

def readBodyCount (field : BodyField) (list : BodyList) (elementBytes : ℕ) :
    Bytes → Except BodyError (ℕ × Bytes) :=
  readCount (.body list) (.truncated field) (.countOverMax list) (.countOverRemaining list)
    elementBytes

/-- Fields 1 through 4. -/
structure Leading where
  kind : UInt8
  identifier : Identifier
  sequence : U64
  predecessorDigest : Digest

def readLeading (b : Bytes) : Except HeaderField (Leading × Bytes) := do
  let (kind, b) ← readU8 .eventType b
  let (identifier, b) ← readDigest .identifier b
  let (sequence, b) ← readU64 .sequence b
  let (predecessorDigest, b) ← readDigest .predecessorDigest b
  pure (⟨kind, identifier, sequence, predecessorDigest⟩, b)

def readInceptionZeroChecks (fields : Bytes) : Except InceptionHeaderDefect Unit := do
  let (leading, _) ← (readLeading fields).mapError .truncated
  require (leading.kind = kindByte .inception) (.notInception leading.kind)
  require (leading.identifier = 0) .nonzeroIdentifier
  require (leading.sequence = 0) .nonzeroSequence
  require (leading.predecessorDigest = 0) .nonzeroPredecessor

structure EventHeader where
  kind : EventKind
  identifier : Identifier
  sequence : U64
  predecessorDigest : Digest
  standingRoot : Option StandingRootDeclaration
  groups : List HeaderGroup
  encodedLen : ℕ
  deriving DecidableEq

structure HeaderFailure where
  error : HeaderError
  predecessor : Option Digest
  deriving DecidableEq

def readStandingRoot (b : Bytes) : Except HeaderError (Option StandingRootDeclaration × Bytes) := do
  let (value, b) ← readU8 (.truncated .standingRoot) b
  if value = standingRootAbsent then pure (none, b)
  else if value = 0x01 then pure (some .coSigns, b)
  else if value = 0x02 then pure (some .lost, b)
  else throw (.unknownDiscriminator .standingRoot value)

def readIndexList (role : SignerGroupRole) (b : Bytes) : Except HeaderError (List UInt8 × Bytes) := do
  let (count, b) ← readHeaderCount .signerIndices (.indices role) 1 b
  readBytes count (.truncated .signerIndices) b

def readFormList (role : SignerGroupRole) (b : Bytes) :
    Except HeaderError (List SignatureForm × Bytes) := do
  let (count, b) ← readHeaderCount .signatureForms (.forms role) 1 b
  let (values, b) ← readBytes count (.truncated .signatureForms) b
  let forms ← mapEach
    (fun value => okOr (formFromByte value) (.unknownDiscriminator .signatureForm value)) values
  pure (forms, b)

/-- Step 4 past fields 1 through 4. -/
def readHeaderAfterLeading (signedLen : ℕ) (leading : Leading) (b : Bytes) :
    Except HeaderError (EventHeader × Bytes) := do
  let kind ← okOr (kindFromByte leading.kind) (.unknownDiscriminator .eventType leading.kind)
  let (standingRoot, b) ← readStandingRoot b
  let roles ← okOr (signerGroupRoles kind standingRoot) .rootRecoveryWithoutStandingRoot
  let (indexLists, b) ← readEach readIndexList roles b
  let (formLists, b) ← readEach readFormList roles b
  let groups ← mapEach (fun (role, indices, forms) =>
    (HeaderGroup.pair role indices forms).mapError .formListLength)
    (roles.zip (indexLists.zip formLists))
  let encodedLen := encodedEventLen signedLen groups
  require (withinEventBytes encodedLen) (.eventTooLong encodedLen)
  pure (⟨kind, leading.identifier, leading.sequence, leading.predecessorDigest, standingRoot,
    groups, encodedLen⟩, b)

def readHeader (signedLen : ℕ) (b : Bytes) : Except HeaderFailure (EventHeader × Bytes) := do
  let (leading, b) ← (readLeading b).mapError (fun field => ⟨.truncated field, none⟩)
  (readHeaderAfterLeading signedLen leading b).mapError
    (fun error => ⟨error, some leading.predecessorDigest⟩)

/-- One byte of an `scp_did` enumeration. -/
def discriminator {α : Type} [NameBound α] (enclosing : BodyField) (field : DidDiscriminatorField)
    (b : Bytes) : Except BodyError (α × Bytes) := do
  let (value, b) ← readU8 (.truncated enclosing) b
  let v ← (NameBound.tryFrom value).mapError (.unknownDidDiscriminator field)
  pure (v, b)

def readPoints (field : BodyField) (list : BodyList) (b : Bytes) :
    Except BodyError (List Key × Bytes) := do
  let (count, b) ← readBodyCount field list pointBytes b
  readMany (fun _ => readPoint (.truncated field)) count b

def readInstalledRootSet (b : Bytes) : Except BodyError (Option InstalledRootSet × Bytes) := do
  let (count, b) ← readBodyCount .installedRootSet .installedRootSet pointBytes b
  if count = 0 then pure (none, b)
  else
    let (members, b) ← readMany (fun _ => readPoint (.truncated .installedRootSet)) count b
    let (threshold, b) ← readU32 (.truncated .installedRootSet) b
    pure (some ⟨members, threshold⟩, b)

def readKeyEntry (entryIndex : ℕ) (b : Bytes) : Except BodyError (KeyEntry × Bytes) := do
  let (key, b) ← readPoint (.truncated .keyState) b
  let (role, b) ← discriminator .keyState .role b
  let (condition, b) ← discriminator .keyState .condition b
  let (compromisedFrom, b) ← readU64 (.truncated .keyState) b
  require (condition = .compromised || compromisedFrom = 0)
    (.compromisedFromWithoutCompromise entryIndex condition compromisedFrom)
  let (custodyType, b) ← discriminator .keyState .custodyType b
  let (keyAlgorithm, b) ← discriminator .keyState .keyAlgorithm b
  pure (⟨key, role, condition, compromisedFrom, custodyType, keyAlgorithm⟩, b)

def readSnapshot (b : Bytes) : Except BodyError (Option KeyStateSnapshot × Bytes) := do
  let (rootThreshold, b) ← readU32 (.truncated .keyState) b
  if rootThreshold = 0 then pure (none, b)
  else
    let (keyCount, b) ← readBodyCount .keyState .snapshotKeys keyEntryBytes b
    let (keys, b) ← readMany readKeyEntry keyCount b
    let (witnessCount, b) ← readBodyCount .keyState .witnesses digestBytes b
    let (witnesses, b) ← readMany (fun _ => readDigest (.truncated .keyState)) witnessCount b
    let (witnessingInterval, b) ← readU32 (.truncated .keyState) b
    let (serviceKeyRole, b) ← discriminator .keyState .serviceKeyRole b
    let (delegator, b) ← readDigest (.truncated .keyState) b
    pure (some ⟨rootThreshold, keys, witnesses, witnessingInterval, serviceKeyRole, delegator⟩, b)

def readCommitmentEntry (b : Bytes) : Except BodyError (CommitmentEntry × Bytes) := do
  let (commitment, b) ← readDigest (.truncated .continuation) b
  let (custodyType, b) ← discriminator .continuation .custodyType b
  let (keyAlgorithm, b) ← discriminator .continuation .keyAlgorithm b
  pure (⟨commitment, custodyType, keyAlgorithm⟩, b)

def readCommitment (b : Bytes) : Except BodyError (FixedCommitment × Bytes) := do
  let (count, b) ← readBodyCount .continuation .commitments commitmentEntryBytes b
  let (commitments, b) ← readMany (fun _ => readCommitmentEntry) count b
  let (nextThreshold, b) ← readU32 (.truncated .continuation) b
  pure (⟨commitments, nextThreshold⟩, b)

def trailingFree (trailing : Bytes) : Except BodyError Unit :=
  require trailing.isEmpty (.trailingBytes trailing.length)

/-- Field 12, which ends the preimage: the sentinel and the abandonment byte
are told apart by where the bytes end. -/
def readContinuation (rest : Bytes) : Except BodyError (Option Continuation) := do
  if rest.take 4 = compositeSentinel then
    trailingFree (rest.drop 4)
    pure none
  else
    match rest with
    | [] => throw (.truncated .continuation)
    | value :: trailing =>
      if value = continuationAbandons then
        -- One to three zero bytes are a sentinel cut short.
        require (trailing.isEmpty || !trailing.all (· == 0)) (.truncated .continuation)
        trailingFree trailing
        pure (some .abandons)
      else if value = continuationFixesCommitment then
        let (commitment, trailing) ← readCommitment trailing
        trailingFree trailing
        pure (some (.fixesCommitment commitment))
      else throw (.unknownContinuation value)

/-- Fields 8 through 12, into the whole preimage. -/
def readBody (header : EventHeader) (b : Bytes) : Except BodyError EventPreimage := do
  let (revealedKeys, b) ← readPoints .revealedKeys .revealedKeys b
  let (installedRootSet, b) ← readInstalledRootSet b
  let (keyState, b) ← readSnapshot b
  let (sealCount, b) ← readBodyCount .seals .seals digestBytes b
  let (seals, b) ← readMany (fun _ => readDigest (.truncated .seals)) sealCount b
  let continuation ← readContinuation b
  pure {
    kind := header.kind
    identifier := header.identifier
    sequence := header.sequence
    predecessorDigest := header.predecessorDigest
    standingRoot := header.standingRoot
    signerGroups := header.groups.map (fun g => ⟨g.signers.map (·.index), g.signers.map (·.form)⟩)
    revealedKeys, installedRootSet, keyState, seals, continuation }

/-- The header's outcome with the body's kept apart from it. -/
def readEvent (fields : Bytes) (signedLen : ℕ) :
    Except HeaderFailure (EventHeader × Except BodyError EventPreimage) := do
  let (header, b) ← readHeader signedLen fields
  pure (header, readBody header b)

/-- Field 8 alone, whatever fields 9 through 12 hold. -/
def readRevealedKeys (fields : Bytes) (signedLen : ℕ) : Option (List Key) := do
  let (_, b) ← (readHeader signedLen fields).toOption
  let (keys, _) ← (readPoints .revealedKeys .revealedKeys b).toOption
  pure keys

def decodePreimage (bytes : Bytes) : Except DecodeError EncodedPreimage := do
  require (!kelEventSeparator.isPrefixOf bytes) .signedPreimage
  let (_, body) ← (readEvent bytes (signedLenOf bytes)).mapError (fun f => .header f.error)
  let preimage ← body.mapError .body
  pure ⟨preimage, bytes⟩

end Decode

end ScpCore.Kel
