import ScpCore.ExactRead

/-! The key-event preimage's twelve fields as types, the `scp_did` key-state
types they carry, and the typed errors of the codec. Fixed byte arrays and
machine integers are bit vectors read big-endian, so the byte order of
`[u8; 32]` is the numeric order. -/

namespace ScpCore.Kel

abbrev U32 := BitVec 32
abbrev U64 := BitVec 64
abbrev Digest := BitVec 256
abbrev Identifier := BitVec 256
/-- A 33-byte SEC1 compressed point. -/
abbrev Key := BitVec 264

def identifierZero : Identifier := 0

def maxRootSetSize : ℕ := 16
def maxNextSetSize : ℕ := 16
def maxEventBytes : ℕ := 65536
def maxWitnessSetSize : ℕ := 32
def minWitnessingInterval : ℕ := 300
def maxWitnessingInterval : ℕ := 604800
def minAuthenticatorDataBytes : ℕ := 37
def maxAuthenticatorDataBytes : ℕ := 256
def maxClientDataJsonBytes : ℕ := 512
def rawSignatureBytes : ℕ := 64

inductive DiscriminatorKind
  | keyRole | keyCondition | custodyType | keyAlgorithm
  deriving DecidableEq

structure UnknownDiscriminator where
  kind : DiscriminatorKind
  value : UInt8
  deriving DecidableEq

/-- `name_bound_enum!`: an enumeration with registered one-byte discriminators. -/
class NameBound (α : Type) where
  kind : DiscriminatorKind
  all : List α
  toByte : α → UInt8

/-- The `TryFrom<u8>` of a name-bound enumeration. -/
def NameBound.tryFrom {α : Type} [NameBound α] (value : UInt8) : Except UnknownDiscriminator α :=
  match (NameBound.all : List α).find? (fun v => NameBound.toByte v == value) with
  | some v => .ok v
  | none => .error ⟨NameBound.kind α, value⟩

inductive KeyRole
  | rootMember | active
  deriving DecidableEq

inductive KeyCondition
  | current | superseded | retired | compromised
  deriving DecidableEq

inductive CustodyType
  | passkey | fido2Token | hsm | secureEnclave | androidKeystore
  | encryptedOfflineBackup | shamirShares | paperBackup | software
  deriving DecidableEq

inductive KeyAlgorithm
  | ecdsaP256Sha256
  deriving DecidableEq

instance : NameBound KeyRole where
  kind := .keyRole
  all := [.rootMember, .active]
  toByte
    | .rootMember => 0x01
    | .active => 0x02

instance : NameBound KeyCondition where
  kind := .keyCondition
  all := [.current, .superseded, .retired, .compromised]
  toByte
    | .current => 0x01
    | .superseded => 0x02
    | .retired => 0x03
    | .compromised => 0x04

instance : NameBound CustodyType where
  kind := .custodyType
  all := [.passkey, .fido2Token, .hsm, .secureEnclave, .androidKeystore,
    .encryptedOfflineBackup, .shamirShares, .paperBackup, .software]
  toByte
    | .passkey => 0x01
    | .fido2Token => 0x02
    | .hsm => 0x03
    | .secureEnclave => 0x04
    | .androidKeystore => 0x05
    | .encryptedOfflineBackup => 0x06
    | .shamirShares => 0x07
    | .paperBackup => 0x08
    | .software => 0x09

instance : NameBound KeyAlgorithm where
  kind := .keyAlgorithm
  all := [.ecdsaP256Sha256]
  toByte
    | .ecdsaP256Sha256 => 0x01

structure KeyEntry where
  key : Key
  role : KeyRole
  condition : KeyCondition
  compromisedFrom : U64
  custodyType : CustodyType
  keyAlgorithm : KeyAlgorithm
  deriving DecidableEq

structure CommitmentEntry where
  commitment : Digest
  custodyType : CustodyType
  keyAlgorithm : KeyAlgorithm
  deriving DecidableEq

structure FixedCommitment where
  commitments : List CommitmentEntry
  nextThreshold : U32
  deriving DecidableEq

inductive StandingCommitment
  | fixed (commitment : FixedCommitment)
  | abandoned (atSequence : U64) (eventDigest : Digest)
  deriving DecidableEq

inductive EventKind
  | inception | keyState | commitmentRollover | rootRecovery
  deriving DecidableEq

/-- Signed by revealing keys of the standing commitment. -/
def EventKind.isRevealAuthorized : EventKind → Bool
  | .commitmentRollover | .rootRecovery => true
  | .inception | .keyState => false

inductive StandingRootDeclaration
  | coSigns | lost
  deriving DecidableEq

inductive SignerGroupRole
  | root | reveal | replacementRoot | standingRoot
  deriving DecidableEq

/-- The signer groups a preimage of `kind` names, in its group order. -/
def signerGroupRoles : EventKind → Option StandingRootDeclaration → Option (List SignerGroupRole)
  | .inception, _ | .keyState, _ => some [.root]
  | .commitmentRollover, _ => some [.reveal, .standingRoot]
  | .rootRecovery, some .coSigns => some [.reveal, .replacementRoot, .standingRoot]
  | .rootRecovery, some .lost => some [.reveal, .replacementRoot]
  | .rootRecovery, none => none

inductive SignatureForm
  | raw | webAuthnAssertion
  deriving DecidableEq

structure SignerGroup where
  indices : List UInt8
  forms : List SignatureForm
  deriving DecidableEq

structure InstalledRootSet where
  members : List Key
  threshold : U32
  deriving DecidableEq

structure KeyStateSnapshot where
  rootThreshold : U32
  keys : List KeyEntry
  witnesses : List Identifier
  witnessingInterval : U32
  serviceKeyRole : KeyRole
  delegator : Identifier
  deriving DecidableEq

/-- The `Current` `RootMember` keys in snapshot order, with the snapshot's threshold. -/
def KeyStateSnapshot.rootSet (s : KeyStateSnapshot) : InstalledRootSet where
  members := (s.keys.filter (fun e => e.role = .rootMember ∧ e.condition = .current)).map (·.key)
  threshold := s.rootThreshold

inductive Continuation
  | fixesCommitment (commitment : FixedCommitment)
  | abandons
  deriving DecidableEq

structure EventPreimage where
  kind : EventKind
  identifier : Identifier
  sequence : U64
  predecessorDigest : Digest
  standingRoot : Option StandingRootDeclaration
  signerGroups : List SignerGroup
  revealedKeys : List Key
  installedRootSet : Option InstalledRootSet
  keyState : Option KeyStateSnapshot
  seals : List Digest
  continuation : Option Continuation
  deriving DecidableEq

def EventPreimage.signerGroupRoles (p : EventPreimage) : Option (List SignerGroupRole) :=
  Kel.signerGroupRoles p.kind p.standingRoot

inductive HeaderField
  | eventType | identifier | sequence | predecessorDigest | standingRoot
  | signerIndices | signatureForms
  deriving DecidableEq

inductive BodyField
  | revealedKeys | installedRootSet | keyState | seals | continuation
  deriving DecidableEq

inductive SignerList
  | indices (role : SignerGroupRole)
  | forms (role : SignerGroupRole)
  deriving DecidableEq

inductive BodyList
  | revealedKeys | installedRootSet | snapshotKeys | witnesses | seals | commitments
  deriving DecidableEq

inductive ListField
  | signer (list : SignerList)
  | body (list : BodyList)
  deriving DecidableEq

inductive DidDiscriminatorField
  | role | condition | custodyType | keyAlgorithm | serviceKeyRole
  deriving DecidableEq

inductive HeaderDiscriminator
  | eventType | standingRoot | signatureForm
  deriving DecidableEq

structure FormListLength where
  role : SignerGroupRole
  indices : ℕ
  forms : ℕ
  deriving DecidableEq

inductive EncodeError
  | countOverflow (list : ListField) (len : ℕ)
  | countOverMax (list : ListField) (len max : ℕ)
  | formListLength (error : FormListLength)
  | eventTooLong (encodedLen : ℕ)
  | rootRecoveryWithoutStandingRoot
  | signerGroupCount (kind : EventKind) (expected actual : ℕ)
  | emptyInstalledRootSet
  | zeroRootThreshold
  | compromisedFromWithoutCompromise (entry : ℕ) (condition : KeyCondition) (compromisedFrom : U64)
  deriving DecidableEq

inductive HeaderError
  | truncated (field : HeaderField)
  | countOverMax (list : SignerList) (count max : ℕ)
  | countOverRemaining (list : SignerList) (count remaining : ℕ)
  | unknownDiscriminator (field : HeaderDiscriminator) (value : UInt8)
  | rootRecoveryWithoutStandingRoot
  | formListLength (error : FormListLength)
  | eventTooLong (encodedLen : ℕ)
  deriving DecidableEq

inductive BodyError
  | truncated (field : BodyField)
  | countOverMax (list : BodyList) (count max : ℕ)
  | countOverRemaining (list : BodyList) (count remaining : ℕ)
  | unknownDidDiscriminator (field : DidDiscriminatorField) (source : UnknownDiscriminator)
  | unknownContinuation (value : UInt8)
  | compromisedFromWithoutCompromise (entry : ℕ) (condition : KeyCondition) (compromisedFrom : U64)
  | trailingBytes (count : ℕ)
  deriving DecidableEq

inductive DecodeError
  | signedPreimage
  | header (error : HeaderError)
  | body (error : BodyError)
  deriving DecidableEq

inductive InceptionHeaderDefect
  | truncated (field : HeaderField)
  | notInception (value : UInt8)
  | nonzeroIdentifier
  | nonzeroSequence
  | nonzeroPredecessor
  deriving DecidableEq

end ScpCore.Kel
