import ScpCore.BestPerSlot
import ScpCore.NodeRecords

/-! The retained kinds beside the key-event records: service records, node lists and
witness conflict statements. Each is checked under keys read from the chains the node
retains, and each has its selection: what the node keeps of it at one routing id. -/

namespace ScpCore.Records
open Kel

abbrev BlobId := Node.BlobId
abbrev NodeId := BitVec 256

structure ServiceRecordFrame where
  identifier : Identifier
  sequence : U64
  signingDigest : Digest
  signature : RawSignature
  deriving DecidableEq

structure NodeBinding where
  operator : Identifier
  nodeKey : Key
  urlHash : Digest
  keyStateHead : Digest
  operatorSig : RawSignature
  possessionSig : RawSignature
  deriving DecidableEq

structure NodeListEntry where
  binding : NodeBinding
  url : Bytes
  deriving DecidableEq

structure NodeListRecord where
  contextId : String
  sequence : U64
  governor : Identifier
  signingKeyStateHead : Digest
  entries : List NodeListEntry
  signature : RawSignature
  deriving DecidableEq

structure ConflictStatement where
  witness : NodeId
  subject : Identifier
  heldSequence : U64
  heldDigest : Digest
  offeredSequence : U64
  offeredDigest : Digest
  observedAt : U64
  signature : RawSignature
  deriving DecidableEq

/-- A decoded record of a retained kind. -/
inductive Record
  | keyEvents (frame : Node.KeyEventFrame)
  | service (frame : ServiceRecordFrame)
  | nodeList (record : NodeListRecord)
  | conflicts (subject : Identifier) (statements : List ConflictStatement)
  deriving DecidableEq

/-- Where a kind's records are kept, under the name each routing id is the hash of. -/
inductive RoutingId
  | did (identifier : Identifier)
  | svc (identifier : Identifier)
  | nls (contextId : String)
  | wcf (subject : Identifier)
  deriving DecidableEq

/-- `classify_node_record`: a record is published at the routing id its own bytes name. -/
def Record.routingId : Record → RoutingId
  | .keyEvents frame => .did frame.identifier
  | .service frame => .svc frame.identifier
  | .nodeList record => .nls record.contextId
  | .conflicts subject _ => .wcf subject

structure NodeListPin where
  contextId : String
  governor : Identifier
  deriving DecidableEq

/-- What does not change while the node runs: its primitives, its terms, and the record
that each blob id is the content address of. -/
structure Setting where
  crypto : Crypto
  verifyPrehashStrict : Key → Digest → RawSignature → Bool
  /-- `NodeListRecord::digest`, over the canonical JSON of the entries. -/
  nodeListDigest : NodeListRecord → Option Digest
  content : BlobId → Record
  quota : Node.QuotaLimit
  /-- The pins in their set's order. -/
  nodeLists : List NodeListPin
  /-- The place of a pin's routing id among the routing ids. -/
  contextOrder : NodeListPin → ℕ

section Chains
variable (chain : ValidatedChain)

def keyState : KeyState := (replay chain).keyState

def keyStateAt (digest : Digest) : Option KeyState :=
  (chain.stateAt digest).map (fun standing => (ReplayedState.compose chain.identifier standing).keyState)

def holds (sequence : U64) (digest : Digest) : Bool := chain.digestAt sequence.toNat = some digest

end Chains

inductive AnchoredKeyError
  | identityMismatch | headNotOnChain | activeKey
  deriving DecidableEq

section Verify
variable (N : Setting)

/-- The one key listed current in the active role. -/
def activeOf (keys : List KeyEntry) : Except AnchoredKeyError Key :=
  match keys.filter (fun entry => entry.role = .active && entry.condition = .current) with
  | [entry] => do
    require (N.crypto.validPoint entry.key) .activeKey
    pure entry.key
  | _ => .error .activeKey

/-- The active key at the event `keyStateHead` of the signer's chain. -/
def activeAt (chain : ValidatedChain) (signer : Identifier) (keyStateHead : Digest) :
    Except AnchoredKeyError Key := do
  require (chain.identifier = signer) .identityMismatch
  let state ← okOr (keyStateAt chain keyStateHead) .headNotOnChain
  activeOf N state.keys

def ServiceRecordFrame.verify (frame : ServiceRecordFrame) (designated : Key) : Bool :=
  N.crypto.validPoint designated &&
    N.verifyPrehashStrict designated frame.signingDigest frame.signature

/-- The keys that the held chains list current in the service-record role. -/
def designatedServiceKeys (chains : List ValidatedChain) : List Key :=
  (chains.flatMap (fun chain =>
    ((keyState chain).keys.filter (fun entry =>
      entry.role = (keyState chain).serviceKeyRole && entry.condition = .current)).map
      (·.key))).dedup

def serviceEntries (designated : List Key) (record : BlobId × ServiceRecordFrame) :
    List (SlotEntry Key ℕ BlobId) :=
  (designated.filter (record.2.verify N)).map (fun key =>
    ⟨key, record.2.sequence.toNat, record.1⟩)

/-- Per designated key, the record at the highest sequence. -/
def selectServiceRecords (records : List (BlobId × ServiceRecordFrame)) (designated : List Key) :
    List BlobId :=
  BestPerSlot.kept (records.flatMap (serviceEntries N designated))

inductive NodeListError
  | preimage | signature
  | governorKey (error : AnchoredKeyError)
  deriving DecidableEq

/-- `AdmittedNodeListRecord::admit`: the key the record verifies under. -/
def admitRecord (record : NodeListRecord) (governor : ValidatedChain) : Except NodeListError Key := do
  let key ← (activeAt N governor record.governor record.signingKeyStateHead).mapError .governorKey
  let digest ← okOr (N.nodeListDigest record) .preimage
  require (N.verifyPrehashStrict key digest record.signature) .signature
  pure key

structure SigningKey where
  key : Key
  compromised : Bool
  deriving DecidableEq

inductive NodeListUnverified
  | noGovernorLog
  | refused (error : NodeListError)
  deriving DecidableEq

/-- The refusal the loop goes on with: a head off the chain gives way to another error. -/
def nextRefusal (refusal : Option NodeListError) (error : NodeListError) : Option NodeListError :=
  match refusal with
  | none => some error
  | some (.governorKey .headNotOnChain) =>
    if error = .governorKey .headNotOnChain then refusal else some error
  | some _ => refusal

/-- Whether a held chain with the record's head marks the key compromised. -/
def isCompromised (governor : List ValidatedChain) (head : Digest) (key : Key) : Bool :=
  (governor.filter (fun held => (keyStateAt held head).isSome)).any (fun held =>
    (keyState held).keys.any (fun entry => entry.key = key && entry.condition = .compromised))

/-- The loop of `verify_node_list` over the chains still to try. -/
def verifyOn (governor : List ValidatedChain) (record : NodeListRecord) :
    Option NodeListError → List ValidatedChain → Except NodeListUnverified SigningKey
  | refusal, [] => .error (refusal.elim .noGovernorLog .refused)
  | refusal, chain :: rest =>
    match admitRecord N record chain with
    | .ok key => .ok ⟨key, isCompromised governor record.signingKeyStateHead key⟩
    | .error error => verifyOn governor record (nextRefusal refusal error) rest

def verifyNodeList (governor : List ValidatedChain) (record : NodeListRecord) :
    Except NodeListUnverified SigningKey :=
  verifyOn N governor record none governor

structure HeldNodeList where
  blobId : BlobId
  record : NodeListRecord
  signing : Option SigningKey
  deriving DecidableEq

end Verify

def nodeListEntries (held : HeldNodeList) : List (SlotEntry (Identifier × Key) ℕ BlobId) :=
  ((held.signing.filter (fun signing => !signing.compromised)).map (fun signing =>
    ⟨(held.record.governor, signing.key), held.record.sequence.toNat, held.blobId⟩)).toList

/-- Per governor and signing key, the record at the highest sequence. -/
def selectNodeLists (records : List HeldNodeList) : List BlobId :=
  BestPerSlot.kept (records.flatMap nodeListEntries)

/-- `"SCP-NODE-ID-V1:"`. -/
def nodeIdSeparator : Bytes :=
  [0x53, 0x43, 0x50, 0x2d, 0x4e, 0x4f, 0x44, 0x45, 0x2d, 0x49, 0x44, 0x2d, 0x56, 0x31, 0x3a]

/-- `"SCP-NODE-BIND-V1:"`. -/
def nodeBindingSeparator : Bytes :=
  [0x53, 0x43, 0x50, 0x2d, 0x4e, 0x4f, 0x44, 0x45, 0x2d, 0x42, 0x49, 0x4e, 0x44, 0x2d, 0x56, 0x31,
    0x3a]

/-- `"SCP-WITNESS-CONFLICT-V1:"`. -/
def witnessConflictSeparator : Bytes :=
  [0x53, 0x43, 0x50, 0x2d, 0x57, 0x49, 0x54, 0x4e, 0x45, 0x53, 0x53, 0x2d, 0x43, 0x4f, 0x4e, 0x46,
    0x4c, 0x49, 0x43, 0x54, 0x2d, 0x56, 0x31, 0x3a]

structure BoundWitness where
  nodeKey : Key
  operator : Identifier
  deriving DecidableEq

section Witness
variable (N : Setting)

def NodeBinding.digest (binding : NodeBinding) : Digest :=
  N.crypto.sha256 (nodeBindingSeparator ++ beBytes 32 binding.operator.toNat ++
    pointOut binding.nodeKey ++ beBytes 32 binding.urlHash.toNat ++
    beBytes 32 binding.keyStateHead.toNat)

def deriveNodeId (nodeKey : Key) : NodeId := N.crypto.sha256 (nodeIdSeparator ++ pointOut nodeKey)

/-- `check_binding`: the node key's id, once both signatures verify. -/
def checkBinding (binding : NodeBinding) (operator : ValidatedChain) : Option NodeId := do
  guard (N.crypto.validPoint binding.nodeKey)
  let active ← (activeAt N operator binding.operator binding.keyStateHead).toOption
  guard (N.verifyPrehashStrict active (binding.digest N) binding.operatorSig)
  guard (N.verifyPrehashStrict binding.nodeKey (binding.digest N) binding.possessionSig)
  pure (deriveNodeId N binding.nodeKey)

/-- `AdmittedNodeListEntry::admit`. -/
def admitEntry (entry : NodeListEntry) (operator : ValidatedChain) : Option NodeId := do
  guard (N.crypto.sha256 entry.url = entry.binding.urlHash)
  checkBinding N entry.binding operator

def ConflictStatement.fields (s : ConflictStatement) : Bytes :=
  beBytes 32 s.witness.toNat ++ beBytes 32 s.subject.toNat ++ beBytes 8 s.heldSequence.toNat ++
    beBytes 32 s.heldDigest.toNat ++ beBytes 8 s.offeredSequence.toNat ++
    beBytes 32 s.offeredDigest.toNat ++ beBytes 8 s.observedAt.toNat

def ConflictStatement.signingDigest (s : ConflictStatement) : Digest :=
  N.crypto.sha256 (witnessConflictSeparator ++ s.fields)

def ConflictStatement.verify (s : ConflictStatement) (nodeKey : Key) : Bool :=
  N.verifyPrehashStrict nodeKey (s.signingDigest N) s.signature

/-- What the bound node keys are looked up in, the last binding of a node id first. -/
abbrev Bound := List (NodeId × BoundWitness)

def Bound.get (bound : Bound) (witness : NodeId) : Option BoundWitness :=
  (bound.find? (fun b => b.1 = witness)).map Prod.snd

/-- The subject's key state at a head the node holds at that sequence. -/
def stateHeld (chains : List ValidatedChain) (digest : Digest) (sequence : U64) : Option KeyState :=
  (chains.filter (fun chain => holds chain sequence digest)).findSome? (keyStateAt · digest)

def statementAdmissible (statement : ConflictStatement) (subject : Identifier)
    (subjectChains : List ValidatedChain) (bound : Bound) : Bool :=
  statement.subject = subject && (bound.get statement.witness).any (fun witness =>
    statement.verify N witness.nodeKey &&
    (stateHeld subjectChains statement.heldDigest statement.heldSequence).any (fun held =>
    (stateHeld subjectChains statement.offeredDigest statement.offeredSequence).any (fun offered =>
      [held, offered].any (fun state => witness.operator ∈ state.witnesses))))

def conflictEntries (subject : Identifier) (subjectChains : List ValidatedChain) (bound : Bound)
    (frame : BlobId × List ConflictStatement) : List (SlotEntry (NodeId × Digest) ℕ BlobId) :=
  (frame.2.filter (statementAdmissible N · subject subjectChains bound)).map (fun statement =>
    ⟨(statement.witness, statement.offeredDigest), statement.observedAt.toNat, frame.1⟩)

/-- Per witness and offered head, the admissible statement observed last. -/
def selectConflicts (frames : List (BlobId × List ConflictStatement)) (subject : Identifier)
    (subjectChains : List ValidatedChain) (bound : Bound) : List BlobId :=
  BestPerSlot.kept (frames.flatMap (conflictEntries N subject subjectChains bound))

end Witness

end ScpCore.Records
