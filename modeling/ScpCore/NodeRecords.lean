import ScpCore.KelRetained
import ScpCore.NodeFrame

/-! The key-event records a node keeps of one identifier. The log is no record of
its own: it is what admitting the stored frames gives, in the order the node
admitted them, with a cache of what was replayed before. -/

namespace ScpCore.Node
open Kel

abbrev BlobId := BitVec 256
abbrev RoutingId := BitVec 256

def i64Max : ℕ := 2^63-1

inductive StoredLifetime
  | ttl (seconds : U32)
  | retained (admission : ℕ)
  deriving DecidableEq

namespace StoredLifetime

/-- The admission counter of a retained record. -/
def admission : StoredLifetime → Option ℕ
  | .ttl _ => none
  | .retained admission => some admission

def isRetained (lifetime : StoredLifetime) : Bool := lifetime.admission.isSome

end StoredLifetime

structure StoredBlob where
  routingId : RoutingId
  blobId : BlobId
  lifetime : StoredLifetime
  blob : Bytes
  deriving DecidableEq

/-- The live blobs of the store. -/
abbrev Storage := List StoredBlob

namespace Storage
variable (storage : Storage)

def get (blobId : BlobId) : Option StoredBlob := storage.find? (fun blob => blob.blobId = blobId)

def delete (blobId : BlobId) : Storage := storage.filter (fun blob => blob.blobId ≠ blobId)

def store (blob : StoredBlob) : Storage := storage ++ [blob]

/-- The retained records of a routing id, as the store returns them. -/
def retainedAt (routingId : RoutingId) : List StoredBlob :=
  storage.filter (fun blob => blob.routingId = routingId && blob.lifetime.isRetained)

end Storage

/-- The order of admission. -/
def StoredBlob.key (blob : StoredBlob) : ℕ ×ₗ ℕ :=
  toLex (blob.lifetime.admission.getD 0, blob.blobId.toNat)

/-- Every retained record at a routing id, in the order the node admitted them. -/
def loadRetained (storage : Storage) (routingId : RoutingId) : List StoredBlob :=
  (storage.retainedAt routingId).insertionSort (fun a b => a.key ≤ b.key)

inductive PublicRecordRefusal
  | undecodable (error : KeyEventFrameError)
  | frame (refusal : FrameRefusal)
  | keepsNone
  | alreadyHeld
  | notKept
  | heldElsewhere
  | quotaFull
  | counterExhausted
  | corrupt (error : KeyEventFrameError)
  | noCounter
  | loading (refusal : FrameRefusal)
  deriving DecidableEq

inductive QuotaLimit
  | unbounded
  | blobs (limit : U32)
  deriving DecidableEq

def QuotaLimit.holds (held : ℕ) : QuotaLimit → Bool
  | .unbounded => true
  | .blobs limit => held ≤ limit.toNat

/-- One above every counter `held` carries, or zero. -/
def nextAdmission (held : List StoredBlob) : Except PublicRecordRefusal ℕ :=
  let next := (held.filterMap (·.lifetime.admission)).max?.elim 0 (·+1)
  require (next ≤ i64Max) .counterExhausted *> pure next

/-- One stored frame of a held log. -/
structure HeldFrame where
  admission : ℕ
  blobId : BlobId
  digests : List Digest
  deriving DecidableEq

/-- The log and the frames it was admitted from. -/
structure HeldLog where
  log : RetainedLog
  frames : List HeldFrame
  deriving DecidableEq

namespace HeldLog
variable (C : Crypto) (held : HeldLog)

def empty (identifier : Identifier) : HeldLog := ⟨.new identifier, []⟩

/-- `admit_frame`: the log and its frames change together or not at all. -/
def admitFrame (admission : ℕ) (blobId : BlobId) (frame : KeyEventFrame) :
    Except FrameRefusal (HoldOutcome × HeldLog) :=
  let admitted := held.log.admit_ C frame.units
  admitted.1.map (fun outcome => (outcome,
    ⟨admitted.2, held.frames ++ [⟨admission, blobId, frame.events.map (·.digest)⟩]⟩))

def lastAdmission : Option ℕ := held.frames.getLast?.map (·.admission)

/-- Every chain the log retains, accepted and suffix. -/
def retained : List ValidatedChain := held.log.holder.held

/-- The head of the accepted chain. -/
def acceptedHead : Option Digest := held.log.holder.set.map (·.basis.chain.headDigest)

/-- Whether the log's frames are the first frames of `stored`. -/
def isPrefixOf (stored : List StoredBlob) : Bool :=
  held.frames.length ≤ stored.length && (held.frames.zip stored).all (fun t =>
    t.2.blobId = t.1.blobId && t.2.lifetime.admission = some t.1.admission)

end HeldLog

/-- The cache's entry once `log` is put: a longer log stays. -/
def cachePut (entry : Option HeldLog) (log : HeldLog) : Option HeldLog :=
  entry.elim (some log) (fun held => if held.frames.length ≤ log.frames.length then some log
    else some held)

section Log
variable (C : Crypto)

/-- Admits one stored frame. -/
def admitStored (held : HeldLog) (blob : StoredBlob) : Except PublicRecordRefusal HeldLog := do
  let frame ← (decodeKeyEventFrame C blob.blob).mapError .corrupt
  let admission ← okOr blob.lifetime.admission .noCounter
  let (_, held) ← (held.admitFrame C admission blob.blobId frame).mapError .loading
  pure held

/-- The loop of `held_log_from`. -/
def replayFrom : HeldLog → List StoredBlob → Except PublicRecordRefusal HeldLog
  | held, [] => .ok held
  | held, blob :: rest => do
    let held ← admitStored C held blob
    replayFrom held rest

/-- `held_log_from`, with the cache entry it leaves. -/
def heldLogFrom (entry : Option HeldLog) (identifier : Identifier) (stored : List StoredBlob) :
    Except PublicRecordRefusal (HeldLog × Option HeldLog) :=
  let held := (entry.filter (·.isPrefixOf stored)).getD (.empty identifier)
  if held.frames.length = stored.length then .ok (held, entry)
  else do
    let held ← replayFrom C held (stored.drop held.frames.length)
    pure (held, cachePut entry held)

end Log

/-- The frames that carry an event of a retained chain. -/
def selectKeyEvents (retained : List ValidatedChain) (frames : List HeldFrame) : List BlobId :=
  let kept := retained.flatMap (·.eventDigests)
  ((frames.filter (fun frame => frame.digests.any (· ∈ kept))).map (·.blobId)).dedup

structure RetainedPublish where
  routingId : RoutingId
  blobId : BlobId
  blob : Bytes
  deriving DecidableEq

structure Selection where
  held : List StoredBlob
  kept : List BlobId
  deriving DecidableEq

/-- The store and the cache entry of the identifier. -/
structure NodePublicRecords where
  storage : Storage
  logs : Option HeldLog
  deriving DecidableEq

def isRefused : HoldOutcome → Bool
  | .refused _ => true
  | .alreadyHeld | .acceptedExtended _ | .acceptedReplaced _ _ _ | .heldDivergent _ => false

section Admit
variable (C : Crypto)

/-- The held log with the arriving frame, and the selection over it. -/
def selectArriving (held : HeldLog) (stored : List StoredBlob) (blobId : BlobId)
    (frame : KeyEventFrame) : Except PublicRecordRefusal (HeldLog × Selection) := do
  let admission ← nextAdmission stored
  let (outcome, held) ← (held.admitFrame C admission blobId frame).mapError .frame
  require (!isRefused outcome) .keepsNone
  pure (held, ⟨stored, selectKeyEvents held.retained held.frames⟩)

/-- `admit_key_events`, with the cache entry it leaves. -/
def admitKeyEvents (st : NodePublicRecords) (publish : RetainedPublish) :
    Except PublicRecordRefusal (HeldLog × Selection) × Option HeldLog :=
  match decodeKeyEventFrame C publish.blob with
  | .error error => (.error (.undecodable error), st.logs)
  | .ok frame =>
    let stored := loadRetained st.storage publish.routingId
    match heldLogFrom C st.logs frame.identifier stored with
    | .error refusal => (.error refusal, st.logs)
    | .ok (held, logs) => (selectArriving C held stored publish.blobId frame, logs)

/-- Deletes every record of the selection that it does not keep. -/
def dropUnselected (storage : Storage) (selection : Selection) : Storage :=
  (selection.held.filter (fun held => held.blobId ∉ selection.kept)).foldl
    (fun storage held => storage.delete held.blobId) storage

/-- `commit`: the arriving record is stored before any held record is deleted. -/
def commit (quota : QuotaLimit) (storage : Storage) (publish : RetainedPublish)
    (selection : Selection) : Except PublicRecordRefusal (StoredBlob × Storage) := do
  require (!selection.held.any (fun held => held.blobId = publish.blobId)) .alreadyHeld
  require (publish.blobId ∈ selection.kept) .notKept
  require (quota.holds selection.kept.length) .quotaFull
  let admission ← nextAdmission selection.held
  let elsewhere := storage.get publish.blobId
  require (!elsewhere.any (·.lifetime.isRetained)) .heldElsewhere
  -- A TTL copy of the bytes gives way to the record.
  let storage := if elsewhere.isSome then storage.delete publish.blobId else storage
  let stored := ⟨publish.routingId, publish.blobId, .retained admission, publish.blob⟩
  pure (stored, dropUnselected (storage.store stored) selection)

/-- `admit` of a key-event record: the record stored and the log it was admitted to,
with the state it leaves. -/
def admit_ (quota : QuotaLimit) (st : NodePublicRecords) (publish : RetainedPublish) :
    Except PublicRecordRefusal (StoredBlob × HeldLog) × NodePublicRecords :=
  let admitted := admitKeyEvents C st publish
  let st := { st with logs := admitted.2 }
  match admitted.1 with
  | .error refusal => (.error refusal, st)
  | .ok (held, selection) =>
    match commit quota st.storage publish selection with
    | .error refusal => (.error refusal, st)
    | .ok (stored, storage) =>
      -- The cache takes the log only where the store confirms its counter.
      (.ok (stored, held), ⟨storage, if stored.lifetime.admission = held.lastAdmission then
        cachePut st.logs held else st.logs⟩)

end Admit

end ScpCore.Node
