import ScpCore.RecoveryStore

/-! The five transitions of a store set. What the stores answer is part of the
input: a read may not be reached, and a write may fail before or after the
member took it, so every partial execution of the source is a run here. -/

namespace ScpCore.Recovery
open ScpCore.Kel (Digest Identifier)

inductive PlatformAccountSlot
  | present
  | presentWithoutHandle
  | absent (reason : PlatformAccountAbsence)
  deriving DecidableEq

/-- The members a device reaches and the lease it holds. -/
structure StoreSet where
  platformAccount : PlatformAccountSlot
  /-- Whether the device holds a `largeBlob` handle. -/
  largeBlob : Bool
  credentialId : CredentialId
  identifier : Identifier

structure PlatformStore where
  record : Option StoreSetRecord
  entry : StoreEntry
  events : List (Digest × List UInt8)

structure LocalStore where
  entry : StoreEntry
  events : List (Digest × List UInt8)

/-- What the stores one device reaches hold. -/
structure Stores where
  platform : PlatformStore
  blob : StoreEntry
  sdkLocal : LocalStore

/-- How one write and its read-back go: what the write returns, whether the
member took it, and whether the read-back is reached. -/
structure WriteAnswer where
  failure : Option String
  stored : Bool
  readBack : Option NotReachedCause

/-- How a `largeBlob` write goes; it has no read-back. -/
structure BlobAnswer where
  notLanded : Option LargeBlobNotLanded
  stored : Bool

def WriteAnswer.lands : WriteAnswer := ⟨none, true, none⟩

/-- What the stores answer during one call; a read answers `none` where the
member is reached. -/
structure Answers where
  readRecord : Option NotReachedCause
  readPlatform : Option NotReachedCause
  readBlob : Option NotReachedCause
  readLocal : Option NotReachedCause
  eventRecord : Option NotReachedCause
  localEvent : Option NotReachedCause
  platformEvent : Option NotReachedCause
  writePlatform : WriteAnswer
  writeBlob : BlobAnswer
  writeLocal : WriteAnswer
  freshRecord : Option NotReachedCause
  writeRecord : WriteAnswer

/-- Every read is reached and every write lands. -/
def Answers.reached : Answers where
  readRecord := none
  readPlatform := none
  readBlob := none
  readLocal := none
  eventRecord := none
  localEvent := none
  platformEvent := none
  writePlatform := .lands
  writeBlob := ⟨none, true⟩
  writeLocal := .lands
  freshRecord := none
  writeRecord := .lands

inductive MemberWrite
  | notInSet | unchanged | written
  | failed (cause : WriteCause)
  | notAttempted
  deriving DecidableEq

inductive LargeBlobWrite
  | noStore
  | unread (cause : NotReachedCause)
  | unchanged
  | landed
  | notLanded (cause : Option String) (clearsBy : LargeBlobClearingAct)
  | notAttempted
  deriving DecidableEq

structure WriteReport where
  platformAccount : MemberWrite
  largeBlob : LargeBlobWrite
  sdkLocal : MemberWrite
  record : MemberWrite
  stop : Option RecoveryStoreError
  deriving DecidableEq

inductive RemovalCause
  | notLanded (cause : Option String) (clearsBy : LargeBlobClearingAct)
  | failed (cause : WriteCause)
  | phaseNotRemovable
  | unread (cause : NotReachedCause)
  deriving DecidableEq

structure MemberRemoval where
  store : CredentialStore
  cause : Option RemovalCause
  deriving DecidableEq

structure RemovalReport where
  perStore : List MemberRemoval
  record : MemberWrite
  deriving DecidableEq

/-- How a transition treats a write that fails. -/
inductive Policy
  | compose
  | hold
  | advance (eventDigest : Digest) (toSigned : Bool)
  deriving DecidableEq

def unreadable (store : CredentialStore) (cause : NotReachedCause) : RecoveryStoreError :=
  .storePartiallyUnreadable store cause

/-- A member's answer: an absent value and the one byte `0x00` read the same. -/
def readEntry (answer : Option NotReachedCause) (stored : StoreEntry) : MemberRead StoreEntry :=
  match answer with
  | some cause => .notReached cause
  | none => if stored = .empty then .reachedEmpty else .reached stored

/-- Whether the entry carries another identity's handle or marker. -/
def foreign (entry : StoreEntry) (identifier : Identifier) : Bool :=
  entry.handle.elim false (fun h => h.identifier ≠ identifier) ||
    entry.marker.elim false (fun m => m.identifier ≠ identifier)

def checkedEntry (store : CredentialStore) (read : MemberRead StoreEntry)
    (identifier : Identifier) (source : EntrySource) : Except RecoveryStoreError StoreEntry :=
  match read with
  | .reachedEmpty => .ok .empty
  | .notReached cause => .error (unreadable store cause)
  | .reached entry =>
    if source = .synced && entry.largeBlobSkipped then
      .error (unreadable store (.undecodable .skipInSyncedMember))
    else if foreign entry identifier then .error (unreadable store .foreignIdentity)
    else .ok entry

/-- Writes `entry` and reads it back; the second part is what the member holds
afterwards. -/
def writeEntryChecked (answer : WriteAnswer) (held entry : StoreEntry) :
    Option WriteCause × StoreEntry :=
  let now := if answer.stored then entry else held
  match answer.failure, answer.readBack with
  | some cause, _ => (some (.store cause), now)
  | none, some cause => (some (.readBackFailed cause), now)
  | none, none => (if now = entry then none else some .readBackDiffers, now)

def writeRecordChecked (answer : WriteAnswer) (held : Option StoreSetRecord)
    (record : StoreSetRecord) : Option WriteCause × Option StoreSetRecord :=
  let now := if answer.stored then some record else held
  match answer.failure, answer.readBack with
  | some cause, _ => (some (.store cause), now)
  | none, some cause => (some (.readBackFailed cause), now)
  | none, none => (if now = some record then none else some .readBackDiffers, now)

def memberWrite : Option WriteCause → MemberWrite
  | none => .written
  | some cause => .failed cause

def MemberWrite.failure : MemberWrite → Option WriteCause
  | failed cause => some cause
  | notInSet | unchanged | written | notAttempted => none

def memberCause (write : MemberWrite) : Option RemovalCause := write.failure.map .failed

/-- Whether a `largeBlob` outcome shows that the store holds a landed write. -/
def landedEvidence (outcome : LargeBlobWrite) (read : BlobRead) : Bool :=
  match outcome with
  | .landed => true
  | .unchanged => read.entry?.elim false (fun entry => !entry.isEmpty)
  | .noStore | .unread _ | .notLanded _ _ | .notAttempted => false

/-- Clears the local skip bit for `d` once the handle has landed. -/
def clearSkip (snapshot : Snapshot) (sdkLocal : Merge) (d : Digest) : Merge :=
  match sdkLocal with
  | some entry => some (if entry.holds d then entry.withoutSkip else entry)
  | none => if snapshot.localSkipped d then some snapshot.sdkLocal.withoutSkip else none

/-- Sets the skip bit of the entry `compose` writes to the local store. -/
def setSkip (sdkLocal : Merge) : Merge :=
  sdkLocal.map (fun entry =>
    entry.handle.elim entry (fun handle => .skipped handle entry.marker))

namespace StoreSet
variable (set : StoreSet) (a : Answers)

/-- The record, where the host's row gives the platform-account member. -/
def resolveRecord (answer : Option NotReachedCause) (s : Stores) :
    Except RecoveryStoreError (Option StoreSetRecord) :=
  match set.platformAccount with
  | .absent _ => .ok none
  | .presentWithoutHandle => .error (unreadable .platformAccount .noStoreOnDevice)
  | .present =>
    match answer, s.platform.record with
    | some cause, _ => .error (unreadable .platformAccount cause)
    | none, none => .error (unreadable .platformAccount .holdsNoRecord)
    | none, some record =>
      if record.credentialId ≠ set.credentialId then .error .recordCredentialMismatch
      else if record.largeBlob = .member && !set.largeBlob then
        .error (unreadable .largeBlob .noStoreOnDevice)
      else .ok (some record)

/-- The platform-account entry, where the host has the member. -/
def snapshotPlatform (record : Option StoreSetRecord) (s : Stores) :
    Except RecoveryStoreError (Option StoreEntry) :=
  match record with
  | none => .ok none
  | some _ =>
    (checkedEntry .platformAccount (readEntry a.readPlatform s.platform.entry)
      set.identifier .synced).map some

/-- A host with a record tolerates a failed read of a store it records as not a
member; every other failure refuses. -/
def snapshotBlob (record : Option StoreSetRecord) (s : Stores) :
    Except RecoveryStoreError BlobRead :=
  if !set.largeBlob then .ok .noHandle
  else match checkedEntry .largeBlob (readEntry a.readBlob s.blob) set.identifier .synced with
    | .ok entry => .ok (.read entry)
    | .error (.storePartiallyUnreadable store cause) =>
      if record.elim false (fun r => r.largeBlob = .notMember) then .ok (.unread cause)
      else .error (.storePartiallyUnreadable store cause)
    | .error e => .error e

def snapshot (s : Stores) : Except RecoveryStoreError Snapshot := do
  let record ← set.resolveRecord a.readRecord s
  let platform ← set.snapshotPlatform a record s
  let blob ← set.snapshotBlob a record s
  let sdkLocal ← checkedEntry .sdkLocal (readEntry a.readLocal s.sdkLocal.entry)
    set.identifier .sdkLocal
  return { record, platform, blob, sdkLocal }

def writePlatform (snapshot : Snapshot) (merge : Merge) (s : Stores) : MemberWrite × Stores :=
  match set.platformAccount, snapshot.platform, merge with
  | .present, some _, some entry =>
    let (cause, held) := writeEntryChecked a.writePlatform s.platform.entry entry.withoutSkip
    (memberWrite cause, { s with platform.entry := held })
  | .present, some _, none => (.unchanged, s)
  | _, _, _ => (.notInSet, s)

def writeBlob (snapshot : Snapshot) (merge : Merge) (s : Stores) : LargeBlobWrite × Stores :=
  match set.largeBlob, snapshot.blob, merge with
  | true, .read _, some entry =>
    (a.writeBlob.notLanded.elim .landed (fun n => .notLanded n.cause n.clearsBy),
      { s with blob := if a.writeBlob.stored then entry.withoutSkip else s.blob })
  | true, .read _, none => (.unchanged, s)
  | true, .unread cause, _ => (.unread cause, s)
  | true, .noHandle, _ => (.noStore, s)
  | false, _, _ => (.noStore, s)

def writeLocal (merge : Merge) (s : Stores) : MemberWrite × Stores :=
  match merge with
  | none => (.unchanged, s)
  | some entry =>
    let (cause, held) := writeEntryChecked a.writeLocal s.sdkLocal.entry entry
    (memberWrite cause, { s with sdkLocal.entry := held })

/-- Writes the record against a fresh read where the membership changed. -/
def writeMembership (snapshot : Snapshot) (membership : Option LargeBlobMembership)
    (s : Stores) : MemberWrite × Stores :=
  match snapshot.record, membership, set.platformAccount with
  | some current, some target, .present =>
    if current.largeBlob = target then (.unchanged, s)
    else match a.freshRecord, s.platform.record with
      | some cause, _ => (.failed (.recordReadFailed cause), s)
      | none, none => (.failed .holdsNoRecord, s)
      | none, some fresh =>
        if fresh.credentialId ≠ set.credentialId then
          (.failed .recordNamesAnotherCredential, s)
        else if fresh.largeBlob = target then (.unchanged, s)
        else
          let (cause, held) := writeRecordChecked a.writeRecord s.platform.record
            ⟨current.credentialId, target⟩
          (memberWrite cause, { s with platform.record := held })
  | some current, some target, _ =>
    (if current.largeBlob = target then .unchanged else .notInSet, s)
  | _, _, _ => (.notInSet, s)

/-- What the `largeBlob` outcome does to the local write and the membership, or
the stop it makes. -/
def afterBlob (snapshot : Snapshot) (sdkLocal : Merge) (policy : Policy)
    (outcome : LargeBlobWrite) :
    Except RecoveryStoreError (Merge × Option LargeBlobMembership) :=
  let membership := snapshot.record.map StoreSetRecord.largeBlob
  let held := snapshot.blob.entry?.getD .empty
  match outcome with
  | .notLanded cause clearsBy =>
    match policy with
    | .compose =>
      if snapshot.record.isSome then .ok (sdkLocal, some .notMember)
      else if !held.isEmpty then .error (.largeBlobStopped cause clearsBy)
      else .ok (setSkip sdkLocal, membership)
    | .hold =>
      if snapshot.record.isSome then .ok (sdkLocal, some .notMember)
      else if !held.isEmpty then .error (.largeBlobStopped cause clearsBy)
      else .ok (sdkLocal, membership)
    | .advance d toSigned =>
      if toSigned && held.holds d then .error (.largeBlobStopped cause clearsBy)
      else .ok (sdkLocal, membership)
  | outcome =>
    if landedEvidence outcome snapshot.blob then
      .ok (match policy with
        | .advance d _ => clearSkip snapshot sdkLocal d
        | .compose | .hold => sdkLocal,
        membership.map (fun _ => .member))
    else .ok (sdkLocal, membership)

/-- The local store and the record, once the synced members are written. -/
def finishReport (snapshot : Snapshot) (platformAccount : MemberWrite)
    (largeBlob : LargeBlobWrite) (rest : Merge × Option LargeBlobMembership) (s : Stores) :
    WriteReport × Stores :=
  let (sdkLocal, s) := writeLocal a rest.1 s
  match sdkLocal.failure with
  | some cause =>
    (⟨platformAccount, largeBlob, sdkLocal, .notAttempted, some (.sdkLocalWriteFailed cause)⟩, s)
  | none =>
    let (record, s) := set.writeMembership a snapshot rest.2 s
    (⟨platformAccount, largeBlob, sdkLocal, record,
      record.failure.map .platformAccountWriteFailed⟩, s)

/-- Writes the planned entries of `compose`, `hold` or `advance`, in the order
platform account, `largeBlob`, local, record. -/
def executeReport (snapshot : Snapshot) (planned : Planned) (policy : Policy) (s : Stores) :
    WriteReport × Stores :=
  let (platformAccount, s) := set.writePlatform a snapshot planned.platform s
  match platformAccount.failure with
  | some cause =>
    (⟨platformAccount, .notAttempted, .notAttempted, .notAttempted,
      some (.platformAccountWriteFailed cause)⟩, s)
  | none =>
    let (largeBlob, s) := set.writeBlob a snapshot planned.blob s
    match afterBlob snapshot planned.sdkLocal policy largeBlob with
    | .error stop =>
      (⟨platformAccount, largeBlob, .notAttempted, .notAttempted, some stop⟩, s)
    | .ok rest => set.finishReport a snapshot platformAccount largeBlob rest s

def blobCause : LargeBlobWrite → Option RemovalCause
  | .notLanded cause clearsBy => some (.notLanded cause clearsBy)
  | .unread cause => some (.unread cause)
  | .noStore | .unchanged | .landed | .notAttempted => none

/-- The platform-account part of a removal. -/
def removePlatform (snapshot : Snapshot) (planned : Planned) (s : Stores) :
    List MemberRemoval × Stores :=
  if snapshot.platform.isNone then ([], s)
  else if planned.platformRefused then ([⟨.platformAccount, some .phaseNotRemovable⟩], s)
  else
    let (outcome, s) := set.writePlatform a snapshot planned.platform s
    ([⟨.platformAccount, memberCause outcome⟩], s)

/-- The `largeBlob` part of a removal, and whether it shows a landed write. -/
def removeBlob (snapshot : Snapshot) (planned : Planned) (s : Stores) :
    List MemberRemoval × Bool × Stores :=
  if snapshot.blob = .noHandle then ([], false, s)
  else if planned.blobRefused then ([⟨.largeBlob, some .phaseNotRemovable⟩], false, s)
  else
    let (outcome, s) := set.writeBlob a snapshot planned.blob s
    ([⟨.largeBlob, blobCause outcome⟩], landedEvidence outcome snapshot.blob, s)

/-- The local part of a removal. -/
def removeLocal (planned : Planned) (s : Stores) : List MemberRemoval × Stores :=
  if planned.localRefused then ([⟨.sdkLocal, some .phaseNotRemovable⟩], s)
  else
    let (outcome, s) := writeLocal a planned.sdkLocal s
    ([⟨.sdkLocal, memberCause outcome⟩], s)

/-- Writes the planned entries of `complete` or `remove`, trying every member. -/
def executeRemoval (snapshot : Snapshot) (planned : Planned) (s : Stores) :
    RemovalReport × Stores :=
  let membership := snapshot.record.map StoreSetRecord.largeBlob
  let (platform, s) := set.removePlatform a snapshot planned s
  let (blob, landed, s) := set.removeBlob a snapshot planned s
  let (sdkLocal, s) := removeLocal a planned s
  let membership := if landed then membership.map (fun _ => .member) else membership
  let (record, s) := set.writeMembership a snapshot membership s
  (⟨platform ++ blob ++ sdkLocal, record⟩, s)

/-- The event under `d`, from the local store or the platform-account member. -/
def readEvent (d : Digest) (s : Stores) : Except RecoveryStoreError (Option (List UInt8)) := do
  let record ← set.resolveRecord a.eventRecord s
  let localRead := a.localEvent.elim (s.sdkLocal.events.lookup d) (fun _ => none)
  let platformRead := if record.isNone then none
    else a.platformEvent.elim (s.platform.events.lookup d) (fun _ => none)
  let localMiss := a.localEvent.map (unreadable .sdkLocal)
  let platformMiss := if record.isNone then none
    else a.platformEvent.map (unreadable .platformAccount)
  match localRead.or platformRead with
  | some event => .ok (some event)
  | none => (localMiss.or platformMiss).elim (.ok none) .error

/-- The checks and the plan of `compose`, before any write. -/
def composePlan (kind : RevealKind) (d : Digest) (basis : Option LastRevealMarker)
    (s : Stores) : Except RecoveryStoreError (Snapshot × Planned) := do
  let snapshot ← set.snapshot a s
  require (snapshot.basisHolds basis) .markerMoved
  require (!(snapshot.anyLive || snapshot.anyHolds d)) .revealAlreadyPending
  let planned ← plan snapshot (.compose ⟨kind, set.identifier, .composed, d⟩ basis)
  return (snapshot, planned)

def holdPlan (token : CosignHold) (basis : Option LastRevealMarker) (s : Stores) :
    Except RecoveryStoreError (Snapshot × Planned) := do
  let snapshot ← set.snapshot a s
  require (snapshot.basisHolds basis) .markerMoved
  let planned ← plan snapshot
    (.hold ⟨token.kind, set.identifier, .composed, token.eventDigest⟩ basis)
  return (snapshot, planned)

def advancePlan (d : Digest) (target : AdvanceTarget) (basis : Option LastRevealMarker)
    (s : Stores) : Except RecoveryStoreError (Snapshot × Planned) := do
  let snapshot ← set.snapshot a s
  require (!(target.phase.isPending && !snapshot.anyHolds d)) .handleGone
  let planned ← plan snapshot (.advance d target basis)
  return (snapshot, planned)

def completePlan (sequence : Kel.U64) (d : Digest) (s : Stores) :
    Except RecoveryStoreError (Snapshot × Planned) := do
  let snapshot ← set.snapshot a s
  let planned ← plan snapshot (.complete ⟨set.identifier, sequence, d⟩)
  return (snapshot, planned)

/-- Whether the merged phase lets the removal basis take the handle `d`. -/
def removeAllowed (d : Digest) (basis : RemovalBasis) (merged : Option RecoveryPhase)
    (s : Stores) : Except RecoveryStoreError Unit :=
  match basis, merged with
  | _, none | .adopted, _ | .destroyed, _ => .ok ()
  | .abortAtComposed, some phase =>
    match phase.rank with
    | 0 => do
      let event ← set.readEvent a d s
      require event.isNone .signedRevealUnpublished
    | 4 => .error .phaseNotRemovable
    | _ => .error .signedRevealUnpublished
  | .terminal, some phase => require (phase.rank = 4) .phaseNotRemovable

def removePlan (d : Digest) (basis : RemovalBasis) (s : Stores) :
    Except RecoveryStoreError (Snapshot × Planned) := do
  let snapshot ← set.snapshot a s
  set.removeAllowed a d basis (snapshot.mergedPhase d) s
  let planned ← plan snapshot (.remove d basis)
  return (snapshot, planned)

end StoreSet

/-- Runs `exec` on what the checks planned; a refusal writes nothing. -/
def transact {ρ : Type} (checked : Except RecoveryStoreError (Snapshot × Planned))
    (exec : Snapshot → Planned → Stores → ρ × Stores) (s : Stores) :
    Except RecoveryStoreError ρ × Stores :=
  match checked with
  | .error e => (.error e, s)
  | .ok (snapshot, planned) =>
    let (report, s) := exec snapshot planned s
    (.ok report, s)

namespace StoreSet
variable (set : StoreSet) (a : Answers)

def compose (kind : RevealKind) (d : Digest) (basis : Option LastRevealMarker) (s : Stores) :
    Except RecoveryStoreError WriteReport × Stores :=
  transact (set.composePlan a kind d basis s)
    (fun snapshot planned => set.executeReport a snapshot planned .compose) s

def hold (token : CosignHold) (basis : Option LastRevealMarker) (s : Stores) :
    Except RecoveryStoreError WriteReport × Stores :=
  transact (set.holdPlan a token basis s)
    (fun snapshot planned => set.executeReport a snapshot planned .hold) s

def advance (d : Digest) (target : AdvanceTarget) (basis : Option LastRevealMarker)
    (s : Stores) : Except RecoveryStoreError WriteReport × Stores :=
  transact (set.advancePlan a d target basis s)
    (fun snapshot planned =>
      set.executeReport a snapshot planned (.advance d (target = .signed))) s

def complete (sequence : Kel.U64) (d : Digest) (s : Stores) :
    Except RecoveryStoreError RemovalReport × Stores :=
  transact (set.completePlan a sequence d s) (set.executeRemoval a) s

def remove (d : Digest) (basis : RemovalBasis) (s : Stores) :
    Except RecoveryStoreError RemovalReport × Stores :=
  transact (set.removePlan a d basis s) (set.executeRemoval a) s

end StoreSet

/-- One transition of a ceremony. -/
inductive Call
  | compose (kind : RevealKind) (eventDigest : Digest) (basis : Option LastRevealMarker)
  | hold (token : CosignHold) (basis : Option LastRevealMarker)
  | advance (eventDigest : Digest) (target : AdvanceTarget) (basis : Option LastRevealMarker)
  | complete (sequence : Kel.U64) (eventDigest : Digest)
  | remove (eventDigest : Digest) (basis : RemovalBasis)
  deriving DecidableEq

inductive Report
  | write (report : WriteReport)
  | removal (report : RemovalReport)
  deriving DecidableEq

/-- One call of a store set, with what it returns. -/
def StoreSet.call (set : StoreSet) (a : Answers) (s : Stores) :
    Call → Except RecoveryStoreError Report × Stores
  | .compose kind d basis => Prod.map (Except.map .write) id (set.compose a kind d basis s)
  | .hold token basis => Prod.map (Except.map .write) id (set.hold a token basis s)
  | .advance d target basis =>
    Prod.map (Except.map .write) id (set.advance a d target basis s)
  | .complete sequence d => Prod.map (Except.map .removal) id (set.complete a sequence d s)
  | .remove d basis => Prod.map (Except.map .removal) id (set.remove a d basis s)

end ScpCore.Recovery
