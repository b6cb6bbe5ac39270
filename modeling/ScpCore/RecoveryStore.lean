import ScpCore.KelEvent

/-! The store set a pending recovery handle lives in: the entry every member
holds, what one pass over the stores shows, and the merge of a transition into
each member's entry, computed before the first write. -/

namespace ScpCore.Recovery
open ScpCore.Kel (Digest Identifier U64)

def maxCredentialIdBytes : ℕ := 1023

inductive RecoveryPhase
  | composed | signed | publishSent | confirmed | discarded | lost
  deriving DecidableEq

namespace RecoveryPhase

/-- The rank in the merge: a merge never moves a stored phase to a lower one. -/
def rank : RecoveryPhase → ℕ
  | composed => 0
  | signed => 1
  | publishSent => 2
  | confirmed => 3
  | discarded | lost => 4

/-- Whether a handle at this phase still blocks a reveal. -/
def isPending (p : RecoveryPhase) : Bool := p.rank ≤ 3

def toByte : RecoveryPhase → ℕ
  | composed => 0
  | signed => 1
  | publishSent => 2
  | confirmed => 3
  | discarded => 4
  | lost => 5

/-- The key phases are compared by when stores disagree. -/
def mergeKey (p : RecoveryPhase) : ℕ ×ₗ ℕ := toLex (p.rank, p.toByte)

theorem rank_le_four (p : RecoveryPhase) : p.rank ≤ 4 := by
  cases p <;> decide

theorem isPending_eq_false {p : RecoveryPhase} : p.isPending = false ↔ p.rank = 4 := by
  cases p <;> decide

end RecoveryPhase

inductive RevealKind
  | fixesCommitment | abandons
  deriving DecidableEq

/-- A pending reveal-authorized ceremony. The source's two variants carry the
same fields, so the variant is the field `kind`. -/
structure RecoveryHandle where
  kind : RevealKind
  identifier : Identifier
  phase : RecoveryPhase
  eventDigest : Digest
  deriving DecidableEq

def RecoveryHandle.withPhase (h : RecoveryHandle) (phase : RecoveryPhase) : RecoveryHandle :=
  { h with phase := phase }

/-- The last reveal-authorized event a completed ceremony published. -/
structure LastRevealMarker where
  identifier : Identifier
  sequence : U64
  eventDigest : Digest
  deriving DecidableEq

inductive CredentialStore
  | platformAccount | largeBlob | sdkLocal
  deriving DecidableEq

structure CredentialId where
  bytes : List UInt8
  nonempty : bytes ≠ []
  bounded : bytes.length ≤ maxCredentialIdBytes
  deriving DecidableEq

inductive PlatformAccountAbsence
  | noDataApiToCredentialSyncStore | noPlatformCredential
  deriving DecidableEq

inductive LargeBlobMembership
  | member | notMember
  deriving DecidableEq

structure StoreSetRecord where
  credentialId : CredentialId
  largeBlob : LargeBlobMembership
  deriving DecidableEq

/-- One member's entry. The skip bit says that the handle's composition did not
land in the `largeBlob` store, and stands only beside a handle. -/
structure StoreEntry where
  handle : Option RecoveryHandle
  marker : Option LastRevealMarker
  largeBlobSkipped : Bool
  skip_handle : largeBlobSkipped = true → handle.isSome = true
  deriving DecidableEq

namespace StoreEntry

def new (handle : Option RecoveryHandle) (marker : Option LastRevealMarker) : StoreEntry where
  handle := handle
  marker := marker
  largeBlobSkipped := false
  skip_handle := fun h => absurd h (by decide)

def empty : StoreEntry := new none none

def skipped (handle : RecoveryHandle) (marker : Option LastRevealMarker) : StoreEntry where
  handle := some handle
  marker := marker
  largeBlobSkipped := true
  skip_handle := fun _ => rfl

def isEmpty (e : StoreEntry) : Bool := e.handle.isNone && e.marker.isNone

def holds (e : StoreEntry) (d : Digest) : Bool :=
  e.handle.elim false (fun h => h.eventDigest = d)

def withoutSkip (e : StoreEntry) : StoreEntry := new e.handle e.marker

@[simp] theorem new_handle (h : Option RecoveryHandle) (m : Option LastRevealMarker) :
    (new h m).handle = h := rfl

@[simp] theorem new_marker (h : Option RecoveryHandle) (m : Option LastRevealMarker) :
    (new h m).marker = m := rfl

@[simp] theorem skipped_handle (h : RecoveryHandle) (m : Option LastRevealMarker) :
    (skipped h m).handle = some h := rfl

@[simp] theorem skipped_marker (h : RecoveryHandle) (m : Option LastRevealMarker) :
    (skipped h m).marker = m := rfl

@[simp] theorem withoutSkip_handle (e : StoreEntry) : e.withoutSkip.handle = e.handle := rfl

@[simp] theorem withoutSkip_marker (e : StoreEntry) : e.withoutSkip.marker = e.marker := rfl

theorem holds_iff {e : StoreEntry} {d : Digest} :
    e.holds d = true ↔ ∃ h, e.handle = some h ∧ h.eventDigest = d := by
  unfold holds
  cases e.handle with
  | none => simp
  | some h => simp

end StoreEntry

inductive EntrySource
  | sdkLocal | synced
  deriving DecidableEq

inductive RecordDecodeError
  | wrongLength (expected actual : ℕ)
  | unknownVariant (byte : UInt8)
  | unknownPhase (byte : UInt8)
  | unknownFlags (flags : UInt8)
  | skipWithoutHandle (flags : UInt8)
  | skipInSyncedMember
  | unknownVersion (byte : UInt8)
  | unknownLargeBlobMembership (byte : UInt8)
  | credentialIdLength (len : ℕ)
  | eventLength (len : ℕ)
  deriving DecidableEq

inductive NotReachedCause
  | unreachable (cause : String)
  | undecodable (error : RecordDecodeError)
  | noStoreOnDevice
  | holdsNoRecord
  | foreignIdentity
  deriving DecidableEq

/-- One member's answer to a read. -/
inductive MemberRead (α : Type)
  | reached (value : α)
  | reachedEmpty
  | notReached (cause : NotReachedCause)

inductive LargeBlobClearingAct
  | retryVerification | retryThroughLargeBlobRoute | removeConsumingCredential
  deriving DecidableEq

structure LargeBlobNotLanded where
  cause : Option String
  clearsBy : LargeBlobClearingAct
  deriving DecidableEq

/-- Why a checked write failed: the store's own cause, or the text the set
writes where the read-back or the fresh record read disagrees. -/
inductive WriteCause
  | store (cause : String)
  | readBackFailed (cause : NotReachedCause)
  | readBackDiffers
  | recordNamesAnotherCredential
  | holdsNoRecord
  | recordReadFailed (cause : NotReachedCause)
  deriving DecidableEq

inductive RecoveryStoreError
  | storePartiallyUnreadable (store : CredentialStore) (cause : NotReachedCause)
  | recordAlreadyWritten
  | recordCredentialMismatch
  | eventLength (len : ℕ)
  | revealAlreadyPending
  | foreignHandle
  | markerMoved
  | handleGone
  | signedRevealUnpublished
  | phaseNotRemovable
  | setInUse
  | platformAccountWriteFailed (cause : WriteCause)
  | largeBlobStopped (cause : Option String) (clearsBy : LargeBlobClearingAct)
  | sdkLocalWriteFailed (cause : WriteCause)
  deriving DecidableEq

inductive AdvanceTarget
  | signed | publishSent | confirmed | discarded | lost
  deriving DecidableEq

def AdvanceTarget.phase : AdvanceTarget → RecoveryPhase
  | signed => .signed
  | publishSent => .publishSent
  | confirmed => .confirmed
  | discarded => .discarded
  | lost => .lost

inductive RemovalBasis
  | abortAtComposed | terminal | adopted | destroyed
  deriving DecidableEq

/-- A cosigner's authority to write a composer's handle, bound to the event. -/
structure CosignHold where
  kind : RevealKind
  eventDigest : Digest
  deriving DecidableEq

inductive BlobRead
  | noHandle
  | unread (cause : NotReachedCause)
  | read (entry : StoreEntry)
  deriving DecidableEq

def BlobRead.entry? : BlobRead → Option StoreEntry
  | read entry => some entry
  | noHandle | unread _ => none

/-- The record, where the host has one, and every store's entry. -/
structure Snapshot where
  record : Option StoreSetRecord
  platform : Option StoreEntry
  blob : BlobRead
  sdkLocal : StoreEntry

namespace Snapshot
variable (s : Snapshot)

def entries : List StoreEntry :=
  s.platform.toList ++ s.blob.entry?.toList ++ [s.sdkLocal]

def handles : List RecoveryHandle := s.entries.filterMap StoreEntry.handle

def markers : List LastRevealMarker := s.entries.filterMap StoreEntry.marker

/-- The phases the stores hold for `d`. -/
def phases (d : Digest) : List RecoveryPhase :=
  (s.handles.filter (fun h => h.eventDigest = d)).map RecoveryHandle.phase

/-- The highest-ranked phase any store holds for `d`; at a tie of rank the
higher phase byte. -/
def mergedPhase (d : Digest) : Option RecoveryPhase :=
  (s.phases d).argmax RecoveryPhase.mergeKey

def markerNames (d : Digest) : Bool := s.markers.any (fun m => m.eventDigest = d)

/-- Whether `d` blocks a reveal: pending at its merged phase and named by no
store's marker. -/
def isLive (d : Digest) : Bool :=
  (s.mergedPhase d).elim false RecoveryPhase.isPending && !s.markerNames d

def anyLive : Bool := s.handles.any (fun h => s.isLive h.eventDigest)

def anyHolds (d : Digest) : Bool := s.entries.any (fun e => e.holds d)

/-- The distinct markers of the highest sequence any store holds. -/
def maxMarkers : List LastRevealMarker :=
  (s.markers.map (fun m => m.sequence.toNat)).max?.elim []
    (fun top => (s.markers.filter (fun m => m.sequence.toNat = top)).eraseDups)

def basisHolds (basis : Option LastRevealMarker) : Bool :=
  basis.elim s.maxMarkers.isEmpty
    (fun basis => !s.maxMarkers.isEmpty && s.maxMarkers.all (fun m => m = basis))

def localSkipped (d : Digest) : Bool := s.sdkLocal.holds d && s.sdkLocal.largeBlobSkipped

/-- The handle `d` names, at its merged phase. -/
def mergedHandle (d : Digest) : Option RecoveryHandle :=
  (s.mergedPhase d).bind (fun phase =>
    (s.handles.find? (fun h => h.eventDigest = d)).map (fun h => h.withPhase phase))

end Snapshot

/-- The change one transition makes, as the merge reads it. -/
inductive Change
  | compose (handle : RecoveryHandle) (basis : Option LastRevealMarker)
  | hold (handle : RecoveryHandle) (basis : Option LastRevealMarker)
  | advance (eventDigest : Digest) (target : AdvanceTarget) (basis : Option LastRevealMarker)
  | complete (marker : LastRevealMarker)
  | remove (eventDigest : Digest) (basis : RemovalBasis)

/-- The entry to write, or none where the member already holds the result. -/
abbrev Merge := Option StoreEntry

/-- Whether a removal may take the handle, judged at the higher of the member's
own rank and the merged rank. -/
def removable (basis : RemovalBasis) (own : RecoveryPhase) (merged : Option RecoveryPhase) :
    Bool :=
  let effective := merged.elim own.rank
    (fun merged => if merged.rank > own.rank then merged.rank else own.rank)
  match basis with
  | .abortAtComposed => effective = 0
  | .terminal => effective = 4
  | .adopted | .destroyed => true

/-- The handle a `largeBlob` store the composition skipped takes. -/
def fillSkipped (entry : StoreEntry) (snapshot : Snapshot) (d : Digest)
    (phase : RecoveryPhase) (basis : Option LastRevealMarker) :
    Except RecoveryStoreError Merge :=
  if snapshot.record.elim false (fun r => r.largeBlob = .notMember) then .ok none
  else if !snapshot.localSkipped d then .error .handleGone
  else if !snapshot.basisHolds basis then .error .markerMoved
  else match snapshot.mergedHandle d with
    | none => .error .handleGone
    | some h => .ok (some (.new (some (h.withPhase phase)) entry.marker))

/-- `merge_advance` where the member does not hold `d`. -/
def advanceAbsent (store : CredentialStore) (entry : StoreEntry) (snapshot : Snapshot)
    (d : Digest) (phase : RecoveryPhase) (basis : Option LastRevealMarker) :
    Except RecoveryStoreError Merge :=
  if !phase.isPending then .ok none
  else match store with
    -- Another device's own store never held the handle, so its lack says nothing.
    | .sdkLocal => .ok none
    | .platformAccount => .error .handleGone
    | .largeBlob => fillSkipped entry snapshot d phase basis

def mergeAdvance (store : CredentialStore) (entry : StoreEntry) (snapshot : Snapshot)
    (d : Digest) (target : AdvanceTarget) (basis : Option LastRevealMarker) :
    Except RecoveryStoreError Merge :=
  match entry.handle with
  | some held =>
    if held.eventDigest = d then
      if held.phase.rank ≥ target.phase.rank then .ok none
      else .ok (some { entry with
        handle := some (held.withPhase target.phase)
        skip_handle := fun _ => rfl })
    else if snapshot.isLive held.eventDigest then .error .foreignHandle
    else advanceAbsent store entry snapshot d target.phase basis
  | none => advanceAbsent store entry snapshot d target.phase basis

/-- The entry `complete` leaves: the marker in place, the named handle gone. -/
def completed (entry : StoreEntry) (marker : LastRevealMarker) : StoreEntry where
  handle := entry.handle.filter (fun _ => !entry.holds marker.eventDigest)
  marker := some marker
  largeBlobSkipped := entry.largeBlobSkipped && !entry.holds marker.eventDigest
  skip_handle := by
    intro h
    rw [Bool.and_eq_true] at h
    obtain ⟨x, hx⟩ := Option.isSome_iff_exists.mp (entry.skip_handle h.1)
    simp [hx, h.2]

def mergeComplete (entry : StoreEntry) (marker : LastRevealMarker) :
    Except RecoveryStoreError Merge :=
  if entry.marker.elim false
      (fun held => held ≠ marker && held.sequence.toNat > marker.sequence.toNat) then
    .error .markerMoved
  else .ok (some (completed entry marker))

/-- `merge` before a write that would change nothing is left out. -/
def mergeWritten (change : Change) (store : CredentialStore) (entry : StoreEntry)
    (snapshot : Snapshot) : Except RecoveryStoreError Merge :=
  match change with
  | .compose handle basis => .ok (some (.new (some handle) basis))
  | .hold handle basis =>
    match entry.handle with
    | some held =>
      if held.eventDigest = handle.eventDigest then .ok none
      else if snapshot.isLive held.eventDigest then .error .foreignHandle
      else .ok (some (.new (some handle) basis))
    | none => .ok (some (.new (some handle) basis))
  | .advance d target basis => mergeAdvance store entry snapshot d target basis
  | .complete marker => mergeComplete entry marker
  | .remove d _ => .ok (if entry.holds d then some (.new none entry.marker) else none)

/-- The merge of `change` into the entry `store` holds. -/
def merge (change : Change) (store : CredentialStore) (entry : StoreEntry)
    (snapshot : Snapshot) : Except RecoveryStoreError Merge := do
  let written ← mergeWritten change store entry snapshot
  return written.filter (fun w => w ≠ entry)

/-- The writes one transition plans, and the members a removal leaves alone. -/
structure Planned where
  platform : Merge
  blob : Merge
  sdkLocal : Merge
  platformRefused : Bool
  blobRefused : Bool
  localRefused : Bool

/-- Whether the removal basis refuses the handle `entry` holds. -/
def refused (change : Change) (snapshot : Snapshot) (entry : StoreEntry) : Bool :=
  match change with
  | .remove d basis =>
    entry.handle.elim false (fun h =>
      h.eventDigest = d && !removable basis h.phase (snapshot.mergedPhase d))
  | .compose _ _ | .hold _ _ | .advance _ _ _ | .complete _ => false

/-- The merge into a member the snapshot may not have read. -/
def mergeMember (change : Change) (store : CredentialStore) (snapshot : Snapshot) :
    Option StoreEntry → Except RecoveryStoreError Merge
  | some entry => merge change store entry snapshot
  | none => .ok none

/-- Every member's merge, from the reads alone. A merge refusal refuses the
transition. -/
def plan (snapshot : Snapshot) (change : Change) : Except RecoveryStoreError Planned := do
  let platform ← mergeMember change .platformAccount snapshot snapshot.platform
  let blob ← mergeMember change .largeBlob snapshot snapshot.blob.entry?
  let sdkLocal ← merge change .sdkLocal snapshot.sdkLocal snapshot
  return {
    platform, blob, sdkLocal
    platformRefused := snapshot.platform.elim false (refused change snapshot)
    blobRefused := snapshot.blob.entry?.elim false (refused change snapshot)
    localRefused := refused change snapshot snapshot.sdkLocal }

end ScpCore.Recovery
