import ScpCore.ExactRead
import ScpCore.OrderedMapEdit
import ScpCore.Saturating

/-! A broadcast context: its roster of readers, each author's key with the author's block
list, and the record of bans. An operation is given the keys it draws; sealing is
symbolic, so an envelope or a granted key names the key it was made with. -/

namespace ScpCore.Broadcast

inductive BroadcastAdmission
  | public_ | gated
  deriving DecidableEq

structure SubscriberRecord where
  subscriberDid : String
  registeredAt : ℕ
  hasUcan : Bool
  deriving DecidableEq

inductive ContextError
  | permissionDenied (reason : String)
  | membershipFailed (reason : String)
  | memberNotFound (reason : String)
  | invalidState (reason : String)
  | cryptoFailed (reason : String)
  deriving DecidableEq

def keyRequestDenyReason : String := "key request denied"

def subscribeDenyReason : String := "subscriber is not permitted to subscribe"

/-- `BTreeSet::insert`. -/
def setInsert (did : String) (set : List String) : List String :=
  if did ∈ set then set else set.orderedInsert (· ≤ ·) did

theorem mem_setInsert (did other : String) (set : List String) :
    other ∈ setInsert did set ↔ other = did ∨ other ∈ set := by
  unfold setInsert
  by_cases h : did ∈ set
  · rw [if_pos h]
    constructor
    · exact Or.inr
    · intro hin
      rcases hin with rfl | hin
      · exact h
      · exact hin
  · rw [if_neg h, List.mem_orderedInsert]

section Model
variable (κ : Type)

structure AuthorState where
  authorDid : String
  broadcastKey : κ
  epoch : ℕ
  nextSequence : ℕ
  blockList : List String
  deriving DecidableEq

structure BroadcastContext where
  contextId : String
  admission : BroadcastAdmission
  subscribers : OrderedMap String SubscriberRecord
  authors : OrderedMap String (AuthorState κ)
  bannedSubscribers : List String
  deriving DecidableEq

/-- A sealed message, with the key it is sealed under. -/
structure BroadcastEnvelope where
  contextId : String
  authorDid : String
  keyEpoch : ℕ
  sequence : ℕ
  timestamp : ℕ
  key : κ
  deriving DecidableEq

/-- The broadcast key wrapped to a reader's key, and its epoch; or a denial. -/
inductive KeyRequestDecision
  | grant (key : κ) (wrappingPubkey : List UInt8) (epoch : ℕ)
  | deny (reason : String)
  deriving DecidableEq

structure BlockResult where
  newKey : κ
  newEpoch : ℕ
  authorDid : String
  blockList : List String
  deriving DecidableEq

structure AuthorKeyRotation where
  authorDid : String
  newEpoch : ℕ
  newKey : κ
  deriving DecidableEq

structure BroadcastPublishReservation where
  reservedSequence : ℕ
  keyEpoch : ℕ
  deriving DecidableEq

end Model

section Author
variable {κ : Type}

def AuthorState.new (authorDid : String) (key : κ) : AuthorState κ := ⟨authorDid, key, 0, 1, []⟩

/-- A fresh key under the next epoch. -/
def AuthorState.rotate (key : κ) (a : AuthorState κ) : AuthorState κ :=
  { a with broadcastKey := key, epoch := a.epoch+1 }

def AuthorState.block (did : String) (a : AuthorState κ) : AuthorState κ :=
  { a with blockList := setInsert did a.blockList }

def AuthorState.blockEach (dids : List String) (a : AuthorState κ) : AuthorState κ :=
  dids.foldl (fun a did => a.block did) a

def AuthorState.unblock (did : String) (a : AuthorState κ) : AuthorState κ :=
  { a with blockList := a.blockList.filter (· ≠ did) }

end Author

namespace BroadcastContext
variable {κ : Type} (c : BroadcastContext κ)

/-- What the caller brings to a gated context: a token, and where a validation context is
there too, what the token's validation for `messages:read` comes to. -/
structure Admittance where
  ucan : Bool
  validation : Option (Except String Unit)

def authorNotFound (authorDid : String) : ContextError :=
  .memberNotFound ("author not found: " ++ authorDid)

def hasUcan (admittance : Admittance) : Except ContextError Bool :=
  match c.admission with
  | .public_ => .ok admittance.ucan
  | .gated => do
    require admittance.ucan
      (ContextError.permissionDenied "gated broadcast requires messages:read UCAN")
    let validation ← okOr admittance.validation (ContextError.permissionDenied
      "gated broadcast requires validation context for UCAN verification")
    validation.mapError (fun e => .permissionDenied ("UCAN validation failed: " ++ e))
    pure true

/-- A banned reader is refused before anything else is read. The epochs of every author
are returned. -/
def subscribe (subscriberDid : String) (admittance : Admittance) (timestamp : ℕ) :
    Except ContextError (List (String × ℕ) × BroadcastContext κ) := do
  require (subscriberDid ∉ c.bannedSubscribers) (.permissionDenied subscribeDenyReason)
  require (!c.subscribers.contains subscriberDid)
    (.membershipFailed ("subscriber already registered: " ++ subscriberDid))
  let hasUcan ← c.hasUcan admittance
  pure (c.authors.map (fun e => (e.1, e.2.epoch)),
    { c with
      subscribers := c.subscribers.orInsert subscriberDid ⟨subscriberDid, timestamp, hasUcan⟩ })

/-- Rotates the authors in order and stops at the first whose epoch is exhausted, with
those before it rotated. -/
def rotateInOrder (draw : ℕ → κ) : ℕ → OrderedMap String (AuthorState κ) →
    Except ContextError (List (BlockResult κ)) × OrderedMap String (AuthorState κ)
  | _, [] => (.ok [], [])
  | n, (did, a) :: rest =>
    if a.epoch = u64Max then (.error (.cryptoFailed "broadcast key epoch overflow"), (did, a) :: rest)
    else
      let rotated := rotateInOrder draw (n+1) rest
      (rotated.1.map (fun results => ⟨draw n, a.epoch+1, did, a.blockList⟩ :: results),
        (did, a.rotate (draw n)) :: rotated.2)

def unsubscribe (subscriberDid : String) (rotateKeys : Bool) (draw : ℕ → κ) :
    Except ContextError (List (BlockResult κ)) × BroadcastContext κ :=
  if !c.subscribers.contains subscriberDid then
    (.error (.memberNotFound ("subscriber not found: " ++ subscriberDid)), c)
  else
    let left := { c with subscribers := c.subscribers.removeKey subscriberDid }
    if rotateKeys then
      let rotated := rotateInOrder draw 0 c.authors
      (rotated.1, { left with authors := rotated.2 })
    else (.ok [], left)

def addAuthor (authorDid : String) (draw : ℕ → κ) : Except ContextError (BroadcastContext κ) := do
  require (!c.authors.contains authorDid)
    (.permissionDenied ("author already registered: " ++ authorDid))
  pure { c with authors := c.authors.orInsert authorDid (.new authorDid (draw 0)) }

/-- Removes the author, whose key is gone with it; returns its last epoch. -/
def blockAuthor (authorDid : String) : Except ContextError (ℕ × BroadcastContext κ) := do
  let author ← okOr (c.authors.get authorDid) (authorNotFound authorDid)
  pure (author.epoch, { c with authors := c.authors.removeKey authorDid })

/-- Enters the readers in the author's block list and rotates its key; where the epoch is
exhausted the list is written all the same. -/
def blockAll (authorDid : String) (blockedDids : List String) (draw : ℕ → κ) :
    Except ContextError (BlockResult κ) × BroadcastContext κ :=
  match c.authors.get authorDid with
  | none => (.error (authorNotFound authorDid), c)
  | some author =>
    let blocked := author.blockEach blockedDids
    if author.epoch = u64Max then
      (.error (.cryptoFailed "broadcast key epoch overflow"),
        { c with authors := c.authors.adjust authorDid (fun _ => blocked) })
    else
      (.ok ⟨draw 0, author.epoch+1, author.authorDid, blocked.blockList⟩,
        { c with authors := c.authors.adjust authorDid (fun _ => blocked.rotate (draw 0)) })

def blockSubscriber (authorDid blockedDid : String) (draw : ℕ → κ) :
    Except ContextError (BlockResult κ) × BroadcastContext κ :=
  c.blockAll authorDid [blockedDid] draw

def blockSubscriberGroup (authorDid : String) (blockedDids : List String) (draw : ℕ → κ) :
    Except ContextError (BlockResult κ) × BroadcastContext κ :=
  if blockedDids.isEmpty then
    (.error (.permissionDenied "blocked_dids must not be empty"), c)
  else c.blockAll authorDid blockedDids draw

/-- Takes a reader off the author's block list; the key is not rotated. -/
def unblockSubscriber (authorDid unblockedDid : String) :
    Except ContextError (List String × BroadcastContext κ) := do
  let author ← okOr (c.authors.get authorDid) (authorNotFound authorDid)
  require (unblockedDid ∈ author.blockList) (.invalidState
    ("subscriber " ++ unblockedDid ++ " not blocked by author " ++ authorDid))
  pure ((author.unblock unblockedDid).blockList,
    { c with authors := c.authors.adjust authorDid (·.unblock unblockedDid) })

/-- Drops each excluded reader from the roster and enters it in every block list. -/
def applyReadExclusions (excluded : List String) : BroadcastContext κ :=
  excluded.foldl (fun c did =>
    { c with
      subscribers := c.subscribers.removeKey did
      authors := c.authors.map (fun e => (e.1, e.2.block did)) }) c

/-- Records the ban first, whether or not the reader is on the roster, and rotates every
author's key unless an epoch is exhausted. -/
def governanceBanSubscriber (did : String) (draw : ℕ → κ) :
    Except ContextError (List (AuthorKeyRotation κ)) × BroadcastContext κ :=
  let wasSubscriber := c.subscribers.contains did
  let recorded := { c with
    bannedSubscribers := setInsert did c.bannedSubscribers
    subscribers := c.subscribers.removeKey did }
  if c.authors.any (fun e => e.2.epoch = u64Max) then
    (.error (.cryptoFailed "broadcast key epoch overflow"), recorded)
  else
    let authors := c.authors.mapFrom (fun n a =>
      (if wasSubscriber then a.block did else a).rotate (draw n)) 0
    (.ok (authors.map (fun e => ⟨e.1, e.2.epoch, e.2.broadcastKey⟩)), { recorded with authors })

/-- Clears the ban and every author's block of the reader; no key is rotated. -/
def governanceUnbanSubscriber (did : String) : BroadcastContext κ :=
  { c with
    bannedSubscribers := c.bannedSubscribers.filter (· ≠ did)
    authors := c.authors.map (fun e => (e.1, e.2.unblock did)) }

def rotateAllAuthorKeys (draw : ℕ → κ) :
    Except ContextError (List (String × ℕ) × BroadcastContext κ) := do
  require (!c.authors.any (fun e => e.2.epoch = u64Max))
    (.cryptoFailed "broadcast key epoch overflow")
  let authors := c.authors.mapFrom (fun n a => a.rotate (draw n)) 0
  pure (authors.map (fun e => (e.2.authorDid, e.2.epoch)), { c with authors })

def notAnAuthor (authorDid : String) : ContextError :=
  .permissionDenied (authorDid ++ " is not an author (messages:write required)")

/-- Seals under the author's current key; `failure` is the reason where sealing fails. -/
def sealWith (author : AuthorState κ) (sequence timestamp : ℕ) (failure : Option String) :
    Except ContextError (BroadcastEnvelope κ) :=
  match failure with
  | some reason => .error (.cryptoFailed ("seal_broadcast failed: " ++ reason))
  | none => .ok ⟨c.contextId, author.authorDid, author.epoch, sequence, timestamp,
      author.broadcastKey⟩

/-- Takes the author's next sequence number. -/
def reserve (authorDid : String) (author : AuthorState κ) :
    Except ContextError (BroadcastContext κ) := do
  require (author.nextSequence ≠ u64Max) (.cryptoFailed "broadcast sequence overflow")
  let next := author.nextSequence+1
  pure { c with authors := c.authors.adjust authorDid (fun a => { a with nextSequence := next }) }

/-- The sequence number is spent whether or not sealing succeeds. -/
def publish (authorDid : String) (timestamp : ℕ) (failure : Option String) :
    Except ContextError (BroadcastEnvelope κ) × BroadcastContext κ :=
  match c.authors.get authorDid with
  | none => (.error (notAnAuthor authorDid), c)
  | some author =>
    match c.reserve authorDid author with
    | .error e => (.error e, c)
    | .ok reserved => (c.sealWith author author.nextSequence timestamp failure, reserved)

def reservePublish (authorDid : String) :
    Except ContextError (BroadcastPublishReservation × BroadcastContext κ) := do
  let author ← okOr (c.authors.get authorDid) (notAnAuthor authorDid)
  let reserved ← c.reserve authorDid author
  pure (⟨author.nextSequence, author.epoch⟩, reserved)

/-- Seals the reserved number under the key of the moment, which may have rotated since. -/
def applyReservedPublish (authorDid : String) (sequence timestamp : ℕ)
    (failure : Option String) : Except ContextError (BroadcastEnvelope κ) := do
  let author ← okOr (c.authors.get authorDid) (notAnAuthor authorDid)
  c.sealWith author sequence timestamp failure

def rollbackReservedPublish (authorDid : String) (reservedSequence : ℕ) : BroadcastContext κ :=
  { c with
    authors := c.authors.adjust authorDid (fun a =>
      if a.nextSequence = min (reservedSequence+1) u64Max then
        { a with nextSequence := reservedSequence }
      else a) }

/-- Denied for a ban, an unknown author, a block, a stranger, or a gated reader without a
token, all for the same reason; `failure` is the reason where wrapping fails. -/
def handleKeyRequest (authorDid requesterDid : String) (wrappingPubkey : List UInt8)
    (failure : Option String) : KeyRequestDecision κ :=
  if requesterDid ∈ c.bannedSubscribers then .deny keyRequestDenyReason
  else match c.authors.get authorDid with
    | none => .deny keyRequestDenyReason
    | some author =>
      if requesterDid ∈ author.blockList then .deny keyRequestDenyReason
      else if !c.subscribers.contains requesterDid && !c.authors.contains requesterDid then
        .deny keyRequestDenyReason
      else if c.admission = .gated && (c.subscribers.get requesterDid).any (!·.hasUcan) then
        .deny keyRequestDenyReason
      else match failure with
        | some reason => .deny ("seal failed: " ++ reason)
        | none => .grant author.broadcastKey wrappingPubkey author.epoch

end BroadcastContext

section Snapshot
variable (κ : Type)

structure AuthorStateSnapshot where
  authorDid : String
  broadcastKey : κ
  epoch : ℕ
  nextSequence : ℕ
  blockList : List String

structure BroadcastContextSnapshot where
  contextId : String
  admission : BroadcastAdmission
  subscribers : OrderedMap String SubscriberRecord
  authors : OrderedMap String (AuthorStateSnapshot κ)
  bannedSubscribers : List String

variable {κ}

def BroadcastContext.toSnapshot (c : BroadcastContext κ) : BroadcastContextSnapshot κ :=
  ⟨c.contextId, c.admission, c.subscribers, c.authors.map (fun e => (e.1,
    ⟨e.2.authorDid, e.2.broadcastKey, e.2.epoch, e.2.nextSequence, e.2.blockList⟩)),
    c.bannedSubscribers⟩

def BroadcastContext.fromSnapshot (s : BroadcastContextSnapshot κ) : BroadcastContext κ :=
  ⟨s.contextId, s.admission, s.subscribers, s.authors.map (fun e => (e.1,
    ⟨e.2.authorDid, e.2.broadcastKey, e.2.epoch, e.2.nextSequence, e.2.blockList⟩)),
    s.bannedSubscribers⟩

/-- A context that is stored and read back is the one that was stored. -/
theorem fromSnapshot_toSnapshot (c : BroadcastContext κ) :
    BroadcastContext.fromSnapshot c.toSnapshot = c := by
  unfold BroadcastContext.fromSnapshot BroadcastContext.toSnapshot
  simp only [List.map_map]
  congr 1
  exact List.map_id' c.authors

end Snapshot

end ScpCore.Broadcast
