import ScpCore.BroadcastEffect
import ScpCore.ConsequenceRule
import ScpCore.RoleState

/-! The runtime's view of a broadcast context: the membership, the role state and the
exclusion list beside the protocol's roster and authors. A call answers and leaves a cell;
where it fails late, what it wrote before stays written. -/

namespace ScpCore.Broadcast

open OrderedMap
open Roles (Capability ContextRoleState UcanToken)
open Consequence (AccessScope)

/-- The protocol's errors, and those the runtime and its providers add. -/
inductive RuntimeError
  | context (e : ContextError)
  | contextNotActive
  | versionIncompatible (requiredMajor requiredMinor supportedMajor supportedMinor : ℕ)
  | nothingToRestore (reason : String)
  | commitBroadcastFault (operation reason : String) (attempts : ℕ)
  | provider (reason : String)
  deriving DecidableEq

def permissionDenied (reason : String) : RuntimeError := .context (.permissionDenied reason)

def memberNotFound (did : String) : RuntimeError := .context (.memberNotFound did)

structure CommitFaultMarker where
  operation : String
  reason : String
  retryCount : ℕ
  deriving DecidableEq

structure MemberInfo where
  roleName : String
  tokens : List UcanToken
  sequenceNumber : ℕ
  deriving DecidableEq

/-- What a context's actor owns of a broadcast context. -/
structure Cell (κ : Type) where
  active : Bool
  minProtocolVersion : Option (ℕ × ℕ)
  commitFault : Option CommitFaultMarker
  roleState : ContextRoleState
  membership : OrderedMap String MemberInfo
  readExclusionList : List String
  broadcast : BroadcastContext κ

abbrev Outcome (κ α : Type) := Except RuntimeError α × Cell κ

section Outcome
variable {κ α β : Type}

/-- Goes on with the cell the first part left, unless that part failed. -/
def Outcome.andThen (r : Outcome κ α) (next : α → Cell κ → Outcome κ β) : Outcome κ β :=
  match r.1 with
  | .error e => (.error e, r.2)
  | .ok a => next a r.2

/-- Checks that write nothing come first. -/
def Cell.checked (s : Cell κ) (checks : Except RuntimeError Unit)
    (next : Cell κ → Outcome κ β) : Outcome κ β :=
  Outcome.andThen (checks, s) (fun _ => next)

/-- A member the protocol does not know is no failure. -/
def unlessNotFound (answer : α) : Except ContextError α → Except RuntimeError α
  | .ok a => .ok a
  | .error (.memberNotFound _) => .ok answer
  | .error e => .error (.context e)

theorem Outcome.andThen_ok {r : Outcome κ α} {next : α → Cell κ → Outcome κ β} {b : β}
    {t : Cell κ} (h : r.andThen next = (.ok b, t)) :
    ∃ a, r.1 = .ok a ∧ next a r.2 = (.ok b, t) := by
  unfold Outcome.andThen at h
  cases hr : r.1 with
  | error e =>
    rw [hr] at h
    cases h
  | ok a =>
    rw [hr] at h
    exact ⟨a, rfl, h⟩

theorem Cell.checked_ok {s t : Cell κ} {checks : Except RuntimeError Unit}
    {next : Cell κ → Outcome κ β} {b : β} (h : s.checked checks next = (.ok b, t)) :
    checks = .ok () ∧ next s = (.ok b, t) := by
  obtain ⟨u, hchecks, hnext⟩ := Outcome.andThen_ok h
  exact ⟨hchecks, hnext⟩

theorem Cell.checked_fst_ok_iff {s : Cell κ} {checks : Except RuntimeError Unit}
    {next : Cell κ → Outcome κ β} {b : β} :
    (s.checked checks next).1 = .ok b ↔ checks = .ok () ∧ (next s).1 = .ok b := by
  cases checks with
  | error e => simp [Cell.checked, Outcome.andThen]
  | ok _ => simp [Cell.checked, Outcome.andThen]

theorem Outcome.andThen_of_ok {r : Outcome κ α} {next : α → Cell κ → Outcome κ β} {a : α}
    (h : r.1 = .ok a) : r.andThen next = next a r.2 := by
  rw [Outcome.andThen, h]

/-- What holds of the cell each part leaves holds of the one that is left. -/
theorem Outcome.andThen_snd {P : Cell κ → Prop} {r : Outcome κ α}
    {next : α → Cell κ → Outcome κ β} (hr : P r.2) (hnext : ∀ a, r.1 = .ok a → P (next a r.2).2) :
    P (r.andThen next).2 := by
  unfold Outcome.andThen
  cases hok : r.1 with
  | error e => exact hr
  | ok a => exact hnext a hok

end Outcome

namespace Cell
variable {κ : Type} (s : Cell κ)

def requireActive : Except RuntimeError Unit := require s.active .contextNotActive

/-- The version this node speaks is 1.0; majors have to match. -/
def checkVersionCompatibility : Except RuntimeError Unit :=
  let (major, minor) := s.minProtocolVersion.getD (1, 0)
  require (major = 1 && minor ≤ 0) (.versionIncompatible major minor 1 0)

def checkCommitFault : Except RuntimeError Unit :=
  match s.commitFault with
  | none => .ok ()
  | some marker =>
    .error (.commitBroadcastFault marker.operation marker.reason marker.retryCount)

def requireMemberBan : Except RuntimeError Unit :=
  require (s.roleState.ceiling.contains .memberBan)
    (permissionDenied "member:ban (MemberBan) capability not in ceiling")

def isSuspended (did : String) (capability : Capability) : Bool :=
  (s.roleState.suspendedCapabilities did).any (capability ∈ ·)

/-- A member that is entered again starts over. -/
def addMember (did : String) (info : MemberInfo) : Cell κ :=
  { s with membership := (s.membership.removeKey did).orInsert did info }

def subscribeChecks (subscriberDid : String) : Except RuntimeError Unit := do
  s.requireActive
  s.checkVersionCompatibility
  require (subscriberDid ∉ s.broadcast.bannedSubscribers) (permissionDenied subscribeDenyReason)
  require (subscriberDid ∉ s.readExclusionList) (permissionDenied subscribeDenyReason)

/-- `landed` is what writing the join to the event log comes to. -/
def subscribeBroadcast (subscriberDid : String) (admittance : BroadcastContext.Admittance)
    (timestamp : ℕ) (landed : Except RuntimeError Unit) : Outcome κ (List (String × ℕ)) :=
  s.checked (s.subscribeChecks subscriberDid) (fun s =>
    match s.broadcast.subscribe subscriberDid admittance timestamp with
    | .error e => (.error (.context e), s)
    | .ok (epochs, broadcast) =>
      (landed.map (fun _ => epochs),
        { s with broadcast }.addMember subscriberDid ⟨"subscriber", [], 0⟩))

def unsubscribeBroadcast (subscriberDid : String) (rotateKeys : Bool) (draw : ℕ → κ)
    (landed : Except RuntimeError Unit) : Outcome κ (List (BlockResult κ)) :=
  s.checked s.requireActive (fun s =>
    let left := s.broadcast.unsubscribe subscriberDid rotateKeys draw
    Outcome.andThen (left.1.mapError .context, { s with broadcast := left.2 }) (fun rotated s =>
      (landed.map (fun _ => rotated),
        { s with membership := s.membership.removeKey subscriberDid })))

/-- Tears down what the context keeps of a member, but for its place among the authors. -/
def removeMemberState (did : String) : Cell κ :=
  { s with
    membership := s.membership.removeKey did
    roleState := (s.roleState.removeMember did).2
    readExclusionList := s.readExclusionList.filter (· ≠ did) }

def leaveChecks (callerDid memberDid : String) : Except RuntimeError Unit := do
  s.checkCommitFault
  require (callerDid = memberDid || s.roleState.memberHasCapability callerDid .memberRemove)
    (permissionDenied "caller lacks permission to remove this member")
  s.requireActive

/-- The roster goes first, with every author's key rotated; a member who was never on it is
no failure. A context left by its last member closes. -/
def leaveContext (callerDid memberDid : String) (draw : ℕ → κ)
    (landed : Except RuntimeError Unit) : Outcome κ Unit :=
  s.checked (s.leaveChecks callerDid memberDid) (fun s =>
    let left := s.broadcast.unsubscribe memberDid true draw
    Outcome.andThen (unlessNotFound [] left.1, { s with broadcast := left.2 }) (fun _ s =>
      if !s.membership.contains memberDid then (.error (memberNotFound memberDid), s)
      else
        let gone := s.removeMemberState memberDid
        (landed, { gone with active := gone.active && !(landed.isOk && gone.membership.isEmpty) })))

def blockBroadcastSubscriber (authorDid subscriberDid : String) (draw : ℕ → κ)
    (landed : Except RuntimeError Unit) : Outcome κ (BlockResult κ) :=
  s.checked s.requireActive (fun s =>
    let blocked := s.broadcast.blockSubscriber authorDid subscriberDid draw
    Outcome.andThen (blocked.1.mapError .context, { s with broadcast := blocked.2 })
      (fun result s => (landed.map (fun _ => result), s)))

def unblockBroadcastSubscriber (authorDid subscriberDid : String)
    (landed : Except RuntimeError Unit) : Outcome κ Unit :=
  s.checked s.requireActive (fun s =>
    match s.broadcast.unblockSubscriber authorDid subscriberDid with
    | .error e => (.error (.context e), s)
    | .ok (_, broadcast) => (landed, { s with broadcast }))

def revokeChecks (did : String) : Except RuntimeError Unit := do
  s.requireActive
  s.requireMemberBan
  require (s.membership.contains did) (memberNotFound did)

def revokeWrite (did : String) : Outcome κ Unit :=
  let blocked := (s.broadcast.blockAuthor did).map Prod.snd
  (unlessNotFound () (blocked.map (fun _ => ())),
    { s with
      roleState := s.roleState.suspendCapabilities did [.messagesWrite]
      broadcast := keptUnless s.broadcast blocked })

def revokeRead (did : String) (draw : ℕ → κ) : Outcome κ ℕ :=
  let banned := s.broadcast.governanceBanSubscriber did draw
  (unlessNotFound 0 (banned.1.map List.length),
    { s with
      roleState := s.roleState.suspendCapabilities did [.messagesRead]
      readExclusionList := setInsert did s.readExclusionList
      broadcast := banned.2 })

def coversWrite : AccessScope → Bool
  | .write | .both => true
  | .read => false

def coversRead : AccessScope → Bool
  | .read | .both => true
  | .write => false

/-- The number of authors whose key was rotated; `landed` is what persisting the revocation
and its leaf comes to. -/
def executeRevoke (did : String) (access : AccessScope) (draw : ℕ → κ)
    (landed : Except RuntimeError Unit) : Outcome κ ℕ :=
  s.checked (s.revokeChecks did) (fun s =>
    Outcome.andThen (if coversWrite access then s.revokeWrite did else (.ok (), s)) (fun _ s =>
      Outcome.andThen (if coversRead access then s.revokeRead did draw else (.ok 0, s))
        (fun rotated s => (landed.map (fun _ => rotated), s))))

def restoreChecks (did : String) (capabilities : List Capability) : Except RuntimeError Unit := do
  s.requireActive
  s.requireMemberBan
  let nothingSuspended := !capabilities.any (s.isSuspended did)
  let readRequested := Capability.messagesRead ∈ capabilities
  require (!(nothingSuspended &&
      !(readRequested && (did ∈ s.readExclusionList || did ∈ s.broadcast.bannedSubscribers))))
    (.nothingToRestore ("no suspended capabilities to restore for " ++ did))

/-- Nothing is asked of the membership, and no author is entered. -/
def executeRestoreAccess (did : String) (capabilities : List Capability)
    (landed : Except RuntimeError Unit) : Outcome κ Unit :=
  s.checked (s.restoreChecks did capabilities) (fun s =>
    let restored := { s with roleState := s.roleState.restoreCapabilities did capabilities }
    (landed,
      if Capability.messagesRead ∈ capabilities then
        { restored with
          readExclusionList := s.readExclusionList.filter (· ≠ did)
          broadcast := s.broadcast.governanceUnbanSubscriber did }
      else restored))

def maxVarBytesLen : ℕ := 2^32-1

/-- Whether the payload to sign can be built; the rest of its fields are of fixed width. -/
def buildBroadcastSigningPayload (contextId authorDid : String) : Except ContextError Unit :=
  checkEach (fun (field : String) => require (field.utf8ByteSize ≤ maxVarBytesLen) (.cryptoFailed
    ("verification failed: canonical hash failed: VarBytes field too large: " ++
      toString field.utf8ByteSize ++ " bytes, maximum encodable length is " ++
      toString maxVarBytesLen ++ " (u32::MAX)"))) [contextId, authorDid]

def reserveChecks (authorDid : String) : Except RuntimeError Unit := do
  s.requireActive
  require (!s.isSuspended authorDid .messagesWrite)
    (permissionDenied ("write access has been suspended for " ++ authorDid))

def releaseReserved (authorDid : String) (reservedSequence : ℕ) : Cell κ :=
  { s with broadcast := s.broadcast.rollbackReservedPublish authorDid reservedSequence }

def reservePublish (authorDid : String) : Outcome κ BroadcastPublishReservation :=
  s.checked (s.reserveChecks authorDid) (fun s =>
    match s.broadcast.reservePublish authorDid with
    | .error e => (.error (.context e), s)
    | .ok (reservation, broadcast) =>
      let reserved := { s with broadcast }
      match buildBroadcastSigningPayload broadcast.contextId authorDid with
      | .error e =>
        (.error (.context e), reserved.releaseReserved authorDid reservation.reservedSequence)
      | .ok () => (.ok reservation, reserved))

/-- What the parties to a publish come to: the kind of key, the signature, the seal and the
sending. -/
structure PublishFaults where
  keyKind : Except RuntimeError Unit
  signed : Except RuntimeError Unit
  sealFailure : Option String
  sent : Except RuntimeError Unit

def sealReserved (authorDid : String) (sequence timestamp : ℕ) (sealFailure : Option String) :
    Except RuntimeError (BroadcastEnvelope κ) := do
  s.requireActive
  (s.broadcast.applyReservedPublish authorDid sequence timestamp sealFailure).mapError .context

def nextSequenceNumber (did : String) : Cell κ :=
  { s with
    membership := s.membership.adjust did
      (fun info => { info with sequenceNumber := info.sequenceNumber+1 }) }

/-- The sealed envelope is beside the answer: a failure to count or to send it comes after
the seal. -/
def publishBroadcastInTurn (authorDid : String) (timestamp : ℕ) (faults : PublishFaults) :
    Option (BroadcastEnvelope κ) × Outcome κ (BroadcastEnvelope κ) :=
  match (s.checked faults.keyKind (·.reservePublish authorDid)) with
  | (.error e, left) => (none, .error e, left)
  | (.ok pending, reserved) =>
    let envelope := faults.signed.bind (fun _ =>
      reserved.sealReserved authorDid pending.reservedSequence timestamp faults.sealFailure)
    match envelope with
    | .error e => (none, .error e, reserved.releaseReserved authorDid pending.reservedSequence)
    | .ok envelope =>
      if !reserved.membership.contains authorDid then
        (some envelope, .error (memberNotFound authorDid), reserved)
      else
        (some envelope, faults.sent.map (fun _ => envelope), reserved.nextSequenceNumber authorDid)

def handleBroadcastKeyRequest (localDids : List String) (authorDid requesterDid : String)
    (wrappingPubkey : List UInt8) (failure : Option String) :
    Except RuntimeError (KeyRequestDecision κ) := do
  require (authorDid ∈ localDids)
    (permissionDenied ("author DID is not controlled by the local node: " ++ authorDid))
  if requesterDid ∈ s.broadcast.bannedSubscribers then pure (.deny keyRequestDenyReason)
  else if requesterDid ∈ s.readExclusionList then pure (.deny keyRequestDenyReason)
  else pure (s.broadcast.handleKeyRequest authorDid requesterDid wrappingPubkey failure)

variable {s} {t u : Cell κ} {d : String} {access : AccessScope} {draw : ℕ → κ}
  {landed : Except RuntimeError Unit}

theorem requireActive_ok_iff : s.requireActive = .ok () ↔ s.active = true := by
  rw [requireActive, require_ok_iff]

theorem removeKey_of_get_none {α : Type} {m : OrderedMap String α} {k : String}
    (h : m.get k = none) : m.removeKey k = m := by
  unfold removeKey
  rw [List.filter_eq_self]
  intro e he
  have hne : e.1 ≠ k := by
    intro hk
    exact (get_eq_none_iff m k).mp h (hk ▸ List.mem_map_of_mem he)
  simpa using hne

/-- A write revocation takes the member from the authors, if it is one, and never fails. -/
theorem revokeWrite_eq (s : Cell κ) (d : String) :
    s.revokeWrite d = (.ok (), { s with
      roleState := s.roleState.suspendCapabilities d [.messagesWrite]
      broadcast := { s.broadcast with authors := s.broadcast.authors.removeKey d } }) := by
  unfold revokeWrite BroadcastContext.blockAuthor
  cases hget : s.broadcast.authors.get d with
  | none =>
    rw [removeKey_of_get_none hget]
    rfl
  | some author => rfl

/-- The only failure of a ban is one that the revocation reports. -/
theorem revokeRead_ok {rotated : ℕ} (h : (s.revokeRead d draw).1 = .ok rotated) :
    (s.broadcast.governanceBanSubscriber d draw).1.isOk = true := by
  dsimp only [revokeRead] at h
  cases hban : (s.broadcast.governanceBanSubscriber d draw).1 with
  | ok rotations => rfl
  | error e =>
    rw [hban] at h
    unfold BroadcastContext.governanceBanSubscriber at hban
    dsimp only at hban
    split at hban
    · cases hban
      cases h
    · cases hban

/-- A revocation that succeeds is its write part and then its read part. -/
theorem executeRevoke_ok {n : ℕ} (h : s.executeRevoke d access draw landed = (.ok n, t)) :
    s.active = true ∧ ∃ w : Cell κ,
      w = (if coversWrite access then (s.revokeWrite d).2 else s) ∧
      (coversRead access = true → (w.broadcast.governanceBanSubscriber d draw).1.isOk = true) ∧
      t = if coversRead access then (w.revokeRead d draw).2 else w := by
  unfold executeRevoke at h
  obtain ⟨hchecks, h⟩ := checked_ok h
  simp only [revokeChecks, bind_ok_iff, exists_unit_iff, requireActive_ok_iff] at hchecks
  generalize hwrote : (if coversWrite access = true then s.revokeWrite d
    else ((.ok () : Except RuntimeError Unit), s)) = wrote at h
  obtain ⟨-, -, h⟩ := Outcome.andThen_ok h
  generalize hread : (if coversRead access = true then wrote.2.revokeRead d draw
    else ((.ok 0 : Except RuntimeError ℕ), wrote.2)) = read at h
  obtain ⟨rotated, hok, h⟩ := Outcome.andThen_ok h
  refine ⟨hchecks.1, wrote.2, ?_, ?_, ?_⟩
  · rw [← hwrote, apply_ite Prod.snd]
  · intro hcovers
    rw [← hread, if_pos hcovers] at hok
    exact revokeRead_ok hok
  · rw [← (Prod.mk.inj h).2, ← hread, apply_ite Prod.snd]

theorem executeRestoreAccess_ok {capabilities : List Capability}
    (h : t.executeRestoreAccess d capabilities landed = (.ok (), u)) :
    u = if Capability.messagesRead ∈ capabilities then
        { t with
          roleState := t.roleState.restoreCapabilities d capabilities
          readExclusionList := t.readExclusionList.filter (· ≠ d)
          broadcast := t.broadcast.governanceUnbanSubscriber d }
      else { t with roleState := t.roleState.restoreCapabilities d capabilities } := by
  unfold executeRestoreAccess at h
  obtain ⟨-, h⟩ := checked_ok h
  exact (Prod.mk.inj h).2.symm

theorem buildBroadcastSigningPayload_ok_iff (contextId authorDid : String) :
    buildBroadcastSigningPayload contextId authorDid = .ok () ↔
      contextId.utf8ByteSize ≤ maxVarBytesLen ∧ authorDid.utf8ByteSize ≤ maxVarBytesLen := by
  simp [buildBroadcastSigningPayload, checkEach_ok_iff, require_ok_iff]

theorem reserve_eq_ok_iff {c c' : BroadcastContext κ} {r : BroadcastPublishReservation} :
    c.reservePublish d = .ok (r, c') ↔ ∃ x, c.authors.get d = some x ∧
      x.nextSequence ≠ u64Max ∧ r = ⟨x.nextSequence, x.epoch⟩ ∧
      c' = { c with authors :=
        c.authors.adjust d (fun a => { a with nextSequence := x.nextSequence+1 }) } := by
  simp only [BroadcastContext.reservePublish, BroadcastContext.reserve, bind_ok_iff, okOr_ok_iff,
    exists_unit_iff, require_ok_iff, pure_ok_iff, Prod.mk.injEq, decide_eq_true_eq]
  constructor
  · rintro ⟨x, hx, c₁, ⟨hroom, rfl⟩, rfl, rfl⟩
    exact ⟨x, hx, hroom, rfl, rfl⟩
  · rintro ⟨x, hx, hroom, rfl, rfl⟩
    exact ⟨x, hx, _, ⟨hroom, rfl⟩, rfl, rfl⟩

/-- A reservation is an active context's, for an author whose writing is not suspended, who
has a number left and whose payload can be signed. -/
theorem reservePublish_ok_iff {r : BroadcastPublishReservation} :
    (s.reservePublish d).1 = .ok r ↔
      s.active = true ∧ s.isSuspended d .messagesWrite = false ∧
      (s.broadcast.contextId.utf8ByteSize ≤ maxVarBytesLen ∧ d.utf8ByteSize ≤ maxVarBytesLen) ∧
      ∃ x, s.broadcast.authors.get d = some x ∧ x.nextSequence ≠ u64Max ∧
        r = ⟨x.nextSequence, x.epoch⟩ := by
  rw [reservePublish, checked_fst_ok_iff]
  simp only [reserveChecks, bind_ok_iff, exists_unit_iff, requireActive_ok_iff, require_ok_iff,
    Bool.not_eq_true']
  rw [and_assoc]
  refine and_congr_right (fun _ => and_congr_right (fun _ => ?_))
  cases hres : s.broadcast.reservePublish d with
  | error e =>
    have hnone : ¬ ∃ x, s.broadcast.authors.get d = some x ∧ x.nextSequence ≠ u64Max ∧
        r = ⟨x.nextSequence, x.epoch⟩ := by
      rintro ⟨x, hx, hroom, -⟩
      have hok := (reserve_eq_ok_iff (c := s.broadcast)).mpr ⟨x, hx, hroom, rfl, rfl⟩
      rw [hres] at hok
      cases hok
    simp [hnone]
  | ok reserved =>
    obtain ⟨r', c'⟩ := reserved
    obtain ⟨x, hx, hroom, rfl, rfl⟩ := reserve_eq_ok_iff.mp hres
    have hpayload := buildBroadcastSigningPayload_ok_iff s.broadcast.contextId d
    cases hbuilt : buildBroadcastSigningPayload s.broadcast.contextId d with
    | error e =>
      rw [hbuilt] at hpayload
      have hlong : ¬ (s.broadcast.contextId.utf8ByteSize ≤ maxVarBytesLen ∧
          d.utf8ByteSize ≤ maxVarBytesLen) := by
        intro h
        cases hpayload.mpr h
      constructor
      · intro h
        simp [hbuilt] at h
      · intro h
        exact absurd h.1 hlong
    | ok _ =>
      rw [and_iff_right (hpayload.mp hbuilt)]
      dsimp only
      rw [hbuilt]
      constructor
      · intro h
        exact ⟨x, hx, hroom, (Except.ok.inj h).symm⟩
      · rintro ⟨y, hy, -, rfl⟩
        rw [Option.some.inj (hx.symm.trans hy)]

/-- The capabilities a scope takes away. -/
def covered : AccessScope → List Capability
  | .read => [.messagesRead]
  | .write => [.messagesWrite]
  | .both => [.messagesWrite, .messagesRead]

def suspensions (s : Cell κ) (did : String) : List Capability :=
  (s.roleState.suspendedCapabilities did).getD []

/-- What a restoration is to give back of the cell `s` the revocation was made in. -/
structure Undone (s : Cell κ) (d : String) (access : AccessScope) (u : Cell κ) : Prop where
  suspended : u.suspensions d = s.suspensions d
  excluded : d ∈ u.readExclusionList ↔ d ∈ s.readExclusionList
  banned : d ∈ u.broadcast.bannedSubscribers ↔ d ∈ s.broadcast.bannedSubscribers
  publishes : ∀ r, (s.reservePublish d).1 = .ok r →
    ∃ r', (u.reservePublish d).1 = .ok r' ∧ r.reservedSequence ≤ r'.reservedSequence
  reads : coversRead access = true → s.checkVersionCompatibility = .ok () →
    ∀ admittance hasUcan, s.broadcast.hasUcan admittance = .ok hasUcan → ∀ timestamp,
      ∃ epochs v, u.subscribeBroadcast d admittance timestamp (.ok ()) = (.ok epochs, v) ∧
        ∀ a x, v.broadcast.authors.get a = some x → ¬ Blocks s.broadcast.authors a d →
          ∀ localDids, a ∈ localDids → ∀ pubkey,
            v.handleBroadcastKeyRequest localDids a d pubkey none =
              .ok (.grant x.broadcastKey pubkey x.epoch)

theorem isSuspended_eq (s : Cell κ) (d : String) (capability : Capability) :
    s.isSuspended d capability = decide (capability ∈ s.suspensions d) := by
  unfold isSuspended suspensions
  cases s.roleState.suspendedCapabilities d <;> simp

theorem suspendCapabilities_getD (r : ContextRoleState) (d : String) (cs : List Capability) :
    ((r.suspendCapabilities d cs).suspendedCapabilities d).getD [] =
      (r.suspendedCapabilities d).getD [] ++ cs := by
  simp [ContextRoleState.suspendCapabilities]

theorem restoreCapabilities_getD (r : ContextRoleState) (d : String) (cs : List Capability) :
    ((r.restoreCapabilities d cs).suspendedCapabilities d).getD [] =
      ((r.suspendedCapabilities d).getD []).filter (· ∉ cs) := by
  unfold ContextRoleState.restoreCapabilities ContextRoleState.keepSuspensions
  cases h : r.suspendedCapabilities d with
  | none => simp [h]
  | some suspended =>
    simp only [Function.update_self, Option.getD_some]
    by_cases hleft : (suspended.filter (fun c => decide (c ∉ cs))).isEmpty = true
    · rw [if_pos hleft]
      exact (List.isEmpty_iff.mp hleft).symm
    · rw [if_neg hleft]
      rfl

/-- What a revocation and the restoration of what it covers leave. -/
structure Restored (s : Cell κ) (d : String) (access : AccessScope) (u : Cell κ) : Prop where
  active : s.active = true ∧ u.active = true
  version : u.minProtocolVersion = s.minProtocolVersion
  context : u.broadcast.contextId = s.broadcast.contextId
  admission : u.broadcast.admission = s.broadcast.admission
  suspended : u.suspensions d = s.suspensions d
  excluded : d ∉ u.readExclusionList
  banned : d ∉ u.broadcast.bannedSubscribers
  author : (access = .read ∧ ∀ x, s.broadcast.authors.get d = some x →
      ∃ y, u.broadcast.authors.get d = some y ∧ y.nextSequence = x.nextSequence) ∨
    (access ≠ .read ∧ u.broadcast.authors.get d = none)
  reader : coversRead access = true → u.broadcast.subscribers.contains d = false ∧
    ∀ a x, u.broadcast.authors.get a = some x → d ∉ x.blockList

theorem contains_removeKey_self {α : Type} (m : OrderedMap String α) (k : String) :
    (m.removeKey k).contains k = false := by
  rw [contains_eq_false_iff, ← get_eq_none_iff, get_removeKey, if_pos rfl]

theorem governanceBan_frame (draw : ℕ → κ) (c : BroadcastContext κ) (d : String) :
    (c.governanceBanSubscriber d draw).2.contextId = c.contextId ∧
    (c.governanceBanSubscriber d draw).2.admission = c.admission ∧
    (c.governanceBanSubscriber d draw).2.subscribers = c.subscribers.removeKey d := by
  unfold BroadcastContext.governanceBanSubscriber
  dsimp only
  split <;> exact ⟨rfl, rfl, rfl⟩

/-- An author that goes through a ban and its lifting keeps its sequence and does not block
the reader. -/
theorem authors_unban_ban {c : BroadcastContext κ}
    (hok : (c.governanceBanSubscriber d draw).1.isOk = true) (a : String) :
    ∃ f : AuthorState κ → AuthorState κ,
      ((c.governanceBanSubscriber d draw).2.governanceUnbanSubscriber d).authors.get a =
        (c.authors.get a).map f ∧
      ∀ x, (f x).nextSequence = x.nextSequence ∧ d ∉ (f x).blockList := by
  obtain ⟨-, ⟨-, hfail, -⟩ | ⟨-, -, hauthors⟩⟩ := governanceBan_cases draw c d
  · rw [hok] at hfail
    cases hfail
  · rw [BroadcastContext.governanceUnbanSubscriber, get_map, hauthors, get_mapFrom, Option.map_map]
    refine ⟨_, rfl, fun x => ⟨?_, ?_⟩⟩
    · dsimp only [Function.comp]
      split <;> rfl
    · simp [AuthorState.unblock]

/-- Lifting the read part of a revocation. -/
theorem restored_read (w : Cell κ) {capabilities : List Capability}
    (hban : (w.broadcast.governanceBanSubscriber d draw).1.isOk = true)
    (hu : u = { (w.revokeRead d draw).2 with
      roleState := (w.revokeRead d draw).2.roleState.restoreCapabilities d capabilities
      readExclusionList := (w.revokeRead d draw).2.readExclusionList.filter (· ≠ d)
      broadcast := (w.revokeRead d draw).2.broadcast.governanceUnbanSubscriber d }) :
    (u.active = w.active ∧ u.minProtocolVersion = w.minProtocolVersion ∧
      u.broadcast.contextId = w.broadcast.contextId ∧
      u.broadcast.admission = w.broadcast.admission) ∧
    u.suspensions d = (w.suspensions d ++ [Capability.messagesRead]).filter (· ∉ capabilities) ∧
    d ∉ u.readExclusionList ∧ d ∉ u.broadcast.bannedSubscribers ∧
    (u.broadcast.subscribers.contains d = false ∧
      ∀ a x, u.broadcast.authors.get a = some x → d ∉ x.blockList) ∧
    ∃ f : AuthorState κ → AuthorState κ,
      u.broadcast.authors.get d = (w.broadcast.authors.get d).map f ∧
      ∀ x, (f x).nextSequence = x.nextSequence := by
  subst hu
  obtain ⟨hid, hadmission, hsubscribers⟩ := governanceBan_frame draw w.broadcast d
  obtain ⟨f, hf, hkeeps⟩ := authors_unban_ban hban d
  refine ⟨⟨rfl, rfl, hid, hadmission⟩, ?_, by simp, ?_, ⟨?_, ?_⟩, f, hf, fun x => (hkeeps x).1⟩
  · rw [suspensions, restoreCapabilities_getD]
    dsimp only [revokeRead]
    rw [suspendCapabilities_getD]
    rfl
  · simp [BroadcastContext.governanceUnbanSubscriber]
  · dsimp only [revokeRead, BroadcastContext.governanceUnbanSubscriber]
    rw [hsubscribers]
    exact contains_removeKey_self _ _
  · intro a x hx
    obtain ⟨g, hg, hclears⟩ := authors_unban_ban hban a
    dsimp only [revokeRead] at hx
    rw [hg] at hx
    obtain ⟨y, -, rfl⟩ := Option.map_eq_some_iff.mp hx
    exact (hclears y).2

/-- Suspensions other than those a revocation added are left by the restoration. -/
theorem filter_added {held added cs : List Capability} (hheld : ∀ c ∈ held, c ∉ cs)
    (hadded : ∀ c ∈ added, c ∈ cs) : (held ++ added).filter (· ∉ cs) = held := by
  have hkeep : held.filter (· ∉ cs) = held := by
    rw [List.filter_eq_self]
    intro c hc
    simpa using hheld c hc
  have hdrop : added.filter (· ∉ cs) = [] := by
    rw [List.filter_eq_nil_iff]
    intro c hc
    simpa using hadded c hc
  rw [List.filter_append, hkeep, hdrop, List.append_nil]

section Undo
variable {capabilities : List Capability} {landed' : Except RuntimeError Unit} {n : ℕ}

theorem restored_of (hwrite : s.isSuspended d .messagesWrite = false)
    (hread : s.isSuspended d .messagesRead = false) (hexcluded : d ∉ s.readExclusionList)
    (hbanned : d ∉ s.broadcast.bannedSubscribers)
    (hcovers : ∀ c, c ∈ capabilities ↔ c ∈ covered access)
    (hrevoke : s.executeRevoke d access draw landed = (.ok n, t))
    (hrestore : t.executeRestoreAccess d capabilities landed' = (.ok (), u)) :
    Restored s d access u := by
  obtain ⟨hactive, w, hw, hban, ht⟩ := executeRevoke_ok hrevoke
  have hu := executeRestoreAccess_ok hrestore
  rw [isSuspended_eq, decide_eq_false_iff_not] at hwrite hread
  have hheld : ∀ c ∈ s.suspensions d, c ∉ capabilities := by
    intro c hc hin
    have hcov := (hcovers c).mp hin
    have hne : c = .messagesWrite ∨ c = .messagesRead := by
      cases access <;> simp [covered] at hcov <;> tauto
    rcases hne with rfl | rfl
    · exact hwrite hc
    · exact hread hc
  rw [revokeWrite_eq] at hw
  cases access with
  | read =>
    rw [if_neg (by decide)] at hw
    rw [if_pos (by decide)] at ht
    rw [if_pos ((hcovers _).mpr (by simp [covered])), ht] at hu
    subst hw
    obtain ⟨⟨ha, hv, hid, hadmission⟩, hsusp, hexcl, hbans, hreader, f, hf, hkeeps⟩ :=
      restored_read w (hban rfl) hu
    refine ⟨⟨hactive, ha.trans hactive⟩, hv, hid, hadmission, ?_, hexcl, hbans, .inl ⟨rfl, ?_⟩,
      fun _ => hreader⟩
    · rw [hsusp]
      exact filter_added hheld (fun c hc => (hcovers c).mpr hc)
    · intro x hx
      exact ⟨f x, by rw [hf, hx, Option.map_some], hkeeps x⟩
  | write =>
    rw [if_pos (by decide)] at hw
    rw [if_neg (by decide)] at ht
    have hnot : Capability.messagesRead ∉ capabilities := by
      rw [hcovers]
      simp [covered]
    rw [if_neg hnot, ht, hw] at hu
    subst hu
    refine ⟨⟨hactive, hactive⟩, rfl, rfl, rfl, ?_, hexcluded, hbanned, .inr ⟨by decide, ?_⟩,
      fun h => by cases h⟩
    · rw [suspensions, restoreCapabilities_getD]
      dsimp only
      rw [suspendCapabilities_getD]
      exact filter_added hheld (fun c hc => (hcovers c).mpr hc)
    · dsimp only
      rw [get_removeKey, if_pos rfl]
  | both =>
    rw [if_pos (by decide)] at hw ht
    rw [if_pos ((hcovers _).mpr (by simp [covered])), ht] at hu
    obtain ⟨⟨ha, hv, hid, hadmission⟩, hsusp, hexcl, hbans, hreader, f, hf, hkeeps⟩ :=
      restored_read w (hban rfl) hu
    have hheldW : w.suspensions d = s.suspensions d ++ [.messagesWrite] := by
      rw [hw, suspensions]
      dsimp only
      rw [suspendCapabilities_getD]
      rfl
    rw [hw] at ha hv hid hadmission
    refine ⟨⟨hactive, ha.trans hactive⟩, hv, hid, hadmission, ?_, hexcl, hbans,
      .inr ⟨by decide, ?_⟩, fun _ => hreader⟩
    · rw [hsusp, hheldW, List.append_assoc]
      exact filter_added hheld (fun c hc => (hcovers c).mpr hc)
    · rw [hf, hw]
      dsimp only
      rw [get_removeKey, if_pos rfl, Option.map_none]

theorem hasUcan_congr {c c' : BroadcastContext κ} (h : c.admission = c'.admission)
    (admittance : BroadcastContext.Admittance) :
    c.hasUcan admittance = c'.hasUcan admittance := by
  simp only [BroadcastContext.hasUcan, h]

/-- A gated context admits a reader with its token or not at all. -/
theorem hasUcan_of_gated {c : BroadcastContext κ} {admittance : BroadcastContext.Admittance}
    {hasUcan : Bool} (hgated : c.admission = .gated) (h : c.hasUcan admittance = .ok hasUcan) :
    hasUcan = true := by
  simp only [BroadcastContext.hasUcan, hgated, bind_ok_iff, pure_ok_iff] at h
  obtain ⟨-, -, -, -, -, -, h⟩ := h
  exact h.symm

/-- A reader whom nothing bars is entered, and every author that does not block it grants it
the key. -/
theorem subscribe_reads {admittance : BroadcastContext.Admittance} {hasUcan : Bool}
    (hactive : s.active = true) (hversion : s.checkVersionCompatibility = .ok ())
    (hbanned : d ∉ s.broadcast.bannedSubscribers) (hexcluded : d ∉ s.readExclusionList)
    (hroster : s.broadcast.subscribers.contains d = false)
    (hucan : s.broadcast.hasUcan admittance = .ok hasUcan) (timestamp : ℕ) :
    ∃ epochs v, s.subscribeBroadcast d admittance timestamp (.ok ()) = (.ok epochs, v) ∧
      v.broadcast.authors = s.broadcast.authors ∧
      ∀ a x, s.broadcast.authors.get a = some x → d ∉ x.blockList →
        ∀ localDids, a ∈ localDids → ∀ pubkey,
          v.handleBroadcastKeyRequest localDids a d pubkey none =
            .ok (.grant x.broadcastKey pubkey x.epoch) := by
  have hchecks : s.subscribeChecks d = .ok () := by
    simp [subscribeChecks, requireActive_ok_iff, hactive, hversion, require_ok_iff, hbanned,
      hexcluded]
  have hentered : s.broadcast.subscribe d admittance timestamp =
      .ok (s.broadcast.authors.map (fun e => (e.1, e.2.epoch)), { s.broadcast with
        subscribers := s.broadcast.subscribers.orInsert d ⟨d, timestamp, hasUcan⟩ }) := by
    simp [BroadcastContext.subscribe, require_ok_iff, hbanned, hroster, hucan]
  rw [subscribeBroadcast, Cell.checked, Outcome.andThen_of_ok hchecks]
  dsimp only
  rw [hentered]
  refine ⟨_, _, rfl, rfl, ?_⟩
  intro a x hx hblock localDids hlocal pubkey
  have hrecord : (s.broadcast.subscribers.orInsert d ⟨d, timestamp, hasUcan⟩).get d =
      some ⟨d, timestamp, hasUcan⟩ := by
    have hnone := (get_eq_none_iff _ _).mpr ((contains_eq_false_iff _ _).mp hroster)
    rw [get_orInsert, if_pos rfl, hnone, Option.getD_none]
  have hcontains : (s.broadcast.subscribers.orInsert d ⟨d, timestamp, hasUcan⟩).contains d =
      true := by
    rw [contains_iff, mem_keys_orInsert]
    exact Or.inl rfl
  simp only [handleBroadcastKeyRequest, addMember, BroadcastContext.handleKeyRequest]
  simp [require, hlocal, hbanned, hexcluded, hx, hblock, hrecord, hcontains]
  intro hgated
  exact hasUcan_of_gated (of_decide_eq_true hgated) hucan

/-- Restoring access undoes the revocation exactly where reading alone was revoked, or the
member was no author with a number left and a payload that can be signed. -/
theorem restore_undoes_revoke_iff (s t u : Cell κ) (d : String) (access : AccessScope)
    (capabilities : List Capability) (draw : ℕ → κ) (landed landed' : Except RuntimeError Unit)
    (n : ℕ) (hwrite : s.isSuspended d .messagesWrite = false)
    (hread : s.isSuspended d .messagesRead = false) (hexcluded : d ∉ s.readExclusionList)
    (hbanned : d ∉ s.broadcast.bannedSubscribers)
    (hcovers : ∀ c, c ∈ capabilities ↔ c ∈ covered access)
    (hrevoke : s.executeRevoke d access draw landed = (.ok n, t))
    (hrestore : t.executeRestoreAccess d capabilities landed' = (.ok (), u)) :
    Undone s d access u ↔ access = .read ∨ s.broadcast.authors.get d = none ∨
      (∃ x, s.broadcast.authors.get d = some x ∧ x.nextSequence = u64Max) ∨
      maxVarBytesLen < s.broadcast.contextId.utf8ByteSize ∨ maxVarBytesLen < d.utf8ByteSize := by
  have h := restored_of hwrite hread hexcluded hbanned hcovers hrevoke hrestore
  constructor
  · intro hundone
    by_contra hcond
    push Not at hcond
    obtain ⟨hscope, hauthor, hroom, hid, hdid⟩ := hcond
    obtain ⟨x, hx⟩ := Option.ne_none_iff_exists'.mp hauthor
    -- The member could reserve, and is no author afterwards.
    obtain ⟨r', hr', -⟩ := hundone.publishes _
      (reservePublish_ok_iff.mpr ⟨h.active.1, hwrite, ⟨hid, hdid⟩, x, hx, hroom x hx, rfl⟩)
    obtain ⟨-, -, -, y, hy, -⟩ := reservePublish_ok_iff.mp hr'
    rcases h.author with ⟨hscope', -⟩ | ⟨-, hnone⟩
    · exact hscope hscope'
    · rw [hnone] at hy
      cases hy
  · intro hcond
    refine ⟨h.suspended, iff_of_false h.excluded hexcluded, iff_of_false h.banned hbanned, ?_, ?_⟩
    · intro r hr
      obtain ⟨-, -, ⟨hid, hdid⟩, x, hx, hroom, rfl⟩ := reservePublish_ok_iff.mp hr
      have hscope : access = .read := by
        rcases hcond with hscope | hnone | ⟨y, hy, hfull⟩ | hlong | hlong
        · exact hscope
        · rw [hnone] at hx
          cases hx
        · rw [Option.some.inj (hx.symm.trans hy)] at hroom
          exact absurd hfull hroom
        · omega
        · omega
      rcases h.author with ⟨-, hkept⟩ | ⟨hne, -⟩
      · obtain ⟨y, hy, hseq⟩ := hkept x hx
        have hsusp : u.isSuspended d .messagesWrite = false := by
          rw [isSuspended_eq, h.suspended, ← isSuspended_eq, hwrite]
        refine ⟨⟨y.nextSequence, y.epoch⟩, reservePublish_ok_iff.mpr ⟨h.active.2, hsusp, ?_, y, hy,
          ?_, rfl⟩, hseq.ge⟩
        · rw [h.context]
          exact ⟨hid, hdid⟩
        · rw [hseq]
          exact hroom
      · exact absurd hscope hne
    · intro hreads hversion admittance hasUcan hucan timestamp
      obtain ⟨hroster, hblocks⟩ := h.reader hreads
      have hversion' : u.checkVersionCompatibility = .ok () := by
        rw [checkVersionCompatibility, h.version]
        exact hversion
      have hucan' : u.broadcast.hasUcan admittance = .ok hasUcan := by
        rw [hasUcan_congr h.admission]
        exact hucan
      obtain ⟨epochs, v, hsub, hauthors, hgrants⟩ := subscribe_reads h.active.2 hversion' h.banned
        h.excluded hroster hucan' timestamp
      refine ⟨epochs, v, hsub, ?_⟩
      intro a x hx _ localDids hlocal pubkey
      rw [hauthors] at hx
      exact hgrants a x hx (hblocks a x hx) localDids hlocal pubkey

end Undo

end Cell

-- A context of one author and one reader.

def sampleCell : Cell ℕ where
  active := true
  minProtocolVersion := none
  commitFault := none
  roleState := {
    contextId := "news"
    creatorDid := "alice"
    ceiling := ⟨[.messagesRead, .messagesWrite, .memberBan]⟩
    roleDefinitions := fun _ => none
    assignments := fun _ => none
    members := fun did => did = "alice"
    memberCapabilities := fun _ => none
    suspendedCapabilities := fun _ => none }
  membership := [("alice", ⟨"admin", [], 0⟩), ("bob", ⟨"subscriber", [], 0⟩)]
  readExclusionList := []
  broadcast := {
    contextId := "news"
    admission := .gated
    subscribers := [("bob", ⟨"bob", 1, true⟩)]
    authors := [("alice", .new "alice" 1)]
    bannedSubscribers := [] }

/-- The cell after a member's access is revoked and restored. -/
def sampleRestored (did : String) (access : AccessScope) : Cell ℕ :=
  ((sampleCell.executeRevoke did access (fun i => i+2) (.ok ())).2.executeRestoreAccess did
    (Cell.covered access) (.ok ())).2

theorem sampleCell_revoke (did : String) (access : AccessScope)
    (h : did = "alice" ∧ access = .write ∨ did = "bob" ∧ access = .both) :
    ∃ n t, sampleCell.executeRevoke did access (fun i => i+2) (.ok ()) = (.ok n, t) ∧
      t.executeRestoreAccess did (Cell.covered access) (.ok ()) =
        (.ok (), sampleRestored did access) := by
  rcases h with ⟨rfl, rfl⟩ | ⟨rfl, rfl⟩
  · exact ⟨0, _, rfl, rfl⟩
  · exact ⟨1, _, rfl, rfl⟩

/-- The author's writing is restored, and it publishes no more: it is not an author. -/
theorem restored_author_cannot_publish :
    (sampleCell.isSuspended "alice" .messagesWrite = false ∧
      sampleCell.isSuspended "alice" .messagesRead = false ∧
      "alice" ∉ sampleCell.readExclusionList ∧
      "alice" ∉ sampleCell.broadcast.bannedSubscribers) ∧
    (∃ n t, sampleCell.executeRevoke "alice" .write (fun i => i+2) (.ok ()) = (.ok n, t) ∧
      t.executeRestoreAccess "alice" (Cell.covered .write) (.ok ()) =
        (.ok (), sampleRestored "alice" .write)) ∧
    (sampleCell.reservePublish "alice").1 = .ok ⟨1, 0⟩ ∧
    ((sampleRestored "alice" .write).reservePublish "alice").1 =
      .error (permissionDenied "alice is not an author (messages:write required)") ∧
    ¬ Cell.Undone sampleCell "alice" .write (sampleRestored "alice" .write) := by
  have hbefore : (sampleCell.reservePublish "alice").1 = .ok ⟨1, 0⟩ := by decide +kernel
  have hafter : ((sampleRestored "alice" .write).reservePublish "alice").1 =
      .error (permissionDenied "alice is not an author (messages:write required)") := by
    decide +kernel
  refine ⟨by decide +kernel, sampleCell_revoke _ _ (.inl ⟨rfl, rfl⟩), hbefore, hafter, ?_⟩
  intro hundone
  obtain ⟨r, hr, -⟩ := hundone.publishes _ hbefore
  rw [hafter] at hr
  cases hr

/-- The reader's access to both is restored in full: it was no author. -/
theorem restore_undoes_revoke_iff_reader :
    Cell.Undone sampleCell "bob" .both (sampleRestored "bob" .both) := by
  obtain ⟨n, t, hrevoke, hrestore⟩ := sampleCell_revoke "bob" .both (.inr ⟨rfl, rfl⟩)
  exact (Cell.restore_undoes_revoke_iff sampleCell t _ "bob" .both (Cell.covered .both)
    (fun i => i+2) (.ok ()) (.ok ()) n (by decide +kernel) (by decide +kernel) (by decide +kernel)
    (by decide +kernel) (fun c => Iff.rfl) hrevoke hrestore).mpr (.inr (.inl (by decide +kernel)))

end ScpCore.Broadcast
