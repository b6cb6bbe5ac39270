import ScpCore.ExactRead
import ScpCore.OrderedMapEdit
import ScpCore.PseudonymRotation

/-! The routing registry of an encrypted context: peers' announcements of their routing IDs,
the local member's own rotations, Commits and removals. -/

namespace ScpCore.Pseudonym

structure PseudonymAnnouncement where
  tag : String
  memberDid : String
  pseudonym : RoutingId
  deriving DecidableEq

structure PseudonymAnnouncementV2 where
  tag : String
  memberDid : String
  pseudonymEpoch : ℕ
  routingId : RoutingId
  deriving DecidableEq

def pseudonymAnnouncementTag : String := "\x00scp:pseudonym-announce:v1"
def pseudonymAnnouncementV2Tag : String := "\x00scp:pseudonym-announce:v2"

structure PseudonymRecord where
  routingId : RoutingId
  epoch : Option ℕ
  deriving DecidableEq

abbrev Registry := OrderedMap Did PseudonymRecord

/-- The context, and what its member takes from hashing and from MessagePack. -/
structure Env where
  contextId : String
  localDid : Did
  contextRoutingId : String → RoutingId
  broadcastRoutingId : String → RoutingId
  fromSliceV1 : Bytes → Option PseudonymAnnouncement
  fromSliceV2 : Bytes → Option PseudonymAnnouncementV2

def startsWithMsgpackMap (bytes : Bytes) : Bool :=
  bytes.head?.any (fun b => (0x80 ≤ b && b ≤ 0x8f) || b = 0xde || b = 0xdf)

section Decode
variable (env : Env)

def decodeV1 (plaintext : Bytes) : Option (Did × PseudonymRecord) := do
  let v1 ← env.fromSliceV1 plaintext
  if v1.tag = pseudonymAnnouncementTag then some (v1.memberDid, ⟨v1.pseudonym, none⟩) else none

/-- A map that decodes as the second version is never tried as the first. -/
def decodeAnnouncement (plaintext : Bytes) : Option (Did × PseudonymRecord) :=
  if startsWithMsgpackMap plaintext then
    match env.fromSliceV2 plaintext with
    | some v2 =>
      if v2.tag = pseudonymAnnouncementV2Tag then
        some (v2.memberDid, ⟨v2.routingId, some v2.pseudonymEpoch⟩)
      else none
    | none => decodeV1 env plaintext
  else decodeV1 env plaintext

def isReservedPseudonym (pseudonym : RoutingId) : Bool :=
  pseudonym = 0 || pseudonym = env.contextRoutingId env.contextId ||
    pseudonym = env.broadcastRoutingId env.contextId

end Decode

def pseudonymCollidesWithOtherDid (registry : Registry) (announcerDid : Did)
    (pseudonym : RoutingId) : Bool :=
  registry.any (fun e => e.2.routingId = pseudonym && e.1 ≠ announcerDid)

inductive RejectReason
  | senderMismatch | reserved | broadcast | collision | epoch | v1AfterV2
  deriving DecidableEq

inductive PseudonymAnnouncementDecision
  | notAnnouncement
  | rejected (reason : RejectReason) (claimedDid : Option Did)
  | unchanged
  | accept (memberDid : Did) (record : PseudonymRecord)
  deriving DecidableEq

/-- The ordering of an announcement against the announcer's record. -/
def orderAnnouncement (did : Did) (announced : PseudonymRecord) (recorded : Option PseudonymRecord) :
    PseudonymAnnouncementDecision :=
  match announced.epoch, recorded.bind PseudonymRecord.epoch with
  | some epoch, some recordedEpoch =>
    if recordedEpoch < epoch then .accept did announced
    else if epoch = recordedEpoch && recorded.any (·.routingId = announced.routingId) then
      .unchanged
    else .rejected .epoch none
  | none, some _ => .rejected .v1AfterV2 none
  | _, none => .accept did announced

/-- `classify_pseudonym_announcement`; a broadcast context has no registry. -/
def classifyPseudonymAnnouncement (env : Env) (plaintext : Bytes) (senderDid : Did)
    (registry : Option Registry) (ownRoutingIds : List RoutingId) :
    PseudonymAnnouncementDecision :=
  match decodeAnnouncement env plaintext with
  | none => .notAnnouncement
  | some (claimedDid, announced) =>
    if claimedDid ≠ senderDid then .rejected .senderMismatch (some claimedDid)
    else if isReservedPseudonym env announced.routingId then .rejected .reserved none
    else match registry with
      | none => .rejected .broadcast none
      | some registry =>
        if pseudonymCollidesWithOtherDid registry claimedDid announced.routingId ||
            announced.routingId ∈ ownRoutingIds then .rejected .collision none
        else orderAnnouncement claimedDid announced (registry.get claimedDid)

/-- An encrypted context as far as routing goes: a broadcast one has none of this. -/
structure PerContextState where
  active : Bool
  policy : Option PseudonymRotationPolicy
  localPseudonym : RoutingId
  registry : Registry
  rotation : PseudonymRotationState
  deriving DecidableEq

inductive ContextError
  | contextNotActive
  | permissionDenied (message : String)
  | invalidState (message : String)
  | persistenceFailed
  | sendFailed
  deriving DecidableEq

inductive AnnouncementOutcome
  | notAnnouncement
  | recorded
  | rejected (reason : RejectReason)
  deriving DecidableEq

def PerContextState.ownRoutingIds (s : PerContextState) : List RoutingId :=
  s.localPseudonym :: s.rotation.queryOnly.map QueryOnlyRoutingId.routingId

/-- A hash map's insertion: one record a key. -/
def Registry.insert (registry : Registry) (did : Did) (record : PseudonymRecord) : Registry :=
  (did, record) :: registry.removeKey did

def ingestPseudonymAnnouncement (env : Env) (s : PerContextState) (senderDid : Did)
    (plaintext : Bytes) : AnnouncementOutcome × PerContextState :=
  match classifyPseudonymAnnouncement env plaintext senderDid (some s.registry)
      s.ownRoutingIds with
  | .notAnnouncement => (.notAnnouncement, s)
  | .unchanged => (.recorded, s)
  | .rejected reason _ => (.rejected reason, s)
  | .accept memberDid record =>
    (.recorded, { s with registry := Registry.insert s.registry memberDid record })

/-- What became of the storage and the transport in a call. -/
structure Io where
  persisted : Bool
  sent : Bool
  cleared : Bool
  deriving DecidableEq

/-- The announcement itself is of the state before the call. The actor holds its state over the
send, so the flag that is cleared is that of the announced epoch. -/
def sendPseudonymAnnouncement (s : PerContextState) (io : Io) :
    Except ContextError Unit × PerContextState :=
  if !io.sent then (.error .sendFailed, s)
  else if !s.rotation.announcePending then (.ok (), s)
  else if !io.cleared then (.error .persistenceFailed, s)
  else (.ok (), { s with rotation := { s.rotation with announcePending := false } })

/-- The checks of `rotate_pseudonym` and the state it persists. -/
def planRotation (env : Env) (s : PerContextState) (senderDid : Did) (now newEpoch : ℕ)
    (newRoutingId : RoutingId) : Except ContextError PerContextState := do
  require s.active .contextNotActive
  require (senderDid = env.localDid)
    (.permissionDenied "a member rotates only its own pseudonym (spec 09 §9.10.4.1)")
  let expectedEpoch ← okOr (s.rotation.dueEpoch s.policy now)
    (.invalidState ("no pseudonym rotation is due: the context has no rotation policy, no " ++
      "trigger has fired since the last rotation, the previous rotation's announcement is " ++
      "pending, the member holds no creation timestamp for an interval schedule, or the epoch " ++
      "has no successor (spec 09 §9.10.4.1)"))
  require (newEpoch = expectedEpoch) (.invalidState
    (s!"pseudonym rotation epoch {newEpoch} is not the due epoch {expectedEpoch} " ++
      "(spec 09 §9.10.4.1 epoch schedule)"))
  let collidesWithPeer := s.registry.any (fun e => e.2.routingId = newRoutingId)
  require (!(isReservedPseudonym env newRoutingId || newRoutingId ∈ s.ownRoutingIds ||
      collidesWithPeer)) (.invalidState ("rotated routing ID is reserved, already held by " ++
    "this member, or a peer's routing ID (spec 09 §9.10.4)"))
  let rotation ← okOr (s.rotation.recordRotation s.policy newEpoch s.localPseudonym now)
    (.invalidState "pseudonym query-only expiry overflows u64")
  pure { s with localPseudonym := newRoutingId, rotation := rotation }

/-- A persist that fails puts the old routing ID and rotation state back. -/
def rotatePseudonym (env : Env) (s : PerContextState) (senderDid : Did) (now newEpoch : ℕ)
    (newRoutingId : RoutingId) (io : Io) : Except ContextError Unit × PerContextState :=
  match planRotation env s senderDid now newEpoch newRoutingId with
  | .error e => (.error e, s)
  | .ok rotated =>
    if !io.persisted then (.error .persistenceFailed, s)
    else sendPseudonymAnnouncement rotated io

structure CommitMembershipChange where
  addedDids : List Did
  removedDids : List Did
  deriving DecidableEq

def CommitMembershipChange.isEmpty (change : CommitMembershipChange) : Bool :=
  change.addedDids.isEmpty && change.removedDids.isEmpty

def noteProcessedCommit (env : Env) (s : PerContextState) (committerDid : Did)
    (change : CommitMembershipChange) : PerContextState :=
  let s := { s with
    registry := (change.removedDids.filter (· ≠ env.localDid)).foldl OrderedMap.removeKey
      s.registry }
  if env.localDid ∈ change.removedDids then
    { s with rotation := s.rotation.discardRotationState }
  else if committerDid ≠ env.localDid && !change.isEmpty then
    { s with rotation := s.rotation.noteMembershipChange s.policy }
  else s

/-- The record that `remove_member_state` deletes, then `note_member_removed`. -/
def removeMember (env : Env) (s : PerContextState) (did : Did) : PerContextState :=
  let s := { s with registry := s.registry.removeKey did }
  if did = env.localDid then { s with rotation := s.rotation.discardRotationState }
  else { s with rotation := s.rotation.noteMembershipChange s.policy }

def noteMemberAdded (env : Env) (s : PerContextState) (did : Did) : PerContextState :=
  if did ≠ env.localDid then { s with rotation := s.rotation.noteMembershipChange s.policy }
  else s

def setPseudonymRotation (s : PerContextState) (policy : Option PseudonymRotationPolicy)
    (now : ℕ) : PerContextState :=
  { s with policy := policy, rotation := s.rotation.anchorSchedule policy now }

inductive Op
  | announcement (senderDid : Did) (plaintext : Bytes)
  | rotate (senderDid : Did) (now newEpoch : ℕ) (newRoutingId : RoutingId) (io : Io)
  | processedCommit (committerDid : Did) (change : CommitMembershipChange)
  | memberRemoved (did : Did)
  | memberAdded (did : Did)
  | announce (io : Io)
  | policyChange (policy : Option PseudonymRotationPolicy) (now : ℕ)

def step (env : Env) (s : PerContextState) : Op → PerContextState
  | .announcement senderDid plaintext => (ingestPseudonymAnnouncement env s senderDid plaintext).2
  | .rotate senderDid now newEpoch newRoutingId io =>
    (rotatePseudonym env s senderDid now newEpoch newRoutingId io).2
  | .processedCommit committerDid change => noteProcessedCommit env s committerDid change
  | .memberRemoved did => removeMember env s did
  | .memberAdded did => noteMemberAdded env s did
  | .announce io => (sendPseudonymAnnouncement s io).2
  | .policyChange policy now => setPseudonymRotation s policy now

def run (env : Env) (s : PerContextState) (ops : List Op) : PerContextState :=
  ops.foldl (step env) s

def Op.removes (did : Did) : Op → Prop
  | .processedCommit _ change => did ∈ change.removedDids
  | .memberRemoved removed => removed = did
  | _ => False

/-- An epoch that is present stays present and never falls. -/
def EpochLe (a b : Option ℕ) : Prop := ∀ e, a = some e → ∃ f, b = some f ∧ e ≤ f

theorem EpochLe.refl (a : Option ℕ) : EpochLe a a := fun e he => ⟨e, he, le_rfl⟩

theorem EpochLe.trans {a b c : Option ℕ} (hab : EpochLe a b) (hbc : EpochLe b c) :
    EpochLe a c := by
  intro e he
  obtain ⟨f, hf, hef⟩ := hab e he
  obtain ⟨g, hg, hfg⟩ := hbc f hf
  exact ⟨g, hg, hef.trans hfg⟩

/-- Everything a step can do to the registry and to the member's own routing IDs. -/
inductive Effect (env : Env) (s s' : PerContextState) : Op → Prop
  | shrinks {op : Op} (hregistry : s'.registry.Sublist s.registry)
      (hkept : ∀ did, ¬ op.removes did → s'.registry.get did = s.registry.get did)
      (hown : s'.ownRoutingIds ⊆ s.ownRoutingIds) : Effect env s s' op
  | rotates {op : Op} (id : RoutingId) (hregistry : s'.registry = s.registry)
      (hpeers : ∀ e ∈ s.registry, e.2.routingId ≠ id)
      (hown : s'.ownRoutingIds ⊆ id :: s.ownRoutingIds) : Effect env s s' op
  | accepts (did : Did) (plaintext : Bytes) (record : PseudonymRecord)
      (hdecode : decodeAnnouncement env plaintext = some (did, record))
      (hunreserved : isReservedPseudonym env record.routingId = false)
      (hothers : ∀ e ∈ s.registry, e.1 ≠ did → e.2.routingId ≠ record.routingId)
      (hfresh : record.routingId ∉ s.ownRoutingIds)
      (horder : ∀ old, s.registry.get did = some old → EpochLe old.epoch record.epoch)
      (hs : s' = { s with registry := Registry.insert s.registry did record }) :
      Effect env s s' (.announcement did plaintext)

theorem Effect.of_eq_registry {env : Env} {s s' : PerContextState} {op : Op}
    (hregistry : s'.registry = s.registry) (hown : s'.ownRoutingIds ⊆ s.ownRoutingIds) :
    Effect env s s' op :=
  .shrinks (hregistry ▸ List.Sublist.refl _) (fun _ _ => by rw [hregistry]) hown

theorem orderAnnouncement_accept {did memberDid : Did} {announced record : PseudonymRecord}
    {recorded : Option PseudonymRecord}
    (h : orderAnnouncement did announced recorded = .accept memberDid record) :
    memberDid = did ∧ record = announced ∧
      ∀ old, recorded = some old → EpochLe old.epoch announced.epoch := by
  unfold orderAnnouncement at h
  split at h
  · rename_i epoch recordedEpoch hepoch hrecorded
    split at h
    · rename_i hlt
      cases h
      refine ⟨rfl, rfl, ?_⟩
      rintro old rfl e he
      rw [Option.bind_some, he] at hrecorded
      cases hrecorded
      exact ⟨epoch, hepoch, hlt.le⟩
    · split at h <;> cases h
  · cases h
  · rename_i hnone
    cases h
    refine ⟨rfl, rfl, ?_⟩
    rintro old rfl e he
    rw [Option.bind_some, he] at hnone
    cases hnone

theorem classify_accept {env : Env} {plaintext : Bytes} {senderDid memberDid : Did}
    {registry : Registry} {own : List RoutingId} {record : PseudonymRecord}
    (h : classifyPseudonymAnnouncement env plaintext senderDid (some registry) own =
      .accept memberDid record) :
    memberDid = senderDid ∧ decodeAnnouncement env plaintext = some (senderDid, record) ∧
      isReservedPseudonym env record.routingId = false ∧
      (∀ e ∈ registry, e.1 ≠ senderDid → e.2.routingId ≠ record.routingId) ∧
      record.routingId ∉ own ∧
      ∀ old, registry.get senderDid = some old → EpochLe old.epoch record.epoch := by
  unfold classifyPseudonymAnnouncement at h
  split at h
  · cases h
  rename_i claimedDid announced hdecode
  split at h
  · cases h
  rename_i hclaimed
  have hclaimed : claimedDid = senderDid := not_not.mp hclaimed
  subst hclaimed
  split at h
  · cases h
  rename_i hunreserved
  dsimp only at h
  split at h
  · cases h
  rename_i hfree
  obtain ⟨rfl, rfl, horder⟩ := orderAnnouncement_accept h
  simp only [pseudonymCollidesWithOtherDid, Bool.or_eq_true, List.any_eq_true,
    Bool.and_eq_true, decide_eq_true_eq, not_or, not_exists, not_and] at hfree
  exact ⟨rfl, hdecode, Bool.not_eq_true _ ▸ hunreserved,
    fun e he hne heq => hfree.1 e he heq hne, hfree.2, horder⟩

theorem ingest_effect (env : Env) (s : PerContextState) (senderDid : Did) (plaintext : Bytes) :
    Effect env s (ingestPseudonymAnnouncement env s senderDid plaintext).2
      (.announcement senderDid plaintext) := by
  unfold ingestPseudonymAnnouncement
  split
  · exact .of_eq_registry rfl (List.Subset.refl _)
  · exact .of_eq_registry rfl (List.Subset.refl _)
  · exact .of_eq_registry rfl (List.Subset.refl _)
  · rename_i haccept
    obtain ⟨rfl, hdecode, hunreserved, hothers, hfresh, horder⟩ := classify_accept haccept
    exact .accepts _ _ _ hdecode hunreserved hothers hfresh horder rfl

theorem planRotation_ok {env : Env} {s rotated : PerContextState} {senderDid : Did}
    {now newEpoch : ℕ} {newRoutingId : RoutingId}
    (h : planRotation env s senderDid now newEpoch newRoutingId = .ok rotated) :
    s.active = true ∧ s.rotation.dueEpoch s.policy now = some newEpoch ∧
      (∀ e ∈ s.registry, e.2.routingId ≠ newRoutingId) ∧
      ∃ rotation, s.rotation.recordRotation s.policy newEpoch s.localPseudonym now =
          some rotation ∧
        rotated = { s with localPseudonym := newRoutingId, rotation := rotation } := by
  simp only [planRotation, bind_ok_iff, exists_unit_iff, require_ok_iff, okOr_ok_iff,
    pure_ok_iff] at h
  obtain ⟨hactive, -, epoch, hdue, hepoch, hfree, rotation, hrecord, rfl⟩ := h
  have hepoch : newEpoch = epoch := of_decide_eq_true hepoch
  subst hepoch
  simp only [Bool.not_or, Bool.and_eq_true, Bool.not_eq_true', List.any_eq_false,
    decide_eq_true_eq] at hfree
  exact ⟨hactive, hdue, fun e he => hfree.2 e he, rotation, hrecord, rfl⟩

theorem sendPseudonymAnnouncement_effect (s : PerContextState) (io : Io) :
    (sendPseudonymAnnouncement s io).2.registry = s.registry ∧
      (sendPseudonymAnnouncement s io).2.ownRoutingIds = s.ownRoutingIds := by
  unfold sendPseudonymAnnouncement
  split
  · exact ⟨rfl, rfl⟩
  split
  · exact ⟨rfl, rfl⟩
  split
  · exact ⟨rfl, rfl⟩
  · exact ⟨rfl, rfl⟩

theorem rotate_effect (env : Env) (s : PerContextState) (senderDid : Did) (now newEpoch : ℕ)
    (newRoutingId : RoutingId) (io : Io) :
    Effect env s (rotatePseudonym env s senderDid now newEpoch newRoutingId io).2
      (.rotate senderDid now newEpoch newRoutingId io) := by
  unfold rotatePseudonym
  split
  · exact .of_eq_registry rfl (List.Subset.refl _)
  rename_i rotated hplan
  obtain ⟨-, -, hpeers, rotation, hrecord, rfl⟩ := planRotation_ok hplan
  split
  · exact .of_eq_registry rfl (List.Subset.refl _)
  · obtain ⟨hregistry, hown⟩ := sendPseudonymAnnouncement_effect
      { s with localPseudonym := newRoutingId, rotation := rotation } io
    refine .rotates newRoutingId hregistry hpeers ?_
    rw [hown]
    intro id hid
    -- The list holds the routing ID rotated away from and what it held before.
    obtain rfl | hid := List.mem_cons.mp hid
    · exact List.mem_cons_self
    · obtain ⟨entry, hentry, rfl⟩ := List.mem_map.mp hid
      obtain hold | hold := PseudonymRotationState.recordRotation_queryOnly hrecord hentry
      · exact List.mem_cons_of_mem _ (List.mem_cons_of_mem _ (List.mem_map_of_mem hold))
      · rw [hold]
        exact List.mem_cons_of_mem _ List.mem_cons_self

theorem foldl_removeKey_sublist (dids : List Did) (registry : Registry) :
    (dids.foldl OrderedMap.removeKey registry).Sublist registry := by
  induction dids generalizing registry with
  | nil => exact List.Sublist.refl _
  | cons did dids ih =>
    rw [List.foldl_cons]
    exact (ih _).trans List.filter_sublist

theorem get_foldl_removeKey {dids : List Did} {did : Did} (h : did ∉ dids)
    (registry : Registry) :
    OrderedMap.get (dids.foldl OrderedMap.removeKey registry) did = registry.get did := by
  induction dids generalizing registry with
  | nil => rfl
  | cons d dids ih =>
    rw [List.mem_cons, not_or] at h
    rw [List.foldl_cons, ih h.2, OrderedMap.get_removeKey, if_neg h.1]

theorem noteMembershipChange_queryOnly (s : PseudonymRotationState)
    (policy : Option PseudonymRotationPolicy) :
    (s.noteMembershipChange policy).queryOnly = s.queryOnly := by
  unfold PseudonymRotationState.noteMembershipChange
  split <;> rfl

/-- The member's own routing IDs after its rotation state kept or lost its list. -/
theorem ownRoutingIds_subset {s s' : PerContextState}
    (hlocal : s'.localPseudonym = s.localPseudonym)
    (hquery : s'.rotation.queryOnly = s.rotation.queryOnly ∨ s'.rotation.queryOnly = []) :
    s'.ownRoutingIds ⊆ s.ownRoutingIds := by
  obtain hquery | hquery := hquery
  · rw [PerContextState.ownRoutingIds, hlocal, hquery]
    exact List.Subset.refl _
  · rw [PerContextState.ownRoutingIds, hlocal, hquery]
    exact List.cons_subset_cons _ (List.nil_subset _)

theorem noteProcessedCommit_effect (env : Env) (s : PerContextState) (committerDid : Did)
    (change : CommitMembershipChange) :
    Effect env s (noteProcessedCommit env s committerDid change)
      (.processedCommit committerDid change) := by
  have hregistry : (noteProcessedCommit env s committerDid change).registry =
      (change.removedDids.filter (· ≠ env.localDid)).foldl OrderedMap.removeKey s.registry := by
    unfold noteProcessedCommit
    dsimp only
    split
    · rfl
    split <;> rfl
  refine .shrinks ?_ ?_ (ownRoutingIds_subset ?_ ?_)
  · rw [hregistry]
    exact foldl_removeKey_sublist _ _
  · intro did hdid
    rw [hregistry]
    exact get_foldl_removeKey (fun hmem => hdid (List.mem_of_mem_filter hmem)) _
  · unfold noteProcessedCommit
    dsimp only
    split
    · rfl
    split <;> rfl
  · unfold noteProcessedCommit
    dsimp only
    split
    · exact .inr rfl
    split
    · exact .inl (noteMembershipChange_queryOnly _ _)
    · exact .inl rfl

theorem removeMember_effect (env : Env) (s : PerContextState) (did : Did) :
    Effect env s (removeMember env s did) (.memberRemoved did) := by
  have hregistry : (removeMember env s did).registry = s.registry.removeKey did := by
    unfold removeMember
    dsimp only
    split <;> rfl
  refine .shrinks ?_ ?_ (ownRoutingIds_subset ?_ ?_)
  · rw [hregistry]
    exact List.filter_sublist
  · intro other hother
    rw [hregistry, OrderedMap.get_removeKey, if_neg (fun h => hother h.symm)]
  · unfold removeMember
    dsimp only
    split <;> rfl
  · unfold removeMember
    dsimp only
    split
    · exact .inr rfl
    · exact .inl (noteMembershipChange_queryOnly _ _)

theorem step_effect (env : Env) (s : PerContextState) (op : Op) :
    Effect env s (step env s op) op := by
  cases op with
  | announcement senderDid plaintext => exact ingest_effect env s senderDid plaintext
  | rotate senderDid now newEpoch newRoutingId io =>
    exact rotate_effect env s senderDid now newEpoch newRoutingId io
  | processedCommit committerDid change =>
    exact noteProcessedCommit_effect env s committerDid change
  | memberRemoved did => exact removeMember_effect env s did
  | memberAdded did =>
    simp only [step, noteMemberAdded]
    split
    · exact .of_eq_registry rfl
        (ownRoutingIds_subset rfl (.inl (noteMembershipChange_queryOnly _ _)))
    · exact .of_eq_registry rfl (List.Subset.refl _)
  | announce io =>
    obtain ⟨hregistry, hown⟩ := sendPseudonymAnnouncement_effect s io
    exact .of_eq_registry hregistry (hown ▸ List.Subset.refl _)
  | policyChange policy now =>
    exact .of_eq_registry rfl (ownRoutingIds_subset rfl (.inl rfl))

/-- No two members share an address, and none has the local member's. -/
structure Distinct (env : Env) (s : PerContextState) : Prop where
  ids : (s.registry.map (fun e => e.2.routingId)).Nodup
  unreserved : ∀ e ∈ s.registry, isReservedPseudonym env e.2.routingId = false
  notOwn : ∀ e ∈ s.registry, e.2.routingId ∉ s.ownRoutingIds

theorem Distinct.step {env : Env} {s s' : PerContextState} {op : Op} (h : Distinct env s)
    (heffect : Effect env s s' op) : Distinct env s' := by
  cases heffect with
  | shrinks hregistry hkept hown =>
    refine ⟨h.ids.sublist (hregistry.map _), ?_, ?_⟩
    · exact fun e he => h.unreserved e (hregistry.subset he)
    · exact fun e he hmem => h.notOwn e (hregistry.subset he) (hown hmem)
  | rotates id hregistry hpeers hown =>
    refine ⟨hregistry ▸ h.ids, hregistry ▸ h.unreserved, ?_⟩
    intro e he hmem
    rw [hregistry] at he
    obtain heq | hold := List.mem_cons.mp (hown hmem)
    · exact hpeers e he heq
    · exact h.notOwn e he hold
  | accepts did plaintext record hdecode hunreserved hothers hfresh horder hs =>
    subst hs
    have hkeys : ∀ e ∈ s.registry.removeKey did, e ∈ s.registry ∧ e.1 ≠ did := by
      intro e he
      obtain ⟨hmem, hne⟩ := List.mem_filter.mp he
      exact ⟨hmem, of_decide_eq_true hne⟩
    refine ⟨List.nodup_cons.mpr ⟨?_, h.ids.sublist (List.filter_sublist.map _)⟩, ?_, ?_⟩
    · intro hmem
      obtain ⟨e, he, heq⟩ := List.mem_map.mp hmem
      obtain ⟨hold, hne⟩ := hkeys e he
      exact hothers e hold hne heq
    · intro e he
      obtain rfl | he := List.mem_cons.mp he
      · exact hunreserved
      · exact h.unreserved e (hkeys e he).1
    · intro e he
      obtain rfl | he := List.mem_cons.mp he
      · exact hfresh
      · exact h.notOwn e (hkeys e he).1

theorem Distinct.run {env : Env} {s : PerContextState} (h : Distinct env s) (ops : List Op) :
    Distinct env (run env s ops) := by
  induction ops generalizing s with
  | nil => exact h
  | cons op ops ih => exact ih (h.step (step_effect env s op))

/-- A record is held from before, or its DID announced it on the way. -/
theorem mem_run_registry {env : Env} {s : PerContextState} {ops : List Op}
    {e : Did × PseudonymRecord} (he : e ∈ (run env s ops).registry) :
    e ∈ s.registry ∨ ∃ plaintext, Op.announcement e.1 plaintext ∈ ops ∧
      decodeAnnouncement env plaintext = some e := by
  induction ops generalizing s with
  | nil => exact .inl he
  | cons op ops ih =>
    obtain hstep | ⟨plaintext, hmem, hdecode⟩ := ih he
    · cases step_effect env s op with
      | shrinks hregistry hkept hown => exact .inl (hregistry.subset hstep)
      | rotates id hregistry hpeers hown => exact .inl (hregistry ▸ hstep)
      | accepts did plaintext record hdecode hunreserved hothers hfresh horder hs =>
        rw [hs] at hstep
        obtain rfl | hold := List.mem_cons.mp hstep
        · exact .inr ⟨plaintext, List.mem_cons_self, hdecode⟩
        · exact .inl (List.mem_of_mem_filter hold)
    · exact .inr ⟨plaintext, List.mem_cons_of_mem _ hmem, hdecode⟩

theorem epoch_step {env : Env} {s s' : PerContextState} {op : Op}
    (heffect : Effect env s s' op) {did : Did} (hop : ¬ op.removes did)
    {record : PseudonymRecord} (hrecord : s.registry.get did = some record) :
    ∃ record', s'.registry.get did = some record' ∧ EpochLe record.epoch record'.epoch := by
  cases heffect with
  | shrinks hregistry hkept hown => exact ⟨record, (hkept did hop).trans hrecord, .refl _⟩
  | rotates id hregistry hpeers hown => exact ⟨record, hregistry ▸ hrecord, .refl _⟩
  | accepts other plaintext announced hdecode hunreserved hothers hfresh horder hs =>
    subst hs
    simp only [Registry.insert, OrderedMap.get_cons]
    by_cases hdid : other = did
    · subst hdid
      exact ⟨announced, if_pos rfl, horder record hrecord⟩
    · rw [if_neg hdid, OrderedMap.get_removeKey, if_neg (Ne.symm hdid)]
      exact ⟨record, hrecord, .refl _⟩

theorem epoch_run {env : Env} {s : PerContextState} {ops : List Op} {did : Did}
    (hops : ∀ op ∈ ops, ¬ op.removes did) {record : PseudonymRecord}
    (hrecord : s.registry.get did = some record) :
    ∃ record', (run env s ops).registry.get did = some record' ∧
      EpochLe record.epoch record'.epoch := by
  induction ops generalizing s record with
  | nil => exact ⟨record, hrecord, .refl _⟩
  | cons op ops ih =>
    obtain ⟨hop, hrest⟩ := List.forall_mem_cons.mp hops
    obtain ⟨mid, hmid, hle⟩ := epoch_step (step_effect env s op) hop hrecord
    obtain ⟨record', hrecord', hle'⟩ := ih hrest hmid
    exact ⟨record', hrecord', hle.trans hle'⟩

/-- Over every run from an empty registry: the recorded routing IDs are pairwise distinct,
unreserved and none of the local member's, each is recorded for the DID that announced it,
and until a DID is removed its epoch stays and never falls. -/
theorem routing_registry_distinct (env : Env) (s₀ : PerContextState)
    (hempty : s₀.registry = []) (ops : List Op) :
    ((run env s₀ ops).registry.map (fun e => e.2.routingId)).Nodup ∧
    (∀ e ∈ (run env s₀ ops).registry, isReservedPseudonym env e.2.routingId = false ∧
      e.2.routingId ≠ (run env s₀ ops).localPseudonym ∧
      (∀ q ∈ (run env s₀ ops).rotation.queryOnly, e.2.routingId ≠ q.routingId) ∧
      ∃ plaintext, Op.announcement e.1 plaintext ∈ ops ∧
        decodeAnnouncement env plaintext = some e) ∧
    ∀ did later, (∀ op ∈ later, ¬ op.removes did) → ∀ record,
      (run env s₀ ops).registry.get did = some record →
      ∃ record', (run env (run env s₀ ops) later).registry.get did = some record' ∧
        EpochLe record.epoch record'.epoch := by
  have hstart : Distinct env s₀ := by
    constructor <;> rw [hempty] <;> simp
  have hrun := hstart.run ops
  refine ⟨hrun.ids, ?_, fun did later hlater record => epoch_run hlater⟩
  intro e he
  have hown := hrun.notOwn e he
  simp only [PerContextState.ownRoutingIds, List.mem_cons, List.mem_map, not_or, not_exists,
    not_and] at hown
  refine ⟨hrun.unreserved e he, hown.1, fun q hq heq => hown.2 q hq heq.symm, ?_⟩
  obtain hold | hannounced := mem_run_registry he
  · rw [hempty] at hold
    cases hold
  · exact hannounced

/-- Two announcements by their first bytes: `bob`'s second version, then `mallory`'s of the
same routing ID. -/
def sampleEnv : Env where
  contextId := "context"
  localDid := "alice"
  contextRoutingId _ := 1
  broadcastRoutingId _ := 2
  fromSliceV1 _ := none
  fromSliceV2 bytes :=
    if bytes = [0x84, 0] then some ⟨pseudonymAnnouncementV2Tag, "bob", 3, 7⟩
    else if bytes = [0x84, 1] then some ⟨pseudonymAnnouncementV2Tag, "mallory", 9, 7⟩
    else if bytes = [0x84, 2] then some ⟨pseudonymAnnouncementV2Tag, "bob", 4, 8⟩
    else none

def sampleState : PerContextState where
  active := true
  policy := some ⟨none, true⟩
  localPseudonym := 5
  registry := []
  rotation := .joined (some ⟨none, true⟩) (some 100) 200

def sampleRun : List Op :=
  [.announcement "bob" [0x84, 0], .rotate "alice" 210 0 6 ⟨true, true, true⟩,
    .announcement "mallory" [0x84, 1]]

theorem routing_registry_distinct_sample :
    (run sampleEnv sampleState sampleRun).registry = [("bob", ⟨7, some 3⟩)] ∧
    (run sampleEnv sampleState sampleRun).localPseudonym = 6 ∧
    ∃ record', (run sampleEnv (run sampleEnv sampleState sampleRun)
        [.announcement "bob" [0x84, 2]]).registry.get "bob" = some record' ∧
      EpochLe (some 3) record'.epoch := by
  refine ⟨by decide, by decide, ?_⟩
  refine (routing_registry_distinct sampleEnv sampleState rfl sampleRun).2.2 "bob"
    [.announcement "bob" [0x84, 2]] ?_ ⟨7, some 3⟩ (by decide)
  simp [Op.removes]

end ScpCore.Pseudonym
