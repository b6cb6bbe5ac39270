import ScpCore.EnvelopeChunk
import ScpCore.PseudonymRegistry

/-! A member's announcements over its whole history, with crashes and an import on another
node, and a peer that ingests any of them in order. -/

namespace ScpCore.Pseudonym

structure Encoder where
  toVecNamedV1 : PseudonymAnnouncement → Option Bytes
  toVecNamedV2 : PseudonymAnnouncementV2 → Option Bytes

/-- The plaintext of an announcement, or that it did not serialize. -/
def encodeLocalAnnouncement (enc : Encoder) (memberDid : Did) (record : PseudonymRecord) :
    Option Bytes :=
  match record.epoch with
  | none => enc.toVecNamedV1 ⟨pseudonymAnnouncementTag, memberDid, record.routingId⟩
  | some epoch =>
    enc.toVecNamedV2 ⟨pseudonymAnnouncementV2Tag, memberDid, epoch, record.routingId⟩

/-- What the member announces of a state. -/
def PerContextState.stamp (s : PerContextState) : PseudonymRecord :=
  ⟨s.localPseudonym, s.rotation.epoch⟩

/-- An announcement that went out. -/
structure Sent where
  record : PseudonymRecord
  plaintext : Bytes

/-- The live state, the last persisted one and the announcements sent so far. -/
structure Member where
  live : PerContextState
  durable : PerContextState
  sent : List Sent

def Member.start (s : PerContextState) : Member := ⟨s, s, []⟩

inductive MemberOp
  /-- An operation of the context. A send that fails may still have `reached` a relay. -/
  | context (op : Op) (reached : Bool)
  /-- `join_context` of another member, which may hand over a routing ID of the caller. -/
  | joinContext (did : Did) (localPseudonym : Option RoutingId)
  /-- A persist of the whole state, by a commit or by the run loop. -/
  | persist
  | crashAndRestore (committedT0 : Option ℕ)
  | importContext (policy : Option PseudonymRotationPolicy) (committedT0 : Option ℕ) (now : ℕ)
      (localPseudonym : RoutingId)

section Member
variable (env : Env) (enc : Encoder)

def Member.announce (m : Member) (io : Io) (reached : Bool) : Member :=
  match encodeLocalAnnouncement enc env.localDid m.live.stamp with
  | none => m
  | some plaintext =>
    let live := (sendPseudonymAnnouncement m.live io).2
    { live := live
      durable := if io.sent && m.live.rotation.announcePending && io.cleared then live else m.durable
      sent := if io.sent || reached then m.sent ++ [⟨m.live.stamp, plaintext⟩] else m.sent }

def Member.step (m : Member) : MemberOp → Member
  | .context (.rotate senderDid now newEpoch newRoutingId io) reached =>
    match planRotation env m.live senderDid now newEpoch newRoutingId with
    | .error _ => m
    | .ok rotated =>
      if !io.persisted then m
      else Member.announce env enc { m with live := rotated, durable := rotated } io reached
  | .context (.announce io) reached => m.announce env enc io reached
  | .context op _ => { m with live := Pseudonym.step env m.live op }
  | .joinContext did localPseudonym =>
    let added := noteMemberAdded env m.live did
    { m with live := { added with localPseudonym := localPseudonym.getD added.localPseudonym } }
  | .persist => { m with durable := m.live }
  | .crashAndRestore committedT0 =>
    { m with live := { m.durable with rotation := m.durable.rotation.withScheduleT0 committedT0 } }
  | .importContext policy committedT0 now localPseudonym =>
    let imported := ⟨true, policy, localPseudonym, [], .anchored policy committedT0 now⟩
    { m with live := imported, durable := imported }

def Member.run (m : Member) (ops : List MemberOp) : Member := ops.foldl (Member.step env enc) m

end Member

/-- The announcements of a member that a peer ingests. -/
def heard (did : Did) (ops : List Op) : List Bytes :=
  ops.filterMap (fun
    | .announcement senderDid plaintext => if senderDid = did then some plaintext else none
    | _ => none)

/-- The routing ID an announcement carries is not reserved and the peer has it for no other
DID and not as its own. -/
def Clear (env : Env) (s : PerContextState) (did : Did) (plaintext : Bytes) : Prop :=
  ∀ record, decodeAnnouncement env plaintext = some (did, record) →
    isReservedPseudonym env record.routingId = false ∧
      pseudonymCollidesWithOtherDid s.registry did record.routingId = false ∧
      record.routingId ∉ s.ownRoutingIds

/-- The peer stays, starts with no record of the member and ingests a subsequence of what it
sent, each while the address is free. -/
structure Listens (env : Env) (did : Did) (sent : List Sent) (s : PerContextState)
    (ops : List Op) : Prop where
  start : s.registry.get did = none
  stays : ∀ op ∈ ops, ¬ op.removes did
  heard : (heard did ops).Sublist (sent.map Sent.plaintext)
  clear : ∀ pre plaintext post, ops = pre ++ .announcement did plaintext :: post →
    Clear env (run env s pre) did plaintext

/-- Each announcement of the member is recorded, and is then the peer's record. -/
def MovesForward (env : Env) (did : Did) (s : PerContextState) (ops : List Op) : Prop :=
  ∀ pre plaintext post, ops = pre ++ .announcement did plaintext :: post →
    ∃ record, decodeAnnouncement env plaintext = some (did, record) ∧
      (ingestPseudonymAnnouncement env (run env s pre) did plaintext).1 = .recorded ∧
      (run env s (pre ++ [.announcement did plaintext])).registry.get did = some record

/-- MessagePack reads back what it writes, and reads no first version as a second. -/
structure Lossless (enc : Encoder) (env : Env) (did : Did) : Prop where
  v1 : ∀ id bytes, enc.toVecNamedV1 ⟨pseudonymAnnouncementTag, did, id⟩ = some bytes →
    env.fromSliceV1 bytes = some ⟨pseudonymAnnouncementTag, did, id⟩ ∧
      env.fromSliceV2 bytes = none
  v2 : ∀ epoch id bytes,
    enc.toVecNamedV2 ⟨pseudonymAnnouncementV2Tag, did, epoch, id⟩ = some bytes →
    startsWithMsgpackMap bytes = true ∧
      env.fromSliceV2 bytes = some ⟨pseudonymAnnouncementV2Tag, did, epoch, id⟩

/-- An import comes before any epoch is announced, and a routing ID that `join_context` hands
over comes before the member holds an epoch, or is the one it has. -/
def MemberOp.Orderly (m : Member) : MemberOp → Prop
  | .importContext _ _ _ _ => ∀ a ∈ m.sent, a.record.epoch = none
  | .joinContext _ (some localPseudonym) =>
    m.live.rotation.epoch = none ∨ localPseudonym = m.live.localPseudonym
  | _ => True

def Orderly (env : Env) (enc : Encoder) : Member → List MemberOp → Prop
  | _, [] => True
  | m, op :: ops => op.Orderly m ∧ Orderly env enc (m.step env enc op) ops

/-- What a peer that holds the first accepts next, or keeps as it is. -/
def Follows (a b : PseudonymRecord) : Prop :=
  ∀ e, a.epoch = some e → ∃ f, b.epoch = some f ∧ (e < f ∨ e = f ∧ a.routingId = b.routingId)

theorem Follows.refl (a : PseudonymRecord) : Follows a a := fun e he => ⟨e, he, .inr ⟨rfl, rfl⟩⟩

theorem Follows.of_none {a : PseudonymRecord} (h : a.epoch = none) (b : PseudonymRecord) :
    Follows a b := by
  intro e he
  rw [h] at he
  cases he

theorem Follows.epoch_eq_none {a b : PseudonymRecord} (h : Follows a b) (hb : b.epoch = none) :
    a.epoch = none := by
  cases ha : a.epoch with
  | none => rfl
  | some e =>
    obtain ⟨f, hf, -⟩ := h e ha
    rw [hb] at hf
    cases hf

theorem Follows.trans {a b c : PseudonymRecord} (hab : Follows a b) (hbc : Follows b c) :
    Follows a c := by
  intro e he
  obtain ⟨f, hf, hef⟩ := hab e he
  obtain ⟨g, hg, hfg⟩ := hbc f hf
  refine ⟨g, hg, ?_⟩
  obtain hef | ⟨rfl, hab⟩ := hef
  · left
    omega
  · obtain hfg | ⟨rfl, hbc⟩ := hfg
    · exact .inl hfg
    · exact .inr ⟨rfl, hab.trans hbc⟩

/-- Both states of the member follow all it has sent, which comes in order. -/
structure Ahead (env : Env) (enc : Encoder) (m : Member) : Prop where
  encoded : ∀ a ∈ m.sent,
    encodeLocalAnnouncement enc env.localDid a.record = some a.plaintext
  ordered : m.sent.Pairwise (fun a b => Follows a.record b.record)
  live : ∀ a ∈ m.sent, Follows a.record m.live.stamp
  durable : ∀ a ∈ m.sent, Follows a.record m.durable.stamp
  persisted : Follows m.live.stamp m.durable.stamp

theorem noteMembershipChange_epoch (s : PseudonymRotationState)
    (policy : Option PseudonymRotationPolicy) :
    (s.noteMembershipChange policy).epoch = s.epoch := by
  unfold PseudonymRotationState.noteMembershipChange
  split <;> rfl

theorem noteMemberAdded_stamp (env : Env) (s : PerContextState) (did : Did) :
    (noteMemberAdded env s did).stamp = s.stamp := by
  unfold noteMemberAdded
  split
  · simp only [PerContextState.stamp, noteMembershipChange_epoch]
  · rfl

theorem ingest_stamp (env : Env) (s : PerContextState) (senderDid : Did) (plaintext : Bytes) :
    (ingestPseudonymAnnouncement env s senderDid plaintext).2.stamp = s.stamp := by
  unfold ingestPseudonymAnnouncement
  split <;> rfl

theorem noteProcessedCommit_stamp (env : Env) (s : PerContextState) (committerDid : Did)
    (change : CommitMembershipChange) :
    (noteProcessedCommit env s committerDid change).stamp = s.stamp := by
  unfold noteProcessedCommit
  dsimp only
  split
  · rfl
  split
  · simp only [PerContextState.stamp, noteMembershipChange_epoch]
  · rfl

theorem removeMember_stamp (env : Env) (s : PerContextState) (did : Did) :
    (removeMember env s did).stamp = s.stamp := by
  unfold removeMember
  dsimp only
  split
  · rfl
  · simp only [PerContextState.stamp, noteMembershipChange_epoch]

theorem sendPseudonymAnnouncement_stamp (s : PerContextState) (io : Io) :
    (sendPseudonymAnnouncement s io).2.stamp = s.stamp := by
  unfold sendPseudonymAnnouncement
  split
  · rfl
  split
  · rfl
  split <;> rfl

/-- A rotation moves the member's own announcements forward. -/
theorem planRotation_follows {env : Env} {s rotated : PerContextState} {senderDid : Did}
    {now newEpoch : ℕ} {newRoutingId : RoutingId}
    (h : planRotation env s senderDid now newEpoch newRoutingId = .ok rotated) :
    Follows s.stamp rotated.stamp := by
  obtain ⟨-, hdue, -, rotation, hrecord, rfl⟩ := planRotation_ok h
  intro e he
  exact ⟨newEpoch, PseudonymRotationState.recordRotation_epoch hrecord,
    .inl (PseudonymRotationState.lt_of_dueEpoch hdue he)⟩

namespace Ahead
variable {env : Env} {enc : Encoder} {m : Member}

theorem start (s : PerContextState) : Ahead env enc (.start s) :=
  ⟨nofun, .nil, nofun, nofun, .refl _⟩

/-- A step that sends nothing. -/
theorem of_stamps (h : Ahead env enc m) {live durable : PerContextState}
    (hlive : ∀ a ∈ m.sent, Follows a.record live.stamp)
    (hdurable : ∀ a ∈ m.sent, Follows a.record durable.stamp)
    (hpersisted : Follows live.stamp durable.stamp) :
    Ahead env enc ⟨live, durable, m.sent⟩ :=
  ⟨h.encoded, h.ordered, hlive, hdurable, hpersisted⟩

theorem of_stamp_eq (h : Ahead env enc m) {live : PerContextState}
    (hstamp : live.stamp = m.live.stamp) : Ahead env enc { m with live := live } :=
  h.of_stamps (hstamp ▸ h.live) h.durable (hstamp ▸ h.persisted)

theorem announce (h : Ahead env enc m) (io : Io) (reached : Bool) :
    Ahead env enc (m.announce env enc io reached) := by
  unfold Member.announce
  split
  · exact h
  rename_i plaintext hencode
  have hlive := sendPseudonymAnnouncement_stamp m.live io
  -- The durable state is the one before or the live one, and either follows what is sent.
  have hdurable : ∀ a : PseudonymRecord, Follows a m.live.stamp → Follows a m.durable.stamp →
      Follows a (if io.sent && m.live.rotation.announcePending && io.cleared then
        (sendPseudonymAnnouncement m.live io).2 else m.durable).stamp := by
    intro a ha ha'
    split
    · rwa [hlive]
    · exact ha'
  have hquiet : Ahead env enc ⟨(sendPseudonymAnnouncement m.live io).2,
      if io.sent && m.live.rotation.announcePending && io.cleared then
        (sendPseudonymAnnouncement m.live io).2 else m.durable, m.sent⟩ := by
    refine h.of_stamps (hlive ▸ h.live) ?_ ?_
    · exact fun a ha => hdurable a.record (h.live a ha) (h.durable a ha)
    · rw [hlive]
      exact hdurable _ (.refl _) h.persisted
  dsimp only
  by_cases hsent : (io.sent || reached) = true
  · rw [if_pos hsent]
    refine ⟨?_, ?_, ?_, ?_, hquiet.persisted⟩
    · intro a ha
      obtain ha | ha := List.mem_append.mp ha
      · exact h.encoded a ha
      · rw [List.mem_singleton.mp ha]
        exact hencode
    · refine List.pairwise_append.mpr ⟨h.ordered, List.pairwise_singleton _ _, ?_⟩
      intro a ha b hb
      rw [List.mem_singleton.mp hb]
      exact h.live a ha
    · intro a ha
      rw [hlive]
      obtain ha | ha := List.mem_append.mp ha
      · exact h.live a ha
      · rw [List.mem_singleton.mp ha]
        exact .refl _
    · intro a ha
      obtain ha | ha := List.mem_append.mp ha
      · exact hquiet.durable a ha
      · rw [List.mem_singleton.mp ha]
        exact hdurable _ (.refl _) h.persisted
  · rw [if_neg hsent]
    exact hquiet

theorem rotate (h : Ahead env enc m) (senderDid : Did) (now newEpoch : ℕ)
    (newRoutingId : RoutingId) (io : Io) (reached : Bool) :
    Ahead env enc
      (m.step env enc (.context (.rotate senderDid now newEpoch newRoutingId io) reached)) := by
  simp only [Member.step]
  split
  · exact h
  rename_i rotated hplan
  split
  · exact h
  · have hfollows := planRotation_follows hplan
    have hrotated : ∀ a ∈ m.sent, Follows a.record rotated.stamp :=
      fun a ha => (h.live a ha).trans hfollows
    exact (h.of_stamps hrotated hrotated (.refl _)).announce io reached

theorem step (h : Ahead env enc m) {op : MemberOp} (hop : op.Orderly m) :
    Ahead env enc (m.step env enc op) := by
  cases op with
  | context op reached =>
    cases op with
    | rotate senderDid now newEpoch newRoutingId io =>
      exact h.rotate senderDid now newEpoch newRoutingId io reached
    | announce io => exact h.announce io reached
    | announcement senderDid plaintext =>
      exact h.of_stamp_eq (ingest_stamp env m.live senderDid plaintext)
    | processedCommit committerDid change =>
      exact h.of_stamp_eq (noteProcessedCommit_stamp env m.live committerDid change)
    | memberRemoved did => exact h.of_stamp_eq (removeMember_stamp env m.live did)
    | memberAdded did => exact h.of_stamp_eq (noteMemberAdded_stamp env m.live did)
    | policyChange policy now => exact h.of_stamp_eq rfl
  | joinContext did localPseudonym =>
    have hadded := noteMemberAdded_stamp env m.live did
    cases localPseudonym with
    | none => exact h.of_stamp_eq hadded
    | some id =>
      have hepoch : (noteMemberAdded env m.live did).rotation.epoch = m.live.rotation.epoch :=
        congrArg PseudonymRecord.epoch hadded
      obtain hnone | rfl := hop
      · refine h.of_stamps ?_ h.durable (.of_none (hepoch.trans hnone) _)
        exact fun a ha => .of_none ((h.live a ha).epoch_eq_none hnone) _
      · refine h.of_stamp_eq ?_
        exact congrArg (PseudonymRecord.mk m.live.localPseudonym) hepoch
  | persist => exact h.of_stamps h.live h.live (.refl _)
  | crashAndRestore committedT0 => exact h.of_stamps h.durable h.durable (.refl _)
  | importContext policy committedT0 now localPseudonym =>
    exact h.of_stamps (fun a ha => .of_none (hop a ha) _) (fun a ha => .of_none (hop a ha) _)
      (.refl _)

theorem run {ops : List MemberOp} (h : Ahead env enc m) (hops : Orderly env enc m ops) :
    Ahead env enc (m.run env enc ops) := by
  induction ops generalizing m with
  | nil => exact h
  | cons op ops ih => exact ih (h.step hops.1) hops.2

end Ahead

theorem decode_of_encode {enc : Encoder} {env : Env} {did : Did} (h : Lossless enc env did)
    {record : PseudonymRecord} {bytes : Bytes}
    (hencode : encodeLocalAnnouncement enc did record = some bytes) :
    decodeAnnouncement env bytes = some (did, record) := by
  obtain ⟨id, epoch⟩ := record
  cases epoch with
  | none =>
    obtain ⟨hv1, hv2⟩ := h.v1 id bytes hencode
    simp [decodeAnnouncement, decodeV1, hv1, hv2]
  | some epoch =>
    obtain ⟨hmap, hv2⟩ := h.v2 epoch id bytes hencode
    simp [decodeAnnouncement, hmap, hv2]

/-- An announcement that follows the peer's record becomes it. -/
theorem ingest_of_follows {env : Env} {s : PerContextState} {did : Did} {plaintext : Bytes}
    {record : PseudonymRecord} (hclear : Clear env s did plaintext)
    (hdecode : decodeAnnouncement env plaintext = some (did, record))
    (hfollows : ∀ old, s.registry.get did = some old → Follows old record) :
    (ingestPseudonymAnnouncement env s did plaintext).1 = .recorded ∧
      (ingestPseudonymAnnouncement env s did plaintext).2.registry.get did = some record := by
  obtain ⟨hreserved, hcollides, hown⟩ := hclear record hdecode
  have hclassify : classifyPseudonymAnnouncement env plaintext did (some s.registry)
      s.ownRoutingIds = orderAnnouncement did record (s.registry.get did) := by
    simp [classifyPseudonymAnnouncement, hdecode, hreserved, hcollides, hown]
  have haccept : orderAnnouncement did record (s.registry.get did) = .accept did record ∨
      orderAnnouncement did record (s.registry.get did) = .unchanged ∧
        s.registry.get did = some record := by
    cases hold : s.registry.get did with
    | none =>
      left
      cases hrecord : record.epoch <;> simp [orderAnnouncement, hrecord]
    | some old =>
      cases hepoch : old.epoch with
      | none =>
        left
        cases hrecord : record.epoch <;> simp [orderAnnouncement, hrecord, hepoch]
      | some e =>
        obtain ⟨f, hf, hlt | ⟨rfl, hid⟩⟩ := hfollows old hold e hepoch
        · left
          simp [orderAnnouncement, hf, hepoch, hlt]
        · right
          refine ⟨by simp [orderAnnouncement, hf, hepoch, hid], ?_⟩
          obtain ⟨oldId, oldEpoch⟩ := old
          obtain ⟨id, epoch⟩ := record
          simp_all
  unfold ingestPseudonymAnnouncement
  rw [hclassify]
  obtain haccept | ⟨hunchanged, hsame⟩ := haccept
  · rw [haccept]
    refine ⟨rfl, ?_⟩
    simp only [Registry.insert, OrderedMap.get_cons, if_true]
  · rw [hunchanged]
    exact ⟨rfl, hsame⟩

/-- The record of a DID changes only by its own announcements and removals. -/
theorem get_step_of_other {env : Env} {s : PerContextState} {op : Op} {did : Did}
    (hremoves : ¬ op.removes did) (hother : ∀ plaintext, op ≠ .announcement did plaintext) :
    (step env s op).registry.get did = s.registry.get did := by
  cases step_effect env s op with
  | shrinks hregistry hkept hown => exact hkept did hremoves
  | rotates id hregistry hpeers hown => rw [hregistry]
  | accepts sender plaintext record hdecode hunreserved hothers hfresh horder hs =>
    have hne : sender ≠ did := fun h => hother plaintext (h ▸ rfl)
    rw [hs]
    simp only [Registry.insert, OrderedMap.get_cons, if_neg hne, OrderedMap.get_removeKey,
      if_neg (Ne.symm hne)]

theorem heard_cons_self (did : Did) (plaintext : Bytes) (ops : List Op) :
    heard did (.announcement did plaintext :: ops) = plaintext :: heard did ops := by
  simp [heard]

theorem heard_cons_of_other {did : Did} {op : Op} (h : ∀ plaintext, op ≠ .announcement did plaintext)
    (ops : List Op) : heard did (op :: ops) = heard did ops := by
  cases op with
  | announcement senderDid plaintext =>
    have hne : senderDid ≠ did := fun hdid => h plaintext (hdid ▸ rfl)
    simp [heard, hne]
  | rotate senderDid now newEpoch newRoutingId io => rfl
  | processedCommit committerDid change => rfl
  | memberRemoved did => rfl
  | memberAdded did => rfl
  | announce io => rfl
  | policyChange policy now => rfl

/-- The peer's run: announcements that come in order, after what it has, are all recorded. -/
theorem movesForward_of_ordered {env : Env} {did : Did} {s : PerContextState} {ops : List Op}
    {rs : List Sent} (hheard : heard did ops = rs.map Sent.plaintext)
    (hdecode : ∀ a ∈ rs, decodeAnnouncement env a.plaintext = some (did, a.record))
    (hordered : rs.Pairwise (fun a b => Follows a.record b.record))
    (hheld : ∀ old, s.registry.get did = some old → ∀ a ∈ rs, Follows old a.record)
    (hstays : ∀ op ∈ ops, ¬ op.removes did)
    (hclear : ∀ pre plaintext post, ops = pre ++ .announcement did plaintext :: post →
      Clear env (run env s pre) did plaintext) :
    MovesForward env did s ops := by
  induction ops generalizing s rs with
  | nil =>
    intro pre plaintext post hsplit
    simp at hsplit
  | cons op ops ih =>
    obtain ⟨hop, hrest⟩ := List.forall_mem_cons.mp hstays
    have hclear' : ∀ pre plaintext post, ops = pre ++ .announcement did plaintext :: post →
        Clear env (run env (step env s op) pre) did plaintext :=
      fun pre plaintext post hsplit => hclear (op :: pre) plaintext post (by rw [hsplit]; rfl)
    have hhead : ∀ pre plaintext post, op :: ops = pre ++ .announcement did plaintext :: post →
        pre = [] ∧ op = .announcement did plaintext ∨
          ∃ pre', pre = op :: pre' ∧ ops = pre' ++ .announcement did plaintext :: post := by
      intro pre plaintext post hsplit
      cases pre with
      | nil =>
        left
        simpa using (List.cons.inj hsplit).1
      | cons o pre' =>
        right
        obtain ⟨rfl, hops⟩ := List.cons.inj hsplit
        exact ⟨pre', rfl, hops⟩
    by_cases hother : ∀ plaintext, op ≠ .announcement did plaintext
    · have hforward := ih ((heard_cons_of_other hother ops).symm.trans hheard) hdecode hordered
        (by rw [get_step_of_other hop hother]; exact hheld) hrest hclear'
      intro pre plaintext post hsplit
      obtain ⟨-, hop⟩ | ⟨pre', rfl, htail⟩ := hhead pre plaintext post hsplit
      · exact absurd hop (hother plaintext)
      · exact hforward pre' plaintext post htail
    · push Not at hother
      obtain ⟨plaintext, rfl⟩ := hother
      rw [heard_cons_self] at hheard
      obtain ⟨a, rs', rfl, rfl, hrs⟩ := List.map_eq_cons_iff.mp hheard.symm
      obtain ⟨ha, hdecode'⟩ := List.forall_mem_cons.mp hdecode
      obtain ⟨hfirst, hordered'⟩ := List.pairwise_cons.mp hordered
      obtain ⟨hrecorded, hget⟩ := ingest_of_follows (hclear [] a.plaintext ops rfl) ha
        (fun old hold => hheld old hold a List.mem_cons_self)
      have hforward := ih hrs.symm hdecode' hordered' (s := step env s (.announcement did a.plaintext))
        (by
          intro old hold
          have heq : old = a.record := Option.some.inj (hold.symm.trans hget)
          rw [heq]
          exact hfirst) hrest hclear'
      intro pre plaintext post hsplit
      obtain ⟨rfl, hop⟩ | ⟨pre', rfl, htail⟩ := hhead pre plaintext post hsplit
      · cases hop
        exact ⟨a.record, ha, hrecorded, hget⟩
      · exact hforward pre' plaintext post htail

/-- Over every history whose imports come before any epoch is announced, and whose joins hand
over no other routing ID once an epoch is held, each announcement a peer ingests is recorded
and is then the peer's record of the member. -/
theorem announcements_move_forward (env peer : Env) (enc : Encoder)
    (hcodec : Lossless enc peer env.localDid) (s : PerContextState) (ops : List MemberOp)
    (hops : Orderly env enc (.start s) ops) (r : PerContextState) (received : List Op)
    (hpeer : Listens peer env.localDid ((Member.start s).run env enc ops).sent r received) :
    MovesForward peer env.localDid r received := by
  have hahead := (Ahead.start s).run hops
  obtain ⟨rs, hsub, hheard⟩ := List.sublist_map_iff.mp hpeer.heard
  refine movesForward_of_ordered hheard ?_ (hahead.ordered.sublist hsub) ?_ hpeer.stays
    hpeer.clear
  · exact fun a ha => decode_of_encode hcodec (hahead.encoded a (hsub.subset ha))
  · intro old hold
    rw [hpeer.start] at hold
    cases hold

/-- A text of fewer than 32 bytes. -/
def shortText (text : String) : Bytes :=
  UInt8.ofNat (0xa0+text.utf8ByteSize) :: text.toUTF8.toList

/-- A number of 64 bits in the shortest of its forms. -/
def u64Bytes (n : ℕ) : Bytes :=
  if n < 128 then [UInt8.ofNat n]
  else if n < 2^8 then 0xcc :: beBytes 1 n
  else if n < 2^16 then 0xcd :: beBytes 2 n
  else if n < 2^32 then 0xce :: beBytes 4 n
  else 0xcf :: beBytes 8 n

def readU64 : Bytes → Option (ℕ × Bytes)
  | [] => none
  | tag :: rest =>
    if tag.toNat < 128 then some (tag.toNat, rest)
    else if tag = 0xcc then some (beNat (rest.take 1), rest.drop 1)
    else if tag = 0xcd then some (beNat (rest.take 2), rest.drop 2)
    else if tag = 0xce then some (beNat (rest.take 4), rest.drop 4)
    else if tag = 0xcf then some (beNat (rest.take 8), rest.drop 8)
    else none

theorem readU64_append {n : ℕ} (h : n < 2^64) (rest : Bytes) :
    readU64 (u64Bytes n ++ rest) = some (n, rest) := by
  have hwide : ∀ width, n < 256^width →
      (beNat ((beBytes width n ++ rest).take width), (beBytes width n ++ rest).drop width) =
        (n, rest) := by
    intro width hn
    have hlen := beBytes_length width n
    rw [List.take_left' hlen, List.drop_left' hlen, beNat_beBytes, Nat.mod_eq_of_lt hn]
  unfold u64Bytes
  split_ifs with h1 h2 h3 h4
  · have htag : (UInt8.ofNat n).toNat = n := UInt8.toNat_ofNat_of_lt' (lt_trans h1 (by decide))
    simp [readU64, htag, h1]
  · simpa [readU64] using hwide 1 h2
  · simpa [readU64] using hwide 2 h3
  · simpa [readU64] using hwide 4 h4
  · simpa [readU64] using hwide 8 h

/-- What follows a given beginning. -/
def stripBytes (start bytes : Bytes) : Option Bytes :=
  if start.isPrefixOf bytes then some (bytes.drop start.length) else none

@[simp] theorem stripBytes_append (start rest : Bytes) :
    stripBytes start (start ++ rest) = some rest := by
  simp [stripBytes]

/-- A routing ID that ends the text. -/
def readRoutingId (bytes : Bytes) : Option RoutingId :=
  match Envelope.readHash bytes with
  | .ok (id, []) => some id
  | _ => none

def startV1 (tag memberDid : String) : Bytes :=
  0x83 :: (shortText "tag" ++ shortText tag ++ shortText "member_did" ++
    shortText memberDid ++ shortText "pseudonym")

def startV2 (tag memberDid : String) : Bytes :=
  0x84 :: (shortText "tag" ++ shortText tag ++ shortText "member_did" ++
    shortText memberDid ++ shortText "pseudonym_epoch")

/-- Maps with their keys, for texts of fewer than 32 bytes. -/
def sampleEncoder : Encoder where
  toVecNamedV1 a := some (startV1 a.tag a.memberDid ++ Envelope.binBytes (beBytes 32 a.pseudonym.toNat))
  toVecNamedV2 a :=
    if a.pseudonymEpoch < 2^64 then
      some (startV2 a.tag a.memberDid ++ (u64Bytes a.pseudonymEpoch ++
        (shortText "routing_id" ++ Envelope.binBytes (beBytes 32 a.routingId.toNat))))
    else none

/-- A context as one of its members sees it, reading the announcements of `carol`. -/
def sampleContext (localDid : Did) : Env where
  contextId := "context"
  localDid := localDid
  contextRoutingId _ := 1
  broadcastRoutingId _ := 2
  fromSliceV1 bytes := do
    let rest ← stripBytes (startV1 pseudonymAnnouncementTag "carol") bytes
    let id ← readRoutingId rest
    pure ⟨pseudonymAnnouncementTag, "carol", id⟩
  fromSliceV2 bytes := do
    let rest ← stripBytes (startV2 pseudonymAnnouncementV2Tag "carol") bytes
    let (epoch, rest) ← readU64 rest
    let rest ← stripBytes (shortText "routing_id") rest
    let id ← readRoutingId rest
    pure ⟨pseudonymAnnouncementV2Tag, "carol", epoch, id⟩

theorem readRoutingId_binBytes (id : RoutingId) :
    readRoutingId (Envelope.binBytes (beBytes 32 id.toNat)) = some id := by
  have hread := Envelope.readHash_append id []
  rw [List.append_nil] at hread
  rw [readRoutingId, hread]

theorem sampleEncoder_lossless (localDid : Did) :
    Lossless sampleEncoder (sampleContext localDid) "carol" := by
  constructor
  · intro id bytes hbytes
    cases hbytes
    constructor
    · simp [sampleContext, readRoutingId_binBytes]
    · simp [sampleContext, stripBytes, startV1, startV2]
  · intro epoch id bytes hbytes
    simp only [sampleEncoder] at hbytes
    split at hbytes
    · rename_i hepoch
      cases hbytes
      refine ⟨by simp [startsWithMsgpackMap, startV2], ?_⟩
      simp [sampleContext, readU64_append hepoch, readRoutingId_binBytes]
    · cases hbytes

/-- The creator of a context whose members rotate when the membership changes. -/
def sampleCreated : PerContextState :=
  ⟨true, some ⟨none, true⟩, 5, [], .anchored (some ⟨none, true⟩) (some 100) 100⟩

def samplePeer : PerContextState :=
  ⟨true, some ⟨none, true⟩, 4, [], .joined (some ⟨none, true⟩) (some 100) 150⟩

def sampleV1 (id : RoutingId) : Bytes :=
  (encodeLocalAnnouncement sampleEncoder "carol" ⟨id, none⟩).getD []

def sampleV2 (epoch : ℕ) (id : RoutingId) : Bytes :=
  (encodeLocalAnnouncement sampleEncoder "carol" ⟨id, some epoch⟩).getD []

/-- Announced, rotated after a member joined, restored after a crash and announced again. -/
def rotatedHistory : List MemberOp :=
  [.context (.announce ⟨true, true, true⟩) false,
    .importContext (some ⟨none, true⟩) (some 100) 120 7,
    .joinContext "dave" none, .context (.rotate "carol" 200 0 6 ⟨true, false, false⟩) false,
    .crashAndRestore (some 100), .context (.announce ⟨true, true, true⟩) false]

/-- Rotated after a member joined, imported on another node and announced from there. -/
def importedHistory : List MemberOp :=
  [.joinContext "dave" none, .context (.rotate "carol" 200 0 6 ⟨true, true, true⟩) false,
    .importContext (some ⟨none, true⟩) (some 100) 300 9,
    .context (.announce ⟨true, true, true⟩) false]

def receives (plaintexts : List Bytes) : List Op := plaintexts.map (Op.announcement "carol")

/-- Whether the peer has the routing ID for no one. -/
def isFree (s : PerContextState) (id : RoutingId) : Bool :=
  !isReservedPseudonym (sampleContext "rob") id &&
    !pseudonymCollidesWithOtherDid s.registry "carol" id && id ∉ s.ownRoutingIds

/-- Two announcements of `carol` with routing IDs the peer has for no one. -/
theorem listens_pair {sent : List Sent} {p q : Bytes} {a b : PseudonymRecord}
    (hsub : [p, q].Sublist (sent.map Sent.plaintext))
    (hp : encodeLocalAnnouncement sampleEncoder "carol" a = some p)
    (hq : encodeLocalAnnouncement sampleEncoder "carol" b = some q)
    (ha : isFree samplePeer a.routingId = true)
    (hb : isFree (run (sampleContext "rob") samplePeer (receives [p])) b.routingId = true) :
    Listens (sampleContext "rob") "carol" sent samplePeer (receives [p, q]) := by
  have hclear : ∀ s record plaintext,
      encodeLocalAnnouncement sampleEncoder "carol" record = some plaintext →
      isFree s record.routingId = true → Clear (sampleContext "rob") s "carol" plaintext := by
    intro s record plaintext hencode hfree other hother
    have hdecode := decode_of_encode (sampleEncoder_lossless "rob") hencode
    rw [hdecode] at hother
    cases hother
    simpa [isFree, and_assoc] using hfree
  refine ⟨rfl, ?_, hsub, ?_⟩
  · intro op hop
    obtain ⟨plaintext, -, rfl⟩ := List.mem_map.mp hop
    exact id
  · intro pre plaintext post hsplit
    obtain _ | ⟨first, _ | ⟨second, pre⟩⟩ := pre
    · cases hsplit
      exact hclear samplePeer a p hp ha
    · cases hsplit
      exact hclear (run (sampleContext "rob") samplePeer (receives [p])) b q hq hb
    · simp [receives] at hsplit

theorem announcements_move_forward_sample :
    MovesForward (sampleContext "rob") "carol" samplePeer
      (receives [sampleV1 5, sampleV2 0 6]) := by
  refine announcements_move_forward (sampleContext "carol") (sampleContext "rob") sampleEncoder
    (sampleEncoder_lossless "rob") sampleCreated rotatedHistory ?_ samplePeer _ ?_
  · refine ⟨trivial, ?_, trivial, trivial, trivial, trivial, trivial⟩
    unfold MemberOp.Orderly
    decide +kernel
  · exact listens_pair (a := ⟨5, none⟩) (b := ⟨6, some 0⟩) (by decide +kernel) rfl rfl
      (by decide +kernel) (by decide +kernel)

/-- After the import the member falls back to the first version, which the peer refuses. -/
theorem import_announces_backwards :
    Lossless sampleEncoder (sampleContext "rob") "carol" ∧
    Listens (sampleContext "rob") "carol"
      ((Member.start sampleCreated).run (sampleContext "carol") sampleEncoder importedHistory).sent
      samplePeer (receives [sampleV2 0 6, sampleV1 9]) ∧
    ¬ MovesForward (sampleContext "rob") "carol" samplePeer
      (receives [sampleV2 0 6, sampleV1 9]) := by
  refine ⟨sampleEncoder_lossless "rob", ?_, ?_⟩
  · exact listens_pair (a := ⟨6, some 0⟩) (b := ⟨9, none⟩) (by decide +kernel) rfl rfl
      (by decide +kernel) (by decide +kernel)
  · intro hforward
    obtain ⟨record, -, hrecorded, -⟩ := hforward (receives [sampleV2 0 6]) (sampleV1 9) [] rfl
    have hrefused : (ingestPseudonymAnnouncement (sampleContext "rob")
        (run (sampleContext "rob") samplePeer (receives [sampleV2 0 6])) "carol"
        (sampleV1 9)).1 = .rejected .v1AfterV2 := by
      decide +kernel
    rw [hrefused] at hrecorded
    cases hrecorded

end ScpCore.Pseudonym
