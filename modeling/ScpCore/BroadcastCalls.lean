import ScpCore.BroadcastCutoff
import ScpCore.BroadcastRuntime

/-! The runtime's calls on a broadcast context as one type, with what each of them generates,
grants and seals. Each call is a run of the protocol's operations, so that what holds of every
run of the protocol holds of every run of the runtime. -/

namespace ScpCore.Broadcast

open OrderedMap
open Roles (Capability)
open Consequence (AccessScope)

/-- The calls on a broadcast context; `landed` is what persisting a call and writing its leaf
come to. -/
inductive Call
  | subscribe (subscriberDid : String) (admittance : BroadcastContext.Admittance) (timestamp : ℕ)
      (landed : Except RuntimeError Unit)
  | unsubscribe (subscriberDid : String) (rotateKeys : Bool) (landed : Except RuntimeError Unit)
  | leave (callerDid memberDid : String) (landed : Except RuntimeError Unit)
  | block (authorDid subscriberDid : String) (landed : Except RuntimeError Unit)
  | unblock (authorDid subscriberDid : String) (landed : Except RuntimeError Unit)
  | revoke (did : String) (access : AccessScope) (landed : Except RuntimeError Unit)
  | restoreAccess (did : String) (capabilities : List Capability)
      (landed : Except RuntimeError Unit)
  | publish (authorDid : String) (timestamp : ℕ) (faults : Cell.PublishFaults)
  | keyRequest (localDids : List String) (authorDid requesterDid : String)
      (wrappingPubkey : List UInt8) (failure : Option String)

section Runtime
variable {κ : Type}

def Call.apply (draw : ℕ → κ) (s : Cell κ) : Call → Cell κ
  | .subscribe d admittance timestamp landed =>
    (s.subscribeBroadcast d admittance timestamp landed).2
  | .unsubscribe d rotateKeys landed => (s.unsubscribeBroadcast d rotateKeys draw landed).2
  | .leave caller d landed => (s.leaveContext caller d draw landed).2
  | .block a d landed => (s.blockBroadcastSubscriber a d draw landed).2
  | .unblock a d landed => (s.unblockBroadcastSubscriber a d landed).2
  | .revoke d access landed => (s.executeRevoke d access draw landed).2
  | .restoreAccess d capabilities landed => (s.executeRestoreAccess d capabilities landed).2
  | .publish a timestamp faults => (s.publishBroadcastInTurn a timestamp faults).2.2
  | .keyRequest _ _ _ _ _ => s

/-- The context a ban finds after the write part of its revocation. -/
def Cell.afterWrite (s : Cell κ) (d : String) (access : AccessScope) : Cell κ :=
  if Cell.coversWrite access then (s.revokeWrite d).2 else s

/-- The sender keys a call generates. -/
def Call.generates (s : Cell κ) : Call → ℕ
  | .unsubscribe d rotateKeys _ =>
    if s.active then Op.generates s.broadcast (.unsubscribe d rotateKeys) else 0
  | .leave caller d _ =>
    if (s.leaveChecks caller d).isOk then Op.generates s.broadcast (.unsubscribe d true) else 0
  | .block a _ _ => if s.active then blockGenerates s.broadcast a else 0
  | .revoke d access _ =>
    if (s.revokeChecks d).isOk && Cell.coversRead access then
      rotationGenerates (s.afterWrite d access).broadcast
    else 0
  | _ => 0

def Call.granted (s : Cell κ) : Call → List (Grant κ)
  | .keyRequest localDids a d pubkey failure =>
    match s.handleBroadcastKeyRequest localDids a d pubkey failure with
    | .ok (.grant key _ _) => [⟨d, a, key⟩]
    | _ => []
  | _ => []

def Call.seals (s : Cell κ) : Call → List (Sealing κ)
  | .publish a timestamp faults =>
    (s.publishBroadcastInTurn a timestamp faults).1.toList.map (⟨a, ·⟩)
  | _ => []

/-- A cell with its history, as a protocol context has one. -/
structure CellWorld (κ : Type) where
  cell : Cell κ
  made : ℕ
  grants : List (Grant κ)
  sealings : List (Sealing κ)

def CellWorld.protocol (w : CellWorld κ) : World κ :=
  ⟨w.cell.broadcast, w.made, w.grants, w.sealings⟩

def call (gen : ℕ → κ) (w : CellWorld κ) (c : Call) : CellWorld κ :=
  ⟨c.apply (w.protocol.draw gen) w.cell, w.made+c.generates w.cell, w.grants ++ c.granted w.cell,
    w.sealings ++ c.seals w.cell⟩

def calls (gen : ℕ → κ) (w : CellWorld κ) (cs : List Call) : CellWorld κ := cs.foldl (call gen) w

/-- What a publish asks of the protocol: a number, the seal, and the number given back where
either fails. -/
def publishOps (s : Cell κ) (a : String) (timestamp : ℕ) (faults : Cell.PublishFaults) : List Op :=
  if !(faults.keyKind.isOk && (s.reserveChecks a).isOk) then []
  else match s.broadcast.reservePublish a with
    | .error _ => []
    | .ok (pending, reserved) =>
      let rollback := [Op.rollbackReservedPublish a pending.reservedSequence]
      .reservePublish a ::
        (if !((Cell.buildBroadcastSigningPayload reserved.contextId a).isOk &&
            faults.signed.isOk) then rollback
        else .applyReservedPublish a pending.reservedSequence timestamp faults.sealFailure ::
          if (reserved.applyReservedPublish a pending.reservedSequence timestamp
            faults.sealFailure).isOk then [] else rollback)

def Call.ops (s : Cell κ) : Call → List Op
  | .subscribe d admittance timestamp _ =>
    if (s.subscribeChecks d).isOk then [.subscribe d admittance timestamp] else []
  | .unsubscribe d rotateKeys _ => if s.active then [.unsubscribe d rotateKeys] else []
  | .leave caller d _ => if (s.leaveChecks caller d).isOk then [.unsubscribe d true] else []
  | .block a d _ => if s.active then [.blockSubscriber a d] else []
  | .unblock a d _ => if s.active then [.unblockSubscriber a d] else []
  | .revoke d access _ =>
    if (s.revokeChecks d).isOk then
      (if Cell.coversWrite access then [.blockAuthor d] else []) ++
        if Cell.coversRead access then [.governanceBanSubscriber d] else []
    else []
  | .restoreAccess d capabilities _ =>
    if (s.restoreChecks d capabilities).isOk && Capability.messagesRead ∈ capabilities then
      [.governanceUnbanSubscriber d]
    else []
  | .publish a timestamp faults => publishOps s a timestamp faults
  | .keyRequest localDids a d pubkey failure =>
    if a ∈ localDids && d ∉ s.broadcast.bannedSubscribers && d ∉ s.readExclusionList then
      [.handleKeyRequest a d pubkey failure]
    else []

variable {gen : ℕ → κ} {w : CellWorld κ}

theorem Cell.checked_of_ok {α : Type} {s : Cell κ} {checks : Except RuntimeError Unit}
    {next : Cell κ → Outcome κ α} (h : checks.isOk = true) : s.checked checks next = next s := by
  cases checks with
  | error e => cases h
  | ok _ => rfl

theorem Cell.checked_of_not_ok {α : Type} {s : Cell κ} {checks : Except RuntimeError Unit}
    {next : Cell κ → Outcome κ α} (h : checks.isOk = false) : (s.checked checks next).2 = s := by
  cases checks with
  | error e => rfl
  | ok _ => cases h

theorem requireActive_isOk (s : Cell κ) : s.requireActive.isOk = s.active := by
  cases h : s.active <;> simp [Cell.requireActive, require, h, Except.isOk, Except.toBool]

section Spec
variable (s : Cell κ) (draw : ℕ → κ) (d : String) (landed : Except RuntimeError Unit)

/-- A subscription enters the reader in the roster and in the membership, or nothing. -/
theorem subscribe_cases (admittance : BroadcastContext.Admittance) (timestamp : ℕ) :
    ((s.subscribeBroadcast d admittance timestamp landed).2 = s ∧
      ((s.subscribeChecks d).isOk = true →
        (s.broadcast.subscribe d admittance timestamp).isOk = false)) ∨
    ((s.subscribeChecks d).isOk = true ∧ ∃ epochs broadcast,
      s.broadcast.subscribe d admittance timestamp = .ok (epochs, broadcast) ∧
      (s.subscribeBroadcast d admittance timestamp landed).2 =
        { s with broadcast }.addMember d ⟨"subscriber", [], 0⟩) := by
  unfold Cell.subscribeBroadcast
  cases hok : (s.subscribeChecks d).isOk with
  | false =>
    rw [Cell.checked_of_not_ok hok]
    exact Or.inl ⟨rfl, fun h => by cases h⟩
  | true =>
    rw [Cell.checked_of_ok hok]
    cases hsub : s.broadcast.subscribe d admittance timestamp with
    | error e => exact Or.inl ⟨rfl, fun _ => rfl⟩
    | ok r => exact Or.inr ⟨rfl, r.1, r.2, rfl, rfl⟩

/-- An unsubscription that the protocol takes up is followed in the membership where the
protocol's part succeeds. -/
theorem unsubscribe_cases (rotateKeys : Bool) :
    (s.active = false ∧ (s.unsubscribeBroadcast d rotateKeys draw landed).2 = s) ∨
    (s.active = true ∧
      (s.unsubscribeBroadcast d rotateKeys draw landed).2 = { s with
        broadcast := (s.broadcast.unsubscribe d rotateKeys draw).2
        membership := if (s.broadcast.unsubscribe d rotateKeys draw).1.isOk then
          s.membership.removeKey d else s.membership }) := by
  unfold Cell.unsubscribeBroadcast
  cases hactive : s.active with
  | false =>
    rw [Cell.checked_of_not_ok ((requireActive_isOk s).trans hactive)]
    exact Or.inl ⟨rfl, rfl⟩
  | true =>
    rw [Cell.checked_of_ok ((requireActive_isOk s).trans hactive)]
    refine Or.inr ⟨rfl, ?_⟩
    cases h : (s.broadcast.unsubscribe d rotateKeys draw).1 <;>
      simp [Outcome.andThen, Except.mapError, Except.isOk, Except.toBool, h, hactive]

/-- A leave follows the protocol's unsubscription, and where nothing but an unknown reader
stands in its way the member is removed. -/
theorem leave_cases (caller : String) :
    ((s.leaveChecks caller d).isOk = false ∧ (s.leaveContext caller d draw landed).2 = s) ∨
    ((s.leaveChecks caller d).isOk = true ∧
      (s.leaveContext caller d draw landed).2.broadcast = (s.broadcast.unsubscribe d true draw).2 ∧
      (s.leaveContext caller d draw landed).2.membership =
        if (unlessNotFound [] (s.broadcast.unsubscribe d true draw).1).isOk then
          s.membership.removeKey d else s.membership) := by
  unfold Cell.leaveContext
  cases hok : (s.leaveChecks caller d).isOk with
  | false =>
    rw [Cell.checked_of_not_ok hok]
    exact Or.inl ⟨rfl, rfl⟩
  | true =>
    rw [Cell.checked_of_ok hok]
    dsimp only
    refine Or.inr ⟨rfl, ?_⟩
    cases hleft : unlessNotFound [] (s.broadcast.unsubscribe d true draw).1 with
    | error e => exact ⟨rfl, rfl⟩
    | ok rotated =>
      rw [Outcome.andThen_of_ok rfl]
      dsimp only
      cases hmember : s.membership.contains d with
      | false =>
        refine ⟨rfl, ?_⟩
        have hnone := (get_eq_none_iff _ _).mpr ((contains_eq_false_iff _ _).mp hmember)
        rw [Cell.removeKey_of_get_none hnone]
        simp
      | true => exact ⟨rfl, rfl⟩

theorem leave_ok {caller : String} (h : (s.leaveContext caller d draw landed).1 = .ok ()) :
    (s.leaveChecks caller d).isOk = true ∧
    (unlessNotFound [] (s.broadcast.unsubscribe d true draw).1).isOk = true ∧
    s.membership.contains d = true := by
  rw [Cell.leaveContext, Cell.checked_fst_ok_iff] at h
  obtain ⟨hchecks, h⟩ := h
  refine ⟨by rw [hchecks]; rfl, ?_⟩
  dsimp only at h
  cases hleft : unlessNotFound [] (s.broadcast.unsubscribe d true draw).1 with
  | error e =>
    simp only [Outcome.andThen, hleft] at h
    cases h
  | ok rotated =>
    rw [Outcome.andThen_of_ok hleft] at h
    refine ⟨rfl, ?_⟩
    by_contra hnot
    rw [Bool.not_eq_true] at hnot
    simp only [hnot] at h
    cases h

theorem block_cell (a : String) :
    (s.blockBroadcastSubscriber a d draw landed).2 =
      if s.active then { s with broadcast := (s.broadcast.blockSubscriber a d draw).2 } else s := by
  unfold Cell.blockBroadcastSubscriber
  cases hactive : s.active with
  | false => rw [Cell.checked_of_not_ok ((requireActive_isOk s).trans hactive)]; rfl
  | true =>
    rw [Cell.checked_of_ok ((requireActive_isOk s).trans hactive)]
    cases h : (s.broadcast.blockSubscriber a d draw).1 <;>
      simp [Outcome.andThen, Except.mapError, h, hactive]

theorem unblock_cell (a : String) :
    (s.unblockBroadcastSubscriber a d landed).2 =
      if s.active then
        { s with
          broadcast := keptUnless s.broadcast ((s.broadcast.unblockSubscriber a d).map Prod.snd) }
      else s := by
  unfold Cell.unblockBroadcastSubscriber
  by_cases hactive : s.active = true
  · rw [Cell.checked_of_ok ((requireActive_isOk s).trans hactive), if_pos hactive]
    cases s.broadcast.unblockSubscriber a d <;> rfl
  · have hfail := (requireActive_isOk s).trans (Bool.not_eq_true _ ▸ hactive)
    rw [Cell.checked_of_not_ok hfail, if_neg hactive]

theorem revoke_cell (access : AccessScope) :
    (s.executeRevoke d access draw landed).2 =
      if (s.revokeChecks d).isOk then
        if Cell.coversRead access then ((s.afterWrite d access).revokeRead d draw).2
        else s.afterWrite d access
      else s := by
  unfold Cell.executeRevoke
  cases hok : (s.revokeChecks d).isOk with
  | false => rw [Cell.checked_of_not_ok hok]; rfl
  | true =>
    rw [Cell.checked_of_ok hok, if_pos rfl]
    have hwrite : (if Cell.coversWrite access = true then s.revokeWrite d else (.ok (), s)) =
        ((.ok (), s.afterWrite d access) : Outcome κ Unit) := by
      unfold Cell.afterWrite
      split
      · rw [Cell.revokeWrite_eq]
      · rfl
    rw [hwrite, Outcome.andThen_of_ok rfl]
    cases Cell.coversRead access with
    | false => rfl
    | true =>
      simp only [if_true]
      cases h : ((s.afterWrite d access).revokeRead d draw).1 <;> simp [Outcome.andThen, h]

theorem restore_cell (capabilities : List Capability) :
    (s.executeRestoreAccess d capabilities landed).2.membership = s.membership ∧
    (s.executeRestoreAccess d capabilities landed).2.broadcast =
      if (s.restoreChecks d capabilities).isOk && Capability.messagesRead ∈ capabilities then
        s.broadcast.governanceUnbanSubscriber d
      else s.broadcast := by
  unfold Cell.executeRestoreAccess
  cases hok : (s.restoreChecks d capabilities).isOk with
  | false =>
    rw [Cell.checked_of_not_ok hok]
    exact ⟨rfl, rfl⟩
  | true =>
    rw [Cell.checked_of_ok hok]
    by_cases hread : Capability.messagesRead ∈ capabilities <;> simp [hread]

end Spec

@[simp] theorem isOk_ok {ε α : Type} (a : α) : (Except.ok a : Except ε α).isOk = true := rfl

@[simp] theorem isOk_error {ε α : Type} (e : ε) : (Except.error e : Except ε α).isOk = false := rfl

theorem step_reservePublish {w : World κ} {a : String} {pending : BroadcastPublishReservation}
    {c : BroadcastContext κ} (h : w.ctx.reservePublish a = .ok (pending, c)) :
    step gen w (.reservePublish a) = { w with ctx := c } := by
  simp [step, Op.apply, Op.generates, Op.granted, Op.seals, keptUnless, h, Except.map,
    Except.toOption]

theorem step_rollbackReservedPublish (w : World κ) (a : String) (sequence : ℕ) :
    step gen w (.rollbackReservedPublish a sequence) =
      { w with ctx := w.ctx.rollbackReservedPublish a sequence } := by
  simp [step, Op.apply, Op.generates, Op.granted, Op.seals]

theorem step_applyReservedPublish (w : World κ) (a : String) (sequence timestamp : ℕ)
    (failure : Option String) :
    step gen w (.applyReservedPublish a sequence timestamp failure) =
      { w with sealings := w.sealings ++
        sealing a (w.ctx.applyReservedPublish a sequence timestamp failure) } := by
  simp [step, Op.apply, Op.generates, Op.granted, Op.seals]

/-- A publish goes through the protocol's reservation, seal and rollback. -/
theorem publish_protocol (gen : ℕ → κ) (w : CellWorld κ) (a : String) (timestamp : ℕ)
    (faults : Cell.PublishFaults) :
    run gen w.protocol (publishOps w.cell a timestamp faults) =
      ⟨(w.cell.publishBroadcastInTurn a timestamp faults).2.2.broadcast, w.made, w.grants,
        w.sealings ++
          (w.cell.publishBroadcastInTurn a timestamp faults).1.toList.map (⟨a, ·⟩)⟩ := by
  unfold publishOps Cell.publishBroadcastInTurn Cell.reservePublish Cell.checked
  -- One case for each place the publish can stop at.
  cases hkind : faults.keyKind with
  | error e => simp [Outcome.andThen, run, CellWorld.protocol]
  | ok _ =>
  cases hchecks : w.cell.reserveChecks a with
  | error e => simp [Outcome.andThen, hchecks, run, CellWorld.protocol]
  | ok _ =>
  cases hres : w.cell.broadcast.reservePublish a with
  | error e => simp [Outcome.andThen, hchecks, hres, run, CellWorld.protocol]
  | ok r =>
  obtain ⟨pending, reserved⟩ := r
  have hstep : step gen ⟨w.cell.broadcast, w.made, w.grants, w.sealings⟩ (.reservePublish a) =
      ⟨reserved, w.made, w.grants, w.sealings⟩ := step_reservePublish hres
  cases hbuilt : Cell.buildBroadcastSigningPayload reserved.contextId a with
  | error e =>
    simp [Outcome.andThen, hchecks, hres, hbuilt, run, hstep, step_rollbackReservedPublish,
      CellWorld.protocol, Cell.releaseReserved]
  | ok _ =>
  cases hsigned : faults.signed with
  | error e =>
    simp [Outcome.andThen, hchecks, hres, hbuilt, run, hstep, step_rollbackReservedPublish,
      CellWorld.protocol, Cell.releaseReserved, Except.bind]
  | ok _ =>
  have hactive : w.cell.active = true := by
    simp only [Cell.reserveChecks, bind_ok_iff, exists_unit_iff,
      Cell.requireActive_ok_iff] at hchecks
    exact hchecks.1
  have hseal : ({ w.cell with broadcast := reserved } : Cell κ).sealReserved a
      pending.reservedSequence timestamp faults.sealFailure =
        (reserved.applyReservedPublish a pending.reservedSequence timestamp
          faults.sealFailure).mapError .context := by
    simp only [Cell.sealReserved, Cell.requireActive, require, hactive, if_true]
    rfl
  cases happly : reserved.applyReservedPublish a pending.reservedSequence timestamp
      faults.sealFailure with
  | error e =>
    simp [Outcome.andThen, hchecks, hres, hbuilt, hseal, happly, run, hstep,
      step_rollbackReservedPublish, step_applyReservedPublish, CellWorld.protocol,
      Cell.releaseReserved, Except.bind, Except.mapError, Except.toOption, sealing]
  | ok envelope =>
    cases hmember : w.cell.membership.contains a <;>
      simp [Outcome.andThen, hchecks, hres, hbuilt, hseal, happly, run, hstep, hmember,
        step_applyReservedPublish, CellWorld.protocol, Except.bind, Except.mapError,
        Except.toOption, sealing, Cell.nextSequenceNumber]

/-- The runtime asks the protocol of a reader it does not bar itself. -/
theorem keyRequest_granted (s : Cell κ) (localDids : List String) (a d : String)
    (pubkey : List UInt8) (failure : Option String) :
    Call.granted s (.keyRequest localDids a d pubkey failure) =
      if a ∈ localDids && d ∉ s.broadcast.bannedSubscribers && d ∉ s.readExclusionList then
        Op.granted s.broadcast (.handleKeyRequest a d pubkey failure)
      else [] := by
  unfold Call.granted Cell.handleBroadcastKeyRequest
  by_cases hlocal : a ∈ localDids
  · by_cases hban : d ∈ s.broadcast.bannedSubscribers
    · simp [require, hlocal, hban, bind, Except.bind, pure, Except.pure]
    · by_cases hexcluded : d ∈ s.readExclusionList
      · simp [require, hlocal, hban, hexcluded, bind, Except.bind, pure, Except.pure]
      · simp only [require, hlocal, hban, hexcluded, bind, Except.bind, pure, Except.pure,
          decide_true, if_true, if_false, Op.granted, not_false_eq_true, Bool.and_self]
        cases s.broadcast.handleKeyRequest a d pubkey failure <;> rfl
  · simp [require, hlocal, bind, Except.bind]

theorem protocol_of_still {c : Call}
    (hctx : (c.apply (w.protocol.draw gen) w.cell).broadcast = w.cell.broadcast)
    (hmade : c.generates w.cell = 0) (hgrants : c.granted w.cell = [])
    (hseals : c.seals w.cell = []) : (call gen w c).protocol = w.protocol := by
  simp only [CellWorld.protocol, call] at hctx ⊢
  rw [hctx, hmade, hgrants, hseals, Nat.add_zero, List.append_nil, List.append_nil]

theorem protocol_of_step {c : Call} {op : Op}
    (hctx : (c.apply (w.protocol.draw gen) w.cell).broadcast =
      op.apply (w.protocol.draw gen) w.cell.broadcast)
    (hmade : c.generates w.cell = op.generates w.cell.broadcast)
    (hgrants : c.granted w.cell = op.granted w.cell.broadcast)
    (hseals : c.seals w.cell = op.seals w.cell.broadcast) :
    (call gen w c).protocol = step gen w.protocol op := by
  simp only [CellWorld.protocol, call] at hctx ⊢
  rw [hctx, hmade, hgrants, hseals]
  rfl

theorem step_blockAuthor (gen : ℕ → κ) (w : CellWorld κ) (d : String) :
    step gen w.protocol (.blockAuthor d) =
      ⟨(w.cell.revokeWrite d).2.broadcast, w.made, w.grants, w.sealings⟩ := by
  simp only [step, Op.generates, Op.granted, Op.seals, Nat.add_zero, List.append_nil]
  rfl

/-- A revocation removes the author and then bans the reader, as far as its scope goes. -/
theorem revoke_protocol (gen : ℕ → κ) (w : CellWorld κ) (d : String) (access : AccessScope)
    (landed : Except RuntimeError Unit) :
    (call gen w (.revoke d access landed)).protocol =
      run gen w.protocol (Call.ops w.cell (.revoke d access landed)) := by
  have hcell := revoke_cell w.cell (w.protocol.draw gen) d landed access
  rw [Call.ops]
  cases hok : (w.cell.revokeChecks d).isOk with
  | false =>
    rw [hok] at hcell
    exact protocol_of_still (by rw [Call.apply, hcell]; rfl) (by simp [Call.generates, hok]) rfl rfl
  | true =>
    rw [hok] at hcell
    cases access with
    | read =>
      change _ = step gen w.protocol (.governanceBanSubscriber d)
      refine protocol_of_step ?_ ?_ rfl rfl
      · rw [Call.apply, hcell]
        rfl
      · simp [Call.generates, hok, Cell.coversRead, Op.generates, Cell.afterWrite, Cell.coversWrite]
    | write =>
      change _ = step gen w.protocol (.blockAuthor d)
      refine protocol_of_step ?_ ?_ rfl rfl
      · rw [Call.apply, hcell]
        rfl
      · simp [Call.generates, Cell.coversRead, Op.generates]
    | both =>
      have hrun : run gen w.protocol ([.blockAuthor d] ++ [.governanceBanSubscriber d]) =
          step gen (step gen w.protocol (.blockAuthor d)) (.governanceBanSubscriber d) := rfl
      simp only [Cell.coversWrite, Cell.coversRead, if_true]
      rw [hrun, step_blockAuthor]
      simp only [CellWorld.protocol, call, Call.apply] at hcell ⊢
      rw [hcell]
      simp [Call.generates, hok, Cell.coversRead, Op.generates, Cell.afterWrite,
        Cell.coversWrite, step, Call.granted, Call.seals, Op.granted, Op.seals]
      rfl

/-- Each call takes the context through its protocol operations, and generates, grants and
seals what they do. -/
theorem call_protocol (gen : ℕ → κ) (w : CellWorld κ) (c : Call) :
    (call gen w c).protocol = run gen w.protocol (c.ops w.cell) := by
  cases c with
  | subscribe d admittance timestamp landed =>
    rw [Call.ops]
    rcases subscribe_cases w.cell d landed admittance timestamp with
      ⟨h, hfail⟩ | ⟨hok, epochs, broadcast, hsub, h⟩
    · have hstill : (call gen w (.subscribe d admittance timestamp landed)).protocol =
          w.protocol := protocol_of_still (by rw [Call.apply, h]) rfl rfl rfl
      rw [hstill]
      cases hok : (w.cell.subscribeChecks d).isOk with
      | false => rfl
      | true =>
        have hkept : Op.apply (w.protocol.draw gen) w.protocol.ctx
            (.subscribe d admittance timestamp) = w.protocol.ctx := by
          have hfail := hfail hok
          dsimp only [Op.apply, CellWorld.protocol, keptUnless]
          cases hsub : w.cell.broadcast.subscribe d admittance timestamp with
          | error e => rfl
          | ok r =>
            rw [hsub] at hfail
            cases hfail
        simp only [if_true, run, List.foldl_cons, List.foldl_nil, step, hkept, Op.generates,
          Op.granted, Op.seals, Nat.add_zero, List.append_nil]
    · rw [if_pos hok]
      refine protocol_of_step ?_ rfl rfl rfl
      rw [Call.apply, h, Op.apply, hsub]
      rfl
  | unsubscribe d rotateKeys landed =>
    rw [Call.ops]
    rcases unsubscribe_cases w.cell (w.protocol.draw gen) d landed rotateKeys with
      ⟨hactive, h⟩ | ⟨hactive, h⟩
    · rw [hactive]
      exact protocol_of_still (by rw [Call.apply, h]) (by simp [Call.generates, hactive]) rfl rfl
    · rw [if_pos hactive]
      refine protocol_of_step ?_ ?_ rfl rfl
      · rw [Call.apply, h]
        rfl
      · rw [Call.generates, if_pos hactive]
  | leave caller d landed =>
    rw [Call.ops]
    rcases leave_cases w.cell (w.protocol.draw gen) d landed caller with ⟨hok, h⟩ | ⟨hok, h, -⟩
    · rw [hok]
      exact protocol_of_still (by rw [Call.apply, h]) (by simp [Call.generates, hok]) rfl rfl
    · rw [if_pos hok]
      refine protocol_of_step ?_ ?_ rfl rfl
      · rw [Call.apply, h]
        rfl
      · rw [Call.generates, if_pos hok]
  | block a d landed =>
    rw [Call.ops]
    cases hactive : w.cell.active with
    | false =>
      refine protocol_of_still ?_ (by simp [Call.generates, hactive]) rfl rfl
      rw [Call.apply, block_cell, hactive]
      rfl
    | true =>
      refine protocol_of_step ?_ (by simp [Call.generates, hactive, Op.generates]) rfl rfl
      rw [Call.apply, block_cell, hactive]
      rfl
  | unblock a d landed =>
    rw [Call.ops]
    cases hactive : w.cell.active with
    | false =>
      refine protocol_of_still ?_ rfl rfl rfl
      rw [Call.apply, unblock_cell, hactive]
      rfl
    | true =>
      refine protocol_of_step ?_ rfl rfl rfl
      rw [Call.apply, unblock_cell, hactive]
      rfl
  | revoke d access landed => exact revoke_protocol gen w d access landed
  | restoreAccess d capabilities landed =>
    rw [Call.ops]
    obtain ⟨-, h⟩ := restore_cell w.cell d landed capabilities
    by_cases hread : ((w.cell.restoreChecks d capabilities).isOk &&
        Capability.messagesRead ∈ capabilities) = true
    · rw [if_pos hread] at h ⊢
      exact protocol_of_step h rfl rfl rfl
    · rw [if_neg hread] at h ⊢
      exact protocol_of_still h rfl rfl rfl
  | publish a timestamp faults =>
    rw [Call.ops, publish_protocol]
    simp [CellWorld.protocol, call, Call.apply, Call.generates, Call.granted, Call.seals]
  | keyRequest localDids a d pubkey failure =>
    have hgranted := keyRequest_granted w.cell localDids a d pubkey failure
    rw [Call.ops]
    by_cases hasked : (a ∈ localDids && d ∉ w.cell.broadcast.bannedSubscribers &&
        d ∉ w.cell.readExclusionList) = true
    · rw [if_pos hasked] at hgranted ⊢
      exact protocol_of_step rfl rfl hgranted rfl
    · rw [if_neg hasked] at hgranted ⊢
      exact protocol_of_still rfl rfl hgranted rfl

end Runtime

end ScpCore.Broadcast
