import ScpCore.SagaParticipants

/-! The two actors in the commit phase. The caller's reservation is not given back, and the
event log follows the commit witness when nothing falls between the two writes. -/

namespace ScpCore.CrossContext

open Prog Actor PerContextState

namespace LogsFollow
variable {env : Env Op} {event : LogEvent}

theorem append_cut (h : LogsFollow env) (he : event ≠ .crossContextDivergenceMarker) {c : Cut} :
    ¬ ∃ n, env n (.append event) = c.fate := by
  rintro ⟨n, hn⟩
  cases c with
  | down => exact (h n event he).1 hn
  | crash => exact (h n event he).2.1 hn

theorem repersist_refused (h : LogsFollow env) (he : event ≠ .crossContextDivergenceMarker) :
    ¬ ∃ n, (env n (.repersist event)).Refuses := by
  rintro ⟨n, hn⟩
  simp [(h n event he).2.2, Fate.Refuses] at hn

theorem repersist_cut (h : LogsFollow env) (he : event ≠ .crossContextDivergenceMarker) {c : Cut} :
    ¬ ∃ n, env n (.repersist event) = c.fate := by
  rintro ⟨n, hn⟩
  rw [(h n event he).2.2] at hn
  cases c with
  | down => exact absurd hn (by simp [Cut.fate])
  | crash => exact absurd hn (by simp [Cut.fate])

end LogsFollow

theorem invoked_act_record (a : ContextActor) (event other : LogEvent) :
    invoked event (a.act (Outside.record other)) =
      invoked event a + if other = event then 1 else 0 := by
  simp [invoked, act, Outside.record, List.count_singleton]

/-- The snapshot of a caller whose reservation stands. -/
structure Kept (env : Env Op) (a : ContextActor) : Prop where
  unreversed : CapturesPayments env → a.mem.reversed = 0 ∧ a.disk.reversed = 0
  logged : LogsFollow env →
    invoked .crossContextOutletInvoked a = a.disk.committedInvocation.toNat

structure Paying (env : Env Op) (a : ContextActor) : Prop extends Kept env a where
  synced : LogsFollow env → a.mem.committedInvocation = a.disk.committedInvocation

def Unspent (a : ContextActor) : Prop :=
  a.mem.committedInvocation = false ∧ a.disk.committedInvocation = false

/-- The witness is in memory and in the snapshot. -/
def Recorded (env : Env Op) (a : ContextActor) : Prop :=
  LogsFollow env → a.mem.committedInvocation = true ∧ a.disk.committedInvocation = true

section Caller
variable {env : Env Op} {outlet : Outlet} {a : ContextActor}

theorem Paying.flush (h : Paying env a) : Paying env a.flush :=
  ⟨⟨fun hp => ⟨(h.unreversed hp).1, (h.unreversed hp).1⟩, fun hl => by
    change invoked _ a = a.mem.committedInvocation.toNat
    rw [h.synced hl]
    exact h.logged hl⟩, fun _ => rfl⟩

theorem Kept.respawn (h : Kept env a) : Paying env a.respawn :=
  ⟨⟨fun hp => ⟨(h.unreversed hp).2, (h.unreversed hp).2⟩, h.logged⟩, fun _ => rfl⟩

/-- Settling leaves the witness and the log as they are; it may write the snapshot. -/
structure Alike (env : Env Op) (a b : ContextActor) : Prop where
  witness : b.mem.committedInvocation = a.mem.committedInvocation
  books : CapturesPayments env → b.mem.reversed = a.mem.reversed
  disk : b.disk = a.disk ∨ b.disk = b.mem
  log : b.outside.log = a.outside.log
  inbox : b.inbox = a.inbox

theorem Alike.paying {b : ContextActor} (h : Alike env a b) (hp : Paying env a) : Paying env b := by
  have hinv : invoked .crossContextOutletInvoked b = invoked .crossContextOutletInvoked a := by
    rw [invoked, invoked, h.log]
  have hmem (hc : CapturesPayments env) : b.mem.reversed = 0 :=
    (h.books hc).trans (hp.unreversed hc).1
  obtain hd | hd := h.disk
  · refine ⟨⟨fun hc => ⟨hmem hc, ?_⟩, fun hl => ?_⟩, fun hl => ?_⟩
    · rw [hd]
      exact (hp.unreversed hc).2
    · rw [hinv, hd]
      exact hp.logged hl
    · rw [h.witness, hd]
      exact hp.synced hl
  · refine ⟨⟨fun hc => ⟨hmem hc, ?_⟩, fun hl => ?_⟩, fun hl => ?_⟩
    · rw [hd]
      exact hmem hc
    · rw [hinv, hd, h.witness, hp.synced hl]
      exact hp.logged hl
    · rw [hd]

theorem Alike.unspent {b : ContextActor} (h : Alike env a b) (hu : Unspent a) : Unspent b := by
  have hmem := h.witness.trans hu.1
  obtain hd | hd := h.disk
  · exact ⟨hmem, hd ▸ hu.2⟩
  · exact ⟨hmem, hd ▸ hmem⟩

theorem wp_settleOutletEconomy (ticket : Ticket) :
    wp env (settleOutletEconomy outlet ticket) (fun _ => Alike env a) (fun _ => Alike env a)
      (fun _ => Alike env a) a := by
  have hself : Alike env a a := ⟨rfl, fun _ => rfl, .inl rfl, rfl, rfl⟩
  -- Only a capture that is refused gives the reservation back.
  have hcapture : wp env (settleOutletEconomyCapture ticket)
      (fun _ => Alike env a) (fun _ => Alike env a) (fun _ => Alike env a) a := by
    rw [settleOutletEconomyCapture]
    split
    · apply wp_bind
      apply wp_attempt
      · intro _
        apply wp_bind
        apply wp_modify
        exact wp_pure ⟨rfl, fun _ => rfl, .inl rfl, rfl, rfl⟩
      · rintro ⟨n, hn⟩
        apply wp_bind
        apply wp_modify
        exact wp_pure ⟨rfl, fun hc => absurd hn (hc n), .inl rfl, rfl, rfl⟩
      · intro _ _
        exact hself
    · apply wp_bind
      apply wp_modify
      exact wp_pure ⟨rfl, fun _ => rfl, .inl rfl, rfl, rfl⟩
  apply wp_bind
  apply wp_get
  by_cases hg : ticket.generation = a.generation
  · rw [if_pos hg]
    apply wp_bind
    apply wp_mono hcapture _ (fun _ _ h => h) (fun _ _ h => h)
    intro captured b hb
    have hanswer (b : ContextActor) (hb : Alike env a b) :
        wp env (if captured = true then pure () else fail .permissionDenied : Handler Unit)
          (fun _ => Alike env a) (fun _ => Alike env a) (fun _ => Alike env a) b := by
      split
      · exact wp_pure hb
      · exact wp_fail hb
    by_cases hd : outlet.demotes = true
    · rw [if_pos hd]
      apply wp_bind
      apply wp_persist
      · intro _
        exact hanswer _ ⟨hb.witness, hb.books, .inr rfl, hb.log, hb.inbox⟩
      · intro _
        exact wp_fail hb
      · intro _ _
        exact hb
    · rw [if_neg hd]
      exact hanswer b hb
  · rw [if_neg hg]
    exact wp_fail hself

theorem wp_commitAFinalize (hmem : a.mem.committedInvocation = true)
    (hdisk : a.disk.committedInvocation = true)
    (hrev : CapturesPayments env → a.mem.reversed = 0 ∧ a.disk.reversed = 0)
    (hlog : LogsFollow env → invoked .crossContextOutletInvoked a = 0) :
    wp env commitAFinalize (fun _ b => Paying env b ∧ Recorded env b ∧ b.inbox = a.inbox)
      (fun _ b => Paying env b ∧ b.inbox = a.inbox) (fun _ => Kept env) a := by
  apply wp_bind
  apply wp_attempt
  · intro _
    refine wp_modify ⟨⟨⟨hrev, fun hl => ?_⟩, fun _ => hmem.trans hdisk.symm⟩,
      fun _ => ⟨hmem, hdisk⟩, rfl⟩
    rw [invoked_act_record, hlog hl, if_pos rfl]
    exact (congrArg Bool.toNat hdisk).symm
  · intro _
    apply wp_bind
    apply wp_commitKeep
    · intro _
      exact wp_fail ⟨⟨⟨fun hc => ⟨(hrev hc).1, (hrev hc).1⟩, hlog⟩, fun _ => rfl⟩, rfl⟩
    · intro hn
      have hnot : ¬ LogsFollow env := fun hl => hl.repersist_refused (by simp) hn
      exact wp_fail ⟨⟨⟨hrev, fun hl => absurd hl hnot⟩, fun hl => absurd hl hnot⟩, rfl⟩
    · intro c hc
      exact ⟨hrev, fun hl => absurd hc (hl.repersist_cut (by simp))⟩
  · intro c hc
    exact ⟨hrev, fun hl => absurd hc (hl.append_cut (by simp))⟩

theorem wp_commitA (h : Paying env a) (hu : Unspent a)
    (ticket : Ticket) :
    wp env (commitA outlet ticket) (fun _ b => Paying env b ∧ Recorded env b ∧ b.inbox = a.inbox)
      (fun _ b => Paying env b ∧ b.inbox = a.inbox) (fun _ => Kept env) a := by
  apply wp_bind
  apply wp_get
  rw [if_neg (by simp [hu.1])]
  apply wp_bind
  apply wp_mono (wp_settleOutletEconomy ticket)
  · intro _ b hab
    have hb := hab.paying h
    have hub := hab.unspent hu
    apply wp_bind
    apply wp_commitRestore
    · intro _
      refine wp_mono (wp_commitAFinalize rfl rfl
        (fun hc => ⟨(hb.unreversed hc).1, (hb.unreversed hc).1⟩) (fun hl => ?_))
        (fun _ _ h => ⟨h.1, h.2.1, h.2.2.trans hab.inbox⟩)
        (fun _ _ h => ⟨h.1, h.2.trans hab.inbox⟩) (fun _ _ h => h)
      have hcount := hb.logged hl
      rw [hub.2] at hcount
      exact hcount
    · intro _
      exact wp_fail ⟨⟨⟨hb.unreversed, hb.logged⟩, hb.synced⟩, hab.inbox⟩
    · intro _ _
      exact ⟨hb.unreversed, hb.logged⟩
  · intro _ b hab
    exact ⟨hab.paying h, hab.inbox⟩
  · intro _ b hab
    exact (hab.paying h).toKept

/-- A message that leaves the books of the caller alone. -/
def Acks (m : SagaPhaseMessage) : Prop := m = .commitACheckWitness ∨ m = .emitDivergenceMarker

/-- Commit-A is sent once, before the others. -/
inductive CommitQueue (a : ContextActor) : List SagaPhaseMessage → Prop
  | acks {ms : List SagaPhaseMessage} (h : ∀ m ∈ ms, Acks m) : CommitQueue a ms
  | carrier {ticket : Ticket} {ms : List SagaPhaseMessage} (hu : Unspent a) (h : ∀ m ∈ ms, Acks m) :
      CommitQueue a (.commitA ticket :: ms)

def Awaiting (env : Env Op) (a : ContextActor) : Prop := Paying env a ∧ CommitQueue a a.inbox

/-- The caller has handled what it was sent. -/
def Settled (env : Env Op) (P : ContextActor → Prop) (a : ContextActor) : Prop :=
  Paying env a ∧ P a ∧ a.inbox = []

theorem CommitQueue.flush {ms : List SagaPhaseMessage} (h : CommitQueue a ms) :
    CommitQueue a.flush ms := by
  cases h with
  | acks h => exact .acks h
  | carrier hu h => exact .carrier ⟨hu.1, hu.1⟩ h

theorem CommitQueue.enqueue {ms : List SagaPhaseMessage} {m : SagaPhaseMessage}
    (h : CommitQueue a ms) (hm : Acks m) : CommitQueue (a.enqueue m) (ms ++ [m]) := by
  have hsnoc (ms : List SagaPhaseMessage) (h : ∀ x ∈ ms, Acks x) : ∀ x ∈ ms ++ [m], Acks x := by
    intro x hx
    obtain hx | hx := List.mem_append.1 hx
    · exact h x hx
    · rw [List.mem_singleton.1 hx]
      exact hm
  cases h with
  | acks h => exact .acks (hsnoc _ h)
  | carrier hu h => exact .carrier hu (hsnoc _ h)

theorem Paying.congr {b : ContextActor} (h : Paying env a) (hmem : b.mem = a.mem)
    (hdisk : b.disk = a.disk)
    (hlog : invoked .crossContextOutletInvoked b = invoked .crossContextOutletInvoked a) :
    Paying env b := by
  refine ⟨⟨?_, fun hl => ?_⟩, fun hl => ?_⟩
  · rw [hmem, hdisk]
    exact h.unreversed
  · rw [hlog, hdisk]
    exact h.logged hl
  · rw [hmem, hdisk]
    exact h.synced hl

theorem steady_awaiting : Steady (Awaiting env) where
  flush _ h := ⟨h.1.flush, h.2.flush⟩
  respawn _ h := ⟨h.1.toKept.respawn, .acks (by simp [Actor.respawn])⟩

theorem steady_settled {P : ContextActor → Prop} (hP : ∀ a, Paying env a → P a → P a.flush ∧ P a.respawn) :
    Steady (Settled env P) where
  flush a h := ⟨h.1.flush, (hP a h.1 h.2.1).1, h.2.2⟩
  respawn a h := ⟨h.1.toKept.respawn, (hP a h.1 h.2.1).2, rfl⟩

theorem steady_recorded : Steady (Settled env (Recorded env)) :=
  steady_settled (fun _ _ h => ⟨fun hl => ⟨(h hl).1, (h hl).1⟩, fun hl => ⟨(h hl).2, (h hl).2⟩⟩)

theorem Settled.awaiting {P : ContextActor → Prop} (h : Settled env P a) : Awaiting env a :=
  ⟨h.1, h.2.2 ▸ .acks (by simp)⟩

/-- The marker is written to the log first and then persisted. -/
theorem wp_emitDivergenceMarker {party : Party} {P : ContextActor → Prop}
    (hmarked : P (a.act (Outside.record .crossContextDivergenceMarker)))
    (hflush : P (a.act (Outside.record .crossContextDivergenceMarker)).flush) (h : P a) :
    wp env (emitDivergenceMarker party) (fun _ => P) (fun _ => P) (fun _ => P) a := by
  apply wp_bind
  apply wp_attemptOr
  · intro _
    apply wp_bind
    apply wp_attempt
    · intro _
      apply wp_bind
      apply wp_modify
      apply wp_bind
      apply wp_persist
      · intro _
        exact wp_pure hflush
      · intro _
        exact wp_fail hmarked
      · intro _ _
        exact hmarked
    · intro _
      exact wp_fail h
    · intro _ _
      exact h
  · intro _
    exact h
  · intro _ _
    exact h

theorem wp_handle_acks {m : SagaPhaseMessage} (hm : Acks m) (h : Paying env a) :
    wp env (handle outlet .caller m) (fun _ b => Paying env b ∧ b.inbox = a.inbox)
      (fun _ b => Paying env b ∧ b.inbox = a.inbox) (fun _ => Kept env) a := by
  obtain hm | hm := hm
  · rw [hm]
    apply wp_bind
    apply wp_get
    exact wp_pure ⟨h, rfl⟩
  · rw [hm]
    have hmarked : Paying env (a.act (Outside.record .crossContextDivergenceMarker)) :=
      h.congr rfl rfl (invoked_act_record ..)
    exact wp_mono (wp_emitDivergenceMarker (P := fun b => Paying env b ∧ b.inbox = a.inbox)
      ⟨hmarked, rfl⟩ ⟨hmarked.flush, rfl⟩ ⟨h, rfl⟩) (fun _ _ h => h) (fun _ _ h => h)
      (fun _ _ h => h.1.toKept)

theorem wp_drain_awaiting {E : ContextError → ContextActor → Prop} (h : Awaiting env a) :
    wp env (drain (.coalesce .caller) (serve outlet .caller) a.inbox)
      (fun _ => Settled env (fun _ => True)) E (fun _ => Kept env) a := by
  apply wp_mono (wp_drain (I := fun ms a => Paying env a ∧ a.inbox = ms ∧ CommitQueue a ms)
    ?_ ?_ ?_ a.inbox a ⟨h.1, rfl, h.2⟩) (fun _ _ h => ⟨h.1, trivial, h.2.1⟩) (fun _ _ h => h)
    (fun _ _ h => h)
  · rintro m ms a ⟨hp, -, hq⟩
    have hp' : Paying env { a with inbox := ms } := hp.congr rfl rfl rfl
    apply wp_serve
    cases hq with
    | acks hm =>
      have hrest : ∀ m ∈ ms, Acks m := fun m hmem => hm m (by simp [hmem])
      exact wp_mono (wp_handle_acks (hm m (by simp)) hp') (fun _ _ h => ⟨h.1, h.2, .acks hrest⟩)
        (fun _ _ h => ⟨h.1, h.2, .acks hrest⟩) (fun _ _ h => h)
    | carrier hu hm =>
      exact wp_mono (wp_commitA hp' hu _) (fun _ _ h => ⟨h.1, h.2.2, .acks hm⟩)
        (fun _ _ h => ⟨h.1, h.2, .acks hm⟩) (fun _ _ h => h)
  · rintro ms a ⟨hp, hi, hq⟩
    exact ⟨hp.flush, hi, hq.flush⟩
  · rintro ms a c ⟨hp, -, -⟩
    exact hp.toKept

theorem wp_deliver_commitA {ticket : Ticket}
    {E : ContextError → ContextActor → Prop} (h : Settled env Unspent a) :
    wp env (deliver outlet .caller (.commitA ticket))
      (Sent (Replied (fun _ => Settled env (Recorded env)) (Settled env (fun _ => True)))
        (Awaiting env) (Settled env Unspent)) E (fun c a => c = .crash ∧ Kept env a) a := by
  have hawaiting (answer : Except ContextError Unit) (a : ContextActor)
      (h : Replied (fun _ => Settled env (Recorded env)) (Settled env (fun _ => True)) answer a) :
      Awaiting env a := replied_imp (fun _ _ h => h.awaiting) (fun _ h => h.awaiting) answer a h
  refine wp_send (Settled env Unspent) (Settled env Unspent) (R := fun _ => Kept env)
    (fun a h => wp_drain_nil h.2.2 h) ?_
    (fun answer a _ _ h => (hawaiting answer a h).1.toKept) (fun a h => h.1.toKept)
    (fun answer a h => (hawaiting answer a h).1.toKept) (fun a h => h.1.toKept)
    (fun a h => ⟨h.respawn, .acks (by simp [Actor.respawn])⟩)
    (fun a _ h => steady_awaiting.respawn a h.awaiting)
    (fun answer a _ h => hawaiting answer a h) ?_ (fun a _ h => h.awaiting) (fun a _ h => h)
    (steady_replied (fun _ => steady_recorded) (steady_settled (fun _ _ _ => ⟨trivial, trivial⟩)))
    steady_awaiting h
  · rintro a ⟨hp, hu, hi⟩
    exact wp_mono (wp_commitA hp hu ticket) (fun _ _ h => ⟨h.1, h.2.1, h.2.2.trans hi⟩)
      (fun _ _ h => ⟨h.1, trivial, h.2.trans hi⟩) (fun _ _ h => h)
  · rintro a - ⟨hp, hu, hi⟩
    refine ⟨hp.congr rfl rfl rfl, ?_⟩
    simpa [enqueue, hi] using CommitQueue.carrier (a := a.enqueue (.commitA ticket)) hu (by simp)

/-- The messages that follow Commit-A, and what their answers `Ok` tell. -/
theorem wp_deliver_acks {m : SagaPhaseMessage} (hm : Acks m)
    (Ok : m.Answer → ContextActor → Prop) {E : ContextError → ContextActor → Prop}
    (hok : ∀ a, Paying env a → wp env (handle outlet .caller m)
      (fun x b => Paying env b ∧ Ok x b ∧ b.inbox = a.inbox)
      (fun _ b => Paying env b ∧ b.inbox = a.inbox) (fun _ => Kept env) a)
    (hsteady : ∀ x a, Paying env a → Ok x a → Ok x a.flush ∧ Ok x a.respawn)
    (h : Awaiting env a) :
    wp env (deliver outlet .caller m)
      (Sent (Replied (fun x => Settled env (Ok x)) (Settled env (fun _ => True)))
        (Awaiting env) (Awaiting env)) E (fun c a => c = .crash ∧ Kept env a) a := by
  have hawaiting (answer : Except ContextError m.Answer) (a : ContextActor)
      (h : Replied (fun x => Settled env (Ok x)) (Settled env (fun _ => True)) answer a) :
      Awaiting env a := replied_imp (fun _ _ h => h.awaiting) (fun _ h => h.awaiting) answer a h
  refine wp_send (Awaiting env) (Settled env (fun _ => True)) (R := fun _ => Kept env)
    (fun a h => wp_drain_awaiting h) ?_
    (fun answer a _ _ h => (hawaiting answer a h).1.toKept) (fun a h => h.1.toKept)
    (fun answer a h => (hawaiting answer a h).1.toKept) (fun a h => h.1.toKept)
    (fun a h => ⟨h.respawn, .acks (by simp [Actor.respawn])⟩)
    (fun a _ h => steady_awaiting.respawn a h)
    (fun answer a _ h => hawaiting answer a h) ?_ (fun a _ h => h) (fun a _ h => h)
    (steady_replied (fun x => steady_settled (hsteady x))
      (steady_settled (fun _ _ _ => ⟨trivial, trivial⟩))) steady_awaiting h
  · rintro a ⟨hp, -, hi⟩
    exact wp_mono (hok a hp) (fun _ _ h => ⟨h.1, h.2.1, h.2.2.trans hi⟩)
      (fun _ _ h => ⟨h.1, trivial, h.2.trans hi⟩) (fun _ _ h => h)
  · rintro a - ⟨hp, hq⟩
    exact ⟨hp.congr rfl rfl rfl, hq.enqueue hm⟩

theorem wp_deliver_commitACheckWitness {E : ContextError → ContextActor → Prop}
    (h : Awaiting env a) :
    wp env (deliver outlet .caller .commitACheckWitness)
      (Sent (Replied (fun recorded => Settled env (fun a => recorded = true → Recorded env a))
        (Settled env (fun _ => True))) (Awaiting env) (Awaiting env)) E
      (fun c a => c = .crash ∧ Kept env a) a := by
  apply wp_deliver_acks (.inl rfl) (fun recorded a => recorded = true → Recorded env a)
    ?_ ?_ h
  · intro a hp
    apply wp_bind
    apply wp_get
    refine wp_pure ⟨hp, fun hmem hl => ⟨hmem, ?_⟩, rfl⟩
    rw [← hp.synced hl]
    exact hmem
  · intro x a _ h
    exact ⟨fun hx hl => ⟨(h hx hl).1, (h hx hl).1⟩, fun hx hl => ⟨(h hx hl).2, (h hx hl).2⟩⟩

theorem wp_deliver_marker_caller {E : ContextError → ContextActor → Prop} (h : Awaiting env a) :
    wp env (deliver outlet .caller .emitDivergenceMarker)
      (Sent (Replied (fun _ => Settled env (fun _ => True)) (Settled env (fun _ => True)))
        (Awaiting env) (Awaiting env)) E (fun c a => c = .crash ∧ Kept env a) a := by
  apply wp_deliver_acks (.inr rfl) (fun _ _ => True) ?_ ?_ h
  · intro a hp
    exact wp_mono (wp_handle_acks (.inr rfl) hp) (fun _ _ h => ⟨h.1, trivial, h.2⟩)
      (fun _ _ h => h) (fun _ _ h => h)
  · intro _ _ _ _
    exact ⟨trivial, trivial⟩

end Caller

/-- The snapshot of the target follows its log. -/
def Stored (env : Env Op) (a : ContextActor) : Prop :=
  LogsFollow env → invoked .outletInvoked a = a.disk.committedOutput.isSome.toNat

structure Serving (env : Env Op) (a : ContextActor) : Prop where
  logged : Stored env a
  synced : LogsFollow env → a.mem.committedOutput.isSome = a.disk.committedOutput.isSome

/-- The output is in memory and in the snapshot. -/
def Captured (env : Env Op) (a : ContextActor) : Prop :=
  LogsFollow env → a.mem.committedOutput.isSome = true ∧ a.disk.committedOutput.isSome = true

/-- A message of the commit phase to the target. -/
def Commits (m : SagaPhaseMessage) : Prop :=
  m = .commitBReserve ∨ (∃ output, m = .commitBSettle output) ∨ m = .emitDivergenceMarker

def Pending (env : Env Op) (a : ContextActor) : Prop := Serving env a ∧ ∀ m ∈ a.inbox, Commits m

def Ready (env : Env Op) (P : ContextActor → Prop) (a : ContextActor) : Prop :=
  Serving env a ∧ P a ∧ a.inbox = []

section Target
variable {env : Env Op} {outlet : Outlet} {a : ContextActor}

theorem Serving.flush (h : Serving env a) : Serving env a.flush := by
  refine ⟨fun hl => ?_, fun _ => rfl⟩
  change invoked _ a = a.mem.committedOutput.isSome.toNat
  rw [h.synced hl]
  exact h.logged hl

theorem Stored.respawn (h : Stored env a) : Serving env a.respawn := ⟨h, fun _ => rfl⟩

theorem Serving.congr {b : ContextActor} (h : Serving env a) (hmem : b.mem = a.mem)
    (hdisk : b.disk = a.disk) (hlog : invoked .outletInvoked b = invoked .outletInvoked a) :
    Serving env b := by
  refine ⟨fun hl => ?_, fun hl => ?_⟩
  · rw [hlog, hdisk]
    exact h.logged hl
  · rw [hmem, hdisk]
    exact h.synced hl

theorem steady_pending : Steady (Pending env) where
  flush _ h := ⟨h.1.flush, h.2⟩
  respawn _ h := ⟨h.1.logged.respawn, by simp [Actor.respawn]⟩

theorem steady_ready {P : ContextActor → Prop} (hP : ∀ a, P a → P a.flush ∧ P a.respawn) :
    Steady (Ready env P) where
  flush a h := ⟨h.1.flush, (hP a h.2.1).1, h.2.2⟩
  respawn a h := ⟨h.1.logged.respawn, (hP a h.2.1).2, rfl⟩

theorem Captured.flush (h : Captured env a) : Captured env a.flush :=
  fun hl => ⟨(h hl).1, (h hl).1⟩

theorem Captured.respawn (h : Captured env a) : Captured env a.respawn :=
  fun hl => ⟨(h hl).2, (h hl).2⟩

theorem Ready.pending {P : ContextActor → Prop} (h : Ready env P a) : Pending env a :=
  ⟨h.1, by simp [h.2.2]⟩

/-- The output in memory is in the snapshot too. -/
theorem Serving.captured (h : Serving env a) {output : Bytes}
    (hmem : a.mem.committedOutput = some output) : Captured env a := by
  intro hl
  have hsome : a.mem.committedOutput.isSome = true := by rw [hmem]; rfl
  exact ⟨hsome, (h.synced hl).symm.trans hsome⟩

theorem wp_commitBReserve {E : ContextError → ContextActor → Prop}
    (h : Serving env a) (hE : ∀ e, E e a) :
    wp env commitBReserve
      (fun outcome b => b = a ∧ ∀ output, outcome = .alreadyCommitted output → Captured env b)
      E (fun _ b => b = a) a := by
  apply wp_bind
  apply wp_get
  cases hout : a.mem.committedOutput with
  | some output =>
    apply wp_bind
    apply wp_attemptOr
    · intro _
      exact wp_pure ⟨rfl, fun _ _ => h.captured hout⟩
    · intro _
      exact hE _
    · intro _ _
      rfl
  | none =>
    by_cases hp : a.mem.sagaPending = true
    · simp only [if_pos hp]
      exact wp_pure ⟨rfl, by simp⟩
    · simp only [if_neg hp]
      exact wp_fail (hE _)

theorem wp_commitBSettleFinalize {output : Bytes} (hmem : a.mem.committedOutput = some output)
    (hdisk : a.disk.committedOutput = some output)
    (hlog : LogsFollow env → invoked .outletInvoked a = 0) :
    wp env (commitBSettleFinalize output)
      (fun _ b => Serving env b ∧ Captured env b ∧ b.inbox = a.inbox)
      (fun _ b => Serving env b ∧ b.inbox = a.inbox) (fun _ => Stored env) a := by
  have hlogged : Serving env (a.act (Outside.record .outletInvoked)) := by
    refine ⟨fun hl => ?_, fun _ => ?_⟩
    · rw [invoked_act_record, hlog hl, if_pos rfl]
      change _ = a.disk.committedOutput.isSome.toNat
      rw [hdisk]
      rfl
    · change a.mem.committedOutput.isSome = a.disk.committedOutput.isSome
      rw [hmem, hdisk]
  apply wp_bind
  apply wp_attempt
  · intro _
    apply wp_bind
    apply wp_modify
    apply wp_bind
    -- The event is in the log, whether the receipt can be encoded or not.
    apply wp_attemptOr
    · intro _
      exact wp_pure ⟨hlogged, hlogged.captured hmem, rfl⟩
    · intro _
      exact ⟨hlogged, rfl⟩
    · intro _ _
      exact hlogged.logged
  · intro _
    apply wp_bind
    apply wp_commitKeep
    · intro _
      exact wp_fail ⟨⟨hlog, fun _ => rfl⟩, rfl⟩
    · intro hn
      have hnot : ¬ LogsFollow env := fun hl => hl.repersist_refused (by simp) hn
      exact wp_fail ⟨⟨fun hl => absurd hl hnot, fun hl => absurd hl hnot⟩, rfl⟩
    · intro c hc hl
      exact absurd hc (hl.repersist_cut (by simp))
  · intro c hc hl
    exact absurd hc (hl.append_cut (by simp))

theorem wp_commitBSettle {output : Bytes} (h : Serving env a) :
    wp env (commitBSettle output)
      (fun _ b => Serving env b ∧ Captured env b ∧ b.inbox = a.inbox)
      (fun _ b => Serving env b ∧ b.inbox = a.inbox) (fun _ => Stored env) a := by
  apply wp_bind
  apply wp_get
  cases hout : a.mem.committedOutput with
  -- An output captured by an earlier delivery is sent again, not computed again.
  | some stored =>
    apply wp_bind
    apply wp_attemptOr
    · intro _
      exact wp_pure ⟨h, h.captured hout, rfl⟩
    · intro _
      exact ⟨h, rfl⟩
    · intro _ _
      exact h.logged
  | none =>
    apply wp_bind
    apply wp_get
    by_cases hp : a.mem.sagaPending = true
    · simp only [if_pos hp]
      apply wp_bind
      apply wp_attemptOr
      · intro _
        apply wp_bind
        apply wp_commitRestore
        · intro _
          refine wp_commitBSettleFinalize rfl rfl (fun hl => ?_)
          have hcount := h.logged hl
          rw [← h.synced hl, hout] at hcount
          exact hcount
        · intro _
          exact wp_fail ⟨⟨h.logged, h.synced⟩, rfl⟩
        · intro _ _
          exact h.logged
      · intro _
        exact ⟨h, rfl⟩
      · intro _ _
        exact h.logged
    · simp only [if_neg hp]
      exact wp_fail ⟨h, rfl⟩

theorem wp_handle_commits {m : SagaPhaseMessage} (hm : Commits m) (h : Serving env a) :
    wp env (handle outlet .target m) (fun _ b => Serving env b ∧ b.inbox = a.inbox)
      (fun _ b => Serving env b ∧ b.inbox = a.inbox) (fun _ => Stored env) a := by
  obtain hm | ⟨output, hm⟩ | hm := hm
  · rw [hm]
    apply wp_mono (wp_commitBReserve (E := fun _ b => b = a) h (fun _ => rfl))
    · rintro _ b ⟨rfl, -⟩
      exact ⟨h, rfl⟩
    · rintro _ b rfl
      exact ⟨h, rfl⟩
    · rintro _ b rfl
      exact h.logged
  · rw [hm]
    exact wp_mono (wp_commitBSettle h) (fun _ _ h => ⟨h.1, h.2.2⟩) (fun _ _ h => h) (fun _ _ h => h)
  · rw [hm]
    have hmarked : Serving env (a.act (Outside.record .crossContextDivergenceMarker)) :=
      h.congr rfl rfl (invoked_act_record ..)
    exact wp_mono (wp_emitDivergenceMarker (P := fun b => Serving env b ∧ b.inbox = a.inbox)
      ⟨hmarked, rfl⟩ ⟨hmarked.flush, rfl⟩ ⟨h, rfl⟩) (fun _ _ h => h) (fun _ _ h => h)
      (fun _ _ h => h.1.logged)

theorem wp_drain_pending {E : ContextError → ContextActor → Prop} (h : Pending env a) :
    wp env (drain (.coalesce .target) (serve outlet .target) a.inbox)
      (fun _ => Ready env (fun _ => True)) E (fun _ => Stored env) a := by
  apply wp_mono (wp_drain (I := fun ms a => Serving env a ∧ a.inbox = ms ∧ ∀ m ∈ ms, Commits m)
    ?_ ?_ ?_ a.inbox a ⟨h.1, rfl, h.2⟩) (fun _ _ h => ⟨h.1, trivial, h.2.1⟩) (fun _ _ h => h)
    (fun _ _ h => h)
  · rintro m ms a ⟨hs, -, hq⟩
    have hs' : Serving env { a with inbox := ms } := hs.congr rfl rfl rfl
    have hrest : ∀ m ∈ ms, Commits m := fun m hmem => hq m (by simp [hmem])
    apply wp_serve
    exact wp_mono (wp_handle_commits (hq m (by simp)) hs') (fun _ _ h => ⟨h.1, h.2, hrest⟩)
      (fun _ _ h => ⟨h.1, h.2, hrest⟩) (fun _ _ h => h)
  · rintro ms a ⟨hs, hi, hq⟩
    exact ⟨hs.flush, hi, hq⟩
  · rintro ms a c ⟨hs, -, -⟩
    exact hs.logged

/-- What the answers `Ok` to a message of the commit phase tell. -/
theorem wp_deliver_commits {m : SagaPhaseMessage} (hm : Commits m)
    (Ok : m.Answer → ContextActor → Prop) {E : ContextError → ContextActor → Prop}
    (hok : ∀ a, Serving env a → wp env (handle outlet .target m)
      (fun x b => Serving env b ∧ Ok x b ∧ b.inbox = a.inbox)
      (fun _ b => Serving env b ∧ b.inbox = a.inbox) (fun _ => Stored env) a)
    (hsteady : ∀ x a, Ok x a → Ok x a.flush ∧ Ok x a.respawn) (h : Pending env a) :
    wp env (deliver outlet .target m)
      (Sent (Replied (fun x => Ready env (Ok x)) (Ready env (fun _ => True)))
        (Pending env) (Pending env)) E (fun c a => c = .crash ∧ Stored env a) a := by
  have hpending (answer : Except ContextError m.Answer) (a : ContextActor)
      (h : Replied (fun x => Ready env (Ok x)) (Ready env (fun _ => True)) answer a) :
      Pending env a := replied_imp (fun _ _ h => h.pending) (fun _ h => h.pending) answer a h
  refine wp_send (Pending env) (Ready env (fun _ => True)) (R := fun _ => Stored env)
    (fun a h => wp_drain_pending h) ?_
    (fun answer a _ _ h => (hpending answer a h).1.logged) (fun a h => h.1.logged)
    (fun answer a h => (hpending answer a h).1.logged) (fun a h => h.1.logged)
    (fun a h => ⟨Stored.respawn h, by simp [Actor.respawn]⟩)
    (fun a _ h => steady_pending.respawn a h)
    (fun answer a _ h => hpending answer a h) ?_ (fun a _ h => h) (fun a _ h => h)
    (steady_replied (fun x => steady_ready (hsteady x))
      (steady_ready (fun _ _ => ⟨trivial, trivial⟩))) steady_pending h
  · rintro a ⟨hs, -, hi⟩
    exact wp_mono (hok a hs) (fun _ _ h => ⟨h.1, h.2.1, h.2.2.trans hi⟩)
      (fun _ _ h => ⟨h.1, trivial, h.2.trans hi⟩) (fun _ _ h => h)
  · rintro a - ⟨hs, hq⟩
    refine ⟨hs.congr rfl rfl rfl, fun x hx => ?_⟩
    obtain hx | hx := List.mem_append.1 hx
    · exact hq x hx
    · rw [List.mem_singleton.1 hx]
      exact hm

theorem wp_deliver_commitBReserve {E : ContextError → ContextActor → Prop} (h : Pending env a) :
    wp env (deliver outlet .target .commitBReserve)
      (Sent (Replied (fun outcome => Ready env (fun a => ∀ output,
          outcome = .alreadyCommitted output → Captured env a)) (Ready env (fun _ => True)))
        (Pending env) (Pending env)) E (fun c a => c = .crash ∧ Stored env a) a := by
  apply wp_deliver_commits (.inl rfl)
    (fun outcome a => ∀ output, outcome = .alreadyCommitted output → Captured env a) ?_ ?_ h
  · intro a hs
    apply wp_mono (wp_commitBReserve (E := fun _ b => b = a) hs (fun _ => rfl))
    · rintro _ b ⟨rfl, hb⟩
      exact ⟨hs, hb, rfl⟩
    · rintro _ b rfl
      exact ⟨hs, rfl⟩
    · rintro _ b rfl
      exact hs.logged
  · intro x a hx
    exact ⟨fun output ho => (hx output ho).flush, fun output ho => (hx output ho).respawn⟩

theorem wp_deliver_commitBSettle {output : Bytes} {E : ContextError → ContextActor → Prop}
    (h : Pending env a) :
    wp env (deliver outlet .target (.commitBSettle output))
      (Sent (Replied (fun _ => Ready env (Captured env)) (Ready env (fun _ => True)))
        (Pending env) (Pending env)) E (fun c a => c = .crash ∧ Stored env a) a := by
  apply wp_deliver_commits (.inr (.inl ⟨output, rfl⟩)) (fun _ => Captured env) ?_ ?_ h
  · intro a hs
    exact wp_commitBSettle hs
  · intro _ _ hx
    exact ⟨hx.flush, hx.respawn⟩

theorem wp_deliver_marker_target {E : ContextError → ContextActor → Prop} (h : Pending env a) :
    wp env (deliver outlet .target .emitDivergenceMarker)
      (Sent (Replied (fun _ => Ready env (fun _ => True)) (Ready env (fun _ => True)))
        (Pending env) (Pending env)) E (fun c a => c = .crash ∧ Stored env a) a := by
  apply wp_deliver_commits (.inr (.inr rfl)) (fun _ _ => True) ?_ ?_ h
  · intro a hs
    exact wp_mono (wp_handle_commits (.inr (.inr rfl)) hs) (fun _ _ h => ⟨h.1, trivial, h.2⟩)
      (fun _ _ h => h) (fun _ _ h => h)
  · intro _ _ _
    exact ⟨trivial, trivial⟩

end Target

end ScpCore.CrossContext
