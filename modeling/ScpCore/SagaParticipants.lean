import ScpCore.SagaCoordinator

/-! What the two actors keep while a saga is open and while it commits. Before the commit
phase nothing is committed on either side; in it nothing is given back to the caller. -/

namespace ScpCore.CrossContext

open Prog Actor PerContextState

/-- Payments that were authorized are captured. -/
def CapturesPayments (env : Env Op) : Prop := ∀ n, ¬ (env n .capture).Refuses

/-- No actor and no process goes down between a commit witness and its event in the log,
and a witness whose event was refused is taken back. -/
def LogsFollow (env : Env Op) : Prop := ∀ n event, event ≠ .crossContextDivergenceMarker →
  env n (.append event) ≠ .down ∧ env n (.append event) ≠ .crash ∧ env n (.repersist event) = .ok

/-- The answer to every Prepare-B that the target takes arrives, and an abort that is sent
to the target is handled and persisted. -/
structure SlotsReleased (env : Env Op) : Prop where
  prepared : ∀ n, env n (.enqueue .target .prepareB) ≠ .late
  answered : ∀ n, env n (.reply .target .prepareB) = .ok ∨ env n (.reply .target .prepareB) = .crash
  resident : ∀ n, env n (.lookup .target .abort) = .ok ∨ env n (.lookup .target .abort) = .down ∨
    env n (.lookup .target .abort) = .crash
  delivered : ∀ n, env n (.enqueue .target .abort) = .ok ∨ env n (.enqueue .target .abort) = .crash
  persisted : ∀ n, env n (.persist .target .abort) = .ok ∨ env n (.persist .target .abort) = .crash

/-- The reservation is given back at most once, and not while its record is held. -/
structure Once (s : PerContextState) : Prop where
  reversed : s.reversed ≤ 1
  held : s.callerReservation = true → s.reversed = 0

def invoked (event : LogEvent) (a : ContextActor) : ℕ := a.outside.log.count event

structure CallerOpen (a : ContextActor) : Prop where
  mem : Once a.mem
  disk : Once a.disk
  unrecorded : a.mem.committedInvocation = false ∧ a.disk.committedInvocation = false
  uncaptured : a.outside.captures = 0
  unlogged : invoked .crossContextOutletInvoked a = 0

/-- Memory and snapshot agree on the record. -/
def Synced (a : ContextActor) : Prop := a.mem.callerReservation = a.disk.callerReservation

/-- Prepare-A has not changed the books. -/
def Blank (a : ContextActor) : Prop :=
  a.mem.reversed = 0 ∧ a.mem.callerReservation = false ∧ a.disk.callerReservation = false

/-- Prepare-A holds a reservation. -/
def Holding (a : ContextActor) : Prop :=
  a.mem.reversed = 0 ∧ a.mem.callerReservation = true ∧ a.disk.callerReservation = true

def Cleared (a : ContextActor) : Prop :=
  a.mem.callerReservation = false ∧ a.disk.callerReservation = false

section Opening
variable {env : Env Op} {outlet : Outlet} {a : ContextActor}

theorem CallerOpen.flush (h : CallerOpen a) : CallerOpen a.flush :=
  ⟨h.mem, h.mem, ⟨h.unrecorded.1, h.unrecorded.1⟩, h.uncaptured, h.unlogged⟩

theorem CallerOpen.respawn (h : CallerOpen a) : CallerOpen a.respawn :=
  ⟨h.disk, h.disk, ⟨h.unrecorded.2, h.unrecorded.2⟩, h.uncaptured, h.unlogged⟩

/-- A change of the memory that commits nothing. -/
theorem CallerOpen.update (h : CallerOpen a) {f : PerContextState → PerContextState}
    (hf : (f a.mem).committedInvocation = a.mem.committedInvocation) (honce : Once (f a.mem)) :
    CallerOpen (a.update f) :=
  ⟨honce, h.disk, ⟨hf.trans h.unrecorded.1, h.unrecorded.2⟩, h.uncaptured, h.unlogged⟩

theorem wp_prepareA (h : CallerOpen a) (hb : Blank a) :
    wp env (prepareA outlet) (fun _ a' => CallerOpen a' ∧ Holding a' ∧ a'.inbox = a.inbox)
      (fun _ a' => CallerOpen a' ∧ Cleared a' ∧ a'.inbox = a.inbox) (fun _ => CallerOpen) a := by
  obtain ⟨hrev, hmem, hdisk⟩ := hb
  have hstaged : CallerOpen ((a.update deduct).update stageReservation) :=
    (h.update (f := stageReservation ∘ deduct) rfl ⟨by simp [stageReservation, deduct, hrev],
      fun _ => hrev⟩)
  apply wp_bind
  apply wp_attemptOr
  · intro _
    apply wp_bind
    apply wp_get
    apply wp_bind
    apply wp_modify
    apply wp_bind
    apply wp_commitRestore
    · intro _
      exact wp_pure ⟨hstaged.flush, ⟨hrev, rfl, rfl⟩, rfl⟩
    · intro _
      apply wp_bind
      apply wp_modify
      apply wp_fail
      refine ⟨h.update (f := fun s => reverse (restoreClassS (deduct s) (stageReservation (deduct s))))
        rfl ⟨?_, ?_⟩, ⟨hmem, hdisk⟩, rfl⟩
      · simp [reverse, restoreClassS, stageReservation, deduct, hrev]
      · simp [reverse, restoreClassS, deduct, hmem]
    · intro _ _
      exact hstaged
  · intro _
    exact ⟨h, ⟨hmem, hdisk⟩, rfl⟩
  · intro _ _
    exact h

/-- A ticket of the live actor may still be used. -/
def Usable (reservation : Option Ticket) (a : ContextActor) : Prop :=
  ∀ ticket, reservation = some ticket → ticket.generation = a.generation → a.mem.reversed = 0

theorem wp_reverseReservation {reservation : Option Ticket} {E : ContextError → ContextActor → Prop}
    {R : Cut → ContextActor → Prop} (h : CallerOpen a) (hu : Usable reservation a) :
    wp env (reverseReservation reservation)
      (fun ran a' => (ran = true ∧ a' = a.update reverse ∧ a.mem.reversed = 0) ∨
        (ran = false ∧ a' = a ∧ a.mem.callerReservation = false)) E R a := by
  -- Without a usable ticket the record decides.
  have hrecord : wp env reverseCallerReservationRecord
      (fun ran a' => (ran = true ∧ a' = a.update reverse ∧ a.mem.reversed = 0) ∨
        (ran = false ∧ a' = a ∧ a.mem.callerReservation = false)) E R a := by
    apply wp_bind
    apply wp_get
    by_cases hr : a.mem.callerReservation = true
    · rw [if_pos hr]
      apply wp_bind
      apply wp_modify
      exact wp_pure (.inl ⟨rfl, rfl, h.mem.held hr⟩)
    · rw [if_neg hr]
      exact wp_pure (.inr ⟨rfl, rfl, by simpa using hr⟩)
  apply wp_bind
  cases reservation with
  | none => exact wp_pure hrecord
  | some ticket =>
    apply wp_bind
    apply wp_get
    by_cases hg : ticket.generation = a.generation
    · rw [if_pos hg]
      apply wp_bind
      apply wp_modify
      exact wp_pure (wp_pure (.inl ⟨rfl, rfl, hu ticket rfl hg⟩))
    · rw [if_neg hg]
      exact wp_pure hrecord

theorem wp_abort_caller {party : Party} {reservation : Option Ticket} (h : CallerOpen a)
    (hu : Usable reservation a) :
    wp env (abort party reservation)
      (fun _ a' => CallerOpen a' ∧ (Synced a → Cleared a') ∧ a'.inbox = a.inbox)
      (fun _ a' => CallerOpen a' ∧ a'.inbox = a.inbox) (fun _ => CallerOpen) a := by
  apply wp_bind
  apply wp_mono (wp_reverseReservation h hu) _ (fun _ _ h => h) (fun _ _ h => h)
  rintro ran a' (⟨rfl, rfl, hrev⟩ | ⟨rfl, rfl, hrec⟩)
  · have hreleased : CallerOpen ((a.update reverse).update release) :=
      h.update (f := release ∘ reverse) rfl ⟨by simp [release, reverse, hrev], by simp [release]⟩
    apply wp_bind
    apply wp_get
    rw [if_pos (by simp)]
    apply wp_bind
    apply wp_commitKeep
    · intro _
      exact wp_pure ⟨hreleased.flush, fun _ => ⟨rfl, rfl⟩, rfl⟩
    · intro _
      exact wp_fail ⟨hreleased, rfl⟩
    · intro _ _
      exact hreleased
  · have hreleased : CallerOpen (a'.update release) :=
      h.update rfl ⟨h.mem.reversed, by simp [release]⟩
    apply wp_bind
    apply wp_get
    by_cases hp : a'.mem.sagaPending = true
    · rw [if_pos (by simp [hp])]
      apply wp_bind
      apply wp_commitKeep
      · intro _
        exact wp_pure ⟨hreleased.flush, fun _ => ⟨rfl, rfl⟩, rfl⟩
      · intro _
        exact wp_fail ⟨hreleased, rfl⟩
      · intro _ _
        exact hreleased
    · rw [if_neg (by simp [hrec, hp])]
      exact wp_pure ⟨h, fun hs => ⟨hrec, hs ▸ hrec⟩, rfl⟩

/-- The messages that a coordinator has given up on. -/
inductive OpenQueue (a : ContextActor) : List SagaPhaseMessage → Prop
  | aborts {ms : List SagaPhaseMessage} (h : ∀ m ∈ ms, m = .abort none) : OpenQueue a ms
  | prepare {ms : List SagaPhaseMessage} (hb : Blank a) (h : ∀ m ∈ ms, m = .abort none) :
      OpenQueue a (.prepareA :: ms)
  | carrier {ticket : Ticket} (h : a.mem.reversed = 0) : OpenQueue a [.abort (some ticket)]

def Loose (a : ContextActor) : Prop := CallerOpen a ∧ OpenQueue a a.inbox

/-- Nothing is held, or Prepare-A is still in the inbox. -/
def Unheld (a : ContextActor) : Prop :=
  CallerOpen a ∧ ((a.inbox = [] ∧ Synced a) ∨ (a.inbox = [.prepareA] ∧ Blank a))

def Free (P : ContextActor → Prop) (a : ContextActor) : Prop :=
  CallerOpen a ∧ P a ∧ a.inbox = []

theorem OpenQueue.congr {a b : ContextActor} {ms : List SagaPhaseMessage} (h : OpenQueue a ms)
    (hrev : b.mem.reversed = a.mem.reversed) (hblank : Blank a → Blank b) : OpenQueue b ms := by
  cases h with
  | aborts h => exact .aborts h
  | prepare hb h => exact .prepare (hblank hb) h
  | carrier h => exact .carrier (hrev.trans h)

theorem Unheld.loose (h : Unheld a) : Loose a := by
  obtain ⟨ho, ⟨hi, -⟩ | ⟨hi, hb⟩⟩ := h
  · exact ⟨ho, hi ▸ .aborts (by simp)⟩
  · exact ⟨ho, hi ▸ .prepare hb (by simp)⟩

theorem steady_unheld : Steady Unheld where
  flush a h := by
    obtain ⟨ho, ⟨hi, hs⟩ | ⟨hi, hb⟩⟩ := h
    · exact ⟨ho.flush, .inl ⟨hi, rfl⟩⟩
    · exact ⟨ho.flush, .inr ⟨hi, hb.1, hb.2.1, hb.2.1⟩⟩
  respawn a h := ⟨h.1.respawn, .inl ⟨rfl, rfl⟩⟩

theorem steady_loose : Steady Loose where
  flush a h := ⟨h.1.flush, h.2.congr rfl (fun hb => ⟨hb.1, hb.2.1, hb.2.1⟩)⟩
  respawn a h := ⟨h.1.respawn, .aborts (by simp [Actor.respawn])⟩

theorem steady_free {P : ContextActor → Prop} (hP : ∀ a, CallerOpen a → P a → P a.flush ∧ P a.respawn) :
    Steady (Free P) where
  flush a h := ⟨h.1.flush, (hP a h.1 h.2.1).1, h.2.2⟩
  respawn a h := ⟨h.1.respawn, (hP a h.1 h.2.1).2, rfl⟩

theorem steady_holding : Steady (Free Holding) :=
  steady_free (fun _ ho h => ⟨⟨h.1, h.2.1, h.2.1⟩, ⟨ho.disk.held h.2.2, h.2.2, h.2.2⟩⟩)

theorem steady_cleared : Steady (Free Cleared) :=
  steady_free (fun _ _ h => ⟨⟨h.1, h.1⟩, ⟨h.2, h.2⟩⟩)

theorem Free.unheld {P : ContextActor → Prop} (h : Free P a) (hs : Synced a) : Unheld a :=
  ⟨h.1, .inl ⟨h.2.2, hs⟩⟩

theorem wp_serve {party : Party} {m : SagaPhaseMessage} {P : ContextActor → Prop}
    {E : ContextError → ContextActor → Prop} {R : Cut → ContextActor → Prop}
    (h : wp env (handle outlet party m) (fun _ => P) (fun _ => P) R a) :
    wp env (serve outlet party m) (fun _ => P) E R a := by
  apply wp_bind
  apply wp_observe
  exact wp_mono h (fun _ _ h => wp_pure h) (fun _ _ h => wp_pure h) (fun _ _ h => h)

theorem wp_drain_loose {party : Party} {E : ContextError → ContextActor → Prop} (h : Loose a) :
    wp env (drain (.coalesce party) (serve outlet party) a.inbox)
      (fun _ a' => CallerOpen a' ∧ a'.inbox = []) E (fun _ => CallerOpen) a := by
  apply wp_mono (wp_drain (I := fun ms a => CallerOpen a ∧ a.inbox = ms ∧ OpenQueue a ms)
    ?_ ?_ ?_ a.inbox a ⟨h.1, rfl, h.2⟩) (fun _ _ h => ⟨h.1, h.2.1⟩) (fun _ _ h => h) (fun _ _ h => h)
  · rintro m ms a ⟨ho, -, hq⟩
    have ho' : CallerOpen { a with inbox := ms } := ⟨ho.mem, ho.disk, ho.unrecorded, ho.uncaptured,
      ho.unlogged⟩
    apply wp_serve
    cases hq with
    | aborts hm =>
      rw [hm m (by simp)]
      have hrest : ∀ m ∈ ms, m = .abort none := fun m hmem => hm m (by simp [hmem])
      exact wp_mono (wp_abort_caller ho' (by simp [Usable]))
        (fun _ _ h => ⟨h.1, h.2.2, .aborts hrest⟩) (fun _ _ h => ⟨h.1, h.2, .aborts hrest⟩)
        (fun _ _ h => h)
    | prepare hb hm =>
      exact wp_mono (wp_prepareA ho' hb) (fun _ _ h => ⟨h.1, h.2.2, .aborts hm⟩)
        (fun _ _ h => ⟨h.1, h.2.2, .aborts hm⟩) (fun _ _ h => h)
    | carrier hrev =>
      exact wp_mono (wp_abort_caller ho' (fun _ _ _ => hrev))
        (fun _ _ h => ⟨h.1, h.2.2, .aborts (by simp)⟩) (fun _ _ h => ⟨h.1, h.2, .aborts (by simp)⟩)
        (fun _ _ h => h)
  · rintro ms a ⟨ho, hi, hq⟩
    exact ⟨ho.flush, hi, hq.congr rfl (fun hb => ⟨hb.1, hb.2.1, hb.2.1⟩)⟩
  · rintro ms a c ⟨ho, -, -⟩
    exact ho

theorem wp_drain_unheld {party : Party} {E : ContextError → ContextActor → Prop} (h : Unheld a) :
    wp env (drain (.coalesce party) (serve outlet party) a.inbox) (fun _ => Free Synced) E
      (fun _ => CallerOpen) a := by
  obtain ⟨ho, ⟨hi, hs⟩ | ⟨hi, hb⟩⟩ := h
  · rw [hi]
    exact wp_pure ⟨ho, hs, hi⟩
  · rw [hi]
    apply wp_bind
    apply wp_modify
    apply wp_bind
    apply wp_serve
    have ho' : CallerOpen { a with inbox := [] } := ⟨ho.mem, ho.disk, ho.unrecorded, ho.uncaptured,
      ho.unlogged⟩
    have hdone (a : ContextActor) (h : Free Synced a) :
        wp env (do let _ ← persist (.coalesce party); drain (.coalesce party) (serve outlet party) [])
          (fun _ => Free Synced) E (fun _ => CallerOpen) a := by
      apply wp_bind
      apply wp_persist
      · intro _
        exact wp_pure ⟨h.1.flush, rfl, h.2.2⟩
      · intro _
        exact wp_pure h
      · intro _ _
        exact h.1
    apply wp_mono (wp_prepareA ho' hb)
    · rintro _ a ⟨ho, hh, hi⟩
      exact hdone a ⟨ho, hh.2.1.trans hh.2.2.symm, hi⟩
    · rintro _ a ⟨ho, hc, hi⟩
      exact hdone a ⟨ho, hc.1.trans hc.2.symm, hi⟩
    · exact fun _ _ h => h

/-- An empty inbox leaves nothing to do before the message. -/
theorem wp_drain_nil {party : Party} {P : ContextActor → Prop}
    {E : ContextError → ContextActor → Prop} {R : Cut → ContextActor → Prop} (hi : a.inbox = [])
    (h : P a) :
    wp env (drain (.coalesce party) (serve outlet party) a.inbox) (fun _ => P) E R a := by
  rw [hi]
  exact wp_pure h

theorem wp_deliver_prepareA {E : ContextError → ContextActor → Prop} (h : Free Blank a) :
    wp env (deliver outlet .caller .prepareA)
      (Sent (Replied (fun _ => Free Holding) (Free Cleared)) Unheld Unheld) E
      (fun c a => c = .crash ∧ CallerOpen a) a := by
  have hunheld (answer : Except ContextError Ticket) (a : ContextActor)
      (h : Replied (fun _ => Free Holding) (Free Cleared) answer a) : Unheld a :=
    replied_imp (fun _ a h => h.unheld (h.2.1.2.1.trans h.2.1.2.2.symm))
      (fun a h => h.unheld (h.2.1.1.trans h.2.1.2.symm)) answer a h
  have hopen (a : ContextActor) (h : Unheld a) : CallerOpen a := h.1
  have hblank (a : ContextActor) (h : Free Blank a) : Unheld a :=
    h.unheld (h.2.1.2.1.trans h.2.1.2.2.symm)
  refine wp_send (Free Blank) (Free Blank) (R := fun _ => CallerOpen)
    (fun a h => wp_drain_nil h.2.2 h) ?_
    (fun answer a _ _ h => hopen a (hunheld answer a h)) (fun a h => h.1)
    (fun answer a h => hopen a (hunheld answer a h)) hopen
    (fun a h => ⟨h.respawn, .inl ⟨rfl, rfl⟩⟩) (fun a _ h => steady_unheld.respawn a (hblank a h))
    (fun answer a _ h => hunheld answer a h) ?_ (fun a _ h => hblank a h) (fun a _ h => hblank a h)
    (steady_replied (fun _ => steady_holding) steady_cleared) steady_unheld h
  · rintro a ⟨ho, hb, hi⟩
    exact wp_mono (wp_prepareA ho hb) (fun _ _ h => ⟨h.1, h.2.1, h.2.2.trans hi⟩)
      (fun _ _ h => ⟨h.1, h.2.1, h.2.2.trans hi⟩) (fun _ _ h => h)
  · rintro a - ⟨ho, hb, hi⟩
    exact ⟨⟨ho.mem, ho.disk, ho.unrecorded, ho.uncaptured, ho.unlogged⟩,
      .inr ⟨by simp [enqueue, hi], hb⟩⟩

/-- However an abort was answered, the caller is still open. -/
theorem loose_of_aborted (answer : Except ContextError Unit) (a : ContextActor)
    (h : Replied (fun _ => Free Cleared) Loose answer a) : Loose a :=
  replied_imp (fun _ _ h => (h.unheld (h.2.1.1.trans h.2.1.2.symm)).loose) (fun _ h => h) answer a h

theorem wp_deliver_abort_none {E : ContextError → ContextActor → Prop} (h : Unheld a) :
    wp env (deliver outlet .caller (.abort none))
      (Sent (Replied (fun _ => Free Cleared) Loose) Loose Loose) E
      (fun c a => c = .crash ∧ CallerOpen a) a := by
  refine wp_send Unheld (Free Synced) (R := fun _ => CallerOpen)
    (fun a h => wp_drain_unheld h) ?_
    (fun answer a _ _ h => (loose_of_aborted answer a h).1) (fun a h => h.1)
    (fun answer a h => (loose_of_aborted answer a h).1) (fun a h => h.1)
    (fun a h => ⟨h.respawn, .aborts (by simp [Actor.respawn])⟩)
    (fun a _ h => steady_loose.respawn a h.loose)
    (fun answer a _ h => loose_of_aborted answer a h) ?_ (fun a _ h => h.loose) (fun a _ h => h.loose)
    (steady_replied (fun _ => steady_cleared) steady_loose) steady_loose h
  · rintro a ⟨ho, hs, hi⟩
    exact wp_mono (wp_abort_caller ho (by simp [Usable]))
      (fun _ _ h => ⟨h.1, h.2.1 hs, h.2.2.trans hi⟩)
      (fun _ a h => ⟨h.1, (h.2.trans hi).symm ▸ .aborts (by simp)⟩) (fun _ _ h => h)
  · rintro a - ⟨ho, hq⟩
    refine ⟨⟨ho.mem, ho.disk, ho.unrecorded, ho.uncaptured, ho.unlogged⟩, ?_⟩
    obtain ⟨hi, -⟩ | ⟨hi, hb⟩ := hq
    · simpa [enqueue, hi] using OpenQueue.aborts (a := a.enqueue (.abort none)) (by simp)
    · simpa [enqueue, hi] using OpenQueue.prepare (a := a.enqueue (.abort none)) hb (by simp)

theorem wp_deliver_abort_some {ticket : Ticket} {E : ContextError → ContextActor → Prop}
    (h : Free Holding a) :
    wp env (deliver outlet .caller (.abort (some ticket)))
      (Sent (Replied (fun _ => Free Cleared) Loose) Loose Unheld) E
      (fun c a => c = .crash ∧ CallerOpen a) a := by
  have hunheld (a : ContextActor) (h : Free Holding a) : Unheld a :=
    h.unheld (h.2.1.2.1.trans h.2.1.2.2.symm)
  refine wp_send (Free Holding) (Free Holding) (R := fun _ => CallerOpen)
    (fun a h => wp_drain_nil h.2.2 h) ?_
    (fun answer a _ _ h => (loose_of_aborted answer a h).1) (fun a h => h.1)
    (fun answer a h => (loose_of_aborted answer a h).1) (fun a h => h.1)
    (fun a h => ⟨h.respawn, .aborts (by simp [Actor.respawn])⟩)
    (fun a _ h => steady_loose.respawn a (hunheld a h).loose)
    (fun answer a _ h => loose_of_aborted answer a h) ?_ (fun a _ h => (hunheld a h).loose)
    (fun a _ h => hunheld a h)
    (steady_replied (fun _ => steady_cleared) steady_loose) steady_loose h
  · rintro a ⟨ho, hh, hi⟩
    exact wp_mono (wp_abort_caller ho (fun _ _ _ => hh.1))
      (fun _ _ h => ⟨h.1, h.2.1 (hh.2.1.trans hh.2.2.symm), h.2.2.trans hi⟩)
      (fun _ a h => ⟨h.1, (h.2.trans hi).symm ▸ .aborts (by simp)⟩) (fun _ _ h => h)
  · rintro a - ⟨ho, hh, hi⟩
    refine ⟨⟨ho.mem, ho.disk, ho.unrecorded, ho.uncaptured, ho.unlogged⟩, ?_⟩
    simpa [enqueue, hi] using OpenQueue.carrier (a := a.enqueue (.abort (some ticket))) hh.1

end Opening

structure TargetOpen (a : ContextActor) : Prop where
  uncommitted : a.mem.committedOutput = none ∧ a.disk.committedOutput = none
  unlogged : invoked .outletInvoked a = 0

def Vacant (a : ContextActor) : Prop := a.mem.sagaPending = false ∧ a.disk.sagaPending = false

def TargetFree (P : ContextActor → Prop) (a : ContextActor) : Prop :=
  TargetOpen a ∧ P a ∧ a.inbox = []

/-- The slot is free when the environment releases slots. -/
structure Released (env : Env Op) (a : ContextActor) : Prop where
  opened : TargetOpen a
  inbox : ∀ m ∈ a.inbox, m = .prepareB ∨ m = .abort none
  released : SlotsReleased env → Vacant a ∧ a.inbox = []

section TargetOpening
variable {env : Env Op} {outlet : Outlet} {a : ContextActor}

theorem TargetOpen.flush (h : TargetOpen a) : TargetOpen a.flush :=
  ⟨⟨h.uncommitted.1, h.uncommitted.1⟩, h.unlogged⟩

theorem TargetOpen.respawn (h : TargetOpen a) : TargetOpen a.respawn :=
  ⟨⟨h.uncommitted.2, h.uncommitted.2⟩, h.unlogged⟩

theorem TargetOpen.update (h : TargetOpen a) {f : PerContextState → PerContextState}
    (hf : (f a.mem).committedOutput = a.mem.committedOutput) : TargetOpen (a.update f) :=
  ⟨⟨hf.trans h.uncommitted.1, h.uncommitted.2⟩, h.unlogged⟩

theorem steady_released : Steady (Released env) where
  flush _ h := ⟨h.opened.flush, h.inbox, fun hs =>
    ⟨⟨(h.released hs).1.1, (h.released hs).1.1⟩, (h.released hs).2⟩⟩
  respawn _ h := ⟨h.opened.respawn, by simp [Actor.respawn], fun hs =>
    ⟨⟨(h.released hs).1.2, (h.released hs).1.2⟩, rfl⟩⟩

theorem steady_targetFree {P : ContextActor → Prop} (hP : ∀ a, P a → P a.flush ∧ P a.respawn) :
    Steady (TargetFree P) where
  flush a h := ⟨h.1.flush, (hP a h.2.1).1, h.2.2⟩
  respawn a h := ⟨h.1.respawn, (hP a h.2.1).2, rfl⟩

theorem steady_vacant : Steady (TargetFree Vacant) :=
  steady_targetFree (fun _ h => ⟨⟨h.1, h.1⟩, ⟨h.2, h.2⟩⟩)

theorem TargetFree.released (h : TargetFree Vacant a) : Released env a :=
  ⟨h.1, by simp [h.2.2], fun _ => ⟨h.2.1, h.2.2⟩⟩

theorem wp_prepareB (h : TargetOpen a) :
    wp env prepareB (fun _ a' => TargetOpen a' ∧ a'.inbox = a.inbox)
      (fun _ a' => TargetOpen a' ∧ (Vacant a → Vacant a') ∧ a'.inbox = a.inbox)
      (fun _ a' => TargetOpen a' ∧ a'.disk.sagaPending = a.disk.sagaPending) a := by
  apply wp_bind
  apply wp_attemptOr
  · intro _
    apply wp_bind
    apply wp_commitRestore
    · intro _
      exact wp_pure ⟨(h.update (f := stagePending) rfl).flush, rfl⟩
    · intro _
      refine wp_fail ⟨h.update (f := fun s => unstagePending s (stagePending s)) rfl, ?_, rfl⟩
      rintro ⟨hmem, hdisk⟩
      exact ⟨by simp [Actor.update, unstagePending, hmem], hdisk⟩
    · intro _ _
      exact ⟨h.update rfl, rfl⟩
  · intro _
    exact ⟨h, id, rfl⟩
  · intro _ _
    exact ⟨h, rfl⟩

/-- The target's books are not read. -/
theorem wp_abort_target (h : TargetOpen a) :
    wp env (abort .target none)
      (fun _ a' => TargetOpen a' ∧ (a.mem.sagaPending = a.disk.sagaPending → Vacant a') ∧
        a'.inbox = a.inbox)
      (fun _ a' => TargetOpen a' ∧ (∃ n, (env n (.persist .target .abort)).Refuses) ∧
        a'.inbox = a.inbox)
      (fun c a' => TargetOpen a' ∧ ∃ n, env n (.persist .target .abort) = c.fate) a := by
  -- With or without a reservation, what is left is to free the slot and persist.
  have hrelease (b : ContextActor) (hb : TargetOpen b) (hi : b.inbox = a.inbox) :
      wp env (do
        if ← commitKeep (.persist .target .abort) release then pure ()
        else fail .persistenceFailed : Handler Unit)
      (fun _ a' => TargetOpen a' ∧ (a.mem.sagaPending = a.disk.sagaPending → Vacant a') ∧
        a'.inbox = a.inbox)
      (fun _ a' => TargetOpen a' ∧ (∃ n, (env n (.persist .target .abort)).Refuses) ∧
        a'.inbox = a.inbox)
      (fun c a' => TargetOpen a' ∧ ∃ n, env n (.persist .target .abort) = c.fate) b := by
    have hb' : TargetOpen (b.update release) := hb.update rfl
    apply wp_bind
    apply wp_commitKeep
    · intro _
      exact wp_pure ⟨hb'.flush, fun _ => ⟨rfl, rfl⟩, hi⟩
    · intro hn
      exact wp_fail ⟨hb', hn, hi⟩
    · intro c hc
      exact ⟨hb', hc⟩
  apply wp_bind
  apply wp_bind
  apply wp_pure
  apply wp_bind
  apply wp_get
  by_cases hr : a.mem.callerReservation = true
  · rw [if_pos hr]
    apply wp_bind
    apply wp_modify
    apply wp_pure
    apply wp_bind
    apply wp_get
    rw [if_pos (by simp)]
    exact hrelease _ (h.update rfl) rfl
  · rw [if_neg hr]
    apply wp_pure
    apply wp_bind
    apply wp_get
    by_cases hp : a.mem.sagaPending = true
    · rw [if_pos (by simp [hp])]
      exact hrelease a h rfl
    · rw [if_neg (by simp [hr, hp])]
      have hp' : a.mem.sagaPending = false := by simpa using hp
      exact wp_pure ⟨h, fun hs => ⟨hp', hs ▸ hp'⟩, rfl⟩

theorem wp_drain_target {E : ContextError → ContextActor → Prop} (h : TargetOpen a)
    (hq : ∀ m ∈ a.inbox, m = .prepareB ∨ m = .abort none) :
    wp env (drain (.coalesce .target) (serve outlet .target) a.inbox)
      (fun _ a' => TargetOpen a' ∧ a'.inbox = []) E (fun _ => TargetOpen) a := by
  apply wp_mono (wp_drain (I := fun ms a => TargetOpen a ∧ a.inbox = ms ∧
    ∀ m ∈ ms, m = .prepareB ∨ m = .abort none) ?_ ?_ ?_ a.inbox a ⟨h, rfl, hq⟩)
    (fun _ _ h => ⟨h.1, h.2.1⟩) (fun _ _ h => h) (fun _ _ h => h)
  · rintro m ms a ⟨ho, -, hq⟩
    have ho' : TargetOpen { a with inbox := ms } := ⟨ho.uncommitted, ho.unlogged⟩
    have hrest : ∀ m ∈ ms, m = .prepareB ∨ m = .abort none := fun m hm => hq m (by simp [hm])
    apply wp_serve
    obtain hm | hm := hq m (by simp)
    · rw [hm]
      exact wp_mono (wp_prepareB ho') (fun _ _ h => ⟨h.1, h.2, hrest⟩)
        (fun _ _ h => ⟨h.1, h.2.2, hrest⟩) (fun _ _ h => h.1)
    · rw [hm]
      exact wp_mono (wp_abort_target ho') (fun _ _ h => ⟨h.1, h.2.2, hrest⟩)
        (fun _ _ h => ⟨h.1, h.2.2, hrest⟩) (fun _ _ h => h.1)
  · rintro ms a ⟨ho, hi, hq⟩
    exact ⟨ho.flush, hi, hq⟩
  · rintro ms a c ⟨ho, -, -⟩
    exact ho

theorem wp_deliver_prepareB {E : ContextError → ContextActor → Prop} (h : TargetFree Vacant a) :
    wp env (deliver outlet .target .prepareB)
      (Sent (Replied (fun _ => TargetFree (fun _ => True)) (TargetFree Vacant)) (Released env)
        (TargetFree Vacant)) E (fun c a => c = .crash ∧ TargetOpen a) a := by
  have hopen (answer : Except ContextError Unit) (a : ContextActor)
      (h : Replied (fun _ => TargetFree (fun _ => True)) (TargetFree Vacant) answer a) :
      TargetOpen a := replied_imp (fun _ _ h => h.1) (fun _ h => h.1) answer a h
  refine wp_mono (wp_send (TargetFree Vacant) (TargetFree Vacant)
    (R := fun c a => TargetOpen a ∧ (c = .down → SlotsReleased env → a.disk.sagaPending = false))
    (fun a h => wp_drain_nil h.2.2 h) ?_ ?_ (fun a h => ⟨h.1, by simp⟩)
    (fun answer a h => ⟨hopen answer a h, by simp⟩) (fun a h => ⟨h.opened, by simp⟩) ?_
    (fun a _ h => (steady_vacant.respawn a h).released) ?_ ?_ (fun a _ h => h.released)
    (fun a _ h => h)
    (steady_replied (fun _ => steady_targetFree (fun _ _ => ⟨trivial, trivial⟩)) steady_vacant)
    steady_released h) (fun _ _ h => h) (fun _ _ h => h) (fun _ _ h => ⟨h.1, h.2.1⟩)
  · rintro a ⟨ho, hv, hi⟩
    exact wp_mono (wp_prepareB ho) (fun _ _ h => ⟨h.1, trivial, h.2.trans hi⟩)
      (fun _ _ h => ⟨h.1, h.2.1 hv, h.2.2.trans hi⟩) (fun _ _ h => ⟨h.1, fun _ _ => h.2.trans hv.2⟩)
  · rintro answer a c ⟨n, hn⟩ h
    refine ⟨hopen answer a h, ?_⟩
    rintro rfl hs
    obtain ha | ha := hs.answered n
    · exact absurd (hn.symm.trans ha) (by simp [Cut.fate])
    · exact absurd (hn.symm.trans ha) (by simp [Cut.fate])
  · rintro a ⟨ho, hd⟩
    exact ⟨ho.respawn, by simp [Actor.respawn], fun hs => ⟨⟨hd rfl hs, hd rfl hs⟩, rfl⟩⟩
  · rintro answer a ⟨n, hn⟩ h
    have hi : a.inbox = [] := replied_imp (fun _ _ h => h.2.2) (fun _ h => h.2.2) answer a h
    refine ⟨hopen answer a h, by simp [hi], fun hs => ?_⟩
    -- The answer does not get lost when slots are released.
    obtain ha | ha := hs.answered n
    · exact absurd hn (by simp [SagaPhaseMessage.phase, ha, Fate.Refuses])
    · exact absurd hn (by simp [SagaPhaseMessage.phase, ha, Fate.Refuses])
  · rintro a ⟨n, hn⟩ ⟨ho, hv, hi⟩
    refine ⟨⟨ho.uncommitted, ho.unlogged⟩, by simp [enqueue, hi], fun hs => ?_⟩
    exact absurd hn (hs.prepared n)

theorem wp_deliver_abort_target {E : ContextError → ContextActor → Prop}
    (h : TargetFree (fun a => a.mem.sagaPending = a.disk.sagaPending) a) :
    wp env (deliver outlet .target (.abort none))
      (Sent (Replied (fun _ => TargetFree Vacant) (Released env)) (Released env) (Released env)) E
      (fun c a => c = .crash ∧ TargetOpen a) a := by
  have hreleased (answer : Except ContextError Unit) (a : ContextActor)
      (h : Replied (fun _ => TargetFree Vacant) (Released env) answer a) : Released env a :=
    replied_imp (fun _ _ h => h.released) (fun _ h => h) answer a h
  -- An abort the target never saw breaks the promise that aborts are delivered.
  have hnever (a : ContextActor) (ho : TargetOpen a)
      (hi : ∀ m ∈ a.inbox, m = .prepareB ∨ m = .abort none) {fate : Fate}
      (hn : ∃ n, env n (.enqueue .target .abort) = fate) (hne : fate ≠ .ok ∧ fate ≠ .crash) :
      Released env a := by
    refine ⟨ho, hi, fun hs => ?_⟩
    obtain ⟨n, hn⟩ := hn
    obtain hd | hd := hs.delivered n
    · exact absurd (hn.symm.trans hd) hne.1
    · exact absurd (hn.symm.trans hd) hne.2
  refine wp_mono (wp_send (TargetFree (fun a => a.mem.sagaPending = a.disk.sagaPending))
    (TargetFree (fun a => a.mem.sagaPending = a.disk.sagaPending))
    (R := fun c a => TargetOpen a ∧ (c = .down → SlotsReleased env → Vacant a))
    (fun a h => wp_drain_nil h.2.2 h) ?_
    (fun answer a c _ h => ⟨(hreleased answer a h).opened,
      fun _ hs => ((hreleased answer a h).released hs).1⟩) (fun a h => ⟨h.1, by simp⟩)
    (fun answer a h => ⟨(hreleased answer a h).opened, by simp⟩) (fun a h => ⟨h.opened, by simp⟩) ?_
    (fun a hn h => hnever _ h.1.respawn (by simp [Actor.respawn]) hn (by simp))
    (fun answer a _ h => hreleased answer a h)
    (fun a hn h => hnever _ ⟨h.1.uncommitted, h.1.unlogged⟩ (by simp [enqueue, h.2.2]) hn (by simp))
    (fun a hn h => hnever a h.1 (by simp [h.2.2]) hn (by simp))
    (fun a hn h => hnever a h.1 (by simp [h.2.2]) hn (by simp))
    (steady_replied (fun _ => steady_vacant) steady_released)
    steady_released h) (fun _ _ h => h) (fun _ _ h => h) (fun _ _ h => ⟨h.1, h.2.1⟩)
  · rintro a ⟨ho, hs, hi⟩
    -- Likewise a handler that could not persist its release.
    have hpersisted {fate : Fate} (hn : ∃ n, env n (.persist .target .abort) = fate)
        (hne : fate ≠ .ok ∧ fate ≠ .crash) : ¬ SlotsReleased env := by
      rintro hs
      obtain ⟨n, hn⟩ := hn
      obtain hd | hd := hs.persisted n
      · exact hne.1 (hn.symm.trans hd)
      · exact hne.2 (hn.symm.trans hd)
    apply wp_mono (wp_abort_target ho)
    · exact fun _ a h => ⟨h.1, h.2.1 hs, h.2.2.trans hi⟩
    · rintro _ a ⟨ho', ⟨n, hn⟩, hi'⟩
      refine ⟨ho', by simp [hi', hi], fun hs => absurd hs (hpersisted ⟨n, rfl⟩ ?_)⟩
      obtain hn | hn | hn := hn <;> simp [hn]
    · rintro c a ⟨ho', hn⟩
      refine ⟨ho', ?_⟩
      rintro rfl hs
      exact absurd hs (hpersisted hn (by simp [Cut.fate]))
  · rintro a ⟨ho, hd⟩
    exact ⟨ho.respawn, by simp [Actor.respawn], fun hs => ⟨⟨(hd rfl hs).2, (hd rfl hs).2⟩, rfl⟩⟩

end TargetOpening

end ScpCore.CrossContext
