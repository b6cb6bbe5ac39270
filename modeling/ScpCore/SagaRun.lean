import ScpCore.SagaSettlement

/-! The first life of a saga. The journal tells what the two snapshots may hold when the
process goes down, and the messages that are still in an inbox when the coordinator ends
keep it. -/

namespace ScpCore.CrossContext

open Prog Actor
open Saga (SagaState SagaTerminalState)

/-- Nothing is committed, or nothing is given back. -/
def Sound (env : Env Op) (c t : ContextActor) : Prop :=
  (CallerOpen c ∧ TargetOpen t) ∨ (Kept env c ∧ Stored env t)

/-- The latest entry of a saga that is not resolved. -/
def Reached (env : Env Op) (entry : LatestEntry) (c t : ContextActor) : Prop :=
  match entry.state with
  | .initiated => (CallerOpen c ∧ TargetOpen t) ∧
    c.disk.callerReservation = false ∧ t.disk.sagaPending = false
  | .preparingA => (CallerOpen c ∧ TargetOpen t) ∧ t.disk.sagaPending = false ∧
    entry.evidence = false
  | .preparingB => (CallerOpen c ∧ TargetOpen t) ∧ entry.evidence = true
  | .committing => Kept env c ∧ Stored env t
  | .needsRepair | .aborting | .committed | .aborted => Sound env c t

structure CommittedStanding (env : Env Op) (c t : ContextActor) : Prop where
  caller : Kept env c
  target : Stored env t
  witnessed : LogsFollow env →
    c.disk.committedInvocation = true ∧ t.disk.committedOutput.isSome = true

structure AbortedStanding (env : Env Op) (stored : Bool) (c t : ContextActor) : Prop where
  opened : CallerOpen c ∧ TargetOpen t
  cleared : stored = true → Cleared c
  vacant : SlotsReleased env → Vacant t

def Standing (env : Env Op) (j : Journal) (stored : Bool) (c t : ContextActor) : Prop :=
  match j.resolved with
  | some .committed => CommittedStanding env c t
  | some .aborted => AbortedStanding env stored c t
  | none => match j.latest with
    | some entry => Reached env entry c t
    | none => CallerOpen c ∧ TargetOpen t

structure Durable (env : Env Op) (w : World) : Prop where
  executor : w.executions + w.ctx.executor.toNat ≤ 1
  standing : Standing env w.journal w.callerStored w.caller w.target

/-- An empty inbox leaves its actor as it is. -/
structure Rests (w : World) (c t : ContextActor) : Prop where
  caller : w.caller.inbox = [] → c = w.caller
  target : w.target.inbox = [] → t = w.target

/-- The coordinator has ended, and what it left in the inboxes is still to be handled. -/
inductive Over (env : Env Op) (w : World) : Prop
  | opened (executor : w.executions + w.ctx.executor.toNat ≤ 1) (caller : Loose w.caller)
      (target : TargetOpen w.target) (inbox : ∀ m ∈ w.target.inbox, m = .prepareB ∨ m = .abort none)
      (standing : ∀ c t, CallerOpen c → TargetOpen t → Rests w c t →
        Standing env w.journal w.callerStored c t)
  | committing (executor : w.executions + w.ctx.executor.toNat ≤ 1) (caller : Awaiting env w.caller)
      (target : Pending env w.target)
      (standing : ∀ c t, Kept env c → Stored env t → Rests w c t →
        Standing env w.journal w.callerStored c t)

/-- A stage of the coordinator: the journal, what it carries beside the caller, and the target. -/
structure Stage (J : Journal → Prop) (C : CrossContextSagaCtx → ContextActor → Prop)
    (T : ContextActor → Prop) (w : World) : Prop where
  journal : J w.journal
  caller : C w.ctx w.caller
  target : T w.target
  executor : w.executions + w.ctx.executor.toNat ≤ 1

/-- The journal of a saga that is not resolved. -/
def Journal.reached (state : SagaState) (seq : ℕ) (evidence : Bool) : Journal :=
  ⟨some ⟨state, seq, evidence⟩, none⟩

theorem Journal.append_reached {state state' : SagaState} {seq seq' : ℕ} {evidence evidence' : Bool}
    (h : seq ≤ seq') : (reached state seq evidence).append ⟨state', seq', evidence'⟩ =
      reached state' seq' evidence' := by
  simp [Journal.append, reached, h]

section Runs
variable {env : Env Op} {outlet : Outlet} {w : World} {J : Journal → Prop}
  {C : CrossContextSagaCtx → ContextActor → Prop} {T : ContextActor → Prop}

theorem Standing.sound {j : Journal} {stored : Bool} {c t : ContextActor}
    (h : Standing env j stored c t) : Sound env c t := by
  obtain ⟨latest, resolved⟩ := j
  match resolved, latest with
  | some .committed, _ => exact .inr ⟨h.caller, h.target⟩
  | some .aborted, _ => exact .inl h.opened
  | none, none => exact .inl h
  | none, some ⟨state, seq, evidence⟩ =>
    cases state with
    | initiated => exact .inl h.1
    | preparingA => exact .inl h.1
    | preparingB => exact .inl h.1
    | committing => exact .inr h
    | needsRepair => exact h
    | aborting => exact h
    | committed => exact h
    | aborted => exact h

section Steps
variable {E : ContextError → World → Prop} {R : Cut → World → Prop}

theorem wp_appendJournal {state : SagaState} {seq : ℕ} {evidence : Bool} {Q : Unit → World → Prop}
    (hok : Q () (w.setJournal (Journal.append ⟨state, seq, evidence⟩))) (hfail : E .sagaJournal w)
    (hR : R .crash w) : wp env (appendJournal state seq evidence) Q E R w := by
  apply wp_bind
  apply wp_succeeds
  · intro _
    exact wp_modify hok
  · intro _
    exact wp_fail hfail
  · intro _
    exact hR

theorem wp_markResolved {terminal : SagaTerminalState} {Q : Unit → World → Prop}
    (hok : Q () (w.setJournal (Journal.resolve terminal))) (hfail : E .sagaJournal w)
    (hR : R .crash w) : wp env (markResolved terminal) Q E R w := by
  apply wp_bind
  apply wp_succeeds
  · intro _
    exact wp_modify hok
  · intro _
    exact wp_fail hfail
  · intro _
    exact hR

theorem putActor_actor (party : Party) (w : World) : w.putActor party (w.actor party) = w := by
  cases party <;> rfl

theorem putActor_putActor (party : Party) (a b : ContextActor) (w : World) :
    (w.putActor party a).putActor party b = w.putActor party b := by
  cases party <;> rfl

theorem actor_putActor (party : Party) (a : ContextActor) (w : World) :
    (w.putActor party a).actor party = a := by
  cases party <;> rfl

/-- A lookup that finds nothing. -/
def Missing (env : Env Op) (party : Party) (phase : Phase) : Prop :=
  party = .caller ∨ ∃ n, env n (.lookup party phase) ≠ .ok ∧ env n (.lookup party phase) ≠ .down ∧
    env n (.lookup party phase) ≠ .crash

/-- The actor may have been started again. -/
theorem wp_lookup (party : Party) (w : World) {phase : Phase} {Before : ContextActor → Prop}
    {Q : Bool → World → Prop} (hrespawn : ∀ a, Before a → Before a.respawn)
    (h : Before (w.actor party)) (hfound : ∀ a, Before a → Q true (w.putActor party a))
    (hmissing : Missing env party phase → Q false w) (hR : R .crash w) :
    wp env (lookup party phase) Q E R w := by
  apply wp_bind
  apply wp_get
  by_cases hs : (party = .caller && !w.callerStored) = true
  · rw [if_pos hs]
    have hparty : party = .caller := by
      by_contra hne
      simp [hne] at hs
    exact wp_pure (hmissing (.inl hparty))
  · rw [if_neg hs]
    apply wp_bind
    apply wp_ask
    · intro fate hfate hne
      have hself : Q true w := by
        have hw := hfound _ h
        rwa [putActor_actor] at hw
      have hnone (hno : fate ≠ .ok ∧ fate ≠ .down) : Q false w := by
        obtain ⟨n, hn⟩ := hfate
        exact hmissing (.inr ⟨n, hn ▸ hno.1, hn ▸ hno.2, hn ▸ hne⟩)
      cases fate with
      | ok => exact wp_pure hself
      | down =>
        apply wp_bind
        apply wp_zoom
        apply wp_modify
        exact wp_pure (hfound _ (hrespawn _ h))
      | fail => exact wp_pure (hnone (by simp))
      | late => exact wp_pure (hnone (by simp))
      | lost => exact wp_pure (hnone (by simp))
      | crash => exact absurd rfl hne
    · intro _
      exact hR

variable {party : Party} {m : SagaPhaseMessage} {Lost Back Down : ContextActor → Prop}
  {After : Except ContextError m.Answer → ContextActor → Prop}

theorem wp_deliver_to {Q : Delivery (Except ContextError m.Answer) → World → Prop}
    {a : ContextActor} (ha : w.actor party = a)
    (hdeliver : wp env (deliver outlet party m) (Sent After Lost Back) (fun _ _ => False)
      (fun c a => c = .crash ∧ Down a) a)
    (hsent : ∀ delivery a, Sent After Lost Back delivery a → Q delivery (w.putActor party a))
    (hR : ∀ a, Down a → R .crash (w.putActor party a)) :
    wp env (send outlet party m) Q E R w := by
  rw [CrossContext.send, onActor]
  apply wp_zoom
  rw [ha]
  apply wp_mono hdeliver
  · exact hsent
  · intro _ _ h
    exact h.elim
  · rintro c a ⟨rfl, h⟩
    exact hR a h

theorem wp_call (Before : ContextActor → Prop) {missing : ContextError} {Q : m.Answer → World → Prop}
    (hdeliver : ∀ a, Before a → wp env (deliver outlet party m) (Sent After Lost Back)
      (fun _ _ => False) (fun c a => c = .crash ∧ Down a) a)
    (hrespawn : ∀ a, Before a → Before a.respawn) (h : Before (w.actor party))
    (hok : ∀ x a, After (.ok x) a → Q x (w.putActor party a))
    (herr : ∀ e a, After (.error e) a ∨ Lost a ∨ Back a ∨ Before a → E e (w.putActor party a))
    (hR : ∀ a, Before a ∨ Down a → R .crash (w.putActor party a)) :
    wp env (call outlet party m missing) Q E R w := by
  apply wp_bind
  apply wp_lookup party w hrespawn h
  · intro a ha
    apply wp_bind
    apply wp_deliver_to (actor_putActor ..) (hdeliver a ha)
    · intro delivery b hb
      rw [putActor_putActor]
      match delivery with
      | .answered (.ok x) => exact wp_pure (hok x b hb)
      | .answered (.error e) => exact wp_fail (herr e b (.inl hb))
      | .unanswered => exact wp_fail (herr _ b (.inr (.inl hb)))
      | .undelivered => exact wp_fail (herr _ b (.inr (.inr (.inl hb))))
    · intro b hb
      rw [putActor_putActor]
      exact hR b (.inr hb)
  · intro _
    have hw := herr missing _ (.inr (.inr (.inr h)))
    rw [putActor_actor] at hw
    exact wp_fail hw
  · have hw := hR _ (.inl h)
    rwa [putActor_actor] at hw

/-- What the caller's leg of an abort leaves. -/
def Outcome (reversal : CallerAbortReversal) (a : ContextActor) : Prop :=
  Loose a ∧ (reversal = .settledOrAbsent → Free Cleared a)

theorem Free.outcome {a : ContextActor} (h : Free Cleared a) (reversal : CallerAbortReversal) :
    Outcome reversal a :=
  ⟨(h.unheld (h.2.1.1.trans h.2.1.2.symm)).loose, fun _ => h⟩

theorem Loose.outcome {a : ContextActor} (h : Loose a) : Outcome .reversalOutstanding a :=
  ⟨h, by simp⟩

theorem Free.unheld_holding {a : ContextActor} (h : Free Holding a) : Unheld a :=
  h.unheld (h.2.1.2.1.trans h.2.1.2.2.symm)

/-- A change of the caller alone. -/
theorem Stage.putCaller {C' : CrossContextSagaCtx → ContextActor → Prop} {a : ContextActor}
    (h : Stage J C T w) (ha : C' w.ctx a) : Stage J C' T (w.putActor .caller a) :=
  ⟨h.journal, ha, h.target, h.executor⟩

theorem Stage.putTarget {T' : ContextActor → Prop} {a : ContextActor} (h : Stage J C T w)
    (ha : T' a) : Stage J C T' (w.putActor .target a) :=
  ⟨h.journal, h.caller, ha, h.executor⟩

theorem wp_redriveCallerLocalReversal {X : CrossContextSagaCtx → Prop}
    (hR : ∀ w, Stage J (fun _ => CallerOpen) T w → R .crash w)
    (h : Stage J (fun ctx a => X ctx ∧ Unheld a) T w) :
    wp env (redriveCallerLocalReversal outlet)
      (fun reversal => Stage J (fun ctx a => X ctx ∧ Outcome reversal a) T) E R w := by
  apply wp_bind
  apply wp_lookup .caller w steady_unheld.respawn h.caller.2
  · intro a ha
    apply wp_bind
    apply wp_deliver_to (actor_putActor ..) (wp_deliver_abort_none ha)
    · intro delivery b hb
      rw [putActor_putActor]
      match delivery with
      | .answered (.ok ()) => exact wp_pure (h.putCaller ⟨h.caller.1, Free.outcome hb _⟩)
      | .answered (.error _) => exact wp_pure (h.putCaller ⟨h.caller.1, Loose.outcome hb⟩)
      | .unanswered => exact wp_pure (h.putCaller ⟨h.caller.1, Loose.outcome hb⟩)
      | .undelivered => exact wp_pure (h.putCaller ⟨h.caller.1, Loose.outcome hb⟩)
    · intro b hb
      rw [putActor_putActor]
      exact hR _ (h.putCaller hb)
  · intro _
    exact wp_pure ⟨h.journal, ⟨h.caller.1, h.caller.2.loose.outcome⟩, h.target, h.executor⟩
  · exact hR w ⟨h.journal, h.caller.2.1, h.target, h.executor⟩

/-- What the coordinator of a saga that aborts carries: no answer of the target, and a
ticket only of a reservation that is held. -/
def Abortable (ctx : CrossContextSagaCtx) (a : ContextActor) : Prop :=
  ctx.preparedB = false ∧ Unheld a ∧ ∀ ticket, ctx.preparedA = some ticket → Free Holding a

theorem wp_abortCallerLeg (hR : ∀ w, Stage J (fun _ => CallerOpen) T w → R .crash w)
    (h : Stage J Abortable T w) :
    wp env (abortCallerLeg outlet)
      (fun reversal => Stage J (fun ctx a => ctx.preparedB = false ∧ Outcome reversal a) T) E R w := by
  obtain ⟨hB, hunheld, hheld⟩ := h.caller
  apply wp_bind
  apply wp_get
  cases hA : w.ctx.preparedA with
  | none => exact wp_redriveCallerLocalReversal hR ⟨h.journal, ⟨hB, hunheld⟩, h.target, h.executor⟩
  | some ticket =>
    apply wp_bind
    apply wp_modify
    have h' : Stage J (fun ctx a => ctx.preparedB = false ∧ Free Holding a) T
        (w.setCtx (fun ctx => { ctx with preparedA := none })) :=
      ⟨h.journal, ⟨hB, hheld ticket hA⟩, h.target, h.executor⟩
    apply wp_bind
    apply wp_lookup .caller _ steady_holding.respawn h'.caller.2
    · intro a ha
      apply wp_bind
      apply wp_deliver_to (actor_putActor ..) (wp_deliver_abort_some ha)
      · intro delivery b hb
        rw [putActor_putActor]
        match delivery with
        | .answered (.ok ()) => exact wp_pure (h'.putCaller ⟨hB, Free.outcome hb _⟩)
        | .answered (.error _) => exact wp_pure (h'.putCaller ⟨hB, Loose.outcome hb⟩)
        | .unanswered => exact wp_pure (h'.putCaller ⟨hB, Loose.outcome hb⟩)
        -- The ticket never arrived: the record gives the reservation back.
        | .undelivered => exact wp_redriveCallerLocalReversal hR (h'.putCaller ⟨hB, hb⟩)
      · intro b hb
        rw [putActor_putActor]
        exact hR _ (h'.putCaller hb)
    · intro _
      exact wp_pure ⟨h'.journal, ⟨hB, h'.caller.2.unheld_holding.loose.outcome⟩, h'.target,
        h'.executor⟩
    · exact hR _ ⟨h'.journal, h'.caller.2.1, h'.target, h'.executor⟩

/-- The target's leg is not sent before its answer to Prepare-B. -/
theorem wp_abortXctxParticipants (hR : ∀ w, Stage J (fun _ => CallerOpen) T w → R .crash w)
    (h : Stage J Abortable T w) :
    wp env (abortXctxParticipants outlet)
      (fun reversal => Stage J (fun _ => Outcome reversal) T) E R w := by
  apply wp_bind
  apply wp_mono (wp_abortCallerLeg hR h) _ (fun _ _ h => h) (fun _ _ h => h)
  intro reversal w h
  apply wp_bind
  apply wp_get
  rw [if_neg (by simp [h.caller.1])]
  exact wp_pure ⟨h.journal, h.caller.2, h.target, h.executor⟩

end Steps

/-- The journal `j` stands whatever the two actors still handle. -/
def Keeps (env : Env Op) (j : Journal) (T : ContextActor → Prop) : Prop :=
  ∀ stored c t t', CallerOpen c → T t → TargetOpen t' → (t.inbox = [] → t' = t) →
    Standing env j stored c t'

/-- A target that has not been asked to commit. -/
def Idle (t : ContextActor) : Prop :=
  TargetOpen t ∧ ∀ m ∈ t.inbox, m = .prepareB ∨ m = .abort none

theorem Stage.durable {j : Journal} (hT : ∀ t, T t → TargetOpen t) (hk : Keeps env j T)
    (h : Stage (· = j) (fun _ => CallerOpen) T w) : Durable env w := by
  refine ⟨h.executor, ?_⟩
  rw [h.journal]
  exact hk _ _ _ _ h.caller h.target (hT _ h.target) (fun _ => rfl)

theorem Stage.over {j : Journal} (hT : ∀ t, T t → Idle t) (hk : Keeps env j T)
    (h : Stage (· = j) (fun _ => Loose) T w) : Over env w := by
  refine .opened h.executor h.caller (hT _ h.target).1 (hT _ h.target).2 (fun c t hc ht hr => ?_)
  rw [h.journal]
  exact hk _ _ _ _ hc h.target ht hr.target

theorem over_aborted (hexec : w.executions + w.ctx.executor.toNat ≤ 1) (hc : Loose w.caller)
    (hcleared : w.callerStored = true → Free Cleared w.caller) (ht : Released env w.target) :
    Over env (w.setJournal (Journal.resolve .aborted)) := by
  refine .opened hexec hc ht.opened ht.inbox (fun c t hopen htopen hr => ?_)
  change AbortedStanding env w.callerStored c t
  refine ⟨⟨hopen, htopen⟩, fun hs => ?_, fun hsr => ?_⟩
  · have hfree := hcleared hs
    rw [hr.caller hfree.2.2]
    exact hfree.2.1
  · have hfree := ht.released hsr
    rw [hr.target hfree.2]
    exact hfree.1

theorem keeps_aborting {seq : ℕ} {evidence : Bool} :
    Keeps env (.reached .aborting seq evidence) T :=
  fun _ _ _ _ hc _ ht _ => .inl ⟨hc, ht⟩

theorem Released.idle {t : ContextActor} (h : Released env t) : Idle t := ⟨h.opened, h.inbox⟩

theorem wp_abortSaga {state : SagaState} {seq nextSeq : ℕ} {evidence : Bool} (hseq : seq ≤ nextSeq)
    (hT : ∀ t, T t → Released env t) (hk : Keeps env (.reached state seq evidence) T)
    (h : Stage (· = .reached state seq evidence) Abortable T w) :
    wp env (abortSaga outlet nextSeq) (fun _ => Over env) (fun _ => Over env)
      (fun _ => Durable env) w := by
  have hidle (t : ContextActor) (ht : T t) : Idle t := (hT t ht).idle
  apply wp_bind
  apply wp_mono (wp_abortXctxParticipants (E := fun _ => Over env) (R := fun _ => Durable env)
    (fun w h => h.durable (fun t ht => (hT t ht).opened) hk) h) _ (fun _ _ h => h) (fun _ _ h => h)
  intro reversal w h
  cases reversal with
  | reversalOutstanding =>
    exact wp_pure (Stage.over hidle hk ⟨h.journal, h.caller.1, h.target, h.executor⟩)
  | settledOrAbsent =>
    have hcleared : Free Cleared w.caller := h.caller.2 rfl
    apply wp_bind
    apply wp_appendJournal
    · have haborting : Stage (· = .reached .aborting nextSeq false) (fun _ => Loose) T
          (w.setJournal (Journal.append ⟨.aborting, nextSeq, false⟩)) := by
        refine ⟨?_, h.caller.1, h.target, h.executor⟩
        change Journal.append _ w.journal = _
        rw [h.journal, Journal.append_reached hseq]
      apply wp_markResolved
      · exact over_aborted h.executor h.caller.1 (fun _ => hcleared) (hT _ h.target)
      · exact haborting.over hidle keeps_aborting
      · exact Stage.durable (fun t ht => (hT t ht).opened) keeps_aborting
          ⟨haborting.journal, h.caller.1.1, h.target, h.executor⟩
    · exact Stage.over hidle hk ⟨h.journal, h.caller.1, h.target, h.executor⟩
    · exact Stage.durable (fun t ht => (hT t ht).opened) hk
        ⟨h.journal, h.caller.1.1, h.target, h.executor⟩

/-- A caller that does not know the saga. -/
def Fresh (a : ContextActor) : Prop := Blank a ∧ a.disk.reversed = 0

theorem Free.fresh_respawn {a : ContextActor} (h : Free Fresh a) : Free Fresh a.respawn :=
  ⟨h.1.respawn, ⟨⟨h.2.1.2, h.2.1.1.2.2, h.2.1.1.2.2⟩, h.2.1.2⟩, rfl⟩

theorem wp_dispatchXctxPrepareA {R : Cut → World → Prop}
    (hR : ∀ w, Stage J (fun _ => CallerOpen) T w → R .crash w)
    (h : Stage J (fun ctx a => (ctx.preparedA = none ∧ ctx.preparedB = false) ∧ Free Fresh a) T w) :
    wp env (dispatchXctxPrepareA outlet)
      (fun _ => Stage J (fun ctx a => ctx.preparedB = false ∧ Free Holding a) T)
      (fun _ => Stage J Abortable T) R w := by
  obtain ⟨⟨hA, hB⟩, hfresh⟩ := h.caller
  have hblank (a : ContextActor) (ha : Free Fresh a) : Free Blank a := ⟨ha.1, ha.2.1.1, ha.2.2⟩
  have hnone {a : ContextActor} (ha : Unheld a) : Abortable w.ctx a := ⟨hB, ha, by simp [hA]⟩
  apply wp_bind
  apply wp_call (Free Fresh) (fun a ha => wp_deliver_prepareA (hblank a ha))
    (fun a ha => ha.fresh_respawn) hfresh
  · intro ticket a ha
    apply wp_modify
    exact ⟨h.journal, ⟨hB, ha⟩, h.target, h.executor⟩
  · rintro e a (ha | ha | ha | ha)
    · exact h.putCaller (hnone (Free.unheld ha (ha.2.1.1.trans ha.2.1.2.symm)))
    · exact h.putCaller (hnone ha)
    · exact h.putCaller (hnone ha)
    · exact h.putCaller (hnone (ha.unheld (ha.2.1.1.2.1.trans ha.2.1.1.2.2.symm)))
  · rintro a (ha | ha)
    · exact hR _ (h.putCaller ha.1)
    · exact hR _ (h.putCaller ha)

theorem wp_dispatchXctxPrepareB {R : Cut → World → Prop}
    (hR : ∀ w, Stage J (fun _ => Free Holding) TargetOpen w → R .crash w)
    (h : Stage J (fun ctx a => ctx.preparedB = false ∧ Free Holding a) (TargetFree Vacant) w) :
    wp env (dispatchXctxPrepareB outlet)
      (fun _ => Stage J (fun _ => Free Holding) (TargetFree (fun _ => True)))
      (fun _ => Stage J Abortable (Released env)) R w := by
  obtain ⟨hB, hholding⟩ := h.caller
  have habort (a : ContextActor) (ha : Released env a) :
      Stage J Abortable (Released env) (w.putActor .target a) :=
    ⟨h.journal, ⟨hB, hholding.unheld_holding, fun _ _ => hholding⟩, ha, h.executor⟩
  apply wp_bind
  apply wp_call (TargetFree Vacant) (fun a ha => wp_deliver_prepareB ha)
    steady_vacant.respawn h.target
  · intro _ a ha
    apply wp_modify
    exact ⟨h.journal, hholding, ha, h.executor⟩
  · rintro e a (ha | ha | ha | ha)
    · exact habort a (TargetFree.released ha)
    · exact habort a ha
    · exact habort a ha.released
    · exact habort a ha.released
  · rintro a (ha | ha)
    · exact hR _ ⟨h.journal, hholding, ha.1, h.executor⟩
    · exact hR _ ⟨h.journal, hholding, ha, h.executor⟩

/-- The commit phase may have to be repaired. -/
def Unfinished (j : Journal) : Prop :=
  j.resolved = none ∧ ∃ entry, j.latest = some entry ∧
    (entry.state = .committing ∨ entry.state = .needsRepair)

/-- The coordinator carries the ticket until it sends Commit-A. -/
def Carried (env : Env Op) (ctx : CrossContextSagaCtx) (a : ContextActor) : Prop :=
  Awaiting env a ∧ ∀ ticket, ctx.preparedA = some ticket → Settled env Unspent a

theorem Unfinished.standing {j : Journal} (hj : Unfinished j) {stored : Bool} {c t : ContextActor}
    (hc : Kept env c) (ht : Stored env t) : Standing env j stored c t := by
  obtain ⟨latest, resolved⟩ := j
  obtain ⟨rfl, ⟨state, seq, evidence⟩, rfl, rfl | rfl⟩ := hj
  · exact ⟨hc, ht⟩
  · exact .inr ⟨hc, ht⟩

theorem Unfinished.append {j : Journal} (hj : Unfinished j) (seq : ℕ) (evidence : Bool) :
    Unfinished (j.append ⟨.needsRepair, seq, evidence⟩) := by
  obtain ⟨hres, entry, hlatest, hstate⟩ := hj
  rw [Journal.append, hlatest]
  by_cases hseq : entry.seq ≤ seq
  · simp only [if_pos hseq]
    exact ⟨hres, _, rfl, .inr rfl⟩
  · simp only [if_neg hseq]
    exact ⟨hres, entry, hlatest, hstate⟩

theorem Stage.durable_committing (h : Stage Unfinished (fun _ => Kept env) (Stored env) w) :
    Durable env w :=
  ⟨h.executor, h.journal.standing h.caller h.target⟩

theorem Stage.over_committing (h : Stage Unfinished (fun _ => Awaiting env) (Pending env) w) :
    Over env w :=
  .committing h.executor h.caller h.target (fun _ _ hc ht _ => h.journal.standing hc ht)

theorem Awaiting.kept {a : ContextActor} (h : Awaiting env a) : Kept env a := h.1.toKept

theorem Pending.stored {a : ContextActor} (h : Pending env a) : Stored env a := h.1.logged

theorem wp_runExecutor {R : Cut → World → Prop}
    (hR : ∀ w, Stage J (Carried env) T w → R .crash w) (h : Stage J (Carried env) T w) :
    wp env (runExecutor outlet) (fun _ => Stage J (Carried env) T)
      (fun _ => Stage J (Carried env) T) R w := by
  apply wp_bind
  apply wp_get
  by_cases hex : w.ctx.executor = true
  · rw [if_pos hex]
    apply wp_bind
    apply wp_modify
    have hran : Stage J (Carried env) T { w.setCtx (fun ctx => { ctx with executor := false }) with
        executions := w.executions+1 } := by
      refine ⟨h.journal, h.caller, h.target, ?_⟩
      have hbound := h.executor
      rw [hex] at hbound
      simpa [World.setCtx] using hbound
    apply wp_bind
    apply wp_succeeds
    · intro _
      apply wp_bind
      apply wp_modify
      exact wp_pure ⟨hran.journal, hran.caller, hran.target, hran.executor⟩
    · intro _
      exact wp_fail hran
    · intro _
      exact hR _ hran
  · rw [if_neg hex]
    exact wp_fail h

theorem wp_executorOutput {R : Cut → World → Prop}
    (hR : ∀ w, Stage J (Carried env) T w → R .crash w) (h : Stage J (Carried env) T w) :
    wp env (executorOutput outlet) (fun _ => Stage J (Carried env) T)
      (fun _ => Stage J (Carried env) T) R w := by
  apply wp_bind
  apply wp_get
  cases w.ctx.executorOutput with
  | some stashed => exact wp_pure h
  | none => exact wp_runExecutor hR h

theorem Stage.crash_committing {w : World} (h : Stage Unfinished (Carried env) (Pending env) w) :
    Durable env w :=
  Stage.durable_committing ⟨h.journal, h.caller.1.kept, h.target.stored, h.executor⟩

theorem wp_commitBFirstExecute (h : Stage Unfinished (Carried env) (Pending env) w) :
    wp env (commitBFirstExecute outlet)
      (fun _ => Stage Unfinished (Carried env) (Ready env (Captured env)))
      (fun _ => Stage Unfinished (Carried env) (Pending env)) (fun _ => Durable env) w := by
  apply wp_bind
  apply wp_mono (wp_executorOutput (R := fun _ => Durable env) (fun w h => h.crash_committing) h)
    _ (fun _ _ h => h) (fun _ _ h => h)
  intro output w h
  apply wp_bind
  apply wp_call (Pending env) (fun a ha => wp_deliver_commitBSettle ha)
    steady_pending.respawn h.target
  · intro _ a ha
    apply wp_bind
    apply wp_modify
    exact wp_pure ⟨h.journal, h.caller, ha, h.executor⟩
  · rintro e a (ha | ha | ha | ha)
    · exact h.putTarget (Ready.pending (P := fun _ => True) ha)
    · exact h.putTarget ha
    · exact h.putTarget ha
    · exact h.putTarget ha
  · rintro a (ha | ha)
    · exact (h.putTarget ha).crash_committing
    · exact Stage.durable_committing ⟨h.journal, h.caller.1.kept, ha, h.executor⟩

theorem wp_commitBExecuteOrReplay (h : Stage Unfinished (Carried env) (Pending env) w) :
    wp env (commitBExecuteOrReplay outlet)
      (fun _ => Stage Unfinished (Carried env) (Ready env (Captured env)))
      (fun _ => Stage Unfinished (Carried env) (Pending env)) (fun _ => Durable env) w := by
  apply wp_bind
  apply wp_call (Pending env) (fun a ha => wp_deliver_commitBReserve ha)
    steady_pending.respawn h.target
  · intro outcome a ha
    cases outcome with
    | alreadyCommitted output =>
      apply wp_bind
      apply wp_modify
      exact wp_pure ⟨h.journal, h.caller, ⟨ha.1, ha.2.1 output rfl, ha.2.2⟩, h.executor⟩
    | readyToExecute => exact wp_commitBFirstExecute (h.putTarget ⟨ha.1, by simp [ha.2.2]⟩)
  · rintro e a (ha | ha | ha | ha)
    · exact h.putTarget (Ready.pending (P := fun _ => True) ha)
    · exact h.putTarget ha
    · exact h.putTarget ha
    · exact h.putTarget ha
  · rintro a (ha | ha)
    · exact (h.putTarget ha).crash_committing
    · exact Stage.durable_committing ⟨h.journal, h.caller.1.kept, ha, h.executor⟩

/-- The caller has settled, and no ticket is left. -/
def Acknowledged (env : Env Op) (ctx : CrossContextSagaCtx) (a : ContextActor) : Prop :=
  ctx.preparedA = none ∧ Settled env (Recorded env) a

theorem Awaiting.carried {ctx : CrossContextSagaCtx} {a : ContextActor} (h : Awaiting env a)
    (hA : ctx.preparedA = none) : Carried env ctx a :=
  ⟨h, by simp [hA]⟩

theorem wp_commitAReackFromWitness (hT : ∀ t, T t → Stored env t)
    (hA : w.ctx.preparedA = none) (h : Stage Unfinished (Carried env) T w) :
    wp env (commitAReackFromWitness outlet) (fun _ => Stage Unfinished (Acknowledged env) T)
      (fun _ => Stage Unfinished (Carried env) T) (fun _ => Durable env) w := by
  apply wp_bind
  apply wp_deliver_to rfl (wp_deliver_commitACheckWitness h.caller.1)
  · intro delivery a ha
    apply wp_bind
    match delivery with
    | .answered (.ok recorded) =>
      apply wp_pure
      cases recorded with
      | true => exact wp_pure (h.putCaller ⟨hA, ha.1, ha.2.1 rfl, ha.2.2⟩)
      | false => exact wp_fail (h.putCaller (Awaiting.carried ⟨ha.1, ha.2.2 ▸ .acks (by simp)⟩ hA))
    | .answered (.error _) =>
      exact wp_fail (h.putCaller (Awaiting.carried ⟨ha.1, ha.2.2 ▸ .acks (by simp)⟩ hA))
    | .unanswered => exact wp_fail (h.putCaller (Awaiting.carried ha hA))
    | .undelivered => exact wp_fail (h.putCaller (Awaiting.carried ha hA))
  · intro a ha
    exact Stage.durable_committing ⟨h.journal, ha, hT _ h.target, h.executor⟩

/-- A ticket that never arrived is carried again; one that may have arrived is spent. -/
theorem wp_commitASettle (hT : ∀ t, T t → Stored env t) (h : Stage Unfinished (Carried env) T w) :
    wp env (commitASettle outlet) (fun _ => Stage Unfinished (Acknowledged env) T)
      (fun _ => Stage Unfinished (Carried env) T) (fun _ => Durable env) w := by
  have hcrash (w : World) (h : Stage Unfinished (Carried env) T w) : Durable env w :=
    Stage.durable_committing ⟨h.journal, h.caller.1.kept, hT _ h.target, h.executor⟩
  have hrespawn (a : ContextActor) (ha : Carried env w.ctx a) : Carried env w.ctx a.respawn :=
    ⟨steady_awaiting.respawn a ha.1, fun ticket hA =>
      have hs := ha.2 ticket hA
      ⟨hs.1.toKept.respawn, ⟨hs.2.1.2, hs.2.1.2⟩, rfl⟩⟩
  apply wp_bind
  apply wp_lookup .caller w hrespawn h.caller
  · intro a ha
    have h' : Stage Unfinished (Carried env) T (w.putActor .caller a) := h.putCaller ha
    apply wp_bind
    apply wp_get
    cases hA : (w.putActor .caller a).ctx.preparedA with
    | none => exact wp_commitAReackFromWitness hT hA h'
    | some ticket =>
      have hunspent : Settled env Unspent a := ha.2 ticket hA
      apply wp_bind
      apply wp_modify
      apply wp_bind
      apply wp_deliver_to rfl (wp_deliver_commitA hunspent)
      · intro delivery b hb
        match delivery with
        | .undelivered =>
          apply wp_bind
          apply wp_modify
          exact wp_fail ⟨h.journal, ⟨hb.awaiting, fun _ _ => hb⟩, h.target, h.executor⟩
        | .answered (.ok ()) => exact wp_pure ⟨h.journal, ⟨rfl, hb⟩, h.target, h.executor⟩
        | .answered (.error _) =>
          exact wp_fail ⟨h.journal, Awaiting.carried (Settled.awaiting (P := fun _ => True) hb) rfl,
            h.target, h.executor⟩
        | .unanswered => exact wp_fail ⟨h.journal, Awaiting.carried hb rfl, h.target, h.executor⟩
      · intro b hb
        exact Stage.durable_committing ⟨h.journal, hb, hT _ h.target, h.executor⟩
  · intro _
    exact wp_fail h
  · exact hcrash w h

/-- Both sides hold the witness, and nothing is left in an inbox. -/
def Witnessed (env : Env Op) (w : World) : Prop :=
  Stage Unfinished (Acknowledged env) (Ready env (Captured env)) w

theorem wp_dispatchXctxCommit (h : Stage Unfinished (Carried env) (Pending env) w) :
    wp env (dispatchXctxCommit outlet) (fun _ => Witnessed env)
      (fun _ => Stage Unfinished (Carried env) (Pending env)) (fun _ => Durable env) w := by
  have hpending {w : World} (h : Stage Unfinished (Carried env) (Ready env (Captured env)) w) :
      Stage Unfinished (Carried env) (Pending env) w :=
    ⟨h.journal, h.caller, h.target.pending, h.executor⟩
  apply wp_bind
  apply wp_mono (wp_commitBExecuteOrReplay h) _ (fun _ _ h => h) (fun _ _ h => h)
  intro output w h
  apply wp_bind
  apply wp_bind
  apply wp_succeeds
  · intro _
    apply wp_pure
    apply wp_bind
    apply wp_mono (wp_commitASettle (fun t ht => ht.1.logged) h) _ (fun _ _ h => hpending h)
      (fun _ _ h => h)
    intro _ w h
    exact wp_modify ⟨h.journal, h.caller, h.target, h.executor⟩
  · intro _
    exact wp_fail (hpending h)
  · intro _
    exact (hpending h).crash_committing

/-- The ticket is spent by the first attempt that reaches the caller. -/
theorem wp_commitWithRetry (attempts : ℕ) (h : Stage Unfinished (Carried env) (Pending env) w) :
    wp env (commitWithRetry outlet attempts) (fun _ => Witnessed env)
      (fun _ => Stage Unfinished (Carried env) (Pending env)) (fun _ => Durable env) w := by
  induction attempts generalizing w with
  | zero => exact wp_fail h
  | succ attempts ih =>
    apply wp_bind
    apply wp_observe
    apply wp_mono (wp_dispatchXctxCommit h) _ _ (fun _ _ h => h)
    · intro _ w h
      exact wp_pure h
    · intro e w h
      by_cases hlast : attempts = 0
      · simp only [if_pos hlast]
        exact wp_fail h
      · simp only [if_neg hlast]
        exact ih h

/-- The saga is in its commit phase, or in need of repair after it. -/
def Repairing (env : Env Op) (w : World) : Prop :=
  Stage Unfinished (fun _ => Awaiting env) (Pending env) w

theorem Repairing.durable (h : Repairing env w) : Durable env w :=
  Stage.durable_committing ⟨h.journal, h.caller.kept, h.target.stored, h.executor⟩

theorem wp_recordSupervisorRepair {E : ContextError → World → Prop} (h : Repairing env w) :
    wp env recordSupervisorRepair (fun _ => Repairing env) E (fun _ => Durable env) w := by
  have h' : Repairing env { w with repairRecords := w.repairRecords+1 } :=
    ⟨h.journal, h.caller, h.target, h.executor⟩
  apply wp_bind
  apply wp_modify
  apply wp_bind
  apply wp_get
  apply wp_bind
  apply wp_observe
  apply wp_appendJournal
  · exact wp_pure ⟨h'.journal.append _ _, h'.caller, h'.target, h'.executor⟩
  · exact wp_pure h'
  · exact h'.durable

/-- A marker that is not confirmed is recorded. -/
theorem wp_emitDivergenceMarkerTo (party : Party) {E : ContextError → World → Prop}
    (h : Repairing env w) :
    wp env (emitDivergenceMarkerTo outlet party) (fun _ => Repairing env) E
      (fun _ => Durable env) w := by
  -- The two parties differ in what their handlers leave: the target serves on, the caller
  -- is settled.
  cases party with
  | target =>
    apply wp_bind
    apply wp_lookup .target w steady_pending.respawn h.target
    · intro a ha
      apply wp_bind
      apply wp_deliver_to (actor_putActor ..) (wp_deliver_marker_target ha)
      · intro delivery b hb
        rw [putActor_putActor]
        have hready (hb : Ready env (fun _ => True) b) : Repairing env (w.putActor .target b) :=
          h.putTarget hb.pending
        match delivery with
        | .answered (.ok ()) => exact wp_pure (hready hb)
        | .answered (.error _) => exact wp_recordSupervisorRepair (hready hb)
        | .unanswered => exact wp_recordSupervisorRepair (h.putTarget hb)
        | .undelivered => exact wp_recordSupervisorRepair (h.putTarget hb)
      · intro b hb
        rw [putActor_putActor]
        exact Stage.durable_committing ⟨h.journal, h.caller.kept, hb, h.executor⟩
    · intro _
      exact wp_recordSupervisorRepair h
    · exact h.durable
  | caller =>
    apply wp_bind
    apply wp_lookup .caller w steady_awaiting.respawn h.caller
    · intro a ha
      apply wp_bind
      apply wp_deliver_to (actor_putActor ..) (wp_deliver_marker_caller ha)
      · intro delivery b hb
        rw [putActor_putActor]
        have hsettled (hb : Settled env (fun _ => True) b) : Repairing env (w.putActor .caller b) :=
          h.putCaller hb.awaiting
        match delivery with
        | .answered (.ok ()) => exact wp_pure (hsettled hb)
        | .answered (.error _) => exact wp_recordSupervisorRepair (hsettled hb)
        | .unanswered => exact wp_recordSupervisorRepair (h.putCaller hb)
        | .undelivered => exact wp_recordSupervisorRepair (h.putCaller hb)
      · intro b hb
        rw [putActor_putActor]
        exact Stage.durable_committing ⟨h.journal, hb, h.target.stored, h.executor⟩
    · intro _
      exact wp_recordSupervisorRepair h
    · exact h.durable

theorem wp_emitDivergenceMarkers {E : ContextError → World → Prop} (h : Repairing env w) :
    wp env (emitDivergenceMarkers outlet) (fun _ => Repairing env) E (fun _ => Durable env) w := by
  apply wp_bind
  apply wp_get
  split
  · apply wp_bind
    apply wp_mono (wp_emitDivergenceMarkerTo .target h) _ (fun _ _ h => h) (fun _ _ h => h)
    intro _ w h
    exact wp_emitDivergenceMarkerTo .caller h
  · exact wp_pure h

theorem Witnessed.over (h : Witnessed env w) :
    Over env (w.setJournal (Journal.resolve .committed)) := by
  refine .committing h.executor h.caller.2.awaiting h.target.pending (fun c t hc ht hr => ?_)
  change CommittedStanding env c t
  refine ⟨hc, ht, fun hl => ?_⟩
  rw [hr.caller h.caller.2.2.2, hr.target h.target.2.2]
  exact ⟨(h.caller.2.2.1 hl).2, (h.target.2.1 hl).2⟩

theorem Witnessed.repairing (h : Witnessed env w) : Repairing env w :=
  ⟨h.journal, h.caller.2.awaiting, h.target.pending, h.executor⟩

theorem wp_resolveCommittedOrNeedsRepair (h : Witnessed env w) :
    wp env resolveCommittedOrNeedsRepair (fun _ => Over env) (fun _ => Over env)
      (fun _ => Durable env) w := by
  apply wp_bind
  apply wp_observe
  apply wp_markResolved
  · exact wp_pure h.over
  · apply wp_bind
    apply wp_modify
    have h' : Repairing env (w.setCtx (fun ctx => { ctx with reachedNeedsRepair := true })) :=
      ⟨h.repairing.journal, h.repairing.caller, h.repairing.target, h.executor⟩
    exact wp_fail h'.over_committing
  · exact h.repairing.durable

theorem wp_commitPhase (h : Stage Unfinished (Carried env) (Pending env) w) :
    wp env (commitPhase outlet) (fun _ => Over env) (fun _ => Over env)
      (fun _ => Durable env) w := by
  apply wp_bind
  apply wp_observe
  apply wp_mono (wp_commitWithRetry 3 h) _ _ (fun _ _ h => h)
  · intro _ w h
    exact wp_resolveCommittedOrNeedsRepair h
  · intro e w h
    apply wp_bind
    apply wp_modify
    have h' : Repairing env (w.setCtx (fun ctx => { ctx with reachedNeedsRepair := true })) :=
      ⟨h.journal, h.caller.1, h.target, h.executor⟩
    apply wp_bind
    apply wp_appendJournal
    · have hrepair : Repairing env ((w.setCtx (fun ctx => { ctx with reachedNeedsRepair := true })).setJournal
          (Journal.append ⟨.needsRepair, 4, false⟩)) :=
        ⟨h'.journal.append _ _, h'.caller, h'.target, h'.executor⟩
      apply wp_bind
      apply wp_mono (wp_emitDivergenceMarkers (E := fun _ => Over env) hrepair) _ (fun _ _ h => h)
        (fun _ _ h => h)
      intro _ w h
      exact wp_fail h.over_committing
    · exact h'.over_committing
    · exact h'.durable

/-- Before the first message nothing has happened on either side. -/
structure Untouched (j : Journal) (w : World) : Prop where
  journal : w.journal = j
  unprepared : w.ctx.preparedA = none ∧ w.ctx.preparedB = false
  caller : Free Fresh w.caller
  target : TargetFree Vacant w.target
  executor : w.executions + w.ctx.executor.toNat ≤ 1

theorem Free.paying {a : ContextActor} (h : Free Holding a) : Settled env Unspent a := by
  refine ⟨⟨⟨fun _ => ⟨h.2.1.1, h.1.disk.held h.2.1.2.2⟩, fun _ => ?_⟩, fun _ => ?_⟩,
    h.1.unrecorded, h.2.2⟩
  · rw [h.1.unlogged, h.1.unrecorded.2]
    rfl
  · rw [h.1.unrecorded.1, h.1.unrecorded.2]

theorem TargetFree.pending {P : ContextActor → Prop} {a : ContextActor} (h : TargetFree P a) :
    Pending env a := by
  refine ⟨⟨fun _ => ?_, fun _ => ?_⟩, by simp [h.2.2]⟩
  · rw [h.1.unlogged, h.1.uncommitted.2]
    rfl
  · rw [h.1.uncommitted.1, h.1.uncommitted.2]

theorem keeps_preparingA {seq : ℕ} : Keeps env (.reached .preparingA seq false) (TargetFree Vacant) := by
  intro stored c t t' hc ht ht' hi
  refine ⟨⟨hc, ht'⟩, ?_, rfl⟩
  rw [hi ht.2.2]
  exact ht.2.1.2

theorem keeps_preparingB {seq : ℕ} : Keeps env (.reached .preparingB seq true) T :=
  fun _ _ _ _ hc _ ht _ => ⟨⟨hc, ht⟩, rfl⟩

theorem TargetFree.idle {P : ContextActor → Prop} {a : ContextActor} (h : TargetFree P a) : Idle a :=
  ⟨h.1, by simp [h.2.2]⟩

/-- Before Prepare-A the journal says no more than that nothing is staged. -/
theorem Untouched.over {j : Journal} (h : Untouched j w)
    (hs : Standing env j w.callerStored w.caller w.target) : Over env w := by
  refine .opened h.executor (h.caller.unheld ?_).loose h.target.1 h.target.idle.2
    (fun c t _ _ hr => ?_)
  · exact h.caller.2.1.1.2.1.trans h.caller.2.1.1.2.2.symm
  · rw [hr.caller h.caller.2.2, hr.target h.target.2.2, h.journal]
    exact hs

theorem Untouched.durable {j : Journal} (h : Untouched j w)
    (hs : Standing env j w.callerStored w.caller w.target) : Durable env w :=
  ⟨h.executor, h.journal ▸ hs⟩

theorem Untouched.append {j : Journal} {entry : LatestEntry} (h : Untouched j w) :
    Untouched (j.append entry) (w.setJournal (Journal.append entry)) :=
  ⟨congrArg (Journal.append entry) h.journal, h.unprepared, h.caller, h.target, h.executor⟩

theorem wp_commitPhase_from_preparingB
    (h : Stage (· = .reached .preparingB 2 true) (fun _ => Free Holding)
      (TargetFree (fun _ => True)) w) :
    wp env (do appendJournal .committing 3 true; commitPhase outlet) (fun _ => Over env)
      (fun _ => Over env) (fun _ => Durable env) w := by
  apply wp_bind
  apply wp_appendJournal
  · apply wp_commitPhase
    have hunspent : Settled env Unspent w.caller := h.caller.paying
    refine ⟨?_, ⟨hunspent.awaiting, fun _ _ => hunspent⟩, h.target.pending, h.executor⟩
    change Unfinished (w.journal.append _)
    rw [h.journal, Journal.append_reached (by omega)]
    exact ⟨rfl, _, rfl, .inl rfl⟩
  · exact Stage.over (fun t ht => ht.idle) keeps_preparingB
      ⟨h.journal, h.caller.unheld_holding.loose, h.target, h.executor⟩
  · exact Stage.durable (fun t ht => ht.1) keeps_preparingB
      ⟨h.journal, h.caller.1, h.target, h.executor⟩

theorem wp_prepareB_from_preparingA
    (h : Stage (· = .reached .preparingA 1 false) (fun ctx a => ctx.preparedB = false ∧ Free Holding a)
      (TargetFree Vacant) w) :
    wp env (do
      appendJournal .preparingB 2 true
      match ← observe (dispatchXctxPrepareB outlet) with
      | .error e => do
        abortSaga outlet 3
        fail e
      | .ok () => do
        appendJournal .committing 3 true
        commitPhase outlet)
      (fun _ => Over env) (fun _ => Over env) (fun _ => Durable env) w := by
  apply wp_bind
  apply wp_appendJournal
  · have hB : Stage (· = .reached .preparingB 2 true)
        (fun ctx a => ctx.preparedB = false ∧ Free Holding a) (TargetFree Vacant)
        (w.setJournal (Journal.append ⟨.preparingB, 2, true⟩)) := by
      refine ⟨?_, h.caller, h.target, h.executor⟩
      change w.journal.append _ = _
      rw [h.journal, Journal.append_reached (by omega)]
    apply wp_bind
    apply wp_observe
    apply wp_mono (wp_dispatchXctxPrepareB (R := fun _ => Durable env) ?_ hB) _ _ (fun _ _ h => h)
    · intro w h
      exact Stage.durable (fun t ht => ht) keeps_preparingB
        ⟨h.journal, h.caller.1, h.target, h.executor⟩
    · intro _ w h
      exact wp_commitPhase_from_preparingB h
    · intro e w h
      apply wp_bind
      apply wp_mono (wp_abortSaga (by omega) (fun t ht => ht) keeps_preparingB h) _ (fun _ _ h => h)
        (fun _ _ h => h)
      intro _ w h
      exact wp_fail h
  · exact Stage.over (fun t ht => ht.idle) keeps_preparingA
      ⟨h.journal, h.caller.2.unheld_holding.loose, h.target, h.executor⟩
  · exact Stage.durable (fun t ht => ht.1) keeps_preparingA
      ⟨h.journal, h.caller.2.1, h.target, h.executor⟩

theorem wp_runSagaFsm (h : Untouched ⟨none, none⟩ w) :
    wp env (runSagaFsm outlet) (fun _ => Over env) (fun _ => Over env) (fun _ => Durable env) w := by
  have hnone : Standing env ⟨none, none⟩ w.callerStored w.caller w.target := ⟨h.caller.1, h.target.1⟩
  have hinitiated : Standing env (.reached .initiated 0 false) w.callerStored w.caller w.target :=
    ⟨⟨h.caller.1, h.target.1⟩, h.caller.2.1.1.2.2, h.target.2.1.2⟩
  apply wp_bind
  apply wp_appendJournal _ (h.over hnone) (h.durable hnone)
  have h0 : Untouched (.reached .initiated 0 false)
      (w.setJournal (Journal.append ⟨.initiated, 0, false⟩)) := h.append
  apply wp_bind
  apply wp_appendJournal _ (h0.over hinitiated) (h0.durable hinitiated)
  have h1 : Untouched (.reached .preparingA 1 false)
      ((w.setJournal (Journal.append ⟨.initiated, 0, false⟩)).setJournal
        (Journal.append ⟨.preparingA, 1, false⟩)) := h0.append
  apply wp_bind
  apply wp_observe
  apply wp_mono (wp_dispatchXctxPrepareA (J := (· = .reached .preparingA 1 false))
    (T := TargetFree Vacant) (R := fun _ => Durable env) ?_
    ⟨h1.journal, ⟨h1.unprepared, h1.caller⟩, h1.target, h1.executor⟩) _ _ (fun _ _ h => h)
  · intro w h
    exact h.durable (fun t ht => ht.1) keeps_preparingA
  · intro _ w h
    exact wp_prepareB_from_preparingA h
  · intro e w h
    apply wp_bind
    apply wp_mono (wp_abortSaga (by omega) (fun t ht => ht.released) keeps_preparingA h) _
      (fun _ _ h => h) (fun _ _ h => h)
    intro _ w h
    exact wp_fail h

/-- What the coordinator carries no longer matters. -/
theorem Over.setCtx (h : Over env w) {f : CrossContextSagaCtx → CrossContextSagaCtx}
    (hf : (f w.ctx).executor = w.ctx.executor) : Over env (w.setCtx f) := by
  have hexec (hw : w.executions + w.ctx.executor.toNat ≤ 1) :
      (w.setCtx f).executions + (w.setCtx f).ctx.executor.toNat ≤ 1 := by
    change w.executions + (f w.ctx).executor.toNat ≤ 1
    rw [hf]
    exact hw
  cases h with
  | opened executor caller target inbox standing =>
    exact .opened (hexec executor) caller target inbox
      (fun c t hc ht hr => standing c t hc ht ⟨hr.caller, hr.target⟩)
  | committing executor caller target standing =>
    exact .committing (hexec executor) caller target
      (fun c t hc ht hr => standing c t hc ht ⟨hr.caller, hr.target⟩)

theorem wp_runSaga (h : Untouched ⟨none, none⟩ w) :
    wp env (runSaga outlet) (fun _ => Over env) (fun _ => Over env) (fun _ => Durable env) w := by
  apply wp_bind
  apply wp_observe
  apply wp_mono (wp_runSagaFsm h) _ _ (fun _ _ h => h)
  · intro _ w h
    apply wp_bind
    apply wp_modify
    apply wp_bind
    apply wp_get
    exact wp_pure (h.setCtx rfl)
  · intro e w h
    apply wp_bind
    apply wp_modify
    exact wp_fail (h.setCtx rfl)

theorem wp_handleAll {party : Party} {a : ContextActor} {P K : ContextActor → Prop}
    {E : ContextError → ContextActor → Prop}
    (hdrain : wp env (drain (.coalesce party) (serve outlet party) a.inbox) (fun _ => P)
      (fun _ _ => False) (fun _ => K) a)
    (hP : ∀ a, P a → K a) (hK : ∀ a, K a → K a.respawn) (ha : K a) :
    wp env (handleAll outlet party) (fun _ b => K b ∧ (a.inbox = [] → b = a)) E
      (fun _ b => K b ∧ (a.inbox = [] → b = a)) a := by
  apply wp_supervise
  apply wp_bind
  apply wp_get
  by_cases hi : a.inbox = []
  · rw [hi]
    exact wp_pure ⟨ha, fun _ => rfl⟩
  · apply wp_mono hdrain
    · intro _ b hb
      exact ⟨hP b hb, fun h => absurd h hi⟩
    · intro _ _ h
      exact h.elim
    · intro c b hb
      cases c with
      | down => exact ⟨hK b hb, fun h => absurd h hi⟩
      | crash => exact ⟨hb, fun h => absurd h hi⟩

theorem wp_quiesce {E : ContextError → World → Prop} (h : Over env w) :
    wp env (quiesce outlet) (fun _ => Durable env) E (fun _ => Durable env) w := by
  cases h with
  | opened executor caller target inbox standing =>
    apply wp_bind
    apply wp_zoom
    apply wp_mono (wp_handleAll (K := CallerOpen) (wp_drain_loose caller) (fun _ h => h.1)
      (fun _ h => h.respawn) caller.1) _ (fun _ _ h => h)
    · rintro _ c ⟨hc, hci⟩
      exact ⟨executor, standing c _ hc target ⟨hci, fun _ => rfl⟩⟩
    · rintro _ c ⟨hc, hci⟩
      apply wp_bind
      apply wp_zoom
      apply wp_mono (wp_handleAll (K := TargetOpen) (wp_drain_target target inbox) (fun _ h => h.1)
        (fun _ h => h.respawn) target) _ (fun _ _ h => h)
      · rintro _ t ⟨ht, hti⟩
        exact ⟨executor, standing c t hc ht ⟨hci, hti⟩⟩
      · rintro _ t ⟨ht, hti⟩
        exact wp_pure ⟨executor, standing c t hc ht ⟨hci, hti⟩⟩
  | committing executor caller target standing =>
    apply wp_bind
    apply wp_zoom
    apply wp_mono (wp_handleAll (K := Kept env) (wp_drain_awaiting caller) (fun _ h => h.1.toKept)
      (fun _ h => h.respawn.toKept) caller.kept) _ (fun _ _ h => h)
    · rintro _ c ⟨hc, hci⟩
      exact ⟨executor, standing c _ hc target.stored ⟨hci, fun _ => rfl⟩⟩
    · rintro _ c ⟨hc, hci⟩
      apply wp_bind
      apply wp_zoom
      apply wp_mono (wp_handleAll (K := Stored env) (wp_drain_pending target) (fun _ h => h.1.logged)
        (fun _ h => h.respawn.logged) target.stored) _ (fun _ _ h => h)
      · rintro _ t ⟨ht, hti⟩
        exact ⟨executor, standing c t hc ht ⟨hci, hti⟩⟩
      · rintro _ t ⟨ht, hti⟩
        exact wp_pure ⟨executor, standing c t hc ht ⟨hci, hti⟩⟩

theorem wp_firstLife (h : Untouched ⟨none, none⟩ w) :
    wp env (firstLife outlet) (fun _ => Durable env) (fun _ => Durable env)
      (fun _ => Durable env) w := by
  apply wp_bind
  apply wp_observe
  exact wp_mono (wp_runSaga h) (fun _ _ h => wp_quiesce h) (fun _ _ h => wp_quiesce h)
    (fun _ _ h => h)

end Runs

end ScpCore.CrossContext
