import ScpCore.SagaRun

/-! Recovery after a restart, and what holds after any number of lives: the outlet runs at
most once, the caller pays or is refunded, and what a resolved journal tells of the two
contexts. -/

namespace ScpCore.CrossContext

open Prog Actor
open Saga (SagaState SagaTerminalState)

section Recovery
variable {env : Env Op} {outlet : Outlet} {w : World} {J : Journal → Prop}
  {C : CrossContextSagaCtx → ContextActor → Prop} {T : ContextActor → Prop}

theorem Cleared.respawn {a : ContextActor} (h : Cleared a) : Cleared a.respawn := ⟨h.2, h.2⟩

theorem Vacant.respawn {a : ContextActor} (h : Vacant a) : Vacant a.respawn := ⟨h.2, h.2⟩

theorem Sound.respawn {c t : ContextActor} (h : Sound env c t) : Sound env c.respawn t.respawn := by
  obtain ⟨hc, ht⟩ | ⟨hc, ht⟩ := h
  · exact .inl ⟨hc.respawn, ht.respawn⟩
  · exact .inr ⟨hc.respawn.toKept, ht.respawn.logged⟩

/-- What the journal tells is about the snapshots. -/
theorem Reached.respawn {entry : LatestEntry} {c t : ContextActor} (h : Reached env entry c t) :
    Reached env entry c.respawn t.respawn := by
  obtain ⟨state, seq, evidence⟩ := entry
  cases state with
  | initiated => exact ⟨⟨h.1.1.respawn, h.1.2.respawn⟩, h.2⟩
  | preparingA => exact ⟨⟨h.1.1.respawn, h.1.2.respawn⟩, h.2⟩
  | preparingB => exact ⟨⟨h.1.1.respawn, h.1.2.respawn⟩, h.2⟩
  | committing => exact ⟨h.1.respawn.toKept, Serving.logged (Stored.respawn h.2)⟩
  | needsRepair => exact Sound.respawn h
  | aborting => exact Sound.respawn h
  | committed => exact Sound.respawn h
  | aborted => exact Sound.respawn h

theorem Standing.respawn {j : Journal} {stored kept : Bool} {c t : ContextActor}
    (h : Standing env j stored c t) : Standing env j (stored && kept) c.respawn t.respawn := by
  obtain ⟨latest, resolved⟩ := j
  match resolved, latest with
  | some .committed, _ => exact ⟨h.caller.respawn.toKept, h.target.respawn.logged, h.witnessed⟩
  | some .aborted, _ =>
    refine ⟨⟨h.opened.1.respawn, h.opened.2.respawn⟩, fun hs => ?_, fun hr => (h.vacant hr).respawn⟩
    exact (h.cleared (Bool.and_eq_true_iff.1 hs).1).respawn
  | none, none => exact ⟨h.1.respawn, h.2.respawn⟩
  | none, some entry => exact Reached.respawn h

/-- Both actors were started from their snapshots. -/
structure Restarted (env : Env Op) (w : World) : Prop extends Durable env w where
  unprepared : w.ctx.preparedA = none
  caller : w.caller.mem = w.caller.disk ∧ w.caller.inbox = []
  target : w.target.mem = w.target.disk ∧ w.target.inbox = []

theorem Durable.restarted (h : Durable env w) (kept : Bool) : Restarted env (w.restart kept) where
  executor := le_trans (Nat.le_add_right _ _) h.executor
  standing := h.standing.respawn
  unprepared := rfl
  caller := ⟨rfl, rfl⟩
  target := ⟨rfl, rfl⟩

theorem Kept.paying {a : ContextActor} (h : Kept env a) (hmem : a.mem = a.disk) : Paying env a :=
  ⟨h, fun _ => by rw [hmem]⟩

theorem Stored.serving {a : ContextActor} (h : Stored env a) (hmem : a.mem = a.disk) :
    Serving env a :=
  ⟨h, fun _ => by rw [hmem]⟩

/-- Without a message the journal stands as it is. -/
theorem Restarted.over (h : Restarted env w) : Over env w := by
  obtain ⟨hc, ht⟩ | ⟨hc, ht⟩ := h.standing.sound
  · refine .opened h.executor ⟨hc, h.caller.2 ▸ .aborts (by simp)⟩ ht (by simp [h.target.2])
      (fun c t _ _ hr => ?_)
    rw [hr.caller h.caller.2, hr.target h.target.2]
    exact h.standing
  · refine .committing h.executor ⟨hc.paying h.caller.1, h.caller.2 ▸ .acks (by simp)⟩
      ⟨ht.serving h.target.1, by simp [h.target.2]⟩ (fun c t _ _ hr => ?_)
    rw [hr.caller h.caller.2, hr.target h.target.2]
    exact h.standing

/-- Memory and snapshot agree on the slot. -/
def SlotSynced (a : ContextActor) : Prop := a.mem.sagaPending = a.disk.sagaPending

theorem Missing.not_slotsReleased (h : Missing env .target .abort) : ¬ SlotsReleased env := by
  rintro hs
  obtain h | ⟨n, hok, hdown, hcrash⟩ := h
  · exact absurd h (by simp)
  · obtain hr | hr | hr := hs.resident n
    · exact hok hr
    · exact hdown hr
    · exact hcrash hr

theorem wp_abortTargetLeg {E : ContextError → World → Prop} {R : Cut → World → Prop}
    (hR : ∀ w, Stage J C TargetOpen w → R .crash w) (h : Stage J C (TargetFree SlotSynced) w) :
    wp env (abortTargetLeg outlet) (fun _ => Stage J C (Released env)) E R w := by
  apply wp_bind
  apply wp_lookup .target w (steady_targetFree (P := SlotSynced) (fun _ _ => ⟨rfl, rfl⟩)).respawn
    h.target
  · intro a ha
    apply wp_bind
    apply wp_deliver_to (actor_putActor ..) (wp_deliver_abort_target ha)
    · intro delivery b hb
      rw [putActor_putActor]
      match delivery with
      | .answered (.ok ()) => exact wp_pure (h.putTarget (TargetFree.released hb))
      | .answered (.error _) => exact wp_pure (h.putTarget hb)
      | .unanswered => exact wp_pure (h.putTarget hb)
      | .undelivered => exact wp_pure (h.putTarget hb)
    · intro b hb
      rw [putActor_putActor]
      exact hR _ (h.putTarget hb)
  · intro hmissing
    exact wp_pure ⟨h.journal, h.caller, ⟨h.target.1, by simp [h.target.2.2],
      fun hs => absurd hs hmissing.not_slotsReleased⟩, h.executor⟩
  · exact hR w ⟨h.journal, h.caller, h.target.1, h.executor⟩

/-- A reservation that could not be given back stays in the journal, unless its context is
gone. -/
theorem wp_recoverPreparingBEntry {j : Journal} {entry : LatestEntry}
    (hT : ∀ t, T t → Released env t) (hk : Keeps env j T)
    (h : wp env (redrivePrepare outlet entry)
      (fun reversal => Stage (· = j) (fun _ => Outcome reversal) T) (fun _ => Over env)
      (fun _ => Durable env) w) :
    wp env (recoverPreparingBEntry outlet entry) (fun _ => Over env) (fun _ => Over env)
      (fun _ => Durable env) w := by
  have hmark {reversal : CallerAbortReversal} {w : World}
      (h : Stage (· = j) (fun _ => Outcome reversal) T w)
      (hcleared : w.callerStored = true → Free Cleared w.caller) :
      wp env (markResolved .aborted) (fun _ => Over env) (fun _ => Over env)
        (fun _ => Durable env) w := by
    apply wp_markResolved
    · exact over_aborted h.executor h.caller.1 hcleared (hT _ h.target)
    · exact Stage.over (fun t ht => (hT t ht).idle) hk
        ⟨h.journal, h.caller.1, h.target, h.executor⟩
    · exact Stage.durable (fun t ht => (hT t ht).opened) hk
        ⟨h.journal, h.caller.1.1, h.target, h.executor⟩
  apply wp_bind
  apply wp_mono h _ (fun _ _ h => h) (fun _ _ h => h)
  intro reversal w h
  cases reversal with
  | settledOrAbsent => exact hmark h (fun _ => h.caller.2 rfl)
  | reversalOutstanding =>
    have hkept : Over env w := Stage.over (fun t ht => (hT t ht).idle) hk
      ⟨h.journal, h.caller.1, h.target, h.executor⟩
    apply wp_bind
    apply wp_bind
    apply wp_succeeds
    · intro _
      apply wp_bind
      apply wp_get
      apply wp_pure
      -- A caller that is gone holds no charge to reverse.
      by_cases hs : w.callerStored = true
      · rw [if_neg (by simp [hs])]
        exact wp_pure hkept
      · rw [if_pos (by simpa using hs)]
        exact hmark h (fun hs' => absurd hs' hs)
    · intro _
      apply wp_bind
      apply wp_get
      apply wp_pure
      exact wp_pure hkept
    · intro _
      exact Stage.durable (fun t ht => (hT t ht).opened) hk
        ⟨h.journal, h.caller.1.1, h.target, h.executor⟩

/-- Only the caller is named by an entry of the first prepare phase. -/
theorem wp_redrivePrepare_preparingA {seq : ℕ}
    (h : Stage (· = .reached .preparingA seq false) (fun _ => Unheld) (TargetFree Vacant) w) :
    wp env (redrivePrepare outlet ⟨.preparingA, seq, false⟩)
      (fun reversal => Stage (· = .reached .preparingA seq false) (fun _ => Outcome reversal)
        (TargetFree Vacant)) (fun _ => Over env) (fun _ => Durable env) w := by
  apply wp_mono (wp_redriveCallerLocalReversal (X := fun _ => True) (E := fun _ => Over env)
    (R := fun _ => Durable env) (fun w h => h.durable (fun t ht => ht.1) keeps_preparingA)
    ⟨h.journal, ⟨trivial, h.caller⟩, h.target, h.executor⟩) _ (fun _ _ h => h) (fun _ _ h => h)
  intro reversal w h
  exact ⟨h.journal, h.caller.2, h.target, h.executor⟩

theorem wp_redrivePrepare_preparingB {seq : ℕ}
    (h : Stage (· = .reached .preparingB seq true) (fun _ => Unheld) (TargetFree SlotSynced) w) :
    wp env (redrivePrepare outlet ⟨.preparingB, seq, true⟩)
      (fun reversal => Stage (· = .reached .preparingB seq true) (fun _ => Outcome reversal)
        (Released env)) (fun _ => Over env) (fun _ => Durable env) w := by
  apply wp_bind
  apply wp_mono (wp_redriveCallerLocalReversal (X := fun _ => True) (E := fun _ => Over env)
    (R := fun _ => Durable env) (fun w h => h.durable (fun t ht => ht.1) keeps_preparingB)
    ⟨h.journal, ⟨trivial, h.caller⟩, h.target, h.executor⟩) _ (fun _ _ h => h) (fun _ _ h => h)
  intro reversal w h
  have hcrash (w : World) (h : Stage (· = .reached .preparingB seq true)
      (fun _ a => True ∧ Outcome reversal a) TargetOpen w) : Durable env w :=
    Stage.durable (fun t ht => ht) keeps_preparingB
      ⟨h.journal, h.caller.2.1.1, h.target, h.executor⟩
  apply wp_bind
  apply wp_mono (wp_abortTargetLeg (R := fun _ => Durable env) hcrash h) _ (fun _ _ h => h)
    (fun _ _ h => h)
  intro _ w h
  exact wp_pure ⟨h.journal, h.caller.2, h.target, h.executor⟩

/-- How recovery resolves a commit that was in progress. -/
def Resolution (env : Env Op) : CommitInProgressResolution → World → Prop
  | .committed => Witnessed env
  | .needsRepair => Repairing env

theorem wp_redriveCommitAWitness {E : ContextError → World → Prop}
    (h : Stage Unfinished (fun ctx a => ctx.preparedA = none ∧ Awaiting env a)
      (Ready env (Captured env)) w) :
    wp env (redriveCommitAWitness outlet) (Resolution env) E (fun _ => Durable env) w := by
  have hrepair {E : ContextError → World → Prop} {a : ContextActor} (ha : Awaiting env a) :
      wp env (do recordSupervisorRepair; pure .needsRepair) (Resolution env) E
        (fun _ => Durable env) (w.putActor .caller a) := by
    have hw : Repairing env (w.putActor .caller a) :=
      ⟨h.journal, ha, h.target.pending, h.executor⟩
    apply wp_bind
    apply wp_mono (wp_recordSupervisorRepair (E := E) hw) _ (fun _ _ h => h) (fun _ _ h => h)
    intro _ w h
    exact wp_pure h
  apply wp_bind
  apply wp_observe
  apply wp_call (Awaiting env) (fun a ha => wp_deliver_commitACheckWitness ha)
    steady_awaiting.respawn h.caller.2
  · intro recorded a ha
    cases recorded with
    | true => exact wp_pure ⟨h.journal, ⟨h.caller.1, ha.1, ha.2.1 rfl, ha.2.2⟩, h.target, h.executor⟩
    | false => exact hrepair ⟨ha.1, ha.2.2 ▸ .acks (by simp)⟩
  · rintro e a (ha | ha | ha | ha)
    · exact hrepair (Settled.awaiting (P := fun _ => True) ha)
    · exact hrepair ha
    · exact hrepair ha
    · exact hrepair ha
  · rintro a (ha | ha)
    · exact Stage.durable_committing ⟨h.journal, ha.kept, h.target.1.logged, h.executor⟩
    · exact Stage.durable_committing ⟨h.journal, ha, h.target.1.logged, h.executor⟩

theorem wp_redriveXctxCommitInProgress {E : ContextError → World → Prop}
    (hA : w.ctx.preparedA = none) (h : Repairing env w) :
    wp env (redriveXctxCommitInProgress outlet) (Resolution env) E (fun _ => Durable env) w := by
  apply wp_bind
  apply wp_observe
  apply wp_call (Pending env) (fun a ha => wp_deliver_commitBReserve ha)
    steady_pending.respawn h.target
  · intro outcome a ha
    cases outcome with
    | alreadyCommitted output =>
      exact wp_redriveCommitAWitness
        ⟨h.journal, ⟨hA, h.caller⟩, ⟨ha.1, ha.2.1 output rfl, ha.2.2⟩, h.executor⟩
    | readyToExecute => exact wp_pure (h.putTarget ⟨ha.1, by simp [ha.2.2]⟩)
  · rintro e a (ha | ha | ha | ha)
    · exact wp_pure (h.putTarget (Ready.pending (P := fun _ => True) ha))
    · exact wp_pure (h.putTarget ha)
    · exact wp_pure (h.putTarget ha)
    · exact wp_pure (h.putTarget ha)
  · rintro a (ha | ha)
    · exact Stage.durable_committing ⟨h.journal, h.caller.kept, ha.stored, h.executor⟩
    · exact Stage.durable_committing ⟨h.journal, h.caller.kept, ha, h.executor⟩

theorem wp_redriveCommit {entry : LatestEntry} {E : ContextError → World → Prop}
    (hA : w.ctx.preparedA = none) (h : Repairing env w) :
    wp env (redriveCommit outlet entry) (Resolution env) E (fun _ => Durable env) w := by
  rw [redriveCommit]
  split
  · exact wp_redriveXctxCommitInProgress hA h
  · exact wp_pure h

theorem wp_recoverCommittingEntry {entry : LatestEntry} (hA : w.ctx.preparedA = none)
    (h : Repairing env w) :
    wp env (recoverCommittingEntry outlet entry) (fun _ => Over env) (fun _ => Over env)
      (fun _ => Durable env) w := by
  apply wp_bind
  apply wp_mono (wp_redriveCommit (E := fun _ => Over env) hA h) _ (fun _ _ h => h) (fun _ _ h => h)
  intro resolution w h
  cases resolution with
  | committed =>
    have hw : Witnessed env w := h
    exact wp_markResolved hw.over hw.repairing.over_committing hw.repairing.durable
  | needsRepair =>
    have hw : Repairing env w := h
    apply wp_appendJournal _ hw.over_committing hw.durable
    exact Stage.over_committing ⟨hw.journal.append _ _, hw.caller, hw.target, hw.executor⟩

theorem Restarted.unheld (h : Restarted env w) (hc : CallerOpen w.caller) : Unheld w.caller :=
  ⟨hc, .inl ⟨h.caller.2, congrArg PerContextState.callerReservation h.caller.1⟩⟩

theorem Restarted.vacant (h : Restarted env w) (ht : TargetOpen w.target)
    (hp : w.target.disk.sagaPending = false) : TargetFree Vacant w.target :=
  ⟨ht, ⟨h.target.1 ▸ hp, hp⟩, h.target.2⟩

theorem wp_recoverSagaEntry {entry : LatestEntry} (hj : w.journal = ⟨some entry, none⟩)
    (h : Restarted env w) :
    wp env (recoverSagaEntry outlet entry) (fun _ => Over env) (fun _ => Over env)
      (fun _ => Durable env) w := by
  have hr : Reached env entry w.caller w.target := by
    have hs := h.standing
    rw [hj] at hs
    exact hs
  obtain ⟨state, seq, evidence⟩ := entry
  -- What the last entry promises about the two parties is what its recovery needs.
  cases state with
  | initiated =>
    obtain ⟨⟨hc, ht⟩, hrecord, hslot⟩ := hr
    have hcleared : Free Cleared w.caller := ⟨hc, ⟨h.caller.1 ▸ hrecord, hrecord⟩, h.caller.2⟩
    apply wp_markResolved
    · exact over_aborted h.executor (h.unheld hc).loose (fun _ => hcleared)
        (h.vacant ht hslot).released
    · exact h.over
    · exact h.toDurable
  | preparingA =>
    obtain ⟨⟨hc, ht⟩, hslot, rfl⟩ := hr
    exact wp_recoverPreparingBEntry (fun t ht => ht.released) keeps_preparingA
      (wp_redrivePrepare_preparingA ⟨hj, h.unheld hc, h.vacant ht hslot, h.executor⟩)
  | preparingB =>
    obtain ⟨⟨hc, ht⟩, rfl⟩ := hr
    have hfree : TargetFree SlotSynced w.target :=
      ⟨ht, congrArg PerContextState.sagaPending h.target.1, h.target.2⟩
    exact wp_recoverPreparingBEntry (fun t ht => ht) keeps_preparingB
      (wp_redrivePrepare_preparingB ⟨hj, h.unheld hc, hfree, h.executor⟩)
  | committing =>
    have hpending : Pending env w.target :=
      ⟨Stored.serving hr.2 h.target.1, by simp [h.target.2]⟩
    refine wp_recoverCommittingEntry h.unprepared ⟨?_, ⟨hr.1.paying h.caller.1,
      h.caller.2 ▸ .acks (by simp)⟩, hpending, h.executor⟩
    rw [hj]
    exact ⟨rfl, _, rfl, .inl rfl⟩
  | aborting =>
    apply wp_appendJournal _ h.over h.toDurable
    refine Restarted.over ⟨⟨h.executor, ?_⟩, h.unprepared, h.caller, h.target⟩
    have happend : w.journal.append ⟨.needsRepair, seq+1, false⟩ =
        .reached .needsRepair (seq+1) false := by
      rw [hj]
      exact Journal.append_reached (Nat.le_succ seq)
    change Standing env (w.journal.append _) _ w.caller w.target
    rw [happend]
    exact hr
  | needsRepair => exact wp_pure h.over
  | committed => exact wp_pure h.over
  | aborted => exact wp_pure h.over

theorem wp_replayUnresolvedSagas (h : Restarted env w) :
    wp env (replayUnresolvedSagas outlet) (fun _ => Over env) (fun _ => Over env)
      (fun _ => Durable env) w := by
  apply wp_bind
  apply wp_succeeds
  · intro _
    apply wp_bind
    apply wp_get
    rcases hj : w.journal with ⟨latest, resolved⟩
    match resolved, latest with
    | some terminal, _ => exact wp_pure h.over
    | none, none => exact wp_pure h.over
    | none, some entry =>
      apply wp_bind
      apply wp_observe
      exact wp_mono (wp_recoverSagaEntry hj h) (fun _ _ h => wp_pure h) (fun _ _ h => wp_pure h)
        (fun _ _ h => h)
  · intro _
    exact wp_fail h.over
  · intro _
    exact h.toDurable

theorem wp_nextLife (h : Durable env w) :
    wp env (nextLife outlet) (fun _ => Durable env) (fun _ => Durable env)
      (fun _ => Durable env) w := by
  have hlife (kept : Bool) :
      wp env (do
        modify (World.restart kept)
        let _ ← (observe (replayUnresolvedSagas outlet) : Coordinator (Except ContextError Unit))
        quiesce outlet) (fun _ => Durable env) (fun _ => Durable env) (fun _ => Durable env) w := by
    apply wp_bind
    apply wp_modify
    apply wp_bind
    apply wp_observe
    exact wp_mono (wp_replayUnresolvedSagas (h.restarted kept)) (fun _ _ h => wp_quiesce h)
      (fun _ _ h => wp_quiesce h) (fun _ _ h => h)
  apply wp_bind
  apply wp_succeeds
  · intro _
    exact hlife true
  · intro _
    exact hlife false
  · intro _
    exact h

theorem untouched_start (callerGeneration targetGeneration : ℕ) :
    Untouched ⟨none, none⟩ (World.start callerGeneration targetGeneration) where
  journal := rfl
  unprepared := ⟨rfl, rfl⟩
  caller := ⟨⟨⟨by simp [World.start], by simp [World.start]⟩,
    ⟨by simp [World.start], by simp [World.start]⟩, ⟨rfl, rfl⟩, rfl, rfl⟩, ⟨⟨rfl, rfl, rfl⟩, rfl⟩, rfl⟩
  target := ⟨⟨⟨rfl, rfl⟩, rfl⟩, ⟨rfl, rfl⟩, rfl⟩
  executor := by simp [World.start]

/-- After any number of lives, wherever each of them ended. -/
theorem lives_durable (outlet : Outlet) (env : Env Op) (callerGeneration targetGeneration restarts : ℕ) :
    Durable env (lives outlet env (World.start callerGeneration targetGeneration) restarts).2 := by
  induction restarts with
  | zero => exact wp.left (wp_firstLife (untouched_start _ _)) 0
  | succ restarts ih => exact wp.left (wp_nextLife ih) _

end Recovery

/-- The outlet runs once at most, and the reservation of Prepare-A is given back once at
most, not after a capture and not when the target's snapshot holds an output. A life can
end at each of its operations, so this is said of every state that a run passes through. -/
structure PaysOrIsRefunded (w : World) : Prop where
  executions : w.executions ≤ 1
  reversed : w.caller.mem.reversed ≤ 1 ∧ w.caller.disk.reversed ≤ 1
  captured : w.caller.outside.captures ≠ 0 → w.caller.mem.reversed = 0 ∧ w.caller.disk.reversed = 0
  committed : w.target.disk.committedOutput.isSome = true →
    w.caller.mem.reversed = 0 ∧ w.caller.disk.reversed = 0

theorem Sound.paysOrIsRefunded {env : Env Op} {w : World} (hpay : CapturesPayments env)
    (hexec : w.executions ≤ 1) (h : Sound env w.caller w.target) : PaysOrIsRefunded w := by
  obtain ⟨hc, ht⟩ | ⟨hc, -⟩ := h
  · refine ⟨hexec, ⟨hc.mem.reversed, hc.disk.reversed⟩, fun hcap => ?_, fun hout => ?_⟩
    · exact absurd hc.uncaptured hcap
    · rw [ht.uncommitted.2] at hout
      exact absurd hout (by simp)
  · have hrev := hc.unreversed hpay
    exact ⟨hexec, ⟨by omega, by omega⟩, fun _ => hrev, fun _ => hrev⟩

theorem saga_pays_or_is_refunded (outlet : Outlet) (env : Env Op)
    (callerGeneration targetGeneration restarts : ℕ) (hpay : CapturesPayments env) :
    PaysOrIsRefunded (lives outlet env (World.start callerGeneration targetGeneration) restarts).2 := by
  have h := lives_durable outlet env callerGeneration targetGeneration restarts
  exact h.standing.sound.paysOrIsRefunded hpay (le_trans (Nat.le_add_right _ _) h.executor)

/-- An outlet whose reservation holds an escrow, in a run without failures. -/
theorem saga_pays_or_is_refunded_paid :
    (lives ⟨true, true, [7]⟩ (fun _ _ => .ok) (World.start 0 0) 1).2.caller.outside.captures = 1 ∧
      CapturesPayments (fun _ _ => .ok) ∧
      PaysOrIsRefunded (lives ⟨true, true, [7]⟩ (fun _ _ => .ok) (World.start 0 0) 1).2 :=
  ⟨by decide +kernel, by simp [CapturesPayments, Fate.Refuses],
    saga_pays_or_is_refunded _ _ _ _ _ (by simp [CapturesPayments, Fate.Refuses])⟩

/-- Each side has its event in the log, once. -/
def LoggedOnBothSides (w : World) : Prop :=
  invoked .outletInvoked w.target = 1 ∧ invoked .crossContextOutletInvoked w.caller = 1

instance (w : World) : Decidable (LoggedOnBothSides w) := inferInstanceAs (Decidable (_ ∧ _))

theorem committed_saga_logged_on_both_sides (outlet : Outlet) (env : Env Op)
    (callerGeneration targetGeneration restarts : ℕ) (hlogs : LogsFollow env)
    (hcommitted : (lives outlet env (World.start callerGeneration targetGeneration)
      restarts).2.journal.resolved = some .committed) :
    LoggedOnBothSides (lives outlet env (World.start callerGeneration targetGeneration) restarts).2 := by
  have h := (lives_durable outlet env callerGeneration targetGeneration restarts).standing
  rw [Standing, hcommitted] at h
  obtain ⟨hwitness, houtput⟩ := h.witnessed hlogs
  constructor
  · rw [h.target hlogs, houtput]
    rfl
  · rw [h.caller.logged hlogs, hwitness]
    rfl

theorem committed_saga_logged_on_both_sides_once :
    LogsFollow (fun _ _ => .ok) ∧
      (lives ⟨false, false, [7]⟩ (fun _ _ => .ok) (World.start 0 0) 0).2.journal.resolved =
        some .committed ∧
      LoggedOnBothSides (lives ⟨false, false, [7]⟩ (fun _ _ => .ok) (World.start 0 0) 0).2 :=
  ⟨by simp [LogsFollow], by decide +kernel, committed_saga_logged_on_both_sides _ _ _ _ _
    (by simp [LogsFollow]) (by decide +kernel)⟩

/-- The process goes down between the caller's witness and its event. Recovery finds the
witness and resolves the saga, and the event is never written. -/
theorem committed_saga_not_logged :
    (lives ⟨false, false, [7]⟩ (fun _ op =>
        if op = .append .crossContextOutletInvoked then .crash else .ok)
      (World.start 0 0) 1).2.journal.resolved = some .committed ∧
    ¬ LoggedOnBothSides (lives ⟨false, false, [7]⟩ (fun _ op =>
        if op = .append .crossContextOutletInvoked then .crash else .ok) (World.start 0 0) 1).2 := by
  constructor
  · decide +kernel
  · decide +kernel

theorem aborted_saga_leaves_nothing_staged (outlet : Outlet) (env : Env Op)
    (callerGeneration targetGeneration restarts : ℕ) (hslots : SlotsReleased env)
    (haborted : (lives outlet env (World.start callerGeneration targetGeneration)
      restarts).2.journal.resolved = some .aborted) :
    ((lives outlet env (World.start callerGeneration targetGeneration) restarts).2.callerStored = true →
      Cleared (lives outlet env (World.start callerGeneration targetGeneration) restarts).2.caller) ∧
    Vacant (lives outlet env (World.start callerGeneration targetGeneration) restarts).2.target := by
  have h := (lives_durable outlet env callerGeneration targetGeneration restarts).standing
  rw [Standing, haborted] at h
  exact ⟨h.cleared, h.vacant hslots⟩

/-- The target refuses Prepare-B. -/
theorem aborted_saga_leaves_nothing_staged_refused :
    SlotsReleased (fun _ op => if op = .gate .target then .fail else .ok) ∧
      (lives ⟨false, false, [7]⟩ (fun _ op => if op = .gate .target then .fail else .ok)
        (World.start 0 0) 0).2.journal.resolved = some .aborted ∧
      ((lives ⟨false, false, [7]⟩ (fun _ op => if op = .gate .target then .fail else .ok)
          (World.start 0 0) 0).2.callerStored = true →
        Cleared (lives ⟨false, false, [7]⟩ (fun _ op => if op = .gate .target then .fail else .ok)
          (World.start 0 0) 0).2.caller) ∧
      Vacant (lives ⟨false, false, [7]⟩ (fun _ op => if op = .gate .target then .fail else .ok)
        (World.start 0 0) 0).2.target :=
  have hslots : SlotsReleased (fun _ op => if op = .gate .target then .fail else .ok) :=
    ⟨by simp, by simp, by simp, by simp, by simp⟩
  ⟨hslots, by decide +kernel, aborted_saga_leaves_nothing_staged _ _ _ _ _ hslots
    (by decide +kernel)⟩

/-- The answer to Prepare-B does not arrive in time, and the target handles the message
after the abort. -/
theorem aborted_saga_leaves_slot_staged :
    (lives ⟨false, false, [7]⟩ (fun _ op => if op = .enqueue .target .prepareB then .late else .ok)
      (World.start 0 0) 0).2.journal.resolved = some .aborted ∧
    (lives ⟨false, false, [7]⟩ (fun _ op => if op = .enqueue .target .prepareB then .late else .ok)
      (World.start 0 0) 0).2.callerStored = true ∧
    ¬ Vacant (lives ⟨false, false, [7]⟩
      (fun _ op => if op = .enqueue .target .prepareB then .late else .ok) (World.start 0 0) 0).2.target := by
  refine ⟨by decide +kernel, by decide +kernel, ?_⟩
  rintro ⟨hmem, -⟩
  revert hmem
  decide +kernel

end ScpCore.CrossContext
