import ScpCore.ExactRead
import ScpCore.NonceDedup

/-! The freshness gate of a cross-context prepare on its target: the asserted send time is close
to the target's clock, and the asserted nonce is not in the cache that every accepted prepare is
recorded in. The clock is read in milliseconds for the one and in whole seconds for the other. -/

namespace ScpCore.Dedup

def defaultClockSkewToleranceSecs : ℕ := 300

def sagaNonceDedupTtlSecs : ℕ := 2*defaultClockSkewToleranceSecs

structure PrepareBRequest where
  sagaId : String
  assertedNonce : Nonce
  assertedTimestampMs : ℕ
  deriving DecidableEq

inductive SagaReject
  | outsideSkew (deltaMs skewMs : ℕ)
  | replayed
  | other (code : ℕ)
  deriving DecidableEq

def absDiff (a b : ℕ) : ℕ := (a - b) + (b - a)

def validateFreshness (dedup : NonceDedup) (req : PrepareBRequest) (nowMs nowSecs : ℕ) :
    Except SagaReject Unit := do
  let skewMs := 1000*defaultClockSkewToleranceSecs
  -- Either way around, and the two ends are still fresh.
  require (absDiff nowMs req.assertedTimestampMs ≤ skewMs)
    (.outsideSkew (absDiff nowMs req.assertedTimestampMs) skewMs)
  require (!dedup.isReplayedRead req.assertedNonce nowSecs) .replayed

/-- A prepare as it reaches the target: the answers of the other checks, before and after the
freshness gate, whether its persist succeeds, and the readings of the clock, in milliseconds,
for the send time, for the replay and for the record. -/
structure Attempt where
  req : PrepareBRequest
  checksBefore : Except SagaReject Unit
  checksAfter : Except SagaReject Unit
  persists : Bool
  freshAt : ℕ
  checkAt : ℕ
  recordAt : ℕ

def Attempt.recordSecs (a : Attempt) : ℕ := a.recordAt/1000

def Attempt.checkSecs (a : Attempt) : ℕ := a.checkAt/1000

inductive SlotKind
  | unary | streaming
  deriving DecidableEq

/-- What a prepare writes on the target, and what a snapshot of it holds. -/
structure ClassS where
  sagaPending : List (String × SlotKind)
  xctxNonceDedup : NonceDedup

structure Target where
  live : ClassS
  durable : ClassS

inductive PrepareBOutcome
  | rejected (reject : SagaReject)
  | persistFailed
  | prepared
  deriving DecidableEq

def runPrepareBChecks (live : ClassS) (a : Attempt) : Except SagaReject Unit := do
  a.checksBefore
  validateFreshness live.xctxNonceDedup a.req a.freshAt a.checkSecs
  a.checksAfter

/-- The nonce recorded and the slot staged, as the write that is persisted. -/
def ClassS.staged (live : ClassS) (kind : SlotKind) (a : Attempt) : ClassS where
  sagaPending := (a.req.sagaId, kind) ::
    live.sagaPending.filter (fun slot => slot.1 ≠ a.req.sagaId)
  xctxNonceDedup :=
    (live.xctxNonceDedup.evictExpired a.recordSecs).record a.req.assertedNonce a.recordSecs

/-- The slots whose key was there before are kept, and so is the recorded nonce. -/
def ClassS.restoredSlots (after before : ClassS) : ClassS where
  sagaPending := after.sagaPending.filter (fun slot => slot.1 ∈ before.sagaPending.map Prod.fst)
  xctxNonceDedup := after.xctxNonceDedup

def prepare (kind : SlotKind) (t : Target) (a : Attempt) : PrepareBOutcome × Target :=
  match runPrepareBChecks t.live a with
  | .error reject => (.rejected reject, t)
  | .ok () =>
    if a.persists then (.prepared, ⟨t.live.staged kind a, t.live.staged kind a⟩)
    -- The slot is taken back, the nonce stays recorded.
    else (.persistFailed, ⟨(t.live.staged kind a).restoredSlots t.live, t.durable⟩)

def prepareB : Target → Attempt → PrepareBOutcome × Target := prepare .unary

def prepareBStreaming : Target → Attempt → PrepareBOutcome × Target := prepare .streaming

/-- What happens at a target: a prepare of either kind, a persist on another's behalf, and a
restore from the last snapshot. -/
inductive Step
  | prepareB (a : Attempt)
  | prepareBStreaming (a : Attempt)
  | snapshot
  | restore

/-- The cache rebuilt from the entries that were persisted. -/
def ClassS.rehydrated (durable : ClassS) : ClassS :=
  ⟨durable.sagaPending, .fromEntriesWithTtl durable.xctxNonceDedup.entries
    durable.xctxNonceDedup.nodup sagaNonceDedupTtlSecs⟩

/-- The state after a step, and the prepare it accepted, if any. -/
def Target.step (t : Target) : Step → Target × Option Attempt
  | .prepareB a =>
    ((prepareB t a).2, if (prepareB t a).1 = .prepared then some a else none)
  | .prepareBStreaming a =>
    ((prepareBStreaming t a).2, if (prepareBStreaming t a).1 = .prepared then some a else none)
  | .snapshot => (⟨t.live, t.live⟩, none)
  | .restore => (⟨t.durable.rehydrated, t.durable⟩, none)

/-- The accepted prepares of a run, in order. -/
def accepted : Target → List Step → List Attempt
  | _, [] => []
  | t, s :: rest => (t.step s).2.toList ++ accepted (t.step s).1 rest

def emptyClassS : ClassS := ⟨[], .withTtl sagaNonceDedupTtlSecs⟩

/-- A target context as it is created. -/
def Target.created : Target := ⟨emptyClassS, emptyClassS⟩

def Step.attempt : Step → Option Attempt
  | .prepareB a => some a
  | .prepareBStreaming a => some a
  | .snapshot => none
  | .restore => none

def Step.readings (s : Step) : List ℕ :=
  s.attempt.elim [] (fun a => [a.freshAt, a.checkAt, a.recordAt])

/-- The attempt whose nonce a step records: its checks pass, whether it persists or not. -/
def Target.recordedBy (t : Target) (s : Step) : Option Attempt :=
  s.attempt.filter (fun a => (runPrepareBChecks t.live a).toBool)

/-- The attempts whose nonces a run records, in order. -/
def recorded : Target → List Step → List Attempt
  | _, [] => []
  | t, s :: rest => (t.recordedBy s).toList ++ recorded (t.step s).1 rest

/-- The clock never goes back over a run. -/
def ClockSteady (steps : List Step) : Prop := (steps.flatMap Step.readings).Pairwise (· ≤ ·)

instance (steps : List Step) : Decidable (ClockSteady steps) :=
  inferInstanceAs (Decidable ((steps.flatMap Step.readings).Pairwise (· ≤ ·)))

/-- The send time of an attempt is within the tolerance of the clock. -/
def Attempt.Fresh (a : Attempt) : Prop :=
  absDiff a.freshAt a.req.assertedTimestampMs ≤ 1000*defaultClockSkewToleranceSecs

/-- The cache after an attempt is recorded in it. -/
def recordedIn (dedup : NonceDedup) (a : Attempt) : NonceDedup :=
  (dedup.evictExpired a.recordSecs).record a.req.assertedNonce a.recordSecs

variable {t : Target} {s : Step} {a : Attempt}

theorem runPrepareBChecks_ok {live : ClassS} (h : runPrepareBChecks live a = .ok ()) :
    a.Fresh ∧ live.xctxNonceDedup.isReplayedRead a.req.assertedNonce a.checkSecs = false := by
  simp only [runPrepareBChecks, validateFreshness, bind_ok_iff, exists_unit_iff, require_ok_iff,
    decide_eq_true_eq, Bool.not_eq_true'] at h
  exact h.2.1

theorem prepare_cases (kind : SlotKind) (t : Target) (a : Attempt) :
    (∃ reject, prepare kind t a = (.rejected reject, t)) ∨
    ((prepare kind t a).1 = .persistFailed ∧ runPrepareBChecks t.live a = .ok () ∧
      (prepare kind t a).2.live.xctxNonceDedup = recordedIn t.live.xctxNonceDedup a ∧
      (prepare kind t a).2.durable = t.durable) ∨
    ((prepare kind t a).1 = .prepared ∧ runPrepareBChecks t.live a = .ok () ∧
      (prepare kind t a).2.live.xctxNonceDedup = recordedIn t.live.xctxNonceDedup a ∧
      (prepare kind t a).2.durable.xctxNonceDedup = recordedIn t.live.xctxNonceDedup a) := by
  cases hchecks : runPrepareBChecks t.live a with
  | error reject => exact Or.inl ⟨reject, by simp only [prepare, hchecks]⟩
  | ok u =>
    right
    by_cases hpersists : a.persists = true
    · have hprepare : prepare kind t a =
          (.prepared, ⟨t.live.staged kind a, t.live.staged kind a⟩) := by
        simp only [prepare, hchecks, if_pos hpersists]
      rw [hprepare]
      exact Or.inr ⟨rfl, rfl, rfl, rfl⟩
    · have hprepare : prepare kind t a =
          (.persistFailed, ⟨(t.live.staged kind a).restoredSlots t.live, t.durable⟩) := by
        simp only [prepare, hchecks, if_neg hpersists]
      rw [hprepare]
      exact Or.inl ⟨rfl, rfl, rfl, rfl⟩

/-- What a step does: it leaves each cache as one of the two was, or records an attempt whose
persist fails, or accepts an attempt and records it in both. -/
inductive Stepped (t : Target) (s : Step) : Prop
  | quiet (hnone : (t.step s).2 = none)
      (hlive : (t.step s).1.live = t.live ∨ (t.step s).1.live = t.durable.rehydrated)
      (hdurable : (t.step s).1.durable = t.durable ∨ (t.step s).1.durable = t.live)
  | failed (a : Attempt) (hattempt : s.attempt = some a) (hnone : (t.step s).2 = none)
      (hchecks : runPrepareBChecks t.live a = .ok ())
      (hlive : (t.step s).1.live.xctxNonceDedup = recordedIn t.live.xctxNonceDedup a)
      (hdurable : (t.step s).1.durable = t.durable)
  | accepted (a : Attempt) (hattempt : s.attempt = some a) (hsome : (t.step s).2 = some a)
      (hchecks : runPrepareBChecks t.live a = .ok ())
      (hlive : (t.step s).1.live.xctxNonceDedup = recordedIn t.live.xctxNonceDedup a)
      (hdurable : (t.step s).1.durable.xctxNonceDedup = recordedIn t.live.xctxNonceDedup a)

theorem stepped_of_prepare {kind : SlotKind} (hattempt : s.attempt = some a)
    (hstep : t.step s = ((prepare kind t a).2,
      if (prepare kind t a).1 = .prepared then some a else none)) : Stepped t s := by
  rcases prepare_cases kind t a with ⟨reject, hreject⟩ | ⟨hout, hchecks, hlive, hdurable⟩ |
    ⟨hout, hchecks, hlive, hdurable⟩
  · rw [hreject] at hstep
    exact .quiet (by rw [hstep]; rfl) (Or.inl (by rw [hstep])) (Or.inl (by rw [hstep]))
  · rw [hout, if_neg (by decide)] at hstep
    exact .failed a hattempt (by rw [hstep]) hchecks (by rw [hstep]; exact hlive)
      (by rw [hstep]; exact hdurable)
  · rw [hout, if_pos rfl] at hstep
    exact .accepted a hattempt (by rw [hstep]) hchecks (by rw [hstep]; exact hlive)
      (by rw [hstep]; exact hdurable)

theorem stepped (t : Target) (s : Step) : Stepped t s := by
  cases s with
  | prepareB a => exact @stepped_of_prepare t (.prepareB a) a .unary rfl rfl
  | prepareBStreaming a => exact @stepped_of_prepare t (.prepareBStreaming a) a .streaming rfl rfl
  | snapshot => exact .quiet rfl (Or.inl rfl) (Or.inr rfl)
  | restore => exact .quiet rfl (Or.inr rfl) (Or.inl rfl)

/-- A cache of the saga's time to live that keeps the recorded nonces, within a size. -/
structure Holds (dedup : NonceDedup) (clock : ℕ) (recorded : List (Nonce × ℕ)) (size : ℕ) :
    Prop where
  ttl : dedup.ttlSecs = sagaNonceDedupTtlSecs
  keeps : Keeps dedup clock recorded
  len : dedup.len ≤ size

namespace Holds

variable {dedup : NonceDedup} {clock size : ℕ} {recorded : List (Nonce × ℕ)}

theorem mono (h : Holds dedup clock recorded size) {clock' size' : ℕ} (hclock : clock ≤ clock')
    (hsize : size ≤ size') : Holds dedup clock' recorded size' :=
  ⟨h.ttl, h.keeps.mono hclock, h.len.trans hsize⟩

theorem rehydrated {durable : ClassS} (h : Holds durable.xctxNonceDedup clock recorded size) :
    Holds durable.rehydrated.xctxNonceDedup clock recorded size := by
  have hsame : durable.rehydrated.xctxNonceDedup = durable.xctxNonceDedup := by
    rw [ClassS.rehydrated, ← h.ttl]
    rfl
  rwa [hsame]

theorem recordedIn (h : Holds dedup clock recorded size) (hclock : clock ≤ a.recordSecs)
    (hroom : size < nonceDedupCapacity) : Holds (Dedup.recordedIn dedup a) a.recordSecs
      ((a.req.assertedNonce, a.recordSecs) :: recorded) (size+1) := by
  have hevicted : (dedup.evictExpired a.recordSecs).len ≤ size :=
    NonceDedup.len_evictExpired_le.trans h.len
  refine ⟨?_, (h.keeps.evictExpired hclock).record le_rfl (lt_of_le_of_lt hevicted hroom), ?_⟩
  · rw [Dedup.recordedIn, NonceDedup.record_ttlSecs, NonceDedup.evictExpired_ttlSecs, h.ttl]
  · exact NonceDedup.len_record_le.trans (by omega)

theorem tail {e : Nonce × ℕ} (h : Holds dedup clock (e :: recorded) size) :
    Holds dedup clock recorded size :=
  ⟨h.ttl, ⟨fun x hx => h.keeps.past x (List.mem_cons_of_mem _ hx),
    fun x hx => h.keeps.entry x (List.mem_cons_of_mem _ hx)⟩, h.len⟩

end Holds

/-- Both caches of a target. -/
structure Target.Holds (t : Target) (clock : ℕ) (recorded : List (Nonce × ℕ)) (size : ℕ) :
    Prop where
  live : Dedup.Holds t.live.xctxNonceDedup clock recorded size
  durable : Dedup.Holds t.durable.xctxNonceDedup clock recorded size

theorem Target.created_holds : Target.created.Holds 0 [] 0 :=
  ⟨⟨rfl, .nil, le_rfl⟩, ⟨rfl, .nil, le_rfl⟩⟩

/-- The second up to which the caches were last swept, after a step. -/
def Step.clockAfter (s : Step) (clock : ℕ) : ℕ := s.attempt.elim clock Attempt.recordSecs

def Attempt.entry (a : Attempt) : Nonce × ℕ := (a.req.assertedNonce, a.recordSecs)

theorem recordedBy_eq_some (hattempt : s.attempt = some a)
    (hchecks : runPrepareBChecks t.live a = .ok ()) : t.recordedBy s = some a := by
  rw [Target.recordedBy, hattempt, Option.filter_some, hchecks]
  rfl

theorem Step.le_clockAfter {clock : ℕ} (hclock : ∀ r ∈ s.readings, clock ≤ r/1000) :
    clock ≤ s.clockAfter clock := by
  cases hattempt : s.attempt with
  | none => rw [clockAfter, hattempt, Option.elim_none]
  | some a =>
    rw [clockAfter, hattempt, Option.elim_some]
    apply hclock
    rw [readings, hattempt]
    simp

/-- What a step accepts is remembered for a time to live after it was recorded. -/
theorem Target.Holds.step {clock size : ℕ} {recorded : List (Nonce × ℕ)}
    (h : t.Holds clock recorded size) (hclock : ∀ r ∈ s.readings, clock ≤ r/1000)
    (hroom : size + (t.recordedBy s).toList.length < nonceDedupCapacity) :
    (t.step s).1.Holds (s.clockAfter clock)
      ((t.step s).2.toList.map Attempt.entry ++ recorded)
      (size + (t.recordedBy s).toList.length) := by
  have hafter := s.le_clockAfter hclock
  have hlater := h.live.mono hafter (Nat.le_add_right size (t.recordedBy s).toList.length)
  have hlaterDurable :=
    h.durable.mono hafter (Nat.le_add_right size (t.recordedBy s).toList.length)
  rcases stepped t s with ⟨hnone, hlive, hdurable⟩ |
    ⟨a, hattempt, hnone, hchecks, hlive, hdurable⟩ |
    ⟨a, hattempt, hsome, hchecks, hlive, hdurable⟩
  -- A snapshot copies the live cache, a restore the durable one.
  · rw [hnone]
    constructor
    · rcases hlive with hlive | hlive
      · rwa [hlive]
      · rw [hlive]
        exact hlaterDurable.rehydrated
    · rcases hdurable with hdurable | hdurable
      · rwa [hdurable]
      · rwa [hdurable]
  -- The nonce of a failed persist is one entry more in the live cache.
  · rw [recordedBy_eq_some hattempt hchecks, Option.toList_some, List.length_singleton] at hroom ⊢
    have hsecs : s.clockAfter clock = a.recordSecs := by
      rw [Step.clockAfter, hattempt, Option.elim_some]
    rw [hsecs] at hafter
    rw [hnone, hsecs]
    refine ⟨?_, ?_⟩
    · rw [hlive]
      exact (h.live.recordedIn hafter (Nat.lt_of_succ_lt hroom)).tail
    · rw [hdurable]
      exact h.durable.mono hafter (Nat.le_succ size)
  · rw [recordedBy_eq_some hattempt hchecks, Option.toList_some, List.length_singleton] at hroom ⊢
    have hsecs : s.clockAfter clock = a.recordSecs := by
      rw [Step.clockAfter, hattempt, Option.elim_some]
    rw [hsecs] at hafter
    -- Both caches are the live one with the nonce recorded.
    have hrecorded := h.live.recordedIn hafter (Nat.lt_of_succ_lt hroom)
    rw [hsome, hsecs]
    exact ⟨by rw [hlive]; exact hrecorded, by rw [hdurable]; exact hrecorded⟩

/-- What a step accepts is the attempt it makes, and it passed the checks. -/
theorem attempt_of_accepted (hsome : (t.step s).2 = some a) :
    s.attempt = some a ∧ runPrepareBChecks t.live a = .ok () := by
  rcases stepped t s with ⟨hnone, _, _⟩ | ⟨_, _, hnone, _, _, _⟩ |
    ⟨a', hattempt, hsome', hchecks, _, _⟩
  · rw [hnone] at hsome
    cases hsome
  · rw [hnone] at hsome
    cases hsome
  · rw [hsome] at hsome'
    cases hsome'
    exact ⟨hattempt, hchecks⟩

/-- An accepted prepare comes a time to live after every recorded prepare with its nonce. -/
theorem Target.Holds.accepted_late {clock size : ℕ} {recorded : List (Nonce × ℕ)}
    (h : t.Holds clock recorded size) (hclock : ∀ r ∈ s.readings, clock ≤ r/1000)
    (hsome : (t.step s).2 = some a) {e : Nonce × ℕ} (he : e ∈ recorded)
    (hsame : e.1 = a.req.assertedNonce) : e.2 + sagaNonceDedupTtlSecs ≤ a.checkSecs := by
  obtain ⟨hattempt, hchecks⟩ := attempt_of_accepted hsome
  have hcheck : clock ≤ a.checkSecs := by
    apply hclock
    rw [Step.readings, hattempt]
    simp
  have hmem : (a.req.assertedNonce, e.2) ∈ recorded := by
    rw [← hsame]
    exact he
  -- The gate found no live entry for the nonce, so the one that is kept has expired.
  have hexpired := h.live.keeps.expired hcheck hmem (runPrepareBChecks_ok hchecks).2
  rwa [h.live.ttl] at hexpired

theorem clockAfter_le_of_steady {steps : List Step} {clock : ℕ}
    (hclock : ∀ r ∈ (s :: steps).flatMap Step.readings, clock ≤ r/1000)
    (hsteady : ClockSteady (s :: steps)) :
    ∀ r ∈ steps.flatMap Step.readings, s.clockAfter clock ≤ r/1000 := by
  intro r hr
  rw [ClockSteady, List.flatMap_cons, List.pairwise_append] at hsteady
  cases hattempt : s.attempt with
  | none =>
    rw [Step.clockAfter, hattempt, Option.elim_none]
    exact hclock r (by rw [List.flatMap_cons]; exact List.mem_append_right _ hr)
  | some a =>
    rw [Step.clockAfter, hattempt, Option.elim_some]
    refine Nat.div_le_div_right (hsteady.2.2 a.recordAt ?_ r hr)
    rw [Step.readings, hattempt]
    simp

/-- Over a run, accepted prepares with one nonce are a time to live apart. -/
theorem accepted_spaced {clock size : ℕ} {recorded : List (Nonce × ℕ)} {steps : List Step}
    (h : t.Holds clock recorded size)
    (hclock : ∀ r ∈ steps.flatMap Step.readings, clock ≤ r/1000) (hsteady : ClockSteady steps)
    (hroom : size + (Dedup.recorded t steps).length < nonceDedupCapacity) :
    (∀ e ∈ recorded, ∀ b ∈ accepted t steps, e.1 = b.req.assertedNonce →
        e.2 + sagaNonceDedupTtlSecs ≤ b.checkSecs) ∧
      (accepted t steps).Pairwise (fun a b => a.req.assertedNonce = b.req.assertedNonce →
        a.recordSecs + sagaNonceDedupTtlSecs ≤ b.checkSecs) := by
  -- What the caches hold grows by what each step accepts, so the later steps are spaced from
  -- it as they are from what was recorded before.
  induction steps generalizing t clock size recorded with
  | nil => exact ⟨fun _ _ _ hb => absurd hb List.not_mem_nil, List.Pairwise.nil⟩
  | cons s rest ih =>
    rw [Dedup.recorded, List.length_append] at hroom
    have hhead : ∀ r ∈ s.readings, clock ≤ r/1000 := by
      intro r hr
      exact hclock r (by rw [List.flatMap_cons]; exact List.mem_append_left _ hr)
    have hstep := h.step hhead (by omega)
    have hrest := ih hstep (clockAfter_le_of_steady hclock hsteady)
      (by
        rw [ClockSteady, List.flatMap_cons, List.pairwise_append] at hsteady
        exact hsteady.2.1)
      (by omega)
    rw [accepted]
    constructor
    · intro e he b hb hsame
      rcases List.mem_append.mp hb with hnow | hlater
      · exact h.accepted_late hhead (Option.mem_toList.mp hnow) he hsame
      · exact hrest.1 e (List.mem_append_right _ he) b hlater hsame
    · rw [List.pairwise_append]
      refine ⟨?_, hrest.2, ?_⟩
      · cases (t.step s).2 <;> simp
      · intro a ha b hb hsame
        exact hrest.1 a.entry (List.mem_append_left _ (List.mem_map_of_mem ha)) b hb hsame

theorem accepted_sublist (t : Target) (steps : List Step) :
    (accepted t steps).Sublist (steps.filterMap Step.attempt) := by
  induction steps generalizing t with
  | nil => exact List.Sublist.slnil
  | cons s rest ih =>
    rw [accepted, List.filterMap_cons]
    cases hstep : (t.step s).2 with
    | some a =>
      rw [Option.toList_some, (attempt_of_accepted hstep).1]
      exact (ih _).cons_cons a
    | none =>
      rw [Option.toList_none, List.nil_append]
      cases s.attempt with
      | none => exact ih _
      | some a => exact (ih _).cons a

/-- The attempt gets to the replay check. -/
def Attempt.Checked (a : Attempt) : Prop := a.checksBefore = .ok () ∧ a.Fresh

/-- Once an envelope is recorded, it does not get to the replay check a time to live, in whole
seconds, later. -/
def NoLateReplay : Target → List Step → Prop
  | _, [] => True
  | t, s :: rest =>
    (∀ a ∈ t.recordedBy s, ∀ b ∈ rest.filterMap Step.attempt,
      a.req.assertedNonce = b.req.assertedNonce →
        a.req.assertedTimestampMs = b.req.assertedTimestampMs → b.Checked →
          b.checkSecs < a.recordSecs + sagaNonceDedupTtlSecs) ∧
      NoLateReplay (t.step s).1 rest

theorem accepted_checked {steps : List Step} (ha : a ∈ accepted t steps) : a.Checked := by
  induction steps generalizing t with
  | nil => cases ha
  | cons s rest ih =>
    rcases List.mem_append.mp ha with hnow | hlater
    · have hchecks := (attempt_of_accepted (Option.mem_toList.mp hnow)).2
      refine ⟨?_, (runPrepareBChecks_ok hchecks).1⟩
      simp only [runPrepareBChecks, bind_ok_iff, exists_unit_iff] at hchecks
      exact hchecks.1
    · exact ih hlater

/-- Where no replay is late, accepted prepares of one envelope are close. -/
theorem accepted_close {steps : List Step} (hlate : NoLateReplay t steps) :
    (accepted t steps).Pairwise (fun a b => a.req.assertedNonce = b.req.assertedNonce →
      a.req.assertedTimestampMs = b.req.assertedTimestampMs →
        b.checkSecs < a.recordSecs + sagaNonceDedupTtlSecs) := by
  induction steps generalizing t with
  | nil => exact List.Pairwise.nil
  | cons s rest ih =>
    obtain ⟨hnow, hrest⟩ := hlate
    rw [accepted, List.pairwise_append]
    refine ⟨?_, ih hrest, ?_⟩
    · cases (t.step s).2 <;> simp
    · intro a ha b hb hnonce htime
      obtain ⟨hattempt, hchecks⟩ := attempt_of_accepted (Option.mem_toList.mp ha)
      exact hnow a (recordedBy_eq_some hattempt hchecks) b
        ((accepted_sublist _ rest).subset hb) hnonce htime (accepted_checked hb)

/-- No envelope is prepared twice at a target, over a run with restores in it, unless it comes
again a time to live later. -/
theorem envelope_prepared_once (steps : List Step) (hsteady : ClockSteady steps)
    (hroom : (recorded .created steps).length < nonceDedupCapacity)
    (hlate : NoLateReplay .created steps) :
    (accepted .created steps).Pairwise (fun a b =>
      ¬ (a.req.assertedNonce = b.req.assertedNonce ∧
        a.req.assertedTimestampMs = b.req.assertedTimestampMs)) := by
  -- Of two accepted prepares with one nonce the second is a time to live after the first,
  -- and that is just what the run does not have for one envelope.
  have hspaced := (accepted_spaced Target.created_holds (fun r _ => Nat.zero_le _) hsteady
    (by omega)).2
  refine (hspaced.and (accepted_close hlate)).imp ?_
  rintro a b ⟨hgap, hearly⟩ ⟨hnonce, htime⟩
  have hge := hgap hnonce
  have hlt := hearly hnonce htime
  omega

/-- An attempt whose readings of the clock are one, and which passes the other checks. -/
def attemptAt (nonce : Nonce) (timestampMs nowMs : ℕ) : Attempt :=
  ⟨⟨"s", nonce, timestampMs⟩, .ok (), .ok (), true, nowMs, nowMs, nowMs⟩

theorem replay_after_restore_refused :
    (accepted .created [.prepareB (attemptAt 7 1000300000 1000000000), .restore,
      .prepareBStreaming (attemptAt 7 1000300000 1000599999)]).Pairwise (fun a b =>
        ¬ (a.req.assertedNonce = b.req.assertedNonce ∧
          a.req.assertedTimestampMs = b.req.assertedTimestampMs)) :=
  envelope_prepared_once _ (by decide) (by decide) (by
    refine ⟨?_, ⟨?_, ?_, trivial⟩⟩
    · intro a ha b hb _ _ _
      obtain rfl := Option.some.inj ha
      rw [List.mem_singleton.mp hb]
      decide
    · intro a ha
      cases ha
    · intro a _ b hb
      cases hb)

/-- An envelope as far ahead of the clock as it may be. -/
def earliest : Attempt := attemptAt 7 1000300000 1000000000

/-- The same envelope when it is as far behind the clock as it may be. -/
def latest : Attempt := attemptAt 7 1000300000 1000600000

/-- The nonce of the first has just expired when the second arrives. -/
theorem replay_at_window_end_prepared :
    ClockSteady [.prepareB earliest, .prepareB latest] ∧
    (accepted .created [.prepareB earliest, .prepareB latest]).length = 2 ∧
    ¬ (accepted .created [.prepareB earliest, .prepareB latest]).Pairwise (fun a b =>
      ¬ (a.req.assertedNonce = b.req.assertedNonce ∧
        a.req.assertedTimestampMs = b.req.assertedTimestampMs)) := by
  decide

end ScpCore.Dedup
