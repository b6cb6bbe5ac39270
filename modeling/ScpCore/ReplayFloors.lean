import ScpCore.ExactRead
import ScpCore.HighWater
import ScpCore.Saturating

/-! The supervisor's registry of replay floors. Each context has two maps of marks, one
for the sender-key epochs and one for the received (epoch, sequence) pairs. The live
gates raise a mark one value at a time and a restore or an import merges whole lists. -/

namespace ScpCore.Floors

abbrev ContextId := Bytes

def maxEpochAdvance : ℕ := 1000

structure ReceiveFloor where
  epoch : ℕ
  sequence : ℕ
  deriving DecidableEq

/-- The derived order of the source, by epoch and then by sequence. -/
instance : LinearOrder ReceiveFloor :=
  LinearOrder.lift' (fun floor => toLex (floor.epoch, floor.sequence)) (by
    intro a b h
    cases a
    cases b
    simpa using h)

inductive MergePolicy
  | rejectRegression | maxMergeTrustedLocal
  deriving DecidableEq

inductive FloorAdvanceError
  | senderEpochNotMonotonic (did : String) (current proposed : ℕ)
  | senderEpochOvershoot (did : String) (ceiling proposed : ℕ)
  | recvSequenceNotMonotonic (did : String) (current proposed : ReceiveFloor)
  | recvSequenceOvershoot (did : String) (ceiling proposed : ℕ)
  deriving DecidableEq

structure ContextFloors where
  senderEpochs : Marks String ℕ
  recvSequence : Marks String ReceiveFloor

def admitSenderEpoch (did : String) (current epoch maxAdvance : ℕ) :
    Except FloorAdvanceError Unit := do
  require (current < epoch) (.senderEpochNotMonotonic did current epoch)
  let ceiling := saturatingAdd current maxAdvance
  require (epoch ≤ ceiling) (.senderEpochOvershoot did ceiling epoch)

namespace ContextFloors
variable (floors : ContextFloors)

def default : ContextFloors := ⟨Marks.empty, Marks.empty⟩

/-- An absent epoch floor is read as zero. -/
def senderEpoch (did : String) : ℕ := (floors.senderEpochs did).getD 0

def advanceSenderEpoch (did : String) (epoch maxAdvance : ℕ) :
    Except FloorAdvanceError ContextFloors := do
  admitSenderEpoch did (floors.senderEpoch did) epoch maxAdvance
  pure { floors with senderEpochs := floors.senderEpochs.insert did epoch }

/-- An absent receive floor accepts the first observation. -/
def advanceRecvSequence (did : String) (next : ReceiveFloor) (maxAdvance : ℕ) :
    Except FloorAdvanceError ContextFloors := do
  (floors.recvSequence did).elim (pure ()) (fun current =>
    require (current < next) (.recvSequenceNotMonotonic did current next))
  let ceiling := saturatingAdd (floors.senderEpoch did) maxAdvance
  require (next.epoch ≤ ceiling) (.recvSequenceOvershoot did ceiling next.epoch)
  pure { floors with recvSequence := floors.recvSequence.insert did next }

/-- The first pass of a merge, for one entry of the epoch list. -/
def validateEpoch (maxAdvance : ℕ) (policy : MergePolicy) (entry : String × ℕ) :
    Except FloorAdvanceError Unit := do
  let current := floors.senderEpoch entry.1
  if policy = .rejectRegression then
    require (current ≤ entry.2) (.senderEpochNotMonotonic entry.1 current entry.2)
    let ceiling := saturatingAdd current maxAdvance
    require (entry.2 ≤ ceiling) (.senderEpochOvershoot entry.1 ceiling entry.2)

/-- The second pass, against the epochs that the merge is about to apply. -/
def validateRecv (incomingEpochMax : Marks String ℕ) (policy : MergePolicy)
    (entry : String × ReceiveFloor) : Except FloorAdvanceError Unit := do
  if policy = .rejectRegression then
    (floors.recvSequence entry.1).elim (pure ()) (fun current =>
      require (current ≤ entry.2) (.recvSequenceNotMonotonic entry.1 current entry.2))
    let projectedEpoch := max (floors.senderEpoch entry.1) ((incomingEpochMax entry.1).getD 0)
    let ceiling := saturatingAdd projectedEpoch maxEpochAdvance
    require (entry.2.epoch ≤ ceiling) (.recvSequenceOvershoot entry.1 ceiling entry.2.epoch)

def mergeAll (epochs : List (String × ℕ)) (recv : List (String × ReceiveFloor))
    (maxAdvance : ℕ) (policy : MergePolicy) : Except FloorAdvanceError ContextFloors := do
  let incomingEpochMax := Marks.empty.raiseAll epochs
  checkEach (floors.validateEpoch maxAdvance policy) epochs
  checkEach (floors.validateRecv incomingEpochMax policy) recv
  pure { senderEpochs := floors.senderEpochs.raiseAll epochs
         recvSequence := floors.recvSequence.raiseAll recv }

end ContextFloors

abbrev Registry := ContextId → Option ContextFloors

namespace Registry
variable (registry : Registry)

def entry (ctx : ContextId) : ContextFloors := (registry ctx).getD .default

/-- One call under the entry guard: a failed one has still made the entry. -/
def withEntry (ctx : ContextId) (f : ContextFloors → Except FloorAdvanceError ContextFloors) :
    Except FloorAdvanceError Unit × Registry :=
  match f (registry.entry ctx) with
  | .ok floors => (.ok (), Function.update registry ctx (some floors))
  | .error e => (.error e, Function.update registry ctx (some (registry.entry ctx)))

def checkAndAdvanceSenderEpoch (ctx : ContextId) (did : String) (epoch maxAdvance : ℕ) :
    Except FloorAdvanceError Unit × Registry :=
  registry.withEntry ctx (fun floors => floors.advanceSenderEpoch did epoch maxAdvance)

def checkAndAdvanceRecvSequence (ctx : ContextId) (did : String) (next : ReceiveFloor)
    (maxAdvance : ℕ) : Except FloorAdvanceError Unit × Registry :=
  registry.withEntry ctx (fun floors => floors.advanceRecvSequence did next maxAdvance)

def validateAndMergeAllFloors (ctx : ContextId) (epochs : List (String × ℕ))
    (recv : List (String × ReceiveFloor)) (maxAdvance : ℕ) (policy : MergePolicy) :
    Except FloorAdvanceError Unit × Registry :=
  if epochs.isEmpty && recv.isEmpty then (.ok (), registry)
  else registry.withEntry ctx (fun floors => floors.mergeAll epochs recv maxAdvance policy)

def seedContextFloors (ctx : ContextId) : Registry :=
  Function.update registry ctx (some (registry.entry ctx))

/-- The epoch floors of a context; an absent one is below every epoch. -/
def epochFloor (ctx : ContextId) : String → WithBot ℕ := (registry.entry ctx).senderEpochs.level

def recvFloor (ctx : ContextId) : String → WithBot ReceiveFloor :=
  (registry.entry ctx).recvSequence.level

end Registry

inductive Call
  | senderEpoch (did : String) (epoch maxAdvance : ℕ)
  | recvSequence (did : String) (next : ReceiveFloor) (maxAdvance : ℕ)
  | merge (epochs : List (String × ℕ)) (recv : List (String × ReceiveFloor)) (maxAdvance : ℕ)
      (policy : MergePolicy)
  | seed

/-- A call's result and the registry after it. -/
def Registry.call (registry : Registry) (ctx : ContextId) :
    Call → Except FloorAdvanceError Unit × Registry
  | .senderEpoch did epoch maxAdvance =>
    registry.checkAndAdvanceSenderEpoch ctx did epoch maxAdvance
  | .recvSequence did next maxAdvance =>
    registry.checkAndAdvanceRecvSequence ctx did next maxAdvance
  | .merge epochs recv maxAdvance policy =>
    registry.validateAndMergeAllFloors ctx epochs recv maxAdvance policy
  | .seed => (.ok (), registry.seedContextFloors ctx)

/-- What a call that succeeds does to the floors of its context. -/
def Call.Effect (floors floors' : ContextFloors) : Call → Prop
  | .senderEpoch did epoch _ =>
    floors.senderEpochs.level did < epoch ∧ floors'.recvSequence = floors.recvSequence ∧
      floors'.senderEpochs = floors.senderEpochs.insert did epoch
  | .recvSequence did next _ =>
    floors.recvSequence.level did < next ∧ floors'.senderEpochs = floors.senderEpochs ∧
      floors'.recvSequence = floors.recvSequence.insert did next
  | .merge epochs recv _ _ =>
    floors'.senderEpochs.level = floors.senderEpochs.level ⊔ Marks.highest epochs ∧
      floors'.recvSequence.level = floors.recvSequence.level ⊔ Marks.highest recv
  | .seed => floors' = floors

section Step
variable {registry : Registry} {ctx : ContextId}

theorem entry_update (floors : ContextFloors) : Registry.entry
    (Function.update registry ctx (some floors)) = Function.update registry.entry ctx floors := by
  funext c
  by_cases hc : c = ctx
  · subst hc
    simp [Registry.entry]
  · simp [Registry.entry, Function.update_of_ne hc]

theorem withEntry_ok {f : ContextFloors → Except FloorAdvanceError ContextFloors}
    (h : (registry.withEntry ctx f).1 = .ok ()) : ∃ floors, f (registry.entry ctx) = .ok floors ∧
      (registry.withEntry ctx f).2.entry = Function.update registry.entry ctx floors := by
  unfold Registry.withEntry at h ⊢
  cases hf : f (registry.entry ctx) with
  | error e => simp [hf] at h
  | ok floors => exact ⟨floors, rfl, entry_update floors⟩

theorem withEntry_error {f : ContextFloors → Except FloorAdvanceError ContextFloors}
    {e : FloorAdvanceError} (h : (registry.withEntry ctx f).1 = .error e) :
    (registry.withEntry ctx f).2.entry = registry.entry := by
  unfold Registry.withEntry at h ⊢
  cases hf : f (registry.entry ctx) with
  | ok floors => simp [hf] at h
  | error e' =>
    rw [entry_update]
    exact Function.update_eq_self ctx registry.entry

theorem advanceSenderEpoch_effect {floors floors' : ContextFloors} {did : String}
    {epoch maxAdvance : ℕ} (h : floors.advanceSenderEpoch did epoch maxAdvance = .ok floors') :
    (Call.senderEpoch did epoch maxAdvance).Effect floors floors' := by
  simp only [ContextFloors.advanceSenderEpoch, admitSenderEpoch, bind_ok_iff, require_ok_iff,
    decide_eq_true_eq, exists_unit_iff, pure_ok_iff] at h
  obtain ⟨⟨hlt, -⟩, rfl⟩ := h
  refine ⟨?_, rfl, rfl⟩
  unfold ContextFloors.senderEpoch at hlt
  unfold Marks.level
  cases hm : floors.senderEpochs did with
  | none => exact WithBot.bot_lt_coe epoch
  | some current =>
    rw [hm] at hlt
    exact WithBot.coe_lt_coe.mpr hlt

theorem advanceRecvSequence_effect {floors floors' : ContextFloors} {did : String}
    {next : ReceiveFloor} {maxAdvance : ℕ}
    (h : floors.advanceRecvSequence did next maxAdvance = .ok floors') :
    (Call.recvSequence did next maxAdvance).Effect floors floors' := by
  simp only [ContextFloors.advanceRecvSequence, bind_ok_iff, require_ok_iff, exists_unit_iff,
    pure_ok_iff] at h
  obtain ⟨hlt, -, rfl⟩ := h
  refine ⟨?_, rfl, rfl⟩
  unfold Marks.level
  cases hm : floors.recvSequence did with
  | none => exact WithBot.bot_lt_coe next
  | some current =>
    simp only [hm, Option.elim_some, require_ok_iff, decide_eq_true_eq] at hlt
    exact WithBot.coe_lt_coe.mpr hlt

theorem mergeAll_effect {floors floors' : ContextFloors} {epochs : List (String × ℕ)}
    {recv : List (String × ReceiveFloor)} {maxAdvance : ℕ} {policy : MergePolicy}
    (h : floors.mergeAll epochs recv maxAdvance policy = .ok floors') :
    (Call.merge epochs recv maxAdvance policy).Effect floors floors' := by
  simp only [ContextFloors.mergeAll, bind_ok_iff, exists_unit_iff, pure_ok_iff] at h
  obtain ⟨-, -, rfl⟩ := h
  exact ⟨Marks.level_raiseAll _ _, Marks.level_raiseAll _ _⟩

/-- A call that succeeds has its effect at its own context and none elsewhere. -/
theorem call_ok {call : Call} (h : (registry.call ctx call).1 = .ok ()) :
    ∃ floors, call.Effect (registry.entry ctx) floors ∧
      (registry.call ctx call).2.entry = Function.update registry.entry ctx floors := by
  cases call with
  | senderEpoch did epoch maxAdvance =>
    obtain ⟨floors, hfloors, hentry⟩ := withEntry_ok h
    exact ⟨floors, advanceSenderEpoch_effect hfloors, hentry⟩
  | recvSequence did next maxAdvance =>
    obtain ⟨floors, hfloors, hentry⟩ := withEntry_ok h
    exact ⟨floors, advanceRecvSequence_effect hfloors, hentry⟩
  | merge epochs recv maxAdvance policy =>
    simp only [Registry.call, Registry.validateAndMergeAllFloors] at h ⊢
    by_cases hempty : (epochs.isEmpty && recv.isEmpty) = true
    · -- The early return leaves the registry as it is, and there is nothing to join.
      rw [Bool.and_eq_true, List.isEmpty_iff, List.isEmpty_iff] at hempty
      obtain ⟨rfl, rfl⟩ := hempty
      refine ⟨registry.entry ctx, ⟨?_, ?_⟩, (Function.update_eq_self ctx registry.entry).symm⟩
      · exact Marks.level_raiseAll _ []
      · exact Marks.level_raiseAll _ []
    · rw [if_neg hempty] at h ⊢
      obtain ⟨floors, hfloors, hentry⟩ := withEntry_ok h
      exact ⟨floors, mergeAll_effect hfloors, hentry⟩
  | seed => exact ⟨registry.entry ctx, rfl, entry_update (registry.entry ctx)⟩

/-- A call that fails leaves every floor of every context. -/
theorem call_error {call : Call} {e : FloorAdvanceError}
    (h : (registry.call ctx call).1 = .error e) :
    (registry.call ctx call).2.entry = registry.entry := by
  cases call with
  | senderEpoch did epoch maxAdvance => exact withEntry_error h
  | recvSequence did next maxAdvance => exact withEntry_error h
  | merge epochs recv maxAdvance policy =>
    simp only [Registry.call, Registry.validateAndMergeAllFloors] at h ⊢
    by_cases hempty : (epochs.isEmpty && recv.isEmpty) = true
    · simp [hempty] at h
    · rw [if_neg hempty] at h ⊢
      exact withEntry_error h
  | seed => simp [Registry.call] at h

theorem Call.Effect.forward {call : Call} {floors floors' : ContextFloors}
    (h : call.Effect floors floors') : floors.senderEpochs.level ≤ floors'.senderEpochs.level ∧
      floors.recvSequence.level ≤ floors'.recvSequence.level := by
  cases call with
  | senderEpoch did epoch maxAdvance =>
    obtain ⟨hlt, hrecv, hepochs⟩ := h
    rw [hrecv, hepochs, Marks.level_insert]
    refine ⟨?_, le_rfl⟩
    rw [le_update_iff]
    exact ⟨hlt.le, fun j _ => le_rfl⟩
  | recvSequence did next maxAdvance =>
    obtain ⟨hlt, hepochs, hrecv⟩ := h
    rw [hrecv, hepochs, Marks.level_insert]
    refine ⟨le_rfl, ?_⟩
    rw [le_update_iff]
    exact ⟨hlt.le, fun j _ => le_rfl⟩
  | merge epochs recv maxAdvance policy =>
    rw [h.1, h.2]
    exact ⟨le_sup_left, le_sup_left⟩
  | seed =>
    rw [h]
    exact ⟨le_rfl, le_rfl⟩

end Step

/-- The registry after calls in turn, each on its own context. -/
def Registry.after (registry : Registry) (calls : List (ContextId × Call)) : Registry :=
  calls.foldl (fun r c => (r.call c.1 c.2).2) registry

def Registry.Accepts (registry : Registry) (ctx : ContextId) (call : Call) : Prop :=
  (registry.call ctx call).1 = .ok ()

section Runs
variable {registry : Registry} {ctx : ContextId}

/-- No call lowers a floor, whichever context it is for. -/
theorem call_forward (registry : Registry) (ctx at_ : ContextId) (call : Call) :
    registry.epochFloor ctx ≤ (registry.call at_ call).2.epochFloor ctx ∧
      registry.recvFloor ctx ≤ (registry.call at_ call).2.recvFloor ctx := by
  unfold Registry.epochFloor Registry.recvFloor
  cases hres : (registry.call at_ call).1 with
  | error e =>
    rw [call_error hres]
    exact ⟨le_rfl, le_rfl⟩
  | ok u =>
    obtain ⟨floors, heffect, hentry⟩ := call_ok hres
    rw [hentry]
    by_cases hc : ctx = at_
    · subst hc
      rw [Function.update_self]
      exact heffect.forward
    · rw [Function.update_of_ne hc]
      exact ⟨le_rfl, le_rfl⟩

theorem after_forward (registry : Registry) (ctx : ContextId) (calls : List (ContextId × Call)) :
    registry.epochFloor ctx ≤ (registry.after calls).epochFloor ctx ∧
      registry.recvFloor ctx ≤ (registry.after calls).recvFloor ctx := by
  induction calls generalizing registry with
  | nil => exact ⟨le_rfl, le_rfl⟩
  | cons c calls ih =>
    have hstep := call_forward registry ctx c.1 c.2
    have hrest := ih (registry.call c.1 c.2).2
    exact ⟨hstep.1.trans hrest.1, hstep.2.trans hrest.2⟩

theorem Registry.Accepts.effect {call : Call} (h : registry.Accepts ctx call) :
    call.Effect (registry.entry ctx) ((registry.call ctx call).2.entry ctx) := by
  obtain ⟨floors, heffect, hentry⟩ := call_ok h
  rwa [hentry, Function.update_self]

/-- A gate admits only what lies above the floor, so nothing at or below a floor is
admitted later. -/
theorem senderEpoch_not_accepted {did : String} {epoch maxAdvance : ℕ}
    (h : (epoch : WithBot ℕ) ≤ registry.epochFloor ctx did) (calls : List (ContextId × Call)) :
    ¬ (registry.after calls).Accepts ctx (.senderEpoch did epoch maxAdvance) := by
  intro haccept
  have habove : (registry.after calls).epochFloor ctx did < epoch := haccept.effect.1
  have hforward : registry.epochFloor ctx did ≤ (registry.after calls).epochFloor ctx did :=
    (after_forward registry ctx calls).1 did
  exact absurd (h.trans hforward) (not_le_of_gt habove)

theorem recvSequence_not_accepted {did : String} {next : ReceiveFloor} {maxAdvance : ℕ}
    (h : (next : WithBot ReceiveFloor) ≤ registry.recvFloor ctx did)
    (calls : List (ContextId × Call)) :
    ¬ (registry.after calls).Accepts ctx (.recvSequence did next maxAdvance) := by
  intro haccept
  have habove : (registry.after calls).recvFloor ctx did < next := haccept.effect.1
  have hforward : registry.recvFloor ctx did ≤ (registry.after calls).recvFloor ctx did :=
    (after_forward registry ctx calls).2 did
  exact absurd (h.trans hforward) (not_le_of_gt habove)

/-- A merge leaves the pointwise maximum of the floors and of the lists it is given. -/
theorem merge_floors {epochs : List (String × ℕ)} {recv : List (String × ReceiveFloor)}
    {maxAdvance : ℕ} {policy : MergePolicy}
    (h : registry.Accepts ctx (.merge epochs recv maxAdvance policy)) :
    (registry.call ctx (.merge epochs recv maxAdvance policy)).2.epochFloor ctx =
        registry.epochFloor ctx ⊔ Marks.highest epochs ∧
      (registry.call ctx (.merge epochs recv maxAdvance policy)).2.recvFloor ctx =
        registry.recvFloor ctx ⊔ Marks.highest recv :=
  h.effect

end Runs

/-- What holds between a point of a run and every later one, for one context. -/
structure ReplaySafe (earlier : Registry) (ctx : ContextId)
    (between : List (ContextId × Call)) : Prop where
  epochs_forward : earlier.epochFloor ctx ≤ (earlier.after between).epochFloor ctx
  recv_forward : earlier.recvFloor ctx ≤ (earlier.after between).recvFloor ctx
  epoch_once : ∀ did epoch maxAdvance maxAdvance',
    earlier.Accepts ctx (.senderEpoch did epoch maxAdvance) →
    ¬ ((earlier.call ctx (.senderEpoch did epoch maxAdvance)).2.after between).Accepts ctx
      (.senderEpoch did epoch maxAdvance')
  recv_once : ∀ did next maxAdvance maxAdvance',
    earlier.Accepts ctx (.recvSequence did next maxAdvance) →
    ¬ ((earlier.call ctx (.recvSequence did next maxAdvance)).2.after between).Accepts ctx
      (.recvSequence did next maxAdvance')
  epoch_merged : ∀ epochs recv maxAdvance policy,
    earlier.Accepts ctx (.merge epochs recv maxAdvance policy) →
    ∀ did merged, (did, merged) ∈ epochs → ∀ epoch ≤ merged, ∀ maxAdvance',
      ¬ ((earlier.call ctx (.merge epochs recv maxAdvance policy)).2.after between).Accepts ctx
        (.senderEpoch did epoch maxAdvance')
  recv_merged : ∀ epochs recv maxAdvance policy,
    earlier.Accepts ctx (.merge epochs recv maxAdvance policy) →
    ∀ did merged, (did, merged) ∈ recv → ∀ next ≤ merged, ∀ maxAdvance',
      ¬ ((earlier.call ctx (.merge epochs recv maxAdvance policy)).2.after between).Accepts ctx
        (.recvSequence did next maxAdvance')
  error_unchanged : ∀ call e, (earlier.call ctx call).1 = .error e → ∀ c,
    (earlier.call ctx call).2.epochFloor c = earlier.epochFloor c ∧
      (earlier.call ctx call).2.recvFloor c = earlier.recvFloor c
  merge_maximum : ∀ epochs recv maxAdvance policy,
    earlier.Accepts ctx (.merge epochs recv maxAdvance policy) →
    (earlier.call ctx (.merge epochs recv maxAdvance policy)).2.epochFloor ctx =
        earlier.epochFloor ctx ⊔ Marks.highest epochs ∧
      (earlier.call ctx (.merge epochs recv maxAdvance policy)).2.recvFloor ctx =
        earlier.recvFloor ctx ⊔ Marks.highest recv
  merge_commutes : ∀ epochs recv maxAdvance policy epochs' recv' maxAdvance' policy',
    let first := (earlier.call ctx (.merge epochs recv maxAdvance policy)).2
    let second := (earlier.call ctx (.merge epochs' recv' maxAdvance' policy')).2
    earlier.Accepts ctx (.merge epochs recv maxAdvance policy) →
    first.Accepts ctx (.merge epochs' recv' maxAdvance' policy') →
    earlier.Accepts ctx (.merge epochs' recv' maxAdvance' policy') →
    second.Accepts ctx (.merge epochs recv maxAdvance policy) →
    (first.call ctx (.merge epochs' recv' maxAdvance' policy')).2.epochFloor ctx =
        (second.call ctx (.merge epochs recv maxAdvance policy)).2.epochFloor ctx ∧
      (first.call ctx (.merge epochs' recv' maxAdvance' policy')).2.recvFloor ctx =
        (second.call ctx (.merge epochs recv maxAdvance policy)).2.recvFloor ctx

/-- Floors only rise over a run, whatever the registry it starts from and whichever calls
of whichever contexts stand between its two points. -/
theorem replay_floors_never_regress (registry : Registry) (ctx : ContextId)
    (before between : List (ContextId × Call)) :
    ReplaySafe (registry.after before) ctx between where
  epochs_forward := (after_forward _ ctx between).1
  recv_forward := (after_forward _ ctx between).2
  epoch_once := by
    intro did epoch maxAdvance maxAdvance' haccept
    apply senderEpoch_not_accepted
    unfold Registry.epochFloor
    rw [haccept.effect.2.2, Marks.level_insert, Function.update_self]
    exact le_rfl
  recv_once := by
    intro did next maxAdvance maxAdvance' haccept
    apply recvSequence_not_accepted
    unfold Registry.recvFloor
    rw [haccept.effect.2.2, Marks.level_insert, Function.update_self]
  -- A merge raises the floor to the merged mark, and later calls never lower it.
  epoch_merged := by
    intro epochs recv maxAdvance policy haccept did merged hmem epoch hle maxAdvance'
    apply senderEpoch_not_accepted
    rw [(merge_floors haccept).1]
    have hhigh : (epoch : WithBot ℕ) ≤ Marks.highest epochs did :=
      (WithBot.coe_le_coe.mpr hle).trans (Marks.le_highest hmem)
    exact le_sup_of_le_right hhigh
  recv_merged := by
    intro epochs recv maxAdvance policy haccept did merged hmem next hle maxAdvance'
    apply recvSequence_not_accepted
    rw [(merge_floors haccept).2]
    have hhigh : (next : WithBot ReceiveFloor) ≤ Marks.highest recv did :=
      (WithBot.coe_le_coe.mpr hle).trans (Marks.le_highest hmem)
    exact le_sup_of_le_right hhigh
  error_unchanged := by
    intro call e h c
    unfold Registry.epochFloor Registry.recvFloor
    rw [call_error h]
    exact ⟨rfl, rfl⟩
  merge_maximum := fun _ _ _ _ haccept => merge_floors haccept
  merge_commutes := by
    intro epochs recv maxAdvance policy epochs' recv' maxAdvance' policy' first second h h' k k'
    rw [(merge_floors h').1, (merge_floors h').2, (merge_floors k').1, (merge_floors k').2,
      (merge_floors h).1, (merge_floors h).2, (merge_floors k).1, (merge_floors k).2]
    exact ⟨sup_right_comm _ _ _, sup_right_comm _ _ _⟩

/-- The two axes read an absent floor differently: the first pair of a sender may be
(0, 0), but the first epoch may not be 0. -/
example : ContextFloors.default.advanceSenderEpoch "did:a" 0 5 =
      .error (.senderEpochNotMonotonic "did:a" 0 0) ∧
    (ContextFloors.default.advanceRecvSequence "did:a" ⟨0, 0⟩ 5).toOption.isSome = true := by
  constructor
  · rfl
  · decide

end ScpCore.Floors
