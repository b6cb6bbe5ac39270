import ScpCore.ConsequenceRule
import ScpCore.RoleState

/-! One periodic sweep over the members of a context: the log and the buffer are read once,
every member is judged by the rules, and what is triggered is enforced member by member in
the order in which the membership map is gone through. Each leaf of the durable log is
appended before the event that announces it. -/

namespace ScpCore.Consequence

open EventLog (EventType)
open Roles (Capability ContextRoleState)

/-- For each rule, the time until which it does not fire again. -/
structure Cooldowns where
  mark : ℕ → Option ℕ
  mark_le : ∀ r t, mark r = some t → t ≤ u64Max

namespace Cooldowns

def none : Cooldowns := ⟨fun _ => Option.none, fun _ _ h => by cases h⟩

/-- The rule rests for its window from now on. -/
def record (c : Cooldowns) (ruleIndex now window : ℕ) : Cooldowns where
  mark := Function.update c.mark ruleIndex (some (min (now+window) u64Max))
  mark_le := by
    intro r t h
    by_cases hr : r = ruleIndex
    · rw [hr, Function.update_self, Option.some.injEq] at h
      omega
    · rw [Function.update_of_ne hr] at h
      exact c.mark_le r t h

def cooling (c : Cooldowns) (ruleIndex now : ℕ) : Bool :=
  match c.mark ruleIndex with
  | some until_ => now < until_
  | Option.none => false

end Cooldowns

structure ReceiveBuffer where
  events : List ContextEvent
  capacity : ℕ
  droppedSinceLastConsume : ℕ

/-- A full buffer drops its oldest events, two of them where the overflow marker is new. -/
def ReceiveBuffer.push (b : ReceiveBuffer) (event : ContextEvent) : ReceiveBuffer :=
  if b.events.length < b.capacity then { b with events := b.events ++ [event] }
  else match b.events.getLast? with
    | some (.bufferOverflow _) =>
      { b with
        events := (b.events.drop 1).dropLast ++
          [.bufferOverflow (b.droppedSinceLastConsume+1), event]
        droppedSinceLastConsume := b.droppedSinceLastConsume+1 }
    | _ =>
      { b with
        events := b.events.drop 2 ++ [.bufferOverflow (b.droppedSinceLastConsume+2), event]
        droppedSinceLastConsume := b.droppedSinceLastConsume+2 }

structure Membership where
  dids : List String
  nodup : dids.Nodup

/-- The parts of a context that a sweep reads and writes. -/
structure Cell (π : Type) where
  rules : List ConsequenceRule
  log : List (Event π)
  receiveBuffer : ReceiveBuffer
  membership : Membership
  roles : ContextRoleState
  cooldowns : Cooldowns
  checkpointEventsSince : ℕ

/-- The local clock: its reading, and the nonces of the tokens it stamps. -/
structure Clock where
  now : ℕ
  now_le : now ≤ u64Max
  nonce : Capability → String

def consequenceActorDid : String := "system"

section Enforce
variable {π : Type} (codec : Codec π)

namespace Cell

/-- Appends a leaf to the durable log and counts it towards the next checkpoint. -/
def append (cell : Cell π) (eventType : EventType) (payload : π) (timestamp : ℕ) : Cell π :=
  { cell with
    log := cell.log ++
      [⟨eventType, consequenceActorDid, timestamp, cell.log.length, payload⟩]
    checkpointEventsSince := cell.checkpointEventsSince+1 }

/-- A leaf about one consequence, where it is to be durable. -/
def record (cell : Cell π) (durable : Bool) (eventType : EventType)
    (consequence : TriggeredConsequence) (payload : ConsequencePayload) : Cell π :=
  if durable then
    cell.append eventType (codec.json payload) (convergentConsequenceTimestamp consequence)
  else cell

def emit (cell : Cell π) (event : ContextEvent) : Cell π :=
  { cell with receiveBuffer := cell.receiveBuffer.push event }

end Cell

def enforceSuspend (roles : ContextRoleState) (memberDid : String)
    (capabilities : List Capability) : Bool × ContextRoleState :=
  if capabilities.isEmpty then (false, roles)
  else (true, roles.suspendCapabilities memberDid capabilities)

def enforceAssignRole (roles : ContextRoleState) (memberDid toRole : String)
    (nonce : Capability → String) : Bool × ContextRoleState :=
  match roles.systemAssignRole memberDid toRole nonce with
  | .ok (_, assigned) => (true, assigned)
  | .error _ => (false, roles)

/-- Whether the action was enforced, and the roles after it. -/
def dispatchEnforcementAction (roles : ContextRoleState) (memberDid : String)
    (action : ConsequenceAction) (nonce : Capability → String) : Bool × ContextRoleState :=
  match action with
  | .enforcement (.suspendCapability capabilities) => enforceSuspend roles memberDid capabilities
  | .enforcement .suspendAccess => (true, roles.suspendAll memberDid)
  | .enforcement (.revokeAccess _ _) | .enforcement (.removeMember _ _) => (false, roles)
  | .assignRole toRole => enforceAssignRole roles memberDid toRole nonce

/-- What became of a triggered consequence. -/
inductive Outcome
  | cooling | ghost | absent | enforced | escalated
  deriving DecidableEq

/-- The action was applied to the member, or everything was suspended in its place. -/
def Outcome.sanctioned : Outcome → Bool
  | .enforced | .escalated => true
  | .cooling | .ghost | .absent => false

/-- A rule that rests is passed over. A failed action is replaced by a suspension of
everything, which does not make the rule rest. -/
def processOneTriggeredConsequence (clock : Clock) (rules : List ConsequenceRule)
    (memberDid : String) (cell : Cell π) (consequence : TriggeredConsequence) :
    Outcome × Cell π :=
  if cell.cooldowns.cooling consequence.ruleIndex clock.now then (.cooling, cell)
  else
    let memberPresent := decide (memberDid ∈ cell.membership.dids)
    if !memberPresent && consequence.evidence.isEmpty then (.ghost, cell)
    else
      let actionType := consequenceActionType consequence.action
      let rule := rules[consequence.ruleIndex]?
      let triggerKind := (rule.map (fun r => triggerKindStr r.trigger)).getD "Unknown"
      let durable := rule.any (fun r => isConvergentTrigger r.trigger)
      let payload : ConsequencePayload :=
        ⟨memberDid, consequence.ruleIndex, triggerKind, actionType⟩
      let triggered := (cell.record codec durable .consequenceTriggered consequence payload).emit
        (.consequenceTriggered memberDid consequence.ruleIndex triggerKind actionType)
      if !memberPresent then
        (.absent, (triggered.record codec durable .consequenceEnforcementFailed consequence
          payload).emit (.consequenceEnforced memberDid actionType false))
      else
        match dispatchEnforcementAction triggered.roles memberDid consequence.action
          clock.nonce with
        | (false, roles) =>
          let suspended := { triggered with roles := roles.suspendAll memberDid }
          let failed :=
            suspended.record codec durable .consequenceEnforcementFailed consequence payload
          let escalated := failed.record codec durable .consequenceEscalatedToSuspendAll
            consequence { payload with actionType := "SuspendAll" }
          (.escalated,
            escalated.emit (.consequenceEnforced memberDid "SuspendAll(escalated)" true))
        | (true, roles) =>
          let rested := match rule with
            | some r => triggered.cooldowns.record consequence.ruleIndex clock.now r.window
            | none => triggered.cooldowns
          let enforced := { triggered with roles, cooldowns := rested }
          (.enforced, (enforced.record codec durable .consequenceEnforced consequence payload).emit
            (.consequenceEnforced memberDid actionType true))

/-- A consequence a sweep came to: for whom, when, what became of it, and the roles before
and after. -/
structure Enforcement where
  memberDid : String
  now : ℕ
  consequence : TriggeredConsequence
  outcome : Outcome
  rolesBefore : ContextRoleState
  rolesAfter : ContextRoleState

/-- Enforces a member's consequences in the order of the rules. -/
def enforceTriggeredConsequences (clock : Clock) (rules : List ConsequenceRule)
    (memberDid : String) : Cell π → List TriggeredConsequence → List Enforcement × Cell π
  | cell, [] => ([], cell)
  | cell, consequence :: rest =>
    let one := processOneTriggeredConsequence codec clock rules memberDid cell consequence
    let others := enforceTriggeredConsequences clock rules memberDid one.2 rest
    (⟨memberDid, clock.now, consequence, one.1, cell.roles, one.2.roles⟩ :: others.1, others.2)

/-- Enforces the results member by member. -/
def enforceResults (clock : Clock) (rules : List ConsequenceRule) :
    Cell π → List (String × List TriggeredConsequence) → List Enforcement × Cell π
  | cell, [] => ([], cell)
  | cell, (memberDid, triggered) :: rest =>
    let one := enforceTriggeredConsequences codec clock rules memberDid cell triggered
    let others := enforceResults clock rules one.2 rest
    (one.1 ++ others.1, others.2)

/-- What the rules come to for one member. -/
def triggeredFor (clock : Clock) (cell : Cell π) (memberDid : String) :
    List TriggeredConsequence :=
  let (events, convergent) :=
    mergeForConsequences codec cell.log cell.receiveBuffer.events clock.now
  evaluateConsequenceRules codec cell.rules events memberDid clock.now convergent

/-- `order` is the order in which the membership map is gone through. -/
def handleEvaluatePeriodicConsequences (clock : Clock) (order : List String) (cell : Cell π) :
    List Enforcement × Cell π :=
  if cell.rules.isEmpty then ([], cell)
  else
    let results := (order.map (fun memberDid => (memberDid, triggeredFor codec clock cell
      memberDid))).filter (fun result => !result.2.isEmpty)
    enforceResults codec clock cell.rules cell results

/-- Enforces a list of members' consequences in turn. -/
def enforcePairs (clock : Clock) (rules : List ConsequenceRule) :
    Cell π → List (String × TriggeredConsequence) → List Enforcement × Cell π
  | cell, [] => ([], cell)
  | cell, (memberDid, consequence) :: rest =>
    let one := processOneTriggeredConsequence codec clock rules memberDid cell consequence
    let others := enforcePairs clock rules one.2 rest
    (⟨memberDid, clock.now, consequence, one.1, cell.roles, one.2.roles⟩ :: others.1, others.2)

/-- The consequences that a sweep comes to, in its order. -/
def sweepPairs (clock : Clock) (order : List String) (cell : Cell π) :
    List (String × TriggeredConsequence) :=
  order.flatMap (fun memberDid => (triggeredFor codec clock cell memberDid).map (memberDid, ·))

theorem enforcePairs_append (clock : Clock) (rules : List ConsequenceRule) (cell : Cell π)
    (pairs more : List (String × TriggeredConsequence)) :
    enforcePairs codec clock rules cell (pairs ++ more) =
      ((enforcePairs codec clock rules cell pairs).1 ++
        (enforcePairs codec clock rules (enforcePairs codec clock rules cell pairs).2 more).1,
      (enforcePairs codec clock rules (enforcePairs codec clock rules cell pairs).2 more).2) := by
  induction pairs generalizing cell with
  | nil => rfl
  | cons pair pairs ih =>
    rw [List.cons_append, enforcePairs, ih]
    rfl

theorem enforceTriggeredConsequences_eq (clock : Clock) (rules : List ConsequenceRule)
    (memberDid : String) (cell : Cell π) (triggered : List TriggeredConsequence) :
    enforceTriggeredConsequences codec clock rules memberDid cell triggered =
      enforcePairs codec clock rules cell (triggered.map (memberDid, ·)) := by
  induction triggered generalizing cell with
  | nil => rfl
  | cons consequence triggered ih =>
    rw [List.map_cons, enforceTriggeredConsequences, enforcePairs, ih]

theorem enforceResults_eq (clock : Clock) (rules : List ConsequenceRule) (cell : Cell π)
    (results : List (String × List TriggeredConsequence)) :
    enforceResults codec clock rules cell results =
      enforcePairs codec clock rules cell
        (results.flatMap (fun result => result.2.map (result.1, ·))) := by
  induction results generalizing cell with
  | nil => rfl
  | cons result results ih =>
    rw [List.flatMap_cons, enforcePairs_append, enforceResults, ih,
      enforceTriggeredConsequences_eq]

/-- Members without a consequence are dropped, which changes nothing. -/
theorem flatMap_filter_nonempty (results : List (String × List TriggeredConsequence)) :
    (results.filter (fun result => !result.2.isEmpty)).flatMap
        (fun result => result.2.map (result.1, ·)) =
      results.flatMap (fun result => result.2.map (result.1, ·)) := by
  induction results with
  | nil => rfl
  | cons result results ih =>
    by_cases h : result.2 = []
    · simp [h, ih]
    · simp [h, ih]

theorem handleEvaluatePeriodicConsequences_eq (clock : Clock) (order : List String)
    (cell : Cell π) :
    handleEvaluatePeriodicConsequences codec clock order cell =
      enforcePairs codec clock cell.rules cell (sweepPairs codec clock order cell) := by
  unfold handleEvaluatePeriodicConsequences
  by_cases h : cell.rules.isEmpty = true
  · have hnone : sweepPairs codec clock order cell = [] := by
      have hrules := List.isEmpty_iff.mp h
      simp [sweepPairs, triggeredFor, evaluateConsequenceRules, hrules]
    rw [if_pos h, hnone]
    rfl
  · rw [if_neg h]
    dsimp only
    rw [enforceResults_eq, flatMap_filter_nonempty, List.flatMap_map]
    rfl

/-- The parts of the roles that decide whether an action can be enforced. -/
structure SameStanding (roles after : ContextRoleState) : Prop where
  members : after.members = roles.members
  roleDefinitions : after.roleDefinitions = roles.roleDefinitions
  ceiling : after.ceiling = roles.ceiling

/-- Whether an action can be enforced on a member. -/
def enforceable (roles : ContextRoleState) (memberDid : String) : ConsequenceAction → Bool
  | .enforcement (.suspendCapability capabilities) => !capabilities.isEmpty
  | .enforcement .suspendAccess => true
  | .enforcement (.revokeAccess _ _) | .enforcement (.removeMember _ _) => false
  | .assignRole toRole => roles.members memberDid && (roles.roleDefinitions toRole).any (fun role =>
      (Roles.validateRoleDefinition role roles.ceiling).isOk)

theorem SameStanding.refl (roles : ContextRoleState) : SameStanding roles roles := ⟨rfl, rfl, rfl⟩

theorem SameStanding.trans {a b c : ContextRoleState} (h₁ : SameStanding a b)
    (h₂ : SameStanding b c) : SameStanding a c :=
  ⟨h₂.members.trans h₁.members, h₂.roleDefinitions.trans h₁.roleDefinitions,
    h₂.ceiling.trans h₁.ceiling⟩

theorem SameStanding.enforceable {roles after : ContextRoleState} (h : SameStanding roles after)
    (memberDid : String) (action : ConsequenceAction) :
    enforceable after memberDid action = enforceable roles memberDid action := by
  unfold Consequence.enforceable
  rw [h.members, h.roleDefinitions, h.ceiling]

theorem suspendAll_standing (roles : ContextRoleState) (memberDid : String) :
    SameStanding roles (roles.suspendAll memberDid) := by
  unfold ContextRoleState.suspendAll
  cases roles.memberCapabilities memberDid <;> exact ⟨rfl, rfl, rfl⟩

theorem keepSuspensions_standing (roles : ContextRoleState) (memberDid : String)
    (keep : Capability → Bool) : SameStanding roles (roles.keepSuspensions memberDid keep) := by
  unfold ContextRoleState.keepSuspensions
  split
  · exact SameStanding.refl _
  · exact ⟨rfl, rfl, rfl⟩

/-- An assignment succeeds for a member, a role that is defined and one inside the ceiling. -/
theorem enforceAssignRole_spec (roles : ContextRoleState) (memberDid toRole : String)
    (nonce : Capability → String) :
    (enforceAssignRole roles memberDid toRole nonce).1 =
        enforceable roles memberDid (.assignRole toRole) ∧
      SameStanding roles (enforceAssignRole roles memberDid toRole nonce).2 := by
  unfold enforceAssignRole enforceable ContextRoleState.systemAssignRole
  by_cases hm : roles.members memberDid = true
  · cases hrole : roles.roleDefinitions toRole with
    | none => simp [require, okOr, hm, hrole, bind, Except.bind, SameStanding.refl]
    | some role =>
      cases hvalid : Roles.validateRoleDefinition role roles.ceiling with
      | error e =>
        simp [require, okOr, hm, hrole, hvalid, bind, Except.bind, Except.isOk, Except.toBool,
          SameStanding.refl]
      | ok u =>
        simp [require, okOr, hm, hrole, hvalid, bind, Except.bind, pure, Except.pure, Except.isOk,
          Except.toBool]
        have hset : SameStanding roles { roles with
            assignments := Function.update roles.assignments memberDid
              (some ⟨memberDid, toRole, Roles.mintRoleTokens roles.contextId roles.creatorDid
                memberDid role nonce⟩)
            memberCapabilities :=
              Function.update roles.memberCapabilities memberDid (some role.capabilities) } :=
          ⟨rfl, rfl, rfl⟩
        exact hset.trans (keepSuspensions_standing _ memberDid _)
  · simp [require, hm, bind, Except.bind, SameStanding.refl]

theorem dispatchEnforcementAction_spec (roles : ContextRoleState) (memberDid : String)
    (action : ConsequenceAction) (nonce : Capability → String) :
    (dispatchEnforcementAction roles memberDid action nonce).1 =
        enforceable roles memberDid action ∧
      SameStanding roles (dispatchEnforcementAction roles memberDid action nonce).2 := by
  unfold dispatchEnforcementAction
  split
  · rename_i capabilities
    unfold enforceSuspend
    by_cases h : capabilities.isEmpty = true
    · simp [enforceable, h, SameStanding.refl]
    · rw [if_neg h]
      exact ⟨by simp [enforceable, h], ⟨rfl, rfl, rfl⟩⟩
  · exact ⟨rfl, suspendAll_standing roles memberDid⟩
  · exact ⟨rfl, SameStanding.refl roles⟩
  · exact ⟨rfl, SameStanding.refl roles⟩
  · exact enforceAssignRole_spec roles memberDid _ nonce

/-- What the durable log says of an event. -/
def leafOf (event : Event π) : EventType × π × ℕ := (event.eventType, event.payload, event.timestamp)

section Fields
variable (cell : Cell π) (durable : Bool) (eventType : EventType)
    (consequence : TriggeredConsequence) (payload : ConsequencePayload) (event : ContextEvent)

@[simp] theorem record_roles :
    (cell.record codec durable eventType consequence payload).roles = cell.roles := by
  unfold Cell.record
  split <;> rfl

@[simp] theorem record_rules :
    (cell.record codec durable eventType consequence payload).rules = cell.rules := by
  unfold Cell.record
  split <;> rfl

@[simp] theorem record_membership :
    (cell.record codec durable eventType consequence payload).membership = cell.membership := by
  unfold Cell.record
  split <;> rfl

@[simp] theorem record_cooldowns :
    (cell.record codec durable eventType consequence payload).cooldowns = cell.cooldowns := by
  unfold Cell.record
  split <;> rfl

@[simp] theorem record_leaves :
    (cell.record codec durable eventType consequence payload).log.map leafOf =
      cell.log.map leafOf ++ if durable then
        [(eventType, codec.json payload, convergentConsequenceTimestamp consequence)] else [] := by
  unfold Cell.record Cell.append
  cases durable with
  | true => simp [leafOf]
  | false => simp

@[simp] theorem emit_roles : (cell.emit event).roles = cell.roles := rfl
@[simp] theorem emit_rules : (cell.emit event).rules = cell.rules := rfl
@[simp] theorem emit_membership : (cell.emit event).membership = cell.membership := rfl
@[simp] theorem emit_cooldowns : (cell.emit event).cooldowns = cell.cooldowns := rfl
@[simp] theorem emit_log : (cell.emit event).log = cell.log := rfl

end Fields

/-- The rule rests after it was enforced. -/
def restAfter (rules : List ConsequenceRule) (cooldowns : Cooldowns) (ruleIndex now : ℕ) :
    Cooldowns :=
  match rules[ruleIndex]? with
  | some rule => cooldowns.record ruleIndex now rule.window
  | none => cooldowns

/-- Whether a rule's consequences become leaves. -/
def isDurable (rules : List ConsequenceRule) (ruleIndex : ℕ) : Bool :=
  rules[ruleIndex]?.any (fun rule => isConvergentTrigger rule.trigger)

def payloadOf (rules : List ConsequenceRule) (memberDid : String)
    (consequence : TriggeredConsequence) : ConsequencePayload :=
  ⟨memberDid, consequence.ruleIndex,
    (rules[consequence.ruleIndex]?.map (fun r => triggerKindStr r.trigger)).getD "Unknown",
    consequenceActionType consequence.action⟩

/-- The leaves of a consequence that is not passed over. -/
def leavesOf (roles : ContextRoleState) (rules : List ConsequenceRule) (memberDid : String)
    (consequence : TriggeredConsequence) : List (EventType × π × ℕ) :=
  if isDurable rules consequence.ruleIndex then
    let payload := payloadOf rules memberDid consequence
    let timestamp := convergentConsequenceTimestamp consequence
    (.consequenceTriggered, codec.json payload, timestamp) ::
      if enforceable roles memberDid consequence.action then
        [(.consequenceEnforced, codec.json payload, timestamp)]
      else [(.consequenceEnforcementFailed, codec.json payload, timestamp),
        (.consequenceEscalatedToSuspendAll, codec.json { payload with actionType := "SuspendAll" },
          timestamp)]
  else []

/-- What a consequence that is not passed over comes to for a member who is there. -/
structure Passed (clock : Clock) (rules : List ConsequenceRule) (memberDid : String)
    (cell : Cell π) (consequence : TriggeredConsequence) (outcome : Outcome) (after : Cell π) :
    Prop where
  leaves : after.log.map leafOf =
    cell.log.map leafOf ++ leavesOf codec cell.roles rules memberDid consequence
  cooldowns : after.cooldowns =
    if enforceable cell.roles memberDid consequence.action then
      restAfter rules cell.cooldowns consequence.ruleIndex clock.now
    else cell.cooldowns
  membership : after.membership = cell.membership
  rules : after.rules = cell.rules
  standing : SameStanding cell.roles after.roles
  applied :
    (outcome = .enforced ∧ enforceable cell.roles memberDid consequence.action = true ∧
      dispatchEnforcementAction cell.roles memberDid consequence.action clock.nonce =
        (true, after.roles)) ∨
    (outcome = .escalated ∧ enforceable cell.roles memberDid consequence.action = false ∧
      ∃ roles, dispatchEnforcementAction cell.roles memberDid consequence.action clock.nonce =
        (false, roles) ∧ after.roles = roles.suspendAll memberDid)

theorem processOneTriggeredConsequence_cooling (clock : Clock) (rules : List ConsequenceRule)
    (memberDid : String) (cell : Cell π) (consequence : TriggeredConsequence)
    (h : cell.cooldowns.cooling consequence.ruleIndex clock.now = true) :
    processOneTriggeredConsequence codec clock rules memberDid cell consequence =
      (.cooling, cell) := by
  rw [processOneTriggeredConsequence, if_pos h]

theorem processOneTriggeredConsequence_passed (clock : Clock) (rules : List ConsequenceRule)
    (memberDid : String) (cell : Cell π) (consequence : TriggeredConsequence)
    (hgate : cell.cooldowns.cooling consequence.ruleIndex clock.now = false)
    (hmember : memberDid ∈ cell.membership.dids) :
    Passed codec clock rules memberDid cell consequence
      (processOneTriggeredConsequence codec clock rules memberDid cell consequence).1
      (processOneTriggeredConsequence codec clock rules memberDid cell consequence).2 := by
  obtain ⟨hsuccess, hstanding⟩ :=
    dispatchEnforcementAction_spec cell.roles memberDid consequence.action clock.nonce
  unfold processOneTriggeredConsequence
  simp only [hgate, hmember, decide_true, Bool.not_true, Bool.false_and, Bool.false_eq_true,
    if_false, emit_roles, record_roles]
  generalize hdispatch : dispatchEnforcementAction cell.roles memberDid consequence.action
    clock.nonce = dispatched at hsuccess hstanding
  obtain ⟨success, roles⟩ := dispatched
  dsimp only at hsuccess hstanding
  cases success with
  | true =>
    refine ⟨?_, ?_, ?_, ?_, ?_, ?_⟩
    · simp only [record_leaves, emit_log, leavesOf, isDurable, payloadOf, ← hsuccess, if_true]
      cases rules[consequence.ruleIndex]?.any (fun r => isConvergentTrigger r.trigger) <;> simp
    · simp only [record_cooldowns, emit_cooldowns, ← hsuccess, if_true, restAfter]
    · simp only [record_membership, emit_membership]
    · simp only [record_rules, emit_rules]
    · simpa only [record_roles, emit_roles] using hstanding
    · left
      simp [← hsuccess, hdispatch]
  | false =>
    refine ⟨?_, ?_, ?_, ?_, ?_, ?_⟩
    · simp only [record_leaves, emit_log, leavesOf, isDurable, payloadOf, ← hsuccess]
      cases rules[consequence.ruleIndex]?.any (fun r => isConvergentTrigger r.trigger) <;> simp
    · simp [← hsuccess]
    · simp only [record_membership, emit_membership]
    · simp only [record_rules, emit_rules]
    · simpa only [record_roles, emit_roles] using
        hstanding.trans (suspendAll_standing roles memberDid)
    · right
      simp [← hsuccess, hdispatch]

end Enforce

end ScpCore.Consequence
