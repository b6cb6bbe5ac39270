import ScpCore.EventPruning
import ScpCore.RoleCeiling

/-! Consequence rules and their evaluation: the durable log merged with what the receive
buffer holds, and for each rule the events of a member inside the rule's window. A rule
whose trigger counts governance actions is judged from the log alone; one that counts a
rate is judged by the local clock. -/

namespace ScpCore.Consequence

open EventLog (EventType)
open Roles (Capability)

inductive ConsequenceTrigger
  | messageVelocity | outletRateExceeded | warningCount | custom (key : String)
  deriving DecidableEq

inductive AccessScope
  | read | write | both
  deriving DecidableEq

inductive EnforcementSeverity
  | suspendCapability (capabilities : List Capability)
  | suspendAccess
  | revokeAccess (did : String) (access : AccessScope)
  | removeMember (did : String) (reason : Option String)
  deriving DecidableEq

inductive ConsequenceAction
  | enforcement (severity : EnforcementSeverity)
  | assignRole (toRole : String)
  deriving DecidableEq

/-- `window` is in whole seconds. -/
structure ConsequenceRule where
  trigger : ConsequenceTrigger
  action : ConsequenceAction
  threshold : ℕ
  window : ℕ
  deriving DecidableEq

/-- Whether a consequence of this trigger may become a leaf of the durable log. -/
def isConvergentTrigger : ConsequenceTrigger → Bool
  | .warningCount | .custom _ => true
  | .messageVelocity | .outletRateExceeded => false

def triggerKindStr : ConsequenceTrigger → String
  | .messageVelocity => "MessageVelocity"
  | .outletRateExceeded => "OutletRateExceeded"
  | .warningCount => "WarningCount"
  | .custom key => "Custom:" ++ key

def EnforcementSeverity.variantName : EnforcementSeverity → String
  | .suspendCapability _ => "SuspendCapability"
  | .suspendAccess => "SuspendAccess"
  | .revokeAccess _ _ => "RevokeAccess"
  | .removeMember _ _ => "RemoveMember"

def consequenceActionType : ConsequenceAction → String
  | .enforcement severity => severity.variantName
  | .assignRole _ => "AssignRole"

/-- The fields of a consequence leaf's payload. -/
structure ConsequencePayload where
  targetDid : String
  ruleIndex : ℕ
  triggerKind : String
  actionType : String
  deriving DecidableEq

/-- The payload bytes of the log and their two readings: the first string of a positional
array, and the `target_did` field of a JSON object. `json` writes a leaf's payload. -/
structure Codec (π : Type) where
  empty : π
  isEmpty : π → Bool
  rmpArrayFirstString : π → Option String
  jsonTargetDid : π → Option String
  json : ConsequencePayload → π

section Payload
variable {π : Type} (codec : Codec π)

def payloadTargetDid (data : π) : Option String :=
  if codec.isEmpty data then none
  else match codec.rmpArrayFirstString data with
    | some did => some did
    | none => codec.jsonTargetDid data

def payloadTargetIs (data : π) (targetDid : String) : Bool :=
  (payloadTargetDid codec data).any (· = targetDid)

def payloadStartsWith (data : π) (start : String) : Bool :=
  if codec.isEmpty data then false
  else match codec.rmpArrayFirstString data with
    | some did => did = start || did.startsWith start
    | none => (codec.jsonTargetDid data).any (fun did => did = start || did.startsWith start)

end Payload

structure Event (π : Type) where
  eventType : EventType
  actorDid : String
  timestamp : ℕ
  sequence : ℕ
  payload : π
  deriving DecidableEq

/-- What a receive buffer holds, as far as consequences read or write it. -/
inductive ContextEvent
  | messageSent (senderDid : String)
  | messageReceived (senderDid : String)
  | consequenceTriggered (memberDid : String) (ruleIndex : ℕ) (triggerType actionType : String)
  | consequenceEnforced (memberDid actionType : String) (success : Bool)
  | bufferOverflow (droppedCount : ℕ)
  | other
  deriving DecidableEq

/-- The bucket that an event of the log is counted in, if any. -/
def bucket : EventType → Option EventType
  | .messageSent => some .messageSent
  | .memberJoined => some .memberJoined
  | .memberLeft => some .memberLeft
  | .roleAssigned => some .roleAssigned
  | .outletRegistered | .outletRemoved | .outletInvoked => some .outletInvoked
  | .governanceAction | .governanceProposalCreated | .governanceVoteCast
  | .governanceVoteWithdrawn | .governanceProposalResolved | .governanceDeadlockRecovery
  | .governanceConflictDetected | .governanceConflictResolved | .governanceActionExecuted
  | .accessRevoked | .consequenceTriggered | .consequenceEnforced
  | .consequenceEnforcementFailed | .consequenceEscalatedToSuspendAll => some .governanceAction
  | _ => none

def maxBufferEventAgeSecs : ℕ := 3600
def maxFutureToleranceSecs : ℕ := 5
def maxBufferEventsForEval : ℕ := 100

section Merge
variable {π : Type} (codec : Codec π)

/-- The log's part, numbered from 0. -/
def mergeLog (logEntries : List (Event π)) : List (Event π) :=
  (logEntries.filterMap (fun entry => (bucket entry.eventType).map (fun eventType =>
    { entry with eventType }))).mapIdx (fun sequence entry => { entry with sequence })

def senderOf : ContextEvent → Option String
  | .messageSent senderDid | .messageReceived senderDid => some senderDid
  | _ => none

/-- The buffer's part: messages, at times estimated back from the clock. An event is passed
over where the log covers it or its time is out of range; the loop ends at the cap. -/
def mergeBuffer (nowSecs lastLogTs bufferLen nextSeq : ℕ) :
    ℕ → ℕ → List ContextEvent → List (Event π)
  | _, _, [] => []
  | idx, accepted, event :: rest =>
    match senderOf event with
    | none => mergeBuffer nowSecs lastLogTs bufferLen nextSeq (idx+1) accepted rest
    | some senderDid =>
      let estimated := nowSecs - (bufferLen-1-idx)
      if estimated ≤ lastLogTs && 0 < lastLogTs then
        mergeBuffer nowSecs lastLogTs bufferLen nextSeq (idx+1) accepted rest
      else if min (nowSecs+maxFutureToleranceSecs) u64Max < estimated then
        mergeBuffer nowSecs lastLogTs bufferLen nextSeq (idx+1) accepted rest
      else if maxBufferEventAgeSecs < nowSecs - estimated then
        mergeBuffer nowSecs lastLogTs bufferLen nextSeq (idx+1) accepted rest
      else if maxBufferEventsForEval ≤ accepted then []
      else ⟨.messageSent, senderDid, estimated, nextSeq+accepted, codec.empty⟩ ::
        mergeBuffer nowSecs lastLogTs bufferLen nextSeq (idx+1) (accepted+1) rest

def mergeConsequenceEvents (logEntries : List (Event π)) (buffer : List ContextEvent)
    (nowSecs : ℕ) : List (Event π) :=
  let events := mergeLog logEntries
  let lastLogTs := (events.getLast?.map (·.timestamp)).getD 0
  events ++ mergeBuffer codec nowSecs lastLogTs buffer.length events.length 0 0 buffer

/-- The newest time of the log, or the clock for an empty one. -/
def convergentNow (logEntries : List (Event π)) (now : ℕ) : ℕ :=
  ((logEntries.map (·.timestamp)).max?).getD now

def mergeForConsequences (logEntries : List (Event π)) (buffer : List ContextEvent) (now : ℕ) :
    List (Event π) × ℕ :=
  (mergeConsequenceEvents codec logEntries buffer now, convergentNow logEntries now)

end Merge

structure ConsequenceEvidence where
  eventSequence : ℕ
  timestamp : ℕ
  actorDid : String
  eventType : EventType
  deriving DecidableEq

structure TriggeredConsequence where
  ruleIndex : ℕ
  action : ConsequenceAction
  evidence : List ConsequenceEvidence
  deriving DecidableEq

/-- `Iterator::max_by_key` on the sequence: of equal ones the last. -/
def lastBySequence (evidence : List ConsequenceEvidence) : Option ConsequenceEvidence :=
  evidence.foldl (fun best e =>
    match best with
    | none => some e
    | some b => if b.eventSequence ≤ e.eventSequence then some e else some b) none

def convergentConsequenceTimestamp (consequence : TriggeredConsequence) : ℕ :=
  ((lastBySequence consequence.evidence).map (·.timestamp)).getD 0

section Evaluate
variable {π : Type} (codec : Codec π)

def matchesTrigger (trigger : ConsequenceTrigger) (event : Event π) (subjectDid : String) : Bool :=
  match trigger with
  | .messageVelocity => event.actorDid = subjectDid && event.eventType = .messageSent
  | .outletRateExceeded => event.actorDid = subjectDid && event.eventType = .outletInvoked
  | .warningCount => event.eventType = .governanceAction && event.actorDid ≠ subjectDid &&
      payloadTargetIs codec event.payload subjectDid
  | .custom key => event.eventType = .governanceAction && payloadStartsWith codec event.payload key

/-- The events of the member that count for a rule whose window ends at the anchor. -/
def evidenceFor (rule : ConsequenceRule) (events : List (Event π)) (subjectDid : String)
    (windowAnchor : ℕ) : List ConsequenceEvidence :=
  let windowStart := windowAnchor - rule.window
  ((events.filter (fun event =>
      windowStart ≤ event.timestamp && event.timestamp ≤ windowAnchor)).filter
    (fun event => matchesTrigger codec rule.trigger event subjectDid)).map (fun event =>
      ⟨event.sequence, event.timestamp, event.actorDid, event.eventType⟩)

def evaluateRule (events : List (Event π)) (subjectDid : String) (now convergent : ℕ)
    (rule : ConsequenceRule) (ruleIndex : ℕ) : Option TriggeredConsequence :=
  let windowAnchor := if isConvergentTrigger rule.trigger then convergent else now
  let evidence := evidenceFor codec rule events subjectDid windowAnchor
  if rule.threshold ≤ min evidence.length u64Max then some ⟨ruleIndex, rule.action, evidence⟩
  else none

def evaluateConsequenceRules (rules : List ConsequenceRule) (events : List (Event π))
    (subjectDid : String) (now convergent : ℕ) : List TriggeredConsequence :=
  rules.zipIdx.filterMap (fun r => evaluateRule codec events subjectDid now convergent r.1 r.2)

end Evaluate

end ScpCore.Consequence
