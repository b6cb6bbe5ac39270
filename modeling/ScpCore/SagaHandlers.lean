import ScpCore.Mailbox
import ScpCore.SagaJournal

/-! The saga phases that the two context actors of a cross-context outlet invocation
handle. The state of an actor is what it holds for one saga; its snapshot is written as a
whole. The event log and the payment adapter are outside of it. -/

namespace ScpCore.CrossContext

open Prog Actor Saga

inductive Party
  | caller | target
  deriving DecidableEq

inductive Phase
  | prepareA | prepareB | commitBReserve | commitBSettle | commitA | commitACheckWitness | abort
  | emitDivergenceMarker
  deriving DecidableEq

inductive LogEvent
  | outletInvoked | crossContextOutletInvoked | crossContextDivergenceMarker
  deriving DecidableEq

/-- The operations that the environment decides. A lookup that goes down is one of an
actor that was started again. -/
inductive Op
  | appendJournal (state : SagaState)
  | markResolved (terminal : SagaTerminalState)
  | loadUnresolved
  | lookup (party : Party) (phase : Phase)
  | enqueue (party : Party) (phase : Phase)
  | reply (party : Party) (phase : Phase)
  | coalesce (party : Party)
  | gate (party : Party)
  | persist (party : Party) (phase : Phase)
  | persistObligation
  | append (event : LogEvent)
  | repersist (event : LogEvent)
  | capture
  | sign
  | encodeReceipt
  | verifyReceipt
  | execute
  | keepContext
  | loadContext
  deriving DecidableEq

inductive ContextError
  | rejected
  | invalidState (code : ℕ)
  | contextNotRegistered (code : ℕ)
  | cryptoFailed (code : ℕ)
  | permissionDenied
  | persistenceFailed
  | eventLogFailed
  | actorBusy
  | sagaJournal
  deriving DecidableEq

/-- The reservation that Prepare-A hands to the coordinator. -/
structure Ticket where
  generation : ℕ
  escrowed : Bool
  deriving DecidableEq

inductive SagaPhaseMessage
  | prepareA
  | prepareB
  | commitBReserve
  | commitBSettle (output : Bytes)
  | commitA (reservation : Ticket)
  | commitACheckWitness
  | abort (reservation : Option Ticket)
  | emitDivergenceMarker
  deriving DecidableEq

inductive CommitBReserveOutcome
  | alreadyCommitted (output : Bytes)
  | readyToExecute

namespace SagaPhaseMessage

def phase : SagaPhaseMessage → Phase
  | .prepareA => .prepareA
  | .prepareB => .prepareB
  | .commitBReserve => .commitBReserve
  | .commitBSettle _ => .commitBSettle
  | .commitA _ => .commitA
  | .commitACheckWitness => .commitACheckWitness
  | .abort _ => .abort
  | .emitDivergenceMarker => .emitDivergenceMarker

abbrev Answer : SagaPhaseMessage → Type
  | .prepareA => Ticket
  | .commitBReserve => CommitBReserveOutcome
  | .commitBSettle _ => Bytes
  | .commitACheckWitness => Bool
  | _ => Unit

end SagaPhaseMessage

/-- What a context holds for the saga. The books count how often the reservation of
Prepare-A was taken from the caller's velocity, budget and rate limit, and given back. -/
structure PerContextState where
  deducted : ℕ
  reversed : ℕ
  callerReservation : Bool
  committedInvocation : Bool
  sagaPending : Bool
  committedOutput : Option Bytes
  deriving DecidableEq

structure Outside where
  log : List LogEvent
  captures : ℕ
  deriving DecidableEq

abbrev ContextActor := Actor PerContextState SagaPhaseMessage Outside

abbrev Handler (α : Type) := Prog Op ContextActor ContextError α

/-- What is fixed for the saga: whether the reservation holds an escrow, whether settling
triggers a downward authorization, and the bytes the outlet returns. -/
structure Outlet where
  escrowed : Bool
  demotes : Bool
  output : Bytes

namespace PerContextState

def deduct (s : PerContextState) : PerContextState := { s with deducted := s.deducted+1 }

def reverse (s : PerContextState) : PerContextState := { s with reversed := s.reversed+1 }

/-- The books are not of the class that a failed persist restores. -/
def restoreClassS (before s : PerContextState) : PerContextState :=
  { before with deducted := s.deducted, reversed := s.reversed }

def stageReservation (s : PerContextState) : PerContextState := { s with callerReservation := true }

def stagePending (s : PerContextState) : PerContextState := { s with sagaPending := true }

def unstagePending (before s : PerContextState) : PerContextState :=
  { s with sagaPending := s.sagaPending && before.sagaPending }

def capture (output : Bytes) (s : PerContextState) : PerContextState :=
  { s with sagaPending := false, committedOutput := some output }

def uncapture (s : PerContextState) : PerContextState :=
  { s with sagaPending := true, committedOutput := none }

def recordInvocation (s : PerContextState) : PerContextState :=
  { s with committedInvocation := true, callerReservation := false }

def unrecordInvocation (s : PerContextState) : PerContextState :=
  { s with committedInvocation := false }

def clearReservation (s : PerContextState) : PerContextState := { s with callerReservation := false }

def release (s : PerContextState) : PerContextState :=
  { s with callerReservation := false, sagaPending := false }

end PerContextState

namespace Outside

def record (event : LogEvent) (o : Outside) : Outside := { o with log := o.log ++ [event] }

def captured (o : Outside) : Outside := { o with captures := o.captures+1 }

end Outside

open PerContextState

section Handlers
variable (outlet : Outlet)

/-- A paid action is refused at the gate, as the saga presents no spending capability. -/
def prepareA : Handler Ticket := do
  attemptOr (.gate .caller) .rejected
  let before ← get
  modify (update deduct)
  if ← commitRestore (.persist .caller .prepareA) stageReservation restoreClassS then
    pure ⟨before.generation, outlet.escrowed⟩
  else
    modify (update reverse)
    fail .persistenceFailed

def prepareB : Handler Unit := do
  attemptOr (.gate .target) .rejected
  if ← commitRestore (.persist .target .prepareB) stagePending unstagePending then pure ()
  else fail .persistenceFailed

def commitBReserve : Handler CommitBReserveOutcome := do
  let a ← get
  match a.mem.committedOutput with
  | some output =>
    attemptOr .encodeReceipt (.cryptoFailed 13035)
    pure (.alreadyCommitted output)
  | none => if a.mem.sagaPending then pure .readyToExecute else fail (.invalidState 13030)

/-- The event log is written after the capture is persisted. A failed append undoes the
capture and persists the state again. -/
def commitBSettleFinalize (output : Bytes) : Handler Bytes := do
  if ← attempt (.append .outletInvoked) then
    modify (act (Outside.record .outletInvoked))
    attemptOr .encodeReceipt (.cryptoFailed 13035)
    pure output
  else if ← commitKeep (.repersist .outletInvoked) uncapture then fail .eventLogFailed
  else fail .persistenceFailed

def commitBFirstSettle (output : Bytes) : Handler Bytes := do
  let a ← get
  if a.mem.sagaPending then
    attemptOr .sign (.cryptoFailed 13032)
    if ← commitRestore (.persist .target .commitBSettle) (PerContextState.capture output)
        restoreClassS then
      commitBSettleFinalize output
    else fail .persistenceFailed
  else fail (.invalidState 13031)

def commitBSettle (output : Bytes) : Handler Bytes := do
  let a ← get
  match a.mem.committedOutput with
  | some stored =>
    attemptOr .encodeReceipt (.cryptoFailed 13035)
    pure stored
  | none => commitBFirstSettle output

/-- The books are touched only by a ticket of the live actor. -/
def rollbackOutletEconomyGenerationChecked (ticket : Ticket) : Handler Bool := do
  let a ← get
  if ticket.generation = a.generation then
    modify (update reverse)
    pure true
  else pure false

/-- A capture that fails gives the reservation back. -/
def settleOutletEconomyCapture (ticket : Ticket) : Handler Bool := do
  if ticket.escrowed then
    if ← attempt .capture then
      modify (act Outside.captured)
      pure true
    else
      modify (update reverse)
      pure false
  else
    modify (act Outside.captured)
    pure true

def settleOutletEconomy (ticket : Ticket) : Handler Unit := do
  let a ← get
  if ticket.generation = a.generation then
    let captured ← settleOutletEconomyCapture ticket
    if outlet.demotes then
      if ← persist .persistObligation then
        if captured then pure () else fail .permissionDenied
      else fail .persistenceFailed
    else if captured then pure () else fail .permissionDenied
  else fail (.contextNotRegistered 6088)

/-- After the witness is persisted, a failed append takes the witness back; the consumed
reservation stays consumed. -/
def commitAFinalize : Handler Unit := do
  if ← attempt (.append .crossContextOutletInvoked) then
    modify (act (Outside.record .crossContextOutletInvoked))
  else if ← commitKeep (.repersist .crossContextOutletInvoked) unrecordInvocation then
    fail .eventLogFailed
  else fail .persistenceFailed

def commitA (ticket : Ticket) : Handler Unit := do
  let a ← get
  if a.mem.committedInvocation then
    let _ ← rollbackOutletEconomyGenerationChecked ticket
    modify (update clearReservation)
  else
    settleOutletEconomy outlet ticket
    if ← commitRestore (.persist .caller .commitA) recordInvocation restoreClassS then
      commitAFinalize
    else fail .persistenceFailed

def commitACheckWitness : Handler Bool := do
  let a ← get
  pure a.mem.committedInvocation

def reverseCarrier : Option Ticket → Handler Bool
  | some ticket => rollbackOutletEconomyGenerationChecked ticket
  | none => pure false

def reverseCallerReservationRecord : Handler Bool := do
  let a ← get
  if a.mem.callerReservation then
    modify (update reverse)
    pure true
  else pure false

/-- The reservation is given back by the ticket of the live actor, or else from the record.
The answer is whether the books changed. -/
def reverseReservation (reservation : Option Ticket) : Handler Bool := do
  if ← reverseCarrier reservation then pure true else reverseCallerReservationRecord

/-- Either side. An actor that holds nothing of the saga answers without a persist. -/
def abort (party : Party) (reservation : Option Ticket) : Handler Unit := do
  let ran ← reverseReservation reservation
  let a ← get
  if ran || a.mem.callerReservation || a.mem.sagaPending then
    if ← commitKeep (.persist party .abort) release then pure () else fail .persistenceFailed
  else pure ()

def emitDivergenceMarker (party : Party) : Handler Unit := do
  attemptOr .sign (.cryptoFailed 13036)
  if ← attempt (.append .crossContextDivergenceMarker) then
    modify (act (Outside.record .crossContextDivergenceMarker))
    if ← persist (.persist party .emitDivergenceMarker) then pure () else fail .persistenceFailed
  else fail .eventLogFailed

def handle (party : Party) : (m : SagaPhaseMessage) → Handler m.Answer
  | .prepareA => prepareA outlet
  | .prepareB => prepareB
  | .commitBReserve => commitBReserve
  | .commitBSettle output => commitBSettle output
  | .commitA ticket => commitA outlet ticket
  | .commitACheckWitness => commitACheckWitness
  | .abort reservation => abort party reservation
  | .emitDivergenceMarker => emitDivergenceMarker party

/-- A message whose sender no longer waits. -/
def serve (party : Party) (m : SagaPhaseMessage) : Handler Unit := do
  let _ ← observe (handle outlet party m)
  pure ()

end Handlers

end ScpCore.CrossContext
