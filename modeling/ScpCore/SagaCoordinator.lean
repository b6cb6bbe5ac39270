import ScpCore.SagaHandlers

/-! The coordinator of a cross-context outlet invocation, and its recovery after a restart.
The journal is kept as its latest entry and its resolution. What the coordinator holds is
lost with the process; the two actors are then started again from their snapshots. -/

namespace ScpCore.CrossContext

open Prog Actor
open Saga (SagaState SagaTerminalState)

structure LatestEntry where
  state : SagaState
  seq : ℕ
  /-- The evidence names both contexts. -/
  evidence : Bool
  deriving DecidableEq

structure Journal where
  latest : Option LatestEntry
  resolved : Option SagaTerminalState
  deriving DecidableEq

namespace Journal

def append (entry : LatestEntry) (j : Journal) : Journal :=
  match j.latest with
  | some latest => if latest.seq ≤ entry.seq then { j with latest := some entry } else j
  | none => { j with latest := some entry }

def resolve (terminal : SagaTerminalState) (j : Journal) : Journal :=
  { j with resolved := some terminal }

def unresolved (j : Journal) : Option LatestEntry := if j.resolved.isSome then none else j.latest

end Journal

structure CrossContextSagaCtx where
  preparedA : Option Ticket
  preparedB : Bool
  executor : Bool
  executorOutput : Option Bytes
  committed : Option Bytes
  committedBOutletInvoked : Bool
  reachedNeedsRepair : Bool
  deriving DecidableEq

structure World where
  caller : ContextActor
  target : ContextActor
  journal : Journal
  ctx : CrossContextSagaCtx
  executions : ℕ
  repairRecords : ℕ
  /-- The caller context is in persistence. -/
  callerStored : Bool

namespace World

def actor : Party → World → ContextActor
  | .caller, w => w.caller
  | .target, w => w.target

def putActor : Party → ContextActor → World → World
  | .caller, a, w => { w with caller := a }
  | .target, a, w => { w with target := a }

def setCtx (f : CrossContextSagaCtx → CrossContextSagaCtx) (w : World) : World :=
  { w with ctx := f w.ctx }

def setJournal (f : Journal → Journal) (w : World) : World := { w with journal := f w.journal }

end World

abbrev Coordinator (α : Type) := Prog Op World ContextError α

def onActor {ε α : Type} (party : Party) (p : Prog Op ContextActor ε α) : Prog Op World ε α :=
  zoom (World.actor party) (World.putActor party) p

def appendJournal (state : SagaState) (seq : ℕ) (evidence : Bool) : Coordinator Unit := do
  if ← succeeds (.appendJournal state) then
    modify (World.setJournal (Journal.append ⟨state, seq, evidence⟩))
  else fail .sagaJournal

def markResolved (terminal : SagaTerminalState) : Coordinator Unit := do
  if ← succeeds (.markResolved terminal) then
    modify (World.setJournal (Journal.resolve terminal))
  else fail .sagaJournal

def lookup (party : Party) (phase : Phase) : Coordinator Bool := do
  let w ← get
  if party = .caller && !w.callerStored then pure false
  else
    match ← ask (.lookup party phase) with
    | .ok => pure true
    | .down => do
      onActor party (modify respawn)
      pure true
    | _ => pure false

section Coordinator
variable (outlet : Outlet)

def deliver (party : Party) (m : SagaPhaseMessage) :
    Handler (Delivery (Except ContextError m.Answer)) :=
  Actor.send (.coalesce party) (serve outlet party) (.enqueue party m.phase)
    (.reply party m.phase) m (handle outlet party m)

def send (party : Party) (m : SagaPhaseMessage) : Coordinator (Delivery (Except ContextError m.Answer)) :=
  onActor party (deliver outlet party m)

/-- A sender that gives up gets the same error, whether the message arrived or not. -/
def answer {α : Type} : Delivery (Except ContextError α) → Coordinator α
  | .answered (.ok a) => pure a
  | .answered (.error e) => fail e
  | _ => fail .actorBusy

def call (party : Party) (m : SagaPhaseMessage) (missing : ContextError) : Coordinator m.Answer := do
  if ← lookup party m.phase then
    let delivery ← send outlet party m
    answer delivery
  else fail missing

def dispatchXctxPrepareA : Coordinator Unit := do
  let ticket ← call outlet .caller .prepareA (.contextNotRegistered 13052)
  modify (World.setCtx (fun ctx => { ctx with preparedA := some ticket }))

def dispatchXctxPrepareB : Coordinator Unit := do
  call outlet .target .prepareB (.contextNotRegistered 13053)
  modify (World.setCtx (fun ctx => { ctx with preparedB := true }))

/-- The executor is taken before it runs and its output is kept before it is sent. -/
def runExecutor : Coordinator Bytes := do
  let w ← get
  if w.ctx.executor then
    modify (fun w => { w.setCtx (fun ctx => { ctx with executor := false }) with
      executions := w.executions+1 })
    if ← succeeds .execute then
      modify (World.setCtx (fun ctx => { ctx with executorOutput := some outlet.output }))
      pure outlet.output
    else fail (.cryptoFailed 13057)
  else fail (.invalidState 13056)

def executorOutput : Coordinator Bytes := do
  let w ← get
  match w.ctx.executorOutput with
  | some stashed => pure stashed
  | none => runExecutor outlet

def commitBFirstExecute : Coordinator Bytes := do
  let output ← executorOutput outlet
  let settled ← call outlet .target (.commitBSettle output) (.contextNotRegistered 13060)
  modify (World.setCtx (fun ctx => { ctx with committedBOutletInvoked := true }))
  pure settled

def commitBExecuteOrReplay : Coordinator Bytes := do
  match ← call outlet .target .commitBReserve (.contextNotRegistered 13055) with
  | .alreadyCommitted output => do
    modify (World.setCtx (fun ctx => { ctx with committedBOutletInvoked := true }))
    pure output
  | .readyToExecute => commitBFirstExecute outlet

def commitAReackFromWitness : Coordinator Unit := do
  let delivery ← send outlet .caller .commitACheckWitness
  let recorded ← answer delivery
  if recorded then pure () else fail (.invalidState 13059)

def commitASettle : Coordinator Unit := do
  if ← lookup .caller .commitA then
    let w ← get
    match w.ctx.preparedA with
    | none => commitAReackFromWitness outlet
    | some ticket => do
      modify (World.setCtx (fun ctx => { ctx with preparedA := none }))
      match ← send outlet .caller (.commitA ticket) with
      | .undelivered => do
        modify (World.setCtx (fun ctx => { ctx with preparedA := some ticket }))
        fail .actorBusy
      | delivery => answer delivery
  else fail (.contextNotRegistered 13061)

def verifyCommitBReceipt : Coordinator Unit := do
  if ← succeeds .verifyReceipt then pure () else fail (.cryptoFailed 13064)

def dispatchXctxCommit : Coordinator Unit := do
  let output ← commitBExecuteOrReplay outlet
  verifyCommitBReceipt
  commitASettle outlet
  modify (World.setCtx (fun ctx => { ctx with committed := some output }))

/-- The attempts that are left. -/
def commitWithRetry : ℕ → Coordinator Unit
  | 0 => fail (.invalidState 0)
  | attempts+1 => do
    match ← observe (dispatchXctxCommit outlet) with
    | .ok () => pure ()
    | .error e => if attempts = 0 then fail e else commitWithRetry attempts

inductive CallerAbortReversal
  | settledOrAbsent | reversalOutstanding
  deriving DecidableEq

def redriveCallerLocalReversal : Coordinator CallerAbortReversal := do
  if ← lookup .caller .abort then
    match ← send outlet .caller (.abort none) with
    | .answered (.ok ()) => pure .settledOrAbsent
    | _ => pure .reversalOutstanding
  else pure .reversalOutstanding

/-- The outcome of the target's leg is not used. -/
def abortTargetLeg : Coordinator Unit := do
  if ← lookup .target .abort then
    let _ ← send outlet .target (.abort none)
    pure ()
  else pure ()

def abortCallerLeg : Coordinator CallerAbortReversal := do
  let w ← get
  match w.ctx.preparedA with
  | none => redriveCallerLocalReversal outlet
  | some ticket => do
    modify (World.setCtx (fun ctx => { ctx with preparedA := none }))
    if ← lookup .caller .abort then
      match ← send outlet .caller (.abort (some ticket)) with
      | .answered (.ok ()) => pure .settledOrAbsent
      | .undelivered => redriveCallerLocalReversal outlet
      | _ => pure .reversalOutstanding
    else pure .reversalOutstanding

def abortXctxParticipants : Coordinator CallerAbortReversal := do
  let reversal ← abortCallerLeg outlet
  let w ← get
  if w.ctx.preparedB then
    abortTargetLeg outlet
    pure reversal
  else pure reversal

def abortSaga (nextSeq : ℕ) : Coordinator Unit := do
  match ← abortXctxParticipants outlet with
  | .reversalOutstanding => pure ()
  | .settledOrAbsent => do
    appendJournal .aborting nextSeq false
    markResolved .aborted

def recordSupervisorRepair : Coordinator Unit := do
  modify (fun w => { w with repairRecords := w.repairRecords+1 })
  let w ← get
  let _ ← (observe (appendJournal .needsRepair (4+w.repairRecords) true) :
    Coordinator (Except ContextError Unit))
  pure ()

def emitDivergenceMarkerTo (party : Party) : Coordinator Unit := do
  if ← lookup party .emitDivergenceMarker then
    match ← send outlet party .emitDivergenceMarker with
    | .answered (.ok ()) => pure ()
    | _ => recordSupervisorRepair
  else recordSupervisorRepair

def emitDivergenceMarkers : Coordinator Unit := do
  let w ← get
  if w.ctx.committedBOutletInvoked && w.ctx.preparedB then
    emitDivergenceMarkerTo outlet .target
    emitDivergenceMarkerTo outlet .caller
  else pure ()

def resolveCommittedOrNeedsRepair : Coordinator Unit := do
  match ← observe (markResolved .committed) with
  | .ok () => pure ()
  | .error e => do
    modify (World.setCtx (fun ctx => { ctx with reachedNeedsRepair := true }))
    fail e

def commitPhase : Coordinator Unit := do
  match ← observe (commitWithRetry outlet 3) with
  | .ok () => resolveCommittedOrNeedsRepair
  | .error e => do
    modify (World.setCtx (fun ctx => { ctx with reachedNeedsRepair := true }))
    appendJournal .needsRepair 4 false
    emitDivergenceMarkers outlet
    fail e

def runSagaFsm : Coordinator Unit := do
  appendJournal .initiated 0 false
  appendJournal .preparingA 1 false
  match ← observe (dispatchXctxPrepareA outlet) with
  | .error e => do
    abortSaga outlet 2
    fail e
  | .ok () => do
    appendJournal .preparingB 2 true
    match ← observe (dispatchXctxPrepareB outlet) with
    | .error e => do
      abortSaga outlet 3
      fail e
    | .ok () => do
      appendJournal .committing 3 true
      commitPhase outlet

/-- What is left of the reservation is its escrow, which is held or voided outside. -/
def drainTerminalReservation : Coordinator Unit :=
  modify (World.setCtx (fun ctx => { ctx with preparedA := none }))

def runSaga : Coordinator (Option Bytes) := do
  let result ← observe (runSagaFsm outlet)
  drainTerminalReservation
  match result with
  | .ok () => do
    let w ← get
    pure w.ctx.committed
  | .error e => fail e

def callerContextDeletedFromPersistence : Coordinator Bool := do
  let loaded ← succeeds .loadContext
  let w ← get
  pure (loaded && !w.callerStored)

def redriveXctxPrepareInProgress : Coordinator CallerAbortReversal := do
  let reversal ← redriveCallerLocalReversal outlet
  abortTargetLeg outlet
  pure reversal

/-- Without evidence only the caller is known, from the participants of the entry. -/
def redrivePrepare (entry : LatestEntry) : Coordinator CallerAbortReversal :=
  if entry.evidence then redriveXctxPrepareInProgress outlet else redriveCallerLocalReversal outlet

def recoverPreparingBEntry (entry : LatestEntry) : Coordinator Unit := do
  match ← redrivePrepare outlet entry with
  | .settledOrAbsent => markResolved .aborted
  | .reversalOutstanding => do
    if ← callerContextDeletedFromPersistence then markResolved .aborted else pure ()

inductive CommitInProgressResolution
  | committed | needsRepair
  deriving DecidableEq

def redriveCommitAWitness : Coordinator CommitInProgressResolution := do
  match ← observe (call outlet .caller .commitACheckWitness .actorBusy) with
  | .ok true => pure .committed
  | _ => do
    recordSupervisorRepair
    pure .needsRepair

def redriveXctxCommitInProgress : Coordinator CommitInProgressResolution := do
  match ← observe (call outlet .target .commitBReserve .actorBusy) with
  | .ok (.alreadyCommitted _) => redriveCommitAWitness outlet
  | _ => pure .needsRepair

def redriveCommit (entry : LatestEntry) : Coordinator CommitInProgressResolution :=
  if entry.evidence then redriveXctxCommitInProgress outlet else pure .needsRepair

def recoverCommittingEntry (entry : LatestEntry) : Coordinator Unit := do
  match ← redriveCommit outlet entry with
  | .committed => markResolved .committed
  | .needsRepair => appendJournal .needsRepair (entry.seq+1) false

def recoverSagaEntry (entry : LatestEntry) : Coordinator Unit :=
  match entry.state with
  | .initiated => markResolved .aborted
  | .preparingA | .preparingB => recoverPreparingBEntry outlet entry
  | .committing => recoverCommittingEntry outlet entry
  | .aborting => appendJournal .needsRepair (entry.seq+1) false
  | .needsRepair | .committed | .aborted => pure ()

/-- The outcome of a recovery arm is not used. -/
def replayUnresolvedSagas : Coordinator Unit := do
  if ← succeeds .loadUnresolved then
    let w ← get
    match w.journal.unresolved with
    | none => pure ()
    | some entry => do
      let _ ← (observe (recoverSagaEntry outlet entry) : Coordinator (Except ContextError Unit))
      pure ()
  else fail .sagaJournal

def handleAll (party : Party) : Prog Op ContextActor ContextError (Option Unit) :=
  supervise respawn (do
    let a ← get
    drain (.coalesce party) (serve outlet party) a.inbox)

/-- Every message that is still in an inbox is handled. -/
def quiesce : Coordinator Unit := do
  let _ ← onActor .caller (handleAll outlet .caller)
  let _ ← onActor .target (handleAll outlet .target)
  pure ()

def firstLife : Coordinator Unit := do
  let _ ← (observe (runSaga outlet) : Coordinator (Except ContextError (Option Bytes)))
  quiesce outlet

end Coordinator

namespace World

def restart (kept : Bool) (w : World) : World where
  caller := w.caller.respawn
  target := w.target.respawn
  journal := w.journal
  ctx := ⟨none, false, false, none, none, false, false⟩
  executions := w.executions
  repairRecords := 0
  callerStored := w.callerStored && kept

/-- Neither context knows the saga. -/
def start (callerGeneration targetGeneration : ℕ) : World where
  caller := ⟨⟨0, 0, false, false, false, none⟩, ⟨0, 0, false, false, false, none⟩,
    callerGeneration, [], ⟨[], 0⟩⟩
  target := ⟨⟨0, 0, false, false, false, none⟩, ⟨0, 0, false, false, false, none⟩,
    targetGeneration, [], ⟨[], 0⟩⟩
  journal := ⟨none, none⟩
  ctx := ⟨none, false, true, none, none, false, false⟩
  executions := 0
  repairRecords := 0
  callerStored := true

end World

section Lives
variable (outlet : Outlet)

/-- The caller context may have been deleted in between. -/
def nextLife : Coordinator Unit := do
  let kept ← succeeds .keepContext
  modify (World.restart kept)
  let _ ← (observe (replayUnresolvedSagas outlet) : Coordinator (Except ContextError Unit))
  quiesce outlet

/-- The process runs the saga, and is started again any number of times. Each life ends
when its work is done or at the operation where it crashes. -/
def lives (env : Env Op) (w : World) : ℕ → ℕ × World
  | 0 => (firstLife outlet).left env (0, w)
  | restarts+1 => (nextLife outlet).left env (lives env w restarts)

end Lives

end ScpCore.CrossContext
