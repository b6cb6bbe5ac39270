import ScpCore.PagedWalk
import ScpCore.NodeKinds

/-! Publishes handled side by side. An admission is a program of storage operations and
lock operations; the tasks that run one take turns between any two operations. A load is
several operations: one query for each page. -/

namespace ScpCore.Records
open Kel

structure StoredBlob where
  routingId : RoutingId
  blobId : BlobId
  lifetime : Node.StoredLifetime
  storedAt : ℕ
  deriving DecidableEq

/-- The order of every query. -/
def StoredBlob.queryKey (blob : StoredBlob) : ℕ ×ₗ ℕ := toLex (blob.storedAt, blob.blobId.toNat)

/-- The order of admission. -/
def StoredBlob.admissionKey (blob : StoredBlob) : ℕ ×ₗ ℕ :=
  toLex (blob.lifetime.admission.getD 0, blob.blobId.toNat)

/-- The live blobs of the store. -/
abbrev Storage := List StoredBlob

namespace Storage
variable (storage : Storage)

def get (blobId : BlobId) : Option StoredBlob := storage.find? (fun blob => blob.blobId = blobId)

def delete (blobId : BlobId) : Storage := storage.filter (fun blob => blob.blobId ≠ blobId)

/-- A blob stored over one of its id takes its place. -/
def store (blob : StoredBlob) : Storage := storage.delete blob.blobId ++ [blob]

def retainedAt (routing : RoutingId) : List StoredBlob :=
  storage.filter (fun blob => blob.routingId = routing && blob.lifetime.isRetained)

end Storage

/-- The page a load walks a routing id in. -/
def loadPageLen : ℕ := 256

def inAdmissionOrder (held : List StoredBlob) : List StoredBlob := keyOrder (·.admissionKey) held

/-- What a load returns if nothing changes meanwhile. -/
def loadRetained (storage : Storage) (routing : RoutingId) : List StoredBlob :=
  inAdmissionOrder (keyOrder (·.queryKey) (storage.retainedAt routing))

inductive Refusal
  | frame (refusal : FrameRefusal)
  | keepsNone
  | noKeyEventLog
  | noServiceKey
  | notPinned
  | nodeList (error : NodeListUnverified)
  | compromised
  | inadmissible (index : ℕ)
  | alreadyHeld
  | notKept
  | heldElsewhere
  | quotaFull
  | counterExhausted
  | corrupt
  | noCounter
  | loading (refusal : FrameRefusal)
  deriving DecidableEq

/-- One above every counter `held` carries, or zero. -/
def nextAdmission (held : List StoredBlob) : Except Refusal ℕ :=
  let next := (held.filterMap (·.lifetime.admission)).max?.elim 0 (·+1)
  require (next ≤ Node.i64Max) .counterExhausted *> pure next

inductive LockKey
  | retained (routing : RoutingId)
  | blob (blobId : BlobId)
  deriving DecidableEq

/-- A program of a task: what it does next, and how it goes on with the answer. -/
inductive Action (α : Type) : Type
  | pure (a : α)
  | lock (key : LockKey) (next : Action α)
  | unlock (key : LockKey) (next : Action α)
  | load (routing : RoutingId) (next : List StoredBlob → Action α)
  | get (blobId : BlobId) (next : Option StoredBlob → Action α)
  | store (routing : RoutingId) (blobId : BlobId) (admission : ℕ) (next : StoredBlob → Action α)
  | delete (blobId : BlobId) (next : Action α)

namespace Action

def bind {α β : Type} : Action α → (α → Action β) → Action β
  | .pure a, f => f a
  | .lock key next, f => .lock key (next.bind f)
  | .unlock key next, f => .unlock key (next.bind f)
  | .load routing next, f => .load routing (fun held => (next held).bind f)
  | .get blobId next, f => .get blobId (fun blob => (next blob).bind f)
  | .store routing blobId admission next, f =>
    .store routing blobId admission (fun blob => (next blob).bind f)
  | .delete blobId next, f => .delete blobId (next.bind f)

instance : Monad Action where
  pure := .pure
  bind := bind

/-- What a program that only loads returns, each load answered from `view`. -/
def read {α : Type} (view : RoutingId → List StoredBlob) : Action α → Option α
  | .pure a => some a
  | .load routing next => (next (view routing)).read view
  | .lock _ _ | .unlock _ _ | .get _ _ | .store _ _ _ _ | .delete _ _ => none

end Action

/-- A program that may end in a refusal. -/
abbrev Fallible := ExceptT Refusal Action

def liftExcept {α : Type} (result : Except Refusal α) : Fallible α := ExceptT.mk (.pure result)

/-- `load_retained`. -/
def load (routing : RoutingId) : Fallible (List StoredBlob) :=
  ExceptT.mk (.load routing (fun held => .pure (.ok held)))

/-- A body run under a lock. The guard drops however the body ends. -/
def withLock {α : Type} (key : LockKey) (body : Fallible α) : Fallible α :=
  ExceptT.mk (.lock key (body.run.bind (fun result => .unlock key (.pure result))))

structure Selection where
  held : List StoredBlob
  kept : List BlobId
  deriving DecidableEq

/-- Deletes the records of `held` that are not kept, one after the other. -/
def dropFrom (kept : List BlobId) : List StoredBlob → Action (Except Refusal Unit)
  | [] => .pure (.ok ())
  | held :: rest => if held.blobId ∈ kept then dropFrom kept rest
    else .delete held.blobId (dropFrom kept rest)

def dropUnselected (selection : Selection) : Fallible Unit :=
  ExceptT.mk (dropFrom selection.kept selection.held)

section Admission
variable (N : Setting)

/-- Admits one stored frame. -/
def admitStored (held : Node.HeldLog) (blob : StoredBlob) : Except Refusal Node.HeldLog := do
  let frame ← match N.content blob.blobId with
    | .keyEvents frame => .ok frame
    | _ => .error .corrupt
  let admission ← okOr blob.lifetime.admission .noCounter
  let (_, held) ← (held.admitFrame N.crypto admission blob.blobId frame).mapError .loading
  pure held

/-- `held_log_from`: the replay of the stored frames. -/
def heldLogFrom (identifier : Identifier) (stored : List StoredBlob) : Except Refusal Node.HeldLog :=
  stored.foldlM (admitStored N) (.empty identifier)

def heldLog (identifier : Identifier) : Fallible Node.HeldLog := do
  let stored ← load (.did identifier)
  liftExcept (heldLogFrom N identifier stored)

/-- The frame admitted onto the held log, and the selection over it. -/
def selectArriving (held : Node.HeldLog) (stored : List StoredBlob) (blobId : BlobId)
    (frame : Node.KeyEventFrame) : Except Refusal Selection := do
  let admission ← nextAdmission stored
  let (outcome, held) ← (held.admitFrame N.crypto admission blobId frame).mapError .frame
  require (!Node.isRefused outcome) .keepsNone
  pure ⟨stored, Node.selectKeyEvents held.retained held.frames⟩

def admitKeyEvents (blobId : BlobId) (frame : Node.KeyEventFrame) : Fallible Selection := do
  let stored ← load (.did frame.identifier)
  let held ← liftExcept (heldLogFrom N frame.identifier stored)
  liftExcept (selectArriving N held stored blobId frame)

def decodeServiceRecord (blob : StoredBlob) : Except Refusal (BlobId × ServiceRecordFrame) :=
  match N.content blob.blobId with
  | .service frame => .ok (blob.blobId, frame)
  | _ => .error .corrupt

def decodeServiceRecords (stored : List StoredBlob) :
    Except Refusal (List (BlobId × ServiceRecordFrame)) :=
  stored.mapM (decodeServiceRecord N)

def admitServiceRecord (blobId : BlobId) (record : ServiceRecordFrame) : Fallible Selection := do
  let log ← heldLog N record.identifier
  let chains := log.retained
  liftExcept (require (!chains.isEmpty) .noKeyEventLog)
  let designated := designatedServiceKeys chains
  liftExcept (require (designated.any (record.verify N)) .noServiceKey)
  let held ← load (.svc record.identifier)
  let records ← liftExcept (decodeServiceRecords N held)
  pure ⟨held, selectServiceRecords N (records ++ [(blobId, record)]) designated⟩

def reselectServiceRecords (identifier : Identifier) : Fallible Selection := do
  let held ← load (.svc identifier)
  if held.isEmpty then pure ⟨held, []⟩
  else
    let log ← heldLog N identifier
    let records ← liftExcept (decodeServiceRecords N held)
    pure ⟨held, selectServiceRecords N records (designatedServiceKeys log.retained)⟩

def decodeNodeList (blob : StoredBlob) : Except Refusal NodeListRecord :=
  match N.content blob.blobId with
  | .nodeList record => .ok record
  | _ => .error .corrupt

/-- The chains read so far in one selection, by identifier. -/
abbrev ChainsRead := List (Identifier × List ValidatedChain)

def ChainsRead.get (chains : ChainsRead) (identifier : Identifier) : Option (List ValidatedChain) :=
  (chains.find? (fun c => c.1 = identifier)).map Prod.snd

/-- The identifier's chains, read unless they were read before. -/
def chainsOf (chains : ChainsRead) (identifier : Identifier) :
    Fallible (List ValidatedChain × ChainsRead) :=
  match chains.get identifier with
  | some held => pure (held, chains)
  | none => do
    let log ← heldLog N identifier
    pure (log.retained, (identifier, log.retained) :: chains)

/-- The loop of `held_node_lists`. -/
def heldNodeListsFrom : ChainsRead → List StoredBlob → Fallible (List HeldNodeList)
  | _, [] => pure []
  | chains, blob :: rest => do
    let record ← liftExcept (decodeNodeList N blob)
    let (governor, chains) ← chainsOf N chains record.governor
    let held ← heldNodeListsFrom chains rest
    pure (⟨blob.blobId, record, (verifyNodeList N governor record).toOption⟩ :: held)

def heldNodeLists (stored : List StoredBlob) : Fallible (List HeldNodeList) :=
  heldNodeListsFrom N [] stored

def admitNodeList (blobId : BlobId) (record : NodeListRecord) : Fallible Selection := do
  liftExcept (require (N.nodeLists.any (fun pin =>
    pin.contextId = record.contextId && pin.governor = record.governor)) .notPinned)
  let log ← heldLog N record.governor
  let signing ← liftExcept ((verifyNodeList N log.retained record).mapError .nodeList)
  liftExcept (require (!signing.compromised) .compromised)
  let held ← load (.nls record.contextId)
  let records ← heldNodeLists N held
  pure ⟨held, selectNodeLists (records ++ [⟨blobId, record, some signing⟩])⟩

def reselectNodeList (contextId : String) : Fallible Selection := do
  let held ← load (.nls contextId)
  let records ← heldNodeLists N held
  pure ⟨held, selectNodeLists records⟩

/-- The loop of `pinned_node_lists` over the pins. -/
def pinnedNodeListsFrom : List NodeListPin → Fallible (List NodeListRecord)
  | [] => pure []
  | pin :: rest => do
    let stored ← load (.nls pin.contextId)
    let records ← liftExcept (stored.mapM (decodeNodeList N))
    let later ← pinnedNodeListsFrom rest
    pure (records.filter (fun record => record.governor = pin.governor) ++ later)

def pinnedNodeLists : Fallible (List NodeListRecord) := pinnedNodeListsFrom N N.nodeLists

/-- What the binding of an entry adds, under its operator's chains. -/
def bindEntry (operator : List ValidatedChain) (entry : NodeListEntry) (bound : Bound) : Bound :=
  match operator.findSome? (admitEntry N entry) with
  | some nodeId => (nodeId, ⟨entry.binding.nodeKey, entry.binding.operator⟩) :: bound
  | none => bound

/-- The loop of `bound_witnesses` over the entries. -/
def boundWitnessesFrom : ChainsRead → Bound → List NodeListEntry → Fallible Bound
  | _, bound, [] => pure bound
  | chains, bound, entry :: rest => do
    let (operator, chains) ← chainsOf N chains entry.binding.operator
    boundWitnessesFrom chains (bindEntry N operator entry bound) rest

def boundWitnesses (records : List NodeListRecord) : Fallible Bound :=
  boundWitnessesFrom N [] [] (records.flatMap (·.entries))

def decodeConflict (blob : StoredBlob) : Except Refusal (BlobId × List ConflictStatement) :=
  match N.content blob.blobId with
  | .conflicts _ statements => .ok (blob.blobId, statements)
  | _ => .error .corrupt

def decodeConflicts (stored : List StoredBlob) :
    Except Refusal (List (BlobId × List ConflictStatement)) :=
  stored.mapM (decodeConflict N)

def admitConflicts (blobId : BlobId) (subject : Identifier) (statements : List ConflictStatement) :
    Fallible Selection := do
  let lists ← pinnedNodeLists N
  let bound ← boundWitnesses N lists
  let log ← heldLog N subject
  let chains := log.retained
  match statements.findIdx? (fun s => !statementAdmissible N s subject chains bound) with
  | some index => liftExcept (.error (.inadmissible index))
  | none =>
    let held ← load (.wcf subject)
    let frames ← liftExcept (decodeConflicts N held)
    pure ⟨held, selectConflicts N (frames ++ [(blobId, statements)]) subject chains bound⟩

def reselectConflicts (subject : Identifier) : Fallible Selection := do
  let held ← load (.wcf subject)
  if held.isEmpty then pure ⟨held, []⟩
  else
    let lists ← pinnedNodeLists N
    let bound ← boundWitnesses N lists
    let log ← heldLog N subject
    let frames ← liftExcept (decodeConflicts N held)
    pure ⟨held, selectConflicts N frames subject log.retained bound⟩

/-- The read and the write of one blob id, under its lock. -/
def storeBlob (blobId : BlobId) (admission : ℕ) : Fallible StoredBlob :=
  withLock (.blob blobId) (ExceptT.mk (.get blobId (fun elsewhere =>
    let stored := .store (N.content blobId).routingId blobId admission
      (fun blob => .pure (.ok blob))
    match elsewhere with
    | none => stored
    | some blob => if blob.lifetime.isRetained then .pure (.error .heldElsewhere)
      else .delete blobId stored)))

/-- `commit`: the arriving record is stored before any held record is deleted. -/
def commit (blobId : BlobId) (selection : Selection) : Fallible StoredBlob := do
  liftExcept (require (!selection.held.any (fun held => held.blobId = blobId)) .alreadyHeld)
  liftExcept (require (blobId ∈ selection.kept) .notKept)
  liftExcept (require (N.quota.holds selection.kept.length) .quotaFull)
  let admission ← liftExcept (nextAdmission selection.held)
  let stored ← storeBlob N blobId admission
  dropUnselected selection
  pure stored

/-- A selection recomputed under its routing id's lock. -/
def reselect (routing : RoutingId) (selection : Fallible Selection) : Fallible Unit :=
  withLock (.retained routing) (do
    let selection ← selection
    dropUnselected selection)

/-- The node lists of the pinned contexts that `identifier` governs, in the set's order. -/
def governed (identifier : Identifier) : List String :=
  ((keyOrder N.contextOrder (N.nodeLists.filter (fun pin => pin.governor = identifier))).map
    (·.contextId)).dedup

/-- The last loop of `reselect_dependents`. -/
def reselectNodeLists : List String → Fallible Unit
  | [] => pure ()
  | contextId :: rest => do
    reselect (.nls contextId) (reselectNodeList N contextId)
    reselectNodeLists rest

def reselectDependents (identifier : Identifier) : Fallible Unit := do
  reselect (.svc identifier) (reselectServiceRecords N identifier)
  reselect (.wcf identifier) (reselectConflicts N identifier)
  reselectNodeLists N (governed N identifier)

/-- How a publish ends. Both failures answer the publisher with the refusal; the second
comes after the record was stored, from the reselection of the records that depend on it. -/
inductive Outcome
  | stored (blob : StoredBlob)
  | refused (refusal : Refusal)
  | abandoned (refusal : Refusal)

/-- The admission of the record's kind. -/
def admission (blobId : BlobId) : Fallible Selection :=
  match N.content blobId with
  | .keyEvents frame => admitKeyEvents N blobId frame
  | .service record => admitServiceRecord N blobId record
  | .nodeList record => admitNodeList N blobId record
  | .conflicts subject statements => admitConflicts N blobId subject statements

/-- The record admitted and committed. -/
def admitCommit (blobId : BlobId) : Fallible StoredBlob := do
  let selection ← admission N blobId
  commit N blobId selection

/-- What follows the commit: a key-event record has dependents. -/
def settleDependents (blobId : BlobId) (stored : StoredBlob) : Action Outcome :=
  match N.content blobId with
  | .keyEvents frame => (reselectDependents N frame.identifier).run.bind (fun
    | .ok _ => .pure (.stored stored)
    | .error refusal => .pure (.abandoned refusal))
  | .service _ | .nodeList _ | .conflicts _ _ => .pure (.stored stored)

/-- `admit`. -/
def admit_ (blobId : BlobId) : Action Outcome :=
  let key := .retained (N.content blobId).routingId
  .lock key (((admitCommit N blobId).run.bind (fun
    | .error refusal => .pure (.refused refusal)
    | .ok stored => settleDependents N blobId stored)).bind (fun outcome =>
      .unlock key (.pure outcome)))

end Admission

/-- A task: what it still does, and how far its current load has walked. -/
structure Task where
  action : Action Outcome
  walk : PagedWalk StoredBlob (ℕ ×ₗ ℕ)

abbrev TaskId := ℕ

/-- The store, the locks held, and the tasks in flight. -/
structure State where
  storage : Storage
  locks : List (LockKey × TaskId)
  tasks : TaskId → Option Task

inductive Event
  | publish (task : TaskId) (blobId : BlobId)
  | run (task : TaskId) (now : ℕ)

namespace State
variable (s : State)

/-- The task goes on with `action`. -/
def continue_ (task : TaskId) (action : Action Outcome) : State :=
  { s with tasks := Function.update s.tasks task (some ⟨action, .start⟩) }

def holder (key : LockKey) : Option TaskId :=
  (s.locks.find? (fun held => held.1 = key)).map Prod.snd

def take (key : LockKey) (task : TaskId) : State := { s with locks := (key, task) :: s.locks }

def release (key : LockKey) : State :=
  { s with locks := s.locks.filter (fun held => held.1 ≠ key) }

/-- One query of a load, and the program once the load is over. -/
def query (task : TaskId) (routing : RoutingId) (walk : PagedWalk StoredBlob (ℕ ×ₗ ℕ))
    (next : List StoredBlob → Action Outcome) : State :=
  let read := walk.advance (·.queryKey) loadPageLen (s.storage.retainedAt routing)
  if read.2 then s.continue_ task (next (inAdmissionOrder read.1.held))
  else { s with tasks := Function.update s.tasks task (some ⟨.load routing next, read.1⟩) }

/-- One operation of a task, at the store's clock `now`. -/
def runTask (task : TaskId) (now : ℕ) (t : Task) : Option State :=
  match t.action with
  | .pure _ => some { s with tasks := Function.update s.tasks task none }
  | .lock key next => if s.holder key = none then some ((s.take key task).continue_ task next)
    else none
  | .unlock key next => some ((s.release key).continue_ task next)
  | .load routing next => some (s.query task routing t.walk next)
  | .get blobId next => some (s.continue_ task (next (s.storage.get blobId)))
  | .store routing blobId admission next =>
    let blob := ⟨routing, blobId, .retained admission, now⟩
    some ({ s with storage := s.storage.store blob }.continue_ task (next blob))
  | .delete blobId next => some ({ s with storage := s.storage.delete blobId }.continue_ task next)

def step (N : Setting) : Event → Option State
  | .publish task blobId => if (s.tasks task).isNone then some (s.continue_ task (admit_ N blobId))
    else none
  | .run task now => (s.tasks task).bind (s.runTask task now)

/-- No write is in flight. -/
def Quiet : Prop := ∀ task, s.tasks task = none

end State

end ScpCore.Records
