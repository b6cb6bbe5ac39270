import ScpCore.StreamManifest

/-! The dispatch pump of a stream and its audit event. The pump looks at a chunk under the lock
twice, at the gate and again after it is signed, and a cancel may take the lock in between; what
it bills, what it emits and what its event records agree in every run. -/

namespace ScpCore.Outlets

open Merkle EventLog

def CancelState.cancelAckSeq : CancelState → Option ℕ
  | .active => none
  | .pending cancelAckSeq => some cancelAckSeq
  | .closed cancelAckSeq => cancelAckSeq

inductive CancelError
  | signatureInvalid
  | cursorAdvanced (signed current : ℕ)
  deriving DecidableEq

/-- The last lock of a cancel: it is recorded at the live cursor or not at all. `valid` is the
check of its signature under the invoker's key. -/
def SharedSessionState.applyOutletCancel (session : SharedSessionState) (nextSeq : ℕ)
    (valid : Bool) : Except CancelError SharedSessionState := do
  require (nextSeq = session.nextEmissionSeq) (.cursorAdvanced nextSeq session.nextEmissionSeq)
  require valid .signatureInvalid
  pure { session with cancelAck := session.cancelAck.recordCancel nextSeq }

inductive AuditAnomaly
  | chunksBilledSelfMismatch (pumpRecorded manifestReference : ℕ)
  deriving DecidableEq

/-- What the event of a stream records of its manifest. -/
structure OutletInvokedEvent where
  streamChunkCount : ℕ
  chunksBilled : ℕ
  streamManifestHash : Hash
  cancelAckSeq : Option ℕ
  auditAnomaly : Option AuditAnomaly
  deriving DecidableEq

inductive ChunksBilledError
  | chunksBilledMismatch (recorded reference : ℕ)
  deriving DecidableEq

section Verify
variable {δ : Type} (C : ChunkCrypto δ)

def verifyChunksBilled (chunks : List (StreamChunk δ)) (recorded : ℕ) (cancelAckSeq : Option ℕ) :
    Except ChunksBilledError Unit :=
  let reference := computeChunksBilledRef chunks (cancelAckSeq.getD u64Max)
  require (recorded = reference) (.chunksBilledMismatch recorded reference)

def verifyOutletInvokedEventManifest (event : OutletInvokedEvent) (chunks : List (StreamChunk δ)) :
    Except ChunksBilledError Unit := do
  verifyChunksBilled chunks event.chunksBilled event.cancelAckSeq
  let reference := computeChunksBilledRef chunks (event.cancelAckSeq.getD u64Max)
  let mismatch := ChunksBilledError.chunksBilledMismatch event.chunksBilled reference
  let root ← (computeChunkManifestRoot C chunks).mapError (fun _ => mismatch)
  let leafCount := min chunks.length u64Max
  require (event.streamManifestHash = root && event.streamChunkCount = leafCount) mismatch

variable {C}

theorem verifyOutletInvokedEventManifest_ok {event : OutletInvokedEvent}
    {chunks : List (StreamChunk δ)} :
    verifyOutletInvokedEventManifest C event chunks = .ok () ↔
      event.chunksBilled = computeChunksBilledRef chunks (event.cancelAckSeq.getD u64Max) ∧
      computeChunkManifestRoot C chunks = .ok event.streamManifestHash ∧
      event.streamChunkCount = min chunks.length u64Max := by
  simp only [verifyOutletInvokedEventManifest, verifyChunksBilled, bind_ok_iff, exists_unit_iff,
    mapError_ok_iff, require_ok_iff, Bool.and_eq_true, decide_eq_true_eq]
  constructor
  · intro h
    obtain ⟨hbilled, root, hroot, rfl, hcount⟩ := h
    exact ⟨hbilled, hroot, hcount⟩
  · intro h
    exact ⟨h.1, _, h.2.1, rfl, h.2.2⟩

end Verify

/-- Where the pump stands between two looks at the shared state. A chunk of the framework's own
goes from its signature straight to the manifest. -/
inductive PumpStage (δ : Type)
  | looping
  | signing (sequence : ℕ) (payload : ChunkPayload) (body : δ) (framework : Bool)
  | signed (chunk : StreamChunk δ)
  | ingesting (chunk : StreamChunk δ)
  | broken
  | settled

/-- The pump with the state it shares and the chunks it has put into the manifest and sent. -/
structure StreamPump (δ : Type) where
  shared : SharedSessionState
  requestId : Bytes
  nextSeq : ℕ
  parked : Option (ChunkPayload × δ)
  stage : PumpStage δ
  frontier : MerkleFrontier
  emitted : List (StreamChunk δ)
  event : Option OutletInvokedEvent

/-- What can happen next. The timers and the requests that end a stream are one event, which may
come whenever the pump waits; `sig` is the signer's answer and `sent` whether the receiver is
still there. -/
inductive PumpEvent (δ : Type)
  | grant (credit : OutletStreamCredit)
  | cancel (nextSeq : ℕ) (valid : Bool)
  | receive (payload : ChunkPayload) (body : δ) (now : Instant)
  | unpark (now : Instant)
  | frameworkTerminal (body : δ)
  | sign (sig : Option Bytes)
  | account
  | ingest (sent : Bool)
  | upstreamClosed
  | settle

namespace StreamPump
variable {δ : Type}

def build (params : OpenStreamParams) (requestId : Bytes) : StreamPump δ :=
  ⟨.build params, requestId, 0, none, .looping, .new, [], none⟩

/-- The first lock: the gate sees the chunk under the pump's own number. -/
def gate (pump : StreamPump δ) (payload : ChunkPayload) (body : δ) (now : Instant) :
    StreamPump δ :=
  let result := applyStreamChunkGate pump.shared.credit pump.shared.cancelAck
    pump.shared.creditStallArmedAt now ⟨pump.nextSeq, payload⟩
  let shared := { pump.shared with credit := result.2.1, creditStallArmedAt := result.2.2 }
  match result.1 with
  | .forward =>
    { pump with
      shared := shared
      parked := none
      stage := .signing pump.nextSeq payload body false }
  | .stall => { pump with shared := shared, parked := some (payload, body) }
  | .dropAboveCancelAck | .creditExhausted => { pump with shared := shared, parked := none }

/-- The signature is made off the lock; without one the pump breaks. -/
def sign (C : ChunkCrypto δ) (pump : StreamPump δ) (sequence : ℕ) (payload : ChunkPayload)
    (body : δ) (framework : Bool) (sig : Option Bytes) : StreamPump δ :=
  match C.jcsPayload payload body, sig with
  | .ok _, some sig =>
    let chunk : StreamChunk δ := ⟨⟨sequence, payload⟩, pump.requestId, body, sig⟩
    { pump with stage := if framework then .ingesting chunk else .signed chunk }
  | _, _ => { pump with stage := .broken }

/-- The second lock: the live ceiling is read again, and the bill and the cursor move together. -/
def account (pump : StreamPump δ) (chunk : StreamChunk δ) : StreamPump δ :=
  let shared := pump.shared
  if !chunk.payload.isTerminal && shared.cancelAck.billingCeiling ≤ chunk.sequence then
    { pump with stage := .looping }
  else
    let nextSeq := saturatingAdd pump.nextSeq 1
    { pump with
      shared := { shared with
        escrow := accrueDataChunkIfBillable shared.escrow shared.cancelAck chunk.toOutletStreamChunk
        credit := if isBillableChunk chunk.toOutletStreamChunk shared.cancelAck.billingCeiling then
          shared.credit.recordBilledEmission else shared.credit
        nextEmissionSeq := nextSeq }
      nextSeq := nextSeq
      stage := .ingesting chunk }

/-- `ingest_stream_chunk` and the send. A chunk without a leaf hash is only logged. -/
def ingest (C : ChunkCrypto δ) (pump : StreamPump δ) (chunk : StreamChunk δ) (sent : Bool) :
    StreamPump δ :=
  { pump with
    frontier := match pump.frontier.push C chunk with
      | .ok frontier => frontier
      | .error _ => pump.frontier
    emitted := pump.emitted ++ [chunk]
    stage := if chunk.payload.isTerminal || !sent then .broken else .looping }

/-- The event from the summary of a close: the manifest's count is recorded, and a ledger that
differs from it is noted. -/
def buildStreamingOutletEvent (C : ChunkCrypto δ) (frontier : MerkleFrontier) (pumpRecorded : ℕ)
    (cancelAckSeq : Option ℕ) : OutletInvokedEvent :=
  let manifestReference := min frontier.billedCount u32Max
  { streamChunkCount := min frontier.leafCount u32Max
    chunksBilled := manifestReference
    streamManifestHash := frontier.root C
    cancelAckSeq := cancelAckSeq
    auditAnomaly := if pumpRecorded = manifestReference then none
      else some (.chunksBilledSelfMismatch pumpRecorded manifestReference) }

def auditEvent (C : ChunkCrypto δ) (pump : StreamPump δ) : OutletInvokedEvent :=
  buildStreamingOutletEvent C pump.frontier pump.shared.escrow.settleAtClose.2.2
    pump.shared.cancelAck.cancelAckSeq

def settle (C : ChunkCrypto δ) (pump : StreamPump δ) : StreamPump δ :=
  { pump with
    shared := { pump.shared with
      cancelAck := pump.shared.cancelAck.recordTerminal
      pumpExited := true }
    event := some (pump.auditEvent C)
    stage := .settled }

/-- The pump's own moves are open to it only where it stands; a cancel and a grant always are. -/
def step (C : ChunkCrypto δ) (verify : OutletStreamCredit → StreamIdentity → Bool)
    (pump : StreamPump δ) : PumpEvent δ → StreamPump δ
  | .grant credit => { pump with shared := pump.shared.step verify (.grant credit) }
  | .cancel nextSeq valid =>
    match pump.shared.applyOutletCancel nextSeq valid with
    | .ok shared => { pump with shared := shared }
    | .error _ => pump
  | .receive payload body now =>
    match pump.stage, pump.parked with
    | .looping, none => pump.gate payload body now
    | _, _ => pump
  | .unpark now =>
    match pump.stage, pump.parked with
    | .looping, some (payload, body) => pump.gate payload body now
    | _, _ => pump
  | .frameworkTerminal body =>
    match pump.stage with
    | .looping => { pump with stage := .signing pump.nextSeq (.error true) body true }
    | _ => pump
  | .sign sig =>
    match pump.stage with
    | .signing sequence payload body framework =>
      pump.sign C sequence payload body framework sig
    | _ => pump
  | .account =>
    match pump.stage with
    | .signed chunk => pump.account chunk
    | _ => pump
  | .ingest sent =>
    match pump.stage with
    | .ingesting chunk => pump.ingest C chunk sent
    | _ => pump
  | .upstreamClosed =>
    match pump.stage with
    | .looping => { pump with stage := .broken }
    | _ => pump
  | .settle =>
    match pump.stage with
    | .broken => pump.settle C
    | _ => pump

def run (C : ChunkCrypto δ) (verify : OutletStreamCredit → StreamIdentity → Bool)
    (pump : StreamPump δ) (events : List (PumpEvent δ)) : StreamPump δ :=
  events.foldl (step C verify) pump

/-- The chunks billed so far: those emitted, and the one on its way into the manifest. -/
def accounted (pump : StreamPump δ) : List (StreamChunk δ) :=
  match pump.stage with
  | .ingesting chunk => pump.emitted ++ [chunk]
  | _ => pump.emitted

def dataCount (chunks : List (StreamChunk δ)) : ℕ :=
  (chunks.filter (fun chunk => chunk.payload = .data)).length

/-- The payload has a canonical form, as that of every signed chunk has. -/
def Canonical (C : ChunkCrypto δ) (chunk : StreamChunk δ) : Prop :=
  ∃ bytes, C.jcsPayload chunk.payload chunk.body = .ok bytes

/-- A chunk has a canonical form where its payload has one and its number is within I-JSON: its
other fields are text. -/
def ChunksCanonical (C : ChunkCrypto δ) : Prop :=
  ∀ chunk : StreamChunk δ, chunk.sequence ≤ 2^53 → Canonical C chunk →
    ∃ bytes, C.jcs chunk = .ok bytes

/-- The number of the chunk in hand is that of the next one to be emitted. -/
def InPlace (C : ChunkCrypto δ) (emitted nextSeq : ℕ) : PumpStage δ → Prop
  | .looping => emitted = nextSeq
  | .signing sequence payload _ framework => emitted = nextSeq ∧ sequence = nextSeq ∧
      (framework = true → payload.isTerminal = true)
  | .signed chunk => emitted = nextSeq ∧ chunk.sequence = nextSeq ∧ Canonical C chunk
  | .ingesting chunk => chunk.sequence = emitted ∧ Canonical C chunk ∧
      (chunk.payload.isTerminal = false → emitted+1 = nextSeq)
  | .broken | .settled => True

/-- Every chunk that is not terminal is below `bound`. -/
def Below (chunks : List (StreamChunk δ)) (bound : ℕ) : Prop :=
  ∀ chunk ∈ chunks, chunk.payload.isTerminal = false → chunk.sequence < bound

structure Inv (C : ChunkCrypto δ) (pump : StreamPump δ) : Prop where
  cursor : pump.shared.nextEmissionSeq = pump.nextSeq
  sequences : pump.emitted.map (·.sequence) = List.range pump.emitted.length
  place : InPlace C pump.emitted.length pump.nextSeq pump.stage
  below : Below pump.accounted pump.nextSeq
  pinned : ∀ c, pump.shared.cancelAck.cancelAckSeq = some c → Below pump.accounted c
  escrow : pump.shared.escrow.billedCount = min (dataCount pump.accounted) u32Max
  credit : pump.shared.credit.billedEmitted = min (dataCount pump.accounted) u32Max
  frontier : ∃ leaves, FrontierOf C pump.emitted leaves pump.frontier
  ceiling : pump.frontier.ceiling = u64Max
  event : ∀ event, pump.event = some event → event = pump.auditEvent C ∧
    pump.stage = .settled ∧ ∃ c, pump.shared.cancelAck = .closed c

variable {C : ChunkCrypto δ} {verify : OutletStreamCredit → StreamIdentity → Bool}
  {pump : StreamPump δ}

theorem inv_build (params : OpenStreamParams) (requestId : Bytes) :
    Inv C (build params requestId) := by
  have hescrow : (SharedSessionState.build params).escrow.billedCount = 0 := by
    simp only [SharedSessionState.build, reserveEscrow]
    split_ifs <;> rfl
  refine ⟨rfl, rfl, rfl, ?_, ?_, hescrow, rfl, ⟨[], .withCeiling _⟩, rfl, ?_⟩
  · simp [Below, accounted, build]
  · simp [Below, accounted, build]
  · simp [build]

-- The environment's moves

/-- A move on the shared state that leaves the cursor and both counts. -/
theorem Inv.shared (h : Inv C pump) {shared : SharedSessionState}
    (hcursor : shared.nextEmissionSeq = pump.shared.nextEmissionSeq)
    (hescrow : shared.escrow.billedCount = pump.shared.escrow.billedCount)
    (hcredit : shared.credit.billedEmitted = pump.shared.credit.billedEmitted)
    (hpinned : ∀ c, shared.cancelAck.cancelAckSeq = some c → Below pump.accounted c)
    (hclosed : ∀ c, pump.shared.cancelAck = .closed c → shared.cancelAck = .closed c) :
    Inv C { pump with shared := shared } := by
  refine ⟨hcursor.trans h.cursor, h.sequences, h.place, h.below, hpinned, hescrow.trans h.escrow,
    hcredit.trans h.credit, h.frontier, h.ceiling, ?_⟩
  intro event hevent
  obtain ⟨hbuilt, hstage, c, hc⟩ := h.event event hevent
  refine ⟨?_, hstage, c, hclosed c hc⟩
  simp only [hbuilt, auditEvent, StreamEscrow.settleAtClose, hescrow, hclosed c hc, hc]

theorem grantWithIdentity_billedEmitted {credit credit' : CreditTracker}
    {grant : OutletStreamCredit} {expected : StreamIdentity}
    (h : credit.grantWithIdentity verify grant expected = .ok credit') :
    credit'.billedEmitted = credit.billedEmitted := by
  simp only [CreditTracker.grantWithIdentity, bind_ok_iff, exists_unit_iff] at h
  obtain ⟨_, h⟩ := h
  split_ifs at h
  rw [pure_ok_iff] at h
  rw [← h]
  rfl

theorem Inv.grant (h : Inv C pump) (credit : OutletStreamCredit) :
    Inv C { pump with shared := pump.shared.step verify (.grant credit) } := by
  simp only [SharedSessionState.step]
  cases hok : pump.shared.applyCreditGrant verify credit
      (pump.shared.escrow.costPerChunk*credit.grant) with
  | error e => exact h
  | ok shared =>
    simp only [SharedSessionState.applyCreditGrant, bind_ok_iff, exists_unit_iff,
      pure_ok_iff] at hok
    obtain ⟨_, credit', hcredit, rfl⟩ := hok
    have hbilled := grantWithIdentity_billedEmitted hcredit
    exact h.shared rfl rfl hbilled h.pinned (fun _ hc => hc)

/-- A cancel is pinned at the cursor, above every chunk that is not terminal. -/
theorem Inv.cancel (h : Inv C pump) {nextSeq : ℕ} {valid : Bool} {shared : SharedSessionState}
    (hok : pump.shared.applyOutletCancel nextSeq valid = .ok shared) :
    Inv C { pump with shared := shared } := by
  simp only [SharedSessionState.applyOutletCancel, bind_ok_iff, exists_unit_iff, require_ok_iff,
    decide_eq_true_eq, pure_ok_iff] at hok
  obtain ⟨hlive, _, rfl⟩ := hok
  refine h.shared rfl rfl rfl ?_ ?_
  · intro c hc
    by_cases hactive : pump.shared.cancelAck = .active
    · rw [CancelState.recordCancel, if_pos hactive, CancelState.cancelAckSeq,
        Option.some.injEq] at hc
      rw [← hc, hlive, h.cursor]
      exact h.below
    · rw [CancelState.recordCancel, if_neg hactive] at hc
      exact h.pinned c hc
  · intro c hc
    rw [CancelState.recordCancel, if_neg (by rw [hc]; simp), hc]

-- The pump's moves

/-- A move to a stage without a chunk to ingest, with nothing billed. -/
theorem Inv.move (h : Inv C pump) {shared : SharedSessionState} {parked : Option (ChunkPayload × δ)}
    {stage : PumpStage δ} (hopen : pump.stage ≠ .settled)
    (hidle : ∀ chunk, pump.stage ≠ .ingesting chunk) (hidle' : ∀ chunk, stage ≠ .ingesting chunk)
    (hcursor : shared.nextEmissionSeq = pump.shared.nextEmissionSeq)
    (hescrow : shared.escrow = pump.shared.escrow)
    (hcancel : shared.cancelAck = pump.shared.cancelAck)
    (hcredit : shared.credit.billedEmitted = pump.shared.credit.billedEmitted)
    (hplace : InPlace C pump.emitted.length pump.nextSeq stage) :
    Inv C { pump with
      shared := shared
      parked := parked
      stage := stage } := by
  have hsame : ({ pump with
      shared := shared
      parked := parked
      stage := stage } : StreamPump δ).accounted = pump.accounted := by
    have hemitted : ∀ pump : StreamPump δ, (∀ chunk, pump.stage ≠ .ingesting chunk) →
        pump.accounted = pump.emitted := by
      intro pump hne
      unfold accounted
      split
      · rename_i chunk hstage
        exact absurd hstage (hne chunk)
      · rfl
    rw [hemitted _ hidle, hemitted _ hidle']
  refine ⟨hcursor.trans h.cursor, h.sequences, hplace, ?_, ?_, ?_, ?_, h.frontier, h.ceiling, ?_⟩
  · rw [hsame]
    exact h.below
  · intro c hc
    rw [hsame]
    exact h.pinned c (hcancel ▸ hc)
  · rw [hsame, ← h.escrow, ← hescrow]
  · rw [hsame, ← h.credit, ← hcredit]
  · intro event hevent
    exact absurd (h.event event hevent).2.1 hopen

/-- The gate takes credit and bills nothing. -/
theorem applyStreamChunkGate_billedEmitted (credit : CreditTracker) (cancelAck : CancelState)
    (armed : Option Instant) (now : Instant) (chunk : OutletStreamChunk) :
    (applyStreamChunkGate credit cancelAck armed now chunk).2.1.billedEmitted =
      credit.billedEmitted := by
  simp only [applyStreamChunkGate, CreditTracker.tryConsume]
  split_ifs <;> rfl

theorem Inv.gate (h : Inv C pump) (hstage : pump.stage = .looping) (payload : ChunkPayload)
    (body : δ) (now : Instant) : Inv C (pump.gate payload body now) := by
  have hbilled := applyStreamChunkGate_billedEmitted pump.shared.credit pump.shared.cancelAck
    pump.shared.creditStallArmedAt now ⟨pump.nextSeq, payload⟩
  have hplace := h.place
  rw [hstage] at hplace
  have hopen : pump.stage ≠ .settled := by simp [hstage]
  have hidle : ∀ chunk, pump.stage ≠ .ingesting chunk := by simp [hstage]
  unfold StreamPump.gate
  dsimp only
  split
  · exact h.move hopen hidle (by simp) rfl rfl rfl hbilled ⟨hplace, rfl, by simp⟩
  all_goals
    rw [← hstage] at hplace
    exact h.move hopen hidle hidle rfl rfl rfl hbilled h.place

theorem Inv.frameworkTerminal (h : Inv C pump) (hstage : pump.stage = .looping) (body : δ) :
    Inv C { pump with stage := .signing pump.nextSeq (.error true) body true } := by
  have hplace := h.place
  rw [hstage] at hplace
  exact h.move (by simp [hstage]) (by simp [hstage]) (by simp) rfl rfl rfl rfl
    ⟨hplace, rfl, fun _ => rfl⟩

theorem Below.append {chunks : List (StreamChunk δ)} {bound : ℕ} (h : Below chunks bound)
    {chunk : StreamChunk δ} (hchunk : chunk.payload.isTerminal = false → chunk.sequence < bound) :
    Below (chunks ++ [chunk]) bound := by
  intro other hother
  rcases List.mem_append.mp hother with hold | hnew
  · exact h other hold
  · rw [List.mem_singleton.mp hnew]
    exact hchunk

theorem dataCount_append (chunks : List (StreamChunk δ)) (chunk : StreamChunk δ) :
    dataCount (chunks ++ [chunk]) = dataCount chunks+if chunk.payload = .data then 1 else 0 := by
  unfold dataCount
  rw [List.filter_append, List.length_append]
  by_cases hdata : chunk.payload = .data
  · simp [hdata]
  · simp [hdata]

theorem accounted_ingesting {chunk : StreamChunk δ} (hstage : pump.stage = .ingesting chunk) :
    pump.accounted = pump.emitted ++ [chunk] := by
  rw [accounted, hstage]

/-- Signed off the lock, a chunk of the framework's own is terminal and not billed. -/
theorem Inv.sign (h : Inv C pump) {sequence : ℕ} {payload : ChunkPayload} {body : δ}
    {framework : Bool} (hstage : pump.stage = .signing sequence payload body framework)
    (sig : Option Bytes) : Inv C (pump.sign C sequence payload body framework sig) := by
  have hplace := h.place
  rw [hstage] at hplace
  obtain ⟨hlen, rfl, hframework⟩ := hplace
  have hopen : pump.stage ≠ .settled := by simp [hstage]
  have hidle : ∀ chunk, pump.stage ≠ .ingesting chunk := by simp [hstage]
  have haccounted : pump.accounted = pump.emitted := by
    rw [accounted, hstage]
  unfold StreamPump.sign
  split
  · rename_i bytes sig hcanonical
    cases framework with
    | false => exact h.move hopen hidle (by simp) rfl rfl rfl rfl ⟨hlen, rfl, bytes, hcanonical⟩
    -- A terminal of the framework is accounted as it is signed, and is no data.
    | true =>
      have hterminal := hframework rfl
      have hnodata : payload ≠ .data := by
        intro hdata
        rw [hdata] at hterminal
        cases hterminal
      have hbelow := h.below
      have hpinned := h.pinned
      have hescrow := h.escrow
      have hcredit := h.credit
      rw [haccounted] at hbelow hpinned hescrow hcredit
      refine ⟨h.cursor, h.sequences, ⟨hlen.symm, ⟨bytes, hcanonical⟩, ?_⟩, ?_, ?_, ?_, ?_,
        h.frontier, h.ceiling, ?_⟩
      · intro hfalse
        rw [hterminal] at hfalse
        cases hfalse
      · apply hbelow.append
        intro hfalse
        rw [hterminal] at hfalse
        cases hfalse
      · intro c hc
        apply (hpinned c hc).append
        intro hfalse
        rw [hterminal] at hfalse
        cases hfalse
      · simp only [accounted, dataCount_append, if_neg hnodata, if_true]
        exact hescrow
      · simp only [accounted, dataCount_append, if_neg hnodata, if_true]
        exact hcredit
      · intro event hevent
        exact absurd (h.event event hevent).2.1 hopen
  · exact h.move hopen hidle (by simp) rfl rfl rfl rfl trivial

theorem billingCeiling_eq {cancelAck : CancelState} {c : ℕ} (h : cancelAck.cancelAckSeq = some c) :
    cancelAck.billingCeiling = c := by
  cases cancelAck with
  | active => cases h
  | pending cancelAckSeq => exact Option.some.inj h
  | closed cancelAckSeq =>
    rw [CancelState.cancelAckSeq] at h
    rw [CancelState.billingCeiling, h, Option.getD_some]

theorem satAdd32_min (n : ℕ) : satAdd32 (min n u32Max) 1 = min (n+1) u32Max := by
  unfold satAdd32
  generalize u32Max = limit
  omega

/-- The ceiling read again decides the drop, the bill and the cursor at once. -/
theorem Inv.account (h : Inv C pump) {chunk : StreamChunk δ} (hstage : pump.stage = .signed chunk)
    (hlen : pump.emitted.length < 2^32) : Inv C (pump.account chunk) := by
  have hplace := h.place
  rw [hstage] at hplace
  obtain ⟨hcount, hseq, hcanonical⟩ := hplace
  have hopen : pump.stage ≠ .settled := by simp [hstage]
  have haccounted : pump.accounted = pump.emitted := by
    rw [accounted, hstage]
  unfold StreamPump.account
  dsimp only
  by_cases hdrop : (!chunk.payload.isTerminal &&
      pump.shared.cancelAck.billingCeiling ≤ chunk.sequence) = true
  · rw [if_pos hdrop]
    exact h.move hopen (by simp [hstage]) (by simp) rfl rfl rfl rfl hcount
  · rw [if_neg hdrop]
    -- A chunk that stays is terminal or below the ceiling, so it is billed just if it is data.
    have hstays : chunk.payload.isTerminal = false →
        chunk.sequence < pump.shared.cancelAck.billingCeiling := by
      intro hterminal
      by_contra hge
      apply hdrop
      rw [hterminal]
      simpa using hge
    have hbill : isBillableChunk chunk.toOutletStreamChunk pump.shared.cancelAck.billingCeiling =
        decide (chunk.payload = .data) := by
      unfold isBillableChunk
      by_cases hdata : chunk.payload = .data
      · have hlt := hstays (by rw [hdata]; rfl)
        simp [hdata, hlt.le]
      · simp [hdata]
    have hnext : saturatingAdd pump.nextSeq 1 = pump.nextSeq+1 := by
      have h64 : u64Max = 2^64-1 := rfl
      unfold saturatingAdd
      omega
    have hbelow := h.below
    have hpinned := h.pinned
    have hescrow := h.escrow
    have hcredit := h.credit
    rw [haccounted] at hbelow hpinned hescrow hcredit
    refine ⟨rfl, h.sequences, ⟨?_, hcanonical, ?_⟩, ?_, ?_, ?_, ?_, h.frontier, h.ceiling, ?_⟩
    · dsimp only
      omega
    · intro _
      dsimp only
      omega
    · dsimp only
      rw [accounted_ingesting rfl, hnext]
      apply Below.append
      · intro other hother hterminal
        have hlt := hbelow other hother hterminal
        omega
      · intro _
        omega
    · intro c hc
      rw [accounted_ingesting rfl]
      apply (hpinned c hc).append
      intro hterminal
      rw [← billingCeiling_eq hc]
      exact hstays hterminal
    · rw [accounted_ingesting rfl, dataCount_append]
      simp only [accrueDataChunkIfBillable, hbill, decide_eq_true_eq]
      by_cases hdata : chunk.payload = .data
      · rw [if_pos hdata, if_pos hdata, SharedSessionState.accrueOneChunk_billedCount, hescrow,
          satAdd32_min]
      · rw [if_neg hdata, if_neg hdata, hescrow]
        rfl
    · rw [accounted_ingesting rfl, dataCount_append]
      simp only [hbill, decide_eq_true_eq]
      by_cases hdata : chunk.payload = .data
      · rw [if_pos hdata, if_pos hdata, CreditTracker.recordBilledEmission, hcredit, satAdd32_min]
      · rw [if_neg hdata, if_neg hdata, hcredit]
        rfl
    · intro event hevent
      exact absurd (h.event event hevent).2.1 hopen

/-- The chunk that was billed goes into the manifest under the next number. -/
theorem Inv.ingest (h : Inv C pump) (hjcs : ChunksCanonical C) {chunk : StreamChunk δ}
    (hstage : pump.stage = .ingesting chunk) (hlen : pump.emitted.length < 2^32) (sent : Bool) :
    Inv C (pump.ingest C chunk sent) := by
  have hplace := h.place
  rw [hstage] at hplace
  obtain ⟨hseq, hcanonical, hnext⟩ := hplace
  have haccounted := accounted_ingesting hstage
  -- What is accounted was so when the chunk was signed.
  have hsame : (pump.ingest C chunk sent).accounted = pump.accounted := by
    rw [haccounted]
    simp only [accounted, StreamPump.ingest]
    split_ifs <;> rfl
  obtain ⟨leaves, hfrontier⟩ := h.frontier
  obtain ⟨bytes, hbytes⟩ := hjcs chunk (by omega) hcanonical
  have hleaf : computeChunkLeafHash C chunk =
      .ok (C.sha256 (chunkSeparator ++ [chunkManifestLeafTag] ++ bytes)) := by
    rw [computeChunkLeafHash, hbytes]
    rfl
  obtain ⟨next, hpush, hceiling, hof⟩ := hfrontier.push hleaf
  have hpushed : (pump.ingest C chunk sent).frontier = next := by
    simp only [StreamPump.ingest, hpush]
  refine ⟨h.cursor, ?_, ?_, ?_, ?_, ?_, ?_, ⟨_, by rw [hpushed]; exact hof⟩, ?_, ?_⟩
  · simp only [StreamPump.ingest, List.map_append, h.sequences, List.length_append,
      List.length_singleton, List.range_succ, List.map_cons, List.map_nil, hseq]
  · simp only [StreamPump.ingest]
    by_cases hend : (chunk.payload.isTerminal || !sent) = true
    · rw [if_pos hend]
      trivial
    · rw [if_neg hend]
      simp only [Bool.or_eq_true, not_or, Bool.not_eq_true] at hend
      simp only [InPlace, List.length_append, List.length_singleton]
      exact hnext hend.1
  · rw [hsame]
    exact h.below
  · intro c hc
    rw [hsame]
    exact h.pinned c hc
  · rw [hsame]
    exact h.escrow
  · rw [hsame]
    exact h.credit
  · rw [hpushed, hceiling, h.ceiling]
  · intro event hevent
    have hsettled := (h.event event hevent).2.1
    rw [hstage] at hsettled
    cases hsettled

theorem recordTerminal_cancelAckSeq (cancelAck : CancelState) :
    cancelAck.recordTerminal.cancelAckSeq = cancelAck.cancelAckSeq := by
  cases cancelAck <;> rfl

theorem Inv.settle (h : Inv C pump) (hstage : pump.stage = .broken) : Inv C (pump.settle C) := by
  have haccounted : (pump.settle C).accounted = pump.accounted := by
    simp only [accounted, StreamPump.settle, hstage]
  refine ⟨h.cursor, h.sequences, trivial, ?_, ?_, ?_, ?_, h.frontier, h.ceiling, ?_⟩
  · rw [haccounted]
    exact h.below
  · intro c hc
    rw [haccounted]
    rw [StreamPump.settle] at hc
    dsimp only at hc
    rw [recordTerminal_cancelAckSeq] at hc
    exact h.pinned c hc
  · rw [haccounted]
    exact h.escrow
  · rw [haccounted]
    exact h.credit
  · intro event hevent
    rw [StreamPump.settle, Option.some.injEq] at hevent
    refine ⟨?_, rfl, ?_⟩
    · rw [← hevent, auditEvent, auditEvent, StreamPump.settle]
      dsimp only
      rw [recordTerminal_cancelAckSeq]
    · simp only [StreamPump.settle]
      cases pump.shared.cancelAck with
      | active => exact ⟨none, rfl⟩
      | pending c => exact ⟨some c, rfl⟩
      | closed c => exact ⟨c, rfl⟩

theorem Inv.step (h : Inv C pump) (hjcs : ChunksCanonical C) (hlen : pump.emitted.length < 2^32)
    (event : PumpEvent δ) : Inv C (pump.step C verify event) := by
  -- An event that does not belong to the stage the pump is in is ignored.
  cases event with
  | grant credit => exact h.grant credit
  | cancel nextSeq valid =>
    simp only [StreamPump.step]
    split
    · rename_i shared hok
      exact h.cancel hok
    · exact h
  | receive payload body now =>
    simp only [StreamPump.step]
    split
    · rename_i hstage _
      exact h.gate hstage payload body now
    · exact h
  | unpark now =>
    simp only [StreamPump.step]
    split
    · rename_i payload body hstage _
      exact h.gate hstage payload body now
    · exact h
  | frameworkTerminal body =>
    simp only [StreamPump.step]
    split
    · rename_i hstage
      exact h.frameworkTerminal hstage body
    · exact h
  | sign sig =>
    simp only [StreamPump.step]
    split
    · rename_i hstage
      exact h.sign hstage sig
    · exact h
  | account =>
    simp only [StreamPump.step]
    split
    · rename_i hstage
      exact h.account hstage hlen
    · exact h
  | ingest sent =>
    simp only [StreamPump.step]
    split
    · rename_i hstage
      exact h.ingest hjcs hstage hlen sent
    · exact h
  | upstreamClosed =>
    simp only [StreamPump.step]
    split
    · rename_i hstage
      exact h.move (by simp [hstage]) (by simp [hstage]) (by simp) rfl rfl rfl rfl trivial
    · exact h
  | settle =>
    simp only [StreamPump.step]
    split
    · rename_i hstage
      exact h.settle hstage
    · exact h

theorem emitted_le_step (pump : StreamPump δ) (event : PumpEvent δ) :
    pump.emitted.length ≤ (pump.step C verify event).emitted.length := by
  have hgate : ∀ payload body now, (pump.gate payload body now).emitted = pump.emitted := by
    intro payload body now
    simp only [StreamPump.gate]
    split <;> rfl
  have hsign : ∀ sequence payload body framework sig,
      (pump.sign C sequence payload body framework sig).emitted = pump.emitted := by
    intro sequence payload body framework sig
    simp only [StreamPump.sign]
    split <;> rfl
  have haccount : ∀ chunk, (pump.account chunk).emitted = pump.emitted := by
    intro chunk
    unfold StreamPump.account
    dsimp only
    split <;> rfl
  cases event with
  | grant credit => exact le_rfl
  | ingest sent =>
    simp only [StreamPump.step]
    split
    · simp [StreamPump.ingest]
    · exact le_rfl
  | _ =>
    simp only [StreamPump.step]
    split <;> simp [hgate, hsign, haccount, StreamPump.settle]

variable (C verify) in
theorem emitted_le_run (pump : StreamPump δ) (events : List (PumpEvent δ)) :
    pump.emitted.length ≤ (pump.run C verify events).emitted.length := by
  induction events generalizing pump with
  | nil => exact le_rfl
  | cons event events ih => exact (emitted_le_step pump event).trans (ih _)

theorem Inv.run (h : Inv C pump) (hjcs : ChunksCanonical C) {events : List (PumpEvent δ)}
    (hlen : (pump.run C verify events).emitted.length < 2^32) :
    Inv C (pump.run C verify events) := by
  induction events generalizing pump with
  | nil => exact h
  | cons event events ih =>
    have hrest := emitted_le_run C verify pump (event :: events)
    exact ih (h.step hjcs (by omega) event) hlen

/-- What the auditor finds in a stream: no gap, nothing past the cancel, ledgers that agree once
the chunk in hand is in the manifest, and an event that verifies. -/
structure Audited (C : ChunkCrypto δ) (pump : StreamPump δ) : Prop where
  sequences : pump.emitted.map (·.sequence) = List.range pump.emitted.length
  pinned : ∀ c, pump.shared.cancelAck.cancelAckSeq = some c → ∀ chunk ∈ pump.emitted,
    chunk.payload = .data ∨ chunk.payload = .progress → chunk.sequence < c
  ledgers : pump.shared.escrow.billedCount = pump.shared.credit.billedEmitted
  manifest : (∀ chunk, pump.stage ≠ .ingesting chunk) →
    pump.frontier.billedCount = pump.shared.escrow.billedCount
  verifies : verifyOutletInvokedEventManifest C (pump.auditEvent C) pump.emitted = .ok ()
  event : ∀ event, pump.event = some event →
    verifyOutletInvokedEventManifest C event pump.emitted = .ok () ∧ event.auditAnomaly = none

/-- Where the ceiling is above all data, the reference counts all data. -/
theorem computeChunksBilledRef_eq {chunks : List (StreamChunk δ)} {c : ℕ}
    (h : ∀ chunk ∈ chunks, chunk.payload = .data → chunk.sequence ≤ c) :
    computeChunksBilledRef chunks c = min (dataCount chunks) u32Max := by
  have hfilter : chunks.filter (countsUpTo c) =
      chunks.filter (fun chunk => chunk.payload = .data) := by
    apply List.filter_congr
    intro chunk hchunk
    by_cases hdata : chunk.payload = .data
    · simp [countsUpTo, hdata, h chunk hchunk hdata]
    · simp [countsUpTo, hdata]
  rw [computeChunksBilledRef, hfilter, dataCount]

theorem dataCount_le (chunks : List (StreamChunk δ)) : dataCount chunks ≤ chunks.length :=
  List.length_filter_le _ _

theorem Inv.emitted_sequence_lt (h : Inv C pump) {chunk : StreamChunk δ}
    (hchunk : chunk ∈ pump.emitted) : chunk.sequence < pump.emitted.length := by
  have hmem : chunk.sequence ∈ pump.emitted.map (·.sequence) :=
    List.mem_map_of_mem (f := fun c : StreamChunk δ => c.sequence) hchunk
  rw [h.sequences] at hmem
  exact List.mem_range.mp hmem

theorem mem_accounted {chunk : StreamChunk δ} (hchunk : chunk ∈ pump.emitted) :
    chunk ∈ pump.accounted := by
  unfold accounted
  split
  · exact List.mem_append_left _ hchunk
  · exact hchunk

/-- The frontier counts the data chunks that were emitted. -/
theorem Inv.frontier_billedCount (h : Inv C pump) (hlen : pump.emitted.length < 2^32) :
    pump.frontier.billedCount = dataCount pump.emitted := by
  obtain ⟨leaves, hof⟩ := h.frontier
  have h64 : u64Max = 2^64-1 := rfl
  have h32 : u32Max = 2^32-1 := rfl
  have hle := dataCount_le pump.emitted
  rw [hof.billedCount_eq hlen, h.ceiling, computeChunksBilledRef_eq]
  · omega
  · intro chunk hchunk _
    have hlt := h.emitted_sequence_lt hchunk
    omega

theorem Inv.verifies (h : Inv C pump) (hlen : pump.emitted.length < 2^32) :
    verifyOutletInvokedEventManifest C (pump.auditEvent C) pump.emitted = .ok () := by
  have h64 : u64Max = 2^64-1 := rfl
  have h32 : u32Max = 2^32-1 := rfl
  have hle := dataCount_le pump.emitted
  have hbilled := h.frontier_billedCount hlen
  obtain ⟨leaves, hof⟩ := h.frontier
  -- Every data chunk emitted is at or below the ceiling of the event.
  have hbelow : ∀ chunk ∈ pump.emitted, chunk.payload = .data →
      chunk.sequence ≤ pump.shared.cancelAck.cancelAckSeq.getD u64Max := by
    intro chunk hchunk hdata
    cases hc : pump.shared.cancelAck.cancelAckSeq with
    | none =>
      have hlt := h.emitted_sequence_lt hchunk
      rw [Option.getD_none]
      omega
    | some c =>
      exact (h.pinned c hc chunk (mem_accounted hchunk) (by rw [hdata]; rfl)).le
  have href := computeChunksBilledRef_eq hbelow
  have hroot := hof.computeChunkManifestRoot_eq
  have hleaves := hof.leafCount
  have hcount : min pump.frontier.leafCount u32Max = min pump.emitted.length u64Max := by omega
  apply verifyOutletInvokedEventManifest_ok.mpr
  refine ⟨?_, ?_, ?_⟩
  · dsimp only [auditEvent, buildStreamingOutletEvent]
    rw [href, hbilled]
  · exact hroot
  · exact hcount

theorem Inv.audited (h : Inv C pump) (hlen : pump.emitted.length < 2^32) : Audited C pump := by
  have h32 : u32Max = 2^32-1 := rfl
  have hle := dataCount_le pump.emitted
  have hbilled := h.frontier_billedCount hlen
  have hmanifest : (∀ chunk, pump.stage ≠ .ingesting chunk) →
      pump.frontier.billedCount = pump.shared.escrow.billedCount := by
    intro hidle
    have haccounted : pump.accounted = pump.emitted := by
      unfold accounted
      split
      · rename_i chunk hstage
        exact absurd hstage (hidle chunk)
      · rfl
    rw [hbilled, h.escrow, haccounted]
    omega
  refine ⟨h.sequences, ?_, ?_, hmanifest, h.verifies hlen, ?_⟩
  · intro c hc chunk hchunk hpayload
    apply h.pinned c hc chunk (mem_accounted hchunk)
    rcases hpayload with hdata | hprogress
    · rw [hdata]
      rfl
    · rw [hprogress]
      rfl
  · rw [h.escrow, h.credit]
  · intro event hevent
    obtain ⟨rfl, hsettled, _⟩ := h.event event hevent
    have hsame := hmanifest (by simp [hsettled])
    have hrecorded : pump.shared.escrow.settleAtClose.2.2 =
        min pump.frontier.billedCount u32Max := by
      rw [StreamEscrow.settleAtClose, ← hsame, hbilled]
      dsimp only
      omega
    exact ⟨h.verifies hlen, if_pos hrecorded⟩

end StreamPump

/-- In every run of the pump, whatever cancels, grants and ends come between its steps, the
stream's own event verifies against the chunks that were emitted. -/
theorem stream_event_verifies {δ : Type} {C : ChunkCrypto δ} (hjcs : StreamPump.ChunksCanonical C)
    (verify : OutletStreamCredit → StreamIdentity → Bool) (params : OpenStreamParams)
    (requestId : Bytes) (events : List (PumpEvent δ))
    (hlen : ((StreamPump.build params requestId).run C verify events).emitted.length < 2^32) :
    StreamPump.Audited C ((StreamPump.build params requestId).run C verify events) :=
  ((StreamPump.inv_build params requestId).run hjcs hlen).audited hlen

-- A stream cancelled while its second chunk is being signed.

def sampleStreamEvents : List (PumpEvent Unit) :=
  [.receive .data () 0, .sign (some [1]), .account, .ingest true, .receive .data () 1,
    .cancel 1 true, .sign (some [2]), .account, .frameworkTerminal (), .sign (some [3]),
    .ingest true, .settle]

def samplePump : StreamPump Unit :=
  (StreamPump.build (SharedSessionState.sampleStream 2) []).run sampleChunkCrypto (fun _ _ => true)
    sampleStreamEvents

theorem stream_event_verifies_sample :
    samplePump.event.map (fun event => (event.streamChunkCount, event.chunksBilled,
      event.cancelAckSeq)) = some (2, 1, some 1) ∧
    ∀ event, samplePump.event = some event →
      verifyOutletInvokedEventManifest sampleChunkCrypto event samplePump.emitted = .ok () := by
  have haudited := stream_event_verifies (C := sampleChunkCrypto) (fun chunk _ _ => ⟨_, rfl⟩)
    (fun _ _ => true) (SharedSessionState.sampleStream 2) [] sampleStreamEvents (by decide +kernel)
  refine ⟨by decide +kernel, ?_⟩
  intro event hevent
  exact (haudited.event event hevent).1

end ScpCore.Outlets
