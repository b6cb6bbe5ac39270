import ScpCore.Caveats
import ScpCore.Saturating

/-! The escrow of a streaming outlet. A stream is opened with a hold for an estimated
number of chunks and a window of credit; grants extend both, and each forwarded data
chunk takes a unit of credit and bills the hold. -/

namespace ScpCore.Outlets

open Caveats

/-- A point of the monotonic clock. -/
abbrev Instant := ℕ

def u32Max : ℕ := 2^32-1

def satAdd32 (a b : ℕ) : ℕ := min (a+b) u32Max

/-- A chunk's payload by its kind. -/
inductive ChunkPayload
  | data
  | progress
  | end_
  | error (terminal : Bool)
  deriving DecidableEq

def ChunkPayload.isTerminal : ChunkPayload → Bool
  | .end_ => true
  | .error terminal => terminal
  | .data | .progress => false

structure OutletStreamChunk where
  sequence : ℕ
  payload : ChunkPayload
  deriving DecidableEq

structure OutletStreamCredit where
  requestId : Bytes
  grant : ℕ
  monotonicSeq : ℕ
  sig : Bytes
  deriving DecidableEq

structure StreamIdentity where
  contextId : String
  outletId : String
  streamEpoch : ℕ
  caveatsBinding : Bytes
  deriving DecidableEq

inductive GrantError
  | signatureInvalid
  | creditReplay
  | streamIdentityMismatch
  | streamClosed
  deriving DecidableEq

/-- The count of billable chunks that the caveats allow, by number and by value. -/
def effectiveMaxBillableChunks (costPerChunk : ℕ) (caveats : InvocationCaveats) : Option ℕ :=
  let maxCallsCeiling := caveats.maxCalls.map (fun n => min n u32Max)
  let capCeiling := caveats.amountMaxCumulative.bind (fun cap =>
    if 0 < costPerChunk then some (min (cap/costPerChunk) u32Max) else none)
  match maxCallsCeiling, capCeiling with
  | some a, some b => some (min a b)
  | some only, none => some only
  | none, some only => some only
  | none, none => none

structure CreditTracker where
  remaining : ℕ
  seenSeq : Option ℕ
  identity : StreamIdentity
  maxBillable : Option ℕ
  billedEmitted : ℕ
  deriving DecidableEq

namespace CreditTracker

def new (creditWindow : ℕ) (identity : StreamIdentity) (maxBillable : Option ℕ) :
    CreditTracker where
  remaining := maxBillable.elim creditWindow (fun cap => min creditWindow cap)
  seenSeq := none
  identity := identity
  maxBillable := maxBillable
  billedEmitted := 0

def cumulativeCeilingReached (credit : CreditTracker) : Bool :=
  credit.maxBillable.elim false (fun cap => cap ≤ credit.billedEmitted)

def recordBilledEmission (credit : CreditTracker) : CreditTracker :=
  { credit with billedEmitted := satAdd32 credit.billedEmitted 1 }

def replenishClamped (credit : CreditTracker) (grant : ℕ) : CreditTracker :=
  let raw := satAdd32 credit.remaining grant
  { credit with
    remaining := credit.maxBillable.elim raw (fun cap => min raw (cap-credit.billedEmitted)) }

/-- The tracker after one unit is taken; nothing where it is exhausted. -/
def tryConsume (credit : CreditTracker) : Option CreditTracker :=
  if credit.remaining = 0 then none else some { credit with remaining := credit.remaining-1 }

/-- `verify` is the check of a grant's signature under the invoker's key. -/
def grantWithIdentity (credit : CreditTracker)
    (verify : OutletStreamCredit → StreamIdentity → Bool) (grant : OutletStreamCredit)
    (expectedIdentity : StreamIdentity) : Except GrantError CreditTracker := do
  require (credit.seenSeq.elim true (· < grant.monotonicSeq)) .creditReplay
  if verify grant credit.identity then
    pure ({ credit with seenSeq := some grant.monotonicSeq }.replenishClamped grant.grant)
  else if verify grant expectedIdentity then .error .streamIdentityMismatch
  else .error .signatureInvalid

end CreditTracker

inductive OpenError
  | estimateExceedsBound
  deriving DecidableEq

def enforceEstimatedChunkCountBound (estimatedChunkCount creditWindow : ℕ)
    (caveats : InvocationCaveats) : Except OpenError Unit :=
  let maxCallsU32 := caveats.maxCalls.elim u32Max (fun n => min n u32Max)
  require (estimatedChunkCount ≤ min creditWindow maxCallsU32) .estimateExceedsBound

structure StreamEscrow where
  costPerChunk : ℕ
  reserved : ℕ
  billed : ℕ
  billedCount : ℕ
  deriving DecidableEq

namespace StreamEscrow

def fromReserved (costPerChunk reserved : ℕ) : StreamEscrow := ⟨costPerChunk, reserved, 0, 0⟩

def zeroEscrow : StreamEscrow := ⟨0, 0, 0, 0⟩

def applyReservedTopUp (escrow : StreamEscrow) (topUp : ℕ) : StreamEscrow :=
  { escrow with reserved := saturatingAdd escrow.reserved topUp }

def accrueOneChunk (escrow : StreamEscrow) : StreamEscrow :=
  if escrow.costPerChunk = 0 then
    { escrow with billedCount := satAdd32 escrow.billedCount 1 }
  else
    { escrow with
      billed := saturatingAdd escrow.billed escrow.costPerChunk
      billedCount := satAdd32 escrow.billedCount 1 }

/-- The amounts billed and refunded, and the chunks billed. -/
def settleAtClose (escrow : StreamEscrow) : ℕ × ℕ × ℕ :=
  (escrow.billed, escrow.reserved-escrow.billed, escrow.billedCount)

end StreamEscrow

/-- The billed and refunded amounts of the receipt, from the count of the manifest. -/
def anchorSettlementReceiptToManifest (manifestReference costPerChunk reserved : ℕ) : ℕ × ℕ :=
  let product := costPerChunk*manifestReference
  let billed := min (if product ≤ u64Max then product else 0) reserved
  (billed, reserved-billed)

/-- The cancel-ack lifecycle, without its timer. -/
inductive CancelState
  | active
  | pending (cancelAckSeq : ℕ)
  | closed (cancelAckSeq : Option ℕ)
  deriving DecidableEq

namespace CancelState

def recordCancel (state : CancelState) (nextSeq : ℕ) : CancelState :=
  if state = .active then .pending nextSeq else state

def recordTerminal : CancelState → CancelState
  | .active => .closed none
  | .pending cancelAckSeq => .closed (some cancelAckSeq)
  | .closed cancelAckSeq => .closed cancelAckSeq

def billingCeiling : CancelState → ℕ
  | .active => u64Max
  | .pending cancelAckSeq => cancelAckSeq
  | .closed cancelAckSeq => cancelAckSeq.getD u64Max

end CancelState

inductive StreamGateOutcome
  | forward | stall | dropAboveCancelAck | creditExhausted
  deriving DecidableEq

def isBillableChunk (chunk : OutletStreamChunk) (ceiling : ℕ) : Bool :=
  chunk.payload = .data && chunk.sequence ≤ ceiling

/-- The outcome with the tracker after it, and the time the stall timer stands at. -/
def applyStreamChunkGate (credit : CreditTracker) (cancelAck : CancelState)
    (creditStallArmedAt : Option Instant) (now : Instant) (chunk : OutletStreamChunk) :
    StreamGateOutcome × CreditTracker × Option Instant :=
  if chunk.payload.isTerminal then (.forward, credit, creditStallArmedAt)
  else
    let ceiling := cancelAck.billingCeiling
    if ceiling ≤ chunk.sequence then (.dropAboveCancelAck, credit, creditStallArmedAt)
    else if isBillableChunk chunk ceiling && credit.cumulativeCeilingReached then
      (.creditExhausted, credit, creditStallArmedAt)
    else credit.tryConsume.elim (.stall, credit, creditStallArmedAt.or (some now))
      (fun taken => (.forward, taken, creditStallArmedAt))

def accrueDataChunkIfBillable (escrow : StreamEscrow) (cancelAck : CancelState)
    (chunk : OutletStreamChunk) : StreamEscrow :=
  if isBillableChunk chunk cancelAck.billingCeiling then escrow.accrueOneChunk else escrow

structure OpenStreamParams where
  costPerChunk : ℕ
  estimatedChunkCount : ℕ
  creditWindow : ℕ
  caveats : InvocationCaveats
  identity : StreamIdentity
  reservedEscrow : ℕ

def reserveEscrow (params : OpenStreamParams) : StreamEscrow :=
  if params.costPerChunk = 0 then .zeroEscrow
  else .fromReserved params.costPerChunk params.reservedEscrow

/-- The shared state of a stream. The pump looks at it in two turns, for the gate and
for the bill, and signs the chunk `inFlight` between them. `debited` is what the
manager has taken from the invoker's budget for the stream. -/
structure SharedSessionState where
  credit : CreditTracker
  escrow : StreamEscrow
  cancelAck : CancelState
  creditStallArmedAt : Option Instant
  nextEmissionSeq : ℕ
  pumpExited : Bool
  inFlight : Option OutletStreamChunk
  debited : ℕ

inductive SessionEvent
  | grant (credit : OutletStreamCredit)
  | cancel (nextSeq : ℕ)
  | arrive (payload : ChunkPayload) (now : Instant)
  | signed
  | close

namespace SharedSessionState

def build (params : OpenStreamParams) : SharedSessionState where
  credit := .new params.creditWindow params.identity
    (effectiveMaxBillableChunks params.costPerChunk params.caveats)
  escrow := reserveEscrow params
  cancelAck := .active
  creditStallArmedAt := none
  nextEmissionSeq := 0
  pumpExited := false
  inFlight := none
  debited := params.reservedEscrow

/-- A grant that the handle refuses has its debit reversed by the caller. -/
def applyCreditGrant (verify : OutletStreamCredit → StreamIdentity → Bool)
    (session : SharedSessionState) (grant : OutletStreamCredit) (reservedTopUp : ℕ) :
    Except GrantError SharedSessionState := do
  require (!session.pumpExited) .streamClosed
  let credit ← session.credit.grantWithIdentity verify grant session.credit.identity
  pure { session with
    credit := credit
    escrow := session.escrow.applyReservedTopUp reservedTopUp
    creditStallArmedAt := none
    debited := session.debited+reservedTopUp }

/-- The pump takes a chunk to the gate, under the next sequence number. -/
def arrive (session : SharedSessionState) (payload : ChunkPayload) (now : Instant) :
    SharedSessionState :=
  let chunk : OutletStreamChunk := ⟨session.nextEmissionSeq, payload⟩
  let result := applyStreamChunkGate session.credit session.cancelAck
    session.creditStallArmedAt now chunk
  { session with
    credit := result.2.1
    creditStallArmedAt := result.2.2
    inFlight := if result.1 = .forward then some chunk else none }

def settle (session : SharedSessionState) : SharedSessionState :=
  { session with
    cancelAck := session.cancelAck.recordTerminal
    pumpExited := true
    inFlight := none }

/-- The signed chunk is billed, unless a cancel has come in while it was signed. -/
def bill (session : SharedSessionState) (chunk : OutletStreamChunk) :
    SharedSessionState :=
  if !chunk.payload.isTerminal && session.cancelAck.billingCeiling ≤ chunk.sequence then
    { session with inFlight := none }
  else
    { session with
      credit := if isBillableChunk chunk session.cancelAck.billingCeiling then
        session.credit.recordBilledEmission else session.credit
      escrow := accrueDataChunkIfBillable session.escrow session.cancelAck chunk
      nextEmissionSeq := saturatingAdd session.nextEmissionSeq 1
      inFlight := none }

/-- A terminal chunk ends the pump, which settles. -/
def signed (session : SharedSessionState) (chunk : OutletStreamChunk) :
    SharedSessionState :=
  if chunk.payload.isTerminal then (session.bill chunk).settle else session.bill chunk

variable (verify : OutletStreamCredit → StreamIdentity → Bool)

def step (session : SharedSessionState) : SessionEvent → SharedSessionState
  | .grant credit =>
    match session.applyCreditGrant verify credit (session.escrow.costPerChunk*credit.grant) with
    | .ok session' => session'
    | .error _ => session
  | .cancel nextSeq => { session with cancelAck := session.cancelAck.recordCancel nextSeq }
  | .arrive payload now =>
    if session.pumpExited || session.inFlight.isSome then session else session.arrive payload now
  | .signed => session.inFlight.elim session (fun chunk => session.signed chunk)
  | .close => session.settle

def run (session : SharedSessionState) (events : List SessionEvent) :
    SharedSessionState :=
  events.foldl (step verify) session

/-- The receipt of the close, as the pump derives it from the settled escrow. -/
def receipt (session : SharedSessionState) (manifestReference : ℕ) : ℕ × ℕ :=
  let closed := session.escrow.settleAtClose
  anchorSettlementReceiptToManifest manifestReference session.escrow.costPerChunk
    (saturatingAdd closed.1 closed.2.1)

/-- The units of credit taken for a chunk that is not yet billed. -/
def pendingUnits (inFlight : Option OutletStreamChunk) : ℕ :=
  inFlight.elim 0 (fun chunk => if chunk.payload.isTerminal then 0 else 1)

/-- `billed` chunks have been billed and `granted` chunks granted so far; what is
billed, in flight or still allowed is within the first window and the grants. -/
structure Held (params : OpenStreamParams) (window billed granted : ℕ)
    (session : SharedSessionState) : Prop where
  cost : session.escrow.costPerChunk = params.costPerChunk
  count : session.escrow.billedCount = min billed u32Max
  amount : session.escrow.billed ≤ params.costPerChunk*billed
  credit : billed+pendingUnits session.inFlight+session.credit.remaining ≤ window+granted
  debited : session.debited = params.costPerChunk*(params.estimatedChunkCount+granted)
  reserved : session.debited ≤ u64Max → session.escrow.reserved = session.debited

variable {verify} {params : OpenStreamParams} {session : SharedSessionState}
  {window billed granted : ℕ}

theorem held_build (hreserved : params.reservedEscrow =
    params.costPerChunk*params.estimatedChunkCount) :
    Held params (build params).credit.remaining 0 0 (build params) := by
  by_cases hcost : params.costPerChunk = 0
  · refine ⟨?_, ?_, ?_, ?_, ?_, ?_⟩ <;>
      simp [build, reserveEscrow, hcost, hreserved, StreamEscrow.zeroEscrow, pendingUnits]
  · refine ⟨?_, ?_, ?_, ?_, ?_, ?_⟩ <;>
      simp [build, reserveEscrow, hcost, hreserved, StreamEscrow.fromReserved, pendingUnits]

theorem grantWithIdentity_remaining {credit credit' : CreditTracker} {grant : OutletStreamCredit}
    {expected : StreamIdentity}
    (h : credit.grantWithIdentity verify grant expected = .ok credit') :
    credit'.remaining ≤ credit.remaining+grant.grant := by
  simp only [CreditTracker.grantWithIdentity, bind_ok_iff, exists_unit_iff] at h
  obtain ⟨_, h⟩ := h
  by_cases hpinned : verify grant credit.identity = true
  · rw [if_pos hpinned, pure_ok_iff] at h
    rw [← h]
    have hraw : satAdd32 credit.remaining grant.grant ≤ credit.remaining+grant.grant :=
      min_le_left _ _
    -- The clamp to the ceiling only lowers what the grant gives.
    cases hmax : credit.maxBillable with
    | none => simpa [CreditTracker.replenishClamped, hmax] using hraw
    | some cap =>
      simp only [CreditTracker.replenishClamped, Option.elim]
      omega
  · rw [if_neg hpinned] at h
    split at h <;> cases h

theorem Held.grant (h : Held params window billed granted session) {grant : OutletStreamCredit}
    {session' : SharedSessionState}
    (hok : session.applyCreditGrant verify grant (session.escrow.costPerChunk*grant.grant) =
      .ok session') : Held params window billed (granted+grant.grant) session' := by
  simp only [applyCreditGrant, bind_ok_iff, exists_unit_iff, pure_ok_iff] at hok
  obtain ⟨_, credit, hcredit, hsession⟩ := hok
  have hremaining := grantWithIdentity_remaining hcredit
  have hheld := h.credit
  have hdebited := h.debited
  subst hsession
  refine ⟨h.cost, h.count, h.amount, ?_, ?_, ?_⟩
  · dsimp only
    omega
  · dsimp only
    rw [hdebited, h.cost]
    ring
  · intro hfits
    dsimp only at hfits
    have hreserved := h.reserved (by omega)
    simp only [StreamEscrow.applyReservedTopUp, saturatingAdd, hreserved]
    omega

/-- A chunk that is let through has taken a unit of credit, unless it is terminal; no
other outcome touches the credit. -/
theorem applyStreamChunkGate_cases {credit : CreditTracker} {cancelAck : CancelState}
    {armed : Option Instant} {now : Instant} {chunk : OutletStreamChunk}
    {result : StreamGateOutcome × CreditTracker × Option Instant}
    (h : applyStreamChunkGate credit cancelAck armed now chunk = result) :
    (result.1 = .forward ∧ chunk.payload.isTerminal = true ∧ result.2.1 = credit) ∨
      (result.1 = .forward ∧ result.2.1.remaining+1 = credit.remaining) ∨
      (result.1 ≠ .forward ∧ result.2.1 = credit) := by
  subst h
  by_cases hterminal : chunk.payload.isTerminal = true
  · simp [applyStreamChunkGate, hterminal]
  · simp only [applyStreamChunkGate, hterminal, Bool.false_eq_true, if_false]
    split_ifs with habove hceiling
    · simp
    · simp
    · by_cases hempty : credit.remaining = 0
      · simp [CreditTracker.tryConsume, hempty]
      · simp only [CreditTracker.tryConsume, hempty, if_false, Option.elim]
        refine Or.inr (Or.inl ⟨trivial, ?_⟩)
        omega

theorem Held.arrive (h : Held params window billed granted session)
    (hidle : session.inFlight = none) (payload : ChunkPayload) (now : Instant) :
    Held params window billed granted (session.arrive payload now) := by
  have hcredit : pendingUnits (session.arrive payload now).inFlight+
      (session.arrive payload now).credit.remaining ≤ session.credit.remaining := by
    simp only [SharedSessionState.arrive]
    generalize hresult : applyStreamChunkGate session.credit session.cancelAck
      session.creditStallArmedAt now ⟨session.nextEmissionSeq, payload⟩ = result
    rcases applyStreamChunkGate_cases hresult with
      ⟨hforward, hterminal, hsame⟩ | ⟨hforward, htaken⟩ | ⟨hstays, hsame⟩
    · rw [if_pos hforward, hsame]
      simp [pendingUnits, hterminal]
    · rw [if_pos hforward]
      simp only [pendingUnits, Option.elim]
      split_ifs <;> omega
    · rw [if_neg hstays, hsame]
      simp [pendingUnits]
  have hheld := h.credit
  rw [hidle] at hheld
  refine ⟨h.cost, h.count, h.amount, ?_, h.debited, h.reserved⟩
  simp only [pendingUnits, Option.elim] at hheld hcredit ⊢
  omega

theorem accrueOneChunk_costPerChunk (escrow : StreamEscrow) :
    escrow.accrueOneChunk.costPerChunk = escrow.costPerChunk := by
  unfold StreamEscrow.accrueOneChunk
  split_ifs <;> rfl

theorem accrueOneChunk_reserved (escrow : StreamEscrow) :
    escrow.accrueOneChunk.reserved = escrow.reserved := by
  unfold StreamEscrow.accrueOneChunk
  split_ifs <;> rfl

theorem accrueOneChunk_billedCount (escrow : StreamEscrow) :
    escrow.accrueOneChunk.billedCount = satAdd32 escrow.billedCount 1 := by
  unfold StreamEscrow.accrueOneChunk
  split_ifs <;> rfl

theorem accrueOneChunk_billed_le (escrow : StreamEscrow) :
    escrow.accrueOneChunk.billed ≤ escrow.billed+escrow.costPerChunk := by
  unfold StreamEscrow.accrueOneChunk
  split_ifs with hcost
  · exact Nat.le_add_right _ _
  · exact min_le_left _ _

/-- Billing a chunk moves its unit from the flight to the bill. -/
theorem Held.bill (h : Held params window billed granted session) {chunk : OutletStreamChunk}
    (hflight : session.inFlight = some chunk) :
    ∃ billed', Held params window billed' granted (session.bill chunk) := by
  have hheld := h.credit
  rw [hflight] at hheld
  have hcost := h.cost
  have hamount := h.amount
  have hcount := h.count
  -- A chunk past the ceiling of a cancel is dropped, a data chunk below it is billed, and
  -- any other passes without a charge.
  by_cases hdrop : (!chunk.payload.isTerminal && session.cancelAck.billingCeiling ≤ chunk.sequence) =
      true
  · refine ⟨billed, ?_⟩
    rw [SharedSessionState.bill, if_pos hdrop]
    refine ⟨hcost, hcount, hamount, ?_, h.debited, h.reserved⟩
    simp only [pendingUnits, Option.elim] at hheld ⊢
    omega
  · rw [SharedSessionState.bill, if_neg hdrop]
    by_cases hbill : isBillableChunk chunk session.cancelAck.billingCeiling = true
    · refine ⟨billed+1, ?_⟩
      have hdata : chunk.payload = .data := by
        simp only [isBillableChunk, Bool.and_eq_true, decide_eq_true_eq] at hbill
        exact hbill.1
      have hbilled : (accrueDataChunkIfBillable session.escrow session.cancelAck chunk) =
          session.escrow.accrueOneChunk := by rw [accrueDataChunkIfBillable, if_pos hbill]
      rw [if_pos hbill, hbilled]
      refine ⟨?_, ?_, ?_, ?_, h.debited, ?_⟩
      · rw [accrueOneChunk_costPerChunk, hcost]
      · have hsat : ∀ limit, min (min billed limit+1) limit = min (billed+1) limit := by
          intro limit
          omega
        rw [accrueOneChunk_billedCount, hcount]
        exact hsat u32Max
      · have hone := accrueOneChunk_billed_le session.escrow
        rw [hcost] at hone
        calc
          session.escrow.accrueOneChunk.billed ≤ session.escrow.billed+params.costPerChunk := hone
          _ ≤ params.costPerChunk*billed+params.costPerChunk := by omega
          _ = params.costPerChunk*(billed+1) := by ring
      · simp only [pendingUnits, Option.elim, hdata, ChunkPayload.isTerminal, Bool.false_eq_true,
          if_false, CreditTracker.recordBilledEmission] at hheld ⊢
        omega
      · rw [accrueOneChunk_reserved]
        exact h.reserved
    · refine ⟨billed, ?_⟩
      simp only [hbill, Bool.false_eq_true, if_false, accrueDataChunkIfBillable]
      refine ⟨hcost, hcount, hamount, ?_, h.debited, h.reserved⟩
      simp only [pendingUnits, Option.elim] at hheld ⊢
      omega

theorem Held.settle (h : Held params window billed granted session) :
    Held params window billed granted session.settle := by
  have hheld := h.credit
  refine ⟨h.cost, h.count, h.amount, ?_, h.debited, h.reserved⟩
  simp only [SharedSessionState.settle, pendingUnits, Option.elim] at hheld ⊢
  omega

variable (verify) in
theorem Held.step (h : Held params window billed granted session) (event : SessionEvent) :
    ∃ billed' granted', Held params window billed' granted' (session.step verify event) := by
  cases event with
  | grant credit =>
    simp only [SharedSessionState.step]
    cases hok : session.applyCreditGrant verify credit
        (session.escrow.costPerChunk*credit.grant) with
    | error e => exact ⟨billed, granted, h⟩
    | ok session' => exact ⟨billed, granted+credit.grant, h.grant hok⟩
  | cancel nextSeq =>
    exact ⟨billed, granted, ⟨h.cost, h.count, h.amount, h.credit, h.debited, h.reserved⟩⟩
  | arrive payload now =>
    simp only [SharedSessionState.step]
    split_ifs with hbusy
    · exact ⟨billed, granted, h⟩
    · have hidle : session.inFlight = none := by
        simp only [Bool.or_eq_true, not_or] at hbusy
        simpa using hbusy.2
      exact ⟨billed, granted, h.arrive hidle payload now⟩
  | signed =>
    cases hflight : session.inFlight with
    | none => exact ⟨billed, granted, by simpa [SharedSessionState.step, hflight] using h⟩
    | some chunk =>
      obtain ⟨billed', hbill⟩ := h.bill hflight
      simp only [SharedSessionState.step, hflight, Option.elim, SharedSessionState.signed]
      split_ifs with hterminal
      · exact ⟨billed', granted, hbill.settle⟩
      · exact ⟨billed', granted, hbill⟩
  | close => exact ⟨billed, granted, h.settle⟩

variable (verify) in
theorem Held.run (h : Held params window billed granted session) (events : List SessionEvent) :
    ∃ billed' granted', Held params window billed' granted' (session.run verify events) := by
  induction events generalizing session billed granted with
  | nil => exact ⟨billed, granted, h⟩
  | cons event events ih =>
    obtain ⟨billed', granted', hstep⟩ := h.step verify event
    exact ih hstep

/-- The products of the cost with the counts stay in the word. -/
def NoOverflow (session : SharedSessionState) : Prop :=
  session.debited ≤ u64Max ∧ session.escrow.costPerChunk*session.escrow.billedCount ≤ u64Max

/-- The bill is within the hold, and closing now gives back the rest of what was
debited, whatever the manifest counts. -/
structure WithinHold (session : SharedSessionState) : Prop where
  billed : session.escrow.billed ≤ session.escrow.reserved
  settled : session.escrow.settleAtClose.1+session.escrow.settleAtClose.2.1 = session.debited
  receipt : ∀ manifestReference, (session.receipt manifestReference).1+
    (session.receipt manifestReference).2 = session.debited

/-- The credit a stream starts with. -/
def firstWindow (params : OpenStreamParams) : ℕ :=
  (effectiveMaxBillableChunks params.costPerChunk params.caveats).elim params.creditWindow
    (min params.creditWindow)

/-- The estimate covers the first window of credit, or there is nothing to bill; or a
chunk past the estimate would already overflow. -/
def Covered (params : OpenStreamParams) : Prop :=
  params.costPerChunk = 0 ∨ firstWindow params ≤ params.estimatedChunkCount ∨
    u64Max < params.costPerChunk*(params.estimatedChunkCount+1)

theorem withinHold_of_billed_le (hfits : session.debited ≤ u64Max)
    (hreserved : session.escrow.reserved = session.debited)
    (hbilled : session.escrow.billed ≤ session.debited) : WithinHold session := by
  have hsum : session.escrow.billed+(session.escrow.reserved-session.escrow.billed) =
      session.debited := by omega
  refine ⟨by omega, hsum, ?_⟩
  intro manifestReference
  have hclosed : saturatingAdd session.escrow.billed (session.escrow.reserved-session.escrow.billed) =
      session.debited := by
    rw [saturatingAdd, hsum]
    exact min_eq_left hfits
  simp only [SharedSessionState.receipt, StreamEscrow.settleAtClose, hclosed,
    anchorSettlementReceiptToManifest]
  omega

theorem Held.withinHold (h : Held params (firstWindow params) billed granted session)
    (hwindow : firstWindow params ≤ u32Max) (hcovered : Covered params)
    (hfits : NoOverflow session) : WithinHold session := by
  apply withinHold_of_billed_le hfits.1 (h.reserved hfits.1)
  -- In each case the chunks billed are among those that were reserved.
  have hreserved : ∀ n, n ≤ params.estimatedChunkCount+granted →
      params.costPerChunk*n ≤ session.debited := by
    intro n hn
    rw [h.debited]
    exact Nat.mul_le_mul_left _ hn
  apply h.amount.trans
  have hcredit := h.credit
  rcases hcovered with hfree | hestimate | hover
  · rw [hfree, zero_mul]
    exact Nat.zero_le _
  · apply hreserved
    omega
  · by_cases hestimate : firstWindow params ≤ params.estimatedChunkCount
    · apply hreserved
      omega
    · have hcount : session.escrow.billedCount < params.estimatedChunkCount+1 := by
        have hbound := hfits.2
        rw [h.cost] at hbound
        exact lt_of_mul_lt_mul_left (hbound.trans_lt hover) (Nat.zero_le _)
      apply hreserved
      have hsat := h.count
      omega

theorem firstWindow_le (params : OpenStreamParams) : firstWindow params ≤ params.creditWindow := by
  unfold firstWindow
  cases effectiveMaxBillableChunks params.costPerChunk params.caveats with
  | none => exact le_rfl
  | some cap => exact min_le_left _ _

/-- `k` data chunks, each gated and then signed. -/
def dataChunks : ℕ → List SessionEvent
  | 0 => []
  | k + 1 => dataChunks k ++ [.arrive .data 0, .signed]

/-- The session after `k` data chunks of a stream that nobody grants or cancels. -/
def afterChunks (params : OpenStreamParams) (k : ℕ) : SharedSessionState :=
  { build params with
    credit := { (build params).credit with
      remaining := firstWindow params-k
      billedEmitted := k }
    escrow := ⟨params.costPerChunk, params.reservedEscrow, params.costPerChunk*k, k⟩
    nextEmissionSeq := k }

/-- The session after `k` of them, with the next one let through the gate. -/
def gatedChunk (params : OpenStreamParams) (k : ℕ) : SharedSessionState :=
  { afterChunks params k with
    credit := { (afterChunks params k).credit with remaining := firstWindow params-k-1 }
    inFlight := some ⟨k, .data⟩ }

theorem not_ceilingReached {k : ℕ} (hk : k < firstWindow params) :
    (afterChunks params k).credit.cumulativeCeilingReached = false := by
  simp only [CreditTracker.cumulativeCeilingReached, afterChunks, build, CreditTracker.new]
  cases hmax : effectiveMaxBillableChunks params.costPerChunk params.caveats with
  | none => rfl
  | some cap =>
    have hcap : k < cap := by
      simp only [firstWindow, hmax, Option.elim] at hk
      omega
    exact decide_eq_false (by omega)

theorem arrive_afterChunks {k : ℕ} (hk : k < firstWindow params) (hseq : k < u64Max) :
    (afterChunks params k).arrive .data 0 = gatedChunk params k := by
  have hgate : applyStreamChunkGate (afterChunks params k).credit (afterChunks params k).cancelAck
      (afterChunks params k).creditStallArmedAt 0 ⟨k, .data⟩ =
      (.forward, { (afterChunks params k).credit with remaining := firstWindow params-k-1 },
        none) := by
    have hlive : ¬ (afterChunks params k).cancelAck.billingCeiling ≤ k := by
      change ¬ u64Max ≤ k
      omega
    have htake : (afterChunks params k).credit.tryConsume =
        some { (afterChunks params k).credit with remaining := firstWindow params-k-1 } := by
      have hsome : (afterChunks params k).credit.remaining ≠ 0 := by
        change firstWindow params-k ≠ 0
        omega
      rw [CreditTracker.tryConsume, if_neg hsome]
      rfl
    simp only [applyStreamChunkGate, ChunkPayload.isTerminal, Bool.false_eq_true, if_false, hlive,
      not_ceilingReached hk, Bool.and_false, htake, Option.elim]
    rfl
  have hnumber : (afterChunks params k).nextEmissionSeq = k := rfl
  simp only [SharedSessionState.arrive, hnumber, hgate]
  rfl

theorem signed_gatedChunk {k : ℕ} (hseq : k < u32Max) (hcost : params.costPerChunk ≠ 0)
    (hfits : params.costPerChunk*(k+1) ≤ u64Max) :
    (gatedChunk params k).signed ⟨k, .data⟩ = afterChunks params (k+1) := by
  have hlive : ¬ u64Max ≤ k := by
    have hword : u32Max < u64Max := by decide
    omega
  have hcount : satAdd32 k 1 = k+1 := min_eq_left hseq
  have hcursor : saturatingAdd k 1 = k+1 := by
    apply min_eq_left
    omega
  have hamount : saturatingAdd (params.costPerChunk*k) params.costPerChunk =
      params.costPerChunk*(k+1) := by
    rw [saturatingAdd, ← Nat.mul_succ]
    exact min_eq_left hfits
  have hbill : isBillableChunk ⟨k, .data⟩ u64Max = true := by
    simp only [isBillableChunk, decide_true, Bool.true_and, decide_eq_true_eq]
    omega
  have hceiling : (gatedChunk params k).cancelAck.billingCeiling = u64Max := rfl
  simp only [SharedSessionState.signed, ChunkPayload.isTerminal, Bool.false_eq_true, if_false,
    SharedSessionState.bill, hceiling, hlive, hbill, if_true, accrueDataChunkIfBillable,
    StreamEscrow.accrueOneChunk, CreditTracker.recordBilledEmission]
  simp only [gatedChunk, afterChunks, hcost, hcount, hcursor, hamount, if_false, decide_false,
    Bool.and_false, Nat.sub_sub]
  rfl

theorem run_dataChunks {k : ℕ} (hk : k ≤ firstWindow params)
    (hwindow : firstWindow params ≤ u32Max) (hcost : params.costPerChunk ≠ 0)
    (hfits : params.costPerChunk*k ≤ u64Max) :
    (build params).run verify (dataChunks k) = afterChunks params k := by
  induction k with
  | zero =>
    simp only [dataChunks, run, List.foldl_nil]
    simp [afterChunks, build, reserveEscrow, hcost, StreamEscrow.fromReserved, CreditTracker.new,
      firstWindow]
  | succ k ih =>
    have hprev : params.costPerChunk*k ≤ u64Max :=
      (Nat.mul_le_mul_left _ (Nat.le_succ k)).trans hfits
    have hseq : k < u64Max := by
      have hword : u32Max < u64Max := by decide
      omega
    rw [run, dataChunks, List.foldl_append]
    change List.foldl (step verify) (run verify (build params) (dataChunks k))
      [.arrive .data 0, .signed] = _
    rw [ih (by omega) hprev]
    change step verify ((afterChunks params k).arrive .data 0) .signed = _
    rw [arrive_afterChunks (by omega) hseq]
    exact signed_gatedChunk (by omega) hcost hfits

variable (verify) in
/-- A stream stays within its hold on every run exactly when the estimate covers the
first window: the hold is sized by the estimate, and the credit is not. -/
theorem stream_within_hold_iff (params : OpenStreamParams) (hwindow : params.creditWindow ≤ u32Max)
    (hreserved : params.reservedEscrow = params.costPerChunk*params.estimatedChunkCount) :
    (∀ events, NoOverflow ((build params).run verify events) →
      WithinHold ((build params).run verify events)) ↔ Covered params := by
  have hfirst := (firstWindow_le params).trans hwindow
  constructor
  · intro hall
    by_contra hnot
    simp only [Covered, not_or, not_le, not_lt] at hnot
    obtain ⟨hcost, hestimate, hfits⟩ := hnot
    -- One chunk more than the estimate, all of it inside the first window.
    have hrun : (build params).run verify (dataChunks (params.estimatedChunkCount+1)) =
        afterChunks params (params.estimatedChunkCount+1) :=
      run_dataChunks hestimate hfirst hcost hfits
    have hheld := hall (dataChunks (params.estimatedChunkCount+1)) (by
      rw [hrun]
      refine ⟨?_, hfits⟩
      change params.reservedEscrow ≤ u64Max
      rw [hreserved]
      exact (Nat.mul_le_mul_left _ (Nat.le_succ _)).trans hfits)
    have hbilled := hheld.billed
    rw [hrun] at hbilled
    change params.costPerChunk*(params.estimatedChunkCount+1) ≤ params.reservedEscrow at hbilled
    rw [hreserved] at hbilled
    have hle := Nat.le_of_mul_le_mul_left hbilled (Nat.pos_of_ne_zero hcost)
    omega
  · intro hcovered events hfits
    obtain ⟨billed, granted, hheld⟩ := (held_build hreserved).run verify events
    exact hheld.withinHold hfirst hcovered hfits

/-- A stream at cost ten with a window of four chunks, and a hold for the estimate. -/
def sampleStream (estimate : ℕ) : OpenStreamParams where
  costPerChunk := 10
  estimatedChunkCount := estimate
  creditWindow := 4
  caveats := InvocationCaveats.empty
  identity := ⟨"c1", "feed", 0, []⟩
  reservedEscrow := 10*estimate

/-- With the whole window estimated, every run is within the hold. -/
theorem full_estimate_within_hold :
    (sampleStream 4).reservedEscrow = (sampleStream 4).costPerChunk*4 ∧
    ∀ events, NoOverflow ((build (sampleStream 4)).run (fun _ _ => true) events) →
      WithinHold ((build (sampleStream 4)).run (fun _ _ => true) events) :=
  ⟨rfl, (stream_within_hold_iff (fun _ _ => true) (sampleStream 4) (by decide) rfl).mpr
    (Or.inr (Or.inl (by decide)))⟩

/-- With one chunk estimated, the second one is billed past the hold. -/
theorem second_chunk_past_hold :
    enforceEstimatedChunkCountBound 1 4 InvocationCaveats.empty = .ok () ∧
      NoOverflow ((build (sampleStream 1)).run (fun _ _ => true) (dataChunks 2)) ∧
      ((build (sampleStream 1)).run (fun _ _ => true) (dataChunks 2)).escrow.reserved = 10 ∧
      ((build (sampleStream 1)).run (fun _ _ => true) (dataChunks 2)).escrow.billed = 20 ∧
      ((build (sampleStream 1)).run (fun _ _ => true) (dataChunks 2)).debited = 10 ∧
      ((build (sampleStream 1)).run (fun _ _ => true) (dataChunks 2)).receipt 2 = (20, 0) := by
  refine ⟨by decide, ⟨by decide, by decide⟩, by decide, by decide, by decide, by decide⟩

end SharedSessionState

end ScpCore.Outlets
