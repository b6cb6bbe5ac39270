import ScpCore.CaveatCounters
import ScpCore.StreamEscrow

/-! The cumulative value caveat over the streams of one delegation. A stream reserves its
worst case when it is opened, is stopped at that many chunks, and gives back at its close
what it has not billed. -/

namespace ScpCore.Caveats

namespace CaveatCounters

/-- Saturates at 0; the timestamps of a rate window age out by time alone. -/
def release (counters : CaveatCounters) (kind : CaveatKind) (amount : ℕ) : CaveatCounters :=
  match kind with
  | .amountCumulative =>
    { counters with amountCumulativeUsed := counters.amountCumulativeUsed-amount }
  | .maxCalls => { counters with maxCallsUsed := counters.maxCallsUsed-amount }
  | .rateWindow => counters

theorem release_amount (counters : CaveatCounters) (amount : ℕ) :
    (counters.release .amountCumulative amount).amountCumulativeUsed =
      counters.amountCumulativeUsed-amount := rfl

theorem tryConsume_maxCalls_amount (counters : CaveatCounters) (amount cap windowSecs now : ℕ) :
    (counters.tryConsume .maxCalls amount cap windowSecs now).2.amountCumulativeUsed =
      counters.amountCumulativeUsed := by
  simp only [tryConsume]
  split_ifs <;> rfl

theorem tryConsume_rateWindow_amount (counters : CaveatCounters)
    (amount cap windowSecs now : ℕ) :
    (counters.tryConsume .rateWindow amount cap windowSecs now).2.amountCumulativeUsed =
      counters.amountCumulativeUsed := by
  simp only [tryConsume]
  split_ifs <;> rfl

/-- Below the top of the range a saturated sum is over the cap, so an admitted charge is
added in full. -/
theorem tryConsume_amountCumulative_ok {counters counters' : CaveatCounters}
    {amount cap windowSecs now : ℕ} (hcap : cap < u64Max)
    (h : counters.tryConsume .amountCumulative amount cap windowSecs now = (.ok (), counters')) :
    counters'.amountCumulativeUsed = counters.amountCumulativeUsed+amount ∧
      counters.amountCumulativeUsed+amount ≤ cap := by
  by_cases hover : cap < saturatingAdd counters.amountCumulativeUsed amount
  · simp [tryConsume, hover] at h
  · simp only [tryConsume, if_neg hover, Prod.mk.injEq, true_and] at h
    rw [saturatingAdd] at h hover
    rw [← h]
    dsimp only
    omega

theorem tryConsume_amountCumulative_error {counters counters' : CaveatCounters}
    {amount cap windowSecs now : ℕ} {err : CounterExhausted}
    (h : counters.tryConsume .amountCumulative amount cap windowSecs now =
      (.error err, counters')) : counters' = counters := by
  by_cases hover : cap < saturatingAdd counters.amountCumulativeUsed amount
  · simp only [tryConsume, if_pos hover, Prod.mk.injEq] at h
    exact h.2.symm
  · simp [tryConsume, hover] at h

end CaveatCounters

end ScpCore.Caveats

namespace ScpCore.Outlets

open Caveats

/-- The worst case that a stream can bill, where there is a cap on the value. -/
def cumulativeReserveAmount (costPerChunk : ℕ) (caveats : InvocationCaveats) : Option ℕ :=
  caveats.amountMaxCumulative.map fun cap =>
    if costPerChunk = 0 then 0
    else
      let ceiling := (effectiveMaxBillableChunks costPerChunk caveats).getD
        (min (cap/costPerChunk) u32Max)
      min (ceiling*costPerChunk) u64Max

structure CounterCommitOutcome where
  amountCumulativeReserved : ℕ
  reservedChunks : ℕ
  deriving DecidableEq

/-- The rate window comes last; where it refuses, the charges before it are released. -/
def commitRateWindow (caveats : InvocationCaveats) (now amountCumulativeReserved
    estimatedChunkCount : ℕ) (counters : CaveatCounters) :
    Except CounterExhausted CounterCommitOutcome × CaveatCounters :=
  match caveats.rateWindow with
  | none => (.ok ⟨amountCumulativeReserved, estimatedChunkCount⟩, counters)
  | some window =>
    match counters.tryConsume .rateWindow 0 window.max.toNat window.windowSecs.toNat now with
    | (.ok _, counters') => (.ok ⟨amountCumulativeReserved, estimatedChunkCount⟩, counters')
    | (.error err, counters') =>
      let released :=
        if caveats.maxCalls.isSome then counters'.release .maxCalls 1 else counters'
      (.error err,
        if 0 < amountCumulativeReserved then
          released.release .amountCumulative amountCumulativeReserved
        else released)

/-- The value cap comes second; where it refuses, the call before it is released. -/
def commitAmountCumulative (caveats : InvocationCaveats) (costPerChunk estimatedChunkCount
    now : ℕ) (counters : CaveatCounters) :
    Except CounterExhausted CounterCommitOutcome × CaveatCounters :=
  match cumulativeReserveAmount costPerChunk caveats, caveats.amountMaxCumulative with
  | some reserve, some cap =>
    match counters.tryConsume .amountCumulative reserve cap 0 now with
    | (.ok _, counters') => commitRateWindow caveats now reserve estimatedChunkCount counters'
    | (.error err, counters') =>
      (.error err, if caveats.maxCalls.isSome then counters'.release .maxCalls 1 else counters')
  | _, _ => commitRateWindow caveats now 0 estimatedChunkCount counters

/-- The last gate of an open: one call, the worst case of the value, one entry of the rate
window. -/
def commitCounterReservation (caveats : InvocationCaveats) (costPerChunk estimatedChunkCount
    now : ℕ) (counters : CaveatCounters) :
    Except CounterExhausted CounterCommitOutcome × CaveatCounters :=
  match caveats.maxCalls with
  | none => commitAmountCumulative caveats costPerChunk estimatedChunkCount now counters
  | some max =>
    match counters.tryConsume .maxCalls 1 max 0 now with
    | (.ok _, counters') =>
      commitAmountCumulative caveats costPerChunk estimatedChunkCount now counters'
    | (.error err, counters') => (.error err, counters')

/-- What the close gives back; nothing where the product overflows. -/
def unspentReleaseAmount (amountCumulativeReserved billedCount costPerChunk : ℕ) : ℕ :=
  if billedCount*costPerChunk ≤ u64Max then amountCumulativeReserved-billedCount*costPerChunk
  else 0

section Reserve
variable {caveats : InvocationCaveats} {costPerChunk cap : ℕ}

/-- With a cap on the value there is a ceiling on the chunks, and the reserve is its price. -/
theorem reserve_eq (hcost : 0 < costPerChunk) (hcap : caveats.amountMaxCumulative = some cap)
    (hfits : cap ≤ u64Max) :
    ∃ ceiling, effectiveMaxBillableChunks costPerChunk caveats = some ceiling ∧
      ceiling ≤ u32Max ∧ ceiling*costPerChunk ≤ cap ∧
      cumulativeReserveAmount costPerChunk caveats = some (ceiling*costPerChunk) := by
  have hdiv : cap/costPerChunk*costPerChunk ≤ cap := Nat.div_mul_le_self cap costPerChunk
  obtain ⟨ceiling, hceiling, hle⟩ : ∃ ceiling,
      effectiveMaxBillableChunks costPerChunk caveats = some ceiling ∧
      ceiling ≤ min (cap/costPerChunk) u32Max := by
    rw [effectiveMaxBillableChunks, hcap]
    simp only [Option.bind_some, if_pos hcost]
    cases caveats.maxCalls with
    | none => exact ⟨_, rfl, le_rfl⟩
    | some max => exact ⟨_, rfl, min_le_right _ _⟩
  have hprice : ceiling*costPerChunk ≤ cap :=
    (Nat.mul_le_mul_right costPerChunk (hle.trans (min_le_left _ _))).trans hdiv
  refine ⟨ceiling, hceiling, hle.trans (min_le_right _ _), hprice, ?_⟩
  rw [cumulativeReserveAmount, hcap]
  simp only [Option.map_some, hceiling, Option.getD_some, if_neg hcost.ne']
  rw [min_eq_left (hprice.trans hfits)]

end Reserve

section Commit
variable {caveats : InvocationCaveats} {costPerChunk cap estimate now reserve : ℕ}
  {counters : CaveatCounters}

/-- An open either charges the whole reserve or leaves the amount as it was. -/
structure Charges (used reserve cap : ℕ)
    (result : Except CounterExhausted CounterCommitOutcome × CaveatCounters) : Prop where
  ok : ∀ outcome, result.1 = .ok outcome →
    outcome.amountCumulativeReserved = reserve ∧
      result.2.amountCumulativeUsed = used+reserve ∧ used+reserve ≤ cap
  error : ∀ err, result.1 = .error err → result.2.amountCumulativeUsed = used

theorem Charges.of_ok {used : ℕ} {outcome : CounterCommitOutcome}
    (hreserved : outcome.amountCumulativeReserved = reserve)
    (hused : counters.amountCumulativeUsed = used+reserve) (hle : used+reserve ≤ cap) :
    Charges used reserve cap (.ok outcome, counters) := by
  refine ⟨fun outcome' h => ?_, fun err h => by cases h⟩
  cases h
  exact ⟨hreserved, hused, hle⟩

theorem Charges.of_error {used : ℕ} {err : CounterExhausted}
    (hused : counters.amountCumulativeUsed = used) :
    Charges used reserve cap (.error err, counters) := by
  refine ⟨fun outcome h => ?_, fun _ _ => hused⟩
  cases h

theorem commitRateWindow_charges {used : ℕ}
    (hused : counters.amountCumulativeUsed = used+reserve) (hle : used+reserve ≤ cap) :
    Charges used reserve cap (commitRateWindow caveats now reserve estimate counters) := by
  rw [commitRateWindow]
  cases caveats.rateWindow with
  | none => exact Charges.of_ok rfl hused hle
  | some window =>
    have hamount := counters.tryConsume_rateWindow_amount 0 window.max.toNat
      window.windowSecs.toNat now
    rw [hused] at hamount
    rcases htry : counters.tryConsume .rateWindow 0 window.max.toNat window.windowSecs.toNat now
      with ⟨err | ok, counters'⟩
    · rw [htry] at hamount
      dsimp only at hamount ⊢
      rw [htry]
      apply Charges.of_error
      have hcalls : (if caveats.maxCalls.isSome then counters'.release .maxCalls 1
          else counters').amountCumulativeUsed = used+reserve := by
        split_ifs <;> exact hamount
      -- The release of the reserve is exact: it has just been charged.
      by_cases hpos : 0 < reserve
      · rw [if_pos hpos, CaveatCounters.release_amount, hcalls, Nat.add_sub_cancel]
      · rw [if_neg hpos, hcalls]
        omega
    · rw [htry] at hamount
      dsimp only at hamount ⊢
      rw [htry]
      exact Charges.of_ok rfl hamount hle

theorem commitAmountCumulative_charges (hcap : caveats.amountMaxCumulative = some cap)
    (hlt : cap < u64Max) (hreserve : cumulativeReserveAmount costPerChunk caveats = some reserve) :
    Charges counters.amountCumulativeUsed reserve cap
      (commitAmountCumulative caveats costPerChunk estimate now counters) := by
  rw [commitAmountCumulative, hreserve, hcap]
  rcases htry : counters.tryConsume .amountCumulative reserve cap 0 now with ⟨err | ok, counters'⟩
  · have hsame := CaveatCounters.tryConsume_amountCumulative_error htry
    dsimp only
    rw [htry]
    apply Charges.of_error
    rw [hsame]
    split_ifs <;> rfl
  · dsimp only
    rw [htry]
    obtain ⟨hused, hle⟩ := CaveatCounters.tryConsume_amountCumulative_ok hlt htry
    exact commitRateWindow_charges hused hle

theorem commitCounterReservation_charges (hcap : caveats.amountMaxCumulative = some cap)
    (hlt : cap < u64Max) (hreserve : cumulativeReserveAmount costPerChunk caveats = some reserve) :
    Charges counters.amountCumulativeUsed reserve cap
      (commitCounterReservation caveats costPerChunk estimate now counters) := by
  rw [commitCounterReservation]
  cases caveats.maxCalls with
  | none => exact commitAmountCumulative_charges hcap hlt hreserve
  | some max =>
    have hamount := counters.tryConsume_maxCalls_amount 1 max 0 now
    rcases htry : counters.tryConsume .maxCalls 1 max 0 now with ⟨err | ok, counters'⟩
    · rw [htry] at hamount
      dsimp only at hamount ⊢
      rw [htry]
      exact Charges.of_error hamount
    · rw [htry] at hamount
      dsimp only at hamount ⊢
      rw [htry, ← hamount]
      exact commitAmountCumulative_charges hcap hlt hreserve

end Commit

namespace SharedSessionState

/-- The chunks billed are those counted against the ceiling, and a data chunk in flight has
room below it. -/
structure Ceiled (ceiling : ℕ) (session : SharedSessionState) : Prop where
  maxBillable : session.credit.maxBillable = some ceiling
  counted : session.escrow.billedCount = session.credit.billedEmitted
  within : session.credit.billedEmitted ≤ ceiling
  inFlight : ∀ chunk, session.inFlight = some chunk → chunk.payload = .data →
    session.credit.billedEmitted < ceiling

variable {verify : OutletStreamCredit → StreamIdentity → Bool} {session : SharedSessionState}
  {ceiling : ℕ}

theorem ceiled_build {params : OpenStreamParams}
    (h : effectiveMaxBillableChunks params.costPerChunk params.caveats = some ceiling) :
    Ceiled ceiling (build params) := by
  refine ⟨h, ?_, Nat.zero_le _, fun chunk hchunk => ?_⟩
  · simp only [build, reserveEscrow, CreditTracker.new]
    split_ifs <;> rfl
  · cases hchunk

theorem grantWithIdentity_billed {credit credit' : CreditTracker} {grant : OutletStreamCredit}
    {expected : StreamIdentity}
    (h : credit.grantWithIdentity verify grant expected = .ok credit') :
    credit'.maxBillable = credit.maxBillable ∧ credit'.billedEmitted = credit.billedEmitted := by
  simp only [CreditTracker.grantWithIdentity, bind_ok_iff, exists_unit_iff] at h
  obtain ⟨_, h⟩ := h
  split_ifs at h
  rw [pure_ok_iff] at h
  rw [← h]
  exact ⟨rfl, rfl⟩

theorem Ceiled.grant (h : Ceiled ceiling session) {grant : OutletStreamCredit} {topUp : ℕ}
    {session' : SharedSessionState}
    (hok : session.applyCreditGrant verify grant topUp = .ok session') :
    Ceiled ceiling session' := by
  simp only [applyCreditGrant, bind_ok_iff, exists_unit_iff, pure_ok_iff] at hok
  obtain ⟨_, credit, hcredit, rfl⟩ := hok
  obtain ⟨hmax, hbilled⟩ := grantWithIdentity_billed hcredit
  refine ⟨hmax.trans h.maxBillable, ?_, ?_, ?_⟩
  · exact h.counted.trans hbilled.symm
  · exact hbilled.le.trans h.within
  · intro chunk hchunk hdata
    exact hbilled.trans_lt (h.inFlight chunk hchunk hdata)

/-- The gate leaves the count, and lets a data chunk through only below the ceiling. -/
theorem gate_billed (credit : CreditTracker) (cancelAck : CancelState) (armed : Option Instant)
    (now : Instant) (chunk : OutletStreamChunk) :
    let result := applyStreamChunkGate credit cancelAck armed now chunk
    result.2.1.maxBillable = credit.maxBillable ∧
      result.2.1.billedEmitted = credit.billedEmitted ∧
      (result.1 = .forward → chunk.payload = .data →
        credit.cumulativeCeilingReached = false) := by
  intro result
  by_cases hterminal : chunk.payload.isTerminal = true
  · have hresult : result = (.forward, credit, armed) := if_pos hterminal
    rw [hresult]
    refine ⟨rfl, rfl, fun _ hdata => ?_⟩
    rw [hdata] at hterminal
    cases hterminal
  have hrest : result = if cancelAck.billingCeiling ≤ chunk.sequence then
      (.dropAboveCancelAck, credit, armed)
    else if isBillableChunk chunk cancelAck.billingCeiling && credit.cumulativeCeilingReached then
      (.creditExhausted, credit, armed)
    else credit.tryConsume.elim (.stall, credit, armed.or (some now))
      (fun taken => (.forward, taken, armed)) := if_neg hterminal
  by_cases habove : cancelAck.billingCeiling ≤ chunk.sequence
  · rw [hrest, if_pos habove]
    simp
  rw [if_neg habove] at hrest
  by_cases hceiling :
      (isBillableChunk chunk cancelAck.billingCeiling && credit.cumulativeCeilingReached) = true
  · rw [hrest, if_pos hceiling]
    simp
  rw [if_neg hceiling] at hrest
  -- A data chunk below the cancel point is billable, so the ceiling is what let it through.
  have hbelow : chunk.payload = .data → credit.cumulativeCeilingReached = false := by
    intro hdata
    have hbillable : isBillableChunk chunk cancelAck.billingCeiling = true := by
      simp [isBillableChunk, hdata, (not_le.mp habove).le]
    simpa [hbillable] using hceiling
  rw [hrest]
  by_cases hempty : credit.remaining = 0
  · simp [CreditTracker.tryConsume, hempty]
  · simp only [CreditTracker.tryConsume, if_neg hempty, Option.elim]
    exact ⟨trivial, trivial, fun _ hdata => hbelow hdata⟩

theorem Ceiled.arrive (h : Ceiled ceiling session) (payload : ChunkPayload) (now : Instant) :
    Ceiled ceiling (session.arrive payload now) := by
  have hgate := gate_billed session.credit session.cancelAck session.creditStallArmedAt now
    ⟨session.nextEmissionSeq, payload⟩
  dsimp only at hgate
  obtain ⟨hmax, hbilled, hforward⟩ := hgate
  refine ⟨hmax.trans h.maxBillable, h.counted.trans hbilled.symm, hbilled.le.trans h.within, ?_⟩
  intro chunk hchunk hdata
  simp only [SharedSessionState.arrive] at hchunk
  split_ifs at hchunk with hout
  cases hchunk
  have hbelow := hforward hout hdata
  simp only [CreditTracker.cumulativeCeilingReached, h.maxBillable, Option.elim,
    decide_eq_false_iff_not, not_le] at hbelow
  exact hbilled.trans_lt hbelow

theorem Ceiled.bill (h : Ceiled ceiling session) (hle : ceiling ≤ u32Max)
    {chunk : OutletStreamChunk} (hchunk : session.inFlight = some chunk) :
    Ceiled ceiling (session.bill chunk) := by
  by_cases hdrop : (!chunk.payload.isTerminal &&
      session.cancelAck.billingCeiling ≤ chunk.sequence) = true
  · rw [SharedSessionState.bill, if_pos hdrop]
    exact ⟨h.maxBillable, h.counted, h.within, fun _ hnone => by cases hnone⟩
  rw [SharedSessionState.bill, if_neg hdrop]
  by_cases hbill : isBillableChunk chunk session.cancelAck.billingCeiling = true
  · have hdata : chunk.payload = .data := by
      simp only [isBillableChunk, Bool.and_eq_true, decide_eq_true_eq] at hbill
      exact hbill.1
    have hroom := h.inFlight chunk hchunk hdata
    have hcount : satAdd32 session.credit.billedEmitted 1 = session.credit.billedEmitted+1 :=
      min_eq_left (hroom.trans_le hle)
    rw [if_pos hbill]
    refine ⟨h.maxBillable, ?_, ?_, fun _ hnone => by cases hnone⟩
    · dsimp only
      rw [accrueDataChunkIfBillable, if_pos hbill, accrueOneChunk_billedCount, h.counted]
      rfl
    · calc
        (session.credit.recordBilledEmission).billedEmitted
            = session.credit.billedEmitted+1 := hcount
        _ ≤ ceiling := hroom
  · rw [if_neg hbill]
    refine ⟨h.maxBillable, ?_, h.within, fun _ hnone => by cases hnone⟩
    dsimp only
    rw [accrueDataChunkIfBillable, if_neg hbill, h.counted]

theorem Ceiled.settle (h : Ceiled ceiling session) : Ceiled ceiling session.settle :=
  ⟨h.maxBillable, h.counted, h.within, fun _ hnone => by cases hnone⟩

theorem Ceiled.step (h : Ceiled ceiling session) (hle : ceiling ≤ u32Max)
    (event : SessionEvent) : Ceiled ceiling (session.step verify event) := by
  cases event with
  | grant credit =>
    simp only [SharedSessionState.step]
    cases hok : session.applyCreditGrant verify credit
        (session.escrow.costPerChunk*credit.grant) with
    | error err => exact h
    | ok session' => exact h.grant hok
  | cancel nextSeq => exact ⟨h.maxBillable, h.counted, h.within, h.inFlight⟩
  | arrive payload now =>
    simp only [SharedSessionState.step]
    split_ifs
    · exact h
    · exact h.arrive payload now
  | signed =>
    cases hchunk : session.inFlight with
    | none => simpa [SharedSessionState.step, hchunk] using h
    | some chunk =>
      simp only [SharedSessionState.step, hchunk, Option.elim, SharedSessionState.signed]
      split_ifs
      · exact (h.bill hle hchunk).settle
      · exact h.bill hle hchunk
  | close => exact h.settle

end SharedSessionState

/-- A stream with the amount it has reserved, and whether its settlement has run. -/
structure OpenedStream where
  session : SharedSessionState
  reserved : ℕ
  closed : Bool

/-- The counters of one delegation and the streams opened under it. -/
structure CaveatLedger where
  counters : CaveatCounters
  streams : List OpenedStream

inductive LedgerEvent
  | reserve (creditWindow estimatedChunkCount reservedEscrow : ℕ) (identity : StreamIdentity)
      (now : ℕ)
  | stream (i : ℕ) (event : SessionEvent)
  | settle (i : ℕ)

namespace CaveatLedger

def empty : CaveatLedger := ⟨.empty, []⟩

variable (verify : OutletStreamCredit → StreamIdentity → Bool) (costPerChunk : ℕ)
  (caveats : InvocationCaveats)

/-- The settlement runs once: the pump has exited, and the counter gets back what was not
billed. -/
def settleStream (ledger : CaveatLedger) (i : ℕ) (s : OpenedStream) : CaveatLedger :=
  let unspent := unspentReleaseAmount s.reserved s.session.escrow.billedCount costPerChunk
  { counters :=
      if 0 < unspent then ledger.counters.release .amountCumulative unspent else ledger.counters
    streams := ledger.streams.set i { s with session := s.session.settle, closed := true } }

def step (ledger : CaveatLedger) : LedgerEvent → CaveatLedger
  | .reserve creditWindow estimatedChunkCount reservedEscrow identity now =>
    match commitCounterReservation caveats costPerChunk estimatedChunkCount now
        ledger.counters with
    | (.ok outcome, counters) =>
      let params : OpenStreamParams :=
        ⟨costPerChunk, estimatedChunkCount, creditWindow, caveats, identity, reservedEscrow⟩
      { counters := counters
        streams := ledger.streams ++
          [⟨SharedSessionState.build params, outcome.amountCumulativeReserved, false⟩] }
    | (.error _, counters) => { ledger with counters := counters }
  | .stream i event =>
    match ledger.streams[i]? with
    | some s =>
      { ledger with
        streams := ledger.streams.set i { s with session := s.session.step verify event } }
    | none => ledger
  | .settle i =>
    match ledger.streams[i]? with
    | some s => if s.closed then ledger else ledger.settleStream costPerChunk i s
    | none => ledger

def run (ledger : CaveatLedger) (events : List LedgerEvent) : CaveatLedger :=
  events.foldl (step verify costPerChunk caveats) ledger

/-- What a stream stands for in the counter: its bill once it is closed, its reserve before. -/
def charge (s : OpenedStream) : ℕ :=
  if s.closed then costPerChunk*s.session.escrow.billedCount else s.reserved

/-- The pump is gone, and nothing is left to bill. -/
def Done (session : SharedSessionState) : Prop :=
  session.pumpExited = true ∧ session.inFlight = none

structure StreamOk (ceiling : ℕ) (s : OpenedStream) : Prop where
  ceiled : s.session.Ceiled ceiling
  reserved : s.reserved = ceiling*costPerChunk
  done : s.closed = true → Done s.session

/-- The invariant of a ledger whose streams are stopped at `ceiling`. -/
structure Exact (ceiling cap : ℕ) (ledger : CaveatLedger) : Prop where
  streams : ∀ s ∈ ledger.streams, StreamOk costPerChunk ceiling s
  used : ledger.counters.amountCumulativeUsed = (ledger.streams.map (charge costPerChunk)).sum
  within : ledger.counters.amountCumulativeUsed ≤ cap

end CaveatLedger

/-- Replacing one element moves a sum by the difference of the two. -/
theorem sum_map_set {α : Type} (f : α → ℕ) (b : α) : ∀ {l : List α} {i : ℕ} {a : α},
    l[i]? = some a → ((l.set i b).map f).sum+f a = (l.map f).sum+f b := by
  intro l
  induction l with
  | nil =>
    intro i a h
    simp at h
  | cons x l ih =>
    intro i a h
    cases i with
    | zero =>
      simp only [List.getElem?_cons_zero, Option.some.injEq] at h
      subst h
      simp only [List.set_cons_zero, List.map_cons, List.sum_cons]
      omega
    | succ i =>
      rw [List.getElem?_cons_succ] at h
      have hrest := ih h
      simp only [List.set_cons_succ, List.map_cons, List.sum_cons]
      omega

namespace CaveatLedger
variable {verify : OutletStreamCredit → StreamIdentity → Bool} {costPerChunk : ℕ}
  {caveats : InvocationCaveats} {ceiling cap : ℕ} {ledger : CaveatLedger}

theorem Done.step {session : SharedSessionState} (h : Done session) (event : SessionEvent) :
    Done (session.step verify event) ∧
      (session.step verify event).escrow.billedCount = session.escrow.billedCount := by
  obtain ⟨hexited, hidle⟩ := h
  cases event with
  | grant credit =>
    have hrefused : session.applyCreditGrant verify credit
        (session.escrow.costPerChunk*credit.grant) = .error .streamClosed := by
      simp [SharedSessionState.applyCreditGrant, hexited, require, bind, Except.bind]
    rw [SharedSessionState.step, hrefused]
    exact ⟨⟨hexited, hidle⟩, rfl⟩
  | cancel nextSeq => exact ⟨⟨hexited, hidle⟩, rfl⟩
  | arrive payload now =>
    rw [SharedSessionState.step, if_pos (by simp [hexited])]
    exact ⟨⟨hexited, hidle⟩, rfl⟩
  | signed =>
    rw [SharedSessionState.step, hidle]
    exact ⟨⟨hexited, hidle⟩, rfl⟩
  | close => exact ⟨⟨rfl, rfl⟩, rfl⟩

/-- The step of one stream, with a new record in its place. -/
theorem Exact.set (h : Exact costPerChunk ceiling cap ledger) {i : ℕ} {s s' : OpenedStream}
    (hs : ledger.streams[i]? = some s) (hok : StreamOk costPerChunk ceiling s')
    {counters : CaveatCounters}
    (hused : counters.amountCumulativeUsed+charge costPerChunk s =
      ledger.counters.amountCumulativeUsed+charge costPerChunk s')
    (hle : charge costPerChunk s' ≤ charge costPerChunk s) :
    Exact costPerChunk ceiling cap ⟨counters, ledger.streams.set i s'⟩ := by
  have hsum := sum_map_set (charge costPerChunk) s' hs
  have hbefore := h.used
  have hwithin := h.within
  refine ⟨?_, ?_, ?_⟩
  · intro t ht
    rcases List.mem_or_eq_of_mem_set ht with hold | rfl
    · exact h.streams t hold
    · exact hok
  · dsimp only
    omega
  · dsimp only
    omega

theorem Exact.stream (h : Exact costPerChunk ceiling cap ledger) (hle : ceiling ≤ u32Max)
    {i : ℕ} {s : OpenedStream} (hs : ledger.streams[i]? = some s) (event : SessionEvent) :
    Exact costPerChunk ceiling cap
      ⟨ledger.counters, ledger.streams.set i { s with session := s.session.step verify event }⟩ := by
  have hok := h.streams s (List.mem_of_getElem? hs)
  have hcharge : charge costPerChunk { s with session := s.session.step verify event } =
      charge costPerChunk s := by
    simp only [charge]
    split_ifs with hclosed
    · rw [((hok.done hclosed).step event).2]
    · rfl
  apply h.set hs
  · refine ⟨hok.ceiled.step hle event, hok.reserved, fun hclosed => ?_⟩
    exact ((hok.done hclosed).step event).1
  · rw [hcharge]
  · exact hcharge.le

theorem Exact.settle (h : Exact costPerChunk ceiling cap ledger)
    (hfits : ceiling*costPerChunk ≤ u64Max) {i : ℕ} {s : OpenedStream}
    (hs : ledger.streams[i]? = some s) (hopen : s.closed = false) :
    Exact costPerChunk ceiling cap (ledger.settleStream costPerChunk i s) := by
  have hmem := List.mem_of_getElem? hs
  have hok := h.streams s hmem
  have hbilled : s.session.escrow.billedCount*costPerChunk ≤ s.reserved := by
    rw [hok.reserved, hok.ceiled.counted]
    exact Nat.mul_le_mul_right costPerChunk hok.ceiled.within
  have hunspent : unspentReleaseAmount s.reserved s.session.escrow.billedCount costPerChunk =
      s.reserved-s.session.escrow.billedCount*costPerChunk := by
    rw [unspentReleaseAmount, if_pos]
    rw [hok.reserved] at hbilled
    exact hbilled.trans hfits
  have hafter : charge costPerChunk { s with session := s.session.settle, closed := true } =
      s.session.escrow.billedCount*costPerChunk := by
    simp [charge, SharedSessionState.settle, Nat.mul_comm]
  have hbefore : charge costPerChunk s = s.reserved := by
    simp [charge, hopen]
  -- The stream's own reserve is part of the counter, so the release does not saturate.
  have hpart : s.reserved ≤ ledger.counters.amountCumulativeUsed := by
    rw [h.used, ← hbefore]
    exact List.single_le_sum (fun _ _ => Nat.zero_le _) _ (List.mem_map_of_mem hmem)
  apply h.set hs
  · exact ⟨hok.ceiled.settle, hok.reserved, fun _ => ⟨rfl, rfl⟩⟩
  · rw [hafter, hbefore, hunspent]
    split_ifs with hpos
    · rw [CaveatCounters.release_amount]
      omega
    · omega
  · rw [hafter, hbefore]
    exact hbilled

theorem Exact.reserve (h : Exact costPerChunk ceiling cap ledger)
    (hceiling : effectiveMaxBillableChunks costPerChunk caveats = some ceiling)
    (hcap : caveats.amountMaxCumulative = some cap) (hlt : cap < u64Max)
    (hreserve : cumulativeReserveAmount costPerChunk caveats = some (ceiling*costPerChunk))
    (creditWindow estimate reservedEscrow : ℕ) (identity : StreamIdentity) (now : ℕ) :
    Exact costPerChunk ceiling cap (step verify costPerChunk caveats ledger
      (.reserve creditWindow estimate reservedEscrow identity now)) := by
  have hcharges : Charges ledger.counters.amountCumulativeUsed (ceiling*costPerChunk) cap
      (commitCounterReservation caveats costPerChunk estimate now ledger.counters) :=
    commitCounterReservation_charges hcap hlt hreserve
  have hused := h.used
  rcases hcommit : commitCounterReservation caveats costPerChunk estimate now ledger.counters
    with ⟨err | outcome, counters⟩
  · have hsame := hcharges.error err (by rw [hcommit])
    rw [hcommit] at hsame
    simp only [CaveatLedger.step, hcommit]
    exact ⟨h.streams, hsame.trans hused, hsame.le.trans h.within⟩
  · obtain ⟨hreserved, hcharged, hle⟩ := hcharges.ok outcome (by rw [hcommit])
    rw [hcommit] at hcharged
    simp only [CaveatLedger.step, hcommit]
    refine ⟨?_, ?_, hcharged.le.trans hle⟩
    · intro s hs
      rcases List.mem_append.mp hs with hold | hnew
      · exact h.streams s hold
      · rw [List.mem_singleton.mp hnew]
        exact ⟨SharedSessionState.ceiled_build hceiling, hreserved, fun hclosed => by cases hclosed⟩
    · dsimp only at hcharged ⊢
      rw [hcharged, hused, List.map_append, List.sum_append]
      simp [charge, hreserved]

theorem Exact.step (h : Exact costPerChunk ceiling cap ledger)
    (hceiling : effectiveMaxBillableChunks costPerChunk caveats = some ceiling)
    (hcap : caveats.amountMaxCumulative = some cap) (hlt : cap < u64Max)
    (hreserve : cumulativeReserveAmount costPerChunk caveats = some (ceiling*costPerChunk))
    (hle : ceiling ≤ u32Max) (hfits : ceiling*costPerChunk ≤ u64Max) (event : LedgerEvent) :
    Exact costPerChunk ceiling cap (ledger.step verify costPerChunk caveats event) := by
  cases event with
  | reserve creditWindow estimate reservedEscrow identity now =>
    exact h.reserve hceiling hcap hlt hreserve creditWindow estimate reservedEscrow identity now
  | stream i event =>
    simp only [CaveatLedger.step]
    cases hs : ledger.streams[i]? with
    | none => exact h
    | some s => exact h.stream hle hs event
  | settle i =>
    simp only [CaveatLedger.step]
    cases hs : ledger.streams[i]? with
    | none => exact h
    | some s =>
      dsimp only
      split_ifs with hclosed
      · exact h
      · exact h.settle hfits hs (by simpa using hclosed)

theorem Exact.run (h : Exact costPerChunk ceiling cap ledger)
    (hceiling : effectiveMaxBillableChunks costPerChunk caveats = some ceiling)
    (hcap : caveats.amountMaxCumulative = some cap) (hlt : cap < u64Max)
    (hreserve : cumulativeReserveAmount costPerChunk caveats = some (ceiling*costPerChunk))
    (hle : ceiling ≤ u32Max) (hfits : ceiling*costPerChunk ≤ u64Max)
    (events : List LedgerEvent) :
    Exact costPerChunk ceiling cap (ledger.run verify costPerChunk caveats events) := by
  induction events generalizing ledger with
  | nil => exact h
  | cons event events ih => exact ih (h.step hceiling hcap hlt hreserve hle hfits event)

/-- The charges of the closed and of the open streams. -/
theorem sum_charge (streams : List OpenedStream) :
    (streams.map (charge costPerChunk)).sum =
      ((streams.filter (·.closed)).map
        (fun s => costPerChunk*s.session.escrow.billedCount)).sum+
      ((streams.filter (!·.closed)).map (·.reserved)).sum := by
  induction streams with
  | nil => rfl
  | cons s streams ih =>
    rw [List.map_cons, List.sum_cons, ih]
    cases hclosed : s.closed with
    | true =>
      simp [charge, hclosed]
      omega
    | false =>
      simp [charge, hclosed]
      omega

/-- The counter holds exactly the bills of the closed streams and the reserves of the open
ones, whatever is opened, granted, cancelled, billed and closed in between. -/
theorem cumulative_charged_exactly (hcost : 0 < costPerChunk)
    (hcap : caveats.amountMaxCumulative = some cap) (hlt : cap < u64Max)
    (verify : OutletStreamCredit → StreamIdentity → Bool) (events : List LedgerEvent) :
    (∀ s ∈ (empty.run verify costPerChunk caveats events).streams,
      (∃ ceiling, effectiveMaxBillableChunks costPerChunk caveats = some ceiling ∧
        s.session.escrow.billedCount ≤ ceiling) ∧
      s.session.escrow.billedCount*costPerChunk ≤ s.reserved) ∧
    (empty.run verify costPerChunk caveats events).counters.amountCumulativeUsed =
      (((empty.run verify costPerChunk caveats events).streams.filter (·.closed)).map
        (fun s => costPerChunk*s.session.escrow.billedCount)).sum+
      (((empty.run verify costPerChunk caveats events).streams.filter (!·.closed)).map
        (·.reserved)).sum ∧
    (empty.run verify costPerChunk caveats events).counters.amountCumulativeUsed ≤ cap := by
  obtain ⟨ceiling, hceiling, hle, hprice, hreserve⟩ := reserve_eq hcost hcap hlt.le
  have hempty : Exact costPerChunk ceiling cap empty :=
    ⟨by simp [empty], rfl, Nat.zero_le _⟩
  have hexact : Exact costPerChunk ceiling cap (empty.run verify costPerChunk caveats events) :=
    hempty.run hceiling hcap hlt hreserve hle (hprice.trans hlt.le) events
  refine ⟨?_, ?_, hexact.within⟩
  · intro s hs
    have hok := hexact.streams s hs
    have hbilled : s.session.escrow.billedCount ≤ ceiling := by
      rw [hok.ceiled.counted]
      exact hok.ceiled.within
    refine ⟨⟨ceiling, hceiling, hbilled⟩, ?_⟩
    rw [hok.reserved]
    exact Nat.mul_le_mul_right costPerChunk hbilled
  · rw [hexact.used, sum_charge]

def cappedCaveats : InvocationCaveats :=
  { InvocationCaveats.empty with amountMaxCumulative := some 35 }

/-- A stream that bills one chunk of its three and closes, and a second one, whose reserve
no longer fits. -/
def oneChunkEvents : List LedgerEvent :=
  [.reserve 4 1 10 ⟨"ctx", "outlet", 0, []⟩ 0, .stream 0 (.arrive .data 0), .stream 0 .signed,
    .settle 0, .reserve 4 1 10 ⟨"ctx", "outlet", 1, []⟩ 1]

theorem one_chunk_charged :
    (empty.run (fun _ _ => true) 10 cappedCaveats oneChunkEvents).counters.amountCumulativeUsed =
      10 ∧
    (empty.run (fun _ _ => true) 10 cappedCaveats oneChunkEvents).counters.amountCumulativeUsed ≤
      35 := by
  have hexact := cumulative_charged_exactly (by decide : 0 < 10)
    (rfl : cappedCaveats.amountMaxCumulative = some 35) (by decide) (fun _ _ => true) oneChunkEvents
  exact ⟨by decide +kernel, hexact.2.2⟩

end CaveatLedger

end ScpCore.Outlets
