import ScpCore.CumulativeCaveat

/-! The two ways an invocation takes from the counters of its caveats. A single call works on a
copy of the record and writes it back whole; the open of a stream increments the counters one by
one and releases them again where a later one refuses. The additions saturate, so under a cap at
the top of the range a charge may be added in part and released in full. -/

namespace ScpCore.Outlets

open Caveats

/-- The counters of the delegations, by the CID of the token. -/
abbrev CounterMap := String → Option CaveatCounters

def CounterMap.record (counters : CounterMap) (ucanCid : String) : CaveatCounters :=
  (counters ucanCid).getD .empty

/-- One counter of the copy, where its caveat is there. -/
def consumeKind (cap : Option ℕ) (kind : CaveatKind) (amount windowSecs now : ℕ)
    (record : CaveatCounters) : Except CounterExhausted CaveatCounters :=
  match cap with
  | none => .ok record
  | some cap =>
    match record.tryConsume kind amount cap windowSecs now with
    | (.ok _, record') => .ok record'
    | (.error err, _) => .error err

def consumeRecord (caveats : InvocationCaveats) (actionCost now : ℕ) (record : CaveatCounters) :
    Except CounterExhausted CaveatCounters := do
  let record ← consumeKind caveats.maxCalls .maxCalls 1 0 now record
  let record ← consumeKind caveats.amountMaxCumulative .amountCumulative actionCost 0 now record
  consumeKind (caveats.rateWindow.map (·.max.toNat)) .rateWindow 0
    (caveats.rateWindow.elim 0 (·.windowSecs.toNat)) now record

/-- The result, and the counters after it. -/
def consumeCaveatCounters (counters : CounterMap) (ucanCid : String) (caveats : InvocationCaveats)
    (actionCost now : ℕ) : Except CounterExhausted Unit × CounterMap :=
  match consumeRecord caveats actionCost now (counters.record ucanCid) with
  | .ok record => (.ok (), Function.update counters ucanCid (some record))
  | .error err => (.error err, counters)

/-- The commit of a stream's open, on the record that the store keeps for the token. -/
def commitCounters (counters : CounterMap) (ucanCid : String) (caveats : InvocationCaveats)
    (costPerChunk estimatedChunkCount now : ℕ) :
    Except CounterExhausted CounterCommitOutcome × CounterMap :=
  let result := commitCounterReservation caveats costPerChunk estimatedChunkCount now
    (counters.record ucanCid)
  (result.1, Function.update counters ucanCid (some result.2))

/-- A record as its type and its invariant have it: the counts are words, and the timestamps are
in ascending order, where the binary search for the expired ones is defined. -/
structure WellFormed (counters : CaveatCounters) : Prop where
  calls : counters.maxCallsUsed ≤ u64Max
  amount : counters.amountCumulativeUsed ≤ u64Max
  sorted : counters.rateWindowTimestamps.Pairwise (· ≤ ·)

/-- The timestamps inside a window. -/
def inWindow (window : RateWindow) (now : ℕ) (timestamps : List ℕ) : List ℕ :=
  timestamps.filter (fun s => now-window.windowSecs.toNat < s)

/-- The timestamps that the code still counts, which in ascending order are those inside. -/
def live (window : RateWindow) (now : ℕ) (timestamps : List ℕ) : List ℕ :=
  pruneExpiredWindowEntries timestamps now window.windowSecs.toNat

/-- Expired timestamps are dropped from the front and the time of the call is appended. -/
def OneAdded (window : RateWindow) (now : ℕ) (before after : List ℕ) : Prop :=
  ∃ expired kept, before = expired ++ kept ∧
    (∀ s ∈ expired, s ≤ now-window.windowSecs.toNat) ∧ after = kept ++ [now]

section Room
variable (caveats : InvocationCaveats) (charge now : ℕ) (counters : CaveatCounters)

def CallsRoom : Prop :=
  ∀ cap, caveats.maxCalls = some cap → saturatingAdd counters.maxCallsUsed 1 ≤ cap

def AmountRoom : Prop :=
  ∀ cap, caveats.amountMaxCumulative = some cap →
    saturatingAdd counters.amountCumulativeUsed charge ≤ cap

def RateRoom : Prop :=
  ∀ window, caveats.rateWindow = some window →
    (live window now counters.rateWindowTimestamps).length < window.max.toNat

/-- Counting the call stays in the word. -/
def CallsFit : Prop := caveats.maxCalls.isSome → counters.maxCallsUsed+1 ≤ u64Max

/-- Charging the amount stays in the word. -/
def AmountFits : Prop :=
  caveats.amountMaxCumulative.isSome → counters.amountCumulativeUsed+charge ≤ u64Max

/-- The counters with the call, the charge and the timestamp added as the code adds them. -/
def charged : CaveatCounters where
  maxCallsUsed := if caveats.maxCalls.isSome then saturatingAdd counters.maxCallsUsed 1
    else counters.maxCallsUsed
  amountCumulativeUsed := if caveats.amountMaxCumulative.isSome then
    saturatingAdd counters.amountCumulativeUsed charge else counters.amountCumulativeUsed
  rateWindowTimestamps := caveats.rateWindow.elim counters.rateWindowTimestamps
    (fun window => live window now counters.rateWindowTimestamps ++ [now])

/-- Every counter of the caveats advanced by exactly one call, the charge and one timestamp. -/
structure Advanced (after : CaveatCounters) : Prop where
  calls : after.maxCallsUsed = counters.maxCallsUsed+if caveats.maxCalls.isSome then 1 else 0
  amount : after.amountCumulativeUsed =
    counters.amountCumulativeUsed+if caveats.amountMaxCumulative.isSome then charge else 0
  untimed : caveats.rateWindow = none →
    after.rateWindowTimestamps = counters.rateWindowTimestamps
  timestamps : ∀ window, caveats.rateWindow = some window →
    OneAdded window now counters.rateWindowTimestamps after.rateWindowTimestamps

end Room

section Records
variable {caveats : InvocationCaveats} {charge cost estimate now : ℕ} {counters : CaveatCounters}

theorem live_append (window : RateWindow) (now : ℕ) (timestamps : List ℕ) :
    OneAdded window now timestamps (live window now timestamps ++ [now]) := by
  refine ⟨timestamps.takeWhile (· ≤ now-window.windowSecs.toNat), live window now timestamps,
    List.takeWhile_append_dropWhile.symm, ?_, rfl⟩
  intro s hs
  simpa using List.mem_takeWhile_imp hs

/-- The counters as charged have advanced exactly where no sum was cut. -/
theorem advanced_charged_iff :
    Advanced caveats charge now counters (charged caveats charge now counters) ↔
      CallsFit caveats counters ∧ AmountFits caveats charge counters := by
  have h64 : u64Max = 2^64-1 := rfl
  constructor
  · intro h
    have hcalls := h.calls
    have hamount := h.amount
    simp only [charged, saturatingAdd] at hcalls hamount
    refine ⟨?_, ?_⟩
    · intro hsome
      rw [if_pos hsome, if_pos hsome] at hcalls
      omega
    · intro hsome
      rw [if_pos hsome, if_pos hsome] at hamount
      omega
  · intro h
    refine ⟨?_, ?_, ?_, ?_⟩
    · simp only [charged, saturatingAdd]
      by_cases hsome : caveats.maxCalls.isSome = true
      · have hfits := h.1 hsome
        rw [if_pos hsome, if_pos hsome]
        omega
      · rw [if_neg hsome, if_neg hsome, Nat.add_zero]
    · simp only [charged, saturatingAdd]
      by_cases hsome : caveats.amountMaxCumulative.isSome = true
      · have hfits := h.2 hsome
        rw [if_pos hsome, if_pos hsome]
        omega
      · rw [if_neg hsome, if_neg hsome, Nat.add_zero]
    · intro hnone
      rw [charged, hnone]
      rfl
    · intro window hwindow
      rw [charged, hwindow]
      exact live_append window now _

theorem tryConsume_rateWindow (window : RateWindow) (amount : ℕ) :
    counters.tryConsume .rateWindow amount window.max.toNat window.windowSecs.toNat now =
      if window.max.toNat ≤ (live window now counters.rateWindowTimestamps).length then
        (.error (.rateWindow (live window now counters.rateWindowTimestamps).length
          window.max.toNat window.windowSecs.toNat),
          { counters with
            rateWindowTimestamps := live window now counters.rateWindowTimestamps })
      else (.ok (), { counters with
        rateWindowTimestamps := live window now counters.rateWindowTimestamps ++ [now] }) := by
  rw [CaveatCounters.tryConsume]
  rfl

theorem consumeKind_maxCalls {after : CaveatCounters} :
    consumeKind caveats.maxCalls .maxCalls 1 0 now counters = .ok after ↔
      CallsRoom caveats counters ∧ after = { counters with
        maxCallsUsed := if caveats.maxCalls.isSome then saturatingAdd counters.maxCallsUsed 1
          else counters.maxCallsUsed } := by
  unfold consumeKind CallsRoom
  cases caveats.maxCalls with
  | none =>
    simp only [reduceCtorEq, false_implies, implies_true, true_and, Except.ok.injEq,
      Option.isSome_none, Bool.false_eq_true, if_false]
    exact eq_comm
  | some cap =>
    simp only [CaveatCounters.tryConsume, Option.some.injEq, forall_eq', Option.isSome_some,
      if_true]
    by_cases hover : cap < saturatingAdd counters.maxCallsUsed 1
    · simp [hover]
    · simp [hover, not_lt.mp hover, eq_comm]

theorem consumeKind_amountCumulative {after : CaveatCounters} :
    consumeKind caveats.amountMaxCumulative .amountCumulative charge 0 now counters = .ok after ↔
      AmountRoom caveats charge counters ∧ after = { counters with
        amountCumulativeUsed := if caveats.amountMaxCumulative.isSome then
          saturatingAdd counters.amountCumulativeUsed charge
          else counters.amountCumulativeUsed } := by
  unfold consumeKind AmountRoom
  cases caveats.amountMaxCumulative with
  | none =>
    simp only [reduceCtorEq, false_implies, implies_true, true_and, Except.ok.injEq,
      Option.isSome_none, Bool.false_eq_true, if_false]
    exact eq_comm
  | some cap =>
    simp only [CaveatCounters.tryConsume, Option.some.injEq, forall_eq', Option.isSome_some,
      if_true]
    by_cases hover : cap < saturatingAdd counters.amountCumulativeUsed charge
    · simp [hover]
    · simp [hover, not_lt.mp hover, eq_comm]

theorem consumeKind_rateWindow {after : CaveatCounters} :
    consumeKind (caveats.rateWindow.map (·.max.toNat)) .rateWindow 0
        (caveats.rateWindow.elim 0 (·.windowSecs.toNat)) now counters = .ok after ↔
      RateRoom caveats now counters ∧ after = { counters with
        rateWindowTimestamps := caveats.rateWindow.elim counters.rateWindowTimestamps
          (fun window => live window now counters.rateWindowTimestamps ++ [now]) } := by
  unfold consumeKind RateRoom
  cases caveats.rateWindow with
  | none =>
    simp only [reduceCtorEq, false_implies, implies_true, true_and, Except.ok.injEq,
      Option.map_none, Option.elim_none]
    exact eq_comm
  | some window =>
    simp only [Option.map_some, Option.elim_some, tryConsume_rateWindow,
      Option.some.injEq, forall_eq']
    by_cases hfull : window.max.toNat ≤ (live window now counters.rateWindowTimestamps).length
    · simp [hfull]
    · simp [hfull, not_le.mp hfull, eq_comm]

/-- A single call is admitted exactly where every counter has room. -/
theorem consumeRecord_ok_iff {after : CaveatCounters} :
    consumeRecord caveats charge now counters = .ok after ↔
      CallsRoom caveats counters ∧ AmountRoom caveats charge counters ∧
        RateRoom caveats now counters ∧ after = charged caveats charge now counters := by
  simp only [consumeRecord, bind_ok_iff, consumeKind_maxCalls, consumeKind_amountCumulative]
  constructor
  · intro h
    obtain ⟨_, ⟨hroom, rfl⟩, _, ⟨hroom', rfl⟩, hlast⟩ := h
    rw [consumeKind_rateWindow] at hlast
    obtain ⟨hroom'', rfl⟩ := hlast
    exact ⟨hroom, hroom', hroom'', rfl⟩
  · intro h
    obtain ⟨hroom, hroom', hroom'', rfl⟩ := h
    refine ⟨_, ⟨hroom, rfl⟩, _, ⟨hroom', rfl⟩, ?_⟩
    rw [consumeKind_rateWindow]
    exact ⟨hroom'', rfl⟩

/-- What is left of the counters after a refusal by the rate window: every charge before it is
released as it was asked for. -/
def releasedAll (caveats : InvocationCaveats) (charge now : ℕ) (counters : CaveatCounters) :
    CaveatCounters where
  maxCallsUsed := if caveats.maxCalls.isSome then saturatingAdd counters.maxCallsUsed 1-1
    else counters.maxCallsUsed
  amountCumulativeUsed := if caveats.amountMaxCumulative.isSome then
    saturatingAdd counters.amountCumulativeUsed charge-charge else counters.amountCumulativeUsed
  rateWindowTimestamps := caveats.rateWindow.elim counters.rateWindowTimestamps
    (fun window => live window now counters.rateWindowTimestamps)

/-- The reserve of an open, none where the value is not capped. -/
def reserveOf (caveats : InvocationCaveats) (costPerChunk : ℕ) : ℕ :=
  (cumulativeReserveAmount costPerChunk caveats).getD 0

/-- The four ends of a commit: each counter refuses in its turn, or all are charged. -/
inductive CommitEnds (caveats : InvocationCaveats) (charge now : ℕ) (counters : CaveatCounters) :
    Except CounterExhausted CounterCommitOutcome × CaveatCounters → Prop
  | calls (err : CounterExhausted) (hcalls : ¬ CallsRoom caveats counters) :
      CommitEnds caveats charge now counters (.error err, counters)
  | amount (err : CounterExhausted) (hcalls : CallsRoom caveats counters)
      (hamount : ¬ AmountRoom caveats charge counters) :
      CommitEnds caveats charge now counters (.error err, { counters with
        maxCallsUsed := if caveats.maxCalls.isSome then saturatingAdd counters.maxCallsUsed 1-1
          else counters.maxCallsUsed })
  | rate (err : CounterExhausted) (hcalls : CallsRoom caveats counters)
      (hamount : AmountRoom caveats charge counters) (hrate : ¬ RateRoom caveats now counters) :
      CommitEnds caveats charge now counters (.error err, releasedAll caveats charge now counters)
  | ok (outcome : CounterCommitOutcome) (hcalls : CallsRoom caveats counters)
      (hamount : AmountRoom caveats charge counters) (hrate : RateRoom caveats now counters) :
      CommitEnds caveats charge now counters (.ok outcome, charged caveats charge now counters)

theorem reserveOf_none (hcap : caveats.amountMaxCumulative = none) :
    cumulativeReserveAmount cost caveats = none := by
  rw [cumulativeReserveAmount, hcap]
  rfl

theorem reserveOf_some {cap : ℕ} (hcap : caveats.amountMaxCumulative = some cap) :
    cumulativeReserveAmount cost caveats = some (reserveOf caveats cost) := by
  rw [reserveOf, cumulativeReserveAmount, hcap]
  rfl

theorem commitRateWindow_ok (hrate : RateRoom caveats now counters) (reserve : ℕ) :
    commitRateWindow caveats now reserve estimate counters = (.ok ⟨reserve, estimate⟩,
      { counters with
        rateWindowTimestamps := caveats.rateWindow.elim counters.rateWindowTimestamps
          (fun window => live window now counters.rateWindowTimestamps ++ [now]) }) := by
  unfold commitRateWindow
  cases hwindow : caveats.rateWindow with
  | none => rfl
  | some window =>
    have hroom := hrate window hwindow
    dsimp only
    rw [tryConsume_rateWindow, if_neg (by omega)]
    rfl

theorem commitRateWindow_refused (hrate : ¬ RateRoom caveats now counters)
    (reserve estimate : ℕ) :
    ∃ err, commitRateWindow caveats now reserve estimate counters = (.error err,
      { maxCallsUsed := if caveats.maxCalls.isSome then counters.maxCallsUsed-1
          else counters.maxCallsUsed
        amountCumulativeUsed := counters.amountCumulativeUsed-reserve
        rateWindowTimestamps := caveats.rateWindow.elim counters.rateWindowTimestamps
          (fun window => live window now counters.rateWindowTimestamps) }) := by
  unfold RateRoom at hrate
  push Not at hrate
  obtain ⟨window, hwindow, hfull⟩ := hrate
  rw [commitRateWindow, hwindow]
  dsimp only
  rw [tryConsume_rateWindow, if_pos hfull]
  refine ⟨.rateWindow (live window now counters.rateWindowTimestamps).length
    window.max.toNat window.windowSecs.toNat, ?_⟩
  dsimp only
  by_cases hcalls : caveats.maxCalls.isSome = true
  · rw [if_pos hcalls, if_pos hcalls]
    by_cases hpos : 0 < reserve
    · rw [if_pos hpos]
      rfl
    · rw [if_neg hpos, Nat.eq_zero_of_not_pos hpos]
      rfl
  · rw [if_neg hcalls, if_neg hcalls]
    by_cases hpos : 0 < reserve
    · rw [if_pos hpos]
      rfl
    · rw [if_neg hpos, Nat.eq_zero_of_not_pos hpos]
      rfl

/-- The second and third counters, on a record whose calls are already counted. -/
theorem commitAmountCumulative_ends {counted : CaveatCounters}
    (hcalls : CallsRoom caveats counters)
    (hcounted : counted = { counters with
      maxCallsUsed := if caveats.maxCalls.isSome then saturatingAdd counters.maxCallsUsed 1
        else counters.maxCallsUsed }) :
    CommitEnds caveats (reserveOf caveats cost) now counters
      (commitAmountCumulative caveats cost estimate now counted) := by
  -- The rate window's end, once the amount is charged.
  have hlast : ∀ amount reserve, amount = (if caveats.amountMaxCumulative.isSome then
        saturatingAdd counters.amountCumulativeUsed (reserveOf caveats cost)
        else counters.amountCumulativeUsed) →
      amount-reserve = (if caveats.amountMaxCumulative.isSome then
        saturatingAdd counters.amountCumulativeUsed (reserveOf caveats cost)-reserveOf caveats cost
        else counters.amountCumulativeUsed) →
      AmountRoom caveats (reserveOf caveats cost) counters →
      CommitEnds caveats (reserveOf caveats cost) now counters
        (commitRateWindow caveats now reserve estimate
          { counted with amountCumulativeUsed := amount }) := by
    intro amount reserve hamount hreleased hroom
    have hsame : counted.rateWindowTimestamps = counters.rateWindowTimestamps := by rw [hcounted]
    by_cases hrate : RateRoom caveats now counters
    · have hrate' : RateRoom caveats now { counted with amountCumulativeUsed := amount } := by
        intro window hwindow
        dsimp only
        rw [hsame]
        exact hrate window hwindow
      rw [commitRateWindow_ok hrate']
      have hcharged : ({ counted with
          amountCumulativeUsed := amount
          rateWindowTimestamps := caveats.rateWindow.elim counted.rateWindowTimestamps
            (fun window => live window now counted.rateWindowTimestamps ++ [now]) } :
          CaveatCounters) = charged caveats (reserveOf caveats cost) now counters := by
        rw [hcounted, hamount]
        rfl
      rw [hcharged]
      exact .ok _ hcalls hroom hrate
    · have hrate' : ¬ RateRoom caveats now { counted with amountCumulativeUsed := amount } := by
        intro hroom'
        apply hrate
        intro window hwindow
        have hlt := hroom' window hwindow
        dsimp only at hlt
        rw [hsame] at hlt
        exact hlt
      obtain ⟨err, herr⟩ := commitRateWindow_refused hrate' reserve estimate
      rw [herr]
      have hback : (if caveats.maxCalls.isSome then counted.maxCallsUsed-1
          else counted.maxCallsUsed) = if caveats.maxCalls.isSome then
            saturatingAdd counters.maxCallsUsed 1-1 else counters.maxCallsUsed := by
        rw [hcounted]
        dsimp only
        split_ifs <;> rfl
      dsimp only
      rw [hback, hreleased, hsame]
      exact .rate err hcalls hroom hrate
  unfold commitAmountCumulative
  cases hcap : caveats.amountMaxCumulative with
  | none =>
    rw [reserveOf_none hcap]
    have hnone : counted =
        { counted with amountCumulativeUsed := counters.amountCumulativeUsed } := by
      rw [hcounted]
    dsimp only
    rw [hnone]
    apply hlast
    · simp [hcap]
    · simp [hcap]
    · intro cap hsome
      rw [hcap] at hsome
      cases hsome
  | some cap =>
    rw [reserveOf_some hcap]
    dsimp only
    have hused : counted.amountCumulativeUsed = counters.amountCumulativeUsed := by rw [hcounted]
    by_cases hover : cap < saturatingAdd counters.amountCumulativeUsed (reserveOf caveats cost)
    · have htry : counted.tryConsume .amountCumulative (reserveOf caveats cost) cap 0 now =
          (.error (.amountCumulative (saturatingAdd counters.amountCumulativeUsed
            (reserveOf caveats cost)) cap), counted) := by
        simp only [CaveatCounters.tryConsume, hused, if_pos hover]
      have hnoroom : ¬ AmountRoom caveats (reserveOf caveats cost) counters := by
        intro hroom
        have hle := hroom cap hcap
        omega
      have hback : (if caveats.maxCalls.isSome then counted.release .maxCalls 1 else counted) =
          { counters with
            maxCallsUsed := if caveats.maxCalls.isSome then
              saturatingAdd counters.maxCallsUsed 1-1 else counters.maxCallsUsed } := by
        rw [hcounted]
        split_ifs <;> rfl
      rw [htry]
      dsimp only
      rw [hback]
      exact .amount _ hcalls hnoroom
    · have htry : counted.tryConsume .amountCumulative (reserveOf caveats cost) cap 0 now =
          (.ok (), { counted with
            amountCumulativeUsed := saturatingAdd counters.amountCumulativeUsed
              (reserveOf caveats cost) }) := by
        simp only [CaveatCounters.tryConsume, hused, if_neg hover]
      rw [htry]
      dsimp only
      apply hlast
      · simp [hcap]
      · simp [hcap]
      · intro cap' hcap'
        rw [hcap, Option.some.injEq] at hcap'
        omega

variable (caveats cost estimate now counters) in
theorem commitCounterReservation_ends :
    CommitEnds caveats (reserveOf caveats cost) now counters
      (commitCounterReservation caveats cost estimate now counters) := by
  unfold commitCounterReservation
  cases hcap : caveats.maxCalls with
  | none =>
    apply commitAmountCumulative_ends
    · intro cap hsome
      rw [hcap] at hsome
      cases hsome
    · simp [hcap]
  | some cap =>
    dsimp only
    by_cases hover : cap < saturatingAdd counters.maxCallsUsed 1
    · have hnoroom : ¬ CallsRoom caveats counters := by
        intro hroom
        have hle := hroom cap hcap
        omega
      simp only [CaveatCounters.tryConsume, if_pos hover]
      exact .calls _ hnoroom
    · simp only [CaveatCounters.tryConsume, if_neg hover]
      apply commitAmountCumulative_ends
      · intro cap' hcap'
        rw [hcap, Option.some.injEq] at hcap'
        omega
      · simp [hcap]

end Records

/-- A refused single call leaves the map as it was, and an admitted one advances the counters of
its own token by exactly one call, the cost and one timestamp. -/
structure ConsumesOnce (counters : CounterMap) (ucanCid : String) (caveats : InvocationCaveats)
    (actionCost now : ℕ) : Prop where
  refused : ∀ err,
    (consumeCaveatCounters counters ucanCid caveats actionCost now).1 = .error err →
    (consumeCaveatCounters counters ucanCid caveats actionCost now).2 = counters
  admitted : (consumeCaveatCounters counters ucanCid caveats actionCost now).1 = .ok () →
    Advanced caveats actionCost now (counters.record ucanCid)
      ((consumeCaveatCounters counters ucanCid caveats actionCost now).2.record ucanCid) ∧
    ∀ other ≠ ucanCid,
      (consumeCaveatCounters counters ucanCid caveats actionCost now).2 other = counters other

/-- A refused open leaves both counts and the timestamps inside the window, and an admitted one
advances the counters by exactly one call, the reserve and one timestamp. -/
structure CommitsOnce (caveats : InvocationCaveats) (costPerChunk estimatedChunkCount now : ℕ)
    (counters : CaveatCounters) : Prop where
  refused : ∀ err,
    (commitCounterReservation caveats costPerChunk estimatedChunkCount now counters).1 =
      .error err →
    (commitCounterReservation caveats costPerChunk estimatedChunkCount now
      counters).2.maxCallsUsed = counters.maxCallsUsed ∧
    (commitCounterReservation caveats costPerChunk estimatedChunkCount now
      counters).2.amountCumulativeUsed = counters.amountCumulativeUsed ∧
    ∀ window, caveats.rateWindow = some window →
      inWindow window now (commitCounterReservation caveats costPerChunk estimatedChunkCount now
        counters).2.rateWindowTimestamps = inWindow window now counters.rateWindowTimestamps
  admitted : ∀ outcome,
    (commitCounterReservation caveats costPerChunk estimatedChunkCount now counters).1 =
      .ok outcome →
    Advanced caveats (reserveOf caveats costPerChunk) now counters
      (commitCounterReservation caveats costPerChunk estimatedChunkCount now counters).2

/-- Where every counter has room, the sums stay in the word. -/
def ConsumeFits (caveats : InvocationCaveats) (actionCost now : ℕ) (counters : CaveatCounters) :
    Prop :=
  CallsRoom caveats counters → AmountRoom caveats actionCost counters →
    RateRoom caveats now counters →
      CallsFit caveats counters ∧ AmountFits caveats actionCost counters

/-- Where a counter and those before it have room, its sum stays in the word. -/
def CommitFits (caveats : InvocationCaveats) (costPerChunk : ℕ) (counters : CaveatCounters) :
    Prop :=
  CallsRoom caveats counters → CallsFit caveats counters ∧
    (AmountRoom caveats (reserveOf caveats costPerChunk) counters →
      AmountFits caveats (reserveOf caveats costPerChunk) counters)

section Once
variable {caveats : InvocationCaveats} {cost estimate now : ℕ}

theorem consumeCaveatCounters_ok {counters : CounterMap} {ucanCid : String}
    {record : CaveatCounters}
    (h : consumeRecord caveats cost now (counters.record ucanCid) = .ok record) :
    consumeCaveatCounters counters ucanCid caveats cost now =
      (.ok (), Function.update counters ucanCid (some record)) := by
  rw [consumeCaveatCounters, h]

theorem consumeCaveatCounters_error {counters : CounterMap} {ucanCid : String}
    {err : CounterExhausted}
    (h : consumeRecord caveats cost now (counters.record ucanCid) = .error err) :
    consumeCaveatCounters counters ucanCid caveats cost now = (.error err, counters) := by
  rw [consumeCaveatCounters, h]

theorem record_update (counters : CounterMap) (ucanCid : String) (record : CaveatCounters) :
    CounterMap.record (Function.update counters ucanCid (some record)) ucanCid = record := by
  rw [CounterMap.record, Function.update_self, Option.getD_some]

theorem consumesOnce_iff {counters : CounterMap} {ucanCid : String} :
    ConsumesOnce counters ucanCid caveats cost now ↔
      ConsumeFits caveats cost now (counters.record ucanCid) := by
  cases hresult : consumeRecord caveats cost now (counters.record ucanCid) with
  | error err =>
    have heq := consumeCaveatCounters_error hresult
    constructor
    · -- A refusal means that some counter has no room.
      intro _ hcalls hamount hrate
      have hok := consumeRecord_ok_iff.mpr ⟨hcalls, hamount, hrate, rfl⟩
      rw [hresult] at hok
      cases hok
    · intro _
      refine ⟨?_, ?_⟩
      · intro _ _
        rw [heq]
      · intro hok
        rw [heq] at hok
        cases hok
  -- A committed consumption advances every counter, by its own charge exactly when it fits.
  | ok record =>
    have heq := consumeCaveatCounters_ok hresult
    obtain ⟨hcalls, hamount, hrate, rfl⟩ := consumeRecord_ok_iff.mp hresult
    constructor
    · intro honce _ _ _
      have hadvanced := (honce.admitted (by rw [heq])).1
      rw [heq] at hadvanced
      dsimp only at hadvanced
      rw [record_update] at hadvanced
      exact advanced_charged_iff.mp hadvanced
    · intro hfits
      refine ⟨?_, ?_⟩
      · intro err herr
        rw [heq] at herr
        cases herr
      · intro _
        rw [heq]
        dsimp only
        rw [record_update]
        refine ⟨advanced_charged_iff.mpr (hfits hcalls hamount hrate), ?_⟩
        intro other hother
        exact Function.update_of_ne hother _ _

theorem reserveOf_le (caveats : InvocationCaveats) (costPerChunk : ℕ) :
    reserveOf caveats costPerChunk ≤ u64Max := by
  unfold reserveOf cumulativeReserveAmount
  cases caveats.amountMaxCumulative with
  | none => simp
  | some cap =>
    simp only [Option.map_some, Option.getD_some]
    split_ifs
    · exact Nat.zero_le _
    · exact min_le_right _ _

variable (caveats) in
/-- A call counted and released again is back where it was exactly if its sum was not cut. -/
theorem calls_back_iff {counters : CaveatCounters} (h : WellFormed counters) :
    (if caveats.maxCalls.isSome then saturatingAdd counters.maxCallsUsed 1-1
      else counters.maxCallsUsed) = counters.maxCallsUsed ↔ CallsFit caveats counters := by
  have h64 : u64Max = 2^64-1 := rfl
  have hcalls := h.calls
  unfold CallsFit saturatingAdd
  by_cases hsome : caveats.maxCalls.isSome = true
  · rw [if_pos hsome]
    constructor
    · intro heq _
      omega
    · intro hfits
      have hle := hfits hsome
      omega
  · simp [hsome]

variable (caveats) in
theorem amount_back_iff {counters : CaveatCounters} (h : WellFormed counters) {charge : ℕ}
    (hcharge : charge ≤ u64Max) :
    (if caveats.amountMaxCumulative.isSome then
      saturatingAdd counters.amountCumulativeUsed charge-charge
      else counters.amountCumulativeUsed) = counters.amountCumulativeUsed ↔
      AmountFits caveats charge counters := by
  have h64 : u64Max = 2^64-1 := rfl
  have hamount := h.amount
  unfold AmountFits saturatingAdd
  by_cases hsome : caveats.amountMaxCumulative.isSome = true
  · rw [if_pos hsome]
    constructor
    · intro heq _
      omega
    · intro hfits
      have hle := hfits hsome
      omega
  · simp [hsome]

/-- Pruning takes nothing that this cutoff or a later one counts, whatever the order. -/
theorem filter_live {window : RateWindow} {now cutoff : ℕ} (timestamps : List ℕ)
    (hcutoff : now-window.windowSecs.toNat ≤ cutoff) :
    (live window now timestamps).filter (fun s => cutoff < s) =
      timestamps.filter (fun s => cutoff < s) := by
  obtain ⟨expired, kept, hsplit, hexpired, hkept⟩ := live_append window now timestamps
  rw [List.append_singleton_inj] at hkept
  have hnone : expired.filter (fun s => decide (cutoff < s)) = [] := by
    rw [List.filter_eq_nil_iff]
    intro s hs
    have hle := hexpired s hs
    rw [decide_eq_true_eq]
    omega
  rw [hkept.1]
  conv => rhs; rw [hsplit, List.filter_append, hnone, List.nil_append]

theorem commitsOnce_iff {counters : CaveatCounters} (h : WellFormed counters) :
    CommitsOnce caveats cost estimate now counters ↔ CommitFits caveats cost counters := by
  have hends := commitCounterReservation_ends caveats cost estimate now counters
  have hcallsBack := calls_back_iff caveats h
  have hamountBack := amount_back_iff caveats h (reserveOf_le caveats cost)
  constructor
  · intro honce hcalls
    generalize hresult : commitCounterReservation caveats cost estimate now counters = result
      at hends
    have hrefused := honce.refused
    have hadmitted := honce.admitted
    rw [hresult] at hrefused hadmitted
    -- Each end of the commit against what its record shows of it.
    cases hends with
    | calls err hno => exact absurd hcalls hno
    | amount err _ hno =>
      obtain ⟨hsame, -, -⟩ := hrefused err rfl
      exact ⟨hcallsBack.mp hsame, fun hroom => absurd hroom hno⟩
    | rate err _ _ _ =>
      obtain ⟨hsame, hsame', -⟩ := hrefused err rfl
      exact ⟨hcallsBack.mp hsame, fun _ => hamountBack.mp hsame'⟩
    | ok outcome _ _ _ =>
      obtain ⟨hfits, hfits'⟩ := advanced_charged_iff.mp (hadmitted outcome rfl)
      exact ⟨hfits, fun _ => hfits'⟩
  · intro hfits
    generalize hresult : commitCounterReservation caveats cost estimate now counters = result
      at hends
    refine ⟨?_, ?_⟩
    · rw [hresult]
      intro err herr
      cases hends with
      | calls err hno => exact ⟨rfl, rfl, fun _ _ => rfl⟩
      | amount err hcalls hno => exact ⟨hcallsBack.mpr (hfits hcalls).1, rfl, fun _ _ => rfl⟩
      | rate err hcalls hamount hno =>
        refine ⟨hcallsBack.mpr (hfits hcalls).1, hamountBack.mpr ((hfits hcalls).2 hamount), ?_⟩
        intro window hwindow
        rw [releasedAll, hwindow]
        exact filter_live _ le_rfl
      | ok outcome _ _ _ => cases herr
    · rw [hresult]
      intro outcome hok
      cases hends with
      | calls err hno => cases hok
      | amount err hcalls hno => cases hok
      | rate err hcalls hamount hno => cases hok
      | ok outcome hcalls hamount _ =>
        exact advanced_charged_iff.mpr ⟨(hfits hcalls).1, (hfits hcalls).2 hamount⟩

end Once

/-- A single call or the open of a stream, under the token it presents. -/
inductive CaveatOp
  | invoke (ucanCid : String) (actionCost now : ℕ)
  | openStream (ucanCid : String) (costPerChunk estimatedChunkCount now : ℕ)

namespace CaveatOp

def ucanCid : CaveatOp → String
  | invoke ucanCid _ _ => ucanCid
  | openStream ucanCid _ _ _ => ucanCid

def now : CaveatOp → ℕ
  | invoke _ _ now => now
  | openStream _ _ _ now => now

end CaveatOp

/-- The counters, and for each token the times of the calls admitted under it. -/
structure CaveatRun where
  counters : CounterMap
  admitted : String → List ℕ

namespace CaveatRun

def start : CaveatRun := ⟨fun _ => none, fun _ => []⟩

/-- The result of an operation is kept, and the time where it was admitted. -/
def settle {α : Type} (run : CaveatRun) (ucanCid : String) (now : ℕ)
    (result : Except CounterExhausted α × CounterMap) : CaveatRun where
  counters := result.2
  admitted := match result.1 with
    | .ok _ => Function.update run.admitted ucanCid (run.admitted ucanCid ++ [now])
    | .error _ => run.admitted

/-- One operation, where `caveatsOf` are the caveats that a token carries. -/
def step (caveatsOf : String → InvocationCaveats) (run : CaveatRun) : CaveatOp → CaveatRun
  | .invoke ucanCid actionCost now => run.settle ucanCid now
      (consumeCaveatCounters run.counters ucanCid (caveatsOf ucanCid) actionCost now)
  | .openStream ucanCid costPerChunk estimatedChunkCount now => run.settle ucanCid now
      (commitCounters run.counters ucanCid (caveatsOf ucanCid) costPerChunk estimatedChunkCount
        now)

end CaveatRun

/-- The window of the caveats has run by the given time. -/
def LateEnough (caveats : InvocationCaveats) (now : ℕ) : Prop :=
  ∀ window, caveats.rateWindow = some window → window.windowSecs.toNat ≤ now

/-- Operations in the order of their times, none before its window has run. -/
structure CaveatOps (caveatsOf : String → InvocationCaveats) (ops : List CaveatOp) : Prop where
  sorted : (ops.map CaveatOp.now).Pairwise (· ≤ ·)
  late : ∀ op ∈ ops, LateEnough (caveatsOf op.ucanCid) op.now

/-- What a run keeps true of one token: the calls stay under their cap, and the timestamps kept
are the admitted calls that a later window still counts. -/
structure Tracked (caveats : InvocationCaveats) (latest : ℕ) (counters : CaveatCounters)
    (admitted : List ℕ) : Prop where
  sorted : counters.rateWindowTimestamps.Pairwise (· ≤ ·)
  past : ∀ s ∈ counters.rateWindowTimestamps, s ≤ latest
  calls : ∀ cap, caveats.maxCalls = some cap → counters.maxCallsUsed ≤ cap
  late : ∀ s ∈ admitted, LateEnough caveats s
  counted : ∀ window, caveats.rateWindow = some window →
    Records counters.rateWindowTimestamps admitted (latest-window.windowSecs.toNat) ∧
      Spaced window.max.toNat window.windowSecs.toNat admitted

section Runs
variable {caveats : InvocationCaveats} {latest now : ℕ} {counters after : CaveatCounters}
  {admitted : List ℕ}

theorem Tracked.empty (caveats : InvocationCaveats) : Tracked caveats 0 .empty [] := by
  refine ⟨List.Pairwise.nil, nofun, fun _ _ => Nat.zero_le _, nofun, ?_⟩
  intro window _
  exact ⟨⟨List.Pairwise.nil, fun _ _ => rfl⟩, Spaced.nil⟩

theorem Tracked.later (h : Tracked caveats latest counters admitted) (hle : latest ≤ now) :
    Tracked caveats now counters admitted := by
  refine ⟨h.sorted, fun s hs => (h.past s hs).trans hle, h.calls, h.late, ?_⟩
  intro window hwindow
  obtain ⟨hrecords, hspaced⟩ := h.counted window hwindow
  refine ⟨⟨hrecords.sorted, ?_⟩, hspaced⟩
  intro later hlater
  apply hrecords.counted
  omega

/-- A refusal gives no call back beyond its own, and at most prunes the timestamps. -/
theorem Tracked.refused (h : Tracked caveats now counters admitted)
    (hcalls : after.maxCallsUsed ≤ counters.maxCallsUsed)
    (hkept : after.rateWindowTimestamps = counters.rateWindowTimestamps ∨
      after.rateWindowTimestamps = caveats.rateWindow.elim counters.rateWindowTimestamps
        (fun window => live window now counters.rateWindowTimestamps)) :
    Tracked caveats now after admitted := by
  have hsub : after.rateWindowTimestamps.Sublist counters.rateWindowTimestamps := by
    rcases hkept with hkept | hkept
    · rw [hkept]
    · rw [hkept]
      cases caveats.rateWindow with
      | none => exact List.Sublist.refl _
      | some window => exact List.dropWhile_sublist _
  refine ⟨h.sorted.sublist hsub, fun s hs => h.past s (hsub.mem hs), ?_, h.late, ?_⟩
  · intro cap hcap
    have hle := h.calls cap hcap
    omega
  · intro window hwindow
    obtain ⟨hrecords, hspaced⟩ := h.counted window hwindow
    refine ⟨⟨h.sorted.sublist hsub, ?_⟩, hspaced⟩
    intro later hlater
    rw [← hrecords.counted later hlater]
    rcases hkept with hkept | hkept
    · rw [hkept]
    · rw [hkept, hwindow]
      exact filter_live _ hlater

/-- An admitted call keeps its window's limit, since the timestamps kept are all that count. -/
theorem Tracked.taken (h : Tracked caveats now counters admitted) {charge : ℕ}
    (hlate : LateEnough caveats now) (hcalls : CallsRoom caveats counters)
    (hrate : RateRoom caveats now counters) :
    Tracked caveats now (charged caveats charge now counters) (admitted ++ [now]) := by
  -- The window is pruned from the front and the call is no earlier than what is left.
  have hsorted : (charged caveats charge now counters).rateWindowTimestamps.Pairwise
      (· ≤ ·) := by
    cases hwindow : caveats.rateWindow with
    | none =>
      rw [charged, hwindow]
      exact h.sorted
    | some window =>
      rw [charged, hwindow]
      apply List.pairwise_append.mpr
      refine ⟨h.sorted.sublist (List.dropWhile_sublist _), List.pairwise_singleton _ _, ?_⟩
      intro s hs t ht
      rw [List.mem_singleton] at ht
      rw [ht]
      exact h.past s ((List.dropWhile_sublist _).mem hs)
  refine ⟨hsorted, ?_, ?_, ?_, ?_⟩
  · intro s hs
    cases hwindow : caveats.rateWindow with
    | none =>
      rw [charged, hwindow] at hs
      exact h.past s hs
    | some window =>
      rw [charged, hwindow] at hs
      rcases List.mem_append.mp hs with hs | hs
      · exact h.past s ((List.dropWhile_sublist _).mem hs)
      · rw [List.mem_singleton.mp hs]
  · intro cap hcap
    have hroom := hcalls cap hcap
    rw [charged, hcap]
    exact hroom
  · intro s hs
    rcases List.mem_append.mp hs with hs | hs
    · exact h.late s hs
    · rw [List.mem_singleton.mp hs]
      exact hlate
  · intro window hwindow
    obtain ⟨hrecords, hspaced⟩ := h.counted window hwindow
    have hroom := hrate window hwindow
    refine ⟨⟨hsorted, ?_⟩, Spaced.snoc_iff.mpr ⟨hspaced, ?_⟩⟩
    · intro later hlater
      rw [charged, hwindow, Option.elim_some, List.filter_append, List.filter_append,
        filter_live _ hlater, hrecords.counted later hlater]
    · rw [live, pruneExpired_eq h.sorted, hrecords.counted _ le_rfl] at hroom
      rw [List.countP_eq_length_filter]
      exact hroom

/-- Every end of a commit keeps the token tracked. -/
theorem Tracked.commit (h : Tracked caveats now counters admitted) {charge : ℕ}
    (hlate : LateEnough caveats now)
    {result : Except CounterExhausted CounterCommitOutcome × CaveatCounters}
    (hends : CommitEnds caveats charge now counters result) :
    Tracked caveats now result.2 (match result.1 with
      | .ok _ => admitted ++ [now]
      | .error _ => admitted) := by
  have hback : (if caveats.maxCalls.isSome then saturatingAdd counters.maxCallsUsed 1-1
      else counters.maxCallsUsed) ≤ counters.maxCallsUsed := by
    unfold saturatingAdd
    split_ifs <;> omega
  cases hends with
  | calls err _ => exact h
  | amount err _ _ => exact h.refused hback (Or.inl rfl)
  | rate err _ _ _ => exact h.refused hback (Or.inr rfl)
  | ok outcome hcalls _ hrate => exact h.taken hlate hcalls hrate

variable {caveatsOf : String → InvocationCaveats} {run : CaveatRun}

/-- Each token of a run is tracked. -/
def TrackedRun (caveatsOf : String → InvocationCaveats) (latest : ℕ) (run : CaveatRun) : Prop :=
  ∀ ucanCid, Tracked (caveatsOf ucanCid) latest (run.counters.record ucanCid)
    (run.admitted ucanCid)

theorem TrackedRun.step (h : TrackedRun caveatsOf latest run) {op : CaveatOp}
    (hle : latest ≤ op.now) (hlate : LateEnough (caveatsOf op.ucanCid) op.now) :
    TrackedRun caveatsOf op.now (run.step caveatsOf op) := by
  -- A call moves the counters of its own token, and leaves those of the others.
  intro ucanCid
  have hnow := (h ucanCid).later hle
  cases op with
  | invoke cid actionCost now =>
    rw [CaveatRun.step]
    cases hresult : consumeRecord (caveatsOf cid) actionCost now (run.counters.record cid) with
    | error err =>
      rw [consumeCaveatCounters_error hresult]
      exact hnow
    | ok record =>
      rw [consumeCaveatCounters_ok hresult]
      by_cases hcid : ucanCid = cid
      · subst hcid
        obtain ⟨hcalls, _, hrate, rfl⟩ := consumeRecord_ok_iff.mp hresult
        dsimp only [CaveatRun.settle]
        rw [record_update, Function.update_self]
        exact hnow.taken hlate hcalls hrate
      · dsimp only [CaveatRun.settle, CounterMap.record]
        rw [Function.update_of_ne hcid, Function.update_of_ne hcid]
        exact hnow
  | openStream cid costPerChunk estimatedChunkCount now =>
    rw [CaveatRun.step, CaveatRun.settle, commitCounters]
    dsimp only
    by_cases hcid : ucanCid = cid
    · subst hcid
      have hends := commitCounterReservation_ends (caveatsOf ucanCid) costPerChunk
        estimatedChunkCount now (run.counters.record ucanCid)
      have htracked := hnow.commit hlate hends
      rw [record_update]
      generalize commitCounterReservation (caveatsOf ucanCid) costPerChunk estimatedChunkCount now
        (run.counters.record ucanCid) = result at htracked ⊢
      obtain ⟨outcome, record⟩ := result
      cases outcome with
      | ok _ =>
        dsimp only
        rw [Function.update_self]
        exact htracked
      | error _ => exact htracked
    · generalize commitCounterReservation (caveatsOf cid) costPerChunk estimatedChunkCount now
        (run.counters.record cid) = result
      obtain ⟨outcome, record⟩ := result
      dsimp only [CounterMap.record]
      rw [Function.update_of_ne hcid]
      cases outcome with
      | ok _ =>
        dsimp only
        rw [Function.update_of_ne hcid]
        exact hnow
      | error _ => exact hnow

/-- Along a run every token stays tracked. -/
theorem TrackedRun.foldl (h : TrackedRun caveatsOf latest run) {ops : List CaveatOp}
    (hops : CaveatOps caveatsOf ops) (hle : ∀ op ∈ ops, latest ≤ op.now) :
    ∃ latest', TrackedRun caveatsOf latest' (ops.foldl (CaveatRun.step caveatsOf) run) := by
  induction ops generalizing latest run with
  | nil => exact ⟨latest, h⟩
  | cons op ops ih =>
    have hsorted := List.pairwise_cons.mp hops.sorted
    have hnext := h.step (hle op List.mem_cons_self) (hops.late op List.mem_cons_self)
    apply ih hnext
    · exact ⟨hsorted.2, fun op' hop' => hops.late op' (List.mem_cons_of_mem _ hop')⟩
    · intro op' hop'
      exact hsorted.1 op'.now (List.mem_map_of_mem hop')

/-- No interval of the window's length, open at either end, holds more calls than its limit. -/
structure WithinLimits (caveats : InvocationCaveats) (counters : CaveatCounters)
    (admitted : List ℕ) : Prop where
  calls : ∀ cap, caveats.maxCalls = some cap → counters.maxCallsUsed ≤ cap
  openAbove : ∀ window, caveats.rateWindow = some window → ∀ b,
    admitted.countP (fun s => b ≤ s ∧ s < b+window.windowSecs.toNat) ≤ window.max.toNat
  openBelow : ∀ window, caveats.rateWindow = some window → ∀ b,
    admitted.countP (fun s => b < s ∧ s ≤ b+window.windowSecs.toNat) ≤ window.max.toNat

theorem Tracked.withinLimits (h : Tracked caveats latest counters admitted) :
    WithinLimits caveats counters admitted := by
  refine ⟨h.calls, ?_, ?_⟩
  · intro window hwindow b
    have hspaced := (h.counted window hwindow).2
    apply (hspaced.countIn_le (b-1)).trans'
    apply List.countP_mono_left
    intro s hs hin
    -- The interval from zero on is empty: no call is earlier than the window is long.
    have hlate := h.late s hs window hwindow
    simp only [decide_eq_true_eq] at hin ⊢
    omega
  · intro window hwindow b
    exact (h.counted window hwindow).2.countIn_le b

end Runs

/-- An invocation is charged once or not at all exactly where no sum is cut at the top of the
word, and the limits on calls hold along every run. -/
theorem caveats_charged_once (counters : CounterMap) (ucanCid : String)
    (caveats : InvocationCaveats) (actionCost costPerChunk estimatedChunkCount now : ℕ)
    (record : CaveatCounters) (caveatsOf : String → InvocationCaveats) (ops : List CaveatOp) :
    (WellFormed (counters.record ucanCid) →
      (ConsumesOnce counters ucanCid caveats actionCost now ↔
        ConsumeFits caveats actionCost now (counters.record ucanCid))) ∧
    (WellFormed record →
      (CommitsOnce caveats costPerChunk estimatedChunkCount now record ↔
        CommitFits caveats costPerChunk record)) ∧
    (CaveatOps caveatsOf ops → ∀ cid,
      WithinLimits (caveatsOf cid)
        ((ops.foldl (CaveatRun.step caveatsOf) .start).counters.record cid)
        ((ops.foldl (CaveatRun.step caveatsOf) .start).admitted cid)) := by
  refine ⟨?_, ?_, ?_⟩
  · intro _
    exact consumesOnce_iff
  · intro h
    exact commitsOnce_iff h
  · intro hops cid
    have hstart : TrackedRun caveatsOf 0 .start := fun cid => Tracked.empty (caveatsOf cid)
    obtain ⟨latest, htracked⟩ := hstart.foldl hops (fun _ _ => Nat.zero_le _)
    exact (htracked cid).withinLimits

/-- A cap at the top of the word. -/
def topCap : InvocationCaveats :=
  { InvocationCaveats.empty with amountMaxCumulative := some u64Max }

/-- The same with one call a minute. -/
def topCapRated : InvocationCaveats := { topCap with rateWindow := some ⟨1, 60⟩ }

/-- Two calls of half the range are both admitted and recorded one short of their sum; an open
that the rate window refuses after one such call takes one more back than it put in. -/
theorem charge_cut_at_top :
    ¬ ConsumesOnce (consumeCaveatCounters (fun _ => none) "cid" topCap (2^63) 100).2 "cid" topCap
      (2^63) 100 ∧
    ¬ CommitsOnce topCapRated (2^63) 1 100
      ((consumeCaveatCounters (fun _ => none) "cid" topCapRated (2^63) 100).2.record "cid") := by
  refine ⟨?_, ?_⟩
  · intro honce
    have hamount := (honce.admitted (by decide +kernel)).1.amount
    revert hamount
    decide +kernel
  · intro honce
    have hamount := (honce.refused (.rateWindow 1 1 60) (by decide +kernel)).2.1
    revert hamount
    decide +kernel

def sampleOps : List CaveatOp :=
  [.invoke "cid" 10 100, .openStream "cid" 10 1 110, .invoke "cid" 10 161]

/-- The open is refused inside the window of the first call, and the call past it is admitted. -/
theorem caveats_charged_once_sample :
    (WellFormed (CounterMap.record (fun _ => none) "cid") ∧
      ConsumesOnce (fun _ => none) "cid" topCapRated 10 100) ∧
    CommitsOnce topCapRated 10 1 100
      ((consumeCaveatCounters (fun _ => none) "cid" topCapRated 10 100).2.record "cid") ∧
    (sampleOps.foldl (CaveatRun.step (fun _ => topCapRated)) .start).admitted "cid" = [100, 161] ∧
    WithinLimits topCapRated
      ((sampleOps.foldl (CaveatRun.step (fun _ => topCapRated)) .start).counters.record "cid")
      [100, 161] := by
  have hempty : WellFormed (CounterMap.record (fun _ => none) "cid") :=
    ⟨by decide, by decide, by decide⟩
  have hcharged : WellFormed
      ((consumeCaveatCounters (fun _ => none) "cid" topCapRated 10 100).2.record "cid") :=
    ⟨by decide +kernel, by decide +kernel, by decide +kernel⟩
  have hops : CaveatOps (fun _ => topCapRated) sampleOps := by
    refine ⟨by decide, ?_⟩
    rintro op hop window ⟨rfl⟩
    revert op
    decide
  have hadmitted : (sampleOps.foldl (CaveatRun.step (fun _ => topCapRated)) .start).admitted "cid" =
      [100, 161] := by
    decide +kernel
  obtain ⟨hconsume, hcommit, hrun⟩ := caveats_charged_once (fun _ => none) "cid" topCapRated 10 10 1
    100 ((consumeCaveatCounters (fun _ => none) "cid" topCapRated 10 100).2.record "cid")
    (fun _ => topCapRated) sampleOps
  have hlimits := hrun hops "cid"
  rw [hadmitted] at hlimits
  refine ⟨⟨hempty, (hconsume hempty).mpr ?_⟩, (hcommit hcharged).mpr ?_, hadmitted, hlimits⟩
  · intro _ _ _
    exact ⟨fun h => absurd h (by decide), fun _ => by decide⟩
  · intro _
    exact ⟨fun h => absurd h (by decide), fun _ _ => by decide +kernel⟩

end ScpCore.Outlets
