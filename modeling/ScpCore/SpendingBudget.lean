import ScpCore.CaveatCounters
import ScpCore.UcanCapability

/-! Spending capabilities: the attenuation rule between a parent and a child, and the
tracker that holds the spends of a rolling window under `maxTotal`. -/

namespace ScpCore.Spending

/-- A `std::time::Duration`. -/
structure Duration where
  secs : UInt64
  nanos : UInt32
  valid : nanos.toNat < 10^9
  deriving DecidableEq

def Duration.atMost (a b : Duration) : Bool :=
  a.secs < b.secs || (a.secs = b.secs && a.nanos ≤ b.nanos)

/-- Three or four characters, padded with zero bytes. -/
structure CurrencyCode where
  b0 : UInt8
  b1 : UInt8
  b2 : UInt8
  b3 : UInt8
  deriving DecidableEq

structure SpendingCapability where
  maxPerAction : UInt64
  maxTotal : UInt64
  currency : CurrencyCode
  timeWindow : Duration
  allowedAdapters : List String
  deriving DecidableEq

/-- The text of an attenuation error: what the child widens. -/
inductive Widening
  | currencyMismatch (parent child : CurrencyCode)
  | maxPerAction (parent child : UInt64)
  | maxTotal (parent child : UInt64)
  | timeWindow (parentSecs childSecs : UInt64)
  | unrestrictedAdapters (allowed : List String)
  | adapter (adapter : String) (allowed : List String)
  deriving DecidableEq

/-- The text of `SpendingCapabilityRequired`. -/
inductive Missing
  | noSpendingAttestation
  | noFacts
  | noCapabilityFact
  | unreadableCapability
  deriving DecidableEq

inductive SpendingError
  | spendingCapabilityRequired (reason : Missing)
  | invalidResourceUri (uri : String)
  | perActionLimitExceeded (cost max : UInt64) (currency : CurrencyCode)
  | totalLimitExceeded (total : ℕ) (cost max : UInt64) (currency : CurrencyCode)
  | expiryTooLong (actualSecs maxSecs : ℕ)
  | currencyMismatch (expected actual : CurrencyCode)
  | attenuationViolation (widening : Widening)
  | adapterNotAllowed (adapter : String) (allowed : List String)
  | scopeNotCovered (scope contextId : String)
  | ucan (error : Ucan.UcanError)
  deriving DecidableEq

/-- A parent that lists no adapter allows any; one that lists some binds the child. -/
def validateAdapters (parent child : List String) : Except SpendingError Unit :=
  if parent = [] then .ok ()
  else do
    require (child ≠ []) (.attenuationViolation (.unrestrictedAdapters parent))
    checkEach (fun adapter =>
      require (adapter ∈ parent) (.attenuationViolation (.adapter adapter parent))) child

def validateSpendingAttenuation (parent child : SpendingCapability) :
    Except SpendingError Unit := do
  require (parent.currency = child.currency)
    (.attenuationViolation (.currencyMismatch parent.currency child.currency))
  require (child.maxPerAction ≤ parent.maxPerAction)
    (.attenuationViolation (.maxPerAction parent.maxPerAction child.maxPerAction))
  require (child.maxTotal ≤ parent.maxTotal)
    (.attenuationViolation (.maxTotal parent.maxTotal child.maxTotal))
  require (child.timeWindow.atMost parent.timeWindow)
    (.attenuationViolation (.timeWindow parent.timeWindow.secs child.timeWindow.secs))
  validateAdapters parent.allowedAdapters child.allowedAdapters

structure SpendRecord where
  amount : UInt64
  timestampSecs : UInt64
  deriving DecidableEq

structure BudgetTracker where
  capability : SpendingCapability
  records : List SpendRecord
  deriving DecidableEq

/-- The arguments of `check_and_record`. -/
structure Spend where
  amount : UInt64
  currency : CurrencyCode
  nowSecs : UInt64
  adapterId : String
  deriving DecidableEq

def totalOf (records : List SpendRecord) : ℕ := (records.map (·.amount.toNat)).sum

namespace SpendingCapability
variable (capability : SpendingCapability)

/-- The first second of the window that ends now; the subtraction stops at zero. -/
def windowStart (nowSecs : UInt64) : ℕ := nowSecs.toNat-capability.timeWindow.secs.toNat

/-- The checks on a spend that read no record, in their order. -/
def checkSpend (spend : Spend) : Except SpendingError Unit := do
  require (spend.currency = capability.currency)
    (.currencyMismatch capability.currency spend.currency)
  require (capability.allowedAdapters = [] || spend.adapterId ∈ capability.allowedAdapters)
    (.adapterNotAllowed spend.adapterId capability.allowedAdapters)
  require (spend.amount ≤ capability.maxPerAction)
    (.perActionLimitExceeded spend.amount capability.maxPerAction spend.currency)

end SpendingCapability

namespace BudgetTracker
variable (tracker : BudgetTracker)

def new (capability : SpendingCapability) : BudgetTracker := ⟨capability, []⟩

/-- The sum is a word: it wraps. -/
def currentTotal (nowSecs : UInt64) : ℕ :=
  totalOf (tracker.records.filter
    (fun r => tracker.capability.windowStart nowSecs ≤ r.timestampSecs.toNat))%2^64

def prune (nowSecs : UInt64) : BudgetTracker :=
  { tracker with
    records := tracker.records.dropWhile
      (fun r => r.timestampSecs.toNat < tracker.capability.windowStart nowSecs) }

/-- The total check, and the record of a spend that passes it. -/
def recordSpend (spend : Spend) : Except SpendingError Unit × BudgetTracker :=
  if tracker.capability.maxTotal.toNat <
      saturatingAdd (tracker.currentTotal spend.nowSecs) spend.amount.toNat then
    (.error (.totalLimitExceeded (tracker.currentTotal spend.nowSecs) spend.amount
      tracker.capability.maxTotal spend.currency), tracker)
  else (.ok (), { tracker with records := tracker.records ++ [⟨spend.amount, spend.nowSecs⟩] })

/-- The result and the tracker after it: a spend over the total has still pruned. -/
def checkAndRecord (spend : Spend) : Except SpendingError Unit × BudgetTracker :=
  match tracker.capability.checkSpend spend with
  | .error e => (.error e, tracker)
  | .ok () => (tracker.prune spend.nowSecs).recordSpend spend

/-- Every spend of a sequence is admitted. -/
def admitsAll : BudgetTracker → List Spend → Bool
  | _, [] => true
  | tracker, spend :: spends =>
    (tracker.checkAndRecord spend).1.toOption.isSome &&
      admitsAll (tracker.checkAndRecord spend).2 spends

end BudgetTracker

-- A spend of `n` units is `n` calls at its time. Times are shifted by one second, so that
-- a window that counts both of its ends is one that counts only the later end.

def Spend.units (spend : Spend) : List ℕ :=
  List.replicate spend.amount.toNat (spend.nowSecs.toNat+1)

def unitsOf (spends : List Spend) : List ℕ := spends.flatMap Spend.units

def Spend.record (spend : Spend) : SpendRecord := ⟨spend.amount, spend.nowSecs⟩

theorem unitsOf_append (spends spends' : List Spend) :
    unitsOf (spends ++ spends') = unitsOf spends ++ unitsOf spends' := by
  simp [unitsOf]

/-- The units counted from a second on are the total of the spends from that second on. -/
theorem countP_unitsOf (start : ℕ) (spends : List Spend) :
    (unitsOf spends).countP (fun s => start < s) =
      totalOf ((spends.map Spend.record).filter (fun r => start ≤ r.timestampSecs.toNat)) := by
  induction spends with
  | nil => rfl
  | cons spend spends ih =>
    have hcons : unitsOf (spend :: spends) = spend.units ++ unitsOf spends := rfl
    rw [hcons, List.countP_append, ih, List.map_cons, Spend.units, List.countP_replicate]
    by_cases hin : start ≤ spend.nowSecs.toNat
    · rw [if_pos (by simpa using (by omega : start < spend.nowSecs.toNat+1)),
        List.filter_cons_of_pos (by exact decide_eq_true hin)]
      rfl
    · rw [if_neg (by simpa using (by omega : ¬ start < spend.nowSecs.toNat+1)),
        List.filter_cons_of_neg (by rw [decide_eq_true_eq]; exact hin), Nat.zero_add]

/-- The whole of a sequence, in units. -/
def totalSpent (spends : List Spend) : ℕ := totalOf (spends.map Spend.record)

theorem totalOf_sublist {records all : List SpendRecord} (h : records.Sublist all) :
    totalOf records ≤ totalOf all :=
  (h.map _).sum_le_sum (fun _ _ => Nat.zero_le _)

theorem length_unitsOf (spends : List Spend) : (unitsOf spends).length = totalSpent spends := by
  induction spends with
  | nil => rfl
  | cons spend spends ih =>
    have hcons : unitsOf (spend :: spends) = spend.units ++ unitsOf spends := rfl
    rw [hcons, List.length_append, ih, Spend.units, List.length_replicate]
    rfl

theorem filter_dropWhile {α : Type} {p q : α → Bool} (h : ∀ a, p a = true → ¬ q a = true)
    (as : List α) : (as.dropWhile p).filter q = as.filter q := by
  induction as with
  | nil => rfl
  | cons a as ih =>
    by_cases hp : p a = true
    · rw [List.dropWhile_cons_of_pos hp, ih, List.filter_cons_of_neg (h a hp)]
    · rw [List.dropWhile_cons_of_neg hp]

section Run
variable {capability : SpendingCapability} {tracker : BudgetTracker} {past spends : List Spend}
  {spend : Spend} {cutoff : ℕ}

/-- The tracker's records are the spends so far, as far as a window that starts at the
cutoff or later can see. -/
structure Tracks (capability : SpendingCapability) (tracker : BudgetTracker) (past : List Spend)
    (cutoff : ℕ) : Prop where
  capability : tracker.capability = capability
  counted : ∀ start, cutoff ≤ start →
    tracker.records.filter (fun r => start ≤ r.timestampSecs.toNat) =
      (past.map Spend.record).filter (fun r => start ≤ r.timestampSecs.toNat)

/-- The units that the window of a spend counts. -/
def unitsInWindow (capability : SpendingCapability) (past : List Spend) (nowSecs : UInt64) : ℕ :=
  (unitsOf past).countP (fun s => capability.windowStart nowSecs < s)

/-- One spend: admitted where its own checks pass and the window has room for it. -/
theorem Tracks.checkAndRecord (h : Tracks capability tracker past cutoff)
    (hcutoff : cutoff ≤ capability.windowStart spend.nowSecs)
    (hfits : totalSpent past+spend.amount.toNat < 2^64) :
    ((tracker.checkAndRecord spend).1 = .ok () ↔ capability.checkSpend spend = .ok () ∧
      unitsInWindow capability past spend.nowSecs+spend.amount.toNat ≤ capability.maxTotal.toNat) ∧
    ((tracker.checkAndRecord spend).1 = .ok () →
      Tracks capability (tracker.checkAndRecord spend).2 (past ++ [spend])
        (capability.windowStart spend.nowSecs)) := by
  -- Pruning stops at the first record that is in the window, and drops none that is.
  have hpruned (start : ℕ) (hstart : capability.windowStart spend.nowSecs ≤ start) :
      (tracker.prune spend.nowSecs).records.filter (fun r => start ≤ r.timestampSecs.toNat) =
        (past.map Spend.record).filter (fun r => start ≤ r.timestampSecs.toNat) := by
    rw [← h.counted start (hcutoff.trans hstart)]
    apply filter_dropWhile
    intro r hr
    rw [h.capability] at hr
    simp only [decide_eq_true_eq] at hr ⊢
    omega
  have hcap : (tracker.prune spend.nowSecs).capability = capability := h.capability
  -- The sum does not wrap, as all spends together are a word.
  have htotal : (tracker.prune spend.nowSecs).currentTotal spend.nowSecs =
      unitsInWindow capability past spend.nowSecs := by
    have hle : totalOf ((past.map Spend.record).filter (fun r =>
        capability.windowStart spend.nowSecs ≤ r.timestampSecs.toNat)) ≤ totalSpent past :=
      totalOf_sublist List.filter_sublist
    rw [BudgetTracker.currentTotal, hcap, hpruned _ le_rfl, unitsInWindow, countP_unitsOf]
    exact Nat.mod_eq_of_lt (by omega)
  have hsum : unitsInWindow capability past spend.nowSecs ≤ totalSpent past := by
    rw [← length_unitsOf]
    exact List.countP_le_length
  rw [BudgetTracker.checkAndRecord, h.capability]
  cases hspend : capability.checkSpend spend with
  | error e =>
    refine ⟨⟨nofun, ?_⟩, nofun⟩
    intro hboth
    cases hboth.1
  | ok u =>
    simp only [BudgetTracker.recordSpend, hcap, htotal]
    by_cases hover : capability.maxTotal.toNat <
        saturatingAdd (unitsInWindow capability past spend.nowSecs) spend.amount.toNat
    · simp only [if_pos hover]
      refine ⟨⟨nofun, ?_⟩, nofun⟩
      intro hboth
      rw [saturatingAdd, u64Max] at hover
      omega
    · simp only [if_neg hover]
      rw [saturatingAdd, u64Max] at hover
      refine ⟨⟨fun _ => ⟨trivial, by omega⟩, fun _ => trivial⟩, fun _ => ⟨rfl, ?_⟩⟩
      intro start hstart
      rw [List.filter_append, hpruned start hstart, List.map_append, List.filter_append]
      rfl

/-- A window holds no more than the total, so a spend of nothing has room. -/
theorem unitsInWindow_le (hspaced : Spaced capability.maxTotal.toNat
      (capability.timeWindow.secs.toNat+1) (unitsOf past))
    (hpast : ∀ s ∈ past, s.nowSecs ≤ spend.nowSecs) :
    unitsInWindow capability past spend.nowSecs ≤ capability.maxTotal.toNat := by
  apply (hspaced.countIn_le (capability.windowStart spend.nowSecs)).trans'
  unfold unitsInWindow countIn
  apply List.countP_mono_left
  intro t ht hlt
  obtain ⟨s, hs, hts⟩ := List.mem_flatMap.mp ht
  have hle : s.nowSecs.toNat ≤ spend.nowSecs.toNat := hpast s hs
  have heq := List.eq_of_mem_replicate hts
  rw [decide_eq_true_eq] at hlt ⊢
  unfold SpendingCapability.windowStart at hlt ⊢
  omega

theorem spaced_snoc_iff (hspaced : Spaced capability.maxTotal.toNat
      (capability.timeWindow.secs.toNat+1) (unitsOf past))
    (hpast : ∀ s ∈ past, s.nowSecs ≤ spend.nowSecs) :
    Spaced capability.maxTotal.toNat (capability.timeWindow.secs.toNat+1)
        (unitsOf (past ++ [spend])) ↔
      unitsInWindow capability past spend.nowSecs+spend.amount.toNat ≤ capability.maxTotal.toNat := by
  have hle := unitsInWindow_le hspaced hpast
  have hunits : unitsOf (past ++ [spend]) =
      unitsOf past ++ List.replicate spend.amount.toNat (spend.nowSecs.toNat+1) := by
    rw [unitsOf_append]
    simp [unitsOf, Spend.units]
  have hstart : spend.nowSecs.toNat+1-(capability.timeWindow.secs.toNat+1) =
      capability.windowStart spend.nowSecs := by
    rw [SpendingCapability.windowStart]
    omega
  rw [hunits, Spaced.append_replicate_iff (by omega), hstart]
  constructor
  · intro ⟨_, hroom⟩
    rcases hroom with hzero | hroom
    · omega
    · exact hroom
  · intro hroom
    exact ⟨hspaced, Or.inr hroom⟩

/-- The admitted sequences: every spend passes its own checks, and the units are spaced. -/
theorem admitsAll_iff (h : Tracks capability tracker past cutoff)
    (hspaced : Spaced capability.maxTotal.toNat (capability.timeWindow.secs.toNat+1)
      (unitsOf past))
    (hsorted : (past ++ spends).Pairwise (fun s s' => s.nowSecs ≤ s'.nowSecs))
    (hcutoff : ∀ s ∈ spends, cutoff ≤ capability.windowStart s.nowSecs)
    (hfits : totalSpent (past ++ spends) < 2^64) :
    tracker.admitsAll spends = true ↔ (∀ s ∈ spends, capability.checkSpend s = .ok ()) ∧
      Spaced capability.maxTotal.toNat (capability.timeWindow.secs.toNat+1)
        (unitsOf (past ++ spends)) := by
  induction spends generalizing tracker past cutoff with
  | nil => simpa [BudgetTracker.admitsAll] using hspaced
  | cons spend spends ih =>
    have hassoc : past ++ spend :: spends = (past ++ [spend]) ++ spends := by simp
    rw [hassoc] at hsorted hfits ⊢
    have hpast : ∀ s ∈ past, s.nowSecs ≤ spend.nowSecs := by
      intro s hs
      exact (List.pairwise_append.mp (List.pairwise_append.mp hsorted).1).2.2 s hs spend
        List.mem_cons_self
    have hlater : ∀ s ∈ spends,
        capability.windowStart spend.nowSecs ≤ capability.windowStart s.nowSecs := by
      intro s hs
      have hle : spend.nowSecs.toNat ≤ s.nowSecs.toNat :=
        (List.pairwise_append.mp hsorted).2.2 spend (by simp) s hs
      exact Nat.sub_le_sub_right hle _
    have hnow : totalSpent past+spend.amount.toNat < 2^64 := by
      have hsplit : totalSpent ((past ++ [spend]) ++ spends) =
          totalSpent past+spend.amount.toNat+totalSpent spends := by
        simp [totalSpent, totalOf, Nat.add_assoc, Spend.record]
      omega
    obtain ⟨hok, hnext⟩ := h.checkAndRecord (hcutoff spend List.mem_cons_self) hnow
    rw [BudgetTracker.admitsAll, Bool.and_eq_true]
    cases hresult : (tracker.checkAndRecord spend).1 with
    | error e =>
      refine ⟨nofun, ?_⟩
      intro ⟨hchecks, hall⟩
      -- A refused spend has failed its own checks or had no room.
      have hroom := (spaced_snoc_iff hspaced hpast).mp
        (by rw [unitsOf_append] at hall; exact hall.of_append)
      have hadmitted := hok.mpr ⟨hchecks spend List.mem_cons_self, hroom⟩
      rw [hresult] at hadmitted
      cases hadmitted
    | ok u =>
      obtain ⟨hcheck, hroom⟩ := hok.mp hresult
      have hrest := ih (hnext hresult) ((spaced_snoc_iff hspaced hpast).mpr hroom) hsorted hlater
        hfits
      rw [hrest, List.forall_mem_cons]
      simp [hcheck, Except.toOption]

/-- A fresh tracker. -/
theorem new_admitsAll_iff (hsorted : spends.Pairwise (fun s s' => s.nowSecs ≤ s'.nowSecs))
    (hfits : totalSpent spends < 2^64) :
    (BudgetTracker.new capability).admitsAll spends = true ↔
      (∀ s ∈ spends, capability.checkSpend s = .ok ()) ∧
      Spaced capability.maxTotal.toNat (capability.timeWindow.secs.toNat+1) (unitsOf spends) := by
  have hnew : Tracks capability (BudgetTracker.new capability) [] 0 := ⟨rfl, fun _ _ => rfl⟩
  exact admitsAll_iff hnew Spaced.nil hsorted (fun _ _ => Nat.zero_le _) hfits

end Run

section Compare
variable {p c : SpendingCapability} {spends : List Spend}

/-- Spends in order, none of them before either window has run, that sum to a word. -/
structure Schedule (p c : SpendingCapability) (spends : List Spend) : Prop where
  sorted : spends.Pairwise (fun s s' => s.nowSecs ≤ s'.nowSecs)
  late : ∀ s ∈ spends, p.timeWindow.secs ≤ s.nowSecs ∧ c.timeWindow.secs ≤ s.nowSecs
  fits : totalSpent spends < 2^64

/-- Whatever a tracker of the child admits, one of the parent does. -/
def BudgetNarrows (p c : SpendingCapability) : Prop :=
  ∀ spends, Schedule p c spends → (BudgetTracker.new c).admitsAll spends = true →
    (BudgetTracker.new p).admitsAll spends = true

/-- How far apart two spends of one window can lie: its length, or what the clock has left
once the window has run. -/
def SpendingCapability.reach (p : SpendingCapability) : ℕ :=
  min p.timeWindow.secs.toNat (2^64-1-p.timeWindow.secs.toNat)

/-- What attenuation has compared. -/
structure Attenuated (p c : SpendingCapability) : Prop where
  currency : p.currency = c.currency
  perAction : c.maxPerAction.toNat ≤ p.maxPerAction.toNat
  total : c.maxTotal.toNat ≤ p.maxTotal.toNat
  window : c.timeWindow.secs.toNat ≤ p.timeWindow.secs.toNat
  adapters : p.allowedAdapters = [] ∨
    c.allowedAdapters ≠ [] ∧ ∀ adapter ∈ c.allowedAdapters, adapter ∈ p.allowedAdapters

theorem Attenuated.of_ok (h : validateSpendingAttenuation p c = .ok ()) : Attenuated p c := by
  simp only [validateSpendingAttenuation, bind_ok_iff, exists_unit_iff, require_ok_iff,
    decide_eq_true_eq] at h
  obtain ⟨hcurrency, haction, htotal, hwindow, hadapters⟩ := h
  refine ⟨hcurrency, haction, htotal, ?_, ?_⟩
  · simp only [Duration.atMost, Bool.or_eq_true, Bool.and_eq_true, decide_eq_true_eq] at hwindow
    rcases hwindow with hlt | ⟨heq, _⟩
    · exact Nat.le_of_lt hlt
    · rw [heq]
  · by_cases hany : p.allowedAdapters = []
    · exact Or.inl hany
    · rw [validateAdapters, if_neg hany] at hadapters
      exact Or.inr (by simpa using hadapters)

theorem Attenuated.checkSpend (h : Attenuated p c) {spend : Spend}
    (hspend : c.checkSpend spend = .ok ()) : p.checkSpend spend = .ok () := by
  simp only [SpendingCapability.checkSpend, bind_ok_iff, exists_unit_iff, require_ok_iff,
    Bool.or_eq_true, decide_eq_true_eq] at hspend ⊢
  obtain ⟨hcurrency, hadapter, hamount⟩ := hspend
  refine ⟨by rw [hcurrency, h.currency], ?_, hamount.trans h.perAction⟩
  rcases h.adapters with hany | ⟨hsome, hsub⟩
  · exact Or.inl hany
  · rcases hadapter with hnone | hmem
    · exact absurd hnone hsome
    · exact Or.inr (hsub _ hmem)

theorem Schedule.late_units (h : Schedule p c spends) {t : ℕ} (ht : t ∈ unitsOf spends) :
    p.timeWindow.secs.toNat+1 ≤ t ∧ c.timeWindow.secs.toNat+1 ≤ t ∧ t ≤ 2^64 := by
  obtain ⟨s, hs, hts⟩ := List.mem_flatMap.mp ht
  have heq := List.eq_of_mem_replicate hts
  have hp : p.timeWindow.secs.toNat ≤ s.nowSecs.toNat := (h.late s hs).1
  have hc : c.timeWindow.secs.toNat ≤ s.nowSecs.toNat := (h.late s hs).2
  have hclock := s.nowSecs.toNat_lt
  omega

theorem Schedule.sorted_units (h : Schedule p c spends) :
    (unitsOf spends).Pairwise (· ≤ ·) := by
  rw [unitsOf, List.pairwise_flatMap]
  refine ⟨?_, ?_⟩
  · intro s _
    exact List.pairwise_replicate.mpr (Or.inr le_rfl)
  · apply h.sorted.imp
    intro s s' hle t ht t' ht'
    have hnow : s.nowSecs.toNat ≤ s'.nowSecs.toNat := hle
    rw [List.eq_of_mem_replicate ht, List.eq_of_mem_replicate ht']
    omega

/-- Within the reach of the parent's window is within the window. -/
theorem Schedule.spaced_of_reach (h : Schedule p c spends) {m : ℕ}
    (hspaced : Spaced m (p.reach+1) (unitsOf spends)) :
    Spaced m (p.timeWindow.secs.toNat+1) (unitsOf spends) := by
  intro before t after heq
  apply lt_of_le_of_lt _ (hspaced before t after heq)
  apply List.countP_mono_left
  intro s hs hlt
  have hlate := h.late_units (t := s) (by simp [heq, hs])
  have hend := h.late_units (t := t) (by simp [heq])
  rw [decide_eq_true_eq] at hlt ⊢
  unfold SpendingCapability.reach
  omega

/-- A spend of one unit that passes the child's own checks. -/
def unitSpend (c : SpendingCapability) (t : ℕ) : Spend :=
  ⟨1, c.currency, UInt64.ofNat t, c.allowedAdapters.headD ""⟩

theorem unitSpend_ok (hpos : 0 < c.maxPerAction.toNat) (t : ℕ) :
    c.checkSpend (unitSpend c t) = .ok () := by
  have hadapter : c.allowedAdapters = [] ∨ c.allowedAdapters.headD "" ∈ c.allowedAdapters := by
    cases c.allowedAdapters with
    | nil => exact Or.inl rfl
    | cons a as => exact Or.inr List.mem_cons_self
  have hamount : (1 : UInt64) ≤ c.maxPerAction := hpos
  simp only [SpendingCapability.checkSpend, unitSpend, bind_ok_iff, exists_unit_iff,
    require_ok_iff, Bool.or_eq_true, decide_eq_true_eq]
  exact ⟨trivial, hadapter.imp_right decide_eq_true, decide_eq_true hamount⟩

theorem unitsOf_unitSpends {times : List ℕ} (h : ∀ t ∈ times, t < 2^64) :
    unitsOf (times.map (unitSpend c)) = times.map (·+1) := by
  induction times with
  | nil => rfl
  | cons t times ih =>
    have hcons : unitsOf ((t :: times).map (unitSpend c)) =
        (unitSpend c t).units ++ unitsOf (times.map (unitSpend c)) := rfl
    have ht : (UInt64.ofNat t).toNat = t := UInt64.toNat_ofNat_of_lt' (h t List.mem_cons_self)
    have hunits : (unitSpend c t).units = [t+1] := by
      rw [Spend.units, unitSpend, ht]
      rfl
    rw [hcons, hunits, ih (fun t' ht' => h t' (List.mem_cons_of_mem _ ht'))]
    rfl

theorem packed_shift (m w base n : ℕ) :
    (packed m w base n).map (·+1) = packed m w (base+1) n := by
  simp only [packed, List.map_map]
  apply List.map_congr_left
  intro i _
  simp only [Function.comp_apply]
  omega

/-- The densest units that the child's total admits, from the end of the parent's window on. -/
def densest (p c : SpendingCapability) : List ℕ :=
  packed c.maxTotal.toNat (c.timeWindow.secs.toNat+1) p.timeWindow.secs.toNat
    (p.maxTotal.toNat+1)

theorem schedule_densest (h : Attenuated p c) (htop : p.maxTotal.toNat ≠ 2^64-1)
    (hlast : p.maxTotal.toNat/c.maxTotal.toNat*(c.timeWindow.secs.toNat+1) ≤ p.reach) :
    Schedule p c ((densest p c).map (unitSpend c)) ∧
      unitsOf ((densest p c).map (unitSpend c)) = packed c.maxTotal.toNat
        (c.timeWindow.secs.toNat+1) (p.timeWindow.secs.toNat+1) (p.maxTotal.toNat+1) := by
  have hclock : ∀ t ∈ densest p c, p.timeWindow.secs.toNat ≤ t ∧ t < 2^64 := by
    intro t ht
    have hmem := mem_packed ht
    have hword := p.timeWindow.secs.toNat_lt
    unfold SpendingCapability.reach at hlast
    omega
  have hnow : ∀ t ∈ densest p c, (unitSpend c t).nowSecs.toNat = t :=
    fun t ht => UInt64.toNat_ofNat_of_lt' (hclock t ht).2
  have hunits := unitsOf_unitSpends (c := c) (fun t ht => (hclock t ht).2)
  have hword := p.maxTotal.toNat_lt
  refine ⟨⟨?_, ?_, ?_⟩, ?_⟩
  · rw [List.pairwise_map]
    apply (packed_sorted : (densest p c).Pairwise _).imp_of_mem
    intro t t' ht ht' hle
    rw [UInt64.le_iff_toNat_le, hnow t ht, hnow t' ht']
    exact hle
  · intro s hs
    obtain ⟨t, ht, rfl⟩ := List.mem_map.mp hs
    rw [UInt64.le_iff_toNat_le, UInt64.le_iff_toNat_le, hnow t ht]
    exact ⟨(hclock t ht).1, h.window.trans (hclock t ht).1⟩
  · rw [← length_unitsOf, hunits, List.length_map, densest, packed, List.length_map,
      List.length_range]
    omega
  · rw [hunits, densest, packed_shift]

/-- The budgets that have room for whatever the child may spend. -/
def HasRoom (p c : SpendingCapability) : Prop :=
  c.maxPerAction = 0 ∨ p.maxTotal.toNat = 2^64-1 ∨
    c.maxTotal.toNat*(p.reach/(c.timeWindow.secs.toNat+1)+1) ≤ p.maxTotal.toNat

theorem Attenuated.room_of_narrows (h : Attenuated p c) (hnarrows : BudgetNarrows p c) :
    HasRoom p c := by
  by_contra hnot
  rw [HasRoom, not_or, not_or, not_le] at hnot
  obtain ⟨haction, htop, hover⟩ := hnot
  have hpos : 0 < c.maxTotal.toNat := by
    apply Nat.pos_of_ne_zero
    intro hzero
    rw [hzero, Nat.zero_mul] at hover
    omega
  have hblocks : p.maxTotal.toNat/c.maxTotal.toNat ≤ p.reach/(c.timeWindow.secs.toNat+1) := by
    rw [Nat.mul_comm] at hover
    have hlt := (Nat.div_lt_iff_lt_mul hpos).mpr hover
    omega
  have hlast : p.maxTotal.toNat/c.maxTotal.toNat*(c.timeWindow.secs.toNat+1) ≤ p.reach :=
    (Nat.mul_le_mul_right _ hblocks).trans (Nat.div_mul_le_self _ _)
  -- The child's total, over and over, is one unit more than the parent's before its window ends.
  obtain ⟨hschedule, hunits⟩ := schedule_densest h htop hlast
  have hspends : ∀ s ∈ (densest p c).map (unitSpend c), c.checkSpend s = .ok () := by
    intro s hs
    obtain ⟨t, _, rfl⟩ := List.mem_map.mp hs
    apply unitSpend_ok
    apply Nat.pos_of_ne_zero
    intro hzero
    exact haction (UInt64.toNat_inj.mp hzero)
  have hchild := (new_admitsAll_iff hschedule.sorted hschedule.fits).mpr
    ⟨hspends, by rw [hunits]; exact packed_spaced hpos⟩
  have hparent := ((new_admitsAll_iff hschedule.sorted hschedule.fits).mp
    (hnarrows _ hschedule hchild)).2
  rw [hunits] at hparent
  have hreach : p.reach ≤ p.timeWindow.secs.toNat := Nat.min_le_left _ _
  exact packed_not_spaced (by omega) le_rfl hparent

theorem Attenuated.narrows_of_room (h : Attenuated p c) (hroom : HasRoom p c) :
    BudgetNarrows p c := by
  intro spends hschedule hadmits
  rw [new_admitsAll_iff hschedule.sorted hschedule.fits] at hadmits ⊢
  obtain ⟨hspends, hspaced⟩ := hadmits
  refine ⟨fun s hs => h.checkSpend (hspends s hs), ?_⟩
  rcases List.eq_nil_or_concat (unitsOf spends) with hnone | ⟨_, _, hsome⟩
  · rw [hnone]
    exact Spaced.nil
  rcases hroom with haction | htop | hfits
  · -- A child that may spend nothing has no unit.
    have hunit : unitsOf spends = [] := by
      rw [unitsOf, List.flatMap_eq_nil_iff]
      intro s hs
      have hcheck := hspends s hs
      simp only [SpendingCapability.checkSpend, bind_ok_iff, exists_unit_iff, require_ok_iff,
        decide_eq_true_eq, haction] at hcheck
      have hzero : s.amount.toNat = 0 := Nat.le_zero.mp hcheck.2.2
      rw [Spend.units, hzero]
      rfl
    rw [hunit]
    exact Spaced.nil
  · -- No more units than a word.
    intro before t after heq
    have hlen := congrArg List.length heq
    have hcount := List.countP_le_length
      (p := fun s => decide (t-(p.timeWindow.secs.toNat+1) < s)) (l := before)
    have hword := hschedule.fits
    rw [length_unitsOf, List.length_append, List.length_cons] at hlen
    omega
  · -- The parent's window is covered by windows of the child, each with the child's total.
    apply hschedule.spaced_of_reach
    have hpos : 0 < p.maxTotal.toNat := by
      have hlast := hspaced _ _ [] (by rw [hsome, List.concat_eq_append])
      have htotal := h.total
      omega
    have hmod := Nat.div_add_mod p.reach (c.timeWindow.secs.toNat+1)
    have hrem := Nat.mod_lt p.reach (show 0 < c.timeWindow.secs.toNat+1 by omega)
    apply hspaced.widen hschedule.sorted_units
      (k := p.reach/(c.timeWindow.secs.toNat+1)+1) (by rw [Nat.mul_comm]; exact hfits) hpos
    · rw [Nat.add_mul, Nat.one_mul, Nat.mul_comm]
      omega
    · intro t ht
      exact (hschedule.late_units ht).2.1

/-- A capability that passes attenuation stays inside the parent's budget exactly where the
parent's total has room for the child's total in each of the child's windows that the
parent's window reaches, or no spend of a word can pass it, or the child can spend nothing. -/
theorem budget_narrows_iff (h : validateSpendingAttenuation p c = .ok ()) :
    BudgetNarrows p c ↔ c.maxPerAction = 0 ∨ p.maxTotal.toNat = 2^64-1 ∨
      c.maxTotal.toNat*(p.reach/(c.timeWindow.secs.toNat+1)+1) ≤ p.maxTotal.toNat := by
  have hatt := Attenuated.of_ok h
  constructor
  · exact hatt.room_of_narrows
  · exact hatt.narrows_of_room

end Compare

-- Sixty cents an hour narrowed to a cent a minute, and a cent an hour to the same.

def sampleCapability (maxTotal secs : UInt64) : SpendingCapability :=
  ⟨1, maxTotal, ⟨85, 83, 68, 0⟩, ⟨secs, 0, by decide⟩, []⟩

def sampleSpend (nowSecs : UInt64) : Spend := ⟨1, ⟨85, 83, 68, 0⟩, nowSecs, "card"⟩

theorem cent_a_minute_narrows :
    BudgetNarrows (sampleCapability 60 3600) (sampleCapability 1 60) :=
  (budget_narrows_iff (by decide +kernel)).mpr (Or.inr (Or.inr (by decide +kernel)))

/-- Two cents in an hour pass a cent a minute, which attenuation takes for narrower than a
cent an hour. -/
theorem shorter_window_spends_more :
    validateSpendingAttenuation (sampleCapability 1 3600) (sampleCapability 1 60) = .ok () ∧
    Schedule (sampleCapability 1 3600) (sampleCapability 1 60)
      [sampleSpend 10000, sampleSpend 10100] ∧
    (BudgetTracker.new (sampleCapability 1 60)).admitsAll
      [sampleSpend 10000, sampleSpend 10100] = true ∧
    (BudgetTracker.new (sampleCapability 1 3600)).admitsAll
      [sampleSpend 10000, sampleSpend 10100] = false ∧
    ¬ BudgetNarrows (sampleCapability 1 3600) (sampleCapability 1 60) := by
  have hschedule : Schedule (sampleCapability 1 3600) (sampleCapability 1 60)
      [sampleSpend 10000, sampleSpend 10100] :=
    ⟨by decide +kernel, by decide +kernel, by decide +kernel⟩
  have hchild : (BudgetTracker.new (sampleCapability 1 60)).admitsAll
      [sampleSpend 10000, sampleSpend 10100] = true := by decide +kernel
  have hparent : (BudgetTracker.new (sampleCapability 1 3600)).admitsAll
      [sampleSpend 10000, sampleSpend 10100] = false := by decide +kernel
  refine ⟨by decide +kernel, hschedule, hchild, hparent, ?_⟩
  intro hnarrows
  rw [hnarrows _ hschedule hchild] at hparent
  cases hparent

end ScpCore.Spending
