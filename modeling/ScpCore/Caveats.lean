import ScpCore.JsonSchema

/-! Invocation caveats and their attenuation. Each field has a narrowing rule of its
own; a child that passes them all admits no invocation and no time its parent does
not. -/

namespace ScpCore.Caveats

open Schema

inductive OutletKind
  | query | action
  deriving DecidableEq

structure RateWindow where
  max : UInt32
  windowSecs : UInt32
  deriving DecidableEq

structure InvocationCaveats where
  amountMaxPerCall : Option ℕ
  amountMaxCumulative : Option ℕ
  validFrom : Option ℕ
  validUntil : Option ℕ
  hoursOfDay : Option (BitVec 32)
  daysOfWeek : Option (BitVec 8)
  maxCalls : Option ℕ
  rateWindow : Option RateWindow
  inputSchema : Option Json
  allowedAdapters : Option (List String)
  allowedTargetDids : Option (List String)
  originKind : Option OutletKind
  deriving DecidableEq

namespace InvocationCaveats

def empty : InvocationCaveats :=
  ⟨none, none, none, none, none, none, none, none, none, none, none, none⟩

end InvocationCaveats

inductive MaskWidthError
  | hoursOfDayHighBitsSet (bits : BitVec 32)
  | daysOfWeekHighBitSet (bits : BitVec 8)
  deriving DecidableEq

def hoursValidBits : BitVec 32 := 0x00FFFFFF

def daysValidBits : BitVec 8 := 0x7F

def containsHour (mask : BitVec 32) (hour : ℕ) : Bool :=
  hour < 24 && (mask &&& (1 <<< hour)) != 0

def containsDay (mask : BitVec 8) (day : ℕ) : Bool :=
  day < 7 && (mask &&& (1 <<< day)) != 0

def assertMaskWidths (caveats : InvocationCaveats) : Except MaskWidthError Unit := do
  caveats.hoursOfDay.elim (.ok ()) (fun mask =>
    require (mask &&& ~~~hoursValidBits = 0) (.hoursOfDayHighBitsSet mask))
  caveats.daysOfWeek.elim (.ok ()) (fun mask =>
    require (mask &&& ~~~daysValidBits = 0) (.daysOfWeekHighBitSet mask))

inductive CaveatField
  | amountMaxPerCall | amountMaxCumulative | validFrom | validUntil | hoursOfDay | daysOfWeek
  | maxCalls | rateWindow | inputSchema | allowedAdapters | allowedTargetDids
  deriving DecidableEq

/-- What attenuation refuses; the violations of a schema are one of its kinds. -/
inductive AttenuationViolation
  | originKindMismatch (parent child : OutletKind)
  | originKindUnspecified (parent : Option OutletKind)
  | originKindMixedStem
  | maskWidth (error : MaskWidthError)
  | fieldRemoved (field : CaveatField)
  | amountWidened (field : CaveatField) (parent child : ℕ)
  | u64Widened (field : CaveatField) (parent child : ℕ)
  | rateWindowMaxWidened (parent child : UInt32)
  | rateWindowSecsWidened (parent child : UInt32)
  | hoursOfDayNotSubset (parentBits childBits : BitVec 32)
  | daysOfWeekNotSubset (parentBits childBits : BitVec 8)
  | allowedAdaptersNotSubset (offendingEntry : String)
  | allowedTargetDidsNotSubset (offendingEntry : String)
  | schema (violation : SchemaViolation)
  deriving DecidableEq

/-- The shape of the rules: a parent without the field asks for nothing, and a field
of the parent has to be in the child. -/
def narrowField {α : Type} (field : CaveatField) (rule : α → α → Except AttenuationViolation Unit)
    (parent child : Option α) : Except AttenuationViolation Unit :=
  parent.elim (.ok ()) (fun p => child.elim (.error (.fieldRemoved field)) (fun c => rule p c))

def narrowLeAmount (parent child : Option ℕ) (field : CaveatField) :
    Except AttenuationViolation Unit :=
  narrowField field (fun p c => require (c ≤ p) (.amountWidened field p c)) parent child

def narrowLeU64 (parent child : Option ℕ) (field : CaveatField) :
    Except AttenuationViolation Unit :=
  narrowField field (fun p c => require (c ≤ p) (.u64Widened field p c)) parent child

def narrowGeU64 (parent child : Option ℕ) (field : CaveatField) :
    Except AttenuationViolation Unit :=
  narrowField field (fun p c => require (p ≤ c) (.u64Widened field p c)) parent child

def narrowSubsetHours (parent child : Option (BitVec 32)) : Except AttenuationViolation Unit :=
  narrowField .hoursOfDay (fun p c => require (c &&& p = c) (.hoursOfDayNotSubset p c)) parent child

def narrowSubsetDays (parent child : Option (BitVec 8)) : Except AttenuationViolation Unit :=
  narrowField .daysOfWeek (fun p c => require (c &&& p = c) (.daysOfWeekNotSubset p c)) parent child

/-- Both numbers of the window have to be at most the parent's. -/
def narrowRateWindow (parent child : Option RateWindow) : Except AttenuationViolation Unit :=
  narrowField .rateWindow (fun p c => do
    require (c.max ≤ p.max) (.rateWindowMaxWidened p.max c.max)
    require (c.windowSecs ≤ p.windowSecs) (.rateWindowSecsWidened p.windowSecs c.windowSecs))
    parent child

def narrowListSubsetAdapters (parent child : Option (List String)) :
    Except AttenuationViolation Unit :=
  narrowField .allowedAdapters (fun p c =>
    checkEach (fun entry => require (entry ∈ p) (.allowedAdaptersNotSubset entry)) c) parent child

def narrowListSubsetDids (parent child : Option (List String)) :
    Except AttenuationViolation Unit :=
  narrowField .allowedTargetDids (fun p c =>
    checkEach (fun entry => require (entry ∈ p) (.allowedTargetDidsNotSubset entry)) c) parent child

def narrowInputSchema (parent child : Option Json) : Except AttenuationViolation Unit :=
  narrowField .inputSchema (fun p c => (jsonSchemaNarrows p c).mapError .schema) parent child

/-- The child has to name a kind, and the parent's where that names one. -/
def narrowOriginKind (parent child : Option OutletKind) : Except AttenuationViolation Unit :=
  child.elim (.error (.originKindUnspecified parent)) (fun c =>
    parent.elim (.ok ()) (fun p => require (p = c) (.originKindMismatch p c)))

def InvocationCaveats.narrow (parent child : InvocationCaveats) :
    Except AttenuationViolation Unit := do
  (assertMaskWidths parent).mapError .maskWidth
  (assertMaskWidths child).mapError .maskWidth
  narrowOriginKind parent.originKind child.originKind
  narrowLeAmount parent.amountMaxPerCall child.amountMaxPerCall .amountMaxPerCall
  narrowLeAmount parent.amountMaxCumulative child.amountMaxCumulative .amountMaxCumulative
  narrowLeU64 parent.maxCalls child.maxCalls .maxCalls
  narrowGeU64 parent.validFrom child.validFrom .validFrom
  narrowLeU64 parent.validUntil child.validUntil .validUntil
  narrowSubsetHours parent.hoursOfDay child.hoursOfDay
  narrowSubsetDays parent.daysOfWeek child.daysOfWeek
  narrowRateWindow parent.rateWindow child.rateWindow
  narrowListSubsetAdapters parent.allowedAdapters child.allowedAdapters
  narrowListSubsetDids parent.allowedTargetDids child.allowedTargetDids
  narrowInputSchema parent.inputSchema child.inputSchema

inductive CheckInvocationError
  | inputSchemaViolation (message : String)
  | amountMaxPerCallExceeded (estimatedCost cap : ℕ)
  | adapterNotAllowed (negotiated : Option String) (allowed : List String)
  | targetDidNotAllowed (target : Option String) (allowed : List String)
  deriving DecidableEq

/-- A value that has to be given and in the list. -/
def checkListed (refused : Option String → CheckInvocationError) (allowed : List String)
    (given : Option String) : Except CheckInvocationError Unit :=
  given.elim (.error (refused none)) (fun g => require (g ∈ allowed) (refused (some g)))

/-- `validateValueAgainstSchema` is the schema validator of the outlets. -/
def InvocationCaveats.checkInvocationLocal (caveats : InvocationCaveats)
    (validateValueAgainstSchema : Json → Json → Except String Unit) (input : Json)
    (estimatedCost : ℕ) (negotiatedAdapter targetDid : Option String) :
    Except CheckInvocationError Unit := do
  caveats.inputSchema.elim (.ok ()) (fun schema =>
    (validateValueAgainstSchema input schema).mapError .inputSchemaViolation)
  caveats.amountMaxPerCall.elim (.ok ()) (fun cap =>
    require (estimatedCost ≤ cap) (.amountMaxPerCallExceeded estimatedCost cap))
  caveats.allowedAdapters.elim (.ok ()) (fun allowed =>
    checkListed (.adapterNotAllowed · allowed) allowed negotiatedAdapter)
  caveats.allowedTargetDids.elim (.ok ()) (fun allowed =>
    checkListed (.targetDidNotAllowed · allowed) allowed targetDid)

/-- The check of the time box that failed, with the values it compared. -/
inductive CaveatTimeBoxViolation
  | validFrom (now validFrom : ℕ)
  | validUntil (now validUntil : ℕ)
  | hoursOfDay (currentHour : ℕ) (mask : BitVec 32)
  | daysOfWeek (currentWeekday : ℕ) (mask : BitVec 8)
  deriving DecidableEq

def verifyCaveatTimeBox (caveats : InvocationCaveats) (now : ℕ) :
    Except CaveatTimeBoxViolation Unit := do
  caveats.validFrom.elim (.ok ()) (fun validFrom =>
    require (validFrom ≤ now) (.validFrom now validFrom))
  caveats.validUntil.elim (.ok ()) (fun validUntil =>
    require (now ≤ validUntil) (.validUntil now validUntil))
  caveats.hoursOfDay.elim (.ok ()) (fun mask =>
    require (containsHour mask (now/3600%24)) (.hoursOfDay (now/3600%24) mask))
  caveats.daysOfWeek.elim (.ok ()) (fun mask =>
    require (containsDay mask ((now/86400+4)%7)) (.daysOfWeek ((now/86400+4)%7) mask))

theorem narrowField_ok {α : Type} {field : CaveatField}
    {rule : α → α → Except AttenuationViolation Unit} {parent child : Option α}
    (h : narrowField field rule parent child = .ok ()) {p : α} (hp : parent = some p) :
    ∃ c, child = some c ∧ rule p c = .ok () := by
  rw [hp] at h
  cases child with
  | none => cases h
  | some c => exact ⟨c, rfl, h⟩

/-- The rules that a narrowing step has passed. -/
structure Narrowed (parent child : InvocationCaveats) : Prop where
  originKind : narrowOriginKind parent.originKind child.originKind = .ok ()
  amountMaxPerCall : narrowLeAmount parent.amountMaxPerCall child.amountMaxPerCall
    .amountMaxPerCall = .ok ()
  amountMaxCumulative : narrowLeAmount parent.amountMaxCumulative child.amountMaxCumulative
    .amountMaxCumulative = .ok ()
  maxCalls : narrowLeU64 parent.maxCalls child.maxCalls .maxCalls = .ok ()
  validFrom : narrowGeU64 parent.validFrom child.validFrom .validFrom = .ok ()
  validUntil : narrowLeU64 parent.validUntil child.validUntil .validUntil = .ok ()
  hoursOfDay : narrowSubsetHours parent.hoursOfDay child.hoursOfDay = .ok ()
  daysOfWeek : narrowSubsetDays parent.daysOfWeek child.daysOfWeek = .ok ()
  rateWindow : narrowRateWindow parent.rateWindow child.rateWindow = .ok ()
  allowedAdapters : narrowListSubsetAdapters parent.allowedAdapters child.allowedAdapters = .ok ()
  allowedTargetDids : narrowListSubsetDids parent.allowedTargetDids child.allowedTargetDids = .ok ()
  inputSchema : narrowInputSchema parent.inputSchema child.inputSchema = .ok ()

theorem narrow_ok {parent child : InvocationCaveats} (h : parent.narrow child = .ok ()) :
    Narrowed parent child := by
  simp only [InvocationCaveats.narrow, bind_ok_iff, exists_unit_iff] at h
  obtain ⟨_, _, hkind, hcall, hcumulative, hcalls, hfrom, huntil, hhours, hdays, hrate, hadapters,
    hdids, hschema⟩ := h
  exact ⟨hkind, hcall, hcumulative, hcalls, hfrom, huntil, hhours, hdays, hrate, hadapters, hdids,
    hschema⟩

/-- The caveats without their schema. -/
def InvocationCaveats.withoutSchema (caveats : InvocationCaveats) : InvocationCaveats :=
  { caveats with inputSchema := none }

/-- `tight` admits nothing that `loose` does not, the schema and the rate left aside. -/
structure Tighter (loose tight : InvocationCaveats) : Prop where
  invocation : ∀ validate input cost adapter target,
    tight.withoutSchema.checkInvocationLocal validate input cost adapter target = .ok () →
    loose.withoutSchema.checkInvocationLocal validate input cost adapter target = .ok ()
  timeBox : ∀ now, verifyCaveatTimeBox tight now = .ok () → verifyCaveatTimeBox loose now = .ok ()
  maxCalls : ∀ most, loose.maxCalls = some most → ∃ n, tight.maxCalls = some n ∧ n ≤ most
  amountMaxCumulative : ∀ most, loose.amountMaxCumulative = some most →
    ∃ n, tight.amountMaxCumulative = some n ∧ n ≤ most
  originKind : ∀ kind, loose.originKind = some kind → tight.originKind = some kind

namespace Tighter

theorem refl (caveats : InvocationCaveats) : Tighter caveats caveats :=
  ⟨fun _ _ _ _ _ h => h, fun _ h => h, fun most h => ⟨most, h, le_rfl⟩,
    fun most h => ⟨most, h, le_rfl⟩, fun _ h => h⟩

theorem trans {a b c : InvocationCaveats} (hab : Tighter a b) (hbc : Tighter b c) :
    Tighter a c := by
  refine ⟨?_, ?_, ?_, ?_, ?_⟩
  · intro validate input cost adapter target h
    exact hab.invocation _ _ _ _ _ (hbc.invocation _ _ _ _ _ h)
  · intro now h
    exact hab.timeBox now (hbc.timeBox now h)
  · intro most h
    obtain ⟨n, hn, hle⟩ := hab.maxCalls most h
    obtain ⟨m, hm, hle'⟩ := hbc.maxCalls n hn
    exact ⟨m, hm, hle'.trans hle⟩
  · intro most h
    obtain ⟨n, hn, hle⟩ := hab.amountMaxCumulative most h
    obtain ⟨m, hm, hle'⟩ := hbc.amountMaxCumulative n hn
    exact ⟨m, hm, hle'.trans hle⟩
  · intro kind h
    exact hbc.originKind kind (hab.originKind kind h)

end Tighter

/-- A rule that the child's value passes carries every check on it over to the parent. -/
theorem elim_of_narrowField {α ε : Type} {field : CaveatField}
    {rule : α → α → Except AttenuationViolation Unit} {parent child : Option α}
    {check : α → Except ε Unit} (h : narrowField field rule parent child = .ok ())
    (hrule : ∀ p c, rule p c = .ok () → check c = .ok () → check p = .ok ())
    (hchild : child.elim (.ok ()) check = .ok ()) : parent.elim (.ok ()) check = .ok () := by
  cases hp : parent with
  | none => rfl
  | some p =>
    obtain ⟨c, hc, hle⟩ := narrowField_ok h hp
    rw [hc] at hchild
    exact hrule p c hle hchild

/-- A mask that is a subset hits no bit the larger one misses. -/
theorem mask_ne_zero {w : ℕ} {p c bit : BitVec w} (h : c &&& p = c) (hc : c &&& bit ≠ 0) :
    p &&& bit ≠ 0 := by
  intro hp
  apply hc
  rw [← h, BitVec.and_assoc, hp]
  exact BitVec.and_zero

theorem checkListed_mono {refused refused' : Option String → CheckInvocationError}
    {p c : List String} {given : Option String} (h : ∀ entry ∈ c, entry ∈ p)
    (hc : checkListed refused c given = .ok ()) : checkListed refused' p given = .ok () := by
  cases given with
  | none => cases hc
  | some g =>
    simp only [checkListed, Option.elim, require_ok_iff, decide_eq_true_eq] at hc ⊢
    exact h g hc

namespace Narrowed
variable {parent child : InvocationCaveats} (h : Narrowed parent child)

include h

theorem checkInvocationLocal (validate : Json → Json → Except String Unit) (input : Json)
    (cost : ℕ) (adapter target : Option String)
    (hc : child.withoutSchema.checkInvocationLocal validate input cost adapter target = .ok ()) :
    parent.withoutSchema.checkInvocationLocal validate input cost adapter target = .ok () := by
  simp only [InvocationCaveats.checkInvocationLocal, bind_ok_iff, exists_unit_iff] at hc ⊢
  obtain ⟨_, hcost, hadapter, htarget⟩ := hc
  refine ⟨rfl, ?_, ?_, ?_⟩
  · apply elim_of_narrowField h.amountMaxPerCall _ hcost
    intro p c hle hcap
    simp only [require_ok_iff, decide_eq_true_eq] at hle hcap ⊢
    exact hcap.trans hle
  · apply elim_of_narrowField h.allowedAdapters _ hadapter
    intro p c hsub hlisted
    simp only [checkEach_ok_iff, require_ok_iff, decide_eq_true_eq] at hsub
    exact checkListed_mono hsub hlisted
  · apply elim_of_narrowField h.allowedTargetDids _ htarget
    intro p c hsub hlisted
    simp only [checkEach_ok_iff, require_ok_iff, decide_eq_true_eq] at hsub
    exact checkListed_mono hsub hlisted

theorem verifyCaveatTimeBox (now : ℕ) (hc : Caveats.verifyCaveatTimeBox child now = .ok ()) :
    Caveats.verifyCaveatTimeBox parent now = .ok () := by
  simp only [Caveats.verifyCaveatTimeBox, bind_ok_iff, exists_unit_iff] at hc ⊢
  obtain ⟨hfrom, huntil, hhours, hdays⟩ := hc
  refine ⟨?_, ?_, ?_, ?_⟩
  · apply elim_of_narrowField h.validFrom _ hfrom
    intro p c hle hnow
    simp only [require_ok_iff, decide_eq_true_eq] at hle hnow ⊢
    omega
  · apply elim_of_narrowField h.validUntil _ huntil
    intro p c hle hnow
    simp only [require_ok_iff, decide_eq_true_eq] at hle hnow ⊢
    omega
  · apply elim_of_narrowField h.hoursOfDay _ hhours
    intro p c hsub hhour
    simp only [require_ok_iff, decide_eq_true_eq, containsHour, Bool.and_eq_true,
      bne_iff_ne] at hsub hhour ⊢
    exact ⟨hhour.1, mask_ne_zero hsub hhour.2⟩
  · apply elim_of_narrowField h.daysOfWeek _ hdays
    intro p c hsub hday
    simp only [require_ok_iff, decide_eq_true_eq, containsDay, Bool.and_eq_true,
      bne_iff_ne] at hsub hday ⊢
    exact ⟨hday.1, mask_ne_zero hsub hday.2⟩

/-- A narrowing step keeps the caveats at least as tight. -/
theorem tighter : Tighter parent child := by
  refine ⟨h.checkInvocationLocal, h.verifyCaveatTimeBox, ?_, ?_, ?_⟩
  · intro most hmost
    obtain ⟨n, hn, hle⟩ := narrowField_ok h.maxCalls hmost
    exact ⟨n, hn, by simpa using hle⟩
  · intro most hmost
    obtain ⟨n, hn, hle⟩ := narrowField_ok h.amountMaxCumulative hmost
    exact ⟨n, hn, by simpa using hle⟩
  · intro kind hkind
    have hstep := h.originKind
    rw [hkind] at hstep
    cases hc : child.originKind with
    | none =>
      rw [hc] at hstep
      cases hstep
    | some c =>
      rw [hc] at hstep
      simp only [narrowOriginKind, Option.elim, require_ok_iff, decide_eq_true_eq] at hstep
      rw [hstep]

end Narrowed

end ScpCore.Caveats
