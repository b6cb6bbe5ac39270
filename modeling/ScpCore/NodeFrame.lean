import ScpCore.KelSignatures

/-! The key-event record frame a node stores: a version, the identifier, the range
of sequences and the event units one after the other. Each unit read out of a frame
reads alone as it did in the frame. -/

namespace ScpCore.Node
open Kel

def recordFramePrefixLen : ℕ := 33
def maxBlobSize : ℕ := 262144
def maxRecordFrameValueLen : ℕ := maxBlobSize-recordFramePrefixLen
def keyEventFrameVersion : UInt8 := 2
/-- `first_sequence`, `last_sequence` and `event_count`. -/
def valueHeaderLen : ℕ := 20
def maxEventsPerFrame : ℕ := 16

inductive FramePrefixError
  | wrongVersion (expected found : UInt8)
  | tooShort (len : ℕ)
  | valueTooLarge (len : ℕ)
  deriving DecidableEq

/-- The identifier field and the value, once version, length and value bound are checked. -/
def splitFrame (version : UInt8) : Bytes → Except FramePrefixError (Identifier × Bytes)
  | [] => .error (.tooShort 0)
  | found :: rest => do
    require (found = version) (.wrongVersion version found)
    require (recordFramePrefixLen ≤ rest.length+1) (.tooShort (rest.length+1))
    let value := rest.drop (recordFramePrefixLen-1)
    require (value.length ≤ maxRecordFrameValueLen) (.valueTooLarge value.length)
    pure (BitVec.ofNat 256 (beNat (rest.take (recordFramePrefixLen-1))), value)

/-- An event as the frame carries it: its unit and the header fields admission reads. -/
structure FrameEvent where
  unit : Bytes
  digest : Digest
  sequence : ℕ
  kind : EventKind
  predecessor : Digest
  recomputed : Identifier
  deriving DecidableEq

structure KeyEventFrame where
  identifier : Identifier
  events : List FrameEvent
  deriving DecidableEq

def KeyEventFrame.units (frame : KeyEventFrame) : List Bytes := frame.events.map (·.unit)

inductive KeyEventFrameError
  | prefixRule (error : FramePrefixError)
  | emptyValue
  | valueHeaderTruncated (len : ℕ)
  | noEvents
  | tooManyEvents (count : ℕ)
  | rangeInverted (first last : ℕ)
  | rangeMismatch (first last count : ℕ)
  | eventUnframed (index : ℕ)
  | eventNoSeparator (index : ℕ)
  | eventHeader (index : ℕ)
  | eventSignatureField (index : ℕ)
  | sequenceMismatch (index expected found : ℕ)
  | trailingBytes (len : ℕ)
  deriving DecidableEq

section Decode
variable (C : Crypto)

/-- The event at `offset` and where the next begins. -/
def frameEvent (events : Bytes) (first index offset : ℕ) :
    Except KeyEventFrameError (FrameEvent × ℕ) :=
  match decodeEvent events offset with
  | .unframed => .error (.eventUnframed index)
  | .noSeparator => .error (.eventNoSeparator index)
  | .headerFailed _ => .error (.eventHeader index)
  | .read unit => do
    let field ← unit.signatureField.mapError (fun _ => .eventSignatureField index)
    let expected := first+index
    let found := unit.header.sequence.toNat
    require (found = expected) (.sequenceMismatch index expected found)
    let stop := offset+field.consumed
    require (stop ≤ events.length) (.eventUnframed index)
    pure (⟨(events.drop offset).take field.consumed, eventDigestOf C unit.fields, expected,
      unit.header.kind, unit.header.predecessorDigest, identifierOf C unit.fields⟩, stop)

/-- The loop of `decode_key_event_frame`: the `remaining` events from `offset` on. -/
def frameEvents (events : Bytes) (first : ℕ) :
    ℕ → ℕ → ℕ → Except KeyEventFrameError (List FrameEvent × ℕ)
  | 0, _, offset => .ok ([], offset)
  | remaining+1, index, offset => do
    let (event, offset) ← frameEvent C events first index offset
    let (rest, offset) ← frameEvents events first remaining (index+1) offset
    pure (event :: rest, offset)

def decodeKeyEventFrame (bytes : Bytes) : Except KeyEventFrameError KeyEventFrame := do
  let (identifier, value) ← (splitFrame keyEventFrameVersion bytes).mapError .prefixRule
  require (!value.isEmpty) .emptyValue
  require (valueHeaderLen ≤ value.length) (.valueHeaderTruncated value.length)
  let first := beNat (value.take 8)
  let last := beNat ((value.drop 8).take 8)
  let count := beNat ((value.drop 16).take 4)
  let events := value.drop valueHeaderLen
  require (count ≠ 0) .noEvents
  require (count ≤ maxEventsPerFrame) (.tooManyEvents count)
  require (first ≤ last) (.rangeInverted first last)
  require (last-first = count-1) (.rangeMismatch first last count)
  let (read, offset) ← frameEvents C events first count 0 0
  require (offset = events.length) (.trailingBytes (events.length-offset))
  pure ⟨identifier, read⟩

end Decode

section Alone
variable {C : Crypto}

/-- A unit cut out where the walk of its signature field ends reads the same alone. -/
theorem decodeEvent_alone {events : Bytes} {offset : ℕ} {unit : ReadUnit}
    (h : decodeEvent events offset = .read unit) {field : SignatureField}
    (hfield : unit.signatureField = .ok field) :
    ∃ read, decodeEvent ((events.drop offset).take field.consumed) 0 = .read read ∧
      read.fields = unit.fields := by
  refine ⟨unit, ?_, rfl⟩
  apply (decodeEvent_local h hfield).2
  rw [List.drop_zero, List.take_take, min_self]

/-- What a frame's event is: a unit that reads alone, and the digest it reads to. -/
def FrameEvent.Sound (C : Crypto) (e : FrameEvent) : Prop :=
  ∃ read, decodeEvent e.unit 0 = .read read ∧ e.digest = eventDigestOf C read.fields

theorem frameEvent_sound {events : Bytes} {first index offset stop : ℕ} {event : FrameEvent}
    (h : frameEvent C events first index offset = .ok (event, stop)) : event.Sound C := by
  unfold frameEvent at h
  split at h
  case h_4 unit hunit =>
    simp only [bind_ok_iff, exists_unit_iff, mapError_ok_iff, pure_ok_iff, Prod.mk.injEq] at h
    obtain ⟨field, hfield, -, -, rfl, -⟩ := h
    obtain ⟨read, hread, hfields⟩ := decodeEvent_alone hunit hfield
    exact ⟨read, hread, by rw [hfields]⟩
  all_goals cases h

theorem frameEvents_sound {events : Bytes} {first remaining index offset stop : ℕ}
    {read : List FrameEvent}
    (h : frameEvents C events first remaining index offset = .ok (read, stop)) :
    read.length = remaining ∧ ∀ e ∈ read, e.Sound C := by
  induction remaining generalizing index offset read stop with
  | zero =>
    cases h
    simp
  | succ n ih =>
    simp only [frameEvents, bind_ok_iff, Prod.exists, pure_ok_iff, Prod.mk.injEq] at h
    obtain ⟨event, next, hevent, rest, stop', hrest, rfl, -⟩ := h
    obtain ⟨hlen, hsound⟩ := ih hrest
    refine ⟨by rw [List.length_cons, hlen], ?_⟩
    intro e he
    rcases List.mem_cons.mp he with rfl | he
    · exact frameEvent_sound hevent
    · exact hsound e he

/-- A decoded frame carries between one and sixteen sound events. -/
theorem decodeKeyEventFrame_sound {bytes : Bytes} {frame : KeyEventFrame}
    (h : decodeKeyEventFrame C bytes = .ok frame) :
    frame.events.length ≠ 0 ∧ frame.events.length ≤ maxEventsPerFrame ∧
      ∀ e ∈ frame.events, e.Sound C := by
  simp only [decodeKeyEventFrame, bind_ok_iff, exists_unit_iff, Prod.exists, mapError_ok_iff,
    require_ok_iff, decide_eq_true_eq, pure_ok_iff] at h
  obtain ⟨identifier, value, -, -, -, hcount, hmax, -, -, read, stop, hread, -, rfl⟩ := h
  obtain ⟨hlen, hsound⟩ := frameEvents_sound hread
  rw [hlen]
  exact ⟨hcount, hmax, hsound⟩

end Alone

end ScpCore.Node
