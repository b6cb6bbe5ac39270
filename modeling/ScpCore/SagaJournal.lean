import ScpCore.ExactRead
import ScpCore.KeyStore
import ScpCore.KeyText

/-! The saga journal over a key-value store. Each entry lies under the saga's id and a
sequence number of twenty digits. Recovery takes the last key of each saga; resolving a
saga writes a terminal marker above its entries and then deletes them one by one, the
marker last. -/

namespace ScpCore.Saga

abbrev Key := List Char

@[ext] structure SagaId where
  text : List Char
  deriving DecidableEq

def sagaJournalKeyPrefix : Key := "saga_journal/".toList

def entryKey (sagaId : SagaId) (seq : ℕ) : Key :=
  sagaJournalKeyPrefix ++ sagaId.text ++ '/' :: padded 20 seq

def sagaPrefix (sagaId : SagaId) : Key := sagaJournalKeyPrefix ++ sagaId.text ++ ['/']

def isCanonicalSeq (suffix : List Char) : Bool :=
  suffix.length = 20 && suffix.all Char.isDigit && (parseU64 suffix).isSome

/-- The saga that a key counts for in the selection of latest entries. -/
def sagaOf (key : Key) : Option (List Char) := do
  let stripped ← sagaJournalKeyPrefix.isPrefixOf? key
  let (sagaId, suffix) ← rsplitOnce stripped
  if isCanonicalSeq suffix then some sagaId else none

inductive SagaState
  | initiated | preparingA | preparingB | committing | committed | aborting | aborted
  | needsRepair
  deriving DecidableEq

def SagaState.isTerminal : SagaState → Bool
  | .committed | .aborted => true
  | _ => false

inductive SagaTerminalState
  | committed | aborted
  deriving DecidableEq

def SagaTerminalState.toSagaState : SagaTerminalState → SagaState
  | .committed => .committed
  | .aborted => .aborted

structure JournalEntry where
  sagaId : SagaId
  state : SagaState
  participants : List String
  evidence : Bytes
  timestampMs : ℕ
  seqPerSaga : ℕ
  deriving DecidableEq

inductive JournalError
  | codec (reason : String)
  | integrityFailure (reason : String)
  deriving DecidableEq

/-- The serializer of entries. -/
structure Codec where
  toVecNamed : JournalEntry → Except String Bytes
  fromSlice : Bytes → Except String JournalEntry

def crcShift (crc : BitVec 32) : BitVec 32 :=
  (crc >>> 1) ^^^ (if crc.getLsbD 0 then 0xEDB88320#32 else 0#32)

def crc32Ieee (bytes : Bytes) : BitVec 32 :=
  ~~~ bytes.foldl (fun crc byte => (crcShift^[8]) (crc ^^^ byte.toBitVec.setWidth 32)) 0xFFFFFFFF#32

/-- The low four bytes of a number, most significant first. -/
def toBeBytes (n : ℕ) : Bytes := [n/2^24, n/2^16, n/2^8, n].map UInt8.ofNat

def fromBeBytes (bytes : Bytes) : ℕ := bytes.foldl (fun n byte => 256*n+byte.toNat) 0

def headerLen : ℕ := 4

def trailerLen : ℕ := 4

def minEncodedLen : ℕ := headerLen+1+trailerLen

def zeroed (entry : JournalEntry) : JournalEntry :=
  { entry with evidence := List.replicate entry.evidence.length 0 }

namespace Codec
variable (codec : Codec)

/-- The length is cast to 32 bits. -/
def encodeEntry (entry : JournalEntry) : Except JournalError Bytes := do
  let body ← (codec.toVecNamed entry).mapError .codec
  require (!body.isEmpty) (.codec "empty body")
  pure (toBeBytes (body.length%2^32) ++ (body ++ toBeBytes (crc32Ieee body).toNat))

def decodeEntry (raw : Bytes) : Except JournalError JournalEntry := do
  require (minEncodedLen ≤ raw.length) (.integrityFailure "entry too short")
  let declaredLen := fromBeBytes (raw.take headerLen)
  let rest := raw.drop headerLen
  require (declaredLen+trailerLen ≤ rest.length)
    (.integrityFailure "declared length exceeds remaining bytes")
  let body := rest.take declaredLen
  let crcBytes := rest.drop declaredLen
  require (crcBytes.length = trailerLen) (.integrityFailure "trailer length")
  require (fromBeBytes crcBytes = (crc32Ieee body).toNat) (.integrityFailure "CRC mismatch")
  (codec.fromSlice body).mapError .codec

end Codec

abbrev Storage := KeyStore Key Bytes

/-- The atomic writes of the journal: the zeroing of evidence, an append and a deletion. -/
inductive Write
  | overwrite (key : Key) (data : Bytes)
  | append (key : Key) (data : Bytes)
  | delete (key : Key)
  deriving DecidableEq

def Write.key : Write → Key
  | .overwrite key _ | .append key _ | .delete key => key

def Write.apply (storage : Storage) : Write → Storage
  | .overwrite key data | .append key data => storage.store key data
  | .delete key => storage.delete key

def applyAll (storage : Storage) (writes : List Write) : Storage := writes.foldl Write.apply storage

section Journal
variable (codec : Codec)

def append (storage : Storage) (entry : JournalEntry) : Except JournalError Storage := do
  let encoded ← codec.encodeEntry entry
  pure (storage.store (entryKey entry.sagaId entry.seqPerSaga) encoded)

def journalKeys (storage : Storage) : List Key :=
  storage.listKeys (fun key => sagaJournalKeyPrefix.isPrefixOf key)

/-- The value under a saga's latest key, where it decodes and is not terminal. -/
def loadLatest (storage : Storage) (sagaId : List Char) : Option JournalEntry := do
  let key ← lastOf sagaOf (journalKeys storage) sagaId
  let raw ← storage.retrieve key
  let entry ← (codec.decodeEntry raw).toOption
  if entry.state.isTerminal then none else some entry

/-- One entry for each saga in the map of latest keys; the order of its values is
unspecified. -/
def loadUnresolved (storage : Storage) : List JournalEntry :=
  ((journalKeys storage).filterMap sagaOf).dedup.filterMap (loadLatest codec storage)

/-- The number after the last slash of a key, where it parses. -/
def suffixSeq (key : Key) : Option ℕ := (rsplitOnce key).bind (fun parts => parseU64 parts.2)

def nextSeqForSaga (storage : Storage) (sagaId : SagaId) : ℕ :=
  let keys := storage.listKeys (fun key => (sagaPrefix sagaId).isPrefixOf key)
  let maxSeq := keys.foldl (fun (maxSeq : Option ℕ) key =>
    (suffixSeq key).elim maxSeq (fun n => some (maxSeq.elim n (fun m => max m n)))) none
  maxSeq.elim 0 (fun m => min (m+1) (2^64-1))

/-- The zeroing loop: its writes, and the error that stopped it. -/
def zeroEvidence (storage : Storage) : List Key → List Write × Except JournalError Unit
  | [] => ([], .ok ())
  | key :: keys =>
    match storage.retrieve key with
    | none => zeroEvidence storage keys
    | some bytes =>
      match codec.decodeEntry bytes >>= fun entry => codec.encodeEntry (zeroed entry) with
      | .error e => ([], .error e)
      | .ok reEncoded =>
        let rest := zeroEvidence (storage.store key reEncoded) keys
        (.overwrite key reEncoded :: rest.1, rest.2)

def marker (sagaId : SagaId) (terminal : SagaTerminalState) (now seq : ℕ) : JournalEntry where
  sagaId := sagaId
  state := terminal.toSagaState
  participants := []
  evidence := []
  timestampMs := now
  seqPerSaga := seq

/-- The deletion of a resolved saga, its marker last. -/
def compaction (storage : Storage) (sagaId : SagaId) (markerKey : Key) : List Write :=
  let keys := storage.listKeys (fun key => (sagaPrefix sagaId).isPrefixOf key)
  (keys.filter (· ≠ markerKey)).map .delete ++ [.delete markerKey]

/-- The atomic writes in order, and the result. -/
def markResolved (storage : Storage) (sagaId : SagaId) (terminal : SagaTerminalState)
    (secretBearing : Bool) (now : ℕ) : List Write × Except JournalError Unit :=
  let keys := storage.listKeys (fun key => (sagaPrefix sagaId).isPrefixOf key)
  let zeroing := if secretBearing then zeroEvidence codec storage keys else ([], .ok ())
  match zeroing.2 with
  | .error e => (zeroing.1, .error e)
  | .ok () =>
    let storage := applyAll storage zeroing.1
    let nextSeq := nextSeqForSaga storage sagaId
    match codec.encodeEntry (marker sagaId terminal now nextSeq) with
    | .error e => (zeroing.1, .error e)
    | .ok encoded =>
      let markerKey := entryKey sagaId nextSeq
      let stored := storage.store markerKey encoded
      (zeroing.1 ++ .append markerKey encoded :: compaction stored sagaId markerKey, .ok ())

end Journal

theorem sagaOf_entryKey (sagaId : SagaId) {seq : ℕ} (h : seq ≤ 2^64-1) :
    sagaOf (entryKey sagaId seq) = some sagaId.text := by
  have hstrip : sagaJournalKeyPrefix.isPrefixOf? (entryKey sagaId seq) =
      some (sagaId.text ++ '/' :: padded 20 seq) := by
    rw [List.isPrefixOf?_eq_some_iff_append_eq, entryKey, List.append_assoc]
  have hslash : '/' ∉ padded 20 seq := slash_not_mem (all_isDigit_padded 20 seq)
  have hcanonical : isCanonicalSeq (padded 20 seq) = true := by
    simp [isCanonicalSeq, all_isDigit_padded, parseU64_padded h]
  simp [sagaOf, hstrip, rsplitOnce_append hslash, hcanonical]

theorem sagaOf_eq_some {key : Key} {sagaId : List Char} (h : sagaOf key = some sagaId) :
    ∃ suffix, key = sagaJournalKeyPrefix ++ (sagaId ++ '/' :: suffix) ∧ '/' ∉ suffix := by
  simp only [sagaOf, Option.bind_eq_bind, Option.bind_eq_some_iff] at h
  obtain ⟨stripped, hstrip, ⟨id, suffix⟩, hsplit, hcanonical⟩ := h
  rw [List.isPrefixOf?_eq_some_iff_append_eq] at hstrip
  obtain ⟨hparts, hslash⟩ := rsplitOnce_eq_some hsplit
  by_cases hc : isCanonicalSeq suffix = true
  · simp only [hc, if_true, Option.some.injEq] at hcanonical
    rw [← hcanonical]
    exact ⟨suffix, by rw [← hparts, hstrip], hslash⟩
  · simp [hc] at hcanonical

/-- A key that counts for a saga whose id has no slash lies under that saga's keys only. -/
theorem eq_of_sagaPrefix {key : Key} {sagaId : SagaId} {other : List Char}
    (hkey : sagaPrefix sagaId <+: key) (hother : sagaOf key = some other) (hslash : '/' ∉ other) :
    other = sagaId.text := by
  obtain ⟨suffix, hsplit, hsuffix⟩ := sagaOf_eq_some hother
  obtain ⟨rest, hrest⟩ := hkey
  have heq : sagaId.text ++ '/' :: rest = other ++ '/' :: suffix := by
    rw [hsplit, sagaPrefix, List.append_assoc, List.append_assoc] at hrest
    simpa using List.append_cancel_left hrest
  have hcount : (sagaId.text ++ '/' :: rest).count '/' = 1 := by
    rw [heq, List.count_append, List.count_cons_self, List.count_eq_zero_of_not_mem hslash,
      List.count_eq_zero_of_not_mem hsuffix]
  rw [List.count_append, List.count_cons_self] at hcount
  have hrestless : '/' ∉ rest := List.count_eq_zero.mp (by omega)
  have hsplitEq := rsplitOnce_append (a := other) hsuffix
  rw [← heq, rsplitOnce_append hrestless, Option.some.injEq, Prod.mk.injEq] at hsplitEq
  exact hsplitEq.1.symm

theorem sagaPrefix_of_sagaOf {key : Key} {sagaId : SagaId} (h : sagaOf key = some sagaId.text) :
    sagaPrefix sagaId <+: key := by
  obtain ⟨suffix, hsplit, -⟩ := sagaOf_eq_some h
  exact ⟨suffix, by simp [hsplit, sagaPrefix]⟩

theorem entryKey_le (sagaId : SagaId) {m n : ℕ} (hmn : m ≤ n) (hn : n ≤ 2^64-1) :
    entryKey sagaId m ≤ entryKey sagaId n := by
  rcases hmn.lt_or_eq with hlt | rfl
  · have hkeys : entryKey sagaId m < entryKey sagaId n := by
      unfold entryKey
      apply List.append_left_lt
      exact List.cons_lt_cons_iff.mpr (Or.inr ⟨rfl, padded_lt hlt (by omega)⟩)
    exact hkeys.le
  · exact le_rfl

theorem suffixSeq_entryKey (sagaId : SagaId) {seq : ℕ} (h : seq ≤ 2^64-1) :
    suffixSeq (entryKey sagaId seq) = some seq := by
  rw [suffixSeq, entryKey, rsplitOnce_append (slash_not_mem (all_isDigit_padded 20 seq)), Option.bind_some,
    parseU64_padded h]

@[simp] theorem length_toBeBytes (n : ℕ) : (toBeBytes n).length = 4 := rfl

theorem fromBeBytes_toBeBytes (n : ℕ) : fromBeBytes (toBeBytes n) = n%2^32 := by
  simp [fromBeBytes, toBeBytes]
  omega

/-- What the serializer is relied on for: it reads back what it wrote, and the length of a
byte field does not depend on the bytes in it. -/
structure Codec.Lawful (codec : Codec) : Prop where
  roundTrip : ∀ entry body, codec.toVecNamed entry = .ok body → codec.fromSlice body = .ok entry
  zeroed_length : ∀ entry body body', codec.toVecNamed entry = .ok body →
    codec.toVecNamed (zeroed entry) = .ok body' → body'.length = body.length

def frame (body : Bytes) : Bytes :=
  toBeBytes (body.length%2^32) ++ (body ++ toBeBytes (crc32Ieee body).toNat)

section Framing
variable {codec : Codec}

theorem encodeEntry_ok {entry : JournalEntry} {data : Bytes}
    (h : codec.encodeEntry entry = .ok data) :
    ∃ body, codec.toVecNamed entry = .ok body ∧ body ≠ [] ∧ data = frame body := by
  simp only [Codec.encodeEntry, bind_ok_iff, mapError_ok_iff, require_ok_iff, exists_unit_iff,
    pure_ok_iff] at h
  obtain ⟨body, hbody, hne, rfl⟩ := h
  exact ⟨body, hbody, by simpa using hne, rfl⟩

/-- A frame is read back unless its length was cut to 32 bits. -/
theorem decodeEntry_frame {body : Bytes} (hne : body ≠ []) (entry : JournalEntry) :
    codec.decodeEntry (frame body) = .ok entry ↔
      body.length < 2^32 ∧ codec.fromSlice body = .ok entry := by
  have hpos : 0 < body.length := List.length_pos_iff.mpr hne
  have htake : (frame body).take headerLen = toBeBytes (body.length%2^32) :=
    List.take_left' (length_toBeBytes _)
  have hdrop : (frame body).drop headerLen = body ++ toBeBytes (crc32Ieee body).toNat :=
    List.drop_left' (length_toBeBytes _)
  have hlen : (frame body).length = body.length+8 := by
    simp [frame]
    omega
  have hdeclared : fromBeBytes (toBeBytes (body.length%2^32)) = body.length%2^32 := by
    rw [fromBeBytes_toBeBytes, Nat.mod_mod]
  simp only [Codec.decodeEntry, htake, hdrop, hdeclared, hlen, bind_ok_iff, mapError_ok_iff,
    require_ok_iff, exists_unit_iff, decide_eq_true_eq, List.length_drop, List.length_append,
    length_toBeBytes]
  by_cases hsmall : body.length < 2^32
  · have hcrc : fromBeBytes (toBeBytes (crc32Ieee body).toNat) = (crc32Ieee body).toNat := by
      rw [fromBeBytes_toBeBytes, Nat.mod_eq_of_lt (crc32Ieee body).isLt]
    rw [Nat.mod_eq_of_lt hsmall, List.take_left, List.drop_left]
    simp [hcrc, minEncodedLen, headerLen, trailerLen]
    omega
  · -- The bytes after the declared length are more than a trailer.
    constructor
    · rintro ⟨-, -, htrailer, -⟩
      unfold trailerLen at htrailer
      omega
    · rintro ⟨hlt, -⟩
      exact absurd hlt hsmall

theorem decodeEntry_encoded (h : codec.Lawful) {entry entry' : JournalEntry} {data : Bytes}
    (hdata : codec.encodeEntry entry = .ok data) (hdecode : codec.decodeEntry data = .ok entry') :
    entry' = entry := by
  obtain ⟨body, hbody, hne, rfl⟩ := encodeEntry_ok hdata
  have hslice := ((decodeEntry_frame hne entry').mp hdecode).2
  rw [h.roundTrip entry body hbody] at hslice
  cases hslice
  rfl

/-- An entry that can be read can still be read after its evidence is zeroed. -/
theorem decodeEntry_zeroed (h : codec.Lawful) {entry entry' : JournalEntry} {data data' : Bytes}
    (hdata : codec.encodeEntry entry = .ok data) (hdecode : codec.decodeEntry data = .ok entry')
    (hzero : codec.encodeEntry (zeroed entry') = .ok data') :
    codec.decodeEntry data' = .ok (zeroed entry') := by
  obtain rfl := decodeEntry_encoded h hdata hdecode
  obtain ⟨body, hbody, hne, rfl⟩ := encodeEntry_ok hdata
  obtain ⟨body', hbody', hne', rfl⟩ := encodeEntry_ok hzero
  have hsmall := ((decodeEntry_frame hne entry').mp hdecode).1
  rw [decodeEntry_frame hne', h.zeroed_length entry' body body' hbody hbody']
  exact ⟨hsmall, h.roundTrip _ body' hbody'⟩

end Framing

end ScpCore.Saga
