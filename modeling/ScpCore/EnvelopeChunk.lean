import ScpCore.ExactRead

/-! Bucket padding, and the splitting of a large payload into chunks that are each padded, sent
and put together again in whatever order they arrive. -/

namespace ScpCore.Envelope

/-- What `reassembleChunks` can find wrong with the chunks it is given. -/
inductive ReassemblyFault
  | noChunks
  | zeroTotal
  | totalExceedsMax (total : ℕ)
  | wrongCount (expected got : ℕ)
  | mismatchedMessageId
  | mismatchedTotal (expected got : ℕ)
  | mismatchedPayloadHash
  | indexOutOfRange (index total : ℕ)
  | duplicateIndex (index : ℕ)
  | missingChunk (index : ℕ)
  | integrity
  deriving DecidableEq

inductive SplitFault
  | emptyPayload
  | exceedsU32 (total : ℕ)
  | exceedsMax (total : ℕ)
  deriving DecidableEq

inductive PaddingFault
  | tooShort
  | lengthExceedsData (originalLen available : ℕ)
  deriving DecidableEq

inductive EnvelopeError
  | payloadTooLarge (size max : ℕ)
  | invalidPadding (fault : PaddingFault)
  | serializationFailed (fault : SplitFault)
  | deserializationFailed (fault : ReassemblyFault)
  | malformed
  deriving DecidableEq

def bucketSizes : List ℕ := [256, 1024, 4096, 16384, 65536, 262144]

def largestBucket : ℕ := 262144

def lengthSuffixSize : ℕ := 4

/-- The bytes of a payload in its bucket: the payload, zeros, and its length. -/
def padded (bucketSize : ℕ) (payload : Bytes) : Bytes :=
  payload ++ List.replicate (bucketSize - payload.length - lengthSuffixSize) 0 ++
    beBytes lengthSuffixSize payload.length

def padToBucket (payload : Bytes) : Except EnvelopeError Bytes := do
  -- The sum is taken on a 64-bit `usize`.
  require (payload.length + lengthSuffixSize < 2^64)
    (.payloadTooLarge payload.length largestBucket)
  -- The smallest bucket that also holds the length.
  let bucketSize ← okOr
    (bucketSizes.find? (fun b => decide (payload.length + lengthSuffixSize ≤ b)))
    (.payloadTooLarge payload.length (largestBucket - lengthSuffixSize))
  require (payload.length < 2^32)
    (.payloadTooLarge payload.length (largestBucket - lengthSuffixSize))
  pure (padded bucketSize payload)

/-- The length that the last four bytes give. -/
def encodedLength (bytes : Bytes) : ℕ := beNat (bytes.drop (bytes.length - lengthSuffixSize))

def stripPadding (bytes : Bytes) : Except EnvelopeError Bytes := do
  require (lengthSuffixSize ≤ bytes.length) (.invalidPadding .tooShort)
  require (encodedLength bytes ≤ bytes.length - lengthSuffixSize)
    (.invalidPadding (.lengthExceedsData (encodedLength bytes) (bytes.length - lengthSuffixSize)))
  pure (bytes.take (encodedLength bytes))

theorem bucket_find_iff (n : ℕ) :
    (∃ b, bucketSizes.find? (fun b => decide (n ≤ b)) = some b) ↔ n ≤ largestBucket := by
  constructor
  · rintro ⟨b, hb⟩
    have hle := List.find?_some hb
    have hmax : ∀ b ∈ bucketSizes, b ≤ largestBucket := by decide
    exact (of_decide_eq_true hle).trans (hmax b (List.mem_of_find?_eq_some hb))
  · intro hn
    rw [← Option.isSome_iff_exists, List.find?_isSome]
    exact ⟨largestBucket, by decide, decide_eq_true hn⟩

theorem padToBucket_ok_iff {payload bytes : Bytes} : padToBucket payload = .ok bytes ↔
    ∃ bucketSize, bucketSizes.find? (fun b => decide (payload.length + lengthSuffixSize ≤ b)) =
      some bucketSize ∧ bytes = padded bucketSize payload := by
  simp only [padToBucket, bind_ok_iff, exists_unit_iff, require_ok_iff, okOr_ok_iff, pure_ok_iff,
    decide_eq_true_eq]
  constructor
  · rintro ⟨_, bucketSize, hfind, _, rfl⟩
    exact ⟨bucketSize, hfind, rfl⟩
  · rintro ⟨bucketSize, hfind, rfl⟩
    have hle := (bucket_find_iff _).mp ⟨bucketSize, hfind⟩
    rw [largestBucket, lengthSuffixSize] at hle
    refine ⟨?_, bucketSize, hfind, by omega, rfl⟩
    rw [lengthSuffixSize]
    omega

/-- A payload is padded exactly where it leaves room for its length in the largest bucket. -/
theorem padToBucket_accepts_iff (payload : Bytes) :
    (∃ bytes, padToBucket payload = .ok bytes) ↔
      payload.length ≤ largestBucket - lengthSuffixSize := by
  have hroom : payload.length + lengthSuffixSize ≤ largestBucket ↔
      payload.length ≤ largestBucket - lengthSuffixSize := by
    rw [largestBucket, lengthSuffixSize]
    omega
  rw [← hroom, ← bucket_find_iff]
  constructor
  · rintro ⟨bytes, hbytes⟩
    obtain ⟨bucketSize, hfind, _⟩ := padToBucket_ok_iff.mp hbytes
    exact ⟨bucketSize, hfind⟩
  · rintro ⟨bucketSize, hfind⟩
    exact ⟨_, padToBucket_ok_iff.mpr ⟨bucketSize, hfind, rfl⟩⟩

/-- What was padded is stripped to the same payload. -/
theorem stripPadding_of_padToBucket {payload bytes : Bytes} (h : padToBucket payload = .ok bytes) :
    stripPadding bytes = .ok payload := by
  have hsize := (padToBucket_accepts_iff payload).mp ⟨bytes, h⟩
  obtain ⟨bucketSize, _, rfl⟩ := padToBucket_ok_iff.mp h
  have hlength : (padded bucketSize payload).length - lengthSuffixSize =
      (payload ++ List.replicate (bucketSize - payload.length - lengthSuffixSize) 0).length := by
    rw [padded, List.length_append, beBytes_length, Nat.add_sub_cancel]
  -- The last four bytes are the length, and it is one of four bytes.
  have hencoded : encodedLength (padded bucketSize payload) = payload.length := by
    rw [encodedLength, hlength, padded, List.drop_left, beNat_beBytes]
    refine Nat.mod_eq_of_lt (lt_of_le_of_lt hsize ?_)
    decide
  simp only [stripPadding, bind_ok_iff, exists_unit_iff, require_ok_iff, decide_eq_true_eq,
    pure_ok_iff, hencoded]
  refine ⟨?_, ?_, ?_⟩
  · rw [padded, List.length_append, beBytes_length]
    omega
  · rw [hlength, List.length_append]
    omega
  · rw [padded, List.append_assoc, List.take_left]

def maxChunkPayloadSize : ℕ := largestBucket - 4

def maxTotalChunks : ℕ := 262144

structure ChunkEnvelope where
  messageId : BitVec 256
  chunkIndex : UInt32
  totalChunks : UInt32
  payloadHash : BitVec 256
  data : Bytes
  deriving DecidableEq

/-- How many pieces of a size cover a length. -/
def chunkCount (size len : ℕ) : ℕ := (len + (size - 1))/size

/-- The pieces of a size, in order; the last may be shorter. -/
def chunks (size : ℕ) (payload : Bytes) : List Bytes :=
  (List.range (chunkCount size payload.length)).map
    (fun i => (payload.drop (size*i)).take size)

section

variable (sha256 : Bytes → BitVec 256)

/-- The id of a message, over its payload, sender and time with their lengths. -/
def messageId (payload senderDid : Bytes) (timestamp : ℕ) : BitVec 256 :=
  sha256 ("SCP-CHUNK-MSG-ID-V1:".toUTF8.data.toList ++ beBytes 4 payload.length ++ payload ++
    beBytes 4 senderDid.length ++ senderDid ++ beBytes 8 timestamp)

/-- The envelope of a piece, at its index among `total`. -/
def chunkOf (payload senderDid : Bytes) (timestamp total : ℕ) (piece : Bytes × ℕ) :
    ChunkEnvelope where
  messageId := messageId sha256 payload senderDid timestamp
  chunkIndex := UInt32.ofNat piece.2
  totalChunks := UInt32.ofNat total
  payloadHash := sha256 payload
  data := piece.1

def splitIntoChunks (payload senderDid : Bytes) (timestamp : ℕ) :
    Except EnvelopeError (List ChunkEnvelope) := do
  let total := (chunks maxChunkPayloadSize payload).length
  require (payload ≠ []) (.serializationFailed .emptyPayload)
  -- The count is cast to a word before it is compared with the cap.
  require (total < 2^32) (.serializationFailed (.exceedsU32 total))
  require (total ≤ maxTotalChunks) (.serializationFailed (.exceedsMax total))
  pure ((chunks maxChunkPayloadSize payload).zipIdx.map
    (chunkOf sha256 payload senderDid timestamp total))

end

/-- One chunk put in its slot, after it is compared with the first. -/
def fillSlot (first : ChunkEnvelope) (slots : List (Option Bytes)) (chunk : ChunkEnvelope) :
    Except EnvelopeError (List (Option Bytes)) := do
  require (chunk.messageId = first.messageId) (.deserializationFailed .mismatchedMessageId)
  require (chunk.totalChunks = first.totalChunks) (.deserializationFailed
    (.mismatchedTotal first.totalChunks.toNat chunk.totalChunks.toNat))
  require (chunk.payloadHash = first.payloadHash) (.deserializationFailed .mismatchedPayloadHash)
  require (chunk.chunkIndex.toNat < first.totalChunks.toNat) (.deserializationFailed
    (.indexOutOfRange chunk.chunkIndex.toNat first.totalChunks.toNat))
  -- A slot that is filled already is a duplicate, even of the same data.
  require (slots[chunk.chunkIndex.toNat]?.join = none)
    (.deserializationFailed (.duplicateIndex chunk.chunkIndex.toNat))
  pure (slots.set chunk.chunkIndex.toNat (some chunk.data))

def fillSlots (first : ChunkEnvelope) :
    List ChunkEnvelope → List (Option Bytes) → Except EnvelopeError (List (Option Bytes))
  | [], slots => .ok slots
  | chunk :: rest, slots => do
    let slots ← fillSlot first slots chunk
    fillSlots first rest slots

/-- The data of the slots one after another, the first of them being the `i`-th. -/
def concatenate : ℕ → List (Option Bytes) → Except EnvelopeError Bytes
  | _, [] => .ok []
  -- The first slot that is still empty is named.
  | i, none :: _ => .error (.deserializationFailed (.missingChunk i))
  | i, some data :: rest => do
    let reassembled ← concatenate (i+1) rest
    pure (data ++ reassembled)

def checkTotal (first : ChunkEnvelope) (count : ℕ) : Except EnvelopeError Unit := do
  require (first.totalChunks.toNat ≠ 0) (.deserializationFailed .zeroTotal)
  require (first.totalChunks.toNat ≤ maxTotalChunks)
    (.deserializationFailed (.totalExceedsMax first.totalChunks.toNat))
  require (count = first.totalChunks.toNat)
    (.deserializationFailed (.wrongCount first.totalChunks.toNat count))

def reassembleChunks (sha256 : Bytes → BitVec 256) : List ChunkEnvelope → Except EnvelopeError Bytes
  | [] => .error (.deserializationFailed .noChunks)
  | first :: rest => do
    checkTotal first (first :: rest).length
    let slots ← fillSlots first (first :: rest) (List.replicate first.totalChunks.toNat none)
    let reassembled ← concatenate 0 slots
    require (sha256 reassembled = first.payloadHash) (.deserializationFailed .integrity)
    pure reassembled

def needsChunking (payload : Bytes) : Bool := largestBucket < payload.length + 4

section

variable {size : ℕ} {payload : Bytes}

theorem chunks_length : (chunks size payload).length = chunkCount size payload.length := by
  rw [chunks, List.length_map, List.length_range]

theorem flatten_pieces (k : ℕ) :
    ((List.range k).map (fun i => (payload.drop (size*i)).take size)).flatten =
      payload.take (size*k) := by
  induction k with
  | zero => simp
  | succ k ih =>
    rw [List.range_succ, List.map_append, List.flatten_append, ih, Nat.mul_succ, List.take_add]
    simp

theorem le_chunkCount (hsize : 0 < size) (len : ℕ) : len ≤ size*chunkCount size len := by
  have hdiv := Nat.div_add_mod (len + (size - 1)) size
  have hmod := Nat.mod_lt (len + (size - 1)) hsize
  rw [chunkCount]
  omega

theorem chunks_flatten (hsize : 0 < size) : (chunks size payload).flatten = payload := by
  rw [chunks, flatten_pieces]
  exact List.take_of_length_le (le_chunkCount hsize _)

theorem chunkCount_le_iff (hsize : 0 < size) (len n : ℕ) : chunkCount size len ≤ n ↔
    len ≤ size*n := by
  rw [chunkCount, Nat.div_le_iff_le_mul_add_pred hsize]
  omega

end

section

variable {first : ChunkEnvelope} {cs : List ChunkEnvelope}

/-- A chunk that may share a message with the first. -/
structure Fits (first c : ChunkEnvelope) : Prop where
  messageId : c.messageId = first.messageId
  total : c.totalChunks = first.totalChunks
  payloadHash : c.payloadHash = first.payloadHash
  range : c.chunkIndex.toNat < first.totalChunks.toNat

def setSlot (slots : List (Option Bytes)) (c : ChunkEnvelope) : List (Option Bytes) :=
  slots.set c.chunkIndex.toNat (some c.data)

theorem foldl_setSlot_length (slots : List (Option Bytes)) :
    (cs.foldl setSlot slots).length = slots.length := by
  induction cs generalizing slots with
  | nil => rfl
  | cons c cs ih => rw [List.foldl_cons, ih, setSlot, List.length_set]

theorem foldl_setSlot_other {slots : List (Option Bytes)} {i : ℕ}
    (h : i ∉ cs.map (fun c => c.chunkIndex.toNat)) : (cs.foldl setSlot slots)[i]? = slots[i]? := by
  induction cs generalizing slots with
  | nil => rfl
  | cons c cs ih =>
    rw [List.map_cons, List.mem_cons, not_or] at h
    rw [List.foldl_cons, ih h.2, setSlot, List.getElem?_set_ne (Ne.symm h.1)]

/-- Each chunk's data ends in the slot of its index. -/
theorem foldl_setSlot_mem {slots : List (Option Bytes)}
    (hnodup : (cs.map (fun c => c.chunkIndex.toNat)).Nodup) {c : ChunkEnvelope} (hc : c ∈ cs)
    (hrange : c.chunkIndex.toNat < slots.length) :
    (cs.foldl setSlot slots)[c.chunkIndex.toNat]? = some (some c.data) := by
  induction cs generalizing slots with
  | nil => cases hc
  | cons head cs ih =>
    rw [List.map_cons, List.nodup_cons] at hnodup
    rw [List.foldl_cons]
    rcases List.mem_cons.mp hc with rfl | hmem
    · rw [foldl_setSlot_other hnodup.1, setSlot, List.getElem?_set_self hrange]
    · exact ih hnodup.2 hmem (by rwa [setSlot, List.length_set])

theorem fillSlots_eq {slots : List (Option Bytes)} (hfits : ∀ c ∈ cs, Fits first c)
    (hnodup : (cs.map (fun c => c.chunkIndex.toNat)).Nodup)
    (hfree : ∀ c ∈ cs, slots[c.chunkIndex.toNat]?.join = none) :
    fillSlots first cs slots = .ok (cs.foldl setSlot slots) := by
  induction cs generalizing slots with
  | nil => rfl
  | cons c cs ih =>
    rw [List.map_cons, List.nodup_cons] at hnodup
    rw [List.forall_mem_cons] at hfits hfree
    have hfill : fillSlot first slots c = .ok (setSlot slots c) := by
      simp only [fillSlot, bind_ok_iff, exists_unit_iff, require_ok_iff, pure_ok_iff,
        decide_eq_true_eq]
      exact ⟨hfits.1.messageId, hfits.1.total, hfits.1.payloadHash, hfits.1.range, hfree.1, rfl⟩
    rw [List.foldl_cons, fillSlots, bind_ok_iff]
    refine ⟨_, hfill, ih hfits.2 hnodup.2 ?_⟩
    -- The slot just set is none of the indices still to come.
    intro c' hc'
    have hne : c.chunkIndex.toNat ≠ c'.chunkIndex.toNat := by
      intro heq
      exact hnodup.1 (heq ▸ List.mem_map_of_mem hc')
    rw [setSlot, List.getElem?_set_ne hne]
    exact hfree.2 c' hc'

theorem concatenate_some (pieces : List Bytes) (i : ℕ) :
    concatenate i (pieces.map some) = .ok pieces.flatten := by
  induction pieces generalizing i with
  | nil => rfl
  | cons piece pieces ih =>
    rw [List.map_cons, concatenate, ih, List.flatten_cons]
    rfl

end

section

variable (sha256 : Bytes → BitVec 256) (payload senderDid : Bytes) (timestamp : ℕ)

/-- The chunks that a payload is split into. -/
def chunksOf : List ChunkEnvelope :=
  (chunks maxChunkPayloadSize payload).zipIdx.map
    (chunkOf sha256 payload senderDid timestamp (chunks maxChunkPayloadSize payload).length)

theorem splitIntoChunks_ok_iff {cs : List ChunkEnvelope} :
    splitIntoChunks sha256 payload senderDid timestamp = .ok cs ↔
      payload ≠ [] ∧ payload.length ≤ maxChunkPayloadSize*maxTotalChunks ∧
        cs = chunksOf sha256 payload senderDid timestamp := by
  have hcount : (chunks maxChunkPayloadSize payload).length ≤ maxTotalChunks ↔
      payload.length ≤ maxChunkPayloadSize*maxTotalChunks := by
    rw [chunks_length, chunkCount_le_iff (by decide)]
  simp only [splitIntoChunks, bind_ok_iff, exists_unit_iff, require_ok_iff, pure_ok_iff,
    decide_eq_true_eq]
  rw [← hcount]
  constructor
  · rintro ⟨hne, _, hmax, rfl⟩
    exact ⟨hne, hmax, rfl⟩
  · rintro ⟨hne, hmax, rfl⟩
    refine ⟨hne, lt_of_le_of_lt hmax (by decide), hmax, rfl⟩

variable {sha256 payload senderDid timestamp}

/-- A chunk of the split: the piece of an index, in the envelope of that index. -/
theorem mem_chunksOf {c : ChunkEnvelope} : c ∈ chunksOf sha256 payload senderDid timestamp ↔
    ∃ piece i, (chunks maxChunkPayloadSize payload)[i]? = some piece ∧
      c = chunkOf sha256 payload senderDid timestamp
        (chunks maxChunkPayloadSize payload).length (piece, i) := by
  rw [chunksOf, List.mem_map]
  constructor
  · rintro ⟨⟨piece, i⟩, hmem, rfl⟩
    exact ⟨piece, i, List.mem_zipIdx_iff_getElem?.mp hmem, rfl⟩
  · rintro ⟨piece, i, hi, rfl⟩
    exact ⟨(piece, i), List.mem_zipIdx_iff_getElem?.mpr hi, rfl⟩

variable (hmax : (chunks maxChunkPayloadSize payload).length ≤ maxTotalChunks)

include hmax

theorem toNat_ofNat_of_le {i : ℕ} (hi : i ≤ (chunks maxChunkPayloadSize payload).length) :
    (UInt32.ofNat i).toNat = i :=
  UInt32.toNat_ofNat_of_lt' (lt_of_le_of_lt (hi.trans hmax) (by decide))

theorem chunksOf_index_nodup : ((chunksOf sha256 payload senderDid timestamp).map
    (fun c => c.chunkIndex.toNat)).Nodup := by
  have hrange : (chunksOf sha256 payload senderDid timestamp).map
      (fun c => c.chunkIndex.toNat) = List.range (chunks maxChunkPayloadSize payload).length := by
    apply List.ext_getElem
    · simp [chunksOf]
    · intro i hi _
      simp only [chunksOf, List.length_map, List.length_zipIdx] at hi
      simp only [chunksOf, List.getElem_map, List.getElem_zipIdx, chunkOf, List.getElem_range,
        Nat.zero_add]
      exact toNat_ofNat_of_le hmax hi.le
  rw [hrange]
  exact List.nodup_range

theorem fits_of_mem {first c : ChunkEnvelope}
    (hfirst : first ∈ chunksOf sha256 payload senderDid timestamp)
    (hc : c ∈ chunksOf sha256 payload senderDid timestamp) : Fits first c := by
  obtain ⟨_, _, _, rfl⟩ := mem_chunksOf.mp hfirst
  obtain ⟨piece, i, hi, rfl⟩ := mem_chunksOf.mp hc
  refine ⟨rfl, rfl, rfl, ?_⟩
  obtain ⟨hlt, _⟩ := List.getElem?_eq_some_iff.mp hi
  rw [chunkOf, chunkOf, toNat_ofNat_of_le hmax hlt.le, toNat_ofNat_of_le hmax le_rfl]
  exact hlt

/-- Whatever the order, the slots end up holding the pieces. -/
theorem foldl_setSlot_chunksOf {order : List ChunkEnvelope}
    (horder : order.Perm (chunksOf sha256 payload senderDid timestamp)) :
    order.foldl setSlot (List.replicate (chunks maxChunkPayloadSize payload).length none) =
      (chunks maxChunkPayloadSize payload).map some := by
  have hnodup : (order.map (fun c => c.chunkIndex.toNat)).Nodup :=
    (horder.map _).nodup_iff.mpr (chunksOf_index_nodup hmax)
  -- A slot in range is set by the chunk of its index, whenever that one comes.
  apply List.ext_getElem?
  intro i
  by_cases hi : i < (chunks maxChunkPayloadSize payload).length
  · obtain ⟨piece, hpiece⟩ : ∃ piece, (chunks maxChunkPayloadSize payload)[i]? = some piece :=
      ⟨_, List.getElem?_eq_getElem hi⟩
    have hmem := horder.mem_iff.mpr (mem_chunksOf.mpr ⟨piece, i, hpiece, rfl⟩)
    have hindex := toNat_ofNat_of_le hmax hi.le
    have hset := @foldl_setSlot_mem order
      (List.replicate (chunks maxChunkPayloadSize payload).length none) hnodup _ hmem
      (by rwa [List.length_replicate, chunkOf, hindex])
    rw [chunkOf, hindex] at hset
    rw [hset, List.getElem?_map, hpiece, Option.map_some]
  · rw [List.getElem?_eq_none (by rw [foldl_setSlot_length, List.length_replicate]; omega),
      List.getElem?_eq_none (by rw [List.length_map]; omega)]

/-- Any order of the chunks is reassembled to the payload. -/
theorem reassembleChunks_of_perm (hne : payload ≠ []) {order : List ChunkEnvelope}
    (horder : order.Perm (chunksOf sha256 payload senderDid timestamp)) :
    reassembleChunks sha256 order = .ok payload := by
  have hflat : (chunks maxChunkPayloadSize payload).flatten = payload :=
    chunks_flatten (by decide)
  have hpos : (chunks maxChunkPayloadSize payload).length ≠ 0 := by
    rw [Ne, List.length_eq_zero_iff]
    intro hnil
    rw [hnil] at hflat
    exact hne hflat.symm
  have hlength : order.length = (chunks maxChunkPayloadSize payload).length := by
    rw [horder.length_eq, chunksOf, List.length_map, List.length_zipIdx]
  cases order with
  | nil => exact absurd hlength.symm hpos
  | cons first rest =>
    have hfirst := horder.mem_iff.mp List.mem_cons_self
    have hfits : ∀ c ∈ first :: rest, Fits first c :=
      fun c hc => fits_of_mem hmax hfirst (horder.mem_iff.mp hc)
    have htotal : first.totalChunks.toNat = (chunks maxChunkPayloadSize payload).length := by
      obtain ⟨_, _, _, rfl⟩ := mem_chunksOf.mp hfirst
      exact toNat_ofNat_of_le hmax le_rfl
    have hhash : sha256 payload = first.payloadHash := by
      obtain ⟨_, _, _, rfl⟩ := mem_chunksOf.mp hfirst
      rfl
    -- Every chunk agrees with whichever came first, so all of them find their slots.
    have hfill : fillSlots first (first :: rest) (List.replicate first.totalChunks.toNat none) =
        .ok ((chunks maxChunkPayloadSize payload).map some) := by
      rw [fillSlots_eq hfits ((horder.map _).nodup_iff.mpr (chunksOf_index_nodup hmax)), htotal,
        foldl_setSlot_chunksOf hmax horder]
      intro c hc
      rw [List.getElem?_replicate_of_lt (hfits c hc).range]
      rfl
    simp only [reassembleChunks, checkTotal, bind_ok_iff, exists_unit_iff, require_ok_iff,
      pure_ok_iff, decide_eq_true_eq, htotal]
    refine ⟨⟨hpos, hmax, hlength⟩, _, htotal ▸ hfill, payload, ?_, hhash, rfl⟩
    rw [concatenate_some, hflat]

end

/-- The cap on a binary field that is read. -/
def boundedBytesMax : ℕ := 524288

/-- The MessagePack form of a chunk. -/
structure ChunkCodec where
  encode : ChunkEnvelope → Bytes
  decode : Bytes → Option ChunkEnvelope

structure ChunkCodec.Lossless (codec : ChunkCodec) : Prop where
  roundTrip : ∀ c, c.data.length ≤ boundedBytesMax → codec.decode (codec.encode c) = some c
  longer : ∀ c, c.data.length < (codec.encode c).length

/-- A chunk as the payload of an inner envelope, from the sender's end to the receiver's. -/
def deliver (codec : ChunkCodec) (c : ChunkEnvelope) : Except EnvelopeError ChunkEnvelope := do
  let bytes ← padToBucket (codec.encode c)
  let stripped ← stripPadding bytes
  okOr (codec.decode stripped) .malformed

/-- The payload is split into chunks that are all padded, and come back as the payload in
whatever order they are received. -/
def SendsBack (codec : ChunkCodec) (sha256 : Bytes → BitVec 256) (payload senderDid : Bytes)
    (timestamp : ℕ) : Prop :=
  ∃ cs, splitIntoChunks sha256 payload senderDid timestamp = .ok cs ∧
    (∀ c ∈ cs, ∃ bytes, padToBucket (codec.encode c) = .ok bytes) ∧
    ∀ order : List ChunkEnvelope, order.Perm cs → ∃ received,
      mapEach (deliver codec) order = .ok received ∧
        reassembleChunks sha256 received = .ok payload

section

variable {codec : ChunkCodec} {sha256 : Bytes → BitVec 256} {payload senderDid : Bytes}
  {timestamp : ℕ}

theorem deliver_eq (hcodec : codec.Lossless) {c : ChunkEnvelope}
    (hsize : (codec.encode c).length ≤ maxChunkPayloadSize) : deliver codec c = .ok c := by
  obtain ⟨bytes, hbytes⟩ := (padToBucket_accepts_iff _).mpr hsize
  -- What fits the bucket is far below the cap on a field that is read.
  have hdata : c.data.length ≤ boundedBytesMax :=
    (hcodec.longer c).le.trans (hsize.trans (by decide))
  rw [deliver, bind_ok_iff]
  refine ⟨bytes, hbytes, ?_⟩
  rw [bind_ok_iff]
  exact ⟨_, stripPadding_of_padToBucket hbytes, by rw [hcodec.roundTrip c hdata]; rfl⟩

/-- Chunks that all fit are sent and come back. -/
theorem sendsBack_of_fit (hcodec : codec.Lossless) (hne : payload ≠ [])
    (hmax : payload.length ≤ maxChunkPayloadSize*maxTotalChunks)
    (hsize : ∀ c ∈ chunksOf sha256 payload senderDid timestamp,
      (codec.encode c).length ≤ maxChunkPayloadSize) :
    SendsBack codec sha256 payload senderDid timestamp := by
  refine ⟨_, (splitIntoChunks_ok_iff sha256 payload senderDid timestamp).mpr ⟨hne, hmax, rfl⟩,
    fun c hc => (padToBucket_accepts_iff _).mpr (hsize c hc), ?_⟩
  intro order horder
  refine ⟨order, ?_, ?_⟩
  · have hall := mapEach_eq_ok (f := deliver codec) (g := id) (l := order)
      (fun c hc => deliver_eq hcodec (hsize c (horder.mem_iff.mp hc)))
    rwa [List.map_id] at hall
  · refine reassembleChunks_of_perm ?_ hne horder
    rwa [chunks_length, chunkCount_le_iff (by decide)]

/-- The chunk of a payload that is not divided. -/
def onlyChunk (sha256 : Bytes → BitVec 256) (payload senderDid : Bytes) (timestamp : ℕ) :
    ChunkEnvelope :=
  chunkOf sha256 payload senderDid timestamp 1 (payload, 0)

theorem chunksOf_eq_only (hne : payload ≠ []) (hle : payload.length ≤ maxChunkPayloadSize) :
    chunksOf sha256 payload senderDid timestamp =
      [onlyChunk sha256 payload senderDid timestamp] := by
  have hcount : chunkCount maxChunkPayloadSize payload.length = 1 := by
    have hpos := List.length_pos_iff.mpr hne
    have hle1 : chunkCount maxChunkPayloadSize payload.length ≤ 1 := by
      rwa [chunkCount_le_iff (by decide), Nat.mul_one]
    have hge : ¬ chunkCount maxChunkPayloadSize payload.length ≤ 0 := by
      rw [chunkCount_le_iff (by decide), Nat.mul_zero]
      omega
    omega
  have hpieces : chunks maxChunkPayloadSize payload = [payload] := by
    rw [chunks, hcount]
    simpa using hle
  rw [chunksOf, hpieces]
  rfl

/-- The first chunk of a longer payload is full. -/
theorem full_chunk_mem (hlong : maxChunkPayloadSize ≤ payload.length) :
    ∃ c ∈ chunksOf sha256 payload senderDid timestamp, c.data.length = maxChunkPayloadSize := by
  have hpos : 0 < chunkCount maxChunkPayloadSize payload.length := by
    rw [← not_le, chunkCount_le_iff (by decide), Nat.mul_zero, not_le]
    exact lt_of_lt_of_le (by decide) hlong
  refine ⟨_, mem_chunksOf.mpr ⟨payload.take maxChunkPayloadSize, 0, ?_, rfl⟩, ?_⟩
  · rw [chunks, List.getElem?_map, List.getElem?_range hpos]
    simp
  · rw [chunkOf, List.length_take]
    omega

theorem padToBucket_of_sendsBack (h : SendsBack codec sha256 payload senderDid timestamp)
    {c : ChunkEnvelope} (hc : c ∈ chunksOf sha256 payload senderDid timestamp) :
    (codec.encode c).length ≤ maxChunkPayloadSize := by
  obtain ⟨cs, hsplit, hpad, _⟩ := h
  obtain ⟨_, _, rfl⟩ := (splitIntoChunks_ok_iff sha256 payload senderDid timestamp).mp hsplit
  exact (padToBucket_accepts_iff _).mp (hpad c hc)

/-- A message is sent in chunks and comes back exactly where it takes one chunk, whose
serialization leaves room for its length in the largest bucket. -/
theorem chunks_come_back_iff (codec : ChunkCodec) (sha256 : Bytes → BitVec 256)
    (payload senderDid : Bytes) (timestamp : ℕ) (hcodec : codec.Lossless) (hne : payload ≠ [])
    (hmax : chunkCount maxChunkPayloadSize payload.length ≤ maxTotalChunks) :
    SendsBack codec sha256 payload senderDid timestamp ↔
      (codec.encode (onlyChunk sha256 payload senderDid timestamp)).length ≤
        maxChunkPayloadSize := by
  constructor
  · intro h
    by_cases hlong : maxChunkPayloadSize ≤ payload.length
    -- A full chunk grows past the bucket when it is serialized.
    · obtain ⟨c, hc, hfull⟩ := @full_chunk_mem sha256 payload senderDid timestamp hlong
      have hroom := padToBucket_of_sendsBack h hc
      have hlonger := hcodec.longer c
      omega
    · apply padToBucket_of_sendsBack h
      rw [chunksOf_eq_only hne (by omega)]
      exact List.mem_singleton_self _
  · intro hsize
    -- The payload is shorter than its chunk, so it is one piece.
    have hshort : payload.length < maxChunkPayloadSize :=
      lt_of_lt_of_le (hcodec.longer (onlyChunk sha256 payload senderDid timestamp)) hsize
    apply sendsBack_of_fit hcodec hne ((chunkCount_le_iff (by decide) _ _).mp hmax)
    rw [chunksOf_eq_only hne hshort.le]
    intro c hc
    rwa [List.mem_singleton.mp hc]

end

/-- A binary field: the shortest of the three headers that hold its length. -/
def binBytes (b : Bytes) : Bytes :=
  if b.length < 256 then 0xc4 :: beBytes 1 b.length ++ b
  else if b.length < 65536 then 0xc5 :: beBytes 2 b.length ++ b
  else 0xc6 :: beBytes 4 b.length ++ b

/-- An unsigned integer in the shortest of its forms. -/
def uintBytes (n : UInt32) : Bytes :=
  if n.toNat < 128 then [UInt8.ofNat n.toNat]
  else if n.toNat < 256 then 0xcc :: beBytes 1 n.toNat
  else if n.toNat < 65536 then 0xcd :: beBytes 2 n.toNat
  else 0xce :: beBytes 4 n.toNat

/-- A length of some bytes, and as many bytes. -/
def readSized (width : ℕ) (b : Bytes) : Except Unit (Bytes × Bytes) := do
  let (len, rest) ← readBytes width () b
  readBytes (beNat len) () rest

def readBin : Bytes → Except Unit (Bytes × Bytes)
  | [] => .error ()
  | tag :: rest =>
    if tag = 0xc4 then readSized 1 rest
    else if tag = 0xc5 then readSized 2 rest
    else if tag = 0xc6 then readSized 4 rest
    else .error ()

def readWord (width : ℕ) (b : Bytes) : Except Unit (UInt32 × Bytes) := do
  let (taken, rest) ← readBytes width () b
  pure (UInt32.ofNat (beNat taken), rest)

def readUint : Bytes → Except Unit (UInt32 × Bytes)
  | [] => .error ()
  | tag :: rest =>
    if tag.toNat < 128 then .ok (UInt32.ofNat tag.toNat, rest)
    else if tag = 0xcc then readWord 1 rest
    else if tag = 0xcd then readWord 2 rest
    else if tag = 0xce then readWord 4 rest
    else .error ()

def readHash (b : Bytes) : Except Unit (BitVec 256 × Bytes) := do
  let (hash, rest) ← readBin b
  require (hash.length = 32) ()
  pure (BitVec.ofNat 256 (beNat hash), rest)

def readBounded (b : Bytes) : Except Unit (Bytes × Bytes) := do
  let (data, rest) ← readBin b
  require (data.length ≤ boundedBytesMax) ()
  pure (data, rest)

/-- The five fields of a chunk. -/
def readChunk (b : Bytes) : Except Unit ChunkEnvelope := do
  let (messageId, b) ← readHash b
  let (chunkIndex, b) ← readUint b
  let (totalChunks, b) ← readUint b
  let (payloadHash, b) ← readHash b
  let (data, _) ← readBounded b
  pure ⟨messageId, chunkIndex, totalChunks, payloadHash, data⟩

/-- A chunk as an array of its five fields. -/
def messagePack : ChunkCodec where
  encode c := 0x95 :: binBytes (beBytes 32 c.messageId.toNat) ++ uintBytes c.chunkIndex ++
    uintBytes c.totalChunks ++ binBytes (beBytes 32 c.payloadHash.toNat) ++ binBytes c.data
  decode b := match b with
    | 0x95 :: rest => (readChunk rest).toOption
    | _ => none

theorem readSized_append (width : ℕ) {b : Bytes} (h : b.length < 256^width) (rest : Bytes) :
    readSized width (beBytes width b.length ++ (b ++ rest)) = .ok (b, rest) := by
  rw [readSized, bind_ok_iff]
  refine ⟨(beBytes width b.length, b ++ rest),
    (readBytes_exact width () _ _ _).mpr ⟨beBytes_length _ _, rfl⟩, ?_⟩
  show readBytes (beNat (beBytes width b.length)) () (b ++ rest) = .ok (b, rest)
  rw [beNat_beBytes, Nat.mod_eq_of_lt h]
  exact (readBytes_exact _ () _ _ _).mpr ⟨rfl, rfl⟩

theorem readBin_append {b : Bytes} (h : b.length < 2^32) (rest : Bytes) :
    readBin (binBytes b ++ rest) = .ok (b, rest) := by
  rw [binBytes]
  split_ifs with h1 h2
  · simpa [readBin] using readSized_append 1 h1 rest
  · simpa [readBin] using readSized_append 2 h2 rest
  · simpa [readBin] using readSized_append 4 h rest

theorem readWord_append (width : ℕ) {n : UInt32} (h : n.toNat < 256^width) (rest : Bytes) :
    readWord width (beBytes width n.toNat ++ rest) = .ok (n, rest) := by
  rw [readWord, bind_ok_iff]
  refine ⟨(beBytes width n.toNat, rest),
    (readBytes_exact width () _ _ _).mpr ⟨beBytes_length _ _, rfl⟩, ?_⟩
  show pure (UInt32.ofNat (beNat (beBytes width n.toNat)), rest) = Except.ok (n, rest)
  rw [beNat_beBytes, Nat.mod_eq_of_lt h, UInt32.ofNat_toNat]
  rfl

theorem readUint_append (n : UInt32) (rest : Bytes) :
    readUint (uintBytes n ++ rest) = .ok (n, rest) := by
  rw [uintBytes]
  split_ifs with h1 h2 h3
  · have htag : (UInt8.ofNat n.toNat).toNat = n.toNat :=
      UInt8.toNat_ofNat_of_lt' (lt_trans h1 (by decide))
    rw [List.singleton_append, readUint, htag, if_pos h1, UInt32.ofNat_toNat]
  · simpa [readUint] using readWord_append 1 h2 rest
  · simpa [readUint] using readWord_append 2 h3 rest
  · simpa [readUint] using readWord_append 4 n.toNat_lt rest

theorem readHash_append (hash : BitVec 256) (rest : Bytes) :
    readHash (binBytes (beBytes 32 hash.toNat) ++ rest) = .ok (hash, rest) := by
  have hword : BitVec.ofNat 256 (beNat (beBytes 32 hash.toNat)) = hash := by
    rw [beNat_beBytes, Nat.mod_eq_of_lt (lt_of_lt_of_eq hash.isLt (by norm_num)),
      BitVec.ofNat_toNat, BitVec.setWidth_eq]
  rw [readHash, readBin_append (by rw [beBytes_length]; decide), bind_ok_iff]
  refine ⟨_, rfl, ?_⟩
  simp [beBytes_length, require, hword]

theorem readBounded_append {b : Bytes} (h : b.length ≤ boundedBytesMax) (rest : Bytes) :
    readBounded (binBytes b ++ rest) = .ok (b, rest) := by
  rw [readBounded, readBin_append (lt_of_le_of_lt h (by decide)), bind_ok_iff]
  refine ⟨_, rfl, ?_⟩
  simp [require, h]

theorem binBytes_length (b : Bytes) : (binBytes b).length =
    b.length + if b.length < 256 then 2 else if b.length < 65536 then 3 else 5 := by
  rw [binBytes]
  split_ifs <;> simp <;> omega

theorem readChunk_fields {c : ChunkEnvelope} (hc : c.data.length ≤ boundedBytesMax) :
    readChunk (binBytes (beBytes 32 c.messageId.toNat) ++ (uintBytes c.chunkIndex ++
      (uintBytes c.totalChunks ++ (binBytes (beBytes 32 c.payloadHash.toNat) ++
        (binBytes c.data ++ []))))) = .ok c := by
  simp only [readChunk, bind_ok_iff]
  exact ⟨_, readHash_append _ _, _, readUint_append _ _, _, readUint_append _ _, _,
    readHash_append _ _, _, readBounded_append hc [], rfl⟩

theorem messagePack_lossless : messagePack.Lossless := by
  constructor
  · intro c hc
    have hread := readChunk_fields hc
    rw [List.append_nil] at hread
    simp only [messagePack, List.append_assoc, List.cons_append, hread]
    rfl
  · intro c
    have hbin := binBytes_length c.data
    simp only [messagePack, List.length_append, List.length_cons]
    omega

/-- The whole payload in a chunk grows by its header and the other fields. -/
theorem messagePack_onlyChunk_length (sha256 : Bytes → BitVec 256) (payload senderDid : Bytes)
    (timestamp : ℕ) (hlong : 65536 ≤ payload.length) :
    (messagePack.encode (onlyChunk sha256 payload senderDid timestamp)).length =
      payload.length + 76 := by
  have hdata : (binBytes payload).length = payload.length + 5 := by
    rw [binBytes_length, if_neg (by omega), if_neg (by omega)]
  have hhash (x : BitVec 256) : (binBytes (beBytes 32 x.toNat)).length = 34 := by
    rw [binBytes_length, beBytes_length]
    rfl
  have hindex : (uintBytes (UInt32.ofNat 0)).length = 1 := by decide
  have htotal : (uintBytes (UInt32.ofNat 1)).length = 1 := by decide
  simp only [messagePack, onlyChunk, chunkOf, List.length_append, List.length_cons, hdata, hhash,
    hindex, htotal]
  omega

theorem short_message_comes_back :
    SendsBack messagePack (fun _ => 7) [104, 105] [100] 1 :=
  (chunks_come_back_iff messagePack (fun _ => 7) [104, 105] [100] 1 messagePack_lossless
    (by decide) (by decide)).mpr (by decide)

/-- One full chunk's worth of bytes, or any number more, cannot be padded. -/
theorem full_chunk_not_sent :
    (List.replicate 262140 (0 : UInt8)) ≠ [] ∧
    chunkCount maxChunkPayloadSize (List.replicate 262140 (0 : UInt8)).length ≤ maxTotalChunks ∧
    needsChunking (List.replicate 262140 (0 : UInt8)) = false ∧
    (∀ sha256, (messagePack.encode (onlyChunk sha256 (List.replicate 262140 0) [100] 1)).length =
      262216) ∧
    ¬ ∃ sha256, SendsBack messagePack sha256 (List.replicate 262140 0) [100] 1 := by
  have hlength : (List.replicate 262140 (0 : UInt8)).length = 262140 := List.length_replicate
  have hne : List.replicate 262140 (0 : UInt8) ≠ [] := by
    intro hnil
    rw [hnil] at hlength
    cases hlength
  have hgrown : ∀ sha256, (messagePack.encode
      (onlyChunk sha256 (List.replicate 262140 0) [100] 1)).length = 262216 := by
    intro sha256
    rw [messagePack_onlyChunk_length _ _ _ _ (by omega), hlength]
  have hcount : chunkCount maxChunkPayloadSize (List.replicate 262140 (0 : UInt8)).length ≤
      maxTotalChunks := by
    rw [hlength]
    decide
  refine ⟨hne, hcount, ?_, hgrown, ?_⟩
  · rw [needsChunking, hlength]
    decide
  · rintro ⟨sha256, h⟩
    have hroom := padToBucket_of_sendsBack h
      (by rw [chunksOf_eq_only hne hlength.le]; exact List.mem_singleton_self _)
    rw [hgrown sha256] at hroom
    exact absurd hroom (by decide)

end ScpCore.Envelope
