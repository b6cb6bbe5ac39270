import ScpCore.EventProof
import ScpCore.EventTiered

/-! The cold tier over whole histories. The tiers together keep every leaf in append order, and
a migration brings the hot tier within its bounds, the byte bound as long as the sizes of the hot
events add up within 64 bits. A cold proof comes from an untrusted relay: its leaf hash and its
path are checked, but the index it carries is returned unread. -/

namespace ScpCore.EventLog

/-- What a relay answers for a context, a sequence and a leaf hash. -/
abbrev ColdTierProvider := String → ℕ → Hash → Except TieredStorageError InclusionProof

section Fetch
variable {κ : Type} (C : LogCrypto κ) (t : TieredEventLog κ)

def TieredEventLog.fetchColdProof (sequence : ℕ) (provider : ColdTierProvider) :
    Except TieredStorageError InclusionProof :=
  match t.coldEntries.find? (·.sequence = sequence) with
  | none => .error (.notInColdTier sequence)
  | some entry => do
    let reply ← provider t.hot.contextId entry.sequence entry.leafHash
    require (reply.leafHash = entry.leafHash)
      (.leafHashMismatch entry.sequence entry.leafHash reply.leafHash)
    -- The local root stands in for the one the relay states.
    let proof := { reply with root := t.checkpointRoot }
    require (verifyInclusion C proof) (.coldProofVerificationFailed entry.sequence)
    pure proof

/-- The runs of the tiered log, with the leaves of all appends in order and those there were at
the last migration. -/
inductive TieredHistory (C : LogCrypto κ) : List Hash → Option (List Hash) → TieredEventLog κ → Prop
  | new (contextId : String) (config : TierConfig) : TieredHistory C [] none (.new contextId config)
  | append {appended : List Hash} {migrated : Option (List Hash)} {t : TieredEventLog κ}
      {event : Event κ} {leaf : Hash} {index : ℕ} {hot : Log κ} (timestamp byteSize : ℕ)
      (h : TieredHistory C appended migrated t) (hleaf : leafHash C event = .ok leaf)
      (ok : t.hot.append C event = .ok (index, hot)) :
      TieredHistory C (appended ++ [leaf]) migrated
        (({ t with hot } : TieredEventLog κ).recordHotEvent timestamp byteSize)
  | appendUnsignedEvent {appended : List Hash} {migrated : Option (List Hash)}
      {t : TieredEventLog κ} {event : Event κ} {leaf : Hash} {index : ℕ} {hot : Log κ}
      (timestamp byteSize : ℕ) (h : TieredHistory C appended migrated t)
      (hleaf : leafHash C event = .ok leaf)
      (ok : t.hot.appendUnsignedEvent C event = .ok (index, hot)) :
      TieredHistory C (appended ++ [leaf]) migrated
        (({ t with hot } : TieredEventLog κ).recordHotEvent timestamp byteSize)
  | migrateToCold {appended : List Hash} {migrated : Option (List Hash)} {t t' : TieredEventLog κ}
      {now : ℕ} {result : TierMigrationResult} (h : TieredHistory C appended migrated t)
      (ok : t.migrateToCold C now = .ok (result, t')) : TieredHistory C appended (some appended) t'

/-- The hot tier is within its event bound. -/
def TieredEventLog.EventsBounded (t : TieredEventLog κ) : Prop :=
  ∀ maxHot, t.config.maxHotEvents = some maxHot → t.hotEventCount ≤ maxHot

/-- The hot tier is within its byte bound. -/
def TieredEventLog.BytesBounded (t : TieredEventLog κ) : Prop :=
  ∀ maxBytes, t.config.maxHotBytes = some maxBytes → t.hotByteSizes.sum ≤ maxBytes

/-- Under a byte bound, the sizes of the hot events add up within 64 bits. -/
def TieredEventLog.BytesFit (t : TieredEventLog κ) : Prop :=
  ∀ maxBytes, t.config.maxHotBytes = some maxBytes → t.hotByteSizes.sum < 2^64

/-- What the two tiers keep of the log. -/
structure KeepsWholeLog (C : LogCrypto κ) (appended : List Hash) (migrated : Option (List Hash))
    (t : TieredEventLog κ) : Prop where
  leaves : t.coldEntries.map (·.leafHash) ++ t.hot.leaves = appended
  sequences : ∀ (i : ℕ) (entry : ColdTierEntry), t.coldEntries[i]? = some entry →
    entry.sequence = i
  checkpointRoot : ∀ leaves, migrated = some leaves → t.checkpointRoot = merkleTreeHash C leaves
  bounded : ∀ (now : ℕ) (result : TierMigrationResult) (t' : TieredEventLog κ),
    t.migrateToCold C now = .ok (result, t') → t'.EventsBounded ∧ (t.BytesFit → t'.BytesBounded)

/-- A fetched proof is of the leaf appended at the sequence asked for, and carries that index. -/
def FetchesInPlace (C : LogCrypto κ) (appended : List Hash) (t : TieredEventLog κ) (sequence : ℕ)
    (provider : ColdTierProvider) : Prop :=
  ∀ proof, t.fetchColdProof C sequence provider = .ok proof →
    proof.leafIndex = sequence ∧ appended[sequence]? = some proof.leafHash

/-- Where the relay's reply has the cold entry's leaf hash and a path to the checkpoint root, its
index is the one asked for. -/
def RepliesInPlace (C : LogCrypto κ) (t : TieredEventLog κ) (sequence : ℕ)
    (provider : ColdTierProvider) : Prop :=
  ∀ entry ∈ t.coldEntries, entry.sequence = sequence →
    ∀ reply, provider t.hot.contextId sequence entry.leafHash = .ok reply →
      reply.leafHash = entry.leafHash →
      verifyInclusion C { reply with root := t.checkpointRoot } = true → reply.leafIndex = sequence

end Fetch

section Histories
variable {κ : Type} {C : LogCrypto κ} {t : TieredEventLog κ} {appended : List Hash}
  {migrated : Option (List Hash)}

theorem TieredHistory.run (h : TieredHistory C appended migrated t) : TieredRun C t := by
  induction h with
  | new contextId config => exact .new contextId config
  | append timestamp byteSize _ _ ok ih => exact .append timestamp byteSize ih ok
  | appendUnsignedEvent timestamp byteSize _ _ ok ih =>
    exact .appendUnsignedEvent timestamp byteSize ih ok
  | migrateToCold _ ok ih => exact .migrateToCold ih ok

/-- The leaves recorded beside the tiers are those of the appends. -/
theorem TieredHistory.allLeafHashes (h : TieredHistory C appended migrated t) :
    t.allLeafHashes = appended := by
  have hrecord : ∀ {t : TieredEventLog κ} {appended : List Hash} {leaf : Hash} {event : Event κ}
      {timestamp byteSize : ℕ}, t.allLeafHashes = appended →
      (({ t with hot := t.hot.pushed C leaf event } : TieredEventLog κ).recordHotEvent timestamp
        byteSize).allLeafHashes = appended ++ [leaf] := by
    intro t appended leaf event timestamp byteSize ih
    simp [TieredEventLog.recordHotEvent, Log.pushed, ih]
  induction h with
  | new contextId config => rfl
  | append timestamp byteSize _ hleaf ok ih =>
    obtain ⟨_, _, _, leaf, hleaf', _, rfl⟩ := append_ok.mp ok
    rw [hleaf, Except.ok.injEq] at hleaf'
    subst hleaf'
    exact hrecord ih
  | appendUnsignedEvent timestamp byteSize _ hleaf ok ih =>
    obtain ⟨_, _, leaf, hleaf', _, rfl⟩ := appendUnsignedEvent_ok.mp ok
    rw [hleaf, Except.ok.injEq] at hleaf'
    subst hleaf'
    exact hrecord ih
  | migrateToCold _ ok ih =>
    obtain ⟨rfl, _⟩ := migrateToCold_ok ok
    exact ih

/-- A new cold entry carries its place behind the offset. -/
theorem coldEntriesFrom_sequence {count i : ℕ} {entry : ColdTierEntry}
    (h : (t.coldEntriesFrom count)[i]? = some entry) : entry.sequence = t.globalIndexOffset+i := by
  rw [TieredEventLog.coldEntriesFrom, List.getElem?_map, Option.map_eq_some_iff] at h
  obtain ⟨⟨leaf, j⟩, hget, rfl⟩ := h
  rw [List.getElem?_zipIdx, Option.map_eq_some_iff] at hget
  obtain ⟨_, _, hpair⟩ := hget
  rw [Prod.mk.injEq] at hpair
  dsimp only
  omega

/-- Every cold entry carries its place. -/
theorem TieredRun.sequences (h : TieredRun C t) {i : ℕ} {entry : ColdTierEntry}
    (hget : t.coldEntries[i]? = some entry) : entry.sequence = i := by
  induction h generalizing i entry with
  | new contextId config => simp [TieredEventLog.new] at hget
  | append _ _ _ _ ih => exact ih hget
  | appendUnsignedEvent _ _ _ _ ih => exact ih hget
  | @migrateToCold t t' now result hrun ok ih =>
    obtain ⟨rfl, _⟩ := migrateToCold_ok ok
    have hoffset := hrun.oneLog.offset
    rw [TieredEventLog.migrated] at hget
    dsimp only at hget
    by_cases hi : i < t.coldEntries.length
    · rw [List.getElem?_append_left hi] at hget
      exact ih hget
    · rw [List.getElem?_append_right (by omega)] at hget
      have hseq := coldEntriesFrom_sequence hget
      omega

/-- The loop stops where what stays is within the bound, or at the end. -/
theorem sizeMigrate_spec (maxBytes : ℕ) (sizes : List ℕ) (freed : ℕ)
    (hfit : freed+sizes.sum < 2^64) :
    (sizes.drop (sizeMigrate (freed+sizes.sum) maxBytes sizes freed)).sum ≤ maxBytes := by
  induction sizes generalizing freed with
  | nil => simp [sizeMigrate]
  | cons size sizes ih =>
    have htotal : freed+(size :: sizes).sum = freed+size+sizes.sum := by
      rw [List.sum_cons]
      omega
    rw [sizeMigrate, htotal]
    by_cases hle : freed+size+sizes.sum-freed ≤ maxBytes
    · rw [if_pos hle, List.drop_zero, List.sum_cons]
      omega
    · have hsmall : (freed+size)%2^64 = freed+size := by
        rw [htotal] at hfit
        exact Nat.mod_eq_of_lt (by omega)
      rw [if_neg hle, List.drop_succ_cons, hsmall]
      exact ih (freed+size) (by rw [← htotal]; exact hfit)

theorem sum_drop_le {sizes : List ℕ} {few many : ℕ} (h : few ≤ many) :
    (sizes.drop many).sum ≤ (sizes.drop few).sum := by
  have hsplit : many = few+(many-few) := by omega
  rw [hsplit, ← List.drop_drop]
  exact (List.drop_sublist _ _).sum_le_sum (by simp)

/-- A migration that is carried out moves at least the excess over both bounds. -/
theorem migrated_bounded {now : ℕ} (h : t.eventsToMigrate now ≠ 0) :
    (t.migrated C (t.eventsToMigrate now)).EventsBounded ∧
      (t.BytesFit → (t.migrated C (t.eventsToMigrate now)).BytesBounded) := by
  have hcount : t.eventsToMigrate now =
      max (max (t.ageEligible now) t.countExcess) t.sizeExcess := by
    unfold TieredEventLog.eventsToMigrate at h ⊢
    by_cases hzero : t.hotEventCount = 0
    · rw [if_pos hzero] at h
      exact absurd rfl h
    · rw [if_neg hzero]
  constructor
  · intro maxHot hmax
    have hexcess : t.countExcess = t.hot.leaves.length-maxHot := by
      have hconfig : t.config.maxHotEvents = some maxHot := hmax
      rw [TieredEventLog.countExcess, hconfig]
      rfl
    rw [TieredEventLog.hotEventCount, Log.eventCount, TieredEventLog.migrated]
    dsimp only
    rw [rebuild_leaves, List.length_drop]
    omega
  · intro hfits maxBytes hmax
    have hconfig : t.config.maxHotBytes = some maxBytes := hmax
    have hfit := hfits maxBytes hconfig
    have htotal : t.hotStorageBytes = t.hotByteSizes.sum := Nat.mod_eq_of_lt hfit
    have hexcess : (t.hotByteSizes.drop t.sizeExcess).sum ≤ maxBytes := by
      rw [TieredEventLog.sizeExcess, hconfig, htotal]
      simp only [Option.elim_some]
      by_cases hover : maxBytes < t.hotByteSizes.sum
      · rw [if_pos hover]
        have hspec := sizeMigrate_spec maxBytes t.hotByteSizes 0 (by rw [Nat.zero_add]; exact hfit)
        rw [Nat.zero_add] at hspec
        exact hspec
      · rw [if_neg hover, List.drop_zero]
        exact not_lt.mp hover
    calc (t.migrated C (t.eventsToMigrate now)).hotByteSizes.sum
        = (t.hotByteSizes.drop (t.eventsToMigrate now)).sum := rfl
      _ ≤ (t.hotByteSizes.drop t.sizeExcess).sum := sum_drop_le (by omega)
      _ ≤ maxBytes := hexcess

theorem TieredHistory.checkpointRoot (h : TieredHistory C appended migrated t) {leaves : List Hash}
    (hmigrated : migrated = some leaves) : t.checkpointRoot = merkleTreeHash C leaves := by
  induction h with
  | new contextId config => cases hmigrated
  | append _ _ _ _ _ ih => exact ih hmigrated
  | appendUnsignedEvent _ _ _ _ _ ih => exact ih hmigrated
  | migrateToCold hhist ok _ =>
    obtain ⟨rfl, _⟩ := migrateToCold_ok ok
    rw [Option.some.injEq] at hmigrated
    subst hmigrated
    rw [← hhist.allLeafHashes]
    exact loopedRoot_eq _

theorem TieredHistory.keepsWholeLog (h : TieredHistory C appended migrated t) :
    KeepsWholeLog C appended migrated t := by
  refine ⟨?_, fun i entry hget => h.run.sequences hget, fun leaves => h.checkpointRoot, ?_⟩
  · rw [← h.run.oneLog.leaves, h.allLeafHashes]
  · intro now result t' ok
    obtain ⟨rfl, hne⟩ := migrateToCold_ok ok
    exact migrated_bounded hne

/-- A fetch succeeds with the relay's reply under the local root, after its two checks. -/
theorem fetchColdProof_ok {sequence : ℕ} {provider : ColdTierProvider} {proof : InclusionProof} :
    t.fetchColdProof C sequence provider = .ok proof ↔
      ∃ entry, t.coldEntries.find? (·.sequence = sequence) = some entry ∧
        ∃ reply, provider t.hot.contextId entry.sequence entry.leafHash = .ok reply ∧
          reply.leafHash = entry.leafHash ∧
          verifyInclusion C { reply with root := t.checkpointRoot } = true ∧
          proof = { reply with root := t.checkpointRoot } := by
  unfold TieredEventLog.fetchColdProof
  cases t.coldEntries.find? (·.sequence = sequence) with
  | none => simp
  | some entry =>
    simp only [bind_ok_iff, require_ok_iff, exists_unit_iff, pure_ok_iff, decide_eq_true_eq,
      Option.some.injEq, exists_eq_left']
    simp only [eq_comm]

theorem KeepsWholeLog.find_iff (h : KeepsWholeLog C appended migrated t) {sequence : ℕ}
    {entry : ColdTierEntry} :
    t.coldEntries.find? (·.sequence = sequence) = some entry ↔
      t.coldEntries[sequence]? = some entry := by
  constructor
  · intro hfind
    obtain ⟨i, hi⟩ := List.mem_iff_getElem?.mp (List.mem_of_find?_eq_some hfind)
    have hseq := List.find?_some hfind
    rw [decide_eq_true_eq, h.sequences i entry hi] at hseq
    rw [← hseq, hi]
  · intro hget
    cases hfind : t.coldEntries.find? (·.sequence = sequence) with
    | none =>
      have hnone := List.find?_eq_none.mp hfind entry (List.mem_of_getElem? hget)
      rw [decide_eq_true_eq] at hnone
      exact absurd (h.sequences sequence entry hget) hnone
    | some found =>
      obtain ⟨i, hi⟩ := List.mem_iff_getElem?.mp (List.mem_of_find?_eq_some hfind)
      have hseq := List.find?_some hfind
      rw [decide_eq_true_eq, h.sequences i found hi] at hseq
      rw [hseq, hget, Option.some.injEq] at hi
      rw [hi]

/-- Whatever the relay does, a fetched proof is of the leaf appended at that sequence. -/
theorem KeepsWholeLog.fetched_leaf (h : KeepsWholeLog C appended migrated t) {sequence : ℕ}
    {provider : ColdTierProvider} {proof : InclusionProof}
    (ok : t.fetchColdProof C sequence provider = .ok proof) :
    appended[sequence]? = some proof.leafHash := by
  obtain ⟨entry, hfind, reply, _, hleaf, _, rfl⟩ := fetchColdProof_ok.mp ok
  have hget := h.find_iff.mp hfind
  obtain ⟨hlt, -⟩ := List.getElem?_eq_some_iff.mp hget
  rw [← h.leaves, List.getElem?_append_left (by rw [List.length_map]; exact hlt),
    List.getElem?_map, hget, hleaf]
  rfl

end Histories

/-- In every history the tiers keep the whole log, and a fetched proof is in place for every
relay exactly where the reply's own index is right whenever the reply passes both checks. -/
theorem cold_storage_fetch_iff {κ : Type} {C : LogCrypto κ} {appended : List Hash}
    {migrated : Option (List Hash)} {t : TieredEventLog κ}
    (h : TieredHistory C appended migrated t) :
    KeepsWholeLog C appended migrated t ∧
    ∀ (sequence : ℕ) (provider : ColdTierProvider),
      FetchesInPlace C appended t sequence provider ↔ RepliesInPlace C t sequence provider := by
  have hkeeps := h.keepsWholeLog
  refine ⟨hkeeps, fun sequence provider => ⟨?_, ?_⟩⟩
  · intro hfetch entry hentry hseq reply hreply hleaf hverify
    have hfind : t.coldEntries.find? (·.sequence = sequence) = some entry := by
      obtain ⟨i, hi⟩ := List.mem_iff_getElem?.mp hentry
      have hplace := hkeeps.sequences i entry hi
      apply hkeeps.find_iff.mpr
      rw [← hseq, hplace, hi]
    rw [← hseq] at hreply
    have hok : t.fetchColdProof C sequence provider =
        .ok { reply with root := t.checkpointRoot } :=
      fetchColdProof_ok.mpr ⟨entry, hfind, reply, hreply, hleaf, hverify, rfl⟩
    exact (hfetch _ hok).1
  · intro hreplies proof hok
    refine ⟨?_, hkeeps.fetched_leaf hok⟩
    obtain ⟨entry, hfind, reply, hreply, hleaf, hverify, rfl⟩ := fetchColdProof_ok.mp hok
    have hseq := List.find?_some hfind
    rw [decide_eq_true_eq] at hseq
    rw [hseq] at hreply
    exact hreplies entry (List.mem_of_find?_eq_some hfind) hseq reply hreply hleaf hverify

-- The one event of the sample log gone cold, and a relay that answers for it.

theorem sampleTiered_history : TieredHistory sampleCrypto [sampleLeaf] none sampleTiered := by
  have happ : (TieredEventLog.new "ctx" sampleTierConfig : TieredEventLog Unit).hot.append
      sampleCrypto sampleEvent =
        .ok (0, (Log.new "ctx").pushed sampleCrypto sampleLeaf sampleEvent) :=
    append_ok.mpr ⟨rfl, rfl, by decide +kernel, sampleLeaf, by decide +kernel, rfl, rfl⟩
  exact .append 0 10 (.new "ctx" sampleTierConfig) (by decide +kernel) happ

def sampleCold : TieredEventLog Unit := sampleTiered.migrated sampleCrypto 1

theorem sampleCold_history :
    TieredHistory sampleCrypto [sampleLeaf] (some [sampleLeaf]) sampleCold := by
  have hcount : sampleTiered.eventsToMigrate 0 = 1 := by decide +kernel
  have hok : ∃ result, sampleTiered.migrateToCold sampleCrypto 0 = .ok (result, sampleCold) := by
    unfold TieredEventLog.migrateToCold
    rw [hcount, if_neg one_ne_zero]
    exact ⟨_, rfl⟩
  obtain ⟨result, hok⟩ := hok
  exact .migrateToCold sampleTiered_history hok

/-- The proof of the one leaf, whose path is empty, under an index of the relay's choice. -/
def sampleRelay (leafIndex : ℕ) : ColdTierProvider :=
  fun _ _ leafHash => .ok ⟨leafIndex, leafHash, [], 0⟩

theorem cold_storage_fetch_iff_sample :
    KeepsWholeLog sampleCrypto [sampleLeaf] (some [sampleLeaf]) sampleCold ∧
      FetchesInPlace sampleCrypto [sampleLeaf] sampleCold 0 (sampleRelay 0) := by
  obtain ⟨hkeeps, hfetch⟩ := cold_storage_fetch_iff sampleCold_history
  refine ⟨hkeeps, (hfetch 0 (sampleRelay 0)).mpr ?_⟩
  intro entry _ _ reply hreply _ _
  rw [sampleRelay, Except.ok.injEq] at hreply
  rw [← hreply]

/-- Two events of 2^63 bytes each, under bounds of one event and ten bytes. -/
def sampleWide : TieredEventLog Unit :=
  let hot := (Log.new "ctx").pushed sampleCrypto sampleLeaf sampleEvent
  let first := { (TieredEventLog.new "ctx" ⟨none, some 1, some 10⟩ : TieredEventLog Unit) with
    hot := hot }.recordHotEvent 0 (2^63)
  { first with hot := hot.pushed sampleCrypto sampleNextLeaf sampleNext }.recordHotEvent 1 (2^63)

theorem sampleWide_history :
    TieredHistory sampleCrypto [sampleLeaf, sampleNextLeaf] none sampleWide := by
  have hfirst : (TieredEventLog.new "ctx" ⟨none, some 1, some 10⟩ : TieredEventLog Unit).hot.append
      sampleCrypto sampleEvent =
        .ok (0, (Log.new "ctx").pushed sampleCrypto sampleLeaf sampleEvent) :=
    append_ok.mpr ⟨rfl, rfl, by decide +kernel, sampleLeaf, by decide +kernel, rfl, rfl⟩
  have hsecond : ((Log.new "ctx").pushed sampleCrypto sampleLeaf sampleEvent).append
      sampleCrypto sampleNext = .ok (1, ((Log.new "ctx").pushed sampleCrypto sampleLeaf
        sampleEvent).pushed sampleCrypto sampleNextLeaf sampleNext) :=
    append_ok.mpr ⟨rfl, by decide +kernel, sampleNext_signed, sampleNextLeaf, sampleNext_hashed,
      rfl, rfl⟩
  exact .append 1 (2^63) (.append 0 (2^63) (.new "ctx" _) (by decide +kernel) hfirst)
    sampleNext_hashed hsecond

/-- A relay that answers with index 7 for the event at sequence 0 is believed, though no pair is
hashed in the log or in the proof. And two sizes of 2^63 add up to zero, so that the migration
keeps one of them under a bound of ten bytes. -/
theorem cold_index_unread_and_bytes_wrapped :
    (TieredHistory sampleCrypto [sampleLeaf] (some [sampleLeaf]) sampleCold ∧
      Merkle.nodePairs (hashPair sampleCrypto) (emptyTreeRoot sampleCrypto) [sampleLeaf] = [] ∧
      ∃ proof, sampleCold.fetchColdProof sampleCrypto 0 (sampleRelay 7) = .ok proof ∧
        proof.hashed sampleCrypto = [] ∧ proof.leafIndex ≠ 0 ∧
        ¬ FetchesInPlace sampleCrypto [sampleLeaf] sampleCold 0 (sampleRelay 7)) ∧
    TieredHistory sampleCrypto [sampleLeaf, sampleNextLeaf] none sampleWide ∧
      ∃ result t', sampleWide.migrateToCold sampleCrypto 0 = .ok (result, t') ∧
        t'.hotByteSizes = [2^63] ∧ ¬ t'.BytesBounded := by
  have hok : sampleCold.fetchColdProof sampleCrypto 0 (sampleRelay 7) =
      .ok ⟨7, sampleLeaf, [], sampleCold.checkpointRoot⟩ := by
    decide +kernel
  refine ⟨⟨sampleCold_history, by simp, _, hok, rfl, by simp, ?_⟩,
    sampleWide_history, ?_⟩
  · intro hfetch
    have hindex := (hfetch _ hok).1
    simp at hindex
  · have hcount : sampleWide.eventsToMigrate 0 = 1 := by decide +kernel
    have hmigrate : ∃ result, sampleWide.migrateToCold sampleCrypto 0 =
        .ok (result, sampleWide.migrated sampleCrypto 1) := by
      unfold TieredEventLog.migrateToCold
      rw [hcount, if_neg one_ne_zero]
      exact ⟨_, rfl⟩
    obtain ⟨result, hmigrate⟩ := hmigrate
    have hsizes : (sampleWide.migrated sampleCrypto 1).hotByteSizes = [2^63] := by decide +kernel
    refine ⟨result, _, hmigrate, hsizes, fun hbounded => ?_⟩
    have hle := hbounded 10 rfl
    rw [hsizes] at hle
    simp at hle

end ScpCore.EventLog
