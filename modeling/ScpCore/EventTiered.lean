import ScpCore.EventLog

/-! The tiered event log. Migration moves the oldest events to the cold tier and
rebuilds the hot log from what remains, so the hot log numbers its events from
the first one left while the tiers number them from the start of the log. -/

namespace ScpCore.EventLog

structure TierConfig where
  ageThresholdSecs : Option ℕ
  maxHotEvents : Option ℕ
  maxHotBytes : Option ℕ
  deriving DecidableEq

structure ColdTierEntry where
  leafHash : Hash
  sequence : ℕ
  timestamp : ℕ
  payloadBytes : ℕ
  deriving DecidableEq

structure TierMigrationResult where
  eventsMigrated : ℕ
  bytesFreed : ℕ
  hotEventsRemaining : ℕ
  coldEventsTotal : ℕ
  deriving DecidableEq

inductive TieredStorageError
  | nothingToMigrate
  | notInColdTier (sequence : ℕ)
  | coldFetchFailed (reason : String)
  | leafHashMismatch (leafIndex : ℕ) (expected actual : Hash)
  | coldProofVerificationFailed (leafIndex : ℕ)
  deriving DecidableEq

structure TieredEventLog (κ : Type) where
  hot : Log κ
  coldEntries : List ColdTierEntry
  config : TierConfig
  checkpointRoot : Hash
  allLeafHashes : List Hash
  globalIndexOffset : ℕ
  hotTimestamps : List ℕ
  hotByteSizes : List ℕ

/-- The events to drop, oldest first, until at most `maxBytes` of `total` stay. The bytes freed
so far are counted in 64 bits. -/
def sizeMigrate (total maxBytes : ℕ) : List ℕ → ℕ → ℕ
  | [], _ => 0
  | size :: sizes, freed =>
    if total-freed ≤ maxBytes then 0 else sizeMigrate total maxBytes sizes ((freed+size)%2^64)+1

namespace TieredEventLog
variable {κ : Type} (C : LogCrypto κ) (t : TieredEventLog κ)

def new (contextId : String) (config : TierConfig) : TieredEventLog κ :=
  ⟨.new contextId, [], config, 0, [], 0, [], []⟩

def hotEventCount : ℕ := t.hot.eventCount

def coldEventCount : ℕ := t.coldEntries.length

def totalEventCount : ℕ := t.coldEventCount+t.hotEventCount

def recordHotEvent (timestamp byteSize : ℕ) : TieredEventLog κ :=
  { t with
    hotTimestamps := t.hotTimestamps ++ [timestamp]
    hotByteSizes := t.hotByteSizes ++ [byteSize]
    allLeafHashes := t.allLeafHashes ++ t.hot.leaves.getLast?.toList }

/-- The sizes added up in 64 bits. -/
def hotStorageBytes : ℕ := t.hotByteSizes.sum%2^64

/-- How many events are older than the threshold. -/
def ageEligible (now : ℕ) : ℕ :=
  t.config.ageThresholdSecs.elim 0 (fun ageThreshold =>
    (t.hotTimestamps.takeWhile (· < now-ageThreshold)).length)

/-- How many events are over the count bound. -/
def countExcess : ℕ := t.config.maxHotEvents.elim 0 (fun maxHot => t.hotEventCount-maxHot)

/-- How many events are over the byte bound. -/
def sizeExcess : ℕ :=
  t.config.maxHotBytes.elim 0 (fun maxBytes =>
    if maxBytes < t.hotStorageBytes then sizeMigrate t.hotStorageBytes maxBytes t.hotByteSizes 0
    else 0)

def eventsToMigrate (now : ℕ) : ℕ :=
  if t.hotEventCount = 0 then 0 else max (max (t.ageEligible now) t.countExcess) t.sizeExcess

/-- The first `count` hot events as cold entries, with their global sequences. -/
def coldEntriesFrom (count : ℕ) : List ColdTierEntry :=
  (t.hot.leaves.take count).zipIdx.map (fun leaf =>
    ⟨leaf.1, t.globalIndexOffset+leaf.2, t.hotTimestamps.getD leaf.2 0, t.hotByteSizes.getD leaf.2 0⟩)

/-- A log rebuilt from leaf hashes. -/
def rebuild (contextId : String) (leaves : List Hash) : Log κ :=
  leaves.foldl (fun log leaf => log.pushLeafRaw C leaf) (.new contextId)

/-- The log after `count` events went cold. -/
def migrated (count : ℕ) : TieredEventLog κ :=
  { t with
    hot := rebuild C t.hot.contextId (t.hot.leaves.drop count)
    coldEntries := t.coldEntries ++ t.coldEntriesFrom count
    checkpointRoot := Tiered.computeRootFromLeaves C t.allLeafHashes
    globalIndexOffset := t.globalIndexOffset+count
    hotTimestamps := t.hotTimestamps.drop count
    hotByteSizes := t.hotByteSizes.drop count }

def migrateToCold (now : ℕ) : Except TieredStorageError (TierMigrationResult × TieredEventLog κ) :=
  let count := t.eventsToMigrate now
  if count = 0 then .error .nothingToMigrate
  else
    let after := t.migrated C count
    .ok (⟨count, ((t.coldEntriesFrom count).map (·.payloadBytes)).sum%2^64, after.hotEventCount,
      after.coldEventCount⟩, after)

def isHot (sequence : ℕ) : Bool :=
  t.globalIndexOffset ≤ sequence && sequence < t.globalIndexOffset+t.hotEventCount

end TieredEventLog

section Runs
variable {κ : Type} {C : LogCrypto κ} {t : TieredEventLog κ}

/-- The logs that appends with their records, and migrations, lead to. -/
inductive TieredRun (C : LogCrypto κ) : TieredEventLog κ → Prop
  | new (contextId : String) (config : TierConfig) : TieredRun C (.new contextId config)
  | append {t : TieredEventLog κ} {event : Event κ} {index : ℕ} {hot : Log κ}
      (timestamp byteSize : ℕ) (h : TieredRun C t) (ok : t.hot.append C event = .ok (index, hot)) :
      TieredRun C (({ t with hot } : TieredEventLog κ).recordHotEvent timestamp byteSize)
  | appendUnsignedEvent {t : TieredEventLog κ} {event : Event κ} {index : ℕ} {hot : Log κ}
      (timestamp byteSize : ℕ) (h : TieredRun C t)
      (ok : t.hot.appendUnsignedEvent C event = .ok (index, hot)) :
      TieredRun C (({ t with hot } : TieredEventLog κ).recordHotEvent timestamp byteSize)
  | migrateToCold {t t' : TieredEventLog κ} {now : ℕ} {result : TierMigrationResult}
      (h : TieredRun C t) (ok : t.migrateToCold C now = .ok (result, t')) : TieredRun C t'

/-- The two tiers hold one log: the cold leaves and then the hot ones. -/
structure TieredEventLog.OneLog (t : TieredEventLog κ) : Prop where
  leaves : t.allLeafHashes = t.coldEntries.map (·.leafHash) ++ t.hot.leaves
  offset : t.globalIndexOffset = t.coldEntries.length
  timestamps : t.hotTimestamps.length = t.hot.leaves.length
  byteSizes : t.hotByteSizes.length = t.hot.leaves.length

theorem sizeMigrate_le (total maxBytes : ℕ) (sizes : List ℕ) (freed : ℕ) :
    sizeMigrate total maxBytes sizes freed ≤ sizes.length := by
  induction sizes generalizing freed with
  | nil => exact Nat.le_refl 0
  | cons size sizes ih =>
    rw [sizeMigrate, List.length_cons]
    by_cases h : total-freed ≤ maxBytes
    · rw [if_pos h]
      omega
    · rw [if_neg h]
      have := ih ((freed+size)%2^64)
      omega

/-- No more events are due for migration than the hot tier has. -/
theorem eventsToMigrate_le (h : t.OneLog) (now : ℕ) :
    t.eventsToMigrate now ≤ t.hot.leaves.length := by
  have hage : t.ageEligible now ≤ t.hot.leaves.length := by
    rw [TieredEventLog.ageEligible, ← h.timestamps]
    cases t.config.ageThresholdSecs with
    | none => exact Nat.zero_le _
    | some threshold => exact (List.takeWhile_prefix _).length_le
  have hcount : t.countExcess ≤ t.hot.leaves.length := by
    rw [TieredEventLog.countExcess]
    cases t.config.maxHotEvents with
    | none => exact Nat.zero_le _
    | some maxHot => exact Nat.sub_le _ _
  have hsize : t.sizeExcess ≤ t.hot.leaves.length := by
    rw [TieredEventLog.sizeExcess, ← h.byteSizes]
    cases t.config.maxHotBytes with
    | none => exact Nat.zero_le _
    | some maxBytes =>
      simp only [Option.elim_some]
      by_cases hlt : maxBytes < t.hotStorageBytes
      · rw [if_pos hlt]
        exact sizeMigrate_le _ _ _ _
      · rw [if_neg hlt]
        exact Nat.zero_le _
  unfold TieredEventLog.eventsToMigrate
  by_cases hzero : t.hotEventCount = 0
  · rw [if_pos hzero]
    exact Nat.zero_le _
  · rw [if_neg hzero]
    omega

theorem rebuild_leaves (contextId : String) (leaves : List Hash) :
    (TieredEventLog.rebuild C contextId leaves).leaves = leaves := by
  have hfold : ∀ (leaves : List Hash) (log : Log κ),
      (leaves.foldl (fun log leaf => log.pushLeafRaw C leaf) log).leaves = log.leaves ++ leaves := by
    intro leaves
    induction leaves with
    | nil => simp
    | cons leaf leaves ih =>
      intro log
      rw [List.foldl_cons, ih]
      simp [Log.pushLeafRaw]
  exact hfold leaves (.new contextId)

theorem OneLog.record (h : t.OneLog) {hot : Log κ} {leaf : Hash} {event : Event κ}
    (hhot : hot = t.hot.pushed C leaf event) (timestamp byteSize : ℕ) :
    (({ t with hot } : TieredEventLog κ).recordHotEvent timestamp byteSize).OneLog := by
  have hleaves : hot.leaves = t.hot.leaves ++ [leaf] := by rw [hhot]; rfl
  have ht := h.timestamps
  have hb := h.byteSizes
  refine ⟨?_, h.offset, ?_, ?_⟩
  · simp [TieredEventLog.recordHotEvent, hleaves, h.leaves]
  · simp [TieredEventLog.recordHotEvent, hleaves, ht]
  · simp [TieredEventLog.recordHotEvent, hleaves, hb]

theorem OneLog.migrated (h : t.OneLog) {count : ℕ} (hcount : count ≤ t.hot.leaves.length) :
    (t.migrated C count).OneLog := by
  have hcold : (t.coldEntriesFrom count).map (·.leafHash) = t.hot.leaves.take count := by
    rw [TieredEventLog.coldEntriesFrom, List.map_map]
    exact List.zipIdx_map_fst 0 _
  have hlen : (t.coldEntriesFrom count).length = count := by
    rw [TieredEventLog.coldEntriesFrom, List.length_map, List.length_zipIdx, List.length_take]
    omega
  have ht := h.timestamps
  have hb := h.byteSizes
  refine ⟨?_, ?_, ?_, ?_⟩
  · simp only [TieredEventLog.migrated, rebuild_leaves, List.map_append, hcold, h.leaves,
      List.append_assoc, List.take_append_drop]
  · simp only [TieredEventLog.migrated, List.length_append, hlen, h.offset]
  · simp only [TieredEventLog.migrated, rebuild_leaves, List.length_drop, ht]
  · simp only [TieredEventLog.migrated, rebuild_leaves, List.length_drop, hb]

theorem migrateToCold_ok {t' : TieredEventLog κ} {now : ℕ} {result : TierMigrationResult}
    (ok : t.migrateToCold C now = .ok (result, t')) :
    t' = t.migrated C (t.eventsToMigrate now) ∧ t.eventsToMigrate now ≠ 0 := by
  unfold TieredEventLog.migrateToCold at ok
  by_cases hzero : t.eventsToMigrate now = 0
  · rw [if_pos hzero] at ok
    cases ok
  · rw [if_neg hzero, Except.ok.injEq, Prod.mk.injEq] at ok
    exact ⟨ok.2.symm, hzero⟩

theorem TieredRun.oneLog (h : TieredRun C t) : t.OneLog := by
  induction h with
  | new contextId config => exact ⟨rfl, rfl, rfl, rfl⟩
  | append timestamp byteSize _ ok ih =>
    obtain ⟨_, _, _, leaf, _, _, hhot⟩ := append_ok.mp ok
    exact OneLog.record ih hhot timestamp byteSize
  | appendUnsignedEvent timestamp byteSize _ ok ih =>
    obtain ⟨_, _, leaf, _, _, hhot⟩ := appendUnsignedEvent_ok.mp ok
    exact OneLog.record ih hhot timestamp byteSize
  | migrateToCold _ ok ih =>
    obtain ⟨rfl, _⟩ := migrateToCold_ok ok
    exact OneLog.migrated ih (eventsToMigrate_le ih _)

/-- The next event of the global log: numbered and chained from its last event,
validly signed, and with a leaf hash of its own. -/
structure NextEvent (C : LogCrypto κ) (t : TieredEventLog κ) (event : Event κ) : Prop where
  sequence : event.sequence = t.totalEventCount
  prevHash : event.prevHash =
    (t.coldEntries.map (·.leafHash) ++ t.hot.leaves).getLast?.getD genesisPrevHash
  signed : verifyEventSignature C event = .ok ()
  hashed : ∃ leaf, leafHash C event = .ok leaf

/-- The hot log takes the next event of the global log, and then has it, exactly
while no event has gone cold. -/
theorem tiered_next_event_iff (h : TieredRun C t) {event : Event κ} (hnext : NextEvent C t event)
    (timestamp byteSize : ℕ) :
    (∃ index hot, t.hot.append C event = .ok (index, hot) ∧
      (({ t with hot } : TieredEventLog κ).recordHotEvent timestamp byteSize).isHot
        event.sequence = true) ↔ t.coldEventCount = 0 := by
  have hone := h.oneLog
  constructor
  · intro happ
    obtain ⟨index, hot, hok, _⟩ := happ
    obtain ⟨hseq, _⟩ := append_ok.mp hok
    -- The hot log counts from its own first event, the sequence from the global one.
    have htotal := hnext.sequence
    rw [hseq, TieredEventLog.totalEventCount, TieredEventLog.hotEventCount] at htotal
    omega
  · intro hcold
    have hnil : t.coldEntries = [] := List.length_eq_zero_iff.mp hcold
    obtain ⟨leaf, hleaf⟩ := hnext.hashed
    have hseq : event.sequence = t.hot.eventCount := by
      have htotal := hnext.sequence
      rw [TieredEventLog.totalEventCount, hcold, TieredEventLog.hotEventCount] at htotal
      omega
    have hprev : event.prevHash = t.hot.expectedPrevHash := by
      rw [hnext.prevHash, hnil]
      rfl
    refine ⟨t.hot.leaves.length, t.hot.pushed C leaf event,
      append_ok.mpr ⟨hseq, hprev, hnext.signed, leaf, hleaf, rfl, rfl⟩, ?_⟩
    have hoff : t.globalIndexOffset = 0 := by rw [hone.offset, hnil]; rfl
    simp only [TieredEventLog.isHot, TieredEventLog.recordHotEvent, TieredEventLog.hotEventCount,
      Log.eventCount, Log.pushed, hoff, Bool.and_eq_true, decide_eq_true_eq, List.length_append,
      List.length_singleton]
    rw [Log.eventCount] at hseq
    omega

end Runs

-- A hot tier that keeps no event, with one event appended and then migrated.

def sampleTierConfig : TierConfig := ⟨none, some 0, none⟩

def sampleTiered : TieredEventLog Unit :=
  ({ (TieredEventLog.new "ctx" sampleTierConfig : TieredEventLog Unit) with
    hot := (Log.new "ctx").pushed sampleCrypto sampleLeaf sampleEvent }).recordHotEvent 0 10

theorem sampleTiered_run : TieredRun sampleCrypto sampleTiered := by
  have happ : (TieredEventLog.new "ctx" sampleTierConfig : TieredEventLog Unit).hot.append
      sampleCrypto sampleEvent =
        .ok (0, (Log.new "ctx").pushed sampleCrypto sampleLeaf sampleEvent) :=
    append_ok.mpr ⟨rfl, rfl, by decide +kernel, sampleLeaf, by decide +kernel, rfl, rfl⟩
  exact .append 0 10 (.new "ctx" sampleTierConfig) happ

/-- The second event of the global log. -/
def sampleNext : Event Unit := ⟨(), [], 1, 1, [], sampleLeaf, []⟩

theorem sampleNext_signed : verifyEventSignature sampleCrypto sampleNext = .ok () := by
  decide +kernel

def sampleNextLeaf : Hash := sampleCrypto.sha256 (0x00 :: (beBytes 8 1 ++ hashBytes sampleLeaf))

theorem sampleNext_hashed : leafHash sampleCrypto sampleNext = .ok sampleNextLeaf := by
  decide +kernel

theorem tiered_next_event_iff_sample :
    NextEvent sampleCrypto sampleTiered sampleNext ∧
    ((∃ index hot, sampleTiered.hot.append sampleCrypto sampleNext = .ok (index, hot) ∧
      (({ sampleTiered with hot } : TieredEventLog Unit).recordHotEvent 1 10).isHot
        sampleNext.sequence = true) ↔ sampleTiered.coldEventCount = 0) := by
  have hnext : NextEvent sampleCrypto sampleTiered sampleNext :=
    ⟨by decide +kernel, by decide +kernel, sampleNext_signed, _, sampleNext_hashed⟩
  exact ⟨hnext, tiered_next_event_iff sampleTiered_run hnext 1 10⟩

/-- Once the first event is cold, the second event of the log is refused. -/
theorem tiered_next_event_refused :
    ∃ result t', sampleTiered.migrateToCold sampleCrypto 0 = .ok (result, t') ∧
      TieredRun sampleCrypto t' ∧ NextEvent sampleCrypto t' sampleNext ∧
      ∃ error, t'.hot.append sampleCrypto sampleNext = .error error := by
  have hcount : sampleTiered.eventsToMigrate 0 = 1 := by decide +kernel
  obtain ⟨result, hok⟩ : ∃ result, sampleTiered.migrateToCold sampleCrypto 0 =
      .ok (result, sampleTiered.migrated sampleCrypto 1) := by
    unfold TieredEventLog.migrateToCold
    rw [hcount, if_neg one_ne_zero]
    exact ⟨_, rfl⟩
  have hnext : NextEvent sampleCrypto (sampleTiered.migrated sampleCrypto 1) sampleNext :=
    ⟨by decide +kernel, by decide +kernel, sampleNext_signed, _, sampleNext_hashed⟩
  refine ⟨result, _, hok, .migrateToCold sampleTiered_run hok, hnext, .sequenceMismatch 0 1, ?_⟩
  have hcheck : (sampleTiered.migrated sampleCrypto 1).hot.checkNext sampleNext =
      .error (.sequenceMismatch 0 1) := by
    decide +kernel
  rw [Log.append, hcheck]
  rfl

end ScpCore.EventLog
