import ScpCore.SagaJournal

/-! Crashes inside the resolution of a saga. The store after a crash is the store before it
with some first part of the writes applied; what recovery returns from it is read off the
keys of each saga. -/

namespace ScpCore.Saga

/-- What a write leaves under its key. -/
def Write.value : Write → Option Bytes
  | .overwrite _ data | .append _ data => some data
  | .delete _ => none

theorem Write.retrieve_apply_self (storage : Storage) (w : Write) :
    (w.apply storage).retrieve w.key = w.value := by
  cases w with
  | overwrite k data => exact storage.retrieve_store_self k data
  | append k data => exact storage.retrieve_store_self k data
  | delete k => exact storage.retrieve_delete_self k

theorem Write.retrieve_apply_of_ne (storage : Storage) (w : Write) {key : Key} (h : key ≠ w.key) :
    (w.apply storage).retrieve key = storage.retrieve key := by
  cases w with
  | overwrite k data => exact storage.retrieve_store_of_ne h data
  | append k data => exact storage.retrieve_store_of_ne h data
  | delete k => exact storage.retrieve_delete_of_ne h

theorem applyAll_append (storage : Storage) (ws vs : List Write) :
    applyAll storage (ws ++ vs) = applyAll (applyAll storage ws) vs := List.foldl_append

/-- A key that no write names keeps its value. -/
theorem retrieve_applyAll_of_not_mem {ws : List Write} {key : Key} (h : ∀ w ∈ ws, w.key ≠ key)
    (storage : Storage) : (applyAll storage ws).retrieve key = storage.retrieve key := by
  induction ws generalizing storage with
  | nil => rfl
  | cons w ws ih =>
    have hw : key ≠ w.key := (h w List.mem_cons_self).symm
    rw [applyAll, List.foldl_cons, ← applyAll, ih (fun v hv => h v (List.mem_cons_of_mem w hv)),
      Write.retrieve_apply_of_ne storage w hw]

/-- A key that some write names holds what one of these writes left. -/
theorem retrieve_applyAll_of_mem {ws : List Write} {key : Key} (h : ∃ w ∈ ws, w.key = key)
    (storage : Storage) :
    ∃ w ∈ ws, w.key = key ∧ (applyAll storage ws).retrieve key = w.value := by
  induction ws generalizing storage with
  | nil => simp at h
  | cons w ws ih =>
    by_cases hlater : ∃ v ∈ ws, v.key = key
    · obtain ⟨v, hv, hkey, hvalue⟩ := ih hlater (w.apply storage)
      exact ⟨v, List.mem_cons_of_mem w hv, hkey, hvalue⟩
    · obtain ⟨v, hv, hkey⟩ := h
      have hvw : v = w := by
        rcases List.mem_cons.mp hv with hvw | hv
        · exact hvw
        · exact absurd ⟨v, hv, hkey⟩ hlater
      subst hvw
      refine ⟨v, List.mem_cons_self, hkey, ?_⟩
      have hrest : ∀ u ∈ ws, u.key ≠ key := fun u hu hku => hlater ⟨u, hu, hku⟩
      rw [applyAll, List.foldl_cons, ← applyAll, retrieve_applyAll_of_not_mem hrest,
        ← hkey, Write.retrieve_apply_self]

theorem pairwise_journalKeys (storage : Storage) : (journalKeys storage).Pairwise (· ≤ ·) :=
  storage.pairwise_listKeys _

/-- The latest key of a saga is the greatest stored key that counts for it. -/
theorem lastOf_journalKeys_iff {storage : Storage} {sagaId : List Char} {key : Key} :
    lastOf sagaOf (journalKeys storage) sagaId = some key ↔
      (storage.retrieve key).isSome ∧ sagaOf key = some sagaId ∧
        ∀ j, (storage.retrieve j).isSome → sagaOf j = some sagaId → j ≤ key := by
  have hlisted : ∀ {k : Key}, sagaOf k = some sagaId →
      (k ∈ journalKeys storage ↔ (storage.retrieve k).isSome) := by
    intro k hk
    obtain ⟨suffix, hsplit, -⟩ := sagaOf_eq_some hk
    have hpre : sagaJournalKeyPrefix.isPrefixOf k = true := by
      rw [List.isPrefixOf_iff_prefix, hsplit]
      exact List.prefix_append _ _
    rw [journalKeys, KeyStore.mem_listKeys, hpre]
    simp
  rw [lastOf_eq_some_iff sagaOf (pairwise_journalKeys storage)]
  constructor
  · rintro ⟨hmem, hsaga, hmax⟩
    exact ⟨(hlisted hsaga).mp hmem, hsaga, fun j hj hsj => hmax j ((hlisted hsj).mpr hj) hsj⟩
  · rintro ⟨hmem, hsaga, hmax⟩
    exact ⟨(hlisted hsaga).mpr hmem, hsaga, fun j hj hsj => hmax j ((hlisted hsj).mp hj) hsj⟩

theorem lastOf_journalKeys_congr {storage storage' : Storage} {sagaId : List Char}
    (h : ∀ key, sagaOf key = some sagaId →
      ((storage'.retrieve key).isSome ↔ (storage.retrieve key).isSome)) :
    lastOf sagaOf (journalKeys storage') sagaId = lastOf sagaOf (journalKeys storage) sagaId := by
  apply Option.ext
  intro key
  rw [lastOf_journalKeys_iff, lastOf_journalKeys_iff]
  constructor
  · rintro ⟨hmem, hsaga, hmax⟩
    exact ⟨(h key hsaga).mp hmem, hsaga, fun j hj hsj => hmax j ((h j hsj).mpr hj) hsj⟩
  · rintro ⟨hmem, hsaga, hmax⟩
    exact ⟨(h key hsaga).mpr hmem, hsaga, fun j hj hsj => hmax j ((h j hsj).mp hj) hsj⟩

section Load
variable {codec : Codec}

/-- Recovery of one saga reads nothing but the keys that count for it. -/
theorem loadLatest_congr {storage storage' : Storage} {sagaId : List Char}
    (h : ∀ key, sagaOf key = some sagaId → storage'.retrieve key = storage.retrieve key) :
    loadLatest codec storage' sagaId = loadLatest codec storage sagaId := by
  have hlasts : lastOf sagaOf (journalKeys storage') sagaId =
      lastOf sagaOf (journalKeys storage) sagaId := by
    apply lastOf_journalKeys_congr
    intro key hkey
    rw [h key hkey]
  unfold loadLatest
  rw [hlasts]
  cases hlast : lastOf sagaOf (journalKeys storage) sagaId with
  | none => rfl
  | some key =>
    have hsaga := (lastOf_journalKeys_iff.mp hlast).2.1
    simp only [Option.bind_eq_bind, Option.bind_some, h key hsaga]

end Load

section Resolution
variable {codec : Codec} {storage : Storage} {sagaId : SagaId}

/-- The writes of the zeroing loop, each in terms of the store before the loop. -/
theorem mem_zeroEvidence {keys : List Key} (hnodup : keys.Nodup) {w : Write}
    (h : w ∈ (zeroEvidence codec storage keys).1) :
    ∃ key data entry data', w = .overwrite key data' ∧ key ∈ keys ∧
      storage.retrieve key = some data ∧ codec.decodeEntry data = .ok entry ∧
      codec.encodeEntry (zeroed entry) = .ok data' := by
  induction keys generalizing storage with
  | nil => simp [zeroEvidence] at h
  | cons key keys ih =>
    rw [List.nodup_cons] at hnodup
    rw [zeroEvidence] at h
    cases hget : storage.retrieve key with
    | none =>
      simp only [hget] at h
      obtain ⟨k, data, entry, data', rfl, hmem, hrest⟩ := ih hnodup.2 h
      exact ⟨k, data, entry, data', rfl, List.mem_cons_of_mem key hmem, hrest⟩
    | some bytes =>
      simp only [hget] at h
      cases hre : codec.decodeEntry bytes >>= fun entry => codec.encodeEntry (zeroed entry) with
      | error e => simp [hre] at h
      | ok reEncoded =>
        simp only [hre, List.mem_cons] at h
        rcases h with rfl | h
        · obtain ⟨entry, hdecode, hencode⟩ := (bind_ok_iff _ _ _).mp hre
          exact ⟨key, bytes, entry, reEncoded, rfl, List.mem_cons_self, hget, hdecode, hencode⟩
        · obtain ⟨k, data, entry, data', rfl, hmem, hdata, hrest⟩ := ih hnodup.2 h
          -- The rest of the loop reads other keys than the one just stored.
          have hne : k ≠ key := fun he => hnodup.1 (he ▸ hmem)
          have hsame : storage.retrieve k = some data :=
            (storage.retrieve_store_of_ne hne reEncoded).symm.trans hdata
          exact ⟨k, data, entry, data', rfl, List.mem_cons_of_mem key hmem, hsame, hrest⟩

theorem mem_sagaKeys {key : Key} :
    key ∈ storage.listKeys (fun key => (sagaPrefix sagaId).isPrefixOf key) ↔
      (storage.retrieve key).isSome ∧ sagaPrefix sagaId <+: key := by
  rw [KeyStore.mem_listKeys, List.isPrefixOf_iff_prefix]

theorem le_foldl_max {keys : List Key} {f : Key → Option ℕ} {key : Key} {n : ℕ}
    (hkey : key ∈ keys) (hn : f key = some n) (start : Option ℕ) :
    ∃ m, keys.foldl (fun (maxSeq : Option ℕ) key => (f key).elim maxSeq
      (fun n => some (maxSeq.elim n (fun m => max m n)))) start = some m ∧ n ≤ m := by
  have hgrows : ∀ (keys : List Key) (m : ℕ), ∃ m', keys.foldl (fun (maxSeq : Option ℕ) key =>
      (f key).elim maxSeq (fun n => some (maxSeq.elim n (fun m => max m n)))) (some m) = some m' ∧
        m ≤ m' := by
    intro keys
    induction keys with
    | nil => exact fun m => ⟨m, rfl, le_rfl⟩
    | cons k keys ih =>
      intro m
      cases hk : f k with
      | none => simpa [hk] using ih m
      | some n =>
        obtain ⟨m', hm', hle⟩ := ih (max m n)
        exact ⟨m', by simpa [hk] using hm', (le_max_left m n).trans hle⟩
  induction keys generalizing start with
  | nil => simp at hkey
  | cons k keys ih =>
    rcases List.mem_cons.mp hkey with rfl | hkey
    · have hstep : n ≤ start.elim n (fun m => max m n) := by
        cases start with
        | none => exact le_rfl
        | some m => exact le_max_right m n
      obtain ⟨m', hm', hle⟩ := hgrows keys (start.elim n (fun m => max m n))
      exact ⟨m', by simpa [hn] using hm', hstep.trans hle⟩
    · exact ih hkey _

/-- The next sequence number is at least every one in use, and fits in 64 bits. -/
theorem le_nextSeqForSaga {seq : ℕ} (hseq : seq ≤ 2^64-1)
    (h : (storage.retrieve (entryKey sagaId seq)).isSome) :
    seq ≤ nextSeqForSaga storage sagaId := by
  have hlisted : entryKey sagaId seq ∈
      storage.listKeys (fun key => (sagaPrefix sagaId).isPrefixOf key) :=
    mem_sagaKeys.mpr ⟨h, sagaPrefix_of_sagaOf (sagaOf_entryKey sagaId hseq)⟩
  obtain ⟨m, hm, hle⟩ := le_foldl_max hlisted (suffixSeq_entryKey sagaId hseq) none
  unfold nextSeqForSaga
  simp only [hm, Option.elim_some]
  omega

theorem nextSeqForSaga_le (storage : Storage) (sagaId : SagaId) :
    nextSeqForSaga storage sagaId ≤ 2^64-1 := by
  unfold nextSeqForSaga
  dsimp only
  generalize List.foldl _ _ _ = maxSeq
  cases maxSeq with
  | none => simp
  | some m => exact min_le_right _ _

/-- Writes that only put zeros in place of evidence under keys of the saga. -/
def Zeroing (codec : Codec) (storage : Storage) (sagaId : SagaId) (writes : List Write) : Prop :=
  ∀ w ∈ writes, ∃ key data entry data', w = .overwrite key data' ∧ sagaPrefix sagaId <+: key ∧
    storage.retrieve key = some data ∧ codec.decodeEntry data = .ok entry ∧
    codec.encodeEntry (zeroed entry) = .ok data'

theorem Zeroing.subset {ws vs : List Write} (h : Zeroing codec storage sagaId vs) (hsub : ws ⊆ vs) :
    Zeroing codec storage sagaId ws := fun w hw => h w (hsub hw)

/-- A zeroed store has the same keys, each with its old value or with its zeroed one. -/
theorem Zeroing.retrieve {ws : List Write} (h : Zeroing codec storage sagaId ws) (key : Key) :
    (applyAll storage ws).retrieve key = storage.retrieve key ∨
      ∃ data entry data', storage.retrieve key = some data ∧ codec.decodeEntry data = .ok entry ∧
        codec.encodeEntry (zeroed entry) = .ok data' ∧
        (applyAll storage ws).retrieve key = some data' := by
  by_cases hmem : ∃ w ∈ ws, w.key = key
  · obtain ⟨w, hw, hkey, hvalue⟩ := retrieve_applyAll_of_mem hmem storage
    obtain ⟨k, data, entry, data', rfl, -, hdata, hdecode, hencode⟩ := h w hw
    obtain rfl : k = key := hkey
    exact Or.inr ⟨data, entry, data', hdata, hdecode, hencode, hvalue⟩
  · have hother : ∀ w ∈ ws, w.key ≠ key := fun w hw hkey => hmem ⟨w, hw, hkey⟩
    exact Or.inl (retrieve_applyAll_of_not_mem hother storage)

theorem Zeroing.isSome_retrieve {ws : List Write} (h : Zeroing codec storage sagaId ws) (key : Key) :
    ((applyAll storage ws).retrieve key).isSome ↔ (storage.retrieve key).isSome := by
  rcases h.retrieve key with hsame | ⟨data, entry, data', hdata, -, -, hdata'⟩
  · rw [hsame]
  · simp [hdata, hdata']

theorem mem_deletions {markerKey : Key} {encoded : Bytes} {w : Write} :
    w ∈ (((storage.store markerKey encoded).listKeys
      (fun key => (sagaPrefix sagaId).isPrefixOf key)).filter (· ≠ markerKey)).map .delete ↔
      ∃ key, w = .delete key ∧ key ≠ markerKey ∧ sagaPrefix sagaId <+: key ∧
        (storage.retrieve key).isSome := by
  simp only [List.mem_map, List.mem_filter, mem_sagaKeys, decide_eq_true_eq]
  constructor
  · rintro ⟨key, ⟨⟨hsome, hprefixed⟩, hne⟩, rfl⟩
    rw [storage.retrieve_store_of_ne hne] at hsome
    exact ⟨key, rfl, hne, hprefixed, hsome⟩
  · rintro ⟨key, rfl, hne, hprefixed, hsome⟩
    rw [← storage.retrieve_store_of_ne hne encoded] at hsome
    exact ⟨key, ⟨⟨hsome, hprefixed⟩, hne⟩, rfl⟩

/-- What follows the zeroing: the marker above every entry, then the deletions. -/
structure Compacting (codec : Codec) (storage : Storage) (sagaId : SagaId)
    (terminal : SagaTerminalState) (now seq : ℕ) (encoded : Bytes) (deletions : List Write) :
    Prop where
  seq_le : seq ≤ 2^64-1
  above : ∀ q ≤ 2^64-1, (storage.retrieve (entryKey sagaId q)).isSome → q ≤ seq
  marker_encoded : codec.encodeEntry (marker sagaId terminal now seq) = .ok encoded
  mem_deletions : ∀ w, w ∈ deletions ↔ ∃ key, w = .delete key ∧ key ≠ entryKey sagaId seq ∧
    sagaPrefix sagaId <+: key ∧ (storage.retrieve key).isSome

/-- The writes of a resolution are zeroings, and after them nothing or the marker and the
deletions with the marker's own last. -/
theorem markResolved_writes (codec : Codec) (storage : Storage) (sagaId : SagaId)
    (terminal : SagaTerminalState) (secretBearing : Bool) (now : ℕ) :
    ∃ zeroing rest, Zeroing codec storage sagaId zeroing ∧
      (markResolved codec storage sagaId terminal secretBearing now).1 = zeroing ++ rest ∧
      (rest = [] ∨ ∃ seq encoded deletions,
        Compacting codec storage sagaId terminal now seq encoded deletions ∧
        rest = .append (entryKey sagaId seq) encoded ::
          (deletions ++ [.delete (entryKey sagaId seq)])) := by
  set keys := storage.listKeys (fun key => (sagaPrefix sagaId).isPrefixOf key) with hkeys
  set zeroing := if secretBearing then zeroEvidence codec storage keys else ([], .ok ())
    with hzeroing
  have hnodup : keys.Nodup := storage.nodup_listKeys _
  have hzero : Zeroing codec storage sagaId zeroing.1 := by
    intro w hw
    cases secretBearing with
    | false => simp [hzeroing] at hw
    | true =>
      obtain ⟨key, data, entry, data', rfl, hmem, hrest⟩ := mem_zeroEvidence hnodup hw
      exact ⟨key, data, entry, data', rfl, (mem_sagaKeys.mp hmem).2, hrest⟩
  have hpresent := hzero.isSome_retrieve
  unfold markResolved
  simp only [← hkeys, ← hzeroing]
  cases hres : zeroing.2 with
  | error e => exact ⟨zeroing.1, [], hzero, by simp, Or.inl rfl⟩
  | ok u =>
    dsimp only
    cases henc : codec.encodeEntry (marker sagaId terminal now
        (nextSeqForSaga (applyAll storage zeroing.1) sagaId)) with
    | error e => exact ⟨zeroing.1, [], hzero, by simp, Or.inl rfl⟩
    | ok encoded =>
      refine ⟨zeroing.1, _, hzero, rfl, Or.inr ⟨_, encoded, _, ?_, rfl⟩⟩
      refine ⟨nextSeqForSaga_le _ sagaId, ?_, henc, ?_⟩
      · intro q hq hsome
        exact le_nextSeqForSaga hq ((hpresent _).mpr hsome)
      · intro w
        rw [mem_deletions]
        simp only [hpresent]

end Resolution

/-- The stores that the journal's own calls and foreign keys lead to. The ids that the
supervisor makes are UUIDs, so they have no slash. Resolutions may have been cut short. -/
inductive Content (codec : Codec) : Storage → Prop
  | empty : Content codec KeyStore.empty
  | append {storage storage' : Storage} {entry : JournalEntry} : Content codec storage →
      '/' ∉ entry.sagaId.text → entry.seqPerSaga ≤ 2^64-1 →
      append codec storage entry = .ok storage' → Content codec storage'
  | foreign {storage : Storage} {key : Key} {data : Bytes} : Content codec storage →
      sagaOf key = none → Content codec (storage.store key data)
  | resolve {storage : Storage} {sagaId : SagaId} {terminal : SagaTerminalState}
      {secretBearing : Bool} {now : ℕ} (n : ℕ) : Content codec storage → '/' ∉ sagaId.text →
      Content codec (applyAll storage
        ((markResolved codec storage sagaId terminal secretBearing now).1.take n))

/-- Every key that counts for a saga holds the encoding of an entry of that saga. -/
def Written (codec : Codec) (storage : Storage) : Prop :=
  ∀ key sagaId data, sagaOf key = some sagaId → storage.retrieve key = some data →
    ∃ entry, key = entryKey entry.sagaId entry.seqPerSaga ∧ entry.sagaId.text = sagaId ∧
      '/' ∉ sagaId ∧ entry.seqPerSaga ≤ 2^64-1 ∧ codec.encodeEntry entry = .ok data

section Content
variable {codec : Codec} {storage : Storage}

theorem Written.store_entry (h : Written codec storage) (entry : JournalEntry) {data : Bytes}
    (hslash : '/' ∉ entry.sagaId.text) (hseq : entry.seqPerSaga ≤ 2^64-1)
    (hencode : codec.encodeEntry entry = .ok data) :
    Written codec (storage.store (entryKey entry.sagaId entry.seqPerSaga) data) := by
  intro key sagaId found hsaga hget
  by_cases hkey : key = entryKey entry.sagaId entry.seqPerSaga
  · subst hkey
    rw [KeyStore.retrieve_store_self, Option.some.injEq] at hget
    subst hget
    rw [sagaOf_entryKey _ hseq, Option.some.injEq] at hsaga
    subst hsaga
    exact ⟨entry, rfl, rfl, hslash, hseq, hencode⟩
  · rw [storage.retrieve_store_of_ne hkey] at hget
    exact h key sagaId found hsaga hget

theorem Written.store_foreign (h : Written codec storage) {key : Key} (hkey : sagaOf key = none)
    (data : Bytes) : Written codec (storage.store key data) := by
  intro k sagaId found hsaga hget
  have hne : k ≠ key := by
    rintro rfl
    rw [hkey] at hsaga
    cases hsaga
  rw [storage.retrieve_store_of_ne hne] at hget
  exact h k sagaId found hsaga hget

theorem Written.zeroed (hcodec : codec.Lawful) (h : Written codec storage) {sagaId : SagaId}
    {ws : List Write} (hws : Zeroing codec storage sagaId ws) :
    Written codec (applyAll storage ws) := by
  intro key id found hsaga hget
  rcases hws.retrieve key with hsame | ⟨data, entry', data', hdata, hdecode, hencode, hdata'⟩
  · rw [hsame] at hget
    exact h key id found hsaga hget
  · rw [hdata', Option.some.injEq] at hget
    subst hget
    obtain ⟨entry, hkey, hid, hslash, hseq, hentry⟩ := h key id data hsaga hdata
    obtain rfl := decodeEntry_encoded hcodec hentry hdecode
    exact ⟨Saga.zeroed entry', hkey, hid, hslash, hseq, hencode⟩

theorem Written.deleted (h : Written codec storage) {ws : List Write}
    (hws : ∀ w ∈ ws, w.value = none) : Written codec (applyAll storage ws) := by
  intro key id found hsaga hget
  by_cases hmem : ∃ w ∈ ws, w.key = key
  · obtain ⟨w, hw, -, hvalue⟩ := retrieve_applyAll_of_mem hmem storage
    rw [hvalue, hws w hw] at hget
    cases hget
  · have hother : ∀ w ∈ ws, w.key ≠ key := fun w hw hkey => hmem ⟨w, hw, hkey⟩
    rw [retrieve_applyAll_of_not_mem hother] at hget
    exact h key id found hsaga hget

/-- Where a crash can cut a resolution: within the zeroing, or after the marker with some
of the deletions or all of them done. -/
theorem crash_cases (codec : Codec) (storage : Storage) (sagaId : SagaId)
    (terminal : SagaTerminalState) (secretBearing : Bool) (now n : ℕ) :
    let ws := (markResolved codec storage sagaId terminal secretBearing now).1.take n
    Zeroing codec storage sagaId ws ∨
      ∃ zeroing seq encoded deletions ds, Zeroing codec storage sagaId zeroing ∧
        Compacting codec storage sagaId terminal now seq encoded deletions ∧
        ws = zeroing ++ .append (entryKey sagaId seq) encoded :: ds ∧
        (ds ⊆ deletions ∨ ds = deletions ++ [.delete (entryKey sagaId seq)]) := by
  intro ws
  obtain ⟨zeroing, rest, hzero, hwrites, hrest⟩ :=
    markResolved_writes codec storage sagaId terminal secretBearing now
  have hws : ws = zeroing.take n ++ rest.take (n-zeroing.length) := by
    rw [← List.take_append, ← hwrites]
  by_cases hn : n ≤ zeroing.length
  · left
    rw [hws, Nat.sub_eq_zero_of_le hn, List.take_zero, List.append_nil]
    exact hzero.subset (List.take_subset n zeroing)
  · rw [List.take_of_length_le (by omega)] at hws
    obtain ⟨m, hm⟩ : ∃ m, n-zeroing.length = m+1 := ⟨n-zeroing.length-1, by omega⟩
    rcases hrest with rfl | ⟨seq, encoded, deletions, hcompact, rfl⟩
    · left
      rwa [hws, List.take_nil, List.append_nil]
    · right
      rw [hm, List.take_succ_cons] at hws
      refine ⟨zeroing, seq, encoded, deletions, _, hzero, hcompact, hws, ?_⟩
      by_cases hall : m ≤ deletions.length
      · left
        rw [List.take_append_of_le_length hall]
        exact List.take_subset m deletions
      · right
        apply List.take_of_length_le
        rw [List.length_append, List.length_singleton]
        omega

theorem Compacting.value_eq_none {sagaId : SagaId} {terminal : SagaTerminalState} {now seq : ℕ}
    {encoded : Bytes} {deletions ds : List Write}
    (h : Compacting codec storage sagaId terminal now seq encoded deletions)
    (hds : ds ⊆ deletions ∨ ds = deletions ++ [.delete (entryKey sagaId seq)]) :
    ∀ w ∈ ds, w.value = none := by
  intro w hw
  have hdeletion : w ∈ deletions → w.value = none := by
    intro hmem
    obtain ⟨key, rfl, -⟩ := (h.mem_deletions w).mp hmem
    rfl
  rcases hds with hsub | rfl
  · exact hdeletion (hsub hw)
  · rcases List.mem_append.mp hw with hmem | hmem
    · exact hdeletion hmem
    · rw [List.mem_singleton.mp hmem]
      rfl

theorem Content.written (hcodec : codec.Lawful) (h : Content codec storage) :
    Written codec storage := by
  induction h with
  | empty =>
    intro key sagaId data _ hget
    cases hget
  | append _ hslash hseq happend ih =>
    simp only [Saga.append, bind_ok_iff, pure_ok_iff] at happend
    obtain ⟨encoded, hencode, rfl⟩ := happend
    exact ih.store_entry _ hslash hseq hencode
  | foreign _ hkey ih => exact ih.store_foreign hkey _
  | resolve n _ hslash ih =>
    rename_i storage sagaId terminal secretBearing now _
    rcases crash_cases codec storage sagaId terminal secretBearing now n with
      hzero | ⟨zeroing, seq, encoded, deletions, ds, hzero, hcompact, hws, hds⟩
    · exact ih.zeroed hcodec hzero
    · have hmarked : Written codec
          ((applyAll storage zeroing).store (entryKey sagaId seq) encoded) :=
        (ih.zeroed hcodec hzero).store_entry (marker sagaId terminal now seq) hslash
          hcompact.seq_le hcompact.marker_encoded
      rw [hws, applyAll_append]
      exact hmarked.deleted (hcompact.value_eq_none hds)

end Content

section Crash
variable {codec : Codec} {storage : Storage}

/-- The entries that recovery returns for one saga. -/
def entriesFor (codec : Codec) (storage : Storage) (sagaId : SagaId) : List JournalEntry :=
  (loadUnresolved codec storage).filter (fun entry => entry.sagaId = sagaId)

theorem loadLatest_eq_some {sagaId : List Char} {entry : JournalEntry}
    (h : loadLatest codec storage sagaId = some entry) :
    ∃ key raw, lastOf sagaOf (journalKeys storage) sagaId = some key ∧
      storage.retrieve key = some raw ∧ codec.decodeEntry raw = .ok entry ∧
      entry.state.isTerminal = false := by
  simp only [loadLatest, Option.bind_eq_bind, Option.bind_eq_some_iff] at h
  obtain ⟨key, hlast, raw, hget, entry', hdecode, hstate⟩ := h
  have hdecoded : codec.decodeEntry raw = .ok entry' := by
    cases hd : codec.decodeEntry raw with
    | error e => simp [hd, Except.toOption] at hdecode
    | ok found =>
      rw [hd] at hdecode
      cases hdecode
      rfl
  by_cases hterminal : entry'.state.isTerminal = true
  · simp [hterminal] at hstate
  · simp only [hterminal, Bool.false_eq_true, if_false, Option.some.injEq] at hstate
    subst hstate
    exact ⟨key, raw, hlast, hget, hdecoded, by simpa using hterminal⟩

theorem Written.sagaId_eq (hcodec : codec.Lawful) (h : Written codec storage) {sagaId : List Char}
    {entry : JournalEntry} (hload : loadLatest codec storage sagaId = some entry) :
    entry.sagaId.text = sagaId := by
  obtain ⟨key, raw, hlast, hget, hdecode, -⟩ := loadLatest_eq_some hload
  have hsaga := (lastOf_journalKeys_iff.mp hlast).2.1
  obtain ⟨found, -, hid, -, -, hencode⟩ := h key sagaId raw hsaga hget
  rw [decodeEntry_encoded hcodec hencode hdecode, hid]

theorem filter_filterMap_tag {ι β : Type} [DecidableEq ι] {ids : List ι} (hids : ids.Nodup)
    {f : ι → Option β} {tag : β → ι} (htag : ∀ i b, f i = some b → tag b = i) (i : ι) :
    (ids.filterMap f).filter (fun b => tag b = i) = if i ∈ ids then (f i).toList else [] := by
  induction ids with
  | nil => rfl
  | cons j ids ih =>
    rw [List.nodup_cons] at hids
    have hrest := ih hids.2
    cases hj : f j with
    | none =>
      rw [List.filterMap_cons_none hj, hrest]
      by_cases hij : i = j
      · subst hij
        simp [hids.1, hj]
      · simp [hij]
    | some b =>
      rw [List.filterMap_cons_some hj, List.filter_cons, htag j b hj, hrest]
      by_cases hij : i = j
      · subst hij
        simp [hids.1, hj]
      · simp [hij, Ne.symm hij]

/-- Recovery returns at most one entry for a saga, the one under its latest key. -/
theorem entriesFor_eq (hcodec : codec.Lawful) (h : Written codec storage) (sagaId : SagaId) :
    entriesFor codec storage sagaId = (loadLatest codec storage sagaId.text).toList := by
  have htags : ∀ entry : JournalEntry,
      decide (entry.sagaId = sagaId) = decide (entry.sagaId.text = sagaId.text) := by
    intro entry
    exact Bool.decide_congr SagaId.ext_iff
  unfold entriesFor loadUnresolved
  simp only [htags]
  rw [filter_filterMap_tag (List.nodup_dedup _) (fun i b hib => h.sagaId_eq hcodec hib)]
  by_cases hmem : sagaId.text ∈ ((journalKeys storage).filterMap sagaOf).dedup
  · rw [if_pos hmem]
  · rw [if_neg hmem]
    cases hload : loadLatest codec storage sagaId.text with
    | none => rfl
    | some entry =>
      obtain ⟨key, raw, hlast, -⟩ := loadLatest_eq_some hload
      have hlisted := lastOf_mem sagaOf hlast
      exact absurd (List.mem_dedup.mpr (List.mem_filterMap.mpr ⟨key, hlisted.1, hlisted.2⟩)) hmem

/-- Every write of a resolution is to a key of the saga: the marker's or a stored one. -/
theorem crash_write_key {sagaId : SagaId} {terminal : SagaTerminalState} {secretBearing : Bool}
    {now n : ℕ} {w : Write}
    (h : w ∈ (markResolved codec storage sagaId terminal secretBearing now).1.take n) :
    sagaOf w.key = some sagaId.text ∨
      sagaPrefix sagaId <+: w.key ∧ (storage.retrieve w.key).isSome := by
  have hzeroed : ∀ {ws}, Zeroing codec storage sagaId ws → w ∈ ws →
      sagaPrefix sagaId <+: w.key ∧ (storage.retrieve w.key).isSome := by
    intro ws hws hw
    obtain ⟨key, data, entry, data', rfl, hprefixed, hdata, -⟩ := hws w hw
    exact ⟨hprefixed, Option.isSome_of_mem hdata⟩
  rcases crash_cases codec storage sagaId terminal secretBearing now n with
    hzero | ⟨zeroing, seq, encoded, deletions, ds, hzero, hcompact, hws, hds⟩
  · exact Or.inr (hzeroed hzero h)
  · have hmarker : sagaOf (entryKey sagaId seq) = some sagaId.text :=
      sagaOf_entryKey sagaId hcompact.seq_le
    have hdeletion : w ∈ deletions → sagaPrefix sagaId <+: w.key ∧
        (storage.retrieve w.key).isSome := by
      intro hmem
      obtain ⟨key, rfl, -, hkey⟩ := (hcompact.mem_deletions w).mp hmem
      exact hkey
    rw [hws, List.mem_append, List.mem_cons] at h
    rcases h with hw | rfl | hw
    · exact Or.inr (hzeroed hzero hw)
    · exact Or.inl hmarker
    · rcases hds with hsub | rfl
      · exact Or.inr (hdeletion (hsub hw))
      · rcases List.mem_append.mp hw with hw | hw
        · exact Or.inr (hdeletion hw)
        · rw [List.mem_singleton.mp hw]
          exact Or.inl hmarker

/-- A resolution, however far it got, leaves the keys of every other saga. -/
theorem crash_other (h : Written codec storage) {sagaId other : SagaId} (hne : other ≠ sagaId)
    (terminal : SagaTerminalState) (secretBearing : Bool) (now n : ℕ) {key : Key}
    (hkey : sagaOf key = some other.text) :
    (applyAll storage ((markResolved codec storage sagaId terminal secretBearing now).1.take n)).retrieve
      key = storage.retrieve key := by
  have htexts : other.text ≠ sagaId.text := fun heq => hne (SagaId.ext heq)
  apply retrieve_applyAll_of_not_mem
  rintro w hw rfl
  rcases crash_write_key hw with hsaga | ⟨hprefixed, hsome⟩
  · rw [hkey, Option.some.injEq] at hsaga
    exact htexts hsaga
  · obtain ⟨data, hdata⟩ := Option.isSome_iff_exists.mp hsome
    obtain ⟨entry, -, -, hslash, -⟩ := h w.key other.text data hkey hdata
    exact htexts (eq_of_sagaPrefix hprefixed hkey hslash)

/-- Zeroing changes neither the state nor the participants of a saga's latest entry. -/
theorem loadLatest_zeroed (hcodec : codec.Lawful) (h : Written codec storage) {sagaId : SagaId}
    {ws : List Write} (hws : Zeroing codec storage sagaId ws) (id : List Char) :
    (loadLatest codec (applyAll storage ws) id).map (fun e => (e.state, e.participants)) =
      (loadLatest codec storage id).map (fun e => (e.state, e.participants)) := by
  have hlasts : lastOf sagaOf (journalKeys (applyAll storage ws)) id =
      lastOf sagaOf (journalKeys storage) id :=
    lastOf_journalKeys_congr (fun key _ => hws.isSome_retrieve key)
  unfold loadLatest
  rw [hlasts]
  cases hlast : lastOf sagaOf (journalKeys storage) id with
  | none => rfl
  | some key =>
    simp only [Option.bind_eq_bind, Option.bind_some]
    rcases hws.retrieve key with hsame | ⟨data, entry', data', hdata, hdecode, hencode, hdata'⟩
    · rw [hsame]
    · have hsaga := (lastOf_journalKeys_iff.mp hlast).2.1
      obtain ⟨entry, -, -, -, -, hentry⟩ := h key id data hsaga hdata
      have hzeroed := decodeEntry_zeroed hcodec hentry hdecode hencode
      simp only [hdata, hdata', Option.bind_some, hdecode, hzeroed, Except.toOption]
      by_cases hterminal : entry'.state.isTerminal = true
      · simp [zeroed, hterminal]
      · simp [zeroed, hterminal]

/-- The entry stored under the highest sequence number of a saga. -/
def Latest (codec : Codec) (storage : Storage) (sagaId : SagaId) (entry : JournalEntry) : Prop :=
  ∃ seq data, seq ≤ 2^64-1 ∧ storage.retrieve (entryKey sagaId seq) = some data ∧
    (∀ later ≤ 2^64-1, (storage.retrieve (entryKey sagaId later)).isSome → later ≤ seq) ∧
    codec.decodeEntry data = .ok entry

theorem loadLatest_of_latest (h : Written codec storage) {sagaId : SagaId} {entry : JournalEntry}
    (hlatest : Latest codec storage sagaId entry) (hstate : entry.state.isTerminal = false) :
    loadLatest codec storage sagaId.text = some entry := by
  obtain ⟨seq, data, hseq, hdata, hmax, hdecode⟩ := hlatest
  have hlast : lastOf sagaOf (journalKeys storage) sagaId.text = some (entryKey sagaId seq) := by
    refine lastOf_journalKeys_iff.mpr ⟨Option.isSome_of_mem hdata, sagaOf_entryKey sagaId hseq, ?_⟩
    intro key hsome hsaga
    obtain ⟨value, hvalue⟩ := Option.isSome_iff_exists.mp hsome
    obtain ⟨found, hfound, hid, -, hfoundSeq, -⟩ := h key sagaId.text value hsaga hvalue
    rw [SagaId.ext hid] at hfound
    rw [hfound] at hsome ⊢
    exact entryKey_le sagaId (hmax _ hfoundSeq hsome) hseq
  simp only [loadLatest, hlast, hdata, hdecode, Option.bind_eq_bind, Option.bind_some,
    Except.toOption]
  simp [hstate]

/-- With the marker stored nothing of the saga is returned, whichever deletions follow. -/
theorem loadLatest_marked (hcodec : codec.Lawful) (h : Written codec storage) {sagaId : SagaId}
    {terminal : SagaTerminalState} {now seq : ℕ} {encoded : Bytes}
    {zeroing deletions ds : List Write} (hzero : Zeroing codec storage sagaId zeroing)
    (hcompact : Compacting codec storage sagaId terminal now seq encoded deletions)
    (hds : ds ⊆ deletions ∨ ds = deletions ++ [.delete (entryKey sagaId seq)]) :
    loadLatest codec (applyAll storage
      (zeroing ++ .append (entryKey sagaId seq) encoded :: ds)) sagaId.text = none := by
  set stored := (applyAll storage zeroing).store (entryKey sagaId seq) encoded with hstored
  have happly : applyAll storage (zeroing ++ .append (entryKey sagaId seq) encoded :: ds) =
      applyAll stored ds := applyAll_append storage zeroing _
  have hmarkerSaga : sagaOf (entryKey sagaId seq) = some sagaId.text :=
    sagaOf_entryKey sagaId hcompact.seq_le
  -- A key that a deletion names is gone.
  have hgone : ∀ key, (∃ w ∈ ds, w.key = key) → (applyAll stored ds).retrieve key = none := by
    intro key hmem
    obtain ⟨w, hw, -, hvalue⟩ := retrieve_applyAll_of_mem hmem stored
    rw [hvalue, hcompact.value_eq_none hds w hw]
  -- A key of the saga that is left is the marker's, or was stored before.
  have hleft : ∀ key, ((applyAll stored ds).retrieve key).isSome → key ≠ entryKey sagaId seq →
      (storage.retrieve key).isSome := by
    intro key hsome hne
    have hkept : ∀ w ∈ ds, w.key ≠ key := by
      intro w hw hkey
      simp [hgone key ⟨w, hw, hkey⟩] at hsome
    rw [retrieve_applyAll_of_not_mem hkept, hstored, KeyStore.retrieve_store_of_ne _ hne,
      hzero.isSome_retrieve] at hsome
    exact hsome
  rw [happly]
  cases hload : loadLatest codec (applyAll stored ds) sagaId.text with
  | none => rfl
  | some entry =>
    exfalso
    obtain ⟨key, raw, hlast, hget, hdecode, hstate⟩ := loadLatest_eq_some hload
    obtain ⟨hsome, hsaga, hmax⟩ := lastOf_journalKeys_iff.mp hlast
    have hbelow : key ≤ entryKey sagaId seq := by
      by_cases hkey : key = entryKey sagaId seq
      · exact hkey.le
      · obtain ⟨data, hdata⟩ := Option.isSome_iff_exists.mp (hleft key hsome hkey)
        obtain ⟨found, hfound, hid, -, hseq, -⟩ := h key sagaId.text data hsaga hdata
        rw [SagaId.ext hid] at hfound
        have hle : found.seqPerSaga ≤ seq := by
          apply hcompact.above _ hseq
          rw [← hfound]
          exact Option.isSome_of_mem hdata
        rw [hfound]
        exact entryKey_le sagaId hle hcompact.seq_le
    rcases hds with hsub | hall
    · -- The marker is still there, so it is the latest key, and it is terminal.
      have hkept : ∀ w ∈ ds, w.key ≠ entryKey sagaId seq := by
        intro w hw
        obtain ⟨k, rfl, hne, -⟩ := (hcompact.mem_deletions w).mp (hsub hw)
        exact hne
      have hmarker : (applyAll stored ds).retrieve (entryKey sagaId seq) = some encoded := by
        rw [retrieve_applyAll_of_not_mem hkept, hstored, KeyStore.retrieve_store_self]
      have hkey : key = entryKey sagaId seq :=
        le_antisymm hbelow (hmax _ (Option.isSome_of_mem hmarker) hmarkerSaga)
      rw [hkey, hmarker, Option.some.injEq] at hget
      subst hget
      rw [decodeEntry_encoded hcodec hcompact.marker_encoded hdecode] at hstate
      cases terminal <;> simp [marker, SagaTerminalState.toSagaState, SagaState.isTerminal] at hstate
    · -- Every key of the saga has been deleted.
      have hdeleted : ∃ w ∈ ds, w.key = key := by
        by_cases hkey : key = entryKey sagaId seq
        · exact ⟨.delete (entryKey sagaId seq), by simp [hall], hkey.symm⟩
        · have hmem : Write.delete key ∈ deletions := (hcompact.mem_deletions _).mpr
            ⟨key, rfl, hkey, sagaPrefix_of_sagaOf hsaga, hleft key hsome hkey⟩
          exact ⟨.delete key, by simp [hall, hmem], rfl⟩
      simp [hgone key hdeleted] at hsome

end Crash

/-- An unresolved saga is returned with its latest entry. A crash at any point of a resolution
either leaves the saga resolved for good, or, where the marker was not stored yet, leaves its
latest state; other sagas are untouched. -/
theorem resolved_saga_never_returns {codec : Codec} {storage : Storage} (hcodec : codec.Lawful)
    (hcontent : Content codec storage) {sagaId : SagaId} (hslash : '/' ∉ sagaId.text)
    (terminal : SagaTerminalState) (secretBearing : Bool) (now n : ℕ) :
    let ws := (markResolved codec storage sagaId terminal secretBearing now).1.take n
    (∀ entry, Latest codec storage sagaId entry → entry.state.isTerminal = false →
      entriesFor codec storage sagaId = [entry]) ∧
    ((∃ key data, Write.append key data ∈ ws) →
      entriesFor codec (applyAll storage ws) sagaId = []) ∧
    ((¬ ∃ key data, Write.append key data ∈ ws) →
      (entriesFor codec (applyAll storage ws) sagaId).map (fun e => (e.state, e.participants)) =
        (entriesFor codec storage sagaId).map (fun e => (e.state, e.participants))) ∧
    ∀ other, other ≠ sagaId →
      entriesFor codec (applyAll storage ws) other = entriesFor codec storage other := by
  intro ws
  have hwritten := hcontent.written hcodec
  have hlatest : ∀ entry, Latest codec storage sagaId entry → entry.state.isTerminal = false →
      entriesFor codec storage sagaId = [entry] := by
    intro entry hentry hstate
    rw [entriesFor_eq hcodec hwritten, loadLatest_of_latest hwritten hentry hstate]
    rfl
  have hcrashed : Written codec (applyAll storage ws) :=
    (hcontent.resolve n hslash).written hcodec
  have hothers : ∀ other, other ≠ sagaId →
      entriesFor codec (applyAll storage ws) other = entriesFor codec storage other := by
    intro other hne
    rw [entriesFor_eq hcodec hcrashed, entriesFor_eq hcodec hwritten]
    apply congrArg Option.toList
    apply loadLatest_congr
    intro key hkey
    exact crash_other hwritten hne terminal secretBearing now n hkey
  rcases crash_cases codec storage sagaId terminal secretBearing now n with
    hzero | ⟨zeroing, seq, encoded, deletions, ds, hzero, hcompact, hws, hds⟩
  · refine ⟨hlatest, ?_, fun _ => ?_, hothers⟩
    · rintro ⟨key, data, hmem⟩
      obtain ⟨k, d, e, d', heq, -⟩ := hzero _ hmem
      cases heq
    · rw [entriesFor_eq hcodec hcrashed, entriesFor_eq hcodec hwritten, ← Option.toList_map,
        ← Option.toList_map, loadLatest_zeroed hcodec hwritten hzero]
  · refine ⟨hlatest, fun _ => ?_, ?_, hothers⟩
    · rw [entriesFor_eq hcodec hcrashed]
      have hnone := loadLatest_marked hcodec hwritten hzero hcompact hds
      rw [← hws] at hnone
      rw [hnone]
      rfl
    · intro hno
      exact absurd ⟨entryKey sagaId seq, encoded, by simp [hws, ws]⟩ hno

def sampleSaga : SagaId := ⟨['a']⟩

def sampleEntry : JournalEntry := ⟨sampleSaga, .initiated, [], [], 0, 0⟩

/-- A short string in MessagePack. -/
def fixStr (text : List Char) : Bytes :=
  UInt8.ofNat (160+text.length) :: text.map (fun c => UInt8.ofNat c.toNat)

/-- The named map of an entry of the sample saga with no participants and no evidence. -/
def sampleBody (state : List Char) (seq : UInt8) : Bytes :=
  134 :: (fixStr "saga_id".toList ++ fixStr ['a'] ++ fixStr "state".toList ++ fixStr state ++
    fixStr "participants".toList ++ 144 :: (fixStr "evidence".toList ++ [196, 0] ++
    fixStr "timestamp_ms".toList ++ 0 :: (fixStr "seq_per_saga".toList ++ [seq])))

/-- A serializer for two entries. -/
def pairCodec (first second : JournalEntry) (firstBody secondBody : Bytes) : Codec where
  toVecNamed entry :=
    if entry = first then .ok firstBody
    else if entry = second then .ok secondBody else .error "unsupported"
  fromSlice body :=
    if body = firstBody then .ok first
    else if body = secondBody then .ok second else .error "unsupported"

theorem pairCodec_lawful {first second : JournalEntry} {firstBody secondBody : Bytes}
    (hbodies : secondBody ≠ firstBody) (hfirst : zeroed first = first)
    (hsecond : zeroed second = second) :
    (pairCodec first second firstBody secondBody).Lawful := by
  have hcases : ∀ entry body,
      (pairCodec first second firstBody secondBody).toVecNamed entry = .ok body →
      entry = first ∧ body = firstBody ∨ entry = second ∧ body = secondBody := by
    intro entry body h
    simp only [pairCodec] at h
    split_ifs at h with he hm
    · exact Or.inl ⟨he, (Except.ok.inj h).symm⟩
    · exact Or.inr ⟨hm, (Except.ok.inj h).symm⟩
  constructor
  · intro entry body h
    rcases hcases entry body h with ⟨rfl, rfl⟩ | ⟨rfl, rfl⟩
    · simp [pairCodec]
    · simp [pairCodec, hbodies]
  · intro entry body body' h h'
    have hsame : zeroed entry = entry := by
      rcases hcases entry body h with ⟨rfl, -⟩ | ⟨rfl, -⟩
      · exact hfirst
      · exact hsecond
    rw [hsame, h] at h'
    rw [Except.ok.inj h']

/-- The serializer on the two entries that the sample writes. -/
def sampleCodec : Codec :=
  pairCodec sampleEntry (marker sampleSaga .committed 0 1) (sampleBody "Initiated".toList 0)
    (sampleBody "Committed".toList 1)

theorem sampleCodec_lawful : sampleCodec.Lawful := pairCodec_lawful (by decide) rfl rfl

/-- One entry of the sample saga, and a foreign key whose suffix sorts above every number. -/
def sampleStorage : Storage :=
  (KeyStore.empty.store (sagaPrefix sampleSaga ++ ['z']) []).store (entryKey sampleSaga 0)
    (frame (sampleBody "Initiated".toList 0))

theorem sampleStorage_content : Content sampleCodec sampleStorage := by
  have hforeign : sagaOf (sagaPrefix sampleSaga ++ ['z']) = none := by decide
  have hplanted : Content sampleCodec (KeyStore.empty.store (sagaPrefix sampleSaga ++ ['z']) []) :=
    Content.empty.foreign hforeign
  have happend : append sampleCodec (KeyStore.empty.store (sagaPrefix sampleSaga ++ ['z']) [])
      sampleEntry = .ok sampleStorage := rfl
  exact hplanted.append (by decide) (by decide) happend

/-- The foreign key sorts above every entry and is none of them. -/
theorem sampleStorage_latest : Latest sampleCodec sampleStorage sampleSaga sampleEntry := by
  refine ⟨0, _, by decide, KeyStore.retrieve_store_self _ _ _, ?_, by decide +kernel⟩
  intro later hlater hsome
  by_contra hpos
  have hne : entryKey sampleSaga later ≠ entryKey sampleSaga 0 := by
    intro heq
    have hseq := congrArg suffixSeq heq
    rw [suffixSeq_entryKey _ hlater, suffixSeq_entryKey _ (by decide)] at hseq
    simp only [Option.some.injEq] at hseq
    omega
  have hforeign : entryKey sampleSaga later ≠ sagaPrefix sampleSaga ++ ['z'] := by
    intro heq
    have hsaga := sagaOf_entryKey sampleSaga hlater
    rw [heq] at hsaga
    revert hsaga
    decide
  rw [sampleStorage, KeyStore.retrieve_store_of_ne _ hne, KeyStore.retrieve_store_of_ne _ hforeign]
    at hsome
  exact Bool.false_ne_true hsome

/-- The saga is returned before the resolution; the marker is stored by its first write, and the
saga is not returned any more. -/
theorem sample_resolved :
    entriesFor sampleCodec sampleStorage sampleSaga = [sampleEntry] ∧
    (∃ key data, Write.append key data ∈
      (markResolved sampleCodec sampleStorage sampleSaga .committed false 0).1.take 1) ∧
    entriesFor sampleCodec (applyAll sampleStorage
      ((markResolved sampleCodec sampleStorage sampleSaga .committed false 0).1.take 1))
      sampleSaga = [] := by
  have hmarker : ∃ key data, Write.append key data ∈
      (markResolved sampleCodec sampleStorage sampleSaga .committed false 0).1.take 1 := by
    refine ⟨entryKey sampleSaga 1, frame (sampleBody "Committed".toList 1), ?_⟩
    decide +kernel
  have hslash : '/' ∉ sampleSaga.text := by decide
  obtain ⟨hlatest, hresolved, -⟩ := resolved_saga_never_returns sampleCodec_lawful
    sampleStorage_content hslash .committed false 0 1
  exact ⟨hlatest sampleEntry sampleStorage_latest rfl, hmarker, hresolved hmarker⟩

end ScpCore.Saga
