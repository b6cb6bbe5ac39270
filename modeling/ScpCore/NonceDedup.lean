import Mathlib

/-! The bounded cache of request nonces: each is remembered with the second it was recorded,
until it is as old as the cache's time to live or, when the cache is full, the oldest. -/

namespace ScpCore.Dedup

abbrev Nonce := BitVec 128

def nonceExpirySecs : ℕ := 300

def nonceDedupCapacity : ℕ := 10000

/-- A map from nonces to the second each was recorded at, in its order of iteration. -/
structure NonceDedup where
  seen : List (Nonce × ℕ)
  ttlSecs : ℕ
  nodup : (seen.map Prod.fst).Nodup

namespace NonceDedup

def withTtl (ttlSecs : ℕ) : NonceDedup := ⟨[], ttlSecs, List.nodup_nil⟩

def new : NonceDedup := withTtl nonceExpirySecs

variable (dedup : NonceDedup)

def len : ℕ := dedup.seen.length

def get (nonce : Nonce) : Option ℕ := (dedup.seen.find? (fun e => e.1 = nonce)).map Prod.snd

def isReplayedRead (nonce : Nonce) (nowSecs : ℕ) : Bool :=
  (dedup.get nonce).any (fun seenAt => nowSecs - seenAt < dedup.ttlSecs)

def retain (keep : Nonce × ℕ → Bool) : NonceDedup where
  seen := dedup.seen.filter keep
  ttlSecs := dedup.ttlSecs
  nodup := dedup.nodup.sublist (List.filter_sublist.map Prod.fst)

def evictExpired (nowSecs : ℕ) : NonceDedup :=
  dedup.retain (fun e => nowSecs - e.2 < dedup.ttlSecs)

/-- The answer, and the cache without its expired entries. -/
def isReplayed (nonce : Nonce) (nowSecs : ℕ) : Bool × NonceDedup :=
  ((dedup.evictExpired nowSecs).isReplayedRead nonce nowSecs, dedup.evictExpired nowSecs)

def insert (nonce : Nonce) (nowSecs : ℕ) : NonceDedup where
  -- An entry for the nonce is replaced.
  seen := (nonce, nowSecs) :: dedup.seen.filter (fun e => e.1 ≠ nonce)
  ttlSecs := dedup.ttlSecs
  nodup := by
    rw [List.map_cons, List.nodup_cons]
    refine ⟨?_, dedup.nodup.sublist (List.filter_sublist.map Prod.fst)⟩
    intro hmem
    obtain ⟨e, he, hsame⟩ := List.mem_map.mp hmem
    rw [List.mem_filter, decide_eq_true_eq] at he
    exact he.2 hsame

/-- The first of the entries with the least second. -/
def oldest : Option (Nonce × ℕ) := dedup.seen.argmin Prod.snd

/-- The cache with room for another entry: a full one loses its oldest. -/
def madeRoom : NonceDedup :=
  if nonceDedupCapacity ≤ dedup.len then
    match dedup.oldest with
    | some oldest => dedup.retain (fun e => e.1 ≠ oldest.1)
    | none => dedup
  else dedup

def record (nonce : Nonce) (nowSecs : ℕ) : NonceDedup := dedup.madeRoom.insert nonce nowSecs

def entries : List (Nonce × ℕ) := dedup.seen

def fromEntriesWithTtl (seen : List (Nonce × ℕ)) (nodup : (seen.map Prod.fst).Nodup)
    (ttlSecs : ℕ) : NonceDedup := ⟨seen, ttlSecs, nodup⟩

variable {dedup} {nonce : Nonce} {now : ℕ}

@[simp] theorem evictExpired_ttlSecs : (dedup.evictExpired now).ttlSecs = dedup.ttlSecs := rfl

theorem madeRoom_eq (h : dedup.len < nonceDedupCapacity) : dedup.madeRoom = dedup :=
  if_neg (by omega)

@[simp] theorem record_ttlSecs : (dedup.record nonce now).ttlSecs = dedup.ttlSecs := by
  simp only [record, insert, madeRoom]
  split
  · split <;> rfl
  · rfl

theorem len_evictExpired_le : (dedup.evictExpired now).len ≤ dedup.len :=
  List.length_filter_le _ _

theorem len_record_le : (dedup.record nonce now).len ≤ dedup.len+1 := by
  have hroom : dedup.madeRoom.len ≤ dedup.len := by
    rw [madeRoom]
    split
    · split
      · exact List.length_filter_le _ _
      · exact le_rfl
    · exact le_rfl
  have hfilter := List.length_filter_le (fun e : Nonce × ℕ => decide (e.1 ≠ nonce))
    dedup.madeRoom.seen
  simp only [len] at hroom
  simp only [record, insert, len, List.length_cons]
  omega

theorem get_eq_of_mem {seenAt : ℕ} (h : (nonce, seenAt) ∈ dedup.seen) :
    dedup.get nonce = some seenAt := by
  rw [get, Option.map_eq_some_iff]
  obtain ⟨e, he⟩ : ∃ e, dedup.seen.find? (fun e => e.1 = nonce) = some e := by
    rw [← Option.isSome_iff_exists, List.find?_isSome]
    exact ⟨_, h, decide_eq_true rfl⟩
  have hkey : e.1 = nonce := by simpa using List.find?_some he
  -- No two entries have one key.
  have hsame := List.inj_on_of_nodup_map dedup.nodup (List.mem_of_find?_eq_some he) h hkey
  exact ⟨e, he, by rw [hsame]⟩

theorem mem_of_get_eq {seenAt : ℕ} (h : dedup.get nonce = some seenAt) :
    (nonce, seenAt) ∈ dedup.seen := by
  obtain ⟨e, he, rfl⟩ := Option.map_eq_some_iff.mp h
  have hkey : e.1 = nonce := by simpa using List.find?_some he
  rw [← hkey]
  exact List.mem_of_find?_eq_some he

/-- A nonce is replayed exactly where it has an entry that is not yet expired. -/
theorem isReplayedRead_iff : dedup.isReplayedRead nonce now = true ↔
    ∃ seenAt, (nonce, seenAt) ∈ dedup.seen ∧ now - seenAt < dedup.ttlSecs := by
  rw [isReplayedRead, Option.any_eq_true]
  constructor
  · rintro ⟨seenAt, hget, hlive⟩
    exact ⟨seenAt, mem_of_get_eq hget, of_decide_eq_true hlive⟩
  · rintro ⟨seenAt, hmem, hlive⟩
    exact ⟨seenAt, get_eq_of_mem hmem, decide_eq_true hlive⟩

theorem mem_evictExpired {e : Nonce × ℕ} : e ∈ (dedup.evictExpired now).seen ↔
    e ∈ dedup.seen ∧ now - e.2 < dedup.ttlSecs := by
  rw [evictExpired, retain, List.mem_filter, decide_eq_true_eq]

/-- The eviction before a read changes no answer. -/
theorem isReplayedRead_evictExpired :
    (dedup.evictExpired now).isReplayedRead nonce now = dedup.isReplayedRead nonce now := by
  rw [Bool.eq_iff_iff, isReplayedRead_iff, isReplayedRead_iff]
  simp only [mem_evictExpired, evictExpired_ttlSecs]
  constructor
  · rintro ⟨seenAt, ⟨hmem, hlive⟩, _⟩
    exact ⟨seenAt, hmem, hlive⟩
  · rintro ⟨seenAt, hmem, hlive⟩
    exact ⟨seenAt, ⟨hmem, hlive⟩, hlive⟩

theorem mem_record (hroom : dedup.len < nonceDedupCapacity) {e : Nonce × ℕ} :
    e ∈ (dedup.record nonce now).seen ↔ e = (nonce, now) ∨ e ∈ dedup.seen ∧ e.1 ≠ nonce := by
  rw [record, madeRoom_eq hroom, insert, List.mem_cons, List.mem_filter, decide_eq_true_eq]

end NonceDedup

/-- At a second, each of the recorded nonces is in the past, and as long as its time to live has
not run out it has an entry at least as late. -/
structure Keeps (dedup : NonceDedup) (clock : ℕ) (recorded : List (Nonce × ℕ)) : Prop where
  past : ∀ e ∈ recorded, e.2 ≤ clock
  entry : ∀ e ∈ recorded, clock < e.2 + dedup.ttlSecs →
    ∃ seenAt, (e.1, seenAt) ∈ dedup.seen ∧ e.2 ≤ seenAt

namespace Keeps

variable {dedup : NonceDedup} {clock now : ℕ} {recorded : List (Nonce × ℕ)} {nonce : Nonce}

theorem nil : Keeps dedup clock [] :=
  ⟨fun _ he => absurd he List.not_mem_nil, fun _ he => absurd he List.not_mem_nil⟩

theorem mono (h : Keeps dedup clock recorded) (hnow : clock ≤ now) : Keeps dedup now recorded :=
  ⟨fun e he => (h.past e he).trans hnow, fun e he hlive => h.entry e he (lt_of_le_of_lt hnow hlive)⟩

theorem evictExpired (h : Keeps dedup clock recorded) (hnow : clock ≤ now) :
    Keeps (dedup.evictExpired now) now recorded := by
  refine ⟨(h.mono hnow).past, ?_⟩
  intro e he hlive
  rw [NonceDedup.evictExpired_ttlSecs] at hlive
  obtain ⟨seenAt, hmem, hlater⟩ := (h.mono hnow).entry e he hlive
  refine ⟨seenAt, NonceDedup.mem_evictExpired.mpr ⟨hmem, ?_⟩, hlater⟩
  -- The entry is no older than the record, which is still live.
  have hpast := (h.mono hnow).past e he
  show now - seenAt < dedup.ttlSecs
  omega

/-- A cache with room keeps what it has and the nonce it records. -/
theorem record (h : Keeps dedup clock recorded) (hnow : clock ≤ now)
    (hroom : dedup.len < nonceDedupCapacity) :
    Keeps (dedup.record nonce now) now ((nonce, now) :: recorded) := by
  constructor
  · intro e he
    rcases List.mem_cons.mp he with rfl | hold
    · exact le_rfl
    · exact (h.mono hnow).past e hold
  · intro e he hlive
    rw [NonceDedup.record_ttlSecs] at hlive
    simp only [NonceDedup.mem_record hroom]
    -- The new entry takes the place of an older one for the same nonce.
    by_cases hsame : e.1 = nonce
    · refine ⟨now, Or.inl (by rw [hsame]), ?_⟩
      rcases List.mem_cons.mp he with rfl | hold
      · exact le_rfl
      · exact (h.mono hnow).past e hold
    · rcases List.mem_cons.mp he with rfl | hold
      · exact absurd rfl hsame
      · obtain ⟨seenAt, hmem, hlater⟩ := (h.mono hnow).entry e hold hlive
        exact ⟨seenAt, Or.inr ⟨hmem, hsame⟩, hlater⟩

/-- A recorded nonce that is not replayed was recorded a time to live ago. -/
theorem expired (h : Keeps dedup clock recorded) (hnow : clock ≤ now) {recordedAt : ℕ}
    (hmem : (nonce, recordedAt) ∈ recorded) (hnot : dedup.isReplayedRead nonce now = false) :
    recordedAt + dedup.ttlSecs ≤ now := by
  by_contra hlate
  obtain ⟨seenAt, hseen, hlater⟩ := (h.mono hnow).entry _ hmem (not_le.mp hlate)
  have hreplayed : dedup.isReplayedRead nonce now = true := by
    rw [NonceDedup.isReplayedRead_iff]
    refine ⟨seenAt, hseen, ?_⟩
    have hpast := (h.mono hnow).past _ hmem
    simp only at hlater hlate hpast
    omega
  rw [hreplayed] at hnot
  cases hnot

end Keeps

end ScpCore.Dedup
