import ScpCore.KeyText
import ScpCore.CaveatCounters

/-! The nonces a context has seen. A nonce carries its own time in milliseconds and is fresh
for five minutes around it; an entry is kept for a day after it was recorded, so it is
forgotten only when its nonce is too old to be accepted again. -/

namespace ScpCore.Nonces

abbrev Text := List Char

inductive UcanError
  | nonceFormatInvalid (text : Text)
  | nonceTooOld (nonce : Text)
  | nonceFuture (nonce : Text)
  | nonceReused (nonce : Text)
  | nonceTrackerFull (maxCapacity : ℕ)
  | malformedToken (text : Text)
  deriving DecidableEq

def nonceFreshnessToleranceMs : ℕ := 5*60*1000
def pruneExpiryGraceSecs : ℕ := 300
def pruneMinRetentionSecs : ℕ := 86400
def pruneCheckInterval : ℕ := 1000
def pruneTimeIntervalSecs : ℕ := 600

def entryExpired (now firstSeen tokenExpiry : ℕ) : Bool :=
  let expiryDeadline := saturatingAdd tokenExpiry pruneExpiryGraceSecs
  let retentionDeadline := saturatingAdd firstSeen pruneMinRetentionSecs
  let deadline := if retentionDeadline < expiryDeadline then expiryDeadline else retentionDeadline
  deadline < now

/-- `str::split_once('-')`. -/
def splitOnce (text : Text) : Option (Text × Text) :=
  if '-' ∈ text then some (text.takeWhile (· ≠ '-'), (text.dropWhile (· ≠ '-')).tail) else none

/-- `str::parse::<u128>`: one leading plus is allowed. -/
def parseU128 (text : Text) : Option ℕ :=
  let digits := if text.head? = some '+' then text.tail else text
  if !digits.isEmpty && digits.all Char.isDigit && decimal digits ≤ 2^128-1 then
    some (decimal digits)
  else none

def isAsciiHexdigit (c : Char) : Bool :=
  c.isDigit || ('a' ≤ c && c ≤ 'f') || ('A' ≤ c && c ≤ 'F')

/-- The length of the text in UTF-8. -/
def byteLen (text : Text) : ℕ := (text.map Char.utf8Size).sum

/-- The readings of the clock, one after the other. They never go back. -/
structure Clock where
  reading : ℕ → ℕ
  steady : Monotone reading
  fits : ∀ k, reading k < 2^64

/-- A map from nonces to the times `(firstSeen, tokenExpiry)`. -/
structure Seen where
  entries : List (Text × ℕ × ℕ)
  nodup : (entries.map Prod.fst).Nodup

namespace Seen
variable (seen : Seen)

def empty : Seen := ⟨[], List.nodup_nil⟩

def len : ℕ := seen.entries.length

def containsKey (nonce : Text) : Bool := seen.entries.any (fun e => e.1 = nonce)

def retain (keep : ℕ → ℕ → Bool) : Seen where
  entries := seen.entries.filter (fun e => keep e.2.1 e.2.2)
  nodup := seen.nodup.sublist (List.filter_sublist.map Prod.fst)

def insert (nonce : Text) (firstSeen tokenExpiry : ℕ) : Seen where
  entries := seen.entries.filter (fun e => e.1 ≠ nonce) ++ [(nonce, firstSeen, tokenExpiry)]
  nodup := by
    rw [List.map_append, List.nodup_append]
    refine ⟨seen.nodup.sublist (List.filter_sublist.map Prod.fst), by simp, ?_⟩
    intro a ha b hb
    simp only [List.mem_map, List.mem_filter, decide_eq_true_eq] at ha
    obtain ⟨e, ⟨-, hne⟩, rfl⟩ := ha
    simp only [List.map_cons, List.map_nil, List.mem_singleton] at hb
    rw [hb]
    exact hne

/-- The latest expiry first, then the latest seen, then the nonces in order. -/
def laterExpiry (a b : Text × ℕ × ℕ) : Bool :=
  b.2.2 < a.2.2 || (a.2.2 = b.2.2 && (b.2.1 < a.2.1 || (a.2.1 = b.2.1 && a.1 ≤ b.1)))

def truncate (maxCapacity : ℕ) : Seen where
  entries := (seen.entries.mergeSort laterExpiry).take maxCapacity
  nodup := by
    apply List.Nodup.sublist ((List.take_sublist _ _).map Prod.fst)
    rw [((List.mergeSort_perm seen.entries laterExpiry).map Prod.fst).nodup_iff]
    exact seen.nodup

end Seen

structure NonceTracker where
  seen : Seen
  contextId : Text
  checksSincePrune : ℕ
  lastPruneTime : ℕ
  maxCapacity : ℕ

/-- Serialization of the context id with the seen nonces. -/
structure Codec where
  toVec : Text → Seen → Except Text (List UInt8)
  fromSlice : List UInt8 → Except Text (Text × Seen)

/-- What was serialized is read back, the entries in some order. -/
structure Codec.Lawful (codec : Codec) : Prop where
  roundTrip : ∀ contextId seen data, codec.toVec contextId seen = .ok data →
    ∃ seen', codec.fromSlice data = .ok (contextId, seen') ∧ seen'.entries.Perm seen.entries

/-- The time a nonce names. -/
def nonceMillis (nonce : Text) : Except UcanError ℕ :=
  match splitOnce nonce with
  | none => .error (.nonceFormatInvalid ("missing '-' separator in nonce: ".toList ++ nonce))
  | some (tsPart, hexPart) =>
    match parseU128 tsPart with
    | none => .error (.nonceFormatInvalid ("non-numeric timestamp in nonce: ".toList ++ tsPart))
    | some millis =>
      if byteLen hexPart ≠ 32 || !hexPart.all isAsciiHexdigit then
        .error (.nonceFormatInvalid
          ("invalid hex suffix in nonce (expected 32 hex chars): ".toList ++ hexPart))
      else .ok millis

namespace NonceTracker
variable (clock : Clock) (codec : Codec)

-- Every function takes the number of readings made of the clock and returns it advanced.

def withMaxCapacity (contextId : Text) (maxCapacity k : ℕ) : NonceTracker × ℕ :=
  (⟨.empty, contextId, 0, clock.reading k, maxCapacity⟩, k+1)

def checkReplay (t : NonceTracker) (nonce : Text) (_tokenExpiry k : ℕ) :
    Except UcanError Unit × ℕ :=
  match nonceMillis nonce with
  | .error e => (.error e, k)
  | .ok millis =>
    let nowMillis := 1000*clock.reading k
    -- The sum of two `u128` wraps in a release build.
    if (millis+nonceFreshnessToleranceMs)%2^128 < nowMillis then (.error (.nonceTooOld nonce), k+1)
    else if nowMillis+nonceFreshnessToleranceMs < millis then (.error (.nonceFuture nonce), k+1)
    else if t.seen.containsKey nonce then (.error (.nonceReused nonce), k+1)
    else (.ok (), k+1)

def prune (t : NonceTracker) (k : ℕ) : NonceTracker × ℕ :=
  let now := clock.reading k
  ({ t with
      seen := t.seen.retain (fun firstSeen tokenExpiry => !entryExpired now firstSeen tokenExpiry)
      checksSincePrune := 0
      lastPruneTime := now }, k+1)

/-- Recording a nonce for which there is room. -/
def insertNonce (t : NonceTracker) (nonce : Text) (tokenExpiry k : ℕ) : NonceTracker × ℕ :=
  let nowSecs := clock.reading k
  let t :=
    { t with
      seen := t.seen.insert nonce nowSecs tokenExpiry
      checksSincePrune := t.checksSincePrune+1 }
  if pruneCheckInterval ≤ t.checksSincePrune ||
      (t.lastPruneTime+pruneTimeIntervalSecs)%2^64 ≤ nowSecs then
    prune clock t (k+1)
  else (t, k+1)

def record (t : NonceTracker) (nonce : Text) (tokenExpiry k : ℕ) :
    Except UcanError Unit × NonceTracker × ℕ :=
  match checkReplay clock t nonce tokenExpiry k with
  | (.error e, k) => (.error e, t, k)
  | (.ok (), k) =>
    if t.maxCapacity ≤ t.seen.len then
      let (t, k) := prune clock t k
      if t.maxCapacity ≤ t.seen.len then (.error (.nonceTrackerFull t.maxCapacity), t, k)
      else (.ok (), insertNonce clock t nonce tokenExpiry k)
    else (.ok (), insertNonce clock t nonce tokenExpiry k)

def checkAndRecord (t : NonceTracker) (nonce : Text) (tokenExpiry k : ℕ) :
    Except UcanError Unit × NonceTracker × ℕ :=
  match checkReplay clock t nonce tokenExpiry k with
  | (.error e, k) => (.error e, t, k)
  | (.ok (), k) => record clock t nonce tokenExpiry k

def toBytes (t : NonceTracker) : Except UcanError (List UInt8) :=
  (codec.toVec t.contextId t.seen).mapError
    (fun e => .malformedToken ("nonce tracker serialization: ".toList ++ e))

def fromBytesWithCapacity (data : List UInt8) (maxCapacity k : ℕ) :
    Except UcanError (NonceTracker × ℕ) :=
  match codec.fromSlice data with
  | .error e => .error (.malformedToken ("nonce tracker deserialization: ".toList ++ e))
  | .ok (contextId, seen) =>
    .ok (prune clock ⟨seen, contextId, 0, clock.reading k, maxCapacity⟩ (k+1))

def snapshotEntries (t : NonceTracker) : Seen := t.seen

def fromSnapshotWithCapacity (contextId : Text) (entries : Seen) (maxCapacity k : ℕ) :
    NonceTracker × ℕ :=
  let (t, k) := prune clock ⟨entries, contextId, 0, clock.reading k, maxCapacity⟩ (k+1)
  if maxCapacity < t.seen.len then
    ({ t with
        seen := t.seen.truncate maxCapacity }, k)
  else (t, k)

end NonceTracker

inductive Call
  | checkAndRecord (nonce : Text) (tokenExpiry : ℕ)
  | record (nonce : Text) (tokenExpiry : ℕ)
  | prune
  /-- `to_bytes` and then `from_bytes_with_capacity`, the capacity larger by `more`. -/
  | reload (more : ℕ)
  /-- `snapshot_entries` and then `from_snapshot_with_capacity`, the capacity larger by `more`. -/
  | resume (contextId : Text) (more : ℕ)

def Call.presents (nonce : Text) : Call → Bool
  | .checkAndRecord n _ => n = nonce
  | .record n _ => n = nonce
  | _ => false

section Run
variable (clock : Clock) (codec : Codec)
open NonceTracker

/-- What the call returns, the tracker after it and the readings made of the clock. -/
def step (call : Call) (t : NonceTracker) (k : ℕ) : Except UcanError Unit × NonceTracker × ℕ :=
  match call with
  | .checkAndRecord nonce tokenExpiry => checkAndRecord clock t nonce tokenExpiry k
  | .record nonce tokenExpiry => record clock t nonce tokenExpiry k
  | .prune => (.ok (), prune clock t k)
  | .reload more =>
    match toBytes codec t with
    | .error e => (.error e, t, k)
    | .ok data =>
      match fromBytesWithCapacity clock codec data (t.maxCapacity+more) k with
      | .error e => (.error e, t, k)
      | .ok restored => (.ok (), restored)
  | .resume contextId more =>
    (.ok (), fromSnapshotWithCapacity clock contextId (snapshotEntries t) (t.maxCapacity+more) k)

def run : List Call → NonceTracker → ℕ → NonceTracker × ℕ
  | [], t, k => (t, k)
  | call :: calls, t, k =>
    let after := (step clock codec call t k).2
    run calls after.1 after.2

/-- How many calls of a run accept the nonce. -/
def timesAccepted (nonce : Text) : List Call → NonceTracker → ℕ → ℕ
  | [], _, _ => 0
  | call :: calls, t, k =>
    let result := step clock codec call t k
    (if call.presents nonce && result.1.toOption.isSome then 1 else 0) +
      timesAccepted nonce calls result.2.1 result.2.2

end Run

section Spent
variable {clock : Clock} {codec : Codec} {t : NonceTracker} {nonce : Text} {k : ℕ}
open NonceTracker

theorem Seen.containsKey_iff (seen : Seen) :
    seen.containsKey nonce = true ↔ ∃ times, (nonce, times) ∈ seen.entries := by
  simp only [Seen.containsKey, List.any_eq_true, decide_eq_true_eq]
  constructor
  · rintro ⟨⟨_, times⟩, he, rfl⟩
    exact ⟨times, he⟩
  · rintro ⟨times, he⟩
    exact ⟨_, he, rfl⟩

theorem Seen.len_insert_le {seen : Seen} {firstSeen tokenExpiry : ℕ} :
    (seen.insert nonce firstSeen tokenExpiry).len ≤ seen.len+1 := by
  simp only [Seen.len, Seen.insert, List.length_append, List.length_singleton]
  have := seen.entries.length_filter_le (fun e => e.1 ≠ nonce)
  omega

theorem Seen.len_retain_le (seen : Seen) (keep : ℕ → ℕ → Bool) :
    (seen.retain keep).len ≤ seen.len := List.length_filter_le _ _

/-- A nonce that no later call accepts: it is held by an entry recorded no more than five
minutes before its time, or it is too old. -/
def Spent (clock : Clock) (k : ℕ) (seen : Seen) (nonce : Text) : Prop :=
  ∃ millis, nonceMillis nonce = .ok millis ∧
    ((∃ firstSeen tokenExpiry, (nonce, firstSeen, tokenExpiry) ∈ seen.entries ∧
        millis ≤ 1000*firstSeen+nonceFreshnessToleranceMs) ∨
      millis+nonceFreshnessToleranceMs < 1000*clock.reading k)

theorem Spent.mono {seen seen' : Seen} {k k' : ℕ} (h : Spent clock k seen nonce) (hk : k ≤ k')
    (hsub : ∀ times, (nonce, times) ∈ seen.entries → (nonce, times) ∈ seen'.entries) :
    Spent clock k' seen' nonce := by
  obtain ⟨millis, hmillis, ⟨firstSeen, tokenExpiry, he, hfirst⟩ | hold⟩ := h
  · exact ⟨millis, hmillis, .inl ⟨firstSeen, tokenExpiry, hsub _ he, hfirst⟩⟩
  · exact ⟨millis, hmillis, .inr (hold.trans_le (Nat.mul_le_mul_left 1000 (clock.steady hk)))⟩

theorem parseU128_lt {text : Text} {n : ℕ} (h : parseU128 text = some n) : n < 2^128 := by
  simp only [parseU128, Option.ite_none_right_eq_some, Bool.and_eq_true, decide_eq_true_eq] at h
  obtain ⟨⟨-, hle⟩, heq⟩ := h
  rw [← Option.some.inj heq]
  omega

theorem nonceMillis_lt {millis : ℕ} (h : nonceMillis nonce = .ok millis) : millis < 2^128 := by
  unfold nonceMillis at h
  split at h
  · cases h
  · next tsPart hexPart _ =>
    split at h
    · cases h
    · next n hn =>
      split at h
      · cases h
      · cases h
        exact parseU128_lt hn

/-- A nonce that passes is fresh and not held. -/
theorem checkReplay_ok {tokenExpiry k' : ℕ}
    (h : checkReplay clock t nonce tokenExpiry k = (.ok (), k')) :
    k' = k+1 ∧ t.seen.containsKey nonce = false ∧ ∃ millis, nonceMillis nonce = .ok millis ∧
      1000*clock.reading k ≤ millis+nonceFreshnessToleranceMs ∧
      millis ≤ 1000*clock.reading k+nonceFreshnessToleranceMs := by
  unfold checkReplay at h
  split at h
  · cases h
  · next millis hmillis =>
    dsimp only at h
    by_cases hold : (millis+nonceFreshnessToleranceMs)%2^128 < 1000*clock.reading k
    · rw [if_pos hold] at h
      cases h
    · rw [if_neg hold] at h
      by_cases hfuture : 1000*clock.reading k+nonceFreshnessToleranceMs < millis
      · rw [if_pos hfuture] at h
        cases h
      · rw [if_neg hfuture] at h
        by_cases hseen : t.seen.containsKey nonce = true
        · rw [if_pos hseen] at h
          cases h
        · rw [if_neg hseen, Prod.mk.injEq] at h
          -- A time that is not in the future is far from the end of `u128`.
          have hreading := clock.fits k
          have hlt := nonceMillis_lt hmillis
          have hle : (millis+nonceFreshnessToleranceMs)%2^128 ≤ millis+nonceFreshnessToleranceMs :=
            Nat.mod_le _ _
          exact ⟨h.2.symm, eq_false_of_ne_true hseen, millis, hmillis, by omega, by omega⟩

theorem checkReplay_le {tokenExpiry : ℕ} {result : Except UcanError Unit} {k' : ℕ}
    (h : checkReplay clock t nonce tokenExpiry k = (result, k')) : k ≤ k' := by
  have hle : k ≤ (checkReplay clock t nonce tokenExpiry k).2 := by
    unfold checkReplay
    cases nonceMillis nonce with
    | error e => exact le_refl k
    | ok millis =>
      -- Each of the four answers has read the clock once.
      simp only [apply_ite Prod.snd, ite_self]
      exact Nat.le_succ k
  rw [h] at hle
  exact hle

/-- No call accepts a spent nonce. -/
theorem Spent.not_ok {tokenExpiry k' : ℕ} (h : Spent clock k t.seen nonce) (hk : k ≤ k') :
    (checkReplay clock t nonce tokenExpiry k').1 ≠ .ok () := by
  intro hok
  obtain ⟨-, hseen, millis, hmillis, hfresh, -⟩ :=
    checkReplay_ok (Prod.ext hok rfl : checkReplay clock t nonce tokenExpiry k' = (.ok (), _))
  obtain ⟨millis', hmillis', ⟨firstSeen, tokenExpiry, he, -⟩ | hold⟩ := h
  · rw [(Seen.containsKey_iff t.seen).mpr ⟨_, he⟩] at hseen
    cases hseen
  · have heq : millis = millis' := by
      rw [hmillis] at hmillis'
      exact Except.ok.inj hmillis'
    have := clock.steady hk
    omega

/-- An entry is dropped a day after it was recorded, when its nonce has long been too old. -/
theorem Spent.prune (h : Spent clock k t.seen nonce) :
    Spent clock (prune clock t k).2 (prune clock t k).1.seen nonce := by
  obtain ⟨millis, hmillis, ⟨firstSeen, tokenExpiry, he, hfirst⟩ | hold⟩ := h
  · refine ⟨millis, hmillis, ?_⟩
    by_cases hexpired : entryExpired (clock.reading k) firstSeen tokenExpiry = true
    · right
      have hlate : saturatingAdd firstSeen pruneMinRetentionSecs < clock.reading k := by
        unfold entryExpired at hexpired
        simp only [decide_eq_true_eq] at hexpired
        split_ifs at hexpired <;> omega
      have hreading := clock.fits k
      have hnext : clock.reading k ≤ clock.reading (k+1) := clock.steady (Nat.le_succ k)
      change _ < 1000*clock.reading (k+1)
      rw [saturatingAdd, u64Max] at hlate
      unfold pruneMinRetentionSecs at hlate
      unfold nonceFreshnessToleranceMs at hfirst ⊢
      omega
    · left
      refine ⟨firstSeen, tokenExpiry, ?_, hfirst⟩
      simp only [NonceTracker.prune, Seen.retain, List.mem_filter]
      exact ⟨he, by simpa using hexpired⟩
  · have hnext := clock.steady (Nat.le_succ k)
    exact ⟨millis, hmillis, .inr (hold.trans_le (Nat.mul_le_mul_left 1000 hnext))⟩

theorem mem_insert_of_mem {seen : Seen} {other : Text} {firstSeen tokenExpiry : ℕ}
    (hseen : seen.containsKey nonce = false) {times : ℕ × ℕ}
    (h : (other, times) ∈ seen.entries) :
    (other, times) ∈ (seen.insert nonce firstSeen tokenExpiry).entries := by
  have hne : other ≠ nonce := by
    rintro rfl
    rw [(Seen.containsKey_iff seen).mpr ⟨_, h⟩] at hseen
    cases hseen
  simp only [Seen.insert, List.mem_append, List.mem_filter, decide_eq_true_eq]
  exact .inl ⟨h, hne⟩

theorem containsKey_retain {seen : Seen} (keep : ℕ → ℕ → Bool)
    (h : seen.containsKey nonce = false) : (seen.retain keep).containsKey nonce = false := by
  rw [← Bool.not_eq_true, Seen.containsKey_iff] at h ⊢
  rintro ⟨times, hmem⟩
  exact h ⟨times, List.mem_of_mem_filter hmem⟩

/-- What a step does: spent nonces stay spent, what it accepts was not spent and now is, and
the tracker stays within its capacity. -/
structure Sound (clock : Clock) (t : NonceTracker) (k : ℕ) (accepted : Option Text)
    (after : NonceTracker × ℕ) : Prop where
  keeps : ∀ nonce, Spent clock k t.seen nonce → Spent clock after.2 after.1.seen nonce
  fits : t.seen.len ≤ t.maxCapacity → after.1.seen.len ≤ after.1.maxCapacity
  accepts : ∀ nonce ∈ accepted,
    ¬ Spent clock k t.seen nonce ∧ Spent clock after.2 after.1.seen nonce

/-- The nonce a call accepts with this result. -/
def acceptedBy (result : Except UcanError Unit) (nonce : Text) : Option Text :=
  match result with
  | .ok () => some nonce
  | .error _ => none

theorem Sound.unchanged {k' : ℕ} (hk : k ≤ k') : Sound clock t k none (t, k') where
  keeps _ h := h.mono hk (fun _ => id)
  fits h := h
  accepts _ h := nomatch h

/-- A tracker with the same entries and no less room. -/
theorem Sound.restored {other : NonceTracker} {k' : ℕ} (hk : k ≤ k')
    (hperm : other.seen.entries.Perm t.seen.entries) (hcap : t.maxCapacity ≤ other.maxCapacity) :
    Sound clock t k none (other, k') where
  keeps _ h := h.mono hk (fun times => hperm.mem_iff.mpr)
  fits h := by
    have hlen : other.seen.len = t.seen.len := hperm.length_eq
    change other.seen.len ≤ other.maxCapacity
    omega
  accepts _ h := nomatch h

theorem Sound.prune {accepted : Option Text} {after : NonceTracker} {k' : ℕ}
    (h : Sound clock t k accepted (after, k')) :
    Sound clock t k accepted (prune clock after k') where
  keeps nonce hs := Spent.prune (h.keeps nonce hs)
  fits hlen := (Seen.len_retain_le _ _).trans (h.fits hlen)
  accepts nonce hn := ⟨(h.accepts nonce hn).1, Spent.prune (h.accepts nonce hn).2⟩

/-- A step that begins after some readings of the clock. -/
theorem Sound.earlier {accepted : Option Text} {after : NonceTracker × ℕ} {k' : ℕ} (hk : k ≤ k')
    (h : Sound clock t k' accepted after) : Sound clock t k accepted after where
  keeps nonce hs := h.keeps nonce (hs.mono hk (fun _ => id))
  fits hlen := h.fits hlen
  accepts nonce hn :=
    ⟨fun hs => (h.accepts nonce hn).1 (hs.mono hk (fun _ => id)), (h.accepts nonce hn).2⟩

/-- Recording a nonce that was not spent before. -/
theorem insertNonce_sound {before : NonceTracker} {tokenExpiry k' millis : ℕ}
    (hbefore : Sound clock before k none (t, k')) (hfirst : ¬ Spent clock k before.seen nonce)
    (hseen : t.seen.containsKey nonce = false) (hroom : t.seen.len < t.maxCapacity)
    (hmillis : nonceMillis nonce = .ok millis)
    (hle : millis ≤ 1000*clock.reading k'+nonceFreshnessToleranceMs) :
    Sound clock before k (some nonce) (insertNonce clock t nonce tokenExpiry k') := by
  have hinserted : Sound clock before k (some nonce)
      ({ t with
          seen := t.seen.insert nonce (clock.reading k') tokenExpiry
          checksSincePrune := t.checksSincePrune+1 }, k'+1) := by
    refine ⟨?_, ?_, ?_⟩
    · intro other h
      exact (hbefore.keeps other h).mono (Nat.le_succ k') (fun times => mem_insert_of_mem hseen)
    · intro _
      exact le_trans Seen.len_insert_le hroom
    · intro other hother
      obtain rfl : nonce = other := Option.mem_some.mp hother
      exact ⟨hfirst, millis, hmillis,
        .inl ⟨clock.reading k', tokenExpiry, by simp [Seen.insert], hle⟩⟩
  unfold insertNonce
  dsimp only
  split_ifs
  · exact hinserted.prune
  · exact hinserted

theorem record_sound (tokenExpiry : ℕ) :
    Sound clock t k (acceptedBy (record clock t nonce tokenExpiry k).1 nonce)
      (record clock t nonce tokenExpiry k).2 := by
  unfold record
  split
  · next e k' hcheck =>
    exact .unchanged (checkReplay_le hcheck)
  · next k' hcheck =>
    obtain ⟨rfl, hseen, millis, hmillis, -, hfuture⟩ := checkReplay_ok hcheck
    have hfirst : ¬ Spent clock k t.seen nonce := by
      intro hspent
      exact hspent.not_ok (le_refl k) (congrArg Prod.fst hcheck)
    have hlater {k' : ℕ} (hk : k ≤ k') :
        millis ≤ 1000*clock.reading k'+nonceFreshnessToleranceMs := by
      have := clock.steady hk
      omega
    have hsame : Sound clock t k none (t, k+1) := .unchanged (Nat.le_succ k)
    by_cases hroom : t.maxCapacity ≤ t.seen.len
    · rw [if_pos hroom]
      dsimp only
      by_cases hfull : (prune clock t (k+1)).1.maxCapacity ≤ (prune clock t (k+1)).1.seen.len
      · rw [if_pos hfull]
        exact hsame.prune
      · rw [if_neg hfull]
        have hk : k ≤ (prune clock t (k+1)).2 := by
          change k ≤ k+1+1
          omega
        have hpruned : Sound clock t k none ((prune clock t (k+1)).1, (prune clock t (k+1)).2) :=
          hsame.prune
        dsimp only [acceptedBy]
        exact insertNonce_sound hpruned hfirst (containsKey_retain _ hseen)
          (Nat.lt_of_not_le hfull) hmillis (hlater hk)
    · rw [if_neg hroom]
      exact insertNonce_sound hsame hfirst hseen (Nat.lt_of_not_le hroom) hmillis
        (hlater (Nat.le_succ k))

theorem checkAndRecord_sound (tokenExpiry : ℕ) :
    Sound clock t k (acceptedBy (checkAndRecord clock t nonce tokenExpiry k).1 nonce)
      (checkAndRecord clock t nonce tokenExpiry k).2 := by
  unfold checkAndRecord
  split
  · next e k' hcheck =>
    exact .unchanged (checkReplay_le hcheck)
  · next k' hcheck =>
    exact .earlier (checkReplay_le hcheck) (record_sound tokenExpiry)

theorem reload_sound (hcodec : codec.Lawful) (more : ℕ) :
    Sound clock t k none (step clock codec (.reload more) t k).2 := by
  unfold step toBytes
  cases hbytes : codec.toVec t.contextId t.seen with
  | error e => exact .unchanged (le_refl k)
  | ok data =>
    obtain ⟨seen, hread, hperm⟩ := hcodec.roundTrip _ _ _ hbytes
    have hcap : t.maxCapacity ≤ t.maxCapacity+more := Nat.le_add_right _ _
    simp only [Except.mapError, fromBytesWithCapacity, hread]
    apply Sound.prune
    exact .restored (Nat.le_succ k) hperm hcap

/-- A snapshot of a tracker within its capacity is not truncated. -/
theorem resume_sound (hlen : t.seen.len ≤ t.maxCapacity) (contextId : Text) (more : ℕ) :
    Sound clock t k none (step clock codec (.resume contextId more) t k).2 := by
  have hcap : t.maxCapacity ≤ t.maxCapacity+more := Nat.le_add_right _ _
  have hsound : Sound clock t k none (prune clock
      ⟨snapshotEntries t, contextId, 0, clock.reading k, t.maxCapacity+more⟩ (k+1)) := by
    apply Sound.prune
    exact .restored (Nat.le_succ k) (List.Perm.refl _) hcap
  have hfits : ¬ t.maxCapacity+more < (prune clock
      ⟨snapshotEntries t, contextId, 0, clock.reading k, t.maxCapacity+more⟩ (k+1)).1.seen.len :=
    Nat.not_lt.mpr (hsound.fits hlen)
  unfold step
  dsimp only [fromSnapshotWithCapacity]
  rw [if_neg hfits]
  exact hsound

theorem step_sound (clock : Clock) (k : ℕ) (hcodec : codec.Lawful)
    (hlen : t.seen.len ≤ t.maxCapacity) (call : Call) :
    ∃ accepted, Sound clock t k accepted (step clock codec call t k).2 ∧
      ∀ nonce, call.presents nonce = true → (step clock codec call t k).1.toOption.isSome →
        nonce ∈ accepted := by
  have hpresented {n nonce : Text} {result : Except UcanError Unit} (hn : decide (n = nonce) = true)
      (hok : result.toOption.isSome) : nonce ∈ acceptedBy result n := by
    cases result with
    | error e => cases hok
    | ok _ => exact congrArg some (of_decide_eq_true hn)
  cases call with
  | checkAndRecord n tokenExpiry =>
    exact ⟨_, checkAndRecord_sound tokenExpiry, fun nonce hn hok => hpresented hn hok⟩
  | record n tokenExpiry =>
    exact ⟨_, record_sound tokenExpiry, fun nonce hn hok => hpresented hn hok⟩
  | prune => exact ⟨none, (Sound.unchanged (le_refl k)).prune, nofun⟩
  | reload more => exact ⟨none, reload_sound hcodec more, nofun⟩
  | resume contextId more => exact ⟨none, resume_sound hlen contextId more, nofun⟩

theorem timesAccepted_of_spent (hcodec : codec.Lawful) (calls : List Call)
    (hlen : t.seen.len ≤ t.maxCapacity) (h : Spent clock k t.seen nonce) :
    timesAccepted clock codec nonce calls t k = 0 := by
  induction calls generalizing t k with
  | nil => rfl
  | cons call calls ih =>
    obtain ⟨accepted, hsound, haccepts⟩ := step_sound clock k hcodec hlen call
    rw [timesAccepted, ih (hsound.fits hlen) (hsound.keeps nonce h), Nat.add_zero, if_neg]
    intro hok
    rw [Bool.and_eq_true] at hok
    exact (hsound.accepts nonce (haccepts nonce hok.1 hok.2)).1 h

theorem timesAccepted_le_one (hcodec : codec.Lawful) (calls : List Call)
    (hlen : t.seen.len ≤ t.maxCapacity) : timesAccepted clock codec nonce calls t k ≤ 1 := by
  induction calls generalizing t k with
  | nil => exact Nat.zero_le 1
  | cons call calls ih =>
    obtain ⟨accepted, hsound, haccepts⟩ := step_sound clock k hcodec hlen call
    rw [timesAccepted]
    split_ifs with hok
    · rw [Bool.and_eq_true] at hok
      have hspent := (hsound.accepts nonce (haccepts nonce hok.1 hok.2)).2
      rw [timesAccepted_of_spent hcodec calls (hsound.fits hlen) hspent]
    · rw [Nat.zero_add]
      exact ih (hsound.fits hlen)

theorem run_fits (hcodec : codec.Lawful) (calls : List Call) (hlen : t.seen.len ≤ t.maxCapacity) :
    (run clock codec calls t k).1.seen.len ≤ (run clock codec calls t k).1.maxCapacity := by
  induction calls generalizing t k with
  | nil => exact hlen
  | cons call calls ih =>
    obtain ⟨accepted, hsound, -⟩ := step_sound clock k hcodec hlen call
    exact ih (hsound.fits hlen)

end Spent

/-- Whatever the calls and the expiries they present, no nonce is accepted twice, and the
tracker never holds more entries than its capacity. -/
theorem nonce_accepted_at_most_once (clock : Clock) (codec : Codec) (hcodec : codec.Lawful)
    (t : NonceTracker) (hlen : t.seen.len ≤ t.maxCapacity) (k : ℕ) (calls : List Call) :
    (∀ nonce, timesAccepted clock codec nonce calls t k ≤ 1) ∧
      (run clock codec calls t k).1.seen.len ≤ (run clock codec calls t k).1.maxCapacity :=
  ⟨fun _ => timesAccepted_le_one hcodec calls hlen, run_fits hcodec calls hlen⟩

-- A tracker of capacity one that is serialized with its nonce and read back.

def sampleClock : Clock where
  reading k := min (1700000000+k) (2^64-1)
  steady := by
    intro a b h
    exact min_le_min_right _ (Nat.add_le_add_left h 1700000000)
  fits k := by
    have := min_le_right (1700000000+k) (2^64-1)
    omega

def sampleNonce : Text := "1700000001000-00112233445566778899aabbccddeeff".toList

def sampleSeen : Seen := ⟨[(sampleNonce, 1700000002, 1700003600)], by simp⟩

/-- The serialized form of the one state that the run serializes. -/
def sampleBytes : List UInt8 :=
  ("\x7b\"context_id\":\"c\",\"seen\":\x7b\"1700000001000-00112233445566778899aabbccddeeff\":" ++
    "[1700000002,1700003600]\x7d\x7d").toList.map (fun c => UInt8.ofNat c.toNat)

def sampleCodec : Codec where
  toVec contextId seen :=
    if contextId = ['c'] ∧ seen.entries = sampleSeen.entries then .ok sampleBytes else .error []
  fromSlice data := if data = sampleBytes then .ok (['c'], sampleSeen) else .error []

theorem sampleCodec_lawful : sampleCodec.Lawful where
  roundTrip := by
    intro contextId seen data h
    simp only [sampleCodec] at h
    split_ifs at h with hstate
    cases h
    refine ⟨sampleSeen, ?_, by rw [hstate.2]⟩
    simp only [sampleCodec, hstate.1, if_true]

def sampleCalls : List Call :=
  [.checkAndRecord sampleNonce 1700003600, .record sampleNonce 1800000000, .reload 0,
    .record sampleNonce 0, .resume ['c'] 1, .checkAndRecord sampleNonce 1700003600]

theorem nonce_accepted_at_most_once_sample :
    timesAccepted sampleClock sampleCodec sampleNonce sampleCalls
        (NonceTracker.withMaxCapacity sampleClock ['c'] 1 0).1 1 = 1 ∧
      (∀ nonce, timesAccepted sampleClock sampleCodec nonce sampleCalls
        (NonceTracker.withMaxCapacity sampleClock ['c'] 1 0).1 1 ≤ 1) ∧
      (run sampleClock sampleCodec sampleCalls
          (NonceTracker.withMaxCapacity sampleClock ['c'] 1 0).1 1).1.seen.len ≤
        (run sampleClock sampleCodec sampleCalls
          (NonceTracker.withMaxCapacity sampleClock ['c'] 1 0).1 1).1.maxCapacity := by
  have hmost := nonce_accepted_at_most_once sampleClock sampleCodec sampleCodec_lawful
    (NonceTracker.withMaxCapacity sampleClock ['c'] 1 0).1 (Nat.zero_le 1) 1 sampleCalls
  refine ⟨le_antisymm (hmost.1 sampleNonce) ?_, hmost⟩
  -- The first call is accepted, whatever the later ones do.
  rw [sampleCalls, timesAccepted, if_pos (by decide +kernel)]
  exact Nat.le_add_right 1 _

end ScpCore.Nonces
