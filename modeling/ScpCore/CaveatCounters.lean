import ScpCore.SlidingWindow
import ScpCore.Caveats
import ScpCore.Saturating

/-! The counters behind the value caveats. A rate window counts the calls of the last
`windowSecs` seconds, so a shorter window is the weaker bound; the attenuation rule
has it the other way round. -/

namespace ScpCore.Caveats

inductive CaveatKind
  | maxCalls | amountCumulative | rateWindow
  deriving DecidableEq

inductive CounterExhausted
  | maxCalls (wouldBe cap : ℕ)
  | amountCumulative (wouldBe cap : ℕ)
  | rateWindow (inWindow cap windowSecs : ℕ)
  deriving DecidableEq

structure CaveatCounters where
  maxCallsUsed : ℕ
  amountCumulativeUsed : ℕ
  rateWindowTimestamps : List ℕ
  deriving DecidableEq

/-- The timestamps are in ascending order, so the expired ones come first. -/
def pruneExpiredWindowEntries (timestamps : List ℕ) (now windowSecs : ℕ) : List ℕ :=
  timestamps.dropWhile (· ≤ now-windowSecs)

namespace CaveatCounters
variable (counters : CaveatCounters)

def empty : CaveatCounters := ⟨0, 0, []⟩

/-- The result, and the counters after it: a refused call has still pruned. -/
def tryConsume (kind : CaveatKind) (amount cap windowSecs now : ℕ) :
    Except CounterExhausted Unit × CaveatCounters :=
  match kind with
  | .maxCalls =>
    let wouldBe := saturatingAdd counters.maxCallsUsed 1
    if cap < wouldBe then (.error (.maxCalls wouldBe cap), counters)
    else (.ok (), { counters with maxCallsUsed := wouldBe })
  | .amountCumulative =>
    let wouldBe := saturatingAdd counters.amountCumulativeUsed amount
    if cap < wouldBe then (.error (.amountCumulative wouldBe cap), counters)
    else (.ok (), { counters with amountCumulativeUsed := wouldBe })
  | .rateWindow =>
    let kept := pruneExpiredWindowEntries counters.rateWindowTimestamps now windowSecs
    if cap ≤ kept.length then
      (.error (.rateWindow kept.length cap windowSecs), { counters with rateWindowTimestamps := kept })
    else (.ok (), { counters with rateWindowTimestamps := kept ++ [now] })

/-- Every call of a sequence is admitted under the rate window. -/
def admitsAll (rate : RateWindow) : CaveatCounters → List ℕ → Bool
  | _, [] => true
  | counters, now :: times =>
    let step := counters.tryConsume .rateWindow 0 rate.max.toNat rate.windowSecs.toNat now
    step.1.toOption.isSome && admitsAll rate step.2 times

end CaveatCounters

section Run
variable {rate : RateWindow}

theorem pruneExpired_eq {timestamps : List ℕ} (h : timestamps.Pairwise (· ≤ ·))
    (now windowSecs : ℕ) : pruneExpiredWindowEntries timestamps now windowSecs =
      timestamps.filter (fun s => now-windowSecs < s) := by
  unfold pruneExpiredWindowEntries
  induction timestamps with
  | nil => rfl
  | cons t timestamps ih =>
    rw [List.pairwise_cons] at h
    by_cases hle : t ≤ now-windowSecs
    · rw [List.dropWhile_cons_of_pos (by simpa using hle), ih h.2,
        List.filter_cons_of_neg (by simpa using hle)]
    · rw [List.dropWhile_cons_of_neg (by simpa using hle),
        List.filter_cons_of_pos (by simpa using hle), List.filter_eq_self.mpr]
      intro s hs
      have hts := h.1 s hs
      rw [decide_eq_true_eq]
      omega

/-- The timestamps kept are the calls so far that a later cutoff still counts. -/
structure Records (timestamps past : List ℕ) (cutoff : ℕ) : Prop where
  sorted : timestamps.Pairwise (· ≤ ·)
  counted : ∀ later, cutoff ≤ later →
    timestamps.filter (fun s => later < s) = past.filter (fun s => later < s)

theorem admitsAll_iff {counters : CaveatCounters} {past times : List ℕ} {cutoff : ℕ}
    (h : Records counters.rateWindowTimestamps past cutoff)
    (hspaced : Spaced rate.max.toNat rate.windowSecs.toNat past)
    (hsorted : (past ++ times).Pairwise (· ≤ ·))
    (hcutoff : ∀ t ∈ times, cutoff ≤ t-rate.windowSecs.toNat) :
    counters.admitsAll rate times = true ↔
      Spaced rate.max.toNat rate.windowSecs.toNat (past ++ times) := by
  -- The record only has to count the calls of the windows still to come.
  induction times generalizing counters past cutoff with
  | nil => simpa [CaveatCounters.admitsAll] using hspaced
  | cons now times ih =>
    have hkept : pruneExpiredWindowEntries counters.rateWindowTimestamps now
        rate.windowSecs.toNat = past.filter (fun s => now-rate.windowSecs.toNat < s) := by
      rw [pruneExpired_eq h.sorted, h.counted _ (hcutoff now List.mem_cons_self)]
    have hcount : (past.filter (fun s => now-rate.windowSecs.toNat < s)).length =
        past.countP (fun s => now-rate.windowSecs.toNat < s) := List.countP_eq_length_filter.symm
    have hassoc : past ++ now :: times = (past ++ [now]) ++ times := by simp
    rw [CaveatCounters.admitsAll, CaveatCounters.tryConsume, hkept, hcount, hassoc]
    by_cases hfull : rate.max.toNat ≤ past.countP (fun s => now-rate.windowSecs.toNat < s)
    · -- A call over the limit is refused, and no continuation is spaced.
      rw [if_pos hfull]
      refine ⟨nofun, ?_⟩
      intro hall
      have hnow := (Spaced.snoc_iff.mp hall.of_append).2
      omega
    · rw [if_neg hfull]
      rw [hassoc] at hsorted
      have hpast := (List.pairwise_append.mp hsorted).1
      have hnext : ∀ t ∈ times, now ≤ t := by
        intro t ht
        exact (List.pairwise_append.mp hsorted).2.2 now (by simp) t ht
      have hrec : Records (past.filter (fun s => now-rate.windowSecs.toNat < s) ++ [now])
          (past ++ [now]) (now-rate.windowSecs.toNat) := by
        refine ⟨?_, ?_⟩
        · exact hpast.sublist (List.Sublist.append List.filter_sublist (List.Sublist.refl _))
        · intro later hlater
          rw [List.filter_append, List.filter_append, List.filter_filter]
          congr 1
          apply List.filter_congr
          intro s _
          rw [Bool.eq_iff_iff, Bool.and_eq_true, decide_eq_true_eq, decide_eq_true_eq]
          omega
      have hlater : ∀ t ∈ times, now-rate.windowSecs.toNat ≤ t-rate.windowSecs.toNat := by
        intro t ht
        have := hnext t ht
        omega
      change CaveatCounters.admitsAll rate ⟨_, _, _⟩ times = true ↔ _
      exact ih hrec (Spaced.snoc_iff.mpr ⟨hspaced, by omega⟩) hsorted hlater

/-- From an empty record the admitted sequences are the spaced ones. -/
theorem admitsAll_empty_iff {times : List ℕ} (hsorted : times.Pairwise (· ≤ ·)) :
    CaveatCounters.empty.admitsAll rate times = true ↔
      Spaced rate.max.toNat rate.windowSecs.toNat times := by
  have hrec : Records CaveatCounters.empty.rateWindowTimestamps [] 0 :=
    ⟨List.Pairwise.nil, fun later _ => rfl⟩
  exact admitsAll_iff hrec Spaced.nil hsorted (fun t _ => Nat.zero_le _)

end Run

/-- Call times in order, none of them before either window has run. -/
structure CallTimes (p c : RateWindow) (times : List ℕ) : Prop where
  sorted : times.Pairwise (· ≤ ·)
  late : ∀ t ∈ times, p.windowSecs.toNat ≤ t ∧ c.windowSecs.toNat ≤ t
  clock : ∀ t ∈ times, t < 2^64

/-- Whatever the child's window admits, the parent's does. -/
def RateNarrows (p c : RateWindow) : Prop :=
  ∀ times, CallTimes p c times → CaveatCounters.empty.admitsAll c times = true →
    CaveatCounters.empty.admitsAll p times = true

/-- A rate window that passes attenuation narrows exactly where the parent's window
fits in as many of the child's as the child's count goes into the parent's. -/
theorem rate_window_narrows_iff {parent child : InvocationCaveats} {p c : RateWindow}
    (hp : parent.rateWindow = some p) (hc : child.rateWindow = some c)
    (h : parent.narrow child = .ok ()) :
    RateNarrows p c ↔
      c.max = 0 ∨ p.windowSecs.toNat ≤ p.max.toNat/c.max.toNat*c.windowSecs.toNat := by
  have hrule : c.max.toNat ≤ p.max.toNat ∧ c.windowSecs.toNat ≤ p.windowSecs.toNat := by
    obtain ⟨c', hc', hboth⟩ := narrowField_ok (narrow_ok h).rateWindow hp
    rw [hc, Option.some.injEq] at hc'
    subst hc'
    simpa [UInt32.le_iff_toNat_le] using hboth
  constructor
  · intro hnarrows
    by_contra hnot
    rw [not_or] at hnot
    have hm : 0 < c.max.toNat := by
      apply Nat.pos_of_ne_zero
      intro hzero
      exact hnot.1 (UInt32.toNat_inj.mp hzero)
    have hW : p.max.toNat/c.max.toNat*c.windowSecs.toNat < p.windowSecs.toNat := by omega
    -- The densest calls the child admits, started once both windows have run.
    have htimes : CallTimes p c (packed c.max.toNat c.windowSecs.toNat p.windowSecs.toNat
        (p.max.toNat+1)) := by
      refine ⟨packed_sorted, ?_, ?_⟩
      · intro t ht
        have := (mem_packed ht).1
        omega
      · intro t ht
        have hlast := (mem_packed ht).2
        have hbound := p.windowSecs.toNat_lt
        omega
    have hadmits := hnarrows _ htimes ((admitsAll_empty_iff htimes.sorted).mpr (packed_spaced hm))
    exact packed_not_spaced hW le_rfl ((admitsAll_empty_iff htimes.sorted).mp hadmits)
  · intro hfits times htimes hadmits
    rw [admitsAll_empty_iff htimes.sorted] at hadmits ⊢
    rcases hfits with hzero | hfits
    · -- A child that admits no call admits only the empty sequence.
      cases times with
      | nil => exact Spaced.nil
      | cons t times =>
        have hnone := hadmits [] t times rfl
        rw [hzero] at hnone
        exact absurd hnone (Nat.not_lt_zero _)
    · by_cases hempty : times = []
      · rw [hempty]
        exact Spaced.nil
      · have hpos : 0 < p.max.toNat := by
          obtain ⟨t, rest, rfl⟩ := List.exists_cons_of_ne_nil hempty
          have hsome := hadmits [] t rest rfl
          omega
        exact hadmits.widen htimes.sorted (Nat.div_mul_le_self _ _) hpos hfits
          (fun t ht => (htimes.late t ht).2)

-- A window of a minute narrowed to ten seconds, and to one call a minute.

/-- Caveats of an action with a rate window and nothing else. -/
def rated (max windowSecs : UInt32) : InvocationCaveats :=
  { InvocationCaveats.empty with
    rateWindow := some ⟨max, windowSecs⟩
    originKind := some .action }

theorem rate_window_narrows_iff_sample : RateNarrows ⟨2, 60⟩ ⟨1, 30⟩ := by
  have ok : (rated 2 60).narrow (rated 1 30) = .ok () := by decide +kernel
  exact (rate_window_narrows_iff rfl rfl ok).mpr (Or.inr (by decide +kernel))

/-- Calls at seconds 100 and 120 pass one call every ten seconds, which attenuation
takes for narrower than one call a minute. -/
theorem shorter_window_admits_more :
    (rated 1 60).narrow (rated 1 10) = .ok () ∧
    CallTimes ⟨1, 60⟩ ⟨1, 10⟩ [100, 120] ∧
    CaveatCounters.empty.admitsAll ⟨1, 10⟩ [100, 120] = true ∧
    CaveatCounters.empty.admitsAll ⟨1, 60⟩ [100, 120] = false ∧
    ¬ RateNarrows ⟨1, 60⟩ ⟨1, 10⟩ := by
  have htimes : CallTimes ⟨1, 60⟩ ⟨1, 10⟩ [100, 120] :=
    ⟨by decide, by decide +kernel, by decide +kernel⟩
  have hchild : CaveatCounters.empty.admitsAll ⟨1, 10⟩ [100, 120] = true := by decide +kernel
  have hparent : CaveatCounters.empty.admitsAll ⟨1, 60⟩ [100, 120] = false := by decide +kernel
  refine ⟨by decide +kernel, htimes, hchild, hparent, ?_⟩
  intro hnarrows
  have hadmits := hnarrows [100, 120] htimes hchild
  rw [hparent] at hadmits
  cases hadmits

end ScpCore.Caveats
