import ScpCore.KelResolve
import ScpCore.KelWorld

/-! Fork choice over valid chains of one identifier: the resolution always
decides, reads its list as a set up to prefixes, and names exactly the chains
that no listed chain beats. -/

namespace ScpCore.Kel

/-- `c` beats `d` in their pairwise comparison. -/
def ValidatedChain.Beats (c d : ValidatedChain) : Prop :=
  ∃ divergence, pairChains c d = .ok (.diverged divergence) ∧
    divergence.ranks.1.beats divergence.ranks.2 = true

theorem OnBook.beats_iff {b : Book} {c d : ValidatedChain} (hc : OnBook b c) (hd : OnBook b d) :
    c.Beats d ↔ ScpCore.Beats b.label c.eventDigests d.eventDigests := by
  unfold ValidatedChain.Beats
  rw [hc.pairChains_eq hd]
  obtain ⟨hpair, he⟩ | ⟨hpair, hp, hne⟩ | ⟨hpair, hp, hne⟩ | ⟨hpair, h₁, h₂⟩ :=
    Book.pairing_cases b c.eventDigests d.eventDigests
  · rw [hpair]
    simp [ScpCore.Beats, he]
  · simp [hpair, ScpCore.Beats, hp]
  · simp [hpair, ScpCore.Beats, hp]
  · simp only [hpair, Except.ok.injEq, ChainPairing.diverged.injEq, ForkRank.beats_iff,
      ScpCore.Beats, h₁, h₂, not_false_eq_true, true_and, exists_eq_left']
    rfl

namespace Book
variable {b : Book} {chains : List ValidatedChain}

/-- Chains that lie on listed chains change nothing the branches decide. -/
theorem branches_sameTop {extra chains' : List ValidatedChain}
    (hextra : ∀ p ∈ extra, ∃ c ∈ chains, p.eventDigests <+: c.eventDigests)
    (hperm : chains'.Perm (extra ++ chains)) :
    SameTop (b.branches chains') (b.branches chains) := by
  constructor
  · intro x hx
    obtain ⟨c, hc, rfl⟩ := hx
    rcases List.mem_append.mp (hperm.mem_iff.mp hc) with hc | hc
    · obtain ⟨d, hd, hp⟩ := hextra c hc
      exact ⟨b.branch d, mem_branches hd, Branch.le_of_prefix hp⟩
    · exact ⟨b.branch c, mem_branches hc, le_rfl⟩
  · intro x hx
    obtain ⟨c, hc, rfl⟩ := hx
    have hc' : c ∈ chains' := hperm.mem_iff.mpr (List.mem_append_right _ hc)
    exact ⟨b.branch c, mem_branches hc', le_rfl⟩

/-- The only maximal branch beats every branch that is no prefix of it. -/
theorem winner_spec (h : ∀ c ∈ chains, OnBook b c) {head : Digest}
    (hr : b.Resolves (b.branches chains) (.winner head)) :
    ∃ w ∈ chains, w.headDigest = head ∧
      ∀ c ∈ chains, ¬ c.eventDigests <+: w.eventDigests → w.Beats c := by
  obtain ⟨m, hm, hhead⟩ := hr
  obtain ⟨w, hw, rfl⟩ := ((hm m).mpr rfl).prop
  rw [branch_elements, w.headDigest_eq, Option.some.injEq] at hhead
  refine ⟨w, hw, hhead, ?_⟩
  intro c hc hp
  obtain ⟨x, hle, hx⟩ := (branches_finite chains).exists_le_maximal (mem_branches (b := b) hc)
  rw [(hm x).mp hx] at hle
  exact ((h w hw).beats_iff (h c hc)).mpr (Branch.beats_of_le hle hp)

/-- The tied heads are those of unbeaten chains, and one of them beats every
chain that is neither tied nor a proper prefix of a listed chain. -/
theorem tie_spec (h : ∀ c ∈ chains, OnBook b c) {tieClass : TieClass} {heads : List Digest}
    {sharedPrefixHead : Digest} {forkPosition : ℕ}
    (hr : b.Resolves (b.branches chains) (.tie tieClass heads sharedPrefixHead forkPosition)) :
    2 ≤ heads.length ∧
    (∀ head ∈ heads, ∃ t ∈ chains, t.headDigest = head ∧ ∀ c ∈ chains, ¬ c.Beats t) ∧
    ∀ c ∈ chains, c.headDigest ∉ heads →
      (∀ d ∈ chains, c.eventDigests <+: d.eventDigests → d.eventDigests = c.eventDigests) →
      ∃ t ∈ chains, t.headDigest ∈ heads ∧ t.Beats c := by
  obtain ⟨hlen, _, hmem, _⟩ := hr
  refine ⟨hlen, ?_, ?_⟩
  · intro head hhead
    obtain ⟨m, hm, hlast⟩ := (hmem head).mp hhead
    obtain ⟨t, ht, rfl⟩ := hm.prop
    rw [branch_elements, t.headDigest_eq, Option.some.injEq] at hlast
    refine ⟨t, ht, hlast, ?_⟩
    intro c hc hb
    have hlt : b.branch t < b.branch c := Branch.lt_of_beats (((h c hc).beats_iff (h t ht)).mp hb)
    exact absurd (hm.le_of_ge (mem_branches hc) hlt.le) (not_le_of_gt hlt)
  · intro c hc hnot hlong
    obtain ⟨x, hle, hx⟩ := (branches_finite chains).exists_le_maximal (mem_branches (b := b) hc)
    obtain ⟨t, ht, rfl⟩ := hx.prop
    have htied : t.headDigest ∈ heads := (hmem _).mpr ⟨b.branch t, hx, t.headDigest_eq⟩
    refine ⟨t, ht, htied, ((h t ht).beats_iff (h c hc)).mpr (Branch.beats_of_le hle ?_)⟩
    -- A chain on `t` that no listed chain extends would be `t` itself.
    intro hp
    have he : t.eventDigests = c.eventDigests := hlong t ht hp
    have hd := t.headDigest_eq
    rw [he, c.headDigest_eq, Option.some.injEq] at hd
    exact hnot (hd ▸ htied)

end Book

variable {C : Crypto} {seen : Set Bytes} {identifier : Identifier}

/-- Fork choice over valid chains of one identifier is total, reads its list as
a set up to prefixes, and decides by the pairwise comparisons. -/
theorem fork_choice_total_order_free (hcf : CollisionFree C seen) {chains : List ValidatedChain}
    (hne : chains ≠ []) (hv : ∀ c ∈ chains, ValidIn C seen identifier c) :
    (∃ r, resolveSet chains = .ok r ∧ r ≠ .empty) ∧
    (∀ extra chains' : List ValidatedChain,
      (∀ p ∈ extra, ValidIn C seen identifier p ∧
        ∃ c ∈ chains, p.eventDigests <+: c.eventDigests) →
      chains'.Perm (extra ++ chains) → resolveSet chains' = resolveSet chains) ∧
    (∀ head, resolveSet chains = .ok (.winner head) →
      ∃ w ∈ chains, w.headDigest = head ∧
        ∀ c ∈ chains, ¬ c.eventDigests <+: w.eventDigests → w.Beats c) ∧
    ∀ tieClass heads sharedPrefixHead forkPosition,
      resolveSet chains = .ok (.tie tieClass heads sharedPrefixHead forkPosition) →
      2 ≤ heads.length ∧
      (∀ head ∈ heads, ∃ t ∈ chains, t.headDigest = head ∧ ∀ c ∈ chains, ¬ c.Beats t) ∧
      ∀ c ∈ chains, c.headDigest ∉ heads →
        (∀ d ∈ chains, c.eventDigests <+: d.eventDigests → d.eventDigests = c.eventDigests) →
        ∃ t ∈ chains, t.headDigest ∈ heads ∧ t.Beats c := by
  have hb : ∀ c ∈ chains, OnBook (bookOf C seen identifier) c := fun c hc => (hv c hc).onBook hcf
  refine ⟨?_, ?_, ?_, ?_⟩
  · obtain ⟨r, hok, hres⟩ := Book.resolveSet_ok hb
    refine ⟨r, hok, ?_⟩
    intro he
    obtain ⟨c, hc⟩ := List.exists_mem_of_ne_nil chains hne
    have hmem := Book.mem_branches (b := bookOf C seen identifier) hc
    rw [he] at hres
    rw [show Book.branches _ chains = ∅ from hres] at hmem
    exact hmem
  · intro extra chains' hextra hperm
    have hb' : ∀ c ∈ chains', OnBook (bookOf C seen identifier) c := by
      intro c hc
      rcases List.mem_append.mp (hperm.mem_iff.mp hc) with hc | hc
      · exact (hextra c hc).1.onBook hcf
      · exact hb c hc
    exact Book.resolveSet_congr hb' hb (Book.branches_sameTop (fun p hp => (hextra p hp).2) hperm)
  · intro head hw
    exact Book.winner_spec hb ((Book.resolveSet_eq_iff hb _).mp hw)
  · intro tieClass heads sharedPrefixHead forkPosition ht
    exact Book.tie_spec hb ((Book.resolveSet_eq_iff hb _).mp ht)

-- A tie of two recoveries of one inception, each co-signed by the root.

def sampleRival : Accepted :=
  okGet (checkSuccessor sampleCrypto sampleChain (sampleUnit (sampleRecovery 6 7) 3) .signed)
    (by decide +kernel)

/-- A change of the witnessing interval, signed by the standing root. -/
def sampleStateAfter (before : EventPreimage) (interval : U32) : EventPreimage where
  kind := .keyState
  identifier := sampleIdentifier
  sequence := before.sequence+1
  predecessorDigest := eventDigestOf sampleCrypto (fieldsOut before)
  standingRoot := none
  signerGroups := [⟨[0], [.raw]⟩]
  revealedKeys := []
  installedRootSet := none
  keyState := some (sampleSnapshot
    [sampleEntry 1 .rootMember .current, sampleEntry 2 .active .current] interval)
  seals := []
  continuation := none

def sampleState : Accepted :=
  okGet (checkSuccessor sampleCrypto sampleChain (sampleUnit (sampleStateAfter sampleInception 301) 1)
    .signed) (by decide +kernel)

def samplePreimages : List Bytes :=
  [sampleAccepted.preimage, sampleRecovered.preimage, sampleRival.preimage, sampleState.preimage]

def sampleSeen : Set Bytes := {x | x ∈ samplePreimages}

theorem sample_collisionFree : CollisionFree sampleCrypto sampleSeen := by
  have hd : ∀ x ∈ samplePreimages, ∀ y ∈ samplePreimages,
      (sampleCrypto.sha256 x = sampleCrypto.sha256 y → x = y) ∧
      (sampleCrypto.sha256 (kelIdSeparator ++ x) = sampleCrypto.sha256 (kelIdSeparator ++ y) →
        x = y) := by
    decide +kernel
  exact ⟨fun x hx y hy => (hd x hx y hy).1, fun x hx y hy => (hd x hx y hy).2⟩

theorem sample_validIn : ∀ c ∈ [sampleChain, sampleChain.push sampleCrypto sampleRecovered,
    sampleChain.push sampleCrypto sampleRival],
    ValidIn sampleCrypto sampleSeen sampleIdentifier c := by
  intro c hc
  simp only [List.mem_cons, List.not_mem_nil, or_false] at hc
  rcases hc with rfl | rfl | rfl
  · exact ⟨_, sample_builds, by simp [sampleSeen, samplePreimages]⟩
  · exact ⟨_, sampleRecovered_builds, by simp [sampleSeen, samplePreimages]⟩
  · exact ⟨_, .push sample_builds (by decide) (eq_okGet _ _), by simp [sampleSeen, samplePreimages]⟩

theorem sampleState_validIn :
    ValidIn sampleCrypto sampleSeen sampleIdentifier (sampleChain.push sampleCrypto sampleState) :=
  ⟨_, .push sample_builds (by decide) (eq_okGet _ _), by simp [sampleSeen, samplePreimages]⟩

/-- The theorem at the inception and its two recoveries, which tie. -/
theorem fork_choice_total_order_free_sample :
    ∃ r, resolveSet [sampleChain, sampleChain.push sampleCrypto sampleRecovered,
      sampleChain.push sampleCrypto sampleRival] = .ok r ∧ r ≠ .empty :=
  (fork_choice_total_order_free sample_collisionFree (by simp) sample_validIn).1

end ScpCore.Kel
