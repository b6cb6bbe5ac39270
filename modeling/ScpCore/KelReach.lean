import ScpCore.KelRetentionRun
import ScpCore.KelForkChoice

/-! The retention sets a party can come to hold. Every operation keeps the
invariant of a set, so it holds along every run; an eviction along the way never
changes what fork choice decides. -/

namespace ScpCore.Kel

/-- The sets that operations over valid chains of one identifier lead to. A basis
is confirmed where it wins over the held chains and what was served beside them. -/
inductive Reachable (C : Crypto) (seen : Set Bytes) (identifier : Identifier) :
    RetentionSet → Prop
  | withBounds {basis : RetentionBasis} (bounds : Bounds)
      (hb : ValidIn C seen identifier basis.chain) :
      Reachable C seen identifier (.withBounds basis bounds)
  | admits {s s' : RetentionSet} {candidate : ValidatedChain} {admission : Admission}
      (hs : Reachable C seen identifier s) (hc : ValidIn C seen identifier candidate)
      (h : s.admit_ candidate = (.ok admission, s')) : Reachable C seen identifier s'
  | rerank {s s' : RetentionSet} {basis : RetentionBasis} {report : Rerank}
      (hs : Reachable C seen identifier s) (hb : ValidIn C seen identifier basis.chain)
      (h : s.rerank basis = (.ok report, s')) : Reachable C seen identifier s'
  | afterContest {s s' : RetentionSet} {tiePrefix : ValidatedChain}
      {candidates : List ValidatedChain} {report : Rerank}
      (hs : Reachable C seen identifier s) (ht : ValidIn C seen identifier tiePrefix)
      (hc : ∀ c ∈ candidates, ValidIn C seen identifier c)
      (h : s.afterContest tiePrefix candidates = .ok (report, s')) : Reachable C seen identifier s'
  | confirmAccepted {s : RetentionSet} {served : List ValidatedChain}
      (hs : Reachable C seen identifier s) (hc : ∀ c ∈ served, ValidIn C seen identifier c)
      (h : resolveSet (s.chains ++ served) = .ok (.winner s.basis.chain.headDigest)) :
      Reachable C seen identifier s.confirmAccepted

section Reach
variable {C : Crypto} {seen : Set Bytes} {identifier : Identifier} {s s' : RetentionSet}
  {candidate : ValidatedChain}

theorem Reachable.inv (hcf : CollisionFree C seen) (h : Reachable C seen identifier s) :
    s.Inv (bookOf C seen identifier) ∧ s.Carried := by
  induction h with
  | withBounds bounds hb =>
    refine ⟨inv_of_no_suffix (hb.onBook hcf) (by simp) Nat.zero_lt_one ?_ (by simp), ?_⟩
    · decide
    · simp [RetentionSet.Carried, RetentionSet.withBounds]
  | admits _ hc h ih =>
    obtain ⟨_, _, _, _, hinv, hcarried⟩ := admit_ok ih.1 (hc.onBook hcf) h
    exact ⟨hinv, hcarried⟩
  | rerank _ hb h ih =>
    have hmoves := rerank_ok ih.1 (hb.onBook hcf) h
    refine ⟨hmoves.inv, ?_⟩
    intro p hp
    rw [hmoves.tiePrefix] at hp
    cases hp
  | afterContest _ ht hc h ih =>
    obtain ⟨_, _, _, _, _, _, _, _, _, _, hinv, hcarried⟩ :=
      afterContest_ok ih.1 (ht.onBook hcf) (fun c hcm => (hc c hcm).onBook hcf) h
    exact ⟨hinv, hcarried⟩
  | confirmAccepted _ hc h ih =>
    exact confirmAccepted_ok ih.1 (fun c hcm => (hc c hcm).onBook hcf) h

/-- The candidate went into the set. -/
def Admission.entered : Admission → Bool
  | .retained _ _ | .extended _ _ _ => true
  | .alreadyHeld | .refused _ => false

theorem Admission.entered_ne_refused {admission : Admission} (h : admission.entered = true)
    (rank : ForkRank) : admission ≠ .refused rank := by
  intro he
  rw [he] at h
  cases h

/-- Chains that a placement left decide what the chains before it and the
candidate decide. -/
theorem Places.resolveSet_eq {b : Book} {placed : RetentionSet} {observed : Option ℕ}
    {admission : Admission} (hinv : s.Inv b) (hc : OnBook b candidate)
    (h : Places b s candidate observed admission placed) (hne : ∀ rank, admission ≠ .refused rank)
    (hchains : s'.chains = placed.chains) :
    ∃ r, resolveSet s'.chains = .ok r ∧ resolveSet (s.chains ++ [candidate]) = .ok r := by
  have hbefore : ∀ c ∈ s.chains ++ [candidate], OnBook b c := by
    intro c hcm
    rcases List.mem_append.mp hcm with hcm | hcm
    · exact hinv.onBook.chains c hcm
    · rw [List.mem_singleton.mp hcm]
      exact hc
  obtain ⟨r, hr, _⟩ := Book.resolveSet_ok hbefore
  refine ⟨r, ?_, hr⟩
  rw [hchains, Book.resolveSet_congr (h.onBook hinv.onBook hc).chains hbefore (h.sameTop hne), hr]

/-- Entering a chain, with whatever it evicts, keeps the resolution of the held
chains and the candidate. -/
theorem eviction_keeps_resolution (hcf : CollisionFree C seen)
    (hs : Reachable C seen identifier s) (hc : ValidIn C seen identifier candidate) :
    (∀ observed admission s', s.place candidate observed = .ok (admission, s') →
      admission.entered = true →
      ∃ r, resolveSet s'.chains = .ok r ∧ resolveSet (s.chains ++ [candidate]) = .ok r) ∧
    ∀ admission s', s.admit_ candidate = (.ok admission, s') → admission.entered = true →
      ∃ r, resolveSet s'.chains = .ok r ∧ resolveSet (s.chains ++ [candidate]) = .ok r := by
  have hinv := (hs.inv hcf).1
  have hcb := hc.onBook hcf
  refine ⟨?_, ?_⟩
  · intro observed admission s' hplace hentered
    have hp := place_cases hinv.onBook hcb hplace
    exact hp.resolveSet_eq hinv hcb (Admission.entered_ne_refused hentered) rfl
  · intro admission s' hadmitted hentered
    obtain ⟨placed, tie, hp, rfl, _⟩ := admit_ok hinv hcb hadmitted
    exact hp.resolveSet_eq hinv hcb (Admission.entered_ne_refused hentered) rfl

/-- The events of every suffix past its fork, with the lengths of their units. -/
def RetentionSet.pastForks (s : RetentionSet) : List (Digest × ℕ) :=
  s.suffixes.flatMap (fun x => x.chain.unitLensFrom x.forkPosition)

/-- What a party can rely on in a retention set. -/
structure RetentionSet.WellKept (s : RetentionSet) : Prop where
  /-- No suffix is a prefix of another suffix, nor the same. -/
  apart : s.suffixes.Pairwise (fun x y => ¬ x.chain.eventDigests <+: y.chain.eventDigests ∧
    ¬ y.chain.eventDigests <+: x.chain.eventDigests)
  offBasis : ∀ x ∈ s.suffixes, ¬ x.chain.eventDigests <+: s.basis.chain.eventDigests
  count : s.suffixes.length ≤ s.bounds.suffixes
  bytes : s.retainedBytes ≤ s.bounds.bytes
  /-- The bytes are those of the events past the forks, saturated, each digest once. -/
  union : s.retainedBytes = min (s.pastForks.dedup.map Prod.snd).sum u64Max
  once : (s.pastForks.dedup.map Prod.fst).Nodup
  moments : (s.basisObserved :: s.suffixes.map (·.observed)).Nodup
  before : ∀ m ∈ s.basisObserved :: s.suffixes.map (·.observed), m < s.nextObserved
  extendsTied : ∀ x ∈ s.suffixes, s.basis.kind = .accepted →
    s.basis.chain.eventDigests <+: x.chain.eventDigests → s.tiePrefix.isSome
  tieAccepted : s.tiePrefix.isSome → s.basis.kind = .accepted
  tieCarried : ∀ p ∈ s.tiePrefix, ∃ c ∈ s.chains, p.eventDigests <+: c.eventDigests
  /-- The stored rank and fork position are those a placement would find now. -/
  ranks : ∀ x ∈ s.suffixes, s.rankPlacement x.chain = .ok (some (x.rank, x.forkPosition))

theorem RetentionSet.Inv.pastForks_eq {b : Book} (h : s.Inv b) :
    (s.suffixes.map (·.slot)).flatMap (·.events) = s.pastForks := by
  rw [List.flatMap_map, RetentionSet.pastForks]
  apply List.flatMap_congr
  intro x hx
  exact h.events x hx

/-- Held chains carry one copy of an event, so it has one length. -/
theorem RetentionSet.Inv.pastForks_consistent {b : Book} (h : s.Inv b) :
    OrderedMap.Consistent s.pastForks := by
  have hsource : ∀ e ∈ s.pastForks, ∃ c ∈ s.chains, ∃ event ∈ c.events,
      e = (event.digest, event.unit.length) := by
    intro e he
    obtain ⟨x, hx, hxe⟩ := List.mem_flatMap.mp he
    obtain ⟨event, hevent, rfl⟩ := List.mem_map.mp hxe
    exact ⟨x.chain, List.mem_cons_of_mem _ (List.mem_map.mpr ⟨x, hx, rfl⟩), event,
      (List.mem_filter.mp hevent).1, rfl⟩
  intro e he f hf hd
  obtain ⟨c, hc, event, hevent, rfl⟩ := hsource e he
  obtain ⟨d, hd', event', hevent', rfl⟩ := hsource f hf
  rw [Prod.mk.injEq]
  refine ⟨hd, ?_⟩
  rw [h.copies c hc d hd' event hevent event' hevent' hd]

/-- The bytes a set counts are those of the events past the forks, each once. -/
theorem RetentionSet.Inv.retainedBytes_eq {b : Book} (h : s.Inv b) :
    s.retainedBytes = unionLen s.pastForks := by
  have hcons : OrderedMap.Consistent ((s.suffixes.map (·.slot)).flatMap (·.events)) := by
    rw [h.pastForks_eq]
    exact h.pastForks_consistent
  have hunion := unionBytes_eq hcons
  rwa [h.pastForks_eq] at hunion

/-- A suffix's fork position counts the events it shares with the basis. -/
theorem RetentionSet.Inv.forkPosition_eq {b : Book} (h : s.Inv b) {x : RetainedSuffix}
    (hx : x ∈ s.suffixes) :
    x.forkPosition = sharedLen x.chain.eventDigests s.basis.chain.eventDigests := by
  have hranks := h.ranks x hx
  rw [rankPlacement_eq h.onBook (h.onBook.suffixes x hx)] at hranks
  rcases placement_ok hranks with ⟨hnone, -⟩ | ⟨rank, hsome, -, -⟩
  · cases hnone
  · exact (Prod.mk.inj (Option.some.inj hsome)).2

theorem RetentionSet.Inv.wellKept {b : Book} (h : s.Inv b) (hcarried : s.Carried) :
    s.WellKept where
  apart := h.apart
  offBasis := h.offBasis
  count := h.count
  bytes := h.bytes
  union := h.retainedBytes_eq
  once := by
    have hnodup := List.nodup_dedup s.pastForks
    apply List.Nodup.map_on _ hnodup
    intro e he f hf hd
    exact h.pastForks_consistent e (List.mem_dedup.mp he) f (List.mem_dedup.mp hf) hd
  moments := h.moments
  before := h.before
  extendsTied := by
    intro x hx hk hext
    have hranks := h.ranks x hx
    rw [rankPlacement_eq h.onBook (h.onBook.suffixes x hx)] at hranks
    rcases placement_ok hranks with ⟨hnone, _⟩ | ⟨_, _, _, htie⟩
    · cases hnone
    · exact htie hk hext
  tieAccepted := h.kind
  tieCarried := hcarried
  ranks := h.ranks

/-- Every reachable set is well kept, and a failed operation leaves it as it was. -/
theorem reachable_wellKept (hcf : CollisionFree C seen) (hs : Reachable C seen identifier s) :
    s.WellKept ∧
    (∀ candidate error s', ValidIn C seen identifier candidate →
      s.admit_ candidate = (.error error, s') → s' = s) ∧
    ∀ basis error s', s.rerank basis = (.error error, s') → s' = s := by
  obtain ⟨hinv, hcarried⟩ := hs.inv hcf
  refine ⟨hinv.wellKept hcarried, ?_, ?_⟩
  · intro candidate error s' hc h
    exact admit_error hinv (hc.onBook hcf) h
  · intro basis error s' h
    exact rerank_error h

end Reach

-- The first recovery accepted with room for one suffix, and the key state held beside it.

def sampleFork : RetentionSet :=
  .withBounds (.accepted (sampleChain.push sampleCrypto sampleRecovered)) ⟨1, 536870912⟩

def sampleForkOne : RetentionSet :=
  (sampleFork.admit_ (sampleChain.push sampleCrypto sampleState)).2

theorem sampleFork_reachable : Reachable sampleCrypto sampleSeen sampleIdentifier sampleFork := by
  have hb : ValidIn sampleCrypto sampleSeen sampleIdentifier
      (RetentionBasis.accepted (sampleChain.push sampleCrypto sampleRecovered)).chain :=
    sample_validIn (sampleChain.push sampleCrypto sampleRecovered) (by simp)
  exact .withBounds _ hb

theorem sampleFork_admits :
    sampleFork.admit_ (sampleChain.push sampleCrypto sampleState) =
      (.ok (.retained .rank3 []), sampleForkOne) := by
  have h : (sampleFork.admit_ (sampleChain.push sampleCrypto sampleState)).1 =
      .ok (.retained .rank3 []) := by
    decide +kernel
  rw [← h, sampleForkOne]

theorem sampleForkOne_reachable :
    Reachable sampleCrypto sampleSeen sampleIdentifier sampleForkOne :=
  .admits sampleFork_reachable sampleState_validIn sampleFork_admits

/-- The rival recovery evicts the key state, which the accepted one beats, and the chains left
tie as all three did. -/
theorem eviction_keeps_resolution_sample :
    ∃ s', sampleForkOne.admit_ (sampleChain.push sampleCrypto sampleRival) =
        (.ok (.retained .rank1 [sampleState.event.digest]), s') ∧
      ∃ r, resolveSet s'.chains = .ok r ∧
        resolveSet (sampleForkOne.chains ++ [sampleChain.push sampleCrypto sampleRival]) = .ok r := by
  have h : (sampleForkOne.admit_ (sampleChain.push sampleCrypto sampleRival)).1 =
      .ok (.retained .rank1 [sampleState.event.digest]) := by
    decide +kernel
  have hadmitted : sampleForkOne.admit_ (sampleChain.push sampleCrypto sampleRival) =
      (.ok (.retained .rank1 [sampleState.event.digest]),
        (sampleForkOne.admit_ (sampleChain.push sampleCrypto sampleRival)).2) := by
    rw [← h]
  have hkeep := (eviction_keeps_resolution sample_collisionFree sampleForkOne_reachable
    (sample_validIn _ (by simp))).2 _ _ hadmitted
  exact ⟨_, hadmitted, hkeep (by decide)⟩

theorem reachable_wellKept_sample : sampleForkOne.WellKept ∧ sampleForkOne.suffixes.length = 1 := by
  refine ⟨(reachable_wellKept sample_collisionFree sampleForkOne_reachable).1, ?_⟩
  decide +kernel

end ScpCore.Kel
