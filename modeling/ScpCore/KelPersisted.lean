import ScpCore.KelHolder

/-! A retention set as its owner persists it: one unit for each event digest, and the
heads and moments of the chains. The chains in the copies that are persisted are a
family of valid chains, so the units validate to them again. -/

namespace ScpCore.Kel

structure PersistedBasis where
  kind : BasisKind
  head : Digest
  observed : ℕ
  tiePrefix : Option Digest
  deriving DecidableEq

structure PersistedSuffix where
  head : Digest
  observed : ℕ
  deriving DecidableEq

structure PersistedRetention where
  basis : PersistedBasis
  units : List Bytes
  suffixes : List PersistedSuffix
  deriving DecidableEq

/-- Every event's digest with the unit that carried it. -/
def ValidatedChain.digestUnits (c : ValidatedChain) : List (Digest × Bytes) :=
  c.events.map (fun e => (e.digest, e.unit))

/-- The unit listed first for each digest that is not among `seen`. -/
def firstUnits : List Digest → List (Digest × Bytes) → List Bytes
  | _, [] => []
  | seen, (digest, unit) :: rest =>
    if digest ∈ seen then firstUnits seen rest else unit :: firstUnits (digest :: seen) rest

namespace RetentionSet
variable (s : RetentionSet)

/-- The suffixes, earliest first. -/
def ordered : List RetainedSuffix := s.suffixes.insertionSort (fun x y => x.observed ≤ y.observed)

/-- The chains whose units are persisted, in the order their copies count. -/
def persistedChains : List ValidatedChain :=
  s.basis.chain :: (s.tiePrefix.toList ++ s.ordered.map (·.chain))

def persisted : PersistedRetention where
  basis := ⟨s.basis.kind, s.basis.chain.headDigest, s.basisObserved,
    s.tiePrefix.map ValidatedChain.headDigest⟩
  units := firstUnits [] (s.persistedChains.flatMap ValidatedChain.digestUnits)
  suffixes := s.ordered.map (fun x => ⟨x.head, x.observed⟩)

/-- A chain in the copies that are persisted. -/
def persistedCopy (c : ValidatedChain) : ValidatedChain :=
  s.persistedChains.foldr ValidatedChain.extendedBy c

/-- The bytes past the forks in the copies that are persisted. -/
def persistedBytes : ℕ :=
  unionLen (s.suffixes.flatMap (fun x => (s.persistedCopy x.chain).unitLensFrom x.forkPosition))

end RetentionSet

section FirstUnits

/-- The unit listed first for a digest. -/
def unitFor (pairs : List (Digest × Bytes)) (digest : Digest) : Option Bytes :=
  (pairs.find? (fun p => p.1 = digest)).map Prod.snd

theorem mem_firstUnits {seen : List Digest} {pairs : List (Digest × Bytes)} {u : Bytes} :
    u ∈ firstUnits seen pairs ↔ ∃ digest, digest ∉ seen ∧ unitFor pairs digest = some u := by
  induction pairs generalizing seen with
  | nil => simp [firstUnits, unitFor]
  | cons p pairs ih =>
    obtain ⟨digest, unit⟩ := p
    have hhead (d : Digest) : unitFor ((digest, unit) :: pairs) d =
        if digest = d then some unit else unitFor pairs d := by
      by_cases hd : digest = d <;> simp [unitFor, hd]
    simp only [hhead]
    unfold firstUnits
    -- A digest met before is passed over, so its unit is the earlier one.
    by_cases hseen : digest ∈ seen
    · have hne (d : Digest) (hd : d ∉ seen) : digest ≠ d := by
        intro heq
        rw [heq] at hseen
        exact hd hseen
      rw [if_pos hseen, ih]
      constructor
      · intro h
        obtain ⟨d, hd, hu⟩ := h
        exact ⟨d, hd, by rwa [if_neg (hne d hd)]⟩
      · intro h
        obtain ⟨d, hd, hu⟩ := h
        exact ⟨d, hd, by rwa [if_neg (hne d hd)] at hu⟩
    · rw [if_neg hseen, List.mem_cons, ih]
      constructor
      · intro h
        rcases h with rfl | ⟨d, hd, hu⟩
        · exact ⟨digest, hseen, if_pos rfl⟩
        · rw [List.mem_cons, not_or] at hd
          exact ⟨d, hd.2, by rwa [if_neg (Ne.symm hd.1)]⟩
      · intro h
        obtain ⟨d, hd, hu⟩ := h
        by_cases heq : digest = d
        · rw [if_pos heq, Option.some.injEq] at hu
          exact .inl hu.symm
        · rw [if_neg heq] at hu
          right
          refine ⟨d, ?_, hu⟩
          rw [List.mem_cons, not_or]
          exact ⟨Ne.symm heq, hd⟩

/-- A unit is kept for each digest listed. -/
theorem length_firstUnits (seen : List Digest) (pairs : List (Digest × Bytes)) :
    (firstUnits seen pairs).length = ((pairs.map Prod.fst).toFinset \ seen.toFinset).card := by
  induction pairs generalizing seen with
  | nil => simp [firstUnits]
  | cons p pairs ih =>
    obtain ⟨digest, unit⟩ := p
    unfold firstUnits
    rw [List.map_cons, List.toFinset_cons]
    by_cases hseen : digest ∈ seen
    · rw [if_pos hseen, ih, Finset.insert_sdiff_of_mem _ (List.mem_toFinset.mpr hseen)]
    · have hnew : digest ∉ seen.toFinset := by rwa [List.mem_toFinset]
      rw [if_neg hseen, List.length_cons, ih, List.toFinset_cons,
        Finset.insert_sdiff_of_notMem _ hnew, Finset.sdiff_insert,
        ← Finset.card_erase_add_one (Finset.mem_insert_self digest _), Finset.erase_insert_eq_erase]

end FirstUnits

section Copies
variable {b : Book} {chains : List ValidatedChain} {c : ValidatedChain}

theorem foldr_extendedBy_eventDigests (chains : List ValidatedChain) (c : ValidatedChain) :
    (chains.foldr ValidatedChain.extendedBy c).eventDigests = c.eventDigests := by
  induction chains with
  | nil => rfl
  | cons d chains ih => rw [List.foldr_cons, ValidatedChain.extendedBy_eventDigests, ih]

theorem foldr_extendedBy_onBook (hchains : ∀ d ∈ chains, OnBook b d) (hc : OnBook b c) :
    OnBook b (chains.foldr ValidatedChain.extendedBy c) := by
  induction chains with
  | nil => exact hc
  | cons d chains ih =>
    exact (hchains d List.mem_cons_self).extendedBy
      (ih (fun d hd => hchains d (List.mem_cons_of_mem _ hd)))

/-- A chain overlaid by others carries each event in the copy listed first for its
digest, or else in its own. -/
theorem foldr_extendedBy_unit (hchains : ∀ d ∈ chains, OnBook b d) (hc : OnBook b c)
    {e : ChainEvent} (he : e ∈ (chains.foldr ValidatedChain.extendedBy c).events) :
    unitFor (chains.flatMap ValidatedChain.digestUnits) e.digest = some e.unit ∨
      (unitFor (chains.flatMap ValidatedChain.digestUnits) e.digest = none ∧ e ∈ c.events) := by
  induction chains with
  | nil => exact .inr ⟨rfl, he⟩
  | cons d chains ih =>
    have hd := hchains d List.mem_cons_self
    have hrest : ∀ d ∈ chains, OnBook b d := fun d hd => hchains d (List.mem_cons_of_mem _ hd)
    have hover := foldr_extendedBy_onBook hrest hc
    have hsplit : unitFor ((d :: chains).flatMap ValidatedChain.digestUnits) e.digest =
        (unitFor d.digestUnits e.digest).or
          (unitFor (chains.flatMap ValidatedChain.digestUnits) e.digest) := by
      rw [List.flatMap_cons, unitFor, List.find?_append, Option.map_or]
      rfl
    rw [List.foldr_cons] at he
    obtain ⟨i, hi⟩ := List.mem_iff_getElem?.mp he
    rw [ValidatedChain.extendedBy_getElem?] at hi
    rw [hsplit]
    split_ifs at hi with hshared
    · -- `d` lists its own copy for the digest.
      left
      have hmem := List.mem_of_getElem? hi
      have hsome : (d.digestUnits.find? (fun p => p.1 = e.digest)).isSome := by
        rw [List.find?_isSome]
        exact ⟨(e.digest, e.unit), List.mem_map.mpr ⟨e, hmem, rfl⟩, by simp⟩
      obtain ⟨p, hp⟩ := Option.isSome_iff_exists.mp hsome
      obtain ⟨f, hf, rfl⟩ := List.mem_map.mp (List.mem_of_find?_eq_some hp)
      have hfe : f.digest = e.digest := by simpa using List.find?_some hp
      rw [unitFor, hp, Option.map_some, Option.some_or, hd.sameCopies f hf e hmem hfe]
    · -- `d` lists no copy: it would share the chain up to there.
      have hnone : d.digestUnits.find? (fun p => p.1 = e.digest) = none := by
        rw [List.find?_eq_none]
        intro p hp heq
        obtain ⟨f, hf, rfl⟩ := List.mem_map.mp hp
        obtain ⟨j, hj⟩ := List.mem_iff_getElem?.mp hf
        have hfe : f.digest = e.digest := by simpa using heq
        have hlt := hd.lt_shared hover hj hi hfe
        rw [hd.index_eq hover hj hi hfe] at hlt
        exact hshared hlt
      rw [unitFor, hnone, Option.map_none, Option.none_or]
      exact ih hrest (List.mem_of_getElem? hi)

/-- A digest of one of the chains has a unit listed. -/
theorem unitFor_isSome (hc : c ∈ chains) {digest : Digest} (hd : digest ∈ c.eventDigests) :
    unitFor (chains.flatMap ValidatedChain.digestUnits) digest ≠ none := by
  obtain ⟨e, he, rfl⟩ := List.mem_map.mp hd
  intro hnone
  rw [unitFor, Option.map_eq_none_iff, List.find?_eq_none] at hnone
  apply hnone (e.digest, e.unit)
  · exact List.mem_flatMap.mpr ⟨c, hc, List.mem_map.mpr ⟨e, he, rfl⟩⟩
  · simp

end Copies

section Persisted
variable {C : Crypto} {seen : Set Bytes} {identifier : Identifier} {s : RetentionSet}

@[simp] theorem persistedCopy_eventDigests (c : ValidatedChain) :
    (s.persistedCopy c).eventDigests = c.eventDigests :=
  foldr_extendedBy_eventDigests s.persistedChains c

@[simp] theorem persistedCopy_headDigest (c : ValidatedChain) :
    (s.persistedCopy c).headDigest = c.headDigest :=
  ValidatedChain.headDigest_eq_of_digests (persistedCopy_eventDigests c)

theorem mem_ordered {x : RetainedSuffix} : x ∈ s.ordered ↔ x ∈ s.suffixes := by
  simp [RetentionSet.ordered]

theorem mem_persistedChains {c : ValidatedChain} :
    c ∈ s.persistedChains ↔ c ∈ s.chains ∨ c ∈ s.tiePrefix := by
  simp only [RetentionSet.persistedChains, RetentionSet.chains, List.mem_cons, List.mem_append,
    Option.mem_toList, Option.mem_def, List.mem_map, mem_ordered]
  rw [← or_assoc, or_right_comm]

variable (hcf : CollisionFree C seen)
  (hvalid : ∀ c ∈ s.persistedChains, ValidIn C seen identifier c)
include hcf hvalid

theorem persistedCopy_validIn {c : ValidatedChain} (hc : c ∈ s.persistedChains) :
    ValidIn C seen identifier (s.persistedCopy c) := by
  have hfold : ∀ chains : List ValidatedChain, (∀ d ∈ chains, ValidIn C seen identifier d) →
      ValidIn C seen identifier (chains.foldr ValidatedChain.extendedBy c) := by
    intro chains hchains
    induction chains with
    | nil => exact hvalid c hc
    | cons d chains ih =>
      exact (hchains d List.mem_cons_self).extendedBy hcf
        (ih (fun d hd => hchains d (List.mem_cons_of_mem _ hd)))
  exact hfold s.persistedChains hvalid

/-- A chain in persisted copies carries the unit listed for each digest. -/
theorem persistedCopy_unit {c : ValidatedChain} (hc : c ∈ s.persistedChains) {e : ChainEvent}
    (he : e ∈ (s.persistedCopy c).events) :
    unitFor (s.persistedChains.flatMap ValidatedChain.digestUnits) e.digest = some e.unit := by
  rcases foldr_extendedBy_unit (fun d hd => (hvalid d hd).onBook hcf) ((hvalid c hc).onBook hcf) he
    with hunit | ⟨hnone, hmem⟩
  · exact hunit
  · exact absurd hnone (unitFor_isSome hc (List.mem_map.mpr ⟨e, hmem, rfl⟩))

theorem persistedCopy_sameCopies {c d : ValidatedChain} (hc : c ∈ s.persistedChains)
    (hd : d ∈ s.persistedChains) : SameCopies (s.persistedCopy c) (s.persistedCopy d) := by
  intro e he f hf hef
  have hunit := persistedCopy_unit hcf hvalid hc he
  rw [hef, persistedCopy_unit hcf hvalid hd hf, Option.some.injEq] at hunit
  exact hunit.symm

theorem mem_persisted_units (u : Bytes) :
    u ∈ s.persisted.units ↔ ∃ c ∈ s.persistedChains.map s.persistedCopy, u ∈ c.units := by
  rw [RetentionSet.persisted, mem_firstUnits]
  constructor
  · intro h
    obtain ⟨digest, -, hu⟩ := h
    obtain ⟨p, hp, rfl⟩ := Option.map_eq_some_iff.mp hu
    have hpd : p.1 = digest := by simpa using List.find?_some hp
    obtain ⟨c, hc, hpc⟩ := List.mem_flatMap.mp (List.mem_of_find?_eq_some hp)
    refine ⟨s.persistedCopy c, List.mem_map.mpr ⟨c, hc, rfl⟩, ?_⟩
    -- The copy of `c` has an event with the digest, in the unit listed.
    obtain ⟨f, hf, hfp⟩ := List.mem_map.mp hpc
    have hdig : digest ∈ (s.persistedCopy c).eventDigests := by
      rw [persistedCopy_eventDigests, ← hpd, ← hfp]
      exact List.mem_map.mpr ⟨f, hf, rfl⟩
    obtain ⟨e, he, hed⟩ := List.mem_map.mp hdig
    have hunit := persistedCopy_unit hcf hvalid hc he
    rw [show e.digest = digest from hed, hu, Option.some.injEq] at hunit
    exact List.mem_map.mpr ⟨e, he, hunit.symm⟩
  · intro h
    obtain ⟨c', hc', hu⟩ := h
    obtain ⟨c, hc, rfl⟩ := List.mem_map.mp hc'
    obtain ⟨e, he, rfl⟩ := List.mem_map.mp hu
    exact ⟨e.digest, by simp, persistedCopy_unit hcf hvalid hc he⟩

/-- The persisted units validate to chains of the family, and each chain of the set
is found among them again, in the copies that were persisted. -/
theorem persisted_revalidates (hzero : ∀ signed ∈ seen, C.sha256 signed ≠ 0) :
    ∃ chains, validateEntry C identifier s.persisted.units = ⟨.valid chains, []⟩ ∧
      ∀ c ∈ s.persistedChains, chains.findSome? (fun chain =>
        (chain.events.find? (fun e => e.digest = c.headDigest)).bind
          (fun e => chain.prefixThrough e.sequence)) = some (s.persistedCopy c) := by
  have hfamily : ∀ d ∈ s.persistedChains.map s.persistedCopy, ValidIn C seen identifier d := by
    intro d hd
    obtain ⟨c, hc, rfl⟩ := List.mem_map.mp hd
    exact persistedCopy_validIn hcf hvalid hc
  have hcopies : ∀ d ∈ s.persistedChains.map s.persistedCopy,
      ∀ d' ∈ s.persistedChains.map s.persistedCopy, SameCopies d d' := by
    intro d hd d' hd'
    obtain ⟨c, hc, rfl⟩ := List.mem_map.mp hd
    obtain ⟨c', hc', rfl⟩ := List.mem_map.mp hd'
    exact persistedCopy_sameCopies hcf hvalid hc hc'
  have hunits := mem_persisted_units hcf hvalid
  obtain ⟨chains, heq, hall, -, hcovers⟩ := family_revalidates hcf hfamily hunits hcopies hzero
    (by simp [RetentionSet.persistedChains])
  refine ⟨chains, heq, ?_⟩
  intro c hc
  have hcopy : s.persistedCopy c ∈ s.persistedChains.map s.persistedCopy :=
    List.mem_map.mpr ⟨c, hc, rfl⟩
  -- A chain that holds the head gives the copy of `c`.
  have hfound : ∀ l ∈ chains, ∀ p, (l.events.find? (fun e => e.digest = c.headDigest)).bind
      (fun e => l.prefixThrough e.sequence) = some p → p = s.persistedCopy c := by
    intro l hl p hp
    obtain ⟨e, he, hcut⟩ := Option.bind_eq_some_iff.mp hp
    have hed : e.digest = c.headDigest := by simpa using List.find?_some he
    have hlf := hall l hl
    have hon := (hfamily l hlf).onBook hcf
    obtain ⟨i, hi⟩ := List.mem_iff_getElem?.mp (List.mem_of_find?_eq_some he)
    rw [hon.sequence i e hi] at hcut
    obtain ⟨hev, -⟩ := hon.prefixThrough_events hcut
    have hp' := (hfamily l hlf).cut hcf hcut
    have hsub : ∀ u ∈ p.units, u ∈ s.persisted.units := by
      intro u hu
      rw [ValidatedChain.units, hev, List.map_take] at hu
      exact (hunits u).mpr ⟨l, hlf, List.mem_of_mem_take hu⟩
    apply family_eq hcf hfamily hunits hcopies (hp'.builtFrom.1.mono hsub) hcopy
    -- The head determines the digests.
    have hpd := (hon.prefixThrough hcut).2
    have hcon := (hvalid c hc).onBook hcf
    rw [hpd, persistedCopy_eventDigests, ← hon.path i e hi, hed, ← hcon.path_head]
  have hsome : (chains.findSome? (fun chain =>
      (chain.events.find? (fun e => e.digest = c.headDigest)).bind
        (fun e => chain.prefixThrough e.sequence))).isSome := by
    obtain ⟨l, hl, hpre⟩ := hcovers _ hcopy
    have hon := (hfamily l (hall l hl)).onBook hcf
    rw [persistedCopy_eventDigests] at hpre
    obtain ⟨f, hf, hfd⟩ := List.mem_map.mp (hpre.subset c.headDigest_mem)
    rw [List.findSome?_isSome_iff]
    refine ⟨l, hl, ?_⟩
    have hfind : (l.events.find? (fun e => e.digest = c.headDigest)).isSome := by
      rw [List.find?_isSome]
      exact ⟨f, hf, by simpa using hfd⟩
    obtain ⟨e, he⟩ := Option.isSome_iff_exists.mp hfind
    obtain ⟨i, hi⟩ := List.mem_iff_getElem?.mp (List.mem_of_find?_eq_some he)
    have hlt : i < l.len := by
      rw [← l.length_events]
      exact (List.getElem?_eq_some_iff.mp hi).1
    obtain ⟨p, hp⟩ := hon.prefixThrough_isSome hlt
    rw [he, Option.bind_some, hon.sequence i e hi, hp]
    rfl
  obtain ⟨p, hp⟩ := Option.isSome_iff_exists.mp hsome
  obtain ⟨l, hl, hlp⟩ := List.exists_of_findSome?_eq_some hp
  rw [hp, hfound l hl p hlp]

omit hcf hvalid in
theorem settleTiePrefix_tie {s' : RetentionSet} (h : s.settleTiePrefix = .ok s') {p : ValidatedChain}
    (hp : p ∈ s'.tiePrefix) :
    ∃ q ∈ s.tiePrefix, p = q ∨ ∃ n, q.prefixThrough n = some p := by
  unfold RetentionSet.settleTiePrefix at h
  split at h
  · cases h
    cases hp
  · rename_i q hq
    simp only [bind_ok_iff, pure_ok_iff] at h
    obtain ⟨tie, htie, rfl⟩ := h
    have hp : tie = some p := hp
    refine ⟨q, hq, ?_⟩
    unfold RetentionSet.settled at htie
    split at htie
    · rw [← Except.ok.inj htie] at hp
      cases hp
    · dsimp only at htie
      split_ifs at htie
      · rw [pure_ok_iff, hp, Option.some.injEq] at htie
        exact .inl htie.symm
      -- A prefix that no chain carries whole is cut, or given up.
      all_goals
        rw [bind_ok_iff] at htie
        obtain ⟨pairings, -, htie⟩ := htie
        split_ifs at htie
        all_goals rw [pure_ok_iff, hp] at htie
      · cases htie
      · cases htie
      · exact .inr ⟨_, htie⟩
      · cases htie

omit hvalid in
/-- The tie prefix of a reachable set is valid, in the copies it stands in. -/
theorem Reachable.tiePrefix_validIn (h : Reachable C seen identifier s) :
    ∀ p ∈ s.tiePrefix, ValidIn C seen identifier p := by
  -- Settling keeps the tie prefix or cuts it, and a cut of a valid chain is valid.
  have hsettle {s s' : RetentionSet} (hs : ∀ p ∈ s.tiePrefix, ValidIn C seen identifier p)
      (h : s.settleTiePrefix = .ok s') : ∀ p ∈ s'.tiePrefix, ValidIn C seen identifier p := by
    intro p hp
    obtain ⟨q, hq, rfl | ⟨n, hcut⟩⟩ := settleTiePrefix_tie h hp
    · exact hs _ hq
    · exact (hs q hq).cut hcf hcut
  induction h with
  | withBounds bounds hb => simp [RetentionSet.withBounds]
  | @admits s s' candidate admission hs hc h ih =>
    unfold RetentionSet.admit_ at h
    split at h
    · cases h
    · rename_i placed hplace
      split at h
      · cases h
      · rename_i settled hsettled
        cases h
        have hframe := (place_cases (hs.inv hcf).1.onBook (hc.onBook hcf) hplace).frame
        exact hsettle (by rwa [hframe.2.2.1]) hsettled
  | rerank hs hb h ih =>
    rw [(rerank_ok (hs.inv hcf).1 (hb.onBook hcf) h).tiePrefix]
    simp
  | @afterContest s s' tiePrefix candidates report hs ht hc h ih =>
    have hinv := (hs.inv hcf).1
    simp only [RetentionSet.afterContest, bind_ok_iff, mapError_ok_iff, pure_ok_iff, Prod.exists,
      Prod.mk.injEq] at h
    obtain ⟨report₁, moved, hmove, report₂, placed, hplace, settled, hsettled, -, rfl⟩ := h
    obtain ⟨target, tie, hcase, hb, htie, hk, hmove⟩ :=
      moveToTie_ok hinv.onBook (ht.onBook hcf) hmove
    have hmoves := moveTo_ok hinv hb htie hk hmove
    have hplaces := placeAll_ok hmoves.inv (by
      intro t htm
      obtain ⟨c, hcm, rfl⟩ := List.mem_map.mp htm
      exact (hc c hcm).onBook hcf) (freshMoments_none moved candidates) hplace
    apply hsettle _ hsettled
    intro p hp
    rw [hplaces.tiePrefix, hmoves.tiePrefix] at hp
    obtain ⟨q, hq, rfl⟩ := Option.mem_map.mp hp
    have hqt : ValidIn C seen identifier q := by
      rcases hcase with ⟨-, -, rfl⟩ | ⟨-, -, rfl⟩
      · rwa [← Option.mem_some_iff.mp hq]
      · cases hq
    exact heldCopies_closed (fun c d hc hd => hc.extendedBy hcf hd) (hs.validIn hcf) hqt
  | confirmAccepted => simp [RetentionSet.confirmAccepted]

end Persisted

end ScpCore.Kel
