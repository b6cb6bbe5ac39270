import ScpCore.KelPlace

/-! The invariant of a retention set and the operations that keep it. A placement
keeps it, so re-placing every held chain against a new basis does, and settling
the tie prefix leaves every stored rank as it would be computed anew. -/

namespace ScpCore.Kel

/-- The moments the set has handed out. -/
def RetentionSet.moments (s : RetentionSet) : List ℕ :=
  s.basisObserved :: s.suffixes.map (·.observed)

/-- What holds of a set between placements. -/
structure RetentionSet.Inv (b : Book) (s : RetentionSet) : Prop where
  onBook : s.OnBook b
  apart : s.suffixes.Pairwise (fun x y => ¬ x.chain.eventDigests <+: y.chain.eventDigests ∧
    ¬ y.chain.eventDigests <+: x.chain.eventDigests)
  offBasis : ∀ x ∈ s.suffixes, ¬ x.chain.eventDigests <+: s.basis.chain.eventDigests
  count : s.suffixes.length ≤ s.bounds.suffixes
  bytes : s.retainedBytes ≤ s.bounds.bytes
  moments : s.moments.Nodup
  before : ∀ m ∈ s.moments, m < s.nextObserved
  room : s.nextObserved ≤ u64Max
  kind : s.tiePrefix.isSome → s.basis.kind = .accepted
  ranks : ∀ x ∈ s.suffixes, s.rankPlacement x.chain = .ok (some (x.rank, x.forkPosition))
  events : ∀ x ∈ s.suffixes, x.slot.events = x.chain.unitLensFrom x.forkPosition
  copies : ∀ c ∈ s.chains, ∀ d ∈ s.chains, SameCopies c d

/-- The tie prefix, where there is one, lies on a held chain. -/
def RetentionSet.Carried (s : RetentionSet) : Prop :=
  ∀ p ∈ s.tiePrefix, ∃ c ∈ s.chains, p.eventDigests <+: c.eventDigests

section Place
variable {b : Book} {s s' : RetentionSet} {candidate : ValidatedChain} {observed : Option ℕ}
  {admission : Admission}

theorem unionBytes_nil : unionBytes [] = 0 := rfl

/-- The bytes of `events`, each pair counted once. -/
def unionLen (events : List (Digest × ℕ)) : ℕ := min (events.dedup.map Prod.snd).sum u64Max

theorem unionLen_mono {events events' : List (Digest × ℕ)} (h : events ⊆ events') :
    unionLen events ≤ unionLen events' := by
  have hsub : events.dedup ⊆ events'.dedup := by
    intro e he
    exact List.mem_dedup.mpr (h (List.mem_dedup.mp he))
  obtain ⟨kept, hperm, hsubl⟩ := (List.nodup_dedup events).subperm hsub
  have hle : (events.dedup.map Prod.snd).sum ≤ (events'.dedup.map Prod.snd).sum := by
    rw [← (hperm.map Prod.snd).sum_eq]
    exact (hsubl.map Prod.snd).sum_le_sum (fun _ _ => Nat.zero_le _)
  exact min_le_min_right _ hle

/-- Slots that give an event no two lengths count each event once. -/
theorem unionBytes_eq {slots : List Slot}
    (h : OrderedMap.Consistent (slots.flatMap (·.events))) :
    unionBytes slots = unionLen (slots.flatMap (·.events)) := by
  have hrev : OrderedMap.Consistent (slots.flatMap (·.events)).reverse := by
    intro e he f hf
    exact h e (List.mem_reverse.mp he) f (List.mem_reverse.mp hf)
  have hperm : (slots.flatMap (·.events)).reverse.dedup.Perm (slots.flatMap (·.events)).dedup :=
    (List.reverse_perm _).dedup
  unfold unionBytes unionLen
  rw [foldl_saturatingAdd _ _ (Nat.zero_le _), Nat.zero_add,
    (((OrderedMap.orInsertAll_perm_dedup hrev).trans hperm).map Prod.snd).sum_eq]

/-- A set with no suffix yet. -/
theorem inv_of_no_suffix {basis : RetentionBasis} {moment next : ℕ} {tie : Option ValidatedChain}
    {bounds : Bounds} (hb : OnBook b basis.chain) (ht : ∀ p ∈ tie, OnBook b p) (hm : moment < next)
    (hn : next ≤ u64Max) (hk : tie.isSome → basis.kind = .accepted) :
    (RetentionSet.mk basis moment tie [] next bounds).Inv b where
  onBook := ⟨hb, by simp, ht⟩
  apart := List.Pairwise.nil
  offBasis := by simp
  count := Nat.zero_le _
  bytes := by
    rw [RetentionSet.retainedBytes, List.map_nil, unionBytes_nil]
    exact Nat.zero_le _
  moments := by simp [RetentionSet.moments]
  before := by simpa [RetentionSet.moments] using hm
  room := hn
  kind := hk
  ranks := by simp
  events := by simp
  copies := by
    simp only [RetentionSet.chains, List.map_nil, List.mem_singleton, forall_eq]
    exact hb.sameCopies

/-- A candidate in held copies carries the held copy of every event a held chain has. -/
theorem heldCopies_sameCopies (hs : s.OnBook b)
    (hcopies : ∀ c ∈ s.chains, ∀ d ∈ s.chains, SameCopies c d) (hc : OnBook b candidate)
    {c : ValidatedChain} (hcm : c ∈ s.chains) : SameCopies c (s.heldCopies candidate) := by
  intro e he f hf hd
  obtain ⟨source, hsrc, hcopy, hmost⟩ := heldCopies_source s candidate
  obtain ⟨i, hi⟩ := List.mem_iff_getElem?.mp he
  obtain ⟨j, hj⟩ := List.mem_iff_getElem?.mp hf
  have hij := (hs.chains c hcm).index_eq (heldCopies_onBook hs hc) hi hj hd
  have hlt := (hs.chains c hcm).lt_shared (heldCopies_onBook hs hc) hi hj hd
  -- The event lies where the source, which shares most, gives the copy.
  rw [ValidatedChain.sharedPrefixLen_eq, heldCopies_eventDigests,
    ← ValidatedChain.sharedPrefixLen_eq] at hlt
  have hle := hmost c hcm
  rw [hcopy, ValidatedChain.extendedBy_getElem?, if_pos (by omega)] at hj
  exact hcopies c hcm source hsrc e he f (List.mem_of_getElem? hj) hd

/-- What a placement leaves of the basis, tie prefix and bounds. -/
theorem Places.frame (h : Places b s candidate observed admission s') :
    s'.basis = s.basis ∧ s'.basisObserved = s.basisObserved ∧ s'.tiePrefix = s.tiePrefix ∧
      s'.bounds = s.bounds := by
  cases h <;> exact ⟨rfl, rfl, rfl, rfl⟩

theorem nextAfter_cases {extended : Option ℕ} {next : ℕ}
    (h : s.nextAfter observed extended = .ok next) :
    (extended = none ∧ observed = none ∧ next = s.nextObserved+1 ∧ next ≤ u64Max) ∨
      ((extended.isSome ∨ observed.isSome) ∧ next = s.nextObserved) := by
  unfold RetentionSet.nextAfter at h
  cases extended with
  | none =>
    cases observed with
    | none =>
      simp only [Option.isNone_none, Bool.and_self, if_true, seqRight_eq_bind, bind_ok_iff,
        require_ok_iff, decide_eq_true_eq, pure_ok_iff, exists_and_left] at h
      obtain ⟨hle, h⟩ := h
      have hnext : s.nextObserved+1 = next := by simpa using h
      exact Or.inl ⟨rfl, rfl, hnext.symm, by omega⟩
    | some m =>
      simp only [Option.isNone_none, Option.isNone_some, Bool.and_false, Bool.false_eq_true,
        if_false, pure_ok_iff] at h
      exact Or.inr ⟨Or.inr rfl, h.symm⟩
  | some i =>
    simp only [Option.isNone_some, Bool.false_and, Bool.false_eq_true, if_false, pure_ok_iff] at h
    exact Or.inr ⟨Or.inl rfl, h.symm⟩

theorem staying_sublist (s : RetentionSet) (evict : List ℕ) (extended : Option ℕ) :
    (s.staying evict extended).Sublist s.suffixes := by
  have h := (List.filter_sublist (l := s.suffixes.zipIdx)
    (p := fun t => t.2 ∉ evict ∧ extended ≠ some t.2)).map Prod.fst
  rwa [List.zipIdx_map_fst] at h

/-- Suffixes at two places of a set that is apart are no prefixes of each other. -/
theorem RetentionSet.Inv.apart_at (h : s.Inv b) {i j : ℕ} {x y : RetainedSuffix}
    (hi : s.suffixes[i]? = some x) (hj : s.suffixes[j]? = some y)
    (hp : x.chain.eventDigests <+: y.chain.eventDigests) : i = j := by
  have hap := List.pairwise_iff_getElem.mp h.apart
  obtain ⟨hi', rfl⟩ := List.getElem?_eq_some_iff.mp hi
  obtain ⟨hj', rfl⟩ := List.getElem?_eq_some_iff.mp hj
  rcases Nat.lt_trichotomy i j with hlt | heq | hgt
  · exact absurd hp (hap i j hi' hj' hlt).1
  · exact heq
  · exact absurd hp (hap j i hj' hi' hgt).2

/-- No suffix that stays is a prefix of the candidate: the one it extends went. -/
theorem Enters.staying_not_prefix (hinv : s.Inv b) {rank : ForkRank} {fork : ℕ}
    {extended : Option ℕ} {evict : List ℕ} {next : ℕ}
    (h : Enters b s candidate observed rank fork extended evict next) {y : RetainedSuffix}
    (hy : y ∈ s.staying evict extended) : ¬ y.chain.eventDigests <+: candidate.eventDigests := by
  intro hp
  obtain ⟨j, hj, _, hje⟩ := mem_staying.mp hy
  rcases h.extends_ with ⟨_, hnone⟩ | ⟨i, x, hi, he, hpx⟩
  · exact hnone y (List.mem_of_getElem? hj) hp
  · have hij : i = j := by
      rcases List.prefix_or_prefix_of_prefix hpx hp with h' | h'
      · exact hinv.apart_at hi hj h'
      · exact (hinv.apart_at hj hi h').symm
    exact hje (by rw [he, hij])

/-- The moment an entered candidate takes: what it extends had it, or it brought
it, or it is the next one. -/
theorem Enters.moment_cases {rank : ForkRank} {fork : ℕ} {extended : Option ℕ} {evict : List ℕ}
    {next : ℕ} (h : Enters b s candidate observed rank fork extended evict next)
    (c : ValidatedChain) :
    (∃ i x, s.suffixes[i]? = some x ∧ extended = some i ∧
      (s.slotFor c observed rank fork extended).observed = x.observed ∧ next = s.nextObserved) ∨
    (extended = none ∧ observed = some (s.slotFor c observed rank fork extended).observed ∧
      next = s.nextObserved) ∨
    (extended = none ∧ observed = none ∧
      (s.slotFor c observed rank fork extended).observed = s.nextObserved ∧
        next = s.nextObserved+1 ∧ next ≤ u64Max) := by
  rcases h.extends_ with ⟨rfl, _⟩ | ⟨i, x, hi, rfl, _⟩
  · rcases nextAfter_cases h.next with ⟨_, rfl, hn, hle⟩ | ⟨hs, hn⟩
    · exact Or.inr (Or.inr ⟨rfl, rfl, rfl, hn, hle⟩)
    · cases observed with
      | none => simp at hs
      | some m => exact Or.inr (Or.inl ⟨rfl, rfl, hn⟩)
  · rcases nextAfter_cases h.next with ⟨hn, _⟩ | ⟨_, hn⟩
    · cases hn
    · refine Or.inl ⟨i, x, hi, rfl, ?_, hn⟩
      simp [RetentionSet.slotFor, hi]

/-- The moments of the suffixes that stay, with the basis's. -/
theorem staying_moments (s : RetentionSet) (evict : List ℕ) (extended : Option ℕ) :
    (s.basisObserved :: (s.staying evict extended).map (·.observed)).Sublist s.moments :=
  ((staying_sublist s evict extended).map RetainedSuffix.observed).cons_cons s.basisObserved

section Enters
variable {rank : ForkRank} {fork : ℕ} {extended : Option ℕ} {evict : List ℕ} {next : ℕ}

/-- The moment an entered candidate takes is none of those that stay. -/
theorem Enters.moment_new (hinv : s.Inv b)
    (h : Enters b s candidate observed rank fork extended evict next)
    (hobs : ∀ m ∈ observed, m ∉ s.moments ∧ m < s.nextObserved) :
    (s.slotFor (s.heldCopies candidate) observed rank fork extended).observed ∉
      s.basisObserved :: (s.staying evict extended).map (·.observed) := by
  have hin := (staying_moments s evict extended).subset
  intro hmem
  rcases h.moment_cases (s.heldCopies candidate) with
    ⟨i, x, hi, he, hm, _⟩ | ⟨_, hm, _⟩ | ⟨_, _, hm, _, _⟩
  · rw [hm] at hmem
    obtain ⟨hb, hnodup⟩ := List.nodup_cons.mp hinv.moments
    rcases List.mem_cons.mp hmem with heq | hmem
    · apply hb
      rw [← heq]
      exact List.mem_map.mpr ⟨x, List.mem_of_getElem? hi, rfl⟩
    · -- Two suffixes with one moment are one suffix, and that one went.
      obtain ⟨y, hy, hxy⟩ := List.mem_map.mp hmem
      obtain ⟨j, hj, _, hje⟩ := mem_staying.mp hy
      have hlt : j < (s.suffixes.map (·.observed)).length := by
        rw [List.length_map]
        exact (List.getElem?_eq_some_iff.mp hj).1
      have hij : j = i := by
        apply (List.getElem?_inj hlt hnodup).mp
        rw [List.getElem?_map, List.getElem?_map, hi, hj]
        exact congrArg some hxy
      exact hje (by rw [he, hij])
  · exact (hobs _ hm).1 (hin hmem)
  · rw [hm] at hmem
    exact absurd (hinv.before _ (hin hmem)) (lt_irrefl _)

theorem Enters.nextObserved_le (h : Enters b s candidate observed rank fork extended evict next) :
    s.nextObserved ≤ next := by
  rcases nextAfter_cases h.next with ⟨_, _, hn, _⟩ | ⟨_, hn⟩ <;> omega

theorem Enters.moment_lt (hinv : s.Inv b)
    (h : Enters b s candidate observed rank fork extended evict next)
    (hobs : ∀ m ∈ observed, m ∉ s.moments ∧ m < s.nextObserved) :
    (s.slotFor (s.heldCopies candidate) observed rank fork extended).observed < next := by
  have hnext := h.nextObserved_le
  rcases h.moment_cases (s.heldCopies candidate) with
    ⟨i, x, hi, _, hm, _⟩ | ⟨_, hm, _⟩ | ⟨_, _, hm, hn, _⟩
  · have hx : x.observed ∈ s.moments :=
      List.mem_cons_of_mem _ (List.mem_map.mpr ⟨x, List.mem_of_getElem? hi, rfl⟩)
    have hlt := hinv.before _ hx
    omega
  · have hlt := (hobs _ hm).2
    omega
  · omega

/-- Among the chains that stay the copies agreed; the candidate took theirs. -/
theorem Enters.copies (hinv : s.Inv b) (hc : OnBook b candidate) {c d : ValidatedChain}
    (hcm : c ∈ s.basis.chain :: ((s.staying evict extended).map (·.chain) ++ [s.heldCopies candidate]))
    (hdm : d ∈ s.basis.chain :: ((s.staying evict extended).map (·.chain) ++ [s.heldCopies candidate])) :
    SameCopies c d := by
  have hold : ∀ x ∈ s.basis.chain :: (s.staying evict extended).map (·.chain), x ∈ s.chains :=
    fun x hx => (((staying_sublist s evict extended).map RetainedSuffix.chain).cons_cons
      s.basis.chain).subset hx
  rw [← List.cons_append] at hcm hdm
  rcases List.mem_append.mp hcm with hcm | hcm
  · rcases List.mem_append.mp hdm with hdm | hdm
    · exact hinv.copies c (hold c hcm) d (hold d hdm)
    · rw [List.mem_singleton.mp hdm]
      exact heldCopies_sameCopies hinv.onBook hinv.copies hc (hold c hcm)
  · rw [List.mem_singleton.mp hcm]
    rcases List.mem_append.mp hdm with hdm | hdm
    · exact (heldCopies_sameCopies hinv.onBook hinv.copies hc (hold d hdm)).symm
    · rw [List.mem_singleton.mp hdm]
      exact (heldCopies_onBook hinv.onBook hc).sameCopies

end Enters

theorem Places.onBook (hs : s.OnBook b) (hc : OnBook b candidate)
    (h : Places b s candidate observed admission s') : s'.OnBook b := by
  cases h with
  | held => exact hs
  | refused => exact hs
  | @entered rank fork extended evict next h =>
    refine ⟨hs.basis, ?_, hs.tiePrefix⟩
    intro x hx
    rcases List.mem_append.mp hx with hx | hx
    · exact hs.suffixes x ((staying_sublist s evict extended).subset hx)
    · rw [List.mem_singleton.mp hx]
      exact heldCopies_onBook hs hc

/-- One placement keeps the invariant. A moment the caller brings is a new one,
where the candidate lies on no held chain. -/
theorem Places.inv (hinv : s.Inv b) (hc : OnBook b candidate)
    (hobs : (∀ c ∈ s.chains, ¬ candidate.eventDigests <+: c.eventDigests) →
      ∀ m ∈ observed, m ∉ s.moments ∧ m < s.nextObserved)
    (h : Places b s candidate observed admission s') : s'.Inv b := by
  have hon := h.onBook hinv.onBook hc
  cases h with
  | held => exact hinv
  | refused => exact hinv
  | @entered rank fork extended evict next h =>
    -- What stays was kept before; only the chain that entered has to be looked at.
    have hsub := (staying_sublist s evict extended).subset
    have hcopy := heldCopies_onBook hinv.onBook hc
    have hfit := h.fit
    simp only [fits, Bool.and_eq_true, decide_eq_true_eq, List.length_map] at hfit
    refine ⟨hon, ?_, ?_, ?_, ?_, ?_, ?_, ?_, hinv.kind, ?_, ?_, ?_⟩
    · refine List.pairwise_append.mpr
        ⟨hinv.apart.sublist (staying_sublist s evict extended), List.pairwise_singleton _ _, ?_⟩
      intro y hy z hz
      rw [List.mem_singleton.mp hz]
      simp only [heldCopies_eventDigests]
      exact ⟨h.staying_not_prefix hinv hy,
        h.off _ (List.mem_cons_of_mem _ (List.mem_map.mpr ⟨y, hsub hy, rfl⟩))⟩
    · intro x hx
      rcases List.mem_append.mp hx with hx | hx
      · exact hinv.offBasis x (hsub hx)
      · rw [List.mem_singleton.mp hx]
        simp only [heldCopies_eventDigests]
        exact h.off _ List.mem_cons_self
    · rw [List.length_append, List.length_singleton]
      exact hfit.1
    · rw [RetentionSet.retainedBytes, List.map_append]
      exact hfit.2
    · have hnew := h.moment_new hinv (hobs h.off)
      simp only [RetentionSet.moments, List.map_append, List.map_cons, List.map_nil]
      rw [← List.cons_append]
      refine List.nodup_append.mpr ⟨hinv.moments.sublist (staying_moments s evict extended),
        List.nodup_singleton _, ?_⟩
      intro m hm m' hm' he
      rw [List.mem_singleton] at hm'
      rw [he, hm'] at hm
      exact hnew hm
    · intro m hm
      simp only [RetentionSet.moments, List.map_append, List.map_cons, List.map_nil] at hm
      rw [← List.cons_append] at hm
      rcases List.mem_append.mp hm with hm | hm
      · exact (hinv.before m ((staying_moments s evict extended).subset hm)).trans_le
          h.nextObserved_le
      · rw [List.mem_singleton.mp hm]
        exact h.moment_lt hinv (hobs h.off)
    · have hroom := hinv.room
      change next ≤ u64Max
      rcases nextAfter_cases h.next with ⟨_, _, _, hle⟩ | ⟨_, hn⟩
      · exact hle
      · omega
    · intro x hx
      rcases List.mem_append.mp hx with hx | hx
      · exact hinv.ranks x (hsub hx)
      · rw [List.mem_singleton.mp hx]
        change s.rankPlacement (s.heldCopies candidate) = .ok (some (rank, fork))
        rw [rankPlacement_eq hinv.onBook hcopy, heldCopies_eventDigests,
          ← rankPlacement_eq hinv.onBook hc]
        exact h.placement
    · intro x hx
      rcases List.mem_append.mp hx with hx | hx
      · exact hinv.events x (hsub hx)
      · rw [List.mem_singleton.mp hx]
        rfl
    · intro c hcm d hdm
      simp only [RetentionSet.chains, List.map_append, List.map_cons, List.map_nil] at hcm hdm
      exact Enters.copies hinv hc hcm hdm

/-- A placement adds no branch but the candidate's. -/
theorem Places.branches_subset (h : Places b s candidate observed admission s') :
    b.branches s'.chains ⊆ b.branches (s.chains ++ [candidate]) := by
  intro x hx
  obtain ⟨c, hc, rfl⟩ := hx
  cases h with
  | held => exact Book.mem_branches (List.mem_append_left _ hc)
  | refused => exact Book.mem_branches (List.mem_append_left _ hc)
  | @entered rank fork extended evict next h =>
    simp only [RetentionSet.chains, List.map_append, List.map_cons, List.map_nil] at hc
    rw [← List.cons_append] at hc
    rcases List.mem_append.mp hc with hc | hc
    · have hold := (((staying_sublist s evict extended).map RetainedSuffix.chain).cons_cons
        s.basis.chain).subset hc
      exact Book.mem_branches (List.mem_append_left _ hold)
    · rw [List.mem_singleton.mp hc]
      refine ⟨candidate, by simp, ?_⟩
      rw [Book.branch, Book.branch, heldCopies_eventDigests]

/-- What a placement that refuses nothing leaves covers everything there was. -/
theorem Places.covers (h : Places b s candidate observed admission s')
    (hne : ∀ rank, admission ≠ .refused rank) :
    IsCofinalFor (b.branches (s.chains ++ [candidate])) (b.branches s'.chains) := by
  cases h with
  | @held c mem on =>
    intro x hx
    obtain ⟨d, hd, rfl⟩ := hx
    rcases List.mem_append.mp hd with hd | hd
    · exact ⟨_, Book.mem_branches hd, le_rfl⟩
    · rw [List.mem_singleton.mp hd]
      exact ⟨_, Book.mem_branches mem, Branch.le_of_prefix on⟩
  | refused rank => exact absurd rfl (hne rank)
  | @entered rank fork extended evict next h =>
    have hcand : b.branch candidate ∈ b.branches (RetentionSet.chains { s with
        suffixes := s.staying evict extended ++ [⟨s.heldCopies candidate, fork,
          s.slotFor (s.heldCopies candidate) observed rank fork extended⟩]
        nextObserved := next }) := by
      refine ⟨s.heldCopies candidate, ?_, ?_⟩
      · simp [RetentionSet.chains]
      · rw [Book.branch, Book.branch, heldCopies_eventDigests]
    intro x hx
    obtain ⟨d, hd, rfl⟩ := hx
    rcases List.mem_append.mp hd with hd | hd
    · rcases List.mem_cons.mp hd with rfl | hd
      · exact ⟨_, Book.mem_branches List.mem_cons_self, le_rfl⟩
      · obtain ⟨y, hy, rfl⟩ := List.mem_map.mp hd
        rcases h.covers y hy with hle | hle | ⟨z, hz, hle⟩
        · exact ⟨_, Book.mem_branches List.mem_cons_self, hle⟩
        · exact ⟨_, hcand, hle⟩
        · refine ⟨b.branch z.chain, Book.mem_branches ?_, hle⟩
          refine List.mem_cons_of_mem _ (List.mem_map.mpr ⟨z, ?_, rfl⟩)
          exact List.mem_append_left _ hz
    · rw [List.mem_singleton.mp hd]
      exact ⟨_, hcand, le_rfl⟩

/-- A refusal leaves the set as it was. -/
theorem Places.eq_of_refused {rank : ForkRank}
    (h : Places b s candidate observed (.refused rank) s') : s' = s := by
  generalize ha : Admission.refused rank = admission at h
  cases h with
  | held => cases ha
  | refused => rfl
  | @entered rank' fork extended evict next h =>
    exfalso
    simp only [RetentionSet.admissionFor] at ha
    split at ha <;> cases ha

theorem Places.sameTop (h : Places b s candidate observed admission s')
    (hne : ∀ rank, admission ≠ .refused rank) :
    SameTop (b.branches s'.chains) (b.branches (s.chains ++ [candidate])) :=
  (SameTop.of_subset h.branches_subset (h.covers hne)).symm

/-- A placement takes no moment but its caller's or the next one. -/
theorem Places.moments_subset (h : Places b s candidate observed admission s') :
    s.nextObserved ≤ s'.nextObserved ∧
      ∀ m ∈ s'.moments, m ∈ s.moments ∨ some m = observed ∨ s.nextObserved ≤ m := by
  cases h with
  | held => exact ⟨le_rfl, fun m hm => Or.inl hm⟩
  | refused => exact ⟨le_rfl, fun m hm => Or.inl hm⟩
  | @entered rank fork extended evict next h =>
    refine ⟨h.nextObserved_le, ?_⟩
    intro m hm
    simp only [RetentionSet.moments, List.map_append, List.map_cons, List.map_nil] at hm
    rw [← List.cons_append] at hm
    rcases List.mem_append.mp hm with hm | hm
    · exact Or.inl ((staying_moments s evict extended).subset hm)
    · have hm' : m = (s.slotFor (s.heldCopies candidate) observed rank fork extended).observed :=
        List.mem_singleton.mp hm
      rcases h.moment_cases (s.heldCopies candidate) with
        ⟨i, x, hi, _, hx, _⟩ | ⟨_, hx, _⟩ | ⟨_, _, hx, _, _⟩
      · left
        rw [hm', hx]
        exact List.mem_cons_of_mem _ (List.mem_map.mpr ⟨x, List.mem_of_getElem? hi, rfl⟩)
      · exact Or.inr (Or.inl (by rw [hx, hm']))
      · right
        right
        omega

end Place

section PlaceAll
variable {b : Book} {s s' : RetentionSet}

/-- The moments the chains to place bring are new to the set, but for a chain
that lies on the basis. -/
def FreshMoments (s : RetentionSet) (todo : List (Option ℕ × ValidatedChain)) : Prop :=
  (todo.map Prod.fst).reduceOption.Nodup ∧ ∀ t ∈ todo, ∀ m ∈ t.1, m < s.nextObserved ∧
    (¬ t.2.eventDigests <+: s.basis.chain.eventDigests → m ∉ s.moments)

/-- What placing a list of chains leaves. -/
structure PlacesAll (b : Book) (s : RetentionSet) (report : Rerank)
    (todo : List (Option ℕ × ValidatedChain)) (report' : Rerank) (s' : RetentionSet) : Prop where
  inv : s'.Inv b
  basis : s'.basis = s.basis
  basisObserved : s'.basisObserved = s.basisObserved
  tiePrefix : s'.tiePrefix = s.tiePrefix
  bounds : s'.bounds = s.bounds
  subset : b.branches s'.chains ⊆ b.branches (s.chains ++ todo.map Prod.snd)
  covers : ∀ c ∈ s.chains, ∃ d ∈ s'.chains, b.branch c ≤ b.branch d
  placed : ∀ t ∈ todo, (∃ d ∈ s'.chains, b.branch t.2 ≤ b.branch d) ∨
    t.2.headDigest ∈ report'.refused
  refused : report.refused ⊆ report'.refused

theorem FreshMoments.tail {t : Option ℕ × ValidatedChain} {rest : List (Option ℕ × ValidatedChain)}
    {admission : Admission} (hf : FreshMoments s (t :: rest))
    (h : Places b s t.2 t.1 admission s') : FreshMoments s' rest := by
  obtain ⟨hnodup, hall⟩ := hf
  obtain ⟨hnext, hm⟩ := h.moments_subset
  have hbasis := h.frame.1
  refine ⟨?_, ?_⟩
  · rw [List.map_cons] at hnodup
    cases ht : t.1 with
    | none => simpa [ht] using hnodup
    | some m =>
      rw [ht, List.reduceOption_cons_of_some] at hnodup
      exact (List.nodup_cons.mp hnodup).2
  · intro u hu m hmu
    obtain ⟨hlt, hnew⟩ := hall u (List.mem_cons_of_mem _ hu) m hmu
    refine ⟨by omega, ?_⟩
    intro hoff hmem
    rw [hbasis] at hoff
    rcases hm m hmem with hold | hcaller | hge
    · exact hnew hoff hold
    · -- The moment was brought by the chain just placed, and no other has it.
      rw [List.map_cons, ← hcaller, List.reduceOption_cons_of_some] at hnodup
      apply (List.nodup_cons.mp hnodup).1
      rw [List.reduceOption_mem_iff]
      exact List.mem_map.mpr ⟨u, hu, hmu⟩
    · omega

theorem placeAll_ok {todo : List (Option ℕ × ValidatedChain)} {report report' : Rerank}
    (hinv : s.Inv b) (hc : ∀ t ∈ todo, OnBook b t.2) (hf : FreshMoments s todo)
    (h : RetentionSet.placeAll s report todo = .ok (report', s')) :
    PlacesAll b s report todo report' s' := by
  induction todo generalizing s report with
  | nil =>
    simp only [RetentionSet.placeAll, Except.ok.injEq, Prod.mk.injEq] at h
    obtain ⟨rfl, rfl⟩ := h
    refine ⟨hinv, rfl, rfl, rfl, rfl, ?_, ?_, by simp, List.Subset.refl _⟩
    · rw [List.map_nil, List.append_nil]
    · exact fun c hcm => ⟨c, hcm, le_rfl⟩
  | cons t rest ih =>
    obtain ⟨observed, chain⟩ := t
    simp only [RetentionSet.placeAll, bind_ok_iff, Prod.exists] at h
    obtain ⟨admission, placed, hplace, h⟩ := h
    have hchain : OnBook b chain := hc _ List.mem_cons_self
    have hp := place_cases hinv.onBook hchain hplace
    have hinv' : placed.Inv b := by
      apply hp.inv hinv hchain
      intro hoff m hm
      obtain ⟨hlt, hnew⟩ := hf.2 _ List.mem_cons_self m hm
      exact ⟨hnew (hoff _ List.mem_cons_self), hlt⟩
    have hrest := ih hinv' (fun u hu => hc u (List.mem_cons_of_mem _ hu)) (hf.tail hp) h
    obtain ⟨h₁, h₂, h₃, h₄⟩ := hp.frame
    -- Either nothing was refused, or the set is as it was.
    have hstep : (∀ c ∈ s.chains, ∃ d ∈ placed.chains, b.branch c ≤ b.branch d) ∧
        ((∃ d ∈ placed.chains, b.branch chain ≤ b.branch d) ∨
          chain.headDigest ∈ (report.count chain.headDigest admission).refused) := by
      by_cases hne : ∀ rank, admission ≠ .refused rank
      · have hcov := hp.covers hne
        constructor
        · intro c hcm
          obtain ⟨_, ⟨d, hd, rfl⟩, hle⟩ := hcov (Book.mem_branches (List.mem_append_left _ hcm))
          exact ⟨d, hd, hle⟩
        · left
          obtain ⟨_, ⟨d, hd, rfl⟩, hle⟩ := hcov (Book.mem_branches
            (List.mem_append_right _ (List.mem_singleton_self chain)))
          exact ⟨d, hd, hle⟩
      · push Not at hne
        obtain ⟨rank, rfl⟩ := hne
        rw [hp.eq_of_refused]
        refine ⟨fun c hcm => ⟨c, hcm, le_rfl⟩, Or.inr ?_⟩
        simp [Rerank.count]
    have hcount : report.refused ⊆ (report.count chain.headDigest admission).refused := by
      cases admission <;> simp [Rerank.count]
    refine ⟨hrest.inv, hrest.basis.trans h₁, hrest.basisObserved.trans h₂,
      hrest.tiePrefix.trans h₃, hrest.bounds.trans h₄, ?_, ?_, ?_, ?_⟩
    · intro x hx
      obtain ⟨c, hcm, rfl⟩ := hrest.subset hx
      rcases List.mem_append.mp hcm with hcm | hcm
      · obtain ⟨d, hd, he⟩ := hp.branches_subset (Book.mem_branches hcm)
        rw [← he]
        refine Book.mem_branches ?_
        rcases List.mem_append.mp hd with hd | hd
        · exact List.mem_append_left _ hd
        · rw [List.mem_singleton.mp hd]
          simp
      · refine Book.mem_branches (List.mem_append_right _ ?_)
        rw [List.map_cons]
        exact List.mem_cons_of_mem _ hcm
    · intro c hcm
      obtain ⟨d, hd, hle⟩ := hstep.1 c hcm
      obtain ⟨e, he, hle'⟩ := hrest.covers d hd
      exact ⟨e, he, hle.trans hle'⟩
    · intro u hu
      rcases List.mem_cons.mp hu with rfl | hu
      · rcases hstep.2 with ⟨d, hd, hle⟩ | href
        · obtain ⟨e, he, hle'⟩ := hrest.covers d hd
          exact Or.inl ⟨e, he, hle.trans hle'⟩
        · exact Or.inr (hrest.refused href)
      · exact hrest.placed u hu
    · exact List.Subset.trans hcount hrest.refused

/-- What one placement keeps, placing a list keeps. -/
theorem placeAll_keeps {motive : RetentionSet → Prop} {todo : List (Option ℕ × ValidatedChain)}
    {report report' : Rerank}
    (hstep : ∀ (s s' : RetentionSet) (admission : Admission), ∀ t ∈ todo, s.Inv b →
      Places b s t.2 t.1 admission s' → motive s → motive s')
    (hinv : s.Inv b) (hc : ∀ t ∈ todo, OnBook b t.2) (hf : FreshMoments s todo)
    (h : RetentionSet.placeAll s report todo = .ok (report', s')) (hs : motive s) : motive s' := by
  induction todo generalizing s report with
  | nil =>
    simp only [RetentionSet.placeAll, Except.ok.injEq, Prod.mk.injEq] at h
    rwa [← h.2]
  | cons t rest ih =>
    obtain ⟨observed, chain⟩ := t
    simp only [RetentionSet.placeAll, bind_ok_iff, Prod.exists] at h
    obtain ⟨admission, placed, hplace, h⟩ := h
    have hchain : OnBook b chain := hc _ List.mem_cons_self
    have hp := place_cases hinv.onBook hchain hplace
    have hinv' : placed.Inv b := by
      apply hp.inv hinv hchain
      intro hoff m hm
      obtain ⟨hlt, hnew⟩ := hf.2 _ List.mem_cons_self m hm
      exact ⟨hnew (hoff _ List.mem_cons_self), hlt⟩
    have hplaced := hstep s placed admission (observed, chain) List.mem_cons_self hinv hp hs
    exact ih (fun s s' admission t ht => hstep s s' admission t (List.mem_cons_of_mem _ ht)) hinv'
      (fun u hu => hc u (List.mem_cons_of_mem _ hu)) (hf.tail hp) h hplaced

end PlaceAll

end ScpCore.Kel
