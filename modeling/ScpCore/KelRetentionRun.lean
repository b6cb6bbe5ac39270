import ScpCore.KelRetentionInv

/-! The operations of a retention set: moving its basis, settling its tie prefix,
admitting a chain and entering a contest. Each keeps the invariant. -/

namespace ScpCore.Kel

section Move
variable {b : Book} {s s' : RetentionSet}

theorem mem_entries {t : ℕ × ValidatedChain} :
    t ∈ s.entries ↔ (∃ x ∈ s.suffixes, (x.observed, x.chain) = t) ∨
      t = (s.basisObserved, s.basis.chain) := by
  simp [RetentionSet.entries]

theorem mem_chains_iff_entry {c : ValidatedChain} :
    c ∈ s.chains ↔ ∃ m, (m, c) ∈ s.entries := by
  simp only [mem_entries, Prod.mk.injEq, RetentionSet.chains, List.mem_cons, List.mem_map]
  constructor
  · intro h
    rcases h with rfl | ⟨x, hx, rfl⟩
    · exact ⟨_, Or.inr ⟨rfl, rfl⟩⟩
    · exact ⟨_, Or.inl ⟨x, hx, rfl, rfl⟩⟩
  · intro h
    obtain ⟨m, ⟨x, hx, _, rfl⟩ | ⟨_, rfl⟩⟩ := h
    · exact Or.inr ⟨x, hx, rfl⟩
    · exact Or.inl rfl

theorem entries_moments_perm (s : RetentionSet) : (s.entries.map Prod.fst).Perm s.moments := by
  have h := (List.perm_insertionSort (fun a b : ℕ × ValidatedChain => a.1 ≤ b.1)
    (s.suffixes.map (fun suffix => (suffix.observed, suffix.chain)) ++
      [(s.basisObserved, s.basis.chain)])).map Prod.fst
  refine h.trans ?_
  rw [List.map_append, List.map_map]
  exact List.perm_append_comm

/-- The least of a list of moments and of the start, where there is one. -/
theorem foldl_earliest (ms : List ℕ) (start : Option ℕ) :
    (ms.foldl (fun earliest moment => some (earliest.elim moment (min · moment))) start = none ↔
      start = none ∧ ms = []) ∧
    ∀ e, ms.foldl (fun earliest moment => some (earliest.elim moment (min · moment))) start =
        some e → (start = some e ∨ e ∈ ms) ∧ (∀ m ∈ start, e ≤ m) ∧ ∀ m ∈ ms, e ≤ m := by
  induction ms generalizing start with
  | nil =>
    simp only [List.foldl_nil, and_true, true_and]
    intro e hs
    subst hs
    exact ⟨Or.inl rfl, by simp⟩
  | cons m ms ih =>
    rw [List.foldl_cons]
    obtain ⟨hnone, hsome⟩ := ih (some (start.elim m (min · m)))
    refine ⟨by simp [hnone], ?_⟩
    intro e hfold
    obtain ⟨hfrom, hstart, hms⟩ := hsome e hfold
    have hle := hstart _ rfl
    refine ⟨?_, ?_, ?_⟩
    · rcases hfrom with hfrom | hfrom
      · rw [Option.some.injEq] at hfrom
        cases start with
        | none => exact Or.inr (by simp_all)
        | some k =>
          simp only [Option.elim_some] at hfrom
          rcases Nat.le_total k m with hkm | hkm
          · left
            rw [← hfrom, Nat.min_eq_left hkm]
          · right
            rw [← hfrom, Nat.min_eq_right hkm]
            exact List.mem_cons_self
      · exact Or.inr (List.mem_cons_of_mem _ hfrom)
    · intro k hk
      rw [Option.mem_def.mp hk, Option.elim_some] at hle
      omega
    · intro k hk
      rcases List.mem_cons.mp hk with rfl | hk
      · cases start with
        | none => exact hle
        | some j =>
          rw [Option.elim_some] at hle
          omega
      · exact hms k hk

/-- The earliest moment on the basis, where an entry lies on it. -/
theorem onBasis_ok {basis : ValidatedChain} {entries : List (ℕ × ValidatedChain)}
    (hb : OnBook b basis) (he : ∀ t ∈ entries, OnBook b t.2) :
    ∃ r, RetentionSet.onBasis basis entries = .ok r ∧
      ((r = none ∧ ∀ t ∈ entries, ¬ t.2.eventDigests <+: basis.eventDigests) ∨
        ∃ t ∈ entries, r = some t.1 ∧ t.2.eventDigests <+: basis.eventDigests ∧
          ∀ u ∈ entries, u.2.eventDigests <+: basis.eventDigests → t.1 ≤ u.1) := by
  -- A chain lies on the basis where the pairing finds it identical or a prefix.
  have hstep : ∀ t ∈ entries, (do
      let pairing ← pairChains t.2 basis
      pure (if pairing = .identical ∨ pairing = .leftPrefixOfRight then some t.1 else none) :
        Except UnrelatedChains (Option ℕ)) =
        .ok (if t.2.eventDigests <+: basis.eventDigests then some t.1 else none) := by
    intro t ht
    rw [(he t ht).pairChains_eq hb]
    obtain ⟨hpair, hd⟩ | ⟨hpair, hp, _⟩ | ⟨hpair, hp, hne⟩ | ⟨hpair, h₁, _⟩ :=
      Book.pairing_cases b t.2.eventDigests basis.eventDigests <;> rw [hpair]
    · rw [if_pos (by rw [hd])]
      rfl
    · rw [if_pos hp]
      rfl
    · rw [if_neg (fun h => hne (h.eq_of_length (h.length_le.antisymm hp.length_le)))]
      rfl
    · rw [if_neg h₁]
      rfl
  unfold RetentionSet.onBasis
  rw [mapEach_eq_ok hstep]
  refine ⟨_, rfl, ?_⟩
  have hmem : ∀ m, m ∈ (entries.map (fun t =>
      if t.2.eventDigests <+: basis.eventDigests then some t.1 else none)).reduceOption ↔
      ∃ t ∈ entries, t.1 = m ∧ t.2.eventDigests <+: basis.eventDigests := by
    intro m
    rw [List.reduceOption_mem_iff, List.mem_map]
    constructor
    · intro h
      obtain ⟨t, ht, hif⟩ := h
      split_ifs at hif with hp
      exact ⟨t, ht, Option.some.inj hif, hp⟩
    · intro h
      obtain ⟨t, ht, rfl, hp⟩ := h
      exact ⟨t, ht, if_pos hp⟩
  generalize hms : (entries.map (fun t =>
    if t.2.eventDigests <+: basis.eventDigests then some t.1 else none)).reduceOption = ms at hmem
  -- And of those the earliest moment is kept.
  obtain ⟨hnone, hsome⟩ := foldl_earliest ms none
  cases hr : ms.foldl (fun earliest moment => some (earliest.elim moment (min · moment))) none with
  | none =>
    left
    refine ⟨rfl, ?_⟩
    intro t ht hp
    have hin := (hmem t.1).mpr ⟨t, ht, rfl, hp⟩
    rw [(hnone.mp hr).2] at hin
    exact List.not_mem_nil hin
  | some e =>
    right
    obtain ⟨hfrom, _, hle⟩ := hsome e hr
    obtain ⟨t, ht, rfl, hp⟩ := (hmem e).mp (hfrom.resolve_left (by simp))
    refine ⟨t, ht, rfl, hp, ?_⟩
    intro u hu hpu
    exact hle u.1 ((hmem u.1).mpr ⟨u, hu, rfl, hpu⟩)

/-- What moving the basis to `target` leaves. -/
structure Moves (b : Book) (s : RetentionSet) (target : RetentionBasis) (tie : Option ValidatedChain)
    (report : Rerank) (s' : RetentionSet) : Prop where
  inv : s'.Inv b
  basis : s'.basis = target.mapChain s.heldCopies
  tiePrefix : s'.tiePrefix = tie.map s.heldCopies
  bounds : s'.bounds = s.bounds
  subset : ∀ c ∈ s'.chains, b.branch c = b.branch target.chain ∨ b.branch c ∈ b.branches s.chains
  covers : ∀ c ∈ s.chains, (∃ d ∈ s'.chains, b.branch c ≤ b.branch d) ∨
    c.headDigest ∈ report.refused
  moment : (s'.basisObserved = s.nextObserved ∧
      ∀ c ∈ s.chains, ¬ c.eventDigests <+: target.chain.eventDigests) ∨
    ∃ c, (s'.basisObserved, c) ∈ s.entries ∧ c.eventDigests <+: target.chain.eventDigests ∧
      ∀ u ∈ s.entries, u.2.eventDigests <+: target.chain.eventDigests → s'.basisObserved ≤ u.1

theorem mapChain_chain (basis : RetentionBasis) (f : ValidatedChain → ValidatedChain) :
    (basis.mapChain f).chain = f basis.chain := by
  cases basis <;> rfl

theorem mapChain_kind (basis : RetentionBasis) (f : ValidatedChain → ValidatedChain) :
    (basis.mapChain f).kind = basis.kind := by
  cases basis <;> rfl

/-- The basis of a moved set takes a moment of its own, so the held chains off it
keep theirs. -/
theorem freshMoments_moved (hinv : s.Inv b) {basis : RetentionBasis} {moment next : ℕ}
    {tie : Option ValidatedChain} {bounds : Bounds} (hnext : s.nextObserved ≤ next)
    (hm : (moment = s.nextObserved ∧
        ∀ t ∈ s.entries, ¬ t.2.eventDigests <+: basis.chain.eventDigests) ∨
      ∃ t ∈ s.entries, moment = t.1 ∧ t.2.eventDigests <+: basis.chain.eventDigests) :
    FreshMoments ⟨basis, moment, tie, [], next, bounds⟩
      (s.entries.map (fun entry => (some entry.1, entry.2))) := by
  have hperm := entries_moments_perm s
  have hnodup : (s.entries.map Prod.fst).Nodup := hperm.nodup_iff.mpr hinv.moments
  refine ⟨?_, ?_⟩
  · have hred : ((s.entries.map (fun entry => (some entry.1, entry.2))).map
        Prod.fst).reduceOption = s.entries.map Prod.fst := by
      rw [List.map_map]
      induction s.entries with
      | nil => rfl
      | cons t ts ih => simpa [List.reduceOption_cons_of_some] using ih
    rwa [hred]
  · intro u hu m hmu
    obtain ⟨t, ht, rfl⟩ := List.mem_map.mp hu
    rw [Option.mem_some_iff] at hmu
    have hmem : t.1 ∈ s.moments := hperm.mem_iff.mp (List.mem_map.mpr ⟨t, ht, rfl⟩)
    have hlt := hinv.before _ hmem
    dsimp only
    refine ⟨by omega, ?_⟩
    intro hoff hin
    have hin' : m = moment := by simpa [RetentionSet.moments] using hin
    rcases hm with ⟨hnew, _⟩ | ⟨v, hv, hmv, hp⟩
    · omega
    · -- The entry that gave the basis its moment is the only one with it.
      have hvt : v = t := List.inj_on_of_nodup_map hnodup hv ht (by omega)
      rw [hvt] at hp
      exact hoff hp

/-- The set a move places the held chains in: the new basis and no suffix. -/
def RetentionSet.movedTo (s : RetentionSet) (basis : RetentionBasis) (tie : Option ValidatedChain)
    (moment next : ℕ) : RetentionSet :=
  ⟨basis.mapChain s.heldCopies, moment, tie.map s.heldCopies, [], next, s.bounds⟩

section Moved
variable {basis : RetentionBasis} {tie : Option ValidatedChain} {report : Rerank}
  (hinv : s.Inv b) (hb : OnBook b basis.chain) (ht : ∀ p ∈ tie, OnBook b p)
  (hk : tie.isSome → basis.kind = .accepted)
include hinv hb ht hk

/-- A move places the entries beside the new basis, which takes the earliest moment
of a held chain on it, or a fresh one. -/
theorem moveTo_start (h : s.moveTo basis tie = .ok (report, s')) :
    ∃ moment next, (s.movedTo basis tie moment next).Inv b ∧
      FreshMoments (s.movedTo basis tie moment next)
        (s.entries.map (fun entry => (some entry.1, entry.2))) ∧
      RetentionSet.placeAll (s.movedTo basis tie moment next) .default
        (s.entries.map (fun entry => (some entry.1, entry.2))) = .ok (report, s') ∧
      s.nextObserved ≤ next ∧
      ((moment = s.nextObserved ∧ ∀ t ∈ s.entries, ¬ t.2.eventDigests <+: basis.chain.eventDigests) ∨
        ∃ t ∈ s.entries, moment = t.1 ∧ t.2.eventDigests <+: basis.chain.eventDigests ∧
          ∀ u ∈ s.entries, u.2.eventDigests <+: basis.chain.eventDigests → t.1 ≤ u.1) := by
  have hcopy' : OnBook b (basis.mapChain s.heldCopies).chain := by
    rw [mapChain_chain]
    exact heldCopies_onBook hinv.onBook hb
  have htie : ∀ p ∈ tie.map s.heldCopies, OnBook b p := by
    intro p hp
    obtain ⟨q, hq, rfl⟩ := Option.mem_map.mp hp
    exact heldCopies_onBook hinv.onBook (ht q hq)
  have hentry : ∀ t ∈ s.entries, OnBook b t.2 := fun t hte =>
    hinv.onBook.chains _ (mem_chains_iff_entry.mpr ⟨t.1, hte⟩)
  have hdig : (basis.mapChain s.heldCopies).chain.eventDigests = basis.chain.eventDigests := by
    rw [mapChain_chain, heldCopies_eventDigests]
  simp only [RetentionSet.moveTo, bind_ok_iff, mapError_ok_iff, Prod.exists] at h
  obtain ⟨r, hr, moment, next, hmoment, h⟩ := h
  obtain ⟨r', hr', hcase⟩ := onBasis_ok hcopy' hentry
  rw [hr, Except.ok.injEq] at hr'
  subst hr'
  -- The moment of the moved basis, and that it is below the next one.
  have hspec : moment < next ∧ s.nextObserved ≤ next ∧ next ≤ u64Max ∧
      ((moment = s.nextObserved ∧ ∀ t ∈ s.entries, ¬ t.2.eventDigests <+: basis.chain.eventDigests) ∨
        ∃ t ∈ s.entries, moment = t.1 ∧ t.2.eventDigests <+: basis.chain.eventDigests ∧
          ∀ u ∈ s.entries, u.2.eventDigests <+: basis.chain.eventDigests → t.1 ≤ u.1) := by
    rw [hdig] at hcase
    have hroom := hinv.room
    rcases hcase with ⟨rfl, hoff⟩ | ⟨t, hte, rfl, hp, hleast⟩
    · simp only [Option.elim_none, seqRight_eq_bind, bind_ok_iff, require_ok_iff,
        decide_eq_true_eq, pure_ok_iff, Prod.mk.injEq, exists_and_left] at hmoment
      obtain ⟨hle, hmoment⟩ := hmoment
      have heq : s.nextObserved = moment ∧ s.nextObserved+1 = next := by simpa using hmoment
      exact ⟨by omega, by omega, by omega, Or.inl ⟨heq.1.symm, hoff⟩⟩
    · simp only [Option.elim_some, pure_ok_iff, Prod.mk.injEq] at hmoment
      have hmem : t.1 ∈ s.moments :=
        (entries_moments_perm s).mem_iff.mp (List.mem_map.mpr ⟨t, hte, rfl⟩)
      have hlt := hinv.before _ hmem
      exact ⟨by omega, by omega, by omega, Or.inr ⟨t, hte, hmoment.1.symm, hp, hleast⟩⟩
  obtain ⟨hlt, hnext, hroom, hm⟩ := hspec
  refine ⟨moment, next, ?_, ?_, h, hnext, hm⟩
  · apply inv_of_no_suffix hcopy' htie hlt hroom
    intro hsome
    rw [mapChain_kind]
    apply hk
    simpa using hsome
  · apply freshMoments_moved hinv hnext
    rw [hdig]
    refine hm.imp_right ?_
    rintro ⟨t, hte, he, hp, _⟩
    exact ⟨t, hte, he, hp⟩

theorem moveTo_ok (h : s.moveTo basis tie = .ok (report, s')) : Moves b s basis tie report s' := by
  obtain ⟨moment, next, hinit, hfresh, hplace, -, hm⟩ := moveTo_start hinv hb ht hk h
  have hall := placeAll_ok hinit (by
    intro u hu
    obtain ⟨t, hte, rfl⟩ := List.mem_map.mp hu
    exact hinv.onBook.chains _ (mem_chains_iff_entry.mpr ⟨t.1, hte⟩)) hfresh hplace
  refine ⟨hall.inv, hall.basis, hall.tiePrefix, hall.bounds, ?_, ?_, ?_⟩
  · intro c hc
    obtain ⟨d, hd, he⟩ := hall.subset (Book.mem_branches hc)
    rw [← he]
    rcases List.mem_append.mp hd with hd | hd
    · left
      rw [List.mem_singleton.mp hd, Book.branch, Book.branch, RetentionSet.movedTo, mapChain_chain,
        heldCopies_eventDigests]
    · right
      obtain ⟨u, hu, rfl⟩ := List.mem_map.mp hd
      obtain ⟨t, hte, rfl⟩ := List.mem_map.mp hu
      exact Book.mem_branches (mem_chains_iff_entry.mpr ⟨t.1, hte⟩)
  · intro c hc
    obtain ⟨m, hmc⟩ := mem_chains_iff_entry.mp hc
    exact hall.placed (some m, c) (List.mem_map.mpr ⟨(m, c), hmc, rfl⟩)
  · have hbo : s'.basisObserved = moment := hall.basisObserved
    rw [hbo]
    rcases hm with ⟨he, hoff⟩ | ⟨t, hte, he, hp, hleast⟩
    · left
      refine ⟨he, ?_⟩
      intro c hc
      obtain ⟨m, hmc⟩ := mem_chains_iff_entry.mp hc
      exact hoff _ hmc
    · right
      refine ⟨t.2, by rw [he]; exact hte, hp, ?_⟩
      intro u hu hpu
      rw [he]
      exact hleast u hu hpu

end Moved

end Move

section Settle
variable {b : Book} {s s' : RetentionSet}

theorem sharedLen_take (x p : List Digest) (k : ℕ) :
    sharedLen x (p.take k) = min (sharedLen x p) k := by
  apply le_antisymm
  · have hk : sharedLen x (p.take k) ≤ k := by
      rw [sharedLen_comm]
      exact (sharedLen_le _ _).trans (List.length_take_le k p)
    have hp : sharedLen x (p.take k) ≤ sharedLen x p := by
      apply le_sharedLen (sharedLen_le _ _)
      rw [take_sharedLen]
      exact (List.take_prefix _ _).trans (List.take_prefix _ _)
    exact le_min hp hk
  · apply le_sharedLen
    · exact (min_le_left _ _).trans (sharedLen_le _ _)
    · have h := congrArg (List.take k) (take_sharedLen x p)
      rw [List.take_take, List.take_take, Nat.min_comm] at h
      rw [h]
      exact List.take_prefix_take_left (min_le_right _ _)

/-- A tie prefix cut no shorter than what a chain shares with it ranks it alike. -/
theorem rankAgainst_take {x p : List Digest} {k : ℕ} (h : sharedLen x p ≤ k) :
    b.rankAgainst x (p.take k) = b.rankAgainst x p := by
  have hs : sharedLen x (p.take k) = sharedLen x p := by
    rw [sharedLen_take, Nat.min_eq_left h]
  have hp : x <+: p.take k ↔ x <+: p := by
    rw [← sharedLen_eq_length_iff, ← sharedLen_eq_length_iff, hs]
  simp only [Book.rankAgainst, hp, hs]

/-- The longest prefix of a chain that a held chain carries. -/
theorem carried_spec (hs : s.OnBook b) {p : ValidatedChain} (hp : OnBook b p) :
    ∃ carried, (s.chains.map (·.sharedPrefixLen p)).max?.getD 0 = carried ∧ 0 < carried ∧
      carried ≤ p.len ∧ (∃ c ∈ s.chains, p.eventDigests.take carried <+: c.eventDigests) ∧
      ∀ c ∈ s.chains, sharedLen c.eventDigests p.eventDigests ≤ carried := by
  obtain ⟨carried, hmax⟩ : ∃ m, (s.chains.map (·.sharedPrefixLen p)).max? = some m := by
    apply Option.isSome_iff_exists.mp
    simp [RetentionSet.chains]
  obtain ⟨hmem, hle⟩ := List.max?_eq_some_iff.mp hmax
  obtain ⟨c, hc, rfl⟩ := List.mem_map.mp hmem
  refine ⟨c.sharedPrefixLen p, by rw [hmax, Option.getD_some], ?_, ?_, ⟨c, hc, ?_⟩, ?_⟩
  · rw [ValidatedChain.sharedPrefixLen_eq]
    exact (hs.chains c hc).shared_pos hp
  · rw [ValidatedChain.sharedPrefixLen_eq, sharedLen_comm, ← p.length_eventDigests]
    exact sharedLen_le _ _
  · rw [ValidatedChain.sharedPrefixLen_eq, ← take_sharedLen]
    exact List.take_prefix _ _
  · intro d hd
    rw [← ValidatedChain.sharedPrefixLen_eq]
    exact hle _ (List.mem_map.mpr ⟨d, hd, rfl⟩)

/-- What settling makes of a tie prefix: it stays where a held chain carries it,
goes where no suffix reads it, and is else cut to what a held chain carries. -/
theorem settled_ok (hinv : s.Inv b) (hk : s.basis.kind = .accepted) {p : ValidatedChain}
    (hp : OnBook b p) :
    ∃ r, s.settled p = .ok r ∧
      ((r = some p ∧ ∃ c ∈ s.chains, p.eventDigests <+: c.eventDigests) ∨
        (r = none ∧ ∀ x ∈ s.suffixes, ¬ s.basis.chain.eventDigests <+: x.chain.eventDigests) ∨
        ∃ q carried, r = some q ∧ OnBook b q ∧ q.eventDigests = p.eventDigests.take carried ∧
          (∃ c ∈ s.chains, q.eventDigests <+: c.eventDigests) ∧
          ∀ c ∈ s.chains, sharedLen c.eventDigests p.eventDigests ≤ carried) := by
  obtain ⟨carried, hcarried, hpos, hlen, ⟨c, hc, hpre⟩, hall⟩ := carried_spec hinv.onBook hp
  unfold RetentionSet.settled
  cases hbasis : s.basis with
  | contestedPrefix contested =>
    rw [hbasis] at hk
    cases hk
  | accepted accepted =>
    have haccepted : OnBook b accepted := by
      have h := hinv.onBook.basis
      rwa [hbasis] at h
    simp only [hcarried]
    by_cases hfull : carried = p.len
    · rw [if_pos hfull]
      refine ⟨some p, rfl, Or.inl ⟨rfl, c, hc, ?_⟩⟩
      rwa [hfull, ← p.length_eventDigests, List.take_length] at hpre
    · rw [if_neg hfull]
      have hpairs : mapEach (fun suffix : RetainedSuffix => pairChains suffix.chain accepted)
          s.suffixes = .ok (s.suffixes.map (fun x =>
            b.pairing x.chain.eventDigests accepted.eventDigests)) := by
        apply mapEach_eq_ok
        intro x hx
        exact (hinv.onBook.suffixes x hx).pairChains_eq haccepted
      -- A suffix off the basis reads the tie prefix exactly where it extends the basis.
      have hread : (s.suffixes.map (fun x =>
          b.pairing x.chain.eventDigests accepted.eventDigests)).any (· = .rightPrefixOfLeft) = true ↔
          ∃ x ∈ s.suffixes, accepted.eventDigests <+: x.chain.eventDigests := by
        simp only [List.any_map, List.any_eq_true, Function.comp_apply, decide_eq_true_eq]
        constructor
        · rintro ⟨x, hx, hpair⟩
          refine ⟨x, hx, ?_⟩
          obtain ⟨h', _⟩ | ⟨h', _⟩ | ⟨_, h', _⟩ | ⟨h', _⟩ :=
            Book.pairing_cases b x.chain.eventDigests accepted.eventDigests
          all_goals first | exact h' | (rw [hpair] at h'; cases h')
        · rintro ⟨x, hx, hpx⟩
          refine ⟨x, hx, ?_⟩
          have hoff := hinv.offBasis x hx
          rw [hbasis] at hoff
          obtain ⟨_, h'⟩ | ⟨_, h', _⟩ | ⟨h', _⟩ | ⟨_, _, h'⟩ :=
            Book.pairing_cases b x.chain.eventDigests accepted.eventDigests
          · exact absurd (h' ▸ List.prefix_rfl) hoff
          · exact absurd h' hoff
          · exact h'
          · exact absurd hpx h'
      rw [hpairs]
      by_cases hany : (s.suffixes.map (fun x =>
          b.pairing x.chain.eventDigests accepted.eventDigests)).any (· = .rightPrefixOfLeft) = true
      · obtain ⟨q, hq⟩ := hp.prefixThrough_isSome (by omega : carried-1 < p.len)
        obtain ⟨hqb, hqd⟩ := hp.prefixThrough hq
        rw [Nat.sub_add_cancel hpos] at hqd
        refine ⟨some q, ?_, Or.inr (Or.inr ⟨q, carried, rfl, hqb, hqd, ⟨c, hc, ?_⟩, hall⟩)⟩
        · simp only [bind, Except.bind, hany, if_true, if_neg hpos.ne', hq]
          rfl
        · rwa [hqd]
      · refine ⟨none, ?_, Or.inr (Or.inl ⟨rfl, ?_⟩)⟩
        · simp only [bind, Except.bind, hany]
          rfl
        · intro x hx hpx
          exact hany (hread.mpr ⟨x, hx, hpx⟩)

/-- A set with another tie prefix that ranks every reader alike keeps the invariant. -/
theorem inv_retie (hinv : s.Inv b) {tie : Option ValidatedChain} (ht : ∀ p ∈ tie, OnBook b p)
    (hk : tie.isSome → s.basis.kind = .accepted)
    (hrank : ∀ x ∈ s.suffixes, s.basis.kind = .accepted →
      s.basis.chain.eventDigests <+: x.chain.eventDigests →
      ∃ p ∈ s.tiePrefix, ∃ q ∈ tie, b.rankAgainst x.chain.eventDigests q.eventDigests =
        b.rankAgainst x.chain.eventDigests p.eventDigests) :
    ({ s with tiePrefix := tie } : RetentionSet).Inv b := by
  have hon : ({ s with tiePrefix := tie } : RetentionSet).OnBook b :=
    ⟨hinv.onBook.basis, hinv.onBook.suffixes, ht⟩
  refine ⟨hon, hinv.apart, hinv.offBasis, hinv.count, hinv.bytes, hinv.moments, hinv.before,
    hinv.room, hk, ?_, hinv.events, hinv.copies⟩
  intro x hx
  have hxb := hinv.onBook.suffixes x hx
  rw [← hinv.ranks x hx, rankPlacement_eq hon hxb, rankPlacement_eq hinv.onBook hxb]
  unfold Book.placement
  by_cases hread : s.basis.kind = .accepted ∧ s.basis.chain.eventDigests <+: x.chain.eventDigests
  · obtain ⟨p, hp, q, hq, he⟩ := hrank x hx hread.1 hread.2
    simp only [Option.mem_def.mp hp, Option.mem_def.mp hq, Option.elim_some, he]
  · simp only [if_neg hread]

theorem settleTiePrefix_ok (hinv : s.Inv b) :
    ∃ r, s.settleTiePrefix = .ok { s with tiePrefix := r } ∧
      ({ s with tiePrefix := r } : RetentionSet).Inv b ∧
      ({ s with tiePrefix := r } : RetentionSet).Carried := by
  unfold RetentionSet.settleTiePrefix
  cases htie : s.tiePrefix with
  | none =>
    refine ⟨none, rfl, ?_, by simp [RetentionSet.Carried]⟩
    rwa [← htie]
  | some p =>
    have hk : s.basis.kind = .accepted := hinv.kind (by rw [htie]; rfl)
    have hp := hinv.onBook.tiePrefix p htie
    obtain ⟨r, hok, hcase⟩ := settled_ok hinv hk hp
    refine ⟨r, by simp only [hok]; rfl, ?_, ?_⟩
    · apply inv_retie hinv
      · intro q hq
        rcases hcase with ⟨rfl, _⟩ | ⟨rfl, _⟩ | ⟨q', _, rfl, hqb, _⟩
        · rw [Option.mem_some_iff] at hq
          rwa [← hq]
        · cases hq
        · rw [Option.mem_some_iff] at hq
          rwa [← hq]
      · exact fun _ => hk
      · intro x hx _ hread
        refine ⟨p, htie, ?_⟩
        rcases hcase with ⟨rfl, _⟩ | ⟨rfl, hnone⟩ | ⟨q, carried, rfl, _, hqd, _, hall⟩
        · exact ⟨p, rfl, rfl⟩
        · exact absurd hread (hnone x hx)
        · refine ⟨q, rfl, ?_⟩
          rw [hqd]
          exact rankAgainst_take (hall _ (List.mem_cons_of_mem _ (List.mem_map.mpr ⟨x, hx, rfl⟩)))
    · intro q hq
      rcases hcase with ⟨rfl, hcar⟩ | ⟨rfl, _⟩ | ⟨q', _, rfl, _, _, hcar, _⟩
      · rw [Option.mem_some_iff] at hq
        rwa [← hq]
      · cases hq
      · rw [Option.mem_some_iff] at hq
        rwa [← hq]

end Settle

section Operations
variable {b : Book} {s s' : RetentionSet} {candidate : ValidatedChain}

/-- An admission is a placement with the tie prefix settled after it. -/
theorem admit_ok {admission : Admission} (hinv : s.Inv b) (hc : OnBook b candidate)
    (h : s.admit_ candidate = (.ok admission, s')) :
    ∃ placed tie, Places b s candidate none admission placed ∧
      s' = { placed with tiePrefix := tie } ∧ s'.Inv b ∧ s'.Carried := by
  unfold RetentionSet.admit_ at h
  cases hplace : s.place candidate none with
  | error error => simp [hplace] at h
  | ok r =>
    obtain ⟨admission', placed⟩ := r
    have hp := place_cases hinv.onBook hc hplace
    have hinv' : placed.Inv b := hp.inv hinv hc (by simp)
    obtain ⟨tie, hok, hsettled, hcarried⟩ := settleTiePrefix_ok hinv'
    simp only [hplace, hok, Prod.mk.injEq, Except.ok.injEq] at h
    obtain ⟨rfl, rfl⟩ := h
    exact ⟨placed, tie, hp, rfl, hsettled, hcarried⟩

/-- A failed admission leaves the set as it was: settling does not fail. -/
theorem admit_error {error : RetentionError} (hinv : s.Inv b) (hc : OnBook b candidate)
    (h : s.admit_ candidate = (.error error, s')) : s' = s := by
  unfold RetentionSet.admit_ at h
  cases hplace : s.place candidate none with
  | error error =>
    simp only [hplace, Prod.mk.injEq] at h
    exact h.2.symm
  | ok r =>
    obtain ⟨admission, placed⟩ := r
    have hinv' : placed.Inv b := (place_cases hinv.onBook hc hplace).inv hinv hc (by simp)
    obtain ⟨tie, hok, _⟩ := settleTiePrefix_ok hinv'
    simp [hplace, hok] at h

theorem rerank_moveTo {basis : RetentionBasis} {report : Rerank}
    (h : s.rerank basis = (.ok report, s')) : s.moveTo basis none = .ok (report, s') := by
  unfold RetentionSet.rerank at h
  split at h
  · cases h
  · split at h
    · cases h
    · rename_i hmove
      cases h
      exact hmove

theorem rerank_ok {basis : RetentionBasis} {report : Rerank} (hinv : s.Inv b)
    (hb : OnBook b basis.chain) (h : s.rerank basis = (.ok report, s')) :
    Moves b s basis none report s' :=
  moveTo_ok hinv hb (by simp) (by simp) (rerank_moveTo h)

theorem rerank_error {basis : RetentionBasis} {error : RetentionError}
    (h : s.rerank basis = (.error error, s')) : s' = s := by
  unfold RetentionSet.rerank at h
  split at h
  · exact (Prod.mk.inj h).2.symm
  · split at h
    · exact (Prod.mk.inj h).2.symm
    · cases h

/-- Chains that bring no moment of their own take fresh ones. -/
theorem freshMoments_none (s : RetentionSet) (chains : List ValidatedChain) :
    FreshMoments s (chains.map (fun chain => (none, chain))) := by
  refine ⟨?_, ?_⟩
  · have hred : ((chains.map (fun chain => ((none : Option ℕ), chain))).map
        Prod.fst).reduceOption = [] := by
      rw [List.map_map]
      induction chains with
      | nil => rfl
      | cons c cs ih => simp [List.reduceOption_cons_of_none]
    rw [hred]
    exact List.nodup_nil
  · intro t ht m hm
    obtain ⟨c, _, rfl⟩ := List.mem_map.mp ht
    cases hm

/-- A contest moves an accepted basis nowhere, beside the tied prefix, and a contested
one to it. -/
theorem moveToTie_ok {tiePrefix : ValidatedChain} {report : Rerank} (hs : s.OnBook b)
    (ht : OnBook b tiePrefix) (h : s.moveToTie tiePrefix = .ok (report, s')) :
    ∃ target tie,
      ((s.basis.kind = .accepted ∧ target = s.basis ∧ tie = some tiePrefix) ∨
        (s.basis.kind = .contestedPrefix ∧ target = .contestedPrefix tiePrefix ∧ tie = none)) ∧
      OnBook b target.chain ∧ (∀ p ∈ tie, OnBook b p) ∧
      (tie.isSome → target.kind = .accepted) ∧ s.moveTo target tie = .ok (report, s') := by
  have hbasis := hs.basis
  unfold RetentionSet.moveToTie at h
  cases hb : s.basis with
  | accepted accepted =>
    rw [hb] at h hbasis
    refine ⟨_, _, Or.inl ⟨rfl, rfl, rfl⟩, hbasis, ?_, fun _ => rfl, h⟩
    intro p hp
    rw [Option.mem_some_iff] at hp
    rwa [← hp]
  | contestedPrefix contested =>
    rw [hb] at h
    exact ⟨_, _, Or.inr ⟨rfl, rfl, rfl⟩, ht, by simp, by simp, h⟩

/-- A contest moves the set to the tied prefix, places the candidates, and settles. -/
theorem afterContest_ok {tiePrefix : ValidatedChain} {candidates : List ValidatedChain}
    {report : Rerank} (hinv : s.Inv b) (ht : OnBook b tiePrefix)
    (hc : ∀ c ∈ candidates, OnBook b c)
    (h : s.afterContest tiePrefix candidates = .ok (report, s')) :
    ∃ target tieGiven report₁ moved placed tie,
      ((s.basis.kind = .accepted ∧ target = s.basis ∧ tieGiven = some tiePrefix) ∨
        (s.basis.kind = .contestedPrefix ∧ target = .contestedPrefix tiePrefix ∧ tieGiven = none)) ∧
      Moves b s target tieGiven report₁ moved ∧
      PlacesAll b moved report₁ (candidates.map (fun chain => (none, chain))) report placed ∧
      s' = { placed with tiePrefix := tie } ∧ s'.Inv b ∧ s'.Carried := by
  simp only [RetentionSet.afterContest, bind_ok_iff, mapError_ok_iff, pure_ok_iff, Prod.exists,
    Prod.mk.injEq] at h
  obtain ⟨report₁, moved, hmove, report', placed, hplace, settled, hsettle, rfl, rfl⟩ := h
  obtain ⟨target, tieGiven, hcase, hb, htie, hk, hmove⟩ := moveToTie_ok hinv.onBook ht hmove
  have hmoves := moveTo_ok hinv hb htie hk hmove
  have hplaces := placeAll_ok hmoves.inv
    (by
      intro t htm
      obtain ⟨c, hcm, rfl⟩ := List.mem_map.mp htm
      exact hc c hcm) (freshMoments_none moved candidates) hplace
  obtain ⟨tie, hok, hinv', hcarried⟩ := settleTiePrefix_ok hplaces.inv
  rw [hok, Except.ok.injEq] at hsettle
  subst hsettle
  exact ⟨target, tieGiven, report₁, moved, placed, tie, hcase, hmoves, hplaces, rfl, hinv',
    hcarried⟩

/-- A confirmed basis is extended by no suffix, so nothing reads the tie prefix. -/
theorem confirmAccepted_ok {served : List ValidatedChain} (hinv : s.Inv b)
    (hc : ∀ c ∈ served, OnBook b c)
    (hwin : resolveSet (s.chains ++ served) = .ok (.winner s.basis.chain.headDigest)) :
    s.confirmAccepted.Inv b ∧ s.confirmAccepted.Carried := by
  have hon : ∀ c ∈ s.chains ++ served, OnBook b c := by
    intro c hcm
    rcases List.mem_append.mp hcm with hcm | hcm
    · exact hinv.onBook.chains c hcm
    · exact hc c hcm
  obtain ⟨m, hm, hhead⟩ := (Book.resolveSet_eq_iff hon _).mp hwin
  obtain ⟨w, hw, rfl⟩ := ((hm m).mpr rfl).prop
  rw [Book.branch_elements, w.headDigest_eq, Option.some.injEq] at hhead
  have hbasis : w.eventDigests = s.basis.chain.eventDigests :=
    (hon w hw).eq_of_head hinv.onBook.basis hhead
  refine ⟨inv_retie hinv (by simp) (by simp) ?_, by simp [RetentionSet.Carried,
    RetentionSet.confirmAccepted]⟩
  intro x hx _ hread
  -- The winner is maximal, so a suffix that extends it is on it.
  have hmax := (hm (b.branch w)).mpr rfl
  have hle : b.branch w ≤ b.branch x.chain := by
    apply Branch.le_of_prefix
    rw [Book.branch_elements, hbasis]
    exact hread
  have hxm : x.chain ∈ s.chains ++ served :=
    List.mem_append_left _ (List.mem_cons_of_mem _ (List.mem_map.mpr ⟨x, hx, rfl⟩))
  have heq := hmax.eq_of_le (Book.mem_branches hxm) hle
  have hdig : w.eventDigests = x.chain.eventDigests := congrArg Branch.elements heq
  exact absurd (by rw [← hdig, hbasis]) (hinv.offBasis x hx)

end Operations

end ScpCore.Kel
