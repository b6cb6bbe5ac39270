import ScpCore.KelRetentionRun

/-! Placing chains that fit. Where the chains to place lie apart and their events
past the forks come to no more than the byte bound, each of them enters in turn
and none is evicted. -/

namespace ScpCore.Kel

/-- The units of the chain's events have the lengths `size` gives their digests. -/
def Sized (size : Digest → ℕ) (c : ValidatedChain) : Prop :=
  ∀ e ∈ c.events, e.unit.length = size e.digest

section Sized
variable {b : Book} {size : Digest → ℕ} {s : RetentionSet} {c d : ValidatedChain}

/-- Chains that carry one copy of every event they share have a common size. -/
theorem exists_sized {chains : List ValidatedChain}
    (h : ∀ c ∈ chains, ∀ d ∈ chains, SameCopies c d) : ∃ size, ∀ c ∈ chains, Sized size c := by
  classical
  refine ⟨fun digest => if hx : ∃ n, ∃ c ∈ chains, ∃ e ∈ c.events,
    e.digest = digest ∧ e.unit.length = n then hx.choose else 0, ?_⟩
  intro c hc e he
  have hx : ∃ n, ∃ c ∈ chains, ∃ f ∈ c.events, f.digest = e.digest ∧ f.unit.length = n :=
    ⟨e.unit.length, c, hc, e, he, rfl, rfl⟩
  obtain ⟨d, hd, f, hf, hdig, hlen⟩ := hx.choose_spec
  dsimp only
  rw [dif_pos hx, ← hlen, h d hd c hc f hf e he hdig]

theorem Sized.extendedBy (hc : Sized size c) (hd : Sized size d) : Sized size (c.extendedBy d) := by
  intro e he
  obtain ⟨i, hi⟩ := List.mem_iff_getElem?.mp he
  rw [ValidatedChain.extendedBy_getElem?] at hi
  split_ifs at hi
  · exact hc e (List.mem_of_getElem? hi)
  · exact hd e (List.mem_of_getElem? hi)

theorem Sized.heldCopies (hs : ∀ c ∈ s.chains, Sized size c) (hc : Sized size c) :
    Sized size (s.heldCopies c) := by
  obtain ⟨source, hmem, he, _⟩ := heldCopies_source s c
  rw [he]
  exact (hs source hmem).extendedBy hc

/-- Events numbered from `start` on, from number `k` on. -/
theorem filter_sequence (es : List ChainEvent) (start k : ℕ)
    (h : ∀ (i : ℕ) (e : ChainEvent), es[i]? = some e → e.sequence = start+i) :
    es.filter (fun e => k ≤ e.sequence) = es.drop (k-start) := by
  induction es generalizing start with
  | nil => simp
  | cons e es ih =>
    have hhead : e.sequence = start := h 0 e rfl
    have hrest := ih (start+1) (by
      intro i f hf
      have := h (i+1) f (by simpa using hf)
      omega)
    by_cases hk : k ≤ start
    · rw [List.filter_cons_of_pos (by simpa [hhead] using hk), hrest,
        Nat.sub_eq_zero_of_le hk, Nat.sub_eq_zero_of_le (by omega), List.drop_zero, List.drop_zero]
    · rw [List.filter_cons_of_neg (by simpa [hhead] using hk), hrest,
        show k-start = (k-(start+1))+1 by omega, List.drop_succ_cons]

theorem OnBook.unitLensFrom_eq (hc : OnBook b c) (hs : Sized size c) (k : ℕ) :
    c.unitLensFrom k = (c.eventDigests.drop k).map (fun digest => (digest, size digest)) := by
  have hfilter := filter_sequence c.events 0 k (by
    intro i e he
    rw [hc.sequence i e he, Nat.zero_add])
  rw [ValidatedChain.unitLensFrom, hfilter, Nat.sub_zero, ValidatedChain.eventDigests,
    ← List.map_drop, List.map_map]
  apply List.map_congr_left
  intro e he
  rw [hs e (List.mem_of_mem_drop he)]
  rfl

theorem OnBook.size_of_unitLen (hc : OnBook b c) (hs : Sized size c) {k : ℕ} {p : Digest × ℕ}
    (hp : p ∈ c.unitLensFrom k) : p.2 = size p.1 := by
  rw [hc.unitLensFrom_eq hs] at hp
  obtain ⟨d, -, rfl⟩ := List.mem_map.mp hp
  rfl

/-- Lengths that a size gives agree on every event. -/
theorem consistent_of_size {events : List (Digest × ℕ)} (h : ∀ p ∈ events, p.2 = size p.1) :
    OrderedMap.Consistent events := by
  intro p hp q hq hpq
  exact Prod.ext hpq (by rw [h p hp, h q hq, hpq])

/-- One size gives the length of every unit held and of a chain in held copies. -/
theorem RetentionSet.Inv.exists_sized (h : s.Inv b) (hc : Kel.OnBook b c) :
    ∃ size, ∀ d ∈ s.heldCopies c :: s.chains, Sized size d := by
  have hcopies : ∀ d ∈ s.chains, SameCopies d (s.heldCopies c) := fun d hd =>
    heldCopies_sameCopies h.onBook h.copies hc hd
  apply Kel.exists_sized
  intro d hd e he
  rcases List.mem_cons.mp hd with rfl | hd
  · rcases List.mem_cons.mp he with rfl | he
    · exact (heldCopies_onBook h.onBook hc).sameCopies
    · exact (hcopies e he).symm
  · rcases List.mem_cons.mp he with rfl | he
    · exact hcopies d hd
    · exact h.copies d hd e he

end Sized

section Refit
variable {b : Book} {size : Digest → ℕ} {s : RetentionSet} {c : ValidatedChain}

/-- A candidate apart from every suffix that fits beside them all enters, and
nothing is evicted for it. -/
theorem place_fits (hs : s.OnBook b) (hc : OnBook b c) {moment fork : ℕ} {rank : ForkRank}
    (hrank : s.rankPlacement c = .ok (some (rank, fork)))
    (happart : ∀ x ∈ s.suffixes, ¬ c.eventDigests <+: x.chain.eventDigests ∧
      ¬ x.chain.eventDigests <+: c.eventDigests)
    (hfit : fits (s.suffixes.map (·.slot))
      ⟨rank, moment, (s.heldCopies c).unitLensFrom fork⟩ s.bounds = true) :
    s.place c (some moment) = .ok (.retained rank [],
      { s with suffixes := s.suffixes ++
        [⟨s.heldCopies c, fork, ⟨rank, moment, (s.heldCopies c).unitLensFrom fork⟩⟩] }) := by
  obtain ⟨r, hr, hcase⟩ := findExtended_ok hc hs.suffixes 0 none
  have hnone : r = some none := by
    rcases hcase with ⟨_, x, hx, hp⟩ | ⟨extended, hext, _, hfound⟩
    · exact absurd hp (happart x hx).1
    · rcases hfound with ⟨rfl, _⟩ | ⟨_, x, hx, _, hp⟩
      · exact hext
      · exact absurd hp (happart x (List.mem_of_getElem? hx)).2
  rw [hnone] at hr
  have hslot : s.slotFor (s.heldCopies c) (some moment) rank fork none =
      ⟨rank, moment, (s.heldCopies c).unitLensFrom fork⟩ := rfl
  have hkept : (((s.suffixes.map (·.slot)).zipIdx.filter
      (fun t => some t.2 ≠ (none : Option ℕ))).map (·.1)) = s.suffixes.map (·.slot) := by
    simp
  have hplan : planEvictions (s.suffixes.map (·.slot)) [] none
      ⟨rank, moment, (s.heldCopies c).unitLensFrom fork⟩ s.bounds = some [] := by
    apply planEvictions_of_fits
    simpa using hfit
  have hadmission : s.admissionFor rank [] none = .retained rank [] := by
    simp [RetentionSet.admissionFor]
  have hentered : s.entered ⟨s.heldCopies c, fork,
      ⟨rank, moment, (s.heldCopies c).unitLensFrom fork⟩⟩ [] none s.nextObserved =
      { s with suffixes := s.suffixes ++
        [⟨s.heldCopies c, fork, ⟨rank, moment, (s.heldCopies c).unitLensFrom fork⟩⟩] } := by
    simp [RetentionSet.entered]
  have hnext : s.nextAfter (some moment) none = .ok s.nextObserved := rfl
  simp only [RetentionSet.place, hrank, hr, bind, Except.bind, Except.mapError,
    RetentionSet.enter, hslot, hnext, hkept, RetentionSet.guardsFor, if_pos hfit,
    hplan, Option.elim_some, hadmission, hentered, pure, Except.pure]

/-- Off the basis a digest list has a rank, where it may extend the basis. -/
theorem placement_of_off {basis : RetentionBasis} {tie : Option ValidatedChain} {x : List Digest}
    (hoff : ¬ x <+: basis.chain.eventDigests)
    (htie : basis.kind = .accepted → basis.chain.eventDigests <+: x → tie.isSome) :
    ∃ rank, b.placement basis tie x =
      .ok (some (rank, sharedLen x basis.chain.eventDigests)) := by
  unfold Book.placement
  rw [if_neg hoff]
  by_cases hk : basis.kind = .accepted ∧ basis.chain.eventDigests <+: x
  · obtain ⟨p, rfl⟩ := Option.isSome_iff_exists.mp (htie hk.1 hk.2)
    rw [if_pos hk]
    exact ⟨_, rfl⟩
  · rw [if_neg hk]
    exact ⟨_, rfl⟩

/-- The chains still to place lie apart and fit beside the suffixes. -/
structure Refit (b : Book) (size : Digest → ℕ) (s : RetentionSet)
    (todo : List (ℕ × ValidatedChain)) : Prop where
  onBook : s.OnBook b
  todoBook : ∀ t ∈ todo, OnBook b t.2
  sized : ∀ c ∈ s.chains, Sized size c
  todoSized : ∀ t ∈ todo, Sized size t.2
  tied : ∀ t ∈ todo, ¬ t.2.eventDigests <+: s.basis.chain.eventDigests →
    s.basis.kind = .accepted → s.basis.chain.eventDigests <+: t.2.eventDigests → s.tiePrefix.isSome
  apart : ∀ t ∈ todo, ∀ x ∈ s.suffixes, ¬ t.2.eventDigests <+: x.chain.eventDigests ∧
    ¬ x.chain.eventDigests <+: t.2.eventDigests
  todoApart : todo.Pairwise (fun t u => ¬ t.2.eventDigests <+: u.2.eventDigests ∧
    ¬ u.2.eventDigests <+: t.2.eventDigests)
  events : ∀ x ∈ s.suffixes, x.slot.events = x.chain.unitLensFrom x.forkPosition
  count : s.suffixes.length +
    todo.countP (fun t => ¬ t.2.eventDigests <+: s.basis.chain.eventDigests) ≤ s.bounds.suffixes
  bytes : unionLen (s.suffixes.flatMap (·.slot.events) ++
    todo.flatMap (fun t => t.2.unitLensFrom (t.2.sharedPrefixLen s.basis.chain))) ≤ s.bounds.bytes

namespace Refit
variable {t : ℕ × ValidatedChain} {rest : List (ℕ × ValidatedChain)}

/-- Every slot gives an event the length of its size. -/
theorem size_of_event (h : Refit b size s rest) {p : Digest × ℕ}
    (hp : p ∈ s.suffixes.flatMap (·.slot.events)) : p.2 = size p.1 := by
  obtain ⟨x, hx, hpx⟩ := List.mem_flatMap.mp hp
  have hmem : x.chain ∈ s.chains := List.mem_cons_of_mem _ (List.mem_map.mpr ⟨x, hx, rfl⟩)
  rw [h.events x hx] at hpx
  exact (h.onBook.chains _ hmem).size_of_unitLen (h.sized _ hmem) hpx

/-- The next chain fits beside the suffixes. -/
theorem fits_next (h : Refit b size s (t :: rest)) {rank : ForkRank}
    (hoff : ¬ t.2.eventDigests <+: s.basis.chain.eventDigests) :
    fits (s.suffixes.map (·.slot)) ⟨rank, t.1, (s.heldCopies t.2).unitLensFrom
      (sharedLen t.2.eventDigests s.basis.chain.eventDigests)⟩ s.bounds = true := by
  have htb := h.todoBook t List.mem_cons_self
  have hts := h.todoSized t List.mem_cons_self
  have hlens : (s.heldCopies t.2).unitLensFrom
      (sharedLen t.2.eventDigests s.basis.chain.eventDigests) =
      t.2.unitLensFrom (t.2.sharedPrefixLen s.basis.chain) := by
    rw [(heldCopies_onBook h.onBook htb).unitLensFrom_eq (Sized.heldCopies h.sized hts),
      heldCopies_eventDigests, htb.unitLensFrom_eq hts, ValidatedChain.sharedPrefixLen_eq]
  have hevents : (s.suffixes.map (·.slot) ++ [(⟨rank, t.1, (s.heldCopies t.2).unitLensFrom
      (sharedLen t.2.eventDigests s.basis.chain.eventDigests)⟩ : Slot)]).flatMap (·.events) =
      s.suffixes.flatMap (·.slot.events) ++
        t.2.unitLensFrom (t.2.sharedPrefixLen s.basis.chain) := by
    rw [List.flatMap_append, List.flatMap_map, List.flatMap_singleton, hlens]
  have hcons : OrderedMap.Consistent (s.suffixes.flatMap (·.slot.events) ++
      t.2.unitLensFrom (t.2.sharedPrefixLen s.basis.chain)) := by
    apply consistent_of_size
    intro p hp
    rcases List.mem_append.mp hp with hp | hp
    · exact h.size_of_event hp
    · exact htb.size_of_unitLen hts hp
  have hcount := h.count
  rw [List.countP_cons_of_pos (by simpa using hoff)] at hcount
  have hbytes := h.bytes
  simp only [fits, Bool.and_eq_true, decide_eq_true_eq, List.length_map]
  refine ⟨by omega, ?_⟩
  rw [unionBytes_eq (by rw [hevents]; exact hcons), hevents]
  refine (unionLen_mono ?_).trans hbytes
  rw [List.flatMap_cons, ← List.append_assoc]
  exact List.subset_append_left _ _

/-- A chain that lies on the basis changes nothing. -/
theorem place_on (h : Refit b size s (t :: rest))
    (hon : t.2.eventDigests <+: s.basis.chain.eventDigests) :
    s.place t.2 (some t.1) = .ok (.alreadyHeld, s) ∧ Refit b size s rest := by
  have htb := h.todoBook t List.mem_cons_self
  have hrank : s.rankPlacement t.2 = .ok none := by
    rw [rankPlacement_eq h.onBook htb, Book.placement, if_pos hon]
  refine ⟨by simp only [RetentionSet.place, hrank, bind, Except.bind, pure, Except.pure], ?_⟩
  have hcount := h.count
  rw [List.countP_cons_of_neg (by simpa using hon)] at hcount
  refine ⟨h.onBook, fun u hu => h.todoBook u (List.mem_cons_of_mem _ hu), h.sized,
    fun u hu => h.todoSized u (List.mem_cons_of_mem _ hu),
    fun u hu => h.tied u (List.mem_cons_of_mem _ hu),
    fun u hu => h.apart u (List.mem_cons_of_mem _ hu), (List.pairwise_cons.mp h.todoApart).2,
    h.events, hcount, (unionLen_mono ?_).trans h.bytes⟩
  intro p hp
  rw [List.flatMap_cons]
  rcases List.mem_append.mp hp with hp | hp
  · exact List.mem_append_left _ hp
  · exact List.mem_append_right _ (List.mem_append_right _ hp)

/-- A chain off the basis enters. -/
theorem place_off (h : Refit b size s (t :: rest))
    (hoff : ¬ t.2.eventDigests <+: s.basis.chain.eventDigests) :
    ∃ rank x, s.place t.2 (some t.1) =
        .ok (.retained rank [], { s with suffixes := s.suffixes ++ [x] }) ∧
      x.observed = t.1 ∧ x.chain = s.heldCopies t.2 ∧
      Refit b size { s with suffixes := s.suffixes ++ [x] } rest := by
  have htb := h.todoBook t List.mem_cons_self
  have hts := h.todoSized t List.mem_cons_self
  have hcopy := heldCopies_onBook h.onBook htb
  have hcopySize := Sized.heldCopies h.sized hts
  obtain ⟨rank, hrank⟩ := placement_of_off (b := b) hoff (h.tied t List.mem_cons_self hoff)
  rw [← rankPlacement_eq h.onBook htb] at hrank
  refine ⟨rank, _, place_fits h.onBook htb hrank (h.apart t List.mem_cons_self)
    (h.fits_next hoff), rfl, rfl, ?_⟩
  -- The placed chain was counted among those still to place.
  have hcount := h.count
  rw [List.countP_cons_of_pos (by simpa using hoff)] at hcount
  refine ⟨⟨h.onBook.basis, ?_, h.onBook.tiePrefix⟩,
    fun u hu => h.todoBook u (List.mem_cons_of_mem _ hu), ?_,
    fun u hu => h.todoSized u (List.mem_cons_of_mem _ hu),
    fun u hu => h.tied u (List.mem_cons_of_mem _ hu), ?_, (List.pairwise_cons.mp h.todoApart).2,
    ?_, ?_, (unionLen_mono ?_).trans h.bytes⟩
  · intro x hx
    rcases List.mem_append.mp hx with hx | hx
    · exact h.onBook.suffixes x hx
    · rw [List.mem_singleton.mp hx]
      exact hcopy
  · intro c hc
    simp only [RetentionSet.chains, List.map_append, List.map_cons, List.map_nil] at hc
    rw [← List.cons_append] at hc
    rcases List.mem_append.mp hc with hc | hc
    · exact h.sized c hc
    · rw [List.mem_singleton.mp hc]
      exact hcopySize
  · intro u hu x hx
    rcases List.mem_append.mp hx with hx | hx
    · exact h.apart u (List.mem_cons_of_mem _ hu) x hx
    · rw [List.mem_singleton.mp hx]
      simp only [heldCopies_eventDigests]
      exact ((List.pairwise_cons.mp h.todoApart).1 u hu).symm
  · intro x hx
    rcases List.mem_append.mp hx with hx | hx
    · exact h.events x hx
    · rw [List.mem_singleton.mp hx]
  · rw [List.length_append, List.length_singleton]
    dsimp only
    omega
  · -- The chain's events move from the chains still to place to the suffixes.
    intro p hp
    rw [List.flatMap_append, List.flatMap_singleton, List.append_assoc] at hp
    rw [List.flatMap_cons]
    dsimp only at hp
    rwa [hcopy.unitLensFrom_eq hcopySize, heldCopies_eventDigests,
      ← ValidatedChain.sharedPrefixLen_eq, ← htb.unitLensFrom_eq hts] at hp

/-- Every chain that lies off the basis enters, each with its moment, in order. -/
theorem placeAll_ok (h : Refit b size s rest) (report : Rerank) :
    ∃ report' s', RetentionSet.placeAll s report (rest.map (fun t => (some t.1, t.2))) =
        .ok (report', s') ∧
      s'.suffixes.map (fun x => (x.observed, x.chain.eventDigests)) =
        s.suffixes.map (fun x => (x.observed, x.chain.eventDigests)) ++
          (rest.filter (fun t => ¬ t.2.eventDigests <+: s.basis.chain.eventDigests)).map
            (fun t => (t.1, t.2.eventDigests)) := by
  induction rest generalizing s report with
  | nil => exact ⟨report, s, rfl, by simp⟩
  | cons t rest ih =>
    by_cases hon : t.2.eventDigests <+: s.basis.chain.eventDigests
    · obtain ⟨hplace, hrest⟩ := h.place_on hon
      obtain ⟨report', s', hall, hsuf⟩ := ih hrest (report.count t.2.headDigest .alreadyHeld)
      refine ⟨report', s', ?_, ?_⟩
      · simp only [List.map_cons, RetentionSet.placeAll, hplace, bind, Except.bind]
        exact hall
      · rw [hsuf, List.filter_cons_of_neg (by simpa using hon)]
    · obtain ⟨rank, x, hplace, hm, hc, hrest⟩ := h.place_off hon
      obtain ⟨report', s', hall, hsuf⟩ := ih hrest (report.count t.2.headDigest (.retained rank []))
      refine ⟨report', s', ?_, ?_⟩
      · simp only [List.map_cons, RetentionSet.placeAll, hplace, bind, Except.bind]
        exact hall
      · rw [hsuf, List.filter_cons_of_pos (by simpa using hon)]
        simp [hm, hc]

end Refit

end Refit

end ScpCore.Kel
