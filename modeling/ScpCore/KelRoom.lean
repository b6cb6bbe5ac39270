import ScpCore.KelAccepted

/-! A store whose bounds have room for every chain that arrives. Nothing is
evicted for such a chain, neither when it enters nor when acceptance moves, so
every event held before it is held after it. -/

namespace ScpCore.Kel

/-- The bounds have room for a chain they do not refuse: with it in place of what
it extends, the held chains keep to the suffix bound, and their events past the
forks to the byte bound, counted from the accepted chain and from the chain that
then leads. -/
def RetentionSet.Room (s : RetentionSet) (chain : ValidatedChain) : Prop :=
  (∀ rank, (s.admit_ chain).1 ≠ .ok (.refused rank)) →
  (s.arrived chain).length ≤ s.bounds.suffixes+1 ∧
  ∀ w ∈ s.arrived chain,
    s.basis.chain.eventDigests <+: w.2.eventDigests ∨ Leads (s.arrived chain) w →
    unionLen ((s.arrived chain).flatMap (fun u =>
      u.2.unitLensFrom (u.2.sharedPrefixLen w.2))) ≤ s.bounds.bytes

section Room
variable {b : Book} {s s' : RetentionSet} {chain : ValidatedChain}

theorem RetentionSet.Room.safeArrival (h : s.Room chain) : s.SafeArrival chain := by
  intro _ hallowed w hw hleads _
  exact .inr ((h hallowed).2 w hw (.inr hleads))

/-- What a chain extends of the suffixes, by its index. -/
def RetentionSet.Extends (s : RetentionSet) (chain : ValidatedChain) (extended : Option ℕ) : Prop :=
  (extended = none ∧ ∀ x ∈ s.suffixes, ¬ x.chain.eventDigests <+: chain.eventDigests) ∨
    ∃ i x, s.suffixes[i]? = some x ∧ extended = some i ∧
      x.chain.eventDigests <+: chain.eventDigests

/-- Where nothing is evicted, the suffixes that stay are those off the chain. -/
theorem mem_staying_iff_off (h : s.Inv b) {extended : Option ℕ} (hext : s.Extends chain extended)
    {x : RetainedSuffix} :
    x ∈ s.staying [] extended ↔ x ∈ s.suffixes ∧ ¬ x.chain.eventDigests <+: chain.eventDigests := by
  rw [mem_staying]
  constructor
  · intro hx
    obtain ⟨i, hi, -, hne⟩ := hx
    refine ⟨List.mem_of_getElem? hi, ?_⟩
    rcases hext with ⟨-, hnone⟩ | ⟨j, y, hj, rfl, hy⟩
    · exact hnone x (List.mem_of_getElem? hi)
    · -- Two suffixes on the chain would lie one on the other.
      intro hp
      apply hne
      rcases List.prefix_or_prefix_of_prefix hp hy with hle | hle
      · rw [h.apart_at hi hj hle]
      · rw [h.apart_at hj hi hle]
  · intro hx
    obtain ⟨hmem, hoff⟩ := hx
    obtain ⟨i, hi⟩ := List.mem_iff_getElem?.mp hmem
    refine ⟨i, hi, List.not_mem_nil, ?_⟩
    rcases hext with ⟨rfl, -⟩ | ⟨j, y, hj, rfl, hy⟩
    · simp
    · intro heq
      rw [Option.some.inj heq, hi, Option.some.injEq] at hj
      rw [hj] at hoff
      exact hoff hy

/-- Beside the accepted chain and the arriving one stand the suffixes that stay. -/
theorem staying_length_le (h : s.Inv b) {extended : Option ℕ} (hext : s.Extends chain extended)
    (hdiv : ¬ s.basis.chain.eventDigests <+: chain.eventDigests) :
    (s.staying [] extended).length+2 ≤ (s.arrived chain).length := by
  have hstay : (s.staying [] extended).length ≤
      (s.suffixes.filter (fun x => ¬ x.chain.eventDigests <+: chain.eventDigests)).length := by
    apply List.Sublist.length_le
    have hself : (s.staying [] extended).filter
        (fun x => ¬ x.chain.eventDigests <+: chain.eventDigests) = s.staying [] extended := by
      apply List.filter_eq_self.mpr
      intro x hx
      simpa using ((mem_staying_iff_off h hext).mp hx).2
    rw [← hself]
    exact (staying_sublist s [] extended).filter _
  have hentries : (s.entries.filter (fun t => ¬ t.2.eventDigests <+: chain.eventDigests)).length =
      (s.suffixes.filter (fun x => ¬ x.chain.eventDigests <+: chain.eventDigests)).length+1 := by
    have hperm := (List.perm_insertionSort (fun a b : ℕ × ValidatedChain => a.1 ≤ b.1)
      (s.suffixes.map (fun suffix => (suffix.observed, suffix.chain)) ++
        [(s.basisObserved, s.basis.chain)])).filter
      (fun t => decide (¬ t.2.eventDigests <+: chain.eventDigests))
    rw [RetentionSet.entries, hperm.length_eq, List.filter_append, List.filter_map,
      List.filter_singleton, List.length_append, List.length_map]
    simp [hdiv, Function.comp_def]
  rw [RetentionSet.arrived, List.length_append, List.length_singleton, hentries]
  omega

/-- With room the arriving chain fits beside the suffixes that stay. -/
theorem RetentionSet.Stored.fits_arrived (h : s.Stored b) (hc : Kel.OnBook b chain) {extended : Option ℕ}
    (hext : s.Extends chain extended)
    (hdiv : ¬ s.basis.chain.eventDigests <+: chain.eventDigests)
    (hcount : (s.arrived chain).length ≤ s.bounds.suffixes+1)
    (hbytes : unionLen ((s.arrived chain).flatMap (fun u =>
      u.2.unitLensFrom (u.2.sharedPrefixLen s.basis.chain))) ≤ s.bounds.bytes) (rank : ForkRank) :
    fits ((s.staying [] extended).map (·.slot)) (s.slotFor (s.heldCopies chain) none rank
      (sharedLen chain.eventDigests s.basis.chain.eventDigests) extended) s.bounds = true := by
  have hlen := staying_length_le h.inv hext hdiv
  have hbook := heldCopies_onBook h.inv.onBook hc
  have hevents : ((s.staying [] extended).map (·.slot) ++ [s.slotFor (s.heldCopies chain) none rank
      (sharedLen chain.eventDigests s.basis.chain.eventDigests) extended]).flatMap (·.events) =
      (s.staying [] extended).flatMap (·.slot.events) ++ (s.heldCopies chain).unitLensFrom
        (sharedLen chain.eventDigests s.basis.chain.eventDigests) := by
    rw [List.flatMap_append, List.flatMap_map, List.flatMap_singleton]
    rfl
  -- Every event counted for the slots is counted for what has arrived.
  have hsub : (s.staying [] extended).flatMap (·.slot.events) ++ (s.heldCopies chain).unitLensFrom
      (sharedLen chain.eventDigests s.basis.chain.eventDigests) ⊆
      (s.arrived chain).flatMap (fun u => u.2.unitLensFrom (u.2.sharedPrefixLen s.basis.chain)) := by
    intro p hp
    rcases List.mem_append.mp hp with hp | hp
    · obtain ⟨x, hx, hpx⟩ := List.mem_flatMap.mp hp
      obtain ⟨hmem, hoff⟩ := (mem_staying_iff_off h.inv hext).mp hx
      refine List.mem_flatMap.mpr ⟨(x.observed, x.chain), List.mem_append_left _
        (List.mem_filter.mpr ⟨mem_entries.mpr (.inl ⟨x, hmem, rfl⟩), by simpa using hoff⟩), ?_⟩
      rwa [ValidatedChain.sharedPrefixLen_eq, ← h.inv.forkPosition_eq hmem, ← h.inv.events x hmem]
    · refine List.mem_flatMap.mpr ⟨_, List.mem_append_right _ (List.mem_singleton_self _), ?_⟩
      rwa [ValidatedChain.sharedPrefixLen_eq, heldCopies_eventDigests]
  obtain ⟨size, hsize⟩ := h.inv.exists_sized hc
  have hcons : OrderedMap.Consistent ((s.staying [] extended).flatMap (·.slot.events) ++
      (s.heldCopies chain).unitLensFrom
        (sharedLen chain.eventDigests s.basis.chain.eventDigests)) := by
    apply consistent_of_size
    intro p hp
    rcases List.mem_append.mp hp with hp | hp
    · obtain ⟨x, hx, hpx⟩ := List.mem_flatMap.mp hp
      have hmem := ((mem_staying_iff_off h.inv hext).mp hx).1
      rw [h.inv.events x hmem] at hpx
      exact (h.inv.onBook.suffixes x hmem).size_of_unitLen (hsize _ (List.mem_cons_of_mem _
        (List.mem_cons_of_mem _ (List.mem_map.mpr ⟨x, hmem, rfl⟩)))) hpx
    · exact hbook.size_of_unitLen (hsize _ List.mem_cons_self) hp
  simp only [fits, Bool.and_eq_true, decide_eq_true_eq, List.length_map]
  refine ⟨by omega, ?_⟩
  rw [unionBytes_eq (by rw [hevents]; exact hcons), hevents]
  exact (unionLen_mono hsub).trans hbytes

/-- With room a chain is placed beside every suffix it does not extend. -/
theorem RetentionSet.Stored.place_arrived (h : s.Stored b) (hc : Kel.OnBook b chain)
    (hdiv : ¬ s.basis.chain.eventDigests <+: chain.eventDigests)
    (hcount : (s.arrived chain).length ≤ s.bounds.suffixes+1)
    (hbytes : unionLen ((s.arrived chain).flatMap (fun u =>
      u.2.unitLensFrom (u.2.sharedPrefixLen s.basis.chain))) ≤ s.bounds.bytes)
    {admission : Admission} (hheld : admission ≠ .alreadyHeld)
    (hplace : s.place chain none = .ok (admission, s')) :
    ∃ extended x, s.Extends chain extended ∧ x.chain = s.heldCopies chain ∧
      s'.basis = s.basis ∧ s'.suffixes = s.staying [] extended ++ [x] := by
  simp only [RetentionSet.place, bind_ok_iff] at hplace
  obtain ⟨found, hfound, hplace⟩ := hplace
  rw [rankPlacement_eq h.inv.onBook hc] at hfound
  rcases placement_ok hfound with ⟨rfl, -⟩ | ⟨rank, rfl, -, -⟩
  · rw [pure_ok_iff, Prod.mk.injEq] at hplace
    exact absurd hplace.1.symm hheld
  · simp only [bind_ok_iff, mapError_ok_iff] at hplace
    obtain ⟨r, hr, hplace⟩ := hplace
    obtain ⟨r', hr', hcase⟩ := findExtended_ok hc h.inv.onBook.suffixes 0 none
    obtain rfl : r = r' := Except.ok.inj (hr.symm.trans hr')
    rcases hcase with ⟨rfl, -⟩ | ⟨extended, rfl, -, hext⟩
    · rw [pure_ok_iff, Prod.mk.injEq] at hplace
      exact absurd hplace.1.symm hheld
    · have hext' : s.Extends chain extended := by
        refine hext.imp_right ?_
        intro ⟨i, x, hi, he, hp⟩
        exact ⟨i, x, hi, by rw [he, Nat.zero_add], hp⟩
      simp only [RetentionSet.enter, bind_ok_iff, pure_ok_iff] at hplace
      obtain ⟨next, -, guards, -, hplace⟩ := hplace
      -- The candidate fits as things stand, so the plan is to evict nothing.
      rw [planEvictions_of_fits (by
        rw [staying_slots]
        exact h.fits_arrived hc hext' hdiv hcount hbytes rank), Option.elim_some,
        Prod.mk.injEq] at hplace
      obtain ⟨-, rfl⟩ := hplace
      exact ⟨extended, _, hext', rfl, rfl, rfl⟩

/-- With room every chain that has arrived is held once the new one has entered. -/
theorem RetentionSet.Stored.admit_arrived (h : s.Stored b) (hc : Kel.OnBook b chain)
    (hdiv : ¬ s.basis.chain.eventDigests <+: chain.eventDigests)
    (hcount : (s.arrived chain).length ≤ s.bounds.suffixes+1)
    (hbytes : unionLen ((s.arrived chain).flatMap (fun u =>
      u.2.unitLensFrom (u.2.sharedPrefixLen s.basis.chain))) ≤ s.bounds.bytes)
    {admission : Admission} (hheld : admission ≠ .alreadyHeld)
    (hok : s.admit_ chain = (.ok admission, s')) :
    ∀ u ∈ s.arrived chain, ∃ c ∈ s'.chains, c.eventDigests = u.2.eventDigests := by
  unfold RetentionSet.admit_ at hok
  split at hok
  · cases hok
  · rename_i placed hplace
    split at hok
    · cases hok
    · rename_i settled hsettle
      cases hok
      obtain ⟨extended, x, hext, hx, hbasis, hsuffixes⟩ :=
        h.place_arrived hc hdiv hcount hbytes hheld hplace
      rw [settleTiePrefix_chains hsettle, RetentionSet.chains, hbasis, hsuffixes]
      intro u hu
      rcases List.mem_append.mp hu with hu | hu
      · obtain ⟨hue, hoff⟩ := List.mem_filter.mp hu
        rcases mem_entries.mp hue with ⟨y, hy, rfl⟩ | rfl
        · have hstay := (mem_staying_iff_off h.inv hext).mpr ⟨hy, by simpa using hoff⟩
          refine ⟨y.chain, List.mem_cons_of_mem _ (List.mem_map.mpr ⟨y, ?_, rfl⟩), rfl⟩
          exact List.mem_append_left _ hstay
        · exact ⟨_, List.mem_cons_self, rfl⟩
      · rw [List.mem_singleton.mp hu]
        refine ⟨x.chain, List.mem_cons_of_mem _ (List.mem_map.mpr ⟨x, ?_, rfl⟩), by rw [hx]⟩
        exact List.mem_append_right _ (List.mem_singleton_self _)

/-- What is held of a set after a move or a re-decision: every chain, or what it became. -/
def RetentionSet.KeptIn (s s' : RetentionSet) : Prop :=
  ∀ c ∈ s.chains, ∃ d ∈ s'.chains, c.eventDigests <+: d.eventDigests

/-- A move that leaves every stamp off its target keeps every chain. -/
theorem keptIn_of_stamps {target : List Digest} (hbasis : s'.basis.chain.eventDigests = target)
    (hkept : ∀ u ∈ s.stamps, ¬ u.2 <+: target → u ∈ s'.stamps) : s.KeptIn s' := by
  intro c hc
  obtain ⟨moment, hentry⟩ := mem_chains_iff_entry.mp hc
  by_cases hon : c.eventDigests <+: target
  · exact ⟨_, List.mem_cons_self, by rwa [hbasis]⟩
  · have hstamp := hkept (moment, c.eventDigests) (mem_stamps_iff.mpr ⟨c, hentry, rfl⟩) hon
    obtain ⟨d, hd, heq⟩ := mem_stamps_iff.mp hstamp
    exact ⟨d, mem_chains_iff_entry.mpr ⟨_, hd⟩, by rw [heq]⟩

/-- Where the held chains fit beside the chain that leads, a re-decision keeps them. -/
theorem RetentionSet.Stored.redecide_keeps (h : s.Stored b)
    (hbytes : ∀ x ∈ s.suffixes, b.First s.stamps (x.observed, x.chain.eventDigests) →
      unionLen (s.entries.flatMap (fun t =>
        t.2.unitLensFrom (t.2.sharedPrefixLen x.chain))) ≤ s.bounds.bytes)
    {admission : Option Admission} {rerank : Rerank} {outcome : HoldOutcome}
    (hok : s.redecide admission rerank = .ok (outcome, s')) : s.KeptIn s' := by
  have hsame : s.KeptIn s := fun c hc => ⟨c, hc, List.prefix_rfl⟩
  simp only [RetentionSet.redecide, bind_ok_iff, mapError_ok_iff] at hok
  obtain ⟨winner, hwinner, hok⟩ := hok
  obtain ⟨found, hfound, hcase⟩ := h.displacing
  obtain rfl : found = winner := Except.ok.inj (hfound.symm.trans hwinner)
  rcases hcase with ⟨rfl, -⟩ | ⟨x, hx, rfl, hfirst⟩
  · cases admission with
    | none =>
      cases hok
      exact hsame
    | some admission =>
      cases hok
      exact hsame
  · simp only [Option.map_some, bind_ok_iff, mapError_ok_iff, pure_ok_iff, Prod.mk.injEq] at hok
    obtain ⟨report, hreport, -, rfl⟩ := hok
    have hbook := h.inv.onBook.suffixes x hx
    have hmove : s.rerank (.accepted x.chain) = (.ok report, (s.rerank (.accepted x.chain)).2) :=
      Prod.ext hreport rfl
    obtain ⟨-, -, -, hdigests, -⟩ := h.moves hbook hfirst.mem List.prefix_rfl
      (fun u hu hp => h.stamp_apart hu hfirst.mem hp) hmove
    obtain ⟨report', moved, hmoved, hkept⟩ := h.refits hbook ⟨_, hfirst.mem, List.prefix_rfl⟩
      (fun u hu hp => by rw [(h.stamp_apart hfirst.mem hu hp).symm]) (hbytes x hx hfirst)
    obtain rfl : moved = (s.rerank (.accepted x.chain)).2 :=
      (Prod.mk.inj (hmoved.symm.trans hmove)).2
    exact keptIn_of_stamps hdigests hkept

/-- An extension of the accepted chain keeps every held chain. -/
theorem RetentionSet.Stored.extended_keeps (h : s.Stored b) {target : ValidatedChain}
    (ht : Kel.OnBook b target) (hext : s.basis.chain.eventDigests <+: target.eventDigests)
    {report : Rerank} (hmove : s.rerank (.accepted target) = (.ok report, s')) :
    s'.basis.chain.eventDigests = target.eventDigests ∧ s.KeptIn s' := by
  have hbasis : (s.basisObserved, s.basis.chain.eventDigests) ∈ s.stamps := List.mem_cons_self
  obtain ⟨-, -, -, hdigests, -⟩ := h.moves ht hbasis hext (h.only_basis hext) hmove
  obtain ⟨report', moved, hmoved, hkept⟩ := h.refits ht ⟨_, hbasis, hext⟩
    (fun u hu hp => by
      rw [(h.stamp_apart hbasis hu (hext.trans hp)).symm]
      exact hext) (h.extended_bytes hext)
  obtain rfl : moved = s' := (Prod.mk.inj (hmoved.symm.trans hmove)).2
  exact ⟨hdigests, keptIn_of_stamps hdigests hkept⟩

/-- A set every held chain of which fits beside the chain that leads it. -/
def RetentionSet.LeaderFits (b : Book) (s : RetentionSet) : Prop :=
  ∀ x ∈ s.suffixes, b.First s.stamps (x.observed, x.chain.eventDigests) →
    unionLen (s.entries.flatMap (fun t =>
      t.2.unitLensFrom (t.2.sharedPrefixLen x.chain))) ≤ s.bounds.bytes

theorem RetentionSet.admissionFor_cases (s : RetentionSet) (rank : ForkRank) (evict : List ℕ)
    (extended : Option ℕ) :
    (∃ evicted, s.admissionFor rank evict extended = .retained rank evicted) ∨
      ∃ replaced evicted, s.admissionFor rank evict extended = .extended rank replaced evicted := by
  unfold RetentionSet.admissionFor
  dsimp only
  split
  · exact .inr ⟨_, _, rfl⟩
  · exact .inl ⟨_, rfl⟩

/-- A chain settles at once where a held chain carries it or the bounds refuse it. -/
theorem arrive_settled (h : s.Inv b) (hc : OnBook b chain) {outcome : HoldOutcome}
    (hok : s.arrive chain = .ok (.settled outcome)) :
    (∃ c ∈ s.chains, chain.eventDigests <+: c.eventDigests) ∨ ∃ rank, outcome = .refused rank := by
  simp only [RetentionSet.arrive, bind_ok_iff, mapError_ok_iff] at hok
  obtain ⟨pairing, hpairing, hok⟩ := hok
  rw [hc.pairChains_eq h.onBook.basis] at hpairing
  cases hpairing
  have hbasis : s.basis.chain ∈ s.chains := List.mem_cons_self
  obtain ⟨hpair, heq⟩ | ⟨hpair, hon, -⟩ | ⟨hpair, -, -⟩ | ⟨hpair, -, -⟩ :=
    Book.pairing_cases b chain.eventDigests s.basis.chain.eventDigests <;> rw [hpair] at hok
  · exact .inl ⟨_, hbasis, by rw [heq]⟩
  · exact .inl ⟨_, hbasis, hon⟩
  · simp only [bind_ok_iff, mapError_ok_iff, pure_ok_iff] at hok
    obtain ⟨report, -, hok⟩ := hok
    cases hok
  · simp only [bind_ok_iff, mapError_ok_iff, pure_ok_iff] at hok
    obtain ⟨admitted, hadmitted, hok⟩ := hok
    have hmove : s.admit_ chain = (.ok admitted, (s.admit_ chain).2) := Prod.ext hadmitted rfl
    obtain ⟨placed, tie, hplaces, -, -, -⟩ := admit_ok h hc hmove
    cases hplaces with
    | held hmem hon => exact .inl ⟨_, hmem, hon⟩
    | refused rank =>
      cases hok
      exact .inr ⟨rank, rfl⟩
    | @entered rank fork extended evict next hent =>
      exfalso
      rcases s.admissionFor_cases rank evict extended with ⟨evicted, heq⟩ | ⟨replaced, evicted, heq⟩
      · rw [heq] at hok
        cases hok
      · rw [heq] at hok
        cases hok

/-- With room an arrival keeps every held chain and holds the new one. -/
theorem arrive_keeps (h : s.Led b) (hc : OnBook b chain) (hroom : s.Room chain)
    {admission : Option Admission} {rerank : Rerank}
    (hok : s.arrive chain = .ok (.pending admission rerank s')) :
    s'.LeaderFits b ∧ s.KeptIn s' ∧
      ∃ d ∈ s'.chains, chain.eventDigests <+: d.eventDigests := by
  simp only [RetentionSet.arrive, bind_ok_iff, mapError_ok_iff] at hok
  obtain ⟨pairing, hpairing, hok⟩ := hok
  rw [hc.pairChains_eq h.stored.inv.onBook.basis] at hpairing
  cases hpairing
  obtain ⟨hpair, -⟩ | ⟨hpair, -, -⟩ | ⟨hpair, hext, -⟩ | ⟨hpair, -, hdiv⟩ :=
    Book.pairing_cases b chain.eventDigests s.basis.chain.eventDigests <;> rw [hpair] at hok
  · cases hok
  · cases hok
  · simp only [bind_ok_iff, mapError_ok_iff, pure_ok_iff, Arrival.pending.injEq] at hok
    obtain ⟨report, hreport, -, -, rfl⟩ := hok
    have hbook := h.stored.inv.onBook.basis.extendedBy hc
    have hdig : (s.basis.chain.extendedBy chain).eventDigests = chain.eventDigests :=
      ValidatedChain.extendedBy_eventDigests _ _
    have hext' : s.basis.chain.eventDigests <+:
        (s.basis.chain.extendedBy chain).eventDigests := by rwa [hdig]
    have hmove : s.rerank (.accepted (s.basis.chain.extendedBy chain)) = (.ok report,
        (s.rerank (.accepted (s.basis.chain.extendedBy chain))).2) := Prod.ext hreport rfl
    obtain ⟨hstored, hfirst⟩ := h.stored.extended h.first hbook hext' hmove
    obtain ⟨hbasis, hkept⟩ := h.stored.extended_keeps hbook hext' hmove
    refine ⟨?_, hkept, _, List.mem_cons_self, by rw [hbasis, hdig]⟩
    -- The extension leads, and no suffix does beside it.
    intro x hx hfirst'
    exfalso
    apply hstored.inv.offBasis x hx
    rw [(Prod.mk.inj (hfirst'.unique hstored.inv hfirst)).2]
  · simp only [bind_ok_iff, mapError_ok_iff, pure_ok_iff] at hok
    obtain ⟨admitted, hadmitted, hok⟩ := hok
    have hneither : admitted ≠ .alreadyHeld ∧ (∀ rank, admitted ≠ .refused rank) ∧
        s' = (s.admit_ chain).2 := by
      cases admitted with
      | alreadyHeld => cases hok
      | refused rank => cases hok
      | retained rank evicted =>
        cases hok
        simp
      | extended rank replaced evicted =>
        cases hok
        simp
    obtain ⟨hheld, hrefused, rfl⟩ := hneither
    have hallowed : ∀ rank, (s.admit_ chain).1 ≠ .ok (.refused rank) := by
      intro rank heq
      rw [hadmitted] at heq
      exact hrefused rank (Except.ok.inj heq)
    obtain ⟨hcount, hbytes⟩ := hroom hallowed
    have hmove : s.admit_ chain = (.ok admitted, (s.admit_ chain).2) := Prod.ext hadmitted rfl
    obtain ⟨-, hbounds, -, -, hin, -⟩ := h.stored.admitted hc hdiv hheld hrefused hmove
    have hbasis : (s.basisObserved, s.basis.chain) ∈ s.arrived chain :=
      List.mem_append_left _ (List.mem_filter.mpr ⟨mem_entries.mpr (.inr rfl), by simpa using hdiv⟩)
    have hfit := hbytes (s.basisObserved, s.basis.chain) hbasis (.inl List.prefix_rfl)
    have hentered := h.stored.admit_arrived hc hdiv hcount hfit hheld hmove
    have hnew : ∃ d ∈ (s.admit_ chain).2.chains, d.eventDigests = chain.eventDigests := by
      have hlast : (_, s.heldCopies chain) ∈ s.arrived chain :=
        List.mem_append_right _ (List.mem_singleton_self _)
      obtain ⟨d, hd, heq⟩ := hentered _ hlast
      exact ⟨d, hd, by rw [heq, heldCopies_eventDigests]⟩
    refine ⟨?_, ?_, ?_⟩
    · intro x hx hfirst
      obtain ⟨hmem, hleads⟩ := h.stored.admitted_leads hc hdiv hheld hrefused hmove hx hfirst
      rw [hbounds]
      refine (unionLen_mono ?_).trans (hbytes _ hmem (.inr hleads))
      intro e he
      obtain ⟨t, ht, he⟩ := List.mem_flatMap.mp he
      exact List.mem_flatMap.mpr ⟨t, hin t ht, he⟩
    · intro c hcm
      obtain ⟨moment, hentry⟩ := mem_chains_iff_entry.mp hcm
      by_cases hon : c.eventDigests <+: chain.eventDigests
      · obtain ⟨d, hd, heq⟩ := hnew
        exact ⟨d, hd, by rwa [heq]⟩
      · obtain ⟨d, hd, heq⟩ := hentered (moment, c)
          (List.mem_append_left _ (List.mem_filter.mpr ⟨hentry, by simpa using hon⟩))
        exact ⟨d, hd, by rw [heq]⟩
    · obtain ⟨d, hd, heq⟩ := hnew
      exact ⟨d, hd, by rw [heq]⟩

end Room

/-- What one holder holds is held by another, each chain or what it became. -/
def AcceptedChainHolder.KeptIn (holder holder' : AcceptedChainHolder) : Prop :=
  ∀ c ∈ holder.held, ∃ d ∈ holder'.held, c.eventDigests <+: d.eventDigests

/-- Holding a chain there is room for keeps every held chain and holds the new one. -/
theorem hold_keeps {b : Book} {holder : AcceptedChainHolder} (h : ∀ s ∈ holder.set, s.Led b)
    {chain : ValidatedChain} (hc : OnBook b chain)
    (hoff : ∀ c ∈ holder.held, ¬ chain.eventDigests <+: c.eventDigests)
    (hroom : ∀ s ∈ holder.set, s.Room chain) {outcome : HoldOutcome}
    (hok : (holder.hold chain).1 = .ok outcome) (hrefused : ∀ rank, outcome ≠ .refused rank) :
    holder.KeptIn (holder.hold chain).2 ∧
      ∃ d ∈ (holder.hold chain).2.held, chain.eventDigests <+: d.eventDigests := by
  have hheld {set : Option RetentionSet} {s : RetentionSet} (hset : set = some s)
      {c : ValidatedChain} (hcm : c ∈ s.chains) : c ∈ AcceptedChainHolder.held ⟨set, holder.bounds⟩ :=
    (AcceptedChainHolder.mem_held _).mpr ⟨s, hset, hcm⟩
  unfold AcceptedChainHolder.hold at hok ⊢
  split
  · rename_i hset
    refine ⟨?_, chain, hheld rfl List.mem_cons_self, List.prefix_rfl⟩
    intro c hcm
    obtain ⟨s, hs, -⟩ := holder.mem_held.mp hcm
    rw [hset] at hs
    cases hs
  · rename_i s hset
    rw [hset] at hok
    dsimp only at hok
    split
    · rename_i harrive
      rw [harrive] at hok
      cases hok
    · rename_i settled harrive
      rw [harrive] at hok
      cases hok
      -- A chain that is off what is held is settled only by a refusal.
      exfalso
      rcases arrive_settled (h s hset).stored.inv hc harrive with ⟨c, hcm, hon⟩ | ⟨rank, heq⟩
      · exact hoff c (holder.mem_held.mpr ⟨s, hset, hcm⟩) hon
      · exact hrefused rank heq
    · rename_i admission rerank next harrive
      rw [harrive] at hok
      dsimp only at hok
      obtain ⟨hstored, -⟩ := arrive_safe (h s hset) hc (hroom s hset).safeArrival harrive
      obtain ⟨hfits, hkept, d, hd, hpd⟩ := arrive_keeps (h s hset) hc (hroom s hset) harrive
      split
      · rename_i hdecide
        rw [hdecide] at hok
        cases hok
      · rename_i outcome' decided hdecide
        have hdecided := hstored.redecide_keeps hfits hdecide
        refine ⟨?_, ?_⟩
        · intro c hcm
          obtain ⟨s', hs', hcs⟩ := holder.mem_held.mp hcm
          obtain rfl : s = s' := Option.some.inj (hset.symm.trans hs')
          obtain ⟨d, hd, hcd⟩ := hkept c hcs
          obtain ⟨e, he, hde⟩ := hdecided d hd
          exact ⟨e, hheld rfl he, hcd.trans hde⟩
        · obtain ⟨e, he, hde⟩ := hdecided d hd
          exact ⟨e, hheld rfl he, hpd.trans hde⟩

end ScpCore.Kel
