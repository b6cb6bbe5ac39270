import ScpCore.KelRefit
import ScpCore.KelAdoption

/-! Over chains of one book the operations of a retention set fail only where no
moment is left to give, and so does the classification of what was served. -/

namespace ScpCore.Kel

/-- A placement finds a rank for the chain: it does not extend an accepted basis
that has no tie prefix beside it. -/
def Placeable (basis : RetentionBasis) (tie : Option ValidatedChain) (c : ValidatedChain) : Prop :=
  ¬ c.eventDigests <+: basis.chain.eventDigests → basis.kind = .accepted →
    basis.chain.eventDigests <+: c.eventDigests → tie.isSome

section Operations
variable {b : Book} {s s' : RetentionSet} {candidate : ValidatedChain}

theorem rankPlacement_total (hs : s.OnBook b) (hc : OnBook b candidate)
    (hp : Placeable s.basis s.tiePrefix candidate) : ∃ found, s.rankPlacement candidate = .ok found := by
  rw [rankPlacement_eq hs hc]
  by_cases hon : candidate.eventDigests <+: s.basis.chain.eventDigests
  · exact ⟨none, by rw [Book.placement, if_pos hon]⟩
  · obtain ⟨rank, hrank⟩ := placement_of_off (b := b) hon (hp hon)
    exact ⟨_, hrank⟩

theorem place_fails (hs : s.OnBook b) (hc : OnBook b candidate)
    (hp : Placeable s.basis s.tiePrefix candidate) (observed : Option ℕ) :
    FailsOnlyWith .observedExhausted (s.place candidate observed) := by
  obtain ⟨found, hfound⟩ := rankPlacement_total hs hc hp
  unfold RetentionSet.place
  refine (FailsOnlyWith.of_ok hfound).bind ?_
  intro found' _
  cases found' with
  | none => exact .of_ok rfl
  | some t =>
    obtain ⟨extended, hextended, -⟩ := findExtended_ok hc hs.suffixes 0 none
    refine (FailsOnlyWith.of_ok (a := extended) (by rw [hextended]; rfl)).bind ?_
    intro extended' _
    cases extended' with
    | none => exact .of_ok rfl
    | some extended =>
      -- Past the moment only the guards are read, and they never fail.
      unfold RetentionSet.enter
      apply FailsOnlyWith.bind
      · intro e he
        unfold RetentionSet.nextAfter at he
        split_ifs at he
        · rw [seqRight_eq_bind] at he
          rcases bind_error_cases he with he | ⟨_, _, he⟩
          · unfold require at he
            split_ifs at he
            exact (Except.error.inj he).symm
          · cases he
        · cases he
      · intro next _
        obtain ⟨guards, hguards, -⟩ := guards_ok hs (heldCopies_onBook hs hc)
        apply FailsOnlyWith.bind
        · unfold RetentionSet.guardsFor
          split_ifs
          · exact .of_ok rfl
          · exact .of_ok (a := guards) (by rw [hguards]; rfl)
        · intro _ _
          exact .of_ok rfl

theorem placeAll_onBook {todo : List (Option ℕ × ValidatedChain)} {report report' : Rerank}
    (hs : s.OnBook b) (hc : ∀ t ∈ todo, OnBook b t.2)
    (h : RetentionSet.placeAll s report todo = .ok (report', s')) :
    s'.OnBook b ∧ s'.basis = s.basis ∧ s'.tiePrefix = s.tiePrefix := by
  induction todo generalizing s report with
  | nil =>
    rw [RetentionSet.placeAll, Except.ok.injEq] at h
    obtain ⟨rfl, rfl⟩ := Prod.mk.inj h
    exact ⟨hs, rfl, rfl⟩
  | cons t todo ih =>
    simp only [RetentionSet.placeAll, bind_ok_iff, Prod.exists] at h
    obtain ⟨admission, placed, hplace, hrest⟩ := h
    have hp := place_cases hs (hc t List.mem_cons_self) hplace
    have hframe := hp.frame
    obtain ⟨hon, hbasis, htie⟩ := ih (hp.onBook hs (hc t List.mem_cons_self))
      (fun u hu => hc u (List.mem_cons_of_mem _ hu)) hrest
    exact ⟨hon, hbasis.trans hframe.1, htie.trans hframe.2.2.1⟩

theorem placeAll_fails {todo : List (Option ℕ × ValidatedChain)} (hs : s.OnBook b)
    (hc : ∀ t ∈ todo, OnBook b t.2) (hp : ∀ t ∈ todo, Placeable s.basis s.tiePrefix t.2)
    (report : Rerank) :
    FailsOnlyWith .observedExhausted (RetentionSet.placeAll s report todo) := by
  induction todo generalizing s report with
  | nil => exact .of_ok rfl
  | cons t todo ih =>
    have hct := hc t List.mem_cons_self
    rw [RetentionSet.placeAll]
    refine (place_fails hs hct (hp t List.mem_cons_self) t.1).bind ?_
    intro placed hplace
    have hplaced := place_cases hs hct hplace
    have hframe := hplaced.frame
    apply ih (hplaced.onBook hs hct) (fun u hu => hc u (List.mem_cons_of_mem _ hu))
    intro u hu
    rw [hframe.1, hframe.2.2.1]
    exact hp u (List.mem_cons_of_mem _ hu)

section Moved
variable (hs : ∀ c ∈ s.chains, OnBook b c) {basis : RetentionBasis} (hb : OnBook b basis.chain)
  {tie : Option ValidatedChain} (ht : ∀ p ∈ tie, OnBook b p)
include hs hb ht

/-- The set a move starts from, before any held chain is placed in it. -/
theorem moved_onBook (basisObserved nextObserved : ℕ) :
    (RetentionSet.mk (basis.mapChain s.heldCopies) basisObserved (tie.map s.heldCopies) []
      nextObserved s.bounds).OnBook b := by
  refine ⟨?_, by simp, ?_⟩
  · rw [mapChain_chain]
    exact heldCopies_on hs hb
  · intro p hp
    obtain ⟨q, hq, rfl⟩ := Option.mem_map.mp hp
    exact heldCopies_on hs (ht q hq)

theorem moveTo_onBook {report : Rerank} (h : s.moveTo basis tie = .ok (report, s')) :
    s'.OnBook b ∧ s'.tiePrefix = tie.map s.heldCopies := by
  simp only [RetentionSet.moveTo, bind_ok_iff, Prod.exists] at h
  obtain ⟨_, -, moment, next, -, h⟩ := h
  have hentries : ∀ t ∈ s.entries.map (fun entry => (some entry.1, entry.2)), OnBook b t.2 := by
    intro t ht
    obtain ⟨entry, hentry, rfl⟩ := List.mem_map.mp ht
    exact hs _ (mem_chains_iff_entry.mpr ⟨entry.1, hentry⟩)
  obtain ⟨hon, -, htie⟩ := placeAll_onBook (moved_onBook hs hb ht moment next) hentries h
  exact ⟨hon, htie⟩

theorem moveTo_fails (hp : ∀ c ∈ s.chains, Placeable basis tie c) :
    FailsOnlyWith .observedExhausted (s.moveTo basis tie) := by
  have hentry : ∀ t ∈ s.entries, t.2 ∈ s.chains := fun t hte =>
    mem_chains_iff_entry.mpr ⟨t.1, hte⟩
  have hcopy : OnBook b (basis.mapChain s.heldCopies).chain := by
    rw [mapChain_chain]
    exact heldCopies_on hs hb
  obtain ⟨r, hr, -⟩ := onBasis_ok hcopy (fun t hte => hs t.2 (hentry t hte))
  unfold RetentionSet.moveTo
  refine (FailsOnlyWith.of_ok (a := r) (by rw [hr]; rfl)).bind ?_
  intro r' _
  apply FailsOnlyWith.bind
  · cases r' with
    | some earliest => exact .of_ok rfl
    | none =>
      intro e he
      rw [Option.elim_none, seqRight_eq_bind] at he
      rcases bind_error_cases he with he | ⟨_, _, he⟩
      · unfold require at he
        split_ifs at he
        exact (Except.error.inj he).symm
      · cases he
  · intro moment _
    apply placeAll_fails (moved_onBook hs hb ht moment.1 moment.2)
    · intro t ht
      obtain ⟨entry, hte, rfl⟩ := List.mem_map.mp ht
      exact hs _ (hentry entry hte)
    · intro t ht
      obtain ⟨entry, hte, rfl⟩ := List.mem_map.mp ht
      intro hoff hkind hext
      rw [mapChain_chain, heldCopies_eventDigests] at hoff hext
      rw [mapChain_kind] at hkind
      have hsome := hp _ (hentry entry hte) hoff hkind hext
      simpa using hsome

end Moved

theorem settleTiePrefix_total (hs : s.OnBook b) : ∃ next, s.settleTiePrefix = .ok next := by
  unfold RetentionSet.settleTiePrefix
  cases htie : s.tiePrefix with
  | none => exact ⟨_, rfl⟩
  | some p =>
    have hsettled : ∃ r, s.settled p = .ok r := by
      unfold RetentionSet.settled
      cases hb : s.basis with
      | contestedPrefix _ => exact ⟨_, rfl⟩
      | accepted accepted =>
        have haccepted : OnBook b accepted := by
          have h := hs.basis
          rwa [hb] at h
        have hpairs : mapEach (fun suffix : RetainedSuffix => pairChains suffix.chain accepted)
            s.suffixes = .ok (s.suffixes.map (fun x =>
              b.pairing x.chain.eventDigests accepted.eventDigests)) := by
          apply mapEach_eq_ok
          intro x hx
          exact (hs.suffixes x hx).pairChains_eq haccepted
        dsimp only
        by_cases hcarried : (s.chains.map (·.sharedPrefixLen p)).max?.getD 0 = p.len
        · rw [if_pos hcarried]
          exact ⟨_, rfl⟩
        · rw [if_neg hcarried, hpairs]
          simp only [bind_ok_iff, Except.ok.injEq, exists_eq_left']
          split_ifs <;> exact ⟨_, rfl⟩
    obtain ⟨r, hr⟩ := hsettled
    exact ⟨{ s with tiePrefix := r }, by simp only [hr]; rfl⟩

theorem afterContest_fails (hs : ∀ c ∈ s.chains, OnBook b c) {tiePrefix : ValidatedChain}
    (ht : OnBook b tiePrefix) {candidates : List ValidatedChain}
    (hc : ∀ c ∈ candidates, OnBook b c) :
    FailsOnlyWith .observedExhausted (s.afterContest tiePrefix candidates) := by
  -- Beside a tie prefix, or off an accepted basis, every chain has a rank.
  obtain ⟨basis, tie, hmove, hb, htie, hplace⟩ : ∃ basis tie, s.moveToTie tiePrefix =
      s.moveTo basis tie ∧ OnBook b basis.chain ∧ (∀ p ∈ tie, OnBook b p) ∧
      (basis.kind = .accepted → tie.isSome) := by
    unfold RetentionSet.moveToTie
    cases hbasis : s.basis with
    | accepted accepted =>
      have haccepted := hs s.basis.chain List.mem_cons_self
      rw [hbasis] at haccepted
      exact ⟨_, _, rfl, haccepted, by simpa using ht, fun _ => rfl⟩
    | contestedPrefix contested =>
      exact ⟨_, _, rfl, ht, by simp, by simp [RetentionBasis.kind]⟩
  unfold RetentionSet.afterContest
  rw [hmove]
  apply (moveTo_fails hs hb htie (fun c _ _ hkind _ => hplace hkind)).bind
  intro (report, moved) hmoved
  obtain ⟨hon, hmovedTie⟩ := moveTo_onBook hs hb htie hmoved
  have hkind : moved.basis.kind = basis.kind := by rw [moveTo_basis hmoved, mapChain_kind]
  have hcandidates : ∀ t ∈ candidates.map (fun chain => ((none : Option ℕ), chain)),
      OnBook b t.2 := by
    intro t ht
    obtain ⟨c, hcm, rfl⟩ := List.mem_map.mp ht
    exact hc c hcm
  apply (placeAll_fails hon hcandidates ?_ report).bind
  · intro (report', placed) hplaced
    obtain ⟨next, hnext⟩ := settleTiePrefix_total (placeAll_onBook hon hcandidates hplaced).1
    apply (FailsOnlyWith.of_ok (a := next) (by rw [hnext]; rfl)).bind
    intro _ _
    exact .of_ok rfl
  · intro t _ _ hk _
    rw [hmovedTie, Option.isSome_map]
    exact hplace (hkind.symm.trans hk)

/-- An admission with no tie prefix to settle is the placement. -/
theorem admit_untied (hs : s.OnBook b) (htie : s.tiePrefix = none) (hc : OnBook b candidate)
    (hp : Placeable s.basis none candidate) :
    FailsOnlyWith .observedExhausted (s.admit_ candidate).1 ∧ (s.admit_ candidate).2.OnBook b ∧
      (s.admit_ candidate).2.basis = s.basis ∧ (s.admit_ candidate).2.tiePrefix = none := by
  have hfails := place_fails hs hc (by rwa [htie]) none
  unfold RetentionSet.admit_
  cases hplace : s.place candidate none with
  | error e =>
    refine ⟨?_, hs, rfl, htie⟩
    intro e' he
    rw [← Except.error.inj he]
    exact hfails e hplace
  | ok r =>
    obtain ⟨admission, placed⟩ := r
    have hplaces := place_cases hs hc hplace
    have hframe := hplaces.frame
    have hnone : placed.tiePrefix = none := hframe.2.2.1.trans htie
    have hon := hplaces.onBook hs hc
    have hsettle : placed.settleTiePrefix = .ok { placed with tiePrefix := none } := by
      unfold RetentionSet.settleTiePrefix
      rw [hnone]
    simp only [hsettle]
    exact ⟨.of_ok rfl, ⟨hon.basis, hon.suffixes, by simp⟩, hframe.1, trivial⟩

theorem admitNew_fails (before : Option RetentionSet) {chains : List ValidatedChain}
    (hs : s.OnBook b) (htie : s.tiePrefix = none) (hc : ∀ c ∈ chains, OnBook b c)
    (hp : ∀ c ∈ chains, Placeable s.basis none c) (refused : List Digest) :
    FailsOnlyWith (.retention .observedExhausted) (admitNew before s chains refused) := by
  induction chains generalizing s refused with
  | nil => exact .of_ok rfl
  | cons chain chains ih =>
    have hc' : ∀ c ∈ chains, OnBook b c := fun c hcm => hc c (List.mem_cons_of_mem _ hcm)
    have hp' : ∀ c ∈ chains, Placeable s.basis none c :=
      fun c hcm => hp c (List.mem_cons_of_mem _ hcm)
    obtain ⟨hfails, hon, hbasis, hnone⟩ := admit_untied hs htie (hc chain List.mem_cons_self)
      (hp chain List.mem_cons_self)
    unfold admitNew
    split_ifs
    · exact ih hs htie hc' hp' refused
    · split
      · rename_i e s' hadmitted
        intro e' he
        rw [← Except.error.inj he, hfails e (by rw [hadmitted])]
      all_goals
        rename_i hadmitted
        rw [hadmitted] at hon hbasis hnone
        apply ih hon hnone hc'
        rw [hbasis]
        exact hp'

theorem new_onBook {basis : RetentionBasis} (hb : OnBook b basis.chain) :
    (RetentionSet.new basis).OnBook b :=
  ⟨hb, by simp [RetentionSet.new, RetentionSet.withBounds],
    by simp [RetentionSet.new, RetentionSet.withBounds]⟩

end Operations

section Exits
variable {b : Book} {held : Option RetentionSet} {ranked read : List ValidatedChain}
  {Instant : Type} {now : Instant}

/-- The prefix found below a fork lies on the book, ends at its head and leads a
ranked chain. -/
theorem prefixOf_ok (hranked : ∀ c ∈ ranked, OnBook b c) {sharedPrefixHead : Digest}
    {forkPosition : ℕ} {shared : ValidatedChain}
    (h : prefixOf ranked sharedPrefixHead forkPosition = .ok shared) :
    OnBook b shared ∧ shared.headDigest = sharedPrefixHead ∧
      ∃ c ∈ ranked, shared.eventDigests <+: c.eventDigests := by
  unfold prefixOf at h
  rw [okOr_ok_iff] at h
  have hhead := List.find?_some h
  rw [decide_eq_true_eq] at hhead
  obtain ⟨c, hc, hprefixed⟩ := List.mem_filterMap.mp (List.mem_of_find?_eq_some h)
  obtain ⟨hon, hdigests⟩ := (hranked c hc).prefixThrough hprefixed
  exact ⟨hon, hhead, c, hc, by rw [hdigests]; exact List.take_prefix _ _⟩

/-- A tie's shared prefix is found on a tied chain. -/
theorem prefixOf_total (hranked : ∀ c ∈ ranked, OnBook b c) {tieClass : TieClass}
    {heads : List Digest} {sharedPrefixHead : Digest} {forkPosition : ℕ}
    (hres : resolveSet ranked = .ok (.tie tieClass heads sharedPrefixHead forkPosition)) :
    ∃ shared, prefixOf ranked sharedPrefixHead forkPosition = .ok shared := by
  obtain ⟨-, -, -, d, ⟨⟨x, y, hx, hy, -, rfl⟩, -⟩, -, hshared, hfork⟩ :=
    (Book.resolveSet_eq_iff hranked _).mp hres
  obtain ⟨c, hc, rfl⟩ := hx.prop
  obtain ⟨c', hc', rfl⟩ := hy.prop
  simp only [Book.divergence, Book.branch_elements] at hshared hfork
  have hpos := (hranked c hc).shared_pos (hranked c' hc')
  have hle := sharedLen_le c.eventDigests c'.eventDigests
  rw [c.length_eventDigests] at hle
  rw [← hfork] at hshared hpos hle
  obtain ⟨p, hp⟩ := (hranked c hc).prefixThrough_isSome (by omega : forkPosition-1 < c.len)
  have hdigests := ((hranked c hc).prefixThrough hp).2
  rw [Nat.sub_add_cancel hpos] at hdigests
  have hhead : p.headDigest = sharedPrefixHead := by
    rw [hshared, ← hdigests, p.headDigest_eq, Option.getD_some]
  have hfound : ((ranked.filterMap (·.prefixThrough (forkPosition-1))).find?
      (·.headDigest = sharedPrefixHead)).isSome := by
    rw [List.find?_isSome]
    exact ⟨p, List.mem_filterMap.mpr ⟨c, hc, hp⟩, by simp [hhead]⟩
  obtain ⟨shared, hfind⟩ := Option.isSome_iff_exists.mp hfound
  exact ⟨shared, by rw [prefixOf, okOr_ok_iff, hfind]⟩

theorem contested_fails (hheld : ∀ set ∈ held, ∀ c ∈ set.chains, OnBook b c)
    (hranked : ∀ c ∈ ranked, OnBook b c) (hread : ∀ c ∈ read, OnBook b c) {contest : Contest}
    {shared : ValidatedChain}
    (hshared : prefixOf ranked contest.sharedPrefixHead contest.forkPosition = .ok shared) :
    FailsOnlyWith (.retention .observedExhausted)
      (contested held contest ranked read : Except ClassifyError (Classification Instant)) := by
  have hsharedOn := (prefixOf_ok hranked hshared).1
  have hcandidates : ∀ c ∈ ranked.filter (fun chain => chain.headDigest ∈ contest.heads) ++ read,
      OnBook b c := by
    intro c hc
    rcases List.mem_append.mp hc with hc | hc
    · exact hranked c (List.mem_of_mem_filter hc)
    · exact hread c hc
  unfold contested
  rw [hshared]
  apply FailsOnlyWith.bind (FailsOnlyWith.of_ok rfl)
  intro shared' hshared'
  obtain rfl := Except.ok.inj hshared'
  apply FailsOnlyWith.bind
  · unfold contestedSet
    cases held with
    | some set =>
      apply FailsOnlyWith.map
      apply FailsOnlyWith.mapError
      apply afterContest_fails (hheld set rfl) hsharedOn
      intro c hc
      exact hcandidates c (List.mem_of_mem_filter hc)
    | none =>
      have hnew : (RetentionSet.new (.contestedPrefix shared)).OnBook b := new_onBook hsharedOn
      apply admitNew_fails none hnew rfl hcandidates
      intro c _ _ hkind
      cases hkind
  · intro _ _
    exact .of_ok rfl

/-- A chain that nothing in `chains` properly extends. -/
def Topmost (winner : ValidatedChain) (chains : List ValidatedChain) : Prop :=
  ∀ c ∈ chains, winner.eventDigests <+: c.eventDigests → c.eventDigests <+: winner.eventDigests

theorem Topmost.placeable {winner : ValidatedChain} {chains : List ValidatedChain}
    (h : Topmost winner chains) {basis : RetentionBasis}
    (hb : basis.chain.eventDigests = winner.eventDigests) (tie : Option ValidatedChain) :
    ∀ c ∈ chains, Placeable basis tie c := by
  intro c hc hoff _ hext
  rw [hb] at hoff hext
  exact absurd (h c hc hext) hoff

/-- A winner tops every chain it was ranked with. -/
theorem winner_topmost (hranked : ∀ c ∈ ranked, OnBook b c) {head : Digest}
    (hres : resolveSet ranked = .ok (.winner head)) {winner : ValidatedChain}
    (hwinner : OnBook b winner) (hhead : winner.headDigest = head) : Topmost winner ranked := by
  intro c hc hext
  obtain ⟨m, hm, hlast⟩ := (Book.resolveSet_eq_iff hranked _).mp hres
  have hmax := (hm m).mpr rfl
  obtain ⟨w, hw, rfl⟩ := hmax.prop
  rw [Book.branch_elements, w.headDigest_eq, Option.some.injEq] at hlast
  have hsame := (hranked w hw).eq_of_head hwinner (hlast.trans hhead.symm)
  have hle : b.branch w ≤ b.branch c := by
    apply Branch.le_of_prefix
    rw [Book.branch_elements, hsame]
    exact hext
  have heq := hmax.eq_of_le (Book.mem_branches hc) hle
  have hdigests : w.eventDigests = c.eventDigests := congrArg Branch.elements heq
  rw [← hdigests, hsame]

theorem baselineCopies_total {baseline : Option ValidatedChain} {winner : ValidatedChain}
    (hbase : ∀ c ∈ baseline, OnBook b c) (hwinner : OnBook b winner) :
    ∃ copied, baselineCopies baseline winner = .ok copied := by
  unfold baselineCopies
  cases baseline with
  | none => exact ⟨winner, rfl⟩
  | some c =>
    dsimp only
    rw [hwinner.pairChains_eq (hbase c rfl)]
    exact ⟨_, rfl⟩

theorem adopted_fails (hheld : ∀ set ∈ held, ∀ c ∈ set.chains, OnBook b c)
    (hread : ∀ c ∈ read, OnBook b c) {baseline : Option ValidatedChain} {winner : ValidatedChain}
    (hbase : ∀ c ∈ baseline, OnBook b c) (hwinner : OnBook b winner)
    (htop : ∀ set ∈ held, Topmost winner set.chains) (htopRead : Topmost winner read) :
    FailsOnlyWith (.retention .observedExhausted) (adopted held baseline winner read now) := by
  obtain ⟨copied, hcopied⟩ := baselineCopies_total hbase hwinner
  have hcopiedOn : OnBook b copied ∧ copied.eventDigests = winner.eventDigests := by
    rcases baselineCopies_ok hcopied with rfl | ⟨c, hc, rfl⟩
    · exact ⟨hwinner, rfl⟩
    · exact ⟨(hbase c hc).extendedBy hwinner, by simp⟩
  unfold adopted
  rw [hcopied]
  apply FailsOnlyWith.bind (FailsOnlyWith.of_ok rfl)
  intro copied' hcopied'
  obtain rfl := Except.ok.inj hcopied'
  -- The set at the winner, which every held chain either lies on or diverges from.
  have hmoved : FailsOnlyWith (.retention .observedExhausted) (acceptedSet held copied) ∧
      ∀ next refused, acceptedSet held copied = .ok (next, refused) → next.OnBook b ∧
        next.tiePrefix = none ∧ next.basis.chain.eventDigests = winner.eventDigests := by
    cases held with
    | none =>
      refine ⟨.of_ok rfl, ?_⟩
      intro next refused hnext
      obtain ⟨rfl, -⟩ := Prod.mk.inj (Except.ok.inj hnext)
      exact ⟨new_onBook hcopiedOn.1, rfl, hcopiedOn.2⟩
    | some set =>
      have hb : OnBook b (RetentionBasis.accepted copied).chain := hcopiedOn.1
      have hdigests : (RetentionBasis.accepted copied).chain.eventDigests = winner.eventDigests :=
        hcopiedOn.2
      have hfails : FailsOnlyWith .observedExhausted (set.moveTo (.accepted copied) none) := by
        apply moveTo_fails (hheld set rfl) hb (by simp)
        exact (htop set rfl).placeable hdigests none
      unfold acceptedSet
      dsimp only
      cases hmove : set.moveTo (.accepted copied) none with
      | error e =>
        have hrerank : set.rerank (.accepted copied) = (.error e, set) := by
          unfold RetentionSet.rerank
          cases set.basis <;> simp [hmove]
        rw [hrerank]
        refine ⟨?_, by simp⟩
        intro e' he
        rw [← Except.error.inj he, hfails e hmove]
      | ok moved =>
        obtain ⟨report, moved⟩ := moved
        have hrerank : set.rerank (.accepted copied) = (.ok report, moved) := by
          unfold RetentionSet.rerank
          cases set.basis <;> simp [hmove]
        rw [hrerank]
        refine ⟨.of_ok rfl, ?_⟩
        intro next refused hnext
        obtain ⟨rfl, -⟩ := Prod.mk.inj (Except.ok.inj hnext)
        obtain ⟨hon, htie⟩ := moveTo_onBook (hheld set rfl) hb (by simp) hmove
        refine ⟨hon, htie, ?_⟩
        rw [moveTo_basis hmove, mapChain_chain, heldCopies_eventDigests, hdigests]
  apply hmoved.1.bind
  rintro ⟨next, refused⟩ hnext
  obtain ⟨hon, htie, hbasis⟩ := hmoved.2 next refused hnext
  apply (admitNew_fails held hon htie hread (htopRead.placeable hbasis none) refused).bind
  intro _ _
  exact .of_ok rfl

theorem onBaseline_fails {set : RetentionSet} (hset : ∀ c ∈ set.chains, OnBook b c)
    (hread : ∀ c ∈ read, OnBook b c) {baseline winner : ValidatedChain}
    (hb : set.basis = .accepted baseline) (hwinner : OnBook b winner)
    (htop : Topmost winner set.chains) (htopRead : Topmost winner read) :
    FailsOnlyWith (.retention .observedExhausted) (onBaseline set baseline winner read now) := by
  have hbaseline : OnBook b baseline := by
    have h := hset set.basis.chain List.mem_cons_self
    rwa [hb] at h
  unfold onBaseline
  split_ifs with hhead
  · apply adopted_fails (by simpa using hset) hread (by simpa using hbaseline) hwinner
      (by simpa using htop) htopRead
  · have hpairs : mapEach (fun chain => (pairChains chain baseline).mapError
        (fun e => ClassifyError.resolve (.unrelated e))) read =
          .ok (read.map (fun c => b.pairing c.eventDigests baseline.eventDigests)) := by
      apply mapEach_eq_ok
      intro c hc
      rw [(hread c hc).pairChains_eq hbaseline]
      rfl
    apply FailsOnlyWith.bind (FailsOnlyWith.of_ok hpairs)
    intro pairings _
    split_ifs
    · exact .of_ok rfl
    · have hsame : set.confirmAccepted.basis.chain.eventDigests = winner.eventDigests := by
        change set.basis.chain.eventDigests = _
        rw [hb]
        exact hbaseline.eq_of_head hwinner (not_ne_iff.mp hhead).symm
      have hon : set.confirmAccepted.OnBook b := by
        refine ⟨hset _ List.mem_cons_self, ?_, by simp [RetentionSet.confirmAccepted]⟩
        intro x hx
        exact hset _ (List.mem_cons_of_mem _ (List.mem_map.mpr ⟨x, hx, rfl⟩))
      apply (admitNew_fails (some set) hon rfl hread (htopRead.placeable hsame none) []).bind
      intro _ _
      exact .of_ok rfl

end Exits

end ScpCore.Kel
