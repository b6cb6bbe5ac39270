import ScpCore.KelForkChoice
import ScpCore.KelRetentionRun
import ScpCore.KelSources

/-! What a classification does to the basis. Admitting a chain never moves it, a
tie leaves an accepted one where it is, and only an adoption replaces it, by a
chain that extends it or beats it. -/

namespace ScpCore.Kel

section Basis
variable {s s' : RetentionSet}

theorem enter_basis {candidate : ValidatedChain} {observed extended : Option ℕ} {rank : ForkRank}
    {fork : ℕ} {admission : Admission}
    (h : s.enter candidate observed rank fork extended = .ok (admission, s')) :
    s'.basis = s.basis := by
  unfold RetentionSet.enter at h
  simp only [bind_ok_iff, pure_ok_iff] at h
  obtain ⟨next, -, guards, -, h⟩ := h
  cases hplan : planEvictions (s.suffixes.map (·.slot)) guards extended
      (s.slotFor (s.heldCopies candidate) observed rank fork extended) s.bounds with
  | none =>
    rw [hplan] at h
    rw [← (Prod.mk.inj h).2]
  | some evict =>
    rw [hplan] at h
    rw [← (Prod.mk.inj h).2]
    rfl

theorem place_basis {candidate : ValidatedChain} {observed : Option ℕ} {admission : Admission}
    (h : s.place candidate observed = .ok (admission, s')) : s'.basis = s.basis := by
  unfold RetentionSet.place at h
  rw [bind_ok_iff] at h
  obtain ⟨found, -, h⟩ := h
  cases found with
  | none =>
    rw [pure_ok_iff] at h
    rw [← (Prod.mk.inj h).2]
  | some found =>
    obtain ⟨rank, fork⟩ := found
    dsimp only at h
    rw [bind_ok_iff] at h
    obtain ⟨extended, -, h⟩ := h
    cases extended with
    | none =>
      simp only [pure_ok_iff] at h
      rw [← (Prod.mk.inj h).2]
    | some extended => exact enter_basis h

theorem settleTiePrefix_basis (h : s.settleTiePrefix = .ok s') : s'.basis = s.basis := by
  unfold RetentionSet.settleTiePrefix at h
  cases htie : s.tiePrefix with
  | none =>
    rw [htie] at h
    rw [← Except.ok.inj h]
  | some tie =>
    simp only [htie, bind_ok_iff, pure_ok_iff] at h
    obtain ⟨settled, -, rfl⟩ := h
    rfl

theorem admit_basis {candidate : ValidatedChain} {r : Except RetentionError Admission}
    (h : s.admit_ candidate = (r, s')) : s'.basis = s.basis := by
  unfold RetentionSet.admit_ at h
  cases hplace : s.place candidate none with
  | error error =>
    rw [hplace] at h
    rw [← (Prod.mk.inj h).2]
  | ok placed =>
    obtain ⟨admission, placed⟩ := placed
    have hb := place_basis hplace
    simp only [hplace] at h
    cases hsettle : placed.settleTiePrefix with
    | error error =>
      rw [hsettle] at h
      rw [← (Prod.mk.inj h).2, hb]
    | ok settled =>
      rw [hsettle] at h
      rw [← (Prod.mk.inj h).2, settleTiePrefix_basis hsettle, hb]

theorem placeAll_basis {todo : List (Option ℕ × ValidatedChain)} {report report' : Rerank}
    (h : RetentionSet.placeAll s report todo = .ok (report', s')) : s'.basis = s.basis := by
  induction todo generalizing s report with
  | nil =>
    rw [RetentionSet.placeAll, Except.ok.injEq] at h
    rw [← (Prod.mk.inj h).2]
  | cons t todo ih =>
    obtain ⟨observed, chain⟩ := t
    simp only [RetentionSet.placeAll, bind_ok_iff, Prod.exists] at h
    obtain ⟨admission, placed, hplace, hrest⟩ := h
    rw [ih hrest, place_basis hplace]

theorem moveTo_basis {basis : RetentionBasis} {tie : Option ValidatedChain} {report : Rerank}
    (h : s.moveTo basis tie = .ok (report, s')) : s'.basis = basis.mapChain s.heldCopies := by
  unfold RetentionSet.moveTo at h
  simp only [bind_ok_iff, Prod.exists] at h
  obtain ⟨_, -, _, _, -, h⟩ := h
  exact placeAll_basis h

theorem rerank_basis {basis : RetentionBasis} {report : Rerank}
    (h : s.rerank basis = (.ok report, s')) : s'.basis = basis.mapChain s.heldCopies :=
  moveTo_basis (rerank_moveTo h)

/-- A tie keeps an accepted basis and replaces a contested one. -/
theorem afterContest_basis {tiePrefix : ValidatedChain} {candidates : List ValidatedChain}
    {report : Rerank} (h : s.afterContest tiePrefix candidates = .ok (report, s')) :
    (∃ accepted, s.basis = .accepted accepted ∧ s'.basis = .accepted (s.heldCopies accepted)) ∨
      ∃ shared, s.basis = .contestedPrefix shared ∧
        s'.basis = .contestedPrefix (s.heldCopies tiePrefix) := by
  unfold RetentionSet.afterContest at h
  simp only [bind_ok_iff, Prod.exists, mapError_ok_iff, pure_ok_iff, Prod.mk.injEq] at h
  obtain ⟨report₁, moved, hmove, report₂, placed, hplace, settled, hsettle, -, rfl⟩ := h
  have hbasis : settled.basis = moved.basis :=
    (settleTiePrefix_basis hsettle).trans (placeAll_basis hplace)
  unfold RetentionSet.moveToTie at hmove
  cases hb : s.basis with
  | accepted accepted =>
    rw [hb] at hmove
    exact .inl ⟨accepted, rfl, hbasis.trans (moveTo_basis hmove)⟩
  | contestedPrefix shared =>
    rw [hb] at hmove
    exact .inr ⟨shared, rfl, hbasis.trans (moveTo_basis hmove)⟩

theorem admitNew_basis {before : Option RetentionSet} {chains : List ValidatedChain}
    {refused refused' : List Digest} (h : admitNew before s chains refused = .ok (s', refused')) :
    s'.basis = s.basis := by
  induction chains generalizing s refused with
  | nil =>
    rw [admitNew, Except.ok.injEq] at h
    rw [← (Prod.mk.inj h).1]
  | cons chain chains ih =>
    unfold admitNew at h
    split_ifs at h
    · exact ih h
    · split at h
      · cases h
      all_goals
        rename_i hadmitted
        rw [ih h, admit_basis hadmitted]

end Basis

section Exits
variable {Instant : Type} {held : Option RetentionSet} {served : Served} {now : Instant}
  {r : Classification Instant}

/-- Every source of a resolution with the chains its units assemble to. -/
theorem read_sources {C : Crypto} {identifier : Identifier} {reads : List SourceRead}
    (h : Served.read C identifier reads = some served) :
    List.Forall₂ (fun read t => t.1 = read ∧
      Served.entryChains C identifier read.units = some t.2) reads served.sources := by
  induction reads generalizing served with
  | nil =>
    rw [Served.read, Option.some.injEq] at h
    rw [← h]
    exact List.Forall₂.nil
  | cons read reads ih =>
    simp only [Served.read, Option.bind_eq_bind, Option.bind_eq_some_iff, Option.some.injEq] at h
    obtain ⟨chains, hchains, rest, hrest, rfl⟩ := h
    exact List.Forall₂.cons ⟨rfl, hchains⟩ (ih hrest)

theorem mem_sources {C : Crypto} {identifier : Identifier} {reads : List SourceRead}
    (h : Served.read C identifier reads = some served) :
    ∀ t ∈ served.sources, t.1 ∈ reads ∧ Served.entryChains C identifier t.1.units = some t.2 := by
  have hall := read_sources h
  clear h
  intro t ht
  generalize served.sources = sources at hall ht
  induction hall with
  | nil => cases ht
  | cons hab _ ih =>
    rcases List.mem_cons.mp ht with rfl | ht
    · exact ⟨by simp [hab.1], hab.1 ▸ hab.2⟩
    · obtain ⟨hmem, hchains⟩ := ih ht
      exact ⟨List.mem_cons_of_mem _ hmem, hchains⟩

/-- The exits past validation: nothing decided, a tie, or a winner that was read
through. -/
theorem classifyServed_cases (h : classifyServed held served now = .ok r) :
    (∃ cause, r = unchanged held (.inconclusive cause)) ∨
    (floorVerdict held served = none ∧ ∃ contest, contested held contest
      (held.elim [] RetentionSet.chains ++ served.all) served.exhausted = .ok r) ∨
    floorVerdict held served = none ∧ ∃ head winner,
      resolveSet (held.elim [] RetentionSet.chains ++ served.all) = .ok (.winner head) ∧
      readThrough (held.elim [] RetentionSet.chains ++ served.exhausted) head = true ∧
      (held.elim [] RetentionSet.chains ++ served.all).find? (·.headDigest = head) = some winner ∧
      (match held, held.bind baselineOf with
        | some set, some baseline => onBaseline set baseline winner served.exhausted now
        | held, _ => adopted held none winner served.exhausted now) = .ok r := by
  unfold classifyServed at h
  dsimp only at h
  -- The stops in the order of the source: the floors, a contest, an empty or an unread
  -- result, and only then a winner.
  cases hfloor : floorVerdict held served with
  | some verdict =>
    rw [hfloor] at h
    simp only [pure_ok_iff] at h
    left
    unfold floorVerdict at hfloor
    split_ifs at hfloor
    · obtain rfl := Option.some.inj hfloor
      exact ⟨_, h.symm⟩
    · obtain ⟨cause, -, rfl⟩ := Option.map_eq_some_iff.mp hfloor
      exact ⟨cause, h.symm⟩
  | none =>
    simp only [hfloor, bind_ok_iff, mapError_ok_iff] at h
    obtain ⟨resolution, hres, stop, hstop, h⟩ := h
    cases stop with
    | some contest => exact .inr (.inl ⟨rfl, contest, h⟩)
    | none =>
      dsimp only at h
      split_ifs at h with hempty
      · simp only [pure_ok_iff] at h
        exact .inl ⟨_, h.symm⟩
      · cases resolution with
        | empty => cases h
        | tie tieClass heads sharedPrefixHead forkPosition =>
          dsimp only at h
          split_ifs at h
          · exact .inr (.inl ⟨rfl, _, h⟩)
          · simp only [pure_ok_iff] at h
            exact .inl ⟨_, h.symm⟩
        | winner head =>
          dsimp only at h
          split_ifs at h with hthrough
          · simp only [bind_ok_iff, okOr_ok_iff] at h
            obtain ⟨winner, hfind, h⟩ := h
            exact .inr (.inr ⟨rfl, head, winner, hres, hthrough, hfind, h⟩)
          · simp only [pure_ok_iff] at h
            exact .inl ⟨_, h.symm⟩

/-- Beside a held set the candidates it did not hold enter a contest. -/
theorem contestedSet_some_ok {set next : RetentionSet} {shared : ValidatedChain}
    {candidates : List ValidatedChain} {refused : List Digest}
    (h : contestedSet (some set) shared candidates = .ok (next, refused)) :
    ∃ report, set.afterContest shared (candidates.filter (fun chain =>
      !holds set chain.headDigest)) = .ok (report, next) ∧ report.refused = refused := by
  unfold contestedSet at h
  dsimp only at h
  cases hcontest : set.afterContest shared (candidates.filter (fun chain =>
      !holds set chain.headDigest)) with
  | error e =>
    rw [hcontest] at h
    cases h
  | ok moved =>
    rw [hcontest] at h
    cases h
    exact ⟨moved.1, rfl, rfl⟩

theorem contested_ok {contest : Contest} {ranked read : List ValidatedChain}
    (h : contested held contest ranked read = .ok r) :
    ∃ shared next residue, prefixOf ranked contest.sharedPrefixHead contest.forkPosition =
        .ok shared ∧
      r = ⟨.contested contest.tieClass contest.heads contest.sharedPrefixHead contest.forkPosition
        residue, none, some next, residue⟩ ∧
      ((held = none ∧ next.basis = .contestedPrefix shared) ∨ ∃ set, held = some set ∧
        ((∃ accepted, set.basis = .accepted accepted ∧
            next.basis = .accepted (set.heldCopies accepted)) ∨
          ∃ before, set.basis = .contestedPrefix before ∧
            next.basis = .contestedPrefix (set.heldCopies shared))) := by
  unfold contested at h
  simp only [bind_ok_iff, Prod.exists, pure_ok_iff] at h
  obtain ⟨shared, hshared, next, refused, hnext, rfl⟩ := h
  refine ⟨shared, next, _, hshared, rfl, ?_⟩
  cases held with
  | none => exact .inl ⟨rfl, admitNew_basis hnext⟩
  | some set =>
    obtain ⟨report, hcontest, -⟩ := contestedSet_some_ok hnext
    exact .inr ⟨set, rfl, afterContest_basis hcontest⟩

theorem baselineCopies_ok {baseline : Option ValidatedChain} {winner copied : ValidatedChain}
    (h : baselineCopies baseline winner = .ok copied) :
    copied = winner ∨ ∃ b ∈ baseline, copied = b.extendedBy winner := by
  unfold baselineCopies at h
  cases baseline with
  | none => exact .inl (Except.ok.inj h).symm
  | some b =>
    simp only [bind_ok_iff, mapError_ok_iff, pure_ok_iff] at h
    obtain ⟨pairing, -, rfl⟩ := h
    split_ifs
    · exact .inr ⟨b, rfl, rfl⟩
    · exact .inl rfl

theorem baselineOf_accepted {set : RetentionSet} {chain : ValidatedChain}
    (h : set.basis = .accepted chain) : baselineOf set = some chain := by
  rw [baselineOf, h]

theorem baselineOf_contestedPrefix {set : RetentionSet} {shared : ValidatedChain}
    (h : set.basis = .contestedPrefix shared) : baselineOf set = none := by
  rw [baselineOf, h]

theorem Served.exhausted_subset (s : Served) : s.exhausted ⊆ s.all := by
  intro c hc
  obtain ⟨t, ht, hct⟩ := List.mem_flatMap.mp hc
  exact List.mem_flatMap.mpr ⟨t, List.mem_of_mem_filter ht, hct⟩

theorem acceptedSet_some_ok {set next : RetentionSet} {winner : ValidatedChain}
    {refused : List Digest} (h : acceptedSet (some set) winner = .ok (next, refused)) :
    ∃ report, set.rerank (.accepted winner) = (.ok report, next) ∧ report.refused = refused := by
  unfold acceptedSet at h
  dsimp only at h
  split at h
  · cases h
  · rename_i report moved hrerank
    cases h
    exact ⟨report, hrerank, rfl⟩

/-- An adoption ends with the winner's events on an accepted basis. -/
theorem adopted_ok {baseline : Option ValidatedChain} {winner : ValidatedChain}
    {read : List ValidatedChain} (h : adopted held baseline winner read now = .ok r) :
    ∃ chain next residue, next.basis = .accepted chain ∧
      r = ⟨.adopted winner.headDigest
          (baseline.any (fun replaced => winner.headSequence < replaced.headSequence)),
        some (.of chain now), some next, residue⟩ ∧
      ∃ copied, (copied = winner ∨ ∃ b ∈ baseline, copied = b.extendedBy winner) ∧
        ((held = none ∧ chain = copied) ∨ ∃ set, held = some set ∧
          chain = set.heldCopies copied) := by
  unfold adopted at h
  simp only [bind_ok_iff, Prod.exists, pure_ok_iff] at h
  obtain ⟨copied, hcopied, moved, refused₁, hmoved, next, refused₂, hadmitted, rfl⟩ := h
  have hcopy := baselineCopies_ok hcopied
  have hbasis := admitNew_basis hadmitted
  cases held with
  | none =>
    simp only [acceptedSet, Except.ok.injEq, Prod.mk.injEq] at hmoved
    have hnext : next.basis = .accepted copied := by
      rw [hbasis, ← hmoved.1]
      rfl
    refine ⟨copied, next, residueOf refused₂ next, hnext, ?_, copied, hcopy, .inl ⟨rfl, rfl⟩⟩
    rw [hnext]
    rfl
  | some set =>
    obtain ⟨report, hrerank, -⟩ := acceptedSet_some_ok hmoved
    have hnext : next.basis = .accepted (set.heldCopies copied) := by
      rw [hbasis, rerank_basis hrerank]
      rfl
    refine ⟨set.heldCopies copied, next, residueOf refused₂ next, hnext, ?_, copied, hcopy, .inr ⟨set, rfl, rfl⟩⟩
    rw [hnext]
    rfl

/-- Against an accepted chain: the winner is adopted off its head, and at its head
the set is kept, whole or with new suffixes. -/
theorem onBaseline_ok {set : RetentionSet} {baseline winner : ValidatedChain}
    {exhausted : List ValidatedChain} (h : onBaseline set baseline winner exhausted now = .ok r) :
    (winner.headDigest ≠ baseline.headDigest ∧
      adopted (some set) (some baseline) winner exhausted now = .ok r) ∨
    r = unchanged (some set) (.discarded baseline.headDigest) ∨
    ∃ next residue, next.basis = set.basis ∧
      r = ⟨.confirmed, some (.of next.basis.chain now), some next, residue⟩ := by
  unfold onBaseline at h
  split_ifs at h with hhead
  · exact .inl ⟨hhead, h⟩
  · rw [bind_ok_iff] at h
    obtain ⟨pairings, -, h⟩ := h
    split_ifs at h
    · rw [pure_ok_iff] at h
      exact .inr (.inl h.symm)
    · simp only [bind_ok_iff, Prod.exists, pure_ok_iff] at h
      obtain ⟨next, refused, hadmitted, rfl⟩ := h
      have hbasis := admitNew_basis hadmitted
      exact .inr (.inr ⟨next, _, hbasis, rfl⟩)

end Exits

section Adoption
variable {C : Crypto} {seen : Set Bytes} {identifier : Identifier} {Instant : Type}

/-- `c` has every event of `d` and more. -/
def ValidatedChain.ProperlyExtends (c d : ValidatedChain) : Prop :=
  pairChains c d = .ok .rightPrefixOfLeft

theorem classify_ok {held : Option RetentionSet} {reads : List SourceRead} {now : Instant}
    {r : Classification Instant} (h : classify C identifier held reads now = .ok r) :
    (∀ set ∈ held, set.basis.chain.identifier = identifier) ∧
      ((Served.read C identifier reads = none ∧ r = unchanged held .invalid) ∨
        ∃ served, Served.read C identifier reads = some served ∧
          classifyServed held served now = .ok r) := by
  unfold classify at h
  have hbody : (∀ set ∈ held, set.basis.chain.identifier = identifier) ∧
      (Served.read C identifier reads).elim
        (pure (unchanged held .invalid) : Except ClassifyError (Classification Instant))
        (classifyServed held · now) = .ok r := by
    cases held with
    | none =>
      refine ⟨by simp, ?_⟩
      rw [← h]
      cases Served.read C identifier reads <;> rfl
    | some set =>
      simp only [bind_ok_iff, require_ok_iff, exists_unit_iff, decide_eq_true_eq] at h
      refine ⟨by simp [h.1], ?_⟩
      rw [← h.2]
      cases Served.read C identifier reads <;> rfl
  refine ⟨hbody.1, ?_⟩
  have h := hbody.2
  cases hread : Served.read C identifier reads with
  | none =>
    rw [hread] at h
    simp only [Option.elim_none, pure_ok_iff] at h
    exact .inl ⟨rfl, h.symm⟩
  | some served =>
    rw [hread] at h
    exact .inr ⟨served, rfl, h⟩

/-- Every chain a source serves is valid in the world its units lie in. -/
theorem served_validIn (hcf : CollisionFree C seen) {reads : List SourceRead}
    (hreads : ∀ read ∈ reads, preimagesOf read.units ⊆ seen) {served : Served}
    (h : Served.read C identifier reads = some served) :
    ∀ c ∈ served.all, ValidIn C seen identifier c := by
  intro c hc
  obtain ⟨t, ht, hct⟩ := List.mem_flatMap.mp hc
  obtain ⟨hmem, hchains⟩ := mem_sources h t ht
  exact entryChains_validIn (hcf.mono (hreads t.1 hmem)) (hreads t.1 hmem) t.1.room hchains c hct

/-- The chain that wins over a set of valid chains extends or beats each other one. -/
theorem winner_above {b : Book} {chains : List ValidatedChain} (hon : ∀ c ∈ chains, OnBook b c)
    {head : Digest} (hres : resolveSet chains = .ok (.winner head)) {w c : ValidatedChain}
    (hw : OnBook b w) (hhead : w.headDigest = head) (hc : c ∈ chains)
    (hne : w.headDigest ≠ c.headDigest) : w.ProperlyExtends c ∨ w.Beats c := by
  obtain ⟨w', hw', hhead', habove⟩ := Book.winner_spec hon ((Book.resolveSet_eq_iff hon _).mp hres)
  have hsame := hw.eq_of_head (hon w' hw') (hhead.trans hhead'.symm)
  by_cases hp : c.eventDigests <+: w.eventDigests
  · left
    have hdiff : w.eventDigests ≠ c.eventDigests := fun heq => hne (ValidatedChain.headDigest_eq_of_digests heq)
    rw [ValidatedChain.ProperlyExtends, hw.pairChains_eq (hon c hc), Book.pairing, if_neg hdiff,
      if_neg ?_, if_pos hp]
    intro hp'
    exact hdiff (hp'.eq_of_length (hp'.length_le.antisymm hp.length_le))
  · right
    have hbeats := habove c hc (hsame ▸ hp)
    rw [(hon w' hw').beats_iff (hon c hc), ← hsame] at hbeats
    exact (hw.beats_iff (hon c hc)).mpr hbeats

/-- A head read through lies on a held chain or on one an exhausted source served. -/
theorem readThrough_source {held : Option RetentionSet} {reads : List SourceRead} {served : Served}
    (hread : Served.read C identifier reads = some served) {head : Digest}
    (h : readThrough (held.elim [] RetentionSet.chains ++ served.exhausted) head = true) :
    ∃ c, head ∈ c.eventDigests ∧ ((∃ set ∈ held, c ∈ set.chains) ∨ ∃ read ∈ reads,
      read.exhaustion = .exhausted ∧ ∃ chains,
        Served.entryChains C identifier read.units = some chains ∧ c ∈ chains) := by
  obtain ⟨c, hc, hany⟩ := List.any_eq_true.mp h
  obtain ⟨e, he, hdig⟩ := List.any_eq_true.mp hany
  rw [decide_eq_true_eq] at hdig
  refine ⟨c, List.mem_map.mpr ⟨e, he, hdig⟩, ?_⟩
  rcases List.mem_append.mp hc with hc | hc
  · left
    cases held with
    | none => cases hc
    | some set => exact ⟨set, rfl, hc⟩
  · right
    obtain ⟨t, ht, hct⟩ := List.mem_flatMap.mp hc
    obtain ⟨ht, hex⟩ := List.mem_filter.mp ht
    obtain ⟨hmem, hchains⟩ := mem_sources hread t ht
    exact ⟨t.1, hmem, by simpa using hex, t.2, hchains, hct⟩

/-- Past the floor, two operator keys sit over exhausted sources with a chain. -/
theorem two_operators {held : Option RetentionSet} {reads : List SourceRead} {served : Served}
    (hread : Served.read C identifier reads = some served)
    (hfloor : floorVerdict held served = none) (hbase : held.bind baselineOf = none) :
    ∃ k₁ k₂, k₁ ≠ k₂ ∧ ∀ k ∈ [k₁, k₂], ∃ read ∈ reads, read.exhaustion = .exhausted ∧
      read.proof = .verified k ∧ ∃ chains,
        Served.entryChains C identifier read.units = some chains ∧ chains ≠ [] := by
  simp only [floorVerdict, hbase, Option.isSome_none, Bool.false_eq_true, if_false] at hfloor
  split_ifs at hfloor
  rw [Option.map_eq_none_iff] at hfloor
  unfold Served.belowFloor at hfloor
  dsimp only at hfloor
  split_ifs at hfloor with hcount
  set counted := ((served.sources.filter (fun t => t.1.exhaustion = .exhausted ∧ t.2 ≠ [])).filterMap
    (operatorKey ·.1.proof)).dedup with hcounted
  have hnodup : counted.Nodup := List.nodup_dedup _
  have hsource : ∀ k ∈ counted, ∃ read ∈ reads, read.exhaustion = .exhausted ∧
      read.proof = .verified k ∧ ∃ chains,
        Served.entryChains C identifier read.units = some chains ∧ chains ≠ [] := by
    intro k hk
    obtain ⟨t, ht, hkey⟩ := List.mem_filterMap.mp (List.mem_dedup.mp hk)
    obtain ⟨ht, hcond⟩ := List.mem_filter.mp ht
    rw [decide_eq_true_eq] at hcond
    obtain ⟨hmem, hchains⟩ := mem_sources hread t ht
    refine ⟨t.1, hmem, hcond.1, ?_, t.2, hchains, hcond.2⟩
    unfold operatorKey at hkey
    split at hkey
    · rename_i key hproof
      rw [hproof, Option.some.inj hkey]
    all_goals cases hkey
  match counted, hcount, hnodup, hsource with
  | k₁ :: k₂ :: rest, _, hnodup, hsource =>
    refine ⟨k₁, k₂, ?_, ?_⟩
    · intro heq
      exact (List.nodup_cons.mp hnodup).1 (by simp [heq])
    · intro k hk
      exact hsource k (by simp only [List.mem_cons, List.not_mem_nil, or_false] at hk ⊢; tauto)

/-- A chain with a set's copies lies on the book of the set's chains. -/
theorem heldCopies_on {b : Book} {set : RetentionSet} (h : ∀ c ∈ set.chains, OnBook b c)
    {c : ValidatedChain} (hc : OnBook b c) : OnBook b (set.heldCopies c) := by
  obtain ⟨source, hmem, he, -⟩ := heldCopies_source set c
  rw [he]
  exact (h source hmem).extendedBy hc

/-- What a classification does to the basis, the key state and the held set. -/
structure NeverRollsBack (C : Crypto) (identifier : Identifier) (held : Option RetentionSet)
    (reads : List SourceRead) (now : Instant) (r : Classification Instant) : Prop where
  /-- An accepted basis stays accepted. Its head moves only by an adoption, to a chain
  that properly extends the baseline or beats it, with a head that was read through. -/
  accepted : ∀ set baseline, held = some set → set.basis = .accepted baseline →
    ∃ next chain, r.retention = some next ∧ next.basis = .accepted chain ∧
      (chain.headDigest ≠ baseline.headDigest →
        ∃ decreased, r.verdict = .adopted chain.headDigest decreased) ∧
      ∀ head decreased, r.verdict = .adopted head decreased → chain.headDigest = head ∧
        (chain.ProperlyExtends baseline ∨ chain.Beats baseline) ∧
        ∃ c, head ∈ c.eventDigests ∧ (c ∈ set.chains ∨ ∃ read ∈ reads,
          read.exhaustion = .exhausted ∧ ∃ chains,
            Served.entryChains C identifier read.units = some chains ∧ c ∈ chains)
  /-- With no accepted baseline, two operators stand behind an adoption or a tie. -/
  operators : held.bind baselineOf = none →
    ((∃ head decreased, r.verdict = .adopted head decreased) ∨
      ∃ tie heads shared fork residue, r.verdict = .contested tie heads shared fork residue) →
    ∃ k₁ k₂, k₁ ≠ k₂ ∧ ∀ k ∈ [k₁, k₂], ∃ read ∈ reads, read.exhaustion = .exhausted ∧
      read.proof = .verified k ∧ ∃ chains,
        Served.entryChains C identifier read.units = some chains ∧ chains ≠ []
  keyState : r.keyState.isSome ↔
    r.verdict = .confirmed ∨ ∃ head decreased, r.verdict = .adopted head decreased
  replayed : ∀ state ∈ r.keyState, ∃ next, r.retention = some next ∧
    state = .of next.basis.chain now ∧ state.replayed = replay next.basis.chain
  kept : (r.verdict = .invalid ∨ (∃ head, r.verdict = .discarded head) ∨
    ∃ cause, r.verdict = .inconclusive cause) → r.retention = held

theorem neverRollsBack_unchanged {held : Option RetentionSet} {reads : List SourceRead}
    {now : Instant} {verdict : ResolutionVerdict} (hv : verdict = .invalid ∨
      (∃ head, verdict = .discarded head) ∨ ∃ cause, verdict = .inconclusive cause) :
    NeverRollsBack C identifier held reads now (unchanged held verdict) := by
  have hconfirmed : verdict ≠ .confirmed := by
    rcases hv with rfl | ⟨head, rfl⟩ | ⟨cause, rfl⟩ <;> simp
  have hadopted : ∀ head decreased, verdict ≠ .adopted head decreased := by
    intro head decreased
    rcases hv with rfl | ⟨_, rfl⟩ | ⟨cause, rfl⟩ <;> simp
  have hcontested : ∀ tie heads shared fork residue,
      verdict ≠ .contested tie heads shared fork residue := by
    intro tie heads shared fork residue
    rcases hv with rfl | ⟨_, rfl⟩ | ⟨cause, rfl⟩ <;> simp
  refine ⟨?_, ?_, ?_, by simp [unchanged], fun _ => rfl⟩
  · intro set baseline hset hbasis
    refine ⟨set, baseline, hset, hbasis, fun hne => absurd rfl hne, ?_⟩
    intro head decreased hverdict
    exact absurd hverdict (hadopted head decreased)
  · intro _ hverdict
    rcases hverdict with ⟨head, decreased, hverdict⟩ | ⟨tie, heads, shared, fork, residue, hverdict⟩
    · exact absurd hverdict (hadopted head decreased)
    · exact absurd hverdict (hcontested tie heads shared fork residue)
  · simp [unchanged, hconfirmed, hadopted]

/-- A tie moves no accepted basis. -/
theorem neverRollsBack_contested {held : Option RetentionSet} {reads : List SourceRead}
    {served : Served} {now : Instant} {r : Classification Instant}
    (hread : Served.read C identifier reads = some served)
    (hfloor : floorVerdict held served = none) {contest : Contest}
    {ranked read : List ValidatedChain} (h : contested held contest ranked read = .ok r) :
    NeverRollsBack C identifier held reads now r := by
  obtain ⟨shared, next, residue, -, rfl, hbasis⟩ := contested_ok h
  refine ⟨?_, ?_, by simp, by simp, by simp⟩
  · intro set baseline hset haccepted
    rcases hbasis with ⟨hnone, -⟩ | ⟨set', hset', hbasis⟩
    · rw [hnone] at hset
      cases hset
    · rw [hset, Option.some.injEq] at hset'
      rcases hbasis with ⟨accepted, hb, hnext⟩ | ⟨before, hb, -⟩
      · rw [← hset', haccepted, RetentionBasis.accepted.injEq] at hb
        refine ⟨next, _, rfl, hnext, ?_, by simp⟩
        intro hne
        refine absurd ?_ hne
        apply ValidatedChain.headDigest_eq_of_digests
        rw [heldCopies_eventDigests, hb]
      · rw [← hset', haccepted] at hb
        cases hb
  · intro hbase _
    exact two_operators hread hfloor hbase

section Winner
variable {held : Option RetentionSet} {reads : List SourceRead} {served : Served} {now : Instant}
  {r : Classification Instant} {b : Book} {head : Digest} {winner : ValidatedChain}
  (hread : Served.read C identifier reads = some served)
  (hfloor : floorVerdict held served = none)
  (hranked : ∀ c ∈ held.elim [] RetentionSet.chains ++ served.all, OnBook b c)
  (hres : resolveSet (held.elim [] RetentionSet.chains ++ served.all) = .ok (.winner head))
  (hthrough : readThrough (held.elim [] RetentionSet.chains ++ served.exhausted) head = true)
  (hmem : winner ∈ held.elim [] RetentionSet.chains ++ served.all)
  (hhead : winner.headDigest = head)

/-- An accepted basis is among the chains ranked. -/
theorem baseline_ranked {set : RetentionSet} {baseline : ValidatedChain} (hset : held = some set)
    (hb : set.basis = .accepted baseline) :
    baseline ∈ held.elim [] RetentionSet.chains ++ served.all := by
  rw [hset]
  refine List.mem_append_left _ ?_
  change baseline ∈ set.basis.chain :: _
  rw [hb]
  exact List.mem_cons_self

include hranked hmem in
/-- The basis an adoption ends on holds the winner's events. -/
theorem adopted_chain {baseline : Option ValidatedChain} (hbase : ∀ b' ∈ baseline, OnBook b b')
    {copied chain : ValidatedChain}
    (hcopied : copied = winner ∨ ∃ b' ∈ baseline, copied = b'.extendedBy winner)
    (hchain : (held = none ∧ chain = copied) ∨ ∃ set, held = some set ∧
      chain = set.heldCopies copied) :
    OnBook b chain ∧ chain.eventDigests = winner.eventDigests := by
  have hwinner := hranked winner hmem
  have hcopiedOn : OnBook b copied ∧ copied.eventDigests = winner.eventDigests := by
    rcases hcopied with rfl | ⟨b', hb', rfl⟩
    · exact ⟨hwinner, rfl⟩
    · exact ⟨(hbase b' hb').extendedBy hwinner, by simp⟩
  rcases hchain with ⟨-, rfl⟩ | ⟨set, rfl, rfl⟩
  · exact hcopiedOn
  · refine ⟨heldCopies_on ?_ hcopiedOn.1, ?_⟩
    · intro c hc
      exact hranked c (List.mem_append_left _ hc)
    · rw [heldCopies_eventDigests, hcopiedOn.2]

include hread hfloor hranked hres hthrough hmem hhead

theorem neverRollsBack_adopted {baseline : Option ValidatedChain}
    (h : adopted held baseline winner served.exhausted now = .ok r)
    (hbase : ∀ set b', held = some set → set.basis = .accepted b' → baseline = some b' ∧
      winner.headDigest ≠ b'.headDigest) (honbase : ∀ b' ∈ baseline, OnBook b b') :
    NeverRollsBack C identifier held reads now r := by
  obtain ⟨chain, next, residue, hnext, rfl, copied, hcopied, hchain⟩ := adopted_ok h
  obtain ⟨hchainOn, hsame⟩ := adopted_chain hranked hmem honbase hcopied hchain
  have hchainHead : chain.headDigest = winner.headDigest :=
    ValidatedChain.headDigest_eq_of_digests hsame
  refine ⟨?_, ?_, by simp, ?_, by simp⟩
  · intro set b' hset haccepted
    obtain ⟨rfl, hne⟩ := hbase set b' hset haccepted
    refine ⟨next, chain, rfl, hnext, ?_, ?_⟩
    · intro _
      exact ⟨_, by rw [hchainHead]⟩
    · intro head' decreased hverdict
      simp only [ResolutionVerdict.adopted.injEq] at hverdict
      refine ⟨hchainHead.trans hverdict.1, ?_, ?_⟩
      · apply winner_above hranked hres hchainOn (hchainHead.trans hhead)
          (baseline_ranked hset haccepted)
        rwa [hchainHead]
      · obtain ⟨c, hc, hsource⟩ := readThrough_source hread hthrough
        refine ⟨c, by rwa [← hverdict.1, hhead], ?_⟩
        rcases hsource with ⟨set', hset', hc⟩ | hsource
        · rw [Option.mem_def, hset, Option.some.injEq] at hset'
          exact .inl (hset' ▸ hc)
        · exact .inr hsource
  · intro hbase _
    exact two_operators hread hfloor hbase
  · intro state hstate
    rw [Option.mem_def, Option.some.injEq] at hstate
    refine ⟨next, rfl, ?_, ?_⟩
    · rw [← hstate, hnext]
      rfl
    · rw [← hstate, hnext]
      rfl

theorem neverRollsBack_onBaseline {set : RetentionSet} {baseline : ValidatedChain}
    (hset : held = some set) (hb : set.basis = .accepted baseline)
    (h : onBaseline set baseline winner served.exhausted now = .ok r) :
    NeverRollsBack C identifier held reads now r := by
  rcases onBaseline_ok h with ⟨hne, hadopt⟩ | rfl | ⟨next, residue, hbasis, rfl⟩
  · rw [← hset] at hadopt
    refine neverRollsBack_adopted hread hfloor hranked hres hthrough hmem hhead hadopt ?_ ?_
    · intro set' b' hset' haccepted
      rw [hset, Option.some.injEq] at hset'
      rw [← hset', hb, RetentionBasis.accepted.injEq] at haccepted
      exact ⟨by rw [haccepted], by rwa [← haccepted]⟩
    · intro b' hbase
      rw [Option.mem_def, Option.some.injEq] at hbase
      rw [← hbase]
      exact hranked _ (baseline_ranked hset hb)
  · rw [hset]
    exact neverRollsBack_unchanged (.inr (.inl ⟨_, rfl⟩))
  · have hsome : held.bind baselineOf = some baseline := by simp [hset, baselineOf, hb]
    refine ⟨?_, by simp [hsome], by simp, ?_, by simp⟩
    · intro set' b' hset' haccepted
      rw [hset, Option.some.injEq] at hset'
      rw [← hset'] at haccepted
      exact ⟨next, b', rfl, hbasis.trans haccepted, fun hne => absurd rfl hne, by simp⟩
    · intro state hstate
      rw [Option.mem_def, Option.some.injEq] at hstate
      refine ⟨next, rfl, hstate.symm, ?_⟩
      rw [← hstate]
      rfl

end Winner

/-- What was held and what was served lie on one book. -/
theorem ranked_onBook (hcf : CollisionFree C seen) {held : Option RetentionSet}
    (hheld : ∀ set ∈ held, ∀ c ∈ set.chains, ValidIn C seen set.basis.chain.identifier c)
    (hids : ∀ set ∈ held, set.basis.chain.identifier = identifier) {reads : List SourceRead}
    (hreads : ∀ read ∈ reads, preimagesOf read.units ⊆ seen) {served : Served}
    (hread : Served.read C identifier reads = some served) :
    ∀ c ∈ held.elim [] RetentionSet.chains ++ served.all, OnBook (bookOf C seen identifier) c := by
  intro c hc
  rcases List.mem_append.mp hc with hc | hc
  · cases held with
    | none => cases hc
    | some set =>
      have hv := hheld set rfl c hc
      rw [hids set rfl] at hv
      exact hv.onBook hcf
  · exact (served_validIn hcf hreads hread c hc).onBook hcf

/-- Adoption never rolls back: for every mix of sources, a classification keeps what
`NeverRollsBack` says of the basis, the key state and the held set. -/
theorem adoption_never_rolls_back (hcf : CollisionFree C seen) (held : Option RetentionSet)
    (hheld : ∀ set ∈ held, ∀ c ∈ set.chains, ValidIn C seen set.basis.chain.identifier c)
    (reads : List SourceRead) (hreads : ∀ read ∈ reads, preimagesOf read.units ⊆ seen)
    (now : Instant) (r : Classification Instant)
    (h : classify C identifier held reads now = .ok r) :
    NeverRollsBack C identifier held reads now r := by
  obtain ⟨hids, ⟨-, rfl⟩ | ⟨served, hread, hbody⟩⟩ := classify_ok h
  · exact neverRollsBack_unchanged (.inl rfl)
  have hranked := ranked_onBook hcf hheld hids hreads hread
  rcases classifyServed_cases hbody with ⟨cause, rfl⟩ | ⟨hfloor, contest, hcontest⟩ |
    ⟨hfloor, head, winner, hres, hthrough, hfind, hexit⟩
  · exact neverRollsBack_unchanged (.inr (.inr ⟨cause, rfl⟩))
  · exact neverRollsBack_contested hread hfloor hcontest
  · have hmem := List.mem_of_find?_eq_some hfind
    have hhead : winner.headDigest = head := by simpa using List.find?_some hfind
    -- An accepted baseline is compared with the winner, anything else is replaced by it.
    cases held with
    | none =>
      exact neverRollsBack_adopted hread hfloor hranked hres hthrough hmem hhead hexit
        (by simp) (by simp)
    | some set =>
      cases hb : set.basis with
      | accepted baseline =>
        have hsome := baselineOf_accepted hb
        simp only [Option.bind_some, hsome] at hexit
        exact neverRollsBack_onBaseline hread hfloor hranked hres hthrough hmem hhead rfl hb hexit
      | contestedPrefix shared =>
        have hnone := baselineOf_contestedPrefix hb
        simp only [Option.bind_some, hnone] at hexit
        refine neverRollsBack_adopted hread hfloor hranked hres hthrough hmem hhead hexit ?_ (by simp)
        intro set' b' hset haccepted
        rw [← Option.some.inj hset, hb] at haccepted
        cases haccepted

end Adoption

-- The sample inception held as the accepted chain, and a source that serves a
-- recovery of it.

def sampleHeld : RetentionSet := .new (.accepted sampleChain)

def sampleSource : SourceRead where
  name := "source"
  units := [sampleUnit (sampleRecovery 4 5) 3, sampleUnit sampleInception 1]
  exhaustion := .exhausted
  proof := .unverified
  room := by decide

theorem sampleSource_seen : ∀ read ∈ [sampleSource], preimagesOf read.units ⊆ sampleSeen := by
  have hmem : ∀ signed ∈ (sampleSource.units.filterMap servedFields).map signedPreimageOf,
      signed ∈ samplePreimages := by
    decide +kernel
  intro read hread signed hsigned
  rw [List.mem_singleton.mp hread, mem_preimagesOf] at hsigned
  exact hmem signed hsigned

theorem sampleHeld_validIn : ∀ set ∈ some sampleHeld, ∀ c ∈ set.chains,
    ValidIn sampleCrypto sampleSeen set.basis.chain.identifier c := by
  intro set hset c hc
  rw [Option.mem_def, Option.some.injEq] at hset
  rw [← hset] at hc ⊢
  rw [show sampleHeld.chains = [sampleChain] from rfl, List.mem_singleton] at hc
  rw [hc]
  exact sample_validIn sampleChain List.mem_cons_self

def sampleAdoption : Classification ℕ :=
  okGet (classify sampleCrypto sampleIdentifier (some sampleHeld) [sampleSource] 0)
    (by decide +kernel)

/-- The recovery is adopted over the inception it extends. -/
theorem adoption_never_rolls_back_sample :
    sampleAdoption.verdict = .adopted sampleRecovered.event.digest false ∧
      NeverRollsBack sampleCrypto sampleIdentifier (some sampleHeld) [sampleSource] 0
        sampleAdoption := by
  exact ⟨by decide +kernel, adoption_never_rolls_back sample_collisionFree (some sampleHeld)
    sampleHeld_validIn [sampleSource] sampleSource_seen 0 sampleAdoption (eq_okGet _ _)⟩

end ScpCore.Kel
