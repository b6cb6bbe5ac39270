import ScpCore.KelTotal

/-! The order of what was served decides nothing. A verdict reads of a source how
far it was read, who proved it and which events its chains hold, and that is the
same for every order of the reads and of the units in each. -/

namespace ScpCore.Kel

/-- The same read with its units in another order. -/
structure SourceRead.Reordered (read read' : SourceRead) : Prop where
  name : read.name = read'.name
  exhaustion : read.exhaustion = read'.exhaustion
  proof : read.proof = read'.proof
  units : read.units.Perm read'.units

/-- The same reads in another order, each with its units in another order. -/
def Reordered (reads reads' : List SourceRead) : Prop :=
  ∃ between, reads.Perm between ∧ List.Forall₂ SourceRead.Reordered between reads'

/-- What a verdict reads of a source; its chains by their events, `none` where its
inception is invalid. -/
structure SourceView where
  name : String
  exhaustion : SourceExhaustion
  proof : OperatorProof
  events : Option (Set (List Digest))

/-- The events of each chain. -/
def eventsOf (chains : List ValidatedChain) : Set (List Digest) :=
  {x | ∃ c ∈ chains, c.eventDigests = x}

theorem eventsOf_eq_empty_iff (chains : List ValidatedChain) :
    eventsOf chains = ∅ ↔ chains = [] := by
  constructor
  · intro hempty
    apply List.eq_nil_iff_forall_not_mem.mpr
    intro c hc
    have hin : c.eventDigests ∈ eventsOf chains := ⟨c, hc, rfl⟩
    rw [hempty] at hin
    exact hin
  · intro hnil
    rw [hnil]
    simp [eventsOf]

def readView (C : Crypto) (identifier : Identifier) (read : SourceRead) : SourceView :=
  ⟨read.name, read.exhaustion, read.proof,
    (Served.entryChains C identifier read.units).map eventsOf⟩

def sourceView (t : SourceRead × List ValidatedChain) : SourceView :=
  ⟨t.1.name, t.1.exhaustion, t.1.proof, some (eventsOf t.2)⟩

section Views
variable {C : Crypto} {identifier : Identifier}

section Reorder
variable {units units' : List Bytes} (hcf : CollisionFree C (preimagesOf units))
  (hzero : ∀ signed ∈ preimagesOf units, C.sha256 signed ≠ 0) (hperm : units.Perm units')
include hcf hperm

theorem entryChains_none_perm (identifier : Identifier) : Served.entryChains C identifier units = none ↔
    Served.entryChains C identifier units' = none := by
  have hcf' : CollisionFree C (preimagesOf units') := by rwa [preimagesOf_perm hperm]
  rw [entryChains_none_iff hcf, entryChains_none_iff hcf']
  simp only [hperm.mem_iff]

include hzero

/-- The chains of an entry are the same whatever the order of its units, copies aside. -/
theorem entryChains_strips (identifier : Identifier) (bare : ValidatedChain) :
    bare ∈ ((Served.entryChains C identifier units).getD []).map ValidatedChain.strip ↔
      bare ∈ ((Served.entryChains C identifier units').getD []).map ValidatedChain.strip := by
  have hseen := preimagesOf_perm hperm
  have hcf' : CollisionFree C (preimagesOf units') := by rwa [hseen]
  have hzero' : ∀ signed ∈ preimagesOf units', C.sha256 signed ≠ 0 := by rwa [hseen]
  have hnone := entryChains_none_perm hcf hperm identifier
  have hbuilt (c : ValidatedChain) :
      BuiltFrom C identifier units c ↔ BuiltFrom C identifier units' c :=
    ⟨BuiltFrom.mono (fun u hu => hperm.mem_iff.mp hu),
      BuiltFrom.mono (fun u hu => hperm.mem_iff.mpr hu)⟩
  cases hchains : Served.entryChains C identifier units with
  | none => rw [hnone.mp hchains]
  | some chains =>
    cases hchains' : Served.entryChains C identifier units' with
    | none =>
      rw [hnone.mpr hchains'] at hchains
      cases hchains
    | some chains' =>
      rw [Option.getD_some, Option.getD_some, mem_entryChains hcf hzero hchains,
        mem_entryChains hcf' hzero' hchains']
      simp only [hbuilt, hperm.mem_iff]

/-- The chains of an entry hold the same events whatever the order of its units. -/
theorem entryChains_events :
    (Served.entryChains C identifier units).map eventsOf =
      (Served.entryChains C identifier units').map eventsOf := by
  have hnone := entryChains_none_perm hcf hperm identifier
  have hstrip := entryChains_strips hcf hzero hperm identifier
  have hevents (cs : List ValidatedChain) (x : List Digest) : x ∈ eventsOf cs ↔
      ∃ bare ∈ cs.map ValidatedChain.strip, bare.eventDigests = x := by
    simp [eventsOf]
  cases hchains : Served.entryChains C identifier units with
  | none => rw [hnone.mp hchains]
  | some chains =>
    cases hchains' : Served.entryChains C identifier units' with
    | none =>
      rw [hnone.mpr hchains'] at hchains
      cases hchains
    | some chains' =>
      rw [hchains, hchains'] at hstrip
      rw [Option.map_some, Option.map_some, Option.some.injEq]
      ext x
      rw [hevents, hevents]
      exact exists_congr (fun bare => and_congr_left' (hstrip bare))

end Reorder

section Seen
variable {seen : Set Bytes} (hcf : CollisionFree C seen) (hzero : ∀ signed ∈ seen, C.sha256 signed ≠ 0)
include hcf hzero

/-- Reordered reads show the same sources. -/
theorem reordered_views {reads reads' : List SourceRead} (h : Reordered reads reads')
    (hreads : ∀ read ∈ reads, preimagesOf read.units ⊆ seen) :
    (reads.map (readView C identifier)).Perm (reads'.map (readView C identifier)) := by
  obtain ⟨between, hperm, hall⟩ := h
  have hbetween : ∀ read ∈ between, preimagesOf read.units ⊆ seen :=
    fun read hr => hreads read (hperm.mem_iff.mpr hr)
  have heq : between.map (readView C identifier) = reads'.map (readView C identifier) := by
    clear hperm hreads
    induction hall with
    | nil => rfl
    | @cons read read' _ _ hone _ ih =>
      rw [List.map_cons, List.map_cons, ih (fun read hr => hbetween read (List.mem_cons_of_mem _ hr))]
      have hsub := hbetween read List.mem_cons_self
      have hevents : (Served.entryChains C identifier read.units).map eventsOf =
          (Served.entryChains C identifier read'.units).map eventsOf :=
        entryChains_events (hcf.mono hsub) (fun signed hs => hzero signed (hsub hs)) hone.units
      rw [readView, readView, hone.name, hone.exhaustion, hone.proof, hevents]
  exact (hperm.map _).trans (List.Perm.of_eq heq)

end Seen

theorem read_views {reads : List SourceRead} {served : Served}
    (h : Served.read C identifier reads = some served) :
    served.sources.map sourceView = reads.map (readView C identifier) := by
  have hall := read_sources h
  generalize served.sources = sources at hall
  clear h
  induction hall with
  | nil => rfl
  | cons hone _ ih =>
    rw [List.map_cons, List.map_cons, ih, readView, hone.2, sourceView, hone.1]
    rfl

theorem read_none_iff {reads : List SourceRead} : Served.read C identifier reads = none ↔
    ∃ view ∈ reads.map (readView C identifier), view.events = none := by
  induction reads with
  | nil => simp [Served.read]
  | cons read reads ih =>
    simp only [List.map_cons, List.mem_cons, exists_eq_or_imp, ← ih]
    simp only [readView, Option.map_eq_none_iff, Served.read]
    cases Served.entryChains C identifier read.units with
    | none => simp
    | some chains => cases Served.read C identifier reads <;> simp

end Views

/-- The same verdict, up to the residue of a tie and the order of the failed sources. -/
def ResolutionVerdict.Same : ResolutionVerdict → ResolutionVerdict → Prop
  | .contested tie heads shared fork _, .contested tie' heads' shared' fork' _ =>
    tie = tie' ∧ heads = heads' ∧ shared = shared' ∧ fork = fork'
  | .inconclusive (.missingEvents range failed), .inconclusive (.missingEvents range' failed') =>
    range = range' ∧ failed.Perm failed'
  | verdict, verdict' => verdict = verdict'

theorem ResolutionVerdict.same_refl (verdict : ResolutionVerdict) : verdict.Same verdict := by
  match verdict with
  | .contested _ _ _ _ _ => exact ⟨rfl, rfl, rfl, rfl⟩
  | .inconclusive (.missingEvents _ _) => exact ⟨rfl, List.Perm.refl _⟩
  | .inconclusive (.singleSource _ _ _) => exact rfl
  | .confirmed => exact rfl
  | .adopted _ _ => exact rfl
  | .invalid => exact rfl
  | .discarded _ => exact rfl

/-- Lists with one image up to order keep it under a filter the image decides. -/
theorem perm_filter_map {α β : Type} {f : α → β} {l l' : List α} (h : (l.map f).Perm (l'.map f))
    {p : α → Bool} (hp : ∀ a a', f a = f a' → p a = p a') :
    ((l.filter p).map f).Perm ((l'.filter p).map f) := by
  classical
  let q : β → Bool := fun x => decide (∃ a, f a = x ∧ p a = true)
  have hq (a : α) : q (f a) = p a := by
    by_cases hpa : p a = true
    · simp only [q, hpa, decide_eq_true_eq]
      exact ⟨a, rfl, hpa⟩
    · rw [Bool.not_eq_true] at hpa
      simp only [q, hpa, decide_eq_false_iff_not]
      intro hex
      obtain ⟨a', ha', hpa'⟩ := hex
      rw [hp a' a ha', hpa] at hpa'
      cases hpa'
  have hfilter (l : List α) : (l.filter p).map f = (l.map f).filter q := by
    rw [List.filter_map]
    congr 1
    apply List.filter_congr
    intro a _
    exact (hq a).symm
  rw [hfilter, hfilter]
  exact h.filter q

/-- Sources that show a verdict the same. -/
def Served.Alike (s s' : Served) : Prop :=
  (s.sources.map sourceView).Perm (s'.sources.map sourceView)

namespace Served.Alike
variable {s s' : Served} (h : s.Alike s')
include h

theorem filter {p : SourceRead × List ValidatedChain → Bool}
    (hp : ∀ t t', sourceView t = sourceView t' → p t = p t') :
    ((s.sources.filter p).map sourceView).Perm ((s'.sources.filter p).map sourceView) :=
  perm_filter_map h hp

omit h in
/-- The events of every chain of some sources, by their views. -/
theorem eventsOf_flatMap (sources : List (SourceRead × List ValidatedChain)) (x : List Digest) :
    x ∈ eventsOf (sources.flatMap (·.2)) ↔
      ∃ view ∈ sources.map sourceView, ∃ events ∈ view.events, x ∈ events := by
  simp only [eventsOf, Set.mem_ofPred_eq, List.mem_flatMap, List.mem_map]
  constructor
  · intro hx
    obtain ⟨c, ⟨t, ht, hc⟩, rfl⟩ := hx
    exact ⟨_, ⟨t, ht, rfl⟩, _, rfl, c, hc, rfl⟩
  · intro hx
    obtain ⟨_, ⟨t, ht, rfl⟩, _, hevents, hx⟩ := hx
    rw [Option.mem_def, sourceView, Option.some.injEq] at hevents
    rw [← hevents] at hx
    obtain ⟨c, hc, rfl⟩ := hx
    exact ⟨c, ⟨t, ht, hc⟩, rfl⟩

theorem all : eventsOf s.all = eventsOf s'.all := by
  ext x
  rw [Served.all, Served.all, eventsOf_flatMap, eventsOf_flatMap]
  simp only [List.Perm.mem_iff h]

omit h in
theorem exhaustion_eq {t t' : SourceRead × List ValidatedChain} (ht : sourceView t = sourceView t') :
    t.1.exhaustion = t'.1.exhaustion := congrArg SourceView.exhaustion ht

omit h in
theorem proof_eq {t t' : SourceRead × List ValidatedChain} (ht : sourceView t = sourceView t') :
    t.1.proof = t'.1.proof := congrArg SourceView.proof ht

omit h in
/-- Whether a source served a chain is seen in its view. -/
theorem nil_iff {t t' : SourceRead × List ValidatedChain} (ht : sourceView t = sourceView t') :
    t.2 = [] ↔ t'.2 = [] := by
  have hevents : eventsOf t.2 = eventsOf t'.2 := Option.some.inj (congrArg SourceView.events ht)
  rw [← eventsOf_eq_empty_iff, hevents, eventsOf_eq_empty_iff]

theorem exhausted : eventsOf s.exhausted = eventsOf s'.exhausted := by
  have hperm := h.filter (p := fun t => t.1.exhaustion = .exhausted) (by
    intro t t' ht
    rw [exhaustion_eq ht])
  ext x
  rw [Served.exhausted, Served.exhausted, eventsOf_flatMap, eventsOf_flatMap]
  simp only [hperm.mem_iff]

theorem stopped : s.stopped = s'.stopped := by
  have hview (s : Served) : s.stopped = (s.sources.map sourceView).any
      (fun view => view.exhaustion = .stoppedAtFetchBound) := by
    rw [Served.stopped, List.any_map]
    rfl
  rw [hview, hview]
  exact h.any_eq

theorem missingEvents (held : Option RetentionSet) :
    (s.missingEvents held).Same (s'.missingEvents held) := by
  have hassembled (s : Served) : (s.sources.any (fun t => !t.2.isEmpty)) = true ↔
      eventsOf s.all ≠ ∅ := by
    rw [ne_eq, eventsOf_eq_empty_iff, Served.all, List.flatMap_eq_nil_iff]
    simp
  have heq : s.sources.any (fun t => !t.2.isEmpty) = s'.sources.any (fun t => !t.2.isEmpty) := by
    rw [Bool.eq_iff_iff, hassembled, hassembled, h.all]
  have hfailed := h.filter (p := fun t => t.1.exhaustion = .failed) (by
    intro t t' ht
    rw [exhaustion_eq ht])
  have hnames := hfailed.map SourceView.name
  rw [List.map_map, List.map_map] at hnames
  unfold Served.missingEvents
  rw [heq]
  exact ⟨rfl, hnames⟩

/-- The operator keys of the sources kept by a filter. -/
theorem operatorKeys {p : SourceRead × List ValidatedChain → Bool}
    (hp : ∀ t t', sourceView t = sourceView t' → p t = p t') :
    ((s.sources.filter p).filterMap (operatorKey ·.1.proof)).dedup.length =
      ((s'.sources.filter p).filterMap (operatorKey ·.1.proof)).dedup.length := by
  have hperm := (h.filter hp).filterMap (fun view => operatorKey view.proof)
  rw [List.filterMap_map, List.filterMap_map] at hperm
  exact hperm.dedup.length_eq

theorem belowFloor : s.belowFloor = s'.belowFloor := by
  have hcounted := h.operatorKeys (p := fun t => t.1.exhaustion = .exhausted ∧ t.2 ≠ []) (by
    intro t t' ht
    simp only [exhaustion_eq ht, ne_eq, nil_iff ht])
  have hreachable : ∀ t t', sourceView t = sourceView t' →
      decide (t.1.exhaustion ≠ .failed) = decide (t'.1.exhaustion ≠ .failed) := by
    intro t t' ht
    rw [exhaustion_eq ht]
  have hproven := h.operatorKeys hreachable
  have hreached := (h.filter hreachable).length_eq
  have hskewed := (perm_filter_map (h.filter hreachable)
    (p := fun t => t.1.proof = .clockSkewRejected) (by
      intro t t' ht
      rw [proof_eq ht])).length_eq
  rw [List.length_map, List.length_map] at hreached hskewed
  unfold Served.belowFloor
  dsimp only
  rw [hcounted, hproven, hreached, hskewed]

theorem exhausted_isEmpty : s.exhausted.isEmpty = s'.exhausted.isEmpty := by
  rw [Bool.eq_iff_iff, List.isEmpty_iff, List.isEmpty_iff, ← eventsOf_eq_empty_iff, h.exhausted,
    eventsOf_eq_empty_iff]

end Served.Alike

section Runs
variable {Instant : Type}

/-- The same verdict, key state head and basis. -/
structure Classification.Agrees (r r' : Classification Instant) : Prop where
  verdict : r.verdict.Same r'.verdict
  keyState : r.keyState.map (fun state => (state.headDigest, state.replayed.headDigest)) =
    r'.keyState.map (fun state => (state.headDigest, state.replayed.headDigest))
  basis : r.retention.map (fun set => (set.basis.kind, set.basis.chain.headDigest)) =
    r'.retention.map (fun set => (set.basis.kind, set.basis.chain.headDigest))

/-- Two runs end alike: with one error, or with classifications that agree, unless
one of them has no moment left to give. -/
def SameOutcome (x x' : Except ClassifyError (Classification Instant)) : Prop :=
  x = .error (.retention .observedExhausted) ∨ x' = .error (.retention .observedExhausted) ∨
    (∃ e, x = .error e ∧ x' = .error e) ∨ ∃ r r', x = .ok r ∧ x' = .ok r' ∧ r.Agrees r'

theorem sameOutcome_of_fails {x x' : Except ClassifyError (Classification Instant)}
    (h : FailsOnlyWith (.retention .observedExhausted) x)
    (h' : FailsOnlyWith (.retention .observedExhausted) x')
    (hagree : ∀ r r', x = .ok r → x' = .ok r' → r.Agrees r') : SameOutcome x x' := by
  rcases h.cases with hx | ⟨r, hx⟩
  · exact .inl hx
  rcases h'.cases with hx' | ⟨r', hx'⟩
  · exact .inr (.inl hx')
  exact .inr (.inr (.inr ⟨r, r', hx, hx', hagree r r' hx hx'⟩))

theorem sameOutcome_unchanged (held : Option RetentionSet) {verdict verdict' : ResolutionVerdict}
    (h : verdict.Same verdict') :
    SameOutcome (pure (unchanged held verdict) : Except ClassifyError (Classification Instant))
      (pure (unchanged held verdict')) :=
  .inr (.inr (.inr ⟨_, _, rfl, rfl, h, rfl, rfl⟩))

theorem eventsOf_append (cs ds : List ValidatedChain) :
    eventsOf (cs ++ ds) = eventsOf cs ∪ eventsOf ds := by
  ext x
  simp only [eventsOf, Set.mem_ofPred_eq, Set.mem_union, List.mem_append, or_and_right, exists_or]

theorem branches_eq {b : Book} {cs ds : List ValidatedChain} (h : eventsOf cs = eventsOf ds) :
    b.branches cs = b.branches ds := by
  have hbranch (cs : List ValidatedChain) (x : Branch b.label) :
      x ∈ b.branches cs ↔ x.elements ∈ eventsOf cs := by
    constructor
    · intro hx
      obtain ⟨c, hc, rfl⟩ := hx
      exact ⟨c, hc, rfl⟩
    · intro hx
      obtain ⟨c, hc, he⟩ := hx
      exact ⟨c, hc, by rw [Book.branch, he]⟩
  ext x
  rw [hbranch, hbranch, h]

theorem readThrough_eq {cs ds : List ValidatedChain} (h : eventsOf cs = eventsOf ds) (head : Digest) :
    readThrough cs head = readThrough ds head := by
  have hthrough (cs : List ValidatedChain) :
      readThrough cs head = true ↔ ∃ x ∈ eventsOf cs, head ∈ x := by
    simp [readThrough, eventsOf, ValidatedChain.eventDigests]
  rw [Bool.eq_iff_iff, hthrough, hthrough, h]

/-- Whether a chain's reveals are root-cosigned is read off the book. -/
theorem OnBook.reveals_iff {b : Book} {c : ValidatedChain} (hc : OnBook b c) :
    c.revealsRootCosignedThrough c.headSequence = true ↔
      ∀ digest ∈ c.eventDigests.drop 1, b.label digest ≠ .rank2 := by
  have hall : (c.events.drop 1).takeWhile (·.sequence ≤ c.headSequence) = c.events.drop 1 := by
    rw [List.takeWhile_eq_self_iff]
    intro e he
    obtain ⟨i, hi⟩ := List.mem_iff_getElem?.mp (List.mem_of_mem_drop he)
    have hlt := (List.getElem?_eq_some_iff.mp hi).1
    rw [c.length_events] at hlt
    rw [hc.sequence i e hi, hc.headSequence_eq, decide_eq_true_eq]
    omega
  have hlabel : ∀ e ∈ c.events.drop 1, (b.label e.digest ≠ .rank2 ↔
      (e.kind.isRevealAuthorized = true → e.revealRootCosigned = true)) := by
    intro e he
    rw [hc.label e (List.mem_of_mem_drop he), ChainEvent.label]
    split_ifs with hr hcosigned <;> simp_all
  rw [ValidatedChain.revealsRootCosignedThrough, hall, ValidatedChain.eventDigests, ← List.map_drop]
  simp only [List.all_eq_true, List.mem_filter, and_imp, List.mem_map, forall_exists_index,
    forall_apply_eq_imp_iff₂]
  constructor
  · intro h e he
    exact (hlabel e he).mpr (h e he)
  · intro h e he
    exact (hlabel e he).mp (h e he)

section Exits
variable {b : Book} {held : Option RetentionSet} (hheld : ∀ set ∈ held, ∀ c ∈ set.chains, OnBook b c)
  {ranked ranked' read read' : List ValidatedChain} (hranked : ∀ c ∈ ranked, OnBook b c)
  (hranked' : ∀ c ∈ ranked', OnBook b c) (hread : ∀ c ∈ read, OnBook b c)
  (hread' : ∀ c ∈ read', OnBook b c)

include hranked hranked' in
/-- The fetch-bound exit is taken alike, whichever copy of the prefix is read. -/
theorem earlyStop_same {served served' : Served} (hstopped : served.stopped = served'.stopped)
    {resolution : SetResolution} (hres : resolveSet ranked = .ok resolution)
    (hres' : resolveSet ranked' = .ok resolution) :
    ∃ stop, earlyStop served ranked resolution = .ok stop ∧
      earlyStop served' ranked' resolution = .ok stop ∧
      ∀ contest ∈ stop, resolution = .tie contest.tieClass contest.heads contest.sharedPrefixHead
        contest.forkPosition := by
  unfold earlyStop
  rw [hstopped]
  split_ifs
  · exact ⟨none, rfl, rfl, by simp⟩
  match resolution with
  | .winner _ => exact ⟨none, rfl, rfl, by simp⟩
  | .empty => exact ⟨none, rfl, rfl, by simp⟩
  | .tie .rank2Terminal _ _ _ => exact ⟨none, rfl, rfl, by simp⟩
  | .tie .rank3Pending _ _ _ => exact ⟨none, rfl, rfl, by simp⟩
  | .tie .rank1Terminal heads sharedPrefixHead forkPosition =>
    obtain ⟨shared, hshared⟩ := prefixOf_total hranked hres
    obtain ⟨shared', hshared'⟩ := prefixOf_total hranked' hres'
    obtain ⟨hon, hhead, -⟩ := prefixOf_ok hranked hshared
    obtain ⟨hon', hhead', -⟩ := prefixOf_ok hranked' hshared'
    have hsame := hon.eq_of_head hon' (hhead.trans hhead'.symm)
    have hreveals : shared.revealsRootCosignedThrough shared.headSequence =
        shared'.revealsRootCosignedThrough shared'.headSequence := by
      rw [Bool.eq_iff_iff, hon.reveals_iff, hon'.reveals_iff, hsame]
    refine ⟨_, by simp only [hshared]; rfl, by simp only [hshared', hreveals]; rfl, ?_⟩
    intro contest hcontest
    split_ifs at hcontest
    · rw [Option.mem_some_iff] at hcontest
      rw [← hcontest]
    · cases hcontest

include hheld hranked hranked' hread hread' in
theorem contested_same {contest : Contest}
    (hres : resolveSet ranked = .ok (.tie contest.tieClass contest.heads contest.sharedPrefixHead
      contest.forkPosition))
    (hres' : resolveSet ranked' = .ok (.tie contest.tieClass contest.heads contest.sharedPrefixHead
      contest.forkPosition)) :
    SameOutcome (contested held contest ranked read : Except ClassifyError (Classification Instant))
      (contested held contest ranked' read') := by
  obtain ⟨shared, hshared⟩ := prefixOf_total hranked hres
  obtain ⟨shared', hshared'⟩ := prefixOf_total hranked' hres'
  apply sameOutcome_of_fails (contested_fails hheld hranked hread hshared)
    (contested_fails hheld hranked' hread' hshared')
  -- The basis is at the shared prefix, or where the accepted one was.
  have hbasis : ∀ {ranked read} {r : Classification Instant}, (∀ c ∈ ranked, OnBook b c) →
      contested held contest ranked read = .ok r → ∃ next residue, r = ⟨.contested contest.tieClass
        contest.heads contest.sharedPrefixHead contest.forkPosition residue, none, some next,
        residue⟩ ∧ (next.basis.kind, next.basis.chain.headDigest) =
          (held.bind baselineOf).elim (.contestedPrefix, contest.sharedPrefixHead)
            (fun baseline => (.accepted, baseline.headDigest)) := by
    intro ranked read r hon hok
    obtain ⟨shared, next, residue, hprefixed, rfl, hnext⟩ := contested_ok hok
    have hhead := (prefixOf_ok hon hprefixed).2.1
    refine ⟨next, residue, rfl, ?_⟩
    rcases hnext with ⟨rfl, hnext⟩ | ⟨set, rfl, ⟨accepted, hb, hnext⟩ | ⟨before, hb, hnext⟩⟩
    · rw [hnext, ← hhead]
      rfl
    · rw [hnext]
      simp only [RetentionBasis.kind, RetentionBasis.chain, Option.bind_some, baselineOf, hb,
        Option.elim_some]
      rw [ValidatedChain.headDigest_eq_of_digests (heldCopies_eventDigests set accepted)]
    · rw [hnext, ← hhead]
      simp only [RetentionBasis.kind, RetentionBasis.chain, Option.bind_some, baselineOf, hb,
        Option.elim_none]
      rw [ValidatedChain.headDigest_eq_of_digests (heldCopies_eventDigests set shared)]
  intro r r' hok hok'
  obtain ⟨next, residue, rfl, hb⟩ := hbasis hranked hok
  obtain ⟨next', residue', rfl, hb'⟩ := hbasis hranked' hok'
  refine ⟨⟨rfl, rfl, rfl, rfl⟩, rfl, ?_⟩
  rw [Option.map_some, Option.map_some, hb, hb']

section Winner
variable {winner winner' : ValidatedChain} (hwinner : OnBook b winner) (hwinner' : OnBook b winner')
  (hhead : winner.headDigest = winner'.headDigest)
  (htop : ∀ set ∈ held, Topmost winner set.chains) (htopRead : Topmost winner read)
  (htopRead' : Topmost winner' read') {now : Instant}
include hheld hread hread' hwinner hwinner' hhead htop htopRead htopRead'

theorem adopted_same {baseline : Option ValidatedChain} (hbase : ∀ c ∈ baseline, OnBook b c) :
    SameOutcome (adopted held baseline winner read now)
      (adopted held baseline winner' read' now) := by
  have hsame := hwinner.eq_of_head hwinner' hhead
  have htop' : ∀ set ∈ held, Topmost winner' set.chains := by
    intro set hset
    unfold Topmost
    rw [← hsame]
    exact htop set hset
  apply sameOutcome_of_fails (adopted_fails hheld hread hbase hwinner htop htopRead)
    (adopted_fails hheld hread' hbase hwinner' htop' htopRead')
  -- Whatever copies it holds, the adopted chain has the winner's events.
  have hchain : ∀ {winner read} {r : Classification Instant}, OnBook b winner →
      adopted held baseline winner read now = .ok r → ∃ chain next residue,
        next.basis = .accepted chain ∧ chain.headDigest = winner.headDigest ∧
        r = ⟨.adopted winner.headDigest
            (baseline.any (fun replaced => winner.headSequence < replaced.headSequence)),
          some (.of chain now), some next, residue⟩ := by
    intro winner read r hon hok
    obtain ⟨chain, next, residue, hnext, rfl, copied, hcopied, hchain⟩ := adopted_ok hok
    refine ⟨chain, next, residue, hnext, ?_, rfl⟩
    apply ValidatedChain.headDigest_eq_of_digests
    have hdigests : copied.eventDigests = winner.eventDigests := by
      rcases hcopied with rfl | ⟨c, -, rfl⟩
      · rfl
      · exact ValidatedChain.extendedBy_eventDigests c winner
    rcases hchain with ⟨-, rfl⟩ | ⟨set, -, rfl⟩
    · exact hdigests
    · rw [heldCopies_eventDigests, hdigests]
  intro r r' hok hok'
  obtain ⟨chain, next, residue, hb, hc, rfl⟩ := hchain hwinner hok
  obtain ⟨chain', next', residue', hb', hc', rfl⟩ := hchain hwinner' hok'
  have hsequence : winner.headSequence = winner'.headSequence := by
    rw [hwinner.headSequence_eq, hwinner'.headSequence_eq, ← winner.length_eventDigests,
      ← winner'.length_eventDigests, hsame]
  have hchains : chain.headDigest = chain'.headDigest := by rw [hc, hc', hhead]
  refine ⟨?_, ?_, ?_⟩
  · change ResolutionVerdict.adopted _ _ = .adopted _ _
    rw [hhead, hsequence]
  · change some (chain.headDigest, chain.headDigest) = some (chain'.headDigest, chain'.headDigest)
    rw [hchains]
  · rw [Option.map_some, Option.map_some, hb, hb']
    change some (BasisKind.accepted, chain.headDigest) = some (BasisKind.accepted, chain'.headDigest)
    rw [hchains]

end Winner

include hread hread' in
theorem onBaseline_same {set : RetentionSet} (hset : ∀ c ∈ set.chains, OnBook b c)
    {baseline winner winner' : ValidatedChain} (hb : set.basis = .accepted baseline)
    (hwinner : OnBook b winner) (hwinner' : OnBook b winner')
    (hhead : winner.headDigest = winner'.headDigest) (htop : Topmost winner set.chains)
    (htopRead : Topmost winner read) (htopRead' : Topmost winner' read') (now : Instant)
    (hevents : eventsOf read = eventsOf read') :
    SameOutcome (onBaseline set baseline winner read now)
      (onBaseline set baseline winner' read' now) := by
  have hbaseline : OnBook b baseline := by
    have h := hset set.basis.chain List.mem_cons_self
    rwa [hb] at h
  have htop' : Topmost winner' set.chains := by
    unfold Topmost
    rw [← hwinner.eq_of_head hwinner' hhead]
    exact htop
  by_cases hne : winner.headDigest ≠ baseline.headDigest
  · unfold onBaseline
    rw [if_pos hne, if_pos (hhead ▸ hne)]
    exact adopted_same (by simpa using hset) hread hread' hwinner hwinner' hhead
      (by simpa using htop) htopRead htopRead' (by simpa using hbaseline)
  -- At the baseline's head, only the events of what was read to its end are compared.
  have hexit : ∀ {winner read} {r : Classification Instant},
      ¬ winner.headDigest ≠ baseline.headDigest → (∀ c ∈ read, OnBook b c) →
      onBaseline set baseline winner read now = .ok r →
      ((∀ x ∈ eventsOf read, b.pairing x baseline.eventDigests = .leftPrefixOfRight) ∧
        r = unchanged (some set) (.discarded baseline.headDigest)) ∨
      ((¬ ∀ x ∈ eventsOf read, b.pairing x baseline.eventDigests = .leftPrefixOfRight) ∧
        ∃ next residue, next.basis = set.basis ∧
          r = ⟨.confirmed, some (.of next.basis.chain now), some next, residue⟩) := by
    intro winner read r hne hon hok
    have hpairs : mapEach (fun chain => (pairChains chain baseline).mapError
        (fun e => ClassifyError.resolve (.unrelated e))) read =
          .ok (read.map (fun c => b.pairing c.eventDigests baseline.eventDigests)) := by
      apply mapEach_eq_ok
      intro c hc
      rw [(hon c hc).pairChains_eq hbaseline]
      rfl
    have hall : (read.map (fun c => b.pairing c.eventDigests baseline.eventDigests)).all
        (· = .leftPrefixOfRight) = true ↔
          ∀ x ∈ eventsOf read, b.pairing x baseline.eventDigests = .leftPrefixOfRight := by
      simp [eventsOf]
    unfold onBaseline at hok
    simp only [if_neg hne, hpairs, bind_ok_iff, Except.ok.injEq, exists_eq_left'] at hok
    by_cases hprefixed : ∀ x ∈ eventsOf read, b.pairing x baseline.eventDigests = .leftPrefixOfRight
    · rw [if_pos (hall.mpr hprefixed), pure_ok_iff] at hok
      exact .inl ⟨hprefixed, hok.symm⟩
    · rw [if_neg (fun h => hprefixed (hall.mp h))] at hok
      simp only [bind_ok_iff, Prod.exists, pure_ok_iff] at hok
      obtain ⟨next, refused, hadmitted, rfl⟩ := hok
      have hbasis := admitNew_basis hadmitted
      exact .inr ⟨hprefixed, next, _, hbasis, rfl⟩
  apply sameOutcome_of_fails (onBaseline_fails hset hread hb hwinner htop htopRead)
    (onBaseline_fails hset hread' hb hwinner' htop' htopRead')
  intro r r' hok hok'
  have hok := hexit hne hread hok
  have hok' := hexit (hhead ▸ hne) hread' hok'
  rw [← hevents] at hok'
  rcases hok with ⟨hprefixed, rfl⟩ | ⟨hprefixed, next, residue, hbasis, rfl⟩
  · obtain rfl := (hok'.resolve_right (fun h => h.1 hprefixed)).2
    exact ⟨rfl, rfl, rfl⟩
  · obtain ⟨-, next', residue', hbasis', rfl⟩ := hok'.resolve_left (fun h => hprefixed h.1)
    refine ⟨rfl, ?_, ?_⟩
    · rw [hbasis, hbasis']
    · rw [Option.map_some, Option.map_some, hbasis, hbasis']

end Exits

/-- The floor is met alike. -/
theorem floorVerdict_same (held : Option RetentionSet) {served served' : Served}
    (h : served.Alike served') :
    (floorVerdict held served = none ∧ floorVerdict held served' = none) ∨
      ∃ verdict verdict', floorVerdict held served = some verdict ∧
        floorVerdict held served' = some verdict' ∧ verdict.Same verdict' := by
  unfold floorVerdict
  rw [← h.exhausted_isEmpty, ← h.belowFloor]
  split_ifs
  · exact .inl ⟨rfl, rfl⟩
  · exact .inr ⟨_, _, rfl, rfl, h.missingEvents held⟩
  · cases hbelow : served.belowFloor with
    | none => exact .inl ⟨rfl, rfl⟩
    | some cause => exact .inr ⟨_, _, rfl, rfl, ResolutionVerdict.same_refl _⟩

/-- The exit of a winner that was read through. -/
def onWinner (held : Option RetentionSet) (winner : ValidatedChain)
    (exhausted : List ValidatedChain) (now : Instant) :
    Except ClassifyError (Classification Instant) :=
  match held, held.bind baselineOf with
  | some set, some baseline => onBaseline set baseline winner exhausted now
  | held, _ => adopted held none winner exhausted now

section Served
variable {b : Book} {held : Option RetentionSet} {served served' : Served}
  (h : served.Alike served')
  (hon : ∀ c ∈ held.elim [] RetentionSet.chains ++ served.all, OnBook b c)
  (hon' : ∀ c ∈ held.elim [] RetentionSet.chains ++ served'.all, OnBook b c)

include hon in
theorem held_onBook : ∀ set ∈ held, ∀ c ∈ set.chains, OnBook b c := by
  intro set hset c hc
  rw [Option.mem_def] at hset
  rw [hset] at hon
  exact hon c (List.mem_append_left _ hc)

include hon in
theorem exhausted_onBook : ∀ c ∈ served.exhausted, OnBook b c :=
  fun c hc => hon c (List.mem_append_right _ (served.exhausted_subset hc))

include hon in
/-- A winner is found among the chains ranked. -/
theorem winner_found {head : Digest}
    (hres : resolveSet (held.elim [] RetentionSet.chains ++ served.all) = .ok (.winner head)) :
    ∃ winner, (held.elim [] RetentionSet.chains ++ served.all).find? (·.headDigest = head) =
        some winner ∧ winner ∈ held.elim [] RetentionSet.chains ++ served.all ∧
      winner.headDigest = head := by
  obtain ⟨w, hw, hhead, -⟩ := Book.winner_spec hon ((Book.resolveSet_eq_iff hon _).mp hres)
  have hsome : ((held.elim [] RetentionSet.chains ++ served.all).find?
      (·.headDigest = head)).isSome := by
    rw [List.find?_isSome]
    exact ⟨w, hw, by simp [hhead]⟩
  obtain ⟨winner, hfind⟩ := Option.isSome_iff_exists.mp hsome
  have hfound := List.find?_some hfind
  rw [decide_eq_true_eq] at hfound
  exact ⟨winner, hfind, List.mem_of_find?_eq_some hfind, hfound⟩

include h hon hon'

/-- A winner is taken alike: whichever copy is found, it has the same events. -/
theorem winner_same {head : Digest}
    (hres : resolveSet (held.elim [] RetentionSet.chains ++ served.all) = .ok (.winner head))
    (hres' : resolveSet (held.elim [] RetentionSet.chains ++ served'.all) = .ok (.winner head))
    {winner winner' : ValidatedChain}
    (hwinner : winner ∈ held.elim [] RetentionSet.chains ++ served.all)
    (hwinner' : winner' ∈ held.elim [] RetentionSet.chains ++ served'.all)
    (hhead : winner.headDigest = head) (hhead' : winner'.headDigest = head) (now : Instant) :
    SameOutcome (onWinner held winner served.exhausted now)
      (onWinner held winner' served'.exhausted now) := by
  have htop := winner_topmost hon hres (hon winner hwinner) hhead
  have htop' := winner_topmost hon' hres' (hon' winner' hwinner') hhead'
  have htopHeld : ∀ set ∈ held, Topmost winner set.chains := by
    intro set hset c hc
    rw [Option.mem_def] at hset
    rw [hset] at htop
    exact htop c (List.mem_append_left _ hc)
  have htopRead : Topmost winner served.exhausted :=
    fun c hc => htop c (List.mem_append_right _ (served.exhausted_subset hc))
  have htopRead' : Topmost winner' served'.exhausted :=
    fun c hc => htop' c (List.mem_append_right _ (served'.exhausted_subset hc))
  have hheads : winner.headDigest = winner'.headDigest := hhead.trans hhead'.symm
  have hadopted : SameOutcome (adopted held none winner served.exhausted now)
      (adopted held none winner' served'.exhausted now) :=
    adopted_same (held_onBook hon) (exhausted_onBook hon) (exhausted_onBook hon')
      (hon winner hwinner) (hon' winner' hwinner') hheads htopHeld htopRead htopRead' (by simp)
  cases held with
  | none => exact hadopted
  | some set =>
    cases hb : set.basis with
    | contestedPrefix shared =>
      have hnone := baselineOf_contestedPrefix hb
      simp only [onWinner, Option.bind_some, hnone]
      exact hadopted
    | accepted baseline =>
      have hsome := baselineOf_accepted hb
      simp only [onWinner, Option.bind_some, hsome]
      exact onBaseline_same (exhausted_onBook hon) (exhausted_onBook hon') (held_onBook hon set rfl)
        hb (hon winner hwinner) (hon' winner' hwinner') hheads (htopHeld set rfl) htopRead htopRead'
        now h.exhausted

/-- What was served decides the outcome by its views alone. -/
theorem classifyServed_same (now : Instant) :
    SameOutcome (classifyServed held served now) (classifyServed held served' now) := by
  have hheld := held_onBook hon
  have hread := exhausted_onBook hon
  have hread' := exhausted_onBook hon'
  have hmissing := h.missingEvents held
  have hthrough (head : Digest) :
      readThrough (held.elim [] RetentionSet.chains ++ served.exhausted) head =
        readThrough (held.elim [] RetentionSet.chains ++ served'.exhausted) head := by
    apply readThrough_eq
    rw [eventsOf_append, eventsOf_append, h.exhausted]
  -- The chains ranked hold the same events, so they resolve to one result.
  obtain ⟨resolution, hres, hresolves⟩ := Book.resolveSet_ok hon
  have hres' : resolveSet (held.elim [] RetentionSet.chains ++ served'.all) = .ok resolution := by
    have hbranches : b.branches (held.elim [] RetentionSet.chains ++ served.all) =
        b.branches (held.elim [] RetentionSet.chains ++ served'.all) := by
      apply branches_eq
      rw [eventsOf_append, eventsOf_append, h.all]
    rw [Book.resolveSet_eq_iff hon', ← hbranches]
    exact hresolves
  obtain ⟨stop, hstop, hstop', hcontest⟩ := earlyStop_same hon hon' h.stopped hres hres'
  unfold classifyServed
  dsimp only
  rcases floorVerdict_same held h with ⟨hfloor, hfloor'⟩ | ⟨verdict, verdict', hfloor, hfloor', hsame⟩
  on_goal 2 =>
    rw [hfloor, hfloor']
    exact sameOutcome_unchanged held hsame
  simp only [hfloor, hfloor', hres, hres', hstop, hstop', Except.mapError, bind, Except.bind,
    ← h.exhausted_isEmpty, hthrough]
  cases stop with
  | some contest =>
    have htie := hcontest contest rfl
    rw [htie] at hres hres'
    exact contested_same hheld hon hon' hread hread' hres hres'
  | none =>
    dsimp only
    split_ifs
    · exact sameOutcome_unchanged held hmissing
    cases resolution with
    | empty => exact .inr (.inr (.inl ⟨_, rfl, rfl⟩))
    | tie tieClass heads sharedPrefixHead forkPosition =>
      dsimp only
      have hall : heads.all (readThrough (held.elim [] RetentionSet.chains ++ served.exhausted)) =
          heads.all (readThrough (held.elim [] RetentionSet.chains ++ served'.exhausted)) :=
        congrArg heads.all (funext hthrough)
      rw [hall]
      split_ifs
      · apply contested_same hheld hon hon' hread hread'
        · exact hres
        · exact hres'
      · exact sameOutcome_unchanged held hmissing
    | winner head =>
      dsimp only
      split_ifs
      · obtain ⟨winner, hfind, hmem, hhead⟩ := winner_found hon hres
        obtain ⟨winner', hfind', hmem', hhead'⟩ := winner_found hon' hres'
        simp only [hfind, hfind', okOr, Option.elim_some]
        exact winner_same h hon hon' hres hres' hmem hmem' hhead hhead' now
      · exact sameOutcome_unchanged held hmissing

end Served

section Classify
variable {C : Crypto} {seen : Set Bytes} {identifier : Identifier}

theorem Reordered.source {reads reads' : List SourceRead} (h : Reordered reads reads') :
    ∀ read' ∈ reads', ∃ read ∈ reads, read.Reordered read' := by
  obtain ⟨between, hperm, hall⟩ := h
  intro read' hread'
  obtain ⟨hlen, hget⟩ := List.forall₂_iff_get.mp hall
  obtain ⟨i, hi, rfl⟩ := List.mem_iff_getElem.mp hread'
  have hi' : i < between.length := by omega
  exact ⟨between[i], hperm.mem_iff.mpr (List.getElem_mem hi'), hget i hi' hi⟩

/-- The verdict does not depend on the order of the reads, nor on the order of the
units in each; copies of one event may differ in bytes. -/
theorem verdict_free_of_served_order (hcf : CollisionFree C seen)
    (hzero : ∀ signed ∈ seen, C.sha256 signed ≠ 0) (held : Option RetentionSet)
    (hheld : ∀ set ∈ held, ∀ c ∈ set.chains, ValidIn C seen set.basis.chain.identifier c)
    (reads reads' : List SourceRead) (hreads : ∀ read ∈ reads, preimagesOf read.units ⊆ seen)
    (hreordered : Reordered reads reads') (now : Instant) :
    SameOutcome (classify C identifier held reads now) (classify C identifier held reads' now) := by
  have hviews : (reads.map (readView C identifier)).Perm (reads'.map (readView C identifier)) :=
    reordered_views hcf hzero hreordered hreads
  have hreads' : ∀ read ∈ reads', preimagesOf read.units ⊆ seen := by
    intro read' hread'
    obtain ⟨read, hread, hone⟩ := hreordered.source read' hread'
    rw [preimagesOf_perm hone.units]
    exact hreads read hread
  -- Whether anything can be read does not depend on the order either.
  have hnone : Served.read C identifier reads = none ↔ Served.read C identifier reads' = none := by
    rw [read_none_iff, read_none_iff]
    simp only [hviews.mem_iff]
  by_cases hids : ∀ set ∈ held, set.basis.chain.identifier = identifier
  · have hguard (reads : List SourceRead) : classify C identifier held reads now =
        (Served.read C identifier reads).elim (pure (unchanged held .invalid))
          (classifyServed held · now) := by
      unfold classify
      cases held with
      | none => cases Served.read C identifier reads <;> rfl
      | some set =>
        simp only [hids set rfl, require, decide_true, if_true]
        cases Served.read C identifier reads <;> rfl
    rw [hguard, hguard]
    cases hread : Served.read C identifier reads with
    | none =>
      rw [hnone.mp hread]
      exact sameOutcome_unchanged held rfl
    | some served =>
      cases hread' : Served.read C identifier reads' with
      | none =>
        rw [hnone.mpr hread'] at hread
        cases hread
      | some served' =>
        have halike : served.Alike served' := by
          rw [Served.Alike, read_views hread, read_views hread']
          exact hviews
        exact classifyServed_same halike (ranked_onBook hcf hheld hids hreads hread)
          (ranked_onBook hcf hheld hids hreads' hread') now
  · -- A set of another identifier is refused before anything is read.
    cases held with
    | none => exact absurd (by simp) hids
    | some set =>
      have hne : set.basis.chain.identifier ≠ identifier := by simpa using hids
      have hrefused (reads : List SourceRead) : classify C identifier (some set) reads now =
          .error (.heldOfAnotherIdentifier identifier set.basis.chain.identifier) := by
        unfold classify
        simp only [require, hne, decide_false, Bool.false_eq_true, if_false]
        rfl
      exact .inr (.inr (.inl ⟨_, hrefused reads, hrefused reads'⟩))

end Classify

end Runs

-- The sample source with its two units served the other way round.

def sampleReversed : SourceRead :=
  { sampleSource with
    units := sampleSource.units.reverse
    room := by decide }

theorem verdict_free_of_served_order_sample :
    SameOutcome (classify sampleCrypto sampleIdentifier (some sampleHeld) [sampleSource] 0)
      (classify sampleCrypto sampleIdentifier (some sampleHeld) [sampleReversed] 0) ∧
    (classify sampleCrypto sampleIdentifier (some sampleHeld) [sampleReversed] 0).toOption.map
      (·.verdict) = some (.adopted sampleRecovered.event.digest false) := by
  have hzero : ∀ signed ∈ sampleSeen, sampleCrypto.sha256 signed ≠ 0 := by
    have hall : ∀ signed ∈ samplePreimages, sampleCrypto.sha256 signed ≠ 0 := by
      decide +kernel
    exact hall
  have hreordered : Reordered [sampleSource] [sampleReversed] :=
    ⟨[sampleSource], List.Perm.refl _, List.Forall₂.cons
      ⟨rfl, rfl, rfl, (List.reverse_perm _).symm⟩ List.Forall₂.nil⟩
  exact ⟨verdict_free_of_served_order sample_collisionFree hzero (some sampleHeld)
    sampleHeld_validIn [sampleSource] [sampleReversed] sampleSource_seen hreordered 0,
    by decide +kernel⟩

end ScpCore.Kel
