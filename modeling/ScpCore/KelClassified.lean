import ScpCore.KelHolder
import ScpCore.KelTotal

/-! Runs of classifications over any reads. A classification writes the retention set
by admissions, moves and contests, so what these keep every run keeps. -/

namespace ScpCore.Kel

/-- One write to a retention set, over valid chains of one identifier. -/
inductive Write (C : Crypto) (seen : Set Bytes) (identifier : Identifier) :
    RetentionSet → RetentionSet → Prop
  | admits {s s' : RetentionSet} {candidate : ValidatedChain} {admission : Admission}
      (hc : ValidIn C seen identifier candidate) (h : s.admit_ candidate = (.ok admission, s')) :
      Write C seen identifier s s'
  | rerank {s s' : RetentionSet} {basis : RetentionBasis} {report : Rerank}
      (hb : ValidIn C seen identifier basis.chain) (h : s.rerank basis = (.ok report, s')) :
      Write C seen identifier s s'
  | afterContest {s s' : RetentionSet} {tiePrefix : ValidatedChain}
      {candidates : List ValidatedChain} {report : Rerank}
      (ht : ValidIn C seen identifier tiePrefix)
      (hc : ∀ c ∈ candidates, ValidIn C seen identifier c)
      (h : s.afterContest tiePrefix candidates = .ok (report, s')) : Write C seen identifier s s'
  | confirmAccepted {s : RetentionSet} {served : List ValidatedChain}
      (hc : ∀ c ∈ served, ValidIn C seen identifier c)
      (h : resolveSet (s.chains ++ served) = .ok (.winner s.basis.chain.headDigest)) :
      Write C seen identifier s s.confirmAccepted

/-- Write after write. -/
def Writes (C : Crypto) (seen : Set Bytes) (identifier : Identifier) :
    RetentionSet → RetentionSet → Prop :=
  Relation.ReflTransGen (Write C seen identifier)

/-- What a classification leaves comes from the held set by writes, or at a first
contact from a new set over a valid basis. -/
def Written (C : Crypto) (seen : Set Bytes) (identifier : Identifier)
    (held : Option RetentionSet) (next : RetentionSet) : Prop :=
  match held with
  | some set => Writes C seen identifier set next
  | none => ∃ basis : RetentionBasis, ValidIn C seen identifier basis.chain ∧
      Writes C seen identifier (.new basis) next

/-- The sets that classifications of reads from the world lead to. -/
inductive Classified (C : Crypto) (seen : Set Bytes) (identifier : Identifier) :
    Option RetentionSet → Prop
  | start : Classified C seen identifier none
  | call {Instant : Type} {held : Option RetentionSet} {reads : List SourceRead} {now : Instant}
      {r : Classification Instant} (before : Classified C seen identifier held)
      (hreads : ∀ read ∈ reads, preimagesOf read.units ⊆ seen)
      (h : classify C identifier held reads now = .ok r) : Classified C seen identifier r.retention

section Written
variable {C : Crypto} {seen : Set Bytes} {identifier : Identifier} {s s' : RetentionSet}
  {held : Option RetentionSet} {Instant : Type} {now : Instant} {r : Classification Instant}

theorem Reachable.write (hs : Reachable C seen identifier s) (h : Write C seen identifier s s') :
    Reachable C seen identifier s' := by
  cases h with
  | admits hc h => exact .admits hs hc h
  | rerank hb h => exact .rerank hs hb h
  | afterContest ht hc h => exact .afterContest hs ht hc h
  | confirmAccepted hc h => exact .confirmAccepted hs hc h

theorem Reachable.writes (hs : Reachable C seen identifier s) (h : Writes C seen identifier s s') :
    Reachable C seen identifier s' := by
  induction h with
  | refl => exact hs
  | tail _ hlast ih => exact ih.write hlast

theorem admitNew_writes {before : Option RetentionSet} {chains : List ValidatedChain}
    {refused refused' : List Digest} (hc : ∀ c ∈ chains, ValidIn C seen identifier c)
    (h : admitNew before s chains refused = .ok (s', refused')) : Writes C seen identifier s s' := by
  induction chains generalizing s refused with
  | nil =>
    rw [admitNew, Except.ok.injEq] at h
    rw [(Prod.mk.inj h).1]
    exact .refl
  | cons chain chains ih =>
    have hchain := hc chain List.mem_cons_self
    have hrest : ∀ c ∈ chains, ValidIn C seen identifier c :=
      fun c hcm => hc c (List.mem_cons_of_mem _ hcm)
    unfold admitNew at h
    split_ifs at h
    · exact ih hrest h
    · split at h
      · cases h
      all_goals
        rename_i hadmitted
        exact .head (.admits hchain hadmitted) (ih hrest h)

theorem baselineCopies_validIn (hcf : CollisionFree C seen) {baseline : Option ValidatedChain}
    {winner copied : ValidatedChain} (hbase : ∀ c ∈ baseline, ValidIn C seen identifier c)
    (hwinner : ValidIn C seen identifier winner)
    (h : baselineCopies baseline winner = .ok copied) : ValidIn C seen identifier copied := by
  rcases baselineCopies_ok h with rfl | ⟨c, hc, rfl⟩
  · exact hwinner
  · exact (hbase c hc).extendedBy hcf hwinner

/-- The prefix below a fork of valid chains is valid. -/
theorem prefixOf_validIn {ranked : List ValidatedChain}
    (hranked : ∀ c ∈ ranked, ValidIn C seen identifier c) {sharedPrefixHead : Digest}
    {forkPosition : ℕ} {shared : ValidatedChain} (hcf : CollisionFree C seen)
    (h : prefixOf ranked sharedPrefixHead forkPosition = .ok shared) :
    ValidIn C seen identifier shared := by
  unfold prefixOf at h
  rw [okOr_ok_iff] at h
  obtain ⟨c, hc, hcut⟩ := List.mem_filterMap.mp (List.mem_of_find?_eq_some h)
  exact (hranked c hc).cut hcf hcut

section Exits
variable {ranked read : List ValidatedChain}
  (hranked : ∀ c ∈ ranked, ValidIn C seen identifier c)
  (hread : ∀ c ∈ read, ValidIn C seen identifier c)
include hranked hread

theorem contested_written (hcf : CollisionFree C seen) {contest : Contest}
    (h : contested held contest ranked read = .ok r) :
    ∃ next, r.retention = some next ∧ Written C seen identifier held next := by
  unfold contested at h
  simp only [bind_ok_iff, Prod.exists, pure_ok_iff] at h
  obtain ⟨shared, hshared, next, refused, hnext, rfl⟩ := h
  refine ⟨next, rfl, ?_⟩
  have hvalid := prefixOf_validIn hranked hcf hshared
  have hcandidates : ∀ c ∈ ranked.filter (fun chain => chain.headDigest ∈ contest.heads) ++ read,
      ValidIn C seen identifier c := by
    intro c hc
    rcases List.mem_append.mp hc with hc | hc
    · exact hranked c (List.mem_of_mem_filter hc)
    · exact hread c hc
  cases held with
  | none => exact ⟨.contestedPrefix shared, hvalid, admitNew_writes hcandidates hnext⟩
  | some set =>
    obtain ⟨report, hcontest, -⟩ := contestedSet_some_ok hnext
    exact .single (.afterContest hvalid (fun c hc => hcandidates c (List.mem_of_mem_filter hc))
      hcontest)

omit hranked in
theorem adopted_written (hcf : CollisionFree C seen) {baseline : Option ValidatedChain}
    {winner : ValidatedChain} (hbase : ∀ c ∈ baseline, ValidIn C seen identifier c)
    (hwinner : ValidIn C seen identifier winner)
    (h : adopted held baseline winner read now = .ok r) :
    ∃ next, r.retention = some next ∧ Written C seen identifier held next := by
  unfold adopted at h
  simp only [bind_ok_iff, Prod.exists, pure_ok_iff] at h
  obtain ⟨copied, hcopied, moved, refused, hmoved, next, refused', hadmitted, rfl⟩ := h
  refine ⟨next, rfl, ?_⟩
  have hvalid := baselineCopies_validIn hcf hbase hwinner hcopied
  have hadmits := admitNew_writes hread hadmitted
  cases held with
  | none =>
    obtain ⟨rfl, -⟩ := Prod.mk.inj (Except.ok.inj hmoved)
    exact ⟨.accepted copied, hvalid, hadmits⟩
  | some set =>
    obtain ⟨report, hrerank, -⟩ := acceptedSet_some_ok hmoved
    have hbasis : ValidIn C seen identifier (RetentionBasis.accepted copied).chain := hvalid
    exact .head (.rerank hbasis hrerank) hadmits

end Exits

/-- Against an accepted chain the set stays, moves to the winner, or is confirmed
and takes the chains read. -/
theorem onBaseline_written (hcf : CollisionFree C seen) {set : RetentionSet}
    {baseline winner : ValidatedChain} {served exhausted : List ValidatedChain}
    (hb : set.basis = .accepted baseline) (hset : ∀ c ∈ set.chains, ValidIn C seen identifier c)
    (hserved : ∀ c ∈ served, ValidIn C seen identifier c) (hread : exhausted ⊆ served)
    (hwinner : ValidIn C seen identifier winner)
    (hres : resolveSet (set.chains ++ served) = .ok (.winner winner.headDigest))
    (h : onBaseline set baseline winner exhausted now = .ok r) :
    ∃ next, r.retention = some next ∧ Writes C seen identifier set next := by
  have hexhausted : ∀ c ∈ exhausted, ValidIn C seen identifier c :=
    fun c hc => hserved c (hread hc)
  have hbaseline : ValidIn C seen identifier baseline := by
    apply hset
    rw [RetentionSet.chains, hb]
    exact List.mem_cons_self
  unfold onBaseline at h
  split_ifs at h with hhead
  · exact adopted_written hexhausted hcf (by simpa using hbaseline) hwinner h
  have hsame := not_ne_iff.mp hhead
  rw [bind_ok_iff] at h
  obtain ⟨pairings, -, h⟩ := h
  split_ifs at h
  · rw [pure_ok_iff] at h
    rw [← h]
    exact ⟨set, rfl, .refl⟩
  · simp only [bind_ok_iff, Prod.exists, pure_ok_iff] at h
    obtain ⟨next, refused, hadmitted, rfl⟩ := h
    have hwin : resolveSet (set.chains ++ served) = .ok (.winner set.basis.chain.headDigest) := by
      rw [hb]
      rwa [hsame] at hres
    exact ⟨next, rfl, .head (.confirmAccepted hserved hwin) (admitNew_writes hexhausted hadmitted)⟩

/-- A classification leaves no set where there was none, or one it wrote. -/
theorem classify_written (hcf : CollisionFree C seen) {reads : List SourceRead}
    (hheld : ∀ set ∈ held, Reachable C seen identifier set)
    (hreads : ∀ read ∈ reads, preimagesOf read.units ⊆ seen)
    (h : classify C identifier held reads now = .ok r) :
    r.retention = held ∨ ∃ next, r.retention = some next ∧ Written C seen identifier held next := by
  obtain ⟨-, ⟨-, rfl⟩ | ⟨served, hserved, h⟩⟩ := classify_ok h
  · exact .inl rfl
  have hall := served_validIn hcf hreads hserved
  have hsub := served.exhausted_subset
  have hexhausted : ∀ c ∈ served.exhausted, ValidIn C seen identifier c :=
    fun c hc => hall c (hsub hc)
  -- Every chain the winner is taken from was validated from served units.
  have hranked : ∀ c ∈ held.elim [] RetentionSet.chains ++ served.all,
      ValidIn C seen identifier c := by
    intro c hc
    rcases List.mem_append.mp hc with hc | hc
    · cases held with
      | none => cases hc
      | some set => exact (hheld set rfl).validIn hcf c hc
    · exact hall c hc
  rcases classifyServed_cases h with ⟨cause, rfl⟩ | ⟨-, contest, h⟩ | h
  · exact .inl rfl
  · exact .inr (contested_written hranked hexhausted hcf h)
  · obtain ⟨-, head, winner, hres, -, hfind, h⟩ := h
    right
    have hwinner := hranked winner (List.mem_of_find?_eq_some hfind)
    obtain rfl : winner.headDigest = head := by simpa using List.find?_some hfind
    cases held with
    | none => exact adopted_written hexhausted hcf (by simp) hwinner h
    | some set =>
      cases hb : set.basis with
      | accepted baseline =>
        have hsome := baselineOf_accepted hb
        simp only [Option.bind_some, hsome] at h
        exact onBaseline_written hcf hb (fun c hc => hranked c (List.mem_append_left _ hc)) hall
          hsub hwinner hres h
      | contestedPrefix shared =>
        have hnone := baselineOf_contestedPrefix hb
        simp only [Option.bind_some, hnone] at h
        exact adopted_written hexhausted hcf (by simp) hwinner h

/-- The sets of a run are reachable. -/
theorem Classified.reachable (hcf : CollisionFree C seen) (h : Classified C seen identifier held) :
    ∀ set ∈ held, Reachable C seen identifier set := by
  induction h with
  | start => simp
  | @call _ held reads now r _ hreads hcall ih =>
    intro set hset
    rcases classify_written hcf ih hreads hcall with hsame | ⟨next, hnext, hwritten⟩
    · rw [hsame] at hset
      exact ih set hset
    · rw [Option.mem_def, hnext, Option.some.injEq] at hset
      subst hset
      cases held with
      | none =>
        obtain ⟨basis, hbasis, hwrites⟩ := hwritten
        exact (Reachable.withBounds .registered hbasis).writes hwrites
      | some set => exact (ih set rfl).writes hwritten

end Written

/-- `s'` comes after `s`: a chain it holds under a moment of `s` has every event of
the chain `s` held under that moment, in the same copies. -/
structure RetentionSet.Follows (s s' : RetentionSet) : Prop where
  next : s.nextObserved ≤ s'.nextObserved
  kept : ∀ t' ∈ s'.entries, t'.1 < s.nextObserved → ∃ t ∈ s.entries, t.1 = t'.1 ∧
    t.2.eventDigests <+: t'.2.eventDigests ∧ SameCopies t.2 t'.2

section Follows
variable {b : Book} {origin s s' : RetentionSet} {candidate : ValidatedChain}

/-- Copies that agree with a chain agree with what agrees with a longer one. -/
theorem SameCopies.through {c d e : ValidatedChain} (hcd : SameCopies c d) (hde : SameCopies d e)
    (hp : c.eventDigests <+: d.eventDigests) : SameCopies c e := by
  intro x hx z hz hxz
  have hmem : x.digest ∈ d.eventDigests := hp.subset (List.mem_map.mpr ⟨x, hx, rfl⟩)
  obtain ⟨y, hy, hyx⟩ := List.mem_map.mp hmem
  rw [hcd x hx y hy hyx.symm]
  exact hde y hy z hz (hyx.trans hxz)

theorem RetentionSet.Follows.trans {mid : RetentionSet} (h : s.Follows mid) (h' : mid.Follows s') :
    s.Follows s' := by
  refine ⟨h.next.trans h'.next, ?_⟩
  intro t' ht' hlt
  obtain ⟨u, hu, hmoment, hp, hcopies⟩ := h'.kept t' ht' (hlt.trans_le h.next)
  obtain ⟨t, ht, hmoment', hp', hcopies'⟩ := h.kept u hu (by omega)
  exact ⟨t, ht, hmoment'.trans hmoment, hp'.trans hp, hcopies'.through hcopies hp'⟩

theorem RetentionSet.Inv.follows_self (h : s.Inv b) : s.Follows s := by
  refine ⟨le_rfl, ?_⟩
  intro t ht _
  have hmem : t.2 ∈ s.chains := mem_chains_iff_entry.mpr ⟨t.1, ht⟩
  exact ⟨t, ht, rfl, List.prefix_rfl, h.copies _ hmem _ hmem⟩

/-- The tie prefix is no chain of a moment. -/
theorem RetentionSet.Inv.follows_retie (h : s.Inv b) (tie : Option ValidatedChain) :
    s.Follows { s with tiePrefix := tie } :=
  ⟨h.follows_self.next, h.follows_self.kept⟩

/-- A chain in held copies takes each unit from a held chain or from itself. -/
theorem heldCopies_event {f : ChainEvent} (hf : f ∈ (s.heldCopies candidate).events) :
    (∃ c ∈ s.chains, f ∈ c.events) ∨ f ∈ candidate.events := by
  obtain ⟨source, hsource, hcopy, -⟩ := heldCopies_source s candidate
  obtain ⟨i, hi⟩ := List.mem_iff_getElem?.mp hf
  rw [hcopy, ValidatedChain.extendedBy_getElem?] at hi
  split_ifs at hi
  · exact .inl ⟨source, hsource, List.mem_of_getElem? hi⟩
  · exact .inr (List.mem_of_getElem? hi)

/-- Every chain of `s` agrees in copies with the chains of `origin`. -/
def RetentionSet.Agrees (origin s : RetentionSet) : Prop :=
  ∀ d ∈ origin.chains, ∀ c ∈ s.chains, SameCopies d c

theorem RetentionSet.Agrees.heldCopies (h : origin.Agrees s)
    (hcandidate : ∀ d ∈ origin.chains, SameCopies d candidate) :
    ∀ d ∈ origin.chains, SameCopies d (s.heldCopies candidate) := by
  intro d hd e he f hf hef
  rcases heldCopies_event hf with ⟨c, hc, hfc⟩ | hfc
  · exact h d hd c hc e he f hfc hef
  · exact hcandidate d hd e he f hfc hef

section Places
variable {observed : Option ℕ} {admission : Admission}

theorem Places.agrees (h : Places b s candidate observed admission s') (hagrees : origin.Agrees s)
    (hcandidate : ∀ d ∈ origin.chains, SameCopies d (s.heldCopies candidate)) :
    origin.Agrees s' := by
  cases h with
  | held => exact hagrees
  | refused => exact hagrees
  | @entered rank fork extended evict next h =>
    intro d hd c hc
    simp only [RetentionSet.chains, List.map_append, List.map_cons, List.map_nil] at hc
    rw [← List.cons_append] at hc
    rcases List.mem_append.mp hc with hc | hc
    · have hold := (((staying_sublist s evict extended).map RetainedSuffix.chain).cons_cons
        s.basis.chain).subset hc
      exact hagrees d hd c hold
    · rw [List.mem_singleton.mp hc]
      exact hcandidate d hd

/-- A placement keeps the chain of every moment. A moment the caller brings was the
candidate's before. -/
theorem Places.follows (hinv : s.Inv b) (hc : OnBook b candidate)
    (h : Places b s candidate observed admission s') (hfollows : origin.Follows s)
    (hcaller : ∀ m ∈ observed, (m, candidate) ∈ origin.entries ∧
      SameCopies candidate (s.heldCopies candidate)) : origin.Follows s' := by
  refine ⟨hfollows.next.trans h.moments_subset.1, ?_⟩
  intro t' ht' hlt
  cases h with
  | held => exact hfollows.kept t' ht' hlt
  | refused => exact hfollows.kept t' ht' hlt
  | @entered rank fork extended evict next h =>
    rcases mem_entries.mp ht' with ⟨x, hx, rfl⟩ | hbasis
    · rcases List.mem_append.mp hx with hx | hx
      · have hstays := (staying_sublist s evict extended).subset hx
        exact hfollows.kept _ (mem_entries.mpr (.inl ⟨x, hstays, rfl⟩)) hlt
      · obtain rfl := List.mem_singleton.mp hx
        change (s.slotFor (s.heldCopies candidate) observed rank fork extended).observed <
          origin.nextObserved at hlt
        rcases h.moment_cases (s.heldCopies candidate) with
          ⟨i, x, hi, he, hm, -⟩ | ⟨-, hm, -⟩ | ⟨-, -, hm, -, -⟩
        · -- The candidate extends the suffix whose moment it takes.
          have hx := List.mem_of_getElem? hi
          have hentry : (x.observed, x.chain) ∈ s.entries := mem_entries.mpr (.inl ⟨x, hx, rfl⟩)
          have hext : x.chain.eventDigests <+: candidate.eventDigests := by
            rcases h.extends_ with ⟨hnone, -⟩ | ⟨j, y, hj, he', hp⟩
            · rw [hnone] at he
              cases he
            · rw [he, Option.some.injEq] at he'
              rw [he', hj, Option.some.injEq] at hi
              rwa [← hi]
          obtain ⟨t, ht, hmoment, hp, hcopies⟩ := hfollows.kept _ hentry (by rwa [hm] at hlt)
          refine ⟨t, ht, hmoment.trans hm.symm, ?_, ?_⟩
          · change t.2.eventDigests <+: (s.heldCopies candidate).eventDigests
            rw [heldCopies_eventDigests]
            exact hp.trans hext
          · have hmem : x.chain ∈ s.chains := mem_chains_iff_entry.mpr ⟨_, hentry⟩
            exact hcopies.through (heldCopies_sameCopies hinv.onBook hinv.copies hc hmem) hp
        · obtain ⟨hentry, hcopies⟩ := hcaller _ hm
          refine ⟨_, hentry, rfl, ?_, hcopies⟩
          change candidate.eventDigests <+: (s.heldCopies candidate).eventDigests
          rw [heldCopies_eventDigests]
        · -- A fresh moment is past every moment of the origin.
          have hnext := hfollows.next
          omega
    · exact hfollows.kept _ (mem_entries.mpr (.inr hbasis)) hlt

end Places

/-- Chains placed without a moment of their own keep the chain of every moment. -/
theorem placeAll_follows {candidates : List ValidatedChain} {report report' : Rerank}
    (hinv : s.Inv b) (hc : ∀ c ∈ candidates, OnBook b c)
    (h : RetentionSet.placeAll s report (candidates.map (fun chain => (none, chain))) =
      .ok (report', s')) : s.Follows s' := by
  have hon : ∀ t ∈ candidates.map (fun chain => ((none : Option ℕ), chain)), OnBook b t.2 := by
    intro t ht
    obtain ⟨c, hcm, rfl⟩ := List.mem_map.mp ht
    exact hc c hcm
  refine placeAll_keeps ?_ hinv hon (freshMoments_none s candidates) h hinv.follows_self
  intro mid mid' admission t ht hmid hp hfollows
  apply hp.follows hmid (hon t ht) hfollows
  obtain ⟨c, -, rfl⟩ := List.mem_map.mp ht
  simp

/-- A move leaves every event in its copy, and keeps the chain of every moment it keeps. -/
theorem moveTo_kept {basis : RetentionBasis} {tie : Option ValidatedChain} {report : Rerank}
    (hinv : s.Inv b) (hb : OnBook b basis.chain) (ht : ∀ p ∈ tie, OnBook b p)
    (hk : tie.isSome → basis.kind = .accepted) (h : s.moveTo basis tie = .ok (report, s')) :
    s.Agrees s' ∧ s.Follows s' := by
  obtain ⟨moment, next, hinit, hfresh, hplace, hnext, hm⟩ := moveTo_start hinv hb ht hk h
  have hentry : ∀ t ∈ s.entries.map (fun entry => (some entry.1, entry.2)), OnBook b t.2 := by
    intro t htm
    obtain ⟨u, hu, rfl⟩ := List.mem_map.mp htm
    exact hinv.onBook.chains _ (mem_chains_iff_entry.mpr ⟨u.1, hu⟩)
  have hcopy : ∀ d ∈ s.chains, SameCopies d (s.heldCopies basis.chain) :=
    fun d hd => heldCopies_sameCopies hinv.onBook hinv.copies hb hd
  have hagrees : s.Agrees (s.movedTo basis tie moment next) := by
    intro d hd c hc
    have hbasis : c = (basis.mapChain s.heldCopies).chain := List.mem_singleton.mp hc
    rw [hbasis, mapChain_chain]
    exact hcopy d hd
  have hfollows : s.Follows (s.movedTo basis tie moment next) := by
    refine ⟨hnext, ?_⟩
    intro t' ht' hlt
    have hbasis : t' = (moment, (basis.mapChain s.heldCopies).chain) := by
      simpa [mem_entries, RetentionSet.movedTo] using ht'
    rw [hbasis] at hlt ⊢
    rcases hm with ⟨hfresh, -⟩ | ⟨t, hte, he, hp, -⟩
    · rw [hfresh] at hlt
      exact absurd hlt (lt_irrefl _)
    · refine ⟨t, hte, he.symm, ?_, ?_⟩
      · rwa [mapChain_chain, heldCopies_eventDigests]
      · rw [mapChain_chain]
        exact hcopy _ (mem_chains_iff_entry.mpr ⟨t.1, hte⟩)
  -- The chains placed were held, so the copies agree all along.
  refine placeAll_keeps (motive := fun mid => s.Agrees mid ∧ s.Follows mid) ?_ hinit hentry
    hfresh hplace ⟨hagrees, hfollows⟩
  intro mid mid' admission t htm hmid hp hkept
  obtain ⟨hagrees, hfollows⟩ := hkept
  have hchain := hentry t htm
  obtain ⟨u, hu, rfl⟩ := List.mem_map.mp htm
  have hmem : u.2 ∈ s.chains := mem_chains_iff_entry.mpr ⟨u.1, hu⟩
  have hcandidate := hagrees.heldCopies (fun d hd => hinv.copies d hd _ hmem)
  refine ⟨hp.agrees hagrees hcandidate, hp.follows hmid hchain hfollows ?_⟩
  intro m hmu
  rw [Option.mem_some_iff] at hmu
  rw [← hmu]
  exact ⟨hu, hcandidate _ hmem⟩

theorem settleTiePrefix_follows (hinv : s.Inv b) (h : s.settleTiePrefix = .ok s') :
    s.Follows s' := by
  unfold RetentionSet.settleTiePrefix at h
  split at h
  · cases h
    exact hinv.follows_retie none
  · simp only [bind_ok_iff, pure_ok_iff] at h
    obtain ⟨tie, -, rfl⟩ := h
    exact hinv.follows_retie tie

end Follows

section Kept
variable {C : Crypto} {seen : Set Bytes} {identifier : Identifier} {s s' : RetentionSet}

/-- A write keeps the chain of every moment it keeps. -/
theorem Write.follows (hcf : CollisionFree C seen) (hs : Reachable C seen identifier s)
    (h : Write C seen identifier s s') : s.Follows s' := by
  have hinv := (hs.inv hcf).1
  cases h with
  | admits hc h =>
    have hchain := hc.onBook hcf
    unfold RetentionSet.admit_ at h
    split at h
    · cases h
    · rename_i placed hplace
      split at h
      · cases h
      · rename_i settled hsettle
        cases h
        have hp := place_cases hinv.onBook hchain hplace
        have hplaced := hp.inv hinv hchain (by simp)
        exact (hp.follows hinv hchain hinv.follows_self (by simp)).trans
          (settleTiePrefix_follows hplaced hsettle)
  | rerank hb h =>
    exact (moveTo_kept hinv (hb.onBook hcf) (by simp) (by simp) (rerank_moveTo h)).2
  | @afterContest _ tiePrefix candidates report ht hc h =>
    simp only [RetentionSet.afterContest, bind_ok_iff, mapError_ok_iff, pure_ok_iff, Prod.exists,
      Prod.mk.injEq] at h
    obtain ⟨report₁, moved, hmove, report₂, placed, hplace, settled, hsettle, -, rfl⟩ := h
    have hcandidates : ∀ c ∈ candidates, OnBook (bookOf C seen identifier) c :=
      fun c hcm => (hc c hcm).onBook hcf
    obtain ⟨target, tie, -, hb, htie, hk, hto⟩ := moveToTie_ok hinv.onBook (ht.onBook hcf) hmove
    -- The basis moves to the tie first, then the candidates are placed beside it.
    have hmovedInv := (moveTo_ok hinv hb htie hk hto).inv
    have hmoved := (moveTo_kept hinv hb htie hk hto).2
    have hplaced : placed.Inv (bookOf C seen identifier) := by
      refine (placeAll_ok hmovedInv ?_ (freshMoments_none moved candidates) hplace).inv
      intro t htm
      obtain ⟨c, hcm, rfl⟩ := List.mem_map.mp htm
      exact hcandidates c hcm
    exact (hmoved.trans (placeAll_follows hmovedInv hcandidates hplace)).trans
      (settleTiePrefix_follows hplaced hsettle)
  | confirmAccepted hc h => exact hinv.follows_retie none

theorem Writes.follows (hcf : CollisionFree C seen) (hs : Reachable C seen identifier s)
    (h : Writes C seen identifier s s') : s.Follows s' := by
  induction h with
  | refl => exact (hs.inv hcf).1.follows_self
  | tail hfirst hlast ih => exact ih.trans (hlast.follows hcf (hs.writes hfirst))

/-- From `s` to `s'` through `mids`, each set in the copies of the one before it. -/
inductive AdmissionRounds : RetentionSet → List RetentionSet → RetentionSet → Prop
  | done {s s' : RetentionSet} (hchains : s'.chains = s.chains) : AdmissionRounds s [] s'
  | round {s mid s' : RetentionSet} {mids : List RetentionSet} (hagrees : s.Agrees mid)
      (hrest : AdmissionRounds mid mids s') : AdmissionRounds s (mid :: mids) s'

theorem holds_iff {digest : Digest} : holds s digest = true ↔
    ∃ c ∈ s.chains, ∃ e ∈ c.events, e.digest = digest := by
  simp [holds]

/-- An event that every set on the way carries stays in its copy. -/
theorem AdmissionRounds.kept {mids : List RetentionSet} (h : AdmissionRounds s mids s')
    (hcopies : ∀ c ∈ s'.chains, ∀ d ∈ s'.chains, SameCopies c d) {c : ValidatedChain}
    {e : ChainEvent} (hc : c ∈ s.chains) (he : e ∈ c.events)
    (hcarried : ∀ mid ∈ mids, holds mid e.digest = true) :
    ∀ c' ∈ s'.chains, ∀ f ∈ c'.events, e.digest = f.digest → e.unit = f.unit := by
  induction h generalizing c e with
  | done hchains =>
    rw [← hchains] at hc
    exact fun c' hc' => hcopies c hc c' hc' e he
  | round hagrees hrest ih =>
    intro c' hc' f hf hef
    -- The next set carries the event in the same copy, and the rest keeps that.
    obtain ⟨d, hd, g, hg, hge⟩ := holds_iff.mp (hcarried _ List.mem_cons_self)
    rw [hagrees c hc d hd e he g hg hge.symm]
    refine ih hcopies hd hg ?_ c' hc' f hf (hge.trans hef)
    intro mid hmid
    rw [hge]
    exact hcarried mid (List.mem_cons_of_mem _ hmid)

/-- On the way, and every set on it has the basis of the last. -/
structure Through (s : RetentionSet) (mids : List RetentionSet) (s' : RetentionSet) : Prop where
  rounds : AdmissionRounds s mids s'
  basis : ∀ mid ∈ mids, mid.basis = s'.basis

theorem Through.cons {mid : RetentionSet} {mids : List RetentionSet} (h : Through mid mids s')
    (hagrees : s.Agrees mid) (hbasis : mid.basis = s'.basis) : Through s (mid :: mids) s' := by
  refine ⟨.round hagrees h.rounds, ?_⟩
  intro u hu
  rcases List.mem_cons.mp hu with rfl | hu
  · exact hbasis
  · exact h.basis u hu

section Ways
variable {b : Book} {candidate : ValidatedChain} {admission : Admission}

end Ways

section Exits
variable {Instant : Type} {now : Instant} {r : Classification Instant} {served : Served}
  (hcf : CollisionFree C seen) (hs : Reachable C seen identifier s)
  (hranked : ∀ c ∈ s.chains ++ served.all, ValidIn C seen identifier c)
  (hread : ∀ c ∈ served.exhausted, ValidIn C seen identifier c)
include hcf hs hranked hread

end Exits

end Kept

instance (c d : ValidatedChain) : Decidable (SameCopies c d) :=
  inferInstanceAs (Decidable (∀ e ∈ c.events, ∀ f ∈ d.events, e.digest = f.digest → e.unit = f.unit))

section Each
variable {Instant : Type}

/-- The set left by one call after another, each with what the one before it left. -/
def classifyEach (C : Crypto) (identifier : Identifier) :
    Option RetentionSet → List (List SourceRead × Instant) →
      Except ClassifyError (Option RetentionSet)
  | held, [] => .ok held
  | held, (reads, now) :: calls => do
    let r ← classify C identifier held reads now
    classifyEach C identifier r.retention calls

theorem Classified.each {C : Crypto} {seen : Set Bytes} {identifier : Identifier}
    {calls : List (List SourceRead × Instant)} {held last : Option RetentionSet}
    (hheld : Classified C seen identifier held)
    (hreads : ∀ call ∈ calls, ∀ read ∈ call.1, preimagesOf read.units ⊆ seen)
    (h : classifyEach C identifier held calls = .ok last) : Classified C seen identifier last := by
  induction calls generalizing held with
  | nil =>
    rw [classifyEach, Except.ok.injEq] at h
    rwa [← h]
  | cons call calls ih =>
    obtain ⟨reads, now⟩ := call
    simp only [classifyEach, bind_ok_iff] at h
    obtain ⟨r, hr, h⟩ := h
    exact ih (hheld.call (hreads (reads, now) List.mem_cons_self) hr)
      (fun call hc => hreads call (List.mem_cons_of_mem _ hc)) h

end Each

-- An accepted key state of the sample inception, seven rivals of it, and a key state
-- whose unit is served in two copies, with events after it.

/-- The sample recovery, after another event. -/
def sampleRecoveryAfter (before : EventPreimage) (root next : Key) : EventPreimage :=
  { sampleRecovery root next with
    sequence := before.sequence+1
    predecessorDigest := eventDigestOf sampleCrypto (fieldsOut before) }

/-- The unit of a preimage with its signatures filled by one byte. -/
def sampleCopy (p : EventPreimage) (signers : ℕ) (fill : UInt8) : Bytes :=
  let signed := signedPreimageOf (fieldsOut p)
  beBytes 4 signed.length ++ signed ++ List.replicate (64*signers) fill

def sampleShared : EventPreimage := sampleStateAfter sampleInception 500

def sampleFirstUnits : List Bytes :=
  [sampleUnit sampleInception 1, sampleCopy (sampleStateAfter sampleInception 301) 1 0]

def sampleRivals : List Bytes :=
  (List.range 7).map (fun i => sampleCopy (sampleStateAfter sampleInception (400+i)) 1 0)

def sampleRivalUnits : List Bytes := sampleUnit sampleInception 1 :: sampleRivals

/-- The shared event in one copy, and a key state after it. -/
def samplePlainUnits : List Bytes :=
  [sampleUnit sampleInception 1, sampleCopy sampleShared 1 0,
    sampleCopy (sampleStateAfter sampleShared 501) 1 0]

/-- The shared event in another copy, and two recoveries after it. -/
def sampleOtherUnits : List Bytes :=
  [sampleUnit sampleInception 1, sampleCopy sampleShared 1 1,
    sampleCopy (sampleRecoveryAfter sampleShared 6 7) 3 0,
    sampleCopy (sampleRecoveryAfter sampleShared 8 9) 3 0]

def sampleRecoveryUnits : List Bytes :=
  [sampleUnit sampleInception 1, sampleUnit (sampleRecovery 4 5) 3]

/-- A source read to its end, under an operator's key. -/
def sampleRead (key : Key) (units : List Bytes) (room : units.length ≤ vecMax) : SourceRead :=
  ⟨"source", units, .exhausted, .verified key, room⟩

def sampleFirstCall : List SourceRead × ℕ :=
  ([sampleRead 1 sampleFirstUnits (by decide), sampleRead 2 sampleFirstUnits (by decide)], 0)

/-- A call that serves the shared event in both its copies. -/
def sampleMixedCall : List SourceRead × ℕ :=
  ([sampleRead 1 samplePlainUnits (by decide), sampleRead 2 sampleOtherUnits (by decide)], 1)

/-- Calls that fill the set, the chain of the shared event last. -/
def sampleFillCalls : List (List SourceRead × ℕ) :=
  [sampleFirstCall, ([sampleRead 1 sampleRivalUnits (by decide)], 1),
    ([sampleRead 1 samplePlainUnits (by decide)], 2)]

/-- A call that serves a recovery, and then the shared event in its other copy. -/
def sampleEvictCall : List SourceRead × ℕ :=
  ([sampleRead 1 sampleRecoveryUnits (by decide),
    sampleRead 2 (sampleOtherUnits.take 3) (by decide)], 3)

/-- A first contact that leaves a tie, with the shared event in one of two suffixes. -/
def sampleTieCall : List SourceRead × ℕ :=
  ([sampleRead 1 (samplePlainUnits.take 2) (by decide),
    sampleRead 2 sampleFirstUnits (by decide)], 0)

/-- A call that serves the shared event in its other copy below the recovery that wins. -/
def sampleWinCall : List SourceRead × ℕ :=
  ([sampleRead 1 (sampleOtherUnits.take 3) (by decide),
    sampleRead 2 (sampleOtherUnits.take 3) (by decide)], 1)

def sampleCalls : List (List SourceRead × ℕ) :=
  sampleTieCall :: sampleWinCall :: sampleMixedCall :: sampleEvictCall :: sampleFillCalls

/-- A result that passes a test is a success. -/
theorem ok_of_toOption_any {ε α : Type} {x : Except ε α} {p : α → Bool}
    (h : x.toOption.any p = true) : ∃ a, x = .ok a ∧ p a = true := by
  cases x with
  | error e => cases h
  | ok a => exact ⟨a, rfl, h⟩

end ScpCore.Kel
