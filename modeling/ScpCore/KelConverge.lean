import ScpCore.KelOrderFree

/-! Resolutions converge. A run of classifications that reads every source to its
end and leaves nothing out keeps chains that cover all it was ever served, so it
ends where ranking everything at once would. -/

namespace ScpCore.Kel

section Covers
variable {b : Book} {s s' : RetentionSet}

/-- A held chain has every event of `c`, or beats it. -/
def Book.Covered (b : Book) (chains : List ValidatedChain) (c : ValidatedChain) : Prop :=
  ∃ d ∈ chains, b.branch c ≤ b.branch d

theorem Book.Covered.of_mem {chains : List ValidatedChain} {c : ValidatedChain} (h : c ∈ chains) :
    b.Covered chains c := ⟨c, h, le_rfl⟩

/-- Lists that cover each other's chains have the same top. -/
theorem sameTop_of_covered {cs ds : List ValidatedChain} (h : ∀ c ∈ cs, b.Covered ds c)
    (h' : ∀ d ∈ ds, b.Covered cs d) : SameTop (b.branches cs) (b.branches ds) := by
  constructor
  · intro x hx
    obtain ⟨c, hc, rfl⟩ := hx
    obtain ⟨d, hd, hle⟩ := h c hc
    exact ⟨_, Book.mem_branches hd, hle⟩
  · intro x hx
    obtain ⟨d, hd, rfl⟩ := hx
    obtain ⟨c, hc, hle⟩ := h' d hd
    exact ⟨_, Book.mem_branches hc, hle⟩

theorem branches_append (b : Book) (cs ds : List ValidatedChain) :
    b.branches (cs ++ ds) = b.branches cs ∪ b.branches ds := by
  ext x
  simp only [Book.branches, Set.mem_ofPred_eq, Set.mem_union, List.mem_append, or_and_right,
    exists_or]

theorem covered_of_holds (hs : ∀ c ∈ s.chains, OnBook b c) {c : ValidatedChain} (hc : OnBook b c)
    (h : holds s c.headDigest = true) : b.Covered s.chains c := by
  obtain ⟨d, hd, hany⟩ := List.any_eq_true.mp h
  obtain ⟨e, he, hdig⟩ := List.any_eq_true.mp hany
  rw [decide_eq_true_eq] at hdig
  have hmem : c.headDigest ∈ d.eventDigests := List.mem_map.mpr ⟨e, he, hdig⟩
  exact ⟨d, hd, Branch.le_of_prefix (hc.prefix_of_mem (hs d hd) hmem)⟩

/-- With no residue, every refused head is held after all. -/
theorem holds_of_residue {refused : List Digest} (h : residueOf refused s = 0) :
    ∀ head ∈ refused, holds s head = true := by
  intro head hhead
  have hlen : (refused.dedup.filter (fun head => !holds s head)).length = 0 := by
    unfold residueOf count at h
    omega
  rw [List.length_eq_zero_iff, List.filter_eq_nil_iff] at hlen
  simpa using hlen head (List.mem_dedup.mpr hhead)

/-- What admitting a list of chains leaves. -/
structure AdmitsNew (b : Book) (before : Option RetentionSet) (s : RetentionSet)
    (chains : List ValidatedChain) (refused : List Digest) (s' : RetentionSet)
    (refused' : List Digest) : Prop where
  inv : s'.Inv b
  grows : refused ⊆ refused'
  covers : ∀ c ∈ s.chains, b.Covered s'.chains c
  subset : b.branches s'.chains ⊆ b.branches (s.chains ++ chains)
  placed : ∀ c ∈ chains, (∃ set ∈ before, holds set c.headDigest = true) ∨
    b.Covered s'.chains c ∨ c.headDigest ∈ refused'

/-- One admission before the rest. -/
theorem AdmitsNew.cons {before : Option RetentionSet} {chain : ValidatedChain}
    {chains : List ValidatedChain} {refused refused₁ refused' : List Digest} {s₁ : RetentionSet}
    {admission : Admission} (hinv : s.Inv b) (hc : OnBook b chain)
    (hadmitted : s.admit_ chain = (.ok admission, s₁)) (hgrows : refused ⊆ refused₁)
    (hrefused : ∀ rank, admission = .refused rank → chain.headDigest ∈ refused₁)
    (hrest : AdmitsNew b before s₁ chains refused₁ s' refused') :
    AdmitsNew b before s (chain :: chains) refused s' refused' := by
  obtain ⟨placed, tie, hplaces, rfl, -, -⟩ := admit_ok hinv hc hadmitted
  -- What was held or entered by this placement stays covered to the end.
  have hcovers : ∀ c, b.Covered placed.chains c → b.Covered s'.chains c := by
    intro c hcovered
    obtain ⟨d, hd, hle⟩ := hcovered
    obtain ⟨d', hd', hle'⟩ := hrest.covers d hd
    exact ⟨d', hd', hle.trans hle'⟩
  have hstep : (∀ c ∈ s.chains, b.Covered placed.chains c) ∧
      (b.Covered placed.chains chain ∨ chain.headDigest ∈ refused₁) := by
    by_cases hcase : ∃ rank, admission = .refused rank
    · obtain ⟨rank, rfl⟩ := hcase
      rw [hplaces.eq_of_refused]
      exact ⟨fun c hcm => .of_mem hcm, .inr (hrefused rank rfl)⟩
    · have hall := hplaces.covers (fun rank he => hcase ⟨rank, he⟩)
      have hcovered : ∀ c ∈ s.chains ++ [chain], b.Covered placed.chains c := by
        intro c hcm
        obtain ⟨_, ⟨d, hd, rfl⟩, hle⟩ := hall (Book.mem_branches hcm)
        exact ⟨d, hd, hle⟩
      exact ⟨fun c hcm => hcovered c (List.mem_append_left _ hcm),
        .inl (hcovered chain (List.mem_append_right _ (List.mem_singleton_self _)))⟩
  refine ⟨hrest.inv, List.Subset.trans hgrows hrest.grows, fun c hcm => hcovers c (hstep.1 c hcm), ?_, ?_⟩
  · intro x hx
    have hx' := hrest.subset hx
    rw [branches_append] at hx' ⊢
    rcases hx' with hx' | hx'
    · have hsub := hplaces.branches_subset hx'
      rw [branches_append] at hsub
      refine hsub.imp_right ?_
      intro hone
      obtain ⟨c, hcm, rfl⟩ := hone
      rw [List.mem_singleton.mp hcm]
      exact Book.mem_branches List.mem_cons_self
    · right
      obtain ⟨c, hcm, rfl⟩ := hx'
      exact Book.mem_branches (List.mem_cons_of_mem _ hcm)
  · intro c hcm
    rcases List.mem_cons.mp hcm with rfl | hcm
    · right
      exact hstep.2.imp (hcovers c) (fun hr => hrest.grows hr)
    · exact hrest.placed c hcm

theorem admitNew_ok {before : Option RetentionSet} {chains : List ValidatedChain}
    {refused refused' : List Digest} (hinv : s.Inv b) (hc : ∀ c ∈ chains, OnBook b c)
    (h : admitNew before s chains refused = .ok (s', refused')) :
    AdmitsNew b before s chains refused s' refused' := by
  induction chains generalizing s refused with
  | nil =>
    rw [admitNew, Except.ok.injEq] at h
    obtain ⟨rfl, rfl⟩ := Prod.mk.inj h
    exact ⟨hinv, List.Subset.refl _, fun c hcm => .of_mem hcm, by simp, by simp⟩
  | cons chain chains ih =>
    have hchain := hc chain List.mem_cons_self
    have hc' : ∀ c ∈ chains, OnBook b c := fun c hcm => hc c (List.mem_cons_of_mem _ hcm)
    unfold admitNew at h
    split_ifs at h with hbefore
    · -- The set before held the chain, which is left where its basis moved it.
      have hrest := ih hinv hc' h
      refine ⟨hrest.inv, hrest.grows, hrest.covers, ?_, ?_⟩
      · intro x hx
        obtain ⟨d, hd, rfl⟩ := hrest.subset hx
        refine Book.mem_branches ?_
        rcases List.mem_append.mp hd with hd | hd
        · exact List.mem_append_left _ hd
        · exact List.mem_append_right _ (List.mem_cons_of_mem _ hd)
      · intro c hcm
        rcases List.mem_cons.mp hcm with rfl | hcm
        · obtain ⟨set, hset, hholds⟩ := Option.any_eq_true _ _ |>.mp hbefore
          exact .inl ⟨set, hset, hholds⟩
        · exact hrest.placed c hcm
    · split at h
      · cases h
      · rename_i rank _ hadmitted
        obtain ⟨_, _, -, -, hinv', -⟩ := admit_ok hinv hchain hadmitted
        exact AdmitsNew.cons hinv hchain hadmitted (List.subset_append_left _ _) (by simp)
          (ih hinv' hc' h)
      all_goals
        rename_i hadmitted
        obtain ⟨_, _, -, -, hinv', -⟩ := admit_ok hinv hchain hadmitted
        exact AdmitsNew.cons hinv hchain hadmitted (List.Subset.refl _) (by simp) (ih hinv' hc' h)

end Covers

section Keeps
variable {b : Book} {Instant : Type} {held : Option RetentionSet} {served : List ValidatedChain}
  {now : Instant} {r : Classification Instant}
  (hinv : ∀ set ∈ held, set.Inv b) (hon : ∀ c ∈ served, OnBook b c)

/-- The set an exit leaves, which holds what was held and served before it. -/
def Keeps (b : Book) (held : Option RetentionSet) (served : List ValidatedChain)
    (next : RetentionSet) : Prop :=
  next.Inv b ∧
    SameTop (b.branches next.chains) (b.branches (held.elim [] RetentionSet.chains ++ served))

omit hinv hon in
theorem ranked_onBook_of_inv (hinv : ∀ set ∈ held, set.Inv b) (hon : ∀ c ∈ served, OnBook b c) :
    ∀ c ∈ held.elim [] RetentionSet.chains ++ served, OnBook b c := by
  intro c hc
  rcases List.mem_append.mp hc with hc | hc
  · cases held with
    | none => cases hc
    | some set => exact (hinv set rfl).onBook.chains c hc
  · exact hon c hc

include hinv hon

/-- A set that covers what was held and served but for heads it holds after all, and
holds nothing else. -/
theorem keeps_of_placed {next : RetentionSet} {refused : List Digest} (hnext : next.Inv b)
    (hholds : ∀ head ∈ refused, holds next head = true)
    (hheld : ∀ c ∈ held.elim [] RetentionSet.chains,
      b.Covered next.chains c ∨ c.headDigest ∈ refused)
    (hserved : ∀ c ∈ served, (∃ set ∈ held, holds set c.headDigest = true) ∨
      b.Covered next.chains c ∨ c.headDigest ∈ refused)
    (hsource : ∀ c ∈ next.chains, b.Covered (held.elim [] RetentionSet.chains ++ served) c) :
    Keeps b held served next := by
  have hranked := ranked_onBook_of_inv hinv hon
  have hplaced : ∀ c, OnBook b c → b.Covered next.chains c ∨ c.headDigest ∈ refused →
      b.Covered next.chains c := by
    intro c hc hor
    rcases hor with hcovered | hrefused
    · exact hcovered
    · exact covered_of_holds hnext.onBook.chains hc (hholds _ hrefused)
  refine ⟨hnext, sameTop_of_covered hsource ?_⟩
  intro c hc
  rcases List.mem_append.mp hc with hc | hc
  · exact hplaced c (hranked c (List.mem_append_left _ hc)) (hheld c hc)
  · rcases hserved c hc with ⟨set, hset, hbefore⟩ | hor
    · -- A chain the set before held lies on one of its chains, which is kept.
      rw [Option.mem_def] at hset
      rw [hset] at hranked hheld
      have hset := fun d hd => hranked d (List.mem_append_left _ hd)
      obtain ⟨d, hd, hle⟩ := covered_of_holds hset (hon c hc) hbefore
      obtain ⟨d', hd', hle'⟩ := hplaced d (hset d hd) (hheld d hd)
      exact ⟨d', hd', hle.trans hle'⟩
    · exact hplaced c (hon c hc) hor

section Candidates
variable {shared : ValidatedChain} (hshared : OnBook b shared)
  (hleads : b.Covered (held.elim [] RetentionSet.chains ++ served) shared)
  {candidates : List ValidatedChain}
  (hfrom : candidates ⊆ held.elim [] RetentionSet.chains ++ served) (hall : served ⊆ candidates)
  {next : RetentionSet} {refused : List Digest}
  (h : contestedSet held shared candidates = .ok (next, refused))
  (hholds : ∀ head ∈ refused, holds next head = true)
include hshared hleads hfrom hall h hholds

/-- Entering a contest with the chains served, and others that were ranked. -/
theorem contestedSet_keeps : Keeps b held served next := by
  have hranked := ranked_onBook_of_inv hinv hon
  -- A first contest starts a set on the shared prefix, a later one moves the set there.
  cases held with
  | none =>
    have hnew : (RetentionSet.new (.contestedPrefix shared)).Inv b :=
      inv_of_no_suffix hshared (by simp) Nat.zero_lt_one (by decide) (by simp)
    have hadmits := admitNew_ok hnew (fun c hc => hranked c (hfrom hc)) h
    apply keeps_of_placed hinv hon hadmits.inv hholds (by simp)
      (fun c hc => hadmits.placed c (hall hc))
    · intro c hc
      obtain ⟨d, hd, he⟩ := hadmits.subset (Book.mem_branches hc)
      rw [Book.Covered, ← he]
      rcases List.mem_append.mp hd with hd | hd
      · have hdshared : d = shared := by simpa [RetentionSet.chains, RetentionSet.new,
          RetentionSet.withBounds, RetentionBasis.chain] using hd
        rw [hdshared]
        exact hleads
      · exact Book.Covered.of_mem (hfrom hd)
  | some set =>
    have hset := hinv set rfl
    obtain ⟨report, hcontest, rfl⟩ := contestedSet_some_ok h
    obtain ⟨target, tieGiven, report₁, moved, placed, tie, hcase, hmoves, hplaces, rfl, hinv', -⟩ :=
      afterContest_ok hset hshared (fun c hc => hranked c (hfrom (List.mem_of_mem_filter hc))) hcontest
    apply keeps_of_placed hinv hon hinv' hholds
    · intro c hc
      rcases hmoves.covers c hc with ⟨d, hd, hle⟩ | hrefused
      · obtain ⟨d', hd', hle'⟩ := hplaces.covers d hd
        exact .inl ⟨d', hd', hle.trans hle'⟩
      · exact .inr (hplaces.refused hrefused)
    · intro c hc
      by_cases hbefore : holds set c.headDigest = true
      · exact .inl ⟨set, rfl, hbefore⟩
      · have hcandidate : c ∈ candidates.filter (fun chain => !holds set chain.headDigest) :=
          List.mem_filter.mpr ⟨hall hc, by simpa using hbefore⟩
        exact .inr (hplaces.placed _ (List.mem_map.mpr ⟨c, hcandidate, rfl⟩))
    · intro c hc
      obtain ⟨d, hd, he⟩ := hplaces.subset (Book.mem_branches hc)
      rw [Book.Covered, ← he]
      rcases List.mem_append.mp hd with hd | hd
      · rcases hmoves.subset d hd with htarget | ⟨d', hd', he'⟩
        · rw [htarget]
          rcases hcase with ⟨-, rfl, -⟩ | ⟨-, rfl, -⟩
          · exact Book.Covered.of_mem (List.mem_append_left _ List.mem_cons_self)
          · exact hleads
        · exact ⟨d', List.mem_append_left _ hd', he'.ge⟩
      · obtain ⟨t, ht, rfl⟩ := List.mem_map.mp hd
        obtain ⟨d', hd', rfl⟩ := List.mem_map.mp ht
        exact Book.Covered.of_mem (hfrom (List.mem_of_mem_filter hd'))

end Candidates

/-- A tie keeps what was held and served beside its shared prefix. -/
theorem contested_keeps {contest : Contest}
    (h : contested held contest (held.elim [] RetentionSet.chains ++ served) served = .ok r)
    (hresidue : r.residue = 0) :
    r.verdict = .contested contest.tieClass contest.heads contest.sharedPrefixHead
        contest.forkPosition 0 ∧
      ∃ next, r.retention = some next ∧ Keeps b held served next := by
  have hranked := ranked_onBook_of_inv hinv hon
  unfold contested at h
  simp only [bind_ok_iff, Prod.exists, pure_ok_iff] at h
  obtain ⟨shared, hshared, next, refused, hnext, rfl⟩ := h
  dsimp only at hresidue
  refine ⟨by rw [hresidue], next, rfl, ?_⟩
  obtain ⟨hsharedOn, -, leads, hleads, hprefixed⟩ := prefixOf_ok hranked hshared
  refine contestedSet_keeps hinv hon hsharedOn ⟨leads, hleads, Branch.le_of_prefix hprefixed⟩ ?_
    (List.subset_append_right _ _) hnext (holds_of_residue hresidue)
  intro c hc
  rcases List.mem_append.mp hc with hc | hc
  · exact List.mem_of_mem_filter hc
  · exact List.mem_append_right _ hc

/-- Moving to the winner and admitting what was served. -/
theorem adopted_keeps {baseline : Option ValidatedChain} {winner : ValidatedChain}
    (hwinner : winner ∈ held.elim [] RetentionSet.chains ++ served)
    (hbase : ∀ c ∈ baseline, OnBook b c) (h : adopted held baseline winner served now = .ok r)
    (hresidue : r.residue = 0) :
    (∃ decreased, r.verdict = .adopted winner.headDigest decreased) ∧
      ∃ next chain, r.retention = some next ∧ next.basis = .accepted chain ∧
        chain.headDigest = winner.headDigest ∧ Keeps b held served next := by
  have hranked := ranked_onBook_of_inv hinv hon
  unfold adopted at h
  simp only [bind_ok_iff, Prod.exists, pure_ok_iff] at h
  obtain ⟨copied, hcopied, moved, refused₁, hmoved, next, refused, hadmitted, rfl⟩ := h
  dsimp only at hresidue
  have hholds := holds_of_residue hresidue
  -- The copy taken of the winner holds its events.
  have hcopiedOn : OnBook b copied ∧ copied.eventDigests = winner.eventDigests := by
    rcases baselineCopies_ok hcopied with rfl | ⟨c, hc, rfl⟩
    · exact ⟨hranked _ hwinner, rfl⟩
    · exact ⟨(hbase c hc).extendedBy (hranked _ hwinner), by simp⟩
  have hbranch : b.branch copied = b.branch winner := by rw [Book.branch, hcopiedOn.2, Book.branch]
  have hbasis := admitNew_basis hadmitted
  refine ⟨⟨_, rfl⟩, ?_⟩
  cases held with
  | none =>
    obtain ⟨rfl, rfl⟩ := Prod.mk.inj (Except.ok.inj hmoved)
    have hnew : (RetentionSet.new (.accepted copied)).Inv b :=
      inv_of_no_suffix hcopiedOn.1 (by simp) Nat.zero_lt_one (by decide) (by simp)
    have hadmits := admitNew_ok hnew hon hadmitted
    refine ⟨next, copied, rfl, hbasis, ValidatedChain.headDigest_eq_of_digests hcopiedOn.2, ?_⟩
    apply keeps_of_placed hinv hon hadmits.inv hholds (by simp) hadmits.placed
    · intro c hc
      obtain ⟨d, hd, he⟩ := hadmits.subset (Book.mem_branches hc)
      rw [Book.Covered, ← he]
      rcases List.mem_append.mp hd with hd | hd
      · have hdcopied : d = copied := by simpa [RetentionSet.chains, RetentionSet.new,
          RetentionSet.withBounds, RetentionBasis.chain] using hd
        rw [hdcopied, hbranch]
        exact Book.Covered.of_mem hwinner
      · exact Book.Covered.of_mem (List.mem_append_right _ hd)
  | some set =>
    have hset := hinv set rfl
    obtain ⟨report, hrerank, rfl⟩ := acceptedSet_some_ok hmoved
    have hmoves : Moves b set (.accepted copied) none report moved :=
      rerank_ok hset hcopiedOn.1 hrerank
    have hadmits := admitNew_ok hmoves.inv hon hadmitted
    have hhead : (set.heldCopies copied).headDigest = winner.headDigest := by
      apply ValidatedChain.headDigest_eq_of_digests
      rw [heldCopies_eventDigests, hcopiedOn.2]
    refine ⟨next, set.heldCopies copied, rfl, hbasis.trans hmoves.basis, hhead, ?_⟩
    apply keeps_of_placed hinv hon hadmits.inv hholds
    · intro c hc
      rcases hmoves.covers c hc with ⟨d, hd, hle⟩ | hrefused
      · obtain ⟨d', hd', hle'⟩ := hadmits.covers d hd
        exact .inl ⟨d', hd', hle.trans hle'⟩
      · exact .inr (hadmits.grows hrefused)
    · exact hadmits.placed
    · intro c hc
      obtain ⟨d, hd, he⟩ := hadmits.subset (Book.mem_branches hc)
      rw [Book.Covered, ← he]
      rcases List.mem_append.mp hd with hd | hd
      · rcases hmoves.subset d hd with htarget | ⟨d', hd', he'⟩
        · rw [htarget]
          change b.Covered _ copied
          rw [Book.Covered, hbranch]
          exact Book.Covered.of_mem hwinner
        · exact ⟨d', List.mem_append_left _ hd', he'.ge⟩
      · exact Book.Covered.of_mem (List.mem_append_right _ hd)

omit hinv in
/-- Against an accepted chain a winner keeps what was held and served: at its head
the set stays, and off it the set moves. -/
theorem onBaseline_keeps {set : RetentionSet} (hset : set.Inv b) {baseline winner : ValidatedChain}
    (hb : set.basis = .accepted baseline) (hwinner : winner ∈ set.chains ++ served)
    (hres : resolveSet (set.chains ++ served) = .ok (.winner winner.headDigest))
    (h : onBaseline set baseline winner served now = .ok r) (hresidue : r.residue = 0) :
    ∃ next chain, r.retention = some next ∧ next.basis = .accepted chain ∧
      chain.headDigest = winner.headDigest ∧ Keeps b (some set) served next := by
  have hinv : ∀ s ∈ some set, s.Inv b := by simpa using hset
  have hbaseline : OnBook b baseline := by
    have hon := hset.onBook.basis
    rwa [hb] at hon
  have hmem : baseline ∈ set.chains := by
    rw [RetentionSet.chains, hb]
    exact List.mem_cons_self
  unfold onBaseline at h
  -- Another chain wins, or the baseline does.
  split_ifs at h with hhead
  · obtain ⟨-, next, chain, hnext, hbasis, hchain, hkeeps⟩ :=
      adopted_keeps hinv hon hwinner (by simpa using hbaseline) h hresidue
    exact ⟨next, chain, hnext, hbasis, hchain, hkeeps⟩
  have hsame := not_ne_iff.mp hhead
  rw [bind_ok_iff] at h
  obtain ⟨pairings, hpairings, h⟩ := h
  split_ifs at h with hall
  · -- Every chain served is a prefix of the baseline, which is held.
    rw [pure_ok_iff] at h
    rw [← h]
    refine ⟨set, baseline, rfl, hb, hsame.symm, ?_⟩
    have hnone : ∀ head ∈ ([] : List Digest), holds set head = true := by simp
    apply keeps_of_placed hinv hon hset hnone
    · intro c hc
      exact .inl (.of_mem hc)
    · intro c hc
      right
      left
      obtain ⟨pairing, hpairing, hpair⟩ := mapEach_mem_left hpairings hc
      have hprefixed : pairing = .leftPrefixOfRight := by
        simpa using List.all_eq_true.mp hall pairing hpairing
      rw [mapError_ok_iff, (hon c hc).pairChains_eq hbaseline, Except.ok.injEq, hprefixed] at hpair
      refine ⟨baseline, hmem, Branch.le_of_prefix ?_⟩
      obtain ⟨h', -⟩ | ⟨-, h', -⟩ | ⟨h', -⟩ | ⟨h', -⟩ :=
        Book.pairing_cases b c.eventDigests baseline.eventDigests
      all_goals first | exact h' | (rw [hpair] at h'; cases h')
    · intro c hc
      exact .of_mem (List.mem_append_left _ hc)
  · simp only [bind_ok_iff, Prod.exists, pure_ok_iff] at h
    obtain ⟨next, refused, hadmitted, rfl⟩ := h
    have hwin : resolveSet (set.chains ++ served) = .ok (.winner set.basis.chain.headDigest) := by
      rw [hb]
      rwa [hsame] at hres
    have hadmits := admitNew_ok (confirmAccepted_ok hset hon hwin).1 hon hadmitted
    refine ⟨next, baseline, rfl, (admitNew_basis hadmitted).trans hb, hsame.symm, ?_⟩
    apply keeps_of_placed hinv hon hadmits.inv (holds_of_residue hresidue)
    · intro c hc
      exact .inl (hadmits.covers c hc)
    · exact hadmits.placed
    · intro c hc
      obtain ⟨d, hd, he⟩ := hadmits.subset (Book.mem_branches hc)
      exact ⟨d, hd, he.ge⟩

/-- A winner ends on an accepted basis with its events. -/
theorem onWinner_keeps {winner : ValidatedChain}
    (hwinner : winner ∈ held.elim [] RetentionSet.chains ++ served)
    (hres : resolveSet (held.elim [] RetentionSet.chains ++ served) =
      .ok (.winner winner.headDigest))
    (h : onWinner held winner served now = .ok r) (hresidue : r.residue = 0) :
    ∃ next chain, r.retention = some next ∧ next.basis = .accepted chain ∧
      chain.headDigest = winner.headDigest ∧ Keeps b held served next := by
  unfold onWinner at h
  cases held with
  | none => exact (adopted_keeps hinv hon hwinner (by simp) h hresidue).2
  | some set =>
    cases hb : set.basis with
    | accepted baseline =>
      have hsome := baselineOf_accepted hb
      simp only [Option.bind_some, hsome] at h
      exact onBaseline_keeps hon (hinv set rfl) hb hwinner hres h hresidue
    | contestedPrefix shared =>
      have hnone := baselineOf_contestedPrefix hb
      simp only [Option.bind_some, hnone] at h
      exact (adopted_keeps hinv hon hwinner (by simp) h hresidue).2

end Keeps

/-- The verdicts of the exits that place what was served. -/
def ResolutionVerdict.places : ResolutionVerdict → Bool
  | .confirmed | .adopted _ _ | .contested _ _ _ _ _ => true
  | .inconclusive _ | .invalid | .discarded _ => false

section Runs
variable (C : Crypto) (identifier : Identifier) {Instant : Type}

/-- Two verified operator keys sit over sources that served a chain. -/
def TwoOperators (reads : List SourceRead) : Prop :=
  ∃ k₁ k₂, k₁ ≠ k₂ ∧ ∀ k ∈ [k₁, k₂], ∃ read ∈ reads, read.proof = .verified k ∧ ∃ chains,
    Served.entryChains C identifier read.units = some chains ∧ chains ≠ []

/-- Classifications from no held set on, each with the set the one before it left,
over sources read to their end and with nothing refused. The last index is the last
verdict that placed what was served. -/
inductive Resolutions : List (List SourceRead × Instant) → Option RetentionSet →
    Option ResolutionVerdict → Prop
  | start : Resolutions [] none none
  | call {calls : List (List SourceRead × Instant)} {held : Option RetentionSet}
      {last : Option ResolutionVerdict} {reads : List SourceRead} {now : Instant}
      {r : Classification Instant} (before : Resolutions calls held last)
      (exhausted : ∀ read ∈ reads, read.exhaustion = .exhausted)
      (operators : held.bind baselineOf = none → TwoOperators C identifier reads)
      (classified : classify C identifier held reads now = .ok r)
      (valid : r.verdict ≠ .invalid) (residue : r.residue = 0) :
      Resolutions (calls ++ [(reads, now)]) r.retention
        (if r.verdict.places then some r.verdict else last)

/-- Every chain the sources of one call served. -/
def servedBy (reads : List SourceRead) : List ValidatedChain :=
  reads.flatMap (fun read => (Served.entryChains C identifier read.units).getD [])

/-- Every chain any source served in any call. -/
def servedIn (calls : List (List SourceRead × Instant)) : List ValidatedChain :=
  calls.flatMap (fun call => servedBy C identifier call.1)

variable {C identifier} {b : Book} {held : Option RetentionSet} {reads : List SourceRead}
  {served : Served} {now : Instant} {r : Classification Instant}

theorem served_all (h : Served.read C identifier reads = some served) :
    served.all = servedBy C identifier reads := by
  have hall := read_sources h
  unfold Served.all servedBy
  generalize served.sources = sources at hall
  clear h
  induction hall with
  | nil => rfl
  | cons hone _ ih => rw [List.flatMap_cons, List.flatMap_cons, ih, hone.2, Option.getD_some]

theorem forall₂_source {reads : List SourceRead} {sources : List (SourceRead × List ValidatedChain)}
    (h : List.Forall₂ (fun read t => t.1 = read ∧
      Served.entryChains C identifier read.units = some t.2) reads sources) {read : SourceRead}
    (hread : read ∈ reads) : ∃ t ∈ sources, t.1 = read ∧
      Served.entryChains C identifier read.units = some t.2 := by
  induction h with
  | nil => cases hread
  | cons hone _ ih =>
    rcases List.mem_cons.mp hread with rfl | hread
    · exact ⟨_, List.mem_cons_self, hone⟩
    · obtain ⟨t, ht, hsource⟩ := ih hread
      exact ⟨t, List.mem_cons_of_mem _ ht, hsource⟩

section Exhausted
variable (hread : Served.read C identifier reads = some served)
  (hexhausted : ∀ read ∈ reads, read.exhaustion = .exhausted)
include hread hexhausted

theorem exhausted_eq_all : served.exhausted = served.all ∧ served.stopped = false := by
  have hsource : ∀ t ∈ served.sources, t.1.exhaustion = .exhausted :=
    fun t ht => hexhausted t.1 (mem_sources hread t ht).1
  constructor
  · rw [Served.exhausted, Served.all, List.filter_eq_self.mpr]
    intro t ht
    simpa using hsource t ht
  · rw [Served.stopped, List.any_eq_false]
    intro t ht
    simp [hsource t ht]

/-- Two operators over sources with a chain pass the floor. -/
theorem floor_passed (hoperators : held.bind baselineOf = none → TwoOperators C identifier reads) :
    floorVerdict held served = none := by
  unfold floorVerdict
  split_ifs with hbase hempty
  · rfl
  · -- A source with a chain leaves something read to its end.
    obtain ⟨k₁, _, -, hkeys⟩ := hoperators (by simpa using hbase)
    obtain ⟨read, hmem, -, chains, hchains, hne⟩ := hkeys k₁ List.mem_cons_self
    obtain ⟨c, hc⟩ := List.exists_mem_of_ne_nil _ hne
    have hin : c ∈ served.exhausted := by
      rw [(exhausted_eq_all hread hexhausted).1, served_all hread]
      exact List.mem_flatMap.mpr ⟨read, hmem, by rwa [hchains]⟩
    rw [List.isEmpty_iff.mp hempty] at hin
    cases hin
  · obtain ⟨k₁, k₂, hne, hkeys⟩ := hoperators (by simpa using hbase)
    have hcounted : ∀ k ∈ [k₁, k₂], k ∈ ((served.sources.filter (fun t =>
        t.1.exhaustion = .exhausted ∧ t.2 ≠ [])).filterMap (operatorKey ·.1.proof)).dedup := by
      intro k hk
      obtain ⟨read, hmem, hproof, chains, hchains, hne⟩ := hkeys k hk
      obtain ⟨t, ht, heq, hchains'⟩ := forall₂_source (read_sources hread) hmem
      rw [hchains', Option.some.injEq] at hchains
      rw [List.mem_dedup, List.mem_filterMap]
      refine ⟨t, List.mem_filter.mpr ⟨ht, ?_⟩, ?_⟩
      · rw [heq, hchains]
        simpa using ⟨hexhausted read hmem, hne⟩
      · rw [heq, hproof]
        rfl
    have hlen : 2 ≤ ((served.sources.filter (fun t =>
        t.1.exhaustion = .exhausted ∧ t.2 ≠ [])).filterMap (operatorKey ·.1.proof)).dedup.length :=
      (List.subperm_of_subset (by simpa using hne) hcounted).length_le
    unfold Served.belowFloor
    dsimp only
    rw [if_pos hlen]
    rfl

/-- Past the floor, sources read to their end leave nothing undecided but an empty read. -/
theorem classifyServed_exhausted
    (hon : ∀ c ∈ held.elim [] RetentionSet.chains ++ served.all, OnBook b c)
    (hfloor : floorVerdict held served = none) (h : classifyServed held served now = .ok r) :
    (served.all = [] ∧ ∃ cause, r = unchanged held (.inconclusive cause)) ∨
    (∃ contest : Contest, resolveSet (held.elim [] RetentionSet.chains ++ served.all) =
        .ok (.tie contest.tieClass contest.heads contest.sharedPrefixHead contest.forkPosition) ∧
      contested held contest (held.elim [] RetentionSet.chains ++ served.all) served.all = .ok r) ∨
    ∃ winner, winner ∈ held.elim [] RetentionSet.chains ++ served.all ∧
      resolveSet (held.elim [] RetentionSet.chains ++ served.all) = .ok (.winner winner.headDigest) ∧
      onWinner held winner served.all now = .ok r := by
  obtain ⟨hall, hstopped⟩ := exhausted_eq_all hread hexhausted
  unfold classifyServed at h
  dsimp only at h
  simp only [hfloor, hall, bind_ok_iff, mapError_ok_iff] at h
  obtain ⟨resolution, hres, stop, hstop, h⟩ := h
  have hnostop : stop = none := by
    unfold earlyStop at hstop
    rw [hstopped, Bool.not_false, if_pos rfl, Except.ok.injEq] at hstop
    exact hstop.symm
  rw [hnostop] at h
  dsimp only at h
  split_ifs at h with hempty
  · rw [pure_ok_iff] at h
    exact .inl ⟨List.isEmpty_iff.mp hempty, _, h.symm⟩
  right
  -- A head that is decided is the head of a chain ranked, so it was read through.
  have hthrough : ∀ c ∈ held.elim [] RetentionSet.chains ++ served.all,
      readThrough (held.elim [] RetentionSet.chains ++ served.all) c.headDigest = true := by
    intro c hc
    obtain ⟨e, he, hdig⟩ := List.mem_map.mp c.headDigest_mem
    exact List.any_eq_true.mpr ⟨c, hc, List.any_eq_true.mpr ⟨e, he, by simpa using hdig⟩⟩
  cases resolution with
  | empty => cases h
  | tie tieClass heads sharedPrefixHead forkPosition =>
    left
    have hread : heads.all
        (readThrough (held.elim [] RetentionSet.chains ++ served.all)) = true := by
      rw [List.all_eq_true]
      intro head hhead
      obtain ⟨-, hheads, -⟩ := Book.tie_spec hon ((Book.resolveSet_eq_iff hon _).mp hres)
      obtain ⟨c, hc, rfl, -⟩ := hheads head hhead
      exact hthrough c hc
    dsimp only at h
    rw [if_pos hread] at h
    exact ⟨⟨tieClass, heads, sharedPrefixHead, forkPosition⟩, hres, h⟩
  | winner head =>
    right
    obtain ⟨winner, hfind, hmem, rfl⟩ := winner_found hon hres
    dsimp only at h
    rw [if_pos (hthrough winner hmem)] at h
    simp only [hfind, okOr, Option.elim_some, bind_ok_iff, Except.ok.injEq, exists_eq_left'] at h
    exact ⟨winner, hmem, hres, h⟩

end Exhausted

/-- Where a run stands: its set covers what was served, and it decided what that
calls for. -/
structure Converged (b : Book) (served : List ValidatedChain) (held : Option RetentionSet)
    (last : Option ResolutionVerdict) : Prop where
  inv : ∀ set ∈ held, set.Inv b
  onBook : ∀ c ∈ served, OnBook b c
  top : SameTop (b.branches (held.elim [] RetentionSet.chains)) (b.branches served)
  winner : ∀ head, resolveSet served = .ok (.winner head) →
    ∃ set chain, held = some set ∧ set.basis = .accepted chain ∧ chain.headDigest = head
  tie : ∀ tieClass heads sharedPrefixHead forkPosition,
    resolveSet served = .ok (.tie tieClass heads sharedPrefixHead forkPosition) →
      last = some (.contested tieClass heads sharedPrefixHead forkPosition 0)

theorem converged_start (b : Book) : Converged b [] none none where
  inv := by simp
  onBook := by simp
  top := SameTop.refl _
  winner := by
    intro head h
    cases h
  tie := by
    intro tieClass heads sharedPrefixHead forkPosition h
    cases h

/-- One call keeps the run converged. -/
theorem Converged.call {before : List ValidatedChain} {last : Option ResolutionVerdict}
    (hrun : Converged b before held last) (hread : Served.read C identifier reads = some served)
    (hon : ∀ c ∈ served.all, OnBook b c)
    (hexhausted : ∀ read ∈ reads, read.exhaustion = .exhausted)
    (hoperators : held.bind baselineOf = none → TwoOperators C identifier reads)
    (h : classifyServed held served now = .ok r) (hresidue : r.residue = 0) :
    Converged b (before ++ served.all) r.retention
      (if r.verdict.places then some r.verdict else last) := by
  have hranked := ranked_onBook_of_inv hrun.inv hon
  have hservedOn : ∀ c ∈ before ++ served.all, OnBook b c := by
    intro c hc
    rcases List.mem_append.mp hc with hc | hc
    · exact hrun.onBook c hc
    · exact hon c hc
  -- The set stands for everything served before, so both lists rank alike.
  have htop : SameTop (b.branches (held.elim [] RetentionSet.chains ++ served.all))
      (b.branches (before ++ served.all)) := by
    rw [branches_append, branches_append]
    exact hrun.top.union (SameTop.refl _)
  have hsame := Book.resolveSet_congr hranked hservedOn htop
  have hkept : ∀ {next}, Keeps b held served.all next →
      (∀ set ∈ some next, set.Inv b) ∧ SameTop (b.branches ((some next).elim [] RetentionSet.chains))
        (b.branches (before ++ served.all)) := by
    intro next hkeeps
    exact ⟨by simpa using hkeeps.1, hkeeps.2.trans htop⟩
  have hfloor := floor_passed hread hexhausted hoperators
  rcases classifyServed_exhausted hread hexhausted hranked hfloor h with
    ⟨hempty, cause, rfl⟩ | ⟨contest, hres, hcontested⟩ | ⟨winner, hmem, hres, hexit⟩
  · rw [hempty, List.append_nil]
    exact hrun
  · obtain ⟨hverdict, next, hnext, hkeeps⟩ :=
      contested_keeps hrun.inv hon hcontested hresidue
    obtain ⟨hinv, hnextTop⟩ := hkept hkeeps
    rw [hsame] at hres
    rw [hnext]
    refine ⟨hinv, hservedOn, hnextTop, ?_, ?_⟩
    · intro head hwinner
      rw [hwinner] at hres
      cases hres
    · intro tieClass heads sharedPrefixHead forkPosition htie
      rw [htie] at hres
      cases hres
      simp [hverdict, ResolutionVerdict.places]
  · obtain ⟨next, chain, hnext, hbasis, hhead, hkeeps⟩ :=
      onWinner_keeps hrun.inv hon hmem hres hexit hresidue
    obtain ⟨hinv, hnextTop⟩ := hkept hkeeps
    rw [hsame] at hres
    rw [hnext]
    refine ⟨hinv, hservedOn, hnextTop, ?_, ?_⟩
    · intro head hwinner
      rw [hwinner] at hres
      cases hres
      exact ⟨next, chain, rfl, hbasis, hhead⟩
    · intro tieClass heads sharedPrefixHead forkPosition htie
      rw [htie] at hres
      cases hres

theorem Resolutions.converged {seen : Set Bytes} (hcf : CollisionFree C seen)
    {calls : List (List SourceRead × Instant)} {last : Option ResolutionVerdict}
    (h : Resolutions C identifier calls held last)
    (hreads : ∀ call ∈ calls, ∀ read ∈ call.1, preimagesOf read.units ⊆ seen) :
    Converged (bookOf C seen identifier) (servedIn C identifier calls) held last := by
  induction h with
  | start => exact converged_start _
  | @call calls held last reads now r _ exhausted operators classified valid residue ih =>
    have hrun := ih (fun call hc => hreads call (List.mem_append_left _ hc))
    have hthese : ∀ read ∈ reads, preimagesOf read.units ⊆ seen :=
      hreads (reads, now) (List.mem_append_right _ (List.mem_singleton_self _))
    obtain ⟨-, ⟨-, rfl⟩ | ⟨served, hread, hbody⟩⟩ := classify_ok classified
    · exact absurd rfl valid
    have hon : ∀ c ∈ served.all, OnBook (bookOf C seen identifier) c :=
      fun c hc => (served_validIn hcf hthese hread c hc).onBook hcf
    have hcall := hrun.call hread hon exhausted operators hbody residue
    rw [served_all hread] at hcall
    simpa [servedIn] using hcall

/-- Resolutions converge: a run that reads every source to its end and refuses
nothing ends where ranking every chain it was served decides. Runs that were served
the same events end alike, however these were divided among calls and sources. -/
theorem resolutions_converge {seen : Set Bytes} (hcf : CollisionFree C seen)
    {calls : List (List SourceRead × Instant)} {last : Option ResolutionVerdict}
    (h : Resolutions C identifier calls held last)
    (hreads : ∀ call ∈ calls, ∀ read ∈ call.1, preimagesOf read.units ⊆ seen) :
    (∀ head, resolveSet (servedIn C identifier calls) = .ok (.winner head) →
      ∃ set chain, held = some set ∧ set.basis = .accepted chain ∧ chain.headDigest = head) ∧
    (∀ tieClass heads sharedPrefixHead forkPosition,
      resolveSet (servedIn C identifier calls) =
          .ok (.tie tieClass heads sharedPrefixHead forkPosition) →
        last = some (.contested tieClass heads sharedPrefixHead forkPosition 0)) ∧
    (servedIn C identifier calls = [] ∨ ∃ r, resolveSet (servedIn C identifier calls) = .ok r ∧
      r ≠ .empty) ∧
    ∀ (calls' : List (List SourceRead × Instant)) held' last',
      Resolutions C identifier calls' held' last' →
      (∀ call ∈ calls', ∀ read ∈ call.1, preimagesOf read.units ⊆ seen) →
      eventsOf (servedIn C identifier calls) = eventsOf (servedIn C identifier calls') →
      (∃ set set' chain chain', held = some set ∧ held' = some set' ∧
        set.basis = .accepted chain ∧ set'.basis = .accepted chain' ∧
        chain.headDigest = chain'.headDigest) ∨
      (∃ tieClass heads sharedPrefixHead forkPosition,
        last = some (.contested tieClass heads sharedPrefixHead forkPosition 0) ∧ last' = last) ∨
      servedIn C identifier calls = [] ∧ servedIn C identifier calls' = [] := by
  have hend := h.converged hcf hreads
  obtain ⟨r, hr, hresolves⟩ := Book.resolveSet_ok hend.onBook
  have hdecided : servedIn C identifier calls = [] ∨ r ≠ .empty := by
    by_cases hempty : servedIn C identifier calls = []
    · exact .inl hempty
    · right
      intro hr
      rw [hr] at hresolves
      obtain ⟨c, hc⟩ := List.exists_mem_of_ne_nil _ hempty
      have hin : (bookOf C seen identifier).branch c ∈
          (bookOf C seen identifier).branches (servedIn C identifier calls) := Book.mem_branches hc
      rw [hresolves] at hin
      exact hin
  refine ⟨hend.winner, hend.tie, hdecided.imp_right (fun hne => ⟨r, hr, hne⟩), ?_⟩
  intro calls' held' last' h' hreads' hevents
  have hend' := h'.converged hcf hreads'
  -- The same events make the same branches, and these decide the resolution.
  have hr' : resolveSet (servedIn C identifier calls') = .ok r := by
    rw [Book.resolveSet_eq_iff hend'.onBook, ← branches_eq hevents]
    exact hresolves
  cases r with
  | winner head =>
    obtain ⟨set, chain, hset, hbasis, hhead⟩ := hend.winner head hr
    obtain ⟨set', chain', hset', hbasis', hhead'⟩ := hend'.winner head hr'
    exact .inl ⟨set, set', chain, chain', hset, hset', hbasis, hbasis', hhead.trans hhead'.symm⟩
  | tie tieClass heads sharedPrefixHead forkPosition =>
    have hlast := hend.tie _ _ _ _ hr
    have hlast' := hend'.tie _ _ _ _ hr'
    exact .inr (.inl ⟨_, _, _, _, hlast, hlast'.trans hlast.symm⟩)
  | empty =>
    have hnil := hdecided.resolve_right (fun hne => hne rfl)
    refine .inr (.inr ⟨hnil, ?_⟩)
    rw [← eventsOf_eq_empty_iff, ← hevents, eventsOf_eq_empty_iff]
    exact hnil

end Runs

-- Two operators serve one sample recovery at a first contact, and its rival in the next call;
-- another party is served both at once.

def sampleRivalSource : SourceRead :=
  { sampleSource with
    units := [sampleUnit (sampleRecovery 6 7) 3, sampleUnit sampleInception 1]
    room := by decide }

def operatorsOf (source : SourceRead) : List SourceRead :=
  [{ source with name := "first", proof := .verified 1 },
    { source with name := "second", proof := .verified 2 }]

def contactCalls : List (List SourceRead × ℕ) :=
  [(operatorsOf sampleSource, 0), ([sampleRivalSource], 1)]

def jointCalls : List (List SourceRead × ℕ) :=
  [(operatorsOf sampleSource ++ [sampleRivalSource], 0)]

def sampleContact : Classification ℕ :=
  okGet (classify sampleCrypto sampleIdentifier none (operatorsOf sampleSource) 0) (by decide +kernel)

def sampleContest : Classification ℕ :=
  okGet (classify sampleCrypto sampleIdentifier sampleContact.retention [sampleRivalSource] 1)
    (by decide +kernel)

def jointContest : Classification ℕ :=
  okGet (classify sampleCrypto sampleIdentifier none
    (operatorsOf sampleSource ++ [sampleRivalSource]) 0) (by decide +kernel)

theorem operatorsOf_units {read : SourceRead} (h : read ∈ operatorsOf sampleSource) :
    read.exhaustion = .exhausted ∧ read.units = sampleSource.units := by
  rcases List.mem_cons.mp h with rfl | h
  · exact ⟨rfl, rfl⟩
  · rw [List.mem_singleton.mp h]
    exact ⟨rfl, rfl⟩

theorem operatorsOf_two {reads : List SourceRead} (h : operatorsOf sampleSource ⊆ reads) :
    TwoOperators sampleCrypto sampleIdentifier reads := by
  have hsome : (Served.entryChains sampleCrypto sampleIdentifier sampleSource.units).map
      (·.isEmpty) = some false := by
    decide +kernel
  obtain ⟨chains, hchains, hempty⟩ := Option.map_eq_some_iff.mp hsome
  have hserved : ∃ chains, Served.entryChains sampleCrypto sampleIdentifier sampleSource.units =
      some chains ∧ chains ≠ [] := ⟨chains, hchains, List.isEmpty_eq_false_iff.mp hempty⟩
  refine ⟨1, 2, by decide +kernel, ?_⟩
  intro k hk
  rcases List.mem_cons.mp hk with rfl | hk
  · exact ⟨_, h List.mem_cons_self, rfl, hserved⟩
  · rw [List.mem_singleton.mp hk]
    exact ⟨_, h (List.mem_cons_of_mem _ List.mem_cons_self), rfl, hserved⟩

theorem contactCalls_run : Resolutions sampleCrypto sampleIdentifier contactCalls
    sampleContest.retention (some sampleContest.verdict) := by
  have hcontact : classify sampleCrypto sampleIdentifier none (operatorsOf sampleSource) 0 =
      .ok sampleContact := eq_okGet _ _
  have hcontest : classify sampleCrypto sampleIdentifier sampleContact.retention
      [sampleRivalSource] 1 = .ok sampleContest := eq_okGet _ _
  have hfacts : (sampleContact.verdict ≠ .invalid ∧ sampleContact.residue = 0 ∧
      sampleContact.retention.bind baselineOf ≠ none) ∧
      sampleContest.verdict ≠ .invalid ∧ sampleContest.residue = 0 ∧
      sampleContest.verdict.places = true := by
    decide +kernel
  obtain ⟨⟨hvalid, hresidue, hbaseline⟩, hvalid', hresidue', hplaces⟩ := hfacts
  have hone := Resolutions.call .start (fun read h => (operatorsOf_units h).1)
    (fun _ => operatorsOf_two (List.Subset.refl _)) hcontact hvalid hresidue
  have htwo := Resolutions.call hone (by simp [sampleRivalSource, sampleSource])
    (fun hnone => absurd hnone hbaseline) hcontest hvalid' hresidue'
  rwa [hplaces, if_pos rfl] at htwo

/-- The party that was served both at once accepts neither. -/
theorem jointContest_contested : jointContest.verdict ≠ .invalid ∧ jointContest.residue = 0 ∧
    jointContest.verdict.places = true ∧
    jointContest.retention.map (·.basis.kind) = some .contestedPrefix := by
  decide +kernel

theorem jointCalls_run : Resolutions sampleCrypto sampleIdentifier jointCalls
    jointContest.retention (some jointContest.verdict) := by
  have hcontest : classify sampleCrypto sampleIdentifier none
      (operatorsOf sampleSource ++ [sampleRivalSource]) 0 = .ok jointContest := eq_okGet _ _
  obtain ⟨hvalid, hresidue, hplaces, -⟩ := jointContest_contested
  have hexhausted : ∀ read ∈ operatorsOf sampleSource ++ [sampleRivalSource],
      read.exhaustion = .exhausted := by
    intro read hread
    rcases List.mem_append.mp hread with h | h
    · exact (operatorsOf_units h).1
    · rw [List.mem_singleton.mp h]
      rfl
  have hone := Resolutions.call .start hexhausted
    (fun _ => operatorsOf_two (List.subset_append_left _ _)) hcontest hvalid hresidue
  rwa [hplaces, if_pos rfl] at hone

theorem sampleRivalSource_seen : preimagesOf sampleRivalSource.units ⊆ sampleSeen := by
  have hmem : ∀ signed ∈ (sampleRivalSource.units.filterMap servedFields).map signedPreimageOf,
      signed ∈ samplePreimages := by
    decide +kernel
  intro signed hsigned
  rw [mem_preimagesOf] at hsigned
  exact hmem signed hsigned

theorem sampleReads_seen {read : SourceRead}
    (h : read ∈ operatorsOf sampleSource ++ [sampleRivalSource]) :
    preimagesOf read.units ⊆ sampleSeen := by
  rcases List.mem_append.mp h with h | h
  · rw [(operatorsOf_units h).2]
    exact sampleSource_seen sampleSource (List.mem_singleton_self _)
  · rw [List.mem_singleton.mp h]
    exact sampleRivalSource_seen

theorem contactCalls_seen : ∀ call ∈ contactCalls ++ jointCalls, ∀ read ∈ call.1,
    preimagesOf read.units ⊆ sampleSeen := by
  intro call hcall read hread
  simp only [contactCalls, jointCalls, List.mem_append, List.mem_cons, List.not_mem_nil,
    or_false] at hcall
  apply sampleReads_seen
  rcases hcall with (rfl | rfl) | rfl
  · exact List.mem_append_left _ hread
  · exact List.mem_append_right _ hread
  · exact hread

theorem contactCalls_served : servedIn sampleCrypto sampleIdentifier contactCalls =
    servedIn sampleCrypto sampleIdentifier jointCalls := by
  simp [servedIn, servedBy, contactCalls, jointCalls]

/-- Both parties end in the tie of the two recoveries. -/
theorem resolutions_converge_sample :
    sampleContest.verdict = .contested .rank1Terminal
      [sampleRecovered.event.digest, sampleRival.event.digest] sampleAccepted.event.digest 1 0 ∧
    jointContest.verdict = sampleContest.verdict := by
  obtain ⟨-, htie, -, hother⟩ := resolutions_converge sample_collisionFree contactCalls_run
    (fun call hcall => contactCalls_seen call (List.mem_append_left _ hcall))
  have hresolved : resolveSet (servedIn sampleCrypto sampleIdentifier contactCalls) =
      .ok (.tie .rank1Terminal [sampleRecovered.event.digest, sampleRival.event.digest]
        sampleAccepted.event.digest 1) := by
    decide +kernel
  refine ⟨Option.some.inj (htie _ _ _ _ hresolved), ?_⟩
  rcases hother jointCalls _ _ jointCalls_run
    (fun call hcall => contactCalls_seen call (List.mem_append_right _ hcall))
    (congrArg eventsOf contactCalls_served) with
    ⟨-, set, -, chain, -, hset, -, hbasis, -⟩ | ⟨_, _, _, _, -, hlast⟩ | ⟨hnil, -⟩
  · obtain ⟨-, -, -, hkind⟩ := jointContest_contested
    rw [hset, Option.map_some, hbasis] at hkind
    cases hkind
  · exact Option.some.inj hlast
  · rw [hnil] at hresolved
    cases hresolved

end ScpCore.Kel
