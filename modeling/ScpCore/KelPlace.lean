import ScpCore.KelResolve
import ScpCore.KelCopies
import ScpCore.KelPlanner

/-! What placing one chain in a retention set can do. Over chains on one book a
placement finds the candidate held already, refuses it, or enters it; an entered
candidate leaves every chain of the set, and itself, covered by what stays. -/

namespace ScpCore.Kel

/-- Every chain of the set, its tie prefix included, lies on the book. -/
structure RetentionSet.OnBook (b : Book) (s : RetentionSet) : Prop where
  basis : Kel.OnBook b s.basis.chain
  suffixes : ∀ x ∈ s.suffixes, Kel.OnBook b x.chain
  tiePrefix : ∀ p ∈ s.tiePrefix, Kel.OnBook b p

namespace RetentionSet.OnBook
variable {b : Book} {s : RetentionSet}

theorem chains (h : s.OnBook b) : ∀ c ∈ s.chains, Kel.OnBook b c := by
  intro c hc
  rcases List.mem_cons.mp hc with rfl | hc
  · exact h.basis
  · obtain ⟨x, hx, rfl⟩ := List.mem_map.mp hc
    exact h.suffixes x hx

end RetentionSet.OnBook

namespace Book
variable (b : Book)

/-- The rank of a digest list against a tie prefix. -/
def rankAgainst (x tie : List Digest) : ForkRank :=
  if x <+: tie then .rank3 else firstLabel b.label (x.drop (sharedLen x tie))

/-- Where a digest list falls against a basis: its rank and fork position. -/
def placement (basis : RetentionBasis) (tie : Option ValidatedChain) (x : List Digest) :
    Except RetentionError (Option (ForkRank × ℕ)) :=
  let fork := sharedLen x basis.chain.eventDigests
  if x <+: basis.chain.eventDigests then .ok none
  else if basis.kind = .accepted ∧ basis.chain.eventDigests <+: x then
    tie.elim (.error (.extendsAccepted basis.chain.headDigest))
      (fun tie => .ok (some (b.rankAgainst x tie.eventDigests, fork)))
  else .ok (some (firstLabel b.label (x.drop fork), fork))

end Book

section Ranks
variable {b : Book} {s : RetentionSet} {candidate : ValidatedChain}

theorem rankAgainst_eq {tie : ValidatedChain} (hc : OnBook b candidate) (ht : OnBook b tie) :
    rankAgainst candidate tie = .ok (b.rankAgainst candidate.eventDigests tie.eventDigests) := by
  unfold rankAgainst Book.rankAgainst
  rw [hc.pairChains_eq ht]
  obtain ⟨hpair, he⟩ | ⟨hpair, hp, _⟩ | ⟨hpair, hp, hne⟩ | ⟨hpair, h₁, h₂⟩ :=
    Book.pairing_cases b candidate.eventDigests tie.eventDigests <;> rw [hpair]
  · rw [if_pos (by rw [he])]
    rfl
  · rw [if_pos hp]
    rfl
  · have hn : ¬ candidate.eventDigests <+: tie.eventDigests := fun h =>
      hne (h.eq_of_length (h.length_le.antisymm hp.length_le))
    have hlen := (sharedLen_eq_length_iff tie.eventDigests candidate.eventDigests).mpr hp
    rw [if_neg hn, sharedLen_comm, hlen, ValidatedChain.length_eventDigests]
    exact congrArg Except.ok (hc.rankPast_eq tie.len)
  · rw [if_neg h₁]
    rfl

theorem chainBeats_eq {d : ValidatedChain} (hc : OnBook b candidate) (hd : OnBook b d) :
    ∃ beaten, chainBeats candidate d = .ok beaten ∧
      (beaten = true ↔ Beats b.label candidate.eventDigests d.eventDigests) := by
  unfold chainBeats
  rw [hc.pairChains_eq hd]
  refine ⟨_, rfl, ?_⟩
  simp only [Option.any_eq_true, Book.pairing_divergence_iff, ForkRank.beats_iff, Beats]
  constructor
  · intro h
    obtain ⟨_, ⟨h₁, h₂, rfl⟩, hlt⟩ := h
    exact ⟨h₁, h₂, hlt⟩
  · intro h
    exact ⟨_, ⟨h.1, h.2.1, rfl⟩, h.2.2⟩

/-- A head sequence plus one is the length of the chain. -/
theorem OnBook.saturatingAdd_headSequence {c : ValidatedChain} (hc : OnBook b c) :
    saturatingAdd c.headSequence 1 = c.len := by
  have hroom := hc.room
  have hpos := c.len_pos
  rw [saturatingAdd, hc.headSequence_eq]
  omega

theorem rankPlacement_eq (hs : s.OnBook b) (hc : OnBook b candidate) :
    s.rankPlacement candidate = b.placement s.basis s.tiePrefix candidate.eventDigests := by
  unfold RetentionSet.rankPlacement Book.placement
  rw [hc.pairChains_eq hs.basis]
  obtain ⟨hpair, he⟩ | ⟨hpair, hp, _⟩ | ⟨hpair, hp, hne⟩ | ⟨hpair, h₁, h₂⟩ :=
    Book.pairing_cases b candidate.eventDigests s.basis.chain.eventDigests <;> rw [hpair]
  · rw [if_pos (by rw [he])]
    rfl
  · rw [if_pos hp]
    rfl
  · have hn : ¬ candidate.eventDigests <+: s.basis.chain.eventDigests := fun h =>
      hne (h.eq_of_length (h.length_le.antisymm hp.length_le))
    have hlen : sharedLen candidate.eventDigests s.basis.chain.eventDigests = s.basis.chain.len := by
      rw [sharedLen_comm, (sharedLen_eq_length_iff _ _).mpr hp, ValidatedChain.length_eventDigests]
    have hsat := hs.basis.saturatingAdd_headSequence
    rw [if_neg hn, hlen]
    cases hbasis : s.basis with
    | accepted accepted =>
      rw [hbasis] at hp hsat
      rw [if_pos ⟨rfl, hp⟩]
      cases htie : s.tiePrefix with
      | none => rfl
      | some tie =>
        have hrank := rankAgainst_eq hc (hs.tiePrefix tie htie)
        simp only [Except.mapError, hrank]
        exact congrArg (fun fork => Except.ok (some (_, fork))) hsat
    | contestedPrefix contested =>
      rw [hbasis] at hsat
      rw [if_neg (fun h => by cases h.1)]
      have hrank := hc.rankPast_eq contested.len
      exact congrArg₂ (fun rank fork => Except.ok (some (rank, fork))) hrank hsat
  · rw [if_neg h₁, if_neg (fun h => h₂ h.2)]
    rfl

theorem placement_ok {basis : RetentionBasis} {tie : Option ValidatedChain} {x : List Digest}
    {found : Option (ForkRank × ℕ)} (h : b.placement basis tie x = .ok found) :
    (found = none ∧ x <+: basis.chain.eventDigests) ∨
      ∃ rank, found = some (rank, sharedLen x basis.chain.eventDigests) ∧
        ¬ x <+: basis.chain.eventDigests ∧
        (basis.kind = .accepted → basis.chain.eventDigests <+: x → tie.isSome) := by
  unfold Book.placement at h
  by_cases hp : x <+: basis.chain.eventDigests
  · rw [if_pos hp, Except.ok.injEq] at h
    exact Or.inl ⟨h.symm, hp⟩
  · rw [if_neg hp] at h
    by_cases hk : basis.kind = .accepted ∧ basis.chain.eventDigests <+: x
    · rw [if_pos hk] at h
      cases tie with
      | none => cases h
      | some tie =>
        rw [Option.elim_some, Except.ok.injEq] at h
        exact Or.inr ⟨_, h.symm, hp, fun _ _ => rfl⟩
    · rw [if_neg hk, Except.ok.injEq] at h
      exact Or.inr ⟨_, h.symm, hp, fun h₁ h₂ => absurd ⟨h₁, h₂⟩ hk⟩

end Ranks

section Copies
variable {b : Book} {s : RetentionSet} {candidate : ValidatedChain}

/-- The chain whose copies a candidate takes shares most with it. -/
theorem heldCopies_source (s : RetentionSet) (candidate : ValidatedChain) :
    ∃ source ∈ s.chains, s.heldCopies candidate = source.extendedBy candidate ∧
      ∀ c ∈ s.chains, c.sharedPrefixLen candidate ≤ source.sharedPrefixLen candidate := by
  -- The fold keeps the chain that shares the longest prefix, and the earlier of two equals.
  have hfold : ∀ (xs : List RetainedSuffix) (start : ValidatedChain),
      ∃ source, source = xs.foldl (fun (source : ValidatedChain) suffix =>
        if source.sharedPrefixLen candidate < suffix.chain.sharedPrefixLen candidate
          then suffix.chain else source) start ∧
        (source = start ∨ ∃ x ∈ xs, source = x.chain) ∧
        start.sharedPrefixLen candidate ≤ source.sharedPrefixLen candidate ∧
        ∀ x ∈ xs, x.chain.sharedPrefixLen candidate ≤ source.sharedPrefixLen candidate := by
    intro xs
    induction xs with
    | nil =>
      intro start
      exact ⟨start, rfl, Or.inl rfl, le_rfl, by simp⟩
    | cons x xs ih =>
      intro start
      by_cases hlt : start.sharedPrefixLen candidate < x.chain.sharedPrefixLen candidate
      · obtain ⟨source, hs, hfrom, hle, hall⟩ := ih x.chain
        refine ⟨source, ?_, ?_, by omega, ?_⟩
        · rw [hs, List.foldl_cons, if_pos hlt]
        · rcases hfrom with rfl | ⟨y, hy, rfl⟩
          · exact Or.inr ⟨x, List.mem_cons_self, rfl⟩
          · exact Or.inr ⟨y, List.mem_cons_of_mem _ hy, rfl⟩
        · intro y hy
          rcases List.mem_cons.mp hy with rfl | hy
          · exact hle
          · exact hall y hy
      · obtain ⟨source, hs, hfrom, hle, hall⟩ := ih start
        refine ⟨source, ?_, ?_, hle, ?_⟩
        · rw [hs, List.foldl_cons, if_neg hlt]
        · rcases hfrom with rfl | ⟨y, hy, rfl⟩
          · exact Or.inl rfl
          · exact Or.inr ⟨y, List.mem_cons_of_mem _ hy, rfl⟩
        · intro y hy
          rcases List.mem_cons.mp hy with rfl | hy
          · omega
          · exact hall y hy
  obtain ⟨source, hs, hfrom, hle, hall⟩ := hfold s.suffixes s.basis.chain
  refine ⟨source, ?_, ?_, ?_⟩
  · rcases hfrom with rfl | ⟨x, hx, rfl⟩
    · exact List.mem_cons_self
    · exact List.mem_cons_of_mem _ (List.mem_map.mpr ⟨x, hx, rfl⟩)
  · rw [hs]
    rfl
  · intro c hc
    rcases List.mem_cons.mp hc with rfl | hc
    · exact hle
    · obtain ⟨x, hx, rfl⟩ := List.mem_map.mp hc
      exact hall x hx

@[simp] theorem heldCopies_eventDigests (s : RetentionSet) (candidate : ValidatedChain) :
    (s.heldCopies candidate).eventDigests = candidate.eventDigests := by
  obtain ⟨source, _, he, _⟩ := heldCopies_source s candidate
  rw [he, ValidatedChain.extendedBy_eventDigests]

theorem heldCopies_onBook (hs : s.OnBook b) (hc : OnBook b candidate) :
    OnBook b (s.heldCopies candidate) := by
  obtain ⟨source, hmem, he, _⟩ := heldCopies_source s candidate
  rw [he]
  exact (hs.chains source hmem).extendedBy hc

end Copies

/-- The search ends at a suffix that holds the candidate, or names the last
suffix it extends. -/
theorem findExtended_ok {b : Book} {candidate : ValidatedChain} (hc : OnBook b candidate)
    {suffixes : List RetainedSuffix} (hs : ∀ x ∈ suffixes, OnBook b x.chain) (start : ℕ)
    (found : Option ℕ) :
    ∃ r, findExtended candidate suffixes start found = .ok r ∧
      ((r = none ∧ ∃ x ∈ suffixes, candidate.eventDigests <+: x.chain.eventDigests) ∨
        ∃ extended, r = some extended ∧
          (∀ x ∈ suffixes, ¬ candidate.eventDigests <+: x.chain.eventDigests) ∧
          ((extended = found ∧ ∀ x ∈ suffixes, ¬ x.chain.eventDigests <+: candidate.eventDigests) ∨
            ∃ i x, suffixes[i]? = some x ∧ extended = some (start+i) ∧
              x.chain.eventDigests <+: candidate.eventDigests)) := by
  induction suffixes generalizing start found with
  | nil => exact ⟨some found, rfl, Or.inr ⟨found, rfl, by simp, Or.inl ⟨rfl, by simp⟩⟩⟩
  | cons held rest ih =>
    have hrest : ∀ x ∈ rest, OnBook b x.chain := fun x hx => hs x (List.mem_cons_of_mem _ hx)
    unfold findExtended
    rw [hc.pairChains_eq (hs held List.mem_cons_self)]
    -- Held here, extended here, or neither: the search goes on in the last two.
    obtain ⟨hpair, he⟩ | ⟨hpair, hp, _⟩ | ⟨hpair, hp, hne⟩ | ⟨hpair, h₁, h₂⟩ :=
      Book.pairing_cases b candidate.eventDigests held.chain.eventDigests <;> rw [hpair]
    · exact ⟨none, rfl, Or.inl ⟨rfl, held, List.mem_cons_self, by rw [he]⟩⟩
    · exact ⟨none, rfl, Or.inl ⟨rfl, held, List.mem_cons_self, hp⟩⟩
    · have hn : ¬ candidate.eventDigests <+: held.chain.eventDigests := fun h =>
        hne (h.eq_of_length (h.length_le.antisymm hp.length_le))
      obtain ⟨r, hok, hr⟩ := ih hrest (start+1) (some start)
      refine ⟨r, hok, ?_⟩
      rcases hr with ⟨rfl, x, hx, hpx⟩ | ⟨extended, rfl, hnot, hext⟩
      · exact Or.inl ⟨rfl, x, List.mem_cons_of_mem _ hx, hpx⟩
      · refine Or.inr ⟨extended, rfl, ?_, Or.inr ?_⟩
        · intro x hx
          rcases List.mem_cons.mp hx with rfl | hx
          · exact hn
          · exact hnot x hx
        · rcases hext with ⟨rfl, _⟩ | ⟨i, x, hi, rfl, hpx⟩
          · exact ⟨0, held, rfl, rfl, hp⟩
          · exact ⟨i+1, x, hi, by rw [Nat.add_assoc, Nat.add_comm 1 i], hpx⟩
    · obtain ⟨r, hok, hr⟩ := ih hrest (start+1) found
      refine ⟨r, hok, ?_⟩
      rcases hr with ⟨rfl, x, hx, hpx⟩ | ⟨extended, rfl, hnot, hext⟩
      · exact Or.inl ⟨rfl, x, List.mem_cons_of_mem _ hx, hpx⟩
      · refine Or.inr ⟨extended, rfl, ?_, ?_⟩
        · intro x hx
          rcases List.mem_cons.mp hx with rfl | hx
          · exact h₁
          · exact hnot x hx
        · rcases hext with ⟨rfl, hall⟩ | ⟨i, x, hi, rfl, hpx⟩
          · refine Or.inl ⟨rfl, ?_⟩
            intro x hx
            rcases List.mem_cons.mp hx with rfl | hx
            · exact h₂
            · exact hall x hx
          · exact Or.inr ⟨i+1, x, hi, by rw [Nat.add_assoc, Nat.add_comm 1 i], hpx⟩

section Guards
variable {b : Book} {s : RetentionSet} {candidate : ValidatedChain}

/-- What one guard says of the suffix it is for. -/
def GuardOf (b : Book) (s : RetentionSet) (candidate : ValidatedChain) (x : RetainedSuffix) :
    Guard → Prop
  | .opened => Beats b.label s.basis.chain.eventDigests x.chain.eventDigests ∨
      Beats b.label candidate.eventDigests x.chain.eventDigests
  | .tied beatenBy => ∀ j ∈ beatenBy, ∃ y, s.suffixes[j]? = some y ∧
      Beats b.label y.chain.eventDigests x.chain.eventDigests

theorem guards_ok (hs : s.OnBook b) (hc : OnBook b candidate) :
    ∃ guards, s.guards candidate = .ok guards ∧ guards.length = s.suffixes.length ∧
      ∀ (i : ℕ) guard, guards[i]? = some guard →
        ∃ x, s.suffixes[i]? = some x ∧ GuardOf b s candidate x guard := by
  unfold RetentionSet.guards
  rw [Book.tournament_of hs.chains]
  -- The tournament has the basis at 0 and suffix `i` at `i+1`.
  have hchain : ∀ (i : ℕ) x, s.suffixes[i]? = some x → s.chains[i+1]? = some x.chain := by
    intro i x hx
    simp only [RetentionSet.chains, List.getElem?_cons_succ, List.getElem?_map, hx,
      Option.map_some]
  have hstep : ∀ t ∈ s.suffixes.zipIdx 1, ∃ guard, (do
      let opened ← if (b.tournament s.chains).beats 0 t.2 then pure true
        else chainBeats candidate t.1.chain
      if opened then pure Guard.opened
      else pure (.tied (((List.range' 1 s.suffixes.length).filter
        (fun other => (b.tournament s.chains).beats other t.2)).map (· - 1))) :
          Except UnrelatedChains Guard) = .ok guard ∧ GuardOf b s candidate t.1 guard := by
    intro t ht
    rw [List.mem_zipIdx_iff_le_and_getElem?_sub] at ht
    obtain ⟨hle, ht⟩ := ht
    have ht' := hchain _ _ ht
    rw [Nat.sub_add_cancel hle] at ht'
    have hx := hs.suffixes t.1 (List.mem_of_getElem? ht)
    by_cases hb : (b.tournament s.chains).beats 0 t.2 = true
    · refine ⟨.opened, by simp [hb], Or.inl ?_⟩
      obtain ⟨c, hc0, d, hd, hbeat⟩ := (Book.tournament_beats_iff _ _ _).mp hb
      rw [ht', Option.mem_some_iff] at hd
      rw [show s.chains[0]? = some s.basis.chain from rfl, Option.mem_some_iff] at hc0
      rwa [hd, hc0]
    · obtain ⟨beaten, hok, hiff⟩ := chainBeats_eq hc hx
      cases beaten with
      | true => exact ⟨.opened, by simp [hb, hok], Or.inr (hiff.mp rfl)⟩
      | false =>
        refine ⟨.tied (((List.range' 1 s.suffixes.length).filter
          (fun other => (b.tournament s.chains).beats other t.2)).map (· - 1)),
          by simp [hb, hok], ?_⟩
        intro j hj
        obtain ⟨other, hother, rfl⟩ := List.mem_map.mp hj
        rw [List.mem_filter, List.mem_range'_1] at hother
        obtain ⟨c, hc0, d, hd, hbeat⟩ := (Book.tournament_beats_iff _ _ _).mp hother.2
        rw [ht', Option.mem_some_iff] at hd
        have hlt : other-1 < s.suffixes.length := by omega
        have hget := List.getElem?_eq_getElem hlt
        have hcother := hchain _ _ hget
        rw [Nat.sub_add_cancel hother.1.1, Option.mem_def.mp hc0, Option.some.injEq] at hcother
        refine ⟨_, hget, ?_⟩
        rw [hd, ← hcother]
        exact hbeat
  obtain ⟨guards, hok, hall⟩ := mapEach_exists_ok hstep
  refine ⟨guards, hok, ?_, ?_⟩
  · rw [← hall.length_eq, List.length_zipIdx]
  · intro i guard hi
    obtain ⟨hlt, rfl⟩ := List.getElem?_eq_some_iff.mp hi
    have hlt' : i < (s.suffixes.zipIdx 1).length := by
      rw [hall.length_eq]
      exact hlt
    have hR := List.forall₂_iff_get.mp hall |>.2 i hlt' hlt
    rw [List.length_zipIdx] at hlt'
    refine ⟨s.suffixes[i], List.getElem?_eq_getElem hlt', ?_⟩
    simpa using hR

end Guards

/-- The suffixes that stay when a candidate is entered. -/
def RetentionSet.staying (s : RetentionSet) (evict : List ℕ) (extended : Option ℕ) :
    List RetainedSuffix :=
  (s.suffixes.zipIdx.filter (fun t => t.2 ∉ evict ∧ extended ≠ some t.2)).map (·.1)

theorem mem_staying {s : RetentionSet} {evict : List ℕ} {extended : Option ℕ} {x : RetainedSuffix} :
    x ∈ s.staying evict extended ↔
      ∃ i, s.suffixes[i]? = some x ∧ i ∉ evict ∧ extended ≠ some i := by
  simp only [RetentionSet.staying, List.mem_map, List.mem_filter, decide_eq_true_eq, Prod.exists,
    List.mem_zipIdx_iff_getElem?]
  constructor
  · intro h
    obtain ⟨_, i, ⟨hi, hstay⟩, rfl⟩ := h
    exact ⟨i, hi, hstay⟩
  · intro h
    obtain ⟨i, hi, hstay⟩ := h
    exact ⟨x, i, ⟨hi, hstay⟩, rfl⟩

/-- Everything an entered candidate went through. -/
structure Enters (b : Book) (s : RetentionSet) (candidate : ValidatedChain) (observed : Option ℕ)
    (rank : ForkRank) (fork : ℕ) (extended : Option ℕ) (evict : List ℕ) (next : ℕ) : Prop where
  placement : s.rankPlacement candidate = .ok (some (rank, fork))
  off : ∀ c ∈ s.chains, ¬ candidate.eventDigests <+: c.eventDigests
  extends_ : (extended = none ∧
      ∀ x ∈ s.suffixes, ¬ x.chain.eventDigests <+: candidate.eventDigests) ∨
    ∃ i x, s.suffixes[i]? = some x ∧ extended = some i ∧
      x.chain.eventDigests <+: candidate.eventDigests
  next : s.nextAfter observed extended = .ok next
  evict_lt : ∀ i ∈ evict, i < s.suffixes.length ∧ extended ≠ some i
  fit : fits ((s.staying evict extended).map (·.slot))
    (s.slotFor (s.heldCopies candidate) observed rank fork extended) s.bounds = true
  covers : ∀ x ∈ s.suffixes, b.branch x.chain ≤ b.branch s.basis.chain ∨
    b.branch x.chain ≤ b.branch candidate ∨
    ∃ y ∈ s.staying evict extended, b.branch x.chain ≤ b.branch y.chain

/-- The outcomes of a placement. -/
inductive Places (b : Book) (s : RetentionSet) (candidate : ValidatedChain) (observed : Option ℕ) :
    Admission → RetentionSet → Prop
  | held {c : ValidatedChain} (mem : c ∈ s.chains) (on : candidate.eventDigests <+: c.eventDigests) :
      Places b s candidate observed .alreadyHeld s
  | refused (rank : ForkRank) : Places b s candidate observed (.refused rank) s
  | entered {rank : ForkRank} {fork : ℕ} {extended : Option ℕ} {evict : List ℕ} {next : ℕ}
      (h : Enters b s candidate observed rank fork extended evict next) :
      Places b s candidate observed (s.admissionFor rank evict extended)
        { s with
          suffixes := s.staying evict extended ++ [⟨s.heldCopies candidate, fork,
            s.slotFor (s.heldCopies candidate) observed rank fork extended⟩]
          nextObserved := next }

section Place
variable {b : Book} {s s' : RetentionSet} {candidate : ValidatedChain} {observed : Option ℕ}
  {admission : Admission}

/-- A plan over guards for the candidate leaves every suffix covered. -/
theorem plan_covers {guards : List Guard}
    {extended : Option ℕ} {slot : Slot} {evict : List ℕ}
    (hguards : (guards.length = s.suffixes.length ∧ ∀ (i : ℕ) guard, guards[i]? = some guard →
        ∃ x, s.suffixes[i]? = some x ∧ GuardOf b s (s.heldCopies candidate) x guard) ∨
      (guards = [] ∧ fits (((s.suffixes.map (·.slot)).zipIdx.filter
        (fun t => some t.2 ≠ extended)).map (·.1)) slot s.bounds = true))
    (hext : ∀ i ∈ extended, ∃ x, s.suffixes[i]? = some x ∧
      x.chain.eventDigests <+: candidate.eventDigests)
    (hplan : planEvictions (s.suffixes.map (·.slot)) guards extended slot s.bounds = some evict) :
    ∀ x ∈ s.suffixes, b.branch x.chain ≤ b.branch s.basis.chain ∨
      b.branch x.chain ≤ b.branch candidate ∨
      ∃ y ∈ s.staying evict extended, b.branch x.chain ≤ b.branch y.chain := by
  have hdig := heldCopies_eventDigests s candidate
  -- The plan covers each index by one that stays, for any preorder of the guards: here the
  -- branches the suffixes are on.
  have hcover := planEvictions_covers
    (fun i j => ∀ x, s.suffixes[i]? = some x → ∃ y, s.suffixes[j]? = some y ∧
      b.branch x.chain ≤ b.branch y.chain)
    (fun i => ∀ x, s.suffixes[i]? = some x →
      b.branch x.chain ≤ b.branch s.basis.chain ∨ b.branch x.chain ≤ b.branch candidate)
    (fun i x hx => ⟨x, hx, le_rfl⟩)
    (by
      intro i j k hij hjk x hx
      obtain ⟨y, hy, hxy⟩ := hij x hx
      obtain ⟨z, hz, hyz⟩ := hjk y hy
      exact ⟨z, hz, hxy.trans hyz⟩)
    (by
      intro i j hij hj x hx
      obtain ⟨y, hy, hxy⟩ := hij x hx
      exact (hj y hy).imp hxy.trans hxy.trans)
    (by
      intro i hi x hx
      rcases hguards with ⟨_, hg⟩ | ⟨rfl, _⟩
      · obtain ⟨y, hy, hguard⟩ := hg i _ hi
        rw [hx, Option.some.injEq] at hy
        subst hy
        refine hguard.imp ?_ ?_
        · exact fun h => Branch.le_of_beats h
        · intro h
          rw [hdig] at h
          exact Branch.le_of_beats h
      · simp at hi)
    (by
      intro i beatenBy hi j hj
      rcases hguards with ⟨_, hg⟩ | ⟨rfl, _⟩
      · obtain ⟨x, hx, hguard⟩ := hg i _ hi
        obtain ⟨y, hy, hbeat⟩ := hguard j hj
        refine ⟨?_, ?_⟩
        · rintro rfl
          rw [hx, Option.some.injEq] at hy
          subst hy
          exact hbeat.1 List.prefix_rfl
        · intro x' hx'
          rw [hx, Option.some.injEq] at hx'
          subst hx'
          exact ⟨y, hy, Branch.le_of_beats hbeat⟩
      · simp at hi)
    (by
      intro i hi x hx
      obtain ⟨y, hy, hp⟩ := hext i hi
      rw [hx, Option.some.injEq] at hy
      subst hy
      exact Or.inr (Branch.le_of_prefix hp))
    (by
      refine hguards.imp ?_ ?_
      · intro h
        rw [h.1, List.length_map]
      · intro h
        rw [keptSlots_stayFlags]
        simpa only [List.not_mem_nil, not_false_eq_true, true_and, ne_eq, eq_comm] using h.2)
    hplan
  intro x hx
  obtain ⟨i, hi⟩ := List.mem_iff_getElem?.mp hx
  have hlt := (List.getElem?_eq_some_iff.mp hi).1
  rcases hcover i (by rwa [List.length_map]) with hsafe | ⟨j, _, hj, hjr, hcov⟩
  · exact (hsafe x hi).imp_right Or.inl
  · obtain ⟨y, hy, hle⟩ := hcov x hi
    exact Or.inr (Or.inr ⟨y, mem_staying.mpr ⟨j, hy, hj, hjr⟩, hle⟩)

/-- The slots of the suffixes that stay. -/
theorem staying_slots (s : RetentionSet) (evict : List ℕ) (extended : Option ℕ) :
    ((s.suffixes.map (·.slot)).zipIdx.filter (fun t => t.2 ∉ evict ∧ extended ≠ some t.2)).map (·.1) =
      (s.staying evict extended).map (·.slot) := by
  rw [List.zipIdx_map, List.filter_map, List.map_map, RetentionSet.staying, List.map_map]
  rfl

theorem place_cases (hs : s.OnBook b) (hc : OnBook b candidate)
    (h : s.place candidate observed = .ok (admission, s')) :
    Places b s candidate observed admission s' := by
  unfold RetentionSet.place at h
  rw [bind_ok_iff] at h
  obtain ⟨found, hfound, h⟩ := h
  have hplacement := hfound
  rw [rankPlacement_eq hs hc] at hplacement
  -- Held by the basis, by a suffix, or by neither: only then is a place planned.
  rcases placement_ok hplacement with ⟨rfl, hp⟩ | ⟨rank, rfl, hoff, _⟩
  · simp only [pure_ok_iff, Prod.mk.injEq] at h
    rw [← h.1, ← h.2]
    exact .held List.mem_cons_self hp
  · simp only [bind_ok_iff, mapError_ok_iff] at h
    obtain ⟨r, hr, h⟩ := h
    obtain ⟨r', hr', hcase⟩ := findExtended_ok hc hs.suffixes 0 none
    rw [hr, Except.ok.injEq] at hr'
    subst hr'
    rcases hcase with ⟨rfl, x, hx, hp⟩ | ⟨extended, rfl, hnot, hext⟩
    · simp only [pure_ok_iff, Prod.mk.injEq] at h
      rw [← h.1, ← h.2]
      exact .held (List.mem_cons_of_mem _ (List.mem_map.mpr ⟨x, hx, rfl⟩)) hp
    · simp only [RetentionSet.enter, bind_ok_iff, pure_ok_iff] at h
      obtain ⟨next, hnext, guards, hguards, h⟩ := h
      have hcopies := heldCopies_onBook hs hc
      have hguards' : (guards.length = s.suffixes.length ∧
          ∀ (i : ℕ) guard, guards[i]? = some guard →
            ∃ x, s.suffixes[i]? = some x ∧ GuardOf b s (s.heldCopies candidate) x guard) ∨
          (guards = [] ∧ fits (((s.suffixes.map (·.slot)).zipIdx.filter
            (fun t => some t.2 ≠ extended)).map (·.1)) (s.slotFor (s.heldCopies candidate) observed
              rank (sharedLen candidate.eventDigests s.basis.chain.eventDigests) extended)
              s.bounds = true) := by
        unfold RetentionSet.guardsFor at hguards
        split_ifs at hguards with hfits
        · exact Or.inr ⟨(Except.ok.inj hguards).symm, hfits⟩
        · left
          obtain ⟨gs, hok, hlen, hg⟩ := guards_ok hs hcopies
          rw [mapError_ok_iff, hok, Except.ok.injEq] at hguards
          rw [← hguards]
          exact ⟨hlen, hg⟩
      cases hplan : planEvictions (s.suffixes.map (·.slot)) guards extended (s.slotFor
          (s.heldCopies candidate) observed rank
          (sharedLen candidate.eventDigests s.basis.chain.eventDigests) extended) s.bounds with
      | none =>
        rw [hplan] at h
        simp only [Option.elim_none, Prod.mk.injEq] at h
        rw [← h.1, ← h.2]
        exact .refused rank
      | some evict =>
        rw [hplan] at h
        simp only [Option.elim_some, Prod.mk.injEq] at h
        rw [← h.1, ← h.2]
        have hext' : (extended = none ∧
            ∀ x ∈ s.suffixes, ¬ x.chain.eventDigests <+: candidate.eventDigests) ∨
            ∃ i x, s.suffixes[i]? = some x ∧ extended = some i ∧
              x.chain.eventDigests <+: candidate.eventDigests := by
          refine hext.imp_right ?_
          rintro ⟨i, x, hi, he, hp⟩
          exact ⟨i, x, hi, by rw [he, Nat.zero_add], hp⟩
        have hfits := planEvictions_fits hplan
        rw [staying_slots, List.length_map] at hfits
        refine .entered ⟨hfound, ?_, hext', hnext, hfits.2, hfits.1, ?_⟩
        · intro c hcm
          rcases List.mem_cons.mp hcm with rfl | hcm
          · exact hoff
          · obtain ⟨x, hx, rfl⟩ := List.mem_map.mp hcm
            exact hnot x hx
        · apply plan_covers hguards' _ hplan
          intro i hi
          rcases hext' with ⟨rfl, _⟩ | ⟨j, x, hj, rfl, hp⟩
          · cases hi
          · rw [Option.mem_some_iff] at hi
            rw [← hi]
            exact ⟨x, hj, hp⟩

end Place

end ScpCore.Kel
