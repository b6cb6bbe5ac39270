import ScpCore.KelBook

/-! What set resolution decides. Over chains on one book it always decides, and
what it returns is read off the maximal branches of the set alone: the head of
the only one, or the heads of all of them with their strictest pair. -/

namespace ScpCore.Kel

namespace Book
variable (b : Book)

/-- The branches of a list of chains. -/
def branches (chains : List ValidatedChain) : Set (Branch b.label) := {x | ∃ c ∈ chains, b.branch c = x}

/-- The head of a maximal branch. -/
def TopHead (s : Set (Branch b.label)) (head : Digest) : Prop :=
  ∃ m, Maximal (· ∈ s) m ∧ m.elements.getLast? = some head

/-- The divergence of two maximal branches that is lowest in strictness. -/
def Strictest (s : Set (Branch b.label)) (d : Divergence) : Prop :=
  (∃ x y, Maximal (· ∈ s) x ∧ Maximal (· ∈ s) y ∧ x ≠ y ∧ d = b.divergence x.elements y.elements) ∧
    ∀ x y, Maximal (· ∈ s) x → Maximal (· ∈ s) y → x ≠ y →
      Tournament.strictness d ≤ Tournament.strictness (b.divergence x.elements y.elements)

/-- The resolution a set of branches calls for. -/
def Resolves (s : Set (Branch b.label)) : SetResolution → Prop
  | .winner head => ∃ m, (∀ x, Maximal (· ∈ s) x ↔ x = m) ∧ m.elements.getLast? = some head
  | .tie tieClass heads sharedPrefixHead forkPosition =>
    2 ≤ heads.length ∧ heads.Pairwise (· < ·) ∧ (∀ head, head ∈ heads ↔ b.TopHead s head) ∧
      ∃ d, b.Strictest s d ∧ tieClass = .of d.ranks.1 ∧ sharedPrefixHead = d.sharedPrefixHead ∧
        forkPosition = d.forkPosition
  | .empty => s = ∅

variable {b}

theorem resolves_congr {s t : Set (Branch b.label)} (h : SameTop s t) {r : SetResolution}
    (hr : b.Resolves s r) : b.Resolves t r := by
  have hm := h.maximal_iff
  cases r with
  | winner head => simpa only [Resolves, hm] using hr
  | tie tieClass heads sharedPrefixHead forkPosition =>
    simpa only [Resolves, TopHead, Strictest, hm] using hr
  | empty =>
    simp only [Resolves] at hr ⊢
    subst hr
    by_contra hne
    obtain ⟨x, hx⟩ := Set.nonempty_iff_ne_empty.mpr hne
    obtain ⟨y, hy, _⟩ := h.2 hx
    exact hy

theorem eq_of_strictness_eq {d e : Divergence}
    (h : Tournament.strictness d = Tournament.strictness e) :
    d.ranks.1 = e.ranks.1 ∧ d.sharedPrefixHead = e.sharedPrefixHead ∧
      d.forkPosition = e.forkPosition := by
  simp only [Tournament.strictness, EmbeddingLike.apply_eq_iff_eq, Prod.mk.injEq] at h
  obtain ⟨hn, hf, hp⟩ := h
  exact ⟨ForkRank.number_injective hn, BitVec.eq_of_toNat_eq hp, hf⟩

/-- A set of branches calls for one resolution only. -/
theorem Resolves.unique {s : Set (Branch b.label)} {r r' : SetResolution}
    (h : b.Resolves s r) (h' : b.Resolves s r') : r = r' := by
  have hwt : ∀ {head tieClass heads sharedPrefixHead forkPosition},
      b.Resolves s (.winner head) → b.Resolves s (.tie tieClass heads sharedPrefixHead forkPosition) →
        False := by
    intro head tieClass heads sharedPrefixHead forkPosition hw ht
    obtain ⟨m, hm, _⟩ := hw
    obtain ⟨hlen, hlt, hmem, _⟩ := ht
    -- Two different heads would both be the head of the only maximal branch.
    match heads, hlen with
    | i :: j :: rest, _ =>
      have hij : i < j := (List.pairwise_cons.mp hlt).1 j (by simp)
      obtain ⟨x, hx, hxi⟩ := (hmem i).mp (by simp)
      obtain ⟨y, hy, hyj⟩ := (hmem j).mp (by simp)
      rw [(hm x).mp hx] at hxi
      rw [(hm y).mp hy, hxi, Option.some.injEq] at hyj
      rw [hyj] at hij
      exact irrefl_of (· < ·) j hij
  have hnonempty : ∀ {x}, Maximal (· ∈ s) x → s ≠ ∅ := by
    intro x hx he
    have := hx.prop
    rw [he] at this
    exact this
  cases r with
  | winner head =>
    cases r' with
    | winner head' =>
      obtain ⟨m, hm, hhead⟩ := h
      obtain ⟨m', hm', hhead'⟩ := h'
      rw [(hm' m).mp ((hm m).mpr rfl), hhead', Option.some.injEq] at hhead
      rw [hhead]
    | tie => exact (hwt h h').elim
    | empty =>
      obtain ⟨m, hm, _⟩ := h
      exact (hnonempty ((hm m).mpr rfl) h').elim
  | tie tieClass heads sharedPrefixHead forkPosition =>
    cases r' with
    | winner head' => exact (hwt h' h).elim
    | tie tieClass' heads' sharedPrefixHead' forkPosition' =>
      obtain ⟨_, hlt, hmem, d, hd, rfl, rfl, rfl⟩ := h
      obtain ⟨_, hlt', hmem', d', hd', rfl, rfl, rfl⟩ := h'
      have hheads : heads = heads' := by
        apply hlt.eq_of_mem_iff hlt'
        intro head
        rw [hmem, hmem']
      have hs : Tournament.strictness d = Tournament.strictness d' := by
        obtain ⟨⟨x, y, hx, hy, hne, rfl⟩, hmin⟩ := hd
        obtain ⟨⟨x', y', hx', hy', hne', rfl⟩, hmin'⟩ := hd'
        exact le_antisymm (hmin x' y' hx' hy' hne') (hmin' x y hx hy hne)
      obtain ⟨h₁, h₂, h₃⟩ := eq_of_strictness_eq hs
      rw [hheads, h₁, h₂, h₃]
    | empty =>
      obtain ⟨_, _, _, d, ⟨⟨x, y, hx, _⟩, _⟩, _⟩ := h
      exact (hnonempty hx h').elim
  | empty =>
    cases r' with
    | winner head' =>
      obtain ⟨m, hm, _⟩ := h'
      exact (hnonempty ((hm m).mpr rfl) h).elim
    | tie =>
      obtain ⟨_, _, _, d, ⟨⟨x, y, hx, _⟩, _⟩, _⟩ := h'
      exact (hnonempty hx h).elim
    | empty => rfl

/-- Two different maximal branches tie: neither extends the other, and their ranks agree. -/
theorem tied_of_maximal {s : Set (Branch b.label)} {x y : Branch b.label}
    (hx : Maximal (· ∈ s) x) (hy : Maximal (· ∈ s) y) (hne : x ≠ y) :
    ¬ x.elements <+: y.elements ∧ ¬ y.elements <+: x.elements ∧
      (b.divergence x.elements y.elements).ranks.1 = (b.divergence x.elements y.elements).ranks.2 := by
  have hxy : ¬ x ≤ y := fun h => hne (hx.eq_of_le hy.prop h)
  have hyx : ¬ y ≤ x := fun h => hne (hy.eq_of_le hx.prop h).symm
  have hp : ¬ x.elements <+: y.elements := fun h => hxy (Branch.le_of_prefix h)
  have hq : ¬ y.elements <+: x.elements := fun h => hyx (Branch.le_of_prefix h)
  refine ⟨hp, hq, ?_⟩
  apply le_antisymm
  · by_contra hlt
    refine hxy (Branch.le_of_beats ⟨hq, hp, ?_⟩)
    rw [sharedLen_comm]
    exact not_le.mp hlt
  · by_contra hlt
    exact hyx (Branch.le_of_beats ⟨hp, hq, not_le.mp hlt⟩)

/-- The two orders of a tied pair have one divergence. -/
theorem divergence_comm {x y : List Digest}
    (h : (b.divergence x y).ranks.1 = (b.divergence x y).ranks.2) :
    b.divergence y x = b.divergence x y := by
  simp only [divergence] at h ⊢
  rw [sharedLen_comm y x, ← take_sharedLen x y, h]

/-- The tournament over chains on the book, every comparison taken by digests. -/
def tournament (b : Book) (chains : List ValidatedChain) : Tournament :=
  ⟨chains.map (fun c => chains.map (fun d =>
    (b.pairing c.eventDigests d.eventDigests).divergence?))⟩

theorem tournament_of {chains : List ValidatedChain} (h : ∀ c ∈ chains, OnBook b c) :
    Tournament.of chains = .ok (b.tournament chains) := by
  have hrow : ∀ c ∈ chains, mapEach (fun d => do
      let pairing ← pairChains c d
      pure pairing.divergence?) chains =
        .ok (chains.map (fun d => (b.pairing c.eventDigests d.eventDigests).divergence?)) := by
    intro c hc
    apply mapEach_eq_ok
    intro d hd
    rw [(h c hc).pairChains_eq (h d hd)]
    rfl
  unfold Tournament.of
  rw [mapEach_eq_ok hrow]
  rfl

@[simp] theorem tournament_len (chains : List ValidatedChain) :
    (b.tournament chains).len = chains.length := by
  simp [tournament, Tournament.len]

theorem tournament_divergence (chains : List ValidatedChain) (i j : ℕ) :
    (b.tournament chains).divergence i j = (chains[i]?).bind (fun c => (chains[j]?).bind
      (fun d => (b.pairing c.eventDigests d.eventDigests).divergence?)) := by
  unfold Tournament.divergence tournament
  rw [List.getElem?_map]
  cases chains[i]? with
  | none => rfl
  | some c =>
    simp only [Option.map_some, Option.bind_some, List.getElem?_map]
    cases chains[j]? <;> rfl

theorem pairing_divergence_iff (x y : List Digest) (d : Divergence) :
    (b.pairing x y).divergence? = some d ↔
      ¬ x <+: y ∧ ¬ y <+: x ∧ d = b.divergence x y := by
  unfold pairing
  by_cases hxy : x = y
  · subst hxy
    simp [ChainPairing.divergence?]
  · by_cases hp : x <+: y
    · simp [ChainPairing.divergence?, hxy, hp]
    · by_cases hq : y <+: x
      · simp [ChainPairing.divergence?, hxy, hp, hq]
      · simp [ChainPairing.divergence?, hxy, hp, hq, eq_comm]

theorem tournament_divergence_iff (chains : List ValidatedChain) (i j : ℕ) (d : Divergence) :
    (b.tournament chains).divergence i j = some d ↔
      ∃ x ∈ chains[i]?, ∃ y ∈ chains[j]?, ¬ x.eventDigests <+: y.eventDigests ∧
        ¬ y.eventDigests <+: x.eventDigests ∧ d = b.divergence x.eventDigests y.eventDigests := by
  simp only [tournament_divergence, Option.bind_eq_some_iff, pairing_divergence_iff, Option.mem_def]

theorem tournament_beats_iff (chains : List ValidatedChain) (i j : ℕ) :
    (b.tournament chains).beats i j = true ↔
      ∃ x ∈ chains[i]?, ∃ y ∈ chains[j]?, Beats b.label x.eventDigests y.eventDigests := by
  simp only [Tournament.beats, Option.any_eq_true, tournament_divergence_iff, ForkRank.beats_iff,
    Beats]
  constructor
  · intro h
    obtain ⟨d, ⟨x, hx, y, hy, hp, hq, rfl⟩, hlt⟩ := h
    exact ⟨x, hx, y, hy, hp, hq, hlt⟩
  · intro h
    obtain ⟨x, hx, y, hy, hp, hq, hlt⟩ := h
    exact ⟨_, ⟨x, hx, y, hy, hp, hq, rfl⟩, hlt⟩

theorem mem_undefeated_iff (chains : List ValidatedChain) (i : ℕ) :
    i ∈ (b.tournament chains).undefeated ↔ ∃ x ∈ chains[i]?, ∀ y ∈ chains,
      ¬ Beats b.label y.eventDigests x.eventDigests := by
  have hall : (List.range chains.length).all (fun j => !(b.tournament chains).beats j i) = true ↔
      ∀ j < chains.length, ¬ (b.tournament chains).beats j i = true := by
    simp
  simp only [Tournament.undefeated, List.mem_filter, tournament_len, hall, List.mem_range,
    tournament_beats_iff]
  constructor
  · intro h
    obtain ⟨hi, hbeat⟩ := h
    refine ⟨chains[i], List.getElem?_eq_getElem hi, ?_⟩
    intro y hy hb
    obtain ⟨j, hj⟩ := List.mem_iff_getElem?.mp hy
    obtain ⟨hlt, _⟩ := List.getElem?_eq_some_iff.mp hj
    exact hbeat j hlt ⟨y, hj, _, List.getElem?_eq_getElem hi, hb⟩
  · intro h
    obtain ⟨x, hx, hbeat⟩ := h
    obtain ⟨hi, _⟩ := List.getElem?_eq_some_iff.mp hx
    refine ⟨hi, ?_⟩
    intro j _ hb
    obtain ⟨y, hy, x', hx', hb⟩ := hb
    rw [Option.mem_def.mp hx, Option.mem_some_iff] at hx'
    subst hx'
    exact hbeat y (List.mem_of_getElem? hy) hb

theorem undefeated_pairwise (t : Tournament) : t.undefeated.Pairwise (· < ·) :=
  List.pairwise_lt_range.filter _

/-- `kept` is `chains` without the chains that another covers. -/
structure Reduced (chains kept : List ValidatedChain) : Prop where
  subset : kept ⊆ chains
  covers : ∀ c ∈ chains, ∃ k ∈ kept, c.eventDigests <+: k.eventDigests
  apart : kept.Pairwise (fun c d =>
    ¬ c.eventDigests <+: d.eventDigests ∧ ¬ d.eventDigests <+: c.eventDigests)

/-- The four ways two digest lists pair. -/
theorem pairing_cases (b : Book) (x y : List Digest) :
    (b.pairing x y = .identical ∧ x = y) ∨
    (b.pairing x y = .leftPrefixOfRight ∧ x <+: y ∧ x ≠ y) ∨
    (b.pairing x y = .rightPrefixOfLeft ∧ y <+: x ∧ x ≠ y) ∨
    (b.pairing x y = .diverged (b.divergence x y) ∧ ¬ x <+: y ∧ ¬ y <+: x) := by
  unfold pairing
  split_ifs with h₁ h₂ h₃
  · exact .inl ⟨rfl, h₁⟩
  · exact .inr (.inl ⟨rfl, h₂, h₁⟩)
  · exact .inr (.inr (.inl ⟨rfl, h₃, h₁⟩))
  · exact .inr (.inr (.inr ⟨rfl, h₂, h₃⟩))

/-- One chain entered among kept ones that are apart. -/
theorem reduceOnto_ok {chain : ValidatedChain} {kept : List ValidatedChain} (hc : OnBook b chain)
    (hk : ∀ k ∈ kept, OnBook b k)
    (apart : kept.Pairwise (fun c d =>
      ¬ c.eventDigests <+: d.eventDigests ∧ ¬ d.eventDigests <+: c.eventDigests)) :
    ∃ kept', reduceOnto chain kept = .ok kept' ∧ kept' ⊆ chain :: kept ∧
      (∀ c ∈ chain :: kept, ∃ k ∈ kept', c.eventDigests <+: k.eventDigests) ∧
      kept'.Pairwise (fun c d =>
        ¬ c.eventDigests <+: d.eventDigests ∧ ¬ d.eventDigests <+: c.eventDigests) := by
  induction kept with
  | nil =>
    refine ⟨[chain], rfl, List.Subset.refl _, ?_, List.pairwise_singleton _ _⟩
    intro c hcm
    exact ⟨c, hcm, List.prefix_rfl⟩
  | cons slot kept ih =>
    have hslot := hk slot List.mem_cons_self
    obtain ⟨hs, hrest⟩ := List.pairwise_cons.mp apart
    have hself : ∀ c ∈ slot :: kept, ∃ k ∈ slot :: kept, c.eventDigests <+: k.eventDigests :=
      fun c hcm => ⟨c, hcm, List.prefix_rfl⟩
    -- The chain lies on `slot` already.
    have hdrop : chain.eventDigests <+: slot.eventDigests →
        slot :: kept ⊆ chain :: slot :: kept ∧
        (∀ c ∈ chain :: slot :: kept, ∃ k ∈ slot :: kept, c.eventDigests <+: k.eventDigests) ∧
        (slot :: kept).Pairwise (fun c d =>
          ¬ c.eventDigests <+: d.eventDigests ∧ ¬ d.eventDigests <+: c.eventDigests) := by
      intro hp
      refine ⟨List.subset_cons_self _ _, ?_, apart⟩
      intro c hcm
      rcases List.mem_cons.mp hcm with rfl | hcm
      · exact ⟨slot, List.mem_cons_self, hp⟩
      · exact hself c hcm
    unfold reduceOnto
    rw [hc.pairChains_eq hslot]
    obtain ⟨hpair, he⟩ | ⟨hpair, hp, _⟩ | ⟨hpair, hp, hne⟩ | ⟨hpair, h₁, h₂⟩ :=
      pairing_cases b chain.eventDigests slot.eventDigests <;> rw [hpair]
    · have hp : chain.eventDigests <+: slot.eventDigests := by rw [he]
      exact ⟨slot :: kept, rfl, hdrop hp⟩
    · exact ⟨slot :: kept, rfl, hdrop hp⟩
    · refine ⟨chain :: kept, rfl, ?_, ?_, ?_⟩
      · intro c hcm
        rcases List.mem_cons.mp hcm with rfl | hcm
        · exact List.mem_cons_self
        · exact List.mem_cons_of_mem _ (List.mem_cons_of_mem _ hcm)
      · intro c hcm
        rcases List.mem_cons.mp hcm with rfl | hcm
        · exact ⟨c, List.mem_cons_self, List.prefix_rfl⟩
        · rcases List.mem_cons.mp hcm with rfl | hcm
          · exact ⟨chain, List.mem_cons_self, hp⟩
          · exact ⟨c, List.mem_cons_of_mem _ hcm, List.prefix_rfl⟩
      · refine List.pairwise_cons.mpr ⟨?_, hrest⟩
        intro d hd
        obtain ⟨h₁, h₂⟩ := hs d hd
        refine ⟨fun h => h₁ (hp.trans h), ?_⟩
        -- A kept chain on the new one would be comparable with the one it extends.
        intro h
        rcases List.prefix_or_prefix_of_prefix hp h with h' | h'
        · exact h₁ h'
        · exact h₂ h'
    · obtain ⟨kept', hok, hsub, hcov, hap⟩ :=
        ih (fun k hkm => hk k (List.mem_cons_of_mem _ hkm)) hrest
      refine ⟨slot :: kept', ?_, ?_, ?_, ?_⟩
      · simp only [hok]
        rfl
      · intro c hcm
        rcases List.mem_cons.mp hcm with rfl | hcm
        · exact List.mem_cons_of_mem _ List.mem_cons_self
        · rcases List.mem_cons.mp (hsub hcm) with rfl | hcm
          · exact List.mem_cons_self
          · exact List.mem_cons_of_mem _ (List.mem_cons_of_mem _ hcm)
      · intro c hcm
        rcases List.mem_cons.mp hcm with rfl | hcm
        · obtain ⟨k, hkm, hp⟩ := hcov c List.mem_cons_self
          exact ⟨k, List.mem_cons_of_mem _ hkm, hp⟩
        · rcases List.mem_cons.mp hcm with rfl | hcm
          · exact ⟨c, List.mem_cons_self, List.prefix_rfl⟩
          · obtain ⟨k, hkm, hp⟩ := hcov c (List.mem_cons_of_mem _ hcm)
            exact ⟨k, List.mem_cons_of_mem _ hkm, hp⟩
      · refine List.pairwise_cons.mpr ⟨?_, hap⟩
        intro d hd
        rcases List.mem_cons.mp (hsub hd) with rfl | hd
        · exact ⟨h₂, h₁⟩
        · exact hs d hd

theorem reduce_ok {chains : List ValidatedChain} (h : ∀ c ∈ chains, OnBook b c) :
    ∃ kept, reduce chains = .ok kept ∧ Reduced chains kept := by
  -- The fold with `done` already entered; `kept` is its reduction.
  have hfold : ∀ (todo done kept : List ValidatedChain), (∀ c ∈ todo, OnBook b c) →
      (∀ c ∈ done, OnBook b c) → Reduced done kept →
      ∃ kept', todo.foldlM (fun kept chain => reduceOnto chain kept) kept = .ok kept' ∧
        Reduced (done ++ todo) kept' := by
    intro todo
    induction todo with
    | nil =>
      intro done kept _ _ hr
      refine ⟨kept, rfl, ?_⟩
      rwa [List.append_nil]
    | cons chain todo ih =>
      intro done kept htodo hdone hr
      obtain ⟨kept', hok, hsub, hcov, hap⟩ := reduceOnto_ok (htodo chain List.mem_cons_self)
        (fun k hk => hdone k (hr.subset hk)) hr.apart
      have hdone' : ∀ c ∈ done ++ [chain], OnBook b c := by
        intro c hc
        rcases List.mem_append.mp hc with hc | hc
        · exact hdone c hc
        · rw [List.mem_singleton.mp hc]
          exact htodo chain List.mem_cons_self
      have hr' : Reduced (done ++ [chain]) kept' := by
        refine ⟨?_, ?_, hap⟩
        · intro c hc
          rcases List.mem_cons.mp (hsub hc) with rfl | hc
          · simp
          · exact List.mem_append_left _ (hr.subset hc)
        · intro c hc
          rcases List.mem_append.mp hc with hc | hc
          · obtain ⟨k, hk, hp⟩ := hr.covers c hc
            obtain ⟨k', hk', hp'⟩ := hcov k (List.mem_cons_of_mem _ hk)
            exact ⟨k', hk', hp.trans hp'⟩
          · rw [List.mem_singleton.mp hc]
            exact hcov chain List.mem_cons_self
      obtain ⟨kept'', hok', hr''⟩ := ih (done ++ [chain]) kept'
        (fun c hc => htodo c (List.mem_cons_of_mem _ hc)) hdone' hr'
      refine ⟨kept'', ?_, ?_⟩
      · rw [List.foldlM_cons, hok]
        exact hok'
      · rwa [List.append_assoc] at hr''
  obtain ⟨kept, hok, hr⟩ := hfold chains [] [] h (by simp)
    ⟨List.Subset.refl _, by simp, List.Pairwise.nil⟩
  exact ⟨kept, hok, hr⟩

theorem branches_finite (chains : List ValidatedChain) : (b.branches chains).Finite :=
  (chains.finite_toSet.image b.branch).subset (fun _ ⟨c, hc, hx⟩ => ⟨c, hc, hx⟩)

theorem mem_branches {chains : List ValidatedChain} {c : ValidatedChain} (hc : c ∈ chains) :
    b.branch c ∈ b.branches chains := ⟨c, hc, rfl⟩

theorem Reduced.sameTop {chains kept : List ValidatedChain} (h : Reduced chains kept) :
    SameTop (b.branches kept) (b.branches chains) := by
  refine (SameTop.of_subset ?_ ?_).symm
  · intro x hx
    obtain ⟨c, hc, rfl⟩ := hx
    exact mem_branches (h.subset hc)
  · intro x hx
    obtain ⟨c, hc, rfl⟩ := hx
    obtain ⟨k, hk, hp⟩ := h.covers c hc
    exact ⟨b.branch k, mem_branches hk, Branch.le_of_prefix hp⟩

/-- Chains of a reduced list that lie on each other are at one place of it. -/
theorem Reduced.index_eq {chains kept : List ValidatedChain} (h : Reduced chains kept) {i j : ℕ}
    {c d : ValidatedChain} (hi : c ∈ kept[i]?) (hj : d ∈ kept[j]?)
    (hp : c.eventDigests <+: d.eventDigests) : i = j := by
  have hap := List.pairwise_iff_getElem.mp h.apart
  obtain ⟨hi', rfl⟩ := List.getElem?_eq_some_iff.mp hi
  obtain ⟨hj', rfl⟩ := List.getElem?_eq_some_iff.mp hj
  rcases Nat.lt_trichotomy i j with hlt | heq | hgt
  · exact absurd hp (hap i j hi' hj' hlt).1
  · exact heq
  · exact absurd hp (hap j i hj' hi' hgt).2

/-- Over a reduced list the undefeated chains are the maximal branches. -/
theorem maximal_iff_undefeated {chains kept : List ValidatedChain} (h : Reduced chains kept)
    (x : Branch b.label) : Maximal (· ∈ b.branches kept) x ↔
      ∃ i ∈ (b.tournament kept).undefeated, ∃ c ∈ kept[i]?, b.branch c = x := by
  simp only [mem_undefeated_iff]
  constructor
  · intro hx
    obtain ⟨c, hc, rfl⟩ := hx.prop
    obtain ⟨i, hi⟩ := List.mem_iff_getElem?.mp hc
    refine ⟨i, ⟨c, hi, ?_⟩, c, hi, rfl⟩
    intro d hd hb
    have hlt : b.branch c < b.branch d := Branch.lt_of_beats hb
    exact absurd (hx.le_of_ge (mem_branches hd) hlt.le) (not_le_of_gt hlt)
  · intro hx
    obtain ⟨i, ⟨c, hi, hbeat⟩, c', hi', rfl⟩ := hx
    rw [Option.mem_def.mp hi, Option.mem_some_iff] at hi'
    subst hi'
    refine ⟨mem_branches (List.mem_of_getElem? hi), ?_⟩
    intro y hy hle
    obtain ⟨d, hd, rfl⟩ := hy
    obtain ⟨j, hj⟩ := List.mem_iff_getElem?.mp hd
    rcases hle with hp | hb
    · obtain rfl := h.index_eq hi hj hp
      rw [Option.mem_def.mp hi, Option.some.injEq] at hj
      rw [hj]
    · exact absurd hb (hbeat d hd)

/-- The only undefeated chain of a reduced list beats every other. -/
theorem winner_beats {chains kept : List ValidatedChain} (h : Reduced chains kept) {i j : ℕ}
    (hu : (b.tournament kept).undefeated = [i]) (hj : j < kept.length) (hne : j ≠ i) :
    (b.tournament kept).beats i j = true := by
  obtain ⟨m, hle, hm⟩ := (branches_finite kept).exists_le_maximal
    (mem_branches (b := b) (List.getElem_mem hj))
  obtain ⟨i', hi', c, hc, rfl⟩ := (maximal_iff_undefeated h m).mp hm
  rw [hu, List.mem_singleton] at hi'
  subst hi'
  rw [tournament_beats_iff]
  refine ⟨c, hc, kept[j], List.getElem?_eq_getElem hj, ?_⟩
  rcases hle with hp | hb
  · exact absurd (h.index_eq (List.getElem?_eq_getElem hj) hc hp) hne
  · exact hb

/-- The pairs a strictest pair is taken over. -/
theorem mem_pairs_iff (t : Tournament) (among : List ℕ) (d : Divergence) :
    d ∈ ((among.flatMap (fun i => among.map (fun j => (i, j)))).filter (fun p => p.1 < p.2)).filterMap
        (fun p => t.divergence p.1 p.2) ↔
      ∃ p ∈ among, ∃ q ∈ among, p < q ∧ t.divergence p q = some d := by
  simp only [List.mem_filterMap, List.mem_filter, List.mem_flatMap, List.mem_map,
    decide_eq_true_eq, Prod.exists, Prod.mk.injEq]
  constructor
  · intro hd
    obtain ⟨p, q, ⟨⟨_, hp, _, hq, rfl, rfl⟩, hlt⟩, hd⟩ := hd
    exact ⟨_, hp, _, hq, hlt, hd⟩
  · intro hd
    obtain ⟨p, hp, q, hq, hlt, hd⟩ := hd
    exact ⟨p, q, ⟨⟨p, hp, q, hq, rfl, rfl⟩, hlt⟩, hd⟩

/-- Two places of a reduced list diverge. -/
theorem Reduced.divergence_eq {chains kept : List ValidatedChain} (h : Reduced chains kept)
    {p q : ℕ} {x y : ValidatedChain} (hx : x ∈ kept[p]?) (hy : y ∈ kept[q]?) (hne : p ≠ q) :
    b.branch x ≠ b.branch y ∧
      (b.tournament kept).divergence p q = some (b.divergence x.eventDigests y.eventDigests) := by
  have hxy : ¬ x.eventDigests <+: y.eventDigests := fun hpre => hne (h.index_eq hx hy hpre)
  have hyx : ¬ y.eventDigests <+: x.eventDigests := fun hpre => hne (h.index_eq hy hx hpre).symm
  constructor
  · intro he
    have he' : x.eventDigests = y.eventDigests := congrArg Branch.elements he
    exact hxy (by rw [he'])
  · exact (tournament_divergence_iff kept p q _).mpr ⟨x, hx, y, hy, hxy, hyx, rfl⟩

/-- The strictest pair of the undefeated chains is the strictest of the maximal branches. -/
theorem strictest_of_undefeated {chains kept : List ValidatedChain} (h : Reduced chains kept)
    {i j : ℕ} {rest : List ℕ} (hu : (b.tournament kept).undefeated = i :: j :: rest) :
    ∃ d, (b.tournament kept).strictest (i :: j :: rest) = some d ∧
      b.Strictest (b.branches kept) d := by
  have hmax := maximal_iff_undefeated (b := b) h
  rw [hu] at hmax
  have hchain : ∀ p ∈ i :: j :: rest, ∃ x, x ∈ kept[p]? := by
    intro p hp
    rw [← hu, mem_undefeated_iff] at hp
    obtain ⟨x, hx, _⟩ := hp
    exact ⟨x, hx⟩
  unfold Tournament.strictest
  obtain ⟨d, hd⟩ : ∃ d, d ∈ List.argmin Tournament.strictness _ := by
    apply Option.isSome_iff_exists.mp
    rw [Option.isSome_iff_ne_none, ne_eq, List.argmin_eq_none]
    have hi : i ∈ i :: j :: rest := by simp
    have hj : j ∈ i :: j :: rest := by simp
    have hlt : i < j := by
      have hpw := undefeated_pairwise (b.tournament kept)
      rw [hu] at hpw
      exact (List.pairwise_cons.mp hpw).1 j (by simp)
    obtain ⟨x, hx⟩ := hchain i hi
    obtain ⟨y, hy⟩ := hchain j hj
    have hd := (h.divergence_eq (b := b) hx hy hlt.ne).2
    exact List.ne_nil_of_mem ((mem_pairs_iff _ _ _).mpr ⟨i, hi, j, hj, hlt, hd⟩)
  refine ⟨d, hd, ?_, ?_⟩
  · obtain ⟨p, hp, q, hq, hlt, hpq⟩ := (mem_pairs_iff _ _ d).mp (List.argmin_mem hd)
    obtain ⟨x, hx⟩ := hchain p hp
    obtain ⟨y, hy⟩ := hchain q hq
    obtain ⟨hne, hxy⟩ := h.divergence_eq (b := b) hx hy hlt.ne
    rw [hpq, Option.some.injEq] at hxy
    exact ⟨b.branch x, b.branch y, (hmax _).mpr ⟨p, hp, x, hx, rfl⟩,
      (hmax _).mpr ⟨q, hq, y, hy, rfl⟩, hne, hxy⟩
  · intro x y hx hy hne
    have hranks := (tied_of_maximal hx hy hne).2.2
    obtain ⟨p, hp, x, hxk, rfl⟩ := (hmax x).mp hx
    obtain ⟨q, hq, y, hyk, rfl⟩ := (hmax y).mp hy
    -- Whichever index comes first, the tied pair has one divergence.
    rcases Nat.lt_trichotomy p q with hlt | heq | hgt
    · have hd' := (h.divergence_eq (b := b) hxk hyk hlt.ne).2
      exact List.le_of_mem_argmin ((mem_pairs_iff _ _ _).mpr ⟨p, hp, q, hq, hlt, hd'⟩) hd
    · subst heq
      rw [Option.mem_def.mp hxk, Option.mem_some_iff] at hyk
      exact absurd (by rw [hyk]) hne
    · have hd' := (h.divergence_eq (b := b) hyk hxk hgt.ne).2
      rw [← divergence_comm hranks]
      exact List.le_of_mem_argmin ((mem_pairs_iff _ _ _).mpr ⟨q, hq, p, hp, hgt, hd'⟩) hd

/-- The heads of the undefeated chains, in ascending order, are those of the maximal branches. -/
theorem heads_of_undefeated {chains kept : List ValidatedChain} (h : Reduced chains kept)
    (hk : ∀ c ∈ kept, OnBook b c) :
    ∃ heads, mapEach (fun i => okOr ((kept[i]?).map (·.headDigest)) ResolveError.noResolution)
        (b.tournament kept).undefeated = .ok heads ∧
      heads.length = (b.tournament kept).undefeated.length ∧
      (heads.insertionSort (· ≤ ·)).Pairwise (· < ·) ∧
      ∀ head, head ∈ heads.insertionSort (· ≤ ·) ↔ b.TopHead (b.branches kept) head := by
  -- An undefeated index is that of a kept chain, so no head is missing.
  have hchain : ∀ i ∈ (b.tournament kept).undefeated, ∃ c, c ∈ kept[i]? := by
    intro i hi
    obtain ⟨c, hc, _⟩ := (mem_undefeated_iff kept i).mp hi
    exact ⟨c, hc⟩
  have hok := mapEach_eq_ok
    (f := fun i => okOr ((kept[i]?).map (·.headDigest)) ResolveError.noResolution)
    (g := fun i => ((kept[i]?).map (·.headDigest)).getD 0) (l := (b.tournament kept).undefeated)
    (by
      intro i hi
      obtain ⟨c, hc⟩ := hchain i hi
      rw [Option.mem_def.mp hc]
      rfl)
  refine ⟨_, hok, by rw [List.length_map], ?_, ?_⟩
  · -- Different undefeated chains have different heads, so the ascent is strict.
    have hnodup : ((b.tournament kept).undefeated.map
        (fun i => ((kept[i]?).map (·.headDigest)).getD 0)).Nodup := by
      apply List.Nodup.map_on
      · intro i hi j hj he
        obtain ⟨c, hc⟩ := hchain i hi
        obtain ⟨d, hd⟩ := hchain j hj
        rw [Option.mem_def.mp hc, Option.mem_def.mp hd] at he
        have hdig := (hk c (List.mem_of_getElem? hc)).eq_of_head (hk d (List.mem_of_getElem? hd)) he
        exact h.index_eq hc hd (by rw [hdig])
      · exact (undefeated_pairwise _).imp (fun hlt => hlt.ne)
    have hle := List.pairwise_insertionSort (α := Digest) (· ≤ ·)
      ((b.tournament kept).undefeated.map (fun i => ((kept[i]?).map (·.headDigest)).getD 0))
    have hne := ((List.perm_insertionSort (α := Digest) (· ≤ ·) _).nodup_iff).mpr hnodup
    refine (hle.and hne).imp ?_
    intro x y hxy
    exact BitVec.lt_of_le_ne hxy.1 hxy.2
  · intro head
    rw [List.mem_insertionSort, List.mem_map]
    unfold TopHead
    simp only [maximal_iff_undefeated (b := b) h]
    constructor
    · intro hm
      obtain ⟨i, hi, rfl⟩ := hm
      obtain ⟨c, hc⟩ := hchain i hi
      refine ⟨b.branch c, ⟨i, hi, c, hc, rfl⟩, ?_⟩
      rw [branch_elements, c.headDigest_eq, Option.mem_def.mp hc]
      rfl
    · intro hm
      obtain ⟨_, ⟨i, hi, c, hc, rfl⟩, hlast⟩ := hm
      refine ⟨i, hi, ?_⟩
      rw [branch_elements, c.headDigest_eq, Option.some.injEq] at hlast
      rw [Option.mem_def.mp hc, ← hlast]
      rfl

/-- The decision over a reduced list that holds a chain is what its branches call for. -/
theorem decide_resolves {chains kept : List ValidatedChain} (h : Reduced chains kept)
    (hk : ∀ c ∈ kept, OnBook b c) (hne : kept ≠ []) :
    ∃ decision r, (b.tournament kept).decide = .ok decision ∧ decision.resolution kept = .ok r ∧
      b.Resolves (b.branches kept) r := by
  have hmax := maximal_iff_undefeated (b := b) h
  obtain ⟨heads, hheads, hlen, hlt, hmem⟩ := heads_of_undefeated h hk
  unfold Tournament.decide
  -- None undefeated cannot be, one is the winner, several are a tie.
  match hu : (b.tournament kept).undefeated with
  | [] =>
    obtain ⟨c, hc⟩ := List.exists_mem_of_ne_nil kept hne
    obtain ⟨m, _, hm⟩ := (branches_finite kept).exists_le_maximal (mem_branches (b := b) hc)
    obtain ⟨i, hi, _⟩ := (hmax m).mp hm
    rw [hu] at hi
    exact absurd hi List.not_mem_nil
  | [i] =>
    have hall : (List.range (b.tournament kept).len).all
        (fun j => j = i || (b.tournament kept).beats i j) = true := by
      rw [List.all_eq_true]
      intro j hj
      rw [tournament_len, List.mem_range] at hj
      by_cases hji : j = i
      · simp [hji]
      · simp [winner_beats h hu hj hji]
    obtain ⟨c, hc, _⟩ := (mem_undefeated_iff kept i).mp (by rw [hu]; exact List.mem_singleton_self i)
    refine ⟨.winner i, .winner c.headDigest, if_pos hall, ?_, b.branch c, ?_, c.headDigest_eq⟩
    · simp only [Decision.resolution, Option.mem_def.mp hc]
      rfl
    · intro x
      rw [hmax, hu]
      constructor
      · intro hx
        obtain ⟨j, hj, d, hd, rfl⟩ := hx
        rw [List.mem_singleton.mp hj, Option.mem_def.mp hc, Option.mem_some_iff] at hd
        rw [hd]
      · intro hx
        exact ⟨i, List.mem_singleton_self i, c, hc, hx.symm⟩
  | i :: j :: rest =>
    obtain ⟨d, hd, hstrict⟩ := strictest_of_undefeated h hu
    rw [hu] at hheads hlen
    refine ⟨.tie (i :: j :: rest) d, .tie (.of d.ranks.1) (heads.insertionSort (· ≤ ·))
      d.sharedPrefixHead d.forkPosition, ?_, ?_, ?_, hlt, hmem, d, hstrict, rfl, rfl, rfl⟩
    · simp only [hd]
    · simp only [Decision.resolution, hheads]
      rfl
    · rw [List.length_insertionSort, hlen]
      simp

/-- Over chains on one book the resolution always decides, and decides what the
set of branches calls for. -/
theorem resolveSet_ok {chains : List ValidatedChain} (h : ∀ c ∈ chains, OnBook b c) :
    ∃ r, resolveSet chains = .ok r ∧ b.Resolves (b.branches chains) r := by
  obtain ⟨kept, hred, hr⟩ := reduce_ok h
  have hk : ∀ c ∈ kept, OnBook b c := fun c hc => h c (hr.subset hc)
  by_cases hne : kept = []
  · subst hne
    refine ⟨.empty, ?_, resolves_congr hr.sameTop ?_⟩
    · simp only [resolveSet, hred]
      rfl
    · simp [Resolves, branches]
  · obtain ⟨decision, r, hdec, hres, hr'⟩ := decide_resolves hr hk hne
    refine ⟨r, ?_, resolves_congr hr.sameTop hr'⟩
    have hempty : kept.isEmpty = false := by simpa using hne
    simp only [resolveSet, hred, bind_ok_iff, mapError_ok_iff]
    refine ⟨kept, rfl, ?_⟩
    simp only [hempty, Bool.false_eq_true, if_false, bind_ok_iff, mapError_ok_iff]
    exact ⟨_, tournament_of hk, decision, hdec, hres⟩

/-- The result is what the branches call for, and nothing else. -/
theorem resolveSet_eq_iff {chains : List ValidatedChain} (h : ∀ c ∈ chains, OnBook b c)
    (r : SetResolution) : resolveSet chains = .ok r ↔ b.Resolves (b.branches chains) r := by
  obtain ⟨r', hok, hres⟩ := resolveSet_ok h
  constructor
  · intro he
    rw [hok, Except.ok.injEq] at he
    rwa [← he]
  · intro hr
    rw [hok, hres.unique hr]

/-- Lists whose branches cover each other resolve alike. -/
theorem resolveSet_congr {chains chains' : List ValidatedChain} (h : ∀ c ∈ chains, OnBook b c)
    (h' : ∀ c ∈ chains', OnBook b c) (hs : SameTop (b.branches chains) (b.branches chains')) :
    resolveSet chains = resolveSet chains' := by
  obtain ⟨r, hok, hres⟩ := resolveSet_ok h
  rw [hok, (resolveSet_eq_iff h' r).mpr (resolves_congr hs hres)]

end Book

end ScpCore.Kel
