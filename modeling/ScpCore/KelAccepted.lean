import ScpCore.KelRefit
import ScpCore.KelHolder

/-! The chain a validating store accepts: of the held chains that no held chain
beats, the one held earliest. An arrival decides it once, before the held chains
are placed again, so the byte bound can drop the chain the decision rested on. -/

namespace ScpCore.Kel

/-- No chain of `held` beats `x`. -/
def Book.Unbeaten (b : Book) (held : List (ℕ × List Digest)) (x : List Digest) : Prop :=
  ∀ u ∈ held, ¬ Beats b.label u.2 x

/-- The unbeaten chain held earliest, each chain given by its moment and digests. -/
structure Book.First (b : Book) (held : List (ℕ × List Digest)) (t : ℕ × List Digest) : Prop where
  mem : t ∈ held
  unbeaten : b.Unbeaten held t.2
  earliest : ∀ u ∈ held, b.Unbeaten held u.2 → t.1 ≤ u.1

/-- The held chains as moments and digests, the basis first. -/
def RetentionSet.stamps (s : RetentionSet) : List (ℕ × List Digest) :=
  (s.basisObserved, s.basis.chain.eventDigests) ::
    s.suffixes.map (fun x => (x.observed, x.chain.eventDigests))

/-- The held chains once `chain` is among them: what it extends gives way to it,
and it takes the moment of that chain or a new one. -/
def RetentionSet.arrived (s : RetentionSet) (chain : ValidatedChain) : List (ℕ × ValidatedChain) :=
  s.entries.filter (fun t => ¬ t.2.eventDigests <+: chain.eventDigests) ++
    [(((s.entries.find? (fun t => t.2.eventDigests <+: chain.eventDigests)).map Prod.fst).getD
      s.nextObserved, s.heldCopies chain)]

/-- `t` is the chain to accept of `held`: no other beats it, and of the chains none
beats it was held earliest. -/
structure Leads (held : List (ℕ × ValidatedChain)) (t : ℕ × ValidatedChain) : Prop where
  mem : t ∈ held
  unbeaten : ∀ u ∈ held, chainBeats u.2 t.2 ≠ .ok true
  earliest : ∀ u ∈ held, (∀ v ∈ held, chainBeats v.2 u.2 ≠ .ok true) → t.1 ≤ u.1

/-- Where a new chain that the bounds do not refuse makes the store accept another
branch, that branch beats every chain held before it, or all the chains fit the
byte bound when their forks are counted from it. -/
def RetentionSet.SafeArrival (s : RetentionSet) (chain : ValidatedChain) : Prop :=
  (∀ c ∈ s.chains, ¬ chain.eventDigests <+: c.eventDigests) →
  (∀ rank, (s.admit_ chain).1 ≠ .ok (.refused rank)) →
  ∀ w ∈ s.arrived chain, Leads (s.arrived chain) w →
    ¬ s.basis.chain.eventDigests <+: w.2.eventDigests →
    (∀ u ∈ s.arrived chain, u.1 < w.1 → chainBeats w.2 u.2 = .ok true) ∨
      unionLen ((s.arrived chain).flatMap (fun u =>
        u.2.unitLensFrom (u.2.sharedPrefixLen w.2))) ≤ s.bounds.bytes

/-- A store's set: an accepted basis and no tied prefix. -/
structure RetentionSet.Stored (b : Book) (s : RetentionSet) : Prop where
  inv : s.Inv b
  accepted : s.basis.kind = .accepted
  untied : s.tiePrefix = none

section First
variable {b : Book} {s : RetentionSet} {held : List (ℕ × List Digest)}

theorem Book.Unbeaten.mono {held' : List (ℕ × List Digest)} (hsub : held' ⊆ held) {x : List Digest}
    (h : b.Unbeaten held x) : b.Unbeaten held' x :=
  fun u hu => h u (hsub hu)

theorem stamps_moments (s : RetentionSet) : s.stamps.map Prod.fst = s.moments := by
  simp [RetentionSet.stamps, RetentionSet.moments]

theorem stamps_digests (s : RetentionSet) :
    s.stamps.map Prod.snd = s.chains.map ValidatedChain.eventDigests := by
  simp [RetentionSet.stamps, RetentionSet.chains]

/-- Two stamps with one moment are one stamp. -/
theorem RetentionSet.Inv.stamp_eq (h : s.Inv b) {t u : ℕ × List Digest} (ht : t ∈ s.stamps)
    (hu : u ∈ s.stamps) (hm : t.1 = u.1) : t = u := by
  have hnodup : (s.stamps.map Prod.fst).Nodup := by
    rw [stamps_moments]
    exact h.moments
  exact List.inj_on_of_nodup_map hnodup ht hu hm

theorem Book.First.unique (h : s.Inv b) {t u : ℕ × List Digest} (ht : b.First s.stamps t)
    (hu : b.First s.stamps u) : t = u :=
  h.stamp_eq ht.mem hu.mem (le_antisymm (ht.earliest u hu.mem hu.unbeaten)
    (hu.earliest t ht.mem ht.unbeaten))

namespace RetentionSet.Stored
variable (h : s.Stored b)
include h

/-- No suffix of a store's set extends the accepted chain. -/
theorem not_extends {x : RetainedSuffix} (hx : x ∈ s.suffixes) :
    ¬ s.basis.chain.eventDigests <+: x.chain.eventDigests := by
  intro hp
  have hrank := h.inv.ranks x hx
  rw [rankPlacement_eq h.inv.onBook (h.inv.onBook.suffixes x hx), Book.placement,
    if_neg (h.inv.offBasis x hx), if_pos ⟨h.accepted, hp⟩, h.untied] at hrank
  cases hrank

theorem reduced : Book.Reduced s.chains s.chains := by
  refine ⟨fun c hc => hc, fun c hc => ⟨c, hc, List.prefix_rfl⟩, ?_⟩
  rw [RetentionSet.chains, List.pairwise_cons]
  refine ⟨?_, ?_⟩
  · intro d hd
    obtain ⟨x, hx, rfl⟩ := List.mem_map.mp hd
    exact ⟨h.not_extends hx, h.inv.offBasis x hx⟩
  · rw [List.pairwise_map]
    exact h.inv.apart

/-- Of two held chains neither leads the other. -/
theorem stamp_apart {t u : ℕ × List Digest} (ht : t ∈ s.stamps) (hu : u ∈ s.stamps)
    (hp : t.2 <+: u.2) : t = u := by
  obtain ⟨i, hi⟩ := List.mem_iff_getElem?.mp ht
  obtain ⟨j, hj⟩ := List.mem_iff_getElem?.mp hu
  have hchain {i : ℕ} {t : ℕ × List Digest} (hi : s.stamps[i]? = some t) :
      ∃ c ∈ s.chains[i]?, c.eventDigests = t.2 := by
    have hd := congrArg (·[i]?) (stamps_digests s)
    simp only [List.getElem?_map, hi, Option.map_some] at hd
    obtain ⟨c, hc, hcd⟩ := Option.map_eq_some_iff.mp hd.symm
    exact ⟨c, hc, hcd⟩
  obtain ⟨c, hc, hcd⟩ := hchain hi
  obtain ⟨d, hd, hdd⟩ := hchain hj
  obtain rfl := h.reduced.index_eq hc hd (by rwa [hcd, hdd])
  rw [hi, Option.some.injEq] at hj
  exact hj

omit h in
/-- Unbeaten among the stamps is unbeaten among the chains. -/
theorem unbeaten_iff {x : List Digest} : b.Unbeaten s.stamps x ↔
    ∀ y ∈ s.chains, ¬ Beats b.label y.eventDigests x := by
  have hmem : ∀ d, d ∈ s.stamps.map Prod.snd ↔ d ∈ s.chains.map ValidatedChain.eventDigests := by
    rw [stamps_digests]
    simp
  simp only [List.mem_map] at hmem
  constructor
  · intro hu y hy
    obtain ⟨t, ht, hty⟩ := (hmem y.eventDigests).mpr ⟨y, hy, rfl⟩
    rw [← hty]
    exact hu t ht
  · intro hu t ht
    obtain ⟨y, hy, hyt⟩ := (hmem t.2).mp ⟨t, ht, rfl⟩
    rw [← hyt]
    exact hu y hy

omit h in
/-- The undefeated indices are those of the unbeaten stamps. -/
theorem mem_undefeated {i : ℕ} : i ∈ (b.tournament s.chains).undefeated ↔
    ∃ t, s.stamps[i]? = some t ∧ b.Unbeaten s.stamps t.2 := by
  have hget : (s.stamps[i]?).map Prod.snd = (s.chains[i]?).map ValidatedChain.eventDigests := by
    rw [← List.getElem?_map, ← List.getElem?_map, stamps_digests]
  rw [Book.mem_undefeated_iff]
  constructor
  · intro hi
    obtain ⟨c, hc, hbeat⟩ := hi
    rw [Option.mem_def.mp hc, Option.map_some, Option.map_eq_some_iff] at hget
    obtain ⟨t, ht, htc⟩ := hget
    exact ⟨t, ht, unbeaten_iff.mpr (by rwa [htc])⟩
  · intro hi
    obtain ⟨t, ht, hbeat⟩ := hi
    rw [ht, Option.map_some, eq_comm, Option.map_eq_some_iff] at hget
    obtain ⟨c, hc, hct⟩ := hget
    exact ⟨c, hc, by rw [hct]; exact unbeaten_iff.mp hbeat⟩

omit h in
theorem moment_at {i : ℕ} {t : ℕ × List Digest} (ht : s.stamps[i]? = some t) :
    ((s.basisObserved :: s.suffixes.map (·.observed))[i]?).getD u64Max = t.1 := by
  have hm := congrArg (·[i]?) (stamps_moments s)
  simp only [List.getElem?_map, ht, Option.map_some] at hm
  change (s.moments[i]?).getD u64Max = t.1
  rw [← hm]
  rfl

/-- The index a decision comes down to is that of the earliest unbeaten chain. -/
theorem decided_index : ∃ index t, s.stamps[index]? = some t ∧ b.First s.stamps t ∧
    s.displacingSuffix = .ok (if index = 0 then none else s.suffixes[index-1]?) := by
  have hon : ∀ c ∈ s.chains, Kel.OnBook b c := h.inv.onBook.chains
  obtain ⟨decision, r, hdecide, -, -⟩ :=
    Book.decide_resolves h.reduced hon (by simp [RetentionSet.chains])
  have hof : (Tournament.of s.chains).mapError ResolveError.unrelated =
      .ok (b.tournament s.chains) := by
    rw [Book.tournament_of hon]
    rfl
  unfold Tournament.decide at hdecide
  split at hdecide
  · rename_i winner hu
    split_ifs at hdecide with hall
    obtain ⟨t, ht, hbeat⟩ := mem_undefeated.mp (by rw [hu]; exact List.mem_singleton_self winner)
    refine ⟨winner, t, ht, ⟨List.mem_of_getElem? ht, hbeat, ?_⟩, ?_⟩
    · intro u hmem hun
      obtain ⟨j, hj⟩ := List.mem_iff_getElem?.mp hmem
      have hju := mem_undefeated.mpr ⟨u, hj, hun⟩
      rw [hu, List.mem_singleton] at hju
      rw [hju, ht, Option.some.injEq] at hj
      rw [hj]
    · simp only [RetentionSet.displacingSuffix, hof, bind, Except.bind, Tournament.decide, hu,
        if_pos hall, pure, Except.pure]
  -- Of several undefeated chains the one observed first is taken.
  · rename_i i j rest hu
    split at hdecide
    · rename_i d hd
      obtain ⟨index, hargmin⟩ : ∃ index, (i :: j :: rest).argmin (fun index =>
          ((s.basisObserved :: s.suffixes.map (·.observed))[index]?).getD u64Max) = some index := by
        apply Option.ne_none_iff_exists'.mp
        rw [ne_eq, List.argmin_eq_none]
        simp
      have hmem := List.argmin_mem (Option.mem_def.mpr hargmin)
      obtain ⟨t, ht, hbeat⟩ := mem_undefeated.mp (by rw [hu]; exact hmem)
      refine ⟨index, t, ht, ⟨List.mem_of_getElem? ht, hbeat, ?_⟩, ?_⟩
      · intro u humem hun
        obtain ⟨k, hk⟩ := List.mem_iff_getElem?.mp humem
        have hku := mem_undefeated.mpr ⟨u, hk, hun⟩
        rw [hu] at hku
        have hle := List.le_of_mem_argmin hku (Option.mem_def.mpr hargmin)
        rwa [moment_at ht, moment_at hk] at hle
      · simp only [RetentionSet.displacingSuffix, hof, bind, Except.bind, Tournament.decide, hu, hd,
          hargmin, okOr, Option.elim_some, pure, Except.pure]
    · cases hdecide
  · cases hdecide

/-- The store's re-decision names the earliest unbeaten chain. -/
theorem displacing : ∃ found, s.displacingSuffix = .ok found ∧
    (found = none ∧ b.First s.stamps (s.basisObserved, s.basis.chain.eventDigests) ∨
      ∃ x ∈ s.suffixes, found = some x ∧
        b.First s.stamps (x.observed, x.chain.eventDigests)) := by
  obtain ⟨index, t, ht, hfirst, hfound⟩ := h.decided_index
  cases index with
  | zero =>
    obtain rfl : (s.basisObserved, s.basis.chain.eventDigests) = t := Option.some.inj ht
    exact ⟨none, hfound, .inl ⟨rfl, hfirst⟩⟩
  | succ n =>
    have hsuffix : (s.suffixes[n]?).map (fun x => (x.observed, x.chain.eventDigests)) = some t := by
      rw [← List.getElem?_map]
      exact ht
    obtain ⟨x, hx, rfl⟩ := Option.map_eq_some_iff.mp hsuffix
    refine ⟨some x, ?_, .inr ⟨x, List.mem_of_getElem? hx, rfl, hfirst⟩⟩
    rw [hfound, if_neg (by omega), Nat.add_sub_cancel, hx]

/-- Nothing displaces the accepted chain exactly where it is the earliest unbeaten one. -/
theorem displacing_none_iff : s.displacingSuffix = .ok none ↔
    b.First s.stamps (s.basisObserved, s.basis.chain.eventDigests) := by
  obtain ⟨found, hfound, ⟨rfl, hfirst⟩ | ⟨x, hx, rfl, hfirst⟩⟩ := h.displacing
  · exact ⟨fun _ => hfirst, fun _ => hfound⟩
  · constructor
    · intro hnone
      rw [hfound] at hnone
      cases hnone
    · intro hbasis
      exfalso
      have heq := hfirst.unique h.inv hbasis
      apply h.inv.offBasis x hx
      rw [(Prod.mk.inj heq).2]

end RetentionSet.Stored

end First

section Replaced
variable {b : Book} {s s' : RetentionSet}

theorem mem_stamps_iff {t : ℕ × List Digest} :
    t ∈ s.stamps ↔ ∃ c, (t.1, c) ∈ s.entries ∧ c.eventDigests = t.2 := by
  simp only [RetentionSet.stamps, List.mem_cons, List.mem_map, mem_entries, Prod.mk.injEq]
  constructor
  · intro h
    rcases h with rfl | ⟨x, hx, rfl⟩
    · exact ⟨_, .inr ⟨rfl, rfl⟩, rfl⟩
    · exact ⟨_, .inl ⟨x, hx, rfl, rfl⟩, rfl⟩
  · intro h
    obtain ⟨c, ⟨x, hx, hm, rfl⟩ | ⟨hm, rfl⟩, hd⟩ := h
    · exact .inr ⟨x, hx, Prod.ext hm hd⟩
    · exact .inl (Prod.ext hm hd.symm)

/-- A chain that extends no suffix enters with the moment it brings. -/
theorem Places.stamps {c : ValidatedChain} {moment : ℕ} {admission : Admission}
    (h : Places b s c (some moment) admission s')
    (hapart : ∀ x ∈ s.suffixes, ¬ x.chain.eventDigests <+: c.eventDigests) :
    s'.stamps ⊆ s.stamps ++ [(moment, c.eventDigests)] := by
  cases h with
  | held => exact List.subset_append_left _ _
  | refused => exact List.subset_append_left _ _
  | @entered rank fork extended evict next h =>
    have hnone : extended = none := by
      rcases h.extends_ with ⟨hnone, -⟩ | ⟨i, x, hx, -, hp⟩
      · exact hnone
      · exact absurd hp (hapart x (List.mem_of_getElem? hx))
    subst hnone
    intro t ht
    simp only [RetentionSet.stamps, List.map_append, List.map_cons, List.map_nil, List.mem_cons,
      List.mem_append, List.not_mem_nil, or_false] at ht ⊢
    rcases ht with rfl | ht | rfl
    · exact .inl (.inl rfl)
    · obtain ⟨x, hx, rfl⟩ := List.mem_map.mp ht
      exact .inl (.inr (List.mem_map.mpr ⟨x, (staying_sublist s evict none).subset hx, rfl⟩))
    · exact .inr (Prod.ext rfl (heldCopies_eventDigests s c))

theorem Places.suffix_of {c : ValidatedChain} {observed : Option ℕ} {admission : Admission}
    (h : Places b s c observed admission s') {x : RetainedSuffix} (hx : x ∈ s'.suffixes) :
    x ∈ s.suffixes ∨ x.chain.eventDigests = c.eventDigests := by
  cases h with
  | held => exact .inl hx
  | refused => exact .inl hx
  | @entered rank fork extended evict next h =>
    rcases List.mem_append.mp hx with hx | hx
    · exact .inl ((staying_sublist s evict extended).subset hx)
    · rw [List.mem_singleton.mp hx]
      exact .inr (heldCopies_eventDigests s c)

/-- Chains that lie apart enter with the moments they bring. -/
theorem placeAll_stamps {todo : List (ℕ × ValidatedChain)} {report report' : Rerank}
    (hs : s.OnBook b) (hbook : ∀ t ∈ todo, OnBook b t.2)
    (hapart : ∀ t ∈ todo, ∀ x ∈ s.suffixes, ¬ x.chain.eventDigests <+: t.2.eventDigests)
    (htodo : todo.Pairwise (fun t u => ¬ t.2.eventDigests <+: u.2.eventDigests))
    (h : RetentionSet.placeAll s report (todo.map (fun t => (some t.1, t.2))) = .ok (report', s')) :
    s'.stamps ⊆ s.stamps ++ todo.map (fun t => (t.1, t.2.eventDigests)) := by
  induction todo generalizing s report with
  | nil =>
    simp only [List.map_nil, RetentionSet.placeAll, Except.ok.injEq, Prod.mk.injEq] at h
    rw [h.2]
    exact List.subset_append_left _ _
  | cons t rest ih =>
    simp only [List.map_cons, RetentionSet.placeAll, bind_ok_iff, Prod.exists] at h
    obtain ⟨admission, placed, hplace, h⟩ := h
    have hp := place_cases hs (hbook t List.mem_cons_self) hplace
    obtain ⟨hhead, htail⟩ := List.pairwise_cons.mp htodo
    have hrest : ∀ u ∈ rest, ∀ x ∈ placed.suffixes,
        ¬ x.chain.eventDigests <+: u.2.eventDigests := by
      intro u hu x hx
      rcases hp.suffix_of hx with hx | hx
      · exact hapart u (List.mem_cons_of_mem _ hu) x hx
      · rw [hx]
        exact hhead u hu
    have hsub := ih (hp.onBook hs (hbook t List.mem_cons_self))
      (fun u hu => hbook u (List.mem_cons_of_mem _ hu)) hrest htail h
    intro u hu
    rw [List.map_cons]
    rcases List.mem_append.mp (hsub hu) with hu | hu
    · have hone := hp.stamps (hapart t List.mem_cons_self) hu
      simp only [List.mem_append, List.mem_cons, List.not_mem_nil, or_false] at hone ⊢
      tauto
    · exact List.mem_append_right _ (List.mem_cons_of_mem _ hu)

namespace RetentionSet.Stored
variable (h : s.Stored b)
include h

theorem entries_apart : s.entries.Pairwise (fun t u =>
    ¬ t.2.eventDigests <+: u.2.eventDigests ∧ ¬ u.2.eventDigests <+: t.2.eventDigests) := by
  have hperm := List.perm_insertionSort (fun a b : ℕ × ValidatedChain => a.1 ≤ b.1)
    (s.suffixes.map (fun suffix => (suffix.observed, suffix.chain)) ++
      [(s.basisObserved, s.basis.chain)])
  refine (hperm.pairwise_iff ?_).mpr ?_
  · intro t u htu
    exact htu.symm
  · rw [List.pairwise_append, List.pairwise_map]
    refine ⟨h.inv.apart, List.pairwise_singleton _ _, ?_⟩
    intro t ht u hu
    obtain ⟨x, hx, rfl⟩ := List.mem_map.mp ht
    rw [List.mem_singleton.mp hu]
    exact ⟨h.inv.offBasis x hx, h.not_extends hx⟩

/-- Of two entries neither leads the other. -/
theorem entry_apart {t u : ℕ × ValidatedChain} (ht : t ∈ s.entries) (hu : u ∈ s.entries)
    (hp : t.2.eventDigests <+: u.2.eventDigests) : t = u := by
  have hstamp : (t.1, t.2.eventDigests) = (u.1, u.2.eventDigests) :=
    h.stamp_apart (mem_stamps_iff.mpr ⟨t.2, ht, rfl⟩) (mem_stamps_iff.mpr ⟨u.2, hu, rfl⟩) hp
  have hnodup : (s.entries.map Prod.fst).Nodup :=
    (entries_moments_perm s).nodup_iff.mpr h.inv.moments
  exact List.inj_on_of_nodup_map hnodup ht hu (Prod.mk.inj hstamp).1

theorem entry_onBook {t : ℕ × ValidatedChain} (ht : t ∈ s.entries) : Kel.OnBook b t.2 :=
  h.inv.onBook.chains _ (mem_chains_iff_entry.mpr ⟨t.1, ht⟩)

/-- A move to a chain that one held chain lies on keeps that chain's moment and
brings no stamp that was not held. -/
theorem moves {target : ValidatedChain} (ht : Kel.OnBook b target) {t : ℕ × List Digest}
    (hmem : t ∈ s.stamps) (hon : t.2 <+: target.eventDigests)
    (honly : ∀ u ∈ s.stamps, u.2 <+: target.eventDigests → u = t) {report : Rerank}
    (hmove : s.rerank (.accepted target) = (.ok report, s')) :
    s'.Stored b ∧ s'.bounds = s.bounds ∧ s'.basisObserved = t.1 ∧
      s'.basis.chain.eventDigests = target.eventDigests ∧
      ∀ u ∈ s'.stamps, u = (t.1, target.eventDigests) ∨ u ∈ s.stamps := by
  have hbook : Kel.OnBook b (RetentionBasis.accepted target).chain := ht
  have hmoves := rerank_ok h.inv hbook hmove
  have hbasis : s'.basis.chain.eventDigests = target.eventDigests := by
    rw [hmoves.basis, mapChain_chain, heldCopies_eventDigests]
    rfl
  -- Exactly one stamp lies on the target, so the move finds its moment and no other.
  have hmoment : s'.basisObserved = t.1 := by
    obtain ⟨c₀, hc₀, hd₀⟩ := mem_stamps_iff.mp hmem
    rcases hmoves.moment with ⟨-, hoff⟩ | ⟨c, hc, hp, -⟩
    · refine absurd ?_ (hoff c₀ (mem_chains_iff_entry.mpr ⟨t.1, hc₀⟩))
      rw [hd₀]
      exact hon
    · have hstamp : (s'.basisObserved, c.eventDigests) ∈ s.stamps := mem_stamps_iff.mpr ⟨c, hc, rfl⟩
      rw [← honly _ hstamp hp]
  refine ⟨⟨hmoves.inv, ?_, hmoves.tiePrefix⟩, hmoves.bounds, hmoment, hbasis, ?_⟩
  · rw [hmoves.basis, mapChain_kind]
    rfl
  · -- The moved set is what placing the entries beside the new basis leaves.
    have hplaced : ∃ moment next, RetentionSet.placeAll
        ⟨(RetentionBasis.accepted target).mapChain s.heldCopies, moment, none, [], next, s.bounds⟩
        .default (s.entries.map (fun entry => (some entry.1, entry.2))) = .ok (report, s') := by
      have hto : s.moveTo (.accepted target) none = .ok (report, s') := by
        unfold RetentionSet.rerank at hmove
        split at hmove
        · cases hmove
        · split at hmove
          · cases hmove
          · rename_i hto
            cases hmove
            exact hto
      simp only [RetentionSet.moveTo, bind_ok_iff, Prod.exists] at hto
      obtain ⟨found, -, moment, next, -, hplace⟩ := hto
      exact ⟨moment, next, hplace⟩
    obtain ⟨moment, next, hplace⟩ := hplaced
    have hinit : (RetentionSet.mk ((RetentionBasis.accepted target).mapChain s.heldCopies) moment
        none [] next s.bounds).OnBook b := by
      refine ⟨?_, by simp, by simp⟩
      rw [mapChain_chain]
      exact heldCopies_onBook h.inv.onBook ht
    have hsub := placeAll_stamps hinit (fun u hu => h.entry_onBook hu) (by simp)
      (h.entries_apart.imp (fun hap => hap.1)) hplace
    intro u hu
    rcases List.mem_cons.mp hu with rfl | hu
    · left
      rw [hmoment, hbasis]
    · rcases List.mem_append.mp (hsub (List.mem_cons_of_mem _ hu)) with hu' | hu'
      · -- The stamp of the new basis is of no suffix.
        exfalso
        obtain ⟨x, hx, rfl⟩ := List.mem_map.mp hu
        apply hmoves.inv.offBasis x hx
        have hdig := (Prod.mk.inj (List.mem_singleton.mp hu')).2
        rw [hdig, mapChain_chain, heldCopies_eventDigests, hbasis]
        exact List.prefix_rfl
      · right
        obtain ⟨e, he, rfl⟩ := List.mem_map.mp hu'
        exact mem_stamps_iff.mpr ⟨e.2, he, rfl⟩

/-- Where the held chains fit beside the new basis, a move keeps them all. -/
theorem refits {target : ValidatedChain} (ht : Kel.OnBook b target)
    (hon : ∃ u ∈ s.stamps, u.2 <+: target.eventDigests)
    (hoff : ∀ u ∈ s.stamps, target.eventDigests <+: u.2 → u.2 <+: target.eventDigests)
    (hbytes : unionLen (s.entries.flatMap (fun t =>
      t.2.unitLensFrom (t.2.sharedPrefixLen target))) ≤ s.bounds.bytes) :
    ∃ report s', s.rerank (.accepted target) = (.ok report, s') ∧
      ∀ u ∈ s.stamps, ¬ u.2 <+: target.eventDigests → u ∈ s'.stamps := by
  have hbook := heldCopies_onBook h.inv.onBook ht
  have hentry : ∀ t ∈ s.entries, Kel.OnBook b t.2 := fun t hte => h.entry_onBook hte
  obtain ⟨size, hsize⟩ := h.inv.exists_sized ht
  have hdig : (s.heldCopies target).eventDigests = target.eventDigests :=
    heldCopies_eventDigests s target
  obtain ⟨found, hfound, hcase⟩ := onBasis_ok hbook hentry
  rw [hdig] at hcase
  obtain ⟨u₀, hu₀, hp₀⟩ := hon
  obtain ⟨c₀, hc₀, hd₀⟩ := mem_stamps_iff.mp hu₀
  obtain ⟨t, hte, rfl, hpt, -⟩ : ∃ t ∈ s.entries, found = some t.1 ∧
      t.2.eventDigests <+: target.eventDigests ∧
      ∀ u ∈ s.entries, u.2.eventDigests <+: target.eventDigests → t.1 ≤ u.1 := by
    rcases hcase with ⟨-, hnone⟩ | hsome
    · exact absurd (by rw [hd₀]; exact hp₀) (hnone _ hc₀)
    · exact hsome
  -- Every entry can be placed beside the new basis: none extends it, and both bounds hold.
  have hrefit : Refit b size ⟨.accepted (s.heldCopies target), t.1, none, [], s.nextObserved, s.bounds⟩
      s.entries := by
    refine ⟨⟨hbook, by simp, by simp⟩, hentry, ?_, ?_, ?_, by simp, h.entries_apart, by simp, ?_, ?_⟩
    · intro c hc
      rw [List.mem_singleton.mp hc]
      exact hsize _ List.mem_cons_self
    · intro u hu
      exact hsize _ (List.mem_cons_of_mem _ (mem_chains_iff_entry.mpr ⟨u.1, hu⟩))
    · intro u hu hoffu _ hext
      change ¬ u.2.eventDigests <+: (s.heldCopies target).eventDigests at hoffu
      change (s.heldCopies target).eventDigests <+: u.2.eventDigests at hext
      rw [hdig] at hoffu hext
      exact absurd (hoff (u.1, u.2.eventDigests) (mem_stamps_iff.mpr ⟨u.2, hu, rfl⟩) hext) hoffu
    · -- One entry lies on the target, so the others are no more than the suffixes were.
      have hlen : s.entries.length = s.suffixes.length+1 := by
        rw [RetentionSet.entries, List.length_insertionSort]
        simp
      have hcount := List.length_eq_countP_add_countP
        (fun u : ℕ × ValidatedChain => decide (¬ u.2.eventDigests <+: target.eventDigests))
        (l := s.entries)
      have hpos : 0 < s.entries.countP (fun u =>
          ¬ decide (¬ u.2.eventDigests <+: target.eventDigests) = true) := by
        rw [List.countP_pos_iff]
        exact ⟨t, hte, by simpa using hpt⟩
      have hbound := h.inv.count
      change 0 + s.entries.countP (fun u =>
        ¬ u.2.eventDigests <+: (s.heldCopies target).eventDigests) ≤ s.bounds.suffixes
      rw [hdig]
      omega
    · change unionLen (s.entries.flatMap (fun u =>
        u.2.unitLensFrom (u.2.sharedPrefixLen (s.heldCopies target)))) ≤ s.bounds.bytes
      simp only [ValidatedChain.sharedPrefixLen_eq, hdig]
      simpa only [ValidatedChain.sharedPrefixLen_eq] using hbytes
  obtain ⟨report, s', hplace, hsuffixes⟩ := hrefit.placeAll_ok .default
  have hmove : s.moveTo (.accepted target) none = .ok (report, s') := by
    simp only [RetentionSet.moveTo, RetentionBasis.mapChain, RetentionBasis.chain, hfound,
      Except.mapError, bind, Except.bind, Option.elim_some, pure, Except.pure, Option.map_none]
    exact hplace
  refine ⟨report, s', ?_, ?_⟩
  · unfold RetentionSet.rerank
    split
    · rename_i heq
      cases heq
    · rw [hmove]
  · intro u hu hoffu
    obtain ⟨c, hc, hcd⟩ := mem_stamps_iff.mp hu
    right
    rw [hsuffixes]
    apply List.mem_append_right
    refine List.mem_map.mpr ⟨(u.1, c), List.mem_filter.mpr ⟨hc, ?_⟩, Prod.ext rfl hcd⟩
    change decide (¬ c.eventDigests <+: (s.heldCopies target).eventDigests) = true
    rw [hdig, hcd]
    simpa using hoffu

/-- Only the accepted chain lies on an extension of it: any other held chain forks
from it. -/
theorem only_basis {target : ValidatedChain}
    (hext : s.basis.chain.eventDigests <+: target.eventDigests) :
    ∀ u ∈ s.stamps, u.2 <+: target.eventDigests →
      u = (s.basisObserved, s.basis.chain.eventDigests) := by
  intro u hu hp
  have hbasis : (s.basisObserved, s.basis.chain.eventDigests) ∈ s.stamps := List.mem_cons_self
  rcases List.prefix_or_prefix_of_prefix hp hext with hub | hbu
  · exact h.stamp_apart hu hbasis hub
  · exact (h.stamp_apart hbasis hu hbu).symm

/-- Forks from an extension of the accepted chain are the forks from the accepted
chain, so the bytes past them are no more. -/
theorem extended_bytes {target : ValidatedChain}
    (hext : s.basis.chain.eventDigests <+: target.eventDigests) :
    unionLen (s.entries.flatMap (fun t => t.2.unitLensFrom (t.2.sharedPrefixLen target))) ≤
      s.bounds.bytes := by
  have hbytes := h.inv.bytes
  rw [h.inv.retainedBytes_eq] at hbytes
  refine (unionLen_mono ?_).trans hbytes
  intro e he
  obtain ⟨t, hte, he⟩ := List.mem_flatMap.mp he
  rw [ValidatedChain.sharedPrefixLen_eq] at he
  rcases mem_entries.mp hte with ⟨x, hx, rfl⟩ | rfl
  · rw [sharedLen_eq_left hext (h.not_extends hx), ← h.inv.forkPosition_eq hx] at he
    exact List.mem_flatMap.mpr ⟨x, hx, he⟩
  · -- The accepted chain itself has no event past its fork.
    exfalso
    rw [(sharedLen_eq_length_iff _ _).mpr hext, ValidatedChain.length_eventDigests] at he
    obtain ⟨event, hevent, -⟩ := List.mem_map.mp he
    obtain ⟨hmem, hseq⟩ := List.mem_filter.mp hevent
    obtain ⟨i, hi⟩ := List.mem_iff_getElem?.mp hmem
    have hlt := (List.getElem?_eq_some_iff.mp hi).1
    rw [ValidatedChain.length_events] at hlt
    rw [h.inv.onBook.basis.sequence i event hi, decide_eq_true_eq] at hseq
    dsimp only at hlt hseq
    omega

/-- An extension of the earliest unbeaten chain is the earliest unbeaten one still. -/
theorem extended (hfirst : b.First s.stamps (s.basisObserved, s.basis.chain.eventDigests))
    {target : ValidatedChain} (ht : Kel.OnBook b target)
    (hext : s.basis.chain.eventDigests <+: target.eventDigests) {report : Rerank}
    (hmove : s.rerank (.accepted target) = (.ok report, s')) :
    s'.Stored b ∧ b.First s'.stamps (s'.basisObserved, s'.basis.chain.eventDigests) := by
  have hbasis : (s.basisObserved, s.basis.chain.eventDigests) ∈ s.stamps := List.mem_cons_self
  have honly := h.only_basis hext
  obtain ⟨hstored, -, hmoment, hdigests, hfrom⟩ := h.moves ht hbasis hext honly hmove
  dsimp only at hmoment hfrom
  obtain ⟨report', moved, hmoved, hkept⟩ := h.refits ht ⟨_, hbasis, hext⟩
    (fun u hu hp => by
      rw [(h.stamp_apart hbasis hu (hext.trans hp)).symm]
      exact hext) (h.extended_bytes hext)
  obtain rfl : moved = s' := (Prod.mk.inj (hmoved.symm.trans hmove)).2
  rw [hmoment, hdigests]
  refine ⟨hstored, ?_, ?_, ?_⟩
  · rw [← hmoment, ← hdigests]
    exact List.mem_cons_self
  · -- What beats the extension beat the accepted chain.
    intro u hu hbeat
    rcases hfrom u hu with rfl | hu
    · exact hbeat.1 List.prefix_rfl
    · apply hfirst.unbeaten u hu
      apply hbeat.of_extended hext
      intro hp
      have heq := h.stamp_apart hbasis hu hp
      rw [← heq] at hbeat
      exact hbeat.1 hext
  · intro u hu hun
    rcases hfrom u hu with rfl | hmem
    · exact le_rfl
    · apply hfirst.earliest u hmem
      intro v hv hbeat
      by_cases hon : v.2 <+: target.eventDigests
      · -- The accepted chain beats it, so the extension does.
        rw [honly v hv hon] at hbeat
        apply hun (s.basisObserved, target.eventDigests) _ (hbeat.extend hext)
        rw [← hmoment, ← hdigests]
        exact List.mem_cons_self
      · exact hun v (hkept v hv hon) hbeat

/-- A move to the earliest unbeaten chain leaves it that, where it beats every chain
held before it or every held chain stays. -/
theorem replaced {x : RetainedSuffix} (hx : x ∈ s.suffixes)
    (hfirst : b.First s.stamps (x.observed, x.chain.eventDigests))
    (hsafe : (∀ u ∈ s.stamps, u.1 < x.observed → Beats b.label x.chain.eventDigests u.2) ∨
      unionLen (s.entries.flatMap (fun t =>
        t.2.unitLensFrom (t.2.sharedPrefixLen x.chain))) ≤ s.bounds.bytes) {report : Rerank}
    (hmove : s.rerank (.accepted x.chain) = (.ok report, s')) :
    s'.Stored b ∧ b.First s'.stamps (s'.basisObserved, s'.basis.chain.eventDigests) := by
  have hbook := h.inv.onBook.suffixes x hx
  have hmem := hfirst.mem
  obtain ⟨hstored, -, hmoment, hdigests, hfrom⟩ := h.moves hbook hmem List.prefix_rfl
    (fun u hu hp => h.stamp_apart hu hmem hp) hmove
  dsimp only at hmoment hfrom
  have hself : (x.observed, x.chain.eventDigests) ∈ s'.stamps := by
    rw [← hmoment, ← hdigests]
    exact List.mem_cons_self
  have hsub : s'.stamps ⊆ s.stamps := by
    intro u hu
    rcases hfrom u hu with rfl | hu
    · exact hmem
    · exact hu
  rw [hmoment, hdigests]
  refine ⟨hstored, hself, hfirst.unbeaten.mono hsub, ?_⟩
  intro u hu hun
  rcases hsafe with hbeats | hbytes
  · -- A chain held before it is beaten by it still.
    by_contra hlt
    exact hun _ hself (hbeats u (hsub hu) (not_le.mp hlt))
  · obtain ⟨report', moved, hmoved, hkept⟩ := h.refits hbook ⟨_, hmem, List.prefix_rfl⟩
      (fun u hu hp => by
        rw [(h.stamp_apart hmem hu hp).symm]) hbytes
    obtain rfl : moved = s' := (Prod.mk.inj (hmoved.symm.trans hmove)).2
    apply hfirst.earliest u (hsub hu)
    intro v hv hbeat
    by_cases hon : v.2 <+: x.chain.eventDigests
    · rw [h.stamp_apart hv hmem hon] at hbeat
      exact hun _ hself hbeat
    · exact hun v (hkept v hv hon) hbeat

end RetentionSet.Stored

end Replaced

section Arrival
variable {b : Book} {s s' : RetentionSet}

/-- What leads a list leads any list it covers whose chains lie apart. -/
theorem Book.First.of_cover {held all : List (ℕ × List Digest)} (hsub : held ⊆ all)
    (hcover : ∀ u ∈ all, ∃ v ∈ held, u.2 <+: v.2 ∨ Beats b.label v.2 u.2)
    (hapart : ∀ u ∈ all, ∀ v ∈ all, u.2 <+: v.2 → u = v) {t : ℕ × List Digest}
    (h : b.First held t) : b.First all t := by
  refine ⟨hsub h.mem, ?_, ?_⟩
  · intro u hu hbeat
    obtain ⟨v, hv, hle⟩ := hcover u hu
    have htu : (⟨t.2⟩ : Branch b.label) < ⟨u.2⟩ := Branch.lt_of_beats hbeat
    have hlt : (⟨t.2⟩ : Branch b.label) < ⟨v.2⟩ := htu.trans_le (Branch.le_iff.mpr hle)
    rcases Branch.le_iff.mp hlt.le with hp | hb
    · rw [hapart t (hsub h.mem) v (hsub hv) hp] at hlt
      exact lt_irrefl _ hlt
    · exact h.unbeaten v hv hb
  · intro u hu hun
    obtain ⟨v, hv, hp | hb⟩ := hcover u hu
    · obtain rfl := hapart u hu v (hsub hv) hp
      exact h.earliest u hv (hun.mono hsub)
    · exact absurd hb (hun v (hsub hv))

/-- The chains of an arrival lie apart, where the new one lies on none. -/
theorem RetentionSet.Stored.arrived_apart (h : s.Stored b) {chain : ValidatedChain}
    (hoff : ∀ c ∈ s.chains, ¬ chain.eventDigests <+: c.eventDigests) :
    ∀ u ∈ s.arrived chain, ∀ v ∈ s.arrived chain, u.2.eventDigests <+: v.2.eventDigests → u = v := by
  have hheld {t : ℕ × ValidatedChain} (ht : t ∈ s.entries.filter
      (fun t => ¬ t.2.eventDigests <+: chain.eventDigests)) :
      t ∈ s.entries ∧ ¬ t.2.eventDigests <+: chain.eventDigests := by
    simpa using List.mem_filter.mp ht
  intro u hu v hv hp
  rcases List.mem_append.mp hu with hu | hu
  · obtain ⟨hue, huoff⟩ := hheld hu
    rcases List.mem_append.mp hv with hv | hv
    · exact h.entry_apart hue (hheld hv).1 hp
    · rw [List.mem_singleton.mp hv] at hp
      rw [heldCopies_eventDigests] at hp
      exact absurd hp huoff
  · rw [List.mem_singleton.mp hu] at hp ⊢
    rcases List.mem_append.mp hv with hv | hv
    · rw [heldCopies_eventDigests] at hp
      exact absurd hp (hoff v.2 (mem_chains_iff_entry.mpr ⟨v.1, (hheld hv).1⟩))
    · rw [List.mem_singleton.mp hv]

/-- An entered chain leaves held only what has arrived, and every chain that has
arrived lies below one of those. -/
theorem RetentionSet.Stored.entered_arrived (h : s.Stored b) {chain : ValidatedChain} {rank : ForkRank}
    {fork next : ℕ} {extended : Option ℕ} {evict : List ℕ}
    (hent : Enters b s chain none rank fork extended evict next)
    (hdiv : ¬ s.basis.chain.eventDigests <+: chain.eventDigests)
    (hs' : s'.basis = s.basis ∧ s'.basisObserved = s.basisObserved ∧
      s'.suffixes = s.staying evict extended ++ [⟨s.heldCopies chain, fork,
        s.slotFor (s.heldCopies chain) none rank fork extended⟩]) :
    (∀ t ∈ s'.entries, t ∈ s.arrived chain) ∧
      ∀ u ∈ s.arrived chain, ∃ v ∈ s'.entries, b.branch u.2 ≤ b.branch v.2 := by
  obtain ⟨hbasis, hobserved, hsuffixes⟩ := hs'
  -- The moment of the new suffix is that of the chain it extends, if any.
  have hmoment : (s.slotFor (s.heldCopies chain) none rank fork extended).observed =
      ((s.entries.find? (fun t => t.2.eventDigests <+: chain.eventDigests)).map Prod.fst).getD
        s.nextObserved := by
    rcases hent.extends_ with ⟨rfl, hnone⟩ | ⟨i, x, hx, rfl, hp⟩
    · have hfind : s.entries.find? (fun t => t.2.eventDigests <+: chain.eventDigests) = none := by
        rw [List.find?_eq_none]
        intro t ht
        rcases mem_entries.mp ht with ⟨x, hx, rfl⟩ | rfl
        · simpa using hnone x hx
        · simpa using hdiv
      rw [hfind]
      rfl
    · have hmem : (x.observed, x.chain) ∈ s.entries :=
        mem_entries.mpr (.inl ⟨x, List.mem_of_getElem? hx, rfl⟩)
      have hsome : (s.entries.find?
          (fun t => t.2.eventDigests <+: chain.eventDigests)).isSome := by
        rw [List.find?_isSome]
        exact ⟨_, hmem, by simpa using hp⟩
      obtain ⟨t, ht⟩ := Option.isSome_iff_exists.mp hsome
      have hte := List.mem_of_find?_eq_some ht
      have htp : t.2.eventDigests <+: chain.eventDigests := by simpa using List.find?_some ht
      have heq : t = (x.observed, x.chain) := by
        rcases List.prefix_or_prefix_of_prefix htp hp with hle | hle
        · exact h.entry_apart hte hmem hle
        · exact (h.entry_apart hmem hte hle).symm
      rw [ht, heq]
      simp [RetentionSet.slotFor, hx]
  have hin : ∀ t ∈ s'.entries, t ∈ s.arrived chain := by
    intro t ht
    rcases mem_entries.mp ht with ⟨x, hx, rfl⟩ | rfl
    · rw [hsuffixes] at hx
      rcases List.mem_append.mp hx with hx | hx
      · have hmem := (staying_sublist s evict extended).subset hx
        apply List.mem_append_left
        refine List.mem_filter.mpr ⟨mem_entries.mpr (.inl ⟨x, hmem, rfl⟩), ?_⟩
        simpa using hent.staying_not_prefix h.inv hx
      · rw [List.mem_singleton.mp hx]
        apply List.mem_append_right
        rw [List.mem_singleton]
        exact Prod.ext hmoment rfl
    · rw [hobserved, hbasis]
      apply List.mem_append_left
      exact List.mem_filter.mpr ⟨mem_entries.mpr (.inr rfl), by simpa using hdiv⟩
  have hentry {x : RetainedSuffix} (hx : x ∈ s'.suffixes) : (x.observed, x.chain) ∈ s'.entries :=
    mem_entries.mpr (.inl ⟨x, hx, rfl⟩)
  have hlast := hentry (by rw [hsuffixes]; exact List.mem_append_right _ (List.mem_singleton_self _))
  have hbranch : b.branch (s.heldCopies chain) = b.branch chain := by
    rw [Book.branch, Book.branch, heldCopies_eventDigests]
  refine ⟨hin, ?_⟩
  intro u hu
  rcases List.mem_append.mp hu with hu | hu
  · have hue := (List.mem_filter.mp hu).1
    rcases mem_entries.mp hue with ⟨x, hx, rfl⟩ | rfl
    · rcases hent.covers x hx with hle | hle | ⟨y, hy, hle⟩
      · exact ⟨_, mem_entries.mpr (.inr rfl), by rw [hbasis]; exact hle⟩
      · exact ⟨_, hlast, by rw [hbranch]; exact hle⟩
      · exact ⟨_, hentry (by rw [hsuffixes]; exact List.mem_append_left _ hy), hle⟩
    · exact ⟨_, mem_entries.mpr (.inr rfl), by rw [hbasis]⟩
  · rw [List.mem_singleton.mp hu]
    exact ⟨_, hlast, le_rfl⟩

/-- A store that accepts the earliest unbeaten chain. -/
structure RetentionSet.Led (b : Book) (s : RetentionSet) : Prop where
  stored : s.Stored b
  first : b.First s.stamps (s.basisObserved, s.basis.chain.eventDigests)

theorem stored_admit_untied {chain : ValidatedChain} {admission : Admission} (h : s.Stored b)
    (hc : OnBook b chain) (hok : s.admit_ chain = (.ok admission, s')) : s'.tiePrefix = none := by
  unfold RetentionSet.admit_ at hok
  split at hok
  · cases hok
  · rename_i placed hplace
    split at hok
    · cases hok
    · rename_i settled hsettle
      cases hok
      have htie := (place_cases h.inv.onBook hc hplace).frame.2.2.1
      rw [RetentionSet.settleTiePrefix, htie, h.untied] at hsettle
      cases hsettle
      rfl

/-- A chain that enters beside the accepted one leaves a store's set. -/
theorem RetentionSet.Stored.admitted {chain : ValidatedChain} {admission : Admission}
    (h : s.Stored b) (hc : Kel.OnBook b chain)
    (hdiv : ¬ s.basis.chain.eventDigests <+: chain.eventDigests)
    (hheld : admission ≠ .alreadyHeld) (hrefused : ∀ rank, admission ≠ .refused rank)
    (hok : s.admit_ chain = (.ok admission, s')) :
    s'.Stored b ∧ s'.bounds = s.bounds ∧ s'.basis = s.basis ∧
      (∀ c ∈ s.chains, ¬ chain.eventDigests <+: c.eventDigests) ∧
      (∀ t ∈ s'.entries, t ∈ s.arrived chain) ∧
      ∀ u ∈ s.arrived chain, ∃ v ∈ s'.entries, b.branch u.2 ≤ b.branch v.2 := by
  have huntied := stored_admit_untied h hc hok
  obtain ⟨placed, tie, hplaces, rfl, hinv, -⟩ := admit_ok h.inv hc hok
  cases hplaces with
  | held => exact absurd rfl hheld
  | refused rank => exact absurd rfl (hrefused rank)
  | @entered rank fork extended evict next hent =>
    refine ⟨⟨hinv, h.accepted, huntied⟩, rfl, rfl, hent.off, ?_⟩
    exact h.entered_arrived hent hdiv ⟨rfl, rfl, rfl⟩

theorem Book.First.congr {held held' : List (ℕ × List Digest)} (hsame : ∀ t, t ∈ held ↔ t ∈ held')
    {t : ℕ × List Digest} (h : b.First held t) : b.First held' t := by
  refine ⟨(hsame t).mp h.mem, fun u hu => h.unbeaten u ((hsame u).mpr hu), ?_⟩
  intro u hu hun
  exact h.earliest u ((hsame u).mpr hu) (fun v hv => hun v ((hsame v).mp hv))

/-- Chains as moments and digests. -/
def stampsOf (entries : List (ℕ × ValidatedChain)) : List (ℕ × List Digest) :=
  entries.map (fun t => (t.1, t.2.eventDigests))

theorem mem_stampsOf_entries (t : ℕ × List Digest) : t ∈ stampsOf s.entries ↔ t ∈ s.stamps := by
  rw [mem_stamps_iff]
  simp only [stampsOf, List.mem_map, Prod.exists]
  constructor
  · intro h
    obtain ⟨m, c, hc, rfl⟩ := h
    exact ⟨c, hc, rfl⟩
  · intro h
    obtain ⟨c, hc, hd⟩ := h
    exact ⟨t.1, c, hc, Prod.ext rfl hd⟩

theorem chainBeats_iff {c d : ValidatedChain} (hc : OnBook b c) (hd : OnBook b d) :
    chainBeats c d = .ok true ↔ Beats b.label c.eventDigests d.eventDigests := by
  obtain ⟨beaten, hok, hbeaten⟩ := chainBeats_eq hc hd
  rw [hok, Except.ok.injEq]
  exact hbeaten

/-- What is first by digests leads by the comparisons of the chains. -/
theorem Book.First.leads {entries : List (ℕ × ValidatedChain)} (hon : ∀ t ∈ entries, OnBook b t.2)
    {t : ℕ × ValidatedChain} (ht : t ∈ entries)
    (h : b.First (stampsOf entries) (t.1, t.2.eventDigests)) : Leads entries t := by
  have hstamp {u : ℕ × ValidatedChain} (hu : u ∈ entries) :
      (u.1, u.2.eventDigests) ∈ stampsOf entries := List.mem_map.mpr ⟨u, hu, rfl⟩
  refine ⟨ht, ?_, ?_⟩
  · intro u hu
    rw [ne_eq, chainBeats_iff (hon u hu) (hon t ht)]
    exact h.unbeaten _ (hstamp hu)
  · intro u hu hun
    apply h.earliest _ (hstamp hu)
    intro v hv
    obtain ⟨e, he, rfl⟩ := List.mem_map.mp hv
    have hne := hun e he
    rwa [ne_eq, chainBeats_iff (hon e he) (hon u hu)] at hne

/-- The chains of an arrival lie on the book. -/
theorem RetentionSet.Stored.arrived_onBook {chain : ValidatedChain} (h : s.Stored b)
    (hc : Kel.OnBook b chain) : ∀ t ∈ s.arrived chain, Kel.OnBook b t.2 := by
  intro t ht
  rcases List.mem_append.mp ht with ht | ht
  · exact h.entry_onBook (List.mem_filter.mp ht).1
  · rw [List.mem_singleton.mp ht]
    exact heldCopies_onBook h.inv.onBook hc

/-- What leads the set that took a chain in leads all that has arrived. -/
theorem RetentionSet.Stored.admitted_leads {chain : ValidatedChain} {admission : Admission}
    (h : s.Stored b) (hc : Kel.OnBook b chain)
    (hdiv : ¬ s.basis.chain.eventDigests <+: chain.eventDigests)
    (hheld : admission ≠ .alreadyHeld) (hrefused : ∀ rank, admission ≠ .refused rank)
    (hok : s.admit_ chain = (.ok admission, s')) {x : RetainedSuffix} (hx : x ∈ s'.suffixes)
    (hfirst : b.First s'.stamps (x.observed, x.chain.eventDigests)) :
    (x.observed, x.chain) ∈ s.arrived chain ∧
      Leads (s.arrived chain) (x.observed, x.chain) := by
  obtain ⟨-, -, -, hoff, hin, hcover⟩ := h.admitted hc hdiv hheld hrefused hok
  have hmem := hin _ (mem_entries.mpr (.inl ⟨x, hx, rfl⟩))
  have hapart := h.arrived_apart hoff
  have hleads : b.First (stampsOf (s.arrived chain)) (x.observed, x.chain.eventDigests) := by
    have hfirst' := hfirst.congr (fun t => (mem_stampsOf_entries t).symm)
    apply hfirst'.of_cover
    · intro u hu
      obtain ⟨t, ht, rfl⟩ := List.mem_map.mp hu
      exact List.mem_map.mpr ⟨t, hin t ht, rfl⟩
    · intro u hu
      obtain ⟨t, ht, rfl⟩ := List.mem_map.mp hu
      obtain ⟨v, hv, hle⟩ := hcover t ht
      exact ⟨_, List.mem_map.mpr ⟨v, hv, rfl⟩, Branch.le_iff.mp hle⟩
    · intro u hu v hv hp
      obtain ⟨t, ht, rfl⟩ := List.mem_map.mp hu
      obtain ⟨t', ht', rfl⟩ := List.mem_map.mp hv
      rw [hapart t ht t' ht' hp]
  exact ⟨hmem, hleads.leads (h.arrived_onBook hc) hmem⟩

/-- Where a move is safe, so is the decision that makes it. -/
def RetentionSet.SafeMove (b : Book) (s : RetentionSet) : Prop :=
  ∀ x ∈ s.suffixes, b.First s.stamps (x.observed, x.chain.eventDigests) →
    (∀ u ∈ s.stamps, u.1 < x.observed → Beats b.label x.chain.eventDigests u.2) ∨
      unionLen (s.entries.flatMap (fun t =>
        t.2.unitLensFrom (t.2.sharedPrefixLen x.chain))) ≤ s.bounds.bytes

/-- A safe re-decision leaves the earliest unbeaten chain accepted. -/
theorem redecide_led (h : s.Stored b) (hsafe : s.SafeMove b) {admission : Option Admission}
    {rerank : Rerank} {outcome : HoldOutcome}
    (hok : s.redecide admission rerank = .ok (outcome, s')) : s'.Led b := by
  simp only [RetentionSet.redecide, bind_ok_iff, mapError_ok_iff] at hok
  obtain ⟨winner, hwinner, hok⟩ := hok
  obtain ⟨found, hfound, hcase⟩ := h.displacing
  obtain rfl : found = winner := Except.ok.inj (hfound.symm.trans hwinner)
  rcases hcase with ⟨rfl, hfirst⟩ | ⟨x, hx, rfl, hfirst⟩
  · cases admission with
    | none =>
      cases hok
      exact ⟨h, hfirst⟩
    | some admission =>
      cases hok
      exact ⟨h, hfirst⟩
  · simp only [Option.map_some, bind_ok_iff, mapError_ok_iff, pure_ok_iff, Prod.mk.injEq] at hok
    obtain ⟨report, hreport, -, rfl⟩ := hok
    obtain ⟨hstored, hfirst'⟩ := h.replaced hx hfirst (hsafe x hx hfirst) (Prod.ext hreport rfl)
    exact ⟨hstored, hfirst'⟩

/-- A safe arrival leaves a store's set whose re-decision is safe. -/
theorem arrive_safe (h : s.Led b) {chain : ValidatedChain} (hc : OnBook b chain)
    (hsafe : s.SafeArrival chain) {admission : Option Admission} {rerank : Rerank}
    (hok : s.arrive chain = .ok (.pending admission rerank s')) : s'.Stored b ∧ s'.SafeMove b := by
  simp only [RetentionSet.arrive, bind_ok_iff, mapError_ok_iff] at hok
  obtain ⟨pairing, hpairing, hok⟩ := hok
  rw [hc.pairChains_eq h.stored.inv.onBook.basis] at hpairing
  cases hpairing
  obtain ⟨hpair, -⟩ | ⟨hpair, -, -⟩ | ⟨hpair, hext, -⟩ | ⟨hpair, -, hdiv⟩ :=
    Book.pairing_cases b chain.eventDigests s.basis.chain.eventDigests <;> rw [hpair] at hok
  · cases hok
  · cases hok
  · -- An extension of the accepted chain stays the chain to accept.
    simp only [bind_ok_iff, mapError_ok_iff, pure_ok_iff, Arrival.pending.injEq] at hok
    obtain ⟨report, hreport, -, -, rfl⟩ := hok
    have hbook := h.stored.inv.onBook.basis.extendedBy hc
    obtain ⟨hstored, hfirst⟩ := h.stored.extended h.first hbook
      (by rw [ValidatedChain.extendedBy_eventDigests]; exact hext) (Prod.ext hreport rfl)
    refine ⟨hstored, ?_⟩
    intro x hx hfirst'
    exfalso
    apply hstored.inv.offBasis x hx
    rw [(Prod.mk.inj (hfirst'.unique hstored.inv hfirst)).2]
  · simp only [bind_ok_iff, mapError_ok_iff, pure_ok_iff] at hok
    obtain ⟨admitted, hadmitted, hok⟩ := hok
    -- The chain was entered: otherwise the arrival is not pending.
    have hneither : admitted ≠ .alreadyHeld ∧ (∀ rank, admitted ≠ .refused rank) ∧
        s' = (s.admit_ chain).2 := by
      cases admitted with
      | alreadyHeld => cases hok
      | refused rank => cases hok
      | retained rank evicted =>
        cases hok
        simp
      | extended rank replaced evicted =>
        cases hok
        simp
    obtain ⟨hheld, hrefused, rfl⟩ := hneither
    obtain ⟨hstored, hbounds, hbasis, hoff, hin, hcover⟩ :=
      h.stored.admitted hc hdiv hheld hrefused (Prod.ext hadmitted rfl)
    refine ⟨hstored, ?_⟩
    intro x hx hfirst
    have hon := h.stored.arrived_onBook hc
    obtain ⟨hmem, hleads⟩ := h.stored.admitted_leads hc hdiv hheld hrefused
      (Prod.ext hadmitted rfl) hx hfirst
    have hnot : ¬ s.basis.chain.eventDigests <+: x.chain.eventDigests := by
      rw [← hbasis]
      exact hstored.not_extends hx
    have hallowed : ∀ rank, (s.admit_ chain).1 ≠ .ok (.refused rank) := by
      intro rank heq
      rw [hadmitted] at heq
      exact hrefused rank (Except.ok.inj heq)
    rcases hsafe hoff hallowed _ hmem hleads hnot with hbeats | hbytes
    · left
      intro u hu hlt
      obtain ⟨c, hcu, hd⟩ := mem_stamps_iff.mp hu
      have hbeat := hbeats _ (hin _ hcu) hlt
      rw [chainBeats_iff (hon _ hmem) (hon _ (hin _ hcu)), hd] at hbeat
      exact hbeat
    · right
      rw [hbounds]
      refine (unionLen_mono ?_).trans hbytes
      intro e he
      obtain ⟨t, ht, he⟩ := List.mem_flatMap.mp he
      exact List.mem_flatMap.mpr ⟨t, hin t ht, he⟩

/-- A first chain leads alone. -/
theorem withBounds_led {chain : ValidatedChain} (hc : OnBook b chain) (bounds : Bounds) :
    (RetentionSet.withBounds (.accepted chain) bounds).Led b := by
  have hinv : (RetentionSet.withBounds (.accepted chain) bounds).Inv b :=
    inv_of_no_suffix hc (by simp) Nat.zero_lt_one (by decide) (by simp)
  refine ⟨⟨hinv, rfl, rfl⟩, List.mem_cons_self, ?_, ?_⟩
  · intro u hu hbeat
    rw [List.mem_singleton.mp hu] at hbeat
    exact hbeat.1 List.prefix_rfl
  · intro u hu _
    rw [List.mem_singleton.mp hu]

/-- Holding a chain whose arrival is safe keeps the earliest unbeaten chain accepted. -/
theorem hold_led {holder : AcceptedChainHolder} (h : ∀ s ∈ holder.set, s.Led b)
    {chain : ValidatedChain} (hc : OnBook b chain)
    (hsafe : ∀ s ∈ holder.set, s.SafeArrival chain) :
    ∀ s ∈ (holder.hold chain).2.set, s.Led b := by
  unfold AcceptedChainHolder.hold
  split
  · intro s hmem
    obtain rfl := Option.some.inj hmem
    exact withBounds_led hc holder.bounds
  · rename_i s hset
    split
    · exact h
    · exact h
    · rename_i admission rerank next harrive
      obtain ⟨hstored, hmove⟩ := arrive_safe (h s hset) hc (hsafe s hset) harrive
      split
      · exact h
      · rename_i outcome decided hdecide
        intro s hmem
        obtain rfl := Option.some.inj hmem
        exact redecide_led hstored hmove hdecide

end Arrival

/-- A call that settles early or fails leaves the holder as it was. -/
theorem hold_unchanged {holder : AcceptedChainHolder} {chain : ValidatedChain}
    (h : (∃ error, (holder.hold chain).1 = .error error) ∨
      (holder.hold chain).1 = .ok .alreadyHeld ∨
      ∃ rank, (holder.hold chain).1 = .ok (.refused rank)) :
    (holder.hold chain).2 = holder := by
  rcases h with ⟨error, herror⟩ | h
  · exact holder.hold_error herror
  · unfold AcceptedChainHolder.hold at h ⊢
    split
    · rename_i hset
      rw [hset] at h
      rcases h with h | ⟨rank, h⟩ <;> cases h
    · rename_i s hset
      rw [hset] at h
      dsimp only at h
      split
      · rfl
      · rfl
      · rename_i admission rerank next harrive
        rw [harrive] at h
        dsimp only at h
        split
        · rfl
        · rename_i outcome decided hdecide
          -- A re-decision reports an accepted chain or a divergent one.
          exfalso
          rw [hdecide] at h
          have hkind : outcome ≠ .alreadyHeld ∧ ∀ rank, outcome ≠ .refused rank := by
            simp only [RetentionSet.redecide, bind_ok_iff, mapError_ok_iff] at hdecide
            obtain ⟨winner, -, hdecide⟩ := hdecide
            split at hdecide
            · cases hdecide
              simp
            · cases hdecide
              simp
            · simp only [bind_ok_iff, pure_ok_iff, Prod.mk.injEq] at hdecide
              obtain ⟨report, -, rfl, -⟩ := hdecide
              simp
          rcases h with h | ⟨rank, h⟩
          · exact hkind.1 (Except.ok.inj h)
          · exact hkind.2 rank (Except.ok.inj h)

/-- The holders that calls on valid chains lead to, each arrival safe. -/
inductive SafelyHeld (C : Crypto) (seen : Set Bytes) (identifier : Identifier) (bounds : Bounds) :
    AcceptedChainHolder → Prop
  | new : SafelyHeld C seen identifier bounds (.withBounds bounds)
  | holds {holder : AcceptedChainHolder} {chain : ValidatedChain}
      (before : SafelyHeld C seen identifier bounds holder)
      (valid : ValidIn C seen identifier chain) (safe : ∀ s ∈ holder.set, s.SafeArrival chain) :
      SafelyHeld C seen identifier bounds (holder.hold chain).2

/-- In every run of safe arrivals the store accepts the chain to accept: nothing
displaces it, and of the held chains no held chain beats it was held earliest. A
call that settles early or fails changes nothing. -/
theorem safelyHeld_accepts_first (C : Crypto) (seen : Set Bytes) (identifier : Identifier)
    (bounds : Bounds) (hcf : CollisionFree C seen) (holder : AcceptedChainHolder)
    (h : SafelyHeld C seen identifier bounds holder) :
    (∀ s ∈ holder.set, s.displacingSuffix = .ok none ∧
      Leads s.entries (s.basisObserved, s.basis.chain)) ∧
    ∀ chain, (∃ error, (holder.hold chain).1 = .error error) ∨
      (holder.hold chain).1 = .ok .alreadyHeld ∨
      (∃ rank, (holder.hold chain).1 = .ok (.refused rank)) → (holder.hold chain).2 = holder := by
  have hled : ∀ s ∈ holder.set, s.Led (bookOf C seen identifier) := by
    induction h with
    | new => simp [AcceptedChainHolder.withBounds]
    | holds _ hvalid hsafe ih => exact hold_led ih (hvalid.onBook hcf) hsafe
  refine ⟨?_, fun chain => hold_unchanged⟩
  intro s hs
  obtain ⟨hstored, hfirst⟩ := hled s hs
  refine ⟨hstored.displacing_none_iff.mpr hfirst, ?_⟩
  have hmem : (s.basisObserved, s.basis.chain) ∈ s.entries := mem_entries.mpr (.inr rfl)
  exact (hfirst.congr (fun t => (mem_stampsOf_entries t).symm)).leads
    (fun t ht => hstored.entry_onBook ht) hmem

-- Two chains share a recovery: one adds a key state to it, the other a second
-- recovery, and a rival recovery is held between them.

def sampleKeyState (interval : U32) : EventPreimage where
  kind := .keyState
  identifier := sampleIdentifier
  sequence := 2
  predecessorDigest := eventDigestOf sampleCrypto (fieldsOut (sampleRecovery 4 5))
  standingRoot := none
  signerGroups := [⟨[0], [.raw]⟩]
  revealedKeys := []
  installedRootSet := none
  keyState := some (sampleSnapshot [sampleEntry 2 .active .current,
    sampleEntry 4 .rootMember .current] interval)
  seals := []
  continuation := none

def sampleSecond (root next : Key) : EventPreimage where
  kind := .rootRecovery
  identifier := sampleIdentifier
  sequence := 2
  predecessorDigest := eventDigestOf sampleCrypto (fieldsOut (sampleRecovery 4 5))
  standingRoot := some .coSigns
  signerGroups := [⟨[0], [.raw]⟩, ⟨[0], [.raw]⟩, ⟨[0], [.raw]⟩]
  revealedKeys := [5]
  installedRootSet := some ⟨[root], 1⟩
  keyState := some (sampleSnapshot [sampleEntry 2 .active .current,
    sampleEntry root .rootMember .current, sampleEntry 4 .rootMember .superseded] 300)
  seals := []
  continuation := some (sampleCommitment next)

def sampleRecoveredChain : ValidatedChain := sampleChain.push sampleCrypto sampleRecovered

def sampleKept : Accepted :=
  okGet (checkSuccessor sampleCrypto sampleRecoveredChain (sampleUnit (sampleKeyState 600) 1)
    .signed) (by decide +kernel)

def sampleAgain : Accepted :=
  okGet (checkSuccessor sampleCrypto sampleRecoveredChain (sampleUnit (sampleSecond 8 9) 3)
    .signed) (by decide +kernel)

/-- The chains in the order the store holds them. -/
def sampleArrivals : List ValidatedChain :=
  [sampleRecoveredChain.push sampleCrypto sampleKept, sampleChain.push sampleCrypto sampleRival,
    sampleRecoveredChain.push sampleCrypto sampleAgain]

def sampleArrivalPreimages : List Bytes :=
  [sampleAccepted.preimage, sampleRecovered.preimage, sampleRival.preimage, sampleKept.preimage,
    sampleAgain.preimage]

theorem sampleArrivals_collisionFree :
    CollisionFree sampleCrypto {x | x ∈ sampleArrivalPreimages} := by
  have hd : ∀ x ∈ sampleArrivalPreimages, ∀ y ∈ sampleArrivalPreimages,
      (sampleCrypto.sha256 x = sampleCrypto.sha256 y → x = y) ∧
      (sampleCrypto.sha256 (kelIdSeparator ++ x) = sampleCrypto.sha256 (kelIdSeparator ++ y) →
        x = y) := by
    decide +kernel
  exact ⟨fun x hx y hy => (hd x hx y hy).1, fun x hx y hy => (hd x hx y hy).2⟩

theorem sampleArrivals_validIn : ∀ c ∈ sampleArrivals,
    ValidIn sampleCrypto {x | x ∈ sampleArrivalPreimages} sampleIdentifier c := by
  intro c hc
  simp only [sampleArrivals, List.mem_cons, List.not_mem_nil, or_false] at hc
  rcases hc with rfl | rfl | rfl
  · exact ⟨_, .push sampleRecovered_builds (by decide) (eq_okGet _ _),
      by simp [sampleArrivalPreimages]⟩
  · exact ⟨_, .push sample_builds (by decide) (eq_okGet _ _), by simp [sampleArrivalPreimages]⟩
  · exact ⟨_, .push sampleRecovered_builds (by decide) (eq_okGet _ _),
      by simp [sampleArrivalPreimages]⟩

/-- The store after the first `n` of the sample chains. -/
def sampleStore (bounds : Bounds) (n : ℕ) : AcceptedChainHolder :=
  (sampleArrivals.take n).foldl (fun holder chain => (holder.hold chain).2) (.withBounds bounds)

/-- With room for 1300 bytes every call succeeds, yet the store ends up accepting
the rival, held second, where no held chain beats the one held first: the call that
drops the second recovery has decided before that the recovery beats the first. -/
theorem hold_keeps_displaced :
    CollisionFree sampleCrypto {x | x ∈ sampleArrivalPreimages} ∧
    (∀ c ∈ sampleArrivals,
      ValidIn sampleCrypto {x | x ∈ sampleArrivalPreimages} sampleIdentifier c) ∧
    (∀ n < 3, ∃ chain ∈ sampleArrivals[n]?, ∃ outcome,
      ((sampleStore ⟨8, 1300⟩ n).hold chain).1 = .ok outcome) ∧
    ∃ s ∈ (sampleStore ⟨8, 1300⟩ 3).set, ∃ x, s.displacingSuffix = .ok (some x) ∧
      x.observed < s.basisObserved := by
  refine ⟨sampleArrivals_collisionFree, sampleArrivals_validIn, ?_, ?_⟩
  · have hok : ∀ n < 3, sampleArrivals[n]?.any
        (fun chain => ((sampleStore ⟨8, 1300⟩ n).hold chain).1.toOption.isSome) = true := by
      decide +kernel
    intro n hn
    obtain ⟨chain, hchain, hsome⟩ := (Option.any_eq_true _ _).mp (hok n hn)
    exact ⟨chain, hchain, _, eq_okGet _ hsome⟩
  · have hlast : (sampleStore ⟨8, 1300⟩ 3).set.map (fun s => (s.basisObserved,
        s.displacingSuffix.toOption.map (Option.map RetainedSuffix.observed))) =
        some (1, some (some 0)) := by
      decide +kernel
    obtain ⟨s, hs, hpair⟩ := Option.map_eq_some_iff.mp hlast
    obtain ⟨hmoment, hdisplacing⟩ := Prod.mk.inj hpair
    obtain ⟨suffix, hsuffix, hdisplacing⟩ := Option.map_eq_some_iff.mp hdisplacing
    obtain ⟨x, rfl, hx⟩ := Option.map_eq_some_iff.mp hdisplacing
    refine ⟨s, hs, x, ?_, by omega⟩
    cases hcase : s.displacingSuffix with
    | error _ => rw [hcase] at hsuffix; cases hsuffix
    | ok _ => rw [hcase] at hsuffix; rw [Option.some.inj hsuffix]

/-- The registered bounds hold every sample chain, so the arrivals are safe and the
chain accepted in the end leads. -/
theorem safelyHeld_accepts_first_sample : ∃ s ∈ (sampleStore .registered 3).set,
    s.displacingSuffix = .ok none ∧ Leads s.entries (s.basisObserved, s.basis.chain) := by
  have hsafe : ∀ n < 3, ∀ s ∈ (sampleStore .registered n).set, ∀ chain ∈ sampleArrivals[n]?,
      s.SafeArrival chain := by
    have hfit : ∀ n < 3, ∀ s ∈ (sampleStore .registered n).set.toList,
        ∀ chain ∈ sampleArrivals[n]?.toList, ∀ w ∈ s.arrived chain,
        unionLen ((s.arrived chain).flatMap (fun u =>
          u.2.unitLensFrom (u.2.sharedPrefixLen w.2))) ≤ s.bounds.bytes := by
      decide +kernel
    intro n hn s hs chain hchain _ _ w hw _ _
    exact .inr (hfit n hn s (Option.mem_toList.mpr hs) chain (Option.mem_toList.mpr hchain) w hw)
  have hrun : ∀ n ≤ 3, SafelyHeld sampleCrypto {x | x ∈ sampleArrivalPreimages} sampleIdentifier
      .registered (sampleStore .registered n) := by
    intro n
    induction n with
    | zero => exact fun _ => .new
    | succ n ih =>
      intro hn
      have hlen : n < sampleArrivals.length := hn
      have hget : sampleArrivals[n]? = some (sampleArrivals[n]) := List.getElem?_eq_getElem hlen
      have hstep : sampleStore .registered (n + 1) =
          ((sampleStore .registered n).hold (sampleArrivals[n])).2 := by
        simp only [sampleStore, List.take_add_one, hget, Option.toList_some, List.foldl_append,
          List.foldl_cons, List.foldl_nil]
      rw [hstep]
      exact .holds (ih (by omega)) (sampleArrivals_validIn _ (List.getElem_mem hlen))
        (fun s hs => hsafe n hn s hs _ hget)
  have hset : (sampleStore .registered 3).set.isSome = true := by decide +kernel
  obtain ⟨s, hs⟩ := Option.isSome_iff_exists.mp hset
  exact ⟨s, hs, (safelyHeld_accepts_first sampleCrypto _ sampleIdentifier .registered
    sampleArrivals_collisionFree _ (hrun 3 le_rfl)).1 s hs⟩

end ScpCore.Kel
