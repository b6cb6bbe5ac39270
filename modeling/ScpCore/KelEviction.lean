import ScpCore.KelRetentionInv

/-! The eviction plan is greedy. The loop returns on every input; what it evicts is, round
by round, the greatest of the suffixes that may go, and it stops as soon as the rest fits.
With every guard open a rank-1 candidate is refused only for the rank-1 suffixes. -/

namespace ScpCore.Kel

/-- The rounds of the loop of `planEvictions` up to its return. -/
inductive PlanRun (held : List Slot) (guards : List Guard) (candidate : Slot) (bounds : Bounds) :
    List Bool → List ℕ → Option (List ℕ) → Prop
  | fits {kept evicted} (h : fits (keptSlots held kept) candidate bounds = true) :
    PlanRun held guards candidate bounds kept evicted (some evicted)
  | refused {kept evicted} (h : fits (keptSlots held kept) candidate bounds = false)
      (hv : victim held guards kept candidate = none) :
    PlanRun held guards candidate bounds kept evicted none
  | evict {kept evicted index result} (h : fits (keptSlots held kept) candidate bounds = false)
      (hv : victim held guards kept candidate = some index)
      (hrest : PlanRun held guards candidate bounds (kept.set index false) (evicted ++ [index])
        result) :
    PlanRun held guards candidate bounds kept evicted result

/-- The suffix at `index` may go while the flagged suffixes are kept. -/
structure Evictable (held : List Slot) (guards : List Guard) (candidate : Slot)
    (kept : List Bool) (index : ℕ) (slot : Slot) : Prop where
  isHeld : held[index]? = some slot
  isKept : kept[index]? = some true
  unguarded : guarded guards kept index = false
  rank : slot.rank ≠ .rank1
  number : candidate.rank.number ≤ slot.rank.number

/-- What the eviction order compares: the rank number, then the moment. -/
def Slot.order (slot : Slot) : ℕ ×ₗ ℕ := toLex (slot.rank.number, slot.observed)

/-- The length of an event, the last one listed. -/
def lastLen (events : List (Digest × ℕ)) (digest : Digest) : ℕ :=
  ((events.reverse.find? (fun e => e.1 = digest)).map Prod.snd).getD 0

/-- The bytes of the slots' events, each digest counted once. -/
def onceBytes (slots : List Slot) : ℕ :=
  let events := slots.flatMap (·.events)
  ((events.map Prod.fst).dedup.map (lastLen events)).sum

/-- The slots left when those at `evicted` went and the replaced one does not count. -/
def leftSlots (held : List Slot) (replacing : Option ℕ) (evicted : List ℕ) : List Slot :=
  keptSlots held (stayFlags held.length replacing evicted)

section Eviction
variable {held : List Slot} {guards : List Guard} {candidate : Slot} {bounds : Bounds}

theorem planLoop_runs {fuel : ℕ} {kept : List Bool} (evicted : List ℕ)
    (h : kept.count true < fuel) : PlanRun held guards candidate bounds kept evicted
      (planLoop held guards candidate bounds fuel kept evicted) := by
  induction fuel generalizing kept evicted with
  | zero => exact absurd h (Nat.not_lt_zero _)
  | succ fuel ih =>
    rw [planLoop]
    split_ifs with hfits
    · exact .fits hfits
    · have hfull : fits (keptSlots held kept) candidate bounds = false := by simpa using hfits
      cases hv : victim held guards kept candidate with
      | none => exact .refused hfull hv
      | some index =>
        have hcount := victim_count hv
        exact .evict hfull hv (ih (evicted ++ [index]) (by omega))

theorem planEvictions_runs (replacing : Option ℕ) :
    PlanRun held guards candidate bounds (stayFlags held.length replacing []) []
      (planEvictions held guards replacing candidate bounds) := by
  rw [planEvictions, ← stayFlags_nil]
  apply planLoop_runs
  have hlen : (stayFlags held.length replacing []).length = held.length := by simp [stayFlags]
  have hcount := List.count_le_length (a := true) (l := stayFlags held.length replacing [])
  omega

/-- What every round keeps holds where the loop returns. -/
theorem PlanRun.invariant {P : List Bool → List ℕ → Prop}
    (step : ∀ kept evicted index, P kept evicted → victim held guards kept candidate = some index →
      Kel.fits (keptSlots held kept) candidate bounds = false →
      P (kept.set index false) (evicted ++ [index]))
    {kept : List Bool} {evicted : List ℕ} {result : Option (List ℕ)} (h : P kept evicted)
    (hrun : PlanRun held guards candidate bounds kept evicted result) :
    ∃ kept' evicted', P kept' evicted' ∧
      ((result = some evicted' ∧ Kel.fits (keptSlots held kept') candidate bounds = true) ∨
        (result = none ∧ Kel.fits (keptSlots held kept') candidate bounds = false ∧
          victim held guards kept' candidate = none)) := by
  induction hrun with
  | fits hfits => exact ⟨_, _, h, .inl ⟨rfl, hfits⟩⟩
  | refused hfull hv => exact ⟨_, _, h, .inr ⟨rfl, hfull, hv⟩⟩
  | evict hfull hv _ ih => exact ih (step _ _ _ h hv hfull)

theorem mem_evictable {kept : List Bool} {index : ℕ} {slot : Slot}
    (h : Evictable held guards candidate kept index slot) :
    ((slot, index), true) ∈ (held.zipIdx.zip kept).filter (fun t =>
      t.2 && !guarded guards kept t.1.2 && decide (t.1.1.rank ≠ .rank1) &&
        decide (candidate.rank.number ≤ t.1.1.rank.number)) := by
  rw [List.mem_filter]
  constructor
  · apply List.mem_of_getElem? (i := index)
    rw [List.getElem?_zip_eq_some, List.getElem?_zipIdx, h.isHeld]
    exact ⟨by simp, h.isKept⟩
  · simp [h.unguarded, h.rank, h.number]

theorem victim_evictable {kept : List Bool} {index : ℕ}
    (h : victim held guards kept candidate = some index) :
    ∃ slot, Evictable held guards candidate kept index slot ∧
      ∀ j other, Evictable held guards candidate kept j other → other.order ≤ slot.order := by
  obtain ⟨hkept, hguard, slot, hslot, hrank, hnumber⟩ := victim_spec h
  refine ⟨slot, ⟨hslot, hkept, hguard, hrank, hnumber⟩, ?_⟩
  intro j other hother
  simp only [victim, Option.map_eq_some_iff] at h
  obtain ⟨t, ht, rfl⟩ := h
  have hmax := List.le_of_mem_argmax (List.mem_reverse.mpr (mem_evictable hother)) ht
  -- The entry found is the one at the index it names.
  have hmem := List.mem_of_mem_filter (List.mem_reverse.mp (List.argmax_mem ht))
  obtain ⟨k, hk⟩ := List.mem_iff_getElem?.mp hmem
  rw [List.getElem?_zip_eq_some, List.getElem?_zipIdx, Option.map_eq_some_iff] at hk
  obtain ⟨⟨slot', hslot', hpair⟩, -⟩ := hk
  rw [← hpair, Nat.zero_add] at hslot
  rw [hslot', Option.some.injEq] at hslot
  rw [← hpair, hslot] at hmax
  exact hmax

theorem not_evictable_of_victim {kept : List Bool}
    (h : victim held guards kept candidate = none) (index : ℕ) (slot : Slot) :
    ¬ Evictable held guards candidate kept index slot := by
  intro hev
  simp only [victim, Option.map_eq_none_iff, List.argmax_eq_none, List.reverse_eq_nil_iff] at h
  have hmem := mem_evictable hev
  rw [h] at hmem
  exact absurd hmem List.not_mem_nil

/-- What one round did: it evicted the greatest suffix that might go, the rest not fitting. -/
structure Round (held : List Slot) (guards : List Guard) (replacing : Option ℕ) (candidate : Slot)
    (bounds : Bounds) (before : List ℕ) (index : ℕ) : Prop where
  greatest : ∃ slot, Evictable held guards candidate (stayFlags held.length replacing before) index
      slot ∧ ∀ j other, Evictable held guards candidate (stayFlags held.length replacing before) j
        other → other.order ≤ slot.order
  tight : fits (leftSlots held replacing before) candidate bounds = false

/-- Where the loop stands when those at `evicted` went, each in its round. -/
structure Rounds (held : List Slot) (guards : List Guard) (replacing : Option ℕ) (candidate : Slot)
    (bounds : Bounds) (kept : List Bool) (evicted : List ℕ) : Prop where
  flags : kept = stayFlags held.length replacing evicted
  nodup : evicted.Nodup
  rounds : ∀ before index after, evicted = before ++ index :: after →
    Round held guards replacing candidate bounds before index

theorem Rounds.start (replacing : Option ℕ) : Rounds held guards replacing candidate bounds
    (stayFlags held.length replacing []) [] where
  flags := rfl
  nodup := List.nodup_nil
  rounds := by
    intro before index after h
    simp at h

theorem Rounds.next {replacing : Option ℕ} {kept : List Bool} {evicted : List ℕ} {index : ℕ}
    (h : Rounds held guards replacing candidate bounds kept evicted)
    (hv : victim held guards kept candidate = some index)
    (hfull : fits (keptSlots held kept) candidate bounds = false) :
    Rounds held guards replacing candidate bounds (kept.set index false) (evicted ++ [index]) := by
  obtain ⟨rfl, hnodup, hrounds⟩ := h
  obtain ⟨slot, hslot, hmax⟩ := victim_evictable hv
  refine ⟨stayFlags_set index, ?_, ?_⟩
  · have hnew := (stayFlags_getElem?.mp hslot.isKept).2.1
    rw [List.nodup_append]
    refine ⟨hnodup, List.nodup_singleton index, ?_⟩
    intro i hi j hj hij
    rw [hij, List.mem_singleton.mp hj] at hi
    exact hnew hi
  · intro before i after heq
    rcases List.eq_nil_or_concat after with rfl | ⟨after', last, rfl⟩
    · -- The round just made.
      obtain ⟨rfl, rfl⟩ := List.append_singleton_inj.mp heq
      exact ⟨⟨slot, hslot, hmax⟩, hfull⟩
    · have hsplit : evicted ++ [index] = (before ++ i :: after') ++ [last] := by simpa using heq
      exact hrounds before i after' (List.append_singleton_inj.mp hsplit).1

theorem planEvictions_rounds (held : List Slot) (guards : List Guard) (replacing : Option ℕ)
    (candidate : Slot) (bounds : Bounds) :
    ∃ evicted, Rounds held guards replacing candidate bounds
        (stayFlags held.length replacing evicted) evicted ∧
      ((planEvictions held guards replacing candidate bounds = some evicted ∧
          fits (leftSlots held replacing evicted) candidate bounds = true) ∨
        (planEvictions held guards replacing candidate bounds = none ∧
          fits (leftSlots held replacing evicted) candidate bounds = false ∧
          victim held guards (stayFlags held.length replacing evicted) candidate = none)) := by
  obtain ⟨kept, evicted, hrounds, hend⟩ := PlanRun.invariant
    (fun _ _ _ h hv hfull => Rounds.next h hv hfull) (Rounds.start replacing)
    (planEvictions_runs replacing)
  obtain rfl := hrounds.flags
  exact ⟨evicted, hrounds, hend⟩

/-- The code's tally is the exact one up to the largest `u64`. -/
theorem unionBytes_eq_onceBytes (slots : List Slot) :
    unionBytes slots = min (onceBytes slots) u64Max := by
  have hnodup := OrderedMap.nodup_keys_orInsertAll ([] : OrderedMap Digest ℕ)
    (slots.flatMap (·.events)).reverse List.nodup_nil
  have hkeys : ((OrderedMap.orInsertAll ([] : OrderedMap Digest ℕ)
      (slots.flatMap (·.events)).reverse).map Prod.fst).Perm
        ((slots.flatMap (·.events)).map Prod.fst).dedup := by
    apply (List.perm_ext_iff_of_nodup hnodup (List.nodup_dedup _)).mpr
    intro d
    rw [OrderedMap.mem_keys_orInsertAll, List.mem_dedup, List.map_reverse, List.mem_reverse]
    simp
  unfold unionBytes onceBytes
  rw [foldl_saturatingAdd _ _ (Nat.zero_le _), Nat.zero_add, ← (hkeys.map _).sum_eq, List.map_map]
  congr 2
  apply List.map_congr_left
  intro e he
  have hget := OrderedMap.get_of_mem hnodup he
  rw [OrderedMap.get_orInsertAll] at hget
  have hlast : OrderedMap.get (slots.flatMap (·.events)).reverse e.1 = some e.2 := hget
  rw [Function.comp, lastLen, ← OrderedMap.get, hlast, Option.getD_some]

theorem fits_iff {kept : List Slot} :
    fits kept candidate bounds = true ↔ kept.length+1 ≤ bounds.suffixes ∧
      min (onceBytes (kept ++ [candidate])) u64Max ≤ bounds.bytes := by
  rw [fits, Bool.and_eq_true, decide_eq_true_eq, decide_eq_true_eq, unionBytes_eq_onceBytes]

/-- With open guards a rank-1 candidate evicts every suffix of another rank first. -/
theorem leftSlots_rank1 {replacing : Option ℕ} {evicted : List ℕ}
    (hopened : ∀ guard ∈ guards, guard = .opened) (hcandidate : candidate.rank = .rank1)
    (hrounds : Rounds held guards replacing candidate bounds
      (stayFlags held.length replacing evicted) evicted)
    (hv : victim held guards (stayFlags held.length replacing evicted) candidate = none) :
    leftSlots held replacing evicted =
      (leftSlots held replacing []).filter (fun slot => slot.rank = .rank1) := by
  have hmem {slot : Slot} {index : ℕ} (h : (slot, index) ∈ held.zipIdx) :
      held[index]? = some slot := by
    rw [List.mem_zipIdx_iff_getElem?] at h
    exact h
  rw [leftSlots, leftSlots, keptSlots_stayFlags, keptSlots_stayFlags, List.filter_map,
    List.filter_filter]
  congr 1
  apply List.filter_congr
  rintro ⟨slot, index⟩ hslot
  have hget := hmem hslot
  by_cases hreplaced : replacing = some index
  · simp [hreplaced]
  · have hiff : index ∉ evicted ↔ slot.rank = .rank1 := by
      constructor
      · intro hstay
        by_contra hrank
        have hkept := stayFlags_getElem?.mpr
          ⟨(List.getElem?_eq_some_iff.mp hget).1, hstay, hreplaced⟩
        apply not_evictable_of_victim hv index slot
        refine ⟨hget, hkept, ?_, hrank, ?_⟩
        · unfold guarded
          cases hg : guards[index]? with
          | none => rfl
          | some guard => rw [hopened guard (List.mem_of_getElem? hg)]
        · rw [hcandidate]
          cases slot.rank <;> decide
      · intro hrank hgone
        obtain ⟨before, after, hsplit⟩ := List.append_of_mem hgone
        obtain ⟨⟨other, hother, -⟩, -⟩ := hrounds.rounds before index after hsplit
        have heq : slot = other := Option.some.inj (hget.symm.trans hother.isHeld)
        exact hother.rank (heq ▸ hrank)
    simp [hreplaced, hiff]

end Eviction

/-- The loop returns. A plan evicts distinct suffixes, none of them the replaced one, of rank 1
or of a rank number below the candidate's, each the greatest in rank number and moment of those
that might go in its round; before the last the rest did not fit, and after it the rest fits
both bounds with each digest counted once. With open guards a rank-1 candidate is refused only
where it exceeds a bound with the rank-1 suffixes alone. -/
theorem planEvictions_greedy (held : List Slot) (guards : List Guard) (replacing : Option ℕ)
    (candidate : Slot) (bounds : Bounds) :
    PlanRun held guards candidate bounds (stayFlags held.length replacing []) []
        (planEvictions held guards replacing candidate bounds) ∧
      (∀ evicted, planEvictions held guards replacing candidate bounds = some evicted →
        evicted.Nodup ∧
        (∀ index ∈ evicted, replacing ≠ some index ∧ ∃ slot, held[index]? = some slot ∧
          slot.rank ≠ .rank1 ∧ candidate.rank.number ≤ slot.rank.number) ∧
        (∀ before index after, evicted = before ++ index :: after →
          Round held guards replacing candidate bounds before index) ∧
        (leftSlots held replacing evicted).length+1 ≤ bounds.suffixes ∧
        min (onceBytes (leftSlots held replacing evicted ++ [candidate])) u64Max ≤ bounds.bytes) ∧
      ((∀ guard ∈ guards, guard = .opened) → candidate.rank = .rank1 →
        planEvictions held guards replacing candidate bounds = none →
        let rank1 := (leftSlots held replacing []).filter (fun slot => slot.rank = .rank1)
        bounds.suffixes < rank1.length+1 ∨ bounds.bytes < onceBytes (rank1 ++ [candidate])) := by
  obtain ⟨evicted, hrounds, hend⟩ := planEvictions_rounds held guards replacing candidate bounds
  refine ⟨planEvictions_runs replacing, ?_, ?_⟩
  · intro evicted' hplan
    rcases hend with ⟨hsome, hfits⟩ | ⟨hnone, -⟩
    · obtain rfl : evicted = evicted' := Option.some.inj (hsome.symm.trans hplan)
      refine ⟨hrounds.nodup, ?_, hrounds.rounds, fits_iff.mp hfits⟩
      intro index hindex
      obtain ⟨before, after, hsplit⟩ := List.append_of_mem hindex
      obtain ⟨⟨slot, hslot, -⟩, -⟩ := hrounds.rounds before index after hsplit
      exact ⟨(stayFlags_getElem?.mp hslot.isKept).2.2, slot, hslot.isHeld, hslot.rank,
        hslot.number⟩
    · rw [hnone] at hplan
      cases hplan
  · intro hopened hcandidate hplan
    rcases hend with ⟨hsome, -⟩ | ⟨-, hfull, hv⟩
    · rw [hsome] at hplan
      cases hplan
    · rw [leftSlots_rank1 hopened hcandidate hrounds hv, ← Bool.not_eq_true, fits_iff] at hfull
      dsimp only
      by_contra hfit
      push Not at hfit
      exact hfull ⟨hfit.1, le_trans (min_le_left _ _) hfit.2⟩

/-- Three suffixes, of which the rank-3 one goes for a rank-2 candidate. -/
def samplePlanHeld : List Slot :=
  [⟨.rank3, 5, [(1#256, 10), (2#256, 20)]⟩, ⟨.rank2, 7, [(1#256, 10), (3#256, 10)]⟩,
    ⟨.rank1, 3, [(1#256, 10), (4#256, 30)]⟩]

def samplePlanCandidate : Slot := ⟨.rank2, 9, [(5#256, 10)]⟩

theorem planEvictions_greedy_sample :
    planEvictions samplePlanHeld [] none samplePlanCandidate ⟨3, 60⟩ = some [0] ∧
      ([0] : List ℕ).Nodup ∧
      Round samplePlanHeld [] none samplePlanCandidate ⟨3, 60⟩ [] 0 ∧
      (leftSlots samplePlanHeld none [0]).length+1 ≤ 3 := by
  have hplan : planEvictions samplePlanHeld [] none samplePlanCandidate ⟨3, 60⟩ = some [0] := by
    decide +kernel
  obtain ⟨-, hsome, -⟩ := planEvictions_greedy samplePlanHeld [] none samplePlanCandidate ⟨3, 60⟩
  obtain ⟨hnodup, -, hrounds, hcount, -⟩ := hsome [0] hplan
  exact ⟨hplan, hnodup, hrounds [] 0 [] rfl, hcount⟩

end ScpCore.Kel
