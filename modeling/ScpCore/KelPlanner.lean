import ScpCore.KelRetention

/-! The eviction planner: what a plan it returns guarantees. The suffixes that
stay fit the bounds, and every suffix that goes is covered by one that stays or
by the basis or the candidate. -/

namespace ScpCore.Kel

section Planner
variable {held : List Slot} {guards : List Guard} {candidate : Slot} {bounds : Bounds}

/-- A victim is kept so far, unguarded, and ranks no better than the candidate. -/
theorem victim_spec {kept : List Bool} {index : ℕ}
    (h : victim held guards kept candidate = some index) :
    kept[index]? = some true ∧ guarded guards kept index = false ∧
      ∃ slot, held[index]? = some slot ∧ slot.rank ≠ .rank1 ∧
        candidate.rank.number ≤ slot.rank.number := by
  simp only [victim, Option.map_eq_some_iff] at h
  obtain ⟨t, ht, rfl⟩ := h
  have hmem := List.argmax_mem ht
  rw [List.mem_reverse, List.mem_filter] at hmem
  obtain ⟨hzip, hcond⟩ := hmem
  simp only [Bool.and_eq_true, Bool.not_eq_true', decide_eq_true_eq] at hcond
  obtain ⟨k, hk⟩ := List.mem_iff_getElem?.mp hzip
  rw [List.getElem?_zip_eq_some, List.getElem?_zipIdx, Option.map_eq_some_iff] at hk
  obtain ⟨⟨slot, hslot, hpair⟩, hflag⟩ := hk
  have hindex : t.1.2 = k := by rw [← hpair]; simp
  have hs : t.1.1 = slot := by rw [← hpair]
  rw [hindex]
  refine ⟨?_, ?_, slot, hslot, ?_, ?_⟩
  · rw [hflag, hcond.1.1.1]
  · rw [← hindex]
    exact hcond.1.1.2
  · rw [← hs]
    exact hcond.1.2
  · rw [← hs]
    exact hcond.2

/-- What every round keeps holds of a plan, which fits. -/
theorem planLoop_invariant {P : List Bool → List ℕ → Prop}
    (step : ∀ kept evicted index, P kept evicted → victim held guards kept candidate = some index →
      fits (keptSlots held kept) candidate bounds = false →
      P (kept.set index false) (evicted ++ [index]))
    {fuel : ℕ} {kept : List Bool} {evicted result : List ℕ} (h : P kept evicted)
    (hplan : planLoop held guards candidate bounds fuel kept evicted = some result) :
    ∃ kept', P kept' result ∧ fits (keptSlots held kept') candidate bounds = true := by
  induction fuel generalizing kept evicted with
  | zero => cases hplan
  | succ fuel ih =>
    simp only [planLoop] at hplan
    split_ifs at hplan with hfits
    · rw [Option.some.injEq] at hplan
      rw [← hplan]
      exact ⟨kept, h, hfits⟩
    · rw [Option.bind_eq_some_iff] at hplan
      obtain ⟨index, hv, hplan⟩ := hplan
      exact ih (step kept evicted index h hv (by simpa using hfits)) hplan

/-- Each round turns one kept flag off. -/
theorem victim_count {kept : List Bool} {index : ℕ}
    (h : victim held guards kept candidate = some index) :
    (kept.set index false).count true+1 = kept.count true := by
  obtain ⟨hkept, _, _⟩ := victim_spec h
  obtain ⟨hlt, hget⟩ := List.getElem?_eq_some_iff.mp hkept
  have hset := List.count_set (a := false) (b := true) hlt
  rw [hget] at hset
  have hpos : 0 < kept.count true := List.count_pos_iff.mpr (List.mem_of_getElem? hkept)
  simp only [beq_self_eq_true, if_true] at hset
  rw [hset]
  simp
  omega

/-- The flags of the suffixes that neither went nor are replaced. -/
def stayFlags (n : ℕ) (replacing : Option ℕ) (evicted : List ℕ) : List Bool :=
  (List.range n).map (fun index => decide (index ∉ evicted ∧ replacing ≠ some index))

theorem stayFlags_getElem? {n : ℕ} {replacing : Option ℕ} {evicted : List ℕ} {index : ℕ} :
    (stayFlags n replacing evicted)[index]? = some true ↔
      index < n ∧ index ∉ evicted ∧ replacing ≠ some index := by
  simp only [stayFlags, List.getElem?_map, Option.map_eq_some_iff, decide_eq_true_eq]
  constructor
  · intro h
    obtain ⟨i, hi, hstay⟩ := h
    obtain ⟨hlt, rfl⟩ := List.getElem?_eq_some_iff.mp hi
    rw [List.getElem_range] at hstay
    exact ⟨by simpa using hlt, hstay⟩
  · intro h
    exact ⟨index, by simp [h.1], h.2⟩

/-- At first every suffix but the replaced one stays. -/
theorem stayFlags_nil (n : ℕ) (replacing : Option ℕ) : stayFlags n replacing [] =
    (List.range n).map (fun index => decide (some index ≠ replacing)) := by
  simp only [stayFlags, List.not_mem_nil, not_false_eq_true, true_and, ne_eq, eq_comm]

theorem stayFlags_set {n : ℕ} {replacing : Option ℕ} {evicted : List ℕ} (index : ℕ) :
    (stayFlags n replacing evicted).set index false = stayFlags n replacing (evicted ++ [index]) := by
  apply List.ext_getElem
  · simp [stayFlags]
  · intro i h₁ h₂
    rw [List.getElem_set]
    by_cases hi : index = i
    · simp [stayFlags, hi]
    · have hi' : i ≠ index := fun h => hi h.symm
      simp [stayFlags, hi, hi']

theorem keptSlots_stayFlags (held : List Slot) (replacing : Option ℕ) (evicted : List ℕ) :
    keptSlots held (stayFlags held.length replacing evicted) =
      (held.zipIdx.filter (fun t => t.2 ∉ evicted ∧ replacing ≠ some t.2)).map (·.1) := by
  have hgen : ∀ (held : List Slot) (start : ℕ) (p : ℕ → Bool),
      ((held.zip ((List.range' start held.length).map p)).filter (·.2)).map (·.1) =
        ((held.zipIdx start).filter (fun t => p t.2)).map (·.1) := by
    intro held
    induction held with
    | nil => intro start p; rfl
    | cons slot held ih =>
      intro start p
      have h := ih (start+1) p
      simp only [List.length_cons, List.range'_succ, List.map_cons, List.zip_cons_cons,
        List.zipIdx_cons, List.filter_cons]
      by_cases hp : p start = true
      · simp only [hp, if_true, List.map_cons, h]
      · simp only [hp, if_false, h, Bool.false_eq_true]
  unfold keptSlots stayFlags
  rw [List.range_eq_range', hgen]

/-- A plan takes only kept suffixes, and the rest fits with the candidate. -/
theorem planEvictions_fits {replacing : Option ℕ} {evict : List ℕ}
    (h : planEvictions held guards replacing candidate bounds = some evict) :
    fits ((held.zipIdx.filter (fun t => t.2 ∉ evict ∧ replacing ≠ some t.2)).map (·.1)) candidate
      bounds = true ∧ ∀ i ∈ evict, i < held.length ∧ replacing ≠ some i := by
  rw [planEvictions, ← stayFlags_nil] at h
  obtain ⟨kept, ⟨rfl, hall⟩, hfits⟩ := planLoop_invariant
    (P := fun kept evicted => kept = stayFlags held.length replacing evicted ∧
      ∀ i ∈ evicted, i < held.length ∧ replacing ≠ some i)
    (by
      intro kept evicted index hP hv _
      obtain ⟨rfl, hall⟩ := hP
      obtain ⟨hkept, _, _⟩ := victim_spec hv
      obtain ⟨hlt, _, hne⟩ := stayFlags_getElem?.mp hkept
      refine ⟨stayFlags_set index, ?_⟩
      intro i hi
      rcases List.mem_append.mp hi with hi | hi
      · exact hall i hi
      · rw [List.mem_singleton.mp hi]
        exact ⟨hlt, hne⟩)
    ⟨rfl, by simp⟩ h
  rw [keptSlots_stayFlags] at hfits
  exact ⟨hfits, hall⟩

/-- A candidate that fits with every suffix it does not replace evicts nothing. -/
theorem planEvictions_of_fits {replacing : Option ℕ}
    (h : fits ((held.zipIdx.filter (fun t => t.2 ∉ ([] : List ℕ) ∧ replacing ≠ some t.2)).map (·.1))
      candidate bounds = true) :
    planEvictions held guards replacing candidate bounds = some [] := by
  rw [planEvictions, ← stayFlags_nil, planLoop, keptSlots_stayFlags, if_pos h]

/-- Sound guards make a plan safe. `covers i j` says suffix `j` covers suffix
`i`, and `safe i` that something which always stays does. -/
theorem planEvictions_covers (covers : ℕ → ℕ → Prop) (safe : ℕ → Prop)
    (refl : ∀ i, covers i i) (trans : ∀ i j k, covers i j → covers j k → covers i k)
    (safe_of : ∀ i j, covers i j → safe j → safe i)
    (opened : ∀ i, guards[i]? = some .opened → safe i)
    (tied : ∀ i beatenBy, guards[i]? = some (.tied beatenBy) →
      ∀ j ∈ beatenBy, j ≠ i ∧ covers i j)
    {replacing : Option ℕ} (hreplacing : ∀ i ∈ replacing, safe i)
    (hguards : guards.length = held.length ∨
      fits (keptSlots held (stayFlags held.length replacing [])) candidate bounds = true)
    {evict : List ℕ} (h : planEvictions held guards replacing candidate bounds = some evict) :
    ∀ i < held.length, safe i ∨
      ∃ j < held.length, j ∉ evict ∧ replacing ≠ some j ∧ covers i j := by
  have hstart : ∀ i < held.length, safe i ∨
      ∃ j < held.length, j ∉ ([] : List ℕ) ∧ replacing ≠ some j ∧ covers i j := by
    intro i hi
    by_cases hr : replacing = some i
    · exact Or.inl (hreplacing i hr)
    · exact Or.inr ⟨i, hi, List.not_mem_nil, hr, refl i⟩
  rw [planEvictions, ← stayFlags_nil] at h
  rcases hguards with hlen | hfits
  · obtain ⟨_, ⟨_, hall⟩, _⟩ := planLoop_invariant
      (P := fun kept evicted => kept = stayFlags held.length replacing evicted ∧
        ∀ i < held.length, safe i ∨
          ∃ j < held.length, j ∉ evicted ∧ replacing ≠ some j ∧ covers i j)
      (by
        intro kept evicted v hP hv _
        obtain ⟨rfl, hall⟩ := hP
        obtain ⟨hkept, hguard, _⟩ := victim_spec hv
        obtain ⟨hlt, _, hne⟩ := stayFlags_getElem?.mp hkept
        refine ⟨stayFlags_set v, ?_⟩
        -- What covers the victim once it is gone.
        have hv' : safe v ∨
            ∃ j < held.length, j ∉ evicted ++ [v] ∧ replacing ≠ some j ∧ covers v j := by
          unfold guarded at hguard
          have hget := List.getElem?_eq_getElem (hlen ▸ hlt)
          rw [hget] at hguard
          cases hg : guards[v] with
          | opened => exact Or.inl (opened v (hget.trans (congrArg some hg)))
          | tied beatenBy =>
            rw [hg] at hguard
            simp only [List.all_eq_false, Bool.not_eq_true', Bool.not_eq_false] at hguard
            obtain ⟨j, hj, hstay⟩ := hguard
            have hstay' : (stayFlags held.length replacing evicted)[j]? = some true := by
              cases hf : (stayFlags held.length replacing evicted)[j]? with
              | none => simp [hf] at hstay
              | some flag => simpa [hf] using hstay
            obtain ⟨hjlt, hjev, hjr⟩ := stayFlags_getElem?.mp hstay'
            obtain ⟨hjv, hcov⟩ := tied v beatenBy (hget.trans (congrArg some hg)) j hj
            refine Or.inr ⟨j, hjlt, ?_, hjr, hcov⟩
            simp [hjev, hjv]
        intro i hi
        rcases hall i hi with hs | ⟨j, hj, hjev, hjr, hcov⟩
        · exact Or.inl hs
        · by_cases hjv : j = v
          · subst hjv
            rcases hv' with hs | ⟨k, hk, hkev, hkr, hcov'⟩
            · exact Or.inl (safe_of i j hcov hs)
            · exact Or.inr ⟨k, hk, hkev, hkr, trans i j k hcov hcov'⟩
          · exact Or.inr ⟨j, hj, by simp [hjev, hjv], hjr, hcov⟩)
      ⟨rfl, hstart⟩ h
    exact hall
  · simp only [planLoop, hfits, if_true, Option.some.injEq] at h
    rw [← h]
    exact hstart

end Planner

end ScpCore.Kel
