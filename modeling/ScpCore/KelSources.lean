import ScpCore.KelServed
import ScpCore.KelVerdict

/-! What the sources of a resolution serve: chains of the world their units lie
in, and, up to the copies that carry the events, the same chains whatever the
order of the units. -/

namespace ScpCore.Kel

section Invalid
variable {C : Crypto} {identifier : Identifier} {asm : Assembly}

theorem inceptionRest_invalid {failure : InceptionFailure} {rest : List Bytes}
    {defect : InceptionDefect} (hf : ∀ defect, failure ≠ .invalid defect)
    (h : inceptionRest C identifier failure rest = .error (.invalid defect)) :
    ∃ u ∈ rest, checkInception C u (some identifier) .signed = .error (.invalid defect) := by
  induction rest with
  | nil => exact absurd (Except.error.inj h) (hf defect)
  | cons copy rest ih =>
    unfold inceptionRest at h
    split at h
    · cases h
    · rename_i defect' hinvalid
      cases h
      exact ⟨copy, List.mem_cons_self, hinvalid⟩
    · obtain ⟨u, hu, hinvalid⟩ := ih h
      exact ⟨u, List.mem_cons_of_mem _ hu, hinvalid⟩

theorem inception_invalid {copies : Copies} {defect : InceptionDefect}
    (h : inception C identifier copies = .error (.invalid defect)) :
    ∃ u ∈ copies.all, checkInception C u (some identifier) .signed = .error (.invalid defect) := by
  unfold inception at h
  split at h
  · cases h
  · rename_i defect' hinvalid
    cases h
    exact ⟨copies.first, List.mem_cons_self, hinvalid⟩
  · obtain ⟨u, hu, hinvalid⟩ := inceptionRest_invalid (by simp) h
    exact ⟨u, List.mem_cons_of_mem _ hu, hinvalid⟩

/-- The defect found, if any, was read from a group that recomputes to the
identifier. -/
theorem readRoots_invalid (ids : List ℕ) (r : Roots) {defect : InceptionDefect}
    (h : (ids.foldl (readRoot C identifier asm) r).invalid = some defect) :
    r.invalid = some defect ∨ ∃ i ∈ ids, ∃ g, asm.groups[i]? = some g ∧
      g.recomputed = identifier ∧ inception C identifier g.copies = .error (.invalid defect) := by
  induction ids generalizing r with
  | nil => exact .inl h
  | cons i ids ih =>
    rcases ih _ h with hr | ⟨j, hj, hrest⟩
    · unfold readRoot at hr
      split at hr
      · exact .inl hr
      · rename_i g hg
        split_ifs at hr with hid
        · exact .inl hr
        · split at hr
          · exact .inl hr
          · rename_i defect' hinvalid
            cases hr
            exact .inr ⟨i, List.mem_cons_self, g, hg, not_not.mp hid, hinvalid⟩
          · exact .inl hr
    · exact .inr ⟨j, List.mem_cons_of_mem _ hj, hrest⟩

/-- A defect once found stays. -/
theorem readRoots_invalid_kept (ids : List ℕ) (r : Roots) (h : r.invalid.isSome) :
    (ids.foldl (readRoot C identifier asm) r).invalid.isSome := by
  induction ids generalizing r with
  | nil => exact h
  | cons i ids ih =>
    apply ih
    unfold readRoot
    split
    · exact h
    · split_ifs
      · exact h
      · split
        · exact h
        · rfl
        · exact h

theorem readRoots_invalid_of {ids : List ℕ} {i : ℕ} (hi : i ∈ ids) {g : Group}
    (hg : asm.groups[i]? = some g) (hid : g.recomputed = identifier) {defect : InceptionDefect}
    (h : inception C identifier g.copies = .error (.invalid defect)) (r : Roots) :
    (ids.foldl (readRoot C identifier asm) r).invalid.isSome := by
  obtain ⟨before, after, rfl⟩ := List.append_of_mem hi
  rw [List.foldl_append, List.foldl_cons]
  apply readRoots_invalid_kept
  simp [readRoot, hg, hid, h]

end Invalid

section Kinds
variable {C : Crypto} {identifier : Identifier} {units : List Bytes}
  (hcf : CollisionFree C (preimagesOf units))
include hcf

/-- An entry is invalid exactly where a unit of it is. -/
theorem entryChains_none_iff : Served.entryChains C identifier units = none ↔
    ∃ u ∈ units, ∃ defect,
      checkInception C u (some identifier) .signed = .error (.invalid defect) := by
  have hasm : Assembled C identifier units (Assembly.new C identifier units) := assembled_new units
  have hnone : Served.entryChains C identifier units = none ↔
      (readRoots C identifier (Assembly.new C identifier units)).invalid.isSome := by
    unfold Served.entryChains validateEntry
    cases hinvalid : (readRoots C identifier (Assembly.new C identifier units)).invalid with
    | some defect => simp [hinvalid]
    | none =>
      cases hroot : (readRoots C identifier (Assembly.new C identifier units)).root with
      | none => simp [hinvalid, hroot]
      | some root => simp [hinvalid, hroot]
  rw [hnone]
  constructor
  · intro h
    obtain ⟨defect, hdefect⟩ := Option.isSome_iff_exists.mp h
    rcases readRoots_invalid _ _ hdefect with hstart | ⟨i, -, g, hg, -, hinvalid⟩
    · cases hstart
    · obtain ⟨u, hu, hinvalid⟩ := inception_invalid hinvalid
      exact ⟨u, (copies_served hasm (List.mem_of_getElem? hg) hu).1, defect, hinvalid⟩
  · intro h
    obtain ⟨u, hu, defect, hinvalid⟩ := h
    obtain ⟨fields, predecessor, hplace, hid⟩ := placement_of_invalid hinvalid
    obtain ⟨i, g, hi, hg, hcopy, hdig, hrec⟩ := group_of_inception hasm hcf hu hplace hid
    have hfirst := copies_fields hasm hcf (List.mem_of_getElem? hg)
      (preimage_served hu hplace) hdig g.copies.first List.mem_cons_self
    have hinvalid' := (checkInception_invalid_iff hfirst defect).mpr
      ((checkInception_invalid_iff (placement_reads hplace).1 defect).mp hinvalid)
    have hinception : inception C identifier g.copies = .error (.invalid defect) := by
      rw [inception, hinvalid']
    exact readRoots_invalid_of hi hg hrec hinception _

/-- The chains of an entry, up to the copies. -/
theorem mem_entryChains (hzero : ∀ signed ∈ preimagesOf units, C.sha256 signed ≠ 0)
    {chains : List ValidatedChain} (h : Served.entryChains C identifier units = some chains)
    (bare : ValidatedChain) :
    bare ∈ chains.map ValidatedChain.strip ↔ ∃ c, BuiltFrom C identifier units c ∧
      c.strip = bare ∧ ∀ u ∈ units, ∀ b, checkSuccessor C c u .signed ≠ .ok b := by
  cases hv : validateEntry C identifier units with
  | mk verdict discarded =>
    cases verdict with
    | inceptionInvalid defect => simp [Served.entryChains, hv] at h
    | noInception =>
      simp only [Served.entryChains, hv, Option.some.injEq] at h
      rw [← h]
      constructor
      · intro hmem
        cases hmem
      · intro hmem
        obtain ⟨c, hbuilt, -, -⟩ := hmem
        obtain ⟨u, a, hu, hok⟩ := hbuilt.inception_served
        obtain ⟨i, g, a', hroot⟩ := rooted_of_inception (assembled_new units) hcf hu hok
        obtain ⟨chains', discarded', heq, -⟩ := hroot.returns hcf
        rw [hv, EntryValidation.mk.injEq] at heq
        cases heq.1
    | valid chains' =>
      simp only [Served.entryChains, hv, Option.some.injEq] at h
      rw [← h]
      obtain ⟨i, g, a, hroot⟩ := rooted_of_valid hv
      obtain ⟨chains₁, discarded₁, heq, -, -, -, hmem⟩ := hroot.returns hcf
      rw [hv, EntryValidation.mk.injEq, EntryVerdict.valid.injEq] at heq
      obtain ⟨rfl, rfl⟩ := heq
      exact hroot.mem_strips hcf hzero hmem bare

omit hcf in
theorem BuiltFrom.validIn {seen : Set Bytes} (hseen : preimagesOf units ⊆ seen)
    {c : ValidatedChain} (h : BuiltFrom C identifier units c) (hlen : c.later.length ≤ vecMax) :
    ValidIn C seen identifier c := by
  induction h with
  | @inception u a hu hok =>
    refine ⟨[a], .inception hok, ?_⟩
    intro x hx
    rw [List.mem_singleton.mp hx]
    exact hseen (inception_preimage hu hok)
  | @push c u a _ hu hok ih =>
    have hpush : (c.push C a).later.length = c.later.length+1 := by
      simp [ValidatedChain.push, ValidatedChain.record]
    rw [hpush] at hlen
    exact (ih (by omega)).push hlen hok (hseen (successor_preimage hu hok))

/-- The chains of an entry are valid chains of its identifier. -/
theorem entryChains_validIn {seen : Set Bytes} (hseen : preimagesOf units ⊆ seen)
    (hroom : units.length ≤ vecMax) {chains : List ValidatedChain}
    (h : Served.entryChains C identifier units = some chains) :
    ∀ c ∈ chains, ValidIn C seen identifier c := by
  have hasm : Assembled C identifier units (Assembly.new C identifier units) := assembled_new units
  cases hv : validateEntry C identifier units with
  | mk verdict discarded =>
    cases verdict with
    | inceptionInvalid defect => simp [Served.entryChains, hv] at h
    | noInception =>
      simp only [Served.entryChains, hv, Option.some.injEq] at h
      rw [← h]
      simp
    | valid chains' =>
      simp only [Served.entryChains, hv, Option.some.injEq] at h
      rw [← h]
      obtain ⟨i, g, a, hroot⟩ := rooted_of_valid hv
      obtain ⟨chains₁, discarded₁, heq, -, -, hlen, hmem⟩ := hroot.returns hcf
      rw [hv, EntryValidation.mk.injEq, EntryVerdict.valid.injEq] at heq
      obtain ⟨rfl, rfl⟩ := heq
      obtain ⟨u₀, hu₀, hok₀, -, -⟩ := hroot.copy hasm
      intro c hc
      have hbuilt := (((hmem c).mp hc).2.served hasm (.inception hu₀ hok₀)).1
      have hle := hlen c hc
      unfold ValidatedChain.len at hle
      exact hbuilt.validIn hseen (by omega)

end Kinds

end ScpCore.Kel
