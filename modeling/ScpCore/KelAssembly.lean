import ScpCore.KelEntry

/-! What the assembly holds once every unit is placed: one group for each digest,
with its copies in served order, read either for position zero or below the
predecessor it names, and every other unit among those that joined no chain. -/

namespace ScpCore.Kel

section Assembled
variable (C : Crypto) (identifier : Identifier)

/-- The digest a unit is merged by, where it is placed. -/
def digestOf (unit : Bytes) : Option Digest :=
  (placement C identifier unit).toOption.map (fun r => eventDigestOf C r.1)

/-- The report of a unit that joins no chain where it is read. -/
def unplacedAt (p : Bytes × ℕ) : Option Discarded :=
  match placement C identifier p.1 with
  | .error defect => some (.unplaced p.2 defect)
  | .ok _ => none

structure GroupOk (units : List Bytes) (g : Group) : Prop where
  copies : g.copies.all = units.filter (fun u => digestOf C identifier u = some g.digest)
  first : units.findIdx? (fun u => digestOf C identifier u = some g.digest) = some g.firstServed
  placed : ∃ fields predecessor, placement C identifier g.copies.first = .ok (fields, predecessor) ∧
    eventDigestOf C fields = g.digest ∧ identifierOf C fields = g.recomputed

structure Assembled (units : List Bytes) (asm : Assembly) : Prop where
  nodup : (asm.groups.map Group.digest).Nodup
  group : ∀ g ∈ asm.groups, GroupOk C identifier units g
  covers : ∀ u ∈ units, ∀ d, digestOf C identifier u = some d → ∃ g ∈ asm.groups, g.digest = d
  split : (asm.inception ++ asm.named.map Prod.fst).Perm (List.range asm.groups.length)
  named : ∀ p ∈ asm.named, ∃ g fields, asm.groups[p.1]? = some g ∧
    placement C identifier g.copies.first = .ok (fields, some p.2) ∧
    Assembly.isLater C identifier fields (some p.2) = true
  inception : ∀ i ∈ asm.inception, ∃ g fields predecessor, asm.groups[i]? = some g ∧
    placement C identifier g.copies.first = .ok (fields, predecessor) ∧
    Assembly.isLater C identifier fields predecessor = false
  unplaced : asm.unplaced = units.zipIdx.filterMap (unplacedAt C identifier)

variable {C identifier}

theorem assembled_nil : Assembled C identifier [] ⟨[], [], [], []⟩ := by
  refine ⟨List.nodup_nil, ?_, ?_, ?_, ?_, ?_, rfl⟩
  · intro g hg
    cases hg
  · intro u hu
    cases hu
  · exact List.Perm.refl _
  · intro p hp
    cases hp
  · intro i hi
    cases hi

theorem digestOf_ok {unit fields : Bytes} {predecessor : Option Digest}
    (h : placement C identifier unit = .ok (fields, predecessor)) :
    digestOf C identifier unit = some (eventDigestOf C fields) := by
  simp [digestOf, h, Except.toOption]

theorem digestOf_error {unit : Bytes} {defect : EventDefect}
    (h : placement C identifier unit = .error defect) : digestOf C identifier unit = none := by
  simp [digestOf, h, Except.toOption]

/-- A unit of another digest leaves a group as it was. -/
theorem GroupOk.snoc {units : List Bytes} {g : Group} (h : GroupOk C identifier units g)
    {unit : Bytes} (hne : digestOf C identifier unit ≠ some g.digest) :
    GroupOk C identifier (units ++ [unit]) g := by
  refine ⟨?_, ?_, h.placed⟩
  · rw [List.filter_append, ← h.copies]
    simp [hne]
  · rw [List.findIdx?_append, h.first]
    rfl

theorem zipIdx_snoc (units : List Bytes) (unit : Bytes) :
    (units ++ [unit]).zipIdx = units.zipIdx ++ [(unit, units.length)] := by
  rw [List.zipIdx_append]
  simp

/-- A unit that joins no chain is only reported. -/
theorem assembled_unplaced {units : List Bytes} {asm : Assembly}
    (h : Assembled C identifier units asm) {unit : Bytes} {defect : EventDefect}
    (hu : placement C identifier unit = .error defect) :
    Assembled C identifier (units ++ [unit])
      { asm with unplaced := asm.unplaced ++ [.unplaced units.length defect] } := by
  have hnone := digestOf_error hu
  refine ⟨h.nodup, ?_, ?_, h.split, h.named, h.inception, ?_⟩
  · intro g hg
    exact (h.group g hg).snoc (by simp [hnone])
  · intro u hmem d hd
    rcases List.mem_append.mp hmem with hmem | hmem
    · exact h.covers u hmem d hd
    · rw [List.mem_singleton.mp hmem, hnone] at hd
      cases hd
  · rw [zipIdx_snoc, List.filterMap_append, ← h.unplaced]
    simp [unplacedAt, hu]

/-- A further copy joins its digest's group. -/
theorem assembled_copy {units : List Bytes} {asm : Assembly}
    (h : Assembled C identifier units asm) {unit fields : Bytes} {predecessor : Option Digest}
    (hu : placement C identifier unit = .ok (fields, predecessor))
    (hex : ∃ g ∈ asm.groups, g.digest = eventDigestOf C fields) :
    Assembled C identifier (units ++ [unit]) { asm with
      groups := asm.groups.map (fun g => if g.digest = eventDigestOf C fields then
        { g with copies := g.copies.addCopy unit } else g) } := by
  have hdig := digestOf_ok hu
  let add (g : Group) : Group := if g.digest = eventDigestOf C fields then
    { g with copies := g.copies.addCopy unit } else g
  -- A further copy changes neither the digest of a group nor its first copy.
  have hkeep (g : Group) : (add g).digest = g.digest ∧ (add g).copies.first = g.copies.first := by
    simp only [add]
    split_ifs
    · exact ⟨rfl, rfl⟩
    · exact ⟨rfl, rfl⟩
  have hget (i : ℕ) (g : Group) (hg : asm.groups[i]? = some g) :
      (asm.groups.map add)[i]? = some (add g) := by
    rw [List.getElem?_map, hg]
    rfl
  refine ⟨?_, ?_, ?_, ?_, ?_, ?_, ?_⟩
  · have hmap : (asm.groups.map add).map Group.digest = asm.groups.map Group.digest := by
      rw [List.map_map]
      exact List.map_congr_left (fun g _ => (hkeep g).1)
    exact hmap ▸ h.nodup
  · intro g' hg'
    obtain ⟨g, hg, rfl⟩ := List.mem_map.mp hg'
    have hok := h.group g hg
    by_cases hd : g.digest = eventDigestOf C fields
    · rw [if_pos hd]
      refine ⟨?_, ?_, hok.placed⟩
      · change g.copies.first :: (g.copies.rest ++ [unit]) = _
        have hcopies : g.copies.first :: g.copies.rest = _ := hok.copies
        rw [List.filter_append, ← List.cons_append, hcopies]
        simp [hdig, hd]
      · rw [List.findIdx?_append, hok.first]
        rfl
    · rw [if_neg hd]
      apply hok.snoc
      rw [hdig]
      intro heq
      exact hd (Option.some.inj heq).symm
  · intro u hmem d hd
    have hold : ∃ g ∈ asm.groups, g.digest = d := by
      rcases List.mem_append.mp hmem with hmem | hmem
      · exact h.covers u hmem d hd
      · rw [List.mem_singleton.mp hmem, hdig] at hd
        cases hd
        exact hex
    obtain ⟨g, hg, hgd⟩ := hold
    exact ⟨add g, List.mem_map.mpr ⟨g, hg, rfl⟩, (hkeep g).1.trans hgd⟩
  · simpa using h.split
  · intro p hp
    obtain ⟨g, fields', hg, hplace, hlater⟩ := h.named p hp
    refine ⟨add g, fields', hget _ _ hg, ?_, hlater⟩
    rw [(hkeep g).2]
    exact hplace
  · intro i hi
    obtain ⟨g, fields', predecessor', hg, hplace, hlater⟩ := h.inception i hi
    refine ⟨add g, fields', predecessor', hget _ _ hg, ?_, hlater⟩
    rw [(hkeep g).2]
    exact hplace
  · rw [zipIdx_snoc, List.filterMap_append, ← h.unplaced]
    simp [unplacedAt, hu]

/-- The first unit of a digest opens its group, below the predecessor it names or
for position zero. -/
theorem assembled_open {units : List Bytes} {asm : Assembly}
    (h : Assembled C identifier units asm) {unit fields : Bytes} {predecessor : Option Digest}
    (hu : placement C identifier unit = .ok (fields, predecessor))
    (hnew : ∀ g ∈ asm.groups, g.digest ≠ eventDigestOf C fields)
    {inception : List ℕ} {named : List (ℕ × Digest)}
    (hsplit : (inception ++ named.map Prod.fst).Perm
      (asm.groups.length :: (asm.inception ++ asm.named.map Prod.fst)))
    (hnamed : ∀ p ∈ named, p ∈ asm.named ∨ p.1 = asm.groups.length ∧ predecessor = some p.2 ∧
      Assembly.isLater C identifier fields predecessor = true)
    (hincept : ∀ i ∈ inception, i ∈ asm.inception ∨ i = asm.groups.length ∧
      Assembly.isLater C identifier fields predecessor = false) :
    Assembled C identifier (units ++ [unit])
      ⟨asm.groups ++ [⟨eventDigestOf C fields, ⟨unit, []⟩, units.length, identifierOf C fields⟩],
        inception, named, asm.unplaced⟩ := by
  have hdig := digestOf_ok hu
  -- No unit before this one has its digest, so it opens a group of one copy.
  have habsent : ∀ u ∈ units, digestOf C identifier u ≠ some (eventDigestOf C fields) := by
    intro u hmem hd
    obtain ⟨g, hg, hgd⟩ := h.covers u hmem _ hd
    exact hnew g hg hgd
  let group : Group :=
    ⟨eventDigestOf C fields, ⟨unit, []⟩, units.length, identifierOf C fields⟩
  have hold (i : ℕ) (g : Group) (hg : asm.groups[i]? = some g) :
      (asm.groups ++ [group])[i]? = some g := by
    obtain ⟨hi, -⟩ := List.getElem?_eq_some_iff.mp hg
    rw [List.getElem?_append_left hi]
    exact hg
  have hlast : (asm.groups ++ [group])[asm.groups.length]? = some group := by simp
  refine ⟨?_, ?_, ?_, ?_, ?_, ?_, ?_⟩
  · rw [List.map_append, List.nodup_append]
    refine ⟨h.nodup, by simp, ?_⟩
    intro a ha b hb
    obtain ⟨g, hg, rfl⟩ := List.mem_map.mp ha
    rw [List.mem_singleton.mp hb]
    exact hnew g hg
  · intro g hg
    rcases List.mem_append.mp hg with hg | hg
    · apply (h.group g hg).snoc
      rw [hdig]
      intro heq
      exact hnew g hg (Option.some.inj heq).symm
    · rw [List.mem_singleton.mp hg]
      refine ⟨?_, ?_, fields, predecessor, hu, rfl, rfl⟩
      · have hfilter : units.filter
            (fun u => digestOf C identifier u = some (eventDigestOf C fields)) = [] := by
          rw [List.filter_eq_nil_iff]
          intro u hmem
          simpa using habsent u hmem
        rw [List.filter_append, hfilter]
        simp [hdig, Copies.all]
      · have hfind : units.findIdx?
            (fun u => digestOf C identifier u = some (eventDigestOf C fields)) = none := by
          rw [List.findIdx?_eq_none_iff]
          intro u hmem
          simpa using habsent u hmem
        rw [List.findIdx?_append, hfind]
        simp [List.findIdx?_cons, hdig]
  · intro u hmem d hd
    rcases List.mem_append.mp hmem with hmem | hmem
    · obtain ⟨g, hg, hgd⟩ := h.covers u hmem d hd
      exact ⟨g, List.mem_append_left _ hg, hgd⟩
    · rw [List.mem_singleton.mp hmem, hdig] at hd
      cases hd
      exact ⟨group, by simp [group], rfl⟩
  · rw [List.length_append, List.length_singleton, List.range_succ]
    refine hsplit.trans ((h.split.cons _).trans ?_)
    exact (List.perm_append_singleton _ _).symm
  · intro p hp
    obtain hp | ⟨hp, hpred, hlater⟩ := hnamed p hp
    · obtain ⟨g, fields', hg, hplace, hlater⟩ := h.named p hp
      exact ⟨g, fields', hold _ _ hg, hplace, hlater⟩
    · rw [hpred] at hu hlater
      exact ⟨group, fields, hp ▸ hlast, hu, hlater⟩
  · intro i hi
    obtain hi | ⟨rfl, hlater⟩ := hincept i hi
    · obtain ⟨g, fields', predecessor', hg, hplace, hlater⟩ := h.inception i hi
      exact ⟨g, fields', predecessor', hold _ _ hg, hplace, hlater⟩
    · exact ⟨group, fields, predecessor, hlast, hu, hlater⟩
  · rw [zipIdx_snoc, List.filterMap_append, ← h.unplaced]
    simp [unplacedAt, hu]

theorem assembled_place {units : List Bytes} {asm : Assembly}
    (h : Assembled C identifier units asm) (unit : Bytes) :
    Assembled C identifier (units ++ [unit]) (asm.place C identifier units.length unit) := by
  unfold Assembly.place
  cases hu : placement C identifier unit with
  | error defect => exact assembled_unplaced h hu
  | ok r =>
    obtain ⟨fields, predecessor⟩ := r
    dsimp only
    unfold Assembly.join
    -- A unit of a known event joins its group; any other opens one.
    by_cases hex : ∃ g ∈ asm.groups, g.digest = eventDigestOf C fields
    · have hany : asm.groups.any (fun g => g.digest = eventDigestOf C fields) = true := by
        simpa using hex
      rw [if_pos hany]
      exact assembled_copy h hu hex
    · have hany : ¬ asm.groups.any (fun g => g.digest = eventDigestOf C fields) = true := by
        simpa using hex
      rw [if_neg hany]
      have hnew : ∀ g ∈ asm.groups, g.digest ≠ eventDigestOf C fields := by
        intro g hg hd
        exact hex ⟨g, hg, hd⟩
      split_ifs with hlater
      · cases predecessor with
        | none => cases hlater
        | some named =>
          refine assembled_open h hu hnew ?_ ?_ ?_
          · rw [List.map_append, ← List.append_assoc]
            exact List.perm_append_singleton _ _
          · intro p hp
            rcases List.mem_append.mp hp with hp | hp
            · exact .inl hp
            · rw [List.mem_singleton.mp hp]
              exact .inr ⟨rfl, rfl, hlater⟩
          · intro i hi
            exact .inl hi
      · refine assembled_open h hu hnew ?_ ?_ ?_
        · rw [List.append_assoc]
          exact List.perm_middle
        · intro p hp
          exact .inl hp
        · intro i hi
          rcases List.mem_append.mp hi with hi | hi
          · exact .inl hi
          · exact .inr ⟨List.mem_singleton.mp hi, by simpa using hlater⟩

theorem assembled_placeFrom (rest : List Bytes) {units : List Bytes} {asm : Assembly}
    (h : Assembled C identifier units asm) :
    Assembled C identifier (units ++ rest)
      (Assembly.placeFrom C identifier asm units.length rest) := by
  induction rest generalizing units asm with
  | nil =>
    rw [List.append_nil]
    exact h
  | cons unit rest ih =>
    have hstep := ih (assembled_place h unit)
    rw [List.append_assoc, List.length_append, List.length_singleton] at hstep
    exact hstep

/-- Every unit an entry served is assembled. -/
theorem assembled_new (units : List Bytes) :
    Assembled C identifier units (Assembly.new C identifier units) :=
  assembled_placeFrom units assembled_nil

theorem Assembled.named_nodup {units : List Bytes} {asm : Assembly}
    (h : Assembled C identifier units asm) : (asm.named.map Prod.fst).Nodup := by
  have hall : (asm.inception ++ asm.named.map Prod.fst).Nodup :=
    h.split.nodup_iff.mpr List.nodup_range
  exact (List.nodup_append.mp hall).2.1

theorem Assembled.lt_length {units : List Bytes} {asm : Assembly}
    (h : Assembled C identifier units asm) {i : ℕ} :
    i < asm.groups.length ↔ i ∈ asm.inception ∨ ∃ p, (i, p) ∈ asm.named := by
  rw [← List.mem_range, ← h.split.mem_iff, List.mem_append, List.mem_map]
  constructor
  · rintro (hi | ⟨p, hp, rfl⟩)
    · exact .inl hi
    · exact .inr ⟨p.2, hp⟩
  · rintro (hi | ⟨p, hp⟩)
    · exact .inl hi
    · exact .inr ⟨(i, p), hp, rfl⟩

/-- A group names one predecessor. -/
theorem Assembled.named_inj {units : List Bytes} {asm : Assembly}
    (h : Assembled C identifier units asm) {i : ℕ} {p q : Digest}
    (hp : (i, p) ∈ asm.named) (hq : (i, q) ∈ asm.named) : p = q := by
  obtain ⟨g, fields, hg, hplace, -⟩ := h.named _ hp
  obtain ⟨g', fields', hg', hplace', -⟩ := h.named _ hq
  rw [hg] at hg'
  cases hg'
  rw [hplace] at hplace'
  simp only [Except.ok.injEq, Prod.mk.injEq, Option.some.injEq] at hplace'
  exact hplace'.2

/-- Two groups of one digest are one group. -/
theorem Assembled.digest_inj {units : List Bytes} {asm : Assembly}
    (h : Assembled C identifier units asm) {i j : ℕ} {g g' : Group}
    (hi : asm.groups[i]? = some g) (hj : asm.groups[j]? = some g')
    (hd : g.digest = g'.digest) : i = j := by
  obtain ⟨hlt, -⟩ := List.getElem?_eq_some_iff.mp hi
  refine (List.getElem?_inj (by simpa using hlt) h.nodup).mp ?_
  rw [List.getElem?_map, List.getElem?_map, hi, hj, Option.map_some, Option.map_some, hd]

theorem mem_childrenOf {asm : Assembly} {head : Digest} {x : ℕ × Group} :
    x ∈ asm.childrenOf head ↔ (x.1, head) ∈ asm.named ∧ asm.groups[x.1]? = some x.2 := by
  simp only [Assembly.childrenOf, List.mem_filterMap, List.mem_filter, decide_eq_true_eq,
    Option.map_eq_some_iff]
  constructor
  · rintro ⟨⟨i, p⟩, ⟨hp, rfl⟩, g, hg, rfl⟩
    exact ⟨hp, hg⟩
  · rintro ⟨hp, hg⟩
    exact ⟨(x.1, head), ⟨hp, rfl⟩, x.2, hg, rfl⟩

theorem children_sublist (groups : List Group) (named : List (ℕ × Digest)) (head : Digest) :
    (((named.filter (fun p => p.2 = head)).filterMap (fun p =>
      groups[p.1]?.map (fun g => (p.1, g)))).map Prod.fst).Sublist (named.map Prod.fst) := by
  induction named with
  | nil => exact List.Sublist.refl _
  | cons p named ih =>
    by_cases hp : p.2 = head
    · rw [List.filter_cons_of_pos (by simpa using hp)]
      cases hg : groups[p.1]? with
      | none =>
        rw [List.filterMap_cons_none (by rw [hg]; rfl)]
        exact ih.cons _
      | some g =>
        rw [List.filterMap_cons_some (b := (p.1, g)) (by rw [hg]; rfl)]
        exact ih.cons_cons _
    · rw [List.filter_cons_of_neg (by simpa using hp)]
      exact ih.cons _

theorem childrenOf_nodup {units : List Bytes} {asm : Assembly}
    (h : Assembled C identifier units asm) (head : Digest) :
    ((asm.childrenOf head).map Prod.fst).Nodup :=
  h.named_nodup.sublist (children_sublist asm.groups asm.named head)

end Assembled

end ScpCore.Kel
