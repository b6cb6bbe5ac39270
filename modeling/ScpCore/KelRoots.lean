import ScpCore.KelLeaves

/-! Position zero of an entry. Where the served preimages have no collision, one
group at most recomputes to the identifier, so the walk starts at its inception
and every other group read for position zero is discarded. -/

namespace ScpCore.Kel

/-- The field bytes a unit's decode reaches. -/
def servedFields (unit : Bytes) : Option Bytes :=
  match decodeEvent unit 0 with
  | .unframed => none
  | .noSeparator => none
  | .headerFailed failed => some failed.fields
  | .read read => some read.fields

/-- The signed preimages of the units that decode so far. -/
def preimagesOf (units : List Bytes) : Set Bytes :=
  {signed | ∃ u ∈ units, ∃ fields, servedFields u = some fields ∧ signed = signedPreimageOf fields}

section Fields
variable {C : Crypto} {identifier : Identifier}

theorem decodePrefixed_failed {prefixed field : Bytes} {failed : HeaderFailedUnit}
    (h : decodePrefixed prefixed field = .headerFailed failed) :
    ∃ e, readEvent failed.fields (signedLenOf failed.fields) = .error e ∧
      failed.error = e.error ∧ failed.predecessor = e.predecessor := by
  unfold decodePrefixed at h
  split at h
  · cases h
  · split at h
    · rename_i e he
      obtain rfl := EventUnit.headerFailed.inj h
      exact ⟨e, he, rfl, rfl⟩
    · cases h

theorem decodeEvent_failed {u : Bytes} {failed : HeaderFailedUnit}
    (h : decodeEvent u 0 = .headerFailed failed) :
    ∃ e, readEvent failed.fields (signedLenOf failed.fields) = .error e ∧
      failed.error = e.error ∧ failed.predecessor = e.predecessor := by
  unfold decodeEvent at h
  split at h
  · cases h
  · exact decodePrefixed_failed h

/-- The predecessor the fields name, as far as their header reads. -/
def namedBy (fields : Bytes) : Option Digest :=
  match readEvent fields (signedLenOf fields) with
  | .error e => e.predecessor
  | .ok (header, _) => some header.predecessorDigest

/-- A unit is placed by its fields alone. -/
theorem placement_reads {u fields : Bytes} {predecessor : Option Digest}
    (h : placement C identifier u = .ok (fields, predecessor)) :
    servedFields u = some fields ∧ predecessor = namedBy fields := by
  unfold placement at h
  unfold servedFields
  cases hd : decodeEvent u 0 with
  | unframed => simp [hd] at h
  | noSeparator => simp [hd] at h
  | headerFailed failed =>
    obtain ⟨e, he, -, hpred⟩ := decodeEvent_failed hd
    simp only [hd] at h
    split_ifs at h
    simp only [Except.ok.injEq, Prod.mk.injEq] at h
    obtain ⟨rfl, rfl⟩ := h
    refine ⟨rfl, ?_⟩
    rw [namedBy, he, hpred]
  | read read =>
    have hread := decodeEvent_eq_read hd
    simp only [hd, Except.ok.injEq, Prod.mk.injEq] at h
    obtain ⟨rfl, rfl⟩ := h
    refine ⟨rfl, ?_⟩
    rw [namedBy, hread]

/-- What makes an inception invalid, read off its fields. -/
def inceptionContent (C : Crypto) (fields : Bytes) : Except InceptionDefect Unit := do
  (readInceptionZeroChecks fields).mapError .zeroCheck
  match readEvent fields (signedLenOf fields) with
  | .error e => throw (.header e.error)
  | .ok (header, body) =>
    let preimage ← body.mapError (fun error => .content (.body error))
    let _ ← (checkContent C (.inception (identifierOf C fields)) header preimage
      (eventDigestOf C fields)).mapError .content
    pure ()

/-- A unit's inception is invalid by its fields alone, whatever its signatures. -/
theorem checkInception_invalid_iff {u fields : Bytes} (hf : servedFields u = some fields)
    (defect : InceptionDefect) :
    checkInception C u (some identifier) .signed = .error (.invalid defect) ↔
      identifierOf C fields = identifier ∧ inceptionContent C fields = .error defect := by
  unfold servedFields at hf
  unfold checkInception decode bindInception inceptionContent
  by_cases hid : identifier = identifierOf C fields
  · cases hd : decodeEvent u 0 with
    | unframed => simp [hd] at hf
    | noSeparator => simp [hd] at hf
    | headerFailed failed =>
      obtain ⟨e, he, herror, -⟩ := decodeEvent_failed hd
      simp only [hd, Option.some.injEq] at hf
      rw [hf] at he
      cases hz : readInceptionZeroChecks fields with
      | error z => simp [hf, hid, hz, require, bind, Except.bind, Except.mapError]
      | ok z =>
        simp [hf, hid, hz, he, herror, require, bind, Except.bind, Except.mapError, pure,
          Except.pure, throw, throwThe, MonadExceptOf.throw]
    | read read =>
      have hread := decodeEvent_eq_read hd
      simp only [hd, Option.some.injEq] at hf
      rw [hf] at hread
      cases hz : readInceptionZeroChecks fields with
      | error z =>
        simp [hf, hid, hz, require, bind, Except.bind, Except.mapError]
      | ok z =>
        cases hp : read.preimage with
        | error e =>
          rw [hp] at hread
          simp [hf, hid, hz, hread, hp, require, bind, Except.bind, Except.mapError, pure,
            Except.pure]
        | ok preimage =>
          rw [hp] at hread
          cases hc : checkContent C (.inception (identifierOf C fields)) read.header preimage
            (eventDigestOf C fields) with
          | error e =>
            simp [hf, hid, hz, hread, hp, hc, require, bind, Except.bind, Except.mapError, pure,
              Except.pure]
          | ok applied =>
            simp only [hf, hid, hz, hread, hp, hc, require, bind, Except.bind, Except.mapError, pure,
              Except.pure, Option.all_some, decide_true, if_true, reduceCtorEq, and_false, iff_false]
            -- The signature steps discard a unit and never make it invalid.
            cases signatures C read u.length .signed (applied.keySets.map some)
              (eventDigestOf C fields) (.ok (applied, preimage)) with
            | error e => simp
            | ok r => simp
  · have hne : ¬ identifierOf C fields = identifier := fun h => hid h.symm
    have hreq : ((some identifier).all (fun x => decide (x = identifierOf C fields))) = false := by
      simpa using hid
    simp only [hne, false_and, iff_false]
    cases hd : decodeEvent u 0 with
    | unframed => simp [hd] at hf
    | noSeparator => simp [hd] at hf
    | headerFailed failed =>
      simp only [hd, Option.some.injEq] at hf
      simp [hf, hreq, require, bind, Except.bind]
    | read read =>
      simp only [hd, Option.some.injEq] at hf
      simp [hf, hreq, require, bind, Except.bind]

/-- An invalid inception is placed, and recomputes to the identifier. -/
theorem placement_of_invalid {u : Bytes} {defect : InceptionDefect}
    (h : checkInception C u (some identifier) .signed = .error (.invalid defect)) :
    ∃ fields predecessor, placement C identifier u = .ok (fields, predecessor) ∧
      identifierOf C fields = identifier := by
  cases hd : decodeEvent u 0 with
  | unframed =>
    simp only [checkInception, decode, hd] at h
    cases h
  | noSeparator =>
    simp only [checkInception, decode, hd] at h
    cases h
  | headerFailed failed =>
    have hf : servedFields u = some failed.fields := by simp [servedFields, hd]
    have hid := ((checkInception_invalid_iff hf defect).mp h).1
    exact ⟨failed.fields, failed.predecessor, by simp [placement, hd, hid], hid⟩
  | read read =>
    have hf : servedFields u = some read.fields := by simp [servedFields, hd]
    have hid := ((checkInception_invalid_iff hf defect).mp h).1
    exact ⟨read.fields, some read.header.predecessorDigest, by simp [placement, hd], hid⟩

/-- No copy of an accepted inception is invalid. -/
theorem not_invalid_of_fields {u u' fields : Bytes} {a : Accepted} {defect : InceptionDefect}
    (h : checkInception C u (some identifier) .signed = .ok a)
    (hf : servedFields u = some fields) (hf' : servedFields u' = some fields) :
    checkInception C u' (some identifier) .signed ≠ .error (.invalid defect) := by
  rw [ne_eq, checkInception_invalid_iff hf', ← checkInception_invalid_iff hf, h]
  simp

end Fields

section Copies
variable {C : Crypto} {identifier : Identifier} {copies : Copies}

theorem inceptionRest_ok {failure : InceptionFailure} {rest : List Bytes} {a : Accepted}
    (h : inceptionRest C identifier failure rest = .ok a) :
    ∃ u ∈ rest, checkInception C u (some identifier) .signed = .ok a := by
  induction rest with
  | nil => cases h
  | cons copy rest ih =>
    unfold inceptionRest at h
    split at h
    · rename_i a' ha'
      cases h
      exact ⟨copy, List.mem_cons_self, ha'⟩
    · cases h
    · obtain ⟨u, hu, hok⟩ := ih h
      exact ⟨u, List.mem_cons_of_mem _ hu, hok⟩

theorem inception_ok {a : Accepted} (h : inception C identifier copies = .ok a) :
    ∃ u ∈ copies.all, checkInception C u (some identifier) .signed = .ok a := by
  unfold inception at h
  split at h
  · rename_i a' ha'
    cases h
    exact ⟨copies.first, List.mem_cons_self, ha'⟩
  · cases h
  · obtain ⟨u, hu, hok⟩ := inceptionRest_ok h
    exact ⟨u, List.mem_cons_of_mem _ hu, hok⟩

theorem inceptionRest_of_copy {failure : InceptionFailure} {rest : List Bytes} {u : Bytes}
    {a : Accepted} (hvalid : ∀ u ∈ rest, ∀ defect,
      checkInception C u (some identifier) .signed ≠ .error (.invalid defect))
    (hu : u ∈ rest) (h : checkInception C u (some identifier) .signed = .ok a) :
    ∃ a', inceptionRest C identifier failure rest = .ok a' := by
  induction rest with
  | nil => cases hu
  | cons copy rest ih =>
    unfold inceptionRest
    split
    · rename_i a' _
      exact ⟨a', rfl⟩
    · rename_i defect hinvalid
      exact absurd hinvalid (hvalid copy List.mem_cons_self defect)
    · rename_i defect hdiscard
      rcases List.mem_cons.mp hu with rfl | hu
      · rw [hdiscard] at h
        cases h
      · exact ih (fun u hu => hvalid u (List.mem_cons_of_mem _ hu)) hu

/-- Where no copy is invalid, a copy that passes settles position zero. -/
theorem inception_of_copy {u : Bytes} {a : Accepted} (hvalid : ∀ u ∈ copies.all, ∀ defect,
      checkInception C u (some identifier) .signed ≠ .error (.invalid defect))
    (hu : u ∈ copies.all) (h : checkInception C u (some identifier) .signed = .ok a) :
    ∃ a', inception C identifier copies = .ok a' := by
  unfold inception
  split
  · rename_i a' _
    exact ⟨a', rfl⟩
  · rename_i defect hinvalid
    exact absurd hinvalid (hvalid copies.first List.mem_cons_self defect)
  · rename_i defect hdiscard
    rcases List.mem_cons.mp hu with rfl | hu
    · rw [hdiscard] at h
      cases h
    · exact inceptionRest_of_copy (fun u hu => hvalid u (List.mem_cons_of_mem _ hu)) hu h

end Copies

section Roots
variable {C : Crypto} {identifier : Identifier} {asm : Assembly}

/-- The report of a group that recomputes to another identifier. -/
def mismatchAt (asm : Assembly) (i : ℕ) : Option Discarded :=
  asm.groups[i]?.map (fun g => .read g.firstServed 0 (.identifierMismatch g.recomputed))

/-- A root found was read from a group that recomputes to the identifier. -/
theorem readRoots_root (ids : List ℕ) (r : Roots) {c : ValidatedChain}
    (h : (ids.foldl (readRoot C identifier asm) r).root = some c) :
    r.root = some c ∨ ∃ i ∈ ids, ∃ g a, asm.groups[i]? = some g ∧ g.recomputed = identifier ∧
      inception C identifier g.copies = .ok a := by
  induction ids generalizing r with
  | nil => exact .inl h
  | cons i ids ih =>
    rcases ih _ h with hr | ⟨j, hj, hrest⟩
    · unfold readRoot at hr
      split at hr
      · exact .inl hr
      · rename_i g hg
        split_ifs at hr with hid
        · exact .inl hr
        · split at hr
          · rename_i a ha
            exact .inr ⟨i, List.mem_cons_self, g, a, hg, not_not.mp hid, ha⟩
          · exact .inl hr
          · exact .inl hr
    · exact .inr ⟨j, List.mem_cons_of_mem _ hj, hrest⟩

/-- Groups that recompute to another identifier are all discarded. -/
theorem readRoots_mismatch (ids : List ℕ) (r : Roots) (h : ∀ i ∈ ids, ∃ g,
      asm.groups[i]? = some g ∧ g.recomputed ≠ identifier) :
    ids.foldl (readRoot C identifier asm) r =
      { r with visit := ⟨ids.reverse ++ r.visit.visited,
        r.visit.discarded ++ ids.filterMap (mismatchAt asm)⟩ } := by
  induction ids generalizing r with
  | nil => simp
  | cons i ids ih =>
    obtain ⟨g, hg, hne⟩ := h i List.mem_cons_self
    have hstep : readRoot C identifier asm r i =
        { r with visit := ⟨i :: r.visit.visited, r.visit.discarded ++
          [.read g.firstServed 0 (.identifierMismatch g.recomputed)]⟩ } := by
      simp [readRoot, hg, hne]
    rw [List.foldl_cons, hstep, ih _ (fun j hj => h j (List.mem_cons_of_mem _ hj))]
    simp [mismatchAt, hg]

/-- The one group that recomputes to the identifier is the root, and the others
read for position zero are discarded. -/
theorem readRoots_eq {before after : List ℕ} {i : ℕ} {g : Group} {a : Accepted}
    (hsplit : asm.inception = before ++ i :: after) (hg : asm.groups[i]? = some g)
    (hid : g.recomputed = identifier) (hok : inception C identifier g.copies = .ok a)
    (hothers : ∀ j ∈ before ++ after, ∃ g, asm.groups[j]? = some g ∧ g.recomputed ≠ identifier) :
    readRoots C identifier asm = ⟨⟨asm.inception.reverse,
      (before ++ after).filterMap (mismatchAt asm)⟩,
      some (.fromInception C identifier a), none⟩ := by
  have hbefore := readRoots_mismatch (C := C) before ⟨⟨[], []⟩, none, none⟩
    (fun j hj => hothers j (List.mem_append_left _ hj))
  have hstep (r : Roots) : readRoot C identifier asm r i =
      { r with visit.visited := i :: r.visit.visited,
               root := some (.fromInception C identifier a) } := by
    simp [readRoot, hg, hid, hok]
  unfold readRoots
  rw [hsplit, List.foldl_append, List.foldl_cons, hbefore, hstep,
    readRoots_mismatch _ _ (fun j hj => hothers j (List.mem_append_right _ hj))]
  simp

end Roots

section Start
variable {C : Crypto} {identifier : Identifier} {units : List Bytes} {asm : Assembly}
  (hasm : Assembled C identifier units asm)
include hasm

theorem not_both {i : ℕ} {p : Digest} (hi : i ∈ asm.inception) : (i, p) ∉ asm.named := by
  intro hn
  have hall : (asm.inception ++ asm.named.map Prod.fst).Nodup :=
    hasm.split.nodup_iff.mpr List.nodup_range
  exact (List.nodup_append.mp hall).2.2 i hi i (List.mem_map.mpr ⟨(i, p), hn, rfl⟩) rfl

theorem inception_nodup : asm.inception.Nodup := by
  have hall : (asm.inception ++ asm.named.map Prod.fst).Nodup :=
    hasm.split.nodup_iff.mpr List.nodup_range
  exact (List.nodup_append.mp hall).1

theorem copies_served {g : Group} (hg : g ∈ asm.groups) {u : Bytes} (hu : u ∈ g.copies.all) :
    u ∈ units ∧ digestOf C identifier u = some g.digest := by
  rw [(hasm.group g hg).copies, List.mem_filter, decide_eq_true_eq] at hu
  exact hu

omit hasm in
theorem preimage_served {u fields : Bytes} {predecessor : Option Digest} (hu : u ∈ units)
    (h : placement C identifier u = .ok (fields, predecessor)) :
    signedPreimageOf fields ∈ preimagesOf units :=
  ⟨u, hu, fields, (placement_reads h).1, rfl⟩

/-- The fields of a group's first copy. -/
theorem group_fields {g : Group} (hg : g ∈ asm.groups) :
    ∃ fields, placement C identifier g.copies.first = .ok (fields, namedBy fields) ∧
      eventDigestOf C fields = g.digest ∧ identifierOf C fields = g.recomputed ∧
      signedPreimageOf fields ∈ preimagesOf units := by
  obtain ⟨fields, predecessor, hplace, hdig, hid⟩ := (hasm.group g hg).placed
  have hfirst := copies_served hasm hg (List.mem_cons_self : g.copies.first ∈ g.copies.all)
  rw [(placement_reads hplace).2] at hplace
  exact ⟨fields, hplace, hdig, hid, preimage_served hfirst.1 hplace⟩

variable (hcf : CollisionFree C (preimagesOf units))
include hcf

/-- Every placed unit is a copy in a group with its own fields, read for position
zero or below the predecessor those name. -/
theorem group_of_unit {u fields : Bytes} {predecessor : Option Digest} (hu : u ∈ units)
    (h : placement C identifier u = .ok (fields, predecessor)) :
    ∃ i g, asm.groups[i]? = some g ∧ u ∈ g.copies.all ∧ g.digest = eventDigestOf C fields ∧
      g.recomputed = identifierOf C fields ∧
      ((Assembly.isLater C identifier fields predecessor = false ∧ i ∈ asm.inception) ∨
        ∃ d, predecessor = some d ∧ (i, d) ∈ asm.named) := by
  obtain ⟨g, hg, hd⟩ := hasm.covers u hu _ (digestOf_ok h)
  obtain ⟨i, hi⟩ := List.mem_iff_getElem?.mp hg
  obtain ⟨fields', hplace, hdig, hid, hseen⟩ := group_fields hasm hg
  -- The group was opened by a copy with these very fields.
  obtain rfl : fields' = fields := by
    apply signedPreimageOf_injective
    apply hcf.digest hseen (preimage_served hu h)
    change eventDigestOf C fields' = eventDigestOf C fields
    rw [hdig, hd]
  have hpred := (placement_reads h).2
  refine ⟨i, g, hi, ?_, hd, hid.symm, ?_⟩
  · rw [(hasm.group g hg).copies, List.mem_filter, decide_eq_true_eq]
    exact ⟨hu, by rw [digestOf_ok h, hd]⟩
  · obtain ⟨hlt, -⟩ := List.getElem?_eq_some_iff.mp hi
    rcases hasm.lt_length.mp hlt with hin | ⟨d, hn⟩
    · obtain ⟨g', fields₁, p₁, hg', hplace₁, hlater⟩ := hasm.inception i hin
      rw [hi, Option.some.injEq] at hg'
      rw [← hg', hplace, Except.ok.injEq, Prod.mk.injEq] at hplace₁
      rw [← hplace₁.1, ← hplace₁.2, ← hpred] at hlater
      exact .inl ⟨hlater, hin⟩
    · obtain ⟨g', fields₁, hg', hplace₁, -⟩ := hasm.named _ hn
      rw [hi, Option.some.injEq] at hg'
      rw [← hg', hplace, Except.ok.injEq, Prod.mk.injEq] at hplace₁
      exact .inr ⟨d, hpred.trans hplace₁.2, hn⟩

/-- The copies of a group have the fields of any served unit of its digest. -/
theorem copies_fields {g : Group} (hg : g ∈ asm.groups) {fields : Bytes}
    (hseen : signedPreimageOf fields ∈ preimagesOf units)
    (hd : g.digest = eventDigestOf C fields) :
    ∀ u ∈ g.copies.all, servedFields u = some fields := by
  intro u hu
  obtain ⟨hserved, hdig⟩ := copies_served hasm hg hu
  cases hp : placement C identifier u with
  | error e =>
    rw [digestOf_error hp] at hdig
    cases hdig
  | ok r =>
    obtain ⟨fields', predecessor⟩ := r
    rw [digestOf_ok hp, Option.some.injEq, hd] at hdig
    obtain rfl : fields' = fields := by
      apply signedPreimageOf_injective
      exact hcf.digest (preimage_served hserved hp) hseen hdig
    exact (placement_reads hp).1

/-- A unit that recomputes to the identifier is read for position zero. -/
theorem group_of_inception {u fields : Bytes} {predecessor : Option Digest} (hu : u ∈ units)
    (hplace : placement C identifier u = .ok (fields, predecessor))
    (hid : identifierOf C fields = identifier) :
    ∃ i g, i ∈ asm.inception ∧ asm.groups[i]? = some g ∧ u ∈ g.copies.all ∧
      g.digest = eventDigestOf C fields ∧ g.recomputed = identifier := by
  obtain ⟨i, g, hg, hcopy, hdig, hrec, hwhere⟩ := group_of_unit hasm hcf hu hplace
  refine ⟨i, g, ?_, hg, hcopy, hdig, hrec.trans hid⟩
  rcases hwhere with ⟨-, hin⟩ | ⟨d, rfl, hn⟩
  · exact hin
  · exfalso
    obtain ⟨g', fields', hg', hplace', hlater⟩ := hasm.named _ hn
    rw [hg, Option.some.injEq] at hg'
    obtain ⟨fields₁, hplace₁, -, hid₁, -⟩ := group_fields hasm (List.mem_of_getElem? hg)
    rw [← hg', hplace₁, Except.ok.injEq, Prod.mk.injEq] at hplace'
    rw [← hplace'.1] at hlater
    simp [Assembly.isLater, hid₁, hrec, hid] at hlater

/-- One group at most recomputes to the identifier. -/
theorem root_unique {i j : ℕ} {g g' : Group} (hi : asm.groups[i]? = some g)
    (hj : asm.groups[j]? = some g') (h : g.recomputed = g'.recomputed) : i = j := by
  obtain ⟨fields, -, hdig, hid, hseen⟩ := group_fields hasm (List.mem_of_getElem? hi)
  obtain ⟨fields', -, hdig', hid', hseen'⟩ := group_fields hasm (List.mem_of_getElem? hj)
  have hfields : signedPreimageOf fields = signedPreimageOf fields' := by
    apply hcf.identifier hseen hseen'
    change identifierOf C fields = identifierOf C fields'
    rw [hid, hid', h]
  apply hasm.digest_inj hi hj
  rw [← hdig, ← hdig', signedPreimageOf_injective hfields]

end Start

/-- The group at `i` is the root, accepted as `a`. -/
structure Rooted (C : Crypto) (identifier : Identifier) (asm : Assembly) (i : ℕ) (g : Group)
    (a : Accepted) : Prop where
  mem : i ∈ asm.inception
  group : asm.groups[i]? = some g
  recomputed : g.recomputed = identifier
  accepted : inception C identifier g.copies = .ok a

section Rooted
variable {C : Crypto} {identifier : Identifier} {units : List Bytes} {asm : Assembly}
  {i : ℕ} {g : Group} {a : Accepted} (hasm : Assembled C identifier units asm)
include hasm

theorem Rooted.copy (h : Rooted C identifier asm i g a) :
    ∃ u ∈ units, checkInception C u (some identifier) .signed = .ok a ∧
      a.event.digest = g.digest ∧ a.preimage ∈ preimagesOf units := by
  obtain ⟨u, hu, hok⟩ := inception_ok h.accepted
  obtain ⟨hserved, hdig⟩ := copies_served hasm (List.mem_of_getElem? h.group) hu
  obtain ⟨fields, predecessor, hplace, hevent, hpre, -⟩ := placement_of_inception hok
  rw [digestOf_ok hplace, Option.some.injEq, ← hevent] at hdig
  exact ⟨u, hserved, hok, hdig, hpre ▸ preimage_served hserved hplace⟩

/-- The worklist starts at the root, with every group of position zero offered. -/
theorem Rooted.walkInv (h : Rooted C identifier asm i g a) (discarded : List Discarded) :
    WalkInv asm [.fromInception C identifier a] ⟨asm.inception.reverse, discarded⟩ := by
  obtain ⟨u, -, -, hdig, -⟩ := h.copy hasm
  have hdigests : (ValidatedChain.fromInception C identifier a).eventDigests = [a.event.digest] :=
    rfl
  refine ⟨List.pairwise_singleton _ _, List.nodup_singleton _, ?_, ?_, ?_, ?_⟩
  · intro c hc d hd
    rw [List.mem_singleton.mp hc, hdigests, List.mem_singleton] at hd
    exact ⟨i, g, List.mem_reverse.mpr h.mem, h.group, by rw [hd, hdig]⟩
  · intro c hc
    rw [List.mem_singleton.mp hc, hdigests]
    exact List.nodup_singleton _
  · intro c _ j hn hj
    exact not_both hasm (List.mem_reverse.mp hj) hn
  · intro j hj p hn
    exact absurd hn (not_both hasm (List.mem_reverse.mp hj))

variable (hcf : CollisionFree C (preimagesOf units))
include hcf

/-- Position zero is read to the root: the others are discarded, and the account
of the worklist starts there. -/
theorem Rooted.readRoots (h : Rooted C identifier asm i g a) :
    ∃ discarded, readRoots C identifier asm = ⟨⟨asm.inception.reverse, discarded⟩,
        some (.fromInception C identifier a), none⟩ ∧
      Accounted asm [.fromInception C identifier a] ⟨asm.inception.reverse, discarded⟩ := by
  obtain ⟨before, after, hsplit⟩ := List.append_of_mem h.mem
  obtain ⟨u, -, -, hdig, -⟩ := h.copy hasm
  have hnodup := inception_nodup hasm
  have hperm : asm.inception.Perm (i :: (before ++ after)) := by
    rw [hsplit]
    exact List.perm_middle
  have hi : i ∉ before ++ after := (List.nodup_cons.mp (hperm.nodup_iff.mp hnodup)).1
  have hget {j : ℕ} (hj : j ∈ before ++ after) : ∃ g', asm.groups[j]? = some g' := by
    have hlt := hasm.lt_length.mpr (.inl (hperm.mem_iff.mpr (List.mem_cons_of_mem _ hj)))
    exact ⟨_, List.getElem?_eq_getElem hlt⟩
  -- The other inceptions recompute to another identifier, as the hash tells them apart.
  have hothers : ∀ j ∈ before ++ after, ∃ g', asm.groups[j]? = some g' ∧
      g'.recomputed ≠ identifier := by
    intro j hj
    obtain ⟨g', hg'⟩ := hget hj
    refine ⟨g', hg', ?_⟩
    intro hid
    apply hi
    rwa [root_unique hasm hcf h.group hg' (by rw [h.recomputed, hid])]
  refine ⟨_, readRoots_eq hsplit h.group h.recomputed h.accepted hothers, ?_⟩
  -- So they are what is discarded.
  have hmem (n : ℕ) : n ∈ ((before ++ after).filterMap (mismatchAt asm)).map
      Discarded.servedIndex ↔ ∃ j ∈ before ++ after, ∃ g', asm.groups[j]? = some g' ∧
        g'.firstServed = n := by
    rw [List.map_filterMap, List.mem_filterMap]
    constructor
    · intro hn
      obtain ⟨j, hj, hdis⟩ := hn
      obtain ⟨g', hg'⟩ := hget hj
      simp only [mismatchAt, hg', Option.map_some, Option.some.injEq] at hdis
      exact ⟨j, hj, g', hg', hdis⟩
    · intro hn
      obtain ⟨j, hj, g', hg', hfirst⟩ := hn
      exact ⟨j, hj, by simp [mismatchAt, hg', Discarded.read, hfirst]⟩
  refine ⟨(h.walkInv hasm _).met, ?_, ?_⟩
  · have hne : (before ++ after).Pairwise (· ≠ ·) :=
      (List.nodup_cons.mp (hperm.nodup_iff.mp hnodup)).2
    rw [List.map_filterMap]
    refine hne.filterMap _ ?_
    intro j k hjk n hn m hm heq
    have hindex (j n : ℕ) (hn : (mismatchAt asm j).map Discarded.servedIndex = some n) :
        ∃ g', asm.groups[j]? = some g' ∧ g'.firstServed = n := by
      cases hg' : asm.groups[j]? with
      | none => simp [mismatchAt, hg'] at hn
      | some g' =>
        simp only [mismatchAt, hg', Option.map_some, Option.some.injEq] at hn
        exact ⟨g', rfl, hn⟩
    obtain ⟨g₁, hg₁, hf₁⟩ := hindex j n hn
    obtain ⟨g₂, hg₂, hf₂⟩ := hindex k m hm
    exact hjk (firstServed_inj hasm hg₁ hg₂ (by rw [hf₁, hf₂, heq]))
  · intro n
    rw [hmem n]
    constructor
    · intro hn
      obtain ⟨j, hj, g', hg', hfirst⟩ := hn
      refine ⟨j, List.mem_reverse.mpr (hperm.mem_iff.mpr (List.mem_cons_of_mem _ hj)), g', hg',
        hfirst, ?_⟩
      intro c hc hd
      rw [List.mem_singleton.mp hc] at hd
      have heq : g'.digest = a.event.digest := List.mem_singleton.mp hd
      apply hi
      rwa [hasm.digest_inj h.group hg' (by rw [heq, hdig])]
    · intro hn
      obtain ⟨j, hj, g', hg', hfirst, hoff⟩ := hn
      rcases List.mem_cons.mp (hperm.mem_iff.mp (List.mem_reverse.mp hj)) with rfl | hj
      · rw [h.group, Option.some.injEq] at hg'
        refine absurd ?_ (hoff _ (List.mem_singleton_self _))
        rw [← hg', ← hdig]
        exact List.mem_singleton_self _
      · exact ⟨j, hj, g', hg', hfirst⟩

/-- A served unit that passes at position zero makes its group the root. -/
theorem rooted_of_inception {u : Bytes} {b : Accepted} (hu : u ∈ units)
    (h : checkInception C u (some identifier) .signed = .ok b) :
    ∃ i g a, Rooted C identifier asm i g a := by
  obtain ⟨fields, predecessor, hplace, -, -, hid⟩ := placement_of_inception h
  obtain ⟨i, g, hi, hg, hcopy, hdig, hrec⟩ := group_of_inception hasm hcf hu hplace hid
  have hfields := copies_fields hasm hcf (List.mem_of_getElem? hg) (preimage_served hu hplace) hdig
  have hvalid : ∀ u' ∈ g.copies.all, ∀ defect,
      checkInception C u' (some identifier) .signed ≠ .error (.invalid defect) := by
    intro u' hu' defect
    exact not_invalid_of_fields h (placement_reads hplace).1 (hfields u' hu')
  obtain ⟨a, ha⟩ := inception_of_copy hvalid hcopy h
  exact ⟨i, g, a, hi, hg, hrec, ha⟩

end Rooted

/-- The verdict is Valid exactly where a group is the root. -/
theorem rooted_of_valid {C : Crypto} {identifier : Identifier} {units : List Bytes}
    {chains : List ValidatedChain} {discarded : List Discarded}
    (h : validateEntry C identifier units = ⟨.valid chains, discarded⟩) :
    ∃ i g a, Rooted C identifier (Assembly.new C identifier units) i g a := by
  cases hroot : (readRoots C identifier (Assembly.new C identifier units)).root with
  | none =>
    have hverdict := congrArg EntryValidation.verdict h
    unfold validateEntry at hverdict
    dsimp only at hverdict
    rw [hroot] at hverdict
    cases hinv : (readRoots C identifier (Assembly.new C identifier units)).invalid with
    | none => simp [hinv] at hverdict
    | some defect => simp [hinv] at hverdict
  | some root =>
    rcases readRoots_root _ _ hroot with hnone | ⟨i, hi, g, a, hg, hid, hok⟩
    · cases hnone
    · exact ⟨i, g, a, hi, hg, hid, hok⟩

end ScpCore.Kel
