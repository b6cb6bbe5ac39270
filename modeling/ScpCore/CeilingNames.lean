import ScpCore.RoleCeiling

/-! The names of ceiling entries. A ceiling is stored as UCAN names and read back with
`Capability.new`; a token is held against the same names. What the admission grammar lets
through is classified first, and both comparisons follow from that. -/

namespace ScpCore.Roles

open Ucan (stripPrefix splitOnce CapabilityUri stripPrefix_eq_some_iff splitOnce_eq_some_iff)

def Capability.ucanCapabilityName (capability : Capability) : String :=
  capability.ucanResourceAction.1 ++ ":" ++ capability.ucanResourceAction.2

def CapabilityCeiling.toUcanStringSet (ceiling : CapabilityCeiling) : List String :=
  ceiling.capabilities.map Capability.ucanCapabilityName

def validateUcanCeilingString (entry : String) : Except CeilingEntryError Unit := do
  validateCeilingEntryCharset entry
  if Capability.builtinCapabilities.any (·.ucanCapabilityName = entry) then pure ()
  else
    let parameterized := (stripPrefix "outlet_query:".toList entry.toList).or
      (stripPrefix "outlet_call:".toList entry.toList)
    match parameterized with
    | some outletId => do
      require (byteLen outletId ≤ maxOutletIdLength) ⟨entry, "outlet_id exceeds maximum length of " ++
        toString maxOutletIdLength ++ " bytes"⟩
      require (isOutletIdToken outletId) ⟨entry,
        "outlet_id must be a non-empty [a-z0-9_-] token (no '*', no ':', no whitespace)"⟩
    | none => validateCustomCeilingEntry entry

/-- A text that goes on from `base` does not start with a stem that parts from it. -/
theorem stripPrefix_append_of_ne {stem base rest : List Char}
    (h : stem.take (min stem.length base.length) ≠ base.take (min stem.length base.length)) :
    stripPrefix stem (base ++ rest) = none := by
  rw [Option.eq_none_iff_forall_ne_some]
  intro rest' hsome
  rw [stripPrefix_eq_some_iff] at hsome
  apply h
  have htake := congrArg (List.take (min stem.length base.length)) hsome
  rw [List.take_append_of_le_length (min_le_right _ _),
    List.take_append_of_le_length (min_le_left _ _)] at htake
  exact htake.symm

theorem stripPrefix_append {stem rest : List Char} : stripPrefix stem (stem ++ rest) = some rest :=
  stripPrefix_eq_some_iff.mpr rfl

/-- The two classes of outlets. -/
inductive OutletClass
  | query | call
  deriving DecidableEq

namespace OutletClass

def make : OutletClass → String → Capability
  | query => .outletQuery
  | call => .outletCall

def all : OutletClass → Capability
  | query => .outletQueryAll
  | call => .outletCallAll

def resource : OutletClass → String
  | query => "outlet_query"
  | call => "outlet_call"

/-- The stems of the colon form and of the UCAN form. -/
def colonStem : OutletClass → String
  | query => "outlet:query:"
  | call => "outlet:call:"

def ucanStem : OutletClass → String
  | query => "outlet_query:"
  | call => "outlet_call:"

end OutletClass

/-- An outlet id as both grammars have it. -/
structure OutletToken (id : List Char) : Prop where
  token : isOutletIdToken id = true
  short : byteLen id ≤ maxOutletIdLength

theorem length_le_byteLen (text : List Char) : text.length ≤ byteLen text := by
  induction text with
  | nil => exact Nat.zero_le _
  | cons c text ih =>
    have hpos := c.utf8Size_pos
    rw [List.length_cons]
    change text.length+1 ≤ c.utf8Size+byteLen text
    omega

theorem OutletToken.parse {id : List Char} (h : OutletToken id) :
    parseOutletSuffix id = some (String.ofList id) := by
  have htoken := h.token
  rw [isOutletIdToken, Bool.and_eq_true, decide_eq_true_eq] at htoken
  -- The parser counts characters where the grammar counts bytes.
  have hlen : ¬ 128 < id.length := by
    have hbytes := h.short
    have hle := length_le_byteLen id
    rw [maxOutletIdLength] at hbytes
    omega
  have hall : id.all (fun c => isLowerOrDigit c || c = '_' || c = '-') = true := by
    rw [List.all_eq_true] at htoken ⊢
    intro c hc
    have hone := htoken.2 c hc
    simp only [Bool.or_eq_true, decide_eq_true_eq] at hone ⊢
    tauto
  simp only [parseOutletSuffix, htoken.1, hlen, hall, decide_false, Bool.or_false,
    Bool.not_true, Bool.false_eq_true, if_false]

theorem OutletToken.not_star {id : List Char} (h : OutletToken id) : id ≠ ['*'] := by
  rintro rfl
  exact absurd h.token (by decide)

/-- The stem that a name starts with is found, in either form of its class. -/
theorem outletStems_find {cls : OutletClass} {stem : String}
    (hstem : stem = cls.colonStem ∨ stem = cls.ucanStem) (id : List Char) :
    Capability.outletStems.findSome? (fun (other, make) =>
      (stripPrefix other.toList (stem.toList ++ id)).map (fun suffix => (suffix, make))) =
        some (id, cls.make) := by
  have hself : stripPrefix stem.toList (stem.toList ++ id) = some id := stripPrefix_append
  have hother (other : String) (h : other.toList.take (min other.toList.length stem.toList.length) ≠
      stem.toList.take (min other.toList.length stem.toList.length)) :
      stripPrefix other.toList (stem.toList ++ id) = none := stripPrefix_append_of_ne h
  rcases hstem with rfl | rfl <;> cases cls
  · simp only [Capability.outletStems, List.findSome?_cons]
    rw [show stripPrefix "outlet:query:".toList _ = some id from hself]
    rfl
  · simp only [Capability.outletStems, List.findSome?_cons]
    rw [hother "outlet:query:" (by decide), hother "outlet_query:" (by decide),
      show stripPrefix "outlet:call:".toList _ = some id from hself]
    rfl
  · simp only [Capability.outletStems, List.findSome?_cons]
    rw [hother "outlet:query:" (by decide),
      show stripPrefix "outlet_query:".toList _ = some id from hself]
    rfl
  · simp only [Capability.outletStems, List.findSome?_cons]
    rw [hother "outlet:query:" (by decide), hother "outlet_query:" (by decide),
      hother "outlet:call:" (by decide),
      show stripPrefix "outlet_call:".toList _ = some id from hself]
    rfl

/-- Either form of an outlet's name is read back. -/
theorem new_outlet {cls : OutletClass} {stem name : String}
    (hstem : stem = cls.colonStem ∨ stem = cls.ucanStem) {id : List Char}
    (hname : name.toList = stem.toList ++ id) (h : OutletToken id) :
    Capability.new name = some (cls.make (String.ofList id)) := by
  have hstrip : stripPrefix stem.toList name.toList = some id := stripPrefix_eq_some_iff.mpr hname
  -- None of the reads that come before the stems takes the name.
  have hdeleted : Capability.deletedStems.any (fun other =>
      (stripPrefix other.toList name.toList).isSome) = false := by
    rw [List.any_eq_false, hname]
    intro other hother
    rw [stripPrefix_append_of_ne]
    · exact Bool.false_ne_true
    · rcases hstem with rfl | rfl <;> cases cls <;> revert other <;> decide
  have hnames : name ∉ Capability.deletedNames := by
    intro hmem
    have hnone : ∀ n ∈ Capability.deletedNames, stripPrefix stem.toList n.toList = none := by
      rcases hstem with rfl | rfl <;> cases cls <;> decide
    rw [hnone name hmem] at hstrip
    cases hstrip
  have hbuiltin : Capability.builtinNames.find? (·.1 = name) = none := by
    rw [List.find?_eq_none]
    intro entry hentry hsame
    rw [decide_eq_true_eq] at hsame
    -- The built-in names with a stem are the wildcards.
    have hstar : ∀ p ∈ Capability.builtinNames,
        (stripPrefix stem.toList p.1.toList).all (· = ['*']) = true := by
      rcases hstem with rfl | rfl <;> cases cls <;> decide
    have hthis := hstar entry hentry
    rw [hsame, hstrip, Option.all_some, decide_eq_true_eq] at hthis
    exact h.not_star hthis
  unfold Capability.new
  rw [hdeleted, if_neg Bool.false_ne_true, if_neg hnames, hbuiltin, hname]
  dsimp only
  rw [outletStems_find hstem id]
  dsimp only
  rw [h.parse]
  rfl

def Capability.isCustom : Capability → Bool
  | .custom _ => true
  | _ => false

/-- A name that is read as a custom is that custom, less the marker it may start with. -/
theorem new_eq_custom {name x : String} (h : Capability.new name = some (.custom x)) :
    (∀ cls : OutletClass, stripPrefix cls.colonStem.toList name.toList = none ∧
      stripPrefix cls.ucanStem.toList name.toList = none) ∧
    (∀ entry ∈ Capability.builtinNames, entry.1 ≠ name) ∧
    x = ((stripPrefix "custom:".toList name.toList).map String.ofList).getD name := by
  unfold Capability.new at h
  split at h
  · cases h
  split at h
  · cases h
  split at h
  · next _ capability hfind =>
    -- A built-in name stands for a built-in.
    have hplain : ∀ entry ∈ Capability.builtinNames, entry.2.isCustom = false := by decide
    have hthis := hplain _ (List.mem_of_find?_eq_some hfind)
    cases h
    cases hthis
  · next hfind =>
    split at h
    · next suffix make hstem =>
      -- A stem makes an outlet.
      obtain ⟨⟨stem, make'⟩, hmem, hmade⟩ := List.exists_of_findSome?_eq_some hstem
      obtain ⟨suffix', _, hpair⟩ := Option.map_eq_some_iff.mp hmade
      cases hpair
      obtain ⟨id, _, hid⟩ := Option.map_eq_some_iff.mp h
      simp only [Capability.outletStems, List.mem_cons, Prod.mk.injEq, List.not_mem_nil,
        or_false] at hmem
      rcases hmem with ⟨_, rfl⟩ | ⟨_, rfl⟩ | ⟨_, rfl⟩ | ⟨_, rfl⟩ <;> cases hid
    · next hstems =>
      rw [List.findSome?_eq_none_iff] at hstems
      refine ⟨?_, ?_, ?_⟩
      · intro cls
        have hnone (stem : String) (make : String → Capability)
            (hmem : (stem, make) ∈ Capability.outletStems) :
            stripPrefix stem.toList name.toList = none :=
          Option.map_eq_none_iff.mp (hstems _ hmem)
        cases cls
        · exact ⟨hnone "outlet:query:" .outletQuery (by simp [Capability.outletStems]),
            hnone "outlet_query:" .outletQuery (by simp [Capability.outletStems])⟩
        · exact ⟨hnone "outlet:call:" .outletCall (by simp [Capability.outletStems]),
            hnone "outlet_call:" .outletCall (by simp [Capability.outletStems])⟩
      · intro entry hentry
        simpa using List.find?_eq_none.mp hfind entry hentry
      · split at h
        · next rest hrest =>
          rw [hrest]
          cases h
          rfl
        · next hrest =>
          rw [hrest]
          cases h
          rfl

/-- A custom that the grammar admits: a kebab resource, one colon, and an action. -/
structure CustomEntry (name : String) (resource action : List Char) : Prop where
  text : name.toList = resource ++ ':' :: action
  kebab : isKebabToken resource = true
  shape : action = ['*'] ∨ isKebabToken action = true
  unshadowed : action = ['*'] → ∀ b ∈ Capability.builtinCapabilities,
    b.ucanResourceAction.1.toList ≠ resource
  charset : validateCeilingEntryCharset name = .ok ()
  grammar : validateCustomCeilingEntry name = .ok ()
  read : ∃ x, Capability.new name = some (.custom x)

theorem not_mem_of_kebab {token : List Char} (h : isKebabToken token = true) {c : Char}
    (hc : (isLowerOrDigit c || c = '-') = false) : c ∉ token := by
  intro hmem
  rw [isKebabToken, Bool.and_eq_true, List.all_eq_true] at h
  rw [h.2 c hmem] at hc
  cases hc

theorem customEntry_of_ok {name : String} (h : validateCustomCeilingEntry name = .ok ())
    (hcharset : validateCeilingEntryCharset name = .ok ())
    (hread : ∃ x, Capability.new name = some (.custom x)) :
    ∃ resource action, CustomEntry name resource action := by
  have hgrammar := h
  simp only [validateCustomCeilingEntry, bind_ok_iff, exists_unit_iff, okOr_ok_iff, require_ok_iff,
    decide_eq_true_eq, Bool.or_eq_true, Bool.not_eq_true', Bool.and_eq_false_iff,
    decide_eq_false_iff_not] at h
  obtain ⟨⟨resource, action⟩, hsplit, _, hkebab, hshape, hshadow⟩ := h
  refine ⟨resource, action, (splitOnce_eq_some_iff.mp hsplit).2, hkebab, hshape, ?_, hcharset,
    hgrammar, hread⟩
  intro hstar b hb hsame
  rcases hshadow with hnot | hnone
  · exact hnot hstar
  · rw [List.any_eq_false] at hnone
    exact hnone b hb (decide_eq_true hsame)

namespace CustomEntry
variable {name : String} {resource action : List Char} (h : CustomEntry name resource action)

include h

theorem colon_not_mem : ':' ∉ resource ∧ ':' ∉ action := by
  refine ⟨not_mem_of_kebab h.kebab (by decide), ?_⟩
  rcases h.shape with hstar | hkebab
  · rw [hstar]
    decide
  · exact not_mem_of_kebab hkebab (by decide)

theorem resourceAction : (Capability.custom name).ucanResourceAction =
    (String.ofList resource, String.ofList action) := by
  obtain ⟨hresource, haction⟩ := h.colon_not_mem
  have hsplit : Capability.rsplitColon name.toList = some (resource, action) := by
    have hreverse : splitOnce ':' name.toList.reverse = some (action.reverse, resource.reverse) :=
      splitOnce_eq_some_iff.mpr ⟨by simpa using haction, by simp [h.text]⟩
    rw [Capability.rsplitColon, hreverse]
    simp
  have hkept : resource.map (fun c => if c = ':' then '_' else c) = resource := by
    rw [List.map_congr_left (g := id) ?_, List.map_id]
    intro c hc
    apply if_neg
    rintro rfl
    exact hresource hc
  rw [Capability.ucanResourceAction, hsplit]
  simp only [hkept]

/-- A custom has the same name in both forms. -/
theorem ucanName : (Capability.custom name).ucanCapabilityName = name := by
  rw [Capability.ucanCapabilityName, h.resourceAction, ← String.toList_inj]
  simp [h.text]

end CustomEntry

/-- What `validate_as_ceiling_entry` lets through. -/
inductive Admitted : Capability → Prop
  | builtin {capability : Capability} (h : capability ∈ Capability.builtinCapabilities) :
      Admitted capability
  | outlet {cls : OutletClass} {id : String} (h : OutletToken id.toList ∨ id = "*")
      (charset : validateCeilingEntryCharset (cls.colonStem ++ id) = .ok ()) :
      Admitted (cls.make id)
  | custom {name : String} {resource action : List Char} (h : CustomEntry name resource action) :
      Admitted (.custom name)

theorem OutletClass.make_name (cls : OutletClass) (id : String) :
    (cls.make id).name = cls.colonStem ++ id := by
  cases cls <;> rfl

/-- The grammar on the name of an outlet: a token, or the wildcard of the table. -/
theorem outlet_of_ok {cls : OutletClass} {id : String}
    (h : validateCeilingEntry (cls.colonStem ++ id) = .ok ()) :
    (OutletToken id.toList ∨ id = "*") ∧
      validateCeilingEntryCharset (cls.colonStem ++ id) = .ok () := by
  rw [validateCeilingEntry, bind_ok_iff, exists_unit_iff] at h
  obtain ⟨hcharset, hrest⟩ := h
  refine ⟨?_, hcharset⟩
  have hlist : (cls.colonStem ++ id).toList = cls.colonStem.toList ++ id.toList := by simp
  split at hrest
  · next htable =>
    -- One name of the table starts with the stem.
    right
    have hstar : ∀ entry ∈ builtinCeilingCategories,
        (stripPrefix cls.colonStem.toList entry.toList).all (· = ['*']) = true := by
      cases cls <;> decide
    have hthis := hstar _ htable
    rw [hlist, stripPrefix_append, Option.all_some, decide_eq_true_eq] at hthis
    rw [← String.toList_inj, hthis]
    rfl
  · left
    have hfound : (stripPrefix "outlet:query:".toList (cls.colonStem ++ id).toList).or
        (stripPrefix "outlet:call:".toList (cls.colonStem ++ id).toList) = some id.toList := by
      rw [hlist]
      cases cls
      · change (stripPrefix _ ("outlet:query:".toList ++ id.toList)).or _ = _
        rw [stripPrefix_append, Option.some_or]
      · rw [stripPrefix_append_of_ne (by decide), Option.none_or]
        exact stripPrefix_append
    rw [hfound] at hrest
    simp only [bind_ok_iff, exists_unit_iff, require_ok_iff, decide_eq_true_eq] at hrest
    exact ⟨hrest.2, hrest.1⟩

/-- A custom passes the grammar only as a custom. -/
theorem custom_of_ok {name : String}
    (h : (Capability.custom name).validateAsCeilingEntry = .ok ()) :
    ∃ resource action, CustomEntry name resource action := by
  simp only [Capability.validateAsCeilingEntry, validateCeilingEntry, bind_ok_iff, exists_unit_iff,
    require_ok_iff] at h
  obtain ⟨hread, hcharset, hrest⟩ := h
  have hcustom : ∃ x, Capability.new name = some (.custom x) := by
    split at hread
    · next x hx => exact ⟨x, hx⟩
    · cases hread
  obtain ⟨x, hx⟩ := hcustom
  obtain ⟨hstems, hbuiltin, _⟩ := new_eq_custom hx
  split at hrest
  · next htable =>
    have hnames : ∀ entry ∈ builtinCeilingCategories,
        ∃ pair ∈ Capability.builtinNames, pair.1 = entry := by decide
    obtain ⟨pair, hpair, hsame⟩ := hnames name htable
    exact absurd hsame (hbuiltin pair hpair)
  · rw [show stripPrefix "outlet:query:".toList name.toList = none from (hstems .query).1,
      show stripPrefix "outlet:call:".toList name.toList = none from (hstems .call).1] at hrest
    exact customEntry_of_ok hrest hcharset ⟨x, hx⟩

theorem admitted_of_ok {capability : Capability}
    (h : capability.validateAsCeilingEntry = .ok ()) : Admitted capability := by
  cases capability with
  | outletQuery id =>
    obtain ⟨hid, hcharset⟩ := @outlet_of_ok .query _ h
    exact @Admitted.outlet .query _ hid hcharset
  | outletCall id =>
    obtain ⟨hid, hcharset⟩ := @outlet_of_ok .call _ h
    exact @Admitted.outlet .call _ hid hcharset
  | custom name =>
    obtain ⟨resource, action, hentry⟩ := custom_of_ok h
    exact .custom hentry
  | _ => exact .builtin (by decide)

/-- The entries that share a name with another capability: an outlet whose id is the wildcard,
and a custom that starts with the marker of customs. -/
def Capability.isRenamed : Capability → Bool
  | .outletQuery id => id = "*"
  | .outletCall id => id = "*"
  | .custom name => (stripPrefix "custom:".toList name.toList).isSome
  | _ => false

theorem OutletClass.ucanName_toList (cls : OutletClass) (id : String) :
    (cls.make id).ucanCapabilityName.toList = cls.ucanStem.toList ++ id.toList := by
  cases cls <;> simp [make, Capability.ucanCapabilityName, Capability.ucanResourceAction, ucanStem]

theorem CustomEntry.new_iff {name : String} {resource action : List Char}
    (h : CustomEntry name resource action) : Capability.new name = some (.custom name) ↔
      (Capability.custom name).isRenamed = false := by
  obtain ⟨x, hx⟩ := h.read
  obtain ⟨_, _, hvalue⟩ := new_eq_custom hx
  rw [hx, Capability.isRenamed, Option.some.injEq, Capability.custom.injEq, hvalue]
  cases hstrip : stripPrefix "custom:".toList name.toList with
  | none => simp
  | some rest =>
    -- What follows the marker is shorter than the whole.
    have htext := stripPrefix_eq_some_iff.mp hstrip
    simp only [Option.map_some, Option.getD_some, Option.isSome_some, Bool.true_eq_false,
      iff_false]
    intro hsame
    have hlen := congrArg List.length htext
    rw [← hsame, String.toList_ofList, List.length_append] at hlen
    have hmarker : "custom:".toList.length = 7 := by decide
    omega

/-- Both forms of an admitted entry's name are read back as the entry exactly where it shares
its name with no other. -/
theorem Admitted.new_iff {capability : Capability} (h : Admitted capability) :
    (Capability.new capability.name = some capability ∧
      Capability.new capability.ucanCapabilityName = some capability) ↔
      capability.isRenamed = false := by
  cases h with
  | builtin hmem =>
    have hall : ∀ b ∈ Capability.builtinCapabilities, Capability.new b.name = some b ∧
        Capability.new b.ucanCapabilityName = some b ∧ b.isRenamed = false := by decide +kernel
    obtain ⟨hname, hucan, hrenamed⟩ := hall capability hmem
    exact ⟨fun _ => hrenamed, fun _ => ⟨hname, hucan⟩⟩
  | @outlet cls id hid _ =>
    rcases hid with htoken | rfl
    · have htext : (cls.make id).name.toList = cls.colonStem.toList ++ id.toList := by
        simp [cls.make_name]
      have hcolon := @new_outlet cls _ _ (Or.inl rfl) _ htext htoken
      have hucan := @new_outlet cls _ _ (Or.inr rfl) _ (cls.ucanName_toList id) htoken
      rw [String.ofList_toList] at hcolon hucan
      have hrenamed : (cls.make id).isRenamed = false := by
        have hne : id ≠ "*" := by
          rintro rfl
          exact htoken.not_star rfl
        cases cls <;> exact decide_eq_false hne
      exact ⟨fun _ => hrenamed, fun _ => ⟨hcolon, hucan⟩⟩
    · cases cls <;> decide +kernel
  | custom hentry =>
    rw [hentry.ucanName, Capability.name, and_self]
    exact hentry.new_iff

/-- The characters that the prelude lets through. -/
def isPlain (c : Char) : Bool :=
  !isControl c && !isWhitespace c && c ∉ ['<', '>', '&', '"', '\'']

theorem charset_ok_iff (entry : String) : validateCeilingEntryCharset entry = .ok () ↔
    byteLen entry.toList ≤ maxCeilingEntryLength ∧ ∀ c ∈ entry.toList, isPlain c = true := by
  simp [validateCeilingEntryCharset, isPlain, and_assoc]

theorem byteLen_append (a b : List Char) : byteLen (a ++ b) = byteLen a+byteLen b := by
  simp [byteLen]

/-- The two stems of a class are equally long and plain. -/
theorem ucanStem_charset {cls : OutletClass} {id : String}
    (h : validateCeilingEntryCharset (cls.colonStem ++ id) = .ok ()) :
    validateCeilingEntryCharset (cls.make id).ucanCapabilityName = .ok () := by
  rw [charset_ok_iff] at h ⊢
  obtain ⟨hlen, hplain⟩ := h
  have hstem : byteLen cls.ucanStem.toList = byteLen cls.colonStem.toList := by
    cases cls <;> decide
  have hstemPlain : validateCeilingEntryCharset cls.ucanStem = .ok () := by
    cases cls <;> decide +kernel
  rw [charset_ok_iff] at hstemPlain
  rw [String.toList_append] at hlen hplain
  rw [cls.ucanName_toList, byteLen_append, hstem, ← byteLen_append]
  refine ⟨hlen, ?_⟩
  intro c hc
  rcases List.mem_append.mp hc with hc | hc
  · exact hstemPlain.2 c hc
  · exact hplain c (List.mem_append_right _ hc)

theorem ucanStem_found (cls : OutletClass) (id : List Char) :
    (stripPrefix "outlet_query:".toList (cls.ucanStem.toList ++ id)).or
      (stripPrefix "outlet_call:".toList (cls.ucanStem.toList ++ id)) = some id := by
  cases cls
  · change (stripPrefix _ ("outlet_query:".toList ++ id)).or _ = _
    rw [stripPrefix_append, Option.some_or]
  · rw [stripPrefix_append_of_ne (by decide), Option.none_or]
    exact stripPrefix_append

/-- A kebab resource starts with no outlet stem. -/
theorem CustomEntry.no_stem {name : String} {resource action : List Char}
    (h : CustomEntry name resource action) (cls : OutletClass) :
    stripPrefix cls.ucanStem.toList name.toList = none := by
  obtain ⟨x, hx⟩ := h.read
  exact ((new_eq_custom hx).1 cls).2

theorem Admitted.ucan_ok {capability : Capability} (h : Admitted capability) :
    validateUcanCeilingString capability.ucanCapabilityName = .ok () := by
  cases h with
  | builtin hmem =>
    have hall : ∀ b ∈ Capability.builtinCapabilities,
        validateUcanCeilingString b.ucanCapabilityName = .ok () := by decide +kernel
    exact hall capability hmem
  | @outlet cls id hid hcharset =>
    rw [validateUcanCeilingString, bind_ok_iff, exists_unit_iff]
    refine ⟨ucanStem_charset hcharset, ?_⟩
    split
    · rfl
    · next hbuiltin =>
      rw [cls.ucanName_toList, ucanStem_found]
      rcases hid with htoken | rfl
      · simpa using ⟨htoken.short, htoken.token⟩
      · exact absurd (by cases cls <;> decide) hbuiltin
  | @custom name resource action hentry =>
    rw [hentry.ucanName, validateUcanCeilingString, bind_ok_iff, exists_unit_iff]
    refine ⟨hentry.charset, ?_⟩
    split
    · rfl
    · rw [show stripPrefix "outlet_query:".toList name.toList = none from hentry.no_stem .query,
        show stripPrefix "outlet_call:".toList name.toList = none from hentry.no_stem .call]
      exact hentry.grammar

theorem validateEntries_ok_iff (ceiling : CapabilityCeiling) : ceiling.validateEntries = .ok () ↔
    ∀ capability ∈ ceiling.capabilities, capability.validateAsCeilingEntry = .ok () := by
  rw [CapabilityCeiling.validateEntries, checkEach_ok_iff]

/-- A stored ceiling comes back as the same capabilities: every entry is read back from both
forms of its name and passes the import check, and no two entries share a UCAN name. -/
structure ComesBack (capabilities : List Capability) : Prop where
  read : ∀ c ∈ capabilities, Capability.new c.name = some c ∧
    Capability.new c.ucanCapabilityName = some c
  imported : ∀ c ∈ capabilities, validateUcanCeilingString c.ucanCapabilityName = .ok ()
  distinct : ∀ c ∈ capabilities, ∀ c' ∈ capabilities, c ≠ c' →
    c.ucanCapabilityName ≠ c'.ucanCapabilityName

/-- An admitted ceiling comes back exactly where none of its entries is an outlet with the
wildcard for an id or a custom that starts with the marker of customs. -/
theorem ceiling_comes_back_iff (ceiling : CapabilityCeiling)
    (h : ceiling.validateEntries = .ok ()) :
    ComesBack ceiling.capabilities ↔ ∀ c ∈ ceiling.capabilities, c.isRenamed = false := by
  rw [validateEntries_ok_iff] at h
  constructor
  · intro hback c hc
    exact (admitted_of_ok (h c hc)).new_iff.mp (hback.read c hc)
  · intro hplain
    have hread : ∀ c ∈ ceiling.capabilities, Capability.new c.name = some c ∧
        Capability.new c.ucanCapabilityName = some c :=
      fun c hc => (admitted_of_ok (h c hc)).new_iff.mpr (hplain c hc)
    refine ⟨hread, fun c hc => (admitted_of_ok (h c hc)).ucan_ok, ?_⟩
    intro c hc c' hc' hne hsame
    -- The shared name would be read back as both.
    have hboth : some c = some c' := by
      rw [← (hread c hc).2, hsame]
      exact (hread c' hc').2
    exact hne (Option.some.inj hboth)

/-- A ceiling of built-ins, an outlet and customs. -/
def sampleCeiling : CapabilityCeiling :=
  ⟨[.messagesRead, .outletCallAll, .childContextCreate, .outletQuery "search_1",
    .custom "payments:read", .custom "billing:*"]⟩

theorem sampleCeiling_comes_back : ComesBack sampleCeiling.capabilities :=
  (ceiling_comes_back_iff sampleCeiling (by decide +kernel)).mpr (by decide)

/-- Three admitted entries: a custom that is read back without its first half, and an outlet
that is read back as the wildcard, whose name it shares. -/
theorem renamed_entries_lost :
    (CapabilityCeiling.mk [.custom "custom:pay", .outletQuery "*",
      .outletQueryAll]).validateEntries = .ok () ∧
    Capability.new (Capability.custom "custom:pay").name = some (.custom "pay") ∧
    Capability.new (Capability.outletQuery "*").name = some .outletQueryAll ∧
    (Capability.outletQuery "*").ucanCapabilityName =
      Capability.outletQueryAll.ucanCapabilityName ∧
    ¬ ComesBack [.custom "custom:pay", .outletQuery "*", .outletQueryAll] := by
  refine ⟨by decide +kernel, by decide +kernel, by decide +kernel, by decide, ?_⟩
  intro hback
  exact hback.distinct (.outletQuery "*") (by decide) .outletQueryAll (by decide) (by decide)
    (by decide)

theorem star_mem_of_last {front id rest : List Char} (hid : id ≠ [])
    (h : front ++ id = rest ++ [':', '*']) : '*' ∈ id := by
  have hlast := congrArg List.getLast? h
  rw [List.getLast?_append_of_ne_nil _ hid] at hlast
  exact List.mem_of_getLast? (hlast.trans (by simp))

theorem OutletToken.star_not_mem {id : List Char} (h : OutletToken id) : id ≠ [] ∧ '*' ∉ id := by
  have htoken := h.token
  rw [isOutletIdToken, Bool.and_eq_true, decide_eq_true_eq, List.all_eq_true] at htoken
  refine ⟨htoken.1, ?_⟩
  intro hmem
  exact absurd (htoken.2 _ hmem) (by decide)

/-- An admitted entry with the name of a resource's wildcard is a wildcard of an outlet class,
in either guise, or a custom wildcard. -/
theorem Admitted.star_name {k : Capability} (hk : Admitted k) {resource : String}
    (h : k.ucanCapabilityName = resource ++ ":*") :
    (∃ cls : OutletClass, resource = cls.resource ∧ (k = cls.all ∨ k = cls.make "*")) ∨
      ∃ name r, k = .custom name ∧ CustomEntry name r ['*'] ∧ resource = String.ofList r := by
  have hlist : k.ucanCapabilityName.toList = resource.toList ++ [':', '*'] := by
    rw [h, String.toList_append]
    rfl
  cases hk with
  | builtin hmem =>
    -- Of the built-in names only those of the two outlet classes end in a wildcard.
    have hwild : ∀ b ∈ Capability.builtinCapabilities,
        b.ucanCapabilityName.toList.reverse.take 2 = ['*', ':'] →
          ∃ cls : OutletClass, b = cls.all := by
      simp only [Capability.builtinCapabilities, List.mem_cons, List.not_mem_nil, or_false]
      rintro b (rfl | rfl | rfl | rfl | rfl | rfl | rfl | rfl | rfl | rfl | rfl | rfl | rfl | rfl |
        rfl | rfl | rfl | rfl) hstar
      on_goal 3 => exact ⟨.query, rfl⟩
      on_goal 3 => exact ⟨.call, rfl⟩
      all_goals exact absurd hstar (by decide)
    obtain ⟨cls, rfl⟩ := hwild k hmem (by rw [hlist]; simp)
    refine Or.inl ⟨cls, ?_, Or.inl rfl⟩
    have hname : cls.all.ucanCapabilityName.toList = cls.resource.toList ++ [':', '*'] := by
      cases cls <;> decide
    rw [hname] at hlist
    exact (String.toList_inj.mp (List.append_cancel_right hlist)).symm
  | @outlet cls id hid _ =>
    rw [cls.ucanName_toList] at hlist
    rcases hid with htoken | rfl
    · obtain ⟨hne, hstar⟩ := htoken.star_not_mem
      exact absurd (star_mem_of_last hne hlist) hstar
    · refine Or.inl ⟨cls, ?_, Or.inr rfl⟩
      have hname : cls.ucanStem.toList ++ "*".toList = cls.resource.toList ++ [':', '*'] := by
        cases cls <;> decide
      rw [hname] at hlist
      exact (String.toList_inj.mp (List.append_cancel_right hlist)).symm
  | @custom name r action hentry =>
    right
    rw [hentry.ucanName, hentry.text] at hlist
    rcases hentry.shape with rfl | hkebab
    · refine ⟨name, r, rfl, hentry, ?_⟩
      rw [← String.toList_inj, String.toList_ofList]
      exact (List.append_cancel_right hlist).symm
    · have hne : action ≠ [] := by
        rintro rfl
        cases hkebab
      have hstar := @star_mem_of_last (r ++ [':']) action _ hne (by simpa using hlist)
      exact absurd hstar (not_mem_of_kebab hkebab (by decide))

/-- A kebab resource is none of an outlet class. -/
theorem CustomEntry.resource_ne {name : String} {r action : List Char}
    (h : CustomEntry name r action) (cls : OutletClass) : cls.resource.toList ≠ r := by
  rintro rfl
  exact not_mem_of_kebab h.kebab (c := '_') (by decide) (by cases cls <;> decide)

/-- Two admitted entries with one name are the same, or the two guises of a class wildcard. -/
theorem Admitted.eq_of_name_renamed {k c : Capability} (hk : Admitted k) (hc : Admitted c)
    (h : k.ucanCapabilityName = c.ucanCapabilityName) (hrenamed : c.isRenamed = true) :
    k = c ∨ ∃ cls : OutletClass, (k = cls.all ∨ k = cls.make "*") ∧ c = cls.make "*" := by
  cases hc with
  | builtin hmem =>
    have hnone : ∀ b ∈ Capability.builtinCapabilities, b.isRenamed = false := by decide
    rw [hnone c hmem] at hrenamed
    cases hrenamed
  | @outlet cls id _ _ =>
    have hstar : id = "*" := by cases cls <;> exact of_decide_eq_true hrenamed
    subst hstar
    have hname : (cls.make "*").ucanCapabilityName = cls.resource ++ ":*" := by
      cases cls <;> decide
    rw [hname] at h
    rcases hk.star_name h with ⟨cls', hresource, hwild⟩ | ⟨name, r, rfl, hentry, hresource⟩
    · have hsame : cls' = cls := by
        cases cls <;> cases cls' <;> first | rfl | exact absurd hresource (by decide)
      rw [hsame] at hwild
      exact Or.inr ⟨cls, hwild, rfl⟩
    · rw [← String.toList_inj, String.toList_ofList] at hresource
      exact absurd hresource (hentry.resource_ne cls)
  | @custom name r action hentry =>
    left
    rw [hentry.ucanName] at h
    obtain ⟨x, hx⟩ := hentry.read
    obtain ⟨hstems, hbuiltin, _⟩ := new_eq_custom hx
    cases hk with
    | builtin hmem =>
      have hnames : ∀ b ∈ Capability.builtinCapabilities,
          ∃ pair ∈ Capability.builtinNames, pair.1 = b.ucanCapabilityName := by decide
      obtain ⟨pair, hpair, hsame⟩ := hnames k hmem
      exact absurd (hsame.trans h) (hbuiltin pair hpair)
    | @outlet cls id _ _ =>
      have hstem := (hstems cls).2
      rw [← h, cls.ucanName_toList, stripPrefix_append] at hstem
      cases hstem
    | custom hentry' => rw [← h, hentry'.ucanName]

theorem Admitted.eq_of_name {k c : Capability} (hk : Admitted k) (hc : Admitted c)
    (h : k.ucanCapabilityName = c.ucanCapabilityName) :
    k = c ∨ ∃ cls : OutletClass, (k = cls.all ∨ k = cls.make "*") ∧
      (c = cls.all ∨ c = cls.make "*") := by
  by_cases hcr : c.isRenamed = true
  · rcases hk.eq_of_name_renamed hc h hcr with heq | ⟨cls, hwild, hstar⟩
    · exact Or.inl heq
    · exact Or.inr ⟨cls, hwild, Or.inr hstar⟩
  by_cases hkr : k.isRenamed = true
  · rcases hc.eq_of_name_renamed hk h.symm hkr with heq | ⟨cls, hwild, hstar⟩
    · exact Or.inl heq.symm
    · exact Or.inr ⟨cls, Or.inr hstar, hwild⟩
  -- Neither shares its name, so the name is read back as both.
  · left
    have hback := (hk.new_iff.mpr (by simpa using hkr)).2
    rw [h, (hc.new_iff.mpr (by simpa using hcr)).2] at hback
    exact (Option.some.inj hback).symm

/-- The URI of a capability in a context, or in all. -/
def Capability.uri (capability : Capability) (contextId : Option String) : CapabilityUri :=
  ⟨contextId, capability.ucanResourceAction.1, capability.ucanResourceAction.2⟩

/-- The entry, other than a class wildcard, that has the name of the wildcard of a capability's
resource: an outlet with the wildcard for an id, or a custom wildcard. -/
def Capability.starEntry : Capability → Option Capability
  | .outletQuery _ => some (.outletQuery "*")
  | .outletQueryAll => some (.outletQuery "*")
  | .outletCall _ => some (.outletCall "*")
  | .outletCallAll => some (.outletCall "*")
  | .custom name => some (.custom ((Capability.custom name).ucanResourceAction.1 ++ ":*"))
  | _ => none

theorem contains_all_of_class {ceiling : CapabilityCeiling} {cls : OutletClass} {c : Capability}
    (hall : cls.all ∈ ceiling.capabilities) (hc : c = cls.all ∨ ∃ id, c = cls.make id) :
    ceiling.contains c = true := by
  rcases hc with rfl | ⟨id, rfl⟩
  · exact ceiling.contains_of_mem hall
  · have hwild : (cls.make id).wildcard = some cls.all := by cases cls <;> rfl
    rw [CapabilityCeiling.contains, hwild, Option.any_some, decide_eq_true hall, Bool.or_true]

theorem starEntry_of_class {cls : OutletClass} {c : Capability}
    (hc : c = cls.all ∨ ∃ id, c = cls.make id) : c.starEntry = some (cls.make "*") := by
  rcases hc with rfl | ⟨id, rfl⟩ <;> cases cls <;> rfl

theorem starEntry_eq_some {c star : Capability} (h : c.starEntry = some star) :
    (∃ cls : OutletClass, (c = cls.all ∨ ∃ id, c = cls.make id) ∧ star = cls.make "*") ∨
      ∃ name, c = .custom name ∧ star = .custom (c.ucanResourceAction.1 ++ ":*") := by
  cases c with
  | outletQuery id => exact Or.inl ⟨.query, Or.inr ⟨id, rfl⟩, (Option.some.inj h).symm⟩
  | outletQueryAll => exact Or.inl ⟨.query, Or.inl rfl, (Option.some.inj h).symm⟩
  | outletCall id => exact Or.inl ⟨.call, Or.inr ⟨id, rfl⟩, (Option.some.inj h).symm⟩
  | outletCallAll => exact Or.inl ⟨.call, Or.inl rfl, (Option.some.inj h).symm⟩
  | custom name => exact Or.inr ⟨name, rfl, (Option.some.inj h).symm⟩
  | _ => cases h

theorem resource_of_class {cls : OutletClass} {c : Capability}
    (hc : c = cls.all ∨ ∃ id, c = cls.make id) : c.ucanResourceAction.1 = cls.resource := by
  rcases hc with rfl | ⟨id, rfl⟩ <;> cases cls <;> rfl

theorem Admitted.custom_name {k : Capability} (hk : Admitted k) {name : String}
    (h : k = .custom name) : k.ucanCapabilityName = name := by
  cases hk with
  | builtin hmem =>
    rw [h] at hmem
    exact absurd hmem (by simp [Capability.builtinCapabilities])
  | @outlet cls id _ _ => cases cls <;> cases h
  | custom hentry =>
    cases h
    exact hentry.ucanName

/-- The resource of a class is that of its capabilities only. -/
theorem Admitted.of_resource {c : Capability} (hc : Admitted c) {cls : OutletClass}
    (h : c.ucanResourceAction.1 = cls.resource) : c = cls.all ∨ ∃ id, c = cls.make id := by
  cases hc with
  | builtin hmem =>
    left
    have hall : ∀ b ∈ Capability.builtinCapabilities,
        b.ucanResourceAction.1 = cls.resource → b = cls.all := by
      cases cls <;> decide
    exact hall c hmem h
  | @outlet cls' id _ _ =>
    right
    have hsame : cls' = cls := by
      cases cls <;> cases cls' <;> first | rfl | exact absurd h (by simp [OutletClass.make,
        Capability.ucanResourceAction, OutletClass.resource])
    exact ⟨id, by rw [hsame]⟩
  | custom hentry =>
    rw [hentry.resourceAction, ← String.toList_inj, String.toList_ofList] at h
    exact absurd h.symm (hentry.resource_ne cls)

/-- The ceiling contains the capability, or holds the star entry of its resource. -/
def CapabilityCeiling.Reaches (ceiling : CapabilityCeiling) (c : Capability) : Prop :=
  ceiling.contains c = true ∨ ∃ star ∈ ceiling.capabilities, c.starEntry = some star

section Within
variable {ceiling : CapabilityCeiling} {k c : Capability}

theorem reaches_of_class {cls : OutletClass} (hk : k ∈ ceiling.capabilities)
    (hwild : k = cls.all ∨ k = cls.make "*") (hclass : c = cls.all ∨ ∃ id, c = cls.make id) :
    ceiling.Reaches c := by
  rcases hwild with rfl | rfl
  · exact Or.inl (contains_all_of_class hk hclass)
  · exact Or.inr ⟨_, hk, starEntry_of_class hclass⟩

/-- An entry with the name of the capability. -/
theorem reaches_of_name (hk : k ∈ ceiling.capabilities) (hadmitted : Admitted k) (hc : Admitted c)
    (hname : k.ucanCapabilityName = c.ucanCapabilityName) : ceiling.Reaches c := by
  rcases hadmitted.eq_of_name hc hname with rfl | ⟨cls, hwild, hclass⟩
  · exact Or.inl (ceiling.contains_of_mem hk)
  · exact reaches_of_class hk hwild (hclass.imp_right (fun h => ⟨_, h⟩))

/-- An entry with the name of the wildcard of the capability's resource. -/
theorem reaches_of_star_name (hk : k ∈ ceiling.capabilities) (hadmitted : Admitted k)
    (hc : Admitted c) (hname : k.ucanCapabilityName = c.ucanResourceAction.1 ++ ":*") :
    ceiling.Reaches c := by
  rcases hadmitted.star_name hname with ⟨cls, hresource, hwild⟩ |
    ⟨name, r, rfl, hentry, hresource⟩
  · exact reaches_of_class hk hwild (hc.of_resource hresource)
  -- A custom wildcard is the star entry of the customs of its resource, and of nothing else.
  · refine Or.inr ⟨_, hk, ?_⟩
    cases hc with
    | builtin hmem =>
      -- It shadows no built-in family.
      exact absurd (by rw [hresource, String.toList_ofList]) (hentry.unshadowed rfl c hmem)
    | @outlet cls id _ _ =>
      rw [resource_of_class (Or.inr ⟨id, rfl⟩), ← String.toList_inj,
        String.toList_ofList] at hresource
      exact absurd hresource (hentry.resource_ne cls)
    | custom _ =>
      rw [Capability.starEntry, hresource, Option.some.injEq, Capability.custom.injEq,
        ← String.toList_inj, hentry.text]
      simp

theorem wildcard_name {wild : Capability} (h : c.wildcard = some wild) :
    wild.ucanCapabilityName = c.ucanResourceAction.1 ++ ":*" := by
  cases c <;> cases h <;> rfl

theorem star_name_of_starEntry {star : Capability} (hadmitted : Admitted star)
    (h : c.starEntry = some star) : star.ucanCapabilityName = c.ucanResourceAction.1 ++ ":*" := by
  rcases starEntry_eq_some h with ⟨cls, hclass, rfl⟩ | ⟨name, rfl, rfl⟩
  · rw [resource_of_class hclass]
    cases cls <;> rfl
  · exact hadmitted.custom_name rfl

/-- A token is within an admitted ceiling where the ceiling contains its capability, or holds
the star entry of its resource. -/
theorem within_iff (hceiling : ∀ k ∈ ceiling.capabilities, Admitted k) (hc : Admitted c)
    (contextId : Option String) :
    (c.uri contextId).isWithinCeiling ceiling.toUcanStringSet = true ↔ ceiling.Reaches c := by
  have hnames (name : String) : name ∈ ceiling.toUcanStringSet ↔
      ∃ k ∈ ceiling.capabilities, k.ucanCapabilityName = name := List.mem_map
  -- The check on texts looks for the name, and for the wildcard of the resource.
  have hwithin : (c.uri contextId).isWithinCeiling ceiling.toUcanStringSet = true ↔
      (∃ k ∈ ceiling.capabilities, k.ucanCapabilityName = c.ucanCapabilityName) ∨
      ∃ k ∈ ceiling.capabilities, k.ucanCapabilityName = c.ucanResourceAction.1 ++ ":*" := by
    rw [← hnames, ← hnames, CapabilityUri.isWithinCeiling, Bool.or_eq_true, decide_eq_true_eq,
      decide_eq_true_eq]
    rfl
  rw [hwithin]
  constructor
  · intro h
    rcases h with ⟨k, hk, hname⟩ | ⟨k, hk, hname⟩
    · exact reaches_of_name hk (hceiling k hk) hc hname
    · exact reaches_of_star_name hk (hceiling k hk) hc hname
  · intro h
    rcases h with hcontains | ⟨star, hstar, hentry⟩
    · rw [CapabilityCeiling.contains, Bool.or_eq_true, decide_eq_true_eq] at hcontains
      rcases hcontains with hmem | hwild
      · exact Or.inl ⟨c, hmem, rfl⟩
      · obtain ⟨wild, hw, hmem⟩ := (Option.any_eq_true _ _).mp hwild
        rw [decide_eq_true_eq] at hmem
        exact Or.inr ⟨wild, hmem, wildcard_name hw⟩
    · exact Or.inr ⟨star, hstar, star_name_of_starEntry (hceiling star hstar) hentry⟩

end Within

/-- On an admitted ceiling and an admitted capability the two checks agree, unless the ceiling
holds the star entry of the capability's resource and neither the capability nor its class
wildcard. -/
theorem ceiling_checks_agree_iff (ceiling : CapabilityCeiling) (c : Capability)
    (contextId : Option String) (h : ceiling.validateEntries = .ok ())
    (hc : c.validateAsCeilingEntry = .ok ()) :
    (ceiling.contains c = true ↔
      (c.uri contextId).isWithinCeiling ceiling.toUcanStringSet = true) ↔
      ¬ ∃ star ∈ ceiling.capabilities, c.starEntry = some star ∧ c ∉ ceiling.capabilities ∧
        ∀ wild, c.wildcard = some wild → wild ∉ ceiling.capabilities := by
  rw [validateEntries_ok_iff] at h
  have hceiling : ∀ k ∈ ceiling.capabilities, Admitted k :=
    fun k hk => admitted_of_ok (h k hk)
  rw [within_iff hceiling (admitted_of_ok hc) contextId]
  have hcontains : ceiling.contains c = false ↔ c ∉ ceiling.capabilities ∧
      ∀ wild, c.wildcard = some wild → wild ∉ ceiling.capabilities := by
    cases hw : c.wildcard <;> simp [CapabilityCeiling.contains, hw]
  constructor
  · intro hagree
    rintro ⟨star, hstar, hentry, hnot⟩
    have hyes := hagree.mpr (Or.inr ⟨star, hstar, hentry⟩)
    rw [hcontains.mpr hnot] at hyes
    cases hyes
  · intro hnone
    refine ⟨Or.inl, ?_⟩
    rintro (hyes | ⟨star, hstar, hentry⟩)
    · exact hyes
    · by_contra hno
      exact hnone ⟨star, hstar, hentry, hcontains.mp (by simpa using hno)⟩

theorem sampleCeiling_checks_agree :
    (sampleCeiling.contains (.outletCall "fetch") = true ↔
      ((Capability.outletCall "fetch").uri none).isWithinCeiling
        sampleCeiling.toUcanStringSet = true) :=
  (ceiling_checks_agree_iff sampleCeiling (.outletCall "fetch") none (by decide +kernel)
    (by decide +kernel)).mpr (by
      rintro ⟨star, hstar, hentry, -⟩
      cases hentry
      exact absurd hstar (by decide))

/-- A token may read payments under the custom wildcard, and query any outlet under the outlet
named as the wildcard, where no role may. -/
theorem star_entries_split_checks :
    (CapabilityCeiling.mk [.custom "payments:*", .outletQuery "*"]).validateEntries = .ok () ∧
    (Capability.custom "payments:read").validateAsCeilingEntry = .ok () ∧
    (Capability.outletQuery "search").validateAsCeilingEntry = .ok () ∧
    (CapabilityCeiling.mk [.custom "payments:*", .outletQuery "*"]).contains
      (.custom "payments:read") = false ∧
    ((Capability.custom "payments:read").uri (some "c1")).isWithinCeiling
      (CapabilityCeiling.mk [.custom "payments:*", .outletQuery "*"]).toUcanStringSet = true ∧
    (CapabilityCeiling.mk [.custom "payments:*", .outletQuery "*"]).contains
      (.outletQuery "search") = false ∧
    ((Capability.outletQuery "search").uri (some "c1")).isWithinCeiling
      (CapabilityCeiling.mk [.custom "payments:*", .outletQuery "*"]).toUcanStringSet = true := by
  decide +kernel

end ScpCore.Roles
