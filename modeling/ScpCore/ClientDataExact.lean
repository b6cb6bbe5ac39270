import ScpCore.ClientDataStack

/-! The validator accepts the strict texts of the grammar: a value takes it on exactly where the
rest of the text is accepted, so its loop ends with the two members of the top-level object or
refuses. -/

namespace ScpCore.Kel.ClientData

open JsonText (isWs Ws Number Item Json Value Members Elements Str Strict Stops Ahead inNumber
  unescape ObjectRest MembersTail ArrayRest ElementsTail)

/-- The validator with no name pending. -/
def Validator.taken (v : Validator) : Validator := { v with topMember := none }

/-- What a value at the position must be for the rest to be accepted. -/
def ValueOutcome (v : Validator) (s : Text) (results : Results) : Prop :=
  ∃ out, ValueThen v.stack v.topMember s out ∧ results = out.foldl assign v.results

section Values
variable {v w : Validator} {s r : Text} {c : Char} {kind : TopLevel} {passes : ℕ}

theorem record_rest (w : Validator) (member : Option Text) (read : TopLevel) :
    (w.record member read).rest = w.rest ∧ (w.record member read).stack = w.stack ∧
      (w.record member read).topMember = w.topMember := by
  unfold Validator.record
  split_ifs <;> exact ⟨rfl, rfl, rfl⟩

theorem record_results (w : Validator) (member : Option Text) (read : TopLevel) :
    (w.record member read).results = (member.toList.map (·, read)).foldl assign w.results := by
  cases member with
  | none => rfl
  | some name =>
    unfold Validator.record
    by_cases htype : name = "type".toList
    · rw [htype]
      rfl
    by_cases hchallenge : name = "challenge".toList
    · rw [hchallenge]
      rfl
    have hnone : assign w.results (name, read) = w.results := by
      rw [assign, if_neg htype, if_neg hchallenge]
    rw [if_neg (by simpa using htype), if_neg (by simpa using hchallenge)]
    exact hnone.symm

theorem value_eq (htop : v.topMember ≠ none → v.stack.length = 1) (passes : ℕ) :
    v.value passes = v.peekOrEnd >>= fun byte => v.taken.readValue passes byte >>= fun read =>
      .ok (read.2.1, read.2.2.record v.topMember read.1) := by
  unfold Validator.value
  by_cases hone : v.stack.length = 1
  · rw [if_pos hone, if_pos hone]
    rfl
  · have hnone : v.topMember = none := by
      by_contra hsome
      exact hone (htop hsome)
    have htaken : v.taken = v := by
      rw [Validator.taken, ← hnone]
    rw [if_neg hone, if_neg hone, htaken, hnone]
    rfl

/-- A value that opens no container is read to its end. -/
theorem scalar_steps (hpast : Past v.taken w r) (hahead : Ahead s r) (hs : Stops isWs s)
    (hsound : ∃ j, Value s j r ∧ Strict j ∧ kindOf j = kind ∧ entriesOf j = [])
    (hcomplete : ∀ j y, Value s j y → Strict j → Stops inNumber y →
      y = r ∧ kindOf j = kind ∧ entriesOf j = []) :
    Steps (ValueOutcome v s) s (.ok (.afterValue, w.record v.topMember kind)) := by
  obtain ⟨hrest, hstack, htop⟩ := record_rest w v.topMember kind
  have hwstack : w.stack = v.stack := by rw [hpast.same]; rfl
  have hwtop : w.topMember = none := by rw [hpast.same]; rfl
  have hwresults : w.results = v.results := by rw [hpast.same]; rfl
  have hnone : outermost v.stack [] = [] := by
    unfold outermost
    split_ifs <;> rfl
  refine ⟨r, ⟨hrest.trans hpast.rest, ?_, nofun, nofun⟩, hahead, ?_⟩
  · intro hsome
    exact absurd (htop.trans hwtop) hsome
  intro results
  have hfold : ∀ out' : List (Text × TopLevel),
      (v.topMember.toList.map (·, kind) ++ out').foldl assign v.results =
        out'.foldl assign (w.record v.topMember kind).results := by
    intro out'
    rw [List.foldl_append, record_results, hwresults]
  constructor
  · rintro ⟨_, ⟨x, j, y, out', hws, hvalue, hstrict, hafter, rfl⟩, rfl⟩
    rw [hws.eq_of_stops hs] at hvalue
    obtain ⟨rfl, hkind, hentries⟩ := hcomplete j y hvalue hstrict hafter.stops_number
    refine ⟨out', ?_, ?_⟩
    · rw [hstack, hwstack]
      exact hafter
    · rw [hentries, hnone, List.nil_append, hkind, hfold]
  · rintro ⟨out', hafter, rfl⟩
    obtain ⟨j, hvalue, hstrict, hkind, hentries⟩ := hsound
    rw [hstack, hwstack] at hafter
    refine ⟨_, ⟨s, j, r, out', Ws.refl s, hvalue, hstrict, hafter, rfl⟩, ?_⟩
    rw [hentries, hnone, List.nil_append, hkind, hfold]

theorem string_steps (h : v.rest = utf8 ('"' :: s)) (hpasses : v.rest.length ≤ passes) :
    Steps (ValueOutcome v ('"' :: s)) ('"' :: s) (v.taken.string passes >>= fun read =>
      .ok (.afterValue, read.2.record v.topMember (.string read.1))) := by
  have hs : Stops isWs ('"' :: s) := JsonText.stops_ws (by decide)
  cases hstring : v.taken.string passes with
  | error stop =>
    refine ⟨?_, ?_⟩
    · have hsettled := string_settled (v := v.taken) h hpasses
      rw [hstring] at hsettled
      exact fun hstop => hsettled (by rw [hstop])
    · rintro results ⟨_, ⟨x, j, y, out', hws, hvalue, hstrict, -⟩, -⟩
      rw [hws.eq_of_stops hs] at hvalue
      obtain ⟨items, rfl, hstr⟩ := JsonText.value_string_iff.mp hvalue
      cases hstrict with
      | string hsome =>
        obtain ⟨text, htext⟩ := Option.isSome_iff_exists.mp hsome
        obtain ⟨w, hok, -⟩ := string_complete (v := v.taken) h hpasses hstr htext
        rw [hstring] at hok
        cases hok
  | ok read =>
    obtain ⟨text, w⟩ := read
    obtain ⟨r, items, hpast, hstr, hitems⟩ := string_sound (v := v.taken) h hstring
    apply scalar_steps hpast hstr.ahead hs
    · refine ⟨.string items, .string hstr, .string ?_, ?_, rfl⟩
      · rw [hitems]
        rfl
      · rw [kindOf, hitems]
        rfl
    · intro j y hvalue hstrict _
      obtain ⟨items', rfl, hstr'⟩ := JsonText.value_string_iff.mp hvalue
      cases hstrict with
      | string hsome =>
        obtain ⟨text', htext'⟩ := Option.isSome_iff_exists.mp hsome
        obtain ⟨rfl, rfl⟩ := string_unique (v := v.taken) h hpasses hstring hpast hstr' htext'
        refine ⟨rfl, ?_, rfl⟩
        rw [kindOf, htext']
        rfl

theorem number_settled : Settled v.number := by
  have hdigits : ∀ (u : Validator) (err : ClientDataError), Settled (u.someDigits err) :=
    fun u err => settled_ite (fun _ => settled_ok _) (fun _ => settled_refuse _)
  apply settled_bind
  · exact settled_ite (fun _ => settled_ok _) (fun _ => hdigits _ _)
  intro v₁ _
  apply settled_bind
  · exact settled_ite (fun _ => hdigits _ _) (fun _ => settled_ok _)
  intro v₂ _
  exact settled_ite (fun _ => hdigits _ _) (fun _ => settled_ok _)

theorem number_steps (h : v.rest = utf8 (c :: s)) (hc : c = '-' ∨ c.isDigit = true)
    (hs : Stops isWs (c :: s)) :
    Steps (ValueOutcome v (c :: s)) (c :: s) (v.taken.number >>= fun w =>
      .ok (.afterValue, w.record v.topMember .notString)) := by
  cases hnumber : v.taken.number with
  | error stop =>
    refine ⟨?_, ?_⟩
    · have hsettled := number_settled (v := v.taken)
      rw [hnumber] at hsettled
      exact fun hstop => hsettled (by rw [hstop])
    · rintro results ⟨_, ⟨x, j, y, out', hws, hvalue, -, hafter, -⟩, -⟩
      rw [hws.eq_of_stops hs] at hvalue
      obtain ⟨rfl, hnum⟩ := (JsonText.value_number_iff hc).mp hvalue
      obtain ⟨w, hok, -⟩ := number_complete (v := v.taken) h hnum hafter.stops_number
      rw [hnumber] at hok
      cases hok
  | ok w =>
    obtain ⟨r, hpast, hnum⟩ := number_sound (v := v.taken) h hnumber
    apply scalar_steps hpast hnum.ahead hs
    · exact ⟨.number, .number hnum, .number, rfl, rfl⟩
    · intro j y hvalue _ hy
      obtain ⟨rfl, hnum'⟩ := (JsonText.value_number_iff hc).mp hvalue
      obtain ⟨w', hok, hpast'⟩ := number_complete (v := v.taken) h hnum' hy
      rw [hnumber] at hok
      obtain rfl := Except.ok.inj hok
      refine ⟨utf8_inj ?_, rfl, rfl⟩
      rw [← hpast'.rest, hpast.rest]

/-- The bytes of an ASCII word are in front exactly where its characters are. -/
theorem take_word {word : Text} (hword : ∀ c ∈ word, c.toNat < 128) {bytes : Bytes}
    (h : bytes = utf8 s) :
    bytes.take word.length = word.map ascii ↔ ∃ r, s = word ++ r := by
  induction word generalizing s bytes with
  | nil => exact iff_of_true rfl ⟨s, rfl⟩
  | cons a word ih =>
    have ha := hword a List.mem_cons_self
    have hrest := fun c hc => hword c (List.mem_cons_of_mem a hc)
    constructor
    · intro htake
      cases bytes with
      | nil => cases htake
      | cons b bytes =>
        rw [List.length_cons, List.take_succ_cons, List.map_cons] at htake
        obtain ⟨rfl, htail⟩ := List.cons.inj htake
        have hnarrow : (ascii a).toNat < 128 := by
          rw [ascii_toNat ha]
          exact ha
        obtain ⟨c, s', rfl, hc, heq, hbytes⟩ := utf8_eq_cons h.symm hnarrow
        obtain ⟨r, rfl⟩ := (ih hrest hbytes).mp htail
        exact ⟨r, by rw [ascii_inj ha hc heq.symm]; rfl⟩
    · rintro ⟨r, rfl⟩
      rw [List.cons_append, utf8_ascii ha] at h
      rw [h, List.length_cons, List.take_succ_cons, List.map_cons, (ih hrest rfl).mpr ⟨r, rfl⟩]

theorem Past.advance_word {word : Text} (hword : ∀ c ∈ word, c.toNat < 128)
    (h : v.rest = utf8 (word ++ r)) : Past v (v.advance word.length) r := by
  have hdrop : ∀ word : Text, (∀ c ∈ word, c.toNat < 128) →
      (utf8 (word ++ r)).drop word.length = utf8 r := by
    intro word hword
    induction word with
    | nil => rfl
    | cons a word ih =>
      rw [List.cons_append, utf8_ascii (hword a List.mem_cons_self), List.length_cons,
        List.drop_succ_cons]
      exact ih (fun c hc => hword c (List.mem_cons_of_mem a hc))
  refine ⟨?_, rfl⟩
  rw [Validator.advance, h]
  exact hdrop word hword

theorem word_steps (h : v.rest = utf8 s) (hs : Stops isWs s) {word : Text} {j : Json}
    (hword : ∀ c ∈ word, c.toNat < 128) (hne : word ≠ [])
    (hvalue : ∀ r, Value (word ++ r) j r) (hj : Strict j) (hkind : kindOf j = .notString)
    (hentries : entriesOf j = []) (hinv : ∀ j' y, Value s j' y → s = word ++ y ∧ j' = j) :
    Steps (ValueOutcome v s) s (v.taken.literal (word.map ascii) >>= fun read =>
      .ok (read.2.1, read.2.2.record v.topMember read.1)) := by
  -- A text that is not the word has no value at its front.
  have hnot : ¬ v.rest.take word.length = word.map ascii →
      ∀ results, ¬ ValueOutcome v s results := by
    rintro htake results ⟨_, ⟨x, j', y, out', hws, hvalue', -⟩, -⟩
    rw [hws.eq_of_stops hs] at hvalue'
    obtain ⟨hsplit, -⟩ := hinv j' y hvalue'
    exact htake ((take_word hword h).mpr ⟨y, hsplit⟩)
  unfold Validator.literal
  rw [List.length_map, show v.taken.rest = v.rest from rfl]
  by_cases hshort : v.rest.length < word.length
  · rw [if_pos hshort]
    refine ⟨nofun, hnot ?_⟩
    intro htake
    have hlength := congrArg List.length htake
    rw [List.length_take, List.length_map] at hlength
    omega
  rw [if_neg hshort]
  by_cases htake : v.rest.take word.length = word.map ascii
  · rw [if_pos htake]
    obtain ⟨r, rfl⟩ := (take_word hword h).mp htake
    have hahead : Ahead (word ++ r) r := by
      obtain ⟨c, word', rfl⟩ := List.exists_cons_of_ne_nil hne
      exact ⟨c, word', rfl⟩
    have hpast : Past v.taken (v.taken.advance word.length) r := Past.advance_word hword h
    apply scalar_steps hpast hahead hs ⟨j, hvalue r, hj, hkind, hentries⟩
    intro j' y hvalue' _ _
    obtain ⟨hsplit, rfl⟩ := hinv j' y hvalue'
    exact ⟨(List.append_cancel_left hsplit).symm, hkind, hentries⟩
  · rw [if_neg htake]
    exact ⟨nofun, hnot htake⟩

/-- The pending name is that of a value directly inside the top-level object, so it and the entries
of the outermost object are never there together. -/
theorem outermost_or_top (htop : v.topMember ≠ none → v.stack.length = 1)
    (entries : List (Text × TopLevel)) (out : List (Text × TopLevel)) (kind : TopLevel) :
    (outermost v.stack entries ++ (v.topMember.toList.map (·, kind) ++ out)).foldl assign v.results
      = (outermost v.stack entries ++ out).foldl assign
        ((v.topMember.toList.map (·, kind)).foldl assign v.results) := by
  unfold outermost
  by_cases hempty : v.stack = []
  · have hnone : v.topMember = none := by
      by_contra hsome
      have hone := htop hsome
      rw [hempty] at hone
      cases hone
    rw [hnone]
    rfl
  · rw [if_neg hempty, List.nil_append, List.nil_append, List.foldl_append]

theorem object_steps (h : v.rest = utf8 ('{' :: s))
    (htop : v.topMember ≠ none → v.stack.length = 1) :
    Steps (ValueOutcome v ('{' :: s)) ('{' :: s) (.ok (.firstKeyOrClose,
      ((v.taken.advance 1).push (.object [])).record v.topMember .notString)) := by
  have hs : Stops isWs ('{' :: s) := JsonText.stops_ws (by decide)
  obtain ⟨hrest, hstack, hnone⟩ :=
    record_rest ((v.taken.advance 1).push (.object [])) v.topMember .notString
  have hpast : Past v.taken (v.taken.advance 1) s := Past.advance_one h (by decide)
  refine ⟨s, ⟨hrest.trans hpast.rest, ?_, fun _ => ⟨[], v.stack, hstack⟩, nofun⟩,
    Ahead.cons '{' List.suffix_rfl, ?_⟩
  · exact fun hsome => absurd hnone hsome
  intro results
  unfold Outcome
  rw [hstack, record_results]
  constructor
  · rintro ⟨_, ⟨x, j, y, out', hws, hvalue, hstrict, hafter, rfl⟩, rfl⟩
    rw [hws.eq_of_stops hs] at hvalue
    obtain ⟨members, rfl, hmembers⟩ := JsonText.value_object_iff.mp hvalue
    refine ⟨_, ⟨members, y, out', hmembers, strict_object_iff.mp hstrict, hafter, rfl⟩, ?_⟩
    exact outermost_or_top htop _ _ _
  · rintro ⟨_, ⟨members, y, out', hmembers, hfresh, hafter, rfl⟩, rfl⟩
    refine ⟨_, ⟨'{' :: s, .object members, y, out', Ws.refl _,
      JsonText.value_object_iff.mpr ⟨members, rfl, hmembers⟩, strict_object_iff.mpr hfresh, hafter,
      rfl⟩, ?_⟩
    exact (outermost_or_top htop _ _ _).symm

theorem array_steps (h : v.rest = utf8 ('[' :: s))
    (htop : v.topMember ≠ none → v.stack.length = 1) :
    Steps (ValueOutcome v ('[' :: s)) ('[' :: s) (.ok (.firstValueOrClose,
      ((v.taken.advance 1).push .array).record v.topMember .notString)) := by
  have hs : Stops isWs ('[' :: s) := JsonText.stops_ws (by decide)
  obtain ⟨hrest, hstack, hnone⟩ :=
    record_rest ((v.taken.advance 1).push .array) v.topMember .notString
  have hpast : Past v.taken (v.taken.advance 1) s := Past.advance_one h (by decide)
  have hentries : ∀ out : List (Text × TopLevel),
      out = outermost v.stack (entriesOf (.array [])) ++ out := by
    intro out
    unfold outermost
    split_ifs <;> rfl
  refine ⟨s, ⟨hrest.trans hpast.rest, ?_, nofun, fun _ => ⟨v.stack, hstack⟩⟩,
    Ahead.cons '[' List.suffix_rfl, ?_⟩
  · exact fun hsome => absurd hnone hsome
  intro results
  unfold Outcome
  rw [hstack, record_results]
  constructor
  · rintro ⟨_, ⟨x, j, y, out', hws, hvalue, hstrict, hafter, rfl⟩, rfl⟩
    rw [hws.eq_of_stops hs] at hvalue
    obtain ⟨elements, rfl, helements⟩ := JsonText.value_array_iff.mp hvalue
    refine ⟨out', ⟨elements, y, helements, strict_array_iff.mp hstrict, hafter⟩, ?_⟩
    rw [outermost_or_top htop]
    exact congrArg (List.foldl assign _) (hentries out').symm
  · rintro ⟨out', ⟨elements, y, helements, hstrict, hafter⟩, rfl⟩
    refine ⟨_, ⟨'[' :: s, .array elements, y, out', Ws.refl _,
      JsonText.value_array_iff.mpr ⟨elements, rfl, helements⟩, strict_array_iff.mpr hstrict, hafter,
      rfl⟩, ?_⟩
    rw [outermost_or_top htop]
    exact congrArg (List.foldl assign _) (hentries out')

/-- A value that is one of the three words is the one that begins with its letter. -/
theorem word_inv {word : Text} {j : Json} (hobject : c ≠ '{') (harray : c ≠ '[')
    (hquote : c ≠ '"') (hnumber : ¬ (c = '-' ∨ c.isDigit = true))
    (hword : (word = "true".toList ∧ j = .true_) ∨ (word = "false".toList ∧ j = .false_) ∨
      (word = "null".toList ∧ j = .null)) (hhead : word.head? = some c) :
    ∀ j' y, Value (c :: s) j' y → c :: s = word ++ y ∧ j' = j := by
  intro j' y hvalue
  rcases hvalue.word hobject harray hquote hnumber with ⟨heq, rfl⟩ | ⟨heq, rfl⟩ | ⟨heq, rfl⟩
  · rw [(List.cons.inj heq).1] at hhead
    rcases hword with ⟨rfl, rfl⟩ | ⟨rfl, -⟩ | ⟨rfl, -⟩
    · exact ⟨heq, rfl⟩
    · exact absurd hhead (by decide)
    · exact absurd hhead (by decide)
  · rw [(List.cons.inj heq).1] at hhead
    rcases hword with ⟨rfl, -⟩ | ⟨rfl, rfl⟩ | ⟨rfl, -⟩
    · exact absurd hhead (by decide)
    · exact ⟨heq, rfl⟩
    · exact absurd hhead (by decide)
  · rw [(List.cons.inj heq).1] at hhead
    rcases hword with ⟨rfl, -⟩ | ⟨rfl, -⟩ | ⟨rfl, rfl⟩
    · exact absurd hhead (by decide)
    · exact absurd hhead (by decide)
    · exact ⟨heq, rfl⟩

theorem value_steps (h : v.rest = utf8 s) (hs : Stops isWs s)
    (htop : v.topMember ≠ none → v.stack.length = 1) (hpasses : v.rest.length ≤ passes) :
    Steps (ValueOutcome v s) s (v.value passes) := by
  rw [value_eq htop]
  cases s with
  | nil =>
    have hend : v.peekOrEnd = refuse .unexpectedEnd := by
      rw [Validator.peekOrEnd, (peek_none_iff h).mpr rfl]
    rw [hend]
    refine ⟨by rintro ⟨⟩, ?_⟩
    rintro results ⟨_, ⟨x, j, y, out', hws, hvalue, -⟩, -⟩
    exact hvalue.ne_nil (hws.eq_of_stops hs)
  | cons c s =>
    obtain ⟨b, hpeek, hlead⟩ := peek_cons h
    have hread : v.peekOrEnd = .ok b := by rw [Validator.peekOrEnd, hpeek]
    rw [hread]
    change Steps _ _ (v.taken.readValue passes b >>= _)
    unfold Validator.readValue
    -- The first byte decides the kind of the value, as it does in the grammar.
    by_cases hobject : b = ascii '{'
    · rw [if_pos hobject]
      obtain rfl := (hlead.ascii_iff '{' (by decide)).mp hobject
      exact object_steps h htop
    rw [if_neg hobject]
    by_cases harray : b = ascii '['
    · rw [if_pos harray]
      obtain rfl := (hlead.ascii_iff '[' (by decide)).mp harray
      exact array_steps h htop
    rw [if_neg harray]
    by_cases hquote : b = ascii '"'
    · rw [if_pos hquote]
      obtain rfl := (hlead.ascii_iff '"' (by decide)).mp hquote
      rw [bind_assoc]
      exact string_steps h hpasses
    rw [if_neg hquote]
    have hdigit : isDigit b = true ↔ c.isDigit = true := by
      have hany := agree_digit.peek_any h
      rw [hpeek, Option.any_some] at hany
      rw [hany]
      constructor
      · rintro ⟨c', r', heq, hc'⟩
        rw [(List.cons.inj heq).1]
        exact hc'
      · exact fun hc => ⟨c, s, rfl, hc⟩
    have hnumber : (b = ascii '-' ∨ isDigit b = true) ↔ (c = '-' ∨ c.isDigit = true) :=
      or_congr (hlead.ascii_iff '-' (by decide)) hdigit
    by_cases hnum : b = ascii '-' ∨ isDigit b = true
    · rw [if_pos hnum, bind_assoc]
      exact number_steps h (hnumber.mp hnum) hs
    rw [if_neg hnum]
    -- What is left begins no bracket, string or number, so it can only be a word.
    rw [hnumber] at hnum
    rw [hlead.ascii_iff '{' (by decide)] at hobject
    rw [hlead.ascii_iff '[' (by decide)] at harray
    rw [hlead.ascii_iff '"' (by decide)] at hquote
    by_cases ht : b = ascii 't'
    · rw [if_pos ht]
      obtain rfl := (hlead.ascii_iff 't' (by decide)).mp ht
      exact word_steps h hs (by simp) (by simp) (fun r => .true_) .true_ rfl rfl
        (word_inv hobject harray hquote hnum (Or.inl ⟨rfl, rfl⟩) rfl)
    rw [if_neg ht]
    by_cases hf : b = ascii 'f'
    · rw [if_pos hf]
      obtain rfl := (hlead.ascii_iff 'f' (by decide)).mp hf
      exact word_steps h hs (by simp) (by simp) (fun r => .false_) .false_ rfl rfl
        (word_inv hobject harray hquote hnum (Or.inr (Or.inl ⟨rfl, rfl⟩)) rfl)
    rw [if_neg hf]
    by_cases hn : b = ascii 'n'
    · rw [if_pos hn]
      obtain rfl := (hlead.ascii_iff 'n' (by decide)).mp hn
      exact word_steps h hs (by simp) (by simp) (fun r => .null) .null rfl rfl
        (word_inv hobject harray hquote hnum (Or.inr (Or.inr ⟨rfl, rfl⟩)) rfl)
    rw [if_neg hn]
    refine ⟨by rintro ⟨⟩, ?_⟩
    rintro results ⟨_, ⟨x, j, y, out', hws, hvalue, -⟩, -⟩
    rw [hws.eq_of_stops hs] at hvalue
    rcases hvalue.word hobject harray hquote hnum with ⟨heq, -⟩ | ⟨heq, -⟩ | ⟨heq, -⟩
    · exact ht ((hlead.ascii_iff 't' (by decide)).mpr (List.cons.inj heq).1)
    · exact hf ((hlead.ascii_iff 'f' (by decide)).mpr (List.cons.inj heq).1)
    · exact hn ((hlead.ascii_iff 'n' (by decide)).mpr (List.cons.inj heq).1)

end Values

section Loop
variable {v : Validator} {s r : Text} {names : List Text} {outer : List Container}
  {out : List (Text × TopLevel)} {next : Next} {passes left : ℕ}

/-- No member begins with a closing brace. -/
theorem close_object_iff (hs : Stops isWs ('}' :: r)) :
    ObjectThen ObjectRest names outer ('}' :: r) out ↔ After outer r out := by
  refine Iff.trans ?_ (after_close_object hs : After (.object names :: outer) _ _ ↔ _)
  refine exists_congr fun members => exists_congr fun last => exists_congr fun _ =>
    and_congr_left fun _ => ?_
  rw [membersTail_cons hs, ObjectRest, ws_cons_iff hs]
  constructor
  · rintro (⟨rfl, -, rfl⟩ | hmembers)
    · exact Or.inl ⟨rfl, rfl, rfl⟩
    · obtain ⟨_, _, _, key, _, _, _, _, -, hkey, ⟨body, rfl, -⟩, -⟩ :=
        JsonText.members_iff.mp hmembers
      exact absurd ((ws_cons_iff hs).mp hkey).1 (by decide)
  · rintro (⟨-, rfl, rfl⟩ | ⟨hc, -⟩)
    · exact Or.inl ⟨rfl, rfl, rfl⟩
    · exact absurd hc (by decide)

/-- No element begins with a closing bracket. -/
theorem close_array_iff (hs : Stops isWs (']' :: r)) :
    ArrayThen ArrayRest outer (']' :: r) out ↔ After outer r out := by
  rw [← after_close_array hs]
  refine exists_congr fun elements => exists_congr fun last => and_congr_left fun _ => ?_
  rw [elementsTail_cons hs, ArrayRest, ws_cons_iff hs]
  constructor
  · rintro (⟨rfl, -, rfl⟩ | helements)
    · exact Or.inl ⟨rfl, rfl, rfl⟩
    · obtain ⟨j, _, value, _, -, hws, hvalue, -⟩ := JsonText.elements_iff.mp helements
      rw [hws.eq_of_stops hs] at hvalue
      have hword := hvalue.word (by decide) (by decide) (by decide) (by decide)
      rcases hword with ⟨heq, -⟩ | ⟨heq, -⟩ | ⟨heq, -⟩
      · exact absurd (List.cons.inj heq).1 (by decide)
      · exact absurd (List.cons.inj heq).1 (by decide)
      · exact absurd (List.cons.inj heq).1 (by decide)
  · rintro (⟨-, rfl, rfl⟩ | ⟨hc, -⟩)
    · exact Or.inl ⟨rfl, rfl, rfl⟩
    · exact absurd hc (by decide)

/-- Whitespace is over where the text goes on with another character. -/
theorem not_ws_cons {d : Char} (hs : Stops isWs s) (hd : ∀ t, s ≠ d :: t) : ¬ Ws s (d :: r) :=
  fun h => hd r (h.eq_of_stops hs).symm

theorem turn_turns (hat : At v next s) (hs : Stops isWs s) (hpasses : v.rest.length ≤ passes) :
    Turns (Outcome v next s) s (v.turn passes next) := by
  have htop : next ≠ .value → v.topMember = none := by
    intro hnext
    by_contra hsome
    exact hnext (hat.top hsome).1
  cases next with
  | value => exact (value_steps hat.rest hs (fun h => (hat.top h).2) hpasses).goOn
  | firstKeyOrClose =>
    obtain ⟨names, outer, hstack⟩ := hat.firstKey rfl
    have hnone := htop (by decide)
    apply Steps.goOn
    by_cases hclose : v.peek = some (ascii '}')
    · obtain ⟨r, rfl⟩ := (peek_iff hat.rest (by decide)).mp hclose
      rw [if_pos hclose]
      apply close_steps hat.rest (by decide) hnone hstack
      intro results
      apply exists_congr
      intro out
      apply and_congr_left
      intro _
      rw [hstack]
      exact close_object_iff hs
    · rw [if_neg hclose]
      -- An empty object would have closed here.
      have hnot : ∀ t, s ≠ '}' :: t :=
        fun t heq => hclose ((peek_iff hat.rest (by decide)).mpr ⟨t, heq⟩)
      apply (key_steps hat.rest hs hnone hpasses).congr
      intro results
      apply exists_congr
      intro out
      apply and_congr_left
      intro _
      rw [hstack]
      refine exists_congr fun members => exists_congr fun r => exists_congr fun _ =>
        and_congr_left fun _ => ?_
      exact or_iff_right (fun h => not_ws_cons hs hnot h.2)
  | key =>
    have hnone := htop (by decide)
    apply Steps.goOn
    apply (key_steps hat.rest hs hnone hpasses).congr
    intro results
    unfold Outcome
    rw [hnone]
  | firstValueOrClose =>
    obtain ⟨outer, hstack⟩ := hat.firstValue rfl
    have hnone := htop (by decide)
    apply Steps.goOn
    by_cases hclose : v.peek = some (ascii ']')
    · obtain ⟨r, rfl⟩ := (peek_iff hat.rest (by decide)).mp hclose
      rw [if_pos hclose]
      apply close_steps hat.rest (by decide) hnone hstack
      intro results
      apply exists_congr
      intro out
      apply and_congr_left
      intro _
      rw [hstack]
      exact close_array_iff hs
    · rw [if_neg hclose]
      have hnot : ∀ t, s ≠ ']' :: t :=
        fun t heq => hclose ((peek_iff hat.rest (by decide)).mpr ⟨t, heq⟩)
      apply (value_steps hat.rest hs (fun h => absurd hnone h) hpasses).congr
      intro results
      apply exists_congr
      intro out
      apply and_congr_left
      intro _
      rw [hstack, hnone, ← elements_then_iff]
      refine exists_congr fun elements => exists_congr fun r => and_congr_left fun _ => ?_
      exact or_iff_right (fun h => not_ws_cons hs hnot h.2)
  | afterValue => exact afterValue_turns hat hs

/-- The loop ends with the results of the rest of the text, within as many turns as it has bytes. -/
theorem loop_spec (hat : At v next s) (hleft : v.rest.length < left)
    (hpasses : v.rest.length ≤ passes) :
    match Validator.loop passes left v next with
    | .ok w => ∀ results, Outcome v next s results ↔ results = w.results
    | .error stop => stop ≠ .running ∧ ∀ results, ¬ Outcome v next s results := by
  induction left generalizing v next s with
  | zero => exact absurd hleft (Nat.not_lt_zero _)
  | succ left ih =>
    have hskip := hat.skipWhitespace
    have hshort : v.skipWhitespace.rest.length ≤ v.rest.length := by
      rw [hskip.rest, hat.rest]
      exact suffix_le (JsonText.ws_dropWhile s).suffix
    have hturn := turn_turns hskip (JsonText.Stops.dropWhile isWs s) (hshort.trans hpasses)
    rw [Validator.loop]
    cases hfound : v.skipWhitespace.turn passes next with
    | error stop =>
      rw [hfound] at hturn
      refine ⟨hturn.1, ?_⟩
      intro results h
      exact hturn.2 results (outcome_skip.mpr h)
    | ok found =>
      obtain ⟨next', w⟩ := found
      rw [hfound] at hturn
      cases next' with
      | none =>
        intro results
        exact outcome_skip.symm.trans (hturn results)
      | some next' =>
        obtain ⟨r, hat', hahead, hiff⟩ := hturn
        -- The turn read at least one byte.
        have hless : w.rest.length < v.rest.length := by
          apply Nat.lt_of_lt_of_le _ hshort
          rw [hat'.rest, hskip.rest]
          exact ahead_shorter hahead
        have hrest := ih hat' (by omega) (by omega)
        change match Validator.loop passes left w next' with
          | .ok w => _
          | .error stop => _
        cases hloop : Validator.loop passes left w next' with
        | error stop =>
          rw [hloop] at hrest
          refine ⟨hrest.1, ?_⟩
          intro results h
          exact hrest.2 results ((hiff results).mp (outcome_skip.mpr h))
        | ok last =>
          rw [hloop] at hrest
          intro results
          exact (outcome_skip.symm.trans (hiff results)).trans (hrest results)

end Loop

/-- The object has a member of the given name, and its value is the given string. -/
def StringMember (members : List (List Item × Json)) (name value : Text) : Prop :=
  ∃ items chars, (items, Json.string chars) ∈ members ∧ unescape items = some name ∧
    unescape chars = some value

section Members
variable {members : List (List Item × Json)} {entries : List (Text × TopLevel)} {results : Results}
  {name value : Text} {kind : TopLevel}

theorem entries_nodup (h : Fresh [] members) : ((members.map entry).map Prod.fst).Nodup := by
  have hsome : ((members.map entry).map Prod.fst).map some =
      members.map (fun m => unescape m.1) := by
    rw [List.map_map, List.map_map]
    apply List.map_congr_left
    intro m hm
    obtain ⟨text, htext⟩ := Option.isSome_iff_exists.mp (h.named m hm)
    change some ((unescape m.1).getD []) = unescape m.1
    rw [htext]
    rfl
  apply List.Nodup.of_map some
  rw [hsome]
  exact h.distinct

theorem mem_entries_iff (h : Fresh [] members) :
    (name, .string value) ∈ members.map entry ↔ StringMember members name value := by
  constructor
  · intro hmem
    obtain ⟨⟨items, j⟩, hm, heq⟩ := List.mem_map.mp hmem
    obtain ⟨hname, hkind⟩ := Prod.mk.inj heq
    obtain ⟨text, htext⟩ := Option.isSome_iff_exists.mp (h.named _ hm)
    have hstrict := h.strict _ hm
    cases j with
    | string chars =>
      cases hstrict with
      | string hsome =>
        obtain ⟨text', htext'⟩ := Option.isSome_iff_exists.mp hsome
        refine ⟨items, chars, hm, ?_, ?_⟩
        · rw [htext] at hname ⊢
          rw [← hname]
          rfl
        · rw [kindOf, htext'] at hkind
          rw [htext', ← TopLevel.string.inj hkind]
          rfl
    | object _ => cases hkind
    | array _ => cases hkind
    | number => cases hkind
    | true_ => cases hkind
    | false_ => cases hkind
    | null => cases hkind
  · rintro ⟨items, chars, hm, hitems, hchars⟩
    refine List.mem_map.mpr ⟨(items, .string chars), hm, ?_⟩
    rw [entry_eq hitems, kindOf, hchars]
    rfl

/-- A part of the results that the entries of one name set. -/
def Reads (key : Text) (part : Results → TopLevel) : Prop :=
  ∀ results entry, part (assign results entry) = if entry.1 = key then entry.2 else part results

theorem reads_type : Reads "type".toList Prod.fst := by
  intro results entry
  unfold assign
  split_ifs <;> rfl

theorem reads_challenge : Reads "challenge".toList Prod.snd := by
  intro results entry
  unfold assign
  split_ifs with htype hchallenge
  · rw [hchallenge] at htype
    exact absurd htype (by decide)
  · rfl
  · rfl
  · rfl

section Reads
variable {key : Text} {part : Results → TopLevel}

theorem Reads.foldl (hpart : Reads key part) (hnodup : (entries.map Prod.fst).Nodup)
    (h : (key, kind) ∈ entries ∨ (key ∉ entries.map Prod.fst ∧ part results = kind)) :
    part (entries.foldl assign results) = kind := by
  induction entries generalizing results with
  | nil =>
    rcases h with h | h
    · cases h
    · exact h.2
  | cons e entries ih =>
    obtain ⟨hnew, hnodup⟩ := List.nodup_cons.mp hnodup
    rw [List.foldl_cons]
    apply ih hnodup
    rcases h with h | ⟨hnot, hkind⟩
    · rcases List.mem_cons.mp h with heq | h
      · -- The entry is the only one of its name.
        rw [← heq] at hnew ⊢
        exact Or.inr ⟨hnew, by rw [hpart, if_pos rfl]⟩
      · exact Or.inl h
    · rw [List.map_cons, List.mem_cons, not_or] at hnot
      refine Or.inr ⟨hnot.2, ?_⟩
      rw [hpart, if_neg (Ne.symm hnot.1)]
      exact hkind

theorem Reads.foldl_iff (hpart : Reads key part) (hnodup : (entries.map Prod.fst).Nodup)
    (habsent : part (.absent, .absent) = .absent) :
    part (entries.foldl assign (.absent, .absent)) = .string value ↔
      (key, .string value) ∈ entries := by
  constructor
  · intro hfold
    by_cases hmem : key ∈ entries.map Prod.fst
    · obtain ⟨⟨name, kind⟩, he, rfl⟩ := List.mem_map.mp hmem
      rw [hpart.foldl hnodup (Or.inl he)] at hfold
      rw [← hfold]
      exact he
    · rw [hpart.foldl hnodup (Or.inr ⟨hmem, habsent⟩)] at hfold
      cases hfold
  · exact fun he => hpart.foldl hnodup (Or.inl he)

end Reads

end Members

/-- The bytes are UTF-8 without a byte-order mark, of one strict object of the grammar whose
members `type` and `challenge` are the given strings. -/
def Accepted (bytes : Bytes) (found : ClientDataMembers) : Prop :=
  ∃ chars members, bytes = utf8 chars ∧ ¬ [0xEF, 0xBB, 0xBF] <+: bytes ∧
    JsonText.Text chars (.object members) ∧ Strict (.object members) ∧
    StringMember members "type".toList found.clientDataType ∧
    StringMember members "challenge".toList found.challenge

section Parse
variable {v : Validator} {s chars : Text} {bytes : Bytes} {passes : ℕ}

theorem read_ok_iff {value : TopLevel} {missing notString : ClientDataError} {text : Text} :
    value.read missing notString = .ok text ↔ value = .string text := by
  cases value with
  | absent => exact iff_of_false nofun nofun
  | notString => exact iff_of_false nofun nofun
  | string value =>
    exact ⟨fun h => congrArg TopLevel.string (Except.ok.inj h), fun h => by cases h; rfl⟩

theorem read_settled {value : TopLevel} {missing notString : ClientDataError} :
    Settled (value.read missing notString) := by
  cases value with
  | absent => exact settled_refuse _
  | notString => exact settled_refuse _
  | string value => exact settled_ok value

/-- The validator before the first byte. -/
def Validator.start (bytes : Bytes) : Validator := ⟨bytes, 0, [], none, .absent, .absent⟩

/-- An object at the top with nothing but whitespace around it. -/
theorem text_object_iff {members : List (List Item × Json)} :
    JsonText.Text s (.object members) ↔
      ∃ r y, s.dropWhile isWs = '{' :: r ∧ ObjectRest r members y ∧ Ws y [] := by
  constructor
  · rintro ⟨t, y, hws, hvalue, hend⟩
    have hskip := hws.eq_dropWhile hvalue.stops_ws
    obtain ⟨c, r, rfl⟩ := List.exists_cons_of_ne_nil hvalue.ne_nil
    rcases hvalue.inv with ⟨rfl, members', heq, hrest⟩ | ⟨-, _, heq, -⟩ | ⟨-, _, heq, -⟩ |
      ⟨-, heq, -⟩ | ⟨-, heq⟩ | ⟨-, heq⟩ | ⟨-, heq⟩
    · obtain rfl := Json.object.inj heq
      exact ⟨r, y, hskip, hrest, hend⟩
    · cases heq
    · cases heq
    · cases heq
    · cases heq
    · cases heq
    · cases heq
  · rintro ⟨r, y, hskip, hrest, hend⟩
    refine ⟨'{' :: r, y, ?_, JsonText.value_object_iff.mpr ⟨members, rfl, hrest⟩, hend⟩
    rw [← hskip]
    exact JsonText.ws_dropWhile s

theorem run_spec (h : bytes = utf8 s) (hpasses : bytes.length < passes) :
    match (Validator.start bytes).run passes with
    | .ok w => ∀ results, results = w.results ↔ ∃ members, JsonText.Text s (.object members) ∧
        Strict (.object members) ∧
        results = (members.map entry).foldl assign (.absent, .absent)
    | .error stop => stop ≠ .running ∧ ∀ members, ¬ (JsonText.Text s (.object members) ∧
        Strict (.object members)) := by
  have hat : At (Validator.start bytes) .value s := ⟨h, fun hsome => absurd rfl hsome, nofun, nofun⟩
  have hskip := hat.skipWhitespace
  have hshort : (Validator.start bytes).skipWhitespace.rest.length ≤ bytes.length := by
    rw [hskip.rest, h]
    exact suffix_le (JsonText.ws_dropWhile s).suffix
  unfold Validator.run
  dsimp only
  by_cases hopen : (Validator.start bytes).skipWhitespace.peek = some (ascii '{')
  · obtain ⟨r, hr⟩ := (peek_iff hskip.rest (by decide)).mp hopen
    rw [hopen]
    dsimp only
    rw [if_pos rfl]
    have hloop := loop_spec hskip (hshort.trans_lt hpasses) (hshort.trans hpasses.le)
    -- The outcome of the whole loop, read for an object at the top.
    have houtcome : ∀ results, Outcome (Validator.start bytes).skipWhitespace .value
        (s.dropWhile isWs) results ↔ ∃ members, JsonText.Text s (.object members) ∧
          Strict (.object members) ∧
          results = (members.map entry).foldl assign (.absent, .absent) := by
      intro results
      rw [hr]
      constructor
      · rintro ⟨_, ⟨x, j, y, out', hws, hvalue, hstrict, ⟨hend, rfl⟩, rfl⟩, rfl⟩
        rw [hws.eq_of_stops (JsonText.stops_ws (by decide))] at hvalue
        obtain ⟨members, rfl, hrest⟩ := JsonText.value_object_iff.mp hvalue
        refine ⟨members, text_object_iff.mpr ⟨r, y, hr, hrest, hend⟩, hstrict, ?_⟩
        have hout : outermost [] (entriesOf (.object members)) ++ ([] ++ []) =
            members.map entry := by
          rw [List.append_nil, List.append_nil]
          rfl
        exact congrArg (List.foldl assign (.absent, .absent)) hout
      · rintro ⟨members, htext, hstrict, rfl⟩
        obtain ⟨r', y, hr', hrest, hend⟩ := text_object_iff.mp htext
        rw [hr] at hr'
        obtain ⟨-, rfl⟩ := List.cons.inj hr'
        refine ⟨members.map entry, ⟨'{' :: r, .object members, y, [], Ws.refl _,
          JsonText.value_object_iff.mpr ⟨members, rfl, hrest⟩, hstrict, ⟨hend, rfl⟩, ?_⟩, rfl⟩
        exact (List.append_nil _).symm
    cases hresult : Validator.loop passes passes (Validator.start bytes).skipWhitespace .value with
    | error stop =>
      rw [hresult] at hloop
      refine ⟨hloop.1, ?_⟩
      rintro members ⟨htext, hstrict⟩
      exact hloop.2 _ ((houtcome _).mpr ⟨members, htext, hstrict, rfl⟩)
    | ok w =>
      rw [hresult] at hloop
      exact fun results => (hloop results).symm.trans (houtcome results)
  · -- A text of an object begins with a brace.
    have hnot : ∀ members, ¬ (JsonText.Text s (.object members) ∧ Strict (.object members)) := by
      rintro members ⟨htext, -⟩
      obtain ⟨r, y, hr, -⟩ := text_object_iff.mp htext
      exact hopen ((peek_iff hskip.rest (by decide)).mpr ⟨r, hr⟩)
    cases hpeek : (Validator.start bytes).skipWhitespace.peek with
    | none => exact ⟨nofun, hnot⟩
    | some b =>
      rw [hpeek, Option.some.injEq] at hopen
      dsimp only
      rw [if_neg hopen]
      exact ⟨nofun, hnot⟩

theorem fromUtf8_valid_iff (bytes : Bytes) :
    (∃ chars, fromUtf8 0 bytes.length bytes = .ok chars) ↔ ∃ chars, bytes = utf8 chars := by
  constructor
  · rintro ⟨chars, hok⟩
    exact ⟨chars, fromUtf8_ok hok⟩
  · rintro ⟨chars, rfl⟩
    exact ⟨chars, fromUtf8_utf8 0 (length_le_utf8 chars)⟩

theorem mark_iff (bytes : Bytes) :
    bytes.take 3 = [0xEF, 0xBB, 0xBF] ↔ [0xEF, 0xBB, 0xBF] <+: bytes := by
  rw [List.prefix_iff_eq_take]
  exact eq_comm

/-- What is read once the bytes are known to be UTF-8 without a mark. -/
theorem parse_eq (hmark : ¬ bytes.take 3 = [0xEF, 0xBB, 0xBF])
    (hutf : fromUtf8 0 bytes.length bytes = .ok chars) :
    parse passes bytes = (Validator.start bytes).run passes >>= fun v =>
      v.clientDataType.read .missingType .typeNotString >>= fun clientDataType =>
      v.challenge.read .missingChallenge .challengeNotString >>= fun challenge =>
      .ok ⟨clientDataType, challenge⟩ := by
  unfold parse
  rw [if_neg hmark, hutf]
  rfl

/-- Given more passes than the input has bytes, the validator ends, and it accepts exactly the
strict texts of the grammar, with the two strings of the top-level object. -/
theorem client_data_exact (bytes : Bytes) (extra : ℕ) :
    parse (bytes.length+1+extra) bytes ≠ .error .running ∧
    ∀ found, parse (bytes.length+1+extra) bytes = .ok found ↔ Accepted bytes found := by
  by_cases hmark : bytes.take 3 = [0xEF, 0xBB, 0xBF]
  · have hrefused : ∀ passes, parse passes bytes = refuse .byteOrderMark := by
      intro passes
      unfold parse
      rw [if_pos hmark]
    rw [hrefused]
    refine ⟨nofun, ?_⟩
    intro found
    refine iff_of_false nofun ?_
    rintro ⟨chars, members, -, hno, -⟩
    exact hno ((mark_iff bytes).mp hmark)
  cases hutf : fromUtf8 0 bytes.length bytes with
  | error offset =>
    have hrefused : ∀ passes, parse passes bytes = refuse (.invalidUtf8 offset) := by
      intro passes
      unfold parse
      rw [if_neg hmark, hutf]
    rw [hrefused]
    refine ⟨nofun, ?_⟩
    intro found
    refine iff_of_false nofun ?_
    rintro ⟨chars, members, hbytes, -⟩
    obtain ⟨chars', hok⟩ := (fromUtf8_valid_iff bytes).mpr ⟨chars, hbytes⟩
    rw [hutf] at hok
    cases hok
  | ok chars =>
    have hbytes := fromUtf8_ok hutf
    have hrun := run_spec hbytes (by omega : bytes.length < bytes.length+1+extra)
    rw [parse_eq hmark hutf]
    cases hresult : (Validator.start bytes).run (bytes.length+1+extra) with
    | error stop =>
      rw [hresult] at hrun
      refine ⟨fun heq => hrun.1 (Except.error.inj heq), ?_⟩
      intro found
      refine iff_of_false nofun ?_
      rintro ⟨chars', members, hbytes', -, htext, hstrict, -⟩
      rw [utf8_inj (hbytes'.symm.trans hbytes)] at htext
      exact hrun.2 members ⟨htext, hstrict⟩
    | ok w =>
      rw [hresult] at hrun
      have hsettled : Settled (w.clientDataType.read .missingType .typeNotString >>=
          fun clientDataType => w.challenge.read .missingChallenge .challengeNotString >>=
          fun challenge => (.ok ⟨clientDataType, challenge⟩ : Run ClientDataMembers)) :=
        settled_bind read_settled fun _ _ => settled_bind read_settled fun _ _ => settled_ok _
      refine ⟨hsettled, ?_⟩
      intro found
      obtain ⟨members, htext, hstrict, hresults⟩ := (hrun w.results).mp rfl
      have hfresh := strict_object_iff.mp hstrict
      have hnodup := entries_nodup hfresh
      have htype : w.clientDataType = .string found.clientDataType ↔
          StringMember members "type".toList found.clientDataType := by
        rw [← mem_entries_iff hfresh, ← reads_type.foldl_iff hnodup rfl, ← hresults]
        rfl
      have hchallenge : w.challenge = .string found.challenge ↔
          StringMember members "challenge".toList found.challenge := by
        rw [← mem_entries_iff hfresh, ← reads_challenge.foldl_iff hnodup rfl, ← hresults]
        rfl
      have hread : (w.clientDataType.read .missingType .typeNotString >>= fun clientDataType =>
          w.challenge.read .missingChallenge .challengeNotString >>= fun challenge =>
          (.ok ⟨clientDataType, challenge⟩ : Run ClientDataMembers)) = .ok found ↔
          w.clientDataType = .string found.clientDataType ∧
            w.challenge = .string found.challenge := by
        simp only [bind_ok_iff, read_ok_iff]
        constructor
        · rintro ⟨_, hct, _, hch, heq⟩
          obtain rfl := Except.ok.inj heq
          exact ⟨hct, hch⟩
        · rintro ⟨hct, hch⟩
          exact ⟨_, hct, _, hch, rfl⟩
      refine Iff.trans hread ((and_congr htype hchallenge).trans ?_)
      constructor
      · rintro ⟨hct, hch⟩
        exact ⟨chars, members, hbytes, fun h => hmark ((mark_iff bytes).mpr h), htext, hstrict,
          hct, hch⟩
      · rintro ⟨chars', members', hbytes', -, htext', hstrict', hct, hch⟩
        -- Two readings of the text have the same entries at the top.
        rw [utf8_inj (hbytes'.symm.trans hbytes)] at htext'
        have hsame : w.results = (members'.map entry).foldl assign (.absent, .absent) :=
          ((hrun _).mpr ⟨members', htext', hstrict', rfl⟩).symm
        have hfresh' := strict_object_iff.mp hstrict'
        have hnodup' := entries_nodup hfresh'
        rw [← htype, ← hchallenge]
        rw [← mem_entries_iff hfresh', ← reads_type.foldl_iff hnodup' rfl, ← hsame] at hct
        rw [← mem_entries_iff hfresh', ← reads_challenge.foldl_iff hnodup' rfl, ← hsame] at hch
        exact ⟨hct, hch⟩

example : parse 64 (utf8 "\x7b\"type\":\"\\u0061\",\"challenge\":\"b\"\x7d".toList) =
    .ok ⟨"a".toList, "b".toList⟩ := by
  decide +kernel

end Parse

end ScpCore.Kel.ClientData
