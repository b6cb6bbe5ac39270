import ScpCore.ClientDataString

/-! What a stack of open containers still asks of the text, as a relation on what is left of it. A
name, a comma and a close take the validator from one state to the next exactly where the relation
goes on. -/

namespace ScpCore.Kel.ClientData

open JsonText (isWs Ws Number Item Json Value Members Elements Str Strict Stops Ahead inNumber
  unescape ObjectRest MembersTail ArrayRest ElementsTail)

abbrev Results := TopLevel × TopLevel

def Validator.results (v : Validator) : Results := (v.clientDataType, v.challenge)

def assign (results : Results) (entry : Text × TopLevel) : Results :=
  if entry.1 = "type".toList then (entry.2, results.2)
  else if entry.1 = "challenge".toList then (results.1, entry.2)
  else results

/-- A value as a verifier reads it. -/
def kindOf : Json → TopLevel
  | .string items => .string ((unescape items).getD [])
  | _ => .notString

def entry (member : List Item × Json) : Text × TopLevel :=
  ((unescape member.1).getD [], kindOf member.2)

def entriesOf : Json → List (Text × TopLevel)
  | .object members => members.map entry
  | _ => []

/-- The entries count where no container is open outside. -/
def outermost (outer : List Container) (entries : List (Text × TopLevel)) :
    List (Text × TopLevel) :=
  if outer = [] then entries else []

/-- The members may follow those with the given names. -/
structure Fresh (names : List Text) (members : List (List Item × Json)) : Prop where
  named : ∀ m ∈ members, (unescape m.1).isSome = true
  fresh : ∀ m ∈ members, ∀ name ∈ names, unescape m.1 ≠ some name
  distinct : (members.map (fun m => unescape m.1)).Nodup
  strict : ∀ m ∈ members, Strict m.2

/-- After a value: the rest of each open container, from the innermost on, and then whitespace. The
entries are those of the outermost object. -/
def After : List Container → Text → List (Text × TopLevel) → Prop
  | [], s, out => Ws s [] ∧ out = []
  | .object names :: outer, s, out => ∃ members r out', MembersTail s members r ∧
      Fresh names members ∧ After outer r out' ∧
      out = outermost outer (members.map entry) ++ out'
  | .array :: outer, s, out => ∃ elements r, ElementsTail s elements r ∧
      (∀ e ∈ elements, Strict e) ∧ After outer r out

/-- The rest of an object, where `R` is what it goes on with, and what follows it. -/
def ObjectThen (R : Text → List (List Item × Json) → Text → Prop) (names : List Text)
    (outer : List Container) (s : Text) (out : List (Text × TopLevel)) : Prop :=
  ∃ members r out', R s members r ∧ Fresh names members ∧ After outer r out' ∧
    out = outermost outer (members.map entry) ++ out'

def ArrayThen (R : Text → List Json → Text → Prop) (outer : List Container) (s : Text)
    (out : List (Text × TopLevel)) : Prop :=
  ∃ elements r, R s elements r ∧ (∀ e ∈ elements, Strict e) ∧ After outer r out

/-- A value, which is that of the given member, and what follows it. -/
def ValueThen (stack : List Container) (top : Option Text) (s : Text)
    (out : List (Text × TopLevel)) : Prop :=
  ∃ x v y out', Ws s x ∧ Value x v y ∧ Strict v ∧ After stack y out' ∧
    out = outermost stack (entriesOf v) ++ (top.toList.map (·, kindOf v) ++ out')

def Accepts (top : Option Text) (s : Text) (out : List (Text × TopLevel)) :
    Next → List Container → Prop
  | .value, stack => ValueThen stack top s out
  | .firstKeyOrClose, .object names :: outer => ObjectThen ObjectRest names outer s out
  | .key, .object names :: outer =>
    ObjectThen (fun s members r => Members s members ('}' :: r)) names outer s out
  | .firstValueOrClose, .array :: outer => ArrayThen ArrayRest outer s out
  | .afterValue, stack => After stack s out
  | _, _ => False

/-- The states of the loop: the position is before a character, a pending name is that of the value
to come, and a container just opened is the innermost. -/
structure At (v : Validator) (next : Next) (s : Text) : Prop where
  rest : v.rest = utf8 s
  top : v.topMember ≠ none → next = .value ∧ v.stack.length = 1
  firstKey : next = .firstKeyOrClose → ∃ names outer, v.stack = .object names :: outer
  firstValue : next = .firstValueOrClose → ∃ outer, v.stack = .array :: outer

/-- The rest of the text is accepted from the state, with these results at its end. -/
def Outcome (v : Validator) (next : Next) (s : Text) (results : Results) : Prop :=
  ∃ out, Accepts v.topMember s out next v.stack ∧ results = out.foldl assign v.results

/-- A step goes on exactly where the rest is accepted, and reads something. -/
def Steps (P : Results → Prop) (s : Text) : Run (Next × Validator) → Prop
  | .ok (next, w) => ∃ r, At w next r ∧ Ahead s r ∧ ∀ results, P results ↔ Outcome w next r results
  | .error stop => stop ≠ .running ∧ ∀ results, ¬ P results

/-- The same of a turn, which may also be the last. -/
def Turns (P : Results → Prop) (s : Text) : Run (Option Next × Validator) → Prop
  | .ok (some next, w) =>
    ∃ r, At w next r ∧ Ahead s r ∧ ∀ results, P results ↔ Outcome w next r results
  | .ok (none, w) => ∀ results, P results ↔ results = w.results
  | .error stop => stop ≠ .running ∧ ∀ results, ¬ P results

section Basic
variable {v w : Validator} {s r x y : Text} {c : Char} {stack outer : List Container}
  {out : List (Text × TopLevel)} {P Q : Results → Prop} {next : Next} {a b : Text}

theorem utf8_inj (h : utf8 a = utf8 b) : a = b := by
  have ha := fromUtf8_utf8 0 (le_max_left a.length b.length)
  have hb := fromUtf8_utf8 0 (le_max_right a.length b.length)
  rw [h, hb] at ha
  exact (Except.ok.inj ha).symm

theorem Steps.goOn {found : Run (Next × Validator)} (h : Steps P s found) :
    Turns P s (Validator.goOn found) := by
  cases found with
  | ok pair => exact h
  | error stop => exact h

theorem Steps.congr {found : Run (Next × Validator)} (h : Steps P s found)
    (hPQ : ∀ results, Q results ↔ P results) : Steps Q s found := by
  cases found with
  | ok pair =>
    obtain ⟨r, hat, hahead, hiff⟩ := h
    exact ⟨r, hat, hahead, fun results => (hPQ results).trans (hiff results)⟩
  | error stop => exact ⟨h.1, fun results hQ => h.2 results ((hPQ results).mp hQ)⟩

theorem stops_cons (hc : inNumber c = false) : Stops inNumber (c :: r) := by
  intro c' t heq
  obtain ⟨rfl, -⟩ := List.cons.inj heq
  exact hc

/-- What follows a value does not go on a number. -/
theorem After.stops_number (h : After stack s out) : Stops inNumber s := by
  match stack, h with
  | [], h => exact h.1.stops_number nofun
  | .object names :: outer, h =>
    obtain ⟨_, _, _, htail, -⟩ := h
    rcases htail with ⟨-, hws⟩ | ⟨t, hws, -⟩
    · exact hws.stops_number (stops_cons (by decide))
    · exact hws.stops_number (stops_cons (by decide))
  | .array :: outer, h =>
    obtain ⟨_, _, htail, -⟩ := h
    rcases htail with ⟨-, hws⟩ | ⟨t, hws, -⟩
    · exact hws.stops_number (stops_cons (by decide))
    · exact hws.stops_number (stops_cons (by decide))

end Basic

section Skip
variable {v : Validator} {s : Text} {stack : List Container} {top : Option Text}
  {out : List (Text × TopLevel)} {next : Next}

theorem after_skip : After stack (s.dropWhile isWs) out ↔ After stack s out := by
  match stack with
  | [] => exact and_congr_left (fun _ => JsonText.ws_skip_iff nofun)
  | .object names :: outer =>
    simp only [After, JsonText.membersTail_skip]
  | .array :: outer =>
    simp only [After, JsonText.elementsTail_skip]

theorem accepts_skip :
    Accepts top (s.dropWhile isWs) out next stack ↔ Accepts top s out next stack := by
  cases next with
  | value =>
    simp only [Accepts, ValueThen]
    refine exists_congr fun x => exists_congr fun j => exists_congr fun y =>
      exists_congr fun _ => ?_
    exact and_congr_left fun h => JsonText.ws_skip_iff h.1.stops_ws
  | firstKeyOrClose =>
    match stack with
    | [] => exact Iff.rfl
    | .object names :: outer => simp only [Accepts, ObjectThen, JsonText.objectRest_skip]
    | .array :: outer => exact Iff.rfl
  | key =>
    match stack with
    | [] => exact Iff.rfl
    | .object names :: outer => simp only [Accepts, ObjectThen, JsonText.members_skip]
    | .array :: outer => exact Iff.rfl
  | firstValueOrClose =>
    match stack with
    | [] => exact Iff.rfl
    | .object names :: outer => exact Iff.rfl
    | .array :: outer => simp only [Accepts, ArrayThen, JsonText.arrayRest_skip]
  | afterValue => exact after_skip

theorem At.skipWhitespace (h : At v next s) : At v.skipWhitespace next (s.dropWhile isWs) :=
  ⟨(Past.skipWhitespace h.rest).rest, h.top, h.firstKey, h.firstValue⟩

theorem outcome_skip {results : Results} :
    Outcome v.skipWhitespace next (s.dropWhile isWs) results ↔ Outcome v next s results :=
  exists_congr fun _ => and_congr_left fun _ => accepts_skip

end Skip

section Closing
variable {v : Validator} {s r : Text} {names : List Text} {members : List (List Item × Json)}
  {elements : List Json} {outer : List Container} {container : Container} {c : Char}
  {P : Results → Prop}

theorem fresh_nil (names : List Text) : Fresh names [] :=
  ⟨nofun, nofun, List.nodup_nil, nofun⟩

theorem fresh_cons_iff {items : List Item} {j : Json} : Fresh names ((items, j) :: members) ↔
    ∃ name, unescape items = some name ∧ name ∉ names ∧ Strict j ∧
      Fresh (names ++ [name]) members := by
  constructor
  · intro h
    obtain ⟨name, hname⟩ := Option.isSome_iff_exists.mp (h.named _ List.mem_cons_self)
    have hdistinct := List.nodup_cons.mp h.distinct
    refine ⟨name, hname, ?_, h.strict _ List.mem_cons_self, ?_, ?_, hdistinct.2, ?_⟩
    · intro hmem
      exact h.fresh _ List.mem_cons_self name hmem hname
    · exact fun m hm => h.named m (List.mem_cons_of_mem _ hm)
    · intro m hm other hother heq
      rcases List.mem_append.mp hother with hother | hother
      · exact h.fresh m (List.mem_cons_of_mem _ hm) other hother heq
      · -- The name of a later member is not that of this one.
        rw [List.mem_singleton.mp hother, ← hname] at heq
        exact hdistinct.1 (List.mem_map.mpr ⟨m, hm, heq⟩)
    · exact fun m hm => h.strict m (List.mem_cons_of_mem _ hm)
  · intro h
    obtain ⟨name, hname, hfresh, hstrict, h⟩ := h
    refine ⟨?_, ?_, ?_, ?_⟩
    · intro m hm
      rcases List.mem_cons.mp hm with rfl | hm
      · rw [hname]
        rfl
      · exact h.named m hm
    · intro m hm other hother heq
      rcases List.mem_cons.mp hm with rfl | hm
      · rw [hname, Option.some.injEq] at heq
        rw [← heq] at hother
        exact hfresh hother
      · exact h.fresh m hm other (List.mem_append_left _ hother) heq
    · rw [List.map_cons, List.nodup_cons]
      refine ⟨?_, h.distinct⟩
      intro hmem
      obtain ⟨m, hm, heq⟩ := List.mem_map.mp hmem
      exact h.fresh m hm name (List.mem_append_right _ (List.mem_singleton_self name))
        (heq.trans hname)
    · intro m hm
      rcases List.mem_cons.mp hm with rfl | hm
      · exact hstrict
      · exact h.strict m hm

theorem strict_object_iff : Strict (.object members) ↔ Fresh [] members := by
  constructor
  · intro h
    cases h with
    | object hnames hdistinct hvalues => exact ⟨hnames, nofun, hdistinct, hvalues⟩
  · intro h
    exact .object h.named h.distinct h.strict

theorem strict_array_iff : Strict (.array elements) ↔ ∀ e ∈ elements, Strict e := by
  constructor
  · intro h
    cases h with
    | array h => exact h
  · exact .array

theorem close_steps (hrest : v.rest = utf8 (c :: r)) (hc : c.toNat < 128)
    (htop : v.topMember = none) (hstack : v.stack = container :: outer)
    (hP : ∀ results, P results ↔ ∃ out, After outer r out ∧ results = out.foldl assign v.results) :
    Steps P (c :: r) v.close := by
  unfold Validator.close
  rw [hstack]
  refine ⟨r, ⟨(Past.advance_one hrest hc).rest, ?_, nofun, nofun⟩,
    Ahead.cons c List.suffix_rfl, hP⟩
  exact fun h => absurd htop h

/-- A text that does not begin with whitespace and is a character after whitespace begins with the
character. -/
theorem ws_cons_iff {d : Char} (hs : Stops isWs (c :: s)) :
    Ws (c :: s) (d :: r) ↔ d = c ∧ r = s := by
  constructor
  · intro h
    exact List.cons.inj (h.eq_of_stops hs)
  · rintro ⟨rfl, rfl⟩
    exact Ws.refl _

theorem membersTail_cons (hs : Stops isWs (c :: s)) : MembersTail (c :: s) members r ↔
    (c = '}' ∧ members = [] ∧ r = s) ∨ (c = ',' ∧ Members s members ('}' :: r)) := by
  unfold MembersTail
  simp only [ws_cons_iff hs]
  constructor
  · rintro (⟨rfl, rfl, rfl⟩ | ⟨t, ⟨rfl, rfl⟩, h⟩)
    · exact Or.inl ⟨rfl, rfl, rfl⟩
    · exact Or.inr ⟨rfl, h⟩
  · rintro (⟨rfl, rfl, rfl⟩ | ⟨rfl, h⟩)
    · exact Or.inl ⟨rfl, rfl, rfl⟩
    · exact Or.inr ⟨s, ⟨rfl, rfl⟩, h⟩

theorem elementsTail_cons (hs : Stops isWs (c :: s)) : ElementsTail (c :: s) elements r ↔
    (c = ']' ∧ elements = [] ∧ r = s) ∨ (c = ',' ∧ Elements s elements (']' :: r)) := by
  unfold ElementsTail
  simp only [ws_cons_iff hs]
  constructor
  · rintro (⟨rfl, rfl, rfl⟩ | ⟨t, ⟨rfl, rfl⟩, h⟩)
    · exact Or.inl ⟨rfl, rfl, rfl⟩
    · exact Or.inr ⟨rfl, h⟩
  · rintro (⟨rfl, rfl, rfl⟩ | ⟨rfl, h⟩)
    · exact Or.inl ⟨rfl, rfl, rfl⟩
    · exact Or.inr ⟨s, ⟨rfl, rfl⟩, h⟩

theorem not_ws_nil (d : Char) (r : Text) : ¬ Ws [] (d :: r) := by
  intro h
  exact List.cons_ne_nil d r (h.eq_of_stops nofun)

theorem not_after_nil {out : List (Text × TopLevel)} : ¬ After (container :: outer) [] out := by
  cases container with
  | object names =>
    rintro ⟨_, _, _, ⟨-, hws⟩ | ⟨t, hws, -⟩, -⟩
    · exact not_ws_nil _ _ hws
    · exact not_ws_nil _ _ hws
  | array =>
    rintro ⟨_, _, ⟨-, hws⟩ | ⟨t, hws, -⟩, -⟩
    · exact not_ws_nil _ _ hws
    · exact not_ws_nil _ _ hws

/-- After a comma in an object comes the next member. -/
theorem after_comma_object (hs : Stops isWs (',' :: s)) {out : List (Text × TopLevel)} :
    After (.object names :: outer) (',' :: s) out ↔
      ObjectThen (fun s members r => Members s members ('}' :: r)) names outer s out := by
  refine exists_congr fun members => exists_congr fun r => exists_congr fun out' =>
    and_congr_left fun _ => ?_
  rw [membersTail_cons hs]
  constructor
  · rintro (⟨hc, -⟩ | ⟨-, h⟩)
    · exact absurd hc (by decide)
    · exact h
  · exact fun h => Or.inr ⟨rfl, h⟩

/-- After a comma in an array comes the next element. -/
theorem after_comma_array (hs : Stops isWs (',' :: s)) {out : List (Text × TopLevel)} :
    After (.array :: outer) (',' :: s) out ↔
      ArrayThen (fun s elements r => Elements s elements (']' :: r)) outer s out := by
  refine exists_congr fun elements => exists_congr fun r => and_congr_left fun _ => ?_
  rw [elementsTail_cons hs]
  constructor
  · rintro (⟨hc, -⟩ | ⟨-, h⟩)
    · exact absurd hc (by decide)
    · exact h
  · exact fun h => Or.inr ⟨rfl, h⟩

theorem after_close_object (hs : Stops isWs ('}' :: s)) {out : List (Text × TopLevel)} :
    After (.object names :: outer) ('}' :: s) out ↔ After outer s out := by
  constructor
  · rintro ⟨members, r, out', htail, -, hafter, rfl⟩
    rcases (membersTail_cons hs).mp htail with ⟨-, rfl, rfl⟩ | ⟨hc, -⟩
    · have hnone : outermost outer (List.map entry []) = [] := by
        unfold outermost
        split_ifs <;> rfl
      rw [hnone, List.nil_append]
      exact hafter
    · exact absurd hc (by decide)
  · intro hafter
    refine ⟨[], s, out, (membersTail_cons hs).mpr (Or.inl ⟨rfl, rfl, rfl⟩), fresh_nil names,
      hafter, ?_⟩
    unfold outermost
    split_ifs <;> rfl

theorem after_close_array (hs : Stops isWs (']' :: s)) {out : List (Text × TopLevel)} :
    After (.array :: outer) (']' :: s) out ↔ After outer s out := by
  constructor
  · rintro ⟨elements, r, htail, -, hafter⟩
    rcases (elementsTail_cons hs).mp htail with ⟨-, rfl, rfl⟩ | ⟨hc, -⟩
    · exact hafter
    · exact absurd hc (by decide)
  · intro hafter
    exact ⟨[], s, (elementsTail_cons hs).mpr (Or.inl ⟨rfl, rfl, rfl⟩), nofun, hafter⟩

/-- The elements of an array are a value and what follows it. -/
theorem elements_then_iff {out : List (Text × TopLevel)} :
    ArrayThen (fun s elements r => Elements s elements (']' :: r)) outer s out ↔
      ValueThen (.array :: outer) none s out := by
  constructor
  · rintro ⟨elements, r, helements, hstrict, hafter⟩
    obtain ⟨j, rest, value, afterValue, rfl, hws, hvalue, htail⟩ :=
      JsonText.elements_iff.mp helements
    refine ⟨value, j, afterValue, out, hws, hvalue, hstrict j List.mem_cons_self, ?_, rfl⟩
    exact ⟨rest, r, htail, fun e he => hstrict e (List.mem_cons_of_mem _ he), hafter⟩
  · rintro ⟨value, j, afterValue, out', hws, hvalue, hj, ⟨rest, r, htail, hstrict, hafter⟩, rfl⟩
    refine ⟨j :: rest, r, ?_, ?_, hafter⟩
    · exact JsonText.elements_iff.mpr ⟨j, rest, value, afterValue, rfl, hws, hvalue, htail⟩
    · intro e he
      rcases List.mem_cons.mp he with rfl | he
      · exact hj
      · exact hstrict e he

theorem afterValue_turns (hat : At v .afterValue s) (hs : Stops isWs s) :
    Turns (Outcome v .afterValue s) s v.afterValue := by
  have htop : v.topMember = none := by
    by_contra hsome
    exact absurd (hat.top hsome).1 (by decide)
  unfold Validator.afterValue
  cases s with
  -- The text may end only where nothing is open.
  | nil =>
    rw [(peek_none_iff hat.rest).mpr rfl]
    cases hstack : v.stack with
    | nil =>
      intro results
      constructor
      · rintro ⟨out, hout, rfl⟩
        rw [hstack] at hout
        rw [hout.2]
        rfl
      · rintro rfl
        refine ⟨[], ?_, rfl⟩
        rw [hstack]
        exact ⟨Ws.refl [], rfl⟩
    | cons container outer =>
      refine ⟨nofun, ?_⟩
      rintro results ⟨out, hout, -⟩
      rw [hstack] at hout
      exact not_after_nil hout
  | cons c s =>
    obtain ⟨b, hpeek, hlead⟩ := peek_cons hat.rest
    rw [hpeek]
    match hstack : v.stack with
    | [] =>
      refine ⟨nofun, ?_⟩
      rintro results ⟨out, hout, -⟩
      rw [hstack] at hout
      exact List.cons_ne_nil c s (hout.1.eq_of_stops hs).symm
    | .object names :: outer =>
      dsimp only
      -- A comma asks for the next member, a brace closes the object, and nothing else is a tail.
      by_cases hcomma : b = ascii ','
      · obtain rfl := (hlead.ascii_iff ',' (by decide)).mp hcomma
        rw [if_pos hcomma]
        refine ⟨s, ⟨(Past.advance_one hat.rest (by decide)).rest, fun h => absurd htop h, nofun,
          nofun⟩, Ahead.cons ',' List.suffix_rfl, ?_⟩
        intro results
        apply exists_congr
        intro out
        apply and_congr_left
        intro _
        rw [show (v.advance 1).stack = v.stack from rfl, hstack]
        exact after_comma_object hs
      rw [if_neg hcomma]
      by_cases hclose : b = ascii '}'
      · obtain rfl := (hlead.ascii_iff '}' (by decide)).mp hclose
        rw [if_pos hclose]
        apply Steps.goOn
        apply close_steps hat.rest (by decide) htop hstack
        intro results
        apply exists_congr
        intro out
        apply and_congr_left
        intro _
        rw [hstack]
        exact after_close_object hs
      rw [if_neg hclose]
      refine ⟨nofun, ?_⟩
      rintro results ⟨out, hout, -⟩
      rw [hstack] at hout
      obtain ⟨_, _, _, htail, -⟩ := hout
      rcases (membersTail_cons hs).mp htail with ⟨rfl, -⟩ | ⟨rfl, -⟩
      · exact hclose ((hlead.ascii_iff '}' (by decide)).mpr rfl)
      · exact hcomma ((hlead.ascii_iff ',' (by decide)).mpr rfl)
    | .array :: outer =>
      dsimp only
      by_cases hcomma : b = ascii ','
      · obtain rfl := (hlead.ascii_iff ',' (by decide)).mp hcomma
        rw [if_pos hcomma]
        refine ⟨s, ⟨(Past.advance_one hat.rest (by decide)).rest, fun h => absurd htop h, nofun,
          nofun⟩, Ahead.cons ',' List.suffix_rfl, ?_⟩
        intro results
        apply exists_congr
        intro out
        apply and_congr_left
        intro _
        rw [show (v.advance 1).stack = v.stack from rfl,
          show (v.advance 1).topMember = v.topMember from rfl, hstack, htop]
        exact (after_comma_array hs).trans elements_then_iff
      rw [if_neg hcomma]
      by_cases hclose : b = ascii ']'
      · obtain rfl := (hlead.ascii_iff ']' (by decide)).mp hclose
        rw [if_pos hclose]
        apply Steps.goOn
        apply close_steps hat.rest (by decide) htop hstack
        intro results
        apply exists_congr
        intro out
        apply and_congr_left
        intro _
        rw [hstack]
        exact after_close_array hs
      rw [if_neg hclose]
      refine ⟨nofun, ?_⟩
      rintro results ⟨out, hout, -⟩
      rw [hstack] at hout
      obtain ⟨_, _, htail, -⟩ := hout
      rcases (elementsTail_cons hs).mp htail with ⟨rfl, -⟩ | ⟨rfl, -⟩
      · exact hclose ((hlead.ascii_iff ']' (by decide)).mpr rfl)
      · exact hcomma ((hlead.ascii_iff ',' (by decide)).mpr rfl)

end Closing

section Keys
variable {v w : Validator} {s r t : Text} {name : Text} {names : List Text} {items : List Item}
  {outer : List Container} {out : List (Text × TopLevel)} {passes : ℕ}

/-- What the scanner read is all that a string at the position can be. -/
theorem string_unique (h : v.rest = utf8 s) (hpasses : v.rest.length ≤ passes)
    (hok : v.string passes = .ok (name, w)) (hpast : Past v w r) {text : Text}
    (hstr : Str s items t) (htext : unescape items = some text) : text = name ∧ t = r := by
  obtain ⟨w', hok', hpast'⟩ := string_complete h hpasses hstr htext
  rw [hok] at hok'
  obtain ⟨rfl, rfl⟩ := Prod.mk.inj (Except.ok.inj hok')
  refine ⟨rfl, utf8_inj ?_⟩
  rw [← hpast'.rest, hpast.rest]

/-- The pending name that a key leaves. -/
def topName (outer : List Container) (name : Text) : Option Text :=
  if outer = [] then some name else none

theorem entry_eq {j : Json} (hname : unescape items = some name) :
    entry (items, j) = (name, kindOf j) := by
  rw [entry, hname]
  rfl

theorem outermost_cons (entry : Text × TopLevel) (entries : List (Text × TopLevel)) :
    outermost outer (entry :: entries) =
      (topName outer entry.1).toList.map (·, entry.2) ++ outermost outer entries := by
  unfold outermost topName
  split_ifs <;> rfl

/-- The members of an object are a name, a colon and a value with what follows it. -/
theorem members_then_iff
    (hname : ∀ items' t text, Str s items' t → unescape items' = some text → text = name ∧ t = r)
    (hstr : Str s items r) (hitems : unescape items = some name) (hs : Stops isWs s)
    (hcolon : Ws r (':' :: t)) :
    ObjectThen (fun s members r => Members s members ('}' :: r)) names outer s out ↔
      name ∉ names ∧ ValueThen (.object (names ++ [name]) :: outer) (topName outer name) t out := by
  constructor
  · rintro ⟨members, last, out', hmembers, hfresh, hafter, rfl⟩
    obtain ⟨items', j, rest, key, afterKey, afterColon, value, afterValue, rfl, hkey, hstr',
      hcolon', hvalue, h, htail⟩ := JsonText.members_iff.mp hmembers
    obtain ⟨text, htext, hnew, hj, hrest⟩ := fresh_cons_iff.mp hfresh
    rw [hkey.eq_of_stops hs] at hstr'
    obtain ⟨rfl, rfl⟩ := hname items' afterKey text hstr' htext
    -- Both colons are the first character after the whitespace.
    have hsame : ':' :: afterColon = ':' :: t := by
      rw [← hcolon'.eq_dropWhile (JsonText.stops_ws (by decide)),
        hcolon.eq_dropWhile (JsonText.stops_ws (by decide))]
    obtain ⟨-, rfl⟩ := List.cons.inj hsame
    refine ⟨hnew, value, j, afterValue, _, hvalue, h, hj, ⟨rest, last, out', htail, hrest, hafter,
      rfl⟩, ?_⟩
    rw [List.map_cons, outermost_cons, entry_eq htext, List.append_assoc]
    rfl
  · rintro ⟨hnew, value, j, afterValue, out₁, hvalue, h, hj, ⟨rest, last, out', htail, hrest,
      hafter, rfl⟩, rfl⟩
    refine ⟨(items, j) :: rest, last, out', ?_, ?_, hafter, ?_⟩
    · exact JsonText.members_iff.mpr ⟨items, j, rest, s, r, t, value, afterValue, rfl, Ws.refl s,
        hstr, hcolon, hvalue, h, htail⟩
    · exact fresh_cons_iff.mpr ⟨name, hitems, hnew, hj, hrest⟩
    · rw [List.map_cons, outermost_cons, entry_eq hitems, List.append_assoc]
      rfl

/-- The key that members begin with. -/
theorem members_key (hs : Stops isWs s)
    (h : ObjectThen (fun s members r => Members s members ('}' :: r)) names outer s out) :
    ∃ items t text u, Str s items t ∧ unescape items = some text ∧ text ∉ names ∧
      Ws t (':' :: u) := by
  obtain ⟨members, last, out', hmembers, hfresh, -⟩ := h
  obtain ⟨items, j, rest, key, afterKey, afterColon, value, afterValue, rfl, hkey, hstr, hcolon,
    -⟩ := JsonText.members_iff.mp hmembers
  obtain ⟨text, htext, hnew, -⟩ := fresh_cons_iff.mp hfresh
  rw [hkey.eq_of_stops hs] at hstr
  exact ⟨items, afterKey, text, afterColon, hstr, htext, hnew, hcolon⟩

/-- The colon after a name that is new to its object. -/
theorem colon_steps {added : Validator} {P : Results → Prop} (hadded : added.rest = utf8 r)
    (hstack : added.stack = .object (names ++ [name]) :: outer)
    (htop : added.topMember = topName outer name)
    (hunique : ∀ items' t text, Str s items' t → unescape items' = some text →
      text = name ∧ t = r)
    (hstr : Str s items r) (hitems : unescape items = some name) (hs : Stops isWs s)
    (hnew : name ∉ names)
    (hP : ∀ results, P results ↔ ∃ out,
      ObjectThen (fun s members r => Members s members ('}' :: r)) names outer s out ∧
        results = out.foldl assign added.results) :
    Steps P s (if added.skipWhitespace.peek ≠ some (ascii ':') then
        refuse added.skipWhitespace.unexpected
      else .ok (.value, added.skipWhitespace.advance 1)) := by
  have hskip := Past.skipWhitespace hadded
  -- A name without its colon is no member, and the name can be read in one way only.
  by_cases hcolon : added.skipWhitespace.peek = some (ascii ':')
  · obtain ⟨t, ht⟩ := (peek_iff hskip.rest (by decide)).mp hcolon
    rw [if_neg (not_not.mpr hcolon)]
    have hws : Ws r (':' :: t) := by
      rw [← ht]
      exact JsonText.ws_dropWhile r
    have hpast : Past added.skipWhitespace (added.skipWhitespace.advance 1) t := by
      apply Past.advance_one _ (by decide : (':' : Char).toNat < 128)
      rw [hskip.rest, ht]
    refine ⟨t, ⟨hpast.rest, ?_, nofun, nofun⟩, ?_, ?_⟩
    · intro hsome
      refine ⟨rfl, ?_⟩
      change added.stack.length = 1
      change added.topMember ≠ none at hsome
      rw [htop, topName] at hsome
      by_cases houter : outer = []
      · rw [hstack, houter]
        rfl
      · rw [if_neg houter] at hsome
        exact absurd rfl hsome
    · exact hstr.ahead.of_suffix ((JsonText.Ahead.cons ':' List.suffix_rfl).suffix.trans
        hws.suffix)
    · intro results
      refine (hP results).trans (exists_congr fun out => and_congr_left fun _ => ?_)
      change _ ↔ ValueThen added.stack added.topMember t out
      rw [hstack, htop]
      exact (members_then_iff hunique hstr hitems hs hws).trans (and_iff_right hnew)
  · rw [if_pos hcolon]
    refine ⟨nofun, ?_⟩
    intro results h
    obtain ⟨out, hout, -⟩ := (hP results).mp h
    obtain ⟨items', t, text, u, hstr', htext, -, hws⟩ := members_key hs hout
    obtain ⟨-, rfl⟩ := hunique items' t text hstr' htext
    apply hcolon
    apply (peek_iff hskip.rest (by decide)).mpr
    exact ⟨u, hws.eq_dropWhile (JsonText.stops_ws (by decide))⟩

/-- A name just read, in whatever container is innermost. -/
theorem name_steps {named : Validator} {offset : ℕ} (hpast : Past v named r)
    (hunique : ∀ items' t text, Str s items' t → unescape items' = some text →
      text = name ∧ t = r)
    (hstr : Str s items r) (hitems : unescape items = some name) (hs : Stops isWs s)
    (htop : v.topMember = none) :
    Steps (fun results => ∃ out, Accepts none s out .key v.stack ∧
        results = out.foldl assign v.results) s
      (named.addName offset name >>= fun added =>
        if added.skipWhitespace.peek ≠ some (ascii ':') then
          refuse added.skipWhitespace.unexpected
        else .ok (.value, added.skipWhitespace.advance 1)) := by
  have hstack' : named.stack = v.stack := by rw [hpast.same]
  have htop' : named.topMember = none := by
    rw [hpast.same]
    exact htop
  have hresults : named.results = v.results := by
    rw [hpast.same]
    rfl
  unfold Validator.addName
  rw [hstack']
  match hstack : v.stack with
  | [] => exact ⟨nofun, fun results ⟨out, hout, _⟩ => hout⟩
  | .array :: outer => exact ⟨nofun, fun results ⟨out, hout, _⟩ => hout⟩
  | .object names :: outer =>
    dsimp only
    -- A name seen before is refused, and the grammar admits no member of that name.
    by_cases hmem : name ∈ names
    · rw [if_pos hmem]
      refine ⟨nofun, ?_⟩
      rintro results ⟨out, hout, -⟩
      obtain ⟨items', t, text, u, hstr', htext, hnew, -⟩ := members_key hs hout
      obtain ⟨rfl, -⟩ := hunique items' t text hstr' htext
      exact hnew hmem
    · rw [if_neg hmem]
      have hadded : ({ named with
          stack := .object (names ++ [name]) :: outer
          topMember := if (Container.object names :: outer).length = 1 then some name
            else named.topMember } : Validator).rest = utf8 r := hpast.rest
      apply colon_steps hadded rfl _ hunique hstr hitems hs hmem
      · intro results
        rw [← hresults]
        exact Iff.rfl
      · dsimp only
        rw [htop', topName]
        cases outer <;> rfl

theorem key_steps (h : v.rest = utf8 s) (hs : Stops isWs s) (htop : v.topMember = none)
    (hpasses : v.rest.length ≤ passes) :
    Steps (fun results => ∃ out, Accepts none s out .key v.stack ∧
      results = out.foldl assign v.results) s (v.key passes) := by
  -- A key is accepted inside an object only, and begins with a string.
  have hkey : ∀ out, Accepts none s out .key v.stack → ∃ items t text,
      Str s items t ∧ unescape items = some text := by
    intro out hout
    match hstack : v.stack with
    | [] =>
      rw [hstack] at hout
      exact hout.elim
    | .array :: outer =>
      rw [hstack] at hout
      exact hout.elim
    | .object names :: outer =>
      rw [hstack] at hout
      obtain ⟨items, t, text, u, hstr, htext, -⟩ := members_key hs hout
      exact ⟨items, t, text, hstr, htext⟩
  unfold Validator.key
  by_cases hquote : v.peek = some (ascii '"')
  · obtain ⟨s', rfl⟩ := (peek_iff h (by decide)).mp hquote
    rw [if_neg (not_not.mpr hquote)]
    cases hstring : v.string passes with
    | error stop =>
      refine ⟨?_, ?_⟩
      · have hsettled := string_settled h hpasses
        rw [hstring] at hsettled
        exact fun hstop => hsettled (by rw [hstop])
      · rintro results ⟨out, hout, -⟩
        obtain ⟨items, t, text, hstr, htext⟩ := hkey out hout
        obtain ⟨w, hok, -⟩ := string_complete h hpasses hstr htext
        rw [hstring] at hok
        cases hok
    | ok read =>
      obtain ⟨name, named⟩ := read
      obtain ⟨r, items, hpast, hstr, hitems⟩ := string_sound h hstring
      have hunique : ∀ items' t text, Str ('"' :: s') items' t → unescape items' = some text →
          text = name ∧ t = r :=
        fun items' t text => string_unique h hpasses hstring hpast
      exact name_steps hpast hunique hstr hitems hs htop
  · rw [if_pos hquote]
    refine ⟨nofun, ?_⟩
    rintro results ⟨out, hout, -⟩
    obtain ⟨items, t, text, ⟨body, rfl, -⟩, -⟩ := hkey out hout
    exact hquote ((peek_iff h (by decide)).mpr ⟨body, rfl⟩)

end Keys

end ScpCore.Kel.ClientData
