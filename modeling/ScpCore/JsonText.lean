import Mathlib

/-! The grammar of JSON texts, over characters. Each relation holds between a text, what is read
at its front and the text left after it, so that a sequence of parts is a chain of relations. -/

namespace ScpCore.JsonText

def isWs (c : Char) : Bool := c == ' ' || c == '\t' || c == '\n' || c == '\r'

/-- Some of the whitespace in front is taken off. -/
def Ws (s r : List Char) : Prop := ∃ w, s = w ++ r ∧ ∀ c ∈ w, isWs c = true

/-- At least one decimal digit. -/
def Digits (s r : List Char) : Prop :=
  ∃ ds, s = ds ++ r ∧ ds ≠ [] ∧ ∀ c ∈ ds, c.isDigit = true

def Sign (s r : List Char) : Prop := s = r ∨ s = '-' :: r

/-- A zero, or digits that do not begin with one. -/
def IntPart (s r : List Char) : Prop := s = '0' :: r ∨ (s.head? ≠ some '0' ∧ Digits s r)

def FracPart (s r : List Char) : Prop := s = r ∨ ∃ t, s = '.' :: t ∧ Digits t r

def ExpPart (s r : List Char) : Prop :=
  s = r ∨ ∃ t u, (s = 'e' :: t ∨ s = 'E' :: t) ∧ (t = u ∨ t = '+' :: u ∨ t = '-' :: u) ∧ Digits u r

def Number (s r : List Char) : Prop :=
  ∃ t u v, Sign s t ∧ IntPart t u ∧ FracPart u v ∧ ExpPart v r

/-- A character of a string, or the code unit that an escape names. -/
inductive Item
  | char (c : Char)
  | unit (u : ℕ)
  deriving DecidableEq

def hexDigit (c : Char) : Option ℕ :=
  if c.isDigit then some (c.toNat-48)
  else if 'a' ≤ c ∧ c ≤ 'f' then some (c.toNat-87)
  else if 'A' ≤ c ∧ c ≤ 'F' then some (c.toNat-55)
  else none

def Hex4 (s : List Char) (unit : ℕ) (r : List Char) : Prop :=
  ∃ a b c d w x y z, s = a :: b :: c :: d :: r ∧ hexDigit a = some w ∧ hexDigit b = some x ∧
    hexDigit c = some y ∧ hexDigit d = some z ∧ unit = ((w*16+x)*16+y)*16+z

/-- The escapes of one letter. -/
def escapeChar (c : Char) : Option Char :=
  if c = '"' then some '"'
  else if c = '\\' then some '\\'
  else if c = '/' then some '/'
  else if c = 'b' then some '\x08'
  else if c = 'f' then some '\x0c'
  else if c = 'n' then some '\n'
  else if c = 'r' then some '\r'
  else if c = 't' then some '\t'
  else none

/-- What stands between the quotes. -/
inductive Body : List Char → List Item → List Char → Prop
  | nil {r : List Char} : Body r [] r
  | unescaped {c : Char} {s r : List Char} {items : List Item} (hcontrol : 0x20 ≤ c.toNat)
      (hquote : c ≠ '"') (hslash : c ≠ '\\') (h : Body s items r) :
      Body (c :: s) (.char c :: items) r
  | escaped {e c : Char} {s r : List Char} {items : List Item} (he : escapeChar e = some c)
      (h : Body s items r) : Body ('\\' :: e :: s) (.char c :: items) r
  | unit {u : ℕ} {s t r : List Char} {items : List Item} (hu : Hex4 s u t) (h : Body t items r) :
      Body ('\\' :: 'u' :: s) (.unit u :: items) r

def Str (s : List Char) (items : List Item) (r : List Char) : Prop :=
  ∃ t, s = '"' :: t ∧ Body t items ('"' :: r)

def isHigh (u : ℕ) : Bool := 0xD800 ≤ u && u ≤ 0xDBFF

def isLow (u : ℕ) : Bool := 0xDC00 ≤ u && u ≤ 0xDFFF

/-- The character that a pair of surrogates names. -/
def surrogatePair (high low : ℕ) : Char := Char.ofNat (0x10000+(high-0xD800)*0x400+(low-0xDC00))

/-- The characters a string stands for. A surrogate that is not part of a pair stands for none. -/
def unescape : List Item → Option (List Char)
  | [] => some []
  | .char c :: items => (unescape items).map (c :: ·)
  | .unit u :: items =>
    if isHigh u then
      match items with
      | .unit low :: items =>
        if isLow low then (unescape items).map (surrogatePair u low :: ·) else none
      | _ => none
    else if isLow u then none
    else (unescape items).map (Char.ofNat u :: ·)

theorem unescape_unit_eq (u : ℕ) (items : List Item) : unescape (.unit u :: items) =
    if isHigh u then
      match items with
      | .unit low :: items =>
        if isLow low then (unescape items).map (surrogatePair u low :: ·) else none
      | _ => none
    else if isLow u then none
    else (unescape items).map (Char.ofNat u :: ·) := by
  rw [unescape.eq_def]

inductive Json
  | object (members : List (List Item × Json))
  | array (elements : List Json)
  | string (items : List Item)
  | number
  | true_
  | false_
  | null

mutual

inductive Value : List Char → Json → List Char → Prop
  | emptyObject {s r : List Char} (h : Ws s ('}' :: r)) : Value ('{' :: s) (.object []) r
  | object {s r : List Char} {members : List (List Item × Json)}
      (h : Members s members ('}' :: r)) : Value ('{' :: s) (.object members) r
  | emptyArray {s r : List Char} (h : Ws s (']' :: r)) : Value ('[' :: s) (.array []) r
  | array {s r : List Char} {elements : List Json} (h : Elements s elements (']' :: r)) :
      Value ('[' :: s) (.array elements) r
  | string {s r : List Char} {items : List Item} (h : Str s items r) : Value s (.string items) r
  | number {s r : List Char} (h : Number s r) : Value s .number r
  | true_ {r : List Char} : Value ('t' :: 'r' :: 'u' :: 'e' :: r) .true_ r
  | false_ {r : List Char} : Value ('f' :: 'a' :: 'l' :: 's' :: 'e' :: r) .false_ r
  | null {r : List Char} : Value ('n' :: 'u' :: 'l' :: 'l' :: r) .null r

/-- A name, a colon and a value, with whitespace around each. -/
inductive Member : List Char → List Item × Json → List Char → Prop
  | mk {s key afterKey afterColon value afterValue r : List Char} {name : List Item} {v : Json}
      (hkey : Ws s key) (hname : Str key name afterKey) (hcolon : Ws afterKey (':' :: afterColon))
      (hvalue : Ws afterColon value) (h : Value value v afterValue) (hend : Ws afterValue r) :
      Member s (name, v) r

inductive Members : List Char → List (List Item × Json) → List Char → Prop
  | one {s r : List Char} {member : List Item × Json} (h : Member s member r) :
      Members s [member] r
  | cons {s t r : List Char} {member : List Item × Json} {members : List (List Item × Json)}
      (h : Member s member (',' :: t)) (hrest : Members t members r) :
      Members s (member :: members) r

inductive Elements : List Char → List Json → List Char → Prop
  | one {s value afterValue r : List Char} {v : Json} (hvalue : Ws s value)
      (h : Value value v afterValue) (hend : Ws afterValue r) : Elements s [v] r
  | cons {s value afterValue t r : List Char} {v : Json} {elements : List Json}
      (hvalue : Ws s value) (h : Value value v afterValue) (hend : Ws afterValue (',' :: t))
      (hrest : Elements t elements r) : Elements s (v :: elements) r

end

/-- A whole text: one value with nothing but whitespace around it. -/
def Text (s : List Char) (v : Json) : Prop := ∃ t r, Ws s t ∧ Value t v r ∧ Ws r []

/-- No string of the value has a lone surrogate, and no object in it has two names that are equal
once unescaped. -/
inductive Strict : Json → Prop
  | object {members : List (List Item × Json)}
      (hnames : ∀ m ∈ members, (unescape m.1).isSome = true)
      (hdistinct : (members.map (fun m => unescape m.1)).Nodup)
      (hvalues : ∀ m ∈ members, Strict m.2) : Strict (.object members)
  | array {elements : List Json} (h : ∀ e ∈ elements, Strict e) : Strict (.array elements)
  | string {items : List Item} (h : (unescape items).isSome = true) : Strict (.string items)
  | number : Strict .number
  | true_ : Strict .true_
  | false_ : Strict .false_
  | null : Strict .null

-- A scanner that takes as much as it can stops where the grammar does, so long as what follows cannot
-- continue the part it read.

/-- The text does not go on with a character of the class. -/
def Stops (q : Char → Bool) (r : List Char) : Prop := ∀ c t, r = c :: t → q c = false

section Scan
variable {s r t : List Char} {q : Char → Bool}

theorem Stops.dropWhile (q : Char → Bool) (s : List Char) : Stops q (s.dropWhile q) := by
  induction s with
  | nil => exact nofun
  | cons c s ih =>
    by_cases hc : q c = true
    · rw [List.dropWhile_cons_of_pos hc]
      exact ih
    · rw [List.dropWhile_cons_of_neg hc]
      intro c' t heq
      cases heq
      simpa using hc

theorem Stops.dropWhile_append {w : List Char} (hw : ∀ c ∈ w, q c = true) (hr : Stops q r) :
    (w ++ r).dropWhile q = r := by
  induction w with
  | nil =>
    cases r with
    | nil => rfl
    | cons c r => exact List.dropWhile_cons_of_neg (by simp [hr c r rfl])
  | cons c w ih =>
    rw [List.cons_append, List.dropWhile_cons_of_pos (hw c List.mem_cons_self)]
    exact ih (fun d hd => hw d (List.mem_cons_of_mem c hd))

theorem takeWhile_forall (q : Char → Bool) (s : List Char) : ∀ c ∈ s.takeWhile q, q c = true :=
  fun _ hc => List.mem_takeWhile_imp hc

theorem Ws.refl (s : List Char) : Ws s s := ⟨[], rfl, nofun⟩

theorem Ws.trans (h : Ws s t) (h' : Ws t r) : Ws s r := by
  obtain ⟨w, rfl, hw⟩ := h
  obtain ⟨w', rfl, hw'⟩ := h'
  refine ⟨w ++ w', (List.append_assoc w w' r).symm, ?_⟩
  intro c hc
  rcases List.mem_append.mp hc with hc | hc
  · exact hw c hc
  · exact hw' c hc

theorem ws_dropWhile (s : List Char) : Ws s (s.dropWhile isWs) :=
  ⟨s.takeWhile isWs, List.takeWhile_append_dropWhile.symm, takeWhile_forall isWs s⟩

/-- What whitespace is followed by is what is left once all of it is skipped. -/
theorem Ws.eq_dropWhile (h : Ws s r) (hr : Stops isWs r) : s.dropWhile isWs = r := by
  obtain ⟨w, rfl, hw⟩ := h
  exact hr.dropWhile_append hw

theorem Digits.eq_dropWhile (h : Digits s r) (hr : Stops Char.isDigit r) :
    s.dropWhile Char.isDigit = r := by
  obtain ⟨ds, rfl, _, hds⟩ := h
  exact hr.dropWhile_append hds

theorem Digits.head (h : Digits s r) : ∃ c s', s = c :: s' ∧ c.isDigit = true := by
  obtain ⟨ds, rfl, hne, hds⟩ := h
  cases ds with
  | nil => exact absurd rfl hne
  | cons c ds => exact ⟨c, ds ++ r, rfl, hds c List.mem_cons_self⟩

theorem digits_dropWhile {c : Char} (hc : c.isDigit = true) :
    Digits (c :: s) ((c :: s).dropWhile Char.isDigit) := by
  refine ⟨(c :: s).takeWhile Char.isDigit, List.takeWhile_append_dropWhile.symm, ?_,
    takeWhile_forall _ _⟩
  rw [List.takeWhile_cons_of_pos hc]
  exact List.cons_ne_nil _ _

/-- A character that can go on a number. -/
def inNumber (c : Char) : Bool := c.isDigit || c == '.' || c == 'e' || c == 'E'

theorem ExpPart.stops (h : ExpPart s r) (hr : Stops inNumber r) :
    Stops (fun c => c.isDigit || c == '.') s := by
  rcases h with rfl | ⟨t, u, hs, -, -⟩
  · intro c t heq
    have hc := hr c t heq
    simp only [inNumber, Bool.or_eq_false_iff] at hc ⊢
    exact hc.1.1
  · rcases hs with rfl | rfl
    · intro c t heq
      cases heq
      decide
    · intro c t heq
      cases heq
      decide

theorem FracPart.stops (h : FracPart s r) (hr : Stops (fun c => c.isDigit || c == '.') r) :
    Stops Char.isDigit s := by
  rcases h with rfl | ⟨t, rfl, -⟩
  · intro c t heq
    have hc := hr c t heq
    rw [Bool.or_eq_false_iff] at hc
    exact hc.1
  · intro c t heq
    cases heq
    decide

theorem IntPart.head (h : IntPart s r) : ∃ c s', s = c :: s' ∧ c.isDigit = true := by
  rcases h with rfl | ⟨-, h⟩
  · exact ⟨'0', r, rfl, by decide⟩
  · exact h.head

end Scan

-- Whatever is read is a part of the text in front of what is left.

section Progress
variable {s r t : List Char}

/-- What is left is a proper part of the text. -/
def Ahead (s r : List Char) : Prop := ∃ c p, s = c :: p ++ r

theorem Ahead.of_suffix (h : Ahead s t) (h' : r <:+ t) : Ahead s r := by
  obtain ⟨c, p, rfl⟩ := h
  obtain ⟨p', rfl⟩ := h'
  exact ⟨c, p ++ p', by simp⟩

theorem Ahead.cons (c : Char) (h : r <:+ s) : Ahead (c :: s) r := by
  obtain ⟨p, rfl⟩ := h
  exact ⟨c, p, rfl⟩

theorem Ws.suffix (h : Ws s r) : r <:+ s := by
  obtain ⟨w, rfl, -⟩ := h
  exact List.suffix_append w r

theorem Digits.ahead (h : Digits s r) : Ahead s r := by
  obtain ⟨ds, rfl, hne, -⟩ := h
  cases ds with
  | nil => exact absurd rfl hne
  | cons c ds => exact ⟨c, ds, rfl⟩

theorem Ahead.suffix (h : Ahead s r) : r <:+ s := by
  obtain ⟨c, p, rfl⟩ := h
  exact List.suffix_append _ r

theorem FracPart.suffix (h : FracPart s r) : r <:+ s := by
  rcases h with rfl | ⟨t, rfl, hdigits⟩
  · exact List.suffix_rfl
  · exact (Ahead.cons '.' hdigits.ahead.suffix).suffix

theorem ExpPart.suffix (h : ExpPart s r) : r <:+ s := by
  rcases h with rfl | ⟨t, u, hs, hsign, hdigits⟩
  · exact List.suffix_rfl
  · have hu : r <:+ t := by
      rcases hsign with rfl | rfl | rfl
      · exact hdigits.ahead.suffix
      · exact (Ahead.cons '+' hdigits.ahead.suffix).suffix
      · exact (Ahead.cons '-' hdigits.ahead.suffix).suffix
    rcases hs with rfl | rfl
    · exact (Ahead.cons 'e' hu).suffix
    · exact (Ahead.cons 'E' hu).suffix

theorem Number.ahead (h : Number s r) : Ahead s r := by
  obtain ⟨t, u, v, hsign, hint, hfrac, hexp⟩ := h
  have hu : r <:+ u := hexp.suffix.trans hfrac.suffix
  have ht : Ahead t u := by
    rcases hint with rfl | ⟨-, hdigits⟩
    · exact Ahead.cons '0' List.suffix_rfl
    · exact hdigits.ahead
  rcases hsign with rfl | rfl
  · exact ht.of_suffix hu
  · exact Ahead.cons '-' (hu.trans ht.suffix)

theorem Body.suffix {items : List Item} (h : Body s items r) : r <:+ s := by
  induction h with
  | nil => exact List.suffix_rfl
  | unescaped _ _ _ _ ih => exact (Ahead.cons _ ih).suffix
  | escaped _ _ ih => exact (Ahead.cons '\\' (Ahead.cons _ ih).suffix).suffix
  | unit hu _ ih =>
    obtain ⟨a, b, c, d, _, _, _, _, rfl, -⟩ := hu
    apply ih.trans
    exact ⟨['\\', 'u', a, b, c, d], rfl⟩

theorem Str.ahead {items : List Item} (h : Str s items r) : Ahead s r := by
  obtain ⟨t, rfl, hbody⟩ := h
  exact Ahead.cons '"' ((Ahead.cons '"' List.suffix_rfl).suffix.trans hbody.suffix)

end Progress

-- A value is known by its first character, and a container read up to the end of one of its values
-- goes on with a tail.

/-- What follows the opening brace. -/
def ObjectRest (s : List Char) (members : List (List Item × Json)) (r : List Char) : Prop :=
  (members = [] ∧ Ws s ('}' :: r)) ∨ Members s members ('}' :: r)

/-- What follows a value inside an object. -/
def MembersTail (s : List Char) (members : List (List Item × Json)) (r : List Char) : Prop :=
  (members = [] ∧ Ws s ('}' :: r)) ∨ ∃ t, Ws s (',' :: t) ∧ Members t members ('}' :: r)

/-- What follows the opening bracket. -/
def ArrayRest (s : List Char) (elements : List Json) (r : List Char) : Prop :=
  (elements = [] ∧ Ws s (']' :: r)) ∨ Elements s elements (']' :: r)

/-- What follows a value inside an array. -/
def ElementsTail (s : List Char) (elements : List Json) (r : List Char) : Prop :=
  (elements = [] ∧ Ws s (']' :: r)) ∨ ∃ t, Ws s (',' :: t) ∧ Elements t elements (']' :: r)

section Heads
variable {c : Char} {s r : List Char} {v : Json}

theorem Number.head (h : Number s r) : ∃ c s', s = c :: s' ∧ (c = '-' ∨ c.isDigit = true) := by
  obtain ⟨t, u, x, hsign, hint, -, -⟩ := h
  rcases hsign with rfl | rfl
  · obtain ⟨c, s', rfl, hc⟩ := hint.head
    exact ⟨c, s', rfl, Or.inr hc⟩
  · exact ⟨'-', t, rfl, Or.inl rfl⟩

/-- The first character of a value, with what it says of the value. -/
theorem Value.inv (h : Value (c :: s) v r) :
    (c = '{' ∧ ∃ members, v = .object members ∧ ObjectRest s members r) ∨
    (c = '[' ∧ ∃ elements, v = .array elements ∧ ArrayRest s elements r) ∨
    (c = '"' ∧ ∃ items, v = .string items ∧ Str (c :: s) items r) ∨
    ((c = '-' ∨ c.isDigit = true) ∧ v = .number ∧ Number (c :: s) r) ∨
    (c :: s = "true".toList ++ r ∧ v = .true_) ∨
    (c :: s = "false".toList ++ r ∧ v = .false_) ∨
    (c :: s = "null".toList ++ r ∧ v = .null) := by
  cases h with
  | emptyObject h => exact Or.inl ⟨rfl, [], rfl, Or.inl ⟨rfl, h⟩⟩
  | object h => exact Or.inl ⟨rfl, _, rfl, Or.inr h⟩
  | emptyArray h => exact Or.inr (Or.inl ⟨rfl, [], rfl, Or.inl ⟨rfl, h⟩⟩)
  | array h => exact Or.inr (Or.inl ⟨rfl, _, rfl, Or.inr h⟩)
  | string h =>
    obtain ⟨t, heq, hbody⟩ := h
    obtain ⟨rfl, rfl⟩ := List.cons.inj heq
    exact Or.inr (Or.inr (Or.inl ⟨rfl, _, rfl, s, rfl, hbody⟩))
  | number h =>
    obtain ⟨c', s', heq, hc⟩ := h.head
    obtain ⟨rfl, rfl⟩ := List.cons.inj heq
    exact Or.inr (Or.inr (Or.inr (Or.inl ⟨hc, rfl, h⟩)))
  | true_ => exact Or.inr (Or.inr (Or.inr (Or.inr (Or.inl ⟨rfl, rfl⟩))))
  | false_ => exact Or.inr (Or.inr (Or.inr (Or.inr (Or.inr (Or.inl ⟨rfl, rfl⟩)))))
  | null => exact Or.inr (Or.inr (Or.inr (Or.inr (Or.inr (Or.inr ⟨rfl, rfl⟩)))))

theorem Value.ne_nil (h : Value s v r) : s ≠ [] := by
  cases h with
  | emptyObject h => exact List.cons_ne_nil _ _
  | object h => exact List.cons_ne_nil _ _
  | emptyArray h => exact List.cons_ne_nil _ _
  | array h => exact List.cons_ne_nil _ _
  | string h =>
    obtain ⟨t, rfl, -⟩ := h
    exact List.cons_ne_nil _ _
  | number h =>
    obtain ⟨c, s', rfl, -⟩ := h.head
    exact List.cons_ne_nil _ _
  | true_ => exact List.cons_ne_nil _ _
  | false_ => exact List.cons_ne_nil _ _
  | null => exact List.cons_ne_nil _ _

theorem value_object_iff :
    Value ('{' :: s) v r ↔ ∃ members, v = .object members ∧ ObjectRest s members r := by
  constructor
  · intro h
    rcases h.inv with ⟨-, h⟩ | ⟨hc, -⟩ | ⟨hc, -⟩ | ⟨hc, -⟩ | ⟨hc, -⟩ | ⟨hc, -⟩ | ⟨hc, -⟩
    · exact h
    · exact absurd hc (by decide)
    · exact absurd hc (by decide)
    · exact absurd hc (by decide)
    · exact absurd (List.cons.inj hc).1 (by decide)
    · exact absurd (List.cons.inj hc).1 (by decide)
    · exact absurd (List.cons.inj hc).1 (by decide)
  · intro h
    obtain ⟨members, rfl, ⟨rfl, hws⟩ | hmembers⟩ := h
    · exact .emptyObject hws
    · exact .object hmembers

theorem value_array_iff :
    Value ('[' :: s) v r ↔ ∃ elements, v = .array elements ∧ ArrayRest s elements r := by
  constructor
  · intro h
    rcases h.inv with ⟨hc, -⟩ | ⟨-, h⟩ | ⟨hc, -⟩ | ⟨hc, -⟩ | ⟨hc, -⟩ | ⟨hc, -⟩ | ⟨hc, -⟩
    · exact absurd hc (by decide)
    · exact h
    · exact absurd hc (by decide)
    · exact absurd hc (by decide)
    · exact absurd (List.cons.inj hc).1 (by decide)
    · exact absurd (List.cons.inj hc).1 (by decide)
    · exact absurd (List.cons.inj hc).1 (by decide)
  · intro h
    obtain ⟨elements, rfl, ⟨rfl, hws⟩ | helements⟩ := h
    · exact .emptyArray hws
    · exact .array helements

theorem value_string_iff :
    Value ('"' :: s) v r ↔ ∃ items, v = .string items ∧ Str ('"' :: s) items r := by
  constructor
  · intro h
    rcases h.inv with ⟨hc, -⟩ | ⟨hc, -⟩ | ⟨-, h⟩ | ⟨hc, -⟩ | ⟨hc, -⟩ | ⟨hc, -⟩ | ⟨hc, -⟩
    · exact absurd hc (by decide)
    · exact absurd hc (by decide)
    · exact h
    · exact absurd hc (by decide)
    · exact absurd (List.cons.inj hc).1 (by decide)
    · exact absurd (List.cons.inj hc).1 (by decide)
    · exact absurd (List.cons.inj hc).1 (by decide)
  · intro h
    obtain ⟨items, rfl, hstr⟩ := h
    exact .string hstr

theorem value_number_iff (hc : c = '-' ∨ c.isDigit = true) :
    Value (c :: s) v r ↔ v = .number ∧ Number (c :: s) r := by
  have hne : ∀ d : Char, ¬ (d = '-' ∨ d.isDigit = true) → c ≠ d := by
    rintro d hd rfl
    exact hd hc
  constructor
  · intro h
    rcases h.inv with ⟨hd, -⟩ | ⟨hd, -⟩ | ⟨hd, -⟩ | ⟨-, h⟩ | ⟨hd, -⟩ | ⟨hd, -⟩ | ⟨hd, -⟩
    · exact absurd hd (hne _ (by decide))
    · exact absurd hd (hne _ (by decide))
    · exact absurd hd (hne _ (by decide))
    · exact h
    · exact absurd (List.cons.inj hd).1 (hne _ (by decide))
    · exact absurd (List.cons.inj hd).1 (hne _ (by decide))
    · exact absurd (List.cons.inj hd).1 (hne _ (by decide))
  · intro h
    obtain ⟨rfl, hnumber⟩ := h
    exact .number hnumber

/-- A value that begins with none of the other signs is one of the three words. -/
theorem Value.word (h : Value (c :: s) v r) (hobject : c ≠ '{') (harray : c ≠ '[')
    (hquote : c ≠ '"') (hnumber : ¬ (c = '-' ∨ c.isDigit = true)) :
    (c :: s = "true".toList ++ r ∧ v = .true_) ∨ (c :: s = "false".toList ++ r ∧ v = .false_) ∨
      (c :: s = "null".toList ++ r ∧ v = .null) := by
  rcases h.inv with ⟨hc, -⟩ | ⟨hc, -⟩ | ⟨hc, -⟩ | ⟨hc, -⟩ | h
  · exact absurd hc hobject
  · exact absurd hc harray
  · exact absurd hc hquote
  · exact absurd hc hnumber
  · exact h

theorem members_iff {members : List (List Item × Json)} : Members s members ('}' :: r) ↔
    ∃ name v rest key afterKey afterColon value afterValue, members = (name, v) :: rest ∧
      Ws s key ∧ Str key name afterKey ∧ Ws afterKey (':' :: afterColon) ∧ Ws afterColon value ∧
      Value value v afterValue ∧ MembersTail afterValue rest r := by
  constructor
  · intro h
    cases h with
    | one h =>
      cases h with
      | mk hkey hname hcolon hvalue h hend =>
        exact ⟨_, _, [], _, _, _, _, _, rfl, hkey, hname, hcolon, hvalue, h, Or.inl ⟨rfl, hend⟩⟩
    | cons h hrest =>
      cases h with
      | mk hkey hname hcolon hvalue h hend =>
        exact ⟨_, _, _, _, _, _, _, _, rfl, hkey, hname, hcolon, hvalue, h,
          Or.inr ⟨_, hend, hrest⟩⟩
  · intro h
    obtain ⟨name, v, rest, key, afterKey, afterColon, value, afterValue, rfl, hkey, hname, hcolon,
      hvalue, h, htail⟩ := h
    rcases htail with ⟨rfl, hend⟩ | ⟨t, hend, hrest⟩
    · exact .one (.mk hkey hname hcolon hvalue h hend)
    · exact .cons (.mk hkey hname hcolon hvalue h hend) hrest

theorem elements_iff {elements : List Json} : Elements s elements (']' :: r) ↔
    ∃ v rest value afterValue, elements = v :: rest ∧ Ws s value ∧ Value value v afterValue ∧
      ElementsTail afterValue rest r := by
  constructor
  · intro h
    cases h with
    | one hvalue h hend => exact ⟨_, [], _, _, rfl, hvalue, h, Or.inl ⟨rfl, hend⟩⟩
    | cons hvalue h hend hrest => exact ⟨_, _, _, _, rfl, hvalue, h, Or.inr ⟨_, hend, hrest⟩⟩
  · intro h
    obtain ⟨v, rest, value, afterValue, rfl, hvalue, h, htail⟩ := h
    rcases htail with ⟨rfl, hend⟩ | ⟨t, hend, hrest⟩
    · exact .one hvalue h hend
    · exact .cons hvalue h hend hrest

/-- Where the text does not begin with whitespace, none is taken off. -/
theorem Ws.eq_of_stops (h : Ws s r) (hs : Stops isWs s) : r = s := by
  obtain ⟨w, rfl, hw⟩ := h
  cases w with
  | nil => rfl
  | cons c w =>
    have hc := hs c (w ++ r) rfl
    rw [hw c List.mem_cons_self] at hc
    cases hc

/-- Whitespace before a character that cannot go on a number. -/
theorem Ws.stops_number (h : Ws s r) (hr : Stops inNumber r) : Stops inNumber s := by
  obtain ⟨w, rfl, hw⟩ := h
  cases w with
  | nil => exact hr
  | cons c w =>
    intro c' t heq
    obtain ⟨rfl, -⟩ := List.cons.inj heq
    have hc := hw c List.mem_cons_self
    simp only [isWs, Bool.or_eq_true, beq_iff_eq] at hc
    rcases hc with ((rfl | rfl) | rfl) | rfl <;> decide

theorem stops_ws (hc : isWs c = false) : Stops isWs (c :: s) := by
  intro c' t heq
  obtain ⟨rfl, -⟩ := List.cons.inj heq
  exact hc

theorem Value.stops_ws (h : Value s v r) : Stops isWs s := by
  cases s with
  | nil => exact nofun
  | cons c s =>
    apply JsonText.stops_ws
    rcases h.inv with ⟨rfl, -⟩ | ⟨rfl, -⟩ | ⟨rfl, -⟩ | ⟨hc, -⟩ | ⟨hc, -⟩ | ⟨hc, -⟩ | ⟨hc, -⟩
    · decide
    · decide
    · decide
    · -- Neither a sign nor a digit is whitespace.
      rw [Bool.eq_false_iff]
      intro hws
      simp only [isWs, Bool.or_eq_true, beq_iff_eq] at hws
      rcases hws with ((rfl | rfl) | rfl) | rfl
      · exact absurd hc (by decide)
      · exact absurd hc (by decide)
      · exact absurd hc (by decide)
      · exact absurd hc (by decide)
    · rw [(List.cons.inj hc).1]
      decide
    · rw [(List.cons.inj hc).1]
      decide
    · rw [(List.cons.inj hc).1]
      decide

/-- Skipping all the whitespace changes nothing for what comes after whitespace. -/
theorem ws_skip_iff (hr : Stops isWs r) : Ws (s.dropWhile isWs) r ↔ Ws s r := by
  constructor
  · exact (ws_dropWhile s).trans
  · intro h
    rw [h.eq_dropWhile hr]
    exact Ws.refl r

end Heads

section Skip
variable {s r : List Char} {members : List (List Item × Json)} {elements : List Json}

theorem membersTail_skip : MembersTail (s.dropWhile isWs) members r ↔ MembersTail s members r := by
  apply or_congr
  · exact and_congr_right (fun _ => ws_skip_iff (stops_ws (by decide)))
  · exact exists_congr (fun t => and_congr_left (fun _ => ws_skip_iff (stops_ws (by decide))))

theorem elementsTail_skip :
    ElementsTail (s.dropWhile isWs) elements r ↔ ElementsTail s elements r := by
  apply or_congr
  · exact and_congr_right (fun _ => ws_skip_iff (stops_ws (by decide)))
  · exact exists_congr (fun t => and_congr_left (fun _ => ws_skip_iff (stops_ws (by decide))))

theorem members_skip :
    Members (s.dropWhile isWs) members ('}' :: r) ↔ Members s members ('}' :: r) := by
  rw [members_iff, members_iff]
  have hkey : ∀ (key : List Char) (name : List Item) (t : List Char), Str key name t →
      (Ws (s.dropWhile isWs) key ↔ Ws s key) := by
    rintro key name t ⟨body, rfl, -⟩
    exact ws_skip_iff (stops_ws (by decide))
  constructor
  · intro h
    obtain ⟨name, v, rest, key, afterKey, afterColon, value, afterValue, hmembers, hws, hname,
      h⟩ := h
    exact ⟨name, v, rest, key, afterKey, afterColon, value, afterValue, hmembers,
      (hkey key name afterKey hname).mp hws, hname, h⟩
  · intro h
    obtain ⟨name, v, rest, key, afterKey, afterColon, value, afterValue, hmembers, hws, hname,
      h⟩ := h
    exact ⟨name, v, rest, key, afterKey, afterColon, value, afterValue, hmembers,
      (hkey key name afterKey hname).mpr hws, hname, h⟩

theorem elements_skip :
    Elements (s.dropWhile isWs) elements (']' :: r) ↔ Elements s elements (']' :: r) := by
  rw [elements_iff, elements_iff]
  constructor
  · intro h
    obtain ⟨v, rest, value, afterValue, helements, hws, hvalue, h⟩ := h
    exact ⟨v, rest, value, afterValue, helements, (ws_skip_iff hvalue.stops_ws).mp hws, hvalue, h⟩
  · intro h
    obtain ⟨v, rest, value, afterValue, helements, hws, hvalue, h⟩ := h
    exact ⟨v, rest, value, afterValue, helements, (ws_skip_iff hvalue.stops_ws).mpr hws, hvalue, h⟩

theorem objectRest_skip : ObjectRest (s.dropWhile isWs) members r ↔ ObjectRest s members r := by
  apply or_congr
  · exact and_congr_right (fun _ => ws_skip_iff (stops_ws (by decide)))
  · exact members_skip

theorem arrayRest_skip : ArrayRest (s.dropWhile isWs) elements r ↔ ArrayRest s elements r := by
  apply or_congr
  · exact and_congr_right (fun _ => ws_skip_iff (stops_ws (by decide)))
  · exact elements_skip

end Skip

end ScpCore.JsonText
