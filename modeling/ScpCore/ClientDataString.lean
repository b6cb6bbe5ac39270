import ScpCore.ClientDataLex

/-! The strings of the client data: an escape names a character or one or two code units, and the
loop of the validator reads the characters that the string of the grammar stands for. -/

namespace ScpCore.Kel.ClientData

open JsonText (Item hexDigit Hex4 Body Str isHigh isLow surrogatePair unescape)

section Hex
variable {v w : Validator} {s t r : Text} {c : Char} {b : UInt8} {x u offset : ℕ}

theorem ascii_range {lo hi : Char} (hlo : lo.toNat < 128) (hhi : hi.toNat < 128)
    (hc : c.toNat < 128) : (ascii lo ≤ ascii c ∧ ascii c ≤ ascii hi) ↔ (lo ≤ c ∧ c ≤ hi) := by
  rw [UInt8.le_iff_toNat_le, UInt8.le_iff_toNat_le, ascii_toNat hlo, ascii_toNat hhi,
    ascii_toNat hc]
  exact Iff.rfl

theorem toHexDigit_ascii (hc : c.toNat < 128) : toHexDigit (ascii c) = hexDigit c := by
  unfold toHexDigit hexDigit
  rw [agree_digit.same c hc, ascii_toNat hc]
  simp only [ascii_range (by decide : 'a'.toNat < 128) (by decide : 'f'.toNat < 128) hc,
    ascii_range (by decide : 'A'.toNat < 128) (by decide : 'F'.toNat < 128) hc]

theorem toHexDigit_some (h : toHexDigit b = some x) : b.toNat < 128 := by
  unfold toHexDigit at h
  split_ifs at h with hdigit hlower hupper
  · exact agree_digit.byte b hdigit
  · have hle : b.toNat ≤ 102 := hlower.2
    omega
  · have hle : b.toNat ≤ 70 := hupper.2
    omega

theorem hexDigit_some (h : hexDigit c = some x) : c.toNat < 128 ∧ x < 16 := by
  unfold hexDigit at h
  split_ifs at h with hdigit hlower hupper
  · rw [isDigit_toNat] at hdigit
    cases h
    omega
  · have hle : c.toNat ≤ 102 := hlower.2
    cases h
    omega
  · have hle : c.toNat ≤ 70 := hupper.2
    cases h
    omega

theorem addHexDigit_ok {unit value : ℕ} (h : Validator.addHexDigit offset unit b = .ok value) :
    ∃ x, toHexDigit b = some x ∧ value = unit*16+x := by
  unfold Validator.addHexDigit at h
  cases hdigit : toHexDigit b with
  | none =>
    rw [hdigit] at h
    cases h
  | some x =>
    rw [hdigit] at h
    cases h
    exact ⟨x, rfl, rfl⟩

theorem hex4_sound (h : v.rest = utf8 s) (hok : v.hex4 offset = .ok (u, w)) :
    ∃ r, Past v w r ∧ Hex4 s u r := by
  unfold Validator.hex4 at hok
  by_cases hshort : v.rest.length < 4
  · rw [if_pos hshort] at hok
    cases hok
  · rw [if_neg hshort] at hok
    obtain ⟨b₀, b₁, b₂, b₃, bs, hrest⟩ : ∃ b₀ b₁ b₂ b₃ bs, v.rest = b₀ :: b₁ :: b₂ :: b₃ :: bs := by
      match hv : v.rest with
      | [] | [_] | [_, _] | [_, _, _] => simp [hv] at hshort
      | b₀ :: b₁ :: b₂ :: b₃ :: bs => exact ⟨b₀, b₁, b₂, b₃, bs, rfl⟩
    rw [bind_ok_iff] at hok
    obtain ⟨unit, hfold, hpure⟩ := hok
    cases hpure
    rw [hrest] at hfold
    simp only [List.take_succ_cons, List.take_zero, List.foldlM_cons, List.foldlM_nil,
      bind_ok_iff] at hfold
    obtain ⟨u₀, h₀, u₁, h₁, u₂, h₂, u₃, h₃, hpure⟩ := hfold
    cases hpure
    obtain ⟨x₀, hx₀, rfl⟩ := addHexDigit_ok h₀
    obtain ⟨x₁, hx₁, rfl⟩ := addHexDigit_ok h₁
    obtain ⟨x₂, hx₂, rfl⟩ := addHexDigit_ok h₂
    obtain ⟨x₃, hx₃, rfl⟩ := addHexDigit_ok h₃
    -- The four bytes are ASCII, so they are the first four characters.
    have hutf := h.symm.trans hrest
    obtain ⟨c₀, r₀, rfl, hc₀, rfl, hr₀⟩ := utf8_eq_cons hutf (toHexDigit_some hx₀)
    obtain ⟨c₁, r₁, rfl, hc₁, rfl, hr₁⟩ := utf8_eq_cons hr₀.symm (toHexDigit_some hx₁)
    obtain ⟨c₂, r₂, rfl, hc₂, rfl, hr₂⟩ := utf8_eq_cons hr₁.symm (toHexDigit_some hx₂)
    obtain ⟨c₃, r₃, rfl, hc₃, rfl, hr₃⟩ := utf8_eq_cons hr₂.symm (toHexDigit_some hx₃)
    rw [toHexDigit_ascii hc₀] at hx₀
    rw [toHexDigit_ascii hc₁] at hx₁
    rw [toHexDigit_ascii hc₂] at hx₂
    rw [toHexDigit_ascii hc₃] at hx₃
    refine ⟨r₃, ⟨?_, rfl⟩, c₀, c₁, c₂, c₃, x₀, x₁, x₂, x₃, rfl, hx₀, hx₁, hx₂, hx₃, by omega⟩
    rw [Validator.advance, hrest]
    exact hr₃

variable (offset) in
theorem hex4_complete (h : v.rest = utf8 s) (hex : Hex4 s u r) :
    v.hex4 offset = .ok (u, v.advance 4) ∧ Past v (v.advance 4) r := by
  obtain ⟨c₀, c₁, c₂, c₃, x₀, x₁, x₂, x₃, rfl, hx₀, hx₁, hx₂, hx₃, hu⟩ := hex
  have hc₀ := (hexDigit_some hx₀).1
  have hc₁ := (hexDigit_some hx₁).1
  have hc₂ := (hexDigit_some hx₂).1
  have hc₃ := (hexDigit_some hx₃).1
  have hrest : v.rest = ascii c₀ :: ascii c₁ :: ascii c₂ :: ascii c₃ :: utf8 r := by
    rw [h, utf8_ascii hc₀, utf8_ascii hc₁, utf8_ascii hc₂, utf8_ascii hc₃]
  refine ⟨?_, ?_, rfl⟩
  · have hlong : ¬ v.rest.length < 4 := by
      rw [hrest]
      simp
    unfold Validator.hex4
    rw [if_neg hlong, hrest]
    simp only [List.take_succ_cons, List.take_zero, List.foldlM_cons, List.foldlM_nil,
      Validator.addHexDigit, toHexDigit_ascii, hc₀, hc₁, hc₂, hc₃, hx₀, hx₁, hx₂, hx₃]
    rw [hu]
    simp [bind, Except.bind, pure, Except.pure]
  · rw [Validator.advance, hrest]
    rfl

theorem hex4_lt (h : Hex4 s u r) : u < 0x10000 := by
  obtain ⟨_, _, _, _, x₀, x₁, x₂, x₃, _, hx₀, hx₁, hx₂, hx₃, rfl⟩ := h
  have h₀ := (hexDigit_some hx₀).2
  have h₁ := (hexDigit_some hx₁).2
  have h₂ := (hexDigit_some hx₂).2
  have h₃ := (hexDigit_some hx₃).2
  omega

end Hex

/-- The items stand for the character, whatever follows them. -/
def Names (items : List Item) (c : Char) : Prop :=
  ∀ rest, unescape (items ++ rest) = (unescape rest).map (c :: ·)

section Units
variable {u low : ℕ}

theorem isHigh_iff : isHigh u = true ↔ 0xD800 ≤ u ∧ u ≤ 0xDBFF := by
  rw [isHigh, Bool.and_eq_true, decide_eq_true_eq, decide_eq_true_eq]

theorem isLow_iff : isLow u = true ↔ 0xDC00 ≤ u ∧ u ≤ 0xDFFF := by
  rw [isLow, Bool.and_eq_true, decide_eq_true_eq, decide_eq_true_eq]

theorem names_char (c : Char) : Names [.char c] c := fun _ => rfl

theorem names_unit (hhigh : ¬ isHigh u = true) (hlow : ¬ isLow u = true) :
    Names [.unit u] (Char.ofNat u) := by
  intro rest
  rw [List.singleton_append, JsonText.unescape_unit_eq, if_neg hhigh, if_neg hlow]

theorem names_pair (hhigh : isHigh u = true) (hlow : isLow low = true) :
    Names [.unit u, .unit low] (surrogatePair u low) := by
  intro rest
  rw [List.cons_append, List.singleton_append, JsonText.unescape_unit_eq, if_pos hhigh]
  dsimp only
  rw [if_pos hlow]

/-- A string that begins with a code unit stands for something only where the unit is no surrogate
or the next one is its other half. -/
theorem unescape_unit {items : List Item} {text : Text}
    (h : unescape (.unit u :: items) = some text) :
    (¬ isHigh u = true ∧ ¬ isLow u = true) ∨
      ∃ low rest, items = .unit low :: rest ∧ isHigh u = true ∧ isLow low = true := by
  by_cases hhigh : isHigh u = true
  · rw [JsonText.unescape_unit_eq, if_pos hhigh] at h
    match items, h with
    | .unit low :: rest, h =>
      dsimp only at h
      by_cases hlow : isLow low = true
      · exact Or.inr ⟨low, rest, rfl, hhigh, hlow⟩
      · rw [if_neg hlow] at h
        cases h
    | [], h => cases h
    | .char c :: rest, h => cases h
  · rw [JsonText.unescape_unit_eq, if_neg hhigh] at h
    by_cases hlow : isLow u = true
    · rw [if_pos hlow] at h
      cases h
    · exact Or.inl ⟨hhigh, hlow⟩

theorem charOrRefuse_eq {n : ℕ} {err : ClientDataError} (hn : n.isValidChar) :
    Validator.charOrRefuse n err = .ok (Char.ofNat n) := by
  rw [Validator.charOrRefuse, charFromU32, if_pos hn]

theorem isValidChar_unit (hhigh : ¬ isHigh u = true) (hlow : ¬ isLow u = true) (hu : u < 0x10000) :
    u.isValidChar := by
  rw [isHigh_iff] at hhigh
  rw [isLow_iff] at hlow
  unfold Nat.isValidChar
  omega

theorem isValidChar_pair (hhigh : isHigh u = true) (hlow : isLow low = true) :
    (0x10000+(u-0xD800)*0x400+(low-0xDC00)).isValidChar := by
  rw [isHigh_iff] at hhigh
  rw [isLow_iff] at hlow
  unfold Nat.isValidChar
  omega

end Units

section Escapes
variable {v w : Validator} {s t r : Text} {c e : Char} {u low offset : ℕ}

theorem take_two (h : v.rest = utf8 s) :
    v.rest.take 2 = [ascii '\\', ascii 'u'] ↔ ∃ r, s = '\\' :: 'u' :: r := by
  constructor
  · intro htake
    obtain ⟨bs, hrest⟩ : ∃ bs, v.rest = ascii '\\' :: ascii 'u' :: bs := by
      refine ⟨v.rest.drop 2, ?_⟩
      calc v.rest = v.rest.take 2 ++ v.rest.drop 2 := (List.take_append_drop 2 v.rest).symm
        _ = ascii '\\' :: ascii 'u' :: v.rest.drop 2 := by rw [htake]; rfl
    have hutf := h.symm.trans hrest
    obtain ⟨c₀, r₀, rfl, hc₀, heq₀, hr₀⟩ := utf8_eq_cons hutf (by decide)
    obtain ⟨c₁, r₁, rfl, hc₁, heq₁, -⟩ := utf8_eq_cons hr₀.symm (by decide)
    refine ⟨r₁, ?_⟩
    rw [ascii_inj (by decide) hc₀ heq₀.symm, ascii_inj (by decide) hc₁ heq₁.symm]
  · intro hs
    obtain ⟨r, rfl⟩ := hs
    rw [h, utf8_ascii (by decide), utf8_ascii (by decide)]
    rfl

theorem Past.advance_two {a b : Char} (h : v.rest = utf8 (a :: b :: r)) (ha : a.toNat < 128)
    (hb : b.toNat < 128) : Past v (v.advance 2) r := by
  refine ⟨?_, rfl⟩
  rw [Validator.advance, h, utf8_ascii ha, utf8_ascii hb]
  rfl

theorem unicodeEscape_sound (h : v.rest = utf8 s) (hok : v.unicodeEscape offset = .ok (c, w)) :
    ∃ r items, Past v w r ∧ Names items c ∧
      ∀ items' t, Body r items' t → Body ('\\' :: 'u' :: s) (items ++ items') t := by
  unfold Validator.unicodeEscape at hok
  rw [bind_ok_iff] at hok
  obtain ⟨⟨u, after⟩, hhex, hok⟩ := hok
  obtain ⟨t, hpast, hex⟩ := hex4_sound h hhex
  dsimp only at hok
  -- A high surrogate needs a low one right after it; a low one alone is refused.
  by_cases hhigh : 0xD800 ≤ u ∧ u ≤ 0xDBFF
  · rw [if_pos hhigh] at hok
    by_cases hnext : after.rest.take 2 = [ascii '\\', ascii 'u']
    · rw [if_neg (not_not.mpr hnext), bind_ok_iff] at hok
      obtain ⟨⟨low, w'⟩, hhex', hok⟩ := hok
      obtain ⟨t', rfl⟩ := (take_two hpast.rest).mp hnext
      have hpast' : Past after (after.advance 2) t' :=
        Past.advance_two hpast.rest (by decide) (by decide)
      obtain ⟨r, hpast'', hex'⟩ := hex4_sound hpast'.rest hhex'
      dsimp only at hok
      by_cases hlow : 0xDC00 ≤ low ∧ low ≤ 0xDFFF
      · have hvalid := isValidChar_pair (isHigh_iff.mpr hhigh) (isLow_iff.mpr hlow)
        rw [if_pos hlow, charOrRefuse_eq hvalid] at hok
        obtain ⟨rfl, rfl⟩ := Prod.mk.inj (Except.ok.inj hok)
        refine ⟨r, [.unit u, .unit low], (hpast.trans hpast').trans hpast'',
          names_pair (isHigh_iff.mpr hhigh) (isLow_iff.mpr hlow), ?_⟩
        intro items' t hbody
        exact Body.unit hex (Body.unit hex' hbody)
      · rw [if_neg hlow] at hok
        cases hok
    · rw [if_pos hnext] at hok
      cases hok
  · rw [if_neg hhigh] at hok
    by_cases hlow : 0xDC00 ≤ u ∧ u ≤ 0xDFFF
    · rw [if_pos hlow] at hok
      cases hok
    · have hnotHigh : ¬ isHigh u = true := by rwa [isHigh_iff]
      have hnotLow : ¬ isLow u = true := by rwa [isLow_iff]
      rw [if_neg hlow, charOrRefuse_eq (isValidChar_unit hnotHigh hnotLow (hex4_lt hex))] at hok
      cases hok
      refine ⟨t, [.unit u], hpast, names_unit hnotHigh hnotLow, ?_⟩
      intro items' r hbody
      exact Body.unit hex hbody

variable (offset) in
theorem unicodeEscape_unit (h : v.rest = utf8 s) (hex : Hex4 s u r) (hhigh : ¬ isHigh u = true)
    (hlow : ¬ isLow u = true) :
    ∃ w, v.unicodeEscape offset = .ok (Char.ofNat u, w) ∧ Past v w r := by
  obtain ⟨hok, hpast⟩ := hex4_complete offset h hex
  refine ⟨_, ?_, hpast⟩
  have hvalid := isValidChar_unit hhigh hlow (hex4_lt hex)
  rw [isHigh_iff] at hhigh
  rw [isLow_iff] at hlow
  unfold Validator.unicodeEscape
  rw [bind_ok_iff]
  refine ⟨_, hok, ?_⟩
  dsimp only
  rw [if_neg hhigh, if_neg hlow, charOrRefuse_eq hvalid]
  rfl

variable (offset) in
theorem unicodeEscape_pair (h : v.rest = utf8 s) (hex : Hex4 s u ('\\' :: 'u' :: t))
    (hex' : Hex4 t low r) (hhigh : isHigh u = true) (hlow : isLow low = true) :
    ∃ w, v.unicodeEscape offset = .ok (surrogatePair u low, w) ∧ Past v w r := by
  obtain ⟨hok, hpast⟩ := hex4_complete offset h hex
  have hpast' : Past (v.advance 4) ((v.advance 4).advance 2) t :=
    Past.advance_two hpast.rest (by decide) (by decide)
  obtain ⟨hok', hpast''⟩ := hex4_complete (v.advance 4).pos hpast'.rest hex'
  refine ⟨_, ?_, (hpast.trans hpast').trans hpast''⟩
  have hvalid := isValidChar_pair hhigh hlow
  have hnext := (take_two hpast.rest).mpr ⟨t, rfl⟩
  rw [isHigh_iff] at hhigh
  rw [isLow_iff] at hlow
  unfold Validator.unicodeEscape
  rw [bind_ok_iff]
  refine ⟨_, hok, ?_⟩
  dsimp only
  rw [if_pos hhigh, if_neg (not_not.mpr hnext), bind_ok_iff]
  refine ⟨_, hok', ?_⟩
  dsimp only
  rw [if_pos hlow, charOrRefuse_eq hvalid]
  rfl

theorem ascii_eq_iff {a : Char} (ha : a.toNat < 128) (hc : c.toNat < 128) :
    ascii c = ascii a ↔ c = a :=
  ⟨ascii_inj ha hc, fun h => by rw [h]⟩

theorem simpleEscape_ascii (he : e.toNat < 128) :
    Validator.simpleEscape (ascii e) = JsonText.escapeChar e := by
  unfold Validator.simpleEscape JsonText.escapeChar
  simp only [ascii_eq_iff (by decide : ('"' : Char).toNat < 128) he,
    ascii_eq_iff (by decide : ('\\' : Char).toNat < 128) he,
    ascii_eq_iff (by decide : ('/' : Char).toNat < 128) he,
    ascii_eq_iff (by decide : ('b' : Char).toNat < 128) he,
    ascii_eq_iff (by decide : ('f' : Char).toNat < 128) he,
    ascii_eq_iff (by decide : ('n' : Char).toNat < 128) he,
    ascii_eq_iff (by decide : ('r' : Char).toNat < 128) he,
    ascii_eq_iff (by decide : ('t' : Char).toNat < 128) he]

theorem simpleEscape_some {b : UInt8} (h : Validator.simpleEscape b = some c) :
    b.toNat < 128 := by
  unfold Validator.simpleEscape at h
  split_ifs at h with h₁ h₂ h₃ h₄ h₅ h₆ h₇ h₈
  all_goals
    subst b
    decide

theorem escapeChar_some (h : JsonText.escapeChar e = some c) : e.toNat < 128 := by
  unfold JsonText.escapeChar at h
  split_ifs at h with h₁ h₂ h₃ h₄ h₅ h₆ h₇ h₈
  all_goals
    subst e
    decide

theorem second_byte (h : v.rest = utf8 ('\\' :: s)) : v.rest[1]? = (utf8 s).head? := by
  rw [h, utf8_ascii (by decide), List.getElem?_cons_succ, List.head?_eq_getElem?]

theorem escape_sound (h : v.rest = utf8 ('\\' :: s)) (hok : v.escape = .ok (c, w)) :
    ∃ r items, Past v w r ∧ Names items c ∧
      ∀ items' t, Body r items' t → Body ('\\' :: s) (items ++ items') t := by
  unfold Validator.escape at hok
  rw [second_byte h] at hok
  cases hhead : (utf8 s).head? with
  | none =>
    rw [hhead] at hok
    cases hok
  | some b =>
    rw [hhead] at hok
    dsimp only at hok
    obtain ⟨bs, hbs⟩ := List.head?_eq_some_iff.mp hhead
    cases hsimple : Validator.simpleEscape b with
    | some c' =>
      rw [hsimple] at hok
      cases hok
      obtain ⟨e, r, rfl, he, rfl, -⟩ := utf8_eq_cons hbs (simpleEscape_some hsimple)
      rw [simpleEscape_ascii he] at hsimple
      refine ⟨r, [.char c], Past.advance_two h (by decide) he, names_char c, ?_⟩
      intro items' t hbody
      exact Body.escaped hsimple hbody
    | none =>
      rw [hsimple] at hok
      dsimp only at hok
      by_cases hu : b = ascii 'u'
      · rw [if_pos hu] at hok
        rw [hu] at hhead
        obtain ⟨s', rfl⟩ := (head_utf8_iff (by decide)).mp hhead
        have hpast : Past v (v.advance 2) s' := Past.advance_two h (by decide) (by decide)
        obtain ⟨r, items, hpast', hnames, hbody⟩ := unicodeEscape_sound hpast.rest hok
        exact ⟨r, items, hpast.trans hpast', hnames, hbody⟩
      · rw [if_neg hu] at hok
        cases hok

theorem escape_simple (h : v.rest = utf8 ('\\' :: e :: r)) (he : JsonText.escapeChar e = some c) :
    ∃ w, v.escape = .ok (c, w) ∧ Past v w r := by
  have hnarrow := escapeChar_some he
  refine ⟨v.advance 2, ?_, Past.advance_two h (by decide) hnarrow⟩
  unfold Validator.escape
  rw [second_byte h, utf8_ascii hnarrow, List.head?_cons]
  dsimp only
  rw [simpleEscape_ascii hnarrow, he]

/-- An escape that begins with a backslash and a `u` is a unicode escape. -/
theorem escape_unicode (h : v.rest = utf8 ('\\' :: 'u' :: s)) :
    v.escape = (v.advance 2).unicodeEscape v.pos ∧ Past v (v.advance 2) s := by
  refine ⟨?_, Past.advance_two h (by decide) (by decide)⟩
  unfold Validator.escape
  rw [second_byte h, utf8_ascii (by decide), List.head?_cons]
  rfl

end Escapes

section Strings
variable {v w : Validator} {s r decoded text chars : Text} {c : Char} {items : List Item}
  {passes : ℕ}

theorem utf8_length_cons : (utf8 (c :: s)).length = c.utf8Size+(utf8 s).length := by
  rw [utf8_cons, List.length_append, String.length_utf8EncodeChar]

theorem hex4_shorter {u : ℕ} (h : Hex4 s u r) : (utf8 r).length < (utf8 s).length := by
  obtain ⟨a, b, c, d, _, _, _, _, rfl, -⟩ := h
  have hpos := a.utf8Size_pos
  rw [utf8_length_cons, utf8_length_cons, utf8_length_cons, utf8_length_cons]
  omega

/-- What the byte at the position says about the character there. -/
structure LeadByte (c : Char) (b : UInt8) : Prop where
  ascii_iff : ∀ a : Char, a.toNat < 128 → (b = ascii a ↔ c = a)
  control_iff : b ≤ 0x1F ↔ c.toNat < 0x20

theorem peek_cons (h : v.rest = utf8 (c :: s)) : ∃ b, v.peek = some b ∧ LeadByte c b := by
  by_cases hc : c.toNat < 128
  · refine ⟨ascii c, (peek_iff h hc).mpr ⟨s, rfl⟩, fun a ha => ascii_eq_iff ha hc, ?_⟩
    rw [UInt8.le_iff_toNat_le, ascii_toNat hc]
    exact Nat.lt_succ_iff.symm
  · obtain ⟨b, bs, hb, hwide⟩ := encode_wide (not_lt.mp hc)
    refine ⟨b, ?_, ?_, ?_⟩
    · rw [Validator.peek, h, utf8_cons, hb]
      rfl
    · intro a ha
      refine ⟨?_, ?_⟩
      · rintro rfl
        rw [ascii_toNat ha] at hwide
        omega
      · rintro rfl
        omega
    · rw [UInt8.le_iff_toNat_le]
      have hbound : (0x1F : UInt8).toNat = 31 := rfl
      omega

theorem peekOrEnd_ok {b : UInt8} (h : v.rest = utf8 s) (hok : v.peekOrEnd = .ok b) :
    ∃ c s', s = c :: s' ∧ v.peek = some b ∧ LeadByte c b := by
  unfold Validator.peekOrEnd at hok
  cases s with
  | nil =>
    rw [(peek_none_iff h).mpr rfl] at hok
    cases hok
  | cons c s' =>
    obtain ⟨b', hpeek, hlead⟩ := peek_cons h
    rw [hpeek] at hok
    cases hok
    exact ⟨c, s', rfl, hpeek, hlead⟩

theorem peekOrEnd_cons (h : v.rest = utf8 (c :: s)) :
    ∃ b, v.peekOrEnd = .ok b ∧ LeadByte c b := by
  obtain ⟨b, hpeek, hlead⟩ := peek_cons h
  refine ⟨b, ?_, hlead⟩
  rw [Validator.peekOrEnd, hpeek]

theorem stringLoop_sound (h : v.rest = utf8 s)
    (hok : Validator.stringLoop passes decoded v = .ok (text, w)) :
    ∃ r items chars, Past v w r ∧ Body s items ('"' :: r) ∧ unescape items = some chars ∧
      text = decoded ++ chars := by
  -- By the passes left: each reads a quote, an escape or one plain character.
  induction passes generalizing v s decoded with
  | zero => cases hok
  | succ passes ih =>
    rw [Validator.stringLoop, bind_ok_iff] at hok
    obtain ⟨b, hpeek, hok⟩ := hok
    obtain ⟨c, s, rfl, -, hlead⟩ := peekOrEnd_ok h hpeek
    by_cases hquote : b = ascii '"'
    · rw [if_pos hquote] at hok
      cases hok
      obtain rfl := (hlead.ascii_iff '"' (by decide)).mp hquote
      exact ⟨s, [], [], Past.advance_one h (by decide), Body.nil, rfl, (List.append_nil _).symm⟩
    rw [if_neg hquote] at hok
    by_cases hslash : b = ascii '\\'
    · rw [if_pos hslash, bind_ok_iff] at hok
      obtain ⟨⟨c', v'⟩, hescape, hrest⟩ := hok
      obtain rfl := (hlead.ascii_iff '\\' (by decide)).mp hslash
      obtain ⟨t, names, hpast, hnames, hbody⟩ := escape_sound h hescape
      obtain ⟨r, items, chars, hpast', hbody', hchars, rfl⟩ := ih hpast.rest hrest
      refine ⟨r, names ++ items, c' :: chars, hpast.trans hpast', hbody items _ hbody', ?_, ?_⟩
      · rw [hnames items, hchars, Option.map_some]
      · rw [List.append_assoc, List.singleton_append]
    rw [if_neg hslash] at hok
    by_cases hcontrol : b ≤ 0x1F
    · rw [if_pos hcontrol] at hok
      cases hok
    rw [if_neg hcontrol, h, firstChar_utf8] at hok
    have hpast := Past.advance h
    obtain ⟨r, items, chars, hpast', hbody, hchars, rfl⟩ := ih hpast.rest hok
    refine ⟨r, .char c :: items, c :: chars, hpast.trans hpast', ?_, ?_, ?_⟩
    · apply Body.unescaped _ _ _ hbody
      · rw [hlead.control_iff] at hcontrol
        omega
      · exact fun hc => hquote ((hlead.ascii_iff '"' (by decide)).mpr hc)
      · exact fun hc => hslash ((hlead.ascii_iff '\\' (by decide)).mpr hc)
    · rw [unescape, hchars, Option.map_some]
    · rw [List.append_assoc, List.singleton_append]

/-- A pass that reads an escape. -/
theorem stringLoop_escape (h : v.rest = utf8 ('\\' :: s)) (hescape : v.escape = .ok (c, w)) :
    Validator.stringLoop (passes+1) decoded v =
      Validator.stringLoop passes (decoded ++ [c]) w := by
  obtain ⟨b, hpeek, hlead⟩ := peekOrEnd_cons h
  have hb : b = ascii '\\' := (hlead.ascii_iff '\\' (by decide)).mpr rfl
  have hquote : ¬ b = ascii '"' := by
    rw [hb]
    decide
  rw [Validator.stringLoop, hpeek]
  change (if b = ascii '"' then _ else _) = _
  rw [if_neg hquote, if_pos hb, hescape]
  rfl

variable (decoded) in
theorem stringLoop_complete (h : v.rest = utf8 s) (hpasses : v.rest.length < passes)
    (hbody : Body s items ('"' :: r)) (hchars : unescape items = some chars) :
    ∃ w, Validator.stringLoop passes decoded v = .ok (decoded ++ chars, w) ∧ Past v w r := by
  induction passes generalizing v s items chars decoded with
  | zero => exact absurd hpasses (Nat.not_lt_zero _)
  | succ passes ih =>
    rw [h] at hpasses
    -- A pass that reads one escape, and then the passes for what follows it.
    have hnext : ∀ (c' : Char) (w' : Validator) (t : Text) (items' : List Item) (chars' : Text)
        (s' : Text), s = '\\' :: s' → v.escape = .ok (c', w') → Past v w' t →
        (utf8 t).length < (utf8 s).length → Body t items' ('"' :: r) →
        unescape items' = some chars' → chars = c' :: chars' →
        ∃ w, Validator.stringLoop (passes+1) decoded v = .ok (decoded ++ chars, w) ∧
          Past v w r := by
      rintro c' w' t items' chars' s' rfl hescape hpast hlt hbody' hchars' rfl
      have hleft : w'.rest.length < passes := by
        rw [hpast.rest]
        omega
      obtain ⟨w, hok, hpast'⟩ := ih (decoded ++ [c']) hpast.rest hleft hbody' hchars'
      refine ⟨w, ?_, hpast.trans hpast'⟩
      rw [stringLoop_escape h hescape, hok, List.append_assoc, List.singleton_append]
    cases hbody with
    | nil =>
      cases hchars
      obtain ⟨b, hpeek, hlead⟩ := peekOrEnd_cons h
      have hb : b = ascii '"' := (hlead.ascii_iff '"' (by decide)).mpr rfl
      refine ⟨v.advance 1, ?_, Past.advance_one h (by decide)⟩
      rw [Validator.stringLoop, hpeek, List.append_nil]
      change (if b = ascii '"' then _ else _) = _
      rw [if_pos hb]
      rfl
    | @unescaped c s _ items hcontrol hquote hslash hbody =>
      obtain ⟨b, hpeek, hlead⟩ := peekOrEnd_cons h
      have hpast := Past.advance h
      rw [unescape, Option.map_eq_some_iff] at hchars
      obtain ⟨chars', hchars', rfl⟩ := hchars
      have hleft : (v.advance c.utf8Size).rest.length < passes := by
        have hpos := c.utf8Size_pos
        rw [utf8_length_cons] at hpasses
        rw [hpast.rest]
        omega
      obtain ⟨w, hok, hpast'⟩ := ih (decoded ++ [c]) hpast.rest hleft hbody hchars'
      have hnotQuote : ¬ b = ascii '"' := by rwa [hlead.ascii_iff '"' (by decide)]
      have hnotSlash : ¬ b = ascii '\\' := by rwa [hlead.ascii_iff '\\' (by decide)]
      have hnotControl : ¬ b ≤ 0x1F := by
        rw [hlead.control_iff]
        omega
      refine ⟨w, ?_, hpast.trans hpast'⟩
      rw [Validator.stringLoop, hpeek]
      change (if b = ascii '"' then _ else _) = _
      rw [if_neg hnotQuote, if_neg hnotSlash, if_neg hnotControl, h, firstChar_utf8]
      dsimp only
      rw [hok, List.append_assoc, List.singleton_append]
    | @escaped e c s _ items he hbody =>
      rw [unescape, Option.map_eq_some_iff] at hchars
      obtain ⟨chars', hchars', rfl⟩ := hchars
      obtain ⟨w', hescape, hpast⟩ := escape_simple h he
      apply hnext c w' s items chars' _ rfl hescape hpast _ hbody hchars' rfl
      rw [utf8_length_cons, utf8_length_cons]
      have hpos := ('\\' : Char).utf8Size_pos
      omega
    | @unit u s t _ items hex hbody =>
      obtain ⟨hunicode, hpast⟩ := escape_unicode h
      have hpos := ('\\' : Char).utf8Size_pos
      rcases unescape_unit hchars with ⟨hhigh, hlow⟩ | ⟨low, rest, rfl, hhigh, hlow⟩
      · have hnames := names_unit hhigh hlow items
        rw [List.singleton_append, hchars, eq_comm, Option.map_eq_some_iff] at hnames
        obtain ⟨chars', hchars', rfl⟩ := hnames
        obtain ⟨w', hescape, hpast'⟩ := unicodeEscape_unit v.pos hpast.rest hex hhigh hlow
        rw [← hunicode] at hescape
        apply hnext _ w' t items chars' _ rfl hescape (hpast.trans hpast') _ hbody hchars' rfl
        have hshort := hex4_shorter hex
        rw [utf8_length_cons, utf8_length_cons]
        omega
      · -- The two halves of a pair are read in one pass.
        cases hbody with
        | @unit _ s' t' _ _ hex' hbody =>
          have hnames := names_pair hhigh hlow rest
          rw [List.cons_append, List.singleton_append, hchars, eq_comm,
            Option.map_eq_some_iff] at hnames
          obtain ⟨chars', hchars', rfl⟩ := hnames
          obtain ⟨w', hescape, hpast'⟩ :=
            unicodeEscape_pair v.pos hpast.rest hex hex' hhigh hlow
          rw [← hunicode] at hescape
          apply hnext _ w' t' rest chars' _ rfl hescape (hpast.trans hpast') _ hbody hchars' rfl
          have hshort := hex4_shorter hex
          have hshort' := hex4_shorter hex'
          rw [utf8_length_cons, utf8_length_cons] at hshort ⊢
          omega

theorem utf8_append (p r : Text) : utf8 (p ++ r) = utf8 p ++ utf8 r := List.flatMap_append

theorem suffix_le (h : r <:+ s) : (utf8 r).length ≤ (utf8 s).length := by
  obtain ⟨p, rfl⟩ := h
  rw [utf8_append, List.length_append]
  exact Nat.le_add_left _ _

theorem ahead_shorter (h : JsonText.Ahead s r) : (utf8 r).length < (utf8 s).length := by
  obtain ⟨c, p, rfl⟩ := h
  have hpos := c.utf8Size_pos
  rw [List.cons_append, utf8_length_cons, utf8_append, List.length_append]
  omega

theorem string_sound (h : v.rest = utf8 ('"' :: s)) (hok : v.string passes = .ok (text, w)) :
    ∃ r items, Past v w r ∧ Str ('"' :: s) items r ∧ unescape items = some text := by
  have hpast : Past v (v.advance 1) s := Past.advance_one h (by decide)
  obtain ⟨r, items, chars, hpast', hbody, hchars, rfl⟩ := stringLoop_sound hpast.rest hok
  exact ⟨r, items, hpast.trans hpast', ⟨s, rfl, hbody⟩, hchars⟩

theorem string_complete (h : v.rest = utf8 s) (hpasses : v.rest.length ≤ passes)
    (hstr : Str s items r) (htext : unescape items = some text) :
    ∃ w, v.string passes = .ok (text, w) ∧ Past v w r := by
  obtain ⟨t, rfl, hbody⟩ := hstr
  have hpast : Past v (v.advance 1) t := Past.advance_one h (by decide)
  have hleft : (v.advance 1).rest.length < passes := by
    rw [hpast.rest]
    rw [h] at hpasses
    exact (ahead_shorter (JsonText.Ahead.cons '"' List.suffix_rfl)).trans_le hpasses
  obtain ⟨w, hok, hpast'⟩ := stringLoop_complete [] hpast.rest hleft hbody htext
  exact ⟨w, hok, hpast.trans hpast'⟩

end Strings

/-- The passes did not run out. -/
def Settled {α : Type} (run : Run α) : Prop := run ≠ .error .running

section Settled
variable {α β : Type} {v : Validator} {s decoded : Text} {passes offset : ℕ}

theorem settled_ok (a : α) : Settled (.ok a : Run α) := nofun

theorem settled_refuse (err : ClientDataError) : Settled (refuse err : Run α) := nofun

theorem settled_bind {run : Run α} {f : α → Run β} (h : Settled run)
    (hf : ∀ a, run = .ok a → Settled (f a)) : Settled (run >>= f) := by
  cases run with
  | error stop =>
    intro heq
    exact h (congrArg _ (Except.error.inj heq))
  | ok a => exact hf a rfl

theorem settled_ite {p : Prop} [Decidable p] {run run' : Run α} (h : p → Settled run)
    (h' : ¬ p → Settled run') : Settled (if p then run else run') := by
  by_cases hp : p
  · rw [if_pos hp]
    exact h hp
  · rw [if_neg hp]
    exact h' hp

theorem peekOrEnd_settled : Settled v.peekOrEnd := by
  unfold Validator.peekOrEnd
  cases v.peek with
  | none => exact settled_refuse _
  | some b => exact settled_ok b

theorem addHexDigit_settled {unit : ℕ} {b : UInt8} :
    Settled (Validator.addHexDigit offset unit b) := by
  unfold Validator.addHexDigit
  cases toHexDigit b with
  | none => exact settled_refuse _
  | some x => exact settled_ok _

theorem hex4_settled : Settled (v.hex4 offset) := by
  have hfold : ∀ (digits : Bytes) (unit : ℕ),
      Settled (digits.foldlM (Validator.addHexDigit offset) unit) := by
    intro digits
    induction digits with
    | nil => exact fun unit => settled_ok unit
    | cons b digits ih =>
      intro unit
      rw [List.foldlM_cons]
      exact settled_bind addHexDigit_settled (fun unit' _ => ih unit')
  apply settled_ite
  · exact fun _ => settled_refuse _
  · exact fun _ => settled_bind (hfold _ _) (fun unit _ => settled_ok _)

theorem charOrRefuse_settled {n : ℕ} {err : ClientDataError} :
    Settled (Validator.charOrRefuse n err) := by
  unfold Validator.charOrRefuse
  cases charFromU32 n with
  | none => exact settled_refuse err
  | some c => exact settled_ok c

theorem unicodeEscape_settled : Settled (v.unicodeEscape offset) := by
  apply settled_bind hex4_settled
  intro unit _
  apply settled_ite
  · intro _
    apply settled_ite
    · exact fun _ => settled_refuse _
    · intro _
      apply settled_bind hex4_settled
      intro low _
      apply settled_ite
      · exact fun _ => settled_bind charOrRefuse_settled (fun c _ => settled_ok _)
      · exact fun _ => settled_refuse _
  · intro _
    apply settled_ite
    · exact fun _ => settled_refuse _
    · exact fun _ => settled_bind charOrRefuse_settled (fun c _ => settled_ok _)

theorem escape_settled : Settled v.escape := by
  unfold Validator.escape
  cases v.rest[1]? with
  | none => exact settled_refuse _
  | some b =>
    dsimp only
    cases Validator.simpleEscape b with
    | some c => exact settled_ok _
    | none => exact settled_ite (fun _ => unicodeEscape_settled) (fun _ => settled_refuse _)

/-- The items that an escape names are not none. -/
theorem Names.ne_nil {items : List Item} {c : Char} (h : Names items c) : items ≠ [] := by
  rintro rfl
  have hnil := h []
  cases hnil

theorem body_shorter {items : List Item} {t : Text} (h : Body s items t) (hne : items ≠ []) :
    (utf8 t).length < (utf8 s).length := by
  apply ahead_shorter
  cases h with
  | nil => exact absurd rfl hne
  | unescaped _ _ _ h => exact JsonText.Ahead.cons _ h.suffix
  | escaped _ h => exact JsonText.Ahead.cons _ (JsonText.Ahead.cons _ h.suffix).suffix
  | unit hu h =>
    obtain ⟨a, b, c, d, _, _, _, _, rfl, -⟩ := hu
    exact JsonText.Ahead.cons '\\' (h.suffix.trans ⟨['u', a, b, c, d], rfl⟩)

/-- A pass reads at least one byte, so the passes do not run out before the bytes do. -/
theorem stringLoop_settled (h : v.rest = utf8 s) (hpasses : v.rest.length < passes) :
    Settled (Validator.stringLoop passes decoded v) := by
  induction passes generalizing v s decoded with
  | zero => exact absurd hpasses (Nat.not_lt_zero _)
  | succ passes ih =>
    rw [Validator.stringLoop]
    apply settled_bind peekOrEnd_settled
    intro b hpeek
    obtain ⟨c, s, rfl, -, hlead⟩ := peekOrEnd_ok h hpeek
    apply settled_ite
    · exact fun _ => settled_ok _
    intro _
    apply settled_ite
    · intro hslash
      obtain rfl := (hlead.ascii_iff '\\' (by decide)).mp hslash
      apply settled_bind escape_settled
      intro ⟨c', w⟩ hescape
      obtain ⟨t, items, hpast, hnames, hbody⟩ := escape_sound h hescape
      have hshort := body_shorter (hbody [] t Body.nil) (by simpa using hnames.ne_nil)
      apply ih hpast.rest
      rw [hpast.rest]
      rw [h] at hpasses
      omega
    intro _
    apply settled_ite
    · exact fun _ => settled_refuse _
    intro _
    rw [h, firstChar_utf8]
    have hpast := Past.advance h
    apply ih hpast.rest
    have hpos := c.utf8Size_pos
    rw [h, utf8_length_cons] at hpasses
    rw [hpast.rest]
    omega

theorem string_settled (h : v.rest = utf8 ('"' :: s)) (hpasses : v.rest.length ≤ passes) :
    Settled (v.string passes) := by
  have hpast : Past v (v.advance 1) s := Past.advance_one h (by decide)
  apply stringLoop_settled hpast.rest
  rw [hpast.rest]
  rw [h] at hpasses
  exact (ahead_shorter (JsonText.Ahead.cons '"' List.suffix_rfl)).trans_le hpasses

end Settled

end ScpCore.Kel.ClientData
