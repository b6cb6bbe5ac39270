import ScpCore.JsonText
import ScpCore.ClientData

/-! The lexical part of the validator. Its positions stand at the start of a character, so what is
left of the bytes is the encoding of what is left of the text, and each scanner reads what the
grammar of the text has. -/

namespace ScpCore.Kel.ClientData

open JsonText (isWs Ws Digits Sign IntPart FracPart ExpPart Number Item hexDigit Hex4 Body Str
  isHigh isLow surrogatePair unescape)

def utf8 (chars : Text) : Bytes := chars.flatMap String.utf8EncodeChar

section Encoded
variable {c a : Char} {chars : Text} {bytes : Bytes}

theorem utf8_cons : utf8 (c :: chars) = String.utf8EncodeChar c ++ utf8 chars := rfl

theorem encode_ascii (hc : c.toNat < 128) : String.utf8EncodeChar c = [ascii c] := by
  have hle : c.val.toNat ≤ 0x7f := by
    change c.toNat ≤ 127
    omega
  unfold String.utf8EncodeChar
  rw [if_pos hle]
  rfl

theorem utf8_ascii (hc : c.toNat < 128) : utf8 (c :: chars) = ascii c :: utf8 chars := by
  rw [utf8_cons, encode_ascii hc, List.singleton_append]

/-- The encoding of any other character begins above the ASCII bytes. -/
theorem encode_wide (hc : 128 ≤ c.toNat) :
    ∃ b bs, String.utf8EncodeChar c = b :: bs ∧ 128 ≤ b.toNat := by
  have hle : ¬ c.val.toNat ≤ 0x7f := by
    change ¬ c.toNat ≤ 127
    omega
  unfold String.utf8EncodeChar
  rw [if_neg hle]
  split_ifs
  · refine ⟨_, _, rfl, ?_⟩
    rw [UInt8.toNat_ofNat']
    omega
  · refine ⟨_, _, rfl, ?_⟩
    rw [UInt8.toNat_ofNat']
    omega
  · refine ⟨_, _, rfl, ?_⟩
    rw [UInt8.toNat_ofNat']
    omega

theorem ascii_toNat (ha : a.toNat < 128) : (ascii a).toNat = a.toNat := by
  change (UInt8.ofNat a.toNat).toNat = a.toNat
  rw [UInt8.toNat_ofNat']
  omega

theorem ascii_inj (ha : a.toNat < 128) (hc : c.toNat < 128) (h : ascii c = ascii a) : c = a := by
  have hnat := congrArg UInt8.toNat h
  rw [ascii_toNat ha, ascii_toNat hc] at hnat
  exact Char.toNat_inj.mp hnat

/-- The first byte of a text is that of an ASCII character exactly where the text begins with it. -/
theorem head_utf8_iff (ha : a.toNat < 128) :
    (utf8 chars).head? = some (ascii a) ↔ ∃ r, chars = a :: r := by
  constructor
  · intro h
    cases chars with
    | nil => cases h
    | cons c chars =>
      by_cases hc : c.toNat < 128
      · rw [utf8_ascii hc, List.head?_cons, Option.some.injEq] at h
        exact ⟨chars, by rw [ascii_inj ha hc h]⟩
      · obtain ⟨b, bs, hb, hwide⟩ := encode_wide (not_lt.mp hc)
        rw [utf8_cons, hb, List.cons_append, List.head?_cons, Option.some.injEq] at h
        rw [h, ascii_toNat ha] at hwide
        omega
  · intro h
    obtain ⟨r, rfl⟩ := h
    rw [utf8_ascii ha, List.head?_cons]

theorem utf8_eq_nil_iff : utf8 chars = [] ↔ chars = [] := by
  cases chars with
  | nil => exact iff_of_true rfl rfl
  | cons c chars =>
    rw [utf8_cons, List.append_eq_nil_iff]
    exact iff_of_false (fun h => String.utf8EncodeChar_ne_nil h.1) (List.cons_ne_nil c chars)

theorem drop_utf8 (c : Char) (chars : Text) : (utf8 (c :: chars)).drop c.utf8Size = utf8 chars := by
  rw [utf8_cons, ← String.length_utf8EncodeChar, List.drop_left]

theorem firstChar_utf8 (c : Char) (chars : Text) : firstChar (utf8 (c :: chars)) = some c := by
  rw [firstChar, utf8_cons, List.toByteArray_append]
  exact ByteArray.utf8DecodeChar?_utf8EncodeChar_append

theorem firstChar_some (h : firstChar bytes = some c) :
    bytes = String.utf8EncodeChar c ++ bytes.drop c.utf8Size := by
  obtain ⟨l, hl⟩ := ByteArray.exists_of_utf8DecodeChar?_eq_some h
  have hbytes : bytes = String.utf8EncodeChar c ++ l.data.toList := by
    have hdata := congrArg (fun b : ByteArray => b.data.toList) hl
    simpa using hdata
  rw [hbytes]
  conv => rhs; rw [← String.length_utf8EncodeChar, List.drop_left]

theorem fromUtf8_pass {validUpTo passes : ℕ} {b : UInt8} :
    fromUtf8 validUpTo (passes+1) (b :: bytes) = match firstChar (b :: bytes) with
      | some c => do
        let chars ← fromUtf8 (validUpTo+c.utf8Size) passes ((b :: bytes).drop c.utf8Size)
        return c :: chars
      | none => .error validUpTo := rfl

theorem fromUtf8_ok {validUpTo passes : ℕ} (h : fromUtf8 validUpTo passes bytes = .ok chars) :
    bytes = utf8 chars := by
  induction passes generalizing validUpTo bytes chars with
  | zero =>
    cases bytes with
    | nil =>
      cases h
      rfl
    | cons b bytes => cases h
  | succ passes ih =>
    cases bytes with
    | nil =>
      cases h
      rfl
    | cons b bytes =>
      rw [fromUtf8_pass] at h
      cases hfirst : firstChar (b :: bytes) with
      | none =>
        rw [hfirst] at h
        cases h
      | some c =>
        rw [hfirst] at h
        obtain ⟨chars', hrest, hpure⟩ := (bind_ok_iff _ _ _).mp h
        cases hpure
        rw [utf8_cons, ← ih hrest]
        exact firstChar_some hfirst

theorem fromUtf8_utf8 (validUpTo : ℕ) {passes : ℕ} (hpasses : chars.length ≤ passes) :
    fromUtf8 validUpTo passes (utf8 chars) = .ok chars := by
  induction passes generalizing validUpTo chars with
  | zero =>
    rw [List.eq_nil_of_length_eq_zero (Nat.le_zero.mp hpasses)]
    rfl
  | succ passes ih =>
    cases chars with
    | nil => rfl
    | cons c chars =>
      have hfirst := firstChar_utf8 c chars
      have hdrop := drop_utf8 c chars
      cases hbytes : utf8 (c :: chars) with
      | nil => exact absurd (utf8_eq_nil_iff.mp hbytes) (List.cons_ne_nil c chars)
      | cons b bytes =>
        rw [hbytes] at hfirst hdrop
        rw [fromUtf8_pass, hfirst]
        dsimp only
        rw [hdrop, ih _ (by simpa using hpasses)]
        rfl

theorem length_le_utf8 (chars : Text) : chars.length ≤ (utf8 chars).length := by
  induction chars with
  | nil => exact Nat.le_refl 0
  | cons c chars ih =>
    have hpos := c.utf8Size_pos
    rw [utf8_cons, List.length_append, String.length_utf8EncodeChar, List.length_cons]
    omega

/-- An ASCII byte in front is a character in front. -/
theorem utf8_eq_cons {b : UInt8} (h : utf8 chars = b :: bytes) (hb : b.toNat < 128) :
    ∃ c r, chars = c :: r ∧ c.toNat < 128 ∧ b = ascii c ∧ bytes = utf8 r := by
  cases chars with
  | nil => cases h
  | cons c chars =>
    by_cases hc : c.toNat < 128
    · rw [utf8_ascii hc] at h
      obtain ⟨rfl, rfl⟩ := List.cons.inj h
      exact ⟨c, chars, rfl, hc, rfl, rfl⟩
    · obtain ⟨b', bs, hb', hwide⟩ := encode_wide (not_lt.mp hc)
      rw [utf8_cons, hb', List.cons_append] at h
      obtain ⟨rfl, -⟩ := List.cons.inj h
      omega

end Encoded

/-- The second validator is the first at a later position, before the given text. -/
structure Past (v w : Validator) (chars : Text) : Prop where
  rest : w.rest = utf8 chars
  same : w = { v with
    rest := w.rest
    pos := w.pos }

section Positions
variable {v w x : Validator} {chars s t r : Text} {a c : Char}

theorem Past.refl (h : v.rest = utf8 chars) : Past v v chars := ⟨h, rfl⟩

theorem Past.trans (h : Past v w s) (h' : Past w x t) : Past v x t := by
  refine ⟨h'.rest, ?_⟩
  rw [h'.same, h.same]

theorem peek_iff (h : v.rest = utf8 chars) (ha : a.toNat < 128) :
    v.peek = some (ascii a) ↔ ∃ r, chars = a :: r := by
  rw [Validator.peek, h]
  exact head_utf8_iff ha

theorem peek_none_iff (h : v.rest = utf8 chars) : v.peek = none ↔ chars = [] := by
  rw [Validator.peek, h, List.head?_eq_none_iff]
  exact utf8_eq_nil_iff

theorem Past.advance (h : v.rest = utf8 (c :: r)) : Past v (v.advance c.utf8Size) r := by
  refine ⟨?_, rfl⟩
  rw [Validator.advance, h]
  exact drop_utf8 c r

theorem utf8Size_ascii (ha : a.toNat < 128) : a.utf8Size = 1 := by
  rw [← String.length_utf8EncodeChar, encode_ascii ha]
  rfl

theorem Past.advance_one (h : v.rest = utf8 (a :: r)) (ha : a.toNat < 128) :
    Past v (v.advance 1) r := by
  rw [← utf8Size_ascii ha]
  exact Past.advance h

/-- The same class of ASCII characters, of bytes and of characters. -/
structure Agree (p : UInt8 → Bool) (q : Char → Bool) : Prop where
  narrow : ∀ c, q c = true → c.toNat < 128
  byte : ∀ b, p b = true → b.toNat < 128
  same : ∀ c, c.toNat < 128 → p (ascii c) = q c

section Classes
variable {p : UInt8 → Bool} {q : Char → Bool}

theorem Agree.peek_any (hpq : Agree p q) (h : v.rest = utf8 chars) :
    v.peek.any p = true ↔ ∃ c r, chars = c :: r ∧ q c = true := by
  constructor
  · intro hany
    obtain ⟨b, hpeek, hb⟩ := (Option.any_eq_true _ _).mp hany
    rw [Validator.peek, h] at hpeek
    obtain ⟨bytes, hbytes⟩ := List.head?_eq_some_iff.mp hpeek
    obtain ⟨c, r, rfl, hc, rfl, -⟩ := utf8_eq_cons hbytes (hpq.byte b hb)
    rw [hpq.same c hc] at hb
    exact ⟨c, r, rfl, hb⟩
  · intro hsome
    obtain ⟨c, r, rfl, hc⟩ := hsome
    have hnarrow := hpq.narrow c hc
    rw [(peek_iff h hnarrow).mpr ⟨r, rfl⟩, Option.any_some, hpq.same c hnarrow]
    exact hc

theorem Agree.dropWhile (hpq : Agree p q) (chars : Text) :
    (utf8 chars).dropWhile p = utf8 (chars.dropWhile q) := by
  induction chars with
  | nil => rfl
  | cons c chars ih =>
    by_cases hc : c.toNat < 128
    · rw [utf8_ascii hc, List.dropWhile_cons, List.dropWhile_cons, hpq.same c hc, ih]
      by_cases hq : q c = true
      · rw [if_pos hq, if_pos hq]
      · rw [if_neg hq, if_neg hq, utf8_ascii hc]
    · have hq : ¬ q c = true := fun hq => hc (hpq.narrow c hq)
      obtain ⟨b, bs, hb, hwide⟩ := encode_wide (not_lt.mp hc)
      have hp : ¬ p b = true := by
        intro hp
        have hlt := hpq.byte b hp
        omega
      rw [List.dropWhile_cons_of_neg hq, utf8_cons, hb, List.cons_append,
        List.dropWhile_cons_of_neg hp]

theorem Agree.skipWhile (hpq : Agree p q) (h : v.rest = utf8 chars) :
    Past v (v.skipWhile p) (chars.dropWhile q) := by
  refine ⟨?_, rfl⟩
  rw [← hpq.dropWhile, ← h]
  calc v.rest.drop (v.rest.takeWhile p).length
      = (v.rest.takeWhile p ++ v.rest.dropWhile p).drop (v.rest.takeWhile p).length := by
        rw [List.takeWhile_append_dropWhile]
    _ = v.rest.dropWhile p := List.drop_left

end Classes

theorem ascii_beq (ha : a.toNat < 128) (hc : c.toNat < 128) : (ascii c == ascii a) = (c == a) := by
  rw [Bool.eq_iff_iff, beq_iff_eq, beq_iff_eq]
  exact ⟨ascii_inj ha hc, fun h => by rw [h]⟩

theorem agree_whitespace : Agree isWhitespace isWs := by
  refine ⟨?_, ?_, ?_⟩
  · intro c hc
    simp only [isWs, Bool.or_eq_true, beq_iff_eq] at hc
    rcases hc with ((rfl | rfl) | rfl) | rfl <;> decide
  · intro b hb
    simp only [isWhitespace, Bool.or_eq_true, beq_iff_eq] at hb
    rcases hb with ((rfl | rfl) | rfl) | rfl <;> decide
  · intro c hc
    rw [isWhitespace, isWs, ascii_beq (by decide) hc, ascii_beq (by decide) hc,
      ascii_beq (by decide) hc, ascii_beq (by decide) hc]

theorem isDigit_toNat (c : Char) : c.isDigit = true ↔ 48 ≤ c.toNat ∧ c.toNat ≤ 57 := by
  rw [Char.isDigit, Bool.and_eq_true, decide_eq_true_eq, decide_eq_true_eq]
  exact Iff.rfl

theorem agree_digit : Agree isDigit Char.isDigit := by
  have hbyte : ∀ b : UInt8, isDigit b = true ↔ 48 ≤ b.toNat ∧ b.toNat ≤ 57 := by
    intro b
    rw [isDigit, Bool.and_eq_true, decide_eq_true_eq, decide_eq_true_eq]
    exact Iff.rfl
  refine ⟨?_, ?_, ?_⟩
  · intro c hc
    rw [isDigit_toNat] at hc
    omega
  · intro b hb
    rw [hbyte] at hb
    omega
  · intro c hc
    rw [Bool.eq_iff_iff, hbyte, isDigit_toNat, ascii_toNat hc]

theorem Past.skipWhitespace (h : v.rest = utf8 chars) :
    Past v v.skipWhitespace (chars.dropWhile isWs) :=
  agree_whitespace.skipWhile h

end Positions

section Numbers
variable {v w : Validator} {s t r : Text} {err : ClientDataError}

theorem startsDigit_iff (h : v.rest = utf8 s) :
    v.startsDigit = true ↔ ∃ c r, s = c :: r ∧ c.isDigit = true :=
  agree_digit.peek_any h

theorem someDigits_sound (h : v.rest = utf8 s) (hok : v.someDigits err = .ok w) :
    ∃ r, Past v w r ∧ Digits s r := by
  unfold Validator.someDigits at hok
  by_cases hstarts : v.startsDigit = true
  · rw [if_pos hstarts] at hok
    cases hok
    obtain ⟨c, r, rfl, hc⟩ := (startsDigit_iff h).mp hstarts
    exact ⟨_, agree_digit.skipWhile h, JsonText.digits_dropWhile hc⟩
  · rw [if_neg hstarts] at hok
    cases hok

variable (err) in
theorem someDigits_complete (h : v.rest = utf8 s) (hdigits : Digits s r)
    (hr : JsonText.Stops Char.isDigit r) :
    v.someDigits err = .ok v.digits ∧ Past v v.digits r := by
  have hstarts := (startsDigit_iff h).mpr hdigits.head
  have hpast := agree_digit.skipWhile h
  rw [hdigits.eq_dropWhile hr] at hpast
  refine ⟨?_, hpast⟩
  rw [Validator.someDigits, if_pos hstarts]

theorem sign_sound (h : v.rest = utf8 s) :
    ∃ t, Past v v.skipSign t ∧ Sign s t := by
  unfold Validator.skipSign
  by_cases hpeek : v.peek = some (ascii '-')
  · obtain ⟨t, rfl⟩ := (peek_iff h (by decide)).mp hpeek
    rw [if_pos hpeek]
    exact ⟨t, Past.advance_one h (by decide), Or.inr rfl⟩
  · rw [if_neg hpeek]
    exact ⟨s, Past.refl h, Or.inl rfl⟩

theorem sign_complete (h : v.rest = utf8 s) (hsign : Sign s t)
    (ht : JsonText.Stops (· == '-') t) :
    Past v v.skipSign t := by
  unfold Validator.skipSign
  rcases hsign with rfl | rfl
  · have hpeek : ¬ v.peek = some (ascii '-') := by
      rw [peek_iff h (by decide)]
      intro hminus
      obtain ⟨r, rfl⟩ := hminus
      exact absurd (ht '-' r rfl) (by decide)
    rw [if_neg hpeek]
    exact Past.refl h
  · rw [if_pos ((peek_iff h (by decide)).mpr ⟨t, rfl⟩)]
    exact Past.advance_one h (by decide)

theorem intPart_sound (h : v.rest = utf8 s)
    (hok : v.intPart err = .ok w) :
    ∃ r, Past v w r ∧ IntPart s r := by
  unfold Validator.intPart at hok
  by_cases hpeek : v.peek = some (ascii '0')
  · obtain ⟨r, rfl⟩ := (peek_iff h (by decide)).mp hpeek
    rw [if_pos hpeek] at hok
    cases hok
    exact ⟨r, Past.advance_one h (by decide), Or.inl rfl⟩
  · rw [if_neg hpeek] at hok
    obtain ⟨r, hpast, hdigits⟩ := someDigits_sound h hok
    refine ⟨r, hpast, Or.inr ⟨?_, hdigits⟩⟩
    intro hzero
    obtain ⟨t, ht⟩ := List.head?_eq_some_iff.mp hzero
    exact hpeek ((peek_iff h (by decide)).mpr ⟨t, ht⟩)

variable (err) in
theorem intPart_complete (h : v.rest = utf8 s) (hint : IntPart s r)
    (hr : JsonText.Stops Char.isDigit r) :
    ∃ w, v.intPart err = .ok w ∧ Past v w r := by
  unfold Validator.intPart
  rcases hint with rfl | ⟨hzero, hdigits⟩
  · rw [if_pos ((peek_iff h (by decide)).mpr ⟨r, rfl⟩)]
    exact ⟨_, rfl, Past.advance_one h (by decide)⟩
  · have hpeek : ¬ v.peek = some (ascii '0') := by
      rw [peek_iff h (by decide)]
      intro hs
      obtain ⟨t, rfl⟩ := hs
      exact hzero rfl
    rw [if_neg hpeek]
    exact ⟨_, someDigits_complete err h hdigits hr⟩

theorem fracPart_sound (h : v.rest = utf8 s)
    (hok : v.fracPart err = .ok w) :
    ∃ r, Past v w r ∧ FracPart s r := by
  unfold Validator.fracPart at hok
  by_cases hpeek : v.peek = some (ascii '.')
  · obtain ⟨t, rfl⟩ := (peek_iff h (by decide)).mp hpeek
    rw [if_pos hpeek] at hok
    have hpast : Past v (v.advance 1) t := Past.advance_one h (by decide)
    obtain ⟨r, hpast', hdigits⟩ := someDigits_sound hpast.rest hok
    exact ⟨r, hpast.trans hpast', Or.inr ⟨t, rfl, hdigits⟩⟩
  · rw [if_neg hpeek] at hok
    cases hok
    exact ⟨s, Past.refl h, Or.inl rfl⟩

variable (err) in
theorem fracPart_complete (h : v.rest = utf8 s) (hfrac : FracPart s r)
    (hr : JsonText.Stops (fun c => c.isDigit || c == '.') r) :
    ∃ w, v.fracPart err = .ok w ∧ Past v w r := by
  unfold Validator.fracPart
  rcases hfrac with rfl | ⟨t, rfl, hdigits⟩
  · have hpeek : ¬ v.peek = some (ascii '.') := by
      rw [peek_iff h (by decide)]
      intro hs
      obtain ⟨t, rfl⟩ := hs
      exact absurd (hr '.' t rfl) (by decide)
    rw [if_neg hpeek]
    exact ⟨v, rfl, Past.refl h⟩
  · have hpast : Past v (v.advance 1) t := Past.advance_one h (by decide)
    have hstops : JsonText.Stops Char.isDigit r := by
      intro c t heq
      have hc := hr c t heq
      rw [Bool.or_eq_false_iff] at hc
      exact hc.1
    obtain ⟨hok, hpast'⟩ := someDigits_complete err hpast.rest hdigits hstops
    rw [if_pos ((peek_iff h (by decide)).mpr ⟨t, rfl⟩)]
    exact ⟨_, hok, hpast.trans hpast'⟩

/-- The sign of an exponent. -/
theorem expSign_sound (h : v.rest = utf8 s) :
    ∃ t, Past v v.skipExpSign t ∧ (s = t ∨ s = '+' :: t ∨ s = '-' :: t) := by
  unfold Validator.skipExpSign
  by_cases hpeek : v.peek = some (ascii '+') ∨ v.peek = some (ascii '-')
  · rw [if_pos hpeek]
    rcases hpeek with hpeek | hpeek
    · obtain ⟨t, rfl⟩ := (peek_iff h (by decide)).mp hpeek
      exact ⟨t, Past.advance_one h (by decide), Or.inr (Or.inl rfl)⟩
    · obtain ⟨t, rfl⟩ := (peek_iff h (by decide)).mp hpeek
      exact ⟨t, Past.advance_one h (by decide), Or.inr (Or.inr rfl)⟩
  · rw [if_neg hpeek]
    exact ⟨s, Past.refl h, Or.inl rfl⟩

theorem expSign_complete (h : v.rest = utf8 s) (hsign : s = t ∨ s = '+' :: t ∨ s = '-' :: t)
    (ht : JsonText.Stops (fun c => c == '+' || c == '-') t) :
    Past v v.skipExpSign t := by
  unfold Validator.skipExpSign
  rcases hsign with rfl | rfl | rfl
  · have hpeek : ¬ (v.peek = some (ascii '+') ∨ v.peek = some (ascii '-')) := by
      rw [peek_iff h (by decide), peek_iff h (by decide)]
      intro hs
      rcases hs with ⟨r, rfl⟩ | ⟨r, rfl⟩
      · exact absurd (ht '+' r rfl) (by decide)
      · exact absurd (ht '-' r rfl) (by decide)
    rw [if_neg hpeek]
    exact Past.refl h
  · rw [if_pos (Or.inl ((peek_iff h (by decide)).mpr ⟨t, rfl⟩))]
    exact Past.advance_one h (by decide)
  · rw [if_pos (Or.inr ((peek_iff h (by decide)).mpr ⟨t, rfl⟩))]
    exact Past.advance_one h (by decide)

/-- A digit is no sign. -/
theorem stops_sign {c : Char} (hc : c.isDigit = true) :
    JsonText.Stops (fun c => c == '+' || c == '-') (c :: t) := by
  intro c' t' heq
  cases heq
  rw [Bool.or_eq_false_iff, beq_eq_false_iff_ne, beq_eq_false_iff_ne]
  refine ⟨?_, ?_⟩
  · rintro rfl
    exact absurd hc (by decide)
  · rintro rfl
    exact absurd hc (by decide)

theorem expPart_sound (h : v.rest = utf8 s)
    (hok : v.expPart err = .ok w) :
    ∃ r, Past v w r ∧ ExpPart s r := by
  unfold Validator.expPart at hok
  by_cases hpeek : v.peek = some (ascii 'e') ∨ v.peek = some (ascii 'E')
  · rw [if_pos hpeek] at hok
    obtain ⟨t, hs, hpast⟩ : ∃ t, (s = 'e' :: t ∨ s = 'E' :: t) ∧ Past v (v.advance 1) t := by
      rcases hpeek with hpeek | hpeek
      · obtain ⟨t, rfl⟩ := (peek_iff h (by decide)).mp hpeek
        exact ⟨t, Or.inl rfl, Past.advance_one h (by decide)⟩
      · obtain ⟨t, rfl⟩ := (peek_iff h (by decide)).mp hpeek
        exact ⟨t, Or.inr rfl, Past.advance_one h (by decide)⟩
    obtain ⟨u, hpast', hsign⟩ := expSign_sound hpast.rest
    obtain ⟨r, hpast'', hdigits⟩ := someDigits_sound hpast'.rest hok
    exact ⟨r, (hpast.trans hpast').trans hpast'', Or.inr ⟨t, u, hs, hsign, hdigits⟩⟩
  · rw [if_neg hpeek] at hok
    cases hok
    exact ⟨s, Past.refl h, Or.inl rfl⟩

variable (err) in
theorem expPart_complete (h : v.rest = utf8 s) (hexp : ExpPart s r)
    (hr : JsonText.Stops JsonText.inNumber r) :
    ∃ w, v.expPart err = .ok w ∧ Past v w r := by
  unfold Validator.expPart
  rcases hexp with rfl | ⟨t, u, hs, hsign, hdigits⟩
  · have hpeek : ¬ (v.peek = some (ascii 'e') ∨ v.peek = some (ascii 'E')) := by
      rw [peek_iff h (by decide), peek_iff h (by decide)]
      intro hs
      rcases hs with ⟨t, rfl⟩ | ⟨t, rfl⟩
      · exact absurd (hr 'e' t rfl) (by decide)
      · exact absurd (hr 'E' t rfl) (by decide)
    rw [if_neg hpeek]
    exact ⟨v, rfl, Past.refl h⟩
  · obtain ⟨hpeek, hpast⟩ : (v.peek = some (ascii 'e') ∨ v.peek = some (ascii 'E')) ∧
        Past v (v.advance 1) t := by
      rcases hs with rfl | rfl
      · exact ⟨Or.inl ((peek_iff h (by decide)).mpr ⟨t, rfl⟩), Past.advance_one h (by decide)⟩
      · exact ⟨Or.inr ((peek_iff h (by decide)).mpr ⟨t, rfl⟩), Past.advance_one h (by decide)⟩
    have hstops : JsonText.Stops Char.isDigit r := by
      intro c t heq
      have hc := hr c t heq
      simp only [JsonText.inNumber, Bool.or_eq_false_iff] at hc
      exact hc.1.1.1
    have hpast' : Past (v.advance 1) (v.advance 1).skipExpSign u := by
      apply expSign_complete hpast.rest hsign
      obtain ⟨c, u', rfl, hc⟩ := hdigits.head
      exact stops_sign hc
    obtain ⟨hok, hpast''⟩ := someDigits_complete err hpast'.rest hdigits hstops
    rw [if_pos hpeek]
    exact ⟨_, hok, (hpast.trans hpast').trans hpast''⟩

theorem number_sound (h : v.rest = utf8 s) (hok : v.number = .ok w) :
    ∃ r, Past v w r ∧ Number s r := by
  obtain ⟨t, hsigned, hsign⟩ := sign_sound h
  unfold Validator.number at hok
  rw [bind_ok_iff] at hok
  obtain ⟨v₁, hint, hok⟩ := hok
  rw [bind_ok_iff] at hok
  obtain ⟨v₂, hfrac, hexp⟩ := hok
  obtain ⟨u, hpast₁, hint'⟩ := intPart_sound hsigned.rest hint
  obtain ⟨x, hpast₂, hfrac'⟩ := fracPart_sound hpast₁.rest hfrac
  obtain ⟨r, hpast₃, hexp'⟩ := expPart_sound hpast₂.rest hexp
  exact ⟨r, ((hsigned.trans hpast₁).trans hpast₂).trans hpast₃, t, u, x, hsign, hint', hfrac',
    hexp'⟩

/-- A number is read to its end where no character after it could continue it. -/
theorem number_complete (h : v.rest = utf8 s) (hnumber : Number s r)
    (hr : JsonText.Stops JsonText.inNumber r) : ∃ w, v.number = .ok w ∧ Past v w r := by
  obtain ⟨t, u, x, hsign, hint, hfrac, hexp⟩ := hnumber
  have hx := hexp.stops hr
  have hu := hfrac.stops hx
  have ht : JsonText.Stops (· == '-') t := by
    obtain ⟨c, t', rfl, hc⟩ := hint.head
    intro c' t'' heq
    have hsigns := stops_sign hc c' t'' heq
    rw [Bool.or_eq_false_iff] at hsigns
    exact hsigns.2
  have hsigned := sign_complete h hsign ht
  obtain ⟨v₁, hok₁, hpast₁⟩ := intPart_complete (.invalidNumber v.pos) hsigned.rest hint hu
  obtain ⟨v₂, hok₂, hpast₂⟩ := fracPart_complete (.invalidNumber v.pos) hpast₁.rest hfrac hx
  obtain ⟨v₃, hok₃, hpast₃⟩ := expPart_complete (.invalidNumber v.pos) hpast₂.rest hexp hr
  refine ⟨v₃, ?_, ((hsigned.trans hpast₁).trans hpast₂).trans hpast₃⟩
  unfold Validator.number
  rw [bind_ok_iff]
  refine ⟨v₁, hok₁, ?_⟩
  rw [bind_ok_iff]
  exact ⟨v₂, hok₂, hok₃⟩

end Numbers

end ScpCore.Kel.ClientData
