import Mathlib

/-! Decimal numbers in text keys. Padded to a fixed width they are ordered as text the way
they are ordered as numbers, which a store that lists its keys in order can use. -/

namespace ScpCore

/-- The last `width` decimal digits, with leading zeros. -/
def padded : ℕ → ℕ → List Char
  | 0, _ => []
  | width+1, n => padded width (n/10) ++ [Nat.digitChar (n%10)]

/-- The value of a string of decimal digits. -/
def decimal (digits : List Char) : ℕ := digits.foldl (fun n c => 10*n+(c.toNat - '0'.toNat)) 0

/-- `str::parse::<u64>`: one leading plus is allowed. -/
def parseU64 (text : List Char) : Option ℕ :=
  let digits := if text.head? = some '+' then text.tail else text
  if !digits.isEmpty && digits.all Char.isDigit && decimal digits ≤ 2^64-1 then
    some (decimal digits)
  else none

/-- The texts before and after the last slash. -/
def rsplitOnce (text : List Char) : Option (List Char × List Char) :=
  if '/' ∈ text then
    some ((text.reverse.dropWhile (· ≠ '/')).tail.reverse, (text.reverse.takeWhile (· ≠ '/')).reverse)
  else none

theorem rsplitOnce_append {a b : List Char} (hb : '/' ∉ b) :
    rsplitOnce (a ++ '/' :: b) = some (a, b) := by
  have hmem : '/' ∈ a ++ '/' :: b := by simp
  have hall : ∀ c ∈ b.reverse, decide (c ≠ '/') = true := by
    intro c hc
    rw [decide_eq_true_eq]
    rintro rfl
    exact hb (List.mem_reverse.mp hc)
  have hrev : (a ++ '/' :: b).reverse = b.reverse ++ '/' :: a.reverse := by simp
  unfold rsplitOnce
  rw [if_pos hmem, hrev, List.dropWhile_append_of_pos hall, List.takeWhile_append_of_pos hall]
  simp

theorem rsplitOnce_eq_some {text a b : List Char} (h : rsplitOnce text = some (a, b)) :
    text = a ++ '/' :: b ∧ '/' ∉ b := by
  have hmem : '/' ∈ text := by
    by_contra hn
    simp [rsplitOnce, hn] at h
  obtain ⟨front, back, hsplit, hback⟩ : ∃ front back, text = front ++ '/' :: back ∧ '/' ∉ back := by
    obtain ⟨back, front, hrev, hback⟩ := List.eq_append_cons_of_mem (List.mem_reverse.mpr hmem)
    refine ⟨front.reverse, back.reverse, ?_, by simpa using hback⟩
    rw [← List.reverse_reverse text, hrev]
    simp
  rw [hsplit, rsplitOnce_append hback, Option.some.injEq, Prod.mk.injEq] at h
  obtain ⟨rfl, rfl⟩ := h
  exact ⟨hsplit, hback⟩

@[simp] theorem length_padded (width n : ℕ) : (padded width n).length = width := by
  induction width generalizing n with
  | zero => rfl
  | succ width ih => simp [padded, ih]

theorem isDigit_digitChar {n : ℕ} (h : n < 10) : (Nat.digitChar n).isDigit = true := by
  revert n
  decide

theorem digitChar_lt {m n : ℕ} (hmn : m < n) (hn : n < 10) : Nat.digitChar m < Nat.digitChar n := by
  have hall : ∀ n < 10, ∀ m < n, Nat.digitChar m < Nat.digitChar n := by decide
  exact hall n hn m hmn

theorem digitChar_toNat {n : ℕ} (h : n < 10) : (Nat.digitChar n).toNat - '0'.toNat = n := by
  revert n
  decide

theorem all_isDigit_padded (width n : ℕ) : (padded width n).all Char.isDigit = true := by
  induction width generalizing n with
  | zero => rfl
  | succ width ih =>
    rw [padded, List.all_append, ih, Bool.true_and]
    simp [isDigit_digitChar (Nat.mod_lt n (by decide : 0 < 10))]

theorem slash_not_mem {digits : List Char} (h : digits.all Char.isDigit = true) : '/' ∉ digits := by
  intro hmem
  exact absurd (List.all_eq_true.mp h '/' hmem) (by decide)

theorem decimal_append (digits : List Char) (c : Char) :
    decimal (digits ++ [c]) = 10*decimal digits+(c.toNat - '0'.toNat) := by
  simp [decimal]

theorem decimal_padded (width n : ℕ) : decimal (padded width n) = n%10^width := by
  induction width generalizing n with
  | zero => simp [padded, decimal, Nat.mod_one]
  | succ width ih =>
    rw [padded, decimal_append, ih, digitChar_toNat (Nat.mod_lt n (by decide)), pow_succ,
      Nat.mul_comm (10^width) 10, Nat.mod_mul]
    omega

/-- Text that is smaller within a common length stays so, whatever follows. -/
theorem append_lt_append {a b : List Char} (hlen : a.length = b.length) (h : a < b)
    (s t : List Char) : a ++ s < b ++ t := by
  induction a generalizing b with
  | nil =>
    rw [List.length_nil] at hlen
    rw [List.eq_nil_of_length_eq_zero hlen.symm] at h
    exact absurd h (lt_irrefl _)
  | cons x a ih =>
    cases b with
    | nil => simp at hlen
    | cons y b =>
      rw [List.cons_lt_cons_iff] at h
      rw [List.cons_append, List.cons_append, List.cons_lt_cons_iff]
      rcases h with hlt | ⟨hxy, hab⟩
      · exact Or.inl hlt
      · exact Or.inr ⟨hxy, ih (by simpa using hlen) hab⟩

theorem padded_lt {width m n : ℕ} (hmn : m < n) (hn : n < 10^width) :
    padded width m < padded width n := by
  induction width generalizing m n with
  | zero => omega
  | succ width ih =>
    have hdiv : n/10 < 10^width := by
      apply Nat.div_lt_of_lt_mul
      rwa [← Nat.pow_succ']
    rw [padded, padded]
    by_cases hq : m/10 < n/10
    · exact append_lt_append (by simp) (ih hq hdiv) _ _
    · -- The last digit decides between numbers that agree before it.
      have heq : m/10 = n/10 := by omega
      rw [heq]
      apply List.append_left_lt
      apply List.cons_lt_cons_iff.mpr
      exact Or.inl (digitChar_lt (by omega) (Nat.mod_lt n (by decide)))

theorem parseU64_padded {n : ℕ} (h : n ≤ 2^64-1) : parseU64 (padded 20 n) = some n := by
  have hdec : decimal (padded 20 n) = n := by
    rw [decimal_padded]
    apply Nat.mod_eq_of_lt
    omega
  have hne : (padded 20 n).isEmpty = false := by
    rw [List.isEmpty_eq_false_iff, ← List.length_pos_iff, length_padded]
    decide
  have hplus : (padded 20 n).head? ≠ some '+' := by
    intro hhead
    have hmem : '+' ∈ padded 20 n := List.mem_of_mem_head? hhead
    exact absurd (List.all_eq_true.mp (all_isDigit_padded 20 n) '+' hmem) (by decide)
  unfold parseU64
  rw [if_neg hplus]
  simp only [hne, all_isDigit_padded, hdec, h]
  rfl

end ScpCore
