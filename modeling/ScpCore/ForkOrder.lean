import Mathlib

/-! Branches of a tree, ordered by what they carry past their fork. An element
of a branch may bear a label; of two branches that fork, the one whose first
label past the fork is lower beats the other, and a branch lies below each of
its extensions. Together the two relations are one partial order, so a finite
set of branches is decided by its maximal elements alone. -/

namespace ScpCore

section Shared
variable {δ : Type*} [DecidableEq δ]

/-- How many leading elements two lists share. -/
def sharedLen : List δ → List δ → ℕ
  | x :: a, y :: b => if x = y then sharedLen a b+1 else 0
  | _, _ => 0

@[simp] theorem sharedLen_nil (b : List δ) : sharedLen [] b = 0 := by
  cases b <;> rfl

@[simp] theorem sharedLen_nil_right (a : List δ) : sharedLen a [] = 0 := by
  cases a <;> rfl

theorem sharedLen_cons (x y : δ) (a b : List δ) :
    sharedLen (x :: a) (y :: b) = if x = y then sharedLen a b+1 else 0 := rfl

theorem sharedLen_comm (a b : List δ) : sharedLen a b = sharedLen b a := by
  induction a generalizing b with
  | nil => simp
  | cons x a ih =>
    cases b with
    | nil => simp
    | cons y b =>
      simp only [sharedLen_cons, ih b, eq_comm]

theorem sharedLen_le (a b : List δ) : sharedLen a b ≤ a.length := by
  induction a generalizing b with
  | nil => simp
  | cons x a ih =>
    cases b with
    | nil => simp
    | cons y b =>
      have h := ih b
      rw [sharedLen_cons, List.length_cons]
      split_ifs <;> omega

theorem take_sharedLen (a b : List δ) : a.take (sharedLen a b) = b.take (sharedLen a b) := by
  induction a generalizing b with
  | nil => simp
  | cons x a ih =>
    cases b with
    | nil => simp
    | cons y b =>
      rw [sharedLen_cons]
      by_cases hxy : x = y
      · rw [if_pos hxy, List.take_succ_cons, List.take_succ_cons, ih b, hxy]
      · rw [if_neg hxy, List.take_zero, List.take_zero]

/-- A common prefix is no longer than the shared one. -/
theorem le_sharedLen {a b : List δ} {n : ℕ} (ha : n ≤ a.length) (h : a.take n <+: b) :
    n ≤ sharedLen a b := by
  induction a generalizing b n with
  | nil =>
    rw [List.length_nil] at ha
    omega
  | cons x a ih =>
    cases n with
    | zero => omega
    | succ n =>
      obtain ⟨t, rfl⟩ := h
      rw [List.take_succ_cons, List.cons_append, sharedLen_cons, if_pos rfl]
      rw [List.length_cons] at ha
      have hn := ih (by omega : n ≤ a.length) (List.prefix_append (a.take n) t)
      omega

theorem sharedLen_eq_length_iff (a b : List δ) : sharedLen a b = a.length ↔ a <+: b := by
  constructor
  · intro h
    have ht := take_sharedLen a b
    rw [h, List.take_length] at ht
    rw [ht]
    exact List.take_prefix _ _
  · intro h
    have hle := sharedLen_le a b
    have hge : a.length ≤ sharedLen a b := by
      apply le_sharedLen le_rfl
      rwa [List.take_length]
    omega

/-- Where `p` does not lead `x`, what `p` is extended by is not shared with `x`. -/
theorem sharedLen_eq_left {x p q : List δ} (hpq : p <+: q) (h : ¬ p <+: x) :
    sharedLen x q = sharedLen x p := by
  induction p generalizing x q with
  | nil => exact absurd (List.nil_prefix) h
  | cons a p ih =>
    obtain ⟨r, rfl⟩ := hpq
    cases x with
    | nil => simp
    | cons c x =>
      rw [List.cons_append, sharedLen_cons, sharedLen_cons]
      by_cases hc : c = a
      · subst hc
        have hp : ¬ p <+: x := fun hp => h (List.cons_prefix_cons.mpr ⟨rfl, hp⟩)
        rw [if_pos rfl, if_pos rfl, ih (List.prefix_append p r) hp]
      · rw [if_neg hc, if_neg hc]

end Shared

section Labels
variable {δ ρ : Type*} [LinearOrder ρ] [OrderTop ρ] (label : δ → ρ)

/-- The first label a list bears; `⊤` marks an element that bears none. -/
def firstLabel : List δ → ρ
  | [] => ⊤
  | x :: a => if label x = ⊤ then firstLabel a else label x

theorem firstLabel_append (a b : List δ) :
    firstLabel label (a++b) = if firstLabel label a = ⊤ then firstLabel label b
      else firstLabel label a := by
  induction a with
  | nil => simp [firstLabel]
  | cons x a ih =>
    by_cases hx : label x = ⊤
    · simp only [List.cons_append, firstLabel, if_pos hx, ih]
    · simp only [List.cons_append, firstLabel, if_neg hx]

/-- An extension bears a lower first label or the same one. -/
theorem firstLabel_append_le (a b : List δ) :
    firstLabel label (a++b) ≤ firstLabel label a := by
  rw [firstLabel_append]
  split_ifs with h
  · rw [h]
    exact le_top
  · exact le_rfl

end Labels

section Order
variable {δ ρ : Type*} [DecidableEq δ] [LinearOrder ρ] [OrderTop ρ] (label : δ → ρ)

/-- `a` beats `b`: they fork, and past the fork `a` bears the lower first label. -/
def Beats (a b : List δ) : Prop :=
  ¬ a <+: b ∧ ¬ b <+: a ∧
    firstLabel label (a.drop (sharedLen a b)) < firstLabel label (b.drop (sharedLen a b))

instance (a b : List δ) : Decidable (Beats label a b) := by unfold Beats; infer_instance

section Extend
variable {label}

/-- Extending a list past where it parts from `x` only lowers its first label there. -/
theorem firstLabel_drop_le {x p q : List δ} (hpq : p <+: q) :
    firstLabel label (q.drop (sharedLen x p)) ≤ firstLabel label (p.drop (sharedLen x p)) := by
  obtain ⟨r, rfl⟩ := hpq
  have hle : sharedLen x p ≤ p.length := by
    rw [sharedLen_comm]
    exact sharedLen_le p x
  rw [List.drop_append_of_le_length hle]
  exact firstLabel_append_le label _ _

/-- What beats a list's extension beats the list, unless the list leads it. -/
theorem Beats.of_extended {x p q : List δ} (hpq : p <+: q) (hxp : ¬ p <+: x)
    (h : Beats label x q) : Beats label x p := by
  refine ⟨fun hp => h.1 (hp.trans hpq), hxp, ?_⟩
  have hlt := h.2.2
  rw [sharedLen_eq_left hpq hxp] at hlt
  exact hlt.trans_le (firstLabel_drop_le hpq)

/-- A list's extension beats what the list beats. -/
theorem Beats.extend {x p q : List δ} (hpq : p <+: q) (h : Beats label p x) :
    Beats label q x := by
  refine ⟨fun hp => h.1 (hpq.trans hp), ?_, ?_⟩
  · intro hx
    -- Two prefixes of one list lead one another.
    rcases List.prefix_or_prefix_of_prefix hx hpq with hxp | hpx
    · exact h.2.1 hxp
    · exact h.1 hpx
  · have hlt := h.2.2
    rw [sharedLen_comm] at hlt ⊢
    rw [sharedLen_eq_left hpq h.1]
    exact (firstLabel_drop_le hpq).trans_lt hlt
end Extend

/-- `a` is a proper prefix of `b`, or `b` beats it, read off from the front. -/
def Below : List δ → List δ → Prop
  | [], [] => False
  | [], _ :: _ => True
  | _ :: _, [] => False
  | x :: a, y :: b =>
    if x = y then Below a b else firstLabel label (y :: b) < firstLabel label (x :: a)

theorem below_iff (a b : List δ) :
    Below label a b ↔ (a <+: b ∧ a ≠ b) ∨ Beats label b a := by
  induction a generalizing b with
  | nil => cases b <;> simp [Below, Beats]
  | cons x a ih =>
    cases b with
    | nil => simp [Below, Beats]
    | cons y b =>
      by_cases hxy : x = y
      · subst hxy
        simp only [Below, if_true, ih b, Beats, sharedLen_cons, List.cons_prefix_cons, true_and,
          List.drop_succ_cons, ne_eq, List.cons.injEq]
      · have hyx : y ≠ x := fun h => hxy h.symm
        simp only [Below, Beats, sharedLen_cons, List.cons_prefix_cons, hxy, hyx, if_false, false_and,
          not_false_eq_true, true_and, List.drop_zero, false_or]

theorem firstLabel_le_of_below {a b : List δ} (h : Below label a b) :
    firstLabel label b ≤ firstLabel label a := by
  induction a generalizing b with
  | nil => exact le_top
  | cons x a ih =>
    cases b with
    | nil => exact absurd h id
    | cons y b =>
      by_cases hxy : x = y
      · subst hxy
        simp only [Below, if_true] at h
        simp only [firstLabel]
        split_ifs
        · exact ih h
        · exact le_rfl
      · simp only [Below, if_neg hxy] at h
        exact h.le

theorem below_of_firstLabel_lt {a b : List δ} (h : firstLabel label b < firstLabel label a) :
    Below label a b := by
  induction a generalizing b with
  | nil =>
    cases b with
    | nil => exact absurd h (lt_irrefl _)
    | cons y b => trivial
  | cons x a ih =>
    cases b with
    | nil => exact absurd h (not_lt_of_ge le_top)
    | cons y b =>
      by_cases hxy : x = y
      · subst hxy
        simp only [Below, if_true]
        -- A label of the common element would be the first one of both.
        by_cases hx : label x = ⊤
        · apply ih
          simpa only [firstLabel, if_pos hx] using h
        · simp only [firstLabel, if_neg hx, lt_self_iff_false] at h
      · simpa only [Below, if_neg hxy] using h

theorem below_irrefl (a : List δ) : ¬ Below label a a := by
  induction a with
  | nil => exact id
  | cons x a ih => simpa only [Below, if_true] using ih

/-- The case that is not a common front element is decided by first labels alone. -/
theorem below_trans {a b c : List δ} (hab : Below label a b) (hbc : Below label b c) :
    Below label a c := by
  induction a generalizing b c with
  | nil =>
    cases c with
    | nil =>
      cases b with
      | nil => exact hab
      | cons y b => exact hbc
    | cons z c => trivial
  | cons x a ih =>
    cases b with
    | nil => exact absurd hab id
    | cons y b =>
      cases c with
      | nil => exact absurd hbc id
      | cons z c =>
        have hle := firstLabel_le_of_below label hab
        have hle' := firstLabel_le_of_below label hbc
        by_cases hxy : x = y
        · by_cases hyz : y = z
          · subst hxy hyz
            simp only [Below, if_true] at hab hbc ⊢
            exact ih hab hbc
          · simp only [Below, if_neg hyz] at hbc
            exact below_of_firstLabel_lt label (lt_of_lt_of_le hbc hle)
        · simp only [Below, if_neg hxy] at hab
          exact below_of_firstLabel_lt label (lt_of_le_of_lt hle' hab)

end Order

/-- A branch of a tree, its elements from the root on. -/
@[ext]
structure Branch {δ ρ : Type*} (label : δ → ρ) where
  elements : List δ

namespace Branch
variable {δ ρ : Type*} [DecidableEq δ] [LinearOrder ρ] [OrderTop ρ] {label : δ → ρ}

instance : PartialOrder (Branch label) where
  le a b := a.elements <+: b.elements ∨ Beats label b.elements a.elements
  le_refl a := Or.inl List.prefix_rfl
  le_trans a b c hab hbc := by
    have hweak : ∀ x y : Branch label,
        x.elements <+: y.elements ∨ Beats label y.elements x.elements →
          x = y ∨ Below label x.elements y.elements := by
      intro x y h
      rw [below_iff]
      by_cases he : x.elements = y.elements
      · exact Or.inl (Branch.ext he)
      · exact Or.inr (h.imp_left (fun hp => ⟨hp, he⟩))
    obtain rfl | hab' := hweak a b hab
    · exact hbc
    · obtain rfl | hbc' := hweak b c hbc
      · exact hab
      · exact ((below_iff label _ _).mp (below_trans label hab' hbc')).imp_left And.left
  le_antisymm a b hab hba := by
    by_contra hne
    have he : a.elements ≠ b.elements := fun h => hne (Branch.ext h)
    have h₁ := (below_iff label a.elements b.elements).mpr (hab.imp_left (fun h => ⟨h, he⟩))
    have h₂ := (below_iff label b.elements a.elements).mpr (hba.imp_left (fun h => ⟨h, he.symm⟩))
    exact below_irrefl label _ (below_trans label h₁ h₂)

theorem le_iff {a b : Branch label} :
    a ≤ b ↔ a.elements <+: b.elements ∨ Beats label b.elements a.elements := Iff.rfl

theorem le_of_prefix {a b : Branch label} (h : a.elements <+: b.elements) : a ≤ b := Or.inl h

theorem le_of_beats {a b : Branch label} (h : Beats label b.elements a.elements) : a ≤ b :=
  Or.inr h

/-- A branch that lies below another of which it is no prefix is beaten by it. -/
theorem beats_of_le {a b : Branch label} (h : a ≤ b) (hp : ¬ a.elements <+: b.elements) :
    Beats label b.elements a.elements := (le_iff.mp h).resolve_left hp

theorem lt_of_beats {a b : Branch label} (h : Beats label b.elements a.elements) : a < b := by
  apply lt_of_le_of_ne (le_of_beats h)
  rintro rfl
  exact h.1 List.prefix_rfl

end Branch

section Cofinal
variable {α : Type*} [PartialOrder α]

/-- Two sets each of which is covered by the other. -/
def SameTop (s t : Set α) : Prop := IsCofinalFor s t ∧ IsCofinalFor t s

theorem SameTop.symm {s t : Set α} (h : SameTop s t) : SameTop t s := ⟨h.2, h.1⟩

theorem SameTop.trans {s t u : Set α} (h : SameTop s t) (h' : SameTop t u) : SameTop s u :=
  ⟨h.1.trans h'.1, h'.2.trans h.2⟩

theorem SameTop.refl (s : Set α) : SameTop s s := ⟨IsCofinalFor.rfl, IsCofinalFor.rfl⟩

theorem SameTop.of_subset {s t : Set α} (h : s ⊆ t) (hc : IsCofinalFor t s) : SameTop t s :=
  ⟨hc, IsCofinalFor.of_subset h⟩

theorem SameTop.union {s t s' t' : Set α} (h : SameTop s t) (h' : SameTop s' t') :
    SameTop (s ∪ s') (t ∪ t') := by
  have hc : ∀ {p q p' q' : Set α}, IsCofinalFor p q → IsCofinalFor p' q' →
      IsCofinalFor (p ∪ p') (q ∪ q') := by
    intro p q p' q' hp hp' a ha
    rcases ha with ha | ha
    · obtain ⟨b, hb, hab⟩ := hp ha
      exact ⟨b, Or.inl hb, hab⟩
    · obtain ⟨b, hb, hab⟩ := hp' ha
      exact ⟨b, Or.inr hb, hab⟩
  exact ⟨hc h.1 h'.1, hc h.2 h'.2⟩

/-- Sets that cover each other have the same maximal elements. -/
theorem SameTop.maximal {s t : Set α} (h : SameTop s t) {m : α} (hm : Maximal (· ∈ s) m) :
    Maximal (· ∈ t) m := by
  obtain ⟨b, hb, hmb⟩ := h.1 hm.prop
  obtain ⟨c, hc, hbc⟩ := h.2 hb
  have hcm := hm.le_of_ge hc (hmb.trans hbc)
  have hbm : b = m := le_antisymm (hbc.trans hcm) hmb
  rw [← hbm]
  refine ⟨hb, ?_⟩
  intro d hd hbd
  obtain ⟨e, he, hde⟩ := h.2 hd
  exact hde.trans ((hm.le_of_ge he ((hmb.trans hbd).trans hde)).trans hmb)

theorem SameTop.maximal_iff {s t : Set α} (h : SameTop s t) (m : α) :
    Maximal (· ∈ s) m ↔ Maximal (· ∈ t) m := ⟨h.maximal, h.symm.maximal⟩

end Cofinal

end ScpCore
