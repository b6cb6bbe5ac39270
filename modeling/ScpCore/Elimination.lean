import Mathlib

/-! Elimination over a relation `beats`. A run takes a pair in which one item beats the
other and drops the beaten one, until no such pair is left. Which items are left depends
on the pairs it takes, unless every beaten item is beaten by an unbeaten one. -/

namespace ScpCore

variable {α : Type} (beats : α → α → Prop)

/-- The pairs are taken in any order. -/
inductive Eliminates : Set α → Set α → Prop
  | done (s : Set α) : Eliminates s s
  | drop {s t : Set α} {a b : α} : a ∈ s → b ∈ s → beats a b → Eliminates (s \ {b}) t →
      Eliminates s t

def Unbeaten (s : Set α) (a : α) : Prop := a ∈ s ∧ ∀ b ∈ s, ¬ beats b a

/-- Every beaten item is beaten by an unbeaten one. -/
def Grounded (s : Set α) : Prop :=
  ∀ a ∈ s, (∃ b ∈ s, beats b a) → ∃ b, Unbeaten beats s b ∧ beats b a

/-- The items kept by a scan: those that no kept item beats. -/
def IsKept (s kept : Set α) : Prop := ∀ a, a ∈ kept ↔ a ∈ s ∧ ∀ b ∈ kept, ¬ beats b a

variable {beats}

theorem Eliminates.subset {s t : Set α} (h : Eliminates beats s t) : t ⊆ s := by
  induction h with
  | done s => exact subset_rfl
  | drop _ _ _ _ ih => exact ih.trans Set.sdiff_subset

/-- An unbeaten item is never dropped. -/
theorem Eliminates.unbeaten_mem {s t : Set α} (h : Eliminates beats s t) {a : α}
    (ha : Unbeaten beats s a) : a ∈ t := by
  induction h with
  | done s => exact ha.1
  | drop hw hl hbeats _ ih =>
    rename_i s t w l _
    have hne : a ≠ l := by
      rintro rfl
      exact ha.2 w hw hbeats
    exact ih ⟨⟨ha.1, hne⟩, fun b hb => ha.2 b hb.1⟩

/-- Over a grounded relation every complete run leaves exactly the unbeaten items. -/
theorem Grounded.eliminates_iff {s t : Set α} (hs : Grounded beats s) (h : Eliminates beats s t)
    (hdone : ∀ a ∈ t, ∀ b ∈ t, ¬ beats a b) (a : α) : a ∈ t ↔ Unbeaten beats s a := by
  constructor
  · intro ha
    refine ⟨h.subset ha, ?_⟩
    intro b hb hbeats
    obtain ⟨c, hc, hca⟩ := hs a (h.subset ha) ⟨b, hb, hbeats⟩
    exact hdone c (h.unbeaten_mem hc) a ha hca
  · exact h.unbeaten_mem

theorem Grounded.kept_iff {s kept : Set α} (hs : Grounded beats s) (h : IsKept beats s kept)
    (a : α) : a ∈ kept ↔ Unbeaten beats s a := by
  have hunbeaten : ∀ {b}, Unbeaten beats s b → b ∈ kept := by
    intro b hb
    exact (h b).mpr ⟨hb.1, fun c hc => hb.2 c ((h c).mp hc).1⟩
  constructor
  · intro ha
    refine ⟨((h a).mp ha).1, ?_⟩
    intro b hb hbeats
    obtain ⟨c, hc, hca⟩ := hs a ((h a).mp ha).1 ⟨b, hb, hbeats⟩
    exact ((h a).mp ha).2 c (hunbeaten hc) hca
  · exact hunbeaten

/-- A scan that keeps no beaten item grounds the relation. -/
theorem IsKept.grounded {s kept : Set α} (h : IsKept beats s kept)
    (hkept : ∀ a ∈ kept, ∀ b ∈ s, ¬ beats b a) : Grounded beats s := by
  intro a ha hbeaten
  obtain ⟨b, hb, hba⟩ := hbeaten
  have hout : a ∉ kept := fun hmem => hkept a hmem b hb hba
  have hblocked : ∃ c ∈ kept, beats c a := by
    by_contra hnone
    simp only [not_exists, not_and] at hnone
    exact hout ((h a).mpr ⟨ha, hnone⟩)
  obtain ⟨c, hc, hca⟩ := hblocked
  exact ⟨c, ⟨((h c).mp hc).1, hkept c hc⟩, hca⟩

end ScpCore
