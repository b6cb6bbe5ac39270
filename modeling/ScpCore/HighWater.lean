import Mathlib

/-! High-water marks: a map from keys to the greatest value seen for each. An absent
mark is below every value, so the marks form a lattice under pointwise comparison, and
raising them by a list of values joins that list's own marks into them. -/

namespace ScpCore

variable {κ α : Type} [DecidableEq κ] [LinearOrder α]

abbrev Marks (κ α : Type) := κ → Option α

namespace Marks

def empty : Marks κ α := fun _ => none

def insert (m : Marks κ α) (k : κ) (a : α) : Marks κ α := Function.update m k (some a)

/-- Keeps the greater of the mark and the value; a fresh key takes the value. -/
def raise (m : Marks κ α) (e : κ × α) : Marks κ α :=
  m.insert e.1 ((m e.1).elim e.2 (fun cur => max cur e.2))

def raiseAll (m : Marks κ α) (entries : List (κ × α)) : Marks κ α := entries.foldl raise m

/-- The marks as points of a lattice. -/
def level (m : Marks κ α) (k : κ) : WithBot α := (m k).elim ⊥ (fun a => (a : WithBot α))

/-- The greatest value that a list has for a key. -/
def highest (entries : List (κ × α)) (k : κ) : WithBot α :=
  ((entries.filter (fun e => e.1 = k)).map Prod.snd).maximum

theorem highest_cons (e : κ × α) (entries : List (κ × α)) :
    highest (e :: entries) = Function.update ⊥ e.1 (e.2 : WithBot α) ⊔ highest entries := by
  funext j
  rw [Pi.sup_apply]
  unfold highest
  by_cases hj : j = e.1
  · subst hj
    rw [List.filter_cons_of_pos (by simp), List.map_cons, List.maximum_cons, Function.update_self]
  · rw [List.filter_cons_of_neg (by simpa using Ne.symm hj), Function.update_of_ne hj,
      Pi.bot_apply, bot_sup_eq]

omit [LinearOrder α] in
theorem level_insert (m : Marks κ α) (k : κ) (a : α) :
    (m.insert k a).level = Function.update m.level k (a : WithBot α) := by
  funext j
  by_cases hj : j = k
  · subst hj
    simp [level, insert]
  · simp [level, insert, Function.update_of_ne hj]

theorem level_raise (m : Marks κ α) (e : κ × α) :
    (m.raise e).level = m.level ⊔ Function.update ⊥ e.1 (e.2 : WithBot α) := by
  unfold raise
  rw [level_insert]
  funext j
  rw [Pi.sup_apply]
  by_cases hj : j = e.1
  · subst hj
    rw [Function.update_self, Function.update_self]
    unfold level
    cases hm : m e.1 with
    | none => simp
    | some cur => simp [WithBot.coe_sup]
  · rw [Function.update_of_ne hj, Function.update_of_ne hj]
    simp

theorem raiseAll_cons (m : Marks κ α) (e : κ × α) (entries : List (κ × α)) :
    m.raiseAll (e :: entries) = (m.raise e).raiseAll entries := rfl

/-- What a list adds to the marks does not depend on the marks. -/
theorem level_raiseAll (m : Marks κ α) (entries : List (κ × α)) :
    (m.raiseAll entries).level = m.level ⊔ highest entries := by
  induction entries generalizing m with
  | nil =>
    have hnone : highest ([] : List (κ × α)) = ⊥ := rfl
    rw [hnone, sup_bot_eq]
    rfl
  | cons e entries ih => rw [raiseAll_cons, ih, level_raise, highest_cons, sup_assoc]

theorem le_highest {entries : List (κ × α)} {k : κ} {a : α} (h : (k, a) ∈ entries) :
    (a : WithBot α) ≤ highest entries k := by
  unfold highest
  apply List.le_maximum_of_mem'
  exact List.mem_map.mpr ⟨(k, a), List.mem_filter.mpr ⟨h, by simp⟩, rfl⟩

end Marks

end ScpCore
