import Mathlib

/-! Finite maps as association lists in ascending key order, with the
first-write-wins insertion of an entry API. Two maps built over one key set
are the same list, so equality of maps is equality of lists. -/

namespace ScpCore

abbrev OrderedMap (κ α : Type) := List (κ × α)

namespace OrderedMap

variable {κ α : Type} [DecidableEq κ] [LT κ] [DecidableRel (LT.lt : κ → κ → Prop)]

def get (m : OrderedMap κ α) (k : κ) : Option α := (m.find? (fun e => e.1 = k)).map Prod.snd

def contains (m : OrderedMap κ α) (k : κ) : Bool := m.any (fun e => e.1 = k)

/-- Places a fresh key before the first greater one. -/
def place (k : κ) (a : α) : OrderedMap κ α → OrderedMap κ α
  | [] => [(k, a)]
  | e :: m => if k < e.1 then (k, a) :: e :: m else e :: place k a m

/-- Keeps the value a key already has. -/
def orInsert (m : OrderedMap κ α) (k : κ) (a : α) : OrderedMap κ α :=
  if m.contains k then m else place k a m

/-- Enters each pair in turn. -/
def orInsertAll (m : OrderedMap κ α) (entries : List (κ × α)) : OrderedMap κ α :=
  entries.foldl (fun m e => m.orInsert e.1 e.2) m

omit [LT κ] [DecidableRel (LT.lt : κ → κ → Prop)] in
@[simp] theorem contains_iff (m : OrderedMap κ α) (k : κ) :
    m.contains k = true ↔ k ∈ m.map Prod.fst := by
  simp [contains]

omit [LT κ] [DecidableRel (LT.lt : κ → κ → Prop)] in
theorem contains_eq_false_iff (m : OrderedMap κ α) (k : κ) :
    m.contains k = false ↔ k ∉ m.map Prod.fst := by
  rw [← Bool.not_eq_true, contains_iff]

omit [LT κ] [DecidableRel (LT.lt : κ → κ → Prop)] in
theorem get_eq_none_iff (m : OrderedMap κ α) (k : κ) : m.get k = none ↔ k ∉ m.map Prod.fst := by
  simp only [get, Option.map_eq_none_iff, List.find?_eq_none, decide_eq_true_eq, List.mem_map,
    not_exists, not_and]

omit [LT κ] [DecidableRel (LT.lt : κ → κ → Prop)] in
theorem get_of_mem {m : OrderedMap κ α} (hnodup : (m.map Prod.fst).Nodup) {e : κ × α}
    (he : e ∈ m) : m.get e.1 = some e.2 := by
  cases hfind : m.find? (fun f => f.1 = e.1) with
  | none =>
    have hnone := List.find?_eq_none.mp hfind e he
    simp at hnone
  | some f =>
    have hkey : f.1 = e.1 := by simpa using List.find?_some hfind
    rw [get, hfind, List.inj_on_of_nodup_map hnodup (List.mem_of_find?_eq_some hfind) he hkey]
    rfl

omit [DecidableEq κ] in
theorem place_perm (k : κ) (a : α) (m : OrderedMap κ α) : (place k a m).Perm ((k, a) :: m) := by
  induction m with
  | nil => exact List.Perm.refl _
  | cons e m ih =>
    unfold place
    by_cases hk : k < e.1
    · rw [if_pos hk]
    · rw [if_neg hk]
      exact (List.Perm.cons e ih).trans (List.Perm.swap _ _ _)

theorem mem_keys_orInsert (m : OrderedMap κ α) (k : κ) (a : α) (j : κ) :
    j ∈ (m.orInsert k a).map Prod.fst ↔ j = k ∨ j ∈ m.map Prod.fst := by
  unfold orInsert
  by_cases hk : m.contains k = true
  · rw [if_pos hk]
    constructor
    · exact Or.inr
    · intro h
      rcases h with rfl | h
      · exact (contains_iff m j).mp hk
      · exact h
  · rw [if_neg hk, ((place_perm k a m).map Prod.fst).mem_iff]
    simp

theorem get_place (m : OrderedMap κ α) (k : κ) (a : α) (j : κ) (hk : k ∉ m.map Prod.fst) :
    (place k a m).get j = if j = k then some a else m.get j := by
  induction m with
  | nil => by_cases hj : j = k <;> simp [place, get, hj, eq_comm]
  | cons e m ih =>
    have hke : e.1 ≠ k := fun h => hk (by simp [h])
    have hkm : k ∉ m.map Prod.fst := fun h => hk (by simp [h])
    unfold place
    by_cases hlt : k < e.1
    · rw [if_pos hlt]
      by_cases hj : j = k
      · simp [get, hj]
      · simp [get, hj, Ne.symm hj]
    · rw [if_neg hlt]
      by_cases hj : e.1 = j
      · have hjk : j ≠ k := hj ▸ hke
        simp [get, hj, hjk]
      · have hrest : ∀ l : OrderedMap κ α, OrderedMap.get (e :: l) j = OrderedMap.get l j := by
          intro l
          simp [get, hj]
        rw [hrest, hrest, ih hkm]

/-- An insertion answers for its own key only where the map did not. -/
theorem get_orInsert (m : OrderedMap κ α) (k : κ) (a : α) (j : κ) :
    (m.orInsert k a).get j = if j = k then some ((m.get k).getD a) else m.get j := by
  unfold orInsert
  by_cases hk : m.contains k = true
  · rw [if_pos hk]
    by_cases hj : j = k
    · subst hj
      have hs : m.get j ≠ none := by
        intro hn
        exact (get_eq_none_iff m j).mp hn ((contains_iff m j).mp hk)
      obtain ⟨b, hb⟩ := Option.ne_none_iff_exists'.mp hs
      simp [hb]
    · simp [hj]
  · have hn : k ∉ m.map Prod.fst := fun h => hk ((contains_iff m k).mpr h)
    rw [if_neg hk, get_place m k a j hn, (get_eq_none_iff m k).mpr hn]
    rfl

theorem mem_keys_orInsertAll (m : OrderedMap κ α) (entries : List (κ × α)) (j : κ) :
    j ∈ (m.orInsertAll entries).map Prod.fst ↔ j ∈ m.map Prod.fst ∨ j ∈ entries.map Prod.fst := by
  unfold orInsertAll
  induction entries generalizing m with
  | nil => simp
  | cons e entries ih =>
    rw [List.foldl_cons, ih, mem_keys_orInsert, List.map_cons, List.mem_cons]
    tauto

/-- A key already present keeps its value, and a fresh one takes its first entry. -/
theorem get_orInsertAll (m : OrderedMap κ α) (entries : List (κ × α)) (j : κ) :
    (m.orInsertAll entries).get j = (m.get j).or (get entries j) := by
  unfold orInsertAll
  induction entries generalizing m with
  | nil => simp [get]
  | cons e entries ih =>
    rw [List.foldl_cons, ih, get_orInsert]
    by_cases hj : j = e.1
    · subst hj
      cases hm : m.get e.1 with
      | none => simp [get]
      | some a => simp
    · rw [if_neg hj]
      simp [get, Ne.symm hj]

theorem nodup_keys_orInsertAll (m : OrderedMap κ α) (entries : List (κ × α))
    (hm : (m.map Prod.fst).Nodup) : ((m.orInsertAll entries).map Prod.fst).Nodup := by
  unfold orInsertAll
  induction entries generalizing m with
  | nil => exact hm
  | cons e entries ih =>
    rw [List.foldl_cons]
    apply ih
    unfold orInsert
    by_cases hk : m.contains e.1 = true
    · rwa [if_pos hk]
    · have hn : e.1 ∉ m.map Prod.fst := fun h => hk ((contains_iff m e.1).mpr h)
      rw [if_neg hk, ((place_perm e.1 e.2 m).map Prod.fst).nodup_iff]
      exact List.nodup_cons.mpr ⟨hn, hm⟩

/-- Pairs that give a key no two values. -/
def Consistent (entries : List (κ × α)) : Prop := ∀ e ∈ entries, ∀ f ∈ entries, e.1 = f.1 → e = f

theorem mem_orInsert {m : OrderedMap κ α} {e : κ × α} (h : ∀ f ∈ m, f.1 = e.1 → f = e)
    (x : κ × α) : x ∈ m.orInsert e.1 e.2 ↔ x ∈ m ∨ x = e := by
  unfold orInsert
  by_cases hk : m.contains e.1 = true
  · rw [if_pos hk]
    obtain ⟨f, hf, hfe⟩ := List.mem_map.mp ((contains_iff m e.1).mp hk)
    rw [h f hf hfe] at hf
    constructor
    · exact Or.inl
    · intro hx
      rcases hx with hx | rfl
      · exact hx
      · exact hf
  · rw [if_neg hk, (place_perm e.1 e.2 m).mem_iff, List.mem_cons]
    tauto

theorem mem_orInsertAll {m : OrderedMap κ α} {entries : List (κ × α)}
    (h : Consistent (m ++ entries)) (x : κ × α) :
    x ∈ m.orInsertAll entries ↔ x ∈ m ∨ x ∈ entries := by
  induction entries generalizing m with
  | nil => simp [orInsertAll]
  | cons e entries ih =>
    have hstep := mem_orInsert (m := m) (e := e) (fun f hf hfe => h f (by simp [hf]) e (by simp) hfe)
    have hsub : ∀ a ∈ m.orInsert e.1 e.2 ++ entries, a ∈ m ++ e :: entries := by
      intro a ha
      rw [List.mem_append, hstep] at ha
      rw [List.mem_append, List.mem_cons]
      tauto
    have hrest := ih (fun a ha b hb => h a (hsub a ha) b (hsub b hb))
    rw [orInsertAll, List.foldl_cons, ← orInsertAll, hrest, hstep, List.mem_cons]
    tauto

/-- Consistent pairs are all entered, each once. -/
theorem orInsertAll_perm_dedup [DecidableEq α] {entries : List (κ × α)} (h : Consistent entries) :
    (orInsertAll ([] : OrderedMap κ α) entries).Perm entries.dedup := by
  have hnodup : (orInsertAll ([] : OrderedMap κ α) entries).Nodup :=
    List.Nodup.of_map Prod.fst (nodup_keys_orInsertAll [] entries List.nodup_nil)
  apply (List.perm_ext_iff_of_nodup hnodup (List.nodup_dedup entries)).mpr
  intro x
  rw [mem_orInsertAll (m := []) h, List.mem_dedup]
  simp

omit [DecidableEq κ] in
theorem filter_place (p : κ × α → Bool) (k : κ) (a : α) (h : p (k, a) = false)
    (m : OrderedMap κ α) : (place k a m).filter p = m.filter p := by
  induction m with
  | nil => simp [place, h]
  | cons e m ih =>
    unfold place
    by_cases hk : k < e.1
    · rw [if_pos hk, List.filter_cons_of_neg (by simp [h])]
    · rw [if_neg hk, List.filter_cons, List.filter_cons, ih]

/-- Entries outside a filter do not show through it. -/
theorem filter_orInsertAll (p : κ × α → Bool) (m : OrderedMap κ α) (entries : List (κ × α))
    (h : ∀ e ∈ entries, p e = false) : (m.orInsertAll entries).filter p = m.filter p := by
  induction entries generalizing m with
  | nil => rfl
  | cons e entries ih =>
    have hrest := ih (m.orInsert e.1 e.2) (fun f hf => h f (by simp [hf]))
    rw [orInsertAll, List.foldl_cons, ← orInsertAll, hrest]
    unfold orInsert
    by_cases hk : m.contains e.1 = true
    · rw [if_pos hk]
    · rw [if_neg hk]
      exact filter_place p e.1 e.2 (h e (by simp)) m

theorem mem_of_mem_orInsertAll {m : OrderedMap κ α} {entries : List (κ × α)} {x : κ × α}
    (h : x ∈ m.orInsertAll entries) : x ∈ m ∨ x ∈ entries := by
  induction entries generalizing m with
  | nil => exact .inl h
  | cons e entries ih =>
    rw [orInsertAll, List.foldl_cons, ← orInsertAll] at h
    rcases ih h with hx | hx
    · unfold orInsert at hx
      by_cases hk : m.contains e.1 = true
      · rw [if_pos hk] at hx
        exact .inl hx
      · rw [if_neg hk, (place_perm e.1 e.2 m).mem_iff, List.mem_cons] at hx
        rcases hx with rfl | hx
        · exact .inr List.mem_cons_self
        · exact .inl hx
    · exact .inr (List.mem_cons_of_mem _ hx)

end OrderedMap

end ScpCore
