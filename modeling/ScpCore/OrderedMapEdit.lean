import ScpCore.OrderedMap

/-! Removing and rewriting entries of an ordered map, and rewriting all of them in key
order with a running index. What a lookup finds afterwards. -/

namespace ScpCore.OrderedMap

section Edit
variable {κ α : Type} [DecidableEq κ]

def removeKey (m : OrderedMap κ α) (k : κ) : OrderedMap κ α := m.filter (·.1 ≠ k)

def adjust (m : OrderedMap κ α) (k : κ) (f : α → α) : OrderedMap κ α :=
  m.map (fun e => if e.1 = k then (e.1, f e.2) else e)

/-- Rewrites every value, the `i`-th entry with `f (n+i)`. -/
def mapFrom (f : ℕ → α → α) : ℕ → OrderedMap κ α → OrderedMap κ α
  | _, [] => []
  | n, e :: m => (e.1, f n e.2) :: mapFrom f (n+1) m

/-- Where a key stands in the order of the map. -/
def position (m : OrderedMap κ α) (k : κ) : ℕ := m.findIdx (·.1 = k)

theorem get_cons (e : κ × α) (m : OrderedMap κ α) (j : κ) :
    get (e :: m) j = if e.1 = j then some e.2 else get m j := by
  unfold get
  by_cases h : e.1 = j
  · simp [h]
  · simp [h]

theorem get_removeKey (m : OrderedMap κ α) (k j : κ) :
    get (removeKey m k) j = if j = k then none else m.get j := by
  induction m with
  | nil => simp [removeKey, get]
  | cons e m ih =>
    have hcons : removeKey (e :: m) k = if e.1 = k then removeKey m k else e :: removeKey m k := by
      by_cases h : e.1 = k <;> simp [removeKey, h]
    rw [hcons, get_cons]
    by_cases h : e.1 = k
    · rw [if_pos h, ih]
      by_cases hj : j = k
      · rw [if_pos hj, if_pos hj]
      · rw [if_neg hj, if_neg hj, if_neg (fun hej => hj (hej.symm.trans h))]
    · rw [if_neg h, get_cons, ih]
      by_cases hj : j = k
      · have hej : e.1 ≠ j := fun hej => h (hej.trans hj)
        rw [if_neg hej, if_pos hj, if_pos hj]
      · rw [if_neg hj, if_neg hj]

theorem get_adjust (m : OrderedMap κ α) (k : κ) (f : α → α) (j : κ) :
    get (adjust m k f) j = if j = k then (m.get k).map f else m.get j := by
  induction m with
  | nil => simp [adjust, get]
  | cons e m ih =>
    have hcons : adjust (e :: m) k f =
        (if e.1 = k then (e.1, f e.2) else e) :: adjust m k f := rfl
    rw [hcons, get_cons, get_cons, get_cons, ih]
    by_cases h : e.1 = k
    · by_cases hj : j = k
      · simp [h, hj]
      · have hkj : k ≠ j := fun hkj => hj hkj.symm
        simp [h, hj, hkj]
    · by_cases hj : j = k
      · simp [h, hj]
      · simp [h, hj]

theorem get_map (m : OrderedMap κ α) (f : α → α) (j : κ) :
    get (m.map (fun e => (e.1, f e.2))) j = (m.get j).map f := by
  induction m with
  | nil => rfl
  | cons e m ih =>
    rw [List.map_cons, get_cons, get_cons, ih]
    by_cases h : e.1 = j
    · rw [if_pos h, if_pos h, Option.map_some]
    · rw [if_neg h, if_neg h]

theorem get_mapFrom (f : ℕ → α → α) (n : ℕ) (m : OrderedMap κ α) (j : κ) :
    (mapFrom f n m).get j = (m.get j).map (f (n+m.position j)) := by
  induction m generalizing n with
  | nil => rfl
  | cons e m ih =>
    rw [mapFrom, get_cons, get_cons, ih]
    by_cases h : e.1 = j
    · simp [h, position, List.findIdx_cons]
    · have hpos : position (e :: m) j = position m j+1 := by
        simp [position, List.findIdx_cons, h]
      rw [if_neg h, if_neg h, hpos, Nat.add_right_comm, Nat.add_assoc]

theorem position_lt {m : OrderedMap κ α} {j : κ} {a : α} (h : m.get j = some a) :
    m.position j < m.length := by
  obtain ⟨e, he, -⟩ := Option.map_eq_some_iff.mp h
  have hkey := List.find?_some he
  rw [position, List.findIdx_lt_length]
  exact ⟨e, List.mem_of_find?_eq_some he, hkey⟩

/-- Two keys that are found do not stand in one place. -/
theorem position_injective {m : OrderedMap κ α} {j k : κ} {a b : α} (hj : m.get j = some a)
    (hk : m.get k = some b) (h : m.position j = m.position k) : j = k := by
  have hlt := position_lt hj
  have hat := List.findIdx_getElem (p := fun e : κ × α => decide (e.1 = j)) (w := hlt)
  have hat' := List.findIdx_getElem (p := fun e : κ × α => decide (e.1 = k)) (w := position_lt hk)
  rw [decide_eq_true_eq] at hat hat'
  simp only [position] at h
  simp only [h] at hat
  exact hat.symm.trans hat'

end Edit

end ScpCore.OrderedMap
