import Mathlib

/-! A listing read page by page. Each query returns the items past a cursor, in
ascending key order and at most a page of them, and the walk resumes from the last key
it read. If the items do not change between the queries the walk returns all of them,
in key order. -/

namespace ScpCore

section Order
variable {α κ : Type} [LinearOrder κ] (key : α → κ)

/-- The items in ascending key order. -/
def keyOrder (items : List α) : List α := items.insertionSort (fun a b => key a ≤ key b)

variable {key}

@[simp] theorem mem_keyOrder {items : List α} {x : α} : x ∈ keyOrder key items ↔ x ∈ items :=
  List.mem_insertionSort _

theorem keyOrder_perm (items : List α) : (keyOrder key items).Perm items :=
  List.perm_insertionSort _ _

theorem keyOrder_pairwise (items : List α) :
    (keyOrder key items).Pairwise (fun a b => key a ≤ key b) := by
  have : IsTrans α (fun a b => key a ≤ key b) := ⟨fun _ _ _ h h' => le_trans h h'⟩
  have : Std.Total (fun a b : α => key a ≤ key b) := ⟨fun _ _ => le_total _ _⟩
  exact List.pairwise_insertionSort _ _

/-- Where keys tell items apart, an ordered rearrangement is the order. -/
theorem keyOrder_unique {items sorted : List α}
    (hinj : ∀ a ∈ items, ∀ b ∈ items, key a = key b → a = b) (hperm : sorted.Perm items)
    (hsorted : sorted.Pairwise (fun a b => key a ≤ key b)) : keyOrder key items = sorted := by
  apply List.Perm.eq_of_pairwise _ (keyOrder_pairwise items) hsorted
    ((keyOrder_perm items).trans hperm.symm)
  intro a b ha hb hle hge
  exact hinj a (mem_keyOrder.mp ha) b (hperm.subset hb) (le_antisymm hle hge)

theorem keyOrder_filter {items : List α}
    (hinj : ∀ a ∈ items, ∀ b ∈ items, key a = key b → a = b) (p : α → Bool) :
    keyOrder key (items.filter p) = (keyOrder key items).filter p := by
  apply keyOrder_unique
  · intro a ha b hb
    exact hinj a (List.mem_of_mem_filter ha) b (List.mem_of_mem_filter hb)
  · exact (keyOrder_perm items).filter p
  · exact (keyOrder_pairwise items).filter p

/-- A last item past every other stands last. -/
theorem keyOrder_concat {items : List α} {x : α}
    (hinj : ∀ a ∈ items, ∀ b ∈ items, key a = key b → a = b) (hlast : ∀ a ∈ items, key a < key x) :
    keyOrder key (items ++ [x]) = keyOrder key items ++ [x] := by
  apply keyOrder_unique
  · intro a ha b hb hkey
    rcases List.mem_append.mp ha with ha | ha <;> rcases List.mem_append.mp hb with hb | hb
    · exact hinj a ha b hb hkey
    · rw [List.mem_singleton.mp hb] at hkey
      exact absurd hkey (hlast a ha).ne
    · rw [List.mem_singleton.mp ha] at hkey
      exact absurd hkey.symm (hlast b hb).ne
    · rw [List.mem_singleton.mp ha, List.mem_singleton.mp hb]
  · exact (keyOrder_perm items).append_right _
  · rw [List.pairwise_append]
    refine ⟨keyOrder_pairwise items, List.pairwise_singleton _ _, ?_⟩
    intro a ha b hb
    rw [List.mem_singleton.mp hb]
    exact (hlast a (mem_keyOrder.mp ha)).le

end Order

/-- What a walk has read, and the key it resumes from. -/
structure PagedWalk (α κ : Type) where
  held : List α
  cursor : Option κ

namespace PagedWalk
variable {α κ : Type} [LinearOrder κ]

def start : PagedWalk α κ := ⟨[], none⟩

section Query
variable (key : α → κ) (limit : ℕ) (items : List α)

/-- One query. -/
def page (cursor : Option κ) : List α :=
  (keyOrder key (items.filter (fun x => cursor.all (· < key x)))).take limit

/-- The walk after one more query, and whether that query was its last. -/
def advance (walk : PagedWalk α κ) : PagedWalk α κ × Bool :=
  let read := page key limit items walk.cursor
  match read.getLast? with
  | none => (walk, true)
  | some last => (⟨walk.held ++ read, some (key last)⟩, read.length < limit)

/-- The walk has read a first part of the items and stands at its end. -/
def Of (walk : PagedWalk α κ) : Prop :=
  walk.held <+: keyOrder key items ∧ walk.cursor = walk.held.getLast?.map key

end Query

variable {key : α → κ} {limit : ℕ} {items : List α} {walk : PagedWalk α κ}

theorem start_of : (start : PagedWalk α κ).Of key items := ⟨List.nil_prefix, rfl⟩

/-- Past the last key read stands what was not read. -/
theorem filter_past (hinj : ∀ a ∈ items, ∀ b ∈ items, key a = key b → a = b) {read rest : List α}
    (h : read ++ rest = keyOrder key items) (hnodup : items.Nodup) :
    keyOrder key (items.filter (fun x => (read.getLast?.map key).all (· < key x))) = rest := by
  rw [keyOrder_filter hinj, ← h, List.filter_append]
  have hsorted : (keyOrder key items).Pairwise (fun a b => key a ≤ key b) := keyOrder_pairwise items
  have hdistinct : (keyOrder key items).Nodup := (keyOrder_perm items).nodup_iff.mpr hnodup
  rw [← h] at hsorted hdistinct
  rw [List.filter_eq_nil_iff.mpr, List.filter_eq_self.mpr, List.nil_append]
  · intro y hy
    cases hlast : read.getLast? with
    | none => rfl
    | some last =>
      have hread := List.mem_of_getLast? hlast
      have hle := (List.pairwise_append.mp hsorted).2.2 last hread y hy
      have hne : key last ≠ key y := by
        intro hkey
        have hmem {x : α} (hx : x ∈ read ++ rest) : x ∈ items := by
          rw [h, mem_keyOrder] at hx
          exact hx
        have heq := hinj last (hmem (List.mem_append_left _ hread)) y
          (hmem (List.mem_append_right _ hy)) hkey
        exact (List.nodup_append.mp hdistinct).2.2 last hread y hy heq
      simpa using lt_of_le_of_ne hle hne
  · intro x hx
    obtain ⟨front, last, rfl⟩ := List.eq_nil_or_concat read |>.resolve_left (List.ne_nil_of_mem hx)
    rw [List.concat_eq_append] at hx hsorted ⊢
    have hle : key x ≤ key last := by
      rcases List.mem_append.mp hx with hx | hx
      · exact (List.pairwise_append.mp (List.pairwise_append.mp hsorted).1).2.2 x hx last (by simp)
      · rw [List.mem_singleton.mp hx]
    simpa using hle

/-- A query on unchanged items reads on, and the last one reads the rest. -/
theorem Of.advance (hinj : ∀ a ∈ items, ∀ b ∈ items, key a = key b → a = b) (hnodup : items.Nodup)
    (hlimit : 0 < limit) (h : walk.Of key items) :
    (walk.advance key limit items).1.Of key items ∧
      ((walk.advance key limit items).2 = true →
        (walk.advance key limit items).1.held = keyOrder key items) := by
  obtain ⟨⟨rest, hrest⟩, hcursor⟩ := h
  have hpage : page key limit items walk.cursor = rest.take limit := by
    rw [page, hcursor, filter_past hinj hrest hnodup]
  unfold PagedWalk.advance
  rw [hpage]
  dsimp only
  cases hlast : (rest.take limit).getLast? with
  | none =>
    -- An empty page means that nothing is left.
    rw [List.getLast?_eq_none_iff, List.take_eq_nil_iff] at hlast
    obtain rfl := hlast.resolve_left hlimit.ne'
    exact ⟨⟨⟨[], hrest⟩, hcursor⟩, fun _ => by simpa using hrest⟩
  | some last =>
    refine ⟨⟨⟨rest.drop limit, ?_⟩, ?_⟩, ?_⟩
    · rw [List.append_assoc, List.take_append_drop, hrest]
    · rw [List.getLast?_append, hlast, Option.some_or, Option.map_some]
    · intro hshort
      rw [decide_eq_true_eq, List.length_take] at hshort
      rw [List.take_of_length_le (by omega)]
      exact hrest

end PagedWalk

end ScpCore
