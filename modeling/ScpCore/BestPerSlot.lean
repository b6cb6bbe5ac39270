import Mathlib

/-! Selections that keep, for each slot, the entry of the highest rank, and of those
the one met first. An entry stands in a slot under a rank and names the record it came
from; a record is kept while one of its entries wins its slot. Dropping the records
that are not kept changes no winner. -/

namespace ScpCore

structure SlotEntry (σ ρ ι : Type) where
  slot : σ
  rank : ρ
  record : ι
  deriving DecidableEq

namespace BestPerSlot
variable {σ ρ ι : Type} [DecidableEq σ] [LinearOrder ρ]

/-- One step of the loop: the entry takes its slot if the slot is free or its rank
higher. -/
def offer (best : List (SlotEntry σ ρ ι)) (entry : SlotEntry σ ρ ι) : List (SlotEntry σ ρ ι) :=
  if best.any (fun b => b.slot = entry.slot && entry.rank ≤ b.rank) then best
  else best.filter (fun b => b.slot ≠ entry.slot) ++ [entry]

/-- The winner of every slot. -/
def best (entries : List (SlotEntry σ ρ ι)) : List (SlotEntry σ ρ ι) := entries.foldl offer []

/-- The records that win a slot. -/
def kept [DecidableEq ι] (entries : List (SlotEntry σ ρ ι)) : List ι :=
  ((best entries).map (·.record)).dedup

/-- The entry outranks every entry of its slot before it, and no later one outranks it. -/
def Wins (entries : List (SlotEntry σ ρ ι)) (e : SlotEntry σ ρ ι) : Prop :=
  ∃ before after, entries = before ++ e :: after ∧
    (∀ b ∈ before, b.slot = e.slot → b.rank < e.rank) ∧
    ∀ a ∈ after, a.slot = e.slot → a.rank ≤ e.rank

omit [DecidableEq σ] in
theorem Wins.mem {entries : List (SlotEntry σ ρ ι)} {e : SlotEntry σ ρ ι}
    (h : Wins entries e) : e ∈ entries := by
  obtain ⟨before, after, rfl, -, -⟩ := h
  simp

omit [DecidableEq σ] in
/-- A winner bounds the ranks of its slot. -/
theorem Wins.le {entries : List (SlotEntry σ ρ ι)} {e a : SlotEntry σ ρ ι}
    (h : Wins entries e) (ha : a ∈ entries) (hslot : a.slot = e.slot) : a.rank ≤ e.rank := by
  obtain ⟨before, after, rfl, hbefore, hafter⟩ := h
  rcases List.mem_append.mp ha with ha | ha
  · exact (hbefore a ha hslot).le
  · rcases List.mem_cons.mp ha with rfl | ha
    · exact le_rfl
    · exact hafter a ha hslot

omit [DecidableEq σ] in
/-- A new entry wins its slot exactly if it outranks what stood there. -/
theorem wins_concat_iff {entries : List (SlotEntry σ ρ ι)} {entry e : SlotEntry σ ρ ι} :
    Wins (entries ++ [entry]) e ↔
      (Wins entries e ∧ (entry.slot = e.slot → entry.rank ≤ e.rank)) ∨
      (e = entry ∧ ∀ b ∈ entries, b.slot = entry.slot → b.rank < entry.rank) := by
  constructor
  · intro h
    obtain ⟨before, after, hsplit, hbefore, hafter⟩ := h
    rcases List.eq_nil_or_concat after with rfl | ⟨rest, last, rfl⟩
    · obtain ⟨rfl, hlast⟩ := List.append_inj' hsplit rfl
      cases hlast
      exact .inr ⟨rfl, hbefore⟩
    · rw [List.concat_eq_append, ← List.cons_append, ← List.append_assoc] at hsplit
      obtain ⟨rfl, hlast⟩ := List.append_inj' hsplit rfl
      cases hlast
      refine .inl ⟨⟨before, rest, rfl, hbefore, fun a ha => hafter a (by simp [ha])⟩, ?_⟩
      exact hafter entry (by simp)
  · intro h
    rcases h with ⟨⟨before, after, rfl, hbefore, hafter⟩, hentry⟩ | ⟨rfl, hbefore⟩
    · refine ⟨before, after ++ [entry], by simp, hbefore, ?_⟩
      intro a ha
      rcases List.mem_append.mp ha with ha | ha
      · exact hafter a ha
      · rw [List.mem_singleton.mp ha]
        exact hentry
    · exact ⟨entries, [], rfl, hbefore, by simp⟩

theorem best_concat (entries : List (SlotEntry σ ρ ι)) (entry : SlotEntry σ ρ ι) :
    best (entries ++ [entry]) = offer (best entries) entry := by
  rw [best, List.foldl_append]
  rfl

theorem mem_offer_iff {winners : List (SlotEntry σ ρ ι)} {entry e : SlotEntry σ ρ ι} :
    e ∈ offer winners entry ↔
      (∃ b ∈ winners, b.slot = entry.slot ∧ entry.rank ≤ b.rank) ∧ e ∈ winners ∨
      (∀ b ∈ winners, b.slot = entry.slot → b.rank < entry.rank) ∧
        (e ∈ winners ∧ e.slot ≠ entry.slot ∨ e = entry) := by
  unfold offer
  split_ifs with hany
  · simp only [List.any_eq_true, Bool.and_eq_true, decide_eq_true_eq] at hany
    refine ⟨fun h => .inl ⟨hany, h⟩, ?_⟩
    intro h
    rcases h with ⟨-, h⟩ | ⟨hnone, -⟩
    · exact h
    · obtain ⟨b, hb, hslot, hrank⟩ := hany
      exact absurd hrank (hnone b hb hslot).not_ge
  · simp only [List.any_eq_true, Bool.and_eq_true, decide_eq_true_eq, not_exists, not_and,
      not_le] at hany
    simp only [List.mem_append, List.mem_filter, decide_eq_true_eq, List.mem_singleton]
    refine ⟨fun h => .inr ⟨hany, h⟩, ?_⟩
    intro h
    rcases h with ⟨⟨b, hb, hslot, hrank⟩, -⟩ | ⟨-, h⟩
    · exact absurd hrank (hany b hb hslot).not_ge
    · exact h

/-- Every entry has a winner of its slot at or above its rank. -/
theorem best_covers {entries : List (SlotEntry σ ρ ι)} {a : SlotEntry σ ρ ι} (ha : a ∈ entries) :
    ∃ e ∈ best entries, e.slot = a.slot ∧ a.rank ≤ e.rank := by
  induction entries using List.reverseRecOn with
  | nil => cases ha
  | append_singleton entries entry ih =>
    simp only [best_concat, mem_offer_iff]
    by_cases htop : ∀ b ∈ best entries, b.slot = entry.slot → b.rank < entry.rank
    · rcases List.mem_append.mp ha with ha | ha
      · obtain ⟨e, he, hslot, hrank⟩ := ih ha
        by_cases hentry : e.slot = entry.slot
        · exact ⟨entry, .inr ⟨htop, .inr rfl⟩, hentry.symm.trans hslot,
            hrank.trans (htop e he hentry).le⟩
        · exact ⟨e, .inr ⟨htop, .inl ⟨he, hentry⟩⟩, hslot, hrank⟩
      · rw [List.mem_singleton.mp ha]
        exact ⟨entry, .inr ⟨htop, .inr rfl⟩, rfl, le_rfl⟩
    · push Not at htop
      rcases List.mem_append.mp ha with ha | ha
      · obtain ⟨e, he, hslot, hrank⟩ := ih ha
        exact ⟨e, .inl ⟨htop, he⟩, hslot, hrank⟩
      · rw [List.mem_singleton.mp ha]
        obtain ⟨b, hb, hslot, hrank⟩ := htop
        exact ⟨b, .inl ⟨⟨b, hb, hslot, hrank⟩, hb⟩, hslot, hrank⟩

theorem mem_best_iff {entries : List (SlotEntry σ ρ ι)} {e : SlotEntry σ ρ ι} :
    e ∈ best entries ↔ Wins entries e := by
  induction entries using List.reverseRecOn generalizing e with
  | nil => simp [best, Wins]
  | append_singleton entries entry ih =>
    rw [best_concat, mem_offer_iff, wins_concat_iff]
    constructor
    · intro h
      rcases h with ⟨⟨b, hb, hslot, hrank⟩, he⟩ | ⟨htop, ⟨he, hslot⟩ | rfl⟩
      · refine .inl ⟨ih.mp he, ?_⟩
        intro hsame
        exact hrank.trans ((ih.mp he).le (ih.mp hb).mem (hslot.trans hsame))
      · exact .inl ⟨ih.mp he, fun hsame => absurd hsame.symm hslot⟩
      · refine .inr ⟨rfl, ?_⟩
        intro b hb hslot
        obtain ⟨w, hw, hwslot, hwrank⟩ := best_covers hb
        exact hwrank.trans_lt (htop w hw (hwslot.trans hslot))
    · intro h
      rcases h with ⟨he, hrank⟩ | ⟨rfl, htop⟩
      · by_cases hslot : entry.slot = e.slot
        · exact .inl ⟨⟨e, ih.mpr he, hslot.symm, hrank hslot⟩, ih.mpr he⟩
        · by_cases htop : ∀ b ∈ best entries, b.slot = entry.slot → b.rank < entry.rank
          · exact .inr ⟨htop, .inl ⟨ih.mpr he, fun h => hslot h.symm⟩⟩
          · push Not at htop
            exact .inl ⟨htop, ih.mpr he⟩
      · exact .inr ⟨fun b hb hslot => htop b (ih.mp hb).mem hslot, .inr rfl⟩

section Kept
variable [DecidableEq ι]

theorem mem_kept_iff {entries : List (SlotEntry σ ρ ι)} {record : ι} :
    record ∈ kept entries ↔ ∃ e, Wins entries e ∧ e.record = record := by
  simp only [kept, List.mem_dedup, List.mem_map, mem_best_iff]

/-- What is kept was offered. -/
theorem mem_of_mem_kept {entries : List (SlotEntry σ ρ ι)} {record : ι} (h : record ∈ kept entries) :
    ∃ e ∈ entries, e.record = record := by
  obtain ⟨e, he, hrecord⟩ := mem_kept_iff.mp h
  exact ⟨e, he.mem, hrecord⟩

omit [DecidableEq σ] [DecidableEq ι] in
/-- A winner still wins among fewer entries. -/
theorem Wins.filter {entries : List (SlotEntry σ ρ ι)} {e : SlotEntry σ ρ ι} (h : Wins entries e)
    {p : SlotEntry σ ρ ι → Bool} (hp : p e) : Wins (entries.filter p) e := by
  obtain ⟨before, after, rfl, hbefore, hafter⟩ := h
  refine ⟨before.filter p, after.filter p, ?_, ?_, ?_⟩
  · rw [List.filter_append, List.filter_cons_of_pos hp]
  · exact fun b hb => hbefore b (List.mem_of_mem_filter hb)
  · exact fun a ha => hafter a (List.mem_of_mem_filter ha)

/-- The kept records are kept again when the others are gone. -/
theorem kept_filter {entries : List (SlotEntry σ ρ ι)} {record : ι} (h : record ∈ kept entries) :
    record ∈ kept (entries.filter (fun e => e.record ∈ kept entries)) := by
  obtain ⟨e, he, hrecord⟩ := mem_kept_iff.mp h
  refine mem_kept_iff.mpr ⟨e, he.filter ?_, hrecord⟩
  rw [hrecord]
  exact decide_eq_true h

variable {α : Type} {entriesOf : α → List (SlotEntry σ ρ ι)} {name : α → ι}

omit [DecidableEq σ] [LinearOrder ρ] [DecidableEq ι] in
theorem flatMap_filter (hname : ∀ a, ∀ e ∈ entriesOf a, e.record = name a) (p : ι → Bool)
    (items : List α) :
    (items.filter (fun a => p (name a))).flatMap entriesOf =
      (items.flatMap entriesOf).filter (fun e => p e.record) := by
  induction items with
  | nil => rfl
  | cons a items ih =>
    rw [List.flatMap_cons, List.filter_append, ← ih, List.filter_cons]
    have hall : ∀ e ∈ entriesOf a, p e.record = p (name a) := fun e he => by rw [hname a e he]
    split_ifs with hp
    · have hself : (entriesOf a).filter (fun e => p e.record) = entriesOf a :=
        List.filter_eq_self.mpr (fun e he => (hall e he).trans hp)
      rw [List.flatMap_cons, hself]
    · have hnone : (entriesOf a).filter (fun e => p e.record) = [] :=
        List.filter_eq_nil_iff.mpr (fun e he => by rw [hall e he]; exact hp)
      rw [hnone, List.nil_append]

/-- A selection over items, run again over the items it keeps, keeps each of them. -/
theorem kept_again (hname : ∀ a, ∀ e ∈ entriesOf a, e.record = name a) {items : List α} {record : ι}
    (h : record ∈ kept (items.flatMap entriesOf)) :
    record ∈ kept ((items.filter (fun a => name a ∈ kept (items.flatMap entriesOf))).flatMap
      entriesOf) := by
  rw [flatMap_filter hname (fun r => decide (r ∈ kept (items.flatMap entriesOf)))]
  exact kept_filter h

end Kept

end BestPerSlot

end ScpCore
