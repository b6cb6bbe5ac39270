import ScpCore.HighWater

/-! A store of values under ordered keys. Listing gives the keys in ascending order, so a
scan that keeps the last key of each group keeps the greatest one. -/

namespace ScpCore

variable {κ ι α : Type} [LinearOrder κ] [DecidableEq ι]

structure KeyStore (κ α : Type) [LinearOrder κ] where
  keys : List κ
  value : κ → Option α
  sorted : keys.Pairwise (· ≤ ·)
  nodup : keys.Nodup
  mem_keys : ∀ k, k ∈ keys ↔ (value k).isSome

namespace KeyStore

def empty : KeyStore κ α := ⟨[], fun _ => none, .nil, .nil, by simp⟩

def retrieve (s : KeyStore κ α) (k : κ) : Option α := s.value k

def store (s : KeyStore κ α) (k : κ) (a : α) : KeyStore κ α where
  keys := if k ∈ s.keys then s.keys else s.keys.orderedInsert (· ≤ ·) k
  value := Function.update s.value k (some a)
  sorted := by
    by_cases hk : k ∈ s.keys
    · rw [if_pos hk]
      exact s.sorted
    · rw [if_neg hk]
      exact List.Pairwise.orderedInsert k s.keys s.sorted
  nodup := by
    by_cases hk : k ∈ s.keys
    · rw [if_pos hk]
      exact s.nodup
    · rw [if_neg hk, (List.perm_orderedInsert (· ≤ ·) k s.keys).nodup_iff, List.nodup_cons]
      exact ⟨hk, s.nodup⟩
  mem_keys := by
    intro j
    by_cases hj : j = k
    · subst hj
      by_cases hk : j ∈ s.keys
      · simp [hk]
      · simp [hk, List.mem_orderedInsert]
    · by_cases hk : k ∈ s.keys
      · simp [hk, hj, s.mem_keys]
      · simp [hk, hj, s.mem_keys, List.mem_orderedInsert]

def delete (s : KeyStore κ α) (k : κ) : KeyStore κ α where
  keys := s.keys.erase k
  value := Function.update s.value k none
  sorted := s.sorted.sublist List.erase_sublist
  nodup := s.nodup.erase k
  mem_keys := by
    intro j
    by_cases hj : j = k
    · subst hj
      simp [s.nodup.not_mem_erase]
    · simp [hj, s.mem_keys, List.mem_erase_of_ne hj]

/-- The stored keys that satisfy a test, in ascending order. -/
def listKeys (s : KeyStore κ α) (p : κ → Bool) : List κ := s.keys.filter p

theorem mem_listKeys {s : KeyStore κ α} {p : κ → Bool} {k : κ} :
    k ∈ s.listKeys p ↔ (s.retrieve k).isSome ∧ p k = true := by
  simp [listKeys, s.mem_keys, retrieve]

theorem pairwise_listKeys (s : KeyStore κ α) (p : κ → Bool) : (s.listKeys p).Pairwise (· ≤ ·) :=
  s.sorted.filter p

theorem nodup_listKeys (s : KeyStore κ α) (p : κ → Bool) : (s.listKeys p).Nodup := s.nodup.filter p

@[simp] theorem retrieve_store_self (s : KeyStore κ α) (k : κ) (a : α) :
    (s.store k a).retrieve k = some a := Function.update_self _ _ _

theorem retrieve_store_of_ne (s : KeyStore κ α) {k j : κ} (h : j ≠ k) (a : α) :
    (s.store k a).retrieve j = s.retrieve j := Function.update_of_ne h _ _

@[simp] theorem retrieve_delete_self (s : KeyStore κ α) (k : κ) : (s.delete k).retrieve k = none :=
  Function.update_self _ _ _

theorem retrieve_delete_of_ne (s : KeyStore κ α) {k j : κ} (h : j ≠ k) :
    (s.delete k).retrieve j = s.retrieve j := Function.update_of_ne h _ _

end KeyStore

section LastOf
variable (group : κ → Option ι)

/-- The key that a scan has kept for each group. -/
def lastOf (keys : List κ) : Marks ι κ :=
  keys.foldl (fun m k => (group k).elim m (fun i => m.insert i k)) Marks.empty

omit [LinearOrder κ] in
theorem lastOf_append (keys : List κ) (k : κ) :
    lastOf group (keys ++ [k]) = (group k).elim (lastOf group keys)
      (fun i => (lastOf group keys).insert i k) := by
  simp [lastOf]

omit [LinearOrder κ] in
theorem lastOf_mem {keys : List κ} {i : ι} {k : κ} (h : lastOf group keys i = some k) :
    k ∈ keys ∧ group k = some i := by
  induction keys using List.reverseRecOn with
  | nil => simp [lastOf, Marks.empty] at h
  | append_singleton keys last ih =>
    rw [lastOf_append] at h
    cases hg : group last with
    | none =>
      rw [hg] at h
      exact ⟨List.mem_append_left _ (ih h).1, (ih h).2⟩
    | some j =>
      rw [hg, Option.elim_some] at h
      by_cases hi : i = j
      · subst hi
        simp only [Marks.insert, Function.update_self, Option.some.injEq] at h
        subst h
        exact ⟨by simp, hg⟩
      · rw [Marks.insert, Function.update_of_ne hi] at h
        exact ⟨List.mem_append_left _ (ih h).1, (ih h).2⟩

/-- In a list without order violations the last key of a group bounds the group. -/
theorem lastOf_max {keys : List κ} (hsorted : keys.Pairwise (· ≤ ·)) {i : ι} {k : κ}
    (hk : k ∈ keys) (hg : group k = some i) : ∃ last, lastOf group keys i = some last ∧ k ≤ last := by
  induction keys using List.reverseRecOn with
  | nil => simp at hk
  | append_singleton keys last ih =>
    rw [List.pairwise_append] at hsorted
    obtain ⟨hsorted, -, hlast⟩ := hsorted
    rw [lastOf_append]
    by_cases hi : group last = some i
    · refine ⟨last, by simp [hi, Marks.insert], ?_⟩
      rcases List.mem_append.mp hk with hk | hk
      · exact hlast k hk last (by simp)
      · rw [List.mem_singleton.mp hk]
    · have hmem : k ∈ keys := by
        rcases List.mem_append.mp hk with hk | hk
        · exact hk
        · rw [List.mem_singleton.mp hk] at hg
          exact absurd hg hi
      obtain ⟨top, htop, hle⟩ := ih hsorted hmem
      refine ⟨top, ?_, hle⟩
      cases hl : group last with
      | none => exact htop
      | some j =>
        have hij : i ≠ j := by
          intro h
          rw [hl, h] at hi
          exact hi rfl
        rw [Option.elim_some, Marks.insert, Function.update_of_ne hij]
        exact htop

/-- The kept key of a group is its greatest one. -/
theorem lastOf_eq_some_iff {keys : List κ} (hsorted : keys.Pairwise (· ≤ ·)) {i : ι} {k : κ} :
    lastOf group keys i = some k ↔
      k ∈ keys ∧ group k = some i ∧ ∀ j ∈ keys, group j = some i → j ≤ k := by
  constructor
  · intro h
    refine ⟨(lastOf_mem group h).1, (lastOf_mem group h).2, ?_⟩
    intro j hj hgj
    obtain ⟨last, hlast, hle⟩ := lastOf_max group hsorted hj hgj
    rw [h, Option.some.injEq] at hlast
    rwa [hlast]
  · rintro ⟨hk, hg, hmax⟩
    obtain ⟨last, hlast, hle⟩ := lastOf_max group hsorted hk hg
    have hmem := lastOf_mem group hlast
    rw [hlast, le_antisymm hle (hmax last hmem.1 hmem.2)]

end LastOf

end ScpCore
