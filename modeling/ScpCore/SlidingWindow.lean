import Mathlib

/-! Sliding-window limits over sequences of times: at most `m` calls in any window
of length `w`, and how two such limits compare. -/

namespace ScpCore

/-- Each time has fewer than `m` times before it that are less than `w` older. -/
def Spaced (m w : ℕ) (times : List ℕ) : Prop :=
  ∀ before t after, times = before ++ t :: after → before.countP (fun s => t-w < s) < m

/-- How many of the times lie in `(a, b]`. -/
def countIn (a b : ℕ) (times : List ℕ) : ℕ := times.countP (fun s => a < s ∧ s ≤ b)

namespace Spaced
variable {m w : ℕ} {times : List ℕ}

theorem nil : Spaced m w [] := by
  intro before t after h
  simp at h

theorem snoc_iff {t : ℕ} : Spaced m w (times ++ [t]) ↔
    Spaced m w times ∧ times.countP (fun s => t-w < s) < m := by
  constructor
  · intro h
    refine ⟨?_, h times t [] rfl⟩
    intro before t' after heq
    exact h before t' (after ++ [t]) (by simp [heq])
  · intro ⟨h, hlast⟩ before t' after heq
    rcases List.eq_nil_or_concat after with rfl | ⟨after', last, rfl⟩
    · rw [List.append_singleton_inj] at heq
      rw [← heq.1, ← heq.2]
      exact hlast
    · have hsplit : times ++ [t] = (before ++ t' :: after') ++ [last] := by simpa using heq
      rw [List.append_singleton_inj] at hsplit
      exact h before t' after' hsplit.1

/-- Calls made at once are within the limit where there is room for all of them. -/
theorem append_replicate_iff {t n : ℕ} (ht : t-w < t) :
    Spaced m w (times ++ List.replicate n t) ↔
      Spaced m w times ∧ (n = 0 ∨ times.countP (fun s => t-w < s)+n ≤ m) := by
  induction n with
  | zero => simp
  | succ n ih =>
    have hcount : (times ++ List.replicate n t).countP (fun s => t-w < s) =
        times.countP (fun s => t-w < s)+n := by
      simp [List.countP_append, List.countP_replicate, ht]
    rw [List.replicate_succ', ← List.append_assoc, snoc_iff, ih, hcount]
    constructor
    · intro ⟨⟨h, _⟩, hlast⟩
      exact ⟨h, Or.inr (by omega)⟩
    · intro ⟨h, hroom⟩
      have hle : times.countP (fun s => t-w < s)+(n+1) ≤ m := by omega
      exact ⟨⟨h, Or.inr (by omega)⟩, by omega⟩

theorem of_append {rest : List ℕ} (h : Spaced m w (times ++ rest)) : Spaced m w times := by
  intro before t after heq
  exact h before t (after ++ rest) (by simp [heq])

/-- No window of length `w` holds more than `m` of the times. -/
theorem countIn_le (h : Spaced m w times) (b : ℕ) : countIn b (b+w) times ≤ m := by
  -- Adding the last time: those in the window with it are less than `w` older.
  induction times using List.reverseRecOn with
  | nil => simp [countIn]
  | append_singleton times t ih =>
    obtain ⟨hinit, hlast⟩ := snoc_iff.mp h
    have hb := ih hinit
    by_cases hin : b < t ∧ t ≤ b+w
    · have hle : countIn b (b+w) times ≤ times.countP (fun s => t-w < s) := by
        apply List.countP_mono_left
        intro s _ hs
        simp only [decide_eq_true_eq] at hs ⊢
        omega
      have hcount : countIn b (b+w) (times ++ [t]) = countIn b (b+w) times+1 := by
        simp [countIn, List.countP_append, hin]
      omega
    · have hcount : countIn b (b+w) (times ++ [t]) = countIn b (b+w) times := by
        simp [countIn, List.countP_append, hin]
      omega

theorem countIn_split {a b c : ℕ} (hab : a ≤ b) (hbc : b ≤ c) (times : List ℕ) :
    countIn a c times = countIn a b times+countIn b c times := by
  induction times with
  | nil => rfl
  | cons t times ih =>
    have hcons (a b : ℕ) : countIn a b (t :: times) =
        countIn a b times+if a < t ∧ t ≤ b then 1 else 0 := by
      simp [countIn, List.countP_cons]
    rw [hcons, hcons, hcons, ih]
    split_ifs <;> omega

/-- A run of `k` windows holds at most `k` times as many. -/
theorem countIn_mul_le (h : Spaced m w times) (b k : ℕ) :
    countIn b (b+k*w) times ≤ k*m := by
  induction k with
  | zero =>
    rw [Nat.zero_mul, Nat.zero_mul, Nat.le_zero, countIn, List.countP_eq_zero]
    intro s _ hs
    simp only [decide_eq_true_eq] at hs
    omega
  | succ k ih =>
    have hblock := h.countIn_le (b+k*w)
    have hsplit := countIn_split (a := b) (b := b+k*w) (c := b+(k+1)*w) (by omega)
      (by rw [Nat.succ_mul]; omega) times
    rw [Nat.succ_mul, ← Nat.add_assoc] at hsplit ⊢
    rw [hsplit, Nat.succ_mul]
    omega

/-- A window that fits in `k` windows of another limit keeps a limit of `k` times
the other. -/
theorem widen (h : Spaced m w times) (hsorted : times.Pairwise (· ≤ ·)) {k M W : ℕ}
    (hM : k*m ≤ M) (hpos : 0 < M) (hW : W ≤ k*w) (hlate : ∀ t ∈ times, w ≤ t) :
    Spaced M W times := by
  intro before t after heq
  have hmem : t ∈ times := by simp [heq]
  have hle : ∀ s ∈ before, s ≤ t := by
    intro s hs
    rw [heq, List.pairwise_append] at hsorted
    exact hsorted.2.2 s hs t List.mem_cons_self
  by_cases hzero : k*w = 0
  · have hnone : before.countP (fun s => t-W < s) = 0 := by
      rw [List.countP_eq_zero]
      intro s hs hlt
      have hst := hle s hs
      simp only [decide_eq_true_eq] at hlt
      omega
    omega
  · have hw := hlate t hmem
    have hwpos : 0 < w := Nat.pos_of_ne_zero (fun h0 => hzero (by rw [h0, Nat.mul_zero]))
    have hinit : Spaced m w (before ++ [t]) := by
      have hwhole : Spaced m w ((before ++ [t]) ++ after) := by
        rw [List.append_assoc, List.singleton_append, ← heq]
        exact h
      exact hwhole.of_append
    have hblock := hinit.countIn_mul_le (t-k*w) k
    have hcount : before.countP (fun s => t-W < s)+1 ≤
        countIn (t-k*w) (t-k*w+k*w) (before ++ [t]) := by
      have hin : t-k*w < t ∧ t ≤ t-k*w+k*w := by omega
      have hmono : before.countP (fun s => t-W < s) ≤ countIn (t-k*w) (t-k*w+k*w) before := by
        apply List.countP_mono_left
        intro s hs hlt
        have hst := hle s hs
        simp only [decide_eq_true_eq] at hlt ⊢
        omega
      have hlast : countIn (t-k*w) (t-k*w+k*w) (before ++ [t]) =
          countIn (t-k*w) (t-k*w+k*w) before+1 := by
        simp [countIn, List.countP_append, hin]
      omega
    omega

end Spaced

/-- The first `n` times that are `m` at once every `w`, from `base` on. -/
def packed (m w base n : ℕ) : List ℕ := (List.range n).map (fun i => base+i/m*w)

section Packed
variable {m w base n : ℕ}

theorem packed_succ : packed m w base (n+1) = packed m w base n ++ [base+n/m*w] := by
  simp [packed, List.range_succ]

theorem mem_packed {t : ℕ} (h : t ∈ packed m w base (n+1)) : base ≤ t ∧ t ≤ base+n/m*w := by
  obtain ⟨i, hi, rfl⟩ := List.mem_map.mp h
  have hle : i/m*w ≤ n/m*w := by
    apply Nat.mul_le_mul_right
    apply Nat.div_le_div_right
    have := List.mem_range.mp hi
    omega
  omega

theorem packed_sorted : (packed m w base n).Pairwise (· ≤ ·) := by
  rw [packed, List.pairwise_map]
  apply List.Pairwise.imp _ List.pairwise_lt_range
  intro i j hij
  have hle : i/m*w ≤ j/m*w := Nat.mul_le_mul_right w (Nat.div_le_div_right hij.le)
  omega

theorem countP_range_le {p : ℕ → Bool} {a n : ℕ} (h : ∀ j < n, p j = true → a ≤ j) :
    (List.range n).countP p ≤ n-a := by
  induction n with
  | zero => simp
  | succ n ih =>
    have hinit := ih (fun j hj => h j (by omega))
    rw [List.range_succ, List.countP_append, List.countP_singleton]
    by_cases hp : p n = true
    · have hle := h n (by omega) hp
      rw [if_pos hp]
      omega
    · rw [if_neg hp]
      omega

/-- It meets the limit it is packed for. -/
theorem packed_spaced (hm : 0 < m) : Spaced m w (packed m w base n) := by
  induction n with
  | zero => exact Spaced.nil
  | succ n ih =>
    rw [packed_succ, Spaced.snoc_iff]
    refine ⟨ih, ?_⟩
    rw [packed, List.countP_map]
    -- Only the calls of the last block are less than `w` older.
    have hblock : ∀ j < n, ((fun s => decide (base+n/m*w-w < s)) ∘ fun i => base+i/m*w) j = true →
        n/m*m ≤ j := by
      intro j _ hj
      rw [Function.comp_apply, decide_eq_true_eq] at hj
      have hlt : n/m*w < (j/m+1)*w := by
        rw [Nat.succ_mul]
        omega
      have hdiv : n/m < j/m+1 := Nat.lt_of_mul_lt_mul_right hlt
      calc n/m*m ≤ j/m*m := Nat.mul_le_mul_right m (by omega)
        _ ≤ j := Nat.div_mul_le_self j m
    have hcount := countP_range_le hblock
    have hmod := Nat.mod_lt n hm
    have hdm := Nat.div_add_mod n m
    rw [Nat.mul_comm] at hdm
    omega

/-- It breaks a limit of `M` in any window longer than its first `M/m` blocks. -/
theorem packed_not_spaced {M W : ℕ} (hW : M/m*w < W) (hbase : W ≤ base) :
    ¬ Spaced M W (packed m w base (M+1)) := by
  rw [packed_succ, Spaced.snoc_iff]
  intro ⟨_, hlast⟩
  have hall : (packed m w base M).countP (fun s => base+M/m*w-W < s) = M := by
    have hlen : (packed m w base M).length = M := by simp [packed]
    conv => rhs; rw [← hlen]
    rw [List.countP_eq_length]
    intro s hs
    obtain ⟨i, _, rfl⟩ := List.mem_map.mp hs
    rw [decide_eq_true_eq]
    omega
  omega

end Packed

end ScpCore
