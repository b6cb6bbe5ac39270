import Mathlib

/-! Unsigned 64-bit arithmetic that stops at the largest value. -/

namespace ScpCore

def u64Max : ℕ := 2^64-1

/-- `u64::saturating_add`. -/
def saturatingAdd (a b : ℕ) : ℕ := min (a+b) u64Max

/-- `u64::saturating_mul`. -/
def saturatingMul (a b : ℕ) : ℕ := min (a*b) u64Max

/-- Counting on from a count that stopped. -/
theorem saturatingAdd_min (n : ℕ) : saturatingAdd (min n u64Max) 1 = min (n+1) u64Max := by
  unfold saturatingAdd
  generalize u64Max = limit
  omega

/-- A sum that stops at each step stops where the whole sum does. -/
theorem foldl_saturatingAdd (a : ℕ) (ns : List ℕ) (ha : a ≤ u64Max) :
    ns.foldl saturatingAdd a = min (a+ns.sum) u64Max := by
  induction ns generalizing a with
  | nil => simp [ha]
  | cons n ns ih =>
    have hle : saturatingAdd a n ≤ u64Max := Nat.min_le_right _ _
    rw [List.foldl_cons, ih _ hle, List.sum_cons, saturatingAdd]
    omega

end ScpCore
