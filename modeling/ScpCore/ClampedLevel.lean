import Mathlib

/-! A level that is filled up to a cap and drawn from. After any moves it is a minimum over
the points at which it last stood at the cap. -/

namespace ScpCore.ClampedLevel

/-- A gain, clamped at the cap, then a draw. -/
structure Move where
  gain : ℕ
  cost : ℕ

def costs (moves : List Move) : ℕ := (moves.map Move.cost).sum

@[simp] theorem costs_nil : costs [] = 0 := rfl

def level (cap : ℕ) : ℕ → List Move → ℕ
  | v, [] => v
  | v, m :: moves => level cap (min cap (v+m.gain)-m.cost) moves

/-- No draw asks for more than there is. -/
def Covered (cap : ℕ) : ℕ → List Move → Prop
  | _, [] => True
  | v, m :: moves =>
    m.cost ≤ min cap (v+m.gain) ∧ Covered cap (min cap (v+m.gain)-m.cost) moves

end ScpCore.ClampedLevel
