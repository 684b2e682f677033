import Mathlib.Algebra.Order.Field.Rat

/-!
# Rounding

A rounding takes an exact result to a number of the format. It is monotone, and
it keeps the integers that the format has.
-/

namespace Damov.Library

/-- A rounding to a format with the integers of `digits` binary digits. -/
structure Rounding (digits : Nat) where
  round : ℚ → ℚ
  monotone : Monotone round
  exact : ∀ n : Int, |n| ≤ 2 ^ digits → round n = n

namespace Rounding

variable {digits : Nat}

/-- No rounding at all. -/
def none : Rounding digits where
  round := id
  monotone := monotone_id
  exact := fun _ _ => rfl

/-- Rounding does not pass an integer of the format. -/
theorem le_round (rounding : Rounding digits) {n : Int} {x : ℚ}
    (small : |n| ≤ 2 ^ digits) (bound : (n : ℚ) ≤ x) : (n : ℚ) ≤ rounding.round x :=
  rounding.exact n small ▸ rounding.monotone bound

end Rounding

end Damov.Library
