import Mathlib.Data.Nat.Bitwise
import Mathlib.Data.List.Forall2

/-!
# Cutting a number into fields

The fields are taken from the low end. Below the power of two of the whole width,
numbers and lists of fields correspond.
-/

namespace Damov.Library.BitFields

open List

variable {widths fields : List Nat}

def cut : List Nat → Nat → List Nat
  | [], _ => []
  | width :: widths, n => (n &&& (2 ^ width - 1)) :: cut widths (n >>> width)

/-- Each field has its width. -/
abbrev Fit : List Nat → List Nat → Prop := Forall₂ fun width field => field < 2 ^ width

theorem fit_cut (widths : List Nat) (n : Nat) : Fit widths (cut widths n) := by
  induction widths generalizing n with
  | nil => exact .nil
  | cons width widths ih =>
    exact .cons (Nat.and_lt_two_pow n (Nat.sub_lt (Nat.two_pow_pos _) Nat.one_pos)) (ih _)

theorem cut_injective {a b : Nat} (isA : a < 2 ^ widths.sum) (isB : b < 2 ^ widths.sum)
    (same : cut widths a = cut widths b) : a = b := by
  induction widths generalizing a b with
  | nil => exact (Nat.lt_one_iff.mp isA).trans (Nat.lt_one_iff.mp isB).symm
  | cons width widths ih =>
    rw [sum_cons, pow_add] at isA isB
    simp only [cut, Nat.and_two_pow_sub_one_eq_mod, Nat.shiftRight_eq_div_pow, cons.injEq] at same
    rw [← Nat.mod_add_div a (2 ^ width), same.1, ih (Nat.div_lt_of_lt_mul isA)
      (Nat.div_lt_of_lt_mul isB) same.2, Nat.mod_add_div]

/-- What is above the fields does not show in them. -/
theorem cut_above (widths : List Nat) : cut widths (2 ^ widths.sum) = cut widths 0 := by
  induction widths with
  | nil => rfl
  | cons width widths ih =>
    simp [cut, pow_add, Nat.shiftRight_eq_div_pow, ih]

theorem exists_cut (fit : Fit widths fields) : ∃ n < 2 ^ widths.sum, cut widths n = fields := by
  induction fit with
  | nil => exact ⟨0, Nat.one_pos, rfl⟩
  | @cons width field widths fields lt fit ih =>
    obtain ⟨rest, isRest, rfl⟩ := ih
    refine ⟨field + 2 ^ width * rest, ?_, ?_⟩
    · have room := Nat.mul_le_mul_left (2 ^ width) isRest
      rw [Nat.mul_succ] at room
      rw [sum_cons, pow_add]
      omega
    · rw [cut, Nat.and_two_pow_sub_one_eq_mod, Nat.shiftRight_eq_div_pow,
        Nat.add_mul_mod_self_left, Nat.mod_eq_of_lt lt,
        Nat.add_mul_div_left _ _ (Nat.two_pow_pos width), Nat.div_eq_of_lt lt, zero_add]

end Damov.Library.BitFields
