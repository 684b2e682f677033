import Mathlib.Logic.Function.Basic

/-!
# Ring buffers

A buffer of fixed size that is written at an index which goes around. It holds
the last values that were written, and the default where there were fewer.
-/

namespace Damov.Library

open Function

universe u

variable {α : Type u}

/-- The slot that was written `age` writes before the last one. -/
def slotBack (size idx age : Nat) : Nat := if age < idx then idx - 1 - age else idx + size - 1 - age

/-- The buffer holds the values, of which the first is the newest. -/
structure RingHolds (size : Nat) (default : α) (buf : Nat → α) (idx : Nat) (values : List α) :
    Prop where
  inside : idx < size
  slots : ∀ age, age < size → buf (slotBack size idx age) = values[age]?.getD default

namespace RingHolds

variable {size idx : Nat} {default : α} {buf : Nat → α} {values : List α}

theorem empty (positive : 0 < size) : RingHolds size default (fun _ => default) 0 [] where
  inside := positive
  slots := fun _ _ => rfl

/-- The next slot to be written has the oldest value. -/
theorem oldest (holds : RingHolds size default buf idx values) :
    buf idx = values[size - 1]?.getD default := by
  have mem := holds.inside
  have slot : slotBack size idx (size - 1) = idx := by
    unfold slotBack
    split <;> omega
  rw [← holds.slots (size - 1) (by omega), slot]

theorem write (holds : RingHolds size default buf idx values) (value : α) :
    RingHolds size default (update buf idx value)
      (if idx + 1 = size then 0 else idx + 1) (value :: values) where
  inside := by
    have mem := holds.inside
    split <;> omega
  slots := by
    intro age young
    cases age with
    | zero =>
      have slot : slotBack size (if idx + 1 = size then 0 else idx + 1) 0 = idx := by
        unfold slotBack
        split <;> split <;> omega
      rw [slot, update_self]
      rfl
    | succ age =>
      have slot : slotBack size (if idx + 1 = size then 0 else idx + 1) (age + 1) =
            slotBack size idx age := by
        unfold slotBack
        split <;> split <;> split <;> omega
      have other : slotBack size idx age ≠ idx := by
        unfold slotBack
        split <;> omega
      rw [slot, update_of_ne other, holds.slots age (by omega)]
      rfl

end RingHolds

end Damov.Library
