import Mathlib.Data.List.Basic

/-!
# Items in bundles

A loop takes items in order and puts each one in the current bundle or in a later
one. The bundle of an item is its key. Whether a bundle may hold certain items
is up to `fits`.
-/

namespace Damov.Library
open List

universe u

variable {α : Type u}

/-- The items of a bundle, in order. -/
def bundle (key : α → Nat) (num : Nat) (items : List α) : List α :=
  items.filter fun item => key item == num

/-- Every bundle fits, and `last` is the latest one. -/
structure Bundled (key : α → Nat) (fits : List α → Prop) (last : Nat) (items : List α) : Prop where
  sorted : items.Pairwise fun first second => key first ≤ key second
  bounded : ∀ item ∈ items, key item ≤ last
  fits : ∀ num, fits (bundle key num items)

variable {key : α → Nat} {fits : List α → Prop} {last : Nat} {items : List α}

theorem bundle_concat_self (key : α → Nat) (items : List α) (next : α) :
    bundle key (key next) (items ++ [next]) = bundle key (key next) items ++ [next] := by
  rw [bundle, filter_append]
  exact congrArg _ (filter_cons_of_pos (beq_self_eq_true _))

theorem bundle_concat_of_ne {num : Nat} {next : α} (other : key next ≠ num) :
    bundle key num (items ++ [next]) = bundle key num items := by
  have leaves : [next].filter (fun item => key item == num) = [] :=
    filter_cons_of_neg (fun eq => other (beq_iff_eq.mp eq))
  rw [bundle, filter_append, leaves, append_nil]
  rfl

namespace Bundled

theorem nil (allowed : fits []) : Bundled key fits 0 [] where
  sorted := List.Pairwise.nil
  bounded := nofun
  fits := fun _ => allowed

variable (bundled : Bundled key fits last items)
include bundled

/-- Nothing is in a later bundle yet. -/
theorem bundle_eq_nil {num : Nat} (later : last < num) : bundle key num items = [] := by
  rw [bundle, filter_eq_nil_iff]
  intro item mem eq
  have bound := bundled.bounded item mem
  rw [beq_iff_eq.mp eq] at bound
  exact absurd bound (Nat.not_le_of_lt later)

/-- The latest bundle may be left. -/
theorem leave {later : Nat} (notBefore : last ≤ later) : Bundled key fits later items where
  sorted := bundled.sorted
  bounded := fun item mem =>
    Nat.le_trans (bundled.bounded item mem) notBefore
  fits := bundled.fits

/-- The next item is added to its bundle. -/
theorem add (next : α) (notBefore : last ≤ key next)
    (allowed : fits (bundle key (key next) items ++ [next])) :
    Bundled key fits (key next) (items ++ [next]) where
  sorted := pairwise_append.mpr ⟨bundled.sorted, pairwise_singleton _ _, fun item mem =>
    forall_mem_singleton.mpr (Nat.le_trans (bundled.bounded item mem) notBefore)⟩
  bounded := forall_mem_append.mpr ⟨(bundled.leave notBefore).bounded,
    forall_mem_singleton.mpr (Nat.le_refl _)⟩
  fits := by
    intro num
    by_cases same : key next = num
    · rwa [← same, bundle_concat_self]
    · rw [bundle_concat_of_ne same]
      exact bundled.fits num

end Bundled

end Damov.Library
