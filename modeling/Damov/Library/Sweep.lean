import Mathlib.Data.List.Nodup

/-!
# Sweeps over a state

A sweep changes every place of a region by a function of that place and its old
value, and leaves the other places alone. Sweeps with disjoint regions compose,
so a recursion that visits a structure piece by piece is known place by place.
-/

namespace Damov.Library

open Function

variable {ι α κ : Type}

/-- The change sets every place of the region to its new value. -/
structure Sweeps (change : (ι → α) → ι → α) (region : ι → Prop) (value : ι → α → α) : Prop where
  inside : ∀ state place, region place → change state place = value place (state place)
  outside : ∀ state place, ¬ region place → change state place = state place

namespace Sweeps

variable {change other : (ι → α) → ι → α} {region region' : ι → Prop}
variable {value : ι → α → α}

theorem nothing : Sweeps (fun state => state) (fun _ => False) value where
  inside := fun _ _ absurd => absurd.elim
  outside := fun _ _ _ => rfl

theorem one [DecidableEq ι] (place : ι) (new : α → α) (same : new = value place) :
    Sweeps (fun state => update state place (new (state place)))
      (fun other => other = place) value where
  inside := by
    rintro state other rfl
    rw [update_self, same]
  outside := fun _ _ apart => update_of_ne apart _ _

/-- Where the value is the old one the region may be enlarged. -/
theorem enlarge (sweeps : Sweeps change region value)
    (larger : ∀ place, region place → region' place)
    (keeps : ∀ place, region' place → ¬ region place →
      ∀ old, value place old = old) : Sweeps change region' value where
  inside := by
    classical
    intro state place isInside
    by_cases before : region place
    · exact sweeps.inside state place before
    · rw [sweeps.outside state place before, keeps place isInside before]
  outside := fun state place isOutside =>
    sweeps.outside state place fun isInside => isOutside (larger place isInside)

theorem congr (sweeps : Sweeps change region value) (same : ∀ place, region place ↔ region' place) :
    Sweeps change region' value where
  inside := fun state place isInside =>
    sweeps.inside state place ((same place).mpr isInside)
  outside := fun state place isOutside =>
    sweeps.outside state place fun isInside =>
      isOutside ((same place).mp isInside)

/-- One sweep after another. -/
theorem comp (first : Sweeps change region value) (second : Sweeps other region' value)
    (disjoint : ∀ place, region place → ¬ region' place) :
    Sweeps (fun state => other (change state))
      (fun place => region place ∨ region' place) value where
  inside := by
    rintro state place (isFirst | isSecond)
    · rw [second.outside _ place (disjoint place isFirst), first.inside state place isFirst]
    · have notFirst : ¬ region place := fun isFirst =>
        disjoint place isFirst isSecond
      rw [second.inside _ place isSecond, first.outside state place notFirst]
  outside := by
    intro state place isOutside
    rw [second.outside _ place fun isSecond => isOutside (.inr isSecond),
      first.outside state place fun isFirst => isOutside (.inl isFirst)]

/-- A loop of sweeps over disjoint regions. -/
theorem foldl {change : κ → (ι → α) → ι → α} {region : κ → ι → Prop} (items : List κ)
    (sweeps : ∀ item ∈ items, Sweeps (change item) (region item) value)
    (disjoint : items.Pairwise fun item item' =>
      ∀ place, region item place → ¬ region item' place) :
    Sweeps (fun state => items.foldl (fun state item => change item state) state)
      (fun place => ∃ item ∈ items, region item place) value := by
  induction items with
  | nil =>
    refine nothing.congr fun place => ?_
    simp
  | cons item items ih =>
    obtain ⟨apart, disjointRest⟩ := List.pairwise_cons.mp disjoint
    have rest := ih (fun other mem => sweeps other (List.mem_cons_of_mem _ mem)) disjointRest
    have both := (sweeps item List.mem_cons_self).comp rest (by
      rintro place isHere ⟨other, mem, isThere⟩
      exact apart other mem place isHere isThere)
    refine both.congr fun place => ?_
    simp

end Sweeps

end Damov.Library
