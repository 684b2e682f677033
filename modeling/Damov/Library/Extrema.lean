import Mathlib.Data.Prod.Lex
import Mathlib.Order.Basic

/-!
# Running minima and maxima

A loop that keeps the best element so far, and replaces it only by a better one,
ends with the first of the smallest elements. Another loop keeps the largest value
of a measure.
-/

namespace Damov.Library
open List

universe u v

variable {α : Type u} {β : Type v} [LinearOrder β] {measure : α → β}

/-- The element is the first one of the list with the smallest measure. -/
def Leads (measure : α → β) (list : List α) (best : α) : Prop :=
  ∃ before after, list = before ++ best :: after ∧
    (∀ other ∈ before, measure best < measure other) ∧
    ∀ other ∈ after, measure best ≤ measure other

namespace Leads

variable {list : List α} {best : α}

theorem singleton (measure : α → β) (only : α) : Leads measure [only] only :=
  ⟨[], [], rfl, nofun, nofun⟩

variable (leads : Leads measure list best)
include leads

theorem mem : best ∈ list := by
  obtain ⟨before, after, rfl, -, -⟩ := leads
  exact mem_append_right before mem_cons_self

theorem le {other : α} (mem : other ∈ list) : measure best ≤ measure other := by
  obtain ⟨before, after, rfl, smaller, least⟩ := leads
  obtain earlier | later := mem_append.mp mem
  · exact le_of_lt (smaller other earlier)
  · obtain rfl | later := mem_cons.mp later
    · exact le_refl _
    · exact least other later

/-- The next element is not better. -/
theorem keep {next : α} (notBetter : ¬ measure next < measure best) :
    Leads measure (list ++ [next]) best := by
  obtain ⟨before, after, rfl, smaller, least⟩ := leads
  refine ⟨before, after ++ [next], ?_, smaller, ?_⟩
  · rw [append_assoc, cons_append]
  · exact forall_mem_append.mpr ⟨least, forall_mem_singleton.mpr (le_of_not_gt notBetter)⟩

/-- The next element is better. -/
theorem replace {next : α} (better : measure next < measure best) :
    Leads measure (list ++ [next]) next :=
  ⟨list, [], rfl, fun _ mem => lt_of_lt_of_le better (leads.le mem), nofun⟩

/-- A measure that keeps the order of another, and its ties, has the same best
element. -/
theorem transfer {γ : Type*} [LinearOrder γ] {other : α → γ}
    (keeps : ∀ a ∈ list, ∀ b ∈ list, other a < other b → measure a < measure b)
    (ties : ∀ a b, other a = other b → measure a = measure b) : Leads other list best := by
  have isMem := leads.mem
  obtain ⟨before, after, rfl, smaller, least⟩ := leads
  refine ⟨before, after, rfl, fun a mem => ?_, fun a mem => ?_⟩
  · have less := smaller a mem
    rcases lt_trichotomy (other best) (other a) with lt | same | gt
    · exact lt
    · exact absurd (ties _ _ same) less.ne
    · exact absurd (keeps a (by simp [mem]) best isMem gt) less.not_gt
  · exact le_of_not_gt fun gt =>
      absurd (keeps a (by simp [mem]) best isMem gt) (least a mem).not_gt

end Leads

/-- The best element so far, if there has been one. -/
def BestOf (measure : α → β) (list : List α) : Option α → Prop
  | none => list = []
  | some best => Leads measure list best

/-- One turn of the loop. -/
theorem BestOf.add {list : List α} {best : Option α}
    (isBest : BestOf measure list best) {next chosen : α} (first : best = none → chosen = next)
    (later : ∀ old ∈ best, chosen = if measure next < measure old then next else old) :
    BestOf measure (list ++ [next]) (some chosen) := by
  cases best with
  | none =>
    rw [first rfl, show list = [] from isBest]
    exact Leads.singleton measure next
  | some old =>
    rw [later old rfl]
    split
    case isTrue better => exact Leads.replace isBest better
    case isFalse notBetter => exact Leads.keep isBest notBetter

/-- The elements of a class, or all of them if the class is empty. -/
def prior (first : α → Bool) (list : List α) : List α :=
  if list.any first then list.filter first else list

theorem prior_subset (first : α → Bool) (list : List α) : prior first list ⊆ list := by
  unfold prior
  split
  · exact fun _ mem => (mem_filter.mp mem).1
  · exact Subset.refl list

/-- Where a class comes first, the best element is the best one of the class. -/
theorem BestOf.prior {first : α → Bool} {list : List α} {best : Option α}
    (isBest : BestOf (fun item => toLex (!first item, measure item)) list best) :
    BestOf measure (prior first list) best := by
  cases best with
  | none =>
    rw [show list = [] from isBest]
    rfl
  | some best =>
    obtain ⟨before, after, rfl, smaller, least⟩ := isBest
    simp only [Prod.Lex.toLex_lt_toLex, Prod.Lex.toLex_le_toLex, Bool.lt_iff] at smaller least
    unfold Library.prior
    cases inClass : first best with
    | true =>
      exact ⟨before.filter first, after.filter first, by simp [inClass], by grind, by grind⟩
    | false =>
      rw [if_neg]
      · exact ⟨before, after, rfl, by grind, by grind⟩
      · grind

variable (measure : α → Nat)

/-- The largest measure of the elements, and at least `start`. -/
def largest (start : Nat) (elems : List α) : Nat :=
  elems.foldl (fun most element => max most (measure element)) start

theorem start_le_largest (start : Nat) (elems : List α) : start ≤ largest measure start elems := by
  induction elems generalizing start with
  | nil => exact le_refl start
  | cons elem elems ih =>
    exact le_trans (le_max_left _ _) (ih _)

theorem le_largest (start : Nat) {elems : List α} {elem : α} (mem : elem ∈ elems) :
    measure elem ≤ largest measure start elems := by
  induction elems generalizing start with
  | nil => cases mem
  | cons first elems ih =>
    obtain rfl | mem := List.mem_cons.mp mem
    · exact le_trans (le_max_right _ _) (start_le_largest measure _ _)
    · exact ih _ mem

end Damov.Library
