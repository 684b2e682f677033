import Mathlib.Data.List.Nodup

/-!
# Lists linked through their elements

A list of objects in memory is a pointer to the first object; each object points
to the next one. `Chain next head list` says which objects such a list holds.
-/

namespace Damov.Library.Links

open Function (update update_of_ne update_self)
open List

variable {α : Type} {next : α → Option α} {head : Option α} {list : List α}
variable {object : α}

def Chain (next : α → Option α) : Option α → List α → Prop
  | head, [] => head = none
  | head, first :: rest => head = some first ∧ Chain next (next first) rest

theorem Chain.nil_iff (chain : Chain next head list) : head = none ↔ list = [] := by
  cases list with
  | nil => simpa [Chain] using chain
  | cons first rest => simp [chain.1]

/-- Any object of a chain points to the one after it. -/
theorem Chain.next_eq {before after : List α}
    (chain : Chain next head (before ++ object :: after)) :
    next object = after.head? := by
  induction before generalizing head with
  | nil =>
    obtain ⟨-, rest⟩ := chain
    cases after with
    | nil => exact rest
    | cons second after => exact rest.1
  | cons first before ih => exact ih chain.2

theorem Chain.head_eq (chain : Chain next head list) : head = list.head? := by
  cases list with
  | nil => exact chain
  | cons first rest => exact chain.1

/-- A chain only depends on the links of its objects. -/
theorem Chain.congr {other : α → Option α} (chain : Chain next head list)
    (same : ∀ object ∈ list, other object = next object) :
    Chain other head list := by
  induction list generalizing head with
  | nil => exact chain
  | cons first rest ih =>
    refine ⟨chain.1, ?_⟩
    rw [same first mem_cons_self]
    apply ih chain.2
    exact fun object mem => same object (mem_cons_of_mem first mem)

variable [DecidableEq α]

/-- A chain does not depend on the links of other objects. -/
theorem Chain.update (chain : Chain next head list) (absent : object ∉ list) (link : Option α) :
    Chain (update next object link) head list := by
  induction list generalizing head with
  | nil => exact chain
  | cons first rest ih =>
    rw [mem_cons, not_or] at absent
    refine ⟨chain.1, ?_⟩
    rw [update_of_ne (Ne.symm absent.1)]
    exact ih chain.2 absent.2

theorem Chain.push (chain : Chain next head list) (absent : object ∉ list) :
    Chain (Function.update next object head) (some object) (object :: list) := by
  refine ⟨rfl, ?_⟩
  rw [update_self]
  exact chain.update absent head

/-- The links when the object after `last` is left out. -/
def bypass (next : α → Option α) (last link : Option α) : α → Option α :=
  match last with
  | none => next
  | some object => Function.update next object link

theorem bypass_of_ne {last link : Option α} (other : last ≠ some object) :
    bypass next last link object = next object := by
  cases last with
  | none => rfl
  | some changed =>
    exact update_of_ne (fun same => other (congrArg some same.symm)) ..

/-- A chain from which one object is taken out. -/
theorem Chain.remove {before after : List α} (chain : Chain next head (before ++ object :: after))
    (nodup : (before ++ object :: after).Nodup) :
    Chain (bypass next before.getLast? (next object))
      (if before = [] then next object else head) (before ++ after) := by
  induction before generalizing head with
  | nil => exact chain.2
  | cons first before ih =>
    obtain ⟨isHead, rest⟩ := chain
    obtain ⟨fresh, nodup⟩ := nodup_cons.mp nodup
    have shorter := ih rest nodup
    cases before with
    | nil =>
      refine ⟨isHead, ?_⟩
      have absent : first ∉ after := fun mem =>
        fresh (mem_cons_of_mem object mem)
      rw [getLast?_singleton, bypass, update_self]
      exact Chain.update shorter absent _
    | cons second before =>
      refine ⟨isHead, ?_⟩
      rw [getLast?_cons_cons]
      have other : (second :: before).getLast? ≠ some first := by
        intro same
        exact fresh (mem_append_left _ (mem_of_getLast? same))
      rwa [bypass_of_ne other]

/-- A chain to which an object is added at the end. -/
theorem Chain.concat (chain : Chain next head list) (nodup : list.Nodup)
    (absent : object ∉ list) (unlinked : next object = none) :
    Chain (bypass next list.getLast? (some object))
      (if list = [] then some object else head) (list ++ [object]) := by
  induction list generalizing head with
  | nil => exact ⟨rfl, unlinked⟩
  | cons first rest ih =>
    obtain ⟨isHead, tail⟩ := chain
    obtain ⟨fresh, nodup⟩ := nodup_cons.mp nodup
    rw [mem_cons, not_or] at absent
    have longer := ih tail nodup absent.2
    refine ⟨isHead, ?_⟩
    cases rest with
    | nil =>
      rw [getLast?_singleton, bypass, update_self]
      refine ⟨rfl, ?_⟩
      rwa [update_of_ne absent.1]
    | cons second rest =>
      rw [getLast?_cons_cons]
      have other : (second :: rest).getLast? ≠ some first := fun same =>
        fresh (mem_of_getLast? same)
      rwa [bypass_of_ne other]

end Damov.Library.Links
