import Mathlib.Data.List.Induction

/-!
# Recency

The distinct elements of a sequence of accesses, the most recent one first.
-/

namespace Damov.Library
open List

universe u

variable {α : Type u} [DecidableEq α]

/-- The element becomes the most recent one. -/
def touch (recent : List α) (element : α) : List α := element :: recent.erase element

variable (accesses : List α)

/-- The distinct elements, the most recent one first. -/
def recency : List α := accesses.foldl touch []

variable {recent : List α} {keep : α → Bool} {n : Nat}

theorem nodup_touch (nodup : recent.Nodup) (elem : α) : (touch recent elem).Nodup :=
  nodup_cons.mpr ⟨nodup.not_mem_erase, nodup.erase elem⟩

theorem nodup_recency : (recency accesses).Nodup := foldlRecOn accesses touch nodup_nil
    fun _ nodup elem _ => nodup_touch nodup elem

variable {elem : α} {list : List α}

theorem mem_touch {other : α} : other ∈ touch recent elem ↔ other = elem ∨ other ∈ recent := by
  rw [touch]
  by_cases same : other = elem
  · simp [same]
  · simp [same]

theorem recency_concat (element : α) :
    recency (accesses ++ [element]) = touch (recency accesses) element := by
  rw [recency, foldl_append]
  rfl

theorem mem_recency {accesses : List α} : elem ∈ recency accesses ↔ elem ∈ accesses := by
  induction accesses using reverseRecOn with
  | nil => rfl
  | append_singleton accesses last ih =>
    rw [recency_concat, mem_touch, ih, mem_append, mem_singleton]
    exact or_comm

/-! ## Part of the elements -/

theorem filter_erase_of_pos {element : α} (keeps : keep element = true) :
    (list.erase element).filter keep = (list.filter keep).erase element := by
  induction list with
  | nil => rfl
  | cons first rest ih =>
    by_cases same : first = element
    · rw [same, erase_cons_head, filter_cons_of_pos keeps, erase_cons_head]
    rw [erase_cons_tail (by simpa using same)]
    by_cases kept : keep first = true
    · rw [filter_cons_of_pos kept, filter_cons_of_pos kept,
        erase_cons_tail (by simpa using same), ih]
    · rw [filter_cons_of_neg kept, filter_cons_of_neg kept, ih]

theorem filter_erase_of_neg (drops : ¬ keep elem = true) :
    (list.erase elem).filter keep = list.filter keep := by
  induction list with
  | nil => rfl
  | cons first rest ih =>
    by_cases same : first = elem
    · rw [same, erase_cons_head, filter_cons_of_neg drops]
    · rw [erase_cons_tail (by simpa using same), filter_cons, filter_cons, ih]

/-! ## The most recent ones -/

theorem take_erase_of_mem (mem : elem ∈ list.take (n + 1)) :
    (list.take (n + 1)).erase elem = (list.erase elem).take n := by
  induction list generalizing n with
  | nil => cases mem
  | cons first rest ih =>
    rw [take_succ_cons] at mem ⊢
    by_cases same : first = elem
    · subst same
      rw [erase_cons_head, erase_cons_head]
    obtain isFirst | later := mem_cons.mp mem
    · exact absurd isFirst.symm same
    cases n with
    | zero => cases later
    | succ n =>
      rw [erase_cons_tail (by simpa using same),
        erase_cons_tail (by simpa using same), take_succ_cons,
        ih later]

theorem take_erase_of_notMem (outside : elem ∉ list.take n) :
    (list.erase elem).take n = list.take n := by
  induction list generalizing n with
  | nil => rfl
  | cons first rest ih =>
    cases n with
    | zero => rfl
    | succ n =>
      rw [take_succ_cons, mem_cons, not_or] at outside
      rw [erase_cons_tail (by simpa using Ne.symm outside.1),
        take_succ_cons, take_succ_cons, ih outside.2]

end Damov.Library
