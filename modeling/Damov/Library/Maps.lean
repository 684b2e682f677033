import Mathlib.Algebra.BigOperators.Group.Finset.Basic
import Mathlib.Algebra.Ring.Nat
import Mathlib.Data.List.Basic
import Mathlib.Order.Interval.Finset.Nat

/-!
# Maps as lists

A map from numbers to values is the list of its entries in the order of their
keys, which `valueAt` reads as a total function. A multimap is a list of pairs: the
values of one key are in the order in which they were inserted, and a lookup finds
the oldest one.
-/

namespace Damov.Library.SortedMap
open List

variable {V : Type} {empty value : V} {key : Nat}
variable {entries : List (Nat × V)}

/-- The keys increase. -/
def Sorted (entries : List (Nat × V)) : Prop :=
  entries.Pairwise fun first second => first.1 < second.1

def valueAt (empty : V) : List (Nat × V) → Nat → V
  | [], _ => empty
  | entry :: rest, key => if key = entry.1 then entry.2 else valueAt empty rest key

@[simp]
theorem valueAt_nil : valueAt empty [] key = empty := rfl

@[simp]
theorem valueAt_cons_self {rest : List (Nat × V)} :
    valueAt empty ((key, value) :: rest) key = value :=
  if_pos rfl

theorem valueAt_cons_of_ne {entry : Nat × V} (apart : key ≠ entry.1) :
    valueAt empty (entry :: entries) key = valueAt empty entries key :=
  if_neg apart

theorem valueAt_eq_empty (absent : ∀ entry ∈ entries, entry.1 ≠ key) :
    valueAt empty entries key = empty := by
  induction entries with
  | nil => rfl
  | cons entry entries ih =>
    rw [valueAt_cons_of_ne (absent entry mem_cons_self).symm]
    exact ih fun other mem =>
      absent other (mem_cons_of_mem _ mem)

theorem Sorted.tail {entry : Nat × V} (sorted : Sorted (entry :: entries)) : Sorted entries :=
  (pairwise_cons.mp sorted).2

theorem Sorted.head_lt {entry : Nat × V} (sorted : Sorted (entry :: entries)) :
    ∀ other ∈ entries, entry.1 < other.1 :=
  (pairwise_cons.mp sorted).1

/-- The weights of the entries are the weights of the values at all keys. -/
theorem sum_valueAt (empty : V) (weight : V → Nat) (keys : Finset Nat)
    (zero : weight empty = 0) (sorted : Sorted entries) (mem : ∀ entry ∈ entries, entry.1 ∈ keys) :
    ∑ key ∈ keys, weight (valueAt empty entries key) =
      (entries.map fun entry => weight entry.2).sum := by
  induction entries with
  | nil => simp [zero]
  | cons entry entries ih =>
    have isKey := mem entry mem_cons_self
    have rest := ih sorted.tail fun other isOther =>
      mem other (mem_cons_of_mem _ isOther)
    -- The key of the first entry is not one of the others.
    have absent : valueAt empty entries entry.1 = empty := valueAt_eq_empty fun other isOther =>
        (ne_of_lt (sorted.head_lt other isOther)).symm
    rw [map_cons, sum_cons, ← rest,
      ← Finset.add_sum_erase _ _ isKey, ← Finset.add_sum_erase _ _ isKey,
      absent, zero, zero_add]
    congr 1
    · rw [valueAt, if_pos rfl]
    · apply Finset.sum_congr rfl
      intro key isOther
      rw [valueAt_cons_of_ne (Finset.ne_of_mem_erase isOther)]

end Damov.Library.SortedMap

namespace Damov.Library
open List

universe u v

abbrev Multimap (κ : Type u) (α : Type v) : Type (max u v) := List (κ × α)

namespace Multimap

variable {κ : Type u} {α : Type v} [DecidableEq κ]
variable {key : κ} {value : α} {map : Multimap κ α}

def insertPair (key : κ) (value : α) (map : Multimap κ α) : Multimap κ α := map ++ [(key, value)]

/-- The oldest value of the key. -/
def findKey (key : κ) (map : Multimap κ α) : Option α :=
  (map.find? fun pair => pair.1 = key).map Prod.snd

/-- Remove what `findKey` finds. -/
def eraseKey (key : κ) (map : Multimap κ α) : Multimap κ α := map.eraseP fun pair => pair.1 = key

/-- The values of a key, the oldest one first. -/
def valuesOf (key : κ) (map : Multimap κ α) : List α :=
  (map.filter fun pair => pair.1 = key).map Prod.snd

theorem valuesOf_insertPair (other : κ) :
    valuesOf other (insertPair key value map) = if other = key then valuesOf other map ++ [value]
      else valuesOf other map := by
  rw [insertPair]
  by_cases same : other = key
  · simp [same, valuesOf]
  · simp [same, Ne.symm same, valuesOf]

theorem findKey_eq_head : findKey key map = (valuesOf key map).head? := by
  rw [findKey, valuesOf, head?_map, head?_filter]

theorem valuesOf_eraseKey (other : κ) :
    valuesOf other (eraseKey key map) = if other = key then (valuesOf other map).tail
      else valuesOf other map := by
  induction map with
  | nil => simp [eraseKey, valuesOf]
  | cons pair rest ih =>
    by_cases here : pair.1 = key
    · rw [eraseKey]
      by_cases same : other = key
      · simp [valuesOf, here, same]
      · simp [valuesOf, here, same, Ne.symm same]
    rw [eraseKey, eraseP_cons_of_neg (by simpa using here)]
    by_cases same : other = key
    · simp only [valuesOf, eraseKey, same] at ih ⊢
      rw [filter_cons_of_neg (by simpa using here), filter_cons_of_neg (by simpa using here), ih]
    simp only [valuesOf, eraseKey, same, if_false] at ih ⊢
    by_cases isOther : pair.1 = other
    · rw [filter_cons_of_pos (by simpa using isOther), filter_cons_of_pos (by simpa using isOther),
        map_cons, map_cons, ih]
    · rw [filter_cons_of_neg (by simpa using isOther),
        filter_cons_of_neg (by simpa using isOther), ih]

theorem findKey_mem (found : findKey key map = some value) : (key, value) ∈ map := by
  rw [findKey, Option.map_eq_some_iff] at found
  obtain ⟨pair, isPair, rfl⟩ := found
  have isKey : pair.1 = key := by simpa using find?_some isPair
  rw [← isKey]
  exact mem_of_find?_eq_some isPair

theorem findKey_isSome (value : α) (mem : (key, value) ∈ map) :
    ∃ oldest, findKey key map = some oldest := by
  rw [← Option.isSome_iff_exists, findKey, Option.isSome_map, find?_isSome]
  exact ⟨(key, value), mem, by simp⟩

theorem perm_eraseKey (found : findKey key map = some value) :
    map.Perm ((key, value) :: eraseKey key map) := by
  induction map with
  | nil => simp [findKey] at found
  | cons pair rest ih =>
    by_cases here : pair.1 = key
    · have isValue : pair.2 = value := by simpa [findKey, here] using found
      rw [eraseKey, eraseP_cons_of_pos (by simpa using here), ← here, ← isValue]
    · rw [eraseKey, eraseP_cons_of_neg (by simpa using here)]
      have later : findKey key rest = some value := by simpa [findKey, here] using found
      exact ((ih later).cons pair).trans (List.Perm.swap _ _ _)

end Multimap

end Damov.Library
