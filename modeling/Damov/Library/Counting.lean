import Mathlib.Algebra.BigOperators.Group.Finset.Basic
import Mathlib.Data.Fintype.Card
import Mathlib.Data.Nat.Count

/-!
# Counting

`population f v` counts the arguments at which a function of a finite type has
the value `v`. Changing the function at one argument moves that argument from
the population of its old value to that of the new one.

A histogram is a map from buckets to numbers that is filled one event at a time.
`Tallies` says that it has exactly the expected buckets and that the bucket of
index `k` counts the events among the first `n` that belong to it. An event
belongs to one bucket or to none.
-/

namespace Damov.Library.Counting

open Function Finset

variable {α β : Type} [Fintype α] [DecidableEq β]

def population (f : α → β) (v : β) : Nat := (Finset.univ.filter fun a => f a = v).card

theorem population_eq_zero {f : α → β} {v : β} : population f v = 0 ↔ ∀ a, f a ≠ v := by
  simp [population]

theorem population_pos {f : α → β} {v : β} {a : α} (value : f a = v) : 0 < population f v :=
  card_pos.mpr ⟨a, by simpa using value⟩

theorem population_le (f : α → β) (v : β) : population f v ≤ Fintype.card α := card_le_univ _

theorem population_const (value : β) :
    (population fun _ : α => value) = fun v => if v = value then Fintype.card α else 0 := by
  funext v
  split
  case isTrue same =>
    rw [same, population, filter_true_of_mem fun _ _ => rfl, card_univ]
  case isFalse other =>
    rw [population_eq_zero]
    exact fun _ eq => other eq.symm

section Update

variable [DecidableEq α] {f : α → β} {a : α} {new : β}

theorem population_update_new (changes : f a ≠ new) :
    population (update f a new) new = population f new + 1 := by
  have grows : (univ.filter fun b => update f a new b = new) =
        insert a (univ.filter fun b => f b = new) := by
    ext b
    by_cases same : b = a <;> simp [same]
  rw [population, grows, card_insert_of_notMem (by simpa using changes)]
  rfl

theorem population_update_old {old : β} (value : f a = old) (changes : old ≠ new) :
    population (update f a new) old = population f old - 1 := by
  have shrinks :
      (univ.filter fun b => update f a new b = old) = (univ.filter fun b => f b = old).erase a := by
    ext b
    by_cases same : b = a
    · simp [same, changes.symm]
    · simp [same]
  rw [population, shrinks, card_erase_of_mem (by simpa using value)]
  rfl

theorem population_update_other {other : β} (old : f a ≠ other) (changes : new ≠ other) :
    population (update f a new) other = population f other := by
  unfold population
  congr 1
  ext b
  by_cases same : b = a <;> simp [same, old, changes]

end Update

/-- Counters after one element has left the count of `old` for that of `new`. -/
def transfer (counts : β → Nat) (old new : β) : β → Nat :=
  update (update counts old (counts old - 1)) new (update counts old (counts old - 1) new + 1)

/-- A transfer keeps the counters of a function that changes at one argument. -/
theorem transfer_population [DecidableEq α] (f : α → β) (a : α) (new : β) :
    transfer (population f) (f a) new = population (update f a new) := by
  by_cases same : f a = new
  · have positive : 0 < population f new := population_pos same
    have back : population f new - 1 + 1 = population f new := by omega
    rw [transfer, same, update_self, update_idem, back, update_eq_self, ← same, update_eq_self]
  funext other
  rw [transfer, update_of_ne (Ne.symm same)]
  by_cases isNew : other = new
  · rw [isNew, update_self, population_update_new same]
  · rw [update_of_ne isNew]
    by_cases isOld : other = f a
    · rw [isOld, update_self, population_update_old rfl same]
    · rw [update_of_ne isOld, population_update_other (Ne.symm isOld) (Ne.symm isNew)]

theorem sum_population [Fintype β] (f : α → β) : ∑ v, population f v = Fintype.card α :=
  (card_eq_sum_card_fiberwise fun a _ => mem_univ (f a)).symm

end Damov.Library.Counting

namespace Damov.Library.Tally

open Function Finset
open scoped Classical

variable {κ : Type} [DecidableEq κ]

/-- Count one more in a bucket, which is created if it does not exist. -/
def bump (histogram : κ → Option Nat) (key : κ) : κ → Option Nat :=
  update histogram key (some ((histogram key).getD 0 + 1))

theorem bump_ne (histogram : κ → Option Nat) (key : κ) : bump histogram key ≠ histogram := by
  intro same
  have counted := congrFun same key
  cases found : histogram key <;> simp [bump, found] at counted

variable {slot : Nat → κ} {size n : Nat} {belongs : Nat → Nat → Prop}
variable {histogram : κ → Option Nat}

/-- The buckets are those of the indices below `size`, and they count the events
before `n` that belong to them. -/
structure Tallies (slot : Nat → κ) (size : Nat) (belongs : Nat → Nat → Prop) (n : Nat)
    (histogram : κ → Option Nat) : Prop where
  counted : ∀ k < size, histogram (slot k) = some (Nat.count (belongs k) n)
  others : ∀ key, (∀ k < size, key ≠ slot k) → histogram key = none

/-- The histogram with all its buckets at zero. -/
def zeros (slot : Nat → κ) (size : Nat) : κ → Option Nat :=
  (List.range size).foldl (fun histogram i => update histogram (slot i) (some 0))
    fun _ => none

theorem tallies_zeros : Tallies slot size belongs 0 (zeros slot size) := by
  induction size with
  | zero => exact ⟨nofun, fun _ _ => rfl⟩
  | succ size tallies =>
    rw [zeros, List.range_succ, List.foldl_append]
    refine ⟨?_, ?_⟩
    · intro k mem
      rw [List.foldl_cons, List.foldl_nil, Nat.count_zero]
      by_cases same : slot k = slot size
      · rw [same, update_self]
      · rw [update_of_ne same]
        have apart : k ≠ size := fun eq => same (congrArg slot eq)
        exact tallies.counted k (by omega)
    · intro key apart
      rw [List.foldl_cons, List.foldl_nil, update_of_ne (apart size (Nat.lt_succ_self size))]
      exact tallies.others key fun k mem => apart k (by omega)

omit [DecidableEq κ] in
/-- An event that belongs to no bucket. -/
theorem Tallies.miss (tallies : Tallies slot size belongs n histogram)
    (nowhere : ∀ k, ¬ belongs k n) :
    Tallies slot size belongs (n + 1) histogram where
  counted := by
    intro k mem
    rw [tallies.counted k mem, Nat.count_succ, if_neg (nowhere k), add_zero]
  others := tallies.others

/-- An event that belongs to one bucket. -/
theorem Tallies.hit {k : Nat} (injective : Injective slot)
    (tallies : Tallies slot size belongs n histogram) (mem : k < size)
    (only : ∀ j, belongs j n ↔ j = k) :
    Tallies slot size belongs (n + 1) (bump histogram (slot k)) where
  counted := by
    intro j mem'
    by_cases same : j = k
    · subst same
      rw [bump, update_self, tallies.counted j mem, Nat.count_succ,
        if_pos ((only j).mpr rfl), Option.getD_some]
    · have apart : slot j ≠ slot k := fun eq => same (injective eq)
      rw [bump, update_of_ne apart, tallies.counted j mem',
        Nat.count_succ, if_neg (fun member => same ((only j).mp member)),
        add_zero]
  others := by
    intro key apart
    rw [bump, update_of_ne (apart k mem)]
    exact tallies.others key apart

/-- All events before `n` that belong to some bucket. -/
noncomputable def total (size : Nat) (belongs : Nat → Nat → Prop) (n : Nat) : Nat :=
  ∑ k ∈ Finset.range size, Nat.count (belongs k) n

theorem total_zero : total size belongs 0 = 0 := by simp [total]

theorem total_miss (nowhere : ∀ k, ¬ belongs k n) :
    total size belongs (n + 1) = total size belongs n := by simp [total, Nat.count_succ, nowhere]

theorem total_hit {k : Nat} (mem : k < size) (only : ∀ j, belongs j n ↔ j = k) :
    total size belongs (n + 1) = total size belongs n + 1 := by
  have once : ∑ j ∈ range size, (if belongs j n then 1 else 0) = 1 := by
    rw [sum_eq_single k]
    · exact if_pos ((only k).mpr rfl)
    · intro j _ apart
      exact if_neg fun member => apart ((only j).mp member)
    · intro outside
      exact absurd (mem_range.mpr mem) outside
  simp only [total, Nat.count_succ, sum_add_distrib, once]

omit [DecidableEq κ] in
theorem Tallies.sum (tallies : Tallies slot size belongs n histogram) :
    ∑ k ∈ Finset.range size, (histogram (slot k)).getD 0 = total size belongs n := by
  apply sum_congr rfl
  intro k mem
  rw [tallies.counted k (mem_range.mp mem), Option.getD_some]

end Damov.Library.Tally
