import Mathlib.Data.List.Perm.Basic

/-!
# Moving the entries of lists

Two ways in which programs rearrange an array: exchanging two entries, and
filling the place of a removed entry with the last one.

Of several components of one kind, `gather n content family` lists what the first
`n` contain. Changing one component exchanges its old content for its new one and
leaves the rest.
-/

namespace Damov.Library.ListMoves
open List

variable {α : Type} {list : List α} {i j : Nat} {a b : α}

theorem lt_length_of_getElem? (entry : list[i]? = some a) : i < list.length :=
  (List.getElem?_eq_some_iff.mp entry).choose

/-- The entries of a list without duplicates determine their positions. -/
theorem position_unique (nodup : list.Nodup) (first : list[i]? = some a)
    (second : list[j]? = some a) :
    i = j :=
  (getElem?_inj (lt_length_of_getElem? first) nodup).mp (first.trans second.symm)

theorem notMem_take_iff (nodup : list.Nodup) (entry : list[i]? = some a) {n : Nat} :
    a ∉ list.take n ↔ n ≤ i := by
  constructor
  · intro outside
    by_contra behind
    apply outside
    apply mem_of_getElem?
    rwa [getElem?_take_of_lt (Nat.lt_of_not_le behind)]
  · intro ahead mem
    obtain ⟨k, found⟩ := mem_iff_getElem?.mp mem
    have before : k < n := by
      have bound := lt_length_of_getElem? found
      rw [length_take] at bound
      omega
    rw [getElem?_take_of_lt before] at found
    have same := position_unique nodup entry found
    omega

/-! ## Exchanging two entries -/

section

variable (first : list[i]? = some a) (second : list[j]? = some b)
include first second

theorem exchange_perm : ((list.set i b).set j a).Perm list := by
  obtain ⟨mem, rfl⟩ := List.getElem?_eq_some_iff.mp first
  rcases List.getElem?_eq_some_iff.mp second with ⟨mem', rfl⟩
  exact set_set_perm mem mem'

theorem exchange_getElem? (k : Nat) : ((list.set i b).set j a)[k]? =
      if j = k then some a else if i = k then some b else list[k]? := by
  have mem := lt_length_of_getElem? first
  have mem' := lt_length_of_getElem? second
  simp only [getElem?_set, length_set, mem, mem', if_true]

/-- An exchange on one side of a position keeps what is before it. -/
theorem exchange_take_perm {n : Nat} (side : i < n ↔ j < n) :
    (((list.set i b).set j a).take n).Perm (list.take n) := by
  rw [take_set, take_set]
  by_cases before : i < n
  · apply exchange_perm
    · rwa [getElem?_take_of_lt before]
    · rwa [getElem?_take_of_lt (side.mp before)]
  · have behind : ¬ j < n := fun before' => before (side.mpr before')
    rw [set_eq_of_length_le, set_eq_of_length_le]
    all_goals simp; omega

end

/-! ## Filling a gap with the last entry -/

theorem fill_perm (entry : list[i]? = some a) (last : list[list.length - 1]? = some b) :
    (a :: (list.set i b).take (list.length - 1)).Perm list := by
  have mem := lt_length_of_getElem? entry
  have gap : (list.take (list.length - 1))[i]?.getD b = a := by
    by_cases before : i < list.length - 1
    · rw [getElem?_take_of_lt before, entry, Option.getD_some]
    · have eq : i = list.length - 1 := by omega
      rw [eq, last] at entry
      rw [getElem?_take_eq_none (Nat.le_of_not_lt before)]
      exact Option.some.inj entry
  have restored : list.take (list.length - 1) ++ [b] = list := by
    have taken := take_add_one (l := list) (i := list.length - 1)
    rw [last, Nat.sub_add_cancel (by omega), take_length] at taken
    exact taken.symm
  rw [take_set]
  have perm := getD_set_perm_cons (list.take (list.length - 1)) i b
  rw [gap] at perm
  apply perm.trans
  conv => rhs; rw [← restored]
  exact (perm_append_singleton b _).symm

theorem fill_getElem? {k : Nat} {c : α}
    (found : ((list.set i b).take (list.length - 1))[k]? = some c) :
    k < list.length - 1 ∧ (i = k ∧ c = b ∨ i ≠ k ∧ list[k]? = some c) := by
  have before : k < list.length - 1 := by
    have mem := lt_length_of_getElem? found
    rw [length_take] at mem
    exact Nat.lt_of_lt_of_le mem (Nat.min_le_left _ _)
  refine ⟨before, ?_⟩
  rw [getElem?_take_of_lt before] at found
  by_cases same : i = k
  · subst same
    rw [getElem?_set_self (by omega)] at found
    exact .inl ⟨rfl, (Option.some.inj found).symm⟩
  · rw [getElem?_set_ne same] at found
    exact .inr ⟨same, found⟩

/-! ## Entries with distinct keys -/

section Keys

variable {κ : Type} [DecidableEq κ] {key : α → κ}

theorem filter_key (nodup : (list.map key).Nodup) (mem : a ∈ list) :
    list.filter (fun entry => key entry = key a) = [a] := by
  induction list with
  | nil => cases mem
  | cons entry list ih =>
    rw [map_cons, nodup_cons] at nodup
    rcases mem_cons.mp mem with rfl | later
    · rw [filter_cons_of_pos (by simp), filter_eq_nil_iff.mpr]
      intro other mem' same
      apply nodup.1
      rw [← of_decide_eq_true same]
      exact mem_map_of_mem mem'
    rw [filter_cons_of_neg, ih nodup.2 later]
    intro same
    apply nodup.1
    rw [of_decide_eq_true same]
    exact mem_map_of_mem later

/-- Selecting entries, with one of them apart. -/
theorem filter_perm_cons (nodup : (list.map key).Nodup) (mem : a ∈ list)
    {select : α → Bool} (selected : select a = true) :
    (list.filter select).Perm
      (a :: list.filter fun entry => select entry && key entry ≠ key a) := by
  have parts := filter_append_perm (fun entry => decide (key entry = key a)) (list.filter select)
  rw [filter_filter, filter_filter] at parts
  have first : list.filter (fun entry => decide (key entry = key a) && select entry) = [a] := by
    rw [← filter_filter, filter_comm, filter_key nodup mem]
    simp [selected]
  rw [first, singleton_append] at parts
  refine parts.symm.trans (List.Perm.of_eq ?_)
  congr 2
  funext entry
  simp [Bool.and_comm]

end Keys

end Damov.Library.ListMoves

namespace Damov.Library.Families

open Function List

variable {α β : Type} {content : β → List α} {family : Nat → β} {n : Nat}

/-- The content of the first `n` components. -/
def gather (n : Nat) (content : β → List α) (family : Nat → β) : List α :=
  (List.range n).flatMap fun index => content (family index)

theorem gather_succ :
    gather (n + 1) content family = gather n content family ++ content (family n) := by
  simp [gather, range_succ]

theorem gather_congr {other : Nat → β}
    (agree : ∀ index < n, content (other index) = content (family index)) :
    gather n content other = gather n content family := by
  unfold gather
  rw [flatMap_congr]
  intro index mem
  exact agree index (mem_range.mp mem)

theorem count_gather_append [DecidableEq α] (first second : β → List α) (family : Nat → β) (a : α) :
    (gather n (fun component => first component ++ second component) family).count a =
      (gather n first family).count a + (gather n second family).count a := by
  induction n with
  | zero => rfl
  | succ n ih =>
    simp only [gather_succ, count_append]
    omega

theorem count_le_gather [DecidableEq α] (content : β → List α)
    (family : Nat → β) {i : Nat} (mem : i < n) (a : α) :
    (content (family i)).count a ≤ (gather n content family).count a := by
  induction n with
  | zero => exact absurd mem (Nat.not_lt_zero i)
  | succ n ih =>
    rw [gather_succ, count_append]
    by_cases last : i = n
    · subst last
      omega
    · have before := ih (by omega)
      omega

/-- An update exchanges the content of one component. -/
theorem count_gather_update [DecidableEq α] (content : β → List α)
    (family : Nat → β) {i : Nat} (mem : i < n) (new : β) (a : α) :
    (gather n content (update family i new)).count a + (content (family i)).count a =
      (gather n content family).count a + (content new).count a := by
  induction n with
  | zero => exact absurd mem (Nat.not_lt_zero i)
  | succ n ih =>
    rw [gather_succ, gather_succ, count_append, count_append]
    by_cases last : i = n
    · subst last
      have before : gather i content (update family i new) = gather i content family := by
        apply gather_congr
        intro index below
        rw [update_of_ne (Nat.ne_of_lt below)]
      rw [before, update_self]
      omega
    · have exchanged := ih (by omega)
      rw [update_of_ne (Ne.symm last)]
      omega

end Damov.Library.Families
