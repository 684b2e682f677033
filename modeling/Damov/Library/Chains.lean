import Mathlib.Data.Finset.Max
import Mathlib.Data.Fintype.Card
import Mathlib.Data.List.Chain
import Mathlib.Order.Bounds.Defs

/-!
# Heights and longest chains

In a finite acyclic relation, the number of elements below an element decreases
along every edge, so it bounds a recursion that follows the edges. Heights that
exceed those of all predecessors, by one over some predecessor, are the lengths of
the longest chains that end at an element.
-/

namespace Damov.Library.Acyclic

open Relation (TransGen)
open Finset

variable {α : Type*} [Fintype α] {edge : α → α → Prop}

open Classical in
noncomputable def height (edge : α → α → Prop) (vertex : α) : Nat :=
  (Finset.univ.filter (TransGen edge vertex)).card

section

variable (acyclic : ∀ vertex, ¬ TransGen edge vertex vertex)
include acyclic

theorem height_lt_of_edge {upper lower : α} (related : edge upper lower) :
    height edge lower < height edge upper := by
  apply card_lt_card
  rw [ssubset_iff_of_subset]
  · exact ⟨lower, by simpa using TransGen.single related, by simpa using acyclic lower⟩
  · intro vertex below
    simp only [mem_filter, mem_univ, true_and] at below ⊢
    exact TransGen.head related below

theorem height_lt_card (vertex : α) : height edge vertex < Fintype.card α := by
  apply card_lt_card
  rw [ssubset_iff_of_subset (subset_univ _)]
  exact ⟨vertex, mem_univ _, by simpa using acyclic vertex⟩

/-- What passes from all parents of a vertex to the vertex holds everywhere. -/
theorem forall_of_parents (holds : α → Prop)
    (passes : ∀ vertex, (∀ parent, edge parent vertex → holds parent) → holds vertex)
    (vertex : α) : holds vertex := by
  classical
  by_contra fails
  obtain ⟨highest, mem, maximal⟩ := exists_max_image (univ.filter fun other => ¬ holds other)
      (height edge) ⟨vertex, by simpa using fails⟩
  rw [mem_filter] at mem
  apply mem.2
  apply passes
  intro parent related
  by_contra failsParent
  have le := maximal parent (by simpa using failsParent)
  exact absurd le (not_le.mpr (height_lt_of_edge acyclic related))

end

end Damov.Library.Acyclic

namespace Damov.Library.LongestChain
open List

variable {α : Type} {related : α → α → Prop} {member : α → Prop}
variable {height : α → Nat}

/-- A chain of one or more members. -/
structure Chain (related : α → α → Prop) (member : α → Prop) (chain : List α) : Prop where
  nonempty : chain ≠ []
  members : ∀ a ∈ chain, member a
  isChain : chain.IsChain related

/-- A member without predecessors has height one, any other member is one higher
than its highest predecessor. -/
structure Heights (related : α → α → Prop) (member : α → Prop) (height : α → Nat) : Prop where
  increases : ∀ a b, member b → related a b → height a < height b
  reached : ∀ a, member a → height a = 1 ∨ ∃ b, member b ∧ related b a ∧ height a = height b + 1

variable {a : α} {chain : List α}

theorem Chain.singleton (isMember : member a) : Chain related member [a] where
  nonempty := cons_ne_nil _ _
  members := forall_mem_singleton.mpr isMember
  isChain := isChain_singleton a

theorem Chain.snoc {b : α} (isChain : Chain related member (chain ++ [b]))
    (isMember : member a) (step : related b a) :
    Chain related member ((chain ++ [b]) ++ [a]) where
  nonempty := by simp
  members := forall_mem_append.mpr ⟨isChain.members, forall_mem_singleton.mpr isMember⟩
  isChain := by
    refine isChain_append.mpr ⟨isChain.isChain, isChain_singleton a, ?_⟩
    intro c isLast d isHead
    rw [getLast?_concat, Option.mem_some_iff] at isLast
    rw [head?_cons, Option.mem_some_iff] at isHead
    rwa [← isLast, ← isHead]

theorem Chain.mono {related' : α → α → Prop} {member' : α → Prop}
    (isChain : Chain related member chain)
    (step : ∀ a b, member a → member b → related a b → related' a b)
    (still : ∀ a, member a → member' a) :
    Chain related' member' chain where
  nonempty := isChain.nonempty
  members := fun a mem => still a (isChain.members a mem)
  isChain := by
    refine isChain.isChain.imp_of_mem_imp ?_
    intro a b first second isRelated
    exact step a b (isChain.members a first) (isChain.members b second) isRelated

/-- Each step of a chain goes up. -/
theorem Heights.climb (heights : Heights related member height)
    {rest : List α} (members : ∀ b ∈ rest, member b) (isChain : (a :: rest).IsChain related) :
    ∃ b ∈ a :: rest, height a + rest.length ≤ height b := by
  induction rest generalizing a with
  | nil => exact ⟨a, mem_cons_self, le_rfl⟩
  | cons next rest ih =>
    obtain ⟨step, later⟩ := isChain_cons_cons.mp isChain
    have up := heights.increases a next (members next mem_cons_self) step
    rcases ih (fun b mem =>
      members b (mem_cons_of_mem _ mem)) later with ⟨b, mem, le⟩
    refine ⟨b, mem_cons_of_mem _ mem, ?_⟩
    rw [length_cons]
    omega

theorem Heights.pos (heights : Heights related mem height) (isMember : mem a) : 0 < height a := by
  rcases heights.reached a isMember with one | ⟨b, -, -, more⟩ <;> omega

theorem Heights.length_le (heights : Heights related member height)
    (isChain : Chain related member chain) :
    ∃ b, member b ∧ chain.length ≤ height b := by
  cases chain with
  | nil => exact absurd rfl isChain.nonempty
  | cons a rest =>
    have members : ∀ b ∈ rest, member b := fun b mem =>
      isChain.members b (mem_cons_of_mem _ mem)
    obtain ⟨b, mem, le⟩ := heights.climb members isChain.isChain
    have pos := heights.pos (isChain.members a mem_cons_self)
    refine ⟨b, isChain.members b mem, ?_⟩
    rw [length_cons]
    omega

/-- Some chain that ends at a member is as long as the member is high. -/
theorem Heights.exists_chain (heights : Heights related mem height) {n : Nat}
    (isMember : mem a) (isHeight : height a = n) :
    ∃ chain, Chain related mem (chain ++ [a]) ∧ chain.length + 1 = n := by
  induction n generalizing a with
  | zero =>
    have pos := heights.pos isMember
    omega
  | succ n ih =>
    rcases heights.reached a isMember with one | ⟨b, before, step, more⟩
    · exact ⟨[], Chain.singleton isMember, by rw [length_nil]; omega⟩
    · obtain ⟨chain, isChain, length⟩ := ih before (by omega)
      refine ⟨chain ++ [b], isChain.snoc isMember step, ?_⟩
      rw [length_append, length_singleton, length]

/-- The greatest height is the length of the longest chain. -/
theorem Heights.isGreatest (heights : Heights related member height)
    (isMember : member a) (highest : ∀ b, member b → height b ≤ height a) :
    IsGreatest { m | ∃ chain, Chain related member chain ∧ chain.length = m } (height a) := by
  constructor
  · obtain ⟨chain, isChain, length⟩ := heights.exists_chain isMember rfl
    refine ⟨chain ++ [a], isChain, ?_⟩
    rw [length_append, length_singleton, length]
  · rintro m ⟨chain, isChain, rfl⟩
    obtain ⟨b, mem, le⟩ := heights.length_le isChain
    exact le.trans (highest b mem)

end Damov.Library.LongestChain
