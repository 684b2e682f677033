import Mathlib.Algebra.Order.Group.Nat
import Mathlib.Data.List.Nodup

/-!
# Paths in a breadth-first search with repeated labels

A search that does not remember what it has seen may reach a label several
times. It keeps its nodes in the order of discovery, each with a pointer to the
node that it was found from. Nodes with one label are expanded alike, and the
earlier of them is expanded first; so each child of the later one has a twin, an
earlier node with the same label.

It follows that the path from the first node with a label back to its root meets
every label at most once, although paths from later nodes may contain loops.
-/

namespace Damov.Library

/-- The nodes of a search, numbered in the order of discovery. -/
structure SearchForest (Label : Type*) where
  size : Nat
  label : Nat → Label
  parent : Nat → Option Nat
  parent_lt : ∀ {node above}, parent node = some above → above < node
  twin : ∀ {node above other}, node < size → parent node = some above →
    other < above → label other = label above → ∃ earlier < node, label earlier = label node

namespace SearchForest

variable {Label : Type*} (forest : SearchForest Label)

/-- The nodes from the given one back to its root. -/
def path (node : Nat) : List Nat := node :: match _isParent : forest.parent node with
    | none => []
    | some above => path above
termination_by node
decreasing_by exact forest.parent_lt _isParent

variable {node above : Nat} {forest : SearchForest Label}

theorem path_root (isRoot : forest.parent node = none) : forest.path node = [node] := by
  rw [path]
  split
  · rfl
  next above isParent => simp [isRoot] at isParent

theorem path_child (isParent : forest.parent node = some above) :
    forest.path node = node :: forest.path above := by
  rw [path]
  split
  next isRoot => simp [isRoot] at isParent
  next other isOther =>
    rw [isParent] at isOther
    rw [Option.some.inj isOther]

/-- A path only goes back. -/
theorem le_of_mem_path {other : Nat} (mem : other ∈ forest.path node) : other ≤ node := by
  induction node using Nat.strongRecOn with
  | ind node ih =>
    cases isParent : forest.parent node with
    | none =>
      rw [forest.path_root isParent, List.mem_singleton] at mem
      exact mem.le
    | some above =>
      have before := forest.parent_lt isParent
      rw [forest.path_child isParent] at mem
      rcases List.mem_cons.mp mem with rfl | mem
      · exact le_rfl
      · exact (ih above before mem).trans before.le

/-- The label of a node appears nowhere before it. -/
def IsFirst (node : Nat) : Prop := ∀ earlier < node, forest.label earlier ≠ forest.label node

/-- The parent of a first node is a first node. -/
theorem IsFirst.parent (isFirst : forest.IsFirst node)
    (mem : node < forest.size) (isParent : forest.parent node = some above) :
    forest.IsFirst above := by
  intro other before sameLabel
  obtain ⟨earlier, isEarlier, sameAsNode⟩ := forest.twin mem isParent before sameLabel
  exact isFirst earlier isEarlier sameAsNode

/-- The path of a first node meets every label at most once. -/
theorem IsFirst.nodup_path (isFirst : forest.IsFirst node) (mem : node < forest.size) :
    ((forest.path node).map forest.label).Nodup := by
  induction node using Nat.strongRecOn with
  | ind node ih =>
    cases isParent : forest.parent node with
    | none =>
      rw [forest.path_root isParent]
      exact List.nodup_singleton _
    | some above =>
      have before := forest.parent_lt isParent
      rw [forest.path_child isParent, List.map_cons, List.nodup_cons]
      constructor
      · intro member
        obtain ⟨other, onPath, sameLabel⟩ := List.mem_map.mp member
        exact isFirst other ((forest.le_of_mem_path onPath).trans_lt before) sameLabel
      · exact ih above before (isFirst.parent mem isParent) (before.trans mem)

end SearchForest

end Damov.Library
