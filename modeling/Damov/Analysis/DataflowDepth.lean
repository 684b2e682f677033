import Damov.Library.Chains
import Mathlib.Data.List.GetD
import Mathlib.Data.List.Sort

/-!
# The dataflow depth of a basic block

For the accelerator, the decoder links each instruction of a basic block to the
latest earlier writer of each of its source registers and computes the depth of
this graph. The depth is the length of the longest chain of dependent
instructions.
-/

namespace Damov.Analysis.DataflowDepth

open Library.LongestChain List

/-! ## The decoder -/

structure BbParseNode where
  sourceRegisters : List Nat
  destinationRegisters : List Nat
  deriving DecidableEq

section

variable (block : List BbParseNode)

def sources (i : Nat) : List Nat := ((block[i]?).map BbParseNode.sourceRegisters).getD []

def destinations (i : Nat) : List Nat := ((block[i]?).map BbParseNode.destinationRegisters).getD []

/-- The instructions before `i` that write the register, from the last one. -/
def dependencyChain (block : List BbParseNode) (reg : Nat) : Nat → List Nat
  | 0 => []
  | j + 1 =>
    if reg ∈ destinations block j then j :: dependencyChain block reg j
    else dependencyChain block reg j

/-- The most immediate dependency of each source register. -/
def edges (i : Nat) : List Nat :=
  (sources block i).filterMap fun reg => (dependencyChain block reg i).head?

/-- The first instruction is not looked at. -/
def graph : List (List Nat) :=
  (List.range block.length).map fun i => if i = 0 then [] else edges block i

def maxElement (values : List Nat) : Nat := values.max?.getD 0

def depthNode (depthNodes : List Nat) (edges : List Nat) : Nat :=
  if edges = [] then 1
  else maxElement (edges.map fun j => depthNodes.getD j 0) + 1

/-- The nodes before `n` have their depths. -/
def depthNodesUpTo (graph : List (List Nat)) : Nat → List Nat
  | 0 => List.replicate graph.length 0
  | i + 1 =>
    let depthNodes := depthNodesUpTo graph i
    depthNodes.set i (depthNode depthNodes (graph.getD i []))

def depthNodes (graph : List (List Nat)) : List Nat := depthNodesUpTo graph graph.length

def depth : Nat := maxElement (depthNodes (graph block))

/-! ## The longest chain -/

/-- An instruction reads a register that `j` was the last to write. -/
structure Feeds (j i : Nat) : Prop where
  before : j < i
  read : ∃ reg ∈ sources block i, reg ∈ destinations block j ∧
    ∀ m, j < m → m < i → reg ∉ destinations block m

/-- A chain of instructions, each of which feeds the next one. -/
def IsDependencyChain (chain : List Nat) : Prop := Chain (Feeds block) (· < block.length) chain

end

variable {block : List BbParseNode} {reg i j : Nat}

theorem head_dependencyChain : (dependencyChain block reg i).head? = some j ↔
      j < i ∧ reg ∈ destinations block j ∧ ∀ m, j < m → m < i → reg ∉ destinations block m := by
  induction i with
  | zero => simp [dependencyChain]
  | succ i ih =>
    rw [dependencyChain]
    split
    · next writes =>
      rw [head?_cons, Option.some.injEq]
      constructor
      · rintro rfl
        exact ⟨by omega, writes, by omega⟩
      · rintro ⟨lt, -, latest⟩
        by_contra apart
        exact latest i (by omega) (by omega) writes
    · next silent =>
      rw [ih]
      constructor
      · rintro ⟨lt, writes, latest⟩
        refine ⟨by omega, writes, ?_⟩
        intro m after upTo
        by_cases isLast : m = i
        · rwa [isLast]
        · exact latest m after (by omega)
      · rintro ⟨lt, writes, latest⟩
        have apart : j ≠ i := by
          rintro rfl
          exact silent writes
        exact ⟨by omega, writes, fun m after upTo =>
          latest m after (by omega)⟩

theorem mem_edges : j ∈ edges block i ↔ Feeds block j i := by
  simp only [edges, mem_filterMap, head_dependencyChain]
  constructor
  · rintro ⟨reg, reads, lt, writes, latest⟩
    exact ⟨lt, reg, reads, writes, latest⟩
  · rintro ⟨lt, reg, reads, writes, latest⟩
    exact ⟨reg, reads, lt, writes, latest⟩

theorem edges_zero : edges block 0 = [] := by simp [edges, dependencyChain]

theorem length_graph : (graph block).length = block.length := by simp [graph]

theorem graph_getD (mem : i < block.length) : (graph block).getD i [] = edges block i := by
  have range : (range block.length)[i]? = some i := getElem?_range mem
  simp only [graph, getD_eq_getElem?_getD, getElem?_map, range, Option.map_some, Option.getD_some]
  split
  · next first => rw [first, edges_zero]
  · rfl

/-! ## The depths of the nodes -/

variable {values : List Nat} {links : List (List Nat)} {n : Nat} {chain : List Nat}

theorem le_maxElement {value : Nat} (mem : value ∈ values) : value ≤ maxElement values := by
  cases found : values.max? with
  | none => simp_all
  | some greatest =>
    rw [maxElement, found]
    exact (max?_eq_some_iff.mp found).2 value mem

theorem maxElement_mem (nonempty : values ≠ []) : maxElement values ∈ values := by
  cases found : values.max? with
  | none => exact absurd (max?_eq_none_iff.mp found) nonempty
  | some greatest =>
    rw [maxElement, found]
    exact (max?_eq_some_iff.mp found).1

theorem depthNode_congr {nodes nodes' edges : List Nat}
    (agree : ∀ j ∈ edges, nodes.getD j 0 = nodes'.getD j 0) :
    depthNode nodes edges = depthNode nodes' edges := by
  rw [depthNode, depthNode, map_congr_left agree]

theorem length_depthNodesUpTo (links : List (List Nat)) (n : Nat) :
    (depthNodesUpTo links n).length = links.length := by
  induction n with
  | zero => exact length_replicate
  | succ n ih => rw [depthNodesUpTo, length_set, ih]

/-- The depth of a node is not written again. -/
theorem depthNodesUpTo_getD (lt : j < n) :
    (depthNodesUpTo links (n + 1)).getD j 0 = (depthNodesUpTo links n).getD j 0 := by
  rw [depthNodesUpTo, getD_eq_getElem?_getD, getElem?_set_ne (by omega), getD_eq_getElem?_getD]

theorem depthNodesUpTo_spec (backward : ∀ i, ∀ j ∈ links.getD i [], j < i)
    (le : n ≤ links.length) (lt : i < n) :
    (depthNodesUpTo links n).getD i 0 = depthNode (depthNodesUpTo links n) (links.getD i []) := by
  induction n with
  | zero => omega
  | succ n ih =>
    -- The edges of node `i` go to nodes before it, which keep their depths.
    have kept : depthNode (depthNodesUpTo links (n + 1)) (links.getD i []) =
        depthNode (depthNodesUpTo links n) (links.getD i []) := by
      apply depthNode_congr
      intro j isEdge
      have back := backward i j isEdge
      exact depthNodesUpTo_getD (by omega)
    rw [kept]
    by_cases isLast : i = n
    · have room : n < (depthNodesUpTo links n).length := by
        rw [length_depthNodesUpTo]
        omega
      rw [isLast, depthNodesUpTo, getD_eq_getElem?_getD, getElem?_set_self room, Option.getD_some]
    · rw [depthNodesUpTo_getD (by omega)]
      exact ih (by omega) (by omega)

/-- The depth of an instruction. -/
def depthOf (block : List BbParseNode) (i : Nat) : Nat := (depthNodes (graph block)).getD i 0

theorem depthOf_eq (mem : i < block.length) :
    depthOf block i = depthNode (depthNodes (graph block)) (edges block i) := by
  have backward : ∀ i, ∀ j ∈ (graph block).getD i [], j < i := by
    intro i j isEdge
    by_cases mem : i < block.length
    · rw [graph_getD mem] at isEdge
      exact (mem_edges.mp isEdge).before
    · rw [getD_eq_default _ _ (by rw [length_graph]; omega)] at isEdge
      cases isEdge
  have spec := depthNodesUpTo_spec backward le_rfl
    (show i < (graph block).length by rwa [length_graph])
  rwa [graph_getD mem] at spec

theorem heights (block : List BbParseNode) :
    Heights (Feeds block) (· < block.length) (depthOf block) where
  increases := by
    intro j i mem feeds
    have isEdge := mem_edges.mpr feeds
    rw [depthOf_eq mem, depthNode, if_neg (ne_nil_of_mem isEdge)]
    exact Nat.lt_succ_of_le (le_maxElement (mem_map_of_mem (f := depthOf block) isEdge))
  reached := by
    intro i mem
    rw [depthOf_eq mem, depthNode]
    split
    · exact .inl rfl
    · next nonempty =>
      have attained := maxElement_mem (mt (map_eq_nil_iff (f := depthOf block)).mp nonempty)
      obtain ⟨j, isEdge, isGreatest⟩ := mem_map.mp attained
      have feeds := mem_edges.mp isEdge
      refine .inr ⟨j, lt_trans feeds.before mem, feeds, ?_⟩
      exact congrArg (· + 1) isGreatest.symm

theorem length_depthNodes : (depthNodes (graph block)).length = block.length := by
  rw [depthNodes, length_depthNodesUpTo, length_graph]

theorem depth_isGreatest (nonempty : block ≠ []) :
    IsGreatest { m | ∃ chain, IsDependencyChain block chain ∧ chain.length = m } (depth block) := by
  have some : depthNodes (graph block) ≠ [] := by
    rw [← length_pos_iff, length_depthNodes]
    exact length_pos_iff.mpr nonempty
  obtain ⟨i, bound, isDepth⟩ := mem_iff_getElem.mp (maxElement_mem some)
  have isDepthOf : depthOf block i = depth block := by
    rw [depthOf, getD_eq_getElem _ _ bound, isDepth, depth]
  rw [← isDepthOf]
  apply (heights block).isGreatest
  · rwa [length_depthNodes] at bound
  · intro j mem
    rw [isDepthOf]
    apply le_maxElement
    rw [depthOf, getD_eq_getElem _ _ (by rwa [length_depthNodes])]
    exact getElem_mem _

/-! ## Bounds -/

theorem IsDependencyChain.length_le (isChain : IsDependencyChain block chain) :
    chain.length ≤ block.length := by
  have increasing : chain.Pairwise (· < ·) := isChain_iff_pairwise.mp
      (isChain.isChain.imp fun _ _ feeds => feeds.before)
  have mem : chain ⊆ range block.length := fun i isIn =>
    mem_range.mpr (isChain.members i isIn)
  have distinct : chain.Nodup := increasing.imp ne_of_lt
  have le := (subperm_of_subset distinct mem).length_le
  rwa [length_range] at le

variable {node : BbParseNode}

theorem sources_append (mem : i < block.length) :
    sources (block ++ [node]) i = sources block i := by
  rw [sources, getElem?_append_left mem, sources]

theorem destinations_append (mem : i < block.length) :
    destinations (block ++ [node]) i = destinations block i := by
  rw [destinations, getElem?_append_left mem, destinations]

theorem Feeds.append (feeds : Feeds block j i) (mem : i < block.length) :
    Feeds (block ++ [node]) j i := by
  obtain ⟨before, reg, reads, writes, latest⟩ := feeds
  refine ⟨before, reg, ?_, ?_, ?_⟩
  · rwa [sources_append mem]
  · rwa [destinations_append (lt_trans before mem)]
  · intro m after upTo
    rw [destinations_append (lt_trans upTo mem)]
    exact latest m after upTo

theorem IsDependencyChain.append (isChain : IsDependencyChain block chain) :
    IsDependencyChain (block ++ [node]) chain := by
  apply Chain.mono isChain
  · exact fun j i _ mem feeds => feeds.append mem
  · intro i mem
    rw [length_append]
    omega

theorem depth_le_append (nonempty : block ≠ []) (node : BbParseNode) :
    depth block ≤ depth (block ++ [node]) := by
  obtain ⟨chain, isChain, length⟩ := (depth_isGreatest nonempty).1
  rw [← length]
  exact (depth_isGreatest (append_ne_nil_of_left_ne_nil nonempty _)).2 ⟨chain, isChain.append, rfl⟩

/-- The depth is the length of the longest chain of dependent instructions. It
lies between one and the number of instructions, and one more instruction does
not make it smaller. -/
theorem depth_spec (block : List BbParseNode) (nonempty : block ≠ []) :
    IsGreatest { m | ∃ chain, IsDependencyChain block chain ∧ chain.length = m } (depth block) ∧
    1 ≤ depth block ∧ depth block ≤ block.length ∧
    ∀ node, depth block ≤ depth (block ++ [node]) := by
  have greatest := depth_isGreatest nonempty
  obtain ⟨chain, isChain, length⟩ := greatest.1
  refine ⟨greatest, ?_, ?_, depth_le_append nonempty⟩
  · rw [← length]
    exact length_pos_iff.mpr isChain.nonempty
  · rw [← length]
    exact isChain.length_le

/-- The second write of register 2 hides the first one. -/
def overwrite : List BbParseNode := [⟨[], [1]⟩, ⟨[1], [2]⟩, ⟨[], [2]⟩, ⟨[2, 3], [4]⟩]

theorem depth_spec_overwrite : overwrite ≠ [] ∧ depth overwrite = 2 ∧ IsGreatest
        { m | ∃ chain, IsDependencyChain overwrite chain ∧ chain.length = m } 2 := by
  have value : depth overwrite = 2 := by decide
  have nonempty : overwrite ≠ [] := by decide
  have spec := (depth_spec overwrite nonempty).1
  exact ⟨nonempty, value, spec⟩

end Damov.Analysis.DataflowDepth
