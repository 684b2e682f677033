import Damov.Library.Checked

/-!
# The tree of a DRAM device

A device is a tree of nodes, from the root down to the banks; rows are not nodes,
their bank keeps their state. A command is decoded, checked and applied along the
path that its address names. The specification says how many nodes there are and
what a command does, needs and delays at each level.

A node is named by the ids on its path, its own id first, so that its parent is
the tail and its level the length.
-/

namespace Damov.Ramulator

open Library Function

inductive DramFailure where
  | badState
  | noSuchChild
  | notReady
  deriving DecidableEq

abbrev Path := List Nat

/-- A command `cmd` has to wait for `val` cycles after the `dist`-th last command
of those that have the entry. Sibling entries concern the nodes next to the one
that the command went to; they have distance one. -/
structure TimingEntry (Command : Type) where
  cmd : Command
  dist : Nat
  val : Int
  sibling : Bool
  dist_pos : 0 < dist
  sibling_dist : sibling = true → dist = 1

/-- The state of a node and, in a bank, of its rows. -/
structure NodeState (State : Type) where
  state : State
  rowState : List (Int × State)
  deriving DecidableEq

namespace NodeState

variable {State : Type}

def hasRow (node : NodeState State) (row : Int) : Bool :=
  node.rowState.any fun entry => entry.1 = row

def setRow (node : NodeState State) (row : Int) (state : State) : NodeState State :=
  { node with
    rowState := (row, state) :: node.rowState.filter fun entry => entry.1 ≠ row }

end NodeState

abbrev States (State : Type) := Path → NodeState State

/-- A specification. The functions of a level get the node and the id of the
child that the address names. -/
structure DramSpec (Command State : Type) where
  /-- The level of the rows. -/
  row : Nat
  row_pos : 0 < row
  count : Nat → Nat
  scope : Command → Nat
  start : Nat → State
  prereq : Nat → Command → Option (States State → Path → Int → Except DramFailure (Option Command))
  rowhit : Nat → Command → Option (States State → Path → Int → Except DramFailure Bool)
  rowopen : Nat → Command → Option (States State → Path → Int → Except DramFailure Bool)
  lambda : Nat → Command → Option (Path → Int → States State → States State)
  timing : Nat → Command → List (TimingEntry Command)

/-- The earliest cycles for the next commands and the history of the last ones. -/
structure NodeTiming (Command : Type) where
  next : Command → Int
  prev : Command → List Int

abbrev Timings (Command : Type) := Path → NodeTiming Command

structure Dram (Command State : Type) where
  states : States State
  timings : Timings Command

namespace DramSpec

variable {Command State : Type} [DecidableEq Command]
variable (spec : DramSpec Command State)

/-- The levels of nodes below the root. -/
def below : Nat := spec.row - 1

/-- The nodes of the tree below a node that has this many levels below it. -/
def Within : Nat → Path → Path → Prop
  | 0, node, place => place = node
  | below + 1, node, place =>
    place = node ∨ ∃ i < spec.count (node.length + 1), Within below (i :: node) place

/-! ## Construction -/

/-- The longest history that the entries look back on. -/
def maxDist (entries : List (TimingEntry Command)) : Nat :=
  entries.foldl (fun dist entry => max dist entry.dist) 0

def construct : Dram Command State where
  states := fun node => ⟨spec.start node.length, []⟩
  timings := fun node =>
    ⟨fun _ => -1, fun cmd =>
      List.replicate (maxDist (spec.timing node.length cmd)) (-1)⟩

/-! ## Commands on their path -/

/-- The child with this id. -/
def child (node : Path) (id : Int) : Except DramFailure Path :=
  if 0 ≤ id ∧ id < spec.count (node.length + 1) then .ok (id.toNat :: node)
  else .error .noSuchChild

section

variable (states : States State) (cmd : Command) (addr : Nat → Int)

/-- The prerequisite of a command at a node. -/
def prereqAt (node : Path) : Except DramFailure (Option Command) :=
  match spec.prereq node.length cmd with
  | some prereq => prereq states node (addr (node.length + 1))
  | none => .ok none

/-- The prerequisite of a command, if it has one, or the command itself. -/
def decode : Nat → Path → Except DramFailure Command
  | below, node => do
      let id := addr (node.length + 1)
      match ← spec.prereqAt states cmd addr node with
      | some prereqCmd => return prereqCmd
      | none =>
        match below with
        | 0 => return cmd
        | below + 1 =>
          if id < 0 ∨ spec.count (node.length + 1) = 0 then return cmd
          else
            let child ← spec.child node id
            decode below child

/-- Look for a row function on the path of the address. -/
def checkRow (table : Nat → Command →
      Option (States State → Path → Int → Except DramFailure Bool)) :
    Nat → Path → Except DramFailure Bool
  | below, node =>
    let id := addr (node.length + 1)
    match table node.length cmd with
    | some isRow => isRow states node id
    | none =>
      match below with
      | 0 => return false
      | below + 1 =>
        if id < 0 ∨ spec.count (node.length + 1) = 0 then return false
        else do
          let child ← spec.child node id
          checkRow table below child

def checkRowHit : Except DramFailure Bool := spec.checkRow states cmd addr spec.rowhit spec.below []

def checkRowOpen : Except DramFailure Bool :=
  spec.checkRow states cmd addr spec.rowopen spec.below []

end

section

variable (cmd : Command) (addr : Nat → Int)

/-- Whether the command is ready in all nodes down to its scope. -/
def check (timings : Timings Command) (clk : Int) : Nat → Path → Except DramFailure Bool
  | below, node =>
    let next := (timings node).next cmd
    if next ≠ -1 ∧ clk < next then return false
    else
      let id := addr (node.length + 1)
      match below with
      | 0 => return true
      | below + 1 =>
        if id < 0 ∨ node.length = spec.scope cmd ∨ spec.count (node.length + 1) = 0 then return true
        else do
          let child ← spec.child node id
          check timings clk below child

/-- The nodes that are checked for the command. -/
def checkedPath : Nat → Path → List Path
  | below, node =>
    let id := addr (node.length + 1)
    match below with
    | 0 => [node]
    | below + 1 =>
      if id < 0 ∨ node.length = spec.scope cmd ∨ spec.count (node.length + 1) = 0 then [node]
      else node :: checkedPath below (id.toNat :: node)

def updateState : Nat → Path → States State → Except DramFailure (States State)
  | below, node, states =>
    let id := addr (node.length + 1)
    let states :=
      match spec.lambda node.length cmd with
      | some lambda => lambda node id states
      | none => states
    match below with
    | 0 => return states
    | below + 1 =>
      if node.length = spec.scope cmd ∨ spec.count (node.length + 1) = 0 then return states
      else do
        let child ← spec.child node id
        updateState below child states

end

/-! ## Timing -/

/-- Put off the commands of the entries that give a bound. -/
def raise (bound : TimingEntry Command → Option Int)
    (entries : List (TimingEntry Command)) (next : Command → Int) :
    Command → Int :=
  entries.foldl (fun next entry =>
      match bound entry with
      | none => next
      | some future => update next entry.cmd (max (next entry.cmd) future))
    next

/-- The bound that an entry gives for the siblings of a target. -/
def siblingBound (clk : Int) (entry : TimingEntry Command) : Option Int :=
  if entry.sibling then some (clk + entry.val) else none

/-- The bound that an entry gives for a target with this history. -/
def targetBound (prev : List Int) (entry : TimingEntry Command) : Option Int :=
  if entry.sibling then none
  else
    let past := prev.getD (entry.dist - 1) (-1)
    if past < 0 then none else some (past + entry.val)

/-- The command went to a sibling of the node. -/
def updateSibling (cmd : Command) (clk : Int) (level : Nat)
    (node : NodeTiming Command) : NodeTiming Command :=
  { node with next := raise (siblingBound clk) (spec.timing level cmd) node.next }

/-- Put the command into its history, which keeps its length. -/
def record (cmd : Command) (clk : Int) (prev : Command → List Int) : Command → List Int :=
  if (prev cmd).length ≠ 0 then update prev cmd (clk :: (prev cmd).dropLast)
  else prev

/-- The command went to the node. -/
def updateTarget (cmd : Command) (clk : Int) (level : Nat)
    (node : NodeTiming Command) : NodeTiming Command :=
  let prev := record cmd clk node.prev
  { prev
    next := raise (targetBound (prev cmd)) (spec.timing level cmd) node.next }

/-- The id of a node. That of the root is the channel's. -/
def idOf (root : Nat) : Path → Nat
  | [] => root
  | i :: _ => i

/-- The timing of a node and, if the address names it, of the nodes below. -/
def updateTiming (root : Nat) (cmd : Command) (addr : Nat → Int) (clk : Int) :
    Nat → Path → Timings Command → Timings Command
  | below, node, timings =>
    let level := node.length
    if (idOf root node : Int) ≠ addr level then
      update timings node (spec.updateSibling cmd clk level (timings node))
    else
      let timings := update timings node (spec.updateTarget cmd clk level (timings node))
      match below with
      | 0 => timings
      | below + 1 =>
        (List.range (spec.count (level + 1))).foldl
          (fun timings i => updateTiming root cmd addr clk below (i :: node) timings)
          timings

/-- Apply a command to the tree. -/
def update (root : Nat) (cmd : Command) (addr : Nat → Int) (clk : Int)
    (dram : Dram Command State) : Except DramFailure (Dram Command State) := do
  let states ← spec.updateState cmd addr spec.below [] dram.states
  return ⟨states, spec.updateTiming root cmd addr clk spec.below [] dram.timings⟩

/-! ## Runs -/

/-- A command that is issued. -/
structure Issue (Command : Type) where
  cmd : Command
  addr : Nat → Int
  clk : Int

/-- Issue a command that is ready. -/
def issue (root : Nat) (dram : Dram Command State) (issue : Issue Command) :
    Except DramFailure (Dram Command State) := do
  let ready ← spec.check issue.cmd issue.addr dram.timings issue.clk spec.below []
  Checked.check (ready = true) .notReady
  spec.update root issue.cmd issue.addr issue.clk dram

/-- Issue these commands, of which the last one comes first. -/
def run (root : Nat) : List (Issue Command) → Except DramFailure (Dram Command State)
  | [] => .ok spec.construct
  | issue :: earlier => do
      let dram ← run root earlier
      spec.issue root dram issue

end DramSpec

end Damov.Ramulator
