import Damov.Library.Checked

/-!
# The priority queue of the contention simulation

`PrioQueue<T, B>` keeps the objects of the next `B` blocks of 64 cycles in a ring
of arrays, one list for each cycle, and those of later cycles in a map. When the
current block advances to a multiple of `B/2`, the objects of the map that have
come into the range of the ring move there.

The queue links the objects of one cycle through their own `next` fields. The
blocks and the map are functions and a list; cycles are natural numbers.
-/

namespace Damov.Weave

open Library.Checked Function

inductive QueueFailure where
  | empty
  | emptyBlock
  | nullObject
  | linked
  | pastCycle
  | migratedBefore
  | migratedBeyond
  | noFarElement
  | unbounded
  deriving DecidableEq

/-- The queue and the links of the objects. -/
structure PrioQueue (α : Type) where
  next : α → Option α
  array : Nat → Nat → Option α
  occ : Nat → BitVec 64
  feMap : List (Nat × α)
  curBlock : Nat
  elems : Nat

namespace PrioQueue

variable {α : Type} [DecidableEq α]

def initial : PrioQueue α where
  next := fun _ => none
  array := fun _ _ => none
  occ := fun _ => 0
  feMap := []
  curBlock := 0
  elems := 0

/-- `__builtin_ctzl`: the position of the lowest bit that is set. -/
def ctz (occ : BitVec 64) : Nat := ((List.range 64).find? fun pos => occ.getLsbD pos).getD 64

/-! ## Blocks -/

/-- Changes one entry of the array of a block. -/
def setEntry {β : Type} (entries : Nat → Nat → β) (i pos : Nat) (entry : β) : Nat → Nat → β :=
  update entries i (update (entries i) pos entry)

/-- `PQBlock::dequeue` of the block `i`, with the offset of the object -/
def blockDequeue (i : Nat) (queue : PrioQueue α) :
    Except QueueFailure ((α × Nat) × PrioQueue α) := do
  check (queue.occ i ≠ 0) .emptyBlock
  let pos := ctz (queue.occ i)
  match queue.array i pos with
  | none => .error .nullObject
  | some res =>
    let next := queue.next res
    return ((res, pos), { queue with
      array := setEntry queue.array i pos next
      occ :=
        if next = none then
          update queue.occ i (queue.occ i ^^^ (1#64 <<< pos))
        else queue.occ
      next := update queue.next res none })

/-- `PQBlock::enqueue` in the block `i` -/
def blockEnqueue (obj : α) (i pos : Nat) (queue : PrioQueue α) :
    Except QueueFailure (PrioQueue α) := do
  check (queue.next obj = none) .linked
  return { queue with
    occ := update queue.occ i (queue.occ i ||| (1#64 <<< pos))
    next := update queue.next obj (queue.array i pos)
    array := setEntry queue.array i pos (some obj) }

/-! ## The queue -/

variable (B : Nat)

/-- `feMap.insert`, behind the elements with the same cycle -/
def feInsert (cycle : Nat) (obj : α) : List (Nat × α) → List (Nat × α)
  | [] => [(cycle, obj)]
  | first :: rest =>
    if cycle < first.1 then (cycle, obj) :: first :: rest
    else first :: feInsert cycle obj rest

def enqueue (obj : α) (cycle : Nat) (queue : PrioQueue α) : Except QueueFailure (PrioQueue α) := do
  let absBlock := cycle / 64
  check (queue.curBlock ≤ absBlock) .pastCycle
  if absBlock < queue.curBlock + B then do
    let stored ← queue.blockEnqueue obj (absBlock % B) (cycle % 64)
    return { stored with elems := stored.elems + 1 }
  else
    return { queue with
      feMap := feInsert cycle obj queue.feMap
      elems := queue.elems + 1 }

/-- The loop that moves the elements of the map below `topCycle`, and the
`erase` behind it. -/
def migrate (topCycle : Nat) : List (Nat × α) → PrioQueue α → Except QueueFailure (PrioQueue α)
  | [], queue => .ok { queue with feMap := [] }
  | (cycle, obj) :: rest, queue =>
    if cycle < topCycle then do
      let absBlock := cycle / 64
      check (queue.curBlock ≤ absBlock) .migratedBefore
      check (absBlock < queue.curBlock + B) .migratedBeyond
      let stored ← queue.blockEnqueue obj (absBlock % B) (cycle % 64)
      migrate topCycle rest stored
    else .ok { queue with feMap := (cycle, obj) :: rest }

/-- The body of the loop of `dequeue`. -/
def advance (queue : PrioQueue α) : Except QueueFailure (PrioQueue α) :=
  let curBlock := queue.curBlock + 1
  let advanced := { queue with curBlock }
  if curBlock % (B / 2) = 0 ∧ queue.feMap ≠ [] then
    migrate B ((curBlock + B) * 64) queue.feMap advanced
  else .ok advanced

/-- The loop of `dequeue`; the model bounds its rounds. -/
def seek : Nat → PrioQueue α → Except QueueFailure (PrioQueue α)
  | rounds, queue =>
    if queue.occ (queue.curBlock % B) ≠ 0 then .ok queue
    else
      match rounds with
      | 0 => .error .unbounded
      | rounds + 1 => do
          let advanced ← queue.advance B
          seek rounds advanced

variable (queue : PrioQueue α)

/-- A bound for the rounds of `dequeue`: the ring, and the way to the first far
element. -/
def horizon : Nat :=
  match queue.feMap with
  | [] => B
  | (cycle, _) :: _ => B + cycle / 64

/-- `dequeue`, with the cycle of the object -/
def dequeue : Except QueueFailure ((α × Nat) × PrioQueue α) := do
  check (queue.elems ≠ 0) .empty
  let found ← seek B (queue.horizon B) queue
  let ((obj, offset), removed) ← found.blockDequeue (found.curBlock % B)
  return ((obj, found.curBlock * 64 + offset), { removed with
    elems := removed.elems - 1 })

def size : Nat := queue.elems

/-- The blocks ahead of the current one that are populated. -/
def populated (i : Nat) : Bool := queue.occ ((queue.curBlock + i) % B) ≠ 0

/-- The first cycle of a populated block. -/
def blockCycle (i : Nat) : Nat :=
  (queue.curBlock + i) * 64 + ctz (queue.occ ((queue.curBlock + i) % B))

def firstCycle : Except QueueFailure Nat := do
  check (queue.elems ≠ 0) .empty
  match (List.range (B / 2)).find? (queue.populated B) with
  | some i => return queue.blockCycle B i
  | none =>
    match (List.range' (B / 2) (B - B / 2)).find? (queue.populated B), queue.feMap with
    | some i, [] => return queue.blockCycle B i
    | some i, (cycle, _) :: _ => return min (queue.blockCycle B i) cycle
    | none, (cycle, _) :: _ => return cycle
    | none, [] => .error .noFarElement

end PrioQueue

end Damov.Weave
