import Damov.Library.Checked
import Mathlib.Data.Finset.Card

/-!
# Types and interfaces of the memory hierarchy

The types of `memory_hierarchy.h`: accesses go up the hierarchy, invalidations
go down, and every cache keeps a MESI state for each of its lines. A request
carries a pointer to the state of the line it was made for, and the component
that serves the request writes the answer through it.

All memory objects share one global memory, the type variable `Memory` below.
A C++ pointer into it is a `Ref`: what it reads and how a write through it
changes the memory. Cycles are natural numbers; locks, profiling counters and
the timing records of the event recorders are not part of the model.

`CacheArray` translates addresses to line ids. `lookup` may update the
replacement policy, `preinsert` chooses the line to replace and `postinsert`
writes the new address into it; lookups may come in between. Nothing is assumed
about the line that `preinsert` returns. The laws are what the interface promises
its users: `Wf` is the representation invariant of the implementation and `Armed`
says that the array has chosen a line for an address and waits for the insertion.
`accepts` leaves room for an array that refuses an address, as a `ZArray` refuses
address zero.
-/

namespace Damov.Coherence

/-- Line addresses are plain 64-bit words. -/
abbrev Address := BitVec 64

/-- Index of a tag in a cache array, and of the line's coherence data. -/
abbrev LineId := Nat

/-- Requests that proceed from lower to upper levels. -/
inductive AccessType where
  | GETS
  | GETX
  | PUTS
  | PUTX
deriving DecidableEq, Repr

/-- Requests issued from upper to lower levels. -/
inductive InvType where
  | INV
  | INVX
  | FWD
deriving DecidableEq, Repr

/-- Coherence states of the MESI protocol. -/
inductive MESIState where
  | I
  | S
  | E
  | M
deriving DecidableEq, Repr

/-- The exclusive states, `E` and `M`. -/
def MESIState.isExclusive : MESIState → Bool
  | .I => false
  | .S => false
  | .E => true
  | .M => true

@[simp]
theorem MESIState.isExclusive_I : MESIState.I.isExclusive = false := rfl

@[simp]
theorem MESIState.isExclusive_S : MESIState.S.isExclusive = false := rfl

@[simp]
theorem MESIState.isExclusive_E : MESIState.E.isExclusive = true := rfl

@[simp]
theorem MESIState.isExclusive_M : MESIState.M.isExclusive = true := rfl

/-- Request flags; they propagate across levels, though not to evictions. -/
structure Flags where
  IFETCH : Bool := false
  NOEXCL : Bool := false
  NONINCLWB : Bool := false
  PUTX_KEEPEXCL : Bool := false
  PREFETCH : Bool := false
deriving DecidableEq, Repr

/-- Every assertion and panic of the modelled coherence code. -/
inductive Failure where
  | evictionWritebackNotExclusive
  | evictionFinalState
  | putsOnInvalidLine
  | putxWithoutExclusive
  | getsFinalState
  | getxFinalState
  | responseBeforeRequest
  | writebackWithoutExclusive
  | invalOnInvalidLine
  | invxWithoutExclusive
  | fwdOnUnsharedLine
  | nonInclusiveWriteback
  | sentInvsMismatch
  | downgradeNotExclusive
  | downgradeSeveralSharers
  | putxEntryNotExclusive
  | keepExclNotSharer
  | keepExclNotModified
  | putByNonSharer
  | getsBySharer
  | getsEntryStillExclusive
  | getxWithoutExclusive
  | spuriousGetx
  | getxNumSharers
  | fwdNonInclusive
  | racePutNotDowngraded
  | raceGetxInitialState
  | raceGetxState
  | invalidRace
  | lostInclusion
  | nonInclusiveAccess
  | prefetchNotGets
  | putAtTerminal
  | invalidateMissing
deriving DecidableEq, Repr

/-- A pointer into the global memory. -/
structure Ref (Memory Value : Type) where
  read : Memory → Value
  write : Value → Memory → Memory

/-- An access request. -/
structure MemReq (Memory : Type) where
  lineAddr : Address
  type : AccessType
  childId : Nat
  state : Ref Memory MESIState
  cycle : Nat
  initialState : MESIState
  srcId : Nat
  flags : Flags

/--
An invalidation request. Its `writeback` pointer starts false and children
pull it up to true; the model passes that bit along and returns it.
-/
structure InvReq where
  lineAddr : Address
  type : InvType
  cycle : Nat
  srcId : Nat

/-- `MemObject::access`: serve a request and return the response cycle. -/
abbrev MemObject (Memory : Type) := MemReq Memory → Memory → Except Failure (Memory × Nat)

/--
`BaseCache::invalidate`: the new memory, the writeback bit and the response
cycle.
-/
abbrev Invalidate (Memory : Type) := InvReq → Bool → Memory → Except Failure (Memory × Bool × Nat)

/-- A cache array: a fixed-size associative container of addresses. -/
structure CacheArray where
  State : Type
  Wf : State → Prop
  Armed : State → Address → LineId → Prop
  accepts : Address → Prop
  tag : State → LineId → Address
  lookup : State → Address → Bool → Option LineId × State
  preinsert : State → Address → LineId × Address × State
  postinsert : State → Address → LineId → State
  lookup_result : ∀ {array} addr update, Wf array →
    (lookup array addr update).1 = (lookup array addr false).1
  lookup_keeps : ∀ {array} addr update other, Wf array →
    (lookup (lookup array addr update).2 other false).1 = (lookup array other false).1
  lookup_tag : ∀ {array} addr update, Wf array → tag (lookup array addr update).2 = tag array
  lookup_wf : ∀ {array} addr update, Wf array → Wf (lookup array addr update).2
  tag_of_lookup : ∀ {array addr lineId}, Wf array →
    (lookup array addr false).1 = some lineId → tag array lineId = addr
  preinsert_victim : ∀ {array addr}, Wf array → accepts addr →
    (lookup array addr false).1 = none → (preinsert array addr).2.1 =
        tag array (preinsert array addr).1
  preinsert_keeps : ∀ {array addr} other, Wf array → accepts addr →
    (lookup array addr false).1 = none → (lookup (preinsert array addr).2.2 other false).1 =
        (lookup array other false).1
  preinsert_tag : ∀ {array addr}, Wf array → accepts addr →
    (lookup array addr false).1 = none → tag (preinsert array addr).2.2 = tag array
  preinsert_wf : ∀ {array addr}, Wf array → accepts addr →
    (lookup array addr false).1 = none → Wf (preinsert array addr).2.2
  preinsert_armed : ∀ {array addr}, Wf array → accepts addr → (lookup array addr false).1 = none →
      Armed (preinsert array addr).2.2 addr (preinsert array addr).1
  postinsert_wf : ∀ {array addr lineId}, Wf array → accepts addr →
    (lookup array addr false).1 = none → Armed array addr lineId → Wf (postinsert array addr lineId)
  postinsert_lookup : ∀ {array addr lineId}, Wf array → accepts addr →
    (lookup array addr false).1 = none → Armed array addr lineId →
      (lookup (postinsert array addr lineId) addr false).1 = some lineId
  postinsert_keeps : ∀ {array addr lineId other kept}, Wf array →
    accepts addr → (lookup array addr false).1 = none →
      Armed array addr lineId → kept ≠ lineId → (lookup array other false).1 = some kept →
          (lookup (postinsert array addr lineId) other false).1 = some kept
  postinsert_tag : ∀ {array addr lineId other}, Wf array →
    accepts addr → (lookup array addr false).1 = none → Armed array addr lineId → other ≠ lineId →
        tag (postinsert array addr lineId) other = tag array other

namespace CacheArray

variable (A : CacheArray)

/-- The line that holds an address, without touching the replacement policy. -/
def find (array : A.State) (addr : Address) : Option LineId := (A.lookup array addr false).1

variable {A} {array : A.State} {addr : Address} {lineId : LineId}

theorem find_lookup (update : Bool) (other : Address) (wf : A.Wf array) :
    A.find (A.lookup array addr update).2 other = A.find array other :=
  A.lookup_keeps addr update other wf

theorem tag_of_find (wf : A.Wf array) (found : A.find array addr = some lineId) :
    A.tag array lineId = addr :=
  A.tag_of_lookup wf found

/-- A line holds at most one address. -/
theorem find_injective {other : Address} (wf : A.Wf array)
    (found : A.find array addr = some lineId) (found' : A.find array other = some lineId) :
    addr = other := by
  rw [← tag_of_find wf found, tag_of_find wf found']

end CacheArray

end Damov.Coherence
