import Damov.Coherence.MemoryHierarchy
import Mathlib.Data.List.Sort
import Mathlib.Algebra.Group.Nat.Defs
import Mathlib.Algebra.Ring.Int.Defs

/-!
# The recorder of an out-of-order core

`OOOCoreRecorder` turns the accesses of a core into events for the weave phase.
Each access hangs off an issue event, and the issue events form a chain. Bound
cycles are those of the core; zero-load (zll) cycles do not count the delay
`gapCycles` that contention has added so far.

Here an event knows its parents. A `DelayEvent` between a parent and its only
child is the delay of that link, and a delay is the difference of two cycles cut
to 32 bits, as in the constructors of the events. Other cycles are natural
numbers.
-/

namespace Damov.Weave

open Coherence (AccessType)
open Library.Checked
open Function

namespace OOOCoreRecorder

/-! ## Events -/

inductive EventKind where
  | issue (zllStartCycle : Nat)
  | dispatch
  | resp
  /-- The `startEvent` of a GET. -/
  | request
  /-- The `endEvent` of a GET. -/
  | reply
  /-- The `startEvent` of a PUT. -/
  | writeback
  deriving DecidableEq

structure Event where
  id : Nat
  kind : EventKind
  preDelay : Nat
  minStartCycle : Nat
  /-- The cycle for which an event without parents is queued. -/
  queued : Option Nat
  /-- The parents, with the delays in between. -/
  parents : List (Nat × Nat)
  deriving DecidableEq

/-- What the recorder reads of the issue event it points to. -/
structure IssueEvent where
  id : Nat
  zllStartCycle : Nat
  minStartCycle : Nat
  deriving DecidableEq

namespace Event

variable (starts : Nat → Option Nat) (ev : Event)

def issue? : Option IssueEvent :=
  match ev.kind with
  | .issue zllStartCycle => some ⟨ev.id, zllStartCycle, ev.minStartCycle⟩
  | _ => none

/-- All parents have started. -/
def Ready : Prop := ∀ link ∈ ev.parents, (starts link.1).isSome

instance : Decidable (ev.Ready starts) :=
  inferInstanceAs (Decidable (∀ link ∈ ev.parents, (starts link.1).isSome))

/-- The earliest cycle that the parents and the delays allow. -/
def imposed : Nat :=
  (ev.queued.toList ++ ev.parents.map fun link => (starts link.1).getD 0 + link.2).foldr max 0 +
      ev.preDelay

end Event

/-- The difference of two cycles as a `uint32_t`. -/
def delay32 (later earlier : Nat) : Nat := (((later : Int) - earlier) % 2 ^ 32).toNat

/-! ## The recorder -/

inductive State where
  | HALTED
  | RUNNING
  | DRAINING
  deriving DecidableEq

structure FutureResponse where
  zllStartCycle : Nat
  /-- Null once the response has been simulated. -/
  ev : Option Nat
  deriving DecidableEq

structure TimingRecord where
  type : AccessType
  reqCycle : Nat
  respCycle : Nat

def isGet : AccessType → Bool
  | .GETS | .GETX => true
  | .PUTS | .PUTX => false

/-- Failed assertions and panics. -/
inductive RecorderFailure where
  | joinState
  | lastEvProduced
  | lastUnhaltedCycle
  | outOfSync
  | zllCycle
  | maxCycle
  | firstResp
  | leaveState
  | respCycle
  | nextPhaseCycle
  | lastEvCycle1
  | lastEvCycle2
  | negativeSkew
  | drainState
  | futureResponses
  deriving DecidableEq

end OOOCoreRecorder

open OOOCoreRecorder

/-- The recorder, with the events it has made and the cycles at which those that
were simulated started. -/
structure OOOCoreRecorder where
  state : State
  gapCycles : Nat
  lastEvProduced : Option IssueEvent
  /-- The priority queue, with its top first. -/
  futureResponses : List FutureResponse
  lastEvSimulatedZllStartCycle : Nat
  lastEvSimulatedStartCycle : Nat
  totalGapCycles : Nat
  totalHaltedCycles : Nat
  lastUnhaltedCycle : Nat
  events : List Event
  starts : Nat → Option Nat

namespace OOOCoreRecorder

def initial : OOOCoreRecorder where
  state := .HALTED
  gapCycles := 0
  lastEvProduced := none
  futureResponses := []
  lastEvSimulatedZllStartCycle := 0
  lastEvSimulatedStartCycle := 0
  totalGapCycles := 0
  totalHaltedCycles := 0
  lastUnhaltedCycle := 0
  events := []
  starts := fun _ => none

/-- A new event; its identifier is its place. -/
def produce (kind : EventKind) (preDelay minStartCycle : Nat) (queued : Option Nat)
    (parents : List (Nat × Nat)) (cRec : OOOCoreRecorder) :
    OOOCoreRecorder :=
  { cRec with
    events := cRec.events ++ [{
      id := cRec.events.length
      kind
      preDelay
      minStartCycle
      queued
      parents }] }

/-- A new issue event, to which `lastEvProduced` is moved. -/
def produceIssue (zllCycle preDelay evCycle : Nat) (queued : Option Nat)
    (parents : List (Nat × Nat)) (cRec : OOOCoreRecorder) :
    OOOCoreRecorder :=
  { cRec.produce (.issue zllCycle) preDelay evCycle queued parents with
    lastEvProduced := some ⟨cRec.events.length, zllCycle, evCycle⟩ }

/-- The loop over the prior outstanding responses: the largest of their cycles,
the events to link with, and the responses that remain. -/
def linkResponses (lastZllCycle zllCycle : Nat) : Nat → List Nat → List FutureResponse →
      Except RecorderFailure (Nat × List Nat × List FutureResponse)
  | maxCycle, linked, [] => .ok (maxCycle, linked, [])
  | maxCycle, linked, firstResp :: rest =>
    if zllCycle ≤ firstResp.zllStartCycle then
      .ok (maxCycle, linked, firstResp :: rest)
    else
      match firstResp.ev with
      | some ev => do
          check (maxCycle ≤ firstResp.zllStartCycle) .maxCycle
          check (lastZllCycle ≤ firstResp.zllStartCycle) .firstResp
          linkResponses lastZllCycle zllCycle firstResp.zllStartCycle (linked ++ [ev]) rest
      | none => linkResponses lastZllCycle zllCycle maxCycle linked rest

/-- The outcome of an operation. -/
abbrev Result := Except RecorderFailure OOOCoreRecorder

def addIssueEvent (evCycle : Nat) (cRec : OOOCoreRecorder) : Result :=
  match cRec.lastEvProduced with
  | none => .error .lastEvProduced
  | some last => do
      let zllCycle := evCycle - cRec.gapCycles
      check (last.zllStartCycle ≤ zllCycle) .zllCycle
      let (maxCycle, linked, rest) ← linkResponses last.zllStartCycle zllCycle 0 []
          cRec.futureResponses
      let preDelay :=
        if maxCycle ≠ 0 then
          if maxCycle < zllCycle then delay32 zllCycle maxCycle else 0
        else 0
      let issueDelay := delay32 zllCycle (last.zllStartCycle + preDelay)
      return { cRec with futureResponses := rest }.produceIssue zllCycle preDelay evCycle none
        (linked.map (fun ev => (ev, 0)) ++ [(last.id, issueDelay)])

/-- A halted core starts again, with a new chain of issue events. -/
def restart (curCycle : Nat) (cRec : OOOCoreRecorder) : OOOCoreRecorder :=
  let joined := { cRec with
    totalGapCycles := cRec.totalGapCycles + cRec.gapCycles
    gapCycles := 0
    totalHaltedCycles := cRec.totalHaltedCycles + (curCycle - cRec.lastUnhaltedCycle)
    state := .RUNNING }
  joined.produceIssue (curCycle - joined.gapCycles) 0 curCycle (some curCycle) []

def notifyJoin (globPhaseCycles curCycle : Nat) (cRec : OOOCoreRecorder) :
    Except RecorderFailure (Nat × OOOCoreRecorder) :=
  match cRec.state with
  | .HALTED => do
      check (cRec.lastEvProduced = none) .lastEvProduced
      -- start at the beginning of the phase
      let curCycle := globPhaseCycles
      check (cRec.lastUnhaltedCycle ≤ curCycle) .lastUnhaltedCycle
      return (curCycle, cRec.restart curCycle)
  | .DRAINING => do
      check (globPhaseCycles ≤ curCycle) .outOfSync
      check (cRec.lastEvProduced ≠ none) .lastEvProduced
      let added ← cRec.addIssueEvent curCycle
      return (curCycle, { added with state := .RUNNING })
  | .RUNNING => .error .joinState

def notifyLeave (curCycle : Nat) (cRec : OOOCoreRecorder) : Result := do
  check (cRec.state = .RUNNING) .leaveState
  match cRec.lastEvProduced with
  | none => .error .lastEvProduced
  | some last =>
    check (last.zllStartCycle ≤ curCycle - cRec.gapCycles) .zllCycle
    { cRec with state := .DRAINING }.addIssueEvent curCycle

/-- The links of a dispatch event with the responses before it. -/
def respLinks (zllDispatchCycle : Nat) (responses : List FutureResponse) : List (Nat × Nat) :=
  responses.filterMap fun response =>
    if response.zllStartCycle < zllDispatchCycle then
      response.ev.map fun ev =>
        (ev, delay32 zllDispatchCycle response.zllStartCycle)
    else none

/-- A GET after its issue event: dispatch, request, reply and response. -/
def recordGet (curCycle dispatchCycle respCycle : Nat) (tr : TimingRecord)
    (last : IssueEvent) (cRec : OOOCoreRecorder) : OOOCoreRecorder :=
  let zllDispatchCycle := dispatchCycle - cRec.gapCycles
  let dispEv := cRec.events.length
  let linked := cRec
    |>.produce .dispatch 0 dispatchCycle none (respLinks zllDispatchCycle cRec.futureResponses ++
        [(last.id, delay32 dispatchCycle curCycle)])
    |>.produce .request 0 tr.reqCycle none [(dispEv, delay32 tr.reqCycle dispatchCycle)]
    -- the memory events take at least as long as in the bound phase
    |>.produce .reply 0 tr.respCycle none [(dispEv + 1, tr.respCycle - tr.reqCycle)]
    |>.produce .resp (delay32 respCycle tr.respCycle) respCycle none [(dispEv + 2, 0)]
  { linked with
    futureResponses := linked.futureResponses.orderedInsert
      (fun first second => first.zllStartCycle ≤ second.zllStartCycle)
      ⟨respCycle - cRec.gapCycles, some (dispEv + 3)⟩ }

/-- The record `tr` has been popped. -/
def recordAccess (curCycle dispatchCycle respCycle : Nat) (tr : TimingRecord)
    (cRec : OOOCoreRecorder) : Result :=
  if isGet tr.type then do
    let issued ← cRec.addIssueEvent curCycle
    match issued.lastEvProduced with
    | none => .error .lastEvProduced
    | some last =>
      check (tr.respCycle ≤ respCycle) .respCycle
      return issued.recordGet curCycle dispatchCycle respCycle tr last
  else
    match cRec.lastEvProduced with
    | none => .error .lastEvProduced
    | some last =>
      return cRec.produce .writeback 0 tr.reqCycle none [(last.id, delay32 tr.reqCycle curCycle)]

def cSimStart (globPhaseCycles phaseLength curCycle : Nat) (cRec : OOOCoreRecorder) :
    Except RecorderFailure (Nat × OOOCoreRecorder) :=
  let nextPhaseCycle := globPhaseCycles + phaseLength
  match cRec.state with
  | .HALTED => .ok (curCycle, cRec)
  | .RUNNING => do
      check (nextPhaseCycle < curCycle) .nextPhaseCycle
      match cRec.lastEvProduced with
      | none => .error .lastEvProduced
      | some last =>
        check (last.zllStartCycle ≤ curCycle - cRec.gapCycles) .zllCycle
        -- taper the phase if it is not tapered already
        if last.zllStartCycle < nextPhaseCycle - cRec.gapCycles then
          let tapered ← cRec.addIssueEvent nextPhaseCycle
          return (curCycle, tapered)
        else return (curCycle, cRec)
  | .DRAINING =>
    .ok (max curCycle nextPhaseCycle, { cRec with futureResponses := [] })

/-- Null pointers to the responses that have been simulated. -/
def forgetSimulated (cRec : OOOCoreRecorder) : List FutureResponse :=
  cRec.futureResponses.map fun response => { response with
    ev := response.ev.filter fun ev => (cRec.starts ev).isNone }

/-- The core halts when its last event has been simulated. -/
def haltDrained (cRec : OOOCoreRecorder) : Result :=
  match cRec.lastEvProduced with
  | some _ => .ok cRec
  | none => do
      check (cRec.state = .DRAINING) .drainState
      check (cRec.futureResponses = []) .futureResponses
      return { cRec with
        lastUnhaltedCycle := cRec.lastEvSimulatedStartCycle
        state := .HALTED }

def cSimEnd (curCycle : Nat) (cRec : OOOCoreRecorder) :
    Except RecorderFailure (Nat × OOOCoreRecorder) :=
  if cRec.state = .HALTED then .ok (curCycle, cRec)
  else do
    let lastEvCycle1 := cRec.lastEvSimulatedZllStartCycle + cRec.gapCycles
    let lastEvCycle2 := cRec.lastEvSimulatedStartCycle
    check (lastEvCycle1 ≤ curCycle) .lastEvCycle1
    check (lastEvCycle2 ≤ curCycle) .lastEvCycle2
    check (lastEvCycle1 ≤ lastEvCycle2) .negativeSkew
    let skew := lastEvCycle2 - lastEvCycle1
    let ended ← { cRec with
      gapCycles := cRec.gapCycles + skew
      futureResponses := cRec.forgetSimulated }.haltDrained
    return (curCycle + skew, ended)

def reportIssueEventSimulated (ev : IssueEvent) (startCycle : Nat) (cRec : OOOCoreRecorder) :
    OOOCoreRecorder :=
  { cRec with
    lastEvSimulatedZllStartCycle := ev.zllStartCycle
    lastEvSimulatedStartCycle := startCycle
    lastEvProduced :=
      if cRec.lastEvProduced.map IssueEvent.id = some ev.id then none
      else cRec.lastEvProduced }

/-- An event starts; an issue event reports it to the recorder. -/
def simulate (ev : Event) (startCycle : Nat) (cRec : OOOCoreRecorder) :
    OOOCoreRecorder :=
  let started := { cRec with
    starts := update cRec.starts ev.id (some startCycle) }
  match ev.issue? with
  | some issue => started.reportIssueEventSimulated issue startCycle
  | none => started

theorem simulate_of_issue {ev : Event} {issue : IssueEvent} (isIssue : ev.issue? = some issue)
    (startCycle : Nat) (rec : OOOCoreRecorder) :
    rec.simulate ev startCycle =
      { rec with
        starts := update rec.starts ev.id (some startCycle)
        }.reportIssueEventSimulated issue startCycle := by
  rw [simulate, isIssue]

theorem simulate_of_none {ev : Event} (noIssue : ev.issue? = none)
    (startCycle : Nat) (rec : OOOCoreRecorder) :
    rec.simulate ev startCycle =
      { rec with
        starts := update rec.starts ev.id (some startCycle) } := by
  rw [simulate, noIssue]

end OOOCoreRecorder

end Damov.Weave
