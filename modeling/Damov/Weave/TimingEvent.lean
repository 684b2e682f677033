import Damov.Library.Checked
import Mathlib.Algebra.Group.Nat.Defs

/-!
# Timing events

The events of the weave phase (`TimingEvent` and `DelayEvent`) form a graph. An
event stores its only child inline, or its children in a list of blocks of three,
with the newest block first. When an event is done it tells its children; a
`TimingEvent` whose last parent is done is enqueued, and a `DelayEvent` is done
at once.

Cycles are natural numbers. The recursion of `done` and `propagateDomain` is
bounded by the number of events, and a deeper recursion is an error of the model.
The trace records what happens to the events.
-/

namespace Damov.Weave

open Library.Checked Function

/-! ## The children of an event -/

/-- Failed assertions and panics; a null pointer or a wrong member of the union
is a bad store. -/
inductive EventFailure where
  | badStore
  | visitedChildren
  | addChildState
  | childState
  | domainSet
  | queueState
  | runState
  | minStartCycle
  | delaySimulated
  | holdState
  | releaseState
  | requeueState
  | doneState
  | numParents
  | readyState
  | depth
  deriving DecidableEq

/-- `TimingEventBlock` without its link: `TIMING_BLOCK_EVENTS` children. -/
abbrev Block (ι : Type) : Type := Fin 3 → Option ι

namespace Block

variable {ι : Type}

def empty : Block ι := fun _ => none

/-- The children before the first null pointer. -/
def events (block : Block ι) : List ι :=
  (((List.finRange 3).map block).takeWhile Option.isSome).filterMap id

end Block

/-- The union of an inline child and a list of blocks. -/
inductive ChildStore (ι : Type) where
  | child (ev : Option ι)
  | children (blocks : List (Block ι))

namespace ChildStore

variable {ι σ : Type}

/-- What `addChild` does to the store of an event with `numChildren` children. -/
def add (numChildren : Nat) (childEv : ι) (store : ChildStore ι) :
    Except EventFailure (ChildStore ι) :=
  if numChildren = 0 then .ok (.child (some childEv))
  else if numChildren = 1 then
    match store with
    | .child (some firstChild) =>
      .ok (.children [update (update Block.empty 0 (some firstChild)) 1 (some childEv)])
    | _ => .error .badStore
  else
    match store with
    | .children (newest :: older) =>
      let idx := Fin.ofNat 3 numChildren
      if idx = 0 then
        .ok (.children (update Block.empty idx (some childEv) :: newest :: older))
      else .ok (.children (update newest idx (some childEv) :: older))
    | _ => .error .badStore

def visitChildren (f : σ → ι → Except EventFailure σ) (numChildren : Nat)
    (store : ChildStore ι) (state : σ) : Except EventFailure σ :=
  if numChildren = 0 then .ok state
  else if numChildren = 1 then
    match store with
    | .child (some ev) => f state ev
    | _ => .error .badStore
  else
    match store with
    | .children blocks => do
        let visited := blocks.flatMap Block.events
        let next ← visited.foldlM f state
        check (visited.length = numChildren) .visitedChildren
        return next
    | _ => .error .badStore

end ChildStore

/-! ## Events -/

inductive EventState where
  | none
  | queued
  | running
  | held
  | done
  deriving DecidableEq

inductive Kind where
  | timing
  | delay
  deriving DecidableEq

/-- What is fixed when the events are built. -/
structure Params (n : Nat) where
  kind : Fin n → Kind
  preDelay : Fin n → Nat
  postDelay : Fin n → Nat
  minStartCycle : Fin n → Nat

inductive Happening (n : Nat) where
  | added (parent child : Fin n)
  | ready (ev : Fin n) (cycle : Nat)
  | done (ev : Fin n) (cycle : Nat)
  deriving DecidableEq

structure Events (n : Nat) where
  state : Fin n → EventState
  cycle : Fin n → Nat
  privCycle : Fin n → Nat
  store : Fin n → ChildStore (Fin n)
  numChildren : Fin n → Nat
  numParents : Fin n → Nat
  domain : Fin n → Option Nat
  trace : List (Happening n)

namespace Events

variable {n : Nat} (params : Params n)

/-- The events are built with their domains; no domain is `-1`. -/
def initial (domain : Fin n → Option Nat) : Events n where
  state := fun _ => .none
  cycle := fun _ => 0
  privCycle := fun _ => 0
  store := fun _ => .child none
  numChildren := fun _ => 0
  numParents := fun _ => 0
  domain
  trace := []

/-- The outcome of an operation on events. -/
abbrev Result (n : Nat) := Except EventFailure (Events n)

def propagateDomain : Nat → Nat → Events n → Fin n → Result n
  | 0, _, _, _ => .error .depth
  | depth + 1, dom, events, ev => do
      check (events.domain ev = none) .domainSet
      ChildStore.visitChildren (fun events child =>
          if events.domain child = none then
            propagateDomain depth dom events child
          else .ok events)
        (events.numChildren ev) (events.store ev)
        { events with domain := update events.domain ev (some dom) }

/-- A child without a domain gets that of its new parent. -/
def inheritDomain (parent childEv : Fin n) (events : Events n) : Result n :=
  match events.domain parent, events.domain childEv with
  | some dom, none => events.propagateDomain n dom childEv
  | _, _ => .ok events

def addChild (parent childEv : Fin n) (events : Events n) : Result n := do
  check (events.state parent = .none ∨ events.state parent = .queued)
    .addChildState
  check (events.state childEv = .none) .childState
  let store ← (events.store parent).add (events.numChildren parent) childEv
  let inherited ← inheritDomain parent childEv { events with
    store := update events.store parent store
    numChildren := update events.numChildren parent (events.numChildren parent + 1) }
  return { inherited with
    numParents := update inherited.numParents childEv (inherited.numParents childEv + 1)
    trace := inherited.trace ++ [.added parent childEv] }

/-- `ContentionSim::enqueue` and `enqueueSynced`, as far as the event sees
them. -/
def enqueue (ev : Fin n) (cycle : Nat) (events : Events n) : Events n :=
  { events with
    state := update events.state ev .queued
    privCycle := update events.privCycle ev cycle }

/-- `parentDone` up to the test of the parents that remain. -/
def countParent (startCycle : Nat) (ev : Fin n) (events : Events n) : Events n :=
  { events with
    cycle := update events.cycle ev (max (events.cycle ev) startCycle)
    -- an unsigned counter wraps around below zero
    numParents := update events.numParents ev (if events.numParents ev = 0 then 2 ^ 32 - 1
        else events.numParents ev - 1) }

variable (ev : Fin n) (events : Events n)

/-- A `TimingEvent` without further parents is enqueued. -/
def becomeReady : Result n := do
  check (events.state ev = .none) .readyState
  let startCycle := events.cycle ev + params.preDelay ev
  return enqueue ev startCycle { events with
    trace := events.trace ++ [.ready ev startCycle] }

/-- `TimingEvent::parentDone` and `DelayEvent::parentDone`; the latter calls
`done`. -/
def parentDone (done : Fin n → Nat → Events n → Result n)
    (startCycle : Nat) (events : Events n) (ev : Fin n) : Result n :=
  match params.kind ev with
  | .timing => do
      check (events.numParents ev ≠ 0) .numParents
      let counted := events.countParent startCycle ev
      if counted.numParents ev = 0 then counted.becomeReady params ev
      else return counted
  | .delay =>
    let counted := events.countParent startCycle ev
    if counted.numParents ev = 0 then
      done ev (counted.cycle ev + params.preDelay ev) { counted with
        state := update counted.state ev .running }
    else .ok counted

/-- `done` of an event that is reclaimed afterwards. -/
def doneWithin : Nat → Fin n → Nat → Events n → Result n
  | 0, _, _, _ => .error .depth
  | depth + 1, ev, doneCycle, events => do
      check (events.state ev = .running) .doneState
      ChildStore.visitChildren (parentDone params (doneWithin depth)
          (doneCycle + params.postDelay ev))
        (events.numChildren ev) (events.store ev)
        { events with
          state := update events.state ev .done
          trace := events.trace ++ [.done ev doneCycle] }

def done (doneCycle : Nat) (events : Events n) : Result n := doneWithin params n ev doneCycle events

def queue (qCycle : Nat) (events : Events n) : Result n := do
  check (events.state ev = .none ∧ events.numParents ev = 0) .queueState
  return events.enqueue ev qCycle

def requeue (cycle : Nat) (events : Events n) : Result n := do
  check (events.numParents ev = 0) .requeueState
  check (events.state ev = .running ∨ events.state ev = .held) .requeueState
  return events.enqueue ev cycle

/-- `run` up to the call of `simulate`, which is up to the event; the one of a
`DelayEvent` panics. -/
def run (startCycle : Nat) (events : Events n) : Result n := do
  check (events.state ev = .none ∨ events.state ev = .queued) .runState
  check (params.minStartCycle ev ≤ startCycle) .minStartCycle
  check (params.kind ev = .timing) .delaySimulated
  return { events with state := update events.state ev .running }

def hold : Result n := do
  check (events.state ev = .running) .holdState
  return { events with state := update events.state ev .held }

def release : Result n := do
  check (events.state ev = .held) .releaseState
  return { events with state := update events.state ev .running }

end Events

end Damov.Weave
