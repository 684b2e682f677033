import Damov.Library.Runs
import Damov.Weave.PrioQueue

/-!
# The simulation threads of a weave phase

A thread simulates the events of its domains up to the limit of the phase. A
thread with one domain takes the events of its queue in a loop. A thread with
several domains keeps them in a priority queue and takes one event at a time from
the domain at its top; domains that wait for a crossing are put aside.

There are no crossings here, so an event works on the data of its own domain and
enqueues events there. What it does is a parameter.
-/

namespace Damov.Weave

open Library.Checked Library.Loops Function

inductive PhaseFailure where
  | queue (failure : QueueFailure)
  | event
  | alreadyQueued
  | beforeLastLimit
  | tooFarAhead
  | goesBackInTime
  | dequeuedBefore
  | newCycleBefore
  /-- The phase does not end. -/
  | unbounded
  deriving DecidableEq

/-- The parameters of a phase. -/
structure Phase where
  limit : Nat
  lastLimit : Nat
  phaseLength : Nat
  blocks : Nat
  twoBlocks : 2 ≤ blocks

/-- What an event does in a cycle: it changes the data of the domain and enqueues
events. -/
abbrev EventBody (δ ε : Type) := δ → ε → Nat → Except PhaseFailure (δ × List (Nat × ε))

structure EventProgram (δ ε : Type) where
  run : EventBody δ ε
  simulate : EventBody δ ε

/-- A domain, with the events that are in the state `EV_QUEUED`, a history of the
events that were enqueued and one of those that were taken. -/
structure Domain (δ ε : Type) where
  pq : PrioQueue ε
  curCycle : Nat
  data : δ
  queued : ε → Bool
  entered : List (Nat × ε)
  log : List (Nat × ε)

namespace Domain

variable {δ ε : Type} [DecidableEq ε]

def ofQueue {α : Type} (result : Except QueueFailure α) : Except PhaseFailure α :=
  result.mapError .queue

/-- `ContentionSim::enqueue` for an event that is not queued. -/
def enqueue (phase : Phase) (domain : Domain δ ε) (item : Nat × ε) :
    Except PhaseFailure (Domain δ ε) := do
  check (domain.queued item.2 = false) .alreadyQueued
  check (phase.lastLimit ≤ item.1) .beforeLastLimit
  check (item.1 < phase.lastLimit + 10 * phase.phaseLength + 1000000)
    .tooFarAhead
  check (domain.curCycle ≤ item.1) .goesBackInTime
  let pq ← ofQueue (domain.pq.enqueue phase.blocks item.2 item.1)
  return { domain with
    pq
    queued := update domain.queued item.2 true
    entered := domain.entered ++ [item] }

/-- An event that left the queue, and its cycle. -/
structure Taken (δ ε : Type) where
  domain : Domain δ ε
  cycle : Nat
  event : ε

def taken (domain : Domain δ ε) (pq : PrioQueue ε) (cycle : Nat) (event : ε) : Taken δ ε :=
  ⟨{ domain with
    pq
    curCycle := cycle
    queued := update domain.queued event false
    log := domain.log ++ [(cycle, event)] }, cycle, event⟩

variable (phase : Phase)

/-- Take the first event. Only the loop for one domain asserts that its cycle is
not in the past. -/
def take (asserts : Bool) (domain : Domain δ ε) : Except PhaseFailure (Taken δ ε) := do
  let dequeued ← ofQueue (domain.pq.dequeue phase.blocks)
  let cycle := dequeued.1.2
  check (asserts = true → domain.curCycle ≤ cycle) .dequeuedBefore
  return domain.taken dequeued.2 cycle dequeued.1.1

/-- Run the event and enqueue what it creates. -/
def execute (body : EventBody δ ε) (taken : Taken δ ε) : Except PhaseFailure (Domain δ ε) := do
  let done ← body taken.domain.data taken.event taken.cycle
  done.2.foldlM (enqueue phase) { taken.domain with data := done.1 }

/-- Go on to the cycle of the next event. -/
def settle (asserts : Bool) (cycle : Nat) (domain : Domain δ ε) :
    Except PhaseFailure (Domain δ ε) := do
  let newCycle ←
    if domain.pq.size ≠ 0 then ofQueue (domain.pq.firstCycle phase.blocks)
    else pure phase.limit
  check (asserts = true → cycle ≤ newCycle) .newCycleBefore
  return { domain with curCycle := newCycle }

/-- One turn of a loop over the events of a domain. -/
def turn (asserts : Bool) (body : EventBody δ ε) (domain : Domain δ ε) :
    Except PhaseFailure (Domain δ ε) := do
  let taken ← domain.take phase asserts
  let executed ← execute phase body taken
  executed.settle phase asserts taken.cycle

variable (domain : Domain δ ε)

/-- The condition of the loop for one domain. -/
def isDue : Except PhaseFailure Bool := do
  if domain.pq.size = 0 then return false
  else
    let first ← ofQueue (domain.pq.firstCycle phase.blocks)
    return decide (first < phase.limit)

/-- The condition under which a thread with several domains is not done with a
domain. -/
def isUnfinished : Except PhaseFailure Bool := do
  if domain.pq.size = 0 then return false
  else
    let first ← ofQueue (domain.pq.firstCycle phase.blocks)
    return !decide (phase.limit < first)

/-- The domain is done with the phase. -/
def finish : Domain δ ε := { domain with curCycle := phase.limit }

/-- The loop for one domain. -/
def simulate (program : EventProgram δ ε) : Nat → Domain δ ε → Except PhaseFailure (Domain δ ε) :=
  loop (isDue phase) (turn phase true program.run) (finish phase) .unbounded

end Domain

/-- A thread with its domains. -/
structure SimThread (δ ε : Type) where
  domains : Nat → Domain δ ε
  prio : Nat → Nat
  queuePrio : Nat → Nat
  domPq : List Nat
  stalledQueue : List Nat
  nextStalledQueue : List Nat
  numFinished : Nat

/-- The domain at the top of the priority queue of the domains. -/
structure TopDomain (δ ε : Type) where
  top : SimThread δ ε → Nat
  mem : ∀ thread, thread.domPq ≠ [] → top thread ∈ thread.domPq

namespace SimThread

variable {δ ε : Type} [DecidableEq ε]

/-- Take an event of a domain or finish it. A domain that waits for a crossing is
put aside with `stall`. -/
def visit (phase : Phase) (body : EventBody δ ε)
    (stall : Nat → SimThread δ ε → SimThread δ ε) (i : Nat)
    (thread : SimThread δ ε) : Except PhaseFailure (SimThread δ ε) := do
  if ← (thread.domains i).isUnfinished phase then
    let domain ← (thread.domains i).turn phase false body
    let thread := { thread with
      domains := update thread.domains i domain
      queuePrio := update thread.queuePrio i domain.curCycle }
    if thread.prio i = 0 then
      return { thread with domPq := i :: thread.domPq }
    else return stall i thread
  else
    return { thread with
      domains := update thread.domains i ((thread.domains i).finish phase)
      numFinished := thread.numFinished + 1 }

def stallNow (i : Nat) (thread : SimThread δ ε) : SimThread δ ε :=
  { thread with stalledQueue := thread.stalledQueue ++ [i] }

def stallNext (i : Nat) (thread : SimThread δ ε) : SimThread δ ε :=
  { thread with nextStalledQueue := thread.nextStalledQueue ++ [i] }

variable (phase : Phase) (program : EventProgram δ ε) (domPq : TopDomain δ ε)

/-- The loop over the domains that are ready. -/
def runReady : Nat → SimThread δ ε → Except PhaseFailure (SimThread δ ε)
  | turns, thread =>
    if thread.domPq = [] then .ok thread
    else
      match turns with
      | 0 => .error .unbounded
      | turns + 1 => do
          let i := domPq.top thread
          let next ← visit phase program.run stallNow i
            { thread with domPq := thread.domPq.erase i }
          runReady turns next

/-- The loop over the domains that were put aside. -/
def runStalled : Nat → SimThread δ ε → Except PhaseFailure (SimThread δ ε)
  | turns, thread =>
    match thread.stalledQueue.getLast? with
    | none => .ok thread
    | some i =>
      match turns with
      | 0 => .error .unbounded
      | turns + 1 => do
          let next ← visit phase program.simulate stallNext i
            { thread with stalledQueue := thread.stalledQueue.dropLast }
          if next.domPq ≠ [] then return next
          else runStalled turns next

def swapStalled (thread : SimThread δ ε) : SimThread δ ε :=
  if thread.stalledQueue = [] then
    { thread with
      stalledQueue := thread.nextStalledQueue
      nextStalledQueue := thread.stalledQueue }
  else thread

/-- The loop for several domains. -/
def simulate (thDomains : Nat) : Nat → SimThread δ ε → Except PhaseFailure (SimThread δ ε)
  | turns, thread =>
    if thread.numFinished < thDomains then
      match turns with
      | 0 => .error .unbounded
      | turns + 1 => do
          let ran ← runReady phase program domPq turns thread
          let ran ← runStalled phase program turns ran
          simulate thDomains turns ran.swapStalled
    else .ok thread

/-- The thread at the start of a phase. -/
def start (domains : Nat → Domain δ ε) (prio queuePrio : Nat → Nat)
    (ids : List Nat) : SimThread δ ε :=
  ⟨domains, prio, queuePrio, ids, [], [], 0⟩

/-- `simulatePhaseThread` for a thread with these domains, with a bound on the
turns of its loops. The result are its domains. -/
def simulatePhaseThread (prio queuePrio : Nat → Nat)
    (domains : Nat → Domain δ ε) (ids : List Nat) (turns : Nat) : Except PhaseFailure (Nat → Domain δ ε) :=
  match ids with
  | [i] => do
      let domain ← (domains i).simulate phase program turns
      return update domains i domain
  | _ => do
      let thread ← simulate phase program domPq ids.length turns (start domains prio queuePrio ids)
      return thread.domains

end SimThread

end Damov.Weave
