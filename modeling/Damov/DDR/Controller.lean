import Damov.DDR.Channel
import Damov.Weave.TimingEvent

/-!
# The DDR controller

Requests wait in the read or the write queue, each of a fixed depth, and at the
same time in the queue of their bank, which is in the order in which they will be
served. The others wait in the overflow queue. The controller is woken by one
`SchedEvent`, which it creates when it first needs it, pulls earlier by annulling
it, and requeues after each tick.

The queue of the event simulator is the list of events that are pending with
their cycles. They may run in any order here, each at its cycle.
-/

namespace Damov.DDR

open Library.Checked
open Weave (EventState)
open Function

/-! ## Scheduling events -/

inductive SchedState where
  | IDLE
  | QUEUED
  | RUNNING
  | ANNULLED
  deriving DecidableEq

/-- The scheduling events of a controller. The first `numSched` were created;
`-1` as a cycle is `none`. -/
structure Wakeups where
  nextSchedEvent : Option Nat
  nextSchedCycle : Option Nat
  eventFreelist : List Nat
  numSched : Nat
  state : Nat → SchedState
  evState : Nat → EventState
  pending : List (Nat × Nat)

namespace Wakeups

/-- A `SchedEvent` is built idle and held. -/
def initial : Wakeups where
  nextSchedEvent := none
  nextSchedCycle := none
  eventFreelist := []
  numSched := 0
  state := fun _ => .IDLE
  evState := fun _ => .held
  pending := []

/-- The outcome of an operation. -/
abbrev Result := Except DDRFailure Wakeups

/-- `TimingEvent::requeue`. -/
def requeue (ev cycle : Nat) (wks : Wakeups) : Result := do
  check (wks.evState ev = .running ∨ wks.evState ev = .held)
    .requeueState
  return { wks with
    evState := update wks.evState ev .queued
    pending := wks.pending ++ [(ev, cycle)] }

/-- `SchedEvent::enqueue`. -/
def enqueue (ev cycle : Nat) (wks : Wakeups) : Result := do
  check (wks.state ev = .IDLE) .schedIdle
  requeue ev cycle { wks with state := update wks.state ev .QUEUED }

variable (ev : Nat) (wks : Wakeups)

/-- `SchedEvent::annul`. -/
def annul : Result := do
  check (wks.state ev = .QUEUED) .schedQueued
  return { wks with state := update wks.state ev .ANNULLED }

def annulNext : Result :=
  match wks.nextSchedEvent with
  | none => .ok wks
  | some ev => wks.annul ev

/-- The next event is a recycled one, if there is any, or a new one. -/
def take : Wakeups :=
  match wks.eventFreelist with
  | ev :: freelist => { wks with
      nextSchedEvent := some ev
      eventFreelist := freelist }
  | [] => { wks with
      nextSchedEvent := some wks.numSched
      numSched := wks.numSched + 1 }

/-- Queues the event that `take` has chosen. -/
def enqueueNext (cycle : Nat) (wks : Wakeups) : Result :=
  match wks.nextSchedEvent with
  | none => .error .noEvent
  | some ev => wks.enqueue ev cycle

/-- The controller is to be woken at `minSchedCycle`. -/
def reschedule (minSchedCycle enqSysCycle : Nat) (wks : Wakeups) : Result := do
  let annulled ← wks.annulNext
  let queued ← annulled.take.enqueueNext enqSysCycle
  return { queued with nextSchedCycle := some minSchedCycle }

/-- `TimingEvent::hold`. -/
def hold : Result := do
  check (wks.evState ev = .running) .holdState
  return { wks with evState := update wks.evState ev .held }

/-- Only the last event of the list has no link. -/
def recycleEvent : Result := do
  check (wks.nextSchedEvent ≠ some ev) .recycledNext
  check (ev ∉ wks.eventFreelist.dropLast) .recycledLink
  return { wks with eventFreelist := ev :: wks.eventFreelist }

/-- The end of `SchedEvent::simulate` where the event is not queued again. -/
def retire : Result := do
  let held ← hold ev { wks with state := update wks.state ev .IDLE }
  held.recycleEvent ev

/-- The end of `SchedEvent::simulate` after a tick that returned `nextCycle`. -/
def finish (ev nextCycle : Nat) (wks : Wakeups) : Result :=
  if nextCycle = 0 then wks.retire ev
  else do
    let queued ← wks.requeue ev nextCycle
    return { queued with state := update queued.state ev .QUEUED }

/-- Takes an event from the queue of the simulator, up to the call of
`simulate`. -/
def run : Result := do
  check (wks.evState ev = .none ∨ wks.evState ev = .queued) .runState
  return { wks with
    evState := update wks.evState ev .running
    pending := wks.pending.filter fun entry => entry.1 ≠ ev }

/-- A cycle comes before the next one for which the controller is woken. -/
def Sooner (cycle : Nat) : Option Nat → Prop
  | none => True
  | some next => cycle < next

instance (cycle : Nat) (next : Option Nat) : Decidable (Sooner cycle next) :=
  match next with
  | none => inferInstanceAs (Decidable True)
  | some later => inferInstanceAs (Decidable (cycle < later))

/-- `std::min` with a cycle that may be `-1`. -/
def minCycle (next : Option Nat) (cycle : Nat) : Option Nat :=
  match next with
  | none => some cycle
  | some other => some (min other cycle)

end Wakeups

/-! ## Request queues -/

/-- The queues, and the requests that were served. -/
structure Queues (cfg : Config) where
  rdQueue : List (Request cfg)
  wrQueue : List (Request cfg)
  overflowQueue : List (Request cfg)
  rdReqs : cfg.BankId → List (Request cfg)
  wrReqs : cfg.BankId → List (Request cfg)
  served : List (Request cfg)

namespace Queues

variable {cfg : Config}

def initial : Queues cfg where
  rdQueue := []
  wrQueue := []
  overflowQueue := []
  rdReqs := fun _ => []
  wrReqs := fun _ => []
  served := []

/-- `RequestQueue::full`: the list of free nodes is empty. -/
def full (queue : List (Request cfg)) : Bool := cfg.queueDepth ≤ queue.length

def anyFull (queues : Queues cfg) : Bool := full queues.rdQueue || full queues.wrQueue

variable (queues : Queues cfg)

def noRequests : Bool := queues.rdQueue.isEmpty && queues.wrQueue.isEmpty

variable (isWriteQueue : Bool)

/-- The read or the write queue. -/
def queueOf : List (Request cfg) := if isWriteQueue then queues.wrQueue else queues.rdQueue

/-- The queue of a bank. -/
def bankReqs (bank : cfg.BankId) : List (Request cfg) :=
  if isWriteQueue then queues.wrReqs bank else queues.rdReqs bank

/-- No request comes before this one in the queue of its bank. -/
def isFirst (r : Request cfg) : Bool :=
  ((queues.bankReqs isWriteQueue r.loc.bankId).head?.map Request.id) == some r.id

def setQueue (queue : List (Request cfg)) : Queues cfg :=
  if isWriteQueue then { queues with wrQueue := queue }
  else { queues with rdQueue := queue }

def setBankReqs (bank : cfg.BankId) (reqs : List (Request cfg)) : Queues cfg :=
  if isWriteQueue then { queues with wrReqs := update queues.wrReqs bank reqs }
  else { queues with rdReqs := update queues.rdReqs bank reqs }

end Queues

/-- Where a request is put in the queue of its bank, with its sequence number. -/
structure Placement (cfg : Config) where
  before : List (Request cfg)
  rowHitSeq : Nat
  after : List (Request cfg)

variable {cfg : Config}

/-- The last request to a row, with what is before and after it. -/
def lastOfRow (row : Nat) : List (Request cfg) →
      Option (List (Request cfg) × Request cfg × List (Request cfg))
  | [] => none
  | m :: rest =>
    match lastOfRow row rest with
    | some (before, found, after) => some (m :: before, found, after)
    | none => if m.loc.row = row then some ([], m, rest) else none

/-- The order of the bank queues: first-ready, then first-come. -/
def place (bank : Bank) (row : Nat) (q : List (Request cfg)) : Placement cfg :=
  match lastOfRow row q with
  | some (before, m, after) =>
    if m.rowHitSeq < cfg.rowHitLimit then
      ⟨before ++ [m], m.rowHitSeq + 1, after⟩
    -- too many hits: last, for some fairness
    else ⟨q, 0, []⟩
  | none =>
    if bank.isOpen ∧ row = bank.openRow ∧ bank.curRowHits < cfg.rowHitLimit ∧ q = [] then
      ⟨[], bank.curRowHits + 1, q⟩
    else ⟨q, 0, []⟩

/-! ## The controller -/

/-- `accepted` counts the calls of `enqueue`; it numbers the events. An event
has been started by its `run` when it is enqueued. -/
structure DDRMemory (cfg : Config) where
  channel : Channel cfg
  queues : Queues cfg
  wakeups : Wakeups
  accepted : Nat
  accState : Nat → EventState
  completions : List (Nat × Nat)

namespace DDRMemory

def initial (lastCmdWasWrite : Bool) : DDRMemory cfg where
  channel := .initial lastCmdWasWrite
  queues := .initial
  wakeups := .initial
  accepted := 0
  accState := fun _ => .running
  completions := []

/-- The outcome of an operation of the controller. -/
abbrev Result (cfg : Config) := Except DDRFailure (DDRMemory cfg)

/-- `release` and then `done`; the event is running in between. -/
def complete (ev doneCycle : Nat) (mem : DDRMemory cfg) : Result cfg := do
  check (mem.accState ev = .held) .releaseState
  return { mem with
    accState := update mem.accState ev .done
    completions := (ev, doneCycle) :: mem.completions }

variable (req : Request cfg) (memCycle : Nat)

/-- A write is responded to when it is queued. -/
def respondToWrite (mem : DDRMemory cfg) : Result cfg :=
  if req.write then
    match req.ev with
    | none => .error .noEvent
    | some ev =>
      let respCycle := cfg.memToSysCycle memCycle + cfg.minWrLatency
      mem.complete ev (respCycle - cfg.preDelay - cfg.postDelayWr)
  else .ok mem

def useWrQueue : Bool := cfg.deferredWrites && req.write

variable (mem : DDRMemory cfg)

def placement : Placement cfg :=
  place (mem.channel.bankOf req) req.loc.row (mem.queues.bankReqs (useWrQueue req) req.loc.bankId)

section

variable (mem : DDRMemory cfg)

/-- A request as `queue` leaves it. -/
def queued : Request cfg :=
  { req with
    ev := if req.write then none else req.ev
    arrivalCycle := memCycle
    rowHitSeq := (mem.placement req).rowHitSeq }

/-- `alloc` in the queue of the request, and `queue`. -/
def queue : Result cfg := do
  check (¬ Queues.full (mem.queues.queueOf (useWrQueue req))) .queueFull
  let queued := mem.queued req memCycle
  let placed := mem.placement req
  let allocated :=
    mem.queues.setQueue (useWrQueue req) (mem.queues.queueOf (useWrQueue req) ++ [queued])
  let responded ← mem.respondToWrite req memCycle
  return { responded with
    queues := allocated.setBankReqs (useWrQueue req) req.loc.bankId
      (placed.before ++ queued :: placed.after) }

/-- The first cycle at which another request may be scheduled. -/
def soonest : Nat := max memCycle (mem.channel.minRespCycle - cfg.tCL - cfg.tBL)

end

/-- Schedules an event for a request that was just queued, if needed. -/
def wakeFor (memCycle sysCycle : Nat) (mem : DDRMemory cfg) : Result cfg :=
  if mem.queues.isFirst (useWrQueue req) req then
    let minSchedCycle :=
      if Wakeups.Sooner (mem.soonest memCycle) mem.wakeups.nextSchedCycle then
        max (mem.soonest memCycle) (mem.channel.findMinCmdCycle req)
      else mem.soonest memCycle
    if Wakeups.Sooner minSchedCycle mem.wakeups.nextSchedCycle then do
      let enqSysCycle := max (cfg.matchingMemToSysCycle minSchedCycle) sysCycle
      let wakeups ← mem.wakeups.reschedule minSchedCycle enqSysCycle
      return { mem with wakeups }
    else .ok mem
  else .ok mem

/-- The event of a new request is held. -/
def accept : Result cfg := do
  check (mem.accState mem.accepted = .running) .holdState
  return { mem with
    accepted := mem.accepted + 1
    accState := update mem.accState mem.accepted .held }

def enqueue (addr : Nat) (write : Bool) (sysCycle : Nat) (mem : DDRMemory cfg) : Result cfg := do
  let memCycle := cfg.sysToMemCycle sysCycle
  let loc ← cfg.mapLineAddr addr
  let req : Request cfg := {
    id := mem.accepted
    loc, write
    rowHitSeq := 0
    arrivalCycle := memCycle
    ev := some mem.accepted }
  let held ← mem.accept
  if mem.queues.anyFull then
    return { held with
      queues := { held.queues with
        overflowQueue := held.queues.overflowQueue ++ [req] } }
  else do
    let next ← held.queue req memCycle
    next.wakeFor (held.queued req memCycle) memCycle sysCycle

/-! ### Ticks -/

/-- The walk over a queue: the first request that is ready, or the cycle at
which the first one will be. -/
def findReady (isWriteQueue : Bool) (curCycle : Nat) (mem : DDRMemory cfg) :
    Option Nat → List (Request cfg) → Request cfg ⊕ Option Nat
  | minSchedCycle, [] => .inr minSchedCycle
  | minSchedCycle, r :: rest =>
    if mem.queues.isFirst isWriteQueue r then
      if mem.channel.findMinCmdCycle r ≤ curCycle then .inl r
      else
        findReady isWriteQueue curCycle mem
          (Wakeups.minCycle minSchedCycle (mem.channel.findMinCmdCycle r)) rest
    else findReady isWriteQueue curCycle mem minSchedCycle rest

/-- Writes have priority if the write queue is getting full. -/
def prioWrites : Bool :=
  3 * cfg.queueDepth / 4 < mem.queues.wrQueue.length || (mem.channel.lastCmdWasWrite &&
      cfg.queueDepth / 4 < mem.queues.wrQueue.length)

def isWriteQueue : Bool := mem.queues.rdQueue.isEmpty || mem.prioWrites

variable (isWriteQueue : Bool) (r : Request cfg)

/-- The next request of the bank is a hit of the same row. -/
def nextHits (mem : DDRMemory cfg) : Bool :=
  match mem.queues.bankReqs isWriteQueue r.loc.bankId with
  | _ :: next :: _ => next.rowHitSeq ≠ 0
  | _ => false

variable (sysCycle : Nat)

/-- The response to a read; the one to a write was sent before. -/
def respond (mem : DDRMemory cfg) : Result cfg :=
  match r.ev with
  | none => .ok mem
  | some ev => do
      check (¬ r.write) .writeResponse
      let doneSysCycle := cfg.memToSysCycle mem.channel.minRespCycle + cfg.controllerSysLatency
      check (sysCycle ≤ doneSysCycle) .doneCycle
      mem.complete ev (doneSysCycle - cfg.preDelay - cfg.postDelayRd)

/-- A request leaves its queue and, from the front, the one of its bank. -/
def dequeue (mem : DDRMemory cfg) : DDRMemory cfg :=
  let removed := mem.queues.setQueue isWriteQueue
      ((mem.queues.queueOf isWriteQueue).filter fun other => other.id ≠ r.id)
  let popped := removed.setBankReqs isWriteQueue r.loc.bankId
      (mem.queues.bankReqs isWriteQueue r.loc.bankId).tail
  { mem with queues := { popped with served := r :: popped.served } }

/-- Issues the commands of a request and finishes it. -/
def serve (curCycle sysCycle : Nat) (mem : DDRMemory cfg) : Result cfg := do
  let channel ← mem.channel.schedule r curCycle (mem.nextHits isWriteQueue r)
  let responded ← respond r sysCycle { mem with channel }
  return responded.dequeue isWriteQueue r

/-- The cycle at which the next request may be scheduled, after one was. -/
def nextAfter : Option Nat :=
  if mem.queues.noRequests then none
  else some (mem.channel.minRespCycle - cfg.tCL)

def trySchedule (curCycle sysCycle : Nat) (mem : DDRMemory cfg) :
    Except DDRFailure (DDRMemory cfg × Option Nat) :=
  if mem.queues.noRequests then .ok (mem, none)
  -- too far ahead
  else if curCycle + cfg.tCL < mem.channel.minRespCycle then
    .ok (mem, some (mem.channel.minRespCycle - cfg.tCL))
  else do
    check (mem.queues.queueOf mem.isWriteQueue ≠ []) .emptyQueue
    match findReady mem.isWriteQueue curCycle mem none (mem.queues.queueOf mem.isWriteQueue) with
    | .inr minSchedCycle => return (mem, minSchedCycle)
    | .inl r => do
        let served ← mem.serve mem.isWriteQueue r curCycle sysCycle
        return (served, served.nextAfter)

variable (minSchedCycle : Option Nat)

section

variable (mem : DDRMemory cfg)

/-- The cycle of the next tick, with a request from the overflow queue. -/
def nextWith : Option Nat :=
  if mem.queues.isFirst (useWrQueue req) req then
    let lowered :=
      if Wakeups.Sooner (mem.soonest memCycle) minSchedCycle then
        some (max (mem.soonest memCycle) (mem.channel.findMinCmdCycle req))
      else minSchedCycle
    if Wakeups.Sooner (mem.soonest memCycle) lowered then
      some (mem.soonest memCycle)
    else lowered
  else minSchedCycle

/-- Moves a request from the overflow queue to its queue, if it fits. -/
def refill : Except DDRFailure (DDRMemory cfg × Option Nat) :=
  if mem.queues.anyFull then .ok (mem, minSchedCycle)
  else
    match mem.queues.overflowQueue with
    | [] => .ok (mem, minSchedCycle)
    | req :: rest => do
        let popped := { mem with queues := { mem.queues with overflowQueue := rest } }
        let next ← popped.queue req memCycle
        return (next, next.nextWith (popped.queued req memCycle) memCycle minSchedCycle)

/-- Returns the cycle of the next tick, 0 for none. -/
def setNext : DDRMemory cfg × Nat :=
  match minSchedCycle with
  | none =>
    ({ mem with wakeups := { mem.wakeups with
        nextSchedCycle := none
        nextSchedEvent := none } }, 0)
  | some cycle =>
    ({ mem with wakeups := { mem.wakeups with nextSchedCycle := some cycle } },
      max (cfg.matchingMemToSysCycle cycle) sysCycle)

/-- A cycle that may be `-1` is not before another. -/
def NotBefore : Option Nat → Prop
  | none => True
  | some cycle => memCycle ≤ cycle

instance (memCycle : Nat) (next : Option Nat) : Decidable (NotBefore memCycle next) :=
  match next with
  | none => inferInstanceAs (Decidable True)
  | some cycle => inferInstanceAs (Decidable (memCycle ≤ cycle))

def tick : Except DDRFailure (DDRMemory cfg × Nat) := do
  let memCycle := cfg.sysToMemCycle sysCycle
  check (mem.wakeups.nextSchedCycle = some memCycle) .tickCycle
  let tried ← mem.trySchedule memCycle sysCycle
  check (NotBefore memCycle tried.2) .schedOrder
  let refilled ← tried.1.refill memCycle tried.2
  return refilled.1.setNext sysCycle refilled.2

/-- `SchedEvent::simulate`. -/
def simulate (ev startCycle : Nat) (mem : DDRMemory cfg) : Result cfg :=
  match mem.wakeups.state ev with
  | .QUEUED => do
      let ticked ← tick startCycle { mem with wakeups := { mem.wakeups with
        state := update mem.wakeups.state ev .RUNNING } }
      let wakeups ← ticked.1.wakeups.finish ev ticked.2
      return { ticked.1 with wakeups }
  | .ANNULLED => do
      let wakeups ← mem.wakeups.retire ev
      return { mem with wakeups }
  | _ => .error .schedAnnulled

/-! ## Runs -/

/-- What the event simulator does to a controller. -/
inductive Op where
  | enqueue (addr : Nat) (write : Bool) (sysCycle : Nat)
  | schedEvent (ev : Nat)
  | refresh (sysCycle : Nat)

/-- The simulator runs a scheduling event at the cycle of its queue. -/
def runEvent (ev : Nat) (mem : DDRMemory cfg) : Result cfg :=
  match mem.wakeups.pending.lookup ev with
  | none => .error .notPending
  | some cycle => do
      let wakeups ← mem.wakeups.run ev
      simulate ev cycle { mem with wakeups }

def refresh : Result cfg := do
  let channel ← mem.channel.refresh (cfg.sysToMemCycle sysCycle)
  return { mem with channel }

end

def step : Op → Result cfg
  | .enqueue addr write sysCycle => mem.enqueue addr write sysCycle
  | .schedEvent ev => mem.runEvent ev
  | .refresh sysCycle => mem.refresh sysCycle

/-- A controller from its construction on. -/
def run (cfg : Config) (lastCmdWasWrite : Bool) (ops : List Op) : Result cfg :=
  ops.foldlM step (initial lastCmdWasWrite)

end DDRMemory

end Damov.DDR
