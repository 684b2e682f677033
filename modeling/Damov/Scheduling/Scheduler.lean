import Damov.Library.ListMoves
import Damov.Scheduling.Barrier

/-!
# The thread scheduler

The scheduler maps threads to contexts, one for each core. A thread that joins
takes a free context of its mask, takes over the context of a thread that is out,
or waits in the run queue. A thread that leaves gives its context to a thread of
the run queue or keeps it while it is out. At the end of a quantum, `schedTick`
takes threads off the run queue and makes them the handoff targets of running
threads, which give up their contexts when they return from the barrier.

Each definition is a critical section of the scheduler's lock. Threads are the
cells of a heap, so that a pointer can outlive the thread it refers to, and the
fields of `ThreadInfo` and `ContextInfo` are one function each. The barrier,
the cores and the statistics are not part of the state. Waiting on a futex comes
after the lock is released; what is left of `waitForContext` is the write to
`futexWord`, and no wakeup asks for another join.

The invariant has one part for each thing that the scheduler keeps, and each update
touches a few parts. In the middle of an operation one context can be open: it has
no thread and is not in the free list either. Queued threads that are in no queue
and not the target of a handoff are lost; an operation takes threads in hand and
puts them back.
-/

namespace Damov.Scheduling

open Library.Checked Function

/-- A cell of the heap. -/
abbrev Ptr : Type := Nat

abbrev Gid : Type := Nat

/-- The contexts; there is at least one core. -/
abbrev Cid (lastCore : Nat) : Type := Fin (lastCore + 1)

inductive ThreadState where
  | started
  | running
  | out
  | blocked
  | sleeping
  | queued
  deriving DecidableEq, Repr

inductive ContextState where
  | idle
  | used
  deriving DecidableEq, Repr

/-- The lists that own threads. -/
inductive Queue where
  | run
  | out
  | sleep
  deriving DecidableEq, Repr

/-- The assertions and panics of the scheduler, and accesses to no thread. -/
inductive SchedFailure where
  | gidInUse
  | emptyMask
  | noThread
  | useAfterFree
  | marked
  | joinState
  | leaveThread
  | leaveState
  | syncState
  | scheduleState
  | contextUsed
  | descheduleState
  | contextOwner
  | targetState
  | maskViolated
  | linked
  | notLinked
  | wakeupRace
  | occupancy
  | wakeupPhase
  | noVictim
  | sleepEndState
  | finishState
  | finishOwner
  deriving DecidableEq, Repr

structure Scheduler (lastCore : Nat) where
  alive : Ptr → Bool
  nextPtr : Ptr
  gid : Ptr → Gid
  state : Ptr → ThreadState
  cid : Ptr → Cid lastCore
  handoffThread : Ptr → Option Ptr
  futexWord : Ptr → Nat
  markedForSleep : Ptr → Bool
  wakeupPhase : Ptr → Nat
  mask : Ptr → Cid lastCore → Bool
  gidMap : Gid → Option Ptr
  ctxState : Cid lastCore → ContextState
  curThread : Cid lastCore → Option Ptr
  freeList : List (Cid lastCore)
  runQueue : List Ptr
  outQueue : List Ptr
  sleepQueue : List Ptr
  curPhase : Nat
  scheduledThreads : Nat

namespace Scheduler

variable {lastCore : Nat}

def initial : Scheduler lastCore where
  alive := fun _ => false
  nextPtr := 0
  gid := fun _ => 0
  state := fun _ => .started
  cid := fun _ => 0
  handoffThread := fun _ => none
  futexWord := fun _ => 0
  markedForSleep := fun _ => false
  wakeupPhase := fun _ => 0
  mask := fun _ _ => false
  gidMap := fun _ => none
  ctxState := fun _ => .idle
  curThread := fun _ => none
  freeList := List.finRange (lastCore + 1)
  runQueue := []
  outQueue := []
  sleepQueue := []
  curPhase := 0
  scheduledThreads := 0

/-! ## Queues -/

variable (th : Ptr) (sched : Scheduler lastCore)

/-- The list that owns a thread. -/
def owner : Option Queue :=
  if th ∈ sched.runQueue then some .run
  else if th ∈ sched.outQueue then some .out
  else if th ∈ sched.sleepQueue then some .sleep
  else none

/-- The outcome of an operation of the scheduler. -/
abbrev Result (lastCore : Nat) := Except SchedFailure (Scheduler lastCore)

/-- `runQueue.push_back` -/
def pushRun : Result lastCore := do
  check (sched.owner th = none) .linked
  return { sched with runQueue := sched.runQueue ++ [th] }

/-- `runQueue.remove` -/
def removeRun : Result lastCore := do
  check (sched.owner th = some .run) .notLinked
  return { sched with runQueue := sched.runQueue.erase th }

/-- `outQueue.push_back` -/
def pushOut : Result lastCore := do
  check (sched.owner th = none) .linked
  return { sched with outQueue := sched.outQueue ++ [th] }

/-- `outQueue.remove` -/
def removeOut : Result lastCore := do
  check (sched.owner th = some .out) .notLinked
  return { sched with outQueue := sched.outQueue.erase th }

/-- The place of a thread in the sleep queue: before the first thread that wakes
up later. -/
def sleepInsert (wakeupPhase : Ptr → Nat) (th : Ptr) : List Ptr → List Ptr
  | [] => [th]
  | cur :: rest =>
    if wakeupPhase th < wakeupPhase cur then th :: cur :: rest
    else cur :: sleepInsert wakeupPhase th rest

/-- The ordered insertion into `sleepQueue` -/
def pushSleep : Result lastCore := do
  check (sched.owner th = none) .linked
  return { sched with
    sleepQueue := sleepInsert sched.wakeupPhase th sched.sleepQueue }

/-- `sleepQueue.remove` -/
def removeSleep : Result lastCore := do
  check (sched.owner th = some .sleep) .notLinked
  return { sched with sleepQueue := sched.sleepQueue.erase th }

variable (ctx : Cid lastCore)

section

variable (sched : Scheduler lastCore)

/-- `freeList.push_back` -/
def pushFree : Result lastCore := do
  check (ctx ∉ sched.freeList) .linked
  return { sched with freeList := sched.freeList ++ [ctx] }

/-- `freeList.remove` -/
def removeFree : Result lastCore := do
  check (ctx ∈ sched.freeList) .notLinked
  return { sched with freeList := sched.freeList.erase ctx }

/-! ## Threads and contexts -/

def setState (state : ThreadState) (sched : Scheduler lastCore) : Scheduler lastCore :=
  { sched with state := update sched.state th state }

/-- The thread gets the context. -/
def place : Scheduler lastCore :=
  { sched with
    state := update sched.state th .running
    cid := update sched.cid th ctx
    ctxState := update sched.ctxState ctx .used
    curThread := update sched.curThread ctx (some th)
    scheduledThreads := sched.scheduledThreads + 1 }

def schedule : Result lastCore := do
  check (sched.state th = .started ∨ sched.state th = .blocked ∨ sched.state th = .queued)
    .scheduleState
  check (sched.ctxState ctx = .idle) .contextUsed
  check (sched.curThread ctx = none) .contextUsed
  return sched.place th ctx

end

/-- The thread gives up the context. -/
def vacate (targetState : ThreadState) (sched : Scheduler lastCore) : Scheduler lastCore :=
  { sched with
    state := update sched.state th targetState
    ctxState := update sched.ctxState ctx .idle
    curThread := update sched.curThread ctx none
    scheduledThreads := sched.scheduledThreads - 1 }

def deschedule (targetState : ThreadState) (sched : Scheduler lastCore) : Result lastCore := do
  check (sched.state th = .running ∨ sched.state th = .out) .descheduleState
  check (sched.ctxState ctx = .used) .contextOwner
  check (ctx = sched.cid th) .contextOwner
  check (sched.curThread ctx = some th) .contextOwner
  check (targetState = .blocked ∨ targetState = .queued ∨ targetState = .sleeping)
    .targetState
  return sched.vacate th ctx targetState

def wakeup : Result lastCore := do
  check (sched.futexWord th = 1) .wakeupRace
  return { sched with futexWord := update sched.futexWord th 0 }

/-- A thread waits in the run queue until it is woken. -/
def waitInRunQueue : Result lastCore := do
  let queued ← sched.pushRun th
  return { queued with futexWord := update queued.futexWord th 1 }

/-! ## The scheduling policy -/

/-- The context of the mask to try first, from those that are free. -/
def freeContext : Option (Cid lastCore) :=
  if sched.ctxState (sched.cid th) = .idle ∧ sched.mask th (sched.cid th) = true then
    some (sched.cid th)
  else sched.freeList.find? (sched.mask th)

/-- The first thread that is out on a context of the mask. -/
def outThread : Option Ptr := sched.outQueue.find? fun outTh => sched.mask th (sched.cid outTh)

def schedThread : Except SchedFailure (Option (Cid lastCore) × Scheduler lastCore) :=
  match sched.freeContext th with
  | some ctx => do
      let taken ← sched.removeFree ctx
      check (taken.mask th ctx = true) .maskViolated
      return (some ctx, taken)
  | none =>
    match sched.outThread th with
    | some outTh => do
        let ctx := sched.cid outTh
        let removed ← sched.removeOut outTh
        let stolen ← removed.deschedule outTh ctx .blocked
        check (stolen.mask th ctx = true) .maskViolated
        return (some ctx, stolen)
    | none => return (none, sched)

def schedContext (sched : Scheduler lastCore) :
    Except SchedFailure (Option Ptr × Scheduler lastCore) :=
  match sched.runQueue.find? (fun th => sched.mask th ctx) with
  | some th => do
      let removed ← sched.removeRun th
      return (some th, removed)
  | none => return (none, sched)

/-- The order in which `schedTick` tries the contexts. -/
def shuffled (draws : Draws) : Nat → List (Cid lastCore) → List (Cid lastCore)
  | 0, avail => avail
  | i + 1, avail =>
    match avail[i + 1]?, avail[(draws (i + 1)).val]? with
    | some last, some drawn =>
      shuffled draws i ((avail.set (i + 1) drawn).set (draws (i + 1)) last)
    | _, _ => avail

/-- The loop of `schedTick` over the threads of the run queue. -/
def schedTickLoop : List Ptr → List (Cid lastCore) → Scheduler lastCore → Result lastCore
  | [], _, sched => pure sched
  | th :: rest, avail, sched =>
    match avail.find? (sched.mask th) with
    | none => schedTickLoop rest avail sched
    | some ctx =>
      match sched.curThread ctx with
      | none => .error .noVictim
      | some victimTh => do
          let removed ← removeRun th { sched with
            handoffThread := update sched.handoffThread victimTh (some th) }
          schedTickLoop rest (avail.erase ctx) removed

def schedTick (draws : Draws) (sched : Scheduler lastCore) : Result lastCore :=
  schedTickLoop sched.runQueue (shuffled draws lastCore (List.finRange (lastCore + 1))) sched

/-! ## Operations -/

variable (gid : Gid)

/-- The thread of a gid; a null pointer is no thread. -/
def lookup (sched : Scheduler lastCore) : Except SchedFailure Ptr :=
  match sched.gidMap gid with
  | some th => .ok th
  | none => .error .noThread

def start (mask : Cid lastCore → Bool) (sched : Scheduler lastCore) : Result lastCore := do
  check (sched.gidMap gid = none) .gidInUse
  check (∃ ctx, mask ctx = true) .emptyMask
  let th := sched.nextPtr
  return { sched with
    alive := update sched.alive th true
    nextPtr := th + 1
    gid := update sched.gid th gid
    state := update sched.state th .started
    cid := update sched.cid th 0
    handoffThread := update sched.handoffThread th none
    futexWord := update sched.futexWord th 0
    markedForSleep := update sched.markedForSleep th false
    wakeupPhase := update sched.wakeupPhase th 0
    mask := update sched.mask th mask
    gidMap := update sched.gidMap gid (some th) }

/-- A sleeping thread becomes blocked. -/
def endSleep : Result lastCore := do
  let removed ← sched.removeSleep th
  return removed.setState th .blocked

/-- The part of `join` for a thread without a context. -/
def joinBlocked : Result lastCore := do
  check (sched.state th = .blocked ∨ sched.state th = .started) .joinState
  let (ctx, scheduled) ← sched.schedThread th
  match ctx with
  | some ctx => scheduled.schedule th ctx
  | none => (scheduled.setState th .queued).waitInRunQueue th

section

variable (sched : Scheduler lastCore)

def join : Result lastCore := do
  let th ← sched.lookup gid
  check (sched.markedForSleep th = false) .marked
  if sched.state th = .sleeping then do
    let awake ← sched.endSleep th
    awake.joinBlocked th
  else if sched.state th = .out then
    (sched.setState th .running).removeOut th
  else sched.joinBlocked th

/-- A context that was given up goes to a thread of the run queue. -/
def refill (inTh : Ptr) (ctx : Cid lastCore) (sched : Scheduler lastCore) : Result lastCore := do
  let scheduled ← sched.schedule inTh ctx
  scheduled.wakeup inTh

/-- `leave` for a thread that is marked for sleep -/
def leaveToSleep : Result lastCore := do
  let unmarked := { sched with
    markedForSleep := update sched.markedForSleep th false }
  let descheduled ← unmarked.deschedule th ctx .sleeping
  let asleep ← descheduled.pushSleep th
  let (inTh, picked) ← asleep.schedContext ctx
  match inTh with
  | some inTh => picked.refill inTh ctx
  | none => picked.pushFree ctx

/-- `leave` for a thread that is not marked for sleep -/
def leaveContext : Result lastCore := do
  let (inTh, picked) ← sched.schedContext ctx
  match inTh with
  | some inTh => do
      let descheduled ← picked.deschedule th ctx .blocked
      descheduled.refill inTh ctx
  | none => (picked.setState th .out).pushOut th

end

def leave (cid : Cid lastCore) (sched : Scheduler lastCore) : Result lastCore :=
  match sched.curThread cid with
  | none => .error .noThread
  | some th => do
      check (sched.gid th = gid) .leaveThread
      check (sched.state th = .running) .leaveState
      if sched.markedForSleep th = true then sched.leaveToSleep th cid
      else sched.leaveContext th cid

/-- A thread in `sync` transfers its context to the target of its handoff. -/
def transfer (th dst : Ptr) (sched : Scheduler lastCore) : Result lastCore := do
  let ctx := sched.cid th
  let descheduled ← deschedule th ctx .queued { sched with
    handoffThread := update sched.handoffThread th none }
  descheduled.refill dst ctx

/-- A thread that gave up its context looks for another one. -/
def reschedule : Result lastCore := do
  let (ctx, picked) ← sched.schedThread th
  match ctx with
  | some ctx => picked.schedule th ctx
  | none => picked.waitInRunQueue th

/-- What `sync` does when the thread returns from the barrier. -/
def handoff : Result lastCore :=
  match sched.handoffThread th with
  | none => do
      check (sched.state th = .running) .syncState
      return sched
  | some dst => do
      check (sched.alive dst = true) .useAfterFree
      let transferred ← sched.transfer th dst
      transferred.reschedule th

/-- The loop of `callback` that wakes the threads at the front of the sleep
queue. -/
def wakeSleepers : List Ptr → Scheduler lastCore → Result lastCore
  | [], sched => pure sched
  | th :: rest, sched =>
    if sched.wakeupPhase th ≤ sched.curPhase then do
      check (sched.wakeupPhase th = sched.curPhase) .wakeupPhase
      let woken ← (sched.setState th .blocked).wakeup th
      let popped ← woken.removeSleep th
      wakeSleepers rest popped
    else pure sched

def callback (schedQuantum : Nat) (draws : Draws) (sched : Scheduler lastCore) :
    Result lastCore := do
  check (sched.scheduledThreads ≤ lastCore + 1) .occupancy
  let woken ← wakeSleepers sched.sleepQueue { sched with curPhase := sched.curPhase + 1 }
  if woken.runQueue = [] then return woken
  else if woken.curPhase % schedQuantum = 0 then woken.schedTick draws
  else return woken

def markForSleep (wakeupPhase : Nat) (sched : Scheduler lastCore) : Result lastCore := do
  let th ← sched.lookup gid
  check (sched.markedForSleep th = false) .marked
  return { sched with
    markedForSleep := update sched.markedForSleep th true
    wakeupPhase := update sched.wakeupPhase th wakeupPhase
    futexWord := update sched.futexWord th 1 }

def notifySleepEnd (sched : Scheduler lastCore) : Result lastCore := do
  let th ← sched.lookup gid
  check (sched.markedForSleep th = false) .marked
  check (sched.state th = .sleeping ∨ sched.state th = .blocked)
    .sleepEndState
  if sched.state th = .blocked then return sched else sched.endSleep th

/-- `finish` takes the thread out of the list that owns it. -/
def unlink : Result lastCore :=
  if sched.state th = .queued then do
    check (sched.owner th = some .run) .finishOwner
    sched.removeRun th
  else if sched.owner th = none then pure sched
  else do
    check (sched.owner th = some .out) .finishOwner
    let removed ← sched.removeOut th
    let descheduled ← removed.deschedule th (removed.cid th) .blocked
    descheduled.pushFree (descheduled.cid th)

/-- The last section of `finish`, which deletes the thread. -/
def finishEnd : Result lastCore := do
  check (sched.state th = .started ∨ sched.state th = .out ∨
      sched.state th = .blocked ∨ sched.state th = .queued)
    .finishState
  let unlinked ← sched.unlink th
  return { unlinked with alive := update unlinked.alive th false }

/-- The first section of `finish`, up to the point where it releases the lock in
order to leave, if the thread is running. -/
def finish (sched : Scheduler lastCore) : Result lastCore := do
  let th ← sched.lookup gid
  let erased := { sched with gidMap := update sched.gidMap gid none }
  if sched.state th = .running then return erased else erased.finishEnd th

end Scheduler

open Library.Counting List

namespace Scheduler

variable {lastCore : Nat} {sched : Scheduler lastCore}
variable {lost : Set Ptr}

attribute [local simp] Scheduler.setState Scheduler.place Scheduler.vacate

/-! ## Parts of the invariant -/

section

variable (hole : Option (Cid lastCore)) (sched : Scheduler lastCore)

/-- A thread has a context exactly if it is running or out. -/
structure Placement : Prop where
  placed : ∀ th, sched.alive th = true → ((sched.state th = .running ∨ sched.state th = .out) ↔
      sched.curThread (sched.cid th) = some th)
  occupant : ∀ ctx th, sched.curThread ctx = some th → sched.alive th = true ∧ sched.cid th = ctx
  idle : ∀ ctx, sched.ctxState ctx = .idle ↔ sched.curThread ctx = none
  vacant : ∀ ctx, sched.curThread ctx = none ↔ ctx ∈ sched.freeList ∨ hole = some ctx
  free_nodup : sched.freeList.Nodup
  hole_free : ∀ ctx, hole = some ctx → ctx ∉ sched.freeList
  counted : sched.scheduledThreads = population sched.ctxState .used

/-- The queues own the threads of their states. -/
structure Queues : Prop where
  out : ∀ th, th ∈ sched.outQueue ↔ sched.alive th = true ∧ sched.state th = .out
  sleeping : ∀ th, th ∈ sched.sleepQueue ↔ sched.alive th = true ∧ sched.state th = .sleeping
  queued : ∀ th ∈ sched.runQueue, sched.alive th = true ∧ sched.state th = .queued
  out_nodup : sched.outQueue.Nodup
  sleep_nodup : sched.sleepQueue.Nodup
  run_nodup : sched.runQueue.Nodup
  ordered : sched.sleepQueue.Pairwise fun first second =>
    sched.wakeupPhase first ≤ sched.wakeupPhase second

/-- Every context in the mask of a thread in the run queue has a running
thread. -/
def Conserving : Prop := ∀ th ∈ sched.runQueue, ∀ ctx, sched.mask th ctx = true → hole ≠ some ctx →
      ∃ other, sched.curThread ctx = some other ∧ sched.state other = .running

/-- Threads that wait are armed, only running threads are marked for sleep, and
sleeping threads wake up in the phase `phase` or later. -/
structure Waits (phase : Nat) (sched : Scheduler lastCore) : Prop where
  queued : ∀ th ∈ sched.runQueue, sched.futexWord th = 1
  sleeping : ∀ th, sched.alive th = true → sched.state th = .sleeping →
    sched.futexWord th = 1 ∧ phase ≤ sched.wakeupPhase th
  marked : ∀ th, sched.alive th = true → sched.markedForSleep th = true →
    sched.state th = .running ∧ sched.futexWord th = 1

/-- The target of a handoff is queued, and in no queue. -/
structure Handoffs : Prop where
  target : ∀ th dst, sched.alive th = true → sched.handoffThread th = some dst →
      sched.alive dst = true ∧ sched.state dst = .queued ∧
        dst ∉ sched.runQueue ∧ sched.futexWord dst = 1
  unique : ∀ th other dst, sched.alive th = true →
    sched.alive other = true → sched.handoffThread th = some dst →
      sched.handoffThread other = some dst → th = other

/-- The threads of the map are allocated. -/
structure Gids : Prop where
  named : ∀ gid th, sched.gidMap gid = some th → sched.alive th = true ∧ sched.gid th = gid
  allocated : ∀ th, sched.alive th = true → th < sched.nextPtr

/-- A queued thread is in the run queue, the target of a handoff, or lost. -/
def Covered (lost : Set Ptr) (sched : Scheduler lastCore) : Prop :=
  ∀ th, sched.alive th = true → sched.state th = .queued → th ∈ sched.runQueue ∨
      (∃ other, sched.alive other = true ∧ sched.handoffThread other = some th) ∨
      th ∈ lost

structure Inv (lost : Set Ptr) (phase : Nat) (sched : Scheduler lastCore) : Prop where
  placement : Placement hole sched
  queues : Queues sched
  conserving : Conserving hole sched
  waits : Waits phase sched
  handoffs : Handoffs sched
  covered : Covered lost sched
  gids : Gids sched

end

/-! ## Placing threads -/

theorem Placement.setState (placement : Placement hole sched) (th : Ptr) (state : ThreadState)
    (same : (state = .running ∨ state = .out) ↔
      (sched.state th = .running ∨ sched.state th = .out)) :
    Placement hole (sched.setState th state) := by
  refine { placement with placed := fun other alive => ?_ }
  refine Iff.trans ?_ (placement.placed other alive)
  by_cases eq : other = th
  · simpa [eq] using same
  · simp [eq]

variable {th : Ptr} {ctx : Cid lastCore}

theorem Placement.place (placement : Placement (some ctx) sched) (alive : sched.alive th = true)
    (absent : sched.state th ≠ .running ∧ sched.state th ≠ .out) :
    Placement none (sched.place th ctx) := by
  have vacant : sched.curThread ctx = none := (placement.vacant ctx).mpr (.inr rfl)
  have notPlaced : ∀ other, sched.curThread other ≠ some th := by
    intro other found
    have place := placement.occupant other th found
    have here := (placement.placed th alive).mpr (place.2 ▸ found)
    simp [absent] at here
  refine {
    placed := fun other alive' => ?_
    occupant := fun other thread found => ?_
    idle := fun other => ?_
    vacant := fun other => ?_
    free_nodup := placement.free_nodup
    hole_free := by simp
    counted := ?_ }
  · by_cases eq : other = th
    · simp [eq]
    have before := placement.placed other alive'
    by_cases here : sched.cid other = ctx
    · rw [here, vacant] at before
      simpa [eq, here, Ne.symm eq] using before
    · simpa [eq, here] using before
  · by_cases here : other = ctx
    · subst here
      simp only [Scheduler.place, update_self, Option.some.injEq] at found
      subst found
      simpa using alive
    simp only [Scheduler.place, update_of_ne here] at found
    have before := placement.occupant other thread found
    have eq : thread ≠ th := by
      rintro rfl
      exact notPlaced other found
    simpa [eq] using before
  · by_cases here : other = ctx
    · simp [here]
    · simpa [here] using placement.idle other
  · by_cases here : other = ctx
    · simpa [here] using placement.hole_free ctx rfl
    · simpa [here, Ne.symm here] using placement.vacant other
  · have idle := (placement.idle ctx).mpr vacant
    simp only [Scheduler.place, placement.counted]
    exact (population_update_new (by simp [idle])).symm

theorem Placement.vacate (placement : Placement none sched)
    (target : ThreadState) (alive : sched.alive th = true)
    (present : sched.state th = .running ∨ sched.state th = .out)
    (absent : target ≠ .running ∧ target ≠ .out) :
    Placement (some (sched.cid th)) (sched.vacate th (sched.cid th) target) := by
  have found := (placement.placed th alive).mp present
  have used : sched.ctxState (sched.cid th) = .used := by
    cases state : sched.ctxState (sched.cid th) with
    | used => rfl
    | idle => simp [(placement.idle _).mp state] at found
  have notFree : sched.cid th ∉ sched.freeList := by
    intro free
    simp [(placement.vacant _).mpr (.inl free)] at found
  refine {
    placed := fun other alive' => ?_
    occupant := fun ctx thread foundThread => ?_
    idle := fun ctx => ?_
    vacant := fun ctx => ?_
    free_nodup := placement.free_nodup
    hole_free := ?_
    counted := ?_ }
  · by_cases eq : other = th
    · simp [eq, absent]
    have before := placement.placed other alive'
    by_cases here : sched.cid other = sched.cid th
    · rw [here, found] at before
      simpa [eq, here, Ne.symm eq] using before
    · simpa [eq, here] using before
  · by_cases here : ctx = sched.cid th
    · simp [here] at foundThread
    · simp only [Scheduler.vacate, update_of_ne here] at foundThread
      exact placement.occupant ctx thread foundThread
  · by_cases here : ctx = sched.cid th
    · simp [here]
    · simpa [here] using placement.idle ctx
  · by_cases here : ctx = sched.cid th
    · simp [here]
    · simpa [here, Ne.symm here] using placement.vacant ctx
  · rintro ctx same
    rwa [← Option.some.inj same]
  · simp only [Scheduler.vacate, placement.counted]
    exact (population_update_old used (by simp)).symm

theorem Placement.takeFree (placement : Placement none sched) (free : ctx ∈ sched.freeList) :
    Placement (some ctx) { sched with freeList := sched.freeList.erase ctx } := by
  refine { placement with
    vacant := fun other => ?_
    free_nodup := placement.free_nodup.erase ctx
    hole_free := ?_ }
  · rw [placement.vacant other]
    by_cases here : other = ctx
    · simp [here, free]
    · simp [here, Ne.symm here]
  · rintro other same
    rw [← Option.some.inj same]
    exact placement.free_nodup.not_mem_erase

theorem Placement.giveFree (placement : Placement (some ctx) sched) :
    Placement none { sched with freeList := sched.freeList ++ [ctx] } := by
  have fresh := placement.hole_free ctx rfl
  refine { placement with
    vacant := fun other => ?_
    free_nodup := ?_
    hole_free := by simp }
  · rw [placement.vacant other]
    simp [eq_comm]
  · simpa [nodup_append] using ⟨placement.free_nodup, fun other mem same => fresh (same ▸ mem)⟩

/-! ## Queues -/

section

variable (queues : Queues sched)
include queues

theorem Queues.notMem_run (th : Ptr) (moved : sched.state th ≠ .queued) : th ∉ sched.runQueue :=
  fun mem => moved (queues.queued th mem).2

theorem Queues.queued_setState (moved : sched.state th ≠ .queued) (state : ThreadState) :
    ∀ other ∈ sched.runQueue, sched.alive other = true ∧
      (sched.setState th state).state other = .queued := by
  intro other mem
  have eq : other ≠ th := by
    rintro rfl
    exact queues.notMem_run _ moved mem
  simpa [eq] using queues.queued other mem

theorem Queues.setState (th : Ptr) (state : ThreadState)
    (before : sched.state th ≠ .out ∧ sched.state th ≠ .sleeping)
    (after : state ≠ .out ∧ state ≠ .sleeping) (unqueued : th ∉ sched.runQueue) :
    Queues (sched.setState th state) := by
  refine { queues with
    out := fun other => (queues.out other).trans ?_
    sleeping := fun other => (queues.sleeping other).trans ?_
    queued := fun other mem => ?_ }
  · by_cases eq : other = th <;> simp [eq, before, after]
  · by_cases eq : other = th <;> simp [eq, before, after]
  · have eq : other ≠ th := fun eq => unqueued (eq ▸ mem)
    simpa [eq] using queues.queued other mem

/-- A running or queued thread goes out. -/
theorem Queues.goOut (alive : sched.alive th = true) (running : sched.state th = .running) :
    Queues { sched.setState th .out with
      outQueue := sched.outQueue ++ [th] } := by
  have outside : th ∉ sched.outQueue := by simp [queues.out, running]
  refine { queues with
    out := fun other => ?_
    sleeping := fun other => (queues.sleeping other).trans ?_
    queued := queues.queued_setState (by simp [running]) _
    out_nodup := ?_ }
  · by_cases eq : other = th
    · simp [eq, alive]
    · simpa [eq] using queues.out other
  · by_cases eq : other = th <;> simp [eq, running]
  · simpa [nodup_append] using ⟨queues.out_nodup, fun other mem same => outside (same ▸ mem)⟩

theorem Queues.leaveOut (state : ThreadState) (out : sched.state th = .out)
    (after : state ≠ .out ∧ state ≠ .sleeping) :
    Queues { sched.setState th state with
      outQueue := sched.outQueue.erase th } := by
  refine { queues with
    out := fun other => ?_
    sleeping := fun other => (queues.sleeping other).trans ?_
    queued := queues.queued_setState (by simp [out]) _
    out_nodup := queues.out_nodup.erase th }
  · rw [queues.out_nodup.mem_erase_iff, queues.out]
    by_cases eq : other = th <;> simp [eq, after]
  · by_cases eq : other = th <;> simp [eq, out, after]

theorem Queues.leaveSleep (sleeping : sched.state th = .sleeping) :
    Queues { sched.setState th .blocked with
      sleepQueue := sched.sleepQueue.erase th } := by
  refine { queues with
    out := fun other => (queues.out other).trans ?_
    sleeping := fun other => ?_
    queued := queues.queued_setState (by simp [sleeping]) _
    sleep_nodup := queues.sleep_nodup.erase th
    ordered := queues.ordered.sublist erase_sublist }
  · by_cases eq : other = th <;> simp [eq, sleeping]
  · rw [queues.sleep_nodup.mem_erase_iff, queues.sleeping]
    by_cases eq : other = th <;> simp [eq]

omit queues in
theorem sleepInsert_perm (wakeupPhase : Ptr → Nat) (th : Ptr) (queue : List Ptr) :
    (sleepInsert wakeupPhase th queue).Perm (th :: queue) := by
  induction queue with
  | nil => exact List.Perm.refl _
  | cons cur rest ih =>
    rw [sleepInsert]
    split
    · exact List.Perm.refl _
    · exact (ih.cons cur).trans (List.Perm.swap th cur rest)

omit queues in
theorem sleepInsert_ordered {wakeupPhase : Ptr → Nat} (th : Ptr) {queue : List Ptr}
    (ordered : queue.Pairwise fun first second =>
      wakeupPhase first ≤ wakeupPhase second) :
    (sleepInsert wakeupPhase th queue).Pairwise fun first second =>
      wakeupPhase first ≤ wakeupPhase second := by
  induction queue with
  | nil => simp [sleepInsert]
  | cons cur rest ih =>
    rw [pairwise_cons] at ordered
    rw [sleepInsert]
    split
    case isTrue earlier =>
      exact pairwise_cons.mpr ⟨forall_mem_cons.mpr ⟨earlier.le,
        fun other behind => earlier.le.trans (ordered.1 other behind)⟩, pairwise_cons.mpr ordered⟩
    case isFalse later =>
      refine pairwise_cons.mpr ⟨fun other mem => ?_, ih ordered.2⟩
      rcases mem_cons.mp ((sleepInsert_perm _ _ _).mem_iff.mp mem) with rfl | behind
      · exact Nat.le_of_not_lt later
      · exact ordered.1 other behind

theorem Queues.goSleep (alive : sched.alive th = true) (running : sched.state th = .running) :
    Queues { sched.setState th .sleeping with
      sleepQueue := sleepInsert sched.wakeupPhase th sched.sleepQueue } := by
  have outside : th ∉ sched.sleepQueue := by simp [queues.sleeping, running]
  refine { queues with
    out := fun other => (queues.out other).trans ?_
    sleeping := fun other => ?_
    queued := queues.queued_setState (by simp [running]) _
    sleep_nodup := ?_
    ordered := sleepInsert_ordered th queues.ordered }
  · by_cases eq : other = th <;> simp [eq, running]
  · rw [(sleepInsert_perm _ _ _).mem_iff]
    by_cases eq : other = th
    · simp [eq, alive]
    · simpa [eq] using queues.sleeping other
  · exact (sleepInsert_perm _ _ _).symm.nodup (nodup_cons.mpr ⟨outside, queues.sleep_nodup⟩)

theorem Queues.enqueue (alive : sched.alive th = true)
    (queued : sched.state th = .queued) (outside : th ∉ sched.runQueue) :
    Queues { sched with runQueue := sched.runQueue ++ [th] } := by
  refine { queues with
    queued := forall_mem_append.mpr ⟨queues.queued, forall_mem_singleton.mpr ⟨alive, queued⟩⟩
    run_nodup := ?_ }
  · simpa [nodup_append] using ⟨queues.run_nodup, fun other mem same => outside (same ▸ mem)⟩

theorem Queues.dequeue (th : Ptr) : Queues { sched with runQueue := sched.runQueue.erase th } :=
  { queues with
    queued := fun other mem =>
      queues.queued other (mem_of_mem_erase mem)
    run_nodup := queues.run_nodup.erase th }

end

/-! ## Waiting and handing off -/

/-- The thread is not the target of a pending handoff. -/
def Unclaimed (th : Ptr) (sched : Scheduler lastCore) : Prop :=
  ∀ other, sched.alive other = true → sched.handoffThread other ≠ some th

theorem Handoffs.unclaimed (handoffs : Handoffs sched) (th : Ptr)
    (moved : sched.state th ≠ .queued ∨ th ∈ sched.runQueue) :
    sched.Unclaimed th := by
  intro other alive pending
  have target := handoffs.target other th alive pending
  rcases moved with moved | mem
  · exact moved target.2.1
  · exact target.2.2.1 mem

theorem Waits.setState {phase : Nat} (waits : Waits phase sched) (th : Ptr)
    (state : ThreadState) (awake : state ≠ .sleeping)
    (marked : sched.markedForSleep th = true → state = .running) :
    Waits phase (sched.setState th state) := by
  refine { waits with
    sleeping := fun other alive => ?_
    marked := fun other alive isMarked => ?_ }
  · by_cases eq : other = th
    · simp [eq, awake]
    · simpa [eq] using waits.sleeping other alive
  · by_cases eq : other = th
    · subst eq
      refine ⟨by simpa using marked isMarked, ?_⟩
      exact (waits.marked other alive isMarked).2
    · simpa [eq] using waits.marked other alive isMarked

theorem Handoffs.setState (handoffs : Handoffs sched) (state : ThreadState)
    (unclaimed : sched.Unclaimed th) :
    Handoffs (sched.setState th state) := by
  refine { handoffs with target := fun other dst alive pending => ?_ }
  have eq : dst ≠ th := by
    rintro rfl
    exact unclaimed other alive pending
  simpa [eq] using handoffs.target other dst alive pending

theorem Covered.mono {more : Set Ptr} (covered : Covered lost sched) (subset : lost ⊆ more) :
    Covered more sched := fun th alive queued =>
  (covered th alive queued).imp_right (Or.imp_right fun mem =>
    subset mem)

theorem Covered.setState (covered : Covered lost sched) (th : Ptr)
    (state : ThreadState) (accounted : state = .queued → th ∈ lost) :
    Covered lost (sched.setState th state) := by
  intro other alive queued
  by_cases eq : other = th
  · subst eq
    exact .inr (.inr (accounted (by
      simpa using queued)))
  · exact covered other alive (by simpa [eq] using queued)

/-- A thread in hand that is not queued any more is not lost. -/
theorem Covered.release (covered : Covered (insert th lost) sched)
    (moved : sched.state th ≠ .queued) :
    Covered lost sched := by
  intro other alive queued
  have eq : other ≠ th := fun eq => moved (eq ▸ queued)
  exact (covered other alive queued).imp_right
    (Or.imp_right fun mem => (Set.mem_insert_iff.mp mem).resolve_left eq)

end Scheduler

end Damov.Scheduling
