import Damov.Library.Checked
import Damov.Library.Counting
import Damov.Library.ListMoves

/-!
# The phase barrier

The barrier runs at most `parallelThreads` threads at a time and ends a phase
when every thread of the run list had its turn. A thread is offline, waiting
for its turn, running, or it left in the middle of a phase. Each operation is
atomic under the lock of the scheduler, and the part of `join` and `sync` that
blocks on the futex comes after the lock is released, so it is not a step of the
barrier.

The fields of `threadList` are one function each. The run list is the list of
its first `runListSize` entries. The barrier also records the events that its
specification talks about; no operation reads them.

All that `tryWakeNext` does is a sequence of moves, and every move keeps the
invariant: the run list and the counters agree with the states of the threads, and
a waiting thread that the phase has passed had its turn.
-/

namespace Damov.Scheduling

open Library.Checked Library.Counting Function

inductive Barrier.State where
  | offline
  | waiting
  | running
  | left
  deriving DecidableEq, Repr

/-- What stops the barrier: its assertions, its panic, and a read of an entry
beyond the end of the run list. -/
inductive BarrierFailure where
  | joinState
  | leaveState
  | syncState
  | rejoinIndex
  | emptyRunList
  | cleanupCount
  | wakeupRace
  | outOfRange
  deriving DecidableEq, Repr

/-- What happens to the threads; a callback shows the states it runs in. -/
inductive BarrierEvent (maxThreads : Nat) where
  | joined (tid : Fin maxThreads)
  | woke (tid : Fin maxThreads)
  | callback (states : Fin maxThreads → Barrier.State)

structure Barrier (maxThreads : Nat) where
  state : Fin maxThreads → Barrier.State
  futexWord : Fin maxThreads → Nat
  lastIdx : Fin maxThreads → Nat
  runList : List (Fin maxThreads)
  curThreadIdx : Nat
  runningThreads : Nat
  leftThreads : Nat
  phaseCount : Nat
  events : List (BarrierEvent maxThreads)

/-- The draws of one shuffle: `randInt(i)` is one of `0, …, i`. -/
def Draws : Type := (i : Nat) → Fin (i + 1)

namespace Barrier

variable {maxThreads : Nat}

/-- The constructor leaves the `lastIdx` fields as it finds them. -/
def initial (lastIdx : Fin maxThreads → Nat) : Barrier maxThreads where
  state := fun _ => .offline
  futexWord := fun _ => 0
  lastIdx := lastIdx
  runList := []
  curThreadIdx := 0
  runningThreads := 0
  leftThreads := 0
  phaseCount := 0
  events := []

/-- `runList[idx]` -/
def runThread (idx : Nat) (bar : Barrier maxThreads) : Except BarrierFailure (Fin maxThreads) :=
  match bar.runList[idx]? with
  | some tid => .ok tid
  | none => .error .outOfRange

/-! ## Waking threads -/

variable (bar : Barrier maxThreads)

/-- The outcome of an operation of the barrier. -/
abbrev Result (maxThreads : Nat) := Except BarrierFailure (Barrier maxThreads)

/-- The body of the loop in `checkRunList`. -/
def wakeNext : Result maxThreads := do
  let idx := bar.curThreadIdx
  let wtid ← bar.runThread idx
  if bar.state wtid = .waiting then do
    check (bar.futexWord wtid = 1) .wakeupRace
    return { bar with
      curThreadIdx := idx + 1
      state := update bar.state wtid .running
      lastIdx := update bar.lastIdx wtid idx
      futexWord := update bar.futexWord wtid 0
      runningThreads := bar.runningThreads + 1
      events := .woke wtid :: bar.events }
  else return { bar with curThreadIdx := idx + 1 }

/-- The loop of `checkRunList`; every iteration advances `curThreadIdx`. -/
def checkRunListLoop (parallelThreads : Nat) : Nat → Barrier maxThreads → Result maxThreads
  | 0, bar => pure bar
  | fuel + 1, bar =>
    if bar.runningThreads < parallelThreads ∧ bar.curThreadIdx < bar.runList.length then do
      let next ← bar.wakeNext
      checkRunListLoop parallelThreads fuel next
    else pure bar

variable (parallelThreads : Nat)

def checkRunList (bar : Barrier maxThreads) : Result maxThreads :=
  checkRunListLoop parallelThreads (bar.runList.length - bar.curThreadIdx) bar

/-! ## The end of a phase -/

/-- The pass that takes the threads that left off the run list; `newSize` is the
length of the list so far. -/
def cleanupLoop : Nat → Nat → Nat → Barrier maxThreads →
      Except BarrierFailure (Nat × Barrier maxThreads)
  | 0, _, newSize, bar => pure (newSize, bar)
  | fuel + 1, idx, newSize, bar =>
    if idx < newSize then do
      let wtid ← bar.runThread idx
      if bar.state wtid = .left then do
        let stid ← bar.runThread (newSize - 1)
        cleanupLoop fuel idx (newSize - 1) { bar with
          state := update bar.state wtid .offline
          runList := bar.runList.set idx stid
          lastIdx := update bar.lastIdx stid idx }
      else cleanupLoop fuel (idx + 1) newSize bar
    else pure (newSize, bar)

def cleanup : Result maxThreads := do
  check (0 < bar.runList.length) .emptyRunList
  let (newSize, cleaned) ← cleanupLoop bar.runList.length 0 bar.runList.length bar
  check (cleaned.runList.length - newSize = cleaned.leftThreads) .cleanupCount
  return { cleaned with
    leftThreads := 0
    runList := cleaned.runList.take newSize }

/-- Exchange two entries of the run list and record where they went. -/
def exchange (i j : Nat) (bar : Barrier maxThreads) : Result maxThreads := do
  let itid ← bar.runThread i
  let jtid ← bar.runThread j
  return { bar with
    runList := (bar.runList.set i jtid).set j itid
    lastIdx := update (update bar.lastIdx itid j) jtid i }

/-- The Fisher-Yates shuffle, from entry `i` down to entry `1`. -/
def shuffle (draws : Draws) : Nat → Barrier maxThreads → Result maxThreads
  | 0, bar => pure bar
  | i + 1, bar => do
      let exchanged ← bar.exchange (i + 1) (draws (i + 1))
      shuffle draws i exchanged

/-- The cleanup pass comes once in 32 phases. -/
def countPhase : Result maxThreads :=
  let counted := { bar with phaseCount := bar.phaseCount + 1 }
  if bar.phaseCount % 32 = 0 then counted.cleanup else pure counted

variable (draws : Draws)

def checkEndPhase (bar : Barrier maxThreads) : Result maxThreads :=
  if bar.curThreadIdx = bar.runList.length ∧ bar.runningThreads = 0 then
    if bar.leftThreads = bar.runList.length then pure bar
    else do
      -- `sched->callback()` and the rewinding of the list
      let cleaned ← countPhase { bar with
        events := .callback bar.state :: bar.events
        curThreadIdx := 0 }
      if parallelThreads < cleaned.runList.length then
        cleaned.shuffle draws (cleaned.runList.length - 1)
      else pure cleaned
  else pure bar

def tryWakeNext (bar : Barrier maxThreads) : Result maxThreads := do
  let woken ← bar.checkRunList parallelThreads
  let ended ← woken.checkEndPhase parallelThreads draws
  ended.checkRunList parallelThreads

/-! ## Operations -/

variable (tid : Fin maxThreads)

section

variable (bar : Barrier maxThreads)

/-- The place of a joining thread in the run list. -/
def enlist : Result maxThreads :=
  if bar.state tid = .offline then
    pure { bar with runList := bar.runList ++ [tid] }
  else
    let lastIdx := bar.lastIdx tid
    if lastIdx < bar.curThreadIdx then do
      let curThreadIdx := bar.curThreadIdx - 1
      check (bar.runList[lastIdx]? = some tid) .rejoinIndex
      exchange curThreadIdx lastIdx { bar with
        leftThreads := bar.leftThreads - 1
        curThreadIdx := curThreadIdx }
    else pure { bar with leftThreads := bar.leftThreads - 1 }

def join : Result maxThreads := do
  check (bar.state tid = .left ∨ bar.state tid = .offline) .joinState
  let enlisted ← bar.enlist tid
  tryWakeNext parallelThreads draws { enlisted with
    state := update enlisted.state tid .waiting
    futexWord := update enlisted.futexWord tid 1
    events := .joined tid :: enlisted.events }

def leave : Result maxThreads :=
  if bar.state tid = .running then
    tryWakeNext parallelThreads draws { bar with
      state := update bar.state tid .left
      leftThreads := bar.leftThreads + 1
      runningThreads := bar.runningThreads - 1 }
  else do
    check (bar.state tid = .waiting) .leaveState
    return { bar with
      state := update bar.state tid .left
      leftThreads := bar.leftThreads + 1 }

def sync : Result maxThreads := do
  check (bar.state tid = .running) .syncState
  tryWakeNext parallelThreads draws { bar with
    futexWord := update bar.futexWord tid 1
    state := update bar.state tid .waiting
    runningThreads := bar.runningThreads - 1 }

/-! ## Runs -/

/-- An operation of a thread, with the draws of the shuffle it may cause. -/
inductive Op (maxThreads : Nat) where
  | join (tid : Fin maxThreads) (draws : Draws)
  | leave (tid : Fin maxThreads) (draws : Draws)
  | sync (tid : Fin maxThreads) (draws : Draws)

def step : Op maxThreads → Result maxThreads
  | .join tid draws => bar.join parallelThreads draws tid
  | .leave tid draws => bar.leave parallelThreads draws tid
  | .sync tid draws => bar.sync parallelThreads draws tid

end

def run (lastIdx : Fin maxThreads → Nat) (ops : List (Op maxThreads)) : Result maxThreads :=
  ops.foldlM (step parallelThreads) (initial lastIdx)

/-- The preconditions that the operations assert. -/
def Allowed : Op maxThreads → Prop
  | .join tid _ =>
    bar.state tid = .left ∨ bar.state tid = .offline
  | .leave tid _ =>
    bar.state tid = .running ∨ bar.state tid = .waiting
  | .sync tid _ => bar.state tid = .running

instance (bar : Barrier maxThreads) : DecidablePred bar.Allowed
  | .join tid _ =>
    inferInstanceAs (Decidable (bar.state tid = .left ∨ bar.state tid = .offline))
  | .leave tid _ =>
    inferInstanceAs (Decidable (bar.state tid = .running ∨ bar.state tid = .waiting))
  | .sync tid _ => inferInstanceAs (Decidable (bar.state tid = .running))

/-! ## What the barrier is for -/

/-- The number of threads in a state. -/
def numIn (state : Barrier.State) : Nat := population bar.state state

/-- The thread was running since the last callback and since it last joined. -/
def RanSince (tid : Fin maxThreads) : List (BarrierEvent maxThreads) → Prop
  | [] => False
  | .woke other :: earlier => other = tid ∨ RanSince tid earlier
  | .joined other :: earlier => other ≠ tid ∧ RanSince tid earlier
  | .callback _ :: _ => False

/-- No thread was running at a callback, and every waiting one had its turn. -/
def PhasesComplete : List (BarrierEvent maxThreads) → Prop
  | [] => True
  | .callback states :: earlier =>
    (∀ tid, states tid ≠ .running) ∧ (∀ tid, states tid = .waiting → RanSince tid earlier) ∧
      PhasesComplete earlier
  | _ :: earlier => PhasesComplete earlier

structure Correct (bar : Barrier maxThreads) : Prop where
  nodup : bar.runList.Nodup
  listed : ∀ tid, tid ∈ bar.runList ↔ bar.state tid ≠ .offline
  running : bar.runningThreads = bar.numIn .running
  bounded : bar.runningThreads ≤ parallelThreads
  left : bar.leftThreads = bar.numIn .left
  phases : PhasesComplete bar.events

/-- The entries of the run list that the current phase has passed. -/
def passed : List (Fin maxThreads) := bar.runList.take bar.curThreadIdx

/-- A thread that leaves while it waits has its place in the run list recorded. -/
def Settled : Op maxThreads → Prop
  | .leave tid _ =>
    bar.state tid = .waiting → bar.runList[bar.lastIdx tid]? = some tid
  | _ => True

instance (bar : Barrier maxThreads) : DecidablePred bar.Settled
  | .leave .. => inferInstanceAs (Decidable (_ → _))
  | .join .. | .sync .. => inferInstanceAs (Decidable True)

end Barrier

open Library.ListMoves List

namespace Barrier

variable {maxThreads parallelThreads : Nat} {bar next : Barrier maxThreads}

/-! ## The invariant -/

structure Steady (parallelThreads : Nat) (bar : Barrier maxThreads) : Prop
    extends Correct parallelThreads bar where
  cur_le : bar.curThreadIdx ≤ bar.runList.length
  armed : ∀ tid, bar.state tid = .waiting → bar.futexWord tid = 1
  ran : ∀ tid, bar.state tid = .running → RanSince tid bar.events
  served : ∀ tid ∈ bar.passed, bar.state tid = .waiting → RanSince tid bar.events

theorem steady_initial (parallelThreads : Nat) (lastIdx : Fin maxThreads → Nat) :
    Steady parallelThreads (initial lastIdx) where
  nodup := nodup_nil
  listed := by simp [initial]
  running := (population_eq_zero.mpr (by simp [initial])).symm
  bounded := Nat.zero_le _
  left := (population_eq_zero.mpr (by simp [initial])).symm
  phases := trivial
  cur_le := le_refl _
  armed := by simp [initial]
  ran := by simp [initial]
  served := by simp [initial]

variable {tid : Fin maxThreads} {idx newSize : Nat}

section

variable (steady : Steady parallelThreads bar)
include steady

/-- A thread is on the run list if it is not offline. -/
theorem Steady.mem_runList {state : Barrier.State}
    (found : bar.state tid = state) (online : state ≠ .offline) :
    tid ∈ bar.runList :=
  (steady.listed tid).mpr (found ▸ online)

theorem Steady.none_running (idle : bar.runningThreads = 0) (tid : Fin maxThreads) :
    bar.state tid ≠ .running :=
  population_eq_zero.mp (steady.running.symm.trans idle) tid

/--
The invariant is kept when one thread of the run list changes its state, if the
counters follow, a waiting thread is armed, and a thread that runs, or that waits
although the phase has passed it, had its turn.
-/
theorem Steady.change {state : Barrier.State} {futexWord lastIdx : Fin maxThreads → Nat}
    {runningThreads leftThreads : Nat}
    {events : List (BarrierEvent maxThreads)} (mem : tid ∈ bar.runList)
    (online : state ≠ .offline) (running : runningThreads =
      population (update bar.state tid state) .running)
    (bounded : runningThreads ≤ parallelThreads)
    (left : leftThreads = population (update bar.state tid state) .left)
    (phases : PhasesComplete events) (armed : state = .waiting → futexWord tid = 1)
    (armedElsewhere : ∀ other, other ≠ tid → futexWord other = bar.futexWord other)
    (ran : state = .running → RanSince tid events)
    (served : state = .waiting → tid ∈ bar.passed → RanSince tid events)
    (ranElsewhere : ∀ other, other ≠ tid → RanSince other bar.events → RanSince other events) :
    Steady parallelThreads { bar with
      state := update bar.state tid state
      futexWord := futexWord
      lastIdx := lastIdx
      runningThreads := runningThreads
      leftThreads := leftThreads
      events := events } := by
  refine {
    nodup := steady.nodup
    listed := fun other => ?_
    running := running
    bounded := bounded
    left := left
    phases := phases
    cur_le := steady.cur_le
    armed := fun other => ?_
    ran := fun other => ?_
    served := fun other found => ?_ }
  · by_cases same : other = tid
    · simp [same, mem, online]
    · simpa [same] using steady.listed other
  · by_cases same : other = tid
    · simpa [same] using armed
    · simpa [same, armedElsewhere other same] using steady.armed other
  · by_cases same : other = tid
    · simpa [same] using ran
    · intro runs
      exact ranElsewhere other same (steady.ran other (by simpa [same] using runs))
  · by_cases same : other = tid
    · subst same
      simpa using fun waits => served waits found
    · intro waits
      exact ranElsewhere other same (steady.served other found (by simpa [same] using waits))

end

/-! ## Moves -/

inductive Move (parallelThreads : Nat) : Barrier maxThreads → Barrier maxThreads → Prop where
  | pass {bar : Barrier maxThreads} {tid : Fin maxThreads}
      (entry : bar.runList[bar.curThreadIdx]? = some tid)
      (skipped : bar.state tid ≠ .waiting) :
      Move parallelThreads bar { bar with curThreadIdx := bar.curThreadIdx + 1 }
  | wake {bar : Barrier maxThreads} {tid : Fin maxThreads}
      (entry : bar.runList[bar.curThreadIdx]? = some tid)
      (waits : bar.state tid = .waiting)
      (room : bar.runningThreads < parallelThreads) :
      Move parallelThreads bar { bar with
        curThreadIdx := bar.curThreadIdx + 1
        state := update bar.state tid .running
        lastIdx := update bar.lastIdx tid bar.curThreadIdx
        futexWord := update bar.futexWord tid 0
        runningThreads := bar.runningThreads + 1
        events := .woke tid :: bar.events }
  | callback {bar : Barrier maxThreads} (finished : bar.curThreadIdx = bar.runList.length)
      (idle : bar.runningThreads = 0) :
      Move parallelThreads bar { bar with
        events := .callback bar.state :: bar.events
        curThreadIdx := 0
        phaseCount := bar.phaseCount + 1 }
  | drop {bar : Barrier maxThreads} {idx : Nat} {wtid stid : Fin maxThreads}
      (rewound : bar.curThreadIdx = 0)
      (entry : bar.runList[idx]? = some wtid)
      (last : bar.runList[bar.runList.length - 1]? = some stid)
      (isLeft : bar.state wtid = .left) :
      Move parallelThreads bar { bar with
        state := update bar.state wtid .offline
        runList := (bar.runList.set idx stid).take (bar.runList.length - 1)
        lastIdx := update bar.lastIdx stid idx
        leftThreads := bar.leftThreads - 1 }
  | exchange {bar : Barrier maxThreads} {i j : Nat} {itid jtid : Fin maxThreads}
      (first : bar.runList[i]? = some itid)
      (second : bar.runList[j]? = some jtid)
      (side : i < bar.curThreadIdx ↔ j < bar.curThreadIdx) :
      Move parallelThreads bar { bar with
        runList := (bar.runList.set i jtid).set j itid
        lastIdx := update (update bar.lastIdx itid j) jtid i }

/-- A sequence of moves. -/
abbrev Moves (parallelThreads : Nat) : Barrier maxThreads → Barrier maxThreads → Prop :=
  Relation.ReflTransGen (Move parallelThreads)

theorem mem_passed_succ {other : Fin maxThreads} (entry : bar.runList[bar.curThreadIdx]? = some tid)
    (found : other ∈ bar.runList.take (bar.curThreadIdx + 1)) :
    other ∈ bar.passed ∨ other = tid := by
  rw [take_add_one, entry] at found
  simpa [passed] using found

section

variable (steady : Steady parallelThreads bar)
include steady

section

variable {tid : Fin maxThreads} (entry : bar.runList[bar.curThreadIdx]? = some tid)
include entry

theorem Steady.pass (skipped : bar.state tid ≠ .waiting) : Steady parallelThreads
      { bar with curThreadIdx := bar.curThreadIdx + 1 } where
  toCorrect := { steady.toCorrect with }
  cur_le := lt_length_of_getElem? entry
  armed := steady.armed
  ran := steady.ran
  served := by
    intro other found waits
    rcases mem_passed_succ entry found with mem | rfl
    · exact steady.served other mem waits
    · exact absurd waits skipped

theorem Steady.wake (waits : bar.state tid = .waiting)
    (room : bar.runningThreads < parallelThreads) :
    Steady parallelThreads { bar with
      curThreadIdx := bar.curThreadIdx + 1
      state := update bar.state tid .running
      lastIdx := update bar.lastIdx tid bar.curThreadIdx
      futexWord := update bar.futexWord tid 0
      runningThreads := bar.runningThreads + 1
      events := .woke tid :: bar.events } := by
  have woken : Steady parallelThreads { bar with
      state := update bar.state tid .running
      lastIdx := update bar.lastIdx tid bar.curThreadIdx
      futexWord := update bar.futexWord tid 0
      runningThreads := bar.runningThreads + 1
      events := .woke tid :: bar.events } := by
    refine steady.change (mem_of_getElem? entry) (by simp)
      ?running room ?left steady.phases (by simp) ?armed
      (fun _ => .inl rfl) (by simp) (fun _ _ => .inr)
    case running =>
      rw [steady.running]
      exact (population_update_new (by simp [waits])).symm
    case left =>
      exact steady.left.trans (population_update_other (by simp [waits]) (by simp)).symm
    case armed => exact fun other same => update_of_ne same _ _
  exact woken.pass entry (by simp)

end

theorem Steady.callback (finished : bar.curThreadIdx = bar.runList.length)
    (idle : bar.runningThreads = 0) :
    Steady parallelThreads { bar with
      events := .callback bar.state :: bar.events
      curThreadIdx := 0
      phaseCount := bar.phaseCount + 1 } where
  nodup := steady.nodup
  listed := steady.listed
  running := steady.running
  bounded := steady.bounded
  left := steady.left
  phases := by
    refine ⟨steady.none_running idle, fun tid waits => ?_, steady.phases⟩
    apply steady.served tid _ waits
    rw [passed, finished, take_length]
    exact steady.mem_runList waits (by decide)
  cur_le := Nat.zero_le _
  armed := steady.armed
  ran := fun tid running => absurd running (steady.none_running idle tid)
  served := by simp [passed]

theorem Steady.drop {idx : Nat} {wtid stid : Fin maxThreads} (rewound : bar.curThreadIdx = 0)
    (entry : bar.runList[idx]? = some wtid)
    (last : bar.runList[bar.runList.length - 1]? = some stid)
    (isLeft : bar.state wtid = .left) :
    Steady parallelThreads { bar with
      state := update bar.state wtid .offline
      runList := (bar.runList.set idx stid).take (bar.runList.length - 1)
      lastIdx := update bar.lastIdx stid idx
      leftThreads := bar.leftThreads - 1 } := by
  have perm := fill_perm entry last
  have nodup := perm.symm.nodup steady.nodup
  rw [nodup_cons] at nodup
  refine {
    nodup := nodup.2
    listed := fun other => ?_
    running := ?_
    bounded := steady.bounded
    left := ?_
    phases := steady.phases
    cur_le := by simp [rewound]
    armed := fun other => ?_
    ran := fun other => ?_
    served := by simp [passed, rewound] }
  · by_cases same : other = wtid
    · simpa [same] using nodup.1
    · have mem := perm.mem_iff (a := other)
      rw [steady.listed other] at mem
      simpa [same] using mem
  · exact steady.running.trans (population_update_other (by simp [isLeft]) (by simp)).symm
  · rw [steady.left]
    exact (population_update_old isLeft (by simp)).symm
  · by_cases same : other = wtid
    · simp [same]
    · simpa [same] using steady.armed other
  · by_cases same : other = wtid
    · simp [same]
    · simpa [same] using steady.ran other

theorem Steady.exchange {i j : Nat} {itid jtid : Fin maxThreads}
    (first : bar.runList[i]? = some itid) (second : bar.runList[j]? = some jtid)
    (side : i < bar.curThreadIdx ↔ j < bar.curThreadIdx) :
    Steady parallelThreads { bar with
      runList := (bar.runList.set i jtid).set j itid
      lastIdx := update (update bar.lastIdx itid j) jtid i } where
  nodup := (exchange_perm first second).symm.nodup steady.nodup
  listed := fun tid =>
    (exchange_perm first second).mem_iff.trans (steady.listed tid)
  running := steady.running
  bounded := steady.bounded
  left := steady.left
  phases := steady.phases
  cur_le := by simpa using steady.cur_le
  armed := steady.armed
  ran := steady.ran
  served := fun tid found =>
    steady.served tid ((exchange_take_perm first second side).mem_iff.mp found)

theorem Steady.move (move : Move parallelThreads bar next) : Steady parallelThreads next := by
  cases move with
  | pass entry skipped => exact steady.pass entry skipped
  | wake entry waits room => exact steady.wake entry waits room
  | callback finished idle => exact steady.callback finished idle
  | drop rewound entry last isLeft =>
    exact steady.drop rewound entry last isLeft
  | exchange first second side => exact steady.exchange first second side

theorem Steady.moves (moves : Moves parallelThreads bar next) :
    Steady parallelThreads next := by
  induction moves with
  | refl => exact steady
  | tail _ move ih => exact ih.move move

end

/-! ## What the functions do -/

theorem runThread_spec (mem : idx < bar.runList.length) :
    Gives (bar.runThread idx) (fun tid => bar.runList[idx]? = some tid) := by
  have entry := getElem?_eq_getElem mem
  exact ⟨_, by rw [runThread, entry], entry⟩

section

variable (steady : Steady parallelThreads bar)
include steady

theorem wakeNext_spec (room : bar.runningThreads < parallelThreads)
    (more : bar.curThreadIdx < bar.runList.length) :
    Gives bar.wakeNext (fun next =>
        Move parallelThreads bar next ∧ next.curThreadIdx = bar.curThreadIdx + 1 ∧
          next.runList = bar.runList ∧
          next.phaseCount = bar.phaseCount) := by
  apply (runThread_spec more).bind
  intro tid entry
  split
  case isTrue waits =>
    refine .check (steady.armed tid waits) ?_
    exact .pure ⟨.wake entry waits room, rfl, rfl, rfl⟩
  case isFalse skipped =>
    exact .pure ⟨.pass entry skipped, rfl, rfl, rfl⟩

/-- The loop stops when no place is free or no thread is left in the list. -/
theorem checkRunListLoop_spec {fuel : Nat} (enough : bar.runList.length - bar.curThreadIdx ≤ fuel) :
    Gives (checkRunListLoop parallelThreads fuel bar) (fun next =>
        Moves parallelThreads bar next ∧ next.phaseCount = bar.phaseCount ∧
          ¬ (next.runningThreads < parallelThreads ∧ next.curThreadIdx < next.runList.length)) := by
  induction fuel generalizing bar with
  | zero => exact .pure ⟨.refl, rfl, by omega⟩
  | succ fuel ih =>
    rw [checkRunListLoop]
    split
    case isFalse stops => exact .pure ⟨.refl, rfl, stops⟩
    case isTrue continues =>
      apply (wakeNext_spec steady continues.1 continues.2).bind
      rintro next ⟨move, cur, runList, phaseCount⟩
      apply (ih (steady.move move) (by rw [runList, cur]; omega)).mono
      rintro last ⟨moves, samePhase, stops⟩
      exact ⟨.head move moves, samePhase.trans phaseCount, stops⟩

theorem checkRunList_spec : Gives (bar.checkRunList parallelThreads) (fun next =>
        Moves parallelThreads bar next ∧ next.phaseCount = bar.phaseCount ∧
          ¬ (next.runningThreads < parallelThreads ∧ next.curThreadIdx < next.runList.length)) :=
  checkRunListLoop_spec steady le_rfl

end

/-- The barrier as the cleanup pass leaves it, once it is at `newSize`. -/
def trim (newSize : Nat) (bar : Barrier maxThreads) : Barrier maxThreads :=
  { bar with
    leftThreads := bar.leftThreads - (bar.runList.length - newSize)
    runList := bar.runList.take newSize }

theorem trim_length (bar : Barrier maxThreads) : bar.trim bar.runList.length = bar := by simp [trim]

/-- What holds in each iteration of the cleanup pass. -/
structure Cleaning (parallelThreads idx newSize : Nat) (bar : Barrier maxThreads) : Prop where
  steady : Steady parallelThreads (bar.trim newSize)
  rewound : bar.curThreadIdx = 0
  idx_le : idx ≤ newSize
  size_le : newSize ≤ bar.runList.length
  removed : bar.runList.length - newSize ≤ bar.leftThreads
  kept : ∀ tid ∈ bar.runList.take idx, bar.state tid ≠ .left

theorem Cleaning.finished (cleaning : Cleaning parallelThreads newSize newSize bar) :
    bar.runList.length - newSize = bar.leftThreads := by
  have none : (bar.trim newSize).leftThreads = 0 := by
    apply cleaning.steady.left.trans
    apply population_eq_zero.mpr
    intro tid isLeft
    exact cleaning.kept tid (cleaning.steady.mem_runList isLeft (by simp))
      isLeft
  exact le_antisymm cleaning.removed (Nat.le_of_sub_eq_zero none)

section

variable (cleaning : Cleaning parallelThreads idx newSize bar)
include cleaning

theorem Cleaning.keep (before : idx < newSize) (entry : bar.runList[idx]? = some tid)
    (stays : bar.state tid ≠ .left) :
    Cleaning parallelThreads (idx + 1) newSize bar := by
  refine { cleaning with idx_le := before, kept := ?_ }
  rw [take_add_one, entry]
  exact forall_mem_append.mpr ⟨cleaning.kept, forall_mem_singleton.mpr stays⟩

theorem Cleaning.drop {wtid stid : Fin maxThreads} (before : idx < newSize)
    (entry : bar.runList[idx]? = some wtid) (last : bar.runList[newSize - 1]? = some stid)
    (isLeft : bar.state wtid = .left) :
    let dropped : Barrier maxThreads := { bar with
      state := update bar.state wtid .offline
      runList := bar.runList.set idx stid
      lastIdx := update bar.lastIdx stid idx }
    Cleaning parallelThreads idx (newSize - 1) dropped ∧
      Move parallelThreads (bar.trim newSize) (dropped.trim (newSize - 1)) := by
  intro dropped
  have size_le := cleaning.size_le
  have length : (bar.trim newSize).runList.length = newSize := by simpa [trim] using size_le
  have taken : (dropped.trim (newSize - 1)).runList = ((bar.trim newSize).runList.set idx stid).take
        ((bar.trim newSize).runList.length - 1) := by
    rw [length]
    simp [dropped, trim, take_set, take_take]
  have fewer : (dropped.trim (newSize - 1)).leftThreads = (bar.trim newSize).leftThreads - 1 := by
    simp only [dropped, trim, length_set]
    omega
  have rewound : (bar.trim newSize).curThreadIdx = 0 := cleaning.rewound
  have entryTrim : (bar.trim newSize).runList[idx]? = some wtid := by
    rwa [trim, getElem?_take_of_lt before]
  have lastTrim :
      (bar.trim newSize).runList[ (bar.trim newSize).runList.length - 1]? = some stid := by
    rwa [length, trim, getElem?_take_of_lt (by omega)]
  have move : Move parallelThreads _ _ := .drop rewound entryTrim lastTrim isLeft
  rw [← taken, ← fewer] at move
  have some_left : 0 < (bar.trim newSize).leftThreads := by
    rw [cleaning.steady.left]
    exact population_pos isLeft
  refine ⟨?_, move⟩
  refine {
    steady := cleaning.steady.move move
    rewound := cleaning.rewound
    idx_le := by omega
    size_le := by simp only [dropped, length_set]; omega
    removed := ?_
    kept := ?_ }
  · simp only [trim] at some_left
    simp only [dropped, length_set]
    omega
  · intro other found
    rw [take_set_of_le (le_refl idx)] at found
    by_cases same : other = wtid
    · simp [dropped, same]
    · simpa [dropped, same] using cleaning.kept other found

theorem cleanupLoop_spec {fuel : Nat} (enough : newSize - idx ≤ fuel) :
    Gives (cleanupLoop fuel idx newSize bar) (fun res =>
        Moves parallelThreads (bar.trim newSize) (res.2.trim res.1) ∧ res.2.curThreadIdx = 0 ∧
          res.2.runList.length - res.1 = res.2.leftThreads) := by
  induction fuel generalizing idx newSize bar with
  | zero =>
    have finished : idx = newSize := by
      have idx_le := cleaning.idx_le
      omega
    subst finished
    exact .pure ⟨.refl, cleaning.rewound, cleaning.finished⟩
  | succ fuel ih =>
    rw [cleanupLoop]
    split
    case isFalse after =>
      have finished : idx = newSize := le_antisymm cleaning.idx_le (Nat.le_of_not_lt after)
      subst finished
      exact .pure ⟨.refl, cleaning.rewound, cleaning.finished⟩
    case isTrue before =>
      have size_le := cleaning.size_le
      apply (runThread_spec (by omega)).bind
      intro wtid entry
      split
      case isFalse stays =>
        exact ih (cleaning.keep before entry stays) (by omega)
      case isTrue isLeft =>
        apply (runThread_spec (by omega)).bind
        intro stid last
        obtain ⟨cleaningNext, move⟩ := cleaning.drop before entry last isLeft
        apply (ih cleaningNext (by omega)).mono
        exact fun res done => ⟨.head move done.1, done.2⟩

end

theorem cleanup_spec (steady : Steady parallelThreads bar) (rewound : bar.curThreadIdx = 0)
    (nonempty : 0 < bar.runList.length) :
    Gives bar.cleanup (fun next =>
        Moves parallelThreads bar next ∧ next.curThreadIdx = 0) := by
  have cleaning : Cleaning parallelThreads 0 bar.runList.length bar :=
    { steady := by rwa [trim_length]
      rewound := rewound
      idx_le := Nat.zero_le _
      size_le := le_rfl
      removed := by simp
      kept := by simp }
  refine .check nonempty ?_
  apply (cleanupLoop_spec cleaning le_rfl).bind
  rintro ⟨newSize, cleaned⟩ ⟨moves, rewoundCleaned, counted⟩
  refine .check counted ?_
  rw [trim_length] at moves
  refine .pure ⟨?_, rewoundCleaned⟩
  simpa only [trim, counted, Nat.sub_self] using moves

theorem exchange_spec {i j : Nat} (mem : i < bar.runList.length) (mem' : j < bar.runList.length)
    (side : i < bar.curThreadIdx ↔ j < bar.curThreadIdx) :
    Gives (bar.exchange i j) (fun next =>
        Move parallelThreads bar next ∧ next.curThreadIdx = bar.curThreadIdx ∧
          next.runList.length = bar.runList.length) := by
  apply (runThread_spec mem).bind
  intro itid first
  apply (runThread_spec mem').bind
  intro jtid second
  exact .pure ⟨.exchange first second side, rfl, by simp⟩

theorem shuffle_spec (draws : Draws) (rewound : bar.curThreadIdx = 0)
    {i : Nat} (mem : i = 0 ∨ i < bar.runList.length) :
    Gives (bar.shuffle draws i) (Moves parallelThreads bar) := by
  induction i generalizing bar with
  | zero => exact .pure .refl
  | succ i ih =>
    apply (exchange_spec (by omega) (by omega) (by simp [rewound])).bind
    rintro next ⟨move, cur, length⟩
    apply (ih (cur.trans rewound) (by omega)).mono
    exact fun _ => .head move

theorem countPhase_spec (steady : Steady parallelThreads
      { bar with phaseCount := bar.phaseCount + 1 })
    (rewound : bar.curThreadIdx = 0) (nonempty : 0 < bar.runList.length) :
    Gives bar.countPhase (fun next =>
        Moves parallelThreads { bar with phaseCount := bar.phaseCount + 1 } next ∧
          next.curThreadIdx = 0) := by
  rw [countPhase]
  split
  · exact cleanup_spec steady rewound nonempty
  · exact .pure ⟨.refl, rewound⟩

variable (steady : Steady parallelThreads bar)
include steady

/-- If no thread is on the run list, all of them left. -/
theorem Steady.runList_pos (notAllLeft : bar.leftThreads ≠ bar.runList.length) :
    0 < bar.runList.length := by
  apply Nat.pos_of_ne_zero
  intro empty
  apply notAllLeft
  rw [empty, steady.left]
  apply population_eq_zero.mpr
  intro tid isLeft
  have mem := steady.mem_runList isLeft (by simp)
  rw [eq_nil_of_length_eq_zero empty] at mem
  cases mem

theorem checkEndPhase_spec (draws : Draws) :
    Gives (bar.checkEndPhase parallelThreads draws) (Moves parallelThreads bar) := by
  rw [checkEndPhase]
  split
  case isFalse => exact .pure .refl
  case isTrue ended =>
    split
    case isTrue => exact .pure .refl
    case isFalse notAllLeft =>
      have first : Move parallelThreads bar _ := .callback ended.1 ended.2
      refine .bind (countPhase_spec (steady.move first) rfl (steady.runList_pos notAllLeft)) ?_
      rintro cleaned ⟨second, rewound⟩
      split
      case isFalse => exact .pure (.head first second)
      case isTrue =>
        apply (shuffle_spec draws rewound (by omega)).mono
        exact fun _ third => .head first (second.trans third)

theorem tryWakeNext_spec (draws : Draws) :
    Gives (bar.tryWakeNext parallelThreads draws) (Moves parallelThreads bar) := by
  apply (checkRunList_spec steady).bind
  rintro woken ⟨first, -⟩
  have steadyWoken := steady.moves first
  apply (checkEndPhase_spec steadyWoken draws).bind
  intro ended second
  apply (checkRunList_spec (steadyWoken.moves second)).mono
  exact fun _ third => (first.trans second).trans third.1

end Barrier

end Damov.Scheduling
