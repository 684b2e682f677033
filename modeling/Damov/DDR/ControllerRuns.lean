import Damov.DDR.AddressMap
import Damov.DDR.ChannelTiming
import Damov.DDR.Ledger
import Damov.DDR.WakeupSoundness

/-!
# Runs of the DDR controller

The commands of a controller keep to the timing of the channel, and no request is
stranded. `Inv` joins what holds of the channel, of the requests and of the
scheduling events: a queue that is not empty has the controller woken, and the
overflow queue is empty where the others are.
-/

namespace Damov.DDR

open Library
open Library.Checked
open Weave (EventState)
open Function
open Option
open Queues

variable {cfg : Config}

namespace DDRMemory

variable {mem : DDRMemory cfg} {req r : Request cfg}
variable {memCycle sysCycle curCycle : Nat}

attribute [local simp] Queues.queueOf findReady

/-! ## Responses -/

/-- The ledger of a controller. -/
def Booked (mem : DDRMemory cfg) : Prop :=
  Ledger mem.queues mem.accepted mem.accState mem.completions

/-- Only the event of a request was changed. -/
structure Responded (r : Request cfg) (mem next : DDRMemory cfg) : Prop where
  frame : next = { mem with
    accState := next.accState, completions := next.completions }
  responses : Responses next.accState next.completions
  others : ∀ ev, ev ≠ r.id → next.accState ev = mem.accState ev

theorem complete_spec {ev : Nat} (resps : Responses mem.accState mem.completions)
    (held : mem.accState ev = .held) (num : r.id = ev) (doneCycle : Nat) :
    Gives (mem.complete ev doneCycle) fun next =>
      Responded r mem next ∧ next.accState r.id = .done := by
  refine .check held (Gives.pure ⟨⟨rfl, ?_, ?_⟩, ?_⟩)
  · exact resps.complete held doneCycle
  · exact fun other ne => update_of_ne (num ▸ ne) _ _
  · rw [num]
    exact update_self ..

theorem respondToWrite_spec (responses : Responses mem.accState mem.completions)
    (waiting : req.Waiting mem.accState) (memCycle : Nat) :
    Gives (mem.respondToWrite req memCycle) fun next =>
      Responded req mem next ∧ (mem.queued req memCycle).Queued next.accState := by
  obtain ⟨ev, held⟩ := waiting
  unfold respondToWrite
  split
  · next write =>
      rw [ev]
      refine (complete_spec responses held rfl _).mono ?_
      rintro next ⟨responded, isDone⟩
      refine ⟨responded, ?_, ?_⟩
      · simp [queued, write]
      · simpa [queued, write] using isDone
  · next read =>
      refine .ok ⟨⟨rfl, responses, fun _ _ => rfl⟩, ?_, ?_⟩
      · simp [queued, ev]
      · simpa [queued, read] using held

theorem respond_spec (responses : Responses mem.accState mem.completions)
    (isQueued : r.Queued mem.accState)
    (inTime : sysCycle ≤ cfg.memToSysCycle mem.channel.minRespCycle) :
    Gives (mem.respond r sysCycle) fun next =>
      Responded r mem next ∧ next.accState r.id = .done := by
  obtain ⟨ev, state⟩ := isQueued
  cases write : r.write with
  | true =>
    rw [respond, ev, write]
    rw [write] at state
    exact .ok ⟨⟨rfl, responses, fun _ _ => rfl⟩, state⟩
  | false =>
    rw [respond, ev, write]
    rw [write] at state
    refine .check (by simp) (Gives.check ?_ ?_)
    · exact Nat.le_add_right_of_le inTime
    · exact complete_spec responses state rfl _

/-! ## Queueing a request -/

/-- What `queue` does to a request that waited. -/
structure QueueSpec (req : Request cfg) (memCycle : Nat) (mem next : DDRMemory cfg) : Prop where
  booked : next.Booked
  channel : next.channel = mem.channel
  wakeups : next.wakeups = mem.wakeups
  overflow : next.queues.overflowQueue = mem.queues.overflowQueue
  length : next.queues.rdQueue.length + next.queues.wrQueue.length =
    mem.queues.rdQueue.length + mem.queues.wrQueue.length + 1
  first : next.queues.isFirst (useWrQueue req) (mem.queued req memCycle) = false →
      mem.queues.noRequests = false

theorem queue_spec {waiting : List (Request cfg)}
    (ledger : Ledger { mem.queues with overflowQueue := waiting } mem.accepted
      mem.accState mem.completions)
    (taken : waiting.Perm (req :: mem.queues.overflowQueue))
    (room : mem.queues.anyFull = false) (memCycle : Nat) :
    Gives (mem.queue req memCycle) (QueueSpec req memCycle mem) := by
  have isWaiting : req.Waiting mem.accState :=
    ledger.overflow req (taken.mem_iff.mpr List.mem_cons_self)
  have fits : ¬ full (mem.queues.queueOf (useWrQueue req)) = true := by
    rw [anyFull, Bool.or_eq_false_iff] at room
    cases useWrQueue req with
    | false => simp [room.1]
    | true => simp [room.2]
  refine .check fits ?_
  apply (respondToWrite_spec ledger.responses isWaiting memCycle).bind
  rintro responded ⟨⟨frame, responses, others⟩, isQueued⟩
  have placed := place_append (mem.channel.bankOf req) req.loc.row
    (mem.queues.bankReqs (useWrQueue req) req.loc.bankId)
  refine .pure ⟨?_, ?_, ?_, ?_, ?_, ?_⟩
  · have accepted : responded.accepted = mem.accepted := by rw [frame]
    rw [accepted]
    exact ledger.queue taken rfl rfl isQueued placed responses others
  · rw [frame]
  · rw [frame]
  · simp
  · cases useWrQueue req <;> simp [setQueue, setBankReqs] <;> omega
  · intro notFirst
    by_contra empty
    have noOthers : mem.queues.bankReqs (useWrQueue req) req.loc.bankId = [] := by
      by_contra others
      exact empty (ledger.noRequests_of_bankReqs others)
    rw [noOthers, List.append_eq_nil_iff] at placed
    rw [isFirst, bankReqs_setBankReqs, if_pos ⟨rfl, rfl⟩, placement, noOthers, placed.1] at notFirst
    simp at notFirst

theorem QueueSpec.requests {next : DDRMemory cfg} (spec : QueueSpec req memCycle mem next) :
    next.queues.noRequests = false := by
  have length := spec.length
  rw [noRequests, Bool.and_eq_false_iff, List.isEmpty_eq_false_iff, List.isEmpty_eq_false_iff]
  by_contra both
  push Not at both
  rw [both.1, both.2] at length
  simp at length

/-! ## Enqueued requests -/

/-- What holds of a controller between two events. -/
structure Inv (mem : DDRMemory cfg) : Prop where
  timed : Timed mem.channel
  booked : mem.Booked
  fed : mem.queues.overflowQueue ≠ [] → mem.queues.noRequests = false
  sound : mem.wakeups.Sound cfg
  awake : mem.queues.noRequests = false → mem.wakeups.nextSchedCycle ≠ none

theorem inv_initial (lastCmdWasWrite : Bool) : Inv (initial lastCmdWasWrite : DDRMemory cfg) where
  timed := timed_initial lastCmdWasWrite
  booked := Ledger.initial
  fed := fun waiting => absurd rfl waiting
  sound := Wakeups.sound_initial
  awake := by
    rintro ⟨⟩

/-- A full queue is not empty. -/
theorem noRequests_of_anyFull (full : mem.queues.anyFull = true) :
    mem.queues.noRequests = false := by
  have depth := cfg.hasQueues
  rw [noRequests_eq_false]
  rw [anyFull, Bool.or_eq_true] at full
  rcases full with full | full
  · refine ⟨false, fun empty => ?_⟩
    have empty : mem.queues.rdQueue = [] := empty
    simp [Queues.full, empty] at full
    omega
  · refine ⟨true, fun empty => ?_⟩
    have empty : mem.queues.wrQueue = [] := empty
    simp [Queues.full, empty] at full
    omega

/-- A request that was queued is not left asleep. -/
theorem wakeFor_spec (timed : Timed mem.channel) (booked : mem.Booked)
    (reqs : mem.queues.noRequests = false) (sound : mem.wakeups.Sound cfg)
    (first : mem.queues.isFirst (useWrQueue req) req = false →
      mem.wakeups.nextSchedCycle ≠ none) (sysCycle : Nat) :
    Gives (mem.wakeFor req (cfg.sysToMemCycle sysCycle) sysCycle) Inv := by
  unfold wakeFor
  split
  · dsimp only
    generalize chosen : (if Wakeups.Sooner _ _ then max _ (mem.channel.findMinCmdCycle req)
        else mem.soonest _) = minSchedCycle
    have notBefore : cfg.sysToMemCycle sysCycle ≤ minSchedCycle := by
      rw [← chosen]
      have soonest : cfg.sysToMemCycle sysCycle ≤
          mem.soonest (cfg.sysToMemCycle sysCycle) := le_max_left _ _
      split <;> omega
    split
    · have wake := cfg.sysToMemCycle_wake notBefore
      have rescheduled := Wakeups.reschedule_spec sound
        (max (cfg.matchingMemToSysCycle minSchedCycle) sysCycle)
      rw [wake] at rescheduled
      apply rescheduled.bind
      rintro wakeups ⟨sound, awake⟩
      exact .pure ⟨timed, booked, fun _ => reqs, sound, fun _ => awake⟩
    · next notSooner =>
        refine .ok ⟨timed, booked, fun _ => reqs, sound, ?_⟩
        intro _ asleep
        rw [asleep] at notSooner
        exact notSooner trivial
  · next notFirst =>
      refine .ok ⟨timed, booked, fun _ => reqs, sound, ?_⟩
      exact fun _ => first (by simpa using notFirst)

theorem enqueue_spec (inv : Inv mem) (addr : Nat) (write : Bool) (sysCycle : Nat) :
    Gives (mem.enqueue addr write sysCycle) Inv := by
  obtain ⟨loc, located⟩ := cfg.mapLineAddr_succeeds addr
  have isNew := inv.booked.fresh mem.accepted le_rfl
  rw [enqueue, located, accept, check_true_bind isNew]
  let req : Request cfg := {
    id := mem.accepted
    loc, write
    rowHitSeq := 0
    arrivalCycle := cfg.sysToMemCycle sysCycle
    ev := some mem.accepted }
  let held : DDRMemory cfg := { mem with
    accepted := mem.accepted + 1
    accState := update mem.accState mem.accepted .held }
  have ledger : Ledger { held.queues with
          overflowQueue := held.queues.overflowQueue ++ [req] }
        held.accepted held.accState held.completions :=
    inv.booked.accept rfl rfl
  cases full : mem.queues.anyFull with
  | true =>
    have requests := noRequests_of_anyFull full
    exact .pure ⟨inv.timed, ledger, fun _ => requests, inv.sound, fun _ => inv.awake requests⟩
  | false =>
    have queues : Gives (held.queue req (cfg.sysToMemCycle sysCycle))
          (QueueSpec req (cfg.sysToMemCycle sysCycle) held) :=
      queue_spec ledger (List.perm_append_singleton _ _) full _
    apply queues.bind
    intro next spec
    apply wakeFor_spec (spec.channel ▸ inv.timed) spec.booked spec.requests
      (spec.wakeups ▸ inv.sound)
    intro notFirst
    rw [spec.wakeups]
    exact inv.awake (spec.first notFirst)

/-! ## Requests that are ready -/

/-- A tick looks at a queue that is not empty. -/
theorem queueOf_isWriteQueue (reqs : mem.queues.noRequests = false) :
    mem.queues.queueOf mem.isWriteQueue ≠ [] := by
  cases reads : mem.queues.rdQueue with
  | nil =>
    rw [noRequests] at reqs
    simpa [isWriteQueue, reads] using reqs
  | cons first rest =>
    cases prio : mem.prioWrites with
    | false => simp [isWriteQueue, reads, prio]
    | true =>
      intro empty
      have noWrites : mem.queues.wrQueue = [] := by simpa [isWriteQueue, prio] using empty
      simp [prioWrites, noWrites] at prio

variable (isWriteQueue : Bool)

/-- A request is first in its bank and may be scheduled. -/
def readyAt (cycle : Nat) (mem : DDRMemory cfg) (r : Request cfg) : Bool :=
  mem.queues.isFirst isWriteQueue r && decide (mem.channel.findMinCmdCycle r ≤ cycle)

/-- The walk looks for a request that is ready, and otherwise for the first one
that will be. -/
theorem findReady_eq (curCycle : Nat) (minSchedCycle : Option Nat) (queue : List (Request cfg)) :
    findReady isWriteQueue curCycle mem minSchedCycle queue =
      match queue.find? (mem.readyAt isWriteQueue curCycle) with
      | some r => .inl r
      | none => .inr ((queue.filter (mem.queues.isFirst isWriteQueue)).foldl (fun next r =>
            Wakeups.minCycle next (mem.channel.findMinCmdCycle r))
          minSchedCycle) := by
  induction queue generalizing minSchedCycle with
  | nil => rfl
  | cons r rest ih =>
    cases first : mem.queues.isFirst isWriteQueue r with
    | false => simp [readyAt, first, ih]
    | true =>
      by_cases ready : mem.channel.findMinCmdCycle r ≤ curCycle
      · simp [readyAt, first, ready]
      · simp [readyAt, first, ready, ih]

theorem foldl_minCycle (cost : Request cfg → Nat)
    (queue : List (Request cfg)) (start : Option Nat) (isSome : start ≠ none ∨ queue ≠ []) :
    ∃ cycle, queue.foldl (fun next r => Wakeups.minCycle next (cost r)) start = some cycle ∧
      (start = some cycle ∨ ∃ r ∈ queue, cost r = cycle) := by
  induction queue generalizing start with
  | nil =>
    cases start with
    | none => simp at isSome
    | some cycle => exact ⟨cycle, rfl, .inl rfl⟩
  | cons r rest ih =>
    have later : Wakeups.minCycle start (cost r) ≠ none := by
      cases start <;> simp [Wakeups.minCycle]
    obtain ⟨cycle, folds, known | ⟨other, mem, rfl⟩⟩ := ih _ (.inl later)
    · refine ⟨cycle, folds, ?_⟩
      cases start with
      | none =>
        exact .inr ⟨r, List.mem_cons_self, some.inj known⟩
      | some other =>
        have smaller : min other (cost r) = cycle := some.inj known
        rcases le_total other (cost r) with order | order
        · exact .inl (by rw [← smaller, min_eq_left order])
        · refine .inr ⟨r, List.mem_cons_self, ?_⟩
          rw [← smaller, min_eq_right order]
    · exact ⟨cost other, folds, .inr ⟨other, List.mem_cons_of_mem r mem, rfl⟩⟩

/-! ## Serving a request -/

/-- What a tick does that serves a request. -/
structure Served (r : Request cfg) (curCycle : Nat) (mem next : DDRMemory cfg) : Prop where
  timed : Timed next.channel
  booked : next.Booked
  queues : next.queues = mem.queues.serve isWriteQueue r
  wakeups : next.wakeups = mem.wakeups
  accepted : next.accepted = mem.accepted
  minRespCycle : curCycle + cfg.tCL ≤ next.channel.minRespCycle

theorem serve_spec (timed : Timed mem.channel) (booked : mem.Booked)
    {isWriteQueue : Bool} (inside : r ∈ mem.queues.queueOf isWriteQueue)
    (ready : mem.readyAt isWriteQueue curCycle r = true)
    (now : cfg.sysToMemCycle sysCycle = curCycle) :
    Gives (mem.serve isWriteQueue r curCycle sysCycle) (Served isWriteQueue r curCycle mem) := by
  rw [readyAt, Bool.and_eq_true, decide_eq_true_iff] at ready
  obtain ⟨channel, scheduled, channelTimed⟩ :=
    Channel.schedule_timed timed ready.2 (mem.nextHits isWriteQueue r)
  have minRespCycle := Channel.schedule_minRespCycle scheduled
  have issued : curCycle ≤ mem.channel.cmdCycle r curCycle := Channel.curCycle_le_cmdCycle
  have responds : Gives (respond r sysCycle { mem with channel }) _ :=
    respond_spec booked.responses (booked.queued isWriteQueue r inside)
      (cfg.le_memToSysCycle (by dsimp only; omega))
  rw [serve, scheduled]
  apply responds.bind
  rintro responded ⟨⟨frame, responses, others⟩, isDone⟩
  have queues : responded.queues = mem.queues := by rw [frame]
  have accepted : responded.accepted = mem.accepted := by rw [frame]
  have sameChannel : responded.channel = channel := by rw [frame]
  have dequeued : (responded.dequeue isWriteQueue r).queues = mem.queues.serve isWriteQueue r := by
    rw [← queues]
    rfl
  refine .pure ⟨?_, ?_, dequeued, ?_, accepted, ?_⟩
  · exact sameChannel ▸ channelTimed
  · rw [Booked, dequeued]
    exact accepted ▸ booked.serve inside ready.1 isDone responses others
  · change responded.wakeups = mem.wakeups
    rw [frame]
  · change curCycle + cfg.tCL ≤ responded.channel.minRespCycle
    rw [sameChannel]
    omega

/-! ## Scheduling -/

/-- The requests that were not served; one that waits in the overflow queue has
to be queued first. -/
def left (mem : DDRMemory cfg) : Nat :=
  2 * mem.queues.overflowQueue.length + (mem.queues.rdQueue.length + mem.queues.wrQueue.length)

/-- How many ticks it takes at most until one serves a request, if nothing else
happens. -/
def delay (cycle : Nat) (mem : DDRMemory cfg) : Nat :=
  if cycle + cfg.tCL < mem.channel.minRespCycle then 2
  else if (mem.queues.queueOf mem.isWriteQueue).any (mem.readyAt mem.isWriteQueue cycle) then 0
  else 1

theorem delay_le (cycle : Nat) (mem : DDRMemory cfg) : mem.delay cycle ≤ 2 := by
  unfold delay
  split
  · exact le_refl 2
  · split <;> simp

/-- If no request is ready, one is at the cycle that the walk finds. -/
theorem notReady_spec (booked : mem.Booked)
    (inReach : mem.channel.minRespCycle ≤ curCycle + cfg.tCL)
    (nonempty : mem.queues.queueOf mem.isWriteQueue ≠ [])
    (notReady : ∀ r ∈ mem.queues.queueOf mem.isWriteQueue,
      ¬ mem.readyAt mem.isWriteQueue curCycle r = true) :
    ∃ cycle, ((mem.queues.queueOf mem.isWriteQueue).filter
        (mem.queues.isFirst mem.isWriteQueue)).foldl (fun next r =>
            Wakeups.minCycle next (mem.channel.findMinCmdCycle r)) none =
        some cycle ∧
      curCycle ≤ cycle ∧ mem.delay cycle < mem.delay curCycle := by
  obtain ⟨first, inside, isFirst⟩ := booked.exists_first nonempty
  have someFirst : (mem.queues.queueOf mem.isWriteQueue).filter
      (mem.queues.isFirst mem.isWriteQueue) ≠ [] :=
    List.ne_nil_of_mem (List.mem_filter.mpr ⟨inside, isFirst⟩)
  obtain ⟨cycle, folds, known | ⟨r, isThere, rfl⟩⟩ :=
    foldl_minCycle mem.channel.findMinCmdCycle _ none (.inr someFirst)
  · cases known
  obtain ⟨inQueue, isFirst⟩ := List.mem_filter.mp isThere
  have later : curCycle < mem.channel.findMinCmdCycle r := by
    simpa [readyAt, isFirst] using notReady r inQueue
  refine ⟨mem.channel.findMinCmdCycle r, folds, le_of_lt later, ?_⟩
  have ready : (mem.queues.queueOf mem.isWriteQueue).any (mem.readyAt
      mem.isWriteQueue (mem.channel.findMinCmdCycle r)) = true :=
    List.any_eq_true.mpr ⟨r, inQueue, by simp [readyAt, isFirst]⟩
  have noneReady : (mem.queues.queueOf mem.isWriteQueue).any
      (mem.readyAt mem.isWriteQueue curCycle) = false :=
    List.any_eq_false.mpr notReady
  have noDelay : mem.delay (mem.channel.findMinCmdCycle r) = 0 := by
    rw [delay, if_neg (by omega), ready, if_pos rfl]
  have oneTick : mem.delay curCycle = 1 := by
    rw [delay, if_neg (by omega), noneReady]
    rfl
  omega

/-- What `trySchedule` leaves for the rest of a tick. -/
structure Scheduled
    (curCycle : Nat) (mem : DDRMemory cfg) (tried : DDRMemory cfg × Option Nat) : Prop where
  timed : Timed tried.1.channel
  booked : tried.1.Booked
  wakeups : tried.1.wakeups = mem.wakeups
  notBefore : NotBefore curCycle tried.2
  awake : tried.1.queues.noRequests = false → tried.2 ≠ none
  progress : mem.queues.noRequests = true ∨ tried.1.left < mem.left ∨ tried.1 = mem ∧
      ∃ cycle, tried.2 = some cycle ∧ mem.delay cycle < mem.delay curCycle

theorem Served.left_lt {isWriteQueue : Bool} {next : DDRMemory cfg}
    (served : Served isWriteQueue r curCycle mem next) (booked : mem.Booked) :
    next.left < mem.left := by
  have before := booked.requests_length
  have after := served.booked.requests_length
  have overflow : next.queues.overflowQueue = mem.queues.overflowQueue := by
    rw [served.queues, overflowQueue_serve]
  have finished : next.queues.served = r :: mem.queues.served := by
    rw [served.queues, served_serve]
  rw [overflow, finished, served.accepted, List.length_cons] at after
  rw [left, left, overflow]
  omega

theorem Served.scheduled {isWriteQueue : Bool} {next : DDRMemory cfg}
    (served : Served isWriteQueue r curCycle mem next) (booked : mem.Booked) :
    Scheduled curCycle mem (next, next.nextAfter) := by
  refine ⟨served.timed, served.booked, served.wakeups, ?_, ?_,
    .inr (.inl (served.left_lt booked))⟩
  · have minRespCycle := served.minRespCycle
    unfold nextAfter
    split
    · trivial
    · exact Nat.le_sub_of_add_le minRespCycle
  · intro reqs
    simp [nextAfter, reqs]

theorem trySchedule_spec (timed : Timed mem.channel) (booked : mem.Booked)
    (now : cfg.sysToMemCycle sysCycle = curCycle) :
    Gives (mem.trySchedule curCycle sysCycle) (Scheduled curCycle mem) := by
  unfold trySchedule
  split
  · next empty =>
      exact .ok ⟨timed, booked, rfl, trivial, by simp [empty], .inl empty⟩
  · next someRequest =>
      have requests : mem.queues.noRequests = false := by simpa using someRequest
      have waits : ∀ {cycle}, curCycle ≤ cycle → mem.delay cycle < mem.delay curCycle →
            Scheduled curCycle mem (mem, some cycle) :=
        fun later sooner =>
          ⟨timed, booked, rfl, later, fun _ => some_ne_none _,
            .inr (.inr ⟨rfl, _, rfl, sooner⟩)⟩
      split
      · next ahead =>
          refine .ok (waits (by omega) ?_)
          have inReach : ¬ mem.channel.minRespCycle - cfg.tCL + cfg.tCL <
              mem.channel.minRespCycle := by omega
          rw [delay, if_neg inReach, delay]
          split <;> simp
      · next inReach =>
          have nonempty := queueOf_isWriteQueue requests
          refine .check nonempty ?_
          rw [findReady_eq]
          cases found : (mem.queues.queueOf mem.isWriteQueue).find?
              (mem.readyAt mem.isWriteQueue curCycle) with
          | some r =>
            apply (serve_spec timed booked (List.mem_of_find?_eq_some found)
              (List.find?_some found) now).bind
            exact fun next served => Gives.pure (served.scheduled booked)
          | none =>
            obtain ⟨cycle, folds, later, sooner⟩ :=
              notReady_spec booked (Nat.le_of_not_lt inReach) nonempty (List.find?_eq_none.mp found)
            rw [folds]
            exact .pure (waits later sooner)

/-! ## Refilling -/

/-- What `refill` does to a controller and to the cycle of its next tick. -/
structure Refilled (curCycle : Nat) (mem : DDRMemory cfg) (minSchedCycle : Option Nat)
    (refilled : DDRMemory cfg × Option Nat) : Prop where
  timed : Timed refilled.1.channel
  booked : refilled.1.Booked
  wakeups : refilled.1.wakeups = mem.wakeups
  fed : refilled.1.queues.overflowQueue ≠ [] → refilled.1.queues.noRequests = false
  notBefore : NotBefore curCycle refilled.2
  awake : refilled.1.queues.noRequests = false → refilled.2 ≠ none
  progress : refilled = (mem, minSchedCycle) ∨ refilled.1.left < mem.left

/-- The next tick is not before this one, and there is one if there was or if
the request is first in its bank. -/
theorem nextWith_spec (mem : DDRMemory cfg) (req : Request cfg) {minSchedCycle : Option Nat}
    (notBefore : NotBefore curCycle minSchedCycle)
    (first : mem.queues.isFirst (useWrQueue req) req = false → minSchedCycle ≠ none) :
    NotBefore curCycle (mem.nextWith req curCycle minSchedCycle) ∧
      mem.nextWith req curCycle minSchedCycle ≠ none := by
  have soonest : curCycle ≤ mem.soonest curCycle := le_max_left _ _
  unfold nextWith
  split
  · dsimp only
    split
    · split
      · exact ⟨soonest, some_ne_none _⟩
      · exact ⟨soonest.trans (le_max_left _ _), some_ne_none _⟩
    · next notSooner =>
        refine ⟨notBefore, ?_⟩
        rintro rfl
        exact notSooner trivial
  · next notFirst => exact ⟨notBefore, first (by simpa using notFirst)⟩

theorem refill_spec (timed : Timed mem.channel) (booked : mem.Booked)
    {minSchedCycle : Option Nat} (notBefore : NotBefore curCycle minSchedCycle)
    (awake : mem.queues.noRequests = false → minSchedCycle ≠ none) :
    Gives (mem.refill curCycle minSchedCycle) (Refilled curCycle mem minSchedCycle) := by
  unfold refill
  split
  · next full =>
      exact .ok ⟨timed, booked, rfl,
        fun _ => noRequests_of_anyFull full, notBefore, awake, .inl rfl⟩
  · next room =>
      have room : mem.queues.anyFull = false := by simpa using room
      cases waiting : mem.queues.overflowQueue with
      | nil =>
        exact .ok ⟨timed, booked, rfl, fun some => absurd waiting some, notBefore, awake, .inl rfl⟩
      | cons req rest =>
        let popped : DDRMemory cfg :=
          { mem with queues := { mem.queues with overflowQueue := rest } }
        have ledger : Ledger { popped.queues with overflowQueue := req :: rest }
              popped.accepted popped.accState popped.completions := by
          rwa [← waiting]
        have queues : Gives (popped.queue req curCycle) (QueueSpec req curCycle popped) :=
          queue_spec ledger (List.Perm.refl _) room curCycle
        apply queues.bind
        intro next spec
        obtain ⟨later, isSome⟩ := nextWith_spec next (popped.queued req curCycle) notBefore
          (fun notFirst => awake (spec.first notFirst))
        refine .pure ⟨spec.channel ▸ timed, spec.booked, spec.wakeups,
          fun _ => spec.requests, later, fun _ => isSome, .inr ?_⟩
        have overflow : next.queues.overflowQueue = rest := spec.overflow
        have length : next.queues.rdQueue.length + next.queues.wrQueue.length =
              mem.queues.rdQueue.length + mem.queues.wrQueue.length + 1 :=
          spec.length
        simp only [left, overflow, waiting, List.length_cons]
        omega

/-! ## Ticks -/

/-- What the ticks have to do until all requests are served. -/
def effort (mem : DDRMemory cfg) : Nat := 3 * mem.left + match mem.wakeups.nextSchedCycle with
    | none => 0
    | some cycle => mem.delay cycle

theorem effort_lt_of_left {next : DDRMemory cfg}
    (fewer : next.left < mem.left) : next.effort < mem.effort := by
  have bound : (match next.wakeups.nextSchedCycle with
      | none => 0
      | some cycle => next.delay cycle) ≤ 2 := by
    split
    · exact Nat.zero_le 2
    · exact delay_le _ next
  unfold effort
  omega

/-- What a tick does. -/
structure Ticked (mem : DDRMemory cfg) (ticked : DDRMemory cfg × Nat) : Prop where
  timed : Timed ticked.1.channel
  booked : ticked.1.Booked
  fed : ticked.1.queues.overflowQueue ≠ [] → ticked.1.queues.noRequests = false
  next : ticked.2 = 0 ∧ ticked.1.queues.noRequests = true ∧ ticked.1.wakeups = { mem.wakeups with
        nextSchedCycle := none, nextSchedEvent := none } ∨
    0 < ticked.2 ∧ ticked.1.wakeups = { mem.wakeups with
        nextSchedCycle := some (cfg.sysToMemCycle ticked.2) }
  progress : mem.queues.noRequests = true ∨ ticked.1.effort < mem.effort

/-- The cycle of the next tick is one that the event is queued for. -/
theorem setNext_next (notBefore : NotBefore (cfg.sysToMemCycle sysCycle) next)
    (awake : mem.queues.noRequests = false → next ≠ none) :
    (mem.setNext sysCycle next).2 = 0 ∧ mem.queues.noRequests = true ∧
      (mem.setNext sysCycle next).1.wakeups = { mem.wakeups with
        nextSchedCycle := none, nextSchedEvent := none } ∨
    0 < (mem.setNext sysCycle next).2 ∧ (mem.setNext sysCycle next).1.wakeups = { mem.wakeups with
        nextSchedCycle := some (cfg.sysToMemCycle (mem.setNext sysCycle next).2) } := by
  cases next with
  | none =>
    refine .inl ⟨rfl, ?_, rfl⟩
    by_contra requests
    exact awake (by simpa using requests) rfl
  | some cycle =>
    have positive := cfg.matchingMemToSysCycle_pos
      ((cfg.sysToMemCycle_pos sysCycle).trans_le notBefore)
    refine .inr ⟨positive.trans_le (le_max_left _ _), ?_⟩
    simp only [setNext, cfg.sysToMemCycle_wake notBefore]

theorem setNext_frame (sysCycle : Nat) (next : Option Nat) (mem : DDRMemory cfg) :
    (mem.setNext sysCycle next).1 =
      { mem with wakeups := (mem.setNext sysCycle next).1.wakeups } := by
  cases next <;> rfl

theorem tick_progress {tried refilled : DDRMemory cfg × Option Nat}
    (now : mem.wakeups.nextSchedCycle = some curCycle) (scheduled : Scheduled curCycle mem tried)
    (refills : Refilled curCycle tried.1 tried.2 refilled) (sysCycle : Nat) :
    mem.queues.noRequests = true ∨
      (refilled.1.setNext sysCycle refilled.2).1.effort < mem.effort := by
  have frame := setNext_frame sysCycle refilled.2 refilled.1
  have fewer : refilled.1.left < mem.left →
      (refilled.1.setNext sysCycle refilled.2).1.effort < mem.effort := by
    intro fewer
    apply effort_lt_of_left
    rwa [frame]
  rcases scheduled.progress with empty | served | ⟨unchanged, cycle, next, sooner⟩
  · exact .inl empty
  · right
    apply fewer
    rcases refills.progress with same | moved
    · rwa [same]
    · exact lt_trans moved served
  · right
    rcases refills.progress with same | moved
    · rw [same, next, unchanged, effort, effort, now]
      exact Nat.add_lt_add_left sooner _
    · rw [unchanged] at moved
      exact fewer moved

theorem tick_spec (timed : Timed mem.channel) (booked : mem.Booked)
    (now : mem.wakeups.nextSchedCycle = some (cfg.sysToMemCycle sysCycle)) :
    Gives (mem.tick sysCycle) (Ticked mem) := by
  refine .check now ?_
  apply (trySchedule_spec timed booked rfl).bind
  intro tried scheduled
  refine .check scheduled.notBefore ?_
  apply (refill_spec scheduled.timed scheduled.booked scheduled.notBefore scheduled.awake).bind
  intro refilled refills
  have frame := setNext_frame sysCycle refilled.2 refilled.1
  refine .pure ⟨?_, ?_, ?_, ?_, ?_⟩
  · rw [frame]
    exact refills.timed
  · rw [frame]
    exact refills.booked
  · rw [frame]
    exact refills.fed
  · have next := setNext_next refills.notBefore refills.awake
    rw [refills.wakeups, scheduled.wakeups] at next
    rwa [frame]
  · exact tick_progress now scheduled refills sysCycle

/-! ## Events -/

theorem mem_of_lookup {entries : List (Nat × Nat)} {ev cycle : Nat}
    (found : entries.lookup ev = some cycle) : (ev, cycle) ∈ entries := by
  obtain ⟨before, after, rfl, -⟩ := List.lookup_eq_some_iff.mp found
  simp

/-- The next event runs in the cycle for which the controller is woken. -/
theorem lookup_spec (sound : mem.wakeups.Sound cfg) {ev cycle : Nat}
    (pending : mem.wakeups.pending.lookup ev = some cycle)
    (isNext : mem.wakeups.nextSchedEvent = some ev) :
    mem.wakeups.nextSchedCycle = some (cfg.sysToMemCycle cycle) := by
  obtain ⟨-, sysCycle, inside, next⟩ := sound.next ev isNext
  have same := List.inj_on_of_nodup_map sound.pendingOnce inside (mem_of_lookup pending) rfl
  cases same
  exact next

/-- A controller that differs in its scheduling events only. -/
theorem effort_congr {wakeups : Wakeups}
    (same : wakeups.nextSchedCycle = mem.wakeups.nextSchedCycle) :
    effort { mem with wakeups } = mem.effort := by
  unfold effort
  rw [same]
  rfl

variable {ev cycle : Nat}

/-- The next event runs: it is queued again, or it is free. -/
theorem simulate_queued {ran : Wakeups} (timed : Timed mem.channel)
    (booked : mem.Booked) (loose : Wakeups.Loose ev ran)
    (running : ran.evState ev = .running) (queued : ran.state ev = .QUEUED)
    (others : ∀ other, other ≠ ev → ran.state other ≠ .QUEUED)
    (event : ran.nextSchedEvent = some ev)
    (now : ran.nextSchedCycle = some (cfg.sysToMemCycle cycle)) :
    Gives (simulate ev cycle { mem with wakeups := ran }) fun next =>
      Inv next ∧ (mem.queues.noRequests = true ∨
          next.effort < effort { mem with wakeups := ran }) := by
  let started : DDRMemory cfg := { mem with wakeups := { ran with
    state := update ran.state ev .RUNNING } }
  have looseStarted : Wakeups.Loose ev started.wakeups :=
    loose.agree _ rfl rfl rfl (fun _ ne => update_of_ne ne _ _) (fun _ _ => rfl)
  have noneQueued (other) (ne : other ≠ ev) : started.wakeups.state other ≠ .QUEUED := by
    change update ran.state ev .RUNNING other ≠ .QUEUED
    rw [update_of_ne ne]
    exact others other ne
  rw [simulate, queued]
  have ticks : Gives (started.tick cycle) (Ticked started) := tick_spec timed booked now
  apply ticks.bind
  intro ticked spec
  have finishes : Gives (ticked.1.wakeups.finish ev ticked.2) fun finished =>
      Wakeups.Sound cfg finished ∧ finished.nextSchedCycle = ticked.1.wakeups.nextSchedCycle := by
    rcases spec.next with ⟨zero, -, wakeups⟩ | ⟨positive, wakeups⟩
    · rw [zero, wakeups]
      have asleep := looseStarted.agree
        { started.wakeups with nextSchedCycle := none, nextSchedEvent := none }
        rfl rfl rfl (fun _ _ => rfl) (fun _ _ => rfl)
      exact Wakeups.finish_asleep asleep running noneQueued rfl rfl
    · rw [wakeups]
      have awake := looseStarted.agree
        { started.wakeups with
          nextSchedCycle := some (cfg.sysToMemCycle ticked.2) }
        rfl rfl rfl (fun _ _ => rfl) (fun _ _ => rfl)
      exact Wakeups.finish_awake awake running noneQueued event positive rfl
  apply finishes.bind
  rintro finished ⟨sound, sameCycle⟩
  refine .pure ⟨⟨spec.timed, spec.booked, spec.fed, sound, ?_⟩, ?_⟩
  · intro reqs asleep
    rw [sameCycle] at asleep
    rcases spec.next with ⟨-, empty, -⟩ | ⟨-, wakeups⟩
    · rw [empty] at reqs
      cases reqs
    · rw [wakeups] at asleep
      cases asleep
  · rw [effort_congr sameCycle]
    exact spec.progress

/-- A pending event runs. If it is the next one, less is left to do. -/
theorem runEvent_pending (inv : Inv mem) (pending : mem.wakeups.pending.lookup ev = some cycle) :
    Gives (mem.runEvent ev) fun next =>
      Inv next ∧ (mem.wakeups.nextSchedEvent = some ev →
          mem.queues.noRequests = true ∨ next.effort < mem.effort) := by
  have inside : ev ∈ mem.wakeups.pending.map Prod.fst := List.mem_map_of_mem (mem_of_lookup pending)
  rw [runEvent, pending]
  rcases (inv.sound.isPending ev inside).2 with queued | annulled
  · apply (Wakeups.run_spec inv.sound.toKept inside).bind
    rintro ran ⟨loose, running, state, event, next, -⟩
    have isNext := inv.sound.queued ev queued
    have others : ∀ other, other ≠ ev → ran.state other ≠ .QUEUED := by
      intro other ne alsoQueued
      rw [state] at alsoQueued
      have alsoNext := inv.sound.queued other alsoQueued
      rw [isNext] at alsoNext
      exact ne (some.inj alsoNext).symm
    refine (simulate_queued inv.timed inv.booked loose running
      (state ▸ queued) others (event.trans isNext)
      (next.trans (lookup_spec inv.sound pending isNext))).mono ?_
    rintro after ⟨holds, progress⟩
    refine ⟨holds, fun _ => ?_⟩
    rwa [effort_congr next] at progress
  · have notNext : mem.wakeups.nextSchedEvent ≠ some ev := by
      intro isNext
      have queued := (inv.sound.next ev isNext).1
      rw [annulled] at queued
      cases queued
    apply (Wakeups.run_other inv.sound notNext inside).bind
    rintro ran ⟨sound, loose, running, stillNotNext, state, next⟩
    rw [simulate, state, annulled]
    apply (Wakeups.retire_annulled sound loose running stillNotNext).bind
    rintro retired ⟨soundAfter, sameCycle⟩
    refine .pure ⟨⟨inv.timed, inv.booked, inv.fed, soundAfter, ?_⟩,
      fun isNext => absurd isNext notNext⟩
    intro reqs
    rw [sameCycle, next]
    exact inv.awake reqs

/-! ## Runs -/

/-- A run stops where it is not one of the simulator, or where the refreshes of
the technology are too short for a precharge. -/
def Expected (cfg : Config) (failure : DDRFailure) : Prop :=
  failure = .notPending ∨ failure = .refreshShort ∧ cfg.tRFC < cfg.tRP

theorem step_spec (inv : Inv mem) (op : Op) : Ends (Expected cfg) (mem.step op) Inv := by
  cases op with
  | enqueue addr write sysCycle =>
    exact .of_gives (enqueue_spec inv addr write sysCycle)
  | schedEvent ev =>
    cases pending : mem.wakeups.pending.lookup ev with
    | none =>
      rw [step, runEvent, pending]
      exact .error (.inl rfl)
    | some cycle =>
      exact .of_gives ((runEvent_pending inv pending).mono fun _ holds => holds.1)
  | refresh sysCycle =>
    have refreshed : Ends (Expected cfg) (mem.channel.refresh (cfg.sysToMemCycle sysCycle)) Timed :=
      (Channel.refresh_timed inv.timed _).expecting fun _ short => .inr short
    apply refreshed.bind
    intro channel timed
    exact .pure ⟨timed, inv.booked, inv.fed, inv.sound, inv.awake⟩

section

variable (cfg : Config) (lastCmdWasWrite : Bool) (ops : List Op)

theorem run_inv : Ends (Expected cfg) (run cfg lastCmdWasWrite ops) Inv :=
  Ends.run (fun _ op inv _ => step_spec inv op) (RunMeets.trivial ops _)
    (inv_initial lastCmdWasWrite)

/-- The clocks translate back and forth, so no event finds another cycle than
the one it was scheduled for. -/
theorem clocks_match :
    (∀ memCycle, 1 ≤ memCycle → cfg.sysToMemCycle (cfg.matchingMemToSysCycle memCycle) = memCycle) ∧
    (∀ earlier later, earlier ≤ later → cfg.sysToMemCycle earlier ≤ cfg.sysToMemCycle later) ∧
    (∀ sysCycle memCycle, cfg.sysToMemCycle sysCycle ≤ memCycle → cfg.sysToMemCycle
        (max (cfg.matchingMemToSysCycle memCycle) sysCycle) = memCycle) ∧
    run cfg lastCmdWasWrite ops ≠ .error .tickCycle := by
  refine ⟨fun _ => cfg.sysToMemCycle_matching,
    fun _ _ => cfg.sysToMemCycle_mono, fun _ _ => cfg.sysToMemCycle_wake, ?_⟩
  intro stops
  rcases (run_inv cfg lastCmdWasWrite ops).stops _ stops with same | same
  · cases same
  · cases same.1

/-- The commands of every run are legal, each after the older ones; the
assertion on their order never fails. -/
theorem commands_keep_timing : Ends (Expected cfg) (run cfg lastCmdWasWrite ops) fun mem =>
      Historic Legal mem.channel.commands :=
  (run_inv cfg lastCmdWasWrite ops).mono fun _ inv => inv.timed.legal

end

/-- The scheduling events alone serve all requests. -/
theorem drains (inv : Inv mem) :
    ∃ events : List Nat, Gives ((events.map Op.schedEvent).foldlM step mem) fun next =>
        next.queues.rdQueue = [] ∧ next.queues.wrQueue = [] ∧ next.queues.overflowQueue = [] := by
  generalize bound : mem.effort = effort
  induction effort using Nat.strong_induction_on generalizing mem with
  | _ effort ih =>
    cases requests : mem.queues.noRequests with
    | true =>
      refine ⟨[], Gives.pure ?_⟩
      have empty : mem.queues.rdQueue = [] ∧ mem.queues.wrQueue = [] := by
        simpa [noRequests] using requests
      refine ⟨empty.1, empty.2, ?_⟩
      by_contra waiting
      rw [inv.fed waiting] at requests
      cases requests
    | false =>
      have awake := inv.awake requests
      cases isNext : mem.wakeups.nextSchedEvent with
      | none => exact absurd (inv.sound.asleep isNext) awake
      | some ev =>
        obtain ⟨-, sysCycle, inside, -⟩ := inv.sound.next ev isNext
        have isPending : (mem.wakeups.pending.lookup ev).isSome = true :=
          List.lookup_isSome_iff.mpr ⟨_, inside, by simp⟩
        obtain ⟨cycle, pending⟩ := isSome_iff_exists.mp isPending
        obtain ⟨next, runs, holds, progress⟩ := runEvent_pending inv pending
        have less : next.effort < effort := by
          rcases progress isNext with empty | less
          · rw [requests] at empty
            cases empty
          · exact bound ▸ less
        obtain ⟨events, drained⟩ := ih _ less holds rfl
        refine ⟨ev :: events, ?_⟩
        rwa [List.map_cons, List.foldlM_cons, step, runs]

theorem noRequests_iff : mem.queues.noRequests = false ↔
      mem.queues.rdQueue ≠ [] ∨ mem.queues.wrQueue ≠ [] := by simp [noRequests, imp_iff_not_or]

/-- Requests that wait have exactly one event pending that is not annulled, at
`nextSchedCycle`; each request is in one place; what was served is completed
once, and a read not before; and the scheduling events will serve the rest. -/
theorem no_request_stranded (cfg : Config) (lastCmdWasWrite : Bool) (ops : List Op) :
    Ends (Expected cfg) (run cfg lastCmdWasWrite ops) fun mem =>
      (mem.queues.rdQueue ≠ [] ∨ mem.queues.wrQueue ≠ [] → ∃ ev sysCycle,
          mem.wakeups.nextSchedEvent = some ev ∧
          mem.wakeups.state ev = .QUEUED ∧
          (ev, sysCycle) ∈ mem.wakeups.pending ∧
          mem.wakeups.nextSchedCycle = some (cfg.sysToMemCycle sysCycle)) ∧
      (∀ first ∈ mem.wakeups.pending, ∀ second ∈ mem.wakeups.pending,
        mem.wakeups.state first.1 = .QUEUED →
        mem.wakeups.state second.1 = .QUEUED → first = second) ∧
      (mem.queues.overflowQueue ≠ [] → mem.queues.rdQueue ≠ [] ∨ mem.queues.wrQueue ≠ []) ∧
      ((mem.queues.overflowQueue ++ (mem.queues.rdQueue ++ mem.queues.wrQueue) ++
          mem.queues.served).map Request.id).Perm
        (List.range mem.accepted) ∧
      (∀ r ∈ mem.queues.served, (mem.completions.map Prod.fst).count r.id = 1) ∧
      (∀ r ∈ mem.queues.overflowQueue ++ (mem.queues.rdQueue ++ mem.queues.wrQueue),
        r.write = false → r.id ∉ mem.completions.map Prod.fst) ∧
      ∃ events : List Nat, Gives ((events.map Op.schedEvent).foldlM step mem) fun next =>
          next.queues.rdQueue = [] ∧ next.queues.wrQueue = [] ∧ next.queues.overflowQueue = [] := by
  refine (run_inv cfg lastCmdWasWrite ops).mono ?_
  intro mem inv
  refine ⟨?_, ?_, ?_, inv.booked.ids, ?_, ?_, drains inv⟩
  · intro requests
    have awake := inv.awake (noRequests_iff.mpr requests)
    cases isNext : mem.wakeups.nextSchedEvent with
    | none => exact absurd (inv.sound.asleep isNext) awake
    | some ev =>
      obtain ⟨queued, sysCycle, inside, cycle⟩ := inv.sound.next ev isNext
      exact ⟨ev, sysCycle, rfl, queued, inside, cycle⟩
  · intro first isFirst second isSecond firstQueued secondQueued
    have same : first.1 = second.1 := by
      have firstNext := inv.sound.queued first.1 firstQueued
      rw [inv.sound.queued second.1 secondQueued] at firstNext
      exact (some.inj firstNext).symm
    exact List.inj_on_of_nodup_map inv.sound.pendingOnce isFirst isSecond same
  · exact fun waiting => noRequests_iff.mp (inv.fed waiting)
  · intro r isServed
    apply List.count_eq_one_of_mem inv.booked.responses.once
    exact (inv.booked.responses.completed r.id).mpr (inv.booked.served r isServed)
  · intro r waiting read completed
    have isDone := (inv.booked.responses.completed r.id).mp completed
    have held : mem.accState r.id = .held := by
      simp only [List.mem_append] at waiting
      rcases waiting with waiting | waiting | waiting
      · exact (inv.booked.overflow r waiting).2
      · simpa [read] using (inv.booked.queued false r waiting).2
      · simpa [read] using (inv.booked.queued true r waiting).2
    rw [held] at isDone
    cases isDone

end DDRMemory

end Damov.DDR
