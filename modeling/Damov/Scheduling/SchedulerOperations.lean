import Damov.Scheduling.SchedulerUpdates

/-!
# The operations of the scheduler

Every operation that respects its preconditions completes and keeps the
invariant. For the threads that do not operate, it is also stated what can
happen to them meanwhile: a thread that is out can lose its context, a queued one
can get a context, and a sleeping one can wake up.
-/

namespace Damov.Scheduling

open Library.Checked Library.ListMoves Function List

namespace Scheduler

variable {lastCore : Nat} {sched next : Scheduler lastCore}
variable {hole : Option (Cid lastCore)} {lost : Set Ptr} {phase : Nat}

attribute [local simp] Scheduler.setState Scheduler.place Scheduler.vacate

/-! ## Bystanders -/

/-- What can happen to a thread while others operate. -/
def Bystands (before after : ThreadState) : Prop :=
  after = before ∨ before = .out ∧ after = .blocked ∨ before = .queued ∧ after = .running ∨
    before = .sleeping ∧ after = .blocked

theorem Bystands.trans {first second third : ThreadState}
    (before : Bystands first second) (after : Bystands second third) :
    Bystands first third := by
  rcases before with rfl | ⟨rfl, rfl⟩ | ⟨rfl, rfl⟩ | ⟨rfl, rfl⟩
  · exact after
  · rcases after with rfl | ⟨h, -⟩ | ⟨h, -⟩ | ⟨h, -⟩
    · exact .inr (.inl ⟨rfl, rfl⟩)
    all_goals cases h
  · rcases after with rfl | ⟨h, -⟩ | ⟨h, -⟩ | ⟨h, -⟩
    · exact .inr (.inr (.inl ⟨rfl, rfl⟩))
    all_goals cases h
  · rcases after with rfl | ⟨h, -⟩ | ⟨h, -⟩ | ⟨h, -⟩
    · exact .inr (.inr (.inr ⟨rfl, rfl⟩))
    all_goals cases h

/-- What an operation of one thread leaves alone. -/
structure Frame (th : Ptr) (sched next : Scheduler lastCore) : Prop where
  others : ∀ other, other ≠ th → Bystands (sched.state other) (next.state other)
  marked : ∀ other, next.markedForSleep other = true → sched.markedForSleep other = true
  alive : next.alive = sched.alive
  gidMap : next.gidMap = sched.gidMap
  curPhase : next.curPhase = sched.curPhase
  wakeupPhase : next.wakeupPhase = sched.wakeupPhase

theorem Frame.refl (th : Ptr) (sched : Scheduler lastCore) : Frame th sched sched :=
  ⟨fun _ _ => .inl rfl, fun _ => id, rfl, rfl, rfl, rfl⟩

variable {th : Ptr} {ctx : Cid lastCore} {gid : Gid}

theorem Frame.trans {last : Scheduler lastCore} (first : Frame th sched next)
    (second : Frame th next last) :
    Frame th sched last where
  others := fun other differs =>
    (first.others other differs).trans (second.others other differs)
  marked := fun other now => first.marked other (second.marked other now)
  alive := second.alive.trans first.alive
  gidMap := second.gidMap.trans first.gidMap
  curPhase := second.curPhase.trans first.curPhase
  wakeupPhase := second.wakeupPhase.trans first.wakeupPhase

/-- Only the state of the operating thread changes. -/
theorem Frame.own {state : ThreadState} (states : next.state = update sched.state th state)
    (marked : next.markedForSleep = sched.markedForSleep)
    (alive : next.alive = sched.alive) (gidMap : next.gidMap = sched.gidMap)
    (curPhase : next.curPhase = sched.curPhase)
    (wakeupPhase : next.wakeupPhase = sched.wakeupPhase) :
    Frame th sched next where
  others := fun other differs => Or.inl (by simp [states, differs])
  marked := fun other now => (congrFun marked other).symm.trans now
  alive := alive
  gidMap := gidMap
  curPhase := curPhase
  wakeupPhase := wakeupPhase

/-- Beside the operating thread, one other thread changes. -/
theorem others_of_update {other : Ptr} {state : ThreadState}
    (bystands : Bystands (sched.state other) state)
    (states : ∀ one, one ≠ th → next.state one = update sched.state other state one) (one : Ptr)
    (differs : one ≠ th) : Bystands (sched.state one) (next.state one) := by
  rw [states one differs]
  by_cases eq : one = other
  · rwa [eq, update_self]
  · exact .inl (update_of_ne eq ..)

/-- No thread operates. -/
def Aside (sched next : Scheduler lastCore) : Prop := ∀ th, Frame th sched next

theorem Aside.state (aside : Aside sched next) (th : Ptr) :
    Bystands (sched.state th) (next.state th) :=
  (aside (th + 1)).others th (ne_of_lt (Nat.lt_succ_self th))

/-! ## Lists and contexts -/

theorem owner_run (mem : th ∈ sched.runQueue) : sched.owner th = some .run := if_pos mem

section

variable (notRun : th ∉ sched.runQueue)
include notRun

theorem owner_out (mem : th ∈ sched.outQueue) : sched.owner th = some .out := by
  rw [owner, if_neg notRun, if_pos mem]

theorem owner_sleep (notOut : th ∉ sched.outQueue) (mem : th ∈ sched.sleepQueue) :
    sched.owner th = some .sleep := by
  rw [owner, if_neg notRun, if_neg notOut, if_pos mem]

theorem owner_none (notOut : th ∉ sched.outQueue) (awake : th ∉ sched.sleepQueue) :
    sched.owner th = none := by
  rw [owner, if_neg notRun, if_neg notOut, if_neg awake]

end

theorem Inv.unowned (inv : Inv hole lost phase sched) (running : sched.state th = .running) :
    sched.owner th = none :=
  owner_none (inv.queues.notMem_run th (by simp [running])) (by simp [inv.queues.out, running])
    (by simp [inv.queues.sleeping, running])

theorem removeRun_eq (owned : sched.owner th = some .run) :
    sched.removeRun th = .ok { sched with runQueue := sched.runQueue.erase th } := by
  simp [removeRun, owned]

theorem removeOut_eq (owned : sched.owner th = some .out) :
    sched.removeOut th = .ok { sched with outQueue := sched.outQueue.erase th } := by
  simp [removeOut, owned]

theorem removeSleep_eq (owned : sched.owner th = some .sleep) :
    sched.removeSleep th = .ok { sched with sleepQueue := sched.sleepQueue.erase th } := by
  simp [removeSleep, owned]

theorem waitInRunQueue_eq (owned : sched.owner th = none) :
    sched.waitInRunQueue th = .ok { sched with
        runQueue := sched.runQueue ++ [th]
        futexWord := update sched.futexWord th 1 } := by simp [waitInRunQueue, pushRun, owned]

theorem schedule_eq (placement : Placement (some ctx) sched)
    (ready : sched.state th = .started ∨ sched.state th = .blocked ∨ sched.state th = .queued) :
    sched.schedule th ctx = .ok (sched.place th ctx) := by
  have vacant : sched.curThread ctx = none := (placement.vacant ctx).mpr (.inr rfl)
  have idle := (placement.idle ctx).mpr vacant
  simp [schedule, ready, vacant, idle]

theorem deschedule_eq (placement : Placement none sched)
    (target : ThreadState) (alive : sched.alive th = true)
    (present : sched.state th = .running ∨ sched.state th = .out)
    (after : target = .blocked ∨ target = .queued ∨ target = .sleeping) :
    sched.deschedule th (sched.cid th) target = .ok (sched.vacate th (sched.cid th) target) := by
  have found := (placement.placed th alive).mp present
  have used : sched.ctxState (sched.cid th) = .used := by
    cases state : sched.ctxState (sched.cid th) with
    | used => rfl
    | idle => simp [(placement.idle _).mp state] at found
  simp [deschedule, present, found, used, after]

/-! ## The scheduling policy -/

theorem freeContext_some (placement : Placement none sched)
    (found : sched.freeContext th = some ctx) :
    ctx ∈ sched.freeList ∧ sched.mask th ctx = true := by
  rw [freeContext] at found
  split at found
  case isTrue last =>
    obtain rfl := Option.some.inj found
    have vacant := (placement.idle _).mp last.1
    exact ⟨by simpa using (placement.vacant _).mp vacant, last.2⟩
  case isFalse =>
    exact ⟨mem_of_find?_eq_some found, find?_some found⟩

theorem freeContext_none (found : sched.freeContext th = none) (free : ctx ∈ sched.freeList) :
    sched.mask th ctx = false := by
  rw [freeContext] at found
  split at found
  case isTrue => cases found
  case isFalse =>
    simpa using find?_eq_none.mp found ctx free

/-- A context offered to a thread is open, and the thread is still in hand. -/
structure Offered (th : Ptr) (ctx : Cid lastCore) (lost : Set Ptr) (phase : Nat)
    (sched next : Scheduler lastCore) : Prop where
  inv : Inv (some ctx) lost phase next
  frame : Frame th sched next
  state : next.state th = sched.state th
  runQueue : next.runQueue = sched.runQueue
  handoff : next.handoffThread = sched.handoffThread

/-- If no context is offered, running threads have all contexts of the mask. -/
def Busy (th : Ptr) (sched : Scheduler lastCore) : Prop := ∀ ctx, sched.mask th ctx = true →
    ∃ other, sched.curThread ctx = some other ∧ sched.state other = .running

theorem Inv.busy (inv : Inv none lost phase sched)
    (noFree : ∀ ctx ∈ sched.freeList, sched.mask th ctx = false)
    (noOut : ∀ other ∈ sched.outQueue, sched.mask th (sched.cid other) = false) :
    sched.Busy th := by
  intro ctx masked
  cases found : sched.curThread ctx with
  | none =>
    have free : ctx ∈ sched.freeList := by simpa using (inv.placement.vacant ctx).mp found
    exact absurd masked (by simp [noFree ctx free])
  | some other =>
    have here := inv.placement.occupant ctx other found
    refine ⟨other, rfl, ?_⟩
    have present := (inv.placement.placed other here.1).mpr (here.2 ▸ found)
    rcases present with running | out
    · exact running
    · have unmasked := noOut other ((inv.queues.out other).mpr ⟨here.1, out⟩)
      rw [here.2, masked] at unmasked
      cases unmasked

theorem schedThread_spec (inv : Inv none lost phase sched) (notOut : sched.state th ≠ .out) :
    Gives (sched.schedThread th) (fun res =>
        match res.1 with
        | some ctx => Offered th ctx lost phase sched res.2
        | none => res.2 = sched ∧ sched.Busy th) := by
  rw [schedThread]
  cases free : sched.freeContext th with
  | some ctx =>
    have found := freeContext_some inv.placement free
    simp only [removeFree, bind_assoc]
    refine .check found.1 ?_
    refine .check found.2 ?_
    exact .pure ⟨inv.takeFree found.1, ⟨fun _ _ => .inl rfl, fun _ => id, rfl, rfl, rfl, rfl⟩,
        rfl, rfl, rfl⟩
  | none =>
    cases out : sched.outThread th with
    | none =>
      refine .pure ⟨rfl, inv.busy ?_ ?_⟩
      · exact fun ctx => freeContext_none free
      · intro other mem
        simpa using find?_eq_none.mp out other mem
    | some outTh =>
      have mem := mem_of_find?_eq_some out
      have masked := find?_some out
      obtain ⟨alive, isOut⟩ := (inv.queues.out outTh).mp mem
      have owned := owner_out (inv.queues.notMem_run outTh (by simp [isOut])) mem
      have differs : th ≠ outTh := fun same => notOut (same ▸ isOut)
      have placement : Placement none { sched with outQueue := sched.outQueue.erase outTh } :=
        { inv.placement with }
      have taken := deschedule_eq placement .blocked alive (.inr isOut) (by simp)
      simp only [removeOut_eq owned, ok_bind]
      rw [taken]
      refine .check masked ?_
      exact .pure ⟨inv.steal mem, ⟨others_of_update (.inr (.inl ⟨isOut, rfl⟩))
        fun _ _ => rfl, fun _ => id, rfl, rfl, rfl, rfl⟩, by simp [differs], rfl, rfl⟩

theorem schedContext_spec (sched : Scheduler lastCore) (ctx : Cid lastCore) :
    Gives (sched.schedContext ctx) (fun res =>
        match res.1 with
        | some th =>
          th ∈ sched.runQueue ∧ sched.mask th ctx = true ∧ res.2 =
              { sched with runQueue := sched.runQueue.erase th }
        | none =>
          res.2 = sched ∧ ∀ th ∈ sched.runQueue, sched.mask th ctx = false) := by
  rw [schedContext]
  cases found : sched.runQueue.find? (fun th => sched.mask th ctx) with
  | none =>
    refine .pure ⟨rfl, fun th mem => ?_⟩
    simpa using find?_eq_none.mp found th mem
  | some th =>
    have mem := mem_of_find?_eq_some found
    simp only [removeRun_eq (owner_run mem)]
    have masked := find?_some found
    exact .pure ⟨mem, masked, rfl⟩

/-! ## Joining -/

/-- The invariant holds, and the other threads stand by. -/
structure Kept
    (th : Ptr) (lost : Set Ptr) (phase : Nat) (sched next : Scheduler lastCore) : Prop where
  inv : Inv none lost phase next
  frame : Frame th sched next
  handoff : next.handoffThread = sched.handoffThread

/-- A thread in hand takes the context that it is offered. -/
theorem Offered.schedule {picked : Scheduler lastCore}
    (offered : Offered th ctx (insert th lost) phase sched picked) (alive : sched.alive th = true)
    (ready : sched.state th = .started ∨ sched.state th = .blocked ∨ sched.state th = .queued)
    (unqueued : th ∉ sched.runQueue) (unclaimed : sched.Unclaimed th) :
    Gives (picked.schedule th ctx) (Kept th lost phase sched) := by
  rw [← offered.state] at ready
  rw [← offered.runQueue] at unqueued
  rw [Unclaimed, ← offered.handoff, ← offered.frame.alive] at unclaimed
  rw [← offered.frame.alive] at alive
  rw [schedule_eq offered.inv.placement ready]
  exact .ok ⟨offered.inv.place alive ready unqueued unclaimed,
    offered.frame.trans (.own rfl rfl rfl rfl rfl rfl), offered.handoff⟩

section

variable (inv : Inv none lost phase sched)
include inv

theorem joinBlocked_spec (alive : sched.alive th = true)
    (ready : sched.state th = .blocked ∨ sched.state th = .started) :
    Gives (sched.joinBlocked th) (Kept th lost phase sched) := by
  have notOut : sched.state th ≠ .out := by
    rcases ready with state | state <;> simp [state]
  have notQueued : sched.state th ≠ .queued := by
    rcases ready with state | state <;> simp [state]
  have notRunning : sched.state th ≠ .running := by
    rcases ready with state | state <;> simp [state]
  have asleep : th ∉ sched.sleepQueue := by
    rcases ready with state | state <;> simp [inv.queues.sleeping, state]
  have outside : th ∉ sched.outQueue := by simp [inv.queues.out, notOut]
  have unqueued := inv.queues.notMem_run th notQueued
  have unclaimed := inv.handoffs.unclaimed th (.inl notQueued)
  refine .check ready ?_
  apply (schedThread_spec inv notOut).bind
  rintro ⟨ctx, picked⟩ result
  cases ctx with
  | some ctx =>
    have offered : Offered th ctx lost phase sched picked := result
    exact { offered with inv := offered.inv.mono (Set.subset_insert th lost) }.schedule alive
      (by rcases ready with state | state <;> simp [state]) unqueued unclaimed
  | none =>
    obtain ⟨same, busy⟩ := result
    obtain rfl : picked = sched := same
    have owned : (picked.setState th .queued).owner th = none := owner_none unqueued outside asleep
    have queued := inv.queue alive ready.symm
    have waiting := queued.enqueue alive (by simp)
      unqueued unclaimed (by
        intro core masked
        obtain ⟨cur, found, runs⟩ := busy core masked
        have eq : cur ≠ th := fun eq => notRunning (eq ▸ runs)
        exact ⟨cur, found, by simpa [eq] using runs⟩)
    simp only [waitInRunQueue_eq owned]
    exact .ok ⟨waiting, .own rfl rfl rfl rfl rfl rfl, rfl⟩

theorem endSleep_spec (alive : sched.alive th = true) (sleeping : sched.state th = .sleeping) :
    Gives (sched.endSleep th)
      (fun next => Kept th lost phase sched next ∧ next.state th = .blocked) := by
  have mem := (inv.queues.sleeping th).mpr ⟨alive, sleeping⟩
  have owned := owner_sleep (inv.queues.notMem_run th (by simp [sleeping]))
    (by simp [inv.queues.out, sleeping]) mem
  rw [endSleep, removeSleep_eq owned]
  exact .pure ⟨⟨inv.endSleep sleeping alive, .own rfl rfl rfl rfl rfl rfl, rfl⟩, by simp⟩

omit inv in
theorem lookup_eq (found : sched.gidMap gid = some th) : sched.lookup gid = .ok th := by
  rw [lookup, found]

theorem join_spec (found : sched.gidMap gid = some th)
    (ready : sched.state th = .started ∨ sched.state th = .blocked ∨
      sched.state th = .out ∨ sched.state th = .sleeping) :
    Gives (sched.join gid) (Kept th lost phase sched) := by
  have alive := (inv.gids.named gid th found).1
  have notRunning : sched.state th ≠ .running := by
    rcases ready with state | state | state | state <;> simp [state]
  rw [join, lookup_eq found]
  refine .check (inv.notMarked alive notRunning) ?_
  split
  case isTrue sleeping =>
    apply (endSleep_spec inv alive sleeping).bind
    rintro awake ⟨kept, blocked⟩
    have aliveAwake : awake.alive th = true := by
      rwa [kept.frame.alive]
    apply (joinBlocked_spec kept.inv aliveAwake (.inl blocked)).mono
    intro next joined
    exact ⟨joined.inv, kept.frame.trans joined.frame, joined.handoff.trans kept.handoff⟩
  case isFalse notSleeping =>
    split
    case isTrue out =>
      have mem := (inv.queues.out th).mpr ⟨alive, out⟩
      have owned : (sched.setState th .running).owner th = some .out :=
        owner_out (inv.queues.notMem_run th (by simp [out])) mem
      rw [removeOut_eq owned]
      exact .ok ⟨inv.comeBack out, .own rfl rfl rfl rfl rfl rfl, rfl⟩
    case isFalse notOut =>
      apply joinBlocked_spec inv alive
      simpa [notSleeping, notOut, or_comm] using ready

/-! ## Leaving -/

omit inv in
/-- A thread in hand takes the open context and is woken. -/
theorem refill_spec {inTh : Ptr} (inv : Inv (some ctx) (insert inTh lost) phase sched)
    (alive : sched.alive inTh = true) (queued : sched.state inTh = .queued)
    (unqueued : inTh ∉ sched.runQueue) (unclaimed : sched.Unclaimed inTh)
    (armed : sched.futexWord inTh = 1) :
    sched.refill inTh ctx = .ok { sched.place inTh ctx with
          futexWord := update sched.futexWord inTh 0 } ∧
      Inv none lost phase { sched.place inTh ctx with
        futexWord := update sched.futexWord inTh 0 } := by
  have unmarked := inv.notMarked alive (by simp [queued])
  have placed := inv.place alive (by simp [queued]) unqueued unclaimed
  constructor
  · rw [refill, schedule_eq inv.placement (by simp [queued]), ok_bind, wakeup]
    simp [armed]
  · exact placed.setFutex inTh 0 (.inr ⟨by simp, unmarked⟩)

omit inv in
/-- A thread of the run queue takes the open context. -/
theorem refill_queued (inv : Inv (some ctx) lost phase sched) {inTh : Ptr}
    (mem : inTh ∈ sched.runQueue) :
    Gives (refill inTh ctx { sched with runQueue := sched.runQueue.erase inTh }) (fun next =>
        Inv none lost phase next ∧ Aside sched next ∧
          next.handoffThread = sched.handoffThread) := by
  obtain ⟨alive, queued⟩ := inv.queues.queued inTh mem
  have unqueued := inv.queues.run_nodup.not_mem_erase (a := inTh)
  have unclaimed := inv.handoffs.unclaimed inTh (.inr mem)
  have armed := inv.waits.queued inTh mem
  obtain ⟨returns, kept⟩ := refill_spec (inv.dequeue inTh) alive queued unqueued unclaimed armed
  rw [returns]
  exact .ok ⟨kept, fun th => ⟨others_of_update (.inr (.inr (.inl ⟨queued, rfl⟩)))
    fun _ _ => rfl, fun _ => id, rfl, rfl, rfl, rfl⟩, rfl⟩

variable (alive : sched.alive th = true)
include alive

theorem leaveToSleep_spec (running : sched.state th = .running)
    (marked : sched.markedForSleep th = true) (later : phase ≤ sched.wakeupPhase th) :
    Gives (sched.leaveToSleep th (sched.cid th)) (Kept th lost phase sched) := by
  have asleep := inv.sleep alive running marked later
  have placement : Placement none { sched with
      markedForSleep := update sched.markedForSleep th false } :=
    { inv.placement with }
  have frame : Frame th sched { sched.vacate th (sched.cid th) .sleeping with
      markedForSleep := update sched.markedForSleep th false
      sleepQueue := sleepInsert sched.wakeupPhase th sched.sleepQueue } :=
    { others := fun other differs =>
        .inl (by simp [differs])
      marked := fun other now => by
        by_cases eq : other = th
        · simp [eq] at now
        · simpa [eq] using now
      alive := rfl
      gidMap := rfl
      curPhase := rfl
      wakeupPhase := rfl }
  have unowned : owner th (vacate th (sched.cid th) .sleeping { sched with
      markedForSleep := update sched.markedForSleep th false }) = none :=
    inv.unowned running
  rw [leaveToSleep]
  simp only [deschedule_eq placement .sleeping alive (.inl running) (by simp),
    ok_bind, pushSleep, check_true _ unowned, pure_bind]
  apply (schedContext_spec _ _).bind
  rintro ⟨inTh, picked⟩ result
  cases inTh with
  | some inTh =>
    obtain ⟨mem, -, rfl⟩ := result
    apply (refill_queued asleep mem).mono
    rintro next ⟨invNext, aside, handoff⟩
    exact ⟨invNext, frame.trans (aside th), handoff⟩
  | none =>
    obtain ⟨rfl, unwanted⟩ := result
    refine .check (asleep.placement.hole_free _ rfl) ?_
    exact .pure ⟨asleep.giveFree unwanted, { frame with }, rfl⟩

theorem leaveContext_spec (running : sched.state th = .running)
    (unmarked : sched.markedForSleep th = false) :
    Gives (sched.leaveContext th (sched.cid th)) (fun next =>
        Kept th lost phase sched next ∧ (next.state th = .out ∨ next.state th = .blocked)) := by
  apply (schedContext_spec _ _).bind
  rintro ⟨inTh, picked⟩ result
  cases inTh with
  | some inTh =>
    obtain ⟨mem, -, rfl⟩ := result
    have open_ := inv.vacate .blocked alive running unmarked (by simp)
    have placement : Placement none { sched with runQueue := sched.runQueue.erase inTh } :=
      { inv.placement with }
    simp only [deschedule_eq placement .blocked alive (.inl running) (by simp)]
    have frame : Frame th sched (sched.vacate th (sched.cid th) .blocked) :=
      .own rfl rfl rfl rfl rfl rfl
    apply (refill_queued open_ mem).mono
    rintro next ⟨invNext, aside, handoff⟩
    have blocked := aside.state th
    simp [Bystands] at blocked
    exact ⟨⟨invNext, frame.trans (aside th), handoff⟩, .inr blocked⟩
  | none =>
    obtain ⟨same, unwanted⟩ := result
    obtain rfl : picked = sched := same
    have unowned : owner th (setState th .out picked) = none := inv.unowned running
    refine .check unowned ?_
    exact .pure ⟨⟨inv.goOut alive running unmarked unwanted, .own rfl rfl rfl rfl rfl rfl, rfl⟩,
        .inl (by simp)⟩

theorem leave_spec (named : sched.gid th = gid) (running : sched.state th = .running)
    (later : sched.markedForSleep th = true → phase ≤ sched.wakeupPhase th) :
    Gives (sched.leave gid (sched.cid th)) (fun next =>
        Kept th lost phase sched next ∧ (sched.markedForSleep th = false →
            next.state th = .out ∨ next.state th = .blocked)) := by
  have found := (inv.placement.placed th alive).mp (.inl running)
  rw [leave, found]
  refine .check named ?_
  refine .check running ?_
  split
  case isTrue marked =>
    exact (leaveToSleep_spec inv alive running marked (later marked)).mono
      fun _ kept => ⟨kept, by simp [marked]⟩
  case isFalse unmarked =>
    exact (leaveContext_spec inv alive running (by simpa using unmarked)).mono
      fun _ res => ⟨res.1, fun _ => res.2⟩

end

/-! ## Handing off -/

/-- A thread that has given up its context is queued and in hand. -/
structure InHand (th : Ptr) (lost : Set Ptr) (phase : Nat) (sched : Scheduler lastCore) : Prop where
  inv : Inv none (insert th lost) phase sched
  alive : sched.alive th = true
  queued : sched.state th = .queued
  unqueued : th ∉ sched.runQueue
  unclaimed : sched.Unclaimed th

theorem reschedule_spec (inHand : InHand th lost phase sched) :
    Gives (sched.reschedule th) (Kept th lost phase sched) := by
  have queued := inHand.queued
  apply (schedThread_spec inHand.inv (by simp [queued])).bind
  rintro ⟨ctx, picked⟩ result
  cases ctx with
  | some ctx =>
    have offered : Offered th ctx (insert th lost) phase sched picked := result
    exact offered.schedule inHand.alive (by simp [queued]) inHand.unqueued inHand.unclaimed
  | none =>
    obtain ⟨same, busy⟩ := result
    obtain rfl : picked = sched := same
    have owned : picked.owner th = none := owner_none inHand.unqueued
        (by simp [inHand.inv.queues.out, queued])
        (by simp [inHand.inv.queues.sleeping, queued])
    have waiting := inHand.inv.enqueue inHand.alive queued inHand.unqueued inHand.unclaimed busy
    simp only [waitInRunQueue_eq owned]
    exact .ok ⟨waiting, { Frame.refl th picked with }, rfl⟩

section

variable (inv : Inv none lost phase sched)
include inv

section

variable (alive : sched.alive th = true) (running : sched.state th = .running)
  (unmarked : sched.markedForSleep th = false)
include alive running unmarked

/-- The thread gives its context to the target of its handoff. -/
theorem transfer_spec {dst : Ptr} (pending : sched.handoffThread th = some dst) :
    Gives (sched.transfer th dst) (fun next =>
        InHand th lost phase next ∧ Frame th sched next ∧
          next.handoffThread = update sched.handoffThread th none) := by
  have target := inv.handoffs.target th dst alive pending
  have differs : dst ≠ th := by
    rintro rfl
    simp [running] at target
  have unclaimed := inv.handoffs.unclaimed th (by simp [running])
  have unqueued := inv.queues.notMem_run th (by simp [running])
  have placement : Placement none { sched with
      handoffThread := update sched.handoffThread th none } :=
    { inv.placement with }
  have cleared := (inv.clearHandoff pending).mono
    (Set.insert_subset_insert (Set.subset_insert th lost))
  have vacated := cleared.vacate .queued alive running unmarked (.inr ⟨rfl, by simp⟩)
  have others : ∀ other, sched.alive other = true →
      ∀ claim, update sched.handoffThread th none other = some claim →
        other ≠ th ∧ sched.handoffThread other = some claim := by
    intro other alive' claim claimed
    by_cases eq : other = th
    · simp [eq] at claimed
    · exact ⟨eq, by simpa [eq] using claimed⟩
  have dstUnclaimed : Unclaimed dst { sched with
      handoffThread := update sched.handoffThread th none } := by
    intro other alive' claimed
    obtain ⟨notTh, before⟩ := others other alive' dst claimed
    exact notTh (inv.handoffs.unique other th dst alive' alive before pending)
  rcases refill_spec vacated target.1 (by simpa [differs] using target.2.1)
    target.2.2.1 dstUnclaimed target.2.2.2 with ⟨refills, refilled⟩
  simp only [transfer, deschedule_eq placement .queued alive (.inl running) (by simp), ok_bind]
  rw [refills]
  refine .ok ⟨⟨refilled, alive, by simp [differs.symm], unqueued, fun other alive' claimed =>
      unclaimed other alive' (others other alive' th claimed).2⟩,
      ⟨others_of_update (.inr (.inr (.inl ⟨target.2.1, rfl⟩))) fun one notTh => ?_,
        fun _ => id, rfl, rfl, rfl, rfl⟩, rfl⟩
  by_cases eq : one = dst <;> simp [eq, notTh]

theorem handoff_spec : Gives (sched.handoff th) (fun next =>
        Inv none lost phase next ∧ Frame th sched next ∧
          next.handoffThread = update sched.handoffThread th none) := by
  rw [handoff]
  cases pending : sched.handoffThread th with
  | none =>
    refine .check running ?_
    refine .pure ⟨inv, Frame.refl th sched, ?_⟩
    rw [← pending, update_eq_self]
  | some dst =>
    have target := inv.handoffs.target th dst alive pending
    refine .check target.1 ?_
    apply (transfer_spec inv alive running unmarked pending).bind
    rintro transferred ⟨inHand, frame, cleared⟩
    apply (reschedule_spec inHand).mono
    intro next kept
    exact ⟨kept.inv, frame.trans kept.frame, kept.handoff.trans cleared⟩

end

/-! ## The end of a phase -/

omit inv in
theorem shuffled_perm (draws : Draws) (i : Nat) (avail : List (Cid lastCore)) :
    (shuffled draws i avail).Perm avail := by
  induction i generalizing avail with
  | zero => exact List.Perm.refl _
  | succ i ih =>
    rw [shuffled]
    split
    case h_1 last drawn first second =>
      exact (ih _).trans (exchange_perm first second)
    case h_2 => exact List.Perm.refl _

theorem wakeSleeper_spec {rest : List Ptr} (queue : sched.sleepQueue = th :: rest) :
    let woken := { sched.setState th .blocked with
      futexWord := update sched.futexWord th 0
      sleepQueue := rest }
    (sched.setState th .blocked).wakeup th >>= removeSleep th = .ok woken ∧
      Inv none lost phase woken ∧ Aside sched woken := by
  have mem : th ∈ sched.sleepQueue := by simp [queue]
  have erased : sched.sleepQueue.erase th = rest := by simp [queue]
  obtain ⟨alive, sleeping⟩ := (inv.queues.sleeping th).mp mem
  have sleepingNow : sched.state th = .sleeping := sleeping
  have unmarked := inv.notMarked alive (by simp [sleepingNow])
  have armed : sched.futexWord th = 1 := (inv.waits.sleeping th alive sleeping).1
  have blocked := inv.endSleep sleeping alive
  have awake := blocked.setFutex th 0 (.inr ⟨by simp, unmarked⟩)
  have notRun := inv.queues.notMem_run th (by simp [sleepingNow])
  have notOut : th ∉ sched.outQueue := by
    intro out
    have state := ((inv.queues.out th).mp out).2
    simp [sleepingNow] at state
  have owned : owner th { sched.setState th .blocked with
      futexWord := update sched.futexWord th 0 } = some .sleep :=
    owner_sleep notRun notOut mem
  refine ⟨?_, ?_, fun acting => ⟨others_of_update (.inr (.inr (.inr ⟨sleepingNow, rfl⟩)))
    fun _ _ => rfl, fun _ => id, rfl, rfl, rfl, rfl⟩⟩
  · have wakes : (sched.setState th .blocked).wakeup th = .ok { sched.setState th .blocked with
          futexWord := update sched.futexWord th 0 } := by simp [wakeup, armed]
    rw [wakes, ok_bind, removeSleep_eq owned]
    simp only [Scheduler.setState, erased]
  · simp only [erased] at awake
    exact awake

/-- The phase counts only for the threads that sleep. -/
theorem Inv.wakeFrom {due : Nat} (later : ∀ th ∈ sched.sleepQueue, due ≤ sched.wakeupPhase th) :
    Inv none lost due sched :=
  { inv with
    waits :=
      { inv.waits with
        sleeping := fun th alive sleeping =>
          ⟨(inv.waits.sleeping th alive sleeping).1,
            later th ((inv.queues.sleeping th).mpr ⟨alive, sleeping⟩)⟩ } }

end

theorem wakeSleepers_spec (sched : Scheduler lastCore) {queue : List Ptr}
    (inv : Inv none lost phase sched) (phases : sched.curPhase = phase)
    (sleepers : sched.sleepQueue = queue) :
    Gives (wakeSleepers queue sched) (fun next =>
        Inv none lost (phase + 1) next ∧ Aside sched next ∧
          next.handoffThread = sched.handoffThread ∧
          ∀ th, next.state th = .running → sched.state th = .running) := by
  induction queue generalizing sched with
  | nil =>
    exact .pure ⟨inv.wakeFrom (by simp [sleepers]), fun th => Frame.refl th sched, rfl, fun _ => id⟩
  | cons th rest ih =>
    have mem : th ∈ sched.sleepQueue := by simp [sleepers]
    obtain ⟨alive, sleeping⟩ := (inv.queues.sleeping th).mp mem
    have bound : phase ≤ sched.wakeupPhase th := (inv.waits.sleeping th alive sleeping).2
    rw [wakeSleepers]
    split
    case isTrue due =>
      obtain ⟨returns, kept, aside⟩ := wakeSleeper_spec inv sleepers
      refine .check (by omega) ?_
      rw [← bind_assoc, returns]
      refine .mono (ih _ kept phases rfl) ?_
      rintro next ⟨invNext, asideNext, handoff, running⟩
      refine ⟨invNext, fun other => (aside other).trans (asideNext other),
        handoff, fun other runs => ?_⟩
      have before := running other runs
      by_cases eq : other = th
      · simp [eq] at before
      · simpa [eq] using before
    case isFalse notDue =>
      refine .pure ⟨inv.wakeFrom ?_, fun th => Frame.refl th sched, rfl, fun _ => id⟩
      have ordered := inv.queues.ordered
      rw [sleepers, pairwise_cons] at ordered
      rw [phases, not_le] at notDue
      rw [sleepers]
      exact forall_mem_cons.mpr ⟨notDue, fun other behind =>
        notDue.trans_le (ordered.1 other behind)⟩

/-- The threads on the contexts still available have no target to lose. -/
def Spare (avail : List (Cid lastCore)) (lost : Set Ptr) (sched : Scheduler lastCore) : Prop :=
  ∀ ctx ∈ avail, ∀ th dst, sched.curThread ctx = some th →
    sched.handoffThread th = some dst → dst ∈ lost

/-- What `schedTick` does: running threads get targets. -/
structure Ticked (lost : Set Ptr) (phase : Nat) (sched next : Scheduler lastCore) : Prop where
  inv : Inv none lost phase next
  state : next.state = sched.state
  alive : next.alive = sched.alive
  gidMap : next.gidMap = sched.gidMap
  curPhase : next.curPhase = sched.curPhase
  wakeupPhase : next.wakeupPhase = sched.wakeupPhase
  marked : next.markedForSleep = sched.markedForSleep
  victims : ∀ th, next.handoffThread th ≠ sched.handoffThread th →
    sched.alive th = true ∧ sched.state th = .running

theorem schedTickLoop_spec {queue : List Ptr} {avail : List (Cid lastCore)}
    (inv : Inv none lost phase sched) (spare : Spare avail lost sched)
    (nodup : queue.Nodup) (queued : ∀ th ∈ queue, th ∈ sched.runQueue) (ne : avail.Nodup) :
    Gives (schedTickLoop queue avail sched) (Ticked lost phase sched) := by
  induction queue generalizing avail sched with
  | nil =>
    exact .pure ⟨inv, rfl, rfl, rfl, rfl, rfl, rfl, fun _ differs =>
      absurd rfl differs⟩
  | cons th rest ih =>
    rw [nodup_cons] at nodup
    rw [schedTickLoop]
    cases found : avail.find? (sched.mask th) with
    | none =>
      exact ih inv spare nodup.2 (fun other mem => queued other (mem_cons_of_mem th mem)) ne
    | some ctx =>
      have mem := queued th mem_cons_self
      have masked := find?_some found
      have available := mem_of_find?_eq_some found
      obtain ⟨victimTh, current, running⟩ := inv.conserving th mem ctx masked (by simp)
      have here := inv.placement.occupant ctx victimTh current
      have assigned := inv.assign mem here.1 fun dst =>
        spare ctx available victimTh dst current
      have owned : owner th { sched with
          handoffThread := update sched.handoffThread victimTh (some th) } =
          some .run :=
        owner_run mem
      simp only [current, removeRun_eq owned]
      have spareNext : Spare (avail.erase ctx) lost { sched with
          handoffThread := update sched.handoffThread victimTh (some th)
          runQueue := sched.runQueue.erase th } := by
        intro core insideCore other dst found' pending
        rw [ne.mem_erase_iff] at insideCore
        have notVictim : other ≠ victimTh := by
          rintro rfl
          have there := inv.placement.occupant core other found'
          exact insideCore.1 (there.2.symm.trans here.2)
        simp only [update_of_ne notVictim] at pending
        exact spare core insideCore.2 other dst found' pending
      apply (ih assigned spareNext nodup.2 (fun other later => ?_) (ne.erase ctx)).mono
      · intro next ticked
        refine ⟨ticked.inv, ticked.state, ticked.alive, ticked.gidMap,
          ticked.curPhase, ticked.wakeupPhase, ticked.marked,
          fun other differs => ?_⟩
        by_cases eq : other = victimTh
        · rw [eq]
          exact ⟨here.1, running⟩
        · apply ticked.victims other
          simpa [eq] using differs
      · have notTh : other ≠ th := fun eq => nodup.1 (eq ▸ later)
        exact (mem_erase_of_ne notTh).mpr (queued other (mem_cons_of_mem th later))

/-- What the end of a phase does. -/
structure PhaseEnded (lost : Set Ptr) (sched next : Scheduler lastCore) : Prop where
  inv : Inv none lost (next.curPhase + 1) next
  aside : Aside { sched with curPhase := sched.curPhase + 1 } next
  victims : ∀ th, next.handoffThread th ≠ sched.handoffThread th →
    sched.alive th = true ∧ sched.state th = .running

theorem Inv.occupancy (inv : Inv none lost phase sched) :
    sched.scheduledThreads ≤ lastCore + 1 := by
  rw [inv.placement.counted]
  exact (Finset.card_le_univ _).trans_eq (Fintype.card_fin _)

theorem callback_spec (inv : Inv none lost (sched.curPhase + 1) sched) (schedQuantum : Nat)
    (draws : Draws)
    (spare : ∀ th dst, sched.alive th = true → sched.handoffThread th = some dst → dst ∈ lost) :
    Gives (sched.callback schedQuantum draws) (PhaseEnded lost sched) := by
  refine .check inv.occupancy ?_
  have before : Inv none lost (sched.curPhase + 1) { sched with curPhase := sched.curPhase + 1 } :=
    { placement := { inv.placement with }
      queues := { inv.queues with }
      conserving := inv.conserving
      waits := { inv.waits with }
      handoffs := { inv.handoffs with }
      covered := inv.covered
      gids := { inv.gids with } }
  apply (wakeSleepers_spec { sched with curPhase := sched.curPhase + 1 } before rfl rfl).bind
  rintro woken ⟨invWoken, aside, handoff, running⟩
  have sameHandoff : woken.handoffThread = sched.handoffThread := handoff
  have sameAlive : woken.alive = sched.alive := (aside 0).alive
  have phases : woken.curPhase = sched.curPhase + 1 := (aside 0).curPhase
  rw [← phases] at invWoken
  have unchanged : PhaseEnded lost sched woken := ⟨invWoken, aside, fun th differs =>
      absurd (congrFun sameHandoff th) differs⟩
  split
  case isTrue => exact .pure unchanged
  case isFalse =>
    split
    case isFalse => exact .pure unchanged
    case isTrue =>
      have perm := shuffled_perm draws lastCore (finRange (lastCore + 1))
      have spareWoken : Spare (shuffled draws lastCore (finRange (lastCore + 1))) lost woken := by
        intro ctx _ th dst found pending
        have alive := (invWoken.placement.occupant ctx th found).1
        rw [sameAlive] at alive
        rw [sameHandoff] at pending
        exact spare th dst alive pending
      apply (schedTickLoop_spec invWoken spareWoken invWoken.queues.run_nodup (fun _ mem => mem)
        (perm.symm.nodup (nodup_finRange _))).mono
      intro next ticked
      refine ⟨?_, fun th => ⟨fun other differs => ?_,
        fun other now => ?_, ?_, ?_, ?_, ?_⟩, fun th differs => ?_⟩
      · rw [ticked.curPhase]
        exact ticked.inv
      · rw [ticked.state]
        exact (aside th).others other differs
      · rw [ticked.marked] at now
        exact (aside th).marked other now
      · exact ticked.alive.trans (aside th).alive
      · exact ticked.gidMap.trans (aside th).gidMap
      · exact ticked.curPhase.trans (aside th).curPhase
      · exact ticked.wakeupPhase.trans (aside th).wakeupPhase
      · rw [← sameHandoff] at differs
        obtain ⟨alive, runs⟩ := ticked.victims th differs
        rw [sameAlive] at alive
        exact ⟨alive, running th runs⟩

end Scheduler

end Damov.Scheduling
