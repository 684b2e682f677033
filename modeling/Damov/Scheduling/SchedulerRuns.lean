import Damov.Scheduling.SchedulerOperations

/-!
# Runs of the scheduler

Operations that respect the preconditions of the code keep the scheduler
consistent, in any order. In particular the scheduler never leaves a thread in
the run queue while a context of its mask is idle or held by a thread that is
out, so the victims of `schedTick` are running threads.
-/

namespace Damov.Scheduling

open Library.Checked Library.Counting Function

namespace Scheduler

variable {lastCore : Nat} {sched next : Scheduler lastCore}
variable {lost : Set Ptr} {phase : Nat}

/-! ## Starting, marking and finishing -/

variable {gid : Gid} {th : Ptr}

section

variable (inv : Inv none lost phase sched)
include inv

theorem start_spec {mask : Cid lastCore → Bool}
    (unused : sched.gidMap gid = none) (nonempty : ∃ ctx, mask ctx = true) :
    Gives (sched.start gid mask) (Inv none lost phase) := by
  refine .check unused ?_
  refine .check nonempty ?_
  exact .pure (inv.create gid mask)

theorem markForSleep_spec (wakeupPhase : Nat)
    (found : sched.gidMap gid = some th) (running : sched.state th = .running)
    (unmarked : sched.markedForSleep th = false) :
    Gives (sched.markForSleep gid wakeupPhase) (fun next =>
        Inv none lost phase next ∧ next = { sched with
            markedForSleep := update sched.markedForSleep th true
            wakeupPhase := update sched.wakeupPhase th wakeupPhase
            futexWord := update sched.futexWord th 1 }) := by
  have alive := (inv.gids.named gid th found).1
  rw [markForSleep, lookup_eq found]
  refine .check unmarked ?_
  exact .pure ⟨inv.mark alive running wakeupPhase, rfl⟩

theorem notifySleepEnd_spec (found : sched.gidMap gid = some th)
    (idle : sched.state th = .sleeping ∨ sched.state th = .blocked) :
    Gives (sched.notifySleepEnd gid) (Kept th lost phase sched) := by
  have alive := (inv.gids.named gid th found).1
  have notRunning : sched.state th ≠ .running := by
    rcases idle with state | state <;> simp [state]
  rw [notifySleepEnd, lookup_eq found]
  refine .check (inv.notMarked alive notRunning) ?_
  refine .check idle ?_
  split
  case isTrue =>
    exact .pure ⟨inv, Frame.refl th sched, rfl⟩
  case isFalse notBlocked =>
    exact (endSleep_spec inv alive (idle.resolve_right notBlocked)).mono fun _ ended => ended.1

end

/-- What unlinking a thread from its list leaves. -/
structure Unlinked
    (th : Ptr) (lost : Set Ptr) (phase : Nat) (sched next : Scheduler lastCore) : Prop where
  inv : Inv none (insert th lost) phase next
  absent : next.state th ≠ .running ∧ next.state th ≠ .out ∧ next.state th ≠ .sleeping
  unqueued : th ∉ next.runQueue
  frame : Frame th sched next
  states : ∀ other, other ≠ th → next.state other = sched.state other
  handoff : next.handoffThread = sched.handoffThread

/-- A context of a thread that is out is of no use to queued threads. -/
theorem Inv.out_unwanted (inv : Inv none lost phase sched)
    (alive : sched.alive th = true) (out : sched.state th = .out) :
    ∀ other ∈ sched.runQueue, sched.mask other (sched.cid th) = false := by
  intro other mem
  rw [← Bool.not_eq_true]
  intro masked
  obtain ⟨cur, found, running⟩ := inv.conserving other mem _ masked (by simp)
  rw [(inv.placement.placed th alive).mp (.inr out), Option.some.injEq] at found
  simp [← found, out] at running

theorem unlink_spec (inv : Inv none lost phase sched) (alive : sched.alive th = true)
    (state : sched.state th = .started ∨ sched.state th = .out ∨ sched.state th = .blocked ∨
      sched.state th = .queued ∧ th ∈ sched.runQueue) :
    Gives (sched.unlink th) (Unlinked th lost phase sched) := by
  have more := inv.mono (Set.subset_insert th lost)
  rw [unlink]
  split
  case isTrue queued =>
    have mem : th ∈ sched.runQueue := by simpa [queued] using state
    refine .check (owner_run mem) ?_
    rw [removeRun_eq (owner_run mem)]
    exact .ok
      { inv := inv.dequeue th
        absent := by simp [queued]
        unqueued := inv.queues.run_nodup.not_mem_erase
        frame := { Frame.refl th sched with }
        states := fun _ _ => rfl
        handoff := rfl }
  case isFalse notQueued =>
    have unqueued := inv.queues.notMem_run th notQueued
    by_cases out : sched.state th = .out
    · have mem := (inv.queues.out th).mpr ⟨alive, out⟩
      have owned := owner_out unqueued mem
      have placement : Placement none { sched with outQueue := sched.outQueue.erase th } :=
        { inv.placement with }
      have stolen := more.steal mem
      rw [if_neg (by simp [owned])]
      refine .check owned ?_
      simp only [removeOut_eq owned, ok_bind]
      simp only [deschedule_eq placement .blocked alive (.inr out) (by simp)]
      refine .check (stolen.placement.hole_free _ rfl) ?_
      exact .pure
        { inv := stolen.giveFree (inv.out_unwanted alive out)
          absent := by simp [Scheduler.vacate]
          unqueued := unqueued
          frame := .own rfl rfl rfl rfl rfl rfl
          states := fun other differs => by simp [Scheduler.vacate, differs]
          handoff := rfl }
    · have awake : sched.state th ≠ .running ∧ sched.state th ≠ .sleeping := by
        rcases state with same | same | same | same <;> simp_all
      have unowned : sched.owner th = none := owner_none unqueued (by simp [inv.queues.out, out])
          (by simp [inv.queues.sleeping, awake])
      rw [if_pos unowned]
      exact .pure
        { inv := more
          absent := ⟨awake.1, out, awake.2⟩
          unqueued := unqueued
          frame := Frame.refl th sched
          states := fun _ _ => rfl
          handoff := rfl }

/-- What the end of a thread leaves. -/
structure Ended
    (th : Ptr) (lost : Set Ptr) (phase : Nat) (sched next : Scheduler lastCore) : Prop where
  inv : Inv none lost phase next
  alive : next.alive = update sched.alive th false
  states : ∀ other, other ≠ th → next.state other = sched.state other
  marked : ∀ other, next.markedForSleep other = true → sched.markedForSleep other = true
  gidMap : next.gidMap = sched.gidMap
  curPhase : next.curPhase = sched.curPhase
  wakeupPhase : next.wakeupPhase = sched.wakeupPhase
  handoff : next.handoffThread = sched.handoffThread

theorem finishEnd_spec (inv : Inv none lost phase sched) (alive : sched.alive th = true)
    (state : sched.state th = .started ∨ sched.state th = .out ∨ sched.state th = .blocked ∨
      sched.state th = .queued ∧ th ∈ sched.runQueue)
    (noTarget : sched.handoffThread th = none) (unnamed : ∀ gid, sched.gidMap gid ≠ some th) :
    Gives (sched.finishEnd th) (Ended th lost phase sched) := by
  have unclaimed : sched.Unclaimed th := by
    apply inv.handoffs.unclaimed
    rcases state with same | same | same | ⟨-, mem⟩
    · exact .inl (by simp [same])
    · exact .inl (by simp [same])
    · exact .inl (by simp [same])
    · exact .inr mem
  refine .check (state.imp_right (Or.imp_right (Or.imp_right And.left))) ?_
  apply (unlink_spec inv alive state).bind
  intro unlinked res
  refine .pure
    { inv := res.inv.delete res.absent res.unqueued ?_ ?_ ?_
      alive := by rw [res.frame.alive]
      states := res.states
      marked := res.frame.marked
      gidMap := res.frame.gidMap
      curPhase := res.frame.curPhase
      wakeupPhase := res.frame.wakeupPhase
      handoff := res.handoff }
  · rwa [Unclaimed, res.handoff, res.frame.alive]
  · simp [res.handoff, noTarget]
  · rwa [res.frame.gidMap]

/-! ## Runs -/

inductive Op (lastCore : Nat) where
  | start (gid : Gid) (mask : Cid lastCore → Bool)
  | join (gid : Gid)
  | leave (gid : Gid) (cid : Cid lastCore)
  | markForSleep (gid : Gid) (wakeupPhase : Nat)
  | notifySleepEnd (gid : Gid)
  | handoff (th : Ptr)
  | callback (draws : Draws)
  | finish (gid : Gid)

variable (schedQuantum : Nat)

def step (sched : Scheduler lastCore) : Op lastCore → Result lastCore
  | .start gid mask => sched.start gid mask
  | .join gid => sched.join gid
  | .leave gid cid => sched.leave gid cid
  | .markForSleep gid wakeupPhase => sched.markForSleep gid wakeupPhase
  | .notifySleepEnd gid => sched.notifySleepEnd gid
  | .handoff th => sched.handoff th
  | .callback draws => sched.callback schedQuantum draws
  | .finish gid => sched.finish gid

def run (ops : List (Op lastCore)) : Result lastCore := ops.foldlM (step schedQuantum) initial

/-- The preconditions of the operations. Threads join, leave, hand off and
wake up at the end of a phase as the code asserts it. A thread is marked for
sleep by itself, while it is running, and one that finishes takes no part in a
handoff. -/
def Allowed (sched : Scheduler lastCore) : Op lastCore → Prop
  | .start gid mask => sched.gidMap gid = none ∧ ∃ ctx, mask ctx = true
  | .join gid => ∃ th ∈ sched.gidMap gid, (sched.state th = .started ∨ sched.state th = .blocked ∨
        sched.state th = .out ∨ sched.state th = .sleeping)
  | .leave gid cid => ∃ th ∈ sched.curThread cid, sched.gid th = gid ∧ sched.state th = .running
  | .markForSleep gid _ => ∃ th ∈ sched.gidMap gid,
      sched.state th = .running ∧ sched.markedForSleep th = false
  | .notifySleepEnd gid => ∃ th ∈ sched.gidMap gid,
      (sched.state th = .sleeping ∨ sched.state th = .blocked)
  | .handoff th => sched.alive th = true ∧ sched.state th = .running ∧
      sched.markedForSleep th = false
  | .callback _ => ∀ th ∈ sched.sleepQueue, sched.curPhase < sched.wakeupPhase th
  | .finish gid => ∃ th ∈ sched.gidMap gid,
      (sched.state th = .started ∨ sched.state th = .out ∨ sched.state th = .blocked ∨
        sched.state th = .queued ∧ th ∈ sched.runQueue) ∧
      sched.handoffThread th = none

instance (sched : Scheduler lastCore) : DecidablePred sched.Allowed
  | .start _ _ | .join _ | .leave _ _ | .markForSleep _ _
  | .notifySleepEnd _ | .handoff _ | .callback _ | .finish _ => by
      dsimp only [Allowed]
      infer_instance

/-- What the scheduler keeps between its operations. -/
structure Consistent (sched : Scheduler lastCore) : Prop where
  placed : ∀ th, sched.alive th = true → ((sched.state th = .running ∨ sched.state th = .out) ↔
      sched.curThread (sched.cid th) = some th)
  occupant : ∀ ctx th, sched.curThread ctx = some th → sched.alive th = true ∧ sched.cid th = ctx
  idle : ∀ ctx, sched.ctxState ctx = .idle ↔ ctx ∈ sched.freeList
  free : ∀ ctx, ctx ∈ sched.freeList ↔ sched.curThread ctx = none
  out : ∀ th, th ∈ sched.outQueue ↔ sched.alive th = true ∧ sched.state th = .out
  sleeping : ∀ th, th ∈ sched.sleepQueue ↔ sched.alive th = true ∧ sched.state th = .sleeping
  lists : sched.freeList.Nodup ∧ sched.runQueue.Nodup ∧
    sched.outQueue.Nodup ∧ sched.sleepQueue.Nodup
  ordered : sched.sleepQueue.Pairwise fun first second =>
    sched.wakeupPhase first ≤ sched.wakeupPhase second
  counted : sched.scheduledThreads = population sched.ctxState .used
  conserving : ∀ th ∈ sched.runQueue, ∀ ctx, sched.mask th ctx = true → sched.ctxState ctx = .used ∧
      ∃ other, sched.curThread ctx = some other ∧ sched.state other = .running

theorem Inv.consistent (inv : Inv none lost phase sched) : Consistent sched := by
  have free (ctx) : ctx ∈ sched.freeList ↔ sched.curThread ctx = none := by
    simpa using (inv.placement.vacant ctx).symm
  refine {
    placed := inv.placement.placed
    occupant := inv.placement.occupant
    idle := fun ctx => (inv.placement.idle ctx).trans (free ctx).symm
    free := free
    out := inv.queues.out
    sleeping := inv.queues.sleeping
    lists := ⟨inv.placement.free_nodup, inv.queues.run_nodup,
      inv.queues.out_nodup, inv.queues.sleep_nodup⟩
    ordered := inv.queues.ordered
    counted := inv.placement.counted
    conserving := fun th mem ctx masked => ?_ }
  obtain ⟨other, found, running⟩ := inv.conserving th mem ctx masked (by simp)
  refine ⟨?_, other, found, running⟩
  cases state : sched.ctxState ctx with
  | used => rfl
  | idle => simp [(inv.placement.idle ctx).mp state] at found

theorem finish_spec (inv : Inv none lost phase sched) (found : sched.gidMap gid = some th)
    (state : sched.state th = .started ∨ sched.state th = .out ∨ sched.state th = .blocked ∨
      sched.state th = .queued ∧ th ∈ sched.runQueue)
    (noTarget : sched.handoffThread th = none) :
    Gives (sched.finish gid)
      (Ended th lost phase { sched with gidMap := update sched.gidMap gid none }) := by
  obtain ⟨alive, named⟩ := inv.gids.named gid th found
  have notRunning : sched.state th ≠ .running := by
    rcases state with same | same | same | same <;> simp [same]
  rw [finish, lookup_eq found, ok_bind, if_neg notRunning]
  apply finishEnd_spec (inv.eraseGid gid) alive state noTarget
  intro name again
  have same : name ≠ gid := by
    rintro rfl
    simp at again
  simp only [update_of_ne same] at again
  exact same ((inv.gids.named name th again).2.symm.trans named)

theorem step_spec {op : Op lastCore} (inv : Inv none Set.univ 0 sched)
    (allowed : sched.Allowed op) :
    Gives (sched.step schedQuantum op) (Inv none Set.univ 0) := by
  cases op with
  | start gid mask => exact start_spec inv allowed.1 allowed.2
  | join gid =>
    obtain ⟨th, found, ready⟩ := allowed
    exact (join_spec inv found ready).mono fun _ kept => kept.inv
  | leave gid cid =>
    obtain ⟨th, found, named, running⟩ := allowed
    rcases inv.placement.occupant cid th found with ⟨alive, rfl⟩
    exact (leave_spec inv alive named running fun _ => Nat.zero_le _).mono fun _ left => left.1.inv
  | markForSleep gid wakeupPhase =>
    obtain ⟨th, found, running, unmarked⟩ := allowed
    exact (markForSleep_spec inv wakeupPhase found running unmarked).mono fun _ marked => marked.1
  | notifySleepEnd gid =>
    obtain ⟨th, found, idle⟩ := allowed
    exact (notifySleepEnd_spec inv found idle).mono fun _ kept => kept.inv
  | handoff th =>
    obtain ⟨alive, running, unmarked⟩ := allowed
    exact (handoff_spec inv alive running unmarked).mono fun _ kept => kept.1
  | callback draws =>
    exact (callback_spec (inv.wakeFrom allowed) schedQuantum draws
      fun _ _ _ _ => Set.mem_univ _).mono fun _ ended =>
        ended.inv.wakeFrom fun _ _ => Nat.zero_le _
  | finish gid =>
    obtain ⟨th, found, state, noTarget⟩ := allowed
    exact (finish_spec inv found state noTarget).mono fun _ ended => ended.inv

/--
Every run of allowed operations completes in a consistent state, and a tick in
that state makes only running threads hand off.
-/
theorem scheduler_consistent (schedQuantum : Nat) (ops : List (Op lastCore))
    (allowed : RunMeets (step schedQuantum) Allowed ops (initial : Scheduler lastCore)) :
    ∃ sched, run schedQuantum ops = .ok sched ∧ Consistent sched ∧
      ∀ draws, ∃ next, sched.schedTick draws = .ok next ∧
        ∀ th, next.handoffThread th ≠ sched.handoffThread th →
          sched.alive th = true ∧ sched.state th = .running := by
  have initially : Inv none Set.univ 0 (initial : Scheduler lastCore) :=
    inv_initial.mono (Set.empty_subset _)
  rcases RunMeets.gives (fun _ _ inv allowed => step_spec schedQuantum inv allowed) allowed
    initially with ⟨sched, returns, inv⟩
  refine ⟨sched, returns, inv.consistent, fun draws => ?_⟩
  have distinct := (shuffled_perm draws lastCore
    (List.finRange (lastCore + 1))).symm.nodup (List.nodup_finRange _)
  rcases schedTickLoop_spec inv (fun _ _ _ _ _ _ => Set.mem_univ _)
    inv.queues.run_nodup (fun _ inside => inside) distinct with
    ⟨next, ticks, ticked⟩
  exact ⟨next, ticks, ticked.victims⟩

/-- Two contexts and three threads: one is queued and gets its context by a
handoff, one sleeps through a phase, and one finishes. -/
def threeThreads : List (Op 1) :=
  [.start 10 fun _ => true, .join 10, .start 11 fun _ => true, .join 11,
    .start 12 fun ctx => ctx.val = 1, .join 12, .callback Fin.last,
    .handoff 1, .markForSleep 10 3, .leave 10 (Fin.last 0).castSucc,
    .callback Fin.last, .callback Fin.last, .leave 12 (Fin.last 1),
    .finish 12, .join 10]

theorem scheduler_consistent_three :
    ∃ sched, run 1 threeThreads = .ok sched ∧ Consistent sched := by
  have allowed : RunMeets (step 1) Allowed threeThreads initial := by decide +kernel
  obtain ⟨sched, returns, consistent, -⟩ := scheduler_consistent 1 threeThreads allowed
  exact ⟨sched, returns, consistent⟩

end Scheduler

end Damov.Scheduling
