import Damov.Scheduling.Scheduler

/-!
# Updates that keep the invariant

The operations of the scheduler are made of a few updates. Some take a context
or a thread in hand, others put it back; each keeps the invariant under the
condition that the code establishes before it.
-/

namespace Damov.Scheduling

open Library.Counting Function List Option

namespace Scheduler

variable {lastCore : Nat} {sched : Scheduler lastCore}
variable {hole : Option (Cid lastCore)} {lost : Set Ptr} {phase : Nat}

attribute [local simp] Scheduler.setState Scheduler.place Scheduler.vacate

theorem Inv.mono {more : Set Ptr} (inv : Inv hole lost phase sched) (subset : lost ⊆ more) :
    Inv hole more phase sched :=
  { inv with covered := inv.covered.mono subset }

variable {th : Ptr}

theorem Inv.notMarked (inv : Inv hole lost phase sched)
    (alive : sched.alive th = true) (absent : sched.state th ≠ .running) :
    sched.markedForSleep th = false := by
  rw [← Bool.not_eq_true]
  exact fun marked => absent (inv.waits.marked th alive marked).1

/-- A thread changes its state, and with it its place and its queue. -/
theorem Inv.move {after : Option (Cid lastCore)} {next : Scheduler lastCore}
    (inv : Inv hole lost phase sched) {state : ThreadState}
    (changed : next = { sched.setState th state with
      ctxState := next.ctxState
      curThread := next.curThread
      scheduledThreads := next.scheduledThreads
      outQueue := next.outQueue
      sleepQueue := next.sleepQueue })
    (awake : state ≠ .sleeping) (marked : sched.markedForSleep th = true → state = .running)
    (moved : sched.state th ≠ .queued) (accounted : state = .queued → th ∈ lost)
    (placement : Placement after next) (queues : Queues next)
    (conserving : Conserving after next) : Inv after lost phase next := by
  have unclaimed := inv.handoffs.unclaimed th (.inl moved)
  refine ⟨placement, queues, conserving, ?_, ?_, ?_, ?_⟩ <;> rw [changed]
  · exact { inv.waits.setState th state awake marked with }
  · exact { inv.handoffs.setState state unclaimed with }
  · exact inv.covered.setState th state accounted
  · exact { inv.gids with }

/-- A context keeps its running thread, or no queued thread could use it. -/
theorem Conserving.setState (conserving : Conserving hole sched)
    {state : ThreadState} (kept : state = .running ∨ ∀ ctx,
      sched.curThread ctx = some th → sched.state th = .running →
        ∀ other ∈ sched.runQueue, sched.mask other ctx = false) :
    Conserving hole (sched.setState th state) := by
  intro other mem core masked notOpen
  obtain ⟨cur, found, runs⟩ := conserving other mem core masked notOpen
  refine ⟨cur, found, ?_⟩
  by_cases eq : cur = th
  · subst eq
    rcases kept with isRunning | unwanted
    · simpa using isRunning
    · simp [unwanted core found runs other mem] at masked
  · simpa [eq] using runs

/-- A thread in hand takes the open context. -/
theorem Inv.place {ctx : Cid lastCore} (inv : Inv (some ctx) (insert th lost) phase sched)
    (alive : sched.alive th = true) (ready : sched.state th = .started ∨ sched.state th = .blocked ∨
      sched.state th = .queued) (unqueued : th ∉ sched.runQueue)
    (unclaimed : sched.Unclaimed th) :
    Inv none lost phase (sched.place th ctx) := by
  have absent : sched.state th ≠ .running ∧ sched.state th ≠ .out := by
    rcases ready with state | state | state <;> simp [state]
  have before : sched.state th ≠ .out ∧ sched.state th ≠ .sleeping := by
    rcases ready with state | state | state <;> simp [state]
  have waits := inv.waits.setState th .running (by simp) (fun _ => rfl)
  have covered := (inv.covered.setState th .running (by simp)).release (by simp)
  refine {
    placement := inv.placement.place alive absent
    queues := { inv.queues.setState th .running before (by simp) unqueued with }
    conserving := ?_
    waits := { waits with }
    handoffs := { inv.handoffs.setState .running unclaimed with }
    covered := covered
    gids := { inv.gids with } }
  intro other mem core masked _
  by_cases here : core = ctx
  · exact ⟨th, by simp [here]⟩
  have open_ne : some ctx ≠ some core := by simp [Ne.symm here]
  obtain ⟨cur, found, running⟩ := inv.conserving other mem core masked open_ne
  refine ⟨cur, by simpa [here] using found, ?_⟩
  by_cases eq : cur = th
  · simp [eq]
  · simpa [eq] using running

/-- The context of a thread that moves away is open. -/
theorem Conserving.vacate (conserving : Conserving none sched)
    (placement : Placement none sched) (th : Ptr) (target : ThreadState) :
    Conserving (some (sched.cid th)) (sched.vacate th (sched.cid th) target) := by
  intro other mem core masked notOpen
  have here : core ≠ sched.cid th := fun same => notOpen (same ▸ rfl)
  obtain ⟨cur, found, running⟩ := conserving other mem core masked (by simp)
  have eq : cur ≠ th := by
    rintro rfl
    exact here (placement.occupant core cur found).2.symm
  exact ⟨cur, by simpa [here] using found, by simpa [eq] using running⟩

section

variable (inv : Inv none lost phase sched)
include inv

variable {th : Ptr}

/-- A running thread gives up its context and is in no queue. -/
theorem Inv.vacate (target : ThreadState) (alive : sched.alive th = true)
    (running : sched.state th = .running) (unmarked : sched.markedForSleep th = false)
    (after : target = .blocked ∨ target = .queued ∧ th ∈ lost) :
    Inv (some (sched.cid th)) lost phase (sched.vacate th (sched.cid th) target) := by
  have absent : target ≠ .running ∧ target ≠ .out := by
    rcases after with state | ⟨state, -⟩ <;> simp [state]
  have awake : target ≠ .out ∧ target ≠ .sleeping := by
    rcases after with state | ⟨state, -⟩ <;> simp [state]
  have accounted : target = .queued → th ∈ lost := by
    rcases after with state | ⟨-, mem⟩
    · simp [state]
    · exact fun _ => mem
  have unqueued := inv.queues.notMem_run th (by simp [running])
  have queues := inv.queues.setState th target (by simp [running]) awake unqueued
  exact inv.move rfl awake.2 (by simp [unmarked]) (by simp [running]) accounted
    (inv.placement.vacate target alive (.inl running) absent)
    { queues with } (inv.conserving.vacate inv.placement th target)

/-- A thread that is out loses its context. -/
theorem Inv.steal (mem : th ∈ sched.outQueue) :
    Inv (some (sched.cid th)) lost phase (Scheduler.vacate th (sched.cid th) .blocked
        { sched with outQueue := sched.outQueue.erase th }) := by
  obtain ⟨alive, out⟩ := (inv.queues.out th).mp mem
  have unmarked := inv.notMarked alive (by simp [out])
  have placement := inv.placement.vacate .blocked alive (.inr out) (by simp)
  have queues := inv.queues.leaveOut .blocked out (by simp)
  exact inv.move rfl (by simp) (by simp [unmarked]) (by simp [out]) (by simp)
    { placement with } { queues with } (inv.conserving.vacate inv.placement th .blocked)

/-- A marked thread goes to sleep and gives up its context. -/
theorem Inv.sleep (alive : sched.alive th = true) (running : sched.state th = .running)
    (marked : sched.markedForSleep th = true) (later : phase ≤ sched.wakeupPhase th) :
    Inv (some (sched.cid th)) lost phase
      { sched.vacate th (sched.cid th) .sleeping with
        markedForSleep := update sched.markedForSleep th false
        sleepQueue := sleepInsert sched.wakeupPhase th sched.sleepQueue } := by
  have unclaimed := inv.handoffs.unclaimed th (by simp [running])
  have placement := inv.placement.vacate .sleeping alive (.inl running) (by simp)
  have armed := (inv.waits.marked th alive marked).2
  refine {
    placement := { placement with }
    queues := { inv.queues.goSleep alive running with }
    conserving := inv.conserving.vacate inv.placement th .sleeping
    waits := {
      queued := inv.waits.queued
      sleeping := fun other alive' => ?_
      marked := fun other alive' => ?_ }
    handoffs := { inv.handoffs.setState .sleeping unclaimed with }
    covered := inv.covered.setState th .sleeping (by simp)
    gids := { inv.gids with } }
  · by_cases eq : other = th
    · subst eq
      exact fun _ => ⟨armed, later⟩
    · simpa [eq] using inv.waits.sleeping other alive'
  · by_cases eq : other = th
    · simp [eq]
    · simpa [eq] using inv.waits.marked other alive'

/-- A thread leaves and keeps its context, which no queued thread could use. -/
theorem Inv.goOut (alive : sched.alive th = true) (running : sched.state th = .running)
    (unmarked : sched.markedForSleep th = false)
    (unwanted : ∀ other ∈ sched.runQueue, sched.mask other (sched.cid th) = false) :
    Inv none lost phase { sched.setState th .out with
      outQueue := sched.outQueue ++ [th] } := by
  have placement := inv.placement.setState th .out (by simp [running])
  refine inv.move rfl (by simp) (by simp [unmarked]) (by simp [running])
    (by simp) { placement with } (inv.queues.goOut alive running)
    (inv.conserving.setState (.inr fun ctx found _ other mem => ?_))
  exact (inv.placement.occupant ctx th found).2 ▸ unwanted other mem

theorem Inv.comeBack (out : sched.state th = .out) :
    Inv none lost phase { sched.setState th .running with
      outQueue := sched.outQueue.erase th } := by
  have placement := inv.placement.setState th .running (by simp [out])
  exact inv.move rfl (by simp) (fun _ => rfl) (by simp [out]) (by simp)
    { placement with } (inv.queues.leaveOut .running out (by simp))
    (inv.conserving.setState (.inl rfl))

theorem Inv.takeFree {ctx : Cid lastCore} (free : ctx ∈ sched.freeList) : Inv (some ctx) lost phase
      { sched with freeList := sched.freeList.erase ctx } :=
  { inv with
    placement := inv.placement.takeFree free
    queues := { inv.queues with }
    conserving := fun th mem core masked _ =>
      inv.conserving th mem core masked (by simp)
    waits := { inv.waits with }
    handoffs := { inv.handoffs with }
    gids := { inv.gids with } }

end

/-- An open context becomes free if no queued thread could use it. -/
theorem Inv.giveFree {ctx : Cid lastCore} (inv : Inv (some ctx) lost phase sched)
    (unwanted : ∀ th ∈ sched.runQueue, sched.mask th ctx = false) :
    Inv none lost phase { sched with freeList := sched.freeList ++ [ctx] } := by
  refine { inv with
    placement := inv.placement.giveFree
    queues := { inv.queues with }
    conserving := fun th mem core masked _ => ?_
    waits := { inv.waits with }
    handoffs := { inv.handoffs with }
    gids := { inv.gids with } }
  apply inv.conserving th mem core masked
  rintro same
  rw [some.injEq] at same
  subst same
  exact Bool.false_ne_true ((unwanted th mem).symm.trans masked)

/-- A futex word is set. A thread that waits stays armed. -/
theorem Inv.setFutex (inv : Inv hole lost phase sched) (th : Ptr) (value : Nat)
    (safe : value = 1 ∨ (sched.state th ≠ .sleeping ∧ sched.state th ≠ .queued) ∧
      sched.markedForSleep th = false) :
    Inv hole lost phase { sched with futexWord := update sched.futexWord th value } := by
  have armed : ∀ other, sched.futexWord other = 1 → (sched.state other = .sleeping ∨
      sched.state other = .queued ∨ sched.markedForSleep other = true) →
      update sched.futexWord th value other = 1 := by
    intro other before waits
    by_cases eq : other = th
    · subst eq
      rcases safe with isOne | ⟨awake, unmarked⟩
      · simp [isOne]
      · simp [awake, unmarked] at waits
    · simpa [eq] using before
  refine { inv with
    placement := { inv.placement with }
    queues := { inv.queues with }
    waits := {
      queued := fun other mem => ?_
      sleeping := fun other alive sleeping => ?_
      marked := fun other alive marked => ?_ }
    handoffs := { inv.handoffs with
      target := fun other dst alive pending => ?_ }
    gids := { inv.gids with } }
  · exact armed other (inv.waits.queued other mem) (.inr (.inl (inv.queues.queued other mem).2))
  · have before := inv.waits.sleeping other alive sleeping
    exact ⟨armed other before.1 (.inl sleeping), before.2⟩
  · have before := inv.waits.marked other alive marked
    exact ⟨before.1, armed other before.2 (.inr (.inr marked))⟩
  · obtain ⟨aliveDst, queued, unqueued, before⟩ := inv.handoffs.target other dst alive pending
    exact ⟨aliveDst, queued, unqueued, armed dst before (.inr (.inl queued))⟩

/-- A thread in hand that cannot run waits in the run queue. -/
theorem Inv.enqueue (inv : Inv none (insert th lost) phase sched)
    (alive : sched.alive th = true) (queued : sched.state th = .queued)
    (outside : th ∉ sched.runQueue) (unclaimed : sched.Unclaimed th)
    (busy : ∀ ctx, sched.mask th ctx = true → ∃ other, sched.curThread ctx = some other ∧
        sched.state other = .running) :
    Inv none lost phase { sched with
      runQueue := sched.runQueue ++ [th]
      futexWord := update sched.futexWord th 1 } := by
  have armed := inv.setFutex th 1 (.inl rfl)
  have queues := inv.queues.enqueue alive queued outside
  refine { armed with
    queues := { queues with }
    conserving := fun other mem core masked notOpen => ?_
    waits := { armed.waits with
      queued := forall_mem_append.mpr ⟨armed.waits.queued, by simp⟩ }
    handoffs := { armed.handoffs with
      target := fun other dst alive' pending => ?_ }
    covered := fun other alive' isQueued => ?_
    placement := { armed.placement with }
    gids := { armed.gids with } }
  · rcases mem_append.mp mem with before | last
    · exact inv.conserving other before core masked notOpen
    · rw [mem_singleton.mp last] at masked
      exact busy core masked
  · have eq : dst ≠ th := by
      rintro rfl
      exact unclaimed other alive' pending
    simpa [eq] using armed.handoffs.target other dst alive' pending
  · by_cases eq : other = th
    · simp [eq]
    · have before := inv.covered other alive' isQueued
      simpa [eq] using before

/-- A thread of the run queue is taken in hand. -/
theorem Inv.dequeue (inv : Inv hole lost phase sched) (th : Ptr) : Inv hole (insert th lost) phase
      { sched with runQueue := sched.runQueue.erase th } := by
  refine {
    placement := { inv.placement with }
    queues := inv.queues.dequeue th
    conserving := fun other mem =>
      inv.conserving other (mem_of_mem_erase mem)
    waits := { inv.waits with
      queued := fun other mem =>
        inv.waits.queued other (mem_of_mem_erase mem) }
    handoffs := { inv.handoffs with
      target := fun other dst alive pending => ?_ }
    covered := fun other alive queued => ?_
    gids := { inv.gids with } }
  · have target := inv.handoffs.target other dst alive pending
    exact ⟨target.1, target.2.1, fun mem => target.2.2.1 (mem_of_mem_erase mem), target.2.2.2⟩
  · by_cases eq : other = th
    · exact .inr (.inr (.inl eq))
    · rcases inv.covered other alive queued with mem | claimed | gone
      · exact .inl ((mem_erase_of_ne eq).mpr mem)
      · exact .inr (.inl claimed)
      · exact .inr (.inr (.inr gone))

section

variable (inv : Inv none lost phase sched)
include inv

theorem Inv.endSleep (sleeping : sched.state th = .sleeping) (alive : sched.alive th = true) :
    Inv none lost phase { sched.setState th .blocked with
      sleepQueue := sched.sleepQueue.erase th } := by
  have unmarked := inv.notMarked alive (by simp [sleeping])
  have placement := inv.placement.setState th .blocked (by simp [sleeping])
  exact inv.move rfl (by simp) (by simp [unmarked]) (by simp [sleeping])
    (by simp) { placement with } (inv.queues.leaveSleep sleeping)
    (inv.conserving.setState (.inr fun _ _ runs => by simp [sleeping] at runs))

/-- A thread that found no context is in hand, queued. -/
theorem Inv.queue (alive : sched.alive th = true)
    (ready : sched.state th = .started ∨ sched.state th = .blocked) :
    Inv none (insert th lost) phase (sched.setState th .queued) := by
  have notQueued : sched.state th ≠ .queued := by
    rcases ready with state | state <;> simp [state]
  have notRunning : sched.state th ≠ .running := by
    rcases ready with state | state <;> simp [state]
  have unmarked := inv.notMarked alive notRunning
  have placement := inv.placement.setState th .queued (by
    rcases ready with state | state <;> simp [state])
  have queues := inv.queues.setState th .queued (by
    rcases ready with state | state <;> simp [state]) (by simp)
    (inv.queues.notMem_run th notQueued)
  exact (inv.mono (Set.subset_insert th lost)).move rfl (by simp)
    (by simp [unmarked]) notQueued (fun _ => Set.mem_insert _ _) placement queues
    (inv.conserving.setState (.inr fun _ _ runs => absurd runs notRunning))

theorem Inv.mark (alive : sched.alive th = true)
    (running : sched.state th = .running) (wakeupPhase : Nat) :
    Inv none lost phase { sched with
      markedForSleep := update sched.markedForSleep th true
      wakeupPhase := update sched.wakeupPhase th wakeupPhase
      futexWord := update sched.futexWord th 1 } := by
  have awake : th ∉ sched.sleepQueue := by simp [inv.queues.sleeping, running]
  have armed := inv.setFutex th 1 (.inl rfl)
  refine { armed with
    placement := { armed.placement with }
    queues := { armed.queues with ordered := ?_ }
    waits := { armed.waits with
      sleeping := fun other alive' sleeping => ?_
      marked := fun other alive' marked => ?_ }
    handoffs := { armed.handoffs with }
    gids := { armed.gids with } }
  · refine inv.queues.ordered.imp_of_mem ?_
    intro first second mem mem' ordered
    have notFirst : first ≠ th := fun eq => awake (eq ▸ mem)
    have notSecond : second ≠ th := fun eq => awake (eq ▸ mem')
    simpa [notFirst, notSecond] using ordered
  · have eq : other ≠ th := by
      rintro rfl
      simp [running] at sleeping
    simpa [eq] using inv.waits.sleeping other alive' sleeping
  · by_cases eq : other = th
    · simp [eq, running]
    · simpa [eq] using inv.waits.marked other alive' (by simpa [eq] using marked)

/-- A thread of the run queue becomes the target of a handoff. -/
theorem Inv.assign {victimTh : Ptr} (mem : th ∈ sched.runQueue)
    (alive : sched.alive victimTh = true)
    (dropped : ∀ dst, sched.handoffThread victimTh = some dst → dst ∈ lost) :
    Inv none lost phase { sched with
      handoffThread := update sched.handoffThread victimTh (some th)
      runQueue := sched.runQueue.erase th } := by
  have taken := inv.dequeue th
  have unclaimed := inv.handoffs.unclaimed th (.inr mem)
  have queued := inv.queues.queued th mem
  refine {
    placement := { taken.placement with }
    queues := { taken.queues with }
    conserving := taken.conserving
    waits := { taken.waits with }
    handoffs := {
      target := fun other dst alive' pending => ?_
      unique := fun first second dst aliveFirst aliveSecond pendingFirst
        pendingSecond => ?_ }
    covered := fun other alive' isQueued => ?_
    gids := { taken.gids with } }
  · by_cases eq : other = victimTh
    · subst eq
      simp only [update_self, some.injEq] at pending
      subst pending
      exact ⟨queued.1, queued.2, inv.queues.run_nodup.not_mem_erase, inv.waits.queued th mem⟩
    · simp only [update_of_ne eq] at pending
      exact taken.handoffs.target other dst alive' pending
  · by_cases isFirst : first = victimTh <;> by_cases isSecond : second = victimTh
    · rw [isFirst, isSecond]
    · simp only [isFirst, update_self] at pendingFirst
      simp only [update_of_ne isSecond] at pendingSecond
      exact absurd (pendingFirst ▸ pendingSecond) (unclaimed second aliveSecond)
    · simp only [isSecond, update_self] at pendingSecond
      simp only [update_of_ne isFirst] at pendingFirst
      exact absurd (pendingSecond ▸ pendingFirst) (unclaimed first aliveFirst)
    · simp only [update_of_ne isFirst] at pendingFirst
      simp only [update_of_ne isSecond] at pendingSecond
      exact inv.handoffs.unique first second dst aliveFirst aliveSecond pendingFirst pendingSecond
  · by_cases isTarget : other = th
    · exact .inr (.inl ⟨victimTh, alive, by simp [isTarget]⟩)
    rcases inv.covered other alive' isQueued with
      waits | ⟨holder, aliveHolder, pending⟩ | gone
    · exact .inl ((mem_erase_of_ne isTarget).mpr waits)
    · by_cases eq : holder = victimTh
      · exact .inr (.inr (dropped other (eq ▸ pending)))
      · exact .inr (.inl ⟨holder, aliveHolder, by simp [eq, pending]⟩)
    · exact .inr (.inr gone)

/-- The target of a handoff is taken in hand. -/
theorem Inv.clearHandoff {dst : Ptr} (pending : sched.handoffThread th = some dst) :
    Inv none (insert dst lost) phase { sched with
      handoffThread := update sched.handoffThread th none } := by
  refine { inv with
    placement := { inv.placement with }
    queues := { inv.queues with }
    waits := { inv.waits with }
    handoffs := {
      target := fun other target alive' claimed => ?_
      unique := fun first second target aliveFirst aliveSecond claimFirst
        claimSecond => ?_ }
    covered := fun other alive' isQueued => ?_
    gids := { inv.gids with } }
  · have eq : other ≠ th := by
      rintro rfl
      simp at claimed
    simp only [update_of_ne eq] at claimed
    exact inv.handoffs.target other target alive' claimed
  · have notFirst : first ≠ th := by
      rintro rfl
      simp at claimFirst
    have notSecond : second ≠ th := by
      rintro rfl
      simp at claimSecond
    simp only [update_of_ne notFirst] at claimFirst
    simp only [update_of_ne notSecond] at claimSecond
    exact inv.handoffs.unique first second target aliveFirst aliveSecond claimFirst claimSecond
  · rcases inv.covered other alive' isQueued with
      waits | ⟨holder, aliveHolder, claimed⟩ | gone
    · exact .inl waits
    · by_cases eq : holder = th
      · subst eq
        rw [pending, some.injEq] at claimed
        exact .inr (.inr (.inl claimed.symm))
      · exact .inr (.inl ⟨holder, aliveHolder, by simp [eq, claimed]⟩)
    · exact .inr (.inr (.inr gone))

omit inv in
/-- The next cell of the heap is not allocated. -/
theorem Inv.ne_nextPtr (inv : Inv hole lost phase sched) (alive : sched.alive th = true) :
    th ≠ sched.nextPtr :=
  ne_of_lt (inv.gids.allocated th alive)

theorem Inv.create (gid : Gid) (mask : Cid lastCore → Bool) : Inv none lost phase { sched with
      alive := update sched.alive sched.nextPtr true
      nextPtr := sched.nextPtr + 1
      gid := update sched.gid sched.nextPtr gid
      state := update sched.state sched.nextPtr .started
      cid := update sched.cid sched.nextPtr 0
      handoffThread := update sched.handoffThread sched.nextPtr none
      futexWord := update sched.futexWord sched.nextPtr 0
      markedForSleep := update sched.markedForSleep sched.nextPtr false
      wakeupPhase := update sched.wakeupPhase sched.nextPtr 0
      mask := update sched.mask sched.nextPtr mask
      gidMap := update sched.gidMap gid (some sched.nextPtr) } := by
  have older : ∀ th, update sched.alive sched.nextPtr true th = true →
      th ≠ sched.nextPtr → sched.alive th = true := by
    intro th alive eq
    simpa [eq] using alive
  have outside : ∀ (queue : List Ptr) (state : ThreadState),
      (∀ th ∈ queue, sched.alive th = true ∧ sched.state th = state) → sched.nextPtr ∉ queue := by
    intro queue state owned mem
    exact inv.ne_nextPtr (owned _ mem).1 rfl
  have notRun := outside _ _ inv.queues.queued
  have notOut := outside _ _ fun th => (inv.queues.out th).mp
  have notAsleep := outside _ _ fun th => (inv.queues.sleeping th).mp
  have nowhere : ∀ ctx, sched.curThread ctx ≠ some sched.nextPtr := by
    intro ctx found
    exact inv.ne_nextPtr (inv.placement.occupant ctx _ found).1 rfl
  refine {
    placement := {
      placed := fun th alive => ?_
      occupant := fun ctx th found => ?_
      idle := inv.placement.idle
      vacant := inv.placement.vacant
      free_nodup := inv.placement.free_nodup
      hole_free := inv.placement.hole_free
      counted := inv.placement.counted }
    queues := {
      out := fun th => ?_
      sleeping := fun th => ?_
      queued := fun th mem => ?_
      out_nodup := inv.queues.out_nodup
      sleep_nodup := inv.queues.sleep_nodup
      run_nodup := inv.queues.run_nodup
      ordered := ?_ }
    conserving := fun th mem ctx masked notOpen => ?_
    waits := {
      queued := fun th mem => ?_
      sleeping := fun th alive sleeping => ?_
      marked := fun th alive marked => ?_ }
    handoffs := {
      target := fun th dst alive pending => ?_
      unique := fun first second dst aliveFirst aliveSecond claimFirst
        claimSecond => ?_ }
    covered := fun th alive queued => ?_
    gids :=
      { named := fun name th found => ?_
        allocated := fun th alive => ?_ } }
  · by_cases eq : th = sched.nextPtr
    · subst eq
      simpa using nowhere 0
    · simpa [eq] using inv.placement.placed th (older th alive eq)
  · have before := inv.placement.occupant ctx th found
    have eq := inv.ne_nextPtr before.1
    simpa [eq] using before
  · by_cases eq : th = sched.nextPtr
    · simp [eq, notOut]
    · simpa [eq] using inv.queues.out th
  · by_cases eq : th = sched.nextPtr
    · simp [eq, notAsleep]
    · simpa [eq] using inv.queues.sleeping th
  · have eq : th ≠ sched.nextPtr := fun eq => notRun (eq ▸ mem)
    simpa [eq] using inv.queues.queued th mem
  · refine inv.queues.ordered.imp_of_mem ?_
    intro first second mem mem' ordered
    have notFirst : first ≠ sched.nextPtr := fun eq =>
      notAsleep (eq ▸ mem)
    have notSecond : second ≠ sched.nextPtr := fun eq =>
      notAsleep (eq ▸ mem')
    simpa [notFirst, notSecond] using ordered
  · have eq : th ≠ sched.nextPtr := fun eq => notRun (eq ▸ mem)
    simp only [update_of_ne eq] at masked
    obtain ⟨cur, found, runs⟩ := inv.conserving th mem ctx masked notOpen
    have notCurrent : cur ≠ sched.nextPtr := fun same =>
      nowhere ctx (same ▸ found)
    exact ⟨cur, found, by simpa [notCurrent] using runs⟩
  · have eq : th ≠ sched.nextPtr := fun eq => notRun (eq ▸ mem)
    simpa [eq] using inv.waits.queued th mem
  · have eq : th ≠ sched.nextPtr := by
      rintro rfl
      simp at sleeping
    simpa [eq] using inv.waits.sleeping th (older th alive eq) (by simpa [eq] using sleeping)
  · have eq : th ≠ sched.nextPtr := by
      rintro rfl
      simp at marked
    simpa [eq] using inv.waits.marked th (older th alive eq) (by simpa [eq] using marked)
  · have eq : th ≠ sched.nextPtr := by
      rintro rfl
      simp at pending
    have target := inv.handoffs.target th dst (older th alive eq) (by simpa [eq] using pending)
    have notTarget := inv.ne_nextPtr target.1
    simpa [notTarget] using target
  · have notFirst : first ≠ sched.nextPtr := by
      rintro rfl
      simp at claimFirst
    have notSecond : second ≠ sched.nextPtr := by
      rintro rfl
      simp at claimSecond
    exact inv.handoffs.unique first second dst
      (older first aliveFirst notFirst) (older second aliveSecond notSecond)
      (by simpa [notFirst] using claimFirst)
      (by simpa [notSecond] using claimSecond)
  · have eq : th ≠ sched.nextPtr := by
      rintro rfl
      simp at queued
    rcases inv.covered th (older th alive eq)
      (by simpa [eq] using queued) with waits | ⟨holder, claims⟩ | gone
    · exact .inl waits
    · have notHolder := inv.ne_nextPtr claims.1
      exact .inr (.inl ⟨holder, by simpa [notHolder] using claims⟩)
    · exact .inr (.inr gone)
  · by_cases same : name = gid
    · subst same
      simp only [update_self, some.injEq] at found
      simp [← found]
    · simp only [update_of_ne same] at found
      have before := inv.gids.named name th found
      have eq := inv.ne_nextPtr before.1
      simpa [eq] using before
  · by_cases eq : th = sched.nextPtr
    · rw [eq]
      exact Nat.lt_succ_self _
    · exact Nat.lt_succ_of_lt (inv.gids.allocated th (older th alive eq))

theorem Inv.eraseGid (gid : Gid) :
    Inv none lost phase { sched with gidMap := update sched.gidMap gid none } := by
  refine { inv with
    placement := { inv.placement with }
    queues := { inv.queues with }
    waits := { inv.waits with }
    handoffs := { inv.handoffs with }
    gids := { inv.gids with named := fun name th found => ?_ } }
  have same : name ≠ gid := by
    rintro rfl
    simp at found
  exact inv.gids.named name th (by simpa [same] using found)

end

/-- A thread that nothing refers to can be deleted. -/
theorem Inv.delete (inv : Inv none (insert th lost) phase sched)
    (absent : sched.state th ≠ .running ∧ sched.state th ≠ .out ∧
      sched.state th ≠ .sleeping) (unqueued : th ∉ sched.runQueue)
    (unclaimed : sched.Unclaimed th)
    (noTarget : ∀ dst, sched.handoffThread th = some dst → dst ∈ lost)
    (unnamed : ∀ gid, sched.gidMap gid ≠ some th) :
    Inv none lost phase { sched with alive := update sched.alive th false } := by
  have older (other) (alive : update sched.alive th false other = true) :
      other ≠ th ∧ sched.alive other = true := by
    by_cases eq : other = th
    · simp [eq] at alive
    · exact ⟨eq, by simpa [eq] using alive⟩
  refine {
    placement := { inv.placement with
      placed := fun other alive => ?_
      occupant := fun ctx other found => ?_ }
    queues := { inv.queues with
      out := fun other => ?_
      sleeping := fun other => ?_
      queued := fun other mem => ?_ }
    conserving := inv.conserving
    waits := { inv.waits with
      sleeping := fun other alive =>
        inv.waits.sleeping other (older other alive).2
      marked := fun other alive =>
        inv.waits.marked other (older other alive).2 }
    handoffs := {
      target := fun other dst alive pending => ?_
      unique := fun first second dst aliveFirst aliveSecond =>
        inv.handoffs.unique first second dst (older first aliveFirst).2
          (older second aliveSecond).2 }
    covered := fun other alive queued => ?_
    gids :=
      { named := fun gid other found => ?_
        allocated := fun other alive =>
          inv.gids.allocated other (older other alive).2 } }
  · exact inv.placement.placed other (older other alive).2
  · have before := inv.placement.occupant ctx other found
    have eq : other ≠ th := by
      rintro rfl
      have here := (inv.placement.placed other before.1).mpr (before.2 ▸ found)
      simp [absent] at here
    simpa [eq] using before
  · by_cases eq : other = th
    · simp [eq, inv.queues.out, absent]
    · simpa [eq] using inv.queues.out other
  · by_cases eq : other = th
    · simp [eq, inv.queues.sleeping, absent]
    · simpa [eq] using inv.queues.sleeping other
  · have eq : other ≠ th := fun eq => unqueued (eq ▸ mem)
    simpa [eq] using inv.queues.queued other mem
  · have target := inv.handoffs.target other dst (older other alive).2 pending
    have eq : dst ≠ th := by
      rintro rfl
      exact unclaimed other (older other alive).2 pending
    simpa [eq] using target
  · rcases inv.covered other (older other alive).2 queued with
      waits | ⟨holder, claims⟩ | gone
    · exact .inl waits
    · by_cases eq : holder = th
      · exact .inr (.inr (noTarget other (eq ▸ claims.2)))
      · exact .inr (.inl ⟨holder, by simpa [eq] using claims⟩)
    · exact .inr (.inr ((Set.mem_insert_iff.mp gone).resolve_left (older other alive).1))
  · have eq : other ≠ th := fun eq => unnamed gid (eq ▸ found)
    simpa [eq] using inv.gids.named gid other found

theorem inv_initial : Inv none (∅ : Set Ptr) phase (initial : Scheduler lastCore) := by
  refine {
    placement := {
      placed := by simp [initial]
      occupant := by simp [initial]
      idle := by simp [initial]
      vacant := by simp [initial]
      free_nodup := nodup_finRange _
      hole_free := by simp
      counted := (population_eq_zero.mpr (by simp [initial])).symm }
    queues := by constructor <;> simp [initial]
    conserving := by simp [Conserving, initial]
    waits := by constructor <;> simp [initial]
    handoffs := by constructor <;> simp [initial]
    covered := by simp [Covered, initial]
    gids := by constructor <;> simp [initial] }

end Scheduler

end Damov.Scheduling
