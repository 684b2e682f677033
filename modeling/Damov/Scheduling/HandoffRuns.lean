import Damov.Scheduling.SchedulerRuns

/-!
# Handoffs while threads finish

`schedTick` takes a thread out of the run queue and leaves it to a victim, which
gives it its context when it returns from the barrier. Here the scheduler runs
next to its threads, so that the time between the two is visible: a thread waits
in the barrier from `sync` until the phase ends, is released, and then resumes.
`finish` has up to three critical sections, and `processCleanup` ends the sleep
of a thread of the killed process, if it sleeps, and then calls `finish` on it.

A thread that finishes as the target of a handoff breaks an assertion of
`finish`. If threads never finish in the middle of a handoff, no thread is
lost.
-/

namespace Damov.Scheduling

open Library.Checked Function

namespace Scheduler

variable {lastCore : Nat}

/-! ## The scheduler and its threads -/

/-- Where a thread is with respect to `sync`. -/
inductive Position where
  | user
  | waiting
  | released
  deriving DecidableEq

/-- The sections of `finish` that remain for a thread that was running. -/
inductive Finishing where
  | none
  | leaving
  | ending
  deriving DecidableEq

structure System (lastCore : Nat) where
  sched : Scheduler lastCore
  position : Ptr → Position
  finishing : Ptr → Finishing

namespace System

variable {sys : System lastCore}

def initial : System lastCore where
  sched := Scheduler.initial
  position := fun _ => .user
  finishing := fun _ => .none

inductive Op (lastCore : Nat) where
  | start (gid : Gid) (mask : Cid lastCore → Bool)
  | join (gid : Gid)
  | leave (gid : Gid) (cid : Cid lastCore)
  | markForSleep (gid : Gid) (wakeupPhase : Nat)
  | notifySleepEnd (gid : Gid)
  | sync (cid : Cid lastCore)
  | callback (draws : Draws)
  | resume (th : Ptr)
  | finish (gid : Gid)
  | finishLeave (th : Ptr)
  | finishEnd (th : Ptr)

/-- The end of a phase releases the threads that wait in the barrier. -/
def release : Position → Position
  | .waiting => .released
  | position => position

/-- The first section of `sync` -/
def sync (cid : Cid lastCore) (sys : System lastCore) : Except SchedFailure (System lastCore) :=
  match sys.sched.curThread cid with
  | none => .error .noThread
  | some th => do
      check (sys.sched.markedForSleep th = false) .marked
      return { sys with position := update sys.position th .waiting }

/-- The first section of `finish` -/
def finish (gid : Gid) (sys : System lastCore) : Except SchedFailure (System lastCore) := do
  let th ← sys.sched.lookup gid
  let sched ← sys.sched.finish gid
  if sys.sched.state th = .running then
    return { sys with
      sched
      finishing := update sys.finishing th .leaving }
  else return { sys with sched }

def step (schedQuantum : Nat) (sys : System lastCore) :
    Op lastCore → Except SchedFailure (System lastCore)
  | .start gid mask => do
      let sched ← sys.sched.start gid mask
      return { sys with
        sched
        position := update sys.position sys.sched.nextPtr .user }
  | .join gid => do
      let sched ← sys.sched.join gid
      return { sys with sched }
  | .leave gid cid => do
      let sched ← sys.sched.leave gid cid
      return { sys with sched }
  | .markForSleep gid wakeupPhase => do
      let sched ← sys.sched.markForSleep gid wakeupPhase
      return { sys with sched }
  | .notifySleepEnd gid => do
      let sched ← sys.sched.notifySleepEnd gid
      return { sys with sched }
  | .sync cid => sys.sync cid
  | .callback draws => do
      let sched ← sys.sched.callback schedQuantum draws
      return { sys with
        sched
        position := fun th => release (sys.position th) }
  | .resume th => do
      let sched ← sys.sched.handoff th
      return { sys with
        sched
        position := update sys.position th .user }
  | .finish gid => sys.finish gid
  | .finishLeave th => do
      let sched ← sys.sched.leave (sys.sched.gid th) (sys.sched.cid th)
      return { sys with
        sched
        finishing := update sys.finishing th .ending }
  | .finishEnd th => do
      let sched ← sys.sched.finishEnd th
      return { sys with
        sched
        finishing := update sys.finishing th .none }

def run (schedQuantum : Nat) (ops : List (Op lastCore)) : Except SchedFailure (System lastCore) :=
  ops.foldlM (step schedQuantum) initial

/-- The thread of the context is in the simulation and not in a call of the
scheduler. -/
def Simulates (sys : System lastCore) (th : Ptr) : Prop :=
  sys.sched.state th = .running ∧ sys.position th = .user ∧ sys.finishing th = .none

/-- When the parties make their calls. The end of a phase waits until all
running threads are in the barrier. A thread calls `finish` or is finished in
any state, and makes no other call from then on. -/
def Enabled (sys : System lastCore) : Op lastCore → Prop
  | .start gid mask => sys.sched.gidMap gid = none ∧ ∃ ctx, mask ctx = true
  | .join gid => ∃ th ∈ sys.sched.gidMap gid,
      sys.sched.state th = .started ∨ sys.sched.state th = .blocked ∨
        sys.sched.state th = .out ∨ sys.sched.state th = .sleeping
  | .leave gid cid => ∃ th ∈ sys.sched.curThread cid, sys.sched.gid th = gid ∧ sys.Simulates th
  | .markForSleep gid wakeupPhase => ∃ th ∈ sys.sched.gidMap gid,
      sys.Simulates th ∧ sys.sched.markedForSleep th = false ∧ sys.sched.curPhase < wakeupPhase
  | .notifySleepEnd gid => ∃ th ∈ sys.sched.gidMap gid,
      sys.sched.state th = .sleeping ∨ sys.sched.state th = .blocked
  | .sync cid => ∃ th ∈ sys.sched.curThread cid,
      sys.Simulates th ∧ sys.sched.markedForSleep th = false
  | .callback _ => ∀ ctx, ∀ th ∈ sys.sched.curThread ctx,
      sys.sched.state th = .running → sys.position th = .waiting
  | .resume th => sys.sched.alive th = true ∧
      sys.sched.state th = .running ∧ sys.position th = .released ∧ sys.finishing th = .none
  | .finish gid => (sys.sched.gidMap gid).isSome
  | .finishLeave th => sys.finishing th = .leaving
  | .finishEnd th => sys.finishing th = .ending

/-- No thread finishes in the middle of a handoff, asleep or about to sleep. -/
def Undisturbed (sys : System lastCore) : Op lastCore → Prop
  | .finish gid => ∃ th ∈ sys.sched.gidMap gid, sys.sched.state th ≠ .sleeping ∧
        sys.sched.markedForSleep th = false ∧
        (sys.sched.state th = .queued → th ∈ sys.sched.runQueue)
  | .finishLeave th => sys.sched.handoffThread th = none
  | _ => True

instance (sys : System lastCore) (th : Ptr) : Decidable (sys.Simulates th) :=
  inferInstanceAs (Decidable (_ ∧ _ ∧ _))

instance (sys : System lastCore) : DecidablePred sys.Enabled
  | .start _ _ | .join _ | .leave _ _ | .markForSleep _ _
  | .notifySleepEnd _ | .sync _ | .callback _ | .resume _ | .finish _
  | .finishLeave _ | .finishEnd _ => by
      dsimp only [Enabled]
      infer_instance

instance (sys : System lastCore) : DecidablePred sys.Undisturbed
  | .start _ _ | .join _ | .leave _ _ | .markForSleep _ _
  | .notifySleepEnd _ | .sync _ | .callback _ | .resume _ | .finish _
  | .finishLeave _ | .finishEnd _ => by
      dsimp only [Undisturbed]
      infer_instance

/-! ## The invariant -/

structure SysInv (sys : System lastCore) : Prop where
  inv : Inv none ∅ (sys.sched.curPhase + 1) sys.sched
  pending : ∀ th dst, sys.sched.alive th = true → sys.sched.handoffThread th = some dst →
      sys.sched.state th = .running ∧ sys.position th = .released
  marked : ∀ th, sys.sched.alive th = true → sys.sched.markedForSleep th = true →
      sys.position th = .user ∧ sys.sched.curPhase < sys.sched.wakeupPhase th
  leaving : ∀ th, sys.finishing th = .leaving →
    sys.sched.alive th = true ∧ sys.sched.state th = .running ∧ sys.sched.markedForSleep th = false
  ending : ∀ th, sys.finishing th = .ending → sys.sched.alive th = true ∧
      (sys.sched.state th = .out ∨ sys.sched.state th = .blocked)
  unnamed : ∀ gid th, sys.sched.gidMap gid = some th → sys.finishing th = .none

theorem sysInv_initial : SysInv (initial : System lastCore) where
  inv := inv_initial
  pending := by simp [initial, Scheduler.initial]
  marked := by simp [initial, Scheduler.initial]
  leaving := by simp [initial]
  ending := by simp [initial]
  unnamed := by simp [initial]

variable {th : Ptr} {sched : Scheduler lastCore} {gid : Gid}

theorem SysInv.no_target (inv : SysInv sys) (alive : sys.sched.alive th = true)
    (other : sys.sched.state th ≠ .running ∨ sys.position th ≠ .released) :
    sys.sched.handoffThread th = none := by
  rw [Option.eq_none_iff_forall_ne_some]
  intro dst pending
  obtain ⟨running, released⟩ := inv.pending th dst alive pending
  exact other.elim (· running) (· released)

theorem bystands_running {after : ThreadState} (bystands : Bystands .running after) :
    after = .running := by simpa [Bystands] using bystands

theorem bystands_idle {before after : ThreadState} (bystands : Bystands before after)
    (idle : before = .out ∨ before = .blocked) :
    after = .out ∨ after = .blocked := by
  rcases idle with rfl | rfl
  · rcases bystands with same | ⟨-, now⟩ | ⟨other, -⟩ | ⟨other, -⟩
    · exact .inl same
    · exact .inr now
    all_goals cases other
  · exact .inr (by simpa [Bystands] using bystands)

/-- An operation of one thread leaves it without a target, and not halfway
through `finish` unless it has left. -/
theorem SysInv.operate (position : Position) (stage : Finishing)
    (inv : SysInv sys) (alive : sys.sched.alive th = true)
    (invNext : Inv none ∅ (sys.sched.curPhase + 1) sched) (frame : Frame th sys.sched sched)
    (handoff : sched.handoffThread = update sys.sched.handoffThread th none)
    (moved : position = .user ∨ position = sys.position th)
    (left : stage = .none ∨ stage = .ending ∧ (sched.state th = .out ∨ sched.state th = .blocked) ∧
      ∀ gid, sys.sched.gidMap gid ≠ some th) :
    SysInv
      { sched
        position := update sys.position th position
        finishing := update sys.finishing th stage } := by
  constructor
  · rwa [frame.curPhase]
  · intro other dst alive' pending
    simp only [frame.alive, handoff] at alive' pending
    by_cases eq : other = th
    · simp [eq] at pending
    rw [update_of_ne eq] at pending
    obtain ⟨running, released⟩ := inv.pending other dst alive' pending
    have bystands := frame.others other eq
    rw [running] at bystands
    exact ⟨bystands_running bystands, by simpa [eq] using released⟩
  · intro other alive' marked
    simp only [frame.alive] at alive'
    simp only [frame.curPhase, frame.wakeupPhase]
    obtain ⟨atUser, later⟩ := inv.marked other alive' (frame.marked other marked)
    refine ⟨?_, later⟩
    by_cases eq : other = th
    · subst eq
      rcases moved with rfl | rfl <;> simp [atUser]
    · simpa [eq] using atUser
  · intro other leaving
    by_cases eq : other = th
    · rcases left with rfl | ⟨rfl, -⟩ <;> simp [eq] at leaving
    simp only [update_of_ne eq] at leaving
    obtain ⟨alive', running, unmarked⟩ := inv.leaving other leaving
    have bystands := frame.others other eq
    rw [running] at bystands
    refine ⟨by rwa [frame.alive], bystands_running bystands, ?_⟩
    rw [← Bool.not_eq_true] at unmarked ⊢
    exact fun marked => unmarked (frame.marked other marked)
  · intro other ending
    by_cases eq : other = th
    · subst eq
      rcases left with rfl | ⟨-, idle, -⟩
      · simp at ending
      · exact ⟨by rwa [frame.alive], idle⟩
    · simp only [update_of_ne eq] at ending
      obtain ⟨alive', idle⟩ := inv.ending other ending
      exact ⟨by rwa [frame.alive], bystands_idle (frame.others other eq) idle⟩
  · intro gid other found
    simp only [frame.gidMap] at found
    by_cases eq : other = th
    · subst eq
      rcases left with rfl | ⟨-, -, unnamed⟩
      · simp
      · exact absurd found (unnamed gid)
    · simpa [eq] using inv.unnamed gid other found

section

variable (inv : SysInv sys)
include inv

/-- An operation of a thread outside `sync` and `finish`. -/
theorem SysInv.kept (alive : sys.sched.alive th = true)
    (kept : Kept th ∅ (sys.sched.curPhase + 1) sys.sched sched)
    (noTarget : sys.sched.handoffThread th = none) (unstaged : sys.finishing th = .none) :
    SysInv { sys with sched } := by
  have next := inv.operate (sys.position th) .none alive kept.inv kept.frame
    (by rw [← noTarget, update_eq_self, kept.handoff]) (.inr rfl) (.inl rfl)
  rw [← unstaged] at next
  simpa only [update_eq_self] using next

/-! ## The steps -/

section

variable (schedQuantum : Nat)
include schedQuantum

theorem start_sysInv {mask : Cid lastCore → Bool}
    (unused : sys.sched.gidMap gid = none) (nonempty : ∃ ctx, mask ctx = true) :
    Gives (sys.step schedQuantum (.start gid mask)) SysInv := by
  have older : ∀ th, sys.sched.alive th = true → th ≠ sys.sched.nextPtr :=
    fun th alive => ne_of_lt (inv.inv.gids.allocated th alive)
  simp only [step, Scheduler.start, check_true _ unused, check_true _ nonempty]
  refine Gives.pure
    { inv := inv.inv.create gid mask
      pending := fun th dst alive pending => ?_
      marked := fun th alive marked => ?_
      leaving := fun th leaving => ?_
      ending := fun th ending => ?_
      unnamed := fun name th found => ?_ }
  · by_cases eq : th = sys.sched.nextPtr
    · simp [eq] at pending
    · simp only [update_of_ne eq] at alive pending ⊢
      exact inv.pending th dst alive pending
  · by_cases eq : th = sys.sched.nextPtr
    · simp [eq] at marked
    · simp only [update_of_ne eq] at alive marked ⊢
      exact inv.marked th alive marked
  · have eq := older th (inv.leaving th leaving).1
    simp only [update_of_ne eq]
    exact inv.leaving th leaving
  · have eq := older th (inv.ending th ending).1
    simp only [update_of_ne eq]
    exact inv.ending th ending
  · by_cases same : name = gid
    · simp only [same, update_self, Option.some.injEq] at found
      subst found
      cases stage : sys.finishing sys.sched.nextPtr with
      | none => rfl
      | leaving => exact absurd rfl (older _ (inv.leaving _ stage).1)
      | ending => exact absurd rfl (older _ (inv.ending _ stage).1)
    · simp only [update_of_ne same] at found
      exact inv.unnamed name th found

theorem markForSleep_sysInv {wakeupPhase : Nat}
    (found : sys.sched.gidMap gid = some th) (simulates : sys.Simulates th)
    (unmarked : sys.sched.markedForSleep th = false) (later : sys.sched.curPhase < wakeupPhase) :
    Gives (sys.step schedQuantum (.markForSleep gid wakeupPhase))
      SysInv := by
  apply (markForSleep_spec inv.inv wakeupPhase found simulates.1 unmarked).bind
  rintro _ ⟨invNext, rfl⟩
  refine Gives.pure
    { inv with
      inv := invNext
      marked := fun other alive marked => ?_
      leaving := fun other leaving => ?_ }
  · by_cases eq : other = th
    · simp [eq, simulates.2.1, later]
    · simp only [update_of_ne eq] at marked ⊢
      exact inv.marked other alive marked
  · have eq : other ≠ th := by
      rintro rfl
      have idle := simulates.2.2
      simp [idle] at leaving
    simp only [update_of_ne eq]
    exact inv.leaving other leaving

omit schedQuantum in
theorem sync_sysInv {cid : Cid lastCore}
    (found : sys.sched.curThread cid = some th) (simulates : sys.Simulates th)
    (unmarked : sys.sched.markedForSleep th = false) :
    Gives (sys.sync cid) SysInv := by
  have alive := (inv.inv.placement.occupant cid th found).1
  have noTarget := inv.no_target alive (.inr (by simp [simulates.2.1]))
  rw [sync, found]
  refine .check unmarked ?_
  refine Gives.pure
    { inv with
      pending := fun other dst alive' pending => ?_
      marked := fun other alive' marked => ?_ }
  · have eq : other ≠ th := by
      rintro rfl
      simp [noTarget] at pending
    simpa [eq] using inv.pending other dst alive' pending
  · have eq : other ≠ th := by
      rintro rfl
      simp [unmarked] at marked
    simpa [eq] using inv.marked other alive' marked

theorem callback_sysInv (draws : Draws) (waiting : ∀ ctx, ∀ th ∈ sys.sched.curThread ctx,
      sys.sched.state th = .running → sys.position th = .waiting) :
    Gives (sys.step schedQuantum (.callback draws)) SysInv := by
  have atBarrier : ∀ th, sys.sched.alive th = true →
      sys.sched.state th = .running → sys.position th = .waiting := by
    intro th alive running
    exact waiting _ th ((inv.inv.placement.placed th alive).mp (.inl running)) running
  have noTarget : ∀ th dst, sys.sched.alive th = true → sys.sched.handoffThread th ≠ some dst := by
    intro th dst alive pending
    obtain ⟨running, released⟩ := inv.pending th dst alive pending
    simp [atBarrier th alive running] at released
  apply (callback_spec inv.inv schedQuantum draws fun th dst alive pending =>
    absurd pending (noTarget th dst alive)).bind
  intro next ended
  have alive : next.alive = sys.sched.alive := (ended.aside 0).alive
  have gidMap : next.gidMap = sys.sched.gidMap := (ended.aside 0).gidMap
  refine Gives.pure
    { inv := ended.inv
      pending := fun th dst aliveTh pending => ?_
      marked := fun th aliveTh marked => ?_
      leaving := fun th leaving => ?_
      ending := fun th ending => ?_
      unnamed := fun gid th found => ?_ }
  · simp only [alive] at aliveTh
    have changed : next.handoffThread th ≠ sys.sched.handoffThread th := by
      rw [pending]
      exact (noTarget th dst aliveTh).symm
    have running := (ended.victims th changed).2
    have bystands := ended.aside.state th
    simp only [running] at bystands
    exact ⟨bystands_running bystands, by simp [atBarrier th aliveTh running, release]⟩
  · simp only [alive] at aliveTh
    have before := (ended.aside th).marked th marked
    have running := (inv.inv.waits.marked th aliveTh before).1
    have user := (inv.marked th aliveTh before).1
    simp [atBarrier th aliveTh running] at user
  · obtain ⟨aliveTh, running, unmarked⟩ := inv.leaving th leaving
    have bystands := ended.aside.state th
    simp only [running] at bystands
    refine ⟨by rwa [alive], bystands_running bystands, ?_⟩
    rw [← Bool.not_eq_true] at unmarked ⊢
    exact fun marked => unmarked ((ended.aside th).marked th marked)
  · obtain ⟨aliveTh, idle⟩ := inv.ending th ending
    exact ⟨by rwa [alive], bystands_idle (ended.aside.state th) idle⟩
  · simp only [gidMap] at found
    exact inv.unnamed gid th found

theorem resume_sysInv (alive : sys.sched.alive th = true) (running : sys.sched.state th = .running)
    (released : sys.position th = .released) (unstaged : sys.finishing th = .none) :
    Gives (sys.step schedQuantum (.resume th)) SysInv := by
  have unmarked : sys.sched.markedForSleep th = false := by
    rw [← Bool.not_eq_true]
    intro marked
    simp [(inv.marked th alive marked).1] at released
  apply (handoff_spec inv.inv alive running unmarked).bind
  rintro next ⟨invNext, frame, handoff⟩
  have result := inv.operate .user .none alive invNext frame handoff (.inl rfl) (.inl rfl)
  rw [← unstaged, update_eq_self] at result
  exact Gives.pure result

theorem finishLeave_sysInv (leaving : sys.finishing th = .leaving)
    (noTarget : sys.sched.handoffThread th = none) :
    Gives (sys.step schedQuantum (.finishLeave th)) SysInv := by
  obtain ⟨alive, running, unmarked⟩ := inv.leaving th leaving
  apply (leave_spec inv.inv alive rfl running (by simp [unmarked])).bind
  rintro next ⟨kept, gone⟩
  have result := inv.operate (sys.position th) .ending alive kept.inv
    kept.frame (by rw [← noTarget, update_eq_self, kept.handoff])
    (.inr rfl) (.inr ⟨rfl, gone unmarked, fun gid found => by
      simp [inv.unnamed gid th found] at leaving⟩)
  rw [update_eq_self] at result
  exact Gives.pure result

end

/-- A thread is deleted. -/
theorem SysInv.ended {gidMap : Gid → Option Ptr} (names : ∀ gid other, gidMap gid = some other →
      sys.sched.gidMap gid = some other)
    (ended : Ended th ∅ (sys.sched.curPhase + 1) { sys.sched with gidMap } sched) :
    SysInv { sys with
      sched
      finishing := update sys.finishing th .none } := by
  have others (other) (alive : sched.alive other = true) :
      other ≠ th ∧ sys.sched.alive other = true := by
    rw [ended.alive] at alive
    by_cases eq : other = th
    · simp [eq] at alive
    · exact ⟨eq, by simpa [eq] using alive⟩
  have same (other) (eq : other ≠ th) :
      sched.alive other = sys.sched.alive other ∧ sched.state other = sys.sched.state other :=
    ⟨by simp [ended.alive, eq], ended.states other eq⟩
  constructor
  · have invNext := ended.inv
    simpa only [ended.curPhase] using invNext
  · intro other dst alive pending
    obtain ⟨eq, before⟩ := others other alive
    simp only [ended.handoff] at pending
    simp only [(same other eq).2]
    exact inv.pending other dst before pending
  · intro other alive marked
    simp only [ended.curPhase, ended.wakeupPhase]
    exact inv.marked other (others other alive).2 (ended.marked other marked)
  · intro other leaving
    have eq : other ≠ th := by
      rintro rfl
      simp at leaving
    simp only [update_of_ne eq] at leaving
    obtain ⟨alive, running, unmarked⟩ := inv.leaving other leaving
    simp only [(same other eq).1, (same other eq).2]
    refine ⟨alive, running, ?_⟩
    rw [← Bool.not_eq_true] at unmarked ⊢
    exact fun marked => unmarked (ended.marked other marked)
  · intro other ending
    have eq : other ≠ th := by
      rintro rfl
      simp at ending
    simp only [update_of_ne eq] at ending
    simp only [(same other eq).1, (same other eq).2]
    exact inv.ending other ending
  · intro gid other found
    simp only [ended.gidMap] at found
    by_cases eq : other = th
    · simp [eq]
    · simpa [eq] using inv.unnamed gid other (names gid other found)

theorem finishEnd_sysInv (schedQuantum : Nat) (ending : sys.finishing th = .ending) :
    Gives (sys.step schedQuantum (.finishEnd th)) SysInv := by
  obtain ⟨alive, idle⟩ := inv.ending th ending
  have notRunning : sys.sched.state th ≠ .running := by
    rcases idle with state | state <;> simp [state]
  have unnamed : ∀ gid, sys.sched.gidMap gid ≠ some th := by
    intro gid found
    simp [inv.unnamed gid th found] at ending
  apply (finishEnd_spec inv.inv alive (.inr (idle.imp_right .inl))
    (inv.no_target alive (.inl notRunning)) unnamed).bind
  intro next ended
  exact Gives.pure (inv.ended (fun _ _ => id) ended)

theorem finish_sysInv (found : sys.sched.gidMap gid = some th)
    (awake : sys.sched.state th ≠ .sleeping) (unmarked : sys.sched.markedForSleep th = false)
    (inQueue : sys.sched.state th = .queued → th ∈ sys.sched.runQueue) :
    Gives (sys.finish gid) SysInv := by
  have alive := (inv.inv.gids.named gid th found).1
  have names (name other) (named : update sys.sched.gidMap gid none name = some other) :
      name ≠ gid ∧ sys.sched.gidMap name = some other := by
    by_cases same : name = gid
    · simp [same] at named
    · exact ⟨same, by simpa [same] using named⟩
  rw [finish, lookup_eq found, ok_bind]
  by_cases running : sys.sched.state th = .running
  · have erased : sys.sched.finish gid = .ok
        { sys.sched with gidMap := update sys.sched.gidMap gid none } := by
      rw [Scheduler.finish, lookup_eq found, ok_bind, if_pos running]
      rfl
    rw [erased, ok_bind, if_pos running]
    refine Gives.pure
      { inv with
        inv := inv.inv.eraseGid gid
        leaving := fun other leaving => ?_
        ending := fun other ending => ?_
        unnamed := fun name other named => ?_ }
    · by_cases eq : other = th
      · subst eq
        exact ⟨alive, running, unmarked⟩
      · exact inv.leaving other (by simpa [eq] using leaving)
    · by_cases eq : other = th
      · simp [eq] at ending
      · exact inv.ending other (by simpa [eq] using ending)
    · obtain ⟨ne, before⟩ := names name other named
      have eq : other ≠ th := by
        rintro rfl
        exact ne ((inv.inv.gids.named name other before).2.symm.trans
          (inv.inv.gids.named gid other found).2)
      simpa [eq] using inv.unnamed name other before
  · have state : sys.sched.state th = .started ∨ sys.sched.state th = .out ∨
        sys.sched.state th = .blocked ∨
        sys.sched.state th = .queued ∧ th ∈ sys.sched.runQueue := by
      cases now : sys.sched.state th <;> simp_all
    apply (finish_spec inv.inv found state (inv.no_target alive (.inl running))).bind
    intro next ended
    rw [if_neg running]
    have result := inv.ended (fun name other named =>
      (names name other named).2) ended
    rw [← inv.unnamed gid th found, update_eq_self] at result
    exact Gives.pure result

end

theorem step_sysInv (schedQuantum : Nat) {op : Op lastCore} (inv : SysInv sys)
    (enabled : sys.Enabled op) (undisturbed : sys.Undisturbed op) :
    Gives (sys.step schedQuantum op) SysInv := by
  cases op with
  | start gid mask =>
    exact start_sysInv inv schedQuantum enabled.1 enabled.2
  | join gid =>
    obtain ⟨th, found, ready⟩ := enabled
    have alive := (inv.inv.gids.named gid th found).1
    have notRunning : sys.sched.state th ≠ .running := by
      rcases ready with state | state | state | state <;> simp [state]
    apply (join_spec inv.inv found ready).bind
    intro next kept
    exact Gives.pure (inv.kept alive kept
      (inv.no_target alive (.inl notRunning)) (inv.unnamed gid th found))
  | leave gid cid =>
    obtain ⟨th, found, named, running, user, unstaged⟩ := enabled
    rcases inv.inv.placement.occupant cid th found with ⟨alive, rfl⟩
    apply (leave_spec inv.inv alive named running fun marked =>
      (inv.marked th alive marked).2).bind
    rintro next ⟨kept, -⟩
    exact Gives.pure (inv.kept alive kept (inv.no_target alive (.inr (by simp [user]))) unstaged)
  | markForSleep gid wakeupPhase =>
    obtain ⟨th, found, simulates, unmarked, later⟩ := enabled
    exact markForSleep_sysInv inv schedQuantum found simulates unmarked later
  | notifySleepEnd gid =>
    obtain ⟨th, found, idle⟩ := enabled
    have alive := (inv.inv.gids.named gid th found).1
    have notRunning : sys.sched.state th ≠ .running := by
      rcases idle with state | state <;> simp [state]
    apply (notifySleepEnd_spec inv.inv found idle).bind
    intro next kept
    exact Gives.pure (inv.kept alive kept
      (inv.no_target alive (.inl notRunning)) (inv.unnamed gid th found))
  | sync cid =>
    obtain ⟨th, found, simulates, unmarked⟩ := enabled
    exact sync_sysInv inv found simulates unmarked
  | callback draws => exact callback_sysInv inv schedQuantum draws enabled
  | resume th =>
    obtain ⟨alive, running, released, unstaged⟩ := enabled
    exact resume_sysInv inv schedQuantum alive running released unstaged
  | finish gid =>
    obtain ⟨th, found, awake, unmarked, inQueue⟩ := undisturbed
    exact finish_sysInv inv found awake unmarked inQueue
  | finishLeave th =>
    exact finishLeave_sysInv inv schedQuantum enabled undisturbed
  | finishEnd th => exact finishEnd_sysInv inv schedQuantum enabled

/-! ## Runs -/

/-- Every queued thread waits in the run queue or for one running thread, and
handoffs refer to threads that exist. -/
structure NoneLost (sched : Scheduler lastCore) : Prop where
  queued : ∀ th, sched.alive th = true → sched.state th = .queued → th ∈ sched.runQueue ∨
      ∃! holder, sched.alive holder = true ∧ sched.state holder = .running ∧
        sched.handoffThread holder = some th
  target : ∀ th dst, sched.alive th = true →
    sched.handoffThread th = some dst → sched.alive dst = true

theorem SysInv.noneLost (inv : SysInv sys) : NoneLost sys.sched where
  queued := by
    intro th alive queued
    rcases inv.inv.covered th alive queued with
      mem | ⟨holder, aliveHolder, pending⟩ | gone
    · exact .inl mem
    · have running := (inv.pending holder th aliveHolder pending).1
      refine .inr ⟨holder, ⟨aliveHolder, running, pending⟩, ?_⟩
      rintro other ⟨alive', -, pendingOther⟩
      exact inv.inv.handoffs.unique other holder th alive' aliveHolder pendingOther pending
    · exact absurd gone (Set.notMem_empty th)
  target := fun th dst alive pending =>
    (inv.inv.handoffs.target th dst alive pending).1

/--
If no thread finishes in the middle of a handoff, asleep or about to sleep, then
every run completes, and no queued thread is lost.
-/
theorem undisturbed_run_loses_none (schedQuantum : Nat) (ops : List (Op lastCore))
    (meets : RunMeets (step schedQuantum)
      (fun sys op => sys.Enabled op ∧ sys.Undisturbed op) ops initial) :
    ∃ sys, run schedQuantum ops = .ok sys ∧ NoneLost sys.sched := by
  rcases RunMeets.gives (fun _ _ inv allowed => step_sysInv schedQuantum inv allowed.1 allowed.2)
    meets sysInv_initial with ⟨sys, returns, inv⟩
  exact ⟨sys, returns, inv.noneLost⟩

/-- One context and two threads: the second gets the context by a handoff, and
both finish, one of them while it is running. -/
def bothFinish : List (Op 0) := [.start 0 fun _ => true, .join 0, .start 1 fun _ => true, .join 1,
    .sync (Fin.last 0), .callback Fin.last, .resume 0, .finish 0, .finish 1, .finishLeave 1,
    .finishEnd 1]

theorem undisturbed_run_loses_none_two :
    ∃ sys, run 1 bothFinish = .ok sys ∧ NoneLost sys.sched := by
  apply undisturbed_run_loses_none
  decide +kernel

/-- The second thread is the target of a handoff when its process is killed. -/
def killedTarget : List (Op 0) := [.start 0 fun _ => true, .join 0, .start 1 fun _ => true, .join 1,
    .sync (Fin.last 0), .callback Fin.last, .finish 1]

/-- The assertion of `finish` that the thread is in the run queue fails. -/
theorem killed_target_fails : RunMeets (step 1) Enabled killedTarget initial ∧
      run 1 killedTarget = .error .finishOwner := by
  constructor
  · decide +kernel
  · rfl

end System

end Scheduler

end Damov.Scheduling
