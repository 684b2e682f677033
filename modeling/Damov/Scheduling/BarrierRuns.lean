import Damov.Scheduling.Barrier

/-!
# Runs of the barrier

Each operation changes the state of one thread and then tries to wake the next
ones. The change keeps the invariant as long as the recorded index of a thread
that rejoins is its place in the run list.

A thread that joins from the offline state keeps the `lastIdx` of an earlier
time. If it leaves before it is woken, the phase can pass it, and when it
rejoins the stale index either fails the assertion or keeps the thread from
having its turn. A thread that was woken has its own index until it goes
offline, through all the rearrangements of the run list.
-/

namespace Damov.Scheduling

open Library.Checked Library.Counting Library.ListMoves Function List Option

namespace Barrier

variable {maxThreads parallelThreads : Nat} {bar next : Barrier maxThreads}

/-! ## Operations -/

variable {tid : Fin maxThreads}

section

variable (steady : Steady parallelThreads bar)
include steady

/-- A thread that joins waits for its turn, which the phase has not passed. -/
theorem Steady.join (isLeft : bar.state tid = .left) (ahead : tid ∉ bar.passed) :
    Steady parallelThreads { bar with
      leftThreads := bar.leftThreads - 1
      state := update bar.state tid .waiting
      futexWord := update bar.futexWord tid 1
      events := .joined tid :: bar.events } := by
  refine steady.change (steady.mem_runList isLeft (by simp)) (by simp)
    ?running steady.bounded ?left steady.phases (by simp) ?armed (by simp)
    (fun _ mem => absurd mem ahead) (fun _ same earlier => ⟨same.symm, earlier⟩)
  case running =>
    exact steady.running.trans (population_update_other (by simp [isLeft]) (by simp)).symm
  case left =>
    rw [steady.left]
    exact (population_update_old isLeft (by simp)).symm
  case armed => exact fun other same => update_of_ne same _ _

/-- An offline thread goes on the run list as one that left. -/
theorem Steady.append (offline : bar.state tid = .offline) :
    Steady parallelThreads { bar with
      runList := bar.runList ++ [tid]
      state := update bar.state tid .left
      leftThreads := bar.leftThreads + 1 } := by
  have fresh : tid ∉ bar.runList := by simp [steady.listed, offline]
  refine {
    nodup := ?_
    listed := fun other => ?_
    running := ?_
    bounded := steady.bounded
    left := ?_
    phases := steady.phases
    cur_le := ?_
    armed := fun other => ?_
    ran := fun other => ?_
    served := fun other found => ?_ }
  · simpa [nodup_append] using ⟨steady.nodup, fun other mem same => fresh (same ▸ mem)⟩
  · by_cases same : other = tid
    · simp [same]
    · simpa [same] using steady.listed other
  · exact steady.running.trans (population_update_other (by simp [offline]) (by simp)).symm
  · rw [steady.left]
    exact (population_update_new (by simp [offline])).symm
  · rw [length_append]
    exact Nat.le_add_right_of_le steady.cur_le
  · by_cases same : other = tid
    · simp [same]
    · simpa [same] using steady.armed other
  · by_cases same : other = tid
    · simp [same]
    · simpa [same] using steady.ran other
  · rw [passed, take_append_of_le_length steady.cur_le] at found
    have same : other ≠ tid := by
      rintro rfl
      exact fresh (mem_of_mem_take found)
    simpa [same] using steady.served other found

/-- Moving back in the run list passes fewer threads. -/
theorem Steady.rewind {curThreadIdx : Nat} (back : curThreadIdx ≤ bar.curThreadIdx) :
    Steady parallelThreads { bar with curThreadIdx := curThreadIdx } where
  toCorrect := { steady.toCorrect with }
  cur_le := le_trans back steady.cur_le
  armed := steady.armed
  ran := steady.ran
  served := fun tid found =>
    steady.served tid (take_subset_take_left _ back found)

theorem Steady.leave (waits : bar.state tid = .waiting) : Steady parallelThreads { bar with
      state := update bar.state tid .left
      leftThreads := bar.leftThreads + 1 } := by
  refine steady.change (steady.mem_runList waits (by simp)) (by simp)
    ?running steady.bounded ?left steady.phases (by simp) (fun _ _ => rfl)
    (by simp) (by simp) (fun _ _ => id)
  case running =>
    exact steady.running.trans (population_update_other (by simp [waits]) (by simp)).symm
  case left =>
    rw [steady.left]
    exact (population_update_new (by simp [waits])).symm

/-- A running thread has had its turn, so it can wait where it is. -/
theorem Steady.sync (running : bar.state tid = .running) : Steady parallelThreads { bar with
      futexWord := update bar.futexWord tid 1
      state := update bar.state tid .waiting
      runningThreads := bar.runningThreads - 1 } := by
  refine steady.change (steady.mem_runList running (by simp)) (by simp)
    ?running ((Nat.sub_le _ _).trans steady.bounded) ?left
    steady.phases (by simp) ?armed (by simp)
    (fun _ _ => steady.ran tid running) (fun _ _ => id)
  case running =>
    rw [steady.running]
    exact (population_update_old running (by simp)).symm
  case left =>
    exact steady.left.trans (population_update_other (by simp [running]) (by simp)).symm
  case armed => exact fun other same => update_of_ne same _ _

end

/-! ## Recorded indices -/

/-- The recorded index of a thread is its place in the run list, except for a
thread that still waits for its turn. -/
def Tracked (bar : Barrier maxThreads) : Prop :=
  ∀ (i : Nat) (tid : Fin maxThreads), bar.runList[i]? = some tid → bar.lastIdx tid = i ∨
      bar.state tid = .waiting ∧ bar.curThreadIdx ≤ i

section

variable (tracked : bar.Tracked)
include tracked

variable {tid : Fin maxThreads}

theorem Tracked.pass (entry : bar.runList[bar.curThreadIdx]? = some tid)
    (skipped : bar.state tid ≠ .waiting) :
    Tracked { bar with curThreadIdx := bar.curThreadIdx + 1 } := by
  intro i other found
  rcases tracked i other found with indexed | ⟨waits, ahead⟩
  · exact .inl indexed
  · refine .inr ⟨waits, lt_of_le_of_ne ahead ?_⟩
    rintro rfl
    rw [entry, some.injEq] at found
    exact skipped (found ▸ waits)

section

variable (nodup : bar.runList.Nodup)
include nodup

theorem Tracked.wake (entry : bar.runList[bar.curThreadIdx]? = some tid) :
    Tracked { bar with
      curThreadIdx := bar.curThreadIdx + 1
      state := update bar.state tid .running
      lastIdx := update bar.lastIdx tid bar.curThreadIdx
      futexWord := update bar.futexWord tid 0
      runningThreads := bar.runningThreads + 1
      events := .woke tid :: bar.events } := by
  intro i other found
  by_cases same : other = tid
  · subst same
    exact .inl (by simpa using position_unique nodup entry found)
  have elsewhere : bar.curThreadIdx ≠ i := by
    rintro rfl
    rw [entry, some.injEq] at found
    exact same found.symm
  simp only [update_of_ne same]
  exact (tracked i other found).imp_right fun before =>
    ⟨before.1, lt_of_le_of_ne before.2 elsewhere⟩

theorem Tracked.drop {idx : Nat} {wtid stid : Fin maxThreads}
    (entry : bar.runList[idx]? = some wtid)
    (last : bar.runList[bar.runList.length - 1]? = some stid) :
    Tracked { bar with
      state := update bar.state wtid .offline
      runList := (bar.runList.set idx stid).take (bar.runList.length - 1)
      lastIdx := update bar.lastIdx stid idx
      leftThreads := bar.leftThreads - 1 } := by
  intro i other found
  obtain ⟨before, ⟨rfl, rfl⟩ | ⟨elsewhere, kept⟩⟩ := fill_getElem? found
  · exact .inl (by simp)
  have notLast : other ≠ stid := by
    rintro rfl
    have same := position_unique nodup kept last
    omega
  have notDropped : other ≠ wtid := by
    rintro rfl
    exact elsewhere (position_unique nodup entry kept)
  simpa [notLast, notDropped] using tracked i other kept

theorem Tracked.exchange {i j : Nat} {itid jtid : Fin maxThreads}
    (first : bar.runList[i]? = some itid) (second : bar.runList[j]? = some jtid) :
    Tracked { bar with
      runList := (bar.runList.set i jtid).set j itid
      lastIdx := update (update bar.lastIdx itid j) jtid i } := by
  intro k other found
  simp only [exchange_getElem? first second] at found
  split at found
  case isTrue there =>
    subst there
    obtain rfl := some.inj found
    left
    by_cases same : itid = jtid
    · subst same
      simpa using position_unique nodup first second
    · simp [same]
  case isFalse notSecond =>
    split at found
    case isTrue there =>
      subst there
      obtain rfl := some.inj found
      exact .inl (by simp)
    case isFalse notFirst =>
      have notI : other ≠ itid := by
        rintro rfl
        exact notFirst (position_unique nodup first found)
      have notJ : other ≠ jtid := by
        rintro rfl
        exact notSecond (position_unique nodup second found)
      simpa [notI, notJ] using tracked k other found

end

theorem Tracked.rewind {curThreadIdx : Nat} (back : curThreadIdx ≤ bar.curThreadIdx) :
    Tracked { bar with curThreadIdx := curThreadIdx } := fun i tid found =>
  (tracked i tid found).imp_right fun before =>
    ⟨before.1, le_trans back before.2⟩

theorem Tracked.move (steady : Steady parallelThreads bar) (move : Move parallelThreads bar next) :
    next.Tracked := by
  cases move with
  | pass entry skipped => exact tracked.pass entry skipped
  | wake entry waits room => exact tracked.wake steady.nodup entry
  | callback finished idle => exact tracked.rewind (Nat.zero_le _)
  | drop rewound entry last isLeft =>
    exact tracked.drop steady.nodup entry last
  | exchange first second side =>
    exact tracked.exchange steady.nodup first second

theorem Tracked.moves (steady : Steady parallelThreads bar)
    (moves : Moves parallelThreads bar next) :
    next.Tracked := by
  induction moves with
  | refl => exact tracked
  | tail before move ih =>
    exact ih.move (steady.moves before) move

/-- A thread that changes its state keeps its index, or waits for its turn. -/
theorem Tracked.change {state : Barrier.State}
    {futexWord : Fin maxThreads → Nat} {runningThreads leftThreads : Nat}
    {events : List (BarrierEvent maxThreads)}
    (place : ∀ i : Nat, bar.runList[i]? = some tid →
      bar.lastIdx tid = i ∨ state = .waiting ∧ bar.curThreadIdx ≤ i) :
    Tracked { bar with
      state := update bar.state tid state
      futexWord := futexWord
      runningThreads := runningThreads
      leftThreads := leftThreads
      events := events } := by
  intro i other found
  by_cases same : other = tid
  · subst same
    simpa using place i found
  · simpa [same] using tracked i other found

end

/-! ## Runs -/

structure Kept (parallelThreads : Nat) (bar : Barrier maxThreads) : Prop
    extends Steady parallelThreads bar where
  tracked : bar.Tracked

section

variable (kept : Kept parallelThreads bar)
include kept

theorem tryWakeNext_keeps (draws : Draws) :
    Gives (bar.tryWakeNext parallelThreads draws) (Kept parallelThreads) :=
  (tryWakeNext_spec kept.toSteady draws).mono fun _ moves =>
    ⟨kept.toSteady.moves moves, kept.tracked.moves kept.toSteady moves⟩

/-- A thread on the run list that is not waiting has its own index. -/
theorem Kept.own (listed : bar.state tid ≠ .offline) (moved : bar.state tid ≠ .waiting) :
    bar.runList[bar.lastIdx tid]? = some tid := by
  obtain ⟨i, found⟩ := getElem?_of_mem ((kept.listed tid).mpr listed)
  rcases kept.tracked i tid found with rfl | ⟨waits, -⟩
  · exact found
  · exact absurd waits moved

/-- The place of a thread that is not waiting is the recorded one. -/
theorem Kept.place {state : Barrier.State} (listed : bar.state tid ≠ .offline)
    (moved : bar.state tid ≠ .waiting) (i : Nat) (found : bar.runList[i]? = some tid) :
    bar.lastIdx tid = i ∨ state = .waiting ∧ bar.curThreadIdx ≤ i :=
  .inl (position_unique kept.nodup (kept.own listed moved) found)

/-- The thread goes back in the list far enough to have its turn next. -/
theorem Kept.reschedule {otherTid : Fin maxThreads} (isLeft : bar.state tid = .left)
    (before : bar.lastIdx tid < bar.curThreadIdx)
    (other : bar.runList[bar.curThreadIdx - 1]? = some otherTid)
    (own : bar.runList[bar.lastIdx tid]? = some tid) :
    Kept parallelThreads { bar with
      leftThreads := bar.leftThreads - 1
      curThreadIdx := bar.curThreadIdx - 1
      runList := (bar.runList.set (bar.curThreadIdx - 1) tid).set (bar.lastIdx tid) otherTid
      lastIdx := update (update bar.lastIdx otherTid (bar.lastIdx tid)) tid (bar.curThreadIdx - 1)
      state := update bar.state tid .waiting
      futexWord := update bar.futexWord tid 1
      events := .joined tid :: bar.events } := by
  have exchanged := (kept.toSteady.exchange other own (by omega)).rewind
    (Nat.sub_le bar.curThreadIdx 1)
  have place : ((bar.runList.set (bar.curThreadIdx - 1) tid).set
          (bar.lastIdx tid) otherTid)[bar.curThreadIdx - 1]? =
        some tid := by
    rw [exchange_getElem? other own]
    split
    case isTrue same => rw [← other, ← same, own]
    case isFalse => exact if_pos rfl
  have ahead := (notMem_take_iff exchanged.nodup place).mpr le_rfl
  refine ⟨exchanged.join isLeft ahead, ?_⟩
  apply Tracked.change ((kept.tracked.exchange kept.nodup other own).rewind (Nat.sub_le _ 1))
  intro i found
  exact .inr ⟨rfl, (notMem_take_iff exchanged.nodup found).mp ahead⟩

/-- A new thread is at the end of the list. -/
theorem Kept.enlist (offline : bar.state tid = .offline) :
    Kept parallelThreads { bar with
      runList := bar.runList ++ [tid]
      state := update bar.state tid .waiting
      futexWord := update bar.futexWord tid 1
      events := .joined tid :: bar.events } := by
  have appended := kept.toSteady.append offline
  have place : (bar.runList ++ [tid])[bar.runList.length]? =
      some tid := getElem?_concat_length
  have ahead := (notMem_take_iff appended.nodup place).mpr kept.cur_le
  refine ⟨?_, fun i other found => ?_⟩
  · simpa using appended.join (by simp) ahead
  · by_cases same : other = tid
    · subst same
      refine .inr ⟨by simp, ?_⟩
      exact (notMem_take_iff appended.nodup found).mp ahead
    have before : i < bar.runList.length := by
      have bound := lt_length_of_getElem? found
      by_contra behind
      have last : i = bar.runList.length := by
        simp at bound
        omega
      subst last
      rw [place, some.injEq] at found
      exact same found.symm
    rw [getElem?_append_left before] at found
    simpa [same] using kept.tracked i other found

/-- The index of a thread that rejoins is its own, so it goes back to its turn if
the phase has passed it. -/
theorem enlist_spec (allowed : bar.state tid = .left ∨ bar.state tid = .offline) :
    Gives (bar.enlist tid) (fun enlisted => Kept parallelThreads { enlisted with
        state := update enlisted.state tid .waiting
        futexWord := update enlisted.futexWord tid 1
        events := .joined tid :: enlisted.events }) := by
  rcases allowed with isLeft | offline
  · have own : bar.runList[bar.lastIdx tid]? = some tid :=
      kept.own (by simp [isLeft]) (by simp [isLeft])
    rw [enlist, if_neg (by simp [isLeft])]
    by_cases before : bar.lastIdx tid < bar.curThreadIdx
    · simp only [if_pos before]
      have bound := kept.cur_le
      refine .check own ?_
      apply (runThread_spec (by simp; omega)).bind
      intro otherTid other
      apply (runThread_spec (by simp; omega)).bind
      intro ownTid isOwn
      obtain rfl : tid = ownTid := some.inj (own.symm.trans isOwn)
      exact .pure (kept.reschedule isLeft before other own)
    · simp only [if_neg before]
      have ahead := (notMem_take_iff kept.nodup own).mpr (Nat.le_of_not_lt before)
      refine .pure ⟨kept.toSteady.join isLeft ahead, kept.tracked.change ?_⟩
      exact kept.place (by simp [isLeft]) (by simp [isLeft])
  · rw [enlist, if_pos offline]
    exact .pure (kept.enlist offline)

theorem leave_running_spec (draws : Draws) (running : bar.state tid = .running) :
    Gives (bar.leave parallelThreads draws tid) (Kept parallelThreads) := by
  rw [leave, if_pos running]
  refine tryWakeNext_keeps ⟨?_, kept.tracked.change ?_⟩ draws
  · refine kept.change (kept.mem_runList running (by simp)) (by simp)
      ?running ((Nat.sub_le _ _).trans kept.bounded) ?left
      kept.phases (by simp) (fun _ _ => rfl) (by simp) (by simp)
      (fun _ _ => id)
    case running =>
      rw [kept.running]
      exact (population_update_old running (by simp)).symm
    case left =>
      rw [kept.left]
      exact (population_update_new (by simp [running])).symm
  · exact kept.place (by simp [running]) (by simp [running])

theorem step_spec {op : Op maxThreads} (allowed : bar.Allowed op ∧ bar.Settled op) :
    Gives (bar.step parallelThreads op) (Kept parallelThreads) := by
  cases op with
  | join tid draws =>
    refine .check allowed.1 ?_
    apply (enlist_spec kept allowed.1).bind
    exact fun _ enlisted => tryWakeNext_keeps enlisted draws
  | sync tid draws =>
    have running : bar.state tid = .running := allowed.1
    refine .check running ?_
    refine tryWakeNext_keeps ⟨kept.toSteady.sync running, kept.tracked.change ?_⟩ draws
    exact kept.place (by simp [running]) (by simp [running])
  | leave tid draws =>
    obtain ⟨running | waits, settled⟩ := allowed
    · exact leave_running_spec kept draws running
    · rw [step, leave, if_neg (by simp [waits])]
      refine .check waits ?_
      refine .pure ⟨kept.toSteady.leave waits, kept.tracked.change ?_⟩
      exact fun i found => .inl (position_unique kept.nodup (settled waits) found)

end

/--
A run in which no waiting thread leaves before its place is recorded completes: no
assertion fails, and the barrier ends a phase only when every waiting thread had
its turn.
-/
theorem settled_run_correct (parallelThreads : Nat) (lastIdx : Fin maxThreads → Nat)
    (ops : List (Op maxThreads))
    (settled : RunMeets (step parallelThreads) (fun bar op =>
      bar.Allowed op ∧ bar.Settled op) ops (initial lastIdx)) :
    ∃ bar, run parallelThreads lastIdx ops = .ok bar ∧ Correct parallelThreads bar := by
  rcases RunMeets.gives (fun _ _ kept allowed => step_spec kept allowed) settled
    ⟨steady_initial parallelThreads lastIdx, fun _ _ => nofun⟩ with ⟨bar, returns, kept⟩
  exact ⟨bar, returns, kept.toCorrect⟩

/-- Two threads take turns. Each of them leaves once, the second while it waits,
and rejoins in the same phase. -/
theorem settled_run_correct_two : ∃ bar, run 1 (fun _ : Fin 2 => 7)
          [.join 0 (fun _ => 0), .join 1 (fun _ => 0), .leave 0 (fun _ => 0),
            .join 0 (fun _ => 0), .sync 1 (fun _ => 0), .leave 1 (fun _ => 0),
            .join 1 (fun _ => 0)] =
        .ok bar ∧
      Correct 1 bar :=
  settled_run_correct 1 _ _ (by decide +kernel)

/--
The thread `0` runs, leaves and goes offline. It joins again behind `1`, leaves
before it is woken, and rejoins with the index of its first turn.
-/
theorem stale_index_fails : RunMeets (step 1) Allowed
        [.join 0 (fun _ => 0), .leave 0 (fun _ => 0), .join 1 (fun _ => 0),
          .sync 1 (fun _ => 0), .join 0 (fun _ => 0), .leave 0 (fun _ => 0),
          .join 0 (fun _ => 0)]
        (initial (fun _ : Fin 2 => 7)) ∧
      run 1 (fun _ : Fin 2 => 7) [.join 0 (fun _ => 0), .leave 0 (fun _ => 0),
            .join 1 (fun _ => 0), .sync 1 (fun _ => 0),
            .join 0 (fun _ => 0), .leave 0 (fun _ => 0),
            .join 0 (fun _ => 0)] =
        .error .rejoinIndex :=
  ⟨by decide +kernel, rfl⟩

end Barrier

end Damov.Scheduling
