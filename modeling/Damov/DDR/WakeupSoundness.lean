import Damov.DDR.Controller

/-!
# The controller is woken by one event

`Sound` says that of the scheduling events at most one is queued, that it is the
next one of the controller, and that it is pending at a system cycle that the
controller translates back to `nextSchedCycle`. The others are annulled, free or
not yet created. While an event is taken out of this order it is `Loose`.
-/

namespace Damov.DDR

open Library.Checked
open Weave (EventState)
open Function
open List

/-! ## Clocks -/

namespace Config

variable (cfg : Config) {memCycle sysCycle : Nat}

theorem two_memFreq_lt_sysFreq : 2 * cfg.memFreqKHz < cfg.sysFreqKHz := by
  have slower := cfg.memSlower
  omega

theorem sysToMemCycle_pos (sysCycle : Nat) : 0 < cfg.sysToMemCycle sysCycle := Nat.succ_pos _

theorem sysToMemCycle_mono {earlier later : Nat} (order : earlier ≤ later) :
    cfg.sysToMemCycle earlier ≤ cfg.sysToMemCycle later :=
  Nat.succ_le_succ (Nat.div_le_div_right (Nat.mul_le_mul_right cfg.memFreqKHz order))

/-- The middle of a memory cycle lies in it. -/
theorem sysToMemCycle_matching (positive : 0 < memCycle) :
    cfg.sysToMemCycle (cfg.matchingMemToSysCycle memCycle) =
      memCycle := by
  obtain ⟨before, rfl⟩ := Nat.exists_eq_succ_of_ne_zero positive.ne'
  have slower := cfg.two_memFreq_lt_sysFreq
  have memRuns := cfg.memRuns
  rw [sysToMemCycle, matchingMemToSysCycle, Nat.div_div_eq_div_mul]
  generalize cfg.memFreqKHz = mem at *
  generalize cfg.sysFreqKHz = sys at *
  have halves : (2 * before.succ - 1) * sys = 2 * (before * sys) + sys := by
    rw [show 2 * before.succ - 1 = 2 * before + 1 by omega, Nat.succ_mul, mul_assoc]
  rw [halves]
  have division := Nat.div_add_mod (2 * (before * sys) + sys) (mem * 2)
  have remainder := Nat.mod_lt (2 * (before * sys) + sys) (show 0 < mem * 2 by omega)
  generalize (2 * (before * sys) + sys) / (mem * 2) = cycle at *
  have doubled : mem * 2 * cycle = 2 * (cycle * mem) := by
    rw [mul_comm mem 2, mul_assoc, mul_comm mem cycle]
  have inside : cycle * mem / sys = before := by
    apply Nat.div_eq_of_lt_le
    · omega
    · rw [Nat.succ_mul]
      omega
  rw [inside]

/-- An event that is queued for a memory cycle runs in it. -/
theorem sysToMemCycle_wake (later : cfg.sysToMemCycle sysCycle ≤ memCycle) :
    cfg.sysToMemCycle (max (cfg.matchingMemToSysCycle memCycle) sysCycle) = memCycle := by
  have positive : 0 < memCycle := (cfg.sysToMemCycle_pos sysCycle).trans_le later
  have matching := cfg.sysToMemCycle_matching positive
  rcases le_total sysCycle (cfg.matchingMemToSysCycle memCycle) with
    order | order
  · rw [max_eq_left order, matching]
  · rw [max_eq_right order]
    have notBefore := cfg.sysToMemCycle_mono order
    omega

theorem matchingMemToSysCycle_pos (positive : 0 < memCycle) :
    0 < cfg.matchingMemToSysCycle memCycle := by
  have slower := cfg.two_memFreq_lt_sysFreq
  rw [matchingMemToSysCycle, Nat.div_div_eq_div_mul]
  apply Nat.div_pos _ (by have := cfg.memRuns; omega)
  calc cfg.memFreqKHz * 2 ≤ 1 * cfg.sysFreqKHz := by omega
    _ ≤ (2 * memCycle - 1) * cfg.sysFreqKHz := Nat.mul_le_mul_right _ (by omega)

/-- The response to a request is not before the cycle it is computed in. -/
theorem le_memToSysCycle (later : cfg.sysToMemCycle sysCycle ≤ memCycle) :
    sysCycle ≤ cfg.memToSysCycle memCycle := by
  have slower := cfg.two_memFreq_lt_sysFreq
  rw [memToSysCycle, Nat.le_div_iff_mul_le cfg.memRuns]
  have division := Nat.lt_div_mul_add (a := sysCycle * cfg.memFreqKHz)
    (show 0 < cfg.sysFreqKHz by omega)
  calc sysCycle * cfg.memFreqKHz ≤ cfg.sysToMemCycle sysCycle * cfg.sysFreqKHz := by
        rw [sysToMemCycle, Nat.add_mul, Nat.one_mul]
        exact division.le
    _ ≤ (memCycle + 1) * cfg.sysFreqKHz := Nat.mul_le_mul_right _ (Nat.le_succ_of_le later)

end Config

namespace Wakeups

variable {cfg : Config} {wks : Wakeups} {ev cycle : Nat}

/-! ## Free, new and pending events -/

/-- What the controller keeps of the events that are free, not yet created or
pending. -/
structure Kept (wks : Wakeups) : Prop where
  freeOnce : wks.eventFreelist.Nodup
  free : ∀ ev ∈ wks.eventFreelist, ev < wks.numSched ∧ wks.state ev = .IDLE ∧ wks.evState ev = .held
  fresh : ∀ ev, wks.numSched ≤ ev → wks.state ev = .IDLE ∧ wks.evState ev = .held
  pendingOnce : (wks.pending.map Prod.fst).Nodup
  isPending : ∀ ev ∈ wks.pending.map Prod.fst,
    wks.evState ev = .queued ∧ (wks.state ev = .QUEUED ∨ wks.state ev = .ANNULLED)

/-- An event that was created and is neither free nor pending. -/
structure Loose (ev : Nat) (wks : Wakeups) : Prop extends Kept wks where
  created : ev < wks.numSched
  notFree : ev ∉ wks.eventFreelist
  notPending : ev ∉ wks.pending.map Prod.fst

namespace Kept

variable (kept : Kept wks)
include kept

theorem created_of_state (busy : wks.state ev ≠ .IDLE) : ev < wks.numSched := by
  by_contra new
  exact busy (kept.fresh ev (Nat.le_of_not_lt new)).1

theorem notFree_of_state (busy : wks.state ev ≠ .IDLE) : ev ∉ wks.eventFreelist :=
  fun mem => busy (kept.free ev mem).2.1

theorem state_of_pending (mem : ev ∈ wks.pending.map Prod.fst) : wks.state ev ≠ .IDLE := by
  rcases (kept.isPending ev mem).2 with state | state <;> simp [state]

theorem annul (queued : wks.state ev = .QUEUED) :
    Kept { wks with state := update wks.state ev .ANNULLED } where
  freeOnce := kept.freeOnce
  free := by
    intro other mem
    have ne : other ≠ ev := by
      rintro rfl
      exact kept.notFree_of_state (by simp [queued]) mem
    simpa [update_of_ne ne] using kept.free other mem
  fresh := by
    intro other new
    have ne : other ≠ ev := by
      rintro rfl
      exact absurd (kept.created_of_state (by simp [queued])) (not_lt.mpr new)
    simpa [update_of_ne ne] using kept.fresh other new
  pendingOnce := kept.pendingOnce
  isPending := by
    intro other mem
    obtain ⟨evState, state⟩ := kept.isPending other mem
    refine ⟨evState, ?_⟩
    rcases eq_or_ne other ev with rfl | ne
    · simp
    · simpa [update_of_ne ne] using state

end Kept

namespace Loose

/-- Nothing else depends on the states of a loose event. -/
theorem agree (loose : Loose ev wks) (next : Wakeups)
    (freelist : next.eventFreelist = wks.eventFreelist)
    (numSched : next.numSched = wks.numSched) (pending : next.pending = wks.pending)
    (state : ∀ other, other ≠ ev → next.state other = wks.state other)
    (evState : ∀ other, other ≠ ev → next.evState other = wks.evState other) :
    Loose ev next where
  freeOnce := freelist ▸ loose.freeOnce
  free := by
    intro other mem
    rw [freelist] at mem
    have distinct : other ≠ ev := ne_of_mem_of_not_mem mem loose.notFree
    rw [numSched, state other distinct, evState other distinct]
    exact loose.free other mem
  fresh := by
    intro other new
    rw [numSched] at new
    have distinct : other ≠ ev := ne_of_gt (loose.created.trans_le new)
    rw [state other distinct, evState other distinct]
    exact loose.fresh other new
  pendingOnce := pending ▸ loose.pendingOnce
  isPending := by
    intro other mem
    rw [pending] at mem
    have distinct : other ≠ ev := ne_of_mem_of_not_mem mem loose.notPending
    rw [state other distinct, evState other distinct]
    exact loose.isPending other mem
  created := numSched ▸ loose.created
  notFree := freelist ▸ loose.notFree
  notPending := pending ▸ loose.notPending

theorem queued (loose : Loose ev wks) (cycle : Nat) : Kept { wks with
      state := update wks.state ev .QUEUED
      evState := update wks.evState ev .queued
      pending := wks.pending ++ [(ev, cycle)] } := by
  have kept := loose.agree
    { wks with
      state := update wks.state ev .QUEUED
      evState := update wks.evState ev .queued }
    rfl rfl rfl (fun _ ne => update_of_ne ne _ _)
    (fun _ ne => update_of_ne ne _ _)
  refine ⟨kept.freeOnce, kept.free, kept.fresh, ?_, ?_⟩
  · rw [map_append, nodup_append]
    exact ⟨kept.pendingOnce, pairwise_singleton _ ev, fun other mem =>
      forall_mem_singleton.mpr (ne_of_mem_of_not_mem mem kept.notPending)⟩
  · rw [map_append]
    exact forall_mem_append.mpr ⟨kept.isPending,
      forall_mem_singleton.mpr ⟨update_self .., .inl (update_self ..)⟩⟩

theorem recycled (loose : Loose ev wks) : Kept { wks with
      state := update wks.state ev .IDLE
      evState := update wks.evState ev .held
      eventFreelist := ev :: wks.eventFreelist } := by
  have kept := loose.agree
    { wks with
      state := update wks.state ev .IDLE
      evState := update wks.evState ev .held }
    rfl rfl rfl (fun _ ne => update_of_ne ne _ _)
    (fun _ ne => update_of_ne ne _ _)
  exact ⟨nodup_cons.mpr ⟨kept.notFree, kept.freeOnce⟩,
    forall_mem_cons.mpr ⟨⟨kept.created, update_self .., update_self ..⟩, kept.free⟩,
    kept.fresh, kept.pendingOnce, kept.isPending⟩

end Loose

/-- `take` gives an idle event. -/
theorem Kept.take (kept : Kept wks) : ∃ ev, wks.take.nextSchedEvent = some ev ∧ Loose ev wks.take ∧
      wks.take.state ev = .IDLE ∧ wks.take.evState ev = .held := by
  cases freelist : wks.eventFreelist with
  | nil =>
    have new := kept.fresh wks.numSched le_rfl
    refine ⟨wks.numSched, by simp [Wakeups.take, freelist], ?_, ?_⟩
    · simp only [Wakeups.take, freelist]
      refine ⟨⟨by simp, by simp, ?_, kept.pendingOnce, kept.isPending⟩,
        Nat.lt_succ_self _, by simp, ?_⟩
      · exact fun other new => kept.fresh other (Nat.le_of_succ_le new)
      · exact fun mem => kept.state_of_pending mem new.1
    · simpa [Wakeups.take, freelist] using new
  | cons ev rest =>
    have once := kept.freeOnce
    have free := kept.free
    rw [freelist] at once free
    have first := free ev mem_cons_self
    refine ⟨ev, by simp [Wakeups.take, freelist], ?_, ?_⟩
    · simp only [Wakeups.take, freelist]
      refine ⟨⟨once.of_cons, ?_, kept.fresh, kept.pendingOnce,
        kept.isPending⟩, first.1, (nodup_cons.mp once).1, ?_⟩
      · exact fun other mem => free other (mem_cons_of_mem ev mem)
      · exact fun mem => kept.state_of_pending mem first.2.1
    · simpa [Wakeups.take, freelist] using first.2

/-! ## The next event -/

/-- No other event than the next one is queued; it is pending for
`nextSchedCycle`. -/
structure Sound (cfg : Config) (wks : Wakeups) : Prop extends Kept wks where
  queued : ∀ ev, wks.state ev = .QUEUED → wks.nextSchedEvent = some ev
  next : ∀ ev, wks.nextSchedEvent = some ev → wks.state ev = .QUEUED ∧
      ∃ sysCycle, (ev, sysCycle) ∈ wks.pending ∧
        wks.nextSchedCycle = some (cfg.sysToMemCycle sysCycle)
  asleep : wks.nextSchedEvent = none → wks.nextSchedCycle = none

theorem sound_initial : Sound cfg initial where
  freeOnce := nodup_nil
  free := by simp [initial]
  fresh := fun _ _ => ⟨rfl, rfl⟩
  pendingOnce := nodup_nil
  isPending := by simp [initial]
  queued := by simp [initial]
  next := by simp [initial]
  asleep := fun _ => rfl

/-- An event that was loose is the only one that is queued. -/
theorem Loose.sound_queued (cfg : Config) (loose : Loose ev wks)
    (others : ∀ other, other ≠ ev → wks.state other ≠ .QUEUED) (sysCycle : Nat) :
    Sound cfg { wks with
      state := update wks.state ev .QUEUED
      evState := update wks.evState ev .queued
      pending := wks.pending ++ [(ev, sysCycle)]
      nextSchedEvent := some ev
      nextSchedCycle := some (cfg.sysToMemCycle sysCycle) } where
  toKept := by
    have kept := loose.queued sysCycle
    exact ⟨kept.freeOnce, kept.free, kept.fresh, kept.pendingOnce, kept.isPending⟩
  queued := by
    intro other state
    rcases eq_or_ne other ev with rfl | ne
    · rfl
    · exact absurd ((update_of_ne ne _ _).symm.trans state) (others other ne)
  next := by
    rintro other ⟨⟩
    exact ⟨update_self .., sysCycle, by simp, rfl⟩
  asleep := by
    rintro ⟨⟩

/-- No event is queued once the next one was annulled. -/
theorem annulNext_spec (sound : Sound cfg wks) : Gives wks.annulNext fun annulled =>
      Kept annulled ∧ ∀ ev, annulled.state ev ≠ .QUEUED := by
  cases next : wks.nextSchedEvent with
  | none =>
    rw [annulNext, next]
    refine .ok ⟨sound.toKept, ?_⟩
    intro ev queued
    have isNext := sound.queued ev queued
    rw [next] at isNext
    cases isNext
  | some ev =>
    rw [annulNext, next]
    have queued := (sound.next ev next).1
    refine .check queued (Gives.pure ⟨sound.toKept.annul queued, ?_⟩)
    intro other state
    dsimp only at state
    rcases eq_or_ne other ev with rfl | ne
    · rw [update_self] at state
      cases state
    · rw [update_of_ne ne] at state
      have isNext := sound.queued other state
      rw [next] at isNext
      exact ne (Option.some.inj isNext).symm

theorem take_state : wks.take.state = wks.state := by
  unfold take
  split <;> rfl

theorem reschedule_spec (sound : Sound cfg wks) (sysCycle : Nat) :
    Gives (wks.reschedule (cfg.sysToMemCycle sysCycle) sysCycle)
      fun next => Sound cfg next ∧ next.nextSchedCycle ≠ none := by
  apply (annulNext_spec sound).bind
  rintro annulled ⟨kept, noneQueued⟩
  obtain ⟨ev, next, loose, idle, held⟩ := kept.take
  rw [enqueueNext, next]
  have others : ∀ other, other ≠ ev → annulled.take.state other ≠ .QUEUED := fun other _ => by
      rw [take_state]
      exact noneQueued other
  have qs : Gives (annulled.take.enqueue ev sysCycle) fun queued =>
      Sound cfg { queued with
        nextSchedCycle := some (cfg.sysToMemCycle sysCycle) } := by
    refine .check idle ?_
    refine .check (.inr held) (Gives.pure ?_)
    have sound := loose.sound_queued cfg others sysCycle
    rwa [← next] at sound
  apply qs.bind
  intro queued sound
  exact .pure ⟨sound, Option.some_ne_none _⟩

/-! ## Running an event -/

/-- The event that runs is loose. -/
theorem run_spec (kept : Kept wks) (mem : ev ∈ wks.pending.map Prod.fst) :
    Gives (wks.run ev) fun ran =>
      Loose ev ran ∧ ran.evState ev = .running ∧ ran.state = wks.state ∧
        ran.nextSchedEvent = wks.nextSchedEvent ∧
        ran.nextSchedCycle = wks.nextSchedCycle ∧
        ran.pending = wks.pending.filter fun entry => entry.1 ≠ ev := by
  have busy := kept.state_of_pending mem
  have created := kept.created_of_state busy
  have notFree := kept.notFree_of_state busy
  refine .check (.inr (kept.isPending ev mem).1)
    (Gives.pure ⟨?_, update_self .., rfl, rfl, rfl, rfl⟩)
  refine ⟨⟨kept.freeOnce, ?_, ?_, ?_, ?_⟩, created, notFree, ?_⟩
  · intro other free
    have ne : other ≠ ev := ne_of_mem_of_not_mem free notFree
    simpa [update_of_ne ne] using kept.free other free
  · intro other new
    have ne : other ≠ ev := ne_of_gt (created.trans_le new)
    simpa [update_of_ne ne] using kept.fresh other new
  · exact kept.pendingOnce.sublist (filter_sublist.map Prod.fst)
  · intro other stays
    obtain ⟨entry, found, rfl⟩ := mem_map.mp stays
    obtain ⟨pending, ne⟩ := mem_filter.mp found
    have ne : entry.1 ≠ ev := by simpa using ne
    simpa [update_of_ne ne] using kept.isPending entry.1 (mem_map_of_mem pending)
  · simp

section

variable (loose : Loose ev wks) (running : wks.evState ev = .running)
include loose running

theorem retire_spec (notNext : wks.nextSchedEvent ≠ some ev) :
    wks.retire ev = .ok { wks with
      state := update wks.state ev .IDLE
      evState := update wks.evState ev .held
      eventFreelist := ev :: wks.eventFreelist } := by
  rw [retire, hold, check_true_bind running]
  have notLinked : ev ∉ wks.eventFreelist.dropLast :=
    fun mem => loose.notFree (dropLast_subset _ mem)
  exact (check_true_bind (β := Wakeups) notNext).trans (check_true_bind notLinked)

/-- After a tick that has found nothing to wait for. -/
theorem finish_asleep (others : ∀ other, other ≠ ev → wks.state other ≠ .QUEUED)
    (event : wks.nextSchedEvent = none) (cycle : wks.nextSchedCycle = none) :
    Gives (wks.finish ev 0) fun finished =>
      Sound cfg finished ∧ finished.nextSchedCycle = wks.nextSchedCycle := by
  have notNext : wks.nextSchedEvent ≠ some ev := by simp [event]
  rw [finish, retire_spec loose running notNext]
  refine .ok ⟨⟨loose.recycled, ?_, ?_, fun _ => cycle⟩, rfl⟩
  · intro other state
    rcases eq_or_ne other ev with rfl | ne
    · simp at state
    · exact absurd ((update_of_ne ne _ _).symm.trans state) (others other ne)
  · intro other next
    exact absurd next (by simp [event])

/-- After a tick that has chosen the cycle of the next one. -/
theorem finish_awake (others : ∀ other, other ≠ ev → wks.state other ≠ .QUEUED)
    (event : wks.nextSchedEvent = some ev) {nextCycle : Nat} (positive : 0 < nextCycle)
    (cycle : wks.nextSchedCycle = some (cfg.sysToMemCycle nextCycle)) :
    Gives (wks.finish ev nextCycle) fun finished =>
      Sound cfg finished ∧ finished.nextSchedCycle = wks.nextSchedCycle := by
  rw [finish, if_neg positive.ne', requeue, check_true_bind (.inl running)]
  have sound := loose.sound_queued cfg others nextCycle
  rw [← event, ← cycle] at sound
  exact .pure ⟨sound, rfl⟩

end

/-- The other events are not concerned. -/
theorem run_other (sound : Sound cfg wks) (notNext : wks.nextSchedEvent ≠ some ev)
    (mem : ev ∈ wks.pending.map Prod.fst) :
    Gives (wks.run ev) fun ran =>
      Sound cfg ran ∧ Loose ev ran ∧ ran.evState ev = .running ∧
        ran.nextSchedEvent ≠ some ev ∧ ran.state = wks.state ∧
        ran.nextSchedCycle = wks.nextSchedCycle := by
  refine (run_spec sound.toKept mem).mono ?_
  rintro ran ⟨loose, running, state, event, cycle, pending⟩
  refine ⟨⟨loose.toKept, ?_, ?_, ?_⟩, loose, running, event ▸ notNext, state, cycle⟩
  · rw [state, event]
    exact sound.queued
  · rw [state, event, cycle, pending]
    intro other isNext
    obtain ⟨queued, sysCycle, isThere, same⟩ := sound.next other isNext
    have ne : other ≠ ev := by
      rintro rfl
      exact notNext isNext
    exact ⟨queued, sysCycle, mem_filter.mpr ⟨isThere, by simpa using ne⟩, same⟩
  · rw [event, cycle]
    exact sound.asleep

/-- An annulled event that runs is free again. -/
theorem retire_annulled (sound : Sound cfg wks)
    (loose : Loose ev wks) (running : wks.evState ev = .running)
    (notNext : wks.nextSchedEvent ≠ some ev) :
    Gives (wks.retire ev) fun retired =>
      Sound cfg retired ∧ retired.nextSchedCycle = wks.nextSchedCycle := by
  rw [retire_spec loose running notNext]
  refine .ok ⟨⟨loose.recycled, ?_, ?_, sound.asleep⟩, rfl⟩
  · intro other state
    rcases eq_or_ne other ev with rfl | ne
    · simp at state
    · exact sound.queued other ((update_of_ne ne _ _).symm.trans state)
  · intro other isNext
    have ne : other ≠ ev := by
      rintro rfl
      exact notNext isNext
    simpa [update_of_ne ne] using sound.next other isNext

end Wakeups

end Damov.DDR
