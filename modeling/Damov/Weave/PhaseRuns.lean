import Damov.Library.Checked
import Damov.Weave.PhaseThread
import Damov.Weave.PrioQueueRefinement
import Mathlib.Algebra.BigOperators.Group.List.Basic

/-!
# Phases on one or on several threads

Without crossings, the domains of a thread take their turns independently of each
other, so that each ends as in a loop of its own. The two loops differ about
events at the limit: only the one for several domains runs them.
-/

namespace Damov.Weave

open Library.Checked Library.Loops Function List
open PrioQueue (Refines)

variable {δ ε : Type} {phase : Phase} {program : EventProgram δ ε} {domPq : TopDomain δ ε}

namespace Domain

variable {domain : Domain δ ε} {pending : List (Nat × ε)} {body : EventBody δ ε}

/-- A domain that has these events in its queue. -/
structure Inv (phase : Phase) (pending : List (Nat × ε)) (domain : Domain δ ε) : Prop where
  refines : Refines phase.blocks pending domain.pq
  ahead : ∀ item ∈ pending, domain.curCycle ≤ item.1
  queued : ∀ item ∈ pending, domain.queued item.2 = true
  conserved : domain.entered.Perm (domain.log ++ pending)
  ordered : domain.log.Pairwise fun first second => first.1 ≤ second.1
  past : ∀ item ∈ domain.log, item.1 ≤ domain.curCycle ∧ item.1 < phase.limit

/-- A domain at the start of a phase: all that was entered is in its queue. -/
structure Starts (phase : Phase) (domain : Domain δ ε) : Prop where
  refines : Refines phase.blocks domain.entered domain.pq
  ahead : ∀ item ∈ domain.entered, domain.curCycle ≤ item.1
  queued : ∀ item ∈ domain.entered, domain.queued item.2 = true
  log : domain.log = []

theorem Starts.inv (starts : Starts phase domain) : Inv phase domain.entered domain := by
  have log := starts.log
  refine ⟨starts.refines, starts.ahead, starts.queued, ?_, ?_, ?_⟩
  · rw [log, nil_append]
  · rw [log]
    exact List.Pairwise.nil
  · rw [log]
    exact nofun

/-- The events of the phase were taken in the order of their cycles, and the
others are still queued. -/
structure Simulated (phase : Phase) (domain : Domain δ ε) : Prop where
  events : ∃ left, Refines phase.blocks left domain.pq ∧ domain.entered.Perm (domain.log ++ left) ∧
    ∀ item ∈ left, phase.limit ≤ item.1
  ordered : domain.log.Pairwise fun first second => first.1 ≤ second.1
  before : ∀ item ∈ domain.log, item.1 < phase.limit

theorem Gives.ofQueue {α : Type} {res : Except QueueFailure α}
    {post : α → Prop} (gives : Gives res post) :
    Gives (ofQueue res) post := by
  obtain ⟨value, returns, holds⟩ := gives
  exact ⟨value, by rw [returns]; rfl, holds⟩

/-! ## Going on -/

theorem Inv.size (inv : Inv phase pending domain) : domain.pq.size = 0 ↔ pending = [] := by
  rw [PrioQueue.size, inv.refines.size, length_eq_zero_iff]

/-- The cycle of the first event. -/
theorem Inv.first (inv : Inv phase pending domain) (nonempty : pending ≠ []) :
    ∃ first, ofQueue (domain.pq.firstCycle phase.blocks) = .ok first ∧
      (∃ event, (first, event) ∈ pending) ∧ ∀ item ∈ pending, first ≤ item.1 :=
  Gives.ofQueue (PrioQueue.firstCycle_spec phase.twoBlocks inv.refines nonempty)

theorem Inv.settle {cycle : Nat} (inv : Inv phase pending domain)
    (cur : domain.curCycle = cycle) (before : cycle < phase.limit) :
    ∃ next, (∀ asserts, domain.settle phase asserts cycle = .ok next) ∧ Inv phase pending next := by
  have moves (newCycle : Nat) (later : cycle ≤ newCycle)
      (least : ∀ item ∈ pending, newCycle ≤ item.1) :
      Inv phase pending { domain with curCycle := newCycle } :=
    ⟨inv.refines, least, inv.queued, inv.conserved, inv.ordered,
      fun item isPast => ⟨le_trans (inv.past item isPast).1
        (cur ▸ later), (inv.past item isPast).2⟩⟩
  by_cases isEmpty : pending = []
  · have none : ¬ domain.pq.size ≠ 0 := not_not.mpr (inv.size.mpr isEmpty)
    refine ⟨{ domain with curCycle := phase.limit }, ?_, moves _ before.le (by simp [isEmpty])⟩
    intro asserts
    rw [Domain.settle, if_neg none]
    exact check_true_bind fun _ => le_of_lt before
  have some : domain.pq.size ≠ 0 := mt inv.size.mp isEmpty
  obtain ⟨first, returns, ⟨event, isFirst⟩, least⟩ := inv.first isEmpty
  have later : cycle ≤ first := cur ▸ inv.ahead _ isFirst
  refine ⟨{ domain with curCycle := first }, ?_, moves _ later least⟩
  intro asserts
  rw [Domain.settle, if_pos some, returns]
  exact check_true_bind fun _ => later

/-- An event is due before the limit. -/
def Due (phase : Phase) (pending : List (Nat × ε)) : Prop := ∃ item ∈ pending, item.1 < phase.limit

/-- The loop for one domain goes on as long as an event is due before the limit, the
one for several domains also if one is due at the limit. -/
theorem Inv.goes (inv : Inv phase pending domain) :
    (∃ due, domain.isDue phase = .ok due ∧ (due = true ↔ Due phase pending)) ∧
      ∃ unfinished, domain.isUnfinished phase = .ok unfinished ∧
        (unfinished = true ↔ ∃ item ∈ pending, item.1 ≤ phase.limit) := by
  by_cases isEmpty : pending = []
  · have none := inv.size.mpr isEmpty
    rw [isDue, isUnfinished, if_pos none, if_pos none]
    exact ⟨⟨false, rfl, by simp [Due, isEmpty]⟩, false, rfl, by simp [isEmpty]⟩
  have some : ¬ domain.pq.size = 0 := mt inv.size.mp isEmpty
  obtain ⟨first, returns, ⟨event, isFirst⟩, least⟩ := inv.first isEmpty
  have isDueIff : Due phase pending ↔ first < phase.limit :=
    ⟨fun ⟨item, mem, before⟩ => (least item mem).trans_lt before,
      fun before => ⟨_, isFirst, before⟩⟩
  have unfinishedIff : (∃ item ∈ pending, item.1 ≤ phase.limit) ↔ first ≤ phase.limit :=
    ⟨fun ⟨item, mem, before⟩ => (least item mem).trans before, fun before => ⟨_, isFirst, before⟩⟩
  rw [isDue, isUnfinished, if_neg some, if_neg some, returns, isDueIff, unfinishedIff]
  exact ⟨⟨_, rfl, by simp⟩, _, rfl, by simp⟩

theorem Inv.due (inv : Inv phase pending domain) {due : Bool}
    (goes : domain.isDue phase = .ok due) : due = true ↔ Due phase pending := by
  obtain ⟨⟨isDue, returns, iff⟩, -⟩ := inv.goes
  rwa [Except.ok.inj (goes.symm.trans returns)]

variable [DecidableEq ε] {next last : Domain δ ε} {turns : Nat}

/-! ## Taking an event -/

/-- What is left in the queue has other objects. -/
theorem ne_of_mem_erase {first item : Nat × ε}
    (objects : (pending.map Prod.snd).Nodup) (mem : first ∈ pending)
    (isLeft : item ∈ pending.erase first) : item.2 ≠ first.2 := by
  have split := (perm_cons_erase mem).map Prod.snd
  have distinct := split.nodup_iff.mp objects
  rw [map_cons, nodup_cons] at distinct
  intro same
  exact distinct.1 (same ▸ mem_map_of_mem isLeft)

theorem Inv.take (inv : Inv phase pending domain) {due : Nat × ε}
    (mem : due ∈ pending) (before : due.1 < phase.limit) :
    ∃ taken rest, (∀ asserts, domain.take phase asserts = .ok taken) ∧
      Inv phase rest taken.domain ∧ taken.domain.curCycle = taken.cycle ∧
      taken.cycle < phase.limit := by
  obtain ⟨⟨⟨event, cycle⟩, pq⟩, returns, isFirst, least, refines⟩ :=
    PrioQueue.dequeue_spec phase.twoBlocks inv.refines (ne_nil_of_mem mem)
  have current := inv.ahead _ isFirst
  have isBefore : cycle < phase.limit := (least due mem).trans_lt before
  have others (item : Nat × ε) (isLeft : item ∈ pending.erase (cycle, event)) :=
    mem_of_mem_erase isLeft
  refine ⟨domain.taken pq cycle event, pending.erase (cycle, event), ?_, ?_, rfl, isBefore⟩
  · intro asserts
    rw [Domain.take, returns]
    exact check_true_bind fun _ => current
  · refine ⟨refines, ?_, ?_, ?_, ?_, ?_⟩
    · exact fun item isLeft => least item (others item isLeft)
    · intro item isLeft
      have apart : item.2 ≠ event := ne_of_mem_erase inv.refines.objects isFirst isLeft
      exact (update_of_ne apart _ _).trans (inv.queued item (others item isLeft))
    · have all := inv.conserved.trans ((perm_cons_erase isFirst).append_left domain.log)
      rwa [append_cons] at all
    · exact pairwise_append.mpr ⟨inv.ordered, pairwise_singleton _ _, fun item isPast =>
        forall_mem_singleton.mpr (le_trans (inv.past item isPast).1 current)⟩
    · refine forall_mem_append.mpr ⟨fun item earlier => ?_,
        forall_mem_singleton.mpr ⟨le_rfl, isBefore⟩⟩
      exact (inv.past item earlier).imp_left (·.trans current)

/-! ## Running it -/

theorem enqueue_ends {queue : PrioQueue ε} {blocks cycle : Nat} {event : ε}
    (refines : Refines blocks pending queue) (fresh : ∀ item ∈ pending, item.2 ≠ event) :
    Ends (fun _ => True) (ofQueue (queue.enqueue blocks event cycle))
      (Refines blocks ((cycle, event) :: pending)) := by
  refine ⟨fun next returns => ?_, fun _ _ => trivial⟩
  by_cases isAhead : queue.curBlock ≤ cycle / 64
  · obtain ⟨value, same, holds⟩ := Gives.ofQueue (PrioQueue.enqueue_spec refines fresh isAhead)
    rw [same] at returns
    rwa [← Except.ok.inj returns]
  · rw [PrioQueue.enqueue, check, if_neg isAhead] at returns
    cases returns

theorem Inv.enqueue (inv : Inv phase pending domain) (item : Nat × ε) :
    Ends (fun _ => True) (domain.enqueue phase item) fun next =>
      Inv phase (item :: pending) next ∧ next.curCycle = domain.curCycle := by
  apply Ends.assert_bind trivial
  intro isFresh
  apply Ends.assert_bind trivial
  intro _
  apply Ends.assert_bind trivial
  intro _
  apply Ends.assert_bind trivial
  intro isAhead
  have fresh : ∀ other ∈ pending, other.2 ≠ item.2 := by
    intro other mem same
    have isQueued := inv.queued other mem
    rw [same, isFresh] at isQueued
    exact Bool.false_ne_true isQueued
  apply (enqueue_ends inv.refines fresh).bind
  intro pq refines
  refine .pure ⟨⟨refines, forall_mem_cons.mpr ⟨isAhead, inv.ahead⟩,
    forall_mem_cons.mpr ⟨update_self _ _ _, fun other old => ?_⟩, ?_,
    inv.ordered, inv.past⟩, rfl⟩
  · exact (update_of_ne (fresh other old) _ _).trans (inv.queued other old)
  · have more := inv.conserved.append_right [item]
    rw [append_assoc] at more
    exact more.trans ((perm_append_singleton _ _).append_left _)

/-- Events that are enqueued in an event of the phase. -/
theorem Inv.execute {taken : Taken δ ε} (inv : Inv phase pending taken.domain)
    (cur : taken.domain.curCycle = taken.cycle) :
    Ends (fun _ => True) (Domain.execute phase body taken) fun next =>
      ∃ rest, Inv phase rest next ∧ next.curCycle = taken.cycle := by
  apply Ends.any.bind
  intro res _
  refine .foldlM (fun _ (next : Domain δ ε) =>
      ∃ rest, Inv phase rest next ∧ next.curCycle = taken.cycle) ?_ ?_
  · rintro item _ next - ⟨rest, invNext, currentNext⟩
    apply (invNext.enqueue item).mono
    rintro last ⟨invLast, same⟩
    exact ⟨item :: rest, invLast, same.trans currentNext⟩
  · exact ⟨pending, { inv with }, cur⟩

/-! ## Turns -/

/-- The additional assertions hold. -/
theorem Inv.turn_asserts (inv : Inv phase pending domain) (due : Due phase pending) :
    domain.turn phase true body = domain.turn phase false body := by
  obtain ⟨item, mem, before⟩ := due
  rcases inv.take mem before with ⟨taken, rest, takes, invTaken, current, lt⟩
  rw [Domain.turn, Domain.turn, takes true, takes false]
  cases executed : Domain.execute phase body taken with
  | error err => simp only [ok_bind, executed, error_bind]
  | ok next =>
    obtain ⟨last, invNext, currentNext⟩ := (invTaken.execute current).returns next executed
    obtain ⟨final, settles, -⟩ := invNext.settle currentNext lt
    simp only [ok_bind, executed, settles]

theorem Inv.turn (inv : Inv phase pending domain) (due : Due phase pending) (asserts : Bool) :
    Ends (fun _ => True) (domain.turn phase asserts body) fun next =>
      ∃ rest, Inv phase rest next := by
  obtain ⟨item, mem, before⟩ := due
  rcases inv.take mem before with ⟨taken, rest, takes, invTaken, current, lt⟩
  rw [Domain.turn, takes asserts]
  apply (invTaken.execute current).bind
  rintro next ⟨last, invNext, currentNext⟩
  obtain ⟨final, settles, invFinal⟩ := invNext.settle currentNext lt
  rw [settles asserts]
  exact .ok ⟨last, invFinal⟩

/-- The outcome of the loop for one domain. -/
abbrev Alone (phase : Phase) (program : EventProgram δ ε) : Nat → Domain δ ε → Domain δ ε → Prop :=
  LoopsTo (isDue phase) (turn phase true program.run) (finish phase)

/-- The outcome of the turns that the loop for several domains takes for one of
them. -/
abbrev Shared (phase : Phase) (program : EventProgram δ ε) : Nat → Domain δ ε → Domain δ ε → Prop :=
  LoopsTo (isUnfinished phase) (turn phase false program.run) (finish phase)

theorem Inv.after {asserts : Bool} (inv : Inv phase pending domain)
    (goes : domain.isDue phase = .ok true)
    (turned : domain.turn phase asserts program.run = .ok next) :
    ∃ rest, Inv phase rest next :=
  (inv.turn ((inv.due goes).mp rfl) asserts).returns next turned

theorem Alone.simulated (ends : Alone phase program turns domain last)
    (inv : Inv phase pending domain) : Simulated phase last := by
  have keeps (domain next : Domain δ ε) (holds : ∃ pending, Inv phase pending domain) :
      domain.isDue phase = .ok true → domain.turn phase true program.run = .ok next →
        ∃ pending, Inv phase pending next :=
    holds.elim fun _ inv => inv.after
  obtain ⟨final, ⟨left, inv⟩, stops, rfl⟩ := LoopsTo.invariant keeps ends ⟨pending, inv⟩
  refine ⟨⟨left, inv.refines, inv.conserved, fun item mem => ?_⟩, inv.ordered,
    fun item mem => (inv.past item mem).2⟩
  by_contra before
  exact Bool.false_ne_true ((inv.due stops).mpr ⟨item, mem, Nat.lt_of_not_le before⟩)

/-- A turn takes one event. -/
theorem turn_log (domain : Domain δ ε) (asserts : Bool) :
    Ends (fun _ => True) (domain.turn phase asserts program.run) fun next =>
      next.log.length = domain.log.length + 1 := by
  have takes : Ends (fun _ => True) (domain.take phase asserts) fun taken =>
      taken.domain.log.length = domain.log.length + 1 :=
    Ends.any.bind fun _ _ => .assert_bind trivial fun _ => .pure length_append
  have executes (taken : Taken δ ε) : Ends (fun _ => True) (execute phase program.run taken)
      fun executed => executed.log = taken.domain.log := by
    refine Ends.any.bind fun done _ => .foldlM (fun _ (next : Domain δ ε) =>
      next.log = taken.domain.log) (fun item _ next _ same => ?_) rfl
    exact .assert_bind trivial fun _ => .assert_bind trivial fun _ => .assert_bind trivial fun _ =>
      .assert_bind trivial fun _ => Ends.any.bind fun _ _ => .pure same
  refine takes.bind fun taken isLog => (executes taken).bind fun executed same => ?_
  unfold settle
  split <;> exact Ends.any.bind fun _ _ => .assert_bind trivial fun _ => .pure (same ▸ isLog)

theorem Shared.log (ends : Shared phase program turns domain last) :
    last.log.length = domain.log.length + turns := by
  induction ends with
  | stop => rfl
  | turn _ turned _ ih =>
    rw [ih, (turn_log _ _).returns _ turned, add_right_comm, add_assoc]

/-- If no event is at the limit, the turns are the same. -/
theorem Alone.shared (ends : Alone phase program turns domain last)
    (inv : Inv phase pending domain) (apart : ∀ item ∈ last.entered, item.1 ≠ phase.limit) :
    Shared phase program turns domain last := by
  induction ends generalizing pending with
  | stop stops =>
    obtain ⟨-, unfinished, returns, iff⟩ := inv.goes
    cases unfinished with
    | false => exact .stop returns
    | true =>
      obtain ⟨item, mem, before⟩ := iff.mp rfl
      have notDue : ¬ item.1 < phase.limit := fun due =>
        Bool.false_ne_true ((inv.due stops).mpr ⟨item, mem, due⟩)
      have isEntered := inv.conserved.mem_iff.mpr (mem_append_right _ mem)
      exact absurd (by omega) (apart item isEntered)
  | turn goes turned rest ih =>
    obtain ⟨-, unfinished, returns, iff⟩ := inv.goes
    obtain ⟨item, mem, before⟩ := (inv.due goes).mp rfl
    obtain ⟨left, invNext⟩ := inv.after goes turned
    rw [iff.mpr ⟨item, mem, before.le⟩] at returns
    rw [inv.turn_asserts ⟨item, mem, before⟩] at turned
    exact .turn returns turned (ih invNext apart)

/-- The loop for one domain stops where the turns reach the limit. If both end
alike, no event is there. -/
theorem Shared.alone (ends : Shared phase program turns domain last)
    (inv : Inv phase pending domain) :
    ∃ made final, Alone phase program made domain final ∧
      (final = last → ∀ item ∈ last.entered, item.1 ≠ phase.limit) := by
  induction ends generalizing pending with
  | stop stops =>
    obtain ⟨⟨due, returns, isDue⟩, unfinished, isStop, iff⟩ := inv.goes
    cases stops.symm.trans isStop
    have later (item : Nat × ε) (mem : item ∈ pending) : phase.limit < item.1 :=
      Nat.lt_of_not_le fun before => Bool.false_ne_true (iff.mpr ⟨item, mem, before⟩)
    cases due with
    | false =>
      refine ⟨0, _, .stop returns, fun _ item isEntered => ?_⟩
      rcases mem_append.mp (inv.conserved.mem_iff.mp isEntered) with past | mem
      · exact (inv.past item past).2.ne
      · exact (later item mem).ne'
    | true =>
      obtain ⟨item, mem, before⟩ := isDue.mp rfl
      exact absurd before (later item mem).not_gt
  | turn goes turned rest ih =>
    obtain ⟨⟨due, returns, isDue⟩, -⟩ := inv.goes
    cases due with
    | true =>
      rw [← inv.turn_asserts (isDue.mp rfl)] at turned
      obtain ⟨left, invNext⟩ := inv.after returns turned
      obtain ⟨made, final, alone, apart⟩ := ih invNext
      exact ⟨made + 1, final, .turn returns turned alone, apart⟩
    | false =>
      -- The turns take at least one more event.
      refine ⟨0, _, .stop returns, fun same => ?_⟩
      have longer := Shared.log (.turn goes turned rest)
      rw [← same] at longer
      exact absurd longer (by simp [finish])

end Domain

namespace SimThread

/-- The thread runs the domains in its queue and puts none aside. -/
structure Steady (thread : SimThread δ ε) : Prop where
  prio : ∀ i, thread.prio i = 0
  stalled : thread.stalledQueue = []
  nextStalled : thread.nextStalledQueue = []
  nodup : thread.domPq.Nodup

/-- What a turn of a domain does to the thread. -/
def turned (i : Nat) (domain : Domain δ ε) (thread : SimThread δ ε) : SimThread δ ε :=
  { thread with
    domains := update thread.domains i domain
    queuePrio := update thread.queuePrio i domain.curCycle
    domPq := i :: thread.domPq.erase i }

/-- What the end of a domain does to the thread. -/
def finished (phase : Phase) (i : Nat) (thread : SimThread δ ε) : SimThread δ ε :=
  { thread with
    domains := update thread.domains i ((thread.domains i).finish phase)
    domPq := thread.domPq.erase i
    numFinished := thread.numFinished + 1 }

variable {thread final : SimThread δ ε} {i : Nat}

variable {domain : Domain δ ε} {bound : Nat}

@[simp]
theorem turned_domains : (thread.turned i domain).domains = update thread.domains i domain := rfl

@[simp]
theorem finished_domains :
    (thread.finished phase i).domains = update thread.domains i ((thread.domains i).finish phase) :=
  rfl

theorem Steady.turned (steady : Steady thread) (mem : i ∈ thread.domPq) :
    Steady (thread.turned i domain) where
  prio := steady.prio
  stalled := steady.stalled
  nextStalled := steady.nextStalled
  nodup := (perm_cons_erase mem).nodup_iff.mp steady.nodup

theorem Steady.finished (steady : Steady thread) : Steady (thread.finished phase i) where
  prio := steady.prio
  stalled := steady.stalled
  nextStalled := steady.nextStalled
  nodup := steady.nodup.erase i

/-- The thread is through with the domains in its queue. -/
structure Drains (thread final : SimThread δ ε) : Prop where
  none : final.domPq = []
  steady : Steady final
  others : ∀ i ∉ thread.domPq, final.domains i = thread.domains i
  numFinished : final.numFinished = thread.numFinished + thread.domPq.length

theorem Steady.drains_nil (steady : Steady thread)
    (none : thread.domPq = []) : Drains thread thread :=
  ⟨none, steady, fun _ _ => rfl, by rw [none, length_nil, add_zero]⟩

/-- What is left to do after a domain was changed. -/
theorem Drains.of_changed {next : SimThread δ ε} (drains : Drains next final)
    (mem : i ∈ thread.domPq) (queued : ∀ j ∈ next.domPq, j = i ∨ j ∈ thread.domPq)
    (changed : next.domains = update thread.domains i domain)
    (rest : next.numFinished + next.domPq.length = thread.numFinished + thread.domPq.length) :
    Drains thread final where
  none := drains.none
  steady := drains.steady
  others := by
    intro j notReady
    have apart : j ≠ i := fun same => notReady (same ▸ mem)
    have notQueued : j ∉ next.domPq := fun isReady => (queued j isReady).elim apart notReady
    rw [drains.others j notQueued, changed, update_of_ne apart]
  numFinished := drains.numFinished.trans rest

theorem Drains.of_turned (mem : i ∈ thread.domPq)
    (drains : Drains (thread.turned i domain) final) : Drains thread final :=
  drains.of_changed mem
    (fun _ isReady => (mem_cons.mp isReady).imp_right mem_of_mem_erase) turned_domains
    (congrArg (thread.numFinished + ·) (perm_cons_erase mem).length_eq.symm)

theorem Drains.of_finished (mem : i ∈ thread.domPq)
    (drains : Drains (thread.finished phase i) final) : Drains thread final :=
  drains.of_changed mem (fun _ isReady => .inr (mem_of_mem_erase isReady)) finished_domains (by
    have length := length_erase_add_one mem
    show thread.numFinished + 1 + (thread.domPq.erase i).length = _
    omega)

theorem mem_domPq {j : Nat} (apart : j ≠ i)
    (isReady : j ∈ (thread.turned i domain).domPq) : j ∈ thread.domPq :=
  mem_of_mem_erase ((mem_cons.mp isReady).resolve_left apart)

/-- The turns that are left after one of them. -/
theorem sum_turned {turns : Nat → Nat} {left : Nat} (thread : SimThread δ ε)
    (others : ∀ j ∈ thread.domPq.erase i, j ≠ i) :
    ((thread.turned i domain).domPq.map fun j => update turns i left j + 1).sum =
      left + 1 + ((thread.domPq.erase i).map fun j => turns j + 1).sum := by
  rw [turned, map_cons, sum_cons, update_self]
  congr 2
  apply map_congr_left
  intro j isOther
  rw [update_of_ne (others j isOther)]

theorem Steady.swapStalled (steady : Steady thread) : thread.swapStalled = thread := by
  have stalled := steady.stalled
  have nextStalled := steady.nextStalled
  cases thread
  subst stalled nextStalled
  rfl

theorem steady_start {domains : Nat → Domain δ ε} {ids : List Nat}
    (queuePrio : Nat → Nat) (nodup : ids.Nodup) :
    Steady (start domains (fun _ => 0) queuePrio ids) :=
  ⟨fun _ => rfl, rfl, rfl, nodup⟩

variable [DecidableEq ε]

theorem Steady.visit (steady : Steady thread) (i : Nat) :
    visit phase program.run stallNow i { thread with domPq := thread.domPq.erase i } =
      match (thread.domains i).isUnfinished phase with
      | .error err => .error err
      | .ok false => .ok (thread.finished phase i)
      | .ok true =>
        match (thread.domains i).turn phase false program.run with
        | .error err => .error err
        | .ok domain => .ok (thread.turned i domain) := by
  have prio := steady.prio i
  unfold SimThread.visit
  cases (thread.domains i).isUnfinished phase with
  | error err => rfl
  | ok flag =>
    cases flag with
    | false => rfl
    | true =>
      cases (thread.domains i).turn phase false program.run with
      | error err => rfl
      | ok domain => simp [SimThread.turned, prio]

/-- If the loop of each domain ends, so does the loop over the domains that are
ready, and the domains end in the same way. -/
theorem runReady_of_ends (domPq : TopDomain δ ε) (turns : Nat → Nat)
    {last : Nat → Domain δ ε} (steady : Steady thread)
    (ends : ∀ i ∈ thread.domPq, Domain.Shared phase program (turns i) (thread.domains i) (last i))
    (enough : (thread.domPq.map fun i => turns i + 1).sum ≤ bound) :
    Gives (runReady phase program domPq bound thread) fun final =>
      Drains thread final ∧ ∀ i ∈ thread.domPq, final.domains i = last i := by
  induction bound generalizing thread turns with
  | zero =>
    have none : thread.domPq = [] := by
      cases queue : thread.domPq with
      | nil => rfl
      | cons i rest =>
        rw [queue, map_cons, sum_cons] at enough
        omega
    rw [runReady, if_pos none]
    exact .ok ⟨steady.drains_nil none, by simp [none]⟩
  | succ bound ih =>
    rw [runReady]
    by_cases none : thread.domPq = []
    · rw [if_pos none]
      exact .ok ⟨steady.drains_nil none, by simp [none]⟩
    rw [if_neg none]
    have inside := domPq.mem thread none
    generalize domPq.top thread = i at inside
    have split : (thread.domPq.map fun i => turns i + 1).sum = turns i + 1 +
          ((thread.domPq.erase i).map fun i => turns i + 1).sum := by
      rw [((perm_cons_erase inside).map _).sum_eq, map_cons, sum_cons]
    have others (j : Nat) (isOther : j ∈ thread.domPq.erase i) : j ≠ i :=
      (steady.nodup.mem_erase_iff.mp isOther).1
    dsimp only
    rw [steady.visit i]
    generalize made : turns i = taken at split
    generalize isLast : last i = lastDomain
    have endsHere := ends i inside
    rw [made, isLast] at endsHere
    cases endsHere with
    | stop stops =>
      simp only [stops]
      have rest := ih turns (show Steady (thread.finished phase i) from steady.finished) (fun j isOther => by
          rw [finished_domains, update_of_ne (others j isOther)]
          exact ends j (mem_of_mem_erase isOther))
        (show ((thread.domPq.erase i).map _).sum ≤ bound by omega)
      apply rest.mono
      rintro final ⟨drains, same⟩
      refine ⟨drains.of_finished inside, ?_⟩
      intro j isReady
      by_cases isHere : j = i
      · rw [isHere, isLast]
        have notQueued : i ∉ (thread.finished phase i).domPq := fun isOther => others i isOther rfl
        rw [drains.others i notQueued, finished_domains, update_self]
      · exact same j ((mem_erase_of_ne isHere).mpr isReady)
    | turn goes turned remaining =>
      rename_i next left
      simp only [goes, turned]
      have rest := ih (update turns i left) (steady.turned inside) (fun j isReady => by
          by_cases isHere : j = i
          · rwa [isHere, turned_domains, update_self, update_self, isLast]
          · rw [turned_domains, update_of_ne isHere, update_of_ne isHere]
            exact ends j (mem_domPq isHere isReady))
        (by
          rw [sum_turned _ fun j isOther => others j isOther]
          omega)
      apply rest.mono
      rintro final ⟨drains, same⟩
      refine ⟨drains.of_turned inside, ?_⟩
      intro j isReady
      exact same j ((perm_cons_erase inside).mem_iff.mp isReady)

/-- If the loop over the domains that are ready ends, so does the loop of each
domain, in the same way. -/
theorem ends_of_runReady (steady : Steady thread)
    (returns : runReady phase program domPq bound thread = .ok final) :
    Drains thread final ∧ ∀ i ∈ thread.domPq, ∃ turns,
      Domain.Shared phase program turns (thread.domains i) (final.domains i) := by
  induction bound generalizing thread with
  | zero =>
    rw [runReady] at returns
    by_cases none : thread.domPq = []
    · rw [if_pos none] at returns
      cases returns
      exact ⟨steady.drains_nil none, by simp [none]⟩
    · rw [if_neg none] at returns
      exact nomatch returns
  | succ bound ih =>
    rw [runReady] at returns
    by_cases none : thread.domPq = []
    · rw [if_pos none] at returns
      cases returns
      exact ⟨steady.drains_nil none, by simp [none]⟩
    rw [if_neg none] at returns
    have inside := domPq.mem thread none
    generalize domPq.top thread = i at inside returns
    dsimp only at returns
    rw [steady.visit i] at returns
    cases goes : (thread.domains i).isUnfinished phase with
    | error err => simp [goes] at returns
    | ok flag =>
      cases flag with
      | false =>
        simp only [goes] at returns
        obtain ⟨drains, ends⟩ := ih steady.finished returns
        refine ⟨drains.of_finished inside, ?_⟩
        intro j isReady
        by_cases isHere : j = i
        · have notQueued : i ∉ (thread.finished phase i).domPq :=
            fun isOther => (steady.nodup.mem_erase_iff.mp isOther).1 rfl
          rw [isHere, drains.others i notQueued, finished_domains, update_self]
          exact ⟨0, .stop goes⟩
        · have rest := ends j ((mem_erase_of_ne isHere).mpr isReady)
          rwa [finished_domains, update_of_ne isHere] at rest
      | true =>
        cases turned : (thread.domains i).turn phase false program.run with
        | error err => simp [goes, turned] at returns
        | ok domain =>
          simp only [goes, turned] at returns
          obtain ⟨drains, ends⟩ := ih (steady.turned inside) returns
          refine ⟨drains.of_turned inside, ?_⟩
          intro j isReady
          obtain ⟨turns, rest⟩ := ends j ((perm_cons_erase inside).mem_iff.mp isReady)
          by_cases isHere : j = i
          · rw [isHere, turned_domains, update_self] at rest
            rw [isHere]
            exact ⟨turns + 1, .turn goes turned rest⟩
          · rw [turned_domains, update_of_ne isHere] at rest
            exact ⟨turns, rest⟩

/-! ## The loop for several domains -/

theorem Steady.runStalled (steady : Steady thread) :
    runStalled phase program bound thread = .ok thread := by
  unfold SimThread.runStalled
  rw [steady.stalled]
  rfl

/-- The loop for several domains is one round over the domains that are ready. -/
theorem Steady.simulate {thDomains : Nat} (steady : Steady thread)
    (all : thDomains = thread.numFinished + thread.domPq.length)
    (some : thread.domPq ≠ []) :
    simulate phase program domPq thDomains (bound + 1) thread =
      runReady phase program domPq bound thread := by
  have unfinished : thread.numFinished < thDomains := by
    have := length_pos_iff.mpr some
    omega
  rw [SimThread.simulate, if_pos unfinished]
  cases returns : runReady phase program domPq bound thread with
  | error err => rfl
  | ok final =>
    have drains := (ends_of_runReady steady returns).1
    have isFinished : ¬ final.numFinished < thDomains := by
      have := drains.numFinished
      omega
    simp only [ok_bind, drains.steady.runStalled, drains.steady.swapStalled]
    unfold SimThread.simulate
    rw [if_neg isFinished]

/-! ## Phases -/

section

variable (phase : Phase) (program : EventProgram δ ε) (domPq : TopDomain δ ε)
  (queuePrio : Nat → Nat) (domains : Nat → Domain δ ε)

/-- The thread with these domains ends the phase. There are no crossings. -/
def EndsPhase (ids : List Nat) (result : Nat → Domain δ ε) : Prop :=
  ∃ bound, simulatePhaseThread phase program domPq (fun _ => 0) queuePrio domains ids bound =
    .ok result

variable {phase program domPq queuePrio domains} {ids : List Nat} {result : Nat → Domain δ ε}

/-- A thread that has one domain. -/
theorem endsPhase_single : EndsPhase phase program domPq queuePrio domains [i] result ↔
    ∃ turns last, Domain.Alone phase program turns (domains i) last ∧
      result = update domains i last := by
  unfold EndsPhase simulatePhaseThread
  constructor
  · rintro ⟨bound, returns⟩
    obtain ⟨last, simulates, same⟩ := of_bind_eq_ok returns
    obtain ⟨turns, alone⟩ := loopsTo_of_loop simulates
    exact ⟨turns, last, alone, (Except.ok.inj same).symm⟩
  · rintro ⟨turns, last, alone, rfl⟩
    refine ⟨turns, ?_⟩
    change (loop _ _ _ _ turns (domains i) >>= fun domain => .ok (update domains i domain)) = _
    rw [alone.loop le_rfl]
    rfl

variable (nodup : ids.Nodup) (several : ids.length ≠ 1)
include nodup several

/-- A thread that has several domains. -/
theorem endsPhase_several : EndsPhase phase program domPq queuePrio domains ids result ↔
    (∀ i ∈ ids, ∃ turns, Domain.Shared phase program turns (domains i) (result i)) ∧
      ∀ i ∉ ids, result i = domains i := by
  have steady : Steady (start domains (fun _ => 0) queuePrio ids) := steady_start queuePrio nodup
  have unfolds (bound : Nat) : simulatePhaseThread phase program domPq (fun _ => 0) queuePrio
      domains ids bound = (do
        let thread ← simulate phase program domPq ids.length bound
          (start domains (fun _ => 0) queuePrio ids)
        return thread.domains) := by
    rw [simulatePhaseThread]
    rintro j rfl
    exact several rfl
  simp only [EndsPhase, unfolds]
  by_cases none : ids = []
  · subst none
    have stops (bound : Nat) : simulate phase program domPq 0 bound
        (start domains (fun _ => 0) queuePrio []) = .ok (start domains (fun _ => 0) queuePrio []) := by
      unfold SimThread.simulate
      rfl
    simp only [length_nil, stops, ok_bind]
    refine ⟨?_, fun ⟨_, others⟩ => ⟨0, congrArg Except.ok (funext fun i => ?_)⟩⟩
    · rintro ⟨_, ⟨⟩⟩
      exact ⟨nofun, fun _ _ => rfl⟩
    · exact (others i not_mem_nil).symm
  have rounds (bound : Nat) : simulate phase program domPq ids.length (bound + 1)
      (start domains (fun _ => 0) queuePrio ids) =
        runReady phase program domPq bound (start domains (fun _ => 0) queuePrio ids) :=
    steady.simulate (zero_add _).symm none
  constructor
  · rintro ⟨bound, returns⟩
    obtain ⟨thread, simulates, same⟩ := of_bind_eq_ok returns
    cases same
    cases bound with
    | zero =>
      rw [SimThread.simulate, start, if_pos (length_pos_iff.mpr none)] at simulates
      cases simulates
    | succ bound =>
      obtain ⟨drains, ends⟩ := ends_of_runReady steady ((rounds bound).symm.trans simulates)
      exact ⟨ends, drains.others⟩
  · rintro ⟨ends, others⟩
    choose! turns ends using ends
    obtain ⟨thread, returns, drains, same⟩ := runReady_of_ends domPq turns steady ends le_rfl
    have simulates := (rounds _).trans returns
    refine ⟨_, (congrArg (· >>= fun thread => pure thread.domains) simulates).trans ?_⟩
    refine congrArg Except.ok (funext fun i => ?_)
    by_cases mem : i ∈ ids
    · exact same i mem
    · exact (drains.others i mem).trans (others i mem).symm

end

/-- If the thread that owns the domains ends, so do threads that own one of them
each, and then every domain takes its events before the limit in the order of
their cycles and leaves the others. The domains end alike on both if and only if no
event is entered at the limit. -/
theorem phase_independent_iff (phase : Phase) (program : EventProgram δ ε) (domPq : TopDomain δ ε)
    (queuePrio : Nat → Nat) (domains : Nat → Domain δ ε) (ids : List Nat) (nodup : ids.Nodup)
    (several : ids.length ≠ 1) (starts : ∀ i ∈ ids, (domains i).Starts phase) :
    ((∃ result, EndsPhase phase program domPq queuePrio domains ids result) →
      ∀ i ∈ ids, ∃ result, EndsPhase phase program domPq queuePrio domains [i] result) ∧
    ∀ results : Nat → Domain δ ε, (∀ i ∈ ids, EndsPhase phase program domPq queuePrio domains [i]
        (update domains i (results i))) →
      (∀ i ∈ ids, (results i).Simulated phase) ∧
        ((∃ result, EndsPhase phase program domPq queuePrio domains ids result ∧
            ∀ i ∈ ids, result i = results i) ↔
          ∀ i ∈ ids, ∀ item ∈ (results i).entered, item.1 ≠ phase.limit) := by
  refine ⟨?_, fun results alone => ?_⟩
  · rintro ⟨result, ends⟩ i mem
    obtain ⟨turns, shared⟩ := ((endsPhase_several nodup several).mp ends).1 i mem
    obtain ⟨made, final, alone, -⟩ := shared.alone (starts i mem).inv
    exact ⟨_, endsPhase_single.mpr ⟨made, final, alone, rfl⟩⟩
  · have loops (i : Nat) (mem : i ∈ ids) :
        ∃ turns, Domain.Alone phase program turns (domains i) (results i) := by
      obtain ⟨turns, last, alone, same⟩ := endsPhase_single.mp (alone i mem)
      have isLast := congrFun same i
      rw [update_self, update_self] at isLast
      exact ⟨turns, isLast ▸ alone⟩
    refine ⟨fun i mem => ?_, ?_, fun apart => ?_⟩
    · obtain ⟨turns, alone⟩ := loops i mem
      exact alone.simulated (starts i mem).inv
    · rintro ⟨result, ends, same⟩ i mem
      obtain ⟨turns, shared⟩ := ((endsPhase_several nodup several).mp ends).1 i mem
      obtain ⟨made, final, alone, apart⟩ := shared.alone (starts i mem).inv
      obtain ⟨turns', alone'⟩ := loops i mem
      rw [← same i mem]
      exact apart ((alone.unique alone').trans (same i mem).symm)
    · refine ⟨fun i => if i ∈ ids then results i else domains i,
        (endsPhase_several nodup several).mpr ⟨fun i mem => ?_, fun i missing => if_neg missing⟩,
        fun i mem => if_pos mem⟩
      obtain ⟨turns, alone⟩ := loops i mem
      exact ⟨turns, (if_pos mem).symm ▸ alone.shared (starts i mem).inv (apart i mem)⟩

/-- A domain with one event. -/
def oneEvent (cycle : Nat) : Domain Unit Nat where
  pq := ((PrioQueue.initial.enqueue 2 0 cycle).toOption).getD .initial
  curCycle := 0
  data := ()
  queued := update (fun _ => false) 0 true
  entered := [(cycle, 0)]
  log := []

/-- A phase of ten cycles. -/
def tenCycles : Phase := ⟨10, 0, 10, 2, le_refl 2⟩

/-- The first event of a domain creates another one. -/
def createsOne : EventProgram Unit Nat where
  run := fun _ event cycle =>
    .ok ((), if event = 0 ∧ cycle < 9 then [(cycle + 1, 1)] else [])
  simulate := fun _ _ _ => .ok ((), [])

/-- The thread takes its domains as they come. -/
def firstDomain : TopDomain Unit Nat where
  top := fun thread => thread.domPq.headD 0
  mem := by
    intro thread some
    cases queue : thread.domPq with
    | nil => exact absurd queue some
    | cons i rest => simp

theorem oneEvent_starts (cycle : Nat) : (oneEvent cycle).Starts tenCycles where
  refines := by
    have enters : Gives (PrioQueue.initial.enqueue 2 0 cycle) (Refines 2 [(cycle, 0)]) :=
      PrioQueue.enqueue_spec PrioQueue.refines_initial (nofun) (Nat.zero_le _)
    obtain ⟨queue, returns, refines⟩ := enters
    rwa [oneEvent, returns]
  ahead := fun _ _ => Nat.zero_le _
  queued := forall_mem_singleton.mpr rfl
  log := rfl

theorem phase_independent_iff_two : ∃ result,
    EndsPhase tenCycles createsOne firstDomain (fun _ => 0) (fun i => oneEvent (i + 4)) [0, 1]
      result ∧ ∀ i ∈ [0, 1], (result i).log = [(i + 4, 0), (i + 5, 1)] := by
  have alone : ∀ i ∈ [0, 1], Gives ((oneEvent (i + 4)).simulate tenCycles createsOne 9)
      fun domain => domain.log = [(i + 4, 0), (i + 5, 1)] ∧ ∀ item ∈ domain.entered, item.1 ≠ 10 := by
    decide +kernel
  have : Nonempty (Domain Unit Nat) := ⟨oneEvent 0⟩
  choose! results returns logs apart using alone
  have independent := (phase_independent_iff tenCycles createsOne firstDomain (fun _ => 0)
    (fun i => oneEvent (i + 4)) [0, 1] (by decide) (by decide) fun i _ => oneEvent_starts _).2 results
    fun i mem => ⟨9, by
      change (Domain.simulate _ _ _ _ >>= fun _ => _) = _
      rw [returns i mem]
      rfl⟩
  obtain ⟨result, ends, same⟩ := independent.2.mpr apart
  exact ⟨result, ends, fun i mem => same i mem ▸ logs i mem⟩

/-- An event in the last cycle is left to the next phase by a thread that has only
its domain, and taken by one that has another domain too. -/
theorem threads_differ_at_limit : (∀ i ∈ [0, 1], (oneEvent (i + 10)).Starts tenCycles) ∧
    (simulatePhaseThread tenCycles createsOne firstDomain (fun _ => 0)
      (fun _ => 0) (fun i => oneEvent (i + 10)) [0] 9).map (fun result => (result 0).log) = .ok [] ∧
    (simulatePhaseThread tenCycles createsOne firstDomain (fun _ => 0)
      (fun _ => 0) (fun i => oneEvent (i + 10)) [0, 1] 9).map
        (fun result => (result 0).log) = .ok [(10, 0)] :=
  ⟨fun _ _ => oneEvent_starts _, by decide +kernel, by decide +kernel⟩

end SimThread

end Damov.Weave
