import Damov.Weave.IssueChain

/-!
# Events that start on time

Without contention nothing is delayed: the events that a core records are linked
so that each of them starts at its cycle of the bound phase. Writebacks are left
out, since nothing waits for them.
-/

namespace Damov.Weave.OOOCoreRecorder

open Function List Option

/-! ## Timed events -/

/-- The parent of a link is recorded so that its child may start at the cycle. -/
def ParentAt (events : List Event) (link : Nat × Nat) (cycle : Nat) : Prop :=
  ∃ parent ∈ events, parent.id = link.1 ∧ parent.kind ≠ .writeback ∧
    parent.minStartCycle + link.2 = cycle

/-- The parents and delays of an event allow it to start at its cycle of the
bound phase, and not before. -/
structure Event.Timed (events : List Event) (ev : Event) : Prop where
  parents : ∀ link ∈ ev.parents, ∃ cycle, ParentAt events link cycle ∧
    cycle + ev.preDelay ≤ ev.minStartCycle
  queued : ∀ cycle ∈ ev.queued, cycle + ev.preDelay ≤ ev.minStartCycle
  tight : (∃ link ∈ ev.parents, ∃ cycle, ParentAt events link cycle ∧
      cycle + ev.preDelay = ev.minStartCycle) ∨
    ∃ cycle ∈ ev.queued, cycle + ev.preDelay = ev.minStartCycle

section Timed

variable {events later : List Event} {starts : Nat → Option Nat}

theorem ParentAt.mono {link : Nat × Nat} {cycle : Nat} (parentAt : ParentAt events link cycle)
    (more : events ⊆ later) : ParentAt later link cycle := by
  obtain ⟨parent, mem, rest⟩ := parentAt
  exact ⟨parent, more mem, rest⟩

theorem Event.Timed.mono {ev : Event} (timed : ev.Timed events) (more : events ⊆ later) :
    ev.Timed later where
  parents := by
    intro link mem
    obtain ⟨cycle, parentAt, le⟩ := timed.parents link mem
    exact ⟨cycle, parentAt.mono more, le⟩
  queued := timed.queued
  tight := by
    rcases timed.tight with ⟨link, mem, cycle, parentAt, same⟩ | queued
    · exact .inl ⟨link, mem, cycle, parentAt.mono more, same⟩
    · exact .inr queued

theorem foldr_max_eq {values : List Nat} (greatest : Nat)
    (le : ∀ value ∈ values, value ≤ greatest) (mem : greatest ∈ values) :
    values.foldr max 0 = greatest := by
  refine le_antisymm ?_ (le_foldr_max mem)
  clear mem
  induction values with
  | nil => exact Nat.zero_le _
  | cons first rest ih =>
    exact Nat.max_le.mpr ⟨le first (by simp), ih fun value mem => le value (mem_cons_of_mem _ mem)⟩

/-- The events that have started did so at their cycle of the bound phase. -/
def OnTime (events : List Event) (starts : Nat → Option Nat) : Prop :=
  ∀ ev ∈ events, ev.kind ≠ .writeback → ∀ startCycle ∈ starts ev.id, startCycle = ev.minStartCycle

theorem ParentAt.imposes {link : Nat × Nat} {cycle : Nat} (parentAt : ParentAt events link cycle)
    (onTime : OnTime events starts) (started : (starts link.1).isSome) :
    (starts link.1).getD 0 + link.2 = cycle := by
  obtain ⟨parent, mem, same, recorded, isCycle⟩ := parentAt
  rcases isSome_iff_exists.mp started with ⟨startCycle, isStart⟩
  have exact := onTime parent mem recorded startCycle (same ▸ isStart)
  rw [isStart, getD_some, exact, isCycle]

theorem Event.Timed.imposed_eq
    {ev : Event} (timed : ev.Timed events) (onTime : OnTime events starts)
    (ready : ev.Ready starts) : ev.imposed starts = ev.minStartCycle := by
  have le : ev.preDelay ≤ ev.minStartCycle := by
    rcases timed.tight with ⟨link, mem, cycle, parentAt, same⟩ | ⟨cycle, queued, same⟩ <;> omega
  rw [Event.imposed, foldr_max_eq (ev.minStartCycle - ev.preDelay)]
  · omega
  · intro value mem
    rcases mem_append.mp mem with isQueued | isLink
    · have := timed.queued value (mem_toList.mp isQueued)
      omega
    · obtain ⟨link, isParent, rfl⟩ := mem_map.mp isLink
      rcases timed.parents link isParent with ⟨cycle, parentAt, le⟩
      rw [parentAt.imposes onTime (ready link isParent)]
      omega
  · rcases timed.tight with ⟨link, isParent, cycle, parentAt, same⟩ | ⟨cycle, queued, same⟩
    · refine mem_append_right _ (mem_map.mpr ⟨link, isParent, ?_⟩)
      rw [parentAt.imposes onTime (ready link isParent)]
      omega
    · refine mem_append_left _ (mem_toList.mpr ?_)
      rwa [← same, Nat.add_sub_cancel]

end Timed

/-! ## The recorder without contention -/

/-- No delay has been added, and everything is recorded as it happens. -/
structure Exact (cRec : OOOCoreRecorder) : Prop where
  graph : Graph cRec.events cRec.starts
  gap : cRec.gapCycles = 0
  total : cRec.totalGapCycles = 0
  timed : ∀ ev ∈ cRec.events, ev.kind ≠ .writeback → ev.Timed cRec.events
  onTime : OnTime cRec.events cRec.starts
  issues : ∀ ev ∈ cRec.events, ∀ issue ∈ ev.issue?, issue.zllStartCycle = issue.minStartCycle
  last : ∀ last ∈ cRec.lastEvProduced, ∃ ev ∈ cRec.events, ev.issue? = some last
  responses : ∀ response ∈ cRec.futureResponses, ∀ id ∈ response.ev,
    ∃ ev ∈ cRec.events, ev.id = id ∧ ev.kind = .resp ∧ ev.minStartCycle = response.zllStartCycle

section Exact

variable {cRec next : OOOCoreRecorder} {last : IssueEvent}

theorem exact_initial : Exact .initial := by
  constructor
  case graph => exact graph_initial
  all_goals simp [initial, OnTime]

theorem Event.of_issue {ev : Event} {issue : IssueEvent} (isIssue : ev.issue? = some issue) :
    ev.kind = .issue issue.zllStartCycle ∧ ev.minStartCycle = issue.minStartCycle := by
  rw [Event.issue?] at isIssue
  split at isIssue
  · next isKind =>
    simp only [some.injEq] at isIssue
    rw [isKind, ← isIssue]
    exact ⟨rfl, rfl⟩
  · simp at isIssue

section

variable (exact : Exact cRec)
include exact

theorem Exact.parentAt_last (isLast : cRec.lastEvProduced = some last) (delay : Nat) :
    ParentAt cRec.events (last.id, delay) (last.zllStartCycle + delay) := by
  obtain ⟨ev, mem, isIssue⟩ := exact.last last isLast
  have unskewed := exact.issues ev mem last isIssue
  have fields := Event.of_issue isIssue
  refine ⟨ev, mem, Event.id_of_issue isIssue, by simp [fields.1], ?_⟩
  rw [fields.2, unskewed]

theorem Exact.parentAt_resp {resp : FutureResponse} {id : Nat}
    (mem : resp ∈ cRec.futureResponses) (isEv : resp.ev = some id) (delay : Nat) :
    ParentAt cRec.events (id, delay) (resp.zllStartCycle + delay) := by
  obtain ⟨ev, insideEv, same, isResp, isCycle⟩ := exact.responses resp mem id isEv
  exact ⟨ev, insideEv, same, by simp [isResp], by rw [isCycle]⟩

omit exact in
theorem parentAt_produce (cRec : OOOCoreRecorder) {kind : EventKind}
    (preDelay : Nat) (minStartCycle : Nat) (queued : Option Nat)
    (parents : List (Nat × Nat)) (recorded : kind ≠ .writeback) (delay : Nat) :
    ParentAt (cRec.produce kind preDelay minStartCycle queued parents).events
      (cRec.events.length, delay) (minStartCycle + delay) :=
  ⟨_, mem_append_right _ (mem_singleton.mpr rfl), rfl, recorded, rfl⟩

/-- A new event that is timed. -/
theorem Exact.produce {kind : EventKind} {preDelay minStartCycle : Nat}
    {queued : Option Nat} {parents : List (Nat × Nat)}
    (timed : kind ≠ .writeback → Event.Timed cRec.events {
      id := cRec.events.length
      kind
      preDelay
      minStartCycle
      queued
      parents })
    (issue : ∀ zllCycle, kind = .issue zllCycle → zllCycle = minStartCycle) :
    Exact (cRec.produce kind preDelay minStartCycle queued parents) where
  graph := exact.graph.push rfl
  gap := exact.gap
  total := exact.total
  timed := by
    refine forall_mem_append.mpr ⟨fun ev old recorded => ?_, forall_mem_singleton.mpr ?_⟩
    · exact (exact.timed ev old recorded).mono (subset_append_left _ _)
    · exact fun recorded => (timed recorded).mono (subset_append_left _ _)
  onTime := by
    refine forall_mem_append.mpr ⟨exact.onTime, forall_mem_singleton.mpr ?_⟩
    intro _ startCycle started
    exact absurd (exact.graph.starts_length.symm.trans started) (by simp)
  issues := by
    refine forall_mem_append.mpr ⟨exact.issues, forall_mem_singleton.mpr fun other isOther => ?_⟩
    have fields := Event.of_issue isOther
    rw [issue _ fields.1, ← fields.2]
  last := by
    intro last isLast
    obtain ⟨ev, mem, isIssue⟩ := exact.last last isLast
    exact ⟨ev, mem_append_left _ mem, isIssue⟩
  responses := by
    intro resp mem id isEv
    obtain ⟨ev, insideEv, rest⟩ := exact.responses resp mem id isEv
    exact ⟨ev, mem_append_left _ insideEv, rest⟩

theorem Exact.produceIssue {cycle preDelay : Nat} {queued : Option Nat}
    {parents : List (Nat × Nat)} (timed : Event.Timed cRec.events {
      id := cRec.events.length
      kind := .issue cycle
      preDelay
      minStartCycle := cycle
      queued
      parents }) :
    Exact (cRec.produceIssue cycle preDelay cycle queued parents) :=
  { exact.produce (fun _ => timed) (by simp) with
    last := by
      intro last isLast
      rw [← mem_some_iff.mp isLast]
      exact ⟨_, mem_append_right _ (mem_singleton.mpr rfl), rfl⟩ }

theorem Exact.setState (state : State) : Exact { cRec with state } := { exact with }

theorem Exact.fewer {responses : List FutureResponse} (sub : responses ⊆ cRec.futureResponses) :
    Exact { cRec with futureResponses := responses } :=
  { exact with
    responses := fun resp mem =>
      exact.responses resp (sub mem) }

theorem Exact.add (isLast : cRec.lastEvProduced = some last)
    {evCycle : Nat} (added : Added cRec last evCycle next) : Exact next := by
  obtain ⟨preDelay, issueDelay, linked, rest, rfl, covers, sub, -, before⟩ := added
  have unskewed : evCycle - cRec.gapCycles = evCycle := by
    rw [exact.gap, Nat.sub_zero]
  rw [unskewed] at covers before ⊢
  refine (exact.fewer sub.subset).produceIssue ?_
  refine {
    parents := forall_mem_append.mpr ⟨forall_mem_map.mpr fun id isLinked => ?_,
      forall_mem_singleton.mpr ⟨_, exact.parentAt_last isLast issueDelay, covers.le⟩⟩
    queued := by simp
    tight := .inl ⟨(last.id, issueDelay), by simp, _,
      exact.parentAt_last isLast issueDelay, covers⟩ }
  obtain ⟨resp, insideResponse, isEv, le⟩ := before id isLinked
  exact ⟨_, exact.parentAt_resp insideResponse isEv 0, le⟩

theorem Exact.restart (curCycle : Nat) : Exact (cRec.restart curCycle) := by
  have reset : Exact { cRec with
      totalGapCycles := cRec.totalGapCycles + cRec.gapCycles
      gapCycles := 0
      totalHaltedCycles := cRec.totalHaltedCycles + (curCycle - cRec.lastUnhaltedCycle)
      state := .RUNNING } :=
    { exact with
      gap := rfl
      total := by
        rw [exact.gap, exact.total] }
  exact reset.produceIssue ⟨by simp, by simp, .inr ⟨curCycle, by simp⟩⟩

/-- A new event that waits for one parent only. -/
theorem Exact.produceAfter (kind : EventKind) (preDelay minStartCycle : Nat)
    {link : Nat × Nat} {cycle : Nat} (parentAt : ParentAt cRec.events link cycle)
    (same : cycle + preDelay = minStartCycle) (noIssue : ∀ zllCycle, kind ≠ .issue zllCycle) :
    Exact (cRec.produce kind preDelay minStartCycle none [link]) := by
  refine exact.produce (fun _ => ?_) (fun zllCycle isIssue => absurd isIssue (noIssue zllCycle))
  refine {
    parents := fun other mem => ?_
    queued := by simp
    tight := .inl ⟨link, by simp, cycle, parentAt, same⟩ }
  rw [mem_singleton] at mem
  exact ⟨cycle, mem ▸ parentAt, same.le⟩

end

section Get

variable {curCycle dispatchCycle respCycle : Nat} {tr : TimingRecord}

section

variable (exact : Exact cRec) (isLast : cRec.lastEvProduced = some last)
  (now : last.zllStartCycle = curCycle)
  (later : ∀ resp ∈ cRec.futureResponses, curCycle ≤ resp.zllStartCycle)
include exact isLast now later

/-- The dispatch event waits for the issue event and for the responses before
it. -/
theorem Exact.timed_dispatch (le : curCycle ≤ dispatchCycle) (fits : dispatchCycle - curCycle < 2 ^ 32) :
    Event.Timed cRec.events {
      id := cRec.events.length
      kind := .dispatch
      preDelay := 0
      minStartCycle := dispatchCycle
      queued := none
      parents := respLinks (dispatchCycle - cRec.gapCycles) cRec.futureResponses ++
          [(last.id, delay32 dispatchCycle curCycle)] } := by
  have afterIssue : ParentAt cRec.events
      (last.id, delay32 dispatchCycle curCycle) dispatchCycle := by
    have parentAt := exact.parentAt_last isLast (delay32 dispatchCycle curCycle)
    rwa [delay32_eq le fits, now, Nat.add_sub_cancel' le, ← delay32_eq le fits] at parentAt
  rw [exact.gap, Nat.sub_zero]
  refine {
    parents := fun link mem => ?_
    queued := by simp
    tight := .inl ⟨_, by simp, dispatchCycle, afterIssue, rfl⟩ }
  refine ⟨dispatchCycle, ?_, le_rfl⟩
  rcases mem_append.mp mem with isResp | isIssue
  · rw [respLinks, mem_filterMap] at isResp
    obtain ⟨resp, insideResponse, isLink⟩ := isResp
    split at isLink
    · next before =>
      obtain ⟨id, isEv, rfl⟩ := map_eq_some_iff.mp isLink
      have parentAt := exact.parentAt_resp insideResponse isEv
        (delay32 dispatchCycle resp.zllStartCycle)
      have notEarly := later resp insideResponse
      have delay := delay32_eq before.le (by omega)
      rwa [delay, Nat.add_sub_cancel' before.le, ← delay] at parentAt
    · simp at isLink
  · rwa [mem_singleton.mp isIssue]

theorem Exact.recordGet (dispatched : curCycle ≤ dispatchCycle) (requested : dispatchCycle ≤ tr.reqCycle)
    (answered : tr.reqCycle ≤ tr.respCycle) (responded : tr.respCycle ≤ respCycle)
    (fitsDispatch : dispatchCycle - curCycle < 2 ^ 32)
    (fitsRequest : tr.reqCycle - dispatchCycle < 2 ^ 32)
    (fitsResponse : respCycle - tr.respCycle < 2 ^ 32) :
    Exact (cRec.recordGet curCycle dispatchCycle respCycle tr last) := by
  have dispatch := exact.timed_dispatch isLast now later dispatched fitsDispatch
  have done := exact
    |>.produce (fun _ => dispatch) (by simp)
    |>.produceAfter .request 0 tr.reqCycle (parentAt_produce _ _ _ _ _ (by simp)
        (delay32 tr.reqCycle dispatchCycle))
      (by rw [delay32_eq requested fitsRequest]; omega) (by simp)
    |>.produceAfter .reply 0 tr.respCycle
      (parentAt_produce _ _ _ _ _ (by simp) (tr.respCycle - tr.reqCycle))
      (by omega) (by simp)
    |>.produceAfter .resp (delay32 respCycle tr.respCycle) respCycle
      (parentAt_produce _ _ _ _ _ (by simp) 0)
      (by rw [delay32_eq responded fitsResponse]; omega) (by simp)
  have places : ∀ (earlier : OOOCoreRecorder) kind preDelay minStartCycle queued parents,
      (earlier.produce kind preDelay minStartCycle queued
        parents).events.length = earlier.events.length + 1 := by simp [OOOCoreRecorder.produce]
  rw [places, places] at done
  exact { done with
    responses := by
      intro resp mem id isEv
      rcases mem_orderedInsert _ |>.mp mem with rfl | old
      · obtain rfl := mem_some_iff.mp isEv
        refine ⟨_, mem_append_right _ (mem_singleton.mpr rfl), by simp [places], rfl, ?_⟩
        dsimp only
        rw [exact.gap, Nat.sub_zero]
      · exact done.responses resp old id isEv }

end

end Get

theorem Exact.writeback (exact : Exact cRec) (preDelay minStartCycle : Nat)
    (queued : Option Nat) (parents : List (Nat × Nat)) :
    Exact (cRec.produce .writeback preDelay minStartCycle queued parents) :=
  exact.produce (by simp) (by simp)

theorem Exact.simulate (exact : Exact cRec) {ev : Event} {startCycle : Nat}
    (mem : ev ∈ cRec.events) (fresh : cRec.starts ev.id = none)
    (ready : ev.Ready cRec.starts) (undelayed : startCycle = ev.imposed cRec.starts) :
    Exact (cRec.simulate ev startCycle) := by
  have graph := exact.graph.start mem fresh (Event.respects_of_imposed ready undelayed.ge)
  have onTime : OnTime cRec.events (update cRec.starts ev.id (some startCycle)) := by
    intro other mem' recorded cycle started
    by_cases same : other.id = ev.id
    · obtain rfl := exact.graph.eq_of_id mem' mem same
      rw [update_self, mem_some_iff] at started
      rw [← started, undelayed, (exact.timed other mem recorded).imposed_eq exact.onTime ready]
    · rw [update_of_ne same] at started
      exact exact.onTime other mem' recorded cycle started
  cases isIssue : ev.issue? with
  | none =>
    rw [simulate_of_none isIssue]
    exact { exact with graph, onTime }
  | some issue =>
    rw [simulate_of_issue isIssue]
    refine { exact with graph, onTime, last := fun last isLast => ?_ }
    dsimp only [reportIssueEventSimulated] at isLast
    split at isLast
    · simp at isLast
    · exact exact.last last isLast

/-- The end of the weave phase adds nothing to `gapCycles`. -/
theorem Exact.forget (exact : Exact cRec) (gapCycles : Nat) (zero : gapCycles = 0) :
    Exact { cRec with
      gapCycles
      futureResponses := cRec.forgetSimulated } :=
  { exact with
    gap := zero
    responses := by
      intro resp mem id isEv
      obtain ⟨original, insideOriginal, rfl⟩ := mem_map.mp mem
      exact exact.responses original insideOriginal id (mem_filter_iff.mp isEv).1 }

end Exact

end Damov.Weave.OOOCoreRecorder
