import Damov.Weave.ExactStarts
import Damov.Weave.SkewInvariant

/-!
# Runs of a core and its recorder

Along every run in which the delays fit into 32 bits, the skew of the issue
events of a chain never decreases, and no assertion of the recorder fails. In a
run without delays there is no skew at all.
-/

namespace Damov.Weave.OOOCoreRecorder

open Library.Checked List

namespace System

variable {phaseLength : BitVec 32} {sys : System}

attribute [local simp] produceIssue produce restart

/-! ## The invariant of the clock -/

/-- The events before the horizon have been simulated. -/
def horizon (phaseLength : BitVec 32) (sys : System) : Nat :=
  match sys.phase with
  | .bound => sys.globPhaseCycles
  | .weave => sys.globPhaseCycles + phaseLength.toNat

structure Inv (phaseLength : BitVec 32) (sys : System) : Prop where
  tracks : Tracks (sys.phase = .bound ∨ sys.cRec.state = .HALTED) sys.cRec sys.chain
  halted : sys.cRec.state = .HALTED → sys.cRec.lastEvProduced = none ∧ sys.cRec.futureResponses = []
  live : sys.cRec.state = .RUNNING ∨ sys.cRec.state = .DRAINING ∧ sys.phase = .bound →
    sys.cRec.lastEvProduced ≠ none
  joined : sys.cRec.state ≠ .HALTED → sys.chain ≠ []
  drained : sys.cRec.state = .DRAINING → sys.phase = .weave → sys.cRec.futureResponses = []
  simulated : sys.cRec.lastEvSimulatedStartCycle ≤ sys.horizon phaseLength
  unhalted : sys.cRec.lastUnhaltedCycle ≤ sys.horizon phaseLength
  reached : sys.cRec.state ≠ .HALTED → sys.horizon phaseLength ≤ sys.curCycle
  behind : sys.cRec.state ≠ .HALTED → ∀ last ∈ sys.chain.getLast?,
    last.zllStartCycle + sys.cRec.gapCycles ≤ sys.curCycle
  tapered : sys.cRec.state = .RUNNING → ∀ last ∈ sys.chain.getLast?,
    sys.horizon phaseLength ≤ last.zllStartCycle + sys.cRec.gapCycles

theorem inv_initial : Inv phaseLength initial where
  tracks := tracks_initial.relax
  halted := fun _ => ⟨rfl, rfl⟩
  live := by simp [initial, OOOCoreRecorder.initial]
  joined := by simp [initial, OOOCoreRecorder.initial]
  drained := by simp [initial]
  simulated := Nat.zero_le _
  unhalted := Nat.zero_le _
  reached := by simp [initial, OOOCoreRecorder.initial]
  behind := by simp [initial]
  tapered := by simp [initial]

theorem Inv.bound (inv : Inv phaseLength sys) (isBound : sys.phase = .bound) :
    Tracks True sys.cRec sys.chain :=
  { inv.tracks with even := fun _ => inv.tracks.even (.inl isBound) }

/-- The invariant, and without delays also that events start on time. -/
def Kept (phaseLength : BitVec 32) (sys : System) (undelayed : Prop) (next : System) : Prop :=
  Inv phaseLength next ∧ (Exact sys.cRec → undelayed → Exact next.cRec)

/-! ## Issue events -/

variable {last : IssueEvent} {evCycle : Nat} {rec next : OOOCoreRecorder}
    {curCycle respCycle : Nat} {issue : IssueEvent} {ev : Event} {startCycle : Nat}

/-- What `addIssueEvent` needs. -/
theorem Inv.addIssueEvent (inv : Inv phaseLength sys) (isLast : sys.cRec.lastEvProduced = some last)
    (le : last.zllStartCycle + sys.cRec.gapCycles ≤ evCycle)
    (fits : sys.cRec.IssueFits evCycle) (state : State) :
    Gives ({ sys.cRec with state }.addIssueEvent evCycle)
      (Added { sys.cRec with state } last evCycle) :=
  addIssueEvent_spec isLast (by dsimp only; omega) inv.tracks.sorted
    (fun resp mem => inv.tracks.above resp mem last (inv.tracks.last last isLast).1) fits

/-- The issue events that have been produced since. -/
theorem issued_of_added (added : Added rec last evCycle next) :
    (next.events.drop rec.events.length).filterMap Event.issue? =
      [⟨rec.events.length, evCycle - rec.gapCycles, evCycle⟩] := by
  obtain ⟨preDelay, issueDelay, linked, rest, rfl, -⟩ := added
  simp [Event.issue?]

/-- The state after a call that adds an issue event. -/
theorem Inv.issued (inv : Inv phaseLength sys) (isBound : sys.phase = .bound)
    (isLast : sys.cRec.lastEvProduced = some last) {state : State}
    (added : Added { sys.cRec with state } last evCycle next)
    (le : last.zllStartCycle + sys.cRec.gapCycles ≤ evCycle)
    (active : state ≠ .HALTED) {phase : Phase} (tapers : phase = .weave → state = .RUNNING)
    (reached : horizon phaseLength { sys with phase } ≤ evCycle) (behind : evCycle ≤ curCycle) :
    Inv phaseLength { sys.advance curCycle next with phase } := by
  have tracks : Tracks True next _ := ((inv.bound isBound).setState state).add isLast added
  have issued := issued_of_added added
  have later : sys.horizon phaseLength ≤ horizon phaseLength { sys with phase } := by
    simp only [horizon, isBound]
    split <;> omega
  obtain ⟨preDelay, issueDelay, linked, rest, rfl, -⟩ := added
  rw [advance, issued]
  have isNew : ∀ issue ∈ (sys.chain ++ [(⟨sys.cRec.events.length, evCycle - sys.cRec.gapCycles,
        evCycle⟩ : IssueEvent)]).getLast?,
      issue.zllStartCycle + sys.cRec.gapCycles = evCycle := by
    intro issue isIssue
    rw [getLast?_concat, Option.mem_some_iff] at isIssue
    rw [← isIssue]
    dsimp only
    omega
  exact {
    tracks := tracks.relax
    halted := fun isHalted => absurd isHalted active
    live := by simp
    joined := by simp
    drained := fun isDraining isWeave =>
      absurd ((tapers isWeave).symm.trans isDraining) (by simp)
    simulated := inv.simulated.trans later
    unhalted := inv.unhalted.trans later
    reached := fun _ => reached.trans behind
    behind := fun _ issue isIssue => (isNew issue isIssue).trans_le behind
    tapered := fun _ issue isIssue =>
      reached.trans_eq (isNew issue isIssue).symm }

theorem issued_restart (rec : OOOCoreRecorder) (curCycle : Nat) :
    ((rec.restart curCycle).events.drop
      rec.events.length).filterMap Event.issue? = [⟨rec.events.length, curCycle, curCycle⟩] := by
  simp [Event.issue?]

theorem horizon_bound (isBound : sys.phase = .bound) :
    sys.horizon phaseLength = sys.globPhaseCycles := by
  rw [horizon, isBound]

theorem horizon_weave (isWeave : sys.phase = .weave) :
    sys.horizon phaseLength = sys.globPhaseCycles + phaseLength.toNat := by
  rw [horizon, isWeave]

section

variable (inv : Inv phaseLength sys) (isBound : sys.phase = .bound)
include inv isBound

theorem notifyJoin_halted (isHalted : sys.cRec.state = .HALTED) (curCycle : Nat) :
    Gives (sys.step phaseLength (.notifyJoin curCycle)) (Kept phaseLength sys True) := by
  have rest := inv.halted isHalted
  have unhalted := inv.unhalted
  rw [horizon_bound isBound] at unhalted
  rw [step, notifyJoin, isHalted]
  simp only [check_true _ rest.1, check_true _ unhalted, if_true]
  refine .pure ⟨?_, fun exact _ => exact.restart sys.globPhaseCycles⟩
  rw [advance, issued_restart]
  have tracks := (inv.bound isBound).restart rest.1 rest.2 sys.globPhaseCycles
  exact {
    tracks := tracks.relax
    halted := by simp
    live := by simp
    joined := by simp
    drained := by simp
    simulated := inv.simulated
    unhalted := inv.unhalted
    reached := fun _ => (horizon_bound isBound).le
    behind := by simp
    tapered := by
      intro _ last isLast
      simp only [nil_append, getLast?_singleton, Option.mem_some_iff] at isLast
      rw [← isLast]
      exact (horizon_bound isBound).le }

variable {curCycle : Nat} (after : sys.curCycle ≤ curCycle)
include after

theorem Inv.lastEvProduced (notHalted : sys.cRec.state ≠ .HALTED) :
    ∃ last, sys.cRec.lastEvProduced = some last ∧
      last.zllStartCycle + sys.cRec.gapCycles ≤ curCycle := by
  have live : sys.cRec.lastEvProduced ≠ none := by
    apply inv.live
    cases isState : sys.cRec.state with
    | HALTED => exact absurd isState notHalted
    | RUNNING => exact .inl rfl
    | DRAINING => exact .inr ⟨rfl, isBound⟩
  obtain ⟨last, isLast⟩ := Option.ne_none_iff_exists'.mp live
  exact ⟨last, isLast, (inv.behind notHalted last (inv.tracks.last last isLast).1).trans after⟩

/-- A call of the bound phase that adds an issue event. -/
theorem Inv.issuedNow {last : IssueEvent}
    (isLast : sys.cRec.lastEvProduced = some last) {state : State} {next : OOOCoreRecorder}
    (added : Added { sys.cRec with state } last curCycle next)
    (le : last.zllStartCycle + sys.cRec.gapCycles ≤ curCycle)
    (active : state ≠ .HALTED) (notHalted : sys.cRec.state ≠ .HALTED) :
    Kept phaseLength sys True (sys.advance curCycle next) :=
  ⟨inv.issued isBound isLast added le active
      (fun isWeave => absurd (isBound.symm.trans isWeave) (by simp))
      ((inv.reached notHalted).trans after) le_rfl,
    fun exact _ => (exact.setState state).add isLast added⟩

theorem notifyJoin_draining (isDraining : sys.cRec.state = .DRAINING) (fits : sys.cRec.IssueFits curCycle) :
    Gives (sys.step phaseLength (.notifyJoin curCycle)) (Kept phaseLength sys True) := by
  have notHalted : sys.cRec.state ≠ .HALTED := by simp [isDraining]
  obtain ⟨last, isLast, le⟩ := inv.lastEvProduced isBound after notHalted
  have reached := (inv.reached notHalted).trans after
  rw [horizon_bound isBound] at reached
  rw [step, notifyJoin, isDraining]
  simp only [check_true _ reached, ok_bind, isLast, ne_eq, reduceCtorEq,
    not_false_iff, check_true, if_false]
  rw [bind_assoc]
  apply (inv.addIssueEvent isLast le fits sys.cRec.state).bind
  intro next added
  exact .pure (inv.issuedNow isBound after isLast (added.setState .RUNNING) le (by simp) notHalted)

theorem notifyLeave_spec (isRunning : sys.cRec.state = .RUNNING) (fits : sys.cRec.IssueFits curCycle) :
    Gives (sys.step phaseLength (.notifyLeave curCycle)) (Kept phaseLength sys True) := by
  have notHalted : sys.cRec.state ≠ .HALTED := by simp [isRunning]
  obtain ⟨last, isLast, le⟩ := inv.lastEvProduced isBound after notHalted
  have behind : last.zllStartCycle ≤ curCycle - sys.cRec.gapCycles := by omega
  have leaves : sys.cRec.notifyLeave curCycle =
      { sys.cRec with state := .DRAINING }.addIssueEvent curCycle := by
    simp only [notifyLeave, check_true _ isRunning, ok_bind, isLast, check_true _ behind]
  rw [step, leaves]
  apply (inv.addIssueEvent isLast le fits .DRAINING).bind
  intro next added
  exact .pure (inv.issuedNow isBound after isLast added le (by simp) notHalted)

end

/-! ## Accesses -/

/-- An event that is no issue event does not continue the chain. -/
theorem issued_produce (before : OOOCoreRecorder)
    (le : before.events.length ≤ rec.events.length) {kind : EventKind}
    (noIssue : ∀ zllCycle, kind ≠ .issue zllCycle)
    (preDelay minStartCycle : Nat) (queued : Option Nat) (parents : List (Nat × Nat)) :
    ((rec.produce kind preDelay minStartCycle queued
      parents).events.drop before.events.length).filterMap Event.issue? =
        (rec.events.drop before.events.length).filterMap Event.issue? := by
  have none : Event.issue?
      ⟨rec.events.length, kind, preDelay, minStartCycle, queued, parents⟩ = none := by
    rw [Event.issue?]
    split
    · next isIssue => exact absurd isIssue (noIssue _)
    · rfl
  rw [produce, drop_append_of_le_length le, filterMap_append,
    filterMap_cons_none none, filterMap_nil, append_nil]

section

variable (inv : Inv phaseLength sys)
include inv

theorem Inv.nonIssue {kind : EventKind} (noIssue : ∀ zllCycle, kind ≠ .issue zllCycle)
    (preDelay minStartCycle : Nat) (queued : Option Nat) (parents : List (Nat × Nat)) :
    Inv phaseLength { sys with
      cRec := sys.cRec.produce kind preDelay minStartCycle queued parents } :=
  { inv with
    tracks := inv.tracks.nonIssue noIssue preDelay minStartCycle queued parents }

theorem Inv.later (after : sys.curCycle ≤ curCycle) : Inv phaseLength { sys with curCycle } :=
  { inv with
    reached := fun notHalted => (inv.reached notHalted).trans after
    behind := fun notHalted last isLast =>
      (inv.behind notHalted last isLast).trans after }

section

variable (isBound : sys.phase = .bound)
include isBound

theorem recordAccess_put (isRunning : sys.cRec.state = .RUNNING)
    {dispatchCycle : Nat} {tr : TimingRecord}
    (after : sys.curCycle ≤ curCycle) (isPut : isGet tr.type = false) :
    Gives (sys.step phaseLength (.recordAccess curCycle dispatchCycle respCycle tr))
      (Kept phaseLength sys True) := by
  have notHalted : sys.cRec.state ≠ .HALTED := by simp [isRunning]
  obtain ⟨last, isLast, -⟩ := inv.lastEvProduced isBound after notHalted
  rw [step, recordAccess, isPut, isLast]
  refine .pure ⟨?_, fun exact _ => exact.writeback _ _ _ _⟩
  rw [advance, issued_produce sys.cRec le_rfl (by simp), drop_length, filterMap_nil, append_nil]
  exact (inv.later after).nonIssue (by simp) _ _ _ _

theorem Inv.respond (notHalted : sys.cRec.state ≠ .HALTED)
    {resp : FutureResponse} (above : ∀ last ∈ sys.chain.getLast?,
      last.zllStartCycle ≤ resp.zllStartCycle) :
    Inv phaseLength { sys with
      cRec := { sys.cRec with
        futureResponses := sys.cRec.futureResponses.orderedInsert
          (fun first second => first.zllStartCycle ≤ second.zllStartCycle)
          resp } } :=
  { inv with
    tracks := by
      refine inv.tracks.setResponses (inv.tracks.sorted.push resp) ?_
      intro other mem last isLast
      rcases (mem_orderedInsert _).mp mem with rfl | old
      · exact above last isLast
      · exact inv.tracks.above other old last isLast
    halted := fun isHalted => absurd isHalted notHalted
    drained := fun _ isWeave =>
      absurd (isBound.symm.trans isWeave) (by simp) }

theorem Inv.recordGet (notHalted : sys.cRec.state ≠ .HALTED)
    (curCycle dispatchCycle : Nat) (tr : TimingRecord) (last : IssueEvent)
    (above : ∀ last ∈ sys.chain.getLast?, last.zllStartCycle ≤ respCycle - sys.cRec.gapCycles) :
    Inv phaseLength { sys with
      cRec := sys.cRec.recordGet curCycle dispatchCycle respCycle tr last } :=
  inv
    |>.nonIssue (by simp) _ _ _ _
    |>.nonIssue (by simp) _ _ _ _
    |>.nonIssue (by simp) _ _ _ _
    |>.nonIssue (by simp) _ _ _ _
    |>.respond isBound notHalted above

end

omit inv in
/-- Only the issue event of a GET continues the chain. -/
theorem advance_recordGet (sys : System) (le : sys.cRec.events.length ≤ next.events.length)
    (curCycle dispatchCycle respCycle : Nat) (tr : TimingRecord) (last : IssueEvent) :
    sys.advance curCycle (next.recordGet curCycle dispatchCycle respCycle tr last) =
      { sys.advance curCycle next with
        cRec := next.recordGet curCycle dispatchCycle respCycle tr last } := by
  have more : ∀ (cRec : OOOCoreRecorder) kind preDelay minStartCycle queued parents,
      sys.cRec.events.length ≤ cRec.events.length →
      sys.cRec.events.length ≤ (cRec.produce kind preDelay
        minStartCycle queued parents).events.length := by
    intro cRec kind preDelay minStartCycle queued parents before
    simp only [produce, length_append]
    omega
  simp only [advance, recordGet]
  rw [issued_produce sys.cRec (more _ _ _ _ _ _ (more _ _ _ _ _ _ (more _ _ _ _ _ _ le))) (by simp),
    issued_produce sys.cRec (more _ _ _ _ _ _ (more _ _ _ _ _ _ le)) (by simp),
    issued_produce sys.cRec (more _ _ _ _ _ _ le) (by simp),
    issued_produce sys.cRec le (by simp)]

theorem recordAccess_get (isBound : sys.phase = .bound)
    (isRunning : sys.cRec.state = .RUNNING) {dispatchCycle : Nat}
    {tr : TimingRecord} (after : sys.curCycle ≤ curCycle)
    (get : isGet tr.type = true) (dispatched : curCycle ≤ dispatchCycle)
    (requested : dispatchCycle ≤ tr.reqCycle) (answered : tr.reqCycle ≤ tr.respCycle)
    (responded : tr.respCycle ≤ respCycle) (fits : sys.cRec.IssueFits curCycle)
    (fitsDispatch : dispatchCycle - curCycle < 2 ^ 32)
    (fitsRequest : tr.reqCycle - dispatchCycle < 2 ^ 32)
    (fitsResponse : respCycle - tr.respCycle < 2 ^ 32) :
    Gives (sys.step phaseLength (.recordAccess curCycle dispatchCycle respCycle tr))
      (Kept phaseLength sys True) := by
  have notHalted : sys.cRec.state ≠ .HALTED := by simp [isRunning]
  obtain ⟨last, isLast, le⟩ := inv.lastEvProduced isBound after notHalted
  rw [step, recordAccess, if_pos get, bind_assoc]
  apply (inv.addIssueEvent isLast le fits sys.cRec.state).bind
  intro next added
  obtain ⟨issued, timely⟩ := inv.issuedNow isBound after isLast added le notHalted notHalted
  have chain := issued_of_added added
  obtain ⟨isNew, isState, gap, later, longer⟩ := added.recorded
  dsimp only at chain isNew isState gap later longer
  simp only [isNew, check_true _ responded]
  refine .pure ⟨?_, fun exact _ => ?_⟩
  · rw [advance_recordGet sys (by omega)]
    refine issued.recordGet isBound (isState ▸ notHalted) _ _ _ _ ?_
    intro other isOther
    dsimp only [advance] at isOther ⊢
    rw [chain, getLast?_concat, Option.mem_some_iff] at isOther
    rw [← isOther]
    dsimp only
    omega
  · refine (timely exact trivial).recordGet isNew (by simp [exact.gap]) ?_ dispatched
      requested answered responded fitsDispatch fitsRequest fitsResponse
    simpa [advance, exact.gap] using later

end

/-! ## The start of the weave phase -/

theorem advance_same (sys : System) (curCycle : Nat) :
    sys.advance curCycle sys.cRec = { sys with curCycle } := by simp [advance]

section

variable (inv : Inv phaseLength sys) (isBound : sys.phase = .bound)
include inv isBound

variable {curCycle : Nat}

/-- The phase does not need to be tapered. -/
theorem Inv.enterWeave {resps : List FutureResponse} (sub : resps.Sublist sys.cRec.futureResponses)
    (drained : sys.cRec.state = .DRAINING → resps = []) (after : sys.curCycle ≤ curCycle)
    (reached : sys.cRec.state ≠ .HALTED → sys.globPhaseCycles + phaseLength.toNat ≤ curCycle)
    (tapered : sys.cRec.state = .RUNNING → ∀ last ∈ sys.chain.getLast?,
      sys.globPhaseCycles + phaseLength.toNat ≤ last.zllStartCycle + sys.cRec.gapCycles) :
    Inv phaseLength { sys with
      cRec := { sys.cRec with futureResponses := resps }
      curCycle
      phase := .weave } := by
  have simulated := inv.simulated
  have unhalted := inv.unhalted
  rw [horizon_bound isBound] at simulated unhalted
  have tracks := (inv.bound isBound).setResponses (inv.tracks.sorted.sublist sub)
    (fun resp mem => inv.tracks.above resp (sub.subset mem))
  exact {
    tracks := tracks.relax
    halted := by
      intro isHalted
      have rest := inv.halted isHalted
      refine ⟨rest.1, ?_⟩
      rw [rest.2] at sub
      exact sublist_nil.mp sub
    live := fun active => inv.live (active.imp id fun draining => ⟨draining.1, isBound⟩)
    joined := inv.joined
    drained := fun isDraining _ => drained isDraining
    simulated := simulated.trans (Nat.le_add_right _ _)
    unhalted := unhalted.trans (Nat.le_add_right _ _)
    reached
    behind := fun notHalted last isLast =>
      (inv.behind notHalted last isLast).trans after
    tapered }

theorem Inv.taper_fits (isRunning : sys.cRec.state = .RUNNING)
    {last : IssueEvent} (isLast : sys.cRec.lastEvProduced = some last) :
    sys.cRec.IssueFits (sys.globPhaseCycles + phaseLength.toNat) := by
  have isEnd := (inv.tracks.last last isLast).1
  have tapered := inv.tapered isRunning last isEnd
  rw [horizon_bound isBound] at tapered
  exact issueFits_of_lt isLast (fun resp mem => inv.tracks.above resp mem last isEnd) (by omega)

theorem cSimStart_running (isRunning : sys.cRec.state = .RUNNING)
    (after : sys.curCycle ≤ curCycle) (past : sys.globPhaseCycles + phaseLength.toNat < curCycle) :
    Gives (sys.step phaseLength (.cSimStart curCycle)) (Kept phaseLength sys True) := by
  have notHalted : sys.cRec.state ≠ .HALTED := by simp [isRunning]
  obtain ⟨last, isLast, le⟩ := inv.lastEvProduced isBound after notHalted
  have behind : last.zllStartCycle ≤ curCycle - sys.cRec.gapCycles := by omega
  rw [step, cSimStart]
  simp only [isRunning, check_true _ past, ok_bind, isLast, check_true _ behind]
  split
  · next early =>
    rw [bind_assoc]
    apply (inv.addIssueEvent isLast (by omega)
      (inv.taper_fits isBound isRunning isLast) sys.cRec.state).bind
    intro next added
    refine .pure ?_
    exact ⟨inv.issued isBound isLast added (by omega) notHalted (fun _ => isRunning) le_rfl past.le,
      fun exact _ => (exact.setState sys.cRec.state).add isLast added⟩
  · next late =>
    refine .pure ⟨?_, fun exact _ => exact⟩
    rw [advance_same]
    refine inv.enterWeave isBound (List.Sublist.refl _) (by simp [isRunning])
      after (fun _ => past.le) (fun _ other isOther => ?_)
    rw [(inv.tracks.last last isLast).1, Option.mem_some_iff] at isOther
    subst isOther
    omega

theorem cSimStart_spec (after : sys.curCycle ≤ curCycle)
    (past : sys.cRec.state = .RUNNING → sys.globPhaseCycles + phaseLength.toNat < curCycle) :
    Gives (sys.step phaseLength (.cSimStart curCycle)) (Kept phaseLength sys True) := by
  cases isState : sys.cRec.state with
  | RUNNING => exact cSimStart_running inv isBound isState after (past isState)
  | HALTED =>
    rw [step, cSimStart, isState]
    refine .pure ⟨?_, fun exact _ => exact⟩
    rw [advance_same]
    exact inv.enterWeave isBound (List.Sublist.refl _) (by simp [isState])
      after (by simp [isState]) (by simp [isState])
  | DRAINING =>
    have starts : sys.cRec.cSimStart sys.globPhaseCycles phaseLength.toNat curCycle =
      .ok (max curCycle (sys.globPhaseCycles + phaseLength.toNat),
        { sys.cRec with futureResponses := [] }) := by simp only [cSimStart, isState]
    rw [step, starts]
    refine .pure ⟨?_, fun exact _ => exact.fewer (nil_subset _)⟩
    simp only [advance, drop_length, filterMap_nil, append_nil]
    exact inv.enterWeave isBound (nil_sublist _) (fun _ => rfl)
      (after.trans (le_max_left _ _)) (fun _ => le_max_right _ _)
      (by simp [isState])

end

/-! ## The weave phase -/

section

variable (inv : Inv phaseLength sys)
include inv

theorem Inv.simulate_issue (isWeave : sys.phase = .weave)
    (mem : ev ∈ sys.cRec.events) (isIssue : ev.issue? = some issue)
    (fresh : sys.cRec.starts ev.id = none)
    (respects : ev.Respects sys.cRec.starts startCycle)
    (before : startCycle < sys.globPhaseCycles + phaseLength.toNat) :
    Inv phaseLength { sys with
      cRec := sys.cRec.simulate ev startCycle } := by
  have freshIssue : sys.cRec.starts issue.id = none := Event.id_of_issue isIssue ▸ fresh
  have notHalted : sys.cRec.state ≠ .HALTED := by
    intro isHalted
    exact inv.tracks.finished (inv.halted isHalted).1 issue
      (inv.tracks.ok.pending ev mem issue isIssue freshIssue) freshIssue
  have tracks := inv.tracks.simulate_issue (by simp [isWeave, notHalted])
    mem isIssue fresh respects
  have late := inv.tracks.gapCycles_le mem isIssue freshIssue respects
  rw [simulate_of_issue isIssue] at tracks ⊢
  exact { inv with
    tracks
    halted := fun isHalted => absurd isHalted notHalted
    live := by
      rintro (isRunning | ⟨-, isBound⟩)
      · -- the last issue event is past the end of the phase
        obtain ⟨last, isLast⟩ := Option.ne_none_iff_exists'.mp (inv.live (.inl isRunning))
        have isEnd := (inv.tracks.last last isLast).1
        have tapered := inv.tapered isRunning last isEnd
        rw [horizon_weave isWeave] at tapered
        have ne : last.id ≠ issue.id := by
          intro same
          have isLastToo := inv.tracks.ok.eq_of_id inv.tracks.graph mem (mem_of_getLast? isEnd)
            (same.trans (Event.id_of_issue isIssue).symm)
          obtain rfl := Option.some.inj (isLastToo.symm.trans isIssue)
          omega
        simp [reportIssueEventSimulated, isLast, ne]
      · simp [isWeave] at isBound
    simulated := before.le.trans_eq (horizon_weave isWeave).symm }

theorem Inv.simulate_other (mem : ev ∈ sys.cRec.events)
    (noIssue : ev.issue? = none) (fresh : sys.cRec.starts ev.id = none)
    (respects : ev.Respects sys.cRec.starts startCycle) :
    Inv phaseLength { sys with
      cRec := sys.cRec.simulate ev startCycle } := by
  have tracks := inv.tracks.simulate_other mem noIssue fresh respects
  rw [simulate_of_none noIssue] at tracks ⊢
  exact { inv with tracks }

theorem simulate_spec (isWeave : sys.phase = .weave) {place : Nat}
    (fresh : sys.cRec.starts place = none) (isEv : sys.cRec.events[place]? = some ev)
    (ready : ev.Ready sys.cRec.starts) (imposed : ev.imposed sys.cRec.starts ≤ startCycle)
    (before : ev.kind.ofCore = true → startCycle < sys.globPhaseCycles + phaseLength.toNat) :
    Gives (sys.step phaseLength (.simulate place startCycle))
      (Kept phaseLength sys (startCycle = ev.imposed sys.cRec.starts)) := by
  have respects := Event.respects_of_imposed ready imposed
  have mem := mem_of_getElem? isEv
  rw [← inv.tracks.graph.ids place ev isEv] at fresh
  rw [step, isEv]
  apply Gives.ok
  refine ⟨?_, fun exact undelayed =>
    exact.simulate mem fresh ready undelayed⟩
  cases isIssue : ev.issue? with
  | none => exact inv.simulate_other mem isIssue fresh respects
  | some issue =>
    refine inv.simulate_issue isWeave mem isIssue fresh respects (before ?_)
    rw [(Event.of_issue isIssue).1]
    rfl

/-! ## The end of the weave phase -/

theorem Inv.leaveWeave_halted (isWeave : sys.phase = .weave)
    (isHalted : sys.cRec.state = .HALTED) (curCycle : Nat) :
    Inv phaseLength { sys with
      curCycle
      phase := .bound
      globPhaseCycles := sys.globPhaseCycles + phaseLength.toNat } := by
  have simulated := inv.simulated
  have unhalted := inv.unhalted
  rw [horizon_weave isWeave] at simulated unhalted
  exact {
    tracks := { inv.tracks with
      even := fun _ => inv.tracks.even (.inr isHalted) }
    halted := inv.halted
    live := by simp [isHalted]
    joined := fun notHalted => absurd isHalted notHalted
    drained := by simp
    simulated
    unhalted
    reached := fun notHalted => absurd isHalted notHalted
    behind := fun notHalted => absurd isHalted notHalted
    tapered := by simp [isHalted] }

/-- The root of the chain was queued, so that it has started. -/
theorem Inv.exists_latest (notHalted : sys.cRec.state ≠ .HALTED)
    (queued : ∀ event ∈ sys.cRec.events, event.queued ≠ none → sys.cRec.starts event.id ≠ none) :
    ∃ issue, Latest sys.cRec.starts sys.chain issue := by
  obtain ⟨root, rest, isChain⟩ := exists_cons_of_ne_nil (inv.joined notHalted)
  rcases inv.tracks.ok.rooted root (by simp [isChain]) with
    ⟨ev, mem, isRoot, isQueued⟩
  have started := queued ev mem (by simp [Option.mem_def.mp isQueued])
  rw [Event.id_of_issue isRoot] at started
  exact OOOCoreRecorder.exists_latest (by simp [isChain]) started

end

variable (cRec : OOOCoreRecorder)

/-- The recorder after the skew has been added. -/
def absorbed : OOOCoreRecorder :=
  { cRec with
    gapCycles := cRec.gapCycles + (cRec.lastEvSimulatedStartCycle -
        (cRec.lastEvSimulatedZllStartCycle + cRec.gapCycles))
    futureResponses := cRec.forgetSimulated }

section

variable (inv : Inv phaseLength sys)
include inv

theorem Inv.absorb (isLatest : Latest sys.cRec.starts sys.chain issue) :
    Tracks True (absorbed sys.cRec) sys.chain := by
  have isZll := (inv.tracks.latest issue isLatest).2
  have skewed := inv.tracks.skewed issue isLatest
  refine inv.tracks.absorb isLatest (by omega) ?_ ?_
  · rw [Sorted, forgetSimulated, pairwise_map]
    exact inv.tracks.sorted
  · intro resp mem
    obtain ⟨original, insideOriginal, rfl⟩ := mem_map.mp mem
    exact inv.tracks.above original insideOriginal

theorem absorbed_exact (isLatest : Latest sys.cRec.starts sys.chain issue)
    (exact : Exact sys.cRec) : Exact (absorbed sys.cRec) := by
  obtain ⟨started, isZll⟩ := inv.tracks.latest issue isLatest
  rcases inv.tracks.ok.produced issue isLatest.1 with ⟨ev, mem, isIssue⟩
  have fields := Event.of_issue isIssue
  have onTime := exact.onTime ev mem (by simp [fields.1]) _ (Event.id_of_issue isIssue ▸ started)
  have unskewed := exact.issues ev mem issue isIssue
  refine exact.forget _ ?_
  have gap := exact.gap
  omega

theorem Inv.leaveWeave (isWeave : sys.phase = .weave) (notHalted : sys.cRec.state ≠ .HALTED)
    (isLatest : Latest sys.cRec.starts sys.chain issue) (after : sys.curCycle ≤ curCycle)
    (live : sys.cRec.lastEvProduced ≠ none) :
    Inv phaseLength { sys with
      cRec := absorbed sys.cRec
      curCycle := curCycle + (sys.cRec.lastEvSimulatedStartCycle -
          (sys.cRec.lastEvSimulatedZllStartCycle + sys.cRec.gapCycles))
      phase := .bound
      globPhaseCycles := sys.globPhaseCycles + phaseLength.toNat } := by
  have simulated := inv.simulated
  have unhalted := inv.unhalted
  have reached := inv.reached notHalted
  rw [horizon_weave isWeave] at simulated unhalted reached
  exact {
    tracks := (inv.absorb isLatest).relax
    halted := fun isHalted => absurd isHalted notHalted
    live := fun _ => live
    joined := fun _ => inv.joined notHalted
    drained := by simp
    simulated
    unhalted
    reached := fun _ => by
      rw [horizon]
      dsimp only
      omega
    behind := by
      intro _ last isLast
      have behind := inv.behind notHalted last isLast
      dsimp only [absorbed]
      omega
    tapered := by
      intro isRunning last isLast
      have tapered := inv.tapered isRunning last isLast
      rw [horizon_weave isWeave] at tapered
      dsimp only [horizon, absorbed]
      omega }

theorem Inv.halt (isWeave : sys.phase = .weave) (isDraining : sys.cRec.state = .DRAINING)
    (isLatest : Latest sys.cRec.starts sys.chain issue)
    (drained : sys.cRec.lastEvProduced = none) (curCycle : Nat) :
    Inv phaseLength { sys with
      cRec := { absorbed sys.cRec with
        lastUnhaltedCycle := sys.cRec.lastEvSimulatedStartCycle
        state := .HALTED }
      curCycle
      phase := .bound
      globPhaseCycles := sys.globPhaseCycles + phaseLength.toNat } := by
  have simulated := inv.simulated
  rw [horizon_weave isWeave] at simulated
  have tracks := inv.absorb isLatest
  exact {
    tracks := { tracks.relax with }
    halted := by
      intro _
      refine ⟨drained, ?_⟩
      dsimp only [absorbed]
      rw [forgetSimulated, inv.drained isDraining isWeave, map_nil]
    live := by simp
    joined := fun notHalted => absurd rfl notHalted
    drained := by simp
    simulated
    unhalted := simulated
    reached := fun notHalted => absurd rfl notHalted
    behind := fun notHalted => absurd rfl notHalted
    tapered := by simp }

omit inv in
/-- `cSimEnd` when no check fails. -/
theorem cSimEnd_eq (notHalted : rec.state ≠ .HALTED)
    (first : rec.lastEvSimulatedZllStartCycle + rec.gapCycles ≤
      curCycle) (second : rec.lastEvSimulatedStartCycle ≤ curCycle)
    (nonnegative : rec.lastEvSimulatedZllStartCycle +
      rec.gapCycles ≤ rec.lastEvSimulatedStartCycle) :
    rec.cSimEnd curCycle = (absorbed rec).haltDrained >>= fun ended =>
        pure (curCycle + (rec.lastEvSimulatedStartCycle -
            (rec.lastEvSimulatedZllStartCycle + rec.gapCycles)),
          ended) := by
  simp only [cSimEnd, if_neg notHalted, check_true _ first,
    check_true _ second, check_true _ nonnegative, ok_bind]
  rfl

omit inv in
theorem haltDrained_of_live (live : cRec.lastEvProduced ≠ none) : cRec.haltDrained = .ok cRec := by
  obtain ⟨last, isLast⟩ := Option.ne_none_iff_exists'.mp live
  rw [haltDrained, isLast]

omit inv in
theorem haltDrained_of_drained (rec : OOOCoreRecorder) (drained : rec.lastEvProduced = none)
    (isDraining : rec.state = .DRAINING) (empty : rec.futureResponses = []) :
    rec.haltDrained = .ok { rec with
      lastUnhaltedCycle := rec.lastEvSimulatedStartCycle
      state := .HALTED } := by
  rw [haltDrained]
  simp only [drained, check_true _ isDraining, check_true _ empty]
  rfl

theorem cSimEnd_spec (isWeave : sys.phase = .weave) (after : sys.curCycle ≤ curCycle)
    (queued : ∀ event ∈ sys.cRec.events, event.queued ≠ none → sys.cRec.starts event.id ≠ none) :
    Gives (sys.step phaseLength (.cSimEnd curCycle)) (Kept phaseLength sys True) := by
  by_cases isHalted : sys.cRec.state = .HALTED
  · rw [step, cSimEnd, if_pos isHalted]
    exact .pure ⟨inv.leaveWeave_halted isWeave isHalted curCycle, fun exact _ => exact⟩
  obtain ⟨issue, isLatest⟩ := inv.exists_latest isHalted queued
  have isZll := (inv.tracks.latest issue isLatest).2
  have skewed := inv.tracks.skewed issue isLatest
  have reached := inv.simulated.trans (inv.reached isHalted)
  rw [step, cSimEnd_eq isHalted (by omega) (by omega) (by omega)]
  by_cases drained : sys.cRec.lastEvProduced = none
  · have isDraining : sys.cRec.state = .DRAINING := by
      cases isState : sys.cRec.state with
      | HALTED => exact absurd isState isHalted
      | RUNNING => exact absurd drained (inv.live (.inl isState))
      | DRAINING => rfl
    have empty : sys.cRec.forgetSimulated = [] := by
      rw [forgetSimulated, inv.drained isDraining isWeave, map_nil]
    rw [haltDrained_of_drained (absorbed sys.cRec) drained isDraining empty]
    exact .pure ⟨inv.halt isWeave isDraining isLatest drained _,
      fun exact _ => { absorbed_exact inv isLatest exact with }⟩
  · rw [haltDrained_of_live (absorbed sys.cRec) drained]
    exact .pure ⟨inv.leaveWeave isWeave isHalted isLatest after drained,
      fun exact _ => absorbed_exact inv isLatest exact⟩

/-! ## Runs -/

theorem step_spec {op : Op} (allowed : sys.Allowed phaseLength op) (fits : sys.Fits op) :
    Gives (sys.step phaseLength op) (Kept phaseLength sys (sys.Undelayed op)) := by
  have always : ∀ {comp : Except RecorderFailure System}, Gives comp (Kept phaseLength sys True) →
        Gives comp (Kept phaseLength sys (sys.Undelayed op)) :=
    fun gives => gives.mono fun _ kept =>
      ⟨kept.1, fun exact _ => kept.2 exact trivial⟩
  cases op with
  | notifyJoin curCycle =>
    obtain ⟨isBound, notRunning, after⟩ := allowed
    apply always
    cases isState : sys.cRec.state with
    | RUNNING => exact absurd isState notRunning
    | HALTED => exact notifyJoin_halted inv isBound isState curCycle
    | DRAINING =>
      exact notifyJoin_draining inv isBound (after isState) isState (fits isState)
  | recordAccess curCycle dispatchCycle respCycle tr =>
    obtain ⟨isBound, isRunning, after, ordered⟩ := allowed
    apply always
    cases get : isGet tr.type with
    | true =>
      obtain ⟨dispatched, requested, answered, responded⟩ := ordered get
      rcases fits get with ⟨fitsIssue, fitsDispatch, fitsRequest, fitsResp⟩
      exact recordAccess_get inv isBound isRunning after get dispatched
        requested answered responded fitsIssue fitsDispatch fitsRequest
        fitsResp
    | false => exact recordAccess_put inv isBound isRunning after get
  | notifyLeave curCycle =>
    obtain ⟨isBound, isRunning, after⟩ := allowed
    exact always (notifyLeave_spec inv isBound after isRunning fits)
  | cSimStart curCycle =>
    obtain ⟨isBound, after, past⟩ := allowed
    exact always (cSimStart_spec inv isBound after past)
  | simulate place startCycle =>
    obtain ⟨isWeave, fresh, ev, isEv, ready, imposed, before⟩ := allowed
    apply (simulate_spec inv isWeave fresh isEv ready imposed before).mono
    exact fun _ kept =>
      ⟨kept.1, fun exact undelayed => kept.2 exact (undelayed ev isEv)⟩
  | cSimEnd curCycle =>
    obtain ⟨isWeave, after, queued⟩ := allowed
    exact always (cSimEnd_spec inv isWeave after queued)

end

/-- The skews along the chain, and `gapCycles` after the weave phase. -/
structure Correct (sys : System) : Prop where
  skew : sys.chain.Pairwise fun first second =>
    ∀ firstStart ∈ sys.cRec.starts first.id, ∀ secondStart ∈ sys.cRec.starts second.id,
        (firstStart : Int) - first.zllStartCycle ≤ secondStart - second.zllStartCycle
  onTime : ∀ issue ∈ sys.chain,
    ∀ startCycle ∈ sys.cRec.starts issue.id, issue.minStartCycle ≤ startCycle
  gap : sys.phase = .bound → ∀ issue,
    Latest sys.cRec.starts sys.chain issue → ∀ startCycle ∈ sys.cRec.starts issue.id,
        (sys.cRec.gapCycles : Int) = startCycle - issue.zllStartCycle

/-- No event of the core has been delayed, and no skew has been added. -/
def Unskewed : Prop := cRec.gapCycles = 0 ∧ cRec.totalGapCycles = 0 ∧
    ∀ ev ∈ cRec.events, ev.kind.ofCore = true →
      ∀ startCycle ∈ cRec.starts ev.id, startCycle = ev.minStartCycle

theorem Inv.correct (inv : Inv phaseLength sys) : Correct sys where
  skew := by
    refine (inv.tracks.ok.skewLe inv.tracks.graph).imp ?_
    intro first second skewLe firstStart startedFirst secondStart startedSecond
    obtain ⟨other, startedOther, le⟩ := skewLe secondStart startedSecond
    obtain rfl := Option.mem_unique startedOther startedFirst
    omega
  onTime := inv.tracks.onTime
  gap := by
    intro isBound issue isLatest startCycle started
    have even := (inv.bound isBound).even trivial issue isLatest
    have isStart := (inv.tracks.latest issue isLatest).1
    obtain rfl := Option.mem_unique started isStart
    omega

theorem Exact.unskewed {cRec : OOOCoreRecorder} (exact : Exact cRec) :
    Unskewed cRec := by
  refine ⟨exact.gap, exact.total, fun ev mem ofCore => ?_⟩
  refine exact.onTime ev mem ?_
  intro isWriteback
  simp [isWriteback, EventKind.ofCore] at ofCore

/-- Every run of a core in which the delays fit into 32 bits meets all the
assertions of its recorder and never has a negative skew; if nothing is delayed
then there is no skew. -/
theorem skew_never_negative (phaseLength : BitVec 32) (ops : List Op)
    (fits : RunMeets (step phaseLength)
      (fun sys op => sys.Allowed phaseLength op ∧ sys.Fits op) ops initial) :
    ∃ sys, runOps phaseLength ops initial = .ok sys ∧ Correct sys ∧
      (RunMeets (step phaseLength) Undelayed ops initial → Unskewed sys.cRec) := by
  have preserved : ∀ sys op, Inv phaseLength sys → sys.Allowed phaseLength op ∧ sys.Fits op →
        Gives (sys.step phaseLength op) (Inv phaseLength) :=
    fun sys op inv meets =>
      (step_spec inv meets.1 meets.2).mono fun _ kept => kept.1
  obtain ⟨sys, returns, inv⟩ := fits.gives preserved inv_initial
  refine ⟨sys, returns, inv.correct, fun undelayed => ?_⟩
  have preservedExact : ∀ sys op, Inv phaseLength sys ∧ Exact sys.cRec →
      (sys.Allowed phaseLength op ∧ sys.Fits op) ∧ sys.Undelayed op →
        Gives (sys.step phaseLength op) (fun next => Inv phaseLength next ∧ Exact next.cRec) :=
    fun sys op ⟨inv, exact⟩ ⟨meets, undelayed⟩ =>
      (step_spec inv meets.1 meets.2).mono fun _ kept =>
        ⟨kept.1, kept.2 exact undelayed⟩
  rcases (fits.and undelayed).gives preservedExact
    ⟨inv_initial, exact_initial⟩ with ⟨same, returnsSame, -, exact⟩
  obtain rfl : sys = same := Except.ok.inj (returns.symm.trans returnsSame)
  exact Exact.unskewed exact

/-- A core misses twice, the second time after the response to the first one; the
first miss takes three cycles longer than in the bound phase. -/
def contended : List Op := [.notifyJoin 0, .recordAccess 1 2 6 ⟨.GETS, 3, 5⟩,
    .recordAccess 8 8 30 ⟨.GETX, 9, 28⟩, .notifyLeave 9, .cSimStart 9,
    .simulate 0 0, .simulate 1 1, .simulate 2 2, .simulate 3 3, .simulate 4 8,
    .simulate 5 9, .simulate 6 11, .simulate 11 12, .cSimEnd 20]

theorem skew_never_negative_contended :
    ∃ sys, runOps 20 contended initial = .ok sys ∧ Correct sys := by
  have fits : RunMeets (step 20)
      (fun sys op => sys.Allowed 20 op ∧ sys.Fits op) contended initial := by decide +kernel
  obtain ⟨sys, returns, correct, -⟩ := skew_never_negative 20 contended fits
  exact ⟨sys, returns, correct⟩

/-- A core that misses `2 ^ 32` cycles after it joined. -/
def longGap : List Op := [.notifyJoin 0,
    .recordAccess (2 ^ 32) (2 ^ 32) (2 ^ 32 + 4) ⟨.GETS, 2 ^ 32, 2 ^ 32 + 4⟩,
    .cSimStart (2 ^ 32), .simulate 0 0, .simulate 1 0, .cSimEnd (2 ^ 32)]

/-- The delay between the two issue events is cut to `0`, so that the second one
starts at once and the skew is negative. -/
theorem long_gap_fails : RunMeets (step 20) (Allowed 20) longGap initial ∧
      runOps 20 longGap initial = .error .negativeSkew := by
  constructor
  · decide +kernel
  · rfl

end System

end Damov.Weave.OOOCoreRecorder
