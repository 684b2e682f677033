import Damov.Weave.IssueChain
import Mathlib.Data.Finset.Max

/-!
# The skew of a core

In the bound phase a core joins, records accesses and leaves. Then the recorder
tapers the chain of issue events, in the weave phase events start at any cycle
that their parents and delays allow, and after it the recorder adds the skew of
the last issue event to the clock of the core.

The skew of an issue event is the distance from its zero-load cycle to the cycle
at which it starts. It never decreases along a chain, so that `gapCycles` can only
grow. All this needs the delays of the links to fit into 32 bits; a longer one is
cut, and an event can start too early.
-/

namespace Damov.Weave.OOOCoreRecorder

/-! ## The calls of a core -/

inductive Phase where
  | bound
  | weave
  deriving DecidableEq

/-- `curCycle` is the cycle that the core and the recorder last agreed on, and
`chain` has the issue events since the last join of the halted core. -/
structure System where
  cRec : OOOCoreRecorder
  curCycle : Nat
  phase : Phase
  globPhaseCycles : Nat
  chain : List IssueEvent

inductive Op where
  | notifyJoin (curCycle : Nat)
  | recordAccess (curCycle dispatchCycle respCycle : Nat) (tr : TimingRecord)
  | notifyLeave (curCycle : Nat)
  | cSimStart (curCycle : Nat)
  | simulate (ev startCycle : Nat)
  | cSimEnd (curCycle : Nat)

/-- The events that the recorder makes, as opposed to those of the memory. -/
def EventKind.ofCore : EventKind → Bool
  | .issue _ | .dispatch | .resp => true
  | .request | .reply | .writeback => false

namespace System

def initial : System where
  cRec := .initial
  curCycle := 0
  phase := .bound
  globPhaseCycles := 0
  chain := []

/-- The issue events that a call has produced continue the chain. -/
def advance (sys : System) (curCycle : Nat) (cRec : OOOCoreRecorder) : System :=
  { sys with
    cRec
    curCycle
    chain := sys.chain ++ (cRec.events.drop sys.cRec.events.length).filterMap Event.issue? }

variable (phaseLength : BitVec 32) (sys : System)

def step : Op → Except RecorderFailure System
  | .notifyJoin curCycle => do
      let (curCycle, cRec) ← sys.cRec.notifyJoin sys.globPhaseCycles curCycle
      let chain := if sys.cRec.state = .HALTED then [] else sys.chain
      return { sys with chain }.advance curCycle cRec
  | .recordAccess curCycle dispatchCycle respCycle tr => do
      let cRec ← sys.cRec.recordAccess curCycle dispatchCycle respCycle tr
      return sys.advance curCycle cRec
  | .notifyLeave curCycle => do
      let cRec ← sys.cRec.notifyLeave curCycle
      return sys.advance curCycle cRec
  | .cSimStart curCycle => do
      let (curCycle, cRec) ← sys.cRec.cSimStart sys.globPhaseCycles phaseLength.toNat curCycle
      return { sys.advance curCycle cRec with phase := .weave }
  | .simulate ev startCycle =>
    match sys.cRec.events[ev]? with
    | some ev =>
      .ok { sys with cRec := sys.cRec.simulate ev startCycle }
    | none => .ok sys
  | .cSimEnd curCycle => do
      let (curCycle, cRec) ← sys.cRec.cSimEnd curCycle
      return { sys with
        cRec
        curCycle
        phase := .bound
        globPhaseCycles := sys.globPhaseCycles + phaseLength.toNat }

def runOps (ops : List Op) (sys : System) : Except RecorderFailure System :=
  ops.foldlM (step phaseLength) sys

/-! ## Runs -/

/-- The calls of a core and the events of the weave phase. A core that runs
reaches the end of the phase, the weave phase starts only events below its limit,
and it starts all the events that were queued. -/
def Allowed : Op → Prop
  | .notifyJoin curCycle =>
    sys.phase = .bound ∧ sys.cRec.state ≠ .RUNNING ∧
      (sys.cRec.state = .DRAINING → sys.curCycle ≤ curCycle)
  | .recordAccess curCycle dispatchCycle respCycle tr =>
    sys.phase = .bound ∧ sys.cRec.state = .RUNNING ∧ sys.curCycle ≤ curCycle ∧
      (isGet tr.type = true → curCycle ≤ dispatchCycle ∧ dispatchCycle ≤ tr.reqCycle ∧
          tr.reqCycle ≤ tr.respCycle ∧ tr.respCycle ≤ respCycle)
  | .notifyLeave curCycle =>
    sys.phase = .bound ∧ sys.cRec.state = .RUNNING ∧ sys.curCycle ≤ curCycle
  | .cSimStart curCycle =>
    sys.phase = .bound ∧ sys.curCycle ≤ curCycle ∧ (sys.cRec.state = .RUNNING →
        sys.globPhaseCycles + phaseLength.toNat < curCycle)
  | .simulate ev startCycle =>
    sys.phase = .weave ∧ sys.cRec.starts ev = none ∧
      ∃ event ∈ sys.cRec.events[ev]?, event.Ready sys.cRec.starts ∧
          event.imposed sys.cRec.starts ≤ startCycle ∧
          (event.kind.ofCore = true → startCycle < sys.globPhaseCycles + phaseLength.toNat)
  | .cSimEnd curCycle =>
    sys.phase = .weave ∧ sys.curCycle ≤ curCycle ∧
      ∀ event ∈ sys.cRec.events, event.queued ≠ none → sys.cRec.starts event.id ≠ none

instance (sys : System) : DecidablePred (sys.Allowed phaseLength)
  | .notifyJoin _ => by dsimp only [Allowed]; infer_instance
  | .recordAccess .. => by dsimp only [Allowed]; infer_instance
  | .notifyLeave _ => by dsimp only [Allowed]; infer_instance
  | .cSimStart _ => by dsimp only [Allowed]; infer_instance
  | .simulate .. => by dsimp only [Allowed]; infer_instance
  | .cSimEnd _ => by dsimp only [Allowed]; infer_instance

/-- The delays of the links that a call makes fit into 32 bits. -/
def Fits : Op → Prop
  | .notifyJoin curCycle =>
    sys.cRec.state = .DRAINING → sys.cRec.IssueFits curCycle
  | .recordAccess curCycle dispatchCycle respCycle tr =>
    isGet tr.type = true → sys.cRec.IssueFits curCycle ∧ dispatchCycle - curCycle < 2 ^ 32 ∧
        tr.reqCycle - dispatchCycle < 2 ^ 32 ∧
        respCycle - tr.respCycle < 2 ^ 32
  | .notifyLeave curCycle => sys.cRec.IssueFits curCycle
  | .cSimStart _ | .simulate .. | .cSimEnd _ => True

instance (sys : System) : DecidablePred sys.Fits
  | .notifyJoin _ => by dsimp only [Fits]; infer_instance
  | .recordAccess .. => by dsimp only [Fits]; infer_instance
  | .notifyLeave _ => by dsimp only [Fits]; infer_instance
  | .cSimStart _ => by dsimp only [Fits]; infer_instance
  | .simulate .. => by dsimp only [Fits]; infer_instance
  | .cSimEnd _ => by dsimp only [Fits]; infer_instance

/-- No event is delayed beyond what its parents and delays impose. -/
def Undelayed : Op → Prop
  | .simulate ev startCycle =>
    ∀ event ∈ sys.cRec.events[ev]?, startCycle = event.imposed sys.cRec.starts
  | _ => True

end System

open Function List Option

attribute [local simp] Latest produceIssue

/-! ## The invariant of the chain -/

/-- What the recorder knows about the chain. Unless events are being simulated,
the skew of the latest issue event is settled. -/
structure Tracks (settled : Prop) (cRec : OOOCoreRecorder) (chain : List IssueEvent) : Prop where
  graph : Graph cRec.events cRec.starts
  ok : ChainOk cRec.events cRec.starts chain
  last : ∀ last ∈ cRec.lastEvProduced, chain.getLast? = some last ∧ cRec.starts last.id = none
  finished : cRec.lastEvProduced = none → ∀ issue ∈ chain, cRec.starts issue.id ≠ none
  fresh : (∀ issue ∈ chain, cRec.starts issue.id = none) → cRec.gapCycles = 0
  latest : ∀ issue, Latest cRec.starts chain issue →
    cRec.starts issue.id = some cRec.lastEvSimulatedStartCycle ∧
      cRec.lastEvSimulatedZllStartCycle = issue.zllStartCycle
  skewed : ∀ issue, Latest cRec.starts chain issue → cRec.gapCycles + issue.zllStartCycle ≤
      cRec.lastEvSimulatedStartCycle
  even : settled → ∀ issue, Latest cRec.starts chain issue →
    cRec.lastEvSimulatedStartCycle = cRec.gapCycles + issue.zllStartCycle
  minStart : ∀ issue ∈ chain, issue.minStartCycle ≤ issue.zllStartCycle + cRec.gapCycles
  onTime : ∀ issue ∈ chain, ∀ startCycle ∈ cRec.starts issue.id, issue.minStartCycle ≤ startCycle
  sorted : Sorted cRec.futureResponses
  above : ∀ response ∈ cRec.futureResponses, ∀ last ∈ chain.getLast?,
    last.zllStartCycle ≤ response.zllStartCycle

section Tracks

variable {settled : Prop} {cRec next : OOOCoreRecorder}
variable {chain : List IssueEvent} {last : IssueEvent} {evCycle : Nat}

theorem tracks_initial : Tracks True .initial [] where
  graph := graph_initial
  ok := by constructor <;> simp [initial]
  last := by simp [initial]
  finished := by simp
  fresh := fun _ => rfl
  latest := by simp
  skewed := by simp
  even := by simp
  minStart := by simp
  onTime := by simp
  sorted := List.Pairwise.nil
  above := by simp

variable {starts : Nat → Option Nat} {events : List Event}

theorem Latest.of_append {issue new : IssueEvent} (latest : Latest starts (chain ++ [new]) issue)
    (unstarted : starts new.id = none) : Latest starts chain issue := by
  obtain ⟨mem, started, greatest⟩ := latest
  refine ⟨?_, started, fun other mem' =>
    greatest other (mem_append_left _ mem')⟩
  rcases mem_append.mp mem with old | isNew
  · exact old
  · rw [mem_singleton.mp isNew] at started
    exact absurd unstarted started

section

variable (tracks : Tracks settled cRec chain)
include tracks

/-- An event that is no issue event. -/
theorem Tracks.nonIssue {kind : EventKind} (noIssue : ∀ zllCycle, kind ≠ .issue zllCycle)
    (preDelay minStartCycle : Nat) (queued : Option Nat) (parents : List (Nat × Nat)) :
    Tracks settled (cRec.produce kind preDelay minStartCycle queued parents) chain :=
  { tracks with
    graph := tracks.graph.push rfl
    ok := by
      refine tracks.ok.more fun ev mem => ?_
      rw [mem_singleton.mp mem, Event.issue?]
      split
      · next isIssue => exact absurd isIssue (noIssue _)
      · rfl }

/-- Other responses. -/
theorem Tracks.setResponses {resps : List FutureResponse}
    (sorted : Sorted resps) (above : ∀ resp ∈ resps, ∀ last ∈ chain.getLast?,
      last.zllStartCycle ≤ resp.zllStartCycle) :
    Tracks settled { cRec with futureResponses := resps } chain :=
  { tracks with sorted, above }

theorem Tracks.setState (state : State) : Tracks settled { cRec with state } chain :=
  { tracks with }

end

section

variable (tracks : Tracks True cRec chain)
include tracks

theorem Tracks.relax : Tracks settled cRec chain :=
  { tracks with even := fun _ => tracks.even trivial }

/-- One more issue event. -/
theorem Tracks.add (isLast : cRec.lastEvProduced = some last)
    (added : Added cRec last evCycle next) :
    Tracks True next (chain ++ [⟨cRec.events.length, evCycle - cRec.gapCycles, evCycle⟩]) := by
  obtain ⟨preDelay, issueDelay, linked, rest, rfl, covers, sub, later, -⟩ := added
  have unstarted := tracks.graph.starts_length
  exact {
    graph := tracks.graph.push rfl
    ok := tracks.ok.push tracks.graph (tracks.last last isLast).1 rfl rfl (by dsimp only; omega)
      (mem_append_right _ (mem_singleton.mpr rfl))
      (by dsimp only; omega)
    last := by
      intro other isOther
      rw [← mem_some_iff.mp isOther]
      exact ⟨by simp, unstarted⟩
    finished := by simp
    fresh := fun none => tracks.fresh fun issue mem =>
      none issue (mem_append_left _ mem)
    latest := fun issue isLatest =>
      tracks.latest issue (isLatest.of_append unstarted)
    skewed := fun issue isLatest =>
      tracks.skewed issue (isLatest.of_append unstarted)
    even := fun _ issue isLatest =>
      tracks.even trivial issue (isLatest.of_append unstarted)
    minStart := by
      refine forall_mem_append.mpr ⟨tracks.minStart, forall_mem_singleton.mpr ?_⟩
      dsimp only [produceIssue, produce]
      omega
    onTime := by
      refine forall_mem_append.mpr ⟨tracks.onTime, forall_mem_singleton.mpr ?_⟩
      intro startCycle started
      exact absurd (unstarted.symm.trans started) (by simp)
    sorted := tracks.sorted.sublist sub
    above := by
      intro resp mem other isOther
      rw [getLast?_concat, mem_some_iff] at isOther
      rw [← isOther]
      exact later resp mem }

/-- A halted core starts a new chain. -/
theorem Tracks.restart (drained : cRec.lastEvProduced = none)
    (empty : cRec.futureResponses = []) (curCycle : Nat) :
    Tracks True (cRec.restart curCycle) [⟨cRec.events.length, curCycle, curCycle⟩] := by
  have unstarted := tracks.graph.starts_length
  have notLatest : ∀ issue, ¬ Latest cRec.starts
      [⟨cRec.events.length, curCycle, curCycle⟩] issue := by
    rintro issue ⟨mem, started, -⟩
    rw [mem_singleton.mp mem] at started
    exact started unstarted
  exact {
    graph := tracks.graph.push rfl
    ok := by
      refine chainOk_root (mem_append_right _ (mem_singleton.mpr rfl)) rfl (mem_some_self _) ?_
      refine forall_mem_append.mpr ⟨fun ev old issue isIssue fresh => ?_, forall_mem_singleton.mpr ?_⟩
      · exact absurd fresh (tracks.finished drained issue
          (tracks.ok.pending ev old issue isIssue fresh))
      · exact fun issue isIssue _ => (mem_some_iff.mp isIssue).symm
    last := by
      intro other isOther
      rw [← mem_some_iff.mp isOther]
      exact ⟨rfl, unstarted⟩
    finished := by simp [OOOCoreRecorder.restart]
    fresh := fun _ => rfl
    latest := fun issue isLatest => absurd isLatest (notLatest issue)
    skewed := fun issue isLatest => absurd isLatest (notLatest issue)
    even := fun _ issue isLatest => absurd isLatest (notLatest issue)
    minStart := by simp
    onTime := by
      intro issue mem startCycle started
      rw [mem_singleton.mp mem] at started
      exact absurd (unstarted.symm.trans started) (by simp)
    sorted := by
      dsimp only [OOOCoreRecorder.restart]
      rw [empty]
      exact List.Pairwise.nil
    above := by
      simp [OOOCoreRecorder.restart, produce, empty] }

end

/-! ## Starting an event -/

variable {ev : Event} {issue : IssueEvent} {startCycle : Nat}

variable (tracks : Tracks settled cRec chain)
include tracks

/-- An issue event starts with a skew of at least `gapCycles`. -/
theorem Tracks.gapCycles_le (mem : ev ∈ cRec.events) (isIssue : ev.issue? = some issue)
    (fresh : cRec.starts issue.id = none) (respects : ev.Respects cRec.starts startCycle) :
    cRec.gapCycles + issue.zllStartCycle ≤ startCycle := by
  rcases tracks.ok.starts_after tracks.graph mem isIssue fresh respects with
    ⟨none, le⟩ | ⟨before, isLatest, -, beforeStart, started, le⟩
  · rwa [tracks.fresh none, zero_add]
  · have isStart := (tracks.latest before isLatest).1
    rw [mem_def.mp started, some.injEq] at isStart
    have skewed := tracks.skewed before isLatest
    omega

omit tracks in
theorem ChainOk.eq_of_id (ok : ChainOk events starts chain)
    (graph : Graph events starts) (mem : ev ∈ events) {other : IssueEvent}
    (mem' : other ∈ chain) (same : other.id = ev.id) :
    ev.issue? = some other := by
  obtain ⟨source, insideSource, isOther⟩ := ok.produced other mem'
  obtain rfl := graph.eq_of_id insideSource mem ((Event.id_of_issue isOther).trans same)
  exact isOther

/-- The issue event that starts is the latest one. -/
theorem Tracks.latest_start (mem : ev ∈ cRec.events) (isIssue : ev.issue? = some issue)
    (fresh : cRec.starts issue.id = none)
    (respects : ev.Respects cRec.starts startCycle) {other : IssueEvent}
    (isLatest : Latest (update cRec.starts ev.id (some startCycle)) chain
      other) : other = issue := by
  have sameId := Event.id_of_issue isIssue
  have member := tracks.ok.pending ev mem issue isIssue fresh
  obtain ⟨mem', started, greatest⟩ := isLatest
  have after : issue.id ≤ other.id := greatest issue member (by rw [← sameId, update_self]; simp)
  by_cases same : other.id = issue.id
  · have isOther := tracks.ok.eq_of_id tracks.graph mem mem' (same.trans sameId.symm)
    exact some.inj (isOther.symm.trans isIssue)
  rw [update_of_ne (by rwa [sameId])] at started
  rcases tracks.ok.starts_after tracks.graph mem isIssue fresh respects
    with ⟨none, -⟩ | ⟨before, isLatest, lt, -⟩
  · exact absurd (none other mem') started
  · have le := isLatest.2.2 other mem' started
    omega

omit tracks in
/-- When the last issue event has started, so have all the others. -/
theorem ChainOk.all_started (ok : ChainOk events starts chain)
    (graph : Graph events starts) (isLast : chain.getLast? = some last)
    (started : starts last.id ≠ none) :
    ∀ other ∈ chain, starts other.id ≠ none := by
  intro other mem
  obtain ⟨front, rfl⟩ := getLast?_eq_some_iff.mp isLast
  rcases mem_append.mp mem with early | isOther
  · obtain ⟨cycle, isCycle⟩ := ne_none_iff_exists'.mp started
    rcases (pairwise_append.mp (ok.skewLe graph)).2.2 other early last
      (by simp) cycle isCycle with ⟨otherStart, startedOther, -⟩
    simp [mem_def.mp startedOther]
  · rwa [mem_singleton.mp isOther]

theorem Tracks.simulate_issue (unsettled : ¬ settled)
    (mem : ev ∈ cRec.events) (isIssue : ev.issue? = some issue)
    (fresh : cRec.starts ev.id = none) (respects : ev.Respects cRec.starts startCycle) :
    Tracks settled (cRec.simulate ev startCycle) chain := by
  have sameId := Event.id_of_issue isIssue
  have freshIssue : cRec.starts issue.id = none := sameId ▸ fresh
  have member := tracks.ok.pending ev mem issue isIssue freshIssue
  have graph := tracks.graph.start mem fresh respects
  have ok : ChainOk cRec.events
    (update cRec.starts ev.id (some startCycle)) chain := tracks.ok.start
  have le := tracks.gapCycles_le mem isIssue freshIssue respects
  have latestIs (other : IssueEvent)
      (isLatest : Latest (update cRec.starts ev.id (some startCycle)) chain
        other) : other = issue :=
    tracks.latest_start mem isIssue freshIssue respects isLatest
  have startedIssue : update cRec.starts ev.id (some startCycle) issue.id = some startCycle := by
    rw [← sameId, update_self]
  rw [simulate_of_issue isIssue]
  exact {
    graph
    ok
    last := by
      intro last isLast
      dsimp only [reportIssueEventSimulated] at isLast ⊢
      split at isLast
      · simp at isLast
      · next ne =>
        rw [mem_def.mp isLast] at ne
        have other : last.id ≠ ev.id := by
          rw [sameId]
          simpa using ne
        rw [update_of_ne other]
        exact tracks.last last isLast
    finished := by
      intro none
      dsimp only [reportIssueEventSimulated] at none ⊢
      split at none
      · next same =>
        obtain ⟨last, isLast, idLast⟩ := map_eq_some_iff.mp same
        apply ok.all_started graph (tracks.last last isLast).1
        rw [idLast, startedIssue]
        simp
      · exact absurd freshIssue (tracks.finished none issue member)
    fresh := by
      intro none
      have unstarted := none issue member
      dsimp only [reportIssueEventSimulated] at unstarted
      rw [startedIssue] at unstarted
      simp at unstarted
    latest := by
      intro other isLatest
      rw [latestIs other isLatest]
      exact ⟨startedIssue, rfl⟩
    skewed := by
      intro other isLatest
      rwa [latestIs other isLatest]
    even := fun isSettled => absurd isSettled unsettled
    minStart := tracks.minStart
    onTime := by
      intro other mem' cycle started
      dsimp only [reportIssueEventSimulated] at started
      by_cases same : other.id = ev.id
      · rw [same, update_self, mem_some_iff] at started
        have isOther := tracks.ok.eq_of_id tracks.graph mem mem' same
        obtain rfl := some.inj (isOther.symm.trans isIssue)
        have early := tracks.minStart other mem'
        omega
      · rw [update_of_ne same] at started
        exact tracks.onTime other mem' cycle started
    sorted := tracks.sorted
    above := tracks.above }

theorem Tracks.simulate_other (mem : ev ∈ cRec.events)
    (noIssue : ev.issue? = none) (fresh : cRec.starts ev.id = none)
    (respects : ev.Respects cRec.starts startCycle) :
    Tracks settled (cRec.simulate ev startCycle) chain := by
  have same (other) (mem' : other ∈ chain) :
      update cRec.starts ev.id (some startCycle) other.id = cRec.starts other.id := by
    apply update_of_ne
    intro eq
    have isOther := tracks.ok.eq_of_id tracks.graph mem mem' eq
    simp [noIssue] at isOther
  have latestIs : ∀ other, Latest (update cRec.starts ev.id (some startCycle)) chain other →
        Latest cRec.starts chain other := by
    rintro other ⟨mem', started, greatest⟩
    refine ⟨mem', by rwa [same other mem'] at started, ?_⟩
    intro third insideThird startedThird
    exact greatest third insideThird (by rwa [same third insideThird])
  rw [simulate_of_none noIssue]
  exact {
    graph := tracks.graph.start mem fresh respects
    ok := tracks.ok.start
    last := by
      intro last isLast
      have tracked := tracks.last last isLast
      refine ⟨tracked.1, ?_⟩
      dsimp only
      rw [same last (mem_of_getLast? tracked.1)]
      exact tracked.2
    finished := by
      intro none other mem'
      dsimp only
      rw [same other mem']
      exact tracks.finished none other mem'
    fresh := by
      intro none
      apply tracks.fresh
      intro other mem'
      rw [← same other mem']
      exact none other mem'
    latest := by
      intro other isLatest
      dsimp only
      rw [same other isLatest.1]
      exact tracks.latest other (latestIs other isLatest)
    skewed := fun other isLatest =>
      tracks.skewed other (latestIs other isLatest)
    even := fun isSettled other isLatest =>
      tracks.even isSettled other (latestIs other isLatest)
    minStart := tracks.minStart
    onTime := by
      intro other mem' cycle started
      dsimp only at started
      rw [same other mem'] at started
      exact tracks.onTime other mem' cycle started
    sorted := tracks.sorted
    above := tracks.above }

/-! ## The end of the weave phase -/

omit tracks in
theorem exists_latest (mem : issue ∈ chain) (started : starts issue.id ≠ none) :
    ∃ latest, Latest starts chain latest := by
  rcases Finset.exists_max_image
    (chain.toFinset.filter fun issue => starts issue.id ≠ none) IssueEvent.id
    ⟨issue, by simp [mem, started]⟩ with ⟨latest, member, greatest⟩
  simp only [Finset.mem_filter, List.mem_toFinset] at member greatest
  exact ⟨latest, member.1, member.2, fun other mem' started' =>
    greatest other ⟨mem', started'⟩⟩

/-- The skew of the last issue event becomes `gapCycles`. -/
theorem Tracks.absorb (isLatest : Latest cRec.starts chain issue)
    {gapCycles : Nat} {resps : List FutureResponse}
    (gap : gapCycles + issue.zllStartCycle = cRec.lastEvSimulatedStartCycle)
    (sorted : Sorted resps) (above : ∀ resp ∈ resps, ∀ last ∈ chain.getLast?,
      last.zllStartCycle ≤ resp.zllStartCycle) :
    Tracks True { cRec with
      gapCycles
      futureResponses := resps } chain := by
  have more : cRec.gapCycles ≤ gapCycles := by
    have skewed := tracks.skewed issue isLatest
    omega
  have unique (other) (isOther : Latest cRec.starts chain other) :
      other.zllStartCycle = issue.zllStartCycle := by
    rw [← (tracks.latest other isOther).2, ← (tracks.latest issue isLatest).2]
  exact { tracks with
    fresh := fun none => absurd (none issue isLatest.1) isLatest.2.1
    skewed := by
      intro other isOther
      have same := unique other isOther
      dsimp only
      omega
    even := by
      intro _ other isOther
      have same := unique other isOther
      dsimp only
      omega
    minStart := fun other mem =>
      (tracks.minStart other mem).trans (by dsimp only; omega)
    sorted
    above }

end Tracks

end Damov.Weave.OOOCoreRecorder
