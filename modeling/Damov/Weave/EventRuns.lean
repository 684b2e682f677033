import Damov.Library.Counting
import Damov.Weave.EventGraph

/-!
# Runs of the weave phase

A graph of events is built with `addChild`, its roots are queued, and the queued
events run in any order; each reports when it is done. In every such run the
events other than the roots become ready at most once, after all their parents,
and when the roots are done and no event is left over they all have.
-/

namespace Damov.Weave

open Library.Acyclic
open Library.Checked
open Library.Counting
open Function
open Relation (TransGen)
open Finset

variable {n : Nat}

namespace Events

variable {params : Params n} {edge : Fin n → Fin n → Prop} {events : Events n}

/-! ## Building the graph -/

/-- What giving domains to events leaves alone. -/
structure SameGraph (events next : Events n) : Prop where
  state : next.state = events.state
  cycle : next.cycle = events.cycle
  store : next.store = events.store
  numChildren : next.numChildren = events.numChildren
  numParents : next.numParents = events.numParents
  trace : next.trace = events.trace

theorem SameGraph.trans {next last : Events n} (first : SameGraph events next)
    (second : SameGraph next last) : SameGraph events last where
  state := second.state.trans first.state
  cycle := second.cycle.trans first.cycle
  store := second.store.trans first.store
  numChildren := second.numChildren.trans first.numChildren
  numParents := second.numParents.trans first.numParents
  trace := second.trace.trans first.trace

/-- The stores of the events can be visited. -/
def Visitable (events : Events n) : Prop :=
  ∀ ev, ∃ children, (events.store ev).Holds children ∧ events.numChildren ev = children.length

theorem SameGraph.visitable {next : Events n} (same : SameGraph events next)
    (visitable : events.Visitable) : next.Visitable := by
  intro ev
  rw [same.store, same.numChildren]
  exact visitable ev

/-- Fewer and fewer events are without a domain, which bounds the recursion. -/
def GivesDomains (depth dom : Nat) : Prop := ∀ (events : Events n) (ev : Fin n), events.Visitable →
    population events.domain none ≤ depth → events.domain ev = none →
      Gives (propagateDomain depth dom events ev) (fun next => SameGraph events next ∧
          population next.domain none ≤ population events.domain none)

theorem GivesDomains.fold {depth dom : Nat} (gives : GivesDomains (n := n) depth dom)
    (events : Events n) (order : List (Fin n)) (visitable : events.Visitable)
    (enough : population events.domain none ≤ depth) :
    Gives (order.foldlM (fun events child =>
          if events.domain child = none then
            propagateDomain depth dom events child
          else .ok events)
        events)
      (fun next => SameGraph events next ∧
        population next.domain none ≤ population events.domain none) := by
  induction order generalizing events with
  | nil =>
    exact .pure ⟨⟨rfl, rfl, rfl, rfl, rfl, rfl⟩, le_rfl⟩
  | cons child rest ih =>
    have one : Gives (if events.domain child = none then
          propagateDomain depth dom events child
        else .ok events)
        (fun next => SameGraph events next ∧
          population next.domain none ≤ population events.domain none) := by
      split
      case isTrue free => exact gives events child visitable enough free
      case isFalse =>
        exact .ok ⟨⟨rfl, rfl, rfl, rfl, rfl, rfl⟩, le_rfl⟩
    apply one.bind
    rintro next ⟨same, less⟩
    apply (ih next (same.visitable visitable) (less.trans enough)).mono
    rintro last ⟨sameLast, lessLast⟩
    exact ⟨same.trans sameLast, lessLast.trans less⟩

theorem propagateDomain_spec (depth dom : Nat) : GivesDomains (n := n) depth dom := by
  induction depth with
  | zero =>
    intro events ev _ enough free
    exact absurd enough (not_le.mpr (population_pos free))
  | succ depth ih =>
    intro events ev visitable enough free
    obtain ⟨children, holds, numChildren⟩ := visitable ev
    rcases holds.visits with ⟨order, -, visits⟩
    have fewer : population (update events.domain ev (some dom)) none =
        population events.domain none - 1 :=
      population_update_old free (by simp)
    have visited := ih.fold { events with domain := update events.domain ev (some dom) }
      order visitable (by rw [fewer]; omega)
    refine .check free ?_
    rw [numChildren, visits]
    apply visited.mono
    rintro next ⟨same, less⟩
    refine ⟨{ same with }, less.trans ?_⟩
    rw [fewer]
    exact Nat.sub_le _ _

theorem inheritDomain_spec (parent childEv : Fin n) (visitable : events.Visitable) :
    Gives (inheritDomain parent childEv events) (SameGraph events) := by
  rw [inheritDomain]
  split
  case h_1 dom _ free =>
    have bound : population events.domain none ≤ n := (card_le_univ _).trans_eq (Fintype.card_fin n)
    exact (propagateDomain_spec n dom events childEv visitable bound free).mono fun _ res => res.1
  case h_2 => exact .ok ⟨rfl, rfl, rfl, rfl, rfl, rfl⟩

/-- No event has run. -/
def Unstarted (events : Events n) : Prop :=
  ∀ ev, events.state ev = .none ∨ events.state ev = .queued

theorem Unstarted.notDone (unstarted : events.Unstarted) (ev : Fin n) :
    events.state ev ≠ .done := by
  rcases unstarted ev with state | state <;> simp [state]

theorem unfinished_unstarted (unstarted : events.Unstarted) (ev : Fin n) :
    events.unfinished ev = ∑ parent, (added events.trace parent).count ev := by
  simp [unfinished, unstarted.notDone]

section

variable (inv : Inv params edge [] none events)
include inv

variable {ev parent child : Fin n}

theorem Inv.unstarted_child (unstarted : events.Unstarted)
    (nonroot : (parents events.trace ev).Nonempty) :
    events.state ev = .none := by
  apply inv.waiting
  intro last
  obtain ⟨parent, isParent⟩ := nonroot
  exact unstarted.notDone parent (inv.parents_done last (mem_parents.mp isParent))

theorem Inv.unstarted_trace (unstarted : events.Unstarted) (ev : Fin n) (cycle : Nat) :
    params.starts ev cycle ∉ events.trace := by
  intro mem
  cases kind : params.kind ev with
  | timing =>
    have counted : 0 < events.trace.countP (Happening.isReady ev) := by
      rw [List.countP_pos_iff]
      exact ⟨_, mem, by simp [Params.starts, kind, Happening.isReady]⟩
    rw [inv.readyOnce] at counted
    split at counted
    case isTrue ready =>
      exact ready.2.1 (inv.unstarted_child unstarted ready.2.2)
    case isFalse => exact absurd counted (lt_irrefl 0)
  | delay =>
    rw [Params.starts, kind] at mem
    exact unstarted.notDone ev ((inv.done_iff ev).mpr ⟨cycle, mem⟩)

omit inv in
theorem sum_count_added (trace : List (Happening n)) (parent child ev : Fin n) :
    ∑ source, (added (trace ++ [.added parent child]) source).count ev =
      (∑ source, (added trace source).count ev) + if ev = child then 1 else 0 := by
  have updated : (fun source =>
      (added (trace ++ [.added parent child]) source).count ev) =
      update (fun source => (added trace source).count ev) parent
        ((added trace parent ++ [child]).count ev) := by
    funext source
    rw [added_added]
    by_cases same : source = parent
    · simp [same]
    · simp [same]
  rw [updated, sum_update_of_mem (mem_univ parent),
    sum_eq_add_sum_sdiff_singleton_of_mem (mem_univ parent)
      fun source => (added trace source).count ev,
    List.count_append, List.count_singleton]
  have swap : (child == ev) = decide (ev = child) := by simp [beq_eq_decide, eq_comm]
  rw [swap]
  by_cases same : ev = child
  · simp
    omega
  · simp [same]

/-- A child is added to an event of a graph that has not started. -/
theorem Inv.addChild {store : ChildStore (Fin n)}
    (unstarted : events.Unstarted) (idle : events.state child = .none) (related : edge parent child)
    (holds : store.Holds (added events.trace parent ++ [child])) :
    Inv params edge [] none { events with
      store := update events.store parent store
      numChildren := update events.numChildren parent (events.numChildren parent + 1)
      numParents := update events.numParents child (events.numParents child + 1)
      trace := events.trace ++ [.added parent child] } := by
  have family (ev) (differs : ev ≠ child) :
      parents (events.trace ++ [.added parent child]) ev = parents events.trace ev := by
    ext source
    rw [mem_parents, added_added]
    by_cases same : source = parent <;> simp [same, differs]
  have noneDone : ∀ ev cycle, .done ev cycle ∉ events.trace := fun ev cycle mem =>
      unstarted.notDone ev ((inv.done_iff ev).mpr ⟨cycle, mem⟩)
  refine {
    holds := fun ev => ?_
    numChildren := fun ev => ?_
    edges := fun source ev isChild => ?_
    numParents := fun ev => ?_
    doneOnce := fun ev => ?_
    readyOnce := fun ev => ?_
    waiting := fun ev ne0 => ?_
    woken := fun ev nonroot zero exempt => ?_
    simulated := inv.simulated
    owes := by simp
    lower := fun _ _ _ _ mem => by simp [noneDone] at mem
    upper := fun ev => ?_
    follows := fun before ev cycle begins => ?_ }
  · simp only [added_added]
    by_cases same : ev = parent
    · simpa [same] using holds
    · simpa [same] using inv.holds ev
  · simp only [added_added]
    by_cases same : ev = parent
    · simp [same, inv.numChildren]
    · simpa [same] using inv.numChildren ev
  · simp only [added_added] at isChild
    by_cases same : source = parent
    · subst same
      rw [update_self, List.mem_append, List.mem_singleton] at isChild
      rcases isChild with old | rfl
      · exact inv.edges source ev old
      · exact related
    · exact inv.edges source ev (by simpa [same] using isChild)
  · have before := inv.numParents ev
    rw [unfinished_unstarted unstarted] at before
    rw [unfinished_unstarted (by exact unstarted)]
    simp only [sum_count_added]
    by_cases same : ev = child
    · simp_all
    · simpa [same] using before
  · simpa [Happening.isDone] using inv.doneOnce ev
  · have before := inv.readyOnce ev
    by_cases same : ev = child
    · subst same
      simpa [idle, Happening.isReady] using before
    · simpa [family ev same, Happening.isReady] using before
  · by_cases same : ev = child
    · simpa [same] using idle
    · exact inv.waiting ev (by simpa [same] using ne0)
  · by_cases same : ev = child
    · simp [same] at zero
    · simp only [family ev same] at nonroot
      exact inv.woken ev nonroot (by simpa [same] using zero) exempt
  · rcases inv.upper ev with zero | ⟨_, _, _, mem, -⟩
    · exact .inl zero
    · exact absurd mem (noneDone _ _)
  · rcases List.prefix_concat_iff.mp begins with whole | part
    · rcases List.append_inj' whole rfl with ⟨-, last⟩
      cases kind : params.kind ev <;> simp [Params.starts, kind] at last
    · have mem := part.subset (List.mem_append_right before (List.mem_singleton_self _))
      exact absurd mem (inv.unstarted_trace unstarted ev cycle)

theorem addChild_spec (unstarted : events.Unstarted)
    (idle : events.state child = .none) (related : edge parent child) :
    Gives (events.addChild parent child) (Inv params edge [] none) := by
  refine .check (unstarted parent) ?_
  refine .check idle ?_
  have stored := (inv.holds parent).add child
  rw [← inv.numChildren] at stored
  apply stored.bind
  intro store holds
  have visitable : Visitable { events with
      store := update events.store parent store
      numChildren := update events.numChildren parent (events.numChildren parent + 1) } := by
    intro ev
    by_cases same : ev = parent
    · exact ⟨_, by simpa [same] using holds, by simp [same, inv.numChildren]⟩
    · exact ⟨_, by simpa [same] using inv.holds ev, by simpa [same] using inv.numChildren ev⟩
  apply (inheritDomain_spec parent child visitable).bind
  intro next same
  have result := inv.addChild unstarted idle related holds
  obtain ⟨_, _, _, _, _, _, _, _⟩ := next
  rcases same with ⟨states, cycles, stores, counts, waits, traces⟩
  subst states cycles stores counts waits traces
  exact .pure { result with }

/-! ## Running the events -/

omit inv in
/-- An event without further parents is queued, runs or is held. -/
theorem Inv.move {new : EventState} (privCycle : Fin n → Nat)
    (inv : Inv params edge [] none events) (last : events.numParents ev = 0)
    (live : events.state ev ≠ .done) (stays : new ≠ .done ∧ new ≠ .none)
    (simulated : new = .running ∨ new = .held → params.kind ev = .timing) :
    Inv params edge [] none { events with
      state := update events.state ev new
      privCycle } := by
  have states (other) : update events.state ev new other = .done ↔ events.state other = .done := by
    by_cases eq : other = ev
    · simp [eq, live, stays]
    · simp [eq]
  refine { inv with
    numParents := fun other => ?_
    doneOnce := fun other => ?_
    readyOnce := fun other => ?_
    waiting := fun other ne0 => ?_
    woken := fun other nonroot zero exempt => ?_
    simulated := fun other active => ?_ }
  · rw [unfinished_congr events { events with
      state := update events.state ev new
      privCycle } rfl states]
    exact inv.numParents other
  · simp only [states]
    exact inv.doneOnce other
  · rw [inv.readyOnce other]
    by_cases eq : other = ev
    · subst eq
      by_cases nonroot : (parents events.trace other).Nonempty
      · have awake := inv.woken other nonroot last (by simp)
        simp [stays, awake]
      · simp [nonroot]
    · simp [eq]
  · by_cases eq : other = ev
    · exact absurd (eq ▸ last) ne0
    · simpa [eq] using inv.waiting other ne0
  · by_cases eq : other = ev
    · simp [eq, stays]
    · simpa [eq] using inv.woken other nonroot zero exempt
  · by_cases eq : other = ev
    · subst eq
      exact simulated (by simpa using active)
    · exact inv.simulated other (by simpa [eq] using active)

theorem Inv.no_parents (awake : events.state ev ≠ .none) : events.numParents ev = 0 := by
  by_contra waits
  exact awake (inv.waiting ev waits)

end

inductive Op (n : Nat) where
  | addChild (parent child : Fin n)
  | queue (ev : Fin n) (qCycle : Nat)
  | run (ev : Fin n) (startCycle : Nat)
  | hold (ev : Fin n)
  | release (ev : Fin n)
  | requeue (ev : Fin n) (cycle : Nat)
  | done (ev : Fin n) (doneCycle : Nat)

def step (params : Params n) (events : Events n) : Op n → Result n
  | .addChild parent child => events.addChild parent child
  | .queue ev qCycle => events.queue ev qCycle
  | .run ev startCycle => events.run params ev startCycle
  | .hold ev => events.hold ev
  | .release ev => events.release ev
  | .requeue ev cycle => events.requeue ev cycle
  | .done ev doneCycle => events.done params ev doneCycle

/-- The children are added along the edges of a graph, before any event runs;
queued events run at their cycle, which is not below the least one set for them,
and whatever runs can be held, queued again or done. -/
def Allowed (params : Params n) (edge : Fin n → Fin n → Prop) (events : Events n) : Op n → Prop
  | .addChild parent child => edge parent child ∧ events.Unstarted ∧ events.state child = .none
  | .queue ev _ => events.state ev = .none ∧ events.numParents ev = 0
  | .run ev startCycle => events.state ev = .queued ∧
      params.kind ev = .timing ∧ startCycle = events.privCycle ev ∧
        params.minStartCycle ev ≤ startCycle
  | .hold ev => events.state ev = .running
  | .release ev => events.state ev = .held
  | .requeue ev _ => events.state ev = .running ∨ events.state ev = .held
  | .done ev _ => events.state ev = .running

instance (events : Events n) : Decidable events.Unstarted :=
  inferInstanceAs (Decidable (∀ _, _ ∨ _))

instance (params : Params n) (edge : Fin n → Fin n → Prop) [DecidableRel edge]
    (events : Events n) : DecidablePred (events.Allowed params edge)
  | .addChild _ _ | .queue _ _ | .run _ _ | .hold _ | .release _
  | .requeue _ _ | .done _ _ => by
      dsimp only [Allowed]
      infer_instance

theorem step_spec (acyclic : ∀ ev, ¬ TransGen edge ev ev) {op : Op n}
    (inv : Inv params edge [] none events) (allowed : events.Allowed params edge op) :
    Gives (events.step params op) (Inv params edge [] none) := by
  cases op with
  | addChild parent child =>
    exact addChild_spec inv allowed.2.1 allowed.2.2 allowed.1
  | queue ev qCycle =>
    obtain ⟨idle, last⟩ := allowed
    refine .check ⟨idle, last⟩ ?_
    exact .pure (inv.move _ last (by simp [idle]) (by simp) (by simp))
  | run ev startCycle =>
    obtain ⟨queued, timing, -, late⟩ := allowed
    refine .check (.inr queued) ?_
    refine .check late ?_
    refine .check timing ?_
    exact .pure (inv.move _ (inv.no_parents (by simp [queued]))
      (by simp [queued]) (by simp) fun _ => timing)
  | hold ev =>
    have running : events.state ev = .running := allowed
    refine .check running ?_
    exact .pure (inv.move _ (inv.no_parents (by simp [running])) (by simp [running]) (by simp)
      fun _ => inv.simulated ev (.inl running))
  | release ev =>
    have held : events.state ev = .held := allowed
    refine .check held ?_
    exact .pure (inv.move _ (inv.no_parents (by simp [held]))
      (by simp [held]) (by simp) fun _ => inv.simulated ev (.inr held))
  | requeue ev cycle =>
    have active : events.state ev = .running ∨ events.state ev = .held := allowed
    have awake : events.state ev ≠ .none ∧ events.state ev ≠ .done := by
      rcases active with state | state <;> simp [state]
    have last := inv.no_parents awake.1
    refine .check last ?_
    refine .check active ?_
    exact .pure (inv.move _ last awake.2 (by simp) (by simp))
  | done ev doneCycle => exact done_spec acyclic doneCycle inv allowed

def runOps (params : Params n) (domain : Fin n → Option Nat) (ops : List (Op n)) : Result n :=
  ops.foldlM (step params) (initial domain)

/-- What the children, the parents and the done cycles of the trace have to do
with each other. -/
structure Correct (params : Params n) (events : Events n) : Prop where
  visits : ∀ ev, ∃ order : List (Fin n), order.Perm (added events.trace ev) ∧
      ∀ {σ : Type} (f : σ → Fin n → Except EventFailure σ) (state : σ),
        (events.store ev).visitChildren f (events.numChildren ev) state = order.foldlM f state
  follows : ∀ before after ev cycle, events.trace = before ++ params.starts ev cycle :: after →
      params.Follows (parents events.trace ev) before ev cycle
  once : ∀ ev, events.trace.countP (params.isStart ev) ≤ 1
  complete : (∀ ev, parents events.trace ev = ∅ → events.state ev = .done) →
    (∀ ev, events.state ev = .none ∨ events.state ev = .done) → ∀ ev, events.state ev = .done ∧
        ((parents events.trace ev).Nonempty → events.trace.countP (params.isStart ev) = 1)

theorem Inv.all_done (acyclic : ∀ ev, ¬ TransGen edge ev ev) (inv : Inv params edge [] none events)
    (roots : ∀ ev, parents events.trace ev = ∅ → events.state ev = .done)
    (settled : ∀ ev, events.state ev = .none ∨ events.state ev = .done)
    (ev : Fin n) : events.state ev = .done := by
  have subgraph : ∀ ev, ¬ TransGen (fun parent child => child ∈ added events.trace parent) ev ev :=
    fun ev cycle => acyclic ev (TransGen.mono inv.edges ev ev cycle)
  refine forall_of_parents subgraph (events.state · = .done) ?_ ev
  intro child allDone
  rcases (parents events.trace child).eq_empty_or_nonempty with root | nonroot
  · exact roots child root
  have none : events.unfinished child = 0 := by
    apply sum_eq_zero
    intro parent _
    by_cases isParent : child ∈ added events.trace parent
    · rw [if_pos (allDone parent isParent)]
    · simp [List.count_eq_zero.mpr isParent]
  have last : events.numParents child = 0 := by
    rw [inv.numParents, none]
    rfl
  exact (settled child).resolve_left (inv.woken child nonroot last (by simp))

theorem Inv.correct (acyclic : ∀ ev, ¬ TransGen edge ev ev)
    (inv : Inv params edge [] none events) : Correct params events where
  visits := fun ev => by
    rw [inv.numChildren]
    exact (inv.holds ev).visits
  follows := fun before after ev cycle split => by
    apply inv.follows
    rw [split]
    exact ⟨after, by simp⟩
  once := fun ev => by
    cases kind : params.kind ev with
    | timing =>
      simp only [Params.isStart, kind, inv.readyOnce]
      split <;> simp
    | delay =>
      simp only [Params.isStart, kind, inv.doneOnce]
      split <;> simp
  complete := fun roots settled ev => by
    have done := inv.all_done acyclic roots settled ev
    refine ⟨done, fun nonroot => ?_⟩
    cases kind : params.kind ev with
    | timing => simp [Params.isStart, kind, inv.readyOnce, done, nonroot]
    | delay => simp [Params.isStart, kind, inv.doneOnce, done]

/--
In an acyclic graph the events become ready once, after all their parents, at
the latest cycle that a parent imposes, in whatever order they run.
-/
theorem events_follow_parents (params : Params n) (domain : Fin n → Option Nat)
    (edge : Fin n → Fin n → Prop) (acyclic : ∀ ev, ¬ TransGen edge ev ev) (ops : List (Op n))
    (allowed : RunMeets (step params) (Allowed params edge) ops (initial domain)) :
    ∃ events, runOps params domain ops = .ok events ∧ Correct params events := by
  rcases RunMeets.gives (fun _ _ inv allowed => step_spec acyclic inv allowed) allowed
    (inv_initial domain) with ⟨events, returns, inv⟩
  exact ⟨events, returns, inv.correct acyclic⟩

/-- Event 2 is a delay, and event 0 has four children. -/
def diamond : Params 5 where
  kind := fun ev => if ev = 2 then .delay else .timing
  preDelay := fun ev => ev.val
  postDelay := fun ev => if ev = 2 then 0 else 1
  minStartCycle := fun _ => 0

def diamondOps : List (Op 5) :=
  [.addChild 0 1, .addChild 0 2, .addChild 0 3, .queue 0 10, .addChild 0 4,
    .addChild 2 3, .addChild 1 4, .addChild 3 4, .run 0 10, .done 0 15,
    .run 3 21, .hold 3, .run 1 17, .release 3, .done 3 30, .done 1 20,
    .run 4 35, .done 4 35]

theorem events_follow_parents_diamond :
    ∃ events, runOps diamond (fun ev => if ev = 0 then some 3 else none) diamondOps = .ok events ∧
      Correct diamond events := by
  apply events_follow_parents _ _ fun parent child => parent < child
  · intro ev cycle
    rw [Relation.transGen_eq_self] at cycle
    exact lt_irrefl ev cycle
  · decide +kernel

end Events

end Damov.Weave
