import Damov.Library.Chains
import Damov.Weave.TimingEvent
import Mathlib.Algebra.BigOperators.Group.Finset.Piecewise
import Mathlib.Order.Lattice.Nat

/-!
# The event graph of the weave phase

The children of an event are stored in blocks: all but the newest are full, and
the newest is not empty. A visit goes from the newest to the oldest, so it reaches
every child once for each time that it was added.

The events of an acyclic graph become ready once, after all their parents, at the
latest cycle that a parent imposes. While an event tells its children that it is
done, the invariant is relative to the messages that are still owed to them.
-/

namespace Damov.Weave

open Library.Checked Function List

variable {ι : Type}

namespace Block

/-- A block that holds a short list. -/
def ofList (evs : List ι) : Block ι := fun slot => evs[slot.val]?

theorem events_ofList {evs : List ι} (short : evs.length ≤ 3) : (ofList evs).events = evs := by
  rcases evs with _ | ⟨first, _ | ⟨second, _ | ⟨third, _ | ⟨fourth, rest⟩⟩⟩⟩
  case cons.cons.cons.cons =>
    simp only [length_cons] at short
    omega
  all_goals simp [events, ofList, finRange_succ]

theorem update_ofList (evs : List ι) {slot : Fin 3} (next : slot.val = evs.length) (ev : ι) :
    update (ofList evs) slot (some ev) = ofList (evs ++ [ev]) := by
  funext other
  by_cases same : other = slot
  · subst same
    simp [ofList, next]
  have differs : other.val ≠ evs.length := by
    rw [← next]
    exact Fin.val_ne_of_ne same
  rw [update_of_ne same]
  rcases Nat.lt_or_gt_of_ne differs with before | behind
  · simp [ofList, getElem?_append_left before]
  · have outside : (evs ++ [ev]).length ≤ other.val := by
      rwa [length_append]
    rw [ofList, ofList, getElem?_eq_none (le_of_lt behind), getElem?_eq_none outside]

end Block

namespace ChildStore

/-- The children in blocks, the newest block first. -/
inductive Chunked : List ι → List (Block ι) → Prop where
  | nil : Chunked [] []
  | block {older newest : List ι} {blocks : List (Block ι)}
      (nonempty : 0 < newest.length) (short : newest.length ≤ 3)
      (full : older.length % 3 = 0) (rest : Chunked older blocks) :
      Chunked (older ++ newest) (Block.ofList newest :: blocks)

variable {added : List ι} {store : ChildStore ι}

theorem Chunked.visits {blocks : List (Block ι)} (chunked : Chunked added blocks) :
    (blocks.flatMap Block.events).Perm added := by
  induction chunked with
  | nil => exact List.Perm.refl []
  | block nonempty short full rest ih =>
    rw [flatMap_cons, Block.events_ofList short]
    exact (ih.append_left _).trans perm_append_comm

/-- The store of an event that was given the children in this order. -/
inductive Holds : List ι → ChildStore ι → Prop where
  | none : Holds [] (.child none)
  | one (ev : ι) : Holds [ev] (.child (some ev))
  | many {added : List ι} {blocks : List (Block ι)}
      (several : 2 ≤ added.length) (chunked : Chunked added blocks) :
      Holds added (.children blocks)

theorem Holds.add (holds : Holds added store) (childEv : ι) :
    Gives (store.add added.length childEv) (Holds (added ++ [childEv])) := by
  cases holds with
  | none => exact .ok (.one childEv)
  | one ev =>
    refine .ok (.many (by simp) ?_)
    have first : update Block.empty 0 (some ev) = Block.ofList [ev] := Block.update_ofList [] rfl ev
    have both : update (Block.ofList [ev]) 1 (some childEv) = Block.ofList [ev, childEv] :=
      Block.update_ofList [ev] rfl childEv
    rw [first, both]
    have chunked : Chunked ([] ++ [ev, childEv]) [Block.ofList [ev, childEv]] :=
      .block (by simp) (by simp) rfl .nil
    exact chunked
  | many several chunked =>
    cases chunked with
    | nil => simp at several
    | block nonempty short full rest =>
      rename_i older newest blocks
      have slot : (Fin.ofNat 3 (older ++ newest).length).val = newest.length % 3 := by
        simp only [Fin.val_ofNat, length_append]
        omega
      rw [ChildStore.add, if_neg (by omega), if_neg (by omega)]
      by_cases filled : newest.length = 3
      · have first : Fin.ofNat 3 (older ++ newest).length = 0 := by
          apply Fin.ext
          rw [slot, filled]
          rfl
        have single : update Block.empty 0 (some childEv) = Block.ofList [childEv] :=
          Block.update_ofList [] rfl childEv
        rw [if_pos first, first, single]
        refine .ok (.many (by simp; omega) ?_)
        exact .block (by simp) (by simp) (by simp; omega) (.block nonempty short full rest)
      · have mem : (Fin.ofNat 3 (older ++ newest).length).val =
            newest.length := by omega
        have further : Fin.ofNat 3 (older ++ newest).length ≠ 0 := by
          intro zero
          rw [zero] at mem
          exact absurd mem (ne_of_lt nonempty)
        rw [if_neg further, Block.update_ofList newest mem, append_assoc]
        refine .ok (.many (by simp at several ⊢; omega) ?_)
        exact .block (by simp) (by simp; omega) full rest

theorem Holds.visits (holds : Holds added store) : ∃ order : List ι, order.Perm added ∧
      ∀ {σ : Type} (f : σ → ι → Except EventFailure σ) (state : σ),
        store.visitChildren f added.length state = order.foldlM f state := by
  cases holds with
  | none => exact ⟨[], .refl [], fun _ _ => rfl⟩
  | one ev => exact ⟨[ev], .refl [ev], fun f state => by simp [visitChildren]⟩
  | many several chunked =>
    refine ⟨_, chunked.visits, fun f state => ?_⟩
    rw [visitChildren, if_neg (by omega), if_neg (by omega)]
    simp only [chunked.visits.length_eq]
    exact bind_pure _

end ChildStore

open Library.Acyclic
open Relation (TransGen)

variable {n : Nat}

/-! ## What the trace says -/

namespace Happening

def addedTo (parent : Fin n) : Happening n → Option (Fin n)
  | .added source child => if source = parent then some child else none
  | _ => none

def isReady (ev : Fin n) : Happening n → Bool
  | .ready other _ => other = ev
  | _ => false

def isDone (ev : Fin n) : Happening n → Bool
  | .done other _ => other = ev
  | _ => false

end Happening

/-- The children of an event, in the order in which they were added. -/
def added (trace : List (Happening n)) (parent : Fin n) : List (Fin n) :=
  trace.filterMap (Happening.addedTo parent)

def parents (trace : List (Happening n)) (ev : Fin n) : Finset (Fin n) :=
  Finset.univ.filter fun parent => ev ∈ added trace parent

@[simp] theorem mem_parents {trace : List (Happening n)} {parent ev : Fin n} :
    parent ∈ parents trace ev ↔ ev ∈ added trace parent := by simp [parents]

section

variable (trace : List (Happening n))
include trace

@[simp] theorem added_ready (ev : Fin n) (cycle : Nat) :
    added (trace ++ [.ready ev cycle]) = added trace := by
  funext parent
  simp [added, Happening.addedTo]

@[simp] theorem added_done (ev : Fin n) (cycle : Nat) :
    added (trace ++ [.done ev cycle]) = added trace := by
  funext parent
  simp [added, Happening.addedTo]

theorem added_added (parent child : Fin n) : added (trace ++ [.added parent child]) =
      update (added trace) parent (added trace parent ++ [child]) := by
  funext other
  by_cases same : parent = other
  · subst same
    simp [added, Happening.addedTo]
  · simp [added, Happening.addedTo, same, update_of_ne (Ne.symm same)]

end

namespace Params

variable (params : Params n)

/-- What happens when the last parent of an event is done. -/
def starts (ev : Fin n) (cycle : Nat) : Happening n :=
  match params.kind ev with
  | .timing => .ready ev cycle
  | .delay => .done ev cycle

def isStart (ev : Fin n) : Happening n → Bool :=
  match params.kind ev with
  | .timing => Happening.isReady ev
  | .delay => Happening.isDone ev

/-- The cycle is the one that the parents impose, all of which are done. -/
def Follows (family : Finset (Fin n)) (before : List (Happening n)) (ev : Fin n)
    (cycle : Nat) : Prop :=
  ∃ doneAt : Fin n → Nat, (∀ parent ∈ family, .done parent (doneAt parent) ∈ before) ∧ cycle =
        family.sup (fun parent => doneAt parent + params.postDelay parent) + params.preDelay ev

end Params

/-! ## The invariant -/

namespace Events

variable {params : Params n} {edge : Fin n → Fin n → Prop}
variable {owed : List (Fin n × Nat)} {active : Option (Fin n)}
variable {events : Events n}

/-- The parents that an event still waits for. -/
def unfinished (events : Events n) (ev : Fin n) : Nat :=
  ∑ parent, if events.state parent = .done then 0
    else (added events.trace parent).count ev

/-- The messages in `owed` are on their way to children of events that are done.
The event `active` has just received its last one. -/
structure Inv (params : Params n) (edge : Fin n → Fin n → Prop)
    (owed : List (Fin n × Nat)) (active : Option (Fin n)) (events : Events n) : Prop where
  holds : ∀ ev, (events.store ev).Holds (added events.trace ev)
  numChildren : ∀ ev, events.numChildren ev = (added events.trace ev).length
  edges : ∀ parent child, child ∈ added events.trace parent → edge parent child
  numParents : ∀ ev, events.numParents ev = events.unfinished ev + (owed.map Prod.fst).count ev
  doneOnce : ∀ ev, events.trace.countP (Happening.isDone ev) =
    if events.state ev = .done then 1 else 0
  readyOnce : ∀ ev, events.trace.countP (Happening.isReady ev) =
    if params.kind ev = .timing ∧ events.state ev ≠ .none ∧
      (parents events.trace ev).Nonempty then 1 else 0
  waiting : ∀ ev, events.numParents ev ≠ 0 → events.state ev = .none
  woken : ∀ ev, (parents events.trace ev).Nonempty →
    events.numParents ev = 0 → active ≠ some ev → events.state ev ≠ .none
  simulated : ∀ ev, events.state ev = .running ∨ events.state ev = .held → params.kind ev = .timing
  owes : ∀ child cycle, (child, cycle) ∈ owed → ∃ parent doneCycle,
    child ∈ added events.trace parent ∧ .done parent doneCycle ∈ events.trace ∧
      cycle = doneCycle + params.postDelay parent
  lower : ∀ parent child doneCycle, child ∈ added events.trace parent →
    .done parent doneCycle ∈ events.trace → (child, doneCycle + params.postDelay parent) ∈ owed ∨
        doneCycle + params.postDelay parent ≤ events.cycle child
  upper : ∀ ev, events.cycle ev = 0 ∨ ∃ parent doneCycle,
    ev ∈ added events.trace parent ∧ .done parent doneCycle ∈ events.trace ∧
      events.cycle ev = doneCycle + params.postDelay parent
  follows : ∀ before ev cycle, before ++ [params.starts ev cycle] <+: events.trace →
      params.Follows (parents events.trace ev) before ev cycle

theorem inv_initial (domain : Fin n → Option Nat) : Inv params edge [] none (initial domain) := by
  constructor
  case holds => exact fun ev => .none
  all_goals simp [initial, added, unfinished, parents]

theorem Inv.done_iff (inv : Inv params edge owed active events) (ev : Fin n) :
    events.state ev = .done ↔ ∃ cycle, .done ev cycle ∈ events.trace := by
  have once := inv.doneOnce ev
  have counted : 0 < events.trace.countP (Happening.isDone ev) ↔
      ∃ cycle, .done ev cycle ∈ events.trace := by
    rw [countP_pos_iff]
    constructor
    · rintro ⟨happening, mem, isDone⟩
      cases happening with
      | done other cycle =>
        obtain rfl : other = ev := by simpa [Happening.isDone] using isDone
        exact ⟨cycle, mem⟩
      | added | ready => simp [Happening.isDone] at isDone
    · rintro ⟨cycle, mem⟩
      exact ⟨_, mem, by simp [Happening.isDone]⟩
  rw [← counted, once]
  split <;> simp_all

variable {ev : Fin n} {startCycle : Nat}

section

variable (inv : Inv params edge owed active events)
include inv

/-- An event that waits for no parent has only parents that are done. -/
theorem Inv.parents_done (none : events.numParents ev = 0) {parent : Fin n}
    (isParent : ev ∈ added events.trace parent) :
    events.state parent = .done := by
  have zero : events.unfinished ev = 0 := by
    have sum := inv.numParents ev
    omega
  by_contra running
  rw [unfinished, Finset.sum_eq_zero_iff] at zero
  have absent := zero parent (Finset.mem_univ parent)
  rw [if_neg running, count_eq_zero] at absent
  exact absent isParent

theorem Inv.done_unique {first second : Nat} (insideFirst : .done ev first ∈ events.trace)
    (insideSecond : .done ev second ∈ events.trace) :
    first = second := by
  have once := inv.doneOnce ev
  rw [if_pos ((inv.done_iff ev).mpr ⟨first, insideFirst⟩),
    countP_eq_length_filter, length_eq_one_iff] at once
  obtain ⟨only, filtered⟩ := once
  have same (cycle) (mem : .done ev cycle ∈ events.trace) : .done ev cycle = only := by
    rw [← mem_singleton, ← filtered]
    exact mem_filter.mpr ⟨mem, by simp [Happening.isDone]⟩
  have eq := (same first insideFirst).trans (same second insideSecond).symm
  simpa using eq

/-- The cycle of an event without further parents is the one they impose. -/
theorem Inv.follows_now (none : events.numParents ev = 0) :
    params.Follows (parents events.trace ev) events.trace ev
      (events.cycle ev + params.preDelay ev) := by
  have finished (parent) :
      ∃ doneCycle, ev ∈ added events.trace parent → .done parent doneCycle ∈ events.trace := by
    by_cases isParent : ev ∈ added events.trace parent
    · obtain ⟨doneCycle, mem⟩ := (inv.done_iff parent).mp (inv.parents_done none isParent)
      exact ⟨doneCycle, fun _ => mem⟩
    · exact ⟨0, fun mem => absurd mem isParent⟩
  have nothingOwed : ∀ cycle, (ev, cycle) ∉ owed := by
    intro cycle mem
    have counted : 0 < (owed.map Prod.fst).count ev := count_pos_iff.mpr (mem_map_of_mem mem)
    have sum := inv.numParents ev
    omega
  choose doneAt doneAt_mem using finished
  refine ⟨doneAt, fun parent isParent =>
    doneAt_mem parent (mem_parents.mp isParent), ?_⟩
  congr 1
  apply le_antisymm
  · rcases inv.upper ev with zero | ⟨parent, doneCycle, isParent, mem, same⟩
    · rw [zero]
      exact Nat.zero_le _
    · rw [same, inv.done_unique mem (doneAt_mem parent isParent)]
      exact Finset.le_sup (f := fun parent => doneAt parent + params.postDelay parent)
        (mem_parents.mpr isParent)
  · apply Finset.sup_le
    intro parent isParent
    rw [mem_parents] at isParent
    exact (inv.lower parent ev _ isParent (doneAt_mem parent isParent)).resolve_left (nothingOwed _)

end

/-! ## Telling a child -/

/-- One message is delivered. -/
theorem Inv.count (inv : Inv params edge ((ev, startCycle) :: owed) none events) :
    Inv params edge owed (some ev) (events.countParent startCycle ev) := by
  have positive : events.numParents ev ≠ 0 := by
    have sum := inv.numParents ev
    simp at sum
    omega
  refine { inv with
    numParents := fun other => ?_
    waiting := fun other ne0 => ?_
    woken := fun other nonroot zero ne => ?_
    owes := fun child cycle mem =>
      inv.owes child cycle (mem_cons_of_mem _ mem)
    lower := fun parent child doneCycle isChild mem => ?_
    upper := fun other => ?_ }
  · have sum := inv.numParents other
    have same : (events.countParent startCycle ev).unfinished other = events.unfinished other := rfl
    rw [same]
    by_cases eq : other = ev
    · subst eq
      simp [countParent, positive] at sum ⊢
      omega
    · simpa [countParent, eq, Ne.symm eq] using sum
  · by_cases eq : other = ev
    · subst eq
      exact inv.waiting other positive
    · exact inv.waiting other (by simpa [countParent, eq] using ne0)
  · have eq : other ≠ ev := fun eq => ne (congrArg some eq.symm)
    exact inv.woken other nonroot (by simpa [countParent, eq] using zero) (by simp)
  · rcases inv.lower parent child doneCycle isChild mem with now | before
    · rcases mem_cons.mp now with here | later
      · obtain ⟨rfl, rfl⟩ := here
        exact .inr (by simp [countParent])
      · exact .inl later
    right
    by_cases eq : child = ev
    · subst eq
      simp only [countParent, update_self]
      exact before.trans (le_max_left _ _)
    · simpa [countParent, eq] using before
  · by_cases eq : other = ev
    · subst eq
      simp only [countParent, update_self]
      rcases le_total (events.cycle other) startCycle with le | le
      · rw [max_eq_right le]
        exact .inr (inv.owes other startCycle mem_cons_self)
      · rw [max_eq_left le]
        exact inv.upper other
    · simpa [countParent, eq] using inv.upper other

theorem Inv.deactivate (inv : Inv params edge owed (some ev) events)
    (waits : events.numParents ev ≠ 0) :
    Inv params edge owed none events :=
  { inv with
    woken := fun other nonroot zero _ =>
      inv.woken other nonroot zero (by
        rintro ⟨rfl⟩
        exact waits zero) }

/-- Only what is not the start of an event, or the start of one whose parents
are all done, is recorded. -/
theorem follows_snoc {trace : List (Happening n)} {latest : Happening n}
    (same : added (trace ++ [latest]) = added trace)
    (follows : ∀ before ev cycle, before ++ [params.starts ev cycle] <+: trace →
        params.Follows (parents trace ev) before ev cycle)
    (now : ∀ ev cycle, params.starts ev cycle = latest →
      params.Follows (parents trace ev) trace ev cycle) :
    ∀ before ev cycle, before ++ [params.starts ev cycle] <+: trace ++ [latest] →
        params.Follows (parents (trace ++ [latest]) ev) before ev cycle := by
  intro before ev cycle begins
  rw [parents, same]
  rcases prefix_concat_iff.mp begins with whole | part
  · rcases append_inj' whole rfl with ⟨rfl, last⟩
    exact now ev cycle (by simpa using last)
  · exact follows before ev cycle part

theorem unfinished_congr (events next : Events n) (children : added next.trace = added events.trace)
    (states : ∀ parent, next.state parent = .done ↔ events.state parent = .done) :
    next.unfinished = events.unfinished := by
  funext ev
  simp [unfinished, children, states]

theorem unfinished_finish (live : events.state ev ≠ .done) (doneCycle : Nat) (other : Fin n) :
    unfinished { events with
        state := update events.state ev .done
        trace := events.trace ++ [.done ev doneCycle] } other +
      (added events.trace ev).count other = events.unfinished other := by
  have cleared : (fun parent =>
      if update events.state ev .done parent = .done then 0
        else (added (events.trace ++ [.done ev doneCycle]) parent).count other) =
      update (fun parent => if events.state parent = .done then 0
        else (added events.trace parent).count other) ev 0 := by
    funext parent
    by_cases eq : parent = ev <;> simp [eq]
  simp only [unfinished, cleared]
  rw [Finset.sum_update_of_mem (Finset.mem_univ ev),
    Finset.sum_eq_add_sum_sdiff_singleton_of_mem (Finset.mem_univ ev),
    if_neg live]
  omega

/-- The last parent of a `TimingEvent` is done. -/
theorem Inv.ready (inv : Inv params edge owed (some ev) events)
    (timing : params.kind ev = .timing) (idle : events.state ev = .none)
    (nonroot : (parents events.trace ev).Nonempty) (last : events.numParents ev = 0) {cycle : Nat}
    (imposed : cycle = events.cycle ev + params.preDelay ev) :
    Inv params edge owed none (enqueue ev cycle { events with
      trace := events.trace ++ [.ready ev cycle] }) := by
  have states (other) :
      update events.state ev .queued other = .done ↔ events.state other = .done := by
    by_cases eq : other = ev
    · simp [eq, idle]
    · simp [eq]
  have family : ∀ other, parents (events.trace ++ [.ready ev cycle]) other =
      parents events.trace other := by simp [parents]
  refine {
    holds := by simpa [enqueue] using inv.holds
    numChildren := by simpa [enqueue] using inv.numChildren
    edges := by simpa [enqueue] using inv.edges
    numParents := fun other => ?_
    doneOnce := fun other => ?_
    readyOnce := fun other => ?_
    waiting := fun other ne0 => ?_
    woken := fun other nonrootOther zero _ => ?_
    simulated := fun other active => ?_
    owes := by simpa [enqueue] using inv.owes
    lower := by simpa [enqueue] using inv.lower
    upper := by simpa [enqueue] using inv.upper
    follows := follows_snoc (added_ready _ _ _) inv.follows ?_ }
  · rw [unfinished_congr events _ (added_ready _ _ _) states]
    exact inv.numParents other
  · simp only [enqueue, countP_append, states, inv.doneOnce other]
    simp [Happening.isDone]
  · simp only [enqueue, countP_append, family, inv.readyOnce other]
    by_cases eq : other = ev
    · subst eq
      simp [Happening.isReady, timing, idle, nonroot]
    · simp [Happening.isReady, eq, Ne.symm eq]
  · by_cases eq : other = ev
    · subst eq
      exact absurd last ne0
    · simpa [enqueue, eq] using inv.waiting other ne0
  · by_cases eq : other = ev
    · simp [enqueue, eq]
    · simp only [enqueue, family] at nonrootOther
      have before := inv.woken other nonrootOther zero (by
        simpa using Ne.symm eq)
      simpa [enqueue, eq] using before
  · by_cases eq : other = ev
    · simp [enqueue, eq] at active
    · exact inv.simulated other (by simpa [enqueue, eq] using active)
  · intro other start same
    obtain ⟨rfl, rfl⟩ : other = ev ∧ start = cycle := by
      cases kind : params.kind other with
      | timing => simpa [Params.starts, kind] using same
      | delay => simp [Params.starts, kind] at same
    rw [imposed]
    exact inv.follows_now last

/-- An event is done, and its children are owed a message. -/
theorem Inv.finish (doneCycle : Nat) (inv : Inv params edge owed active events)
    (exempt : active = none ∨ active = some ev)
    (live : events.state ev ≠ .done) (last : events.numParents ev = 0)
    (started : params.kind ev = .timing → events.state ev ≠ .none)
    (imposed : params.kind ev = .delay →
      params.Follows (parents events.trace ev) events.trace ev doneCycle) :
    Inv params edge ((added events.trace ev).map
        (fun child => (child, doneCycle + params.postDelay ev)) ++ owed)
      none
      { events with
        state := update events.state ev .done
        trace := events.trace ++ [.done ev doneCycle] } := by
  have family : ∀ other, parents (events.trace ++ [.done ev doneCycle]) other =
      parents events.trace other := by simp [parents]
  refine {
    holds := by simpa using inv.holds
    numChildren := by simpa using inv.numChildren
    edges := by simpa using inv.edges
    numParents := fun other => ?_
    doneOnce := fun other => ?_
    readyOnce := fun other => ?_
    waiting := fun other ne0 => ?_
    woken := fun other nonrootOther zero _ => ?_
    simulated := fun other active => ?_
    owes := fun child cycle mem => ?_
    lower := fun parent child cycle isChild mem => ?_
    upper := fun other => ?_
    follows := follows_snoc (added_done _ _ _) inv.follows ?_ }
  · rw [map_append, count_append, map_map]
    have whole := unfinished_finish live doneCycle other
    have sum := inv.numParents other
    have told : (map (Prod.fst ∘ fun child =>
        (child, doneCycle + params.postDelay ev)) (added events.trace ev)) =
        added events.trace ev := map_id _
    rw [told]
    dsimp only
    omega
  · by_cases eq : other = ev
    · subst eq
      simp [inv.doneOnce, live, Happening.isDone]
    · simp [inv.doneOnce, eq, Ne.symm eq, Happening.isDone]
  · simp only [countP_append, family, inv.readyOnce other]
    by_cases eq : other = ev
    · subst eq
      by_cases timing : params.kind other = .timing
      · simp [Happening.isReady, started timing]
      · simp [Happening.isReady, timing]
    · simp [Happening.isReady, eq]
  · by_cases eq : other = ev
    · subst eq
      exact absurd last ne0
    · simpa [eq] using inv.waiting other ne0
  · by_cases eq : other = ev
    · simp [eq]
    simp only [family] at nonrootOther
    have before := inv.woken other nonrootOther zero (by
      rcases exempt with rfl | rfl
      · simp
      · simpa using Ne.symm eq)
    simpa [eq] using before
  · by_cases eq : other = ev
    · simp [eq] at active
    · exact inv.simulated other (by simpa [eq] using active)
  · simp only [added_done]
    rcases mem_append.mp mem with new | old
    · rcases mem_map.mp new with ⟨told, isChild, same⟩
      obtain ⟨rfl, rfl⟩ := same
      exact ⟨ev, doneCycle, isChild, by simp, rfl⟩
    · obtain ⟨parent, at_, isChild, done, same⟩ := inv.owes child cycle old
      exact ⟨parent, at_, isChild, by simp [done], same⟩
  · simp only [added_done] at isChild
    rcases mem_append.mp mem with old | new
    · exact (inv.lower parent child cycle isChild old).imp_left (mem_append_right _)
    · obtain ⟨rfl, rfl⟩ : parent = ev ∧ cycle = doneCycle := by simpa using new
      exact .inl (mem_append_left _ (mem_map_of_mem isChild))
  · simp only [added_done]
    rcases inv.upper other with zero | ⟨parent, at_, isChild, done, same⟩
    · exact .inl zero
    · exact .inr ⟨parent, at_, isChild, by simp [done], same⟩
  · intro other start same
    cases kind : params.kind other with
    | timing => simp [Params.starts, kind] at same
    | delay =>
      obtain ⟨rfl, rfl⟩ : other = ev ∧ start = doneCycle := by
        simpa [Params.starts, kind] using same
      exact imposed kind

/-! ## The messages of an event that is done -/

/-- What a bounded `done` has to do for the children that it reaches. -/
def Completes (params : Params n) (edge : Fin n → Fin n → Prop) (depth : Nat) : Prop :=
  ∀ (ev : Fin n) (doneCycle : Nat) (owed : List (Fin n × Nat))
    (events : Events n), height edge ev < depth → events.state ev = .running →
      Inv params edge ((added events.trace ev).map
          (fun child => (child, doneCycle + params.postDelay ev)) ++ owed)
        none
        { events with
          state := update events.state ev .done
          trace := events.trace ++ [.done ev doneCycle] } →
      (events.store ev).Holds (added events.trace ev) →
      events.numChildren ev = (added events.trace ev).length →
      Gives (doneWithin params depth ev doneCycle events) (Inv params edge owed none)

theorem parentDone_spec {depth : Nat}
    (completes : Completes params edge depth) (low : height edge ev < depth)
    (inv : Inv params edge ((ev, startCycle) :: owed) none events) :
    Gives (parentDone params (doneWithin params depth) startCycle events ev)
      (Inv params edge owed none) := by
  have positive : events.numParents ev ≠ 0 := by
    have sum := inv.numParents ev
    simp at sum
    omega
  have idle : (events.countParent startCycle ev).state ev = .none := inv.waiting ev positive
  have nonroot : (parents events.trace ev).Nonempty := by
    obtain ⟨parent, _, isChild, -⟩ := inv.owes ev startCycle mem_cons_self
    exact ⟨parent, mem_parents.mpr isChild⟩
  have counted := inv.count
  rw [parentDone]
  cases kind : params.kind ev with
  | timing =>
    refine .check positive ?_
    dsimp only
    split
    case isTrue last =>
      refine .check idle ?_
      exact .pure (counted.ready kind idle nonroot last rfl)
    case isFalse waits => exact .pure (counted.deactivate waits)
  | delay =>
    dsimp only
    split
    case isTrue last =>
      have finished := counted.finish _ (.inr rfl) (by simp [idle]) last
        (by simp [kind]) fun _ => counted.follows_now last
      apply completes ev _ owed _ low (by simp)
      · simpa only [update_idem] using finished
      · exact counted.holds ev
      · exact counted.numChildren ev
    case isFalse waits => exact .ok (counted.deactivate waits)

theorem tell_spec {depth : Nat} (completes : Completes params edge depth)
    {order : List (Fin n)} (low : ∀ ev ∈ order, height edge ev < depth)
    (inv : Inv params edge (order.map (fun child => (child, startCycle)) ++ owed) none events) :
    Gives (order.foldlM (parentDone params (doneWithin params depth) startCycle) events)
      (Inv params edge owed none) := by
  induction order generalizing events with
  | nil => exact .pure inv
  | cons ev rest ih =>
    apply (parentDone_spec completes (low ev mem_cons_self) inv).bind
    intro next invNext
    exact ih (fun other mem =>
      low other (mem_cons_of_mem ev mem)) invNext

/-- Messages are delivered in any order. -/
theorem Inv.perm {other : List (Fin n × Nat)}
    (inv : Inv params edge owed active events) (perm : other.Perm owed) :
    Inv params edge other active events :=
  { inv with
    numParents := fun ev => by
      rw [(perm.map Prod.fst).count_eq]
      exact inv.numParents ev
    owes := fun child cycle mem =>
      inv.owes child cycle (perm.mem_iff.mp mem)
    lower := fun parent child doneCycle isChild mem => by
      rw [perm.mem_iff]
      exact inv.lower parent child doneCycle isChild mem }

theorem doneWithin_completes (acyclic : ∀ ev, ¬ TransGen edge ev ev) (depth : Nat) :
    Completes params edge depth := by
  induction depth with
  | zero => exact fun ev _ _ _ low => absurd low (Nat.not_lt_zero _)
  | succ depth ih =>
    intro ev doneCycle owed events low running inv holds numChildren
    obtain ⟨order, perm, visits⟩ := holds.visits
    refine .check running ?_
    rw [numChildren, visits]
    apply tell_spec ih
    · intro child mem
      have isChild : child ∈ added events.trace ev := perm.mem_iff.mp mem
      have related : edge ev child := inv.edges ev child (by simpa using isChild)
      exact (height_lt_of_edge acyclic related).trans_le (Nat.le_of_lt_succ low)
    · exact inv.perm ((perm.map _).append_right owed)

theorem done_spec (acyclic : ∀ ev, ¬ TransGen edge ev ev) (doneCycle : Nat)
    (inv : Inv params edge [] none events) (running : events.state ev = .running) :
    Gives (events.done params ev doneCycle) (Inv params edge [] none) := by
  have timing := inv.simulated ev (.inl running)
  have last : events.numParents ev = 0 := by
    by_contra waits
    simp [inv.waiting ev waits] at running
  have finished := inv.finish doneCycle (.inl rfl) (by simp [running]) last
    (by simp [running]) (by simp [timing])
  have low := height_lt_card acyclic ev
  rw [Fintype.card_fin] at low
  exact doneWithin_completes acyclic n ev doneCycle [] events low running
    finished (inv.holds ev) (inv.numChildren ev)

end Events

end Damov.Weave
