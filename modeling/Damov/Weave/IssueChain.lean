import Damov.Weave.OOOCoreRecorder
import Mathlib.Data.List.Chain

/-!
# The chain of issue events

An issue event is linked with the one before it, by a delay that leaves out the
part that its own delay after the responses already covers. So an issue event
that starts late makes every later one start at least as late, in zero-load
cycles. The two delays make up the distance between the issue events, as long as
they fit into 32 bits.
-/

namespace Damov.Weave.OOOCoreRecorder

open Function List Option

/-! ## What the parents impose -/

theorem delay32_eq {later earlier : Nat} (le : earlier ≤ later) (fits : later - earlier < 2 ^ 32) :
    delay32 later earlier = later - earlier := by
  have cast : ((later : Int) - earlier) = ((later - earlier : Nat) : Int) := by omega
  have below : ((later - earlier : Nat) : Int) < 2 ^ 32 := by omega
  rw [delay32, cast, Int.emod_eq_of_lt (Int.natCast_nonneg _) below, Int.toNat_natCast]

/-- An event that starts at the cycle waits for its parents and delays. -/
def Event.Respects (starts : Nat → Option Nat) (ev : Event) (startCycle : Nat) : Prop :=
  (∀ link ∈ ev.parents, ∃ parentStart ∈ starts link.1,
    parentStart + link.2 + ev.preDelay ≤ startCycle) ∧
    ∀ cycle ∈ ev.queued, cycle + ev.preDelay ≤ startCycle

theorem le_foldr_max {values : List Nat} {value : Nat}
    (mem : value ∈ values) : value ≤ values.foldr max 0 := by
  induction values with
  | nil => simp at mem
  | cons first rest ih =>
    rcases mem_cons.mp mem with rfl | later
    · exact le_max_left _ _
    · exact (ih later).trans (le_max_right _ _)

theorem Event.respects_of_imposed {starts : Nat → Option Nat} {ev : Event} {startCycle : Nat}
    (ready : ev.Ready starts) (le : ev.imposed starts ≤ startCycle) :
    ev.Respects starts startCycle := by
  constructor
  · intro link mem
    obtain ⟨parentStart, started⟩ := isSome_iff_exists.mp (ready link mem)
    refine ⟨parentStart, started, ?_⟩
    have bound := le_foldr_max (mem_append_right ev.queued.toList
      (mem_map_of_mem mem (f := fun link => (starts link.1).getD 0 + link.2)))
    rw [started] at bound
    exact (Nat.add_le_add_right bound ev.preDelay).trans le
  · intro cycle queued
    have bound := le_foldr_max (mem_append_left
      (ev.parents.map fun link => (starts link.1).getD 0 + link.2)
      (mem_toList.mpr queued))
    exact (Nat.add_le_add_right bound ev.preDelay).trans le

/-! ## The event graph -/

section Graph

variable {events : List Event} {starts : Nat → Option Nat}

structure Graph (events : List Event) (starts : Nat → Option Nat) : Prop where
  ids : ∀ (place : Nat) (ev : Event), events[place]? = some ev → ev.id = place
  known : ∀ id, starts id ≠ none → id < events.length
  respected : ∀ ev ∈ events, ∀ startCycle ∈ starts ev.id, ev.Respects starts startCycle

theorem graph_initial : Graph [] (fun _ => none) where
  ids := by simp
  known := by simp
  respected := by simp

theorem Graph.eq_of_id (graph : Graph events starts) {first second : Event}
    (insideFirst : first ∈ events) (insideSecond : second ∈ events)
    (same : first.id = second.id) : first = second := by
  obtain ⟨place, found⟩ := mem_iff_getElem?.mp insideFirst
  rcases mem_iff_getElem?.mp insideSecond with ⟨other, found'⟩
  have placeEq := graph.ids place first found
  have otherEq := graph.ids other second found'
  obtain rfl : place = other := by omega
  exact some.inj (found.symm.trans found')

variable {ev : Event} (graph : Graph events starts)
include graph

theorem Graph.id_lt (mem : ev ∈ events) : ev.id < events.length := by
  obtain ⟨place, found⟩ := mem_iff_getElem?.mp mem
  rw [graph.ids place ev found]
  exact (List.getElem?_eq_some_iff.mp found).1

/-- The next event has not started. -/
theorem Graph.starts_length : starts events.length = none := by
  by_contra started
  exact lt_irrefl _ (graph.known _ started)

theorem Graph.push (id : ev.id = events.length) : Graph (events ++ [ev]) starts where
  ids := by
    intro place other found
    rw [getElem?_append] at found
    split at found
    · exact graph.ids place other found
    · obtain ⟨lt, isOther⟩ := List.getElem?_eq_some_iff.mp found
      simp only [length_singleton] at lt
      have : place = events.length := by omega
      subst this
      simp only [Nat.sub_self, getElem_cons_zero] at isOther
      rw [← isOther, id]
  known := by
    intro other started
    rw [length_append]
    exact Nat.lt_add_right _ (graph.known other started)
  respected := by
    refine forall_mem_append.mpr ⟨graph.respected, forall_mem_singleton.mpr ?_⟩
    intro startCycle started
    have lt := graph.known ev.id (by simp [mem_def.mp started])
    omega

omit graph in
theorem Event.Respects.update {startCycle id cycle : Nat}
    (respects : ev.Respects starts startCycle) (fresh : starts id = none) :
    ev.Respects (update starts id (some cycle)) startCycle := by
  refine ⟨fun link mem => ?_, respects.2⟩
  obtain ⟨parentStart, started, le⟩ := respects.1 link mem
  have other : link.1 ≠ id := by
    rintro eq
    rw [eq, fresh] at started
    simp at started
  exact ⟨parentStart, by rwa [update_of_ne other], le⟩

theorem Graph.start (mem : ev ∈ events) (fresh : starts ev.id = none)
    {startCycle : Nat} (respects : ev.Respects starts startCycle) :
    Graph events (update starts ev.id (some startCycle)) where
  ids := graph.ids
  known := by
    intro id started
    by_cases same : id = ev.id
    · exact same ▸ graph.id_lt mem
    · rw [update_of_ne same] at started
      exact graph.known id started
  respected := by
    intro other mem' cycle started
    by_cases same : other.id = ev.id
    · obtain rfl := graph.eq_of_id mem' mem same
      rw [update_self, mem_some_iff] at started
      exact started ▸ respects.update fresh
    · rw [update_of_ne same] at started
      exact (graph.respected other mem' cycle started).update fresh

end Graph

/-! ## The chain -/

section Chain

variable {events : List Event} {starts : Nat → Option Nat}
variable {chain : List IssueEvent}

/-- The second issue event waits for the first one, and for at least the
distance between them. -/
def Link (events : List Event) (first second : IssueEvent) : Prop :=
  first.zllStartCycle ≤ second.zllStartCycle ∧ ∃ ev ∈ events, ev.issue? = some second ∧
      ∃ delay, (first.id, delay) ∈ ev.parents ∧
        second.zllStartCycle ≤ first.zllStartCycle + delay + ev.preDelay

/-- The first issue event starts before the second one, with no larger a
skew. -/
def SkewLe (starts : Nat → Option Nat) (first second : IssueEvent) : Prop :=
  ∀ secondStart ∈ starts second.id, ∃ firstStart ∈ starts first.id,
    firstStart + second.zllStartCycle ≤ secondStart + first.zllStartCycle

variable {first second : IssueEvent} {ev : Event} {issue : IssueEvent} {startCycle : Nat}

theorem SkewLe.trans {third : IssueEvent} (one : SkewLe starts first second)
    (two : SkewLe starts second third) : SkewLe starts first third := by
  intro thirdStart startedThird
  obtain ⟨secondStart, startedSecond, le⟩ := two thirdStart startedThird
  rcases one secondStart startedSecond with ⟨firstStart, startedFirst, leFirst⟩
  exact ⟨firstStart, startedFirst, by omega⟩

theorem Event.id_of_issue (isIssue : ev.issue? = some issue) : ev.id = issue.id := by
  rw [Event.issue?] at isIssue
  split at isIssue
  · simp only [some.injEq] at isIssue
    rw [← isIssue]
  · simp at isIssue

theorem Link.skewLe_of_respects {delay : Nat} (respects : ev.Respects starts startCycle)
    (isParent : (first.id, delay) ∈ ev.parents)
    (covers : second.zllStartCycle ≤ first.zllStartCycle + delay + ev.preDelay) :
    ∃ firstStart ∈ starts first.id,
      firstStart + second.zllStartCycle ≤ startCycle + first.zllStartCycle := by
  obtain ⟨firstStart, started, le⟩ := respects.1 _ isParent
  exact ⟨firstStart, started, by dsimp only at le; omega⟩

theorem Link.skewLe (graph : Graph events starts)
    (link : Link events first second) : SkewLe starts first second := by
  obtain ⟨-, ev, mem, isIssue, delay, isParent, covers⟩ := link
  intro secondStart started
  rw [← Event.id_of_issue isIssue] at started
  exact Link.skewLe_of_respects (graph.respected ev mem secondStart started) isParent covers

theorem Link.mono {later : List Event} (link : Link events first second) (more : events ⊆ later) :
    Link later first second := by
  obtain ⟨le, ev, mem, rest⟩ := link
  exact ⟨le, ev, more mem, rest⟩

/-- The issue events since the last join of a halted core, in the order in which
they were produced. -/
structure ChainOk
    (events : List Event) (starts : Nat → Option Nat) (chain : List IssueEvent) : Prop where
  produced : ∀ issue ∈ chain, ∃ ev ∈ events, ev.issue? = some issue
  pending : ∀ ev ∈ events, ∀ issue ∈ ev.issue?, starts issue.id = none → issue ∈ chain
  ordered : chain.Pairwise fun first second => first.id < second.id
  linked : chain.IsChain (Link events)
  rooted : ∀ root ∈ chain.head?, ∃ ev ∈ events, ev.issue? = some root ∧
    root.zllStartCycle ∈ ev.queued

instance : Trans (SkewLe starts) (SkewLe starts) (SkewLe starts) where
  trans := SkewLe.trans

theorem ChainOk.skewLe (ok : ChainOk events starts chain) (graph : Graph events starts) :
    chain.Pairwise (SkewLe starts) :=
  (ok.linked.imp fun _ _ link => link.skewLe graph).pairwise

/-- No issue event of the chain has started after this one. -/
def Latest (starts : Nat → Option Nat) (chain : List IssueEvent) (issue : IssueEvent) : Prop :=
  issue ∈ chain ∧ starts issue.id ≠ none ∧
    ∀ other ∈ chain, starts other.id ≠ none → other.id ≤ issue.id

theorem chainOk_root {root : IssueEvent} (mem : ev ∈ events) (isIssue : ev.issue? = some root)
    (queued : root.zllStartCycle ∈ ev.queued)
    (pending : ∀ other ∈ events, ∀ issue ∈ other.issue?, starts issue.id = none → issue = root) :
    ChainOk events starts [root] where
  produced := by
    intro issue isRoot
    rw [mem_singleton.mp isRoot]
    exact ⟨ev, mem, isIssue⟩
  pending := by
    intro other mem' issue isOther fresh
    exact mem_singleton.mpr (pending other mem' issue isOther fresh)
  ordered := pairwise_singleton _ _
  linked := isChain_singleton _
  rooted := by
    intro other isRoot
    simp only [head?_cons, mem_some_iff] at isRoot
    exact ⟨ev, mem, isRoot ▸ isIssue, isRoot ▸ queued⟩

variable (ok : ChainOk events starts chain)
include ok

/-- More events that are no issue events do not matter. -/
theorem ChainOk.more {extra : List Event} (noIssue : ∀ ev ∈ extra, ev.issue? = none) :
    ChainOk (events ++ extra) starts chain where
  produced := by
    intro issue mem
    obtain ⟨ev, old, isIssue⟩ := ok.produced issue mem
    exact ⟨ev, mem_append_left _ old, isIssue⟩
  pending := by
    intro ev mem issue isIssue
    rcases mem_append.mp mem with old | new
    · exact ok.pending ev old issue isIssue
    · simp [noIssue ev new] at isIssue
  ordered := ok.ordered
  linked := ok.linked.imp fun _ _ link =>
    link.mono (subset_append_left _ _)
  rooted := by
    intro root isRoot
    obtain ⟨ev, old, rest⟩ := ok.rooted root isRoot
    exact ⟨ev, mem_append_left _ old, rest⟩

theorem ChainOk.push (graph : Graph events starts) {last : IssueEvent}
    {delay : Nat} (isLast : chain.getLast? = some last)
    (id : ev.id = events.length) (isIssue : ev.issue? = some issue)
    (le : last.zllStartCycle ≤ issue.zllStartCycle) (isParent : (last.id, delay) ∈ ev.parents)
    (covers : issue.zllStartCycle ≤ last.zllStartCycle + delay + ev.preDelay) :
    ChainOk (events ++ [ev]) starts (chain ++ [issue]) where
  produced := by
    refine forall_mem_append.mpr ⟨fun other old => ?_, forall_mem_singleton.mpr ⟨ev, by simp, isIssue⟩⟩
    obtain ⟨source, insideSource, isOther⟩ := ok.produced other old
    exact ⟨source, mem_append_left _ insideSource, isOther⟩
  pending := by
    intro source mem other isOther fresh
    rcases mem_append.mp mem with old | new
    · exact mem_append_left _ (ok.pending source old other isOther fresh)
    · rw [mem_singleton.mp new, isIssue, mem_some_iff] at isOther
      simp [isOther]
  ordered := by
    refine pairwise_append.mpr ⟨ok.ordered, pairwise_singleton _ _, ?_⟩
    intro first mem second isSecond
    obtain ⟨source, insideSource, isFirst⟩ := ok.produced first mem
    rw [mem_singleton.mp isSecond, ← Event.id_of_issue isFirst, ← Event.id_of_issue isIssue, id]
    exact graph.id_lt insideSource
  linked := by
    refine isChain_append.mpr ⟨ok.linked.imp fun _ _ link =>
        link.mono (subset_append_left _ _), isChain_singleton _, ?_⟩
    intro first isFirst second isSecond
    rw [isLast, mem_some_iff] at isFirst
    simp only [head?_cons, mem_some_iff] at isSecond
    subst isFirst isSecond
    exact ⟨le, ev, by simp, isIssue, delay, isParent, covers⟩
  rooted := by
    have nonempty : chain ≠ [] := by
      rintro rfl
      simp at isLast
    intro root isRoot
    rw [head?_append_of_ne_nil _ nonempty] at isRoot
    obtain ⟨source, old, rest⟩ := ok.rooted root isRoot
    exact ⟨source, mem_append_left _ old, rest⟩

theorem ChainOk.start {id : Nat} : ChainOk events (update starts id (some startCycle)) chain :=
  { ok with
    pending := by
      intro ev mem issue isIssue fresh
      by_cases same : issue.id = id
      · simp [same] at fresh
      · rw [update_of_ne same] at fresh
        exact ok.pending ev mem issue isIssue fresh }

/-- What holds when an issue event of the chain starts: it is the first one, or
the one before it was the latest. -/
theorem ChainOk.starts_after (graph : Graph events starts) (mem : ev ∈ events)
    (isIssue : ev.issue? = some issue) (fresh : starts issue.id = none)
    (respects : ev.Respects starts startCycle) :
    ((∀ other ∈ chain, starts other.id = none) ∧ issue.zllStartCycle ≤ startCycle) ∨
      ∃ before, Latest starts chain before ∧ before.id < issue.id ∧
        ∃ beforeStart ∈ starts before.id, beforeStart + issue.zllStartCycle ≤
            startCycle + before.zllStartCycle := by
  have member := ok.pending ev mem issue isIssue fresh
  have skew := ok.skewLe graph
  obtain ⟨front, back, split⟩ := append_of_mem member
  -- nothing from this event on has started
  have later (other) (mem' : other ∈ back) : starts other.id = none := by
    rw [split, pairwise_append] at skew
    by_contra started
    obtain ⟨cycle, isCycle⟩ := ne_none_iff_exists'.mp started
    rcases (pairwise_cons.mp skew.2.1).1 other mem' cycle isCycle with ⟨issueStart, startedIssue, -⟩
    simp [fresh] at startedIssue
  rcases eq_nil_or_concat front with rfl | ⟨front, before, rfl⟩
  · left
    constructor
    · intro other mem'
      rw [split] at mem'
      rcases mem_cons.mp mem' with rfl | insideBack
      · exact fresh
      · exact later other insideBack
    · obtain ⟨root, insideRoot, isRoot, queued⟩ := ok.rooted issue (by simp [split])
      obtain rfl := graph.eq_of_id insideRoot mem
        ((Event.id_of_issue isRoot).trans (Event.id_of_issue isIssue).symm)
      have le := respects.2 _ queued
      omega
  · right
    have linked := ok.linked
    have ordered := ok.ordered
    rw [concat_eq_append] at split
    rw [split, append_assoc, singleton_append] at linked ordered
    rw [isChain_append, isChain_cons_cons] at linked
    rw [pairwise_append] at ordered
    obtain ⟨-, source, insideSource, isSource, delay, isParent, covers⟩ := linked.2.1.1
    obtain rfl := graph.eq_of_id insideSource mem
      ((Event.id_of_issue isSource).trans (Event.id_of_issue isIssue).symm)
    obtain ⟨beforeStart, started, le⟩ := Link.skewLe_of_respects respects isParent covers
    refine ⟨before, ⟨by simp [split], ?_, ?_⟩, ?_, beforeStart, started, le⟩
    · simp [mem_def.mp started]
    · intro other mem' started'
      simp only [split, append_assoc, singleton_append, mem_append, mem_cons] at mem'
      rcases mem' with early | rfl | rfl | late
      · exact (ordered.2.2 other early before (by simp)).le
      · exact le_rfl
      · exact absurd fresh started'
      · exact absurd (later other late) started'
    · exact (pairwise_cons.mp ordered.2.1).1 issue (by simp)

end Chain

open Library.Checked

/-! ## The responses that are linked -/

/-- The latest of the responses that are linked with an issue event, or the start
if there is none. -/
def latestPrior (zllCycle : Nat) : Nat → List FutureResponse → Nat
  | start, [] => start
  | start, response :: rest =>
    if response.zllStartCycle < zllCycle ∧ response.ev.isSome then
      latestPrior zllCycle (max start response.zllStartCycle) rest
    else latestPrior zllCycle start rest

/-- The delays of a new issue event, from the last one to the latest linked
response and from there on, fit into 32 bits. -/
def IssueFits (cRec : OOOCoreRecorder) (evCycle : Nat) : Prop :=
  ∀ last ∈ cRec.lastEvProduced, latestPrior (evCycle - cRec.gapCycles) last.zllStartCycle
        cRec.futureResponses - last.zllStartCycle < 2 ^ 32 ∧
      evCycle - cRec.gapCycles - latestPrior (evCycle - cRec.gapCycles) last.zllStartCycle
          cRec.futureResponses < 2 ^ 32

instance (cRec : OOOCoreRecorder) (evCycle : Nat) : Decidable (cRec.IssueFits evCycle) :=
  inferInstanceAs (Decidable (∀ last ∈ cRec.lastEvProduced, _ ∧ _))

section Responses

variable {lastZllCycle zllCycle maxCycle : Nat}
variable {responses : List FutureResponse}

/-- The order of the priority queue. -/
def Sorted (responses : List FutureResponse) : Prop := responses.Pairwise fun first second =>
    first.zllStartCycle ≤ second.zllStartCycle

theorem Sorted.push (sorted : Sorted responses) (resp : FutureResponse) :
    Sorted (responses.orderedInsert (fun first second => first.zllStartCycle ≤ second.zllStartCycle)
      resp) := List.Pairwise.orderedInsert resp responses sorted

theorem latestPrior_max (zllCycle start other : Nat) (responses : List FutureResponse) :
    latestPrior zllCycle (max start other) responses =
      max start (latestPrior zllCycle other responses) := by
  induction responses generalizing other with
  | nil => rfl
  | cons resp rest ih =>
    rw [latestPrior, latestPrior]
    split
    · rw [Nat.max_assoc, ih]
    · exact ih other

theorem latestPrior_eq_or_mem (zllCycle start : Nat) (responses : List FutureResponse) :
    latestPrior zllCycle start responses = start ∨
      ∃ resp ∈ responses, resp.zllStartCycle < zllCycle ∧
        latestPrior zllCycle start responses = resp.zllStartCycle := by
  induction responses generalizing start with
  | nil => exact .inl rfl
  | cons resp rest ih =>
    rw [latestPrior]
    split
    · next live =>
      rcases ih (max start resp.zllStartCycle) with
        same | ⟨other, mem, lt, same⟩
      · rw [same]
        rcases le_total start resp.zllStartCycle with le | le
        · rw [max_eq_right le]
          exact .inr ⟨resp, by simp, live.1, rfl⟩
        · exact .inl (max_eq_left le)
      · exact .inr ⟨other, mem_cons_of_mem _ mem, lt, same⟩
    · rcases ih start with same | ⟨other, mem, lt, same⟩
      · exact .inl same
      · exact .inr ⟨other, mem_cons_of_mem _ mem, lt, same⟩

theorem latestPrior_late (start : Nat) (late : ∀ resp ∈ responses, zllCycle ≤ resp.zllStartCycle) :
    latestPrior zllCycle start responses = start := by
  rcases latestPrior_eq_or_mem zllCycle start responses with
    same | ⟨resp, mem, lt, -⟩
  · exact same
  · exact absurd lt (not_lt.mpr (late resp mem))

/-- What the loop over the responses returns. -/
structure Links (zllCycle maxCycle : Nat) (responses : List FutureResponse)
    (linked : List Nat) (result : Nat × List Nat × List FutureResponse) :
    Prop where
  latest : result.1 = latestPrior zllCycle maxCycle responses
  le : maxCycle ≤ result.1
  rest : result.2.2.Sublist responses
  later : ∀ response ∈ result.2.2, zllCycle ≤ response.zllStartCycle
  linked : ∀ ev ∈ result.2.1, ev ∈ linked ∨ ∃ response ∈ responses, response.ev = some ev ∧
      response.zllStartCycle ≤ result.1

theorem linkResponses_spec (sorted : Sorted responses)
    (above : ∀ resp ∈ responses, lastZllCycle ≤ resp.zllStartCycle)
    (least : ∀ resp ∈ responses, maxCycle ≤ resp.zllStartCycle) (linked : List Nat) :
    Gives (linkResponses lastZllCycle zllCycle maxCycle linked responses)
      (Links zllCycle maxCycle responses linked) := by
  induction responses generalizing maxCycle linked with
  | nil =>
    exact .ok ⟨rfl, le_rfl, List.Sublist.refl _, by simp, fun ev mem => .inl mem⟩
  | cons firstResp rest ih =>
    obtain ⟨first, sortedRest⟩ := pairwise_cons.mp sorted
    have aboveRest := fun resp mem =>
      above resp (mem_cons_of_mem _ mem)
    rw [linkResponses]
    split
    · next late =>
      -- the queue is sorted, so all the others are late as well
      have allLate (resp) (mem : resp ∈ firstResp :: rest) : zllCycle ≤ resp.zllStartCycle := by
        rcases mem_cons.mp mem with rfl | insideRest
        · exact late
        · exact late.trans (first resp insideRest)
      exact .ok ⟨(latestPrior_late maxCycle allLate).symm, le_rfl,
          List.Sublist.refl _, allLate, fun ev mem => .inl mem⟩
    · next early =>
      cases isEv : firstResp.ev with
      | none =>
        apply (ih sortedRest aboveRest (fun resp mem =>
            least resp (mem_cons_of_mem _ mem)) linked).mono
        intro res links
        refine {
          latest := links.latest.trans ?_
          le := links.le
          rest := links.rest.cons _
          later := links.later
          linked := fun ev mem => ?_ }
        · rw [latestPrior, if_neg (by simp [isEv])]
        · rcases links.linked ev mem with old | ⟨resp, found⟩
          · exact .inl old
          · exact .inr ⟨resp, mem_cons_of_mem _ found.1, found.2⟩
      | some ev =>
        refine .check (least firstResp (by simp)) ?_
        refine .check (above firstResp (by simp)) ?_
        apply (ih sortedRest aboveRest first (linked ++ [ev])).mono
        intro res links
        have before := least firstResp (by simp)
        refine {
          latest := links.latest.trans ?_
          le := before.trans links.le
          rest := links.rest.cons _
          later := links.later
          linked := fun other mem => ?_ }
        · rw [latestPrior, if_pos ⟨Nat.lt_of_not_le early, by simp [isEv]⟩, Nat.max_eq_right before]
        · rcases links.linked other mem with old | ⟨resp, found⟩
          · rcases mem_append.mp old with older | new
            · exact .inl older
            · rw [mem_singleton.mp new]
              exact .inr ⟨firstResp, by simp, isEv, links.le⟩
          · exact .inr ⟨resp, mem_cons_of_mem _ found.1, found.2⟩

end Responses

/-! ## The delays of the links -/

section AddIssue

variable {cRec : OOOCoreRecorder} {last : IssueEvent} {evCycle : Nat}

/-- What `addIssueEvent` adds: the delays of the new issue event make up its
distance to the last one. -/
def Added (cRec : OOOCoreRecorder) (last : IssueEvent) (evCycle : Nat)
    (next : OOOCoreRecorder) : Prop :=
  ∃ (preDelay issueDelay : Nat) (linked : List Nat) (rest : List FutureResponse),
    next = { cRec with futureResponses := rest }.produceIssue
      (evCycle - cRec.gapCycles) preDelay evCycle none
      (linked.map (fun ev => (ev, 0)) ++ [(last.id, issueDelay)]) ∧
    last.zllStartCycle + issueDelay + preDelay = evCycle - cRec.gapCycles ∧
    rest.Sublist cRec.futureResponses ∧
    (∀ response ∈ rest, evCycle - cRec.gapCycles ≤ response.zllStartCycle) ∧
    ∀ ev ∈ linked, ∃ response ∈ cRec.futureResponses,
      response.ev = some ev ∧ response.zllStartCycle + preDelay ≤ evCycle - cRec.gapCycles

theorem Added.setState {next : OOOCoreRecorder}
    (added : Added cRec last evCycle next) (state : State) :
    Added { cRec with state } last evCycle { next with state } := by
  obtain ⟨preDelay, issueDelay, linked, rest, rfl, facts⟩ := added
  exact ⟨preDelay, issueDelay, linked, rest, rfl, facts⟩

/-- What a new issue event leaves in the recorder. -/
theorem Added.recorded {next : OOOCoreRecorder} (added : Added cRec last evCycle next) :
    next.lastEvProduced = some ⟨cRec.events.length, evCycle - cRec.gapCycles, evCycle⟩ ∧
      next.state = cRec.state ∧ next.gapCycles = cRec.gapCycles ∧
      (∀ resp ∈ next.futureResponses, evCycle - cRec.gapCycles ≤ resp.zllStartCycle) ∧
      next.events.length = cRec.events.length + 1 := by
  obtain ⟨preDelay, issueDelay, linked, rest, rfl, -, -, late, -⟩ := added
  exact ⟨rfl, rfl, rfl, late, by simp [produceIssue, produce]⟩

/-- The delays of a new issue event, which `addIssueEvent` cuts to 32 bits. -/
theorem issue_delays {lastZllCycle zllCycle maxCycle : Nat} (le : lastZllCycle ≤ zllCycle)
    (between : maxCycle = 0 ∨ lastZllCycle ≤ maxCycle ∧ maxCycle < zllCycle)
    (first : max lastZllCycle maxCycle - lastZllCycle < 2 ^ 32)
    (second : zllCycle - max lastZllCycle maxCycle < 2 ^ 32) :
    let preDelay := if maxCycle ≠ 0 then
        if maxCycle < zllCycle then delay32 zllCycle maxCycle else 0
      else 0
    lastZllCycle + delay32 zllCycle (lastZllCycle + preDelay) + preDelay = zllCycle ∧
      maxCycle + preDelay ≤ zllCycle := by
  rcases Nat.eq_zero_or_pos maxCycle with rfl | positive
  · have fits : zllCycle - lastZllCycle < 2 ^ 32 := by simpa using second
    simp only [ne_eq, not_true, if_false, add_zero, delay32_eq le fits]
    omega
  have mem : lastZllCycle ≤ maxCycle ∧ maxCycle < zllCycle := between.resolve_left positive.ne'
  rw [max_eq_right mem.1] at first second
  have preDelay : delay32 zllCycle maxCycle = zllCycle - maxCycle := delay32_eq mem.2.le second
  have issueDelay :
      delay32 zllCycle (lastZllCycle + (zllCycle - maxCycle)) = maxCycle - lastZllCycle := by
    rw [delay32_eq (by omega) (by omega)]
    omega
  simp only [ne_eq, positive.ne', not_false_iff, if_true, mem.2, preDelay]
  omega

theorem addIssueEvent_spec (isLast : cRec.lastEvProduced = some last)
    (le : last.zllStartCycle ≤ evCycle - cRec.gapCycles)
    (sorted : Sorted cRec.futureResponses)
    (above : ∀ resp ∈ cRec.futureResponses, last.zllStartCycle ≤ resp.zllStartCycle)
    (fits : cRec.IssueFits evCycle) :
    Gives (cRec.addIssueEvent evCycle) (Added cRec last evCycle) := by
  have fitsLast := fits last isLast
  rw [addIssueEvent, isLast]
  refine .check le ?_
  apply (linkResponses_spec sorted above (fun resp _ => Nat.zero_le resp.zllStartCycle) []).bind
  rintro ⟨maxCycle, linked, rest⟩ links
  have latest : maxCycle = _ := links.latest
  have joint := latestPrior_max (evCycle - cRec.gapCycles) last.zllStartCycle 0 cRec.futureResponses
  rw [Nat.max_zero, ← latest] at joint
  rw [joint] at fitsLast
  have between : maxCycle = 0 ∨ last.zllStartCycle ≤ maxCycle ∧
      maxCycle < evCycle - cRec.gapCycles := by
    rw [latest]
    rcases latestPrior_eq_or_mem (evCycle - cRec.gapCycles) 0
      cRec.futureResponses with zero | ⟨resp, mem, lt, same⟩
    · exact .inl zero
    · rw [same]
      exact .inr ⟨above resp mem, lt⟩
  have delays := issue_delays le between fitsLast.1 fitsLast.2
  refine .pure ⟨_, _, linked, rest, rfl, delays.1, links.rest, links.later, fun ev mem => ?_⟩
  rcases links.linked ev mem with absent | ⟨resp, found, isEv, before⟩
  · simp at absent
  · exact ⟨resp, found, isEv, (Nat.add_le_add_right before _).trans delays.2⟩

/-- A short distance between the issue events is enough. -/
theorem issueFits_of_lt (isLast : cRec.lastEvProduced = some last)
    (above : ∀ resp ∈ cRec.futureResponses, last.zllStartCycle ≤ resp.zllStartCycle)
    (short : evCycle - cRec.gapCycles - last.zllStartCycle < 2 ^ 32) :
    cRec.IssueFits evCycle := by
  intro other isOther
  rw [isLast, Option.mem_some_iff] at isOther
  subst isOther
  rcases latestPrior_eq_or_mem (evCycle - cRec.gapCycles)
    last.zllStartCycle cRec.futureResponses with
      same | ⟨resp, mem, lt, same⟩
  · omega
  · have le := above resp mem
    omega

end AddIssue

end Damov.Weave.OOOCoreRecorder
