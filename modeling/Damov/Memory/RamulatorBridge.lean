import Damov.Coherence.MemoryHierarchy
import Damov.Library.Maps
import Damov.Weave.TimingEvent

/-!
# The bridge to Ramulator

`Ramulator` hands the memory accesses of the weave phase to Ramulator and
completes them when the memory calls back. An event whose request is accepted
is held in `inflightRequests`, which is keyed by the address; one whose request
is refused waits in `overflowQueue`. Both callbacks do the same: they finish the
oldest event of the address. So the events and the counters are right as long as
the types of the completed requests come in the order of their acceptance, address
by address.

The memory is any memory that accepts or refuses each request and later
completes the accepted ones in any order.
-/

namespace Damov.Memory

open Coherence (Address)
open Library
open Library.Checked
open Weave (EventState)
open Function

/-! ## Requests and events -/

inductive RequestType where
  | READ
  | WRITE
  deriving DecidableEq

/-- `addr` is the address before the memory slices it. -/
structure Request where
  addr : Address
  type : RequestType
  coreid : Nat
  deriving DecidableEq

structure RamulatorAccEvent where
  id : Nat
  write : Bool
  addr : Address
  coreid : Nat
  deriving DecidableEq

namespace RamulatorAccEvent

def type (ev : RamulatorAccEvent) : RequestType := if ev.write then .WRITE else .READ

/-- The request that is sent for an event. -/
def request (ev : RamulatorAccEvent) : Request := ⟨ev.addr, ev.type, ev.coreid⟩

end RamulatorAccEvent

inductive BridgeFailure where
  | runState
  | holdState
  | releaseState
  | notRequested
  deriving DecidableEq

/-- An event that was finished by the callback of a request. -/
structure Completion where
  ev : RamulatorAccEvent
  req : Request
  doneCycle : Nat
  deriving DecidableEq

/-- The controller, with the states of its events and what it has finished. -/
structure Ramulator where
  inflightRequests : Multimap Address RamulatorAccEvent
  overflowQueue : List RamulatorAccEvent
  inflightR : Int
  inflightW : Int
  curCycle : Nat
  state : Nat → EventState
  completions : List Completion

namespace Ramulator

def initial : Ramulator where
  inflightRequests := []
  overflowQueue := []
  inflightR := 0
  inflightW := 0
  curCycle := 0
  state := fun _ => .none
  completions := []

/-- Add to the counter of the requests of this type. -/
def count (type : RequestType) (change : Int) (dram : Ramulator) : Ramulator :=
  match type with
  | .READ => { dram with inflightR := dram.inflightR + change }
  | .WRITE => { dram with inflightW := dram.inflightW + change }

/-- The outcome of an operation. -/
abbrev Result := Except BridgeFailure Ramulator

/-- The request of an event has been accepted. -/
def accept (ev : RamulatorAccEvent) (dram : Ramulator) : Result := do
  check (dram.state ev.id = .running) .holdState
  return { dram.count ev.type 1 with
    inflightRequests := dram.inflightRequests.insertPair ev.addr ev
    state := update dram.state ev.id .held }

def enqueue (ev : RamulatorAccEvent) (accepted : Bool) (dram : Ramulator) : Result :=
  if accepted then dram.accept ev
  else .ok { dram with overflowQueue := dram.overflowQueue ++ [ev] }

/-- `TimingEvent::run` calls `simulate`, which enqueues the event. -/
def run (ev : RamulatorAccEvent) (accepted : Bool) (dram : Ramulator) : Result := do
  check (dram.state ev.id = .none ∨ dram.state ev.id = .queued) .runState
  { dram with state := update dram.state ev.id .running }.enqueue ev accepted

/-- Send the oldest event that overflowed once more; `accepted` is the answer of
the memory. -/
def retry (accepted : Bool) (dram : Ramulator) : Result :=
  match dram.overflowQueue with
  | ev :: rest =>
    if accepted then { dram with overflowQueue := rest }.accept ev
    else .ok dram
  | [] => .ok dram

/-- `tick` after the memory has ticked. -/
def tick (accepted : Bool) (dram : Ramulator) : Result := do
  let retried ← dram.retry accepted
  return { retried with curCycle := retried.curCycle + 1 }

/-- `DRAM_read_return_cb`; the callback for writes calls it as well. -/
def returnCb (req : Request) (dram : Ramulator) : Result :=
  match dram.inflightRequests.findKey req.addr with
  | none => .error .notRequested
  | some ev => do
      check (dram.state ev.id = .held) .releaseState
      return { dram.count ev.type (-1) with
        state := update dram.state ev.id .done
        completions := dram.completions ++ [⟨ev, req, dram.curCycle + 1⟩]
        inflightRequests := dram.inflightRequests.eraseKey req.addr }

end Ramulator

/-! ## The controller and its memory -/

/-- `outstanding` are the requests that the memory has accepted and not
completed. The histories record which events ran, and which requests were
accepted and completed. -/
structure Bridge where
  dram : Ramulator
  outstanding : List Request
  accepted : List Request
  completed : List Request
  enqueued : List RamulatorAccEvent

namespace Bridge

inductive Op where
  /-- An event runs, and the memory accepts its request or not. -/
  | run (ev : RamulatorAccEvent) (accepted : Bool)
  /-- The memory completes a request while it ticks. -/
  | complete (req : Request)
  | tick (accepted : Bool)

def initial : Bridge where
  dram := .initial
  outstanding := []
  accepted := []
  completed := []
  enqueued := []

/-- The memory takes a request. -/
def send (ev : RamulatorAccEvent) (br : Bridge) : Bridge :=
  { br with
    outstanding := br.outstanding ++ [ev.request]
    accepted := br.accepted ++ [ev.request] }

variable (br : Bridge)

def step : Op → Except BridgeFailure Bridge
  | .run ev accepted => do
      let dram ← br.dram.run ev accepted
      let sent := if accepted then br.send ev else br
      return { sent with dram, enqueued := br.enqueued ++ [ev] }
  | .complete req => do
      let dram ← br.dram.returnCb req
      return { br with
        dram
        outstanding := br.outstanding.erase req
        completed := br.completed ++ [req] }
  | .tick accepted => do
      let dram ← br.dram.tick accepted
      let sent :=
        match br.dram.overflowQueue with
        | ev :: _ => if accepted then br.send ev else br
        | [] => br
      return { sent with dram }

def runOps (ops : List Op) : Except BridgeFailure Bridge := ops.foldlM step initial

/-- An event runs once, and the memory completes what it has accepted. -/
def Allowed : Op → Prop
  | .run ev _ => ev.id ∉ br.enqueued.map RamulatorAccEvent.id
  | .complete req => req ∈ br.outstanding
  | .tick _ => True

instance (br : Bridge) : DecidablePred br.Allowed
  | .run .. => by dsimp only [Allowed]; infer_instance
  | .complete _ => by dsimp only [Allowed]; infer_instance
  | .tick _ => by dsimp only [Allowed]; infer_instance

/-- The types of the requests for an address, in order. -/
def typesAt (addr : Address) (reqs : List Request) : List RequestType :=
  (reqs.filter fun req => req.addr = addr).map Request.type

/-- The `n`-th request that is completed for an address is of the type of the
`n`-th one that was accepted for it. -/
def InOrder : Op → Prop
  | .complete req =>
    (typesAt req.addr br.accepted)[ (typesAt req.addr br.completed).length]? = some req.type
  | _ => True

instance (br : Bridge) : DecidablePred br.InOrder
  | .run .. => by dsimp only [InOrder]; infer_instance
  | .complete _ => by dsimp only [InOrder]; infer_instance
  | .tick _ => by dsimp only [InOrder]; infer_instance

end Bridge

namespace Bridge

open List

variable {br : Bridge} {hand : List RamulatorAccEvent}
variable {ev : RamulatorAccEvent} {req : Request}

/-! ## The invariant -/

/-- The events that the controller has to finish. -/
def unfinished (br : Bridge) : List RamulatorAccEvent :=
  br.dram.overflowQueue ++ br.dram.inflightRequests.map Prod.snd

def finished (br : Bridge) : List RamulatorAccEvent := br.dram.completions.map Completion.ev

/-- While an event is handled it is in the hand of the controller. -/
structure Inv (hand : List RamulatorAccEvent) (br : Bridge) : Prop where
  ids : (br.enqueued.map RamulatorAccEvent.id).Nodup
  partition : (hand ++ br.finished ++ br.unfinished).Perm br.enqueued
  fresh : ∀ id ∉ br.enqueued.map RamulatorAccEvent.id, br.dram.state id = .none
  running : ∀ ev ∈ hand ++ br.dram.overflowQueue, br.dram.state ev.id = .running
  held : ∀ pair ∈ br.dram.inflightRequests, pair.1 = pair.2.addr ∧ br.dram.state pair.2.id = .held
  progress : ∀ addr, (typesAt addr br.completed).length ≤ (typesAt addr br.accepted).length
  order : ∀ addr, (br.dram.inflightRequests.valuesOf addr).map RamulatorAccEvent.type =
    (typesAt addr br.accepted).drop (typesAt addr br.completed).length
  outstanding : (br.outstanding.map fun req => (req.addr, req.type)).Perm
      (br.dram.inflightRequests.map fun pair => (pair.1, pair.2.type))
  reads : br.dram.inflightR = ((br.dram.inflightRequests.map
    fun pair => pair.2.type).count .READ : Nat)
  writes : br.dram.inflightW = ((br.dram.inflightRequests.map
    fun pair => pair.2.type).count .WRITE : Nat)
  matched : ∀ completion ∈ br.dram.completions,
    completion.ev.addr = completion.req.addr ∧ completion.ev.type = completion.req.type

theorem inv_initial : Inv [] initial := by
  constructor <;> simp [initial, Ramulator.initial, finished, unfinished, Multimap.valuesOf]

/-- Events with the same identifier are the same. -/
theorem Inv.id_ne (inv : Inv hand br) (first second : List RamulatorAccEvent)
    (split : (first ++ second).Perm (hand ++ br.finished ++
      br.unfinished)) {one two : RamulatorAccEvent}
    (insideOne : one ∈ first) (insideTwo : two ∈ second) :
    one.id ≠ two.id := by
  have nodup := ((split.trans inv.partition).map RamulatorAccEvent.id).nodup_iff.mpr inv.ids
  rw [map_append, nodup_append] at nodup
  exact nodup.2.2 one.id (mem_map_of_mem insideOne) two.id (mem_map_of_mem insideTwo)

/-! ## Moving an event -/

theorem Inv.start (inv : Inv [] br) (new : ev.id ∉ br.enqueued.map RamulatorAccEvent.id) :
    Inv [ev] { br with
      dram := { br.dram with
        state := update br.dram.state ev.id .running }
      enqueued := br.enqueued ++ [ev] } := by
  have other : ∀ member ∈ br.unfinished, member.id ≠ ev.id := by
    intro member mem same
    apply new
    rw [← same]
    exact mem_map_of_mem (inv.partition.subset (mem_append_right _ mem))
  refine { inv with
    ids := ?_
    partition := ?_
    fresh := fun id absent => ?_
    running := ?_
    held := fun pair mem => ?_ }
  · rw [map_append, nodup_append]
    exact ⟨inv.ids, nodup_singleton _, fun id mem =>
      forall_mem_singleton.mpr (ne_of_mem_of_not_mem mem new)⟩
  · rw [append_assoc]
    exact (perm_append_comm).trans (inv.partition.append_right [ev])
  · simp only [map_append, mem_append, not_or, map_singleton, mem_singleton] at absent
    dsimp only
    rw [update_of_ne absent.2]
    exact inv.fresh id absent.1
  · refine forall_mem_append.mpr ⟨forall_mem_singleton.mpr (update_self _ _ _),
      fun member waiting => ?_⟩
    dsimp only
    rw [update_of_ne (other member (mem_append_left _ waiting))]
    exact inv.running member waiting
  · have kept := inv.held pair mem
    refine ⟨kept.1, ?_⟩
    dsimp only
    rw [update_of_ne (other pair.2 (mem_append_right _ (mem_map_of_mem mem)))]
    exact kept.2

/-- The request of the event was refused. -/
theorem Inv.overflow (inv : Inv [ev] br) : Inv [] { br with
      dram := { br.dram with
        overflowQueue := br.dram.overflowQueue ++ [ev] } } :=
  { inv with
    partition := by
      refine List.Perm.trans ?_ inv.partition
      simp only [finished, unfinished, perm_iff_count, count_append, count_nil]
      intro member
      omega
    running := by
      intro member mem
      refine inv.running member ?_
      simpa [or_comm] using mem }

/-- The oldest event that overflowed is sent once more. -/
theorem Inv.retry (inv : Inv [] br) {rest : List RamulatorAccEvent}
    (isOldest : br.dram.overflowQueue = ev :: rest) :
    Inv [ev] { br with
      dram := { br.dram with overflowQueue := rest } } :=
  { inv with
    partition := by
      refine List.Perm.trans ?_ inv.partition
      simp only [finished, unfinished, isOldest, perm_iff_count,
        count_append, count_cons, count_nil]
      intro member
      omega
    running := by
      intro member mem
      refine inv.running member ?_
      simpa [isOldest] using mem }

theorem typesAt_concat (addr : Address) (reqs : List Request) (req : Request) :
    typesAt addr (reqs ++ [req]) = if addr = req.addr then typesAt addr reqs ++ [req.type]
      else typesAt addr reqs := by
  by_cases same : addr = req.addr
  · simp [same, typesAt]
  · simp [same, Ne.symm same, typesAt]

variable (dram : Ramulator) (type : RequestType)

/-- The counters follow the types of the requests in flight. -/
theorem reads_count (change : Int) :
    (dram.count type change).inflightR = dram.inflightR + if type = .READ then change else 0 := by
  cases type <;> simp [Ramulator.count]

theorem writes_count (change : Int) :
    (dram.count type change).inflightW = dram.inflightW + if type = .WRITE then change else 0 := by
  cases type <;> simp [Ramulator.count]

theorem count_completions (change : Int) : (dram.count type change).completions = dram.completions ∧
      (dram.count type change).overflowQueue = dram.overflowQueue := by
  cases type <;> exact ⟨rfl, rfl⟩

theorem accept_spec (inv : Inv [ev] br) :
    Gives (br.dram.accept ev) (fun dram => Inv [] { br.send ev with dram }) := by
  have other (member) (mem : member ∈ br.unfinished) : member.id ≠ ev.id := by
    refine (inv.id_ne [ev] (br.finished ++ br.unfinished) ?_ (by simp)
      (mem_append_right _ mem)).symm
    rw [append_assoc]
  refine .check (inv.running ev (by simp)) ?_
  refine .pure ?_
  have kept := count_completions br.dram ev.type 1
  refine {
    ids := inv.ids
    partition := ?_
    fresh := fun id absent => ?_
    running := fun member mem => ?_
    held := ?_
    progress := fun addr => ?_
    order := fun addr => ?_
    outstanding := ?_
    reads := ?_
    writes := ?_
    matched := by simpa [kept.1] using inv.matched }
  · refine List.Perm.trans ?_ inv.partition
    simp only [finished, unfinished, kept.1, kept.2, Multimap.insertPair,
      map_append, map_cons, map_nil, perm_iff_count,
      count_append, count_cons, count_nil]
    intro member
    omega
  · have ne : id ≠ ev.id := by
      rintro rfl
      exact absent (mem_map_of_mem (inv.partition.subset (by simp)))
    dsimp only
    rw [update_of_ne ne]
    exact inv.fresh id absent
  · rw [kept.2] at mem
    dsimp only
    rw [update_of_ne (other member (mem_append_left _ mem))]
    exact inv.running member (mem_cons_of_mem _ mem)
  · refine forall_mem_append.mpr ⟨fun pair old => ?_,
      forall_mem_singleton.mpr ⟨rfl, update_self _ _ _⟩⟩
    have before := inv.held pair old
    refine ⟨before.1, ?_⟩
    dsimp only
    rw [update_of_ne (other pair.2 (mem_append_right _ (mem_map_of_mem old)))]
    exact before.2
  · rw [send, typesAt_concat]
    have before := inv.progress addr
    split
    · rw [length_append]
      exact Nat.le_add_right_of_le before
    · exact before
  · rw [send, typesAt_concat, Multimap.valuesOf_insertPair]
    have before := inv.order addr
    by_cases same : addr = ev.addr
    · have isAddr : addr = ev.request.addr := same
      rw [if_pos same, if_pos isAddr, map_append, before,
        drop_append_of_le_length (inv.progress addr)]
      rfl
    · have notAddr : addr ≠ ev.request.addr := same
      rwa [if_neg same, if_neg notAddr]
  · simp only [send, Multimap.insertPair, map_append]
    exact inv.outstanding.append_right _
  · have before := inv.reads
    rw [reads_count, before, Multimap.insertPair]
    cases isType : ev.type <;> simp [isType]
  · have before := inv.writes
    rw [writes_count, before, Multimap.insertPair]
    cases isType : ev.type <;> simp [isType]

/-! ## A callback -/

section

variable (inv : Inv [] br)
include inv

section

variable (isOutstanding : req ∈ br.outstanding)
  (inOrder : (typesAt req.addr br.accepted)[ (typesAt req.addr br.completed).length]? = some req.type)
include isOutstanding inOrder

/-- The callback finds an event of the right address and, if the types are in
order, of the right type. -/
theorem Inv.oldest : ∃ ev, br.dram.inflightRequests.findKey req.addr = some ev ∧
      ev.addr = req.addr ∧ ev.type = req.type := by
  have mem : (req.addr, req.type) ∈
      br.dram.inflightRequests.map fun pair => (pair.1, pair.2.type) :=
    inv.outstanding.subset (mem_map_of_mem isOutstanding)
  obtain ⟨pair, isPair, same⟩ := mem_map.mp mem
  obtain ⟨ev, found⟩ : ∃ ev, br.dram.inflightRequests.findKey req.addr = some ev := by
    apply Multimap.findKey_isSome pair.2
    rwa [← (Prod.mk.inj same).1]
  refine ⟨ev, found, (inv.held _ (Multimap.findKey_mem found)).1.symm, ?_⟩
  have head := congrArg head? (inv.order req.addr)
  rw [head?_map, ← Multimap.findKey_eq_head, found, head?_drop, inOrder] at head
  exact Option.some.inj head

theorem returnCb_spec :
    Gives (br.dram.returnCb req) (fun dram => Inv [] { br with
        dram
        outstanding := br.outstanding.erase req
        completed := br.completed ++ [req] }) := by
  obtain ⟨ev, found, addr, type⟩ := inv.oldest isOutstanding inOrder
  have removed := Multimap.perm_eraseKey found
  have rest := fun pair (mem : pair ∈
      br.dram.inflightRequests.eraseKey req.addr) =>
    removed.symm.subset (mem_cons_of_mem _ mem)
  have values := removed.map Prod.snd
  have types := removed.map fun pair => pair.2.type
  have other : ∀ member ∈ br.dram.overflowQueue ++
      (br.dram.inflightRequests.eraseKey req.addr).map Prod.snd,
      member.id ≠ ev.id := by
    intro member mem
    refine (inv.id_ne [ev] (br.finished ++ (br.dram.overflowQueue ++
      (br.dram.inflightRequests.eraseKey req.addr).map Prod.snd)) ?_
      (by simp) (mem_append_right _ mem)).symm
    simp only [unfinished, perm_iff_count, count_append, values.count_eq]
    intro member
    simp only [map_cons, count_cons, count_nil]
    omega
  rw [Ramulator.returnCb, found]
  refine .check (inv.held _ (Multimap.findKey_mem found)).2 ?_
  refine .pure ?_
  have kept := count_completions br.dram ev.type (-1)
  have progressed := (List.getElem?_eq_some_iff.mp inOrder).1
  refine {
    ids := inv.ids
    partition := ?_
    fresh := fun id absent => ?_
    running := fun member mem => ?_
    held := fun pair mem => ?_
    progress := fun addr => ?_
    order := fun addr => ?_
    outstanding := ?_
    reads := ?_
    writes := ?_
    matched := ?_ }
  · refine List.Perm.trans ?_ inv.partition
    simp only [finished, unfinished, kept.2, perm_iff_count,
      count_append, nil_append, values.count_eq, map_append]
    intro member
    simp only [map_cons, map_nil, count_cons, count_nil]
    omega
  · have ne : id ≠ ev.id := by
      rintro rfl
      refine absent (mem_map_of_mem (inv.partition.subset ?_))
      exact mem_append_right _ (mem_append_right _ (mem_map_of_mem (Multimap.findKey_mem found)))
    dsimp only
    rw [update_of_ne ne]
    exact inv.fresh id absent
  · rw [kept.2] at mem
    dsimp only
    rw [update_of_ne (other member (mem_append_left _ mem))]
    exact inv.running member mem
  · have before := inv.held pair (rest pair mem)
    refine ⟨before.1, ?_⟩
    dsimp only
    rw [update_of_ne (other pair.2 (mem_append_right _ (mem_map_of_mem mem)))]
    exact before.2
  · rw [typesAt_concat]
    split
    · next same =>
      rwa [same, length_append]
    · exact inv.progress addr
  · have before := inv.order addr
    rw [typesAt_concat, Multimap.valuesOf_eraseKey]
    by_cases same : addr = req.addr
    · rw [if_pos same, if_pos same, map_tail, before, tail_drop, length_append, length_singleton]
    · rwa [if_neg same, if_neg same]
  · have both := (inv.outstanding.trans (removed.map fun pair => (pair.1, pair.2.type)))
    rw [map_cons, type] at both
    exact (((perm_cons_erase isOutstanding).map _).symm.trans both).cons_inv
  · have before := inv.reads
    rw [reads_count, before, types.count_eq, map_cons, count_cons]
    simp only [beq_iff_eq]
    split <;> omega
  · have before := inv.writes
    rw [writes_count, before, types.count_eq, map_cons, count_cons]
    simp only [beq_iff_eq]
    split <;> omega
  · exact forall_mem_append.mpr ⟨inv.matched, forall_mem_singleton.mpr ⟨addr, type⟩⟩

end

/-! ## Runs -/

theorem run_spec (new : ev.id ∉ br.enqueued.map RamulatorAccEvent.id) (accepted : Bool) :
    Gives (br.step (.run ev accepted)) (Inv []) := by
  have started := inv.start new
  rw [step, Ramulator.run, bind_assoc]
  refine .check (.inl (inv.fresh ev.id new)) ?_
  cases accepted with
  | true =>
    apply (accept_spec started).bind
    exact fun dram next => Gives.pure next
  | false => exact .pure started.overflow

theorem Inv.tock : Inv [] { br with
      dram := { br.dram with curCycle := br.dram.curCycle + 1 } } :=
  { inv with }

theorem tick_spec (accepted : Bool) : Gives (br.step (.tick accepted)) (Inv []) := by
  rw [step, Ramulator.tick, bind_assoc, Ramulator.retry]
  cases isQueue : br.dram.overflowQueue with
  | nil => exact .pure inv.tock
  | cons ev rest =>
    cases accepted with
    | true =>
      apply (accept_spec (inv.retry isQueue)).bind
      exact fun dram next => Gives.pure next.tock
    | false => exact .pure inv.tock

end

/-- Each event is finished once, by a callback of its type and address, and the
counters are right. -/
structure Correct (br : Bridge) : Prop where
  once : (br.finished ++ br.unfinished).Perm br.enqueued
  distinct : (br.enqueued.map RamulatorAccEvent.id).Nodup
  matched : ∀ completion ∈ br.dram.completions,
    completion.ev.addr = completion.req.addr ∧ completion.ev.type = completion.req.type
  reads : br.dram.inflightR = ((br.outstanding.map Request.type).count .READ : Nat)
  writes : br.dram.inflightW = ((br.outstanding.map Request.type).count .WRITE : Nat)

theorem Inv.correct (inv : Inv [] br) : Correct br := by
  have types : (br.outstanding.map Request.type).Perm
      (br.dram.inflightRequests.map fun pair => pair.2.type) := by
    have second := inv.outstanding.map Prod.snd
    rwa [map_map, map_map] at second
  exact {
    once := inv.partition
    distinct := inv.ids
    matched := inv.matched
    reads := by rw [types.count_eq, inv.reads]
    writes := by rw [types.count_eq, inv.writes] }

/-- Whatever the memory accepts and refuses and however it orders the requests,
the bridge completes the right events, as long as the types of the requests for
each address are completed in the order in which they were accepted. -/
theorem bridge_completes_in_order (ops : List Op)
    (meets : RunMeets step (fun br op => br.Allowed op ∧ br.InOrder op) ops initial) :
    ∃ br, runOps ops = .ok br ∧ Correct br := by
  have preserved : ∀ br op, Inv [] br → br.Allowed op ∧ br.InOrder op →
        Gives (br.step op) (Inv []) := by
    rintro br op inv ⟨allowed, inOrder⟩
    cases op with
    | run ev accepted => exact run_spec inv allowed accepted
    | complete req =>
      apply (returnCb_spec inv allowed inOrder).bind
      exact fun dram next => Gives.pure next
    | tick accepted => exact tick_spec inv accepted
  obtain ⟨br, returns, inv⟩ := meets.gives preserved inv_initial
  exact ⟨br, returns, inv.correct⟩

/-- A read and a write of one address and a write of another one, which is
refused at first and completes before the read. -/
def twoAddresses : List Op := [.run ⟨0, false, 64, 0⟩ true, .run ⟨1, true, 128, 1⟩ false,
    .run ⟨2, true, 64, 0⟩ true, .tick true, .complete ⟨128, .WRITE, 1⟩,
    .complete ⟨64, .READ, 0⟩, .tick false, .complete ⟨64, .WRITE, 0⟩]

theorem bridge_completes_in_order_two : ∃ br, runOps twoAddresses = .ok br ∧ Correct br := by
  apply bridge_completes_in_order
  decide +kernel

/-- A read after a write of the same address, which the memory serves first. -/
def readFirst : List Op :=
  [.run ⟨0, true, 64, 0⟩ true, .run ⟨1, false, 64, 0⟩ true, .complete ⟨64, .READ, 0⟩]

/-- The callback of the read finishes the write, and the counters say that the
read is still in flight. -/
theorem read_first_fails : RunMeets step Allowed readFirst initial ∧
      ∃ br, runOps readFirst = .ok br ∧ br.dram.completions =
          [⟨⟨0, true, 64, 0⟩, ⟨64, .READ, 0⟩, 1⟩] ∧
        br.outstanding = [⟨64, .WRITE, 0⟩] ∧
        br.dram.inflightR = 1 ∧ br.dram.inflightW = 0 := by
  refine ⟨by decide +kernel, _, rfl, ?_⟩
  decide +kernel

end Bridge

end Damov.Memory
