import Damov.Library.Checked
import Damov.Ramulator.HostMemory
import Mathlib.Data.List.Perm.Basic

/-!
# What a controller keeps

A controller neither loses nor invents requests: the requests that it holds in
its queues and in `pending` stay the same until one is answered, and then exactly
that one leaves, with the tag and the link of the packet it was stored with.
-/

namespace Damov.Ramulator

open Library Checked Function List Queues

/-- The assertions that are not about requests on their way: the field widths
of a request packet, the room for a refresh and the banks. -/
def Failure.Elsewhere : Failure → Prop
  | .formRequestPacket => True
  | .refreshTarget => True
  | .issue _ => True
  | .formResponsePacket => False
  | .receive => False
  | .receivePackets => False

/-! ## Requests in the queues -/

namespace Queues

variable {cfg : QueueConfig} {queues : Queues} {req : Request}

/-- The requests of clients that have not been answered. -/
def clients (queues : Queues) : List Request :=
  queues.queue .READ ++ queues.queue .WRITE ++ queues.pending

/-- Their numbers. -/
def held (queues : Queues) : List Int := queues.clients.map Request.reqid

/-- Every queue has the requests of its type. -/
structure Typed (queues : Queues) : Prop where
  queue : ∀ type, ∀ req ∈ queues.queue type, req.type = type
  pending : ∀ req ∈ queues.pending, req.type ≠ .REFRESH

/-- A change of the queues that keeps the requests of the clients. -/
structure Moves (before after : Queues) : Prop where
  clk : after.clk = before.clk
  typed : after.Typed
  held : after.held.Perm before.held

theorem Typed.moves (typed : queues.Typed) : Moves queues queues := ⟨rfl, typed, List.Perm.refl _⟩

theorem Moves.trans {first second third : Queues}
    (before : Moves first second) (after : Moves second third) :
    Moves first third :=
  ⟨after.clk.trans before.clk, after.typed, after.held.trans before.held⟩

theorem typed_initial : Queues.initial.Typed where
  queue := nofun
  pending := nofun

variable {type : RequestType} {pos : Nat}

theorem Typed.push (typed : queues.Typed) : (queues.push req).Typed := by
  refine ⟨push_each typed.queue rfl, ?_⟩
  unfold Queues.push
  split
  · next shortcut =>
    exact forall_mem_append.mpr ⟨typed.pending, forall_mem_singleton.mpr (by simp [shortcut.1])⟩
  · exact typed.pending

theorem push_clk : (queues.push req).clk = queues.clk := by
  unfold push
  split <;> rfl

/-- A request of a client is held from now on. -/
theorem push_held (isClient : req.type ≠ .REFRESH) :
    (queues.push req).held.Perm (req.reqid :: queues.held) := by
  unfold push
  split
  · simp only [held, clients, map_append]
    rw [← append_assoc]
    exact perm_append_singleton _ _
  · cases type : req.type with
    | READ =>
      simp [held, clients]
    | WRITE =>
      simp only [held, clients, map_append, append_assoc, singleton_append, update_self,
        ne_eq, reduceCtorEq, not_false_eq_true, update_of_ne]
      rw [← append_assoc, ← append_assoc]
      exact perm_middle
    | REFRESH => exact absurd type isClient

theorem push_refresh_held (isRefresh : req.type = .REFRESH) :
    (queues.push req).held = queues.held := by simp [push, held, clients, isRefresh]

/-- A refused request leaves the queues as they were. -/
theorem enqueue_refused (refused : (queues.enqueue cfg req).2 = false) :
    (queues.enqueue cfg req).1 = queues := by
  unfold enqueue at refused ⊢
  split
  · rfl
  · next room => simp [room] at refused

theorem enqueue_accepted (accepted : (queues.enqueue cfg req).2 = true) :
    (queues.enqueue cfg req).1 = queues.push { req with arrive := queues.clk } := by
  unfold enqueue at accepted ⊢
  split
  · next full => simp [full] at accepted
  · rfl

theorem tickRef_moves {vault : Nat} (typed : queues.Typed) :
    Ends Failure.Elsewhere (queues.tickRef cfg vault) (Moves queues) := by
  simp only [tickRef]
  split
  · apply Ends.assert_bind trivial
    intro accepted
    refine .pure ?_
    rw [enqueue_accepted accepted]
    have pushed : (queues.push { Request.ofRefresh vault with arrive := queues.clk }).Typed :=
      typed.push
    have isRefresh : ({ Request.ofRefresh vault with arrive := queues.clk } : Request).type =
          .REFRESH := rfl
    refine ⟨push_clk, ⟨pushed.queue, pushed.pending⟩, List.Perm.of_eq ?_⟩
    exact push_refresh_held isRefresh
  · exact .pure ⟨rfl, ⟨typed.queue, typed.pending⟩, List.Perm.refl _⟩

theorem scheduleWrites_moves (typed : queues.Typed) : Moves queues (queues.scheduleWrites cfg) := by
  unfold scheduleWrites
  split
  all_goals
    split
    · exact ⟨rfl, ⟨typed.queue, typed.pending⟩, List.Perm.refl _⟩
    · exact typed.moves

/-! ## After the last command of a request -/

@[simp]
theorem burst_type : (burst req).type = req.type := by
  cases type : req.type <;> simp [burst, type]

@[simp]
theorem burst_reqid : (burst req).reqid = req.reqid := by
  cases type : req.type <;> simp [burst, type]

theorem depart_refresh (isRefresh : req.type = .REFRESH) :
    queues.depart cfg req = queues.pending := by simp [depart, isRefresh]

theorem depart_client (cfg : QueueConfig) (queues : Queues) (isClient : req.type ≠ .REFRESH) :
    ∃ cycle, queues.depart cfg req = queues.pending ++ [{ req with depart := cycle }] := by
  cases type : req.type with
  | READ => exact ⟨queues.clk + cfg.readLatency, by simp [depart, type]⟩
  | WRITE => exact ⟨queues.clk + cfg.writeLatency, by simp [depart, type]⟩
  | REFRESH => exact absurd type isClient

/-- A request that is done goes from its queue to `pending`. -/
theorem retire_held (entry : (queues.queue type)[pos]? = some req) (isType : req.type = type) :
    ({ queues with
        queue := update queues.queue type ((queues.queue type).eraseIdx pos)
        pending := queues.depart cfg (burst req) } : Queues).held.Perm
      queues.held := by
  obtain ⟨mem, found⟩ := List.getElem?_eq_some_iff.mp entry
  have taken := getElem_cons_eraseIdx_perm mem
  rw [found] at taken
  have moved := (taken.map Request.reqid).symm
  cases type with
  | REFRESH =>
    rw [depart_refresh (by simp [isType])]
    simp [held, clients]
  | READ | WRITE =>
    have isClient : (burst req).type ≠ .REFRESH := by simp [isType]
    obtain ⟨cycle, departs⟩ := depart_client cfg queues isClient
    rw [departs]
    rw [perm_iff_count] at moved ⊢
    intro id
    have counted := moved id
    simp only [held, clients, map_append, map_cons, map_nil,
      count_append, count_cons, count_nil, update_self,
      ne_eq, reduceCtorEq, not_false_eq_true, update_of_ne,
      burst_reqid] at counted ⊢
    omega

theorem burst_held (entry : (queues.queue type)[pos]? = some req) : ({ queues with
        queue := update queues.queue type
          ((queues.queue type).set pos (burst req)) } : Queues).held =
      queues.held := by
  have same : ((queues.queue type).set pos (burst req)).map Request.reqid =
        (queues.queue type).map Request.reqid := by
    obtain ⟨mem, found⟩ := List.getElem?_eq_some_iff.mp entry
    rw [map_set, ← found]
    apply ext_getElem?
    intro index
    by_cases eq : pos = index
    · subst eq
      simp [mem]
    · rw [getElem?_set_ne eq]
  have queuesSame (other : RequestType) :
      (update queues.queue type ((queues.queue type).set pos (burst req))
        other).map Request.reqid = (queues.queue other).map Request.reqid := by
    by_cases eq : other = type
    · subst eq
      rw [update_self, same]
    · rw [update_of_ne eq]
  simp only [held, clients, map_append, queuesSame]

theorem finish_moves (typed : queues.Typed) : Moves queues (queues.finish cfg type pos) := by
  have each : ∀ kind, ∀ other ∈ (queues.finish cfg type pos).queue kind, other.type = kind :=
    finish_each typed.queue fun req isType => burst_type.trans isType
  unfold finish at each ⊢
  split
  · exact typed.moves
  · next req entry =>
    have isType := typed.queue type req (mem_of_getElem? entry)
    simp only [entry] at each
    split
    · next last =>
      rw [if_pos last] at each
      refine ⟨rfl, ⟨each, ?_⟩, retire_held entry isType⟩
      by_cases isRefresh : req.type = .REFRESH
      · rw [depart_refresh (by simp [isRefresh])]
        exact typed.pending
      · have isClient : (burst req).type ≠ .REFRESH := by simpa using isRefresh
        obtain ⟨cycle, departs⟩ := depart_client cfg queues isClient
        rw [departs]
        exact forall_mem_append.mpr ⟨typed.pending, forall_mem_singleton.mpr isClient⟩
    · next more =>
      rw [if_neg more] at each
      exact ⟨rfl, ⟨each, typed.pending⟩, Perm.of_eq (burst_held entry)⟩

end Queues

/-! ## Packets on their way -/

namespace Packet

/-- The packet has the number, the tag and the link of an accepted request. -/
def Copies (accepted : List Packet) (pkt : Packet) : Prop :=
  ∃ original ∈ accepted, pkt.req.reqid = original.req.reqid ∧
    pkt.tag = original.tag ∧ pkt.slid = original.slid

variable {accepted more : List Packet} {pkt : Packet}

theorem Copies.mono (copies : pkt.Copies accepted) : pkt.Copies (accepted ++ more) := by
  obtain ⟨original, mem, same⟩ := copies
  exact ⟨original, mem_append_left more mem, same⟩

/-- A packet in the input buffer of a link. -/
structure IsRequest (spec : HMC) (accepted : List Packet) (index : Nat) (pkt : Packet) : Prop where
  type : pkt.type = .REQUEST
  client : pkt.req.type ≠ .REFRESH
  valid : pkt.Valid
  copies : pkt.Copies accepted
  slid : pkt.slid = index
  vault : pkt.req.vault < spec.vaults

/-- A packet that a controller has stored for a request. -/
structure IsStored (accepted : List Packet) (id : Int) (pkt : Packet) : Prop where
  reqid : pkt.req.reqid = id
  valid : pkt.Valid
  copies : pkt.Copies accepted

/-- A response, formed when its request had departed. -/
structure IsResponse (accepted : List Packet) (clk : Nat) (pkt : Packet) : Prop where
  type : pkt.type = .RESPONSE
  client : pkt.req.type ≠ .REFRESH
  copies : pkt.Copies accepted
  departed : pkt.req.depart ≤ clk

theorem IsRequest.mono {spec : HMC} {index : Nat} (isRequest : pkt.IsRequest spec accepted index) :
    pkt.IsRequest spec (accepted ++ more) index :=
  { isRequest with copies := isRequest.copies.mono }

theorem IsStored.mono {id : Int} (isStored : pkt.IsStored accepted id) :
    pkt.IsStored (accepted ++ more) id :=
  { isStored with copies := isStored.copies.mono }

theorem IsResponse.mono {clk later : Nat}
    (isResponse : pkt.IsResponse accepted clk) (le : clk ≤ later) :
    pkt.IsResponse (accepted ++ more) later :=
  { isResponse with
    copies := isResponse.copies.mono
    departed := le_trans isResponse.departed le }

end Packet

/-! ## A controller -/

namespace Controller

variable {σ : Type} {spec : HMC} {accepted : List Packet} {clk : Nat}
variable {awaited : Int → Prop} {ctrl : Controller σ} {pkt : Packet}

/-- The requests that a controller has taken in and not passed on. -/
def present (ctrl : Controller σ) : List Int :=
  ctrl.queues.held ++ ctrl.responsePacketsBuffer.map (·.req.reqid)

/-- The invariant of a controller. Besides the requests that it holds, it has
stored the packets that it refused and that are still awaited. -/
structure Keeps
    (accepted : List Packet) (clk : Nat) (awaited : Int → Prop) (ctrl : Controller σ) : Prop where
  typed : ctrl.queues.Typed
  clock : ctrl.queues.clk ≤ clk
  incoming : ∀ id, (ctrl.incomingPacketsBuffer id).isSome ↔ id ∈ ctrl.queues.held ∨ awaited id
  stored : ∀ id pkt, ctrl.incomingPacketsBuffer id = some pkt → pkt.IsStored accepted id
  responses : ∀ pkt ∈ ctrl.responsePacketsBuffer, pkt.IsResponse accepted clk

theorem keeps_initial (banks : σ) : (initial banks).Keeps [] clk (fun _ => False) where
  typed := Queues.typed_initial
  clock := Nat.zero_le clk
  incoming := by
    intro id
    simp [initial, Queues.initial, Queues.held, Queues.clients]
  stored := by
    intro id pkt isStored
    simp [initial] at isStored
  responses := by
    intro pkt mem
    cases mem

section

variable (keeps : ctrl.Keeps accepted clk awaited)
include keeps

theorem Keeps.congr {awaited' : Int → Prop} (same : ∀ id, awaited' id ↔ awaited id) :
    ctrl.Keeps accepted clk awaited' :=
  { keeps with
    incoming := by
      intro id
      rw [keeps.incoming id, same id] }

theorem Keeps.mono {more : List Packet} {later : Nat} (le : clk ≤ later) :
    ctrl.Keeps (accepted ++ more) later awaited where
  typed := keeps.typed
  clock := le_trans keeps.clock le
  incoming := keeps.incoming
  stored := fun id pkt isStored => (keeps.stored id pkt isStored).mono
  responses := fun pkt mem => (keeps.responses pkt mem).mono le

/-- What does not touch the packets keeps the invariant. -/
theorem Keeps.moves {queues : Queues} {banks : σ} (moves : ctrl.queues.Moves queues) :
    ({ ctrl with queues := queues, banks := banks } : Controller σ).Keeps accepted clk awaited where
  typed := moves.typed
  clock := moves.clk ▸ keeps.clock
  incoming := by
    intro id
    rw [keeps.incoming id, moves.held.mem_iff]
  stored := keeps.stored
  responses := keeps.responses

end

/-- A change that keeps the invariant and the requests. -/
def Preserved (accepted : List Packet) (clk : Nat) (awaited : Int → Prop)
    (before after : Controller σ) : Prop :=
  after.Keeps accepted clk awaited ∧ after.present.Perm before.present

variable (keeps : ctrl.Keeps accepted clk awaited)
include keeps

theorem Keeps.preserved_moves {queues : Queues} {banks : σ} (moves : ctrl.queues.Moves queues) :
    Preserved accepted clk awaited ctrl { ctrl with queues := queues, banks := banks } :=
  ⟨keeps.moves moves, moves.held.append_right _⟩

omit keeps in
theorem responseTo_isResponse {req : Request} {stored : Packet}
    (isStored : stored.IsStored accepted req.reqid)
    (client : req.type ≠ .REFRESH) (departed : req.depart ≤ clk) :
    (responseTo spec stored req).IsResponse accepted clk where
  type := rfl
  client := client
  copies := by
    obtain ⟨original, mem, sameId, sameTag, sameLink⟩ := isStored.copies
    exact ⟨original, mem, isStored.reqid ▸ sameId, sameTag, sameLink⟩
  departed := departed

/-- The assertion of `formResponsePacket` holds for every held request. -/
theorem serve_preserved (once : ∀ id, ctrl.queues.held.count id ≤ 1)
    (apart : ∀ id ∈ ctrl.queues.held, ¬ awaited id) :
    Ends Failure.Elsewhere (ctrl.serve spec) (Preserved accepted clk awaited ctrl) := by
  unfold serve
  split
  · exact .ok ⟨keeps, List.Perm.refl _⟩
  · next req pending isPending =>
    split
    · next departs =>
      have split : ctrl.queues.held.Perm (req.reqid :: ({ ctrl.queues with pending := pending } :
            Queues).held) := by
        simp only [held, clients, isPending, map_append]
        exact perm_middle
      have isHeld : req.reqid ∈ ctrl.queues.held := split.mem_iff.mpr mem_cons_self
      have client := keeps.typed.pending req (by simp [isPending])
      have left : req.reqid ∉ ({ ctrl.queues with pending := pending } : Queues).held := by
        intro mem
        have counted := once req.reqid
        rw [split.count_eq, count_cons_self] at counted
        have := count_pos_iff.mpr mem
        omega
      rcases Option.isSome_iff_exists.mp
        ((keeps.incoming req.reqid).mpr (.inl isHeld)) with ⟨stored, found⟩
      have isStored := keeps.stored req.reqid stored found
      rw [formResponsePacket, found]
      have valid : (responseTo spec stored req).Valid := by
        obtain ⟨cub, -, tag, slid⟩ := isStored.valid
        exact ⟨cub, Nat.two_pow_pos 34, tag, slid⟩
      dsimp only
      rw [check_true _ valid]
      refine .ok ⟨⟨⟨keeps.typed.queue, ?_⟩, keeps.clock, ?_, ?_, ?_⟩, ?_⟩
      · intro other mem
        exact keeps.typed.pending other (by simp [isPending, mem])
      · intro id
        dsimp only
        by_cases same : id = req.reqid
        · subst same
          simp [left, apart _ isHeld]
        · rw [update_of_ne same, keeps.incoming id, split.mem_iff]
          simp [same]
      · intro id pkt isFound
        dsimp only at isFound
        by_cases same : id = req.reqid
        · simp [same] at isFound
        · rw [update_of_ne same] at isFound
          exact keeps.stored id pkt isFound
      · refine forall_mem_append.mpr ⟨keeps.responses, forall_mem_singleton.mpr ?_⟩
        exact responseTo_isResponse isStored client (le_trans departs keeps.clock)
      · simp only [present, map_append, map_cons, map_nil]
        rw [perm_iff_count]
        intro id
        have counted := split.count_eq id
        simp only [count_append, count_cons, count_nil, responseTo] at counted ⊢
        omega
    · exact .ok ⟨keeps, List.Perm.refl _⟩

theorem issueCommand_preserved {issue : Issue σ} :
    Ends Failure.Elsewhere (ctrl.issueCommand spec issue)
      (Preserved accepted clk awaited ctrl) := by
  unfold issueCommand
  split
  · exact .error trivial
  · exact .ok (keeps.preserved_moves keeps.typed.moves)
  · exact .ok (keeps.preserved_moves (finish_moves keeps.typed))

theorem tick_preserved {issue : Issue σ} {vault : Nat} (early : ctrl.queues.clk < clk)
    (once : ∀ id, ctrl.queues.held.count id ≤ 1) (apart : ∀ id ∈ ctrl.queues.held, ¬ awaited id) :
    Ends Failure.Elsewhere (ctrl.tick spec issue vault) (Preserved accepted clk awaited ctrl) := by
  have ticked : ({ ctrl with
        queues := { ctrl.queues with clk := ctrl.queues.clk + 1 } } :
          Controller σ).Keeps accepted clk awaited :=
    { keeps with
      typed := ⟨keeps.typed.queue, keeps.typed.pending⟩
      clock := early }
  apply (serve_preserved ticked once apart).bind
  rintro served ⟨keepsServed, presentServed⟩
  apply (tickRef_moves keepsServed.typed).bind
  intro queues moves
  have scheduled : served.queues.Moves (queues.scheduleWrites spec.queue) :=
    moves.trans (scheduleWrites_moves moves.typed)
  have step : Preserved accepted clk awaited served
      { served with queues := queues.scheduleWrites spec.queue } :=
    keepsServed.preserved_moves scheduled
  apply (issueCommand_preserved step.1).mono
  rintro next ⟨keepsNext, presentNext⟩
  exact ⟨keepsNext, presentNext.trans (step.2.trans presentServed)⟩

/-- A packet that is taken in is held, and one that is refused is awaited. -/
theorem receive_preserved {index : Nat} (isRequest : pkt.IsRequest spec accepted index) :
    Ends Failure.Elsewhere (ctrl.receive spec pkt) (fun res =>
      res.2.1 = { pkt with
        req := { pkt.req with burstCount := spec.burstCount } } ∧
      res.1.present.Perm ((if res.2.2 then [pkt.req.reqid] else []) ++ ctrl.present) ∧
      ∀ awaited' : Int → Prop, (∀ id ≠ pkt.req.reqid, awaited' id ↔ awaited id) →
        (res.2.2 = false → awaited' pkt.req.reqid) →
        res.1.Keeps accepted clk awaited') := by
  apply Ends.check isRequest.type
  refine .pure ⟨rfl, ?_⟩
  have isStored : ({ pkt with
      req := { pkt.req with burstCount := spec.burstCount } } :
        Packet).IsStored accepted pkt.req.reqid :=
    ⟨rfl, isRequest.valid, isRequest.copies⟩
  have stored (id : Int) (other : Packet)
      (found : update ctrl.incomingPacketsBuffer pkt.req.reqid (some { pkt with
          req := { pkt.req with burstCount := spec.burstCount } }) id =
        some other) : other.IsStored accepted id := by
    by_cases same : id = pkt.req.reqid
    · subst same
      rw [update_self] at found
      exact Option.some.inj found ▸ isStored
    · rw [update_of_ne same] at found
      exact keeps.stored id other found
  cases answer : (ctrl.queues.enqueue spec.queue
    { pkt.req with burstCount := spec.burstCount }).2 with
  | false =>
    rw [enqueue_refused answer]
    refine ⟨List.Perm.refl _, ?_⟩
    intro awaited' same isAwaited
    refine ⟨keeps.typed, keeps.clock, ?_, stored, keeps.responses⟩
    intro id
    dsimp only
    by_cases eq : id = pkt.req.reqid
    · subst eq
      simp [isAwaited rfl]
    · rw [update_of_ne eq, keeps.incoming id, same id eq]
  | true =>
    rw [enqueue_accepted answer]
    have grows : (ctrl.queues.push { pkt.req with
        arrive := ctrl.queues.clk
        burstCount := spec.burstCount }).held.Perm (pkt.req.reqid :: ctrl.queues.held) :=
      push_held isRequest.client
    refine ⟨grows.append_right _, ?_⟩
    intro awaited' same isAwaited
    refine ⟨keeps.typed.push, le_trans (le_of_eq push_clk) keeps.clock, ?_, stored, keeps.responses⟩
    intro id
    dsimp only
    rw [grows.mem_iff]
    by_cases eq : id = pkt.req.reqid
    · subst eq
      simp
    · rw [update_of_ne eq, keeps.incoming id, same id eq]
      simp [eq]

end Controller

end Damov.Ramulator
