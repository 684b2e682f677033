import Damov.Ramulator.HostInvariant

/-!
# Requests and tags over whole runs

Along every run of sends and cycles each accepted request is in one place and is
called back once, when its response reaches the host. The tags are conserved
only while every send that takes a tag also finds room in its link: a send takes
the tag first and does not return it when the link is full.
-/

namespace Damov.Ramulator.Memory

open Library Checked Families Function List

variable {σ : Type} {tagged : Prop} {spec : HMC} {mem : Memory σ}
variable {req : Request} {pkt : Packet}

/-! ## Sending -/

/-- The packet that is formed for a request. -/
structure Forms (spec : HMC) (req : Request) (pkt : Packet) : Prop where
  type : pkt.type = .REQUEST
  request : pkt.req = req
  client : req.type ≠ .REFRESH
  valid : pkt.Valid
  slid : pkt.slid = slidOf spec req.addr
  lng : pkt.lng = requestFlits spec req

/-- A packet takes the first tag of the pool of its link, if there is one. -/
theorem formRequestPacket_spec : Ends Failure.Elsewhere (mem.formRequestPacket spec req) (fun res =>
      Forms spec req res.1 ∧
      (mem.tagsPools (slidOf spec req.addr) = [] ∧ res.1.tag = -1 ∧ res.2 = mem ∨
        ∃ pool, mem.tagsPools (slidOf spec req.addr) = res.1.tag :: pool ∧ res.2 = { mem with
            tagsPools := update mem.tagsPools (slidOf spec req.addr) pool })) := by
  have command : Ends Failure.Elsewhere (requestCommand spec req)
      (fun _ => req.type ≠ .REFRESH) := by
    cases type : req.type with
    | READ | WRITE =>
      simp only [requestCommand, type]
      exact .ok (by decide)
    | REFRESH =>
      simp only [requestCommand, type]
      exact .error trivial
  apply command.bind
  intro cmd client
  apply Ends.assert_bind trivial
  intro valid
  refine .pure ⟨⟨rfl, rfl, client, valid, rfl, rfl⟩, ?_⟩
  cases pool : mem.tagsPools (slidOf spec req.addr) with
  | nil => exact .inl ⟨rfl, by simp⟩
  | cons tag pool' =>
    exact .inr ⟨pool', by simp⟩

theorem slidOf_lt (spec : HMC) (addr : Nat) : slidOf spec addr < spec.sourceLinks :=
  Nat.mod_lt _ spec.sourceLinks_pos

theorem localRequest_vault_lt : (mem.localRequest spec req).vault < spec.vaults := by
  rcases spec.org.addrVec_vault spec.flitNumBits spec.addressing
    (req.addr &&& (spec.org.capacityPerStack - 1)) with ⟨vault, inside, same⟩
  rwa [Request.vault, localRequest, same]

section

variable (inv : Inv tagged spec [] mem)
include inv

theorem Inv.delivered_lt {id : Int} (delivered : id ∈ mem.delivered.map (·.req.reqid)) :
    id < mem.memReqCount := by
  obtain ⟨pkt, inside, rfl⟩ := mem_map.mp delivered
  obtain ⟨original, isAccepted, same, -⟩ := (inv.delivered pkt inside).copies
  have numbered : original.req.reqid ∈ mem.accepted.map (·.req.reqid) := mem_map_of_mem isAccepted
  rw [inv.numbers] at numbered
  obtain ⟨num, below, isNumber⟩ := mem_map.mp numbered
  rw [same, ← isNumber]
  exact Int.ofNat_lt.mpr (mem_range.mp below)

/-- A new request carries one more tag of its link. -/
theorem Inv.outstanding_accept (num : pkt.req.reqid = mem.memReqCount) (slid : Nat) :
    ({ mem with accepted := mem.accepted ++ [pkt] } : Memory σ).outstanding slid =
      mem.outstanding slid ++ (if pkt.slid = slid then [pkt.tag] else []) := by
  have fresh : pkt.req.reqid ∉ mem.delivered.map (·.req.reqid) := by
    intro delivered
    have below := inv.delivered_lt delivered
    omega
  simp only [outstanding, filter_append, map_append]
  congr 1
  by_cases same : pkt.slid = slid
  · rw [filter_cons_of_pos (by simp [same, fresh]), if_pos same]
    rfl
  · rw [filter_cons_of_neg (by simp [same]), if_neg same]
    rfl

/-- A request packet that enters the input buffer of its link. -/
theorem accept_inv {pool : List Int} (forms : Forms spec (mem.localRequest spec req) pkt)
    (taken : mem.tagsPools pkt.slid = pkt.tag :: pool) :
    Inv tagged spec [] { mem with
      tagsPools := update mem.tagsPools pkt.slid pool
      links := update mem.links pkt.slid ((mem.links pkt.slid).receive pkt)
      memReqCount := mem.memReqCount + 1
      accepted := mem.accepted ++ [pkt] } := by
  have num : pkt.req.reqid = mem.memReqCount := by
    rw [forms.request]; rfl
  have insideLink : pkt.slid < spec.sourceLinks := by
    rw [forms.slid]
    exact slidOf_lt spec _
  have noFlow : pkt.flowControl = false := by simp [Packet.flowControl, forms.type]
  have listed : Inv tagged spec [pkt.req.reqid] { mem with
      tagsPools := update mem.tagsPools pkt.slid pool
      memReqCount := mem.memReqCount + 1
      accepted := mem.accepted ++ [pkt] } :=
    { inv with
      path := by
        intro id
        have before := inv.path id
        simp only [map_append, map_cons, map_nil, count_append, count_nil] at before ⊢
        omega
      numbers := by simp [inv.numbers, num, range_succ]
      origins := forall_mem_append.mpr ⟨inv.origins, forall_mem_singleton.mpr insideLink⟩
      links := fun index inside => (inv.links index inside).mono le_rfl
      vaults := fun vault inside =>
        (inv.vaults vault inside).mono le_rfl
      delivered := fun other inside =>
        (inv.delivered other inside).mono le_rfl
      tags := by
        intro isTagged slid inside
        have before := inv.tags isTagged slid inside
        have grows := inv.outstanding_accept num slid
        refine List.Perm.trans ?_ before
        refine (List.Perm.of_eq (congrArg (_ ++ ·) grows)).trans ?_
        by_cases same : pkt.slid = slid
        · subst same
          simp only [update_self, taken]
          rw [← append_assoc]
          exact perm_append_singleton _ _
        · simp [same, Ne.symm same] }
  have carries := listed.links pkt.slid insideLink
  have slave : ((mem.links pkt.slid).receive pkt).slave =
      { (mem.links pkt.slid).slave with
        inputBuffer := (mem.links pkt.slid).slave.inputBuffer ++ [pkt] } := by
    simp [Link.receive, noFlow]
  apply listed.moveLink insideLink
  · refine ⟨?_, carries.outputs, ?_⟩
    · rw [slave]
      refine forall_mem_append.mpr ⟨carries.inputs, forall_mem_singleton.mpr ?_⟩
      exact {
        type := forms.type
        client := by rw [forms.request]; exact forms.client
        valid := forms.valid
        copies := ⟨pkt, by simp, rfl, rfl, rfl⟩
        slid := rfl
        vault := by rw [forms.request]; exact localRequest_vault_lt }
    · intro _
      rw [slave]
      simp
  · intro vault id
    rw [Link.Awaits, slave]
    apply and_congr_right
    intro refused
    rw [head?_append_of_ne_nil _ (carries.refused refused)]
  · intro id
    simp only [Link.present, slave, map_append, map_cons,
      map_nil, count_append, count_cons, count_nil]
    simp only [Link.receive]
    omega

end

/-- A send does not lose its tag: there is none, or its packet fits. -/
def Fits (spec : HMC) (mem : Memory σ) (req : Request) : Prop :=
  let sent := mem.localRequest spec req
  mem.tagsPools (slidOf spec sent.addr) = [] ∨
    requestFlits spec sent ≤ (mem.links (slidOf spec sent.addr)).slaveSpace spec

instance (spec : HMC) (mem : Memory σ) (req : Request) : Decidable (Fits spec mem req) := by
  unfold Fits
  infer_instance

section

variable (inv : Inv tagged spec [] mem)
include inv

theorem Inv.losePool {pools : Nat → List Int} (untagged : ¬ tagged) :
    Inv tagged spec [] { mem with tagsPools := pools } :=
  { inv with tags := fun isTagged => absurd isTagged untagged }

theorem Inv.tag_ne (isTagged : tagged) {slid : Nat} {tag : Int}
    {pool : List Int} (inside : slid < spec.sourceLinks)
    (taken : mem.tagsPools slid = tag :: pool) : tag ≠ -1 := by
  have member : tag ∈ (range spec.maxTags).map Int.ofNat := by
    rw [← (inv.tags isTagged slid inside).mem_iff, taken]
    simp
  obtain ⟨num, -, rfl⟩ := mem_map.mp member
  simp

theorem send_inv (fits : tagged → Fits spec mem req) :
    Ends Failure.Elsewhere (mem.send spec req) (fun res =>
      Inv tagged spec [] res.1 ∧ (tagged → res.2 = false → res.1 = mem)) := by
  apply formRequestPacket_spec.bind
  rintro ⟨pkt, formed⟩ ⟨forms, empty | ⟨pool, taken, isFormed⟩⟩
  · obtain ⟨-, noTag, isFormed⟩ := empty
    dsimp only at forms noTag isFormed ⊢
    rw [if_pos noTag, isFormed]
    exact .pure ⟨inv, fun _ _ => rfl⟩
  · dsimp only at forms taken isFormed ⊢
    subst isFormed
    rw [← forms.slid] at taken ⊢
    by_cases isTagged : tagged
    · have hasTag := inv.tag_ne isTagged (forms.slid ▸ slidOf_lt spec _) taken
      have room : pkt.lng ≤ (mem.links pkt.slid).slaveSpace spec := by
        rcases fits isTagged with noTag | room
        · rw [← forms.slid, taken] at noTag
          exact absurd noTag (cons_ne_nil _ _)
        · rwa [forms.lng, forms.slid]
      rw [if_neg hasTag, if_pos room]
      exact .pure ⟨accept_inv inv forms taken, fun _ isFalse =>
        absurd isFalse (by simp)⟩
    · split
      · exact .pure ⟨inv.losePool isTagged, fun holds =>
          absurd holds isTagged⟩
      · split
        · exact .pure ⟨accept_inv inv forms taken, fun holds =>
            absurd holds isTagged⟩
        · exact .pure ⟨inv.losePool isTagged, fun holds =>
            absurd holds isTagged⟩

end

/-- The condition of a step under which no tag is lost. -/
def Fitting (spec : HMC) (mem : Memory σ) : Op → Prop
  | .send req => Fits spec mem req
  | .tick => True

instance (spec : HMC) (mem : Memory σ) : DecidablePred (Fitting spec mem)
  | .send req => inferInstanceAs (Decidable (Fits spec mem req))
  | .tick => inferInstanceAs (Decidable True)

theorem step_inv {issue : Issue σ} {op : Op} (inv : Inv tagged spec [] mem)
    (fits : tagged → Fitting spec mem op) :
    Ends Failure.Elsewhere (mem.step spec issue op) (Inv tagged spec []) := by
  cases op with
  | tick => exact tick_inv inv
  | send req =>
    apply (send_inv inv fits).bind
    intro res holds
    exact .pure holds.1

theorem run_inv {issue : Issue σ} {ops : List Op} {banks : Nat → σ} (fits : tagged →
      RunMeets (step spec issue) (Fitting spec) ops (initial spec banks)) :
    Ends Failure.Elsewhere (run spec issue ops (initial spec banks)) (Inv tagged spec []) := by
  have meets : RunMeets (step spec issue) (fun mem op => tagged → Fitting spec mem op) ops
        (initial spec banks) := by
    by_cases isTagged : tagged
    · simpa only [isTagged, forall_const] using fits isTagged
    · simpa only [isTagged, IsEmpty.forall_iff] using RunMeets.trivial ops (initial spec banks)
  exact .run (fun mem op => step_inv) meets (inv_initial banks)

/-! ## The way of a request -/

inductive Place where
  | input
  | queue
  | pending
  | response
  | output
  | delivered
  deriving DecidableEq

/-- The numbers of the requests at a place of the path. -/
def requestsAt (spec : HMC) (mem : Memory σ) : Place → List Int
  | .input => gather spec.sourceLinks
      (fun link => link.slave.inputBuffer.map (·.req.reqid)) mem.links
  | .queue => gather spec.vaults
      (fun ctrl => (ctrl.queues.queue .READ ++ ctrl.queues.queue .WRITE).map
        Request.reqid) mem.ctrls
  | .pending => gather spec.vaults (fun ctrl => ctrl.queues.pending.map Request.reqid) mem.ctrls
  | .response => gather spec.vaults
      (fun ctrl => ctrl.responsePacketsBuffer.map (·.req.reqid)) mem.ctrls
  | .output => gather spec.sourceLinks
      (fun link => link.master.outputBuffer.map (·.req.reqid)) mem.links
  | .delivered => mem.delivered.map (·.req.reqid)

/-- A response on its way to the host or there. -/
def IsAnswer (spec : HMC) (mem : Memory σ) (pkt : Packet) : Prop :=
  (∃ vault < spec.vaults, pkt ∈ (mem.ctrls vault).responsePacketsBuffer) ∨
    (∃ index < spec.sourceLinks, pkt ∈ (mem.links index).master.outputBuffer) ∨
    pkt ∈ mem.delivered

/-- What holds of the requests of a memory at every moment. -/
structure Conserved (spec : HMC) (mem : Memory σ) : Prop where
  numbered : (mem.accepted.map (·.req.reqid)).Nodup
  onePlace : ∀ pkt ∈ mem.accepted, ∃ place, (mem.requestsAt spec place).count pkt.req.reqid = 1 ∧
      ∀ other ≠ place, pkt.req.reqid ∉ mem.requestsAt spec other
  calledBack : ∀ pkt ∈ mem.accepted, (mem.callbacks.map Request.reqid).count pkt.req.reqid =
      if pkt.req.reqid ∈ mem.requestsAt spec .delivered then 1 else 0
  departed : ∀ req ∈ mem.callbacks, req.depart ≤ req.departHmc
  answers : ∀ pkt, mem.IsAnswer spec pkt → pkt.Copies mem.accepted
  stored : ∀ vault < spec.vaults, ∀ id, ((mem.ctrls vault).incomingPacketsBuffer id).isSome ↔
      id ∈ (mem.ctrls vault).queues.held ∨ Awaited spec mem.links vault id

section

variable (inv : Inv tagged spec [] mem)
include inv

/-- The places together have what the parts of the memory have. -/
theorem Inv.count_places (id : Int) :
    (mem.requestsAt spec .input).count id + (mem.requestsAt spec .queue).count id +
      (mem.requestsAt spec .pending).count id +
      (mem.requestsAt spec .response).count id +
      (mem.requestsAt spec .output).count id +
      (mem.requestsAt spec .delivered).count id =
    (mem.accepted.map (·.req.reqid)).count id := by
  have path := inv.path id
  have inLinks : Link.present = fun link =>
        link.slave.inputBuffer.map (·.req.reqid) ++ link.master.outputBuffer.map (·.req.reqid) := by
    funext link
    rw [Link.present, map_append]
  have inVaults : (Controller.present : Controller σ → List Int) = fun ctrl =>
        ((ctrl.queues.queue .READ ++ ctrl.queues.queue .WRITE).map
          Request.reqid ++ ctrl.queues.pending.map Request.reqid) ++
            ctrl.responsePacketsBuffer.map (·.req.reqid) := by
    funext ctrl
    rw [Controller.present, Queues.held, Queues.clients, map_append]
  rw [inLinks, inVaults, count_gather_append, count_gather_append,
    count_gather_append, count_nil] at path
  simp only [requestsAt]
  omega

theorem Inv.onePlace (pkt : Packet) (inside : pkt ∈ mem.accepted) :
    ∃ place, (mem.requestsAt spec place).count pkt.req.reqid = 1 ∧
      ∀ other ≠ place, pkt.req.reqid ∉ mem.requestsAt spec other := by
  have total := inv.count_places pkt.req.reqid
  have accepted : pkt.req.reqid ∈ mem.accepted.map (·.req.reqid) := mem_map_of_mem inside
  rw [count_eq_one_of_mem inv.nodup accepted] at total
  have somewhere : ∃ place, 0 < (mem.requestsAt spec place).count pkt.req.reqid := by
    by_contra nowhere
    have empty (place : Place) : (mem.requestsAt spec place).count pkt.req.reqid = 0 :=
      Nat.eq_zero_of_not_pos fun positive => nowhere ⟨place, positive⟩
    simp only [empty] at total
    omega
  obtain ⟨place, positive⟩ := somewhere
  refine ⟨place, ?_, ?_⟩
  · cases place <;> omega
  · intro other apart
    rw [← count_eq_zero]
    cases place <;> cases other <;> first | omega | exact absurd rfl apart

theorem Inv.conserved : Conserved spec mem where
  numbered := inv.nodup
  onePlace := inv.onePlace
  calledBack := by
    intro pkt _
    have once := inv.once pkt.req.reqid
    rw [inv.callbacks]
    split
    · next delivered =>
      have positive := count_pos_iff.mpr delivered
      simp only [requestsAt] at positive
      omega
    · next pending => exact count_eq_zero.mpr pending
  departed := inv.departed
  answers := by
    rintro pkt (⟨vault, inside, isAnswer⟩ | ⟨index, inside, isAnswer⟩ | isAnswer)
    · exact ((inv.vaults vault inside).responses pkt isAnswer).copies
    · exact ((inv.links index inside).outputs pkt isAnswer).copies
    · exact (inv.delivered pkt isAnswer).copies
  stored := fun vault inside => (inv.vaults vault inside).incoming

end

/--
Along every run, whatever the schedulers and banks do, each accepted request is
in one place, is called back once when it is delivered and not before it departs,
and is answered with its number, tag and link. A controller has stored exactly
the packets of its requests and those it has refused, so that it can always
answer.
-/
theorem host_requests_conserved (spec : HMC) (issue : Issue σ) (banks : Nat → σ) (ops : List Op) :
    Ends Failure.Elsewhere (run spec issue ops (initial spec banks)) (Conserved spec) := by
  have untagged : False → RunMeets (step spec issue) (Fitting spec) ops
      (initial spec banks) := False.elim
  apply (run_inv untagged).mono
  intro mem inv
  exact inv.conserved

/-- Tags are conserved and refused sends have no effect as long as every send
finds room in its link or no tag at all. -/
theorem tags_conserved (spec : HMC) (issue : Issue σ) (banks : Nat → σ) (ops : List Op)
    (fits : RunMeets (step spec issue) (Fitting spec) ops (initial spec banks)) :
    Ends Failure.Elsewhere (run spec issue ops (initial spec banks)) (fun mem => TagsKept spec mem ∧
        ∀ req next, Fits spec mem req → mem.send spec req = .ok (next, false) → next = mem) := by
  have tagged : True → RunMeets (step spec issue) (Fitting spec) ops
      (initial spec banks) := fun _ => fits
  apply (run_inv tagged).mono
  intro mem inv
  refine ⟨inv.tags trivial, ?_⟩
  intro req next room refused
  have sent := (send_inv inv fun _ => room).returns _ refused
  exact sent.2 trivial rfl

/-! ## A cube of four links -/

/-- The cube of the configuration file. -/
def cube : HMC where
  org := {
    count := fun level =>
      match level with
      | .Vault => 32
      | .BankGroup => 4
      | .Bank => 2
      | .Row => 2 ^ 16
      | .Column => 2 ^ 6
    count_pos := by intro level; cases level <;> decide }
  flitNumBits := 8
  sourceLinks := 4
  sourceLinks_pos := by decide
  payloadFlits := 16
  maxTags := 2 ^ 11
  addressing := .RoCoBaVa
  queue := {
    max := fun _ => 32
    writeHigh := 25
    writeLow := 6
    nREFI := 9750
    readLatency := 21
    writeLatency := 4 }
  slaveBufferMax := 32
  masterBufferMax := 32
  flitCycles := fun flits => (flits + 2) / 3

/-- A controller that issues the last command of its oldest request. -/
def issueOldest : Issue Unit := fun banks _ => .ok (banks, some 0)

/-- A read departs in cycle 30 and is called back in the next one. -/
example : Gives (run cube issueOldest
        (.send { addr := 4096, type := .READ } :: List.replicate 31 .tick)
        (initial cube fun _ => ()))
      (fun mem => mem.callbacks.map (fun req => (req.reqid, req.depart, req.departHmc)) =
          [(0, 30, 31)]) := by decide +kernel

/-- A write and a read of one line and a read of another one. -/
def threeRequests : List Op :=
  [.send { addr := 4096, type := .WRITE }, .send { addr := 4096, type := .READ },
    .tick, .send { addr := 256, type := .READ }, .tick, .tick, .tick]

theorem tags_conserved_three : Ends Failure.Elsewhere
      (run cube issueOldest threeRequests (initial cube fun _ => ()))
      (fun mem => TagsKept cube mem ∧
        ∀ req next, Fits cube mem req → mem.send cube req = .ok (next, false) → next = mem) :=
  tags_conserved cube issueOldest (fun _ => ()) threeRequests (by decide +kernel)

/-- Sixteen writes to one link in the same cycle, and then another one. -/
def overfillLink : Except Failure (Memory Unit × Memory Unit × Bool) := do
  let write : Request := { addr := 0, type := .WRITE }
  let mem ← run cube issueOldest (List.replicate 16 (.send write)) (initial cube fun _ => ())
  let (next, accepted) ← mem.send cube write
  return (mem, next, accepted)

/-- The link is full, so the last write is refused, and its tag is lost. -/
theorem full_link_loses_tag : Gives overfillLink (fun (mem, next, accepted) =>
      accepted = false ∧ (mem.tagsPools 0).length = 2032 ∧ (next.tagsPools 0).length = 2031 ∧
        (next.outstanding 0).length = 16 ∧ ¬ TagsKept cube next) := by
  have counted : Gives overfillLink (fun (mem, next, accepted) =>
      accepted = false ∧ (mem.tagsPools 0).length = 2032 ∧ (next.tagsPools 0).length = 2031 ∧
        (next.outstanding 0).length = 16) := by decide +kernel
  apply counted.mono
  rintro ⟨mem, next, accepted⟩ ⟨refused, before, after, carried⟩
  refine ⟨refused, before, after, carried, ?_⟩
  intro kept
  have lengths := (kept 0 (by decide)).length_eq
  rw [length_append, after, carried, length_map, length_range] at lengths
  exact absurd lengths (by decide)

end Damov.Ramulator.Memory
