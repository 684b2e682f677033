import Damov.Library.ListMoves
import Damov.Ramulator.VaultInvariant
import Mathlib.Data.List.Nodup

/-!
# Where the requests of a cube are

The invariant of the memory: counted over all its buffers, each accepted request
occurs once; the packets in a buffer have the number, the tag and the link of an
accepted request; and the tags of a link are in its pool or with an accepted
request that is not answered. The last part is kept only by sends that do not
lose a tag, so it is conditional. Each step of the links, the switch and the
controllers moves at most one request.
-/

namespace Damov.Ramulator

open Library Families Function List

/-! ## Links -/

namespace Link

variable {spec : HMC} {accepted more : List Packet} {clk later index : Nat}
variable {link : Link} {vault : Nat} {id : Int}

/-- The requests in the buffers of a link. -/
def present (link : Link) : List Int :=
  (link.slave.inputBuffer ++ link.master.outputBuffer).map (·.req.reqid)

/-- The link waits for this vault to take a request that it has refused. -/
def Awaits (vault : Nat) (id : Int) (link : Link) : Prop :=
  link.slave.headRefused = true ∧ ∃ packet, link.slave.inputBuffer.head? = some packet ∧
      packet.req.reqid = id ∧ packet.req.vault = vault

structure Carries (spec : HMC) (accepted : List Packet) (clk index : Nat) (link : Link) : Prop where
  inputs : ∀ packet ∈ link.slave.inputBuffer, packet.IsRequest spec accepted index
  outputs : ∀ packet ∈ link.master.outputBuffer, packet.IsResponse accepted clk
  refused : link.slave.headRefused = true → link.slave.inputBuffer ≠ []

theorem Awaits.present (awaits : link.Awaits vault id) : id ∈ link.present := by
  obtain ⟨-, packet, isHead, rfl, -⟩ := awaits
  have inside := mem_of_mem_head? isHead
  exact mem_map.mpr ⟨packet, mem_append_left _ inside, rfl⟩

theorem Carries.mono (carries : link.Carries spec accepted clk index) (le : clk ≤ later) :
    link.Carries spec (accepted ++ more) later index where
  inputs := fun pkt mem => (carries.inputs pkt mem).mono
  outputs := fun pkt mem => (carries.outputs pkt mem).mono le
  refused := carries.refused

end Link

/-! ## The memory -/

namespace Memory

variable {σ : Type} {tagged : Prop} {spec : HMC} {mem : Memory σ}
variable {hand : List Int} {links : Nat → Link} {index vault : Nat} {id : Int}

/-- A vault's refused packet that is still at the head of a link. -/
def Awaited (spec : HMC) (links : Nat → Link) (vault : Nat) (id : Int) : Prop :=
  ∃ index < spec.sourceLinks, (links index).Awaits vault id

variable {link : Link} {hand' : List Int} {ctrl : Controller σ}

theorem awaited_update (same : link.Awaits vault id ↔ (links index).Awaits vault id) :
    Awaited spec (update links index link) vault id ↔ Awaited spec links vault id := by
  have each (other : Nat) : (update links index link other).Awaits vault id ↔
        (links other).Awaits vault id := by
    by_cases eq : other = index
    · subst eq
      rw [update_self, same]
    · rw [update_of_ne eq]
  simp only [Awaited, each]

/-- The tags of a link that accepted and unanswered requests carry. -/
def outstanding (mem : Memory σ) (slid : Nat) : List Int := (mem.accepted.filter fun packet =>
    packet.slid = slid ∧ packet.req.reqid ∉ mem.delivered.map (·.req.reqid)).map (·.tag)

/-- The tags of a link are in its pool or with a request. -/
def TagsKept (spec : HMC) (mem : Memory σ) : Prop :=
  ∀ slid < spec.sourceLinks, (mem.tagsPools slid ++ mem.outstanding slid).Perm
      ((List.range spec.maxTags).map Int.ofNat)

/-- The invariant, with the requests that are just being moved in hand. -/
structure Inv (tagged : Prop) (spec : HMC) (hand : List Int) (mem : Memory σ) : Prop where
  path : ∀ id, hand.count id + (gather spec.sourceLinks Link.present mem.links).count id +
      (gather spec.vaults Controller.present mem.ctrls).count id +
      (mem.delivered.map (·.req.reqid)).count id =
    (mem.accepted.map (·.req.reqid)).count id
  numbers : mem.accepted.map (·.req.reqid) = (List.range mem.memReqCount).map Int.ofNat
  origins : ∀ packet ∈ mem.accepted, packet.slid < spec.sourceLinks
  links : ∀ index < spec.sourceLinks, (mem.links index).Carries spec mem.accepted mem.clk index
  vaults : ∀ vault < spec.vaults,
    (mem.ctrls vault).Keeps mem.accepted mem.clk (Awaited spec mem.links vault)
  delivered : ∀ packet ∈ mem.delivered, packet.IsResponse mem.accepted mem.clk
  callbacks : mem.callbacks.map Request.reqid = mem.delivered.map (·.req.reqid)
  departed : ∀ req ∈ mem.callbacks, req.depart ≤ req.departHmc
  tags : tagged → TagsKept spec mem

theorem inv_initial (banks : Nat → σ) : Inv tagged spec [] (initial spec banks) where
  path := by
    have noLinks : gather spec.sourceLinks Link.present (initial spec banks).links = [] := by
      simp [gather, initial, Link.initial, Link.present]
    have noVaults : gather spec.vaults Controller.present (initial spec banks).ctrls = [] := by
      simp [gather, initial, Controller.initial, Controller.present,
        Queues.initial, Queues.held, Queues.clients]
    intro id
    rw [noLinks, noVaults]
    simp [initial]
  numbers := rfl
  origins := fun _ mem => absurd mem not_mem_nil
  links := fun _ _ => {
    inputs := fun _ mem => absurd mem not_mem_nil
    outputs := fun _ mem => absurd mem not_mem_nil
    refused := fun isRefused => absurd isRefused Bool.false_ne_true }
  vaults := by
    intro vault _
    have none (id : Int) : Awaited spec (initial spec banks).links vault id ↔ False := by
      simp [Awaited, initial, Link.initial, Link.Awaits]
    exact (Controller.keeps_initial (banks vault)).congr none
  delivered := fun _ mem => absurd mem not_mem_nil
  callbacks := rfl
  departed := fun _ mem => absurd mem not_mem_nil
  tags := by
    intro _ slid _
    simp [initial, outstanding]

variable (inv : Inv tagged spec hand mem)
include inv

theorem Inv.nodup : (mem.accepted.map (·.req.reqid)).Nodup := by
  rw [inv.numbers]
  exact nodup_range.map fun _ _ => Int.ofNat.inj

/-- Every request occurs at most once. -/
theorem Inv.once (id : Int) :
    hand.count id + (gather spec.sourceLinks Link.present mem.links).count id +
      (gather spec.vaults Controller.present mem.ctrls).count id +
      (mem.delivered.map (·.req.reqid)).count id ≤ 1 := by
  rw [inv.path id]
  exact nodup_iff_count_le_one.mp inv.nodup id

theorem Inv.held_once (inside : vault < spec.vaults) (id : Int) :
    (mem.ctrls vault).queues.held.count id ≤ 1 := by
  have total := inv.once id
  have part := count_le_gather Controller.present mem.ctrls inside id
  rw [Controller.present, count_append] at part
  omega

/-- A request that a vault holds is not awaited from a link. -/
theorem Inv.apart (inside : vault < spec.vaults) (id : Int)
    (isHeld : id ∈ (mem.ctrls vault).queues.held) :
    ¬ Awaited spec mem.links vault id := by
  rintro ⟨index, insideLink, awaits⟩
  have total := inv.once id
  have inVault := count_le_gather Controller.present mem.ctrls inside id
  have inLink := count_le_gather Link.present mem.links insideLink id
  have held := count_pos_iff.mpr isHeld
  have waiting := count_pos_iff.mpr awaits.present
  rw [Controller.present, count_append] at inVault
  omega

/-- Requests that move between a link, a controller and the hand. -/
theorem Inv.move (insideLink : index < spec.sourceLinks) (insideVault : vault < spec.vaults)
    (carries : link.Carries spec mem.accepted mem.clk index)
    (keeps : ctrl.Keeps mem.accepted mem.clk (Awaited spec (update mem.links index link) vault))
    (others : ∀ other ≠ vault, ∀ id, link.Awaits other id ↔ (mem.links index).Awaits other id)
    (moved : ∀ id, hand'.count id + link.present.count id + ctrl.present.count id =
      hand.count id + (mem.links index).present.count id + (mem.ctrls vault).present.count id) :
    Inv tagged spec hand' { mem with
      links := update mem.links index link
      ctrls := update mem.ctrls vault ctrl } where
  path := by
    intro id
    have total := inv.path id
    have inLink := count_gather_update Link.present mem.links insideLink link id
    have inVault := count_gather_update Controller.present mem.ctrls insideVault ctrl id
    have exchange := moved id
    dsimp only
    omega
  numbers := inv.numbers
  origins := inv.origins
  links := by
    intro other inside
    by_cases same : other = index
    · subst same
      simpa using carries
    · simpa [same] using inv.links other inside
  vaults := by
    intro other inside
    by_cases same : other = vault
    · subst same
      simpa using keeps
    · simp only [update_of_ne same]
      exact (inv.vaults other inside).congr fun id => awaited_update (others other same id)
  delivered := inv.delivered
  callbacks := inv.callbacks
  departed := inv.departed
  tags := inv.tags

/-- A link that changes alone. -/
theorem Inv.moveLink (inside : index < spec.sourceLinks)
    (carries : link.Carries spec mem.accepted mem.clk index)
    (same : ∀ vault id, link.Awaits vault id ↔ (mem.links index).Awaits vault id)
    (moved : ∀ id, hand'.count id + link.present.count id =
      hand.count id + (mem.links index).present.count id) :
    Inv tagged spec hand' (mem.setLink index link) := by
  have zero : 0 < spec.vaults := spec.org.count_pos .Vault
  have keeps := (inv.vaults 0 zero).congr fun id => awaited_update (same 0 id)
  have exchanged (id : Int) : hand'.count id + link.present.count id +
        (mem.ctrls 0).present.count id =
      hand.count id + (mem.links index).present.count id + (mem.ctrls 0).present.count id := by
    rw [moved id]
  have step := inv.move inside zero carries keeps (fun other _ id => same other id) exchanged
  rwa [update_eq_self] at step

/-- A controller that changes alone. -/
theorem Inv.moveCtrl (inside : vault < spec.vaults)
    (preserved : Controller.Preserved mem.accepted mem.clk
      (Awaited spec mem.links vault) (mem.ctrls vault) ctrl) :
    Inv tagged spec hand { mem with ctrls := update mem.ctrls vault ctrl } := by
  have carries := inv.links 0 spec.sourceLinks_pos
  have keeps : ctrl.Keeps mem.accepted mem.clk
      (Awaited spec (update mem.links 0 (mem.links 0)) vault) := by
    rw [update_eq_self]
    exact preserved.1
  have moved (id : Int) : hand.count id + (mem.links 0).present.count id + ctrl.present.count id =
      hand.count id + (mem.links 0).present.count id + (mem.ctrls vault).present.count id := by
    rw [preserved.2.count_eq id]
  have step := inv.move spec.sourceLinks_pos inside carries keeps (fun _ _ _ => Iff.rfl) moved
  rwa [update_eq_self] at step

end Memory

end Damov.Ramulator

namespace Damov.Ramulator.Memory

open Library Checked Function List

variable {σ : Type} {tagged : Prop} {spec : HMC} {mem : Memory σ}
variable {hand : List Int} {index vault : Nat} {pkt : Packet}

/-! ## Responses that reach the host -/

/-- The tag of an answered request is no longer outstanding. -/
theorem Inv.outstanding_deliver (inv : Inv tagged spec [pkt.req.reqid] mem)
    (copies : pkt.Copies mem.accepted) (slid : Nat) (pools : Nat → List Int)
    (callbacks : List Request) :
    (mem.outstanding slid).Perm ((if pkt.slid = slid then [pkt.tag] else []) ++ ({ mem with
          tagsPools := pools
          delivered := mem.delivered ++ [pkt]
          callbacks := callbacks } : Memory σ).outstanding slid) := by
  obtain ⟨original, inside, sameId, sameTag, sameLink⟩ := copies
  have fresh : original.req.reqid ∉ mem.delivered.map (·.req.reqid) := by
    intro delivered
    have once := inv.once pkt.req.reqid
    rw [← sameId] at delivered
    have counted := count_pos_iff.mpr delivered
    rw [count_cons_self] at once
    omega
  have after (other : Packet) : (decide (other.slid = slid ∧ other.req.reqid ∉
        (mem.delivered ++ [pkt]).map (·.req.reqid)) : Bool) =
      (decide (other.slid = slid ∧ other.req.reqid ∉ mem.delivered.map (·.req.reqid)) &&
          decide (other.req.reqid ≠ original.req.reqid)) := by
    rw [map_append, map_singleton, sameId]
    simp [Bool.and_assoc]
  simp only [outstanding, after]
  by_cases same : pkt.slid = slid
  · have selected : decide (original.slid = slid ∧ original.req.reqid ∉
        mem.delivered.map (·.req.reqid)) = true := by
      rw [sameLink] at same
      simp [same, fresh]
    rw [if_pos same, sameTag]
    exact (ListMoves.filter_perm_cons inv.nodup inside selected).map _
  · rw [if_neg same]
    apply List.Perm.of_eq
    congr 1
    apply filter_congr
    intro other mem'
    by_cases isOriginal : other.req.reqid = original.req.reqid
    · have eq := inj_on_of_nodup_map inv.nodup mem' inside isOriginal
      rw [eq]
      simp [← sameLink, same]
    · simp [isOriginal]

theorem callback_of_client {req : Request} {callbacks : List Request}
    (client : req.type ≠ .REFRESH) :
    callback req callbacks = callbacks ++ [req] := by
  cases type : req.type with
  | READ | WRITE => simp [callback, type]
  | REFRESH => exact absurd type client

theorem receivePackets_inv (inv : Inv tagged spec [pkt.req.reqid] mem)
    (isResponse : pkt.IsResponse mem.accepted mem.clk) :
    Ends Failure.Elsewhere (mem.receivePackets pkt) (Inv tagged spec []) := by
  have noFlow : pkt.flowControl = false := by simp [Packet.flowControl, isResponse.type]
  rw [receivePackets, noFlow]
  apply Ends.check isResponse.type
  refine .pure ?_
  have client : ({ pkt.req with departHmc := mem.clk } : Request).type ≠
      .REFRESH := isResponse.client
  rw [callback_of_client client]
  exact { inv with
    path := by
      intro id
      have before := inv.path id
      simp only [map_append, map_cons, map_nil, count_append, count_nil] at before ⊢
      omega
    delivered := forall_mem_append.mpr ⟨inv.delivered, forall_mem_singleton.mpr isResponse⟩
    callbacks := by simp only [map_append, inv.callbacks, map_cons, map_nil]
    departed := forall_mem_append.mpr ⟨inv.departed, forall_mem_singleton.mpr isResponse.departed⟩
    tags := by
      intro isTagged slid insideLink
      have before := inv.tags isTagged slid insideLink
      have moved := inv.outstanding_deliver isResponse.copies slid
        (update mem.tagsPools pkt.slid (mem.tagsPools pkt.slid ++ [pkt.tag]))
        (mem.callbacks ++ [{ pkt.req with departHmc := mem.clk }])
      refine List.Perm.trans ?_ before
      refine List.Perm.trans ?_ (moved.append_left _).symm
      by_cases same : pkt.slid = slid
      · subst same
        simp
      · simp [same, Ne.symm same] }

/-! ## Links that send -/

/-- A link whose buffers stay as they are. -/
theorem Inv.setLink_same {link : Link}
    (inv : Inv tagged spec hand mem) (inside : index < spec.sourceLinks)
    (input : link.slave.inputBuffer = (mem.links index).slave.inputBuffer)
    (refused : link.slave.headRefused = (mem.links index).slave.headRefused)
    (output : link.master.outputBuffer = (mem.links index).master.outputBuffer) :
    Inv tagged spec hand (mem.setLink index link) := by
  have carries := inv.links index inside
  apply inv.moveLink inside
  · exact
      { inputs := by rw [input]; exact carries.inputs
        outputs := by rw [output]; exact carries.outputs
        refused := by rw [refused, input]; exact carries.refused }
  · intro vault id
    rw [Link.Awaits, Link.Awaits, refused, input]
  · intro id
    rw [Link.present, Link.present, input, output]

variable (inv : Inv tagged spec [] mem)
include inv

section

variable (inside : index < spec.sourceLinks)
include inside

theorem sendFlowControl_inv :
    Ends Failure.Elsewhere (mem.sendFlowControl spec index) (Inv tagged spec []) := by
  have step : Inv tagged spec [] (mem.setLink index (returnTokens spec 1 (mem.links index)).2) :=
    inv.setLink_same inside rfl rfl rfl
  unfold sendFlowControl
  dsimp only
  split
  · exact .ok step
  · exact .ok step

theorem masterSend_inv :
    Ends Failure.Elsewhere (mem.masterSend spec index) (Inv tagged spec []) := by
  unfold masterSend
  split
  · exact sendFlowControl_inv inv inside
  · next pkt rest output =>
    split
    · have carries := inv.links index inside
      have isResponse := carries.outputs pkt (by simp [output])
      apply receivePackets_inv
      · apply inv.moveLink inside
        · exact
            { inputs := carries.inputs
              outputs := by
                intro other mem'
                exact carries.outputs other (by simp [output, mem'])
              refused := carries.refused }
        · exact fun _ _ => Iff.rfl
        · intro id
          simp only [Link.present, output, map_append,
            map_cons, count_append, count_cons, count_nil]
          omega
      · exact { isResponse with }
    · exact sendFlowControl_inv inv inside

theorem masterTick_inv :
    Ends Failure.Elsewhere (mem.masterTick spec index) (Inv tagged spec []) := by
  have ticked : Inv tagged spec [] (mem.setLink index { mem.links index with
      master := { (mem.links index).master with
        clk := (mem.links index).master.clk + 1 } }) :=
    inv.setLink_same inside rfl rfl rfl
  unfold masterTick
  dsimp only
  split
  · exact masterSend_inv ticked inside
  · exact .ok ticked

end

/-! ## The switch -/

omit inv in
/-- What a link waits for when the head of its input buffer is known. -/
theorem not_awaits {link : Link} {rest : List Packet} {id : Int}
    (input : link.slave.inputBuffer = pkt :: rest)
    (apart : vault ≠ pkt.req.vault ∨ id ≠ pkt.req.reqid) : ¬ link.Awaits vault id := by
  rintro ⟨-, head, isHead, isId, isVault⟩
  rw [input, head?_cons, Option.some.injEq] at isHead
  subst isHead
  rcases apart with apart | apart
  · exact apart isVault.symm
  · exact apart isId.symm

theorem forward_inv {usedVaults : List Nat} (inside : index < spec.sourceLinks) :
    Ends Failure.Elsewhere (forward spec (mem, usedVaults) index)
      (fun state => Inv tagged spec [] state.1) := by
  unfold forward
  dsimp only
  split
  · exact .ok inv
  · next pkt rest input =>
    have carries := inv.links index inside
    have isRequest := carries.inputs pkt (by simp [input])
    have keeps := inv.vaults pkt.req.vault isRequest.vault
    split
    · apply (Controller.receive_preserved keeps isRequest).bind
      rintro ⟨ctrl, stored, accepted⟩ ⟨isStored, present, keepsNext⟩
      dsimp only at isStored present keepsNext ⊢
      cases accepted with
      | true =>
        refine .pure ?_
        have others (link : Link) (notRefused : link.slave.headRefused = false)
            (vault : Nat) (id : Int)
            (apart : vault ≠ pkt.req.vault ∨ id ≠ pkt.req.reqid) :
            link.Awaits vault id ↔ (mem.links index).Awaits vault id := by
          constructor
          · intro awaits
            rw [Link.Awaits, notRefused] at awaits
            exact absurd awaits.1 Bool.false_ne_true
          · exact fun awaits => absurd awaits (not_awaits input apart)
        apply inv.move inside isRequest.vault
        · exact
            { inputs := by
                intro other mem'
                exact carries.inputs other (by simp [input, mem'])
              outputs := carries.outputs
              refused := fun refused => absurd refused Bool.false_ne_true }
        · apply keepsNext
          · intro id apart
            exact awaited_update (others _ rfl _ id (.inr apart))
          · exact fun isFalse => absurd isFalse (by simp)
        · intro other apart id
          exact others _ rfl other id (.inl apart)
        · intro id
          have counted := present.count_eq id
          simp only [Link.present, input, map_append, map_cons, count_append, count_cons, count_nil,
            if_true] at counted ⊢
          omega
      | false =>
        refine .pure ?_
        have sameId : stored.req.reqid = pkt.req.reqid := by rw [isStored]
        have sameVault : stored.req.vault = pkt.req.vault := by
          rw [isStored]; rfl
        have others (vault : Nat) (id : Int) (apart : vault ≠ pkt.req.vault ∨ id ≠ pkt.req.reqid) :
            ({ mem.links index with
              slave := { (mem.links index).slave with
                inputBuffer := stored :: rest
                headRefused := true } } : Link).Awaits vault id ↔
              (mem.links index).Awaits vault id := by
          refine iff_of_false (not_awaits rfl ?_) (not_awaits input apart)
          rwa [sameId, sameVault]
        apply inv.move inside isRequest.vault
        · exact
            { inputs := by
                refine forall_mem_cons.mpr ⟨?_, fun other later =>
                  carries.inputs other (by simp [input, later])⟩
                rw [isStored]
                exact { isRequest with }
              outputs := carries.outputs
              refused := fun _ => cons_ne_nil _ _ }
        · apply keepsNext
          · intro id apart
            exact awaited_update (others _ id (.inr apart))
          · intro _
            refine ⟨index, inside, ?_⟩
            rw [update_self]
            exact ⟨rfl, stored, rfl, sameId, sameVault⟩
        · intro other apart id
          exact others other id (.inl apart)
        · intro id
          have counted := present.count_eq id
          simp only [Link.present, input, map_append, map_cons,
            count_append, count_cons, count_nil, sameId,
            Bool.false_eq_true, if_false] at counted ⊢
          omega
    · exact .ok inv

theorem respond_inv {usedLinks : List Nat} (inside : vault < spec.vaults) :
    Inv tagged spec [] (respond spec (mem, usedLinks) vault).1 := by
  unfold respond
  dsimp only
  split
  · exact inv
  · next pkt rest responses =>
    have keeps := inv.vaults vault inside
    have isResponse := keeps.responses pkt (by simp [responses])
    have insideLink : pkt.slid < spec.sourceLinks := by
      obtain ⟨original, isAccepted, -, -, same⟩ := isResponse.copies
      rw [same]
      exact inv.origins original isAccepted
    have carries := inv.links pkt.slid insideLink
    split
    · apply inv.move insideLink inside
      · exact
          { inputs := carries.inputs
            outputs := forall_mem_append.mpr ⟨carries.outputs, forall_mem_singleton.mpr isResponse⟩
            refused := carries.refused }
      · have rest : ({ mem.ctrls vault with responsePacketsBuffer := rest } :
            Controller σ).Keeps mem.accepted mem.clk (Awaited spec mem.links vault) :=
          { keeps with
            responses := by
              intro other mem'
              exact keeps.responses other (by simp [responses, mem']) }
        exact rest.congr fun id => awaited_update Iff.rfl
      · exact fun _ _ _ => Iff.rfl
      · intro id
        simp only [Link.present, Controller.present, responses,
          map_append, map_cons, map_nil, count_append,
          count_cons, count_nil]
        omega
    · exact inv

/-! ## A cycle -/

theorem ctrlTick_inv {issue : Issue σ} (inside : vault < spec.vaults)
    (early : (mem.ctrls vault).queues.clk < mem.clk) :
    Ends Failure.Elsewhere (mem.ctrlTick spec issue vault) (fun next =>
      Inv tagged spec [] next ∧ next.clk = mem.clk ∧
        ∀ other ≠ vault, next.ctrls other = mem.ctrls other) := by
  apply (Controller.tick_preserved (inv.vaults vault inside) early
    (inv.held_once inside) (inv.apart inside)).bind
  intro ctrl preserved
  refine .pure ⟨inv.moveCtrl inside preserved, rfl, ?_⟩
  intro other apart
  exact update_of_ne apart _ _

theorem Inv.advance : Inv tagged spec [] { mem with clk := mem.clk + 1 } := by
  have later := Nat.le_succ mem.clk
  have same : mem.accepted ++ [] = mem.accepted := append_nil _
  exact { inv with
    links := fun index inside => same ▸ (inv.links index inside).mono later
    vaults := fun vault inside => same ▸ (inv.vaults vault inside).mono later
    delivered := fun pkt inside =>
      same ▸ (inv.delivered pkt inside).mono later }

theorem tick_inv {issue : Issue σ} :
    Ends Failure.Elsewhere (mem.tick spec issue) (Inv tagged spec []) := by
  -- Every controller is a cycle behind until its turn comes.
  apply (Ends.foldlM (fun rest (mem : Memory σ) => Inv tagged spec [] mem ∧ rest.Nodup ∧
      (∀ vault ∈ rest, vault < spec.vaults) ∧
      ∀ vault ∈ rest, (mem.ctrls vault).queues.clk < mem.clk) ?_ ?_).bind
  · rintro ticked ⟨invTicked, -⟩
    apply (Ends.foldlM (fun _ (mem : Memory σ) => Inv tagged spec [] mem) ?_ invTicked).bind
    · intro sent invSent
      apply (Ends.foldlM (fun _ (state : Memory σ × List Nat) => Inv tagged spec [] state.1)
        ?_ invSent).bind
      · rintro ⟨routed, used⟩ invRouted
        refine .pure ?_
        apply foldlRecOn (motive := fun state : Memory σ × List Nat =>
          Inv tagged spec [] state.1)
        · exact invRouted
        · rintro ⟨answered, usedLinks⟩ invAnswered vault inside
          exact respond_inv invAnswered (mem_range.mp inside)
      · rintro index rest ⟨routed, used⟩ inside invRouted
        exact forward_inv invRouted (mem_range.mp inside)
    · intro index rest sent inside invSent
      exact masterTick_inv invSent (mem_range.mp inside)
  · rintro vault rest ticked - ⟨invTicked, nodup, inside, early⟩
    apply (ctrlTick_inv invTicked (inside vault mem_cons_self) (early vault mem_cons_self)).mono
    rintro next ⟨invNext, sameClk, sameCtrls⟩
    rw [nodup_cons] at nodup
    refine ⟨invNext, nodup.2, fun other later => inside other (mem_cons_of_mem _ later), ?_⟩
    intro other later
    have apart : other ≠ vault := fun same => nodup.1 (same ▸ later)
    rw [sameClk, sameCtrls other apart]
    exact early other (mem_cons_of_mem _ later)
  · refine ⟨inv.advance, nodup_range, fun vault inside => mem_range.mp inside, ?_⟩
    intro vault inside
    exact Nat.lt_succ_of_le (inv.vaults vault (mem_range.mp inside)).clock

end Damov.Ramulator.Memory
