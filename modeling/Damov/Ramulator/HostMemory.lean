import Damov.Ramulator.RequestQueues
import Mathlib.Algebra.Ring.Int.Defs

/-!
# The memory cube behind its host links

In host mode a request travels as a packet. `send` puts it into the input buffer
of one of the source links. The switch moves it on to the controller of its
vault, which answers with a response packet; the switch moves the response to the
output buffer of the link it came from, and the link hands it back to the host,
which calls the requester back.

Every packet takes a tag from the pool of its link and returns it with the
response. The controllers issue commands in whatever way their scheduler and
banks do: `issue` stands for that.
-/

namespace Damov.Ramulator

open Library Checked Function

/-! ## Packets -/

inductive PacketType where
  | REQUEST
  | RESPONSE
  | TRET
  deriving DecidableEq

inductive PacketCommand where
  | WR16
  | WR32
  | WR48
  | WR64
  | WR80
  | WR96
  | WR112
  | WR128
  | WR256
  | RD16
  | RD32
  | RD48
  | RD64
  | RD80
  | RD96
  | RD112
  | RD128
  | RD256
  deriving DecidableEq

/-- A missing entry of a map is its zero value. -/
def writeCmdMap : Nat → PacketCommand
  | 1 => .WR16
  | 2 => .WR32
  | 3 => .WR48
  | 4 => .WR64
  | 5 => .WR80
  | 6 => .WR96
  | 7 => .WR112
  | 8 => .WR128
  | 16 => .WR256
  | _ => .WR16

def readCmdMap : Nat → PacketCommand
  | 1 => .RD16
  | 2 => .RD32
  | 3 => .RD48
  | 4 => .RD64
  | 5 => .RD80
  | 6 => .RD96
  | 7 => .RD112
  | 8 => .RD128
  | 16 => .RD256
  | _ => .WR16

/-- The fields of header and tail. A response has no `adrs`, and a flow control
packet has only `rtc`. -/
structure Packet where
  type : PacketType
  cub : Nat := 0
  adrs : Nat := 0
  tag : Int := 0
  lng : Nat := 1
  slid : Nat := 0
  cmd : PacketCommand := .WR16
  rtc : Nat := 0
  req : Request
  deriving DecidableEq

namespace Packet

def flowControl (packet : Packet) : Bool := packet.type = .TRET

/-- The field widths that a packet is checked for. -/
def Valid (packet : Packet) : Prop :=
  packet.cub < 2 ^ 3 ∧ packet.adrs < 2 ^ 34 ∧ packet.tag < 2 ^ 11 ∧ packet.slid < 2 ^ 3

instance (packet : Packet) : Decidable packet.Valid := by
  unfold Valid
  infer_instance

end Packet

/-! ## The parts -/

structure HMC where
  org : Organization
  flitNumBits : Nat
  sourceLinks : Nat
  sourceLinks_pos : 0 < sourceLinks
  payloadFlits : Nat
  maxTags : Nat
  addressing : Addressing
  queue : QueueConfig
  slaveBufferMax : Nat
  masterBufferMax : Nat
  /-- The cycles that a packet of this many flits occupies a link. -/
  flitCycles : Nat → Nat

namespace HMC

def bytesPerFlit : Nat := 16

/-- The bursts that transfer one payload. -/
def burstCount (spec : HMC) : Nat :=
  spec.payloadFlits / (Organization.prefetchSize * Organization.channelWidth / 8 / bytesPerFlit)

def vaults (spec : HMC) : Nat := spec.org.count .Vault

end HMC

/-- `headRefused` records that the packet at the head has been refused by the
controller of its vault. -/
structure LinkSlave where
  extractedTokenCount : Nat
  inputBuffer : List Packet
  headRefused : Bool

structure LinkMaster where
  outputBuffer : List Packet
  availableTokenCount : Nat
  clk : Nat
  nextPacketClk : Nat

structure Link where
  slave : LinkSlave
  master : LinkMaster

namespace Link

def initial (spec : HMC) : Link where
  slave := ⟨0, [], false⟩
  master := ⟨[], spec.slaveBufferMax, 0, 0⟩

/-- A packet of the host arrives at the slave. -/
def receive (packet : Packet) (link : Link) : Link where
  slave :=
    if packet.flowControl then link.slave
    else { link.slave with inputBuffer := link.slave.inputBuffer ++ [packet] }
  master := { link.master with
    availableTokenCount := link.master.availableTokenCount + packet.rtc }

def slaveSpace (spec : HMC) (link : Link) : Int :=
  spec.slaveBufferMax - link.slave.inputBuffer.length

def masterSpace (spec : HMC) (link : Link) : Int :=
  spec.masterBufferMax - link.master.outputBuffer.length

end Link

/-- What a controller's scheduler and banks do in a cycle: the new state of the
banks and, if a request got its last command, its position in the active
queue. -/
abbrev Issue (σ : Type) := σ → Queues → Except IssueFailure (σ × Option Nat)

structure Controller (σ : Type) where
  queues : Queues
  banks : σ
  responsePacketsBuffer : List Packet
  incomingPacketsBuffer : Int → Option Packet

namespace Controller

variable {σ : Type}

def initial (banks : σ) : Controller σ where
  queues := .initial
  banks := banks
  responsePacketsBuffer := []
  incomingPacketsBuffer := fun _ => none

variable (spec : HMC)

/-- Take a packet in; it is stored even if its request finds no room. -/
def receive (packet : Packet) (ctrl : Controller σ) :
    Except Failure (Controller σ × Packet × Bool) := do
  check (packet.type = .REQUEST) .receive
  let req := { packet.req with burstCount := spec.burstCount }
  let packet := { packet with req := req }
  let entered := ctrl.queues.enqueue spec.queue req
  return ({ ctrl with
    queues := entered.1
    incomingPacketsBuffer := update ctrl.incomingPacketsBuffer req.reqid (some packet) },
    packet, entered.2)

/-- The response to a request that was stored with this packet. -/
def responseTo (stored : Packet) (req : Request) : Packet where
  type := .RESPONSE
  cub := stored.cub
  tag := stored.tag
  lng := if req.type = .WRITE then 1 else 1 + spec.payloadFlits
  slid := stored.slid
  cmd := stored.cmd
  req := req

def formResponsePacket (req : Request) (ctrl : Controller σ) :
    Except Failure (Packet × Controller σ) :=
  match ctrl.incomingPacketsBuffer req.reqid with
  | none => .error .formResponsePacket
  | some stored => do
      let packet := responseTo spec stored req
      check packet.Valid .formResponsePacket
      return (packet, { ctrl with
        incomingPacketsBuffer := update ctrl.incomingPacketsBuffer req.reqid none })

/-- Answer the oldest pending request if it departs by now. -/
def serve (ctrl : Controller σ) : Except Failure (Controller σ) :=
  match ctrl.queues.pending with
  | [] => .ok ctrl
  | req :: pending =>
    if req.depart ≤ ctrl.queues.clk then do
      let (packet, ctrl) ← ctrl.formResponsePacket spec req
      return { ctrl with
        responsePacketsBuffer := ctrl.responsePacketsBuffer ++ [packet]
        queues := { ctrl.queues with pending := pending } }
    else .ok ctrl

/-- Issue a command, and take its request on if it was the last one. -/
def issueCommand (issue : Issue σ) (ctrl : Controller σ) : Except Failure (Controller σ) :=
  match issue ctrl.banks ctrl.queues with
  | .error failure => .error (.issue failure)
  | .ok (banks, none) => .ok { ctrl with banks := banks }
  | .ok (banks, some pos) => .ok { ctrl with
      banks := banks
      queues := ctrl.queues.finish spec.queue ctrl.queues.active pos }

def tick (issue : Issue σ) (vault : Nat) (ctrl : Controller σ) : Except Failure (Controller σ) := do
  let ctrl ← { ctrl with
    queues := { ctrl.queues with clk := ctrl.queues.clk + 1 } }.serve spec
  let queues ← ctrl.queues.tickRef spec.queue vault
  { ctrl with queues := queues.scheduleWrites spec.queue }.issueCommand spec issue

end Controller

/-! ## The memory -/

/-- The last three fields record the packets of the accepted requests, the
responses that reached the host and the requests that were called back. -/
structure Memory (σ : Type) where
  clk : Nat
  memReqCount : Nat
  tagsPools : Nat → List Int
  ctrls : Nat → Controller σ
  links : Nat → Link
  accepted : List Packet
  delivered : List Packet
  callbacks : List Request

namespace Memory

variable {σ : Type}

def initial (spec : HMC) (banks : Nat → σ) : Memory σ where
  clk := 0
  memReqCount := 0
  tagsPools := fun _ => (List.range spec.maxTags).map Int.ofNat
  ctrls := fun vault => .initial (banks vault)
  links := fun _ => .initial spec
  accepted := []
  delivered := []
  callbacks := []

/-- Take a tag out of the pool of a link; there is none if it is empty. -/
def assignTag (slid : Nat) (mem : Memory σ) : Int × Memory σ :=
  match mem.tagsPools slid with
  | [] => (-1, mem)
  | tag :: pool =>
    (tag, { mem with tagsPools := update mem.tagsPools slid pool })

variable (spec : HMC)

/-- The source link of an address. -/
def slidOf (addr : Nat) : Nat := (addr >>> spec.flitNumBits) % spec.sourceLinks

variable (req : Request)

/-- The flits of a request packet. -/
def requestFlits : Nat := if req.type = .READ then 1 else 1 + spec.payloadFlits

def requestCommand : Except Failure PacketCommand :=
  match req.type with
  | .READ => .ok (readCmdMap (requestFlits spec req))
  | .WRITE => .ok (writeCmdMap (requestFlits spec req))
  | .REFRESH => .error .formRequestPacket

variable (mem : Memory σ)

def formRequestPacket : Except Failure (Packet × Memory σ) := do
  let slid := slidOf spec req.addr
  let (tag, mem) := mem.assignTag slid
  let cmd ← requestCommand spec req
  let packet : Packet := {
    type := .REQUEST
    cub := req.addr / spec.org.capacityPerStack
    adrs := req.addr
    tag := tag
    lng := requestFlits spec req
    slid := slid
    cmd := cmd
    req := req }
  check packet.Valid .formRequestPacket
  return (packet, mem)

/-- The request as it enters the memory: cut to its size, with a number and its
position in the memory. -/
def localRequest : Request :=
  let addr := req.addr &&& (spec.org.capacityPerStack - 1)
  { req with
    addr := addr
    addrVec := spec.org.addrVec spec.flitNumBits spec.addressing addr
    reqid := mem.memReqCount
    arriveHmc := mem.clk }

/-- Hand a request to the memory, which may refuse it. -/
def send : Except Failure (Memory σ × Bool) := do
  let (packet, mem) ← mem.formRequestPacket spec (mem.localRequest spec req)
  if packet.tag = -1 then return (mem, false)
  else
    let link := mem.links packet.slid
    if packet.lng ≤ link.slaveSpace spec then
      return ({ mem with
        links := update mem.links packet.slid (link.receive packet)
        memReqCount := mem.memReqCount + 1
        accepted := mem.accepted ++ [packet] }, true)
    else return (mem, false)

/-- The callback of a request that a response has answered. -/
def callback (callbacks : List Request) : List Request :=
  match req.type with
  | .READ => callbacks ++ [req]
  | .WRITE => callbacks ++ [req]
  | .REFRESH => callbacks

/-- The host takes a packet from a link. -/
def receivePackets (packet : Packet) (mem : Memory σ) : Except Failure (Memory σ) :=
  if packet.flowControl then .ok mem
  else do
    check (packet.type = .RESPONSE) .receivePackets
    return { mem with
      tagsPools := update mem.tagsPools packet.slid (mem.tagsPools packet.slid ++ [packet.tag])
      delivered := mem.delivered ++ [packet]
      callbacks := callback { packet.req with departHmc := mem.clk } mem.callbacks }

variable (index : Nat)

def setLink (link : Link) (mem : Memory σ) : Memory σ :=
  { mem with links := update mem.links index link }

/-- The highest power of two in a number, zero for zero. -/
def leftmostbit (val : Nat) : Nat := if val = 0 then 0 else 2 ^ val.log2

/-- A link that returns tokens to the host and is busy for this many flits. -/
def returnTokens (flits : Nat) (link : Link) : Nat × Link :=
  let rtc := leftmostbit link.slave.extractedTokenCount
  (rtc,
    { slave := { link.slave with
        extractedTokenCount := link.slave.extractedTokenCount - rtc }
      master := { link.master with
        nextPacketClk := link.master.clk + spec.flitCycles flits } })

/-- Send a flow control packet, or a null packet if there are no tokens. -/
def sendFlowControl (mem : Memory σ) : Except Failure (Memory σ) :=
  let (rtc, link) := returnTokens spec 1 (mem.links index)
  if 0 < (mem.links index).slave.extractedTokenCount then
    (mem.setLink index link).receivePackets { type := .TRET, rtc := rtc, req := { type := .READ } }
  else .ok (mem.setLink index link)

/-- The master of a link sends its next packet to the host. -/
def masterSend (mem : Memory σ) : Except Failure (Memory σ) :=
  match (mem.links index).master.outputBuffer with
  | [] => mem.sendFlowControl spec index
  | packet :: rest =>
    if packet.lng ≤ (mem.links index).master.availableTokenCount then
      let (rtc, link) := returnTokens spec packet.lng (mem.links index)
      (mem.setLink index { link with
        master := { link.master with outputBuffer := rest } }).receivePackets
          { packet with rtc := rtc }
    else mem.sendFlowControl spec index

def masterTick : Except Failure (Memory σ) :=
  let link := mem.links index
  let master := { link.master with clk := link.master.clk + 1 }
  let mem := mem.setLink index { link with master := master }
  if master.nextPacketClk ≤ master.clk then mem.masterSend spec index
  else .ok mem

/-- The switch moves the head packet of a link to its vault. A vault takes one
packet in a cycle. -/
def forward (state : Memory σ × List Nat) (index : Nat) : Except Failure (Memory σ × List Nat) :=
  let (mem, usedVaults) := state
  let link := mem.links index
  match link.slave.inputBuffer with
  | [] => .ok state
  | packet :: rest =>
    let vault := packet.req.vault
    if packet.cub = 0 ∧ vault ∉ usedVaults then do
      let (ctrl, packet, accepted) ← (mem.ctrls vault).receive spec packet
      let mem := { mem with ctrls := update mem.ctrls vault ctrl }
      if accepted then
        return (mem.setLink index { link with
          slave := {
            extractedTokenCount := link.slave.extractedTokenCount + packet.lng
            inputBuffer := rest
            headRefused := false } }, vault :: usedVaults)
      else
        return (mem.setLink index { link with
          slave := { link.slave with
            inputBuffer := packet :: rest
            headRefused := true } }, usedVaults)
    else .ok state

/-- The switch moves a response to the link of its request. A link takes one
packet in a cycle. -/
def respond (state : Memory σ × List Nat) (vault : Nat) : Memory σ × List Nat :=
  let (mem, usedLinks) := state
  let ctrl := mem.ctrls vault
  match ctrl.responsePacketsBuffer with
  | [] => state
  | packet :: rest =>
    let link := mem.links packet.slid
    if packet.slid ∉ usedLinks ∧ packet.lng ≤ link.masterSpace spec then
      ({ mem with
        links := update mem.links packet.slid { link with
          master := { link.master with
            outputBuffer := link.master.outputBuffer ++ [packet] } }
        ctrls := update mem.ctrls vault { ctrl with responsePacketsBuffer := rest } },
        packet.slid :: usedLinks)
    else state

variable (issue : Issue σ)

def ctrlTick (mem : Memory σ) (vault : Nat) : Except Failure (Memory σ) := do
  let ctrl ← (mem.ctrls vault).tick spec issue vault
  return { mem with ctrls := update mem.ctrls vault ctrl }

def switchTick : Except Failure (Memory σ) := do
  let (mem, _) ← (List.range spec.sourceLinks).foldlM (forward spec) (mem, [])
  return ((List.range spec.vaults).foldl (respond spec) (mem, [])).1

def tick (mem : Memory σ) : Except Failure (Memory σ) := do
  let mem ← (List.range spec.vaults).foldlM (ctrlTick spec issue) { mem with clk := mem.clk + 1 }
  let mem ← (List.range spec.sourceLinks).foldlM (masterTick spec) mem
  mem.switchTick spec

/-! ## Runs -/

inductive Op where
  | send (req : Request)
  | tick
  deriving DecidableEq

def step (mem : Memory σ) : Op → Except Failure (Memory σ)
  | .send req => do return (← mem.send spec req).1
  | .tick => mem.tick spec issue

def run (ops : List Op) (mem : Memory σ) : Except Failure (Memory σ) :=
  ops.foldlM (step spec issue) mem

end Memory

end Damov.Ramulator
