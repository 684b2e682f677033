import Damov.Library.Checked
import Damov.Ramulator.AddressMapping

/-!
# The request queues of a vault controller

A controller keeps its requests in a queue for each request type and the
finished ones in `pending`, until they depart. A read of an address with a
waiting write never enters the queue: it departs in the next cycle. Refresh
requests come from the controller itself, one in every refresh interval.

Which request gets the next command is up to the scheduler and the banks. Here
only the effect on the queues counts: `finish` is what the controller does after
the last command of a request.
-/

namespace Damov.Ramulator

open Library Checked Function

inductive RequestType where
  | READ
  | WRITE
  | REFRESH
  deriving DecidableEq

/-- The constructors of a request leave `addr` of a refresh, `depart`,
`arriveHmc` and `departHmc` unset; here they start at zero. -/
structure Request where
  addr : Nat := 0
  addrVec : List Int := []
  type : RequestType
  reqid : Int := -1
  arrive : Int := -1
  depart : Nat := 0
  arriveHmc : Nat := 0
  departHmc : Nat := 0
  burstCount : Int := 0
  deriving DecidableEq

namespace Request

/-- The request for a refresh of a whole vault. -/
def ofRefresh (vault : Nat) : Request where
  addrVec := [(vault : Int), -1, -1, -1, -1]
  type := .REFRESH

/-- The vault of a request. -/
def vault (req : Request) : Nat := (req.addrVec.getD Level.Vault.index (-1)).toNat

end Request

/-- The assertions on the way of a command. -/
inductive IssueFailure where
  | bankState
  | issueCmd
  | rowTable
  deriving DecidableEq

/-- The assertions of the memory and its controllers. -/
inductive Failure where
  | formRequestPacket
  | formResponsePacket
  | receive
  | receivePackets
  | refreshTarget
  | issue (failure : IssueFailure)
  deriving DecidableEq

/-- The capacity of each queue, the bounds between which writes are preferred,
the refresh interval and the latencies after the last command. -/
structure QueueConfig where
  max : RequestType → Nat
  writeHigh : Nat
  writeLow : Nat
  nREFI : Nat
  readLatency : Nat
  writeLatency : Nat

structure Refresh where
  clk : Nat
  refreshed : Nat

structure Queues where
  clk : Nat
  queue : RequestType → List Request
  pending : List Request
  writeMode : Bool
  refresh : Refresh

namespace Queues

variable (cfg : QueueConfig)

def initial : Queues where
  clk := 0
  queue := fun _ => []
  pending := []
  writeMode := false
  refresh := ⟨0, 0⟩

/-- Append a request that has found room in its queue. -/
def push (req : Request) (qs : Queues) : Queues :=
  if req.type = .READ ∧ ∃ write ∈ qs.queue .WRITE, req.addr = write.addr then
    { qs with
      pending := qs.pending ++ [{ req with depart := qs.clk + 1 }] }
  else
    { qs with
      queue := update qs.queue req.type (qs.queue req.type ++ [req]) }

/-- Take a request in, unless its queue is full. -/
def enqueue (req : Request) (qs : Queues) : Queues × Bool :=
  if cfg.max req.type = (qs.queue req.type).length then (qs, false)
  else (qs.push { req with arrive := qs.clk }, true)

/-- `tick_ref`: ask for a refresh when the interval has passed. -/
def tickRef (vault : Nat) (qs : Queues) : Except Failure Queues := do
  let clk := qs.refresh.clk + 1
  if cfg.nREFI ≤ clk - qs.refresh.refreshed then
    let (qs, accepted) := qs.enqueue cfg (.ofRefresh vault)
    check (accepted = true) .refreshTarget
    return { qs with refresh := ⟨clk, clk⟩ }
  else
    return { qs with refresh := { qs.refresh with clk := clk } }

/-- Turn to the writes when they pile up, and back when few are left. -/
def scheduleWrites (qs : Queues) : Queues :=
  if qs.writeMode then
    if (qs.queue .WRITE).length ≤ cfg.writeLow ∧ (qs.queue .READ).length ≠ 0 then
      { qs with writeMode := false }
    else qs
  else
    if cfg.writeHigh ≤ (qs.queue .WRITE).length ∨ (qs.queue .READ).length = 0 then
      { qs with writeMode := true }
    else qs

/-- The queue that may issue a command; refreshes go first. -/
def active (qs : Queues) : RequestType :=
  if (qs.queue .REFRESH).length ≠ 0 then .REFRESH
  else if qs.writeMode then .WRITE
  else .READ

/-- One burst of a request has been transferred. -/
def burst (req : Request) : Request :=
  match req.type with
  | .REFRESH => req
  | _ => { req with burstCount := req.burstCount - 1 }

/-- The requests that wait for their departure after a request is done. -/
def depart (req : Request) (qs : Queues) : List Request :=
  match req.type with
  | .READ =>
    qs.pending ++ [{ req with depart := qs.clk + cfg.readLatency }]
  | .WRITE =>
    qs.pending ++ [{ req with depart := qs.clk + cfg.writeLatency }]
  | .REFRESH => qs.pending

/-- The last command of the request at this position has been issued. -/
def finish (type : RequestType) (position : Nat) (qs : Queues) : Queues :=
  match (qs.queue type)[position]? with
  | none => qs
  | some req =>
    if (burst req).burstCount = 0 then
      { qs with
        queue := update qs.queue type ((qs.queue type).eraseIdx position)
        pending := qs.depart cfg (burst req) }
    else
      { qs with
        queue := update qs.queue type ((qs.queue type).set position (burst req)) }

/-! ## What holds for the requests in the queues -/

section

variable {cfg : QueueConfig} {qs : Queues} {holds : RequestType → Request → Prop}
variable (each : ∀ kind, ∀ req ∈ qs.queue kind, holds kind req)
include each

theorem push_each {req : Request} (new : holds req.type req) (kind : RequestType) :
    ∀ other ∈ (qs.push req).queue kind, holds kind other := by
  intro other mem
  unfold push at mem
  split at mem
  · exact each kind other mem
  · by_cases same : kind = req.type
    · subst same
      simp only [update_self, List.mem_append, List.mem_singleton] at mem
      rcases mem with old | rfl
      · exact each _ other old
      · exact new
    · simp only [update_of_ne same] at mem
      exact each kind other mem

theorem finish_each {type : RequestType} {pos : Nat}
    (bursts : ∀ req, holds type req → holds type (burst req)) (kind : RequestType) :
    ∀ other ∈ (qs.finish cfg type pos).queue kind, holds kind other := by
  intro other mem
  unfold finish at mem
  split at mem
  · exact each kind other mem
  · next req found =>
    by_cases same : kind = type
    · subst same
      split at mem <;> simp only [update_self] at mem
      · exact each kind other (List.mem_of_mem_eraseIdx mem)
      · rcases List.mem_or_eq_of_mem_set mem with old | rfl
        · exact each kind other old
        · exact bursts req (each kind req (List.mem_of_getElem? found))
    · split at mem <;> simp only [update_of_ne same] at mem <;> exact each kind other mem

end

end Queues

end Damov.Ramulator
