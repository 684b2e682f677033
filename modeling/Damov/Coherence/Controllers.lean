import Damov.Coherence.MemoryHierarchy
import Mathlib.Algebra.Group.Nat.Defs

/-!
# The MESI coherence controllers

`MESIBottomCC` keeps the state of each line with respect to the upper level and
issues accesses to it. `MESITopCC` keeps the directory of the lower level and
issues invalidations to it. `CheckForMESIRace` repairs a request whose line was
invalidated or downgraded after the request was made.

The definitions follow `coherence_ctrls.h` and `coherence_ctrls.cpp` statement
by statement, over an arbitrary global memory. A cache of a tree has one
parent, so the choice of a parent bank is left out; the parent is an argument of
the functions that call it.
-/

namespace Damov.Coherence

open Library.Checked

variable {Memory : Type}

/-! ## The bottom controller -/

/-- `MESIBottomCC`; `getRTT` is zero where there is no network. -/
structure MESIBottomCC (Memory : Type) where
  array : LineId → Ref Memory MESIState
  selfId : Nat
  getRTT : Nat → Nat → Nat
  nonInclusiveHack : Bool
  bypass : Bool

namespace MESIBottomCC

variable (bcc : MESIBottomCC Memory)

/-- The request that the controller sends to its parent for one of its lines. -/
def request (lineAddr : Address) (lineId : LineId) (type : AccessType)
    (cycle srcId : Nat) (flags : Flags) (memory : Memory) :
    MemReq Memory where
  lineAddr := lineAddr
  type := type
  childId := bcc.selfId
  state := bcc.array lineId
  cycle := cycle
  initialState := (bcc.array lineId).read memory
  srcId := srcId
  flags := flags

variable (parent : MemObject Memory)

/-- The switch of `processEviction` on the state of the line. -/
def giveUp (wbLineAddr : Address) (lineId : LineId) (cycle srcId : Nat) (memory : Memory) :
    Except Failure (Memory × Nat) := do
  let state := bcc.array lineId
  let (memory, respCycle) ←
    match state.read memory with
    | .I => pure (memory, cycle)
    | .S | .E =>
      parent (bcc.request wbLineAddr lineId .PUTS cycle srcId {} memory) memory
    | .M =>
      parent (bcc.request wbLineAddr lineId .PUTX cycle srcId {} memory) memory
  check (state.read memory = .I) Failure.evictionFinalState
  pure (memory, respCycle)

/-- Nothing is sent for an invalid line. -/
theorem giveUp_invalid {bcc : MESIBottomCC Memory} {parent : MemObject Memory}
    {wbLineAddr : Address} {lineId : LineId} {cycle srcId : Nat}
    {memory : Memory} (invalid : (bcc.array lineId).read memory = .I) :
    bcc.giveUp parent wbLineAddr lineId cycle srcId memory = .ok (memory, cycle) := by
  simp [giveUp, invalid]

def processEviction (wbLineAddr : Address) (lineId : LineId)
    (lowerLevelWriteback : Bool) (cycle srcId : Nat) (memory : Memory) :
    Except Failure (Memory × Nat) := do
  let state := bcc.array lineId
  if lowerLevelWriteback then
    check (state.read memory = .M ∨ state.read memory = .E) Failure.evictionWritebackNotExclusive
    bcc.giveUp parent wbLineAddr lineId cycle srcId (state.write .M memory)
  else
    bcc.giveUp parent wbLineAddr lineId cycle srcId memory

variable (lineAddr : Address)

/-- A miss: ask the parent and add the latencies of the level and the network. -/
def fetch (lineId : LineId) (type : AccessType) (cycle srcId : Nat)
    (flags : Flags) (memory : Memory) :
    Except Failure (Memory × Nat) := do
  let (memory, parentCycle) ←
    parent (bcc.request lineAddr lineId type cycle srcId flags memory) memory
  let nextLevelLat := (parentCycle - cycle) % 2 ^ 32
  let netLat := bcc.getRTT cycle nextLevelLat
  pure (memory, cycle + (nextLevelLat + netLat))

def processAccess (lineId : LineId) (type : AccessType) (cycle srcId : Nat)
    (flags : Flags) (memory : Memory) :
    Except Failure (Memory × Nat) := do
  let state := bcc.array lineId
  if bcc.bypass then
    parent (bcc.request lineAddr lineId type cycle srcId flags memory) memory
  else
    let (memory, respCycle) ←
      match type with
      | .PUTS => do
          check (state.read memory ≠ .I) Failure.putsOnInvalidLine
          pure (memory, cycle)
      | .PUTX => do
          check (state.read memory = .M ∨ state.read memory = .E) Failure.putxWithoutExclusive
          if state.read memory = .E then
            pure (state.write .M memory, cycle)
          else
            pure (memory, cycle)
      | .GETS => do
          if state.read memory = .I then
            let (memory, respCycle) ←
              bcc.fetch parent lineAddr lineId .GETS cycle srcId flags memory
            check (state.read memory = .S ∨ state.read memory = .E) Failure.getsFinalState
            pure (memory, respCycle)
          else
            pure (memory, cycle)
      | .GETX => do
          let (memory, respCycle) ←
            if state.read memory = .I ∨ state.read memory = .S then
              bcc.fetch parent lineAddr lineId .GETX cycle srcId flags memory
            else if state.read memory = .E then
              pure (state.write .M memory, cycle)
            else
              pure (memory, cycle)
          check (state.read memory = .M) Failure.getxFinalState
          pure (memory, respCycle)
    check (cycle ≤ respCycle) Failure.responseBeforeRequest
    pure (memory, respCycle)

variable (lineId : LineId) (memory : Memory)

def processWritebackOnAccess : Except Failure Memory := do
  let state := bcc.array lineId
  check (state.read memory = .M ∨ state.read memory = .E) Failure.writebackWithoutExclusive
  if state.read memory = .E then
    pure (state.write .M memory)
  else
    pure memory

def processInval (type : InvType) (reqWriteback : Bool) (memory : Memory) :
    Except Failure (Memory × Bool) := do
  let state := bcc.array lineId
  check (state.read memory ≠ .I) Failure.invalOnInvalidLine
  match type with
  | .INVX => do
      check (state.read memory = .E ∨ state.read memory = .M) Failure.invxWithoutExclusive
      pure (state.write .S memory, reqWriteback || state.read memory == .M)
  | .INV =>
    pure (state.write .I memory, reqWriteback || state.read memory == .M)
  | .FWD => do
      check (state.read memory = .S) Failure.fwdOnUnsharedLine
      pure (memory, reqWriteback)

def processNonInclusiveWriteback (type : AccessType) (cycle : Nat)
    (state : Ref Memory MESIState) (srcId : Nat) (flags : Flags) (memory : Memory) :
    Except Failure (Memory × Nat) := do
  check (bcc.nonInclusiveHack = true) Failure.nonInclusiveWriteback
  parent
    { lineAddr := lineAddr
      type := type
      childId := bcc.selfId
      state := state
      cycle := cycle
      initialState := state.read memory
      srcId := srcId
      flags := { flags with NONINCLWB := true } }
    memory

/-- `MESIBottomCC::isExclusive`. -/
def isExclusive : Bool := ((bcc.array lineId).read memory).isExclusive

/-- `MESIBottomCC::isValid`. -/
def isValid : Bool := (bcc.array lineId).read memory != .I

end MESIBottomCC

/-! ## The top controller -/

/-- A directory entry; the bit set is the set of its bits that are set. -/
structure Entry where
  numSharers : Nat
  sharers : Finset Nat
  exclusive : Bool
deriving DecidableEq

namespace Entry

/-- The entry after `clear()`. -/
def clear : Entry := ⟨0, ∅, false⟩

def isEmpty (e : Entry) : Bool := e.numSharers == 0

def isExclusive (e : Entry) : Bool := e.numSharers == 1 && e.exclusive

end Entry

/-- `MESITopCC`; a child is known by its `invalidate` method. -/
structure MESITopCC (Memory : Type) where
  array : LineId → Ref Memory Entry
  numChildren : Nat
  child : Fin numChildren → Invalidate Memory
  getRTT : Nat → Nat → Nat → Nat
  nonInclusiveHack : Bool

namespace MESITopCC

/-- The locals of the loop of `sendInvalidates`. -/
structure InvLoop (Memory : Type) where
  memory : Memory
  reqWriteback : Bool
  maxCycle : Nat
  sentInvs : Nat

variable (tcc : MESITopCC Memory) (lineAddr : Address) (lineId : LineId)

/-- One iteration of the loop: invalidate child `c` if it is a sharer. -/
def sendInvalidate (type : InvType) (cycle srcId : Nat)
    (loop : InvLoop Memory) (c : Fin tcc.numChildren) :
    Except Failure (InvLoop Memory) := do
  let e := tcc.array lineId
  if c.val ∈ (e.read loop.memory).sharers then
    let (memory, reqWriteback, childCycle) ←
      tcc.child c ⟨lineAddr, type, cycle, srcId⟩ loop.reqWriteback loop.memory
    let latency := childCycle - cycle
    let respCycle := childCycle + tcc.getRTT c.val cycle latency
    let memory :=
      if type = .INV then
        let entry := e.read memory
        e.write { entry with sharers := entry.sharers.erase c.val } memory
      else
        memory
    pure ⟨memory, reqWriteback, max respCycle loop.maxCycle, loop.sentInvs + 1⟩
  else
    pure loop

def sendInvalidates (type : InvType) (reqWriteback : Bool) (cycle srcId : Nat) (memory : Memory) :
    Except Failure (Memory × Bool × Nat) := do
  let e := tcc.array lineId
  if type = .INVX ∧ (e.read memory).isExclusive = false then
    pure (memory, reqWriteback, cycle)
  else if (e.read memory).isEmpty then
    pure (memory, reqWriteback, cycle)
  else
    let loop ← (List.finRange tcc.numChildren).foldlM
        (tcc.sendInvalidate lineAddr lineId type cycle srcId)
        ⟨memory, reqWriteback, cycle, 0⟩
    let entry := e.read loop.memory
    check (loop.sentInvs = entry.numSharers) Failure.sentInvsMismatch
    if type = .INV then
      pure (e.write { entry with numSharers := 0 } loop.memory, loop.reqWriteback, loop.maxCycle)
    else
      check (entry.exclusive = true) Failure.downgradeNotExclusive
      check (entry.numSharers = 1) Failure.downgradeSeveralSharers
      pure (e.write { entry with exclusive := false } loop.memory, loop.reqWriteback, loop.maxCycle)

/-- Nothing is sent for a line without sharers. -/
theorem sendInvalidates_empty {tcc : MESITopCC Memory} {lineId : LineId}
    {memory : Memory} (reqWriteback : Bool) (cycle srcId : Nat)
    (empty : ((tcc.array lineId).read memory).isEmpty = true) :
    tcc.sendInvalidates lineAddr lineId .INV reqWriteback cycle srcId memory =
      .ok (memory, reqWriteback, cycle) := by simp [sendInvalidates, empty, pure, Except.pure]

def processEviction (wbLineAddr : Address) (lineId : LineId)
    (reqWriteback : Bool) (cycle srcId : Nat) (memory : Memory) :
    Except Failure (Memory × Bool × Nat) :=
  if tcc.nonInclusiveHack then
    pure ((tcc.array lineId).write Entry.clear memory, reqWriteback, cycle)
  else
    tcc.sendInvalidates wbLineAddr lineId .INV reqWriteback cycle srcId memory

/-- The `PUTS` case of `processAccess`, which `PUTX` falls through to. -/
def removeSharer (childId : Nat) (childState : Ref Memory MESIState)
    (inducedWriteback : Bool) (cycle : Nat) (memory : Memory) :
    Except Failure (Memory × Bool × Nat) := do
  let e := tcc.array lineId
  let entry := e.read memory
  check (childId ∈ entry.sharers) Failure.putByNonSharer
  let memory := e.write
      { entry with
        sharers := entry.sharers.erase childId
        numSharers := entry.numSharers - 1 }
      memory
  pure (childState.write .I memory, inducedWriteback, cycle)

def processAccess (type : AccessType) (childId : Nat) (haveExclusive : Bool)
    (childState : Ref Memory MESIState) (inducedWriteback : Bool)
    (cycle srcId : Nat) (flags : Flags) (memory : Memory) :
    Except Failure (Memory × Bool × Nat) := do
  let e := tcc.array lineId
  match type with
  | .PUTX => do
      check ((e.read memory).isExclusive = true) Failure.putxEntryNotExclusive
      if flags.PUTX_KEEPEXCL then
        check (childId ∈ (e.read memory).sharers) Failure.keepExclNotSharer
        check (childState.read memory = .M) Failure.keepExclNotModified
        pure (childState.write .E memory, inducedWriteback, cycle)
      else
        tcc.removeSharer lineId childId childState inducedWriteback cycle memory
  | .PUTS =>
    tcc.removeSharer lineId childId childState inducedWriteback cycle memory
  | .GETS =>
    let entry := e.read memory
    if entry.isEmpty ∧ haveExclusive ∧ ¬ flags.NOEXCL then
      let memory := e.write
          { numSharers := 1
            sharers := insert childId entry.sharers
            exclusive := true }
          memory
      pure (childState.write .E memory, inducedWriteback, cycle)
    else do
      check (childId ∉ entry.sharers) Failure.getsBySharer
      let (memory, inducedWriteback, respCycle) ←
        if entry.isExclusive then
          tcc.sendInvalidates lineAddr lineId .INVX inducedWriteback cycle srcId memory
        else
          pure (memory, inducedWriteback, cycle)
      let entry := e.read memory
      check (entry.isExclusive = false) Failure.getsEntryStillExclusive
      let memory := e.write
          { numSharers := entry.numSharers + 1
            sharers := insert childId entry.sharers
            exclusive := false }
          memory
      pure (childState.write .S memory, inducedWriteback, respCycle)
  | .GETX => do
      check (haveExclusive = true) Failure.getxWithoutExclusive
      let entry := e.read memory
      let memory ←
        if childId ∈ entry.sharers then do
          check (entry.isExclusive = false) Failure.spuriousGetx
          pure (e.write
              { entry with
                sharers := entry.sharers.erase childId
                numSharers := entry.numSharers - 1 }
              memory)
        else
          pure memory
      let (memory, inducedWriteback, respCycle) ←
        tcc.sendInvalidates lineAddr lineId .INV inducedWriteback cycle srcId memory
      let entry := e.read memory
      let memory := e.write
          { numSharers := entry.numSharers + 1
            sharers := insert childId entry.sharers
            exclusive := true }
          memory
      check ((e.read memory).numSharers = 1) Failure.getxNumSharers
      pure (childState.write .M memory, inducedWriteback, respCycle)

def processInval (type : InvType) (reqWriteback : Bool) (cycle srcId : Nat) (memory : Memory) :
    Except Failure (Memory × Bool × Nat) := do
  if type = .FWD then
    check (tcc.nonInclusiveHack = false) Failure.fwdNonInclusive
    pure (memory, reqWriteback, cycle)
  else
    tcc.sendInvalidates lineAddr lineId type reqWriteback cycle srcId memory

end MESITopCC

/-! ## Races -/

/--
`CheckForMESIRace`: the type with which the access goes on, and whether it is
skipped.
-/
def checkForMESIRace (type : AccessType) (state initialState : MESIState) :
    Except Failure (AccessType × Bool) := do
  if state = initialState then
    pure (type, false)
  else
    match type with
    | .PUTS | .PUTX =>
      if state = .I then
        pure (type, true)
      else
        check (state = .S) Failure.racePutNotDowngraded
        pure (.PUTS, false)
    | .GETX => do
        check (initialState = .S) Failure.raceGetxInitialState
        check (state = .I) Failure.raceGetxState
        pure (type, false)
    | .GETS => .error Failure.invalidRace

end Damov.Coherence
