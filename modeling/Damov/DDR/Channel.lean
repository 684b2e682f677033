import Damov.Library.Checked
import Mathlib.Data.Nat.Log
import Mathlib.Algebra.Group.Nat.Defs

/-!
# The timing of a DDR channel

`DDRMemory` computes when the commands of its channel are issued. The commands
of a request are chosen together when its column command is scheduled: a
precharge and an activation, where its row is not open, lie before that and
partly in the past. This file has the timing parameters, the state of the banks
and of the data bus, and the two functions that choose commands:
`trySchedule`, once it has picked its request, and `refresh`.

The channel keeps the commands it has chosen, the newest first.
-/

namespace Damov.DDR

open Library.Checked Function

inductive DDRFailure where
  | badRank
  | badBank
  | actWindow
  | cmdOrder
  | refreshOrder
  | refreshShort
  | queueFull
  | emptyQueue
  | noEvent
  | writeResponse
  | doneCycle
  | holdState
  | releaseState
  | doneState
  | tickCycle
  | schedOrder
  | recycledNext
  | recycledLink
  | schedIdle
  | schedQueued
  | schedAnnulled
  | runState
  | requeueState
  | notPending
  deriving DecidableEq

/-! ## The address mapping -/

inductive MapField where
  | rank
  | bank
  | col
deriving DecidableEq

inductive MapFailure where
  | tokens
  | repeated
deriving DecidableEq

/-- The row has no mask, and starts where the fields end. -/
structure AddrMap where
  shift : MapField → Nat
  mask : MapField → Nat
  startBit : Nat

namespace AddrMap

/-- The sizes of the fields; a column is a line of a page. -/
def sizesOf (ranks banks columns : Nat) : MapField → Nat
  | .rank => ranks
  | .bank => banks
  | .col => columns

def computeShiftAndMask (fieldBits : MapField → Nat) (map : AddrMap)
    (field : MapField) : Except MapFailure AddrMap := do
  check (map.mask field = 0) .repeated
  return {
    shift := update map.shift field map.startBit
    mask := update map.mask field (2 ^ fieldBits field - 1)
    startBit := map.startBit + fieldBits field }

/-- The tokens go from the highest field to the lowest. -/
def ofTokens (fieldBits : MapField → Nat) (tokens : List MapField) : Except MapFailure AddrMap := do
  check (tokens.length = 3) .tokens
  tokens.reverse.foldlM (computeShiftAndMask fieldBits) ⟨fun _ => 0, fun _ => 0, 0⟩

/-- A shift of a 64-bit word takes its count modulo 64. -/
def shiftRight (word count : Nat) : Nat := word >>> (count % 64)

def field (map : AddrMap) (field : MapField) (lineAddr : Nat) : Nat :=
  shiftRight lineAddr (map.shift field) &&& map.mask field

def row (map : AddrMap) (lineAddr : Nat) : Nat := shiftRight lineAddr map.startBit

end AddrMap

/-! ## Parameters -/

/-- The timing table of a technology, in memory cycles. `initTech` checks that
every entry was set. -/
structure Tech where
  tBL : Nat
  tCL : Nat
  tRCD : Nat
  tRTP : Nat
  tRP : Nat
  tRRD : Nat
  tRAS : Nat
  tFAW : Nat
  tWTR : Nat
  tWR : Nat
  tRFC : Nat
  tREFI : Nat
  allSet : 0 < tBL ∧ 0 < tCL ∧ 0 < tRCD ∧ 0 < tRTP ∧ 0 < tRP ∧ 0 < tRRD ∧
    0 < tRAS ∧ 0 < tFAW ∧ 0 < tWTR ∧ 0 < tWR ∧ 0 < tRFC ∧ 0 < tREFI

/--
What the constructor fixes. It refuses a memory whose clock is not slower than half
of the system's. It does not check that there is a rank, a bank and a place in the
queues, which is assumed here: with queues of depth 0 every request would stay in the
overflow queue.
-/
structure Config where
  tech : Tech
  lineSize : Nat
  ranksPerChannel : Nat
  banksPerRank : Nat
  controllerSysLatency : Nat
  queueDepth : Nat
  rowHitLimit : Nat
  deferredWrites : Bool
  closedPage : Bool
  sysFreqKHz : Nat
  memFreqKHz : Nat
  columns : Nat
  addrMapping : List MapField
  addrMap : AddrMap
  mapped : AddrMap.ofTokens (Nat.log 2 ∘ AddrMap.sizesOf ranksPerChannel banksPerRank columns)
    addrMapping = .ok addrMap
  hasRanks : 0 < ranksPerChannel
  hasBanks : 0 < banksPerRank
  hasQueues : 0 < queueDepth
  memRuns : 0 < memFreqKHz
  memSlower : memFreqKHz < sysFreqKHz / 2

namespace Config

variable (cfg : Config)

/-- The bursts of the tables are those of lines of 64 bytes. -/
def tBL : Nat :=
  if cfg.lineSize = 32 then cfg.tech.tBL / 2
  else cfg.lineSize * cfg.tech.tBL / 64

def tCL : Nat := cfg.tech.tCL
def tRCD : Nat := cfg.tech.tRCD
def tRTP : Nat := cfg.tech.tRTP
def tRP : Nat := cfg.tech.tRP
def tRRD : Nat := cfg.tech.tRRD
def tRAS : Nat := cfg.tech.tRAS
def tFAW : Nat := cfg.tech.tFAW
def tWTR : Nat := cfg.tech.tWTR
def tWR : Nat := cfg.tech.tWR
def tRFC : Nat := cfg.tech.tRFC

theorem tRP_pos : 0 < cfg.tRP := cfg.tech.allSet.2.2.2.2.1

/-! ### Clocks -/

def sysToMemCycle (sysCycle : Nat) : Nat := sysCycle * cfg.memFreqKHz / cfg.sysFreqKHz + 1

def memToSysCycle (memCycle : Nat) : Nat := (memCycle + 1) * cfg.sysFreqKHz / cfg.memFreqKHz

def matchingMemToSysCycle (memCycle : Nat) : Nat :=
  (2 * memCycle - 1) * cfg.sysFreqKHz / cfg.memFreqKHz / 2

def minRdLatency : Nat := cfg.controllerSysLatency + cfg.memToSysCycle (cfg.tCL + cfg.tBL - 1)

def minWrLatency : Nat := cfg.controllerSysLatency

def preDelay : Nat := cfg.controllerSysLatency

def postDelayRd : Nat := cfg.minRdLatency - cfg.preDelay

def postDelayWr (_ : Config) : Nat := 0

/-! ### Locations -/

/-- A bank of a rank. -/
abbrev BankId : Type := Fin cfg.ranksPerChannel × Fin cfg.banksPerRank

def allBanks : List cfg.BankId := (List.finRange cfg.ranksPerChannel).flatMap fun rank =>
    (List.finRange cfg.banksPerRank).map fun bank => (rank, bank)

theorem mem_allBanks (bank : cfg.BankId) : bank ∈ cfg.allBanks := by simp [allBanks]

end Config

structure AddrLoc (cfg : Config) where
  row : Nat
  bank : Fin cfg.banksPerRank
  rank : Fin cfg.ranksPerChannel
  col : Nat
  deriving DecidableEq

namespace AddrLoc

variable {cfg : Config}

def bankId (loc : AddrLoc cfg) : cfg.BankId := (loc.rank, loc.bank)

end AddrLoc

/-- `id` numbers the requests; `ev` is the event that waits for a response. -/
structure Request (cfg : Config) where
  id : Nat
  loc : AddrLoc cfg
  write : Bool
  rowHitSeq : Nat
  arrivalCycle : Nat
  ev : Option Nat
  deriving DecidableEq

namespace Config

variable (cfg : Config)

def mapLineAddr (lineAddr : Nat) : Except DDRFailure (AddrLoc cfg) :=
  let rank := cfg.addrMap.field .rank lineAddr
  let bank := cfg.addrMap.field .bank lineAddr
  if rankBound : rank < cfg.ranksPerChannel then
    if bankBound : bank < cfg.banksPerRank then
      .ok {
        row := cfg.addrMap.row lineAddr
        bank := ⟨bank, bankBound⟩
        rank := ⟨rank, rankBound⟩
        col := cfg.addrMap.field .col lineAddr }
    else .error .badBank
  else .error .badRank

end Config

/-! ## Activation windows -/

/-- The last activations of a rank, in a circular buffer. -/
structure RankWindow where
  size : Nat
  buf : Nat → Nat
  idx : Nat

namespace RankWindow

def init (size : Nat) : RankWindow := ⟨size, fun _ => 0, 0⟩

def minActCycle (win : RankWindow) : Nat := win.buf win.idx

def inc (win : RankWindow) (i : Nat) : Nat := if i < win.size - 1 then i + 1 else 0

def dec (win : RankWindow) (i : Nat) : Nat := if i ≠ 0 then i - 1 else win.size - 1

/-- The loop of `addActivation`, which ends after a whole turn. -/
def makeRoom (win : RankWindow) (actCycle : Nat) : Nat → (Nat → Nat) → Nat → (Nat → Nat) × Nat
  | 0, buf, cur => (buf, cur)
  | fuel + 1, buf, cur =>
    if actCycle < buf (win.dec cur) then
      let moved := update buf cur (buf (win.dec cur))
      if win.dec cur = win.idx then (moved, win.dec cur)
      else win.makeRoom actCycle fuel moved (win.dec cur)
    else (buf, cur)

def addActivation (win : RankWindow) (actCycle : Nat) : Except DDRFailure RankWindow := do
  check (win.minActCycle ≤ actCycle) .actWindow
  let room := win.makeRoom actCycle win.size win.buf win.idx
  return { win with
    buf := update room.1 room.2 actCycle
    idx := win.inc win.idx }

end RankWindow

/-! ## The channel -/

/-- The timing of a bank. Where it is closed, `minPreCycle` is the time of its
last precharge. -/
structure Bank where
  openRow : Nat
  isOpen : Bool
  minPreCycle : Nat
  lastActCycle : Nat
  lastCmdCycle : Nat
  curRowHits : Nat

inductive Command (cfg : Config) where
  | PRE (bank : cfg.BankId) (cycle : Nat)
  | ACT (bank : cfg.BankId) (row cycle : Nat)
  | RD (bank : cfg.BankId) (row cycle : Nat)
  | WR (bank : cfg.BankId) (row cycle : Nat)
  | REF (start finish : Nat)
  deriving DecidableEq

structure Channel (cfg : Config) where
  banks : cfg.BankId → Bank
  rankActWindows : Fin cfg.ranksPerChannel → RankWindow
  minRespCycle : Nat
  lastCmdWasWrite : Bool
  commands : List (Command cfg)

namespace Channel

variable {cfg : Config}

/-- `lastCmdWasWrite` is not set by the constructor. -/
def initial (lastCmdWasWrite : Bool) : Channel cfg where
  banks := fun _ => ⟨0, false, 0, 0, 0, 0⟩
  rankActWindows := fun _ => .init 4
  minRespCycle := cfg.tCL + cfg.tBL + 1
  lastCmdWasWrite
  commands := []

variable (ch : Channel cfg) (r : Request cfg)

/-- The bank of a request. -/
def bankOf : Bank := ch.banks r.loc.bankId

def rowHit : Bool := r.loc.row == (ch.bankOf r).openRow && (ch.bankOf r).isOpen

/-- When a request that misses has its bank precharged. -/
def preCycle : Nat :=
  if (ch.bankOf r).isOpen then
    max r.arrivalCycle (ch.bankOf r).minPreCycle
  else (ch.bankOf r).minPreCycle

/-- When a request that misses has its row activated. -/
def actCycle : Nat := max (max r.arrivalCycle (max (ch.preCycle r + cfg.tRP)
        ((ch.bankOf r).lastActCycle + cfg.tRRD)))
    ((ch.rankActWindows r.loc.rank).minActCycle + cfg.tFAW)

def findMinCmdCycle : Nat :=
  if ch.rowHit r then
    max r.arrivalCycle ((ch.bankOf r).lastCmdCycle + 1)
  else ch.actCycle r + cfg.tRCD

/-- The commands that open the row of a request that misses. -/
def activate : Except DDRFailure (Channel cfg) := do
  let bank := ch.bankOf r
  let actCycle := ch.actCycle r
  let win ← (ch.rankActWindows r.loc.rank).addActivation actCycle
  let precharged :=
    if bank.isOpen then
      .PRE r.loc.bankId (ch.preCycle r) :: ch.commands
    else ch.commands
  return { ch with
    banks := update ch.banks r.loc.bankId { bank with
      isOpen := true
      openRow := r.loc.row
      minPreCycle :=
        if bank.isOpen then ch.preCycle r + cfg.tRAS
        else bank.minPreCycle
      lastActCycle := actCycle }
    rankActWindows := update ch.rankActWindows r.loc.rank win
    commands := .ACT r.loc.bankId r.loc.row actCycle :: precharged }

def openRow : Except DDRFailure (Channel cfg) :=
  if ch.rowHit r then .ok ch else ch.activate r

/-- The earliest column command of a request, as far as its bank and the turn of
the bus from writes to reads go. -/
def minCmdCycle (curCycle : Nat) : Nat :=
  let free := max curCycle (ch.minRespCycle - cfg.tCL)
  let turned :=
    if ch.lastCmdWasWrite && !r.write then
      max free (ch.minRespCycle + cfg.tWTR)
    else free
  if ch.rowHit r then turned
  else max turned (ch.actCycle r + cfg.tRCD)

def cmdCycle (curCycle : Nat) : Nat := max (ch.minCmdCycle r curCycle) (ch.minRespCycle - cfg.tCL)

/-- The column command of a request. `nextHits` says that the next request of
its bank hits the row. -/
def column (cmdCycle : Nat) (nextHits : Bool) : Except DDRFailure (Channel cfg) := do
  let bank := ch.bankOf r
  let minRespCycle := cmdCycle + cfg.tCL + cfg.tBL
  let closes := cfg.closedPage && !nextHits
  let minPreCycle := max bank.minPreCycle (max (bank.lastActCycle + cfg.tRAS)
        (if r.write then minRespCycle + cfg.tWR
          else cmdCycle + cfg.tRTP))
  check (bank.lastCmdCycle < cmdCycle) .cmdOrder
  let issued := (if r.write then .WR r.loc.bankId r.loc.row cmdCycle
      else .RD r.loc.bankId r.loc.row cmdCycle) :: ch.commands
  return { ch with
    banks := update ch.banks r.loc.bankId { bank with
      isOpen := bank.isOpen && !closes
      minPreCycle
      lastCmdCycle := cmdCycle
      curRowHits := r.rowHitSeq }
    minRespCycle
    lastCmdWasWrite := r.write
    commands := if closes then .PRE r.loc.bankId minPreCycle :: issued else issued }

/-- The commands of the request that `trySchedule` has picked. -/
def schedule (curCycle : Nat) (nextHits : Bool) : Except DDRFailure (Channel cfg) := do
  let opened ← ch.openRow r
  opened.column r (ch.cmdCycle r curCycle) nextHits

def minRefreshCycle (memCycle : Nat) : Nat :=
  cfg.allBanks.foldl (fun cycle bank =>
      max cycle (max (ch.banks bank).minPreCycle (ch.banks bank).lastCmdCycle))
    memCycle

/-- The banks that are open are precharged when the refresh starts. -/
def refresh (memCycle : Nat) : Except DDRFailure (Channel cfg) := do
  let minRefreshCycle := ch.minRefreshCycle memCycle
  check (memCycle ≤ minRefreshCycle) .refreshOrder
  let refreshDoneCycle := minRefreshCycle + cfg.tRFC
  check (cfg.tRP ≤ cfg.tRFC) .refreshShort
  let precharges := (cfg.allBanks.filter fun bank => (ch.banks bank).isOpen).map
      fun bank => Command.PRE bank minRefreshCycle
  return { ch with
    banks := fun bank => { ch.banks bank with
      minPreCycle := refreshDoneCycle - cfg.tRP
      isOpen := false }
    commands := .REF minRefreshCycle refreshDoneCycle :: (precharges ++ ch.commands) }

end Channel

end Damov.DDR
