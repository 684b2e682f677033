import Damov.Ramulator.DramTree
import Damov.Ramulator.RequestQueues

/-!
# The banks of a vault

The specification of the memory cube gives commands their prerequisites, effects
and delays at the vault, its bank groups and its banks. The controller of the
vault keeps a table of the open rows beside it. In each cycle the scheduler
chooses a request from the active queue, and the controller issues the first
command that the request needs, if it is ready.

The row policy is `Opened`: a row is closed only when a request or a refresh needs
it closed.
-/

namespace Damov.Ramulator

open Library Function

namespace HMC

inductive Command where
  | ACT
  | PRE
  | PREA
  | RD
  | WR
  | RDA
  | WRA
  | REF
  | PDE
  | PDX
  | SRE
  | SRX
  deriving DecidableEq

inductive State where
  | Opened
  | Closed
  | PowerUp
  | ActPowerDown
  | PrePowerDown
  | SelfRefresh
  | MAX
  deriving DecidableEq

def scope : Command → Level
  | .ACT => .Row
  | .PRE => .Bank
  | .PREA => .Vault
  | .RD | .WR | .RDA | .WRA => .Column
  | .REF | .PDE | .PDX | .SRE | .SRX => .Vault

def isOpening : Command → Bool
  | .ACT => true
  | _ => false

def isAccessing : Command → Bool
  | .RD | .WR | .RDA | .WRA => true
  | _ => false

def isClosing : Command → Bool
  | .RDA | .WRA | .PRE | .PREA => true
  | _ => false

/-- The command that a request is for. -/
def translate : RequestType → Command
  | .READ => .RD
  | .WRITE => .WR
  | .REFRESH => .REF

def start : Nat → State
  | 0 => .PowerUp
  | 2 => .Closed
  | 3 => .Closed
  | _ => .MAX

/-- The cycles of a speed grade. -/
structure SpeedEntry where
  nBL : Int
  nCCDS : Int
  nCCDL : Int
  nCL : Int
  nRCD : Int
  nRP : Int
  nCWL : Int
  nRAS : Int
  nRC : Int
  nRTP : Int
  nWTRS : Int
  nWTRL : Int
  nWR : Int
  nRRDS : Int
  nRRDL : Int
  nFAW : Int
  nRFC : Int
  nPD : Int
  nXP : Int
  nCKESR : Int
  nXS : Int

/-! ## Prerequisites -/

/-- The banks of a vault, in the order in which its loops visit them. -/
def banks (org : Organization) (node : Path) : List Path :=
  (List.range (org.count .BankGroup)).flatMap fun bankGroup =>
    (List.range (org.count .Bank)).map fun bank => bank :: bankGroup :: node

abbrev Prereq := States State → Path → Int → Except DramFailure (Option Command)

def vaultAccess : Prereq := fun states node _ =>
  match (states node).state with
  | .PowerUp => return none
  | .ActPowerDown => return some .PDX
  | .PrePowerDown => return some .PDX
  | .SelfRefresh => return some .SRX
  | _ => .error .badState

def bankAccess (cmd : Command) : Prereq := fun states node id =>
  match (states node).state with
  | .Closed => return some .ACT
  | .Opened =>
    if (states node).hasRow id then return some cmd else return some .PRE
  | _ => .error .badState

variable (org : Organization)

def vaultRefresh : Prereq := fun states node _ =>
  if (banks org node).all fun bank => (states bank).state = .Closed then
    return some .REF
  else return some .PREA

def vaultPowerDown : Prereq := fun states node _ =>
  match (states node).state with
  | .PowerUp => return some .PDE
  | .ActPowerDown => return some .PDE
  | .PrePowerDown => return some .PDE
  | .SelfRefresh => return some .SRX
  | _ => .error .badState

def vaultSelfRefresh : Prereq := fun states node _ =>
  match (states node).state with
  | .PowerUp => return some .SRE
  | .ActPowerDown => return some .PDX
  | .PrePowerDown => return some .PDX
  | .SelfRefresh => return some .SRE
  | _ => .error .badState

def prereq (level : Nat) (cmd : Command) : Option Prereq :=
  match level, cmd with
  | 0, .RD => some vaultAccess
  | 2, .RD => some (bankAccess .RD)
  | 0, .WR => some vaultAccess
  | 2, .WR => some (bankAccess .WR)
  | 0, .REF => some (vaultRefresh org)
  | 0, .PDE => some vaultPowerDown
  | 0, .SRE => some vaultSelfRefresh
  | _, _ => none

/-! ## Row hits -/

abbrev RowCheck := States State → Path → Int → Except DramFailure Bool

def bankRowHit : RowCheck := fun states node id =>
  match (states node).state with
  | .Closed => return false
  | .Opened => return (states node).hasRow id
  | _ => .error .badState

def bankRowOpen : RowCheck := fun states node _ =>
  match (states node).state with
  | .Closed => return false
  | .Opened => return true
  | _ => .error .badState

/-- Only reads and writes look at the rows of a bank. -/
def forAccess (rowCheck : RowCheck) (level : Nat) (cmd : Command) : Option RowCheck :=
  match level, cmd with
  | 2, .RD => some rowCheck
  | 2, .WR => some rowCheck
  | _, _ => none

/-! ## Effects -/

abbrev Effect := Path → Int → States State → States State

def openRow : Effect := fun node id states =>
  update states node { (states node).setRow id .Opened with state := .Opened }

def closeBank : Effect := fun node _ states =>
  update states node ⟨.Closed, []⟩

def closeAll : Effect := fun node _ states =>
  (banks org node).foldl (fun states bank => update states bank ⟨.Closed, []⟩)
    states

def powerDown : Effect := fun node _ states =>
  update states node { states node with
    state :=
      if (banks org node).all fun bank => (states bank).state = .Closed then
        .PrePowerDown
      else .ActPowerDown }

def enterState (state : State) : Effect := fun node _ states =>
  update states node { states node with state := state }

def noEffect : Effect := fun _ _ states => states

def lambda (level : Nat) (cmd : Command) : Option Effect :=
  match level, cmd with
  | 2, .ACT => some openRow
  | 2, .PRE => some closeBank
  | 0, .PREA => some (closeAll org)
  | 0, .REF => some noEffect
  | 2, .RD => some noEffect
  | 2, .WR => some noEffect
  | 2, .RDA => some closeBank
  | 2, .WRA => some closeBank
  | 0, .PDE => some (powerDown org)
  | 0, .PDX => some (enterState .PowerUp)
  | 0, .SRE => some (enterState .SelfRefresh)
  | 0, .SRX => some (enterState .PowerUp)
  | _, _ => none

/-! ## Delays -/

theorem one_of_sibling : false = true → 1 = 1 := fun _ => rfl

theorem four_of_sibling : false = true → 4 = 1 := by decide

theorem four_pos : 0 < 4 := by decide

/-- A delay after the last command. -/
def after (cmd : Command) (val : Int) : TimingEntry Command :=
  ⟨cmd, 1, val, false, Nat.one_pos, one_of_sibling⟩

/-- A delay after the fourth last command. -/
def afterFour (cmd : Command) (val : Int) : TimingEntry Command :=
  ⟨cmd, 4, val, false, four_pos, four_of_sibling⟩

variable (speed : SpeedEntry)

/-- The timing table of the vaults. -/
def vaultTiming : Command → List (TimingEntry Command)
  | .ACT =>
    [after .ACT speed.nRRDS, afterFour .ACT speed.nFAW, after .PREA speed.nRAS, after .PDE 1]
  | .PRE =>
    [after .REF speed.nRP, after .SRE speed.nRP]
  | .PREA =>
    [after .ACT speed.nRP, after .REF speed.nRP, after .SRE speed.nRP]
  | .RD =>
    [after .RD speed.nBL, after .RDA speed.nBL, after .RD speed.nCCDS, after .RDA speed.nCCDS,
      after .WR (speed.nCL + speed.nCCDS + 2 - speed.nCWL),
      after .WRA (speed.nCL + speed.nCCDS + 2 - speed.nCWL),
      after .PREA speed.nRTP, after .PDE (speed.nCL + speed.nBL + 1)]
  | .WR =>
    [after .WR speed.nBL, after .WRA speed.nBL, after .WR speed.nCCDS, after .WRA speed.nCCDS,
      after .RD (speed.nCWL + speed.nBL + speed.nWTRS),
      after .RDA (speed.nCWL + speed.nBL + speed.nWTRS),
      after .PREA (speed.nCWL + speed.nBL + speed.nWR),
      after .PDE (speed.nCWL + speed.nBL + speed.nWR)]
  | .RDA =>
    [after .RD speed.nBL, after .RDA speed.nBL, after .RD speed.nCCDS, after .RDA speed.nCCDS,
      after .WR (speed.nCL + speed.nCCDS + 2 - speed.nCWL),
      after .WRA (speed.nCL + speed.nCCDS + 2 - speed.nCWL),
      after .PDE (speed.nCL + speed.nBL + 1)]
  | .WRA =>
    [after .WR speed.nBL, after .WRA speed.nBL, after .WR speed.nCCDS, after .WRA speed.nCCDS,
      after .RD (speed.nCWL + speed.nBL + speed.nWTRS),
      after .RDA (speed.nCWL + speed.nBL + speed.nWTRS),
      after .PDE (speed.nCWL + speed.nBL + speed.nWR + 1)]
  | .REF =>
    [after .ACT speed.nRFC, after .REF speed.nRFC, after .PDE 1]
  | .PDE =>
    [after .PDX speed.nPD]
  | .PDX =>
    [after .RD speed.nXP, after .RDA speed.nXP, after .WR speed.nXP,
      after .WRA speed.nXP, after .ACT speed.nXP, after .PRE speed.nXP,
      after .PREA speed.nXP, after .REF speed.nXP, after .PDE speed.nXP,
      after .SRE speed.nXP]
  | .SRE =>
    [after .SRX speed.nCKESR]
  | .SRX =>
    [after .ACT speed.nXS, after .REF speed.nXS, after .PDE speed.nXS, after .SRE speed.nXS]

/-- The timing table of the bank groups. -/
def bankGroupTiming : Command → List (TimingEntry Command)
  | .ACT =>
    [after .ACT speed.nRRDL]
  | .RD =>
    [after .RD speed.nCCDL, after .RDA speed.nCCDL]
  | .WR =>
    [after .WR speed.nCCDL, after .WRA speed.nCCDL,
      after .RD (speed.nCWL + speed.nBL + speed.nWTRL),
      after .RDA (speed.nCWL + speed.nBL + speed.nWTRL)]
  | .RDA =>
    [after .RD speed.nCCDL, after .RDA speed.nCCDL]
  | .WRA =>
    [after .WR speed.nCCDL, after .WRA speed.nCCDL,
      after .RD (speed.nCWL + speed.nBL + speed.nWTRL),
      after .RDA (speed.nCWL + speed.nBL + speed.nWTRL)]
  | _ => []

/-- The timing table of the banks. -/
def bankTiming : Command → List (TimingEntry Command)
  | .ACT =>
    [after .RD speed.nRCD, after .RDA speed.nRCD, after .WR speed.nRCD,
      after .WRA speed.nRCD, after .ACT speed.nRC, after .PRE speed.nRAS]
  | .PRE =>
    [after .ACT speed.nRP]
  | .RD =>
    [after .PRE speed.nRTP]
  | .WR =>
    [after .PRE (speed.nCWL + speed.nBL + speed.nWR)]
  | .RDA =>
    [after .ACT (speed.nRTP + speed.nRP)]
  | .WRA =>
    [after .ACT (speed.nCWL + speed.nBL + speed.nWR + speed.nRP)]
  | _ => []

def timing : Nat → Command → List (TimingEntry Command)
  | 0 => vaultTiming speed
  | 1 => bankGroupTiming speed
  | 2 => bankTiming speed
  | _ => fun _ => []

def count : Nat → Nat
  | 0 => org.count .Vault
  | 1 => org.count .BankGroup
  | 2 => org.count .Bank
  | 3 => org.count .Row
  | _ => org.count .Column

theorem row_index_pos : 0 < Level.Row.index := by decide

def dram : DramSpec Command State where
  row := Level.Row.index
  row_pos := row_index_pos
  count := count org
  scope := fun cmd => (scope cmd).index
  start := start
  prereq := prereq org
  rowhit := forAccess bankRowHit
  rowopen := forAccess bankRowOpen
  lambda := lambda org
  timing := timing speed

end HMC

/-! ## The row table -/

structure RowEntry where
  row : Int
  hits : Nat
  timestamp : Int
  deriving DecidableEq

/-- The open rows by vault, bank group and bank. -/
abbrev RowTable := List (List Int × RowEntry)

namespace RowTable

open HMC

def insert (key : List Int) (entry : RowEntry) (table : RowTable) : RowTable :=
  if table.any fun pair => pair.1 = key then table else table ++ [(key, entry)]

/-- The row of an entry was accessed. -/
def hit (clk : Int) (entry : RowEntry) : RowEntry :=
  { entry with hits := entry.hits + 1, timestamp := clk }

def access (key : List Int) (row clk : Int) (table : RowTable) : Except IssueFailure RowTable :=
  match table.find? fun pair => pair.1 = key with
  | none => .error .rowTable
  | some pair => do
      Checked.check (pair.2.row = row) .rowTable
      return table.map fun pair =>
        if pair.1 = key then (pair.1, hit clk pair.2) else pair

/-- Remove the entries that agree with the address down to the scope. -/
def close (addrVec : List Int) (scope : Nat) (table : RowTable) : Except IssueFailure RowTable := do
  let closes := fun pair : List Int × RowEntry =>
    decide (pair.1.take (scope + 1) = addrVec.take (scope + 1))
  Checked.check (0 < table.countP closes) .rowTable
  return table.filter fun pair => !closes pair

def update (cmd : Command) (addrVec : List Int) (clk : Int) (table : RowTable) :
    Except IssueFailure RowTable := do
  let rowgroup := addrVec.take Level.Row.index
  let row := addrVec.getD Level.Row.index (-1)
  let table := if isOpening cmd then table.insert rowgroup ⟨row, 0, clk⟩ else table
  let table ←
    if isAccessing cmd then table.access rowgroup row clk else pure table
  if isClosing cmd then table.close addrVec (scope cmd).index else pure table

end RowTable

/-! ## Scheduling -/

inductive SchedulerType where
  | FCFS
  | FRFCFS
  | FRFCFS_PriorHit
  deriving DecidableEq

/-- A command that was issued, with its address and the banks that it met. -/
structure Issued where
  cmd : HMC.Command
  addrVec : List Int
  states : States HMC.State

/-- The banks of a vault, its row table and a history of its commands. -/
structure VaultBanks where
  dram : Dram HMC.Command HMC.State
  table : RowTable
  log : List Issued

/-- The parameters of a vault. -/
structure VaultConfig where
  org : Organization
  speed : HMC.SpeedEntry
  scheduler : SchedulerType
  queue : QueueConfig
  vault : Nat

namespace VaultBanks

open HMC

variable (cfg : VaultConfig)

abbrev spec : DramSpec Command State := HMC.dram cfg.org cfg.speed

def initial : VaultBanks where
  dram := (spec cfg).construct
  table := []
  log := []

def ofDram {α : Type} (result : Except DramFailure α) : Except IssueFailure α :=
  result.mapError fun _ => .bankState

def addrOf (addrVec : List Int) (level : Nat) : Int := addrVec.getD level (-1)

section

variable (banks : VaultBanks) (clk : Int) (req : Request)

/-- The next command that a request needs. -/
def getFirstCmd : Except IssueFailure Command :=
  ofDram ((spec cfg).decode banks.dram.states (translate req.type)
    (addrOf req.addrVec) (spec cfg).below [])

def isReadyCmd (cmd : Command) (addrVec : List Int) : Except IssueFailure Bool :=
  ofDram ((spec cfg).check cmd (addrOf addrVec) banks.dram.timings clk (spec cfg).below [])

def isReady : Except IssueFailure Bool := do
  let cmd ← banks.getFirstCmd cfg req
  banks.isReadyCmd cfg clk cmd req.addrVec

def isRowHit : Except IssueFailure Bool :=
  ofDram ((spec cfg).checkRowHit banks.dram.states (translate req.type) (addrOf req.addrVec))

def isRowOpen : Except IssueFailure Bool :=
  ofDram ((spec cfg).checkRowOpen banks.dram.states (translate req.type) (addrOf req.addrVec))

/-- A request and its position in the queue. -/
abbrev Candidate := Request × Nat

/-- The one that is ready and the other not, or the one that came first. -/
def prefer (ready₁ ready₂ : Bool) (first second : Candidate) : Candidate :=
  if ready₁ ^^ ready₂ then
    if ready₁ then first else second
  else if first.1.arrive ≤ second.1.arrive then first
  else second

/-- A conjunction that looks at its second part only if the first one holds. -/
def andAlso (left right : Except IssueFailure Bool) : Except IssueFailure Bool := do
  if ← left then right else return false

def isReadyHit : Except IssueFailure Bool :=
  andAlso (banks.isReady cfg clk req) (banks.isRowHit cfg req)

def compare (type : SchedulerType) (first second : Candidate) : Except IssueFailure Candidate :=
  match type with
  | .FCFS =>
    return if first.1.arrive ≤ second.1.arrive then first else second
  | .FRFCFS => do
      let ready₁ ← banks.isReady cfg clk first.1
      let ready₂ ← banks.isReady cfg clk second.1
      return prefer ready₁ ready₂ first second
  | .FRFCFS_PriorHit => do
      let ready₁ ← banks.isReadyHit cfg clk first.1
      let ready₂ ← banks.isReadyHit cfg clk second.1
      return prefer ready₁ ready₂ first second

/-- The bank of a request. -/
def rowgroup : List Int := req.addrVec.take ((scope .PRE).index + 1)

/-- Whether the request would close a row that others in the queue still need. -/
def violatesHit (hitReqs : List (List Int)) (req : Request) : Except IssueFailure Bool := do
  let isHit ← banks.isRowHit cfg req
  if isHit then return false
  else
    let isOpen ← banks.isRowOpen cfg req
    return isOpen && hitReqs.contains (rowgroup req)

/-- The banks with a request in the queue that hits their open row. -/
def hitRowgroups (queue : List Request) : Except IssueFailure (List (List Int)) :=
  queue.foldlM (fun hitReqs req => do
      let isHit ← banks.isRowHit cfg req
      return if isHit then hitReqs ++ [rowgroup req] else hitReqs)
    []

/-- The best of the requests that leave the hits alone. -/
def bestHarmless (hitReqs : List (List Int)) (cands : List Candidate) :
    Except IssueFailure (Option Candidate) :=
  cands.foldlM (fun head candidate => do
      let violates ← banks.violatesHit cfg hitReqs candidate.1
      if violates then return head
      else
        match head with
        | none => return some candidate
        | some head =>
          let best ← banks.compare cfg clk .FRFCFS head candidate
          return some best)
    none

/-- The request that may go on, with its position in the queue. -/
def getHead (queue : List Request) : Except IssueFailure (Option Candidate) :=
  match queue.zipIdx with
  | [] => return none
  | first :: rest => do
      let head ← rest.foldlM (banks.compare cfg clk cfg.scheduler) first
      match cfg.scheduler with
      | .FRFCFS_PriorHit =>
        if ← banks.isReadyHit cfg clk head.1 then return some head
        else
          let hitReqs ← banks.hitRowgroups cfg queue
          banks.bestHarmless cfg clk hitReqs queue.zipIdx
      | _ => return some head

def issueCmd (cmd : Command) (addrVec : List Int) : Except IssueFailure VaultBanks := do
  let ready ← banks.isReadyCmd cfg clk cmd addrVec
  Checked.check (ready = true) .issueCmd
  let dram ← ofDram ((spec cfg).update cfg.vault cmd (addrOf addrVec) clk banks.dram)
  let table ← banks.table.update cmd addrVec clk
  return ⟨dram, table, ⟨cmd, addrVec, banks.dram.states⟩ :: banks.log⟩

end

/-- Issue the first command of the request at the head. The row policy has no
victim if there is none. -/
def issue (banks : VaultBanks) (queues : Queues) :
    Except IssueFailure (VaultBanks × Option Nat) := do
  let clk : Int := queues.clk
  match ← banks.getHead cfg clk (queues.queue queues.active) with
  | none => return (banks, none)
  | some head =>
    if ← banks.isReady cfg clk head.1 then
      let cmd ← banks.getFirstCmd cfg head.1
      let banks ← banks.issueCmd cfg clk cmd head.1.addrVec
      return (banks, if cmd = translate head.1.type then some head.2 else none)
    else return (banks, none)

end VaultBanks

/-! ## The vault -/

structure Vault where
  queues : Queues
  banks : VaultBanks

namespace Vault

variable (cfg : VaultConfig)

def initial : Vault where
  queues := .initial
  banks := .initial cfg

/-- The oldest pending request departs. -/
def serve (queues : Queues) : Queues :=
  match queues.pending with
  | [] => queues
  | req :: pending =>
    if req.depart ≤ queues.clk then { queues with pending := pending }
    else queues

def tick (vault : Vault) : Except Failure Vault := do
  let queues := serve { vault.queues with clk := vault.queues.clk + 1 }
  let queues ← queues.tickRef cfg.queue cfg.vault
  let queues := queues.scheduleWrites cfg.queue
  let issued ← (vault.banks.issue cfg queues).mapError Failure.issue
  return ⟨match issued.2 with
    | none => queues
    | some pos => queues.finish cfg.queue queues.active pos,
    issued.1⟩

/-- What happens to a vault. -/
inductive Op where
  | enqueue (req : Request)
  | tick

def step (vault : Vault) : Op → Except Failure Vault
  | .enqueue req =>
    return { vault with queues := (vault.queues.enqueue cfg.queue req).1 }
  | .tick => vault.tick cfg

def run (ops : List Op) : Except Failure Vault := ops.foldlM (step cfg) (initial cfg)

end Vault

end Damov.Ramulator
