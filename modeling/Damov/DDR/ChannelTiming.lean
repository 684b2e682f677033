import Damov.DDR.Channel
import Damov.Library.Checked
import Damov.Library.Runs
import Damov.Library.Extrema

/-!
# The commands of a channel keep to its timing

`Legal` says when a command may follow the older ones. `Settled` relates the
timestamps of a bank to the commands of that bank, and `BusTimed` those of the
channel to all column commands. Both are kept by `schedule` and by `refresh`,
and with them every command that is chosen is legal.
-/

namespace Damov.DDR

open Library Checked Function List

variable {cfg : Config}

/-! ## Legal commands -/

/-- The row of a bank that the commands have left open, with the cycle of the
activation that opened it. -/
def openedBy (bank : cfg.BankId) : List (Command cfg) → Option (Nat × Nat)
  | [] => none
  | .PRE other _ :: older =>
    if other = bank then none else openedBy bank older
  | .ACT other row cycle :: older =>
    if other = bank then some (row, cycle) else openedBy bank older
  | .RD _ _ _ :: older => openedBy bank older
  | .WR _ _ _ :: older => openedBy bank older
  | .REF _ _ :: _ => none

/-- A bank has had a read or a write command. -/
def ColumnAt (commands : List (Command cfg)) (bank : cfg.BankId) (cycle : Nat) :
    Prop :=
  ∃ row, .RD bank row cycle ∈ commands ∨ .WR bank row cycle ∈ commands

section

variable (bank : cfg.BankId)

/-- A column command goes to the open row, long enough after its activation; its
burst starts after the others have ended; it is the last one of its bank. -/
structure ColumnLegal (row cycle : Nat) (older : List (Command cfg)) : Prop where
  opened : ∃ act, openedBy bank older = some (row, act) ∧ act + cfg.tRCD ≤ cycle
  burst : ∀ other time, ColumnAt older other time → time + cfg.tCL + cfg.tBL ≤ cycle + cfg.tCL
  increasing : ∀ time, ColumnAt older bank time → time < cycle

/-- A command is legal after the older ones. -/
def Legal : Command cfg → List (Command cfg) → Prop
  | .PRE bank cycle, older =>
    (∀ row time, .RD bank row time ∈ older → time + cfg.tRTP ≤ cycle) ∧
    (∀ row time, .WR bank row time ∈ older → time + cfg.tCL + cfg.tBL + cfg.tWR ≤ cycle)
  | .ACT bank _ cycle, older =>
    openedBy bank older = none ∧
    (∀ row time, .ACT bank row time ∈ older → time + cfg.tRAS + cfg.tRP ≤ cycle ∧
      ∃ pre, .PRE bank pre ∈ older ∧ time + cfg.tRAS ≤ pre ∧ pre + cfg.tRP ≤ cycle) ∧
    (∀ start finish, .REF start finish ∈ older → finish ≤ cycle)
  | .RD bank row cycle, older =>
    ColumnLegal bank row cycle older ∧
    (∀ other row time, .WR other row time ∈ older → time + cfg.tCL + cfg.tBL + cfg.tWTR ≤ cycle)
  | .WR bank row cycle, older => ColumnLegal bank row cycle older
  | .REF start finish, older =>
    finish = start + cfg.tRFC ∧
    (∀ bank row time, .ACT bank row time ∈ older → time ≤ start)

/-! ## Banks -/

/-- The timestamps of a bank against its commands. -/
structure BankTimed (state : Bank) (commands : List (Command cfg)) : Prop where
  opened : openedBy bank commands =
    if state.isOpen then some (state.openRow, state.lastActCycle) else none
  acts : ∀ row time, .ACT bank row time ∈ commands → time ≤ state.lastActCycle
  reads : ∀ row time, .RD bank row time ∈ commands →
    time + cfg.tRTP ≤ state.minPreCycle ∧ time ≤ state.lastCmdCycle
  writes : ∀ row time, .WR bank row time ∈ commands →
    time + cfg.tCL + cfg.tBL + cfg.tWR ≤ state.minPreCycle ∧
    time ≤ state.lastCmdCycle
  column : state.lastCmdCycle ≤ state.minPreCycle
  refreshed : ∀ start finish, .REF start finish ∈ commands → finish ≤ state.minPreCycle + cfg.tRP

/-- A bank between two requests. Its last activation is followed by a column
command, and every activation of a closed bank by a precharge. -/
structure Settled (state : Bank) (commands : List (Command cfg)) :
    Prop extends BankTimed bank state commands where
  active : ∀ row time, .ACT bank row time ∈ commands → time + cfg.tRAS ≤ state.minPreCycle
  ready : state.isOpen → state.lastActCycle + cfg.tRCD ≤ state.lastCmdCycle
  closed : state.isOpen = false → ∀ row time, .ACT bank row time ∈ commands →
      ∃ pre, .PRE bank pre ∈ commands ∧ time + cfg.tRAS ≤ pre ∧ pre ≤ state.minPreCycle

/-- The command goes to another bank. -/
def Command.Elsewhere : Command cfg → Prop
  | .PRE other _ => other ≠ bank
  | .ACT other _ _ => other ≠ bank
  | .RD other _ _ => other ≠ bank
  | .WR other _ _ => other ≠ bank
  | .REF _ _ => False

end

variable {bank : cfg.BankId} {command : Command cfg} {commands : List (Command cfg)}

theorem openedBy_elsewhere (elsewhere : command.Elsewhere bank) :
    openedBy bank (command :: commands) = openedBy bank commands := by
  cases command with
  | PRE | ACT => exact if_neg elsewhere
  | RD | WR => rfl
  | REF start finish => exact elsewhere.elim

/-- A command keeps to the timestamps of a bank. -/
def Bank.Fits (bank : cfg.BankId) (state : Bank) : Command cfg → Prop
  | .PRE _ _ => True
  | .ACT other _ time => other = bank → time ≤ state.lastActCycle
  | .RD other _ time => other = bank →
    time + cfg.tRTP ≤ state.minPreCycle ∧ time ≤ state.lastCmdCycle
  | .WR other _ time => other = bank → time + cfg.tCL + cfg.tBL + cfg.tWR ≤ state.minPreCycle ∧
    time ≤ state.lastCmdCycle
  | .REF _ finish => finish ≤ state.minPreCycle + cfg.tRP

/-- One more command, after which no timestamp is earlier. -/
theorem BankTimed.cons {state next : Bank} (timed : BankTimed bank state commands)
    (fits : next.Fits bank command) (opened : openedBy bank (command :: commands) =
      if next.isOpen then some (next.openRow, next.lastActCycle) else none)
    (act : state.lastActCycle ≤ next.lastActCycle) (cmd : state.lastCmdCycle ≤ next.lastCmdCycle)
    (pre : state.minPreCycle ≤ next.minPreCycle) (column : next.lastCmdCycle ≤ next.minPreCycle) :
    BankTimed bank next (command :: commands) where
  opened := opened
  acts := by
    rintro row time (_ | ⟨_, mem⟩)
    · exact fits rfl
    · exact (timed.acts row time mem).trans act
  reads := by
    rintro row time (_ | ⟨_, mem⟩)
    · exact fits rfl
    · have bounds := timed.reads row time mem
      omega
  writes := by
    rintro row time (_ | ⟨_, mem⟩)
    · exact fits rfl
    · have bounds := timed.writes row time mem
      omega
  column := column
  refreshed := by
    rintro start finish (_ | ⟨_, mem⟩)
    · exact fits
    · have bound := timed.refreshed start finish mem
      omega

/-- Commands of other banks do not matter to a bank. -/
theorem Settled.elsewhere {state : Bank} (settled : Settled bank state commands)
    (elsewhere : command.Elsewhere bank) :
    Settled bank state (command :: commands) := by
  constructor
  · refine settled.cons ?_ ?_ le_rfl le_rfl le_rfl settled.column
    · cases command with
      | PRE => trivial
      | ACT | RD | WR => exact fun same => absurd same elsewhere
      | REF => exact elsewhere.elim
    · rw [openedBy_elsewhere elsewhere]
      exact settled.opened
  · rintro row time (_ | ⟨_, mem⟩)
    · exact absurd rfl elsewhere
    · exact settled.active row time mem
  · exact settled.ready
  · rintro isClosed row time (_ | ⟨_, mem⟩)
    · exact absurd rfl elsewhere
    · obtain ⟨pre, found, after, before⟩ := settled.closed isClosed row time mem
      exact ⟨pre, mem_cons_of_mem _ found, after, before⟩

/-! ## The data bus -/

/-- The end of the last burst, and the turn of the bus from writes to reads. -/
structure BusTimed (ch : Channel cfg) : Prop where
  started : cfg.tCL + cfg.tBL ≤ ch.minRespCycle
  bursts : ∀ bank time, ColumnAt ch.commands bank time → time + cfg.tCL + cfg.tBL ≤ ch.minRespCycle
  turned : ch.lastCmdWasWrite = false → ∀ bank row time, .WR bank row time ∈ ch.commands →
      time + cfg.tCL + cfg.tBL + cfg.tWTR + cfg.tCL ≤ ch.minRespCycle

/-- The newer commands add no column command. -/
def KeepsColumns (newer older : List (Command cfg)) : Prop :=
  ∀ bank row time, (.RD bank row time ∈ newer → .RD bank row time ∈ older) ∧
    (.WR bank row time ∈ newer → .WR bank row time ∈ older)

namespace KeepsColumns

variable {newer older : List (Command cfg)}

theorem refl (commands : List (Command cfg)) : KeepsColumns commands commands :=
  fun _ _ _ => ⟨id, id⟩

variable (keeps : KeepsColumns newer older)
include keeps

theorem cons {command : Command cfg} (noBurst : ∀ bank row time,
    .RD bank row time ≠ command ∧ .WR bank row time ≠ command) :
    KeepsColumns (command :: newer) older := by
  intro bank row time
  have apart := noBurst bank row time
  constructor
  · exact fun mem => (keeps bank row time).1 (mem_of_ne_of_mem apart.1 mem)
  · exact fun mem => (keeps bank row time).2 (mem_of_ne_of_mem apart.2 mem)

theorem columnAt {bank : cfg.BankId} {time : Nat} (column : ColumnAt newer bank time) :
    ColumnAt older bank time := by
  obtain ⟨row, mem | mem⟩ := column
  · exact ⟨row, .inl ((keeps bank row time).1 mem)⟩
  · exact ⟨row, .inr ((keeps bank row time).2 mem)⟩

end KeepsColumns

/-- The bus does not see commands without a burst. -/
theorem BusTimed.keepsColumns {ch next : Channel cfg}
    (bus : BusTimed ch) (resp : next.minRespCycle = ch.minRespCycle)
    (wrote : next.lastCmdWasWrite = ch.lastCmdWasWrite)
    (keeps : KeepsColumns next.commands ch.commands) :
    BusTimed next where
  started := by
    rw [resp]
    exact bus.started
  bursts := by
    intro bank time column
    rw [resp]
    exact bus.bursts bank time (keeps.columnAt column)
  turned := by
    intro wasRead bank row time mem
    rw [resp]
    rw [wrote] at wasRead
    exact bus.turned wasRead bank row time ((keeps bank row time).2 mem)

/-- What holds of a channel between two requests. -/
structure Timed (ch : Channel cfg) : Prop where
  legal : Historic Legal ch.commands
  banks : ∀ bank, Settled bank (ch.banks bank) ch.commands
  bus : BusTimed ch

theorem timed_initial (lastCmdWasWrite : Bool) :
    Timed (.initial lastCmdWasWrite : Channel cfg) where
  legal := True.intro
  banks := by
    intro bank
    constructor
    · constructor
      · rfl
      · exact nofun
      · exact nofun
      · exact nofun
      · exact le_refl 0
      · exact nofun
    · exact nofun
    · exact fun isOpen => absurd isOpen Bool.false_ne_true
    · exact nofun
  bus := by
    constructor
    · exact Nat.le_succ _
    · rintro bank time ⟨row, mem | mem⟩ <;> cases mem
    · exact nofun

/-! ## Single commands -/

section Bank

variable {bank : cfg.BankId} {state : Bank}
variable {commands : List (Command cfg)}

theorem Settled.legal_precharge (settled : Settled bank state commands) {pre : Nat}
    (late : state.minPreCycle ≤ pre) : Legal (.PRE bank pre) commands :=
  ⟨fun row time mem => le_trans (settled.reads row time mem).1 late,
    fun row time mem => le_trans (settled.writes row time mem).1 late⟩

/-- A bank after a precharge. -/
def Bank.precharged (state : Bank) (pre : Nat) : Bank :=
  { state with isOpen := false, minPreCycle := pre }

variable (settled : Settled bank state commands)
include settled

theorem Settled.precharge {pre : Nat} (late : state.minPreCycle ≤ pre) :
    Settled bank (state.precharged pre) (.PRE bank pre :: commands) := by
  constructor
  · exact settled.cons trivial (if_pos rfl) le_rfl le_rfl late (settled.column.trans late)
  · rintro row time (_ | ⟨_, mem⟩)
    exact (settled.active row time mem).trans late
  · exact fun isOpen => absurd isOpen Bool.false_ne_true
  · rintro - row time (_ | ⟨_, mem⟩)
    refine ⟨pre, mem_cons_self, ?_, le_refl pre⟩
    exact (settled.active row time mem).trans late

theorem Settled.legal_activate (isClosed : state.isOpen = false)
    {row act : Nat} (late : state.minPreCycle + cfg.tRP ≤ act) :
    Legal (.ACT bank row act) commands := by
  refine ⟨?_, ?_, ?_⟩
  · rw [settled.opened, isClosed]
    rfl
  · intro other time mem
    obtain ⟨pre, found, after, before⟩ := settled.closed isClosed other time mem
    exact ⟨by omega, pre, found, after, by omega⟩
  · intro start finish mem
    exact (settled.refreshed start finish mem).trans late

/-- The row is open, but no column command has followed yet. -/
theorem Settled.activate (row : Nat) {act minPre : Nat}
    (ordered : state.lastActCycle ≤ act) (later : state.minPreCycle ≤ minPre) :
    BankTimed bank
      { state with
        isOpen := true
        openRow := row
        minPreCycle := minPre
        lastActCycle := act }
      (.ACT bank row act :: commands) :=
  settled.cons (fun _ => le_rfl) (if_pos rfl) ordered le_rfl later (settled.column.trans later)

/-- A refresh of a bank that is closed. -/
theorem Settled.refresh (isClosed : state.isOpen = false) {start : Nat}
    (late : state.minPreCycle ≤ start) (long : cfg.tRP ≤ cfg.tRFC) :
    Settled bank { state with minPreCycle := start + cfg.tRFC - cfg.tRP }
      (.REF start (start + cfg.tRFC) :: commands) := by
  have column := settled.column
  constructor
  · refine settled.cons ?_ ?_ le_rfl le_rfl ?_ ?_
    · change start + cfg.tRFC ≤ start + cfg.tRFC - cfg.tRP + cfg.tRP
      omega
    · rw [isClosed]
      rfl
    · dsimp only
      omega
    · dsimp only
      omega
  · rintro row time (_ | ⟨_, mem⟩)
    have bound := settled.active row time mem
    dsimp only
    omega
  · exact fun isOpen => absurd (isClosed.symm.trans isOpen) Bool.false_ne_true
  · rintro - row time (_ | ⟨_, mem⟩)
    obtain ⟨pre, found, after, before⟩ := settled.closed isClosed row time mem
    refine ⟨pre, mem_cons_of_mem _ found, after, ?_⟩
    dsimp only
    omega

end Bank

/-! ## Opening a row -/

/-- The row of a request is open and the command may go at the cycle. -/
structure RowOpen (r : Request cfg) (cmdCycle : Nat) (ch : Channel cfg) : Prop where
  legal : Historic Legal ch.commands
  bank : BankTimed r.loc.bankId (ch.bankOf r) ch.commands
  others : ∀ bank, bank ≠ r.loc.bankId → Settled bank (ch.banks bank) ch.commands
  bus : BusTimed ch
  isOpen : (ch.bankOf r).isOpen = true
  isRow : (ch.bankOf r).openRow = r.loc.row
  activated : (ch.bankOf r).lastActCycle + cfg.tRCD ≤ cmdCycle
  increasing : (ch.bankOf r).lastCmdCycle < cmdCycle
  free : ch.minRespCycle ≤ cmdCycle + cfg.tCL
  turned : ch.lastCmdWasWrite = true → r.write = false → ch.minRespCycle + cfg.tWTR ≤ cmdCycle

namespace Channel

variable {ch : Channel cfg} {r : Request cfg} {curCycle : Nat}

theorem curCycle_le_cmdCycle : curCycle ≤ ch.cmdCycle r curCycle := by
  simp only [cmdCycle, minCmdCycle]
  split <;> split <;> omega

theorem minRespCycle_le_cmdCycle : ch.minRespCycle ≤ ch.cmdCycle r curCycle + cfg.tCL := by
  simp only [cmdCycle]
  omega

theorem tWTR_le_cmdCycle (wasWrite : ch.lastCmdWasWrite = true) (isRead : r.write = false) :
    ch.minRespCycle + cfg.tWTR ≤ ch.cmdCycle r curCycle := by
  simp only [cmdCycle, minCmdCycle, wasWrite, isRead, Bool.not_false, Bool.and_self, if_true]
  split <;> omega

theorem preCycle_ge : (ch.bankOf r).minPreCycle ≤ ch.preCycle r := by
  unfold preCycle
  split <;> omega

theorem preCycle_le_actCycle : ch.preCycle r + cfg.tRP ≤ ch.actCycle r := by
  unfold actCycle
  omega

theorem lastActCycle_le_actCycle : (ch.bankOf r).lastActCycle ≤ ch.actCycle r := by
  unfold actCycle
  omega

/-- A hit is ready only after the last command of its bank. -/
theorem hit_increasing (hit : ch.rowHit r = true) (ready : ch.findMinCmdCycle r ≤ curCycle) :
    (ch.bankOf r).lastCmdCycle < ch.cmdCycle r curCycle := by
  have later : curCycle ≤ ch.cmdCycle r curCycle := curCycle_le_cmdCycle
  rw [findMinCmdCycle, if_pos hit] at ready
  omega

theorem miss_activated (miss : ch.rowHit r = false) :
    ch.actCycle r + cfg.tRCD ≤ ch.cmdCycle r curCycle := by
  simp only [cmdCycle, minCmdCycle, miss, Bool.false_eq_true, if_false]
  omega

theorem addActivation_succeeds {win : RankWindow} {act : Nat} (late : win.minActCycle ≤ act) :
    ∃ next, win.addActivation act = .ok next := by
  rw [RankWindow.addActivation, check_true_bind late]
  exact ⟨_, rfl⟩

/-- The bank of a request that misses, once it is precharged. -/
def closedBank (ch : Channel cfg) (r : Request cfg) : Bank :=
  if (ch.bankOf r).isOpen then
    (ch.bankOf r).precharged (ch.preCycle r)
  else ch.bankOf r

/-- The commands when the bank of a request that misses is precharged. -/
def prechargedCommands (ch : Channel cfg) (r : Request cfg) : List (Command cfg) :=
  if (ch.bankOf r).isOpen then
    .PRE r.loc.bankId (ch.preCycle r) :: ch.commands
  else ch.commands

/-- A miss first closes its bank. -/
theorem settled_closedBank (timed : Timed ch) : Historic Legal (ch.prechargedCommands r) ∧
    Settled r.loc.bankId (ch.closedBank r) (ch.prechargedCommands r) ∧
    (ch.closedBank r).isOpen = false ∧
    (ch.closedBank r).minPreCycle ≤ ch.preCycle r ∧
    ∀ bank, bank ≠ r.loc.bankId → Settled bank (ch.banks bank) (ch.prechargedCommands r) := by
  have settled := timed.banks r.loc.bankId
  unfold closedBank prechargedCommands
  split
  case isTrue isOpen =>
    refine ⟨⟨settled.legal_precharge preCycle_ge, timed.legal⟩,
      settled.precharge preCycle_ge, rfl, le_rfl, ?_⟩
    intro bank other
    exact (timed.banks bank).elsewhere other.symm
  case isFalse isClosed =>
    refine ⟨timed.legal, settled, Bool.eq_false_iff.mpr isClosed, preCycle_ge, ?_⟩
    exact fun bank _ => timed.banks bank

theorem rowOpen_of_hit (timed : Timed ch) (hit : ch.rowHit r = true)
    (ready : ch.findMinCmdCycle r ≤ curCycle) :
    RowOpen r (ch.cmdCycle r curCycle) ch := by
  have settled := timed.banks r.loc.bankId
  obtain ⟨isRow, isOpen⟩ := Bool.and_eq_true_iff.mp hit
  have increasing := hit_increasing hit ready
  exact {
    legal := timed.legal
    bank := settled.toBankTimed
    others := fun bank _ => timed.banks bank
    bus := timed.bus
    isOpen
    isRow := (beq_iff_eq.mp isRow).symm
    activated := (settled.ready isOpen).trans increasing.le
    increasing
    free := minRespCycle_le_cmdCycle
    turned := tWTR_le_cmdCycle }

/-- Closing a bank keeps the cycles of its commands. -/
theorem closedBank_cycles (ch : Channel cfg) (r : Request cfg) :
    (ch.closedBank r).lastActCycle = (ch.bankOf r).lastActCycle ∧
    (ch.closedBank r).lastCmdCycle = (ch.bankOf r).lastCmdCycle ∧
    (ch.closedBank r).curRowHits = (ch.bankOf r).curRowHits := by
  unfold closedBank
  split <;> exact ⟨rfl, rfl, rfl⟩

/-- The bank of a request that misses, once its row is open. -/
def activatedBank (ch : Channel cfg) (r : Request cfg) : Bank :=
  { ch.bankOf r with
    isOpen := true
    openRow := r.loc.row
    minPreCycle :=
      if (ch.bankOf r).isOpen then ch.preCycle r + cfg.tRAS
      else (ch.bankOf r).minPreCycle
    lastActCycle := ch.actCycle r }

theorem bankTimed_activatedBank (timed : Timed ch) : BankTimed r.loc.bankId (ch.activatedBank r)
      (.ACT r.loc.bankId r.loc.row (ch.actCycle r) :: ch.prechargedCommands r) := by
  obtain ⟨-, settled, -, -, -⟩ := settled_closedBank (r := r) timed
  obtain ⟨sameAct, sameCmd, sameHits⟩ := closedBank_cycles ch r
  have ordered : (ch.closedBank r).lastActCycle ≤ ch.actCycle r := by
    rw [sameAct]
    exact lastActCycle_le_actCycle
  have later : (ch.closedBank r).minPreCycle ≤ (ch.activatedBank r).minPreCycle := by
    unfold closedBank activatedBank
    split
    · exact Nat.le_add_right _ _
    · exact le_rfl
  have timedBank := settled.activate r.loc.row ordered later
  rwa [sameCmd, sameHits] at timedBank

theorem keepsColumns_prechargedCommands : KeepsColumns (ch.prechargedCommands r) ch.commands := by
  unfold prechargedCommands
  split
  · exact (KeepsColumns.refl _).cons (by simp)
  · exact KeepsColumns.refl _

theorem rowOpen_of_miss (timed : Timed ch) (miss : ch.rowHit r = false) :
    Gives (ch.activate r) (RowOpen r (ch.cmdCycle r curCycle)) := by
  have late : (ch.rankActWindows r.loc.rank).minActCycle ≤ ch.actCycle r := by
    unfold actCycle
    omega
  obtain ⟨win, added⟩ := addActivation_succeeds late
  rw [activate, added]
  refine .pure ?_
  obtain ⟨legal, settled, isClosed, before, others⟩ := settled_closedBank (r := r) timed
  have afterPre : ch.preCycle r + cfg.tRP ≤ ch.actCycle r := preCycle_le_actCycle
  have afterAct : ch.actCycle r + cfg.tRCD ≤
      ch.cmdCycle r curCycle := miss_activated miss
  have newBank : update ch.banks r.loc.bankId (ch.activatedBank r)
      r.loc.bankId = ch.activatedBank r := update_self ..
  have turned : ch.lastCmdWasWrite = true → r.write = false →
      ch.minRespCycle + cfg.tWTR ≤ ch.cmdCycle r curCycle :=
    tWTR_le_cmdCycle
  have free : ch.minRespCycle ≤ ch.cmdCycle r curCycle + cfg.tCL := minRespCycle_le_cmdCycle
  exact {
    legal := ⟨settled.legal_activate isClosed (by omega), legal⟩
    bank := by
      rw [bankOf]
      dsimp only
      rw [update_self]
      exact bankTimed_activatedBank timed
    others := by
      intro bank other
      dsimp only
      rw [update_of_ne other]
      exact (others bank other).elsewhere other.symm
    bus := timed.bus.keepsColumns rfl rfl (keepsColumns_prechargedCommands.cons (by simp))
    isOpen := congrArg Bank.isOpen newBank
    isRow := congrArg Bank.openRow newBank
    activated := by
      rw [bankOf]
      dsimp only
      rwa [update_self]
    increasing := by
      have column : (ch.bankOf r).lastCmdCycle ≤ ch.preCycle r :=
        le_trans (timed.banks r.loc.bankId).column preCycle_ge
      have positive := cfg.tRP_pos
      rw [bankOf]
      dsimp only
      rw [update_self]
      dsimp only
      omega
    free
    turned }

theorem openRow_succeeds (timed : Timed ch) (ready : ch.findMinCmdCycle r ≤ curCycle) :
    Gives (ch.openRow r) (RowOpen r (ch.cmdCycle r curCycle)) := by
  unfold openRow
  split
  case isTrue hit => exact .ok (rowOpen_of_hit timed hit ready)
  case isFalse miss =>
    exact rowOpen_of_miss timed (Bool.eq_false_iff.mpr miss)

/-! ## Column commands -/

/-- The column command of a request. -/
def columnCommand (r : Request cfg) (cmdCycle : Nat) : Command cfg :=
  if r.write then .WR r.loc.bankId r.loc.row cmdCycle
  else .RD r.loc.bankId r.loc.row cmdCycle

/-- The bank of a request after its column command. -/
def columnBank (ch : Channel cfg) (r : Request cfg) (cmdCycle : Nat) : Bank :=
  { ch.bankOf r with
    minPreCycle := max (ch.bankOf r).minPreCycle (max ((ch.bankOf r).lastActCycle + cfg.tRAS)
          (if r.write then cmdCycle + cfg.tCL + cfg.tBL + cfg.tWR
            else cmdCycle + cfg.tRTP))
    lastCmdCycle := cmdCycle
    curRowHits := r.rowHitSeq }

end Channel

section Column

variable {ch : Channel cfg} {r : Request cfg} {cmdCycle : Nat}

variable (rowOpen : RowOpen r cmdCycle ch)
include rowOpen

theorem RowOpen.columnAt_lt {time : Nat} (column : ColumnAt ch.commands r.loc.bankId time) :
    time < cmdCycle := by
  have increasing := rowOpen.increasing
  obtain ⟨row, mem | mem⟩ := column
  · have before := (rowOpen.bank.reads row time mem).2
    omega
  · have before := (rowOpen.bank.writes row time mem).2
    omega

theorem RowOpen.columnLegal : ColumnLegal r.loc.bankId r.loc.row cmdCycle ch.commands where
  opened := by
    refine ⟨(ch.bankOf r).lastActCycle, ?_, rowOpen.activated⟩
    rw [rowOpen.bank.opened, if_pos rowOpen.isOpen, rowOpen.isRow]
  burst := by
    intro other time column
    exact (rowOpen.bus.bursts other time column).trans rowOpen.free
  increasing := fun _ column => rowOpen.columnAt_lt column

/-- Every read comes `tWTR` after the writes before it. -/
theorem RowOpen.turnaround (isRead : r.write = false) (other : cfg.BankId)
    (row time : Nat) (mem : .WR other row time ∈ ch.commands) :
    time + cfg.tCL + cfg.tBL + cfg.tWTR ≤ cmdCycle := by
  cases wasWrite : ch.lastCmdWasWrite with
  | true =>
    have ended := rowOpen.bus.bursts other time ⟨row, .inr mem⟩
    have turned := rowOpen.turned wasWrite isRead
    omega
  | false =>
    have turned := rowOpen.bus.turned wasWrite other row time mem
    have free := rowOpen.free
    omega

theorem RowOpen.legal_column : Legal (Channel.columnCommand r cmdCycle) ch.commands := by
  unfold Channel.columnCommand
  split
  case isTrue isWrite => exact rowOpen.columnLegal
  case isFalse isRead =>
    exact ⟨rowOpen.columnLegal, rowOpen.turnaround (Bool.eq_false_iff.mpr isRead)⟩

omit rowOpen in
theorem openedBy_columnCommand (bank : cfg.BankId) :
    openedBy bank (Channel.columnCommand r cmdCycle :: ch.commands) =
      openedBy bank ch.commands := by
  unfold Channel.columnCommand
  split <;> rfl

omit rowOpen in
/-- Only the column command of the request is new. -/
theorem mem_columnCommand {command : Command cfg}
    (mem : command ∈ Channel.columnCommand r cmdCycle :: ch.commands) :
    (command = .WR r.loc.bankId r.loc.row cmdCycle ∧ r.write = true) ∨
    (command = .RD r.loc.bankId r.loc.row cmdCycle ∧ r.write = false) ∨
    command ∈ ch.commands := by
  obtain isNew | older := mem_cons.mp mem
  · unfold Channel.columnCommand at isNew
    split at isNew
    case isTrue isWrite => exact .inl ⟨isNew, isWrite⟩
    case isFalse isRead =>
      exact .inr (.inl ⟨isNew, Bool.eq_false_iff.mpr isRead⟩)
  · exact .inr (.inr older)

theorem RowOpen.settled_column : Settled r.loc.bankId (ch.columnBank r cmdCycle)
      (Channel.columnCommand r cmdCycle :: ch.commands) := by
  have later : (ch.bankOf r).minPreCycle ≤ (ch.columnBank r cmdCycle).minPreCycle := le_max_left ..
  have active : (ch.bankOf r).lastActCycle + cfg.tRAS ≤ (ch.columnBank r cmdCycle).minPreCycle :=
    (le_max_left ..).trans (le_max_right ..)
  have increasing := rowOpen.increasing
  have wrote : r.write = true → cmdCycle + cfg.tCL + cfg.tBL + cfg.tWR ≤
        (ch.columnBank r cmdCycle).minPreCycle := by
    intro isWrite
    simp only [Channel.columnBank, isWrite, if_true]
    omega
  have wasRead : r.write = false →
      cmdCycle + cfg.tRTP ≤ (ch.columnBank r cmdCycle).minPreCycle := by
    intro isRead
    simp only [Channel.columnBank, isRead, Bool.false_eq_true, if_false]
    omega
  constructor
  · refine rowOpen.bank.cons ?_ ?_ le_rfl increasing.le later ?_
    · unfold Channel.columnCommand
      split
      case isTrue isWrite => exact fun _ => ⟨wrote isWrite, le_rfl⟩
      case isFalse isRead =>
        exact fun _ => ⟨wasRead (Bool.eq_false_iff.mpr isRead), le_rfl⟩
    · rw [openedBy_columnCommand]
      exact rowOpen.bank.opened
    · cases isWrite : r.write with
      | true =>
        have bound := wrote isWrite
        change cmdCycle ≤ _
        omega
      | false =>
        have bound := wasRead isWrite
        change cmdCycle ≤ _
        omega
  · intro row time mem
    obtain ⟨⟨⟩, -⟩ | ⟨⟨⟩, -⟩ | older := mem_columnCommand mem
    have before := rowOpen.bank.acts row time older
    omega
  · exact fun _ => rowOpen.activated
  · intro isClosed
    exact absurd (isClosed.symm.trans rowOpen.isOpen) Bool.false_ne_true

omit rowOpen in
theorem columnCommand_elsewhere (cmdCycle : Nat) {bank : cfg.BankId} (other : bank ≠ r.loc.bankId) :
    (Channel.columnCommand r cmdCycle).Elsewhere bank := by
  unfold Channel.columnCommand
  split <;> exact other.symm

/-- The bus after the column command. -/
theorem RowOpen.bus_column {next : Channel cfg}
    (resp : next.minRespCycle = cmdCycle + cfg.tCL + cfg.tBL)
    (wrote : next.lastCmdWasWrite = r.write)
    (keeps : KeepsColumns next.commands (Channel.columnCommand r cmdCycle :: ch.commands)) :
    BusTimed next := by
  have free := rowOpen.free
  constructor
  · omega
  · intro bank time column
    have before : time ≤ cmdCycle := by
      obtain ⟨row, mem | mem⟩ := keeps.columnAt column
      · obtain ⟨⟨⟩, -⟩ | ⟨isNew, -⟩ | older := mem_columnCommand mem
        · cases isNew
          exact le_rfl
        · have ended := rowOpen.bus.bursts bank time ⟨row, .inl older⟩
          omega
      obtain ⟨isNew, -⟩ | ⟨⟨⟩, -⟩ | older := mem_columnCommand mem
      · cases isNew
        exact le_rfl
      · have ended := rowOpen.bus.bursts bank time ⟨row, .inr older⟩
        omega
    omega
  · intro wasRead bank row time mem
    rw [wrote] at wasRead
    obtain ⟨-, isWrite⟩ | ⟨⟨⟩, -⟩ | older := mem_columnCommand ((keeps bank row time).2 mem)
    · exact absurd (wasRead.symm.trans isWrite) Bool.false_ne_true
    · have turned := rowOpen.turnaround wasRead bank row time older
      omega

/-- The column command of a request, and the precharge that may follow. -/
theorem RowOpen.column_succeeds (nextHits : Bool) :
    Gives (ch.column r cmdCycle nextHits) Timed := by
  have settled := rowOpen.settled_column
  have legal : Historic Legal (Channel.columnCommand r cmdCycle :: ch.commands) :=
    ⟨rowOpen.legal_column, rowOpen.legal⟩
  rw [Channel.column, check_true_bind rowOpen.increasing]
  refine .pure ?_
  cases closes : cfg.closedPage && !nextHits with
  | true =>
    simp only [Bool.not_true, Bool.and_false]
    exact {
      legal := ⟨settled.legal_precharge le_rfl, legal⟩
      banks := by
        intro bank
        dsimp only
        by_cases same : bank = r.loc.bankId
        · subst same
          rw [update_self]
          exact settled.precharge le_rfl
        · rw [update_of_ne same]
          have elsewhere := (rowOpen.others bank same).elsewhere
            (columnCommand_elsewhere cmdCycle same)
          exact elsewhere.elsewhere (Ne.symm same)
      bus := rowOpen.bus_column rfl rfl ((KeepsColumns.refl _).cons (by simp)) }
  | false =>
    simp only [Bool.not_false, Bool.and_true]
    exact {
      legal
      banks := by
        intro bank
        dsimp only
        by_cases same : bank = r.loc.bankId
        · subst same
          rwa [update_self]
        · rw [update_of_ne same]
          exact (rowOpen.others bank same).elsewhere (columnCommand_elsewhere cmdCycle same)
      bus := rowOpen.bus_column rfl rfl (KeepsColumns.refl _) }

end Column

/-! ## Requests and refreshes -/

namespace Channel

variable {ch : Channel cfg} {r : Request cfg} {curCycle : Nat}

theorem schedule_timed (timed : Timed ch)
    (ready : ch.findMinCmdCycle r ≤ curCycle) (nextHits : Bool) :
    Gives (ch.schedule r curCycle nextHits) Timed := by
  apply (openRow_succeeds timed ready).bind
  exact fun opened rowOpen => rowOpen.column_succeeds nextHits

/-- The data of a request follows its command. -/
theorem schedule_minRespCycle {nextHits : Bool} {next : Channel cfg}
    (scheduled : ch.schedule r curCycle nextHits = .ok next) :
    next.minRespCycle = ch.cmdCycle r curCycle + cfg.tCL + cfg.tBL := by
  obtain ⟨opened, -, column⟩ := of_bind_eq_ok scheduled
  obtain ⟨-, issued⟩ := of_check_bind_eq_ok column
  cases issued
  rfl

theorem le_minRefreshCycle (memCycle : Nat) (bank : cfg.BankId) :
    (ch.banks bank).minPreCycle ≤ ch.minRefreshCycle memCycle := by
  have bound := le_largest (fun bank => max (ch.banks bank).minPreCycle
      (ch.banks bank).lastCmdCycle)
    memCycle (cfg.mem_allBanks bank)
  exact (le_max_left _ _).trans bound

variable {start : Nat}

/-- The banks that are open, each with a precharge at the cycle. -/
theorem settled_precharges (opens : List cfg.BankId)
    (late : ∀ bank, (ch.banks bank).minPreCycle ≤ start)
    (timed : Timed ch) (bank : cfg.BankId) :
    Settled bank (if opens.contains bank then (ch.banks bank).precharged start
        else ch.banks bank)
      (opens.map (fun bank => Command.PRE bank start) ++ ch.commands) := by
  induction opens with
  | nil => exact timed.banks bank
  | cons first opens ih =>
    by_cases same : first = bank
    · subst same
      rw [if_pos (contains_iff_mem.mpr mem_cons_self)]
      split at ih
      case isTrue again =>
        exact ih.precharge (le_refl start)
      case isFalse isNew => exact ih.precharge (late first)
    · have sameOpens : (first :: opens).contains bank = true ↔ opens.contains bank = true := by
        rw [contains_iff_mem, contains_iff_mem, mem_cons]
        exact or_iff_right (Ne.symm same)
      rw [if_congr sameOpens rfl rfl]
      exact ih.elsewhere same

theorem legal_precharges {opens : List cfg.BankId}
    (late : ∀ bank, (ch.banks bank).minPreCycle ≤ start) (timed : Timed ch) :
    Historic Legal (opens.map (fun bank => Command.PRE bank start) ++ ch.commands) := by
  induction opens with
  | nil => exact timed.legal
  | cons bank opens ih =>
    refine ⟨?_, ih⟩
    have settled := settled_precharges opens late timed bank
    split at settled
    case isTrue again => exact settled.legal_precharge (le_refl start)
    case isFalse isNew => exact settled.legal_precharge (late bank)

theorem keepsColumns_precharges (opens : List cfg.BankId) (start : Nat) :
    KeepsColumns (opens.map (fun bank => Command.PRE bank start) ++ ch.commands)
      ch.commands := by
  induction opens with
  | nil => exact KeepsColumns.refl _
  | cons bank opens ih => exact ih.cons (by simp)

/-- The banks that a refresh precharges. -/
def openBanks (ch : Channel cfg) : List cfg.BankId :=
  cfg.allBanks.filter fun bank => (ch.banks bank).isOpen

theorem mem_openBanks (bank : cfg.BankId) :
    bank ∈ ch.openBanks ↔ (ch.banks bank).isOpen = true := by
  rw [openBanks, mem_filter]
  exact and_iff_right (cfg.mem_allBanks bank)

/-- A refresh leaves every bank closed. -/
theorem settled_refresh (late : ∀ bank, (ch.banks bank).minPreCycle ≤ start)
    (long : cfg.tRP ≤ cfg.tRFC) (timed : Timed ch) (bank : cfg.BankId) :
    Settled bank
      { ch.banks bank with
        minPreCycle := start + cfg.tRFC - cfg.tRP
        isOpen := false }
      (.REF start (start + cfg.tRFC) ::
        (ch.openBanks.map (fun bank => Command.PRE bank start) ++ ch.commands)) := by
  have settled := settled_precharges ch.openBanks late timed bank
  cases isOpen : (ch.banks bank).isOpen with
  | true =>
    have mem := contains_iff_mem.mpr ((mem_openBanks bank).mpr isOpen)
    rw [if_pos mem] at settled
    exact settled.refresh rfl (le_refl start) long
  | false =>
    have notOpen : ¬ ch.openBanks.contains bank = true := by
      rw [contains_iff_mem, mem_openBanks, isOpen]
      exact Bool.false_ne_true
    rw [if_neg notOpen] at settled
    have refreshed := settled.refresh isOpen (late bank) long
    rwa [isOpen] at refreshed

/-- Every activation before a refresh has been precharged before its start. -/
theorem legal_refresh (late : ∀ bank, (ch.banks bank).minPreCycle ≤ start) (timed : Timed ch) :
    Legal (.REF start (start + cfg.tRFC))
      (ch.openBanks.map (fun bank => Command.PRE bank start) ++ ch.commands) := by
  refine ⟨rfl, ?_⟩
  intro bank row time mem
  have settled := settled_precharges ch.openBanks late timed bank
  have active := settled.active row time mem
  split at active
  · exact (Nat.le_add_right _ _).trans active
  · have before := late bank
    omega

theorem refresh_timed (timed : Timed ch) (memCycle : Nat) :
    Ends (fun err => err = .refreshShort ∧ cfg.tRFC < cfg.tRP) (ch.refresh memCycle) Timed := by
  have late : ∀ bank, (ch.banks bank).minPreCycle ≤
      ch.minRefreshCycle memCycle := le_minRefreshCycle memCycle
  have notBefore : memCycle ≤ ch.minRefreshCycle memCycle := start_le_largest _ memCycle _
  apply Ends.check notBefore
  by_cases long : cfg.tRP ≤ cfg.tRFC
  · apply Ends.check long
    exact .pure {
      legal := ⟨legal_refresh late timed, legal_precharges late timed⟩
      banks := settled_refresh late long timed
      bus := timed.bus.keepsColumns rfl rfl ((keepsColumns_precharges _ _).cons (by simp)) }
  · rw [check, if_neg long]
    exact .error ⟨rfl, Nat.lt_of_not_le long⟩

end Channel

end Damov.DDR
