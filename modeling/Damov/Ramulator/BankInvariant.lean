import Damov.Library.Sweep
import Damov.Ramulator.HmcBanks

/-!
# The row table mirrors the banks

A bank is closed or has one open row. The row table has one entry for each bank
that is open, with its row. The command that a request is decoded to is legal in
the banks as they are, and issuing it keeps the table and the banks together.
-/

namespace Damov.Ramulator.VaultBanks

open Library Checked HMC List

variable {cfg : VaultConfig} {states : States State} {table : RowTable}

/-! ## Addresses -/

/-- The address of a column of the vault. -/
inductive InRange (cfg : VaultConfig) : List Int → Prop where
  | intro (bankGroup bank row column : Nat) (isBankGroup : bankGroup < cfg.org.count .BankGroup)
      (isBank : bank < cfg.org.count .Bank)
      (isRow : row < cfg.org.count .Row)
      (isColumn : column < cfg.org.count .Column) :
      InRange cfg [(cfg.vault : Int), bankGroup, bank, row, column]

/-- The address of the whole vault. -/
def wholeVault (cfg : VaultConfig) : List Int := [(cfg.vault : Int), -1, -1, -1, -1]

/-- The bank of an address. -/
def bankOf (addrVec : List Int) : Path := [(addrOf addrVec 2).toNat, (addrOf addrVec 1).toNat]

/-- The key of a bank in the row table. -/
def keyOf (cfg : VaultConfig) (bank : Path) : List Int :=
  (cfg.vault : Int) :: bank.reverse.map Int.ofNat

theorem keyOf_injective {bank bank' : Path}
    (same : keyOf cfg bank = keyOf cfg bank') : bank = bank' := by
  have reversed := (List.cons.inj same).2
  have := map_injective_iff.mpr (fun _ _ => Int.ofNat.inj) reversed
  exact reverse_injective this

theorem mem_banks {org : Organization} {bank : Path} :
    bank ∈ HMC.banks org [] ↔ ∃ b < org.count .Bank, ∃ g < org.count .BankGroup, bank = [b, g] := by
  simp only [HMC.banks, mem_flatMap, mem_map, mem_range]
  constructor
  · rintro ⟨g, isGroup, b, isBank, rfl⟩
    exact ⟨b, isBank, g, isGroup, rfl⟩
  · rintro ⟨b, isBank, g, isGroup, rfl⟩
    exact ⟨g, isGroup, b, isBank, rfl⟩

variable {addrVec : List Int}

theorem InRange.mem_banks (inRange : InRange cfg addrVec) :
    bankOf addrVec ∈ HMC.banks cfg.org [] := by
  cases inRange with
  | intro bankGroup bank row column isBankGroup isBank =>
    exact VaultBanks.mem_banks.mpr ⟨bank, isBank, bankGroup, isBankGroup, rfl⟩

/-- The address has no id that is too large. -/
def Bounded (cfg : VaultConfig) (addrVec : List Int) : Prop :=
  ∀ level, addrOf addrVec (level + 1) < HMC.count cfg.org (level + 1)

theorem InRange.bounded (inRange : InRange cfg addrVec) : Bounded cfg addrVec := by
  cases inRange with
  | intro bankGroup bank row column isBankGroup isBank isRow isColumn =>
    intro level
    match level with
    | 0 => exact Int.ofNat_lt.mpr isBankGroup
    | 1 => exact Int.ofNat_lt.mpr isBank
    | 2 => exact Int.ofNat_lt.mpr isRow
    | 3 => exact Int.ofNat_lt.mpr isColumn
    | level + 4 =>
      have : addrOf [(cfg.vault : Int), bankGroup, bank, row, column] (level + 4 + 1) = -1 := rfl
      omega

theorem bounded_wholeVault : Bounded cfg (wholeVault cfg) := by
  intro level
  have : addrOf (wholeVault cfg) (level + 1) = -1 := by
    match level with
    | 0 | 1 | 2 | 3 => rfl
    | level + 4 => rfl
  omega

/-- A check always comes to a result. -/
theorem check_returns (cmd : Command) (bounded : Bounded cfg addrVec)
    (timings : Timings Command) (clk : Int) (below : Nat) (node : Path) :
    ∃ ready, (spec cfg).check cmd (addrOf addrVec) timings clk below node = .ok ready := by
  induction below generalizing node with
  | zero =>
    rw [DramSpec.check]
    split
    · exact ⟨false, rfl⟩
    · exact ⟨true, rfl⟩
  | succ below ih =>
    rw [DramSpec.check]
    split
    case isTrue => exact ⟨false, rfl⟩
    case isFalse =>
      dsimp only
      split
      case isTrue => exact ⟨true, rfl⟩
      case isFalse goes =>
        rw [not_or] at goes
        have isChild : (spec cfg).child node (addrOf addrVec (node.length + 1)) =
              .ok ((addrOf addrVec (node.length + 1)).toNat :: node) :=
          if_pos ⟨Int.not_lt.mp goes.1, bounded node.length⟩
        rw [isChild]
        exact ih _

/-! ## Banks -/

/-- A bank is closed, or open with one row. -/
inductive BankShape : NodeState State → Prop where
  | closed : BankShape ⟨.Closed, []⟩
  | opened (row : Int) : BankShape ⟨.Opened, [(row, .Opened)]⟩

/-- The banks are in order and the table has their open rows. -/
structure Mirrors (cfg : VaultConfig) (states : States State) (table : RowTable) : Prop where
  powerUp : (states []).state = .PowerUp
  shape : ∀ bank ∈ HMC.banks cfg.org [], BankShape (states bank)
  nodup : (table.map Prod.fst).Nodup
  sound : ∀ pair ∈ table, ∃ bank ∈ HMC.banks cfg.org [],
    pair.1 = keyOf cfg bank ∧ states bank = ⟨.Opened, [(pair.2.row, .Opened)]⟩
  complete : ∀ bank ∈ HMC.banks cfg.org [], (states bank).state = .Opened →
    keyOf cfg bank ∈ table.map Prod.fst

/-- What a command requires of the banks. -/
def Legal (cfg : VaultConfig) (states : States State) (cmd : Command) (addrVec : List Int) : Prop :=
  match cmd with
  | .ACT => (states (bankOf addrVec)).state = .Closed
  | .RD | .WR =>
    (states (bankOf addrVec)).state = .Opened ∧ (states (bankOf addrVec)).rowState.map Prod.fst =
        [addrOf addrVec Level.Row.index]
  | .PRE => (states (bankOf addrVec)).state = .Opened
  | .PREA => ∃ bank ∈ HMC.banks cfg.org [], (states bank).state = .Opened
  | .REF => ∀ bank ∈ HMC.banks cfg.org [], (states bank).state = .Closed
  | _ => False

/-- A command goes to a column or to the whole vault. -/
def Aimed (cfg : VaultConfig) (cmd : Command) (addrVec : List Int) : Prop :=
  match cmd with
  | .PREA | .REF => addrVec = wholeVault cfg
  | _ => InRange cfg addrVec

theorem mirrors_initial : Mirrors cfg (spec cfg).construct.states [] where
  powerUp := rfl
  shape := by
    intro bank isBank
    obtain ⟨b, -, g, -, rfl⟩ := mem_banks.mp isBank
    exact .closed
  nodup := nodup_nil
  sound := nofun
  complete := by
    intro bank isBank opened
    obtain ⟨b, -, g, -, rfl⟩ := mem_banks.mp isBank
    cases opened

/-! ## Decoding -/

/-- The request fits the vault. -/
def Fits (cfg : VaultConfig) (req : Request) : Prop :=
  match req.type with
  | .READ | .WRITE => InRange cfg req.addrVec
  | .REFRESH => req.addrVec = wholeVault cfg

section

variable {cmd : Command} {addr : Nat → Int} {below id : Nat} {node : Path}

theorem child_of_lt (mem : id < (spec cfg).count (node.length + 1)) :
    (spec cfg).child node id = .ok (id :: node) :=
  if_pos ⟨Int.natCast_nonneg id, Int.ofNat_lt.mpr mem⟩

variable (atId : addr (node.length + 1) = id)
include atId

variable (mem : id < (spec cfg).count (node.length + 1))
include mem

theorem decode_descend (noPrereq : (spec cfg).prereqAt states cmd addr node = .ok none) :
    (spec cfg).decode states cmd addr (below + 1) node =
      (spec cfg).decode states cmd addr below (id :: node) := by
  have goes : ¬ (addr (node.length + 1) < 0 ∨ (spec cfg).count (node.length + 1) = 0) := by omega
  conv_lhs => rw [DramSpec.decode, noPrereq]
  dsimp only [ok_bind]
  rw [if_neg goes, atId, child_of_lt mem, ok_bind]

theorem checkRow_descend {rowCheck : RowCheck}
    (noCheck : forAccess rowCheck node.length cmd = none) :
    (spec cfg).checkRow states cmd addr (forAccess rowCheck) (below + 1) node =
      (spec cfg).checkRow states cmd addr (forAccess rowCheck) below (id :: node) := by
  have goes : ¬ (addr (node.length + 1) < 0 ∨ (spec cfg).count (node.length + 1) = 0) := by omega
  conv_lhs => rw [DramSpec.checkRow, noCheck]
  rw [if_neg goes, atId, child_of_lt mem, ok_bind]

theorem updateState_descend (noEffect : (spec cfg).lambda node.length cmd = none)
    (isDeep : node.length ≠ (spec cfg).scope cmd) :
    (spec cfg).updateState cmd addr (below + 1) node states =
      (spec cfg).updateState cmd addr below (id :: node) states := by
  have goes : ¬ (node.length = (spec cfg).scope cmd ∨ (spec cfg).count (node.length + 1) = 0) := by
    omega
  conv_lhs => rw [DramSpec.updateState, noEffect]
  rw [if_neg goes, atId, child_of_lt mem, ok_bind]

end

section

variable {b g : Nat} {cmd : Command} {addr : Nat → Int}
  (isGroup : g < cfg.org.count .BankGroup) (isBank : b < cfg.org.count .Bank)
  (atGroup : addr 1 = g) (atBank : addr 2 = b)
include isGroup isBank atGroup atBank

/-- A read or write is decoded at its bank. -/
theorem decode_bank {first : Command} (isAccess : cmd = .RD ∨ cmd = .WR)
    (powerUp : (states []).state = .PowerUp)
    (atIt : bankAccess cmd states [b, g] (addr 3) = .ok (some first)) :
    (spec cfg).decode states cmd addr 2 [] = .ok first := by
  have atVault (id : Int) : vaultAccess states [] id = .ok none := by
    rw [vaultAccess, powerUp]
    rfl
  have noneAtVault : (spec cfg).prereqAt states cmd addr [] = .ok none := by
    rcases isAccess with rfl | rfl <;> exact atVault (addr 1)
  have noneAtGroup : (spec cfg).prereqAt states cmd addr [g] = .ok none := by
    rcases isAccess with rfl | rfl <;> rfl
  have someAtBank : (spec cfg).prereqAt states cmd addr [b, g] = .ok (some first) := by
    rcases isAccess with rfl | rfl <;> exact atIt
  rw [decode_descend atGroup isGroup noneAtVault,
    decode_descend atBank isBank noneAtGroup, DramSpec.decode, someAtBank]
  rfl

/-- A read or write looks for its row at its bank. -/
theorem checkRow_bank (rowCheck : RowCheck) (isAccess : cmd = .RD ∨ cmd = .WR) :
    (spec cfg).checkRow states cmd addr (forAccess rowCheck) 2 [] =
      rowCheck states [b, g] (addr 3) := by
  rw [checkRow_descend atGroup isGroup, checkRow_descend atBank isBank]
  all_goals rcases isAccess with rfl | rfl <;> rfl

/-- A command with an effect on a bank reaches it. -/
theorem updateState_bank {effect : Effect} (isEffect : HMC.lambda cfg.org 2 cmd = some effect)
    (isDeep : 2 ≤ (HMC.scope cmd).index) :
    (spec cfg).updateState cmd addr 2 [] states = .ok (effect [b, g] (addr 3) states) := by
  have isScope : (spec cfg).scope cmd = (HMC.scope cmd).index := rfl
  have notAtVault : (spec cfg).lambda ([] : Path).length cmd = none := by
    cases cmd <;> first | rfl | exact absurd isDeep (by decide)
  have notAtGroup : (spec cfg).lambda [g].length cmd = none := by
    cases cmd <;> rfl
  have atIt : (spec cfg).lambda [b, g].length cmd = some effect := isEffect
  rw [updateState_descend atGroup isGroup notAtVault (by simp; omega),
    updateState_descend atBank isBank notAtGroup (by simp; omega),
    DramSpec.updateState, atIt]
  rfl

end

/-- The banks give every access a legal command. -/
theorem bankAccess_legal {node : Path} (cmd : Command) (id : Int)
    (shape : BankShape (states node)) :
    ∃ first, bankAccess cmd states node id = .ok (some first) ∧
      (first = .ACT ∧ (states node).state = .Closed ∨ first = .PRE ∧ (states node).state = .Opened ∨
        first = cmd ∧ (states node).state = .Opened ∧
          (states node).rowState.map Prod.fst = [id]) := by
  generalize isNode : states node = bank at shape
  cases shape with
  | closed =>
    refine ⟨.ACT, ?_, .inl ⟨rfl, rfl⟩⟩
    rw [bankAccess, isNode]
    rfl
  | opened row =>
    by_cases isRow : row = id
    · refine ⟨cmd, ?_, .inr (.inr ⟨rfl, rfl, ?_⟩)⟩
      · simp [bankAccess, isNode, NodeState.hasRow, isRow, Pure.pure, Except.pure]
      · rw [isRow]
        rfl
    · refine ⟨.PRE, ?_, .inr (.inl ⟨rfl, rfl⟩)⟩
      simp [bankAccess, isNode, NodeState.hasRow, isRow, Pure.pure, Except.pure]

theorem decode_access_legal {cmd : Command}
    (mirrors : Mirrors cfg states table) (isAccess : cmd = .RD ∨ cmd = .WR)
    (inRange : InRange cfg addrVec) :
    ∃ first, (spec cfg).decode states cmd (addrOf addrVec) 2 [] = .ok first ∧
      Legal cfg states first addrVec ∧ Aimed cfg first addrVec := by
  have atBank := inRange.mem_banks
  have keep := inRange
  cases inRange with
  | intro g b row column isGroup isBank =>
    obtain ⟨first, access, legal⟩ := bankAccess_legal cmd row (mirrors.shape _ atBank)
    refine ⟨first, decode_bank isGroup isBank rfl rfl isAccess mirrors.powerUp access, ?_⟩
    rcases legal with ⟨rfl, closed⟩ | ⟨rfl, opened⟩ | ⟨rfl, opened, isRow⟩
    · exact ⟨closed, keep⟩
    · exact ⟨opened, keep⟩
    · rcases isAccess with rfl | rfl <;> exact ⟨⟨opened, isRow⟩, keep⟩

theorem decode_refresh_legal (mirrors : Mirrors cfg states table) :
    ∃ first, (spec cfg).decode states .REF (addrOf (wholeVault cfg)) 2 [] = .ok first ∧
      Legal cfg states first (wholeVault cfg) ∧
      Aimed cfg first (wholeVault cfg) := by
  by_cases closed : (HMC.banks cfg.org []).all fun bank =>
      (states bank).state = .Closed
  · refine ⟨.REF, ?_, ?_, rfl⟩
    · have isPrereq : (spec cfg).prereqAt states .REF
          (addrOf (wholeVault cfg)) [] = .ok (some .REF) := if_pos closed
      rw [DramSpec.decode, isPrereq]
      rfl
    · intro bank isBank
      exact of_decide_eq_true (all_eq_true.mp closed bank isBank)
  · refine ⟨.PREA, ?_, ?_, rfl⟩
    · have isPrereq : (spec cfg).prereqAt states .REF
          (addrOf (wholeVault cfg)) [] = .ok (some .PREA) := if_neg closed
      rw [DramSpec.decode, isPrereq]
      rfl
    · rw [all_eq_true, not_forall] at closed
      obtain ⟨bank, notClosed⟩ := closed
      rcases Classical.not_imp.mp notClosed with ⟨isBank, notClosed⟩
      refine ⟨bank, isBank, ?_⟩
      have shape := mirrors.shape bank isBank
      generalize states bank = node at shape notClosed
      cases shape with
      | closed => exact absurd rfl notClosed
      | opened row => rfl

/-- The first command of a request is legal. -/
theorem getFirstCmd_legal {banks : VaultBanks} {req : Request}
    (mirrors : Mirrors cfg banks.dram.states banks.table) (fits : Fits cfg req) :
    Gives (banks.getFirstCmd cfg req) fun cmd =>
      Legal cfg banks.dram.states cmd req.addrVec ∧ Aimed cfg cmd req.addrVec := by
  have returns : ∃ first, (spec cfg).decode banks.dram.states
        (translate req.type) (addrOf req.addrVec) 2 [] = .ok first ∧
      Legal cfg banks.dram.states first req.addrVec ∧
      Aimed cfg first req.addrVec := by
    unfold Fits at fits
    cases type : req.type with
    | READ =>
      rw [type] at fits
      exact decode_access_legal mirrors (.inl rfl) fits
    | WRITE =>
      rw [type] at fits
      exact decode_access_legal mirrors (.inr rfl) fits
    | REFRESH =>
      rw [type] at fits
      have isWhole : req.addrVec = wholeVault cfg := fits
      rw [isWhole]
      exact decode_refresh_legal mirrors
  obtain ⟨first, decodes, legal⟩ := returns
  refine ⟨first, ?_, legal⟩
  exact congrArg ofDram decodes

end Damov.Ramulator.VaultBanks

namespace Damov.Ramulator

open Library Checked Function HMC List

/-! ## The row table -/

namespace RowTable

variable {table : RowTable} {key : List Int}

theorem insert_new (entry : RowEntry) (isNew : key ∉ table.map Prod.fst) :
    table.insert key entry = table ++ [(key, entry)] := by
  have notFound : ¬ (table.any fun pair => pair.1 = key) = true := by
    intro found
    obtain ⟨pair, mem, same⟩ := any_eq_true.mp found
    exact isNew (of_decide_eq_true same ▸ mem_map_of_mem mem)
  rw [insert, if_neg notFound]

/-- The entries after an access to a row that the table has. -/
theorem access_spec {row : Int} (clk : Int) (found : key ∈ table.map Prod.fst)
    (isRow : ∀ pair ∈ table, pair.1 = key → pair.2.row = row) :
    table.access key row clk = .ok (table.map fun pair =>
      if pair.1 = key then (pair.1, hit clk pair.2) else pair) := by
  obtain ⟨pair, mem, same⟩ := mem_map.mp found
  unfold access
  cases first : table.find? fun pair => pair.1 = key with
  | none =>
    have notSame := find?_eq_none.mp first pair mem
    exact absurd (decide_eq_true same) notSame
  | some other =>
    have isFirst := find?_some first
    have isKey : other.1 = key := of_decide_eq_true isFirst
    have isOther := isRow other (mem_of_find?_eq_some first) isKey
    dsimp only
    rw [check_true_bind isOther]
    rfl

theorem close_spec (addrVec : List Int) (scope : Nat) (found : ∃ pair ∈ table,
      pair.1.take (scope + 1) = addrVec.take (scope + 1)) :
    table.close addrVec scope = .ok (table.filter fun pair =>
      !decide (pair.1.take (scope + 1) = addrVec.take (scope + 1))) := by
  obtain ⟨pair, mem, same⟩ := found
  have counted : 0 < table.countP fun pair =>
      decide (pair.1.take (scope + 1) = addrVec.take (scope + 1)) :=
    countP_pos_iff.mpr ⟨pair, mem, decide_eq_true same⟩
  rw [close, check_true_bind counted]
  rfl

end RowTable

namespace VaultBanks

variable {cfg : VaultConfig} {states : States State} {table : RowTable}

namespace Mirrors

variable {bank : Path} (mirrors : Mirrors cfg states table)
include mirrors

/-- The row in the table is that of the bank. -/
theorem row_eq {pair : List Int × RowEntry} (mem : pair ∈ table) (isKey : pair.1 = keyOf cfg bank) :
    states bank = ⟨.Opened, [(pair.2.row, .Opened)]⟩ := by
  obtain ⟨other, -, isOther, opened⟩ := mirrors.sound pair mem
  rwa [keyOf_injective (isKey.symm.trans isOther)]

theorem not_mem_of_closed (closed : (states bank).state = .Closed) :
    keyOf cfg bank ∉ table.map Prod.fst := by
  intro found
  obtain ⟨pair, mem, isKey⟩ := mem_map.mp found
  rw [mirrors.row_eq mem isKey] at closed
  cases closed

omit mirrors in
theorem root_ne (isBank : bank ∈ HMC.banks cfg.org []) : [] ≠ bank := by
  obtain ⟨b, -, g, -, rfl⟩ := mem_banks.mp isBank
  exact (cons_ne_nil _ _).symm

theorem closed_eq (isBank : bank ∈ HMC.banks cfg.org [])
    (closed : (states bank).state = .Closed) : states bank = ⟨.Closed, []⟩ := by
  have shape := mirrors.shape bank isBank
  generalize states bank = node at shape closed
  cases shape with
  | closed => rfl
  | opened row => cases closed

/-- A closed bank opens a row. -/
theorem open_row (isBank : bank ∈ HMC.banks cfg.org [])
    (closed : (states bank).state = .Closed) (row clk : Int) :
    Mirrors cfg (openRow bank row states) (table ++ [(keyOf cfg bank, ⟨row, 0, clk⟩)]) := by
  have isNew := mirrors.not_mem_of_closed closed
  have opens : openRow bank row states = update states bank ⟨.Opened, [(row, .Opened)]⟩ := by
    rw [openRow, mirrors.closed_eq isBank closed]
    rfl
  rw [opens]
  refine ⟨?_, ?_, ?_, ?_, ?_⟩
  · rw [update_of_ne (root_ne isBank)]
    exact mirrors.powerUp
  · intro other isOther
    by_cases same : other = bank
    · rw [same, update_self]
      exact .opened row
    · rw [update_of_ne same]
      exact mirrors.shape other isOther
  · rw [map_append, nodup_append]
    exact ⟨mirrors.nodup, nodup_singleton _, fun key mem =>
      forall_mem_singleton.mpr (ne_of_mem_of_not_mem mem isNew)⟩
  · refine forall_mem_append.mpr ⟨fun pair old => ?_,
      forall_mem_singleton.mpr ⟨bank, isBank, rfl, update_self _ _ _⟩⟩
    obtain ⟨other, isOther, isKey, opened⟩ := mirrors.sound pair old
    have apart : other ≠ bank := by
      rintro rfl
      rw [opened] at closed
      cases closed
    exact ⟨other, isOther, isKey, by rw [update_of_ne apart, opened]⟩
  · intro other isOther opened
    rw [map_append]
    by_cases same : other = bank
    · rw [same]
      exact mem_append_right _ mem_cons_self
    · rw [update_of_ne same] at opened
      exact mem_append_left _ (mirrors.complete other isOther opened)

/-- Only the hits of the table change. -/
theorem access (key : List Int) (clk : Int) : Mirrors cfg states (table.map fun pair =>
      if pair.1 = key then (pair.1, RowTable.hit clk pair.2) else pair) := by
  have sameKey (pair : List Int × RowEntry) :
      (if pair.1 = key then (pair.1, RowTable.hit clk pair.2) else pair).1 =
        pair.1 := by
    split <;> rfl
  have sameRow (pair : List Int × RowEntry) :
      (if pair.1 = key then (pair.1, RowTable.hit clk pair.2) else pair).2.row =
        pair.2.row := by
    split <;> rfl
  have sameKeys : (table.map fun pair =>
      if pair.1 = key then (pair.1, RowTable.hit clk pair.2) else pair).map
        Prod.fst = table.map Prod.fst := by
    rw [map_map]
    exact map_congr_left fun pair _ => sameKey pair
  refine ⟨mirrors.powerUp, mirrors.shape, ?_, ?_, ?_⟩
  · rw [sameKeys]
    exact mirrors.nodup
  · intro pair mem
    obtain ⟨old, isOld, rfl⟩ := mem_map.mp mem
    rw [sameKey, sameRow]
    exact mirrors.sound old isOld
  · intro bank isBank opened
    rw [sameKeys]
    exact mirrors.complete bank isBank opened

/-- A bank is closed and its entry removed. -/
theorem close_bank (isBank : bank ∈ HMC.banks cfg.org []) :
    Mirrors cfg (update states bank ⟨.Closed, []⟩)
      (table.filter fun pair => !decide (pair.1 = keyOf cfg bank)) := by
  refine ⟨?_, ?_, ?_, ?_, ?_⟩
  · rw [update_of_ne (root_ne isBank)]
    exact mirrors.powerUp
  · intro other isOther
    by_cases same : other = bank
    · rw [same, update_self]
      exact .closed
    · rw [update_of_ne same]
      exact mirrors.shape other isOther
  · exact (filter_sublist.map Prod.fst).nodup mirrors.nodup
  · intro pair mem
    obtain ⟨old, notKey⟩ := mem_filter.mp mem
    rcases mirrors.sound pair old with ⟨other, isOther, isKey, opened⟩
    have apart : other ≠ bank := by
      rintro rfl
      simp [isKey] at notKey
    exact ⟨other, isOther, isKey, by rw [update_of_ne apart, opened]⟩
  · intro other isOther opened
    by_cases same : other = bank
    · rw [same, update_self] at opened
      cases opened
    rw [update_of_ne same] at opened
    obtain ⟨pair, mem, isKey⟩ := mem_map.mp (mirrors.complete other isOther opened)
    refine mem_map.mpr ⟨pair, mem_filter.mpr ⟨mem, ?_⟩, isKey⟩
    have notKey : pair.1 ≠ keyOf cfg bank := fun isBankKey =>
      same (keyOf_injective (isKey.symm.trans isBankKey))
    simp [notKey]

end Mirrors

theorem foldl_update (banks : List Path) (value : NodeState State)
    (states : States State) (place : Path) :
    banks.foldl (fun states bank => update states bank value) states
        place =
      if place ∈ banks then value else states place := by
  induction banks generalizing states with
  | nil => rfl
  | cons bank banks ih =>
    rw [foldl_cons, ih]
    by_cases isLater : place ∈ banks
    · rw [if_pos isLater, if_pos (mem_cons_of_mem _ isLater)]
    · by_cases same : place = bank
      · rw [if_neg isLater, same, update_self, if_pos mem_cons_self]
      · rw [if_neg isLater, update_of_ne same, if_neg]
        exact fun mem => (mem_cons.mp mem).elim same isLater

/-- All banks are closed and the table is empty. -/
theorem Mirrors.close_all (mirrors : Mirrors cfg states table) (id : Int) :
    Mirrors cfg (closeAll cfg.org [] id states) [] where
  powerUp := by
    rw [closeAll, foldl_update, if_neg fun isBank => root_ne isBank rfl]
    exact mirrors.powerUp
  shape := by
    intro bank isBank
    rw [closeAll, foldl_update, if_pos isBank]
    exact .closed
  nodup := nodup_nil
  sound := nofun
  complete := by
    intro bank isBank opened
    rw [closeAll, foldl_update, if_pos isBank] at opened
    cases opened

/-! ## Commands -/

/-- A command can be applied and leaves the table and the banks in step. -/
def Applies (cfg : VaultConfig) (states : States State) (table : RowTable)
    (clk : Int) (cmd : Command) (addrVec : List Int) : Prop :=
  Gives ((spec cfg).updateState cmd (addrOf addrVec) 2 [] states)
    fun after => Gives (table.update cmd addrVec clk) (Mirrors cfg after)

section

variable {addrVec : List Int} (mirrors : Mirrors cfg states table)
include mirrors

variable (clk : Int)

theorem applies_act (inRange : InRange cfg addrVec)
    (closed : (states (bankOf addrVec)).state = .Closed) :
    Applies cfg states table clk .ACT addrVec := by
  have atBank := inRange.mem_banks
  cases inRange with
  | intro g b row column isGroup isBank =>
    have isEffect : HMC.lambda cfg.org 2 .ACT = some openRow := rfl
    refine ⟨_, updateState_bank isGroup isBank rfl rfl isEffect (by decide), ?_⟩
    have inserted := RowTable.insert_new ⟨row, 0, clk⟩ (mirrors.not_mem_of_closed closed)
    refine ⟨_, congrArg Except.ok inserted, ?_⟩
    exact mirrors.open_row atBank closed row clk

omit mirrors in
theorem applies_access {cmd : Command} (isAccess : cmd = .RD ∨ cmd = .WR)
    (mirrors : Mirrors cfg states table) (clk : Int) (inRange : InRange cfg addrVec)
    (opened : (states (bankOf addrVec)).state = .Opened)
    (isRow : (states (bankOf addrVec)).rowState.map Prod.fst = [addrOf addrVec Level.Row.index]) :
    Applies cfg states table clk cmd addrVec := by
  have atBank := inRange.mem_banks
  cases inRange with
  | intro g b row column isGroup isBank =>
    have isEffect : HMC.lambda cfg.org 2 cmd = some noEffect := by
      rcases isAccess with rfl | rfl <;> rfl
    have isDeep : 2 ≤ (HMC.scope cmd).index := by
      rcases isAccess with rfl | rfl <;> decide
    refine ⟨_, updateState_bank isGroup isBank rfl rfl isEffect isDeep, ?_⟩
    have sameRow (pair) (mem : pair ∈ table) (isKey : pair.1 = keyOf cfg [b, g]) :
        pair.2.row = (row : Int) := by
      have rows : (states [b, g]).rowState.map Prod.fst = [(row : Int)] := isRow
      rw [mirrors.row_eq mem isKey] at rows
      exact (List.cons.inj rows).1
    have accessed := RowTable.access_spec clk (mirrors.complete [b, g] atBank opened) sameRow
    refine ⟨_, ?_, mirrors.access (keyOf cfg [b, g]) clk⟩
    have updates : table.update cmd [(cfg.vault : Int), g, b, row, column]
        clk = table.access (keyOf cfg [b, g]) row clk >>= pure := by
      rcases isAccess with rfl | rfl <;> rfl
    rw [updates, accessed]
    rfl

theorem applies_pre (inRange : InRange cfg addrVec)
    (opened : (states (bankOf addrVec)).state = .Opened) :
    Applies cfg states table clk .PRE addrVec := by
  have atBank := inRange.mem_banks
  cases inRange with
  | intro g b row column isGroup isBank =>
    have isEffect : HMC.lambda cfg.org 2 .PRE = some closeBank := rfl
    refine ⟨_, updateState_bank isGroup isBank rfl rfl isEffect (by decide), ?_⟩
    -- the keys end at the bank, so the address is compared with whole keys
    have wholeKey (pair : List Int × RowEntry) (mem : pair ∈ table) : pair.1.take 3 = pair.1 := by
      obtain ⟨other, isOther, isKey, -⟩ := mirrors.sound pair mem
      rcases mem_banks.mp isOther with ⟨b', -, g', -, rfl⟩
      rw [isKey]
      rfl
    obtain ⟨found, mem, isKey⟩ := mem_map.mp (mirrors.complete _ atBank opened)
    have closes := RowTable.close_spec [(cfg.vault : Int), g, b, row, column] 2
      ⟨found, mem, (wholeKey found mem).trans isKey⟩
    have same : (table.filter fun pair => !decide (pair.1.take 3 =
          take 3 [(cfg.vault : Int), g, b, row, column])) =
        table.filter fun pair => !decide (pair.1 = keyOf cfg [b, g]) := by
      apply filter_congr
      intro pair isPair
      rw [wholeKey pair isPair]
      rfl
    refine ⟨_, closes, ?_⟩
    rw [same]
    exact mirrors.close_bank atBank

theorem applies_prea (opened : ∃ bank ∈ HMC.banks cfg.org [], (states bank).state = .Opened) :
    Applies cfg states table clk .PREA (wholeVault cfg) := by
  refine ⟨closeAll cfg.org [] (-1) states, rfl, ?_⟩
  have sameVault (pair : List Int × RowEntry) (mem : pair ∈ table) :
      pair.1.take 1 = (wholeVault cfg).take 1 := by
    obtain ⟨bank, -, isKey, -⟩ := mirrors.sound pair mem
    rw [isKey]
    rfl
  obtain ⟨bank, isBank, opened⟩ := opened
  obtain ⟨found, mem, -⟩ := mem_map.mp (mirrors.complete bank isBank opened)
  have closes := RowTable.close_spec (wholeVault cfg) 0 ⟨found, mem, sameVault found mem⟩
  refine ⟨_, closes, ?_⟩
  have none : (table.filter fun pair => !decide
      (pair.1.take 1 = (wholeVault cfg).take 1)) = [] := by
    rw [filter_eq_nil_iff]
    intro pair isPair
    simp [sameVault pair isPair]
  rw [none]
  exact mirrors.close_all (-1)

theorem applies_ref : Applies cfg states table clk .REF (wholeVault cfg) :=
  ⟨states, rfl, table, rfl, mirrors⟩

theorem applies_of_legal {cmd : Command} (legal : Legal cfg states cmd addrVec)
    (aimed : Aimed cfg cmd addrVec) :
    Applies cfg states table clk cmd addrVec := by
  cases cmd with
  | ACT => exact applies_act mirrors clk aimed legal
  | PRE => exact applies_pre mirrors clk aimed legal
  | PREA =>
    have isWhole : addrVec = wholeVault cfg := aimed
    rw [isWhole]
    exact applies_prea mirrors clk legal
  | RD => exact applies_access (.inl rfl) mirrors clk aimed legal.1 legal.2
  | WR => exact applies_access (.inr rfl) mirrors clk aimed legal.1 legal.2
  | REF =>
    have isWhole : addrVec = wholeVault cfg := aimed
    exact applies_ref mirrors clk
  | RDA | WRA => exact legal.elim
  | PDE | PDX => exact legal.elim
  | SRE | SRX => exact legal.elim

end

end VaultBanks

end Damov.Ramulator
