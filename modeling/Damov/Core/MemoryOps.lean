import Damov.Library.Checked
import Mathlib.Data.List.Induction

/-!
# The memory operations of a basic block

Callbacks record the loads and stores of a basic block while it executes. The
next basic block then simulates it: each load or store uop takes the next recorded
address. Operations with true predicates are simulated one by one, in program
order. A load with a false predicate is meant to be recorded with an address that
the simulation passes over, but it is taken for a load of address zero.

The model keeps what decides about memory accesses. The cycles that `bbl`
computes for each uop have no influence on it.
-/

namespace Damov.Core

open Library.Checked Function List

abbrev Address := BitVec 64

inductive UopType where
  | general | load | store | storeAddr | fence
  deriving DecidableEq

/-- What the simulation of a uop does outside of the core. -/
inductive Access where
  | load (addr : Address)
  | store (addr : Address)
  | pushLoad (addr : Address) (size : Nat)
  | pushStore (addr : Address) (size : Nat)
  deriving DecidableEq

inductive Failure where
  | outOfBounds
  | loadsMismatch (loadIdx loads : Nat)
  | storesMismatch (storeIdx stores : Nat)
  deriving DecidableEq

/-- The addresses and sizes that one of the two pairs of arrays holds. -/
structure Recorded where
  addrs : Nat → Address
  sizes : Nat → Nat
  count : Nat

structure OOOCore where
  prevBbl : Option (List UopType)
  loads : Recorded
  stores : Recorded
  accesses : List Access

/-- The entries that are in use. -/
def Recorded.entries (recorded : Recorded) : List (Address × Nat) :=
  (List.range recorded.count).map fun i => (recorded.addrs i, recorded.sizes i)

namespace OOOCore

/-- The size of the arrays. -/
def maxOps : Nat := 256

def initial : OOOCore where
  prevBbl := none
  loads := ⟨fun _ => 0, fun _ => 0, 0⟩
  stores := ⟨fun _ => 0, fun _ => 0, 0⟩
  accesses := []

/-- Write the next entry of the arrays. -/
def record (recorded : Recorded) (addr : Address) (size : Nat) : Except Failure Recorded := do
  check (recorded.count < maxOps) .outOfBounds
  return { addrs := update recorded.addrs recorded.count addr
           sizes := update recorded.sizes recorded.count size
           count := recorded.count + 1 }

/-- The outcome of an operation. -/
abbrev Result := Except Failure OOOCore

def load (core : OOOCore) (addr : Address) (size : Nat) : Result := do
  let loads ← record core.loads addr size
  return { core with loads }

def store (core : OOOCore) (addr : Address) (size : Nat) : Result := do
  let stores ← record core.stores addr size
  return { core with stores }

/-- The address is written twice and the size is not written. -/
def predFalseMemOp (core : OOOCore) : Result := do
  check (core.loads.count < maxOps) .outOfBounds
  let addrs := update core.loads.addrs core.loads.count (-1)
  let addrs := update addrs core.loads.count 0
  return { core with
    loads := { core.loads with addrs, count := core.loads.count + 1 } }

/-- The simulation of a block on its way through the uops. -/
structure Lsu where
  loadIdx : Nat
  storeIdx : Nat
  accesses : List Access

/-- Simulate one uop. -/
def uop (numCores : Nat) (core : OOOCore) (lsu : Lsu) : UopType → Except Failure Lsu
  | .load => do
      check (lsu.loadIdx < maxOps) .outOfBounds
      let addr := core.loads.addrs lsu.loadIdx
      let size := core.loads.sizes lsu.loadIdx
      let made :=
        if addr ≠ -1 then
          .load addr :: if numCores = 1 then [.pushLoad addr size] else []
        else []
      return { lsu with
        loadIdx := lsu.loadIdx + 1
        accesses := lsu.accesses ++ made }
  | .store => do
      check (lsu.storeIdx < maxOps) .outOfBounds
      let addr := core.stores.addrs lsu.storeIdx
      let size := core.stores.sizes lsu.storeIdx
      let made := if numCores = 1 then [.pushStore addr size] else []
      return { lsu with
        storeIdx := lsu.storeIdx + 1
        accesses := lsu.accesses ++ made ++ [.store addr] }
  | _ => return lsu

/-- Simulate the previous block. -/
def bbl (numCores : Nat) (core : OOOCore) (bblInfo : List UopType) : Result :=
  match core.prevBbl with
  | none => return { core with
      prevBbl := some bblInfo
      loads := { core.loads with count := 0 }
      stores := { core.stores with count := 0 } }
  | some uops => do
      let lsu ← uops.foldlM (uop numCores core) ⟨0, 0, core.accesses⟩
      check (lsu.loadIdx = core.loads.count) (.loadsMismatch lsu.loadIdx core.loads.count)
      check (lsu.storeIdx = core.stores.count) (.storesMismatch lsu.storeIdx core.stores.count)
      return {
        prevBbl := some bblInfo
        loads := { core.loads with count := 0 }
        stores := { core.stores with count := 0 }
        accesses := lsu.accesses }

end OOOCore

/-- The memory operation of an instruction. -/
inductive MemOp where
  | load (addr : Address) (size : Nat)
  | store (addr : Address) (size : Nat)
  | predLoad (addr : Address) (pred : Bool) (size : Nat)
  | predStore (addr : Address) (pred : Bool) (size : Nat)
  deriving DecidableEq

/-- A call from the instrumented program. -/
inductive Call where
  | mem (op : MemOp)
  | bbl (bblInfo : List UopType)
  deriving DecidableEq

namespace OOOCore

def memOp (core : OOOCore) : MemOp → Result
  | .load addr size => core.load addr size
  | .store addr size => core.store addr size
  | .predLoad addr pred size =>
    if pred then core.load addr size else core.predFalseMemOp
  | .predStore addr pred size =>
    if pred then core.store addr size else core.predFalseMemOp

def call (numCores : Nat) (core : OOOCore) : Call → Result
  | .mem op => core.memOp op
  | .bbl bblInfo => core.bbl numCores bblInfo

def run (numCores : Nat) (calls : List Call) : Result := calls.foldlM (call numCores) initial

end OOOCore

/-! ## What should happen -/

/-- The basic blocks that execute, each with its memory operations. Operations
before the first block belong to a block that started elsewhere. -/
structure Program where
  lingering : List MemOp
  blocks : List (List UopType × List MemOp)

variable (program : Program)

def Program.calls : List Call :=
  program.lingering.map .mem ++ program.blocks.flatMap fun block => .bbl block.1 :: block.2.map .mem

def MemOp.isLoad : MemOp → Bool
  | .load _ _ | .predLoad _ _ _ => true
  | .store _ _ | .predStore _ _ _ => false

/-- The predicate of the operation is true. -/
def MemOp.executes : MemOp → Bool
  | .load _ _ | .store _ _ => true
  | .predLoad _ pred _ | .predStore _ pred _ => pred

/-- The address and size of an operation. -/
def MemOp.access : MemOp → Address × Nat
  | .load addr size | .store addr size | .predLoad addr _ size
  | .predStore addr _ size => (addr, size)

/-- The memory operations are those of the uops. -/
structure Matches (uops : List UopType) (ops : List MemOp) : Prop where
  loads : (ops.filter MemOp.isLoad).length = uops.count .load
  stores : (ops.filter fun op => !op.isLoad).length = uops.count .store

/-- The loads that execute. -/
def executedLoads (ops : List MemOp) : List (Address × Nat) :=
  (ops.filter fun op => op.isLoad && op.executes).map MemOp.access

/-- A block is simulated when the next one starts. -/
def Program.executedLoads : List (Address × Nat) :=
  program.blocks.dropLast.flatMap fun block => Core.executedLoads block.2

def Program.Matches : Prop := ∀ block ∈ program.blocks.dropLast, Core.Matches block.1 block.2

/-- The addresses that the first-level cache was asked to load. -/
def OOOCore.loaded (accesses : List Access) : List Address := accesses.filterMap fun
    | .load addr => some addr
    | _ => none

/-- What the loads pushed to the locality monitor. -/
def OOOCore.pushed (accesses : List Access) : List (Address × Nat) := accesses.filterMap fun
    | .pushLoad addr size => some (addr, size)
    | _ => none

/-- The operations have true predicates, no load has the address of a false one
and the arrays have room for all of them. -/
structure Plain (ops : List MemOp) : Prop where
  executes : ∀ op ∈ ops, op.executes
  valid : ∀ op ∈ ops, op.isLoad → op.access.1 ≠ -1
  loads : (ops.filter MemOp.isLoad).length ≤ OOOCore.maxOps
  stores : (ops.filter fun op => !op.isLoad).length ≤ OOOCore.maxOps

structure Program.Plain : Prop where
  lingering : Core.Plain program.lingering
  blocks : ∀ block ∈ program.blocks, Core.Plain block.2

namespace OOOCore

variable {numCores : Nat} {core : OOOCore} {uops : List UopType}

/-! ## Recording -/

theorem length_entries (recorded : Recorded) : recorded.entries.length = recorded.count := by
  simp [Recorded.entries]

variable {recorded : Recorded} {ops : List MemOp} {next : OOOCore}

theorem record_spec {addr : Address} {size : Nat} (room : recorded.count < maxOps) :
    Gives (record recorded addr size) fun next =>
      next.count = recorded.count + 1 ∧ next.entries = recorded.entries ++ [(addr, size)] := by
  refine .check room ?_
  refine .pure ⟨rfl, ?_⟩
  rw [Recorded.entries, range_succ, map_append]
  congr 1
  · apply map_congr_left
    intro i mem
    have apart : i ≠ recorded.count := Nat.ne_of_lt (mem_range.mp mem)
    simp [update_of_ne apart]
  · simp

/-- What operations with true predicates record. -/
structure Records (ops : List MemOp) (core next : OOOCore) : Prop where
  prevBbl : next.prevBbl = core.prevBbl
  accesses : next.accesses = core.accesses
  loads : next.loads.entries = core.loads.entries ++ (ops.filter MemOp.isLoad).map MemOp.access
  stores : next.stores.count = core.stores.count + (ops.filter fun op => !op.isLoad).length

theorem Records.loadsCount (records : Records ops core next) :
    next.loads.count = core.loads.count + (ops.filter MemOp.isLoad).length := by
  have lengths := congrArg length records.loads
  simpa [length_entries] using lengths

theorem memOp_spec {op : MemOp} (executes : op.executes)
    (loadRoom : op.isLoad → core.loads.count < maxOps)
    (storeRoom : op.isLoad = false → core.stores.count < maxOps) :
    Gives (core.memOp op) (Records [op] core) := by
  have isMem : core.memOp op = if op.isLoad then core.load op.access.1 op.access.2
      else core.store op.access.1 op.access.2 := by
    cases op <;> simp_all [memOp, MemOp.isLoad, MemOp.access, MemOp.executes]
  rw [isMem]
  cases kind : op.isLoad with
  | true =>
    apply (record_spec (loadRoom kind)).bind
    rintro loads ⟨-, entries⟩
    refine .pure ⟨rfl, rfl, ?_, ?_⟩
    · simp [entries, kind]
    · simp [kind]
  | false =>
    apply (record_spec (storeRoom kind)).bind
    rintro stores ⟨count, -⟩
    refine .pure ⟨rfl, rfl, ?_, ?_⟩
    · simp [kind]
    · simp [count, kind]

theorem Records.trans {first second : List MemOp} {middle : OOOCore}
    (start : Records first core middle) (rest : Records second middle next) :
    Records (first ++ second) core next where
  prevBbl := rest.prevBbl.trans start.prevBbl
  accesses := rest.accesses.trans start.accesses
  loads := by
    rw [rest.loads, start.loads, filter_append, map_append, append_assoc]
  stores := by
    rw [rest.stores, start.stores, filter_append, length_append, Nat.add_assoc]

theorem length_filter_cons (kept : MemOp → Bool) (op : MemOp) (ops : List MemOp) :
    ((op :: ops).filter kept).length = ([op].filter kept).length + (ops.filter kept).length := by
  rw [← singleton_append, filter_append, length_append]

theorem memOps_spec (executes : ∀ op ∈ ops, op.executes)
    (loadRoom : core.loads.count + (ops.filter MemOp.isLoad).length ≤ maxOps)
    (storeRoom : core.stores.count + (ops.filter fun op => !op.isLoad).length ≤ maxOps) :
    Gives (ops.foldlM memOp core) (Records ops core) := by
  induction ops generalizing core with
  | nil => exact .pure ⟨rfl, rfl, by simp, by simp⟩
  | cons op ops ih =>
    have first : Gives (core.memOp op) (Records [op] core) := by
      apply memOp_spec (executes op mem_cons_self)
      · intro kind
        rw [filter_cons_of_pos kind, length_cons] at loadRoom
        omega
      · intro kind
        rw [filter_cons_of_pos (by simp [kind]), length_cons] at storeRoom
        omega
    apply first.bind
    intro next records
    have loads := records.loadsCount
    have stores := records.stores
    have rest : Gives (ops.foldlM memOp next) (Records ops next) := by
      apply ih
      · exact fun other mem =>
          executes other (mem_cons_of_mem _ mem)
      · rwa [loads, Nat.add_assoc, ← length_filter_cons]
      · rwa [stores, Nat.add_assoc, ← length_filter_cons]
    exact rest.mono fun _ later => records.trans later

/-! ## Simulating -/

theorem loaded_append (first second : List Access) :
    loaded (first ++ second) = loaded first ++ loaded second :=
  filterMap_append

theorem pushed_append (first second : List Access) :
    pushed (first ++ second) = pushed first ++ pushed second :=
  filterMap_append

/-- The simulation is through with some uops. -/
structure Simulates
    (numCores : Nat) (core : OOOCore) (visited : List UopType) (lsu : Lsu) : Prop where
  loadIdx : lsu.loadIdx = visited.count .load
  storeIdx : lsu.storeIdx = visited.count .store
  loaded : loaded lsu.accesses = loaded core.accesses ++
    (core.loads.entries.take lsu.loadIdx).map Prod.fst
  pushed : pushed lsu.accesses = pushed core.accesses ++
    if numCores = 1 then core.loads.entries.take lsu.loadIdx else []

theorem take_entries {i : Nat} (mem : i < recorded.count) : recorded.entries.take (i + 1) =
      recorded.entries.take i ++ [(recorded.addrs i, recorded.sizes i)] := by
  have entry : recorded.entries[i]? = some (recorded.addrs i, recorded.sizes i) := by
    rw [Recorded.entries, getElem?_map, getElem?_range mem]
    rfl
  rw [take_add_one, entry, Option.toList_some]

section

variable (valid : ∀ entry ∈ core.loads.entries, entry.1 ≠ -1) (loadRoom : core.loads.count ≤ maxOps)
  (storeRoom : core.stores.count ≤ maxOps)
include valid loadRoom storeRoom

theorem uop_spec {visited : List UopType} {kind : UopType} {lsu : Lsu} (loads : (visited ++ [kind]).count .load ≤ core.loads.count)
    (stores : (visited ++ [kind]).count .store ≤ core.stores.count)
    (simulates : Simulates numCores core visited lsu) :
    Gives (uop numCores core lsu kind) (Simulates numCores core (visited ++ [kind])) := by
  have loadIdx := simulates.loadIdx
  have storeIdx := simulates.storeIdx
  cases kind with
  | load =>
    have mem : lsu.loadIdx < core.loads.count := by
      rw [count_append, count_singleton_self] at loads
      omega
    have isValid : core.loads.addrs lsu.loadIdx ≠ -1 :=
      valid (core.loads.addrs lsu.loadIdx, core.loads.sizes lsu.loadIdx)
        (mem_map.mpr ⟨lsu.loadIdx, mem_range.mpr mem, rfl⟩)
    refine .check (by omega) ?_
    refine .pure ⟨?_, ?_, ?_, ?_⟩
    · simp [loadIdx]
    · simpa using storeIdx
    · rw [loaded_append, simulates.loaded, take_entries mem]
      split <;> simp [OOOCore.loaded]
    · rw [pushed_append, simulates.pushed, take_entries mem]
      split <;> simp [OOOCore.pushed]
  | store =>
    apply Gives.check (by
      rw [count_append, count_singleton_self] at stores
      omega)
    refine .pure ⟨?_, ?_, ?_, ?_⟩
    · simpa using loadIdx
    · simp [storeIdx]
    · rw [loaded_append, loaded_append, simulates.loaded]
      split <;> simp [OOOCore.loaded]
    · rw [pushed_append, pushed_append, simulates.pushed]
      split <;> simp [OOOCore.pushed]
  | general | storeAddr | fence =>
    exact .pure ⟨by simpa using loadIdx, by simpa using storeIdx,
      simulates.loaded, simulates.pushed⟩

theorem uops_spec (loads : core.loads.count = uops.count .load) (stores : core.stores.count = uops.count .store) :
    Gives (uops.foldlM (uop numCores core) ⟨0, 0, core.accesses⟩)
      (Simulates numCores core uops) := by
  refine (Gives.foldlM (fun visited rest lsu =>
      visited ++ rest = uops ∧ Simulates numCores core visited lsu)
    ?_ uops ⟨0, 0, core.accesses⟩ ?_).mono fun _ holds => holds.2
  · rintro visited kind rest lsu ⟨order, simulates⟩
    have through : uops = (visited ++ [kind]) ++ rest := by
      rw [← order, append_assoc, singleton_append]
    rw [through, count_append] at loads stores
    exact (uop_spec valid loadRoom storeRoom (by omega) (by omega)
      simulates).mono fun _ next => ⟨through.symm, next⟩
  · exact ⟨rfl, rfl, rfl, by simp, by simp⟩

end

/-- The simulation of a block whose uops match what was recorded. -/
structure Simulated
    (numCores : Nat) (core : OOOCore) (bblInfo : List UopType) (next : OOOCore) : Prop where
  prevBbl : next.prevBbl = some bblInfo
  loads : next.loads.entries = []
  stores : next.stores.count = 0
  loaded : loaded next.accesses = loaded core.accesses ++ core.loads.entries.map Prod.fst
  pushed : pushed next.accesses = pushed core.accesses ++
    if numCores = 1 then core.loads.entries else []

theorem bbl_spec {bblInfo : List UopType} (prev : core.prevBbl = some uops)
    (valid : ∀ entry ∈ core.loads.entries, entry.1 ≠ -1) (loadRoom : core.loads.count ≤ maxOps)
    (storeRoom : core.stores.count ≤ maxOps) (loads : core.loads.count = uops.count .load)
    (stores : core.stores.count = uops.count .store) :
    Gives (core.bbl numCores bblInfo) (Simulated numCores core bblInfo) := by
  rw [bbl, prev]
  apply (uops_spec valid loadRoom storeRoom loads stores).bind
  intro lsu simulates
  have all : core.loads.entries.take lsu.loadIdx = core.loads.entries := by
    apply take_of_length_le
    rw [length_entries, simulates.loadIdx]
    exact Nat.le_of_eq loads
  refine .check (simulates.loadIdx.trans loads.symm) ?_
  refine .check (simulates.storeIdx.trans stores.symm) ?_
  refine .pure ⟨rfl, rfl, rfl, ?_, ?_⟩
  · rw [simulates.loaded, all]
  · rw [simulates.pushed, all]

end OOOCore

namespace OOOCore

variable {numCores : Nat} {core : OOOCore}

/-! ## Runs -/

/-- The core after the calls of a program. -/
structure After (numCores : Nat) (program : Program) (core : OOOCore) : Prop where
  prevBbl : core.prevBbl = program.blocks.getLast?.map Prod.fst
  loads : ∀ block, program.blocks.getLast? = some block →
    core.loads.entries = (block.2.filter MemOp.isLoad).map MemOp.access
  stores : ∀ block, program.blocks.getLast? = some block →
    core.stores.count = (block.2.filter fun op => !op.isLoad).length
  loaded : loaded core.accesses = program.executedLoads.map Prod.fst
  pushed : pushed core.accesses = if numCores = 1 then program.executedLoads else []

variable {ops lingering : List MemOp}

theorem executedLoads_eq (plain : Plain ops) :
    executedLoads ops = (ops.filter MemOp.isLoad).map MemOp.access := by
  rw [executedLoads]
  congr 1
  apply filter_congr
  intro op mem
  rw [plain.executes op mem, Bool.and_true]

theorem foldlM_mem (ops : List MemOp) :
    (ops.map Call.mem).foldlM (call numCores) core = ops.foldlM memOp core := by
  rw [foldlM_map]
  rfl

/-- The operations of a block that has just started. -/
theorem block_spec (plain : Plain ops) (loads : core.loads.count = 0)
    (stores : core.stores.count = 0) :
    Gives ((ops.map Call.mem).foldlM (call numCores) core) (Records ops core) := by
  rw [foldlM_mem]
  apply memOps_spec plain.executes
  · rw [loads, Nat.zero_add]
    exact plain.loads
  · rw [stores, Nat.zero_add]
    exact plain.stores

theorem lingering_spec (plain : Plain ops) :
    Gives (run numCores (Program.calls ⟨ops, []⟩)) (After numCores ⟨ops, []⟩) := by
  have calls : Program.calls ⟨ops, []⟩ = ops.map Call.mem := by simp [Program.calls]
  rw [calls]
  refine (block_spec plain rfl rfl).mono fun next records => ?_
  refine ⟨records.prevBbl, nofun, nofun, ?_, ?_⟩
  · rw [records.accesses]
    rfl
  · rw [records.accesses]
    exact (ite_self _).symm

/-- A block has just started. -/
structure Starts (numCores : Nat) (bblInfo : List UopType)
    (executed : List (Address × Nat)) (core : OOOCore) : Prop where
  prevBbl : core.prevBbl = some bblInfo
  loadsCount : core.loads.count = 0
  storesCount : core.stores.count = 0
  loaded : loaded core.accesses = executed.map Prod.fst
  pushed : pushed core.accesses = if numCores = 1 then executed else []

variable {bblInfo : List UopType} {blocks : List (List UopType × List MemOp)}
    {last : List UopType × List MemOp}

/-- The first block finds nothing to simulate. -/
theorem After.first (after : After numCores ⟨lingering, []⟩ core) :
    Gives (core.bbl numCores bblInfo) (Starts numCores bblInfo []) := by
  have prev : core.prevBbl = none := after.prevBbl
  rw [bbl, prev]
  exact .pure ⟨rfl, rfl, rfl, after.loaded, after.pushed⟩

/-- A later block simulates the one before it. -/
theorem After.next (after : After numCores ⟨lingering, blocks ++ [last]⟩ core)
    (plain : Plain last.2) (isMatch : Matches last.1 last.2) :
    Gives (core.bbl numCores bblInfo) (Starts numCores bblInfo
        ((blocks ++ [last]).flatMap fun block => executedLoads block.2)) := by
  have isLast : (blocks ++ [last]).getLast? = some last := getLast?_concat
  have prev : core.prevBbl = some last.1 := by
    rw [after.prevBbl, isLast, Option.map_some]
  have entries := after.loads last isLast
  have count : core.loads.count = (last.2.filter MemOp.isLoad).length := by
    rw [← length_entries, entries, length_map]
  have stores := after.stores last isLast
  have valid (entry) (mem : entry ∈ core.loads.entries) : entry.1 ≠ -1 := by
    rw [entries] at mem
    obtain ⟨op, isLoad, rfl⟩ := mem_map.mp mem
    rcases mem_filter.mp isLoad with ⟨isOp, kind⟩
    exact plain.valid op isOp kind
  have all : Program.executedLoads ⟨lingering, blocks ++ [last]⟩ ++ core.loads.entries =
      (blocks ++ [last]).flatMap fun block => executedLoads block.2 := by
    rw [Program.executedLoads, dropLast_concat, flatMap_append,
      flatMap_singleton, executedLoads_eq plain, entries]
  apply (bbl_spec prev valid (count ▸ plain.loads) (stores ▸ plain.stores)
    (count.trans isMatch.loads) (stores.trans isMatch.stores)).mono
  intro next simulated
  refine ⟨simulated.prevBbl, ?_, simulated.stores, ?_, ?_⟩
  · rw [← length_entries, simulated.loads, length_nil]
  · rw [simulated.loaded, after.loaded, ← map_append, all]
  · rw [simulated.pushed, after.pushed, ← all]
    split
    · rfl
    · rfl

theorem Starts.block (starts : Starts numCores last.1
      (blocks.flatMap fun block => executedLoads block.2) core)
    (plain : Plain last.2) :
    Gives ((last.2.map Call.mem).foldlM (call numCores) core)
      (After numCores ⟨lingering, blocks ++ [last]⟩) := by
  apply (block_spec plain starts.loadsCount starts.storesCount).mono
  intro next records
  have isLast : (blocks ++ [last]).getLast? = some last := getLast?_concat
  have none : core.loads.entries = [] :=
    length_eq_zero_iff.mp ((length_entries _).trans starts.loadsCount)
  refine ⟨?_, ?_, ?_, ?_, ?_⟩
  · rw [records.prevBbl, starts.prevBbl, isLast, Option.map_some]
  · intro block isBlock
    rw [Option.some.inj (isBlock.symm.trans isLast), records.loads, none, nil_append]
  · intro block isBlock
    rw [Option.some.inj (isBlock.symm.trans isLast), records.stores,
      starts.storesCount, Nat.zero_add]
  · rw [records.accesses, starts.loaded, Program.executedLoads, dropLast_concat]
  · rw [records.accesses, starts.pushed, Program.executedLoads, dropLast_concat]

theorem run_spec (program : Program) (isMatch : program.Matches) (plain : program.Plain) :
    Gives (run numCores program.calls) (After numCores program) := by
  obtain ⟨lingering, blocks⟩ := program
  induction blocks using reverseRecOn with
  | nil => exact lingering_spec plain.lingering
  | append_singleton blocks last ih =>
    have plainBefore : Program.Plain ⟨lingering, blocks⟩ := ⟨plain.lingering, fun block mem =>
        plain.blocks block (mem_append_left _ mem)⟩
    have isMatchAll (block) (mem : block ∈ blocks) : Matches block.1 block.2 := by
      apply isMatch block
      rwa [dropLast_concat]
    have before := ih (fun block mem => isMatchAll block (dropLast_subset _ mem)) plainBefore
    have calls : Program.calls ⟨lingering, blocks ++ [last]⟩ = Program.calls ⟨lingering, blocks⟩ ++
          (.bbl last.1 :: last.2.map .mem) := by simp [Program.calls]
    rw [run, calls, foldlM_append]
    apply before.bind
    intro core after
    have starts : Gives (core.bbl numCores last.1) (Starts numCores last.1
          (blocks.flatMap fun block => executedLoads block.2)) := by
      cases blocks using reverseRecOn with
      | nil => exact after.first
      | append_singleton earlier previous =>
        have mem : previous ∈ earlier ++ [previous] := by simp
        exact after.next (plainBefore.blocks previous mem) (isMatchAll previous mem)
    apply starts.bind
    intro next hasStarted
    exact hasStarted.block (plain.blocks last (by simp))

/-- The simulation loads and pushes exactly what the loads of the simulated
blocks accessed, in program order. -/
theorem loads_in_program_order (numCores : Nat) (program : Program) (isMatch : program.Matches)
    (plain : program.Plain) :
    Gives (run numCores program.calls) fun core =>
      loaded core.accesses = program.executedLoads.map Prod.fst ∧
      pushed core.accesses = if numCores = 1 then program.executedLoads else [] :=
  (run_spec program isMatch plain).mono fun _ after =>
    ⟨after.loaded, after.pushed⟩

/-- A load and a store, followed by a predicated load. -/
def threeOps : Program where
  lingering := []
  blocks := [ ([.load, .general, .storeAddr, .store], [.load 64 8, .store 72 8]),
    ([.load], [.predLoad 80 true 4]),
    ([], [])]

theorem loads_in_program_order_threeOps : threeOps.Matches ∧ threeOps.Plain ∧
      Gives (run 1 threeOps.calls) fun core =>
        loaded core.accesses = [64, 80] ∧
        pushed core.accesses = [(64, 8), (80, 4)] := by
  have isMatch : threeOps.Matches := by
    intro block inside
    simp only [threeOps, dropLast, mem_cons, not_mem_nil, or_false] at inside
    rcases inside with rfl | rfl
    · exact ⟨by decide, by decide⟩
    · exact ⟨by decide, by decide⟩
  have plain : threeOps.Plain := by
    refine ⟨⟨nofun, nofun, by decide, by decide⟩, ?_⟩
    intro block inside
    simp only [threeOps, mem_cons, not_mem_nil, or_false] at inside
    rcases inside with rfl | rfl | rfl
    · exact ⟨by decide, by decide, by decide, by decide⟩
    · exact ⟨by decide, by decide, by decide, by decide⟩
    · exact ⟨nofun, nofun, by decide, by decide⟩
  exact ⟨isMatch, plain, loads_in_program_order 1 threeOps isMatch plain⟩

/-- One load with a false predicate. -/
def falseLoad : Program where
  lingering := []
  blocks := [([.load], [.predLoad 64 false 8]), ([], [])]

/-- The load is simulated at address zero. -/
theorem falseLoad_loads : falseLoad.Matches ∧ falseLoad.executedLoads = [] ∧
      Gives (run 1 falseLoad.calls) fun core =>
        loaded core.accesses = [0] ∧ pushed core.accesses = [(0, 0)] := by
  refine ⟨?_, by decide, by decide⟩
  intro block inside
  rw [mem_singleton.mp inside]
  exact ⟨by decide, by decide⟩

end OOOCore

end Damov.Core
