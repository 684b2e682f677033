import Damov.Library.Checked
import Damov.Ramulator.BankInvariant
import Damov.Ramulator.SchedulerChoice
import Damov.Ramulator.VaultInvariant

/-!
# The commands of a vault are legal

Whatever request the scheduler chooses, the controller decodes it against the
banks of the moment. So the commands of every run are legal and the row table
follows the banks through refreshes and conflicts.

A vault answers the request at the head of `pending` once it departs. Requests
of one kind enter `pending` in the order in which they depart. Reads and writes
have different latencies, and a write that has long departed waits behind a read
that has not.

The capped scheduler asks the row table how often the row of a request was
accessed. The question adds an empty entry for a bank that has none, so the table
stays exact only if it is asked about open banks.
-/

namespace Damov.Ramulator

open Library Checked HMC List Queues

namespace VaultBanks

variable {config : VaultConfig} {banks : VaultBanks} {req : Request}

/-- The banks and the row table agree and all commands were legal. -/
structure Inv (config : VaultConfig) (banks : VaultBanks) : Prop where
  mirrors : Mirrors config banks.dram.states banks.table
  legal : ∀ issued ∈ banks.log, Legal config issued.states issued.cmd issued.addrVec

theorem inv_initial : Inv config (initial config) where
  mirrors := mirrors_initial
  legal := nofun

/-! ## Looking at the banks -/

theorem Fits.bounded (fits : Fits config req) : Bounded config req.addrVec := by
  unfold Fits at fits
  split at fits
  · exact fits.bounded
  · exact fits.bounded
  · rw [fits]
    exact bounded_wholeVault

variable {addrVec : List Int} {queue : List Request}

theorem isReadyCmd_returns (cmd : Command) (clk : Int) (bounded : Bounded config addrVec) :
    Gives (banks.isReadyCmd config clk cmd addrVec) fun _ => True := by
  obtain ⟨ready, returns⟩ := check_returns cmd bounded banks.dram.timings clk 2 []
  exact ⟨ready, congrArg ofDram returns, trivial⟩

variable (inv : Inv config banks)
include inv

variable (clk : Int)

theorem isReady_returns (fits : Fits config req) :
    Gives (banks.isReady config clk req) fun _ => True := by
  apply (getFirstCmd_legal inv.mirrors fits).bind
  intro cmd _
  exact isReadyCmd_returns cmd clk fits.bounded

omit inv in
/-- A row check of the banks comes to a result. -/
theorem checkRow_returns {rowCheck : RowCheck} (atBank : ∀ bank ∈ HMC.banks config.org [], ∀ id,
      Gives (rowCheck banks.dram.states bank id) fun _ => True)
    (fits : Fits config req) :
    Gives (ofDram ((spec config).checkRow banks.dram.states
      (translate req.type) (addrOf req.addrVec) (forAccess rowCheck) 2 []))
      fun _ => True := by
  have access (cmd : Command) (addrVec : List Int)
      (isAccess : cmd = .RD ∨ cmd = .WR) (inRange : InRange config addrVec) :
      Gives (ofDram ((spec config).checkRow banks.dram.states cmd
        (addrOf addrVec) (forAccess rowCheck) 2 [])) fun _ => True := by
    have isBank := inRange.mem_banks
    cases inRange with
    | intro g b row column isGroup isBankId =>
      rw [checkRow_bank isGroup isBankId rfl rfl rowCheck isAccess]
      obtain ⟨res, returns, -⟩ := atBank _ isBank row
      exact ⟨res, congrArg ofDram returns, trivial⟩
  unfold Fits at fits
  split at fits
  case h_1 type =>
    rw [type]
    exact access .RD req.addrVec (.inl rfl) fits
  case h_2 type =>
    rw [type]
    exact access .WR req.addrVec (.inr rfl) fits
  case h_3 type =>
    rw [fits]
    exact ⟨false, rfl, trivial⟩

theorem isRowHit_returns (fits : Fits config req) :
    Gives (banks.isRowHit config req) fun _ => True := by
  apply checkRow_returns _ fits
  intro bank isBank id
  have shape := inv.mirrors.shape bank isBank
  unfold bankRowHit
  generalize banks.dram.states bank = node at shape
  cases shape with
  | closed => exact ⟨false, rfl, trivial⟩
  | opened row => exact ⟨_, rfl, trivial⟩

theorem isRowOpen_returns (fits : Fits config req) :
    Gives (banks.isRowOpen config req) fun _ => True := by
  apply checkRow_returns _ fits
  intro bank isBank id
  have shape := inv.mirrors.shape bank isBank
  unfold bankRowOpen
  generalize banks.dram.states bank = node at shape
  cases shape with
  | closed => exact ⟨false, rfl, trivial⟩
  | opened row => exact ⟨true, rfl, trivial⟩

/-! ## Scheduling -/

theorem exists_answers (fit : ∀ req ∈ queue, Fits config req) :
    Nonempty (Answers config banks clk queue) := by
  choose! ready isReady _ using fun req mem =>
    isReady_returns inv clk (fit req mem)
  choose! hit isRowHit _ using fun req mem => isRowHit_returns inv (fit req mem)
  choose! opened isRowOpen _ using fun req mem =>
    isRowOpen_returns inv (fit req mem)
  exact ⟨⟨ready, hit, opened, isReady, isRowHit, isRowOpen⟩⟩

/-- The scheduler comes to a result, and it chooses a request of the queue. -/
theorem getHead_fits (fit : ∀ req ∈ queue, Fits config req) :
    Gives (banks.getHead config clk queue) fun head =>
      ∀ best, head = some best → Fits config best.1 := by
  obtain ⟨answers⟩ := exists_answers inv clk fit
  apply (getHead_spec answers).mono
  rintro _ leads best rfl
  exact fit _ (fst_mem_of_mem_zipIdx (answers.pool_subset _ (Leads.mem leads)))

/-! ## Issuing -/

theorem issueCmd_inv {cmd : Command} (ready : banks.isReadyCmd config clk cmd addrVec = .ok true)
    (legal : Legal config banks.dram.states cmd addrVec) (aimed : Aimed config cmd addrVec) :
    Gives (banks.issueCmd config clk cmd addrVec) (Inv config) := by
  obtain ⟨states, updated, table, updatedTable, mirrors⟩ :=
    applies_of_legal inv.mirrors clk legal aimed
  have applied : ofDram ((spec config).update config.vault cmd (addrOf addrVec)
      clk banks.dram) = .ok ⟨states, (spec config).updateTiming config.vault cmd
        (addrOf addrVec) clk 2 [] banks.dram.timings⟩ := by
    have isUpdated : (spec config).updateState cmd (addrOf addrVec)
        (spec config).below [] banks.dram.states = .ok states := updated
    rw [DramSpec.update, isUpdated]
    rfl
  rw [issueCmd, ready, applied, updatedTable]
  exact .pure ⟨mirrors, forall_mem_cons.mpr ⟨legal, inv.legal⟩⟩

theorem issue_inv {queues : Queues} (fit : ∀ req ∈ queues.queue queues.active, Fits config req) :
    Gives (banks.issue config queues) fun res => Inv config res.1 := by
  apply (getHead_fits inv queues.clk fit).bind
  intro head fitsHead
  cases head with
  | none => exact .pure inv
  | some head =>
    have fits := fitsHead head rfl
    obtain ⟨cmd, first, legal, aimed⟩ := getFirstCmd_legal inv.mirrors fits
    dsimp only
    cases checked : banks.isReady config queues.clk head.1 with
    | error err =>
      obtain ⟨ready, returns, -⟩ := isReady_returns inv queues.clk fits
      rw [checked] at returns
      cases returns
    | ok ready =>
      cases ready with
      | false => exact .pure inv
      | true =>
        have isReadyFirst : banks.isReadyCmd config queues.clk cmd head.1.addrVec = .ok true := by
          rwa [isReady, first] at checked
        rw [first]
        apply (issueCmd_inv inv queues.clk isReadyFirst legal aimed).bind
        intro next invNext
        exact .pure invNext

end VaultBanks

namespace Vault

variable {config : VaultConfig} {vault : Vault}

/-- All requests in the queues fit the vault. -/
def QueuesFit (config : VaultConfig) (queues : Queues) : Prop :=
  ∀ type, ∀ req ∈ queues.queue type, VaultBanks.Fits config req

structure Inv (config : VaultConfig) (vault : Vault) : Prop where
  banks : VaultBanks.Inv config vault.banks
  queues : QueuesFit config vault.queues

theorem inv_initial : Inv config (initial config) where
  banks := VaultBanks.inv_initial
  queues := nofun

/-! ## Queues -/

section

variable {queues : Queues} {req : Request}

theorem fits_congr {req' : Request} (sameType : req'.type = req.type)
    (sameAddr : req'.addrVec = req.addrVec)
    (fits : VaultBanks.Fits config req) : VaultBanks.Fits config req' := by
  unfold VaultBanks.Fits at fits ⊢
  rwa [sameType, sameAddr]

section

variable (fit : QueuesFit config queues)
include fit

theorem enqueue_fit (fits : VaultBanks.Fits config req) :
    QueuesFit config (queues.enqueue config.queue req).1 := by
  unfold enqueue
  split
  · exact fit
  · apply push_each fit
    exact fits_congr rfl rfl fits

theorem tickRef_fit : Ends (fun err => err = .refreshTarget)
      (queues.tickRef config.queue config.vault) (QueuesFit config) := by
  unfold tickRef
  dsimp only
  split
  · refine .assert_bind rfl fun _ => ?_
    have fits : VaultBanks.Fits config (.ofRefresh config.vault) := rfl
    exact .pure (enqueue_fit fit fits)
  · exact .pure fit

theorem scheduleWrites_fit : QueuesFit config (queues.scheduleWrites config.queue) := by
  unfold scheduleWrites
  split <;> split <;> exact fit

omit fit in
theorem burst_fits (fits : VaultBanks.Fits config req) :
    VaultBanks.Fits config (Queues.burst req) := by
  unfold burst
  split
  · exact fits
  · exact fits_congr rfl rfl fits

theorem finish_fit (type : RequestType) (pos : Nat) :
    QueuesFit config (queues.finish config.queue type pos) :=
  finish_each fit fun _ => burst_fits

end

theorem serve_queue (queues : Queues) : (serve queues).queue = queues.queue := by
  unfold serve
  split
  · rfl
  · split <;> rfl

end

/-! ## Runs -/

theorem tick_inv (inv : Inv config vault) :
    Ends (fun err => err = .refreshTarget) (vault.tick config) (Inv config) := by
  have served : QueuesFit config (serve { vault.queues with clk := vault.queues.clk + 1 }) := by
    unfold QueuesFit
    rw [serve_queue]
    exact inv.queues
  apply (tickRef_fit served).bind
  intro queues fit
  have scheduled := scheduleWrites_fit fit
  dsimp only
  obtain ⟨issued, returns, invBanks⟩ := VaultBanks.issue_inv inv.banks (scheduled _)
  rw [returns]
  refine .pure ⟨invBanks, ?_⟩
  cases issued.2 with
  | none => exact scheduled
  | some pos => exact finish_fit scheduled _ pos

/-- An operation that the vault allows: reads and writes of its columns. -/
def Allowed (config : VaultConfig) : Op → Prop
  | .enqueue req =>
    (req.type = .READ ∨ req.type = .WRITE) ∧ VaultBanks.InRange config req.addrVec
  | .tick => True

theorem step_inv {op : Op} (inv : Inv config vault) (allowed : Allowed config op) :
    Ends (fun err => err = .refreshTarget) (vault.step config op) (Inv config) := by
  cases op with
  | tick => exact tick_inv inv
  | enqueue req =>
    have fits : VaultBanks.Fits config req := by
      unfold VaultBanks.Fits
      rcases allowed.1 with type | type
      · rw [type]
        exact allowed.2
      · rw [type]
        exact allowed.2
    exact .pure ⟨inv.banks, enqueue_fit inv.queues fits⟩

/-- In every run each command was legal in the banks that it met, each bank is
closed or has one open row, and the row table has one entry for each open bank,
with its row. No assertion about commands fails: a run only ever stops at the one
about room for a refresh. -/
theorem vault_commands_legal (config : VaultConfig) (ops : List Op)
    (allowed : ∀ op ∈ ops, Allowed config op) :
    Ends (fun failure => failure = .refreshTarget) (run config ops) fun vault =>
      (∀ issued ∈ vault.banks.log,
        VaultBanks.Legal config issued.states issued.cmd issued.addrVec) ∧
      VaultBanks.Mirrors config vault.banks.dram.states vault.banks.table := by
  have runs : Ends (fun failure => failure = .refreshTarget) (run config ops) (Inv config) := by
    apply Ends.foldlM (fun _ vault => Inv config vault)
    · intro op rest vault inside inv
      exact step_inv inv (allowed op inside)
    · exact inv_initial
  exact runs.mono fun vault inv => ⟨inv.banks.legal, inv.banks.mirrors⟩

/-- A vault with four banks, in which a refresh is due every third cycle. -/
def fourBanks : VaultConfig where
  org := ⟨fun _ => 2, fun _ => Nat.two_pos⟩
  speed := ⟨1, 1, 1, 1, 1, 1, 1, 1, 1, 1, 1, 1, 1, 1, 1, 1, 1, 1, 1, 1, 1⟩
  scheduler := .FRFCFS_PriorHit
  queue := ⟨fun _ => 4, 3, 1, 3, 5, 5⟩
  vault := 0

/-- A read of the second bank, and four cycles. -/
def oneRead : List Op :=
  [.enqueue { addr := 7, addrVec := [0, 0, 1, 1, 0], type := .READ,
              burstCount := 1 }, .tick, .tick, .tick, .tick]

theorem vault_commands_legal_one_read :
    Ends (fun failure => failure = .refreshTarget) (run fourBanks oneRead) (fun vault =>
          (∀ issued ∈ vault.banks.log,
            VaultBanks.Legal fourBanks issued.states issued.cmd issued.addrVec) ∧
          VaultBanks.Mirrors fourBanks vault.banks.dram.states vault.banks.table) ∧
      (run fourBanks oneRead).map (fun vault => vault.banks.log.map Issued.cmd) =
        .ok [.REF, .PREA, .RD, .ACT] := by
  refine ⟨vault_commands_legal fourBanks oneRead ?_, by decide +kernel⟩
  intro op inside
  rcases mem_cons.mp inside with rfl | isTick
  · exact ⟨.inl rfl, .intro 0 1 1 0 (by decide) (by decide) (by decide) (by decide)⟩
  · have : op = .tick := by simpa using isTick
    rw [this]
    trivial

end Vault

namespace VaultBanks

/-- With priority for hits, the scheduler chooses the earliest of the ready hits.
If there is none, it leaves the requests alone that close a row others hit, and
chooses the earliest ready one of the rest, or the earliest one. It chooses none
only if there is none left. Requests that arrived together go by their position. -/
theorem getHead_priorHit {config : VaultConfig} {banks : VaultBanks} {clk : Int}
    {queue : List Request} (answers : Answers config banks clk queue)
    (isPriorHit : config.scheduler = .FRFCFS_PriorHit) :
    Gives (banks.getHead config clk queue) (BestOf arrival <| if queue.any answers.readyHit then
        queue.zipIdx.filter (answers.readyHit ·.1)
      else prior (answers.ready ·.1) (queue.zipIdx.filter (!answers.disturbs ·.1))) := by
  have spec := getHead_spec answers
  rw [isPriorHit] at spec
  have indexed := congrArg (any · answers.readyHit) (zipIdx_map_fst 0 queue)
  rw [any_map] at indexed
  rwa [← indexed]

/-- The second bank has its row 1 open. -/
def openedSecond : VaultBanks :=
  ((initial Vault.fourBanks).issueCmd Vault.fourBanks 1 .ACT [0, 0, 1, 1, 0]).toOption.getD
    (initial Vault.fourBanks)

/-- A read that closes the open row, one that hits it, and one of the first bank. -/
def threeReads : List Request := [{ addrVec := [0, 0, 1, 0, 0], type := .READ, arrive := 1 },
   { addrVec := [0, 0, 1, 1, 0], type := .READ, arrive := 3 },
   { addrVec := [0, 0, 0, 1, 0], type := .READ, arrive := 2 }]

/-- The hit is chosen when it is ready. Before, the row is left open for it. -/
theorem getHead_priorHit_open_row : (∃ answers : Answers Vault.fourBanks openedSecond 5 threeReads,
      threeReads.any answers.disturbs = true ∧
      Gives (openedSecond.getHead Vault.fourBanks 5 threeReads) (BestOf arrival <|
          if threeReads.any answers.readyHit then
            threeReads.zipIdx.filter (answers.readyHit ·.1)
          else prior (answers.ready ·.1) (threeReads.zipIdx.filter (!answers.disturbs ·.1)))) ∧
      openedSecond.getHead Vault.fourBanks 5 threeReads = .ok (threeReads.zipIdx[1]?) ∧
      openedSecond.getHead Vault.fourBanks 1 threeReads = .ok (threeReads.zipIdx[2]?) := by
  refine ⟨⟨⟨fun _ => true, (·.arrive == 3), (·.arrive != 2), ?_, ?_, ?_⟩, ?_,
    getHead_priorHit _ rfl⟩, ?_, ?_⟩
  all_goals decide +kernel

end VaultBanks

namespace Vault

/-- How long after its last command a request departs; a refresh does not. -/
def latency (cfg : QueueConfig) : RequestType → Option Nat
  | .READ => some cfg.readLatency
  | .WRITE => some cfg.writeLatency
  | .REFRESH => none

/-- The request at a position departs if its last burst has been transferred. -/
def finishing (cfg : QueueConfig) (queues : Queues) (type : RequestType) (pos : Nat) :
    Option Request := do
  let req ← (queues.queue type)[pos]?
  if (burst req).burstCount = 0 then
    (latency cfg req.type).map fun cycles => { burst req with depart := queues.clk + cycles }
  else none

theorem finish_pending (cfg : QueueConfig) (queues : Queues) (type : RequestType) (pos : Nat) :
    (queues.finish cfg type pos).pending =
      queues.pending ++ (finishing cfg queues type pos).toList := by
  unfold Queues.finish finishing
  cases (queues.queue type)[pos]? with
  | none => simp
  | some req =>
    simp only [Option.bind_eq_bind, Option.bind_some]
    split
    · cases type : req.type <;> simp [depart, burst_type, type, latency]
    · simp

/-- The queues when a cycle chooses its command. -/
def prepared (config : VaultConfig) (queues : Queues) : Except Failure Queues := do
  let queues ← (serve { queues with clk := queues.clk + 1 }).tickRef config.queue config.vault
  return queues.scheduleWrites config.queue

variable (config : VaultConfig) (vault : Vault)

/-- The pending requests that an operation leaves. -/
def staying : Op → List Request
  | .enqueue _ => vault.queues.pending
  | .tick => (serve { vault.queues with clk := vault.queues.clk + 1 }).pending

/-- The request that an operation appends to them: a read that is forwarded, or the
request whose last command the cycle issues. -/
def appended : Op → Option Request
  | .enqueue req =>
    if config.queue.max req.type ≠ (vault.queues.queue req.type).length ∧ req.type = .READ ∧
        ∃ write ∈ vault.queues.queue .WRITE, req.addr = write.addr then
      some { req with
        arrive := vault.queues.clk
        depart := vault.queues.clk + 1 }
    else none
  | .tick =>
    match prepared config vault.queues with
    | .error _ => none
    | .ok queues =>
      match vault.banks.issue config queues with
      | .ok (_, some pos) => finishing config.queue queues queues.active pos
      | _ => none

/-- No pending request departs after the one that is appended. -/
abbrev Timely (op : Op) : Prop := ∀ new ∈ appended config vault op, ∀ old ∈ staying vault op,
    old.depart ≤ new.depart

variable {config vault}

/-- A refresh is not forwarded. -/
theorem prepared_pending (queues : Queues) : Ends (fun _ => True) (prepared config queues)
    fun next => next.pending = (serve { queues with clk := queues.clk + 1 }).pending := by
  have ticked (queues : Queues) : Ends (fun _ => True)
      (queues.tickRef config.queue config.vault) fun next => next.pending = queues.pending := by
    unfold tickRef
    dsimp only
    split
    · refine .assert_bind trivial fun _ => .pure ?_
      unfold Queues.enqueue
      split
      · rfl
      · simp [Queues.push, Request.ofRefresh]
    · exact .pure rfl
  apply (ticked _).bind
  intro next same
  refine .pure ?_
  rw [← same]
  unfold scheduleWrites
  split <;> split <;> rfl

theorem step_pending (op : Op) :
    Ends (fun _ => appended config vault op = none) (vault.step config op) fun next =>
      next.queues.pending = staying vault op ++ (appended config vault op).toList := by
  cases op with
  | enqueue req =>
    refine .pure ?_
    change (vault.queues.enqueue config.queue req).1.pending = _ ++ _
    unfold Queues.enqueue Queues.push appended staying
    split
    · next full => simp [full]
    · next room =>
      simp only [ne_eq, room, not_false_eq_true, true_and]
      split <;> simp
  | tick =>
    have kept := @prepared_pending config vault.queues
    rw [appended]
    unfold prepared at kept ⊢
    change Ends _ (vault.tick config) _
    unfold tick
    dsimp only
    cases isRef : (serve { vault.queues with clk := vault.queues.clk + 1 }).tickRef config.queue
      config.vault with
    | error err => exact .error rfl
    | ok queues =>
      rw [isRef] at kept
      have kept := kept.returns _ rfl
      simp only [ok_bind, pure, Except.pure]
      cases vault.banks.issue config (queues.scheduleWrites config.queue) with
      | error err => exact .error rfl
      | ok issued =>
        refine .ok ?_
        obtain ⟨banks, _ | pos⟩ := issued
        · simpa [Except.mapError, staying] using kept
        · simpa [Except.mapError, staying, ← kept] using finish_pending ..

/-- In order, and the head of `pending` is answered in the next cycle if some
request departs by then. -/
def InOrder (queues : Queues) : Prop := queues.pending.Pairwise (·.depart ≤ ·.depart) ∧
    ∀ req ∈ queues.pending, req.depart ≤ queues.clk + 1 →
      (serve { queues with clk := queues.clk + 1 }).pending = queues.pending.tail

theorem inOrder_iff {queues : Queues} :
    InOrder queues ↔ queues.pending.Pairwise (·.depart ≤ ·.depart) := by
  refine ⟨And.left, fun sorted => ⟨sorted, fun req mem departs => ?_⟩⟩
  unfold serve
  split
  · next isPending => simp [show queues.pending = [] from isPending]
  · next head rest isPending =>
    rw [show queues.pending = head :: rest from isPending] at mem sorted ⊢
    have first := forall_mem_cons (p := (head.depart ≤ ·.depart)).mpr
      ⟨le_rfl, (pairwise_cons.mp sorted).1⟩ req mem
    rw [if_pos (first.trans departs), tail_cons]

/-- A step from a vault in order leads to one in order exactly if no pending
request departs after the one that it appends. -/
theorem step_inOrder_iff (inOrder : InOrder vault.queues) (op : Op) :
    IfReturns (vault.step config op) (fun next => InOrder next.queues) ↔ Timely config vault op := by
  have sorted : (staying vault op).Pairwise (·.depart ≤ ·.depart) := by
    cases op with
    | enqueue req => exact inOrder.1
    | tick =>
      simp only [staying, serve]
      split
      · exact inOrder.1
      · next isPending =>
        split
        · exact (isPending ▸ inOrder.1).of_cons
        · exact inOrder.1
  have pending := @step_pending config vault op
  cases result : vault.step config op with
  | error err => simp [IfReturns, Timely, pending.stops err result]
  | ok next =>
    rw [IfReturns, inOrder_iff, pending.returns next result, pairwise_append]
    rw [Timely]
    cases appended config vault op <;> simp [sorted]

/-- All steps of a run lead to vaults in order if and only if no step appends a
request that departs before a pending one. -/
theorem departs_in_order_iff (config : VaultConfig) (ops : List Op) :
    RunMeets (step config) (fun vault op =>
        IfReturns (vault.step config op) fun next => InOrder next.queues) ops (initial config) ↔
      RunMeets (step config) (Timely config) ops (initial config) := by
  apply RunMeets.congr (fun vault op inOrder => step_inOrder_iff inOrder op) fun _ _ _ => id
  exact inOrder_iff.mpr .nil

/-- A read that is slow to depart, and a write to the row it has opened. -/
def readThenWrite : List Op :=
  [.enqueue { addr := 7, addrVec := [0, 0, 1, 1, 0], type := .READ,
              burstCount := 1 }, .tick, .tick,
   .enqueue { addr := 9, addrVec := [0, 0, 1, 1, 1], type := .WRITE,
              burstCount := 1 }, .tick, .tick, .tick, .tick]

/-- A vault with these latencies of reads and writes. -/
def latencies (read write : Nat) : VaultConfig :=
  { fourBanks with queue := ⟨fun _ => 4, 3, 1, 100, read, write⟩ }

theorem departs_in_order_iff_mixed :
    RunMeets (step (latencies 5 2)) (fun vault op => IfReturns (vault.step (latencies 5 2) op)
        fun next => InOrder next.queues) readThenWrite (initial (latencies 5 2)) ∧
      (run (latencies 5 2) readThenWrite).map (fun vault =>
        (vault.queues.clk, vault.queues.pending.map Request.depart)) = .ok (6, [7, 7]) :=
  ⟨(departs_in_order_iff _ _).mpr (by decide +kernel), by decide +kernel⟩

/-- The write departed in cycle 5 and is not answered in cycle 6. -/
theorem write_waits_for_read : (run (latencies 50 0) readThenWrite).map (fun vault =>
        (vault.queues.clk, vault.queues.pending.map Request.depart)) =
      .ok (6, [52, 5]) := by decide +kernel

end Vault

open Function

/-- The hits of the row of an address, and the table afterwards. -/
def RowTable.getHits (addrVec : List Int) (table : RowTable) : Nat × RowTable :=
  let rowgroup := addrVec.take Level.Row.index
  let row := addrVec.getD Level.Row.index (-1)
  let hits := match table.find? fun pair => pair.1 = rowgroup with
    | none => 0
    | some pair => if pair.2.row = row then pair.2.hits else 0
  -- `table[rowgroup]` makes an entry of zeros
  (hits, table.insert rowgroup ⟨0, 0, 0⟩)

namespace VaultBanks

variable {config : VaultConfig} {states : States State} {table table' : RowTable}
variable {accesses : Path → Nat} {cmd : Command} {addrVec : List Int} {clk : Int}

/-- The accesses to the open row of each bank, after one more command. -/
def tally (cmd : Command) (addrVec : List Int) (accesses : Path → Nat) : Path → Nat :=
  let bank := bankOf addrVec
  if isOpening cmd then update accesses bank 0
  else if isAccessing cmd then update accesses bank (accesses bank + 1)
  else accesses

/-- The banks, the row table and the accesses after legal commands and questions
that are allowed in the state of the banks. -/
inductive Reached (config : VaultConfig) (allowed : States State → List Int → Prop) :
    States State → RowTable → (Path → Nat) → Prop where
  | start : Reached config allowed (spec config).construct.states [] fun _ => 0
  | command {states states' : States State} {table table' : RowTable}
      {accesses : Path → Nat} (cmd : Command) (addrVec : List Int) (clk : Int)
      (reached : Reached config allowed states table accesses)
      (legal : Legal config states cmd addrVec)
      (aimed : Aimed config cmd addrVec)
      (changes : (spec config).updateState cmd (addrOf addrVec) 2 [] states = .ok states')
      (updates : table.update cmd addrVec clk = .ok table') :
      Reached config allowed states' table' (tally cmd addrVec accesses)
  | query {states : States State} {table : RowTable} {accesses : Path → Nat} (addrVec : List Int)
      (reached : Reached config allowed states table accesses)
      (isAllowed : allowed states addrVec) :
      Reached config allowed states (table.getHits addrVec).2 accesses

/-- The address is in a bank with an open row. -/
def AtOpenBank (config : VaultConfig) (states : States State) (addrVec : List Int) : Prop :=
  ∃ bank ∈ HMC.banks config.org [],
    addrVec.take Level.Row.index = keyOf config bank ∧ (states bank).state = .Opened

/-- The hits of each entry are the accesses to its bank. -/
def Counts (config : VaultConfig) (table : RowTable) (accesses : Path → Nat) :
    Prop :=
  ∀ pair ∈ table, ∀ bank, pair.1 = keyOf config bank → pair.2.hits = accesses bank

namespace Counts

variable (counts : Counts config table accesses)
include counts

theorem act (mirrors : Mirrors config states table) (inRange : InRange config addrVec)
    (closed : (states (bankOf addrVec)).state = .Closed)
    (updates : table.update .ACT addrVec clk = .ok table') :
    Counts config table' (tally .ACT addrVec accesses) := by
  cases inRange with
  | intro g b row column =>
    have isNew := mirrors.not_mem_of_closed closed
    cases (congrArg Except.ok (RowTable.insert_new ⟨row, 0, clk⟩ isNew)).symm.trans updates
    intro pair mem bank isKey
    show pair.2.hits = update accesses [b, g] 0 bank
    rcases mem_append.mp mem with old | isLast
    · have apart : bank ≠ [b, g] := by
        rintro rfl
        exact isNew (isKey ▸ mem_map_of_mem old)
      rw [update_of_ne apart]
      exact counts pair old bank isKey
    · rw [mem_singleton] at isLast
      subst isLast
      have isBank : [b, g] = bank := keyOf_injective isKey
      rw [← isBank, update_self]

theorem access {row : Int} {bank : Path}
    (returns : table.access (keyOf config bank) row clk = .ok table') :
    Counts config table' (update accesses bank (accesses bank + 1)) := by
  unfold RowTable.access at returns
  split at returns
  · cases returns
  · cases (of_check_bind_eq_ok returns).2
    intro pair mem other isOther
    obtain ⟨old, isOld, rfl⟩ := mem_map.mp mem
    split at isOther
    case isTrue isKey =>
      have same := keyOf_injective (isOther.symm.trans isKey)
      rw [if_pos isKey, same, update_self, ← counts old isOld bank isKey]
      rfl
    case isFalse notKey =>
      have apart : other ≠ bank := by
        rintro rfl
        exact notKey isOther
      rw [if_neg notKey, update_of_ne apart]
      exact counts old isOld other isOther

theorem close {scope : Nat} (returns : table.close addrVec scope = .ok table') :
    Counts config table' accesses := by
  cases (of_check_bind_eq_ok returns).2
  exact fun pair mem => counts pair (mem_filter.mp mem).1

theorem update (mirrors : Mirrors config states table)
    (legal : Legal config states cmd addrVec) (aimed : Aimed config cmd addrVec)
    (updates : table.update cmd addrVec clk = .ok table') :
    Counts config table' (tally cmd addrVec accesses) := by
  cases cmd with
  | ACT => exact counts.act mirrors aimed legal updates
  | RD | WR =>
    obtain ⟨accessed, returns, same⟩ := of_bind_eq_ok updates
    cases same
    cases aimed with
    | intro g b =>
      have isKey : table.access (keyOf config [b, g]) _ clk = .ok table' := returns
      exact counts.access isKey
  | PRE | PREA => exact counts.close updates
  | REF =>
    cases updates
    exact counts
  | _ => exact legal.elim

end Counts

/-- The answer is the accesses to the row, if it is open. -/
theorem getHits_fst (mirrors : Mirrors config states table)
    (counts : Counts config table accesses) {bank : Path} (isBank : bank ∈ HMC.banks config.org [])
    (isKey : addrVec.take Level.Row.index = keyOf config bank) :
    (table.getHits addrVec).1 =
      if (states bank).rowState.map Prod.fst = [addrOf addrVec Level.Row.index]
      then accesses bank else 0 := by
  simp only [RowTable.getHits, isKey]
  split
  case h_1 notFound =>
    have shape := mirrors.shape bank isBank
    have complete := mirrors.complete bank isBank
    generalize states bank = node at shape complete
    cases shape with
    | closed => rfl
    | opened row =>
      obtain ⟨pair, mem, same⟩ := mem_map.mp (complete rfl)
      simpa [same] using find?_eq_none.mp notFound pair mem
  case h_2 pair found =>
    have mem := mem_of_find?_eq_some found
    have isFound := find?_some found
    have same : pair.1 = keyOf config bank := of_decide_eq_true isFound
    rw [mirrors.row_eq mem same, counts pair mem bank same]
    simp [addrOf]

theorem getHits_snd (mirrors : Mirrors config states table)
    (atOpen : AtOpenBank config states addrVec) :
    (table.getHits addrVec).2 = table := by
  obtain ⟨bank, isBank, isKey, opened⟩ := atOpen
  rcases mem_map.mp (mirrors.complete bank isBank opened) with ⟨pair, mem, same⟩
  exact if_pos (any_eq_true.mpr ⟨pair, mem, decide_eq_true (same.trans isKey.symm)⟩)

theorem Reached.exact (reached : Reached config (AtOpenBank config) states table accesses) :
    Mirrors config states table ∧ Counts config table accesses := by
  induction reached with
  | start => exact ⟨mirrors_initial, nofun⟩
  | command cmd addrVec clk reached legal aimed changes updates ih =>
    obtain ⟨after, isAfter, next, isNext, mirrors⟩ := applies_of_legal ih.1 clk legal aimed
    cases isAfter.symm.trans changes
    cases isNext.symm.trans updates
    exact ⟨mirrors, ih.2.update ih.1 legal aimed updates⟩
  | query addrVec reached atOpen ih =>
    rwa [getHits_snd ih.1 atOpen]

/-- If only open banks are asked about, the table has exactly the open rows with
their accesses, every legal command passes its assertions, every answer is right
and no question changes the table. -/
theorem row_table_exact (reached : Reached config (AtOpenBank config) states table accesses) :
    Mirrors config states table ∧ Counts config table accesses ∧
      (∀ cmd addrVec clk, Legal config states cmd addrVec →
        Aimed config cmd addrVec → Applies config states table clk cmd addrVec) ∧
      (∀ addrVec, ∀ bank ∈ HMC.banks config.org [],
        addrVec.take Level.Row.index = keyOf config bank →
        (table.getHits addrVec).1 = if (states bank).rowState.map Prod.fst =
            [addrOf addrVec Level.Row.index] then accesses bank else 0) ∧
      ∀ addrVec, AtOpenBank config states addrVec → (table.getHits addrVec).2 = table := by
  have ⟨mirrors, counts⟩ := reached.exact
  exact ⟨mirrors, counts, fun _ _ clk => applies_of_legal mirrors clk,
    fun _ _ => getHits_fst mirrors counts, fun _ => getHits_snd mirrors⟩

theorem inRange_second : InRange Vault.fourBanks [0, 0, 1, 1, 0] :=
  .intro 0 1 1 0 (by decide) (by decide) (by decide) (by decide)

theorem row_table_exact_after_read : ∃ states table accesses,
    table.map (fun pair => (pair.1, pair.2.hits)) = [([0, 0, 1], 1)] ∧
      Mirrors Vault.fourBanks states table ∧
      Counts Vault.fourBanks table accesses := by
  have exact := row_table_exact (.query [0, 0, 1, 1, 0]
    (.command .RD [0, 0, 1, 1, 0] 1 (.command .ACT [0, 0, 1, 1, 0] 0 .start rfl
      inRange_second rfl rfl) ⟨rfl, rfl⟩ inRange_second rfl rfl) ⟨[1, 0], by decide, rfl, rfl⟩)
  exact ⟨_, _, _, rfl, exact.1, exact.2.1⟩

/-- A question about a closed bank leaves an entry that the next activation does
not replace, so the assertion about the row fails at the access. -/
theorem row_table_spoiled : ∃ states table accesses,
    Reached Vault.fourBanks (fun _ _ => True) states table accesses ∧
      Legal Vault.fourBanks states .RD [0, 0, 1, 1, 0] ∧
      Aimed Vault.fourBanks .RD [0, 0, 1, 1, 0] ∧
      table.update .RD [0, 0, 1, 1, 0] 1 = .error .rowTable := by
  exact ⟨_, _, _, .command .ACT [0, 0, 1, 1, 0] 0
    (.query [0, 0, 1, 1, 0] .start trivial) rfl inRange_second rfl rfl,
    ⟨rfl, rfl⟩, inRange_second, rfl⟩

end VaultBanks

end Damov.Ramulator
