import Damov.Core.IssueRuns

/-!
# Long advances

`longAdvance` drains the issue window cycle by cycle and jumps to its target as
soon as no uop is left. Extra slots and poisoned ports are not counted as uops.
Those that are left at a jump stay where they are in the arrays and so come to
stand for other cycles; those in the map keep their cycles, which the arrays may
have passed.

Each call keeps a history of the ports that it has reserved, each with its cycle.
-/

namespace Damov.Core

open Library.Checked Function List

inductive AdvanceFailure where
  | window (failure : WindowFailure)
  | targetBefore
  | notReached
  | passed
  | moved
  | diverges
  deriving DecidableEq

namespace Window

open WinCycle

/-! ## The operations -/

section

variable (c : WindowConfig) (w : Window)

/-- `schedule`, with the ports that it reserves. -/
def scheduleBooked (curCycle schedCycle : Nat) (portMask : BitVec 8) (extraSlots : Nat) :
    Except WindowFailure (Scheduled × List (Nat × BitVec 8)) := do
  let first ← scheduleInternal c true (extraSlots ≠ 0) w curCycle schedCycle portMask
  let extraSlotPortMask := (1 : BitVec 8) <<< first.window.lastPort
  let extras ← extraCycles c first.curCycle extraSlotPortMask extraSlots
    first.window (first.schedCycle + 1)
  check (extras.1.occupancy ≤ c.WSZ) .occupancyExceedsSize
  return ({ first with window := extras.1 }, (first.schedCycle, (1 : BitVec 8) <<< first.port) ::
      extras.2.map fun cycle => (cycle, extraSlotPortMask))

/-- The loop of `longAdvance`; it takes at most as many turns as there are cycles
up to the target. -/
def drainTo (H : Nat) : Nat → Nat → Window → Except WindowFailure (Window × Nat)
  | 0, curCycle, w => return (w, curCycle)
  | fuel + 1, curCycle, w =>
    if w.occupancy = 0 then return (w, curCycle)
    else do
      let next ← w.advancePos H (curCycle + 1)
      drainTo H fuel (curCycle + 1) next

def longAdvance (curCycle targetCycle : Nat) : Except AdvanceFailure (Window × Nat) := do
  check (curCycle ≤ targetCycle) .targetBefore
  let drained ← within AdvanceFailure.window (drainTo c.H (targetCycle - curCycle) curCycle w)
  if drained.1.occupancy ≠ 0 then
    check (drained.2 = targetCycle) .notReached
    return drained
  else
    check (drained.2 ≤ targetCycle) .passed
    return (drained.1, targetCycle)

/-- The loop of `poisonRange`, with the cycles that it poisons. -/
def poison (c : WindowConfig) (targetCycle : Nat) (portMask : BitVec 8) :
    Nat → Window → Nat → Nat → Except AdvanceFailure (Window × Nat × List Nat)
  | fuel, w, curCycle, poisonCycle =>
    if poisonCycle < targetCycle then
      match fuel with
      | 0 => throw .diverges
      | fuel + 1 => do
          let slot ← within AdvanceFailure.window
            (scheduleInternal c false false w curCycle poisonCycle portMask)
          let rest ← poison c targetCycle portMask fuel slot.window slot.curCycle slot.schedCycle
          return (rest.1, rest.2.1, slot.schedCycle :: rest.2.2)
    else return (w, curCycle, [])

def poisonRange (curCycle targetCycle : Nat) (portMask : BitVec 8) :
    Except AdvanceFailure (Window × List (Nat × BitVec 8)) := do
  let poisoned ← poison c targetCycle portMask (targetCycle - curCycle + 1) w curCycle curCycle
  check (curCycle = poisoned.2.1) .moved
  return (poisoned.1, poisoned.2.2.map fun cycle => (cycle, portMask))

/-- The history does not change what `schedule` does. -/
theorem schedule_eq_scheduleBooked (curCycle schedCycle : Nat)
    (portMask : BitVec 8) (extraSlots : Nat) :
    schedule c w curCycle schedCycle portMask extraSlots = Prod.fst <$>
        scheduleBooked c w curCycle schedCycle portMask extraSlots := by
  rw [schedule, scheduleBooked]
  cases scheduleInternal c true (extraSlots ≠ 0) w curCycle schedCycle portMask with
  | error err => rfl
  | ok first =>
    simp only [ok_bind, extra_eq_extraCycles]
    cases extraCycles c first.curCycle ((1 : BitVec 8) <<< first.window.lastPort)
      extraSlots first.window (first.schedCycle + 1) with
    | error err => rfl
    | ok extras =>
      change (check _ _ >>= fun _ => _) = Prod.fst <$> (check _ _ >>= fun _ => _)
      rw [check]
      split
      · rfl
      · rfl

end

/-! ## The history of the ports -/

variable {H curCycle : Nat} {w next : Window} {c : WindowConfig}
variable {granted : List (Nat × Nat)} {reserved : List (Nat × BitVec 8)}
variable {portMask : BitVec 8}

/-- A port was reserved for a cycle. -/
def BookedFor (reserved : List (Nat × BitVec 8)) (cycle port : Nat) : Prop :=
  ∃ entry ∈ reserved, entry.1 = cycle ∧ entry.2.getLsbD port = true

/-- The ports of the timeline were reserved for the cycles that they are in. -/
def Booked (H curCycle : Nat) (w : Window) (reserved : List (Nat × BitVec 8)) : Prop :=
  ∀ cycle port, curCycle ≤ cycle → (slotAt H curCycle w cycle).occUnits.getLsbD port = true →
      BookedFor reserved cycle port

variable {cycle nextCycle target : Nat}

theorem BookedFor.append_left {port : Nat}
    (bookedFor : BookedFor reserved cycle port) (more : List (Nat × BitVec 8)) :
    BookedFor (reserved ++ more) cycle port := by
  obtain ⟨entry, mem, holds⟩ := bookedFor
  exact ⟨entry, mem_append_left more mem, holds⟩

/-- The ports that a call takes in a cycle. -/
def takenPorts (touchOccupancy : Bool) (portMask : BitVec 8) (port : Nat) : BitVec 8 :=
  if touchOccupancy then (1 : BitVec 8) <<< port else portMask

theorem trySchedule_takenPorts {wc : WinCycle} (touchOccupancy : Bool)
    (isAvail : wc.avail portMask ≠ 0) :
    (wc.trySchedule touchOccupancy portMask).occUnits =
      wc.occUnits ||| takenPorts touchOccupancy portMask (firstAvail (wc.avail portMask)) := by
  cases touchOccupancy with
  | true => rw [trySchedule, if_pos rfl, if_pos isAvail, takenPorts, if_pos rfl]
  | false => rfl

section

variable (booked : Booked H curCycle w reserved)
include booked

theorem Booked.takes {touchOccupancy : Bool} {start cycle port : Nat}
    (takes : Takes touchOccupancy portMask (slotAt H curCycle w) start cycle port
      (slotAt H curCycle next)) :
    Booked H curCycle next (reserved ++ [(cycle, takenPorts touchOccupancy portMask port)]) := by
  intro other bit now occupied
  rw [takes.taken] at occupied
  by_cases isCycle : other = cycle
  · rw [isCycle, update_self, trySchedule_takenPorts touchOccupancy takes.avail,
      ← takes.port, BitVec.getLsbD_or, Bool.or_eq_true] at occupied
    obtain earlier | isNew := occupied
    · rw [isCycle] at now ⊢
      exact (booked cycle bit now earlier).append_left _
    · exact ⟨_, mem_append_right _ mem_cons_self, isCycle.symm, isNew⟩
  · rw [update_of_ne isCycle] at occupied
    exact (booked other bit now occupied).append_left _

/-- Cycles that stay as they are. -/
theorem Booked.of_slots {nextCycle : Nat} (le : curCycle ≤ nextCycle)
    (slots : ∀ cycle, nextCycle ≤ cycle →
      slotAt H nextCycle next cycle = slotAt H curCycle w cycle) :
    Booked H nextCycle next reserved := by
  intro cycle port now occupied
  rw [slots cycle now] at occupied
  exact booked cycle port (le.trans now) occupied

/-- A cycle without an available port. -/
theorem Booked.busy {cycle port : Nat} (now : curCycle ≤ cycle)
    (isBusy : (slotAt H curCycle w cycle).avail portMask = 0)
    (allowed : portMask.getLsbD port = true) :
    BookedFor reserved cycle port := by
  apply booked cycle port now
  have mem : port < 8 := BitVec.lt_of_getLsbD allowed
  have bit := congrArg (fun mask => mask.getLsbD port) isBusy
  simp only [avail, BitVec.getLsbD_and, BitVec.getLsbD_not, mem, allowed,
    decide_true, Bool.true_and, Bool.and_true] at bit
  simpa using bit.trans BitVec.getLsbD_zero

theorem Booked.reserves {cycles : List Nat}
    (reserves : Reserves H curCycle portMask w cycles next) :
    Booked H curCycle next (reserved ++ cycles.map fun cycle => (cycle, portMask)) := by
  induction reserves generalizing reserved with
  | done w =>
    rwa [map_nil, append_nil]
  | slot now placed rest ih =>
    have after := ih (booked.takes placed.takes)
    rwa [append_assoc] at after

end

/-! ## Scheduling -/

/-- A window that drains stops right after a cycle with uops. -/
theorem drain_last (small : 2 * c.H < 2 ^ 32) {fuel : Nat} (inv : Inv c curCycle w granted)
    (drains : drain c fuel curCycle w = .ok (next, nextCycle)) :
    (w.occupancy ≠ c.WSZ ∧ nextCycle = curCycle) ∨
    (w.occupancy = c.WSZ ∧ curCycle < nextCycle ∧
      0 < (slotAt c.H curCycle w (nextCycle - 1)).count) := by
  induction fuel generalizing curCycle w with
  | zero =>
    rw [drain] at drains
    split at drains
    case isTrue => cases drains
    case isFalse notFull =>
      cases drains
      exact .inl ⟨notFull, rfl⟩
  | succ fuel ih =>
    rw [drain] at drains
    split at drains
    case isTrue full =>
      obtain ⟨middle, returns, invMiddle, advanced⟩ := inv.advance small
      rw [returns] at drains
      have occupancy := advanced.occupancy
      refine .inr ⟨full, ?_⟩
      obtain ⟨notFull, isLast⟩ | ⟨-, later, uops⟩ := ih invMiddle drains
      · have isCycle : nextCycle - 1 = curCycle := by omega
        rw [isCycle]
        omega
      · refine ⟨by omega, ?_⟩
        rwa [← advanced.slots (nextCycle - 1) (by omega)]
    case isFalse notFull =>
      cases drains
      exact .inl ⟨notFull, rfl⟩

/-- Why a uop is not scheduled in a cycle: its ports were reserved for the cycle,
or the window was full until a later cycle in which uops were scheduled. -/
def Skipped (c : WindowConfig) (w : Window) (granted : List (Nat × Nat))
    (reserved : List (Nat × BitVec 8)) (portMask : BitVec 8)
    (scheduled : Scheduled) (cycle : Nat) : Prop :=
  (∀ port, portMask.getLsbD port = true → BookedFor reserved cycle port) ∨
  (cycle < scheduled.curCycle ∧ w.occupancy = c.WSZ ∧
    ∃ port, (scheduled.curCycle - 1, port) ∈ granted)

section

variable (small : 2 * c.H < 2 ^ 32)
include small

theorem FirstPlaced.skipped {issued : Scheduled} {middle : Window} {req : Nat}
    {recordPort : Bool} (inv : Inv c curCycle w granted) (booked : Booked c.H curCycle w reserved)
    (first : FirstPlaced c curCycle w granted req portMask recordPort issued
      middle next) {cycle : Nat} (notBefore : max req curCycle ≤ cycle)
    (before : cycle < issued.schedCycle) :
    Skipped c w granted reserved portMask issued cycle := by
  by_cases isOver : cycle < issued.curCycle
  · right
    obtain ⟨-, same⟩ | ⟨full, later, uops⟩ := drain_last small inv first.drains
    · omega
    refine ⟨isOver, full, ?_⟩
    rw [inv.grants.counts _ (by omega), countP_pos_iff] at uops
    obtain ⟨grant, mem, isCycle⟩ := uops
    refine ⟨grant.2, ?_⟩
    rwa [← of_decide_eq_true isCycle]
  · left
    intro port allowed
    have isBusy := first.placed.takes.busy cycle (by omega) before
    rw [first.drained.slots cycle (by omega)] at isBusy
    exact booked.busy (by omega) isBusy allowed

/-- A call of `schedule`, with its history. -/
theorem scheduleBooked_spec {req extraSlots : Nat}
    (inv : Inv c curCycle w granted) (booked : Booked c.H curCycle w reserved) (ne0 : portMask ≠ 0)
    (near : max req (w.horizon c.H curCycle) + extraSlots + w.curPos < curCycle + 2 ^ 32) :
    Gives (scheduleBooked c w curCycle req portMask extraSlots) fun res =>
        Inv c res.1.curCycle res.1.window (granted ++ [(res.1.schedCycle, res.1.port)]) ∧
        Booked c.H res.1.curCycle res.1.window (reserved ++ res.2) ∧
        ∀ cycle, max req curCycle ≤ cycle → cycle < res.1.schedCycle →
          Skipped c w granted reserved portMask res.1 cycle := by
  apply ((scheduleInternal_first small inv ne0
    (le_max_left req (w.horizon c.H curCycle)) (le_max_right _ _)
    (by omega)).and (scheduleInternal_placed small inv ne0 (by omega))).bind
  rintro issued ⟨⟨isIssued, records⟩, middle, next, first⟩
  have bookedMiddle := booked.of_slots first.drained.le first.drained.slots
  have bookedFirst : Booked c.H issued.curCycle issued.window
      (reserved ++ [(issued.schedCycle, (1 : BitVec 8) <<< issued.port)]) := by
    rw [first.window]
    exact bookedMiddle.takes first.placed.takes
  apply (isIssued.extraCycles small (fun more => records (decide_eq_true more)) (by omega)).bind
  intro extras reserves
  have invAfter := (isIssued.inv.reserves reserves).inv
  have bookedAfter := bookedFirst.reserves reserves
  rw [append_assoc] at bookedAfter
  refine .check invAfter.bounded ?_
  refine .pure ⟨invAfter, bookedAfter, ?_⟩
  intro cycle notBefore before
  exact first.skipped small inv booked notBefore before

/-! ## Poisoning -/

omit small in
/-- A cycle that was poisoned has no available port. -/
theorem avail_poisoned (wc : WinCycle) (portMask : BitVec 8) :
    (wc.trySchedule false portMask).avail portMask = 0 := by
  apply BitVec.eq_of_getLsbD_eq
  intro i mem
  change (~~~(wc.occUnits ||| portMask) &&& portMask).getLsbD i = _
  cases wc.occUnits.getLsbD i <;> cases portMask.getLsbD i <;> simp

/-- Each turn poisons a later cycle than the one before. -/
theorem poison_spec {targetCycle fuel poisonCycle : Nat}
    (shape : Shape c.H curCycle w) (ne0 : portMask ≠ 0)
    (near : targetCycle + w.curPos ≤ curCycle + 2 ^ 32) (cur : curCycle ≤ poisonCycle)
    (enough : targetCycle < poisonCycle + fuel ∨ (targetCycle = poisonCycle + fuel ∧
        (slotAt c.H curCycle w poisonCycle).avail portMask = 0)) :
    Gives (poison c targetCycle portMask fuel w curCycle poisonCycle)
      fun poisoned => poisoned.2.1 = curCycle ∧
        Reserves c.H curCycle portMask w poisoned.2.2 poisoned.1 := by
  induction fuel generalizing w poisonCycle with
  | zero =>
    rw [poison, if_neg (by omega)]
    exact .pure ⟨rfl, .done w⟩
  | succ fuel ih =>
    rw [poison]
    split
    case isFalse => exact .pure ⟨rfl, .done w⟩
    case isTrue before =>
      apply (scheduleInternal_slot small shape ne0 (by omega) cur).within.bind
      rintro slot ⟨sameCycle, placed⟩
      rw [sameCycle]
      have le := placed.takes.le
      have curPos := placed.curPos
      have poisoned : (slotAt c.H curCycle slot.window slot.schedCycle).avail portMask = 0 := by
        rw [placed.takes.taken, update_self]
        exact avail_poisoned _ portMask
      have later : targetCycle ≤ slot.schedCycle + fuel := by
        obtain ahead | ⟨same, isBusy⟩ := enough
        · omega
        have moved : poisonCycle ≠ slot.schedCycle := by
          intro stays
          rw [stays] at isBusy
          exact placed.takes.avail isBusy
        omega
      have rest := ih placed.shape (by omega) (by omega)
        ((Nat.lt_or_eq_of_le later).imp id fun same => ⟨same, poisoned⟩)
      apply rest.bind
      rintro after ⟨sameAfter, reserves⟩
      exact .pure ⟨sameAfter, .slot cur placed reserves⟩

theorem poisonRange_spec {targetCycle : Nat} (inv : Inv c curCycle w granted)
    (booked : Booked c.H curCycle w reserved) (ne0 : portMask ≠ 0)
    (near : targetCycle + w.curPos ≤ curCycle + 2 ^ 32) :
    Gives (poisonRange c w curCycle targetCycle portMask) fun poisoned =>
      Inv c curCycle poisoned.1 granted ∧
      Booked c.H curCycle poisoned.1 (reserved ++ poisoned.2) := by
  apply (poison_spec small inv.shape ne0 near le_rfl (.inl (by omega))).bind
  rintro poisoned ⟨sameCycle, reserves⟩
  refine .check sameCycle.symm ?_
  exact .pure ⟨(inv.reserves reserves).inv, booked.reserves reserves⟩

end

/-! ## Advancing -/

/-- The cycle after the last one with uops. -/
def busyUntil (H curCycle : Nat) (w : Window) : Nat :=
  (List.range' curCycle (w.horizon H curCycle - curCycle)).foldl (fun last cycle =>
      if (slotAt H curCycle w cycle).count = 0 then last else cycle + 1)
    curCycle

theorem busyUntil_spec (H curCycle : Nat) (w : Window) : busyUntil H curCycle w = curCycle ∨
      ∃ cycle, busyUntil H curCycle w = cycle + 1 ∧ (slotAt H curCycle w cycle).count ≠ 0 := by
  apply foldlRecOn (motive := fun last => last = curCycle ∨
    ∃ cycle, last = cycle + 1 ∧ (slotAt H curCycle w cycle).count ≠ 0)
  · exact .inl rfl
  · intro last holds cycle _
    split
    case isTrue => exact holds
    case isFalse uops => exact .inr ⟨cycle, rfl, uops⟩

/-- A jump to the target would leave no reserved port behind: the window drains
only at the target, or nothing is reserved between the last uop and the cycles
that the arrays cover after the jump. -/
def Clear (H curCycle : Nat) (w : Window) (targetCycle : Nat) : Prop :=
  targetCycle ≤ busyUntil H curCycle w ∨
  ((∀ cycle < targetCycle + 2 * H, busyUntil H curCycle w ≤ cycle →
      slotAt H curCycle w cycle = empty) ∧
    ∀ entry ∈ w.ubWin, entry.1 < busyUntil H curCycle w ∨ targetCycle + 2 * H ≤ entry.1)

instance (H curCycle : Nat) (w : Window) (targetCycle : Nat) :
    Decidable (Clear H curCycle w targetCycle) :=
  inferInstanceAs (Decidable (_ ∨ _))

theorem moveNear_subset {horizon : Nat} {entries : List (Nat × WinCycle)} {nextWin : Nat → WinCycle}
    {moved : (Nat → WinCycle) × List (Nat × WinCycle)}
    (returns : moveNear H curCycle horizon entries nextWin = .ok moved) :
    moved.2 ⊆ entries := by
  induction entries generalizing nextWin with
  | nil =>
    cases returns
    exact List.Subset.refl _
  | cons entry entries ih =>
    rw [moveNear] at returns
    split at returns
    case isTrue =>
      have rest := (of_check_bind_eq_ok returns).2
      exact subset_cons_of_subset entry (ih rest)
    case isFalse =>
      cases returns
      exact List.Subset.refl _

theorem advancePos_subset (returns : w.advancePos H cycle = .ok next) : next.ubWin ⊆ w.ubWin := by
  rw [advancePos] at returns
  split at returns
  case isTrue =>
    obtain ⟨moved, moves, isNext⟩ := of_bind_eq_ok returns
    cases isNext
    exact moveNear_subset moves
  case isFalse =>
    cases returns
    exact List.Subset.refl _

/-- The window after the loop of `longAdvance`. -/
structure DrainedTo (c : WindowConfig) (curCycle : Nat) (w : Window)
    (granted : List (Nat × Nat)) (target : Nat) (next : Window) (nextCycle : Nat) : Prop where
  inv : Inv c nextCycle next granted
  le : curCycle ≤ nextCycle
  upTo : nextCycle ≤ target
  reached : next.occupancy ≠ 0 → nextCycle = target
  slots : ∀ cycle, nextCycle ≤ cycle → slotAt c.H nextCycle next cycle = slotAt c.H curCycle w cycle
  subset : next.ubWin ⊆ w.ubWin

theorem drainTo_spec (small : 2 * c.H < 2 ^ 32) (fuel : Nat) (inv : Inv c curCycle w granted) :
    Gives (drainTo c.H fuel curCycle w) fun drained =>
      DrainedTo c curCycle w granted (curCycle + fuel) drained.1
        drained.2 := by
  induction fuel generalizing curCycle w with
  | zero =>
    exact .pure ⟨inv, le_rfl, le_rfl, fun _ => rfl, fun _ _ => rfl, List.Subset.refl _⟩
  | succ fuel ih =>
    rw [drainTo]
    split
    case isTrue isEmpty =>
      exact .pure ⟨inv, le_rfl, Nat.le_add_right _ _,
        fun uops => absurd isEmpty uops, fun _ _ => rfl,
        List.Subset.refl _⟩
    case isFalse =>
      obtain ⟨middle, returns, invMiddle, advanced⟩ := inv.advance small
      rw [returns]
      apply (ih invMiddle).mono
      intro drained spec
      have le := spec.le
      have upTo := spec.upTo
      refine ⟨spec.inv, by omega, by omega, ?_, ?_, ?_⟩
      · intro uops
        have reached := spec.reached uops
        omega
      · intro cycle now
        rw [spec.slots cycle now, advanced.slots cycle (by omega)]
      · exact List.Subset.trans spec.subset (advancePos_subset returns)

/-- A window without uops. -/
theorem Inv.count_eq_zero (inv : Inv c curCycle w granted)
    (isEmpty : w.occupancy = 0) (now : curCycle ≤ cycle) :
    (slotAt c.H curCycle w cycle).count = 0 := by
  have sum := inv.shape.total_eq (le_max_left (w.horizon c.H curCycle) (cycle + 1))
  rw [← inv.occupancy, isEmpty] at sum
  have zeros := Finset.sum_eq_zero_iff.mp sum.symm
  apply zeros cycle
  rw [Finset.mem_Ico]
  exact ⟨now, (Nat.lt_succ_self cycle).trans_le (le_max_right _ _)⟩

/-- A drained window is past its last uop. -/
theorem DrainedTo.busyUntil_le (drained : DrainedTo c curCycle w granted target next nextCycle)
    (isEmpty : next.occupancy = 0) : busyUntil c.H curCycle w ≤ nextCycle := by
  by_contra beyond
  have le := drained.le
  obtain same | ⟨cycle, isLast, uops⟩ := busyUntil_spec c.H curCycle w
  · omega
  · apply uops
    rw [← drained.slots cycle (by omega)]
    exact drained.inv.count_eq_zero isEmpty (by omega)

/-- A window whose arrays are empty may jump to a later cycle. -/
theorem Shape.jump (shape : Shape H curCycle w) (le : curCycle ≤ target)
    (empties : ∀ cycle, curCycle ≤ cycle → cycle < target + 2 * H →
      slotAt H curCycle w cycle = empty)
    (far : ∀ entry ∈ w.ubWin, target + 2 * H ≤ entry.1) :
    Shape H target w ∧ ∀ cycle, target ≤ cycle →
      slotAt H target w cycle = slotAt H curCycle w cycle := by
  have posLt := shape.posLt
  refine ⟨⟨posLt, shape.left, shape.sorted, fun entry mem => ?_⟩, ?_⟩
  · have := far entry mem
    omega
  · intro cycle now
    by_cases inCur : cycle + w.curPos < target + H
    · rw [slotAt_cur (cycle + w.curPos - target) now (by omega) (by omega),
        empties cycle (by omega) (by omega),
        ← empties (curCycle + (cycle - target)) (by omega) (by omega),
        slotAt_cur (cycle + w.curPos - target) (by omega) (by omega) (by omega)]
    by_cases inNext : cycle + w.curPos < target + 2 * H
    · rw [slotAt_next (cycle + w.curPos - target - H) now (by omega) (by omega),
        empties cycle (by omega) (by omega),
        ← empties (curCycle + (cycle - target)) (by omega) (by omega),
        slotAt_next (cycle + w.curPos - target - H) (by omega) (by omega) (by omega)]
    · rw [slotAt_far now (by omega), slotAt_far (by omega) (by omega)]

/-- The invariant is about the slots that are to come. -/
theorem Inv.of_slots (inv : Inv c curCycle w granted)
    (le : curCycle ≤ nextCycle) (shape : Shape c.H nextCycle w)
    (slots : ∀ cycle, nextCycle ≤ cycle →
      slotAt c.H nextCycle w cycle = slotAt c.H curCycle w cycle) :
    Inv c nextCycle w granted where
  shape := shape
  occupancy := inv.occupancy
  bounded := inv.bounded
  grants := {
    counts := by
      intro cycle now
      rw [slots cycle now]
      exact inv.grants.counts cycle (le.trans now)
    held := by
      intro grant mem now
      rw [slots grant.1 now]
      exact inv.grants.held grant mem (le.trans now)
    ports := inv.grants.ports
    nodup := inv.grants.nodup }

theorem longAdvance_spec (small : 2 * c.H < 2 ^ 32) {targetCycle : Nat}
    (inv : Inv c curCycle w granted) (booked : Booked c.H curCycle w reserved)
    (le : curCycle ≤ targetCycle) (clear : Clear c.H curCycle w targetCycle) :
    Gives (longAdvance c w curCycle targetCycle) fun after =>
      after.2 = targetCycle ∧ Inv c targetCycle after.1 granted ∧
      Booked c.H targetCycle after.1 reserved := by
  refine .check le ?_
  apply (drainTo_spec small (targetCycle - curCycle) inv).within.bind
  rintro ⟨next, nextCycle⟩ drained
  rw [Nat.add_sub_cancel' le] at drained
  have leNext := drained.le
  have upTo := drained.upTo
  have bookedNext := booked.of_slots leNext drained.slots
  split
  case isTrue uops =>
    have reached : nextCycle = targetCycle := drained.reached uops
    refine .check reached ?_
    rw [← reached]
    exact .pure ⟨rfl, drained.inv, bookedNext⟩
  case isFalse noUops =>
    refine .check upTo ?_
    have busy := drained.busyUntil_le (not_not.mp noUops)
    have jumps : Shape c.H targetCycle next ∧ ∀ cycle, targetCycle ≤ cycle →
        slotAt c.H targetCycle next cycle = slotAt c.H nextCycle next cycle := by
      obtain late | ⟨empties, far⟩ := clear
      · have same : targetCycle = nextCycle := by omega
        rw [same]
        exact ⟨drained.inv.shape, fun _ _ => rfl⟩
      apply drained.inv.shape.jump upTo
      · intro cycle now before
        rw [drained.slots cycle now]
        exact empties cycle before (busy.trans now)
      · intro entry mem
        have distance := drained.inv.shape.far entry mem
        have posLt := drained.inv.shape.posLt
        obtain early | late := far entry (drained.subset mem)
        · omega
        · exact late
    exact .pure ⟨rfl, drained.inv.of_slots upTo jumps.1 jumps.2, bookedNext.of_slots upTo jumps.2⟩

end Window

/-! ## Runs -/

/-- An issue window with the history of its ports. -/
structure IssueUnit where
  window : Window
  curCycle : Nat
  granted : List (Nat × Nat)
  reserved : List (Nat × BitVec 8)

inductive UnitOp where
  | schedule (schedCycle : Nat) (portMask : BitVec 8) (extraSlots : Nat)
  | advancePos
  | longAdvance (targetCycle : Nat)
  | poisonRange (targetCycle : Nat) (portMask : BitVec 8)
  deriving DecidableEq

namespace IssueUnit

open Window WinCycle

def initial (curCycle : Nat) : IssueUnit := ⟨.initial, curCycle, [], []⟩

def step (c : WindowConfig) (unit : IssueUnit) : UnitOp → Except AdvanceFailure IssueUnit
  | .schedule schedCycle portMask extraSlots => do
      let result ← within AdvanceFailure.window
        (unit.window.scheduleBooked c unit.curCycle schedCycle portMask extraSlots)
      return ⟨result.1.window, result.1.curCycle,
        unit.granted ++ [(result.1.schedCycle, result.1.port)],
        unit.reserved ++ result.2⟩
  | .advancePos => do
      let window ← within AdvanceFailure.window (unit.window.advancePos c.H (unit.curCycle + 1))
      return { unit with window, curCycle := unit.curCycle + 1 }
  | .longAdvance targetCycle => do
      let advanced ← unit.window.longAdvance c unit.curCycle targetCycle
      return { unit with window := advanced.1, curCycle := advanced.2 }
  | .poisonRange targetCycle portMask => do
      let poisoned ← unit.window.poisonRange c unit.curCycle targetCycle portMask
      return { unit with
        window := poisoned.1
        reserved := unit.reserved ++ poisoned.2 }

/-- Uops and poisoned cycles stay less than 2^32 cycles away from the start of
the window, and a long advance does not leave reserved ports behind. -/
def Fits (c : WindowConfig) (unit : IssueUnit) : UnitOp → Prop
  | .schedule schedCycle portMask extraSlots =>
    portMask ≠ 0 ∧ max schedCycle (unit.window.horizon c.H unit.curCycle) + extraSlots +
        unit.window.curPos < unit.curCycle + 2 ^ 32
  | .advancePos => True
  | .longAdvance targetCycle =>
    unit.curCycle ≤ targetCycle ∧ Clear c.H unit.curCycle unit.window targetCycle
  | .poisonRange targetCycle portMask =>
    portMask ≠ 0 ∧ targetCycle + unit.window.curPos ≤ unit.curCycle + 2 ^ 32

instance (c : WindowConfig) (unit : IssueUnit) : DecidablePred (Fits c unit)
  | .schedule _ _ _ => inferInstanceAs (Decidable (_ ∧ _))
  | .advancePos => inferInstanceAs (Decidable True)
  | .longAdvance _ => inferInstanceAs (Decidable (_ ∧ _))
  | .poisonRange _ _ => inferInstanceAs (Decidable (_ ∧ _))

variable {c : WindowConfig} {unit : IssueUnit}

structure Inv (c : WindowConfig) (unit : IssueUnit) : Prop where
  window : Window.Inv c unit.curCycle unit.window unit.granted
  booked : Booked c.H unit.curCycle unit.window unit.reserved

theorem inv_initial (c : WindowConfig) (curCycle : Nat) : Inv c (initial curCycle) where
  window := Issue.inv_initial c curCycle
  booked := by
    intro cycle port _ occupied
    have isEmpty : slotAt c.H curCycle Window.initial cycle = empty := by
      simp [Window.initial, slotAt]
    rw [initial, isEmpty] at occupied
    exact absurd occupied (by simp [empty])

theorem step_inv (small : 2 * c.H < 2 ^ 32) (op : UnitOp) (inv : Inv c unit)
    (fits : Fits c unit op) : Gives (step c unit op) (Inv c) := by
  cases op with
  | schedule schedCycle portMask extraSlots =>
    apply (scheduleBooked_spec small inv.window inv.booked fits.1 fits.2).within.bind
    rintro res ⟨window, booked, -⟩
    exact .pure ⟨window, booked⟩
  | advancePos =>
    apply (inv.window.advance small).within.bind
    rintro window ⟨invAfter, advanced⟩
    exact .pure ⟨invAfter, inv.booked.of_slots (Nat.le_succ _) advanced.slots⟩
  | longAdvance targetCycle =>
    apply (longAdvance_spec small inv.window inv.booked fits.1 fits.2).bind
    rintro ⟨window, curCycle⟩ ⟨rfl, invAfter, booked⟩
    exact .pure ⟨invAfter, booked⟩
  | poisonRange targetCycle portMask =>
    apply (poisonRange_spec small inv.window inv.booked fits.1 fits.2).bind
    rintro poisoned ⟨invAfter, booked⟩
    exact .pure ⟨invAfter, booked⟩

/--
In every run whose calls meet the conditions no assertion fails, and in every
state reached the next uop that fits is scheduled in the requested cycle or in a
later one, and it skips only cycles for which its ports were reserved or that a
full window of uops makes it skip.
-/
theorem survives_long_advances (c : WindowConfig) (small : 2 * c.H < 2 ^ 32) (curCycle : Nat)
    (ops : List UnitOp) (fits : RunMeets (step c) (Fits c) ops (initial curCycle)) :
    Gives (ops.foldlM (step c) (initial curCycle)) fun unit =>
      ∀ schedCycle portMask extraSlots, Fits c unit (.schedule schedCycle portMask extraSlots) →
        Gives (unit.window.schedule c unit.curCycle schedCycle portMask extraSlots)
          fun scheduled => schedCycle ≤ scheduled.schedCycle ∧
            ∀ cycle, max schedCycle unit.curCycle ≤ cycle → cycle < scheduled.schedCycle →
                Skipped c unit.window unit.granted unit.reserved portMask
                  scheduled cycle := by
  apply (fits.gives (fun unit op inv => step_inv small op inv) (inv_initial c curCycle)).mono
  intro unit inv schedCycle portMask extraSlots fitsNext
  have schedules := schedule_spec small inv.window fitsNext.1 fitsNext.2
  have skips : Gives (unit.window.schedule c unit.curCycle schedCycle portMask extraSlots)
      fun scheduled => ∀ cycle, max schedCycle unit.curCycle ≤ cycle →
        cycle < scheduled.schedCycle →
          Skipped c unit.window unit.granted unit.reserved portMask scheduled
            cycle := by
    rw [schedule_eq_scheduleBooked]
    apply Gives.map
    exact (scheduleBooked_spec small inv.window inv.booked fitsNext.1
      fitsNext.2).mono fun result holds => holds.2.2
  apply (schedules.and skips).mono
  rintro scheduled ⟨⟨-, spec⟩, skipped⟩
  exact ⟨spec.requested, skipped⟩

theorem four_pos : 0 < 4 := Nat.succ_pos 3

/-- A small window. -/
def fourCycles : WindowConfig := ⟨4, 2, four_pos, Nat.two_pos⟩

/-- A long advance over a uop with extra slots, once they are over. -/
def clearAdvance : List UnitOp :=
  [.schedule 0 1 1, .poisonRange 2 3, .schedule 1 3 0, .schedule 5 1 0, .longAdvance 100]

theorem survives_long_advances_clear : 2 * fourCycles.H < 2 ^ 32 ∧
      RunMeets (step fourCycles) (Fits fourCycles) clearAdvance (initial 0) ∧
      Gives (clearAdvance.foldlM (step fourCycles) (initial 0)) fun unit =>
        Fits fourCycles unit (.schedule 100 1 0) →
          Gives (unit.window.schedule fourCycles unit.curCycle 100 1 0)
            fun scheduled => 100 ≤ scheduled.schedCycle := by
  have fits : RunMeets (step fourCycles) (Fits fourCycles) clearAdvance (initial 0) := by
    decide +kernel
  have run := survives_long_advances fourCycles (by decide) 0 clearAdvance fits
  refine ⟨by decide, fits, run.mono ?_⟩
  intro unit holds fitsNext
  exact (holds 100 1 0 fitsNext).mono fun _ spec => spec.1

/-- Extra slots in the map are left behind by the jump, and the next rebase finds
them. -/
theorem extra_slots_left_behind :
    [UnitOp.schedule 0 1 8, .longAdvance 100, .advancePos, .advancePos,
      .advancePos].foldlM (step fourCycles) (initial 0) =
        .error (.window .ubWinElemExceedsLimit) := by rfl

end IssueUnit

end Damov.Core
