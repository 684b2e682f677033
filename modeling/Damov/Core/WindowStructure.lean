import Damov.Library.Checked
import Damov.Library.Maps

/-!
# The issue window

`WindowStructure` holds the uops that were scheduled for the current cycle or a
later one. The cycles are spread over two arrays of `H` cycles each, of which the
first one starts `curPos` cycles ago, and over a map for everything that lies
beyond. A uop takes one port in the first cycle with an available one; a uop of
several slots reserves the same port in later cycles without being counted there.
Positions and delays are 32-bit numbers.

The arrays and the map are one timeline that tells for each cycle what is scheduled
in it. Advancing forgets the current cycle.
-/

namespace Damov.Core

open Library.Checked Function

structure WinCycle where
  occUnits : BitVec 8
  count : Nat
  deriving DecidableEq

namespace WinCycle

def empty : WinCycle := ⟨0, 0⟩

/-- The ports of the mask that are not occupied. -/
def avail (wc : WinCycle) (portMask : BitVec 8) : BitVec 8 := ~~~wc.occUnits &&& portMask

/-- The lowest port of a mask that is not zero. -/
def firstAvail (availMask : BitVec 8) : Nat :=
  ((List.range 8).find? fun port => availMask.getLsbD port).getD 0

/-- What `trySchedule` makes of the cycle. It succeeds if a port is available. -/
def trySchedule (touchOccupancy : Bool) (wc : WinCycle) (portMask : BitVec 8) : WinCycle :=
  if touchOccupancy then
    if wc.avail portMask ≠ 0 then
      { occUnits := wc.occUnits ||| (1 : BitVec 8) <<< firstAvail (wc.avail portMask)
        count := (wc.count + 1) % 2 ^ 8 }
    else wc
  else { wc with occUnits := wc.occUnits ||| portMask }

end WinCycle

inductive WindowFailure where
  | ubWinElemExceedsLimit
  | notScheduled
  | occupancyExceedsSize
  /-- The loop that waits for a free place does not end. -/
  | diverges
  deriving DecidableEq

/-- The template parameters. -/
structure WindowConfig where
  H : Nat
  WSZ : Nat
  horizonPos : 0 < H
  sizePos : 0 < WSZ

structure Window where
  curWin : Nat → WinCycle
  nextWin : Nat → WinCycle
  ubWin : List (Nat × WinCycle)
  occupancy : Nat
  curPos : Nat
  lastPort : Nat

namespace Window

open WinCycle

def initial : Window where
  curWin := fun _ => empty
  nextWin := fun _ => empty
  ubWin := []
  occupancy := 0
  curPos := 0
  lastPort := 0

/-! ## Advancing -/

/-- Leave the current cycle. -/
def leave (w : Window) : Window :=
  { w with
    occupancy := w.occupancy - (w.curWin w.curPos).count
    curWin := update w.curWin w.curPos empty
    curPos := w.curPos + 1 }

/-- Start with the next array; the other one takes its place. -/
def swap (w : Window) : Window := { w with curWin := w.nextWin, nextWin := w.curWin, curPos := 0 }

/-- Move the entries before the horizon into the array. -/
def moveNear (H curCycle nextWinHorizon : Nat) : List (Nat × WinCycle) → (Nat → WinCycle) →
      Except WindowFailure ((Nat → WinCycle) × List (Nat × WinCycle))
  | [], nextWin => return (nextWin, [])
  | entry :: rest, nextWin =>
    if entry.1 < nextWinHorizon then do
      let nextWinPos := (((entry.1 : Int) - H - curCycle) % 2 ^ 32).toNat
      check (nextWinPos < H) .ubWinElemExceedsLimit
      moveNear H curCycle nextWinHorizon rest (update nextWin nextWinPos entry.2)
    else return (nextWin, entry :: rest)

/-- The new window starts at `curCycle`. -/
def rebase (H curCycle : Nat) (w : Window) : Except WindowFailure Window := do
  let w := w.swap
  let moved ← moveNear H curCycle (curCycle + 2 * H % 2 ^ 32) w.ubWin w.nextWin
  return { w with nextWin := moved.1, ubWin := moved.2 }

/-- The window after the cycle before `curCycle`. -/
def advancePos (H curCycle : Nat) (w : Window) : Except WindowFailure Window :=
  let w := w.leave
  if w.curPos = H then w.rebase H curCycle else return w

/-- The cycle from which on nothing is scheduled. -/
def horizon (H curCycle : Nat) (w : Window) : Nat :=
  (w.ubWin.map fun entry => entry.1 + 1).foldr max (curCycle + 2 * H - w.curPos)

/-- Advance until the window is not full. -/
def drain (c : WindowConfig) : Nat → Nat → Window → Except WindowFailure (Window × Nat)
  | fuel, curCycle, w =>
    if w.occupancy = c.WSZ then
      match fuel with
      | 0 => throw .diverges
      | fuel + 1 => do
          let next ← w.advancePos c.H (curCycle + 1)
          drain c fuel (curCycle + 1) next
    else return (w, curCycle)

/-! ## Scheduling -/

/-- The outcome of a search for an available port. -/
structure Found (σ : Type) where
  content : σ
  pos : Nat
  port : Nat

section

variable (touchOccupancy : Bool) (portMask : BitVec 8)

/-- Go through one of the arrays. -/
def scan : Nat → (Nat → WinCycle) → Nat → Found (Nat → WinCycle)
  | 0, win, pos => ⟨win, pos, 0⟩
  | fuel + 1, win, pos =>
    let tried := update win pos ((win pos).trySchedule touchOccupancy portMask)
    if (win pos).avail portMask ≠ 0 then
      ⟨tried, pos, firstAvail ((win pos).avail portMask)⟩
    else scan fuel tried (pos + 1)

/-- A cycle of its own in the map. -/
def insertFar (schedCycle : Nat) (rest : List (Nat × WinCycle)) :
    Except WindowFailure (Found (List (Nat × WinCycle))) := do
  check (empty.avail portMask ≠ 0) .notScheduled
  return ⟨(schedCycle, empty.trySchedule touchOccupancy portMask) :: rest,
    schedCycle, firstAvail (empty.avail portMask)⟩

/-- Go through the map from a cycle on. -/
def scanFar : Nat → List (Nat × WinCycle) → Except WindowFailure (Found (List (Nat × WinCycle)))
  | schedCycle, [] => insertFar touchOccupancy portMask schedCycle []
  | schedCycle, entry :: rest =>
    if entry.1 < schedCycle then do
      let found ← scanFar schedCycle rest
      return { found with content := entry :: found.content }
    else if entry.1 ≠ schedCycle then
      insertFar touchOccupancy portMask schedCycle (entry :: rest)
    else
      let tried := (entry.1, entry.2.trySchedule touchOccupancy portMask)
      if entry.2.avail portMask ≠ 0 then
        return ⟨tried :: rest, schedCycle, firstAvail (entry.2.avail portMask)⟩
      else do
        let found ← scanFar (schedCycle + 1) rest
        return { found with content := tried :: found.content }

end

/-- Find a cycle for a uop once the window is not full. The position of the
outcome is the cycle. -/
def place (H : Nat) (touchOccupancy : Bool) (w : Window)
    (curCycle schedCycle : Nat) (portMask : BitVec 8) :
    Except WindowFailure (Found Window) :=
  let delay := if curCycle < schedCycle then (schedCycle - curCycle) % 2 ^ 32 else 0
  let curWinPos := (w.curPos + delay) % 2 ^ 32
  let near := scan touchOccupancy portMask (H - curWinPos) w.curWin curWinPos
  if near.pos < H then
    return ⟨{ w with curWin := near.content },
      curCycle + (near.pos + 2 ^ 32 - w.curPos) % 2 ^ 32, near.port⟩
  else
    let nextWinPos := near.pos - H
    let next := scan touchOccupancy portMask (H - nextWinPos) w.nextWin nextWinPos
    let cycle := curCycle + (next.pos + H + 2 ^ 32 - w.curPos) % 2 ^ 32
    let w := { w with curWin := near.content, nextWin := next.content }
    if next.pos < H then return ⟨w, cycle, next.port⟩
    else do
      let far ← scanFar touchOccupancy portMask cycle w.ubWin
      return ⟨{ w with ubWin := far.content }, far.pos, far.port⟩

/-- The window, the current cycle, the cycle of the uop and its port. -/
structure Scheduled where
  window : Window
  curCycle : Nat
  schedCycle : Nat
  port : Nat

def scheduleInternal (c : WindowConfig) (touchOccupancy recordPort : Bool)
    (w : Window) (curCycle schedCycle : Nat) (portMask : BitVec 8) :
    Except WindowFailure Scheduled := do
  let drained ←
    if touchOccupancy then
      drain c (w.horizon c.H curCycle - curCycle) curCycle w
    else pure (w, curCycle)
  let found ← place c.H touchOccupancy drained.1 drained.2 schedCycle portMask
  let w := found.content
  let lastPort := if recordPort then found.port else w.lastPort
  let occupancy := if touchOccupancy then w.occupancy + 1 else w.occupancy
  return ⟨{ w with lastPort, occupancy }, drained.2, found.pos, found.port⟩

/-- Reserve the slots after the first one. -/
def extra (c : WindowConfig) (curCycle : Nat) (extraSlotPortMask : BitVec 8) :
    Nat → Window → Nat → Except WindowFailure Window
  | 0, w, _ => return w
  | extraSlots + 1, w, extraSlotCycle => do
      let slot ← scheduleInternal c false false w curCycle extraSlotCycle extraSlotPortMask
      extra c curCycle extraSlotPortMask extraSlots slot.window (slot.schedCycle + 1)

def schedule (c : WindowConfig) (w : Window) (curCycle schedCycle : Nat)
    (portMask : BitVec 8) (extraSlots : Nat) :
    Except WindowFailure Scheduled := do
  let first ← scheduleInternal c true (extraSlots ≠ 0) w curCycle schedCycle portMask
  let extraSlotPortMask := (1 : BitVec 8) <<< first.window.lastPort
  let w ← extra c first.curCycle extraSlotPortMask extraSlots first.window (first.schedCycle + 1)
  check (w.occupancy ≤ c.WSZ) .occupancyExceedsSize
  return { first with window := w }

end Window

open Library.SortedMap

namespace WinCycle

variable {wc : WinCycle} {portMask : BitVec 8} {touchOccupancy : Bool}

@[simp]
theorem avail_empty : empty.avail portMask = portMask := BitVec.allOnes_and

/-- A cycle without an available port stays as it is. -/
theorem trySchedule_busy (busy : wc.avail portMask = 0) :
    wc.trySchedule touchOccupancy portMask = wc := by
  cases touchOccupancy with
  | true => simp [trySchedule, busy]
  | false =>
    have occupied : wc.occUnits ||| portMask = wc.occUnits := by
      apply BitVec.eq_of_getLsbD_eq
      intro i mem
      have bit := congrArg (fun mask => mask.getLsbD i) busy
      simp only [avail, BitVec.getLsbD_and, BitVec.getLsbD_not, mem,
        decide_true, Bool.true_and] at bit
      rw [BitVec.getLsbD_or]
      revert bit
      cases wc.occUnits.getLsbD i <;> cases portMask.getLsbD i <;> simp
    rw [trySchedule, if_neg Bool.false_ne_true, occupied]

end WinCycle

namespace Window

open WinCycle

variable {H curCycle cycle : Nat} {w : Window}

/-- What is scheduled in a cycle that is not over. -/
def slotAt (H curCycle : Nat) (w : Window) (cycle : Nat) : WinCycle :=
  let pos := cycle + w.curPos - curCycle
  if cycle < curCycle then empty
  else if pos < H then w.curWin pos
  else if pos < 2 * H then w.nextWin (pos - H)
  else valueAt empty w.ubWin cycle

/-- The cycles that are over are empty, and the map starts after the arrays. -/
structure Shape (H curCycle : Nat) (w : Window) : Prop where
  posLt : w.curPos < H
  left : ∀ i < w.curPos, w.curWin i = empty
  sorted : Sorted w.ubWin
  far : ∀ entry ∈ w.ubWin, curCycle + 2 * H ≤ entry.1 + w.curPos

theorem slotAt_cur (pos : Nat) (now : curCycle ≤ cycle)
    (isPos : cycle + w.curPos = curCycle + pos) (mem : pos < H) :
    slotAt H curCycle w cycle = w.curWin pos := by
  have same : cycle + w.curPos - curCycle = pos := by omega
  simp only [slotAt, same, not_lt.mpr now, mem, if_true, if_false]

theorem slotAt_next (pos : Nat) (now : curCycle ≤ cycle)
    (isPos : cycle + w.curPos = curCycle + (pos + H)) (mem : pos < H) :
    slotAt H curCycle w cycle = w.nextWin pos := by
  have same : cycle + w.curPos - curCycle = pos + H := by omega
  have after : ¬ pos + H < H := by omega
  have before : pos + H < 2 * H := by omega
  simp only [slotAt, same, not_lt.mpr now, after, before, if_true, if_false, Nat.add_sub_cancel]

theorem slotAt_far (now : curCycle ≤ cycle) (isFar : curCycle + 2 * H ≤ cycle + w.curPos) :
    slotAt H curCycle w cycle = valueAt empty w.ubWin cycle := by
  have notCur : ¬ cycle + w.curPos - curCycle < H := by omega
  have notNext : ¬ cycle + w.curPos - curCycle < 2 * H := by omega
  simp only [slotAt, not_lt.mpr now, notCur, notNext, if_false]

/-! ## Advancing -/

/-- The entries that are moved and those that stay. -/
structure Moved (H curCycle : Nat) (entries : List (Nat × WinCycle))
    (nextWin : Nat → WinCycle) (moved : (Nat → WinCycle) × List (Nat × WinCycle)) : Prop where
  near : ∀ i < H, moved.1 i = valueAt (nextWin i) entries (curCycle + H + i)
  sorted : Sorted moved.2
  far : ∀ entry ∈ moved.2, curCycle + 2 * H ≤ entry.1
  rest : ∀ cycle, curCycle + 2 * H ≤ cycle →
    valueAt empty moved.2 cycle = valueAt empty entries cycle

theorem moveNear_spec (small : 2 * H < 2 ^ 32) {entries : List (Nat × WinCycle)}
    {nextWin : Nat → WinCycle} (sorted : Sorted entries)
    (after : ∀ entry ∈ entries, curCycle + H ≤ entry.1) :
    Gives (moveNear H curCycle (curCycle + 2 * H) entries nextWin)
      (Moved H curCycle entries nextWin) := by
  induction entries generalizing nextWin with
  | nil => exact .pure ⟨fun _ _ => rfl, sorted, nofun, fun _ _ => rfl⟩
  | cons entry entries ih =>
    have here := after entry List.mem_cons_self
    have later := sorted.head_lt
    rw [moveNear]
    split
    · next mem =>
      have isPos : (((entry.1 : Int) - H - curCycle) % 2 ^ 32).toNat = entry.1 - H - curCycle := by
        omega
      rw [isPos]
      refine .check (by omega) ?_
      refine (ih sorted.tail fun other isOther =>
        after other (List.mem_cons_of_mem _ isOther)).mono ?_
      intro moved spec
      refine ⟨?_, spec.sorted, spec.far, ?_⟩
      · intro i bound
        rw [spec.near i bound]
        by_cases isHere : i = entry.1 - H - curCycle
        · -- No later entry has the cycle of this one.
          have isCycle : curCycle + H + i = entry.1 := by omega
          rw [isHere, update_self, ← isHere, isCycle, valueAt, if_pos rfl]
          exact valueAt_eq_empty fun other isOther =>
            (ne_of_lt (later other isOther)).symm
        · have apart : curCycle + H + i ≠ entry.1 := by omega
          rw [update_of_ne isHere, valueAt_cons_of_ne apart]
      · intro cycle isFar
        rw [spec.rest cycle isFar, valueAt_cons_of_ne (by omega)]
    · next beyond =>
      refine .pure ⟨?_, sorted, ?_, fun _ _ => rfl⟩
      · intro i bound
        symm
        apply valueAt_eq_empty
        exact List.forall_mem_cons.mpr ⟨by omega, fun other isLater => by grind⟩
      · exact List.forall_mem_cons.mpr ⟨by omega, fun other isLater => by grind⟩

/-- The current cycle is over, the others are as before. -/
structure Advanced (H curCycle : Nat) (w next : Window) : Prop where
  shape : Shape H (curCycle + 1) next
  slots : ∀ cycle, curCycle < cycle → slotAt H (curCycle + 1) next cycle = slotAt H curCycle w cycle
  occupancy : next.occupancy = w.occupancy - (slotAt H curCycle w curCycle).count
  start : curCycle + next.curPos ≤ curCycle + 1 + w.curPos

theorem Shape.slotAt_self (shape : Shape H curCycle w) :
    slotAt H curCycle w curCycle = w.curWin w.curPos :=
  slotAt_cur w.curPos le_rfl rfl shape.posLt

/-- The array of the cycles that are over is empty when it is used again. -/
theorem Shape.left_empty (shape : Shape H curCycle w)
    (isLast : w.leave.curPos = H) : ∀ i < H, w.leave.curWin i = empty := by
  intro i bound
  have lastPos : w.curPos + 1 = H := isLast
  simp only [leave]
  by_cases isCur : i = w.curPos
  · rw [isCur, update_self]
  · rw [update_of_ne isCur]
    exact shape.left i (by omega)

theorem rebase_spec (small : 2 * H < 2 ^ 32) (shape : Shape H curCycle w)
    (isLast : w.leave.curPos = H) :
    Gives (w.leave.rebase H (curCycle + 1)) (Advanced H curCycle w) := by
  have lastPos : w.curPos + 1 = H := isLast
  have isEmpty := shape.left_empty isLast
  rw [rebase, Nat.mod_eq_of_lt small]
  apply (moveNear_spec small shape.sorted (fun entry mem => by
      have := shape.far entry mem
      omega)).bind
  intro moved spec
  refine .pure ⟨⟨?_, nofun, spec.sorted, spec.far⟩, ?_, ?_, ?_⟩
  · exact Nat.lt_of_le_of_lt (Nat.zero_le _) shape.posLt
  · intro cycle later
    by_cases isCur : cycle + w.curPos < curCycle + 2 * H
    · -- The next array is the current one now.
      rw [slotAt_cur (cycle - (curCycle + 1)) later (show cycle + 0 = _ by omega) (by omega),
        slotAt_next (cycle - (curCycle + 1)) (by omega) (by omega) (by omega)]
      rfl
    have old : slotAt H curCycle w cycle = valueAt empty w.ubWin cycle :=
      slotAt_far (by omega) (by omega)
    rw [old]
    by_cases isNext : cycle < curCycle + 1 + 2 * H
    · rw [slotAt_next (cycle - (curCycle + 1 + H)) later (show cycle + 0 = _ by omega) (by omega)]
      have near := spec.near (cycle - (curCycle + 1 + H)) (by omega)
      have isCycle : curCycle + 1 + H + (cycle - (curCycle + 1 + H)) = cycle := by omega
      rw [isCycle] at near
      exact near.trans (congrArg (fun default => valueAt default w.ubWin cycle)
          (isEmpty _ (by omega)))
    · rw [slotAt_far later (show _ ≤ cycle + 0 by omega)]
      exact spec.rest cycle (by omega)
  · rw [shape.slotAt_self]
    rfl
  · exact Nat.le_add_right_of_le (Nat.le_succ _)

theorem advancePos_spec (small : 2 * H < 2 ^ 32) (shape : Shape H curCycle w) :
    Gives (w.advancePos H (curCycle + 1)) (Advanced H curCycle w) := by
  rw [advancePos]
  split
  · next isLast => exact rebase_spec small shape isLast
  · next notLast =>
    have posLt := shape.posLt
    have curPos : w.leave.curPos = w.curPos + 1 := rfl
    refine .pure ⟨⟨?_, ?_, shape.sorted, ?_⟩, ?_, ?_, ?_⟩
    · omega
    · intro i isOver
      simp only [leave]
      by_cases isCur : i = w.curPos
      · rw [isCur, update_self]
      · rw [update_of_ne isCur]
        exact shape.left i (by omega)
    · intro entry mem
      have := shape.far entry mem
      omega
    · intro cycle later
      by_cases isCur : cycle + w.curPos < curCycle + H
      · have apart : cycle + w.curPos - curCycle ≠ w.curPos := by omega
        rw [slotAt_cur (cycle + w.curPos - curCycle) later (by omega) (by omega),
          slotAt_cur (cycle + w.curPos - curCycle) (by omega) (by omega) (by omega)]
        exact update_of_ne apart _ _
      by_cases isNext : cycle + w.curPos < curCycle + 2 * H
      · rw [slotAt_next (cycle + w.curPos - (curCycle + H)) later (by omega) (by omega),
          slotAt_next (cycle + w.curPos - (curCycle + H)) (by omega) (by omega) (by omega)]
        rfl
      · rw [slotAt_far later (by omega), slotAt_far (by omega) (by omega)]
        rfl
    · rw [shape.slotAt_self]
      rfl
    · omega

open List

variable {portMask : BitVec 8} {touchOccupancy : Bool}

/-- The search through a timeline from a position on ended at a position. -/
structure Takes (touchOccupancy : Bool) (portMask : BitVec 8)
    (slots : Nat → WinCycle) (start pos port : Nat) (taken : Nat → WinCycle) : Prop where
  le : start ≤ pos
  busy : ∀ i, start ≤ i → i < pos → (slots i).avail portMask = 0
  avail : (slots pos).avail portMask ≠ 0
  port : port = firstAvail ((slots pos).avail portMask)
  taken : taken = update slots pos ((slots pos).trySchedule touchOccupancy portMask)

variable {start pos : Nat} {entries : List (Nat × WinCycle)} {wc : WinCycle}

/-- The search starts earlier, at cycles without an available port. -/
theorem Takes.earlier {slots taken : Nat → WinCycle} {port : Nat}
    (takes : Takes touchOccupancy portMask slots (start + 1) pos port taken)
    (busy : (slots start).avail portMask = 0) :
    Takes touchOccupancy portMask slots start pos port taken where
  le := Nat.le_of_succ_le takes.le
  busy := by
    intro i after before
    by_cases isStart : i = start
    · rwa [isStart]
    · exact takes.busy i (by omega) before
  avail := takes.avail
  port := takes.port
  taken := takes.taken

/-! ## The arrays -/

/-- A search through one array finds a cycle or leaves the array as it is. -/
theorem scan_spec (touchOccupancy : Bool) (portMask : BitVec 8)
    (fuel : Nat) (win : Nat → WinCycle) (pos : Nat) :
    let found := scan touchOccupancy portMask fuel win pos
    (found.pos < pos + fuel ∧ Takes touchOccupancy portMask win pos found.pos found.port
        found.content) ∨
    (found.pos = pos + fuel ∧ found.content = win ∧
      ∀ i, pos ≤ i → i < pos + fuel → (win i).avail portMask = 0) := by
  induction fuel generalizing win pos with
  | zero => exact .inr ⟨rfl, rfl, by omega⟩
  | succ fuel ih =>
    simp only [scan]
    split
    · next isAvail =>
      exact .inl ⟨Nat.lt_add_of_pos_right (Nat.succ_pos _), le_rfl,
        fun i after before => absurd after (not_le.mpr before), isAvail,
        rfl, rfl⟩
    · next notAvail =>
      have busy : (win pos).avail portMask = 0 := not_not.mp notAvail
      rw [trySchedule_busy busy, update_eq_self]
      rcases ih win (pos + 1) with ⟨lt, takes⟩ | ⟨isEnd, same, all⟩
      · exact .inl ⟨by omega, takes.earlier busy⟩
      · refine .inr ⟨by omega, same, ?_⟩
        intro i after before
        by_cases isStart : i = pos
        · rwa [isStart]
        · exact all i (by omega) (by omega)

/-- The search through one of the arrays of the window. -/
theorem scan_window (touchOccupancy : Bool) (portMask : BitVec 8)
    (H : Nat) (win : Nat → WinCycle) (pos : Nat) :
    let found := scan touchOccupancy portMask (H - pos) win pos
    (found.pos < H ∧ Takes touchOccupancy portMask win pos found.pos found.port found.content) ∨
    (found.pos = max pos H ∧ found.content = win ∧
      ∀ i, pos ≤ i → i < H → (win i).avail portMask = 0) := by
  rcases scan_spec touchOccupancy portMask (H - pos) win pos with
    ⟨lt, takes⟩ | ⟨isEnd, same, all⟩
  · have le := takes.le
    exact .inl ⟨by omega, takes⟩
  · refine .inr ⟨by omega, same, ?_⟩
    intro i after before
    exact all i after (by omega)

/-! ## The map -/

/-- The search through the map, which stays sorted. -/
structure TakesFar (touchOccupancy : Bool) (portMask : BitVec 8)
    (entries : List (Nat × WinCycle)) (start : Nat)
    (found : Found (List (Nat × WinCycle))) : Prop where
  takes : Takes touchOccupancy portMask (valueAt empty entries) start
    found.pos found.port (valueAt empty found.content)
  sorted : Sorted found.content
  keys : ∀ entry ∈ found.content, entry.1 = found.pos ∨ ∃ other ∈ entries, other.1 = entry.1

theorem insertFar_spec (ne0 : portMask ≠ 0) (sorted : Sorted entries)
    (after : ∀ entry ∈ entries, start < entry.1) :
    Gives (insertFar touchOccupancy portMask start entries)
      (TakesFar touchOccupancy portMask entries start) := by
  have absent : valueAt empty entries start = empty :=
    valueAt_eq_empty fun entry mem => (ne_of_lt (after entry mem)).symm
  have isAvail : empty.avail portMask ≠ 0 := by rwa [avail_empty]
  refine .check isAvail ?_
  refine .pure ⟨⟨le_rfl, ?_, ?_, ?_, ?_⟩, ?_, ?_⟩
  · intro i from_ before
    exact absurd from_ (not_le.mpr before)
  · rwa [absent]
  · rw [absent]
  · rw [absent]
    ext1 key
    by_cases isStart : key = start
    · rw [isStart, update_self, valueAt_cons_self]
    · rw [update_of_ne isStart, valueAt_cons_of_ne isStart]
  · exact pairwise_cons.mpr ⟨after, sorted⟩
  · exact forall_mem_cons.mpr ⟨.inl rfl, fun entry isOther => .inr ⟨entry, isOther, rfl⟩⟩

/-- An entry before the search is kept in front. -/
theorem TakesFar.cons {entry : Nat × WinCycle} {found : Found (List (Nat × WinCycle))}
    (takes : TakesFar touchOccupancy portMask entries start found)
    (sorted : Sorted (entry :: entries)) (before : entry.1 < start) :
    TakesFar touchOccupancy portMask (entry :: entries) start
      { found with content := entry :: found.content } := by
  have le := takes.takes.le
  have later (i : Nat) (after : start ≤ i) :
      valueAt empty (entry :: entries) i = valueAt empty entries i :=
    valueAt_cons_of_ne (by omega)
  refine ⟨⟨le, ?_, ?_, ?_, ?_⟩, ?_, ?_⟩
  · intro i after upTo
    rw [later i after]
    exact takes.takes.busy i after upTo
  · rw [later _ le]
    exact takes.takes.avail
  · rw [later _ le]
    exact takes.takes.port
  · rw [later _ le]
    ext1 key
    by_cases isEntry : key = entry.1
    · have apart : key ≠ found.pos := by omega
      rw [update_of_ne apart, valueAt, valueAt, if_pos isEntry, if_pos isEntry]
    · rw [valueAt_cons_of_ne isEntry, takes.takes.taken]
      by_cases isPos : key = found.pos
      · rw [isPos, update_self, update_self]
      · rw [update_of_ne isPos, update_of_ne isPos, valueAt_cons_of_ne isEntry]
  · refine pairwise_cons.mpr ⟨?_, takes.sorted⟩
    intro other mem
    rcases takes.keys other mem with isPos | ⟨same, isEntry, isKey⟩
    · omega
    · rw [← isKey]
      exact sorted.head_lt same isEntry
  · refine forall_mem_cons.mpr ⟨.inr ⟨_, mem_cons_self, rfl⟩, fun other isOther => ?_⟩
    rcases takes.keys other isOther with isPos | ⟨same, isEntry, isKey⟩
    · exact .inl isPos
    · exact .inr ⟨same, mem_cons_of_mem _ isEntry, isKey⟩

theorem scanFar_spec (ne0 : portMask ≠ 0) (sorted : Sorted entries) :
    Gives (scanFar touchOccupancy portMask start entries)
      (TakesFar touchOccupancy portMask entries start) := by
  induction entries generalizing start with
  | nil =>
    exact insertFar_spec ne0 sorted nofun
  | cons entry entries ih =>
    rw [scanFar]
    split
    · next before =>
      apply (ih sorted.tail).bind
      intro found takes
      exact .pure (takes.cons sorted before)
    · next notBefore =>
      split
      · next apart =>
        have isAfter : start < entry.1 := by omega
        exact insertFar_spec ne0 sorted (forall_mem_cons.mpr
          ⟨isAfter, fun other isLater => isAfter.trans (sorted.head_lt other isLater)⟩)
      · next same =>
        have isStart : entry.1 = start := not_not.mp same
        have value : valueAt empty (entry :: entries) start = entry.2 := by
          rw [valueAt, if_pos isStart.symm]
        split
        · next isAvail =>
          refine .pure ⟨⟨le_rfl, ?_, ?_, ?_, ?_⟩, ?_, ?_⟩
          · intro i after upTo
            exact absurd after (not_le.mpr upTo)
          · rwa [value]
          · rw [value]
          · rw [value]
            ext1 key
            by_cases isKey : key = start
            · rw [isKey, update_self, isStart, valueAt_cons_self]
            · rw [update_of_ne isKey, isStart, valueAt_cons_of_ne isKey,
                valueAt_cons_of_ne (by rwa [isStart])]
          · exact pairwise_cons.mpr ⟨sorted.head_lt, sorted.tail⟩
          · exact forall_mem_cons.mpr ⟨.inl isStart, fun other isOther =>
              .inr ⟨other, mem_cons_of_mem _ isOther, rfl⟩⟩
        · next notAvail =>
          have busy : entry.2.avail portMask = 0 := not_not.mp notAvail
          rw [trySchedule_busy busy]
          apply (ih sorted.tail).bind
          intro found takes
          have all := takes.cons sorted (by omega)
          refine .pure ⟨all.takes.earlier ?_, all.sorted, all.keys⟩
          rwa [value]

/-! ## The window -/

theorem slotAt_update_cur (now : w.curPos ≤ pos) (mem : pos < H) :
    slotAt H curCycle { w with curWin := update w.curWin pos wc } =
      update (slotAt H curCycle w) (curCycle + pos - w.curPos) wc := by
  ext1 cycle
  by_cases isPos : cycle = curCycle + pos - w.curPos
  · have notOver : ¬ cycle < curCycle := by omega
    have same : cycle + w.curPos - curCycle = pos := by omega
    rw [← isPos]
    simp only [slotAt, notOver, same, mem, if_true, if_false, update_self]
  rw [update_of_ne isPos]
  simp only [slotAt]
  split
  · rfl
  · split
    · have apart : cycle + w.curPos - curCycle ≠ pos := by omega
      rw [update_of_ne apart]
    · rfl

theorem slotAt_update_next (posLt : w.curPos < H) (mem : pos < H) :
    slotAt H curCycle { w with nextWin := update w.nextWin pos wc } =
      update (slotAt H curCycle w) (curCycle + (pos + H) - w.curPos) wc := by
  ext1 cycle
  by_cases isPos : cycle = curCycle + (pos + H) - w.curPos
  · have notOver : ¬ cycle < curCycle := by omega
    have same : cycle + w.curPos - curCycle = pos + H := by omega
    have notCur : ¬ pos + H < H := by omega
    have isNext : pos + H < 2 * H := by omega
    rw [← isPos]
    simp only [slotAt, notOver, same, notCur, isNext, if_true, if_false,
      Nat.add_sub_cancel, update_self]
  · rw [update_of_ne isPos]
    simp only [slotAt]
    split
    · rfl
    · split
      · rfl
      · have apart : cycle + w.curPos - curCycle - H ≠ pos := by omega
        rw [update_of_ne apart]

theorem slotAt_update_far (posLt : w.curPos < H) (isFar : curCycle + 2 * H ≤ pos + w.curPos)
    (values : valueAt empty entries = update (valueAt empty w.ubWin) pos wc) :
    slotAt H curCycle { w with ubWin := entries } = update (slotAt H curCycle w) pos wc := by
  ext1 cycle
  by_cases isPos : cycle = pos
  · have notOver : ¬ pos < curCycle := by omega
    have notCur : ¬ pos + w.curPos - curCycle < H := by omega
    have notNext : ¬ pos + w.curPos - curCycle < 2 * H := by omega
    rw [isPos]
    simp only [slotAt, notOver, notCur, notNext, if_false, values, update_self]
  rw [update_of_ne isPos]
  simp only [slotAt]
  split
  · rfl
  · split
    · rfl
    · split
      · rfl
      · rw [values, update_of_ne isPos]

/-- A uop was placed on the timeline. -/
structure Placed (H curCycle : Nat) (touchOccupancy : Bool)
    (portMask : BitVec 8) (w : Window) (start : Nat) (next : Window) (cycle port : Nat) : Prop where
  takes : Takes touchOccupancy portMask (slotAt H curCycle w) start cycle port
    (slotAt H curCycle next)
  shape : Shape H curCycle next
  curPos : next.curPos = w.curPos
  occupancy : next.occupancy = w.occupancy
  lastPort : next.lastPort = w.lastPort

variable {start pos port : Nat}

/-- A position of the current array was found. -/
theorem Shape.placed_cur {win : Nat → WinCycle} (shape : Shape H curCycle w)
    (isStart : start + w.curPos = curCycle + pos) (now : curCycle ≤ start)
    {final : Nat} (mem : final < H)
    (takes : Takes touchOccupancy portMask w.curWin pos final port win) :
    Placed H curCycle touchOccupancy portMask w start
      { w with curWin := win } (curCycle + final - w.curPos) port := by
  have le := takes.le
  have value : slotAt H curCycle w (curCycle + final - w.curPos) = w.curWin final :=
    slotAt_cur final (by omega) (by omega) mem
  refine ⟨⟨by omega, ?_, ?_, ?_, ?_⟩, ⟨shape.posLt, ?_, shape.sorted, shape.far⟩, rfl, rfl, rfl⟩
  · intro cycle after before
    rw [slotAt_cur (cycle + w.curPos - curCycle) (by omega) (by omega) (by omega)]
    exact takes.busy _ (by omega) (by omega)
  · rw [value]
    exact takes.avail
  · rw [value]
    exact takes.port
  · rw [value, takes.taken]
    exact slotAt_update_cur (by omega) mem
  · intro i before
    have isOver : i < w.curPos := before
    have apart : i ≠ final := by omega
    have same : win i = w.curWin i := by rw [takes.taken, update_of_ne apart]
    exact same.trans (shape.left i isOver)

/-- The rest of the current array has no available port. -/
theorem busy_cur (isStart : start + w.curPos = curCycle + pos) (now : curCycle ≤ start)
    (busy : ∀ i, pos ≤ i → i < H → (w.curWin i).avail portMask = 0)
    (after : start ≤ cycle) (before : cycle + w.curPos < curCycle + H) :
    (slotAt H curCycle w cycle).avail portMask = 0 := by
  rw [slotAt_cur (cycle + w.curPos - curCycle) (by omega) (by omega) (by omega)]
  exact busy _ (by omega) (by omega)

section

variable (shape : Shape H curCycle w) (isStart : start + w.curPos = curCycle + pos)
  (now : curCycle ≤ start) (busy : ∀ i, pos ≤ i → i < H → (w.curWin i).avail portMask = 0)
include shape isStart now busy

/-- A position of the next array was found. -/
theorem Shape.placed_next {win : Nat → WinCycle} {final : Nat} (mem : final < H)
    (takes : Takes touchOccupancy portMask w.nextWin (pos - H) final port win) :
    Placed H curCycle touchOccupancy portMask w start
      { w with nextWin := win } (curCycle + (final + H) - w.curPos) port := by
  have posLt := shape.posLt
  have le := takes.le
  have value : slotAt H curCycle w (curCycle + (final + H) - w.curPos) = w.nextWin final :=
    slotAt_next final (by omega) (by omega) mem
  refine ⟨⟨by omega, ?_, ?_, ?_, ?_⟩, ⟨posLt, shape.left, shape.sorted, shape.far⟩, rfl, rfl, rfl⟩
  · intro cycle after before
    by_cases isCur : cycle + w.curPos < curCycle + H
    · exact busy_cur isStart now busy after isCur
    · rw [slotAt_next (cycle + w.curPos - curCycle - H) (by omega) (by omega) (by omega)]
      exact takes.busy _ (by omega) (by omega)
  · rw [value]
    exact takes.avail
  · rw [value]
    exact takes.port
  · rw [value, takes.taken]
    exact slotAt_update_next posLt mem

/-- The cycle is in the map. -/
theorem Shape.placed_far {far : Found (List (Nat × WinCycle))} {begin : Nat} (busyNext : ∀ i, pos - H ≤ i → i < H → (w.nextWin i).avail portMask = 0)
    (isBegin : begin + w.curPos = curCycle + max pos (2 * H))
    (takes : TakesFar touchOccupancy portMask w.ubWin begin far) :
    Placed H curCycle touchOccupancy portMask w start
      { w with ubWin := far.content } far.pos far.port := by
  have posLt := shape.posLt
  have le := takes.takes.le
  have value : slotAt H curCycle w far.pos = valueAt empty w.ubWin far.pos :=
    slotAt_far (by omega) (by omega)
  refine ⟨⟨by omega, ?_, ?_, ?_, ?_⟩, ⟨posLt, shape.left, takes.sorted, ?_⟩, rfl, rfl, rfl⟩
  · intro cycle after before
    by_cases isCur : cycle + w.curPos < curCycle + H
    · exact busy_cur isStart now busy after isCur
    by_cases isNext : cycle + w.curPos < curCycle + 2 * H
    · rw [slotAt_next (cycle + w.curPos - curCycle - H) (by omega) (by omega) (by omega)]
      exact busyNext _ (by omega) (by omega)
    · rw [slotAt_far (by omega) (by omega)]
      exact takes.takes.busy cycle (by omega) before
  · rw [value]
    exact takes.takes.avail
  · rw [value]
    exact takes.takes.port
  · rw [value]
    exact slotAt_update_far posLt (by omega) takes.takes.taken
  · intro entry mem
    rcases takes.keys entry mem with isPos | ⟨other, isOther, isKey⟩
    · exact show curCycle + 2 * H ≤ entry.1 + w.curPos by omega
    · rw [← isKey]
      exact shape.far other isOther

end

/-- The uop is placed in the first cycle from the requested one on that has an
available port. -/
theorem place_spec {schedCycle : Nat} (small : 2 * H < 2 ^ 32) (shape : Shape H curCycle w)
    (near : schedCycle + w.curPos < curCycle + 2 ^ 32) (ne0 : portMask ≠ 0) :
    Gives (place H touchOccupancy w curCycle schedCycle portMask)
      fun found => Placed H curCycle touchOccupancy portMask w
        (max schedCycle curCycle) found.content found.pos found.port := by
  have posLt := shape.posLt
  have delay : (if curCycle < schedCycle then (schedCycle - curCycle) % 2 ^ 32
      else 0) = schedCycle - curCycle := by
    split <;> omega
  have curWinPos : (w.curPos + (schedCycle - curCycle)) % 2 ^ 32 =
      w.curPos + (schedCycle - curCycle) := by omega
  simp only [place, delay, curWinPos]
  generalize isPos : w.curPos + (schedCycle - curCycle) = pos
  have isStart : max schedCycle curCycle + w.curPos = curCycle + pos := by omega
  have now : curCycle ≤ max schedCycle curCycle := le_max_right _ _
  rcases scan_window touchOccupancy portMask H w.curWin pos with
    ⟨mem, takes⟩ | ⟨isEnd, same, busy⟩
  · have le := takes.le
    generalize scan touchOccupancy portMask (H - pos) w.curWin pos = found at mem takes le
    have isCycle : curCycle + (found.pos + 2 ^ 32 - w.curPos) % 2 ^ 32 =
        curCycle + found.pos - w.curPos := by omega
    rw [if_pos mem, isCycle]
    exact .pure (shape.placed_cur isStart now mem takes)
  · generalize scan touchOccupancy portMask (H - pos) w.curWin pos = found at isEnd same
    have notInside : ¬ found.pos < H := by omega
    have nextPos : found.pos - H = pos - H := by omega
    rw [if_neg notInside, nextPos, same]
    rcases scan_window touchOccupancy portMask H w.nextWin (pos - H) with
      ⟨insideNext, takes⟩ | ⟨isEndNext, sameNext, busyNext⟩
    · generalize scan touchOccupancy portMask (H - (pos - H)) w.nextWin
        (pos - H) = next at insideNext takes
      have isCycle : curCycle + (next.pos + H + 2 ^ 32 - w.curPos) % 2 ^ 32 =
          curCycle + (next.pos + H) - w.curPos := by omega
      rw [if_pos insideNext, isCycle]
      exact .pure (shape.placed_next isStart now busy insideNext takes)
    · generalize scan touchOccupancy portMask (H - (pos - H)) w.nextWin
        (pos - H) = next at isEndNext sameNext
      have notInsideNext : ¬ next.pos < H := by omega
      rw [if_neg notInsideNext, sameNext]
      apply (scanFar_spec ne0 shape.sorted).bind
      intro far takes
      exact .pure (shape.placed_far isStart now busy busyNext (by omega) takes)

end Window

end Damov.Core
