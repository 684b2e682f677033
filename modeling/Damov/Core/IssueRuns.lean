import Damov.Core.WindowStructure
import Mathlib.Algebra.BigOperators.Intervals

/-!
# Runs of the issue window

The counts of the arrays and the map add up to the counts along the timeline. A
uop that is scheduled less than 2^32 cycles after the start of the window gets a
port of its own in a cycle that is not before the requested one. The delay to the
requested cycle is kept in 32 bits, so that uops further away end up too early.
-/

namespace Damov.Core

open Library.SortedMap Library.Checked Function List

namespace WinCycle

variable {wc : WinCycle} {portMask : BitVec 8}

theorem exists_getLsbD {mask : BitVec 8} (ne0 : mask ≠ 0) :
    ∃ port < 8, mask.getLsbD port = true := by
  by_contra none
  apply ne0
  apply BitVec.eq_of_getLsbD_eq
  intro i mem
  have clear : mask.getLsbD i = false := by
    by_contra set
    exact none ⟨i, mem, by simpa using set⟩
  rw [clear]
  exact BitVec.getLsbD_zero.symm

theorem firstAvail_spec {mask : BitVec 8} (ne0 : mask ≠ 0) :
    firstAvail mask < 8 ∧ mask.getLsbD (firstAvail mask) = true := by
  rw [firstAvail]
  cases found : (range 8).find? fun port => mask.getLsbD port with
  | none =>
    obtain ⟨port, mem, set⟩ := exists_getLsbD ne0
    have clear := find?_eq_none.mp found port (mem_range.mpr mem)
    exact absurd set clear
  | some port =>
    exact ⟨mem_range.mp (mem_of_find?_eq_some found), find?_some found⟩

theorem getLsbD_one_shiftLeft {port : Nat} (lt : port < 8) :
    ((1 : BitVec 8) <<< port).getLsbD port = true := by simp [lt]

/-- The port that a uop takes. -/
structure TakesPort (wc : WinCycle) (portMask : BitVec 8) (port : Nat) : Prop where
  lt : port < 8
  allowed : portMask.getLsbD port = true
  free : wc.occUnits.getLsbD port = false
  taken : (wc.trySchedule true portMask).occUnits.getLsbD port = true

theorem takesPort_firstAvail (isAvail : wc.avail portMask ≠ 0) :
    wc.TakesPort portMask (firstAvail (wc.avail portMask)) := by
  obtain ⟨lt, set⟩ := firstAvail_spec isAvail
  have bits := set
  rw [avail, BitVec.getLsbD_and, BitVec.getLsbD_not, ← avail,
    Bool.and_eq_true, Bool.and_eq_true] at bits
  refine ⟨lt, bits.2, by simpa using bits.1.2, ?_⟩
  rw [trySchedule, if_pos rfl, if_pos isAvail, BitVec.getLsbD_or,
    getLsbD_one_shiftLeft lt, Bool.or_true]

/-- Occupied ports stay occupied. -/
theorem trySchedule_occUnits {touchOccupancy : Bool} {port : Nat}
    (occupied : wc.occUnits.getLsbD port = true) :
    (wc.trySchedule touchOccupancy portMask).occUnits.getLsbD port = true := by
  rw [trySchedule]
  split
  · split
    · rw [BitVec.getLsbD_or, occupied, Bool.true_or]
    · exact occupied
  · rw [BitVec.getLsbD_or, occupied, Bool.true_or]

theorem trySchedule_count (isAvail : wc.avail portMask ≠ 0) (few : wc.count < 255) :
    (wc.trySchedule true portMask).count = wc.count + 1 := by
  rw [trySchedule, if_pos isAvail]
  exact Nat.mod_eq_of_lt (by omega)

end WinCycle

namespace Window

open WinCycle

variable {c : WindowConfig} {H curCycle : Nat} {w next : Window}
variable {granted : List (Nat × Nat)} {portMask : BitVec 8}

/-- The counts of everything that is scheduled. -/
def total (H : Nat) (w : Window) : Nat :=
  ∑ i ∈ Finset.Ico w.curPos H, (w.curWin i).count + ∑ i ∈ Finset.range H, (w.nextWin i).count +
    (w.ubWin.map fun entry => entry.2.count).sum

section

variable {values : List Nat} {start cycle bound : Nat}

theorem le_foldr_max {value : Nat} (mem : value ∈ values) : value ≤ values.foldr max start := by
  induction values with
  | nil => cases mem
  | cons first values ih =>
    rcases mem_cons.mp mem with rfl | later
    · exact le_max_left _ _
    · exact (ih later).trans (le_max_right _ _)

theorem start_le_foldr_max : start ≤ values.foldr max start := by
  induction values with
  | nil => exact le_rfl
  | cons first values ih =>
    exact ih.trans (le_max_right _ _)

theorem arrays_le_horizon : curCycle + 2 * H - w.curPos ≤ w.horizon H curCycle := start_le_foldr_max

theorem far_lt_horizon {entry : Nat × WinCycle} (mem : entry ∈ w.ubWin) :
    entry.1 < w.horizon H curCycle :=
  le_foldr_max (mem_map.mpr ⟨entry, mem, rfl⟩)

variable (shape : Shape H curCycle w)
include shape

theorem Shape.le_horizon : curCycle ≤ w.horizon H curCycle := by
  have arrays : curCycle + 2 * H - w.curPos ≤ w.horizon H curCycle := arrays_le_horizon
  have posLt := shape.posLt
  omega

/-- Nothing is scheduled from the horizon on. -/
theorem Shape.empty_of_horizon (beyond : w.horizon H curCycle ≤ cycle) :
    slotAt H curCycle w cycle = empty := by
  have arrays : curCycle + 2 * H - w.curPos ≤ w.horizon H curCycle := arrays_le_horizon
  have posLt := shape.posLt
  rw [slotAt_far (by omega) (by omega)]
  apply valueAt_eq_empty
  intro entry mem
  have before : entry.1 < w.horizon H curCycle := far_lt_horizon mem
  omega

omit shape in
theorem sum_cur :
    ∑ cycle ∈ Finset.Ico curCycle (curCycle + (H - w.curPos)), (slotAt H curCycle w cycle).count =
      ∑ i ∈ Finset.Ico w.curPos H, (w.curWin i).count := by
  rw [Finset.sum_Ico_eq_sum_range, Finset.sum_Ico_eq_sum_range, Nat.add_sub_cancel_left]
  apply Finset.sum_congr rfl
  intro i mem
  have bound := Finset.mem_range.mp mem
  rw [slotAt_cur (w.curPos + i) (by omega) (by omega) (by omega)]

theorem Shape.sum_next : ∑ cycle ∈ Finset.Ico (curCycle + (H - w.curPos))
        (curCycle + (H - w.curPos) + H), (slotAt H curCycle w cycle).count =
      ∑ i ∈ Finset.range H, (w.nextWin i).count := by
  have posLt := shape.posLt
  rw [Finset.sum_Ico_eq_sum_range, Nat.add_sub_cancel_left]
  apply Finset.sum_congr rfl
  intro i mem
  have bound := Finset.mem_range.mp mem
  rw [slotAt_next i (by omega) (by omega) bound]

theorem Shape.sum_far (beyond : w.horizon H curCycle ≤ bound) :
    ∑ cycle ∈ Finset.Ico (curCycle + (H - w.curPos) + H) bound, (slotAt H curCycle w cycle).count =
      (w.ubWin.map fun entry => entry.2.count).sum := by
  have posLt := shape.posLt
  rw [← sum_valueAt empty WinCycle.count
    (Finset.Ico (curCycle + (H - w.curPos) + H) bound) rfl shape.sorted]
  · apply Finset.sum_congr rfl
    intro cycle mem
    have after := (Finset.mem_Ico.mp mem).1
    rw [slotAt_far (by omega) (by omega)]
  · intro entry mem
    have before : entry.1 < w.horizon H curCycle := far_lt_horizon mem
    have far := shape.far entry mem
    exact Finset.mem_Ico.mpr ⟨by omega, by omega⟩

/-- The counts of the window are those along the timeline. -/
theorem Shape.total_eq (beyond : w.horizon H curCycle ≤ bound) :
    total H w = ∑ cycle ∈ Finset.Ico curCycle bound, (slotAt H curCycle w cycle).count := by
  have posLt := shape.posLt
  have arrays : curCycle + 2 * H - w.curPos ≤ w.horizon H curCycle := arrays_le_horizon
  rw [total, ← sum_cur, ← shape.sum_next, ← shape.sum_far beyond,
    Finset.sum_Ico_consecutive _ (by omega) (by omega),
    Finset.sum_Ico_consecutive _ (by omega) (by omega)]

omit shape in
/-- Advancing takes the counts of the current cycle away. -/
theorem Advanced.total (advanced : Advanced H curCycle w next) (shape : Shape H curCycle w) :
    total H w = (slotAt H curCycle w curCycle).count + Window.total H next := by
  have before := shape.total_eq (le_max_left (w.horizon H curCycle)
    (max (curCycle + 1) (next.horizon H (curCycle + 1))))
  have after := advanced.shape.total_eq (le_trans (le_max_right
    (curCycle + 1) (next.horizon H (curCycle + 1))) (le_max_right (w.horizon H curCycle) _))
  rw [before, after, Finset.sum_eq_sum_Ico_succ_bot (by omega)]
  congr 1
  apply Finset.sum_congr rfl
  intro cycle mem
  rw [advanced.slots cycle (Finset.mem_Ico.mp mem).1]

/-- Changing one cycle changes its count. -/
theorem total_update {wc : WinCycle} (shapeNext : Shape H curCycle next) (now : curCycle ≤ cycle)
    (slots : slotAt H curCycle next = update (slotAt H curCycle w) cycle wc) :
    total H next + (slotAt H curCycle w cycle).count = total H w + wc.count := by
  have mem : cycle ∈ Finset.Ico curCycle (max (cycle + 1)
      (max (w.horizon H curCycle) (next.horizon H curCycle))) := by
    rw [Finset.mem_Ico]
    omega
  rw [shape.total_eq (le_trans (le_max_left _
      (next.horizon H curCycle)) (le_max_right (cycle + 1) _)),
    shapeNext.total_eq (le_trans (le_max_right (w.horizon H curCycle) _)
      (le_max_right (cycle + 1) _)),
    ← Finset.sum_erase_add _ _ mem, ← Finset.sum_erase_add _ _ mem, slots,
    update_self]
  have others : ∀ other ∈ (Finset.Ico curCycle (max (cycle + 1)
      (max (w.horizon H curCycle) (next.horizon H curCycle)))).erase cycle,
      (update (slotAt H curCycle w) cycle wc other).count = (slotAt H curCycle w other).count := by
    intro other isOther
    rw [update_of_ne (Finset.ne_of_mem_erase isOther)]
  rw [Finset.sum_congr rfl others]
  omega

/-- All cycles are empty, so nothing is counted. -/
theorem Shape.total_eq_zero
    (empties : ∀ cycle, curCycle ≤ cycle → slotAt H curCycle w cycle = empty) :
    total H w = 0 := by
  rw [shape.total_eq le_rfl]
  apply Finset.sum_eq_zero
  intro cycle mem
  rw [empties cycle (Finset.mem_Ico.mp mem).1]
  rfl

end

/-! ## The history of the ports -/

/-- The ports of the timeline are those that were granted to uops, each with its
cycle, together with reserved ones. -/
structure Grants (H curCycle : Nat) (w : Window) (granted : List (Nat × Nat)) : Prop where
  counts : ∀ cycle, curCycle ≤ cycle → (slotAt H curCycle w cycle).count =
      granted.countP fun grant => grant.1 = cycle
  held : ∀ grant ∈ granted, curCycle ≤ grant.1 →
    (slotAt H curCycle w grant.1).occUnits.getLsbD grant.2 = true
  ports : ∀ grant ∈ granted, grant.2 < 8
  nodup : granted.Nodup

/-- A cycle has eight ports. -/
theorem Grants.count_le (grants : Grants H curCycle w granted) {cycle : Nat}
    (now : curCycle ≤ cycle) : (slotAt H curCycle w cycle).count ≤ 8 := by
  rw [grants.counts cycle now, countP_eq_length_filter, ← length_map (f := Prod.snd)]
  have distinct : ((granted.filter fun grant => grant.1 = cycle).map Prod.snd).Nodup := by
    apply List.Nodup.map_on _ (grants.nodup.filter _)
    intro first isFirst second isSecond same
    have firstCycle := (mem_filter.mp isFirst).2
    have secondCycle := (mem_filter.mp isSecond).2
    simp only [decide_eq_true_eq] at firstCycle secondCycle
    exact Prod.ext (firstCycle.trans secondCycle.symm) same
  have mem : ((granted.filter fun grant => grant.1 = cycle).map Prod.snd) ⊆
      range 8 := by
    intro port isPort
    obtain ⟨grant, isGrant, rfl⟩ := mem_map.mp isPort
    exact mem_range.mpr (grants.ports grant (mem_filter.mp isGrant).1)
  have le := (subperm_of_subset distinct mem).length_le
  rwa [length_range] at le

theorem Grants.advance (grants : Grants H curCycle w granted)
    (advanced : Advanced H curCycle w next) :
    Grants H (curCycle + 1) next granted where
  counts := by
    intro cycle later
    rw [advanced.slots cycle later]
    exact grants.counts cycle (Nat.le_of_succ_le later)
  held := by
    intro grant mem later
    rw [advanced.slots grant.1 later]
    exact grants.held grant mem (Nat.le_of_succ_le later)
  ports := grants.ports
  nodup := grants.nodup

variable {start cycle port : Nat}

section

variable (grants : Grants H curCycle w granted)
include grants

/-- A port that was not occupied was not granted. -/
theorem Grants.fresh (now : curCycle ≤ cycle)
    (free : (slotAt H curCycle w cycle).occUnits.getLsbD port = false) :
    (cycle, port) ∉ granted := by
  intro mem
  have held := grants.held (cycle, port) mem now
  rw [free] at held
  exact Bool.false_ne_true held

theorem Grants.grant (now : curCycle ≤ start)
    (takes : Takes true portMask (slotAt H curCycle w) start cycle port (slotAt H curCycle next)) :
    Grants H curCycle next (granted ++ [(cycle, port)]) := by
  have isNow := now.trans takes.le
  have few := grants.count_le isNow
  have takesPort := takesPort_firstAvail takes.avail
  rw [← takes.port] at takesPort
  refine ⟨?_, ?_, ?_, ?_⟩
  · intro other later
    rw [takes.taken]
    by_cases isCycle : other = cycle
    · rw [isCycle, update_self, trySchedule_count takes.avail (by omega), grants.counts cycle isNow]
      simp
    · have apart : cycle ≠ other := Ne.symm isCycle
      rw [update_of_ne isCycle, grants.counts other later]
      simp [apart]
  · intro grant mem later
    rw [takes.taken]
    rcases mem_append.mp mem with earlier | isNew
    · have held := grants.held grant earlier later
      by_cases isCycle : grant.1 = cycle
      · rw [isCycle, update_self]
        rw [isCycle] at held
        exact trySchedule_occUnits held
      · rwa [update_of_ne isCycle]
    · rw [mem_singleton.mp isNew, update_self]
      exact takesPort.taken
  · exact forall_mem_append.mpr ⟨grants.ports, forall_mem_singleton.mpr takesPort.lt⟩
  · exact nodup_append.mpr ⟨grants.nodup, nodup_singleton _, fun grant earlier =>
      forall_mem_singleton.mpr (ne_of_mem_of_not_mem earlier (grants.fresh isNow takesPort.free))⟩

/-- A reserved slot is not counted and not granted. -/
theorem Grants.reserve (takes : Takes false portMask (slotAt H curCycle w) start cycle port
      (slotAt H curCycle next)) :
    Grants H curCycle next granted where
  counts := by
    intro other later
    rw [takes.taken, ← grants.counts other later]
    by_cases isCycle : other = cycle
    · rw [isCycle, update_self]
      rfl
    · rw [update_of_ne isCycle]
  held := by
    intro grant mem later
    have held := grants.held grant mem later
    rw [takes.taken]
    by_cases isCycle : grant.1 = cycle
    · rw [isCycle, update_self]
      rw [isCycle] at held
      exact trySchedule_occUnits held
    · rwa [update_of_ne isCycle]
  ports := grants.ports
  nodup := grants.nodup

end

/-! ## The invariant -/

variable (c curCycle w granted)

structure Inv : Prop where
  shape : Shape c.H curCycle w
  occupancy : w.occupancy = total c.H w
  bounded : w.occupancy ≤ c.WSZ
  grants : Grants c.H curCycle w granted

/-- The window has a free place after some cycles. -/
structure Drained (bound : Nat) (next : Window) (nextCycle : Nat) : Prop where
  inv : Inv c nextCycle next granted
  room : next.occupancy < c.WSZ
  le : curCycle ≤ nextCycle
  upTo : nextCycle ≤ bound
  slots : ∀ cycle, nextCycle ≤ cycle → slotAt c.H nextCycle next cycle = slotAt c.H curCycle w cycle
  start : curCycle + next.curPos ≤ nextCycle + w.curPos

/-- The first slot of a uop. Nothing is scheduled after the bound. -/
structure Issued (request : Nat) (portMask : BitVec 8)
    (bound : Nat) (issued : Scheduled) : Prop where
  inv : Inv c issued.curCycle issued.window (granted ++ [(issued.schedCycle, issued.port)])
  requested : request ≤ issued.schedCycle
  current : issued.curCycle ≤ issued.schedCycle
  upTo : issued.schedCycle ≤ bound
  allowed : portMask.getLsbD issued.port = true
  fresh : (issued.schedCycle, issued.port) ∉ granted
  start : curCycle + issued.window.curPos ≤ issued.curCycle + w.curPos
  counts : ∀ cycle, issued.curCycle ≤ cycle →
    (slotAt c.H issued.curCycle issued.window cycle).count = (slotAt c.H curCycle w cycle).count +
        if cycle = issued.schedCycle then 1 else 0
  empties : ∀ cycle, bound < cycle → slotAt c.H issued.curCycle issued.window cycle = empty

/-- The steps of a call for a uop: the window drains, then the uop is placed. -/
structure FirstPlaced (request : Nat) (portMask : BitVec 8)
    (recordPort : Bool) (issued : Scheduled) (middle next : Window) : Prop where
  drains : drain c (w.horizon c.H curCycle - curCycle) curCycle w = .ok (middle, issued.curCycle)
  drained : Drained c curCycle w granted (w.horizon c.H curCycle) middle issued.curCycle
  placed : Placed c.H issued.curCycle true portMask middle
    (max request issued.curCycle) next issued.schedCycle issued.port
  window : issued.window =
    { next with
      lastPort := if recordPort then issued.port else next.lastPort
      occupancy := next.occupancy + 1 }

/-- The reserved slots of a uop. -/
structure Reserved (next : Window) : Prop where
  inv : Inv c curCycle next granted
  counts : ∀ cycle, (slotAt c.H curCycle next cycle).count = (slotAt c.H curCycle w cycle).count

/-- The call of `schedule` for a uop. -/
structure Schedules (request : Nat) (portMask : BitVec 8) (scheduled : Scheduled) : Prop where
  requested : request ≤ scheduled.schedCycle
  current : scheduled.curCycle ≤ scheduled.schedCycle
  allowed : portMask.getLsbD scheduled.port = true
  fresh : (scheduled.schedCycle, scheduled.port) ∉ granted
  recorded : (slotAt c.H scheduled.curCycle scheduled.window
    scheduled.schedCycle).occUnits.getLsbD scheduled.port = true
  counts : ∀ cycle, scheduled.curCycle ≤ cycle →
    (slotAt c.H scheduled.curCycle scheduled.window cycle).count =
      (slotAt c.H curCycle w cycle).count + if cycle = scheduled.schedCycle then 1 else 0

variable {c curCycle w granted}

theorem Inv.advance (small : 2 * c.H < 2 ^ 32) (inv : Inv c curCycle w granted) :
    Gives (w.advancePos c.H (curCycle + 1)) fun next =>
      Inv c (curCycle + 1) next granted ∧ Advanced c.H curCycle w next := by
  apply (advancePos_spec small inv.shape).mono
  intro next advanced
  have sum := advanced.total inv.shape
  have occupancy := inv.occupancy
  have left := advanced.occupancy
  have bounded := inv.bounded
  exact ⟨⟨advanced.shape, by omega, by omega, inv.grants.advance advanced⟩, advanced⟩

variable {bound req : Nat} {recordPort : Bool}

theorem Inv.lt_bound (inv : Inv c curCycle w granted)
    (empties : ∀ cycle, bound ≤ cycle → slotAt c.H curCycle w cycle = empty)
    (full : w.occupancy = c.WSZ) : curCycle < bound := by
  by_contra beyond
  have none := inv.shape.total_eq_zero fun cycle now =>
    empties cycle (by omega)
  have occupancy := inv.occupancy
  have sizePos := c.sizePos
  omega

theorem drain_spec (small : 2 * c.H < 2 ^ 32) {fuel : Nat} (inv : Inv c curCycle w granted)
    (empties : ∀ cycle, bound ≤ cycle → slotAt c.H curCycle w cycle = empty)
    (le : curCycle ≤ bound) (enough : bound ≤ curCycle + fuel) :
    Gives (drain c fuel curCycle w) fun drained =>
      Drained c curCycle w granted bound drained.1 drained.2 := by
  induction fuel generalizing curCycle w with
  | zero =>
    have notFull : w.occupancy ≠ c.WSZ := by
      intro full
      have := inv.lt_bound empties full
      omega
    rw [drain, if_neg notFull]
    exact .pure ⟨inv, lt_of_le_of_ne inv.bounded notFull, le_rfl, le, fun _ _ => rfl, le_rfl⟩
  | succ fuel ih =>
    rw [drain]
    split
    · next full =>
      have before := inv.lt_bound empties full
      apply (inv.advance small).bind
      rintro next ⟨invNext, advanced⟩
      have rest := ih invNext (fun cycle beyond => by
          rw [advanced.slots cycle (by omega)]
          exact empties cycle beyond)
        (by omega) (by omega)
      apply rest.mono
      intro drained spec
      have start := advanced.start
      have startNext := spec.start
      have leNext := spec.le
      refine ⟨spec.inv, spec.room, by omega, spec.upTo, ?_, by omega⟩
      intro cycle now
      rw [spec.slots cycle now, advanced.slots cycle (by omega)]
    · next notFull =>
      exact .pure ⟨inv, lt_of_le_of_ne inv.bounded notFull, le_rfl, le, fun _ _ => rfl, le_rfl⟩

/-! ## Scheduling -/

/-- A search ends before the first empty cycle. -/
theorem Takes.le_of_empty {touchOccupancy : Bool} {slots taken : Nat → WinCycle}
    (takes : Takes touchOccupancy portMask slots start cycle port taken)
    (ne0 : portMask ≠ 0) (le : start ≤ bound) (isEmpty : slots bound = empty) : cycle ≤ bound := by
  by_contra beyond
  have busy := takes.busy bound le (by omega)
  rw [isEmpty, avail_empty] at busy
  exact ne0 busy

/-- The window after the first slot. -/
theorem Inv.issue (inv : Inv c curCycle w granted) (room : w.occupancy < c.WSZ)
    (now : curCycle ≤ start) (lastPort : Nat)
    (placed : Placed c.H curCycle true portMask w start next cycle port) :
    Inv c curCycle { next with lastPort := lastPort, occupancy := next.occupancy + 1 }
      (granted ++ [(cycle, port)]) := by
  have isNow := now.trans placed.takes.le
  have few := inv.grants.count_le isNow
  have sum := total_update inv.shape placed.shape isNow placed.takes.taken
  rw [trySchedule_count placed.takes.avail (by omega)] at sum
  have occupancy := inv.occupancy
  have same := placed.occupancy
  have more : next.occupancy + 1 = total c.H next := by omega
  exact ⟨⟨placed.shape.posLt, placed.shape.left, placed.shape.sorted,
    placed.shape.far⟩, more, show next.occupancy + 1 ≤ _ by omega,
    inv.grants.grant now placed.takes⟩

theorem scheduleInternal_placed (small : 2 * c.H < 2 ^ 32)
    (inv : Inv c curCycle w granted) (ne0 : portMask ≠ 0)
    (near : max req (w.horizon c.H curCycle) + w.curPos < curCycle + 2 ^ 32) :
    Gives (scheduleInternal c true recordPort w curCycle req portMask)
      fun issued => ∃ middle next, FirstPlaced c curCycle w granted req
        portMask recordPort issued middle next := by
  have curLe := inv.shape.le_horizon
  have ends : Gives (drain c (w.horizon c.H curCycle - curCycle) curCycle w)
      fun drained => Drained c curCycle w granted (w.horizon c.H curCycle) drained.1 drained.2 :=
    drain_spec small inv (fun _ beyond => inv.shape.empty_of_horizon beyond) curLe (by omega)
  obtain ⟨⟨middle, nextCycle⟩, drains, drained⟩ := ends
  have start := drained.start
  have upTo := drained.upTo
  dsimp only at start upTo
  rw [scheduleInternal, drains]
  apply (place_spec small drained.inv.shape
    (show req + middle.curPos < nextCycle + 2 ^ 32 by omega) ne0).bind
  intro found placed
  exact .pure ⟨middle, found.content, drains, drained, placed, rfl⟩

/-- What the first slot of a uop does to the timeline. -/
theorem FirstPlaced.slots {issued : Scheduled} {middle next : Window}
    (first : FirstPlaced c curCycle w granted req portMask recordPort issued middle next) :
    slotAt c.H issued.curCycle issued.window =
      update (slotAt c.H issued.curCycle middle) issued.schedCycle
        ((slotAt c.H issued.curCycle middle issued.schedCycle).trySchedule true portMask) := by
  rw [first.window, ← first.placed.takes.taken]
  rfl

theorem scheduleInternal_first (small : 2 * c.H < 2 ^ 32)
    (inv : Inv c curCycle w granted) (ne0 : portMask ≠ 0)
    (requestLe : req ≤ bound) (horizonLe : w.horizon c.H curCycle ≤ bound)
    (near : bound + w.curPos < curCycle + 2 ^ 32) :
    Gives (scheduleInternal c true recordPort w curCycle req portMask) fun issued =>
        Issued c curCycle w granted req portMask bound issued ∧
          (recordPort = true → issued.window.lastPort = issued.port) := by
  have empties (cycle : Nat) (beyond : w.horizon c.H curCycle ≤ cycle) :
      slotAt c.H curCycle w cycle = empty :=
    inv.shape.empty_of_horizon beyond
  apply (scheduleInternal_placed small inv ne0 (by omega)).mono
  rintro issued ⟨middle, next, first⟩
  have drained := first.drained
  have takes := first.placed.takes
  have start := drained.start
  have upTo := drained.upTo
  have le := takes.le
  have isNow : issued.curCycle ≤ issued.schedCycle := (le_max_right _ _).trans le
  have few := drained.inv.grants.count_le isNow
  have takesPort := takesPort_firstAvail takes.avail
  rw [← takes.port] at takesPort
  have emptyAt : slotAt c.H issued.curCycle middle bound = empty := by
    rw [drained.slots bound (by omega)]
    exact empties bound horizonLe
  have cycleLe : issued.schedCycle ≤ bound := takes.le_of_empty ne0 (by omega) emptyAt
  refine ⟨⟨?_, ?_, isNow, cycleLe, takesPort.allowed, ?_, ?_, ?_, ?_⟩, ?_⟩
  · rw [first.window]
    exact drained.inv.issue drained.room (le_max_right _ _) _ first.placed
  · exact (le_max_left _ _).trans le
  · exact drained.inv.grants.fresh isNow takesPort.free
  · have curPos := first.placed.curPos
    rw [first.window]
    dsimp only
    omega
  · intro other now
    rw [first.slots, ← drained.slots other now]
    by_cases isCycle : other = issued.schedCycle
    · rw [isCycle, update_self, trySchedule_count takes.avail (by omega), if_pos rfl]
    · rw [update_of_ne isCycle, if_neg isCycle, add_zero]
  · intro other beyond
    rw [first.slots, update_of_ne (by omega), drained.slots other (by omega)]
    exact empties other (by omega)
  · intro isRecorded
    rw [first.window, isRecorded]
    rfl

theorem Inv.reserve (inv : Inv c curCycle w granted) (now : curCycle ≤ start)
    (placed : Placed c.H curCycle false portMask w start next cycle port) :
    Reserved c curCycle w granted next := by
  have isNow := now.trans placed.takes.le
  have sum := total_update inv.shape placed.shape isNow placed.takes.taken
  have sameCount : ((slotAt c.H curCycle w cycle).trySchedule false
      portMask).count = (slotAt c.H curCycle w cycle).count := rfl
  have occupancy := inv.occupancy
  have same := placed.occupancy
  have bounded := inv.bounded
  refine ⟨⟨placed.shape, by omega, by omega, inv.grants.reserve placed.takes⟩, ?_⟩
  intro other
  rw [placed.takes.taken]
  by_cases isCycle : other = cycle
  · rw [isCycle, update_self, sameCount]
  · rw [update_of_ne isCycle]

/-- A slot that is reserved for a cycle or a later one. -/
theorem scheduleInternal_slot (small : 2 * c.H < 2 ^ 32)
    (shape : Shape c.H curCycle w) (ne0 : portMask ≠ 0)
    (near : req + w.curPos < curCycle + 2 ^ 32) (cur : curCycle ≤ req) :
    Gives (scheduleInternal c false false w curCycle req portMask)
      fun slot => slot.curCycle = curCycle ∧
        Placed c.H curCycle false portMask w req slot.window slot.schedCycle
          slot.port := by
  apply (place_spec small shape near ne0).bind
  intro found placed
  rw [max_eq_left cur] at placed
  exact .pure ⟨rfl, placed⟩

/-- `extra`, with the cycles of the slots. -/
def extraCycles (c : WindowConfig) (curCycle : Nat) (portMask : BitVec 8) :
    Nat → Window → Nat → Except WindowFailure (Window × List Nat)
  | 0, w, _ => return (w, [])
  | extraSlots + 1, w, extraSlotCycle => do
      let slot ← scheduleInternal c false false w curCycle extraSlotCycle portMask
      let rest ← extraCycles c curCycle portMask extraSlots slot.window (slot.schedCycle + 1)
      return (rest.1, slot.schedCycle :: rest.2)

theorem extra_eq_extraCycles (extraSlots : Nat) : extra c curCycle portMask extraSlots w cycle =
      Prod.fst <$> extraCycles c curCycle portMask extraSlots w cycle := by
  induction extraSlots generalizing w cycle with
  | zero => rfl
  | succ extraSlots ih =>
    rw [extra, extraCycles]
    cases scheduleInternal c false false w curCycle cycle portMask with
    | error err => rfl
    | ok slot =>
      rw [ok_bind, ok_bind, ih]
      cases extraCycles c curCycle portMask extraSlots slot.window (slot.schedCycle + 1) with
      | error | ok => rfl

/-- Slots that are reserved one after the other. -/
inductive Reserves (H curCycle : Nat) (portMask : BitVec 8) : Window → List Nat → Window → Prop
  | done (w : Window) : Reserves H curCycle portMask w [] w
  | slot {w middle next : Window} {start cycle port : Nat} {cycles : List Nat}
      (now : curCycle ≤ start)
      (placed : Placed H curCycle false portMask w start middle cycle port)
      (rest : Reserves H curCycle portMask middle cycles next) :
      Reserves H curCycle portMask w (cycle :: cycles) next

theorem extraCycles_spec (small : 2 * c.H < 2 ^ 32)
    (extraSlots req bound : Nat) (shape : Shape c.H curCycle w)
    (ne0 : portMask ≠ 0) (requestLe : req ≤ bound) (cur : curCycle ≤ req)
    (empties : ∀ cycle, bound ≤ cycle → slotAt c.H curCycle w cycle = empty)
    (near : bound + extraSlots + w.curPos ≤ curCycle + 2 ^ 32) :
    Gives (extraCycles c curCycle portMask extraSlots w req)
      fun extras => Reserves c.H curCycle portMask w extras.2 extras.1 := by
  induction extraSlots generalizing w req bound with
  | zero => exact .pure (.done w)
  | succ extraSlots ih =>
    apply (scheduleInternal_slot small shape ne0 (by omega) cur).bind
    rintro slot ⟨-, placed⟩
    have le := placed.takes.le
    have cycleLe := placed.takes.le_of_empty ne0 requestLe (empties bound le_rfl)
    have curPos := placed.curPos
    have rest := ih (slot.schedCycle + 1) (bound + 1) placed.shape (by omega) (by omega)
      (fun cycle beyond => by
        rw [placed.takes.taken, update_of_ne (by omega)]
        exact empties cycle (by omega))
      (by omega)
    apply rest.bind
    intro extras reserves
    exact .pure (.slot cur placed reserves)

theorem Inv.reserves {cycles : List Nat} (inv : Inv c curCycle w granted)
    (reserves : Reserves c.H curCycle portMask w cycles next) :
    Reserved c curCycle w granted next := by
  induction reserves with
  | done w => exact ⟨inv, fun _ => rfl⟩
  | slot now placed rest ih =>
    have reserved := inv.reserve now placed
    have spec := ih reserved.inv
    exact ⟨spec.inv, fun cycle =>
      (spec.counts cycle).trans (reserved.counts cycle)⟩

theorem one_shiftLeft_ne_zero (lt : port < 8) : (1 : BitVec 8) <<< port ≠ 0 := by
  intro zero
  have bit := getLsbD_one_shiftLeft lt
  rw [zero] at bit
  exact Bool.false_ne_true (BitVec.getLsbD_zero.symm.trans bit)

/-- The slots after the first one. -/
theorem Issued.extraCycles (small : 2 * c.H < 2 ^ 32) {first : Scheduled} {extraSlots : Nat}
    (issued : Issued c curCycle w granted req portMask bound first)
    (records : extraSlots ≠ 0 → first.window.lastPort = first.port)
    (near : bound + extraSlots + w.curPos < curCycle + 2 ^ 32) :
    Gives (extraCycles c first.curCycle ((1 : BitVec 8) <<< first.window.lastPort)
        extraSlots first.window (first.schedCycle + 1))
      fun extras => Reserves c.H first.curCycle
        ((1 : BitVec 8) <<< first.window.lastPort) first.window extras.2
        extras.1 := by
  cases extraSlots with
  | zero => exact .pure (.done _)
  | succ extraSlots =>
    have isPort : first.window.lastPort = first.port := records (Nat.succ_ne_zero _)
    have isNew : (first.schedCycle, first.port) ∈ granted ++ [(first.schedCycle, first.port)] :=
      mem_append_right _ mem_cons_self
    have start := issued.start
    have current := issued.current
    have upTo := issued.upTo
    rw [isPort]
    exact extraCycles_spec small _ _ (bound + 1) issued.inv.shape
      (one_shiftLeft_ne_zero (issued.inv.grants.ports _ isNew)) (by omega)
      (by omega) issued.empties (by omega)

theorem schedule_spec (small : 2 * c.H < 2 ^ 32) {extraSlots : Nat}
    (inv : Inv c curCycle w granted) (ne0 : portMask ≠ 0)
    (near : max req (w.horizon c.H curCycle) + extraSlots + w.curPos < curCycle + 2 ^ 32) :
    Gives (schedule c w curCycle req portMask extraSlots) fun scheduled =>
        Inv c scheduled.curCycle scheduled.window
          (granted ++ [(scheduled.schedCycle, scheduled.port)]) ∧
        Schedules c curCycle w granted req portMask scheduled := by
  apply (scheduleInternal_first small inv ne0
    (le_max_left req (w.horizon c.H curCycle)) (le_max_right _ _) (by omega)).bind
  rintro first ⟨issued, records⟩
  have isNew : (first.schedCycle, first.port) ∈ granted ++ [(first.schedCycle, first.port)] :=
    mem_append_right _ mem_cons_self
  simp only [extra_eq_extraCycles]
  apply (issued.extraCycles small (fun more => records (decide_eq_true more))
    (by omega)).mono (fun extras reserves => issued.inv.reserves reserves)
    |>.map.bind
  intro next reserved
  refine .check reserved.inv.bounded ?_
  refine .pure ⟨reserved.inv, issued.requested, issued.current,
    issued.allowed, issued.fresh, ?_, ?_⟩
  · exact reserved.inv.grants.held _ isNew issued.current
  · intro cycle now
    exact (reserved.counts cycle).trans (issued.counts cycle now)

end Window

/-! ## Runs -/

/-- The core's window and cycle, with a history of the ports that uops got. -/
structure Issue where
  window : Window
  curCycle : Nat
  granted : List (Nat × Nat)

inductive IssueOp where
  | schedule (schedCycle : Nat) (portMask : BitVec 8) (extraSlots : Nat)
  | advancePos
  deriving DecidableEq

namespace Issue

open Window WinCycle

def initial (curCycle : Nat) : Issue := ⟨.initial, curCycle, []⟩

def step (c : WindowConfig) (issue : Issue) : IssueOp → Except WindowFailure Issue
  | .schedule schedCycle portMask extraSlots => do
      let scheduled ← issue.window.schedule c issue.curCycle schedCycle portMask extraSlots
      return ⟨scheduled.window, scheduled.curCycle,
        issue.granted ++ [(scheduled.schedCycle, scheduled.port)]⟩
  | .advancePos => do
      let window ← issue.window.advancePos c.H (issue.curCycle + 1)
      return ⟨window, issue.curCycle + 1, issue.granted⟩

/-- The uop has a port, and it stays less than 2^32 cycles away from the start of
the window. -/
def Fits (c : WindowConfig) (issue : Issue) : IssueOp → Prop
  | .schedule schedCycle portMask extraSlots =>
    portMask ≠ 0 ∧ max schedCycle (issue.window.horizon c.H issue.curCycle) + extraSlots +
        issue.window.curPos < issue.curCycle + 2 ^ 32
  | .advancePos => True

instance (c : WindowConfig) (issue : Issue) : DecidablePred (Fits c issue)
  | .schedule schedCycle portMask extraSlots =>
    inferInstanceAs (Decidable (portMask ≠ 0 ∧
      max schedCycle (issue.window.horizon c.H issue.curCycle) + extraSlots +
        issue.window.curPos < issue.curCycle + 2 ^ 32))
  | .advancePos => inferInstanceAs (Decidable True)

variable {c : WindowConfig} {issue : Issue}

def Inv (c : WindowConfig) (issue : Issue) : Prop :=
  Window.Inv c issue.curCycle issue.window issue.granted

theorem inv_initial (c : WindowConfig) (curCycle : Nat) : Inv c (initial curCycle) where
  shape := ⟨c.horizonPos, fun i before => absurd before (Nat.not_lt_zero i),
    List.Pairwise.nil, nofun⟩
  occupancy := by simp [initial, Window.initial, total, empty]
  bounded := Nat.zero_le _
  grants := by
    refine ⟨?_, nofun, nofun, List.nodup_nil⟩
    intro cycle now
    simp [initial, Window.initial, slotAt, empty]

theorem step_inv (small : 2 * c.H < 2 ^ 32) (op : IssueOp) (inv : Inv c issue)
    (fits : Fits c issue op) : Gives (step c issue op) (Inv c) := by
  cases op with
  | schedule schedCycle portMask extraSlots =>
    apply (schedule_spec small inv fits.1 fits.2).bind
    rintro scheduled ⟨after, -⟩
    exact .pure after
  | advancePos =>
    apply (inv.advance small).bind
    rintro window ⟨after, -⟩
    exact .pure after

/-- The next call of `schedule` for a uop that fits. -/
def SchedulesNext (c : WindowConfig) (issue : Issue) : Prop := ∀ schedCycle portMask extraSlots,
    Fits c issue (.schedule schedCycle portMask extraSlots) →
    Gives (issue.window.schedule c issue.curCycle schedCycle portMask extraSlots)
      (Schedules c issue.curCycle issue.window issue.granted schedCycle portMask)

/-- Every state of a run counts what is scheduled, has room for it and has
granted no port of a cycle twice. The map starts after the arrays, a rebase moves
its entries into an array that is empty, and the next uop gets a port of its own
in a cycle that is not before the requested one. -/
theorem issue_window_runs (c : WindowConfig) (small : 2 * c.H < 2 ^ 32) (curCycle : Nat)
    (ops : List IssueOp) (fits : RunMeets (step c) (Fits c) ops (initial curCycle)) :
    Gives (ops.foldlM (step c) (initial curCycle)) fun issue =>
      issue.window.occupancy =
        ∑ i ∈ Finset.Ico issue.window.curPos c.H, (issue.window.curWin i).count +
          ∑ i ∈ Finset.range c.H, (issue.window.nextWin i).count +
          (issue.window.ubWin.map fun entry => entry.2.count).sum ∧
      issue.window.occupancy ≤ c.WSZ ∧
      issue.granted.Nodup ∧
      (∀ entry ∈ issue.window.ubWin, issue.curCycle + 2 * c.H ≤ entry.1 + issue.window.curPos) ∧
      (issue.window.leave.curPos = c.H → ∀ i < c.H, issue.window.leave.swap.nextWin i = empty) ∧
      SchedulesNext c issue := by
  apply (fits.gives (fun issue op inv => step_inv small op inv) (inv_initial c curCycle)).mono
  intro issue inv
  refine ⟨inv.occupancy, inv.bounded, inv.grants.nodup, inv.shape.far, inv.shape.left_empty, ?_⟩
  intro schedCycle portMask extraSlots fitsNext
  exact (schedule_spec small inv fitsNext.1 fitsNext.2).mono fun _ spec => spec.2

/-- The window of the modelled core. -/
def nehalem : WindowConfig := ⟨1024, 36, by decide, by decide⟩

/-- Two uops compete for a port, a third one is far away. -/
def threeUops : List IssueOp := [.schedule 5 1 2, .schedule 5 3 0, .schedule 5000 32 0, .advancePos]

theorem issue_window_runs_threeUops : 2 * nehalem.H < 2 ^ 32 ∧
      RunMeets (step nehalem) (Fits nehalem) threeUops (initial 0) ∧
      Gives (threeUops.foldlM (step nehalem) (initial 0)) fun issue =>
        issue.window.occupancy ≤ nehalem.WSZ ∧ issue.granted.Nodup := by
  have fits : RunMeets (step nehalem) (Fits nehalem) threeUops (initial 0) := by decide +kernel
  have run := issue_window_runs nehalem (by decide) 0 threeUops fits
  exact ⟨by decide, fits, run.mono fun _ holds => ⟨holds.2.1, holds.2.2.1⟩⟩

/-- A uop that is requested 2^32 cycles ahead is scheduled for the current
cycle. -/
theorem far_uop_too_early : Gives (Window.initial.schedule nehalem 0 (2 ^ 32) 1 0) fun scheduled =>
      scheduled.schedCycle = 0 ∧ scheduled.schedCycle < 2 ^ 32 := by decide +kernel

end Issue

end Damov.Core
