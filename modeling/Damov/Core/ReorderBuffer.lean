import Damov.Library.Rings
import Damov.Library.Runs
import Mathlib.Data.List.Forall2
import Mathlib.Data.List.Induction

/-!
# The reorder buffer

`ReorderBuffer` assigns a retire cycle to each uop, in program order. Uops that
could retire at the current retire cycle or before are retired with its bundle,
of at most `W` uops. The last `SZ` retire cycles are kept in a ring buffer.
-/

namespace Damov.Core

open Library Function List

/-- The template parameters. -/
structure RobConfig where
  SZ : Nat
  W : Nat
  sizePos : 0 < SZ
  widthPos : 0 < W

structure ReorderBuffer where
  buf : Nat → Nat
  curRetireCycle : Nat
  curCycleRetires : Nat
  idx : Nat

namespace ReorderBuffer

def initial : ReorderBuffer where
  buf := fun _ => 0
  curRetireCycle := 0
  curCycleRetires := 1
  idx := 0

def minAllocCycle (rob : ReorderBuffer) : Nat := rob.buf rob.idx

section

variable (c : RobConfig)

/-- The retire cycle of a uop, and how many uops it then counts for. -/
def advance (rob : ReorderBuffer) (minRetireCycle : Nat) : Nat × Nat :=
  if minRetireCycle ≤ rob.curRetireCycle then
    if rob.curCycleRetires = c.W then (rob.curRetireCycle + 1, 0)
    else (rob.curRetireCycle, rob.curCycleRetires + 1)
  else (minRetireCycle, 1)

def markRetire (rob : ReorderBuffer) (minRetireCycle : Nat) :
    ReorderBuffer :=
  let next := rob.advance c minRetireCycle
  { buf := update rob.buf rob.idx next.1
    curRetireCycle := next.1
    curCycleRetires := next.2
    idx := if rob.idx + 1 = c.SZ then 0 else rob.idx + 1 }

/-! ## Runs -/

/-- A buffer with the retire cycles that it has assigned, the newest first. -/
structure Run where
  rob : ReorderBuffer
  cycles : List Nat

def Run.mark (run : Run) (minRetireCycle : Nat) : Run :=
  let rob := run.rob.markRetire c minRetireCycle
  ⟨rob, rob.curRetireCycle :: run.cycles⟩

def run (calls : List Nat) : Run := calls.foldl (Run.mark c) ⟨initial, []⟩

/-- A uop that is to retire with the current bundle finds room in it. -/
def HasRoom (run : Run) (minRetireCycle : Nat) : Prop :=
  minRetireCycle ≤ run.rob.curRetireCycle → run.rob.curCycleRetires ≠ c.W

end

instance (c : RobConfig) (run : Run) (minRetireCycle : Nat) :
    Decidable (HasRoom c run minRetireCycle) :=
  inferInstanceAs (Decidable (_ → _))

/-! ## Retire cycles -/

variable {c : RobConfig} {rob : ReorderBuffer}

theorem le_advance (minRetireCycle : Nat) :
    rob.curRetireCycle ≤ (rob.advance c minRetireCycle).1 := by
  unfold advance
  split
  · split
    · exact Nat.le_succ _
    · exact Nat.le_refl _
  · omega

theorem minRetireCycle_le_advance (minRetireCycle : Nat) :
    minRetireCycle ≤ (rob.advance c minRetireCycle).1 := by
  unfold advance
  split
  · split
    · exact Nat.le_succ_of_le (by assumption)
    · assumption
  · exact Nat.le_refl _

/-- What holds of every run: the cycles never decrease, and the ring buffer has
the last ones. -/
structure Ordered (c : RobConfig) (run : Run) : Prop where
  current : ∀ cycle ∈ run.cycles, cycle ≤ run.rob.curRetireCycle
  sorted : run.cycles.Pairwise (· ≥ ·)
  ring : RingHolds c.SZ 0 run.rob.buf run.rob.idx run.cycles

theorem ordered_initial (c : RobConfig) : Ordered c ⟨initial, []⟩ where
  current := nofun
  sorted := List.Pairwise.nil
  ring := RingHolds.empty c.sizePos

theorem Ordered.mark {run : Run} (ordered : Ordered c run)
    (minRetireCycle : Nat) : Ordered c (run.mark c minRetireCycle) where
  current := by
    intro cycle mem
    obtain rfl | mem := mem_cons.mp mem
    · exact Nat.le_refl _
    · exact Nat.le_trans (ordered.current cycle mem) (le_advance minRetireCycle)
  sorted := by
    refine List.Pairwise.cons ?_ ordered.sorted
    intro cycle mem
    exact Nat.le_trans (ordered.current cycle mem) (le_advance minRetireCycle)
  ring := ordered.ring.write _

theorem run_append (calls : List Nat) (minRetireCycle : Nat) :
    run c (calls ++ [minRetireCycle]) = (run c calls).mark c minRetireCycle := by
  rw [run, foldl_append]
  rfl

/-- Every uop retires when it may, or later. -/
theorem le_cycles (c : RobConfig) (calls : List Nat) :
    List.Forall₂ (· ≤ ·) calls.reverse (run c calls).cycles := by
  induction calls using reverseRecOn with
  | nil => exact List.Forall₂.nil
  | append_singleton calls minRetireCycle ih =>
    rw [run_append, reverse_concat]
    exact List.Forall₂.cons (minRetireCycle_le_advance minRetireCycle) ih

/-! ## Retire bandwidth -/

/-- No cycle has more uops than the width, and the current one no more than
were counted. -/
structure Narrow (c : RobConfig) (run : Run) : Prop where
  ordered : Ordered c run
  counted : run.cycles.count run.rob.curRetireCycle ≤ run.rob.curCycleRetires
  room : run.rob.curCycleRetires ≤ c.W
  width : ∀ cycle, run.cycles.count cycle ≤ c.W

theorem narrow_initial (c : RobConfig) : Narrow c ⟨initial, []⟩ where
  ordered := ordered_initial c
  counted := Nat.zero_le _
  room := c.widthPos
  width := fun _ => Nat.zero_le _

/-- One more uop in the current cycle, or the first one of a later cycle. -/
theorem Narrow.cons {run : Run} (narrow : Narrow c run) {cycle retires : Nat}
    (counted : run.cycles.count cycle + 1 ≤ retires) (room : retires ≤ c.W)
    (other : Nat) : (cycle :: run.cycles).count other ≤ c.W := by
  by_cases same : other = cycle
  · subst same
    rw [count_cons_self]
    omega
  · rw [count_cons_of_ne (Ne.symm same)]
    exact narrow.width other

theorem Ordered.count_later {run : Run} (ordered : Ordered c run) {cycle : Nat}
    (later : run.rob.curRetireCycle < cycle) : run.cycles.count cycle = 0 := by
  apply count_eq_zero_of_not_mem
  intro mem
  have before := ordered.current cycle mem
  omega

theorem Narrow.counted_advance {run : Run} (narrow : Narrow c run)
    {minRetireCycle : Nat} (hasRoom : HasRoom c run minRetireCycle) :
    run.cycles.count (run.rob.advance c minRetireCycle).1 + 1 ≤
      (run.rob.advance c minRetireCycle).2 ∧
    (run.rob.advance c minRetireCycle).2 ≤ c.W := by
  have counted := narrow.counted
  have room := narrow.room
  unfold advance
  split
  case isTrue early =>
    have notFull := hasRoom early
    rw [if_neg notFull]
    dsimp only
    omega
  case isFalse late =>
    rw [narrow.ordered.count_later (Nat.lt_of_not_le late)]
    exact ⟨Nat.le_refl 1, c.widthPos⟩

theorem Narrow.mark {run : Run} (narrow : Narrow c run) {minRetireCycle : Nat}
    (hasRoom : HasRoom c run minRetireCycle) :
    Narrow c (run.mark c minRetireCycle) := by
  obtain ⟨counted, room⟩ := narrow.counted_advance hasRoom
  exact {
    ordered := narrow.ordered.mark minRetireCycle
    counted := by
      change count (run.rob.advance c minRetireCycle).1
        ((run.rob.advance c minRetireCycle).1 :: run.cycles) ≤ _
      rwa [count_cons_self]
    room
    width := narrow.cons counted room }

theorem run_ordered (c : RobConfig) (calls : List Nat) : Ordered c (run c calls) := by
  induction calls using reverseRecOn with
  | nil => exact ordered_initial c
  | append_singleton calls minRetireCycle ih =>
    rw [run_append]
    exact ih.mark minRetireCycle

/-- The retire cycles never decrease, none is before the cycle at which its uop may
retire, and a uop can be allocated when the one `SZ` before it has retired. If every
uop that is to retire with a bundle finds room in it, then at most `W` uops retire in
a cycle. -/
theorem retire_bandwidth (c : RobConfig) (calls : List Nat) :
    (run c calls).cycles.reverse.Pairwise (· ≤ ·) ∧
    List.Forall₂ (· ≤ ·) calls (run c calls).cycles.reverse ∧
    (run c calls).rob.minAllocCycle = (run c calls).cycles[c.SZ - 1]?.getD 0 ∧
    (Along (Run.mark c) (HasRoom c) calls ⟨initial, []⟩ →
      ∀ cycle, (run c calls).cycles.count cycle ≤ c.W) := by
  have ordered := run_ordered c calls
  refine ⟨?_, ?_, ordered.ring.oldest, fun roomy => ?_⟩
  · rw [pairwise_reverse]
    exact ordered.sorted
  · have late := rel_reverse (le_cycles c calls)
    rwa [reverse_reverse] at late
  · have narrow : Narrow c (run c calls) :=
      roomy.invariant (fun _ _ narrow => narrow.mark) (narrow_initial c)
    exact narrow.width

/-- The reorder buffer of a core. -/
def coreRob : RobConfig where
  SZ := 128
  W := 4
  sizePos := Nat.succ_pos 127
  widthPos := Nat.succ_pos 3

/-- Three uops that may retire at cycle 5, and one at cycle 7. -/
theorem retire_bandwidth_four :
    Along (Run.mark coreRob) (HasRoom coreRob) [5, 5, 3, 7] ⟨initial, []⟩ ∧
    ∀ cycle, (run coreRob [5, 5, 3, 7]).cycles.count cycle ≤ 4 :=
  ⟨by decide, (retire_bandwidth coreRob [5, 5, 3, 7]).2.2.2 (by decide)⟩

/-- The uop that opens a new bundle is not counted, so the bundle takes one uop
too many. -/
theorem five_retire_together : (run coreRob [0, 0, 0, 0, 0, 0, 0, 0]).cycles.count 1 = 5 ∧
    coreRob.W = 4 := by decide

end ReorderBuffer

end Damov.Core
