import Damov.DDR.Channel
import Damov.Library.Rings
import Mathlib.Data.List.Sort

/-!
# Activation windows of any size

The window keeps the last activations of a rank in a ring and puts a new one in
its place among them. The ring then holds the largest activations in order,
unless the new one is older than all that stay: then the walk goes on past the
slot that it has already filled, and moves that one again.
-/

namespace Damov.DDR

open Library Checked Function List

namespace RankWindow

variable {win : RankWindow} {values : List Nat} {act : Nat}

/-- The activations, the largest first; those that are not kept have no slot. -/
def Keeps (size : Nat) (acts : List Nat) (win : RankWindow) : Prop :=
  win.size = size ∧ ∃ values, values.Perm acts ∧
    values.Pairwise (· ≥ ·) ∧ RingHolds size 0 win.buf win.idx values

/-- The slot that the walk visits after so many moves. -/
def walked (win : RankWindow) (moves : Nat) : Nat :=
  if moves ≤ win.idx then win.idx - moves
  else win.idx + win.size - moves

/-- The walk after so many moves, each of a larger activation. -/
structure Walk (win : RankWindow) (values : List Nat) (act : Nat)
    (buf : Nat → Nat) (moves : Nat) : Prop where
  lt : moves < win.size
  slots : ∀ i < win.size, buf (win.walked i) =
    if i < moves then values[i]?.getD 0 else win.buf (win.walked i)
  larger : ∀ i < moves, act < values[i]?.getD 0

section

variable (holds : RingHolds win.size 0 win.buf win.idx values)
include holds

/-- The walk ends before it is back at its start. -/
theorem Walk.run {buf : Nat → Nat} {moves fuel : Nat}
    (walk : Walk win values act buf moves) (enough : win.size ≤ fuel + moves)
    (least : values[win.size - 2]?.getD 0 ≤ act) :
    ∃ made, values[made]?.getD 0 ≤ act ∧
      let room := win.makeRoom act fuel buf (win.walked moves)
      room.2 = win.walked made ∧ Walk win values act room.1 made := by
  obtain ⟨lt, slots, larger⟩ := walk
  have inside := holds.inside
  induction fuel generalizing buf moves with
  | zero => omega
  | succ fuel ih =>
    -- the slot at the start of the walk is not read again
    have next : win.dec (win.walked moves) = win.walked (moves + 1) := by
      grind [dec, walked]
    have back : buf (win.walked (moves + 1)) = values[moves]?.getD 0 := by
      grind [walked, slotBack, holds.slots moves lt]
    rw [makeRoom, next, back]
    by_cases isLarger : act < values[moves]?.getD 0
    · have more : moves + 1 < win.size := by grind
      rw [if_pos isLarger, if_neg (by grind [walked])]
      apply ih (by omega) more
      · grind [walked, update_apply]
      · grind
    · rw [if_neg isLarger]
      exact ⟨moves, by omega, rfl, lt, slots, larger⟩

theorem addActivation_keeps {acts : List Nat} (perm : values.Perm acts)
    (ordered : values.Pairwise (· ≥ ·)) (kept : win.minActCycle ≤ act)
    (least : win.buf (win.inc win.idx) ≤ act) :
    Gives (win.addActivation act) (Keeps win.size (acts ++ [act])) := by
  have inside := holds.inside
  have second : values[win.size - 2]?.getD 0 ≤ act := by
    rw [← holds.slots _ (by omega)]
    convert least using 2
    grind [slotBack, inc]
  have start : Walk win values act win.buf 0 := ⟨by omega, by simp, by simp⟩
  obtain ⟨made, below, isCur, lt, slots, larger⟩ := start.run holds le_rfl second
  rw [show win.walked 0 = win.idx from rfl] at isCur slots
  have short : made ≤ values.length := by
    by_contra long
    have := larger values.length (by omega)
    simp at this
  refine .check kept ?_
  refine .pure ⟨rfl, values.take made ++ act :: values.drop made, ?_, ?_, ?_⟩
  · refine perm_middle.trans ?_
    rw [take_append_drop]
    exact (perm.cons act).trans (perm_append_singleton act acts).symm
  · have before (value) (mem : value ∈ values.take made) : act ≤ value := by
      obtain ⟨i, young, rfl⟩ := mem_take_iff_getElem.mp mem
      grind
    have after (value) (mem : value ∈ values.drop made) : value ≤ act := by
      obtain ⟨i, young, rfl⟩ := mem_drop_iff_getElem.mp mem
      have := pairwise_iff_getElem.mp ordered made (made + i)
      grind
    have parts := ordered
    rw [← values.take_append_drop made, pairwise_append] at parts
    rw [pairwise_append, pairwise_cons]
    exact ⟨parts.1, ⟨after, parts.2.1⟩, fun value mem =>
      forall_mem_cons.mpr ⟨before value mem, parts.2.2 value mem⟩⟩
  · refine ⟨by grind [inc], fun age (young : age < win.size) => ?_⟩
    have slot : slotBack win.size (win.inc win.idx) age = win.walked age := by
      grind [slotBack, inc, walked]
    dsimp only
    rw [slot, update_apply, isCur, slots age young]
    rcases lt_trichotomy age made with less | rfl | more
    · rw [if_neg (by grind [walked]), if_pos less,
        getElem?_append_left (by simp; omega), getElem?_take_of_lt less]
    · simp [short]
    · obtain ⟨left, rfl⟩ := Nat.exists_eq_add_of_lt more
      have older : win.walked (made + left + 1) = slotBack win.size win.idx (made + left) := by
        grind [walked, slotBack]
      rw [if_neg (by grind [walked]), older, holds.slots _ (by omega),
        getElem?_append_right (by simp; omega)]
      simp [short, add_assoc]

end

/-- No activation is older than all those that stay in the window. -/
abbrev Late (win : RankWindow) (act : Nat) : Prop :=
  win.minActCycle ≤ act ∧ win.buf (win.inc win.idx) ≤ act

theorem Keeps.run {past acts : List Nat} (keeps : Keeps win.size past win)
    (late : RunMeets addActivation Late acts win) :
    Gives (acts.foldlM addActivation win) (Keeps win.size (past ++ acts)) := by
  induction acts generalizing win past with
  | nil => simpa using Gives.pure keeps
  | cons act acts ih =>
    obtain ⟨-, values, perm, ordered, holds⟩ := keeps
    apply ((addActivation_keeps holds perm ordered late.1.1 late.1.2).and_ifReturns late.2).bind
    rintro next ⟨⟨same, kept⟩, meets⟩
    rw [append_cons, ← same]
    exact ih ⟨rfl, same ▸ kept⟩ meets

/-- The window holds the largest activations in order, so that its first slot
has the smallest of them. -/
theorem window_keeps_largest (size : Nat) (positive : 0 < size) (acts : List Nat)
    (late : RunMeets addActivation Late acts (init size)) :
    Gives (acts.foldlM addActivation (init size)) (Keeps size acts) :=
  Keeps.run ⟨rfl, [], .nil, .nil, .empty positive⟩ late

theorem window_keeps_largest_three :
    Gives ([5, 10, 7].foldlM addActivation (init 3)) (Keeps 3 [5, 10, 7]) :=
  window_keeps_largest 3 (by decide) _ (by decide)

/-- The second activation is older than the first, which stays: the slots are
out of order, and the check is made against the larger one. -/
theorem window_out_of_order : Gives ([10, 5].foldlM addActivation (init 2)) fun win =>
      win.idx = 0 ∧ win.buf 0 = 10 ∧ win.buf 1 = 5 := by decide

end RankWindow

end Damov.DDR
