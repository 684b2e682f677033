import Damov.Library.Checked
import Damov.Library.Counting
import Damov.Library.Runs

/-!
# Not recently used

`NRUReplPolicy` keeps two bits for each line. The high bit says that the line is
young: it was used since the lines were last aged. The lines are aged together,
when half of them are young, so the policy counts the young lines as it goes.
The victim is one of the candidates with the smallest entry.
-/

namespace Damov.Replacement

open Library Counting

/-- The policy for `numLines` lines. `candArray` has the best candidates so
far, whose entries are `candVal`. -/
structure NRUReplPolicy (numLines : Nat) where
  array : Fin numLines → Nat
  youngLines : Nat
  candVal : Nat
  candArray : List (Fin numLines)

inductive NRUFailure where
  | noCandidate
  deriving DecidableEq

namespace NRUReplPolicy

variable {numLines : Nat}

def initial (numLines : Nat) : NRUReplPolicy numLines where
  array := fun _ => 0
  youngLines := 0
  candVal := 1 <<< 20
  candArray := []

section

variable (rp : NRUReplPolicy numLines) (id : Fin numLines)

/-- The line becomes young. The counter is unsigned. -/
def touch : NRUReplPolicy numLines :=
  { rp with
    array := Function.update rp.array id (rp.array id ||| 2)
    youngLines := (rp.youngLines + (1 + 2 ^ 32 - rp.array id >>> 1)) % 2 ^ 32 }

/-- Every line loses its high bit to the low one. -/
def age : NRUReplPolicy numLines :=
  { rp with
    array := fun i => rp.array i >>> 1
    youngLines := 0 }

def update : NRUReplPolicy numLines :=
  if numLines / 2 ≤ (rp.touch id).youngLines then (rp.touch id).age
  else rp.touch id

def recordCandidate : NRUReplPolicy numLines :=
  if rp.array id < rp.candVal then
    { rp with candVal := rp.array id, candArray := [id] }
  else if rp.array id = rp.candVal then
    { rp with candArray := rp.candArray ++ [id] }
  else rp

/-- The counter serves to choose among the best candidates. -/
def getBestCandidate : Except NRUFailure (Fin numLines) :=
  match rp.candArray[rp.youngLines % rp.candArray.length]? with
  | some id => .ok id
  | none => .error .noCandidate

def replaced : NRUReplPolicy numLines :=
  { rp with
    array := Function.update rp.array id 0
    candVal := 1 <<< 20
    candArray := [] }

/-! ## Runs -/

/-- The calls of a cache array; it ranks by recording each candidate. -/
inductive Call (numLines : Nat) where
  | update (id : Fin numLines)
  | recordCandidate (id : Fin numLines)
  | replaced (id : Fin numLines)

def step : Call numLines → NRUReplPolicy numLines
  | .update id => rp.update id
  | .recordCandidate id => rp.recordCandidate id
  | .replaced id => rp.replaced id

def run (calls : List (Call numLines)) : NRUReplPolicy numLines :=
  calls.foldl step (initial numLines)

/-- The high bit of an entry. -/
def isYoung (entry : Nat) : Bool := entry &&& 2 != 0

/-- A line that is replaced is not young. -/
def ReplacesOld : Call numLines → Prop
  | .replaced id => isYoung (rp.array id) = false
  | _ => True

end

instance (rp : NRUReplPolicy numLines) (call : Call numLines) : Decidable (rp.ReplacesOld call) :=
  match call with
  | .update _ => inferInstanceAs (Decidable True)
  | .recordCandidate _ => inferInstanceAs (Decidable True)
  | .replaced id =>
    inferInstanceAs (Decidable (isYoung (rp.array id) = false))

/-! ## Entries -/

theorem isYoung_zero : isYoung 0 = false := by decide

variable {entry : Nat} {rp : NRUReplPolicy numLines}

theorem entry_touch (small : entry < 4) : entry ||| 2 < 4 ∧ isYoung (entry ||| 2) = true := by
  revert entry
  decide

theorem entry_age (small : entry < 4) : entry >>> 1 < 4 ∧ isYoung (entry >>> 1) = false := by
  revert entry
  decide

theorem entry_shift (small : entry < 4) : entry >>> 1 = if isYoung entry then 1 else 0 := by
  revert entry
  decide

/-! ## The counter -/

section

variable (rp : NRUReplPolicy numLines)

/-- How many lines are young. -/
def young : Nat := population (fun i => isYoung (rp.array i)) true

theorem young_le : rp.young ≤ numLines := by
  have bound := Finset.card_le_univ (Finset.univ.filter fun i => isYoung (rp.array i) = true)
  rwa [Fintype.card_fin] at bound

theorem isYoung_update (id : Fin numLines) (entry : Nat) :
    (fun i => isYoung (Function.update rp.array id entry i)) =
      Function.update (fun i => isYoung (rp.array i)) id (isYoung entry) :=
  Function.comp_update isYoung rp.array id entry

/-- The entries have two bits and the counter is exact. -/
structure Accounted : Prop where
  small : ∀ i, rp.array i < 4
  exact : rp.youngLines = rp.young

end

theorem accounted_initial (numLines : Nat) : Accounted (initial numLines) where
  small := fun _ => Nat.succ_pos 3
  exact := by
    have noneYoung : (initial numLines).young = 0 := population_eq_zero.mpr fun _ =>
        ne_of_eq_of_ne isYoung_zero Bool.false_ne_true
    exact noneYoung.symm

theorem small_touch (small : ∀ i, rp.array i < 4) (id i : Fin numLines) :
    (rp.touch id).array i < 4 := by
  simp only [touch, Function.update_apply]
  split
  · exact (entry_touch (small id)).1
  · exact small i

/-- A line that was not young is counted. -/
theorem young_touch (small : ∀ i, rp.array i < 4) (id : Fin numLines) :
    (rp.touch id).young + rp.array id >>> 1 = rp.young + 1 := by
  unfold young touch
  rw [isYoung_update, (entry_touch (small id)).2, entry_shift (small id)]
  cases isOld : isYoung (rp.array id) with
  | true =>
    have same : Function.update (fun i => isYoung (rp.array i)) id true =
        fun i => isYoung (rp.array i) :=
      Function.update_eq_self_iff.mpr isOld.symm
    rw [same]
    rfl
  | false =>
    rw [population_update_new (by rw [isOld]; exact Bool.false_ne_true)]
    rfl

theorem young_age (small : ∀ i, rp.array i < 4) : rp.age.young = 0 := by
  rw [young, population_eq_zero]
  intro i
  rw [age, (entry_age (small i)).2]
  exact Bool.false_ne_true

section

variable (accounted : Accounted rp)
include accounted

theorem Accounted.touch (fits : numLines < 2 ^ 32) (id : Fin numLines) :
    Accounted (rp.touch id) where
  small := small_touch accounted.small id
  exact := by
    have counted := young_touch accounted.small id
    have bound := young_le (rp.touch id)
    have shift : rp.array id >>> 1 ≤ 1 := by
      rw [entry_shift (accounted.small id)]
      split <;> omega
    change (rp.youngLines + (1 + 2 ^ 32 - rp.array id >>> 1)) % 2 ^ 32 = (rp.touch id).young
    rw [accounted.exact]
    omega

theorem Accounted.update (fits : numLines < 2 ^ 32) (id : Fin numLines) :
    Accounted (rp.update id) := by
  have touched := accounted.touch fits id
  unfold NRUReplPolicy.update
  split
  · exact {
      small := fun i => (entry_age (touched.small i)).1
      exact := (young_age touched.small).symm }
  · exact touched

theorem Accounted.recordCandidate (id : Fin numLines) : Accounted (rp.recordCandidate id) := by
  unfold NRUReplPolicy.recordCandidate
  split
  · exact ⟨accounted.small, accounted.exact⟩
  · split
    · exact ⟨accounted.small, accounted.exact⟩
    · exact accounted

theorem Accounted.replaced {id : Fin numLines} (isOld : isYoung (rp.array id) = false) :
    Accounted (rp.replaced id) where
  small := by
    intro i
    simp only [NRUReplPolicy.replaced, Function.update_apply]
    split
    · exact Nat.succ_pos 3
    · exact accounted.small i
  exact := by
    have same : Function.update (fun i => isYoung (rp.array i)) id
        (isYoung 0) = fun i => isYoung (rp.array i) :=
      Function.update_eq_self_iff.mpr isOld.symm
    unfold young NRUReplPolicy.replaced
    rw [isYoung_update, same]
    exact accounted.exact

theorem Accounted.step (fits : numLines < 2 ^ 32) {call : Call numLines}
    (old : rp.ReplacesOld call) :
    Accounted (rp.step call) := by
  cases call with
  | update id => exact accounted.update fits id
  | recordCandidate id => exact accounted.recordCandidate id
  | replaced id => exact accounted.replaced old

/-- After an update the lines were aged or fewer than half of them are young. -/
theorem Accounted.young_update (fits : numLines < 2 ^ 32) (id : Fin numLines) :
    (rp.update id).young < max 1 (numLines / 2) := by
  have touched := accounted.touch fits id
  unfold NRUReplPolicy.update
  split
  case isTrue many =>
    rw [young_age touched.small]
    omega
  case isFalse few =>
    rw [touched.exact] at few
    omega

end

/-- If the lines that are replaced are not young, the counter of young lines is
exact in every run, the entries stay below 4, and after each update fewer than
half of the lines are young, or none. -/
theorem young_lines_accounted
    (numLines : Nat) (calls : List (Call numLines)) (fits : numLines < 2 ^ 32)
    (old : Along step ReplacesOld calls (initial numLines)) :
    (run calls).youngLines = (run calls).young ∧
    (∀ i, (run calls).array i < 4) ∧
    ∀ id, (run (calls ++ [.update id])).young < max 1 (numLines / 2) := by
  have accounted : Accounted (run calls) := old.invariant (fun _ _ accounted => accounted.step fits)
      (accounted_initial numLines)
  refine ⟨accounted.exact, accounted.small, ?_⟩
  intro id
  rw [run, List.foldl_append]
  exact accounted.young_update fits id

/-- Two of eight lines are used and an old one is replaced. -/
theorem young_lines_accounted_eight :
    (run [.update 0, .update 1, .replaced (2 : Fin 8)]).youngLines = 2 ∧
    (run [.update 0, .update 1, .replaced (2 : Fin 8)]).youngLines =
      (run [.update 0, .update 1, .replaced (2 : Fin 8)]).young :=
  ⟨by decide, (young_lines_accounted 8 [.update 0, .update 1, .replaced 2] (by decide)
      (by decide)).1⟩

/-- A young line that is replaced stays in the count. -/
theorem replaced_line_counted : (run [.update 0, .replaced (0 : Fin 8)]).youngLines = 1 ∧
    (run [.update 0, .replaced (0 : Fin 8)]).young = 0 := by decide

end NRUReplPolicy

end Damov.Replacement
