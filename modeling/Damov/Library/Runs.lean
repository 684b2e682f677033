import Damov.Library.Checked
import Mathlib.Logic.Basic

/-!
# Runs, histories and loops

A system that takes one step for each operation of a list. `Along` says that
every step of the run meets a condition on the state before it. `Historic` says
of a list, the newest entry first, that every entry is judged right against the
older ones.

A loop goes on as long as a condition holds and then leaves with a last action.
The condition and the body may fail. `loop` bounds the turns, and `LoopsTo` is the
outcome of the loop without a bound.
-/

namespace Damov.Library

universe u v

variable {σ : Type u} {τ : Type v} {step : σ → τ → σ} {condition : σ → τ → Prop}

/-- Every step of the run meets the condition. -/
def Along (step : σ → τ → σ) (condition : σ → τ → Prop) : List τ → σ → Prop
  | [], _ => True
  | op :: ops, state => condition state op ∧ Along step condition ops (step state op)

instance Along.decidable [∀ state op, Decidable (condition state op)] :
    (ops : List τ) → (state : σ) → Decidable (Along step condition ops state)
  | [], _ => inferInstanceAs (Decidable True)
  | op :: ops, state =>
    @instDecidableAnd _ _ _ (Along.decidable ops (step state op))

namespace Along

/-- What the steps that meet the condition keep holds after the run. -/
theorem invariant {holds : σ → Prop} {ops : List τ} {state : σ}
    (along : Along step condition ops state)
    (preserved : ∀ state op, holds state → condition state op → holds (step state op))
    (initially : holds state) :
    holds (ops.foldl step state) := by
  induction ops generalizing state with
  | nil => exact initially
  | cons op ops ih =>
    exact ih along.2 (preserved state op initially along.1)

end Along

variable {α : Type u}

/-- Every entry is judged right against the older ones. -/
def Historic (judged : α → List α → Prop) : List α → Prop
  | [] => True
  | entry :: older => judged entry older ∧ Historic judged older

end Damov.Library

namespace Damov.Library.Loops

universe u

variable {ε σ : Type u} {going : σ → Except ε Bool} {turn : σ → Except ε σ}
variable {leave : σ → σ} {stuck : ε}

/-- The loop with a bound on its turns. -/
def loop (going : σ → Except ε Bool) (turn : σ → Except ε σ) (leave : σ → σ)
    (stuck : ε) : Nat → σ → Except ε σ
  | turns, state =>
    match going state with
    | .error failure => .error failure
    | .ok false => .ok (leave state)
    | .ok true =>
      match turns with
      | 0 => .error stuck
      | turns + 1 =>
        match turn state with
        | .error failure => .error failure
        | .ok next => loop going turn leave stuck turns next

/-- The loop ends in a state after so many turns. -/
inductive LoopsTo (going : σ → Except ε Bool) (turn : σ → Except ε σ)
    (leave : σ → σ) : Nat → σ → σ → Prop where
  | stop {state : σ} (stops : going state = .ok false) :
      LoopsTo going turn leave 0 state (leave state)
  | turn {state next last : σ} {turns : Nat} (goes : going state = .ok true)
      (turned : turn state = .ok next)
      (rest : LoopsTo going turn leave turns next last) :
      LoopsTo going turn leave (turns + 1) state last

variable {turns : Nat} {state last : σ}

theorem LoopsTo.loop {more : Nat}
    (loops : LoopsTo going turn leave turns state last) (le : turns ≤ more) :
    loop going turn leave stuck more state = .ok last := by
  induction loops generalizing more with
  | stop stops =>
    unfold Loops.loop
    rw [stops]
  | turn goes turned rest ih =>
    cases more with
    | zero => exact absurd le (Nat.not_succ_le_zero _)
    | succ more =>
      unfold Loops.loop
      rw [goes]
      simp only [turned]
      exact ih (Nat.le_of_succ_le_succ le)

theorem loopsTo_of_loop (returns : loop going turn leave stuck turns state = .ok last) :
    ∃ made, LoopsTo going turn leave made state last := by
  induction turns generalizing state with
  | zero =>
    unfold loop at returns
    cases goes : going state with
    | error err => simp [goes] at returns
    | ok flag =>
      cases flag with
      | true => simp [goes] at returns
      | false =>
        simp only [goes, Except.ok.injEq] at returns
        exact ⟨0, returns ▸ .stop goes⟩
  | succ turns ih =>
    unfold loop at returns
    cases goes : going state with
    | error err => simp [goes] at returns
    | ok flag =>
      cases flag with
      | true =>
        cases turned : turn state with
        | error err => simp [goes, turned] at returns
        | ok next =>
          simp only [goes, turned] at returns
          obtain ⟨made, rest⟩ := ih returns
          exact ⟨made + 1, .turn goes turned rest⟩
      | false =>
        simp only [goes, Except.ok.injEq] at returns
        exact ⟨0, returns ▸ .stop goes⟩

theorem LoopsTo.unique {turns' : Nat} {last' : σ}
    (first : LoopsTo going turn leave turns state last)
    (second : LoopsTo going turn leave turns' state last') : last = last' := by
  induction first generalizing turns' with
  | stop stops =>
    cases second with
    | stop _ => rfl
    | turn goes _ _ =>
      rw [stops] at goes
      exact nomatch goes
  | turn goes turned rest ih =>
    cases second with
    | stop stops =>
      rw [stops] at goes
      exact nomatch goes
    | turn _ turnedToo restToo =>
      rw [turned] at turnedToo
      cases turnedToo
      exact ih restToo

/-- An invariant that the turns keep holds at the end of the loop, where the
condition does not hold any more. -/
theorem LoopsTo.invariant {inv : σ → Prop}
    (keeps : ∀ state next, inv state → going state = .ok true → turn state = .ok next → inv next)
    (loops : LoopsTo going turn leave turns state last) (holds : inv state) :
    ∃ final, inv final ∧ going final = .ok false ∧ last = leave final := by
  induction loops with
  | stop stops => exact ⟨_, holds, stops, rfl⟩
  | turn goes turned rest ih =>
    exact ih (keeps _ _ holds goes turned)

end Damov.Library.Loops
