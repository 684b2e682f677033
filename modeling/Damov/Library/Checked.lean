import Mathlib.Data.List.Basic

/-!
# Computations that check assertions

A checked computation either returns a value or stops at the first assertion
that does not hold and names it. `Gives` is the total-correctness triple of
such a computation: it returns, and its value satisfies the postcondition. The
rules below follow the shape of the program, one rule for each way to build a
computation, so a specification is proved by applying the rule of the next
statement.

`Ends` allows a computation to stop as well, but only at assertions for which that
is expected. With no expected failure this is `Gives`.
-/

namespace Damov.Library.Checked

universe u v

variable {ε : Type u} {α β : Type v}

/-- Stop with `failure` unless the condition holds. -/
def check (condition : Prop) [Decidable condition] (failure : ε) : Except ε PUnit.{v + 1} :=
  if condition then .ok ⟨⟩ else .error failure

variable {condition : Prop}

@[simp]
theorem check_true [Decidable condition] (err : ε) (holds : condition) :
    (check condition err : Except ε PUnit.{v + 1}) = .ok ⟨⟩ := by simp [check, holds]

@[simp]
theorem ok_bind (value : α) (next : α → Except ε β) : (Except.ok value >>= next) = next value := rfl

@[simp]
theorem error_bind (failure : ε) (next : α → Except ε β) :
    ((Except.error failure : Except ε α) >>= next) = .error failure :=
  rfl

theorem check_true_bind [Decidable condition] {err : ε}
    {next : PUnit.{v + 1} → Except ε β} (holds : condition) :
    (check condition err >>= next) = next ⟨⟩ := by
  rw [check_true err holds, ok_bind]

/-- The computation of a part, whose failures are failures of the whole. -/
def within {ε' : Type u} (translate : ε → ε') : Except ε α → Except ε' α
  | .ok value => .ok value
  | .error failure => .error (translate failure)

/-- What a sequence has returned comes from both of its parts. -/
theorem of_bind_eq_ok {comp : Except ε α} {next : α → Except ε β}
    {result : β} (returns : (comp >>= next) = .ok result) :
    ∃ value, comp = .ok value ∧ next value = .ok result := by
  cases comp with
  | error err => cases returns
  | ok value => exact ⟨value, rfl, returns⟩

theorem of_check_bind_eq_ok [Decidable condition] {err : ε}
    {next : PUnit.{v + 1} → Except ε β} {result : β}
    (returns : (check condition err >>= next) = .ok result) :
    condition ∧ next ⟨⟩ = .ok result := by
  by_cases holds : condition
  · rw [check_true_bind holds] at returns
    exact ⟨holds, returns⟩
  · rw [check, if_neg holds] at returns
    cases returns

/-- The computation returns, and its value satisfies the postcondition. -/
def Gives (computation : Except ε α) (post : α → Prop) : Prop :=
  ∃ value, computation = .ok value ∧ post value

instance {computation : Except ε α} {post : α → Prop} [DecidablePred post] :
    Decidable (Gives computation post) :=
  match computation with
  | .ok value => decidable_of_iff (post value) (by simp [Gives])
  | .error _ => isFalse (by simp [Gives])

namespace Gives

theorem ok {value : α} {post : α → Prop} (holds : post value) :
    Gives (.ok value : Except ε α) post :=
  ⟨value, rfl, holds⟩

theorem pure {value : α} {post : α → Prop} (holds : post value) :
    Gives (Pure.pure value : Except ε α) post :=
  ⟨value, rfl, holds⟩

variable {comp : Except ε α} {post : β → Prop}

theorem mono {weak strong : α → Prop} (gives : Gives comp strong)
    (implies : ∀ value, strong value → weak value) :
    Gives comp weak := by
  obtain ⟨value, returns, holds⟩ := gives
  exact ⟨value, returns, implies value holds⟩

/-- A computation returns one value. -/
theorem and {first second : α → Prop} (gives : Gives comp first) (alsoGives : Gives comp second) :
    Gives comp fun value => first value ∧ second value := by
  obtain ⟨value, returns, holds⟩ := gives
  obtain ⟨other, alsoReturns, alsoHolds⟩ := alsoGives
  cases returns.symm.trans alsoReturns
  exact ⟨value, returns, holds, alsoHolds⟩

theorem map {f : α → β} (gives : Gives comp fun value => post (f value)) :
    Gives (f <$> comp) post := by
  obtain ⟨value, rfl, holds⟩ := gives
  exact ok holds

theorem bind {next : α → Except ε β} {middle : α → Prop} (first : Gives comp middle)
    (second : ∀ value, middle value → Gives (next value) post) :
    Gives (comp >>= next) post := by
  obtain ⟨value, returns, holds⟩ := first
  rw [returns]
  exact second value holds

/-- The shape that `do` gives to a conditional in front of further code. -/
theorem ite_bind {condition : Prop} [Decidable condition]
    {yes no : Except ε α} {next : α → Except ε β} {middle : α → Prop}
    (first : Gives (if condition then yes else no) middle)
    (second : ∀ value, middle value → Gives (next value) post) :
    Gives (if condition then yes >>= next else no >>= next) post := by
  rw [← apply_ite (fun comp => comp >>= next)]
  exact first.bind second

theorem check {condition : Prop} [Decidable condition] {err : ε}
    {next : PUnit → Except ε β} (holds : condition) (second : Gives (next ⟨⟩) post) :
    Gives (check condition err >>= next) post := by
  rwa [check_true err holds]

/-- A computation that succeeds does not use its failures. -/
theorem within {ε' : Type u} {translate : ε → ε'} {post : α → Prop} (gives : Gives comp post) :
    Gives (Checked.within translate comp) post := by
  obtain ⟨value, rfl, holds⟩ := gives
  exact ok holds

/--
A loop succeeds when every iteration does. The invariant sees the elements
that were already visited and those that are still to come.
-/
theorem foldlM {body : β → α → Except ε β} (inv : List α → List α → β → Prop)
    (iteration : ∀ visited elem rest accumulator, inv visited (elem :: rest) accumulator →
        Gives (body accumulator elem) (inv (visited ++ [elem]) rest))
    (elems : List α) (start : β) (initially : inv [] elems start) :
    Gives (elems.foldlM body start) (inv elems []) := by
  suffices general : ∀ rest visited accumulator, inv visited rest accumulator →
        Gives (rest.foldlM body accumulator) (inv (visited ++ rest) []) by
    simpa using general elems [] start initially
  intro rest
  induction rest with
  | nil =>
    intro visited accumulator holds
    simpa using Gives.pure (ε := ε) holds
  | cons elem rest ih =>
    intro visited accumulator holds
    apply (iteration visited elem rest accumulator holds).bind
    intro next nextHolds
    simpa using ih (visited ++ [elem]) next nextHolds

end Gives

/-- The postcondition holds if the computation returns. -/
def IfReturns (computation : Except ε α) (post : α → Prop) : Prop :=
  match computation with
  | .ok value => post value
  | .error _ => True

instance {computation : Except ε α} {post : α → Prop} [DecidablePred post] :
    Decidable (IfReturns computation post) :=
  match computation with
  | .ok value => inferInstanceAs (Decidable (post value))
  | .error _ => inferInstanceAs (Decidable True)

theorem Gives.and_ifReturns {comp : Except ε α}
    {post other : α → Prop} (gives : Gives comp post) (holds : IfReturns comp other) :
    Gives comp (fun value => post value ∧ other value) := by
  obtain ⟨value, returns, postHolds⟩ := gives
  rw [returns] at holds
  exact ⟨value, returns, postHolds, holds⟩

/-! ## Runs -/

section Runs

variable {σ : Type v} {τ : Type u} {stepOf : σ → τ → Except ε σ}
variable {condition : σ → τ → Prop}

/-- Every step of a run meets a condition on the state it starts in. -/
def RunMeets (stepOf : σ → τ → Except ε σ) (condition : σ → τ → Prop) : List τ → σ → Prop
  | [], _ => True
  | op :: ops, state =>
    condition state op ∧ IfReturns (stepOf state op) (RunMeets stepOf condition ops)

instance decidableRunMeets [∀ state, DecidablePred (condition state)] :
    (ops : List τ) → DecidablePred (RunMeets stepOf condition ops)
  | [], _ => inferInstanceAs (Decidable True)
  | op :: ops, state =>
    have := decidableRunMeets ops
    inferInstanceAs (Decidable (condition state op ∧
          IfReturns (stepOf state op) (RunMeets stepOf condition ops)))

/-- An invariant of the steps that meet the condition is one of their runs. -/
theorem RunMeets.gives
    {invariant : σ → Prop} (preserved : ∀ state op, invariant state → condition state op →
      Gives (stepOf state op) invariant)
    {ops : List τ} {state : σ} (meets : RunMeets stepOf condition ops state)
    (initially : invariant state) :
    Gives (ops.foldlM stepOf state) invariant := by
  induction ops generalizing state with
  | nil => exact .pure initially
  | cons op ops ih =>
    apply ((preserved state op initially meets.1).and_ifReturns meets.2).bind
    rintro next ⟨holds, meetsNext⟩
    exact ih meetsNext holds

/-- Conditions that agree where an invariant holds, which they keep. -/
theorem RunMeets.congr {other : σ → τ → Prop} {invariant : σ → Prop}
    (agree : ∀ state op, invariant state → (condition state op ↔ other state op))
    (keeps : ∀ state op, invariant state → condition state op →
      IfReturns (stepOf state op) invariant)
    {ops : List τ} {state : σ} (initially : invariant state) :
    RunMeets stepOf condition ops state ↔ RunMeets stepOf other ops state := by
  induction ops generalizing state with
  | nil => rfl
  | cons op ops ih =>
    rw [RunMeets, RunMeets, ← agree state op initially]
    refine and_congr_right fun now => ?_
    have next := keeps state op initially now
    cases result : stepOf state op with
    | error err => rfl
    | ok after =>
      rw [result] at next
      exact ih next

theorem RunMeets.and {other : σ → τ → Prop} {ops : List τ} {state : σ}
    (first : RunMeets stepOf condition ops state) (second : RunMeets stepOf other ops state) :
    RunMeets stepOf (fun state op => condition state op ∧ other state op) ops
      state := by
  induction ops generalizing state with
  | nil => trivial
  | cons op ops ih =>
    obtain ⟨now, rest⟩ := first
    rcases second with ⟨nowOther, restOther⟩
    refine ⟨⟨now, nowOther⟩, ?_⟩
    cases result : stepOf state op with
    | error err => trivial
    | ok next =>
      rw [result] at rest restOther
      exact ih rest restOther

end Runs

variable {expected : ε → Prop}

/-- The computation returns a value with the postcondition, or it stops with an
expected failure. -/
structure Ends (expected : ε → Prop) (computation : Except ε α) (post : α → Prop) : Prop where
  returns : ∀ value, computation = .ok value → post value
  stops : ∀ failure, computation = .error failure → expected failure

namespace Ends

variable {post : α → Prop} {err : ε} {comp : Except ε α}

theorem ok {value : α} (holds : post value) : Ends expected (.ok value) post where
  returns := by
    rintro _ ⟨⟩
    exact holds
  stops := by
    rintro _ ⟨⟩

theorem pure {value : α} (holds : post value) : Ends expected (Pure.pure value) post := ok holds

theorem error (isExpected : expected err) : Ends expected (.error err) post where
  returns := by
    rintro _ ⟨⟩
  stops := by
    rintro _ ⟨⟩
    exact isExpected

theorem any : Ends (fun _ => True) comp fun _ => True := ⟨fun _ _ => trivial, fun _ _ => trivial⟩

theorem mono {weak strong : α → Prop} (ends : Ends expected comp strong)
    (implies : ∀ value, strong value → weak value) :
    Ends expected comp weak :=
  ⟨fun value returns => implies value (ends.returns value returns), ends.stops⟩

/-- What succeeds does not stop. -/
theorem of_gives (gives : Gives comp post) : Ends expected comp post := by
  obtain ⟨value, rfl, holds⟩ := gives
  exact ok holds

/-- What has no reason to stop succeeds. -/
theorem gives_of {weak : α → Prop} (ends : Ends expected comp post)
    (unexpected : ∀ err, ¬ expected err) (implies : ∀ value, post value → weak value) :
    Gives comp weak := by
  cases returns : comp with
  | error err => exact absurd (ends.stops err returns) (unexpected err)
  | ok value => exact .ok (implies value (ends.returns value returns))

/-- More failures may be expected. -/
theorem expecting {more : ε → Prop} (ends : Ends expected comp post)
    (implies : ∀ err, expected err → more err) :
    Ends more comp post :=
  ⟨ends.returns, fun err stops =>
    implies err (ends.stops err stops)⟩

theorem bind {next : α → Except ε β} {middle : α → Prop} {post : β → Prop}
    (first : Ends expected comp middle)
    (second : ∀ value, middle value → Ends expected (next value) post) :
    Ends expected (comp >>= next) post := by
  cases comp with
  | ok value => exact second value (first.returns value rfl)
  | error err => exact error (first.stops err rfl)

/-- An assertion that holds. -/
theorem check {cond : Prop} [Decidable cond] {next : PUnit → Except ε β}
    {post : β → Prop} (holds : cond) (second : Ends expected (next ⟨⟩) post) :
    Ends expected (check cond err >>= next) post := by
  rwa [check_true err holds]

/-- An assertion that may fail. -/
theorem assert_bind {cond : Prop} [Decidable cond] {next : PUnit → Except ε β}
    {post : β → Prop} (isExpected : expected err) (second : cond → Ends expected (next ⟨⟩) post) :
    Ends expected (Checked.check cond err >>= next) post := by
  by_cases holds : cond
  · exact check holds (second holds)
  · rw [Checked.check, if_neg holds]
    exact error isExpected

/-- The rule of a loop; the invariant sees the elements still to come. -/
theorem foldlM {body : β → α → Except ε β} (inv : List α → β → Prop) {elems : List α} {start : β}
    (iteration : ∀ elem rest accumulator, elem ∈ elems → inv (elem :: rest) accumulator →
        Ends expected (body accumulator elem) (inv rest))
    (initially : inv elems start) :
    Ends expected (elems.foldlM body start) (inv []) := by
  induction elems generalizing start with
  | nil => exact .pure initially
  | cons elem rest ih =>
    apply Ends.bind (iteration elem rest start List.mem_cons_self initially)
    intro next holds
    apply ih _ holds
    intro other others accumulator mem
    exact iteration other others accumulator (List.mem_cons_of_mem _ mem)

/-- An invariant of the steps that meet the condition is one of their runs. -/
theorem run {σ : Type v} {τ : Type u} {stepOf : σ → τ → Except ε σ}
    {cond : σ → τ → Prop} {invariant : σ → Prop}
    (preserved : ∀ state op, invariant state → cond state op →
      Ends expected (stepOf state op) invariant)
    {ops : List τ} {state : σ} (meets : RunMeets stepOf cond ops state)
    (initially : invariant state) :
    Ends expected (ops.foldlM stepOf state) invariant := by
  induction ops generalizing state with
  | nil => exact .pure initially
  | cons op ops ih =>
    rw [List.foldlM_cons]
    have first := preserved state op initially meets.1
    have rest := meets.2
    cases res : stepOf state op with
    | error err => exact error (first.stops err res)
    | ok next =>
      rw [res] at rest
      exact ih rest (first.returns next res)

end Ends

theorem RunMeets.trivial {σ : Type v} {τ : Type u} {stepOf : σ → τ → Except ε σ}
    (ops : List τ) (state : σ) :
    RunMeets stepOf (fun _ _ => True) ops state := by
  induction ops generalizing state with
  | nil => exact True.intro
  | cons op ops ih =>
    refine ⟨True.intro, ?_⟩
    cases stepOf state op with
    | error err => exact True.intro
    | ok next => exact ih next

end Damov.Library.Checked
