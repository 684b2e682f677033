import Damov.Library.Extrema
import Mathlib.Data.List.Induction
import Mathlib.Algebra.Group.Nat.Defs

/-!
# Least recently used

`LRUReplPolicy` keeps the time of the last use of each line. The line to be
evicted has the fewest sharers, if the policy is aware of them, and among those
it was used least recently; the two are packed into one score.

The coherence controller says how many sharers a line has and whether it is
valid.
-/

namespace Damov.Replacement

open Library List

/-- What the policy asks the coherence controller. -/
structure LineStatus where
  numSharers : Nat → Nat
  isValid : Nat → Bool

structure LRUReplPolicy where
  timestamp : Nat
  array : Nat → Nat

namespace LRUReplPolicy

def initial : LRUReplPolicy := ⟨1, fun _ => 0⟩

def update (rp : LRUReplPolicy) (id : Nat) : LRUReplPolicy where
  timestamp := (rp.timestamp + 1) % 2 ^ 64
  array := Function.update rp.array id rp.timestamp

def replaced (rp : LRUReplPolicy) (id : Nat) : LRUReplPolicy :=
  { rp with array := Function.update rp.array id 0 }

/-! ## Victims -/

section

variable (sharersAware : Bool) (cc : LineStatus)

/-- The sharers as far as the policy is aware of them. -/
def sharers (id : Nat) : Nat := if sharersAware then cc.numSharers id else 0

variable (rp : LRUReplPolicy)

def score (id : Nat) : Nat :=
  (sharers sharersAware cc id * rp.timestamp + rp.array id * (cc.isValid id).toNat) % 2 ^ 64

/-- The best candidate so far and its score. -/
structure Best where
  cand : Nat
  score : Nat

/-- The score of a candidate is kept in 32 bits. -/
def consider (best : Best) (id : Nat) : Best :=
  let s := rp.score sharersAware cc id % 2 ^ 32
  { cand := if s < best.score then id else best.cand
    score := min s best.score }

def rank (cands : List Nat) : Nat :=
  (cands.foldl (rp.consider sharersAware cc) ⟨2 ^ 32 - 1, 2 ^ 64 - 1⟩).cand

/-! ## Runs -/

inductive Call where
  | update (id : Nat)
  | replaced (id : Nat)

def step : Call → LRUReplPolicy
  | .update id => rp.update id
  | .replaced id => rp.replaced id

def run (calls : List Call) : LRUReplPolicy := calls.foldl step initial

/-- Timestamps lie before the current one, and the calls were counted. -/
structure Stamped (calls : Nat) (rp : LRUReplPolicy) : Prop where
  count : rp.timestamp ≤ calls + 1
  before : ∀ id, rp.array id < rp.timestamp

theorem stamped_initial : Stamped 0 initial := ⟨Nat.le_refl 1, fun _ => Nat.one_pos⟩

variable {calls : Nat}

theorem Stamped.step {rp : LRUReplPolicy} (stamped : Stamped calls rp)
    (fits : calls + 2 < 2 ^ 64) (call : Call) :
    Stamped (calls + 1) (rp.step call) := by
  have count := stamped.count
  cases call with
  | update id =>
    have next : (rp.timestamp + 1) % 2 ^ 64 = rp.timestamp + 1 := Nat.mod_eq_of_lt (by omega)
    refine ⟨?_, ?_⟩
    · change (rp.timestamp + 1) % 2 ^ 64 ≤ _
      omega
    · intro other
      change Function.update rp.array id rp.timestamp other < (rp.timestamp + 1) % 2 ^ 64
      rw [next, Function.update_apply]
      split
      · exact Nat.lt_succ_self _
      · exact Nat.lt_succ_of_lt (stamped.before other)
  | replaced id =>
    refine ⟨Nat.le_succ_of_le count, ?_⟩
    intro other
    change Function.update rp.array id 0 other < rp.timestamp
    rw [Function.update_apply]
    split
    · exact Nat.zero_lt_of_lt (stamped.before other)
    · exact stamped.before other

theorem stamped_run (calls : List Call) (fits : calls.length < 2 ^ 57) :
    Stamped calls.length (run calls) := by
  induction calls using reverseRecOn with
  | nil => exact stamped_initial
  | append_singleton calls call ih =>
    rw [length_append] at fits ⊢
    rw [run, foldl_append]
    exact (ih (by omega)).step (by omega) call

/-! ## Scores -/

/-- What the victim minimises: the sharers and then the last use. -/
def key (id : Nat) : Nat ×ₗ Nat :=
  toLex (sharers sharersAware cc id, if cc.isValid id then rp.array id else 0)

end

variable {sharersAware : Bool} {cc : LineStatus} {rp : LRUReplPolicy}

theorem array_mul_isValid (id : Nat) :
    rp.array id * (cc.isValid id).toNat = if cc.isValid id then rp.array id else 0 := by
  cases cc.isValid id with
  | true => exact mul_one _
  | false => exact Nat.mul_zero _

/-- The last use is smaller than the weight of a sharer. -/
theorem lastUse_lt (stamped : Stamped calls rp) (cc : LineStatus) (id : Nat) :
    (if cc.isValid id then rp.array id else 0) < rp.timestamp := by
  have before := stamped.before id
  split <;> omega

variable {id a b : Nat} {seen : List Nat} {best : Best}

theorem score_eq (stamped : Stamped calls rp)
    (fits : (sharers sharersAware cc id + 1) * rp.timestamp ≤ 2 ^ 64) :
    rp.score sharersAware cc id = sharers sharersAware cc id * rp.timestamp +
        (if cc.isValid id then rp.array id else 0) := by
  have small := lastUse_lt stamped cc id
  rw [Nat.add_mul] at fits
  rw [score, array_mul_isValid]
  omega

/-- Packing keeps the lexicographic order. -/
theorem packed_lt_iff {weight low high : Nat} (lowSmall : low < weight)
    (highSmall : high < weight) :
    a * weight + low < b * weight + high ↔ toLex (a, low) < toLex (b, high) := by
  rw [Prod.Lex.toLex_lt_toLex]
  constructor
  · intro less
    obtain smaller | same | larger := lt_trichotomy a b
    · exact .inl smaller
    · subst same
      exact .inr ⟨rfl, by omega⟩
    · have scaled : (b + 1) * weight ≤ a * weight := Nat.mul_le_mul_right weight larger
      rw [Nat.succ_mul] at scaled
      omega
  · rintro (smaller | ⟨rfl, less⟩)
    · have scaled : (a + 1) * weight ≤ b * weight := Nat.mul_le_mul_right weight smaller
      rw [Nat.succ_mul] at scaled
      omega
    · exact Nat.add_lt_add_left less _

/-- The 64 bits of a score are enough for all the sharers. -/
theorem score_lt_iff (sharersAware : Bool) (stamped : Stamped calls rp) (short : calls < 2 ^ 57)
    (few : ∀ id, cc.numSharers id ≤ 64) (a b : Nat) :
    rp.score sharersAware cc a < rp.score sharersAware cc b ↔
      rp.key sharersAware cc a < rp.key sharersAware cc b := by
  have fits (id : Nat) : (sharers sharersAware cc id + 1) * rp.timestamp ≤ 2 ^ 64 := by
    have most : sharers sharersAware cc id + 1 ≤ 65 := by
      have := few id
      grind [sharers]
    have count := stamped.count
    exact (Nat.mul_le_mul most (show rp.timestamp ≤ 2 ^ 57 by omega)).trans (by decide)
  rw [score_eq stamped (fits a), score_eq stamped (fits b)]
  exact packed_lt_iff (lastUse_lt stamped cc a) (lastUse_lt stamped cc b)

/-- What is left of a score when it is compared. -/
def kept (sharersAware : Bool) (cc : LineStatus) (rp : LRUReplPolicy) (id : Nat) : Nat :=
  rp.score sharersAware cc id % 2 ^ 32

theorem rank_loop (leads : Leads (kept sharersAware cc rp) seen best.cand)
    (isScore : best.score = kept sharersAware cc rp best.cand) (cands : List Nat) :
    Leads (kept sharersAware cc rp) (seen ++ cands)
      (cands.foldl (rp.consider sharersAware cc) best).cand := by
  induction cands generalizing seen best with
  | nil => simpa using leads
  | cons id cands ih =>
    rw [append_cons, foldl_cons]
    simp only [consider, ← kept.eq_1, isScore]
    by_cases better : kept sharersAware cc rp id < kept sharersAware cc rp best.cand
    · rw [if_pos better, min_eq_left better.le]
      exact ih (leads.replace better) rfl
    · rw [if_neg better, Nat.min_eq_right (Nat.le_of_not_lt better)]
      exact ih (leads.keep better) rfl

theorem rank_leads {cands : List Nat} (offered : cands ≠ []) :
    Leads (kept sharersAware cc rp) cands (rp.rank sharersAware cc cands) := by
  obtain ⟨first, rest, rfl⟩ := exists_cons_of_ne_nil offered
  have small : rp.score sharersAware cc first % 2 ^ 32 < 2 ^ 64 - 1 :=
    lt_trans (Nat.mod_lt _ (Nat.two_pow_pos 32)) (by decide)
  rw [rank, foldl_cons, consider, if_pos small, min_eq_left small.le]
  have single := Leads.singleton (kept sharersAware cc rp) first
  exact @rank_loop _ _ _ _ ⟨first, _⟩ single rfl rest

/-- The victims among some lines are the first with the fewest sharers and, among
those, the oldest use, if and only if the order of the scores of these lines does not
change when they are cut to 32 bits. -/
theorem victim_minimal_iff (sharersAware : Bool) (cc : LineStatus)
    (few : ∀ id, cc.numSharers id ≤ 64) (calls : List Call) (short : calls.length < 2 ^ 57)
    (lines : List Nat) :
    (∀ cands ≠ [], cands ⊆ lines →
      Leads ((run calls).key sharersAware cc) cands ((run calls).rank sharersAware cc cands)) ↔
      ∀ a ∈ lines, ∀ b ∈ lines,
        (run calls).score sharersAware cc a < (run calls).score sharersAware cc b →
        (run calls).score sharersAware cc a % 2 ^ 32 <
          (run calls).score sharersAware cc b % 2 ^ 32 := by
  have ordered := score_lt_iff sharersAware (stamped_run calls short) short few
  constructor
  · intro minimal a isA b isB less
    have leads := minimal [b, a] (by simp) (by simp [isA, isB])
    have lower := (ordered a b).mp less
    have victim : (run calls).rank sharersAware cc [b, a] = a := by
      rcases (by simpa using leads.mem : _ = b ∨ _ = a) with isFirst | isSecond
      · exact absurd (isFirst ▸ leads.le (by simp)) lower.not_ge
      · exact isSecond
    obtain ⟨before, after, isPair, smaller, -⟩ := victim ▸ rank_leads (cons_ne_nil b [a])
    cases before with
    | nil => exact absurd (cons.inj isPair).1 (by rintro rfl; exact less.false)
    | cons head rest => exact smaller b ((cons.inj isPair).1 ▸ mem_cons_self)
  · intro keeps cands offered inside
    apply (rank_leads offered).transfer
    · intro a isA b isB less
      exact keeps a (inside isA) b (inside isB) ((ordered a b).mpr less)
    · intro a b same
      obtain ⟨shares, uses⟩ := Prod.mk.inj (toLex.injective same)
      simp only [kept, score, array_mul_isValid, shares, uses]

/-- Line 0 has a sharer; line 1 was used before line 2. -/
def shared : LineStatus := ⟨fun id => if id = 0 then 1 else 0, fun _ => true⟩

theorem victim_minimal_iff_three :
    let rp := run [.update 0, .update 1, .update 2]
    ∀ cands ≠ [], cands ⊆ [0, 1, 2] →
      Leads (rp.key true shared) cands (rp.rank true shared cands) :=
  (victim_minimal_iff true shared (fun id => by grind [shared]) [.update 0, .update 1, .update 2]
    (by decide) [0, 1, 2]).mpr (by decide)

/-! ## Long runs -/

/-- A line that is used many times in a row. -/
theorem updates_replicate (rp : LRUReplPolicy) (id uses : Nat)
    (fits : rp.timestamp + uses + 1 < 2 ^ 64) :
    (List.replicate (uses + 1) (Call.update id)).foldl step rp = ⟨rp.timestamp + uses + 1,
        Function.update rp.array id (rp.timestamp + uses)⟩ := by
  induction uses with
  | zero =>
    have next : (rp.timestamp + 1) % 2 ^ 64 = rp.timestamp + 1 := Nat.mod_eq_of_lt fits
    change rp.update id = _
    rw [update, next]
    rfl
  | succ uses ih =>
    have next : (rp.timestamp + uses + 1 + 1) % 2 ^ 64 =
        rp.timestamp + (uses + 1) + 1 := Nat.mod_eq_of_lt fits
    rw [replicate_succ', foldl_append, ih (by omega)]
    change update ⟨_, _⟩ id = _
    rw [update, Function.update_idem, next]
    rfl

/-- Line 1 is used once; line 0 is used from then on until the timestamp is
`2 ^ 26`. -/
def longRun : List Call := .update 1 :: List.replicate (2 ^ 26 - 3 + 1) (.update 0)

theorem longRun_state :
    run longRun = ⟨2 ^ 26, Function.update (Function.update (fun _ => 0) 1 1) 0 (2 ^ 26 - 1)⟩ := by
  rw [run, longRun, foldl_cons, updates_replicate]
  · rfl
  · decide

/-- Only line 1 has sharers. -/
def manySharers : LineStatus := ⟨fun id => if id = 1 then 64 else 0, fun _ => true⟩

/-- The line with 64 sharers is evicted although the other one has none: its
score is `2 ^ 32 + 1`. -/
theorem shared_line_evicted : longRun.length < 2 ^ 57 ∧
    (run longRun).rank true manySharers [0, 1] = 1 ∧
    (run longRun).key true manySharers 0 < (run longRun).key true manySharers 1 := by
  refine ⟨?_, ?_, ?_⟩
  · rw [longRun, length_cons, length_replicate]
    decide
  · rw [longRun_state]
    decide
  · decide

end LRUReplPolicy

end Damov.Replacement
