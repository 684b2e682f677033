import Damov.Coherence.MemoryHierarchy
import Mathlib.Data.List.GetD

/-!
# Random replacement

`RandReplPolicy` records the candidates it is offered and draws one of them. It
was built for a fixed number of candidates and asserts that it was offered as
many.
-/

namespace Damov.Replacement

open Coherence Library.Checked

/-- `MTRand`, as far as `randInt` is used: it draws a number up to a bound. -/
structure Generator where
  State : Type
  randInt : State → Nat → Nat × State
  randInt_le : ∀ state bound, (randInt state bound).1 ≤ bound

inductive RandFailure where
  | candCount
  deriving DecidableEq

/-- The candidates that were recorded, and the generator. -/
structure RandReplPolicy (generator : Generator) where
  candArray : List LineId
  rnd : generator.State

namespace RandReplPolicy

variable {generator : Generator} (rp : RandReplPolicy generator)

def recordCandidate (id : LineId) : RandReplPolicy generator :=
  { rp with candArray := rp.candArray ++ [id] }

def getBestCandidate (numCands : Nat) (rp : RandReplPolicy generator) :
    Except RandFailure (LineId × RandReplPolicy generator) := do
  check (rp.candArray.length = numCands) .candCount
  let drawn := generator.randInt rp.rnd (numCands - 1)
  return (rp.candArray.getD drawn.1 0, { rp with rnd := drawn.2 })

def replaced : RandReplPolicy generator := { rp with candArray := [] }

/-- `LegacyReplPolicy::rank`. -/
def rank (numCands : Nat) (rp : RandReplPolicy generator) (cands : List LineId) :
    Except RandFailure (LineId × RandReplPolicy generator) :=
  (cands.foldl recordCandidate rp).getBestCandidate numCands

theorem foldl_recordCandidate (cands : List LineId) : cands.foldl recordCandidate rp =
      { rp with candArray := rp.candArray ++ cands } := by
  induction cands generalizing rp with
  | nil => rw [List.append_nil]; rfl
  | cons id cands ih =>
    rw [List.foldl_cons, ih, recordCandidate, List.append_assoc]
    rfl

/-- As many candidates as expected: the policy draws one of them. -/
theorem rank_spec {numCands : Nat} {rp : RandReplPolicy generator}
    {cands : List LineId} (fresh : rp.candArray = [])
    (size : cands.length = numCands) (positive : 0 < numCands) :
    Gives (rp.rank numCands cands) fun ranked => ranked.1 ∈ cands := by
  rw [rank, foldl_recordCandidate, fresh, List.nil_append]
  refine .check size ?_
  refine .pure ?_
  have bound := generator.randInt_le rp.rnd (numCands - 1)
  have mem : (generator.randInt rp.rnd (numCands - 1)).1 <
      cands.length := by omega
  rw [List.getD_eq_getElem _ _ mem]
  exact List.getElem_mem mem

end RandReplPolicy

end Damov.Replacement
