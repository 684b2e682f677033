import Damov.Library.Extrema
import Damov.Ramulator.HmcBanks

/-!
# The choice of the scheduler

The scheduler goes through the queue and keeps the better of two requests. Which
one is better depends on what the banks answer about the two, and then on their
arrival; so the loop ends with the first of the best requests.
-/

namespace Damov.Ramulator.VaultBanks

open Library Checked List

variable {cfg : VaultConfig} {banks : VaultBanks} {clk : Int}
variable {queue : List Request}

/-- What the banks answer about the requests of a queue. -/
structure Answers (cfg : VaultConfig) (banks : VaultBanks) (clk : Int) (queue : List Request) where
  ready : Request → Bool
  hit : Request → Bool
  opened : Request → Bool
  isReady : ∀ req ∈ queue, banks.isReady cfg clk req = .ok (ready req)
  isRowHit : ∀ req ∈ queue, banks.isRowHit cfg req = .ok (hit req)
  isRowOpen : ∀ req ∈ queue, banks.isRowOpen cfg req = .ok (opened req)

namespace Answers

variable (answers : Answers cfg banks clk queue)

def readyHit (req : Request) : Bool := answers.ready req && answers.hit req

/-- The requests that a scheduler looks at first. -/
def urgent : SchedulerType → Request → Bool
  | .FCFS => fun _ => true
  | .FRFCFS => answers.ready
  | .FRFCFS_PriorHit => answers.readyHit

/-- The request finds another row open in its bank, and that row is hit by a
request of the queue. -/
def disturbs (req : Request) : Bool := answers.opened req && !answers.hit req &&
    queue.any fun other => answers.hit other && rowgroup other == rowgroup req

/-- The requests that the scheduler chooses the earliest of. -/
def pool : SchedulerType → List Candidate
  | .FRFCFS_PriorHit =>
    if queue.zipIdx.any (answers.readyHit ·.1) then
      queue.zipIdx.filter (answers.readyHit ·.1)
    else prior (answers.ready ·.1) (queue.zipIdx.filter (!answers.disturbs ·.1))
  | type => prior (answers.urgent type ·.1) queue.zipIdx

theorem pool_subset (type : SchedulerType) : answers.pool type ⊆ queue.zipIdx := by
  unfold pool
  split
  · split
    · exact fun _ mem => (mem_filter.mp mem).1
    · exact fun _ mem => (mem_filter.mp (prior_subset _ _ mem)).1
  · exact prior_subset _ _

end Answers

def arrival (cand : Candidate) : Int := cand.1.arrive

/-- The order in which a scheduler prefers requests. -/
def rank (urgent : Request → Bool) (cand : Candidate) : Lex (Bool × Int) :=
  toLex (!urgent cand.1, arrival cand)

theorem prefer_eq (urgent : Request → Bool) (first second : Candidate) :
    prefer (urgent first.1) (urgent second.1) first second =
      if rank urgent second < rank urgent first then second else first := by
  simp only [prefer, rank, arrival, Prod.Lex.toLex_lt_toLex, Bool.lt_iff]
  cases urgent first.1 <;> cases urgent second.1 <;> grind

variable (answers : Answers cfg banks clk queue) {first second : Candidate}
include answers

theorem isReadyHit_eq {req : Request} (mem : req ∈ queue) :
    banks.isReadyHit cfg clk req = .ok (answers.readyHit req) := by
  simp only [isReadyHit, answers.isReady req mem, Answers.readyHit]
  cases answers.ready req
  · rfl
  · exact answers.isRowHit req mem

theorem compare_eq (type : SchedulerType) (mem : first.1 ∈ queue) (mem' : second.1 ∈ queue) :
    banks.compare cfg clk type first second =
      .ok (if rank (answers.urgent type) second < rank (answers.urgent type) first
        then second else first) := by
  rw [← prefer_eq]
  cases type with
  | FCFS => rfl
  | FRFCFS =>
    simp only [compare, answers.isReady _ mem, answers.isReady _ mem']
    rfl
  | FRFCFS_PriorHit =>
    simp only [compare, isReadyHit_eq answers mem, isReadyHit_eq answers mem']
    rfl

theorem foldlM_compare (type : SchedulerType) {rest : List Candidate}
    (mem : ∀ cand ∈ first :: rest, cand.1 ∈ queue) :
    Gives (rest.foldlM (banks.compare cfg clk type) first)
      (Leads (rank (answers.urgent type)) (first :: rest)) := by
  apply (Gives.foldlM (fun visited left (head : Candidate) =>
    visited ++ left = rest ∧ Leads (rank (answers.urgent type)) (first :: visited)
      head) _ rest first ⟨rfl, Leads.singleton _ first⟩).mono
  · exact fun _ => And.right
  · rintro visited cand left head ⟨rfl, leads⟩
    have isHead := leads.mem
    rw [compare_eq answers type (mem head (by grind)) (mem cand (by simp))]
    refine .ok ⟨by simp, ?_⟩
    rw [← cons_append]
    split
    · next better => exact leads.replace better
    · next worse => exact leads.keep worse

theorem hitRowgroups_eq : banks.hitRowgroups cfg queue =
    .ok ((queue.filter answers.hit).map rowgroup) := by
  suffices holds : Gives (banks.hitRowgroups cfg queue) fun groups =>
      groups = (queue.filter answers.hit).map rowgroup by
    obtain ⟨groups, returns, rfl⟩ := holds
    exact returns
  apply (Gives.foldlM (fun visited left groups => visited ++ left = queue ∧
    groups = (visited.filter answers.hit).map rowgroup) _ queue [] ⟨rfl, rfl⟩).mono
  · rintro _ ⟨same, rfl⟩
    rfl
  · rintro visited req left groups ⟨rfl, rfl⟩
    rw [answers.isRowHit req (by simp)]
    refine .ok ⟨by simp, ?_⟩
    cases isHit : answers.hit req <;> simp [isHit]

theorem violatesHit_eq {req : Request} (mem : req ∈ queue) :
    banks.violatesHit cfg ((queue.filter answers.hit).map rowgroup) req =
      .ok (answers.disturbs req) := by
  have listed : ((queue.filter answers.hit).map rowgroup).contains (rowgroup req) =
      queue.any fun other => answers.hit other && rowgroup other == rowgroup req := by
    rw [Bool.eq_iff_iff]
    simp [and_assoc]
  simp only [violatesHit, answers.isRowHit req mem, Answers.disturbs, listed]
  cases answers.hit req with
  | true =>
    simp only [Bool.not_true, Bool.and_false]
    rfl
  | false =>
    rw [answers.isRowOpen req mem]
    simp only [Bool.not_false, Bool.and_true]
    rfl

theorem bestHarmless_spec {cands : List Candidate} (inside : ∀ cand ∈ cands, cand.1 ∈ queue) :
    Gives (banks.bestHarmless cfg clk ((queue.filter answers.hit).map rowgroup) cands)
      (BestOf (rank answers.ready) (cands.filter (!answers.disturbs ·.1))) := by
  apply (Gives.foldlM (fun visited left (head : Option Candidate) =>
    visited ++ left = cands ∧ BestOf (rank answers.ready)
      (visited.filter (!answers.disturbs ·.1)) head) _ cands none ⟨rfl, rfl⟩).mono
  · exact fun _ => And.right
  · rintro visited cand left head ⟨rfl, best⟩
    have mem := inside cand (by simp)
    rw [violatesHit_eq answers mem, ok_bind]
    cases disturbs : answers.disturbs cand.1 with
    | true => exact .ok ⟨by simp, by simpa [disturbs] using best⟩
    | false =>
      rw [filter_append, filter_cons_of_pos (by simp [disturbs]), filter_nil]
      cases head with
      | none =>
        exact .ok ⟨by simp, best.add (fun _ => rfl) nofun⟩
      | some head =>
        have isHead := (mem_filter.mp (Leads.mem best)).1
        simp only [Bool.false_eq_true]
        rw [compare_eq answers .FRFCFS (inside head (by simp [isHead])) mem]
        exact .ok ⟨by simp, best.add nofun (by rintro _ ⟨⟩; rfl)⟩

/-- The scheduler chooses the earliest request of its pool. -/
theorem getHead_spec : Gives (banks.getHead cfg clk queue)
    (BestOf arrival (answers.pool cfg.scheduler)) := by
  have mem : ∀ cand ∈ queue.zipIdx, cand.1 ∈ queue := fun _ => fst_mem_of_mem_zipIdx
  unfold getHead
  cases indexed : queue.zipIdx with
  | nil =>
    obtain rfl := zipIdx_eq_nil_iff.mp indexed
    cases cfg.scheduler <;> exact .pure rfl
  | cons first rest =>
    rw [indexed] at mem
    apply (foldlM_compare answers cfg.scheduler mem).bind
    intro head leads
    have best : BestOf arrival (prior (answers.urgent cfg.scheduler ·.1)
      queue.zipIdx) (some head) := by
      rw [indexed]
      exact BestOf.prior leads
    cases type : cfg.scheduler with
    | FCFS | FRFCFS =>
      rw [type] at best
      exact .pure best
    | FRFCFS_PriorHit =>
      simp only [type, Answers.urgent, prior] at best
      rw [isReadyHit_eq answers (mem head leads.mem), ok_bind, Answers.pool, ← indexed]
      split at best
      case isTrue some =>
        rw [(mem_filter.mp (Leads.mem best)).2, if_pos some]
        exact .pure best
      case isFalse none =>
        have notHit : answers.readyHit head.1 = false := by
          have isHead := Leads.mem best
          grind
        rw [notHit, if_neg none, hitRowgroups_eq answers]
        exact (bestHarmless_spec answers fun _ => fst_mem_of_mem_zipIdx).mono fun _ => BestOf.prior

end Damov.Ramulator.VaultBanks
