import Damov.DDR.Controller
import Damov.Library.ListMoves
import Mathlib.Data.List.Nodup

/-!
# The requests of a controller

A request that was accepted waits in the overflow queue, in the read queue or in
the write queue, or it was served. The queue of a bank has the requests of that
bank in some order. The event of a read is held until the read is served, and
the event of a write until the write is queued.
-/

namespace Damov.DDR

open Library
open Weave (EventState)
open Function
open List
open Queues

variable {cfg : Config}

/-! ## Queues -/

namespace Queues

variable (qs : Queues cfg)

/-- Every request that was accepted. -/
def requests : List (Request cfg) := qs.overflowQueue ++ (qs.rdQueue ++ qs.wrQueue) ++ qs.served

theorem requests_perm (isWriteQueue : Bool) : qs.requests.Perm (qs.overflowQueue ++
        (qs.queueOf isWriteQueue ++ qs.queueOf (!isWriteQueue)) ++
        qs.served) := by
  cases isWriteQueue with
  | false => exact List.Perm.refl _
  | true =>
    exact (perm_append_comm.append_left _).append_right _

@[simp]
theorem queueOf_setQueue (isWriteQueue other : Bool) (queue : List (Request cfg)) :
    (qs.setQueue isWriteQueue queue).queueOf other =
      if other = isWriteQueue then queue else qs.queueOf other := by
  cases isWriteQueue <;> cases other <;> rfl

@[simp]
theorem bankReqs_setQueue (isWriteQueue other : Bool)
    (queue : List (Request cfg)) (bank : cfg.BankId) :
    (qs.setQueue isWriteQueue queue).bankReqs other bank = qs.bankReqs other bank := by
  cases isWriteQueue <;> rfl

@[simp]
theorem overflowQueue_setQueue (isWriteQueue : Bool) (queue : List (Request cfg)) :
    (qs.setQueue isWriteQueue queue).overflowQueue =
      qs.overflowQueue := by
  cases isWriteQueue <;> rfl

@[simp]
theorem served_setQueue (isWriteQueue : Bool) (queue : List (Request cfg)) :
    (qs.setQueue isWriteQueue queue).served = qs.served := by
  cases isWriteQueue <;> rfl

variable (isWriteQueue other : Bool) (bank : cfg.BankId) (reqs : List (Request cfg))

@[simp]
theorem queueOf_setBankReqs :
    (qs.setBankReqs isWriteQueue bank reqs).queueOf other = qs.queueOf other := by
  cases isWriteQueue <;> rfl

@[simp]
theorem overflowQueue_setBankReqs : (qs.setBankReqs isWriteQueue bank reqs).overflowQueue =
      qs.overflowQueue := by
  cases isWriteQueue <;> rfl

@[simp]
theorem served_setBankReqs : (qs.setBankReqs isWriteQueue bank reqs).served = qs.served := by
  cases isWriteQueue <;> rfl

theorem bankReqs_setBankReqs (otherBank : cfg.BankId) :
    (qs.setBankReqs isWriteQueue bank reqs).bankReqs other otherBank =
      if other = isWriteQueue ∧ otherBank = bank then reqs
      else qs.bankReqs other otherBank := by
  cases isWriteQueue <;> cases other <;> simp [setBankReqs, bankReqs, Function.update_apply]

theorem noRequests_eq_false :
    qs.noRequests = false ↔ ∃ isWriteQueue, qs.queueOf isWriteQueue ≠ [] := by
  simp [noRequests, queueOf, imp_iff_not_or]

/-- A request is served: it leaves its queue and the front of the one of its
bank. -/
def serve (qs : Queues cfg) (isWriteQueue : Bool) (r : Request cfg) : Queues cfg :=
  let removed :=
    qs.setQueue isWriteQueue ((qs.queueOf isWriteQueue).filter fun other => other.id ≠ r.id)
  let popped :=
    removed.setBankReqs isWriteQueue r.loc.bankId (qs.bankReqs isWriteQueue r.loc.bankId).tail
  { popped with served := r :: popped.served }

variable (r : Request cfg)

theorem queueOf_serve : (qs.serve isWriteQueue r).queueOf other = if other = isWriteQueue then
        (qs.queueOf isWriteQueue).filter fun other => other.id ≠ r.id
      else qs.queueOf other := by
  cases isWriteQueue <;> cases other <;> rfl

theorem bankReqs_serve_self :
    (qs.serve isWriteQueue r).bankReqs isWriteQueue bank = if bank = r.loc.bankId then
        (qs.bankReqs isWriteQueue r.loc.bankId).tail
      else qs.bankReqs isWriteQueue bank := by
  cases isWriteQueue <;> exact Function.update_apply ..

theorem bankReqs_serve_of_ne {isWriteQueue other : Bool} (otherQueue : other ≠ isWriteQueue) :
    (qs.serve isWriteQueue r).bankReqs other bank = qs.bankReqs other bank := by
  cases isWriteQueue <;> cases other <;> first | rfl | simp at otherQueue

theorem overflowQueue_serve : (qs.serve isWriteQueue r).overflowQueue = qs.overflowQueue := by
  cases isWriteQueue <;> rfl

theorem served_serve : (qs.serve isWriteQueue r).served = r :: qs.served := by
  cases isWriteQueue <;> rfl

end Queues

/-! ## The order of a bank queue -/

theorem lastOfRow_append {row : Nat} {q before after : List (Request cfg)}
    {m : Request cfg} (found : lastOfRow row q = some (before, m, after)) :
    before ++ m :: after = q := by
  induction q generalizing before with
  | nil => cases found
  | cons first rest ih =>
    rw [lastOfRow] at found
    cases later : lastOfRow row rest with
    | some parts =>
      rw [later] at found
      cases found
      rw [cons_append, ih later]
    | none =>
      rw [later] at found
      dsimp only at found
      split at found
      · cases found
        rfl
      · cases found

/-- A new request is put somewhere between the others. -/
theorem place_append (bank : Bank) (row : Nat) (q : List (Request cfg)) :
    (place bank row q).before ++ (place bank row q).after = q := by
  unfold place
  split
  · next found =>
      split
      · simpa using lastOfRow_append found
      · simp
  · split <;> simp

/-! ## Events -/

/-- The events that were completed, each once. -/
structure Responses (accState : Nat → EventState) (completions : List (Nat × Nat)) : Prop where
  once : (completions.map Prod.fst).Nodup
  completed : ∀ ev, ev ∈ completions.map Prod.fst ↔ accState ev = .done

theorem Responses.complete {accState : Nat → EventState} {completions : List (Nat × Nat)} {ev : Nat}
    (resps : Responses accState completions) (held : accState ev = .held) (doneCycle : Nat) :
    Responses (update accState ev .done) ((ev, doneCycle) :: completions) where
  once := by
    refine nodup_cons.mpr ⟨?_, resps.once⟩
    intro before
    rw [resps.completed, held] at before
    cases before
  completed := by
    intro other
    rw [map_cons, mem_cons]
    rcases eq_or_ne other ev with rfl | ne
    · simp
    · rw [resps.completed]
      simp [ne]

namespace Request

/-- The event waits for the request to be queued. -/
def Waiting (accState : Nat → EventState) (r : Request cfg) : Prop :=
  r.ev = some r.id ∧ accState r.id = .held

/-- A queued read holds its event; the one of a queued write is done. -/
def Queued (accState : Nat → EventState) (r : Request cfg) : Prop :=
  r.ev = (if r.write then none else some r.id) ∧ accState r.id = if r.write then .done else .held

variable {accState changed : Nat → EventState} {r : Request cfg}

theorem Waiting.agree (waiting : Waiting accState r)
    (same : changed r.id = accState r.id) : Waiting changed r :=
  ⟨waiting.1, same.trans waiting.2⟩

theorem Queued.agree (queued : Queued accState r)
    (same : changed r.id = accState r.id) : Queued changed r :=
  ⟨queued.1, same.trans queued.2⟩

end Request

/-! ## The ledger -/

/-- Each request that was accepted is in one place, and its event is as it
should be there. -/
structure Ledger (qs : Queues cfg) (accepted : Nat) (accState : Nat → EventState)
    (completions : List (Nat × Nat)) : Prop where
  banked : ∀ isWriteQueue bank, (qs.bankReqs isWriteQueue bank).Perm
      ((qs.queueOf isWriteQueue).filter fun r => r.loc.bankId = bank)
  ids : (qs.requests.map Request.id).Perm (List.range accepted)
  overflow : ∀ r ∈ qs.overflowQueue, r.Waiting accState
  queued : ∀ isWriteQueue, ∀ r ∈ qs.queueOf isWriteQueue, r.Queued accState
  served : ∀ r ∈ qs.served, accState r.id = .done
  fresh : ∀ ev, accepted ≤ ev → accState ev = .running
  responses : Responses accState completions

namespace Ledger

variable {qs : Queues cfg} {accepted : Nat}
variable {accState changed : Nat → EventState}
variable {completions recorded : List (Nat × Nat)}
variable {req r : Request cfg} {isWriteQueue : Bool}

theorem initial : Ledger (Queues.initial : Queues cfg) 0 (fun _ => .running) [] where
  banked := by simp [Queues.initial, Queues.bankReqs, Queues.queueOf]
  ids := List.Perm.refl _
  overflow := by simp [Queues.initial]
  queued := by simp [Queues.initial, Queues.queueOf]
  served := by simp [Queues.initial]
  fresh := fun _ _ => rfl
  responses := ⟨nodup_nil, by simp⟩

section

variable (ledger : Ledger qs accepted accState completions)
include ledger

theorem distinct : (qs.requests.map Request.id).Nodup := ledger.ids.nodup_iff.mpr nodup_range

/-- The others have other numbers. -/
theorem ne_of_perm_cons {others : List (Request cfg)} (parts : qs.requests.Perm (r :: others)) :
    ∀ other ∈ others, other.id ≠ r.id := by
  have nodup := (parts.map Request.id).nodup_iff.mp ledger.distinct
  rw [map_cons, nodup_cons] at nodup
  intro other mem same
  exact nodup.1 (same ▸ mem_map_of_mem mem)

theorem queue_distinct (isWriteQueue : Bool) :
    ((qs.queueOf isWriteQueue).map Request.id).Nodup := by
  have nodup := ((qs.requests_perm isWriteQueue).map Request.id).nodup_iff.mp ledger.distinct
  refine nodup.sublist (List.Sublist.map _ ?_)
  exact ((sublist_append_left _ _).trans (sublist_append_right _ _)).trans (sublist_append_left _ _)

/-- A new request waits. -/
theorem accept (num : req.id = accepted) (ev : req.ev = some accepted) :
    Ledger { qs with overflowQueue := qs.overflowQueue ++ [req] }
      (accepted + 1) (update accState accepted .held) completions := by
  have older (r) (mem : r ∈ qs.requests) : update accState accepted .held r.id = accState r.id := by
    have below : r.id ∈ range accepted := ledger.ids.subset (mem_map_of_mem mem)
    exact update_of_ne (ne_of_lt (mem_range.mp below)) _ _
  refine ⟨ledger.banked, ?_, ?_, ?_, ?_, ?_, ledger.responses.once, ?_⟩
  · have moved : (qs.overflowQueue ++ [req] ++
        (qs.rdQueue ++ qs.wrQueue) ++ qs.served).Perm (qs.requests ++ [req]) := by
      simp only [requests, append_assoc]
      have behind : ([req] ++ (qs.rdQueue ++ qs.wrQueue ++ qs.served)).Perm
            (qs.rdQueue ++ qs.wrQueue ++ qs.served ++ [req]) :=
        perm_append_comm
      refine List.Perm.append_left _ ?_
      simpa only [append_assoc] using behind
    rw [range_succ]
    refine (moved.map Request.id).trans ?_
    rw [map_append, map_singleton, num]
    exact ledger.ids.append_right [accepted]
  · refine forall_mem_append.mpr ⟨fun r mem => ?_,
      forall_mem_singleton.mpr ⟨num ▸ ev, num ▸ update_self ..⟩⟩
    refine (ledger.overflow r mem).agree (older r ?_)
    simp [requests, mem]
  · intro isWriteQueue r mem
    refine (ledger.queued isWriteQueue r mem).agree (older r ?_)
    rw [(qs.requests_perm isWriteQueue).mem_iff]
    have mem : r ∈ qs.queueOf isWriteQueue := mem
    simp [mem]
  · intro r mem
    refine (older r ?_).trans (ledger.served r mem)
    have mem : r ∈ qs.served := mem
    simp [requests, mem]
  · intro ev later
    rw [update_of_ne (ne_of_gt later)]
    exact ledger.fresh ev (Nat.le_of_succ_le later)
  · intro ev
    rw [ledger.responses.completed]
    rcases eq_or_ne ev accepted with same | ne
    · rw [same, ledger.fresh accepted le_rfl]
      simp
    · rw [update_of_ne ne]

end

/-- A request that waited is queued. -/
theorem queue {waiting before after : List (Request cfg)} {queued : Request cfg}
    (ledger : Ledger { qs with overflowQueue := waiting } accepted accState completions)
    (taken : waiting.Perm (req :: qs.overflowQueue))
    (sameId : queued.id = req.id) (sameLoc : queued.loc = req.loc)
    (isQueued : queued.Queued changed)
    (placed : before ++ after = qs.bankReqs isWriteQueue req.loc.bankId)
    (resps : Responses changed recorded) (others : ∀ ev, ev ≠ req.id → changed ev = accState ev) :
    Ledger ((qs.setQueue isWriteQueue
          (qs.queueOf isWriteQueue ++ [queued])).setBankReqs isWriteQueue
        req.loc.bankId (before ++ queued :: after))
      accepted changed recorded := by
  have parts := requests_perm { qs with overflowQueue := waiting } isWriteQueue
  have apart : ({ qs with overflowQueue := waiting }).requests.Perm (req :: (qs.overflowQueue ++
        (qs.queueOf isWriteQueue ++ qs.queueOf (!isWriteQueue)) ++
        qs.served)) :=
    parts.trans ((taken.append_right _).append_right _)
  have unchanged : ∀ r ∈ qs.overflowQueue ++
      (qs.queueOf isWriteQueue ++ qs.queueOf (!isWriteQueue)) ++
      qs.served, changed r.id = accState r.id :=
    fun r mem => others r.id (ledger.ne_of_perm_cons apart r mem)
  have num : req.id < accepted := by
    have mem : req ∈ ({ qs with overflowQueue := waiting }).requests :=
      apart.mem_iff.mpr mem_cons_self
    exact mem_range.mp (ledger.ids.subset (mem_map_of_mem mem))
  refine ⟨?_, ?_, ?_, ?_, ?_, ?_, resps⟩
  · intro other bank
    have banked := ledger.banked other bank
    rw [bankReqs_setBankReqs, queueOf_setBankReqs, queueOf_setQueue, bankReqs_setQueue]
    rcases eq_or_ne other isWriteQueue with rfl | otherQueue
    · rw [if_pos rfl, filter_append]
      rcases eq_or_ne bank req.loc.bankId with rfl | otherBank
      · rw [if_pos ⟨rfl, rfl⟩, filter_eq_self.mpr (by simp [sameLoc] : ∀ r ∈ [queued], _)]
        have inserted : (before ++ queued :: after).Perm (before ++ after ++ [queued]) :=
          perm_middle.trans (perm_append_singleton _ _).symm
        rw [placed] at inserted
        exact inserted.trans (banked.append_right _)
      · rw [if_neg (by simp [otherBank]), filter_eq_nil_iff.mpr
            (by simp [sameLoc, otherBank.symm] : ∀ r ∈ [queued], _),
          append_nil]
        exact banked
    · rwa [if_neg otherQueue, if_neg (by simp [otherQueue])]
  · refine List.Perm.trans ?_ ledger.ids
    refine List.Perm.trans ?_ (apart.map Request.id).symm
    refine ((requests_perm _ isWriteQueue).map Request.id).trans ?_
    simp only [overflowQueue_setBankReqs, overflowQueue_setQueue,
      queueOf_setBankReqs, queueOf_setQueue,
      served_setBankReqs, served_setQueue, if_true,
      Bool.not_eq_eq_eq_not, Bool.eq_not_self, if_false, map_append,
      map_cons, sameId, append_assoc,
      singleton_append]
    exact (perm_middle.append_left _).trans perm_middle
  · intro r mem
    simp only [overflowQueue_setBankReqs, overflowQueue_setQueue] at mem
    refine Request.Waiting.agree (ledger.overflow r ?_) (unchanged r ?_)
    · exact taken.mem_iff.mpr (mem_cons_of_mem req mem)
    · simp [mem]
  · intro other r mem
    rw [queueOf_setBankReqs, queueOf_setQueue] at mem
    rcases eq_or_ne other isWriteQueue with rfl | otherQueue
    · rw [if_pos rfl] at mem
      rcases mem_append.mp mem with mem | mem
      · refine Request.Queued.agree (ledger.queued other r mem) (unchanged r ?_)
        simp [mem]
      · rwa [mem_singleton.mp mem]
    · rw [if_neg otherQueue] at mem
      refine Request.Queued.agree (ledger.queued other r mem) (unchanged r ?_)
      rw [Bool.eq_not_of_ne otherQueue] at mem
      simp [mem]
  · intro r mem
    simp only [served_setBankReqs, served_setQueue] at mem
    refine (unchanged r ?_).trans (ledger.served r mem)
    simp [mem]
  · intro ev later
    rw [others ev (ne_of_gt (num.trans_le later))]
    exact ledger.fresh ev later

section

variable (ledger : Ledger qs accepted accState completions)
include ledger

section

variable (mem : r ∈ qs.queueOf isWriteQueue)
include mem

variable (first : qs.isFirst isWriteQueue r)
include first

/-- The first request of a bank queue. -/
theorem bankReqs_of_first : ∃ rest, qs.bankReqs isWriteQueue r.loc.bankId = r :: rest := by
  rw [isFirst, beq_iff_eq, Option.map_eq_some_iff] at first
  obtain ⟨front, isFront, sameId⟩ := first
  obtain ⟨rest, shape⟩ := head?_eq_some_iff.mp isFront
  refine ⟨rest, ?_⟩
  have found : front ∈ qs.queueOf isWriteQueue := by
    have banked := ledger.banked isWriteQueue r.loc.bankId
    rw [shape] at banked
    exact (mem_filter.mp (banked.mem_iff.mp mem_cons_self)).1
  have same := inj_on_of_nodup_map (ledger.queue_distinct isWriteQueue) found mem sameId
  rw [shape, same]

/-- Each bank queue has lost what the queue has. -/
theorem bankReqs_serve (bank : cfg.BankId) : (qs.serve isWriteQueue r).bankReqs isWriteQueue bank =
      (qs.bankReqs isWriteQueue bank).filter fun other =>
        other.id ≠ r.id := by
  have banked := ledger.banked isWriteQueue bank
  rw [bankReqs_serve_self]
  rcases eq_or_ne bank r.loc.bankId with rfl | otherBank
  · obtain ⟨rest, shape⟩ := ledger.bankReqs_of_first mem first
    rw [shape] at banked ⊢
    have nodup : ((r :: rest).map Request.id).Nodup := (banked.map Request.id).nodup_iff.mpr
        ((ledger.queue_distinct isWriteQueue).sublist (filter_sublist.map Request.id))
    rw [map_cons, nodup_cons] at nodup
    rw [if_pos rfl, tail_cons, filter_cons_of_neg (by simp), filter_eq_self.mpr]
    intro other later
    have distinct : other.id ≠ r.id := fun same =>
      nodup.1 (same ▸ mem_map_of_mem later)
    simpa using distinct
  · rw [if_neg otherBank, filter_eq_self.mpr]
    intro other isThere
    have ⟨found, isBank⟩ := mem_filter.mp (banked.mem_iff.mp isThere)
    have distinct : other.id ≠ r.id := by
      intro sameId
      have same := inj_on_of_nodup_map (ledger.queue_distinct isWriteQueue) found mem sameId
      rw [same] at isBank
      exact otherBank (of_decide_eq_true isBank).symm
    simpa using distinct

/-- A queued request is served. -/
theorem serve (isDone : changed r.id = .done) (resps : Responses changed recorded)
    (others : ∀ ev, ev ≠ r.id → changed ev = accState ev) :
    Ledger (qs.serve isWriteQueue r) accepted changed recorded := by
  have removed : (qs.queueOf isWriteQueue).Perm (r :: (qs.queueOf isWriteQueue).filter fun other =>
        other.id ≠ r.id) := by
    have selected : ((qs.queueOf isWriteQueue).filter fun _ => true).Perm
        (r :: (qs.queueOf isWriteQueue).filter fun other =>
          true && other.id ≠ r.id) :=
      ListMoves.filter_perm_cons (ledger.queue_distinct isWriteQueue) mem rfl
    simpa using selected
  have apart : qs.requests.Perm (r :: (qs.overflowQueue ++
        ((qs.queueOf isWriteQueue).filter (fun other => other.id ≠ r.id) ++
          qs.queueOf (!isWriteQueue)) ++ qs.served)) := by
    refine (qs.requests_perm isWriteQueue).trans ?_
    refine (((removed.append_right _).append_left _).append_right _).trans ?_
    exact perm_middle.append_right _
  have unchanged := fun other isThere =>
    others other.id (ledger.ne_of_perm_cons apart other isThere)
  have num : r.id < accepted := by
    have isThere : r ∈ qs.requests := apart.mem_iff.mpr mem_cons_self
    exact mem_range.mp (ledger.ids.subset (mem_map_of_mem isThere))
  refine ⟨?_, ?_, ?_, ?_, ?_, ?_, resps⟩
  · intro other bank
    rcases eq_or_ne other isWriteQueue with rfl | otherQueue
    · rw [ledger.bankReqs_serve mem first, queueOf_serve, if_pos rfl, filter_comm]
      exact (ledger.banked other bank).filter _
    · rw [bankReqs_serve_of_ne _ _ _ otherQueue, queueOf_serve, if_neg otherQueue]
      exact ledger.banked other bank
  · refine List.Perm.trans (List.Perm.map Request.id ?_) ledger.ids
    refine List.Perm.trans ?_ apart.symm
    refine (requests_perm _ isWriteQueue).trans ?_
    rw [overflowQueue_serve, served_serve, queueOf_serve,
      queueOf_serve, if_pos rfl, if_neg (by simp)]
    exact perm_middle
  · intro other isThere
    rw [overflowQueue_serve] at isThere
    refine (ledger.overflow other isThere).agree (unchanged other ?_)
    simp [isThere]
  · intro other waiting isThere
    rw [queueOf_serve] at isThere
    rcases eq_or_ne other isWriteQueue with rfl | otherQueue
    · rw [if_pos rfl] at isThere
      refine (ledger.queued other waiting (mem_of_mem_filter isThere)).agree (unchanged waiting ?_)
      simp only [mem_append]
      exact .inl (.inr (.inl isThere))
    · rw [if_neg otherQueue] at isThere
      refine (ledger.queued other waiting isThere).agree (unchanged waiting ?_)
      rw [Bool.eq_not_of_ne otherQueue] at isThere
      simp [isThere]
  · intro other isThere
    rw [served_serve] at isThere
    rcases mem_cons.mp isThere with rfl | isThere
    · exact isDone
    · refine (unchanged other ?_).trans (ledger.served other isThere)
      simp [isThere]
  · intro ev later
    rw [others ev (ne_of_gt (num.trans_le later))]
    exact ledger.fresh ev later

end

theorem requests_length : qs.overflowQueue.length + (qs.rdQueue.length + qs.wrQueue.length) +
      qs.served.length = accepted := by
  have length := ledger.ids.length_eq
  simpa [requests, add_assoc] using length

theorem noRequests_of_bankReqs {bank : cfg.BankId} (others : qs.bankReqs isWriteQueue bank ≠ []) :
    qs.noRequests = false := by
  obtain ⟨other, mem⟩ := exists_mem_of_ne_nil _ others
  have found := (ledger.banked isWriteQueue bank).mem_iff.mp mem
  exact qs.noRequests_eq_false.mpr ⟨isWriteQueue, ne_nil_of_mem (mem_of_mem_filter found)⟩

/-- A queue that is not empty has a request that is first in its bank. -/
theorem exists_first (someRequest : qs.queueOf isWriteQueue ≠ []) :
    ∃ r ∈ qs.queueOf isWriteQueue, qs.isFirst isWriteQueue r := by
  obtain ⟨r, mem⟩ := exists_mem_of_ne_nil _ someRequest
  have banked := ledger.banked isWriteQueue r.loc.bankId
  have isThere : r ∈ qs.bankReqs isWriteQueue r.loc.bankId :=
    banked.mem_iff.mpr (mem_filter.mpr ⟨mem, by simp⟩)
  obtain ⟨front, rest, shape⟩ := exists_cons_of_ne_nil (ne_nil_of_mem isThere)
  have found : front ∈ (qs.queueOf isWriteQueue).filter fun other =>
      other.loc.bankId = r.loc.bankId :=
    banked.mem_iff.mp (shape ▸ mem_cons_self)
  obtain ⟨found, sameBank⟩ := mem_filter.mp found
  refine ⟨front, found, ?_⟩
  rw [isFirst, of_decide_eq_true sameBank, shape]
  simp

end

end Ledger

end Damov.DDR
