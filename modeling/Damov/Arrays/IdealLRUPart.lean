import Damov.Arrays.IdealLRU
import Damov.Library.Counting
import Damov.Library.Rounding
import Mathlib.Tactic.NormNum
import Mathlib.Algebra.Order.Field.Basic

/-!
# Partitioned fully associative LRU

`IdealLRUPartReplPolicy` and `IdealLRUPartArray` of `ideal_arrays.h`. Each
partition has a list of its lines, the most recently updated one in front. A
victim is the last line of the partition that is furthest above its target, in
proportion to the target. The line stays in its list until the update that
follows the replacement moves it to the partition of the new request.

The constructor of the policy writes one element past the end of `partInfo`. No
function reads that element, and the model does not have it.
-/

namespace Damov.Arrays

open Coherence (Address)
open Library
open Library.Checked
open Library.Counting
open Function (update update_of_ne update_self)
open List

/-- The parameters; doubles have the integers of 53 binary digits. -/
structure IdealPartConfig where
  partitions : Nat
  numLines : Nat
  numBuckets : Nat
  fp : Rounding 53
  partitionsPos : 0 < partitions
  linesPos : 0 < numLines

namespace IdealPartConfig

variable (c : IdealPartConfig)

abbrev Part := Fin c.partitions

abbrev Line := Fin c.numLines

def firstPart : c.Part := ⟨0, c.partitionsPos⟩

end IdealPartConfig

inductive IdealPartFailure where
  | list (failure : ListFailure)
  | emptyPart
  | wrongSize
  | noLine
  | duplicate
  deriving DecidableEq

/-- `p` and `used` are the fields of the entries, and `size` and `targetSize`
those of `partInfo`. `updates` has the lines in the order in which they were put
into lists; the source does not keep it. -/
structure IdealLRUPartReplPolicy (c : IdealPartConfig) where
  p : c.Line → c.Part
  used : c.Line → Bool
  lruLists : InLists c.Line c.Part
  size : c.Part → Nat
  targetSize : c.Part → Nat
  updates : List c.Line

namespace IdealLRUPartReplPolicy

variable {c : IdealPartConfig}

/-- The policy before its lines are built. -/
def empty (c : IdealPartConfig) : IdealLRUPartReplPolicy c where
  p := fun _ => c.firstPart
  used := fun _ => true
  lruLists := InLists.initial
  size := fun _ => 0
  targetSize := fun _ => c.numLines / c.partitions
  updates := []

/-- A line is put into the list of the first partition. -/
def addLine (policy : IdealLRUPartReplPolicy c) (id : c.Line) :
    Except IdealPartFailure (IdealLRUPartReplPolicy c) := do
  let lruLists ← within IdealPartFailure.list (policy.lruLists.pushFront c.firstPart id)
  return { policy with
    lruLists
    size := update policy.size c.firstPart (policy.size c.firstPart + 1)
    updates := policy.updates ++ [id] }

def construct (c : IdealPartConfig) : Except IdealPartFailure (IdealLRUPartReplPolicy c) :=
  (List.finRange c.numLines).foldlM addLine (empty c)

section

variable (policy : IdealLRUPartReplPolicy c)

def setPartitionSizes (sizes : c.Part → Nat) : IdealLRUPartReplPolicy c :=
  { policy with
    targetSize := fun p => sizes p * c.numLines % 2 ^ 32 / c.numBuckets }

/-- A line goes from the list of a partition to the front of another list. -/
def relist (lists : InLists c.Line c.Part) (old new : c.Part) (id : c.Line) :
    Except ListFailure (InLists c.Line c.Part) := do
  let removed ← lists.remove old id
  removed.pushFront new id

/-- `update` for a request of a partition. -/
def update (id : c.Line) (part : c.Part) : Except IdealPartFailure (IdealLRUPartReplPolicy c) :=
  if policy.used id then do
    let lruLists ← within IdealPartFailure.list
      (relist policy.lruLists (policy.p id) (policy.p id) id)
    return { policy with lruLists, updates := policy.updates ++ [id] }
  else do
    let lruLists ← within IdealPartFailure.list (relist policy.lruLists (policy.p id) part id)
    return { policy with
      p := Function.update policy.p id part
      used := Function.update policy.used id true
      lruLists
      size :=
        if policy.p id ≠ part then transfer policy.size (policy.p id) part
        else policy.size
      updates := policy.updates ++ [id] }

def replaced (id : c.Line) : IdealLRUPartReplPolicy c :=
  { policy with used := Function.update policy.used id false }

/-- How far a partition is above its target, in signed numbers of 32 bits and
then in doubles. -/
def diff (p : c.Part) : ℚ := c.fp.round (((((policy.size p : Int).bmod (2 ^ 32) -
        (policy.targetSize p : Int).bmod (2 ^ 32)).bmod (2 ^ 32) : Int) : ℚ) /
      (policy.targetSize p + 1))

/-- The body of the loop over the partitions. -/
def compare (best : c.Part × ℚ) (p : c.Part) : c.Part × ℚ :=
  if best.2 < policy.diff p ∧ 0 < policy.size p then (p, policy.diff p)
  else best

/-- A line of the partition that is furthest above its target, or of the
partition of the request if none is above. -/
def victimPart (part : c.Part) : c.Part := ((List.finRange c.partitions).foldl policy.compare
    (part, if policy.size part = 0 then -2 else 0)).1

def rank (part : c.Part) : Except IdealPartFailure c.Line := do
  let victimPart := policy.victimPart part
  check (0 < policy.size victimPart) .emptyPart
  check (policy.size victimPart = policy.lruLists.elems victimPart) .wrongSize
  match policy.lruLists.back victimPart with
  | some id => return id
  | none => .error .noLine

/-! ## Lists by recency -/

/-- The lines of a partition among those in an order. -/
def members (order : List c.Line) (p : c.Line → c.Part) (part : c.Part) : List c.Line :=
  order.filter fun id => p id = part

/-- A line is removed from the list of its partition. -/
theorem update_members (order : List c.Line) (p : c.Line → c.Part) (id : c.Line) :
    Function.update (members order p) (p id) ((members order p (p id)).erase id) =
      members (order.erase id) p := by
  funext part
  by_cases same : part = p id
  · rw [same, update_self, members, members, filter_erase_of_pos (by simp)]
  · rw [update_of_ne same, members, members, filter_erase_of_neg]
    simpa using Ne.symm same

variable {order : List c.Line}

/-- The line becomes the first one of its new partition. -/
theorem members_touch (nodup : order.Nodup) (p : c.Line → c.Part) (id : c.Line) (part : c.Part) :
    Function.update (members (order.erase id) p) part (id :: members (order.erase id) p part) =
      members (touch order id) (Function.update p id part) := by
  have others : ∀ other, members (order.erase id) (Function.update p id part)
      other = members (order.erase id) p other := by
    intro other
    apply filter_congr
    intro line mem
    have ne : line ≠ id := by
      rintro rfl
      exact nodup.not_mem_erase mem
    rw [update_of_ne ne]
  funext other
  by_cases same : other = part
  · rw [same, update_self, ← others, members, members, touch, filter_cons_of_pos (by simp)]
  · rw [update_of_ne same, ← others, members, members, touch,
      filter_cons_of_neg (by simpa using Ne.symm same)]

theorem relist_spec {lists : InLists c.Line c.Part} {p : c.Line → c.Part}
    (holds : lists.Holds (members order p)) (nodup : order.Nodup)
    {id : c.Line} (mem : id ∈ order) (part : c.Part) :
    Gives (relist lists (p id) part id) fun after =>
      after.Holds (members (touch order id) (Function.update p id part)) := by
  have listed : id ∈ members order p (p id) := mem_filter.mpr ⟨mem, by simp⟩
  apply (holds.remove listed).bind
  rintro removed ⟨holdsRemoved, owner⟩
  rw [update_members] at holdsRemoved
  have isFree : removed.owner id = none := by
    rw [owner, update_self]
  apply (holdsRemoved.pushFront isFree).mono
  intro after holdsAfter
  rwa [members_touch nodup] at holdsAfter

/-- The number of lines in the list of a partition. -/
theorem length_members (nodup : order.Nodup) (all : ∀ id, id ∈ order)
    (p : c.Line → c.Part) (part : c.Part) :
    (members order p part).length = population p part := by
  have distinct : (members order p part).Nodup := nodup.filter _
  rw [← toFinset_card_of_nodup distinct]
  congr 1
  ext id
  simp [members, all id]

/-! ## The policy -/

/-- The lists have the lines of their partitions by recency, and the sizes are
those of the partitions. -/
structure Accounted : Prop where
  holds : policy.lruLists.Holds (members (recency policy.updates) policy.p)
  size : policy.size = population policy.p
  all : ∀ id, id ∈ policy.updates

end

variable {policy : IdealLRUPartReplPolicy c}

theorem Accounted.length (accounted : Accounted policy) (part : c.Part) :
    policy.size part = (members (recency policy.updates) policy.p part).length := by
  rw [accounted.size, length_members (nodup_recency _)]
  exact fun id => mem_recency.mpr (accounted.all id)

/-- While the lines are built. -/
structure Building (policy : IdealLRUPartReplPolicy c) (visited : List c.Line) : Prop where
  updates : policy.updates = visited
  p : policy.p = fun _ => c.firstPart
  used : policy.used = fun _ => true
  target : policy.targetSize = fun _ => c.numLines / c.partitions
  size : policy.size = fun p => if p = c.firstPart then visited.length else 0
  holds : policy.lruLists.Holds (members (recency visited) policy.p)

theorem building_empty (c : IdealPartConfig) : Building (empty c) [] where
  updates := rfl
  p := rfl
  used := rfl
  target := rfl
  size := by
    funext p
    exact (ite_self 0).symm
  holds := InLists.holds_initial

/-- A line that is new. -/
theorem Building.addLine {visited : List c.Line}
    (building : Building policy visited) {id : c.Line} (isNew : id ∉ visited) :
    Gives (policy.addLine id) fun after =>
      Building after (visited ++ [id]) := by
  have absent : id ∉ recency visited := fun mem =>
    isNew (mem_recency.mp mem)
  have isFree : policy.lruLists.owner id = none := by
    cases owner : policy.lruLists.owner id with
    | none => rfl
    | some l =>
      have listed := ((building.holds.contains l).owned id).mp owner
      exact absurd (mem_filter.mp listed).1 absent
  apply Gives.bind (building.holds.pushFront isFree).within
  intro lruLists holds
  have pushed := members_touch (nodup_recency visited) policy.p id c.firstPart
  have sameParts : Function.update policy.p id c.firstPart = policy.p := by
    rw [building.p]
    exact Function.update_eq_self id _
  rw [erase_of_not_mem absent, sameParts, ← recency_concat] at pushed
  rw [pushed] at holds
  exact .pure {
    updates := congrArg (· ++ [id]) building.updates
    p := building.p
    used := building.used
    target := building.target
    size := by
      funext p
      rw [building.size, length_append, length_singleton]
      dsimp only
      by_cases isFirst : p = c.firstPart
      · rw [isFirst, update_self, if_pos rfl, if_pos rfl]
      · rw [update_of_ne isFirst, if_neg isFirst, if_neg isFirst]
    holds := holds }

theorem construct_building (c : IdealPartConfig) : Gives (construct c) fun policy =>
      Building policy (List.finRange c.numLines) := by
  refine .mono (Gives.foldlM (fun visited rest policy =>
      visited ++ rest = finRange c.numLines ∧ Building policy visited)
    ?_ _ _ ⟨rfl, building_empty c⟩) fun _ holds => holds.2
  rintro visited id rest policy ⟨parts, building⟩
  have nodup := nodup_finRange c.numLines
  rw [← parts] at nodup
  have isNew : id ∉ visited := fun mem =>
    (nodup_append.mp nodup).2.2 id mem id mem_cons_self rfl
  apply (building.addLine isNew).mono
  intro after buildingAfter
  refine ⟨?_, buildingAfter⟩
  rw [← parts, append_assoc]
  rfl

theorem Building.accounted (building : Building policy (List.finRange c.numLines)) :
    Accounted policy where
  holds := by
    rw [building.updates]
    exact building.holds
  size := by
    rw [building.size, building.p, population_const, length_finRange, Fintype.card_fin]
  all := by
    rw [building.updates]
    exact mem_finRange

section

variable (accounted : Accounted policy)
include accounted

theorem Accounted.update (id : c.Line) (part : c.Part) :
    Gives (policy.update id part) Accounted := by
  have mem : id ∈ recency policy.updates := mem_recency.mpr (accounted.all id)
  have nodup := nodup_recency policy.updates
  have stays : ∀ other, other ∈ policy.updates ++ [id] := fun other =>
    mem_append_left _ (accounted.all other)
  unfold IdealLRUPartReplPolicy.update
  split
  case isTrue =>
    apply Gives.bind (relist_spec accounted.holds nodup mem (policy.p id)).within
    intro lruLists holds
    rw [Function.update_eq_self, ← recency_concat] at holds
    exact .pure ⟨holds, accounted.size, stays⟩
  case isFalse =>
    apply Gives.bind (relist_spec accounted.holds nodup mem part).within
    intro lruLists holds
    rw [← recency_concat] at holds
    refine .pure ⟨holds, ?_, stays⟩
    have moved : transfer policy.size (policy.p id) part =
        population (Function.update policy.p id part) := by
      rw [accounted.size, transfer_population]
    split
    case isTrue => exact moved
    case isFalse same =>
      rw [← not_not.mp same, Function.update_eq_self]
      exact accounted.size

theorem Accounted.replaced (id : c.Line) : Accounted (policy.replaced id) :=
  ⟨accounted.holds, accounted.size, accounted.all⟩

theorem Accounted.setPartitionSizes (sizes : c.Part → Nat) :
    Accounted (policy.setPartitionSizes sizes) :=
  ⟨accounted.holds, accounted.size, accounted.all⟩

theorem Accounted.sum_size : ∑ p, policy.size p = c.numLines := by
  rw [accounted.size, sum_population, Fintype.card_fin]

theorem Accounted.size_le (p : c.Part) : policy.size p ≤ c.numLines := by
  have bound := population_le policy.p p
  rwa [← accounted.size, Fintype.card_fin] at bound

end

/-! ## Victims -/

/-- In 31 bits, a partition is never a whole target below its target. -/
theorem neg_le_bmod {size target : Nat} (small : size < 2 ^ 31) :
    -((target : Int) + 1) ≤ ((size : Int).bmod (2 ^ 32) - (target : Int).bmod (2 ^ 32)).bmod
        (2 ^ 32) := by
  rw [Int.bmod_eq_of_le (n := size) (by omega) (by omega)]
  by_cases large : 2 ^ 31 ≤ target
  · have least := Int.le_bmod (x := (size : Int) - (target : Int).bmod (2 ^ 32))
      (m := 2 ^ 32) (by omega)
    omega
  · rw [Int.bmod_eq_of_le (n := target) (by omega) (by omega),
      Int.bmod_eq_of_le (by omega) (by omega)]
    omega

theorem le_diff (policy : IdealLRUPartReplPolicy c) {p : c.Part}
    (small : policy.size p < 2 ^ 31) : -1 ≤ policy.diff p := by
  have positive : (0 : ℚ) < policy.targetSize p + 1 := Nat.cast_add_one_pos _
  have bound : (((-((policy.targetSize p : Int) + 1) : Int)) : ℚ) ≤ _ :=
    Int.cast_le.mpr (neg_le_bmod small)
  have above : ((-1 : Int) : ℚ) ≤ policy.diff p := by
    apply c.fp.le_round (by norm_num)
    rw [le_div_iff₀ positive]
    push_cast at bound ⊢
    rwa [neg_one_mul]
  exact_mod_cast above

/-- The loop leaves an empty partition as soon as it sees another one. -/
theorem size_foldl_compare (small : ∀ p, policy.size p < 2 ^ 31)
    (parts : List c.Part) {best : c.Part × ℚ} (start : 0 < policy.size best.1 ∨ best.2 = -2)
    (found : 0 < policy.size best.1 ∨ ∃ p ∈ parts, 0 < policy.size p) :
    0 < policy.size (parts.foldl policy.compare best).1 := by
  induction parts generalizing best with
  | nil =>
    obtain nonempty | ⟨p, mem, -⟩ := found
    · exact nonempty
    · cases mem
  | cons p parts ih =>
    rw [foldl_cons]
    by_cases nonempty : 0 < policy.size p
    · have chosen : 0 < policy.size (policy.compare best p).1 := by
        unfold compare
        split
        case isTrue => exact nonempty
        case isFalse keeps =>
          obtain started | sentinel := start
          · exact started
          exfalso
          apply keeps
          have above := le_diff policy (small p)
          rw [sentinel]
          exact ⟨lt_of_lt_of_le (by norm_num) above, nonempty⟩
      exact ih (.inl chosen) (.inl chosen)
    · have keeps : policy.compare best p = best := if_neg fun takes => nonempty takes.2
      rw [keeps]
      apply ih start
      obtain started | ⟨other, mem, isNonempty⟩ := found
      · exact .inl started
      · obtain rfl | later := mem_cons.mp mem
        · exact absurd isNonempty nonempty
        · exact .inr ⟨other, later, isNonempty⟩

/-- No partition is better than the sentinel. -/
theorem victimPart_of_empty {part : c.Part} (empty : policy.size part = 0)
    (below : ∀ p, ¬ ((-2 : ℚ) < policy.diff p ∧ 0 < policy.size p)) :
    policy.victimPart part = part := by
  have keeps : ∀ parts : List c.Part, parts.foldl policy.compare (part, -2) = (part, -2) := by
    intro parts
    induction parts with
    | nil => rfl
    | cons p parts ih =>
      rw [foldl_cons, compare, if_neg (below p), ih]
  rw [victimPart, if_pos empty, keeps]

theorem Accounted.size_victimPart (accounted : Accounted policy)
    (small : c.numLines < 2 ^ 31) (part : c.Part) :
    0 < policy.size (policy.victimPart part) := by
  apply size_foldl_compare
  · exact fun p => (accounted.size_le p).trans_lt small
  · split
    case isTrue => exact .inr rfl
    case isFalse nonempty => exact .inl (pos_of_ne_zero nonempty)
  · right
    let line : c.Line := ⟨0, c.linesPos⟩
    refine ⟨policy.p line, mem_finRange _, ?_⟩
    rw [accounted.size]
    exact population_pos rfl

/-- The victim is the last line of a partition that is not empty. -/
theorem Accounted.rank (accounted : Accounted policy)
    (small : c.numLines < 2 ^ 31) (part : c.Part) :
    Gives (policy.rank part) fun victim => ∃ p, 0 < policy.size p ∧
      (members (recency policy.updates) policy.p p).getLast? = some victim := by
  have nonempty := accounted.size_victimPart small part
  have contains := accounted.holds.contains (policy.victimPart part)
  have length := accounted.length (policy.victimPart part)
  refine .check nonempty ?_
  refine .check (length.trans contains.size.symm) ?_
  rw [contains.back]
  rw [length, length_pos_iff] at nonempty
  rw [getLast?_eq_some_getLast nonempty]
  refine .pure ⟨policy.victimPart part, ?_, getLast?_eq_some_getLast nonempty⟩
  exact accounted.size_victimPart small part

end IdealLRUPartReplPolicy

/-- `lineAddrs` has the address of each line and `lineMap` its inverse. -/
structure IdealLRUPartArray (c : IdealPartConfig) where
  lineMap : Address → Option c.Line
  lineAddrs : c.Line → Address
  rp : IdealLRUPartReplPolicy c

namespace IdealLRUPartArray

variable {c : IdealPartConfig}

/-- A request: an address, the partition of the mapper, and whether a hit updates
the policy. -/
structure Request (c : IdealPartConfig) where
  lineAddr : Address
  part : c.Part
  updateReplacement : Bool

/-- The outcome of an operation. -/
abbrev Result (c : IdealPartConfig) := Except IdealPartFailure (IdealLRUPartArray c)

def construct (c : IdealPartConfig) : Result c := do
  let rp ← IdealLRUPartReplPolicy.construct c
  return ⟨fun _ => none, fun _ => 0, rp⟩

section

variable (state : IdealLRUPartArray c) (req : Request c)

def lookup : Result c :=
  match state.lineMap req.lineAddr with
  | none => return state
  | some lineId =>
    if req.updateReplacement then do
      let rp ← state.rp.update lineId req.part
      return { state with rp }
    else return state

def preinsert : Except IdealPartFailure c.Line := state.rp.rank req.part

def postinsert (lineId : c.Line) : Result c := do
  let erased := update state.lineMap (state.lineAddrs lineId) none
  check (erased req.lineAddr = none) .duplicate
  let rp ← (state.rp.replaced lineId).update lineId req.part
  return {
    lineMap := update erased req.lineAddr (some lineId)
    lineAddrs := update state.lineAddrs lineId req.lineAddr
    rp }

/-- Lookups, insertions of addresses that were not found, and new targets. There
may be lookups between the two halves of an insertion. -/
inductive Op (c : IdealPartConfig) where
  | lookup (req : Request c)
  | insert (req : Request c) (meanwhile : List (Request c))
  | setPartitionSizes (sizes : c.Part → Nat)

def insert (meanwhile : List (Request c)) : Result c := do
  let victim ← state.preinsert req
  let later ← meanwhile.foldlM lookup state
  later.postinsert req victim

def step : Op c → Result c
  | .lookup req => state.lookup req
  | .insert req meanwhile =>
    if (state.lineMap req.lineAddr).isSome then state.lookup req
    else state.insert req meanwhile
  | .setPartitionSizes sizes =>
    return { state with rp := state.rp.setPartitionSizes sizes }

end

def run (c : IdealPartConfig) (ops : List (Op c)) : Result c := do
  let state ← construct c
  ops.foldlM step state

/-! ## Every run -/

variable {state : IdealLRUPartArray c}

/-- The map is changed by insertions only. -/
theorem lookup_spec (accounted : state.rp.Accounted) (req : Request c) :
    Gives (state.lookup req) fun after =>
      after.rp.Accounted ∧ after.lineMap = state.lineMap := by
  unfold lookup
  split
  case h_1 => exact .pure ⟨accounted, rfl⟩
  case h_2 lineId _ =>
    split
    case isTrue =>
      apply (accounted.update lineId req.part).bind
      intro rp accountedAfter
      exact .pure ⟨accountedAfter, rfl⟩
    case isFalse => exact .pure ⟨accounted, rfl⟩

theorem meanwhile_spec (accounted : state.rp.Accounted) (reqs : List (Request c)) :
    Gives (reqs.foldlM lookup state) fun after =>
      after.rp.Accounted ∧ after.lineMap = state.lineMap := by
  refine .mono (Gives.foldlM (fun _ _ cur =>
      cur.rp.Accounted ∧ cur.lineMap = state.lineMap)
    ?_ _ _ ⟨accounted, rfl⟩) fun _ holds => holds
  rintro _ req _ cur ⟨accountedCurrent, sameMap⟩
  apply (lookup_spec accountedCurrent req).mono
  rintro after ⟨accountedAfter, alsoSame⟩
  exact ⟨accountedAfter, alsoSame.trans sameMap⟩

theorem insert_spec (small : c.numLines < 2 ^ 31) (accounted : state.rp.Accounted) {req : Request c}
    (missed : state.lineMap req.lineAddr = none) (meanwhile : List (Request c)) :
    Gives (state.insert req meanwhile) fun after =>
      after.rp.Accounted := by
  apply (accounted.rank small req.part).bind
  intro victim _
  apply (meanwhile_spec accounted meanwhile).bind
  rintro later ⟨accountedLater, sameMap⟩
  have absent : update later.lineMap (later.lineAddrs victim) none req.lineAddr = none := by
    by_cases same : req.lineAddr = later.lineAddrs victim
    · rw [same, update_self]
    · rw [update_of_ne same, sameMap, missed]
  refine .check absent ?_
  apply ((accountedLater.replaced victim).update victim req.part).bind
  intro rp accountedAfter
  exact .pure accountedAfter

theorem step_spec (small : c.numLines < 2 ^ 31) (accounted : state.rp.Accounted) (op : Op c) :
    Gives (state.step op) fun after => after.rp.Accounted := by
  cases op with
  | lookup req =>
    exact (lookup_spec accounted req).mono fun _ holds => holds.1
  | insert req meanwhile =>
    rw [step]
    split
    case isTrue =>
      exact (lookup_spec accounted req).mono fun _ holds => holds.1
    case isFalse missed =>
      apply insert_spec small accounted
      exact Option.not_isSome_iff_eq_none.mp missed
  | setPartitionSizes sizes =>
    exact .pure (accounted.setPartitionSizes sizes)

/-- The lines of a partition, the most recently updated one first. -/
def byRecency (state : IdealLRUPartArray c) (part : c.Part) : List c.Line :=
  IdealLRUPartReplPolicy.members (recency state.rp.updates) state.rp.p part

/-- The lists are the partitions by recency, the sizes are right, and victims are
the least recently updated lines of partitions that are not empty. -/
structure Partitions (state : IdealLRUPartArray c) : Prop where
  lists : state.rp.lruLists.Holds state.byRecency
  elems : ∀ p, state.rp.size p = state.rp.lruLists.elems p
  length : ∀ p, state.rp.size p = (state.byRecency p).length
  size : ∀ p, state.rp.size p = population state.rp.p p
  total : ∑ p, state.rp.size p = c.numLines
  rank : ∀ part, Gives (state.rp.rank part) fun victim =>
    ∃ p, 0 < state.rp.size p ∧ (state.byRecency p).getLast? = some victim

theorem partitions_of_accounted (small : c.numLines < 2 ^ 31)
    (accounted : state.rp.Accounted) : Partitions state where
  lists := accounted.holds
  elems := fun p =>
    (accounted.length p).trans (accounted.holds.contains p).size.symm
  length := accounted.length
  size := congrFun accounted.size
  total := accounted.sum_size
  rank := accounted.rank small

/-- An array that was just built. -/
theorem construct_spec (c : IdealPartConfig) : Gives (construct c) fun state =>
      state.lineMap = (fun _ => none) ∧
      state.rp.Building (List.finRange c.numLines) := by
  apply (IdealLRUPartReplPolicy.construct_building c).bind
  intro rp building
  exact .pure ⟨rfl, building⟩

/-- With fewer than `2 ^ 31` lines, every run succeeds and keeps the array
partitioned. -/
theorem partitioned_lru (small : c.numLines < 2 ^ 31) (ops : List (Op c)) :
    Gives (run c ops) Partitions := by
  apply (construct_spec c).bind
  rintro start ⟨-, building⟩
  refine .mono (Gives.foldlM (fun _ _ state => state.rp.Accounted) ?_ _ _ building.accounted) ?_
  · intro _ op _ state accounted
    exact step_spec small accounted op
  · intro state accounted
    exact partitions_of_accounted small accounted

/-- Two partitions of a cache with the given number of lines. -/
def twoParts (numLines : Nat) (linesPos : 0 < numLines) : IdealPartConfig where
  partitions := 2
  numLines := numLines
  numBuckets := 256
  fp := Rounding.none
  partitionsPos := two_pos
  linesPos := linesPos

def secondPart (numLines : Nat) (linesPos : 0 < numLines) : (twoParts numLines linesPos).Part :=
  ⟨1, Nat.one_lt_two⟩

/-- Requests of the second partition for three addresses. -/
def threeInsertions : List (Op (twoParts 5 (Nat.succ_pos 4))) :=
  [.insert ⟨5, secondPart 5 (Nat.succ_pos 4), true⟩ [],
    .setPartitionSizes fun _ => 128,
    .insert ⟨6, secondPart 5 (Nat.succ_pos 4), true⟩ [⟨5, secondPart 5 (Nat.succ_pos 4), true⟩],
    .insert ⟨7, secondPart 5 (Nat.succ_pos 4), true⟩ []]

theorem partitioned_lru_five : (twoParts 5 (Nat.succ_pos 4)).numLines < 2 ^ 31 ∧
      Gives (run (twoParts 5 (Nat.succ_pos 4)) threeInsertions)
        Partitions :=
  ⟨by decide, partitioned_lru (by decide) threeInsertions⟩

/-- All lines are in the first partition. A size of `2 ^ 31` is negative as a
signed number, so that the empty second partition is to give a line. -/
theorem lines_overflow : run (twoParts (2 ^ 31) (Nat.two_pow_pos 31))
      [.setPartitionSizes fun _ => 0,
        .insert ⟨5, secondPart (2 ^ 31) (Nat.two_pow_pos 31), true⟩ []] = .error .emptyPart := by
  obtain ⟨state, returns, noLines, building⟩ :=
    construct_spec (twoParts (2 ^ 31) (Nat.two_pow_pos 31))
  let policy := state.rp.setPartitionSizes fun _ => 0
  have size : ∀ p, policy.size p =
      if p = (twoParts (2 ^ 31) (Nat.two_pow_pos 31)).firstPart then 2 ^ 31
      else 0 := by
    intro p
    have sizes := congrFun building.size p
    rwa [length_finRange] at sizes
  have empty : policy.size (secondPart (2 ^ 31) (Nat.two_pow_pos 31)) = 0 := by
    rw [size]
    exact if_neg (by decide)
  have below : ∀ p, ¬ ((-2 : ℚ) < policy.diff p ∧ 0 < policy.size p) := by
    rintro p ⟨above, nonempty⟩
    have large : policy.size p = 2 ^ 31 := by
      rw [size] at nonempty ⊢
      split at nonempty
      case isTrue isFirst => exact if_pos isFirst
      case isFalse => exact absurd nonempty (lt_irrefl 0)
    have isTarget : policy.targetSize p = 0 := by
      change 0 * 2 ^ 31 % 2 ^ 32 / 256 = 0
      decide
    have wraps : (((2 ^ 31 : Nat) : Int).bmod (2 ^ 32) -
        ((0 : Nat) : Int).bmod (2 ^ 32)).bmod (2 ^ 32) = -2 ^ 31 := by decide
    rw [IdealLRUPartReplPolicy.diff, large, isTarget] at above
    change (-2 : ℚ) < ((-2 ^ 31 : Int) : ℚ) / ((0 : Nat) + 1) at above
    norm_num at above
  have failed : policy.rank (secondPart (2 ^ 31) (Nat.two_pow_pos 31)) = .error .emptyPart := by
    have stays := IdealLRUPartReplPolicy.victimPart_of_empty empty below
    rw [IdealLRUPartReplPolicy.rank, stays, empty]
    rfl
  have targets : state.step (.setPartitionSizes fun _ => 0) = .ok { state with rp := policy } := rfl
  have misses : ¬ (state.lineMap 5).isSome = true := by
    rw [noLines]
    exact Bool.false_ne_true
  rw [run, returns, ok_bind, foldlM_cons, targets, ok_bind,
    foldlM_cons, step, if_neg misses, insert, preinsert, failed]
  rfl

end IdealLRUPartArray

end Damov.Arrays
