import Damov.Library.Counting
import Damov.Library.Checked
import Damov.Library.Extrema
import Mathlib.Algebra.BigOperators.Fin

/-!
# Way partitioning

`WayPartReplPolicy` gives each way of a set-associative cache to a partition. A
line of a partition is inserted in one of the ways of the partition, over a line
of another partition if there is one and else over the least recently used one.
The sizes of the partitions are counted as lines change hands: a line keeps its
partition when it is replaced, and the update that follows moves it to the
partition that was noted when the replacement started.
-/

namespace Damov.Replacement

open Library Checked Counting Function

structure WayPartConfig where
  partitions : Nat
  ways : Nat
  waySize : Nat
  testMode : Bool
  partitionsPos : 0 < partitions
  waysPos : 0 < ways

namespace WayPartConfig

variable (c : WayPartConfig)

/-- Partitions; the mapper maps each request to one. -/
abbrev Part := Fin c.partitions

def firstPart : c.Part := ⟨0, c.partitionsPos⟩

/-- A line, by its set and its way. -/
abbrev Line := Fin c.waySize × Fin c.ways

def totalSize : Nat := c.waySize * c.ways

/-- The lines that are offered for a set, in the order of the ways. -/
def candidates (set : Fin c.waySize) : List c.Line :=
  (List.finRange c.ways).map fun way => (set, way)

/-- The partitions of the ways as they are constructed, in 32 bits. -/
def initialWays (way : Nat) : Nat := way * c.partitions % 2 ^ 32 / c.ways

/-- Each partition has a way. -/
def Covers (wayPartIndex : Nat → Nat) : Prop := ∀ p : c.Part, ∃ way < c.ways, wayPartIndex way = p

/-- With a way for each partition, and products that fit in 32 bits, the first way at
or after the share of a partition is its own. -/
theorem initial_covers (enough : c.partitions ≤ c.ways) (fits : c.ways * c.partitions ≤ 2 ^ 32) :
    c.Covers c.initialWays := by
  intro p
  have isPart := p.isLt
  have positive := c.partitionsPos
  have share : p * c.ways + c.ways ≤ c.partitions * c.ways := by
    rw [← Nat.succ_mul]
    exact Nat.mul_le_mul_right _ isPart
  have notBefore := Nat.lt_div_mul_add (a := p * c.ways + c.partitions - 1) positive
  have notAfter := Nat.div_mul_le_self (p * c.ways + c.partitions - 1) c.partitions
  generalize (p * c.ways + c.partitions - 1) / c.partitions = way at notBefore notAfter
  have isWay : way < c.ways := by
    by_contra isAfter
    have := Nat.mul_le_mul_right c.partitions (Nat.le_of_not_lt isAfter)
    have := Nat.mul_comm c.ways c.partitions
    omega
  refine ⟨way, isWay, ?_⟩
  have small : way * c.partitions < 2 ^ 32 :=
    (Nat.mul_lt_mul_of_pos_right isWay positive).trans_le fits
  rw [initialWays, Nat.mod_eq_of_lt small]
  apply Nat.div_eq_of_lt_le
  · omega
  · rw [Nat.succ_mul]
    omega

end WayPartConfig

/-- The time of the last use, 0 for an empty line, and the partition. -/
structure WayPartInfo (c : WayPartConfig) where
  ts : Nat
  p : c.Part

inductive WayPartFailure where
  | candidatesLeft
  | bestLeft
  | tooManyCandidates
  | noCandidate
  | waysLeft
  deriving DecidableEq

structure WayPartReplPolicy (c : WayPartConfig) where
  size : c.Part → Nat
  array : c.Line → WayPartInfo c
  wayPartIndex : Nat → Nat
  bestId : Option c.Line
  candIdx : Nat
  incomingLinePart : c.Part
  timestamp : Nat

namespace WayPartReplPolicy

variable {c : WayPartConfig} (incoming : c.Part)

/-- The policy as it is constructed. All lines are in the first partition. No
line has come in yet, so `incomingLinePart` is arbitrary. -/
def initial : WayPartReplPolicy c where
  size := fun p => if p = c.firstPart then c.totalSize else 0
  array := fun _ => ⟨0, c.firstPart⟩
  wayPartIndex := c.initialWays
  bestId := none
  candIdx := 0
  incomingLinePart := incoming
  timestamp := 1

section

variable (rp : WayPartReplPolicy c) (id : c.Line)

/-- An empty line goes to the partition of the line that came in. -/
def fill : WayPartReplPolicy c :=
  { rp with
    size :=
      if (rp.array id).p ≠ rp.incomingLinePart then
        transfer rp.size (rp.array id).p rp.incomingLinePart
      else rp.size
    array := Function.update rp.array id { rp.array id with p := rp.incomingLinePart } }

def use : WayPartReplPolicy c :=
  { rp with
    array := Function.update rp.array id { rp.array id with ts := rp.timestamp }
    timestamp := rp.timestamp + 1 }

def update : WayPartReplPolicy c :=
  if 0 < (rp.array id).ts then rp.use id else (rp.fill id).use id

/-- The outcome of an operation. -/
abbrev Result (c : WayPartConfig) := Except WayPartFailure (WayPartReplPolicy c)

def startReplacement (part : c.Part) : Result c := do
  check (rp.candIdx = 0) .candidatesLeft
  check (rp.bestId = none) .bestLeft
  return { rp with incomingLinePart := part }

/-- The better victim of the best candidate so far and another one. -/
def better : c.Line :=
  match rp.bestId with
  | none => id
  | some bestId =>
    let cand := rp.array id
    let best := rp.array bestId
    if c.testMode ∨ (cand.p = rp.incomingLinePart ∧ best.p = rp.incomingLinePart) then
      if cand.ts < best.ts then id else bestId
    else if cand.p = rp.incomingLinePart ∧ best.p ≠ rp.incomingLinePart then
      bestId
    else if cand.p ≠ rp.incomingLinePart ∧ best.p = rp.incomingLinePart then
      id
    else if cand.ts < best.ts then id else bestId

def recordCandidate : Result c := do
  check (rp.candIdx < c.ways) .tooManyCandidates
  return { rp with
    bestId :=
      if c.testMode ∨ rp.wayPartIndex rp.candIdx = rp.incomingLinePart then
        some (rp.better id)
      else rp.bestId
    candIdx := rp.candIdx + 1 }

def getBestCandidate : Except WayPartFailure c.Line :=
  match rp.bestId with
  | some bestId => .ok bestId
  | none => .error .noCandidate

/-- `LegacyReplPolicy::rank`, for a request of a partition. -/
def rank (part : c.Part) (cands : List c.Line) :
    Except WayPartFailure (c.Line × WayPartReplPolicy c) := do
  let started ← rp.startReplacement part
  let ranked ← cands.foldlM recordCandidate started
  let bestId ← ranked.getBestCandidate
  return (bestId, ranked)

def replaced : WayPartReplPolicy c :=
  { rp with
    candIdx := 0
    bestId := none
    array := Function.update rp.array id { rp.array id with ts := 0 } }

/-- The inner loop of `setPartitionSizes`. -/
def assignWays (p : c.Part) : Nat → Nat × (Nat → Nat) → Nat × (Nat → Nat)
  | 0, loop => loop
  | count + 1, loop =>
    assignWays p count (loop.1 + 1, Function.update loop.2 loop.1 p)

def setPartitionSizes (waysPart : c.Part → Nat) : Result c := do
  let assigned := (List.finRange c.partitions).foldl
    (fun loop p => assignWays p (waysPart p) loop) (0, rp.wayPartIndex)
  check (assigned.1 = c.ways) .waysLeft
  return { rp with wayPartIndex := assigned.2 }

/-! ## Runs -/

/-- All ways, with at least one for each partition. -/
structure Assignment (c : WayPartConfig) where
  waysPart : c.Part → Nat
  complete : ∑ p, waysPart p = c.ways
  atLeastOne : ∀ p, 1 ≤ waysPart p

/-- The uses of the policy by a cache. There may be hits between the two halves
of a replacement. -/
inductive Op (c : WayPartConfig) where
  | hit (id : c.Line)
  | miss (set : Fin c.waySize) (part : c.Part) (meanwhile : List c.Line)
  | setPartitionSizes (assignment : Assignment c)

def step : Op c → Result c
  | .hit id => return rp.update id
  | .miss set part meanwhile => do
      let ranked ← rp.rank part (c.candidates set)
      return ((meanwhile.foldl update ranked.2).replaced ranked.1).update ranked.1
  | .setPartitionSizes assignment =>
    rp.setPartitionSizes assignment.waysPart

def run (ops : List (Op c)) : Result c := ops.foldlM step (initial incoming)

/-! ## Sizes -/

/-- The sizes are those of the partitions. -/
def Accounted : Prop := rp.size = population fun line => (rp.array line).p

theorem accounted_initial : Accounted (initial incoming) := by
  rw [Accounted, initial, population_const, Fintype.card_prod, Fintype.card_fin, Fintype.card_fin]
  rfl

/-- A line that keeps its partition does not change the sizes. -/
theorem Accounted.keepPart {rp after : WayPartReplPolicy c}
    (accounted : Accounted rp) (size : after.size = rp.size)
    (parts : ∀ line, (after.array line).p = (rp.array line).p) :
    Accounted after := by
  unfold Accounted
  rw [size, show (fun line => (after.array line).p) =
    fun line => (rp.array line).p from funext parts]
  exact accounted

theorem p_update (info : WayPartInfo c) (samePart : info.p = (rp.array id).p) (line : c.Line) :
    (Function.update rp.array id info line).p = (rp.array line).p := by
  by_cases same : line = id
  · rw [same, update_self, samePart]
  · rw [update_of_ne same]

end

variable {rp : WayPartReplPolicy c}

section

variable (accounted : Accounted rp)
include accounted

variable (id : c.Line)

theorem Accounted.use : Accounted (rp.use id) := accounted.keepPart rfl (p_update rp id _ rfl)

theorem Accounted.replaced : Accounted (rp.replaced id) :=
  accounted.keepPart rfl (p_update rp id _ rfl)

/-- The line is counted in its new partition. -/
theorem Accounted.fill : Accounted (rp.fill id) := by
  by_cases same : (rp.array id).p = rp.incomingLinePart
  · apply accounted.keepPart
    · exact if_neg (not_not_intro same)
    · exact p_update rp id _ same.symm
  have parts : (fun line => ((rp.fill id).array line).p) =
      Function.update (fun line => (rp.array line).p) id
        rp.incomingLinePart :=
    funext fun line => apply_update (fun _ => WayPartInfo.p) rp.array id _ line
  have size : (rp.fill id).size = transfer rp.size (rp.array id).p rp.incomingLinePart :=
    if_pos same
  rw [Accounted, parts, size, ← transfer_population, ← accounted]

theorem Accounted.update : Accounted (rp.update id) := by
  unfold WayPartReplPolicy.update
  split
  case isTrue => exact accounted.use id
  case isFalse => exact (accounted.fill id).use id

theorem Accounted.sum_size : ∑ p, rp.size p = c.totalSize := by
  rw [accounted, sum_population, Fintype.card_prod, Fintype.card_fin, Fintype.card_fin]
  rfl

end

/-! ## Victims -/

/-- Whether a line is in a way that the partition can fill. -/
def fillable (rp : WayPartReplPolicy c) (part : c.Part) (line : c.Line) :
    Bool :=
  c.testMode || rp.wayPartIndex line.2 == part

/-- Lines of other partitions are better victims, and then older lines. -/
def cost (rp : WayPartReplPolicy c) (part : c.Part) (line : c.Line) : Bool ×ₗ Nat :=
  toLex (!c.testMode && decide ((rp.array line).p = part), (rp.array line).ts)

variable {part : c.Part} {line id : c.Line} {visited : List c.Line} {set : Fin c.waySize}

theorem cost_lt {other : c.Line} : rp.cost part line < rp.cost part other ↔
      (c.testMode = false ∧ (rp.array line).p ≠ part ∧ (rp.array other).p = part) ∨
      ((c.testMode = true ∨ ((rp.array line).p = part ↔ (rp.array other).p = part)) ∧
        (rp.array line).ts < (rp.array other).ts) := by
  rw [cost, cost, Prod.Lex.toLex_lt_toLex]
  cases c.testMode with
  | true => simp
  | false =>
    by_cases mine : (rp.array line).p = part <;>
      by_cases its : (rp.array other).p = part <;> simp [mine, its]

/-- The four cases of the source are a comparison of costs. -/
theorem better_eq {bestId : c.Line} (isBest : rp.bestId = some bestId) :
    rp.better id = if rp.cost rp.incomingLinePart id < rp.cost rp.incomingLinePart bestId then id
      else bestId := by
  rw [better, isBest]
  simp only [cost_lt]
  cases c.testMode with
  | true => simp
  | false =>
    by_cases mine : (rp.array id).p = rp.incomingLinePart <;>
      by_cases its : (rp.array bestId).p = rp.incomingLinePart <;> simp [mine, its]

/-- The state of a replacement after some candidates. -/
structure Ranks (rp : WayPartReplPolicy c) (part : c.Part)
    (visited : List c.Line) (ranked : WayPartReplPolicy c) : Prop where
  size : ranked.size = rp.size
  array : ranked.array = rp.array
  wayPartIndex : ranked.wayPartIndex = rp.wayPartIndex
  incoming : ranked.incomingLinePart = part
  candIdx : ranked.candIdx = visited.length
  best : BestOf (rp.cost part) (visited.filter (rp.fillable part)) ranked.bestId

theorem Ranks.cost_eq {ranked : WayPartReplPolicy c} (ranks : Ranks rp part visited ranked) :
    ranked.cost part = rp.cost part := by
  funext line
  rw [cost, cost, ranks.array]

theorem Ranks.recordCandidate {ranked : WayPartReplPolicy c}
    (ranks : Ranks rp part visited ranked) (isWay : id.2.val = visited.length) :
    Gives (ranked.recordCandidate id) (Ranks rp part (visited ++ [id])) := by
  have mem : ranked.candIdx < c.ways := by
    rw [ranks.candIdx, ← isWay]
    exact id.2.isLt
  refine .check mem ?_
  refine .pure ?_
  have fills : (c.testMode = true ∨ ranked.wayPartIndex ranked.candIdx = ranked.incomingLinePart) ↔
        rp.fillable part id = true := by
    rw [ranks.candIdx, ranks.wayPartIndex, ranks.incoming, fillable,
      Bool.or_eq_true, beq_iff_eq, isWay]
  refine ⟨ranks.size, ranks.array, ranks.wayPartIndex, ranks.incoming, ?_, ?_⟩
  · rw [List.length_append, ← ranks.candIdx]
    rfl
  · rw [List.filter_append]
    by_cases isFillable : rp.fillable part id = true
    · rw [if_pos (fills.mpr isFillable), List.filter_cons_of_pos isFillable]
      apply ranks.best.add
      · intro isNone
        rw [better, isNone]
      · intro old isOld
        rw [better_eq isOld, ranks.incoming, ranks.cost_eq]
    · rw [if_neg fun does => isFillable (fills.mp does),
        List.filter_cons_of_neg isFillable, List.filter_nil, List.append_nil]
      exact ranks.best

theorem length_of_candidates {rest : List c.Line}
    (split : c.candidates set = visited ++ id :: rest) :
    id.2.val = visited.length := by
  have isNext : (c.candidates set)[visited.length]? = some id := by
    rw [split]
    simp
  rw [WayPartConfig.candidates, List.getElem?_map] at isNext
  obtain ⟨way, isWay, rfl⟩ := Option.map_eq_some_iff.mp isNext
  obtain ⟨mem, rfl⟩ := List.getElem?_eq_some_iff.mp isWay
  simp

/-- Before and after each replacement. -/
structure Idle (rp : WayPartReplPolicy c) : Prop where
  candIdx : rp.candIdx = 0
  bestId : rp.bestId = none

theorem Ranks.foldlM (idle : Idle rp) (part : c.Part) (set : Fin c.waySize) :
    Gives ((c.candidates set).foldlM WayPartReplPolicy.recordCandidate
        { rp with incomingLinePart := part })
      (Ranks rp part (c.candidates set)) := by
  have started : Ranks rp part [] { rp with incomingLinePart := part } :=
    { size := rfl
      array := rfl
      wayPartIndex := rfl
      incoming := rfl
      candIdx := idle.candIdx
      best := by
        rw [idle.bestId]
        rfl }
  refine .mono (Gives.foldlM (fun visited rest ranked =>
      c.candidates set = visited ++ rest ∧ Ranks rp part visited ranked)
      ?_ _ _ ⟨rfl, started⟩) ?_
  · rintro visited id rest ranked ⟨split, ranks⟩
    apply (ranks.recordCandidate (length_of_candidates split)).mono
    intro after ranksAfter
    refine ⟨?_, ranksAfter⟩
    rw [split, List.append_assoc]
    rfl
  · exact fun ranked holds => holds.2

/-- A partition with a way has candidates in each set. -/
theorem exists_fillable (covers : c.Covers rp.wayPartIndex) (part : c.Part) (set : Fin c.waySize) :
    ∃ line ∈ c.candidates set, rp.fillable part line = true := by
  obtain ⟨way, isWay, isPart⟩ := covers part
  refine ⟨(set, ⟨way, isWay⟩), ?_, ?_⟩
  · exact List.mem_map.mpr ⟨⟨way, isWay⟩, List.mem_finRange _, rfl⟩
  · rw [fillable, isPart, beq_self_eq_true, Bool.or_true]

theorem rank_spec (idle : Idle rp) (part : c.Part) (set : Fin c.waySize) :
    Ends (fun err => err = .noCandidate ∧ ¬ c.Covers rp.wayPartIndex)
      (rp.rank part (c.candidates set))
      (fun ranked => Ranks rp part (c.candidates set) ranked.2 ∧
        ranked.2.bestId = some ranked.1) := by
  rw [rank, startReplacement, check_true_bind idle.candIdx, check_true_bind idle.bestId]
  apply Ends.bind (Ends.of_gives (Ranks.foldlM idle part set))
  intro ranked ranks
  rw [getBestCandidate]
  cases isBest : ranked.bestId with
  | some bestId => exact .pure ⟨ranks, isBest⟩
  | none =>
    apply Ends.error
    refine ⟨rfl, fun covers => ?_⟩
    have noneLeft := ranks.best
    rw [isBest] at noneLeft
    obtain ⟨line, mem, isFillable⟩ := exists_fillable covers part set
    exact List.filter_eq_nil_iff.mp noneLeft line mem isFillable

/-- The ways of the set that the partition can fill. -/
def InWays (rp : WayPartReplPolicy c) (part : c.Part)
    (set : Fin c.waySize) (line : c.Line) : Prop :=
  line.1 = set ∧ rp.wayPartIndex line.2 = part

/-- The victim for a line of the partition: it is in one of the partition's ways,
and it is the oldest of the lines there that other partitions own, if there are
any, and else the oldest of all lines there. -/
structure IsVictim (rp : WayPartReplPolicy c) (part : c.Part)
    (set : Fin c.waySize) (victim : c.Line) : Prop where
  inWays : rp.InWays part set victim
  foreign : ∀ other, rp.InWays part set other → (rp.array other).p ≠ part →
      (rp.array victim).p ≠ part ∧ (rp.array victim).ts ≤ (rp.array other).ts
  own : (∀ other, rp.InWays part set other → (rp.array other).p = part) →
    ∀ other, rp.InWays part set other → (rp.array victim).ts ≤ (rp.array other).ts

theorem mem_candidates : line ∈ c.candidates set ↔ line.1 = set := by
  rw [WayPartConfig.candidates, List.mem_map]
  constructor
  · rintro ⟨way, -, rfl⟩
    rfl
  · rintro rfl
    exact ⟨line.2, List.mem_finRange _, rfl⟩

theorem inWays_iff (enforced : c.testMode = false) :
    line ∈ (c.candidates set).filter (rp.fillable part) ↔ rp.InWays part set line := by
  rw [List.mem_filter, mem_candidates, fillable, enforced, Bool.false_or, beq_iff_eq]
  rfl

/-- The candidate of the lowest cost is the victim. -/
theorem isVictim_of_leads (enforced : c.testMode = false) {victim : c.Line}
    (leads : Leads (rp.cost part) ((c.candidates set).filter (rp.fillable part)) victim) :
    rp.IsVictim part set victim := by
  have least : ∀ other, rp.InWays part set other → ¬ rp.cost part other < rp.cost part victim :=
    fun other inWays => not_lt_of_ge (leads.le ((inWays_iff enforced).mpr inWays))
  have inWays := (inWays_iff enforced).mp leads.mem
  refine ⟨inWays, ?_, ?_⟩
  · intro other inWaysOther isForeign
    have notBetter := least other inWaysOther
    rw [cost_lt] at notBetter
    have victimForeign : (rp.array victim).p ≠ part := fun isOwn =>
      notBetter (.inl ⟨enforced, isForeign, isOwn⟩)
    refine ⟨victimForeign, Nat.le_of_not_lt fun older => notBetter ?_⟩
    exact .inr ⟨.inr (iff_of_false isForeign victimForeign), older⟩
  · intro allOwn other inWaysOther
    have notBetter := least other inWaysOther
    rw [cost_lt] at notBetter
    refine Nat.le_of_not_lt fun older => notBetter ?_
    exact .inr ⟨.inr (iff_of_true (allOwn other inWaysOther) (allOwn victim inWays)), older⟩

/-! ## Assignments -/

/-- A partition gets the next ways. -/
theorem assignWays_spec (p : c.Part) (count : Nat) (loop : Nat × (Nat → Nat)) :
    (assignWays p count loop).1 = loop.1 + count ∧
    (∀ way < loop.1, (assignWays p count loop).2 way = loop.2 way) ∧
    ∀ way, loop.1 ≤ way → way < loop.1 + count → (assignWays p count loop).2 way = p := by
  induction count generalizing loop with
  | zero =>
    refine ⟨rfl, fun _ _ => rfl, fun way notBefore before => ?_⟩
    exact absurd before (Nat.not_lt_of_le notBefore)
  | succ count ih =>
    obtain ⟨next, kept, assigned⟩ := ih (loop.1 + 1, Function.update loop.2 loop.1 p)
    rw [assignWays]
    dsimp only at next kept assigned
    refine ⟨by omega, ?_, ?_⟩
    · intro way before
      rw [kept way (by omega), update_of_ne (by omega)]
    · intro way notBefore before
      by_cases isFirst : way = loop.1
      · rw [isFirst, kept loop.1 (Nat.lt_succ_self _), update_self]
      · exact assigned way (by omega) (by omega)

/-- The loop over the partitions gives ways to each of them. -/
theorem foldl_assignWays (waysPart : c.Part → Nat) (parts : List c.Part)
    (loop : Nat × (Nat → Nat)) :
    (parts.foldl (fun loop p => assignWays p (waysPart p) loop) loop).1 =
      loop.1 + (parts.map waysPart).sum ∧
    (∀ way < loop.1, (parts.foldl (fun loop p => assignWays p (waysPart p) loop) loop).2 way =
        loop.2 way) ∧
    ∀ p ∈ parts, 1 ≤ waysPart p → ∃ way, way < loop.1 + (parts.map waysPart).sum ∧
      (parts.foldl (fun loop p => assignWays p (waysPart p) loop) loop).2 way =
        p := by
  induction parts generalizing loop with
  | nil =>
    exact ⟨rfl, fun _ _ => rfl, nofun⟩
  | cons first parts ih =>
    obtain ⟨next, before, mine⟩ := assignWays_spec first (waysPart first) loop
    obtain ⟨total, kept, assigned⟩ := ih (assignWays first (waysPart first) loop)
    rw [List.foldl_cons, List.map_cons, List.sum_cons, ← add_assoc, ← next]
    refine ⟨total, ?_, ?_⟩
    · intro way early
      rw [kept way (by omega), before way early]
    · intro p mem atLeastOne
      cases List.mem_cons.mp mem with
      | inl isFirst =>
        rw [isFirst] at atLeastOne
        refine ⟨loop.1, by omega, ?_⟩
        rw [kept loop.1 (by omega), mine loop.1 le_rfl (by omega), isFirst]
      | inr later => exact assigned p later atLeastOne

section

variable (rp : WayPartReplPolicy c)

theorem setPartitionSizes_spec (assignment : Assignment c) :
    Gives (rp.setPartitionSizes assignment.waysPart) fun after =>
      c.Covers after.wayPartIndex ∧ after = { rp with wayPartIndex := after.wayPartIndex } := by
  obtain ⟨total, -, assigned⟩ := foldl_assignWays assignment.waysPart
    (List.finRange c.partitions) (0, rp.wayPartIndex)
  have all : ((List.finRange c.partitions).map assignment.waysPart).sum =
      c.ways := by
    rw [← assignment.complete, Fin.sum_univ_def]
  rw [all, zero_add] at total assigned
  refine .check total ?_
  refine .pure ⟨fun p => ?_, rfl⟩
  exact assigned p (List.mem_finRange p) (assignment.atLeastOne p)

/-! ## Every run -/

/-- The state between two uses. -/
structure Ready : Prop where
  accounted : Accounted rp
  idle : Idle rp

theorem ready_initial : Ready (initial incoming) where
  accounted := accounted_initial incoming
  idle := ⟨rfl, rfl⟩

/-- What an update leaves alone. -/
theorem update_frame (id : c.Line) : (rp.update id).candIdx = rp.candIdx ∧
    (rp.update id).bestId = rp.bestId ∧
    (rp.update id).wayPartIndex = rp.wayPartIndex := by
  unfold update
  split
  all_goals exact ⟨rfl, rfl, rfl⟩

end

theorem Ready.update (ready : Ready rp) (id : c.Line) : Ready (rp.update id) := by
  obtain ⟨candIdx, bestId, -⟩ := update_frame rp id
  exact {
    accounted := ready.accounted.update id
    idle := ⟨candIdx.trans ready.idle.candIdx, bestId.trans ready.idle.bestId⟩ }

/-- Hits between the halves of a replacement. -/
theorem foldl_update (accounted : Accounted rp) (hits : List c.Line) :
    Accounted (hits.foldl WayPartReplPolicy.update rp) ∧
      (hits.foldl WayPartReplPolicy.update rp).wayPartIndex =
        rp.wayPartIndex := by
  induction hits generalizing rp with
  | nil => exact ⟨accounted, rfl⟩
  | cons id hits ih =>
    obtain ⟨after, wayPartIndex⟩ := ih (accounted.update id)
    exact ⟨after, wayPartIndex.trans (update_frame rp id).2.2⟩

/-- A use stops only for a partition without a way, and leaves each partition its
ways. -/
theorem Ready.step (ready : Ready rp) (op : Op c) :
    Ends (fun err => err = .noCandidate ∧ ¬ c.Covers rp.wayPartIndex) (step rp op)
      fun after => Ready after ∧ (c.Covers rp.wayPartIndex → c.Covers after.wayPartIndex) := by
  cases op with
  | hit id =>
    exact .pure ⟨ready.update id, fun covers => (update_frame rp id).2.2 ▸ covers⟩
  | miss set part meanwhile =>
    apply Ends.bind (rank_spec ready.idle part set)
    rintro ⟨victim, ranked⟩ ⟨ranks, -⟩
    have accounted : Accounted ranked :=
      ready.accounted.keepPart ranks.size fun line => by rw [ranks.array]
    obtain ⟨after, wayPartIndex⟩ := foldl_update accounted meanwhile
    have readyReplaced : Ready ((meanwhile.foldl WayPartReplPolicy.update ranked).replaced
          victim) :=
      { accounted := after.replaced victim
        idle := ⟨rfl, rfl⟩ }
    refine .pure ⟨readyReplaced.update victim, fun covers => ?_⟩
    rw [← ranks.wayPartIndex, ← wayPartIndex] at covers
    dsimp only
    rwa [(update_frame _ victim).2.2]
  | setPartitionSizes assignment =>
    obtain ⟨after, returns, covers, same⟩ := setPartitionSizes_spec rp assignment
    rw [WayPartReplPolicy.step, returns]
    refine .ok ⟨?_, fun _ => covers⟩
    rw [same]
    exact ⟨ready.accounted, ready.idle.candIdx, ready.idle.bestId⟩

theorem isVictim_of_ranked (enforced : c.testMode = false) {part : c.Part} {set : Fin c.waySize}
    {ranked : c.Line × WayPartReplPolicy c}
    (ranks : Ranks rp part (c.candidates set) ranked.2 ∧ ranked.2.bestId = some ranked.1) :
    rp.IsVictim part set ranked.1 := by
  have leads := ranks.1.best
  rw [ranks.2] at leads
  exact isVictim_of_leads enforced leads

/-- The sizes are right, and every request finds a victim. -/
def Supplies (rp : WayPartReplPolicy c) : Prop :=
  Accounted rp ∧ ∀ part set, Gives (rp.rank part (c.candidates set)) fun ranked =>
    c.testMode = false → rp.IsVictim part set ranked.1

/-- Where each partition has a way, every run goes on. -/
theorem Ready.foldlM (ready : Ready rp) (covers : c.Covers rp.wayPartIndex)
    (ops : List (Op c)) : Gives (ops.foldlM WayPartReplPolicy.step rp) Supplies := by
  have ran : Gives (ops.foldlM WayPartReplPolicy.step rp) fun after =>
      Ready after ∧ c.Covers after.wayPartIndex := by
    refine .foldlM (fun _ _ after => Ready after ∧ c.Covers after.wayPartIndex) ?_ _ _
      ⟨ready, covers⟩
    rintro _ op _ rp ⟨ready, covers⟩
    refine (ready.step op).gives_of (fun _ stops => stops.2 covers) fun after kept => ?_
    exact ⟨kept.1, kept.2 covers⟩
  refine ran.mono fun after holds => ⟨holds.1.accounted, fun part set => ?_⟩
  exact (rank_spec holds.1.idle part set).gives_of (fun _ stops => stops.2 holds.2)
    fun ranked ranks enforced => isVictim_of_ranked enforced ranks

/-- A partition is left without a candidate only if it had no way from the
start. -/
def Uncovered (c : WayPartConfig) (failure : WayPartFailure) : Prop :=
  failure = .noCandidate ∧ ¬ c.Covers c.initialWays

/--
In every run the sizes are those of the partitions and sum up to the size of the
cache, and outside of test mode each replacement takes a victim in the ways of
the partition. A run can only fail for a partition that the constructor left
without a way, and not once the sizes of the partitions have been set. The constructor
leaves none without if there are enough ways.
-/
theorem way_partitioning (incoming : c.Part) (ops : List (Op c)) :
    Ends (Uncovered c) (run incoming ops) (fun rp =>
      (∀ p, rp.size p = population (fun line => (rp.array line).p) p) ∧
      ∑ p, rp.size p = c.totalSize ∧
      (c.testMode = false → ∀ part set,
        Ends (Uncovered c) (rp.rank part (c.candidates set)) fun ranked =>
          rp.IsVictim part set ranked.1) ∧
      ∀ assignment later, Gives
        ((Op.setPartitionSizes assignment :: later).foldlM step rp) Supplies) ∧
    (c.partitions ≤ c.ways → c.ways * c.partitions ≤ 2 ^ 32 →
      Gives (run incoming ops) Supplies) := by
  refine ⟨?_, fun enough fits => (ready_initial incoming).foldlM (c.initial_covers enough fits) ops⟩
  have ready : Ends (Uncovered c) (run incoming ops) fun rp =>
      Ready rp ∧ (c.Covers c.initialWays → c.Covers rp.wayPartIndex) := by
    refine .foldlM (fun _ rp => Ready rp ∧ (c.Covers c.initialWays →
      c.Covers rp.wayPartIndex)) ?_ ⟨ready_initial incoming, id⟩
    rintro op _ rp - ⟨ready, covers⟩
    refine ((ready.step op).expecting fun _ stops => ⟨stops.1, mt covers stops.2⟩).mono ?_
    exact fun after kept => ⟨kept.1, kept.2 ∘ covers⟩
  refine ready.mono fun rp ⟨ready, covers⟩ => ?_
  refine ⟨congrFun ready.accounted, ready.accounted.sum_size, fun enforced part set => ?_, ?_⟩
  · refine ((rank_spec ready.idle part set).expecting fun _ stops =>
      ⟨stops.1, mt covers stops.2⟩).mono fun _ ranks => isVictim_of_ranked enforced ranks
  · intro assignment later
    obtain ⟨after, returns, covers, same⟩ := setPartitionSizes_spec rp assignment
    rw [List.foldlM_cons, step, returns]
    have readyAfter : Ready after := by
      rw [same]
      exact ⟨ready.accounted, ready.idle.candIdx, ready.idle.bestId⟩
    exact readyAfter.foldlM covers later

/-- Two partitions with two ways each. -/
abbrev twoSets (last : Nat) : WayPartConfig :=
  ⟨2, last + 1, 2, false, Nat.two_pos, Nat.succ_pos last⟩

theorem way_partitioning_four_ways :
    Gives (run (twoSets 3).firstPart [.miss 0 (twoSets 3).firstPart [(1, 3)], .hit (0, 0)])
      Supplies :=
  (way_partitioning (twoSets 3).firstPart _).2 (by decide) (by decide)

end WayPartReplPolicy

end Damov.Replacement
