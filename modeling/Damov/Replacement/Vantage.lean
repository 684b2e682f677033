import Damov.Library.Counting
import Damov.Library.Checked
import Damov.Replacement.Rand
import Mathlib.Algebra.Ring.Nat

/-!
# Vantage

`VantageReplPolicy` partitions most of a cache, the rest is unmanaged. Lines are
inserted in the partition of their request. While a replacement looks for a
victim it demotes old lines of partitions above their target size to the
unmanaged region, and a hit on an unmanaged line promotes it to the partition of
the request. The size of a partition counts the lines that are in it now. Its
extended size counts the lines that were inserted in it.

Which lines are old is decided by coarse timestamps and a feedback loop in double
arithmetic.
-/

namespace Damov.Replacement

open Library.Checked Library.Counting Function

/-- Double arithmetic. Nothing is assumed about it. -/
structure Doubles where
  Double : Type
  ofNat : Nat → Double
  toNat : Double → Nat
  add : Double → Double → Double
  sub : Double → Double → Double
  mul : Double → Double → Double
  div : Double → Double → Double
  lt : Double → Double → Bool
  le : Double → Double → Bool

structure VantageConfig where
  partitions : Nat
  totalSize : Nat
  assoc : Nat
  partPortionPct : Nat
  partSlackPct : Nat
  maxAperturePct : Nat
  partGranularity : Nat
  smoothTransients : Bool
  fp : Doubles
  rng : Generator

namespace VantageConfig

variable (c : VantageConfig)

/-- The partitions; the last one is the unmanaged region. -/
abbrev Region := Fin (c.partitions + 1)

abbrev Line := Fin c.totalSize

def unmanaged : c.Region := Fin.last c.partitions

/-- The managed partitions, in order. -/
def managed : List c.Region := (List.finRange c.partitions).map Fin.castSucc

def percent (pct : Nat) : c.fp.Double := c.fp.div (c.fp.ofNat pct) (c.fp.ofNat 100)

def targetManagedSize : Nat :=
  c.fp.toNat (c.fp.mul (c.fp.ofNat c.totalSize) (c.percent c.partPortionPct))

end VantageConfig

/-- What controls the demotions from a partition. -/
structure VantagePartInfo where
  targetSize : Nat
  longTermTargetSize : Nat
  curBts : BitVec 64
  curBtsHits : Nat
  setpointBts : BitVec 64
  curIntervalDems : Nat
  curIntervalCands : Nat

/-- The time of the last use, 0 for an empty line, its coarse time, the partition
and the partition of the insertion. -/
structure LineInfo (c : VantageConfig) where
  ts : Nat
  bts : BitVec 64
  p : c.Region
  op : c.Region

/-- The assertions, and `underflow` where a counter would wrap around. -/
inductive VantageFailure where
  | underflow
  | notSmooth
  | noLinesLeft
  | nothingToTake
  | tooManyCandidates
  | noCandidates
  | slope
  deriving DecidableEq

/-- `size` and `extendedSize` are the counters of `partInfo`. -/
structure VantageReplPolicy (c : VantageConfig) where
  size : c.Region → Nat
  extendedSize : c.Region → Nat
  partInfo : c.Region → VantagePartInfo
  array : c.Line → LineInfo c
  candList : List c.Line
  timestamp : Nat
  rng : c.rng.State

namespace VantageReplPolicy

variable {c : VantageConfig}

def increment (counts : c.Region → Nat) (p : c.Region) : c.Region → Nat :=
  Function.update counts p (counts p + 1)

def decrement (counts : c.Region → Nat) (p : c.Region) :
    Except VantageFailure (c.Region → Nat) := do
  check (0 < counts p) .underflow
  return Function.update counts p (counts p - 1)

def initialInfo (c : VantageConfig) (p : c.Region) : VantagePartInfo :=
  let target := if p = c.unmanaged then 0 else c.targetManagedSize / c.partitions
  ⟨target, target, 0, 0, 0, 0, 0⟩

variable (rng : c.rng.State)

/-- All lines are in the unmanaged region. -/
def initial : VantageReplPolicy c where
  size := fun p => if p = c.unmanaged then c.totalSize else 0
  extendedSize := fun p => if p = c.unmanaged then c.totalSize else 0
  partInfo := initialInfo c
  array := fun _ => ⟨0, 0, c.unmanaged, c.unmanaged⟩
  candList := []
  timestamp := 1
  rng := rng

section

variable (rp : VantageReplPolicy c) (p : c.Region)

def setInfo (info : VantagePartInfo) : VantageReplPolicy c :=
  { rp with partInfo := Function.update rp.partInfo p info }

variable (id : c.Line)

def setLine (info : LineInfo c) : VantageReplPolicy c :=
  { rp with array := Function.update rp.array id info }

/-! ## Target sizes -/

/-- How far the target is above the long-term target, as a signed number of 32
bits, and 0 if it is below. -/
def left : Nat := (((rp.partInfo p).targetSize : Int) -
    (rp.partInfo p).longTermTargetSize).bmod (2 ^ 32) |>.toNat

/-- The second loop of `takeOneLine`. -/
def victimPart (rp : VantageReplPolicy c) (l : Nat) : Nat → List c.Region → Option c.Region
  | _, [] => none
  | curLines, p :: rest =>
    let next := (curLines + rp.left p) % 2 ^ 32
    if 0 < rp.left p ∧ l < next then some p
    else victimPart rp l next rest

/-- The outcome of an operation of the policy. -/
abbrev Result (c : VantageConfig) := Except VantageFailure (VantageReplPolicy c)

/-- Take a line from a partition, in proportion to what it has left. -/
def takeOneLine : Result c := do
  check (c.smoothTransients = true) .notSmooth
  let linesLeft := (c.managed.map rp.left).sum % 2 ^ 32
  check (0 < linesLeft) .noLinesLeft
  let drawn := c.rng.randInt rp.rng (linesLeft - 1)
  match rp.victimPart drawn.1 0 c.managed with
  | none => .error .nothingToTake
  | some p =>
    let info := rp.partInfo p
    return { rp with rng := drawn.2 }.setInfo p { info with targetSize := info.targetSize - 1 }

/-- A growing partition gets a line of another one. -/
def grow : Result c :=
  let info := rp.partInfo p
  if info.targetSize < info.longTermTargetSize then do
    check (c.smoothTransients = true) .notSmooth
    (rp.setInfo p { info with targetSize := info.targetSize + 1 }).takeOneLine
  else return rp

/-- The new target of a partition, and the lines that it takes from others. -/
def retarget (lines : Nat) : VantageReplPolicy c × Nat :=
  let info := rp.partInfo p
  if c.smoothTransients then
    if info.targetSize < lines then
      let newTarget := max info.targetSize (min lines (rp.size p + 1))
      (rp.setInfo p { info with targetSize := newTarget, longTermTargetSize := lines },
        newTarget - info.targetSize)
    else (rp.setInfo p { info with longTermTargetSize := lines }, 0)
  else
    (rp.setInfo p { info with targetSize := lines, longTermTargetSize := lines }, 0)

def retargetAll (sizes : c.Region → Nat) (loop : VantageReplPolicy c × Nat)
    (p : c.Region) : VantageReplPolicy c × Nat :=
  let lines := c.totalSize * sizes p % 2 ^ 32 / c.partGranularity
  let next := loop.1.retarget p lines
  (next.1, loop.2 + next.2)

def setPartitionSizes (sizes : c.Region → Nat) : Result c :=
  let retargeted := c.managed.foldl (retargetAll sizes) (rp, 0)
  (List.range retargeted.2).foldlM (fun rp _ => rp.takeOneLine) retargeted.1

/-! ## Updates -/

variable (part : c.Region)

/-- A hit on an unmanaged line. -/
def promote : Result c := do
  let size ← decrement (increment rp.size part) c.unmanaged
  return { rp with size := size }.setLine id { rp.array id with p := part }

/-- The update after a miss; the old line has been removed. -/
def insert : Result c := do
  let e := rp.array id
  let size ← decrement rp.size e.p
  let extendedSize ← decrement rp.extendedSize e.op
  let inserted := { rp with
    size := increment size part
    extendedSize := increment extendedSize part }.setLine id { e with p := part, op := part }
  inserted.grow part

def assign : Result c :=
  if 0 < (rp.array id).ts then
    if (rp.array id).p = c.unmanaged then rp.promote id part
    else return rp
  else rp.insert id part

/-- The coarse timestamp of a partition advances with its hits. -/
def hit (info : VantagePartInfo) (size : Nat) : VantagePartInfo :=
  if size % 2 ^ 32 / 16 ≤ info.curBtsHits + 1 then
    { info with
      curBts := info.curBts + 1
      setpointBts := info.setpointBts + 1
      curBtsHits := 0 }
  else { info with curBtsHits := info.curBtsHits + 1 }

/-- The timestamps of a line that was used. -/
def stamp : VantageReplPolicy c :=
  let e := rp.array id
  let info := rp.partInfo e.p
  { rp with timestamp := rp.timestamp + 1 }.setLine id
      { e with ts := rp.timestamp, bts := info.curBts }
    |>.setInfo e.p (hit info (rp.size e.p))

/-- `update` for a request of a partition. -/
def update (part : Fin c.partitions) : Result c := do
  let assigned ← rp.assign id part.castSucc
  return assigned.stamp id

/-! ## Replacements -/

def recordCandidate : Result c := do
  check (rp.candList.length < c.assoc) .tooManyCandidates
  return { rp with candList := rp.candList ++ [id] }

/-- The share of the candidates to demote, from how far a partition is above its
target. -/
def aperture (c : VantageConfig) (targetSize size : Nat) : Except VantageFailure c.fp.Double :=
  let maxAperture := c.percent c.maxAperturePct
  let maxSz := c.fp.mul (c.fp.ofNat targetSize) (c.fp.add (c.fp.ofNat 1) (c.percent c.partSlackPct))
  let curSz := c.fp.ofNat size
  if c.fp.le maxSz curSz then return maxAperture
  else do
    let slope := c.fp.div maxAperture (c.fp.sub maxSz (c.fp.ofNat targetSize))
    check (c.fp.lt (c.fp.ofNat 0) slope = true) .slope
    return c.fp.mul slope (c.fp.sub curSz (c.fp.ofNat targetSize))

/-- The setpoint after an interval. -/
def setpoint (c : VantageConfig) (info : VantagePartInfo) (aperture : c.fp.Double) : BitVec 64 :=
  let shrink := c.fp.ofNat info.curIntervalDems
  let expected := c.fp.mul aperture (c.fp.ofNat info.curIntervalCands)
  if c.fp.lt (c.fp.ofNat 0) aperture then
    if c.fp.lt shrink expected then
      if info.setpointBts < info.curBts then info.setpointBts + 1
      else info.setpointBts
    else if c.fp.lt expected shrink then
      if info.curBts - info.setpointBts < 255 then info.setpointBts - 1
      else info.setpointBts
    else info.setpointBts
  else info.setpointBts

/-- A candidate is counted, and an interval ends after 256 of them. -/
def countCandidate : Result c :=
  let info := rp.partInfo p
  let counted := { info with curIntervalCands := info.curIntervalCands + 1 }
  if 256 ≤ counted.curIntervalCands then do
    let share ← aperture c counted.targetSize (rp.size p)
    return rp.setInfo p
      { counted with
        setpointBts := setpoint c counted share
        curIntervalCands := 0
        curIntervalDems := 0 }
  else return rp.setInfo p counted

/-- A line below the setpoint goes to the unmanaged region. Coarse timestamps
are compared modulo 256. -/
def demoteOld : Result c :=
  let e := rp.array id
  let info := rp.partInfo e.p
  if (info.curBts - info.setpointBts) % 256 ≤ (info.curBts - e.bts) % 256 then do
    let size ← decrement rp.size e.p
    return { rp with size := increment size c.unmanaged }.setLine id { e with p := c.unmanaged }
      |>.setInfo e.p { info with curIntervalDems := info.curIntervalDems + 1 }
  else return rp

/-- The body of the first loop of `getBestCandidate`. -/
def demote : Result c :=
  let e := rp.array id
  if e.ts = 0 ∨ e.p = c.unmanaged ∨ rp.size e.p % 2 ^ 32 ≤ (rp.partInfo e.p).targetSize then
    return rp
  else do
    let demoted ← rp.demoteOld id
    demoted.countCandidate e.p

/-- The better victim: unmanaged lines first, then older ones. -/
def better (bestId id : c.Line) : c.Line :=
  let e := rp.array id
  let best := rp.array bestId
  if e.p = c.unmanaged ∧ best.p ≠ c.unmanaged then id
  else if e.p = c.unmanaged ∧ best.p = c.unmanaged then
    if e.ts < best.ts then id else bestId
  else if e.p ≠ c.unmanaged ∧ best.p = c.unmanaged then bestId
  else if e.ts < best.ts then id else bestId

/-- The second loop of `getBestCandidate`; it stops at an empty line. -/
def choose (rp : VantageReplPolicy c) : c.Line → List c.Line → c.Line
  | bestId, [] => bestId
  | bestId, id :: rest =>
    if (rp.array id).ts = 0 then id
    else choose rp (rp.better bestId id) rest

def getBestCandidate : Except VantageFailure (c.Line × VantageReplPolicy c) :=
  match rp.candList with
  | [] => .error .noCandidates
  | first :: rest => do
      check ((first :: rest).length ≤ c.assoc) .tooManyCandidates
      let demoted ← (first :: rest).foldlM demote rp
      return (demoted.choose first (first :: rest), demoted)

def replaced : VantageReplPolicy c := { rp with candList := [] }.setLine id
    { rp.array id with ts := 0, bts := 0 }

/-! ## Runs -/

inductive Op (c : VantageConfig) where
  | update (id : c.Line) (part : Fin c.partitions)
  | recordCandidate (id : c.Line)
  | getBestCandidate
  | replaced (id : c.Line)
  | setPartitionSizes (sizes : c.Region → Nat)

def step : Op c → Result c
  | .update id part => rp.update id part
  | .recordCandidate id => rp.recordCandidate id
  | .getBestCandidate => do
      let best ← rp.getBestCandidate
      return best.2
  | .replaced id => return rp.replaced id
  | .setPartitionSizes sizes => rp.setPartitionSizes sizes

def run (ops : List (Op c)) : Result c := ops.foldlM step (initial rng)

/-! ## Counters -/

/-- A line that leaves a partition can be counted out of it. -/
theorem decrement_spec {counts : c.Region → Nat} {part : c.Line → c.Region}
    (counted : counts = population part) (id : c.Line) (next : c.Region) :
    Gives (decrement counts (part id)) fun after =>
      increment after next = population (Function.update part id next) := by
  have positive : 0 < counts (part id) := by
    rw [counted]
    exact population_pos rfl
  refine .check positive ?_
  refine .pure ?_
  rw [← transfer_population, ← counted]
  rfl

/-- The order of a promotion: the line is counted in first. -/
theorem decrement_increment_spec {counts : c.Region → Nat}
    {part : c.Line → c.Region} (counted : counts = population part)
    {id : c.Line} {next : c.Region} (changes : part id ≠ next) :
    Gives (decrement (increment counts next) (part id)) fun after =>
      after = population (Function.update part id next) := by
  have kept : increment counts next (part id) = counts (part id) := update_of_ne changes _ _
  have positive : 0 < increment counts next (part id) := by
    rw [kept, counted]
    exact population_pos rfl
  refine .check positive ?_
  refine .pure ?_
  rw [← transfer_population, ← counted, transfer, update_of_ne changes.symm, kept, increment,
    update_comm changes]

/-- The counters count, and targets change smoothly only if configured so. -/
structure Sound : Prop where
  size : rp.size = population fun id => (rp.array id).p
  extendedSize : rp.extendedSize = population fun id => (rp.array id).op
  steady : c.smoothTransients = false → ∀ p,
    (rp.partInfo p).targetSize = (rp.partInfo p).longTermTargetSize

end

variable {rp : VantageReplPolicy c}

theorem sound_initial : Sound (initial rng) where
  size := by
    rw [initial, population_const, Fintype.card_fin]
  extendedSize := by
    rw [initial, population_const, Fintype.card_fin]
  steady := fun _ _ => rfl

theorem p_setLine (rp : VantageReplPolicy c) (id : c.Line) (info : LineInfo c) :
    (fun line => ((rp.setLine id info).array line).p) =
      Function.update (fun line => (rp.array line).p) id info.p :=
  funext fun line => apply_update (fun _ => LineInfo.p) _ id _ line

theorem op_setLine (rp : VantageReplPolicy c) (id : c.Line) (info : LineInfo c) :
    (fun line => ((rp.setLine id info).array line).op) =
      Function.update (fun line => (rp.array line).op) id info.op :=
  funext fun line => apply_update (fun _ => LineInfo.op) _ id _ line

/-- A line that stays in its partitions. -/
theorem Sound.setLine (sound : Sound rp) {id : c.Line} {info : LineInfo c}
    (sameP : info.p = (rp.array id).p) (sameOp : info.op = (rp.array id).op) :
    Sound (rp.setLine id info) where
  size := by
    rw [p_setLine, sameP, update_eq_self]
    exact sound.size
  extendedSize := by
    rw [op_setLine, sameOp, update_eq_self]
    exact sound.extendedSize
  steady := sound.steady

/-- The counters do not depend on the control of a partition. -/
theorem Sound.setInfo (sound : Sound rp) {p : c.Region} {info : VantagePartInfo}
    (steady : c.smoothTransients = false → info.targetSize = info.longTermTargetSize) :
    Sound (rp.setInfo p info) where
  size := sound.size
  extendedSize := sound.extendedSize
  steady := by
    intro notSmooth other
    by_cases same : other = p
    · simp only [same, VantageReplPolicy.setInfo, update_self]
      exact steady notSmooth
    · simp only [VantageReplPolicy.setInfo, update_of_ne same]
      exact sound.steady notSmooth other

/-- Changes that do not concern the counters. -/
theorem Sound.congr {after : VantageReplPolicy c} (sound : Sound rp)
    (size : after.size = rp.size) (extendedSize : after.extendedSize = rp.extendedSize)
    (partInfo : after.partInfo = rp.partInfo)
    (array : after.array = rp.array) : Sound after where
  size := by
    rw [size, array]
    exact sound.size
  extendedSize := by
    rw [extendedSize, array]
    exact sound.extendedSize
  steady := by
    rw [partInfo]
    exact sound.steady

/-! ## The operations -/

/-- Where a run may stop: at calls out of order, at the slope of the feedback
loop, and at targets that leave nothing to take. -/
def Stops (c : VantageConfig) : VantageFailure → Prop
  | .underflow => False
  | .notSmooth => False
  | .noLinesLeft => c.smoothTransients = true
  | .nothingToTake => c.smoothTransients = true
  | .tooManyCandidates => True
  | .noCandidates => True
  | .slope => True

section

variable (sound : Sound rp)
include sound

theorem Sound.takeOneLine (smooth : c.smoothTransients = true) :
    Ends (Stops c) rp.takeOneLine Sound := by
  have notSteady : ¬ c.smoothTransients = false := by
    rw [smooth]
    exact Bool.false_ne_true.symm
  apply Ends.check smooth
  apply Ends.assert_bind (show Stops c .noLinesLeft from smooth)
  intro _
  dsimp only
  split
  · exact .error (show Stops c .nothingToTake from smooth)
  · refine .pure ?_
    have drawn : Sound { rp with rng := (c.rng.randInt rp.rng
        ((c.managed.map rp.left).sum % 2 ^ 32 - 1)).2 } :=
      sound.congr rfl rfl rfl rfl
    exact drawn.setInfo fun notSmooth => absurd notSmooth notSteady

theorem Sound.grow (p : c.Region) : Ends (Stops c) (rp.grow p) Sound := by
  unfold VantageReplPolicy.grow
  dsimp only
  split
  case isFalse => exact .pure sound
  case isTrue grows =>
    have smooth : c.smoothTransients = true := by
      by_contra notSmooth
      rw [Bool.not_eq_true] at notSmooth
      exact absurd (sound.steady notSmooth p) grows.ne
    apply Ends.check smooth
    apply Sound.takeOneLine _ smooth
    apply sound.setInfo
    intro notSmooth
    rw [smooth] at notSmooth
    cases notSmooth

theorem Sound.promote {id : c.Line} (isUnmanaged : (rp.array id).p = c.unmanaged)
    (part : Fin c.partitions) :
    Ends (Stops c) (rp.promote id part.castSucc) Sound := by
  have changes : (rp.array id).p ≠ part.castSucc := by
    rw [isUnmanaged]
    exact (Fin.castSucc_lt_last part).ne'
  have moved := decrement_increment_spec sound.size changes
  rw [isUnmanaged] at moved
  apply Ends.bind (Ends.of_gives moved)
  intro size isSize
  exact .pure {
    size := by
      rwa [p_setLine]
    extendedSize := by
      rw [op_setLine]
      rw [update_eq_self]
      exact sound.extendedSize
    steady := sound.steady }

variable (id : c.Line)

theorem Sound.insert (part : c.Region) : Ends (Stops c) (rp.insert id part) Sound := by
  apply Ends.bind (Ends.of_gives (decrement_spec sound.size id part))
  intro size isSize
  apply Ends.bind (Ends.of_gives (decrement_spec sound.extendedSize id part))
  intro extendedSize isExtendedSize
  apply Sound.grow
  exact {
    size := by
      rwa [p_setLine]
    extendedSize := by
      rwa [op_setLine]
    steady := sound.steady }

theorem Sound.assign (part : Fin c.partitions) :
    Ends (Stops c) (rp.assign id part.castSucc) Sound := by
  unfold VantageReplPolicy.assign
  split
  case isTrue =>
    split
    case isTrue isUnmanaged => exact sound.promote isUnmanaged part
    case isFalse => exact .pure sound
  case isFalse => exact sound.insert id part.castSucc

omit sound in
theorem hit_targets (info : VantagePartInfo) (size : Nat) :
    (hit info size).targetSize = info.targetSize ∧
      (hit info size).longTermTargetSize = info.longTermTargetSize := by
  unfold hit
  split
  all_goals exact ⟨rfl, rfl⟩

theorem Sound.stamp : Sound (rp.stamp id) := by
  have later : Sound { rp with timestamp := rp.timestamp + 1 } := sound.congr rfl rfl rfl rfl
  have stamped : Sound ({ rp with
      timestamp := rp.timestamp + 1 }.setLine id { rp.array id with
          ts := rp.timestamp
          bts := (rp.partInfo (rp.array id).p).curBts }) :=
    later.setLine rfl rfl
  apply stamped.setInfo
  intro notSmooth
  obtain ⟨target, longTerm⟩ := hit_targets (rp.partInfo (rp.array id).p) (rp.size (rp.array id).p)
  rw [target, longTerm]
  exact sound.steady notSmooth _

theorem Sound.update (part : Fin c.partitions) : Ends (Stops c) (rp.update id part) Sound := by
  apply (sound.assign id part).bind
  intro assigned soundAssigned
  exact .pure (soundAssigned.stamp id)

theorem Sound.demoteOld : Ends (Stops c) (rp.demoteOld id) Sound := by
  unfold VantageReplPolicy.demoteOld
  dsimp only
  split
  case isFalse => exact .pure sound
  case isTrue =>
    apply Ends.bind (Ends.of_gives (decrement_spec sound.size id c.unmanaged))
    intro size isSize
    refine .pure ?_
    have demoted : Sound ({ rp with
        size := increment size c.unmanaged }.setLine id { rp.array id with p := c.unmanaged }) :=
      { size := by
          rwa [p_setLine]
        extendedSize := by
          rw [op_setLine]
          rw [update_eq_self]
          exact sound.extendedSize
        steady := sound.steady }
    exact demoted.setInfo fun notSmooth => sound.steady notSmooth _

omit sound in
theorem aperture_ends (c : VantageConfig) (targetSize size : Nat) :
    Ends (Stops c) (aperture c targetSize size) fun _ => True := by
  unfold aperture
  dsimp only
  split
  case isTrue => exact .pure trivial
  case isFalse =>
    apply Ends.assert_bind (show Stops c .slope from trivial)
    exact fun _ => Ends.pure trivial

theorem Sound.countCandidate (p : c.Region) : Ends (Stops c) (rp.countCandidate p) Sound := by
  unfold VantageReplPolicy.countCandidate
  dsimp only
  split
  case isTrue =>
    apply (aperture_ends c _ _).bind
    intro share _
    exact .pure (sound.setInfo fun notSmooth => sound.steady notSmooth p)
  case isFalse =>
    exact .pure (sound.setInfo fun notSmooth => sound.steady notSmooth p)

theorem Sound.demote : Ends (Stops c) (rp.demote id) Sound := by
  unfold VantageReplPolicy.demote
  dsimp only
  split
  case isTrue => exact .pure sound
  case isFalse =>
    apply (sound.demoteOld id).bind
    intro demoted soundDemoted
    exact soundDemoted.countCandidate _

/-- A candidate may be offered twice; the second time it is unmanaged. -/
theorem Sound.getBestCandidate : Ends (Stops c) rp.getBestCandidate fun best => Sound best.2 := by
  unfold VantageReplPolicy.getBestCandidate
  split
  case h_1 => exact .error (show Stops c .noCandidates from trivial)
  case h_2 first rest _ =>
    apply Ends.assert_bind (show Stops c .tooManyCandidates from trivial)
    intro _
    apply Ends.bind (Ends.foldlM (fun _ rp => Sound rp)
      (fun id _ rp _ sound => sound.demote id) sound)
    intro demoted soundDemoted
    exact .pure soundDemoted

theorem Sound.retarget (p : c.Region) (lines : Nat) : Sound (rp.retarget p lines).1 := by
  unfold VantageReplPolicy.retarget
  dsimp only
  split
  case isTrue smooth =>
    have impossible (info : VantagePartInfo) (notSmooth : c.smoothTransients = false) :
        info.targetSize = info.longTermTargetSize := by
      rw [smooth] at notSmooth
      cases notSmooth
    split
    all_goals exact sound.setInfo (impossible _)
  case isFalse => exact sound.setInfo fun _ => rfl

omit sound in
/-- Lines are taken only in smooth transients. -/
theorem foldl_retargetAll (sizes : c.Region → Nat) (parts : List c.Region)
    (loop : VantageReplPolicy c × Nat) (sound : Sound loop.1)
    (smooth : c.smoothTransients = false → loop.2 = 0) :
    Sound (parts.foldl (retargetAll sizes) loop).1 ∧ (c.smoothTransients = false →
        (parts.foldl (retargetAll sizes) loop).2 = 0) := by
  induction parts generalizing loop with
  | nil => exact ⟨sound, smooth⟩
  | cons p parts ih =>
    have next : Sound (retargetAll sizes loop p).1 := sound.retarget p _
    apply ih _ next
    intro notSmooth
    have nothing : (loop.1.retarget p
        (c.totalSize * sizes p % 2 ^ 32 / c.partGranularity)).2 = 0 := by
      unfold VantageReplPolicy.retarget
      rw [notSmooth]
      rfl
    change loop.2 + (loop.1.retarget p _).2 = 0
    rw [smooth notSmooth, nothing]

theorem Sound.setPartitionSizes (sizes : c.Region → Nat) :
    Ends (Stops c) (rp.setPartitionSizes sizes) Sound := by
  obtain ⟨retargeted, nothing⟩ := foldl_retargetAll sizes c.managed (rp, 0) sound fun _ => rfl
  apply Ends.foldlM (fun _ rp => Sound rp)
  · intro index _ cur mem soundCurrent
    apply soundCurrent.takeOneLine
    by_contra notSmooth
    rw [Bool.not_eq_true] at notSmooth
    have taken := List.mem_range.mp mem
    rw [nothing notSmooth] at taken
    exact absurd taken (Nat.not_lt_zero _)
  · exact retargeted

theorem Sound.step (op : Op c) : Ends (Stops c) (step rp op) Sound := by
  cases op with
  | update id part => exact sound.update id part
  | recordCandidate id =>
    apply Ends.assert_bind (show Stops c .tooManyCandidates from trivial)
    intro _
    exact .pure (sound.congr rfl rfl rfl rfl)
  | getBestCandidate =>
    apply sound.getBestCandidate.bind
    intro best soundBest
    exact .pure soundBest
  | replaced id =>
    have reset : Sound { rp with candList := [] } := sound.congr rfl rfl rfl rfl
    exact .pure (reset.setLine rfl rfl)
  | setPartitionSizes sizes => exact sound.setPartitionSizes sizes

end

theorem run_sound (ops : List (Op c)) : Ends (Stops c) (run rng ops) Sound :=
  Ends.foldlM (fun _ rp => Sound rp) (fun op _ _ _ sound => sound.step op) (sound_initial rng)

/--
In every run, sizes and extended sizes count the lines of the partitions, the
unmanaged region included, and sum up to the size of the cache. No counter
wraps around.
-/
theorem size_accounting (rng : c.rng.State) (ops : List (Op c)) :
    Ends (Stops c) (run rng ops) fun rp =>
      (∀ p, rp.size p = population (fun id => (rp.array id).p) p) ∧
      (∀ p, rp.extendedSize p = population (fun id => (rp.array id).op) p) ∧
      ∑ p, rp.size p = c.totalSize ∧
      ∑ p, rp.extendedSize p = c.totalSize := by
  apply (run_sound rng ops).mono
  intro rp sound
  refine ⟨congrFun sound.size, congrFun sound.extendedSize, ?_, ?_⟩
  · rw [sound.size, sum_population, Fintype.card_fin]
  · rw [sound.extendedSize, sum_population, Fintype.card_fin]

/-! ## Owners -/

/-- A managed line was inserted in its partition. -/
def Owned (rp : VantageReplPolicy c) : Prop :=
  ∀ id, (rp.array id).p ≠ c.unmanaged → (rp.array id).op = (rp.array id).p

/-- An unmanaged line is hit only by the partition that inserted it. -/
def KeepsOwner (rp : VantageReplPolicy c) : Op c → Prop
  | .update id part => 0 < (rp.array id).ts → (rp.array id).p = c.unmanaged →
        (rp.array id).op = part.castSucc
  | _ => True

section

variable (owned : Owned rp)
include owned

theorem Owned.setLine {id : c.Line} {info : LineInfo c}
    (ownLine : info.p ≠ c.unmanaged → info.op = info.p) :
    Owned (rp.setLine id info) :=
  (forall_update_iff rp.array fun _ e => e.p ≠ c.unmanaged → e.op = e.p).mpr
      ⟨ownLine, fun line _ => owned line⟩

/-- Targets do not matter for the lines. -/
theorem Owned.takeOneLine : Ends (fun _ => True) rp.takeOneLine Owned := by
  apply Ends.assert_bind trivial
  intro _
  apply Ends.assert_bind trivial
  intro _
  dsimp only
  split
  · exact .error trivial
  · exact .pure owned

theorem Owned.insert (id : c.Line) (part : c.Region) :
    Ends (fun _ => True) (rp.insert id part) Owned := by
  apply Ends.any.bind
  intro size _
  apply Ends.any.bind
  intro extendedSize _
  have inserted : Owned ({ rp with
      size := increment size part
      extendedSize := increment extendedSize part }.setLine id
        { rp.array id with p := part, op := part }) :=
    Owned.setLine owned fun _ => rfl
  unfold grow
  dsimp only
  split
  · apply Ends.assert_bind trivial
    exact fun _ => Owned.takeOneLine inserted
  · exact .pure inserted

theorem Owned.update {id : c.Line} {part : Fin c.partitions}
    (keeps : KeepsOwner rp (.update id part)) :
    Ends (fun _ => True) (rp.update id part) Owned := by
  have assigned : Ends (fun _ => True) (rp.assign id part.castSucc) Owned := by
    unfold assign
    split
    case isFalse => exact owned.insert id part.castSucc
    case isTrue used =>
      split
      case isFalse => exact .pure owned
      case isTrue isUnmanaged =>
        apply Ends.any.bind
        intro size _
        exact .pure (Owned.setLine owned fun _ => keeps used isUnmanaged)
  apply assigned.bind
  intro after ownedAfter
  exact .pure (Owned.setLine ownedAfter (ownedAfter id))

theorem Owned.demote (id : c.Line) : Ends (fun _ => True) (rp.demote id) Owned := by
  have demoted : Ends (fun _ => True) (rp.demoteOld id) Owned := by
    unfold demoteOld
    dsimp only
    split
    · apply Ends.any.bind
      intro size _
      exact .pure (Owned.setLine owned fun managed => absurd rfl managed)
    · exact .pure owned
  unfold VantageReplPolicy.demote
  dsimp only
  split
  · exact .pure owned
  · apply demoted.bind
    intro after ownedAfter
    unfold countCandidate
    dsimp only
    split
    · apply Ends.any.bind
      exact fun _ _ => Ends.pure ownedAfter
    · exact .pure ownedAfter

theorem Owned.setPartitionSizes (sizes : c.Region → Nat) :
    Ends (fun _ => True) (rp.setPartitionSizes sizes) Owned := by
  apply Ends.foldlM (fun _ rp => Owned rp)
  · exact fun _ _ _ _ owned => owned.takeOneLine
  · refine List.foldlRecOn (motive := fun loop : VantageReplPolicy c × Nat => Owned loop.1)
      c.managed _ owned fun loop owned p _ => ?_
    unfold retargetAll retarget
    dsimp only
    split
    · split <;> exact owned
    · exact owned

theorem Owned.step {op : Op c} (keeps : KeepsOwner rp op) :
    Ends (fun _ => True) (step rp op) Owned := by
  cases op with
  | update id part => exact owned.update keeps
  | recordCandidate id =>
    apply Ends.assert_bind trivial
    exact fun _ => Ends.pure owned
  | getBestCandidate =>
    unfold VantageReplPolicy.step getBestCandidate
    dsimp only
    split
    · exact .error trivial
    · rw [bind_assoc]
      apply Ends.assert_bind trivial
      intro _
      rw [bind_assoc]
      apply Ends.bind (Ends.foldlM (fun _ rp => Owned rp)
        (fun id _ _ _ owned => owned.demote id) owned)
      exact fun _ owned => Ends.pure owned
  | replaced id => exact .pure (Owned.setLine owned (owned id))
  | setPartitionSizes sizes => exact owned.setPartitionSizes sizes

end

/-- If lines are only promoted by the partitions that inserted them, managed
lines are in these partitions, and the extended size of a partition counts its
lines and those that were demoted from it. -/
theorem owners_keep_lines (rng : c.rng.State) (ops : List (Op c))
    (keeps : RunMeets step KeepsOwner ops (initial rng)) :
    ∀ rp, run rng ops = .ok rp → Owned rp ∧ ∀ p ≠ c.unmanaged, rp.extendedSize p = rp.size p +
        (Finset.univ.filter fun id => (rp.array id).p = c.unmanaged ∧
          (rp.array id).op = p).card := by
  intro rp returns
  have owned := (Ends.run (fun _ _ owned keeps => Owned.step owned keeps) keeps
    (fun _ managed => absurd rfl managed)).returns rp returns
  have sound := (run_sound rng ops).returns rp returns
  refine ⟨owned, fun p managed => ?_⟩
  rw [sound.extendedSize, sound.size, population, population, ← Finset.card_union_of_disjoint]
  · congr 1
    ext id
    have own := owned id
    grind
  · rw [Finset.disjoint_filter]
    exact fun id _ isHere away => managed (isHere.symm.trans away.1)

/-- Two partitions and two lines. -/
def twoLines : VantageConfig where
  partitions := 2
  totalSize := 2
  assoc := 1
  partPortionPct := 100
  partSlackPct := 10
  maxAperturePct := 50
  partGranularity := 1
  smoothTransients := false
  fp := ⟨Nat, id, id, Nat.add, Nat.sub, Nat.mul, Nat.div, Nat.blt, Nat.ble⟩
  rng := ⟨Unit, fun _ _ => (0, ()), fun _ _ => Nat.zero_le _⟩

/-- A line is inserted by the first partition, demoted and hit. -/
def hitDemoted (part : Fin 2) : List (Op twoLines) :=
  [.setPartitionSizes fun _ => 0, .update (0 : Fin 2) (0 : Fin 2),
    .recordCandidate (0 : Fin 2), .getBestCandidate,
    .update (0 : Fin 2) part]

theorem owners_keep_lines_hit : ∃ rp, run (c := twoLines) () (hitDemoted 0) = .ok rp ∧
      Owned rp :=
  ⟨_, rfl, (owners_keep_lines (c := twoLines) () (hitDemoted 0)
    ⟨trivial, fun used => absurd used (by decide), trivial, trivial,
      fun _ _ => rfl, trivial⟩ _ rfl).1⟩

/-- The promotion does not change the partition of the insertion. -/
theorem promotion_keeps_old_owner : ∃ rp, run (c := twoLines) () (hitDemoted 1) = .ok rp ∧
      (rp.array (0 : Fin 2)).p = (1 : Fin 3) ∧
      (rp.array (0 : Fin 2)).op = (0 : Fin 3) ∧
      rp.extendedSize (0 : Fin 3) = 1 ∧ rp.size (0 : Fin 3) = 0 :=
  ⟨_, rfl, rfl, rfl, rfl, rfl⟩

end VantageReplPolicy

end Damov.Replacement
