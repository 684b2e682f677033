import Damov.Library.Extrema
import Damov.Library.Sweep
import Damov.Ramulator.DramTree

/-!
# The timing table is enforced

`updateTiming` is a sweep over the tree: each node that is visited is either a
target or a sibling of one. The history of a node holds the cycles of the last
commands that it was the target of, and its `next` is past every bound that the
table derives from the commands so far, so a command that was found ready keeps to
the table.
-/

namespace Damov.Ramulator.DramSpec

open Library List Function

variable {Command State : Type} {spec : DramSpec Command State} {root : Nat}

/-! ## Targets -/

/-- The address names the node. -/
def Targets (root : Nat) (addr : Nat → Int) : Path → Prop
  | [] => addr 0 = root
  | i :: parent => addr (parent.length + 1) = i ∧ Targets root addr parent

instance decidableTargets (root : Nat) (addr : Nat → Int) :
    (node : Path) → Decidable (Targets root addr node)
  | [] => inferInstanceAs (Decidable (addr 0 = root))
  | i :: parent =>
    have := decidableTargets root addr parent
    inferInstanceAs (Decidable (addr (parent.length + 1) = i ∧ _))

/-- The address names the parent of the node. -/
def Visited (root : Nat) (addr : Nat → Int) : Path → Prop
  | [] => True
  | _ :: parent => Targets root addr parent

instance decidableVisited (root : Nat) (addr : Nat → Int) :
    (node : Path) → Decidable (Visited root addr node)
  | [] => inferInstanceAs (Decidable True)
  | _ :: parent => inferInstanceAs (Decidable (Targets root addr parent))

variable {addr : Nat → Int} {node place : Path} {below : Nat}

theorem targets_iff : Targets root addr node ↔
      (idOf root node : Int) = addr node.length ∧ Visited root addr node := by
  cases node with
  | nil =>
    simp only [Visited, and_true]
    exact eq_comm
  | cons i parent =>
    exact and_congr_left fun _ => eq_comm

theorem Targets.suffix (isBelow : node <:+ place)
    (targets : Targets root addr place) : Targets root addr node := by
  induction place with
  | nil =>
    rwa [suffix_nil.mp isBelow]
  | cons i parent ih =>
    rcases suffix_cons_iff.mp isBelow with rfl | isBelow
    · exact targets
    · exact ih isBelow targets.2

theorem Within.suffix (within : spec.Within below node place) : node <:+ place := by
  induction below generalizing node with
  | zero =>
    have same : place = node := within
    subst same
    exact suffix_refl place
  | succ below ih =>
    rcases within with same | ⟨i, -, within⟩
    · subst same
      exact suffix_refl place
    · exact (suffix_cons i node).trans (ih within)

theorem within_self (below : Nat) (node : Path) : spec.Within below node node := by
  cases below with
  | zero => exact rfl
  | succ below => exact .inl rfl

/-- The trees of two children have no node in common. -/
theorem Within.disjoint {i j : Nat} (apart : i ≠ j) (first : spec.Within below (i :: node) place) :
    ¬ spec.Within below (j :: node) place := by
  intro second
  have same : i :: node = j :: node := (suffix_of_suffix_length_le first.suffix second.suffix
      (le_refl _)).eq_of_length rfl
  exact apart (List.cons.inj same).1

/-! ## One command -/

variable [DecidableEq Command]

/-- What a command does to a node. -/
def touched (spec : DramSpec Command State) (root : Nat) (cmd : Command)
    (addr : Nat → Int) (clk : Int) (node : Path) (timing : NodeTiming Command) :
    NodeTiming Command :=
  if Targets root addr node then spec.updateTarget cmd clk node.length timing
  else if Visited root addr node then
    spec.updateSibling cmd clk node.length timing
  else timing

/-- Below a node that is no target nothing is touched. -/
theorem touched_below {cmd : Command} {clk : Int} (within : spec.Within below node place)
    (notTarget : ¬ Targets root addr node) (apart : place ≠ node) (timing : NodeTiming Command) :
    spec.touched root cmd addr clk place timing = timing := by
  have notVisited : ¬ Visited root addr place := by
    intro visited
    cases place with
    | nil => exact apart (suffix_nil.mp within.suffix).symm
    | cons i parent =>
      rcases suffix_cons_iff.mp within.suffix with same | isBelow
      · exact apart same.symm
      · exact notTarget (Targets.suffix isBelow visited)
  have notTargets : ¬ Targets root addr place := fun targets =>
    notVisited (targets_iff.mp targets).2
  rw [touched, if_neg notTargets, if_neg notVisited]

section

variable {cmd : Command} {clk : Int} {node : Path} {timings : Timings Command}

theorem updateTiming_elsewhere {below : Nat}
    (isElsewhere : (idOf root node : Int) ≠ addr node.length) :
    spec.updateTiming root cmd addr clk below node timings = Function.update timings node
        (spec.updateSibling cmd clk node.length (timings node)) := by
  unfold updateTiming
  rw [if_pos isElsewhere]

theorem updateTiming_zero (isHere : (idOf root node : Int) = addr node.length) :
    spec.updateTiming root cmd addr clk 0 node timings = Function.update timings node
        (spec.updateTarget cmd clk node.length (timings node)) := by
  rw [updateTiming, if_neg (not_not.mpr isHere)]

theorem updateTiming_succ {below : Nat} (isHere : (idOf root node : Int) = addr node.length) :
    spec.updateTiming root cmd addr clk (below + 1) node timings =
      (List.range (spec.count (node.length + 1))).foldl (fun timings i =>
          spec.updateTiming root cmd addr clk below (i :: node) timings)
        (Function.update timings node (spec.updateTarget cmd clk node.length (timings node))) := by
  rw [updateTiming, if_neg (not_not.mpr isHere)]

end

theorem target_sweeps (spec : DramSpec Command State) (cmd : Command)
    (clk : Int) (isTarget : Targets root addr node) :
    Sweeps (fun timings => Function.update timings node
        (spec.updateTarget cmd clk node.length (timings node)))
      (fun place => place = node) (spec.touched root cmd addr clk) := by
  apply Sweeps.one
  funext timing
  rw [touched, if_pos isTarget]

theorem elsewhere_sweeps (cmd : Command) (clk : Int) (below : Nat)
    (visited : Visited root addr node) (notTarget : ¬ Targets root addr node) :
    Sweeps (spec.updateTiming root cmd addr clk below node)
      (spec.Within below node) (spec.touched root cmd addr clk) := by
  have isElsewhere : (idOf root node : Int) ≠ addr node.length :=
    fun isHere => notTarget (targets_iff.mpr ⟨isHere, visited⟩)
  have atNode : Sweeps (fun timings => Function.update timings node
        (spec.updateSibling cmd clk node.length (timings node)))
      (fun place => place = node) (spec.touched root cmd addr clk) := by
    apply Sweeps.one
    funext timing
    rw [touched, if_neg notTarget, if_pos visited]
  rw [← funext fun timings => updateTiming_elsewhere isElsewhere] at atNode
  apply atNode.enlarge
  · rintro place rfl
    exact within_self _ _
  · exact fun place within apart => touched_below within notTarget apart

/-- Each node of the tree is touched once. -/
theorem updateTiming_sweeps (cmd : Command) (clk : Int) (below : Nat)
    (node : Path) (visited : Visited root addr node) :
    Sweeps (spec.updateTiming root cmd addr clk below node)
      (spec.Within below node) (spec.touched root cmd addr clk) := by
  induction below generalizing node with
  | zero =>
    by_cases isTarget : Targets root addr node
    · have atNode := target_sweeps spec cmd clk isTarget
      rwa [← funext fun timings =>
        updateTiming_zero (targets_iff.mp isTarget).1] at atNode
    · exact elsewhere_sweeps cmd clk 0 visited isTarget
  | succ below ih =>
    by_cases isTarget : Targets root addr node
    · have atNode := target_sweeps spec cmd clk isTarget
      have children := Sweeps.foldl (range (spec.count (node.length + 1)))
        (fun i _ => ih (i :: node) isTarget)
        (nodup_range.imp fun apart _ first => first.disjoint apart)
      have whole := atNode.comp children (by
        rintro place rfl ⟨i, -, within⟩
        have := within.suffix.length_le
        rw [length_cons] at this
        omega)
      rw [← funext fun timings =>
        updateTiming_succ (targets_iff.mp isTarget).1] at whole
      refine whole.congr fun place => ?_
      simp only [Within, mem_range]
    · exact elsewhere_sweeps cmd clk (below + 1) visited isTarget

/-! ## Bounds -/

section

variable {bound : TimingEntry Command → Option Int}

theorem le_raise (entries : List (TimingEntry Command)) (next : Command → Int)
    (cmd : Command) : next cmd ≤ raise bound entries next cmd := by
  induction entries generalizing next with
  | nil => exact Int.le_refl _
  | cons entry entries ih =>
    rw [raise, foldl_cons]
    apply Int.le_trans _ (ih _)
    cases bound entry with
    | none => exact Int.le_refl _
    | some future =>
      dsimp only
      by_cases same : cmd = entry.cmd
      · rw [same, update_self]
        exact Int.le_max_left _ _
      · exact Int.le_of_eq (update_of_ne same _ _).symm

theorem raise_bound {entries : List (TimingEntry Command)}
    {entry : TimingEntry Command} {future : Int} (next : Command → Int)
    (mem : entry ∈ entries) (isBound : bound entry = some future) :
    future ≤ raise bound entries next entry.cmd := by
  induction entries generalizing next with
  | nil => cases mem
  | cons first entries ih =>
    rw [raise, foldl_cons]
    rcases mem_cons.mp mem with rfl | later
    · apply Int.le_trans _ (le_raise entries _ _)
      rw [isBound]
      dsimp only
      rw [update_self]
      exact Int.le_max_right _ _
    · exact ih _ later

end

theorem le_touched (cmd : Command) (addr : Nat → Int) (clk : Int) (node : Path)
    (timing : NodeTiming Command) (other : Command) :
    timing.next other ≤ (spec.touched root cmd addr clk node timing).next other := by
  unfold touched
  split
  · exact le_raise _ _ _
  · split
    · exact le_raise _ _ _
    · exact Int.le_refl _

omit [DecidableEq Command] in
theorem dist_le_maxDist {entries : List (TimingEntry Command)}
    {entry : TimingEntry Command} (mem : entry ∈ entries) :
    entry.dist ≤ maxDist entries :=
  le_largest TimingEntry.dist 0 mem

/-! ## Histories -/

/-- The address names a sibling of the node. -/
def TargetsSibling (root : Nat) (addr : Nat → Int) : Path → Prop
  | [] => False
  | i :: parent =>
    Targets root addr parent ∧ 0 ≤ addr (parent.length + 1) ∧ addr (parent.length + 1) ≠ i

instance decidableTargetsSibling (root : Nat) (addr : Nat → Int) :
    (node : Path) → Decidable (TargetsSibling root addr node)
  | [] => inferInstanceAs (Decidable False)
  | i :: parent => inferInstanceAs (Decidable
      (Targets root addr parent ∧ 0 ≤ addr (parent.length + 1) ∧ addr (parent.length + 1) ≠ i))

theorem TargetsSibling.visited (isSibling : TargetsSibling root addr node) :
    Visited root addr node ∧ ¬ Targets root addr node := by
  cases node with
  | nil => exact isSibling.elim
  | cons i parent =>
    exact ⟨isSibling.1, fun targets => isSibling.2.2 targets.1⟩

/-- The cycles of the commands that had the node as a target, the latest first. -/
def targetTimes (root : Nat) (node : Path) (cmd : Command)
    (log : List (Issue Command)) : List Int :=
  (log.filter fun issue =>
    issue.cmd = cmd ∧ Targets root issue.addr node).map Issue.clk

/-- The cycles of the commands that had a sibling of the node as a target. -/
def siblingTimes (root : Nat) (node : Path) (cmd : Command)
    (log : List (Issue Command)) : List Int :=
  (log.filter fun issue =>
    issue.cmd = cmd ∧ TargetsSibling root issue.addr node).map Issue.clk

section

variable {node : Path} {cmd : Command} {issue : Issue Command}
variable {log : List (Issue Command)}

omit [DecidableEq Command] in
theorem clks_cons {holds : Issue Command → Prop} [DecidablePred holds] :
    (filter (holds ·) (issue :: log)).map Issue.clk =
      if holds issue then issue.clk :: (log.filter (holds ·)).map Issue.clk
      else (log.filter (holds ·)).map Issue.clk := by
  rw [filter_cons]
  split
  case isTrue isTarget =>
    rw [if_pos (of_decide_eq_true isTarget)]
    rfl
  case isFalse notTarget => rw [if_neg fun isTarget => notTarget (decide_eq_true isTarget)]

theorem targetTimes_cons : targetTimes root node cmd (issue :: log) =
      if issue.cmd = cmd ∧ Targets root issue.addr node then
        issue.clk :: targetTimes root node cmd log
      else targetTimes root node cmd log :=
  clks_cons

theorem siblingTimes_cons : siblingTimes root node cmd (issue :: log) =
      if issue.cmd = cmd ∧ TargetsSibling root issue.addr node then
        issue.clk :: siblingTimes root node cmd log
      else siblingTimes root node cmd log :=
  clks_cons

theorem targetTimes_nonneg (nonneg : ∀ issue ∈ log, 0 ≤ issue.clk) {time : Int}
    (mem : time ∈ targetTimes root node cmd log) : 0 ≤ time := by
  obtain ⟨issue, isIssued, rfl⟩ := mem_map.mp mem
  exact nonneg issue (mem_of_mem_filter isIssued)

end

variable (length : Nat) (times : List Int)

/-- A history of this length. -/
def lastTimes : List Int := (times ++ List.replicate length (-1)).take length

theorem lastTimes_length : (lastTimes length times).length = length := by
  rw [lastTimes, length_take, length_append, length_replicate]
  omega

theorem lastTimes_cons (time : Int) (times : List Int) :
    lastTimes (length + 1) (time :: times) = time :: (lastTimes (length + 1) times).dropLast := by
  rw [dropLast_eq_take, lastTimes_length, lastTimes, lastTimes,
    cons_append, take_succ_cons, take_take, Nat.add_sub_cancel,
    min_eq_left (Nat.le_succ length)]

theorem lastTimes_getD {length pos : Nat} {times : List Int} {time : Int}
    (short : pos < length) (isTime : times[pos]? = some time) :
    (lastTimes length times).getD pos (-1) = time := by
  rw [getD_eq_getElem?_getD, lastTimes, getElem?_take_of_lt short,
    List.getElem?_append_left (List.getElem?_eq_some_iff.mp isTime).1, isTime]
  rfl

/-- What a node knows about the commands so far. -/
structure Records (spec : DramSpec Command State) (root : Nat)
    (log : List (Issue Command)) (node : Path) (timing : NodeTiming Command) :
    Prop where
  prev : ∀ cmd, timing.prev cmd = lastTimes (maxDist (spec.timing node.length cmd))
      (targetTimes root node cmd log)
  target : ∀ cmd, ∀ entry ∈ spec.timing node.length cmd, entry.sibling = false →
    ∀ time, (targetTimes root node cmd log)[entry.dist - 1]? = some time →
      time + entry.val ≤ timing.next entry.cmd
  sibling : ∀ cmd, ∀ entry ∈ spec.timing node.length cmd, entry.sibling = true →
    ∀ time ∈ siblingTimes root node cmd log, time + entry.val ≤ timing.next entry.cmd

theorem records_construct (node : Path) :
    Records spec root [] node (spec.construct.timings node) where
  prev := by
    intro cmd
    exact (take_of_length_le (le_of_eq (length_replicate))).symm
  target := by
    intro cmd entry _ _ time isTime
    exact absurd isTime (by simp [targetTimes])
  sibling := by
    intro cmd entry _ _ time isTime
    exact absurd isTime (by simp [siblingTimes])

section

variable {node : Path} {log : List (Issue Command)} {issue : Issue Command}
variable {timing : NodeTiming Command}

theorem record_prev (cmd : Command) (clk : Int) {prev : Command → List Int}
    (same : prev cmd = lastTimes length times) :
    record cmd clk prev cmd = lastTimes length (clk :: times) := by
  cases length with
  | zero =>
    rw [record, same, if_neg (by simp [lastTimes_length]), same]
    rfl
  | succ length =>
    rw [record, same, if_pos (by simp [lastTimes_length]), update_self, lastTimes_cons]

theorem record_other {cmd other : Command} (apart : other ≠ cmd) (clk : Int)
    (prev : Command → List Int) : record cmd clk prev other = prev other := by
  unfold record
  split
  · exact update_of_ne apart _ _
  · rfl

variable (records : Records spec root log node timing)
include records

/-- The command has the node as a target. -/
theorem Records.target_step (nonneg : ∀ other ∈ issue :: log, 0 ≤ other.clk)
    (isTarget : Targets root issue.addr node) :
    Records spec root (issue :: log) node
      (spec.updateTarget issue.cmd issue.clk node.length timing) where
  prev := by
    intro cmd
    rw [targetTimes_cons]
    by_cases same : issue.cmd = cmd
    · rw [if_pos ⟨same, isTarget⟩, ← same]
      exact record_prev _ _ _ _ (records.prev issue.cmd)
    · rw [if_neg fun both => same both.1]
      exact (record_other (fun isSame => same isSame.symm) _ _).trans (records.prev cmd)
  target := by
    intro cmd entry mem notSibling time isTime
    by_cases same : issue.cmd = cmd
    · subst same
      have short : entry.dist - 1 < maxDist (spec.timing node.length issue.cmd) :=
        Nat.lt_of_lt_of_le (Nat.sub_lt entry.dist_pos Nat.one_pos) (dist_le_maxDist mem)
      apply raise_bound _ mem
      have isPast : (record issue.cmd issue.clk timing.prev issue.cmd).getD
          (entry.dist - 1) (-1) = time := by
        rw [record_prev _ _ _ _ (records.prev issue.cmd)]
        apply lastTimes_getD short
        rwa [targetTimes_cons, if_pos ⟨rfl, isTarget⟩] at isTime
      have isNonneg : 0 ≤ time := targetTimes_nonneg nonneg (mem_of_getElem? isTime)
      rw [targetBound, notSibling]
      rw [isPast, if_neg (Int.not_lt.mpr isNonneg)]
      rfl
    · rw [targetTimes_cons, if_neg fun both => same both.1] at isTime
      exact Int.le_trans (records.target cmd entry mem notSibling time isTime) (le_raise _ _ _)
  sibling := by
    intro cmd entry mem isSibling time isTime
    rw [siblingTimes_cons, if_neg fun both => both.2.visited.2 isTarget] at isTime
    exact Int.le_trans (records.sibling cmd entry mem isSibling time isTime) (le_raise _ _ _)

/-- The command has the parent of the node as a target. -/
theorem Records.sibling_step (notTarget : ¬ Targets root issue.addr node) :
    Records spec root (issue :: log) node
      (spec.updateSibling issue.cmd issue.clk node.length timing) where
  prev := by
    intro cmd
    rw [targetTimes_cons, if_neg fun both => notTarget both.2]
    exact records.prev cmd
  target := by
    intro cmd entry mem notSibling time isTime
    rw [targetTimes_cons, if_neg fun both => notTarget both.2] at isTime
    exact Int.le_trans (records.target cmd entry mem notSibling time isTime) (le_raise _ _ _)
  sibling := by
    intro cmd entry mem isSibling time isTime
    have old (isOld : time ∈ siblingTimes root node cmd log) :
        time + entry.val ≤ (spec.updateSibling issue.cmd issue.clk node.length
          timing).next entry.cmd :=
      Int.le_trans (records.sibling cmd entry mem isSibling time isOld) (le_raise _ _ _)
    rw [siblingTimes_cons] at isTime
    split at isTime
    case isTrue isNew =>
      rcases mem_cons.mp isTime with rfl | isOld
      · apply raise_bound _ (isNew.1 ▸ mem)
        rw [siblingBound, isSibling]
        rfl
      · exact old isOld
    case isFalse => exact old isTime

/-- The command goes past the node. -/
theorem Records.other_step (notVisited : ¬ Visited root issue.addr node) :
    Records spec root (issue :: log) node timing where
  prev := by
    intro cmd
    rw [targetTimes_cons, if_neg fun both => notVisited (targets_iff.mp both.2).2]
    exact records.prev cmd
  target := by
    intro cmd entry mem notSibling time isTime
    rw [targetTimes_cons, if_neg fun both => notVisited (targets_iff.mp both.2).2] at isTime
    exact records.target cmd entry mem notSibling time isTime
  sibling := by
    intro cmd entry mem isSibling time isTime
    rw [siblingTimes_cons, if_neg fun both => notVisited both.2.visited.1] at isTime
    exact records.sibling cmd entry mem isSibling time isTime

theorem Records.step (nonneg : ∀ other ∈ issue :: log, 0 ≤ other.clk) :
    Records spec root (issue :: log) node
      (spec.touched root issue.cmd issue.addr issue.clk node timing) := by
  unfold touched
  split
  case isTrue isTarget => exact records.target_step nonneg isTarget
  case isFalse notTarget =>
    split
    case isTrue => exact records.sibling_step notTarget
    case isFalse notVisited => exact records.other_step notVisited

end

/-! ## Runs -/

section

variable {log : List (Issue Command)} {issue : Issue Command}
variable {dram before after : Dram Command State}

/-- A command that is issued was ready and sweeps over the tree. -/
theorem issue_spec (issues : spec.issue root before issue = .ok after) :
    spec.check issue.cmd issue.addr before.timings issue.clk spec.below [] = .ok true ∧
      after.timings = spec.updateTiming root issue.cmd issue.addr issue.clk
        spec.below [] before.timings := by
  obtain ⟨ready, isReady, checks⟩ := Checked.of_bind_eq_ok issues
  rcases Checked.of_check_bind_eq_ok checks with ⟨rfl, updates⟩
  obtain ⟨states, _, returns⟩ := Checked.of_bind_eq_ok updates
  cases returns
  exact ⟨isReady, rfl⟩

theorem run_cons (runs : spec.run root (issue :: log) = .ok after) :
    ∃ before, spec.run root log = .ok before ∧ spec.issue root before issue = .ok after :=
  Checked.of_bind_eq_ok runs

theorem run_records (nonneg : ∀ issue ∈ log, 0 ≤ issue.clk)
    (runs : spec.run root log = .ok dram) {node : Path} (within : spec.Within spec.below [] node) :
    Records spec root log node (dram.timings node) := by
  induction log generalizing dram with
  | nil =>
    cases runs
    exact records_construct node
  | cons issue log ih =>
    obtain ⟨before, runsBefore, issues⟩ := run_cons runs
    have records := ih (fun other mem => nonneg other (mem_cons_of_mem _ mem)) runsBefore
    rw [(issue_spec issues).2, (updateTiming_sweeps _ _ _ [] trivial).inside _ _ within]
    exact records.step nonneg

end

omit [DecidableEq Command] in
/-- The nodes that a command was found ready in. -/
theorem check_spec {cmd : Command} {addr : Nat → Int} {timings : Timings Command} {clk : Int}
    (ready : spec.check cmd addr timings clk below node = .ok true) :
    ∀ place ∈ spec.checkedPath cmd addr below node, spec.Within below node place ∧
        ((timings place).next cmd = -1 ∨ (timings place).next cmd ≤ clk) := by
  have isHere (below : Nat) (node : Path)
      (passes : ¬ ((timings node).next cmd ≠ -1 ∧ clk < (timings node).next cmd)) :
      spec.Within below node node ∧
        ((timings node).next cmd = -1 ∨ (timings node).next cmd ≤ clk) := by
    refine ⟨within_self below node, ?_⟩
    omega
  induction below generalizing node with
  | zero =>
    intro place mem
    rw [mem_singleton.mp mem]
    rw [check] at ready
    split at ready
    case isTrue => cases ready
    case isFalse passes => exact isHere 0 node passes
  | succ below induction =>
    rw [check] at ready
    rw [checkedPath]
    split at ready
    case isTrue => cases ready
    case isFalse passes =>
      intro place mem
      by_cases stops : addr (node.length + 1) < 0 ∨
          node.length = spec.scope cmd ∨ spec.count (node.length + 1) = 0
      · rw [if_pos stops] at mem
        rw [mem_singleton.mp mem]
        exact isHere _ node passes
      dsimp only at ready
      rw [if_neg stops] at mem ready
      obtain ⟨child, isChild, ready⟩ := Checked.of_bind_eq_ok ready
      unfold DramSpec.child at isChild
      split at isChild
      case isFalse => cases isChild
      case isTrue inRange =>
        cases isChild
        rcases mem_cons.mp mem with rfl | isBelow
        · exact isHere _ _ passes
        · obtain ⟨within, passes⟩ := induction ready place isBelow
          refine ⟨.inr ⟨_, ?_, within⟩, passes⟩
          omega

/-- Every command keeps to the timing table: it comes at least `val` cycles after
the `dist`-th last of the commands that had a node of its path as a target, and
after the last command that had a sibling of that node as a target. The cycle in
which a command is possible never goes back. -/
theorem timing_table_enforced (spec : DramSpec Command State) (root : Nat) (issue : Issue Command)
    (earlier : List (Issue Command)) (after : Dram Command State)
    (nonneg : ∀ other ∈ issue :: earlier, 0 ≤ other.clk)
    (runs : spec.run root (issue :: earlier) = .ok after) :
    (∃ before, spec.run root earlier = .ok before ∧ ∀ node cmd,
        (before.timings node).next cmd ≤ (after.timings node).next cmd) ∧
    ∀ node ∈ spec.checkedPath issue.cmd issue.addr spec.below [],
      ∀ cmd, ∀ entry ∈ spec.timing node.length cmd, entry.cmd = issue.cmd →
        (entry.sibling = false → ∀ time,
          (targetTimes root node cmd earlier)[entry.dist - 1]? = some time →
            time + entry.val ≤ issue.clk) ∧
        (entry.sibling = true → ∀ time, (siblingTimes root node cmd earlier).head? = some time →
            time + entry.val ≤ issue.clk) := by
  obtain ⟨before, runsBefore, issues⟩ := run_cons runs
  rcases issue_spec issues with ⟨ready, applied⟩
  have sweeps : Sweeps (spec.updateTiming root issue.cmd issue.addr issue.clk spec.below [])
      (spec.Within spec.below [])
      (spec.touched root issue.cmd issue.addr issue.clk) :=
    updateTiming_sweeps _ _ _ [] trivial
  refine ⟨⟨before, runsBefore, ?_⟩, ?_⟩
  · classical
    intro node cmd
    rw [applied]
    by_cases within : spec.Within spec.below [] node
    · rw [sweeps.inside _ _ within]
      exact le_touched _ _ _ _ _ _
    · have unchanged := sweeps.outside before.timings _ within
      exact Int.le_of_eq (congrArg (fun timing => timing.next cmd) unchanged).symm
  · intro node isChecked cmd entry inside same
    obtain ⟨within, passes⟩ := check_spec ready node isChecked
    have records := run_records (fun other isEarlier => nonneg other (mem_cons_of_mem _ isEarlier))
      runsBefore within
    have isNow : 0 ≤ issue.clk := nonneg issue mem_cons_self
    -- a command that was never put off has `-1`, which is past no bound
    have inTime (time : Int) (bound : time + entry.val ≤ (before.timings node).next entry.cmd) :
        time + entry.val ≤ issue.clk := by
      rw [same] at bound
      omega
    refine ⟨fun notSibling time isTime => ?_, fun isSibling time isTime => ?_⟩
    · exact inTime time (records.target cmd entry inside notSibling time isTime)
    · exact inTime time (records.sibling cmd entry inside isSibling time (mem_of_mem_head? isTime))

theorem two_of_sibling : false = true → 2 = 1 := by decide

theorem one_of_target : true = true → 1 = 1 := fun _ => rfl

/-- Two banks with two commands. The second command has to wait after the last
but one of the first commands to its bank, and after one to the other bank. -/
def twoBanks : DramSpec Bool Unit where
  row := 2
  row_pos := Nat.two_pos
  count := fun _ => 2
  scope := fun _ => 1
  start := fun _ => ()
  prereq := fun _ _ => none
  rowhit := fun _ _ => none
  rowopen := fun _ _ => none
  lambda := fun _ _ => none
  timing := fun level cmd =>
    if level = 1 ∧ cmd = false then
      [⟨true, 2, 5, false, Nat.two_pos, two_of_sibling⟩,
        ⟨true, 1, 1, true, Nat.one_pos, one_of_target⟩]
    else []

/-- The commands to a bank. -/
def toBank (bank : Nat) (cmd : Bool) (clk : Int) : Issue Bool :=
  ⟨cmd, fun level => if level = 1 then bank else 0, clk⟩

theorem timing_table_enforced_two_banks :
    Checked.Gives (twoBanks.run 0 [toBank 0 true 10, toBank 1 false 9,
      toBank 0 false 7, toBank 0 false 5]) (fun _ => True) ∧
    ∀ node ∈ twoBanks.checkedPath true (toBank 0 true 10).addr 1 [],
      ∀ cmd, ∀ entry ∈ twoBanks.timing node.length cmd, entry.cmd = true →
        (entry.sibling = false → ∀ time,
          (targetTimes 0 node cmd [toBank 1 false 9, toBank 0 false 7,
            toBank 0 false 5])[entry.dist - 1]? = some time → time + entry.val ≤ 10) ∧
        (entry.sibling = true → ∀ time,
          (siblingTimes 0 node cmd [toBank 1 false 9, toBank 0 false 7,
            toBank 0 false 5]).head? = some time → time + entry.val ≤ 10) := by
  have returns : Checked.Gives (twoBanks.run 0 [toBank 0 true 10,
      toBank 1 false 9, toBank 0 false 7, toBank 0 false 5]) fun _ => True := by decide
  refine ⟨returns, ?_⟩
  obtain ⟨after, runs, -⟩ := returns
  exact (timing_table_enforced twoBanks 0 (toBank 0 true 10)
    [toBank 1 false 9, toBank 0 false 7, toBank 0 false 5] after (by decide)
    runs).2

/-! ## Nothing else holds a command back -/

theorem raise_induct {bound : TimingEntry Command → Option Int} {holds : Command → Int → Prop}
    {entries : List (TimingEntry Command)} {next : Command → Int}
    (bounds : ∀ entry ∈ entries, ∀ future, bound entry = some future → holds entry.cmd future)
    (initially : ∀ cmd, holds cmd (next cmd)) (cmd : Command) :
    holds cmd (raise bound entries next cmd) := by
  induction entries generalizing next with
  | nil => exact initially cmd
  | cons entry entries ih =>
    obtain ⟨isBound, bounds⟩ := forall_mem_cons.mp bounds
    rw [raise, foldl_cons]
    cases found : bound entry with
    | none => exact ih bounds initially
    | some future =>
      refine ih bounds fun cmd => ?_
      dsimp only
      by_cases same : cmd = entry.cmd
      · rw [same, update_self]
        exact max_rec' _ (initially _) (isBound future found)
      · rw [update_of_ne same]
        exact initially cmd

/-- The command was never put off, or the cycle is the bound that an entry of the
table set when a command was issued: after that command, if it visited the node
beside its target, or after the `dist`-th last of those to the node. -/
def HeldBack (spec : DramSpec Command State) (root : Nat) (log : List (Issue Command))
    (node : Path) (cmd : Command) (next : Int) : Prop :=
  next = -1 ∨ ∃ issue earlier, issue :: earlier <:+ log ∧
    ∃ entry ∈ spec.timing node.length issue.cmd, entry.cmd = cmd ∧
      if Targets root issue.addr node then entry.sibling = false ∧ ∃ time,
        (targetTimes root node issue.cmd (issue :: earlier))[entry.dist - 1]? = some time ∧
          time + entry.val = next
      else entry.sibling = true ∧ Visited root issue.addr node ∧ issue.clk + entry.val = next

theorem getElem?_of_lastTimes {length pos : Nat} {times : List Int}
    (isPast : ¬ (lastTimes length times).getD pos (-1) < 0) :
    times[pos]? = some ((lastTimes length times).getD pos (-1)) := by
  by_cases short : pos < length
  · rw [getD_eq_getElem?_getD, lastTimes, getElem?_take_of_lt short] at isPast ⊢
    by_cases mem : pos < times.length
    · rw [List.getElem?_append_left mem] at isPast ⊢
      simp [mem]
    · rw [List.getElem?_append_right (Nat.le_of_not_lt mem), getElem?_replicate] at isPast
      split at isPast <;> simp at isPast
  · have long := (lastTimes_length length times).trans_le (Nat.le_of_not_lt short)
    rw [getD_eq_getElem?_getD, List.getElem?_eq_none long] at isPast
    exact absurd (by decide) isPast

theorem heldBack_touched {timing : NodeTiming Command} {log issues : List (Issue Command)}
    {issue : Issue Command} (issued : issue :: log <:+ issues)
    (records : Records spec root (issue :: log) node
      (spec.touched root issue.cmd issue.addr issue.clk node timing))
    (held : ∀ cmd, HeldBack spec root issues node cmd (timing.next cmd)) (cmd : Command) :
    HeldBack spec root issues node cmd
      ((spec.touched root issue.cmd issue.addr issue.clk node timing).next cmd) := by
  have history := records.prev issue.cmd
  unfold touched at history ⊢
  split
  case isTrue isTarget =>
    rw [if_pos isTarget] at history
    refine raise_induct (fun entry mem future isBound => ?_) held cmd
    rw [targetBound, Option.ite_none_left_eq_some] at isBound
    obtain ⟨notSibling, isBound⟩ := isBound
    rw [Option.ite_none_left_eq_some, show record _ _ _ _ = _ from history] at isBound
    refine .inr ⟨issue, log, issued, entry, mem, rfl, ?_⟩
    rw [if_pos isTarget]
    exact ⟨eq_false_of_ne_true notSibling, _, getElem?_of_lastTimes isBound.1,
      Option.some.inj isBound.2⟩
  case isFalse notTarget =>
    split
    case isTrue visited =>
      refine raise_induct (fun entry mem future isBound => ?_) held cmd
      rw [siblingBound, Option.ite_none_right_eq_some] at isBound
      refine .inr ⟨issue, log, issued, entry, mem, rfl, ?_⟩
      rw [if_neg notTarget]
      exact ⟨isBound.1, visited, Option.some.inj isBound.2⟩
    case isFalse => exact held cmd

/-- No node of the tree holds a command back for longer than an entry of the table
demands after the `dist`-th last command to the node or, if the entry says so, after
one beside it. -/
theorem delays_from_table (spec : DramSpec Command State) (root : Nat)
    (log : List (Issue Command)) (dram : Dram Command State)
    (nonneg : ∀ issue ∈ log, 0 ≤ issue.clk) (runs : spec.run root log = .ok dram)
    (node : Path) (within : spec.Within spec.below [] node) (cmd : Command) :
    HeldBack spec root log node cmd ((dram.timings node).next cmd) := by
  suffices run : ∀ issued, issued <:+ log → ∀ dram, spec.run root issued = .ok dram →
      ∀ cmd, HeldBack spec root log node cmd ((dram.timings node).next cmd) from
    run log (suffix_refl log) dram runs cmd
  intro issued
  induction issued with
  | nil =>
    rintro - dram ⟨⟩ cmd
    exact .inl rfl
  | cons issue issued ih =>
    intro suffix dram runs cmd
    have records := run_records (fun other inside => nonneg other (suffix.subset inside)) runs
      within
    obtain ⟨before, runsBefore, issues⟩ := run_cons runs
    rw [(issue_spec issues).2, (updateTiming_sweeps _ _ _ [] trivial).inside _ _ within]
      at records ⊢
    exact heldBack_touched suffix records
      (ih ((suffix_cons issue issued).trans suffix) before runsBefore) cmd

theorem delays_from_table_two_banks :
    Checked.Gives (twoBanks.run 0 [toBank 0 false 7, toBank 0 false 5]) fun dram =>
      (dram.timings [0]).next true = 10 ∧
        HeldBack twoBanks 0 [toBank 0 false 7, toBank 0 false 5] [0] true 10 := by
  have ran : Checked.Gives (twoBanks.run 0 [toBank 0 false 7, toBank 0 false 5])
      fun dram => (dram.timings [0]).next true = 10 := by decide
  obtain ⟨dram, runs, isNext⟩ := ran
  exact ⟨dram, runs, isNext, isNext ▸ delays_from_table twoBanks 0 _ dram (by decide) runs [0]
    (.inr ⟨0, by decide, within_self _ _⟩) true⟩

end Damov.Ramulator.DramSpec
