import Damov.Arrays.ZArray
import Damov.Replacement.Rand
import Mathlib.GroupTheory.Perm.List

/-!
# Runs of a zcache array

The swaps of an insertion rotate the lines along a simple path, so positions and
lines keep corresponding, and every line on the path moves to a position of its
own address. A run of lookups and insertions therefore keeps the representation
invariant, and a lookup finds exactly the addresses that were inserted and not
chosen as victims since.

An array offers fewer candidates than it was configured for when its walk meets an
empty line. `RandReplPolicy` takes exactly as many as configured.
-/

namespace Damov.Arrays

open Coherence Function Library.Checked List

namespace ZArray

variable {A : ZArray}

/-! ## The swaps -/

section Swap

variable {lookupArray : Nat → LineId} {candidate : LineId}

variable {positions : List Nat}

theorem swap_of_notMem {pos : Nat} (outside : pos ∉ positions) :
    swap candidate positions lookupArray pos = lookupArray pos := by
  induction positions generalizing lookupArray with
  | nil => rfl
  | cons first rest ih =>
    rw [mem_cons, not_or] at outside
    cases rest with
    | nil => exact update_of_ne outside.1 _ _
    | cons next rest =>
      rw [swap, ih outside.2, update_of_ne outside.1]

/-- A position on the path gets the line of the next one. -/
theorem swap_getElem (nodup : positions.Nodup) {i : Nat} (mem : i + 1 < positions.length) :
    swap candidate positions lookupArray positions[i] = lookupArray positions[i + 1] := by
  induction positions generalizing lookupArray i with
  | nil => exact absurd mem (Nat.not_lt_zero _)
  | cons first rest ih =>
    cases rest with
    | nil => exact absurd mem (by simp)
    | cons next rest =>
      rw [nodup_cons] at nodup
      rw [swap]
      cases i with
      | zero =>
        simp only [getElem_cons_zero, getElem_cons_succ]
        rw [swap_of_notMem nodup.1, update_self]
      | succ i =>
        have further : i + 1 < (next :: rest).length := Nat.lt_of_succ_lt_succ mem
        simp only [getElem_cons_succ]
        rw [ih nodup.2 further]
        apply update_of_ne
        intro equal
        exact nodup.1 (equal ▸ getElem_mem further)

/-- The last position of the path gets the new line. -/
theorem swap_last (first : Nat) (rest : List Nat) : swap candidate (first :: rest) lookupArray
        ((first :: rest).getLast (List.cons_ne_nil first rest)) =
      candidate := by
  induction rest generalizing first lookupArray with
  | nil => exact update_self _ _ _
  | cons next rest ih =>
    exact ih next

theorem getElem_eq_getLast {first i : Nat} {rest : List Nat} (mem : i < (first :: rest).length)
    (isLast : ¬ i + 1 < (first :: rest).length) :
    (first :: rest)[i] = (first :: rest).getLast (List.cons_ne_nil first rest) := by
  rw [getLast_eq_getElem]
  congr 1
  omega

/-- The swaps rotate the lines along the path. -/
theorem swap_eq_formPerm (nodup : positions.Nodup)
    (head : positions.head?.map lookupArray = some candidate) :
    swap candidate positions lookupArray = lookupArray ∘ positions.formPerm := by
  funext pos
  by_cases member : pos ∈ positions
  · cases positions with
    | nil => cases member
    | cons first rest =>
      obtain ⟨i, mem, rfl⟩ := getElem_of_mem member
      by_cases isLast : i + 1 < (first :: rest).length
      · rw [swap_getElem nodup isLast, Function.comp_apply,
          formPerm_apply_lt_getElem _ nodup i isLast]
      · rw [getElem_eq_getLast mem isLast, swap_last]
        simpa using head.symm
  · rw [swap_of_notMem member, Function.comp_apply, formPerm_apply_of_notMem member]

end Swap

variable {tag : Nat → Address} {lineAddr : Address}

/-- Every line on the path moves to a position of its address. -/
theorem Movable.step {positions : List Nat} (movable : A.Movable tag lineAddr positions) {i : Nat}
    (mem : i + 1 < positions.length) :
    A.IsPosition positions[i] (tag positions[i + 1]) := by
  induction positions generalizing i with
  | nil => exact absurd mem (Nat.not_lt_zero _)
  | cons first rest ih =>
    cases rest with
    | nil => exact absurd mem (by simp)
    | cons next rest =>
      cases i with
      | zero => exact movable.1
      | succ i =>
        exact ih movable.2 (Nat.lt_of_succ_lt_succ mem)

theorem Movable.last {first : Nat} {rest : List Nat}
    (movable : A.Movable tag lineAddr (first :: rest)) :
    A.IsPosition ((first :: rest).getLast (List.cons_ne_nil first rest))
      lineAddr := by
  induction rest generalizing first with
  | nil => exact movable
  | cons next rest ih =>
    exact ih movable.2

/-! ## Insertions -/

section Insert

variable {state : A.State} {lineAddr : Address} {candidate : LineId}

/--
The path starts at the line that makes room. The last position of the path
suits the new address, and every other one the address of the line that moves
there.
-/
theorem Armed.moved (armed : Armed state lineAddr candidate) :
    ∃ first ∈ state.swapArray, state.lookupArray first = candidate ∧
      ∀ pos ∈ state.swapArray, (state.swapArray.formPerm pos = first → A.IsPosition pos lineAddr) ∧
        (state.swapArray.formPerm pos ≠ first →
          A.IsPosition pos (state.array (state.lookupArray (state.swapArray.formPerm pos)))) := by
  have nodup := armed.nodup
  have movable := armed.movable
  have head := armed.head
  cases isSwap : state.swapArray with
  | nil =>
    rw [isSwap] at movable
    exact movable.elim
  | cons first rest =>
    rw [isSwap] at nodup movable head
    refine ⟨first, mem_cons_self, by simpa using head, ?_⟩
    intro pos mem
    obtain ⟨i, inside, rfl⟩ := getElem_of_mem mem
    by_cases isLast : i + 1 < (first :: rest).length
    · rw [formPerm_apply_lt_getElem _ nodup i isLast]
      refine ⟨?_, fun _ => movable.step isLast⟩
      intro isFirst
      rw [nodup_cons] at nodup
      exact absurd (isFirst ▸ getElem_mem _) nodup.1
    · rw [getElem_eq_getLast inside isLast, formPerm_apply_getLast]
      exact ⟨fun _ => movable.last, fun notFirst => absurd rfl notFirst⟩

theorem Armed.formPerm_lt (armed : Armed state lineAddr candidate) {pos : Nat}
    (mem : pos < A.numLines) :
    state.swapArray.formPerm pos < A.numLines := by
  by_cases member : pos ∈ state.swapArray
  · exact armed.inside _ (formPerm_apply_mem_of_mem member)
  · rwa [formPerm_apply_of_notMem member]

/-- An insertion keeps the representation invariant. -/
theorem postinsert_spec (wf : Wf state) (armed : Armed state lineAddr candidate)
    (ne0 : lineAddr ≠ 0) (missing : A.scan state lineAddr = none) :
    Gives (A.postinsert state lineAddr candidate) (fun after =>
        Wf after ∧
        after.array = update state.array candidate lineAddr ∧
        after.swapArray = state.swapArray) := by
  have absent : ∀ {lineId}, lineId < A.numLines → state.array lineId ≠ lineAddr := by
    intro lineId mem holds
    have found := (wf.scan_iff ne0).mpr ⟨mem, holds⟩
    rw [missing] at found
    cases found
  have swapped := swap_eq_formPerm armed.nodup armed.head
  obtain ⟨first, isFirst, isCandidate, moved⟩ := armed.moved
  refine .check armed.head ?_
  refine .pure ⟨?_, rfl, rfl⟩
  exact {
    mapsTo := by
      intro pos mem
      simp only [swapped]
      exact wf.mapsTo (armed.formPerm_lt mem)
    injective := by
      intro pos other mem mem' equal
      simp only [swapped] at equal
      exact state.swapArray.formPerm.injective
        (wf.injective (armed.formPerm_lt mem) (armed.formPerm_lt mem') equal)
    placed := by
      intro pos mem nonzeroTag
      simp only [swapped, Function.comp_apply] at nonzeroTag ⊢
      by_cases isNew : state.lookupArray (state.swapArray.formPerm pos) = candidate
      · have comesFirst : state.swapArray.formPerm pos = first :=
          wf.injective (armed.formPerm_lt mem)
            (armed.inside first isFirst) (isNew.trans isCandidate.symm)
        have member : pos ∈ state.swapArray := by
          by_contra outside
          rw [formPerm_apply_of_notMem outside] at comesFirst
          exact outside (comesFirst ▸ isFirst)
        rw [isNew, update_self]
        exact (moved pos member).1 comesFirst
      · rw [update_of_ne isNew] at nonzeroTag ⊢
        by_cases member : pos ∈ state.swapArray
        · apply (moved pos member).2
          intro comesFirst
          exact isNew (comesFirst ▸ isCandidate)
        · rw [formPerm_apply_of_notMem member] at nonzeroTag ⊢
          exact wf.placed mem nonzeroTag
    once := by
      intro lineId other mem mem' nonzeroTag equal
      by_cases isNew : lineId = candidate <;>
      by_cases isNewOther : other = candidate
      · rw [isNew, isNewOther]
      · simp only [isNew, update_self, update_of_ne isNewOther] at equal
        exact absurd equal.symm (absent mem')
      · simp only [isNewOther, update_self, update_of_ne isNew] at equal
        exact absurd equal (absent mem)
      · simp only [update_of_ne isNew, update_of_ne isNewOther] at nonzeroTag equal
        exact wf.once mem mem' nonzeroTag equal }

end Insert

/-! ## Runs -/

section Run

variable {state : A.State}

/-- The addresses that a zcache array may be asked for. -/
abbrev LineAddr := { lineAddr : Address // lineAddr ≠ 0 }

/-- A lookup on its own. -/
def touch (state : A.State) (request : LineAddr × Bool) : Except ZFailure A.State := do
  let (_, state) ← A.lookup state request.1 request.2
  pure state

/--
The operations: a lookup, and an insertion after a failed lookup. Lookups may
come between the two halves of an insertion.
-/
inductive Op where
  | lookup (lineAddr : LineAddr) (updateReplacement : Bool)
  | insert (lineAddr : LineAddr) (meanwhile : List (LineAddr × Bool))

/--
One operation. `present` is a ghost: the addresses inserted and not chosen as
victims since.
-/
def step (current : A.State × Finset Address) : Op → Except ZFailure (A.State × Finset Address)
  | .lookup lineAddr updateReplacement => do
      let state ← touch current.1 (lineAddr, updateReplacement)
      pure (state, current.2)
  | .insert lineAddr meanwhile => do
      let (found, state) ← A.lookup current.1 lineAddr true
      match found with
      | some _ => pure (state, current.2)
      | none => do
          let (candidate, wbLineAddr, state) ← A.preinsert state lineAddr
          let state ← meanwhile.foldlM touch state
          let state ← A.postinsert state lineAddr candidate
          pure (state, insert lineAddr.val (current.2.erase wbLineAddr))

/-- A run from the array as it is constructed. -/
def run (policy : A.rp.State) (ops : List Op) : Except ZFailure (A.State × Finset Address) :=
  ops.foldlM step (A.initial policy, ∅)

/-- The invariant of a run. -/
structure RunOk (current : A.State × Finset Address) : Prop where
  wf : Wf current.1
  nodup : current.1.swapArray.Nodup
  present : ∀ lineAddr ≠ 0,
    (∃ lineId < A.numLines, current.1.array lineId = lineAddr) ↔ lineAddr ∈ current.2

/-- Two states that differ in the replacement policy only. -/
structure SameTags (state after : A.State) : Prop where
  array : after.array = state.array
  lookupArray : after.lookupArray = state.lookupArray
  swapArray : after.swapArray = state.swapArray

variable {after : A.State} {cur : A.State × Finset Address}

/-- The representation invariant is about tags and positions only. -/
theorem Wf.congr (wf : Wf state) (array : after.array = state.array)
    (lookupArray : after.lookupArray = state.lookupArray) : Wf after := by
  obtain ⟨_, _, _, _⟩ := state
  cases array
  cases lookupArray
  exact ⟨wf.mapsTo, wf.injective, wf.placed, wf.once⟩

variable {lineAddr : Address} {candidate : LineId} {present : Finset Address}

theorem SameTags.armed (same : SameTags state after) (armed : Armed state lineAddr candidate) :
    Armed after lineAddr candidate := by
  obtain ⟨array, lookupArray, swapArray, policy⟩ := state
  rcases same with ⟨rfl, rfl, rfl⟩
  exact ⟨armed.nodup, armed.inside, armed.movable, armed.head⟩

theorem SameTags.scan (same : SameTags state after) (lineAddr : Address) :
    A.scan after lineAddr = A.scan state lineAddr := by
  simp only [ZArray.scan, same.array, same.lookupArray]

theorem lookup_spec (state : A.State) (ne0 : lineAddr ≠ 0) (update : Bool) :
    Gives (A.lookup state lineAddr update) (fun res => res.1 = A.scan state lineAddr ∧
        SameTags state res.2) := by
  refine .check ne0 ?_
  cases A.scan state lineAddr with
  | none => exact .pure ⟨rfl, rfl, rfl, rfl⟩
  | some lineId =>
    refine .pure ?_
    cases update
    · exact ⟨rfl, rfl, rfl, rfl⟩
    · exact ⟨rfl, rfl, rfl, rfl⟩

theorem touch_spec (req : LineAddr × Bool) : Gives (touch state req) (SameTags state) := by
  apply (lookup_spec state req.1.property req.2).bind
  rintro ⟨found, after⟩ ⟨_, same⟩
  exact .pure same

/-- Lookups between the halves of an insertion. -/
theorem meanwhile_spec (reqs : List (LineAddr × Bool)) :
    Gives (reqs.foldlM touch state) (SameTags state) := by
  apply Gives.foldlM (fun _ _ after => SameTags state after)
  · intro _ req _ mid same
    apply (touch_spec req).mono
    intro after further
    exact ⟨further.array.trans same.array, further.lookupArray.trans same.lookupArray,
      further.swapArray.trans same.swapArray⟩
  · exact ⟨rfl, rfl, rfl⟩

/-- A change of the replacement policy alone. -/
theorem RunOk.sameTags (ok : RunOk (state, present)) (same : SameTags state after) :
    RunOk (after, present) where
  wf := ok.wf.congr same.array same.lookupArray
  nodup := by
    simp only [same.swapArray]
    exact ok.nodup
  present := by
    simp only [same.array]
    exact ok.present

/-- The addresses in the array after one line was overwritten. -/
theorem RunOk.present_insert (ok : RunOk (state, present))
    (bounded : candidate < A.numLines) (lineAddr other : Address) (ne0 : other ≠ 0) :
    (∃ lineId < A.numLines, update state.array candidate lineAddr lineId = other) ↔
      other ∈ insert lineAddr (present.erase (state.array candidate)) := by
  rw [Finset.mem_insert, Finset.mem_erase, ← ok.present other ne0]
  constructor
  · rintro ⟨lineId, mem, holds⟩
    by_cases isNew : lineId = candidate
    · rw [isNew, update_self] at holds
      exact .inl holds.symm
    · rw [update_of_ne isNew] at holds
      refine .inr ⟨?_, lineId, mem, holds⟩
      intro isVictim
      exact isNew (ok.wf.once mem bounded (holds ▸ ne0) (holds.trans isVictim))
  · rintro (rfl | ⟨notVictim, lineId, mem, holds⟩)
    · exact ⟨candidate, bounded, update_self _ _ _⟩
    · refine ⟨lineId, mem, ?_⟩
      rw [update_of_ne]
      · exact holds
      · rintro rfl
        exact notVictim holds.symm

/-- One operation. -/
theorem step_spec (ok : RunOk cur) (op : Op) : Gives (step cur op) RunOk := by
  obtain ⟨state, present⟩ := cur
  cases op with
  | lookup lineAddr update =>
    apply (touch_spec (lineAddr, update)).bind
    intro after same
    exact .pure (ok.sameTags same)
  | insert lineAddr meanwhile =>
    apply (lookup_spec state lineAddr.property true).bind
    rintro ⟨found, looked⟩ ⟨isFound, sameLooked⟩
    have okLooked := ok.sameTags sameLooked
    have missing := sameLooked.scan lineAddr.val
    rw [← isFound] at missing
    cases found with
    | some lineId => exact .pure okLooked
    | none =>
      apply (preinsert_spec okLooked.wf lineAddr.val).bind
      rintro ⟨candidate, wbLineAddr, chosen⟩ ⟨bounded, isVictim, array, lookupArray, armed⟩
      apply (meanwhile_spec meanwhile).bind
      intro mid sameMid
      have arrayMid : mid.array = looked.array := sameMid.array.trans array
      have lookupMid : mid.lookupArray = looked.lookupArray := sameMid.lookupArray.trans lookupArray
      have wfMid := okLooked.wf.congr arrayMid lookupMid
      have missingMid : A.scan mid lineAddr.val = none := by
        simp only [ZArray.scan, arrayMid, lookupMid]
        exact missing
      have armedMid := sameMid.armed armed
      apply (postinsert_spec wfMid armedMid lineAddr.property missingMid).bind
      rintro after ⟨wfAfter, arrayAfter, swapAfter⟩
      exact .pure {
        wf := wfAfter
        nodup := by
          simp only [swapAfter]
          exact armedMid.nodup
        present := by
          intro other ne0
          have isWb : wbLineAddr = looked.array candidate := isVictim
          simp only [arrayAfter, arrayMid, isWb]
          exact okLooked.present_insert bounded lineAddr.val other ne0 }

theorem run_spec (ok : RunOk cur) (ops : List Op) : Gives (ops.foldlM step cur) RunOk := by
  induction ops generalizing cur with
  | nil => exact .pure ok
  | cons op ops ih =>
    exact (step_spec ok op).bind (fun _ okNext => ih okNext)

/-- The array represents a set of addresses. -/
structure Represents (state : A.State) (present : Finset Address) : Prop where
  permutation : Set.BijOn state.lookupArray (Set.Iio A.numLines) (Set.Iio A.numLines)
  placed : ∀ lineId < A.numLines, state.array lineId ≠ 0 → ∃ w < A.ways,
      state.lookupArray (A.position w (state.array lineId)) = lineId
  once : ∀ lineId < A.numLines, ∀ other < A.numLines,
    state.array lineId ≠ 0 → state.array lineId = state.array other → lineId = other
  lookup : ∀ lineAddr ≠ 0, ∀ updateReplacement, ∃ found after,
    A.lookup state lineAddr updateReplacement = .ok (found, after) ∧
      (found.isSome = true ↔ lineAddr ∈ present) ∧ ∀ lineId ∈ found, state.array lineId = lineAddr
  swaps : state.swapArray.Nodup

theorem RunOk.represents (ok : RunOk cur) : Represents cur.1 cur.2 where
  permutation := ⟨fun _ mem => ok.wf.mapsTo mem, fun _ mem _ mem' => ok.wf.injective mem mem',
      fun _ mem => by
        obtain ⟨pos, insidePos, equal⟩ := ok.wf.surjective mem
        exact ⟨pos, insidePos, equal⟩⟩
  placed := by
    intro lineId mem ne0
    obtain ⟨pos, insidePos, rfl⟩ := ok.wf.surjective mem
    rcases ok.wf.placed insidePos ne0 with ⟨w, isWay, isPosition⟩
    exact ⟨w, isWay, by rw [← isPosition]⟩
  once := fun _ mem _ mem' => ok.wf.once mem mem'
  lookup := by
    intro lineAddr ne0 update
    obtain ⟨⟨found, after⟩, returns, isScan, _⟩ := lookup_spec cur.1 ne0 update
    have isFound : found = A.scan cur.1 lineAddr := isScan
    have iff : ∀ lineId, A.scan cur.1 lineAddr = some lineId ↔
        lineId < A.numLines ∧ cur.1.array lineId = lineAddr :=
      fun _ => ok.wf.scan_iff ne0
    refine ⟨found, after, returns, ?_, ?_⟩
    · rw [← ok.present lineAddr ne0, isFound, Option.isSome_iff_exists]
      exact exists_congr iff
    · intro lineId member
      rw [isFound] at member
      exact ((iff lineId).mp member).2
  swaps := ok.nodup

/--
Every run of a zcache array completes, and afterwards the array represents the
addresses that were inserted and not chosen as victims since.
-/
theorem zarray_represents (A : ZArray) (policy : A.rp.State) (ops : List Op) :
    ∃ state present, A.run policy ops = .ok (state, present) ∧ Represents state present := by
  have initially : RunOk (A.initial policy, ∅) := {
    wf := wf_initial policy
    nodup := nodup_nil
    present := by
      intro lineAddr nonzero
      constructor
      · rintro ⟨_, _, holds⟩
        exact absurd holds.symm nonzero
      · intro member
        exact absurd member (Finset.notMem_empty lineAddr) }
  obtain ⟨⟨state, present⟩, returns, ok⟩ := run_spec initially ops
  exact ⟨state, present, returns, ok.represents⟩

end Run

end ZArray

open Replacement

/-- The failures of the array and of its policy. -/
inductive ZBankFailure where
  | array (failure : ZFailure)
  | policy (failure : RandFailure)
  deriving DecidableEq

/-- The policy of an array whose next victim was chosen already. -/
def chosen : ReplPolicy where
  State := LineId
  update := fun victim _ => victim
  replaced := fun victim _ => victim
  rankCands := fun victim cands =>
    (if victim ∈ cands then victim else cands.headD victim, victim)
  rankCands_mem := by
    intro victim cands nonempty
    dsimp only
    split
    · assumption
    · cases cands with
      | nil => exact absurd rfl nonempty
      | cons first rest => exact List.mem_cons_self

/-- What `BuildCacheBank` reads from the configuration of a zcache bank. -/
structure ZBank where
  hf : HashFamily
  setBits : Nat
  ways : Nat
  candidates : Nat
  two_le_ways : 2 ≤ ways
  ways_le_candidates : ways ≤ candidates

namespace ZBank

variable (bank : ZBank)

def array : ZArray where
  rp := chosen
  hf := bank.hf
  setBits := bank.setBits
  ways := bank.ways
  cands := bank.candidates
  two_le_ways := bank.two_le_ways
  ways_le_cands := bank.ways_le_candidates

/-- The candidates that `preinsert` hands to the policy. -/
def offered (state : bank.array.State) (lineAddr : Address) : Except ZFailure (List LineId) := do
  let walk ← bank.array.walkLoop state bank.candidates (bank.array.seeds state lineAddr)
  return (walk.candidates.take bank.candidates).map ZWalkInfo.lineId

/-- A bank with the policy `RandReplPolicy(candidates)`. The victims so far are
kept with the candidates that were offered. -/
structure RandBank (generator : Generator) where
  state : bank.array.State
  rp : RandReplPolicy generator
  victims : List (LineId × List LineId)

variable {bank} {generator : Generator}

def initial (rnd : generator.State) : bank.RandBank generator where
  state := bank.array.initial (0 : LineId)
  rp := ⟨[], rnd⟩
  victims := []

variable (current : bank.RandBank generator)

/-- `preinsert` and `postinsert` of an address that was not found. -/
def insert (lineAddr : Address) : Except ZBankFailure (bank.RandBank generator) := do
  let cands ← within ZBankFailure.array (bank.offered current.state lineAddr)
  let ranked ← within ZBankFailure.policy (current.rp.rank bank.candidates cands)
  let picked ← within ZBankFailure.array
    (bank.array.preinsert { current.state with policy := ranked.1 } lineAddr)
  let state ← within ZBankFailure.array (bank.array.postinsert picked.2.2 lineAddr picked.1)
  return ⟨state, ranked.2.replaced, (picked.1, cands) :: current.victims⟩

/-- Lookups, and insertions after a lookup that failed. -/
inductive Op where
  | lookup (lineAddr : ZArray.LineAddr) (updateReplacement : Bool)
  | insert (lineAddr : ZArray.LineAddr)

def step : Op → Except ZBankFailure (bank.RandBank generator)
  | .lookup lineAddr updateReplacement => do
      let found ← within ZBankFailure.array
        (bank.array.lookup current.state lineAddr updateReplacement)
      return { current with state := found.2 }
  | .insert lineAddr => do
      let found ← within ZBankFailure.array (bank.array.lookup current.state lineAddr true)
      if found.1.isSome then return { current with state := found.2 }
      else insert { current with state := found.2 } lineAddr

def run (bank : ZBank) (generator : Generator) (rnd : generator.State)
    (ops : List Op) : Except ZBankFailure (bank.RandBank generator) :=
  ops.foldlM step (initial rnd)

/-! ## As many candidates as ways -/

/-- The walk stops at its seeds. -/
theorem offered_spec (same : bank.candidates = bank.ways)
    (state : bank.array.State) (lineAddr : Address) :
    Gives (bank.offered state lineAddr) fun cands =>
      cands.length = bank.candidates := by
  have size : (bank.array.seeds state lineAddr).candidates.length = bank.ways := by
    simp only [ZArray.seeds, List.length_map, List.length_range]
    rfl
  have stays : bank.array.walkLoop state bank.candidates (bank.array.seeds state lineAddr) =
        .ok (bank.array.seeds state lineAddr) := by
    cases bank.candidates with
    | zero => rfl
    | succ fuel =>
      have notShort : ¬ (bank.array.seeds state lineAddr).candidates.length <
          bank.array.cands := by
        rw [size, ← same]
        exact lt_irrefl _
      exact if_neg fun goesOn => notShort goesOn.1
  rw [offered, stays]
  refine .pure ?_
  rw [List.length_map, List.length_take, size, same, Nat.min_self]

/-- The state of a bank between two operations. -/
structure Ready : Prop where
  wf : ZArray.Wf current.state
  fresh : current.rp.candArray = []
  offered : ∀ entry ∈ current.victims, entry.1 ∈ entry.2

/-- The walk does not consult the policy. -/
theorem walkLoop_policy (state : bank.array.State) (victim : LineId)
    (fuel : Nat) (walk : ZArray.Walk) :
    bank.array.walkLoop { state with policy := victim } fuel walk =
      bank.array.walkLoop state fuel walk := by
  induction fuel generalizing walk with
  | zero => rfl
  | succ fuel ih =>
    rw [ZArray.walkLoop]
    simp only [ih]
    rfl

/-- `preinsert` returns the victim that was drawn. -/
theorem preinsert_chosen {state : bank.array.State} {lineAddr : Address} {cands : List LineId}
    {victim : LineId} {picked : LineId × Address × bank.array.State}
    (isOffered : bank.offered state lineAddr = .ok cands) (mem : victim ∈ cands)
    (returns : bank.array.preinsert { state with policy := victim } lineAddr = .ok picked) :
    picked.1 = victim := by
  obtain ⟨walk, isWalk, isCands⟩ := of_bind_eq_ok isOffered
  obtain ⟨sameWalk, isSame, rest⟩ := of_bind_eq_ok returns
  rw [walkLoop_policy] at isSame
  cases isWalk.symm.trans isSame
  cases isCands
  have ranks : (chosen.rankCands victim
      ((walk.candidates.take bank.candidates).map ZWalkInfo.lineId)).1 =
        victim :=
    if_pos mem
  have afterWalk := (of_check_bind_eq_ok rest).2
  have afterRank := (of_check_bind_eq_ok afterWalk).2
  have final := (of_check_bind_eq_ok afterRank).2
  cases final
  exact ranks

variable {cur : bank.RandBank generator}

theorem insert_ready (same : bank.candidates = bank.ways) (ready : Ready cur)
    {lineAddr : Address} (ne0 : lineAddr ≠ 0)
    (missing : bank.array.scan cur.state lineAddr = none) :
    Gives (insert cur lineAddr) Ready := by
  obtain ⟨cands, isOffered, size⟩ := offered_spec same cur.state lineAddr
  have positive : 0 < bank.candidates := by
    have := bank.two_le_ways
    omega
  rw [insert, isOffered]
  apply (RandReplPolicy.rank_spec ready.fresh size positive).within.bind
  intro ranked mem
  have wf : ZArray.Wf { cur.state with policy := ranked.1 } := ready.wf.congr rfl rfl
  obtain ⟨picked, returns, bounded, isVictim, array, lookupArray, armed⟩ :=
    ZArray.preinsert_spec wf lineAddr
  rw [returns]
  have isPicked := preinsert_chosen isOffered mem returns
  have missingPicked : bank.array.scan picked.2.2 lineAddr = none := by
    simp only [ZArray.scan, array, lookupArray]
    exact missing
  have wfPicked : ZArray.Wf picked.2.2 := wf.congr array lookupArray
  apply (ZArray.postinsert_spec wfPicked armed ne0 missingPicked).within.bind
  intro after holds
  exact .pure {
    wf := holds.1
    fresh := rfl
    offered := by
      intro entry isEntry
      cases isEntry with
      | head => exact isPicked ▸ mem
      | tail _ earlier => exact ready.offered entry earlier }

theorem Ready.sameTags (ready : Ready cur) {after : bank.array.State}
    (same : ZArray.SameTags cur.state after) :
    Ready { cur with state := after } where
  wf := ready.wf.congr same.array same.lookupArray
  fresh := ready.fresh
  offered := ready.offered

theorem step_ready (same : bank.candidates = bank.ways) (ready : Ready cur) (op : Op) :
    Gives (step cur op) Ready := by
  cases op with
  | lookup lineAddr update =>
    apply (ZArray.lookup_spec cur.state lineAddr.property update).within.bind
    intro found holds
    exact .pure (ready.sameTags holds.2)
  | insert lineAddr =>
    apply (ZArray.lookup_spec cur.state lineAddr.property true).within.bind
    intro found holds
    have readyFound := ready.sameTags holds.2
    by_cases isFound : found.1.isSome = true
    · rw [if_pos isFound]
      exact .pure readyFound
    · rw [if_neg isFound]
      apply insert_ready same readyFound lineAddr.property
      rw [holds.2.scan, ← holds.1]
      exact Option.not_isSome_iff_eq_none.mp isFound

/--
With as many candidates as ways, the policy is always offered as many candidates
as it expects, no assertion fails, and the victims were offered.
-/
theorem random_replacement (bank : ZBank) (generator : Generator) (rnd : generator.State)
    (same : bank.candidates = bank.ways) (ops : List Op) :
    Gives (run bank generator rnd ops) fun current =>
      ∀ entry ∈ current.victims, entry.1 ∈ entry.2 := by
  have ready : Ready (initial rnd : bank.RandBank generator) := {
    wf := ZArray.wf_initial _
    fresh := rfl
    offered := nofun }
  refine .mono (Gives.foldlM (fun _ _ current => Ready current) ?_ _ _ ready) ?_
  · intro _ op _ current readyCurrent
    exact step_ready same readyCurrent op
  · intro current readyCurrent
    exact readyCurrent.offered

/-- A generator that always draws the first candidate. -/
def firstDrawn : Generator where
  State := Unit
  randInt := fun _ _ => (0, ())
  randInt_le := fun _ bound => Nat.zero_le bound

def threeWays : ZBank where
  hf := IdHashFamily
  setBits := 1
  ways := 3
  candidates := 3
  two_le_ways := Nat.le_succ 2
  ways_le_candidates := le_refl 3

theorem random_replacement_three_ways : threeWays.candidates = threeWays.ways ∧ Gives
        (run threeWays firstDrawn () [.insert ⟨1, by decide⟩,
          .insert ⟨3, by decide⟩, .insert ⟨5, by decide⟩])
        fun current => ∀ entry ∈ current.victims, entry.1 ∈ entry.2 :=
  ⟨rfl, random_replacement threeWays firstDrawn () rfl _⟩

/-- Three ways, and one more candidate from a second level of the walk. -/
def fourCandidates : ZBank :=
  { threeWays with
    candidates := 4
    ways_le_candidates := Nat.le_succ 3 }

/-- The first insertion meets empty lines and offers the seeds only. -/
theorem warm_up_fails : run fourCandidates firstDrawn () [.insert ⟨1, by decide⟩] =
      .error (.policy .candCount) := by rfl

end ZBank

end Damov.Arrays
