import Damov.Arrays.SetAssocArray
import Damov.Library.SearchForest

/-!
# ZArrays

`ZArray` of `cache_arrays.h`. Every way has its own hash function, so an
address may be at one position in each way. `lookupArray` maps positions to
line ids and `array` maps line ids to addresses.

A replacement walks breadth-first over the lines that could make room: the lines
at the positions of the new address, then the lines at the other positions of
the addresses found there, and so on. Lines that the walk meets twice are expanded
twice, so the walk is a search forest and the path from the first candidate with
the chosen line is simple. The lines on the path move one step each and the new
line takes the position that becomes free.

A loop of the source that has no obvious bound takes fuel; the assertion after
the walk fails when the fuel runs out.
-/

namespace Damov.Arrays

open Coherence Function Library.Checked

/-- The panics and assertions of `ZArray`. -/
inductive ZFailure where
  | lookupZero
  | fringeOutOfRange
  | fringeInvalid
  | walkTooShort
  | candidateOutOfRange
  | noSwaps
  | wrongSwap
deriving DecidableEq, Repr

/-- A candidate of the walk; the seeds have no parent. -/
structure ZWalkInfo where
  pos : Nat
  lineId : LineId
  parentIdx : Option Nat
deriving DecidableEq, Repr

/-- The parameters of a zcache array; there are `2 ^ setBits` sets per way. -/
structure ZArray where
  rp : ReplPolicy
  hf : HashFamily
  setBits : Nat
  ways : Nat
  cands : Nat
  two_le_ways : 2 ≤ ways
  ways_le_cands : ways ≤ cands

namespace ZArray

variable (A : ZArray)

/-- The memory of a zcache array; `swapArray` is the part in use. -/
structure State where
  array : LineId → Address
  lookupArray : Nat → LineId
  swapArray : List Nat
  policy : A.rp.State

def numSets : Nat := 2 ^ A.setBits

def numLines : Nat := A.ways * A.numSets

def setMask : BitVec 64 := BitVec.ofNat 64 (A.numSets - 1)

/-- The position of an address in a way. -/
def position (w : Nat) (lineAddr : Address) : Nat :=
  w * A.numSets + (A.hf w lineAddr &&& A.setMask).toNat

/-- The array as it is constructed, with a linear mapping. -/
def initial (policy : A.rp.State) : A.State where
  array := fun _ => 0
  lookupArray := fun i => i
  swapArray := []
  policy := policy

/-! ## Lookups -/

variable (state : A.State) (lineAddr : Address)

/-- The loop of `lookup`. -/
def scan : Option LineId :=
  ((List.range A.ways).map (fun w => state.lookupArray (A.position w lineAddr))).find?
      (fun lineId => state.array lineId == lineAddr)

def lookup (updateReplacement : Bool) : Except ZFailure (Option LineId × A.State) := do
  check (lineAddr ≠ 0) ZFailure.lookupZero
  match A.scan state lineAddr with
  | some lineId =>
    pure (some lineId, if updateReplacement then
        { state with policy := A.rp.update state.policy lineId }
      else
        state)
  | none => pure (none, state)

/-! ## The walk -/

/-- The locals of the walk. -/
structure Walk where
  candidates : List ZWalkInfo
  allValid : Bool
  fringeStart : Nat

/-- The candidate at the position of an address in a way. -/
def candidate (parentIdx : Option Nat) (lineAddr : Address) (w : Nat) : ZWalkInfo :=
  ⟨A.position w lineAddr, state.lookupArray (A.position w lineAddr), parentIdx⟩

/-- The seeds: one candidate for each way of the new address. -/
def seeds : Walk :=
  let candidates := (List.range A.ways).map (A.candidate state none lineAddr)
  ⟨candidates, candidates.all (fun c => state.array c.lineId != 0), 0⟩

/-- One way of an expansion; a line is not a candidate of its own fringe. -/
def expandWay (fringeStart : Nat) (fringeId : LineId)
    (walk : List ZWalkInfo × Bool) (w : Nat) : List ZWalkInfo × Bool :=
  let cand := A.candidate state (some fringeStart) (state.array fringeId) w
  (if cand.lineId ≠ fringeId then walk.1 ++ [cand] else walk.1,
    walk.2 && state.array cand.lineId != 0)

/-- Expand the next line of the fringe. -/
def expandFringe (walk : Walk) : Except ZFailure Walk := do
  match walk.candidates[walk.fringeStart]? with
  | none => .error ZFailure.fringeOutOfRange
  | some fringe =>
    check (state.array fringe.lineId ≠ 0) ZFailure.fringeInvalid
    let (candidates, allValid) :=
      (List.range A.ways).foldl (A.expandWay state walk.fringeStart fringe.lineId)
        (walk.candidates, walk.allValid)
    pure ⟨candidates, allValid, walk.fringeStart + 1⟩

/-- The loop of the walk. -/
def walkLoop (state : A.State) : Nat → Walk → Except ZFailure Walk
  | 0, walk => pure walk
  | fuel + 1, walk =>
    if walk.candidates.length < A.cands ∧ walk.allValid = true then do
      let walk ← A.expandFringe state walk
      walkLoop state fuel walk
    else
      pure walk

/-- The positions from a candidate back to its seed. -/
def climb (candidates : List ZWalkInfo) : Nat → Option Nat → List Nat
  | 0, _ => []
  | _ + 1, none => []
  | fuel + 1, some idx =>
    match candidates[idx]? with
    | none => []
    | some info => info.pos :: climb candidates fuel info.parentIdx

def preinsert : Except ZFailure (LineId × Address × A.State) := do
  let walk ← A.walkLoop state A.cands (A.seeds state lineAddr)
  check (walk.allValid = false ∨ A.cands ≤ walk.candidates.length) ZFailure.walkTooShort
  let candidates := walk.candidates.take A.cands
  let (bestCandidate, policy) := A.rp.rankCands state.policy (candidates.map ZWalkInfo.lineId)
  check (bestCandidate < A.numLines) ZFailure.candidateOutOfRange
  let minIdx := candidates.findIdx? (fun c => bestCandidate == c.lineId)
  let swapArray := climb candidates candidates.length minIdx
  check (swapArray ≠ []) ZFailure.noSwaps
  pure (bestCandidate, state.array bestCandidate,
    { state with swapArray := swapArray, policy := policy })

/-! ## The swaps -/

/-- The loop of `postinsert` and the assignment after it. -/
def swap (candidate : LineId) : List Nat → (Nat → LineId) → (Nat → LineId)
  | [], lookupArray => lookupArray
  | [pos], lookupArray => update lookupArray pos candidate
  | pos :: next :: rest, lookupArray =>
    swap candidate (next :: rest) (update lookupArray pos (lookupArray next))

def postinsert (candidate : LineId) : Except ZFailure A.State := do
  check (state.swapArray.head?.map state.lookupArray = some candidate) ZFailure.wrongSwap
  pure
    { array := update state.array candidate lineAddr
      lookupArray := swap candidate state.swapArray state.lookupArray
      swapArray := state.swapArray
      policy := A.rp.update (A.rp.replaced state.policy candidate) candidate }

end ZArray

open Library List

namespace ZArray

variable {A : ZArray}

/-! ## Positions -/

theorem set_lt (w : Nat) (lineAddr : Address) :
    (A.hf w lineAddr &&& A.setMask).toNat < A.numSets := by
  have positive : 0 < A.numSets := Nat.two_pow_pos A.setBits
  have bound : (A.hf w lineAddr &&& A.setMask).toNat ≤ A.setMask.toNat := Nat.and_le_right
  have mask : A.setMask.toNat ≤ A.numSets - 1 := Nat.mod_le _ _
  omega

theorem position_lt {w : Nat} (isWay : w < A.ways) (lineAddr : Address) :
    A.position w lineAddr < A.numLines :=
  calc A.position w lineAddr
      < w * A.numSets + A.numSets := Nat.add_lt_add_left (set_lt w lineAddr) _
    _ = (w + 1) * A.numSets := (Nat.succ_mul _ _).symm
    _ ≤ A.numLines := Nat.mul_le_mul_right _ isWay

/-- Positions in different ways are different. -/
theorem position_injective {w other : Nat} {lineAddr : Address}
    (equal : A.position w lineAddr = A.position other lineAddr) :
    w = other := by
  have way (v) : A.position v lineAddr / A.numSets = v := by
    have positive : 0 < A.numSets := Nat.two_pow_pos A.setBits
    rw [position, mul_comm, Nat.mul_add_div positive,
      Nat.div_eq_of_lt (set_lt v lineAddr), add_zero]
  rw [← way w, equal, way other]

/-- A position where an address may be. -/
def IsPosition (A : ZArray) (pos : Nat) (lineAddr : Address) : Prop :=
  ∃ w < A.ways, pos = A.position w lineAddr

/-! ## The representation invariant -/

/--
Positions and lines correspond, a line is at a position of its address, and an
address is in one line.
-/
structure Wf (state : A.State) : Prop where
  mapsTo : ∀ {pos}, pos < A.numLines → state.lookupArray pos < A.numLines
  injective : ∀ {pos other}, pos < A.numLines → other < A.numLines →
    state.lookupArray pos = state.lookupArray other → pos = other
  placed : ∀ {pos}, pos < A.numLines → state.array (state.lookupArray pos) ≠ 0 →
      A.IsPosition pos (state.array (state.lookupArray pos))
  once : ∀ {lineId other}, lineId < A.numLines → other < A.numLines →
    state.array lineId ≠ 0 → state.array lineId = state.array other → lineId = other

theorem wf_initial (policy : A.rp.State) : Wf (A.initial policy) where
  mapsTo := fun mem => mem
  injective := fun _ _ equal => equal
  placed := fun _ ne0 => absurd rfl ne0
  once := fun _ _ ne0 => absurd rfl ne0

namespace Wf

variable {state : A.State} (wf : Wf state)

include wf

/-- Every line has a position. -/
theorem surjective {lineId : LineId} (mem : lineId < A.numLines) :
    ∃ pos < A.numLines, state.lookupArray pos = lineId := by
  have onto := Finset.surjOn_of_injOn_of_card_le (s := Finset.range A.numLines)
      (t := Finset.range A.numLines) state.lookupArray
      (by
        intro pos member
        simpa using wf.mapsTo (by simpa using member))
      (by
        intro pos member other memberOther equal
        exact wf.injective (by simpa using member) (by simpa using memberOther) equal)
      le_rfl
  obtain ⟨pos, member, equal⟩ := onto (by simpa using mem)
  exact ⟨pos, by simpa using member, equal⟩

/-- The scan of a lookup finds exactly the addresses that a line holds. -/
theorem scan_iff {lineAddr : Address} (ne0 : lineAddr ≠ 0) {lineId : LineId} :
    A.scan state lineAddr = some lineId ↔ lineId < A.numLines ∧ state.array lineId = lineAddr := by
  have sound : ∀ {found}, A.scan state lineAddr = some found →
      found < A.numLines ∧ state.array found = lineAddr := by
    intro found isFound
    have holds := find?_some isFound
    have member := mem_of_find?_eq_some isFound
    obtain ⟨w, isWay, rfl⟩ := mem_map.mp member
    exact ⟨wf.mapsTo (position_lt (mem_range.mp isWay) lineAddr), beq_iff_eq.mp holds⟩
  constructor
  · exact sound
  · rintro ⟨mem, holds⟩
    obtain ⟨pos, isPos, rfl⟩ := wf.surjective mem
    rcases wf.placed isPos (holds ▸ ne0) with ⟨w, isWay, isPosition⟩
    rw [holds] at isPosition
    cases isFound : A.scan state lineAddr with
    | none =>
      have absent := find?_eq_none.mp isFound
      exfalso
      exact absent (state.lookupArray pos) (mem_map.mpr
          ⟨w, mem_range.mpr isWay, by rw [isPosition]⟩)
        (beq_iff_eq.mpr holds)
    | some found =>
      obtain ⟨insideFound, holdsFound⟩ := sound isFound
      rw [wf.once insideFound mem (holdsFound ▸ ne0) (holdsFound.trans holds.symm)]

end Wf

/-! ## The invariant of the walk -/

section Walk

variable {state : A.State} {lineAddr : Address} {walk : Walk}

/-- What holds of the candidates at every point of the walk. -/
structure WalkOk (state : A.State) (lineAddr : Address) (walk : Walk) : Prop where
  line : ∀ {i : Nat} {c : ZWalkInfo}, walk.candidates[i]? = some c →
    c.pos < A.numLines ∧ c.lineId = state.lookupArray c.pos
  valid : walk.allValid = true → ∀ c ∈ walk.candidates, state.array c.lineId ≠ 0
  root : ∀ {i : Nat} {c : ZWalkInfo}, walk.candidates[i]? = some c →
    c.parentIdx = none → A.IsPosition c.pos lineAddr
  child : ∀ {i p : Nat} {c : ZWalkInfo}, walk.candidates[i]? = some c → c.parentIdx = some p →
      p < i ∧ p < walk.fringeStart ∧ ∃ fringe : ZWalkInfo,
        walk.candidates[p]? = some fringe ∧ c.lineId ≠ fringe.lineId ∧ ∃ w < A.ways,
            c = A.candidate state (some p) (state.array fringe.lineId) w
  expanded : ∀ {p w : Nat} {fringe : ZWalkInfo}, p < walk.fringeStart →
    walk.candidates[p]? = some fringe → w < A.ways →
      (A.candidate state (some p) (state.array fringe.lineId) w).lineId ≠ fringe.lineId →
        ∃ i : Nat, walk.candidates[i]? =
          some (A.candidate state (some p) (state.array fringe.lineId) w)
  order : ∀ {i j p q : Nat} {c d : ZWalkInfo},
    walk.candidates[i]? = some c → walk.candidates[j]? = some d →
      c.parentIdx = some p → d.parentIdx = some q → p < q → i < j
  ahead : walk.fringeStart + 2 ≤ walk.candidates.length

/-- The candidates that the expansion of a line adds. -/
def expansion (state : A.State) (fringeStart : Nat) (fringeId : LineId)
    (ways : List Nat) : List ZWalkInfo :=
  (ways.map (A.candidate state (some fringeStart) (state.array fringeId))).filter
      (fun c => c.lineId ≠ fringeId)

theorem foldl_expandWay (fringeStart : Nat) (fringeId : LineId)
    (ways : List Nat) (cands : List ZWalkInfo) (allValid : Bool) :
    ways.foldl (A.expandWay state fringeStart fringeId) (cands, allValid) =
      (cands ++ expansion state fringeStart fringeId ways,
        allValid && (ways.map (A.candidate state (some fringeStart) (state.array fringeId))).all
              (fun c => state.array c.lineId != 0)) := by
  induction ways generalizing cands allValid with
  | nil => simp [expansion]
  | cons w ways ih =>
    rw [foldl_cons, expandWay, ih]
    by_cases isSelf : (A.candidate state (some fringeStart) (state.array fringeId)
          w).lineId = fringeId
    · simp [expansion, isSelf, Bool.and_assoc]
    · simp [expansion, isSelf, Bool.and_assoc]

variable {c : ZWalkInfo} {i : Nat}

theorem mem_expansion {fringeStart : Nat} {fringeId : LineId} :
    c ∈ expansion state fringeStart fringeId (List.range A.ways) ↔
      c.lineId ≠ fringeId ∧ ∃ w < A.ways,
        c = A.candidate state (some fringeStart) (state.array fringeId)
          w := by
  simp only [expansion, mem_filter, mem_map, mem_range, decide_eq_true_eq]
  constructor
  · rintro ⟨⟨w, isWay, rfl⟩, different⟩
    exact ⟨different, w, isWay, rfl⟩
  · rintro ⟨different, w, isWay, rfl⟩
    exact ⟨⟨w, isWay, rfl⟩, different⟩

/-- Two positions of one address hold different lines, so one is new. -/
theorem Wf.expansion_ne_nil (wf : Wf state) (fringeStart : Nat) (fringeId : LineId) :
    expansion state fringeStart fringeId (List.range A.ways) ≠ [] := by
  have isFirst : 0 < A.ways := by
    have := A.two_le_ways
    omega
  have isSecond : 1 < A.ways := A.two_le_ways
  intro empty
  have same (w) (isWay : w < A.ways) :
      state.lookupArray (A.position w (state.array fringeId)) = fringeId := by
    by_contra different
    have member : A.candidate state (some fringeStart) (state.array fringeId) w ∈
          expansion state fringeStart fringeId (range A.ways) :=
      mem_expansion.mpr ⟨different, w, isWay, rfl⟩
    rw [empty] at member
    cases member
  have equal := wf.injective (position_lt isFirst (state.array fringeId))
    (position_lt isSecond (state.array fringeId)) ((same 0 isFirst).trans (same 1 isSecond).symm)
  exact absurd (position_injective equal) (by decide)

theorem walkOk_seeds (state : A.State) (lineAddr : Address) :
    WalkOk state lineAddr (A.seeds state lineAddr) := by
  have entry : ∀ {i : Nat} {c : ZWalkInfo}, (A.seeds state lineAddr).candidates[i]? = some c →
        ∃ w < A.ways, c = A.candidate state none lineAddr w := by
    intro i c isEntry
    obtain ⟨w, isWay, rfl⟩ := mem_map.mp (mem_of_getElem? isEntry)
    exact ⟨w, mem_range.mp isWay, rfl⟩
  exact {
    line := by
      intro i c isEntry
      obtain ⟨w, isWay, rfl⟩ := entry isEntry
      exact ⟨position_lt isWay lineAddr, rfl⟩
    valid := by
      intro allValid c mem
      simpa using all_eq_true.mp allValid c mem
    root := by
      intro i c isEntry _
      obtain ⟨w, isWay, rfl⟩ := entry isEntry
      exact ⟨w, isWay, rfl⟩
    child := by
      intro i c p isEntry isParent
      obtain ⟨w, _, rfl⟩ := entry isEntry
      cases isParent
    expanded := fun before => absurd before (Nat.not_lt_zero _)
    order := by
      intro i j c d p q isEntry _ isParent
      obtain ⟨w, _, rfl⟩ := entry isEntry
      cases isParent
    ahead := by simpa [seeds] using A.two_le_ways }

/-- An entry of a list of candidates and further ones. -/
theorem getElem?_append_cases {cands block : List ZWalkInfo}
    (isEntry : (cands ++ block)[i]? = some c) :
    (i < cands.length ∧ cands[i]? = some c) ∨ (cands.length ≤ i ∧ c ∈ block) := by
  by_cases mem : i < cands.length
  · rw [getElem?_append_left mem] at isEntry
    exact .inl ⟨mem, isEntry⟩
  · rw [getElem?_append_right (Nat.le_of_not_lt mem)] at isEntry
    exact .inr ⟨Nat.le_of_not_lt mem, mem_of_getElem? isEntry⟩

theorem getElem?_append_of_some {cands : List ZWalkInfo}
    (isEntry : cands[i]? = some c) (block : List ZWalkInfo) :
    (cands ++ block)[i]? = some c := by
  have inside := (List.getElem?_eq_some_iff.mp isEntry).1
  rwa [List.getElem?_append_left inside]

/-- An expansion keeps the invariant and adds a candidate. -/
theorem WalkOk.expand (ok : WalkOk state lineAddr walk) (wf : Wf state) {fringe : ZWalkInfo}
    (isFringe : walk.candidates[walk.fringeStart]? = some fringe) {allValid : Bool}
    (valid : allValid = true → ∀ c ∈ walk.candidates ++
        expansion state walk.fringeStart fringe.lineId (List.range A.ways),
      state.array c.lineId ≠ 0) :
    WalkOk state lineAddr
      ⟨walk.candidates ++ expansion state walk.fringeStart fringe.lineId (List.range A.ways),
        allValid, walk.fringeStart + 1⟩ := by
  have mem : walk.fringeStart < walk.candidates.length := (List.getElem?_eq_some_iff.mp isFringe).1
  have added : ∀ {c : ZWalkInfo},
      c ∈ expansion state walk.fringeStart fringe.lineId (range A.ways) →
        c.parentIdx = some walk.fringeStart := by
    intro c member
    obtain ⟨w, _, rfl⟩ := (mem_expansion.mp member).2
    rfl
  exact {
    line := by
      intro i c isEntry
      rcases getElem?_append_cases isEntry with ⟨_, old⟩ | ⟨_, new⟩
      · exact ok.line old
      · obtain ⟨w, isWay, rfl⟩ := (mem_expansion.mp new).2
        exact ⟨position_lt isWay _, rfl⟩
    valid := valid
    root := by
      intro i c isEntry isRoot
      rcases getElem?_append_cases isEntry with ⟨_, old⟩ | ⟨_, new⟩
      · exact ok.root old isRoot
      · rw [added new] at isRoot
        cases isRoot
    child := by
      intro i p c isEntry isParent
      rcases getElem?_append_cases isEntry with ⟨_, old⟩ | ⟨later, new⟩
      · obtain ⟨before, isExpanded, parent, isEntryParent, different, isChild⟩ :=
          ok.child old isParent
        exact ⟨before, Nat.lt_succ_of_lt isExpanded, parent,
          getElem?_append_of_some isEntryParent _, different, isChild⟩
      · rw [added new] at isParent
        cases isParent
        obtain ⟨different, isChild⟩ := mem_expansion.mp new
        exact ⟨mem.trans_le later, Nat.lt_succ_self _, fringe,
          getElem?_append_of_some isFringe _, different, isChild⟩
    expanded := by
      intro p w parent isExpanded isEntryParent isWay different
      have insideParent : p < walk.candidates.length := (Nat.le_of_lt_succ isExpanded).trans_lt mem
      rw [getElem?_append_left insideParent] at isEntryParent
      rcases Nat.lt_succ_iff_lt_or_eq.mp isExpanded with before | rfl
      · obtain ⟨i, isEntry⟩ := ok.expanded before isEntryParent isWay different
        exact ⟨i, getElem?_append_of_some isEntry _⟩
      · rw [isFringe] at isEntryParent
        cases isEntryParent
        have member := mem_expansion.mpr ⟨different, w, isWay, rfl⟩
        exact getElem?_of_mem (mem_append_right _ member)
    order := by
      intro i j p q c d isEntry isOther isParent isParentOther before
      rcases getElem?_append_cases isEntry with
        ⟨earlier, old⟩ | ⟨later, new⟩ <;>
      rcases getElem?_append_cases isOther with
        ⟨earlierOther, oldOther⟩ | ⟨laterOther, newOther⟩
      · exact ok.order old oldOther isParent isParentOther before
      · exact earlier.trans_le laterOther
      · rw [added new] at isParent
        cases isParent
        exact absurd (ok.child oldOther isParentOther).2.1 (Nat.not_lt_of_lt before)
      · rw [added new] at isParent
        rw [added newOther] at isParentOther
        cases isParent
        cases isParentOther
        exact absurd before (lt_irrefl _)
    ahead := by
      have grows := length_pos_iff.mpr (wf.expansion_ne_nil walk.fringeStart fringe.lineId)
      have := ok.ahead
      simp only [length_append]
      omega }

theorem expandFringe_spec (ok : WalkOk state lineAddr walk) (wf : Wf state)
    (allValid : walk.allValid = true) :
    Gives (A.expandFringe state walk) (fun next => WalkOk state lineAddr next ∧
        next.fringeStart = walk.fringeStart + 1) := by
  have inside : walk.fringeStart < walk.candidates.length := by
    have := ok.ahead
    omega
  cases isFringe : walk.candidates[walk.fringeStart]? with
  | none =>
    rw [getElem?_eq_none_iff] at isFringe
    omega
  | some fringe =>
    have nonzero : state.array fringe.lineId ≠ 0 :=
      ok.valid allValid fringe (mem_of_getElem? isFringe)
    unfold expandFringe
    simp only [isFringe]
    refine .check nonzero ?_
    rw [foldl_expandWay]
    refine .pure ⟨ok.expand wf isFringe ?_, rfl⟩
    intro stillValid c mem
    rcases mem_append.mp mem with old | new
    · exact ok.valid allValid c old
    · have isNew := mem_of_mem_filter new
      rw [Bool.and_eq_true, all_eq_true] at stillValid
      simpa using stillValid.2 c isNew

/-- Every expansion adds a candidate, so the walk ends by itself. -/
theorem walkLoop_spec (wf : Wf state) {fuel : Nat} (ok : WalkOk state lineAddr walk)
    (enough : A.cands ≤ walk.fringeStart + fuel) :
    Gives (A.walkLoop state fuel walk) (fun final => WalkOk state lineAddr final ∧
        (final.allValid = false ∨ A.cands ≤ final.candidates.length)) := by
  induction fuel generalizing walk with
  | zero =>
    have := ok.ahead
    exact .pure ⟨ok, .inr (by omega)⟩
  | succ fuel ih =>
    unfold walkLoop
    split
    next goesOn =>
      apply (expandFringe_spec ok wf goesOn.2).bind
      rintro next ⟨okNext, isNext⟩
      exact ih okNext (by omega)
    next stops =>
      refine .pure ⟨ok, ?_⟩
      rw [not_and_or] at stops
      rcases stops with long | invalid
      · exact .inr (Nat.le_of_not_lt long)
      · exact .inl (eq_false_of_ne_true invalid)

/-! ## Paths of the walk -/

variable (ok : WalkOk state lineAddr walk)

/-- The candidates of a walk as a search forest over lines. -/
def WalkOk.forest : SearchForest (Option LineId) where
  size := walk.candidates.length
  label := fun i => walk.candidates[i]?.map ZWalkInfo.lineId
  parent := fun i => walk.candidates[i]?.bind ZWalkInfo.parentIdx
  parent_lt := by
    intro i p isParent
    obtain ⟨c, isEntry, isIdx⟩ := Option.bind_eq_some_iff.mp isParent
    exact (ok.child isEntry isIdx).1
  twin := by
    intro i p q _ isParent before sameLine
    obtain ⟨c, isEntry, isIdx⟩ := Option.bind_eq_some_iff.mp isParent
    obtain ⟨_, isExpanded, fringe, isFringe, different, w, isWay, isChild⟩ := ok.child isEntry isIdx
    simp only [isFringe, Option.map_some] at sameLine
    obtain ⟨other, isOther, sameLine⟩ := Option.map_eq_some_iff.mp sameLine
    -- the earlier node with the line of the parent has the same children
    have twinLine : (A.candidate state (some q) (state.array other.lineId) w).lineId =
          c.lineId := by
      rw [sameLine, isChild]
      rfl
    rcases ok.expanded (before.trans isExpanded) isOther isWay
        (by rw [twinLine, sameLine]; exact different) with
      ⟨j, isTwin⟩
    refine ⟨j, ok.order isTwin isEntry rfl isIdx before, ?_⟩
    simp only [isTwin, isEntry, Option.map_some, twinLine]

/--
Positions whose lines can move one step each, so that the last position is free
for the new line.
-/
def Movable (A : ZArray) (tag : Nat → Address) (lineAddr : Address) : List Nat → Prop
  | [] => False
  | [pos] => A.IsPosition pos lineAddr
  | pos :: next :: rest =>
    A.IsPosition pos (tag next) ∧ Movable A tag lineAddr (next :: rest)

/-- What a replacement has prepared for the insertion of an address. -/
structure Armed (state : A.State) (lineAddr : Address) (candidate : LineId) : Prop where
  nodup : state.swapArray.Nodup
  inside : ∀ pos ∈ state.swapArray, pos < A.numLines
  movable : A.Movable (fun pos => state.array (state.lookupArray pos)) lineAddr state.swapArray
  head : state.swapArray.head?.map state.lookupArray = some candidate

/-- What climbing from a candidate to its seed collects. -/
structure Climbed (i : Nat) (c : ZWalkInfo) (path : List Nat) : Prop where
  head : ∃ rest, path = c.pos :: rest
  inside : ∀ pos ∈ path, pos < A.numLines
  movable : A.Movable (fun pos => state.array (state.lookupArray pos)) lineAddr path
  labels : path.map (fun pos => some (state.lookupArray pos)) =
    (ok.forest.path i).map ok.forest.label

theorem climb_spec {k fuel : Nat} (isEntry : walk.candidates[i]? = some c)
    (kept : i < k) (enough : i < fuel) :
    Climbed ok i c (climb (walk.candidates.take k) fuel (some i)) := by
  induction fuel generalizing i c with
  | zero => exact absurd enough (Nat.not_lt_zero i)
  | succ fuel ih =>
    have isKept : (walk.candidates.take k)[i]? = some c := by
      rwa [getElem?_take_of_lt kept]
    have line := ok.line isEntry
    have label : ok.forest.label i = some (state.lookupArray c.pos) := by
      rw [← line.2]
      simp [WalkOk.forest, isEntry]
    have parent : ok.forest.parent i = c.parentIdx := by simp [WalkOk.forest, isEntry]
    simp only [climb, isKept]
    cases isIdx : c.parentIdx with
    | none =>
      have rest : climb (walk.candidates.take k) fuel none = [] := by
        cases fuel <;> rfl
      rw [isIdx] at parent
      rw [rest]
      exact {
        head := ⟨[], rfl⟩
        inside := forall_mem_singleton.mpr line.1
        movable := ok.root isEntry isIdx
        labels := by
          rw [ok.forest.path_root parent]
          simp [label] }
    | some p =>
      obtain ⟨before, _, fringe, isFringe, _, w, isWay, isChild⟩ := ok.child isEntry isIdx
      have above := ih isFringe (before.trans kept) (before.trans_le (Nat.le_of_lt_succ enough))
      rw [isIdx] at parent
      obtain ⟨rest, isPath⟩ := above.head
      exact {
        head := ⟨_, rfl⟩
        inside := forall_mem_cons.mpr ⟨line.1, above.inside⟩
        movable := by
          have movable := above.movable
          rw [isPath] at movable ⊢
          refine ⟨⟨w, isWay, ?_⟩, movable⟩
          rw [isChild, (ok.line isFringe).2]
          rfl
        labels := by
          rw [ok.forest.path_child parent, map_cons, map_cons, above.labels, label] }

/-- The first candidate with the chosen line. -/
theorem WalkOk.first_candidate {k : Nat} {best : LineId}
    (offered : best ∈ (walk.candidates.take k).map ZWalkInfo.lineId) :
    ∃ i c, (walk.candidates.take k).findIdx? (fun c => best == c.lineId) = some i ∧
      i < (walk.candidates.take k).length ∧
      walk.candidates[i]? = some c ∧ c.lineId = best ∧
      ok.forest.IsFirst i := by
  obtain ⟨chosen, member, isChosen⟩ := mem_map.mp offered
  have isSome : ((walk.candidates.take k).findIdx? (fun c => best == c.lineId)).isSome = true := by
    rw [findIdx?_isSome, any_eq_true]
    exact ⟨chosen, member, by simp [isChosen]⟩
  obtain ⟨i, isFound⟩ := Option.isSome_iff_exists.mp isSome
  obtain ⟨mem, holds, earlier⟩ := findIdx?_eq_some_iff_getElem.mp isFound
  have entry : ∀ j (isEntry : j < (walk.candidates.take k).length),
      walk.candidates[j]? = some ((walk.candidates.take k).get ⟨j, isEntry⟩) := by
    intro j isEntry
    have bound : j < k := by
      rw [length_take] at isEntry
      omega
    rw [← getElem?_take_of_lt bound]
    exact getElem?_eq_getElem isEntry
  refine ⟨i, (walk.candidates.take k).get ⟨i, mem⟩, isFound, mem,
    entry i mem, (beq_iff_eq.mp holds).symm, ?_⟩
  intro j before sameLabel
  have insideOther := before.trans mem
  have notChosen := earlier j before
  simp only [WalkOk.forest, entry j insideOther, entry i mem,
    Option.map_some, Option.some.injEq] at sameLabel
  apply notChosen
  rw [beq_iff_eq]
  exact (beq_iff_eq.mp holds).trans sameLabel.symm

theorem preinsert_spec (wf : Wf state) (lineAddr : Address) :
    Gives (A.preinsert state lineAddr) (fun res =>
        res.1 < A.numLines ∧
        res.2.1 = state.array res.1 ∧
        res.2.2.array = state.array ∧
        res.2.2.lookupArray = state.lookupArray ∧
        Armed res.2.2 lineAddr res.1) := by
  apply (walkLoop_spec wf (walkOk_seeds state lineAddr) (Nat.le_add_left _ _)).bind
  rintro walk ⟨ok, long⟩
  refine .check long ?_
  have nonempty : (walk.candidates.take A.cands).map ZWalkInfo.lineId ≠ [] := by
    have := ok.ahead
    have := A.two_le_ways
    have := A.ways_le_cands
    rw [← length_pos_iff, length_map, length_take]
    omega
  have offered := A.rp.rankCands_mem state.policy _ nonempty
  obtain ⟨i, c, isFound, mem, isEntry, isBest, isFirst⟩ := ok.first_candidate offered
  have kept : i < A.cands := by
    rw [length_take] at mem
    omega
  have line := ok.line isEntry
  have climbed := climb_spec ok isEntry kept mem
  have bounded :
      (A.rp.rankCands state.policy ((walk.candidates.take A.cands).map ZWalkInfo.lineId)).1 <
        A.numLines := by
    rw [← isBest, line.2]
    exact wf.mapsTo line.1
  obtain ⟨rest, isPath⟩ := climbed.head
  have nodup := isFirst.nodup_path (List.getElem?_eq_some_iff.mp isEntry).1
  rw [← climbed.labels] at nodup
  refine .check bounded ?_
  simp only [isFound]
  refine .check (by rw [isPath]; simp) ?_
  exact .pure ⟨bounded, rfl, rfl, rfl,
    { nodup := nodup.of_map
      inside := climbed.inside
      movable := climbed.movable
      head := by
        simp only [isPath, head?_cons, Option.map_some]
        rw [← isBest, line.2] }⟩

end Walk

end ZArray

end Damov.Arrays
