import Damov.Coherence.MemoryHierarchy
import Mathlib.Algebra.Group.Nat.Defs

/-!
# Set-associative arrays

`SetAssocArray` of `cache_arrays.h`: the hash of an address names a set, the
lines of a set are consecutive, a lookup scans them and a replacement policy
ranks them. The policy is arbitrary; it only has to return one of the
candidates it was offered. It is consulted with a state of its own, so its
choices may depend on anything that happened before.
-/

namespace Damov.Arrays

open Coherence Function List

/-- `ReplPolicy`: ranks candidates and is told about uses and replacements. -/
structure ReplPolicy where
  State : Type
  update : State → LineId → State
  replaced : State → LineId → State
  rankCands : State → List LineId → LineId × State
  rankCands_mem : ∀ state cands, cands ≠ [] → (rankCands state cands).1 ∈ cands

/-- `HashFamily`: one hash function per index. -/
abbrev HashFamily := Nat → Address → BitVec 64

/-- `IdHashFamily`. -/
def IdHashFamily : HashFamily := fun _ lineAddr => lineAddr

/-- The parameters of a set-associative array; there are `2 ^ setBits` sets. -/
structure SetAssocArray where
  rp : ReplPolicy
  hf : HashFamily
  setBits : Nat
  assoc : Nat
  assoc_pos : 0 < assoc

namespace SetAssocArray

variable (A : SetAssocArray)

/-- The tags and the state of the replacement policy. -/
structure State where
  array : LineId → Address
  policy : A.rp.State

def numSets : Nat := 2 ^ A.setBits

def setMask : BitVec 64 := BitVec.ofNat 64 (A.numSets - 1)

/-- The set of an address. -/
def set (lineAddr : Address) : Nat := (A.hf 0 lineAddr &&& A.setMask).toNat

/-- The line ids of the set of an address. -/
def ways (lineAddr : Address) : List LineId := List.range' (A.set lineAddr * A.assoc) A.assoc

/-- The scan of `lookup`. -/
def scan (array : LineId → Address) (lineAddr : Address) : Option LineId :=
  (A.ways lineAddr).find? (fun id => array id == lineAddr)

variable (state : A.State)

def lookup (lineAddr : Address) (updateReplacement : Bool) : Option LineId × A.State :=
  match A.scan state.array lineAddr with
  | some id =>
    (some id, if updateReplacement then
        { state with policy := A.rp.update state.policy id }
      else
        state)
  | none => (none, state)

def preinsert (lineAddr : Address) : LineId × Address × A.State :=
  let (candidate, policy) := A.rp.rankCands state.policy (A.ways lineAddr)
  (candidate, state.array candidate, { state with policy := policy })

def postinsert (lineAddr : Address) (candidate : LineId) : A.State where
  array := update state.array candidate lineAddr
  policy := A.rp.update (A.rp.replaced state.policy candidate) candidate

/-! ## Sets -/

section Sets

variable {A} {lineAddr other : Address} {lineId : LineId} {array : LineId → Address}

theorem mem_ways : lineId ∈ A.ways lineAddr ↔ A.set lineAddr * A.assoc ≤ lineId ∧
        lineId < A.set lineAddr * A.assoc + A.assoc := by
  rw [ways, mem_range'_1]

theorem ways_ne_nil (lineAddr : Address) : A.ways lineAddr ≠ [] := by
  intro empty
  have length := congrArg length empty
  rw [ways, length_range'] at length
  exact absurd length A.assoc_pos.ne'

/-- A line belongs to one set. -/
theorem set_eq_of_mem_ways (mem : lineId ∈ A.ways lineAddr) (memberOther : lineId ∈ A.ways other) :
    A.set lineAddr = A.set other := by
  rw [mem_ways] at mem memberOther
  have quotient : ∀ addr, A.set addr * A.assoc ≤ lineId → lineId < A.set addr * A.assoc + A.assoc →
      lineId / A.assoc = A.set addr := by
    intro addr lower upper
    apply Nat.div_eq_of_lt_le
    · exact lower
    · rwa [Nat.succ_mul]
  rw [← quotient lineAddr mem.1 mem.2, quotient other memberOther.1 memberOther.2]

theorem mem_ways_of_scan (found : A.scan array lineAddr = some lineId) : lineId ∈ A.ways lineAddr :=
  mem_of_find?_eq_some found

theorem array_of_scan (found : A.scan array lineAddr = some lineId) : array lineId = lineAddr := by
  have holds := find?_some found
  exact beq_iff_eq.mp holds

theorem scan_update_self (missing : A.scan array lineAddr = none) (mem : lineId ∈ A.ways lineAddr) :
    A.scan (update array lineId lineAddr) lineAddr = some lineId := by
  have absent (id) (isWay : id ∈ A.ways lineAddr) : array id ≠ lineAddr := by
    have notFound := find?_eq_none.mp missing id isWay
    simpa using notFound
  cases found : A.scan (update array lineId lineAddr) lineAddr with
  | none =>
    have notFound := find?_eq_none.mp found lineId mem
    simp at notFound
  | some id =>
    have holds := array_of_scan found
    by_cases isSelf : id = lineId
    · rw [isSelf]
    · rw [update_of_ne isSelf] at holds
      exact absurd holds (absent id (mem_ways_of_scan found))

/-- Another line that a scan finds is found after an insertion. -/
theorem scan_update_of_ne {kept : LineId} (missing : A.scan array lineAddr = none)
    (ne : kept ≠ lineId) (found : A.scan array other = some kept) :
    A.scan (update array lineId lineAddr) other = some kept := by
  have isOther : lineAddr ≠ other := by
    rintro rfl
    rw [missing] at found
    cases found
  obtain ⟨holds, before, after, isSplit, earlier⟩ := find?_eq_some_iff_append.mp found
  apply find?_eq_some_iff_append.mpr
  refine ⟨by rwa [update_of_ne ne], before, after, isSplit, ?_⟩
  intro id mem
  by_cases isSelf : id = lineId
  · rw [isSelf]
    simpa using isOther
  · rw [update_of_ne isSelf]
    exact earlier id mem

end Sets

/-! ## The interface of an array -/

variable (lineAddr : Address)

theorem lookup_fst (update : Bool) :
    (A.lookup state lineAddr update).1 = A.scan state.array lineAddr := by
  rw [lookup]
  cases A.scan state.array lineAddr <;> rfl

theorem lookup_array (update : Bool) : (A.lookup state lineAddr update).2.array = state.array := by
  rw [lookup]
  cases A.scan state.array lineAddr with
  | none => rfl
  | some id => cases update <;> rfl

theorem preinsert_mem : (A.preinsert state lineAddr).1 ∈ A.ways lineAddr :=
  A.rp.rankCands_mem state.policy _ (ways_ne_nil lineAddr)

/-- A set-associative array is a cache array, without any invariant. -/
def toCacheArray : CacheArray where
  State := A.State
  Wf := fun _ => True
  Armed := fun _ lineAddr lineId => lineId ∈ A.ways lineAddr
  accepts := fun _ => True
  tag := State.array
  lookup := A.lookup
  preinsert := A.preinsert
  postinsert := A.postinsert
  lookup_result := by
    intro state lineAddr update _
    rw [lookup_fst, lookup_fst]
  lookup_keeps := by
    intro state lineAddr update other _
    rw [lookup_fst, lookup_fst, lookup_array]
  lookup_tag := fun lineAddr update _ => A.lookup_array _ lineAddr update
  lookup_wf := fun _ _ _ => trivial
  tag_of_lookup := by
    intro state lineAddr lineId _ found
    rw [lookup_fst] at found
    exact array_of_scan found
  preinsert_victim := fun _ _ _ => rfl
  preinsert_keeps := by
    intro state lineAddr other _ _ _
    rw [lookup_fst, lookup_fst]
    rfl
  preinsert_tag := fun _ _ _ => rfl
  preinsert_wf := fun _ _ _ => trivial
  preinsert_armed := fun _ _ _ => A.preinsert_mem _ _
  postinsert_wf := fun _ _ _ _ => trivial
  postinsert_lookup := by
    intro state lineAddr lineId _ _ missing armed
    rw [lookup_fst] at missing ⊢
    exact scan_update_self missing armed
  postinsert_keeps := by
    intro state lineAddr lineId other kept _ _ missing _ different found
    rw [lookup_fst] at missing found ⊢
    exact scan_update_of_ne missing different found
  postinsert_tag := by
    intro state lineAddr lineId other _ _ _ _ different
    exact update_of_ne different _ _

end SetAssocArray

end Damov.Arrays
