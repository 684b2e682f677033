import Damov.Arrays.InList
import Damov.Coherence.MemoryHierarchy
import Damov.Library.Recency

/-!
# Fully associative LRU

`IdealLRUArray` of `ideal_arrays.h` keeps its lines in a list, the most recently
used one in front, and finds the line of an address in a map. A line that was
never used has the address 0.

In terms of the accesses, the array holds the addresses that were used most
recently, as many as there are lines.
-/

namespace Damov.Arrays

open Coherence (Address)
open Library
open Library.Checked
open Function
open List

inductive IdealFailure where
  | list (failure : ListFailure)
  | noLine
  | duplicate
  deriving DecidableEq

structure IdealLRUArray (numLines : Nat) where
  array : Fin numLines → Address
  lruList : InLists (Fin numLines) Unit
  lineMap : Address → Option (Fin numLines)

namespace IdealLRUArray

variable {numLines : Nat}

/-- The outcome of an operation. -/
abbrev Result (numLines : Nat) := Except IdealFailure (IdealLRUArray numLines)

/-- The lines are put into the list one after the other. -/
def construct (numLines : Nat) : Result numLines := do
  let lruList ← within IdealFailure.list
    ((List.finRange numLines).foldlM (fun lists e => lists.pushFront () e) InLists.initial)
  return ⟨fun _ => 0, lruList, fun _ => none⟩

section

variable (state : IdealLRUArray numLines) (lineAddr : Address)

def lookup (updateReplacement : Bool) :
    Except IdealFailure (Option (Fin numLines) × IdealLRUArray numLines) :=
  match state.lineMap lineAddr with
  | none => .ok (none, state)
  | some lineId =>
    if updateReplacement then do
      let lruList ← within IdealFailure.list (state.lruList.moveToFront () lineId)
      return (some lineId, { state with lruList })
    else .ok (some lineId, state)

/-- The victim and the address that is written back. -/
def preinsert : Except IdealFailure (Fin numLines × Address) :=
  match state.lruList.back () with
  | none => .error .noLine
  | some e => .ok (e, state.array e)

def postinsert (lineId : Fin numLines) : Result numLines := do
  let erased := update state.lineMap (state.array lineId) none
  check (erased lineAddr = none) .duplicate
  let lruList ← within IdealFailure.list (state.lruList.moveToFront () lineId)
  return {
    array := update state.array lineId lineAddr
    lruList
    lineMap := update erased lineAddr (some lineId) }

/-- Makes room for an address and puts it there. -/
def insert : Result numLines := do
  let victim ← state.preinsert
  state.postinsert lineAddr victim.1

/-- An access of a cache: a lookup, and an insertion if it misses. -/
def access : Result numLines := do
  let found ← state.lookup lineAddr true
  if found.1.isSome then return found.2 else found.2.insert lineAddr

def run (numLines : Nat) (accesses : List Address) : Result numLines := do
  let state ← construct numLines
  accesses.foldlM access state

/-! ## The lines of an array -/

/-- The addresses that an array of `numLines` lines has, and 0 for the lines
that were not used. -/
def resident (numLines : Nat) (recent : List Address) : List Address :=
  (recent ++ List.replicate numLines 0).take numLines

/-- The array holds the most recent addresses, in the order of the list. -/
structure Caches (lines : List (Fin numLines)) (recent : List Address) : Prop where
  holds : state.lruList.Holds fun _ => lines
  all : ∀ id, id ∈ lines
  addresses : lines.map state.array = resident numLines recent
  mapped : ∀ addr id, state.lineMap addr = some id ↔ addr ≠ 0 ∧ state.array id = addr

end

/-- The list with the lines that were put into it so far. -/
theorem pushFront_next {visited rest : List (Fin numLines)}
    {elem : Fin numLines} {lists : InLists (Fin numLines) Unit}
    (parts : visited ++ elem :: rest = List.finRange numLines)
    (holds : lists.Holds fun _ => visited.reverse) :
    Gives (lists.pushFront () elem) fun after =>
      (visited ++ [elem]) ++ rest = List.finRange numLines ∧
      after.Holds fun _ => (visited ++ [elem]).reverse := by
  have nodup := nodup_finRange numLines
  rw [← parts] at nodup
  have absent : elem ∉ visited := fun mem =>
    (nodup_append.mp nodup).2.2 elem mem elem mem_cons_self rfl
  have isFree : lists.owner elem = none := by
    cases owner : lists.owner elem with
    | none => rfl
    | some l =>
      have mem := ((holds.contains l).owned elem).mp owner
      exact absurd (mem_reverse.mp mem) absent
  apply (holds.pushFront isFree).mono
  intro after pushed
  rw [reverse_append, append_assoc]
  exact ⟨parts, pushed⟩

theorem construct_caches (numLines : Nat) : Gives (construct numLines) fun state =>
      Caches state (List.finRange numLines).reverse [] := by
  have filled : Gives ((finRange numLines).foldlM (fun lists e => lists.pushFront () e)
        (InLists.initial : InLists (Fin numLines) Unit))
      fun lists => lists.Holds fun _ => (finRange numLines).reverse := by
    refine .mono (Gives.foldlM (fun visited rest lists =>
        visited ++ rest = finRange numLines ∧
        lists.Holds fun _ => visited.reverse) ?_ _ _
      ⟨rfl, InLists.holds_initial⟩) fun _ holds => holds.2
    rintro visited elem rest lists ⟨parts, holds⟩
    exact pushFront_next parts holds
  apply filled.within.bind
  intro lists holds
  exact .pure {
    holds
    all := fun id => mem_reverse.mpr (mem_finRange id)
    addresses := by
      rw [resident]
      simp
    mapped := by
      rintro addr id
      constructor
      · rintro ⟨⟩
      · rintro ⟨notZero, isZero⟩
        exact absurd isZero.symm notZero }

variable {state : IdealLRUArray numLines} {lines : List (Fin numLines)}
variable {recent : List Address} {addr : Address}

/-! ## Hits and misses -/

/-- The addresses other than 0 in the array are the most recent ones. -/
theorem mem_resident (ne0 : ∀ addr ∈ recent, addr ≠ 0) : addr ∈ recent.take numLines ↔
      addr ≠ 0 ∧ addr ∈ resident numLines recent := by
  rw [resident, take_append, mem_append]
  constructor
  · intro mem
    exact ⟨ne0 addr (mem_of_mem_take mem), .inl mem⟩
  · rintro ⟨notZero, mem | padding⟩
    · exact mem
    · exact absurd (eq_of_mem_replicate (mem_of_mem_take padding)) notZero

theorem Caches.lookup_iff (caches : Caches state lines recent)
    (ne0 : ∀ addr ∈ recent, addr ≠ 0) (addr : Address) :
    (state.lineMap addr).isSome ↔ addr ∈ recent.take numLines := by
  rw [mem_resident ne0, ← caches.addresses, mem_map, Option.isSome_iff_exists]
  constructor
  · rintro ⟨id, found⟩
    obtain ⟨notZero, value⟩ := (caches.mapped addr id).mp found
    exact ⟨notZero, id, caches.all id, value⟩
  · rintro ⟨notZero, id, -, value⟩
    exact ⟨id, (caches.mapped addr id).mpr ⟨notZero, value⟩⟩

/-- Removing the only element with a value. -/
theorem map_erase_of_unique {α β : Type} [DecidableEq α] [DecidableEq β]
    {f : α → β} {list : List α} {element : α}
    (unique : ∀ other ∈ list, f other = f element → other = element) :
    (list.erase element).map f = (list.map f).erase (f element) := by
  induction list with
  | nil => rfl
  | cons first rest ih =>
    by_cases same : first = element
    · subst same
      rw [erase_cons_head, map_cons, erase_cons_head]
    have ne : f first ≠ f element := fun eq =>
      same (unique first mem_cons_self eq)
    rw [erase_cons_tail (by simpa using same), map_cons,
      map_cons, erase_cons_tail (by simpa using ne),
      ih]
    exact fun other mem => unique other (mem_cons_of_mem first mem)

/-- The addresses once one of them has become the most recent one. -/
theorem resident_touch {k : Nat} (notZero : addr ≠ 0) : resident (k + 1) (touch recent addr) =
      addr :: ((recent ++ List.replicate (k + 1) 0).erase addr).take k := by
  have noPadding : addr ∉ replicate (k + 1) (0 : Address) := fun mem =>
    notZero (eq_of_mem_replicate mem)
  rw [resident, touch, cons_append, take_succ_cons, erase_append]
  split
  case isTrue mem => rfl
  case isFalse outside =>
    rw [erase_of_not_mem outside, erase_of_not_mem noPadding]

section

variable (caches : Caches state lines recent)
include caches

theorem Caches.hit {id : Fin numLines} (found : state.lineMap addr = some id) :
    Gives (within IdealFailure.list (state.lruList.moveToFront () id)) fun lruList =>
        Caches { state with lruList } (id :: lines.erase id) (touch recent addr) := by
  obtain ⟨notZero, value⟩ := (caches.mapped addr id).mp found
  have mem := caches.all id
  obtain ⟨k, rfl⟩ : ∃ k, numLines = k + 1 := Nat.exists_eq_succ_of_ne_zero (ne_of_gt (Fin.pos id))
  apply (caches.holds.moveToFront mem).within.mono
  intro lruList moved
  exact {
    holds := moved
    all := by
      intro other
      by_cases same : other = id
      · exact mem_cons.mpr (.inl same)
      · exact mem_cons_of_mem id ((mem_erase_of_ne same).mpr (caches.all other))
    addresses := by
      have unique : ∀ other ∈ lines, state.array other = state.array id → other = id := by
        intro other _ eq
        have alsoFound := (caches.mapped addr other).mpr ⟨notZero, eq.trans value⟩
        exact Option.some.inj (alsoFound.symm.trans found)
      have isResident : addr ∈ resident (k + 1) recent := by
        rw [← caches.addresses, ← value]
        exact mem_map_of_mem mem
      rw [map_cons, map_erase_of_unique unique, caches.addresses, value,
        resident_touch notZero, resident, take_erase_of_mem isResident]
    mapped := caches.mapped }

variable {front : List (Fin numLines)} {victim : Fin numLines}

/-- The last line of the list is the victim. -/
theorem Caches.preinsert (parts : lines = front ++ [victim]) :
    state.preinsert = .ok (victim, state.array victim) := by
  have isLast := (caches.holds.contains ()).back
  rw [parts, getLast?_concat] at isLast
  rw [IdealLRUArray.preinsert, isLast]

/-- The map once a line has got another address. -/
theorem Caches.mapped_insert (notZero : addr ≠ 0) (absent : ∀ id, state.array id ≠ addr)
    (victim : Fin numLines) (other : Address) (id : Fin numLines) :
    update (update state.lineMap (state.array victim) none) addr (some victim) other = some id ↔
      other ≠ 0 ∧ update state.array victim addr id = other := by
  by_cases isNew : other = addr
  · subst isNew
    rw [update_self, Option.some.injEq]
    constructor
    · rintro rfl
      exact ⟨notZero, update_self ..⟩
    · rintro ⟨-, value⟩
      by_contra ne
      rw [update_of_ne (Ne.symm ne)] at value
      exact absent id value
  · rw [update_of_ne isNew]
    by_cases isVictim : id = victim
    · subst isVictim
      rw [update_self]
      constructor
      · intro found
        by_cases same : other = state.array id
        · subst same
          rw [update_self] at found
          cases found
        · rw [update_of_ne same] at found
          exact absurd ((caches.mapped other id).mp found).2.symm same
      · rintro ⟨-, value⟩
        exact absurd value.symm isNew
    · rw [update_of_ne isVictim, ← caches.mapped other id]
      by_cases same : other = state.array victim
      · subst same
        rw [update_self]
        constructor
        · rintro ⟨⟩
        · intro found
          obtain ⟨ne0, -⟩ := (caches.mapped _ id).mp found
          have alsoFound := (caches.mapped _ victim).mpr ⟨ne0, rfl⟩
          exact absurd (Option.some.inj (found.symm.trans alsoFound)) isVictim
      · rw [update_of_ne same]

/-- An address takes the place of the last one. -/
theorem Caches.miss (parts : lines = front ++ [victim]) (notZero : addr ≠ 0)
    (missed : state.lineMap addr = none) :
    Gives (state.postinsert addr victim) fun after =>
      Caches after (victim :: front) (touch recent addr) := by
  obtain ⟨k, rfl⟩ : ∃ k, numLines = k + 1 :=
    Nat.exists_eq_succ_of_ne_zero (ne_of_gt (Fin.pos victim))
  have nodup := (caches.holds.contains ()).nodup
  have absent : ∀ id, state.array id ≠ addr := by
    intro id value
    have found := (caches.mapped addr id).mpr ⟨notZero, value⟩
    rw [missed] at found
    cases found
  have notFront : victim ∉ front := by
    rw [parts] at nodup
    exact fun mem =>
      (nodup_append.mp nodup).2.2 victim mem victim mem_cons_self rfl
  have erased : lines.erase victim = front := by
    rw [parts, erase_append_right _ notFront, erase_cons_head, append_nil]
  have fresh : update state.lineMap (state.array victim) none addr = none := by
    rwa [update_of_ne (absent victim).symm]
  rw [IdealLRUArray.postinsert, check_true_bind fresh]
  apply Gives.bind (caches.holds.moveToFront (caches.all victim)).within
  intro lruList moved
  rw [erased] at moved
  exact .pure {
    holds := moved
    all := by
      intro id
      have mem := caches.all id
      rw [parts, mem_append, mem_singleton] at mem
      exact mem_cons.mpr mem.symm
    addresses := by
      have keeps : front.map (update state.array victim addr) = front.map state.array := by
        apply map_congr_left
        intro id mem
        apply update_of_ne
        rintro rfl
        exact notFront mem
      have others : front.map state.array = (resident (k + 1) recent).take k := by
        have sizes := congrArg length caches.addresses
        rw [← caches.addresses, parts, map_append, take_left']
        rw [parts] at sizes
        simp only [resident, length_map, length_append,
          length_singleton, length_take, length_replicate]
          at sizes ⊢
        omega
      have outside : addr ∉ (recent ++ replicate (k + 1) 0).take k := by
        intro mem
        have isResident : addr ∈ resident (k + 1) recent :=
          take_subset_take_left _ (Nat.le_succ k) mem
        rw [← caches.addresses, mem_map] at isResident
        obtain ⟨id, -, value⟩ := isResident
        exact absent id value
      rw [map_cons]
      dsimp only
      rw [update_self, keeps, others, resident_touch notZero,
        take_erase_of_notMem outside, resident, take_take,
        min_eq_left (Nat.le_succ k)]
    mapped := caches.mapped_insert notZero absent victim }

/-- The lines are not empty, so one of them is the last. -/
theorem Caches.last (positive : 0 < numLines) : ∃ front victim, lines = front ++ [victim] := by
  have nonempty : lines ≠ [] := ne_nil_of_mem (caches.all ⟨0, positive⟩)
  exact ⟨lines.dropLast, lines.getLast nonempty, (dropLast_concat_getLast nonempty).symm⟩

theorem Caches.access (positive : 0 < numLines) (notZero : addr ≠ 0) :
    Gives (state.access addr) fun after =>
      ∃ lines, Caches after lines (touch recent addr) := by
  unfold IdealLRUArray.access lookup
  cases found : state.lineMap addr with
  | some id =>
    obtain ⟨lruList, moved, cachesAfter⟩ := caches.hit found
    dsimp only
    rw [moved]
    exact .ok ⟨_, cachesAfter⟩
  | none =>
    obtain ⟨front, victim, parts⟩ := caches.last positive
    change Gives (state.insert addr) _
    rw [IdealLRUArray.insert, caches.preinsert parts]
    apply (caches.miss parts notZero found).mono
    exact fun after cachesAfter => ⟨_, cachesAfter⟩

end

/-- An array after accesses to addresses other than 0. -/
theorem run_caches (positive : 0 < numLines) {accesses : List Address}
    (ne0 : ∀ addr ∈ accesses, addr ≠ 0) :
    Gives (run numLines accesses) fun state =>
      ∃ lines, Caches state lines (recency accesses) := by
  apply (construct_caches numLines).bind
  intro start caches
  refine .mono (Gives.foldlM (fun visited rest state =>
      (∀ addr ∈ rest, addr ≠ 0) ∧
      ∃ lines, Caches state lines (recency visited)) ?_ _ _
    ⟨ne0, _, caches⟩) fun _ holds => holds.2
  rintro visited elem rest state ⟨notZero, lines, caches⟩
  apply (caches.access positive (notZero elem mem_cons_self)).mono
  rintro after ⟨linesAfter, cachesAfter⟩
  rw [recency_concat]
  refine ⟨fun addr mem => notZero addr (mem_cons_of_mem elem mem), ?_⟩
  exact ⟨linesAfter, cachesAfter⟩

theorem Caches.lookup (caches : Caches state lines recent)
    (ne0 : ∀ addr ∈ recent, addr ≠ 0) (updateReplacement : Bool) :
    Gives (state.lookup addr updateReplacement) fun found =>
      found.1.isSome ↔ addr ∈ recent.take numLines := by
  have hits := caches.lookup_iff ne0 addr
  unfold IdealLRUArray.lookup
  cases found : state.lineMap addr with
  | none =>
    rw [found] at hits
    exact .ok hits
  | some id =>
    rw [found] at hits
    cases updateReplacement with
    | false => exact .ok hits
    | true =>
      obtain ⟨lruList, moved, -⟩ := caches.hit found
      dsimp only
      rw [moved]
      exact .ok hits

/-- The last line has the oldest of the addresses, or it was never used. -/
theorem Caches.victim (caches : Caches state lines recent)
    {front : List (Fin numLines)} {victim : Fin numLines} (parts : lines = front ++ [victim]) :
    state.array victim = recent[numLines - 1]?.getD 0 := by
  have positive := Fin.pos victim
  have sizes := congrArg length caches.addresses
  have isLast : (lines.map state.array)[numLines - 1]? = some (state.array victim) := by
    have place : numLines - 1 = (front.map state.array).length := by
      rw [parts] at sizes
      simp only [resident, length_map, length_append,
        length_singleton, length_take, length_replicate]
        at sizes ⊢
      omega
    rw [parts, map_append, place]
    exact getElem?_concat_length ..
  rw [caches.addresses, resident, getElem?_take_of_lt (by omega), getElem?_append] at isLast
  split at isLast
  case isTrue short =>
    rw [isLast]
    rfl
  case isFalse long =>
    have zero := eq_of_mem_replicate (mem_of_getElem? isLast)
    rw [getElem?_eq_none (Nat.le_of_not_lt long), zero]
    rfl

/-- For addresses other than 0, a lookup hits iff the address is among the
`numLines` most recent ones. The victim is the line with the oldest of these;
while there are fewer, it has the address 0 of a line that was never used. -/
theorem fully_associative_lru (numLines : Nat) (positive : 0 < numLines) (accesses : List Address)
    (nonzero : ∀ addr ∈ accesses, addr ≠ 0) :
    Gives (run numLines accesses) fun state =>
      (∀ addr updateReplacement, Gives (state.lookup addr updateReplacement) fun found =>
          found.1.isSome ↔ addr ∈ (recency accesses).take numLines) ∧
      Gives state.preinsert fun victim =>
        victim.2 = state.array victim.1 ∧
        (numLines ≤ (recency accesses).length → (recency accesses)[numLines - 1]? = some victim.2) ∧
        ((recency accesses).length < numLines →
          victim.2 = 0 ∧ ∀ addr, state.lineMap addr ≠ some victim.1) := by
  have recentNonzero : ∀ addr ∈ recency accesses, addr ≠ 0 :=
    fun addr inside => nonzero addr (mem_recency.mp inside)
  apply (run_caches positive nonzero).mono
  rintro state ⟨lines, caches⟩
  obtain ⟨front, victim, parts⟩ := caches.last positive
  have value := caches.victim parts
  refine ⟨fun addr update => caches.lookup recentNonzero update, ?_⟩
  rw [caches.preinsert parts]
  apply Gives.ok
  refine ⟨rfl, fun full => ?_, fun short => ?_⟩
  · have inside : numLines - 1 < (recency accesses).length := by omega
    rw [getElem?_eq_getElem inside] at value ⊢
    rw [value]
    rfl
  · have beyond : (recency accesses).length ≤ numLines - 1 := by omega
    rw [getElem?_eq_none beyond] at value
    refine ⟨value, fun addr found => ?_⟩
    obtain ⟨notZero, isValue⟩ := (caches.mapped addr victim).mp found
    exact notZero (isValue.symm.trans value)

/-- Three lines, of which one is still unused. -/
theorem fully_associative_lru_three : (recency [(5 : Address), 7, 5]).length = 2 ∧
    Gives (run 3 [5, 7, 5]) fun state =>
      Gives state.preinsert fun victim => victim.2 = 0 := by
  have size : (recency [(5 : Address), 7, 5]).length = 2 := by decide +kernel
  have nonzero : ∀ addr ∈ [(5 : Address), 7, 5], addr ≠ 0 := by simp
  refine ⟨size, ?_⟩
  apply (fully_associative_lru 3 (Nat.succ_pos 2) [5, 7, 5] nonzero).mono
  rintro state ⟨-, victim⟩
  apply victim.mono
  rintro chosen ⟨-, -, unused⟩
  exact (unused (Nat.lt_succ_self 2)).1

/-- The unused lines share the address 0. When one of them is filled, the map
loses the line that holds this address. -/
theorem address_zero_lost : Gives (run 3 [0, 1]) (fun state =>
      Gives (state.lookup 0 true) fun found => found.1 = none) ∧
    (0 : Address) ∈ (recency [0, 1]).take 3 := by decide +kernel

/-- The inclusion property of LRU: what hits in an array hits in every larger one
after the same accesses. -/
theorem larger_array_hits (small more : Nat) (accesses : List { addr : Address // addr ≠ 0 }) :
    Gives (run (small + 1) (accesses.map Subtype.val)) fun inner =>
      Gives (run (small + 1 + more) (accesses.map Subtype.val)) fun outer =>
        ∀ addr updateReplacement,
          Gives (inner.lookup addr updateReplacement) fun found => found.1.isSome →
            Gives (outer.lookup addr updateReplacement) fun found => found.1.isSome := by
  have nonzero : ∀ addr ∈ accesses.map Subtype.val, addr ≠ 0 :=
    forall_mem_map.mpr fun addr _ => addr.2
  have recent := fun addr mem => nonzero addr (mem_recency.mp mem)
  apply (run_caches (Nat.succ_pos small) nonzero).mono
  rintro inner ⟨_, caches⟩
  apply (run_caches (Nat.add_pos_left (Nat.succ_pos small) more) nonzero).mono
  rintro outer ⟨_, larger⟩ addr updateReplacement
  apply (caches.lookup recent updateReplacement).mono
  intro found hit isSome
  apply (larger.lookup recent updateReplacement).mono
  intro other hitLarger
  exact hitLarger.mpr ((take_sublist_take_left (Nat.le_add_right _ _)).subset (hit.mp isSome))

end IdealLRUArray

end Damov.Arrays
