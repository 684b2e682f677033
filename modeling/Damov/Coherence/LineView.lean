import Damov.Coherence.Hierarchy
import Damov.Coherence.LineInvariant

/-!
# What the caches know about an address

The abstraction function of the refinement: the line of an address in a cache is
read through the array of the cache. The stale data of lines that no address
leads to, and the stale exclusive flag of an empty directory entry, are invisible
in it. `CacheOk` is what makes the abstraction exact, and the lemmas of this
module say what each write through a pointer does to it.
-/

namespace Damov.Coherence

open Function CacheState

variable {A : CacheArray}

/-- The line that no cache holds. -/
def Line.absent : Line := ⟨.I, ∅, false⟩

/-- The line of an address in a cache. -/
def CacheState.line (cache : CacheState A) (addr : Address) : Line :=
  match A.find cache.array addr with
  | none => Line.absent
  | some lineId =>
    ⟨cache.states lineId, (cache.entries lineId).sharers, (cache.entries lineId).isExclusive⟩

/-- The state in which a cache holds an address. -/
def CacheState.stateAt (cache : CacheState A) (addr : Address) :
    MESIState :=
  match A.find cache.array addr with
  | none => .I
  | some lineId => cache.states lineId

theorem CacheState.stateAt_eq (cache : CacheState A) (addr : Address) :
    cache.stateAt addr = (cache.line addr).state := by
  rw [stateAt, line]
  cases A.find cache.array addr <;> rfl

/-- One address in every cache. -/
def Sys.slice (sys : Sys A) (addr : Address) : Slice := fun n => (sys.caches n).line addr

@[simp]
theorem Sys.slice_apply (sys : Sys A) (addr : Address) (n : Path) :
    sys.slice addr n = (sys.caches n).line addr :=
  rfl

@[simp]
theorem Sys.caches_setCache_self (sys : Sys A) (n : Path) (cache : CacheState A) :
    (sys.setCache n cache).caches n = cache := by simp [Sys.setCache]

@[simp]
theorem Sys.caches_setCache_of_ne (sys : Sys A) {n m : Path} (cache : CacheState A) (ne : m ≠ n) :
    (sys.setCache n cache).caches m = sys.caches m := by simp [Sys.setCache, ne]

/-- A directory entry counts its sharers and has at most one owner. -/
structure EntryOk (entry : Entry) : Prop where
  count : entry.numSharers = entry.sharers.card
  owner : entry.exclusive = true → entry.numSharers ≤ 1

/--
The representation invariant of a cache: the array is well formed, the entries
count their sharers, and a line that its own address does not lead to is empty.
-/
structure CacheOk (cache : CacheState A) : Prop where
  wf : A.Wf cache.array
  entry : ∀ lineId, EntryOk (cache.entries lineId)
  live : ∀ lineId, A.find cache.array (A.tag cache.array lineId) = some lineId ∨
      (cache.states lineId = .I ∧ (cache.entries lineId).sharers = ∅)

namespace EntryOk

theorem clear : EntryOk Entry.clear := ⟨rfl, by simp [Entry.clear]⟩

variable {entry : Entry}

theorem isEmpty_iff (ok : EntryOk entry) : entry.isEmpty = true ↔ entry.sharers = ∅ := by
  simp [Entry.isEmpty, ok.count]

theorem isExclusive_of_empty (ok : EntryOk entry) (empty : entry.sharers = ∅) :
    entry.isExclusive = false := by simp [Entry.isExclusive, ok.count, empty]

end EntryOk

section Line

variable {cache : CacheState A} {addr : Address} {lineId : LineId}

/-- The cache holds the line of the address at this place. -/
abbrev CacheState.Has (cache : CacheState A) (addr : Address) (lineId : LineId) : Prop :=
  A.find cache.array addr = some lineId

theorem line_of_find (found : cache.Has addr lineId) :
    cache.line addr = ⟨cache.states lineId, (cache.entries lineId).sharers,
        (cache.entries lineId).isExclusive⟩ := by simp [line, found]

theorem line_of_not_find (missing : A.find cache.array addr = none) :
    cache.line addr = Line.absent := by simp [line, missing]

/-- A line that its address does not lead to is absent. -/
theorem CacheOk.line_of_dead (ok : CacheOk cache) {addr : Address} (found : cache.Has addr lineId)
    (dead : cache.states lineId = .I ∧ (cache.entries lineId).sharers = ∅) :
    cache.line addr = Line.absent := by
  rw [line_of_find found]
  exact Line.ext dead.1 dead.2 ((ok.entry lineId).isExclusive_of_empty dead.2)

/-- Only the array leads to a line, so lines agree where arrays do. -/
theorem line_congr {other : CacheState A} (find : A.find other.array addr = A.find cache.array addr)
    (states : other.states = cache.states) (entries : other.entries = cache.entries) :
    other.line addr = cache.line addr := by simp [line, find, states, entries]

/-! ## Writes to one cache -/

section

variable (ok : CacheOk cache) (found : cache.Has addr lineId)
include ok found

theorem CacheOk.live_of_find : A.find cache.array (A.tag cache.array lineId) = some lineId := by
  rwa [CacheArray.tag_of_find ok.wf found]

theorem CacheOk.setState (state : MESIState) : CacheOk (cache.setState lineId state) where
  wf := ok.wf
  entry := ok.entry
  live := by
    intro other
    by_cases eq : other = lineId
    · subst eq
      exact .inl (ok.live_of_find found)
    · simpa [CacheState.setState, update_of_ne eq] using ok.live other

theorem CacheOk.setEntry {entry : Entry} (entryOk : EntryOk entry) :
    CacheOk (cache.setEntry lineId entry) where
  wf := ok.wf
  entry := by
    intro other
    by_cases eq : other = lineId
    · subst eq
      simpa [setEntry] using entryOk
    · simpa [CacheState.setEntry, update_of_ne eq] using ok.entry other
  live := by
    intro other
    by_cases eq : other = lineId
    · subst eq
      exact .inl (ok.live_of_find found)
    · simpa [CacheState.setEntry, update_of_ne eq] using ok.live other

end

theorem line_setState_self (found : cache.Has addr lineId) (state : MESIState) :
    (cache.setState lineId state).line addr = (cache.line addr).withState state := by
  have foundAfter : A.find (cache.setState lineId state).array addr = some lineId := found
  rw [line_of_find found, line_of_find foundAfter]
  simp [setState, Line.withState]

theorem line_setEntry_self (found : cache.Has addr lineId) (entry : Entry) :
    (cache.setEntry lineId entry).line addr =
      ⟨(cache.line addr).state, entry.sharers, entry.isExclusive⟩ := by
  have foundAfter : A.find (cache.setEntry lineId entry).array addr = some lineId := found
  rw [line_of_find found, line_of_find foundAfter]
  simp [setEntry]

variable {other : Address} {array : A.State}

section

variable (ok : CacheOk cache)
include ok

section

variable (found : cache.Has addr lineId)
include found

/-- Two addresses never share a line. -/
theorem CacheOk.find_ne (ne : other ≠ addr) : A.find cache.array other ≠ some lineId := by
  intro found'
  exact ne (CacheArray.find_injective ok.wf found' found)

theorem line_setState_other (state : MESIState) (distinct : other ≠ addr) :
    (cache.setState lineId state).line other = cache.line other := by
  have notFound := ok.find_ne found distinct
  simp only [line, setState]
  split
  · rfl
  next otherId foundOther =>
    have ne : otherId ≠ lineId := by
      rintro rfl
      exact notFound foundOther
    rw [update_of_ne ne]

theorem line_setEntry_other (entry : Entry) (distinct : other ≠ addr) :
    (cache.setEntry lineId entry).line other = cache.line other := by
  have notFound := ok.find_ne found distinct
  simp only [line, setEntry]
  split
  · rfl
  next otherId foundOther =>
    have ne : otherId ≠ lineId := by
      rintro rfl
      exact notFound foundOther
    rw [update_of_ne ne]

end

/-! ## Operations of the array -/

/-- A new array that leads everywhere the old one did. -/
theorem CacheOk.setArray (wf : A.Wf array)
    (find : ∀ other, A.find array other = A.find cache.array other)
    (tag : A.tag array = A.tag cache.array) :
    CacheOk (cache.setArray array) where
  wf := wf
  entry := ok.entry
  live := by
    intro lineId
    simpa [CacheState.setArray, find, tag] using ok.live lineId

end

theorem line_setArray (find : ∀ other, A.find array other = A.find cache.array other)
    (addr : Address) :
    (cache.setArray array).line addr = cache.line addr :=
  line_congr (find addr) rfl rfl

section Insert

variable (ok : CacheOk cache) (accepted : A.accepts addr)
    (missing : A.find cache.array addr = none) (armed : A.Armed cache.array addr lineId)
    (dead : cache.states lineId = .I ∧ (cache.entries lineId).sharers = ∅)

include ok accepted missing armed

theorem CacheOk.insert : CacheOk (cache.setArray (A.postinsert cache.array addr lineId)) where
  wf := A.postinsert_wf ok.wf accepted missing armed
  entry := ok.entry
  live := by
    intro other
    have found := A.postinsert_lookup ok.wf accepted missing armed
    have wf := A.postinsert_wf ok.wf accepted missing armed
    by_cases eq : other = lineId
    · subst eq
      refine .inl ?_
      simp only [CacheState.setArray]
      rwa [CacheArray.tag_of_find wf found]
    rcases ok.live other with leads | empty
    · refine .inl ?_
      simp only [CacheState.setArray]
      rw [A.postinsert_tag ok.wf accepted missing armed eq]
      exact A.postinsert_keeps ok.wf accepted missing armed eq leads
    · exact .inr empty

include dead

/-- Inserting an address over an empty line changes no line at all. -/
theorem line_insert (other : Address) :
    (cache.setArray (A.postinsert cache.array addr lineId)).line other = cache.line other := by
  have found := A.postinsert_lookup ok.wf accepted missing armed
  have wf := A.postinsert_wf ok.wf accepted missing armed
  have inserted := ok.insert accepted missing armed
  by_cases isNew : other = addr
  · subst isNew
    rw [line_of_not_find missing]
    exact inserted.line_of_dead found dead
  -- an address that led to no kept line leads to no live line afterwards
  have absent : (∀ kept, kept ≠ lineId → A.find cache.array other ≠ some kept) →
        (cache.setArray (A.postinsert cache.array addr lineId)).line other =
          Line.absent := by
    intro notKept
    cases after : A.find (A.postinsert cache.array addr lineId) other with
    | none => exact line_of_not_find after
    | some otherId =>
      have ne : otherId ≠ lineId := by
        rintro rfl
        exact isNew (CacheArray.find_injective wf after found)
      have tag := CacheArray.tag_of_find wf after
      rw [A.postinsert_tag ok.wf accepted missing armed ne] at tag
      apply inserted.line_of_dead after
      rcases ok.live otherId with leads | empty
      · rw [tag] at leads
        exact absurd leads (notKept otherId ne)
      · exact empty
  cases before : A.find cache.array other with
  | none =>
    rw [line_of_not_find before]
    apply absent
    simp [before]
  | some kept =>
    by_cases isVictim : kept = lineId
    · subst isVictim
      rw [ok.line_of_dead before dead]
      apply absent
      intro otherId ne eq
      rw [before] at eq
      exact ne (Option.some.inj eq).symm
    · refine line_congr ?_ rfl rfl
      rw [before]
      exact A.postinsert_keeps ok.wf accepted missing armed isVictim before

end Insert

end Line

end Damov.Coherence
