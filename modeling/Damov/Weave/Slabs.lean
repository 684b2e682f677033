import Damov.Library.Checked
import Mathlib.Data.List.Nodup
import Mathlib.Data.List.Perm.Subperm

/-!
# Slabs of events

The events of a recorder, and the blocks with their children, are cut from slabs.
A slab counts its live elements; an element that is freed is found in its slab by
its address, and a slab without live elements is cleared for reuse. An event is
freed when it is done, together with its blocks, so the count of a slab is that of
the objects in it.

A crossing contains the event that stands for it in the domain of its source. That
event is done on its own, and it frees itself like any other, without being an
object of its own.
-/

namespace Damov.Weave

open Library.Checked Function

inductive SlabFailure where
  | tooLarge
  | freeElem
  | liveSlabs
  /-- The event was reclaimed before, or it is not the crossing it should be. -/
  | eventState
  deriving DecidableEq

structure Slab where
  liveElems : Nat
  usedBytes : Nat
  deriving DecidableEq

/-- The slab of an address: its recorder and its number there. -/
structure Place where
  recorder : Nat
  slab : Nat
  deriving DecidableEq

/-- The state of a recorder's `SlabAlloc`. -/
structure SlabAlloc where
  curSlab : Nat
  numSlabs : Nat
  freeList : List Nat
  liveSlabs : Nat

structure Slabs where
  slab : Place → Slab
  allocator : Nat → SlabAlloc

/-- `SLAB_SIZE`, the size of its buffer and that of a block of children. -/
structure SlabSizes where
  slabSize : Nat
  bufSize : Nat
  blockBytes : Nat
  block_bytes : 8 ≤ blockBytes

namespace Slabs

variable (sizes : SlabSizes)

/-- Every allocator starts with one slab. -/
def initial : Slabs where
  slab := fun _ => ⟨0, 0⟩
  allocator := fun _ => ⟨0, 1, [], 1⟩

/-- The slab that a recorder allocates from. -/
def current (recorder : Nat) (slabs : Slabs) : Place :=
  ⟨recorder, (slabs.allocator recorder).curSlab⟩

/-- Take a slab from the free list, or a new one. -/
def allocSlab (recorder : Nat) (slabs : Slabs) : Slabs :=
  let allocator := slabs.allocator recorder
  match allocator.freeList with
  | slab :: freeList => { slabs with
    allocator := update slabs.allocator recorder { allocator with
      curSlab := slab
      freeList
      liveSlabs := allocator.liveSlabs + 1 } }
  | [] => {
    slab := update slabs.slab ⟨recorder, allocator.numSlabs⟩ ⟨0, 0⟩
    allocator := update slabs.allocator recorder { allocator with
      curSlab := allocator.numSlabs
      numSlabs := allocator.numSlabs + 1
      liveSlabs := allocator.liveSlabs + 1 } }

/-- `Slab::alloc`: the bytes count as used even if they do not fit. -/
def tryAlloc (recorder bytes : Nat) (slabs : Slabs) : Slabs × Bool :=
  let place := slabs.current recorder
  let slab := slabs.slab place
  let usedBytes := slab.usedBytes + bytes
  if usedBytes < sizes.bufSize then
    ({ slabs with
      slab := update slabs.slab place ⟨slab.liveElems + 1, usedBytes⟩ }, true)
  else
    ({ slabs with
      slab := update slabs.slab place { slab with usedBytes := usedBytes } },
      false)

def alloc (recorder bytes : Nat) (slabs : Slabs) : Except SlabFailure (Slabs × Place) := do
  check (bytes < sizes.slabSize) .tooLarge
  let first := slabs.tryAlloc sizes recorder bytes
  if first.2 then return (first.1, slabs.current recorder)
  else
    let slabs := first.1.allocSlab recorder
    let second := slabs.tryAlloc sizes recorder bytes
    check (second.2 = true) .tooLarge
    return (second.1, slabs.current recorder)

/-- Clear a slab; the current one stays in use. -/
def freeSlab (place : Place) (slabs : Slabs) : Except SlabFailure Slabs := do
  let allocator := slabs.allocator place.recorder
  let slab := update slabs.slab place ⟨0, 0⟩
  let allocator :=
    if place.slab ≠ allocator.curSlab then
      { allocator with
        freeList := place.slab :: allocator.freeList
        liveSlabs := allocator.liveSlabs - 1 }
    else allocator
  check (allocator.liveSlabs ≠ 0) .liveSlabs
  return ⟨slab, update slabs.allocator place.recorder allocator⟩

def freeElem (slabs : Slabs) (place : Place) : Except SlabFailure Slabs := do
  let slab := slabs.slab place
  check (slab.liveElems ≠ 0 ∧ slab.liveElems < slab.usedBytes) .freeElem
  let freed := { slabs with
    slab := update slabs.slab place { slab with liveElems := slab.liveElems - 1 } }
  if slab.liveElems = 1 then freed.freeSlab place else return freed

end Slabs

/-! ## Events -/

/-- The memory of an event: where it lies, where its blocks lie, and whether it is
a crossing whose source event is done. -/
structure EventMemory where
  place : Place
  numChildren : Nat
  blocks : List Place
  isCrossing : Bool
  called : Bool
  reclaimed : Bool

/-- The objects of an event that are not reclaimed. -/
def EventMemory.objects (event : EventMemory) : List Place :=
  if event.reclaimed then [] else event.place :: event.blocks

structure EventHeap where
  slabs : Slabs
  events : List EventMemory

namespace EventHeap

variable (sizes : SlabSizes)

def initial : EventHeap := ⟨.initial, []⟩

/-- The objects that are allocated and not reclaimed, by their slabs. -/
def liveObjects (heap : EventHeap) : List Place := heap.events.flatMap EventMemory.objects

/-- Objects have eight bytes at least. -/
abbrev Bytes := { bytes : Nat // 8 ≤ bytes }

/-- The outcome of an operation. -/
abbrev Result := Except SlabFailure EventHeap

/-- A new event. A crossing has its child from the start. -/
def newEvent (recorder : Nat) (bytes : Bytes) (isCrossing : Bool) (heap : EventHeap) : Result := do
  let allocated ← heap.slabs.alloc sizes recorder bytes
  let numChildren := if isCrossing then 1 else 0
  return ⟨allocated.1, heap.events ++ [⟨allocated.2, numChildren, [], isCrossing, false, false⟩]⟩

/-- An event that may be used. -/
def find (event : Nat) (heap : EventHeap) : Except SlabFailure EventMemory :=
  match heap.events[event]? with
  | none => .error .eventState
  | some memory =>
    if memory.reclaimed then .error .eventState else .ok memory

/-- The second child and every third one need a block. -/
def needsBlock (numChildren : Nat) : Bool :=
  numChildren = 1 ∨ (1 < numChildren ∧ numChildren % 3 = 0)

def addChild (recorder event : Nat) (heap : EventHeap) : Result := do
  let memory ← heap.find event
  let numChildren := memory.numChildren + 1
  if needsBlock memory.numChildren then
    let allocated ← heap.slabs.alloc sizes recorder sizes.blockBytes
    return ⟨allocated.1, heap.events.set event { memory with
      numChildren := numChildren
      blocks := allocated.2 :: memory.blocks }⟩
  else
    return { heap with
      events := heap.events.set event { memory with numChildren := numChildren } }

/-- Free the blocks of an event. -/
def freeBlocks (memory : EventMemory) (slabs : Slabs) : Except SlabFailure Slabs :=
  if 1 < memory.numChildren then memory.blocks.foldlM Slabs.freeElem slabs
  else .ok slabs

/-- `freeEvent`: free the blocks of an event and itself. -/
def freeEvent (event : Nat) (memory : EventMemory) (heap : EventHeap) : Result := do
  let slabs ← freeBlocks memory heap.slabs
  let slabs ← slabs.freeElem memory.place
  return ⟨slabs, heap.events.set event { memory with
    blocks := []
    reclaimed := true }⟩

/-- An event is done. A crossing waits for its source event. -/
def done (event : Nat) (heap : EventHeap) : Result := do
  let memory ← heap.find event
  check (memory.isCrossing = true → memory.called = true) .eventState
  heap.freeEvent event memory

/-- `CrossingSrcEvent::parentDone`: the source event of a crossing is done and
frees itself, at an address within the crossing. -/
def sourceDone (event : Nat) (heap : EventHeap) : Result := do
  let memory ← heap.find event
  check (memory.isCrossing = true ∧ memory.called = false) .eventState
  let slabs ← heap.slabs.freeElem memory.place
  return ⟨slabs, heap.events.set event { memory with called := true }⟩

inductive Op where
  | newEvent (recorder : Nat) (bytes : Bytes)
  | newCrossing (recorder : Nat) (bytes : Bytes)
  | addChild (recorder event : Nat)
  | done (event : Nat)
  | sourceDone (event : Nat)

def step (heap : EventHeap) : Op → Result
  | .newEvent recorder bytes => heap.newEvent sizes recorder bytes false
  | .newCrossing recorder bytes => heap.newEvent sizes recorder bytes true
  | .addChild recorder event => heap.addChild sizes recorder event
  | .done event => heap.done event
  | .sourceDone event => heap.sourceDone event

def run (ops : List Op) : Result := ops.foldlM (step sizes) initial

end EventHeap

open List

namespace Slabs

variable {slabs : Slabs} {objects : List Place}

/-- An allocator knows its slabs: the free ones are not in use. -/
structure AllocatorInv (allocator : SlabAlloc) : Prop where
  nodup : (allocator.curSlab :: allocator.freeList).Nodup
  known : ∀ slab ∈ allocator.curSlab :: allocator.freeList, slab < allocator.numSlabs
  counted : allocator.liveSlabs + allocator.freeList.length = allocator.numSlabs

/-- The slabs hold these objects. -/
structure Holds (slabs : Slabs) (objects : List Place) : Prop where
  exact : ∀ place, (slabs.slab place).liveElems = objects.count place
  room : ∀ place, 8 * (slabs.slab place).liveElems ≤ (slabs.slab place).usedBytes
  allocators : ∀ recorder, AllocatorInv (slabs.allocator recorder)
  free : ∀ recorder, ∀ slab ∈ (slabs.allocator recorder).freeList,
    slabs.slab ⟨recorder, slab⟩ = ⟨0, 0⟩
  fresh : ∀ recorder slab, (slabs.allocator recorder).numSlabs ≤ slab →
    objects.count ⟨recorder, slab⟩ = 0

theorem holds_initial : Holds initial [] where
  exact := fun _ => rfl
  room := fun _ => Nat.le_refl _
  allocators := fun _ => ⟨by simp [initial], by simp [initial], rfl⟩
  free := nofun
  fresh := fun _ _ _ => rfl

section

variable (holds : Holds slabs objects)
include holds

variable {objects' : List Place} {place : Place} {allocator : SlabAlloc} {bytes : Nat}

theorem Holds.perm (perm : objects.Perm objects') : Holds slabs objects' where
  exact := fun place => by rw [holds.exact, perm.count_eq]
  room := holds.room
  allocators := holds.allocators
  free := holds.free
  fresh := fun rec slab isFresh => by
    rw [← perm.count_eq]
    exact holds.fresh rec slab isFresh

/-- Only the slabs that hold no objects are free. -/
theorem Holds.empty (unused : place.slab ∈ (slabs.allocator place.recorder).freeList ∨
      (slabs.slab place).usedBytes = 0) : objects.count place = 0 := by
  rw [← holds.exact]
  rcases unused with isFree | cleared
  · rw [holds.free place.recorder place.slab isFree]
  · have := holds.room place
    omega

/-! ## Changes -/

theorem Holds.setAllocator (rec : Nat) (inv : AllocatorInv allocator)
    (free : ∀ slab ∈ allocator.freeList, slabs.slab ⟨rec, slab⟩ = ⟨0, 0⟩)
    (grows : (slabs.allocator rec).numSlabs ≤ allocator.numSlabs) :
    Holds { slabs with allocator := update slabs.allocator rec allocator } objects where
  exact := holds.exact
  room := holds.room
  allocators := by
    intro other
    by_cases same : other = rec
    · subst same
      dsimp only
      rwa [update_self]
    · dsimp only
      rw [update_of_ne same]
      exact holds.allocators other
  free := by
    intro other slab mem
    by_cases same : other = rec
    · subst same
      dsimp only at mem
      rw [update_self] at mem
      exact free slab mem
    · dsimp only at mem
      rw [update_of_ne same] at mem
      exact holds.free other slab mem
  fresh := by
    intro other slab isFresh
    by_cases same : other = rec
    · subst same
      dsimp only at isFresh
      rw [update_self] at isFresh
      exact holds.fresh other slab (Nat.le_trans grows isFresh)
    · dsimp only at isFresh
      rw [update_of_ne same] at isFresh
      exact holds.fresh other slab isFresh

/-- A slab that is not free changes, and the objects in it. -/
theorem Holds.setSlab {slab : Slab} (place : Place) (counts : slab.liveElems = objects'.count place)
    (others : ∀ other ≠ place, objects'.count other = objects.count other)
    (room : 8 * slab.liveElems ≤ slab.usedBytes)
    (inUse : place.slab ∉ (slabs.allocator place.recorder).freeList)
    (known : place.slab < (slabs.allocator place.recorder).numSlabs ∨ slab.liveElems = 0) :
    Holds { slabs with slab := update slabs.slab place slab } objects' where
  exact := by
    intro other
    dsimp only
    by_cases same : other = place
    · rw [same, update_self, counts]
    · rw [update_of_ne same, holds.exact, others other same]
  room := by
    intro other
    dsimp only
    by_cases same : other = place
    · rwa [same, update_self]
    · rw [update_of_ne same]
      exact holds.room other
  allocators := holds.allocators
  free := by
    intro rec num mem
    have apart : (⟨rec, num⟩ : Place) ≠ place := by
      rintro rfl
      exact inUse mem
    dsimp only
    rw [update_of_ne apart]
    exact holds.free rec num mem
  fresh := by
    intro rec num isFresh
    by_cases same : (⟨rec, num⟩ : Place) = place
    · subst same
      have notKnown : ¬ num < (slabs.allocator rec).numSlabs := Nat.not_lt.mpr isFresh
      rw [← counts]
      exact known.resolve_left notKnown
    · rw [others _ same]
      exact holds.fresh rec num isFresh

/-! ## Allocation -/

theorem Holds.allocSlab (rec : Nat) : Holds (slabs.allocSlab rec) objects := by
  have inv := holds.allocators rec
  unfold Slabs.allocSlab
  dsimp only
  cases isFree : (slabs.allocator rec).freeList with
  | cons slab freeList =>
    have nodup := inv.nodup
    have known := inv.known
    have counted := inv.counted
    rw [isFree] at nodup known counted
    apply holds.setAllocator
    · refine ⟨(nodup_cons.mp nodup).2, ?_, ?_⟩
      · exact fun other mem => known other (mem_cons_of_mem _ mem)
      · rw [length_cons] at counted
        dsimp only
        omega
    · intro other mem
      apply holds.free
      rw [isFree]
      exact mem_cons_of_mem _ mem
    · exact Nat.le_refl _
  | nil =>
    have notFree : (slabs.allocator rec).numSlabs ∉ (slabs.allocator rec).freeList := by
      rw [isFree]
      exact not_mem_nil
    have cleared : Holds { slabs with
        slab := update slabs.slab ⟨rec, (slabs.allocator rec).numSlabs⟩ ⟨0, 0⟩ } objects :=
      holds.setSlab _ (holds.fresh rec _ (Nat.le_refl _)).symm
        (fun _ _ => rfl) (Nat.le_refl _) notFree (.inr rfl)
    have counted := inv.counted
    rw [isFree, length_nil] at counted
    apply cleared.setAllocator
    · refine ⟨nodup_singleton _, ?_, ?_⟩
      · intro slab mem
        rw [mem_singleton.mp mem]
        exact Nat.lt_succ_self _
      · dsimp only [length_nil]
        omega
    · exact fun slab mem => absurd mem not_mem_nil
    · exact Nat.le_succ _

theorem Holds.current (rec : Nat) : (slabs.current rec).slab ∉ (slabs.allocator rec).freeList ∧
      (slabs.current rec).slab < (slabs.allocator rec).numSlabs := by
  have inv := holds.allocators rec
  exact ⟨(nodup_cons.mp inv.nodup).1, inv.known _ mem_cons_self⟩

theorem Holds.tryAlloc (sizes : SlabSizes) (rec : Nat) (large : 8 ≤ bytes) :
    Holds (slabs.tryAlloc sizes rec bytes).1 (if (slabs.tryAlloc sizes rec bytes).2 then
        slabs.current rec :: objects else objects) := by
  obtain ⟨inUse, known⟩ := holds.current rec
  have room := holds.room (slabs.current rec)
  have exact := holds.exact (slabs.current rec)
  unfold Slabs.tryAlloc
  dsimp only
  split
  · rw [if_pos rfl]
    apply holds.setSlab (slabs.current rec)
    · rw [count_cons_self, exact]
    · exact fun other apart => count_cons_of_ne apart.symm
    · dsimp only
      omega
    · exact inUse
    · exact .inl known
  · apply holds.setSlab (slabs.current rec)
    · exact exact
    · exact fun _ _ => rfl
    · dsimp only
      omega
    · exact inUse
    · exact .inl known

/-- An allocation adds one object. -/
theorem Holds.alloc (sizes : SlabSizes) (rec : Nat) (large : 8 ≤ bytes) :
    Ends (fun err => err = .tooLarge) (slabs.alloc sizes rec bytes) fun res =>
        Holds res.1 (res.2 :: objects) := by
  refine .assert_bind rfl fun _ => ?_
  have first := holds.tryAlloc sizes rec large
  dsimp only
  split
  case isTrue fits =>
    rw [if_pos fits] at first
    exact .pure first
  case isFalse full =>
    rw [if_neg full] at first
    have second := (first.allocSlab rec).tryAlloc sizes rec large
    refine .assert_bind rfl fun fits => ?_
    rw [if_pos fits] at second
    exact .pure second

/-! ## Reclaiming -/

omit holds in
/-- There is a slab in use beside the free ones. -/
theorem AllocatorInv.liveSlabs_pos (inv : AllocatorInv allocator) : 0 < allocator.liveSlabs := by
  have subset : allocator.curSlab :: allocator.freeList ⊆ range allocator.numSlabs :=
    fun slab mem => mem_range.mpr (inv.known slab mem)
  have fewer := (subperm_of_subset inv.nodup subset).length_le
  rw [length_cons, length_range] at fewer
  have := inv.counted
  omega

theorem Holds.freeSlab (inUse : place.slab ∉ (slabs.allocator place.recorder).freeList)
    (known : place.slab < (slabs.allocator place.recorder).numSlabs)
    (none : objects.count place = 0) :
    Gives (slabs.freeSlab place) fun next => Holds next objects := by
  have inv := holds.allocators place.recorder
  have cleared : Holds { slabs with slab := update slabs.slab place ⟨0, 0⟩ }
      objects :=
    holds.setSlab place none.symm (fun _ _ => rfl) (Nat.le_refl _) inUse (.inr rfl)
  unfold Slabs.freeSlab
  dsimp only
  by_cases isCurrent : place.slab = (slabs.allocator place.recorder).curSlab
  · rw [if_neg (not_not.mpr isCurrent)]
    refine .check (Nat.ne_of_gt inv.liveSlabs_pos) ?_
    refine .pure ?_
    apply cleared.setAllocator place.recorder inv
    · intro slab mem
      exact cleared.free place.recorder slab mem
    · exact Nat.le_refl _
  · rw [if_pos isCurrent]
    have positive := inv.liveSlabs_pos
    have counted := inv.counted
    have pushed : AllocatorInv { slabs.allocator place.recorder with
        freeList := place.slab :: (slabs.allocator place.recorder).freeList
        liveSlabs := (slabs.allocator place.recorder).liveSlabs - 1 } := by
      obtain ⟨notFree, nodup⟩ := nodup_cons.mp inv.nodup
      refine ⟨?_, ?_, ?_⟩
      · refine nodup_cons.mpr ⟨?_, nodup_cons.mpr ⟨inUse, nodup⟩⟩
        intro mem
        rcases mem_cons.mp mem with same | isFree
        · exact isCurrent same.symm
        · exact notFree isFree
      · intro slab mem
        rcases mem_cons.mp mem with rfl | mem
        · exact inv.known _ mem_cons_self
        · rcases mem_cons.mp mem with rfl | isFree
          · exact known
          · exact inv.known slab (mem_cons_of_mem _ isFree)
      · dsimp only
        rw [length_cons]
        omega
    refine .check (Nat.ne_of_gt pushed.liveSlabs_pos) ?_
    refine .pure ?_
    apply cleared.setAllocator place.recorder pushed
    · intro slab mem
      rcases mem_cons.mp mem with rfl | isFree
      · exact update_self _ _ _
      · exact cleared.free place.recorder slab isFree
    · exact Nat.le_refl _

end

/-- Reclaiming an object takes one away. -/
theorem Holds.freeElem {place : Place} (holds : Holds slabs (place :: objects)) :
    Gives (slabs.freeElem place) fun next => Holds next objects := by
  have exact := holds.exact place
  have room := holds.room place
  rw [count_cons_self] at exact
  have inUse : place.slab ∉ (slabs.allocator place.recorder).freeList := by
    intro isFree
    rw [holds.free place.recorder place.slab isFree] at exact
    cases exact
  have known : place.slab < (slabs.allocator place.recorder).numSlabs := by
    by_contra unknown
    have none := holds.fresh place.recorder place.slab (Nat.not_lt.mp unknown)
    rw [count_cons_self] at none
    cases none
  have isLive : (slabs.slab place).liveElems ≠ 0 ∧
      (slabs.slab place).liveElems < (slabs.slab place).usedBytes := by omega
  have freed : Holds { slabs with
      slab := update slabs.slab place
        { slabs.slab place with
          liveElems := (slabs.slab place).liveElems - 1 } } objects := by
    apply holds.setSlab place
    · rw [exact, Nat.add_sub_cancel]
    · exact fun other apart => (count_cons_of_ne apart.symm).symm
    · dsimp only
      omega
    · exact inUse
    · exact .inl known
  refine .check isLive ?_
  split
  case isTrue isLast =>
    apply freed.freeSlab inUse known
    omega
  case isFalse => exact .pure freed

theorem Holds.freeElems {places : List Place} (holds : Holds slabs (places ++ objects)) :
    Gives (places.foldlM Slabs.freeElem slabs) fun next =>
      Holds next objects := by
  induction places generalizing slabs with
  | nil => exact .pure holds
  | cons place places ih =>
    apply holds.freeElem.bind
    intro next rest
    exact ih rest

end Slabs

/-! ## Events -/

namespace EventHeap

variable {sizes : SlabSizes} {heap : EventHeap} {event : Nat}
variable {memory : EventMemory}

structure Inv (heap : EventHeap) : Prop where
  holds : heap.slabs.Holds heap.liveObjects
  inline : ∀ memory ∈ heap.events, memory.numChildren ≤ 1 → memory.blocks = []

theorem inv_initial : Inv initial where
  holds := Slabs.holds_initial
  inline := nofun

/-- The objects of one event among those of all. -/
theorem flatMap_set {events : List EventMemory} (found : events[event]? = some memory) :
    ∃ rest, (events.flatMap EventMemory.objects).Perm (memory.objects ++ rest) ∧
      ∀ next, ((events.set event next).flatMap EventMemory.objects).Perm
        (next.objects ++ rest) := by
  induction events generalizing event with
  | nil => cases found
  | cons first events ih =>
    cases event with
    | zero =>
      cases found
      exact ⟨events.flatMap EventMemory.objects, .refl _, fun _ => .refl _⟩
    | succ event =>
      obtain ⟨rest, before, after⟩ := ih found
      refine ⟨first.objects ++ rest, ?_, ?_⟩
      · exact (before.append_left _).trans (perm_append_comm_assoc _ _ _)
      · intro next
        exact ((after next).append_left _).trans (perm_append_comm_assoc _ _ _)

theorem find_spec (finds : heap.find event = .ok memory) :
    heap.events[event]? = some memory ∧ memory.reclaimed = false := by
  unfold find at finds
  cases found : heap.events[event]? with
  | none =>
    rw [found] at finds
    cases finds
  | some other =>
    rw [found] at finds
    dsimp only at finds
    split at finds
    case isTrue => cases finds
    case isFalse alive =>
      cases finds
      exact ⟨rfl, Bool.eq_false_iff.mpr alive⟩

theorem find_ends : Ends (fun err => err = .eventState) (heap.find event) fun memory =>
      heap.events[event]? = some memory ∧ memory.reclaimed = false := by
  refine ⟨fun memory finds => find_spec finds, ?_⟩
  intro err fails
  unfold find at fails
  split at fails
  · cases fails
    rfl
  · split at fails
    · cases fails
      rfl
    · cases fails

theorem objects_of_alive (alive : memory.reclaimed = false) :
    memory.objects = memory.place :: memory.blocks := by
  rw [EventMemory.objects, alive]
  rfl

/-- An event changes together with the objects of the heap. -/
theorem Inv.set (inv : Inv heap) {slabs : Slabs} {next : EventMemory}
    (found : heap.events[event]? = some memory)
    (holds : ∀ rest, heap.slabs.Holds (memory.objects ++ rest) → slabs.Holds (next.objects ++ rest))
    (inline : next.numChildren ≤ 1 → next.blocks = []) :
    Inv ⟨slabs, heap.events.set event next⟩ where
  holds := by
    obtain ⟨rest, before, after⟩ := flatMap_set found
    exact (holds rest (inv.holds.perm before)).perm (after next).symm
  inline := by
    intro other mem
    rcases mem_or_eq_of_mem_set mem with old | isNext
    · exact inv.inline other old
    · rwa [isNext]

/-- The failures of a run that is not as it should be. -/
def Misuse (failure : SlabFailure) : Prop := failure = .eventState ∨ failure = .tooLarge

theorem alloc_ends {slabs : Slabs} {objects : List Place}
    (holds : slabs.Holds objects) (rec : Nat) {bytes : Nat} (large : 8 ≤ bytes) :
    Ends Misuse (slabs.alloc sizes rec bytes) fun res =>
      res.1.Holds (res.2 :: objects) := by
  have ends := holds.alloc sizes rec large
  exact ⟨ends.returns, fun err fails => .inr (ends.stops err fails)⟩

theorem find_misuse : Ends Misuse (heap.find event) fun memory =>
      heap.events[event]? = some memory ∧ memory.reclaimed = false :=
  ⟨find_ends.returns, fun err fails =>
    .inl (find_ends.stops err fails)⟩

theorem newEvent_inv (inv : Inv heap) (rec : Nat) (bytes : Bytes) (isCrossing : Bool) :
    Ends Misuse (heap.newEvent sizes rec bytes isCrossing) Inv := by
  apply (alloc_ends inv.holds rec bytes.2).bind
  rintro allocated holds
  refine .pure ⟨?_, ?_⟩
  · apply holds.perm
    refine .trans (perm_append_singleton _ _).symm (.of_eq ?_)
    simp [liveObjects, EventMemory.objects]
  · intro memory mem
    rcases mem_append.mp mem with old | isNew
    · exact inv.inline memory old
    · rw [mem_singleton.mp isNew]
      exact fun _ => rfl

theorem addChild_inv (inv : Inv heap) (rec event : Nat) :
    Ends Misuse (heap.addChild sizes rec event) Inv := by
  apply find_misuse.bind
  rintro memory ⟨found, alive⟩
  have isMemory := mem_of_getElem? found
  split
  case isTrue needs =>
    obtain ⟨rest, before, after⟩ := flatMap_set found
    apply (alloc_ends inv.holds rec sizes.block_bytes).bind
    rintro allocated holds
    refine .pure ⟨?_, ?_⟩
    · apply holds.perm
      refine .trans (before.cons _) (.trans ?_ (after _).symm)
      simp only [EventMemory.objects, alive]
      exact List.Perm.swap _ _ _
    · intro other mem
      rcases mem_or_eq_of_mem_set mem with old | isNext
      · exact inv.inline other old
      rw [isNext]
      intro few
      have none : memory.numChildren = 0 := Nat.le_zero.mp (Nat.le_of_succ_le_succ few)
      rw [none] at needs
      cases needs
  case isFalse noBlock =>
    refine .pure (inv.set found ?_ ?_)
    · intro rest holds
      exact holds
    · intro few
      exact inv.inline memory isMemory (Nat.le_of_succ_le few)

theorem freeEvent_inv (inv : Inv heap) (found : heap.events[event]? = some memory)
    (alive : memory.reclaimed = false) :
    Gives (heap.freeEvent event memory) Inv := by
  obtain ⟨rest, before, after⟩ := flatMap_set found
  have isMemory := mem_of_getElem? found
  have holds := inv.holds.perm before
  rw [objects_of_alive alive] at holds
  -- the blocks go first
  have blocksFirst : heap.slabs.Holds (memory.blocks ++ memory.place :: rest) :=
    holds.perm perm_middle.symm
  have freesBlocks : Gives (freeBlocks memory heap.slabs) fun slabs =>
      slabs.Holds (memory.place :: rest) := by
    unfold freeBlocks
    split
    case isTrue => exact blocksFirst.freeElems
    case isFalse few =>
      rw [inv.inline memory isMemory (Nat.not_lt.mp few)] at blocksFirst
      exact .ok blocksFirst
  apply freesBlocks.bind
  intro slabs holdsRest
  apply holdsRest.freeElem.bind
  intro last holdsLast
  have reclaimed := (after { memory with blocks := [], reclaimed := true }).symm
  refine .pure ⟨holdsLast.perm reclaimed, ?_⟩
  intro other mem
  rcases mem_or_eq_of_mem_set mem with old | isNext
  · exact inv.inline other old
  · rw [isNext]
    exact fun _ => rfl

theorem done_inv (inv : Inv heap) (event : Nat) : Ends Misuse (heap.done event) Inv := by
  apply find_misuse.bind
  rintro memory ⟨found, alive⟩
  refine .assert_bind (.inl rfl) fun _ => ?_
  obtain ⟨next, frees, invNext⟩ := freeEvent_inv inv found alive
  rw [frees]
  exact .ok invNext

/-- In every run in which the source event of no crossing is done, each slab counts
the objects that lie in it and are not reclaimed, and a slab that may be reused has
none. Unless an object is too large or an event is used after it was reclaimed, no
assertion fails. -/
theorem slab_counts_exact (sizes : SlabSizes) (ops : List Op)
    (noSource : ∀ event, Op.sourceDone event ∉ ops) :
    Ends Misuse (run sizes ops) fun heap =>
      ∀ place, (heap.slabs.slab place).liveElems = heap.liveObjects.count place ∧
        (place.slab ∈ (heap.slabs.allocator place.recorder).freeList ∨
            (heap.slabs.slab place).usedBytes = 0 →
          place ∉ heap.liveObjects) := by
  have runs : Ends Misuse (run sizes ops) Inv := by
    apply Ends.foldlM (fun _ heap => Inv heap)
    · intro op rest heap inside inv
      cases op with
      | newEvent recorder bytes => exact newEvent_inv inv recorder bytes false
      | newCrossing recorder bytes => exact newEvent_inv inv recorder bytes true
      | addChild recorder event => exact addChild_inv inv recorder event
      | done event => exact done_inv inv event
      | sourceDone event => exact absurd inside (noSource event)
    · exact inv_initial
  apply runs.mono
  intro heap inv place
  refine ⟨inv.holds.exact place, ?_⟩
  intro unused
  exact count_eq_zero.mp (inv.holds.empty unused)

/-- The sizes of the allocator. -/
def zsimSizes : SlabSizes := ⟨65536, 65520, 32, by decide⟩

theorem slab_counts_exact_crossing : Gives (run zsimSizes [.newEvent 0 ⟨72, by decide⟩,
        .newCrossing 0 ⟨216, by decide⟩, .addChild 0 0, .addChild 0 0, .addChild 0 0,
        .addChild 0 0, .done 0]) fun heap =>
      heap.liveObjects = [⟨0, 0⟩] ∧
      ∀ place, (heap.slabs.slab place).liveElems = heap.liveObjects.count place ∧
        (place.slab ∈ (heap.slabs.allocator place.recorder).freeList ∨
            (heap.slabs.slab place).usedBytes = 0 →
          place ∉ heap.liveObjects) := by
  have ran : Gives (run zsimSizes [.newEvent 0 ⟨72, by decide⟩,
      .newCrossing 0 ⟨216, by decide⟩, .addChild 0 0, .addChild 0 0, .addChild 0 0,
      .addChild 0 0, .done 0]) fun heap => heap.liveObjects = [⟨0, 0⟩] := by decide +kernel
  obtain ⟨heap, returns, live⟩ := ran
  exact ⟨heap, returns, live, (slab_counts_exact zsimSizes _ (by simp)).returns heap returns⟩

/-- A parent in one domain, its child in another, and the crossing between them.
After the parent and the crossing the slab counts no elements and is cleared,
although the child still lies in it. -/
theorem crossing_clears_live_slab : Gives (run zsimSizes [.newEvent 0 ⟨72, by decide⟩,
        .newEvent 0 ⟨72, by decide⟩, .addChild 0 0,
        .newCrossing 0 ⟨216, by decide⟩, .sourceDone 2, .done 0, .done 2])
      fun heap => heap.liveObjects = [⟨0, 0⟩] ∧ heap.slabs.slab ⟨0, 0⟩ = ⟨0, 0⟩ := by decide +kernel

end EventHeap

end Damov.Weave
