import Damov.Library.Links
import Damov.Weave.PrioQueue
import Mathlib.Data.Nat.ModEq

/-!
# The priority queue refines a bag of pairs

The ring holds the pairs of some of the next `B` blocks. Its lists are linked
through the objects, and the bits of a block say which of its lists are not empty.
The map holds the rest. It is not always up to date: what it holds lies at least
`B` blocks behind the last multiple of `B/2`, hence more than `B/2` blocks behind
the current one.
-/

namespace Damov.Weave.PrioQueue

open Library.Checked Library.Links Function List

variable {α : Type} {B : Nat} {queue : PrioQueue α} {near : List (Nat × α)}

/-! ## The lowest bit -/

variable {occ : BitVec 64} {first second : Nat} {β : Type} {block : Nat}

theorem exists_bit (ne0 : occ ≠ 0) : ∃ pos < 64, occ.getLsbD pos = true := by
  by_contra none
  push Not at none
  apply ne0
  apply BitVec.eq_of_getLsbD_eq
  intro pos small
  simpa using none pos small

theorem ctz_spec (ne0 : occ ≠ 0) : ctz occ < 64 ∧ occ.getLsbD (ctz occ) = true ∧
      ∀ pos, occ.getLsbD pos = true → ctz occ ≤ pos := by
  cases found : (range 64).find? (fun pos => occ.getLsbD pos) with
  | none =>
    obtain ⟨pos, small, set⟩ := exists_bit ne0
    have unset := find?_range_eq_none.mp found pos small
    simp [set] at unset
  | some pos =>
    have same : ctz occ = pos := by simp [ctz, found]
    obtain ⟨set, mem, lowest⟩ := find?_range_eq_some.mp found
    rw [same]
    refine ⟨mem_range.mp mem, set, fun other otherSet => ?_⟩
    by_contra lower
    have unset := lowest other (Nat.lt_of_not_le lower)
    simp [otherSet] at unset

variable {pos i : Nat} {obj : α} {slot : Nat → Nat → List α} {cycle : Nat}

theorem getLsbD_bit (small : pos < 64) (other : Nat) :
    (1#64 <<< pos).getLsbD other = decide (other = pos) := by
  by_cases same : other = pos
  · simp [same, small]
  · by_cases low : other < pos
    · simp [same, low]
    · have positive : other - pos ≠ 0 := by omega
      simp [same, positive]

theorem getLsbD_setBit (occ : BitVec 64) (small : pos < 64) (other : Nat) :
    (occ ||| (1#64 <<< pos)).getLsbD other = (occ.getLsbD other || decide (other = pos)) := by
  rw [BitVec.getLsbD_or, getLsbD_bit small]

theorem getLsbD_flipBit (occ : BitVec 64) (small : pos < 64) (other : Nat) :
    (occ ^^^ (1#64 <<< pos)).getLsbD other = (occ.getLsbD other ^^ decide (other = pos)) := by
  rw [BitVec.getLsbD_xor, getLsbD_bit small]

/-! ## The ring -/

/-- The lists of the ring hold the pairs of `near`. -/
structure Slots
    (B : Nat) (near : List (Nat × α)) (slot : Nat → Nat → List α) (queue : PrioQueue α) : Prop where
  chain : ∀ i pos, Chain queue.next (queue.array i pos) (slot i pos)
  nodup : ∀ i pos, (slot i pos).Nodup
  occ : ∀ i, ∀ pos < 64, (queue.occ i).getLsbD pos = true ↔ slot i pos ≠ []
  member : ∀ i pos obj, obj ∈ slot i pos ↔
    ∃ cycle, (cycle, obj) ∈ near ∧ cycle / 64 % B = i ∧ cycle % 64 = pos
  unlinked : ∀ obj, (∀ i pos, obj ∉ slot i pos) → queue.next obj = none

structure Ring (B : Nat) (near : List (Nat × α)) (queue : PrioQueue α) : Prop where
  slots : ∃ slot, Slots B near slot queue
  range : ∀ pair ∈ near, queue.curBlock ≤ pair.1 / 64 ∧ pair.1 / 64 < queue.curBlock + B

/-- Two blocks of the ring with one index are the same block. -/
theorem block_unique {cur : Nat} (firstRange : cur ≤ first ∧ first < cur + B)
    (secondRange : cur ≤ second ∧ second < cur + B)
    (same : first % B = second % B) : first = second := by
  rcases le_total first second with le | le
  · have divides := (Nat.modEq_iff_dvd' le).mp same
    have small : second - first < B := by omega
    have zero := Nat.eq_zero_of_dvd_of_lt divides small
    omega
  · have divides := (Nat.modEq_iff_dvd' le).mp (Eq.symm same)
    have small : first - second < B := by omega
    have zero := Nat.eq_zero_of_dvd_of_lt divides small
    omega

@[simp] theorem setEntry_self (entries : Nat → Nat → β) (i pos : Nat) (entry : β) :
    setEntry entries i pos entry i pos = entry := by simp [setEntry]

theorem setEntry_other (entries : Nat → Nat → β) {j other : Nat} (entry : β)
    (differs : ¬ (j = i ∧ other = pos)) :
    setEntry entries i pos entry j other = entries j other := by
  by_cases same : j = i
  · subst same
    have ne : other ≠ pos := fun eq => differs ⟨rfl, eq⟩
    simp [setEntry, ne]
  · simp [setEntry, same]

theorem Slots.absent (slots : Slots B near slot queue)
    (fresh : ∀ pair ∈ near, pair.2 ≠ obj) (i pos : Nat) :
    obj ∉ slot i pos := by
  intro mem
  obtain ⟨_, queued, -⟩ := (slots.member i pos obj).mp mem
  exact fresh _ queued rfl

/-- The pair of an object in a list of the ring. -/
theorem Ring.pair_of_member (ring : Ring B near queue) (slots : Slots B near slot queue)
    (range : queue.curBlock ≤ block ∧ block < queue.curBlock + B)
    (mem : obj ∈ slot (block % B) pos) :
    (block * 64 + pos, obj) ∈ near := by
  obtain ⟨cycle, queued, same, offset⟩ := (slots.member _ _ _).mp mem
  have here := block_unique (ring.range _ queued) range same
  have whole : cycle = block * 64 + pos := by omega
  rwa [← whole]

theorem Slots.occ_ne_zero (slots : Slots B near slot queue) (queued : (cycle, obj) ∈ near) :
    (queue.occ (cycle / 64 % B)).getLsbD (cycle % 64) = true := by
  apply (slots.occ _ _ (Nat.mod_lt _ (by decide))).mpr
  exact ne_nil_of_mem ((slots.member _ _ obj).mpr ⟨cycle, queued, rfl, rfl⟩)

/-- A populated block has a first pair. -/
theorem Ring.first_of_block (ring : Ring B near queue)
    (range : queue.curBlock ≤ block ∧ block < queue.curBlock + B)
    (populated : queue.occ (block % B) ≠ 0) :
    (∃ obj, (block * 64 + ctz (queue.occ (block % B)), obj) ∈ near) ∧
      ∀ pair ∈ near, pair.1 / 64 = block → block * 64 + ctz (queue.occ (block % B)) ≤ pair.1 := by
  obtain ⟨slot, slots⟩ := ring.slots
  rcases ctz_spec populated with ⟨small, set, lowest⟩
  constructor
  · have nonempty := (slots.occ _ _ small).mp set
    obtain ⟨obj, mem⟩ := exists_mem_of_ne_nil _ nonempty
    exact ⟨obj, ring.pair_of_member slots range mem⟩
  · rintro ⟨cycle, obj⟩ queued here
    have bit := slots.occ_ne_zero queued
    rw [here] at bit
    have low := lowest _ bit
    omega

theorem pair_unique {pairs : List (Nat × α)} (objects : (pairs.map Prod.snd).Nodup)
    (insideFirst : (first, obj) ∈ pairs) (insideSecond : (second, obj) ∈ pairs) : first = second :=
  congrArg Prod.fst (inj_on_of_nodup_map objects insideFirst insideSecond rfl)

/-! ## Enqueueing and dequeueing in a block -/

theorem Slots.blockEnqueue [DecidableEq α] (slots : Slots B near slot queue)
    (fresh : ∀ pair ∈ near, pair.2 ≠ obj) (block : cycle / 64 % B = i) (offset : cycle % 64 = pos) :
    Slots B ((cycle, obj) :: near) (setEntry slot i pos (obj :: slot i pos))
      { queue with
        occ := update queue.occ i (queue.occ i ||| (1#64 <<< pos))
        next := update queue.next obj (queue.array i pos)
        array := setEntry queue.array i pos (some obj) } := by
  have absent := slots.absent fresh
  have small : pos < 64 := by omega
  constructor
  · intro j other
    by_cases here : j = i ∧ other = pos
    · obtain ⟨rfl, rfl⟩ := here
      simp only [setEntry_self]
      exact (slots.chain j other).push (absent j other)
    · simp only [setEntry_other _ _ here]
      exact (slots.chain j other).update (absent j other) _
  · intro j other
    by_cases here : j = i ∧ other = pos
    · obtain ⟨rfl, rfl⟩ := here
      simp [absent j other, slots.nodup j other]
    · simpa [setEntry_other _ _ here] using slots.nodup j other
  · intro j other low
    dsimp only
    by_cases here : j = i
    · subst here
      rw [update_self, getLsbD_setBit _ small]
      by_cases same : other = pos
      · simp [same]
      · rw [setEntry_other _ _ (fun both => same both.2)]
        simpa [same] using slots.occ j other low
    · rw [update_of_ne here, setEntry_other _ _ (fun both => here both.1)]
      exact slots.occ j other low
  · intro j other elem
    by_cases here : j = i ∧ other = pos
    · obtain ⟨rfl, rfl⟩ := here
      rw [setEntry_self, mem_cons, slots.member]
      constructor
      · rintro (rfl | ⟨at_, mem, rest⟩)
        · exact ⟨cycle, mem_cons_self, block, offset⟩
        · exact ⟨at_, mem_cons_of_mem _ mem, rest⟩
      · rintro ⟨at_, mem, rest⟩
        rcases mem_cons.mp mem with same | old
        · exact .inl (congrArg Prod.snd same)
        · exact .inr ⟨at_, old, rest⟩
    · rw [setEntry_other _ _ here, slots.member]
      constructor
      · rintro ⟨at_, mem, rest⟩
        exact ⟨at_, mem_cons_of_mem _ mem, rest⟩
      · rintro ⟨at_, mem, rest⟩
        rcases mem_cons.mp mem with same | old
        · rcases same with ⟨rfl, rfl⟩
          exact absurd ⟨rest.1.symm.trans block, rest.2.symm.trans offset⟩ here
        · exact ⟨at_, old, rest⟩
  · intro elem outside
    have differs : elem ≠ obj := by
      rintro rfl
      have notHead := outside i pos
      simp at notHead
    dsimp only
    rw [update_of_ne differs]
    apply slots.unlinked
    intro j other mem
    by_cases here : j = i ∧ other = pos
    · obtain ⟨rfl, rfl⟩ := here
      exact outside j other (by simp [mem])
    · exact outside j other (by simpa [setEntry_other _ _ here] using mem)

theorem Ring.blockEnqueue [DecidableEq α] (ring : Ring B near queue)
    (fresh : ∀ pair ∈ near, pair.2 ≠ obj)
    (range : queue.curBlock ≤ cycle / 64 ∧ cycle / 64 < queue.curBlock + B) :
    Gives (queue.blockEnqueue obj (cycle / 64 % B) (cycle % 64))
      (fun next => Ring B ((cycle, obj) :: near) next ∧
        next.feMap = queue.feMap ∧ next.curBlock = queue.curBlock ∧
        next.elems = queue.elems) := by
  obtain ⟨slot, slots⟩ := ring.slots
  refine .check (slots.unlinked obj (slots.absent fresh)) ?_
  refine .pure ⟨⟨⟨_, slots.blockEnqueue fresh rfl rfl⟩, ?_⟩, rfl, rfl, rfl⟩
  intro pair mem
  rcases mem_cons.mp mem with rfl | old
  · exact range
  · exact ring.range pair old

theorem Slots.blockDequeue [DecidableEq α] {res : α} {rest : List α}
    (slots : Slots B near slot queue) (objects : (near.map Prod.snd).Nodup)
    (queued : (cycle, res) ∈ near) (block : cycle / 64 % B = i)
    (offset : cycle % 64 = pos) (list : slot i pos = res :: rest) :
    Slots B (near.erase (cycle, res)) (setEntry slot i pos rest)
      { queue with
        array := setEntry queue.array i pos (queue.next res)
        occ := if queue.next res = none then
            update queue.occ i (queue.occ i ^^^ (1#64 <<< pos))
          else queue.occ
        next := update queue.next res none } := by
  have small : pos < 64 := by omega
  have chain := slots.chain i pos
  rw [list] at chain
  have nodup := slots.nodup i pos
  rw [list, nodup_cons] at nodup
  have only (j other) (mem : res ∈ slot j other) : j = i ∧ other = pos := by
    obtain ⟨at_, queuedAt, sameBlock, sameOffset⟩ := (slots.member j other res).mp mem
    obtain rfl := pair_unique objects queued queuedAt
    exact ⟨sameBlock.symm.trans block, sameOffset.symm.trans offset⟩
  have remaining (pair) : pair ∈ near.erase (cycle, res) ↔ pair ∈ near ∧ pair.2 ≠ res := by
    rw [(objects.of_map Prod.snd).mem_erase_iff, and_comm]
    refine and_congr_right fun mem => not_congr ⟨fun same => ?_, fun same => ?_⟩
    · rw [same]
    · obtain ⟨at_, obj⟩ := pair
      obtain rfl : obj = res := same
      rw [pair_unique objects mem queued]
  constructor
  · intro j other
    by_cases here : j = i ∧ other = pos
    · obtain ⟨rfl, rfl⟩ := here
      simp only [setEntry_self]
      exact chain.2.update nodup.1 none
    · simp only [setEntry_other _ _ here]
      exact (slots.chain j other).update (fun mem => here (only j other mem)) none
  · intro j other
    by_cases here : j = i ∧ other = pos
    · obtain ⟨rfl, rfl⟩ := here
      simpa using nodup.2
    · simpa [setEntry_other _ _ here] using slots.nodup j other
  · intro j other low
    dsimp only
    by_cases here : j = i ∧ other = pos
    · obtain ⟨rfl, rfl⟩ := here
      have set := (slots.occ j other low).mpr (by simp [list])
      rw [setEntry_self, Ne, ← chain.2.nil_iff]
      split
      case isTrue last =>
        rw [update_self, getLsbD_flipBit _ small]
        simp [set, last]
      case isFalse more => simp [set, more]
    · rw [setEntry_other _ _ here, ← slots.occ j other low]
      split
      case isTrue last =>
        by_cases same : j = i
        · subst same
          have differs : other ≠ pos := fun eq => here ⟨rfl, eq⟩
          rw [update_self, getLsbD_flipBit _ small]
          simp [differs]
        · rw [update_of_ne same]
      case isFalse more => rfl
  · intro j other elem
    simp only [remaining]
    by_cases here : j = i ∧ other = pos
    · obtain ⟨rfl, rfl⟩ := here
      have member := slots.member j other elem
      rw [list, mem_cons] at member
      rw [setEntry_self]
      constructor
      · intro mem
        obtain ⟨at_, queuedAt, same⟩ := member.mp (.inr mem)
        exact ⟨at_, ⟨queuedAt, fun eq => nodup.1 (eq ▸ mem)⟩, same⟩
      · rintro ⟨at_, ⟨queuedAt, differs⟩, same⟩
        exact (member.mpr ⟨at_, queuedAt, same⟩).resolve_left differs
    · rw [setEntry_other _ _ here, slots.member]
      refine exists_congr fun at_ => ⟨?_, ?_⟩
      · rintro ⟨queuedAt, same⟩
        refine ⟨⟨queuedAt, fun eq => ?_⟩, same⟩
        obtain rfl : elem = res := eq
        obtain rfl := pair_unique objects queued queuedAt
        exact here ⟨same.1.symm.trans block, same.2.symm.trans offset⟩
      · rintro ⟨⟨queuedAt, -⟩, same⟩
        exact ⟨queuedAt, same⟩
  · intro elem outside
    dsimp only
    by_cases eq : elem = res
    · simp [eq]
    rw [update_of_ne eq]
    apply slots.unlinked
    intro j other mem
    apply outside j other
    by_cases here : j = i ∧ other = pos
    · obtain ⟨rfl, rfl⟩ := here
      rw [list, mem_cons] at mem
      simpa using mem.resolve_left eq
    · simpa [setEntry_other _ _ here] using mem

theorem Ring.blockDequeue [DecidableEq α] (ring : Ring B near queue)
    (objects : (near.map Prod.snd).Nodup) (positive : 0 < B)
    (populated : queue.occ (queue.curBlock % B) ≠ 0) :
    Gives (queue.blockDequeue (queue.curBlock % B)) (fun result =>
        (queue.curBlock * 64 + result.1.2, result.1.1) ∈ near ∧
          (∀ pair ∈ near, queue.curBlock * 64 + result.1.2 ≤ pair.1) ∧
          result.1.2 < 64 ∧
          Ring B (near.erase (queue.curBlock * 64 + result.1.2, result.1.1)) result.2 ∧
          result.2.feMap = queue.feMap ∧
          result.2.curBlock = queue.curBlock ∧
          result.2.elems = queue.elems) := by
  obtain ⟨slot, slots⟩ := ring.slots
  have range : queue.curBlock ≤ queue.curBlock ∧
      queue.curBlock < queue.curBlock + B := ⟨le_rfl, by omega⟩
  obtain ⟨small, set, -⟩ := ctz_spec populated
  have nonempty := (slots.occ _ _ small).mp set
  obtain ⟨res, rest, list⟩ := exists_cons_of_ne_nil nonempty
  have chain := slots.chain (queue.curBlock % B) (ctz (queue.occ (queue.curBlock % B)))
  rw [list] at chain
  have queued := ring.pair_of_member slots range (list ▸ mem_cons_self : res ∈ slot _ _)
  have first := (ring.first_of_block range populated).2
  refine .check populated ?_
  simp only [chain.1]
  refine .pure ⟨queued, fun pair mem => ?_, small,
    ⟨⟨_, slots.blockDequeue objects queued ?_ ?_ list⟩, ?_⟩, rfl, rfl, rfl⟩
  · rcases Nat.eq_or_lt_of_le (ring.range pair mem).1 with same | later
    · exact first pair mem same.symm
    · dsimp only
      omega
  · dsimp only
    congr 1
    omega
  · dsimp only
    omega
  · intro pair mem
    exact ring.range pair (mem_of_mem_erase mem)

/-! ## The far elements -/

/-- The ring holds `near`, and the map what is far away. -/
structure Rep (B : Nat) (near : List (Nat × α)) (queue : PrioQueue α) : Prop where
  ring : Ring B near queue
  objects : ((near ++ queue.feMap).map Prod.snd).Nodup
  sorted : queue.feMap.Pairwise fun first second => first.1 ≤ second.1
  far : ∀ pair ∈ queue.feMap, queue.curBlock / (B / 2) * (B / 2) + B ≤ pair.1 / 64

theorem Rep.near_objects (rep : Rep B near queue) : (near.map Prod.snd).Nodup := by
  have objects := rep.objects
  rw [map_append] at objects
  exact objects.of_append_left

variable {pair : Nat × α} {pending : List (Nat × α)}

/-- Far elements come more than half a ring behind the current block. -/
theorem Rep.far_ahead (rep : Rep B near queue) (two : 2 ≤ B) (mem : pair ∈ queue.feMap) :
    queue.curBlock + B / 2 < pair.1 / 64 := by
  have far := rep.far pair mem
  have half : 0 < B / 2 := by omega
  have last := Nat.lt_div_mul_add (a := queue.curBlock) half
  omega

theorem Ring.advance (ring : Ring B near queue) (empty : queue.occ (queue.curBlock % B) = 0) :
    Ring B near { queue with curBlock := queue.curBlock + 1 } := by
  obtain ⟨slot, slots⟩ := ring.slots
  refine ⟨⟨slot, { slots with }⟩, ?_⟩
  rintro ⟨cycle, obj⟩ mem
  have range := ring.range _ mem
  have later : cycle / 64 ≠ queue.curBlock := by
    intro here
    have bit := slots.occ_ne_zero mem
    rw [here, empty] at bit
    simp at bit
  dsimp only at range ⊢
  omega

/-! ## The search for the next block -/

/-- Everything below the top of the ring moves there. -/
theorem migrate_spec [DecidableEq α] (list : List (Nat × α))
    (ring : Ring B near queue) (objects : ((near ++ list).map Prod.snd).Nodup)
    (sorted : list.Pairwise fun first second => first.1 ≤ second.1)
    (ahead : ∀ pair ∈ list, queue.curBlock ≤ pair.1 / 64) :
    Gives (migrate B ((queue.curBlock + B) * 64) list queue) (fun next =>
        (∃ moved, Ring B moved next ∧ (moved ++ next.feMap).Perm (near ++ list)) ∧
        next.feMap.Pairwise (fun first second => first.1 ≤ second.1) ∧
        (∀ pair ∈ next.feMap, queue.curBlock + B ≤ pair.1 / 64) ∧
        next.curBlock = queue.curBlock ∧ next.elems = queue.elems) := by
  induction list generalizing queue near with
  | nil =>
    obtain ⟨slot, slots⟩ := ring.slots
    exact .ok ⟨⟨near, ⟨⟨slot, { slots with }⟩, ring.range⟩, .refl _⟩, .nil, by simp, rfl, rfl⟩
  | cons pair rest ih =>
    obtain ⟨cycle, obj⟩ := pair
    rw [pairwise_cons] at sorted
    rw [migrate]
    split
    case isTrue below =>
      have least : queue.curBlock ≤ cycle / 64 := ahead _ mem_cons_self
      have beyond : cycle / 64 < queue.curBlock + B := by omega
      have fresh : ∀ pair ∈ near, pair.2 ≠ obj := by
        intro other mem same
        rw [map_append, nodup_append] at objects
        exact objects.2.2 other.2 (mem_map_of_mem mem) obj (by simp) same
      have middle : ((cycle, obj) :: near ++ rest).Perm (near ++ (cycle, obj) :: rest) :=
        perm_middle.symm
      refine .check least ?_
      refine .check beyond ?_
      apply (ring.blockEnqueue fresh ⟨least, beyond⟩).bind
      rintro stored ⟨ringStored, -, sameBlock, sameElems⟩
      rw [← sameBlock] at ahead ⊢
      apply (ih ringStored ((middle.map Prod.snd).nodup_iff.mpr objects) sorted.2 fun other mem =>
          ahead other (mem_cons_of_mem _ mem)).mono
      rintro next ⟨⟨moved, ringMoved, perm⟩, sortedNext, farNext, cur, elems⟩
      exact ⟨⟨moved, ringMoved, perm.trans middle⟩, sortedNext, farNext, cur, elems.trans sameElems⟩
    case isFalse above =>
      obtain ⟨slot, slots⟩ := ring.slots
      refine .ok ⟨⟨near, ⟨⟨slot, { slots with }⟩, ring.range⟩,
        .refl _⟩, pairwise_cons.mpr sorted, fun other mem => ?_,
        rfl, rfl⟩
      have later : cycle ≤ other.1 := by
        rcases mem_cons.mp mem with rfl | behind
        · exact le_rfl
        · exact sorted.1 other behind
      omega

/-- What the search for the next block does not change. -/
def SameContents (B : Nat) (near : List (Nat × α)) (queue next : PrioQueue α) : Prop :=
  next.elems = queue.elems ∧ ∃ moved, Rep B moved next ∧
      (moved ++ next.feMap).Perm (near ++ queue.feMap)

theorem advance_spec [DecidableEq α] (two : 2 ≤ B) (rep : Rep B near queue)
    (empty : queue.occ (queue.curBlock % B) = 0) :
    Gives (queue.advance B) (fun next => SameContents B near queue next ∧
        next.curBlock = queue.curBlock + 1) := by
  have ring := rep.ring.advance empty
  rw [PrioQueue.advance]
  split
  case isTrue due =>
    have moves := migrate_spec queue.feMap ring rep.objects rep.sorted fun pair mem => by
        have ahead := rep.far_ahead two mem
        dsimp only
        omega
    apply moves.mono
    rintro next ⟨⟨moved, ringMoved, perm⟩, sorted, far, cur, elems⟩
    refine ⟨⟨elems, moved, ⟨ringMoved,
      (perm.map Prod.snd).nodup_iff.mpr rep.objects, sorted, ?_⟩, perm⟩, cur⟩
    intro pair mem
    rw [cur, Nat.div_mul_cancel (Nat.dvd_of_mod_eq_zero due.1)]
    exact far pair mem
  case isFalse notDue =>
    refine .ok ⟨⟨rfl, near, ⟨ring, rep.objects, rep.sorted, ?_⟩, .refl _⟩, rfl⟩
    intro pair mem
    have between : ¬ B / 2 ∣ queue.curBlock + 1 := by
      intro divides
      exact notDue ⟨Nat.mod_eq_zero_of_dvd divides, ne_nil_of_mem mem⟩
    rw [Nat.succ_div_of_not_dvd between]
    exact rep.far pair mem

theorem SameContents.trans {first second third : PrioQueue α}
    {moved : List (Nat × α)} (elems : second.elems = first.elems)
    (perm : (moved ++ second.feMap).Perm (near ++ first.feMap))
    (after : SameContents B moved second third) :
    SameContents B near first third := by
  obtain ⟨elemsAfter, last, rep, permAfter⟩ := after
  exact ⟨elemsAfter.trans elems, last, rep, permAfter.trans perm⟩

/-- The search ends at or before the block of any pair in the queue. -/
theorem seek_spec [DecidableEq α] (two : 2 ≤ B) {rounds : Nat}
    (rep : Rep B near queue) (mem : pair ∈ near ++ queue.feMap)
    (reach : pair.1 / 64 ≤ queue.curBlock + rounds) :
    Gives (seek B rounds queue) (fun next => SameContents B near queue next ∧
        next.occ (next.curBlock % B) ≠ 0) := by
  induction rounds generalizing queue near with
  | zero =>
    have populated : queue.occ (queue.curBlock % B) ≠ 0 := by
      rcases mem_append.mp mem with close | far
      · rcases rep.ring.slots with ⟨slot, slots⟩
        have range := rep.ring.range pair close
        have here : pair.1 / 64 = queue.curBlock := by omega
        have bit := slots.occ_ne_zero close
        intro zero
        rw [here, zero] at bit
        simp at bit
      · have ahead := rep.far_ahead two far
        omega
    rw [seek, if_pos populated]
    exact .ok ⟨⟨rfl, near, rep, .refl _⟩, populated⟩
  | succ rounds ih =>
    rw [seek]
    split
    case isTrue populated =>
      exact .ok ⟨⟨rfl, near, rep, .refl _⟩, populated⟩
    case isFalse empty =>
      rw [not_not] at empty
      apply (advance_spec two rep empty).bind
      rintro advanced ⟨⟨elems, moved, repMoved, perm⟩, cur⟩
      apply (ih repMoved (perm.mem_iff.mpr mem) (by omega)).mono
      rintro next ⟨same, populated⟩
      exact ⟨same.trans elems perm, populated⟩

theorem horizon_reaches (rep : Rep B near queue) (nonempty : near ++ queue.feMap ≠ []) :
    ∃ pair ∈ near ++ queue.feMap, pair.1 / 64 ≤ queue.curBlock + queue.horizon B := by
  rw [horizon]
  cases far : queue.feMap with
  | nil =>
    rw [far, append_nil] at nonempty
    obtain ⟨pair, mem⟩ := exists_mem_of_ne_nil _ nonempty
    have range := rep.ring.range pair mem
    exact ⟨pair, by simpa using mem, by dsimp only; omega⟩
  | cons pair rest => exact ⟨pair, by simp, by dsimp only; omega⟩

/-! ## The operations of the queue -/

/-- The queue holds the pairs in `pending`. -/
structure Refines (B : Nat) (pending : List (Nat × α)) (queue : PrioQueue α) : Prop where
  contents : ∃ near, Rep B near queue ∧ pending.Perm (near ++ queue.feMap)
  size : queue.elems = pending.length

theorem Refines.objects (refines : Refines B pending queue) : (pending.map Prod.snd).Nodup := by
  obtain ⟨near, rep, perm⟩ := refines.contents
  exact (perm.map Prod.snd).nodup_iff.mpr rep.objects

theorem refines_initial : Refines B [] (initial : PrioQueue α) where
  contents :=
    ⟨[], { ring :=
            ⟨⟨fun _ _ => [], fun _ _ => rfl, fun _ _ => .nil,
              fun _ _ _ => by simp [initial], by simp, fun _ _ => rfl⟩,
              by simp⟩
           objects := by simp [initial]
           sorted := .nil
           far := by simp [initial] },
      by simp [initial]⟩
  size := rfl

theorem feInsert_perm (cycle : Nat) (obj : α) (list : List (Nat × α)) :
    (feInsert cycle obj list).Perm ((cycle, obj) :: list) := by
  induction list with
  | nil => exact .refl _
  | cons first rest ih =>
    rw [feInsert]
    split
    case isTrue => exact .refl _
    case isFalse => exact (ih.cons first).trans (.swap _ _ _)

theorem feInsert_sorted (cycle : Nat) (obj : α) {list : List (Nat × α)}
    (sorted : list.Pairwise fun first second => first.1 ≤ second.1) :
    (feInsert cycle obj list).Pairwise fun first second => first.1 ≤ second.1 := by
  induction list with
  | nil => simp [feInsert]
  | cons first rest ih =>
    rw [pairwise_cons] at sorted
    rw [feInsert]
    split
    case isTrue before =>
      refine pairwise_cons.mpr ⟨fun other mem => ?_, pairwise_cons.mpr sorted⟩
      rcases mem_cons.mp mem with rfl | behind
      · exact before.le
      · exact before.le.trans (sorted.1 other behind)
    case isFalse after =>
      refine pairwise_cons.mpr ⟨fun other mem => ?_, ih sorted.2⟩
      rw [(feInsert_perm cycle obj rest).mem_iff, mem_cons] at mem
      rcases mem with rfl | behind
      · exact Nat.le_of_not_lt after
      · exact sorted.1 other behind

theorem enqueue_spec [DecidableEq α] {obj : α} {cycle : Nat} (refines : Refines B pending queue)
    (fresh : ∀ pair ∈ pending, pair.2 ≠ obj) (ahead : queue.curBlock ≤ cycle / 64) :
    Gives (queue.enqueue B obj cycle) (Refines B ((cycle, obj) :: pending)) := by
  obtain ⟨near, rep, perm⟩ := refines.contents
  have freshAll : ∀ pair ∈ near ++ queue.feMap, pair.2 ≠ obj :=
    fun pair mem => fresh pair (perm.mem_iff.mpr mem)
  have objects : (((cycle, obj) :: (near ++ queue.feMap)).map Prod.snd).Nodup := by
    rw [map_cons, nodup_cons]
    refine ⟨fun mem => ?_, rep.objects⟩
    obtain ⟨pair, queued, same⟩ := mem_map.mp mem
    exact freshAll pair queued same
  refine .check ahead ?_
  split
  case isTrue close =>
    apply (rep.ring.blockEnqueue (fun pair mem =>
      freshAll pair (mem_append_left _ mem)) ⟨ahead, close⟩).bind
    rintro stored ⟨ring, far, cur, elems⟩
    obtain ⟨slot, slots⟩ := ring.slots
    refine .pure ⟨⟨(cycle, obj) :: near,
      ⟨⟨⟨slot, { slots with }⟩, ring.range⟩, ?_, ?_, ?_⟩, ?_⟩, ?_⟩
    · simpa only [far, cons_append] using objects
    · simpa only [far] using rep.sorted
    · simpa only [far, cur] using rep.far
    · simpa only [far, cons_append] using perm.cons (cycle, obj)
    · simp only [elems, refines.size, length_cons]
  case isFalse beyond =>
    have inserted := feInsert_perm cycle obj queue.feMap
    have whole : (near ++ feInsert cycle obj queue.feMap).Perm
        ((cycle, obj) :: (near ++ queue.feMap)) :=
      (inserted.append_left near).trans perm_middle
    obtain ⟨slot, slots⟩ := rep.ring.slots
    refine .pure ⟨⟨near, ⟨⟨⟨slot, { slots with }⟩, rep.ring.range⟩,
      (whole.map Prod.snd).nodup_iff.mpr objects,
      feInsert_sorted cycle obj rep.sorted, ?_⟩,
      (perm.cons (cycle, obj)).trans whole.symm⟩, ?_⟩
    · intro pair mem
      rw [inserted.mem_iff, mem_cons] at mem
      rcases mem with rfl | old
      · have multiple := Nat.div_mul_le_self queue.curBlock (B / 2)
        dsimp only
        omega
      · exact rep.far pair old
    · simp only [refines.size, length_cons]

theorem dequeue_spec [DecidableEq α] (two : 2 ≤ B)
    (refines : Refines B pending queue) (nonempty : pending ≠ []) :
    Gives (queue.dequeue B) (fun res =>
        (res.1.2, res.1.1) ∈ pending ∧ (∀ pair ∈ pending, res.1.2 ≤ pair.1) ∧
          Refines B (pending.erase (res.1.2, res.1.1)) res.2) := by
  obtain ⟨near, rep, perm⟩ := refines.contents
  have something : near ++ queue.feMap ≠ [] := by
    intro nothing
    rw [nothing] at perm
    exact nonempty perm.eq_nil
  have counted : queue.elems ≠ 0 := by
    rw [refines.size]
    simpa using nonempty
  obtain ⟨pair, mem, reach⟩ := horizon_reaches rep something
  refine .check counted ?_
  apply (seek_spec two rep mem reach).bind
  rintro found ⟨⟨elems, moved, repFound, permFound⟩, populated⟩
  have contents := perm.trans permFound.symm
  apply (repFound.ring.blockDequeue repFound.near_objects (by omega) populated).bind
  rintro ⟨⟨obj, offset⟩, removed⟩ ⟨queued, first, small, ring, far, cur, elemsNext⟩
  dsimp only at queued first small ring far cur elemsNext
  have least : ∀ pair ∈ pending, found.curBlock * 64 + offset ≤ pair.1 := by
    intro other mem'
    rcases mem_append.mp (contents.mem_iff.mp mem') with
      close | distant
    · exact first other close
    · have ahead := repFound.far_ahead two distant
      omega
  have member : (found.curBlock * 64 + offset, obj) ∈ pending :=
    contents.mem_iff.mpr (mem_append_left _ queued)
  have erased : (pending.erase (found.curBlock * 64 + offset, obj)).Perm
      (moved.erase (found.curBlock * 64 + offset, obj) ++ removed.feMap) := by
    rw [far, ← erase_append_left _ queued]
    exact contents.erase _
  have objects := (refines.objects.sublist
    ((erase_sublist (a := (found.curBlock * 64 + offset, obj))).map Prod.snd))
  obtain ⟨slot, slots⟩ := ring.slots
  refine .pure ⟨member, least, ⟨_, ⟨⟨⟨slot, { slots with }⟩, ring.range⟩,
      (erased.map Prod.snd).nodup_iff.mp objects, ?_, ?_⟩, erased⟩, ?_⟩
  · simpa only [far] using repFound.sorted
  · simpa only [far, cur] using repFound.far
  · rw [length_erase_of_mem member]
    rw [elemsNext, elems, refines.size]

/-- A pair of the ring is in a populated block. -/
theorem Ring.populated (ring : Ring B near queue) (mem : pair ∈ near) :
    queue.populated B (pair.1 / 64 - queue.curBlock) = true := by
  obtain ⟨slot, slots⟩ := ring.slots
  have range := ring.range pair mem
  have block : queue.curBlock + (pair.1 / 64 - queue.curBlock) = pair.1 / 64 := by omega
  have bit := slots.occ_ne_zero mem
  rw [PrioQueue.populated, block, decide_eq_true_eq]
  intro zero
  rw [zero] at bit
  simp at bit

theorem Ring.first_of_ring {i : Nat} (ring : Ring B near queue) (small : i < B)
    (populated : queue.populated B i = true) (first : ∀ j < i, queue.populated B j = false) :
    (∃ obj, (queue.blockCycle B i, obj) ∈ near) ∧ ∀ pair ∈ near, queue.blockCycle B i ≤ pair.1 := by
  rw [PrioQueue.populated, decide_eq_true_eq] at populated
  have block := ring.first_of_block ⟨by omega, by omega⟩ populated
  refine ⟨block.1, fun pair mem => ?_⟩
  have range := ring.range pair mem
  have later : i ≤ pair.1 / 64 - queue.curBlock := by
    by_contra before
    have empty := first _ (Nat.lt_of_not_le before)
    simp [ring.populated mem] at empty
  rcases Nat.eq_or_lt_of_le later with same | behind
  · exact block.2 pair mem (by omega)
  · have offset := (ctz_spec populated).1
    rw [blockCycle]
    omega

/-- The first populated block, or a far element that comes earlier. -/
theorem firstCycle_spec (two : 2 ≤ B) (refines : Refines B pending queue)
    (nonempty : pending ≠ []) :
    Gives (queue.firstCycle B) (fun cycle => (∃ obj, (cycle, obj) ∈ pending) ∧
        ∀ pair ∈ pending, cycle ≤ pair.1) := by
  obtain ⟨near, rep, perm⟩ := refines.contents
  have counted : queue.elems ≠ 0 := by
    rw [refines.size]
    simpa using nonempty
  have least : ∀ cycle, (∃ obj, (cycle, obj) ∈ near ++ queue.feMap) →
      (∀ pair ∈ near, cycle ≤ pair.1) →
      (∀ pair ∈ queue.feMap, cycle ≤ pair.1) →
      (∃ obj, (cycle, obj) ∈ pending) ∧ ∀ pair ∈ pending, cycle ≤ pair.1 := by
    rintro cycle ⟨obj, mem⟩ close far
    refine ⟨⟨obj, perm.mem_iff.mpr mem⟩, fun pair queued => ?_⟩
    rcases mem_append.mp (perm.mem_iff.mp queued) with here | there
    · exact close pair here
    · exact far pair there
  refine .check counted ?_
  cases soon : (range (B / 2)).find? (queue.populated B) with
  | some i =>
    obtain ⟨set, mem, first⟩ := find?_range_eq_some.mp soon
    rw [mem_range] at mem
    obtain ⟨⟨obj, queued⟩, close⟩ := rep.ring.first_of_ring (by omega) set (by simpa using first)
    refine .pure (least _ ⟨obj, mem_append_left _ queued⟩ close fun pair distant => ?_)
    have ahead := rep.far_ahead two distant
    have offset := (ctz_spec (by simpa [populated] using set)).1
    rw [blockCycle]
    omega
  | none =>
    have noneSoon := find?_range_eq_none.mp soon
    have firstFar : ∀ cycle obj rest, queue.feMap = (cycle, obj) :: rest →
        ∀ pair ∈ queue.feMap, cycle ≤ pair.1 := by
      intro cycle obj rest split pair mem
      have sorted := rep.sorted
      rw [split, pairwise_cons] at sorted
      rw [split, mem_cons] at mem
      rcases mem with rfl | behind
      · exact le_rfl
      · exact sorted.1 pair behind
    cases late : (range' (B / 2) (B - B / 2)).find? (queue.populated B) with
    | some i =>
      obtain ⟨set, mem, first⟩ := find?_range'_eq_some.mp late
      rw [mem_range'_1] at mem
      have before (j) (below : j < i) : queue.populated B j = false := by
        rcases lt_or_ge j (B / 2) with low | high
        · simpa using noneSoon j low
        · simpa using first j high below
      obtain ⟨⟨obj, queued⟩, close⟩ := rep.ring.first_of_ring (by omega) set before
      cases far : queue.feMap with
      | nil =>
        exact .pure (least _ ⟨obj, mem_append_left _ queued⟩ close (by simp [far]))
      | cons pair rest =>
        obtain ⟨cycle, distant⟩ := pair
        have lowest := firstFar cycle distant rest far
        dsimp only
        rcases le_total (queue.blockCycle B i) cycle with le | le
        · rw [min_eq_left le]
          exact .pure (least _ ⟨obj, mem_append_left _ queued⟩ close
            fun pair mem => le.trans (lowest pair mem))
        · rw [min_eq_right le]
          exact .pure (least _ ⟨distant, by simp [far]⟩
            (fun pair mem => le.trans (close pair mem)) lowest)
    | none =>
      have noneLate := find?_range'_eq_none.mp late
      have noNear : near = [] := by
        apply eq_nil_iff_forall_not_mem.mpr
        intro pair mem
        have range := rep.ring.range pair mem
        have set := rep.ring.populated mem
        rcases lt_or_ge (pair.1 / 64 - queue.curBlock) (B / 2) with
          low | high
        · simpa [set] using noneSoon _ low
        · simpa [set] using noneLate _ high (by omega)
      subst noNear
      cases far : queue.feMap with
      | nil =>
        rw [far] at perm
        exact absurd perm.eq_nil nonempty
      | cons pair rest =>
        obtain ⟨cycle, distant⟩ := pair
        exact .pure (least _ ⟨distant, by simp [far]⟩ (by simp) (firstFar cycle distant rest far))

/-! ## Runs -/

/-- A queue with a record of what was enqueued and what was returned. -/
structure Client (α : Type) where
  queue : PrioQueue α
  entered : List (Nat × α)
  returned : List (Nat × α)

namespace Client

def initial : Client α where
  queue := PrioQueue.initial
  entered := []
  returned := []

inductive Op (α : Type) where
  | enqueue (obj : α) (cycle : Nat)
  | dequeue

def step [DecidableEq α] (B : Nat) (client : Client α) : Op α → Except QueueFailure (Client α)
  | .enqueue obj cycle => do
      let queue ← client.queue.enqueue B obj cycle
      return { client with
        queue
        entered := client.entered ++ [(cycle, obj)] }
  | .dequeue => do
      let ((obj, deqCycle), queue) ← client.queue.dequeue B
      return { client with
        queue
        returned := client.returned ++ [(deqCycle, obj)] }

/-- Objects that are not in the queue are enqueued at the current block or
later, and an empty queue is not asked for an object. -/
def Allowed [DecidableEq α] (client : Client α) : Op α → Prop
  | .enqueue obj cycle => client.queue.curBlock ≤ cycle / 64 ∧
      (client.entered.map Prod.snd).count obj = (client.returned.map Prod.snd).count obj
  | .dequeue => client.returned.length < client.entered.length

instance [DecidableEq α] (client : Client α) : DecidablePred client.Allowed
  | .enqueue _ _ => inferInstanceAs (Decidable (_ ∧ _))
  | .dequeue => inferInstanceAs (Decidable (_ < _))

def run [DecidableEq α] (B : Nat) (ops : List (Op α)) : Except QueueFailure (Client α) :=
  ops.foldlM (step B) initial

/-- The queue behaves as the bag of the pairs that were entered and not yet
returned. -/
structure Behaves [DecidableEq α] (B : Nat) (client : Client α) : Prop where
  conserved : ∃ pending, client.entered.Perm (client.returned ++ pending) ∧
    client.queue.size = pending.length ∧
    (pending ≠ [] → ∃ obj cycle queue, client.queue.dequeue B = .ok ((obj, cycle), queue) ∧
        (cycle, obj) ∈ pending ∧ (∀ pair ∈ pending, cycle ≤ pair.1) ∧
        client.queue.firstCycle B = .ok cycle)

def Tracks (B : Nat) (client : Client α) : Prop :=
  ∃ pending, client.entered.Perm (client.returned ++ pending) ∧ Refines B pending client.queue

theorem step_tracks [DecidableEq α] (two : 2 ≤ B) {client : Client α}
    {op : Op α} (tracks : Tracks B client) (allowed : client.Allowed op) :
    Gives (client.step B op) (Tracks B) := by
  obtain ⟨pending, perm, refines⟩ := tracks
  cases op with
  | enqueue obj cycle =>
    have fresh : ∀ pair ∈ pending, pair.2 ≠ obj := by
      rintro pair mem rfl
      have counts := (perm.map Prod.snd).count_eq pair.2
      rw [map_append, count_append, allowed.2] at counts
      have positive : 0 < (pending.map Prod.snd).count pair.2 :=
        count_pos_iff.mpr (mem_map_of_mem mem)
      omega
    apply (enqueue_spec refines fresh allowed.1).bind
    intro queue refinesNext
    refine .pure ⟨(cycle, obj) :: pending, ?_, refinesNext⟩
    exact (perm.append_right _).trans ((append_assoc _ _ _).symm ▸
        (perm_append_singleton _ _).append_left _)
  | dequeue =>
    have nonempty : pending ≠ [] := by
      rintro rfl
      have lengths := perm.length_eq
      have less : client.returned.length < client.entered.length := allowed
      rw [append_nil] at lengths
      omega
    apply (dequeue_spec two refines nonempty).bind
    rintro ⟨⟨obj, cycle⟩, queue⟩ ⟨mem, -, refinesNext⟩
    refine .pure ⟨pending.erase (cycle, obj), ?_, refinesNext⟩
    rw [append_assoc]
    exact perm.trans ((perm_cons_erase mem).append_left _)

theorem Tracks.behaves [DecidableEq α] (two : 2 ≤ B) {client : Client α}
    (tracks : Tracks B client) : Behaves B client := by
  obtain ⟨pending, perm, refines⟩ := tracks
  refine ⟨pending, perm, refines.size, fun nonempty => ?_⟩
  obtain ⟨⟨⟨obj, cycle⟩, queue⟩, returns, mem, least, -⟩ := dequeue_spec two refines nonempty
  rcases firstCycle_spec two refines nonempty with
    ⟨first, found, ⟨other, insideFirst⟩, leastFirst⟩
  have same : first = cycle := le_antisymm (leastFirst _ mem) (least _ insideFirst)
  exact ⟨obj, cycle, queue, returns, mem, least, same ▸ found⟩

/--
For every ring of at least two blocks and every sequence of operations, the queue
returns what was entered, the earliest first.
-/
theorem queue_refines_bag [DecidableEq α] (two : 2 ≤ B) (ops : List (Op α))
    (allowed : RunMeets (step B) Allowed ops (initial : Client α)) :
    ∃ client, run B ops = .ok client ∧ Behaves B client := by
  have initially : Tracks B (initial : Client α) := ⟨[], .refl _, refines_initial⟩
  rcases RunMeets.gives (fun _ _ tracks allowed => step_tracks two tracks allowed) allowed
    initially with ⟨client, returns, tracks⟩
  exact ⟨client, returns, tracks.behaves two⟩

/-- A ring of three blocks, with elements that start in the map. -/
theorem queue_refines_bag_three : ∃ client, run 3
        [.enqueue 0 70, .enqueue 1 300, .enqueue 2 1000, .enqueue 3 70,
          .dequeue, .dequeue, .enqueue 0 250, .dequeue, .dequeue, .dequeue] =
        .ok client ∧ Behaves 3 client := by
  apply queue_refines_bag (by decide)
  decide +kernel

end Client

end Damov.Weave.PrioQueue
