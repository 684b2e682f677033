import Damov.Library.Checked
import Damov.Library.Links

/-!
# Intrusive lists

`InList` of `intrusive_list.h` links the elements of a list through the elements
themselves, in both directions. An element is in at most one list, its owner.

`Holds` says which elements each list has; the operations on the links are then
those on lists of elements.
-/

namespace Damov.Arrays

open Library.Checked Library.Links Function List

inductive ListFailure where
  | linked
  | badHead
  | wrongOwner
  deriving DecidableEq

/-- The links of all elements, and the lists. -/
structure InLists (α κ : Type) where
  next : α → Option α
  prev : α → Option α
  owner : α → Option κ
  head : κ → Option α
  tail : κ → Option α
  elems : κ → Nat

namespace InLists

variable {α κ : Type} [DecidableEq α] [DecidableEq κ]

/-- Elements that were built and empty lists. -/
def initial : InLists α κ where
  next := fun _ => none
  prev := fun _ => none
  owner := fun _ => none
  head := fun _ => none
  tail := fun _ => none
  elems := fun _ => 0

section

variable (lists : InLists α κ) (l : κ)

/-- An element in front of the first one, if there is any. -/
def linkFront (e : α) : Except ListFailure (InLists α κ) :=
  match lists.head l with
  | none =>
    .ok { lists with
      head := update lists.head l (some e)
      tail := update lists.tail l (some e) }
  | some first => do
      check (lists.prev first = none ∧ lists.owner first = some l) .badHead
      return { lists with
        next := update lists.next e (some first)
        prev := update lists.prev first (some e)
        head := update lists.head l (some e) }

def pushFront (e : α) : Except ListFailure (InLists α κ) := do
  check (lists.next e = none ∧ lists.prev e = none ∧ lists.owner e = none) .linked
  let linked ← lists.linkFront l e
  return { linked with
    owner := update linked.owner e (some l)
    elems := update linked.elems l (linked.elems l + 1) }

/-- `InListNode::unlink`. -/
def unlink (e : α) : Except ListFailure (InLists α κ) := do
  let prev := bypass lists.prev (lists.next e) (lists.prev e)
  let next := bypass lists.next (lists.prev e) (lists.next e)
  check (lists.owner e = some l) .wrongOwner
  return { lists with
    next := update next e none
    prev := update prev e none
    owner := update lists.owner e none }

def remove (e : α) : Except ListFailure (InLists α κ) := do
  let head := if lists.head l = some e then lists.next e else lists.head l
  let tail := if lists.tail l = some e then lists.prev e else lists.tail l
  let unlinked ← unlink { lists with
    head := update lists.head l head
    tail := update lists.tail l tail } l e
  return { unlinked with elems := update unlinked.elems l (unlinked.elems l - 1) }

/-! ## Contents -/

/-- A list has these elements, and no others point to it. -/
structure Contains (content : List α) : Prop where
  forward : Chain lists.next (lists.head l) content
  backward : Chain lists.prev (lists.tail l) content.reverse
  owned : ∀ e, lists.owner e = some l ↔ e ∈ content
  nodup : content.Nodup
  size : lists.elems l = content.length

/-- The contents of all lists; an element outside of them has no links. -/
structure Holds (content : κ → List α) : Prop where
  contains : ∀ l, lists.Contains l (content l)
  free : ∀ e, lists.owner e = none → lists.next e = none ∧ lists.prev e = none

omit [DecidableEq α] [DecidableEq κ] in
theorem holds_initial : Holds (initial : InLists α κ) fun _ => [] where
  contains := fun l => {
    forward := rfl
    backward := rfl
    owned := fun e => by
      constructor
      · rintro ⟨⟩
      · exact nofun
    nodup := nodup_nil
    size := rfl }
  free := fun _ _ => ⟨rfl, rfl⟩

/-- `back`: the last element. -/
def back : Option α := lists.tail l

end

variable {lists : InLists α κ} {content : κ → List α} {l : κ} {e : α}

section

omit [DecidableEq α] [DecidableEq κ]

/-- Lists do not share elements. -/
theorem Holds.disjoint (holds : lists.Holds content) {other : κ}
    (ne : other ≠ l) (mem : e ∈ content l) : e ∉ content other := by
  intro alsoInside
  have first := ((holds.contains l).owned e).mpr mem
  have second := ((holds.contains other).owned e).mpr alsoInside
  exact ne (Option.some.inj (second.symm.trans first))

/-- An element that is in no list. -/
theorem Holds.absent (holds : lists.Holds content)
    (isFree : lists.owner e = none) (l : κ) : e ∉ content l := by
  intro mem
  have owned := ((holds.contains l).owned e).mpr mem
  rw [isFree] at owned
  cases owned

theorem Contains.back {content : List α} (contains : lists.Contains l content) :
    lists.back l = content.getLast? := by
  rw [InLists.back, contains.backward.head_eq, head?_reverse]

/-- A list whose elements keep their links. -/
theorem Contains.frame {after : InLists α κ} {content : List α}
    (contains : lists.Contains l content) (sameHead : after.head l = lists.head l)
    (sameTail : after.tail l = lists.tail l) (sameSize : after.elems l = lists.elems l)
    (sameNext : ∀ e ∈ content, after.next e = lists.next e)
    (samePrev : ∀ e ∈ content, after.prev e = lists.prev e)
    (sameOwned : ∀ e, after.owner e = some l ↔ lists.owner e = some l) :
    after.Contains l content where
  forward := by
    rw [sameHead]
    exact contains.forward.congr sameNext
  backward := by
    rw [sameTail]
    apply contains.backward.congr
    exact fun e mem => samePrev e (mem_reverse.mp mem)
  owned := fun e => (sameOwned e).trans (contains.owned e)
  nodup := contains.nodup
  size := sameSize.trans contains.size

end

/-! ## Adding an element -/

/-- The lists with an element in front of one of them. -/
def pushed (lists : InLists α κ) (l : κ) (e : α) : InLists α κ where
  next := update lists.next e (lists.head l)
  prev := bypass lists.prev (lists.head l) (some e)
  owner := update lists.owner e (some l)
  head := update lists.head l (some e)
  tail := update lists.tail l (if lists.head l = none then some e else lists.tail l)
  elems := update lists.elems l (lists.elems l + 1)

theorem Holds.pushFront_eq (holds : lists.Holds content) (isFree : lists.owner e = none) :
    lists.pushFront l e = .ok (lists.pushed l e) := by
  obtain ⟨noNext, noPrev⟩ := holds.free e isFree
  rw [InLists.pushFront, check_true_bind ⟨noNext, noPrev, isFree⟩]
  cases isHead : lists.head l with
  | none =>
    have sameNext : update lists.next e none = lists.next :=
      Function.update_eq_self_iff.mpr noNext.symm
    simp only [InLists.linkFront, pushed, isHead, sameNext]
    rfl
  | some first =>
    have here := (holds.contains l).forward.head_eq
    rw [isHead] at here
    have mem : first ∈ content l := mem_of_head? here.symm
    have owned := ((holds.contains l).owned first).mpr mem
    have isFirst : lists.prev first = none := by
      cases elements : content l with
      | nil =>
        rw [elements] at mem
        cases mem
      | cons head rest =>
        have backward := (holds.contains l).backward
        rw [elements, reverse_cons] at backward
        rw [elements] at here
        cases here
        exact backward.next_eq
    have same : update lists.tail l (lists.tail l) = lists.tail := update_eq_self l lists.tail
    simp only [InLists.linkFront, pushed, isHead, reduceCtorEq, if_false, same]
    rw [check_true_bind ⟨isFirst, owned⟩]
    rfl

theorem bypass_of_notMem {elems : List α} {first link : Option α} {e : α}
    {links : α → Option α} (among : ∀ other, first = some other → other ∉ elems)
    (mem : e ∈ elems) : bypass links first link e = links e :=
  bypass_of_ne fun same => among e same mem

theorem Holds.pushFront (holds : lists.Holds content) (isFree : lists.owner e = none) :
    Gives (lists.pushFront l e) fun after =>
      after.Holds (update content l (e :: content l)) := by
  obtain ⟨noNext, noPrev⟩ := holds.free e isFree
  have here := holds.contains l
  have absent := holds.absent isFree
  have headMem (first) (isHead : lists.head l = some first) : first ∈ content l := by
    rw [here.forward.head_eq] at isHead
    exact mem_of_head? isHead
  rw [holds.pushFront_eq isFree]
  apply Gives.ok
  constructor
  · intro other
    by_cases same : other = l
    · subst same
      rw [update_self]
      exact {
        forward := by
          simp only [pushed, update_self]
          exact here.forward.push (absent other)
        backward := by
          have longer := here.backward.concat (nodup_reverse.mpr here.nodup)
            (mt mem_reverse.mp (absent other)) noPrev
          rw [getLast?_reverse, ← here.forward.head_eq] at longer
          have isEmpty : lists.head other = none ↔ (content other).reverse = [] :=
            here.forward.nil_iff.trans reverse_eq_nil_iff.symm
          simp only [pushed, update_self, reverse_cons]
          rwa [if_congr isEmpty rfl rfl]
        owned := by
          intro elem
          simp only [pushed, Function.update_apply]
          split
          case isTrue isNew => simp [isNew]
          case isFalse isOld => simp [isOld, here.owned]
        nodup := nodup_cons.mpr ⟨absent other, here.nodup⟩
        size := by
          simp only [pushed, update_self, here.size, length_cons] }
    · rw [update_of_ne same]
      apply (holds.contains other).frame
      · exact update_of_ne same ..
      · exact update_of_ne same ..
      · exact update_of_ne same ..
      · intro elem mem
        apply update_of_ne
        rintro rfl
        exact absent other mem
      · intro elem mem
        apply bypass_of_notMem (fun first isHead => ?_) mem
        exact holds.disjoint same (headMem first isHead)
      · intro elem
        simp only [pushed, Function.update_apply]
        split
        case isTrue isNew => simp [isNew, isFree, Ne.symm same]
        case isFalse isOld => rfl
  · intro elem notOwned
    simp only [pushed, Function.update_apply] at notOwned
    split at notOwned
    case isTrue isNew => cases notOwned
    case isFalse isOld =>
      obtain ⟨freeNext, freePrev⟩ := holds.free elem notOwned
      constructor
      · simp only [pushed, update_of_ne isOld, freeNext]
      · simp only [pushed]
        rw [bypass_of_ne, freePrev]
        intro isHead
        exact holds.absent notOwned l (headMem elem isHead)

/-! ## Removing an element -/

/-- The lists after an element was removed. -/
def removed (lists : InLists α κ) (l : κ) (e : α) : InLists α κ where
  next := update (bypass lists.next (lists.prev e) (lists.next e)) e none
  prev := update (bypass lists.prev (lists.next e) (lists.prev e)) e none
  owner := update lists.owner e none
  head := update lists.head l (if lists.head l = some e then lists.next e else lists.head l)
  tail := update lists.tail l (if lists.tail l = some e then lists.prev e else lists.tail l)
  elems := update lists.elems l (lists.elems l - 1)

theorem remove_eq (owned : lists.owner e = some l) :
    lists.remove l e = .ok (lists.removed l e) := by
  rw [InLists.remove, unlink, check_true_bind owned]
  rfl

omit [DecidableEq α] in
/-- The ends of a list change only if the elem is the first or last one. -/
theorem head_eq_iff {before after : List α} {head : Option α} {next : α → Option α}
    (chain : Chain next head (before ++ e :: after))
    (nodup : (before ++ e :: after).Nodup) : head = some e ↔ before = [] := by
  rw [chain.head_eq]
  cases before with
  | nil => simp
  | cons first before =>
    simp only [cons_append, head?_cons, Option.some.injEq, reduceCtorEq, iff_false]
    rintro rfl
    exact (nodup_cons.mp nodup).1 (mem_append_right before mem_cons_self)

/-- The chains of a list in one direction when an element is removed. -/
theorem chain_removed {before after : List α} {head : Option α}
    {next : α → Option α} {prev : Option α} (chain : Chain next head (before ++ e :: after))
    (nodup : (before ++ e :: after).Nodup) (isPrev : prev = before.getLast?) :
    Chain (update (bypass next prev (next e)) e none)
      (if head = some e then next e else head) (before ++ after) := by
  have absent : e ∉ before ++ after := by
    intro mem
    have split := nodup_append.mp nodup
    obtain first | second := mem_append.mp mem
    · exact split.2.2 e first e mem_cons_self rfl
    · exact (nodup_cons.mp split.2.1).1 second
  have shorter := (chain.remove nodup).update absent none
  rwa [isPrev, if_congr (head_eq_iff chain nodup) rfl rfl]

theorem Holds.remove (holds : lists.Holds content) (mem : e ∈ content l) :
    Gives (lists.remove l e) fun after =>
      after.Holds (update content l ((content l).erase e)) ∧
      after.owner = update lists.owner e none := by
  have here := holds.contains l
  have owned := (here.owned e).mpr mem
  obtain ⟨before, after, elems⟩ := append_of_mem mem
  have nodup := here.nodup
  have forward := here.forward
  have backward := here.backward
  rw [elems] at nodup forward backward
  have reversed : (before ++ e :: after).reverse = after.reverse ++ e :: before.reverse := by simp
  have erased : (content l).erase e = before ++ after := by
    rw [elems, erase_append_right, erase_cons_head]
    intro earlier
    exact (nodup_append.mp nodup).2.2 e earlier e mem_cons_self rfl
  rw [reversed] at backward
  have isNext : lists.next e = after.reverse.getLast? := by
    rw [getLast?_reverse]
    exact forward.next_eq
  have isPrev : lists.prev e = before.getLast? := by
    rw [← head?_reverse]
    exact backward.next_eq
  have prevMem (other) (link : lists.prev e = some other) : other ∈ content l := by
    rw [elems]
    exact mem_append_left _ (mem_of_getLast? (isPrev.symm.trans link))
  have nextMem (other) (link : lists.next e = some other) : other ∈ content l := by
    rw [elems]
    have last := mem_of_getLast? (isNext.symm.trans link)
    exact mem_append_right _ (mem_cons_of_mem e (mem_reverse.mp last))
  rw [remove_eq owned]
  apply Gives.ok
  refine ⟨⟨?_, ?_⟩, rfl⟩
  · intro other
    by_cases same : other = l
    · subst same
      rw [update_self]
      exact {
        forward := by
          simp only [removed, update_self, erased]
          exact chain_removed forward nodup isPrev
        backward := by
          rw [erased, reverse_append]
          simp only [removed, update_self]
          apply chain_removed backward _ isNext
          rw [← reversed]
          exact nodup_reverse.mpr nodup
        owned := by
          intro elem
          rw [here.nodup.mem_erase_iff]
          simp only [removed, Function.update_apply]
          split
          case isTrue isRemoved => simp [isRemoved]
          case isFalse isKept => simp [isKept, here.owned]
        nodup := here.nodup.erase e
        size := by
          simp only [removed, update_self, here.size, length_erase_of_mem mem] }
    · rw [update_of_ne same]
      apply (holds.contains other).frame
      · exact update_of_ne same ..
      · exact update_of_ne same ..
      · exact update_of_ne same ..
      · intro elem found
        have kept : elem ≠ e := by
          rintro rfl
          exact holds.disjoint same mem found
        simp only [removed, update_of_ne kept]
        apply bypass_of_notMem (fun neighbour link => ?_) found
        exact holds.disjoint same (prevMem neighbour link)
      · intro elem found
        have kept : elem ≠ e := by
          rintro rfl
          exact holds.disjoint same mem found
        simp only [removed, update_of_ne kept]
        apply bypass_of_notMem (fun neighbour link => ?_) found
        exact holds.disjoint same (nextMem neighbour link)
      · intro elem
        simp only [removed, Function.update_apply]
        split
        case isTrue isRemoved =>
          subst isRemoved
          rw [owned]
          simp [Ne.symm same]
        case isFalse isKept => rfl
  · intro elem notOwned
    by_cases isRemoved : elem = e
    · subst isRemoved
      exact ⟨update_self .., update_self ..⟩
    simp only [removed, update_of_ne isRemoved] at notOwned ⊢
    obtain ⟨freeNext, freePrev⟩ := holds.free elem notOwned
    have absent := holds.absent notOwned l
    constructor
    · rw [bypass_of_ne (fun link => absent (prevMem elem link)), freeNext]
    · rw [bypass_of_ne (fun link => absent (nextMem elem link)), freePrev]

/-- Removing an element and adding it in front moves it there. -/
def moveToFront (lists : InLists α κ) (l : κ) (e : α) : Except ListFailure (InLists α κ) := do
  let removed ← lists.remove l e
  removed.pushFront l e

theorem Holds.moveToFront (holds : lists.Holds content) (mem : e ∈ content l) :
    Gives (lists.moveToFront l e) fun after =>
      after.Holds (update content l (e :: (content l).erase e)) := by
  apply (holds.remove mem).bind
  rintro removed ⟨held, owner⟩
  have isFree : removed.owner e = none := by
    rw [owner, update_self]
  apply (held.pushFront isFree).mono
  intro after pushed
  rwa [update_self, update_idem] at pushed

end InLists

end Damov.Arrays
