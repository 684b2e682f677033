import Damov.Coherence.LineView

/-!
# Invalidations refine the line protocol

An invalidation sent to a cache succeeds and lowers the line of its address in
the whole subtree of the cache, and nothing else. The proof follows the tree:
`sendInvalidates` needs the specification of the children's `invalidate`, and
`Config.invalidate` is built from `sendInvalidates`.

Inside the loop of `sendInvalidates` the directory entry loses its sharers one
by one while the counter keeps its old value, so the loop invariant `Sent`
describes the entry exactly instead of claiming that the cache is well formed.
-/

noncomputable section

open scoped Classical
open Function

namespace Damov.Coherence

open Library.Checked List Sys Line

variable {A : CacheArray}

attribute [local simp] CacheState.setEntry Sys.entryRef

/-- Every cache at or below `n` is well formed. -/
def SoundBelow (sys : Sys A) (n : Path) : Prop := ∀ m, n <:+ m → CacheOk (sys.caches m)

/-- A change at and below `n` that concerns one address and no array. -/
structure Localized (before after : Sys A) (addr : Address) (n : Path) : Prop where
  outside : ∀ m, ¬ n <:+ m → after.caches m = before.caches m
  sound : SoundBelow after n
  others : ∀ m other, other ≠ addr → (after.caches m).line other = (before.caches m).line other
  find : ∀ m other, A.find (after.caches m).array other = A.find (before.caches m).array other
  dirty : after.dirty = before.dirty

/-- The states in which a cache may receive an invalidation. -/
def InvType.admits : InvType → MESIState → Prop
  | .INV, state => state ≠ .I
  | .INVX, state => state.isExclusive = true
  | .FWD, _ => False

/-- The specification of `invalidate` of the cache at `n`. -/
def InvalidateSpec (arity : Path → Nat) (n : Path) (invalidate : Invalidate (Sys A)) :
    Prop :=
  ∀ sys addr type cycle srcId reqWriteback, SoundBelow sys n →
    CoherentBelow arity (sys.slice addr) n →
    InvType.admits type (sys.slice addr n).state →
    Gives (invalidate ⟨addr, type, cycle, srcId⟩ reqWriteback sys) (fun result =>
        Localized sys result.1 addr n ∧
        (∀ m, n <:+ m → result.1.slice addr m = (sys.slice addr m).lower type) ∧
        (result.2.1 = true ↔ reqWriteback = true ∨ Dirty (sys.slice addr) n) ∧
        cycle ≤ result.2.2)

/-! ## The loop of `sendInvalidates` -/

/-- The memory after invalidations were sent to the children in `sent`. -/
structure Sent (before after : Sys A) (addr : Address) (n : Path) (lineId : LineId)
    (type : InvType) (sent : Finset Nat) : Prop where
  self : after.caches n = (before.caches n).setEntry lineId
      { (before.caches n).entries lineId with
        sharers :=
          if type = .INV then
            ((before.caches n).entries lineId).sharers \ sent
          else
            ((before.caches n).entries lineId).sharers }
  outside : ∀ m, m ≠ n → ¬ Under n sent m → after.caches m = before.caches m
  sound : ∀ m, Under n sent m → CacheOk (after.caches m)
  lowered : ∀ m, Under n sent m → after.slice addr m = (before.slice addr m).lower type
  others : ∀ m other, Under n sent m → other ≠ addr →
    (after.caches m).line other = (before.caches m).line other
  find : ∀ m other, Under n sent m → A.find (after.caches m).array other =
      A.find (before.caches m).array other
  dirty : after.dirty = before.dirty

variable {n : Path} {addr : Address}

variable {sent : Finset Nat} {c : Nat} {before after : Sys A}

theorem under_insert {m : Path} : Under n (insert c sent) m ↔ (c :: n) <:+ m ∨ Under n sent m := by
  simp [Under]

theorem dirtyUnder_insert {s : Slice} : DirtyUnder s n (insert c sent) ↔
      Dirty s (c :: n) ∨ DirtyUnder s n sent := by
  constructor
  · rintro ⟨m, under, modified⟩
    rcases under_insert.mp under with suffix | under
    · exact .inl ⟨m, suffix, modified⟩
    · exact .inr ⟨m, under, modified⟩
  · rintro (⟨m, suffix, modified⟩ | ⟨m, under, modified⟩)
    · exact ⟨m, under_insert.mpr (.inl suffix), modified⟩
    · exact ⟨m, under_insert.mpr (.inr under), modified⟩

namespace Sent

variable {before after : Sys A} {addr : Address} {n : Path} {lineId : LineId}
    {type : InvType} {sent : Finset Nat}

theorem refl : Sent before before addr n lineId type ∅ where
  self := by
    have unchanged : (if type = .INV then
            ((before.caches n).entries lineId).sharers \ ∅
          else
            ((before.caches n).entries lineId).sharers) =
          ((before.caches n).entries lineId).sharers := by
      split <;> simp
    simp
  outside := by simp
  sound := by simp
  lowered := by simp
  others := by simp
  find := by simp
  dirty := rfl

section

variable (loop : Sent before after addr n lineId type sent)
include loop

/-- A child that was not sent to yet is as it was. -/
theorem child_same {c : Nat} (fresh : c ∉ sent) {m : Path} (suffix : (c :: n) <:+ m) :
    after.caches m = before.caches m := by
  apply loop.outside m (ne_of_cons_suffix suffix)
  rwa [under_iff_of_suffix suffix]

/-- One more child is invalidated and, on an `INV`, leaves the entry. -/
theorem step
    {c : Nat} (fresh : c ∉ sent) {next : Sys A} (child : Localized after next addr (c :: n))
    (lowered : ∀ m, (c :: n) <:+ m → next.slice addr m = (after.slice addr m).lower type) :
    Sent before (if type = .INV then
        (Sys.entryRef n lineId).write
          { (Sys.entryRef n lineId).read next with
            sharers := ((entryRef n lineId).read next).sharers.erase c }
          next
      else
        next)
      addr n lineId type (insert c sent) := by
  have selfNext : next.caches n = after.caches n := child.outside n not_cons_suffix_self
  have written : ∀ m, m ≠ n → (if type = .INV then
        (entryRef n lineId).write
          { (entryRef n lineId).read next with
            sharers := ((entryRef n lineId).read next).sharers.erase c }
          next
      else
        next).caches m = next.caches m := by
    intro m ne
    split
    · simp [ne]
    · rfl
  have childBefore : ∀ m, (c :: n) <:+ m → after.caches m = before.caches m := fun m suffix =>
    loop.child_same fresh suffix
  -- a cache below an earlier child is outside the subtree of `c`
  have apart : ∀ m, Under n sent m → next.caches m = after.caches m := by
    intro m under
    apply child.outside
    intro suffix
    exact fresh ((under_iff_of_suffix suffix).mp under)
  have underNe : ∀ {m}, Under n (insert c sent) m → m ≠ n := by
    rintro m under rfl
    exact not_under_self _ _ under
  exact {
    self := by
      by_cases isInv : type = .INV
      · simp only [isInv, if_true, entryRef, caches_setCache_self, selfNext, loop.self]
        simp only [CacheState.setEntry, update_self, update_idem, Finset.sdiff_insert]
      · simp only [if_neg isInv, selfNext, loop.self]
    outside := by
      intro m ne notUnder
      rw [under_insert, not_or] at notUnder
      rw [written m ne, child.outside m notUnder.1, loop.outside m ne notUnder.2]
    sound := by
      intro m under
      rw [written m (underNe under)]
      rcases under_insert.mp under with suffix | under
      · exact child.sound m suffix
      · rw [apart m under]
        exact loop.sound m under
    lowered := by
      intro m under
      rw [slice_apply, written m (underNe under)]
      rcases under_insert.mp under with suffix | under
      · have lineLowered := lowered m suffix
        rwa [slice_apply, slice_apply, childBefore m suffix] at lineLowered
      · rw [apart m under]
        exact loop.lowered m under
    others := by
      intro m other under ne
      rw [written m (underNe under), child.others m other ne]
      rcases under_insert.mp under with suffix | under
      · rw [childBefore m suffix]
      · exact loop.others m other under ne
    find := by
      intro m other under
      rw [written m (underNe under), child.find m other]
      rcases under_insert.mp under with suffix | under
      · rw [childBefore m suffix]
      · exact loop.find m other under
    dirty := by
      rw [← loop.dirty, ← child.dirty]
      split
      · rfl
      · rfl }

/-- The memory after the loop, once the directory entry is written. -/
theorem write_caches (entry : Entry) (m : Path) :
    ((Sys.entryRef n lineId).write entry after).caches m =
      if m = n then (before.caches n).setEntry lineId entry
      else after.caches m := by
  by_cases isSelf : m = n
  · subst isSelf
    simp [loop.self]
  · simp [isSelf]

theorem write_array (entry : Entry) :
    (((Sys.entryRef n lineId).write entry after).caches n).array = (before.caches n).array := by
  rw [loop.write_caches, if_pos rfl]
  rfl

theorem localized (sound : SoundBelow before n) (found : (before.caches n).Has addr lineId)
    {entry : Entry} (entryOk : EntryOk entry) :
    Localized before ((Sys.entryRef n lineId).write entry after) addr n where
  outside := by
    intro m outside
    have notSelf : m ≠ n := by
      rintro rfl
      exact outside suffix_rfl
    rw [loop.write_caches, if_neg notSelf]
    apply loop.outside m notSelf
    rintro ⟨i, _, suffix⟩
    exact outside (suffix_of_cons_suffix suffix)
  sound := by
    intro m suffix
    rw [loop.write_caches]
    split
    next isSelf =>
      exact (sound n suffix_rfl).setEntry found entryOk
    next notSelf =>
      by_cases under : Under n sent m
      · exact loop.sound m under
      · rw [loop.outside m notSelf under]
        exact sound m suffix
  others := by
    intro m other ne
    rw [loop.write_caches]
    split
    next isSelf =>
      rw [isSelf]
      exact line_setEntry_other (sound n suffix_rfl) found entry ne
    next notSelf =>
      by_cases under : Under n sent m
      · exact loop.others m other under ne
      · rw [loop.outside m notSelf under]
  find := by
    intro m other
    rw [loop.write_caches]
    split
    next isSelf =>
      rw [isSelf]
      rfl
    next notSelf =>
      by_cases under : Under n sent m
      · exact loop.find m other under
      · rw [loop.outside m notSelf under]
  dirty := loop.dirty

theorem slice (found : (before.caches n).Has addr lineId) (entry : Entry) :
    ((Sys.entryRef n lineId).write entry after).slice addr =
      update (lowerUnder type n sent (before.slice addr)) n
        ⟨(before.slice addr n).state, entry.sharers, entry.isExclusive⟩ := by
  funext m
  rw [slice_apply, loop.write_caches]
  split
  next isSelf =>
    rw [isSelf, update_self]
    exact line_setEntry_self found entry
  next notSelf =>
    rw [update_of_ne notSelf]
    by_cases under : Under n sent m
    · rw [lowerUnder_of_under under]
      exact loop.lowered m under
    · rw [lowerUnder_of_not under, loop.outside m notSelf under]
      rfl

end

end Sent

/-- The children that the directory of a cache lists for a line. -/
abbrev Sys.sharers (sys : Sys A) (n : Path) (lineId : LineId) : Finset Nat :=
  ((sys.caches n).entries lineId).sharers

section SendInvalidates

variable
    (cfg : Config A) {arity : Path → Nat} {n : Path} {k : Nat} {child : Fin k → Invalidate (Sys A)}
    {sys : Sys A} {addr : Address} {lineId : LineId} {type : InvType}

/-- The children that still have to be visited were not sent to. -/
def sentTo (sharers : Finset Nat) (visited : List (Fin k)) : Finset Nat :=
  sharers.filter (fun c => c ∈ visited.map Fin.val)

theorem sentTo_append (sharers : Finset Nat) (visited : List (Fin k)) (c : Fin k) :
    sentTo sharers (visited ++ [c]) = if c.val ∈ sharers then insert c.val (sentTo sharers visited)
      else sentTo sharers visited := by
  ext j
  by_cases isLast : j = c.val
  · subst isLast
    by_cases mem : c.val ∈ sharers <;> simp [sentTo, mem]
  · split <;> simp [sentTo, isLast]

theorem sentTo_all {sharers : Finset Nat} (mem : ∀ i ∈ sharers, i < k) :
    sentTo sharers (List.finRange k) = sharers := by
  apply Finset.filter_true_of_mem
  intro j member
  exact mem_map.mpr ⟨⟨j, mem j member⟩, mem_finRange _, rfl⟩

/-- The state of the loop after some children were visited. -/
structure LoopOk (sys : Sys A) (addr : Address) (n : Path) (lineId : LineId)
    (type : InvType) (reqWriteback : Bool) (cycle : Nat)
    (visited : List (Fin k)) (loop : MESITopCC.InvLoop (Sys A)) : Prop where
  sent : Sent sys loop.memory addr n lineId type (sentTo (sys.sharers n lineId) visited)
  writeback : loop.reqWriteback = true ↔ reqWriteback = true ∨ DirtyUnder (sys.slice addr) n
        (sentTo (sys.sharers n lineId) visited)
  count : loop.sentInvs = (sentTo (sys.sharers n lineId) visited).card
  cycle : cycle ≤ loop.maxCycle

variable (childSpec : ∀ c, InvalidateSpec arity (c.val :: n) (child c)) (sound : SoundBelow sys n)
    (ready : ∀ i ∈ sys.sharers n lineId, i < k ∧ CoherentBelow arity (sys.slice addr) (i :: n) ∧
        InvType.admits type (sys.slice addr (i :: n)).state)

include childSpec sound ready

theorem sendInvalidate_spec {reqWriteback : Bool} {cycle : Nat} (srcId : Nat)
    {visited : List (Fin k)} {c : Fin k} (fresh : c ∉ visited) {loop : MESITopCC.InvLoop (Sys A)}
    (ok : LoopOk sys addr n lineId type reqWriteback cycle visited loop) :
    Gives ((cfg.topCC n k child).sendInvalidate addr lineId type cycle srcId loop c)
      (LoopOk sys addr n lineId type reqWriteback cycle (visited ++ [c])) := by
  have notSent : c.val ∉ sentTo (sys.sharers n lineId) visited := by
    simp only [sentTo, Finset.mem_filter, mem_map, not_and]
    rintro _ ⟨d, mem, eq⟩
    rw [Fin.ext eq] at mem
    exact fresh mem
  have readSharers : c.val ∈ ((entryRef n lineId).read loop.memory).sharers ↔
        c.val ∈ sys.sharers n lineId := by
    simp only [entryRef, ok.sent.self]
    split <;> simp [notSent]
  change Gives (ite (c.val ∈ ((entryRef n lineId).read loop.memory).sharers) _ _) _
  by_cases mem : c.val ∈ sys.sharers n lineId
  · have same : ∀ m, (c.val :: n) <:+ m → loop.memory.caches m = sys.caches m := fun m suffix =>
      ok.sent.child_same notSent suffix
    have sameSlice : ∀ m, (c.val :: n) <:+ m → loop.memory.slice addr m = sys.slice addr m := by
      intro m suffix
      rw [slice_apply, same m suffix]
      rfl
    have childSound : SoundBelow loop.memory (c.val :: n) := by
      intro m suffix
      rw [same m suffix]
      exact sound m (suffix_of_cons_suffix suffix)
    obtain ⟨_, coherent, admits⟩ := ready c.val mem
    have childCoherent : CoherentBelow arity (loop.memory.slice addr) (c.val :: n) := by
      intro m suffix
      rw [sameSlice m suffix]
      apply (coherent m suffix).congr
      intro i
      rw [sameSlice _ (suffix.trans (suffix_cons i m))]
    have childAdmits : InvType.admits type (loop.memory.slice addr (c.val :: n)).state := by
      rwa [sameSlice _ suffix_rfl]
    have dirtySame : Dirty (loop.memory.slice addr) (c.val :: n) ↔
          Dirty (sys.slice addr) (c.val :: n) := by
      constructor
      · rintro ⟨m, suffix, modified⟩
        exact ⟨m, suffix, by rw [← sameSlice m suffix]; exact modified⟩
      · rintro ⟨m, suffix, modified⟩
        exact ⟨m, suffix, by rw [sameSlice m suffix]; exact modified⟩
    rw [if_pos (readSharers.mpr mem)]
    apply Gives.bind (childSpec c loop.memory addr type cycle srcId loop.reqWriteback
        childSound childCoherent childAdmits)
    rintro ⟨next, nextWriteback, childCycle⟩ ⟨localized, lowered, writeback, _⟩
    have appended : sentTo (sys.sharers n lineId) (visited ++ [c]) = insert c.val
            (sentTo (sys.sharers n lineId) visited) := by
      rw [sentTo_append, if_pos mem]
    exact .pure {
      sent := by
        rw [appended]
        exact ok.sent.step notSent localized lowered
      writeback := by
        rw [appended, dirtyUnder_insert, writeback, ok.writeback]
        tauto
      count := by
        rw [appended, Finset.card_insert_of_notMem notSent, ← ok.count]
      cycle := le_max_of_le_right ok.cycle }
  · rw [if_neg (fun read => mem (readSharers.mp read))]
    have appended : sentTo (sys.sharers n lineId) (visited ++ [c]) =
          sentTo (sys.sharers n lineId) visited := by
      rw [sentTo_append, if_neg mem]
    exact .pure {
      sent := by rw [appended]; exact ok.sent
      writeback := by rw [appended]; exact ok.writeback
      count := by rw [appended]; exact ok.count
      cycle := ok.cycle }

theorem sendInvalidates_loop (reqWriteback : Bool) (cycle srcId : Nat) :
    Gives ((List.finRange k).foldlM
        ((cfg.topCC n k child).sendInvalidate addr lineId type cycle srcId)
        ⟨sys, reqWriteback, cycle, 0⟩)
      (LoopOk sys addr n lineId type reqWriteback cycle (List.finRange k)) := by
  have run := Gives.foldlM (α := Fin k) (fun visited rest loop =>
        visited ++ rest = finRange k ∧
          LoopOk sys addr n lineId type reqWriteback cycle visited loop)
      (by
        rintro visited c rest loop ⟨all, ok⟩
        have nodup : (visited ++ c :: rest).Nodup := by
          rw [all]
          exact nodup_finRange k
        have fresh : c ∉ visited := by
          intro mem
          exact (disjoint_of_nodup_append nodup) mem (by simp)
        apply (sendInvalidate_spec cfg childSpec sound ready srcId fresh ok).mono
        intro next nextOk
        exact ⟨by simpa using all, nextOk⟩)
      (finRange k) ⟨sys, reqWriteback, cycle, 0⟩
      ⟨rfl,
        { sent := by simpa [sentTo] using Sent.refl
          writeback := by simp [sentTo, DirtyUnder]
          count := by simp [sentTo]
          cycle := le_rfl }⟩
  apply run.mono
  intro loop holds
  exact holds.2

end SendInvalidates

theorem Localized.refl {sys : Sys A} (sound : SoundBelow sys n) (addr : Address) :
    Localized sys sys addr n where
  outside := fun _ _ => rfl
  sound := sound
  others := fun _ _ _ => rfl
  find := fun _ _ => rfl
  dirty := rfl

/-- The children that an invalidation of the given type goes to. -/
def Line.targets : InvType → Line → Finset Nat
  | .INV, line => line.sharers
  | .INVX, line => if line.owned then line.sharers else ∅
  | .FWD, _ => ∅

/-- The line after its children were invalidated but not the cache itself. -/
def Line.release : InvType → Line → Line
  | .INV, line => ⟨line.state, ∅, false⟩
  | .INVX, line => ⟨line.state, line.sharers, false⟩
  | .FWD, line => line

/-- The effect of `sendInvalidates` on the line of its address. -/
def releaseSlice (type : InvType) (n : Path) (s : Slice) : Slice :=
  update (lowerUnder type n ((s n).targets type) s) n ((s n).release type)

/-- What `sendInvalidates` and the invalidation of a whole cache return. -/
structure Released (sys : Sys A) (addr : Address) (n : Path) (type : InvType)
    (reqWriteback : Bool) (cycle : Nat) (result : Sys A × Bool × Nat) :
    Prop where
  localized : Localized sys result.1 addr n
  slice : result.1.slice addr = releaseSlice type n (sys.slice addr)
  array : (result.1.caches n).array = (sys.caches n).array
  writeback : result.2.1 = true ↔ reqWriteback = true ∨
      DirtyUnder (sys.slice addr) n ((sys.slice addr n).targets type)
  cycle : cycle ≤ result.2.2

section SendInvalidates

variable
    (cfg : Config A) {arity : Path → Nat} {n : Path} {k : Nat} {child : Fin k → Invalidate (Sys A)}
    {sys : Sys A} {addr : Address} {lineId : LineId} {type : InvType}

variable {reqWriteback : Bool} {cycle : Nat}

/-- Nothing has to be sent, and nothing changes. -/
theorem released_refl (sound : SoundBelow sys n) (noTargets : (sys.slice addr n).targets type = ∅)
    (same : (sys.slice addr n).release type = sys.slice addr n) :
    Released sys addr n type reqWriteback cycle (sys, reqWriteback, cycle) where
  localized := Localized.refl sound addr
  slice := by simp only [releaseSlice, noTargets, same, lowerUnder_empty, update_eq_self]
  array := rfl
  writeback := by
    rw [noTargets]
    simp [DirtyUnder]
  cycle := le_rfl

/-- A terminal cache has nobody to invalidate. -/
theorem released_terminal (node : NodeOk (arity n) (sys.slice addr n)
      (fun i => (sys.slice addr (i :: n)).state))
    (isTerminal : arity n = 0) (sound : SoundBelow sys n) :
    Released sys addr n type reqWriteback cycle (sys, reqWriteback, cycle) := by
  have noSharers : (sys.slice addr n).sharers = ∅ := by
    apply Finset.eq_empty_of_forall_notMem
    intro i mem
    have bound := node.inside i mem
    omega
  have notOwned : (sys.slice addr n).owned = false := by
    by_contra owned
    rw [Bool.not_eq_false] at owned
    obtain ⟨i, single, _⟩ := node.owner owned
    rw [noSharers] at single
    exact absurd single.symm (Finset.singleton_ne_empty i)
  apply released_refl sound
  · cases type with
    | INV => exact noSharers
    | INVX => simp only [targets, noSharers, ite_self]
    | FWD => rfl
  · cases type with
    | INV => exact Line.ext rfl noSharers.symm notOwned.symm
    | INVX => exact Line.ext rfl rfl notOwned.symm
    | FWD => rfl

theorem sendInvalidates_spec (childSpec : ∀ c, InvalidateSpec arity (c.val :: n) (child c))
    (sound : SoundBelow sys n) (found : (sys.caches n).Has addr lineId)
    (ready : ∀ i ∈ (sys.slice addr n).targets type,
      i < k ∧ CoherentBelow arity (sys.slice addr) (i :: n) ∧
        InvType.admits type (sys.slice addr (i :: n)).state)
    (notFwd : type ≠ .FWD) (reqWriteback : Bool) (cycle srcId : Nat) :
    Gives ((cfg.topCC n k child).sendInvalidates addr lineId type reqWriteback cycle srcId sys)
      (Released sys addr n type reqWriteback cycle) := by
  have line := line_of_find found
  have entryOk := (sound n suffix_rfl).entry lineId
  change Gives (ite (type = .INVX ∧ ((sys.caches n).entries lineId).isExclusive = false) _ _) _
  split
  next shared =>
    refine .pure ?_
    apply released_refl sound
    · simp [line, targets, shared]
    · simp [line, release, shared]
  next notShared =>
    split
    next isEmpty =>
      have empty := entryOk.isEmpty_iff.mp isEmpty
      have notOwned := entryOk.isExclusive_of_empty empty
      refine .pure ?_
      cases type with
      | INV =>
        apply released_refl sound
        · simp [line, targets, empty]
        · simp [line, release, empty, notOwned]
      | INVX => exact absurd ⟨rfl, notOwned⟩ notShared
      | FWD => exact absurd rfl notFwd
    next notEmpty =>
      have targets : (sys.slice addr n).targets type = sys.sharers n lineId := by
        cases type with
        | INV => simp [line, targets]
        | INVX =>
          have owned : ((sys.caches n).entries lineId).isExclusive = true := by
            simpa using notShared
          simp [line, targets, owned]
        | FWD => exact absurd rfl notFwd
      rw [targets] at ready
      have mem : ∀ i ∈ sys.sharers n lineId, i < k := fun i member => (ready i member).1
      apply Gives.bind (sendInvalidates_loop cfg childSpec sound ready reqWriteback cycle srcId)
      intro loop loopOk
      have sent := loopOk.sent
      have writeback := loopOk.writeback
      have count := loopOk.count
      rw [sentTo_all mem] at sent writeback count
      have entryAfter : ((cfg.topCC n k child).array lineId).read loop.memory =
            ⟨((sys.caches n).entries lineId).numSharers, if type = .INV then ∅
              else sys.sharers n lineId,
              ((sys.caches n).entries lineId).exclusive⟩ := by simp [Config.topCC, sent.self]
      rw [entryAfter]
      apply Gives.check
      · rw [count, ← entryOk.count]
      cases type with
      | INV =>
        exact .pure {
          localized := sent.localized sound found ⟨rfl, by simp⟩
          slice := by
            refine (sent.slice found _).trans ?_
            rw [releaseSlice, targets]
            simp [release, Entry.isExclusive]
          array := sent.write_array _
          writeback := by rw [writeback, targets]
          cycle := loopOk.cycle }
      | INVX =>
        have exclusive : ((sys.caches n).entries lineId).isExclusive = true := by
          simpa using notShared
        simp only [Entry.isExclusive, Bool.and_eq_true, beq_iff_eq] at exclusive
        refine .check exclusive.2 ?_
        refine .check exclusive.1 ?_
        exact .pure {
          localized := sent.localized sound found ⟨entryOk.count, by simp⟩
          slice := by
            refine (sent.slice found _).trans ?_
            rw [releaseSlice, targets]
            simp [release, Entry.isExclusive, line]
          array := sent.write_array _
          writeback := by rw [writeback, targets]
          cycle := loopOk.cycle }
      | FWD => exact absurd rfl notFwd

end SendInvalidates

/-! ## The invalidation of a cache -/

theorem Localized.trans {first second third : Sys A} (left : Localized first second addr n)
    (right : Localized second third addr n) :
    Localized first third addr n where
  outside := fun m outside => by
    rw [right.outside m outside, left.outside m outside]
  sound := right.sound
  others := fun m other ne => by
    rw [right.others m other ne, left.others m other ne]
  find := fun m other => by rw [right.find, left.find]
  dirty := right.dirty.trans left.dirty

/-- The slices of other addresses are untouched. -/
theorem Localized.slice_other {other : Address}
    (localized : Localized before after addr n) (ne : other ≠ addr) :
    after.slice other = before.slice other := by
  funext m
  exact localized.others m other ne

/-- A change below a child is a change below its parent. -/
theorem Localized.up {i : Nat} (localized : Localized before after addr (i :: n))
    (sound : SoundBelow before n) :
    Localized before after addr n where
  outside := fun m outside =>
    localized.outside m fun below => outside (suffix_of_cons_suffix below)
  sound := by
    intro m suffix
    by_cases below : (i :: n) <:+ m
    · exact localized.sound m below
    · rw [localized.outside m below]
      exact sound m suffix
  others := localized.others
  find := localized.find
  dirty := localized.dirty

section Writes

variable {sys : Sys A} {addr : Address} {n : Path} {lineId : LineId}

/-- A write to one cache that keeps it well formed and its other lines. -/
theorem Localized.setCache (sound : SoundBelow sys n) {cache : CacheState A} (ok : CacheOk cache)
    (others : ∀ other, other ≠ addr → cache.line other = (sys.caches n).line other)
    (find : ∀ other, A.find cache.array other = A.find (sys.caches n).array other) :
    Localized sys (sys.setCache n cache) addr n where
  outside := by
    intro m outside
    apply caches_setCache_of_ne
    rintro rfl
    exact outside suffix_rfl
  sound := by
    intro m suffix
    by_cases isSelf : m = n
    · rwa [isSelf, caches_setCache_self]
    · rw [caches_setCache_of_ne _ _ isSelf]
      exact sound m suffix
  others := by
    intro m other ne
    by_cases isSelf : m = n
    · rw [isSelf, caches_setCache_self]
      exact others other ne
    · rw [caches_setCache_of_ne _ _ isSelf]
  find := by
    intro m other
    by_cases isSelf : m = n
    · rw [isSelf, caches_setCache_self]
      exact find other
    · rw [caches_setCache_of_ne _ _ isSelf]
  dirty := rfl

theorem slice_setCache (cache : CacheState A) (other : Address) :
    (sys.setCache n cache).slice other = update (sys.slice other) n (cache.line other) := by
  funext m
  by_cases isSelf : m = n
  · subst isSelf
    simp
  · simp [isSelf]

/-- The memory after a lookup in the array of cache `n`. -/
def Sys.lookup (sys : Sys A) (n : Path) (addr : Address) (update : Bool) : Sys A :=
  (Sys.arrayRef n).write (A.lookup (sys.caches n).array addr update).2 sys

theorem CacheOk.lookup {cache : CacheState A} (ok : CacheOk cache) (update : Bool) :
    CacheOk (cache.setArray (A.lookup cache.array addr update).2) :=
  ok.setArray (A.lookup_wf addr update ok.wf)
    (fun other => CacheArray.find_lookup update other ok.wf) (A.lookup_tag addr update ok.wf)

theorem slice_lookup (ok : CacheOk (sys.caches n)) (update : Bool) (other : Address) :
    (sys.lookup n addr update).slice other = sys.slice other := by
  refine (slice_setCache _ other).trans ?_
  rw [line_setArray fun other => CacheArray.find_lookup update other ok.wf]
  exact update_eq_self n (sys.slice other)

theorem localized_lookup (sound : SoundBelow sys n) (update : Bool) :
    Localized sys (sys.lookup n addr update) addr n := by
  have ok := sound n suffix_rfl
  have find : ∀ other, A.find (A.lookup (sys.caches n).array addr update).2 other =
        A.find (sys.caches n).array other :=
    fun other => CacheArray.find_lookup update other ok.wf
  exact Localized.setCache sound (ok.lookup update) (fun other _ => line_setArray find other) find

/-- The memory after the state of the line was written. -/
theorem localized_stateRef (sound : SoundBelow sys n)
    (found : (sys.caches n).Has addr lineId) (state : MESIState) :
    Localized sys ((Sys.stateRef n lineId).write state sys) addr n := by
  have ok := sound n suffix_rfl
  exact Localized.setCache sound (ok.setState found state)
    (fun _ ne => line_setState_other ok found state ne) (fun _ => rfl)

section

variable (found : (sys.caches n).Has addr lineId)
include found

theorem slice_stateRef (state : MESIState) : ((Sys.stateRef n lineId).write state sys).slice addr =
      update (sys.slice addr) n ((sys.slice addr n).withState state) := by
  refine (slice_setCache _ addr).trans ?_
  rw [line_setState_self found state]
  rfl

omit found in
theorem localized_entryRef (sound : SoundBelow sys n)
    (found : (sys.caches n).Has addr lineId) {entry : Entry}
    (entryOk : EntryOk entry) :
    Localized sys ((Sys.entryRef n lineId).write entry sys) addr n := by
  have ok := sound n suffix_rfl
  exact Localized.setCache sound (ok.setEntry found entryOk)
    (fun _ ne => line_setEntry_other ok found entry ne) (fun _ => rfl)

theorem slice_entryRef (entry : Entry) :
    ((Sys.entryRef n lineId).write entry sys).slice addr = update (sys.slice addr) n
        ⟨(sys.slice addr n).state, entry.sharers, entry.isExclusive⟩ := by
  refine (slice_setCache _ addr).trans ?_
  rw [line_setEntry_self found entry]
  rfl

theorem read_stateRef : (Sys.stateRef n lineId).read sys = (sys.slice addr n).state := by
  rw [slice_apply, line_of_find found]
  rfl

end

/-- A cache that holds the line in a valid state finds it. -/
theorem find_of_valid (valid : (sys.slice addr n).state ≠ .I) :
    ∃ lineId, A.find (sys.caches n).array addr = some lineId := by
  cases found : A.find (sys.caches n).array addr with
  | some lineId => exact ⟨lineId, rfl⟩
  | none =>
    rw [slice_apply, line_of_not_find found] at valid
    exact absurd rfl valid

end Writes

section Lowering

variable {arity : Path → Nat} {s : Slice} {n m : Path} {type : InvType}

theorem InvType.admits_valid {state : MESIState} (admits : InvType.admits type state) :
    state ≠ .I := by
  cases type with
  | INV => exact admits
  | INVX => exact MESIState.ne_I_of_isExclusive admits
  | FWD => exact absurd admits id

theorem InvType.admits_not_fwd {state : MESIState} (admits : InvType.admits type state) :
    type ≠ .FWD := by
  rintro rfl
  exact admits

/-- An invalidation that reaches a cache may be passed on to its targets. -/
theorem DirectoryBelow.ready (ok : DirectoryBelow arity s n)
    (notFwd : type ≠ .FWD) {i : Nat} (target : i ∈ (s n).targets type) :
    i < arity n ∧ CoherentBelow arity s (i :: n) ∧ InvType.admits type (s (i :: n)).state := by
  cases type with
  | INV => exact ⟨ok.inside i target, ok.below i, (ok.sharer i).mp target⟩
  | INVX =>
    simp only [targets] at target
    split at target
    next owned =>
      obtain ⟨j, single, excl⟩ := ok.owner owned
      have isOwner : i = j := by simpa [single] using target
      subst isOwner
      exact ⟨ok.inside i target, ok.below i, excl⟩
    next => simp at target
  | FWD => exact absurd rfl notFwd

variable (ok : CoherentBelow arity s n)
include ok

/-- What is not below a target of the invalidation is already low. -/
theorem CoherentBelow.lower_of_not_target {j : Nat} (suffix : (j :: n) <:+ m)
    (notTarget : j ∉ (s n).targets type) :
    (s m).lower type = s m := by
  have node := ok n suffix_rfl
  have below := ok.descend (suffix_cons j n)
  cases type with
  | INV =>
    have invalid : (s (j :: n)).state = .I := node.child_of_not_sharer notTarget
    rw [below.below_invalid invalid suffix]
    rfl
  | INVX =>
    apply below.lower_shared _ suffix
    by_cases owned : (s n).owned = true
    · simp only [targets, owned] at notTarget
      rw [node.child_of_not_sharer notTarget]
      rfl
    · exact node.child_not_exclusive (by simpa using owned) j
  | FWD => rfl

/-- The whole subtree is lowered once the cache itself is. -/
theorem CoherentBelow.release_lower (suffix : n <:+ m) :
    update (releaseSlice type n s) n ((s n).lower type) m = (s m).lower type := by
  rcases suffix_cases suffix with eq | ⟨j, below⟩
  · rw [eq, update_self]
  have notSelf := ne_of_cons_suffix below
  rw [update_of_ne notSelf, releaseSlice, update_of_ne notSelf]
  by_cases target : j ∈ (s n).targets type
  · exact lowerUnder_of_under ((under_iff_of_suffix below).mpr target)
  · rw [lowerUnder_of_not (fun under => target ((under_iff_of_suffix below).mp under))]
    exact (ok.lower_of_not_target below target).symm

/-- Dirty data below a cache is found at the cache or below its targets. -/
theorem CoherentBelow.dirty_iff (notFwd : type ≠ .FWD) : Dirty s n ↔
      DirtyUnder s n ((s n).targets type) ∨ (s n).state = .M := by
  have node := ok n suffix_rfl
  constructor
  · rintro ⟨m, suffix, modified⟩
    rcases suffix_cases suffix with eq | ⟨j, below⟩
    · rw [eq] at modified
      exact .inr modified
    refine .inl ⟨m, (under_iff_of_suffix below).mpr ?_, modified⟩
    have exclusive : (s (j :: n)).state.isExclusive = true :=
      (ok.descend (suffix_cons j n)).exclusive_of_suffix below (by simp [modified])
    have sharer : j ∈ (s n).sharers := (node.sharer j).mpr (MESIState.ne_I_of_isExclusive exclusive)
    cases type with
    | INV => exact sharer
    | INVX =>
      have owned := (node.exclusive j exclusive).2
      simpa [targets, owned] using sharer
    | FWD => exact absurd rfl notFwd
  · rintro (⟨m, ⟨j, _, below⟩, modified⟩ | modified)
    · exact ⟨m, suffix_of_cons_suffix below, modified⟩
    · exact ⟨n, suffix_rfl, modified⟩

end Lowering

section Invalidate

variable (cfg : Config A) {arity : Path → Nat} {n : Path}
    {sys : Sys A} {addr : Address} {lineId : LineId} {type : InvType}
    {reqWriteback : Bool} {cycle : Nat}

/-- The bottom controller finishes what the top controller began. -/
theorem bottomCC_processInval_spec (coherent : CoherentBelow arity (sys.slice addr) n)
    (admits : type.admits (sys.slice addr n).state)
    (found : (sys.caches n).Has addr lineId) {released : Sys A × Bool × Nat}
    (top : Released sys addr n type reqWriteback cycle released) :
    Gives ((cfg.bottomCC n).processInval lineId type released.2.1 released.1) (fun res =>
        Localized sys res.1 addr n ∧
        (∀ m, n <:+ m → res.1.slice addr m = (sys.slice addr m).lower type) ∧
        (res.2 = true ↔ reqWriteback = true ∨ Dirty (sys.slice addr) n)) := by
  have notFwd := InvType.admits_not_fwd admits
  have foundAfter := (top.localized.find n addr).trans found
  have stateAfter : (stateRef n lineId).read released.1 = (sys.slice addr n).state := by
    rw [read_stateRef foundAfter, top.slice, releaseSlice, update_self]
    cases type <;> rfl
  have written : ∀ state, (sys.slice addr n).lower type =
        ((sys.slice addr n).release type).withState state →
      Localized sys ((stateRef n lineId).write state released.1) addr n ∧
        ∀ m, n <:+ m → ((stateRef n lineId).write state released.1).slice addr m =
            (sys.slice addr m).lower type := by
    intro state lowered
    refine ⟨top.localized.trans (localized_stateRef top.localized.sound foundAfter state), ?_⟩
    intro m suffix
    rw [slice_stateRef foundAfter, top.slice, ← coherent.release_lower suffix, lowered]
    simp [releaseSlice]
  have writeback : (released.2.1 || (sys.slice addr n).state == .M) = true ↔
        reqWriteback = true ∨ Dirty (sys.slice addr) n := by
    rw [Bool.or_eq_true, top.writeback, coherent.dirty_iff notFwd, beq_iff_eq, or_assoc]
  change Gives (check ((stateRef n lineId).read released.1 ≠ .I) _ >>= _) _
  rw [stateAfter]
  refine .check (InvType.admits_valid admits) ?_
  cases type with
  | INVX =>
    have exclusive : (sys.slice addr n).state = .E ∨ (sys.slice addr n).state = .M := by
      revert admits
      cases (sys.slice addr n).state <;> simp [InvType.admits]
    change Gives (check ((stateRef n lineId).read released.1 = .E ∨
        (stateRef n lineId).read released.1 = .M) _ >>= _) _
    rw [stateAfter]
    refine .check exclusive ?_
    refine .pure ?_
    have done := written .S (Line.ext (MESIState.demote_of_isExclusive admits) rfl rfl)
    refine ⟨done.1, done.2, ?_⟩
    rw [← writeback, ← stateAfter]
    rfl
  | INV =>
    refine .pure ?_
    have done := written .I rfl
    refine ⟨done.1, done.2, ?_⟩
    rw [← writeback, ← stateAfter]
    rfl
  | FWD => exact absurd rfl notFwd

/-- The specification of the controller of a cache with `k` children. -/
theorem processInv_spec {k : Nat} {child : Fin k → Invalidate (Sys A)}
    (childSpec : ∀ c, InvalidateSpec arity (c.val :: n) (child c))
    (isArity : arity n = k) (sound : SoundBelow sys n)
    (coherent : CoherentBelow arity (sys.slice addr) n)
    (admits : type.admits (sys.slice addr n).state)
    (found : (sys.caches n).Has addr lineId)
    (reqWriteback : Bool) (reqCycle cycle srcId : Nat) :
    Gives ((cfg.cacheOf n k child).cc.processInv
        ⟨addr, type, reqCycle, srcId⟩ lineId cycle reqWriteback sys)
      (fun res =>
        Localized sys res.1 addr n ∧
        (∀ m, n <:+ m → res.1.slice addr m = (sys.slice addr m).lower type) ∧
        (res.2.1 = true ↔ reqWriteback = true ∨ Dirty (sys.slice addr) n) ∧
        cycle ≤ res.2.2) := by
  have notFwd := InvType.admits_not_fwd admits
  unfold Config.cacheOf
  by_cases isTerminal : k = 0
  · have released : Released sys addr n type reqWriteback cycle (sys, reqWriteback, cycle) :=
      released_terminal (coherent n suffix_rfl) (by omega) sound
    rw [if_pos isTerminal]
    apply (bottomCC_processInval_spec cfg coherent admits found released).bind
    rintro ⟨memory, writeback⟩ ⟨localized, lowered, isWriteback⟩
    exact .pure ⟨localized, lowered, isWriteback, le_rfl⟩
  · rw [if_neg isTerminal]
    have ready := fun i (target : i ∈ (sys.slice addr n).targets type) =>
      isArity ▸ coherent.directory.ready notFwd target
    have top := sendInvalidates_spec cfg childSpec sound found ready notFwd reqWriteback cycle srcId
    have processInval : (cfg.topCC n k child).processInval addr lineId type
            reqWriteback cycle srcId sys =
          (cfg.topCC n k child).sendInvalidates addr lineId type
            reqWriteback cycle srcId sys := by
      rw [MESITopCC.processInval, if_neg notFwd]
    apply (processInval.symm ▸ top).bind
    rintro ⟨memory, topWriteback, respCycle⟩ released
    apply (bottomCC_processInval_spec cfg coherent admits found released).bind
    rintro ⟨final, writeback⟩ ⟨localized, lowered, isWriteback⟩
    exact .pure ⟨localized, lowered, isWriteback, released.cycle⟩

theorem invalidate_spec (tree : Tree) : ∀ n, cfg.tree.sub n = tree →
      InvalidateSpec cfg.arity n (cfg.invalidate tree n) := by
  induction tree with
  | node k child ih =>
    intro n isSub sys addr type cycle srcId reqWriteback sound coherent admits
    have isArity : cfg.arity n = k := by simp [Config.arity, isSub, Tree.arity]
    have childSpec (c : Fin k) :
        InvalidateSpec cfg.arity (c.val :: n) (cfg.invalidate (child c) (c.val :: n)) := by
      apply ih
      simp [Tree.sub, isSub, Tree.descend]
    obtain ⟨lineId, found⟩ := find_of_valid (InvType.admits_valid admits)
    have looked : Localized sys (sys.lookup n addr false) addr n := localized_lookup sound false
    have sameSlice : (sys.lookup n addr false).slice addr = sys.slice addr :=
      slice_lookup (sound n suffix_rfl) false addr
    have foundLooked := (looked.find n addr).trans found
    rw [← sameSlice] at coherent admits
    have inv := processInv_spec cfg childSpec isArity looked.sound coherent
        admits foundLooked reqWriteback cycle (cycle + cfg.invLat n)
        srcId
    rw [Config.invalidate, Cache.invalidate_of_lookup found]
    apply inv.mono
    rintro ⟨memory, writeback, respCycle⟩ ⟨localized, lowered, isWriteback, later⟩
    rw [sameSlice] at lowered isWriteback
    exact ⟨looked.trans localized, lowered, isWriteback, (Nat.le_add_right _ _).trans later⟩

/-- The children of a cache meet the specification of an invalidation. -/
theorem child_spec (n : Path) (c : Nat) :
    InvalidateSpec cfg.arity (c :: n) (cfg.invalidate (cfg.tree.sub (c :: n)) (c :: n)) :=
  invalidate_spec cfg _ (c :: n) rfl

end Invalidate

end Damov.Coherence

end
