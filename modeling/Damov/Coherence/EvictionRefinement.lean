import Damov.Coherence.BottomRefinement

/-!
# Evictions and allocations refine the line protocol

The eviction of a line has the effect of `evict` on the address that the line
holds, whatever line the array chose, and of nothing at all when the line is a
stale one that no address leads to. Inserting the new address afterwards shows
in no line.
-/

noncomputable section

open scoped Classical
open Function

namespace Damov.Coherence

open Library.Checked Sys

variable {A : CacheArray}

/-! ## Evictions -/

/-- The bottom controller gives a line up, over any memory. -/
theorem MESIBottomCC.giveUp_rule
    {Memory : Type} {bcc : MESIBottomCC Memory} {upper : MemObject Memory}
    {addr : Address} {lineId : LineId} {cycle srcId : Nat}
    {memory : Memory} {post : Memory × Nat → Prop}
    (idle : (bcc.array lineId).read memory = .I → post (memory, cycle))
    (puts : ∀ type, AccessType.isGet type = false → type.admits ((bcc.array lineId).read memory) →
      Gives (upper (bcc.request addr lineId type cycle srcId {} memory) memory) (fun res =>
          (bcc.array lineId).read res.1 = .I ∧ post res)) :
    Gives (bcc.giveUp upper addr lineId cycle srcId memory) post := by
  rw [MESIBottomCC.giveUp]
  cases state : (bcc.array lineId).read memory with
  | I =>
    refine .check state ?_
    exact .pure (idle state)
  | S =>
    apply (puts .PUTS rfl (.inl state)).bind
    rintro ⟨after, respCycle⟩ ⟨read, holds⟩
    exact .check read (Gives.pure holds)
  | E =>
    apply (puts .PUTS rfl (.inr state)).bind
    rintro ⟨after, respCycle⟩ ⟨read, holds⟩
    exact .check read (Gives.pure holds)
  | M =>
    apply (puts .PUTX rfl state).bind
    rintro ⟨after, respCycle⟩ ⟨read, holds⟩
    exact .check read (Gives.pure holds)

section Eviction

variable (cfg : Config A) {arity : Path → Nat} {grant : Bool → MESIState}
    {n : Path} {upper : MemObject (Sys A)} {sys : Sys A} {addr : Address} {lineId : LineId}

theorem surrender_self (dirty : Bool) (n : Path) (s : Slice) :
    surrender dirty n s n = (s n).withState .I := by
  cases n with
  | nil => simp only [surrender, update_self]
  | cons i p => exact transact_child

/--
What the eviction of a line leaves behind; `effect` is what happens to the
address that the line holds.
-/
structure Evicted (arity : Path → Nat) (effect : Path → Slice → Slice) (sys : Sys A)
    (n : Path) (lineId : LineId) (memory : Sys A) : Prop where
  good : Good arity memory
  array : (memory.caches n).array = (sys.caches n).array
  dead : (memory.caches n).states lineId = .I ∧ ((memory.caches n).entries lineId).sharers = ∅
  victim : ∀ other, A.find (sys.caches n).array other = some lineId →
      memory.slice other = effect n (sys.slice other)
  others : ∀ other,
    A.find (sys.caches n).array other ≠ some lineId → memory.slice other = sys.slice other
  find : ∀ m, ¬ Above n m → ∀ other,
    A.find (memory.caches m).array other = A.find (sys.caches m).array other

theorem evicted_refl {effect : Path → Slice → Slice} (good : Good arity sys)
    (dead : (sys.caches n).states lineId = .I ∧ sys.sharers n lineId = ∅)
    (noEffect : ∀ s : Slice, s n = ⟨.I, ∅, false⟩ → effect n s = s) :
    Evicted arity effect sys n lineId sys where
  good := good
  array := rfl
  dead := dead
  victim := fun _ found =>
    (noEffect _ ((good.sound n).line_of_dead found dead)).symm
  others := fun _ _ => rfl
  find := fun _ _ _ => rfl

/-- The line is given up to the upper level in the way its state demands. -/
theorem giveUp_rule {post : Sys A × Nat → Prop} {cycle srcId : Nat}
    (found : (sys.caches n).Has addr lineId)
    (idle : (sys.slice addr n).state = .I → post (sys, cycle))
    (puts : ∀ type, AccessType.isGet type = false → type.admits (sys.slice addr n).state →
      Gives (upper ((cfg.bottomCC n).request addr lineId type cycle srcId {} sys) sys) (fun res =>
          (Sys.stateRef n lineId).read res.1 = .I ∧ post res)) :
    Gives ((cfg.bottomCC n).giveUp upper addr lineId cycle srcId sys)
      post := by
  rw [← read_stateRef found] at idle puts
  exact MESIBottomCC.giveUp_rule idle puts

theorem giveUp_spec (upperSpec : UpperSpec arity grant n (cfg.bottomCC n) upper)
    (good : Good arity sys) (found : (sys.caches n).Has addr lineId)
    (recalled : (sys.slice addr n).sharers = ∅) (cycle srcId : Nat) :
    Gives ((cfg.bottomCC n).giveUp upper addr lineId cycle srcId sys)
      (fun res => Evicted arity relinquish sys n lineId res.1) := by
  have line : sys.slice addr n = _ := line_of_find found
  apply giveUp_rule cfg found
  · intro invalid
    have dead : (sys.caches n).states lineId = .I ∧ sys.sharers n lineId = ∅ := by
      rw [line] at invalid recalled
      exact ⟨invalid, recalled⟩
    apply evicted_refl good dead
    intro s absent
    rw [relinquish, if_pos (by rw [absent])]
  · intro type isPut admits
    have req : Requestable arity sys addr n lineId type {} := {
      good := good
      accepted := by simp [isPut]
      found := found
      admits := admits
      recalled := fun _ => recalled
      demand := rfl
      noKeep := fun _ => rfl }
    apply (upperSpec.serves cycle srcId req).mono
    rintro ⟨memory, respCycle⟩ upgraded
    have foundAfter : A.find (memory.caches n).array addr = some lineId := by
      rwa [upgraded.array isPut]
    have slice := upgraded.slice
    rw [if_neg (by simp [isPut])] at slice
    have lineAfter : memory.slice addr n = (sys.slice addr n).withState .I := by
      rw [slice, surrender_self]
    have read := read_stateRef foundAfter
    rw [lineAfter] at read
    refine ⟨read, ?_⟩
    rw [show memory.slice addr n = _ from line_of_find foundAfter] at lineAfter
    exact {
      good := upgraded.good
      array := upgraded.array isPut
      dead := ⟨congrArg Line.state lineAfter, (congrArg Line.sharers lineAfter).trans recalled⟩
      victim := by
        intro other found'
        have isAddress : other = addr := CacheArray.find_injective (good.sound n).wf found' found
        rw [isAddress, slice, relinquish, if_neg (AccessType.valid_of_put isPut admits)]
        congr 1
        exact decide_eq_decide.mpr (AccessType.putx_iff isPut admits)
      others := by
        intro other notFound
        apply upgraded.untouched isPut
        rintro rfl
        exact notFound found
      find := upgraded.find }

/-- The eviction of a line whose children were recalled before. -/
theorem Evicted.recalled {mid memory : Sys A} (good : Good arity sys)
    (localized : Localized sys mid addr n) (array : (mid.caches n).array = (sys.caches n).array)
    (slice : mid.slice addr = recallBelow n (sys.slice addr))
    (found : (sys.caches n).Has addr lineId)
    (evicted : Evicted arity relinquish mid n lineId memory) :
    Evicted arity evict sys n lineId memory where
  good := evicted.good
  array := evicted.array.trans array
  dead := evicted.dead
  victim := by
    intro other found'
    have isAddress : other = addr := CacheArray.find_injective (good.sound n).wf found' found
    rw [evicted.victim other (by rw [array]; exact found'), isAddress, slice]
    rfl
  others := by
    intro other notFound
    have isOther : other ≠ addr := by
      rintro rfl
      exact notFound found
    rw [evicted.others other (by rw [array]; exact notFound), localized.slice_other isOther]
  find := by
    intro m notAbove other
    rw [evicted.find m notAbove other, localized.find]

/-- The bottom controller evicts a line whose children were invalidated. -/
theorem bottomCC_eviction_spec (upperSpec : UpperSpec arity grant n (cfg.bottomCC n) upper)
    (good : Good arity sys)
    (found : (sys.caches n).Has addr lineId) {cycle : Nat}
    {top : Sys A × Bool × Nat}
    (released : Released sys addr n .INV false cycle top) (srcId : Nat) :
    Gives ((cfg.bottomCC n).processEviction upper addr lineId top.2.1 top.2.2 srcId top.1)
      (fun res => Evicted arity evict sys n lineId res.1) := by
  obtain ⟨mid, writeback, evCycle⟩ := top
  have coherent := good.coherent addr
  have foundMid := (released.localized.find n addr).trans found
  have lineMid : mid.slice addr n = ⟨(sys.slice addr n).state, ∅, false⟩ := by
    rw [released.slice, releaseSlice, update_self]
    rfl
  -- both branches leave the recalled line behind
  have rest : ∀ recalled : Sys A, Localized sys recalled addr n →
      (recalled.caches n).array = (sys.caches n).array →
      recalled.slice addr = recallBelow n (sys.slice addr) →
      Gives ((cfg.bottomCC n).giveUp upper addr lineId evCycle srcId recalled)
        (fun res => Evicted arity evict sys n lineId res.1) := by
    intro recalled localized array slice
    have foundRecalled : A.find (recalled.caches n).array addr = some lineId := by
      rwa [array]
    have goodRecalled : Good arity recalled := by
      apply good.localized localized
      · rw [slice]
        exact coherent.recall n
      · intro _ modified
        rw [slice]
        exact modified.recall n
    apply (giveUp_spec cfg upperSpec goodRecalled foundRecalled
      (by rw [slice]; exact recall_self) evCycle srcId).mono
    intro res evicted
    exact evicted.recalled good localized array slice found
  cases writeback with
  | true =>
    have dirty : DirtyUnder (sys.slice addr) n (sys.slice addr n).sharers :=
      (released.writeback.mp rfl).resolve_left (by simp)
    have exclusive := coherent.exclusive_of_dirtyUnder dirty
    have kind : (stateRef n lineId).read mid = .M ∨ (stateRef n lineId).read mid = .E := by
      rw [read_stateRef foundMid, lineMid]
      revert exclusive
      cases (sys.slice addr n).state <;> simp
    refine .check kind ?_
    apply rest
    · exact released.localized.trans (localized_stateRef released.localized.sound foundMid .M)
    · exact (arrays_stateRef .M n).trans released.array
    · refine (slice_stateRef foundMid .M).trans ?_
      rw [lineMid, released.slice, releaseSlice, recallBelow, if_pos dirty, update_idem]
      rfl
  | false =>
    have clean : ¬ DirtyUnder (sys.slice addr) n (sys.slice addr n).sharers := by
      intro dirty
      exact absurd (released.writeback.mpr (.inr dirty)) (by simp)
    apply rest _ released.localized released.array
    rw [released.slice, recallBelow, if_neg clean]
    rfl

section Controller

variable {k : Nat} {child : Fin k → Invalidate (Sys A)}
    (childSpec : ∀ c, InvalidateSpec arity (c.val :: n) (child c)) (isArity : arity n = k)
    (noHack : cfg.nonInclusiveHack n = false)
    (upperSpec : UpperSpec arity grant n (cfg.bottomCC n) upper) (good : Good arity sys)

include childSpec isArity noHack upperSpec good

/-- A cache evicts a line that its own address leads to. -/
theorem processEviction_live (found : (sys.caches n).Has addr lineId)
    (req : MemReq (Sys A)) (cycle : Nat) :
    Gives ((cfg.cacheOf n k child).cc.processEviction upper req addr lineId cycle sys)
      (fun res => Evicted arity evict sys n lineId res.1) := by
  have coherent := good.coherent addr
  unfold Config.cacheOf
  by_cases isTerminal : k = 0
  · have released : Released sys addr n .INV false cycle (sys, false, cycle) :=
      released_terminal (coherent n) (by omega) (good.below n)
    rw [if_pos isTerminal]
    exact bottomCC_eviction_spec cfg upperSpec good found released req.srcId
  rw [if_neg isTerminal]
  have notFwd : InvType.INV ≠ .FWD := by simp
  have top := sendInvalidates_spec cfg childSpec (good.below n) found (fun i target =>
        isArity ▸ (coherent.toBelow n).directory.ready notFwd target)
      notFwd false cycle req.srcId
  have processEviction : (cfg.topCC n k child).processEviction addr lineId false cycle
          req.srcId sys =
        (cfg.topCC n k child).sendInvalidates addr lineId .INV false cycle req.srcId sys := by
    rw [MESITopCC.processEviction, if_neg (by simp [Config.topCC, noHack])]
  apply (processEviction.symm ▸ top).bind
  intro res released
  exact bottomCC_eviction_spec cfg upperSpec good found released req.srcId

omit childSpec isArity upperSpec in
/-- A cache evicts a line that holds nothing. -/
theorem processEviction_dead (dead : (sys.caches n).states lineId = .I ∧ sys.sharers n lineId = ∅)
    (req : MemReq (Sys A)) (cycle : Nat) :
    Gives ((cfg.cacheOf n k child).cc.processEviction upper req addr lineId cycle sys)
      (fun res => Evicted arity evict sys n lineId res.1) := by
  have evicted : Evicted arity evict sys n lineId sys :=
    evicted_refl good dead (fun _ => evict_absent)
  have bottom (cycle) :
      (cfg.bottomCC n).giveUp upper addr lineId cycle req.srcId sys = .ok (sys, cycle) := by
    apply MESIBottomCC.giveUp_invalid
    exact dead.1
  have isEmpty : ((sys.caches n).entries lineId).isEmpty = true :=
    ((good.sound n).entry lineId).isEmpty_iff.mpr dead.2
  have top : (cfg.topCC n k child).processEviction addr lineId false cycle req.srcId sys =
        .ok (sys, false, cycle) := by
    rw [MESITopCC.processEviction, if_neg (by simp [Config.topCC, noHack])]
    exact MESITopCC.sendInvalidates_empty _ _ _ _ isEmpty
  unfold Config.cacheOf
  by_cases isTerminal : k = 0
  · rw [if_pos isTerminal]
    exact ⟨_, bottom cycle, evicted⟩
  · rw [if_neg isTerminal]
    apply Gives.bind ⟨_, top, rfl⟩
    rintro _ rfl
    exact ⟨_, bottom cycle, evicted⟩

/-- A cache evicts the line that its array chose. -/
theorem processEviction_spec (lineId : LineId) (req : MemReq (Sys A)) (cycle : Nat) :
    Gives ((cfg.cacheOf n k child).cc.processEviction upper req
        (A.tag (sys.caches n).array lineId) lineId cycle sys)
      (fun res => Evicted arity evict sys n lineId res.1) := by
  rcases (good.sound n).live lineId with found | dead
  · exact processEviction_live cfg childSpec isArity noHack upperSpec good found req cycle
  · exact processEviction_dead cfg noHack good dead req cycle

end Controller

end Eviction

/-! ## The array of a cache -/

section Locate

variable (cfg : Config A) {arity : Path → Nat} {grant : Bool → MESIState}
    {n : Path} {upper : MemObject (Sys A)} {sys : Sys A} {addr : Address}

/-- A change of one cache that no line shows. -/
theorem Good.setCache (good : Good arity sys) {cache : CacheState A} (ok : CacheOk cache)
    (lines : ∀ other, cache.line other = (sys.caches n).line other) :
    Good arity (sys.setCache n cache) ∧
      ∀ other, (sys.setCache n cache).slice other = sys.slice other := by
  have slices (other) : (sys.setCache n cache).slice other = sys.slice other := by
    rw [slice_setCache, lines]
    exact update_eq_self n (sys.slice other)
  refine ⟨⟨?_, ?_, ?_⟩, slices⟩
  · intro m
    by_cases isSelf : m = n
    · rwa [isSelf, caches_setCache_self]
    · rw [caches_setCache_of_ne _ _ isSelf]
      exact good.sound m
  · intro other
    rw [slices]
    exact good.coherent other
  · intro other dirty
    rw [slices]
    exact good.covered other dirty

/-- A lookup shows in no line. -/
theorem Good.lookup (good : Good arity sys) (n : Path) (addr : Address) (update : Bool) :
    Good arity (sys.lookup n addr update) ∧
      (∀ other, (sys.lookup n addr update).slice other = sys.slice other) ∧
      ∀ m other, A.find ((sys.lookup n addr update).caches m).array other =
          A.find (sys.caches m).array other := by
  have ok := good.sound n
  rcases good.setCache (ok.lookup update)
    (line_setArray fun other => CacheArray.find_lookup update other ok.wf)
    with ⟨goodLooked, slices⟩
  exact ⟨goodLooked, slices, (localized_lookup (good.below n) update).find⟩

variable {k : Nat} {child : Fin k → Invalidate (Sys A)} {req : MemReq (Sys A)} {lineId : LineId}

theorem cacheOf_shouldAllocate (isGet : req.type.isGet = true) :
    (cfg.cacheOf n k child).cc.shouldAllocate req = .ok true := by
  unfold Config.cacheOf
  cases isType : req.type <;> simp [isType, AccessType.isGet] at isGet <;>
    split <;> simp [CC.shouldAllocate, isType, pure, Except.pure]

/-- The lookup of a line that the array holds, over any memory. -/
theorem Cache.locate_found {Memory : Type} {cache : Cache A Memory}
    {upper : MemObject Memory} {memory : Memory} {req : MemReq Memory}
    (wf : A.Wf (cache.array.read memory))
    (found : A.find (cache.array.read memory) req.lineAddr = some lineId) (respCycle : Nat) :
    cache.locate upper req respCycle memory = .ok (some lineId,
        cache.array.write (A.lookup (cache.array.read memory) req.lineAddr
            (decide (req.type = .GETS ∨ req.type = .GETX))).2 memory) :=
  Cache.locate_of_lookup ((A.lookup_result _ _ wf).trans found)

theorem locate_found (wf : A.Wf (sys.caches n).array)
    (found : A.find (sys.caches n).array req.lineAddr = some lineId) (respCycle : Nat) :
    (cfg.cacheOf n k child).locate upper req respCycle sys =
      .ok (some lineId, sys.lookup n req.lineAddr (decide (req.type = .GETS ∨ req.type = .GETX))) :=
  Cache.locate_found wf found respCycle

/-- What looking a line up and allocating it leaves behind. -/
structure Located (arity : Path → Nat) (sys : Sys A) (addr : Address) (n : Path)
    (lineId : LineId) (memory : Sys A) : Prop where
  good : Good arity memory
  found : A.find (memory.caches n).array addr = some lineId
  slice : memory.slice addr = sys.slice addr
  others : ∀ other, memory.slice other = sys.slice other ∨
    memory.slice other = evict n (sys.slice other)
  find : ∀ m, ¬ Above n m → m ≠ n → ∀ other,
    A.find (memory.caches m).array other = A.find (sys.caches m).array other

section Allocate

variable {k : Nat} {child : Fin k → Invalidate (Sys A)}
    (childSpec : ∀ c, InvalidateSpec arity (c.val :: n) (child c)) (isArity : arity n = k)
    (noHack : cfg.nonInclusiveHack n = false)
    (upperSpec : UpperSpec arity grant n (cfg.bottomCC n) upper)
    (good : Good arity sys) {req : MemReq (Sys A)} (accepted : A.accepts req.lineAddr)

include childSpec isArity noHack upperSpec good accepted

theorem allocate_spec (missing : A.find (sys.caches n).array req.lineAddr = none)
    (respCycle : Nat) :
    Gives ((cfg.cacheOf n k child).allocate upper req respCycle sys) (fun res =>
        Located arity sys req.lineAddr n res.1 res.2) := by
  let chosen := A.preinsert (sys.caches n).array req.lineAddr
  have ok := good.sound n
  have wf := A.preinsert_wf ok.wf accepted missing
  have tag := A.preinsert_tag ok.wf accepted missing
  have keeps : ∀ other, A.find chosen.2.2 other = A.find (sys.caches n).array other :=
    fun other => A.preinsert_keeps other ok.wf accepted missing
  have armed := A.preinsert_armed ok.wf accepted missing
  have victim := A.preinsert_victim ok.wf accepted missing
  obtain ⟨goodChosen, slicesChosen⟩ :=
    good.setCache (ok.setArray wf keeps tag) (line_setArray keeps)
  have evict := processEviction_spec cfg childSpec isArity noHack upperSpec goodChosen chosen.1
    req respCycle
  have victimTag : A.tag ((sys.setCache n ((sys.caches n).setArray chosen.2.2)).caches n).array
      chosen.1 = chosen.2.1 := by
    rw [caches_setCache_self, victim]
    exact congrFun tag _
  rw [victimTag] at evict
  apply evict.bind
  rintro ⟨memory, evCycle⟩ evicted
  refine .pure ?_
  have array : (memory.caches n).array = chosen.2.2 := by
    rw [evicted.array, caches_setCache_self]
    rfl
  have missingAfter : A.find (memory.caches n).array req.lineAddr = none := by
    rwa [array, keeps]
  have armedAfter : A.Armed (memory.caches n).array req.lineAddr chosen.1 := by rwa [array]
  have okAfter := evicted.good.sound n
  rcases evicted.good.setCache (okAfter.insert accepted missingAfter armedAfter)
    (line_insert okAfter accepted missingAfter armedAfter evicted.dead) with
    ⟨goodFinal, slicesFinal⟩
  exact {
    good := goodFinal
    found := by
      refine (congrArg (fun cache => A.find cache.array req.lineAddr)
        (caches_setCache_self _ _ _)).trans ?_
      exact A.postinsert_lookup okAfter.wf accepted missingAfter armedAfter
    slice := by
      refine (slicesFinal req.lineAddr).trans ?_
      rw [evicted.others, slicesChosen]
      rw [caches_setCache_self]
      simp only [CacheState.setArray]
      rw [keeps, missing]
      simp
    others := by
      intro other
      by_cases isVictim : A.find ((sys.setCache n
          ((sys.caches n).setArray chosen.2.2)).caches n).array other = some chosen.1
      · exact .inr ((slicesFinal other).trans ((evicted.victim other isVictim).trans
            (congrArg (Coherence.evict n) (slicesChosen other))))
      · exact .inl ((slicesFinal other).trans
          ((evicted.others other isVictim).trans (slicesChosen other)))
    find := by
      intro m notAbove notSelf other
      refine (congrArg (fun cache => A.find cache.array other)
        (caches_setCache_of_ne _ _ notSelf)).trans ?_
      rw [evicted.find m notAbove, caches_setCache_of_ne _ _ notSelf] }

theorem locate_spec (isGet : req.type.isGet = true) (respCycle : Nat) :
    Gives ((cfg.cacheOf n k child).locate upper req respCycle sys)
      (fun res => ∃ lineId, res.1 = some lineId ∧
        Located arity sys req.lineAddr n lineId res.2) := by
  obtain ⟨goodLooked, slices, finds⟩ :=
    good.lookup n req.lineAddr (decide (req.type = .GETS ∨ req.type = .GETX))
  cases found : A.find (sys.caches n).array req.lineAddr with
  | some lineId =>
    refine ⟨_, locate_found cfg (good.sound n).wf found respCycle, lineId, rfl, ?_⟩
    exact {
      good := goodLooked
      found := (finds n _).trans found
      slice := slices _
      others := fun other => .inl (slices other)
      find := fun m _ _ other => finds m other }
  | none =>
    have lookup : (A.lookup (sys.caches n).array req.lineAddr
          (decide (req.type = .GETS ∨ req.type = .GETX))).1 = none :=
      (A.lookup_result _ _ (good.sound n).wf).trans found
    rw [Cache.locate_of_miss lookup (cacheOf_shouldAllocate cfg isGet)]
    apply Gives.bind (allocate_spec cfg childSpec isArity noHack upperSpec goodLooked
        accepted ((finds n _).trans found) respCycle)
    rintro ⟨lineId, memory⟩ located
    apply Gives.ok
    exact ⟨lineId, rfl,
      { good := located.good
        found := located.found
        slice := located.slice.trans (slices _)
        others := fun other => by
          rw [← slices other]
          exact located.others other
        find := fun m notAbove notSelf other =>
          (located.find m notAbove notSelf other).trans (finds m other) }⟩

end Allocate

end Locate

end Damov.Coherence

end
