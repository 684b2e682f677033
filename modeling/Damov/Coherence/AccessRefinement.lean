import Damov.Coherence.EvictionRefinement

/-!
# Accesses refine the line protocol

A request that a cache serves has the effect of one transaction of the line
protocol on its address, and of evictions above the requester on the others. A
cache whose own upper level meets the contract meets it for its children, so the
contract holds along every path.
-/

noncomputable section

open scoped Classical
open Function

namespace Damov.Coherence

open Library.Checked List

variable {A : CacheArray}

/-! ## A request of a child -/

section Present

variable (cfg : Config A) {arity : Path → Nat} {n : Path} {i : Nat}
    {sys : Sys A} {addr : Address} {lineId childLine : LineId} {service : Service} {cycle : Nat}

theorem processWritebackOnAccess_spec (sound : SoundBelow sys n)
    (found : (sys.caches n).Has addr lineId)
    (excl : (sys.slice addr n).state.isExclusive = true) :
    Gives ((cfg.bottomCC n).processWritebackOnAccess lineId sys) (fun memory =>
        Localized sys memory addr n ∧
        memory.slice addr = update (sys.slice addr) n ((sys.slice addr n).withState .M) ∧
        ∀ m, (memory.caches m).array = (sys.caches m).array) := by
  have kind : (sys.slice addr n).state = .M ∨ (sys.slice addr n).state = .E := by
    revert excl
    cases (sys.slice addr n).state <;> simp
  change Gives (check ((Sys.stateRef n lineId).read sys = .M ∨
      (Sys.stateRef n lineId).read sys = .E) _ >>= fun _ =>
        ite ((Sys.stateRef n lineId).read sys = .E) _ _) _
  rw [read_stateRef found]
  refine .check kind ?_
  split
  next isE =>
    exact .pure ⟨localized_stateRef sound found .M, slice_stateRef found .M, arrays_stateRef .M⟩
  next notE =>
    have same : (sys.slice addr n).withState .M = sys.slice addr n :=
      Line.ext (kind.resolve_right notE).symm rfl rfl
    refine .pure ⟨Localized.refl sound addr, ?_, fun _ => rfl⟩
    rw [same, update_eq_self]

/-- The dirty data that an access recalls is left in the cache. -/
theorem writeback_spec (excl : DirtyUnder (sys.slice addr) n service.targets →
      (sys.slice addr n).state.isExclusive = true)
    (found : (sys.caches n).Has addr lineId) {res : Sys A × Bool × Nat}
    (answered : Answered sys addr n i service cycle res) :
    Gives (if res.2.1 = true then do
        let memory ← (cfg.bottomCC n).processWritebackOnAccess lineId res.1
        pure (memory, res.2.2)
      else
        pure (res.1, res.2.2))
      (fun final =>
        Localized sys final.1 addr n ∧
        final.1.slice addr = service.apply (service.collect n (sys.slice addr)) n i
            (sys.slice addr) ∧
        (final.1.caches (i :: n)).array = (res.1.caches (i :: n)).array ∧
        cycle ≤ final.2) := by
  obtain ⟨memory, writeback, respCycle⟩ := res
  have foundAfter := (answered.localized.find n addr).trans found
  have lineAfter :
      memory.slice addr n = ⟨(sys.slice addr n).state, service.sharers, service.owned⟩ := by
    rw [answered.slice]
    exact transact_self
  split
  next isWriteback =>
    have dirty := answered.writeback.mp isWriteback
    have exclusiveAfter : (memory.slice addr n).state.isExclusive = true := by
      rw [lineAfter]
      exact excl dirty
    have collect : service.collect n (sys.slice addr) = .M := if_pos dirty
    rw [collect]
    apply Gives.bind (processWritebackOnAccess_spec cfg answered.localized.sound
        foundAfter exclusiveAfter)
    rintro final ⟨localized, slice, arrays⟩
    refine .pure ⟨answered.localized.trans localized, ?_, arrays _, answered.cycle⟩
    rw [slice, lineAfter, answered.slice]
    exact transact_update_self
  next notWriteback =>
    have clean : ¬ DirtyUnder (sys.slice addr) n service.targets :=
      fun dirty => notWriteback (answered.writeback.mpr dirty)
    have collect : service.collect n (sys.slice addr) = (sys.slice addr n).state := if_neg clean
    rw [collect]
    exact .pure ⟨answered.localized, answered.slice, rfl, answered.cycle⟩

/-- The transaction of a `PUTS` or `PUTX`, dirty data included. -/
theorem service_put {type : AccessType} {noexcl : Bool} {s mid : Slice} (isPut : type.isGet = false)
    (isMid : mid = update s n ((s n).withState (if type = .PUTX then .M else (s n).state))) :
    (Coherence.service type noexcl i (mid n)).apply
        ((Coherence.service type noexcl i (mid n)).collect n mid) n i mid =
      put (decide (type = .PUTX)) n i s := by
  subst isMid
  cases type with
  | PUTS | PUTX =>
    simp [Coherence.service, Service.apply, Service.collect, put, transact]
  | _ => cases isPut

section Serve

variable {k : Nat} {child : Fin k → Invalidate (Sys A)}
    {grant : Bool → MESIState} {upper : MemObject (Sys A)} {type : AccessType} {flags : Flags}
    (childSpec : ∀ c, InvalidateSpec arity (c.val :: n) (child c))
    (isArity : arity n = k) (noBypass : cfg.bypass n = false)
    (found : (sys.caches n).Has addr lineId)
    (req : Requestable arity sys addr (i :: n) childLine type flags)

include childSpec isArity noBypass found req

/-- The two controllers of a cache serve a `GETS` or `GETX` of a child. -/
theorem serve_get_spec (upperSpec : UpperSpec arity grant n (cfg.bottomCC n) upper)
    (grants : Grants grant) (inTree : InTree arity (i :: n))
    (isGet : type.isGet = true) (reqCycle cycle srcId : Nat) (initialState : MESIState) :
    Gives (CC.processPresent (cfg.topCC n k child) (cfg.bottomCC n) upper
        ⟨addr, type, i, Sys.stateRef (i :: n) childLine, reqCycle, initialState, srcId, flags⟩
        lineId cycle sys)
      (Upgraded arity grant sys addr (i :: n) type flags.NOEXCL cycle) := by
  have coherent := req.good.coherent addr
  have fetched := fetch_correct flags.NOEXCL isGet (grants flags.NOEXCL) coherent inTree.2
  refine .check (.inl req.demand) ?_
  apply Gives.bind (bottomCC_get_spec cfg upperSpec grants inTree.2 req.good
      (req.accepted isGet) found isGet rfl noBypass cycle srcId)
  rintro ⟨mid, midCycle⟩ obtained
  have sliceMid : mid.slice addr = fetch (grant flags.NOEXCL) type flags.NOEXCL n
          (sys.slice addr) := obtained.slice_eq
  have childSlice : mid.slice addr (i :: n) = sys.slice addr (i :: n) := by
    rw [sliceMid]
    exact fetched.below _ (suffix_cons i n) (cons_ne_self i n)
  have foundMid := (obtained.find n (not_above_of_suffix suffix_rfl) addr).trans found
  have foundChild := (obtained.find _ (not_above_of_suffix (suffix_cons i n)) addr).trans req.found
  have admits : type.admits (mid.slice addr (i :: n)).state := by
    rw [childSlice]
    exact req.admits
  have ready : type.fetched (mid.slice addr n).state := by
    rw [sliceMid]
    exact fetched.ready
  have midCoherent := obtained.good.coherent addr
  change Gives (ite (flags.PREFETCH = true) _ _) _
  rw [if_neg (by simp [req.demand])]
  apply Gives.bind (topCC_processAccess_spec cfg childSpec isArity
      (obtained.good.below n) (midCoherent.toBelow n).directory foundMid
      foundChild (fun _ => ready) admits midCycle srcId (by
        rintro rfl
        simp [AccessType.isGet] at isGet))
  rintro res ⟨answered, _⟩
  apply (writeback_spec cfg midCoherent.exclusive_of_dirtyUnder foundMid answered).mono
  rintro ⟨final, finalCycle⟩ ⟨localized, slice, _, later⟩
  rw [← serve_eq_service flags.NOEXCL isGet ready] at slice
  have isMiss := AccessType.misses_of_admits isGet admits
  exact {
    good := by
      apply obtained.good.localized localized
      · rw [slice]
        exact midCoherent.serve flags.NOEXCL isGet inTree.1 ready isMiss
      · intro _ modified
        rw [slice]
        exact modified.serve flags.NOEXCL ready isMiss
    slice := by
      rw [if_pos isGet, slice, sliceMid]
      rfl
    find := by
      intro m notAbove other
      rw [localized.find, obtained.find m (fun above => notAbove (above_cons.mpr (.inr above)))]
    others := by
      intro other ne
      rw [localized.slice_other ne]
      exact (obtained.others other ne).child i
    untouched := by simp [isGet]
    array := by simp [isGet]
    cycle := obtained.cycle.trans later }

/-- The two controllers of a cache serve a `PUTS` or `PUTX` of a child. -/
theorem serve_put_spec (isPut : type.isGet = false) (reqCycle cycle srcId : Nat)
    (initialState : MESIState) :
    Gives (CC.processPresent (cfg.topCC n k child) (cfg.bottomCC n) upper
        ⟨addr, type, i, Sys.stateRef (i :: n) childLine, reqCycle, initialState, srcId, flags⟩
        lineId cycle sys)
      (Upgraded arity grant sys addr (i :: n) type flags.NOEXCL cycle) := by
  have coherent := req.good.coherent addr
  have childValid := AccessType.valid_of_put isPut req.admits
  have sharer := (coherent n).sharer i |>.mpr childValid
  have valid := (coherent n).inclusion i sharer
  have exclusive : type = .PUTX → (sys.slice addr n).state.isExclusive = true := by
    rintro rfl
    have isModified : (sys.slice addr (i :: n)).state = .M := req.admits
    exact ((coherent n).exclusive i (by simp only [isModified]; rfl)).1
  refine .check (.inl req.demand) ?_
  apply Gives.bind (bottomCC_put_spec cfg noBypass req.good found isPut valid exclusive cycle srcId)
  rintro ⟨mid, midCycle⟩ ⟨obtained, entered, arrays⟩
  have sliceMid : mid.slice addr = update (sys.slice addr) n
          ((sys.slice addr n).withState (if type = .PUTX then .M
            else (sys.slice addr n).state)) := obtained.slice_eq
  have childSlice : mid.slice addr (i :: n) = sys.slice addr (i :: n) := by
    rw [sliceMid, update_of_ne (cons_ne_self i n)]
  have foundMid : A.find (mid.caches n).array addr = some lineId := by
    rwa [arrays]
  have foundChild : A.find (mid.caches (i :: n)).array addr = some childLine := by
    rw [arrays]
    exact req.found
  have admits : type.admits (mid.slice addr (i :: n)).state := by
    rw [childSlice]
    exact req.admits
  have midCoherent := obtained.good.coherent addr
  change Gives (ite (flags.PREFETCH = true) _ _) _
  rw [if_neg (by simp [req.demand])]
  apply Gives.bind (topCC_processAccess_spec cfg childSpec isArity
      (obtained.good.below n) (midCoherent.toBelow n).directory foundMid
      foundChild (by simp [isPut]) admits midCycle srcId req.noKeep)
  rintro res ⟨answered, childArray⟩
  apply (writeback_spec cfg midCoherent.exclusive_of_dirtyUnder foundMid answered).mono
  rintro ⟨final, finalCycle⟩ ⟨localized, slice, finalArray, later⟩
  have putSlice : final.slice addr = put (decide (type = .PUTX)) n i (sys.slice addr) := by
    rw [slice]
    exact service_put isPut sliceMid
  have whole := entered.trans localized
  exact {
    good := by
      apply req.good.localized whole
      · rw [putSlice]
        apply coherent.put childValid (req.recalled isPut)
        intro dirty
        exact exclusive (of_decide_eq_true dirty)
      · intro _ modified
        rw [putSlice]
        apply modified.surrender
        intro isModified
        have isPutx := req.admits
        rw [isModified] at isPutx
        cases type <;> simp [AccessType.admits] at isPutx ⊢
    slice := by
      rwa [if_neg (by simp [isPut])]
    find := fun m _ other => whole.find m other
    others := fun other ne =>
      EvictedAbove.of_eq (whole.slice_other ne)
    untouched := fun _ other ne => whole.slice_other ne
    array := fun _ =>
      finalArray.trans ((childArray isPut).trans (arrays _))
    cycle := obtained.cycle.trans later }

end Serve

end Present

/-! ## The access of a cache -/

section Access

variable (cfg : Config A) {grant : Bool → MESIState} {n : Path} {i : Nat}
    {upper : MemObject (Sys A)} {sys mid : Sys A} {addr : Address}
    {childLine : LineId} {type served : AccessType} {flags : Flags} {cycle later : Nat}

/-- A service after a change that the requested line does not show. -/
theorem Upgraded.before {arity : Path → Nat} {noexcl : Bool} {res : Sys A × Nat}
    (upgraded : Upgraded arity grant mid addr n type noexcl later res)
    (slice : mid.slice addr = sys.slice addr) (find : ∀ m, ¬ Above n m → ∀ other,
      A.find (mid.caches m).array other = A.find (sys.caches m).array other)
    (others : ∀ other, other ≠ addr → EvictedAbove n (sys.slice other) (mid.slice other))
    (untouched : type.isGet = false → ∀ other, mid.slice other = sys.slice other)
    (array : type.isGet = false → (mid.caches n).array = (sys.caches n).array)
    (isLater : cycle ≤ later) :
    Upgraded arity grant sys addr n type noexcl cycle res where
  good := upgraded.good
  slice := by rw [upgraded.slice, slice]
  find := fun m notAbove other =>
    (upgraded.find m notAbove other).trans (find m notAbove other)
  others := fun other ne =>
    (others other ne).trans (upgraded.others other ne)
  untouched := fun isPut other ne =>
    (upgraded.untouched isPut other ne).trans (untouched isPut other)
  array := fun isPut => (upgraded.array isPut).trans (array isPut)
  cycle := isLater.trans upgraded.cycle

/-- The controller of a cache with children. -/
theorem cacheOf_cc {k : Nat} {child : Fin k → Invalidate (Sys A)} (hasChildren : k ≠ 0) :
    (cfg.cacheOf n k child).cc = .MESICC (cfg.topCC n k child) (cfg.bottomCC n) :=
  if_neg hasChildren

section Child

variable (noHack : cfg.nonInclusiveHack n = false) (noBypass : cfg.bypass n = false)
    (inTree : InTree cfg.arity (i :: n))
    (req : Requestable cfg.arity sys addr (i :: n) childLine served flags)

include noHack noBypass inTree req

theorem perform_get_spec (upperSpec : UpperSpec cfg.arity grant n (cfg.bottomCC n) upper)
    (grants : Grants grant) (isGet : served.isGet = true)
    (cycle srcId : Nat) (initialState : MESIState) :
    Gives ((cfg.cache n).perform upper
        ⟨addr, served, i, Sys.stateRef (i :: n) childLine, cycle, initialState, srcId, flags⟩ sys)
      (Upgraded cfg.arity grant sys addr (i :: n) served flags.NOEXCL cycle) := by
  have childSpec := fun c : Fin (cfg.arity n) =>
    child_spec cfg n c.val
  have hasChildren : cfg.arity n ≠ 0 := Nat.ne_zero_of_lt inTree.1
  have notPut : ¬ (served = .PUTS ∨ served = .PUTX) := by
    rintro (rfl | rfl) <;> simp [AccessType.isGet] at isGet
  apply Gives.bind (locate_spec cfg childSpec rfl noHack upperSpec req.good
      (req.accepted isGet) isGet (cycle + cfg.accLat n))
  rintro ⟨_, memory⟩ ⟨lineId, rfl, located⟩
  have find : ∀ m, ¬ Above (i :: n) m → ∀ other, A.find (memory.caches m).array other =
        A.find (sys.caches m).array other := by
    intro m notAbove other
    exact located.find m (fun above => notAbove (above_cons.mpr (.inr above)))
      (fun eq => notAbove (above_cons.mpr (.inl eq))) other
  have reqLocated : Requestable cfg.arity memory addr (i :: n) childLine served
        flags :=
    { req with
      good := located.good
      found := (find _ (not_above_of_suffix suffix_rfl) addr).trans req.found
      admits := by
        rw [located.slice]
        exact req.admits
      recalled := by simp [isGet] }
  have present := serve_get_spec cfg childSpec rfl noBypass located.found reqLocated
      upperSpec grants inTree isGet cycle (cycle + cfg.accLat n) srcId
      initialState
  simp only [Config.cache, cacheOf_cc cfg hasChildren]
  change Gives (ite ((served = .PUTS ∨ served = .PUTX) ∧ _ ∧ _) _ _) _
  rw [if_neg (fun isPut => notPut isPut.1)]
  apply present.mono
  intro res upgraded
  have others : ∀ other, other ≠ addr →
      EvictedAbove (i :: n) (sys.slice other) (memory.slice other) := by
    intro other _
    rcases located.others other with same | evicted
    · exact EvictedAbove.of_eq same
    · rw [show memory.slice other = _ from evicted]
      exact EvictedAbove.parent n i _
  exact upgraded.before located.slice find others (by simp [isGet])
    (by simp [isGet]) (Nat.le_add_right _ _)

omit noHack in
theorem perform_put_spec (isPut : served.isGet = false)
    (cycle srcId : Nat) (initialState : MESIState) :
    Gives ((cfg.cache n).perform upper
        ⟨addr, served, i, Sys.stateRef (i :: n) childLine, cycle, initialState, srcId, flags⟩ sys)
      (Upgraded cfg.arity grant sys addr (i :: n) served flags.NOEXCL cycle) := by
  have childSpec := fun c : Fin (cfg.arity n) =>
    child_spec cfg n c.val
  have hasChildren : cfg.arity n ≠ 0 := Nat.ne_zero_of_lt inTree.1
  have coherent := req.good.coherent addr
  have childValid := AccessType.valid_of_put isPut req.admits
  have valid := (coherent n).inclusion i (((coherent n).sharer i).mpr childValid)
  obtain ⟨lineId, found⟩ := find_of_valid valid
  obtain ⟨goodLooked, slices, finds⟩ :=
    req.good.lookup n addr (decide (served = .GETS ∨ served = .GETX))
  have childSame : (sys.lookup n addr (decide (served = .GETS ∨ served = .GETX))).caches (i :: n) =
        sys.caches (i :: n) :=
    Sys.caches_setCache_of_ne _ _ (cons_ne_self i n)
  have reqLooked :
      Requestable cfg.arity (sys.lookup n addr (decide (served = .GETS ∨ served = .GETX)))
        addr (i :: n) childLine served flags :=
    { req with
      good := goodLooked
      found := (finds _ _).trans req.found
      admits := by
        rw [slices]
        exact req.admits
      recalled := by
        rw [slices]
        exact req.recalled }
  have foundLooked := (finds n addr).trans found
  have isValid : (cfg.bottomCC n).isValid lineId (sys.lookup n addr
            (decide (served = .GETS ∨ served = .GETX))) = true := by
    have read := read_stateRef foundLooked
    rw [slices] at read
    change ((Sys.stateRef n lineId).read _ != .I) = true
    rwa [read, bne_iff_ne]
  apply Gives.bind ⟨_, locate_found cfg (req.good.sound n).wf found _, rfl⟩
  rintro _ rfl
  simp only [Config.cache, cacheOf_cc cfg hasChildren]
  change Gives (ite (_ ∧ (cfg.bottomCC n).isValid lineId _ = false ∧ _) _ _) _
  rw [if_neg (fun invalid =>
    absurd (isValid.symm.trans invalid.2.1) (by simp))]
  apply (serve_put_spec cfg childSpec rfl noBypass foundLooked reqLooked
    isPut cycle (cycle + cfg.accLat n) srcId initialState).mono
  intro res upgraded
  have others : ∀ other, other ≠ addr → EvictedAbove (i :: n) (sys.slice other) ((sys.lookup n addr
          (decide (served = .GETS ∨ served = .GETX))).slice other) :=
    fun other _ => EvictedAbove.of_eq (slices other)
  exact upgraded.before (slices addr) (fun m _ other => finds m other)
    others (fun _ other => slices other)
    (fun _ => congrArg CacheState.array childSame) (Nat.le_add_right _ _)

/-- A cache with children serves a request that no race cancelled. -/
theorem access_child_spec (upperSpec : UpperSpec cfg.arity grant n (cfg.bottomCC n) upper)
    (grants : Grants grant) {initialState : MESIState}
    (race : checkForMESIRace type ((Sys.stateRef (i :: n) childLine).read sys) initialState =
        .ok (served, false))
    (cycle srcId : Nat) :
    Gives ((cfg.cache n).access upper
        ⟨addr, type, i, Sys.stateRef (i :: n) childLine, cycle, initialState, srcId, flags⟩ sys)
      (Upgraded cfg.arity grant sys addr (i :: n) served flags.NOEXCL cycle) := by
  have hasChildren : cfg.arity n ≠ 0 := Nat.ne_zero_of_lt inTree.1
  have perform : Gives ((cfg.cache n).perform upper
          ⟨addr, served, i, Sys.stateRef (i :: n) childLine, cycle, initialState, srcId, flags⟩ sys)
        (Upgraded cfg.arity grant sys addr (i :: n) served flags.NOEXCL cycle) := by
    cases kind : served.isGet with
    | true =>
      exact perform_get_spec cfg noHack noBypass inTree req upperSpec
        grants kind cycle srcId initialState
    | false =>
      exact perform_put_spec cfg noBypass inTree req kind cycle srcId initialState
  have start : (cfg.cache n).cc.startAccess
          ⟨addr, type, i, Sys.stateRef (i :: n) childLine, cycle, initialState, srcId, flags⟩ sys =
        .ok (⟨addr, served, i, Sys.stateRef (i :: n) childLine, cycle,
            initialState, srcId, flags⟩, false) := by
    simp only [Config.cache, cacheOf_cc cfg hasChildren, CC.startAccess, race]
    rfl
  apply Gives.bind ⟨_, start, rfl⟩
  rintro _ rfl
  apply perform.bind
  rintro ⟨memory, respCycle⟩ upgraded
  exact .check upgraded.cycle (Gives.pure upgraded)

end Child

theorem checkForMESIRace_same (type : AccessType) (state : MESIState) :
    checkForMESIRace type state state = .ok (type, false) := by
  simp [checkForMESIRace, pure, Except.pure]

/-- A cache whose upper level meets the contract meets it for a child. -/
theorem access_upperSpec (noHack : cfg.nonInclusiveHack n = false)
    (noBypass : cfg.bypass n = false) (inTree : InTree cfg.arity (i :: n))
    (upperSpec : UpperSpec cfg.arity grant n (cfg.bottomCC n) upper) (grants : Grants grant) :
    UpperSpec cfg.arity grant (i :: n) (cfg.bottomCC (i :: n)) ((cfg.cache n).access upper) := by
  constructor
  intro sys addr lineId type flags cycle srcId req
  exact access_child_spec cfg noHack noBypass inTree req upperSpec grants
    (checkForMESIRace_same type _) cycle srcId

/-- A terminal cache that performs a request of its core serves it. -/
theorem Cache.access_core_rule {Memory : Type} {cache : Cache A Memory} {bcc : MESIBottomCC Memory}
    {upper : MemObject Memory} {memory : Memory} (isTerminal : cache.cc = .MESITerminalCC bcc)
    (isGet : type.isGet = true) {childId srcId : Nat} {post : Memory × Nat → Prop}
    (performs : Gives (cache.perform upper
          ⟨addr, type, childId, dummyState, cycle, .I, srcId, flags⟩
          memory)
        (fun res => post res ∧ cycle ≤ res.2)) :
    Gives (cache.access upper ⟨addr, type, childId, dummyState, cycle, .I, srcId, flags⟩ memory)
      post := by
  have isGetType : type = .GETS ∨ type = .GETX := by
    cases type <;> simp [AccessType.isGet] at isGet ⊢
  have start : cache.cc.startAccess ⟨addr, type, childId, dummyState, cycle, .I, srcId, flags⟩
          memory =
        .ok (⟨addr, type, childId, dummyState, cycle, .I, srcId, flags⟩, false) := by
    simp only [isTerminal, CC.startAccess, check_true _ isGetType,
      dummyState, checkForMESIRace_same]
    rfl
  apply Gives.bind ⟨_, start, rfl⟩
  rintro _ rfl
  apply performs.bind
  rintro ⟨after, respCycle⟩ ⟨holds, later⟩
  exact .check later (Gives.pure holds)

/-- A cache whose upper level meets the contract serves its core. -/
theorem access_leaf_spec (noHack : cfg.nonInclusiveHack n = false)
    (noBypass : cfg.bypass n = false) (inTree : InTree cfg.arity n) (isLeaf : cfg.arity n = 0)
    (upperSpec : UpperSpec cfg.arity grant n (cfg.bottomCC n) upper)
    (grants : Grants grant) (good : Good cfg.arity sys)
    (accepted : A.accepts addr) (isGet : type.isGet = true)
    (demand : flags.PREFETCH = false) (childId cycle srcId : Nat) :
    Gives ((cfg.cache n).access upper
        ⟨addr, type, childId, dummyState, cycle, .I, srcId, flags⟩ sys)
      (fun res =>
        Good cfg.arity res.1 ∧
        res.1.slice addr = fetch (grant flags.NOEXCL) type flags.NOEXCL n (sys.slice addr)) := by
  have childSpec := fun c : Fin (cfg.arity n) =>
    child_spec cfg n c.val
  have cc : (cfg.cache n).cc = .MESITerminalCC (cfg.bottomCC n) := if_pos isLeaf
  apply Cache.access_core_rule cc isGet
  apply Gives.bind (locate_spec cfg childSpec rfl noHack upperSpec good accepted isGet
      (cycle + cfg.accLat n))
  rintro ⟨_, memory⟩ ⟨lineId, rfl, located⟩
  rw [cc]
  apply (bottomCC_get_spec cfg upperSpec grants inTree located.good
    accepted located.found isGet demand noBypass
    (cycle + cfg.accLat n) srcId).mono
  rintro res obtained
  refine ⟨⟨obtained.good, ?_⟩, (Nat.le_add_right _ _).trans obtained.cycle⟩
  rw [obtained.slice_eq, located.slice]

end Access

end Damov.Coherence

end
