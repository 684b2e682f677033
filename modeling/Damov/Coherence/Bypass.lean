import Damov.Coherence.InclusiveTree

/-!
# A bypassing last level

In the processing-in-memory configuration the last-level cache forwards every
request to the memory, together with the pointer to its own line state. The
memory then answers a `PUTS` of one child by invalidating the last-level line,
and a `GETS` with the `NOEXCL` flag by leaving it shared, whatever the other
children hold.

The arrays are left out here: every line has its place, and evictions are
operations of their own at both levels. Two runs below break the directory. A
run in which no child gives up a line that others share, and no `NOEXCL` fetch
meets a modified copy, keeps it.
-/

namespace Damov.Coherence

open Library.Checked Function

attribute [local simp] AccessType.fetched

/-! ## The model -/

/-- An array with a place for every address. -/
def CacheArray.unbounded : CacheArray where
  State := Unit
  Wf := fun _ => True
  Armed := fun _ _ _ => False
  accepts := fun _ => True
  tag := fun _ lineId => BitVec.ofNat 64 lineId
  lookup := fun array addr _ => (some addr.toNat, array)
  preinsert := fun array addr => (addr.toNat, addr, array)
  postinsert := fun array _ _ => array
  lookup_result := fun _ _ _ => rfl
  lookup_keeps := fun _ _ _ _ => rfl
  lookup_tag := fun _ _ _ => rfl
  lookup_wf := fun _ _ _ => trivial
  tag_of_lookup := by
    intro array addr lineId _ found
    cases found
    simp
  preinsert_victim := fun _ _ missing => nomatch missing
  preinsert_keeps := fun _ _ _ _ => rfl
  preinsert_tag := fun _ _ _ => rfl
  preinsert_wf := fun _ _ _ => trivial
  preinsert_armed := fun _ _ missing => nomatch missing
  postinsert_wf := fun _ _ _ _ => trivial
  postinsert_lookup := fun _ _ missing _ => nomatch missing
  postinsert_keeps := fun _ _ missing _ _ _ => nomatch missing
  postinsert_tag := fun _ _ _ _ _ => rfl

/-- A bypassing last-level cache over `children` terminal caches. -/
structure BypassConfig (children : Nat) extends Config CacheArray.unbounded where
  isStar : tree = .node children (fun _ => .leaf)
  inclusive : ∀ n, nonInclusiveHack n = false
  bypassing : bypass [] = true
  allocating : ∀ child, bypass [child] = false

/-- The operations: accesses of the children and evictions at both levels. -/
inductive BypassOp (children : Nat) where
  | gets (child : Fin children) (lineAddr : Address) (noexcl : Bool)
  | getx (child : Fin children) (lineAddr : Address)
  | evictChild (child : Fin children) (lineAddr : Address)
  | evictParent (lineAddr : Address)

/-- Clear the ghost bits, which play no part here. -/
def Sys.clean {A : CacheArray} (sys : Sys A) : Sys A := { sys with dirty := fun _ => false }

namespace BypassConfig

variable {children : Nat} (cfg : BypassConfig children)

/-- A request of a core. -/
def coreRequest (lineAddr : Address) (type : AccessType) (noexcl : Bool) :
    MemReq (Sys CacheArray.unbounded) :=
  ⟨lineAddr, type, 0, dummyState, 0, .I, 0, { NOEXCL := noexcl }⟩

/-- One operation, run to completion. -/
def perform (sys : Sys CacheArray.unbounded) :
    BypassOp children → Except Failure (Sys CacheArray.unbounded)
  | .gets child lineAddr noexcl => do
      let (sys, _) ← cfg.access [child.val] (coreRequest lineAddr .GETS noexcl) sys
      pure sys.clean
  | .getx child lineAddr => do
      let (sys, _) ← cfg.access [child.val] (coreRequest lineAddr .GETX false) sys
      pure sys.clean
  | .evictChild child lineAddr => do
      let (sys, _) ← (cfg.cache [child.val]).cc.processEviction (cfg.access [])
          (coreRequest lineAddr .GETS false) lineAddr lineAddr.toNat 0 sys
      pure sys.clean
  | .evictParent lineAddr => do
      let (sys, _) ← (cfg.cache []).cc.processEviction cfg.memory
          (coreRequest lineAddr .GETS false) lineAddr lineAddr.toNat 0 sys
      pure sys.clean

/-- The state in which all caches are empty. -/
def empty : Sys CacheArray.unbounded := Sys.initial ⟨fun _ => (), fun _ => trivial⟩

/-- A sequence of operations on empty caches. -/
def operate (ops : List (BypassOp children)) : Except Failure (Sys CacheArray.unbounded) :=
  ops.foldlM cfg.perform empty

theorem arity_root : cfg.arity [] = children := Config.arity_star cfg.isStar

theorem arity_child (c : Nat) : cfg.arity [c] = 0 := Config.arity_star_child cfg.isStar c

end BypassConfig

/--
The operations that the bypass does not harm: a `NOEXCL` fetch while no other
child holds the line modified, and the eviction of a shared line that no other
child holds.
-/
def Harmless {children : Nat} (sys : Sys CacheArray.unbounded) : BypassOp children → Prop
  | .gets child lineAddr noexcl =>
    noexcl = true → ∀ other : Fin children, other ≠ child → sys.stateAt [other.val] lineAddr ≠ .M
  | .getx _ _ => True
  | .evictChild child lineAddr =>
    sys.stateAt [child.val] lineAddr = .S → ∀ other : Fin children, other ≠ child →
        sys.stateAt [other.val] lineAddr = .I
  | .evictParent _ => True

instance {children : Nat} (sys : Sys CacheArray.unbounded) :
    (op : BypassOp children) → Decidable (Harmless sys op)
  | .gets _ _ _ => inferInstanceAs (Decidable (_ → ∀ _, _ → _))
  | .getx _ _ => inferInstanceAs (Decidable True)
  | .evictChild _ _ => inferInstanceAs (Decidable (_ → ∀ _, _ → _))
  | .evictParent _ => inferInstanceAs (Decidable True)

/-- Every operation of a run is harmless in the state in which it starts. -/
def BypassConfig.HarmlessRun {children : Nat} (cfg : BypassConfig children) :
    List (BypassOp children) → Sys CacheArray.unbounded → Prop :=
  RunMeets cfg.perform Harmless

instance BypassConfig.decidableHarmlessRun
    {children : Nat} (cfg : BypassConfig children) (ops : List (BypassOp children)) :
    DecidablePred (cfg.HarmlessRun ops) :=
  inferInstanceAs (DecidablePred (RunMeets cfg.perform Harmless ops))

/-! ## Runs that break the directory -/

/-- Two children below a bypassing cache, without latencies. -/
def pimConfig : BypassConfig 2 where
  tree := .node 2 (fun _ => .leaf)
  accLat := fun _ => 0
  invLat := fun _ => 0
  parentRTT := fun _ _ _ => 0
  childRTT := fun _ _ _ _ => 0
  memoryLatency := fun _ _ _ => 0
  nonInclusiveHack := fun _ => false
  bypass := fun n => n.isEmpty
  isStar := rfl
  inclusive := fun _ => rfl
  bypassing := rfl
  allocating := fun _ => rfl

/--
One child of two gives up a line that both share, and the last-level cache
loses the line; a `NOEXCL` fetch of a line that the other child modified fails
the assertion on the writeback.
-/
theorem bypass_breaks_directory : (pimConfig.operate
          [.gets 0 5 false, .gets 1 5 false, .evictChild 0 5]).map
        (fun sys => (sys.stateAt [1] 5, sys.stateAt [] 5)) =
      .ok (.S, .I) ∧
    (pimConfig.operate [.getx 0 5, .gets 1 5 true]).map
        (fun sys => (sys.stateAt [1] 5, sys.stateAt [] 5)) =
      .error .writebackWithoutExclusive := by decide +kernel

/-! ## The effect of a bypassed request on its line -/

section Line

open scoped Classical

variable {arity : Path → Nat} {s : Slice} {i : Nat} {type : AccessType}

section

variable (answer : MESIState)

/-- The line after the memory wrote the state of the last level. -/
def grantRoot (s : Slice) : Slice := update s [] ((s []).withState answer)

/-- The line after the last level served a request that it bypassed. -/
noncomputable def bypassServe (type : AccessType) (noexcl : Bool) (i : Nat) (s : Slice) : Slice :=
  (service type noexcl i (grantRoot answer s [])).apply
    ((service type noexcl i (grantRoot answer s [])).collect [] (grantRoot answer s))
    [] i (grantRoot answer s)

theorem grantRoot_root : grantRoot answer s [] = (s []).withState answer := update_self _ _ _

theorem grantRoot_below {m : Path} (notRoot : m ≠ []) : grantRoot answer s m = s m :=
  update_of_ne notRoot _ _

/-- The directory does not depend on the state of the last level. -/
theorem Coherent.directory_grantRoot (ok : Coherent arity s) (answer : MESIState) :
    DirectoryBelow arity (grantRoot answer s) [] where
  sharer := (ok []).sharer
  inside := (ok []).inside
  exclusive := fun i exclusive => ((ok []).exclusive i exclusive).2
  owner := (ok []).owner
  below := by
    intro c m suffix
    have notRoot : m ≠ [] := by
      rintro rfl
      exact absurd (List.suffix_nil.mp suffix) (by simp)
    rw [grantRoot_below answer notRoot]
    exact ok m

/-- In a star, dirty data is in a child. -/
theorem Coherent.dirty_child (ok : Coherent arity s) (isStar : ∀ c, arity [c] = 0)
    {targets : Finset Nat} (dirty : DirtyUnder s [] targets) :
    ∃ c ∈ targets, (s [c]).state = .M := by
  obtain ⟨m, ⟨c, member, suffix⟩, modified⟩ := dirty
  refine ⟨c, member, ?_⟩
  rcases suffix_cases suffix with eq | ⟨below, deeper⟩
  · rwa [← eq]
  exfalso
  have valid : (s [below, c]).state ≠ .I := ok.valid_of_suffix deeper (by simp [modified])
  have mem := (ok [c]).inside below (((ok [c]).sharer below).mpr valid)
  rw [isStar] at mem
  exact absurd mem (Nat.not_lt_zero below)

/-- The targets of a service are sharers. -/
theorem service_targets (type : AccessType) (noexcl : Bool) (i : Nat) (line : Line) :
    (service type noexcl i line).targets ⊆ line.sharers := by
  cases type with
  | GETS =>
    simp only [service]
    split
    · simp
    · split <;> simp
  | GETX => exact Finset.erase_subset i line.sharers
  | PUTS | PUTX => simp [service]

/-- With `NOEXCL` the service does not depend on the state of the cache. -/
theorem service_noexcl (line : Line) : service .GETS true i line = if line.owned = true then
        ⟨.INVX, line.sharers, insert i line.sharers, false, .S⟩
      else
        ⟨.INVX, ∅, insert i line.sharers, false, .S⟩ :=
  if_neg (by simp)

/-- A child that was served by a bypass holds the line as it asked for it. -/
theorem served_bypassServe (noexcl : Bool) (isGet : type.isGet = true) :
    type.served (bypassServe answer type noexcl i s [i]).state := by
  rw [bypassServe, Service.apply, transact_child]
  cases type with
  | GETS =>
    simp only [service]
    split
    · exact .inr rfl
    · split <;> exact .inl rfl
  | GETX => rfl
  | _ => cases isGet

end

section Transact

variable {kind : InvType} {targets : Finset Nat} {line : Line} {state answer : MESIState}

/-- A transaction overwrites the line of the cache that serves it. -/
theorem transact_grantRoot : transact kind targets line state [] i (grantRoot answer s) =
      transact kind targets line state [] i s := by
  rw [transact, grantRoot, lowerUnder_update_self, update_idem]
  rfl

theorem grantRoot_transact : grantRoot answer (transact kind targets line state [] i s) =
      transact kind targets (line.withState answer) state [] i s := by
  rw [grantRoot, transact_self, transact_update_self]

end Transact

/-- The state of the last level after a service without dirty data. -/
theorem collect_grantRoot {service : Service} (answer : MESIState)
    (targets : service.targets ⊆ (s []).sharers) (clean : ¬ DirtyUnder s [] (s []).sharers) :
    service.collect [] (grantRoot answer s) = answer := by
  have notDirty : ¬ DirtyUnder (grantRoot answer s) [] service.targets := by
    rw [grantRoot, dirtyUnder_update_self]
    rintro ⟨m, ⟨c, mem, suffix⟩, modified⟩
    exact clean ⟨m, ⟨c, targets mem, suffix⟩, modified⟩
  rw [Service.collect, if_neg notDirty, grantRoot_root, Line.withState_state]

/--
A bypassed `GETS` with `NOEXCL` that finds no dirty data has the effect of one
that is served in `E`, but for the state of the last level.
-/
theorem bypassServe_noexcl (clean : ¬ DirtyUnder s [] (s []).sharers) :
    bypassServe .S .GETS true i s = grantRoot .S (serve .GETS true [] i (grantRoot .E s)) := by
  have ready : AccessType.GETS.fetched (grantRoot .E s []).state := by
    rw [grantRoot_root]
    simp
  have sameService (answer) :
      service .GETS true i (grantRoot answer s []) = service .GETS true i (s []) := by
    rw [service_noexcl, service_noexcl]
    rfl
  have collect := fun answer =>
    collect_grantRoot answer (service_targets .GETS true i (s [])) clean
  rw [serve_eq_service true rfl ready, bypassServe]
  simp only [sameService, collect, Service.apply]
  rw [grantRoot_transact, transact_grantRoot, transact_grantRoot]
  rfl

/-- A harmless fetch through the bypass keeps the line coherent. -/
theorem Coherent.bypassServe_get {noexcl : Bool} (ok : Coherent arity s)
    (isGet : type.isGet = true) (mem : i < arity []) (isMiss : type.misses (s [i]).state = true)
    (clean : type = .GETS → noexcl = true → ¬ DirtyUnder s [] (s []).sharers) :
    Coherent arity (bypassServe (type.grant (Config.memoryGrant noexcl)) type noexcl i s) := by
  have granted : ∀ {answer}, MESIState.isExclusive answer = true → type.fetched answer →
      Coherent arity (Coherence.serve type noexcl [] i (grantRoot answer s)) := by
    intro answer excl ready
    have coherent : Coherent arity (grantRoot answer s) :=
      ok.setRoot (fun _ => MESIState.ne_I_of_isExclusive excl) (fun _ => excl)
    apply coherent.serve noexcl isGet mem
    · exact ready
    · exact isMiss
  have served : ∀ {answer}, type.fetched answer →
      Coherence.serve type noexcl [] i (grantRoot answer s) =
        bypassServe answer type noexcl i s := by
    intro answer ready
    apply serve_eq_service noexcl isGet
    exact ready
  cases type with
  | GETS =>
    cases noexcl with
    | false =>
      have ready : AccessType.GETS.fetched .E := by simp
      exact served ready ▸ granted rfl ready
    | true =>
      change Coherent arity (bypassServe .S .GETS true i s)
      rw [bypassServe_noexcl (clean rfl rfl)]
      apply (granted rfl (by simp)).setRoot
      · simp
      · intro owned
        simp only [Coherence.serve, Coherence.serveGets, reduceCtorEq,
          if_false, Bool.true_eq_false, and_false] at owned
        split at owned <;> simp [transact_self] at owned
  | GETX =>
    have ready : AccessType.GETX.fetched .M := rfl
    exact served ready ▸ granted rfl ready
  | _ => cases isGet

/-- The eviction of the last copy through the bypass keeps the line coherent. -/
theorem Coherent.bypassServe_put
    {noexcl : Bool} (ok : Coherent arity s) (isPut : type.isGet = false)
    (childValid : (s [i]).state ≠ .I) (childSharers : (s [i]).sharers = ∅)
    (last : ∀ c, c ≠ i → (s [c]).state = .I) :
    Coherent arity (bypassServe .I type noexcl i s) := by
  have isGiven : bypassServe .I type noexcl i s = grantRoot .I (Coherence.put false [] i s) := by
    cases type with
    | PUTS | PUTX =>
      simp only [bypassServe, service, Service.apply, Service.collect,
        not_dirtyUnder_empty, if_false, grantRoot_root]
      rw [Coherence.put, grantRoot_transact, transact_grantRoot]
      rfl
    | _ => cases isPut
  have noSharers : (s []).sharers.erase i = ∅ := by
    apply Finset.eq_empty_of_forall_notMem
    intro c mem
    obtain ⟨isOther, sharer⟩ := Finset.mem_erase.mp mem
    exact ((ok []).sharer c).mp sharer (last c isOther)
  rw [isGiven]
  apply (ok.put childValid childSharers (by simp)).setRoot
  · rw [Coherence.put, transact_self]
    simp [noSharers]
  · rw [Coherence.put, transact_self]
    simp

end Line

/-! ## Accesses through the bypass -/

section Access

open scoped Classical

variable {children : Nat} (cfg : BypassConfig children)
    {sys : Sys CacheArray.unbounded} {addr : Address} {i : Nat}
    {type : AccessType} {flags : Flags}

/-- Every line has its place. -/
theorem find_unbounded (array : CacheArray.unbounded.State) (addr : Address) :
    CacheArray.unbounded.find array addr = some addr.toNat :=
  rfl

theorem lookup_unbounded (n : Path) (addr : Address) (update : Bool) :
    sys.lookup n addr update = sys := by
  change Sys.setCache sys n (sys.caches n) = sys
  rw [Sys.setCache, update_eq_self]

/-- The invariant of the runs; the ghost bits are clear. -/
structure BypassOk (sys : Sys CacheArray.unbounded) : Prop where
  good : Good cfg.arity sys
  clean : ∀ addr, sys.dirty addr = false

theorem BypassOk.of_good {cfg : BypassConfig children} (good : Good cfg.arity sys) :
    BypassOk cfg sys.clean where
  good := ⟨good.sound, good.coherent, by simp [Sys.clean]⟩
  clean := fun _ => rfl

/-- A change of one line that leaves it coherent. -/
theorem BypassOk.localized {cfg : BypassConfig children}
    {after : Sys CacheArray.unbounded} {n : Path} (ok : BypassOk cfg sys)
    (change : Localized sys after addr n)
    (coherent : Coherent cfg.arity (after.slice addr)) :
    Good cfg.arity after := by
  apply ok.good.localized change coherent
  intro dirty
  simp [ok.clean] at dirty

/-- A change of one line, with the time it takes. -/
def Rewritten (sys : Sys CacheArray.unbounded) (addr : Address) (slice : Slice) (cycle : Nat)
    (res : Sys CacheArray.unbounded × Nat) : Prop :=
  Localized sys res.1 addr [] ∧ res.1.slice addr = slice ∧ cycle ≤ res.2

section Served

variable {cfg} {answer : MESIState} (ok : BypassOk cfg sys)
    (isAnswer : Config.upperAnswer Config.memoryGrant type flags = answer)

include ok isAnswer

/-- The memory overwrites the state of the last level. -/
theorem bypass_memory_spec (cycle srcId : Nat) :
    Gives ((cfg.bottomCC []).processAccess cfg.memory addr addr.toNat type cycle srcId flags sys)
      (Rewritten sys addr (grantRoot answer (sys.slice addr)) cycle) := by
  have found := find_unbounded (sys.caches []).array addr
  have localized := localized_stateRef (ok.good.below []) found answer
  have slice := slice_stateRef found answer
  unfold MESIBottomCC.processAccess
  rw [if_pos (by simp [Config.bottomCC, cfg.bypassing]), Config.memory, upper_request, isAnswer]
  apply Gives.ok
  refine ⟨?_, ?_, Nat.le_add_right _ _⟩
  · split
    next =>
      exact { localized with
        dirty := by
          simp only [Sys.setDirty, localized.dirty]
          rw [← ok.clean addr, update_eq_self] }
    next => exact localized
  · split
    next => exact slice
    next => exact slice

variable (admits : type.admits (sys.slice addr [i]).state)
  (ready : type.isGet = true → type.fetched answer) (demand : flags.PREFETCH = false)
  (noKeep : type = .PUTX → flags.PUTX_KEEPEXCL = false)
  (excl : DirtyUnder (sys.slice addr) [] (service type flags.NOEXCL i
    (grantRoot answer (sys.slice addr) [])).targets → answer.isExclusive = true)

include admits ready demand noKeep excl

/-- The last level serves a request of a child. -/
theorem bypass_present_spec (reqCycle cycle srcId : Nat) (initialState : MESIState) :
    Gives (CC.processPresent (cfg.topCC [] (cfg.arity []) (fun c =>
          cfg.invalidate (cfg.tree.sub [c.val]) [c.val]))
        (cfg.bottomCC []) cfg.memory
        ⟨addr, type, i, Sys.stateRef [i] addr.toNat, reqCycle, initialState, srcId, flags⟩
        addr.toNat cycle sys)
      (Rewritten sys addr (bypassServe answer type flags.NOEXCL i (sys.slice addr)) cycle) := by
  have coherent := ok.good.coherent addr
  have directory := coherent.directory_grantRoot answer
  refine .check (.inl demand) ?_
  apply (bypass_memory_spec ok isAnswer cycle srcId).bind
  rintro ⟨mid, midCycle⟩ ⟨granted, slice, later⟩
  have sliceMid : mid.slice addr = grantRoot answer (sys.slice addr) := slice
  rw [← sliceMid] at directory
  have admitsMid : type.admits (mid.slice addr [i]).state := by
    rwa [sliceMid]
  have stateMid : (mid.slice addr []).state = answer := by
    rw [sliceMid, grantRoot_root, Line.withState_state]
  change Gives (ite (flags.PREFETCH = true) _ _) _
  rw [if_neg (by simp [demand])]
  apply Gives.bind (topCC_processAccess_spec cfg.toConfig
      (fun c => child_spec cfg.toConfig [] c.val) rfl granted.sound
      directory (find_unbounded _ addr) (find_unbounded _ addr)
      (stateMid ▸ ready) admitsMid midCycle srcId noKeep)
  rintro res ⟨answered, _⟩
  apply (writeback_spec cfg.toConfig ?_ (find_unbounded _ addr) answered).mono
  · rintro ⟨final, finalCycle⟩ ⟨localized, slice, _, finalLater⟩
    refine ⟨granted.trans localized, ?_, later.trans finalLater⟩
    rw [slice, sliceMid]
    rfl
  · intro dirty
    rw [stateMid]
    apply excl
    rwa [sliceMid, grantRoot, dirtyUnder_update_self] at dirty

/-- The same for the whole access, which starts without a race. -/
theorem bypass_access_spec (mem : i < children) (cycle srcId : Nat) :
    Gives (cfg.access [] ((cfg.bottomCC [i]).request addr addr.toNat type cycle
          srcId flags sys) sys)
      (Rewritten sys addr (bypassServe answer type flags.NOEXCL i (sys.slice addr)) cycle) := by
  have hasChildren : cfg.arity [] ≠ 0 := by
    rw [cfg.arity_root]
    exact Nat.ne_zero_of_lt mem
  have cc := fun child =>
    @cacheOf_cc _ cfg.toConfig [] (cfg.arity []) child hasChildren
  have start : (cfg.cache []).cc.startAccess
          ((cfg.bottomCC [i]).request addr addr.toNat type cycle srcId flags sys) sys =
        .ok ((cfg.bottomCC [i]).request addr addr.toNat type cycle srcId flags sys, false) := by
    rw [Config.cache, cc]
    simp only [CC.startAccess, MESIBottomCC.request, checkForMESIRace_same]
    rfl
  apply Gives.bind ⟨_, start, rfl⟩
  rintro _ rfl
  have performs : Gives ((cfg.cache []).perform cfg.memory
          ((cfg.bottomCC [i]).request addr addr.toNat type cycle srcId flags sys) sys)
        (Rewritten sys addr (bypassServe answer type flags.NOEXCL i (sys.slice addr)) cycle) := by
    apply Gives.bind ⟨_, locate_found cfg.toConfig trivial (find_unbounded _ _) _, rfl⟩
    rintro _ rfl
    rw [lookup_unbounded, Config.cache, cc]
    change Gives (ite (_ ∧ _ ∧ (cfg.bottomCC []).bypass = false) _ _) _
    rw [if_neg (by simp [Config.bottomCC, cfg.bypassing])]
    apply (bypass_present_spec ok isAnswer admits ready demand noKeep
      excl cycle (cycle + cfg.accLat []) srcId _).mono
    rintro res ⟨localized, slice, later⟩
    exact ⟨localized, slice, (Nat.le_add_right _ _).trans later⟩
  apply performs.bind
  rintro ⟨memory, respCycle⟩ holds
  exact .check holds.2.2 (Gives.pure holds)

end Served

variable {cfg}

section

variable (ok : BypassOk cfg sys) (mem : i < children) (isGet : type.isGet = true)
  (demand : flags.PREFETCH = false)
include ok mem isGet demand

/-- A child is served a harmless miss. -/
theorem bypass_fetch_spec (clean : type = .GETS → flags.NOEXCL = true →
      ¬ DirtyUnder (sys.slice addr) [] (sys.slice addr []).sharers)
    (admits : type.admits (sys.slice addr [i]).state) (cycle srcId : Nat) :
    Gives ((cfg.bottomCC [i]).fetch (cfg.access []) addr addr.toNat type cycle srcId flags sys)
      (Obtained cfg.arity sys addr [i]
        (bypassServe (type.grant (Config.memoryGrant flags.NOEXCL)) type
          flags.NOEXCL i (sys.slice addr))
        cycle) := by
  have coherent := ok.good.coherent addr
  have isMiss := AccessType.misses_of_admits isGet admits
  have isAnswer := Config.upperAnswer_get Config.memoryGrant flags isGet
  have ready : type.isGet = true → type.fetched (type.grant (Config.memoryGrant flags.NOEXCL)) := by
    intro _
    cases type with
    | GETS =>
      cases noexcl : flags.NOEXCL <;> simp [AccessType.grant, Config.memoryGrant]
    | GETX => rfl
    | _ => cases isGet
  have exclusive : DirtyUnder (sys.slice addr) [] (service type flags.NOEXCL i
          (grantRoot (type.grant (Config.memoryGrant flags.NOEXCL)) (sys.slice addr) [])).targets →
      (type.grant (Config.memoryGrant flags.NOEXCL)).isExclusive =
        true := by
    rintro ⟨m, ⟨c, member, suffix⟩, modified⟩
    have sharer := service_targets _ _ _ _ member
    cases type with
    | GETS =>
      cases noexcl : flags.NOEXCL with
      | false => rfl
      | true =>
        exact absurd ⟨m, ⟨c, sharer, suffix⟩, modified⟩ (clean rfl noexcl)
    | GETX => rfl
    | _ => cases isGet
  have noKeep : type = .PUTX → flags.PUTX_KEEPEXCL = false := by
    rintro rfl
    simp [AccessType.isGet] at isGet
  apply Gives.bind (bypass_access_spec ok isAnswer admits ready demand noKeep exclusive
    mem cycle srcId)
  rintro ⟨memory, parentCycle⟩ ⟨localized, slice, _⟩
  exact .pure {
    good := by
      apply ok.localized localized
      rw [slice]
      exact coherent.bypassServe_get isGet (cfg.arity_root.symm ▸ mem) isMiss clean
    slice_eq := slice
    others := fun other ne =>
      EvictedAbove.of_eq (localized.slice_other ne)
    find := fun m _ other => localized.find m other
    cycle := Nat.le_add_right _ _ }

/-- A harmless access of a child. -/
theorem bypass_leaf_spec (clean : type = .GETS → flags.NOEXCL = true → (sys.slice addr [i]).state = .I →
      ¬ DirtyUnder (sys.slice addr) [] (sys.slice addr []).sharers)
    (childId cycle srcId : Nat) :
    Gives (cfg.access [i] ⟨addr, type, childId, dummyState, cycle, .I, srcId, flags⟩ sys)
      (fun res => Good cfg.arity res.1) := by
  have cc : (cfg.cache [i]).cc = .MESITerminalCC (cfg.bottomCC [i]) := if_pos (cfg.arity_child i)
  have noDirty : type.admits (sys.slice addr [i]).state → type = .GETS → flags.NOEXCL = true →
      ¬ DirtyUnder (sys.slice addr) [] (sys.slice addr []).sharers := by
    intro admits isGets noexcl
    apply clean isGets noexcl
    rwa [isGets] at admits
  apply Cache.access_core_rule cc isGet
  apply Gives.bind ⟨_, locate_found cfg.toConfig trivial (find_unbounded _ _) _, rfl⟩
  rintro _ rfl
  rw [lookup_unbounded, cc]
  apply (bottomCC_get_rule cfg.toConfig (cfg.allocating i) ok.good (find_unbounded _ addr) isGet
    (fun admits =>
      bypass_fetch_spec ok mem isGet demand (noDirty admits) admits (cycle + cfg.accLat [i]) srcId)
    (fun _ => served_bypassServe _ flags.NOEXCL isGet)).mono
  intro res obtained
  exact ⟨obtained.good, (Nat.le_add_right _ _).trans obtained.cycle⟩

end

/-- A harmless eviction of a child. -/
theorem bypass_evict_spec (ok : BypassOk cfg sys) (mem : i < children)
    (last : (sys.slice addr [i]).state = .S → ∀ c, c ≠ i → (sys.slice addr [c]).state = .I)
    (req : MemReq (Sys CacheArray.unbounded)) (cycle : Nat) :
    Gives ((cfg.cache [i]).cc.processEviction (cfg.access []) req addr addr.toNat cycle sys)
      (fun res => Good cfg.arity res.1) := by
  have coherent := ok.good.coherent addr
  have cc : (cfg.cache [i]).cc = .MESITerminalCC (cfg.bottomCC [i]) := if_pos (cfg.arity_child i)
  rw [cc]
  apply giveUp_rule cfg.toConfig (find_unbounded _ addr)
  · intro _
    exact ok.good
  · intro type isPut admits
    have valid := AccessType.valid_of_put isPut admits
    have isAnswer := Config.upperAnswer_put Config.memoryGrant ({} : Flags) isPut
    have only : ∀ c, c ≠ i → (sys.slice addr [c]).state = .I := by
      cases shared : (sys.slice addr [i]).state with
      | I => exact absurd shared valid
      | S => exact last shared
      | E | M =>
        intro c isOther
        by_contra validOther
        exact isOther (coherent.eq_of_exclusive_child (by rw [shared]; rfl) validOther)
    have noTargets : (service type false i (grantRoot .I (sys.slice addr) [])).targets = ∅ := by
      cases type with
      | PUTS | PUTX => rfl
      | _ => cases isPut
    have noSharers : (sys.slice addr [i]).sharers = ∅ := by
      apply Finset.eq_empty_of_forall_notMem
      intro c member
      have bound := (coherent [i]).inside c member
      rw [cfg.arity_child] at bound
      exact absurd bound (Nat.not_lt_zero c)
    apply (bypass_access_spec ok isAnswer admits (by simp [isPut])
      rfl (fun _ => rfl) (by simp [noTargets]) mem cycle req.srcId).mono
    rintro ⟨memory, respCycle⟩ ⟨localized, slice, _⟩
    refine ⟨?_, ?_⟩
    · rw [read_stateRef (find_unbounded _ addr), slice, bypassServe, Service.apply, transact_child]
      cases type with
      | PUTS | PUTX => rfl
      | _ => cases isPut
    · apply ok.localized localized
      rw [slice]
      exact coherent.bypassServe_put isPut valid noSharers only

end Access

/-! ## Harmless runs -/

section Run

open scoped Classical

variable {children : Nat} {cfg : BypassConfig children} {sys : Sys CacheArray.unbounded}

/-- Dirty data that a `NOEXCL` fetch of an invalid line would meet. -/
theorem Harmless.no_dirty (ok : BypassOk cfg sys) {child : Fin children} {addr : Address}
    (harmless : ∀ other : Fin children, other ≠ child → sys.stateAt [other.val] addr ≠ .M)
    (invalid : (sys.slice addr [child.val]).state = .I) :
    ¬ DirtyUnder (sys.slice addr) [] (sys.slice addr []).sharers := by
  intro dirty
  have coherent := ok.good.coherent addr
  obtain ⟨c, sharer, modified⟩ := coherent.dirty_child cfg.arity_child dirty
  have mem := (coherent []).inside c sharer
  rw [cfg.arity_root] at mem
  apply harmless ⟨c, mem⟩
  · rintro rfl
    rw [invalid] at modified
    cases modified
  · exact modified

/-- A child that is not one of the configuration holds nothing. -/
theorem BypassOk.outside (ok : BypassOk cfg sys) {c : Nat} (outside : ¬ c < children)
    (addr : Address) : (sys.slice addr [c]).state = .I := by
  have coherent := ok.good.coherent addr
  by_contra valid
  apply outside
  rw [← cfg.arity_root]
  exact (coherent []).inside c (((coherent []).sharer c).mpr valid)

/-- One harmless operation. -/
theorem perform_spec (ok : BypassOk cfg sys) (op : BypassOp children) (harmless : Harmless sys op) :
    Gives (cfg.perform sys op) (BypassOk cfg) := by
  cases op with
  | gets child lineAddr noexcl =>
    apply Gives.bind (bypass_leaf_spec ok child.isLt rfl rfl (fun _ isNoexcl invalid =>
          Harmless.no_dirty ok (harmless isNoexcl) invalid) 0 0 0)
    rintro res good
    exact .pure (BypassOk.of_good good)
  | getx child lineAddr =>
    apply (bypass_leaf_spec ok child.isLt rfl rfl (by simp) 0 0 0).bind
    rintro res good
    exact .pure (BypassOk.of_good good)
  | evictChild child lineAddr =>
    have last : (sys.slice lineAddr [child.val]).state = .S →
        ∀ c, c ≠ child.val → (sys.slice lineAddr [c]).state = .I := by
      intro shared c isOther
      by_cases mem : c < children
      · exact harmless shared ⟨c, mem⟩ (fun eq => isOther (congrArg Fin.val eq))
      · exact ok.outside mem lineAddr
    apply Gives.bind (bypass_evict_spec ok child.isLt last
        (BypassConfig.coreRequest lineAddr .GETS false) 0)
    rintro res good
    exact .pure (BypassOk.of_good good)
  | evictParent lineAddr =>
    have evicts := processEviction_live cfg.toConfig (fun c => child_spec cfg.toConfig [] c.val) rfl
        (cfg.inclusive [])
        (upper_spec cfg.toConfig grants_memoryGrant) ok.good
        (find_unbounded _ lineAddr)
        (BypassConfig.coreRequest lineAddr .GETS false) 0
    apply evicts.bind
    rintro res evicted
    exact .pure (BypassOk.of_good evicted.good)

/--
A run whose operations are all harmless completes, and afterwards every line is
coherent across the last level and its children.
-/
theorem harmless_bypass_coherent (cfg : BypassConfig children) (ops : List (BypassOp children))
    (harmless : cfg.HarmlessRun ops BypassConfig.empty) :
    ∃ sys, cfg.operate ops = .ok sys ∧ ∀ addr, LineCoherent cfg.toConfig sys addr := by
  have initially : BypassOk cfg BypassConfig.empty := ⟨good_initial cfg.arity _, fun _ => rfl⟩
  rcases RunMeets.gives (fun _ op ok => perform_spec ok op) harmless
    initially with ⟨sys, returns, ok⟩
  exact ⟨sys, returns, ok.good.lineCoherent⟩

/-- Both children fetch a line, one stores to it, and it is evicted. -/
theorem harmless_bypass_coherent_pim : ∃ sys, pimConfig.operate
          [.gets 0 5 false, .gets 1 5 true, .getx 1 5, .evictChild 1 5,
            .gets 0 5 true, .evictParent 5] =
        .ok sys ∧
      ∀ addr, LineCoherent pimConfig.toConfig sys addr :=
  harmless_bypass_coherent pimConfig _ (by decide +kernel)

end Run

end Damov.Coherence
