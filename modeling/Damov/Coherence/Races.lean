import Damov.Coherence.InclusiveTree

/-!
# Races between the children of one parent

A child fixes its request while it holds its own lock: the type, the pointer to
the state of its line and a snapshot of that state. It releases the lock, and
only later the parent takes its locks and serves the request. Between the two
the parent may serve other children, evict lines and be invalidated from above,
and all of this may invalidate or downgrade the line of the waiting child.

`RaceAction` lists what can happen at this granularity. A child waits for its
request to be served before it does anything else; otherwise its own steps are
free, so the requests come in every order that its states allow.
-/

noncomputable section

open scoped Classical
open Function

namespace Damov.Coherence

open Library.Checked Sys

variable {A : CacheArray}

/-! ## The model -/

/-- A parent over any number of terminal caches. -/
structure StarConfig (A : CacheArray) extends InclusiveConfig A where
  children : Nat
  isStar : tree = .node children (fun _ => .leaf)

/-- A request that a child has fixed and the parent has not served yet. -/
structure Pending where
  lineAddr : Address
  lineId : LineId
  type : AccessType
  initialState : MESIState
  cycle : Nat
  srcId : Nat
  flags : Flags

/-- What the child asserts about its line when its request was served. -/
def Pending.conclude (req : Pending) (state : MESIState) : Except Failure Unit :=
  match req.type with
  | .PUTS | .PUTX => check (state = .I) .evictionFinalState
  | .GETS => check (state = .S ∨ state = .E) .getsFinalState
  | .GETX => check (state = .M) .getxFinalState

/-- The caches, and for each child the request that it waits for. -/
structure RaceState (A : CacheArray) where
  sys : Sys A
  pending : Nat → Option Pending

/-- Everything that can happen while no lock is held. -/
inductive RaceAction (A : CacheArray) where
  /-- A child fixes a request for a line of its array. -/
  | fix (child : Nat) (lineAddr : Address) (lineId : LineId)
      (type : AccessType) (cycle srcId : Nat) (flags : Flags)
  /-- The parent serves the request that a child waits for. -/
  | serve (child : Nat) (grant : Bool → MESIState)
  /-- A child stores to a line that it holds in `E`. -/
  | store (child : Nat) (lineAddr : Address) (lineId : LineId)
  /-- The array of a child changes in a way that shows in no line. -/
  | rearrange (child : Nat) (array : A.State)
  /-- The level above the parent invalidates or downgrades a line. -/
  | invalidate (lineAddr : Address) (type : InvType) (cycle srcId : Nat)

namespace StarConfig

variable (cfg : StarConfig A)

/-- The parent serves a request of a child, starting with the race check. -/
def serveRequest (grant : Bool → MESIState) (child : Nat) (req : Pending)
    (sys : Sys A) : Except Failure (Sys A × Nat) :=
  (cfg.cache []).access (cfg.upper grant) ⟨req.lineAddr, req.type, child,
      Sys.stateRef [child] req.lineId, req.cycle,
      req.initialState, req.srcId, req.flags⟩
    sys

/-- The conditions under which the code takes a step. -/
def Enabled (state : RaceState A) : RaceAction A → Prop
  | .fix child lineAddr lineId type _ _ flags =>
    child < cfg.children ∧ state.pending child = none ∧
      A.find (state.sys.caches [child]).array lineAddr = some lineId ∧
      type.admits (state.sys.stateAt [child] lineAddr) ∧
      flags.PREFETCH = false ∧
      (type = .PUTS ∨ type = .PUTX → flags = {}) ∧
      (type = .GETS ∨ type = .GETX → A.accepts lineAddr)
  | .serve child grant =>
    (state.pending child).isSome = true ∧ Grants grant
  | .store child lineAddr lineId =>
    child < cfg.children ∧ state.pending child = none ∧
      A.find (state.sys.caches [child]).array lineAddr = some lineId ∧
      state.sys.stateAt [child] lineAddr = .E
  | .rearrange child array =>
    child < cfg.children ∧ state.pending child = none ∧
      CacheOk ((state.sys.caches [child]).setArray array) ∧
      ∀ address, ((state.sys.caches [child]).setArray array).line address =
          (state.sys.caches [child]).line address
  | .invalidate lineAddr type _ _ =>
    type.admits (state.sys.stateAt [] lineAddr)

/-- The effect of a step. -/
def act (state : RaceState A) : RaceAction A → Except Failure (RaceState A)
  | .fix child lineAddr lineId type cycle srcId flags =>
    pure
      { state with
        pending := update state.pending child (some ⟨lineAddr, lineId, type,
              (Sys.stateRef [child] lineId).read state.sys, cycle, srcId,
              flags⟩) }
  | .serve child grant => do
      match state.pending child with
      | none => pure state
      | some req =>
        let (sys, _) ← cfg.serveRequest grant child req state.sys
        req.conclude ((Sys.stateRef [child] req.lineId).read sys)
        pure ⟨sys, update state.pending child none⟩
  | .store child _ lineId =>
    pure
      { state with
        sys := (Sys.stateRef [child] lineId).write .M state.sys }
  | .rearrange child array =>
    pure { state with sys := (Sys.arrayRef [child]).write array state.sys }
  | .invalidate lineAddr type cycle srcId => do
      let (sys, _, _) ← cfg.invalidate cfg.tree [] ⟨lineAddr, type, cycle, srcId⟩ false state.sys
      pure { state with sys := sys.setDirty lineAddr false }

/-- One step of an interleaving; a step that is not enabled does not happen. -/
def step (state : RaceState A) (action : RaceAction A) : Except Failure (RaceState A) :=
  if cfg.Enabled state action then cfg.act state action
  else pure state

/-- An interleaving from empty caches. -/
def interleave (arrays : InitialArrays A) (actions : List (RaceAction A)) :
    Except Failure (RaceState A) :=
  actions.foldlM cfg.step ⟨Sys.initial arrays, fun _ => none⟩

theorem arity_root : cfg.arity [] = cfg.children := Config.arity_star cfg.isStar

theorem arity_child (c : Nat) : cfg.arity [c] = 0 := Config.arity_star_child cfg.isStar c

theorem inTree_child {c : Nat} (mem : c < cfg.children) : InTree cfg.arity [c] :=
  ⟨cfg.arity_root.symm ▸ mem, trivial⟩

end StarConfig

/-! ## The invariant -/

/-- A waiting request: its line can only have been lowered since. -/
structure PendingOk (cfg : StarConfig A) (sys : Sys A) (child : Nat) (req : Pending) : Prop where
  inside : child < cfg.children
  found : A.find (sys.caches [child]).array req.lineAddr = some req.lineId
  admits : req.type.admits req.initialState
  lowered : req.initialState.LowersTo (sys.slice req.lineAddr [child]).state
  accepted : req.type.isGet = true → A.accepts req.lineAddr
  demand : req.flags.PREFETCH = false
  noKeep : req.type = .PUTX → req.flags.PUTX_KEEPEXCL = false

/-- The invariant of an interleaving. -/
structure RaceOk (cfg : StarConfig A) (state : RaceState A) : Prop where
  good : Good cfg.arity state.sys
  waiting : ∀ child req, state.pending child = some req → PendingOk cfg state.sys child req

/-! ## The race check -/

/-- The type with which a request goes on after the race check. -/
def AccessType.repaired : AccessType → MESIState → AccessType
  | .PUTX, .S => .PUTS
  | type, _ => type

theorem AccessType.isGet_repaired (type : AccessType) (state : MESIState) :
    (type.repaired state).isGet = type.isGet := by
  cases type <;> cases state <;> rfl

variable {type : AccessType} {state initialState : MESIState}

theorem AccessType.putx_of_repaired (isPutx : type.repaired state = .PUTX) : type = .PUTX := by
  cases type <;> cases state <;> simp [AccessType.repaired] at isPutx ⊢

/--
The race check of a request whose line was lowered: an eviction of a line that
is gone is skipped, and every other request goes on with a type that its line
admits.
-/
theorem checkForMESIRace_lowered (admits : type.admits initialState)
    (lowered : initialState.LowersTo state) :
    (type.isGet = false ∧ state = .I ∧
        checkForMESIRace type state initialState = .ok (type, true)) ∨
      (checkForMESIRace type state initialState = .ok (type.repaired state, false) ∧
        (type.repaired state).admits state) := by
  cases type <;> cases initialState <;>
    simp only [AccessType.admits, reduceCtorEq, or_self] at admits <;>
    cases state <;>
    simp only [MESIState.LowersTo, reduceCtorEq, MESIState.isExclusive_I,
      MESIState.isExclusive_S, Bool.false_eq_true, false_and, and_false, or_self]
      at lowered <;>
    simp [checkForMESIRace, AccessType.isGet, AccessType.repaired,
      AccessType.admits, check, pure, Except.pure]

theorem checkForMESIRace_invalidated (isPut : type.isGet = false)
    (admits : type.admits initialState) :
    checkForMESIRace type .I initialState = .ok (type, true) := by
  have valid := AccessType.valid_of_put isPut admits
  cases type with
  | PUTS | PUTX => simp [checkForMESIRace, valid.symm, pure, Except.pure]
  | _ => cases isPut

/-! ## Serving a request -/

section Serve

variable (cfg : StarConfig A) {sys : Sys A} {child : Nat} {req : Pending}
    (good : Good cfg.arity sys) (waits : PendingOk cfg sys child req)

include good waits

theorem PendingOk.requestable (admits :
      (req.type.repaired (sys.slice req.lineAddr [child]).state).admits
        (sys.slice req.lineAddr [child]).state) :
    Requestable cfg.arity sys req.lineAddr [child] req.lineId
      (req.type.repaired (sys.slice req.lineAddr [child]).state)
      req.flags where
  good := good
  accepted := by
    rw [AccessType.isGet_repaired]
    exact waits.accepted
  found := waits.found
  admits := admits
  recalled := by
    intro _
    apply Finset.eq_empty_of_forall_notMem
    intro i mem
    have bound := (good.coherent req.lineAddr [child]).inside i mem
    rw [cfg.arity_child] at bound
    exact absurd bound (Nat.not_lt_zero i)
  demand := waits.demand
  noKeep := fun isPutx => waits.noKeep (AccessType.putx_of_repaired isPutx)

omit good in
/-- An eviction whose line was invalidated is skipped. -/
theorem serveRequest_skipped (isPut : req.type.isGet = false)
    (invalidated : (sys.slice req.lineAddr [child]).state = .I) (grant : Bool → MESIState) :
    cfg.serveRequest grant child req sys = .ok (sys, req.cycle) := by
  have read := read_stateRef waits.found
  rw [invalidated] at read
  have race := checkForMESIRace_invalidated isPut waits.admits
  simp only [StarConfig.serveRequest, Cache.access, Config.cache,
    cacheOf_cc cfg.toConfig (Nat.ne_zero_of_lt (cfg.inTree_child waits.inside).1),
    CC.startAccess, read, race]
  rfl

omit good in
/-- A downgraded `PUTX` is carried out as a `PUTS`. -/
theorem serveRequest_downgraded (isPutx : req.type = .PUTX)
    (downgraded : (sys.slice req.lineAddr [child]).state = .S) (grant : Bool → MESIState) :
    cfg.serveRequest grant child req sys = cfg.serveRequest grant child
        { req with type := .PUTS, initialState := .S } sys := by
  have read := read_stateRef waits.found
  rw [downgraded] at read
  have admits := waits.admits
  rw [isPutx] at admits
  have wasModified : req.initialState = .M := admits
  have race : checkForMESIRace req.type .S req.initialState = .ok (.PUTS, false) := by
    rw [isPutx, wasModified]
    rfl
  have noRace : checkForMESIRace .PUTS .S .S = .ok (.PUTS, false) := rfl
  simp only [StarConfig.serveRequest, Cache.access, Config.cache,
    cacheOf_cc cfg.toConfig (Nat.ne_zero_of_lt (cfg.inTree_child waits.inside).1),
    CC.startAccess, read, race, noRace]
  rfl

omit good waits in
theorem Pending.conclude_put {state : MESIState} (isPut : req.type.isGet = false)
    (gone : state = .I) : req.conclude state = .ok () := by
  unfold conclude
  cases isType : req.type <;> simp [isType, AccessType.isGet] at isPut ⊢
  all_goals exact check_true _ gone

omit good waits in
theorem Pending.conclude_get {state initial : MESIState} (isGet : req.type.isGet = true)
    (served : (req.type.repaired initial).served state) : req.conclude state = .ok () := by
  unfold conclude
  cases isType : req.type <;> rw [isType] at isGet served
  case GETS | GETX => exact check_true _ served
  all_goals cases isGet

theorem serveRequest_spec {grant : Bool → MESIState} (grants : Grants grant) :
    Gives (cfg.serveRequest grant child req sys) (fun res =>
        Good cfg.arity res.1 ∧
        req.conclude ((stateRef [child] req.lineId).read res.1) = .ok () ∧
        ∀ other, other ≠ child → ∀ addr, A.find (res.1.caches [other]).array addr =
              A.find (sys.caches [other]).array addr ∧
            (sys.slice addr [other]).state.LowersTo (res.1.slice addr [other]).state) := by
  rcases checkForMESIRace_lowered waits.admits waits.lowered with
    ⟨isPut, invalidated, _⟩ | ⟨race, admits⟩
  · refine ⟨_, serveRequest_skipped cfg waits isPut invalidated grant, good, ?_, ?_⟩
    · exact req.conclude_put isPut ((read_stateRef waits.found).trans invalidated)
    intro other _ addr
    exact ⟨rfl, MESIState.LowersTo.refl _⟩
  · have readRace : checkForMESIRace req.type ((stateRef [child] req.lineId).read sys)
            req.initialState =
          .ok (req.type.repaired (sys.slice req.lineAddr [child]).state, false) := by
      rwa [read_stateRef waits.found]
    have served := access_child_spec cfg.toConfig (cfg.inclusive [])
        (cfg.allocating []) (cfg.inTree_child waits.inside)
        (waits.requestable cfg good admits)
        (upper_spec cfg.toConfig grants) grants readRace req.cycle
        req.srcId
    apply served.mono
    rintro ⟨memory, respCycle⟩ upgraded
    refine ⟨upgraded.good, ?_, ?_⟩
    · have found := upgraded.find [child] (not_above_of_suffix List.suffix_rfl) req.lineAddr
      rw [read_stateRef (found.trans waits.found), upgraded.slice]
      cases isGet : req.type.isGet with
      | false =>
        rw [if_neg (by rw [AccessType.isGet_repaired, isGet]; simp), surrender_self]
        exact req.conclude_put isGet rfl
      | true =>
        have isGet' := (req.type.isGet_repaired (sys.slice req.lineAddr [child]).state).trans isGet
        rw [if_pos isGet']
        exact req.conclude_get isGet (served_ask grants isGet' _ (good.coherent _)
          (cfg.inTree_child waits.inside) (AccessType.misses_of_admits isGet' admits))
    intro other ne addr
    have offPath : ¬ [other] <:+ [child] := by
      intro suffix
      have eq := suffix.eq_of_length_le (by simp)
      exact ne (List.cons.inj eq).1
    refine ⟨upgraded.find [other] (fun above => offPath above.1) addr, ?_⟩
    by_cases isLine : addr = req.lineAddr
    · rw [isLine, upgraded.slice]
      split
      · exact ask_lowers _ _ _ offPath
      · exact surrender_lowers _ offPath
    · exact (upgraded.others addr isLine).lowers offPath

end Serve

/-! ## The steps -/

section Steps

variable (cfg : StarConfig A) {state : RaceState A}

variable {child : Nat} {lineAddr : Address}

section

variable (ok : RaceOk cfg state)
include ok

theorem RaceOk.fix {lineId : LineId} {type : AccessType} {flags : Flags}
    (cycle srcId : Nat) (enabled : cfg.Enabled state
      (.fix child lineAddr lineId type cycle srcId flags)) :
    Gives (cfg.act state (.fix child lineAddr lineId type cycle srcId flags)) (RaceOk cfg) := by
  obtain ⟨mem, _, found, admits, demand, noFlags, accepted⟩ := enabled
  refine .pure ⟨ok.good, ?_⟩
  intro other req isPending
  by_cases isChild : other = child
  · subst isChild
    simp only [update_self, Option.some.injEq] at isPending
    subst isPending
    have read := read_stateRef found
    exact {
      inside := mem
      found := found
      admits := by
        rwa [read, ← stateAt_eq]
      lowered := by
        rw [read]
        exact MESIState.LowersTo.refl _
      accepted := by
        intro isGet
        apply accepted
        cases type <;> simp [AccessType.isGet] at isGet ⊢
      demand := demand
      noKeep := by
        intro isPutx
        rw [noFlags (.inr isPutx)] }
  · simp only [update_of_ne isChild] at isPending
    exact ok.waiting other req isPending

theorem RaceOk.serve {grant : Bool → MESIState} (enabled : cfg.Enabled state (.serve child grant)) :
    Gives (cfg.act state (.serve child grant)) (RaceOk cfg) := by
  obtain ⟨isSome, grants⟩ := enabled
  rcases Option.isSome_iff_exists.mp isSome with ⟨req, isPending⟩
  have waits := ok.waiting child req isPending
  simp only [StarConfig.act, isPending]
  apply (serveRequest_spec cfg ok.good waits grants).bind
  rintro ⟨sys, respCycle⟩ ⟨good, concludes, offPath⟩
  rw [concludes]
  refine .pure ⟨good, ?_⟩
  intro other otherRequest isOther
  have ne : other ≠ child := by
    rintro rfl
    simp at isOther
  simp only [update_of_ne ne] at isOther
  have otherWaits := ok.waiting other otherRequest isOther
  obtain ⟨find, lowers⟩ := offPath other ne otherRequest.lineAddr
  exact { otherWaits with
    found := find.trans otherWaits.found
    lowered := otherWaits.lowered.trans lowers }

/-- A step of an idle child that shows in none of the other children. -/
theorem RaceOk.local {cache : CacheState A} (idle : state.pending child = none)
    (good : Good cfg.arity (state.sys.setCache [child] cache)) :
    RaceOk cfg { state with sys := state.sys.setCache [child] cache } := by
  refine ⟨good, ?_⟩
  intro other req isPending
  have waits := ok.waiting other req isPending
  have ne : [other] ≠ [child] := by
    intro eq
    rw [(List.cons.inj eq).1, idle] at isPending
    simp at isPending
  exact { waits with
    found := by
      rw [caches_setCache_of_ne _ _ ne]
      exact waits.found
    lowered := by
      rw [slice_apply, caches_setCache_of_ne _ _ ne]
      exact waits.lowered }

theorem RaceOk.store {lineId : LineId}
    (enabled : cfg.Enabled state (.store child lineAddr lineId)) :
    Gives (cfg.act state (.store child lineAddr lineId)) (RaceOk cfg) := by
  obtain ⟨_, idle, found, isE⟩ := enabled
  rw [stateAt_eq] at isE
  refine .pure ?_
  apply ok.local cfg idle
  have valid : MESIState.M = .I ↔ (state.sys.slice lineAddr [child]).state = .I := by
    simp only [isE]
    simp
  have exclusive : MESIState.M.isExclusive =
      (state.sys.slice lineAddr [child]).state.isExclusive := by
    simp only [isE]
    simp
  exact (obtained_setState ok.good found valid exclusive (fun _ => rfl) 0).good

theorem RaceOk.rearrange {array : A.State} (enabled : cfg.Enabled state (.rearrange child array)) :
    Gives (cfg.act state (.rearrange child array)) (RaceOk cfg) := by
  obtain ⟨_, idle, cacheOk, lines⟩ := enabled
  refine .pure ?_
  apply ok.local cfg idle
  exact (ok.good.setCache cacheOk lines).1

omit ok in
/-- The whole tree is lowered by an invalidation from above the root. -/
theorem Coherent.lower {arity : Path → Nat} {s t : Slice} (ok : Coherent arity s)
    (type : InvType) (lowered : ∀ m, t m = (s m).lower type) :
    Coherent arity t := by
  intro n
  rw [lowered n]
  apply (ok n).lower type
  intro i
  exact ⟨s (i :: n), rfl, by rw [lowered]⟩

theorem RaceOk.invalidate {type : InvType} (cycle srcId : Nat)
    (enabled : cfg.Enabled state (.invalidate lineAddr type cycle srcId)) :
    Gives (cfg.act state (.invalidate lineAddr type cycle srcId)) (RaceOk cfg) := by
  have admits : type.admits (state.sys.slice lineAddr []).state := by
    rwa [← stateAt_eq]
  have coherent := ok.good.coherent lineAddr
  apply Gives.bind (invalidate_spec cfg.toConfig cfg.tree [] rfl state.sys lineAddr
      type cycle srcId false (ok.good.below []) (coherent.toBelow [])
      admits)
  rintro ⟨sys, writeback, respCycle⟩ ⟨localized, lowered, _, _⟩
  have lowered : ∀ m, sys.slice lineAddr m = (state.sys.slice lineAddr m).lower type :=
    fun m => lowered m List.nil_suffix
  refine .pure ⟨ok.good.localized_clean localized (coherent.lower type lowered), ?_⟩
  intro child req isPending
  have waits := ok.waiting child req isPending
  exact { waits with
    found := (localized.find [child] _).trans waits.found
    lowered := by
      apply waits.lowered.trans
      change MESIState.LowersTo _ (sys.slice req.lineAddr [child]).state
      by_cases isLine : req.lineAddr = lineAddr
      · rw [isLine, lowered]
        exact MESIState.LowersTo.lower type _
      · rw [localized.slice_other isLine]
        exact MESIState.LowersTo.refl _ }

theorem RaceOk.step (action : RaceAction A) : Gives (cfg.step state action) (RaceOk cfg) := by
  unfold StarConfig.step
  split
  next enabled =>
    cases action with
    | fix child lineAddr lineId type cycle srcId flags =>
      exact ok.fix cfg cycle srcId enabled
    | serve child grant => exact ok.serve cfg enabled
    | store child lineAddr lineId => exact ok.store cfg enabled
    | rearrange child array => exact ok.rearrange cfg enabled
    | invalidate lineAddr type cycle srcId =>
      exact ok.invalidate cfg cycle srcId enabled
  next => exact .pure ok

end

theorem interleave_spec (arrays : InitialArrays A) (actions : List (RaceAction A)) :
    Gives (cfg.interleave arrays actions) (RaceOk cfg) := by
  have initial : RaceOk cfg ⟨initial arrays, fun _ => none⟩ :=
    ⟨good_initial cfg.arity arrays, by simp⟩
  exact .foldlM (fun _ _ state => RaceOk cfg state)
    (fun _ action _ _ ok => ok.step cfg action) actions _ initial

end Steps

/-! ## The result -/

/-- What holds at every point of an interleaving. -/
structure RacesRepaired (cfg : StarConfig A) (state : RaceState A) : Prop where
  coherent : ∀ address, LineCoherent cfg.toConfig state.sys address
  skipped : ∀ child req grant, state.pending child = some req →
    req.type = .PUTS ∨ req.type = .PUTX →
    state.sys.stateAt [child] req.lineAddr = .I →
      cfg.serveRequest grant child req state.sys = .ok (state.sys, req.cycle)
  downgraded : ∀ child req grant, state.pending child = some req → req.type = .PUTX →
    state.sys.stateAt [child] req.lineAddr = .S →
      cfg.serveRequest grant child req state.sys = cfg.serveRequest grant child
          { req with type := .PUTS, initialState := .S } state.sys

/--
Every interleaving of the requests of all children runs without a failed
assertion and keeps the directory exact and the line with a single writer; an
eviction of a line that is gone is skipped, and one of a downgraded line is a
`PUTS`.
-/
theorem races_are_repaired (cfg : StarConfig A) (arrays : InitialArrays A)
    (actions : List (RaceAction A)) :
    ∃ state, cfg.interleave arrays actions = .ok state ∧ RacesRepaired cfg state := by
  obtain ⟨state, returns, ok⟩ := interleave_spec cfg arrays actions
  refine ⟨state, returns, ok.good.lineCoherent, ?_, ?_⟩
  · intro child req grant isPending isPut invalidated
    rw [stateAt_eq] at invalidated
    apply serveRequest_skipped cfg (ok.waiting child req isPending)
    · rcases isPut with equal | equal <;> rw [equal] <;> rfl
    · exact invalidated
  · intro child req grant isPending isPutx downgraded
    rw [stateAt_eq] at downgraded
    exact serveRequest_downgraded cfg (ok.waiting child req isPending) isPutx downgraded grant

end Damov.Coherence

end
