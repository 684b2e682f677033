import Damov.Coherence.DirectoryRefinement

/-!
# The bottom controller and the level above it

`Good` is the invariant of the whole hierarchy. `UpperSpec` is the contract
between a cache and the level above it, and the level above the root meets it.
Under that contract the bottom controller of a cache brings a line in, as
`fetch` of the line protocol does.
-/

noncomputable section

open scoped Classical
open Function

namespace Damov.Coherence

open Library.Checked AccessType Sys

variable {A : CacheArray}

attribute [local simp] AccessType.admits Sys.stateRef CacheState.setState

/-- The invariant of the whole hierarchy. -/
structure Good (arity : Path → Nat) (sys : Sys A) : Prop where
  sound : ∀ n, CacheOk (sys.caches n)
  coherent : ∀ addr, Coherent arity (sys.slice addr)
  covered : ∀ addr, sys.dirty addr = true → Modified (sys.slice addr)

namespace Good

variable {arity : Path → Nat} {before after : Sys A} {addr : Address} {n : Path}

theorem below (good : Good arity before) (n : Path) : SoundBelow before n := fun m _ => good.sound m

section Localized

variable (good : Good arity before) (change : Localized before after addr n)

include good change

theorem localized_sound (m : Path) : CacheOk (after.caches m) := by
  by_cases below : n <:+ m
  · exact change.sound m below
  · rw [change.outside m below]
    exact good.sound m

variable (coherent : Coherent arity (after.slice addr))
include coherent

theorem localized_coherent (other : Address) : Coherent arity (after.slice other) := by
  by_cases isAddress : other = addr
  · rwa [isAddress]
  · rw [change.slice_other isAddress]
    exact good.coherent other

/-- A change of one line at and below one cache. -/
theorem localized (modified : before.dirty addr = true →
      Modified (before.slice addr) → Modified (after.slice addr)) :
    Good arity after where
  sound := fun m => good.localized_sound change m
  coherent := fun other =>
    good.localized_coherent change coherent other
  covered := by
    intro other dirty
    rw [change.dirty] at dirty
    by_cases isAddress : other = addr
    · rw [isAddress] at dirty ⊢
      exact modified dirty (good.covered addr dirty)
    · rw [change.slice_other isAddress]
      exact good.covered other dirty

/-- The same, when the dirty data has left the hierarchy. -/
theorem localized_clean : Good arity (after.setDirty addr false) where
  sound := fun m => good.localized_sound change m
  coherent := fun other =>
    good.localized_coherent change coherent other
  covered := by
    intro other dirty
    have isOther : other ≠ addr := by
      rintro rfl
      simp [setDirty] at dirty
    simp only [setDirty, update_of_ne isOther, change.dirty] at dirty
    have modified := good.covered other dirty
    rwa [← change.slice_other isOther] at modified

end Localized

end Good

/-! ## The contract of the upper level -/

/-- What the level above cache `n` returns for a request of `n`. -/
structure Upgraded (arity : Path → Nat) (grant : Bool → MESIState) (sys : Sys A)
    (addr : Address) (n : Path) (type : AccessType) (noexcl : Bool)
    (cycle : Nat) (result : Sys A × Nat) : Prop where
  good : Good arity result.1
  slice : result.1.slice addr =
    if type.isGet then ask (grant noexcl) type noexcl n (sys.slice addr)
    else surrender (decide (type = .PUTX)) n (sys.slice addr)
  find : ∀ m, ¬ Above n m → ∀ other,
    A.find (result.1.caches m).array other = A.find (sys.caches m).array other
  others : ∀ other, other ≠ addr → EvictedAbove n (sys.slice other) (result.1.slice other)
  untouched : type.isGet = false → ∀ other, other ≠ addr → result.1.slice other = sys.slice other
  array : type.isGet = false → (result.1.caches n).array = (sys.caches n).array
  cycle : cycle ≤ result.2

/-- A request that cache `n` may make for one of its lines. -/
structure Requestable (arity : Path → Nat) (sys : Sys A) (addr : Address) (n : Path)
    (lineId : LineId) (type : AccessType) (flags : Flags) : Prop where
  good : Good arity sys
  accepted : type.isGet = true → A.accepts addr
  found : A.find (sys.caches n).array addr = some lineId
  admits : type.admits (sys.slice addr n).state
  recalled : type.isGet = false → (sys.slice addr n).sharers = ∅
  demand : flags.PREFETCH = false
  noKeep : type = .PUTX → flags.PUTX_KEEPEXCL = false

/-- The contract of the level above cache `n`. -/
structure UpperSpec (arity : Path → Nat) (grant : Bool → MESIState) (n : Path)
    (bcc : MESIBottomCC (Sys A)) (upper : MemObject (Sys A)) : Prop where
  serves : ∀ {sys addr lineId type flags} (cycle srcId : Nat),
    Requestable arity sys addr n lineId type flags →
    Gives (upper (bcc.request addr lineId type cycle srcId flags sys) sys)
      (Upgraded arity grant sys addr n type flags.NOEXCL cycle)

/-- The answers that a level may give to a `GETS`. -/
def Grants (grant : Bool → MESIState) : Prop := ∀ noexcl, grant noexcl = .S ∨ grant noexcl = .E

theorem grants_memoryGrant : Grants Config.memoryGrant := by
  intro noexcl
  cases noexcl
  · exact .inr rfl
  · exact .inl rfl

variable {type : AccessType} {state : MESIState}

theorem AccessType.misses_of_admits (isGet : type.isGet = true)
    (admits : type.admits state) : type.misses state = true := by
  cases type with
  | GETS =>
    have isInvalid : state = .I := admits
    rw [isInvalid]
    rfl
  | GETX => rcases admits with rfl | rfl <;> rfl
  | _ => cases isGet

theorem AccessType.hits_of_not_admits (isGet : type.isGet = true)
    (notAdmits : ¬ type.admits state) : ¬ type.misses state = true := by
  intro isMiss
  apply notAdmits
  cases type <;> cases state <;> simp [misses] at isGet isMiss ⊢

/-- A line is given up dirty exactly when it is modified. -/
theorem AccessType.putx_iff (isPut : type.isGet = false)
    (admits : type.admits state) : type = .PUTX ↔ state = .M := by
  cases type with
  | PUTS => rcases admits with rfl | rfl <;> simp
  | PUTX =>
    have isModified : state = .M := admits
    simp [isModified]
  | _ => cases isPut

/-! ## The level above the root -/

section Upper

variable (cfg : Config A) {arity : Path → Nat} {grant : Bool → MESIState}
    {sys : Sys A} {addr : Address} {lineId : LineId} {type : AccessType} {flags : Flags}

theorem Config.upperAnswer_get
    (grant : Bool → MESIState) (flags : Flags) (isGet : type.isGet = true) :
    Config.upperAnswer grant type flags = type.grant (grant flags.NOEXCL) := by
  cases type with
  | GETS | GETX => rfl
  | _ => cases isGet

theorem Config.upperAnswer_put
    (grant : Bool → MESIState) (flags : Flags) (isPut : type.isGet = false) :
    Config.upperAnswer grant type flags = .I := by
  cases type with
  | PUTS | PUTX => rfl
  | _ => cases isPut

/-- Granting a request of the root keeps the hierarchy coherent. -/
theorem coherent_ask_root {s : Slice} (grants : Grants grant)
    (isGet : type.isGet = true) (noexcl : Bool) (coherent : Coherent arity s)
    (admits : type.admits (s []).state) :
    Coherent arity (ask (grant noexcl) type noexcl [] s) := by
  have fetched := fetch_correct (n := []) noexcl isGet (grants noexcl) coherent trivial
  have isMiss := misses_of_admits isGet admits
  have isAsk := fetch_eq (grant noexcl) type noexcl [] s
  rw [if_pos isMiss] at isAsk
  rw [← isAsk]
  exact fetched.coherent

/-- The upper level writes the state of the root, and nothing else. -/
theorem upper_request (cycle srcId : Nat) :
    cfg.upper grant ((cfg.bottomCC []).request addr lineId type cycle srcId flags sys) sys =
      .ok (if type = .PUTX then
          ((Sys.stateRef [] lineId).write
            (Config.upperAnswer grant type flags) sys).setDirty addr false
        else
          (Sys.stateRef [] lineId).write (Config.upperAnswer grant type flags) sys,
          cycle + cfg.memoryLatency addr type cycle) :=
  rfl

theorem upper_get_spec (grants : Grants grant) (isGet : type.isGet = true)
    (req : Requestable arity sys addr [] lineId type flags) (cycle srcId : Nat) :
    Gives (cfg.upper grant ((cfg.bottomCC []).request addr lineId type cycle srcId flags sys) sys)
      (Upgraded arity grant sys addr [] type flags.NOEXCL cycle) := by
  have notPut : type ≠ .PUTX := by
    rintro rfl
    simp [AccessType.isGet] at isGet
  have localized := localized_stateRef (req.good.below []) req.found
      (Config.upperAnswer grant type flags)
  have slice : ((stateRef [] lineId).write (Config.upperAnswer grant type flags) sys).slice addr =
        ask (grant flags.NOEXCL) type flags.NOEXCL [] (sys.slice addr) := by
    rw [slice_stateRef req.found, Config.upperAnswer_get grant flags isGet]
    rfl
  rw [upper_request, if_neg notPut]
  apply Gives.ok
  exact {
    good := by
      apply req.good.localized localized
      · rw [slice]
        exact coherent_ask_root grants isGet flags.NOEXCL (req.good.coherent addr) req.admits
      · intro _ modified
        rw [slice]
        apply modified.withState
        intro isModified
        have admits := req.admits
        rw [isModified] at admits
        cases type <;> simp at admits notPut
    slice := by
      rwa [if_pos isGet]
    find := fun m _ other => localized.find m other
    others := fun other ne =>
      EvictedAbove.of_eq (localized.slice_other ne)
    untouched := by simp [isGet]
    array := by simp
    cycle := Nat.le_add_right _ _ }

theorem upper_put_spec (isPut : type.isGet = false)
    (req : Requestable arity sys addr [] lineId type flags) (cycle srcId : Nat) :
    Gives (cfg.upper grant ((cfg.bottomCC []).request addr lineId type cycle srcId flags sys) sys)
      (Upgraded arity grant sys addr [] type flags.NOEXCL cycle) := by
  have localized := localized_stateRef (req.good.below []) req.found .I
  have slice (dirty) :
      ((stateRef [] lineId).write .I sys).slice addr = surrender dirty [] (sys.slice addr) := by
    rw [slice_stateRef req.found]
    rfl
  have coherent : Coherent arity (((stateRef [] lineId).write .I sys).slice addr) := by
    rw [slice false]
    exact (req.good.coherent addr).surrender (valid_of_put isPut req.admits) (req.recalled isPut)
      (by simp)
  have array : (((stateRef [] lineId).write .I sys).caches []).array = (sys.caches []).array := by
    simp
  -- the memory may note that it has the line, which no cache shows
  have upgraded (dirty : Address → Bool)
      (good : Good arity { (stateRef [] lineId).write .I sys with dirty }) :
      Upgraded arity grant sys addr [] type flags.NOEXCL cycle
        ({ (stateRef [] lineId).write .I sys with dirty },
          cycle + cfg.memoryLatency addr type cycle) := {
    good
    slice := by
      rw [if_neg (by simp [isPut])]
      exact slice (decide (type = .PUTX))
    find := fun m _ other => localized.find m other
    others := fun other ne => EvictedAbove.of_eq (localized.slice_other ne)
    untouched := fun _ other ne => localized.slice_other ne
    array := fun _ => array
    cycle := Nat.le_add_right _ _ }
  rw [upper_request, Config.upperAnswer_put grant flags isPut]
  apply Gives.ok
  split
  next isDirty => exact upgraded _ (req.good.localized_clean localized coherent)
  next isClean =>
    apply upgraded
    apply req.good.localized localized coherent
    intro _ modified
    have isModified := modified.root (req.good.coherent addr) (req.recalled isPut)
    have admits := req.admits
    rw [isModified] at admits
    cases type <;> simp at admits isClean isPut

theorem upper_spec (grants : Grants grant) :
    UpperSpec arity grant [] (cfg.bottomCC []) (cfg.upper grant) := by
  constructor
  intro sys addr lineId type flags cycle srcId req
  cases kind : type.isGet with
  | true => exact upper_get_spec cfg grants kind req cycle srcId
  | false => exact upper_put_spec cfg kind req cycle srcId

end Upper

/-! ## The bottom controller -/

/-- The bottom controller serves a `GETS` or `GETX`, over any memory. -/
theorem MESIBottomCC.get_rule {Memory : Type} {bcc : MESIBottomCC Memory}
    {upper : MemObject Memory} {addr : Address} {lineId : LineId}
    {cycle srcId : Nat} {flags : Flags} {memory : Memory}
    {post : Memory × Nat → Prop} (noBypass : bcc.bypass = false) (isGet : type.isGet = true)
    (misses : type.admits ((bcc.array lineId).read memory) →
      Gives (bcc.fetch upper addr lineId type cycle srcId flags memory) (fun res =>
          type.served ((bcc.array lineId).read res.1) ∧ cycle ≤ res.2 ∧ post res))
    (hits : ¬ type.admits ((bcc.array lineId).read memory) →
      (type = .GETX → (bcc.array lineId).read memory = .M) → post (memory, cycle))
    (upgrades : type = .GETX → (bcc.array lineId).read memory = .E →
      (bcc.array lineId).read ((bcc.array lineId).write .M memory) = .M ∧
        post ((bcc.array lineId).write .M memory, cycle)) :
    Gives (bcc.processAccess upper addr lineId type cycle srcId flags memory)
      post := by
  unfold MESIBottomCC.processAccess
  rw [if_neg (by simp [noBypass])]
  cases type with
  | GETS =>
    change Gives (ite ((bcc.array lineId).read memory = .I) _ _) _
    split
    next isInvalid =>
      apply (misses isInvalid).bind
      rintro ⟨after, respCycle⟩ ⟨served, later, holds⟩
      have final : (bcc.array lineId).read after = .S ∨ (bcc.array lineId).read after = .E := served
      refine .check final ?_
      exact .check later (Gives.pure holds)
    next isValid =>
      refine .check le_rfl ?_
      exact .pure (hits isValid (by simp))
  | GETX =>
    change Gives (ite ((bcc.array lineId).read memory = .I ∨ (bcc.array lineId).read memory = .S) _
        (ite ((bcc.array lineId).read memory = .E) _ _)) _
    split
    next isShared =>
      apply (misses isShared).bind
      rintro ⟨after, respCycle⟩ ⟨served, later, holds⟩
      have final : (bcc.array lineId).read after = .M := served
      refine .check final ?_
      exact .check later (Gives.pure holds)
    next isExclusive =>
      split
      next isE =>
        obtain ⟨written, holds⟩ := upgrades rfl isE
        refine .check written ?_
        exact .check le_rfl (Gives.pure holds)
      next notE =>
        have isM : (bcc.array lineId).read memory = .M := by
          revert isExclusive notE
          cases (bcc.array lineId).read memory <;> simp
        refine .check isM ?_
        exact .check le_rfl (Gives.pure (hits isExclusive (fun _ => isM)))
  | _ => cases isGet

section BottomCC

variable (cfg : Config A) {arity : Path → Nat} {grant : Bool → MESIState}
    {n : Path} {upper : MemObject (Sys A)} {sys : Sys A} {addr : Address}
    {lineId : LineId} {type : AccessType} {flags : Flags}

/-- What the bottom controller returns once it has the permissions. -/
structure Obtained (arity : Path → Nat) (sys : Sys A) (addr : Address) (n : Path)
    (slice : Slice) (cycle : Nat) (result : Sys A × Nat) : Prop where
  good : Good arity result.1
  slice_eq : result.1.slice addr = slice
  others : ∀ other, other ≠ addr → EvictedAbove n (sys.slice other) (result.1.slice other)
  find : ∀ m, ¬ Above n m → ∀ other,
    A.find (result.1.caches m).array other = A.find (sys.caches m).array other
  cycle : cycle ≤ result.2

theorem Obtained.read {slice : Slice} {cycle : Nat} {res : Sys A × Nat}
    (obtained : Obtained arity sys addr n slice cycle res)
    (found : (sys.caches n).Has addr lineId) :
    (Sys.stateRef n lineId).read res.1 = (slice n).state := by
  have foundAfter := (obtained.find n (not_above_of_suffix List.suffix_rfl) addr).trans found
  rw [read_stateRef foundAfter, obtained.slice_eq]

/-- The state of one line changes within its kind. -/
theorem obtained_setState (good : Good arity sys)
    (found : (sys.caches n).Has addr lineId) {state : MESIState}
    (invalid : state = .I ↔ (sys.slice addr n).state = .I)
    (excl : state.isExclusive = (sys.slice addr n).state.isExclusive)
    (kept : (sys.slice addr n).state = .M → state = .M) (cycle : Nat) :
    Obtained arity sys addr n (update (sys.slice addr) n ((sys.slice addr n).withState state)) cycle
      ((Sys.stateRef n lineId).write state sys, cycle) := by
  have localized := localized_stateRef (good.below n) found state
  have slice := slice_stateRef found state
  exact {
    good := by
      apply good.localized localized
      · rw [slice]
        exact (good.coherent addr).setState invalid excl
      · intro _ modified
        rw [slice]
        exact modified.withState kept
    slice_eq := slice
    others := fun other ne =>
      EvictedAbove.of_eq (localized.slice_other ne)
    find := fun m _ other => localized.find m other
    cycle := le_rfl }

/-- A child that was served a miss holds the line as it asked for it. -/
theorem served_ask {s : Slice} (grants : Grants grant)
    (isGet : type.isGet = true) (noexcl : Bool) (coherent : Coherent arity s)
    (inTree : InTree arity n) (isMiss : type.misses (s n).state = true) :
    type.served (ask (grant noexcl) type noexcl n s n).state := by
  cases n with
  | nil =>
    cases type with
    | GETS => exact grants noexcl
    | GETX => rfl
    | _ => cases isGet
  | cons i p =>
    have fetched := fetch_correct noexcl isGet (grants noexcl) coherent inTree.2
    have below : fetch (grant noexcl) type noexcl p s (i :: p) = s (i :: p) :=
      fetched.below _ (List.suffix_cons i p) (List.cons_ne_self i p)
    rw [← below] at isMiss
    obtain ⟨state, served, child, _⟩ := serve_child fetched.coherent noexcl isMiss
    simp only [ask, child]
    exact served

/--
The bottom controller serves a `GETS` or `GETX` when its misses are served; the
line is `asked` after a miss.
-/
theorem bottomCC_get_rule (noBypass : cfg.bypass n = false) (good : Good arity sys)
    (found : (sys.caches n).Has addr lineId)
    (isGet : type.isGet = true) {asked : Slice} {cycle srcId : Nat}
    (fetches : type.admits (sys.slice addr n).state →
      Gives ((cfg.bottomCC n).fetch upper addr lineId type cycle srcId flags sys)
        (Obtained arity sys addr n asked cycle))
    (served : type.misses (sys.slice addr n).state = true → type.served (asked n).state) :
    Gives ((cfg.bottomCC n).processAccess upper addr lineId type cycle srcId flags sys)
      (Obtained arity sys addr n (if type.misses (sys.slice addr n).state then asked
        else touch type n (sys.slice addr))
        cycle) := by
  have readState := read_stateRef found
  have isHit : ¬ type.admits (sys.slice addr n).state →
      type.misses (sys.slice addr n).state = false := fun notAdmits =>
    eq_false_of_ne_true (hits_of_not_admits isGet notAdmits)
  apply MESIBottomCC.get_rule noBypass isGet
  · intro admits
    change type.admits ((stateRef n lineId).read sys) at admits
    rw [readState] at admits
    have isMiss := misses_of_admits isGet admits
    rw [if_pos isMiss]
    apply (fetches admits).mono
    intro res obtained
    refine ⟨?_, obtained.cycle, obtained⟩
    change type.served ((stateRef n lineId).read res.1)
    rw [obtained.read found]
    exact served isMiss
  · intro notAdmits isModified
    change ¬ type.admits ((stateRef n lineId).read sys) at notAdmits
    change type = .GETX → (stateRef n lineId).read sys = .M at isModified
    rw [readState] at notAdmits isModified
    have same : (sys.slice addr n).withState (type.hit (sys.slice addr n).state) =
          sys.slice addr n := by
      refine Line.ext ?_ rfl rfl
      cases type with
      | GETX => exact (isModified rfl).symm
      | GETS | PUTS => rfl
      | PUTX => rfl
    rw [isHit notAdmits]
    exact {
      good := good
      slice_eq := by simp only [touch, same, update_eq_self, if_false, Bool.false_eq_true]
      others := fun _ _ => EvictedAbove.of_eq rfl
      find := fun _ _ _ => rfl
      cycle := le_rfl }
  · rintro rfl isE
    change (stateRef n lineId).read sys = .E at isE
    rw [readState] at isE
    have hit := isHit (by simp only [isE]; simp)
    have kind := hit_kind isGet hit
    rw [hit]
    refine ⟨?_, obtained_setState good found kind.1 kind.2 (fun _ => rfl) cycle⟩
    simp [Config.bottomCC]

section Get

variable (upperSpec : UpperSpec arity grant n (cfg.bottomCC n) upper)
    (grants : Grants grant) (inTree : InTree arity n)
    (good : Good arity sys) (accepted : A.accepts addr)
    (found : (sys.caches n).Has addr lineId)
    (isGet : type.isGet = true) (demand : flags.PREFETCH = false)

include upperSpec good accepted found isGet demand

theorem bottomCC_fetch_spec (admits : type.admits (sys.slice addr n).state) (cycle srcId : Nat) :
    Gives ((cfg.bottomCC n).fetch upper addr lineId type cycle srcId flags sys)
      (Obtained arity sys addr n (ask (grant flags.NOEXCL) type flags.NOEXCL n (sys.slice addr))
        cycle) := by
  have req : Requestable arity sys addr n lineId type flags := {
    good := good
    accepted := fun _ => accepted
    found := found
    admits := admits
    recalled := by simp [isGet]
    demand := demand
    noKeep := by
      rintro rfl
      simp [AccessType.isGet] at isGet }
  apply (upperSpec.serves cycle srcId req).bind
  rintro ⟨memory, parentCycle⟩ upgraded
  exact .pure {
    good := upgraded.good
    slice_eq := by rw [upgraded.slice, if_pos isGet]
    others := upgraded.others
    find := upgraded.find
    cycle := Nat.le_add_right _ _ }

include grants inTree

theorem bottomCC_get_spec (noBypass : cfg.bypass n = false) (cycle srcId : Nat) :
    Gives ((cfg.bottomCC n).processAccess upper addr lineId type cycle srcId flags sys)
      (Obtained arity sys addr n (fetch (grant flags.NOEXCL) type flags.NOEXCL n (sys.slice addr))
        cycle) := by
  rw [fetch_eq]
  apply bottomCC_get_rule cfg noBypass good found isGet
  · intro admits
    exact bottomCC_fetch_spec cfg upperSpec good accepted found isGet demand admits cycle srcId
  · exact served_ask grants isGet flags.NOEXCL (good.coherent addr) inTree

end Get

theorem arrays_stateRef (state : MESIState) (m : Path) :
    (((Sys.stateRef n lineId).write state sys).caches m).array = (sys.caches m).array := by
  by_cases isSelf : m = n
  · subst isSelf
    simp
  · simp [isSelf]

/-- The bottom controller of a cache that a child gives a line up to. -/
theorem bottomCC_put_spec (noBypass : cfg.bypass n = false) (good : Good arity sys)
    (found : (sys.caches n).Has addr lineId)
    (isPut : type.isGet = false) (valid : (sys.slice addr n).state ≠ .I)
    (excl : type = .PUTX → (sys.slice addr n).state.isExclusive = true) (cycle srcId : Nat) :
    Gives ((cfg.bottomCC n).processAccess upper addr lineId type cycle srcId flags sys) (fun res =>
        Obtained arity sys addr n (update (sys.slice addr) n ((sys.slice addr n).withState
                (if type = .PUTX then .M else (sys.slice addr n).state)))
            cycle res ∧
          Localized sys res.1 addr n ∧
          ∀ m, (res.1.caches m).array = (sys.caches m).array) := by
  have readState := read_stateRef found
  have unchanged : Obtained arity sys addr n (update (sys.slice addr) n
          ((sys.slice addr n).withState (sys.slice addr n).state))
        cycle (sys, cycle) :=
    { good := good
      slice_eq := (update_eq_self n (sys.slice addr)).symm
      others := fun _ _ => EvictedAbove.of_eq rfl
      find := fun _ _ _ => rfl
      cycle := le_rfl }
  unfold MESIBottomCC.processAccess
  rw [if_neg (by simp [Config.bottomCC, noBypass])]
  cases type with
  | PUTS =>
    change Gives (check ((stateRef n lineId).read sys ≠ .I) _ >>= _) _
    rw [readState]
    refine .check valid ?_
    refine .check le_rfl ?_
    exact .pure ⟨unchanged, Localized.refl (good.below n) addr, fun _ => rfl⟩
  | PUTX =>
    have kind : (sys.slice addr n).state = .M ∨ (sys.slice addr n).state = .E := by
      have isExclusive := excl rfl
      revert isExclusive
      cases (sys.slice addr n).state <;> simp
    change Gives (check ((stateRef n lineId).read sys = .M ∨
        (stateRef n lineId).read sys = .E) _ >>= fun _ =>
          ite ((stateRef n lineId).read sys = .E) _ _) _
    rw [readState]
    refine .check kind ?_
    split
    next isE =>
      refine .check le_rfl ?_
      refine .pure ⟨obtained_setState good found ?_ ?_ (fun _ => rfl) cycle,
        localized_stateRef (good.below n) found .M, ?_⟩
      · simp only [isE]
        simp
      · simp only [isE]
        simp
      · exact arrays_stateRef .M
    next notE =>
      have isM := kind.resolve_right notE
      rw [isM] at unchanged
      refine .check le_rfl ?_
      exact .pure ⟨unchanged, Localized.refl (good.below n) addr, fun _ => rfl⟩
  | _ => cases isPut

end BottomCC

end Damov.Coherence

end
