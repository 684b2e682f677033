import Damov.Coherence.InvalidationRefinement

/-!
# The top controller refines the line protocol

`MESITopCC::processAccess` answers a request of a child once the cache itself
has the permissions for it. Its decision depends on the line of the cache
alone: `service` gives, for each request, whom it invalidates, what the
directory entry becomes and the state that the child receives.
-/

noncomputable section

open scoped Classical
open Function

namespace Damov.Coherence

open Library.Checked List Finset Line

variable {A : CacheArray}

attribute [local simp] AccessType.isGet Sys.entryRef CacheState.setEntry Entry.isExclusive

/-- The states of a child's line in which it makes a request. -/
def AccessType.admits : AccessType → MESIState → Prop
  | .GETS, state => state = .I
  | .GETX, state => state = .I ∨ state = .S
  | .PUTS, state => state = .S ∨ state = .E
  | .PUTX, state => state = .M

/-- A line that a child gives up is valid. -/
theorem AccessType.valid_of_put {type : AccessType} {state : MESIState}
    (isPut : type.isGet = false) (admits : type.admits state) : state ≠ .I := by
  rintro rfl
  cases type <;> simp [AccessType.admits] at isPut admits

/-- What a cache does to its children and its entry to serve a request. -/
structure Service where
  kind : InvType
  targets : Finset Nat
  sharers : Finset Nat
  owned : Bool
  state : MESIState

/-- The service for a request of child `i`. -/
def service (type : AccessType) (noexcl : Bool) (i : Nat) (line : Line) :
    Service :=
  match type with
  | .GETX => ⟨.INV, line.sharers.erase i, {i}, true, .M⟩
  | .GETS =>
    if line.sharers = ∅ ∧ line.state.isExclusive = true ∧ noexcl = false then
      ⟨.INVX, ∅, {i}, true, .E⟩
    else if line.owned = true then
      ⟨.INVX, line.sharers, insert i line.sharers, false, .S⟩
    else
      ⟨.INVX, ∅, insert i line.sharers, false, .S⟩
  | .PUTS => ⟨.INV, ∅, line.sharers.erase i, false, .I⟩
  | .PUTX => ⟨.INV, ∅, line.sharers.erase i, false, .I⟩

/-- The transaction of a service that leaves the cache in the given state. -/
def Service.apply (service : Service) (state : MESIState) (p : Path) (i : Nat)
    (s : Slice) : Slice :=
  transact service.kind service.targets ⟨state, service.sharers, service.owned⟩ service.state p i s

/-- The state of the cache once it has the dirty data of the invalidations. -/
def Service.collect (service : Service) (p : Path) (s : Slice) : MESIState :=
  if DirtyUnder s p service.targets then .M else (s p).state

@[simp]
theorem not_dirtyUnder_empty (s : Slice) (p : Path) : ¬ DirtyUnder s p ∅ := by simp [DirtyUnder]

theorem serve_eq_service {type : AccessType} (noexcl : Bool) {p : Path} {i : Nat} {s : Slice}
    (isGet : type.isGet = true) (ready : type.fetched (s p).state) :
    serve type noexcl p i s = (service type noexcl i (s p)).apply
        ((service type noexcl i (s p)).collect p s) p i s := by
  cases type with
  | GETS =>
    simp only [serve, serveGets, service, Service.apply, Service.collect, reduceCtorEq, if_false]
    split
    · simp
    · split <;> simp
  | GETX =>
    have modified : (s p).state = .M := ready
    simp [serve, serveGetx, service, Service.apply, Service.collect, modified]
  | _ => cases isGet

/-- What the top controller returns for a request of child `i`. -/
structure Answered (sys : Sys A) (addr : Address) (n : Path) (i : Nat)
    (service : Service) (cycle : Nat) (result : Sys A × Bool × Nat) :
    Prop where
  localized : Localized sys result.1 addr n
  slice : result.1.slice addr = service.apply (sys.slice addr n).state n i (sys.slice addr)
  writeback : result.2.1 = true ↔ DirtyUnder (sys.slice addr) n service.targets
  array : (result.1.caches n).array = (sys.caches n).array
  cycle : cycle ≤ result.2.2

section Answer

variable {sys mid : Sys A} {addr : Address} {n : Path} {i : Nat}
    {lineId childLine : LineId} (service : Service) (line : Line)

/-- The last writes: the directory entry, and the state of the child. -/
theorem answer_spec (localized : Localized sys mid addr n) (slice : mid.slice addr = update
        (lowerUnder service.kind n service.targets (sys.slice addr)) n
        line)
    (array : (mid.caches n).array = (sys.caches n).array)
    (lineState : line.state = (sys.slice addr n).state)
    (found : (sys.caches n).Has addr lineId)
    (foundChild : (sys.caches (i :: n)).Has addr childLine)
    (notTarget : i ∉ service.targets) {entry : Entry} (entryOk : EntryOk entry)
    (sharers : entry.sharers = service.sharers) (owned : entry.isExclusive = service.owned)
    {writeback : Bool} {cycle respCycle : Nat}
    (isWriteback : writeback = true ↔ DirtyUnder (sys.slice addr) n service.targets)
    (later : cycle ≤ respCycle) :
    Answered sys addr n i service cycle ((Sys.stateRef (i :: n) childLine).write service.state
        ((Sys.entryRef n lineId).write entry mid), writeback,
        respCycle) := by
  have foundMid := (localized.find n addr).trans found
  have entered := localized.trans (localized_entryRef localized.sound foundMid entryOk)
  have foundEntered :
      A.find (((Sys.entryRef n lineId).write entry mid).caches (i :: n)).array addr =
        some childLine := by
    rwa [entered.find]
  have childBelow : SoundBelow ((Sys.entryRef n lineId).write entry mid) (i :: n) :=
    fun m suffix => entered.sound m (suffix_of_cons_suffix suffix)
  have notSelf : i :: n ≠ n := cons_ne_self i n
  exact {
    localized := entered.trans ((localized_stateRef childBelow foundEntered
          service.state).up entered.sound)
    slice := by
      rw [slice_stateRef foundEntered, slice_entryRef foundMid, slice, Service.apply, transact]
      simp only [update_self, update_idem, update_of_ne notSelf, sharers, owned, lineState]
      rw [lowerUnder_of_not (fun under => notTarget (under_child_iff.mp under))]
    writeback := isWriteback
    array := by simp [Sys.stateRef, array]
    cycle := later }

end Answer

section TopCC

variable (cfg : Config A) {arity : Path → Nat} {n : Path} {k i : Nat}
    {child : Fin k → Invalidate (Sys A)}
    {sys : Sys A} {addr : Address} {lineId childLine : LineId}
    (childSpec : ∀ c, InvalidateSpec arity (c.val :: n) (child c))
    (isArity : arity n = k) (sound : SoundBelow sys n)
    (directory : DirectoryBelow arity (sys.slice addr) n)
    (found : (sys.caches n).Has addr lineId)
    (foundChild : (sys.caches (i :: n)).Has addr childLine)

/-- Removing a sharer keeps the counter exact and leaves no owner. -/
theorem EntryOk.erase {entry : Entry} (ok : EntryOk entry) (mem : i ∈ entry.sharers) :
    EntryOk
        { entry with
          sharers := entry.sharers.erase i
          numSharers := entry.numSharers - 1 } ∧
      Entry.isExclusive
          { entry with
            sharers := entry.sharers.erase i
            numSharers := entry.numSharers - 1 } = false := by
  refine ⟨⟨?_, ?_⟩, ?_⟩
  · simp [ok.count, card_erase_of_mem mem]
  · intro excl
    have bound := ok.owner excl
    simp only
    omega
  · cases excl : entry.exclusive with
    | false => simp
    | true =>
      have bound := ok.owner excl
      simp only [Entry.isExclusive, Bool.and_true, beq_eq_false_iff_ne]
      omega

include sound found foundChild

theorem removeSharer_spec (mem : i ∈ (sys.slice addr n).sharers) (cycle : Nat) :
    Gives ((cfg.topCC n k child).removeSharer lineId i
        (Sys.stateRef (i :: n) childLine) false cycle sys)
      (fun res =>
        Answered sys addr n i ⟨.INV, ∅, (sys.slice addr n).sharers.erase i, false, .I⟩ cycle res ∧
          (res.1.caches (i :: n)).array = (sys.caches (i :: n)).array) := by
  have entryOk := (sound n suffix_rfl).entry lineId
  have line := line_of_find found
  have memberEntry : i ∈ sys.sharers n lineId := by simpa [line] using mem
  have erased := entryOk.erase memberEntry
  refine .check memberEntry ?_
  refine .pure ?_
  constructor
  · exact answer_spec _ (sys.slice addr n) (Localized.refl sound addr)
      (by simp) rfl rfl found foundChild (by simp) erased.1 (by simp [line])
      erased.2 (by simp) le_rfl
  · simp [Config.topCC, Sys.stateRef, CacheState.setState]

include childSpec isArity directory

theorem topCC_gets_spec (childInvalid : (sys.slice addr (i :: n)).state = .I)
    (cycle srcId : Nat) (flags : Flags) :
    Gives ((cfg.topCC n k child).processAccess addr lineId .GETS i
        ((cfg.bottomCC n).isExclusive lineId sys)
        (Sys.stateRef (i :: n) childLine) false cycle srcId flags sys)
      (Answered sys addr n i (service .GETS flags.NOEXCL i (sys.slice addr n)) cycle) := by
  have entryOk := (sound n suffix_rfl).entry lineId
  have line : sys.slice addr n = _ := line_of_find found
  have notSharer : i ∉ (sys.slice addr n).sharers := fun mem =>
    (directory.sharer i).mp mem childInvalid
  have unchanged : sys.slice addr = update (lowerUnder .INVX n ∅ (sys.slice addr)) n
          (sys.slice addr n) := by
    rw [lowerUnder_empty, update_eq_self]
  change Gives (ite (((sys.caches n).entries lineId).isEmpty = true ∧
      ((sys.caches n).states lineId).isExclusive = true ∧ ¬ flags.NOEXCL = true) _ _) _
  split
  next grants =>
    obtain ⟨isEmpty, haveExclusive, allowed⟩ := grants
    have empty := entryOk.isEmpty_iff.mp isEmpty
    have granted : service .GETS flags.NOEXCL i (sys.slice addr n) = ⟨.INVX, ∅, {i}, true, .E⟩ := by
      rw [service, if_pos]
      rw [line]
      exact ⟨empty, haveExclusive, by simpa using allowed⟩
    rw [granted]
    refine .pure ?_
    have single : insert i (sys.sharers n lineId) = {i} := by simp [empty]
    exact answer_spec _ (sys.slice addr n) (Localized.refl sound addr)
      unchanged rfl rfl found foundChild (by simp)
      ⟨by simp [Config.topCC, single], by simp⟩ single rfl
      (by simp) le_rfl
  next notGranted =>
    have shared : service .GETS flags.NOEXCL i (sys.slice addr n) =
          ⟨.INVX, (sys.slice addr n).targets .INVX,
            insert i (sys.slice addr n).sharers, false, .S⟩ := by
      rw [service, if_neg]
      · simp only [targets]
        split <;> rfl
      · rintro ⟨empty, haveExclusive, allowed⟩
        rw [line] at empty haveExclusive
        exact notGranted ⟨entryOk.isEmpty_iff.mpr empty, haveExclusive, by simp [allowed]⟩
    rw [shared]
    have notSharerEntry : i ∉ sys.sharers n lineId := by
      rwa [line] at notSharer
    refine .check notSharerEntry ?_
    have downgrade : Gives (if ((sys.caches n).entries lineId).isExclusive = true then
            (cfg.topCC n k child).sendInvalidates addr lineId .INVX false cycle srcId sys
          else
            pure (sys, false, cycle))
          (Released sys addr n .INVX false cycle) := by
      split
      next owned =>
        exact sendInvalidates_spec cfg childSpec sound found
          (fun j target => isArity ▸ directory.ready (by simp) target)
          (by simp) false cycle srcId
      next notOwned =>
        refine .pure ?_
        have ownedLine : (sys.slice addr n).owned = false := by
          rw [line]
          simpa using notOwned
        exact released_refl sound (by simp only [targets, ownedLine, Bool.false_eq_true, if_false])
          (Line.ext rfl rfl ownedLine.symm)
    apply Gives.ite_bind downgrade
    rintro ⟨mid, writeback, respCycle⟩ released
    have foundMid := (released.localized.find n addr).trans found
    have lineMid : mid.slice addr n = (sys.slice addr n).release .INVX := by
      rw [released.slice, releaseSlice, update_self]
    rw [show mid.slice addr n = _ from line_of_find foundMid] at lineMid
    have midOk := (released.localized.sound n suffix_rfl).entry lineId
    have sharersMid : ((mid.caches n).entries lineId).sharers =
        (sys.slice addr n).sharers := congrArg sharers lineMid
    refine .check (congrArg owned lineMid) ?_
    refine .pure ?_
    have notTarget : i ∉ (sys.slice addr n).targets .INVX := by
      simp only [targets]
      split
      · exact notSharer
      · simp
    have count : EntryOk ⟨((mid.caches n).entries lineId).numSharers + 1,
          insert i ((mid.caches n).entries lineId).sharers, false⟩ := by
      refine ⟨?_, by simp⟩
      rw [← sharersMid] at notSharer
      rw [card_insert_of_notMem notSharer, midOk.count]
    exact answer_spec ⟨.INVX, (sys.slice addr n).targets .INVX,
        insert i (sys.slice addr n).sharers, false, .S⟩
      ((sys.slice addr n).release .INVX)
      released.localized released.slice released.array rfl found foundChild
      notTarget count (congrArg (insert i) sharersMid)
      (by simp)
      (by rw [released.writeback]; simp) released.cycle

omit sound in
/-- A `GETX` once the requester has left the directory. -/
theorem getx_rest (left : Sys A) (owned : Bool) (localized : Localized sys left addr n)
    (array : (left.caches n).array = (sys.caches n).array)
    (leftSlice : left.slice addr = update (sys.slice addr) n
        ⟨(sys.slice addr n).state, (sys.slice addr n).sharers.erase i, owned⟩)
    (cycle srcId : Nat) :
    Gives (do
        let (memory, inducedWriteback, respCycle) ←
          (cfg.topCC n k child).sendInvalidates addr lineId .INV false cycle srcId left
        let entry := (Sys.entryRef n lineId).read memory
        let memory := (Sys.entryRef n lineId).write
            { numSharers := entry.numSharers + 1
              sharers := insert i entry.sharers
              exclusive := true }
            memory
        check (((Sys.entryRef n lineId).read memory).numSharers = 1) Failure.getxNumSharers
        pure ((Sys.stateRef (i :: n) childLine).write .M memory, inducedWriteback, respCycle))
      (Answered sys addr n i ⟨.INV, (sys.slice addr n).sharers.erase i, {i}, true, .M⟩ cycle) := by
  have foundLeft := (localized.find n addr).trans found
  have targets : (left.slice addr n).targets .INV = (sys.slice addr n).sharers.erase i := by
    rw [leftSlice, update_self]
    rfl
  have child_same : ∀ {j m}, (j :: n) <:+ m → left.slice addr m = sys.slice addr m := by
    intro j m suffix
    rw [leftSlice, update_of_ne (ne_of_cons_suffix suffix)]
  have ready : ∀ j ∈ (left.slice addr n).targets .INV,
      j < k ∧ CoherentBelow arity (left.slice addr) (j :: n) ∧
        InvType.admits .INV (left.slice addr (j :: n)).state := by
    intro j target
    rw [targets] at target
    have target : j ∈ (sys.slice addr n).targets .INV := mem_of_mem_erase target
    obtain ⟨mem, below, admits⟩ := directory.ready (by simp) target
    refine ⟨isArity ▸ mem, ?_, ?_⟩
    · intro m suffix
      rw [child_same suffix]
      apply (below m suffix).congr
      intro c
      rw [child_same (suffix.trans (suffix_cons c m))]
    · rwa [child_same suffix_rfl]
  apply Gives.bind (sendInvalidates_spec cfg childSpec localized.sound foundLeft ready
      (by simp) false cycle srcId)
  rintro ⟨mid, writeback, respCycle⟩ released
  have foundMid := (released.localized.find n addr).trans foundLeft
  have lineMid : mid.slice addr n = (left.slice addr n).release .INV := by
    rw [released.slice, releaseSlice, update_self]
  rw [show mid.slice addr n = _ from line_of_find foundMid] at lineMid
  have sharersMid : ((mid.caches n).entries lineId).sharers = ∅ := congrArg sharers lineMid
  have countMid : ((mid.caches n).entries lineId).numSharers = 0 := by
    have midOk := (released.localized.sound n suffix_rfl).entry lineId
    rw [midOk.count, sharersMid, card_empty]
  have single : insert i ((mid.caches n).entries lineId).sharers = {i} := by simp [sharersMid]
  apply Gives.check
  · simp [countMid]
  refine .pure ?_
  have midSlice : mid.slice addr = update
        (lowerUnder .INV n ((sys.slice addr n).sharers.erase i) (sys.slice addr)) n
        ⟨(sys.slice addr n).state, ∅, false⟩ := by
    rw [released.slice, releaseSlice, targets, leftSlice, lowerUnder_update_self]
    simp [release]
  have dirty : DirtyUnder (left.slice addr) n ((sys.slice addr n).sharers.erase i) ↔
        DirtyUnder (sys.slice addr) n ((sys.slice addr n).sharers.erase i) := by
    rw [leftSlice, dirtyUnder_update_self]
  exact answer_spec ⟨.INV, (sys.slice addr n).sharers.erase i, {i}, true, .M⟩
    ⟨(sys.slice addr n).state, ∅, false⟩
    (localized.trans released.localized) midSlice
    (released.array.trans array) rfl found foundChild (by simp)
    ⟨by simp [countMid, sharersMid], by simp [countMid]⟩
    single (by simp [countMid])
    (by rw [released.writeback, targets, dirty]; simp) released.cycle

theorem topCC_getx_spec (modified : (sys.slice addr n).state = .M)
    (childShared : (sys.slice addr (i :: n)).state = .I ∨ (sys.slice addr (i :: n)).state = .S)
    (cycle srcId : Nat) (flags : Flags) :
    Gives ((cfg.topCC n k child).processAccess addr lineId .GETX i
        ((cfg.bottomCC n).isExclusive lineId sys)
        (Sys.stateRef (i :: n) childLine) false cycle srcId flags sys)
      (Answered sys addr n i (service .GETX flags.NOEXCL i (sys.slice addr n)) cycle) := by
  have entryOk := (sound n suffix_rfl).entry lineId
  have line : sys.slice addr n = _ := line_of_find found
  have sharers : (sys.slice addr n).sharers =
      sys.sharers n lineId := congrArg sharers line
  have haveExclusive : (cfg.bottomCC n).isExclusive lineId sys = true := by
    have isModified : (sys.caches n).states lineId = .M := by
      rwa [line] at modified
    change ((sys.caches n).states lineId).isExclusive = true
    rw [isModified]
    rfl
  have rest := fun left owned localized array leftSlice =>
    getx_rest cfg childSpec isArity directory found foundChild left owned
      localized array leftSlice cycle srcId
  refine .check haveExclusive ?_
  change Gives (ite (i ∈ sys.sharers n lineId) _ _) _
  split
  next mem =>
    have notOwned : ((sys.caches n).entries lineId).isExclusive = false := by
      by_contra owned
      have ownedLine : (sys.slice addr n).owned = true := by
        rw [line]
        simpa using owned
      obtain ⟨j, single, excl⟩ := directory.owner ownedLine
      have isOwner : i = j := by
        rw [← sharers, single] at mem
        simpa using mem
      subst isOwner
      rcases childShared with eq | eq <;> simp only [eq] at excl <;> simp at excl
    refine .check notOwned ?_
    have erased := entryOk.erase mem
    apply rest _ _ (localized_entryRef sound found erased.1)
    · simp
    · rw [sharers]
      exact slice_entryRef found _
  next notMember =>
    apply rest _ _ (Localized.refl sound addr) rfl
    rw [erase_eq_of_notMem (sharers ▸ notMember)]
    exact (update_eq_self n (sys.slice addr)).symm

/-- The top controller answers every request that a child may make. -/
theorem topCC_processAccess_spec {type : AccessType}
    (ready : type.isGet = true → type.fetched (sys.slice addr n).state)
    (admits : type.admits (sys.slice addr (i :: n)).state) (cycle srcId : Nat) {flags : Flags}
    (noKeep : type = .PUTX → flags.PUTX_KEEPEXCL = false) :
    Gives ((cfg.topCC n k child).processAccess addr lineId type i
        ((cfg.bottomCC n).isExclusive lineId sys)
        (Sys.stateRef (i :: n) childLine) false cycle srcId flags sys)
      (fun res =>
        Answered sys addr n i (service type flags.NOEXCL i (sys.slice addr n)) cycle res ∧
          (type.isGet = false → (res.1.caches (i :: n)).array = (sys.caches (i :: n)).array)) := by
  cases type with
  | GETS =>
    apply (topCC_gets_spec cfg childSpec isArity sound directory found
      foundChild admits cycle srcId flags).mono
    intro res answered
    exact ⟨answered, by simp⟩
  | GETX =>
    apply (topCC_getx_spec cfg childSpec isArity sound directory found
      foundChild (ready rfl) admits cycle srcId flags).mono
    intro res answered
    exact ⟨answered, by simp⟩
  | PUTS =>
    have sharer : i ∈ (sys.slice addr n).sharers :=
      (directory.sharer i).mpr (AccessType.valid_of_put rfl admits)
    apply (removeSharer_spec cfg sound found foundChild sharer cycle).mono
    rintro res ⟨answered, array⟩
    exact ⟨answered, fun _ => array⟩
  | PUTX =>
    have excl : (sys.slice addr (i :: n)).state.isExclusive =
        true := by
      have isModified : (sys.slice addr (i :: n)).state = .M := admits
      rw [isModified]
      rfl
    have owned := directory.exclusive i excl
    have line := line_of_find found
    have entryOwned : ((sys.caches n).entries lineId).isExclusive = true := by
      simpa [line] using owned
    refine .check entryOwned ?_
    rw [noKeep rfl]
    have sharer : i ∈ (sys.slice addr n).sharers :=
      (directory.sharer i).mpr (MESIState.ne_I_of_isExclusive excl)
    apply (removeSharer_spec cfg sound found foundChild sharer cycle).mono
    rintro res ⟨answered, array⟩
    exact ⟨answered, fun _ => array⟩

end TopCC

end Damov.Coherence

end
