import Damov.Arrays.SetAssocArray
import Damov.Coherence.AccessRefinement

/-!
# The filter in front of a first-level cache

`FilterCache` extends a terminal cache with an array that holds, for each set,
the line that was used last. Loads and stores look there first and take the
slow path through the cache on a miss.

The parent is any level that answers requests as the protocol asks for. While
it serves a request it may invalidate or downgrade lines of this cache, the
requested line included, and so it may at any other time; it only sends what its
directory justifies.
-/

namespace Damov.Coherence

open Arrays Function Library.Checked AccessType CacheState

/-! ## The model -/

structure FilterEntry where
  rdAddr : Address
  wrAddr : Address
  availCycle : Nat
deriving DecidableEq

/-- The entry after `clear()`. -/
def FilterEntry.clear : FilterEntry := ⟨0, 0, 0⟩

/-- The parameters of a filter cache and of the process that uses it. -/
structure FilterCache where
  l1 : SetAssocArray
  identity : l1.hf = IdHashFamily
  setBits_le : l1.setBits ≤ 32
  lineBits : Nat
  lineBits_pos : 0 < lineBits
  lineBits_le : lineBits ≤ 32
  procMask : Address
  disjoint : ∀ vAddr : Address, procMask &&& (vAddr >>> lineBits) = 0
  accLat : Nat
  invLat : Nat
  selfId : Nat
  getRTT : Nat → Nat → Nat
  nonInclusiveHack : Bool
  srcId : Nat
  reqFlags : Flags

namespace FilterCache

variable (F : FilterCache)

/-- The filter array and the memory of the cache behind it. -/
structure State where
  filterArray : Nat → FilterEntry
  cache : CacheState F.l1.toCacheArray

/-- Write an entry of the filter array. -/
def State.setEntry {F : FilterCache} (state : F.State) (idx : Nat) (entry : FilterEntry) :
    F.State :=
  { state with filterArray := update state.filterArray idx entry }

def arrayRef : Ref F.State F.l1.toCacheArray.State where
  read state := state.cache.array
  write array state := { state with cache := state.cache.setArray array }

def stateRef (lineId : LineId) : Ref F.State MESIState where
  read state := state.cache.states lineId
  write value state := { state with cache := state.cache.setState lineId value }

def bcc : MESIBottomCC F.State where
  array := F.stateRef
  selfId := F.selfId
  getRTT := F.getRTT
  nonInclusiveHack := F.nonInclusiveHack
  bypass := false

/-- The cache behind the filter. -/
def toCache : Cache F.l1.toCacheArray F.State where
  array := F.arrayRef
  cc := .MESITerminalCC F.bcc
  accLat := F.accLat
  invLat := F.invLat

/-- The virtual line of an address. -/
def vLineAddr (vAddr : Address) : Address := vAddr >>> F.lineBits

/-- The line address that the cache is asked for. -/
def pLineAddr (vLineAddr : Address) : Address := F.procMask ||| vLineAddr

/-- The filter entry of a line. -/
def idx (lineAddr : Address) : Nat := (lineAddr &&& F.l1.setMask).toNat

def replace (parent : MemObject F.State) (vLineAddr : Address) (idx : Nat)
    (isLoad : Bool) (curCycle : Nat) (state : F.State) :
    Except Failure (F.State × Nat) := do
  let (state, respCycle) ← F.toCache.access parent
      ⟨F.pLineAddr vLineAddr, if isLoad then .GETS else .GETX, 0, dummyState,
        curCycle, .I, F.srcId, F.reqFlags⟩
      state
  let old := state.filterArray idx
  pure (state.setEntry idx
      { wrAddr := if isLoad then -1 else vLineAddr
        rdAddr := vLineAddr
        availCycle := if old.rdAddr ≠ vLineAddr then respCycle else old.availCycle },
      respCycle)

def load (parent : MemObject F.State) (vAddr : Address) (curCycle : Nat)
    (state : F.State) : Except Failure (F.State × Nat) :=
  let vLineAddr := F.vLineAddr vAddr
  let entry := state.filterArray (F.idx vLineAddr)
  if vLineAddr = entry.rdAddr then
    pure (state, max curCycle entry.availCycle)
  else
    F.replace parent vLineAddr (F.idx vLineAddr) true curCycle state

def store (parent : MemObject F.State) (vAddr : Address) (curCycle : Nat)
    (state : F.State) : Except Failure (F.State × Nat) :=
  let vLineAddr := F.vLineAddr vAddr
  let entry := state.filterArray (F.idx vLineAddr)
  if vLineAddr = entry.wrAddr then
    pure (state, max curCycle entry.availCycle)
  else
    F.replace parent vLineAddr (F.idx vLineAddr) false curCycle state

/-- The first half of `invalidate`: drop the filter entry of the line. -/
def forget (lineAddr : Address) (state : F.State) : F.State :=
  let entry := state.filterArray (F.idx lineAddr)
  if entry.rdAddr ||| F.procMask = lineAddr then
    state.setEntry (F.idx lineAddr) { entry with wrAddr := -1, rdAddr := -1 }
  else
    state

def invalidate : Invalidate F.State := fun req reqWriteback state =>
  F.toCache.invalidate req reqWriteback (F.forget req.lineAddr state)

def contextSwitch (state : F.State) : F.State :=
  { state with
    filterArray := fun i =>
      if i < F.l1.numSets then FilterEntry.clear else state.filterArray i }

/-! ## The parent and the runs -/

instance : (type : InvType) → (state : MESIState) → Decidable (type.admits state)
  | .INV, state => inferInstanceAs (Decidable (state ≠ .I))
  | .INVX, state => inferInstanceAs (Decidable (state.isExclusive = true))
  | .FWD, _ => inferInstanceAs (Decidable False)

/-- An invalidation by the parent, sent only when its directory justifies it. -/
def receive (state : F.State) (req : InvReq) : Except Failure F.State := do
  if req.type.admits (state.cache.stateAt req.lineAddr) then
    let (state, _, _) ← F.invalidate req false state
    pure state
  else
    pure state

/-- What the parent does for one request. -/
structure Reply where
  invalidations : List InvReq
  exclusive : Bool
  latency : Nat

/-- The state that a request is answered with. -/
def Reply.answer (reply : Reply) : AccessType → MESIState
  | .GETS => if reply.exclusive then .E else .S
  | .GETX => .M
  | .PUTS => .I
  | .PUTX => .I

/-- A parent that replies as given to each type of request. -/
def parent (reply : AccessType → Reply) : MemObject F.State := fun req state => do
    let state ← (reply req.type).invalidations.foldlM F.receive state
    pure (req.state.write ((reply req.type).answer req.type) state,
      req.cycle + (reply req.type).latency)

/-- The operations on a filter cache. -/
inductive Op where
  | load (vAddr : Address) (curCycle : Nat) (reply : AccessType → Reply)
  | store (vAddr : Address) (curCycle : Nat) (reply : AccessType → Reply)
  | invalidate (req : InvReq)
  | contextSwitch

def step (state : F.State) : Op → Except Failure F.State
  | .load vAddr curCycle reply => do
      let (state, _) ← F.load (F.parent reply) vAddr curCycle state
      pure state
  | .store vAddr curCycle reply => do
      let (state, _) ← F.store (F.parent reply) vAddr curCycle state
      pure state
  | .invalidate req => F.receive state req
  | .contextSwitch => pure (F.contextSwitch state)

variable (array : F.l1.State)

/-- A filter cache as it is constructed: no line is valid. -/
def initial : F.State where
  filterArray := fun _ => FilterEntry.clear
  cache := {
    array := array
    states := fun _ => .I
    entries := fun _ => Entry.clear }

def run (ops : List Op) : Except Failure F.State := ops.foldlM F.step (F.initial array)

/-! ## Addresses -/

section Addresses

variable {F}

theorem set_eq_idx (lineAddr : Address) : F.l1.set lineAddr = F.idx lineAddr := by
  rw [SetAssocArray.set, F.identity]
  rfl

theorem getLsbD_setMask {i : Nat} (inSet : F.l1.setMask.getLsbD i = true) : i < F.l1.setBits := by
  rw [SetAssocArray.setMask, SetAssocArray.numSets, BitVec.getLsbD_ofNat] at inSet
  simp at inSet
  exact inSet.2

/-- The index of a line does not depend on the process. -/
theorem procMask_and_setMask : F.procMask &&& F.l1.setMask = 0#64 := by
  apply BitVec.eq_of_getLsbD_eq
  intro i mem
  rw [BitVec.getLsbD_and, BitVec.getLsbD_zero, Bool.and_eq_false_imp]
  intro inProc
  by_contra inSet
  rw [Bool.not_eq_false] at inSet
  have bound := getLsbD_setMask inSet
  have clear := congrArg (BitVec.getLsbD · i) (F.disjoint (BitVec.allOnes 64))
  have small : F.lineBits + i < 64 := by
    have := F.setBits_le
    have := F.lineBits_le
    omega
  simp only [BitVec.getLsbD_and, inProc, BitVec.getLsbD_ushiftRight,
    BitVec.getLsbD_allOnes, small] at clear
  simp at clear

theorem idx_pLineAddr (v : Address) : F.idx (F.pLineAddr v) = F.idx v := by
  have distributes : (F.procMask ||| v) &&& F.l1.setMask =
        (F.procMask &&& F.l1.setMask) ||| (v &&& F.l1.setMask) := by
    apply BitVec.eq_of_getLsbD_eq
    intro i _
    simp [Bool.and_or_distrib_right]
  rw [idx, idx, pLineAddr, distributes, procMask_and_setMask, BitVec.zero_or]

theorem vLineAddr_ne_neg_one (vAddr : Address) : F.vLineAddr vAddr ≠ -1 := by
  intro eq
  have bit := congrArg (BitVec.getLsbD · 63) eq
  have := F.lineBits_pos
  have clear : vAddr.getLsbD (F.lineBits + 63) = false := BitVec.getLsbD_of_ge _ _ (by omega)
  simp [vLineAddr, clear] at bit

end Addresses

/-! ## The invariant -/

variable (cache : CacheState F.l1.toCacheArray)

/-- A filter entry agrees with the cache behind it. -/
structure EntryAgrees (idx : Nat) (entry : FilterEntry) : Prop where
  read : ∀ vAddr, F.vLineAddr vAddr ≠ 0 → entry.rdAddr = F.vLineAddr vAddr →
      F.idx (F.vLineAddr vAddr) = idx ∧ (cache.line (F.pLineAddr (F.vLineAddr vAddr))).state ≠ .I
  write : ∀ vAddr, F.vLineAddr vAddr ≠ 0 → entry.wrAddr = F.vLineAddr vAddr →
      entry.rdAddr = F.vLineAddr vAddr ∧ (cache.line (F.pLineAddr (F.vLineAddr vAddr))).state = .M

/-- The entries that the predicate selects agree with the cache. -/
structure AgreesOn (select : Nat → Prop) (state : F.State) : Prop where
  sound : CacheOk state.cache
  terminal : state.cache.entries = fun _ => Entry.clear
  entries : ∀ idx, select idx → F.EntryAgrees state.cache idx (state.filterArray idx)

section Invariant

variable {F} {select : Nat → Prop} {state : F.State} {lineAddr : Address} {lineId : LineId}

theorem EntryAgrees.clear (idx : Nat) : F.EntryAgrees cache idx FilterEntry.clear where
  read := fun _ ne0 eq => absurd eq.symm ne0
  write := fun _ ne0 eq => absurd eq.symm ne0

/-- The entry that an invalidation leaves behind. -/
theorem EntryAgrees.invalidated (idx availCycle : Nat) :
    F.EntryAgrees cache idx ⟨-1, -1, availCycle⟩ where
  read := fun vAddr _ eq =>
    absurd eq.symm (vLineAddr_ne_neg_one vAddr)
  write := fun vAddr _ eq =>
    absurd eq.symm (vLineAddr_ne_neg_one vAddr)

/-- An entry sees only the line that it names. -/
theorem EntryAgrees.congr {before after : CacheState F.l1.toCacheArray} {idx : Nat}
    {entry : FilterEntry} (agrees : F.EntryAgrees before idx entry)
    (same : ∀ vAddr, entry.rdAddr = F.vLineAddr vAddr → F.idx (F.vLineAddr vAddr) = idx →
      after.line (F.pLineAddr (F.vLineAddr vAddr)) =
        before.line (F.pLineAddr (F.vLineAddr vAddr))) :
    F.EntryAgrees after idx entry where
  read := by
    intro vAddr ne0 eq
    obtain ⟨isIdx, valid⟩ := agrees.read vAddr ne0 eq
    rw [same vAddr eq isIdx]
    exact ⟨isIdx, valid⟩
  write := by
    intro vAddr ne0 eq
    obtain ⟨isRead, modified⟩ := agrees.write vAddr ne0 eq
    rcases agrees.read vAddr ne0 isRead with ⟨isIdx, _⟩
    rw [same vAddr isRead isIdx]
    exact ⟨isRead, modified⟩

/-- A change that no line of the selected entries shows. -/
theorem AgreesOn.congr
    {after : F.State} (agrees : F.AgreesOn select state) (sound : CacheOk after.cache)
    (terminal : after.cache.entries = state.cache.entries)
    (filter : after.filterArray = state.filterArray)
    (same : ∀ other, select (F.idx other) → after.cache.line other = state.cache.line other) :
    F.AgreesOn select after where
  sound := sound
  terminal := terminal.trans agrees.terminal
  entries := by
    intro idx selected
    rw [filter]
    apply (agrees.entries idx selected).congr
    intro vAddr _ isIdx
    apply same
    rwa [idx_pLineAddr, isIdx]

end Invariant

/-! ## Invalidations -/

section Invalidate

variable {F} {select : Nat → Prop} {state : F.State} {lineId : LineId}

/-- Lookups of invalidations do not touch the array. -/
theorem lookup_of_find {array : F.l1.State} {lineAddr : Address} {found : Option LineId}
    (isFound : F.l1.toCacheArray.find array lineAddr = found) :
    F.l1.toCacheArray.lookup array lineAddr false = (found, array) := by
  have isScan : F.l1.scan array.array lineAddr = found :=
    (F.l1.lookup_fst array lineAddr false).symm.trans isFound
  change F.l1.lookup array lineAddr false = (found, array)
  rw [SetAssocArray.lookup, isScan]
  cases found <;> rfl

/-- What an invalidation leaves of the cache behind the filter. -/
structure Lowered (state : F.State) (lineAddr : Address) (after : F.State) : Prop where
  sound : CacheOk after.cache
  terminal : after.cache.entries = state.cache.entries
  filter : after.filterArray = state.filterArray
  array : after.cache.array = state.cache.array
  others : ∀ other, other ≠ lineAddr → after.cache.line other = state.cache.line other

theorem lowered_write (ok : CacheOk state.cache) {lineAddr : Address}
    (found : F.l1.toCacheArray.find state.cache.array lineAddr = some lineId) (value : MESIState) :
    Lowered state lineAddr ((F.stateRef lineId).write value state) where
  sound := ok.setState found value
  terminal := rfl
  filter := rfl
  array := rfl
  others := fun _ ne => line_setState_other ok found value ne

/-- The cache behind the filter loses the line, or the right to write it. -/
theorem cache_invalidate_spec (ok : CacheOk state.cache) {req : InvReq}
    (admits : req.type.admits (state.cache.line req.lineAddr).state) (reqWriteback : Bool) :
    Gives (F.toCache.invalidate req reqWriteback state)
      (fun res => Lowered state req.lineAddr res.1) := by
  have valid := InvType.admits_valid admits
  cases found : F.l1.toCacheArray.find state.cache.array req.lineAddr with
  | none =>
    rw [line_of_not_find found] at valid
    exact absurd rfl valid
  | some lineId =>
    have invalidate : F.toCache.invalidate req reqWriteback state =
          F.toCache.cc.processInv req lineId (req.cycle + F.invLat)
            reqWriteback state := by
      rw [Cache.invalidate_of_lookup found]
      change F.toCache.cc.processInv req lineId (req.cycle + F.invLat) reqWriteback
        (F.arrayRef.write (F.l1.toCacheArray.lookup state.cache.array req.lineAddr
            false).2 state) = _
      rw [lookup_of_find found]
      rfl
    rw [line_of_find found] at admits valid
    have lowered := lowered_write ok found
    have inval : Gives (F.bcc.processInval lineId req.type reqWriteback state)
          (fun res => Lowered state req.lineAddr res.1) := by
      refine .check valid ?_
      cases kind : req.type with
      | INV => exact .pure (lowered .I)
      | INVX =>
        rw [kind] at admits
        have exclusive : state.cache.states lineId = .E ∨ state.cache.states lineId = .M := by
          revert admits
          cases state.cache.states lineId <;> simp [InvType.admits]
        exact .check exclusive (Gives.pure (lowered .S))
      | FWD =>
        rw [kind] at admits
        exact admits.elim
    rw [invalidate]
    apply inval.bind
    rintro ⟨memory, writeback⟩ holds
    exact .pure holds

/-- The entries after one was dropped. -/
theorem forget_cases (state : F.State) (lineAddr : Address) (idx : Nat) :
    (F.forget lineAddr state).filterArray idx = state.filterArray idx ∧ (idx = F.idx lineAddr →
          (state.filterArray idx).rdAddr ||| F.procMask ≠ lineAddr) ∨
      ∃ availCycle, (F.forget lineAddr state).filterArray idx = ⟨-1, -1, availCycle⟩ := by
  rw [forget]
  split
  next isHeld =>
    by_cases isIdx : idx = F.idx lineAddr
    · right
      refine ⟨(state.filterArray idx).availCycle, ?_⟩
      rw [isIdx]
      simp [State.setEntry]
    · left
      refine ⟨?_, fun eq => absurd eq isIdx⟩
      simp [State.setEntry, isIdx]
  next notHeld =>
    left
    refine ⟨rfl, ?_⟩
    rintro rfl
    exact notHeld

theorem forget_cache (state : F.State) (lineAddr : Address) :
    (F.forget lineAddr state).cache = state.cache := by
  rw [forget]
  split <;> rfl

variable (agrees : F.AgreesOn select state)
include agrees

/-- An invalidation keeps the filter and the cache in agreement. -/
theorem invalidate_agrees {req : InvReq}
    (admits : req.type.admits (state.cache.line req.lineAddr).state) (reqWriteback : Bool) :
    Gives (F.invalidate req reqWriteback state) (fun res =>
        F.AgreesOn select res.1 ∧
        res.1.cache.array = state.cache.array) := by
  have cache := forget_cache state req.lineAddr
  rw [← cache] at admits
  apply (cache_invalidate_spec (cache.symm ▸ agrees.sound) admits reqWriteback).mono
  rintro res lowered
  refine ⟨⟨lowered.sound, ?_, ?_⟩, by rw [lowered.array, cache]⟩
  · rw [lowered.terminal, cache]
    exact agrees.terminal
  intro idx selected
  rw [lowered.filter]
  rcases forget_cases state req.lineAddr idx with
    ⟨same, notHeld⟩ | ⟨availCycle, dropped⟩
  · rw [same]
    apply (agrees.entries idx selected).congr
    intro vAddr isRead isIdx
    rw [← cache]
    apply lowered.others
    intro eq
    apply notHeld
    · rw [← isIdx, ← eq, idx_pLineAddr]
    · rw [isRead, ← eq, pLineAddr, BitVec.or_comm]
  · rw [dropped]
    exact EntryAgrees.invalidated _ idx availCycle

theorem receive_agrees (req : InvReq) : Gives (F.receive state req) (fun after =>
        F.AgreesOn select after ∧
        after.cache.array = state.cache.array) := by
  unfold receive
  rw [stateAt_eq]
  split
  next admits =>
    apply (invalidate_agrees agrees admits false).bind
    rintro ⟨after, writeback, respCycle⟩ holds
    exact .pure holds
  next => exact .pure ⟨agrees, rfl⟩

/-- What the parent does before it answers a request. -/
theorem parent_spec (reply : AccessType → Reply) (req : MemReq F.State) :
    Gives (F.parent reply req state) (fun res =>
        ∃ mid : F.State, F.AgreesOn select mid ∧ mid.cache.array = state.cache.array ∧
          res.1 = req.state.write ((reply req.type).answer req.type) mid ∧
          req.cycle ≤ res.2) := by
  have invalidations : Gives ((reply req.type).invalidations.foldlM F.receive state)
        (fun mid => F.AgreesOn select mid ∧ mid.cache.array = state.cache.array) := by
    apply Gives.foldlM (fun _ _ mid => F.AgreesOn select mid ∧ mid.cache.array = state.cache.array)
    · rintro _ inv _ mid ⟨agreesMid, array⟩
      apply (receive_agrees agreesMid inv).mono
      rintro after ⟨agreesAfter, sameArray⟩
      exact ⟨agreesAfter, sameArray.trans array⟩
    · exact ⟨agrees, rfl⟩
  apply invalidations.bind
  rintro mid ⟨agreesMid, array⟩
  exact .pure ⟨mid, agreesMid, array, rfl, Nat.le_add_right _ _⟩

end Invalidate

/-! ## The slow path -/

section Replace

variable {F} {state : F.State} {lineAddr : Address} {lineId : LineId} {type : AccessType}

/-- The entries of all sets but the one of a line agree. -/
def AgreesElsewhere (F : FilterCache) (lineAddr : Address) (state : F.State) :
    Prop :=
  F.AgreesOn (fun idx => idx ≠ F.idx lineAddr) state

/-- A line of the set changes its state. -/
theorem AgreesElsewhere.write {other : Address} (agrees : F.AgreesElsewhere lineAddr state)
    (found : F.l1.toCacheArray.find state.cache.array other = some lineId)
    (sameSet : F.idx other = F.idx lineAddr) (value : MESIState) :
    F.AgreesElsewhere lineAddr ((F.stateRef lineId).write value state) := by
  have lowered := lowered_write agrees.sound found value
  apply AgreesOn.congr agrees lowered.sound rfl rfl
  intro addr elsewhere
  apply lowered.others
  rintro rfl
  exact elsewhere sameSet

/-- The array changes in a way that no line shows. -/
theorem AgreesElsewhere.setArray (agrees : F.AgreesElsewhere lineAddr state)
    {array : F.l1.toCacheArray.State} (sound : CacheOk (state.cache.setArray array))
    (lines : ∀ other, (state.cache.setArray array).line other = state.cache.line other) :
    F.AgreesElsewhere lineAddr (F.arrayRef.write array state) :=
  AgreesOn.congr agrees sound rfl rfl (fun other _ => lines other)

/-- The lines of a set are found under addresses of the set. -/
theorem idx_of_find {array : F.l1.State} {other : Address}
    (found : F.l1.toCacheArray.find array other = some lineId) (mem : lineId ∈ F.l1.ways lineAddr) :
    F.idx other = F.idx lineAddr := by
  have isScan : F.l1.scan array.array other = some lineId :=
    (F.l1.lookup_fst array other false).symm.trans found
  rw [← set_eq_idx, ← set_eq_idx]
  exact SetAssocArray.set_eq_of_mem_ways (SetAssocArray.mem_ways_of_scan isScan) mem

section

variable (agrees : F.AgreesElsewhere lineAddr state)
include agrees

/-- The line that makes room is given up. -/
theorem eviction_spec (mem : lineId ∈ F.l1.ways lineAddr)
    (reply : AccessType → Reply) (req : MemReq F.State) (cycle : Nat) :
    Gives (F.toCache.cc.processEviction (F.parent reply) req
        (F.l1.toCacheArray.tag state.cache.array lineId) lineId cycle state)
      (fun res =>
        F.AgreesElsewhere lineAddr res.1 ∧
        res.1.cache.array = state.cache.array ∧
        res.1.cache.states lineId = .I) := by
  apply MESIBottomCC.giveUp_rule
  · intro invalid
    exact ⟨agrees, rfl, invalid⟩
  · intro put isPut admits
    have found :
        F.l1.toCacheArray.find state.cache.array (F.l1.toCacheArray.tag state.cache.array lineId) =
          some lineId := by
      apply (agrees.sound.live lineId).resolve_right
      rintro ⟨invalid, _⟩
      exact valid_of_put isPut admits invalid
    have answer : (reply put).answer put = .I := by
      cases put <;> simp [isGet] at isPut <;> rfl
    apply (parent_spec agrees reply _).mono
    rintro ⟨after, respCycle⟩ ⟨mid, agreesMid, array, isAfter, _⟩
    have isWritten : after = (F.stateRef lineId).write .I mid := by
      rwa [← answer]
    have invalid : after.cache.states lineId = .I := by
      rw [isWritten]
      simp [stateRef, setState]
    refine ⟨invalid, ?_, ?_, invalid⟩
    · rw [← array] at found
      rw [isWritten]
      exact AgreesElsewhere.write agreesMid found (idx_of_find found mem) .I
    · rwa [isWritten]

/-- The new line is inserted over the one that was given up. -/
theorem AgreesElsewhere.insert (missing : F.l1.toCacheArray.find state.cache.array lineAddr = none)
    (mem : lineId ∈ F.l1.ways lineAddr) (invalid : state.cache.states lineId = .I) :
    F.AgreesElsewhere lineAddr (F.arrayRef.write
        (F.l1.toCacheArray.postinsert state.cache.array lineAddr lineId)
        state) := by
  have dead : state.cache.states lineId = .I ∧ (state.cache.entries lineId).sharers = ∅ :=
    ⟨invalid, by rw [agrees.terminal]; rfl⟩
  apply agrees.setArray
  · exact agrees.sound.insert trivial missing mem
  · exact line_insert agrees.sound trivial missing mem dead

/-- A new line takes the place of one that its set offers. -/
theorem allocate_agrees (missing : F.l1.toCacheArray.find state.cache.array lineAddr = none)
    (reply : AccessType → Reply) {req : MemReq F.State}
    (isReq : req.lineAddr = lineAddr) (respCycle : Nat) :
    Gives (F.toCache.allocate (F.parent reply) req respCycle state) (fun res =>
        F.AgreesElsewhere lineAddr res.2 ∧
        F.l1.toCacheArray.find res.2.cache.array lineAddr = some res.1) := by
  subst isReq
  have wf : F.l1.toCacheArray.Wf state.cache.array := trivial
  have keeps : ∀ other, F.l1.toCacheArray.find
          (F.l1.preinsert state.cache.array req.lineAddr).2.2 other =
        F.l1.toCacheArray.find state.cache.array other :=
    fun other => F.l1.toCacheArray.preinsert_keeps other wf trivial missing
  have chosen : F.AgreesElsewhere req.lineAddr (F.arrayRef.write
          (F.l1.preinsert state.cache.array req.lineAddr).2.2 state) :=
    agrees.setArray (agrees.sound.setArray trivial keeps rfl) (line_setArray keeps)
  have mem := F.l1.preinsert_mem state.cache.array req.lineAddr
  apply (eviction_spec chosen mem reply req respCycle).bind
  rintro ⟨after, evCycle⟩ ⟨agreesAfter, array, invalid⟩
  have missingAfter : F.l1.toCacheArray.find after.cache.array req.lineAddr = none := by
    rw [array]
    exact (keeps req.lineAddr).trans missing
  exact .pure ⟨agreesAfter.insert missingAfter mem invalid,
    F.l1.toCacheArray.postinsert_lookup trivial trivial missingAfter mem⟩

/-- After the lookup and a possible replacement the array holds the line. -/
theorem locate_agrees (reply : AccessType → Reply) {req : MemReq F.State}
    (isReq : req.lineAddr = lineAddr) (respCycle : Nat) :
    Gives (F.toCache.locate (F.parent reply) req respCycle state)
      (fun res => ∃ lineId, res.1 = some lineId ∧ F.AgreesElsewhere lineAddr res.2 ∧
        F.l1.toCacheArray.find res.2.cache.array lineAddr = some lineId) := by
  subst isReq
  have wf : F.l1.toCacheArray.Wf state.cache.array := trivial
  have keeps : ∀ update other, F.l1.toCacheArray.find
          (F.l1.toCacheArray.lookup state.cache.array req.lineAddr update).2
          other =
        F.l1.toCacheArray.find state.cache.array other :=
    fun update other => CacheArray.find_lookup update other wf
  have looked : ∀ update, F.AgreesElsewhere req.lineAddr (F.arrayRef.write
          (F.l1.toCacheArray.lookup state.cache.array req.lineAddr update).2
          state) := fun update =>
    agrees.setArray (agrees.sound.lookup update) (line_setArray (keeps update))
  have lookup := fun update =>
    F.l1.toCacheArray.lookup_result req.lineAddr update wf
  cases found : (F.l1.toCacheArray.lookup state.cache.array req.lineAddr false).1 with
  | some lineId =>
    rw [Cache.locate_of_lookup ((lookup _).trans found)]
    exact .ok ⟨lineId, rfl, looked _, (keeps _ _).trans found⟩
  | none =>
    rw [Cache.locate_of_miss ((lookup _).trans found) rfl]
    apply (allocate_agrees (looked _) ((keeps _ _).trans found) reply rfl respCycle).bind
    rintro ⟨lineId, after⟩ ⟨agreesAfter, foundAfter⟩
    exact .ok ⟨lineId, rfl, agreesAfter, foundAfter⟩

/-- The controller brings the line in with the rights that were asked for. -/
theorem access_agrees (found : F.l1.toCacheArray.find state.cache.array lineAddr = some lineId)
    (isGet : type.isGet = true) (reply : AccessType → Reply) (cycle srcId : Nat) (flags : Flags) :
    Gives (F.bcc.processAccess (F.parent reply) lineAddr lineId type cycle srcId flags state)
      (fun res =>
        F.AgreesElsewhere lineAddr res.1 ∧
        type.fetched (res.1.cache.line lineAddr).state ∧
        cycle ≤ res.2) := by
  have lineState : (state.cache.line lineAddr).state = state.cache.states lineId := by
    rw [line_of_find found]
  apply MESIBottomCC.get_rule rfl isGet
  · intro _
    have answered : type.served ((reply type).answer type) := by
      cases type with
      | GETS =>
        simp only [Reply.answer]
        split
        · exact .inr rfl
        · exact .inl rfl
      | GETX => rfl
      | _ => cases isGet
    apply (parent_spec agrees reply _).bind
    rintro ⟨after, respCycle⟩ ⟨mid, agreesMid, array, isAfter, _⟩
    have isWritten : after = (F.stateRef lineId).write ((reply type).answer type) mid := isAfter
    have foundMid := found
    rw [← array] at foundMid
    have written : (F.stateRef lineId).read after = (reply type).answer type := by
      rw [isWritten]
      simp [stateRef, setState]
    have foundAfter : F.l1.toCacheArray.find after.cache.array lineAddr = some lineId := by
      rwa [isWritten]
    refine .pure ⟨?_, Nat.le_add_right _ _, ?_, ?_, Nat.le_add_right _ _⟩
    · change type.served ((F.stateRef lineId).read after)
      rwa [written]
    · rw [isWritten]
      exact AgreesElsewhere.write agreesMid foundMid rfl _
    · rw [line_of_find foundAfter]
      change type.fetched ((F.stateRef lineId).read after)
      rw [written]
      exact fetched_of_served answered
  · intro notAdmits isModified
    refine ⟨agrees, ?_, le_rfl⟩
    rw [lineState]
    cases type with
    | GETS => exact notAdmits
    | GETX => exact isModified rfl
    | _ => cases isGet
  · rintro rfl _
    refine ⟨?_, AgreesElsewhere.write agrees found rfl .M, ?_, le_rfl⟩
    · simp [bcc, stateRef, setState]
    · change AccessType.GETX.fetched ((state.cache.setState lineId .M).line lineAddr).state
      rw [line_setState_self found]
      rfl

/-- The access of the slow path. -/
theorem cache_access_agrees (isGet : type.isGet = true) (reply : AccessType → Reply) (cycle : Nat) :
    Gives (F.toCache.access (F.parent reply)
        ⟨lineAddr, type, 0, dummyState, cycle, .I, F.srcId, F.reqFlags⟩
        state)
      (fun res =>
        F.AgreesElsewhere lineAddr res.1 ∧
        type.fetched (res.1.cache.line lineAddr).state) := by
  apply Cache.access_core_rule rfl isGet
  apply (locate_agrees agrees reply rfl _).bind
  rintro ⟨_, mid⟩ ⟨lineId, rfl, agreesMid, found⟩
  apply (access_agrees agreesMid found isGet reply (cycle + F.accLat) F.srcId F.reqFlags).mono
  rintro res ⟨agreesAfter, fetched, later⟩
  exact ⟨⟨agreesAfter, fetched⟩, (Nat.le_add_right _ _).trans later⟩

end

/-- A new entry completes the agreement. -/
theorem AgreesElsewhere.setEntry {vAddr : Address} {entry : FilterEntry}
    (agrees : F.AgreesElsewhere (F.pLineAddr (F.vLineAddr vAddr)) state)
    (entryAgrees : F.EntryAgrees state.cache (F.idx (F.vLineAddr vAddr)) entry) :
    F.AgreesOn (fun _ => True) (state.setEntry (F.idx (F.vLineAddr vAddr)) entry) where
  sound := agrees.sound
  terminal := agrees.terminal
  entries := by
    intro idx _
    by_cases isIdx : idx = F.idx (F.vLineAddr vAddr)
    · subst isIdx
      simp only [State.setEntry, update_self]
      exact entryAgrees
    · simp only [State.setEntry, update_of_ne isIdx]
      apply agrees.entries
      rwa [idx_pLineAddr]

/-- The slow path leaves the filter and the cache in agreement. -/
theorem replace_agrees (agrees : F.AgreesOn (fun _ => True) state) (vAddr : Address)
    (isLoad : Bool) (reply : AccessType → Reply) (curCycle : Nat) :
    Gives (F.replace (F.parent reply) (F.vLineAddr vAddr)
        (F.idx (F.vLineAddr vAddr)) isLoad curCycle state)
      (fun res => F.AgreesOn (fun _ => True) res.1) := by
  have elsewhere : F.AgreesElsewhere (F.pLineAddr (F.vLineAddr vAddr)) state :=
    ⟨agrees.sound, agrees.terminal, fun idx _ => agrees.entries idx trivial⟩
  have isGet : isGet (if isLoad then .GETS else .GETX) = true := by
    cases isLoad <;> rfl
  apply (cache_access_agrees elsewhere isGet reply curCycle).bind
  rintro ⟨after, respCycle⟩ ⟨agreesAfter, fetched⟩
  refine .pure ?_
  apply agreesAfter.setEntry
  have sameLine : ∀ other, F.vLineAddr vAddr = F.vLineAddr other →
      F.idx (F.vLineAddr other) = F.idx (F.vLineAddr vAddr) ∧
        AccessType.fetched (if isLoad then .GETS else .GETX)
          (after.cache.line (F.pLineAddr (F.vLineAddr other))).state := by
    intro other eq
    rw [← eq]
    exact ⟨rfl, fetched⟩
  cases isLoad with
  | true =>
    exact {
      read := fun other _ eq => sameLine other eq
      write := fun other _ eq =>
        absurd eq.symm (vLineAddr_ne_neg_one other) }
  | false =>
    exact {
      read := by
        intro other _ eq
        obtain ⟨isIdx, modified⟩ := sameLine other eq
        refine ⟨isIdx, ?_⟩
        intro invalid
        rw [invalid] at modified
        cases modified
      write := fun other _ eq => ⟨eq, (sameLine other eq).2⟩ }

end Replace

/-! ## Runs -/

section Run

variable {F} {state : F.State}

/-- One operation. -/
theorem step_agrees (agrees : F.AgreesOn (fun _ => True) state) (op : Op) :
    Gives (F.step state op) (F.AgreesOn (fun _ => True)) := by
  cases op with
  | load vAddr curCycle reply =>
    have loads : Gives (F.load (F.parent reply) vAddr curCycle state)
          (fun res => F.AgreesOn (fun _ => True) res.1) := by
      simp only [load]
      split
      next => exact .pure agrees
      next => exact replace_agrees agrees vAddr true reply curCycle
    apply loads.bind
    rintro ⟨after, respCycle⟩ holds
    exact .pure holds
  | store vAddr curCycle reply =>
    have stores : Gives (F.store (F.parent reply) vAddr curCycle state)
          (fun res => F.AgreesOn (fun _ => True) res.1) := by
      simp only [store]
      split
      next => exact .pure agrees
      next => exact replace_agrees agrees vAddr false reply curCycle
    apply stores.bind
    rintro ⟨after, respCycle⟩ holds
    exact .pure holds
  | invalidate req =>
    apply (receive_agrees agrees req).mono
    rintro after ⟨holds, _⟩
    exact holds
  | contextSwitch =>
    refine .pure ⟨agrees.sound, agrees.terminal, ?_⟩
    intro idx _
    simp only [contextSwitch]
    split
    · exact EntryAgrees.clear state.cache idx
    · exact agrees.entries idx trivial

theorem initial_agrees : F.AgreesOn (fun _ => True) (F.initial array) where
  sound := {
    wf := trivial
    entry := fun _ => EntryOk.clear
    live := fun _ => Or.inr ⟨rfl, rfl⟩ }
  terminal := rfl
  entries := fun idx _ => EntryAgrees.clear _ idx

theorem run_agrees (ops : List Op) (agrees : F.AgreesOn (fun _ => True) state) :
    Gives (ops.foldlM F.step state) (F.AgreesOn (fun _ => True)) := by
  induction ops generalizing state with
  | nil => exact .pure agrees
  | cons op ops ih =>
    exact (step_agrees agrees op).bind (fun _ holds => ih holds)

/-- Tags and coherence states are as before. -/
def SameLines (before : F.State) (result : F.State × Nat) : Prop :=
  result.1.cache.states = before.cache.states ∧
    result.1.cache.array.array = before.cache.array.array

/-- What the filter promises about the cache behind it. -/
structure Faithful (state : F.State) : Prop where
  /-- A line that loads hit on is valid in the cache. -/
  read : ∀ vAddr, F.vLineAddr vAddr ≠ 0 → (state.filterArray (F.idx (F.vLineAddr vAddr))).rdAddr =
        F.vLineAddr vAddr →
      state.cache.stateAt (F.pLineAddr (F.vLineAddr vAddr)) ≠ .I
  /-- A line that stores hit on is modified in the cache. -/
  write : ∀ vAddr, F.vLineAddr vAddr ≠ 0 → (state.filterArray (F.idx (F.vLineAddr vAddr))).wrAddr =
        F.vLineAddr vAddr →
      state.cache.stateAt (F.pLineAddr (F.vLineAddr vAddr)) = .M
  /-- The slow path of such a load asks no parent and changes no line. -/
  loadHit : ∀ vAddr, F.vLineAddr vAddr ≠ 0 →
    (state.filterArray (F.idx (F.vLineAddr vAddr))).rdAddr = F.vLineAddr vAddr → ∀ parent curCycle,
        Gives (F.replace parent (F.vLineAddr vAddr) (F.idx (F.vLineAddr vAddr)) true curCycle state)
          (SameLines state)
  /-- The slow path of such a store asks no parent and changes no line. -/
  storeHit : ∀ vAddr, F.vLineAddr vAddr ≠ 0 →
    (state.filterArray (F.idx (F.vLineAddr vAddr))).wrAddr = F.vLineAddr vAddr → ∀ parent curCycle,
        Gives (F.replace parent (F.vLineAddr vAddr)
            (F.idx (F.vLineAddr vAddr)) false curCycle state)
          (SameLines state)

/-- An access to a line with sufficient rights, whatever the parent. -/
theorem replace_hit {v : Address} {isLoad : Bool}
    (valid : (state.cache.line (F.pLineAddr v)).state ≠ .I)
    (rights : isLoad = false → (state.cache.line (F.pLineAddr v)).state = .M)
    (parent : MemObject F.State) (idx curCycle : Nat) :
    Gives (F.replace parent v idx isLoad curCycle state) (SameLines state) := by
  have accessed : Gives (F.toCache.access parent
          ⟨F.pLineAddr v, if isLoad then .GETS else .GETX, 0, dummyState,
            curCycle, .I, F.srcId, F.reqFlags⟩
          state)
        (SameLines state) := by
    cases found : F.l1.toCacheArray.find state.cache.array (F.pLineAddr v) with
    | none =>
      rw [line_of_not_find found] at valid
      exact absurd rfl valid
    | some lineId =>
      rw [line_of_find found] at valid rights
      have isGet : isGet (if isLoad then .GETS else .GETX) = true := by
        cases isLoad <;> rfl
      apply Cache.access_core_rule rfl isGet
      apply Gives.bind ⟨_, Cache.locate_found trivial found _, rfl⟩
      rintro _ rfl
      change Gives (F.bcc.processAccess parent (F.pLineAddr v) lineId
          (if isLoad then .GETS else .GETX) (curCycle + F.accLat) F.srcId
          F.reqFlags _) _
      apply MESIBottomCC.get_rule rfl isGet
      · intro admits
        exfalso
        cases isLoad with
        | true => exact valid admits
        | false =>
          have modified : state.cache.states lineId = .M := rights rfl
          rcases admits with invalid | shared
          · exact absurd (modified.symm.trans invalid) (by simp)
          · exact absurd (modified.symm.trans shared) (by simp)
      · intro _ _
        exact ⟨⟨rfl, F.l1.lookup_array _ _ _⟩, Nat.le_add_right _ _⟩
      · intro isStore isE
        exfalso
        cases isLoad with
        | true => cases isStore
        | false => exact absurd ((rights rfl).symm.trans isE) (by simp)
  apply accessed.bind
  rintro ⟨after, respCycle⟩ same
  exact .pure same

/--
After every sequence of operations the filter is faithful: a hit in it skips no
transition that the slow path would have made.
-/
theorem filter_faithful (F : FilterCache) (array : F.l1.State) (ops : List Op) :
    ∃ state, F.run array ops = .ok state ∧ Faithful state := by
  obtain ⟨state, returns, agrees⟩ := run_agrees ops (initial_agrees array)
  have read : ∀ vAddr, F.vLineAddr vAddr ≠ 0 →
      (state.filterArray (F.idx (F.vLineAddr vAddr))).rdAddr = F.vLineAddr vAddr →
      (state.cache.line (F.pLineAddr (F.vLineAddr vAddr))).state ≠ .I :=
    fun vAddr nonzero equal =>
      ((agrees.entries _ trivial).read vAddr nonzero equal).2
  have write : ∀ vAddr, F.vLineAddr vAddr ≠ 0 →
      (state.filterArray (F.idx (F.vLineAddr vAddr))).wrAddr = F.vLineAddr vAddr →
      (state.cache.line (F.pLineAddr (F.vLineAddr vAddr))).state = .M :=
    fun vAddr nonzero equal =>
      ((agrees.entries _ trivial).write vAddr nonzero equal).2
  refine ⟨state, returns, ?_⟩
  exact {
    read := by
      simp only [stateAt_eq]
      exact read
    write := by
      simp only [stateAt_eq]
      exact write
    loadHit := fun vAddr nonzero equal parent curCycle =>
      replace_hit (read vAddr nonzero equal) (by simp) parent _ curCycle
    storeHit := fun vAddr nonzero equal parent curCycle =>
      replace_hit (by simp [write vAddr nonzero equal])
        (fun _ => write vAddr nonzero equal) parent _ curCycle }

end Run

end FilterCache

end Damov.Coherence
