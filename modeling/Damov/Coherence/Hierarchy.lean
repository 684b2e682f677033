import Damov.Coherence.MemoryHierarchy
import Damov.Coherence.Controllers
import Damov.Coherence.LineProtocol

/-!
# Caches and their tree

A cache joins an array and a coherence controller. `MESICC` is the controller
of a cache with children, made of a top and a bottom controller; `MESITerminalCC`
is the one of a cache that serves a core and has only the bottom half. The
definitions follow the call sequence of `Cache::access` and
`Cache::finishInvalidate`.

The caches of the tree share one global memory: for each cache its array, the
states of its bottom controller and the directory of its top controller. The parent
of the root is the main memory. Accesses recurse from a leaf towards the root along
the path of the leaf, invalidations recurse down the tree.

`dirty` is a ghost: a bit per address that the code does not have. It is set
when a core completes a store and cleared when the memory receives a dirty
writeback, and no decision of the model depends on it.
-/

namespace Damov.Coherence

open Library.Checked

variable {Memory : Type}

/-- The controller of a cache: `MESICC`, or `MESITerminalCC` without a top. -/
inductive CC (Memory : Type) where
  | MESICC (tcc : MESITopCC Memory) (bcc : MESIBottomCC Memory)
  | MESITerminalCC (bcc : MESIBottomCC Memory)

namespace CC

def bcc : CC Memory → MESIBottomCC Memory
  | .MESICC _ bcc => bcc
  | .MESITerminalCC bcc => bcc

/-- The request after the race check, and whether the access is skipped. -/
def startAccess (cc : CC Memory) (req : MemReq Memory) (memory : Memory) :
    Except Failure (MemReq Memory × Bool) := do
  match cc with
  | .MESICC _ _ => pure ()
  | .MESITerminalCC _ =>
    check (req.type = .GETS ∨ req.type = .GETX) Failure.putAtTerminal
  let (type, skipAccess) ← checkForMESIRace req.type (req.state.read memory) req.initialState
  pure ({ req with type := type }, skipAccess)

variable (cc : CC Memory)

/-- Called when the address of the request is not in the array. -/
def shouldAllocate (req : MemReq Memory) : Except Failure Bool :=
  match cc with
  | .MESITerminalCC _ => pure true
  | .MESICC _ bcc =>
    match req.type with
    | .GETS | .GETX => pure true
    | .PUTS | .PUTX => do
        check (bcc.nonInclusiveHack = true) Failure.lostInclusion
        pure false

def processEviction (parent : MemObject Memory) (triggerReq : MemReq Memory)
    (wbLineAddr : Address) (lineId : LineId) (startCycle : Nat) (memory : Memory) :
    Except Failure (Memory × Nat) := do
  match cc with
  | .MESICC tcc bcc =>
    let (memory, lowerLevelWriteback, evCycle) ←
      tcc.processEviction wbLineAddr lineId false startCycle triggerReq.srcId memory
    bcc.processEviction parent wbLineAddr lineId lowerLevelWriteback evCycle triggerReq.srcId memory
  | .MESITerminalCC bcc =>
    bcc.processEviction parent wbLineAddr lineId false startCycle triggerReq.srcId memory

/-- `MESICC::processAccess` for a line that the array holds. -/
def processPresent (tcc : MESITopCC Memory) (bcc : MESIBottomCC Memory)
    (parent : MemObject Memory) (req : MemReq Memory) (lineId : LineId)
    (startCycle : Nat) (memory : Memory) :
    Except Failure (Memory × Nat) := do
  let isPrefetch := req.flags.PREFETCH
  check (isPrefetch = false ∨ req.type = .GETS) Failure.prefetchNotGets
  let flags := { req.flags with PREFETCH := false }
  let (memory, respCycle) ←
    bcc.processAccess parent req.lineAddr lineId req.type startCycle req.srcId flags memory
  if isPrefetch then
    pure (memory, respCycle)
  else
    let (memory, lowerLevelWriteback, respCycle) ←
      tcc.processAccess req.lineAddr lineId req.type req.childId
        (bcc.isExclusive lineId memory) req.state false respCycle req.srcId
        flags memory
    if lowerLevelWriteback then
      let memory ← bcc.processWritebackOnAccess lineId memory
      pure (memory, respCycle)
    else
      pure (memory, respCycle)

def processAccess (parent : MemObject Memory) (req : MemReq Memory)
    (lineId : Option LineId) (startCycle : Nat) (memory : Memory) :
    Except Failure (Memory × Nat) := do
  let isPut := req.type = .PUTS ∨ req.type = .PUTX
  match cc with
  | .MESICC tcc bcc =>
    match lineId with
    | some lineId =>
      if isPut ∧ bcc.isValid lineId memory = false ∧ bcc.bypass = false then
        check (bcc.nonInclusiveHack = true) Failure.nonInclusiveAccess
        bcc.processNonInclusiveWriteback parent req.lineAddr req.type
          startCycle req.state req.srcId req.flags memory
      else
        processPresent tcc bcc parent req lineId startCycle memory
    | none =>
      check (bcc.nonInclusiveHack = true) Failure.nonInclusiveAccess
      check isPut Failure.nonInclusiveAccess
      bcc.processNonInclusiveWriteback parent req.lineAddr req.type
        startCycle req.state req.srcId req.flags memory
  | .MESITerminalCC bcc =>
    match lineId with
    | some lineId =>
      bcc.processAccess parent req.lineAddr lineId req.type startCycle req.srcId req.flags memory
    | none => .error Failure.nonInclusiveAccess

def processInv (req : InvReq) (lineId : LineId) (startCycle : Nat)
    (reqWriteback : Bool) (memory : Memory) :
    Except Failure (Memory × Bool × Nat) := do
  match cc with
  | .MESICC tcc bcc =>
    let (memory, reqWriteback, respCycle) ←
      tcc.processInval req.lineAddr lineId req.type reqWriteback startCycle req.srcId memory
    let (memory, reqWriteback) ← bcc.processInval lineId req.type reqWriteback memory
    pure (memory, reqWriteback, respCycle)
  | .MESITerminalCC bcc =>
    let (memory, reqWriteback) ← bcc.processInval lineId req.type reqWriteback memory
    pure (memory, reqWriteback, startCycle)

end CC

/-- A cache: an array, a controller and the latencies. -/
structure Cache (A : CacheArray) (Memory : Type) where
  array : Ref Memory A.State
  cc : CC Memory
  accLat : Nat
  invLat : Nat

namespace Cache

variable {A : CacheArray}

section

variable (cache : Cache A Memory) (parent : MemObject Memory) (req : MemReq Memory)
  (respCycle : Nat) (memory : Memory)

/-- Make space for the line of the request and return its line id. -/
def allocate : Except Failure (LineId × Memory) := do
  let (lineId, wbLineAddr, array) := A.preinsert (cache.array.read memory) req.lineAddr
  let memory := cache.array.write array memory
  let (memory, _) ← cache.cc.processEviction parent req wbLineAddr lineId respCycle memory
  let memory :=
    cache.array.write (A.postinsert (cache.array.read memory) req.lineAddr lineId) memory
  pure (lineId, memory)

/--
Look the line of the request up and, if it is missing and the controller wants
it, make space for it.
-/
def locate : Except Failure (Option LineId × Memory) := do
  let updateReplacement := decide (req.type = .GETS ∨ req.type = .GETX)
  let (found, array) := A.lookup (cache.array.read memory) req.lineAddr updateReplacement
  let memory := cache.array.write array memory
  match found with
  | some lineId => pure (some lineId, memory)
  | none => do
      if ← cache.cc.shouldAllocate req then
        let (lineId, memory) ← cache.allocate parent req respCycle memory
        pure (some lineId, memory)
      else
        pure (none, memory)

end

variable {cache : Cache A Memory} {memory : Memory}

variable {parent : MemObject Memory} {req : MemReq Memory} {respCycle : Nat} {lineId : LineId}

theorem locate_of_lookup (found : (A.lookup (cache.array.read memory) req.lineAddr
      (decide (req.type = .GETS ∨ req.type = .GETX))).1 = some lineId) :
    cache.locate parent req respCycle memory = .ok (some lineId,
        cache.array.write (A.lookup (cache.array.read memory) req.lineAddr
            (decide (req.type = .GETS ∨ req.type = .GETX))).2 memory) := by
  rw [locate]
  simp only [found]
  rfl

/-- A missing line is allocated if the controller says so. -/
theorem locate_of_miss (missed : (A.lookup (cache.array.read memory) req.lineAddr
      (decide (req.type = .GETS ∨ req.type = .GETX))).1 = none)
    (allocates : cache.cc.shouldAllocate req = .ok true) :
    cache.locate parent req respCycle memory =
      cache.allocate parent req respCycle (cache.array.write
            (A.lookup (cache.array.read memory) req.lineAddr
              (decide (req.type = .GETS ∨ req.type = .GETX))).2 memory) >>=
        fun res => .ok (some res.1, res.2) := by
  rw [locate]
  simp only [missed, allocates]
  rfl

section

variable (cache : Cache A Memory)

/-- The body of `access` for a request that is not skipped. -/
def perform (parent : MemObject Memory) (req : MemReq Memory) (memory : Memory) :
    Except Failure (Memory × Nat) := do
  let respCycle := req.cycle + cache.accLat
  let (lineId, memory) ← cache.locate parent req respCycle memory
  cache.cc.processAccess parent req lineId respCycle memory

def access (parent : MemObject Memory) : MemObject Memory := fun req memory => do
  let (req, skipAccess) ← cache.cc.startAccess req memory
  if skipAccess then
    pure (memory, req.cycle)
  else
    let (memory, respCycle) ← cache.perform parent req memory
    check (req.cycle ≤ respCycle) Failure.responseBeforeRequest
    pure (memory, respCycle)

def invalidate : Invalidate Memory := fun req reqWriteback memory => do
    let (found, array) := A.lookup (cache.array.read memory) req.lineAddr false
    let memory := cache.array.write array memory
    match found with
    | some lineId =>
      cache.cc.processInv req lineId (req.cycle + cache.invLat) reqWriteback memory
    | none => .error Failure.invalidateMissing

end

theorem invalidate_of_lookup {req : InvReq} {reqWriteback : Bool}
    (found : (A.lookup (cache.array.read memory) req.lineAddr false).1 = some lineId) :
    cache.invalidate req reqWriteback memory =
      cache.cc.processInv req lineId (req.cycle + cache.invLat) reqWriteback (cache.array.write
          (A.lookup (cache.array.read memory) req.lineAddr false).2
          memory) := by
  rw [invalidate]
  simp only [found]

end Cache

open Function

/-- The shape of a cache tree. -/
inductive Tree where
  | node (arity : Nat) (child : Fin arity → Tree)

namespace Tree

/-- A single cache. -/
def leaf : Tree := .node 0 Fin.elim0

def arity : Tree → Nat
  | .node arity _ => arity

/-- The tree below child `i`, a single cache where there is no such child. -/
def descend : Tree → Nat → Tree
  | .node arity child, i =>
    if inside : i < arity then child ⟨i, inside⟩ else leaf

/-- The tree below the cache with the given path. -/
def sub (tree : Tree) : Path → Tree
  | [] => tree
  | i :: p => (tree.sub p).descend i

end Tree

/-- The memory of one cache. -/
structure CacheState (A : CacheArray) where
  array : A.State
  states : LineId → MESIState
  entries : LineId → Entry

namespace CacheState

variable {A : CacheArray} (cache : CacheState A)

/-- Write the array. -/
def setArray (array : A.State) : CacheState A := { cache with array := array }

/-- Write the state of a line. -/
def setState (lineId : LineId) (state : MESIState) : CacheState A :=
  { cache with states := update cache.states lineId state }

/-- Write the directory entry of a line. -/
def setEntry (lineId : LineId) (entry : Entry) : CacheState A :=
  { cache with entries := update cache.entries lineId entry }

end CacheState

/-- The memory of all caches, with the ghost bits. -/
structure Sys (A : CacheArray) where
  caches : Path → CacheState A
  dirty : Address → Bool

namespace Sys

variable {A : CacheArray}

/-- Replace the memory of one cache. -/
def setCache (sys : Sys A) (n : Path) (cache : CacheState A) : Sys A :=
  { sys with caches := update sys.caches n cache }

/-- The pointer to the array of a cache. -/
def arrayRef (n : Path) : Ref (Sys A) A.State where
  read sys := (sys.caches n).array
  write array sys := sys.setCache n ((sys.caches n).setArray array)

/-- The pointer to the state of a line. -/
def stateRef (n : Path) (lineId : LineId) : Ref (Sys A) MESIState where
  read sys := (sys.caches n).states lineId
  write state sys := sys.setCache n ((sys.caches n).setState lineId state)

/-- The pointer to the directory entry of a line. -/
def entryRef (n : Path) (lineId : LineId) : Ref (Sys A) Entry where
  read sys := (sys.caches n).entries lineId
  write entry sys := sys.setCache n ((sys.caches n).setEntry lineId entry)

/-- Set the ghost bit of an address. -/
def setDirty (sys : Sys A) (lineAddr : Address) (dirty : Bool) : Sys A :=
  { sys with dirty := update sys.dirty lineAddr dirty }

end Sys

/-- The configuration of a cache tree; latencies are arbitrary. -/
structure Config (A : CacheArray) where
  tree : Tree
  accLat : Path → Nat
  invLat : Path → Nat
  parentRTT : Path → Nat → Nat → Nat
  childRTT : Path → Nat → Nat → Nat → Nat
  memoryLatency : Address → AccessType → Nat → Nat
  nonInclusiveHack : Path → Bool
  bypass : Path → Bool

namespace Config

variable {A : CacheArray} (cfg : Config A)

/-- The number of children of a cache. -/
def arity (n : Path) : Nat := (cfg.tree.sub n).arity

variable {cfg : Config A} {children : Nat}

theorem arity_star (isStar : cfg.tree = .node children (fun _ => .leaf)) :
    cfg.arity [] = children := by
  rw [arity, isStar]
  rfl

theorem arity_star_child (isStar : cfg.tree = .node children (fun _ => .leaf)) (c : Nat) :
    cfg.arity [c] = 0 := by
  simp only [arity, Tree.sub, isStar, Tree.descend]
  split <;> rfl

variable (n : Path)

def bottomCC : MESIBottomCC (Sys A) where
  array := Sys.stateRef n
  selfId := n.headD 0
  getRTT := cfg.parentRTT n
  nonInclusiveHack := cfg.nonInclusiveHack n
  bypass := cfg.bypass n

def topCC (arity : Nat) (child : Fin arity → Invalidate (Sys A)) : MESITopCC (Sys A) where
  array := Sys.entryRef n
  numChildren := arity
  child := child
  getRTT := cfg.childRTT n
  nonInclusiveHack := cfg.nonInclusiveHack n

/-- The cache object at `n`, terminal when it has no children. -/
def cacheOf (arity : Nat) (child : Fin arity → Invalidate (Sys A)) : Cache A (Sys A) where
  array := Sys.arrayRef n
  cc :=
    if arity = 0 then
      .MESITerminalCC (cfg.bottomCC n)
    else
      .MESICC (cfg.topCC n arity child) (cfg.bottomCC n)
  accLat := cfg.accLat n
  invLat := cfg.invLat n

/-- `invalidate` of the cache at `n`, whose subtree is given. -/
def invalidate : Tree → Path → Invalidate (Sys A)
  | .node arity child, n =>
    (cfg.cacheOf n arity (fun i => invalidate (child i) (i.val :: n))).invalidate

/-- The cache at `n` with the children that the tree gives it. -/
def cache : Cache A (Sys A) := cfg.cacheOf n (cfg.arity n)
    (fun i => cfg.invalidate (cfg.tree.sub (i.val :: n)) (i.val :: n))

/--
The answer of the level above the root to each kind of request; `grant` is its
answer to a `GETS` without and with the `NOEXCL` flag.
-/
def upperAnswer (grant : Bool → MESIState) (type : AccessType) (flags : Flags) :
    MESIState :=
  match type with
  | .PUTS | .PUTX => .I
  | .GETS => grant flags.NOEXCL
  | .GETX => .M

/-- The level above the root, with the ghost update on a dirty writeback. -/
def upper (grant : Bool → MESIState) : MemObject (Sys A) := fun req sys =>
  let sys := req.state.write (upperAnswer grant req.type req.flags) sys
  let sys := if req.type = .PUTX then sys.setDirty req.lineAddr false else sys
  pure (sys, req.cycle + cfg.memoryLatency req.lineAddr req.type req.cycle)

/-- The state that the main memory grants to a `GETS`. -/
def memoryGrant (noexcl : Bool) : MESIState := if noexcl then .S else .E

/-- The main memory. -/
def memory : MemObject (Sys A) := cfg.upper memoryGrant

/-- `access` of the cache at `n`. -/
def access : Path → MemObject (Sys A)
  | [] => (cfg.cache []).access cfg.memory
  | i :: p => (cfg.cache (i :: p)).access (access p)

/-- The level above the cache at `n`. -/
def parent : Path → MemObject (Sys A)
  | [] => cfg.memory
  | _ :: p => cfg.access p

theorem access_eq : cfg.access n = (cfg.cache n).access (cfg.parent n) := by
  cases n <;> rfl

end Config

/-- The local variable that a core passes as the state of its request. -/
def dummyState {Memory : Type} : Ref Memory MESIState where
  read _ := .I
  write _ memory := memory

/-- A request of a core to its cache. -/
structure CoreRequest where
  leaf : Path
  lineAddr : Address
  type : AccessType
  cycle : Nat
  srcId : Nat
  flags : Flags

namespace Config

variable {A : CacheArray} (cfg : Config A)

/-- One request run to completion, with the ghost update of a store. -/
def issue (sys : Sys A) (request : CoreRequest) : Except Failure (Sys A) := do
  let (sys, _) ← cfg.access request.leaf
      { lineAddr := request.lineAddr
        type := request.type
        childId := 0
        state := dummyState
        cycle := request.cycle
        initialState := .I
        srcId := request.srcId
        flags := request.flags }
      sys
  pure (if request.type = .GETX then
      sys.setDirty request.lineAddr true
    else
      sys)

/-- A sequence of requests. -/
def run (sys : Sys A) (reqs : List CoreRequest) : Except Failure (Sys A) :=
  reqs.foldlM cfg.issue sys

end Config

end Damov.Coherence
