import Damov.Coherence.MemoryHierarchy

/-!
# The directory protocol of one line

This is the abstract model of the coherence protocol: one address, a tree of
caches, and for each cache the state of the line, the set of children that hold
it and whether the only such child owns it. The effect of each transaction is a
closed form on the whole tree, with no recursion over sharer lists and no line
ids. `Coherent` is the protocol invariant, stated node by node, and every
transaction preserves it.

A cache is named by its path from the root, innermost child index first, so the
parent of `i :: p` is `p` and the caches below `p` are those with suffix `p`.
-/

noncomputable section

open scoped Classical
open Function List

namespace Damov.Coherence

/-- The name of a cache: child indices from the cache up to the root. -/
abbrev Path := List Nat

/-- What a cache knows about one address. -/
@[ext]
structure Line where
  state : MESIState
  sharers : Finset Nat
  owned : Bool

/-- The line in another state, with the directory as it is. -/
def Line.withState (line : Line) (state : MESIState) : Line := ⟨state, line.sharers, line.owned⟩

@[simp]
theorem Line.withState_state (line : Line) (state : MESIState) :
    (line.withState state).state = state :=
  rfl

@[simp]
theorem Line.withState_sharers (line : Line) (state : MESIState) :
    (line.withState state).sharers = line.sharers :=
  rfl

/-- One address in every cache of the tree. -/
abbrev Slice := Path → Line

/-- The state left by the loss of exclusivity. -/
def MESIState.demote : MESIState → MESIState
  | .I => .I
  | _ => .S

variable {state : MESIState} {m p : Path} {targets : Finset Nat} {s : Slice}
    {n : Path} {arity : Path → Nat}

@[simp]
theorem MESIState.demote_eq_I : state.demote = .I ↔ state = .I := by
  cases state <;> simp [MESIState.demote]

@[simp]
theorem MESIState.isExclusive_demote (state : MESIState) : state.demote.isExclusive = false := by
  cases state <;> rfl

theorem MESIState.demote_of_isExclusive (excl : state.isExclusive = true) : state.demote = .S := by
  cases state <;> first | rfl | simp at excl

theorem MESIState.ne_I_of_isExclusive (excl : state.isExclusive = true) : state ≠ .I := by
  rintro rfl
  simp at excl

/-- The line after an invalidation reached the cache and everything below. -/
def Line.lower : InvType → Line → Line
  | .INV, _ => ⟨.I, ∅, false⟩
  | .INVX, line => ⟨line.state.demote, line.sharers, false⟩
  | .FWD, line => line

/-! ## The caches below a set of children -/

/-- The cache `m` is one of the children `targets` of `p` or lies below one. -/
def Under (p : Path) (targets : Finset Nat) (m : Path) : Prop := ∃ i ∈ targets, (i :: p) <:+ m

theorem under_cons {j : Nat} : Under p targets (j :: m) ↔
      (m = p ∧ j ∈ targets) ∨ Under p targets m := by
  constructor
  · rintro ⟨i, mem, suffix⟩
    rcases suffix_cons_iff.mp suffix with eq | suffix
    · cases eq
      exact .inl ⟨rfl, mem⟩
    · exact .inr ⟨i, mem, suffix⟩
  · rintro (⟨rfl, mem⟩ | ⟨i, mem, suffix⟩)
    · exact ⟨j, mem, suffix_rfl⟩
    · exact ⟨i, mem, suffix.trans (suffix_cons j m)⟩

theorem under_length (under : Under p targets m) : p.length < m.length := by
  obtain ⟨i, _, suffix⟩ := under
  have bound := suffix.length_le
  rw [length_cons] at bound
  omega

theorem not_under_self (p : Path) (targets : Finset Nat) : ¬ Under p targets p := by
  intro under
  exact absurd (under_length under) (lt_irrefl _)

@[simp]
theorem not_under_empty (p m : Path) : ¬ Under p ∅ m := by simp [Under]

theorem under_child_iff {j : Nat} : Under p targets (j :: p) ↔ j ∈ targets := by
  rw [under_cons]
  simp [not_under_self]

variable (type : InvType)

/-- Invalidate or downgrade the children `targets` of `p` with their subtrees. -/
def lowerUnder (p : Path) (targets : Finset Nat) (s : Slice) : Slice :=
  fun m => if Under p targets m then (s m).lower type else s m

@[simp]
theorem lowerUnder_empty (p : Path) (s : Slice) : lowerUnder type p ∅ s = s := by
  funext m
  simp [lowerUnder]

theorem lowerUnder_of_not {type : InvType} (outside : ¬ Under p targets m) :
    lowerUnder type p targets s m = s m := by simp [lowerUnder, outside]

theorem lowerUnder_of_under {type : InvType} (mem : Under p targets m) :
    lowerUnder type p targets s m = (s m).lower type := by simp [lowerUnder, mem]

/-- The line of `p` itself plays no part in an invalidation below `p`. -/
theorem lowerUnder_update_self (p : Path) (targets : Finset Nat) (s : Slice) (line : Line) :
    lowerUnder type p targets (update s p line) = update (lowerUnder type p targets s) p line := by
  funext m
  by_cases isSelf : m = p
  · subst isSelf
    simp [lowerUnder, not_under_self]
  · simp [lowerUnder, isSelf]

/-- Some cache at or below `n` holds the line modified. -/
def Dirty (s : Slice) (n : Path) : Prop := ∃ m, n <:+ m ∧ (s m).state = .M

/-- Some cache at or below one of the children `targets` of `p` is dirty. -/
def DirtyUnder (s : Slice) (p : Path) (targets : Finset Nat) : Prop :=
  ∃ m, Under p targets m ∧ (s m).state = .M

theorem dirtyUnder_update_self (p : Path) (targets : Finset Nat) (s : Slice) (line : Line) :
    DirtyUnder (update s p line) p targets ↔ DirtyUnder s p targets := by
  have below (m) (under : Under p targets m) : update s p line m = s m := by
    apply update_of_ne
    rintro rfl
    exact not_under_self _ _ under
  constructor
  · rintro ⟨m, under, modified⟩
    rw [below m under] at modified
    exact ⟨m, under, modified⟩
  · rintro ⟨m, under, modified⟩
    rw [← below m under] at modified
    exact ⟨m, under, modified⟩

/-! ## Transactions -/

/--
The common shape of a transaction of child `i` at `p`: lower the children
`targets`, rewrite the line of `p` and answer the child with `state`.
-/
def transact (targets : Finset Nat) (line : Line) (state : MESIState)
    (p : Path) (i : Nat) (s : Slice) : Slice :=
  update (update (lowerUnder type p targets s) p line) (i :: p) ((s (i :: p)).withState state)

/-- Serve a `GETS` of child `i` at `p`, once `p` itself holds the line. -/
def serveGets (noexcl : Bool) (p : Path) (i : Nat) (s : Slice) : Slice :=
  if (s p).sharers = ∅ ∧ (s p).state.isExclusive = true ∧ noexcl = false then
    transact .INVX ∅ ⟨(s p).state, {i}, true⟩ .E p i s
  else if (s p).owned = true then
    transact .INVX (s p).sharers
      ⟨if DirtyUnder s p (s p).sharers then .M else (s p).state, insert i (s p).sharers, false⟩
      .S p i s
  else
    transact .INVX ∅ ⟨(s p).state, insert i (s p).sharers, false⟩ .S p i s

/-- Serve a `GETX` of child `i` at `p`, once `p` itself holds the line in `M`. -/
def serveGetx (p : Path) (i : Nat) (s : Slice) : Slice :=
  transact .INV ((s p).sharers.erase i) ⟨(s p).state, {i}, true⟩ .M p i s

/-- Serve a request of child `i` at `p`. -/
def serve (type : AccessType) (noexcl : Bool) (p : Path) (i : Nat) (s : Slice) :
    Slice :=
  if type = .GETX then serveGetx p i s else serveGets noexcl p i s

/-- Whether a request of this type has to go to the next level. -/
def AccessType.misses : AccessType → MESIState → Bool
  | .GETX, .I => true
  | .GETX, .S => true
  | .GETS, .I => true
  | _, _ => false

/-- The state after a hit: a `GETX` silently takes `E` to `M`. -/
def AccessType.hit : AccessType → MESIState → MESIState
  | .GETX, _ => .M
  | _, state => state

variable (answer : MESIState)

/-- What the level above the root gives for a request. -/
def AccessType.grant : AccessType → MESIState
  | .GETX => .M
  | _ => answer

/-- A hit in cache `n`. -/
def touch (type : AccessType) (n : Path) (s : Slice) : Slice :=
  update s n ((s n).withState (type.hit (s n).state))

/-- Bring the line into cache `n` with the permissions the request needs. -/
def fetch (answer : MESIState) (type : AccessType) (noexcl : Bool) : Path → Slice → Slice
  | [], s =>
    if type.misses (s []).state then
      update s [] ((s []).withState (type.grant answer))
    else
      touch type [] s
  | i :: p, s =>
    if type.misses (s (i :: p)).state then
      serve type noexcl p i (fetch answer type noexcl p s)
    else
      touch type (i :: p) s

/-- A miss of cache `n`, served by the level above it. -/
def ask (type : AccessType) (noexcl : Bool) : Path → Slice → Slice
  | [], s => update s [] ((s []).withState (type.grant answer))
  | i :: p, s => serve type noexcl p i (fetch answer type noexcl p s)

theorem fetch_eq (type : AccessType) (noexcl : Bool) (n : Path) (s : Slice) :
    fetch answer type noexcl n s = if type.misses (s n).state then
        ask answer type noexcl n s
      else
        touch type n s := by
  cases n <;> rfl

/-- Child `i` of `p` gives the line up; a dirty line leaves `p` modified. -/
def put (dirty : Bool) (p : Path) (i : Nat) (s : Slice) : Slice := transact .INV ∅
    ⟨if dirty then .M else (s p).state, (s p).sharers.erase i, false⟩
    .I p i s

/-- Invalidate everything below `n` and collect its dirty data. -/
def recallBelow (n : Path) (s : Slice) : Slice := update (lowerUnder .INV n (s n).sharers s) n
    ⟨if DirtyUnder s n (s n).sharers then .M else (s n).state, ∅, false⟩

/-- Cache `n` gives its line up to the level above it. -/
def surrender (dirty : Bool) : Path → Slice → Slice
  | [], s => update s [] ((s []).withState .I)
  | i :: p, s => put dirty p i s

/-- Cache `n` gives its line up in the way its state demands. -/
def relinquish (n : Path) (s : Slice) : Slice :=
  if (s n).state = .I then s
  else surrender (decide ((s n).state = .M)) n s

/-- Evict the line from cache `n`. -/
def evict (n : Path) (s : Slice) : Slice := relinquish n (recallBelow n s)

/-- Cache `m` is strictly above cache `n`. -/
def Above (n m : Path) : Prop := m <:+ n ∧ m ≠ n

theorem not_above_of_suffix (suffix : n <:+ m) : ¬ Above n m := by
  rintro ⟨above, ne⟩
  exact ne (above.eq_of_length_le suffix.length_le)

theorem above_cons {i : Nat} : Above (i :: n) m ↔ m = n ∨ Above n m := by
  constructor
  · rintro ⟨suffix, ne⟩
    rcases suffix_cons_iff.mp suffix with eq | suffix
    · exact absurd eq ne
    · by_cases eq : m = n
      · exact .inl eq
      · exact .inr ⟨suffix, eq⟩
  · rintro (rfl | ⟨suffix, _⟩)
    · exact ⟨suffix_cons i m, (cons_ne_self i m).symm⟩
    · refine ⟨suffix.trans (suffix_cons i n), ?_⟩
      rintro rfl
      have bound := suffix.length_le
      rw [length_cons] at bound
      omega

/-- Evictions of the line from caches strictly above `n`. -/
def EvictedAbove (n : Path) (s t : Slice) : Prop :=
  ∃ victims : List Path, (∀ p ∈ victims, Above n p) ∧ t = victims.foldl (fun s p => evict p s) s

namespace EvictedAbove

variable {n : Path} {s t u : Slice}

theorem of_eq (same : t = s) : EvictedAbove n s t := ⟨[], by simp, same⟩

theorem trans (first : EvictedAbove n s t) (second : EvictedAbove n t u) : EvictedAbove n s u := by
  obtain ⟨left, leftAbove, rfl⟩ := first
  rcases second with ⟨right, rightAbove, rfl⟩
  exact ⟨left ++ right, forall_mem_append.mpr ⟨leftAbove, rightAbove⟩, by rw [foldl_append]⟩

/-- What is above a cache is above its children. -/
theorem child (above : EvictedAbove n s t) (i : Nat) : EvictedAbove (i :: n) s t := by
  obtain ⟨victims, isAbove, rfl⟩ := above
  exact ⟨victims, fun p mem => above_cons.mpr (.inr (isAbove p mem)), rfl⟩

theorem parent (n : Path) (i : Nat) (s : Slice) : EvictedAbove (i :: n) s (evict n s) := by
  refine ⟨[n], ?_, rfl⟩
  intro p mem
  rw [mem_singleton] at mem
  exact above_cons.mpr (.inl mem)

end EvictedAbove

/-! ## The invariant -/

/--
One cache and its children: the directory is exact, children are inside the
tree, the cache includes its children, and an exclusive child is the only one,
owns the line and has exclusive permission above it.
-/
structure NodeOk (arity : Nat) (line : Line) (child : Nat → MESIState) : Prop where
  sharer : ∀ i, i ∈ line.sharers ↔ child i ≠ .I
  inside : ∀ i ∈ line.sharers, i < arity
  inclusion : ∀ i ∈ line.sharers, line.state ≠ .I
  exclusive : ∀ i, (child i).isExclusive = true → line.state.isExclusive = true ∧ line.owned = true
  owner : line.owned = true → ∃ i, line.sharers = {i} ∧ (child i).isExclusive = true

/-- The protocol invariant of one line. -/
def Coherent (arity : Path → Nat) (s : Slice) : Prop :=
  ∀ n, NodeOk (arity n) (s n) (fun i => (s (i :: n)).state)

/-- The protocol invariant at and below one cache. -/
def CoherentBelow (arity : Path → Nat) (s : Slice) (n : Path) : Prop :=
  ∀ m, n <:+ m → NodeOk (arity m) (s m) (fun i => (s (i :: m)).state)

theorem Coherent.toBelow (ok : Coherent arity s) (n : Path) : CoherentBelow arity s n :=
  fun m _ => ok m

/--
The directory of `n` is exact and its children are coherent; nothing is said
about the state of `n` itself.
-/
structure DirectoryBelow (arity : Path → Nat) (s : Slice) (n : Path) : Prop where
  sharer : ∀ i, i ∈ (s n).sharers ↔ (s (i :: n)).state ≠ .I
  inside : ∀ i ∈ (s n).sharers, i < arity n
  exclusive : ∀ i, (s (i :: n)).state.isExclusive = true → (s n).owned = true
  owner : (s n).owned = true → ∃ i, (s n).sharers = {i} ∧ (s (i :: n)).state.isExclusive = true
  below : ∀ i, CoherentBelow arity s (i :: n)

theorem CoherentBelow.descend (ok : CoherentBelow arity s n) (suffix : n <:+ m) :
    CoherentBelow arity s m :=
  fun k below => ok k (suffix.trans below)

theorem CoherentBelow.directory (ok : CoherentBelow arity s n) : DirectoryBelow arity s n where
  sharer := (ok n suffix_rfl).sharer
  inside := (ok n suffix_rfl).inside
  exclusive := fun i exclusive =>
    ((ok n suffix_rfl).exclusive i exclusive).2
  owner := (ok n suffix_rfl).owner
  below := fun i => ok.descend (suffix_cons i n)

namespace NodeOk

variable {arity : Nat} {line : Line} {child : Nat → MESIState}

variable (ok : NodeOk arity line child)
include ok

theorem congr {other : Nat → MESIState} (eq : ∀ i, other i = child i) :
    NodeOk arity line other := by
  have same : other = child := funext eq
  rwa [same]

/-- An invalid cache has no sharers. -/
theorem sharers_of_invalid (invalid : line.state = .I) : line.sharers = ∅ := by
  apply Finset.eq_empty_of_forall_notMem
  intro i mem
  exact ok.inclusion i mem invalid

theorem child_of_not_sharer {i : Nat} (absent : i ∉ line.sharers) : child i = .I := by
  by_contra valid
  exact absent ((ok.sharer i).mpr valid)

/-- Without an owner no child has exclusive permission. -/
theorem child_not_exclusive (shared : line.owned = false) (i : Nat) :
    (child i).isExclusive = false := by
  by_contra exclusive
  rw [Bool.not_eq_false] at exclusive
  have owned := (ok.exclusive i exclusive).2
  simp [shared] at owned

/--
The state of the cache itself may change as long as it stays valid and keeps
the exclusive permission that an owner below needs.
-/
theorem setState {state : MESIState} (valid : line.sharers ≠ ∅ → state ≠ .I)
    (exclusive : line.owned = true → state.isExclusive = true) :
    NodeOk arity (line.withState state) child where
  sharer := ok.sharer
  inside := ok.inside
  inclusion := by
    intro i mem
    exact valid (Finset.ne_empty_of_mem mem)
  exclusive := by
    intro i childExcl
    have owned := (ok.exclusive i childExcl).2
    exact ⟨exclusive owned, owned⟩
  owner := ok.owner

/-- An invalidated cache above invalidated children. -/
theorem lower {lowered : Nat → MESIState} (agrees : ∀ i, ∃ below : Line, below.state = child i ∧
      lowered i = (below.lower type).state) :
    NodeOk arity (line.lower type) lowered := by
  cases type with
  | INV =>
    have invalid (i) : lowered i = .I := by
      obtain ⟨below, _, eq⟩ := agrees i
      exact eq
    exact {
      sharer := by simp [Line.lower, invalid]
      inside := by simp [Line.lower]
      inclusion := by simp [Line.lower]
      exclusive := by simp [invalid]
      owner := by simp [Line.lower] }
  | INVX =>
    have demoted (i) : lowered i = (child i).demote := by
      obtain ⟨below, stateEqual, eq⟩ := agrees i
      rw [eq, ← stateEqual]
      rfl
    exact {
      sharer := by simpa [Line.lower, demoted] using ok.sharer
      inside := ok.inside
      inclusion := by simpa [Line.lower] using ok.inclusion
      exclusive := by simp [demoted]
      owner := by simp [Line.lower] }
  | FWD =>
    apply ok.congr
    intro i
    obtain ⟨below, stateEqual, eq⟩ := agrees i
    rw [eq, ← stateEqual]
    rfl

end NodeOk

end Damov.Coherence

end
