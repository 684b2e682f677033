import Damov.Coherence.AccessRefinement

/-!
# Runs of an inclusive tree

The cores of an inclusive tree issue loads and stores one after the other. Every
run completes without a failed assertion, and in the state it leaves the
directories are exact, the caches are inclusive, a line has at most one writer,
and the dirty data of every line is still held by some cache.
-/

noncomputable section

open scoped Classical

namespace Damov.Coherence

open Library.Checked Sys

variable {A : CacheArray}

attribute [local simp] Line.absent

/-! ## Configurations and requests -/

/-- A tree whose caches are all inclusive. -/
structure InclusiveConfig (A : CacheArray) extends Config A where
  inclusive : ∀ n, nonInclusiveHack n = false
  allocating : ∀ n, bypass n = false

/-- A cache of the tree that serves a core. -/
structure IsLeaf (cfg : Config A) (n : Path) : Prop where
  inTree : InTree cfg.arity n
  noChildren : cfg.arity n = 0

/-- A load or store that a core issues to its cache. -/
structure LeafRequest (cfg : Config A) extends CoreRequest where
  isLeaf : IsLeaf cfg leaf
  isGet : type = .GETS ∨ type = .GETX
  demand : flags.PREFETCH = false
  accepted : A.accepts lineAddr

/-- Well-formed arrays for all caches. -/
structure InitialArrays (A : CacheArray) where
  array : Path → A.State
  wf : ∀ n, A.Wf (array n)

/-- All caches empty: every line invalid and every directory entry clear. -/
def Sys.initial (arrays : InitialArrays A) : Sys A where
  caches n := {
    array := arrays.array n
    states := fun _ => .I
    entries := fun _ => Entry.clear }
  dirty := fun _ => false

/-! ## Properties of a state -/

/-- The state in which a cache holds an address. -/
def Sys.stateAt (sys : Sys A) (n : Path) (address : Address) : MESIState :=
  (sys.caches n).stateAt address

/-- The directory entry of an address in a cache whose array holds it. -/
def Sys.entryAt (sys : Sys A) (n : Path) (address : Address) : Option Entry :=
  (A.find (sys.caches n).array address).map (sys.caches n).entries

/-- The coherence of one line across the tree. -/
structure LineCoherent (cfg : Config A) (sys : Sys A) (address : Address) : Prop where
  directory : ∀ n entry, sys.entryAt n address = some entry →
    (∀ c, c ∈ entry.sharers ↔ sys.stateAt (c :: n) address ≠ .I) ∧
      entry.numSharers = entry.sharers.card
  inclusion : ∀ n c, sys.stateAt (c :: n) address ≠ .I → sys.stateAt n address ≠ .I
  exclusive : ∀ n c, (sys.stateAt (c :: n) address).isExclusive = true →
    (sys.stateAt n address).isExclusive = true ∧ ∃ entry, sys.entryAt n address = some entry ∧
        entry.isExclusive = true
  singleWriter : ∀ writer other, IsLeaf cfg writer → IsLeaf cfg other → other ≠ writer →
      (sys.stateAt writer address).isExclusive = true → sys.stateAt other address = .I

theorem Sys.stateAt_eq (sys : Sys A) (n : Path) (addr : Address) :
    sys.stateAt n addr = (sys.slice addr n).state :=
  CacheState.stateAt_eq _ addr

section Leaves

variable {cfg : Config A} {n m : Path}

/-- Two leaves on one path are the same. -/
theorem IsLeaf.eq_of_suffix (leaf : IsLeaf cfg n) (other : IsLeaf cfg m) (suffix : n <:+ m) :
    m = n := by
  rcases suffix_cases suffix with eq | ⟨j, below⟩
  · exact eq
  exfalso
  have inTree (k) (below : (j :: n) <:+ k) : InTree cfg.arity k → j < cfg.arity n := by
    induction k with
    | nil => exact absurd (List.suffix_nil.mp below) (by simp)
    | cons i p ih =>
      intro mem
      rcases List.suffix_cons_iff.mp below with eq | below
      · cases eq
        exact mem.1
      · exact ih below mem.2
  have bound := inTree m below other.inTree
  rw [leaf.noChildren] at bound
  exact absurd bound (Nat.not_lt_zero j)

end Leaves

/-- A valid line is in a cache of the tree. -/
theorem Coherent.inTree_of_valid {arity : Path → Nat} {s : Slice} (ok : Coherent arity s) {n : Path}
    (valid : (s n).state ≠ .I) : InTree arity n := by
  induction n with
  | nil => trivial
  | cons i p ih =>
    have sharer := ((ok p).sharer i).mpr valid
    exact ⟨(ok p).inside i sharer, ih ((ok p).inclusion i sharer)⟩

section Properties

variable {cfg : Config A} {sys : Sys A}

theorem Good.lineCoherent (good : Good cfg.arity sys) (address : Address) :
    LineCoherent cfg sys address := by
  have coherent := good.coherent address
  have entryLine : ∀ n entry, sys.entryAt n address = some entry →
      entry.sharers = (sys.slice address n).sharers ∧
        entry.isExclusive = (sys.slice address n).owned ∧
        EntryOk entry := by
    intro n entry isEntry
    obtain ⟨lineId, found, rfl⟩ := Option.map_eq_some_iff.mp isEntry
    rw [show sys.slice address n = _ from line_of_find found]
    exact ⟨rfl, rfl, (good.sound n).entry lineId⟩
  exact {
    directory := by
      intro n entry isEntry
      obtain ⟨sharers, _, ok⟩ := entryLine n entry isEntry
      refine ⟨?_, ok.count⟩
      intro c
      rw [sharers, stateAt_eq]
      exact (coherent n).sharer c
    inclusion := by
      intro n c valid
      rw [stateAt_eq] at valid ⊢
      exact (coherent n).inclusion c (((coherent n).sharer c).mpr valid)
    exclusive := by
      intro n c exclusive
      rw [stateAt_eq] at exclusive ⊢
      obtain ⟨upper, owned⟩ := (coherent n).exclusive c exclusive
      refine ⟨upper, ?_⟩
      obtain ⟨lineId, found⟩ := find_of_valid (MESIState.ne_I_of_isExclusive upper)
      refine ⟨(sys.caches n).entries lineId, ?_, ?_⟩
      · simp [entryAt, found]
      · rwa [show sys.slice address n = _ from line_of_find found] at owned
    singleWriter := by
      intro writer other isWriter isOther ne exclusive
      rw [stateAt_eq] at exclusive ⊢
      by_contra valid
      rcases coherent.comparable_of_exclusive exclusive valid with
        below | below
      · exact ne (isWriter.eq_of_suffix isOther below)
      · exact ne (isOther.eq_of_suffix isWriter below).symm }

theorem Good.dirty_held (good : Good cfg.arity sys) {addr : Address}
    (dirty : sys.dirty addr = true) :
    ∃ n, InTree cfg.arity n ∧ sys.stateAt n addr = .M := by
  obtain ⟨n, modified⟩ := good.covered addr dirty
  refine ⟨n, ?_, ?_⟩
  · apply (good.coherent addr).inTree_of_valid
    rw [modified]
    simp
  · rwa [stateAt_eq]

end Properties

/-! ## Runs -/

theorem good_initial (arity : Path → Nat) (arrays : InitialArrays A) :
    Good arity (Sys.initial arrays) := by
  have absent (addr n) : (initial arrays).slice addr n = Line.absent := by
    rw [slice_apply, CacheState.line]
    cases A.find ((initial arrays).caches n).array addr <;> rfl
  exact {
    sound := fun n => {
      wf := arrays.wf n
      entry := fun _ => EntryOk.clear
      live := fun _ => .inr ⟨rfl, rfl⟩ }
    coherent := by
      intro addr n
      simp only [absent]
      exact {
        sharer := by simp
        inside := by simp
        inclusion := by simp
        exclusive := by simp
        owner := by simp }
    covered := by simp [initial] }

section Run

variable (cfg : InclusiveConfig A)

/-- Along every path, the upper level of a cache meets its contract. -/
theorem parent_spec (n : Path) (inTree : InTree cfg.arity n) :
    UpperSpec cfg.arity Config.memoryGrant n (cfg.bottomCC n) (cfg.parent n) := by
  induction n with
  | nil => exact upper_spec cfg.toConfig grants_memoryGrant
  | cons i p ih =>
    have upper := access_upperSpec cfg.toConfig (cfg.inclusive p)
      (cfg.allocating p) inTree (ih inTree.2) grants_memoryGrant
    rwa [← Config.access_eq] at upper

/-- One request of a core, which then has the permissions for it. -/
theorem issue_spec {sys : Sys A} (good : Good cfg.arity sys) (req : LeafRequest cfg.toConfig) :
    Gives (cfg.issue sys req.toCoreRequest) fun next => Good cfg.arity next ∧
      req.type.fetched (next.slice req.lineAddr req.leaf).state := by
  have isGet : req.type.isGet = true := by
    rcases req.isGet with eq | eq <;> rw [eq] <;> rfl
  have leaf := access_leaf_spec cfg.toConfig (cfg.inclusive req.leaf) (cfg.allocating req.leaf)
    req.isLeaf.inTree req.isLeaf.noChildren
    (parent_spec cfg req.leaf req.isLeaf.inTree)
    grants_memoryGrant good req.accepted isGet req.demand 0
    req.cycle req.srcId
  rw [← Config.access_eq] at leaf
  apply leaf.bind
  rintro ⟨memory, respCycle⟩ ⟨goodAfter, slice⟩
  refine .pure ?_
  have fetched := (fetch_correct req.flags.NOEXCL isGet (grants_memoryGrant req.flags.NOEXCL)
    (good.coherent req.lineAddr) req.isLeaf.inTree).ready
  rw [← slice] at fetched
  split
  next isGetx =>
    refine ⟨⟨goodAfter.sound, goodAfter.coherent, ?_⟩, fetched⟩
    intro addr dirty
    by_cases isLine : addr = req.lineAddr
    · rw [isGetx] at fetched
      rw [isLine]
      exact ⟨req.leaf, fetched⟩
    · simp only [setDirty, Function.update_of_ne isLine] at dirty
      exact goodAfter.covered addr dirty
  next => exact ⟨goodAfter, fetched⟩

/-- A run of any length. -/
theorem run_spec {sys : Sys A} (good : Good cfg.arity sys)
    (reqs : List (LeafRequest cfg.toConfig)) :
    Gives (cfg.run sys (reqs.map LeafRequest.toCoreRequest)) (Good cfg.arity) := by
  induction reqs generalizing sys with
  | nil => exact .pure good
  | cons req reqs ih =>
    exact (issue_spec cfg good req).bind (fun _ issued => ih issued.1)

section

variable (arrays : InitialArrays A) (requests : List (LeafRequest cfg.toConfig))

/--
Every run of an inclusive tree completes, and afterwards every line is coherent
across the whole tree.
-/
theorem inclusive_tree_coherent :
    ∃ sys, cfg.run (Sys.initial arrays) (requests.map LeafRequest.toCoreRequest) = .ok sys ∧
      ∀ address, LineCoherent cfg.toConfig sys address := by
  obtain ⟨sys, returns, good⟩ := run_spec cfg (good_initial cfg.arity arrays) requests
  exact ⟨sys, returns, good.lineCoherent⟩

/--
No dirty data is dropped: after every run of an inclusive tree, a line that was
stored to and not written back to the memory is modified in some cache.
-/
theorem inclusive_tree_keeps_dirty_data :
    ∃ sys, cfg.run (Sys.initial arrays) (requests.map LeafRequest.toCoreRequest) = .ok sys ∧
      ∀ address, sys.dirty address = true →
        ∃ n, InTree cfg.arity n ∧ sys.stateAt n address = .M := by
  obtain ⟨sys, returns, good⟩ := run_spec cfg (good_initial cfg.arity arrays) requests
  exact ⟨sys, returns, fun _ dirty => good.dirty_held dirty⟩

/-- A core that has loaded a line holds it; a core that has stored to it holds it
modified, and then no other core holds it. -/
theorem completed_access_holds (req : LeafRequest cfg.toConfig) :
    ∃ sys, cfg.run (Sys.initial arrays) ((requests ++ [req]).map LeafRequest.toCoreRequest) =
        .ok sys ∧
      req.type.fetched (sys.stateAt req.leaf req.lineAddr) ∧
      (req.type = .GETX → ∀ other, IsLeaf cfg.toConfig other → other ≠ req.leaf →
        sys.stateAt other req.lineAddr = .I) := by
  obtain ⟨before, returns, good⟩ := run_spec cfg (good_initial cfg.arity arrays) requests
  obtain ⟨sys, issued, goodAfter, fetched⟩ := issue_spec cfg good req
  rw [← stateAt_eq] at fetched
  refine ⟨sys, ?_, fetched, fun isGetx other isOther ne => ?_⟩
  · rw [Config.run, List.map_append, List.foldlM_append, ← Config.run, returns]
    exact (bind_pure _).trans issued
  · rw [isGetx] at fetched
    apply (goodAfter.lineCoherent req.lineAddr).singleWriter req.leaf other req.isLeaf isOther ne
    rw [show sys.stateAt _ _ = .M from fetched]
    rfl

end

end Run

end Damov.Coherence

end
