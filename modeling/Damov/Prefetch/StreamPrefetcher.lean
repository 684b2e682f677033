import Damov.Coherence.MemoryHierarchy
import Damov.Library.Checked
import Mathlib.Algebra.Ring.Nat

/-!
# The stream prefetcher

`StreamPrefetcher` sits between two levels of caches. It follows the accesses to
16 pages of 64 lines; when the accesses to a page keep their stride it fetches
lines ahead of them. The response times of the prefetches are recorded, and a
demand for a prefetched line is meant to wait for them.

Positions are unsigned and strides are signed numbers of 32 bits. The parent is
represented by its answers, which come with the request.

Prefetches stay in the page of the demand. An access that issues one returns the
response cycle of the prefetch, and it returns before the history of its entry is
updated. The depth of the last prefetch is a quotient of unsigned numbers, so that
streams in the two directions are not treated alike. An entry of the zeroed table
has the stride 0, by which an access to page 0 can divide.
-/

namespace Damov.Prefetch

open Coherence (Address AccessType)
open Function Library.Checked

/-- A request, the response cycles of the parent to the demand and to a first and
a second prefetch, and the `reqCycle` of the record of the demand. -/
structure Request where
  lineAddr : Address
  type : AccessType
  cycle : Nat
  demand : Nat
  first : Nat
  second : Nat
  wbReqCycle : Nat

def Request.pageAddr (req : Request) : Address := req.lineAddr >>> 6

def Request.pos (req : Request) : BitVec 32 := (req.lineAddr &&& 63).setWidth 32

/-- The position of a prefetch in its page, and its line. -/
structure Fetch where
  pos : BitVec 32
  lineAddr : Address
  deriving DecidableEq

/-- What an access returns, and the prefetches that it issues. -/
structure Outcome where
  respCycle : Nat
  issued : List Fetch
  deriving DecidableEq

inductive PrefetchFailure where
  | zeroStride
  deriving DecidableEq

/-- The stream of a page. `conf` is a saturating counter. -/
structure Entry where
  stride : BitVec 32
  conf : Nat
  respCycle : BitVec 32 → Nat
  valid : BitVec 32 → Bool
  lastPos : BitVec 32
  lastLastPos : BitVec 32
  lastPrefetchPos : BitVec 32
  lastCycle : Nat
  ts : Nat

namespace Entry

def zero : Entry := ⟨0, 0, fun _ => 0, fun _ => false, 0, 0, 0, 0, 0⟩

variable (e : Entry)

def alloc (pos : BitVec 32) (curCycle ts : Nat) : Entry :=
  { e with
    stride := 1
    conf := 1
    valid := fun _ => false
    lastPos := pos
    lastLastPos := 0
    lastPrefetchPos := 0
    lastCycle := curCycle
    ts }

/-- The line was prefetched, and the prefetch ends after the demand. -/
def shortPrefetch (pos : BitVec 32) (respCycle : Nat) : Bool :=
  e.valid pos && decide (respCycle < e.respCycle pos)

/-- A demand closes a prefetch. -/
def close (pos : BitVec 32) (respCycle : Nat) : Entry :=
  if e.valid pos then
    { e with
      valid := update e.valid pos false
      lastCycle := max (max (e.respCycle pos) respCycle) e.lastCycle }
  else e

def fill (pos : BitVec 32) (respCycle : Nat) : Entry :=
  { e with
    valid := update e.valid pos true
    respCycle := update e.respCycle pos respCycle }

/-- The difference of the positions is unsigned, and so is the division. -/
def fetchDepth (stride : BitVec 32) : BitVec 32 := (e.lastPrefetchPos - e.lastPos) / stride

/-- Where to prefetch, and how deep that is. -/
def target (pos stride : BitVec 32) : BitVec 32 × BitVec 32 :=
  if (e.fetchDepth stride).slt 1 then (pos + stride, 1)
  else (e.lastPrefetchPos + stride, e.fetchDepth stride)

def admits (pos : BitVec 32) : Bool := decide (pos < 64) && !e.valid pos

/-- One or two prefetches, or `none`. -/
def issue (req : Request) (stride : BitVec 32) (short : Bool) : Option (Entry × Outcome) :=
  let prefetchPos := (e.target req.pos stride).1
  let fetchDepth := (e.target req.pos stride).2
  if e.admits prefetchPos then
    let lineAddr := req.lineAddr + prefetchPos.setWidth 64 - req.pos.setWidth 64
    let longerCycle := max req.wbReqCycle req.first
    let filled := e.fill prefetchPos longerCycle
    if short && fetchDepth.slt 8 && filled.admits (prefetchPos + stride) then
      let longestCycle := max longerCycle req.second
      some ({ filled.fill (prefetchPos + stride) longestCycle with
            lastPrefetchPos := prefetchPos + stride },
          ⟨longestCycle, [⟨prefetchPos, lineAddr⟩,
            ⟨prefetchPos + stride, lineAddr + stride.signExtend 64⟩]⟩)
    else
      some ({ filled with lastPrefetchPos := prefetchPos },
        ⟨longerCycle, [⟨prefetchPos, lineAddr⟩]⟩)
  else none

/-- An access with another stride. -/
def train (pos stride : BitVec 32) : Entry :=
  let trained :=
    if e.conf - 1 < 2 ∧ stride ≠ 0 ∧ stride ≠ e.stride ∧ stride = e.lastPos - e.lastLastPos then
      { e with conf := 1, stride }
    else { e with conf := e.conf - 1 }
  { trained with lastPrefetchPos := pos }

/-- The end of an access that has not returned before. -/
def finish (req : Request) : Entry × Outcome :=
  ({ e with lastLastPos := e.lastPos, lastPos := req.pos }, ⟨req.demand, []⟩)

def confident (req : Request) (ts : Nat) : Entry :=
  { e.close req.pos req.demand with
    ts
    conf := min (e.conf + 1) 3 }

/-- The depth of a prefetch is divided by the stride. -/
def hit (req : Request) (ts : Nat) : Except PrefetchFailure (Entry × Outcome) := do
  let stride := req.pos - e.lastPos
  if e.stride = stride then
    let confident := e.confident req ts
    if 2 ≤ confident.conf then
      check (stride ≠ 0) .zeroStride
      let short := e.shortPrefetch req.pos req.demand
      return (confident.issue req stride short).getD (confident.finish req)
    else return confident.finish req
  else return ({ e.close req.pos req.demand with ts }.train req.pos stride).finish req

end Entry

structure StreamPrefetcher where
  timestamp : Nat
  tag : Fin 16 → Address
  array : Fin 16 → Entry

namespace StreamPrefetcher

def initial : StreamPrefetcher := ⟨0, fun _ => 0, fun _ => Entry.zero⟩

variable (pf : StreamPrefetcher)

/-- The last entry of the page. -/
def find (pageAddr : Address) : Option (Fin 16) :=
  (List.finRange 16).foldl (fun idx i => if pageAddr = pf.tag i then some i else idx) none

/-- The least recently used entry that has no warm prefetches. -/
def candidate (reqCycle : Nat) : Option (Fin 16) :=
  ((List.finRange 16).foldl (fun cand i =>
      if reqCycle + 500 < (pf.array i).lastCycle then cand
      else if (pf.array i).ts < cand.2 then (some i, (pf.array i).ts)
      else cand)
    (none, 2 ^ 64 - 1)).1

/-- The entry that the access hits, or the one that it allocates. -/
def place (req : Request) : Option (Fin 16 × Bool) :=
  if req.type = .GETS then
    match pf.find req.pageAddr with
    | some idx => some (idx, true)
    | none => (pf.candidate req.cycle).map fun idx => (idx, false)
  else none

def access (req : Request) : Except PrefetchFailure (StreamPrefetcher × Outcome) :=
  match pf.place req with
  | some (idx, true) => do
    let (entry, outcome) ← (pf.array idx).hit req pf.timestamp
    return ({ pf with
        timestamp := pf.timestamp + 1
        array := update pf.array idx entry },
      outcome)
  | some (idx, false) =>
    let entry := (pf.array idx).alloc req.pos req.cycle pf.timestamp
    return ({ timestamp := pf.timestamp + 1
              tag := update pf.tag idx req.pageAddr
              array := update pf.array idx entry },
      ⟨req.demand, []⟩)
  | none => return (pf, ⟨req.demand, []⟩)

def step (req : Request) : Except PrefetchFailure StreamPrefetcher := do
  return (← pf.access req).1

def run (reqs : List Request) : Except PrefetchFailure StreamPrefetcher := reqs.foldlM step initial

end StreamPrefetcher

open List

/-! ## Positions and lines -/

namespace Request

variable (req : Request)

theorem pos_toNat : req.pos.toNat = req.lineAddr.toNat % 64 := by
  have low : req.lineAddr.toNat &&& 63 = req.lineAddr.toNat % 64 :=
    Nat.and_two_pow_sub_one_eq_mod _ 6
  change (req.lineAddr.toNat &&& 63) % 2 ^ 32 = _
  omega

theorem pos_lt : req.pos < 64 := by
  rw [BitVec.lt_def, pos_toNat]
  exact Nat.mod_lt _ (Nat.succ_pos 63)

/-- A line at another position of the page. -/
structure InPage (pos : BitVec 32) (lineAddr : Address) : Prop where
  bound : pos < 64
  line : lineAddr.toNat = req.lineAddr.toNat / 64 * 64 + pos.toNat
  other : pos ≠ req.pos

variable {req} {pos : BitVec 32} {lineAddr : Address}

theorem line_toNat (bound : pos < 64) :
    (req.lineAddr + pos.setWidth 64 - req.pos.setWidth 64).toNat =
      req.lineAddr.toNat / 64 * 64 + pos.toNat := by
  have isPos := req.pos_toNat
  bv_omega

theorem line_add_toNat {stride : BitVec 32} {base : Nat}
    (isLine : lineAddr.toNat = base * 64 + pos.toNat) (bound : pos < 64)
    (next : pos + stride < 64) :
    (lineAddr + stride.signExtend 64).toNat = base * 64 + (pos + stride).toNat := by
  have isInt := stride.toInt_eq_toNat_cond
  have isSum := BitVec.toNat_add pos stride
  have small : pos.toNat < 64 := bound
  have smallNext : (pos + stride).toNat < 64 := next
  rw [BitVec.signExtend, BitVec.toNat_add, BitVec.toNat_ofInt]
  split at isInt
  all_goals omega

theorem InPage.page (inPage : req.InPage pos lineAddr) :
    pos < 64 ∧ lineAddr >>> 6 = req.pageAddr ∧ lineAddr ≠ req.lineAddr := by
  obtain ⟨bound, isLine, other⟩ := inPage
  have small : pos.toNat < 64 := bound
  refine ⟨bound, ?_, ?_⟩
  · apply BitVec.eq_of_toNat_eq
    rw [pageAddr, BitVec.toNat_ushiftRight, BitVec.toNat_ushiftRight]
    omega
  · rintro rfl
    apply other
    apply BitVec.eq_of_toNat_eq
    rw [pos_toNat]
    omega

end Request

namespace Entry

/-- Positions are positions in a page. -/
def Bounded (e : Entry) : Prop := e.lastPos < 64 ∧ e.lastPrefetchPos < 64

instance (e : Entry) : Decidable e.Bounded := inferInstanceAs (Decidable (_ ∧ _))

/-- The same stream. -/
structure Alike (e other : Entry) : Prop where
  lastPos : e.lastPos = other.lastPos
  lastLastPos : e.lastLastPos = other.lastLastPos
  lastPrefetchPos : e.lastPrefetchPos = other.lastPrefetchPos
  stride : e.stride = other.stride

theorem close_alike (e : Entry) (pos : BitVec 32) (respCycle : Nat) :
    Alike (e.close pos respCycle) e := by
  unfold close
  split <;> exact ⟨rfl, rfl, rfl, rfl⟩

theorem lt_of_admits {e : Entry} {pos : BitVec 32} (isOpen : e.admits pos = true) : pos < 64 := by
  rw [admits, Bool.and_eq_true, decide_eq_true_eq] at isOpen
  exact isOpen.1

/-! ## The depth of prefetches -/

/-- How far the last prefetch is ahead of the last access. -/
def ahead (e : Entry) : Int := (e.lastPrefetchPos.toNat : Int) - e.lastPos.toNat

variable {e : Entry} {req : Request}

/-- The stride of two positions. -/
theorem stride_small (bounded : e.Bounded) (same : e.stride = req.pos - e.lastPos) :
    -64 < e.stride.toInt ∧ e.stride.toInt < 64 := by
  have posBound := req.pos_lt
  have lastBound := bounded.1
  have isInt := e.stride.toInt_eq_toNat_cond
  split at isInt <;> bv_omega

/-- The computed depth. It is exact for ascending streams that are not behind their
prefetches; behind them it is huge, unless the stride is 1. A descending stream has
the depth 1 if it is at most one stride behind its prefetches, and 0 otherwise. -/
theorem fetchDepth_cases (bounded : e.Bounded) {stride : BitVec 32} (nonzero : stride ≠ 0)
    (small : -64 < stride.toInt ∧ stride.toInt < 64) :
    0 < stride.toInt ∧ 0 ≤ e.ahead ∧ (e.fetchDepth stride).toInt = e.ahead / stride.toInt ∨
      stride.toInt = 1 ∧ e.ahead < 0 ∧ (e.fetchDepth stride).toInt = e.ahead ∨
      1 < stride.toInt ∧ e.ahead < 0 ∧ 8 ≤ (e.fetchDepth stride).toInt ∨
      stride.toInt < 0 ∧ stride.toInt ≤ e.ahead ∧ e.ahead < 0 ∧ (e.fetchDepth stride).toInt = 1 ∨
      stride.toInt < 0 ∧ (e.ahead < stride.toInt ∨ 0 ≤ e.ahead) ∧
        (e.fetchDepth stride).toInt = 0 := by
  have lastBound : e.lastPos.toNat < 64 := bounded.1
  have prefetchBound : e.lastPrefetchPos.toNat < 64 := bounded.2
  have isStride := stride.toInt_eq_toNat_cond
  have isDepth := (e.fetchDepth stride).toInt_eq_toNat_cond
  have quotient : (e.fetchDepth stride).toNat =
      (e.lastPrefetchPos - e.lastPos).toNat / stride.toNat := BitVec.toNat_udiv
  have dividend : ((e.lastPrefetchPos - e.lastPos).toNat : Int) =
      if 0 ≤ e.ahead then e.ahead else 2 ^ 32 + e.ahead := by
    rw [BitVec.toNat_sub, ahead]
    split <;> omega
  have positive : 0 < stride.toNat := by bv_omega
  generalize (e.lastPrefetchPos - e.lastPos).toNat = dist at quotient dividend
  have bound : -64 < e.ahead ∧ e.ahead < 64 := by
    unfold ahead
    omega
  by_cases isAscending : 2 * stride.toNat < 2 ^ 32
  · rw [if_pos isAscending] at isStride
    by_cases isAhead : 0 ≤ e.ahead
    · refine .inl ⟨by omega, isAhead, ?_⟩
      have least := Nat.div_le_self dist stride.toNat
      rw [if_pos isAhead] at dividend
      rw [isStride, ← dividend, ← Int.natCast_ediv, ← quotient]
      omega
    rw [if_neg isAhead] at dividend
    by_cases isOne : stride.toNat = 1
    · rw [isOne, Nat.div_one] at quotient
      omega
    have large : 8 ≤ dist / stride.toNat := by
      rw [Nat.le_div_iff_mul_le positive]
      omega
    have fits : dist / stride.toNat < 2 ^ 31 := by
      rw [Nat.div_lt_iff_lt_mul positive]
      omega
    omega
  · rw [if_neg isAscending] at isStride
    by_cases isNear : stride.toInt ≤ e.ahead ∧ e.ahead < 0
    · rw [if_neg (by omega)] at dividend
      rw [Nat.div_eq_of_lt_le (k := 1) (by omega) (by omega)] at quotient
      omega
    · rw [Nat.div_eq_of_lt (by split at dividend <;> omega)] at quotient
      omega

section

variable (bounded : e.Bounded) (nonzero : e.stride ≠ 0)
  (small : -64 < e.stride.toInt ∧ e.stride.toInt < 64)
include bounded nonzero small

end

/-! ## What an access does -/

section

variable (same : e.stride = req.pos - e.lastPos) (nonzero : e.stride ≠ 0)
include same nonzero

theorem target_ne : (e.target req.pos e.stride).1 ≠ req.pos := by
  unfold target
  split
  case isTrue =>
    intro here
    exact nonzero (by bv_omega)
  case isFalse deep =>
    intro here
    have behind : e.lastPrefetchPos - e.lastPos = 0#32 := by bv_omega
    apply deep
    rw [fetchDepth, behind, BitVec.zero_udiv]
    rfl

theorem next_target_ne (bounded : e.Bounded)
    (shallow : (e.target req.pos e.stride).2.slt 8 = true) :
    (e.target req.pos e.stride).1 + e.stride ≠ req.pos := by
  have posBound := req.pos_lt
  have lastBound := bounded.1
  unfold target at shallow ⊢
  by_cases deep : (e.fetchDepth e.stride).slt 1 = true
  · rw [if_pos deep]
    bv_omega
  rw [if_neg deep] at shallow ⊢
  intro here
  have isInt := e.stride.toInt_eq_toNat_cond
  have prefetchBound : e.lastPrefetchPos.toNat < 64 := bounded.2
  have behind : e.ahead = -e.stride.toInt := by
    unfold ahead
    split at isInt <;> bv_omega
  have cases := fetchDepth_cases bounded nonzero (stride_small bounded same)
  rw [BitVec.slt_iff_toInt_lt] at deep shallow
  have deep : ¬ (e.fetchDepth e.stride).toInt < 1 := deep
  have shallow : (e.fetchDepth e.stride).toInt < 8 := shallow
  omega

end

section

variable (e req)

/-- The access keeps the stride of a confident entry, and its target is free. -/
abbrev Prefetches : Prop := e.stride = req.pos - e.lastPos ∧ e.stride ≠ 0 ∧ 1 ≤ e.conf ∧
    e.admits (e.target req.pos e.stride).1 = true

/-- The line was to come later, and the target behind the first one is free too. -/
abbrev Doubles : Prop :=
  e.shortPrefetch req.pos req.demand = true ∧ (e.target req.pos e.stride).2.slt 8 = true ∧
    e.admits ((e.target req.pos e.stride).1 + e.stride) = true

def firstFetch : Fetch where
  pos := (e.target req.pos e.stride).1
  lineAddr := req.lineAddr + (e.target req.pos e.stride).1.setWidth 64 - req.pos.setWidth 64

def secondFetch : Fetch where
  pos := (e.firstFetch req).pos + e.stride
  lineAddr := (e.firstFetch req).lineAddr + e.stride.signExtend 64

/-- The answer that an access waits for that prefetches. -/
def answered : Nat :=
  if e.Doubles req then max (max req.wbReqCycle req.first) req.second
  else max req.wbReqCycle req.first

def fetched : List Fetch :=
  if e.Doubles req then [e.firstFetch req, e.secondFetch req] else [e.firstFetch req]

end

/-- An access that issues no prefetch. -/
structure Quiet (e : Entry) (req : Request) (result : Entry × Outcome) : Prop where
  outcome : result.2 = ⟨req.demand, []⟩
  lastPos : result.1.lastPos = req.pos
  lastLastPos : result.1.lastLastPos = e.lastPos
  stride : result.1.stride = e.stride ∨ result.1.stride ≠ 0
  lastPrefetchPos : result.1.lastPrefetchPos = e.lastPrefetchPos ∨
    result.1.lastPrefetchPos = req.pos

/-- An access that returns after its prefetches. -/
structure Prefetched (e : Entry) (req : Request) (result : Entry × Outcome) : Prop where
  outcome : result.2 = ⟨e.answered req, e.fetched req⟩
  lastPos : result.1.lastPos = e.lastPos
  stride : result.1.stride = e.stride
  lastPrefetchPos : result.1.lastPrefetchPos < 64

theorem close_valid {pos other : BitVec 32} (apart : other ≠ pos) (respCycle : Nat) :
    (e.close pos respCycle).valid other = e.valid other := by
  unfold close
  split
  · exact update_of_ne apart _ _
  · rfl

theorem issue_spec (bounded : e.Bounded) (same : e.stride = req.pos - e.lastPos)
    (nonzero : e.stride ≠ 0) (ts : Nat) :
    match (e.confident req ts).issue req e.stride (e.shortPrefetch req.pos req.demand) with
    | none => e.admits (e.target req.pos e.stride).1 = false
    | some result => e.admits (e.target req.pos e.stride).1 = true ∧ Prefetched e req result := by
  have alike := e.close_alike req.pos req.demand
  have isTarget : (e.confident req ts).target = e.target := by
    ext1 pos
    ext1 stride
    rw [target, target, fetchDepth, fetchDepth,
      show (e.confident req ts).lastPos = e.lastPos from alike.lastPos,
      show (e.confident req ts).lastPrefetchPos = e.lastPrefetchPos from alike.lastPrefetchPos]
  have first : (e.confident req ts).admits (e.target req.pos e.stride).1 =
      e.admits (e.target req.pos e.stride).1 := by
    simp only [admits, confident, close_valid (target_ne same nonzero)]
  have apart : (e.target req.pos e.stride).1 + e.stride ≠ (e.target req.pos e.stride).1 := by
    bv_omega
  have second (cycle : Nat) (shallow : (e.target req.pos e.stride).2.slt 8 = true) :
      ((e.confident req ts).fill (e.target req.pos e.stride).1 cycle).admits
        ((e.target req.pos e.stride).1 + e.stride) =
          e.admits ((e.target req.pos e.stride).1 + e.stride) := by
    simp only [admits, fill, update_of_ne apart, confident,
      close_valid (next_target_ne same nonzero bounded shallow)]
  unfold issue
  simp only [isTarget, first]
  by_cases free : e.admits (e.target req.pos e.stride).1 = true
  · rw [if_pos free]
    by_cases doubles : e.Doubles req
    · rw [if_pos (by rw [second _ doubles.2.1, doubles.1, doubles.2.1, doubles.2.2]; rfl)]
      refine ⟨free, ?_, alike.lastPos, alike.stride, lt_of_admits doubles.2.2⟩
      rw [answered, fetched, if_pos doubles, if_pos doubles]
      rfl
    rw [if_neg]
    · refine ⟨free, ?_, alike.lastPos, alike.stride, lt_of_admits free⟩
      rw [answered, fetched, if_neg doubles, if_neg doubles]
      rfl
    · rw [Bool.and_eq_true, Bool.and_eq_true]
      rintro ⟨⟨short, shallow⟩, again⟩
      exact doubles ⟨short, shallow, second _ shallow ▸ again⟩
  · simp [free]

theorem train_quiet {closed : Entry} (alike : Alike closed e) (stride : BitVec 32) :
    Quiet e req ((closed.train req.pos stride).finish req) := by
  unfold train
  split
  case isTrue switches => exact ⟨rfl, rfl, alike.lastPos, .inr switches.2.1, .inr rfl⟩
  case isFalse => exact ⟨rfl, rfl, alike.lastPos, .inl alike.stride, .inr rfl⟩

/-- What an access does that hits an entry. -/
theorem hit_spec (bounded : e.Bounded) (req : Request) (ts : Nat) :
    Ends (fun _ => e.stride = 0) (e.hit req ts) fun result =>
      e.Prefetches req ∧ Prefetched e req result ∨ ¬ e.Prefetches req ∧ Quiet e req result := by
  have alike := e.close_alike req.pos req.demand
  have quiet : Quiet e req ((e.confident req ts).finish req) :=
    ⟨rfl, rfl, alike.lastPos, .inl alike.stride, .inl alike.lastPrefetchPos⟩
  have isSure : 2 ≤ (e.confident req ts).conf ↔ 1 ≤ e.conf := by
    simp only [confident]
    omega
  unfold hit
  dsimp only
  by_cases same : e.stride = req.pos - e.lastPos
  · rw [if_pos same, ← same]
    by_cases sure : 2 ≤ (e.confident req ts).conf
    · rw [if_pos sure]
      by_cases nonzero : e.stride ≠ 0
      · rw [check_true_bind nonzero]
        have spec := issue_spec bounded same nonzero ts
        cases issued : (e.confident req ts).issue req e.stride _ with
        | none =>
          rw [issued] at spec
          exact .pure (.inr ⟨fun prefetches => Bool.false_ne_true (spec.symm.trans prefetches.2.2.2),
            quiet⟩)
        | some result =>
          rw [issued] at spec
          exact .pure (.inl ⟨⟨same, nonzero, isSure.mp sure, spec.1⟩, spec.2⟩)
      · rw [check, if_neg nonzero]
        exact .error (not_not.mp nonzero)
    · rw [if_neg sure]
      exact .pure (.inr ⟨fun prefetches => sure (isSure.mpr prefetches.2.2.1), quiet⟩)
  · rw [if_neg same]
    refine .pure (.inr ⟨fun prefetches => same prefetches.1, train_quiet ?_ _⟩)
    exact { alike with }

theorem Prefetches.inPage (prefetches : e.Prefetches req) (bounded : e.Bounded) :
    ∀ fetch ∈ e.fetched req, req.InPage fetch.pos fetch.lineAddr := by
  obtain ⟨same, nonzero, -, free⟩ := prefetches
  have bound := lt_of_admits free
  have first : req.InPage (e.firstFetch req).pos (e.firstFetch req).lineAddr :=
    ⟨bound, Request.line_toNat bound, target_ne same nonzero⟩
  unfold fetched
  split
  case isTrue doubles =>
    have next := lt_of_admits doubles.2.2
    rw [forall_mem_cons, forall_mem_singleton]
    exact ⟨first, next, Request.line_add_toNat first.line bound next,
      next_target_ne same nonzero bounded doubles.2.1⟩
  case isFalse =>
    rwa [forall_mem_singleton]

theorem fetched_length (e : Entry) (req : Request) : (e.fetched req).length ≤ 2 := by
  unfold fetched
  split <;> simp

end Entry

namespace StreamPrefetcher

open Entry (Bounded Prefetched Quiet)

variable {pf : StreamPrefetcher} {req : Request} {idx : Fin 16}

/-! ## Entries -/

theorem foldl_last (isTag : Fin 16 → Prop) [DecidablePred isTag] (entries : List (Fin 16)) :
    (∀ idx, entries.foldl (fun idx i => if isTag i then some i else idx) none =
        some idx → isTag idx) ∧
      (entries.foldl (fun idx i => if isTag i then some i else idx) none =
        none → ∀ i ∈ entries, ¬ isTag i) := by
  induction entries using reverseRecOn with
  | nil => simp
  | append_singleton entries entry ih =>
    rw [foldl_concat]
    by_cases tagged : isTag entry
    · simp [tagged]
    · rw [if_neg tagged]
      exact ⟨ih.1, fun missed =>
        forall_mem_append.mpr ⟨ih.2 missed, forall_mem_singleton.mpr tagged⟩⟩

theorem tag_of_hit (isPlace : pf.place req = some (idx, true)) : pf.tag idx = req.pageAddr := by
  unfold place at isPlace
  split at isPlace
  case isFalse => cases isPlace
  case isTrue =>
    split at isPlace
    case h_1 isFound =>
      cases isPlace
      exact ((foldl_last _ _).1 _ isFound).symm
    case h_2 => simp at isPlace

theorem tag_of_alloc (isPlace : pf.place req = some (idx, false)) (i : Fin 16) :
    pf.tag i ≠ req.pageAddr := by
  unfold place at isPlace
  split at isPlace
  case isFalse => cases isPlace
  case isTrue =>
    split at isPlace
    case h_1 => simp at isPlace
    case h_2 missed =>
      exact fun isTag => (foldl_last _ _).2 missed i (mem_finRange i) isTag.symm

/-- What becomes of an entry. -/
inductive Becomes (pf : StreamPrefetcher) (req : Request) (result : StreamPrefetcher × Outcome)
    (i : Fin 16) : Prop where
  | kept (elsewhere : ∀ isHit, pf.place req ≠ some (i, isHit))
      (entry : result.1.array i = pf.array i) (tag : result.1.tag i = pf.tag i)
  | prefetched (isPlace : pf.place req = some (i, true)) (prefetches : (pf.array i).Prefetches req)
      (spec : Prefetched (pf.array i) req (result.1.array i, result.2))
      (tag : result.1.tag i = pf.tag i)
  | quiet (isPlace : pf.place req = some (i, true)) (prefetches : ¬ (pf.array i).Prefetches req)
      (spec : Quiet (pf.array i) req (result.1.array i, result.2))
      (tag : result.1.tag i = pf.tag i)
  | allocated (isPlace : pf.place req = some (i, false))
      (entry : result.1.array i = (pf.array i).alloc req.pos req.cycle pf.timestamp)
      (tag : result.1.tag i = req.pageAddr)

/-- The outcome of an access. -/
def answer (pf : StreamPrefetcher) (req : Request) : Outcome :=
  match pf.place req with
  | some (idx, true) =>
    if (pf.array idx).Prefetches req then
      ⟨(pf.array idx).answered req, (pf.array idx).fetched req⟩
    else ⟨req.demand, []⟩
  | _ => ⟨req.demand, []⟩

/-- Only an entry without stride stops an access. -/
theorem access_spec (bounded : ∀ i, (pf.array i).Bounded) (req : Request) :
    Ends (fun _ => ∃ idx, pf.place req = some (idx, true) ∧ (pf.array idx).stride = 0)
      (pf.access req) fun result =>
        (∀ i, Becomes pf req result i) ∧ result.2 = pf.answer req := by
  unfold access
  split
  case h_1 idx isPlace =>
    rw [answer, isPlace]
    refine ((Entry.hit_spec (bounded idx) req pf.timestamp).expecting fun _ zero =>
      ⟨idx, rfl, zero⟩).bind fun result spec => .pure ⟨fun i => ?_, ?_⟩
    · by_cases here : i = idx
      · subst here
        rcases spec with ⟨prefetches, spec⟩ | ⟨prefetches, spec⟩
        · exact .prefetched isPlace prefetches (by simpa using spec) rfl
        · exact .quiet isPlace prefetches (by simpa using spec) rfl
      · exact .kept (by simp [isPlace, Ne.symm here]) (update_of_ne here _ _) rfl
    · rcases spec with ⟨prefetches, spec⟩ | ⟨prefetches, spec⟩
      · exact spec.outcome.trans (if_pos prefetches).symm
      · exact spec.outcome.trans (if_neg prefetches).symm
  case h_2 idx isPlace =>
    rw [answer, isPlace]
    refine .pure ⟨fun i => ?_, rfl⟩
    by_cases here : i = idx
    · subst here
      exact .allocated isPlace (update_self _ _ _) (update_self _ _ _)
    · exact .kept (by simp [isPlace, Ne.symm here]) (update_of_ne here _ _) (update_of_ne here _ _)
  case h_3 isPlace =>
    rw [answer, isPlace]
    exact .pure ⟨fun _ => .kept (by simp [isPlace]) rfl rfl, rfl⟩

/-- Entries of pages have a stride, and pages have one entry. -/
structure Sound (pf : StreamPrefetcher) : Prop where
  bounded : ∀ i, (pf.array i).Bounded
  stride : ∀ i, pf.tag i ≠ 0 → (pf.array i).stride ≠ 0
  distinct : ∀ i j, pf.tag i ≠ 0 → pf.tag i = pf.tag j → i = j

namespace Becomes

variable {result : StreamPrefetcher × Outcome}

theorem bounded (becomes : Becomes pf req result idx) (before : (pf.array idx).Bounded) :
    (result.1.array idx).Bounded := by
  cases becomes with
  | kept _ entry => exact entry ▸ before
  | prefetched _ _ spec => exact ⟨spec.lastPos ▸ before.1, spec.lastPrefetchPos⟩
  | quiet _ _ spec =>
    refine ⟨spec.lastPos ▸ req.pos_lt, ?_⟩
    rcases spec.lastPrefetchPos with kept | moved
    · exact kept ▸ before.2
    · exact moved ▸ req.pos_lt
  | allocated _ entry => exact entry ▸ ⟨req.pos_lt, (by decide : (0 : BitVec 32) < 64)⟩

theorem stride (becomes : Becomes pf req result idx)
    (before : pf.tag idx ≠ 0 → (pf.array idx).stride ≠ 0) (isTag : result.1.tag idx ≠ 0) :
    (result.1.array idx).stride ≠ 0 := by
  cases becomes with
  | kept _ entry tag => exact entry ▸ before (tag ▸ isTag)
  | prefetched _ _ spec tag => exact spec.stride ▸ before (tag ▸ isTag)
  | quiet _ _ spec tag => exact spec.stride.elim (fun kept => kept ▸ before (tag ▸ isTag)) id
  | allocated _ entry => exact entry ▸ (by decide : (1 : BitVec 32) ≠ 0)

theorem tag (becomes : Becomes pf req result idx) : result.1.tag idx = pf.tag idx ∨
    pf.place req = some (idx, false) ∧ result.1.tag idx = req.pageAddr := by
  cases becomes with
  | kept _ _ tag => exact .inl tag
  | prefetched _ _ _ tag => exact .inl tag
  | quiet _ _ _ tag => exact .inl tag
  | allocated isPlace _ tag => exact .inr ⟨isPlace, tag⟩

end Becomes

theorem Sound.access (sound : Sound pf) (req : Request) :
    Ends (fun _ => req.pageAddr = 0) (pf.access req) fun result => Sound result.1 := by
  refine ((access_spec sound.bounded req).expecting ?_).mono ?_
  · rintro _ ⟨idx, isPlace, zero⟩
    by_contra isPage
    exact sound.stride idx (tag_of_hit isPlace ▸ isPage) zero
  · rintro result ⟨becomes, -⟩
    refine ⟨fun i => (becomes i).bounded (sound.bounded i),
      fun i => (becomes i).stride (sound.stride i), fun i j isTag same => ?_⟩
    rcases (becomes i).tag with tag | ⟨new, tag⟩ <;>
      rcases (becomes j).tag with tag' | ⟨new', tag'⟩ <;> rw [tag, tag'] at same
    · exact sound.distinct i j (tag ▸ isTag) same
    · exact absurd same (tag_of_alloc new' i)
    · exact absurd same.symm (tag_of_alloc new j)
    · cases new.symm.trans new'
      rfl

/-- Only an access to page 0 can stop a run. -/
theorem run_sound (reqs : List Request) :
    Ends (fun _ => ∃ req ∈ reqs, req.pageAddr = 0) (run reqs) Sound := by
  refine Ends.foldlM (fun _ => Sound) (fun req _ pf mem sound => ?_)
    ⟨fun _ => (by decide : Entry.zero.Bounded), fun _ absent => absurd rfl absent,
      fun _ _ absent => absurd rfl absent⟩
  exact ((sound.access req).expecting fun _ zero => ⟨req, mem, zero⟩).bind fun _ => .pure

/-- Every prefetch is for another line of the page of the demand. -/
theorem prefetches_in_page (reqs : List Request) (req : Request) (page : req.pageAddr ≠ 0) :
    Ends (fun _ => ∃ earlier ∈ reqs, earlier.pageAddr = 0) (run reqs) fun pf =>
      Gives (pf.access req) (fun result =>
        (∀ fetch ∈ result.2.issued, fetch.pos < 64 ∧ fetch.lineAddr >>> 6 = req.pageAddr ∧
          fetch.lineAddr ≠ req.lineAddr) ∧
        result.2.issued.length ≤ 2) ∧
      (∀ idx, pf.place req = some (idx, true) →
        (pf.array idx).stride = req.pos - (pf.array idx).lastPos →
        req.pos - (pf.array idx).lastPos ≠ 0) ∧
      ∀ i j, pf.tag i ≠ 0 → pf.tag i = pf.tag j → i = j := by
  refine (run_sound reqs).mono fun pf sound => ?_
  have nonzero (idx : Fin 16) (isPlace : pf.place req = some (idx, true)) :
      (pf.array idx).stride ≠ 0 :=
    sound.stride idx (tag_of_hit isPlace ▸ page)
  refine ⟨?_, fun idx isPlace same => same ▸ nonzero idx isPlace, sound.distinct⟩
  have spec := access_spec sound.bounded req
  cases returns : pf.access req with
  | error err =>
    obtain ⟨idx, isPlace, zero⟩ := spec.stops err returns
    exact absurd zero (nonzero idx isPlace)
  | ok result =>
    refine .ok ?_
    rw [(spec.returns result returns).2, answer]
    split
    case h_1 idx isPlace =>
      split
      case isTrue prefetches =>
        exact ⟨fun fetch mem => (prefetches.inPage (sound.bounded idx) fetch mem).page,
          Entry.fetched_length _ _⟩
      case isFalse => simp
    case h_2 => simp

/-- Two lines of a page, one after the other. -/
def ascending : List Request := [⟨64, .GETS, 0, 100, 0, 0, 0⟩, ⟨65, .GETS, 10, 110, 500, 0, 0⟩]

theorem prefetches_in_page_ascending : Gives (run ascending) fun pf =>
    Gives (pf.access ⟨65, .GETS, 20, 120, 0, 0, 0⟩) fun result =>
      result.2.issued = [⟨3, 67⟩] ∧ result.2.issued.length ≤ 2 := by
  have ran : Gives (run ascending) fun pf =>
      Gives (pf.access ⟨65, .GETS, 20, 120, 0, 0, 0⟩) fun result =>
        result.2.issued = [⟨3, 67⟩] := by decide
  obtain ⟨pf, reached, issues⟩ := ran
  have inPage := (prefetches_in_page ascending ⟨65, .GETS, 20, 120, 0, 0, 0⟩
    (by decide)).returns pf reached
  exact ⟨pf, reached, (issues.and inPage.1).mono fun _ both => ⟨both.1, both.2.2⟩⟩

/-! ## Response times -/

/-- What a demand should wait for: the parent, and the prefetch of its line. -/
def expected (pf : StreamPrefetcher) (req : Request) : Nat :=
  match pf.place req with
  | some (idx, true) =>
    if (pf.array idx).valid req.pos then
      max req.demand ((pf.array idx).respCycle req.pos)
    else req.demand
  | _ => req.demand

theorem demand_eq_expected_iff (isPlace : pf.place req = some (idx, true)) :
    req.demand = pf.expected req ↔ (pf.array idx).shortPrefetch req.pos req.demand = false := by
  rw [expected, isPlace, Entry.shortPrefetch]
  dsimp only
  by_cases isValid : (pf.array idx).valid req.pos = true
  · rw [if_pos isValid, isValid, Bool.true_and, decide_eq_false_iff_not]
    omega
  · simp [isValid]

/-- The response time is right if and only if the access hits no entry, or the answer
to its prefetches comes at that time, or it issues none and does not find its line
on the way. -/
theorem response_time_iff {reqs : List Request} (reached : run reqs = .ok pf)
    {result : StreamPrefetcher × Outcome} (returns : pf.access req = .ok result) :
    result.2.respCycle = pf.expected req ↔ ∀ idx, pf.place req = some (idx, true) →
      if (pf.array idx).Prefetches req then (pf.array idx).answered req = pf.expected req
      else (pf.array idx).shortPrefetch req.pos req.demand = false := by
  have sound := (run_sound reqs).returns pf reached
  rw [((access_spec sound.bounded req).returns result returns).2, answer]
  split
  case h_1 idx isPlace =>
    have unique : (∀ i, pf.place req = some (i, true) →
        if (pf.array i).Prefetches req then (pf.array i).answered req = pf.expected req
        else (pf.array i).shortPrefetch req.pos req.demand = false) ↔
          if (pf.array idx).Prefetches req then (pf.array idx).answered req = pf.expected req
          else (pf.array idx).shortPrefetch req.pos req.demand = false := by simp [isPlace]
    rw [unique]
    split
    · rfl
    · exact demand_eq_expected_iff isPlace
  case h_2 missed =>
    rw [expected]
    split
    case h_1 idx isPlace => exact absurd isPlace (missed idx)
    case h_2 => exact iff_of_true rfl fun idx isPlace => (missed idx isPlace).elim

theorem response_time_iff_late : Gives (run ascending) fun pf =>
    Gives (pf.access ⟨66, .GETS, 20, 520, 0, 0, 0⟩) fun result =>
      result.2.respCycle = pf.expected ⟨66, .GETS, 20, 520, 0, 0, 0⟩ := by
  have ran : Gives (run ascending) fun pf =>
      Gives (pf.access ⟨66, .GETS, 20, 520, 0, 0, 0⟩) fun _ =>
        ∀ idx, pf.place ⟨66, .GETS, 20, 520, 0, 0, 0⟩ = some (idx, true) →
          if (pf.array idx).Prefetches ⟨66, .GETS, 20, 520, 0, 0, 0⟩ then
            (pf.array idx).answered ⟨66, .GETS, 20, 520, 0, 0, 0⟩ =
              pf.expected ⟨66, .GETS, 20, 520, 0, 0, 0⟩
          else (pf.array idx).shortPrefetch 2 520 = false := by decide
  obtain ⟨pf, reached, result, returns, timely⟩ := ran
  exact ⟨pf, reached, result, returns, (response_time_iff reached returns).mpr timely⟩

/-- The second access returns with its prefetch and not with its line; the third
one does not wait for that prefetch, which brings its line. -/
theorem prefetch_delays_demand : Gives (run (ascending.take 1)) (fun pf =>
      Gives (pf.access ⟨65, .GETS, 10, 110, 500, 0, 0⟩) fun result =>
        result.2.respCycle = 500 ∧ pf.expected ⟨65, .GETS, 10, 110, 500, 0, 0⟩ = 110) ∧
    Gives (run ascending) fun pf =>
      Gives (pf.access ⟨66, .GETS, 20, 120, 0, 0, 0⟩) fun result =>
        result.2.respCycle = 120 ∧ pf.expected ⟨66, .GETS, 20, 120, 0, 0, 0⟩ = 500 := by decide

/-! ## History -/

/-- A table, and the positions of the accesses to its entries since they were
allocated, the last one first. -/
abbrev Trace := StreamPrefetcher × (Fin 16 → List (BitVec 32))

def heard (trace : Trace) (req : Request) : Fin 16 → List (BitVec 32) :=
  match trace.1.place req with
  | some (idx, true) =>
    if trace.2 idx = [] then trace.2 else update trace.2 idx (req.pos :: trace.2 idx)
  | some (idx, false) => update trace.2 idx [req.pos]
  | none => trace.2

def record (trace : Trace) (req : Request) : Except PrefetchFailure Trace := do
  return ((← trace.1.access req).1, heard trace req)

/-- The last positions of an entry. -/
def Follows (e : Entry) : List (BitVec 32) → Prop
  | [] => False
  | [pos] => e.lastPos = pos
  | pos :: pos' :: _ => e.lastPos = pos ∧ e.lastLastPos = pos'

theorem Follows.lastPos {e : Entry} {pos : BitVec 32} {rest : List (BitVec 32)}
    (follows : Follows e (pos :: rest)) : e.lastPos = pos := by
  cases rest with
  | nil => exact follows
  | cons => exact follows.1

variable {trace : Trace}

/-- Allocated entries have the positions of their last accesses. -/
def Tracks (trace : Trace) : Prop :=
  ∀ idx, trace.2 idx ≠ [] → Follows (trace.1.array idx) (trace.2 idx)

theorem heard_elsewhere (elsewhere : ∀ isHit, trace.1.place req ≠ some (idx, isHit)) :
    heard trace req idx = trace.2 idx := by
  unfold heard
  cases isPlace : trace.1.place req with
  | none => rfl
  | some place =>
    obtain ⟨i, isHit⟩ := place
    have here : idx ≠ i := fun same => elsewhere isHit (same ▸ isPlace)
    cases isHit with
    | true =>
      dsimp only
      split
      · rfl
      · exact update_of_ne here _ _
    | false => exact update_of_ne here _ _

theorem heard_hit (isPlace : trace.1.place req = some (idx, true)) :
    heard trace req idx = if trace.2 idx = [] then [] else req.pos :: trace.2 idx := by
  rw [heard, isPlace]
  dsimp only
  split
  case isTrue unallocated => exact unallocated
  case isFalse => exact update_self _ _ _

/-- A hit extends the history if and only if it does not prefetch. -/
theorem tracks_iff (bounded : ∀ i, (trace.1.array i).Bounded) (tracks : Tracks trace)
    (req : Request) :
    IfReturns (record trace req) Tracks ↔ ∀ idx, trace.1.place req = some (idx, true) →
      trace.2 idx ≠ [] → ¬ (trace.1.array idx).Prefetches req := by
  have spec := access_spec bounded req
  unfold record
  cases returns : trace.1.access req with
  | error err =>
    obtain ⟨idx, isPlace, zero⟩ := spec.stops err returns
    refine iff_of_true trivial fun i place _ prefetches => prefetches.2.1 ?_
    cases isPlace.symm.trans place
    exact zero
  | ok result =>
    obtain ⟨becomes, -⟩ := spec.returns result returns
    change Tracks (result.1, heard trace req) ↔ _
    constructor
    · intro next idx isPlace allocated prefetches
      have follows := next idx
      dsimp only at follows
      rw [heard_hit isPlace, if_neg allocated] at follows
      have isLast := (follows (cons_ne_nil _ _)).lastPos
      cases becomes idx with
      | kept elsewhere => exact elsewhere true isPlace
      | prefetched _ _ spec =>
        have stale : (trace.1.array idx).lastPos = req.pos := spec.lastPos.symm.trans isLast
        apply prefetches.2.1
        rw [prefetches.1, stale, BitVec.sub_self]
        rfl
      | quiet _ quiet => exact quiet prefetches
      | allocated other => simp [isPlace] at other
    · intro quiet idx allocated
      dsimp only at allocated ⊢
      cases becomes idx with
      | kept elsewhere entry =>
        rw [heard_elsewhere elsewhere] at allocated ⊢
        exact entry ▸ tracks idx allocated
      | prefetched isPlace prefetches =>
        rw [heard_hit isPlace] at allocated
        split at allocated
        case isTrue => exact absurd rfl allocated
        case isFalse before => exact absurd prefetches (quiet idx isPlace before)
      | quiet isPlace _ spec =>
        rw [heard_hit isPlace] at allocated ⊢
        split at allocated
        case isTrue => exact absurd rfl allocated
        case isFalse before =>
          rw [if_neg before]
          have follows := tracks idx before
          cases positions : trace.2 idx with
          | nil => exact spec.lastPos
          | cons pos rest =>
            rw [positions] at follows
            exact ⟨spec.lastPos, spec.lastLastPos.trans follows.lastPos⟩
      | allocated isPlace entry =>
        rw [heard, isPlace, entry]
        dsimp only
        rw [update_self]
        rfl

/-- A table with the positions of the last accesses. -/
structure Kept (trace : Trace) : Prop where
  bounded : ∀ i, (trace.1.array i).Bounded
  tracks : Tracks trace

/-- The entries have the positions of their last accesses all along a run if and
only if no access to an allocated entry finds its stride confirmed and its target
free. -/
theorem history_iff (reqs : List Request) :
    RunMeets record (fun trace req => IfReturns (record trace req) Tracks) reqs
        (initial, fun _ => []) ↔
      RunMeets record (fun trace req => ∀ idx, trace.1.place req = some (idx, true) →
        trace.2 idx ≠ [] → ¬ (trace.1.array idx).Prefetches req) reqs
        (initial, fun _ => []) := by
  refine RunMeets.congr (fun trace req (kept : Kept trace) =>
    tracks_iff kept.bounded kept.tracks req) (fun trace req kept meets => ?_) ⟨?_, ?_⟩
  · have spec := access_spec kept.bounded req
    unfold record at meets ⊢
    cases returns : trace.1.access req with
    | error err => trivial
    | ok result =>
      rw [returns] at meets
      exact ⟨fun i => ((spec.returns result returns).1 i).bounded (kept.bounded i), meets⟩
  · exact fun _ => (by decide : Entry.zero.Bounded)
  · exact fun _ allocated => absurd rfl allocated

/-- The access that issues a prefetch leaves the history as it was. -/
theorem prefetch_forgets_access :
    Gives (ascending.foldlM record (initial, fun _ => [])) fun trace =>
      trace.2 0 = [1, 0] ∧ (trace.1.array 0).lastPos = 0 := by decide

/-! ## Depth -/

end StreamPrefetcher

end Damov.Prefetch
