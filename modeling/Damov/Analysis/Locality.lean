import Damov.Library.Counting
import Mathlib.Algebra.Ring.Int.Defs
import Mathlib.Data.Nat.Dist
import Mathlib.Data.Nat.Log
import Mathlib.Order.Bounds.Basic

/-!
# The locality monitor

A core pushes the address and the size of each of its accesses. At the end
`calculateLocality` drops the addresses that occur too often, cuts the others to
units of their access size and fills two histograms: the distance of each access
to the last one of the same unit, and the distance in memory to the nearest of
the last 32 accesses. Both are sorted into powers of two. `pow`, `log2` and `ceil`
of the source are taken as exact.

The histograms are determined by the whole history of an access, of which the loop
keeps just enough. The unit of an address depends on the size of the access.
Accesses of one unit touch the same memory if they have one size or the unit is 0,
and are far apart otherwise, but count as a reuse all the same.
-/

namespace Damov.Analysis

open Library.Tally Function

namespace Locality

structure Request where
  address : Nat
  size : Nat
  deriving DecidableEq

/-- The address in units of the access size, which is not zero. -/
def Request.unit (req : Request) : Nat := req.address >>> req.size.log2

/-- The bucket of a distance. -/
def bucket (stride : Nat) : Nat := 2 ^ Nat.clog 2 stride

/-- Distances are cut to this one. -/
def maxStride : Nat := 1048576

/-- The conversion of an unsigned to a signed 64-bit number. -/
def toLong (value : Nat) : Int := (value : Int).bmod (2 ^ 64)

end Locality

open Locality

structure Locality where
  tHistogram : Nat → Option Nat
  sHistogram : Nat → Option Nat
  lastAccess : Nat → Option Nat
  past32 : List Nat
  verifyToRemoveAddress : Int → Option Nat
  requests : List Request
  counter : Nat
  addrId : Nat
  strideAccess : Nat
  memAccesses : Nat

namespace Locality

def maxInstructions : Nat := 200000000

/-- The histograms start with the powers of two up to `maxStride`. -/
def emptyHistogram : Nat → Option Nat := zeros (fun i => 2 ^ i) 21

def initial : Locality where
  tHistogram := emptyHistogram
  sHistogram := emptyHistogram
  lastAccess := fun _ => none
  past32 := []
  verifyToRemoveAddress := fun _ => none
  requests := []
  counter := 0
  addrId := 0
  strideAccess := 0
  memAccesses := 0

variable (loc : Locality)

/-- Record an access, unless there are too many. -/
def pushAddress (req : Request) : Locality :=
  if maxInstructions ≤ loc.counter then loc
  else
    let addr := toLong req.address
    { loc with
      counter := loc.counter + 1
      verifyToRemoveAddress := bump loc.verifyToRemoveAddress addr
      requests := loc.requests ++ [req] }

/-- The addresses that occur too often. -/
def toRemove (counts : Int → Option Nat) (addr : Int) : Bool :=
  match counts addr with
  | some count => decide (21 ≤ Nat.clog 2 count)
  | none => false

/-- The distance in time to the last access of the same unit. -/
def reuse (addr : Nat) : Locality :=
  match loc.lastAccess addr with
  | some last =>
    let stride := min (loc.addrId - last) maxStride
    { loc with
      tHistogram := bump loc.tHistogram (bucket stride)
      lastAccess := update loc.lastAccess addr (some loc.addrId) }
  | none => { loc with
    lastAccess := update loc.lastAccess addr (some loc.addrId) }

/-- The distance in memory to the nearest of the past accesses. -/
def minStride (past : List Nat) (addr : Nat) : Nat :=
  past.foldl (fun stride item =>
      let distance := (toLong item - toLong addr).natAbs
      if distance < stride then distance else stride)
    maxStride

def spatial (addr : Nat) : Locality :=
  if 32 ≤ loc.past32.length then
    let stride := minStride loc.past32 addr
    let loc := { loc with past32 := loc.past32.tail ++ [addr] }
    if stride ≠ 0 then
      { loc with
        sHistogram := bump loc.sHistogram (bucket stride)
        strideAccess := loc.strideAccess + 1 }
    else loc
  else { loc with past32 := loc.past32 ++ [addr] }

/-- Account for one access to a unit. -/
def account (addr : Nat) : Locality :=
  let loc := { loc with
    addrId := loc.addrId + 1
    memAccesses := loc.memAccesses + 1 }
  (loc.reuse addr).spatial addr

/-- The body of the loop over the requests. -/
def visit (removed : Int → Bool) (loc : Locality) (req : Request) : Locality :=
  if removed (toLong req.address) then loc else loc.account req.unit

def calculateLocality : Locality := loc.requests.foldl (visit (toRemove loc.verifyToRemoveAddress))
    { loc with verifyToRemoveAddress := fun _ => none }

/-- The monitor after these accesses. -/
def pushAll (requests : List Request) : Locality := requests.foldl pushAddress initial

open List
open scoped Classical

variable {keys : List Nat} {loc : Locality} {n addr : Nat}

/-! ## The definition -/

/-- The accesses whose address was not pushed too often. -/
def kept (requests : List Request) : List Request := requests.filter fun req =>
    (requests.map Request.address).count req.address ≤ 2 ^ 20

/-- The latest access with the unit of access `n` was `d` accesses ago. -/
structure IsReuse (keys : List Nat) (n d : Nat) : Prop where
  pos : 0 < d
  le : d ≤ n
  same : keys[n - d]? = keys[n]?
  latest : ∀ e, 0 < e → e < d → keys[n - e]? ≠ keys[n]?

/-- Access `n` is a reuse whose distance falls into bucket `k`. -/
def Reused (keys : List Nat) (k n : Nat) : Prop :=
  ∃ d, IsReuse keys n d ∧ Nat.clog 2 (min d (2 ^ 20)) = k

/-- The distances from access `n` to the 32 accesses before it. -/
def distances (keys : List Nat) (n : Nat) : Set Nat :=
  { x | ∃ d a b, 0 < d ∧ d ≤ 32 ∧ keys[n - d]? = some a ∧ keys[n]? = some b ∧ x = Nat.dist a b }

/-- Access `n` has 32 predecessors and a stride in bucket `k`. -/
def Strided (keys : List Nat) (k n : Nat) : Prop :=
  32 ≤ n ∧ ∃ m, IsLeast (insert (2 ^ 20) (distances keys n)) m ∧ m ≠ 0 ∧ Nat.clog 2 m = k

/-- The bucket with an index. -/
def slot (k : Nat) : Nat := 2 ^ k

theorem slot_injective : Injective slot := Nat.pow_right_injective (le_refl 2)

theorem clog_lt {stride : Nat} (le : stride ≤ 2 ^ 20) : Nat.clog 2 stride < 21 :=
  Nat.lt_succ_of_le (Nat.clog_le_of_le_pow le)

/-! ## One access -/

theorem account_eq : loc.account addr =
      { loc with
        addrId := loc.addrId + 1
        memAccesses := loc.memAccesses + 1
        tHistogram := match loc.lastAccess addr with
          | some last => bump loc.tHistogram (bucket (min (loc.addrId + 1 - last) maxStride))
          | none => loc.tHistogram
        lastAccess := update loc.lastAccess addr (some (loc.addrId + 1))
        sHistogram := if 32 ≤ loc.past32.length ∧ minStride loc.past32 addr ≠ 0 then
            bump loc.sHistogram (bucket (minStride loc.past32 addr))
          else loc.sHistogram
        strideAccess := if 32 ≤ loc.past32.length ∧ minStride loc.past32 addr ≠ 0 then
            loc.strideAccess + 1
          else loc.strideAccess
        past32 := (if 32 ≤ loc.past32.length then loc.past32.tail else loc.past32) ++ [addr] } := by
  rw [account, spatial, reuse]
  by_cases full : 32 ≤ loc.past32.length
  · by_cases stride : minStride loc.past32 addr = 0 <;>
      cases loc.lastAccess addr <;> simp [full, stride]
  · cases loc.lastAccess addr <;> simp [full]

/-! ## The nearest of the past accesses -/

variable {value item : Nat} {past : List Nat} {requests : List Request} {req : Request}

theorem toLong_eq (small : value < 2 ^ 62) : toLong value = value := by
  apply Int.bmod_eq_of_le <;> omega

theorem distance_eq (small : item < 2 ^ 62) (small' : value < 2 ^ 62) :
    (toLong item - toLong value).natAbs = Nat.dist item value := by
  rw [toLong_eq small, toLong_eq small', Nat.dist]
  omega

theorem isLeast_foldl_min (values : List Nat) (bound : Nat) :
    IsLeast (insert bound { x | x ∈ values }) (values.foldl min bound) := by
  induction values generalizing bound with
  | nil => simp
  | cons value values ih =>
    have least := ih (min bound value)
    rw [foldl_cons]
    refine ⟨?_, ?_⟩
    · rcases least.1 with start | mem
      · rw [start]
        rcases le_total bound value with le | le
        · exact .inl (min_eq_left le)
        · exact .inr (by simp [min_eq_right le])
      · exact .inr (mem_cons_of_mem _ mem)
    · have start : values.foldl min (min bound value) ≤ min bound value := least.2 (.inl rfl)
      rintro x (isBound | mem)
      · exact start.trans (isBound ▸ min_le_left _ _)
      · rcases mem_cons.mp mem with rfl | later
        · exact start.trans (min_le_right _ _)
        · exact least.2 (.inr later)

theorem minStride_eq (small : ∀ item ∈ past, item < 2 ^ 62) (small' : addr < 2 ^ 62) :
    minStride past addr = (past.map fun item => Nat.dist item addr).foldl min (2 ^ 20) := by
  rw [foldl_map]
  apply foldl_ext
  intro stride item mem
  dsimp only
  rw [distance_eq (small item mem) small', Nat.min_def]
  split <;> split <;> omega

/-- The loop over the past accesses finds the least of the distances. -/
theorem minStride_isLeast (small : ∀ item ∈ past, item < 2 ^ 62) (small' : addr < 2 ^ 62) :
    IsLeast (insert (2 ^ 20) { x | ∃ item ∈ past, x = Nat.dist item addr })
      (minStride past addr) := by
  have least := isLeast_foldl_min (past.map fun item => Nat.dist item addr) (2 ^ 20)
  rw [minStride_eq small small']
  simpa only [mem_map, eq_comm] using least

/-! ## The loop -/

/-- The accesses before `n` that are past accesses of `n`. -/
def window (keys : List Nat) (n : Nat) : List Nat := (keys.take n).drop (n - 32)

theorem length_window (mem : n ≤ keys.length) : (window keys n).length = min n 32 := by
  simp only [window, length_drop, length_take]
  omega

theorem mem_window : item ∈ window keys n ↔
      ∃ d, 0 < d ∧ d ≤ 32 ∧ d ≤ n ∧ keys[n - d]? = some item := by
  simp only [window, mem_iff_getElem?, getElem?_drop]
  constructor
  · rintro ⟨i, found⟩
    have before : n - 32 + i < n := by
      have bound := (List.getElem?_eq_some_iff.mp found).choose
      rw [length_take] at bound
      omega
    rw [getElem?_take_of_lt before] at found
    refine ⟨n - (n - 32 + i), by omega, by omega, by omega, ?_⟩
    rwa [Nat.sub_sub_self before.le]
  · rintro ⟨d, pos, le, leN, found⟩
    refine ⟨n - d - (n - 32), ?_⟩
    have same : n - 32 + (n - d - (n - 32)) = n - d := by omega
    rwa [same, getElem?_take_of_lt (by omega)]

theorem distances_eq (past : 32 ≤ n) (now : keys[n]? = some addr) : distances keys n =
      { x | ∃ item ∈ window keys n, x = Nat.dist item addr } := by
  ext x
  simp only [distances, mem_window, now]
  constructor
  · rintro ⟨d, a, b, pos, le, found, isNow, isDistance⟩
    rw [Option.some.inj isNow]
    exact ⟨a, ⟨d, pos, le, by omega, found⟩, isDistance⟩
  · rintro ⟨item, ⟨d, pos, le, -, found⟩, isDistance⟩
    exact ⟨d, item, addr, pos, le, found, rfl, isDistance⟩

/-- The latest access of a unit before `n`, counted from one. -/
structure Latest (keys : List Nat) (n addr last : Nat) : Prop where
  pos : 0 < last
  le : last ≤ n
  found : keys[last - 1]? = some addr
  latest : ∀ j, last ≤ j → j < n → keys[j]? ≠ some addr

/-- The monitor after `n` accesses. -/
structure Accounts (keys : List Nat) (n : Nat) (loc : Locality) : Prop where
  addrId : loc.addrId = n
  memAccesses : loc.memAccesses = n
  lastAccess : ∀ addr last, loc.lastAccess addr = some last ↔ Latest keys n addr last
  past32 : loc.past32 = window keys n
  tHistogram : Tallies slot 21 (Reused keys) n loc.tHistogram
  sHistogram : Tallies slot 21 (Strided keys) n loc.sHistogram
  strideAccess : loc.strideAccess = total 21 (Strided keys) n

theorem Latest.isReuse {last : Nat} (latest : Latest keys n addr last)
    (now : keys[n]? = some addr) : IsReuse keys n (n + 1 - last) := by
  have pos := latest.pos
  have le := latest.le
  refine ⟨by omega, by omega, ?_, ?_⟩
  · have same : n - (n + 1 - last) = last - 1 := by omega
    rw [same, latest.found, now]
  · intro e epos lt
    rw [now]
    exact latest.latest (n - e) (by omega) (by omega)

variable {d : Nat} {reqs : List Request}

theorem IsReuse.unique {d' : Nat} (first : IsReuse keys n d)
    (second : IsReuse keys n d') : d = d' := by
  rcases lt_trichotomy d d' with lt | same | gt
  · exact absurd first.same (second.latest d first.pos lt)
  · exact same
  · exact absurd second.same (first.latest d' second.pos gt)

theorem reused_iff (isReuse : IsReuse keys n d) (k : Nat) :
    Reused keys k n ↔ k = Nat.clog 2 (min d (2 ^ 20)) := by
  constructor
  · rintro ⟨other, isOther, rfl⟩
    rw [isOther.unique isReuse]
  · rintro rfl
    exact ⟨d, isReuse, rfl⟩

theorem strided_iff {m : Nat} (past : 32 ≤ n)
    (least : IsLeast (insert (2 ^ 20) (distances keys n)) m) (k : Nat) :
    Strided keys k n ↔ m ≠ 0 ∧ k = Nat.clog 2 m := by
  constructor
  · rintro ⟨-, other, isOther, nonzero, rfl⟩
    rw [least.unique isOther]
    exact ⟨nonzero, rfl⟩
  · rintro ⟨nonzero, rfl⟩
    exact ⟨past, m, least, nonzero, rfl⟩

section

variable (accounts : Accounts keys n loc)
include accounts

theorem Accounts.reuse (now : keys[n]? = some addr) :
    Tallies slot 21 (Reused keys) (n + 1) (loc.account addr).tHistogram := by
  rw [account_eq]
  cases found : loc.lastAccess addr with
  | some last =>
    have isReuse := ((accounts.lastAccess addr last).mp found).isReuse now
    rw [accounts.addrId]
    exact accounts.tHistogram.hit slot_injective (clog_lt (min_le_right _ _)) (reused_iff isReuse)
  | none =>
    apply accounts.tHistogram.miss
    rintro k ⟨d, isReuse, -⟩
    have pos := isReuse.pos
    have le := isReuse.le
    have latest : Latest keys n addr (n - d + 1) := by
      refine ⟨by omega, by omega, ?_, ?_⟩
      · rw [Nat.add_sub_cancel, isReuse.same, now]
      · intro j after before
        have apart := isReuse.latest (n - j) (by omega) (by omega)
        rwa [Nat.sub_sub_self before.le, now] at apart
    rw [(accounts.lastAccess addr _).mpr latest] at found
    exact absurd found (Option.some_ne_none _)

/-- The stride of the next access. -/
theorem Accounts.isLeast (small : ∀ key ∈ keys, key < 2 ^ 62)
    (now : keys[n]? = some addr) (past : 32 ≤ n) :
    IsLeast (insert (2 ^ 20) (distances keys n)) (minStride loc.past32 addr) := by
  rw [distances_eq past now, accounts.past32]
  apply minStride_isLeast
  · intro item mem
    obtain ⟨d, -, -, -, found⟩ := mem_window.mp mem
    exact small item (mem_of_getElem? found)
  · exact small addr (mem_of_getElem? now)

theorem Accounts.full (mem : n < keys.length) : 32 ≤ loc.past32.length ↔ 32 ≤ n := by
  rw [accounts.past32, length_window mem.le]
  omega

theorem Accounts.spatial (small : ∀ key ∈ keys, key < 2 ^ 62) (now : keys[n]? = some addr) :
    Tallies slot 21 (Strided keys) (n + 1) (loc.account addr).sHistogram ∧
      (loc.account addr).strideAccess = total 21 (Strided keys) (n + 1) := by
  have mem : n < keys.length := (List.getElem?_eq_some_iff.mp now).choose
  simp only [account_eq, accounts.full mem]
  split
  · next counted =>
    have least := accounts.isLeast small now counted.1
    have le : minStride loc.past32 addr ≤ 2 ^ 20 := least.2 (.inl rfl)
    have only (k : Nat) : Strided keys k n ↔ k = Nat.clog 2 (minStride loc.past32 addr) := by
      rw [strided_iff counted.1 least, and_iff_right counted.2]
    exact ⟨accounts.sHistogram.hit slot_injective (clog_lt le) only, by
      rw [total_hit (clog_lt le) only, accounts.strideAccess]⟩
  · next skipped =>
    have nowhere (k : Nat) : ¬ Strided keys k n := by
      intro strided
      have least := accounts.isLeast small now strided.1
      exact skipped ⟨strided.1, ((strided_iff strided.1 least k).mp strided).1⟩
    exact ⟨accounts.sHistogram.miss nowhere, by
      rw [total_miss nowhere, accounts.strideAccess]⟩

theorem Accounts.window_succ (now : keys[n]? = some addr) :
    (loc.account addr).past32 = window keys (n + 1) := by
  have mem : n < keys.length := (List.getElem?_eq_some_iff.mp now).choose
  have length : (keys.take n).length = n := by
    rw [length_take]
    omega
  simp only [account_eq, accounts.full mem]
  rw [accounts.past32, window, window, take_add_one, now, Option.toList_some]
  split
  · next past =>
    rw [tail_drop, drop_append_of_le_length (by omega)]
    congr 2
    omega
  · next few =>
    rw [drop_append_of_le_length (by omega)]
    congr 2
    omega

theorem Accounts.latest_succ (now : keys[n]? = some addr) (other last : Nat) :
    (loc.account addr).lastAccess other = some last ↔ Latest keys (n + 1) other last := by
  simp only [account_eq, accounts.addrId]
  by_cases same : other = addr
  · subst same
    rw [update_self, Option.some.injEq]
    constructor
    · rintro rfl
      exact ⟨by omega, by omega, now, by omega⟩
    · intro latest
      by_contra apart
      have le := latest.le
      exact latest.latest n (by omega) (by omega) now
  · rw [update_of_ne same, accounts.lastAccess]
    constructor
    · intro latest
      refine ⟨latest.pos, Nat.le_succ_of_le latest.le, latest.found, ?_⟩
      intro j after before
      by_cases isNow : j = n
      · rw [isNow, now]
        simpa using Ne.symm same
      · exact latest.latest j after (by omega)
    · intro latest
      have le := latest.le
      have apart : last ≠ n + 1 := by
        rintro rfl
        have found := latest.found
        rw [Nat.add_sub_cancel, now] at found
        exact same (Option.some.inj found).symm
      exact ⟨latest.pos, by omega, latest.found, fun j after before =>
        latest.latest j after (by omega)⟩

theorem Accounts.step (small : ∀ key ∈ keys, key < 2 ^ 62) (now : keys[n]? = some addr) :
    Accounts keys (n + 1) (loc.account addr) where
  addrId := by rw [account_eq, accounts.addrId]
  memAccesses := by rw [account_eq, accounts.memAccesses]
  lastAccess := accounts.latest_succ now
  past32 := accounts.window_succ now
  tHistogram := accounts.reuse now
  sHistogram := (accounts.spatial small now).1
  strideAccess := (accounts.spatial small now).2

end

section

variable (requests : List Request)

theorem accounts_start (counter : Nat) : Accounts keys 0
      { initial with requests := requests, counter := counter } where
  addrId := rfl
  memAccesses := rfl
  lastAccess := by
    intro addr last
    refine ⟨nofun, fun latest => ?_⟩
    have pos := latest.pos
    have le := latest.le
    omega
  past32 := by simp [initial, window]
  tHistogram := tallies_zeros
  sHistogram := tallies_zeros
  strideAccess := total_zero.symm

/-- The monitor after all accesses. -/
theorem Accounts.all (start : Accounts keys 0 loc) (small : ∀ key ∈ keys, key < 2 ^ 62) :
    Accounts keys keys.length (keys.foldl account loc) := by
  have upTo (n : Nat) (le : n ≤ keys.length) :
      Accounts keys n ((keys.take n).foldl account loc) := by
    induction n with
    | zero => exact start
    | succ n ih =>
      have now : keys[n]? = some keys[n] := getElem?_eq_getElem le
      rw [take_add_one, now, foldl_append]
      exact (ih (le_of_lt le)).step small now
  have all := upTo keys.length le_rfl
  rwa [take_length] at all

/-! ## The reuses and the distinct units -/

theorem exists_isReuse (now : keys[n]? = some addr)
    (before : addr ∈ keys.take n) : ∃ d, IsReuse keys n d := by
  obtain ⟨i, found⟩ := mem_iff_getElem?.mp before
  have lt : i < n := by
    have bound := (List.getElem?_eq_some_iff.mp found).choose
    rw [length_take] at bound
    omega
  rw [getElem?_take_of_lt lt] at found
  have reused : ∃ d, 0 < d ∧ keys[n - d]? = keys[n]? := by
    refine ⟨n - i, by omega, ?_⟩
    rw [Nat.sub_sub_self lt.le, found, now]
  have le : Nat.find reused ≤ n := by
    apply le_trans (Nat.find_min' reused (m := n - i) ⟨by omega, ?_⟩)
    · omega
    · rw [Nat.sub_sub_self lt.le, found, now]
  refine ⟨Nat.find reused, (Nat.find_spec reused).1, le, (Nat.find_spec reused).2, ?_⟩
  intro e pos lt same
  exact Nat.find_min reused lt ⟨pos, same⟩

theorem IsReuse.mem_take (isReuse : IsReuse keys n d)
    (now : keys[n]? = some addr) : addr ∈ keys.take n := by
  have pos := isReuse.pos
  have le := isReuse.le
  apply mem_of_getElem? (i := n - d)
  rw [getElem?_take_of_lt (by omega), isReuse.same, now]

/-- Each access is a reuse or the first one of its unit. -/
theorem total_reused (le : n ≤ keys.length) :
    total 21 (Reused keys) n + (keys.take n).toFinset.card = n := by
  induction n with
  | zero => simp [total_zero]
  | succ n ih =>
    have now : keys[n]? = some keys[n] := getElem?_eq_getElem le
    have units : (keys.take (n + 1)).toFinset = insert keys[n] (keys.take n).toFinset := by
      rw [take_add_one, now, toFinset_append]
      simp
    rw [units]
    by_cases seen : keys[n] ∈ keys.take n
    · obtain ⟨d, isReuse⟩ := exists_isReuse now seen
      rw [total_hit (clog_lt (min_le_right _ _)) (reused_iff isReuse),
        Finset.insert_eq_of_mem (mem_toFinset.mpr seen)]
      omega
    have nowhere (k : Nat) : ¬ Reused keys k n := by
      rintro ⟨d, isReuse, -⟩
      exact seen (isReuse.mem_take now)
    rw [total_miss nowhere, Finset.card_insert_of_notMem (mt mem_toFinset.mp seen)]
    omega

/-! ## The accesses that are kept -/

/-- How often each address was pushed. -/
def pushed (addr : Int) : Option Nat :=
  let count := (requests.map fun req => toLong req.address).count addr
  if count = 0 then none else some count

theorem pushed_append (reqs : List Request) (req : Request) :
    pushed (reqs ++ [req]) = bump (pushed reqs) (toLong req.address) := by
  ext1 addr
  by_cases same : addr = toLong req.address
  · rw [same, bump, update_self]
    generalize counted : (reqs.map fun req => toLong req.address).count (toLong req.address) = count
    have more : ((reqs ++ [req]).map fun req => toLong req.address).count
        (toLong req.address) = count + 1 := by simp [counted]
    simp only [pushed, more, counted]
    cases count <;> simp
  · rw [bump, update_of_ne same]
    have apart : toLong req.address ≠ addr := Ne.symm same
    simp [pushed, apart]

/-- The monitor that holds these accesses. -/
def holding : Locality :=
  { initial with
    verifyToRemoveAddress := pushed requests
    requests := requests
    counter := requests.length }

end

theorem pushAll_eq (few : requests.length ≤ maxInstructions) :
    pushAll requests = holding requests := by
  induction requests using reverseRecOn with
  | nil => rfl
  | append_singleton requests req ih =>
    rw [length_append, length_singleton] at few
    have room : ¬ maxInstructions ≤ (holding requests).counter := by
      simp only [holding]
      omega
    rw [pushAll, foldl_append, ← pushAll, ih (by omega),
      foldl_cons, foldl_nil, pushAddress, if_neg room]
    simp only [holding, pushed_append, length_append, length_singleton]

section

variable (small : ∀ req ∈ reqs, req.address < 2 ^ 62)
include small

/-- Addresses below `2 ^ 62` are told apart by their signed values. -/
theorem count_toLong (mem : req ∈ reqs) :
    (reqs.map fun req => toLong req.address).count (toLong req.address) =
      (reqs.map Request.address).count req.address := by
  have signed : (reqs.map fun req => toLong req.address) =
      (reqs.map Request.address).map Int.ofNat := by
    rw [map_map]
    exact map_congr_left fun other isOther => toLong_eq (small other isOther)
  rw [signed, toLong_eq (small req mem)]
  exact count_map_of_injective _ _ Int.ofNat_injective _

theorem removed_iff (mem : req ∈ reqs) : toRemove (pushed reqs) (toLong req.address) = true ↔
      2 ^ 20 < (reqs.map Request.address).count req.address := by
  have occurs : (reqs.map Request.address).count req.address ≠ 0 := by
    rw [Ne, count_eq_zero]
    exact fun absent => absent (mem_map_of_mem mem)
  rw [toRemove, pushed, count_toLong small mem, if_neg occurs, decide_eq_true_iff,
    ← not_lt, Nat.lt_succ_iff, Nat.clog_le_iff_le_pow (by decide),
    not_le]

omit small in
/-- The loop accounts for the units of the accesses that are kept. -/
theorem calculateLocality_eq (few : requests.length ≤ maxInstructions)
    (small : ∀ req ∈ requests, req.address < 2 ^ 62) :
    (pushAll requests).calculateLocality = ((kept requests).map Request.unit).foldl account
        { initial with
          requests := requests
          counter := requests.length } := by
  rw [pushAll_eq few, foldl_map, kept, foldl_filter]
  simp only [holding]
  apply foldl_ext
  intro loc req mem
  simp only [visit, removed_iff small mem]
  split <;> simp_all

theorem unit_small : ∀ key ∈ (kept reqs).map Request.unit, key < 2 ^ 62 := by
  intro key mem
  obtain ⟨req, isKept, rfl⟩ := mem_map.mp mem
  have bound := small req (mem_filter.mp isKept).1
  rw [Request.unit, Nat.shiftRight_eq_div_pow]
  exact (Nat.div_le_self _ _).trans_lt bound

end

/-- The histograms count the reuses and the strides of the accesses that are
kept, and they have no bucket beyond the first 21 powers of two. -/
theorem calculateLocality_histograms (requests : List Request)
    (few : requests.length ≤ maxInstructions) (small : ∀ req ∈ requests, req.address < 2 ^ 62) :
    let keys := (kept requests).map Request.unit
    let loc := (pushAll requests).calculateLocality
    (∀ k ≤ 20, loc.tHistogram (2 ^ k) = some (Nat.count (Reused keys k) keys.length)) ∧
    (∀ k ≤ 20, loc.sHistogram (2 ^ k) = some (Nat.count (Strided keys k) keys.length)) ∧
    ∑ k ∈ Finset.range 21, (loc.sHistogram (2 ^ k)).getD 0 = loc.strideAccess ∧
    ∑ k ∈ Finset.range 21, (loc.tHistogram (2 ^ k)).getD 0 + keys.toFinset.card = loc.memAccesses ∧
    ∀ key, (∀ k ≤ 20, key ≠ 2 ^ k) → loc.tHistogram key = none ∧ loc.sHistogram key = none := by
  intro keys loc
  have accounts : Accounts keys keys.length loc := by
    have all := (accounts_start requests requests.length).all (unit_small small)
    rwa [← calculateLocality_eq few small] at all
  refine ⟨fun k le => accounts.tHistogram.counted k (by omega),
    fun k le => accounts.sHistogram.counted k (by omega), ?_, ?_, ?_⟩
  · rw [accounts.strideAccess]
    exact accounts.sHistogram.sum
  · have all := total_reused (le_refl keys.length)
    rw [take_length] at all
    rw [accounts.memAccesses, ← all]
    exact congrArg (· + keys.toFinset.card) accounts.tHistogram.sum
  · intro key apart
    exact ⟨accounts.tHistogram.others key fun k inside => apart k (by omega),
      accounts.sHistogram.others key fun k inside => apart k (by omega)⟩

/-- Two accesses to one word. -/
def pair : List Request := [⟨64, 8⟩, ⟨68, 8⟩]

theorem calculateLocality_histograms_pair :
    pair.length ≤ maxInstructions ∧ (∀ req ∈ pair, req.address < 2 ^ 62) ∧
      Nat.count (Reused [8, 8] 0) 2 = 1 := by
  have few : pair.length ≤ maxInstructions := by decide
  have small : ∀ req ∈ pair, req.address < 2 ^ 62 := by decide
  have counted := (calculateLocality_histograms pair few small).1 0 (by decide)
  exact ⟨few, small, (Option.some.inj counted).symm⟩

open List

/-- The byte is in the aligned block of the access. -/
def Request.Touches (req : Request) (byte : Nat) : Prop :=
  req.address / req.size * req.size ≤ byte ∧ byte < req.address / req.size * req.size + req.size

def Request.Overlaps (req other : Request) : Prop := ∃ byte, req.Touches byte ∧ other.Touches byte

/-- The loop passes over the access. -/
def dropped (requests : List Request) (req : Request) : Bool :=
  toRemove (pushAll requests).verifyToRemoveAddress (toLong req.address)

/-- The monitor when the loop has gone through some of the accesses. -/
def visited (requests before : List Request) : Locality :=
  before.foldl (visit (toRemove (pushAll requests).verifyToRemoveAddress))
    { pushAll requests with verifyToRemoveAddress := fun _ => none }

/-- The access at this point of the loop goes into the histogram of reuses. -/
def CountsReuse (requests before : List Request) (req : Request) : Prop :=
  (visited requests (before ++ [req])).tHistogram ≠ (visited requests before).tHistogram

variable {requests before : List Request} {req other : Request}

theorem pushAll_lastAccess (requests : List Request) (addr : Nat) :
    (pushAll requests).lastAccess addr = none := by
  induction requests using reverseRecOn with
  | nil => rfl
  | append_singleton requests req ih =>
    rw [pushAll, foldl_append, foldl_cons, pushAddress]
    split
    · exact ih
    · exact ih

theorem mem_of_pushAll (mem : req ∈ (pushAll requests).requests) : req ∈ requests := by
  induction requests using reverseRecOn with
  | nil => exact mem
  | append_singleton requests last ih =>
    rw [pushAll, foldl_append, foldl_cons, pushAddress] at mem
    split at mem
    · exact mem_append_left _ (ih mem)
    · rcases mem_append.mp mem with earlier | isLast
      · exact mem_append_left _ (ih earlier)
      · exact mem_append_right _ isLast

theorem visited_append :
    visited requests (before ++ [req]) = if dropped requests req then visited requests before
      else (visited requests before).account req.unit := by
  rw [visited, foldl_append]
  rfl

/-- The units with a last access are those that were accessed. -/
theorem lastAccess_isSome_iff {addr : Nat} : ((visited requests before).lastAccess addr).isSome ↔
    ∃ earlier ∈ before, dropped requests earlier = false ∧ earlier.unit = addr := by
  induction before using reverseRecOn with
  | nil => simp [visited, pushAll_lastAccess]
  | append_singleton before last ih =>
    rw [visited_append]
    cases isDropped : dropped requests last with
    | true => simp [ih, isDropped]
    | false =>
      simp only [account_eq, Bool.false_eq_true, if_false, update_apply]
      by_cases same : addr = last.unit
      · simp [same, isDropped]
      · simp [same, ih, Ne.symm same]

/-- Only the reuse of a unit is counted. -/
theorem countsReuse_iff : CountsReuse requests before req ↔ dropped requests req = false ∧
    ∃ earlier ∈ before, dropped requests earlier = false ∧ earlier.unit = req.unit := by
  rw [CountsReuse, visited_append, ← lastAccess_isSome_iff]
  cases dropped requests req with
  | true => simp
  | false =>
    simp only [account_eq, Bool.false_eq_true, if_false, true_and]
    cases (visited requests before).lastAccess req.unit with
    | none => simp
    | some last => simpa using bump_ne _ _

/-- The blocks of one unit meet if they have one size or start at 0, others if one
lies inside the other. -/
def Request.Meets (req other : Request) : Prop :=
  if req.unit = other.unit then req.size = other.size ∨ req.unit = 0
  else req.address / max req.size other.size = other.address / max req.size other.size

theorem Request.touches_iff {byte : Nat} (pos : 0 < req.size) :
    req.Touches byte ↔ byte / req.size = req.address / req.size := by
  rw [Touches, Nat.div_eq_iff pos]
  omega

/-- A block lies inside a larger one or does not meet it. -/
theorem Request.overlaps_iff {u : Nat} (pos : 0 < req.size) (larger : other.size = req.size * u)
    (more : 0 < u) :
    req.Overlaps other ↔ req.address / other.size = other.address / other.size := by
  simp only [Overlaps, touches_iff pos, touches_iff (larger ▸ Nat.mul_pos pos more), larger,
    ← Nat.div_div_eq_div_mul]
  constructor
  · rintro ⟨byte, first, second⟩
    rw [← first, second]
  · intro same
    refine ⟨req.address, rfl, same⟩

theorem Request.unit_eq {k : Nat} (isSize : req.size = 2 ^ k) :
    req.unit = req.address / req.size := by
  rw [unit, isSize, Nat.log2_two_pow, Nat.shiftRight_eq_div_pow]

theorem Request.overlaps_iff_meets {k l : Nat} (isSize : req.size = 2 ^ k)
    (otherSize : other.size = 2 ^ l) : req.Overlaps other ↔ req.Meets other := by
  wlog le : k ≤ l generalizing req other k l with swapped
  · have symm : req.Overlaps other ↔ other.Overlaps req := by simp only [Overlaps, and_comm]
    rw [symm, swapped otherSize isSize (by omega), Meets, Meets, max_comm]
    by_cases same : req.unit = other.unit
    · simp [same, eq_comm]
    · simp [same, Ne.symm same, eq_comm]
  have pos : 0 < req.size := isSize ▸ Nat.two_pow_pos k
  have larger : other.size = req.size * 2 ^ (l - k) := by
    rw [isSize, otherSize, ← pow_add, Nat.add_sub_cancel' le]
  rw [overlaps_iff pos larger (Nat.two_pow_pos _), Meets,
    Nat.max_eq_right (isSize ▸ otherSize ▸ Nat.pow_le_pow_right Nat.two_pos le)]
  split
  case isTrue same =>
    -- the unit of the larger block is that of the smaller one, in larger units
    rw [← unit_eq otherSize, ← same, larger, ← Nat.div_div_eq_div_mul, ← unit_eq isSize,
      Nat.div_eq_self, or_comm, eq_comm (a := req.size), Nat.mul_eq_left pos.ne']
  case isFalse => rfl

/-- A reuse is counted only for memory that was touched before if and only if every
access of a unit that was accessed before meets an earlier block. -/
theorem countsReuse_overlaps_iff (requests : List Request)
    (power : ∀ req ∈ requests, ∃ k, req.size = 2 ^ k) :
    (∀ before req after, (pushAll requests).requests = before ++ req :: after →
      CountsReuse requests before req →
        ∃ earlier ∈ before, dropped requests earlier = false ∧ earlier.Overlaps req) ↔
      ∀ before req after, (pushAll requests).requests = before ++ req :: after →
        dropped requests req = false →
        (∃ earlier ∈ before, dropped requests earlier = false ∧ earlier.unit = req.unit) →
          ∃ earlier ∈ before, dropped requests earlier = false ∧ earlier.Meets req := by
  have isPower {req : Request} (mem : req ∈ (pushAll requests).requests) :=
    power req (mem_of_pushAll mem)
  refine forall₄_congr fun before req after order => ?_
  rw [countsReuse_iff, and_imp]
  refine forall₂_congr fun _ _ => exists_congr fun earlier => and_congr_right fun mem => ?_
  obtain ⟨k, isSize⟩ := isPower (order ▸ mem_append_left _ mem)
  obtain ⟨l, otherSize⟩ : ∃ l, req.size = 2 ^ l := isPower (by simp [order])
  rw [Request.overlaps_iff_meets isSize otherSize]

theorem countsReuse_overlaps_iff_pair : CountsReuse pair [⟨64, 8⟩] ⟨68, 8⟩ ∧
    ∃ earlier ∈ [⟨64, 8⟩], dropped pair earlier = false ∧ earlier.Overlaps ⟨68, 8⟩ := by
  have counted : CountsReuse pair [⟨64, 8⟩] ⟨68, 8⟩ :=
    countsReuse_iff.mpr ⟨by decide +kernel, ⟨64, 8⟩, by decide +kernel⟩
  refine ⟨counted, (countsReuse_overlaps_iff pair fun req mem => ⟨3, ?_⟩).mpr ?_ _ _ []
    (by decide +kernel) counted⟩
  · revert req
    decide
  · rintro before req after order - ⟨earlier, mem, isKept, same⟩
    have size : ∀ req ∈ (pushAll pair).requests, req.size = 8 := by decide +kernel
    rw [order] at size
    exact ⟨earlier, mem, isKept, by simp [Request.Meets, same, size, mem]⟩

/-- An access to one byte and an access to two bytes of the same unit. -/
def mixed : List Request := [⟨64, 1⟩, ⟨128, 2⟩]

/-- The second access counts as a reuse of the first one. -/
theorem mixed_sizes_counted : (pushAll mixed).requests = [⟨64, 1⟩, ⟨128, 2⟩] ∧
      CountsReuse mixed [⟨64, 1⟩] ⟨128, 2⟩ ∧
      ¬ ∃ earlier ∈ [⟨64, 1⟩], Request.Overlaps earlier ⟨128, 2⟩ := by
  refine ⟨by decide +kernel, ?_, ?_⟩
  · exact countsReuse_iff.mpr ⟨by decide +kernel, ⟨64, 1⟩, by decide +kernel⟩
  · rintro ⟨earlier, inside, byte, first, second⟩
    rw [mem_singleton.mp inside] at first
    simp only [Request.Touches] at first second
    omega

end Locality

end Damov.Analysis
