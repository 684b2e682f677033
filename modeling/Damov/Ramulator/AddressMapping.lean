import Damov.Library.BitFields
import Mathlib.Algebra.BigOperators.Ring.List
import Mathlib.Algebra.Group.Nat.Defs
import Mathlib.Data.Nat.Bits

/-!
# Slicing an address

`Memory<HMC>::send` cuts an address into vault, bank group, bank, row and column
by taking bits from its low end. The order of the slices is the addressing
type; the column is cut twice, once below the vault bits and once above. Whatever
the order, the slices leave no gap in the address of a transaction, and the sizes
of the levels make up the capacity.

In `Memory::send` with the mapping `RoBaRaCoCh`, for an arbitrary standard, the
counts need not be powers of two, but the fields are: an address above the largest
fields shares its vector with a lower one.
-/

namespace Damov.Ramulator

/-- The levels of the memory, from the vault down to the column. -/
inductive Level where
  | Vault
  | BankGroup
  | Bank
  | Row
  | Column
  deriving DecidableEq

namespace Level

/-- The position of a level in an address vector. -/
def index : Level → Nat
  | Vault => 0
  | BankGroup => 1
  | Bank => 2
  | Row => 3
  | Column => 4

end Level

inductive Addressing where
  | RoCoBaVa
  | RoBaCoVa
  | RoCoBaBgVa
  deriving DecidableEq

/-- How many nodes of each level the node above it has. -/
structure Organization where
  count : Level → Nat
  count_pos : ∀ level, 0 < count level

namespace Organization

def prefetchSize : Nat := 8

def channelWidth : Nat := 32

/-- One transaction has `2 ^ txBits` bytes. -/
def txBits : Nat := (prefetchSize * channelWidth / 8).log2

variable (org : Organization)

def addrBits (level : Level) : Nat :=
  match level with
  | .Column => (org.count .Column).log2 - prefetchSize.log2
  | level => (org.count level).log2

def capacityPerStack : Nat := channelWidth / 8 * org.count .Vault * org.count .BankGroup *
    org.count .Bank * org.count .Row * org.count .Column

/-- Cut the lowest bits off the address. -/
def sliceLowerBits (bits : Nat) : StateM Nat Nat :=
  fun addr => (addr &&& (2 ^ bits - 1), addr >>> bits)

variable (flitNumBits : Nat)

/-- The column bits that stay below the vault bits. -/
def maxBlockColBits : Nat := flitNumBits - txBits

/-- The address vector, with the address already cut to transactions. -/
def sliceAddress : Addressing → StateM Nat (List Nat)
  | .RoCoBaVa => do
      let columnLow ← sliceLowerBits (maxBlockColBits flitNumBits)
      let vault ← sliceLowerBits (org.addrBits .Vault)
      let bank ← sliceLowerBits (org.addrBits .Bank)
      let bankGroup ← sliceLowerBits (org.addrBits .BankGroup)
      let columnMSB ← sliceLowerBits (org.addrBits .Column - maxBlockColBits flitNumBits)
      let row ← sliceLowerBits (org.addrBits .Row)
      return [vault, bankGroup, bank, row,
        columnLow ||| (columnMSB <<< maxBlockColBits flitNumBits)]
  | .RoBaCoVa => do
      let columnLow ← sliceLowerBits (maxBlockColBits flitNumBits)
      let vault ← sliceLowerBits (org.addrBits .Vault)
      let columnMSB ← sliceLowerBits (org.addrBits .Column - maxBlockColBits flitNumBits)
      let bank ← sliceLowerBits (org.addrBits .Bank)
      let bankGroup ← sliceLowerBits (org.addrBits .BankGroup)
      let row ← sliceLowerBits (org.addrBits .Row)
      return [vault, bankGroup, bank, row,
        columnLow ||| (columnMSB <<< maxBlockColBits flitNumBits)]
  | .RoCoBaBgVa => do
      let columnLow ← sliceLowerBits (maxBlockColBits flitNumBits)
      let vault ← sliceLowerBits (org.addrBits .Vault)
      let bankGroup ← sliceLowerBits (org.addrBits .BankGroup)
      let bank ← sliceLowerBits (org.addrBits .Bank)
      let columnMSB ← sliceLowerBits (org.addrBits .Column - maxBlockColBits flitNumBits)
      let row ← sliceLowerBits (org.addrBits .Row)
      return [vault, bankGroup, bank, row,
        columnLow ||| (columnMSB <<< maxBlockColBits flitNumBits)]

/-- The address vector of an address of the stack. -/
def addrVec (addressing : Addressing) (addr : Nat) : List Int :=
  (sliceAddress org flitNumBits addressing (addr >>> txBits)).1.map Int.ofNat

/-- Every address belongs to one of the vaults. -/
theorem addrVec_vault (addressing : Addressing) (addr : Nat) : ∃ vault < org.count .Vault,
      (org.addrVec flitNumBits addressing addr).getD Level.Vault.index (-1) =
        vault := by
  have sliced (rest : Nat) : rest &&& (2 ^ org.addrBits .Vault - 1) < org.count .Vault := by
    rw [Nat.and_two_pow_sub_one_eq_mod]
    apply lt_of_lt_of_le (Nat.mod_lt _ (Nat.two_pow_pos _))
    exact Nat.log2_self_le (ne_of_gt (org.count_pos .Vault))
  cases addressing <;> exact ⟨_, sliced _, rfl⟩

open Library.BitFields List

def vectorOf (id : Level → Nat) : List Int :=
  [Level.Vault, .BankGroup, .Bank, .Row, .Column].map fun level => id level

/-- The slices from the lowest to the highest, with the two of the column. -/
def ordered (low high : Nat) (id : Level → Nat) : Addressing → List Nat
  | .RoCoBaVa => [low, id .Vault, id .Bank, id .BankGroup, high, id .Row]
  | .RoBaCoVa => [low, id .Vault, high, id .Bank, id .BankGroup, id .Row]
  | .RoCoBaBgVa => [low, id .Vault, id .BankGroup, id .Bank, high, id .Row]

def slices (bits : Nat) (id : Level → Nat) : Addressing → List Nat :=
  ordered (id .Column % 2 ^ bits) (id .Column / 2 ^ bits) id

section

variable (org : Organization) (bits flitNumBits : Nat) (addressing : Addressing)

def widths : List Nat := ordered bits (org.addrBits .Column - bits) org.addrBits addressing

/-- The nodes of a level that an address vector can name. -/
def size : Level → Nat
  | .Column => org.count .Column / prefetchSize
  | level => org.count level

/-- The vectors are those of the organisation. Two addresses have the same one if
and only if they are in one transaction, every vector is that of an address, and
the block of an address determines its vault. -/
structure Bijective (addrVec : Nat → List Int) : Prop where
  inside : ∀ addr, ∃ id, (∀ level, id level < org.size level) ∧ addrVec addr = vectorOf id
  injective : ∀ a < org.capacityPerStack, ∀ b < org.capacityPerStack,
    addrVec a = addrVec b ↔ a >>> txBits = b >>> txBits
  surjective : ∀ id, (∀ level, id level < org.size level) →
    ∃ addr < org.capacityPerStack, addrVec addr = vectorOf id
  vault : ∀ a b, a >>> flitNumBits = b >>> flitNumBits →
    (addrVec a)[Level.Vault.index]? = (addrVec b)[Level.Vault.index]?

/-- The address vector determines the slices. -/
theorem addrVec_eq (addr : Nat) : ∃ id, org.addrVec flitNumBits addressing addr = vectorOf id ∧
    cut (org.widths (maxBlockColBits flitNumBits) addressing) (addr >>> txBits) =
      slices (maxBlockColBits flitNumBits) id addressing := by
  have column (rest bits high : Nat) :
      (rest &&& (2 ^ bits - 1) ||| high <<< bits) % 2 ^ bits = rest &&& (2 ^ bits - 1) ∧
        (rest &&& (2 ^ bits - 1) ||| high <<< bits) / 2 ^ bits = high := by
    simp [Nat.or_mod_two_pow, Nat.or_div_two_pow, Nat.shiftLeft_eq]
  cases addressing <;> refine ⟨fun level => [_, _, _, _, _].getD level.index 0, rfl, ?_⟩ <;>
    simp only [slices, Level.index, getD_cons_succ, getD_cons_zero, column] <;> rfl

end

theorem vectorOf_injective : Function.Injective vectorOf := by
  intro id id' same
  simp only [vectorOf, map_cons, cons.injEq] at same
  ext level
  cases level <;> omega

theorem slices_injective {bits : Nat} {id id' : Level → Nat} {addressing : Addressing}
    (same : slices bits id addressing = slices bits id' addressing) : id = id' := by
  ext level
  cases addressing <;> simp only [slices, ordered] at same <;> cases level <;>
    grind [Nat.mod_add_div]

section

variable {org : Organization} {bits : Nat} {addressing : Addressing}
variable (powers : ∀ level, org.count level = 2 ^ (org.count level).log2)
variable (wide : prefetchSize ≤ org.count .Column)
include powers wide

theorem count_column : org.count .Column = 2 ^ org.addrBits .Column * 2 ^ 3 := by
  have three : 3 ≤ (org.count .Column).log2 := (Nat.le_log2 (ne_of_gt (org.count_pos _))).mpr wide
  have isLog : prefetchSize.log2 = 3 := by decide
  rw [addrBits, isLog, ← pow_add, Nat.sub_add_cancel three]
  exact powers .Column

theorem size_eq (level : Level) : org.size level = 2 ^ org.addrBits level := by
  cases level with
  | Column =>
    rw [size, count_column powers wide]
    exact Nat.mul_div_cancel _ (by decide)
  | _ => exact powers _

variable (most : bits ≤ org.addrBits .Column)
include most

theorem capacity_eq (addressing : Addressing) : org.capacityPerStack =
    2 ^ txBits * 2 ^ (org.widths bits addressing).sum := by
  have isTx : txBits = 5 := by decide
  have whole : (org.widths bits addressing).sum = org.addrBits .Vault +
      org.addrBits .BankGroup + org.addrBits .Bank + org.addrBits .Row + org.addrBits .Column := by
    cases addressing <;> simp [ordered, widths] <;> omega
  rw [capacityPerStack, count_column powers wide, whole]
  simp only [pow_add, isTx, ← size_eq powers wide, size, channelWidth]
  grind

theorem fit_iff {id : Level → Nat} : Fit (org.widths bits addressing)
      (slices bits id addressing) ↔ ∀ level, id level < org.size level := by
  have low := Nat.mod_lt (id .Column) (Nat.two_pow_pos bits)
  have high : id .Column / 2 ^ bits <
      2 ^ (org.addrBits .Column - bits) ↔ id .Column < org.size .Column := by
    rw [size_eq powers wide, Nat.div_lt_iff_lt_mul (Nat.two_pow_pos _), ← pow_add,
      Nat.sub_add_cancel most]
  have all : (∀ level, id level < org.size level) ↔ ∀ level ∈ [Level.Vault, .BankGroup, .Bank,
      .Row, .Column], id level < org.size level :=
    forall_congr' fun level => by cases level <;> simp
  rw [all]
  cases addressing <;> simp [widths, slices, ordered, high, size_eq powers wide] <;> tauto

end

theorem mapping_bijective (org : Organization)
    (powers : ∀ level, org.count level = 2 ^ (org.count level).log2)
    (wide : prefetchSize ≤ org.count .Column) (flitNumBits : Nat)
    (least : txBits ≤ flitNumBits) (most : flitNumBits ≤ txBits + org.addrBits .Column)
    (addressing : Addressing) :
    org.Bijective flitNumBits (org.addrVec flitNumBits addressing) := by
  have room : maxBlockColBits flitNumBits ≤ org.addrBits .Column := Nat.sub_le_iff_le_add'.mpr most
  have vectors := addrVec_eq org flitNumBits addressing
  have capacity := capacity_eq powers wide room addressing
  have small {addr : Nat} (lt : addr < org.capacityPerStack) :
      addr >>> txBits < 2 ^ (org.widths (maxBlockColBits flitNumBits) addressing).sum := by
    rw [Nat.shiftRight_eq_div_pow]
    exact Nat.div_lt_of_lt_mul (capacity ▸ lt)
  refine ⟨fun addr => ?_, fun a isA b isB => ⟨fun same => ?_, fun same => ?_⟩, fun id fits => ?_,
    fun a b same => ?_⟩
  · obtain ⟨id, isVector, isCut⟩ := vectors addr
    have fit := fit_cut (org.widths (maxBlockColBits flitNumBits) addressing) (addr >>> txBits)
    rw [isCut, fit_iff powers wide room] at fit
    exact ⟨id, fit, isVector⟩
  · obtain ⟨id, isVector, isCut⟩ := vectors a
    obtain ⟨id', isVector', isCut'⟩ := vectors b
    rw [isVector, isVector'] at same
    obtain rfl := vectorOf_injective same
    exact cut_injective (small isA) (small isB) (isCut.trans isCut'.symm)
  · rw [addrVec, addrVec, same]
  · obtain ⟨rest, lt, isCut⟩ := exists_cut ((fit_iff powers wide room).mpr fits)
    obtain ⟨id', isVector, isCut'⟩ := vectors (rest <<< txBits)
    rw [Nat.shiftLeft_shiftRight, isCut] at isCut'
    obtain rfl := slices_injective isCut'
    refine ⟨rest <<< txBits, ?_, isVector⟩
    rw [capacity, Nat.shiftLeft_eq, mul_comm]
    exact Nat.mul_lt_mul_of_pos_left lt (Nat.two_pow_pos _)
  · have shift (addr : Nat) : addr >>> txBits >>> maxBlockColBits flitNumBits =
        addr >>> flitNumBits := by
      rw [← Nat.shiftRight_add, maxBlockColBits, Nat.add_sub_cancel' least]
    have vault (addr : Nat) : (org.addrVec flitNumBits addressing addr)[Level.Vault.index]? =
        some (Int.ofNat (addr >>> flitNumBits &&& (2 ^ org.addrBits .Vault - 1))) := by
      rw [← shift]
      cases addressing <;> rfl
    rw [vault, vault, same]

/-- Two nodes at every level, and two columns of one transaction each. -/
def smallStack : Organization where
  count := fun level => if level = .Column then 16 else 2
  count_pos := by
    intro level
    split <;> decide

theorem mapping_bijective_small : smallStack.Bijective 6 (smallStack.addrVec 6 .RoBaCoVa) :=
  mapping_bijective smallStack (by rintro (_ | _) <;> rfl) (by decide) 6 (by decide) (by decide) _

end Organization

open List Library.BitFields Organization

/-- The counts of a standard's organisation, `levels` from the rank to the row. -/
structure Standard where
  channel : Nat
  levels : List Nat
  column : Nat
  prefetchSize : Nat
  channelWidth : Nat

namespace Standard

variable (spec : Standard)

def counts : List Nat := spec.channel :: (spec.levels ++ [spec.column])

def txBits : Nat := (spec.prefetchSize * spec.channelWidth / 8).log2

/-- What the constructor asserts. -/
abbrev Accepted : Prop := (∀ count ∈ spec.counts.take 2, count &&& (count - 1) = 0) ∧
    1 <<< spec.txBits = spec.prefetchSize * spec.channelWidth / 8

def maxAddress : Nat := spec.channelWidth / 8 * spec.counts.prod

def columnBits : Nat := spec.column.log2 - spec.prefetchSize.log2

/-- The widths of the fields, in the order in which they are sliced. -/
def addrBits : List Nat := spec.channel.log2 :: spec.columnBits :: spec.levels.map Nat.log2

/-- The loop over the levels cuts their fields one after the other. -/
def addrVec (addr : Nat) : List Nat :=
  let (channel, rest) := sliceLowerBits spec.channel.log2 (addr >>> spec.txBits)
  let (column, rest) := sliceLowerBits spec.columnBits rest
  channel :: (cut (spec.levels.map Nat.log2) rest ++ [column])

variable {spec} {addr other : Nat}

theorem two_pow_log2_le (below : addr < spec.maxAddress) :
    ∀ count ∈ spec.counts, 2 ^ count.log2 ≤ count := by
  intro count mem
  apply Nat.log2_self_le
  rintro rfl
  simp [maxAddress, prod_eq_zero mem] at below

theorem addrVec_lt (below : addr < spec.maxAddress) :
    Forall₂ (· < ·) (spec.addrVec addr) spec.counts := by
  have least := two_pow_log2_le below
  rcases fit_cut spec.addrBits (addr >>> spec.txBits) with _ | ⟨channel, _ | ⟨column, levels⟩⟩
  have rows := (forall₂_and_left _ _).mpr
    ⟨fun count mem => least count (by simp [counts, mem]), forall₂_map_left_iff.mp levels⟩
  refine .cons (channel.trans_le (least _ (by simp [counts])))
    (rel_append (rows.flip.imp fun _ _ row => row.2.trans_le row.1) (.cons ?_ .nil))
  exact column.trans_le ((Nat.pow_le_pow_right Nat.two_pos (Nat.sub_le ..)).trans
    (least _ (by simp [counts])))

theorem addrVec_eq_iff : spec.addrVec addr = spec.addrVec other ↔
    cut spec.addrBits (addr >>> spec.txBits) = cut spec.addrBits (other >>> spec.txBits) := by
  constructor
  · intro same
    have columns := append_inj' (cons.inj same).2 rfl
    exact congrArg₂ cons (cons.inj same).1 (congrArg₂ cons (cons.inj columns.2).1 columns.1)
  · intro same
    obtain ⟨channel, rest⟩ := cons.inj same
    obtain ⟨column, levels⟩ := cons.inj rest
    exact congrArg₂ cons channel (congrArg₂ (· ++ [·]) levels column)

/-- Every component is below its count. No two transactions have the same vector
if and only if the fields cover the memory. -/
theorem addrVec_faithful (spec : Standard) :
    (∀ addr < spec.maxAddress, Forall₂ (· < ·) (spec.addrVec addr) spec.counts) ∧
      ((∀ addr < spec.maxAddress, ∀ other < spec.maxAddress,
          addr >>> spec.txBits ≠ other >>> spec.txBits → spec.addrVec addr ≠ spec.addrVec other) ↔
        spec.maxAddress ≤ 2 ^ (spec.txBits + spec.addrBits.sum)) := by
  refine ⟨fun addr => addrVec_lt, fun distinct => ?_, fun covered addr below other otherBelow => ?_⟩
  · -- the first address above the fields has the vector of 0
    by_contra! above
    have shifted : 2 ^ (spec.txBits + spec.addrBits.sum) >>> spec.txBits =
        2 ^ spec.addrBits.sum := by simp [Nat.shiftRight_eq_div_pow, pow_add]
    apply distinct _ above 0 (Nat.zero_lt_of_lt above)
    · simp [shifted]
    · rw [addrVec_eq_iff, shifted, cut_above, Nat.zero_shiftRight]
  · have fits {addr : Nat} (below : addr < spec.maxAddress) :
        addr >>> spec.txBits < 2 ^ spec.addrBits.sum := by
      rw [Nat.shiftRight_eq_div_pow]
      apply Nat.div_lt_of_lt_mul
      rw [← pow_add]
      exact below.trans_le covered
    exact mt fun same => cut_injective (fits below) (fits otherBelow) (addrVec_eq_iff.mp same)

/-- A chip with 16 data pins, in one channel of one rank. -/
def lpddr3 (rows : Nat) : Standard := ⟨1, [1, 8, rows], 1 <<< 11, 8, 64⟩

/-- The upper third of the rows of a 6 Gb chip is mapped to the lower ones. -/
theorem rows_alias_6Gb :
    let spec := lpddr3 (3 <<< 13)
    spec.Accepted ∧ 1 <<< 31 < spec.maxAddress ∧ 0 >>> spec.txBits ≠ 1 <<< 31 >>> spec.txBits ∧
      spec.addrVec 0 = spec.addrVec (1 <<< 31) := by decide

end Standard

end Damov.Ramulator
