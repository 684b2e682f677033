import Mathlib.Data.Nat.Bitwise
import Mathlib.Tactic.IntervalCases

/-!
# Address mapping of the detailed memory model

`MemChannelBase::AddressMap` takes the fields of a location from the low end of a
line address, and `MemControllerBase::ReturnChannel` computes the channel alone. The
number of channels need not be a power of two. An address is known by its location
as long as no column needs more than the 32 bits of its variable.
-/

namespace Damov.Memory

open Function

/-- The parameters that the mapping reads. There is a channel and a rank, and no
field is as wide as an address, by which a shift would be undefined. -/
structure MemParam where
  channelCount : Nat
  rankCount : Nat
  bankCount : Nat
  channelDataWidth : Nat
  cacheLineSize : Nat
  colAddrWidth : Nat
  interleaveType : Nat
  positive : 0 < channelCount ∧ 0 < rankCount
  fits : channelCount < 2 ^ 32 ∧ rankCount < 2 ^ 32 ∧ bankCount < 2 ^ 32
  widths : cacheLineSize < 2 ^ 32 ∧ colAddrWidth < 64 ∧
    cacheLineSize.log2 - channelDataWidth.log2 ≤ colAddrWidth

inductive Field where
  | colLow
  | chnl
  | rank
  | bank
  | colHigh
  deriving DecidableEq

structure Location where
  chnl : Nat
  row : Nat
  rank : Nat
  bank : Nat
  col : Nat
  deriving DecidableEq

namespace MemParam

variable (param : MemParam)

def colLowWidth : Nat := param.cacheLineSize.log2 - param.channelDataWidth.log2

def colHighWidth : Nat := param.colAddrWidth - param.colLowWidth

/-- The order in which the fields above `colLow` are taken from the address. -/
def order : Nat → List Field
  | 0 => [.chnl, .rank, .bank, .colHigh]
  | 1 => [.chnl, .bank, .rank, .colHigh]
  | 2 => [.chnl, .rank, .colHigh, .bank]
  | 3 => [.chnl, .bank, .colHigh, .rank]
  | 4 => [.chnl, .colHigh, .rank, .bank]
  | 5 => [.chnl, .colHigh, .bank, .rank]
  | 6 => [.colHigh, .chnl, .bank, .rank]
  | 7 => [.colHigh, .bank, .chnl, .rank]
  | 8 => [.colHigh, .bank, .rank, .chnl]
  | _ => []

/-- A field of `n` bits is a remainder by `2 ^ n`. -/
def radix : Field → Nat
  | .colLow => 2 ^ param.colLowWidth
  | .chnl => param.channelCount
  | .rank => 2 ^ param.rankCount.log2
  | .bank => 2 ^ param.bankCount.log2
  | .colHigh => 2 ^ param.colHighWidth

/-- The fields and what is above them. -/
def split : List Field → Nat → (Field → Nat) × Nat
  | [], addr => (fun _ => 2 ^ 32 - 1, addr)
  | field :: fields, addr =>
    let above := split fields (addr / param.radix field)
    (update above.1 field (addr % param.radix field), above.2)

def fields (addr : Nat) : (Field → Nat) × Nat :=
  param.split (.colLow :: order param.interleaveType) addr

/-- The variables have 32 bits. -/
def addressMap (addr : Nat) : Location :=
  let values := fun field => (param.fields addr).1 field % 2 ^ 32
  { chnl := values .chnl
    row := (param.fields addr).2 % 2 ^ 32
    rank := values .rank
    bank := values .bank
    col := values .colHigh <<< param.colLowWidth % 2 ^ 32 ||| values .colLow }

/-- The line addresses whose row fits its variable. -/
abbrev Addressed (addr : Nat) : Prop := addr < 2 ^ 64 ∧ (param.fields addr).2 < 2 ^ 32

/-- The column of an address, of any width. -/
def column (addr : Nat) : Nat :=
  (param.fields addr).1 .colHigh * 2 ^ param.colLowWidth + (param.fields addr).1 .colLow

def returnChannel (addr : Nat) : Nat :=
  let result := addr >>> param.colLowWidth
  match param.interleaveType with
  | 6 => result >>> param.colHighWidth % param.channelCount
  | 7 => result >>> param.colHighWidth >>> param.bankCount.log2 % param.channelCount
  | 8 => result >>> param.colHighWidth >>> param.bankCount.log2 >>> param.rankCount.log2 %
      param.channelCount
  | _ => result % param.channelCount

variable {param} {addr other : Nat} {fields : List Field}

theorem radix_pos (field : Field) : 0 < param.radix field := by
  cases field
  case chnl => exact param.positive.1
  all_goals exact Nat.two_pow_pos _

theorem two_pow_log2_lt {count : Nat} (small : count < 2 ^ 32) : 2 ^ count.log2 < 2 ^ 32 := by
  rcases count.eq_zero_or_pos with rfl | positive
  · decide
  · exact (Nat.log2_self_le positive.ne').trans_lt small

theorem split_lt {field : Field} (mem : field ∈ fields) (addr : Nat) :
    (param.split fields addr).1 field < param.radix field := by
  induction fields generalizing addr with
  | nil => cases mem
  | cons head fields ih =>
    simp only [split]
    by_cases isHead : field = head
    · rw [isHead, update_self]
      exact Nat.mod_lt _ (radix_pos head)
    · rw [update_of_ne isHead]
      exact ih ((List.mem_cons.mp mem).resolve_left isHead) _

/-- An address is known by its fields and what is above them. -/
theorem split_injective (nodup : fields.Nodup)
    (same : ∀ field ∈ fields, (param.split fields addr).1 field = (param.split fields other).1 field)
    (above : (param.split fields addr).2 = (param.split fields other).2) : addr = other := by
  induction fields generalizing addr other with
  | nil => exact above
  | cons head fields ih =>
    rw [List.nodup_cons] at nodup
    have digit := same head List.mem_cons_self
    simp only [split, update_self] at digit
    have quotient : addr / param.radix head = other / param.radix head := by
      apply ih nodup.2 _ above
      intro field mem
      have ne : field ≠ head := ne_of_mem_of_not_mem mem nodup.1
      simpa [split, ne] using same field (List.mem_cons_of_mem _ mem)
    rw [← Nat.mod_add_div addr (param.radix head), digit, quotient, Nat.mod_add_div]

/-- A field can be lowered alone. -/
theorem split_lower {field : Field} (mem : field ∈ fields) {digit : Nat}
    (le : digit ≤ (param.split fields addr).1 field) : ∃ lower ≤ addr, param.split fields lower =
      (update (param.split fields addr).1 field digit, (param.split fields addr).2) := by
  induction fields generalizing addr with
  | nil => cases mem
  | cons head fields ih =>
    have positive := param.radix_pos head
    have parts := Nat.mod_add_div addr (param.radix head)
    have small := Nat.mod_lt addr positive
    simp only [split] at le ⊢
    by_cases isHead : field = head
    · subst isHead
      rw [update_self] at le
      refine ⟨digit + param.radix field * (addr / param.radix field), by omega, ?_⟩
      rw [Nat.add_mul_div_left _ _ positive, Nat.div_eq_of_lt (by omega), zero_add,
        Nat.add_mul_mod_self_left, Nat.mod_eq_of_lt (by omega), update_idem]
    rw [update_of_ne isHead] at le
    obtain ⟨lower, isLower, lowered⟩ := ih ((List.mem_cons.mp mem).resolve_left isHead) le
    refine ⟨addr % param.radix head + param.radix head * lower, ?_, ?_⟩
    · have := Nat.mul_le_mul_left (param.radix head) isLower
      omega
    · rw [Nat.add_mul_div_left _ _ positive, Nat.div_eq_of_lt small, zero_add, lowered,
        Nat.add_mul_mod_self_left, Nat.mod_mod, update_comm isHead]

section

variable (known : param.interleaveType ≤ 8)
include known

theorem order_perm : (.colLow :: order param.interleaveType).Perm
    [.colLow, .chnl, .rank, .bank, .colHigh] := by
  generalize param.interleaveType = type at known
  interval_cases type <;> decide

theorem mem_order (field : Field) : field ∈ .colLow :: order param.interleaveType :=
  (order_perm known).mem_iff.mpr (by cases field <;> decide)

theorem field_lt (addr : Nat) (field : Field) : (param.fields addr).1 field < param.radix field :=
  split_lt (mem_order known field) addr

theorem addressMap_chnl (addr : Nat) : (param.addressMap addr).chnl = param.returnChannel addr := by
  have fits (n : Nat) : n % param.channelCount < 2 ^ 32 :=
    (Nat.mod_lt n param.positive.1).trans param.fits.1
  rw [addressMap, MemParam.fields, returnChannel]
  generalize param.interleaveType = type at known
  interval_cases type <;> simp [split, order, radix, Nat.shiftRight_eq_div_pow] <;> exact fits _

theorem addressMap_col (addr : Nat) : (param.addressMap addr).col = param.column addr % 2 ^ 32 := by
  have lowPart := field_lt known addr .colLow
  rw [column, ← Nat.shiftLeft_eq, Nat.shiftLeft_add_eq_or_of_lt lowPart, Nat.or_mod_two_pow]
  simp [addressMap, Nat.shiftLeft_eq]

/-- The column shows both of its parts. -/
theorem column_parts (addr : Nat) :
    param.column addr / 2 ^ param.colLowWidth = (param.fields addr).1 .colHigh ∧
      param.column addr % 2 ^ param.colLowWidth = (param.fields addr).1 .colLow := by
  refine (Nat.div_mod_unique (Nat.two_pow_pos _)).mpr ⟨?_, field_lt known addr .colLow⟩
  rw [column, add_comm, mul_comm]

theorem column_lt (addr : Nat) : param.column addr < 2 ^ param.colAddrWidth := by
  have low := param.widths.2.2
  rw [← Nat.sub_add_cancel low, pow_add, ← Nat.div_lt_iff_lt_mul (Nat.two_pow_pos _)]
  exact (column_parts known addr).1 ▸ field_lt known addr .colHigh

/-- If no column is cut, the location shows all fields. -/
theorem fields_of_addressMap (narrow : param.column addr < 2 ^ 32)
    (otherNarrow : param.column other < 2 ^ 32)
    (same : param.addressMap addr = param.addressMap other) (field : Field) :
    (param.fields addr).1 field = (param.fields other).1 field := by
  have stored {field : Field} (small : param.radix field < 2 ^ 32)
      (same : (param.fields addr).1 field % 2 ^ 32 = (param.fields other).1 field % 2 ^ 32) :
      (param.fields addr).1 field = (param.fields other).1 field := by
    rwa [Nat.mod_eq_of_lt ((field_lt known addr field).trans small),
      Nat.mod_eq_of_lt ((field_lt known other field).trans small)] at same
  have columns := congrArg Location.col same
  rw [addressMap_col known, addressMap_col known, Nat.mod_eq_of_lt narrow,
    Nat.mod_eq_of_lt otherNarrow] at columns
  cases field with
  | colLow => rw [← (column_parts known addr).2, columns, (column_parts known other).2]
  | colHigh => rw [← (column_parts known addr).1, columns, (column_parts known other).1]
  | chnl => exact stored param.fits.1 (congrArg Location.chnl same)
  | rank => exact stored (two_pow_log2_lt param.fits.2.1) (congrArg Location.rank same)
  | bank => exact stored (two_pow_log2_lt param.fits.2.2) (congrArg Location.bank same)

/-- An address whose column is cut has the location of a lower one. -/
theorem exists_alias (addressed : param.Addressed addr) (wide : 2 ^ 32 ≤ param.column addr) :
    ∃ other, param.Addressed other ∧ other ≠ addr ∧
      param.addressMap addr = param.addressMap other := by
  have lowWidth : param.colLowWidth < 32 := by
    have log : param.cacheLineSize.log2 < 32 :=
      (Nat.pow_lt_pow_iff_right Nat.one_lt_two).mp (two_pow_log2_lt param.widths.1)
    exact (Nat.sub_le ..).trans_lt log
  have whole : 2 ^ (32 - param.colLowWidth) * 2 ^ param.colLowWidth = 2 ^ 32 := by
    rw [← pow_add, Nat.sub_add_cancel lowWidth.le]
  have high : 2 ^ (32 - param.colLowWidth) ≤ (param.fields addr).1 .colHigh := by
    rwa [← (column_parts known addr).1, Nat.le_div_iff_mul_le (Nat.two_pow_pos _), whole]
  obtain ⟨other, le, lowered⟩ : ∃ other ≤ addr, param.fields other =
      (update (param.fields addr).1 .colHigh
        ((param.fields addr).1 .colHigh - 2 ^ (32 - param.colLowWidth)), (param.fields addr).2) :=
    split_lower (mem_order known .colHigh) (Nat.sub_le ..)
  have less : param.column addr = param.column other + 2 ^ 32 := by
    rw [column, column, lowered, ← whole]
    simp only [update_self, update_of_ne, ne_eq, reduceCtorEq, not_false_eq_true]
    nth_rewrite 1 [← Nat.sub_add_cancel high]
    rw [add_mul]
    omega
  refine ⟨other, ⟨le.trans_lt addressed.1, ?_⟩, ?_, ?_⟩
  · rw [lowered]
    exact addressed.2
  · rintro rfl
    omega
  · have column : (param.addressMap addr).col = (param.addressMap other).col := by
      rw [addressMap_col known, addressMap_col known, less, Nat.add_mod_right]
    simp only [addressMap, lowered] at column ⊢
    rw [column]
    simp

/-- The two functions agree on the channel, the rank exists, and the bank if there
is one. An address is known by its location if and only if no column is cut. -/
theorem addressMap_faithful : (∀ addr, (param.addressMap addr).chnl = param.returnChannel addr ∧
      (param.addressMap addr).rank < param.rankCount) ∧
      ((∀ addr, (param.addressMap addr).bank < param.bankCount) ↔ 0 < param.bankCount) ∧
      ((∀ addr other, param.Addressed addr → param.Addressed other →
          param.addressMap addr = param.addressMap other → addr = other) ↔
        ∀ addr, param.Addressed addr → param.column addr < 2 ^ 32) := by
  refine ⟨fun addr => ⟨addressMap_chnl known addr, ?_⟩, ⟨fun banks => ?_, fun someBank addr => ?_⟩,
    fun injective addr addressed => ?_, fun narrow addr other isAddr isOther same => ?_⟩
  · exact ((Nat.mod_le ..).trans_lt (field_lt known addr .rank)).trans_le
      (Nat.log2_self_le param.positive.2.ne')
  · exact Nat.zero_lt_of_lt (banks 0)
  · exact ((Nat.mod_le ..).trans_lt (field_lt known addr .bank)).trans_le
      (Nat.log2_self_le someBank.ne')
  · by_contra! wide
    obtain ⟨other, isOther, ne, same⟩ := exists_alias known addressed wide
    exact ne (injective _ _ addressed isOther same).symm
  · apply split_injective ((order_perm known).nodup_iff.mpr (by decide))
    · exact fun field _ => fields_of_addressMap known (narrow addr isAddr) (narrow other isOther)
        same field
    · have rows : (param.fields addr).2 % 2 ^ 32 = _ := congrArg Location.row same
      rw [Nat.mod_eq_of_lt isAddr.2] at rows
      exact rows.trans (Nat.mod_eq_of_lt isOther.2)

end

def sample (colAddrWidth : Nat) (narrow : colAddrWidth < 64) : MemParam :=
  ⟨3, 2, 8, 64, 64, colAddrWidth, 0, by decide, by decide, by decide, narrow, Nat.zero_le _⟩

theorem addressMap_faithful_sample :
    let param := sample 10 (by decide)
    ∀ addr other, param.Addressed addr → param.Addressed other →
      param.addressMap addr = param.addressMap other → addr = other := by
  refine (addressMap_faithful (by decide)).2.2.mpr fun addr _ => ?_
  exact (column_lt (by decide) addr).trans (by decide)

/-- The highest bit of a column of 33 bits is lost. -/
theorem wide_column_aliases :
    let param := sample 33 (by decide)
    param.interleaveType ≤ 8 ∧ param.colLowWidth ≤ param.colAddrWidth ∧ 0 < param.bankCount ∧
      (param.fields 0).2 < 2 ^ 32 ∧ (param.fields (48 <<< 32)).2 < 2 ^ 32 ∧ 48 <<< 32 < 2 ^ 64 ∧
      param.addressMap 0 = param.addressMap (48 <<< 32) := by decide

end MemParam

end Damov.Memory
