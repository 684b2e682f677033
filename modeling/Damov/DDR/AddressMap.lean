import Damov.DDR.Channel
import Mathlib.Data.Nat.Bitwise

/-!
# The address mapping of a channel

The constructor reads the order of the rank, bank and column fields and gives
each the next bits of a line address, from the lowest on; the row is what lies
above. The fields are disjoint and leave no gap, so that an address is known by
its location, as long as the row starts inside the 64 bits of an address.
-/

namespace Damov.DDR

open Library.Checked Function

namespace AddrMap

variable {bits : MapField → Nat} {map : AddrMap} {fields tokens : List MapField}

/-- A field that was not read has the mask 0. -/
theorem ofTokens_masks (made : ofTokens bits tokens = .ok map) (field : MapField) :
    map.mask field ≤ 2 ^ bits field - 1 := by
  have ends : Ends (fun _ => True) (ofTokens bits tokens)
      fun map => map.mask field ≤ 2 ^ bits field - 1 := by
    apply Ends.assert_bind trivial
    refine fun _ => Ends.foldlM (fun _ (map : AddrMap) => map.mask field ≤ _) ?_ (Nat.zero_le _)
    refine fun token _ map _ masked => Ends.assert_bind trivial fun _ => .pure ?_
    rcases eq_or_ne field token with rfl | other
    · simp
    · simpa [other] using masked
  exact ends.returns map made

theorem field_lt {size : Nat} {field : MapField} (positive : 0 < size)
    (masked : map.mask field ≤ 2 ^ Nat.log 2 size - 1) (lineAddr : Nat) :
    map.field field lineAddr < size := by
  have power := Nat.pow_log_le_self 2 positive.ne'
  have below : map.field field lineAddr ≤ map.mask field := Nat.and_le_right
  omega

/-- A bit of an address belongs to a field. -/
def Within (bits : MapField → Nat) (map : AddrMap) (field : MapField) (k : Nat) :
    Prop :=
  map.shift field ≤ k ∧ k < map.shift field + bits field

/-- The fields that were read lie side by side from the lowest bit on. -/
structure Laid (bits : MapField → Nat) (fields : List MapField) (map : AddrMap) : Prop where
  mask : ∀ field, map.mask field = if field ∈ fields then 2 ^ bits field - 1 else 0
  below : ∀ field ∈ fields, map.shift field + bits field ≤ map.startBit
  cover : ∀ k < map.startBit, ∃ field ∈ fields, Within bits map field k
  apart : ∀ field ∈ fields, ∀ other ∈ fields, ∀ k,
    Within bits map field k → Within bits map other k → field = other
  total : map.startBit = (fields.map bits).sum

theorem Laid.next (laid : Laid bits fields map) {field : MapField} (fresh : field ∉ fields) :
    Gives (computeShiftAndMask bits map field) (Laid bits (fields ++ [field])) := by
  obtain ⟨mask, below, cover, apart, total⟩ := laid
  refine .check (by rw [mask, if_neg fresh]) ?_
  refine .pure ?_
  constructor <;> simp only [List.mem_append, Within]
  · grind
  · grind
  · intro k before
    by_cases old : k < map.startBit
    · obtain ⟨other, mem, within⟩ := cover k old
      exact ⟨other, .inl mem, by grind [Within]⟩
    · exact ⟨field, by grind⟩
  · intro first isFirst second isSecond k
    have meet := fun known also => apart first known second also k
    grind [Within]
  · simp [total]

theorem ofTokens_laid (perm : tokens.Perm [.rank, .bank, .col]) :
    Gives (ofTokens bits tokens) (Laid bits tokens.reverse) := by
  have nodup : tokens.reverse.Nodup := (tokens.reverse_perm.trans perm).nodup_iff.mpr (by decide)
  refine .check perm.length_eq ?_
  refine (Gives.foldlM (fun visited rest map =>
    (visited ++ rest).Nodup ∧ Laid bits visited map) ?_ _ _ ⟨nodup, ?_⟩).mono
    fun _ => And.right
  · rintro visited field rest map ⟨nodup, laid⟩
    apply (laid.next (by grind [List.nodup_append])).mono
    exact fun next after => ⟨by simpa using nodup, after⟩
  · constructor <;> simp

theorem field_eq_iff {shift width a b : Nat} (small : shift < 64) :
    shiftRight a shift &&& (2 ^ width - 1) = shiftRight b shift &&& (2 ^ width - 1) ↔
      ∀ k, shift ≤ k ∧ k < shift + width → a.testBit k = b.testBit k := by
  rw [shiftRight, shiftRight, Nat.mod_eq_of_lt small]
  constructor
  · rintro same k ⟨low, high⟩
    have bit := congrArg (Nat.testBit · (k - shift)) same
    simpa [Nat.add_sub_cancel' low, show k - shift < width by omega] using bit
  · intro same
    apply Nat.eq_of_testBit_eq
    intro k
    by_cases mem : k < width <;> simp [mem, same (shift + k)]

theorem row_eq_iff {shift a b : Nat} (small : shift < 64) :
    shiftRight a shift = shiftRight b shift ↔ ∀ k, shift ≤ k → a.testBit k = b.testBit k := by
  rw [shiftRight, shiftRight, Nat.mod_eq_of_lt small]
  constructor
  · intro same k low
    have bit := congrArg (Nat.testBit · (k - shift)) same
    simpa [Nat.add_sub_cancel' low] using bit
  · intro same
    apply Nat.eq_of_testBit_eq
    simp [same]

/-- An address is known by its location, whose rank and bank exist, and up to
the column by its rank, bank and row. -/
def Faithful (sizes : MapField → Nat) (map : AddrMap) : Prop :=
  (∀ a b, (∀ field, map.field field a = map.field field b) → map.row a = map.row b → a = b) ∧
  (∀ a, map.field .rank a < sizes .rank ∧ map.field .bank a < sizes .bank) ∧
  ∀ a b, (map.field .rank a = map.field .rank b ∧
      map.field .bank a = map.field .bank b ∧ map.row a = map.row b) ↔
    ∀ k, ¬ Within (Nat.log 2 ∘ sizes) map .col k → a.testBit k = b.testBit k

theorem mapping_faithful (sizes : MapField → Nat) (hasRanks : 0 < sizes .rank)
    (hasBanks : 0 < sizes .bank) (tokens : List MapField) (perm : tokens.Perm [.rank, .bank, .col])
    (fits : Nat.log 2 (sizes .rank) + Nat.log 2 (sizes .bank) + Nat.log 2 (sizes .col) < 64) :
    Gives (ofTokens (Nat.log 2 ∘ sizes) tokens) (Faithful sizes) := by
  apply (ofTokens_laid perm).mono
  intro map laid
  have all : ∀ field, field ∈ tokens.reverse := fun field =>
    List.mem_reverse.mpr (perm.mem_iff.mpr (by cases field <;> simp))
  have small : map.startBit < 64 := by
    rw [laid.total, ((tokens.reverse_perm.trans perm).map _).sum_nat]
    simpa [add_assoc] using fits
  have mask (field : MapField) : map.mask field = 2 ^ Nat.log 2 (sizes field) - 1 := by
    rw [laid.mask, if_pos (all field)]
    rfl
  have fields (field : MapField) (a b : Nat) : map.field field a = map.field field b ↔ ∀ k,
        Within (Nat.log 2 ∘ sizes) map field k → a.testBit k = b.testBit k := by
    have below := laid.below field (all field)
    rw [AddrMap.field, AddrMap.field, mask, field_eq_iff (by omega)]
    rfl
  have rows (a b : Nat) : map.row a = map.row b ↔
      ∀ k, map.startBit ≤ k → a.testBit k = b.testBit k :=
    row_eq_iff small
  have place (k : Nat) : map.startBit ≤ k ∨ ∃ field, Within (Nat.log 2 ∘ sizes) map field k := by
    by_cases low : k < map.startBit
    · exact .inr ((laid.cover k low).imp fun _ => And.right)
    · exact .inl (by omega)
  refine ⟨fun a b same row => ?_, fun a => ?_, fun a b => ?_⟩
  · apply Nat.eq_of_testBit_eq
    intro k
    rcases place k with high | ⟨field, within⟩
    · exact (rows a b).mp row k high
    · exact (fields field a b).mp (same field) k within
  · exact ⟨field_lt hasRanks (mask .rank).le a, field_lt hasBanks (mask .bank).le a⟩
  · rw [fields, fields, rows]
    constructor
    · rintro ⟨ranks, banks, row⟩ k outside
      rcases place k with high | ⟨_ | _ | _, within⟩
      · exact row k high
      · exact ranks k within
      · exact banks k within
      · exact absurd within outside
    · intro bits
      have other (field : MapField) (ne : field ≠ .col) (k : Nat)
          (within : Within (Nat.log 2 ∘ sizes) map field k) :=
        bits k fun inside => ne (laid.apart _ (all _) _ (all _) k within inside)
      refine ⟨other .rank (by simp), other .bank (by simp), fun k high => ?_⟩
      exact bits k fun inside =>
        absurd (inside.2.trans_le (laid.below .col (all .col))) (by omega)

/-- Sizes that are no powers of two. -/
theorem mapping_faithful_odd : Gives (ofTokens (Nat.log 2 ∘ sizesOf 1 6 100) [.col, .rank, .bank])
      (Faithful (sizesOf 1 6 100)) :=
  mapping_faithful _ (by decide) (by decide) _ (by decide) (by decide)

end AddrMap

/-- The masks that the constructor computes keep every address inside. -/
theorem Config.mapLineAddr_succeeds (cfg : Config) (lineAddr : Nat) :
    ∃ loc, cfg.mapLineAddr lineAddr = .ok loc := by
  have masks := AddrMap.ofTokens_masks cfg.mapped
  have rankBound := AddrMap.field_lt cfg.hasRanks (masks .rank) lineAddr
  have bankBound := AddrMap.field_lt cfg.hasBanks (masks .bank) lineAddr
  exact ⟨_, by rw [mapLineAddr, dif_pos rankBound, dif_pos bankBound]⟩

end Damov.DDR
