import Mathlib.Algebra.Ring.Nat
import Mathlib.Data.List.Basic

/-!
# The H3 hash functions

A function of the family selects bits of its argument by the rows of a random
matrix, rotates each selection and adds them up without carries; narrower results
are folded. The loop is unrolled over eight rows. Every function is linear, but
the unrolled loop rotates the rows inside a group of eight the other way round
than the loop that it stands for.
-/

namespace Damov.Arrays

open List

structure H3HashFamily where
  numFuncs : Nat
  resShift : Nat
  resShift_le : resShift ≤ 3
  hMatrix : Nat → BitVec 64

namespace H3HashFamily

def rotl (word : BitVec 64) (count : Nat) : BitVec 64 := word <<< count ||| word >>> (64 - count)

/-- Fold bits to match the output. -/
def fold (resShift : Nat) (res : BitVec 64) : BitVec 64 :=
  match resShift with
  | 0 => res
  | 1 => res >>> 32 ^^^ res
  | 2 =>
    let res := res >>> 32 ^^^ res
    res >>> 16 ^^^ res
  | _ =>
    let res := res >>> 32 ^^^ res
    let res := res >>> 16 ^^^ res
    res >>> 8 ^^^ res

variable (family : H3HashFamily) (id : Fin family.numFuncs) (val : BitVec 64)

/-- The bits that a row selects; the index of the row has 32 bits. -/
def part (x : Nat) : BitVec 64 :=
  val &&& family.hMatrix ((id.val <<< (6 - family.resShift) + x) % 2 ^ 32)

/-- One turn of the loop, over the eight rows from `x` on. -/
def turn (res : BitVec 64) (x : Nat) : BitVec 64 :=
  let row := family.part id val
  let res := res ^^^ (row x ^^^ rotl (row (x + 1)) 1 ^^^ rotl (row (x + 2)) 2 ^^^
    rotl (row (x + 3)) 3)
  let res := res ^^^ (rotl (row (x + 4)) 4 ^^^ rotl (row (x + 5)) 5 ^^^
    rotl (row (x + 6)) 6 ^^^ rotl (row (x + 7)) 7)
  rotl res 8

def hash : BitVec 64 :=
  let maxBits := 64 >>> family.resShift
  fold family.resShift ((range (maxBits / 8)).foldl
    (fun res turns => family.turn id val res (8 * turns)) 0)

/-- A turn of the original loop, over one row. -/
def referenceTurn (res : BitVec 64) (x : Nat) : BitVec 64 :=
  rotl (res ^^^ (val &&& family.hMatrix ((id.val * 64 + x) % 2 ^ 32))) 1

def reference : BitVec 64 := (range 64).foldl (family.referenceTurn id val) 0

/-! ## Linearity -/

theorem getLsbD_rotl {i : Nat} (mem : i < 64) (word : BitVec 64)
    (count : Nat) : (rotl word count).getLsbD i = if i < count then word.getLsbD (64 - count + i)
      else word.getLsbD (i - count) := by
  by_cases low : i < count
  · simp [rotl, low]
  · have above : 64 ≤ 64 - count + i := by omega
    simp [rotl, above, mem, -BitVec.getLsbD_eq_getElem]

theorem rotl_zero (word : BitVec 64) : rotl word 0 = word := by
  apply BitVec.eq_of_getLsbD_eq
  intro i mem
  simp [getLsbD_rotl mem]

theorem rotl_xor (a b : BitVec 64) (count : Nat) :
    rotl (a ^^^ b) count = rotl a count ^^^ rotl b count := by
  apply BitVec.eq_of_getLsbD_eq
  intro i mem
  simp only [getLsbD_rotl mem, BitVec.getLsbD_xor]
  split <;> rfl

theorem xor_and (a b mask : BitVec 64) : (a ^^^ b) &&& mask = a &&& mask ^^^ b &&& mask := by
  ext
  simp [Bool.and_xor_distrib_right]

variable {family id val}

theorem turn_xor (a b res other : BitVec 64) (x : Nat) :
    family.turn id (a ^^^ b) (res ^^^ other) x =
      family.turn id a res x ^^^ family.turn id b other x := by
  simp only [turn, part, xor_and, rotl_xor]
  ac_rfl

theorem turns_xor (a b res other : BitVec 64) (list : List Nat) :
    list.foldl (fun res k => family.turn id (a ^^^ b) res (8 * k)) (res ^^^ other) =
      list.foldl (fun res k => family.turn id a res (8 * k)) res ^^^
        list.foldl (fun res k => family.turn id b res (8 * k)) other := by
  induction list generalizing res other with
  | nil => rfl
  | cons k rest ih => simp only [foldl_cons, turn_xor, ih]

theorem fold_xor (resShift : Nat) (a b : BitVec 64) :
    fold resShift (a ^^^ b) = fold resShift a ^^^ fold resShift b := by
  unfold fold
  split <;> simp only [BitVec.ushiftRight_xor_distrib] <;> ac_rfl

variable (family id) in
/-- Two addresses fall into the same set exactly if their difference has no bit
there. -/
theorem hash_linear : (∀ a b, family.hash id (a ^^^ b) = family.hash id a ^^^ family.hash id b) ∧
    family.hash id 0 = 0 ∧
    ∀ a b mask, family.hash id a &&& mask = family.hash id b &&& mask ↔
      family.hash id (a ^^^ b) &&& mask = 0 := by
  have linear (a b : BitVec 64) : family.hash id (a ^^^ b) =
      family.hash id a ^^^ family.hash id b := by
    simp only [hash]
    rw [← fold_xor, ← turns_xor]
    rfl
  refine ⟨linear, ?_, fun a b mask => ?_⟩
  · simpa using linear 0 0
  · rw [linear, xor_and]
    exact BitVec.xor_eq_zero_iff.symm

/-! ## The original loop -/

theorem rotl_rotl {first second : Nat} (mem : first + second ≤ 64) (word : BitVec 64) :
    rotl (rotl word first) second = rotl word (first + second) := by
  apply BitVec.eq_of_getLsbD_eq
  intro i lt
  rw [getLsbD_rotl lt, getLsbD_rotl lt]
  by_cases low : i < second
  · rw [if_pos low, getLsbD_rotl (by omega), if_neg (by omega), if_pos (by omega)]
    congr 1
    omega
  · rw [if_neg low, getLsbD_rotl (by omega)]
    split <;> grind

/-- The original loop, over any rows. -/
def accumulate (rows : Nat → BitVec 64) (res : BitVec 64) (list : List Nat) : BitVec 64 :=
  list.foldl (fun res x => rotl (res ^^^ rows x) 1) res

/-- The row that the unrolled loop rotates as far as the original loop rotates `x`. -/
def rotatedAs (x : Nat) : Nat := (8 * ((x + 7) / 8) + (8 - x % 8) % 8) % 64

/-- What the unrolled loop takes from a group of rows, but for the first of them. -/
def others (rows : Nat → BitVec 64) (x : Nat) : BitVec 64 :=
  rotl (rows (x + 1)) 1 ^^^ rotl (rows (x + 2)) 2 ^^^ rotl (rows (x + 3)) 3 ^^^
    rotl (rows (x + 4)) 4 ^^^ rotl (rows (x + 5)) 5 ^^^ rotl (rows (x + 6)) 6 ^^^
    rotl (rows (x + 7)) 7

theorem accumulate_group (rows : Nat → BitVec 64) (res : BitVec 64) {g : Nat} (mem : g < 8) :
    accumulate (rows ∘ rotatedAs) res ((range 8).map (8 * g + ·)) =
      rotl (res ^^^ rows (8 * g)) 8 ^^^ others rows (8 * ((g + 1) % 8)) := by
  have first : rotatedAs (8 * g + 0) = 8 * g := by
    unfold rotatedAs
    omega
  have later (j : Nat) (isLater : j ≠ 0) (small : j < 8) :
      rotatedAs (8 * g + j) = 8 * ((g + 1) % 8) + (8 - j) := by
    unfold rotatedAs
    omega
  simp only [accumulate, range, range.loop, map_cons, map_nil,
    foldl_cons, foldl_nil, Function.comp_apply, rotl_xor]
  simp (disch := omega) only [rotl_rotl, first, later, Nat.reduceAdd, Nat.reduceSub, others]
  ac_rfl

theorem turn_eq (res : BitVec 64) (x : Nat) : family.turn id val res x =
    rotl (res ^^^ family.part id val x ^^^ others (family.part id val) x) 8 := by
  simp only [turn, others]
  ac_rfl

/-- The state of the original loop after so many groups of the rearranged rows. -/
theorem accumulate_groups {g : Nat} (mem : g ≤ 8) : accumulate (family.part id val ∘ rotatedAs) 0
        ((range g).flatMap fun k => (range 8).map (8 * k + ·)) =
      (range g).foldl (fun res k => family.turn id val res (8 * k)) 0 ^^^
        (others (family.part id val) (8 * (g % 8)) ^^^
          rotl (others (family.part id val) 0) (8 * g)) := by
  induction g with
  | zero => simp [accumulate, rotl_zero]
  | succ g ih =>
    rw [range_succ (n := g), flatMap_append, flatMap_singleton, foldl_concat,
      accumulate, foldl_append, ← accumulate, ← accumulate, ih (by omega),
      accumulate_group _ _ (by omega), turn_eq, Nat.mod_eq_of_lt (show g < 8 by omega)]
    simp (disch := omega) only [rotl_xor, rotl_rotl, Nat.mul_succ]
    ac_rfl

/-- Only one row selects a bit that is rotated to the place `p`. -/
theorem accumulate_bit {rows : Nat → BitVec 64} {p x : Nat} (n : Nat)
    (alone : ∀ y ≠ x, y < n → (rows y).getLsbD ((p + y) % 64) = false) :
    (accumulate rows 0 (range n)).getLsbD ((p + n) % 64) =
      (decide (x < n) && (rows x).getLsbD ((p + x) % 64)) := by
  induction n with
  | zero => simp [accumulate]
  | succ n ih =>
    have next (word : BitVec 64) :
        (rotl word 1).getLsbD ((p + (n + 1)) % 64) = word.getLsbD ((p + n) % 64) := by
      rw [getLsbD_rotl (Nat.mod_lt _ (by decide))]
      split <;> congr 1 <;> omega
    rw [range_succ, accumulate, foldl_concat, ← accumulate, next, BitVec.getLsbD_xor,
      ih fun y ne less => alone y ne (by omega)]
    rcases lt_trichotomy x n with before | rfl | after
    · simp [alone n (by omega) (by omega), before, Nat.lt_succ_of_lt before]
    · simp
    · simp [alone n (by omega) (by omega), show ¬ x < n by omega, show ¬ x < n + 1 by omega]

/-- The original loop tells all rows apart. -/
theorem rows_eq_of_accumulate {a b : Nat → BitVec 64}
    (same : ∀ val : BitVec 64, accumulate (fun x => val &&& a x) 0 (range 64) =
      accumulate (fun x => val &&& b x) 0 (range 64)) {x : Nat} (mem : x < 64) :
    a x = b x := by
  have bit (rows : Nat → BitVec 64) {q : Nat} (isBit : q < 64) :
      (accumulate (fun x => BitVec.twoPow 64 q &&& rows x) 0 (range 64)).getLsbD
        ((q + (64 - x)) % 64) = (rows x).getLsbD q := by
    have alone (y) (ne : y ≠ x) (less : y < 64) :
        (BitVec.twoPow 64 q &&& rows y).getLsbD ((q + (64 - x) + y) % 64) = false := by
      simp [show q ≠ (q + (64 - x) + y) % 64 by omega]
    have moved := accumulate_bit 64 alone
    rw [Nat.add_mod_right, show (q + (64 - x) + x) % 64 = q by omega] at moved
    rw [moved]
    simp [mem, isBit]
  apply BitVec.eq_of_getLsbD_eq
  intro q isBit
  rw [← bit a isBit, same, bit b isBit]

section

variable (wide : family.resShift = 0)
include wide

theorem hash_eq_accumulate : family.hash id val =
    accumulate (family.part id val ∘ rotatedAs) 0 (range 64) := by
  have rows : range 64 = (range 8).flatMap fun k => (range 8).map (8 * k + ·) := by decide
  have whole (word : BitVec 64) : rotl word (8 * 8) = word := by simp [rotl]
  rw [rows, accumulate_groups le_rfl, whole, Nat.mod_self, Nat.mul_zero, BitVec.xor_self,
    BitVec.xor_zero]
  simp [hash, wide, fold]

/-- The unrolled loop computes the hash of the original one exactly if each row is
the one that takes its place. -/
theorem hash_eq_reference_iff : (∀ val, family.hash id val = family.reference id val) ↔
    ∀ x < 64, family.hMatrix ((id.val * 64 + rotatedAs x) % 2 ^ 32) =
      family.hMatrix ((id.val * 64 + x) % 2 ^ 32) := by
  have hashed (val : BitVec 64) : family.hash id val = accumulate
      (fun x => val &&& family.hMatrix ((id.val * 64 + rotatedAs x) % 2 ^ 32)) 0 (range 64) := by
    rw [hash_eq_accumulate wide]
    congr 1
    ext1 x
    simp [part, wide, Nat.shiftLeft_eq]
  have original (val : BitVec 64) : family.reference id val = accumulate
      (fun x => val &&& family.hMatrix ((id.val * 64 + x) % 2 ^ 32)) 0 (range 64) := rfl
  simp only [hashed, original]
  constructor
  · exact fun same x inside => rows_eq_of_accumulate same inside
  · intro same val
    apply foldl_ext
    intro res x mem
    dsimp only
    rw [same x (mem_range.mp mem)]

end

/-- A matrix with a one in the lowest bit of some rows. -/
abbrev ones (rows : List Nat) : H3HashFamily :=
  ⟨1, 0, Nat.zero_le 3, fun i => if i ∈ rows then 1 else 0⟩

theorem hash_eq_reference_iff_ones :
    let family := ones [1, 15, 17, 31, 33, 47, 49, 63]
    ∀ val, family.hash 0 val = family.reference 0 val :=
  (hash_eq_reference_iff rfl).mpr (by decide)

/-- Row 1 is rotated by one place to the left, not to the right. -/
theorem hash_ne_reference :
    (ones [1]).hash 0 1 = 2 ∧ (ones [1]).reference 0 1 = 0x8000000000000000 := by decide +kernel

end H3HashFamily

end Damov.Arrays
