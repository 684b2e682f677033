import Damov.Library.Bundles
import Mathlib.Algebra.BigOperators.Group.List.Basic
import Mathlib.Algebra.Ring.Nat
import Mathlib.Data.List.Induction

/-!
# Predecoding and decoding

`decodeBbl` assigns a predecode cycle and a decode cycle to the instructions of a
basic block. Both loops fill the current cycle until an instruction does not
fit, and then go on with the next cycle. The decoder has one complex decoder and
three simple ones; the simple ones take instructions of one uop and at most seven
bytes.

The counters of the source have 32 bits. A block has fewer than `2 ^ 32`
instructions of at most 15 bytes, so that none of them wraps around.
-/

namespace Damov.Core

open Library List

/-- What the decoder has gathered about an instruction. The second instruction
of a fused pair has no uops. -/
structure Instr where
  addr : Nat
  bytes : Nat
  uops : Nat
  deriving DecidableEq

/-- The instructions of a basic block are in the order of their addresses. -/
structure BasicBlock where
  instrs : List Instr
  inOrder : instrs.Pairwise fun first second => first.addr ≤ second.addr

/-- An instruction with its predecode cycle. -/
structure Predecoded where
  ins : Instr
  predecCycle : Nat
  deriving DecidableEq

/-- An instruction with the decode cycle of its uops. -/
structure Decoded extends Predecoded where
  decCycle : Nat
  deriving DecidableEq

/-! ## The loops -/

/-- The locals of the predecode loop, and the instructions so far. -/
structure Predecode where
  pcyc : Nat
  psz : Nat
  pcnt : Nat
  pblk : Nat
  done : List Predecoded

namespace Predecode

def initial : Predecode := ⟨0, 0, 0, 0, []⟩

def step (startAddr : Nat) (loop : Predecode) (ins : Instr) : Predecode :=
  let block := (ins.addr - startAddr) / 16
  if 16 < loop.psz + ins.bytes ∨ 6 < loop.pcnt + 1 ∨ loop.pblk < block then
    ⟨loop.pcyc + 1, ins.bytes, 1, block, loop.done ++ [⟨ins, loop.pcyc + 1⟩]⟩
  else
    ⟨loop.pcyc, loop.psz + ins.bytes, loop.pcnt + 1, loop.pblk, loop.done ++ [⟨ins, loop.pcyc⟩]⟩

end Predecode

variable (block : BasicBlock)

/-- The block of 16 bytes that the first instruction is in. -/
def BasicBlock.startAddr : Nat :=
  match block.instrs with
  | [] => 0
  | first :: _ => first.addr / 16 * 16

def BasicBlock.predecode : List Predecoded :=
  (block.instrs.foldl (Predecode.step block.startAddr) Predecode.initial).done

/-- The locals of the decode loop, the instructions with uops so far, and the
decode cycles of the uops so far. -/
structure Decode where
  dcyc : Nat
  dsimple : Nat
  dcomplex : Nat
  done : List Decoded
  uopVec : List Nat

namespace Decode

def initial : Decode := ⟨0, 0, 0, [], []⟩

def simple (ins : Instr) : Bool := ins.uops == 1 && ins.bytes < 8

variable (loop : Decode)

/-- An instruction cannot be decoded before it was predecoded. -/
def await (pcyc : Nat) : Decode :=
  if loop.dcyc < pcyc then
    { loop with dcyc := pcyc, dsimple := 0, dcomplex := 0 }
  else loop

/-- A new cycle, if no decoder is free for the instruction. -/
def advance (ins : Instr) : Decode :=
  if (simple ins ∧ loop.dsimple + loop.dcomplex = 4) ∨ (¬ simple ins ∧ loop.dcomplex = 1) then
    { loop with dcyc := loop.dcyc + 1, dsimple := 0, dcomplex := 0 }
  else loop

/-- The instruction takes a decoder. -/
def assign (next : Predecoded) : Decode :=
  { dcyc := loop.dcyc
    dsimple := if simple next.ins then loop.dsimple + 1 else loop.dsimple
    dcomplex := if simple next.ins then loop.dcomplex else loop.dcomplex + 1
    done := loop.done ++ [⟨next, loop.dcyc⟩]
    uopVec := loop.uopVec ++ List.replicate next.ins.uops loop.dcyc }

def step (next : Predecoded) : Decode :=
  if next.ins.uops = 0 then loop
  else ((loop.await next.predecCycle).advance next.ins).assign next

end Decode

def BasicBlock.decode : Decode := block.predecode.foldl Decode.step Decode.initial

/-! ## Predecoding -/

/-- What one cycle of the predecoder can take. -/
structure PredecodeFits (group : List Predecoded) : Prop where
  count : group.length ≤ 6
  size : (group.map fun item => item.ins.bytes).sum ≤ 16 ∨ group.length ≤ 1
  block : ∀ first ∈ group, ∀ second ∈ group, first.ins.addr / 16 = second.ins.addr / 16

theorem PredecodeFits.single (item : Predecoded) : PredecodeFits [item] where
  count := Nat.succ_le_succ (Nat.zero_le 5)
  size := Or.inr (Nat.le_refl 1)
  block := forall_mem_singleton.mpr (forall_mem_singleton.mpr rfl)

namespace Predecode

variable {startAddr : Nat} {loop : Predecode} {ins : Instr}

theorem done_step (startAddr : Nat) (loop : Predecode) (ins : Instr) :
    (step startAddr loop ins).done.map Predecoded.ins = loop.done.map Predecoded.ins ++ [ins] := by
  unfold step
  dsimp only
  split
  all_goals exact map_append

/-- The instructions of the current cycle. -/
def current (loop : Predecode) : List Predecoded :=
  bundle Predecoded.predecCycle loop.pcyc loop.done

/-- The counters are about the current cycle. -/
structure Counts (startAddr : Nat) (loop : Predecode) : Prop where
  bundled : Bundled Predecoded.predecCycle PredecodeFits loop.pcyc loop.done
  count : loop.pcnt = loop.current.length
  size : loop.psz = (loop.current.map fun item => item.ins.bytes).sum
  block : ∀ item ∈ loop.current, item.ins.addr / 16 = startAddr / 16 + loop.pblk

theorem counts_initial (startAddr : Nat) : Counts startAddr initial where
  bundled := Bundled.nil
    { count := Nat.zero_le 6
      size := Or.inl (Nat.zero_le 16)
      block := nofun }
  count := rfl
  size := rfl
  block := nofun

section

variable (counts : Counts startAddr loop)
include counts

/-- The instruction opens a cycle. -/
theorem Counts.opens {pblk : Nat} (isBlock : ins.addr / 16 = startAddr / 16 + pblk) :
    Counts startAddr ⟨loop.pcyc + 1, ins.bytes, 1, pblk, loop.done ++ [⟨ins, loop.pcyc + 1⟩]⟩ := by
  have empty : bundle Predecoded.predecCycle (loop.pcyc + 1) loop.done = [] :=
    counts.bundled.bundle_eq_nil (Nat.lt_succ_self _)
  have single : bundle Predecoded.predecCycle (loop.pcyc + 1)
      (loop.done ++ [⟨ins, loop.pcyc + 1⟩]) = [⟨ins, loop.pcyc + 1⟩] := by
    have grown := bundle_concat_self Predecoded.predecCycle loop.done ⟨ins, loop.pcyc + 1⟩
    rwa [empty] at grown
  have allowed : PredecodeFits (bundle Predecoded.predecCycle (loop.pcyc + 1) loop.done ++
        [⟨ins, loop.pcyc + 1⟩]) := by
    rw [empty]
    exact PredecodeFits.single _
  exact {
    bundled := counts.bundled.add ⟨ins, _⟩ (Nat.le_succ _) allowed
    count := by rw [current, single]; rfl
    size := by rw [current, single]; rfl
    block := by
      rw [current, single]
      exact forall_mem_singleton.mpr isBlock }

/-- The instruction joins the current cycle. -/
theorem Counts.joins (size : loop.psz + ins.bytes ≤ 16) (count : loop.pcnt + 1 ≤ 6)
    (isBlock : ins.addr / 16 = startAddr / 16 + loop.pblk) :
    Counts startAddr ⟨loop.pcyc, loop.psz + ins.bytes, loop.pcnt + 1, loop.pblk,
        loop.done ++ [⟨ins, loop.pcyc⟩]⟩ := by
  have grown : bundle Predecoded.predecCycle loop.pcyc
      (loop.done ++ [⟨ins, loop.pcyc⟩]) = loop.current ++ [⟨ins, loop.pcyc⟩] :=
    bundle_concat_self Predecoded.predecCycle loop.done ⟨ins, loop.pcyc⟩
  have total : ((loop.current ++ [Predecoded.mk ins loop.pcyc]).map
      fun item => item.ins.bytes).sum = loop.psz + ins.bytes := by
    rw [map_append, sum_append, ← counts.size]
    rfl
  have length : (loop.current ++ [Predecoded.mk ins loop.pcyc]).length = loop.pcnt + 1 := by
    rw [length_append, ← counts.count]
    rfl
  have blocks : ∀ item ∈ loop.current ++ [⟨ins, loop.pcyc⟩],
      item.ins.addr / 16 = startAddr / 16 + loop.pblk :=
    forall_mem_append.mpr ⟨counts.block, forall_mem_singleton.mpr isBlock⟩
  have allowed : PredecodeFits (loop.current ++ [⟨ins, loop.pcyc⟩]) := {
    count := length ▸ count
    size := .inl (total ▸ size)
    block := by
      intro first isFirst second isSecond
      rw [blocks first isFirst, blocks second isSecond] }
  exact {
    bundled := counts.bundled.add ⟨ins, _⟩ le_rfl allowed
    count := by rw [current, grown, length]
    size := by rw [current, grown, total]
    block := by
      rw [current, grown]
      exact blocks }

/-- An instruction that is not before the current block. -/
theorem Counts.step (aligned : 16 ∣ startAddr)
    (ahead : startAddr / 16 + loop.pblk ≤ ins.addr / 16) :
    Counts startAddr (step startAddr loop ins) ∧
      startAddr / 16 + (Predecode.step startAddr loop ins).pblk = ins.addr / 16 := by
  have isBlock : ins.addr / 16 = startAddr / 16 + (ins.addr - startAddr) / 16 := by omega
  unfold Predecode.step
  dsimp only
  split
  case isTrue full => exact ⟨counts.opens isBlock, isBlock.symm⟩
  case isFalse fits =>
    have same : ins.addr / 16 = startAddr / 16 + loop.pblk := by omega
    exact ⟨counts.joins (by omega) (by omega) same, same.symm⟩

end

theorem Counts.foldl (aligned : 16 ∣ startAddr) {instrs : List Instr}
    (sorted : instrs.Pairwise fun first second => first.addr ≤ second.addr)
    (counts : Counts startAddr loop)
    (ahead : ∀ ins ∈ instrs, startAddr / 16 + loop.pblk ≤ ins.addr / 16) :
    Counts startAddr (instrs.foldl (Predecode.step startAddr) loop) := by
  induction instrs generalizing loop with
  | nil => exact counts
  | cons ins instrs ih =>
    obtain ⟨later, sorted⟩ := pairwise_cons.mp sorted
    obtain ⟨next, isBlock⟩ := counts.step aligned (ahead ins mem_cons_self)
    apply ih sorted next
    intro other mem
    rw [isBlock]
    exact Nat.div_le_div_right (later other mem)

end Predecode

namespace BasicBlock

/-- Every instruction gets a predecode cycle. -/
theorem predecode_instrs : block.predecode.map Predecoded.ins = block.instrs := by
  have general : ∀ (instrs : List Instr) (loop : Predecode),
      (instrs.foldl (Predecode.step block.startAddr) loop).done.map Predecoded.ins =
        loop.done.map Predecoded.ins ++ instrs := by
    intro instrs
    induction instrs with
    | nil => exact fun loop => (append_nil _).symm
    | cons ins instrs ih =>
      intro loop
      rw [foldl_cons, ih, Predecode.done_step, append_assoc]
      rfl
  exact general block.instrs Predecode.initial

/-- The rules of the predecoder hold for every block. -/
theorem predecode_bundled : ∃ last, Bundled Predecoded.predecCycle PredecodeFits last
      block.predecode := by
  have aligned : 16 ∣ block.startAddr := by
    unfold startAddr
    split
    · exact Nat.dvd_zero 16
    · exact Nat.dvd_mul_left 16 _
  have ahead (ins) (mem : ins ∈ block.instrs) : block.startAddr / 16 + 0 ≤ ins.addr / 16 := by
    obtain ⟨_ | ⟨first, rest⟩, inOrder⟩ := block
    · cases mem
    · have notBefore := forall_mem_cons (p := (first.addr ≤ ·.addr)).mpr
        ⟨le_refl _, (pairwise_cons.mp inOrder).1⟩ ins mem
      change first.addr / 16 * 16 / 16 + 0 ≤ ins.addr / 16
      omega
  exact ⟨_, ((Predecode.counts_initial block.startAddr).foldl aligned block.inOrder ahead).bundled⟩

end BasicBlock

/-! ## Decoding -/

/-- How many instructions need the complex decoder. -/
def complexes (group : List Decoded) : Nat := group.countP fun item => !Decode.simple item.ins

def lastCycle (placed : List Decoded) : Nat := (placed.getLast?.map Decoded.decCycle).getD 0

/-- The rule: an instruction is decoded in the first cycle, from that of the last one
on, in which it has been predecoded and a decoder is free for it. -/
def slot (placed : List Decoded) (next : Predecoded) : Nat :=
  let cycle := max next.predecCycle (lastCycle placed)
  let group := bundle Decoded.decCycle cycle placed
  if group.length = 4 ∨ Decode.simple next.ins = false ∧ complexes group = 1 then cycle + 1
  else cycle

def schedule (items : List Predecoded) : List Decoded :=
  items.foldl (fun placed next => placed ++ [⟨next, slot placed next⟩]) []

/-- A complex instruction that has been predecoded comes to a cycle that four simple
ones have taken. -/
def Crowds (placed : List Decoded) (next : Predecoded) : Prop :=
  Decode.simple next.ins = false ∧ next.predecCycle ≤ lastCycle placed ∧
    (bundle Decoded.decCycle (lastCycle placed) placed).length = 4 ∧
    complexes (bundle Decoded.decCycle (lastCycle placed) placed) = 0

instance (placed : List Decoded) (next : Predecoded) : Decidable (Crowds placed next) :=
  inferInstanceAs (Decidable (_ ∧ _))

/-- No complex instruction comes to a cycle that four simple ones have taken by the
rule. -/
def Spacious (items : List Predecoded) : Prop :=
  ∀ before next, before ++ [next] <+: items → ¬ Crowds (schedule before) next

theorem spacious_concat {items : List Predecoded} {next : Predecoded} :
    Spacious (items ++ [next]) ↔ Spacious items ∧ ¬ Crowds (schedule items) next := by
  constructor
  · intro spacious
    refine ⟨fun before other start => spacious before other ?_, spacious items next (prefix_refl _)⟩
    exact start.trans (prefix_append _ _)
  · rintro ⟨spacious, free⟩ before other start
    rcases prefix_concat_iff.mp start with same | earlier
    · obtain ⟨isItems, isNext⟩ := append_inj' same rfl
      cases isNext
      exact isItems ▸ free
    · exact spacious before other earlier

/-- No cycle decodes more than four instructions. -/
def Narrow (placed : List Decoded) : Prop :=
  ∀ cycle, (bundle Decoded.decCycle cycle placed).length ≤ 4

theorem narrow_concat {placed : List Decoded} {item : Decoded} : Narrow (placed ++ [item]) ↔
    Narrow placed ∧ (bundle Decoded.decCycle item.decCycle placed).length < 4 := by
  constructor
  · intro narrow
    refine ⟨fun cycle => (narrow cycle).trans' ?_, ?_⟩
    · rw [bundle, bundle, filter_append, length_append]
      exact Nat.le_add_right _ _
    · have here := narrow item.decCycle
      rwa [bundle_concat_self, length_append] at here
  · rintro ⟨narrow, room⟩ cycle
    by_cases here : item.decCycle = cycle
    · rwa [← here, bundle_concat_self, length_append]
    · rw [bundle_concat_of_ne here]
      exact narrow cycle

namespace Decode

variable {loop : Decode} {next : Predecoded}

/-- The instructions of the current cycle. -/
def current (loop : Decode) : List Decoded := bundle Decoded.decCycle loop.dcyc loop.done

/-- The counters are about the current cycle. -/
structure Counts (loop : Decode) : Prop where
  bundled : Bundled Decoded.decCycle (complexes · ≤ 1) loop.dcyc loop.done
  count : loop.dsimple + loop.dcomplex = loop.current.length
  complexes : loop.dcomplex = complexes loop.current
  predecoded : ∀ item ∈ loop.done, item.predecCycle ≤ item.decCycle
  uops : loop.uopVec = loop.done.flatMap fun item =>
    List.replicate item.ins.uops item.decCycle

theorem counts_initial : Counts initial where
  bundled := Bundled.nil (Nat.zero_le 1)
  count := rfl
  complexes := rfl
  predecoded := nofun
  uops := rfl

/-- Nothing has been decoded in a new cycle. -/
theorem Counts.newCycle (counts : Counts loop) {cycle : Nat} (later : loop.dcyc < cycle) :
    Counts { loop with dcyc := cycle, dsimple := 0, dcomplex := 0 } := by
  have empty : bundle Decoded.decCycle cycle loop.done = [] := counts.bundled.bundle_eq_nil later
  exact {
    bundled := counts.bundled.leave later.le
    count := by rw [current, empty]; rfl
    complexes := by rw [current, empty]; rfl
    predecoded := counts.predecoded
    uops := counts.uops }

/-- The cycle of the next instruction, and what is free in it. -/
structure Ready (loop ready : Decode) (next : Predecoded) : Prop where
  counts : Counts ready
  done : ready.done = loop.done
  predecoded : next.predecCycle ≤ ready.dcyc
  complex : simple next.ins = false → ready.dcomplex = 0
  narrow : Narrow loop.done → loop.dcyc = lastCycle loop.done →
    if Crowds loop.done next then ready.dsimple + ready.dcomplex = 4
    else ready.dsimple + ready.dcomplex < 4 ∧ ready.dcyc = slot loop.done next

theorem Counts.ready (counts : Counts loop) (next : Predecoded) :
    Ready loop ((loop.await next.predecCycle).advance next.ins) next := by
  have atMost : loop.dcomplex ≤ 1 := counts.complexes ▸ counts.bundled.fits loop.dcyc
  by_cases later : loop.dcyc < next.predecCycle
  · have opened := counts.newCycle later
    rw [await, if_pos later, advance, if_neg (by simp)]
    refine ⟨opened, rfl, le_rfl, fun _ => rfl, fun _ isLast => ?_⟩
    have cycle : max next.predecCycle (lastCycle loop.done) = next.predecCycle := by omega
    have empty := counts.bundled.bundle_eq_nil later
    rw [if_neg fun crowds => absurd crowds.2.1 (by omega), slot, cycle, empty]
    simp [Core.complexes]
  · rw [await, if_neg later]
    -- The rule in terms of the counters.
    have rule (isLast : loop.dcyc = lastCycle loop.done) :
        (Crowds loop.done next ↔ simple next.ins = false ∧ loop.dsimple + loop.dcomplex = 4 ∧
          loop.dcomplex = 0) ∧
        slot loop.done next = if loop.dsimple + loop.dcomplex = 4 ∨
          simple next.ins = false ∧ loop.dcomplex = 1 then loop.dcyc + 1 else loop.dcyc := by
      have cycle : max next.predecCycle (lastCycle loop.done) = loop.dcyc := by omega
      rw [Crowds, slot, cycle, ← isLast, counts.count, counts.complexes]
      exact ⟨⟨fun crowds => ⟨crowds.1, crowds.2.2⟩, fun crowds => ⟨crowds.1, by omega, crowds.2⟩⟩,
        rfl⟩
    have width (narrow : Narrow loop.done) : loop.dsimple + loop.dcomplex ≤ 4 :=
      counts.count ▸ narrow loop.dcyc
    rw [advance]
    split
    case isTrue full =>
      refine ⟨counts.newCycle (Nat.lt_succ_self _), rfl, by simp only; omega, fun _ => rfl, ?_⟩
      intro narrow isLast
      obtain ⟨crowds, isSlot⟩ := rule isLast
      rw [if_neg (by grind), isSlot, if_pos (by grind)]
      simp
    case isFalse stays =>
      refine ⟨counts, rfl, by omega, by grind, fun narrow isLast => ?_⟩
      obtain ⟨crowds, isSlot⟩ := rule isLast
      have := width narrow
      split
      case isTrue isCrowded => exact (crowds.mp isCrowded).2.1
      case isFalse isFree =>
        rw [isSlot, if_neg (by grind)]
        exact ⟨by grind, rfl⟩

/-- The instruction takes a decoder that is free. -/
theorem Counts.assign (counts : Counts loop) (complex : simple next.ins = false → loop.dcomplex = 0)
    (predecoded : next.predecCycle ≤ loop.dcyc) :
    Counts (loop.assign next) := by
  have grown : (loop.assign next).current = loop.current ++ [⟨next, loop.dcyc⟩] :=
    bundle_concat_self Decoded.decCycle loop.done ⟨next, loop.dcyc⟩
  have isComplex : (loop.assign next).dcomplex =
      Core.complexes (loop.current ++ [⟨next, loop.dcyc⟩]) := by
    rw [Core.complexes, countP_append, ← Core.complexes, ← counts.complexes, countP_singleton]
    unfold Decode.assign
    cases simple next.ins <;> rfl
  have atMost : (loop.assign next).dcomplex ≤ 1 := by
    have before : loop.dcomplex ≤ 1 := counts.complexes ▸ counts.bundled.fits loop.dcyc
    unfold Decode.assign
    cases isSimple : simple next.ins with
    | true => exact before
    | false => simp [complex isSimple]
  exact {
    bundled := counts.bundled.add ⟨next, loop.dcyc⟩ le_rfl (isComplex ▸ atMost)
    count := by
      rw [grown, length_append, ← counts.count]
      unfold Decode.assign
      cases simple next.ins <;> simp <;> omega
    complexes := by rw [grown, isComplex]
    predecoded := forall_mem_append.mpr ⟨counts.predecoded, forall_mem_singleton.mpr predecoded⟩
    uops := by
      unfold Decode.assign
      rw [counts.uops, flatMap_append]
      exact congrArg _ (append_nil _).symm }

/-- The loop after these instructions. -/
structure Follows (items : List Predecoded) (loop : Decode) : Prop where
  counts : Counts loop
  last : loop.dcyc = lastCycle loop.done
  instrs : loop.done.map Decoded.toPredecoded = items
  narrow : Narrow loop.done ↔ Spacious items
  schedule : Narrow loop.done → loop.done = schedule items

theorem follows_initial : Follows [] initial where
  counts := counts_initial
  last := rfl
  instrs := rfl
  narrow := iff_of_true (fun _ => Nat.zero_le 4) fun before next start => by simp at start
  schedule := fun _ => rfl

theorem Follows.step {items : List Predecoded} (follows : Follows items loop)
    (hasUops : next.ins.uops ≠ 0) : Follows (items ++ [next]) (loop.step next) := by
  have ready := follows.counts.ready next
  rw [Decode.step, if_neg hasUops]
  generalize (loop.await next.predecCycle).advance next.ins = found at ready ⊢
  have done : (found.assign next).done = loop.done ++ [⟨next, found.dcyc⟩] := by
    rw [← ready.done]
    rfl
  have room (narrow : Narrow loop.done) :
      (bundle Decoded.decCycle found.dcyc loop.done).length < 4 ↔ ¬ Crowds loop.done next := by
    have isReady := ready.narrow narrow follows.last
    have count := ready.counts.count
    rw [current, ready.done] at count
    split at isReady <;> simp_all
  have narrow : Narrow (found.assign next).done ↔ Spacious (items ++ [next]) := by
    rw [done, narrow_concat, spacious_concat, follows.narrow]
    refine and_congr_right fun spacious => ?_
    have narrow := follows.narrow.mpr spacious
    rw [← follows.schedule narrow]
    exact room narrow
  refine ⟨ready.counts.assign ready.complex ready.predecoded, ?_, ?_, narrow, fun isNarrow => ?_⟩
  · rw [done, lastCycle, getLast?_concat]
    rfl
  · rw [done, map_append, follows.instrs]
    rfl
  · rw [done] at isNarrow ⊢
    obtain ⟨before, free⟩ := narrow_concat.mp isNarrow
    have isReady := ready.narrow before follows.last
    rw [if_neg ((room before).mp free)] at isReady
    rw [isReady.2, Core.schedule, foldl_concat, ← Core.schedule, ← follows.schedule before]

theorem follows_foldl {items : List Predecoded} (hasUops : ∀ item ∈ items, item.ins.uops ≠ 0) :
    Follows items (items.foldl Decode.step initial) := by
  induction items using reverseRecOn with
  | nil => exact follows_initial
  | append_singleton items next ih =>
    rw [forall_mem_append, forall_mem_singleton] at hasUops
    rw [foldl_concat]
    exact (ih hasUops.1).step hasUops.2

end Decode

namespace BasicBlock

/-- The instructions with uops. -/
def decoded : List Predecoded := block.predecode.filter fun item => item.ins.uops != 0

theorem decode_follows : Decode.Follows block.decoded block.decode := by
  have skips : block.decode = block.decoded.foldl Decode.step Decode.initial := by
    rw [decode, decoded, foldl_filter]
    congr 1
    ext loop next
    by_cases noUops : next.ins.uops = 0 <;> simp [Decode.step, noUops]
  rw [skips]
  exact Decode.follows_foldl fun item mem => by simpa using (mem_filter.mp mem).2

/-- The assignment of cycles to the instructions of a block obeys the rules. -/
structure Decodes : Prop where
  instrs : block.predecode.map Predecoded.ins = block.instrs
  predecode : ∀ cycle, PredecodeFits (bundle Predecoded.predecCycle cycle block.predecode)
  withUops : block.decode.done.map Decoded.toPredecoded = block.decoded
  uops : block.decode.uopVec = block.decode.done.flatMap fun item =>
    List.replicate item.ins.uops item.decCycle
  width : ∀ cycle, (bundle Decoded.decCycle cycle block.decode.done).length ≤ 4
  complex : ∀ cycle, complexes (bundle Decoded.decCycle cycle block.decode.done) ≤ 1
  sorted : block.decode.done.Pairwise fun first second => first.decCycle ≤ second.decCycle
  predecoded : ∀ item ∈ block.decode.done, item.predecCycle ≤ item.decCycle

/-- The rules hold for a block if and only if no complex instruction of it comes to a
cycle that four simple ones have taken by the rule. -/
theorem decode_rules_iff (block : BasicBlock) : block.Decodes ↔ Spacious block.decoded := by
  have follows := block.decode_follows
  obtain ⟨last, predecodes⟩ := block.predecode_bundled
  refine ⟨fun decodes => follows.narrow.mp decodes.width, fun spacious => ?_⟩
  exact {
    instrs := block.predecode_instrs
    predecode := predecodes.fits
    withUops := follows.instrs
    uops := follows.counts.uops
    width := follows.narrow.mpr spacious
    complex := follows.counts.bundled.fits
    sorted := follows.counts.bundled.sorted
    predecoded := follows.counts.predecoded }

/-- Five instructions of one byte, the last one complex. -/
def fiveInstrs : BasicBlock where
  instrs := [⟨0, 1, 1⟩, ⟨1, 1, 1⟩, ⟨2, 1, 1⟩, ⟨3, 1, 1⟩, ⟨4, 1, 2⟩]
  inOrder := by simp

/-- A complex instruction joins four simple ones. -/
theorem five_decode_together : (bundle Decoded.decCycle 0 fiveInstrs.decode.done).length = 5 := by
  decide

end BasicBlock

end Damov.Core
