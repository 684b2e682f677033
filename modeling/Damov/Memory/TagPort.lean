import Damov.Library.Checked
import Mathlib.Algebra.Ring.Nat

/-!
# The tag port of the timing cache

The port keeps two scalars for the timeline of its slots: the last slot that is
taken and one hole before it. Hits and misses take the next slot; writebacks and
replacements take the slot before their cycle if it is free, else they try again
later.
-/

namespace Damov.Memory

open Library.Checked

/-- The assertion of the port. -/
inductive TimingFailure where
  | freeCycle
deriving DecidableEq

structure TagPort where
  lastAccCycle : Nat
  lastFreeCycle : Nat
deriving DecidableEq

namespace TagPort

def initial : TagPort := ⟨0, 0⟩

/-- `cycle - 1`, in 64 bits. -/
def before (cycle : Nat) : Nat := if cycle = 0 then 2 ^ 64 - 1 else cycle - 1

def highPrioAccess (cycle : Nat) (port : TagPort) : Except TimingFailure (Nat × TagPort) := do
  check (port.lastFreeCycle ≤ cycle) .freeCycle
  let lookupCycle := max cycle (port.lastAccCycle + 1)
  let lastFreeCycle :=
    if port.lastAccCycle < before cycle then before cycle
    else port.lastFreeCycle
  pure (lookupCycle, ⟨lookupCycle, lastFreeCycle⟩)

/-- The result is 0 if the access is refused. -/
def tryLowPrioAccess (cycle : Nat) (port : TagPort) : Nat × TagPort :=
  if port.lastAccCycle < before cycle ∨ port.lastFreeCycle = before cycle then
    (cycle, ⟨max (before cycle) port.lastAccCycle, 0⟩)
  else
    (0, port)

/-- A call to the port. -/
inductive Call where
  | high (cycle : Nat)
  | low (cycle : Nat)

def Call.cycle : Call → Nat
  | high cycle | low cycle => cycle

/-- One call; the slots are those that were attributed to calls so far. -/
def serve : TagPort × List Nat → Call → Except TimingFailure (TagPort × List Nat)
  | (port, slots), .high cycle => do
    let (slot, port) ← port.highPrioAccess cycle
    pure (port, slot :: slots)
  | (port, slots), .low cycle =>
    let (granted, port) := port.tryLowPrioAccess cycle
    .ok (port, if granted = 0 then slots else (cycle - 1) :: slots)

/-- What the scalars tell at cycle `now`: from there on the taken slots are one
run, and the hole is free. -/
structure Booked (now : Nat) (port : TagPort) (slots : List Nat) : Prop where
  nodup : slots.Nodup
  le_last : ∀ slot ∈ slots, slot ≤ port.lastAccCycle
  taken : ∀ slot, now ≤ slot → slot ≤ port.lastAccCycle → slot ∈ slots
  hole : port.lastFreeCycle ≠ 0 → port.lastFreeCycle < now ∧ port.lastFreeCycle ∉ slots

namespace Booked

variable {now cycle : Nat} {port : TagPort} {slots : List Nat}

theorem mono (booked : Booked now port slots) (le : now ≤ cycle) : Booked cycle port slots where
  nodup := booked.nodup
  le_last := booked.le_last
  taken slot le' := booked.taken slot (le_trans le le')
  hole isHole := (booked.hole isHole).imp_left (lt_of_lt_of_le · le)

/-- The first free slot is taken. -/
theorem high (booked : Booked cycle port slots) (pos : 2 ≤ cycle) :
    Gives (port.highPrioAccess cycle) fun res =>
      Booked cycle res.2 (res.1 :: slots) ∧ ∀ slot, cycle ≤ slot → slot < res.1 → slot ∈ slots := by
  obtain ⟨nodup, le_last, taken, hole⟩ := booked
  have fresh : max cycle (port.lastAccCycle + 1) ∉ slots := fun mem => by
    have := le_last _ mem
    omega
  refine .check (by by_contra; have := hole (by omega); omega) ?_
  refine .pure ⟨⟨List.nodup_cons.mpr ⟨fresh, nodup⟩, ?_, ?_, ?_⟩, ?_⟩
  · grind
  · grind
  · -- a new hole lies after every taken slot, an old one stays
    simp only [before]
    grind
  · grind

theorem low (booked : Booked cycle port slots) (pos : 2 ≤ cycle) :
    let res := port.tryLowPrioAccess cycle
    Booked cycle res.2 (if res.1 = 0 then slots else (cycle - 1) :: slots) := by
  have prev : before cycle = cycle - 1 := if_neg (by omega)
  simp only [tryLowPrioAccess]
  split
  · obtain ⟨nodup, le_last, taken, hole⟩ := booked
    rw [if_neg (by omega)]
    have fresh : cycle - 1 ∉ slots := by grind
    exact ⟨List.nodup_cons.mpr ⟨fresh, nodup⟩, by grind, by grind, by grind⟩
  · exact booked

theorem serve {call : Call} (booked : Booked call.cycle port slots) (pos : 2 ≤ call.cycle) :
    Gives (TagPort.serve (port, slots) call) fun res =>
      Booked call.cycle res.1 res.2 := by
  cases call with
  | high cycle =>
    exact (booked.high pos).bind fun _ after => Gives.pure after.1
  | low cycle => exact .ok (booked.low pos)

theorem run {calls : List Call}
    (sorted : calls.Pairwise fun first second => first.cycle ≤ second.cycle)
    (pos : ∀ call ∈ calls, 2 ≤ call.cycle) :
    Gives (calls.foldlM TagPort.serve (initial, [])) fun res =>
      ∃ now, (∀ cycle, 2 ≤ cycle → (∀ call ∈ calls, call.cycle ≤ cycle) →
        now ≤ cycle) ∧ Booked now res.1 res.2 := by
  refine (Gives.foldlM (fun visited rest res => visited ++ rest = calls ∧
    ∃ now, (∀ cycle, 2 ≤ cycle → (∀ call ∈ visited, call.cycle ≤ cycle) →
      now ≤ cycle) ∧ Booked now res.1 res.2) ?_ calls (initial, [])
    ⟨rfl, 2, fun _ two _ => two, ?_⟩).mono fun res after => after.2
  · rintro visited call rest ⟨port, slots⟩ ⟨rfl, now, least, booked⟩
    have ordered := (List.pairwise_append.mp sorted).2.2
    have two : 2 ≤ call.cycle := pos call (by simp)
    have le := least call.cycle two fun earlier mem =>
      ordered earlier mem call List.mem_cons_self
    apply (serve (booked.mono le) two).mono
    exact fun res after => ⟨by simp, _, fun _ _ last => last call (by simp), after⟩
  · exact ⟨.nil, by simp, by grind [initial], by simp [initial]⟩

end Booked

/-- No slot was attributed twice, and a further high-priority access is served
in a free slot and delayed by taken ones only. -/
def Fair (calls : List Call) (res : TagPort × List Nat) : Prop :=
  res.2.Nodup ∧ ∀ cycle, 2 ≤ cycle → (∀ call ∈ calls, call.cycle ≤ cycle) →
    Gives (res.1.highPrioAccess cycle) fun next => next.1 ∉ res.2 ∧
      ∀ slot, cycle ≤ slot → slot < next.1 → slot ∈ res.2

theorem tag_port_fair (calls : List Call)
    (sorted : calls.Pairwise fun first second => first.cycle ≤ second.cycle)
    (pos : ∀ call ∈ calls, 2 ≤ call.cycle) :
    Gives (calls.foldlM serve (initial, [])) (Fair calls) := by
  apply (Booked.run sorted pos).mono
  rintro res ⟨now, least, booked⟩
  refine ⟨booked.nodup, fun cycle two last => ?_⟩
  apply ((booked.mono (least cycle two last)).high two).mono
  exact fun next after => ⟨(List.nodup_cons.mp after.1.nodup).1, after.2⟩

/-- The low-priority access takes the hole before the first slot. -/
theorem tag_port_fair_hole : Gives ([.high 5, .low 5, .high 5].foldlM serve (initial, []))
        (fun res => res.2 = [6, 4, 5]) ∧
      Gives ([.high 5, .low 5, .high 5].foldlM serve (initial, []))
        (Fair [.high 5, .low 5, .high 5]) :=
  ⟨by decide, tag_port_fair _ (by decide) (by decide)⟩

end TagPort

end Damov.Memory
