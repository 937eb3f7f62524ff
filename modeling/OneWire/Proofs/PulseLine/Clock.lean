import Mathlib.Algebra.Ring.Nat
import OneWire.Proofs.PulseLine.Idle

namespace OneWire

namespace Schedule
variable (s : Schedule)

/-- How long a slot lasts, in microseconds. After a reset pulse the line is left free for as long as
it was held. -/
def duration : SlotCall → Nat
  | .reset => 2 * s.timing.resetLow.toNat
  | .write _ => s.timing.writeSlot.toNat + s.timing.writeRecovery.toNat
  | .read => s.timing.readSlot.toNat + s.timing.readRecovery.toNat

/-- How long a slot holds the line low, in microseconds. -/
def lowPhase : SlotCall → Nat
  | .reset => s.timing.resetLow.toNat
  | .write true => s.timing.writeOneLow.toNat
  | .write false => s.timing.writeSlot.toNat
  | .read => s.timing.readLow.toNat

def span (slots : List SlotCall) : Nat := (slots.map s.duration).sum

@[simp] theorem span_append (first second : List SlotCall) :
    s.span (first ++ second) = s.span first + s.span second := by simp [span]

end Schedule

namespace PulseLine

variable {line mid later : PulseLine}

@[simp] theorem pulses_level (line : PulseLine) : line.level.2.pulses = line.pulses := by
  rw [level_eq]

/-- The line when nobody holds it any more: `us` microseconds have passed, and low pulses of these
widths have been added to the record. -/
structure Moves (line : PulseLine) (us : Nat) (widths : List Nat) (later : PulseLine) : Prop where
  lowSince : later.lowSince = none
  elapsed : later.elapsed = line.elapsed + 1000 * us
  pulses : later.pulses.toList = line.pulses.toList ++ widths.map (1000 * ·)

theorem Moves.refl (h : line.lowSince = none) : Moves line 0 [] line := ⟨h, rfl, by simp⟩

theorem Moves.trans {us us' : Nat} {widths widths' : List Nat} (h : Moves line us widths mid)
    (h' : Moves mid us' widths' later) : Moves line (us + us') (widths ++ widths') later := by
  refine ⟨h'.lowSince, ?_, ?_⟩
  · rw [h'.elapsed, h.elapsed]
    omega
  · rw [h'.pulses, h.pulses, List.map_append, List.append_assoc]

section Slots
variable (s : Schedule) (h : line.lowSince = none)
include h

end Slots

end PulseLine

end OneWire
