import OneWire.Adapter
import OneWire.Timing

namespace OneWire

structure Slots (L ε : Type) where
  /-- A reset pulse; the answer tells whether a device is present. -/
  reset : EStateM ε L Bool
  write : Bool → EStateM ε L Unit
  /-- The answer is the level at the sample. -/
  read : EStateM ε L Bool

namespace Schedule

def resetWindow (s : Schedule) : Window where
  before := [.turn .output, .pullLow, .wait s.timing.resetLow, .release,
    .wait s.timing.presenceWait, .turn .input]
  after := [.wait s.rest.reset, .turn .output]

def writeActions (s : Schedule) : Bool → List Action
  | true => [.turn .output, .pullLow, .wait s.timing.writeOneLow, .release, .wait s.rest.write,
      .wait s.timing.writeRecovery]
  | false => [.turn .output, .pullLow, .wait s.timing.writeSlot, .release,
      .wait s.timing.writeRecovery]

def readWindow (s : Schedule) : Window where
  before := [.turn .output, .pullLow, .wait s.timing.readLow, .release,
    .wait s.timing.readSettle, .turn .input]
  after := [.wait s.rest.read, .wait s.timing.readRecovery, .turn .output]

end Schedule

/-- An adapter worked to a schedule. There is no locking: whoever shares a line takes turns by whole
transactions. -/
structure Master (L ε : Type) where
  adapter : Adapter L ε
  schedule : Schedule

namespace Master
variable {L ε : Type}

def slots (m : Master L ε) : Slots L ε where
  reset := do
    let level ← m.adapter.observe m.schedule.resetWindow
    return !level
  write bit := m.adapter.perform (m.schedule.writeActions bit)
  read := m.adapter.observe m.schedule.readWindow

def ofTiming (adapter : Adapter L ε) (t : Timing) : Except TimingError (Master L ε) :=
  (Schedule.ofTiming t).map (⟨adapter, ·⟩)

def ofTimingOrFault (adapter : Adapter L ε) (t : Timing) : Except String (Master L ε) :=
  (Schedule.ofTimingOrFault t).map (⟨adapter, ·⟩)

end Master

end OneWire
