import OneWire.Device
import OneWire.Master

namespace OneWire

/-- A line without a clock: each time slot is one step, and nothing fails. It says what the pulses
of a line are to mean. -/
structure SlotLine where
  devices : List Device
  written : Array Bool := #[]
  deriving DecidableEq, Repr

namespace SlotLine

def ofCodes (codes : List RomCode) : SlotLine := { devices := codes.map fun code => { code } }

def reset (line : SlotLine) : SlotLine := { line with devices := line.devices.map (·.reset) }

def write (line : SlotLine) (bit : Bool) : SlotLine :=
  { line with written := line.written.push bit, devices := line.devices.map (·.hear bit) }

/-- The answer of all devices together; a master that samples too late hears a one. -/
def read (inTime : Bool) (line : SlotLine) : Bool × SlotLine :=
  let (answer, devices) := answerAll line.devices
  (answer || !inTime, { line with devices })

def slots {ε : Type} (inTime : Bool) : Slots SlotLine ε where
  reset := modifyGet fun line => (!line.devices.isEmpty, line.reset)
  write bit := modify (·.write bit)
  read := modifyGet (read inTime)

end SlotLine

end OneWire
