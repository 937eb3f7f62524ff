import OneWire.Device
import OneWire.Adapter
import OneWire.Wait

namespace OneWire

/-- What the model reports: a failure that was asked for, or a line driven while it is sampled or
sampled while it is driven. -/
inductive LineFault where
  | injected
  | direction
  deriving DecidableEq, Repr

instance : ToString LineFault where
  toString
    | .injected => "Fault"
    | .direction => "Direction"

/-- A short low pulse, not yet known to be a written one or a read slot. -/
structure PendingSlot where
  start : Nat
  answer : Option Bool := none
  deriving DecidableEq, Repr

/-- A line whose devices tell low pulses apart by their widths and answer by holding it low for a
while. Times are in nanoseconds. -/
structure PulseLine where
  devices : List Device
  /-- The time that has passed; the clock of 64 bits that shows it is `clock`. -/
  elapsed : Nat := 0
  direction : Direction := .output
  /-- When the master pulled the line low, while it holds it. -/
  lowSince : Option Nat := none
  pending : Option PendingSlot := none
  resetEnd : Option Nat := none
  shorted : Bool := false
  pulses : Array Nat := #[]
  written : Array Bool := #[]
  attempts : Nat := 0
  /-- The number of the attempt that fails. -/
  failAt : Option Nat := none
  deriving DecidableEq, Repr

namespace PulseLine

def resetWidth : Nat := 240000

def zeroWidth : Nat := 15000

/-- How long from the falling edge a device holds the line low to answer a zero. -/
def hold : Nat := 15000

/-- When presence shows, counted from the end of the reset pulse. -/
def presenceFrom : Nat := 15000

def presenceUntil : Nat := 135000

def ofCodes (codes : List RomCode) : PulseLine := { devices := codes.map fun code => { code } }

def deliver (line : PulseLine) (bit : Bool) : PulseLine :=
  { line with written := line.written.push bit, devices := line.devices.map (·.hear bit) }

/-- Ends a pending slot; one that was never sampled was a written one. -/
def settle (line : PulseLine) : PulseLine :=
  match line.pending with
  | none => line
  | some slot =>
    let line := { line with pending := none }
    if slot.answer.isNone then line.deliver true else line

/-- The time that has passed since a time remembered. Devices go by time in no other way. -/
def since (line : PulseLine) (stamp : Nat) : Nat := line.elapsed - stamp

def fall (line : PulseLine) : PulseLine :=
  match line.lowSince with
  | some _ => line
  | none => { line.settle with lowSince := some line.elapsed }

def endPulse (line : PulseLine) (start : Nat) : PulseLine :=
  let width := line.since start
  let line := { line with lowSince := none, pulses := line.pulses.push width }
  if resetWidth ≤ width then
    { line with resetEnd := some line.elapsed, devices := line.devices.map (·.reset) }
  else if zeroWidth ≤ width then line.deliver false
  else { line with pending := some { start } }

def rise (line : PulseLine) : PulseLine :=
  match line.lowSince with
  | none => line
  | some start => line.endPulse start

def presence (line : PulseLine) : Bool :=
  match line.resetEnd with
  | none => false
  | some time =>
    presenceFrom ≤ line.since time && line.since time < presenceUntil && !line.devices.isEmpty

/-- The level at a sample. The first sample of a slot makes the devices answer; a later one sees
the same answer, until the devices let go. -/
def level (line : PulseLine) : Bool × PulseLine :=
  if line.lowSince.isSome || line.shorted then (false, line)
  else match line.pending with
    | none => (!line.presence, line)
    | some slot =>
      let late : Bool := hold ≤ line.since slot.start
      match slot.answer with
      | some answer => (answer || late, line)
      | none =>
        let (answer, devices) := answerAll line.devices
        (answer || late,
          { line with devices, pending := some { slot with answer := some answer } })

def advance (line : PulseLine) (ns : Nat) : PulseLine := { line with elapsed := line.elapsed + ns }

/-- The clock of the line, a word that wraps. -/
def clock (line : PulseLine) : UInt64 := .ofNat line.elapsed

/-- The clock of a program that stops rather than let it overflow. -/
def checkedClock (line : PulseLine) : Option UInt64 :=
  if line.elapsed < UInt64.size then some line.clock else none

def short (line : PulseLine) : PulseLine := { line with shorted := true }

def failOn (line : PulseLine) (number : Nat) : PulseLine := { line with failAt := some number }

def failIn (line : PulseLine) (n : Nat) : PulseLine := line.failOn (line.attempts + n)

def attempt : EStateM LineFault PulseLine Unit := fun line =>
  let line := { line with attempts := line.attempts + 1 }
  if line.failAt = some line.attempts then .error .injected line else .ok () line

def require (direction : Direction) : EStateM LineFault PulseLine Unit := fun line =>
  if line.direction = direction then .ok () line else .error .direction line

def wire : Wire PulseLine LineFault where
  turn direction := do
    attempt
    modify ({ · with direction })
  pullLow := do
    attempt
    require .output
    modify fall
  release := do
    attempt
    require .output
    modify rise
  sample := do
    attempt
    require .input
    modifyGet level

def pause (ns : UInt32) : EStateM LineFault PulseLine Unit := modify (·.advance ns.toNat)

/-- Two timers: one that pauses in parts, and one whose every wait is an attempt that can fail. -/
inductive Timer where
  | plain
  | counted
  deriving DecidableEq, Repr

def wait : Timer → UInt32 → EStateM LineFault PulseLine Unit
  | .plain, us => Wait.split pause us
  | .counted, us => do
    attempt
    modify (·.advance (us.toNat * 1000))

def adapter (timer : Timer) : Adapter PulseLine LineFault := { wire with wait := wait timer }

def microseconds (line : PulseLine) : Nat := line.clock.toNat / 1000

def pulseWidths (line : PulseLine) : List Nat := line.pulses.toList.map (· / 1000)

def selected (line : PulseLine) : List RomCode :=
  (line.devices.filter (·.selected)).map (·.code)

def commands (line : PulseLine) (index : Nat) : Except OutOfBounds (List UInt8) :=
  match line.devices[index]? with
  | some d => .ok d.commands.toList
  | none => .error ⟨line.devices.length, index⟩

end PulseLine

end OneWire
