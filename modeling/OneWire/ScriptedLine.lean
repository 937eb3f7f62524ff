import OneWire.Pins

namespace OneWire

inductive Attempt where
  | turn (direction : Direction)
  | pullLow
  | release
  | sample
  | drive (pin : Char) (high : Bool)
  | sense (pin : Char) (high : Bool)
  | wait (us : UInt32)
  | pause (ns : UInt32)
  deriving DecidableEq, Repr

structure Entry where
  attempt : Attempt
  failed : Bool := false
  answer : Option Bool := none
  deriving DecidableEq, Repr

structure AttemptFault where
  number : Nat
  deriving DecidableEq, Repr

instance : ToString AttemptFault := ⟨fun f => s!"Fault({f.number})"⟩

structure ScriptedLine where
  script : List Bool
  idle : Bool := true
  /-- Numbers of the attempts that fail; the first attempt has number 1. -/
  faults : List Nat := []
  attempts : Nat := 0
  samples : Nat := 0
  entries : Array Entry := #[]

namespace ScriptedLine

def attempt (a : Attempt) : EStateM AttemptFault ScriptedLine Unit := fun line =>
  let number := line.attempts + 1
  let failed := number ∈ line.faults
  let line := { line with
    attempts := number, entries := line.entries.push { attempt := a, failed := failed } }
  if failed then .error ⟨number⟩ line else .ok () line

/-- Records an attempt that takes the next level and answers with `f` of it. A failing one takes
none. -/
def ask (a : Attempt) (f : Bool → Bool) : EStateM AttemptFault ScriptedLine Bool := fun line =>
  let number := line.attempts + 1
  if number ∈ line.faults then
    .error ⟨number⟩ { line with
      attempts := number, entries := line.entries.push { attempt := a, failed := true } }
  else
    let answer := f (line.script.headD line.idle)
    .ok answer { line with
      attempts := number
      script := line.script.tail
      samples := line.samples + 1
      entries := line.entries.push { attempt := a, answer := some answer } }

/-- A pause is recorded but is no attempt: it cannot fail. -/
def pause (ns : UInt32) : EStateM AttemptFault ScriptedLine Unit := fun line =>
  .ok () { line with entries := line.entries.push { attempt := .pause ns } }

def wire : Wire ScriptedLine AttemptFault where
  turn direction := attempt (.turn direction)
  pullLow := attempt .pullLow
  release := attempt .release
  sample := ask .sample id

def pin (name : Char) : Pin ScriptedLine AttemptFault where
  isHigh := ask (.sense name true) id
  isLow := ask (.sense name false) not
  setHigh := attempt (.drive name true)
  setLow := attempt (.drive name false)

def wait (us : UInt32) : EStateM AttemptFault ScriptedLine Unit := attempt (.wait us)

def clearEntries (line : ScriptedLine) : ScriptedLine := { line with entries := #[] }

end ScriptedLine

end OneWire
