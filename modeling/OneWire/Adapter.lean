namespace OneWire

inductive Direction where
  | output
  | input
  deriving DecidableEq, Repr

/-- The signal line, high when nothing holds it low. `L` is the state of the line and its timer, `ε`
what either can report as a failure; an action that fails leaves a state too. -/
structure Wire (L ε : Type) where
  turn : Direction → EStateM ε L Unit
  pullLow : EStateM ε L Unit
  release : EStateM ε L Unit
  /-- The level of the line, `true` for high. -/
  sample : EStateM ε L Bool

structure Adapter (L ε : Type) extends Wire L ε where
  wait : UInt32 → EStateM ε L Unit

inductive Action where
  | turn (direction : Direction)
  | pullLow
  | release
  | wait (us : UInt32)
  deriving DecidableEq, Repr

/-- A stretch of time with one sample in it. -/
structure Window where
  before : List Action
  after : List Action
  deriving DecidableEq, Repr

namespace Adapter
variable {L ε : Type}

def act (a : Adapter L ε) : Action → EStateM ε L Unit
  | .turn direction => a.turn direction
  | .pullLow => a.pullLow
  | .release => a.release
  | .wait us => a.wait us

def perform (a : Adapter L ε) : List Action → EStateM ε L Unit
  | [] => pure ()
  | action :: rest => do
    a.act action
    a.perform rest

def observe (a : Adapter L ε) (w : Window) : EStateM ε L Bool := do
  a.perform w.before
  let level ← a.sample
  a.perform w.after
  return level

end Adapter

end OneWire
