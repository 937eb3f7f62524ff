import OneWire.Text.Hex

namespace OneWire

inductive Refusal where
  /-- No presence pulse after a reset, or no answer to a search step. -/
  | noResponse
  | emptyBuffer
  | checksum (computed received : UInt8)
  | exhausted
  /-- The line was low at every step of a search. -/
  | stuckLow
  deriving DecidableEq, Repr

inductive BusError (ε : Type) where
  | refused (reason : Refusal)
  | failed (fault : ε)
  deriving DecidableEq, Repr

def Refusal.message : Refusal → String
  | .noResponse => "no device responded"
  | .emptyBuffer => "invalid argument"
  | .checksum computed received =>
    "crc mismatch: computed " ++ Text.hexBytes [computed] ++ ", received " ++
      Text.hexBytes [received]
  | .exhausted => "no more devices"
  | .stuckLow => "wire stuck low"

def BusError.message {ε : Type} [ToString ε] : BusError ε → String
  | .refused reason => reason.message
  | .failed fault => "port error: " ++ toString fault

structure OutOfBounds where
  length : Nat
  index : Nat
  deriving DecidableEq, Repr

def OutOfBounds.message (e : OutOfBounds) : String :=
  s!"index out of bounds: the len is {e.length} but the index is {e.index}"

end OneWire
