namespace OneWire.Checksum

/-- Which end of the register is shifted out: the least significant bit when bits move right. -/
inductive Shift where
  | right
  | left
  deriving DecidableEq, Repr

structure Register where
  shift : Shift
  polynomial : UInt8
  deriving DecidableEq, Repr

def Register.clock (r : Register) (crc : UInt8) : UInt8 :=
  match r.shift with
  | .right => if crc &&& 1 = 0 then crc >>> 1 else (crc >>> 1) ^^^ r.polynomial
  | .left => if crc &&& 0x80 = 0 then crc <<< 1 else (crc <<< 1) ^^^ r.polynomial

def Register.absorb (r : Register) (crc byte : UInt8) : UInt8 :=
  Nat.repeat r.clock 8 (crc ^^^ byte)

def Register.run (r : Register) (seed : UInt8) (data : List UInt8) : UInt8 :=
  data.foldl r.absorb seed

/-- x⁸ + x⁵ + x⁴ + 1 with its bits reversed, as a register that shifts right needs it. -/
def romPolynomial : UInt8 := 0x8C

/-- Shifts in the low bit of `byte` and drops it: the checksum so far, and the bits left. -/
def shiftIn : UInt8 × UInt8 → UInt8 × UInt8
  | (crc, byte) =>
    (if (crc ^^^ byte) &&& 1 = 0 then crc >>> 1 else (crc >>> 1) ^^^ romPolynomial, byte >>> 1)

def extendByte (crc byte : UInt8) : UInt8 := (Nat.repeat shiftIn 8 (crc, byte)).1

def extend (crc : UInt8) (data : List UInt8) : UInt8 := data.foldl extendByte crc

def ofBytes (data : List UInt8) : UInt8 := extend 0 data

theorem extend_append (crc : UInt8) (a b : List UInt8) :
    extend crc (a ++ b) = extend (extend crc a) b := List.foldl_append

end OneWire.Checksum
