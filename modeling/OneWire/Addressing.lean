import OneWire.RomCommand
import OneWire.Transfer

namespace OneWire.Transaction
variable {σ α : Type}

def selectAll : Transaction σ Unit := do
  reset
  sendByte RomCommand.skipRom.code

def select (c : RomCode) : Transaction σ Unit := do
  reset
  sendByte RomCommand.matchRom.code
  send c.bytes.toList

def onBytes (t : Transaction (Vector UInt8 8) α) : Transaction RomCode α :=
  fun c => (t c.bytes).mapKept RomCode.mk

/-- Resets the line and reads the code of the only device into the code that is kept. Several
devices answer at once; the checksum is not looked at. -/
def readCode : Transaction RomCode Unit := do
  reset
  sendByte RomCommand.readRom.code
  onBytes receive

def soleCode : Transaction σ RomCode :=
  within RomCode.zero do
    readCode
    let c ← get
    ofExcept c.check
    return c

end OneWire.Transaction
