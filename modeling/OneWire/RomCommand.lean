namespace OneWire

inductive RomCommand where
  | matchRom
  | searchRom
  | skipRom
  | readRom
  deriving DecidableEq, Repr

namespace RomCommand

def code : RomCommand → UInt8
  | matchRom => 0x55
  | searchRom => 0xF0
  | skipRom => 0xCC
  | readRom => 0x33

def ofCode? (b : UInt8) : Option RomCommand :=
  [matchRom, searchRom, skipRom, readRom].find? (·.code == b)

@[simp] theorem ofCode?_code (c : RomCommand) : ofCode? c.code = some c := by
  cases c <;> rfl

end RomCommand

end OneWire
