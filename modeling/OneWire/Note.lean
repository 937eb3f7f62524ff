import OneWire.RomCode.Text

namespace OneWire

inductive Level where
  | trace
  | debug
  | warn
  deriving DecidableEq, Repr

def Level.name : Level → String
  | trace => "TRACE"
  | debug => "DEBUG"
  | warn => "WARN"

inductive Note where
  | noPresence
  /-- A pass of the search begins; it takes the high branch at this position. -/
  | searchPass (branch : Option Nat)
  | zeroCode
  | badChecksum (code : RomCode)
  | found (code : RomCode)
  deriving DecidableEq, Repr

namespace Note

def level : Note → Level
  | noPresence => .debug
  | searchPass _ => .trace
  | zeroCode => .warn
  | badChecksum _ => .warn
  | found _ => .debug

def text : Note → String
  | noPresence => "no presence pulse after reset"
  | searchPass none => "search pass, high branch at None"
  | searchPass (some p) => s!"search pass, high branch at Some({p})"
  | zeroCode => "search returned an all-zero ROM code, line stuck low?"
  | badChecksum code => s!"search returned {code} with bad crc"
  | found code => s!"found device {code}"

def line (n : Note) : String := n.level.name ++ " " ++ n.text

end Note

end OneWire
