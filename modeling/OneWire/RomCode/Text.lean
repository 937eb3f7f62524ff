import OneWire.RomCode.Basic
import OneWire.Text.Blank

namespace OneWire.RomCode

inductive ParseError where
  | notEnough
  /-- A pair with something that is not a digit, or more than eight bytes. -/
  | invalid
  deriving DecidableEq, Repr

def isSeparator (c : Char) : Bool := Text.isBlank c || c == ':'

/-- Exactly `n` bytes. A pair counts once both its characters are there, so what is wrong in a
pair is seen before a missing one, and a lone last character is not looked at. -/
def parseBytes : Nat → List Char → Except ParseError (List UInt8)
  | 0, [] => .ok []
  | 0, _ :: _ => .error .invalid
  | n + 1, high :: low :: rest =>
    match Text.hexByte? high low with
    | some b => (parseBytes n rest).map (b :: ·)
    | none => .error .invalid
  | _ + 1, _ => .error .notEnough

def parse (text : String) : Except ParseError RomCode :=
  (parseBytes 8 (text.toList.filter (!isSeparator ·))).map ofList

def joinBytes : List UInt8 → List Char
  | [] => []
  | [b] => Text.hexByte b
  | b :: rest => Text.hexByte b ++ ':' :: joinBytes rest

protected def toString (c : RomCode) : String := .ofList (joinBytes c.bytes.toList)

instance : ToString RomCode := ⟨RomCode.toString⟩

end OneWire.RomCode
