namespace OneWire.Text

def hexDigit (n : Nat) : Char := "0123456789abcdef".toList.getD n '0'

def hexValue? (c : Char) : Option Nat :=
  if '0' ≤ c ∧ c ≤ '9' then some (c.toNat - '0'.toNat)
  else if 'a' ≤ c ∧ c ≤ 'f' then some (c.toNat - 'a'.toNat + 10)
  else if 'A' ≤ c ∧ c ≤ 'F' then some (c.toNat - 'A'.toNat + 10)
  else none

/-- Two digits, the upper four bits first. -/
def hexByte (b : UInt8) : List Char := [hexDigit (b.toNat / 16), hexDigit (b.toNat % 16)]

def hexByte? (high low : Char) : Option UInt8 := do
  let upper ← hexValue? high
  let lower ← hexValue? low
  return .ofNat (16 * upper + lower)

def hexBytes (data : List UInt8) : String := .ofList (data.flatMap hexByte)

def hexBytes? : List Char → Option (List UInt8)
  | [] => some []
  | [_] => none
  | h :: l :: rest => do return (← hexByte? h l) :: (← hexBytes? rest)

theorem hexValue?_hexDigit {n : Nat} (h : n < 16) : hexValue? (hexDigit n) = some n := by
  revert n; decide

theorem hexByte?_hexByte (b : UInt8) :
    hexByte? (hexDigit (b.toNat / 16)) (hexDigit (b.toNat % 16)) = some b := by
  have hb := b.toNat_lt
  simp only [hexByte?, hexValue?_hexDigit (show b.toNat / 16 < 16 by omega),
    hexValue?_hexDigit (show b.toNat % 16 < 16 by omega), Option.bind_eq_bind, Option.bind_some,
    Nat.div_add_mod, UInt8.ofNat_toNat, Option.pure_def]

end OneWire.Text
