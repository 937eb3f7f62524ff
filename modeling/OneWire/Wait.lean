import OneWire.Duration

namespace OneWire.Wait

/-- The longest whole number of microseconds that fits one part. -/
def longest : Nat := 4294967

def fullParts (us : UInt32) : Nat := (us.toNat - 1) / longest

/-- What is left for the last part, at most `longest`; zero only for no wait at all. -/
def lastPart (us : UInt32) : Nat := us.toNat - fullParts us * longest

def parts (us : UInt32) : List UInt32 :=
  List.replicate (fullParts us) (.ofNat (longest * 1000)) ++ [.ofNat (lastPart us * 1000)]

def split {L ε : Type} (pause : UInt32 → EStateM ε L Unit) (us : UInt32) : EStateM ε L Unit :=
  (parts us).forM pause

theorem lastPart_le (us : UInt32) : lastPart us ≤ longest := by
  simp only [lastPart, fullParts, longest]
  omega

theorem fullParts_lastPart (us : UInt32) :
    fullParts us * longest + lastPart us = us.toNat := by
  simp only [lastPart, fullParts, longest]
  omega

theorem toNat_lastPart (us : UInt32) :
    (UInt32.ofNat (lastPart us * 1000)).toNat = lastPart us * 1000 := by
  have h := lastPart_le us
  exact UInt32.toNat_ofNat_of_lt' (by simp only [longest, UInt32.size] at *; omega)

theorem toNat_longest : (UInt32.ofNat (longest * 1000)).toNat = longest * 1000 :=
  UInt32.toNat_ofNat_of_lt' (by simp only [longest, UInt32.size]; omega)

theorem total_parts (us : UInt32) : Duration.total (parts us) = us.toNat * 1000 := by
  rw [parts, Duration.total_append, Duration.total_replicate, toNat_longest, Duration.total_cons,
    toNat_lastPart, Duration.total_nil, Nat.add_zero, ← Nat.mul_assoc, ← Nat.add_mul,
    fullParts_lastPart]

end OneWire.Wait
