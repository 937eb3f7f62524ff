import OneWire.Exchange.Basic

namespace OneWire.Transaction
variable {σ : Type}

def reset : Transaction σ Unit := do
  if ← presence then pure ()
  else
    note .noPresence
    refuse .noResponse

def sendByte (b : UInt8) : Transaction σ Unit := (bitsOf b).forM sendBit

def receiveBits : Nat → Transaction σ (List Bool)
  | 0 => pure []
  | n + 1 => do
    let bit ← receiveBit
    let rest ← receiveBits n
    return bit :: rest

def receiveByte : Transaction σ UInt8 := byteOf <$> receiveBits 8

def send (data : List UInt8) : Transaction σ Unit :=
  if data.isEmpty then refuse .emptyBuffer else data.forM sendByte

/-- Fills a buffer of at least one byte. A byte is stored once its last bit is in, so after a
failure the buffer shows how far it came. -/
def receive {n : Nat} : Transaction (Vector UInt8 n) Unit :=
  if n = 0 then refuse .emptyBuffer
  else (List.finRange n).forM fun i => do
    let b ← receiveByte
    modify (·.set i b)

theorem forM_sendByte (data : List UInt8) :
    (data.forM sendByte : Transaction σ Unit) = (data.flatMap bitsOf).forM sendBit := by
  induction data with
  | nil => rfl
  | cons b data ih =>
    have happend : (bitsOf b ++ data.flatMap bitsOf).forM sendBit =
        (do sendByte b; (data.flatMap bitsOf).forM sendBit : Transaction σ Unit) :=
      List.forM_append
    rw [List.flatMap_cons, happend, ← ih]
    rfl

theorem send_of_ne_nil {data : List UInt8} (h : data ≠ []) :
    (send data : Transaction σ Unit) = (data.flatMap bitsOf).forM sendBit := by
  rw [send, if_neg (by simpa using h), forM_sendByte]

end OneWire.Transaction
