import OneWire.Bits
import OneWire.Checksum
import OneWire.Refusal

namespace OneWire

/-- Family, serial number and checksum, in the order of transmission. -/
structure RomCode where
  bytes : Vector UInt8 8
  deriving DecidableEq, Repr

namespace RomCode

/-- The code of no device: what a line that stays low spells. -/
def zero : RomCode := ⟨.replicate 8 0⟩

instance : Inhabited RomCode := ⟨zero⟩

/-- Missing bytes are zero, bytes past the eighth are left out. -/
def ofList (data : List UInt8) : RomCode := ⟨.ofFn fun i => data.getD i 0⟩

def family (c : RomCode) : UInt8 := c.bytes[0]

def serial (c : RomCode) : Vector UInt8 6 := .ofFn fun i => c.bytes[i.val + 1]

def checksum (c : RomCode) : UInt8 := c.bytes[7]

def computed (c : RomCode) : UInt8 := Checksum.ofBytes (c.bytes.toList.take 7)

def Valid (c : RomCode) : Prop := c.computed = c.checksum

instance (c : RomCode) : Decidable c.Valid := inferInstanceAs (Decidable (_ = _))

def withByte (c : RomCode) (i : Fin 8) (b : UInt8) : RomCode := ⟨c.bytes.set i b⟩

def sealed (c : RomCode) : RomCode := c.withByte 7 c.computed

def make (family : UInt8) (serial : Vector UInt8 6) : RomCode :=
  (ofList (family :: serial.toList)).sealed

def check (c : RomCode) : Except Refusal Unit :=
  if c.Valid then .ok () else .error (.checksum c.computed c.checksum)

def bit (c : RomCode) (p : Fin 64) : Bool := bitAt c.bytes[p.val / 8] (p.val % 8)

def withBit (c : RomCode) (p : Fin 64) (v : Bool) : RomCode :=
  c.withByte ⟨p.val / 8, by omega⟩ (OneWire.withBit c.bytes[p.val / 8] (p.val % 8) v)

def bits (c : RomCode) : List Bool := c.bytes.toList.flatMap bitsOf

/-- The code as one word; the byte sent first is the lowest. -/
def word (c : RomCode) : UInt64 :=
  c.bytes.toList.foldr (fun b w => w <<< 8 ||| b.toUInt64) 0

def ofWord (w : UInt64) : RomCode := ⟨.ofFn fun i => (w >>> (8 * i.val).toUInt64).toUInt8⟩

/-- Codes compare by their bytes, the one sent first deciding first. -/
instance : Ord RomCode := ⟨fun a b => compare a.bytes b.bytes⟩

/-- Positions given from outside, and so possibly past the last. -/
def bit? (c : RomCode) (p : Nat) : Except OutOfBounds Bool :=
  if h : p < 64 then .ok (c.bit ⟨p, h⟩) else .error ⟨8, p / 8⟩

def withBit? (c : RomCode) (p : Nat) (v : Bool) : Except OutOfBounds RomCode :=
  if h : p < 64 then .ok (c.withBit ⟨p, h⟩ v) else .error ⟨8, p / 8⟩

def withByte? (c : RomCode) (i : Nat) (b : UInt8) : Except OutOfBounds RomCode :=
  if h : i < 8 then .ok (c.withByte ⟨i, h⟩ b) else .error ⟨8, i⟩

@[simp] theorem bytes_withByte (c : RomCode) (i : Fin 8) (b : UInt8) :
    (c.withByte i b).bytes = c.bytes.set i b := rfl

theorem bit_withBit (c : RomCode) (p q : Fin 64) (v : Bool) :
    (c.withBit p v).bit q = if p = q then v else c.bit q := by
  simp only [bit, withBit, bytes_withByte, Vector.getElem_set, Fin.ext_iff]
  by_cases h : p.val / 8 = q.val / 8
  · rw [if_pos h, bitAt_withBit _ (by omega)]
    by_cases hm : p.val % 8 = q.val % 8
    · rw [if_pos hm, if_pos (by omega)]
    · rw [if_neg hm, if_neg (by omega)]
      simp only [h]
  · rw [if_neg h, if_neg (by omega)]

theorem ext_bit {c d : RomCode} (h : ∀ p, c.bit p = d.bit p) : c = d := by
  cases c; cases d
  congr 1
  refine Vector.ext fun i hi => byte_ext fun j hj => ?_
  have := h ⟨8 * i + j, by omega⟩
  simpa [bit, show (8 * i + j) / 8 = i by omega, show (8 * i + j) % 8 = j by omega] using this

theorem bits_eq (c : RomCode) : c.bits = (List.finRange 64).map c.bit := by
  have hpos : List.finRange 64 = (List.finRange 8).flatMap fun i =>
      (List.finRange 8).map fun j => ⟨8 * i.val + j.val, by omega⟩ := by decide
  have hbytes : c.bytes.toList = (List.finRange 8).map fun i => c.bytes[i] := by
    apply List.ext_getElem
    · simp
    · simp
  rw [hpos, bits, hbytes, List.flatMap_map, List.map_flatMap]
  congr 1
  funext i
  rw [List.map_map]
  apply List.ext_getElem
  · simp
  · intro j hj hj'
    rw [length_bitsOf] at hj
    simp [bit, show (8 * i.val + j) / 8 = i by omega, show (8 * i.val + j) % 8 = j by omega]

theorem eq_zero_iff {c : RomCode} : c = .zero ↔ ∀ p, c.bit p = false := by
  have hzero : ∀ p, zero.bit p = false := by decide
  constructor
  · rintro rfl
    exact hzero
  · intro h
    exact ext_bit fun p => (h p).trans (hzero p).symm

end RomCode

end OneWire
