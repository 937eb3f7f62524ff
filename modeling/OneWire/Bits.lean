namespace OneWire

/-- Bit `i` of a byte, counted from the least significant; low from the eighth on. -/
def bitAt (b : UInt8) (i : Nat) : Bool := b.toBitVec.getLsbD i

def withBit (b : UInt8) (i : Nat) (v : Bool) : UInt8 :=
  if v then ⟨b.toBitVec ||| BitVec.twoPow 8 i⟩ else ⟨b.toBitVec &&& ~~~BitVec.twoPow 8 i⟩

def bitsOf (b : UInt8) : List Bool := (List.range 8).map (bitAt b)

/-- The byte whose bits came in this order; missing bits are low, bits past the eighth are
left out. -/
def byteOf (bits : List Bool) : UInt8 := ⟨(BitVec.ofBoolListLE bits).setWidth 8⟩

@[simp] theorem bitAt_of_le (b : UInt8) {i : Nat} (h : 8 ≤ i) : bitAt b i = false :=
  BitVec.getLsbD_of_ge _ _ h

@[simp] theorem bitAt_zero (i : Nat) : bitAt 0 i = false := by simp [bitAt]

theorem bitAt_withBit (b : UInt8) {i : Nat} (h : i < 8) (v : Bool) (j : Nat) :
    bitAt (withBit b i v) j = if i = j then v else bitAt b j := by
  by_cases hj : j < 8
  · by_cases hij : i = j
    · cases v <;> simp [bitAt, withBit, hij, hj]
    · cases v <;> simp [bitAt, withBit, hij, Ne.symm hij, hj]
  · rw [bitAt_of_le _ (by omega), bitAt_of_le _ (by omega), if_neg (by omega)]

theorem bitAt_shiftRight (b : UInt8) (i : Nat) : bitAt (b >>> 1) i = bitAt b (i + 1) := by
  simp [bitAt, Nat.add_comm]

theorem bitAt_shiftLeft (b : UInt8) (i : Nat) :
    bitAt (b <<< 1) i = (decide (i < 8) && decide (0 < i) && bitAt b (i - 1)) := by
  simp [bitAt, Nat.pos_iff_ne_zero, decide_not]

theorem bitAt_xor (a b : UInt8) (i : Nat) : bitAt (a ^^^ b) i = (bitAt a i ^^ bitAt b i) := by
  simp [bitAt]

theorem byte_ext {a b : UInt8} (h : ∀ i < 8, bitAt a i = bitAt b i) : a = b :=
  UInt8.eq_of_toBitVec_eq (BitVec.eq_of_getLsbD_eq h)

theorem and_twoPow_eq_zero_iff (b : UInt8) {i : Nat} (hi : i < 8) :
    b &&& ⟨BitVec.twoPow 8 i⟩ = 0 ↔ bitAt b i = false := by
  constructor
  · intro h
    have hbit := congrArg (bitAt · i) h
    simpa [bitAt, hi] using hbit
  · intro h
    apply byte_ext
    intro j hj
    by_cases hij : i = j
    · subst hij
      simpa [bitAt, hi] using h
    · simp [bitAt, hij]

@[simp] theorem length_bitsOf (b : UInt8) : (bitsOf b).length = 8 := by simp [bitsOf]

@[simp] theorem getElem_bitsOf (b : UInt8) (i : Nat) (h : i < (bitsOf b).length) :
    (bitsOf b)[i] = bitAt b i := by simp [bitsOf]

theorem bitAt_byteOf (bits : List Bool) (i : Nat) :
    bitAt (byteOf bits) i = (decide (i < 8) && bits.getD i false) := by
  simp [bitAt, byteOf, BitVec.getLsbD_setWidth, BitVec.getLsbD_ofBoolListLE]

@[simp] theorem byteOf_bitsOf (b : UInt8) : byteOf (bitsOf b) = b :=
  byte_ext fun i h => by simp [bitAt_byteOf, List.getD_eq_getElem?_getD, h]

theorem bitsOf_byteOf {bits : List Bool} (h : bits.length = 8) : bitsOf (byteOf bits) = bits :=
  List.ext_getElem (by simp [h]) fun i hi hj => by
    simp [bitAt_byteOf, List.getD_eq_getElem?_getD, hj, show i < 8 by omega]

theorem bitsOf_xor (a b : UInt8) :
    bitsOf (a ^^^ b) = List.zipWith (· ^^ ·) (bitsOf a) (bitsOf b) := by
  simp [bitsOf, bitAt_xor, List.zipWith_map, List.zipWith_self]

end OneWire
