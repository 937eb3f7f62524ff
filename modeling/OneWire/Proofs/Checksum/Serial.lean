import OneWire.Bits
import OneWire.Checksum

namespace OneWire.Checksum
variable (s : Shift) (r : Register) (crc seed : UInt8)

namespace Shift

def out : Shift → UInt8 → Bool
  | right, b => bitAt b 0
  | left, b => bitAt b 7

def move : Shift → UInt8 → UInt8
  | right, b => b >>> 1
  | left, b => b <<< 1

/-- The bits of a byte in the order in which shifts drop them: the least significant first when bits
move right, the most significant first when they move left. -/
def bits : Shift → UInt8 → List Bool
  | right, b => bitsOf b
  | left, b => (bitsOf b).reverse

@[simp] theorem length_bits (b : UInt8) : (s.bits b).length = 8 := by
  cases s <;> simp [bits]

theorem out_xor (a b : UInt8) : s.out (a ^^^ b) = (s.out a ^^ s.out b) := by
  cases s <;> exact bitAt_xor a b _

theorem move_xor (a b : UInt8) : s.move (a ^^^ b) = s.move a ^^^ s.move b := by
  apply byte_ext
  intro i hi
  cases s with
  | right => simp only [move, bitAt_xor, bitAt_shiftRight]
  | left => simp only [move, bitAt_xor, bitAt_shiftLeft, Bool.and_xor_distrib_left]

theorem bits_xor (a b : UInt8) :
    s.bits (a ^^^ b) = List.zipWith (· ^^ ·) (s.bits a) (s.bits b) := by
  cases s with
  | right => exact bitsOf_xor a b
  | left => simp [bits, bitsOf_xor, List.reverse_zipWith]

theorem exists_bits (b : UInt8) : ∃ rest : List Bool, rest.length = 7 ∧
    s.bits b = s.out b :: rest ∧ s.bits (s.move b) = rest ++ [false] := by
  cases s with
  | right =>
    refine ⟨(bitsOf b).tail, by simp, ?_, ?_⟩
    · simp [bits, bitsOf, List.range_succ, out]
    · simp [bits, bitsOf, List.range_succ, move, bitAt_shiftRight]
  | left =>
    refine ⟨(bitsOf b).reverse.tail, by simp, ?_, ?_⟩
    · simp [bits, bitsOf, List.range_succ, out]
    · simp [bits, bitsOf, List.range_succ, move, bitAt_shiftLeft]

def dropped (n : Nat) (b : UInt8) : List Bool :=
  (List.range n).map fun i => s.out (Nat.repeat s.move i b)

theorem dropped_succ (n : Nat) (b : UInt8) :
    s.dropped (n + 1) b = s.dropped n b ++ [s.out (Nat.repeat s.move n b)] := by
  simp [dropped, List.range_succ]

theorem dropped_eight (b : UInt8) : s.dropped 8 b = s.bits b := by
  cases s with
  | right => simp [dropped, bits, bitsOf, List.range_succ, Nat.repeat, out, move, bitAt_shiftRight]
  | left => simp [dropped, bits, bitsOf, List.range_succ, Nat.repeat, out, move, bitAt_shiftLeft]

theorem repeat_move_eight (b : UInt8) : Nat.repeat s.move 8 b = 0 := by
  apply byte_ext
  intro i hi
  rw [bitAt_zero]
  cases s with
  | right => simp [Nat.repeat, move, bitAt_shiftRight]
  | left =>
    simp only [Nat.repeat, move, bitAt_shiftLeft, Bool.and_eq_false_iff, decide_eq_false_iff_not]
    omega

end Shift

namespace Register

def feedback (differ : Bool) : UInt8 := if differ then r.polynomial else 0

/-- One bit comes in as another is dropped. -/
def feed (bit : Bool) : UInt8 := r.shift.move crc ^^^ r.feedback (r.shift.out crc ^^ bit)

theorem feedback_xor (x y : Bool) : r.feedback (x ^^ y) = r.feedback x ^^^ r.feedback y := by
  cases x <;> cases y <;> simp [feedback]

/-- A register is linear in what it holds and what comes in. -/
theorem feed_xor (a b : UInt8) (x y : Bool) :
    r.feed (a ^^^ b) (x ^^ y) = r.feed a x ^^^ r.feed b y := by
  have hdiffer : (r.shift.out (a ^^^ b) ^^ (x ^^ y)) =
      ((r.shift.out a ^^ x) ^^ (r.shift.out b ^^ y)) := by
    simp only [Shift.out_xor, Bool.xor_assoc, Bool.xor_left_comm]
  simp only [feed, hdiffer, feedback_xor, Shift.move_xor]
  ac_rfl

theorem foldl_feed_xor {a b : List Bool} (h : a.length = b.length) (x y : UInt8) :
    (List.zipWith (· ^^ ·) a b).foldl r.feed (x ^^^ y) = a.foldl r.feed x ^^^ b.foldl r.feed y := by
  induction a generalizing b x y with
  | nil =>
    obtain rfl := List.eq_nil_of_length_eq_zero h.symm
    rfl
  | cons bit a ih =>
    obtain _ | ⟨bit', b⟩ := b
    · cases h
    · rw [List.zipWith_cons_cons, List.foldl_cons, feed_xor, ih (Nat.succ.inj h)]
      rfl

theorem feed_out (b : UInt8) : r.feed b (r.shift.out b) = r.shift.move b := by
  simp [feed, feedback]

theorem clock_eq : r.clock crc = r.feed crc false := by
  obtain ⟨s, polynomial⟩ := r
  cases s with
  | right =>
    have hout : crc &&& 1 = 0 ↔ bitAt crc 0 = false :=
      and_twoPow_eq_zero_iff crc (i := 0) (by decide)
    by_cases h : bitAt crc 0 <;> simp [clock, feed, feedback, Shift.out, Shift.move, hout, h]
  | left =>
    have hout : crc &&& 0x80 = 0 ↔ bitAt crc 7 = false :=
      and_twoPow_eq_zero_iff crc (i := 7) (by decide)
    by_cases h : bitAt crc 7 <;> simp [clock, feed, feedback, Shift.out, Shift.move, hout, h]

theorem foldl_feed_replicate (n : Nat) :
    (List.replicate n false).foldl r.feed crc = Nat.repeat r.clock n crc := by
  induction n with
  | zero => rfl
  | succ n ih =>
    rw [List.replicate_succ', List.foldl_append, ih, Nat.repeat, clock_eq]
    rfl

theorem clock_xor (b : UInt8) :
    r.clock (crc ^^^ b) = r.feed crc (r.shift.out b) ^^^ r.shift.move b := by
  rw [clock_eq, ← feed_out, ← feed_xor, Bool.xor_self]

/-- Of a byte added at once, `n` shifts have fed the first `n` bits; the others are still to come. -/
theorem repeat_clock_xor (n : Nat) (b : UInt8) : Nat.repeat r.clock n (crc ^^^ b) =
    (r.shift.dropped n b).foldl r.feed crc ^^^ Nat.repeat r.shift.move n b := by
  induction n with
  | zero => rfl
  | succ n ih =>
    rw [Nat.repeat, ih, clock_xor, Shift.dropped_succ, List.foldl_append]
    rfl

theorem absorb_eq (b : UInt8) : r.absorb crc b = (r.shift.bits b).foldl r.feed crc := by
  rw [absorb, repeat_clock_xor, Shift.dropped_eight, Shift.repeat_move_eight, UInt8.xor_zero]

theorem run_eq (data : List UInt8) :
    r.run seed data = (data.flatMap r.shift.bits).foldl r.feed seed := by
  have hbyte : r.absorb = fun crc b => (r.shift.bits b).foldl r.feed crc := by
    funext crc b
    exact r.absorb_eq crc b
  rw [run, hbyte, List.foldl_flatMap]

def rom : Register := ⟨.right, romPolynomial⟩

end Register

theorem shiftIn_eq (b : UInt8) :
    shiftIn (crc, b) = (Register.rom.feed crc (Shift.right.out b), Shift.right.move b) := by
  have hout : (crc ^^^ b) &&& 1 = 0 ↔ (bitAt crc 0 ^^ bitAt b 0) = false := by
    rw [← bitAt_xor]
    exact and_twoPow_eq_zero_iff (crc ^^^ b) (i := 0) (by decide)
  by_cases h : (bitAt crc 0 ^^ bitAt b 0) = true <;>
    simp [shiftIn, Register.feed, Register.feedback, Register.rom, Shift.out, Shift.move, hout, h]

theorem repeat_shiftIn (n : Nat) (b : UInt8) : Nat.repeat shiftIn n (crc, b) =
    ((Shift.right.dropped n b).foldl Register.rom.feed crc, Nat.repeat Shift.right.move n b) := by
  induction n with
  | zero => rfl
  | succ n ih =>
    rw [Nat.repeat, ih, shiftIn_eq, Shift.dropped_succ, List.foldl_append]
    rfl

/-- The states on the way differ, but not once the whole byte is in. -/
theorem extendByte_eq (b : UInt8) : extendByte crc b = Register.rom.absorb crc b := by
  rw [extendByte, repeat_shiftIn, Shift.dropped_eight, Register.absorb_eq]
  rfl

theorem extend_eq_run (data : List UInt8) : extend seed data = Register.rom.run seed data := by
  have hbyte : extendByte = Register.rom.absorb := by
    funext crc b
    exact extendByte_eq crc b
  rw [extend, Register.run, hbyte]

/-- However a checksum is computed and wherever its data are cut: a byte or a bit at a time, and each
part continued from the one before, it is the checksum of the whole. -/
theorem extend_in_parts (seed : UInt8) :
    (∀ data, extend seed data = Register.run ⟨.right, 0x8C⟩ seed data) ∧
    ∀ parts : List (List UInt8), parts.foldl extend seed = extend seed parts.flatten ∧
      ∀ r : Register, parts.foldl r.run seed = r.run seed parts.flatten := by
  refine ⟨extend_eq_run seed, fun parts => ⟨?_, fun r => ?_⟩⟩
  · exact List.foldl_flatten.symm
  · exact List.foldl_flatten.symm

end OneWire.Checksum
