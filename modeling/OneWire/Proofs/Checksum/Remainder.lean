import Mathlib.Algebra.CharP.Two
import Mathlib.Algebra.Field.ZMod
import Mathlib.Algebra.Polynomial.FieldDivision
import Mathlib.Tactic.LinearCombination
import OneWire.Proofs.Checksum.Serial

namespace OneWire.Checksum
open Polynomial

def coefficient (bit : Bool) : ZMod 2 := if bit then 1 else 0

/-- The polynomial with these coefficients, that of the highest power first. -/
noncomputable def poly : List Bool → (ZMod 2)[X]
  | [] => 0
  | bit :: rest => C (coefficient bit) * X ^ rest.length + poly rest

theorem coefficient_xor (x y : Bool) :
    coefficient (x ^^ y) = coefficient x + coefficient y := by
  cases x <;> cases y <;> decide

theorem poly_append (first second : List Bool) :
    poly (first ++ second) = poly first * X ^ second.length + poly second := by
  induction first with
  | nil => simp [poly]
  | cons bit first ih =>
    rw [List.cons_append, poly, ih, poly, List.length_append]
    ring

theorem poly_zipWith_xor {a b : List Bool} (h : a.length = b.length) :
    poly (List.zipWith (· ^^ ·) a b) = poly a + poly b := by
  induction a generalizing b with
  | nil =>
    obtain rfl := List.eq_nil_of_length_eq_zero h.symm
    simp [poly]
  | cons x a ih =>
    obtain _ | ⟨y, b⟩ := b
    · cases h
    · have hl : a.length = b.length := Nat.succ.inj h
      rw [List.zipWith_cons_cons, poly, ih hl, poly, poly, coefficient_xor, List.length_zipWith,
        hl, Nat.min_self, C_add]
      ring

theorem degree_poly_lt (bits : List Bool) : (poly bits).degree < bits.length := by
  induction bits with
  | nil => simp [poly]
  | cons bit rest ih =>
    rw [poly, List.length_cons]
    apply (degree_add_le _ _).trans_lt
    apply max_lt
    · apply (degree_C_mul_X_pow_le _ _).trans_lt
      exact_mod_cast Nat.lt_succ_self rest.length
    · apply ih.trans
      exact_mod_cast Nat.lt_succ_self rest.length

section Feed
variable (r : Register) (crc seed : UInt8)

theorem poly_bits_xor (s : Shift) (a b : UInt8) :
    poly (s.bits (a ^^^ b)) = poly (s.bits a) + poly (s.bits b) := by
  rw [Shift.bits_xor, poly_zipWith_xor (by simp)]

theorem poly_bits_move (s : Shift) (b : UInt8) : poly (s.bits (s.move b)) =
    poly (s.bits b) * X + C (coefficient (s.out b)) * X ^ 8 := by
  obtain ⟨rest, hl, hb, hm⟩ := s.exists_bits b
  have hlast : poly [false] = 0 := by simp [poly, coefficient]
  have hcancel := CharTwo.add_self_eq_zero (C (coefficient (s.out b)) * X ^ 8 : (ZMod 2)[X])
  rw [hb, hm, poly_append, hlast, poly, hl, List.length_singleton]
  linear_combination -hcancel

theorem poly_bits_feedback (differ : Bool) : poly (r.shift.bits (r.feedback differ)) =
    C (coefficient differ) * poly (r.shift.bits r.polynomial) := by
  cases differ with
  | true => simp [Register.feedback, coefficient]
  | false =>
    have hzero : poly (r.shift.bits 0) = 0 := by
      have hself := poly_bits_xor r.shift 0 0
      rwa [UInt8.xor_self, left_eq_add] at hself
    simp [Register.feedback, coefficient, hzero]

noncomputable def Register.divisor : (ZMod 2)[X] := X ^ 8 + poly (r.shift.bits r.polynomial)

/-- A bit that comes in is the next coefficient of the dividend, and the divisor is taken off once
where it goes into what there is. -/
theorem poly_bits_feed (bit : Bool) : poly (r.shift.bits (r.feed crc bit)) =
    poly (r.shift.bits crc) * X + C (coefficient bit) * X ^ 8 +
      C (coefficient (r.shift.out crc ^^ bit)) * r.divisor := by
  have hcancel :=
    CharTwo.add_self_eq_zero (C (coefficient bit) * X ^ 8 : (ZMod 2)[X])
  rw [Register.feed, poly_bits_xor, poly_bits_move, poly_bits_feedback, Register.divisor,
    coefficient_xor, C_add]
  linear_combination -hcancel

/-- Many bits: the register stays congruent to the dividend so far. -/
theorem divisor_dvd_foldl_feed (bits : List Bool) : r.divisor ∣
    poly (r.shift.bits (bits.foldl r.feed crc)) -
      (poly (r.shift.bits crc) * X ^ bits.length + poly bits * X ^ 8) := by
  induction bits generalizing crc with
  | nil => simp [poly]
  | cons bit bits ih =>
    have hstep : r.divisor ∣ (poly (r.shift.bits (r.feed crc bit)) -
        (poly (r.shift.bits crc) * X + C (coefficient bit) * X ^ 8)) * X ^ bits.length := by
      rw [poly_bits_feed, add_sub_cancel_left]
      exact Dvd.dvd.mul_right (dvd_mul_left _ _) _
    have hsum := dvd_add (ih (r.feed crc bit)) hstep
    rw [List.foldl_cons, List.length_cons, poly]
    convert hsum using 1
    ring

theorem degree_bits_lt (s : Shift) (b : UInt8) : (poly (s.bits b)).degree < (8 : ℕ) := by
  simpa using degree_poly_lt (s.bits b)

theorem degree_divisor : r.divisor.degree = (8 : ℕ) := by
  have hlt : (poly (r.shift.bits r.polynomial)).degree < (X ^ 8 : (ZMod 2)[X]).degree := by
    rw [degree_X_pow]
    exact degree_bits_lt r.shift r.polynomial
  rw [Register.divisor, degree_add_eq_left_of_degree_lt hlt, degree_X_pow]

theorem poly_foldl_feed (bits : List Bool) : poly (r.shift.bits (bits.foldl r.feed crc)) =
    (poly (r.shift.bits crc) * X ^ bits.length + poly bits * X ^ 8) % r.divisor := by
  have hne : r.divisor ≠ 0 := by
    intro h
    have hdegree := degree_divisor r
    rw [h, degree_zero] at hdegree
    exact absurd hdegree (by decide)
  rw [← mod_eq_of_dvd_sub (divisor_dvd_foldl_feed r crc bits), eq_comm, mod_eq_self_iff hne,
    degree_divisor]
  exact degree_bits_lt _ _

theorem length_flatMap_bits (s : Shift) (data : List UInt8) :
    (data.flatMap s.bits).length = 8 * data.length := by
  simp [List.length_flatMap, Nat.mul_comm]

end Feed

/-- A checksum is the remainder of a division over GF(2): the register is read in the order in which
it shifts, the data as one long polynomial. -/
theorem poly_run (seed : UInt8) (data : List UInt8) :
    (∀ r : Register, poly (r.shift.bits (r.run seed data)) =
      (poly (r.shift.bits seed) * X ^ (8 * data.length) +
        poly (data.flatMap r.shift.bits) * X ^ 8) %
          (X ^ 8 + poly (r.shift.bits r.polynomial))) ∧
    poly (bitsOf (extend seed data)) =
      (poly (bitsOf seed) * X ^ (8 * data.length) + poly (data.flatMap bitsOf) * X ^ 8) %
        (X ^ 8 + X ^ 5 + X ^ 4 + 1) := by
  have hrun (r : Register) : poly (r.shift.bits (r.run seed data)) = (poly (r.shift.bits seed) *
      X ^ (8 * data.length) + poly (data.flatMap r.shift.bits) * X ^ 8) % r.divisor := by
    rw [Register.run_eq, poly_foldl_feed, length_flatMap_bits]
  refine ⟨hrun, ?_⟩
  have hdivisor : Register.rom.divisor = X ^ 8 + X ^ 5 + X ^ 4 + 1 := by
    have hbits : Register.rom.shift.bits Register.rom.polynomial =
        [false, false, true, true, false, false, false, true] := by decide
    simp [Register.divisor, hbits, poly, coefficient, add_assoc]
  rw [extend_eq_run, ← hdivisor]
  exact hrun Register.rom

end OneWire.Checksum
