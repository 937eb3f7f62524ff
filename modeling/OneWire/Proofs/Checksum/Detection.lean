import Mathlib.Data.LawfulXor.Basic
import Mathlib.Data.List.FinRange
import OneWire.Proofs.Checksum.Serial
import OneWire.RomCode.Basic

namespace OneWire

namespace Checksum
open Register (rom)

/-- A pattern of errors, a bit for each bit sent, that is to be noticed. -/
inductive Detectable (errors : List Bool) : Prop
  | odd (h : errors.count true % 2 = 1)
  | pair (h : errors.count true = 2)
      (near : ∀ i j, errors[i]? = some true → errors[j]? = some true → j < i + 127)
  | burst (h : true ∈ errors) (start : Nat)
      (near : ∀ i, errors[i]? = some true → start ≤ i ∧ i < start + 8)

/-- What the register comes to from nothing. -/
def syndrome (bits : List Bool) : UInt8 := bits.foldl rom.feed 0

variable {bits errors : List Bool} {crc : UInt8} {n : Nat}

theorem ofBytes_eq (data : List UInt8) : ofBytes data = syndrome (data.flatMap bitsOf) := by
  rw [ofBytes, extend_eq_run, Register.run_eq]
  rfl

theorem syndrome_zipWith_xor {a b : List Bool} (h : a.length = b.length) :
    syndrome (List.zipWith (· ^^ ·) a b) = syndrome a ^^^ syndrome b := by
  have hfold := rom.foldl_feed_xor h 0 0
  rwa [UInt8.xor_zero] at hfold

theorem clock_eq_zero_iff : rom.clock crc = 0 ↔ crc = 0 := by
  constructor
  · intro h
    have hbit (i : Nat) : bitAt crc (i + 1) = bitAt (rom.feedback (bitAt crc 0)) i := by
      have hi := congrArg (bitAt · i) h
      rw [Register.clock_eq] at hi
      simpa [Register.feed, rom, Shift.move, Shift.out, bitAt_xor, bitAt_shiftRight] using hi
    -- a one that drops out would show at the other end, where nothing else comes in
    have hlow : bitAt crc 0 = false := by
      by_contra h0
      have hlast := hbit 7
      rw [eq_true_of_ne_false h0, bitAt_of_le crc (Nat.le_refl 8)] at hlast
      exact absurd hlast (by decide)
    apply byte_ext
    intro i hi
    cases i with
    | zero => exact hlow
    | succ i => simp [hbit, hlow, Register.feedback]
  · rintro rfl
    rfl

theorem repeat_clock_eq_zero_iff : Nat.repeat rom.clock n crc = 0 ↔ crc = 0 := by
  induction n with
  | zero => rfl
  | succ n ih => rw [Nat.repeat, clock_eq_zero_iff, ih]

/-- The remainders of the powers of x up to the one that is 1 again. -/
theorem feed_repeat_clock_ne_zero :
    ∀ k < 126, rom.feed (Nat.repeat rom.clock k (rom.feed 0 true)) true ≠ 0 := by
  decide +kernel

theorem syndrome_replicate_append (n : Nat) (bits : List Bool) :
    syndrome (List.replicate n false ++ bits) = syndrome bits := by
  rw [syndrome, List.foldl_append, Register.foldl_feed_replicate, repeat_clock_eq_zero_iff.2 rfl]
  rfl

theorem syndrome_append_replicate (bits : List Bool) (n : Nat) :
    syndrome (bits ++ List.replicate n false) = 0 ↔ syndrome bits = 0 := by
  rw [syndrome, List.foldl_append, Register.foldl_feed_replicate, repeat_clock_eq_zero_iff]
  rfl

theorem absorb_eq_zero_iff {b : UInt8} : rom.absorb crc b = 0 ↔ b = crc := by
  rw [Register.absorb, repeat_clock_eq_zero_iff, UInt8.xor_eq_zero_iff, eq_comm]

theorem syndrome_bitsOf_eq_zero_iff {b : UInt8} : syndrome (bitsOf b) = 0 ↔ b = 0 := by
  have habsorb : rom.absorb 0 b = 0 ↔ b = 0 := absorb_eq_zero_iff
  rwa [Register.absorb_eq] at habsorb

def parity : List Bool → Bool
  | [] => false
  | bit :: rest => bit ^^ parity rest

theorem parity_append (first second : List Bool) :
    parity (first ++ second) = (parity first ^^ parity second) := by
  induction first with
  | nil => simp [parity]
  | cons bit first ih => simp [parity, ih]

theorem parity_zipWith_xor {a b : List Bool} (h : a.length = b.length) :
    parity (List.zipWith (· ^^ ·) a b) = (parity a ^^ parity b) := by
  induction a generalizing b with
  | nil =>
    obtain rfl := List.eq_nil_of_length_eq_zero h.symm
    rfl
  | cons x a ih =>
    obtain _ | ⟨y, b⟩ := b
    · cases h
    · simp [parity, ih (Nat.succ.inj h), Bool.xor_left_comm]

theorem parity_eq_count (bits : List Bool) : parity bits = decide (bits.count true % 2 = 1) := by
  induction bits with
  | nil => rfl
  | cons bit rest ih =>
    rw [parity, ih]
    cases bit with
    | true =>
      rw [List.count_cons_self, Bool.true_xor, ← decide_not]
      apply decide_eq_decide.2
      omega
    | false => simp

/-- The bit that drops out and the bits that it brings in are an even number together. -/
theorem parity_feed (bit : Bool) :
    parity (bitsOf (rom.feed crc bit)) = (parity (bitsOf crc) ^^ bit) := by
  have hfeedback (differ : Bool) : parity (bitsOf (rom.feedback differ)) = differ := by
    cases differ <;> decide
  obtain ⟨rest, -, hbits, hmoved⟩ := rom.shift.exists_bits crc
  have hcrc : bitsOf crc = rom.shift.out crc :: rest := hbits
  have hmove : bitsOf (rom.shift.move crc) = rest ++ [false] := hmoved
  rw [Register.feed, bitsOf_xor, parity_zipWith_xor (by simp), hfeedback, hmove, parity_append, hcrc]
  simp [parity, Bool.xor_left_comm]

theorem parity_foldl_feed (bits : List Bool) :
    parity (bitsOf (bits.foldl rom.feed crc)) = (parity (bitsOf crc) ^^ parity bits) := by
  induction bits generalizing crc with
  | nil => simp [parity]
  | cons bit bits ih => simp [ih, parity_feed, parity]

theorem exists_first (h : true ∈ bits) :
    ∃ k rest, bits = List.replicate k false ++ true :: rest := by
  obtain ⟨before, rest, rfl, hbefore⟩ := List.eq_append_cons_of_mem h
  refine ⟨before.length, rest, ?_⟩
  congr 1
  rw [List.eq_replicate_iff]
  exact ⟨rfl, fun bit hbit => eq_false_of_ne_true fun ht => hbefore (ht ▸ hbit)⟩

theorem eq_replicate_of_not_mem (h : true ∉ bits) : bits = List.replicate bits.length false := by
  rw [List.eq_replicate_iff]
  exact ⟨rfl, fun bit hbit => eq_false_of_ne_true fun ht => h (ht ▸ hbit)⟩

theorem syndrome_ne_zero_of_odd (h : errors.count true % 2 = 1) : syndrome errors ≠ 0 := by
  intro hz
  have hparity : parity (bitsOf (errors.foldl rom.feed 0)) = _ := parity_foldl_feed errors
  rw [← syndrome, hz, parity_eq_count errors, decide_eq_true h] at hparity
  exact absurd hparity (by decide)

theorem syndrome_ne_zero_of_pair (h : errors.count true = 2)
    (near : ∀ i j, errors[i]? = some true → errors[j]? = some true → j < i + 127) :
    syndrome errors ≠ 0 := by
  obtain ⟨i, rest, rfl⟩ := exists_first (List.count_pos_iff.1 (by omega : 0 < errors.count true))
  have hrest : rest.count true = 1 := by
    simpa [List.count_append, List.count_replicate] using h
  obtain ⟨k, last, rfl⟩ := exists_first (List.count_pos_iff.1 (by omega : 0 < rest.count true))
  have hlast : true ∉ last := by
    rw [← List.count_eq_zero]
    simpa [List.count_append, List.count_replicate] using hrest
  have hk : k < 126 := by
    have := near i (i + (k + 1)) (by simp) (by simp)
    omega
  -- zeros before the first error and after the second make no difference, those between are shifts
  rw [syndrome_replicate_append, syndrome, List.foldl_cons, List.foldl_append,
    Register.foldl_feed_replicate, List.foldl_cons, eq_replicate_of_not_mem hlast,
    Register.foldl_feed_replicate, ne_eq, repeat_clock_eq_zero_iff]
  exact feed_repeat_clock_ne_zero k hk

theorem syndrome_cons_ne_zero {rest : List Bool}
    (near : ∀ i, (true :: rest)[i]? = some true → i < 8) : syndrome (true :: rest) ≠ 0 := by
  -- the list may be shorter than a byte, so zeros are put behind it
  let padded := true :: rest ++ List.replicate 8 false
  have htail : true ∉ padded.drop 8 := by
    intro hm
    obtain ⟨i, hi⟩ := List.mem_iff_getElem?.1 hm
    rw [List.getElem?_drop, List.getElem?_append] at hi
    split at hi
    · have := near _ hi
      omega
    · have := List.mem_of_getElem? hi
      simp at this
  have hbyte : bitsOf (byteOf (padded.take 8)) = padded.take 8 := bitsOf_byteOf (by simp [padded])
  rw [ne_eq, ← syndrome_append_replicate _ 8]
  change syndrome padded ≠ 0
  rw [← List.take_append_drop 8 padded, eq_replicate_of_not_mem htail, ne_eq,
    syndrome_append_replicate, ← hbyte, syndrome_bitsOf_eq_zero_iff]
  intro hz
  have hfirst := congrArg (bitAt · 0) hz
  simp [padded, bitAt_byteOf] at hfirst

theorem syndrome_ne_zero_of_burst (h : true ∈ errors) {start : Nat}
    (near : ∀ i, errors[i]? = some true → start ≤ i ∧ i < start + 8) : syndrome errors ≠ 0 := by
  obtain ⟨i, rest, rfl⟩ := exists_first h
  have hstart := (near i (by simp)).1
  rw [syndrome_replicate_append]
  apply syndrome_cons_ne_zero
  intro j hj
  have := (near (i + j) (by simpa [List.getElem?_append] using hj)).2
  omega

theorem Detectable.syndrome_ne_zero (h : Detectable errors) : syndrome errors ≠ 0 := by
  cases h with
  | odd h => exact syndrome_ne_zero_of_odd h
  | pair h near => exact syndrome_ne_zero_of_pair h near
  | burst h start near => exact syndrome_ne_zero_of_burst h near

theorem ofBytes_zipWith_xor {data errors : List UInt8} (h : errors.length = data.length) :
    ofBytes (List.zipWith (· ^^^ ·) data errors) = ofBytes data ^^^ ofBytes errors := by
  have hbits : (List.zipWith (· ^^^ ·) data errors).flatMap bitsOf =
      List.zipWith (· ^^ ·) (data.flatMap bitsOf) (errors.flatMap bitsOf) := by
    induction data generalizing errors with
    | nil => rfl
    | cons b data ih =>
      obtain _ | ⟨e, errors⟩ := errors
      · cases h
      · simp only [List.zipWith_cons_cons, List.flatMap_cons, bitsOf_xor, ih (Nat.succ.inj h)]
        exact (List.zipWith_append (by simp)).symm
  simp only [ofBytes_eq, hbits]
  exact syndrome_zipWith_xor (by simp [List.length_flatMap, h])

theorem ofBytes_append_eq_zero_iff (data : List UInt8) (b : UInt8) :
    ofBytes (data ++ [b]) = 0 ↔ b = ofBytes data := by
  rw [ofBytes, extend_append]
  change extendByte (ofBytes data) b = 0 ↔ _
  rw [extendByte_eq, absorb_eq_zero_iff]

end Checksum

namespace RomCode
open Checksum
variable {c : RomCode} {positions : List (Fin 64)}

theorem valid_iff : c.Valid ↔ ofBytes c.bytes.toList = 0 := by
  have hbytes : c.bytes.toList = c.bytes.toList.take 7 ++ [c.checksum] := by
    rw [← List.take_append_drop 7 c.bytes.toList]
    congr 1
    · simp
    · simp [checksum, List.drop_eq_getElem_cons]
  rw [hbytes, ofBytes_append_eq_zero_iff, Valid, computed, eq_comm]

def flip (c : RomCode) (p : Fin 64) : RomCode := c.withBit p (!c.bit p)

/-- The bits, from the first to the last, that differ once the positions are flipped. -/
def flips (positions : List (Fin 64)) : List Bool := (List.finRange 64).map positions.contains

theorem getElem?_flips {i : Nat} : (flips positions)[i]? = some true →
    ∃ p ∈ positions, p.val = i := by
  intro h
  simp only [flips, List.getElem?_map, Option.map_eq_some_iff, List.contains_iff_mem] at h
  obtain ⟨p, hp, hmem⟩ := h
  refine ⟨p, hmem, ?_⟩
  obtain ⟨hi, rfl⟩ := List.getElem?_eq_some_iff.1 hp
  simp

theorem count_flips (h : positions.Nodup) : (flips positions).count true = positions.length := by
  have hperm : ((List.finRange 64).filter (· ∈ positions)).Perm positions := by
    rw [List.perm_ext_iff_of_nodup ((List.nodup_finRange 64).filter _) h]
    simp
  rw [flips, List.count, List.countP_map, List.countP_eq_length_filter, ← hperm.length_eq]
  congr 2
  funext p
  simp

theorem bit_foldl_flip (h : positions.Nodup) (q : Fin 64) :
    (positions.foldl flip c).bit q = (c.bit q ^^ decide (q ∈ positions)) := by
  induction positions generalizing c with
  | nil => simp
  | cons p rest ih =>
    rw [List.nodup_cons] at h
    rw [List.foldl_cons, ih h.2, flip, bit_withBit]
    by_cases hq : p = q
    · subst hq
      simp [h.1]
    · simp [hq, Ne.symm hq]

theorem syndrome_foldl_flip (h : positions.Nodup) :
    syndrome (positions.foldl flip c).bits = syndrome c.bits ^^^ syndrome (flips positions) := by
  have hbits : (positions.foldl flip c).bits = List.zipWith (· ^^ ·) c.bits (flips positions) := by
    rw [bits_eq, bits_eq, flips, List.zipWith_map, List.zipWith_self]
    refine List.map_congr_left fun q _ => ?_
    rw [bit_foldl_flip h q, List.contains_eq_mem]
  rw [hbits, syndrome_zipWith_xor (by simp [bits_eq, flips])]

theorem detectable_flips_of_few (h : positions.Nodup) (hpos : 0 < positions.length)
    (hfew : positions.length ≤ 3) : Detectable (flips positions) := by
  have hcount := count_flips h
  by_cases htwo : positions.length = 2
  · refine .pair (hcount.trans htwo) fun i j _ hj => ?_
    obtain ⟨q, -, rfl⟩ := getElem?_flips hj
    omega
  · exact .odd (by omega)

theorem detectable_flips_of_near (hne : positions ≠ []) {start : Nat}
    (h : ∀ p ∈ positions, start ≤ p.val ∧ p.val < start + 8) : Detectable (flips positions) := by
  obtain ⟨p, hp⟩ := List.exists_mem_of_ne_nil positions hne
  refine .burst ?_ start fun i hi => ?_
  · exact List.mem_map.2 ⟨p, List.mem_finRange p, List.contains_iff_mem.2 hp⟩
  · obtain ⟨q, hq, rfl⟩ := getElem?_flips hi
    exact h q hq

theorem check_foldl_flip (hc : c.Valid) (h : positions.Nodup) (hd : Detectable (flips positions)) :
    (positions.foldl flip c).check = .error
      (.checksum (positions.foldl flip c).computed (positions.foldl flip c).checksum) := by
  rw [check, if_neg]
  rw [valid_iff, ofBytes_eq] at hc ⊢
  change syndrome c.bits = 0 at hc
  change syndrome (positions.foldl flip c).bits ≠ 0
  rw [syndrome_foldl_flip h, hc, UInt8.zero_xor]
  exact hd.syndrome_ne_zero

end RomCode

open Checksum

/-- Errors that the checksum is for never go unnoticed: not in data of any length, and not in a code
that carries its own checksum, which is what makes the checksum of all its bytes nothing. -/
theorem Checksum.ofBytes_ne_of_detectable :
    (∀ data errors : List UInt8, errors.length = data.length →
      Detectable (errors.flatMap bitsOf) →
        ofBytes (List.zipWith (· ^^^ ·) data errors) ≠ ofBytes data) ∧
    (∀ data b, ofBytes (data ++ [b]) = 0 ↔ b = ofBytes data) ∧
    (∀ c : RomCode, c.Valid ↔ ofBytes c.bytes.toList = 0) ∧
    ∀ c : RomCode, c.Valid → ∀ positions : List (Fin 64), positions.Nodup →
      (0 < positions.length ∧ positions.length ≤ 3 ∨
        positions ≠ [] ∧ ∃ start, ∀ p ∈ positions, start ≤ p.val ∧ p.val < start + 8) →
      let flipped := positions.foldl RomCode.flip c
      flipped.check = .error (.checksum flipped.computed flipped.checksum) := by
  refine ⟨fun data errors hlen hd => ?_, ofBytes_append_eq_zero_iff, fun c => RomCode.valid_iff,
    fun c hc positions hnodup herrors => ?_⟩
  · rw [ofBytes_zipWith_xor hlen, ne_eq, xor_left_eq_self_iff, ofBytes_eq errors]
    exact hd.syndrome_ne_zero
  · apply RomCode.check_foldl_flip hc hnodup
    obtain ⟨hpos, hfew⟩ | ⟨hne, start, hnear⟩ := herrors
    · exact RomCode.detectable_flips_of_few hnodup hpos hfew
    · exact RomCode.detectable_flips_of_near hne hnear

/-- Two errors as far apart as they may be, and a code with three bits flipped all over it. -/
theorem Checksum.ofBytes_ne_of_distant :
    ofBytes (List.zipWith (· ^^^ ·) (List.replicate 16 0xA5) (1 :: .replicate 14 0 ++ [0x40])) ≠
      ofBytes (List.replicate 16 0xA5) ∧
    let flipped := [0, 33, 63].foldl RomCode.flip (RomCode.make 0x28 #v[1, 2, 3, 4, 5, 6])
    flipped.check = .error (.checksum flipped.computed flipped.checksum) := by
  have hlast : ∀ j < 128,
      (((1 : UInt8) :: .replicate 14 0 ++ [0x40]).flatMap bitsOf)[j]? = some true → j < 127 := by
    decide +kernel
  refine ⟨ofBytes_ne_of_detectable.1 _ _ (by decide) (.pair (by decide) fun i j _ hj => ?_),
    ofBytes_ne_of_detectable.2.2.2 _ (by decide +kernel) _ (by decide) (.inl (by decide))⟩
  have := hlast j (List.getElem?_eq_some_iff.1 hj).1 hj
  omega

end OneWire
