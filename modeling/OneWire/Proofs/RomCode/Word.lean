import Mathlib.Data.List.FinRange
import OneWire.Proofs.Exchange.Transcript
import OneWire.RomCode.Basic

namespace OneWire

namespace RomCode
variable {c d : RomCode}

/-- In a word made of bytes the bits of each stand eight places above those of the byte before. -/
theorem getLsbD_foldr (bytes : List UInt8) {i : Nat} (h : i < 64) :
    (bytes.foldr (fun b w => w <<< 8 ||| b.toUInt64) 0 : UInt64).toBitVec.getLsbD i =
      bitAt (bytes.getD (i / 8) 0) (i % 8) := by
  induction bytes generalizing i with
  | nil => simp
  | cons b bytes ih =>
    rw [List.foldr_cons]
    -- the first byte is the lowest, and the word of the others is moved up by eight
    by_cases hi : i < 8
    · have hlow : i / 8 = 0 ∧ i % 8 = i := by omega
      simp [hlow, hi, h, bitAt]
    · have hhigh : i / 8 = (i - 8) / 8 + 1 ∧ i % 8 = (i - 8) % 8 := by omega
      have hb : b.toBitVec.getLsbD i = false := BitVec.getLsbD_of_ge _ _ (by omega)
      have hrest := ih (i := i - 8) (by omega)
      rw [BitVec.getLsbD_eq_getElem (by omega)] at hrest
      simpa [hhigh, hi, h, hb] using hrest

theorem testBit_word (c : RomCode) (p : Fin 64) : c.word.toNat.testBit p = c.bit p := by
  rw [← UInt64.toNat_toBitVec, BitVec.testBit_toNat, word, getLsbD_foldr _ p.isLt, bit]
  simp [List.getD_eq_getElem?_getD, show p.val / 8 < 8 by omega]

theorem bitAt_toUInt8 (w : UInt64) {i j : Nat} (hi : i < 8) (hj : j < 8) :
    bitAt (w >>> (8 * i).toUInt64).toUInt8 j = w.toBitVec.getLsbD (8 * i + j) := by
  have hamount : (8 * i).toUInt64.toBitVec.toNat = 8 * i :=
    UInt64.toNat_ofNat_of_lt' (Nat.lt_of_lt_of_le (show 8 * i < 64 by omega) (by decide))
  have hshift : ((8 * i).toUInt64.toBitVec % 64).toNat = 8 * i := by
    rw [BitVec.toNat_umod, hamount]
    exact Nat.mod_eq_of_lt (show 8 * i < 64 by omega)
  rw [bitAt, UInt64.toBitVec_toUInt8, BitVec.getLsbD_setWidth, UInt64.toBitVec_shiftRight,
    BitVec.ushiftRight_eq', BitVec.getLsbD_ushiftRight, hshift, decide_eq_true hj, Bool.true_and]

theorem bit_ofWord (w : UInt64) (p : Fin 64) : (ofWord w).bit p = w.toNat.testBit p := by
  have hbyte : (ofWord w).bytes[p.val / 8] = (w >>> (8 * (p.val / 8)).toUInt64).toUInt8 :=
    Vector.getElem_ofFn (show p.val / 8 < 8 by omega)
  rw [bit, hbyte, bitAt_toUInt8 w (by omega) (by omega), Nat.div_add_mod, ← UInt64.toNat_toBitVec,
    BitVec.testBit_toNat]

theorem ofWord_word (c : RomCode) : ofWord c.word = c :=
  ext_bit fun p => by rw [bit_ofWord, testBit_word]

theorem word_ofWord (w : UInt64) : (ofWord w).word = w := by
  apply UInt64.toNat_inj.1
  apply Nat.eq_of_testBit_eq
  intro i
  by_cases hi : i < 64
  · exact (testBit_word _ ⟨i, hi⟩).trans (bit_ofWord w ⟨i, hi⟩)
  · have hhigh (v : UInt64) : v.toNat.testBit i = false :=
      Nat.testBit_lt_two_pow
        (Nat.lt_of_lt_of_le v.toNat_lt (Nat.pow_le_pow_right (by decide) (Nat.not_lt.1 hi)))
    rw [hhigh, hhigh]

theorem eq_iff_bit : c = d ↔ ∀ p, c.bit p = d.bit p := by
  constructor
  · rintro rfl p
    rfl
  · exact ext_bit

theorem foldl_withBit (ps : List (Fin 64)) (c : RomCode) (f : Fin 64 → Bool) (q : Fin 64) :
    (ps.foldl (fun c p => c.withBit p (f p)) c).bit q = if q ∈ ps then f q else c.bit q := by
  induction ps generalizing c with
  | nil => rfl
  | cons p ps ih =>
    rw [List.foldl_cons, ih, bit_withBit]
    by_cases hq : q ∈ ps
    · simp [hq]
    · by_cases hp : q = p
      · simp [hp]
      · simp [hp, hq, Ne.symm hp]

theorem foldl_withBit_finRange (c r : RomCode) :
    (List.finRange 64).foldl (fun c p => c.withBit p (r.bit p)) c = r :=
  ext_bit fun q => by rw [foldl_withBit, if_pos (List.mem_finRange q)]

theorem foldl_withBit_take (c r : RomCode) (k : Nat) (q : Fin 64) :
    (((List.finRange 64).take k).foldl (fun c p => c.withBit p (r.bit p)) c).bit q =
      if q.val < k then r.bit q else c.bit q := by
  have hmem : q ∈ (List.finRange 64).take k ↔ q.val < k := by
    rw [List.mem_take_iff_getElem]
    constructor
    · rintro ⟨i, hi, rfl⟩
      simpa using Nat.lt_of_lt_of_le hi (Nat.min_le_left _ _)
    · intro hq
      exact ⟨q.val, by rw [List.length_finRange]; omega, by simp⟩
  simp only [foldl_withBit, hmem]

end RomCode

namespace Transaction
variable {L ε σ : Type}

theorem send_bytes (c : RomCode) :
    (send c.bytes.toList : Transaction σ Unit) = c.bits.forM sendBit :=
  send_of_ne_nil (List.ne_nil_of_length_pos (by simp))

theorem send_bytes_eq (c : RomCode) : (send c.bytes.toList : Transaction σ Unit) =
    (List.finRange 64).forM fun p => sendBit (c.bit p) := by
  rw [send_bytes, RomCode.bits_eq]
  exact List.forM_map

theorem written_sendBits (slots : Slots L ε) (kept : σ) (bits : List Bool) (r : Transcribed L) :
    let o := (bits.forM sendBit kept).run slots.transcribed r
    o.line.transcript.written <+: r.transcript.written ++ bits ∧
      (o.result = .ok () ∧ o.line.transcript.written = r.transcript.written ++ bits ∨
        ∃ fault, o.result = .error (.failed fault)) := by
  induction bits generalizing r with
  | nil => exact ⟨List.prefix_append _ _, .inl ⟨rfl, (List.append_nil _).symm⟩⟩
  | cons bit bits ih =>
    have hwrite : (bit :: bits).forM sendBit kept =
        Exchange.write bit kept (bits.forM sendBit kept) := rfl
    rw [hwrite]
    cases hslot : slots.write bit r.line with
    | ok _ line =>
      have hrun : (Exchange.write bit kept (bits.forM sendBit kept)).run slots.transcribed r =
          (bits.forM sendBit kept).run slots.transcribed ⟨line, r.transcript.wrote [bit]⟩ := by
        simp only [Exchange.run, Slots.transcribed, transcribe, hslot]
      have h := ih ⟨line, r.transcript.wrote [bit]⟩
      rw [hrun]
      simpa only [Transcript.wrote, List.append_assoc, List.singleton_append] using h
    | error fault line =>
      have hrun : (Exchange.write bit kept (bits.forM sendBit kept)).run slots.transcribed r =
          ⟨⟨line, r.transcript⟩, kept, [], .error (.failed fault)⟩ := by
        simp only [Exchange.run, Slots.transcribed, transcribe, hslot]
      rw [hrun]
      exact ⟨List.prefix_append _ _, .inr ⟨fault, rfl⟩⟩

end Transaction

/-- Position `p` of a code is bit `p` of its word, the one bit that a change at `p` sets, and the
`p`-th bit sent. The bits are all of a code: words and codes are the same, codes with the same bits
are equal, and bits copied in turn make the code of any other, from below. -/
theorem RomCode.bit_word_wire_order {L ε σ : Type} (slots : Slots L ε) (line : L) (kept : σ) :
    (∀ (c : RomCode) (p : Fin 64), c.word.toNat.testBit p = c.bit p) ∧
    (∀ (c : RomCode) (p q : Fin 64) (v : Bool),
      (c.withBit p v).bit q = if p = q then v else c.bit q) ∧
    (∀ c : RomCode, ofWord c.word = c) ∧ (∀ w : UInt64, (ofWord w).word = w) ∧
    (∀ c d : RomCode, c = d ↔ ∀ p, c.bit p = d.bit p) ∧
    (∀ c r : RomCode, (List.finRange 64).foldl (fun c p => c.withBit p (r.bit p)) c = r) ∧
    (∀ (c r : RomCode) (k : Nat) (q : Fin 64),
      (((List.finRange 64).take k).foldl (fun c p => c.withBit p (r.bit p)) c).bit q =
        if q.val < k then r.bit q else c.bit q) ∧
    (∀ c : RomCode, (Transaction.send c.bytes.toList : Transaction σ Unit) =
      (List.finRange 64).forM fun p => Transaction.sendBit (c.bit p)) ∧
    ∀ c : RomCode,
      let o := (Transaction.send c.bytes.toList kept).run slots.transcribed ⟨line, {}⟩
      o.line.transcript.written <+: (List.finRange 64).map c.bit ∧
        (o.result = .ok () ∧ o.line.transcript.written = (List.finRange 64).map c.bit ∨
          ∃ fault, o.result = .error (.failed fault)) := by
  refine ⟨testBit_word, bit_withBit, ofWord_word, word_ofWord, fun _ _ => eq_iff_bit,
    foldl_withBit_finRange, foldl_withBit_take, Transaction.send_bytes_eq, fun c => ?_⟩
  have hsend : Transaction.send c.bytes.toList kept = c.bits.forM Transaction.sendBit kept :=
    congrFun (Transaction.send_bytes c) kept
  have h := Transaction.written_sendBits slots kept c.bits ⟨line, {}⟩
  rwa [← hsend, bits_eq] at h

end OneWire
