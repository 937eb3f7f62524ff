namespace OneWire.Duration

def total : List UInt32 → Nat
  | [] => 0
  | part :: parts => part.toNat + total parts

/-- What the parts leave of a whole, taken off one after the other. -/
def remainder? (whole : UInt32) : List UInt32 → Option UInt32
  | [] => some whole
  | part :: parts => if part ≤ whole then remainder? (whole - part) parts else none

@[simp] theorem total_nil : total [] = 0 := rfl

@[simp] theorem total_cons (part : UInt32) (parts : List UInt32) :
    total (part :: parts) = part.toNat + total parts := rfl

theorem total_append (a b : List UInt32) : total (a ++ b) = total a + total b := by
  induction a with
  | nil => simp
  | cons part a ih => simp [ih, Nat.add_assoc]

theorem total_replicate (n : Nat) (part : UInt32) :
    total (List.replicate n part) = n * part.toNat := by
  induction n with
  | zero => simp
  | succ n ih => rw [List.replicate_succ, total_cons, ih, Nat.succ_mul, Nat.add_comm]

theorem toNat_remainder? {whole left : UInt32} {parts : List UInt32}
    (h : remainder? whole parts = some left) : left.toNat + total parts = whole.toNat := by
  induction parts generalizing whole with
  | nil => simp_all [remainder?]
  | cons part parts ih =>
    rw [remainder?] at h
    split at h
    · rename_i hp
      have hs := ih h
      rw [UInt32.toNat_sub_of_le _ _ hp] at hs
      have := UInt32.le_iff_toNat_le.1 hp
      rw [total_cons]
      omega
    · cases h

theorem remainder?_eq_none_iff {whole : UInt32} {parts : List UInt32} :
    remainder? whole parts = none ↔ whole.toNat < total parts := by
  induction parts generalizing whole with
  | nil => simp [remainder?]
  | cons part parts ih =>
    rw [remainder?, total_cons]
    split
    · rename_i hp
      rw [ih, UInt32.toNat_sub_of_le _ _ hp]
      have := UInt32.le_iff_toNat_le.1 hp
      omega
    · rename_i hp
      rw [UInt32.le_iff_toNat_le] at hp
      exact iff_of_true rfl (by omega)

end OneWire.Duration
