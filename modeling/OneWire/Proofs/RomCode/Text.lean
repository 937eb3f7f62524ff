import OneWire.RomCode.Text

namespace OneWire

namespace Text

def digits : List Char := "0123456789abcdef".toList

def IsDigit (c : Char) : Prop := c.toLower ∈ digits

instance (c : Char) : Decidable (IsDigit c) := inferInstanceAs (Decidable (_ ∈ _))

/-- What a digit stands for. -/
def value (c : Char) : Nat := digits.idxOf c.toLower

theorem not_le_of_toNat_lt {c d : Char} (h : d.toNat < c.toNat) : ¬ c ≤ d := by
  rw [Char.le_def, UInt32.le_iff_toNat_le]
  exact Nat.not_le.2 h

theorem toLower_of_le {c : Char} (h : 128 ≤ c.toNat) : c.toLower = c := by
  have hz : ¬ c.val ≤ 'Z'.val := not_le_of_toNat_lt (Nat.lt_of_lt_of_le (by decide) h)
  exact dif_neg fun hc => hz hc.2

theorem not_isDigit_of_le {c : Char} (h : 128 ≤ c.toNat) : ¬ IsDigit c := by
  have hdigits : digits.all (·.toNat < 128) := by decide
  rw [IsDigit, toLower_of_le h]
  intro hc
  exact Nat.not_lt.2 h (of_decide_eq_true (List.all_eq_true.1 hdigits c hc))

theorem hexValue?_eq (c : Char) : hexValue? c = if IsDigit c then some (value c) else none := by
  -- ASCII is looked through, and there are no digits after it
  have hascii : ∀ n < 128, hexValue? (.ofNat n) =
      if IsDigit (.ofNat n) then some (value (.ofNat n)) else none := by decide +kernel
  by_cases h : c.toNat < 128
  · have hc := hascii c.toNat h
    rwa [Char.ofNat_toNat] at hc
  · have hle : 128 ≤ c.toNat := Nat.not_lt.1 h
    have hafter (d : Char) (hd : d.toNat < 128) : ¬ c ≤ d :=
      not_le_of_toNat_lt (Nat.lt_of_lt_of_le hd hle)
    rw [if_neg (not_isDigit_of_le hle), hexValue?, if_neg, if_neg, if_neg]
    · exact fun hc => hafter 'F' (by decide) hc.2
    · exact fun hc => hafter 'f' (by decide) hc.2
    · exact fun hc => hafter '9' (by decide) hc.2

theorem value_lt {c : Char} (h : IsDigit c) : value c < 16 := List.idxOf_lt_length_of_mem h

theorem hexDigit_value {c : Char} (h : IsDigit c) : hexDigit (value c) = c.toLower := by
  change digits.getD (digits.idxOf c.toLower) '0' = c.toLower
  have hi := List.idxOf_lt_length_of_mem h
  rw [List.getD_eq_getElem?_getD, List.getElem?_eq_getElem hi, Option.getD_some]
  exact List.getElem_idxOf hi

def pair (high low : Char) : UInt8 := .ofNat (16 * value high + value low)

theorem toNat_pair {high low : Char} (hh : IsDigit high) (hl : IsDigit low) :
    (pair high low).toNat = 16 * value high + value low := by
  have := value_lt hh
  have := value_lt hl
  exact UInt8.toNat_ofNat_of_lt' (by simp only [UInt8.size]; omega)

theorem hexByte?_eq (high low : Char) :
    hexByte? high low = if IsDigit high ∧ IsDigit low then some (pair high low) else none := by
  simp only [hexByte?, hexValue?_eq, pair]
  by_cases hh : IsDigit high <;> by_cases hl : IsDigit low <;> simp [hh, hl]

theorem hexByte_pair {high low : Char} (hh : IsDigit high) (hl : IsDigit low) :
    hexByte (pair high low) = [high.toLower, low.toLower] := by
  have hlt := value_lt hl
  rw [hexByte, toNat_pair hh hl, show (16 * value high + value low) / 16 = value high by omega,
    show (16 * value high + value low) % 16 = value low by omega, hexDigit_value hh,
    hexDigit_value hl]

/-- A colon after every second character but the last. -/
def colons : List Char → List Char
  | a :: b :: c :: rest => a :: b :: ':' :: colons (c :: rest)
  | rest => rest

end Text

namespace RomCode
open Text

/-- The characters of a text that have a meaning. -/
def significant (text : String) : List Char := text.toList.filter (!isSeparator ·)

/-- One of the first `n` pairs that are complete is not one of digits. -/
def Misspelled (n : Nat) (s : List Char) : Prop :=
  ∃ i < n, ∃ high ∈ s[2 * i]?, ∃ low ∈ s[2 * i + 1]?, ¬ (IsDigit high ∧ IsDigit low)

instance (n : Nat) (s : List Char) : Decidable (Misspelled n s) :=
  inferInstanceAs (Decidable (∃ i < n, _))

def spelled : List Char → List UInt8
  | high :: low :: rest => pair high low :: spelled rest
  | _ => []

theorem length_le_one {s : List Char} (h : ∀ high low rest, s ≠ high :: low :: rest) :
    s.length ≤ 1 := by
  rcases s with _ | ⟨high, _ | ⟨low, rest⟩⟩
  · exact Nat.zero_le 1
  · exact Nat.le_refl 1
  · exact absurd rfl (h high low rest)

theorem not_misspelled_of_length_le {n : Nat} {s : List Char} (h : s.length ≤ 1) :
    ¬ Misspelled n s := by
  rintro ⟨i, -, high, -, low, hlow, -⟩
  obtain ⟨hi, -⟩ := List.getElem?_eq_some_iff.1 hlow
  omega

theorem misspelled_cons {n : Nat} {high low : Char} {rest : List Char} :
    Misspelled (n + 1) (high :: low :: rest) ↔
      ¬ (IsDigit high ∧ IsDigit low) ∨ Misspelled n rest := by
  unfold Misspelled
  rw [Nat.exists_lt_succ_left]
  refine or_congr (by simp) ?_
  simp only [Nat.mul_succ]
  rfl

/-- What is wrong in a pair counts before what is missing, and that before what is too much. -/
theorem parseBytes_eq (n : Nat) (s : List Char) : parseBytes n s =
    if Misspelled n s then .error .invalid
    else if s.length < 2 * n then .error .notEnough
    else if 2 * n < s.length then .error .invalid
    else .ok (spelled s) := by
  fun_induction parseBytes n s with
  | case1 => rfl
  | case2 c s =>
    have h : ¬ Misspelled 0 (c :: s) := by simp [Misspelled]
    simp [h]
  | case3 n high low rest b hb ih =>
    rw [hexByte?_eq] at hb
    obtain ⟨hdigits, hb⟩ := Option.ite_none_right_eq_some.1 hb
    cases hb
    have hm : Misspelled (n + 1) (high :: low :: rest) ↔ Misspelled n rest := by
      rw [misspelled_cons]
      exact or_iff_right (not_not_intro hdigits)
    have hshort : (high :: low :: rest).length < 2 * (n + 1) ↔ rest.length < 2 * n := by
      simp only [List.length_cons]
      omega
    have hlong : 2 * (n + 1) < (high :: low :: rest).length ↔ 2 * n < rest.length := by
      simp only [List.length_cons]
      omega
    rw [ih]
    simp only [hm, hshort, hlong, spelled, apply_ite (Except.map (pair high low :: ·))]
    rfl
  | case4 n high low rest hb =>
    rw [hexByte?_eq] at hb
    have hdigits : ¬ (IsDigit high ∧ IsDigit low) := by simpa using hb
    rw [if_pos (misspelled_cons.2 (.inl hdigits))]
  | case5 n s h =>
    have hlength := length_le_one h
    rw [if_neg (not_misspelled_of_length_le hlength), if_pos (by omega)]

theorem parse_eq (text : String) :
    let s := significant text
    parse text = if Misspelled 8 s then .error .invalid
      else if s.length < 16 then .error .notEnough
      else if 16 < s.length then .error .invalid
      else .ok (ofList (spelled s)) := by
  intro s
  change (parseBytes 8 s).map ofList = _
  rw [parseBytes_eq]
  simp only [apply_ite (Except.map ofList)]
  rfl

theorem not_misspelled_of_isDigit {n : Nat} {s : List Char} (h : ∀ c ∈ s, IsDigit c) :
    ¬ Misspelled n s := by
  rintro ⟨i, -, high, hhigh, low, hlow, hdigits⟩
  exact hdigits ⟨h high (List.mem_of_getElem? hhigh), h low (List.mem_of_getElem? hlow)⟩

theorem isDigit_of_not_misspelled {n : Nat} {s : List Char} (h : ¬ Misspelled n s)
    (hn : s.length = 2 * n) : ∀ c ∈ s, IsDigit c := by
  intro c hc
  obtain ⟨j, hj, rfl⟩ := List.getElem_of_mem hc
  have hi : j / 2 < n := by omega
  have hhigh : s[2 * (j / 2)]? = some s[2 * (j / 2)] := List.getElem?_eq_getElem (by omega)
  have hlow : s[2 * (j / 2) + 1]? = some s[2 * (j / 2) + 1] := List.getElem?_eq_getElem (by omega)
  have hdigits : IsDigit s[2 * (j / 2)] ∧ IsDigit s[2 * (j / 2) + 1] :=
    Decidable.byContradiction fun hnot => h ⟨j / 2, hi, _, hhigh, _, hlow, hnot⟩
  rcases Nat.mod_two_eq_zero_or_one j with hmod | hmod
  · have he : 2 * (j / 2) = j := by omega
    simpa only [he] using hdigits.1
  · have he : 2 * (j / 2) + 1 = j := by omega
    simpa only [he] using hdigits.2

theorem length_spelled (s : List Char) : (spelled s).length = s.length / 2 := by
  fun_induction spelled s with
  | case1 high low rest ih =>
    simp only [List.length_cons, ih]
    omega
  | case2 s h =>
    have hlength := length_le_one h
    rw [List.length_nil]
    omega

theorem getElem?_spelled {s : List Char} {i : Nat} {high low : Char} (hh : s[2 * i]? = some high)
    (hl : s[2 * i + 1]? = some low) : (spelled s)[i]? = some (pair high low) := by
  fun_induction spelled s generalizing i with
  | case1 high' low' rest ih =>
    cases i with
    | zero =>
      cases hh
      cases hl
      rfl
    | succ i => exact ih hh hl
  | case2 s h =>
    have hlength := length_le_one h
    obtain ⟨hi, -⟩ := List.getElem?_eq_some_iff.1 hl
    omega

theorem flatMap_hexByte_spelled {s : List Char} (h : ∀ c ∈ s, IsDigit c) (hs : s.length % 2 = 0) :
    (spelled s).flatMap hexByte = s.map Char.toLower := by
  fun_induction spelled s with
  | case1 high low rest ih =>
    simp only [List.forall_mem_cons] at h
    obtain ⟨hh, hl, hrest⟩ := h
    have hlength : rest.length % 2 = 0 := by
      simp only [List.length_cons] at hs
      omega
    rw [List.flatMap_cons, ih hrest hlength, hexByte_pair hh hl]
    rfl
  | case2 s hshort =>
    have hlength := length_le_one hshort
    have hnil : s = [] := List.length_eq_zero_iff.1 (by omega)
    rw [hnil]
    rfl

theorem toList_ofList {data : List UInt8} (h : data.length = 8) :
    (ofList data).bytes.toList = data := by
  apply List.ext_getElem
  · simp [h]
  · intro i hi hi'
    simp [ofList, List.getD_eq_getElem?_getD, hi']

theorem joinBytes_eq (data : List UInt8) : joinBytes data = colons (data.flatMap hexByte) := by
  fun_induction joinBytes data with
  | case1 => rfl
  | case2 b => rfl
  | case3 b rest h ih =>
    -- another byte follows, and so at least one more character
    obtain ⟨b', rest, rfl⟩ := List.exists_cons_of_ne_nil h
    rw [ih]
    rfl

theorem isSeparator_hexByte (b : UInt8) : ∀ c ∈ hexByte b, isSeparator c = false := by
  have hdigit : ∀ n < 16, isSeparator (hexDigit n) = false := by decide
  have hb := b.toNat_lt
  simp only [hexByte, List.forall_mem_cons, List.not_mem_nil, false_imp_iff, implies_true, and_true]
  exact ⟨hdigit _ (by omega), hdigit _ (by omega)⟩

theorem filter_joinBytes (data : List UInt8) :
    (joinBytes data).filter (!isSeparator ·) = data.flatMap hexByte := by
  have hbyte (b : UInt8) : (hexByte b).filter (!isSeparator ·) = hexByte b :=
    List.filter_eq_self.2 fun c hc => by rw [isSeparator_hexByte b c hc]; rfl
  fun_induction joinBytes data with
  | case1 => rfl
  | case2 b => simp [hbyte]
  | case3 b rest h ih =>
    rw [List.filter_append, hbyte, List.filter_cons_of_neg (by decide), ih, List.flatMap_cons]

theorem parseBytes_flatMap_hexByte (data : List UInt8) :
    parseBytes data.length (data.flatMap hexByte) = .ok data := by
  induction data with
  | nil => rfl
  | cons b data ih =>
    have hb := hexByte?_hexByte b
    simp only [List.flatMap_cons, hexByte, List.cons_append, List.nil_append, List.length_cons,
      parseBytes, hb, ih]
    rfl

theorem ofList_toList (c : RomCode) : ofList c.bytes.toList = c := by
  obtain ⟨bytes⟩ := c
  have h : (ofList bytes.toList).bytes.toList = bytes.toList := toList_ofList (by simp)
  exact congrArg mk (Vector.toList_inj.1 h)

theorem parse_toString (c : RomCode) : parse (toString c) = .ok c := by
  have hbytes := parseBytes_flatMap_hexByte c.bytes.toList
  have hchars : (toString c).toList = joinBytes c.bytes.toList := String.toList_ofList
  rw [parse, hchars, filter_joinBytes]
  rw [Vector.length_toList] at hbytes
  rw [hbytes]
  exact congrArg Except.ok (ofList_toList c)

/-- Sixteen digits, two for each byte. -/
def Spells (s : List Char) : Prop := s.length = 16 ∧ ∀ c ∈ s, IsDigit c

theorem parse_of_spells {text : String} (h : Spells (significant text)) :
    parse text = .ok (ofList (spelled (significant text))) := by
  obtain ⟨hlength, hdigits⟩ := h
  rw [parse_eq, if_neg (not_misspelled_of_isDigit hdigits), if_neg (by omega), if_neg (by omega)]

theorem parse_of_not_spells {text : String} (h : ¬ Spells (significant text)) :
    parse text = .error (if Misspelled 8 (significant text) then .invalid
      else if (significant text).length < 16 then .notEnough else .invalid) := by
  rw [parse_eq]
  by_cases hm : Misspelled 8 (significant text)
  · rw [if_pos hm, if_pos hm]
  · rw [if_neg hm, if_neg hm]
    by_cases hshort : (significant text).length < 16
    · rw [if_pos hshort, if_pos hshort]
    · -- with sixteen characters it would spell a code
      have hlong : (significant text).length ≠ 16 := fun hs =>
        h ⟨hs, isDigit_of_not_misspelled hm hs⟩
      rw [if_neg hshort, if_neg hshort, if_pos (by omega)]

theorem byte_ofList_spelled {s : List Char} (h : Spells s) (i : Fin 8) :
    ∃ high ∈ s[2 * i.val]?, ∃ low ∈ s[2 * i.val + 1]?,
      ((ofList (spelled s)).bytes.get i).toNat = 16 * value high + value low := by
  obtain ⟨hlength, hdigits⟩ := h
  have hhigh : s[2 * i.val]? = some s[2 * i.val] := List.getElem?_eq_getElem (by omega)
  have hlow : s[2 * i.val + 1]? = some s[2 * i.val + 1] := List.getElem?_eq_getElem (by omega)
  refine ⟨_, hhigh, _, hlow, ?_⟩
  rw [← toNat_pair (hdigits _ (List.getElem_mem _)) (hdigits _ (List.getElem_mem _))]
  have hbyte : (ofList (spelled s)).bytes.get i = (spelled s).getD i 0 := Vector.getElem_ofFn i.isLt
  rw [hbyte, List.getD_eq_getElem?_getD, getElem?_spelled hhigh hlow, Option.getD_some]

theorem toList_toString_spelled {s : List Char} (h : Spells s) :
    (toString (ofList (spelled s))).toList = colons (s.map Char.toLower) := by
  obtain ⟨hlength, hdigits⟩ := h
  have hbytes : (ofList (spelled s)).bytes.toList = spelled s :=
    toList_ofList (by rw [length_spelled, hlength])
  have hchars : (toString (ofList (spelled s))).toList =
      joinBytes (ofList (spelled s)).bytes.toList := String.toList_ofList
  rw [hchars, hbytes, joinBytes_eq, flatMap_hexByte_spelled hdigits (by omega)]

/-- A text spells a code exactly if its significant characters are sixteen digits, two for each
byte. In any other the first thing that is wrong in the pairs is reported: a pair that is complete
but not of digits, then characters that are missing, then characters after the last byte. What is
written is the text in lower case with colons between the bytes, and it spells the code again. -/
theorem reads_exactly :
    (∀ text : String,
      let s := significant text
      ((∃ c, parse text = .ok c) ↔ Spells s) ∧
      (∀ c, parse text = .ok c →
        (∀ i : Fin 8, ∃ high ∈ s[2 * i.val]?, ∃ low ∈ s[2 * i.val + 1]?,
          (c.bytes.get i).toNat = 16 * value high + value low) ∧
        (toString c).toList = colons (s.map Char.toLower)) ∧
      (¬ Spells s → parse text = .error
        (if Misspelled 8 s then .invalid else if s.length < 16 then .notEnough else .invalid))) ∧
    ∀ c : RomCode, parse (toString c) = .ok c := by
  refine ⟨fun text => ?_, parse_toString⟩
  intro s
  have hspells : ∀ c, parse text = .ok c → Spells s ∧ c = ofList (spelled s) := by
    intro c hc
    by_cases h : Spells s
    · rw [parse_of_spells h] at hc
      cases hc
      exact ⟨h, rfl⟩
    · rw [parse_of_not_spells h] at hc
      cases hc
  refine ⟨⟨fun ⟨c, hc⟩ => (hspells c hc).1, fun h => ⟨_, parse_of_spells h⟩⟩, fun c hc => ?_,
    parse_of_not_spells⟩
  obtain ⟨h, rfl⟩ := hspells c hc
  exact ⟨byte_ofList_spelled h, toList_toString_spelled h⟩

end RomCode

end OneWire
