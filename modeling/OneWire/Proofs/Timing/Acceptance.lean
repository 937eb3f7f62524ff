import OneWire.Master

namespace OneWire

namespace Interval
variable {P : Interval → Prop} {i j : Interval}

instance : LT Interval := ⟨fun i j => i.ctorIdx < j.ctorIdx⟩

instance (i j : Interval) : Decidable (i < j) :=
  inferInstanceAs (Decidable (i.ctorIdx < j.ctorIdx))

/-- `i` is the first interval with a property. -/
structure First (P : Interval → Prop) (i : Interval) : Prop where
  holds : P i
  before : ∀ j, j < i → ¬ P j

theorem getElem?_all (i : Interval) : all[i.ctorIdx]? = some i := by cases i <;> rfl

theorem pairwise_all : all.Pairwise (· < ·) := by decide

theorem First.unique (h : First P i) (h' : First P j) : i = j := by
  rcases Nat.lt_trichotomy i.ctorIdx j.ctorIdx with hlt | heq | hlt
  · exact absurd h.holds (h'.before i hlt)
  · have hi := getElem?_all i
    rw [heq, getElem?_all j] at hi
    exact (Option.some.inj hi).symm
  · exact absurd h'.holds (h.before j hlt)

theorem first_of_find?_all {p : Interval → Bool} (h : all.find? p = some i) :
    First (p · = true) i := by
  obtain ⟨hi, before, after, hall, hbefore⟩ := List.find?_eq_some_iff_append.1 h
  refine ⟨hi, fun j hj => ?_⟩
  have hmem : j ∈ before ++ i :: after := hall ▸ mem_all j
  have hs := pairwise_all
  rw [hall, List.pairwise_append, List.pairwise_cons] at hs
  rcases List.mem_append.1 hmem with hm | hm
  · simpa using hbefore j hm
  · rcases List.mem_cons.1 hm with rfl | hm
    · exact absurd hj (Nat.lt_irrefl _)
    · exact absurd hj (Nat.lt_asymm (hs.2.1.1 j hm))

def parts : Interval → List Interval
  | resetLow => [presenceWait]
  | writeSlot => [writeOneLow]
  | readSlot => [readLow, readSettle]
  | _ => []

end Interval

namespace Timing
variable {t : Timing} {r r' : Except TimingError Rest}

/-- The parts of a slot are longer than the slot. Their sum may be more than a word holds. -/
def Overruns (t : Timing) : Interval → Prop
  | .resetLow => t.resetLow.toNat < t.presenceWait.toNat
  | .writeSlot => t.writeSlot.toNat < t.writeOneLow.toNat
  | .readSlot => t.readSlot.toNat < t.readLow.toNat + t.readSettle.toNat
  | _ => False

/-- The parts of each slot and its rest add up to the slot. -/
structure Completes (t : Timing) (rest : Rest) : Prop where
  reset : t.presenceWait.toNat + rest.reset.toNat = t.resetLow.toNat
  write : t.writeOneLow.toNat + rest.write.toNat = t.writeSlot.toNat
  read : t.readLow.toNat + t.readSettle.toNat + rest.read.toNat = t.readSlot.toNat

/-- What the check is to come to. -/
inductive Verdict (t : Timing) : Except TimingError Rest → Prop
  | zero (i : Interval) (h : Interval.First (t.interval · = 0) i) : Verdict t (.error (.zero i))
  | overrun (slot : Interval) (hpos : ∀ i, t.interval i ≠ 0) (h : Interval.First t.Overruns slot) :
    Verdict t (.error (.overrun slot))
  | passed (rest : Rest) (hpos : ∀ i, t.interval i ≠ 0) (h : t.Completes rest) :
    Verdict t (.ok rest)

theorem Completes.not_overruns {rest : Rest} (h : t.Completes rest) (slot : Interval) :
    ¬ t.Overruns slot := by
  have hreset := h.reset
  have hwrite := h.write
  have hread := h.read
  cases slot <;> simp only [Overruns, not_false_eq_true] <;> omega

theorem Completes.unique {rest rest' : Rest} (h : t.Completes rest) (h' : t.Completes rest') :
    rest = rest' := by
  cases rest
  cases rest'
  rw [Rest.mk.injEq]
  exact ⟨UInt32.toNat_inj.1 (Nat.add_left_cancel (h.reset.trans h'.reset.symm)),
    UInt32.toNat_inj.1 (Nat.add_left_cancel (h.write.trans h'.write.symm)),
    UInt32.toNat_inj.1 (Nat.add_left_cancel (h.read.trans h'.read.symm))⟩

theorem Verdict.unique (h : t.Verdict r) (h' : t.Verdict r') : r = r' := by
  cases h with
  | zero i hi =>
    cases h' with
    | zero j hj => rw [hi.unique hj]
    | overrun _ hpos => exact absurd hi.holds (hpos i)
    | passed _ hpos => exact absurd hi.holds (hpos i)
  | overrun slot hpos hs =>
    cases h' with
    | zero j hj => exact absurd hj.holds (hpos j)
    | overrun slot' _ hs' => rw [hs.unique hs']
    | passed _ _ hrest => exact absurd hs.holds (hrest.not_overruns slot)
  | passed rest hpos hrest =>
    cases h' with
    | zero j hj => exact absurd hj.holds (hpos j)
    | overrun slot _ hs => exact absurd hs.holds (hrest.not_overruns slot)
    | passed rest' _ hrest' => rw [hrest.unique hrest']

theorem overruns_iff (t : Timing) (slot : Interval) : t.Overruns slot ↔
    (t.interval slot).toNat < Duration.total (slot.parts.map t.interval) := by
  cases slot <;> simp [Overruns, Interval.parts, interval]

theorem leave_parts (t : Timing) (slot : Interval) :
    (∃ us, t.leave slot slot.parts = .ok us) ∧ ¬ t.Overruns slot ∨
      t.leave slot slot.parts = .error (.overrun slot) ∧ t.Overruns slot := by
  rw [overruns_iff, ← Duration.remainder?_eq_none_iff, leave]
  cases Duration.remainder? (t.interval slot) (slot.parts.map t.interval) with
  | some us => exact .inl ⟨⟨us, rfl⟩, nofun⟩
  | none => exact .inr ⟨rfl, rfl⟩

theorem rest_of_pos (hpos : ∀ i, t.interval i ≠ 0) : t.rest = do
    let reset ← t.leave .resetLow (Interval.parts .resetLow)
    let write ← t.leave .writeSlot (Interval.parts .writeSlot)
    let read ← t.leave .readSlot (Interval.parts .readSlot)
    return { reset, write, read } := by
  have hnone : Interval.all.find? (t.interval · == 0) = none :=
    List.find?_eq_none.2 fun i _ => by simpa using hpos i
  rw [rest, hnone]
  rfl

theorem first_overruns {slot : Interval} (h : t.Overruns slot)
    (hreset : Interval.resetLow < slot → ¬ t.Overruns .resetLow)
    (hwrite : Interval.writeSlot < slot → ¬ t.Overruns .writeSlot)
    (hread : Interval.readSlot < slot → ¬ t.Overruns .readSlot) :
    Interval.First t.Overruns slot := by
  refine ⟨h, fun j hj => ?_⟩
  cases j with
  | resetLow => exact hreset hj
  | writeSlot => exact hwrite hj
  | readSlot => exact hread hj
  | _ => exact id

theorem verdict_of_pos (hpos : ∀ i, t.interval i ≠ 0) : t.Verdict t.rest := by
  have hrest := rest_of_pos hpos
  -- the slots are looked at in the order of declaration, up to the first that overruns
  rcases t.leave_parts .resetLow with ⟨⟨reset, hr⟩, hreset⟩ | ⟨hr, hover⟩
  · rcases t.leave_parts .writeSlot with ⟨⟨write, hw⟩, hwrite⟩ | ⟨hw, hover⟩
    · rcases t.leave_parts .readSlot with ⟨⟨read, hd⟩, -⟩ | ⟨hd, hover⟩
      · simp only [hr, hw, hd] at hrest
        obtain ⟨hreset, hwrite, hread⟩ := Schedule.toNat_rest ⟨t, _, hrest⟩
        rw [hrest]
        exact .passed _ hpos ⟨hreset, hwrite, hread⟩
      · simp only [hr, hw, hd] at hrest
        rw [hrest]
        exact .overrun _ hpos (first_overruns hover (fun _ => hreset) (fun _ => hwrite)
          fun h => absurd h (by decide))
    · simp only [hr, hw] at hrest
      rw [hrest]
      exact .overrun _ hpos (first_overruns hover (fun _ => hreset)
        (fun h => absurd h (by decide)) fun h => absurd h (by decide))
  · rw [hr] at hrest
    rw [hrest]
    exact .overrun _ hpos (first_overruns hover (fun h => absurd h (by decide))
      (fun h => absurd h (by decide)) fun h => absurd h (by decide))

theorem verdict_rest (t : Timing) : t.Verdict t.rest := by
  cases hz : Interval.all.find? (t.interval · == 0) with
  | some i =>
    have hfirst := Interval.first_of_find?_all hz
    simp only [beq_iff_eq] at hfirst
    rw [rest, hz]
    exact .zero i hfirst
  | none =>
    apply verdict_of_pos
    intro i
    simpa using List.find?_eq_none.1 hz i i.mem_all

theorem rest_eq_iff : t.rest = r ↔ t.Verdict r := by
  constructor
  · rintro rfl
    exact t.verdict_rest
  · intro h
    exact t.verdict_rest.unique h

theorem rest_eq_ok_iff {rest : Rest} :
    t.rest = .ok rest ↔ (∀ i, t.interval i ≠ 0) ∧ t.Completes rest := by
  rw [rest_eq_iff]
  constructor
  · rintro (_ | _ | ⟨_, hpos, h⟩)
    exact ⟨hpos, h⟩
  · rintro ⟨hpos, h⟩
    exact .passed rest hpos h

theorem rest_eq_error_zero_iff {i : Interval} :
    t.rest = .error (.zero i) ↔ Interval.First (t.interval · = 0) i := by
  rw [rest_eq_iff]
  constructor
  · rintro ⟨_, h⟩
    exact h
  · exact .zero i

theorem rest_eq_error_overrun_iff {slot : Interval} : t.rest = .error (.overrun slot) ↔
    (∀ i, t.interval i ≠ 0) ∧ Interval.First t.Overruns slot := by
  rw [rest_eq_iff]
  constructor
  · rintro (_ | ⟨_, hpos, h⟩ | _)
    exact ⟨hpos, h⟩
  · rintro ⟨hpos, h⟩
    exact .overrun slot hpos h

theorem exists_rest_iff : (∃ rest, t.rest = .ok rest) ↔
    (∀ i, t.interval i ≠ 0) ∧ ∀ slot, ¬ t.Overruns slot := by
  constructor
  · rintro ⟨rest, h⟩
    obtain ⟨hpos, hrest⟩ := rest_eq_ok_iff.1 h
    exact ⟨hpos, hrest.not_overruns⟩
  · rintro ⟨hpos, hfits⟩
    cases h : t.rest with
    | ok rest => exact ⟨rest, rfl⟩
    | error e =>
      cases e with
      | zero i => exact absurd (rest_eq_error_zero_iff.1 h).holds (hpos i)
      | overrun slot => exact absurd (rest_eq_error_overrun_iff.1 h).2.holds (hfits slot)

theorem not_overruns_iff : (∀ slot, ¬ t.Overruns slot) ↔
    t.presenceWait.toNat ≤ t.resetLow.toNat ∧ t.writeOneLow.toNat ≤ t.writeSlot.toNat ∧
      t.readLow.toNat + t.readSettle.toNat ≤ t.readSlot.toNat := by
  constructor
  · intro h
    exact ⟨Nat.not_lt.1 (h .resetLow), Nat.not_lt.1 (h .writeSlot), Nat.not_lt.1 (h .readSlot)⟩
  · rintro ⟨hreset, hwrite, hread⟩ slot
    cases slot with
    | resetLow => exact Nat.not_lt.2 hreset
    | writeSlot => exact Nat.not_lt.2 hwrite
    | readSlot => exact Nat.not_lt.2 hread
    | _ => exact id

end Timing

namespace Schedule
variable {t : Timing} {s : Schedule} {e : TimingError}

theorem ofTiming_eq_ok_iff : ofTiming t = .ok s ↔ s.timing = t := by
  constructor
  · exact timing_of_ofTiming
  · rintro rfl
    exact ofTiming_of_rest s.rest_eq

theorem ofTiming_eq_error_iff : ofTiming t = .error e ↔ t.rest = .error e := by
  cases h : t.rest with
  | ok rest => simp [ofTiming_of_rest h]
  | error e' =>
    unfold ofTiming
    split
    · rename_i h'
      cases h.symm.trans h'
    · rename_i h'
      rw [Except.error.inj (h.symm.trans h')]
      simp

end Schedule

namespace Master
variable {L ε : Type} {adapter : Adapter L ε} {t : Timing} {m : Master L ε}

theorem ofTiming_eq_ok_iff :
    ofTiming adapter t = .ok m ↔ m.adapter = adapter ∧ m.schedule.timing = t := by
  rw [← Schedule.ofTiming_eq_ok_iff, ofTiming]
  cases Schedule.ofTiming t with
  | ok s =>
    cases m
    simp [Except.map, eq_comm]
  | error e => simp [Except.map]

theorem ofTiming_eq_error_iff {e : TimingError} :
    ofTiming adapter t = .error e ↔ t.rest = .error e := by
  rw [← Schedule.ofTiming_eq_error_iff, ofTiming]
  cases Schedule.ofTiming t <;> simp [Except.map]

theorem exists_ofTiming_iff :
    (∃ m, ofTiming adapter t = .ok m) ↔ ∃ rest, t.rest = .ok rest := by
  constructor
  · rintro ⟨m, h⟩
    obtain ⟨-, rfl⟩ := ofTiming_eq_ok_iff.1 h
    exact ⟨m.schedule.rest, m.schedule.rest_eq⟩
  · rintro ⟨rest, h⟩
    exact ⟨⟨adapter, ⟨t, rest, h⟩⟩, ofTiming_eq_ok_iff.2 ⟨rfl, rfl⟩⟩

theorem ofTimingOrFault_eq (adapter : Adapter L ε) (t : Timing) : ofTimingOrFault adapter t =
    (ofTiming adapter t).mapError fun e => "invalid 1-Wire timing: " ++ e.message := by
  rw [ofTimingOrFault, Schedule.ofTimingOrFault, ofTiming]
  cases Schedule.ofTiming t <;> rfl

theorem ofTimingOrFault_eq_ok_iff :
    ofTimingOrFault adapter t = .ok m ↔ ofTiming adapter t = .ok m := by
  rw [ofTimingOrFault_eq]
  cases ofTiming adapter t with
  | ok m' =>
    change (.ok m' : Except String (Master L ε)) = .ok m ↔ _
    rw [Except.ok.injEq, Except.ok.injEq]
  | error e => exact ⟨nofun, nofun⟩

theorem ofTimingOrFault_eq_error_iff {text : String} :
    ofTimingOrFault adapter t = .error text ↔
      ∃ e, t.rest = .error e ∧ text = "invalid 1-Wire timing: " ++ e.message := by
  have he (e : TimingError) : t.rest = .error e ↔ ofTiming adapter t = .error e :=
    ofTiming_eq_error_iff.symm
  simp only [he, ofTimingOrFault_eq]
  cases ofTiming adapter t with
  | ok m => exact ⟨nofun, nofun⟩
  | error e =>
    change (.error ("invalid 1-Wire timing: " ++ e.message) : Except String (Master L ε)) =
      .error text ↔ _
    simp [eq_comm]

end Master

/-- The check of a timing is exact over all words. It passes if no interval is zero and, as natural
numbers, the parts of each slot are no longer than the slot; the rests then make up for them. Any
other timing is refused for its first interval that is zero, and only if there is none for its first
slot that is shorter than its parts. A master is made from each timing that passes; from any other
none is made, and what is reported is the error of the check, or the text of it. -/
theorem Timing.accepts_exactly {L ε : Type} (adapter : Adapter L ε) (t : Timing) :
    ((∃ rest, t.rest = .ok rest) ↔ (∀ i, t.interval i ≠ 0) ∧
      t.presenceWait.toNat ≤ t.resetLow.toNat ∧ t.writeOneLow.toNat ≤ t.writeSlot.toNat ∧
      t.readLow.toNat + t.readSettle.toNat ≤ t.readSlot.toNat) ∧
    (∀ rest, t.rest = .ok rest ↔ (∀ i, t.interval i ≠ 0) ∧ t.Completes rest) ∧
    (∀ i, t.rest = .error (.zero i) ↔ Interval.First (t.interval · = 0) i) ∧
    (∀ slot, t.rest = .error (.overrun slot) ↔
      (∀ i, t.interval i ≠ 0) ∧ Interval.First t.Overruns slot) ∧
    ((∃ m, Master.ofTiming adapter t = .ok m) ↔ ∃ rest, t.rest = .ok rest) ∧
    (∀ m, Master.ofTiming adapter t = .ok m ↔ m.adapter = adapter ∧ m.schedule.timing = t) ∧
    (∀ e, Master.ofTiming adapter t = .error e ↔ t.rest = .error e) ∧
    (∀ m, Master.ofTimingOrFault adapter t = .ok m ↔ Master.ofTiming adapter t = .ok m) ∧
    ∀ text, Master.ofTimingOrFault adapter t = .error text ↔
      ∃ e, t.rest = .error e ∧ text = "invalid 1-Wire timing: " ++ e.message := by
  refine ⟨?_, fun _ => rest_eq_ok_iff, fun _ => rest_eq_error_zero_iff,
    fun _ => rest_eq_error_overrun_iff, Master.exists_ofTiming_iff,
    fun _ => Master.ofTiming_eq_ok_iff, fun _ => Master.ofTiming_eq_error_iff,
    fun _ => Master.ofTimingOrFault_eq_ok_iff, fun _ => Master.ofTimingOrFault_eq_error_iff⟩
  rw [exists_rest_iff, not_overruns_iff]

/-- A sum that a word cannot hold is too long, though it wraps to nothing. -/
example : ({ readLow := 0x80000000, readSettle := 0x80000000 } : Timing).rest =
    .error (.overrun .readSlot) := rfl

end OneWire
