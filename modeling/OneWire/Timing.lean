import OneWire.Duration

namespace OneWire

inductive Interval where
  | resetLow
  /-- From the end of the reset pulse to the sample for presence. -/
  | presenceWait
  | writeSlot
  | writeOneLow
  | writeRecovery
  | readSlot
  | readLow
  /-- From the end of the low phase of a read slot to its sample. -/
  | readSettle
  | readRecovery
  deriving DecidableEq, Repr

namespace Interval

def all : List Interval :=
  [resetLow, presenceWait, writeSlot, writeOneLow, writeRecovery, readSlot, readLow, readSettle,
   readRecovery]

def name : Interval → String
  | resetLow => "reset_pulse"
  | presenceWait => "presence_pulse"
  | writeSlot => "write_slot"
  | writeOneLow => "write_bit"
  | writeRecovery => "write_recovery"
  | readSlot => "read_slot"
  | readLow => "read_bit_init"
  | readSettle => "read_bit_rc"
  | readRecovery => "read_recovery"

theorem mem_all (i : Interval) : i ∈ all := by cases i <;> decide

end Interval

structure Timing where
  resetLow : UInt32 := 480
  presenceWait : UInt32 := 60
  writeSlot : UInt32 := 60
  writeOneLow : UInt32 := 10
  writeRecovery : UInt32 := 1
  readSlot : UInt32 := 60
  readLow : UInt32 := 5
  readSettle : UInt32 := 5
  readRecovery : UInt32 := 1
  deriving DecidableEq, Repr

structure Rest where
  /-- After the sample for presence, until the line has been free as long as it was held. -/
  reset : UInt32
  write : UInt32
  read : UInt32
  deriving DecidableEq, Repr

inductive TimingError where
  | zero (interval : Interval)
  | overrun (slot : Interval)
  deriving DecidableEq, Repr

def TimingError.message : TimingError → String
  | .zero i => i.name ++ " must not be zero"
  | .overrun i => i.name ++ " is shorter than its parts"

namespace Timing

def interval (t : Timing) : Interval → UInt32
  | .resetLow => t.resetLow
  | .presenceWait => t.presenceWait
  | .writeSlot => t.writeSlot
  | .writeOneLow => t.writeOneLow
  | .writeRecovery => t.writeRecovery
  | .readSlot => t.readSlot
  | .readLow => t.readLow
  | .readSettle => t.readSettle
  | .readRecovery => t.readRecovery

def leave (t : Timing) (slot : Interval) (parts : List Interval) : Except TimingError UInt32 :=
  match Duration.remainder? (t.interval slot) (parts.map t.interval) with
  | some us => .ok us
  | none => .error (.overrun slot)

/-- No interval may be zero and no slot shorter than its parts; the first zero interval counts
before any slot. -/
def rest (t : Timing) : Except TimingError Rest :=
  match Interval.all.find? (t.interval · == 0) with
  | some i => .error (.zero i)
  | none => do
    let reset ← t.leave .resetLow [.presenceWait]
    let write ← t.leave .writeSlot [.writeOneLow]
    let read ← t.leave .readSlot [.readLow, .readSettle]
    return { reset, write, read }

theorem toNat_leave {t : Timing} {slot : Interval} {parts : List Interval} {us : UInt32}
    (h : t.leave slot parts = .ok us) :
    us.toNat + Duration.total (parts.map t.interval) = (t.interval slot).toNat := by
  unfold leave at h
  split at h
  · rename_i hr
    cases h
    exact Duration.toNat_remainder? hr
  · cases h

theorem leave_of_rest {t : Timing} {rest : Rest} (h : t.rest = .ok rest) :
    t.leave .resetLow [.presenceWait] = .ok rest.reset ∧
      t.leave .writeSlot [.writeOneLow] = .ok rest.write ∧
      t.leave .readSlot [.readLow, .readSettle] = .ok rest.read := by
  unfold Timing.rest at h
  split at h
  · cases h
  · simp only [bind, Except.bind, pure, Except.pure] at h
    split at h
    · cases h
    · split at h
      · cases h
      · split at h
        · cases h
        · cases h
          exact ⟨‹_›, ‹_›, ‹_›⟩

end Timing

structure Schedule where
  timing : Timing
  rest : Rest
  rest_eq : timing.rest = .ok rest
  deriving DecidableEq

namespace Schedule

def ofTiming (t : Timing) : Except TimingError Schedule :=
  match h : t.rest with
  | .ok rest => .ok ⟨t, rest, h⟩
  | .error e => .error e

/-- For a caller that takes the timing to be right: an error is a fault of the program, with the
text it stops with. -/
def ofTimingOrFault (t : Timing) : Except String Schedule :=
  (ofTiming t).mapError fun e => "invalid 1-Wire timing: " ++ e.message

theorem ofTiming_of_rest {t : Timing} {rest : Rest} (h : t.rest = .ok rest) :
    ofTiming t = .ok ⟨t, rest, h⟩ := by
  unfold ofTiming
  split
  · rename_i h'
    cases h.symm.trans h'
    rfl
  · rename_i h'
    cases h.symm.trans h'

@[simp] theorem timing_of_ofTiming {t : Timing} {s : Schedule} (h : ofTiming t = .ok s) :
    s.timing = t := by
  unfold ofTiming at h
  split at h <;> cases h
  rfl

theorem toNat_rest (s : Schedule) :
    s.timing.presenceWait.toNat + s.rest.reset.toNat = s.timing.resetLow.toNat ∧
      s.timing.writeOneLow.toNat + s.rest.write.toNat = s.timing.writeSlot.toNat ∧
      s.timing.readLow.toNat + s.timing.readSettle.toNat + s.rest.read.toNat =
        s.timing.readSlot.toNat := by
  obtain ⟨hreset, hwrite, hread⟩ := Timing.leave_of_rest s.rest_eq
  have hr := Timing.toNat_leave hreset
  have hw := Timing.toNat_leave hwrite
  have hd := Timing.toNat_leave hread
  simp only [List.map_cons, List.map_nil, Duration.total_cons, Duration.total_nil,
    Timing.interval] at hr hw hd
  omega

end Schedule

end OneWire
