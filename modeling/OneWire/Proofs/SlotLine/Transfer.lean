import OneWire.Exchange.Run
import OneWire.SlotLine
import OneWire.Transfer

namespace OneWire

theorem drop_finRange_cons {n k : Nat} {p : Fin n} {ps : List (Fin n)}
    (h : (List.finRange n).drop k = p :: ps) : p.val = k ∧ (List.finRange n).drop (k + 1) = ps := by
  constructor
  · have hp : (List.finRange n)[k]? = some p := by
      rw [← List.head?_drop, h]
      rfl
    obtain ⟨hk, rfl⟩ := List.getElem?_eq_some_iff.1 hp
    simp
  · rw [← List.tail_drop, h]
    rfl

namespace Exchange
variable {L ε σ α β : Type} {slots : Slots L ε} {x : Exchange σ α} {f : σ → α → Exchange σ β}
  {line later : L} {kept : σ} {log : List Note}

theorem run_bind_of_ok {a : α} (h : x.run slots line = ⟨later, kept, log, .ok a⟩) :
    (x.bind f).run slots line = { (f kept a).run slots later with
      log := log ++ ((f kept a).run slots later).log } := by
  rw [run_bind, h]

theorem run_bind_of_error {e : BusError ε}
    (h : x.run slots line = ⟨later, kept, log, .error e⟩) :
    (x.bind f).run slots line = ⟨later, kept, log, .error e⟩ := by
  rw [run_bind, h]

end Exchange

theorem answerAll_eq (ds : List Device) :
    answerAll ds = (ds.all (·.answer.1), ds.map (·.answer.2)) := by
  induction ds with
  | nil => rfl
  | cons d ds ih => simp [answerAll, ih]

namespace Device

/-- A device that collects bits acts on them once it has eight. -/
theorem foldl_hear_collecting {collect : List Bool → Phase} {act : Device → UInt8 → Device}
    (hhear : ∀ (d : Device) heard bit, d.phase = collect heard → d.hear bit =
      if heard.length < 7 then { d with phase := collect (heard ++ [bit]) }
      else act d (byteOf (heard ++ [bit])))
    (hact : ∀ (d : Device) phase b, act { d with phase } b = act d b)
    {bits heard : List Bool} {d : Device} (hd : d.phase = collect heard) (hn : bits ≠ [])
    (hl : heard.length + bits.length = 8) : bits.foldl hear d = act d (byteOf (heard ++ bits)) := by
  induction bits generalizing d heard with
  | nil => exact absurd rfl hn
  | cons bit rest ih =>
    rw [List.length_cons] at hl
    rw [List.foldl_cons, hhear d heard bit hd]
    cases rest with
    | nil =>
      rw [List.foldl_nil]
      exact if_neg (by simp at hl; omega)
    | cons bit' rest =>
      rw [if_pos (by simp at hl; omega),
        ih (d := { d with phase := collect (heard ++ [bit]) }) rfl (by simp)
          (by simp at hl ⊢; omega), hact]
      simp

theorem hear_command (d : Device) (heard : List Bool) (bit : Bool) (hd : d.phase = .command heard) :
    d.hear bit = if heard.length < 7 then { d with phase := .command (heard ++ [bit]) }
      else d.obey (byteOf (heard ++ [bit])) := by rw [hear, hd]

theorem foldl_hear_reset (d : Device) (command : UInt8) :
    (bitsOf command).foldl hear d.reset = d.reset.obey command := by
  rw [foldl_hear_collecting hear_command (fun _ _ _ => rfl) (d := d.reset) rfl (by simp [bitsOf])
    (by simp)]
  simp

theorem foldl_hear_function {d : Device} (hd : d.phase = .function []) (command : UInt8) :
    (bitsOf command).foldl hear d = d.perform command := by
  have hhear (d : Device) (heard : List Bool) (bit : Bool) (hd : d.phase = .function heard) :
      d.hear bit = if heard.length < 7 then { d with phase := .function (heard ++ [bit]) }
        else d.perform (byteOf (heard ++ [bit])) := by rw [hear, hd]
  rw [foldl_hear_collecting hhear (fun _ _ _ => rfl) hd (by simp [bitsOf]) (by simp)]
  simp

end Device

namespace SlotLine
variable {ε σ α : Type} {inTime : Bool}

@[simp] theorem run_write (bit : Bool) (kept : σ) (next : Exchange σ α) (line : SlotLine) :
    (Exchange.write bit kept next).run (slots (ε := ε) inTime) line =
      next.run (slots inTime) (line.write bit) := rfl

@[simp] theorem run_read (kept : σ) (next : Bool → Exchange σ α) (line : SlotLine) :
    (Exchange.read kept next).run (slots (ε := ε) inTime) line =
      (next (line.read inTime).1).run (slots inTime) (line.read inTime).2 := rfl

/-- The line after the devices have heard some bits. -/
def writes (line : SlotLine) (bits : List Bool) : SlotLine :=
  ⟨line.devices.map fun d => bits.foldl Device.hear d, line.written ++ bits.toArray⟩

theorem writes_write (line : SlotLine) (bit : Bool) (bits : List Bool) :
    (line.write bit).writes bits = line.writes (bit :: bits) := by
  simp [writes, write, Function.comp_def]

theorem run_sendBits (kept : σ) (bits : List Bool) (line : SlotLine) :
    ((bits.forM Transaction.sendBit : Transaction σ Unit) kept).run (slots (ε := ε) inTime) line =
      ⟨line.writes bits, kept, [], .ok ()⟩ := by
  induction bits generalizing line with
  | nil => simp [writes]; rfl
  | cons bit bits ih => exact (ih (line.write bit)).trans (by rw [writes_write])

theorem run_sendByte (kept : σ) (b : UInt8) (line : SlotLine) :
    (Transaction.sendByte b kept).run (slots (ε := ε) inTime) line =
      ⟨line.writes (bitsOf b), kept, [], .ok ()⟩ := run_sendBits kept (bitsOf b) line

theorem run_reset (inTime : Bool) (kept : σ) (line : SlotLine) :
    (Transaction.reset kept).run (slots (ε := ε) inTime) line =
      if line.devices.isEmpty then ⟨line.reset, kept, [.noPresence], .error (.refused .noResponse)⟩
      else ⟨line.reset, kept, [], .ok ()⟩ := by
  obtain ⟨_ | ⟨d, ds⟩, written⟩ := line <;> rfl

end SlotLine

end OneWire
