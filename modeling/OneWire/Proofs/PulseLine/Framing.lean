import OneWire.Proofs.PulseLine.Pace
import OneWire.Proofs.SlotLine.Transfer

namespace OneWire

namespace SlotCall

def writtenFirst : List SlotCall → List Bool
  | [] => []
  | reset :: _ => []
  | write bit :: rest => bit :: writtenFirst rest
  | read :: rest => writtenFirst rest

def frames : List SlotCall → List (List Bool)
  | [] => []
  | reset :: rest => writtenFirst rest :: frames rest
  | write _ :: rest => frames rest
  | read :: rest => frames rest

/-- The byte of the first eight bits of a frame, if there are as many. -/
def command? (frame : List Bool) : Option UInt8 :=
  if 8 ≤ frame.length then some (byteOf (frame.take 8)) else none

/-- The ROM commands that are sent, one for each reset that eight bits follow. -/
def romCommands (slots : List SlotCall) : List UInt8 := (frames slots).filterMap command?

theorem romCommands_reset (slots : List SlotCall) : romCommands (reset :: slots) =
    (command? (writtenFirst slots)).toList ++ romCommands slots := by
  unfold romCommands
  rw [frames, List.filterMap_cons]
  cases command? (writtenFirst slots) <;> rfl

theorem command?_of_short {frame : List Bool} (h : frame.length < 8) : command? frame = none :=
  if_neg (Nat.not_le.2 h)

theorem command?_append {first : List Bool} (h : first.length = 8) (rest : List Bool) :
    command? (first ++ rest) = some (byteOf first) := by
  have hlength : 8 ≤ (first ++ rest).length := by
    rw [List.length_append]
    omega
  rw [command?, if_pos hlength, ← h, List.take_left]

end SlotCall

namespace Device
open SlotCall

variable {d : Device}

def undergo (d : Device) : SlotCall → Device
  | .reset => d.reset
  | .write bit => d.hear bit
  | .read => d.answer.2

/-- Until the next reset the device takes no bits for a ROM command. -/
def PastCommand (d : Device) : Prop := ∀ heard, d.phase ≠ .command heard

theorem agree_past {p : Fin 64} {bit : Bool} {onward : Fin 64 → Phase}
    (h : ∀ q heard, onward q ≠ .command heard) :
    (d.agree p bit onward).PastCommand ∧ (d.agree p bit onward).commands = d.commands := by
  unfold agree
  split
  · exact ⟨nofun, rfl⟩
  · split
    · exact ⟨fun heard => h _ heard, rfl⟩
    · exact ⟨nofun, rfl⟩

theorem perform_past (d : Device) (command : UInt8) :
    (d.perform command).PastCommand ∧ (d.perform command).commands = d.commands := by
  unfold perform
  split
  · exact ⟨nofun, rfl⟩
  · split
    · exact ⟨nofun, rfl⟩
    · exact ⟨nofun, rfl⟩

theorem obey_past (d : Device) (command : UInt8) :
    (d.obey command).PastCommand ∧ (d.obey command).commands = d.commands.push command := by
  unfold obey
  cases RomCommand.ofCode? command with
  | none => exact ⟨nofun, rfl⟩
  | some c => cases c <;> exact ⟨nofun, rfl⟩

theorem hear_past (h : d.PastCommand) (bit : Bool) :
    (d.hear bit).PastCommand ∧ (d.hear bit).commands = d.commands := by
  unfold hear
  cases hp : d.phase with
  | command heard => exact absurd hp (h heard)
  | idle => exact ⟨nofun, rfl⟩
  | search p turn =>
    cases turn with
    | direct => exact ⟨nofun, rfl⟩
    | complement => exact ⟨nofun, rfl⟩
    | choice => exact agree_past fun _ _ => nofun
  | sendCode p => exact ⟨nofun, rfl⟩
  | matchCode p => exact agree_past fun _ _ => nofun
  | function heard =>
    dsimp only
    split
    · exact ⟨nofun, rfl⟩
    · exact perform_past d _
  | store => exact ⟨nofun, rfl⟩
  | «recall» position => exact ⟨nofun, rfl⟩

theorem answer_past (h : d.PastCommand) :
    d.answer.2.PastCommand ∧ d.answer.2.commands = d.commands := by
  unfold answer
  cases hp : d.phase with
  | command heard => exact absurd hp (h heard)
  | idle => exact ⟨h, rfl⟩
  | search p turn =>
    cases turn with
    | direct => exact ⟨nofun, rfl⟩
    | complement => exact ⟨nofun, rfl⟩
    | choice => exact ⟨h, rfl⟩
  | sendCode p =>
    refine ⟨?_, rfl⟩
    intro heard
    dsimp only
    cases after p <;> exact nofun
  | matchCode p => exact ⟨h, rfl⟩
  | function heard => exact ⟨h, rfl⟩
  | store => exact ⟨h, rfl⟩
  | «recall» position => exact ⟨nofun, rfl⟩

/-- What the device is to hear of the frame under way, with the slots that are still to come. -/
def due (d : Device) (slots : List SlotCall) : List UInt8 :=
  match d.phase with
  | .command heard => (command? (heard ++ writtenFirst slots)).toList
  | _ => []

/-- All that the device will have recorded after these slots. -/
def account (d : Device) (slots : List SlotCall) : List UInt8 :=
  d.commands.toList ++ d.due slots ++ romCommands slots

def InFrame (d : Device) : Prop := ∀ heard, d.phase = .command heard → heard.length < 8

theorem PastCommand.inFrame (h : d.PastCommand) : d.InFrame := fun heard he => absurd he (h heard)

theorem PastCommand.due (h : d.PastCommand) (slots : List SlotCall) : d.due slots = [] := by
  unfold Device.due
  split
  · exact absurd ‹_› (h _)
  · rfl

theorem due_command {heard : List Bool} (h : d.phase = .command heard) (slots : List SlotCall) :
    d.due slots = (command? (heard ++ writtenFirst slots)).toList := by
  rw [due, h]

theorem due_of_short (h : d.InFrame) {slots : List SlotCall} (hs : writtenFirst slots = []) :
    d.due slots = [] := by
  by_cases hc : ∃ heard, d.phase = .command heard
  · obtain ⟨heard, hp⟩ := hc
    rw [due_command hp, hs, List.append_nil, command?_of_short (h heard hp)]
    rfl
  · exact PastCommand.due (not_exists.1 hc) slots

theorem PastCommand.account (h : d.PastCommand) (slots : List SlotCall) :
    d.account slots = d.commands.toList ++ romCommands slots := by
  rw [Device.account, h.due, List.append_nil]

theorem hear_account (h : d.InFrame) {heard : List Bool} (hp : d.phase = .command heard)
    (bit : Bool) (rest : List SlotCall) :
    (d.hear bit).InFrame ∧ (d.hear bit).account rest = d.account (.write bit :: rest) := by
  have hdue : d.due (.write bit :: rest) =
      (command? ((heard ++ [bit]) ++ writtenFirst rest)).toList := by
    rw [due_command hp, writtenFirst, List.append_assoc, List.singleton_append]
  have hlength : (heard ++ [bit]).length = heard.length + 1 := by simp
  have hshort := h heard hp
  rw [hear_command d heard bit hp, account, account, hdue]
  by_cases hl : heard.length < 7
  · rw [if_pos hl]
    refine ⟨fun heard' he => ?_, rfl⟩
    cases he
    omega
  · rw [if_neg hl]
    obtain ⟨hpast, hcommands⟩ := obey_past d (byteOf (heard ++ [bit]))
    refine ⟨hpast.inFrame, ?_⟩
    rw [hpast.due, hcommands, command?_append (by omega), List.append_nil, Array.toList_push]
    rfl

theorem reset_account (h : d.InFrame) (rest : List SlotCall) :
    d.reset.InFrame ∧ d.reset.account rest = d.account (.reset :: rest) := by
  have hp : d.reset.phase = .command [] := rfl
  refine ⟨fun heard he => ?_, ?_⟩
  · cases hp.symm.trans he
    decide
  · rw [account, account, due_command hp, due_of_short h rfl, romCommands_reset, List.append_nil,
      List.append_assoc]
    rfl

theorem undergo_account (h : d.InFrame) (call : SlotCall) (rest : List SlotCall) :
    (d.undergo call).InFrame ∧ (d.undergo call).account rest = d.account (call :: rest) := by
  by_cases hc : ∃ heard, d.phase = .command heard
  · obtain ⟨heard, hp⟩ := hc
    cases call with
    | reset => exact reset_account h rest
    | write bit => exact hear_account h hp bit rest
    | read =>
      -- a device that waits for a command leaves the line alone
      have hsame : d.undergo .read = d := by
        rw [undergo, answer, hp]
      rw [hsame, account, account, due_command hp, due_command hp]
      exact ⟨h, rfl⟩
  · have hpast : d.PastCommand := not_exists.1 hc
    cases call with
    | reset => exact reset_account h rest
    | write bit =>
      obtain ⟨hlater, hcommands⟩ := hear_past hpast bit
      refine ⟨hlater.inFrame, ?_⟩
      rw [undergo, hlater.account, hpast.account, hcommands]
      rfl
    | read =>
      obtain ⟨hlater, hcommands⟩ := answer_past hpast
      refine ⟨hlater.inFrame, ?_⟩
      rw [undergo, hlater.account, hpast.account, hcommands]
      rfl

theorem commands_foldl_undergo (h : d.InFrame) (slots : List SlotCall) :
    (slots.foldl undergo d).commands.toList = d.account slots := by
  induction slots generalizing d with
  | nil =>
    rw [account, due_of_short h rfl, List.append_nil]
    exact (List.append_nil _).symm
  | cons call rest ih =>
    obtain ⟨hnext, heq⟩ := undergo_account h call rest
    rw [List.foldl_cons, ih hnext, heq]

end Device

theorem SlotCall.devices_meaning (call : SlotCall) (inTime : Bool) (line : SlotLine) :
    (call.meaning inTime line).2.devices = line.devices.map (·.undergo call) := by
  cases call with
  | reset => rfl
  | write bit => rfl
  | read =>
    rw [meaning, SlotLine.read, answerAll_eq]
    rfl

namespace PulseLine
open Transaction

variable {line later : PulseLine} {s : Schedule} {slots : List SlotCall}

theorem proceeds_undergo (timer : Timer) (h : s.Legible) :
    Proceeds (master timer s).slots (fun line => line.Free ∧ line.Faultless)
      fun line call later => later.settled.devices = line.settled.devices.map (·.undergo call) where
  reset line hi := by
    obtain ⟨present, later, he, hf, -, hfree, hsettled⟩ :=
      (runs_reset timer h hi.1.sound hi.1.shorted).of_faultless hi.2
    refine ⟨present, later, he, ⟨hfree, hf⟩, ?_⟩
    rw [hsettled]
    exact SlotCall.devices_meaning .reset s.inTime line.settled
  write line hi bit := by
    obtain ⟨_, later, he, hf, hfree, hsettled⟩ := (runs_write timer h hi.1 bit).of_faultless hi.2
    refine ⟨later, he, ⟨hfree, hf⟩, ?_⟩
    rw [hsettled]
    exact SlotCall.devices_meaning (.write bit) s.inTime line.settled
  read line hi := by
    obtain ⟨level, later, he, hf, -, hfree, hsettled⟩ := (runs_read timer h hi.1).of_faultless hi.2
    refine ⟨level, later, he, ⟨hfree, hf⟩, ?_⟩
    rw [hsettled]
    exact SlotCall.devices_meaning .read s.inTime line.settled

theorem devices_of_chain (hc : Chain (fun line call later =>
      later.settled.devices = line.settled.devices.map (·.undergo call)) line slots later) :
    later.settled.devices = line.settled.devices.map (slots.foldl Device.undergo ·) := by
  induction hc with
  | nil line => exact (List.map_id _).symm
  | cons hcall hrest ih =>
    rw [ih, hcall, List.map_map]
    rfl

/-- On a new line every device hears the same ROM commands, whatever calls are made: for each reset
the byte of the first eight bits that are written after it, and none if fewer are. So reads count
for nothing, nor do the bits of codes, of search decisions, of function commands and of data, and no
device is ever out of step with the master. -/
theorem commands_framed (timer : Timer) (h : s.Legible) (codes : List RomCode)
    (calls : List Call) :
    let slots := Call.allTaken (master timer s).slots calls (ofCodes codes)
    let line :=
      calls.foldl (fun line call => call.lineAfter (master timer s).slots line) (ofCodes codes)
    ∀ i, line.settle.commands i =
      if i < codes.length then .ok (SlotCall.romCommands slots)
      else .error ⟨codes.length, i⟩ := by
  intro slots line i
  have hnew : (ofCodes codes).Free ∧ (ofCodes codes).Faultless := ⟨⟨rfl, rfl⟩, nofun⟩
  have hchain := (Call.chain_foldl (proceeds_undergo timer h) hnew calls).2
  have hdevices : line.settle.devices =
      codes.map fun code => slots.foldl Device.undergo { code } :=
    (devices_of_chain hchain).trans List.map_map
  have hheard (code : RomCode) : (slots.foldl Device.undergo { code }).commands.toList =
      SlotCall.romCommands slots := by
    have hidle : ({ code } : Device).PastCommand := nofun
    rw [Device.commands_foldl_undergo hidle.inFrame, hidle.account]
    rfl
  rw [commands, hdevices, List.getElem?_map, List.length_map]
  by_cases hi : i < codes.length
  · rw [if_pos hi, List.getElem?_eq_getElem hi]
    exact congrArg Except.ok (hheard _)
  · rw [if_neg hi, List.getElem?_eq_none (Nat.le_of_not_lt hi)]
    rfl

/-- A byte before the first reset, a frame cut off with a read in it, a pass of a search, and data
for all devices. -/
theorem commands_framed_standard :
    let first := RomCode.make 0x28 #v[1, 2, 3, 4, 5, 6]
    let second := RomCode.make 0x10 #v[1, 2, 3, 4, 5, 6]
    let calls : List Call := [.transaction (sendByte 0x33) (), .transaction reset (),
      .transaction (send [0x55]) (), .transaction reset (), .transaction (sendBit true) (),
      .transaction receiveBit (), .sweep ⟨{}, false⟩, .transaction selectAll (),
      .transaction (send [0x4e, 0xcc]) ()]
    let line := calls.foldl (fun line call => call.lineAfter (master .plain .standard).slots line)
      (ofCodes [first, second])
    Schedule.standard.Legible ∧ line.settle.commands 0 = .ok [0x55, 0xf0, 0xcc] ∧
      line.settle.commands 1 = .ok [0x55, 0xf0, 0xcc] ∧ line.settle.commands 2 = .error ⟨2, 2⟩ := by
  intro first second calls line
  have hframed := commands_framed .plain Schedule.legible_standard [first, second] calls
  have hsent : SlotCall.romCommands (Call.allTaken (master .plain .standard).slots calls
      (ofCodes [first, second])) = [0x55, 0xf0, 0xcc] := by decide +kernel
  refine ⟨Schedule.legible_standard, (hframed 0).trans ?_, (hframed 1).trans ?_, hframed 2⟩
  · exact congrArg Except.ok hsent
  · exact congrArg Except.ok hsent

end PulseLine

end OneWire
