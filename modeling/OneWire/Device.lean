import OneWire.RomCode.Basic
import OneWire.RomCommand

namespace OneWire

inductive SearchTurn where
  | direct
  | complement
  | choice
  deriving DecidableEq, Repr

inductive Phase where
  /-- Deaf until the next reset. -/
  | idle
  | command (heard : List Bool)
  | search (position : Fin 64) (turn : SearchTurn)
  | sendCode (position : Fin 64)
  | matchCode (position : Fin 64)
  | function (heard : List Bool)
  | store
  | recall (position : Nat)
  deriving DecidableEq, Repr

structure Device where
  code : RomCode
  phase : Phase := .idle
  selected : Bool := false
  commands : Array UInt8 := #[]
  scratchpad : Array Bool := #[]
  deriving DecidableEq, Repr

namespace Device

/-- The function command that empties the scratchpad and fills it with the bits that follow. -/
def writeScratchpad : UInt8 := 0x4E

/-- The function command that sends the scratchpad, and ones after its end. -/
def readScratchpad : UInt8 := 0xBE

def reset (d : Device) : Device := { d with phase := .command [], selected := false }

def select (d : Device) : Device := { d with phase := .function [], selected := true }

def obey (d : Device) (command : UInt8) : Device :=
  let d := { d with commands := d.commands.push command }
  match RomCommand.ofCode? command with
  | some .searchRom => { d with phase := .search 0 .direct }
  | some .readRom => { d with phase := .sendCode 0 }
  | some .matchRom => { d with phase := .matchCode 0 }
  | some .skipRom => d.select
  | none => { d with phase := .idle }

def perform (d : Device) (command : UInt8) : Device :=
  if command = writeScratchpad then { d with phase := .store, scratchpad := #[] }
  else if command = readScratchpad then { d with phase := .recall 0 }
  else { d with phase := .idle }

def after (p : Fin 64) : Option (Fin 64) := if h : p.val + 1 < 64 then some ⟨p.val + 1, h⟩ else none

/-- Compares a bit of the code with the one on the line. A device that differs drops out; one that
agrees at the last position is addressed. -/
def agree (d : Device) (p : Fin 64) (bit : Bool) (onward : Fin 64 → Phase) : Device :=
  if bit ≠ d.code.bit p then { d with phase := .idle }
  else match after p with
    | some q => { d with phase := onward q }
    | none => d.select

/-- A write slot. A device that should be sending drops out. -/
def hear (d : Device) (bit : Bool) : Device :=
  match d.phase with
  | .command heard =>
    if heard.length < 7 then { d with phase := .command (heard ++ [bit]) }
    else d.obey (byteOf (heard ++ [bit]))
  | .search p .choice => d.agree p bit (.search · .direct)
  | .matchCode p => d.agree p bit .matchCode
  | .function heard =>
    if heard.length < 7 then { d with phase := .function (heard ++ [bit]) }
    else d.perform (byteOf (heard ++ [bit]))
  | .store => { d with scratchpad := d.scratchpad.push bit }
  | _ => { d with phase := .idle }

/-- A read slot: the bit sent, a one when the device leaves the line alone. -/
def answer (d : Device) : Bool × Device :=
  match d.phase with
  | .search p .direct => (d.code.bit p, { d with phase := .search p .complement })
  | .search p .complement => (!d.code.bit p, { d with phase := .search p .choice })
  | .sendCode p =>
    (d.code.bit p, { d with phase := match after p with
      | some q => .sendCode q
      | none => .idle })
  | .recall p => (d.scratchpad.getD p true, { d with phase := .recall (p + 1) })
  | _ => (true, d)

@[simp] theorem code_reset (d : Device) : d.reset.code = d.code := rfl

@[simp] theorem code_hear (d : Device) (bit : Bool) : (d.hear bit).code = d.code := by
  unfold hear obey perform agree select
  grind

@[simp] theorem code_answer (d : Device) : d.answer.2.code = d.code := by
  unfold answer
  grind

end Device

def answerAll : List Device → Bool × List Device
  | [] => (true, [])
  | d :: rest =>
    let (bit, d) := d.answer
    let (level, rest) := answerAll rest
    (bit && level, d :: rest)

end OneWire
