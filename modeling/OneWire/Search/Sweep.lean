import OneWire.Exchange.Run
import OneWire.Search.Basic

namespace OneWire

structure Sweep where
  search : Search
  stopped : Bool := false
  deriving DecidableEq, Repr

namespace Sweep
variable {L ε : Type}

/-- A code, an error, or nothing once the sweep is over. -/
abbrev Item (ε : Type) : Type := Option (Except (BusError ε) RomCode)

def next (slots : Slots L ε) (s : Sweep) (line : L) : Outcome L Sweep (Item ε) :=
  if s.stopped then ⟨line, s, [], none⟩
  else
    let ⟨line, search, log, result⟩ := (Search.next s.search).run slots line
    match result with
    | .ok c => ⟨line, { s with search }, log, some (.ok c)⟩
    | .error (.refused .exhausted) => ⟨line, { s with search }, log, none⟩
    | .error e => ⟨line, ⟨search, true⟩, log, some (.error e)⟩

def take (slots : Slots L ε) : Nat → Sweep → L → Outcome L Sweep (List (Item ε))
  | 0, s, line => ⟨line, s, [], []⟩
  | n + 1, s, line =>
    let first := s.next slots line
    let rest := take slots n first.kept first.line
    ⟨rest.line, rest.kept, first.log ++ rest.log, first.result :: rest.result⟩

theorem next_of_stopped (slots : Slots L ε) {s : Sweep} (h : s.stopped) (line : L) :
    s.next slots line = ⟨line, s, [], none⟩ := by simp [next, h]

end Sweep

end OneWire
