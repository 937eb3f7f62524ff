import OneWire.Addressing

namespace OneWire

/-- A pass goes down the tree of ROM codes, one position at a time, and reports the device at the
leaf. Where devices differ it takes the low branch first; the next pass follows the last code down
to the deepest low branch and takes the high one there. -/
structure Search where
  finished : Bool := false
  deepestLow : Option Nat := none
  /-- The position at which the running pass takes the high branch. -/
  branch : Option Nat := none
  lowBranches : Nat := 0
  lastCode : RomCode := .zero
  deriving DecidableEq, Repr

namespace Search
open Transaction

/-- The branch to take at a position where devices differ: the last code's above the branch point,
high at that point, low below it. -/
def choice (s : Search) (p : Fin 64) : Bool :=
  match s.branch with
  | none => false
  | some b => if p.val = b then true else if p.val < b then s.lastCode.bit p else false

def takeLow (s : Search) (p : Fin 64) : Search :=
  { s with deepestLow := some p.val, lowBranches := s.lowBranches + 1 }

def branchAt (p : Fin 64) : Transaction Search Bool := do
  let bit := (← get).choice p
  unless bit do modify (·.takeLow p)
  return bit

/-- The bit to take where `direct` and `complement` were heard. Two ones mean that no device is
left, two zeros that devices differ. -/
def resolve (p : Fin 64) (direct complement : Bool) : Transaction Search Bool :=
  match direct, complement with
  | true, true => refuse .noResponse
  | true, false => pure true
  | false, true => pure false
  | false, false => branchAt p

def step (p : Fin 64) : Transaction Search Bool := do
  let direct ← receiveBit
  let complement ← receiveBit
  let bit ← resolve p direct complement
  sendBit bit
  return bit

def descend : List (Fin 64) → RomCode → Transaction Search RomCode
  | [], c => pure c
  | p :: rest, c => do
    let bit ← step p
    descend rest (c.withBit p bit)

def begin (s : Search) : Search := { s with deepestLow := none, lowBranches := 0 }

def found (s : Search) (c : RomCode) : Search :=
  { s with lastCode := c, branch := s.deepestLow, finished := s.lowBranches == 0 }

/-- Refuses the code of a line stuck low, whose checksum is right, and codes with a wrong one. -/
def accept (c : RomCode) : Transaction Search Unit :=
  if c = .zero then do
    note .zeroCode
    refuse .stuckLow
  else if c.Valid then do
    modify (·.found c)
    note (.found c)
  else do
    note (.badChecksum c)
    ofExcept c.check

def toLeaf : Transaction Search RomCode := do
  reset
  sendByte RomCommand.searchRom.code
  note (.searchPass (← get).branch)
  modify begin
  descend (List.finRange 64) .zero

/-- One pass. A refused one leaves `finished`, `branch` and `lastCode` as they were, so the next
one repeats it. -/
def pass : Transaction Search RomCode := do
  let c ← toLeaf
  accept c
  return c

def next : Transaction Search RomCode := do
  if (← get).finished then refuse .exhausted else pass

def firstOfFamily (family : UInt8) : (limit : Nat) → Transaction Search (Option RomCode)
  | 0 => pure none
  | limit + 1 => do
    if (← get).finished then pure none
    else
      let c ← pass
      if c.family = family then pure (some c) else firstOfFamily family limit

end Search

/-- The first device of a family in the order of the search. There are as many codes as 64-bit
words and devices take at most a pass for each, so the limit ends only a walk on a line that makes
up codes for ever. -/
def Transaction.firstOfFamily {σ : Type} (family : UInt8) : Transaction σ (Option RomCode) :=
  within {} (Search.firstOfFamily family UInt64.size)

end OneWire
