import OneWire.Proofs.PulseLine.Clock
import OneWire.Proofs.Search.Pass

namespace OneWire

namespace Exchange
variable {L ε σ α β : Type}

/-- The slots that a run takes, in order, up to one that fails. -/
def taken (slots : Slots L ε) : Exchange σ α → L → List SlotCall
  | done _ _, _ => []
  | reset _ next, line =>
    match slots.reset line with
    | .ok present later => .reset :: (next present).taken slots later
    | .error _ _ => []
  | write bit _ next, line =>
    match slots.write bit line with
    | .ok _ later => .write bit :: next.taken slots later
    | .error _ _ => []
  | read _ next, line =>
    match slots.read line with
    | .ok level later => .read :: (next level).taken slots later
    | .error _ _ => []
  | note _ next, line => next.taken slots line

/-- Whatever is heard, `P` holds in the end of the slots taken and of the result. -/
def Takes : Exchange σ α → (List SlotCall → Except Refusal α → Prop) → Prop
  | done _ result, P => P [] result
  | reset _ next, P => ∀ present, (next present).Takes fun rest => P (.reset :: rest)
  | write bit _ next, P => next.Takes fun rest => P (.write bit :: rest)
  | read _ next, P => ∀ level, (next level).Takes fun rest => P (.read :: rest)
  | note _ next, P => next.Takes P

variable {x : Exchange σ α} {f : σ → α → Exchange σ β} {P : List SlotCall → Except Refusal β → Prop}
  {Q : List SlotCall → Except Refusal α → Prop}

theorem Takes.mono {Q' : List SlotCall → Except Refusal α → Prop} (h : x.Takes Q)
    (hq : ∀ slots result, Q slots result → Q' slots result) : x.Takes Q' := by
  induction x generalizing Q Q' with
  | done kept result => exact hq [] result h
  | reset kept next ih => exact fun present => ih present (h present) fun _ => hq _
  | write bit kept next ih => exact ih h fun _ => hq _
  | read kept next ih => exact fun level => ih level (h level) fun _ => hq _
  | note record next ih => exact ih h hq

theorem Takes.bind (h : x.Takes Q)
    (hok : ∀ first kept a, Q first (.ok a) → (f kept a).Takes fun rest => P (first ++ rest))
    (herror : ∀ slots reason, Q slots (.error reason) → P slots (.error reason)) :
    (x.bind f).Takes P := by
  induction x generalizing P Q with
  | done kept result =>
    cases result with
    | ok a => exact hok [] kept a h
    | error reason => exact herror [] reason h
  | reset kept next ih =>
    exact fun present => ih present (h present) (fun _ => hok _) fun _ => herror _
  | write bit kept next ih => exact ih h (fun _ => hok _) fun _ => herror _
  | read kept next ih => exact fun level => ih level (h level) (fun _ => hok _) fun _ => herror _
  | note record next ih => exact ih h hok herror

theorem Takes.run (h : x.Takes Q) (slots : Slots L ε) (line : L) :
    (∃ fault, (x.run slots line).result = .error (.failed fault)) ∨
      ∃ result, (x.run slots line).result = result.mapError .refused ∧
        Q (x.taken slots line) result := by
  induction x generalizing Q line with
  | done kept result => exact .inr ⟨result, rfl, h⟩
  | reset kept next ih =>
    rw [Exchange.run, taken]
    cases slots.reset line with
    | ok present later => exact ih present (h present) later
    | error fault later => exact .inl ⟨fault, rfl⟩
  | write bit kept next ih =>
    rw [Exchange.run, taken]
    cases slots.write bit line with
    | ok _ later => exact ih h later
    | error fault later => exact .inl ⟨fault, rfl⟩
  | read kept next ih =>
    rw [Exchange.run, taken]
    cases slots.read line with
    | ok level later => exact ih level (h level) later
    | error fault later => exact .inl ⟨fault, rfl⟩
  | note record next ih => exact ih h line

end Exchange

section Slotwise
variable {L ε σ α : Type} {line mid later : L} {slots : Slots L ε} {inv : L → Prop}
  {R : L → SlotCall → L → Prop} {first second : List SlotCall}

inductive Chain (R : L → SlotCall → L → Prop) : L → List SlotCall → L → Prop
  | nil (line : L) : Chain R line [] line
  | cons {line mid later : L} {call : SlotCall} {rest : List SlotCall} (h : R line call mid)
      (hrest : Chain R mid rest later) : Chain R line (call :: rest) later

theorem Chain.append (h : Chain R line first mid) (h' : Chain R mid second later) :
    Chain R line (first ++ second) later := by
  induction h with
  | nil line => exact h'
  | cons hcall hrest ih => exact .cons hcall (ih h')

/-- As long as `inv` holds no slot fails, and each keeps `inv` and leads to a line in `R`. -/
structure Proceeds (slots : Slots L ε) (inv : L → Prop) (R : L → SlotCall → L → Prop) :
    Prop where
  reset : ∀ line, inv line → ∃ present later,
    slots.reset line = .ok present later ∧ inv later ∧ R line .reset later
  write : ∀ line, inv line → ∀ bit, ∃ later,
    slots.write bit line = .ok () later ∧ inv later ∧ R line (.write bit) later
  read : ∀ line, inv line → ∃ level later,
    slots.read line = .ok level later ∧ inv later ∧ R line .read later

theorem Proceeds.run (h : Proceeds slots inv R) (hi : inv line) (x : Exchange σ α) :
    inv (x.run slots line).line ∧ Chain R line (x.taken slots line) (x.run slots line).line := by
  induction x generalizing line with
  | done kept result => exact ⟨hi, .nil line⟩
  | reset kept next ih =>
    obtain ⟨present, later, he, hlater, hr⟩ := h.reset line hi
    rw [Exchange.run, Exchange.taken, he]
    exact (ih present hlater).imp_right (.cons hr)
  | write bit kept next ih =>
    obtain ⟨later, he, hlater, hr⟩ := h.write line hi bit
    rw [Exchange.run, Exchange.taken, he]
    exact (ih hlater).imp_right (.cons hr)
  | read kept next ih =>
    obtain ⟨level, later, he, hlater, hr⟩ := h.read line hi
    rw [Exchange.run, Exchange.taken, he]
    exact (ih level hlater).imp_right (.cons hr)
  | note record next ih => exact ih hi

end Slotwise

namespace PulseLine

variable {line mid later : PulseLine}

theorem Runs.of_faultless {α : Type} {Q : α → PulseLine → Prop}
    {x : EStateM LineFault PulseLine α} (h : Runs x line Q) (hf : line.Faultless) :
    ∃ a later, x line = .ok a later ∧ later.Faultless ∧ Q a later := by
  rcases h.cases with ⟨a, later, he, hl, hq⟩ | ⟨later, -, hs⟩
  · exact ⟨a, later, he, hl.faultless hf, hq⟩
  · exact absurd hs hf.not_struck

def InStep (s : Schedule) (line : PulseLine) (slots : List SlotCall) (later : PulseLine) : Prop :=
  Moves line (s.span slots) (slots.map s.lowPhase) later

theorem InStep.trans {s : Schedule} {first second : List SlotCall} (h : InStep s line first mid)
    (h' : InStep s mid second later) : InStep s line (first ++ second) later := by
  unfold InStep
  rw [Schedule.span_append, List.map_append]
  exact Moves.trans h h'

section Runs
variable {α σ : Type} (timer : Timer) (s : Schedule) (h : line.lowSince = none)
include h

end Runs

end PulseLine

/-- Anything that a caller has a master do on a line, from a state of its own. -/
inductive Call : Type 1
  | transaction {σ α : Type} (t : Transaction σ α) (kept : σ)
  | sweep (s : Sweep)

namespace Call
variable {L ε : Type}

def lineAfter (slots : Slots L ε) (line : L) : Call → L
  | transaction t kept => ((t kept).run slots line).line
  | sweep s => (s.next slots line).line

def taken (slots : Slots L ε) (line : L) : Call → List SlotCall
  | transaction t kept => (t kept).taken slots line
  | sweep s => if s.stopped then [] else (Search.next s.search).taken slots line

/-- The slots of calls one after the other. -/
def allTaken (slots : Slots L ε) : List Call → L → List SlotCall
  | [], _ => []
  | call :: rest, line =>
    call.taken slots line ++ allTaken slots rest (call.lineAfter slots line)

variable {line : L} {slots : Slots L ε} {inv : L → Prop} {R : L → SlotCall → L → Prop}

theorem chain (h : Proceeds slots inv R) (hi : inv line) (call : Call) :
    inv (call.lineAfter slots line) ∧
      Chain R line (call.taken slots line) (call.lineAfter slots line) := by
  cases call with
  | transaction t kept => exact h.run hi (t kept)
  | sweep s =>
    rw [lineAfter, taken]
    cases hs : s.stopped with
    | true =>
      rw [Sweep.next_of_stopped slots hs]
      exact ⟨hi, .nil line⟩
    | false =>
      rw [Sweep.next_of_running slots hs, Sweep.line_report]
      exact h.run hi (Search.next s.search)

theorem chain_foldl (h : Proceeds slots inv R) (hi : inv line) (calls : List Call) :
    let later := calls.foldl (fun line call => call.lineAfter slots line) line
    inv later ∧ Chain R line (allTaken slots calls line) later := by
  induction calls generalizing line with
  | nil => exact ⟨hi, .nil line⟩
  | cons call calls ih =>
    obtain ⟨hmid, hcall⟩ := chain h hi call
    exact (ih hmid).imp_right hcall.append

open PulseLine

end Call

section Spends
variable {σ α β : Type} {s : Schedule} {us us' : Nat}

/-- Whatever is heard, an exchange lasts `us` microseconds, unless it is given up for want of a
response. -/
def Exchange.Spends (s : Schedule) (us : Nat) (x : Exchange σ α) : Prop :=
  x.Takes fun slots result => match result with
    | .ok _ => s.span slots = us
    | .error reason => reason = .noResponse

theorem Exchange.Spends.bind {x : Exchange σ α} {f : σ → α → Exchange σ β} (h : x.Spends s us)
    (hf : ∀ kept a, (f kept a).Spends s us') : (x.bind f).Spends s (us + us') := by
  apply Takes.bind h
  · intro first kept a hfirst
    apply (hf kept a).mono
    intro rest result hrest
    cases result with
    | ok b =>
      change s.span (first ++ rest) = us + us'
      rw [Schedule.span_append, hfirst, hrest]
    | error reason => exact hrest
  · intro slots reason hr
    exact hr

end Spends

namespace Transaction
variable {σ : Type} {kept : σ}

end Transaction

namespace Search
open Transaction

variable (s : Schedule)

end Search

namespace PulseLine
open Transaction

variable {line : PulseLine}

end PulseLine

end OneWire
