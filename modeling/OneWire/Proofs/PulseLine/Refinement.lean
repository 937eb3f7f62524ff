import OneWire.Proofs.PulseLine.Simulation
import OneWire.Proofs.PulseLine.Slots
import OneWire.Transfer

namespace OneWire

namespace PulseLine

abbrev master (timer : Timer) (s : Schedule) : Master PulseLine LineFault := ⟨adapter timer, s⟩

section Slots
variable {s : Schedule} {line : PulseLine} (timer : Timer)

theorem runs_reset_effect (s : Schedule) (line : PulseLine) :
    Runs (master timer s).slots.reset line fun present later =>
      present = (!(effects s.resetWindow.before line).level.1) ∧ ∃ n, later =
        (effects s.resetWindow.after (effects s.resetWindow.before line).level.2).numbered n := by
  have hw : Runs ((adapter timer).observe s.resetWindow) line _ :=
    runs_observe timer rfl rfl rfl
  apply hw.bind
  rintro level later ⟨hv, hl⟩
  exact runs_pure _ ⟨congrArg (!·) hv, hl⟩

theorem runs_write_effect (s : Schedule) (line : PulseLine) (bit : Bool) :
    Runs ((master timer s).slots.write bit) line fun _ later =>
      ∃ n, later = (effects (s.writeActions bit) line).numbered n :=
  runs_perform timer (by cases bit <;> rfl)

theorem runs_read_effect (s : Schedule) (line : PulseLine) :
    Runs (master timer s).slots.read line fun level later =>
      level = (effects s.readWindow.before line).level.1 ∧ ∃ n, later =
        (effects s.readWindow.after (effects s.readWindow.before line).level.2).numbered n :=
  runs_observe timer rfl rfl rfl

theorem runs_reset (h : s.Legible) (hs : line.Sound) (hf : line.shorted = false) :
    Runs (master timer s).slots.reset line fun present later =>
      present = (!line.devices.isEmpty) ∧ later.Free ∧ later.settled = line.settled.reset := by
  apply (runs_reset_effect timer s line).mono
  rintro present later ⟨hv, n, hl⟩
  obtain ⟨hlevel, hfree, hsettled⟩ := effects_reset h hs hf
  subst hl
  exact ⟨by rw [hv, hlevel], ⟨hfree.1, hfree.2⟩, (settled_numbered _ n).trans hsettled⟩

theorem runs_write (h : s.Legible) (hf : line.Free) (bit : Bool) :
    Runs ((master timer s).slots.write bit) line fun _ later =>
      later.Free ∧ later.settled = line.settled.write bit := by
  apply (runs_write_effect timer s line bit).mono
  rintro _ later ⟨n, hl⟩
  obtain ⟨hfree, hsettled⟩ := effects_write h hf bit
  subst hl
  exact ⟨⟨hfree.1, hfree.2⟩, (settled_numbered _ n).trans hsettled⟩

theorem runs_read (h : s.Legible) (hf : line.Free) :
    Runs (master timer s).slots.read line fun level later =>
      level = (line.settled.read s.inTime).1 ∧ later.Free ∧
        later.settled = (line.settled.read s.inTime).2 := by
  apply (runs_read_effect timer s line).mono
  rintro level later ⟨hv, n, hl⟩
  obtain ⟨hlevel, hfree, hsettled⟩ := effects_read h hf
  subst hl
  exact ⟨by rw [hv, hlevel], ⟨hfree.1, hfree.2⟩, (settled_numbered _ n).trans hsettled⟩

end Slots

variable {σ α : Type}

structure Refines (o : Outcome PulseLine σ α) (o' : Outcome SlotLine σ α) : Prop where
  free : o.line.Free
  line : o.line.settled = o'.line
  kept : o.kept = o'.kept
  log : o.log = o'.log
  result : o.result = o'.result

/-- An outcome that is either the given one or cut short by the attempt that was to fail. -/
def RefinesOrStruck (line : PulseLine) (o : Outcome PulseLine σ (Except (BusError LineFault) α))
    (o' : Outcome SlotLine σ (Except (BusError LineFault) α)) : Prop :=
  Leads line o.line ∧ Refines o o' ∨
    o.result = .error (.failed .injected) ∧ Struck line o.line

theorem RefinesOrStruck.refines {line : PulseLine}
    {o : Outcome PulseLine σ (Except (BusError LineFault) α)}
    {o' : Outcome SlotLine σ (Except (BusError LineFault) α)} (h : RefinesOrStruck line o o')
    (hf : line.Faultless) : Leads line o.line ∧ Refines o o' :=
  h.resolve_right fun hs => hf.not_struck hs.2

theorem RefinesOrStruck.of_leads {line later : PulseLine}
    {o : Outcome PulseLine σ (Except (BusError LineFault) α)}
    {o' : Outcome SlotLine σ (Except (BusError LineFault) α)} (hl : Leads line later)
    (h : RefinesOrStruck later o o') : RefinesOrStruck line o o' :=
  h.imp (fun h => ⟨hl.trans h.1, h.2⟩) fun h => ⟨h.1, hl.struck h.2⟩

variable {s : Schedule} (timer : Timer)

/-- A reset needs no more than a sound line; from there on the line is free. -/
theorem run_reset_refines (h : s.Legible) {line : PulseLine} (hs : line.Sound)
    (hf : line.shorted = false) (kept : σ) {next : Bool → Exchange σ α}
    (hn : ∀ present later, Free later → RefinesOrStruck later
      ((next present).run (master timer s).slots later)
      ((next present).run (SlotLine.slots s.inTime) later.settled)) :
    RefinesOrStruck line ((Exchange.reset kept next).run (master timer s).slots line)
      ((Exchange.reset kept next).run (SlotLine.slots s.inTime) line.settled) := by
  rcases (runs_reset timer h hs hf).cases with
    ⟨present, later, he, hl, hp, hfree, hsettled⟩ | ⟨later, he, hstruck⟩
  · rw [Exchange.run, he]
    -- both lines heard the same and take the same branch
    have := (hn present later hfree).of_leads hl
    rw [hsettled, hp, ← isEmpty_settled] at this
    rw [hp, ← isEmpty_settled]
    exact this
  · rw [Exchange.run, he]
    exact .inr ⟨rfl, hstruck⟩

theorem simulates_slots (h : s.Legible) :
    Simulates (master timer s).slots (SlotLine.slots s.inTime) Free settled where
  reset line hf := by
    apply (runs_reset timer h hf.sound hf.shorted).mono
    rintro present later ⟨hp, hfree, hsettled⟩
    refine ⟨hfree, ?_⟩
    rw [hsettled, hp, ← isEmpty_settled]
    rfl
  write line hf bit := by
    apply (runs_write timer h hf bit).mono
    rintro _ later ⟨hfree, hsettled⟩
    refine ⟨hfree, ?_⟩
    rw [hsettled]
    rfl
  read line hf := by
    apply (runs_read timer h hf).mono
    rintro level later ⟨hlevel, hfree, hsettled⟩
    refine ⟨hfree, ?_⟩
    rw [hsettled, hlevel]
    rfl

theorem run_refines (h : s.Legible) {line : PulseLine} (hf : line.Free) (x : Exchange σ α) :
    RefinesOrStruck line (x.run (master timer s).slots line)
      (x.run (SlotLine.slots s.inTime) line.settled) :=
  ((simulates_slots timer h).run hf x).imp_left fun h =>
    ⟨h.1, h.2.inv, h.2.line, h.2.kept, h.2.log, h.2.result⟩

end PulseLine

/-- The calls that take one time slot each. -/
inductive SlotCall where
  | reset
  | write (bit : Bool)
  | read
  deriving DecidableEq, Repr

namespace SlotCall

def transaction : SlotCall → Transaction Unit (Option Bool)
  | reset => do
    Transaction.reset
    return none
  | write bit => do
    Transaction.sendBit bit
    return none
  | read => some <$> Transaction.receiveBit

/-- What the call is to a line without a clock. -/
def meaning (inTime : Bool) : SlotCall → SlotLine → Except Refusal (Option Bool) × SlotLine
  | reset, line =>
    (if line.devices.isEmpty then .error .noResponse else .ok none, line.reset)
  | write bit, line => (.ok none, line.write bit)
  | read, line => (.ok (some (line.read inTime).1), (line.read inTime).2)

def runAll {L ε : Type} (slots : Slots L ε) :
    List SlotCall → L → List (Except (BusError ε) (Option Bool)) × L
  | [], line => ([], line)
  | call :: rest, line =>
    let o := (call.transaction ()).run slots line
    let (results, last) := runAll slots rest o.line
    (o.result :: results, last)

def meanings (inTime : Bool) :
    List SlotCall → SlotLine → List (Except Refusal (Option Bool)) × SlotLine
  | [], line => ([], line)
  | call :: rest, line =>
    let (result, next) := call.meaning inTime line
    let (results, last) := meanings inTime rest next
    (result :: results, last)

theorem run_transaction {ε : Type} (call : SlotCall) (inTime : Bool) (line : SlotLine) :
    let o := (call.transaction ()).run (SlotLine.slots (ε := ε) inTime) line
    o.line = (call.meaning inTime line).2 ∧
      o.result = (call.meaning inTime line).1.mapError .refused := by
  cases call with
  | reset => obtain ⟨_ | ⟨d, ds⟩, written⟩ := line <;> exact ⟨rfl, rfl⟩
  | write bit => exact ⟨rfl, rfl⟩
  | read => exact ⟨rfl, rfl⟩

open PulseLine

theorem runAll_eq {s : Schedule} (h : s.Legible) (timer : Timer) (cs : List SlotCall)
    {line : PulseLine} (hf : line.Free) (hn : line.Faultless) :
    (runAll (master timer s).slots cs line).1 =
        (meanings s.inTime cs line.settled).1.map (Except.mapError .refused) ∧
      (runAll (master timer s).slots cs line).2.settled =
        (meanings s.inTime cs line.settled).2 := by
  induction cs generalizing line with
  | nil => exact ⟨rfl, rfl⟩
  | cons call rest ih =>
    obtain ⟨hl, hr⟩ := (run_refines timer h hf (call.transaction ())).refines hn
    obtain ⟨hline, hresult⟩ := run_transaction (ε := LineFault) call s.inTime line.settled
    obtain ⟨hresults, hlast⟩ := ih hr.free (hl.faultless hn)
    rw [hr.line, hline] at hresults hlast
    refine ⟨?_, hlast⟩
    rw [runAll, meanings, List.map_cons, ← hresults, ← hresult, ← hr.result]

/-- Pulses mean slots: on a new line every sequence of slots has the results of the clockless line,
and leaves the devices and the bits they heard as that line does. -/
theorem runAll_ofCodes (s : Schedule) (h : s.Legible) (timer : Timer) (codes : List RomCode)
    (cs : List SlotCall) :
    let pulses := runAll (master timer s).slots cs (.ofCodes codes)
    let steps := meanings s.inTime cs (.ofCodes codes)
    pulses.1 = steps.1.map (Except.mapError .refused) ∧
      pulses.2.settle.devices = steps.2.devices ∧ pulses.2.settle.written = steps.2.written := by
  have hn : (PulseLine.ofCodes codes).Faultless := nofun
  have hf : (PulseLine.ofCodes codes).Free := ⟨rfl, rfl⟩
  obtain ⟨hresults, hlast⟩ := runAll_eq h timer cs hf hn
  exact ⟨hresults, congrArg SlotLine.devices hlast, congrArg SlotLine.written hlast⟩

/-- A device that is asked for its code sends the first bit of it. -/
theorem runAll_ofCodes_standard :
    Schedule.standard.Legible ∧
      (runAll (master .plain .standard).slots
        (.reset :: (bitsOf RomCommand.readRom.code).map .write ++ [.read])
        (.ofCodes [.zero])).1 = List.replicate 9 (.ok none) ++ [.ok (some false)] := by
  refine ⟨Schedule.legible_standard, ?_⟩
  rw [(runAll_ofCodes .standard Schedule.legible_standard .plain _ _).1]
  rfl

end SlotCall

end OneWire
