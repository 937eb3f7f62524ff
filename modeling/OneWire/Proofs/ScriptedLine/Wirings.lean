import OneWire.Pins
import OneWire.Proofs.Exchange.Views
import OneWire.ScriptedLine
import OneWire.Wait

namespace OneWire
open ScriptedLine

section Beside
variable {L ε T α : Type}

def beside (T : Type) (x : EStateM ε L α) : EStateM ε (L × T) α := fun state =>
  match x state.1 with
  | .ok a line => .ok a (line, state.2)
  | .error fault line => .error fault (line, state.2)

def Wire.beside (T : Type) (w : Wire L ε) : Wire (L × T) ε where
  turn direction := OneWire.beside T (w.turn direction)
  pullLow := OneWire.beside T w.pullLow
  release := OneWire.beside T w.release
  sample := OneWire.beside T w.sample

theorem Mirrors.beside {f : L → L} {x y : EStateM ε L α} (h : Mirrors f x y) (T : Type) :
    Mirrors (fun state : L × T => (f state.1, state.2)) (OneWire.beside T x)
      (OneWire.beside T y) := by
  intro state
  simp only [OneWire.beside, ← h state.1]
  cases x state.1 <;> rfl

end Beside

/-- How a line looks when its pins are wired in another way: what is recorded of a pin that drives
and of one that senses, and the levels that are to be sensed. -/
structure Rewiring where
  drive : Char → Bool → Attempt := .drive
  sense : Char → Bool → Attempt := .sense
  level : Bool → Bool := id

namespace Rewiring

def attempt (r : Rewiring) : Attempt → Attempt
  | .drive pin high => r.drive pin high
  | .sense pin high => r.sense pin high
  | a => a

def entry (r : Rewiring) (e : Entry) : Entry := { e with attempt := r.attempt e.attempt }

def line (r : Rewiring) (line : ScriptedLine) : ScriptedLine :=
  { line with
    script := line.script.map r.level
    idle := r.level line.idle
    entries := line.entries.map r.entry }

def split (sense drive : Char) : Rewiring where
  drive _ high := .drive drive high
  sense _ high := .sense sense high

/-- What was driven high is driven low, and the other way round. -/
def drivesExchanged : Rewiring where
  drive pin high := .drive pin !high

/-- The levels are the opposite ones, and the pin is asked whether it is low instead of high. -/
def sensesExchanged : Rewiring where
  sense pin high := .sense pin !high
  level := not

def bothExchanged : Rewiring := { sensesExchanged with drive := drivesExchanged.drive }

variable (r : Rewiring)

theorem mirrors_attempt (a : Attempt) :
    Mirrors r.line (ScriptedLine.attempt a) (ScriptedLine.attempt (r.attempt a)) := by
  intro line
  simp only [ScriptedLine.attempt, Rewiring.line]
  by_cases h : line.attempts + 1 ∈ line.faults
  · simp only [h, if_true, stepSeen, Rewiring.line, Array.map_push]
    rfl
  · simp only [h, if_false, stepSeen, Rewiring.line, Array.map_push]
    rfl

theorem headD_script (line : ScriptedLine) :
    (r.line line).script.headD (r.line line).idle = r.level (line.script.headD line.idle) := by
  unfold Rewiring.line
  cases line.script <;> rfl

theorem mirrors_ask (a : Attempt) {f g : Bool → Bool} (h : ∀ level, g (r.level level) = f level) :
    Mirrors r.line (ask a f) (ask (r.attempt a) g) := by
  intro line
  unfold ask
  rw [r.headD_script line, h]
  -- attempts keep their numbers, so the same ones fail
  by_cases hf : line.attempts + 1 ∈ line.faults
  · simp only [hf, if_true, stepSeen, Rewiring.line, Array.map_push]
    rfl
  · simp only [hf, if_false, stepSeen, Rewiring.line, Array.map_push, List.map_tail]
    rfl

theorem mirrors_pause (ns : UInt32) : Mirrors r.line (pause ns) (pause ns) := by
  intro line
  simp only [pause, stepSeen, Rewiring.line, Array.map_push]
  rfl

end Rewiring

/-- A timer with a state of its own. What the pins have done or are to sense is nothing to it, so
it does the same on a line that is rewired. -/
structure DelaySource (T : Type) where
  wait : UInt32 → EStateM AttemptFault (ScriptedLine × T) Unit
  blind : ∀ (r : Rewiring) (us : UInt32),
    Mirrors (fun state => (r.line state.1, state.2)) (wait us) (wait us)

namespace DelaySource
variable {T : Type}

def counted (T : Type) : DelaySource T where
  wait us := beside T (ScriptedLine.wait us)
  blind r us := (r.mirrors_attempt (.wait us)).beside T

def paused (T : Type) : DelaySource T where
  wait := Wait.split fun ns => beside T (pause ns)
  blind r us := mirrors_forM (fun ns => (r.mirrors_pause ns).beside T) (Wait.parts us)

def adapter (d : DelaySource T) (w : Wire ScriptedLine AttemptFault) :
    Adapter (ScriptedLine × T) AttemptFault := { w.beside T with wait := d.wait }

def slots (d : DelaySource T) (w : Wire ScriptedLine AttemptFault) (s : Schedule) :
    Slots (ScriptedLine × T) AttemptFault := (Master.mk (d.adapter w) s).slots

end DelaySource

/-- Whoever calls meets the same on both wires: the same results with the same timer, and a record
of the same attempts, which fail and are answered alike. -/
def Rewires (r : Rewiring) (w w' : Wire ScriptedLine AttemptFault) : Prop :=
  ∀ {T β : Type} (d : DelaySource T) (s : Schedule) (caller : Caller AttemptFault β)
    (line : ScriptedLine) (timer : T),
    let o := caller.run (d.slots w s) (line, timer)
    caller.run (d.slots w' s) (r.line line, timer) = (o.1, r.line o.2.1, o.2.2)

theorem rewires_ofPins {r : Rewiring} {sense sense' : InputPin ScriptedLine AttemptFault}
    {drive drive' : OutputPin ScriptedLine AttemptFault}
    (hlow : Mirrors r.line drive.setLow drive'.setLow)
    (hhigh : Mirrors r.line drive.setHigh drive'.setHigh)
    (hsense : Mirrors r.line sense.isHigh sense'.isHigh) :
    Rewires r (.ofPins sense drive) (.ofPins sense' drive') := by
  intro T β d s caller line timer o
  have hadapter : MirrorsAdapter (fun state : ScriptedLine × T => (r.line state.1, state.2))
      (d.adapter (.ofPins sense drive)) (d.adapter (.ofPins sense' drive')) := by
    refine ⟨fun action => ?_, hsense.beside T⟩
    cases action with
    | turn direction => exact (mirrors_pure ()).beside T
    | pullLow => exact hlow.beside T
    | release => exact hhigh.beside T
    | wait us => exact d.blind r us
  exact (hadapter.slots s).caller caller (line, timer)

/-- All wirings are the same line up to polarity, for every schedule, timer and caller, whatever
levels are to be sensed and whichever attempts are to fail. Two pins share the work of one. Behind
an inverting stage an output drives the opposite levels, and an input that senses opposite levels is
asked the opposite question; a pin that is both does both. Two inverting stages are none. -/
theorem wirings_agree (p i o : Char) :
    (Rewires (.split i o) (.openDrain (pin p)) (.ofPins (pin i).toInputPin (pin o).toOutputPin) ∧
      Rewires (.split i o) (.openDrain (pin p).inverted)
        (.ofPins (pin i).toInputPin.inverted (pin o).toOutputPin.inverted)) ∧
    (Rewires .drivesExchanged (.ofPins (pin i).toInputPin (pin o).toOutputPin)
        (.ofPins (pin i).toInputPin (pin o).toOutputPin.inverted) ∧
      Rewires .drivesExchanged (.ofPins (pin i).toInputPin.inverted (pin o).toOutputPin)
        (.ofPins (pin i).toInputPin.inverted (pin o).toOutputPin.inverted)) ∧
    (Rewires .sensesExchanged (.ofPins (pin i).toInputPin (pin o).toOutputPin)
        (.ofPins (pin i).toInputPin.inverted (pin o).toOutputPin) ∧
      Rewires .sensesExchanged (.ofPins (pin i).toInputPin (pin o).toOutputPin.inverted)
        (.ofPins (pin i).toInputPin.inverted (pin o).toOutputPin.inverted)) ∧
    Rewires .bothExchanged (.openDrain (pin p)) (.openDrain (pin p).inverted) ∧
    ∀ {L ε : Type} (p : Pin L ε) (i : InputPin L ε) (o : OutputPin L ε),
      p.inverted.inverted = p ∧ i.inverted.inverted = i ∧ o.inverted.inverted = o := by
  have hdrive (r : Rewiring) (pin : Char) (high : Bool) :=
    r.mirrors_attempt (.drive pin high)
  -- whether a pin is asked about opposite levels or about the same ones, the answer is the same
  have hsame (f : Bool → Bool) (level : Bool) : f (id level) = f level := rfl
  have hopposite (level : Bool) : (!(!level)) = level := Bool.not_not level
  refine ⟨⟨?_, ?_⟩, ⟨?_, ?_⟩, ⟨?_, ?_⟩, ?_, ?_⟩
  · exact rewires_ofPins (hdrive _ p false) (hdrive _ p true)
      ((Rewiring.split i o).mirrors_ask (.sense p true) (hsame id))
  · exact rewires_ofPins (hdrive _ p true) (hdrive _ p false)
      ((Rewiring.split i o).mirrors_ask (.sense p false) (hsame not))
  · exact rewires_ofPins (hdrive _ o false) (hdrive _ o true)
      (Rewiring.drivesExchanged.mirrors_ask (.sense i true) (hsame id))
  · exact rewires_ofPins (hdrive _ o false) (hdrive _ o true)
      (Rewiring.drivesExchanged.mirrors_ask (.sense i false) (hsame not))
  · exact rewires_ofPins (hdrive _ o false) (hdrive _ o true)
      (Rewiring.sensesExchanged.mirrors_ask (.sense i true) hopposite)
  · exact rewires_ofPins (hdrive _ o true) (hdrive _ o false)
      (Rewiring.sensesExchanged.mirrors_ask (.sense i true) hopposite)
  · exact rewires_ofPins (hdrive _ p false) (hdrive _ p true)
      (Rewiring.bothExchanged.mirrors_ask (.sense p true) hopposite)
  · exact fun p i o => ⟨rfl, rfl, rfl⟩

example :
    let s : Schedule := ⟨{}, ⟨420, 50, 50⟩, rfl⟩
    let attempts (d : DelaySource Unit) : List Attempt :=
      let caller : Caller AttemptFault Unit :=
        .call Transaction.presence () fun _ _ _ => .done ()
      let o := caller.run (d.slots (.openDrain (pin 'p').inverted) s) ({ script := [] }, ())
      o.2.1.entries.toList.map (·.attempt)
    attempts (.counted Unit) =
        [.drive 'p' true, .wait 480, .drive 'p' false, .wait 60, .sense 'p' false, .wait 420] ∧
      attempts (.paused Unit) =
        [.drive 'p' true, .pause 480000, .drive 'p' false, .pause 60000, .sense 'p' false,
          .pause 420000] := by
  cbv

end OneWire
