import OneWire.Adapter

namespace OneWire

structure InputPin (L ε : Type) where
  isHigh : EStateM ε L Bool
  isLow : EStateM ε L Bool

structure OutputPin (L ε : Type) where
  setHigh : EStateM ε L Unit
  setLow : EStateM ε L Unit

structure Pin (L ε : Type) extends InputPin L ε, OutputPin L ε

variable {L ε : Type}

def InputPin.inverted (p : InputPin L ε) : InputPin L ε := ⟨p.isLow, p.isHigh⟩

def OutputPin.inverted (p : OutputPin L ε) : OutputPin L ε := ⟨p.setLow, p.setHigh⟩

def Pin.inverted (p : Pin L ε) : Pin L ε := ⟨p.toInputPin.inverted, p.toOutputPin.inverted⟩

@[simp] theorem InputPin.inverted_inverted (p : InputPin L ε) : p.inverted.inverted = p := rfl

@[simp] theorem OutputPin.inverted_inverted (p : OutputPin L ε) : p.inverted.inverted = p := rfl

@[simp] theorem Pin.inverted_inverted (p : Pin L ε) : p.inverted.inverted = p := rfl

namespace Wire

/-- A line sensed by one pin and driven by another. Both work all the time, so turning the line
does nothing. -/
def ofPins (sense : InputPin L ε) (drive : OutputPin L ε) : Wire L ε where
  turn _ := pure ()
  pullLow := drive.setLow
  release := drive.setHigh
  sample := sense.isHigh

def openDrain (p : Pin L ε) : Wire L ε := ofPins p.toInputPin p.toOutputPin

end Wire

end OneWire
