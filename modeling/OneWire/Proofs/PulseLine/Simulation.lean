import OneWire.Exchange.Run
import OneWire.Proofs.PulseLine.Steps

namespace OneWire.PulseLine

variable {M σ α β : Type} {line : PulseLine}

theorem Runs.cases {Q : α → PulseLine → Prop} {x : EStateM LineFault PulseLine α}
    (h : Runs x line Q) :
    (∃ a later, x line = .ok a later ∧ Leads line later ∧ Q a later) ∨
      ∃ later, x line = .error .injected later ∧ Struck line later := by
  unfold Runs at h
  cases hx : x line with
  | ok a later =>
    rw [hx] at h
    exact .inl ⟨a, later, rfl, h⟩
  | error fault later =>
    rw [hx] at h
    obtain ⟨rfl, hs⟩ := h
    exact .inr ⟨later, rfl, hs⟩

/-- As long as `inv` holds of the line, each slot keeps it and is the other slot to its view. -/
structure Simulates (pulses : Slots PulseLine LineFault) (slots : Slots M LineFault)
    (inv : PulseLine → Prop) (view : PulseLine → M) : Prop where
  reset : ∀ line, inv line → Runs pulses.reset line fun present later =>
    inv later ∧ slots.reset (view line) = .ok present (view later)
  write : ∀ line, inv line → ∀ bit, Runs (pulses.write bit) line fun _ later =>
    inv later ∧ slots.write bit (view line) = .ok () (view later)
  read : ∀ line, inv line → Runs pulses.read line fun level later =>
    inv later ∧ slots.read (view line) = .ok level (view later)

structure Shows (inv : PulseLine → Prop) (view : PulseLine → M) (o : Outcome PulseLine σ α)
    (o' : Outcome M σ α) : Prop where
  inv : inv o.line
  line : view o.line = o'.line
  kept : o.kept = o'.kept
  log : o.log = o'.log
  result : o.result = o'.result

theorem Simulates.run {pulses : Slots PulseLine LineFault} {slots : Slots M LineFault}
    {inv : PulseLine → Prop} {view : PulseLine → M} (h : Simulates pulses slots inv view)
    (hi : inv line) (x : Exchange σ α) :
    let o := x.run pulses line
    Leads line o.line ∧ Shows inv view o (x.run slots (view line)) ∨
      o.result = .error (.failed .injected) ∧ Struck line o.line := by
  induction x generalizing line with
  | done kept result => exact .inl ⟨.refl line, hi, rfl, rfl, rfl, rfl⟩
  | reset kept next ih =>
    rcases (h.reset line hi).cases with ⟨present, later, he, hl, hlater, hv⟩ | ⟨later, he, hs⟩
    · rw [Exchange.run, Exchange.run, he, hv]
      exact (ih present hlater).imp (fun h => ⟨hl.trans h.1, h.2⟩) fun h => ⟨h.1, hl.struck h.2⟩
    · rw [Exchange.run, he]
      exact .inr ⟨rfl, hs⟩
  | write bit kept next ih =>
    rcases (h.write line hi bit).cases with ⟨_, later, he, hl, hlater, hv⟩ | ⟨later, he, hs⟩
    · rw [Exchange.run, Exchange.run, he, hv]
      exact (ih hlater).imp (fun h => ⟨hl.trans h.1, h.2⟩) fun h => ⟨h.1, hl.struck h.2⟩
    · rw [Exchange.run, he]
      exact .inr ⟨rfl, hs⟩
  | read kept next ih =>
    rcases (h.read line hi).cases with ⟨level, later, he, hl, hlater, hv⟩ | ⟨later, he, hs⟩
    · rw [Exchange.run, Exchange.run, he, hv]
      exact (ih level hlater).imp (fun h => ⟨hl.trans h.1, h.2⟩) fun h => ⟨h.1, hl.struck h.2⟩
    · rw [Exchange.run, he]
      exact .inr ⟨rfl, hs⟩
  | note record next ih =>
    refine (ih hi).imp (fun h => ⟨h.1, h.2.inv, h.2.line, h.2.kept, ?_, h.2.result⟩) id
    exact congrArg (record :: ·) h.2.log

end OneWire.PulseLine
