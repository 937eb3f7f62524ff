import OneWire.Exchange.Run
import OneWire.Transfer

namespace OneWire

namespace Exchange
variable {L ε σ α β : Type} {P : σ → Prop} {Q : α → σ → Prop} {R : β → σ → Prop}

/-- Wherever a run can end, `P` holds of what is kept without a result and `Q` with one. -/
def Ends (P : σ → Prop) (Q : α → σ → Prop) : Exchange σ α → Prop
  | done kept (.ok a) => Q a kept
  | done kept (.error _) => P kept
  | reset kept next => P kept ∧ ∀ present, (next present).Ends P Q
  | write _ kept next => P kept ∧ next.Ends P Q
  | read kept next => P kept ∧ ∀ level, (next level).Ends P Q
  | note _ next => next.Ends P Q

theorem Ends.bind {x : Exchange σ α} {f : σ → α → Exchange σ β} (h : x.Ends P Q)
    (hf : ∀ a kept, Q a kept → (f kept a).Ends P R) : (x.bind f).Ends P R := by
  induction x with
  | done kept result =>
    cases result with
    | ok a => exact hf a kept h
    | error r => exact h
  | reset kept next ih => exact ⟨h.1, fun present => ih present (h.2 present)⟩
  | write bit kept next ih => exact ⟨h.1, ih h.2⟩
  | read kept next ih => exact ⟨h.1, fun level => ih level (h.2 level)⟩
  | note record next ih => exact ih h

theorem Ends.mono {P' : σ → Prop} {Q' : α → σ → Prop} {x : Exchange σ α} (h : x.Ends P Q)
    (hp : ∀ kept, P kept → P' kept) (hq : ∀ a kept, Q a kept → Q' a kept) : x.Ends P' Q' := by
  induction x with
  | done kept result =>
    cases result with
    | ok a => exact hq a kept h
    | error r => exact hp kept h
  | reset kept next ih => exact ⟨hp kept h.1, fun present => ih present (h.2 present)⟩
  | write bit kept next ih => exact ⟨hp kept h.1, ih h.2⟩
  | read kept next ih => exact ⟨hp kept h.1, fun level => ih level (h.2 level)⟩
  | note record next ih => exact ih h

theorem Ends.and {P' : σ → Prop} {Q' : α → σ → Prop} {x : Exchange σ α} (h : x.Ends P Q)
    (h' : x.Ends P' Q') :
    x.Ends (fun kept => P kept ∧ P' kept) fun a kept => Q a kept ∧ Q' a kept := by
  induction x with
  | done kept result =>
    cases result with
    | ok a => exact ⟨h, h'⟩
    | error r => exact ⟨h, h'⟩
  | reset kept next ih => exact ⟨⟨h.1, h'.1⟩, fun present => ih present (h.2 present) (h'.2 present)⟩
  | write bit kept next ih => exact ⟨⟨h.1, h'.1⟩, ih h.2 h'.2⟩
  | read kept next ih => exact ⟨⟨h.1, h'.1⟩, fun level => ih level (h.2 level) (h'.2 level)⟩
  | note record next ih => exact ih h h'

theorem Ends.run {x : Exchange σ α} (h : x.Ends P Q) (slots : Slots L ε) (line : L) :
    (∃ a, (x.run slots line).result = .ok a ∧ Q a (x.run slots line).kept) ∨
      (∃ e, (x.run slots line).result = .error e) ∧ P (x.run slots line).kept := by
  induction x generalizing line with
  | done kept result =>
    cases result with
    | ok a => exact .inl ⟨a, rfl, h⟩
    | error r => exact .inr ⟨⟨_, rfl⟩, h⟩
  | reset kept next ih =>
    rw [Exchange.run]
    split
    · exact ih _ (h.2 _) _
    · exact .inr ⟨⟨_, rfl⟩, h.1⟩
  | write bit kept next ih =>
    rw [Exchange.run]
    split
    · exact ih h.2 _
    · exact .inr ⟨⟨_, rfl⟩, h.1⟩
  | read kept next ih =>
    rw [Exchange.run]
    split
    · exact ih _ (h.2 _) _
    · exact .inr ⟨⟨_, rfl⟩, h.1⟩
  | note record next ih => exact ih h line

end Exchange

namespace Transaction
variable {σ : Type} {P : σ → Prop} {kept : σ}

theorem ends_reset (h : P kept) : (reset kept).Ends P fun _ later => later = kept :=
  ⟨h, fun present => match present with
    | true => rfl
    | false => h⟩

theorem ends_sendBits (h : P kept) (bits : List Bool) :
    (bits.forM sendBit kept : Exchange σ Unit).Ends P fun _ later => later = kept := by
  induction bits with
  | nil => rfl
  | cons bit bits ih => exact ⟨h, ih⟩

theorem ends_sendByte (h : P kept) (b : UInt8) :
    (sendByte b kept).Ends P fun _ later => later = kept := ends_sendBits h _

end Transaction

end OneWire
