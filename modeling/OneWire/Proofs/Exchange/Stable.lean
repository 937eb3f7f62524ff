import OneWire.Exchange.Run

namespace OneWire

variable {L ε α β σ : Type} {I : L → Prop}

/-- The line after an action, failed or not. -/
def after (x : EStateM ε L α) (line : L) : L :=
  match x line with
  | .ok _ later => later
  | .error _ later => later

def Stable (I : L → Prop) (x : EStateM ε L α) : Prop := ∀ line, I line → I (after x line)

theorem stable_pure (a : α) : Stable I (pure a : EStateM ε L α) := fun _ h => h

theorem stable_modifyGet {f : L → α × L} (h : ∀ line, I line → I (f line).2) :
    Stable I (modifyGet f : EStateM ε L α) := h

theorem Stable.of_ok {x : EStateM ε L α} (hx : Stable I x) {line later : L} {a : α} (h : I line)
    (he : x line = .ok a later) : I later := by
  have := hx line h
  rwa [after, he] at this

theorem Stable.of_error {x : EStateM ε L α} (hx : Stable I x) {line later : L} {fault : ε}
    (h : I line) (he : x line = .error fault later) : I later := by
  have := hx line h
  rwa [after, he] at this

theorem after_bind {x : EStateM ε L α} {f : α → EStateM ε L β} {line : L} (hx : I (after x line))
    (hf : ∀ a, Stable I (f a)) : I (after (x >>= f) line) := by
  unfold after at hx ⊢
  simp only [Bind.bind, EStateM.bind]
  cases he : x line with
  | error fault later => simpa only [he] using hx
  | ok a later =>
    simp only [he] at hx ⊢
    exact hf a later hx

theorem Stable.bind {x : EStateM ε L α} {f : α → EStateM ε L β} (hx : Stable I x)
    (hf : ∀ a, Stable I (f a)) : Stable I (x >>= f) :=
  fun line h => after_bind (hx line h) hf

section Adapter
variable {a : Adapter L ε} (ha : ∀ action, Stable I (a.act action)) (hs : Stable I a.sample)
include ha

theorem stable_perform (actions : List Action) : Stable I (a.perform actions) := by
  induction actions with
  | nil => exact stable_pure ()
  | cons action rest ih => exact (ha action).bind fun _ => ih

include hs

theorem stable_observe (w : Window) : Stable I (a.observe w) := by
  apply (stable_perform ha w.before).bind
  intro _
  apply hs.bind
  intro level
  exact (stable_perform ha w.after).bind fun _ => stable_pure level

/-- Whole transactions keep what every action and every sample keep. -/
theorem stable_run (s : Schedule) (x : Exchange σ α) {line : L} (h : I line) :
    I (x.run (Master.slots ⟨a, s⟩) line).line := by
  have hreset : Stable I (Master.slots ⟨a, s⟩).reset :=
    (stable_observe ha hs s.resetWindow).bind fun level => stable_pure (!level)
  have hwrite (bit : Bool) : Stable I ((Master.slots ⟨a, s⟩).write bit) :=
    stable_perform ha (s.writeActions bit)
  have hread : Stable I (Master.slots ⟨a, s⟩).read := stable_observe ha hs s.readWindow
  induction x generalizing line with
  | done kept result => exact h
  | reset kept next ih =>
    rw [Exchange.run]
    split
    · rename_i he
      exact ih _ (hreset.of_ok h he)
    · rename_i he
      exact hreset.of_error h he
  | write bit kept next ih =>
    rw [Exchange.run]
    split
    · rename_i he
      exact ih ((hwrite bit).of_ok h he)
    · rename_i he
      exact (hwrite bit).of_error h he
  | read kept next ih =>
    rw [Exchange.run]
    split
    · rename_i he
      exact ih _ (hread.of_ok h he)
    · rename_i he
      exact hread.of_error h he
  | note record next ih => exact ih h

end Adapter

end OneWire
