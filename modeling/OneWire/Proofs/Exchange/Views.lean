import OneWire.Search.Sweep

namespace OneWire

variable {K L ε σ α β γ : Type} {view : K → L}

def stepSeen (view : K → L) : EStateM.Result ε K α → EStateM.Result ε L α
  | .ok a line => .ok a (view line)
  | .error fault line => .error fault (view line)

/-- The first step looks like the second. -/
def Mirrors (view : K → L) (x : EStateM ε K α) (y : EStateM ε L α) : Prop :=
  ∀ line, stepSeen view (x line) = y (view line)

theorem mirrors_pure (a : α) : Mirrors view (pure a : EStateM ε K α) (pure a) := fun _ => rfl

theorem Mirrors.bind {x : EStateM ε K α} {y : EStateM ε L α} {f : α → EStateM ε K β}
    {g : α → EStateM ε L β} (h : Mirrors view x y) (hf : ∀ a, Mirrors view (f a) (g a)) :
    Mirrors view (x >>= f) (y >>= g) := by
  intro line
  simp only [Bind.bind, EStateM.bind, ← h line]
  cases x line with
  | ok a later => exact hf a later
  | error fault later => rfl

theorem mirrors_forM {f : γ → EStateM ε K Unit} {g : γ → EStateM ε L Unit}
    (h : ∀ c, Mirrors view (f c) (g c)) (cs : List γ) :
    Mirrors view (cs.forM f) (cs.forM g) := by
  induction cs with
  | nil => exact mirrors_pure ()
  | cons c cs ih => exact (h c).bind fun _ => ih

structure MirrorsAdapter (view : K → L) (a : Adapter K ε) (b : Adapter L ε) : Prop where
  act : ∀ action, Mirrors view (a.act action) (b.act action)
  sample : Mirrors view a.sample b.sample

structure MirrorsSlots (view : K → L) (slots : Slots K ε) (slots' : Slots L ε) : Prop where
  reset : Mirrors view slots.reset slots'.reset
  write : ∀ bit, Mirrors view (slots.write bit) (slots'.write bit)
  read : Mirrors view slots.read slots'.read

namespace MirrorsAdapter
variable {a : Adapter K ε} {b : Adapter L ε}

theorem perform (h : MirrorsAdapter view a b) (actions : List Action) :
    Mirrors view (a.perform actions) (b.perform actions) := by
  induction actions with
  | nil => exact mirrors_pure ()
  | cons action rest ih => exact (h.act action).bind fun _ => ih

theorem observe (h : MirrorsAdapter view a b) (w : Window) :
    Mirrors view (a.observe w) (b.observe w) := by
  apply (h.perform w.before).bind
  intro _
  apply h.sample.bind
  intro level
  exact (h.perform w.after).bind fun _ => mirrors_pure level

theorem slots (h : MirrorsAdapter view a b) (s : Schedule) :
    MirrorsSlots view (Master.mk a s).slots (Master.mk b s).slots where
  reset := (h.observe s.resetWindow).bind fun level => mirrors_pure (!level)
  write bit := h.perform (s.writeActions bit)
  read := h.observe s.readWindow

end MirrorsAdapter

/-- An outcome as it looks. -/
def Outcome.seen {ρ : Type} (view : K → L) (o : Outcome K σ ρ) : Outcome L σ ρ :=
  { o with line := view o.line }

/-- What a caller does: one call after the other, each chosen by what came of those before. -/
inductive Caller (ε β : Type) : Type 1
  | done (b : β)
  | call {σ α : Type} (t : Transaction σ α) (kept : σ)
      (next : σ → List Note → Except (BusError ε) α → Caller ε β)
  | sweep (s : Sweep) (next : Sweep → List Note → Sweep.Item ε → Caller ε β)

def Caller.run (slots : Slots L ε) : Caller ε β → L → β × L
  | done b, line => (b, line)
  | call t kept next, line =>
    let o := (t kept).run slots line
    (next o.kept o.log o.result).run slots o.line
  | sweep s next, line =>
    let o := s.next slots line
    (next o.kept o.log o.result).run slots o.line

namespace MirrorsSlots
variable {slots : Slots K ε} {slots' : Slots L ε}

theorem run (h : MirrorsSlots view slots slots') (x : Exchange σ α) (line : K) :
    (x.run slots line).seen view = x.run slots' (view line) := by
  induction x generalizing line with
  | done kept result => rfl
  | reset kept next ih =>
    rw [Exchange.run, Exchange.run, ← h.reset line]
    cases slots.reset line with
    | ok present later => exact ih present later
    | error fault later => rfl
  | write bit kept next ih =>
    rw [Exchange.run, Exchange.run, ← h.write bit line]
    cases slots.write bit line with
    | ok _ later => exact ih later
    | error fault later => rfl
  | read kept next ih =>
    rw [Exchange.run, Exchange.run, ← h.read line]
    cases slots.read line with
    | ok level later => exact ih level later
    | error fault later => rfl
  | note record next ih =>
    simp only [Exchange.run, ← ih line]
    rfl

theorem next (h : MirrorsSlots view slots slots') (s : Sweep) (line : K) :
    (s.next slots line).seen view = s.next slots' (view line) := by
  unfold Sweep.next
  rw [← h.run]
  cases s.stopped with
  | true => rfl
  | false =>
    rcases (Search.next s.search).run slots line with ⟨later, kept, log, (reason | fault) | c⟩
    · cases reason <;> rfl
    · rfl
    · rfl

theorem caller (h : MirrorsSlots view slots slots') (c : Caller ε β) (line : K) :
    c.run slots' (view line) = ((c.run slots line).1, view (c.run slots line).2) := by
  induction c generalizing line with
  | done b => rfl
  | call t kept next ih =>
    rw [Caller.run, ← h.run]
    exact ih _ _ _ _
  | sweep s next ih =>
    rw [Caller.run, ← h.next]
    exact ih _ _ _ _

end MirrorsSlots

end OneWire
