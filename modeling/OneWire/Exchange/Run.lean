import OneWire.Exchange.Basic
import OneWire.Master

namespace OneWire

structure Outcome (L σ ρ : Type) where
  line : L
  kept : σ
  log : List Note
  result : ρ

namespace Exchange
variable {L ε σ τ α β : Type}

def run (slots : Slots L ε) :
    Exchange σ α → L → Outcome L σ (Except (BusError ε) α)
  | done kept result, line => ⟨line, kept, [], result.mapError .refused⟩
  | reset kept next, line =>
    match slots.reset line with
    | .ok present line => (next present).run slots line
    | .error fault line => ⟨line, kept, [], .error (.failed fault)⟩
  | write bit kept next, line =>
    match slots.write bit line with
    | .ok _ line => next.run slots line
    | .error fault line => ⟨line, kept, [], .error (.failed fault)⟩
  | read kept next, line =>
    match slots.read line with
    | .ok level line => (next level).run slots line
    | .error fault line => ⟨line, kept, [], .error (.failed fault)⟩
  | note record next, line =>
    let outcome := next.run slots line
    { outcome with log := record :: outcome.log }

theorem run_bind (slots : Slots L ε) (x : Exchange σ α) (f : σ → α → Exchange σ β) (line : L) :
    (x.bind f).run slots line =
      match x.run slots line with
      | ⟨line, kept, log, .ok a⟩ =>
        let outcome := (f kept a).run slots line
        { outcome with log := log ++ outcome.log }
      | ⟨line, kept, log, .error e⟩ => ⟨line, kept, log, .error e⟩ := by
  induction x generalizing line with
  | done kept result => cases result <;> rfl
  | reset kept next ih => simp only [bind, run]; split <;> simp [ih]
  | write bit kept next ih => simp only [bind, run]; split <;> simp [ih]
  | read kept next ih => simp only [bind, run]; split <;> simp [ih]
  | note record next ih =>
    simp only [bind, run, ih]
    rcases next.run slots line with ⟨line, kept, log, a | e⟩ <;> rfl

theorem run_mapKept (slots : Slots L ε) (g : σ → τ) (x : Exchange σ α) (line : L) :
    (x.mapKept g).run slots line =
      let outcome := x.run slots line
      ⟨outcome.line, g outcome.kept, outcome.log, outcome.result⟩ := by
  induction x generalizing line with
  | done kept result => rfl
  | reset kept next ih => simp only [mapKept, run]; split <;> simp [ih]
  | write bit kept next ih => simp only [mapKept, run]; split <;> simp [ih]
  | read kept next ih => simp only [mapKept, run]; split <;> simp [ih]
  | note record next ih => simp [mapKept, run, ih]

end Exchange

def Master.run {L ε σ α : Type} (m : Master L ε) (t : Transaction σ α) (kept : σ) (line : L) :
    Outcome L σ (Except (BusError ε) α) := (t kept).run m.slots line

end OneWire
