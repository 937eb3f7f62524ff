import OneWire.Note

namespace OneWire

/-- The tree of time slots that a transaction takes, branching on what is heard. Each slot also
holds the state that the caller keeps if the line fails there. -/
inductive Exchange (σ α : Type) where
  | done (kept : σ) (result : Except Refusal α)
  /-- A reset pulse; the answer is whether a device reported its presence. -/
  | reset (kept : σ) (next : Bool → Exchange σ α)
  | write (bit : Bool) (kept : σ) (next : Exchange σ α)
  /-- A read slot; the answer is the level of the line. -/
  | read (kept : σ) (next : Bool → Exchange σ α)
  | note (record : Note) (next : Exchange σ α)

namespace Exchange
variable {σ τ α β γ : Type}

def bind : Exchange σ α → (σ → α → Exchange σ β) → Exchange σ β
  | done kept (.ok a), f => f kept a
  | done kept (.error r), _ => done kept (.error r)
  | reset kept next, f => reset kept fun present => (next present).bind f
  | write bit kept next, f => write bit kept (next.bind f)
  | read kept next, f => read kept fun level => (next level).bind f
  | note record next, f => note record (next.bind f)

def mapKept (f : σ → τ) : Exchange σ α → Exchange τ α
  | done kept result => done (f kept) result
  | reset kept next => reset (f kept) fun present => (next present).mapKept f
  | write bit kept next => write bit (f kept) (next.mapKept f)
  | read kept next => read (f kept) fun level => (next level).mapKept f
  | note record next => note record (next.mapKept f)

theorem bind_assoc (x : Exchange σ α) (f : σ → α → Exchange σ β) (g : σ → β → Exchange σ γ) :
    (x.bind f).bind g = x.bind fun s a => (f s a).bind g := by
  induction x with
  | done kept result => cases result <;> rfl
  | reset kept next ih => simp only [bind, ih]
  | write bit kept next ih => simp only [bind, ih]
  | read kept next ih => simp only [bind, ih]
  | note record next ih => simp only [bind, ih]

theorem bind_done (x : Exchange σ α) : (x.bind fun s a => done s (.ok a)) = x := by
  induction x with
  | done kept result => cases result <;> rfl
  | reset kept next ih => simp only [bind, ih]
  | write bit kept next ih => simp only [bind, ih]
  | read kept next ih => simp only [bind, ih]
  | note record next ih => simp only [bind, ih]

theorem mapKept_bind {f : σ → τ} {k : σ → α → Exchange σ β} {k' : τ → α → Exchange τ β}
    (h : ∀ s a, (k s a).mapKept f = k' (f s) a) (x : Exchange σ α) :
    (x.bind k).mapKept f = (x.mapKept f).bind k' := by
  induction x with
  | done kept result => cases result <;> simp only [bind, mapKept, h]
  | reset kept next ih => simp only [bind, mapKept, ih]
  | write bit kept next ih => simp only [bind, mapKept, ih]
  | read kept next ih => simp only [bind, mapKept, ih]
  | note record next ih => simp only [bind, mapKept, ih]

end Exchange

def Transaction (σ α : Type) : Type := σ → Exchange σ α

namespace Transaction
variable {σ τ α : Type}

instance : Monad (Transaction σ) where
  pure a := fun s => .done s (.ok a)
  bind x f := fun s => (x s).bind fun s a => f a s

instance : LawfulMonad (Transaction σ) :=
  .mk' _ (fun x => funext fun s => (x s).bind_done) (fun _ _ => rfl)
    fun x _ _ => funext fun s => (x s).bind_assoc _ _

instance : MonadStateOf σ (Transaction σ) where
  get := fun s => .done s (.ok s)
  set s := fun _ => .done s (.ok ())
  modifyGet f := fun s => .done (f s).2 (.ok (f s).1)

def refuse (reason : Refusal) : Transaction σ α := fun s => .done s (.error reason)

def ofExcept (result : Except Refusal α) : Transaction σ α := fun s => .done s result

def note (record : Note) : Transaction σ Unit := fun s => .note record (.done s (.ok ()))

def presence : Transaction σ Bool := fun s => .reset s fun present => .done s (.ok present)

def sendBit (bit : Bool) : Transaction σ Unit := fun s => .write bit s (.done s (.ok ()))

def receiveBit : Transaction σ Bool := fun s => .read s fun level => .done s (.ok level)

/-- Runs on a state of its own that begins as `init` and is dropped in the end. -/
def within (init : τ) (t : Transaction τ α) : Transaction σ α :=
  fun s => (t init).mapKept fun _ => s

end Transaction

end OneWire
