import OneWire.Proofs.Exchange.Views
import OneWire.RomCommand
import OneWire.Transfer

namespace OneWire

/-- The levels sampled and the bits written, each in order. -/
structure Transcript where
  samples : List Bool := []
  written : List Bool := []
  deriving DecidableEq, Repr

namespace Transcript

def sampled (t : Transcript) (level : Bool) : Transcript :=
  { t with samples := t.samples ++ [level] }

def wrote (t : Transcript) (bits : List Bool) : Transcript :=
  { t with written := t.written ++ bits }

def listened (t : Transcript) (levels : List Bool) : Transcript :=
  { t with samples := t.samples ++ levels }

theorem listened_listened (t : Transcript) (first second : List Bool) :
    (t.listened first).listened second = t.listened (first ++ second) := by
  simp only [listened, List.append_assoc]

theorem wrote_wrote (t : Transcript) (first second : List Bool) :
    (t.wrote first).wrote second = t.wrote (first ++ second) := by
  simp only [wrote, List.append_assoc]

end Transcript

structure Transcribed (L : Type) where
  line : L
  transcript : Transcript := {}

section Slots
variable {L ε σ α : Type}

/-- Carries out a slot and adds to the transcript what came of it, unless it fails. -/
def transcribe (x : EStateM ε L α) (f : α → Transcript → Transcript) :
    EStateM ε (Transcribed L) α := fun r =>
  match x r.line with
  | .ok a line => .ok a ⟨line, f a r.transcript⟩
  | .error fault line => .error fault ⟨line, r.transcript⟩

/-- The same slots with a transcript. The sample after a reset pulse is low when a device is
present. -/
def Slots.transcribed (slots : Slots L ε) : Slots (Transcribed L) ε where
  reset := transcribe slots.reset fun present t => t.sampled !present
  write bit := transcribe (slots.write bit) fun _ t => t.wrote [bit]
  read := transcribe slots.read fun level t => t.sampled level

theorem mirrors_transcribe (x : EStateM ε L α) (f : α → Transcript → Transcript) :
    Mirrors Transcribed.line (transcribe x f) x := by
  intro r
  unfold transcribe
  cases x r.line <;> rfl

theorem mirrors_transcribed (slots : Slots L ε) :
    MirrorsSlots Transcribed.line slots.transcribed slots where
  reset := mirrors_transcribe slots.reset fun present t => t.sampled !present
  write bit := mirrors_transcribe (slots.write bit) fun _ t => t.wrote [bit]
  read := mirrors_transcribe slots.read fun level t => t.sampled level

namespace Exchange

theorem run_transcribed (slots : Slots L ε) (x : Exchange σ α) (r : Transcribed L) :
    x.run slots r.line =
      let o := x.run slots.transcribed r
      ⟨o.line.line, o.kept, o.log, o.result⟩ :=
  ((mirrors_transcribed slots).run x r).symm

/-- Whatever is heard from here on, `P` holds in the end of the transcript, of what is kept and of
the result. -/
def ComesTo (P : Transcript → σ → Except Refusal α → Prop) : Exchange σ α → Transcript → Prop
  | done kept result, t => P t kept result
  | reset _ next, t => ∀ present, (next present).ComesTo P (t.sampled !present)
  | write bit _ next, t => next.ComesTo P (t.wrote [bit])
  | read _ next, t => ∀ level, (next level).ComesTo P (t.sampled level)
  | note _ next, t => next.ComesTo P t

variable {β : Type} {x : Exchange σ α} {f : σ → α → Exchange σ β} {t : Transcript}
  {P : Transcript → σ → Except Refusal β → Prop} {Q : Transcript → σ → Except Refusal α → Prop}

theorem ComesTo.mono {Q' : Transcript → σ → Except Refusal α → Prop} (h : x.ComesTo Q t)
    (hq : ∀ t kept result, Q t kept result → Q' t kept result) : x.ComesTo Q' t := by
  induction x generalizing t with
  | done kept result => exact hq t kept result h
  | reset kept next ih => exact fun present => ih present (h present)
  | write bit kept next ih => exact ih h
  | read kept next ih => exact fun level => ih level (h level)
  | note record next ih => exact ih h

theorem ComesTo.bind (h : x.ComesTo Q t)
    (hok : ∀ t kept a, Q t kept (.ok a) → (f kept a).ComesTo P t)
    (herror : ∀ t kept reason, Q t kept (.error reason) → P t kept (.error reason)) :
    (x.bind f).ComesTo P t := by
  induction x generalizing t with
  | done kept result =>
    cases result with
    | ok a => exact hok t kept a h
    | error reason => exact herror t kept reason h
  | reset kept next ih => exact fun present => ih present (h present)
  | write bit kept next ih => exact ih h
  | read kept next ih => exact fun level => ih level (h level)
  | note record next ih => exact ih h

theorem ComesTo.mapKept {τ : Type} {g : σ → τ} {P : Transcript → τ → Except Refusal α → Prop}
    (h : x.ComesTo (fun later last result => P later (g last) result) t) :
    (x.mapKept g).ComesTo P t := by
  induction x generalizing t with
  | done kept result => exact h
  | reset kept next ih => exact fun present => ih present (h present)
  | write bit kept next ih => exact ih h
  | read kept next ih => exact fun level => ih level (h level)
  | note record next ih => exact ih h

theorem ComesTo.run (h : x.ComesTo Q t) (slots : Slots L ε) (line : L) :
    let o := x.run slots.transcribed ⟨line, t⟩
    (∃ fault, o.result = .error (.failed fault)) ∨
      ∃ result, o.result = result.mapError .refused ∧ Q o.line.transcript o.kept result := by
  induction x generalizing t line with
  | done kept result => exact .inr ⟨result, rfl, h⟩
  | reset kept next ih =>
    simp only [Exchange.run, Slots.transcribed, transcribe]
    cases slots.reset line with
    | ok present line => exact ih present (h present) line
    | error fault line => exact .inl ⟨fault, rfl⟩
  | write bit kept next ih =>
    simp only [Exchange.run, Slots.transcribed, transcribe]
    cases slots.write bit line with
    | ok _ line => exact ih h line
    | error fault line => exact .inl ⟨fault, rfl⟩
  | read kept next ih =>
    simp only [Exchange.run, Slots.transcribed, transcribe]
    cases slots.read line with
    | ok level line => exact ih level (h level) line
    | error fault line => exact .inl ⟨fault, rfl⟩
  | note record next ih => exact ih h line

end Exchange

end Slots

namespace Transaction
variable {σ α : Type} {kept : σ} {t : Transcript}

theorem comesTo_reset : (reset kept).ComesTo (fun later last result => last = kept ∧
    (later = t.sampled true ∧ result = .error .noResponse ∨
      later = t.sampled false ∧ result = .ok ())) t
  | true => ⟨rfl, .inr ⟨rfl, rfl⟩⟩
  | false => ⟨rfl, .inl ⟨rfl, rfl⟩⟩

theorem comesTo_sendBits (bits : List Bool) :
    (bits.forM sendBit kept : Exchange σ Unit).ComesTo (fun later last result =>
      last = kept ∧ later = t.wrote bits ∧ result = .ok ()) t := by
  induction bits generalizing t with
  | nil => exact ⟨rfl, by simp [Transcript.wrote], rfl⟩
  | cons bit bits ih =>
    have h := ih (t := t.wrote [bit])
    rwa [Transcript.wrote_wrote] at h

theorem comesTo_sendByte (b : UInt8) :
    (sendByte b kept).ComesTo (fun later last result =>
      last = kept ∧ later = t.wrote (bitsOf b) ∧ result = .ok ()) t := comesTo_sendBits (bitsOf b)

/-- What follows a reset and a command, and what there is without a presence. -/
theorem comesTo_addressing (command : RomCommand) {f : σ → Unit → Exchange σ α}
    {P : Transcript → σ → Except Refusal α → Prop}
    (habsent : P ⟨[true], []⟩ kept (.error .noResponse))
    (h : (f kept ()).ComesTo P ⟨[false], bitsOf command.code⟩) :
    ((reset kept).bind fun kept _ => (sendByte command.code kept).bind f).ComesTo P {} := by
  apply comesTo_reset.bind
  · rintro _ _ _ ⟨rfl, ⟨-, hr⟩ | ⟨rfl, -⟩⟩
    · cases hr
    · apply (comesTo_sendByte command.code).bind
      · rintro _ _ _ ⟨rfl, rfl, -⟩
        exact h
      · rintro _ _ _ ⟨-, -, hr⟩
        cases hr
  · rintro _ _ _ ⟨rfl, ⟨rfl, hr⟩ | ⟨-, hr⟩⟩
    · cases hr
      exact habsent
    · cases hr

theorem comesTo_receiveBits (n : Nat) :
    (receiveBits n kept).ComesTo (fun later last result => last = kept ∧
      ∃ levels, levels.length = n ∧ later = t.listened levels ∧ result = .ok levels) t := by
  induction n generalizing t with
  | zero => exact ⟨rfl, [], rfl, by simp [Transcript.listened], rfl⟩
  | succ n ih =>
    intro level
    apply ih.bind
    · rintro _ _ levels ⟨rfl, _, hl, rfl, hr⟩
      cases hr
      exact ⟨rfl, level :: levels, congrArg Nat.succ hl, Transcript.listened_listened t [level] _,
        rfl⟩
    · rintro _ _ _ ⟨-, _, -, -, hr⟩
      cases hr

theorem comesTo_receiveByte : (receiveByte kept).ComesTo (fun later last result =>
    last = kept ∧ ∃ b, later = t.listened (bitsOf b) ∧ result = .ok b) t := by
  apply (comesTo_receiveBits 8).bind
  · rintro _ _ bits ⟨rfl, _, hl, rfl, hr⟩
    cases hr
    exact ⟨rfl, byteOf bits, by rw [bitsOf_byteOf hl], rfl⟩
  · rintro _ _ _ ⟨-, _, -, -, hr⟩
    cases hr

end Transaction

end OneWire
