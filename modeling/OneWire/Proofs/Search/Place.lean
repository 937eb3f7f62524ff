import OneWire.Proofs.Exchange.Recording
import OneWire.Proofs.PulseLine.Slots
import OneWire.Proofs.Search.Pass

namespace OneWire

namespace Transaction
variable {L ε σ α β : Type} {f : σ → σ}

/-- What `f` forgets of the state has no part in the transaction. -/
def Ignores (f : σ → σ) (x : Transaction σ α) : Prop :=
  ∀ s, (x s).mapKept f = (x (f s)).mapKept f

theorem Ignores.bind {x : Transaction σ α} {g : α → Transaction σ β} (hx : Ignores f x)
    (hg : ∀ a, Ignores f (g a)) : Ignores f (x >>= g) := by
  have hseq (s : σ) : ((x >>= g) s).mapKept f =
      ((x s).mapKept f).bind fun s a => (g a s).mapKept f :=
    Exchange.mapKept_bind (fun s a => hg a s) (x s)
  intro s
  rw [hseq, hseq, hx s]

section Idempotent
variable (hf : ∀ s, f (f s) = f s)
include hf

theorem ignores_presence : Ignores f (presence : Transaction σ Bool) := by
  intro s
  simp only [presence, Exchange.mapKept, hf]

theorem ignores_note (record : Note) : Ignores f (note record) := by
  intro s
  simp only [note, Exchange.mapKept, hf]

theorem ignores_ofExcept (result : Except Refusal α) : Ignores f (ofExcept result) := by
  intro s
  simp only [ofExcept, Exchange.mapKept, hf]

theorem ignores_sendBit (bit : Bool) : Ignores f (sendBit bit) := by
  intro s
  simp only [sendBit, Exchange.mapKept, hf]

theorem ignores_reset : Ignores f (reset : Transaction σ Unit) := by
  apply (ignores_presence hf).bind
  intro present
  cases present with
  | true => exact ignores_ofExcept hf (.ok ())
  | false =>
    exact (ignores_note hf .noPresence).bind fun _ => ignores_ofExcept hf (.error .noResponse)

theorem ignores_sendByte (b : UInt8) : Ignores f (sendByte b) := by
  unfold sendByte
  induction bitsOf b with
  | nil => exact ignores_ofExcept hf (.ok ())
  | cons bit rest ih => exact (ignores_sendBit hf bit).bind fun _ => ih

end Idempotent

theorem Ignores.run {x : Transaction σ α} (h : Ignores f x) {s t : σ} (he : f s = f t)
    (slots : Slots L ε) (line : L) :
    let o := (x s).run slots line
    let o' := (x t).run slots line
    o'.result = o.result ∧ o'.line = o.line ∧ o'.log = o.log ∧ f o'.kept = f o.kept := by
  have hr := congrArg (Exchange.run slots · line) ((h t).trans ((he ▸ h s).symm))
  simp only [Exchange.run_mapKept, Outcome.mk.injEq] at hr
  obtain ⟨hline, hkept, hlog, hresult⟩ := hr
  exact ⟨hresult, hline, hlog, hkept⟩

end Transaction

namespace Search
open Transaction

variable {L ε : Type} {s t : Search}

theorem begin_eq_iff : s.begin = t.begin ↔ SamePlace s t := by
  obtain ⟨finished, deepestLow, branch, lowBranches, lastCode⟩ := s
  obtain ⟨finished', deepestLow', branch', lowBranches', lastCode'⟩ := t
  simp only [begin, mk.injEq, true_and]
  constructor
  · rintro ⟨rfl, rfl, rfl⟩
    exact ⟨rfl, rfl, rfl⟩
  · rintro ⟨rfl, rfl, rfl⟩
    exact ⟨rfl, rfl, rfl⟩

/-- A pass begins its counts anew before it descends, and reads none of them earlier. -/
theorem ignores_pass : Ignores begin pass := by
  have hbegin (s : Search) : s.begin.begin = s.begin := rfl
  rw [show pass = _ from funext pass_eq]
  apply (ignores_reset hbegin).bind
  intro _
  apply (ignores_sendByte hbegin _).bind
  intro _ s
  rfl

theorem ignores_next : Ignores begin next := by
  intro s
  cases hf : s.finished with
  | true =>
    rw [next_of_finished hf, next_of_finished (s := s.begin) hf]
    rfl
  | false =>
    rw [next_of_unfinished hf, next_of_unfinished (s := s.begin) hf]
    exact ignores_pass s

theorem samePlace_of_error {slots : Slots L ε} {line : L} {e : BusError ε}
    (he : ((next s).run slots line).result = .error e) :
    SamePlace s ((next s).run slots line).kept := by
  cases hf : s.finished with
  | true =>
    rw [next_of_finished hf]
    exact .refl s
  | false =>
    rw [next_of_unfinished hf] at he ⊢
    rcases (ends_pass s).run slots line with ⟨c, hc, -⟩ | ⟨-, hplace⟩
    · exact absurd (hc.symm.trans he) nofun
    · exact hplace

/-- A call that fails leaves the search in its place, and nothing but the place has a part in a
call: not in what is done to the line, nor in what comes of it. -/
theorem next_of_samePlace (m : Master L ε) (line : L) (s : Search) :
    (∀ e, (m.run next s line).result = .error e → SamePlace s (m.run next s line).kept) ∧
    ∀ t, SamePlace s t →
      let o := m.run next s line
      let o' := m.run next t line
      o'.result = o.result ∧ o'.line = o.line ∧ o'.log = o.log ∧ SamePlace o.kept o'.kept ∧
        m.operations next t line = m.operations next s line := by
  refine ⟨fun e he => samePlace_of_error he, fun t h => ?_⟩
  have hbegin := begin_eq_iff.2 h
  obtain ⟨hresult, hline, hlog, hkept⟩ := ignores_next.run hbegin m.slots line
  obtain ⟨-, hrecord, -⟩ := ignores_next.run hbegin (m.recorded .never).slots ⟨line, []⟩
  exact ⟨hresult, hline, hlog, begin_eq_iff.1 hkept.symm, congrArg Recorded.operations hrecord⟩

/-- On a line stuck low a pass gives a code with a wrong checksum. -/
theorem next_of_samePlace_stuck :
    let m : Master Unit Unit :=
      ⟨⟨⟨fun _ => pure (), pure (), pure (), pure false⟩, fun _ => pure ()⟩, .standard⟩
    let s : Search := { branch := some 3 }
    let t : Search := { branch := some 3, deepestLow := some 9, lowBranches := 4 }
    SamePlace s (m.run next s ()).kept ∧ (m.run next t ()).result = (m.run next s ()).result ∧
      SamePlace s (m.run next t ()).kept ∧ m.operations next t () = m.operations next s () := by
  intro m s t
  obtain ⟨hfails, hsame⟩ := next_of_samePlace m () s
  obtain ⟨hresult, -, -, hkept, hops⟩ := hsame t ⟨rfl, rfl, rfl⟩
  have herror : ∃ e, (m.run next s ()).result = .error e := by
    have hnone : (m.run next s ()).result.toOption = none := by decide +kernel
    cases hr : (m.run next s ()).result with
    | error e => exact ⟨e, rfl⟩
    | ok c =>
      rw [hr] at hnone
      cases hnone
  obtain ⟨e, he⟩ := herror
  have hplace := hfails e he
  exact ⟨hplace, hresult, hplace.trans hkept, hops⟩

end Search

end OneWire
