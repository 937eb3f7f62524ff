import OneWire.Proofs.PulseLine.Reachable
import OneWire.Proofs.PulseLine.Refinement
import OneWire.Proofs.Search.Alike

namespace OneWire

def Exchange.Resets {σ α : Type} : Exchange σ α → Prop
  | .reset _ _ => True
  | _ => False

theorem Exchange.Resets.bind {σ α β : Type} {x : Exchange σ α} (h : x.Resets)
    (f : σ → α → Exchange σ β) : (x.bind f).Resets := by
  cases x with
  | reset kept next => trivial
  | done _ _ => exact h.elim
  | write _ _ _ => exact h.elim
  | read _ _ => exact h.elim
  | note _ _ => exact h.elim

theorem Exchange.Resets.mapKept {σ τ α : Type} {x : Exchange σ α} (h : x.Resets) (f : σ → τ) :
    (x.mapKept f).Resets := by
  cases x with
  | reset kept next => trivial
  | done _ _ => exact h.elim
  | write _ _ _ => exact h.elim
  | read _ _ => exact h.elim
  | note _ _ => exact h.elim

namespace PulseLine
variable {σ α : Type} {s : Schedule} {line : PulseLine}

theorem run_refines_of_resets (timer : Timer) (h : s.Legible) (hs : line.Sound)
    (hf : line.shorted = false) {x : Exchange σ α} (hx : x.Resets) :
    RefinesOrStruck line (x.run (master timer s).slots line)
      (x.run (SlotLine.slots s.inTime) line.settled) := by
  cases x with
  | reset kept next =>
    apply run_reset_refines timer h hs hf kept
    intro present later hl
    exact run_refines timer h hl (next present)
  | done _ _ => exact hx.elim
  | write _ _ _ => exact hx.elim
  | read _ _ => exact hx.elim
  | note _ _ => exact hx.elim

end PulseLine

/-- A master with a readable schedule, on a line that may have been through anything but a short. -/
structure Station (codes : List RomCode) where
  timer : PulseLine.Timer
  schedule : Schedule
  line : PulseLine
  readable : schedule.Readable
  reachable : line.Reachable codes
  shorted : line.shorted = false

namespace Station
open PulseLine Transaction
open Search (SamePlace next alike_pass firstOfFamily_of_unfinished next_of_unfinished)

variable {codes : List RomCode} {σ α : Type} {R : σ → σ → Prop}

theorem resets_firstOfFamily (family : UInt8) (kept : σ) :
    (Transaction.firstOfFamily family kept).Resets := by
  obtain ⟨n, hn⟩ := firstOfFamily_eq family kept
  have hpass : (Search.pass {}).Resets := trivial
  rw [hn, firstOfFamily_of_unfinished family n rfl]
  exact (hpass.bind _).mapKept _

def run (a : Station codes) (t : Transaction σ α) (kept : σ) :
    Outcome PulseLine σ (Except (BusError LineFault) α) :=
  (master a.timer a.schedule).run t kept a.line

/-- No fault comes during the transaction. -/
def Spared (a : Station codes) (t : Transaction σ α) (kept : σ) : Prop :=
  a.line.struckBetween (a.run t kept).line = false

/-- Spared of faults, a transaction has the same result on both lines and leaves the same devices
addressed once the lines have settled. -/
def Concur (a b : Station codes) (R : σ → σ → Prop) (t : Transaction σ α) (s s' : σ) : Prop :=
  a.Spared t s → b.Spared t s' →
    (b.run t s').result = (a.run t s).result ∧
      (b.run t s').line.settle.selected = (a.run t s).line.settle.selected ∧
        R (a.run t s).kept (b.run t s').kept

theorem run_refines_of_spared (a : Station codes) {t : Transaction σ α} {kept : σ}
    (ht : (t kept).Resets) (hs : a.Spared t kept) :
    Refines (a.run t kept) ((t kept).run (SlotLine.slots true) a.line.settled) := by
  have h := run_refines_of_resets a.timer a.readable.toLegible a.reachable.sound a.shorted ht
  rw [a.readable.inTime_eq] at h
  rcases h with ⟨-, hr⟩ | ⟨-, hstruck⟩
  · exact hr
  · exact absurd hs (by simp [Spared, run, Master.run, hstruck.struckBetween])

theorem spared_of_faultless {a : Station codes} (h : a.line.Faultless) (t : Transaction σ α)
    (kept : σ) : a.Spared t kept :=
  (leads_run a.timer a.schedule (t kept) a.line).not_struckBetween h

theorem codes_settled (a : Station codes) : a.line.settled.codes = codes :=
  (PulseLine.codes_settled a.line).trans a.reachable.codes_eq

theorem concur_of_alike (a b : Station codes) {t : Transaction σ α} {s s' : σ}
    (hs : (t s).Resets) (hs' : (t s').Resets)
    (h : ∀ {line line' : SlotLine}, line'.codes = line.codes →
      Alike R ((t s).run (SlotLine.slots (ε := LineFault) true) line)
        ((t s').run (SlotLine.slots true) line')) : a.Concur b R t s s' := by
  intro ha hb
  have hra := a.run_refines_of_spared hs ha
  have hrb := b.run_refines_of_spared hs' hb
  have halike := h (b.codes_settled.trans a.codes_settled.symm)
  refine ⟨?_, ?_, ?_⟩
  · rw [hra.result, hrb.result, halike.result]
  · have hselected := halike.selected
    rw [← hra.line, ← hrb.line] at hselected
    exact hselected
  · rw [hra.kept, hrb.kept]
    exact halike.kept

/-- Whatever two lines with the same devices have been through, every transaction that addresses
devices comes out the same on both. -/
theorem concur_addressing (a b : Station codes) :
    (∀ {σ : Type} (kept : σ), a.Concur b Eq selectAll kept kept) ∧
    (∀ {σ : Type} (c : RomCode) (kept : σ), a.Concur b Eq (select c) kept kept) ∧
    (∀ c, a.Concur b Eq readCode c c) ∧
    (∀ {σ : Type} (kept : σ), a.Concur b Eq soleCode kept kept) ∧
    (∀ {σ : Type} (family : UInt8) (kept : σ),
      a.Concur b Eq (Transaction.firstOfFamily family) kept kept) ∧
    ∀ s s', s.finished = false → SamePlace s s' → a.Concur b SamePlace next s s' := by
  refine ⟨fun kept => ?_, fun c kept => ?_, fun c => ?_, fun kept => ?_, fun family kept => ?_,
    fun s s' hu hs => ?_⟩
  · exact concur_of_alike a b trivial trivial fun h => SlotLine.alike_selectAll h kept
  · exact concur_of_alike a b trivial trivial fun h => SlotLine.alike_select h c kept
  · exact concur_of_alike a b trivial trivial fun h => SlotLine.alike_readCode h c
  · exact concur_of_alike a b trivial trivial fun h => SlotLine.alike_soleCode h kept
  · have hresets := resets_firstOfFamily family kept
    exact concur_of_alike a b hresets hresets fun h => alike_firstOfFamily h family kept
  · have hpass := next_of_unfinished hu
    have hpass' := next_of_unfinished (hs.finished.trans hu)
    refine concur_of_alike a b (hpass ▸ trivial) (hpass' ▸ trivial) fun h => ?_
    rw [hpass, hpass']
    exact alike_pass hs h

/-- A new line, and one that is held low by a driver that went away. -/
theorem concur_addressing_held :
    let codes := [RomCode.make 0x28 #v[1, 2, 3, 4, 5, 6], .make 0x10 #v[1, 2, 3, 4, 5, 6]]
    let a : Station codes :=
      ⟨.plain, .standard, .ofCodes codes, Schedule.readable_standard, .new, rfl⟩
    let b : Station codes :=
      ⟨.counted, .standard, after (pause 1000) (after ((adapter .plain).act .pullLow) a.line),
        Schedule.readable_standard, .pause 1000 (.act .plain .pullLow .new), rfl⟩
    b.line.lowSince = some 0 ∧
      (b.run soleCode ()).result = (a.run soleCode ()).result ∧
      (b.run soleCode ()).line.settle.selected = (a.run soleCode ()).line.settle.selected ∧
      (b.run next { lowBranches := 7 }).result = (a.run next {}).result ∧
      SamePlace (a.run next {}).kept (b.run next { lowBranches := 7 }).kept := by
  intro codes a b
  have ha : a.line.Faultless := nofun
  have hb : b.line.Faultless := nofun
  obtain ⟨-, -, -, hsole, -, hnext⟩ := concur_addressing a b
  obtain ⟨hresult, hselected, -⟩ :=
    hsole () (spared_of_faultless ha _ _) (spared_of_faultless hb _ _)
  obtain ⟨hfound, -, hplace⟩ := hnext {} { lowBranches := 7 } rfl ⟨rfl, rfl, rfl⟩
    (spared_of_faultless ha _ _) (spared_of_faultless hb _ _)
  exact ⟨rfl, hresult, hselected, hfound, hplace⟩

end Station

end OneWire
