import OneWire.Proofs.PulseLine.Refinement
import OneWire.Proofs.SlotLine.Scratchpad

namespace OneWire

inductive Errand where
  | store (target : Option RomCode) (data : List UInt8)
  | load {n : Nat} (c : RomCode) (buffer : Vector UInt8 n)
  | scan (s : Search)
  | reset
  | soleCode
  | firstOfFamily (family : UInt8)

namespace Errand

def lineAfter {L ε : Type} (slots : Slots L ε) (line : L) : Errand → L
  | store target data => ((Transaction.store target data ()).run slots line).line
  | load c buffer => ((Transaction.load c buffer).run slots line).line
  | scan s => ((Search.next s).run slots line).line
  | reset => ((Transaction.reset ()).run slots line).line
  | soleCode => ((Transaction.soleCode ()).run slots line).line
  | firstOfFamily family => ((Transaction.firstOfFamily family ()).run slots line).line

def update (held : RomCode → List UInt8) : Errand → RomCode → List UInt8
  | store target data => fun c => if hits target c then data else held c
  | _ => held

/-- What devices were given last; at first they hold nothing. -/
def lastStored (errands : List Errand) : RomCode → List UInt8 :=
  errands.foldl update fun _ => []

section Slots
variable {ε : Type} {codes : List RomCode} {held : RomCode → List UInt8} {line : SlotLine}

theorem memory_lineAfter (h : ¬ line.devices.isEmpty)
    (hm : line.memory = codes.map fun a => (a, padOf (held a))) (e : Errand) :
    (e.lineAfter (SlotLine.slots (ε := ε) true) line).memory =
      codes.map fun a => (a, padOf (e.update held a)) := by
  cases e with
  | store target data =>
    obtain ⟨later, hrun, hmemory⟩ := SlotLine.run_store (ε := ε) h target data ()
    rw [lineAfter, hrun, hmemory, hm, List.map_map]
    refine List.map_congr_left fun a _ => ?_
    simp only [Function.comp_apply, update, apply_ite padOf]
  | @load n c buffer =>
    obtain ⟨lines, hlines, hsends, hrun⟩ := SlotLine.run_load (ε := ε) h hm c buffer
    rw [lineAfter, hrun]
    by_cases hn : n = 0
    · subst hn
      exact (hlines 0).trans hm
    · rw [SlotLine.run_receive hsends hn]
      exact (hlines _).trans hm
  | scan s => exact (SlotLine.keepsMemory_next s line).trans hm
  | reset => exact (SlotLine.keepsMemory_reset () line).trans hm
  | soleCode => exact (SlotLine.keepsMemory_soleCode () line).trans hm
  | firstOfFamily family => exact (SlotLine.keepsMemory_firstOfFamily family () line).trans hm

end Slots

end Errand

namespace PulseLine
open Errand Transaction

variable {σ α : Type} {s : Schedule} {codes : List RomCode} {held : RomCode → List UInt8}
  {line : PulseLine}

/-- The line is idle and no fault is to come, and the devices hold what they should. -/
structure Holds (codes : List RomCode) (held : RomCode → List UInt8) (line : PulseLine) :
    Prop where
  free : line.Free
  faultless : line.Faultless
  memory : line.settled.memory = codes.map fun a => (a, padOf (held a))

theorem holds_ofCodes (codes : List RomCode) : Holds codes (fun _ => []) (.ofCodes codes) := by
  refine ⟨⟨rfl, rfl⟩, nofun, ?_⟩
  change (codes.map fun code => ({ code } : Device)).map _ = _
  rw [List.map_map]
  rfl

theorem Holds.devices_ne (h : Holds codes held line) (hne : codes ≠ []) :
    ¬ line.settled.devices.isEmpty := by
  have hlength := congrArg List.length h.memory
  simp only [SlotLine.memory, List.length_map] at hlength
  rw [List.isEmpty_iff_length_eq_zero, hlength, ← List.isEmpty_iff_length_eq_zero]
  simpa using hne

theorem Holds.refines (h : Holds codes held line) (timer : Timer) (hr : s.Readable)
    (x : Exchange σ α) : Leads line (x.run (master timer s).slots line).line ∧
      Refines (x.run (master timer s).slots line) (x.run (SlotLine.slots true) line.settled) := by
  have hrun := (run_refines timer hr.toLegible h.free x).refines h.faultless
  rwa [hr.inTime_eq] at hrun

theorem Holds.step (h : Holds codes held line) (timer : Timer) (hr : s.Readable)
    (hne : codes ≠ []) (e : Errand) :
    Holds codes (e.update held) (e.lineAfter (master timer s).slots line) := by
  have hslots := memory_lineAfter (ε := LineFault) (h.devices_ne hne) h.memory e
  have hstep {σ α : Type} (x : Exchange σ α)
      (hx : (x.run (SlotLine.slots (ε := LineFault) true) line.settled).line.memory =
        codes.map fun a => (a, padOf (e.update held a))) :
      Holds codes (e.update held) (x.run (master timer s).slots line).line := by
    obtain ⟨hleads, hrefines⟩ := h.refines timer hr x
    refine ⟨hrefines.free, hleads.faultless h.faultless, ?_⟩
    rw [hrefines.line, hx]
  cases e with
  | store target data => exact hstep _ hslots
  | load c buffer => exact hstep _ hslots
  | scan s => exact hstep _ hslots
  | reset => exact hstep _ hslots
  | soleCode => exact hstep _ hslots
  | firstOfFamily family => exact hstep _ hslots

theorem Holds.run (h : Holds codes held line) (timer : Timer) (hr : s.Readable)
    (hne : codes ≠ []) (errands : List Errand) :
    Holds codes (errands.foldl update held)
      (errands.foldl (fun line e => e.lineAfter (master timer s).slots line) line) := by
  induction errands generalizing held line with
  | nil => exact h
  | cons e errands ih => exact ih (h.step timer hr hne e)

/-- After any history on a new line, what is read from a device is what it was given last, then
ones; nothing but ones is read where no device has the code, and what is written there changes no
device. -/
theorem reads_back (timer : Timer) (hr : s.Readable) (hne : codes ≠ []) (errands : List Errand) :
    let line := errands.foldl (fun line e => e.lineAfter (master timer s).slots line) (ofCodes codes)
    (∀ (n : Nat) (c : RomCode) (buffer : Vector UInt8 n), 0 < n →
      let o := (master timer s).run (load c) buffer line
      o.result = .ok () ∧ ∀ i : Fin n,
        o.kept.get i = if c ∈ codes then (lastStored errands c).getD i 0xff else 0xff) ∧
    ∀ (c : RomCode) (data : List UInt8), c ∉ codes → data ≠ [] →
      let o := (master timer s).run (store (some c) data) () line
      o.result = .ok () ∧ o.line.settled.memory = line.settled.memory := by
  intro line
  have h : Holds codes (lastStored errands) line := (holds_ofCodes codes).run timer hr hne errands
  have hdevices := h.devices_ne hne
  refine ⟨fun n c buffer hn => ?_, fun c data hc hd => ?_⟩
  · obtain ⟨-, hrefines⟩ := h.refines timer hr (load c buffer)
    obtain ⟨lines, -, hsends, hrun⟩ :=
      SlotLine.run_load (ε := LineFault) hdevices h.memory c buffer
    rw [SlotLine.run_receive hsends (Nat.ne_of_gt hn)] at hrun
    rw [hrun] at hrefines
    refine ⟨hrefines.result, fun i => ?_⟩
    have hkept : ((master timer s).run (load c) buffer line).kept = _ := hrefines.kept
    rw [hkept, get_ofFn]
  · obtain ⟨-, hrefines⟩ := h.refines timer hr (store (some c) data ())
    obtain ⟨later, hrun, hmemory⟩ :=
      SlotLine.run_store (ε := LineFault) hdevices (some c) data ()
    rw [hrun, if_neg (by simpa using hd)] at hrefines
    refine ⟨hrefines.result, ?_⟩
    have hline : ((master timer s).run (store (some c) data) () line).line.settled = _ :=
      hrefines.line
    rw [hline, hmemory, h.memory, List.map_map]
    refine List.map_congr_left fun a ha => ?_
    have hother : a ≠ c := fun he => hc (he ▸ ha)
    simp [hits, hother]

/-- Two devices are written at once, one of them again, and a third that is not there. -/
theorem reads_back_shared :
    let first := RomCode.make 0x28 #v[1, 2, 3, 4, 5, 6]
    let second := RomCode.make 0x10 #v[1, 2, 3, 4, 5, 6]
    let errands : List Errand := [.store none [1, 2, 3], .scan {}, .store (some first) [7],
      .load second #v[0], .soleCode, .store (some .zero) [9], .reset]
    let m := master .plain .standard
    let line := errands.foldl (fun line e => e.lineAfter m.slots line) (ofCodes [first, second])
    let buffer := #v[0, 0, 0, 0]
    Schedule.standard.Readable ∧ (m.run (load second) buffer line).result = .ok () ∧
      (m.run (load first) buffer line).kept = #v[7, 0xff, 0xff, 0xff] ∧
      (m.run (load second) buffer line).kept = #v[1, 2, 3, 0xff] ∧
      (m.run (load .zero) buffer line).kept = #v[0xff, 0xff, 0xff, 0xff] ∧
      (m.run (store (some .zero) [5]) () line).line.settled.memory = line.settled.memory := by
  intro first second errands m line buffer
  have hback := reads_back .plain Schedule.readable_standard (List.cons_ne_nil first [second])
    errands
  have hkept (c : RomCode) : (m.run (load c) buffer line).kept = .ofFn fun i : Fin 4 =>
      if c ∈ [first, second] then (lastStored errands c).getD i 0xff else 0xff := by
    apply Vector.ext
    intro i hi
    rw [Vector.getElem_ofFn]
    exact (hback.1 4 c buffer (by decide)).2 ⟨i, hi⟩
  have habsent : RomCode.zero ∉ [first, second] := by decide +kernel
  refine ⟨Schedule.readable_standard, (hback.1 4 second buffer (by decide)).1, ?_, ?_, ?_,
    (hback.2 .zero [5] habsent (by decide)).2⟩
  · rw [hkept]
    decide +kernel
  · rw [hkept]
    decide +kernel
  · rw [hkept]
    decide +kernel

end PulseLine

end OneWire
