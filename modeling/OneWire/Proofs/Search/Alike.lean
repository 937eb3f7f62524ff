import OneWire.Proofs.Search.Pass
import OneWire.Proofs.SlotLine.Addressing

namespace OneWire

section Alike
variable {σ ρ α β ε : Type} {R : σ → σ → Prop}

/-- What a caller has in the end, and the devices that are addressed, are the same. -/
structure Alike (R : σ → σ → Prop) (o o' : Outcome SlotLine σ ρ) : Prop where
  result : o'.result = o.result
  codes : o'.line.codes = o.line.codes
  selected : o'.line.selected = o.line.selected
  kept : R o.kept o'.kept

theorem Alike.bind {slots : Slots SlotLine ε} {x x' : Exchange σ α} {f : σ → α → Exchange σ β}
    {line line' : SlotLine} (h : Alike R (x.run slots line) (x'.run slots line'))
    (hf : ∀ a kept kept' later later', R kept kept' → later'.codes = later.codes →
      later'.selected = later.selected →
        Alike R ((f kept a).run slots later) ((f kept' a).run slots later')) :
    Alike R ((x.bind f).run slots line) ((x'.bind f).run slots line') := by
  rw [Exchange.run_bind, Exchange.run_bind]
  generalize x.run slots line = o at h
  generalize x'.run slots line' = o' at h
  obtain ⟨later, kept, log, given⟩ := o
  obtain ⟨later', kept', log', given'⟩ := o'
  obtain ⟨hresult, hcodes, hselected, hkept⟩ := h
  obtain rfl : given' = given := hresult
  cases given' with
  | error e => exact ⟨rfl, hcodes, hselected, hkept⟩
  | ok a =>
    have hrest := hf a kept kept' later later' hkept hcodes hselected
    exact ⟨hrest.result, hrest.codes, hrest.selected, hrest.kept⟩

theorem Alike.mapKept {τ : Type} {slots : Slots SlotLine ε} {x x' : Exchange σ α}
    {line line' : SlotLine} (h : Alike R (x.run slots line) (x'.run slots line')) (f : σ → τ)
    {R' : τ → τ → Prop} (hR : ∀ s s', R s s' → R' (f s) (f s')) :
    Alike R' ((x.mapKept f).run slots line) ((x'.mapKept f).run slots line') := by
  rw [Exchange.run_mapKept, Exchange.run_mapKept]
  exact ⟨h.result, h.codes, h.selected, hR _ _ h.kept⟩

end Alike

namespace SlotLine
open Transaction
variable {ε σ α : Type} {line line' : SlotLine}

theorem isEmpty_of_codes (h : line'.codes = line.codes) :
    line'.devices.isEmpty = line.devices.isEmpty := by
  simpa [codes, List.isEmpty_map] using congrArg List.isEmpty h

/-- Without devices there is no more than a reset, and with devices on both lines the rest. -/
theorem alike_addressing {x : Exchange σ α} {kept : σ} (h : line'.codes = line.codes)
    (hempty : ∀ line : SlotLine, line.devices.isEmpty → x.run (slots (ε := ε) true) line =
      ⟨line.reset, kept, [.noPresence], .error (.refused .noResponse)⟩)
    (hrun : ¬ line.devices.isEmpty → ¬ line'.devices.isEmpty →
      Alike Eq (x.run (slots (ε := ε) true) line) (x.run (slots true) line')) :
    Alike Eq (x.run (slots (ε := ε) true) line) (x.run (slots true) line') := by
  have hdevices := isEmpty_of_codes h
  by_cases he : line.devices.isEmpty
  · rw [hempty line he, hempty line' (hdevices.trans he)]
    refine ⟨rfl, ?_, ?_, rfl⟩
    · rw [codes_reset, codes_reset, h]
    · rw [selected_reset, selected_reset]
  · exact hrun he (hdevices ▸ he)

theorem alike_selectAll (h : line'.codes = line.codes) (kept : σ) :
    Alike Eq ((selectAll kept).run (slots (ε := ε) true) line)
      ((selectAll kept).run (slots true) line') := by
  refine alike_addressing h (fun _ he => run_addressing_of_isEmpty he kept _) fun he he' => ?_
  rw [run_selectAll he, run_selectAll he']
  refine ⟨rfl, ?_, ?_, rfl⟩
  · rw [codes_ask, codes_ask, h]
  · rw [selected_skipRom, selected_skipRom, h]

theorem alike_select (h : line'.codes = line.codes) (c : RomCode) (kept : σ) :
    Alike Eq ((select c kept).run (slots (ε := ε) true) line)
      ((select c kept).run (slots true) line') := by
  refine alike_addressing h (fun _ he => run_addressing_of_isEmpty he kept _) fun he he' => ?_
  rw [run_select he, run_select he']
  refine ⟨rfl, ?_, ?_, rfl⟩
  · rw [codes_matchRom, codes_matchRom, h]
  · rw [selected_matchRom, selected_matchRom, h]

theorem alike_readCode (h : line'.codes = line.codes) (c : RomCode) :
    Alike Eq ((readCode c).run (slots (ε := ε) true) line)
      ((readCode c).run (slots true) line') := by
  refine alike_addressing h (fun _ he => run_addressing_of_isEmpty he c _) fun he he' => ?_
  rw [run_readCode he, run_readCode he', h]
  refine ⟨rfl, ?_, ?_, rfl⟩
  · rw [codes_sent, codes_sent, h]
  · rw [selected_sent, selected_sent]

theorem alike_soleCode (h : line'.codes = line.codes) (kept : σ) :
    Alike Eq ((soleCode kept).run (slots (ε := ε) true) line)
      ((soleCode kept).run (slots true) line') := by
  refine alike_addressing h (fun _ he => run_soleCode_of_isEmpty he kept) fun he he' => ?_
  rw [run_soleCode he, run_soleCode he', h]
  refine ⟨rfl, ?_, ?_, rfl⟩
  · rw [codes_sent, codes_sent, h]
  · rw [selected_sent, selected_sent]

theorem codes_searched (line : SlotLine) (r : RomCode) : (line.searched r).codes = line.codes := by
  apply codes_map rfl
  intro d
  exact (Device.code_following (.search · .direct) 64).trans
    (Device.code_asked .searchRom d)

theorem selected_searched (line : SlotLine) (r : RomCode) :
    (line.searched r).selected = line.codes.filter (· = r) := by
  apply selected_map rfl
  · intro d
    exact (Device.code_following (.search · .direct) 64).trans
      (Device.code_asked .searchRom d)
  · intro d
    exact (Device.selected_following (.search · .direct) rfl).trans
      (congrArg (fun c => decide (c = r)) (Device.code_asked .searchRom d))

end SlotLine

namespace Search
open Transaction

variable {ε σ : Type} {s s' : Search} {line line' : SlotLine}

/-- A pass comes to the same code on both lines. -/
theorem alike_pass (hs : SamePlace s s') (h : line'.codes = line.codes) :
    Alike SamePlace ((pass s).run (SlotLine.slots (ε := ε) true) line)
      ((pass s').run (SlotLine.slots true) line') := by
  have hdevices := SlotLine.isEmpty_of_codes h
  by_cases he : line.devices.isEmpty
  · rw [run_pass_of_isEmpty s he, run_pass_of_isEmpty s' (hdevices.trans he)]
    refine ⟨rfl, ?_, ?_, hs⟩
    · rw [SlotLine.codes_reset, SlotLine.codes_reset, h]
    · rw [SlotLine.selected_reset, SlotLine.selected_reset]
  · have hne : line.codes ≠ [] := by simpa [SlotLine.codes] using he
    obtain ⟨r, hr⟩ := RomCode.exists_walkEnds s.choice hne
    have hr' : RomCode.WalkEnds s'.choice line'.codes r := by rwa [hs.choice, h]
    rw [run_pass hr, run_pass hr']
    refine ⟨rfl, ?_, ?_, ?_⟩
    · rw [SlotLine.codes_searched, SlotLine.codes_searched, h]
    · rw [SlotLine.selected_searched, SlotLine.selected_searched, h]
    · change SamePlace (if _ then reported line.codes r else _)
        (if _ then reported line'.codes r else _)
      rw [h]
      by_cases ha : r.Acceptable
      · rw [if_pos ha, if_pos ha]
        exact .refl _
      · rw [if_neg ha, if_neg ha]
        exact ((samePlace_marked s _ r).symm.trans hs).trans (samePlace_marked s' _ r)

theorem firstOfFamily_of_finished (family : UInt8) (n : Nat) (h : s.finished = true) :
    firstOfFamily family (n + 1) s = .done s (.ok none) := by
  change (if s.finished then pure none else _ : Transaction Search _) s = _
  rw [if_pos h]
  rfl

theorem firstOfFamily_of_unfinished (family : UInt8) (n : Nat) (h : s.finished = false) :
    firstOfFamily family (n + 1) s = (pass s).bind fun s c =>
      if c.family = family then .done s (.ok (some c)) else firstOfFamily family n s := by
  change (if s.finished then pure none else
    (do
      let c ← pass
      if c.family = family then pure (some c) else firstOfFamily family n) :
        Transaction Search _) s = _
  rw [if_neg (by simp [h])]
  refine congrArg (pass s).bind (funext fun s => funext fun c => ?_)
  by_cases hf : c.family = family
  · simp only [if_pos hf]
    rfl
  · simp only [if_neg hf]

theorem alike_firstOfFamily_unfinished {family : UInt8} {n : Nat} (hs : SamePlace s s')
    (hu : s.finished = false) (h : line'.codes = line.codes)
    (hrest : ∀ s s' line line', SamePlace s s' → line'.codes = line.codes →
      line'.selected = line.selected →
        Alike SamePlace ((firstOfFamily family n s).run (SlotLine.slots (ε := ε) true) line)
          ((firstOfFamily family n s').run (SlotLine.slots true) line')) :
    Alike SamePlace ((firstOfFamily family (n + 1) s).run (SlotLine.slots (ε := ε) true) line)
      ((firstOfFamily family (n + 1) s').run (SlotLine.slots true) line') := by
  rw [firstOfFamily_of_unfinished family n hu,
    firstOfFamily_of_unfinished family n (hs.finished.trans hu)]
  apply (alike_pass hs h).bind
  intro c s s' line line' hs hcodes hselected
  by_cases hf : c.family = family
  · rw [if_pos hf, if_pos hf]
    exact ⟨rfl, hcodes, hselected, hs⟩
  · rw [if_neg hf, if_neg hf]
    exact hrest s s' line line' hs hcodes hselected

theorem alike_firstOfFamily {family : UInt8} {n : Nat} (hs : SamePlace s s')
    (h : line'.codes = line.codes) (hselected : line'.selected = line.selected) :
    Alike SamePlace ((firstOfFamily family n s).run (SlotLine.slots (ε := ε) true) line)
      ((firstOfFamily family n s').run (SlotLine.slots true) line') := by
  induction n generalizing s s' line line' with
  | zero => exact ⟨rfl, h, hselected, hs⟩
  | succ n ih =>
    cases hu : s.finished with
    | true =>
      rw [firstOfFamily_of_finished family n hu,
        firstOfFamily_of_finished family n (hs.finished.trans hu)]
      exact ⟨rfl, h, hselected, hs⟩
    | false =>
      apply alike_firstOfFamily_unfinished hs hu h
      intro s s' line line' hs h hselected
      exact ih hs h hselected

end Search

namespace Transaction
open Search (SamePlace)

variable {ε σ : Type} {line line' : SlotLine}

theorem firstOfFamily_eq (family : UInt8) (kept : σ) :
    ∃ n, firstOfFamily family kept =
      (Search.firstOfFamily family (n + 1) {}).mapKept fun _ => kept := by
  have hn : UInt64.size = UInt64.size - 1 + 1 := by decide
  refine ⟨UInt64.size - 1, ?_⟩
  rw [← hn]
  rfl

theorem alike_firstOfFamily (h : line'.codes = line.codes) (family : UInt8) (kept : σ) :
    Alike Eq ((firstOfFamily family kept).run (SlotLine.slots (ε := ε) true) line)
      ((firstOfFamily family kept).run (SlotLine.slots true) line') := by
  obtain ⟨n, hn⟩ := firstOfFamily_eq family kept
  rw [hn]
  refine Alike.mapKept (R := SamePlace) ?_ (fun _ => kept) fun _ _ _ => rfl
  refine Search.alike_firstOfFamily_unfinished (.refl {}) rfl h ?_
  intro s s' line line' hs h hselected
  exact Search.alike_firstOfFamily hs h hselected

end Transaction

end OneWire
