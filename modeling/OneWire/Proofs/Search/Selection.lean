import OneWire.Proofs.Search.Stations

namespace OneWire.Station

open PulseLine Transaction
open Search (next next_of_finished next_of_unfinished)

variable {codes : List RomCode} {σ α : Type} {a : Station codes}

theorem isEmpty_settled (a : Station codes) :
    a.line.settled.devices.isEmpty = codes.isEmpty := by
  have h := congrArg List.isEmpty a.codes_settled
  simpa [SlotLine.codes, List.isEmpty_map] using h

theorem not_isEmpty_settled (a : Station codes) (hne : codes ≠ []) :
    ¬ a.line.settled.devices.isEmpty := by
  rwa [a.isEmpty_settled, List.isEmpty_iff]

theorem result_of_nil (a : Station []) {t : Transaction σ α} {kept : σ}
    (ht : (t kept).Resets) (hs : a.Spared t kept)
    (hempty : ∀ line : SlotLine, line.devices.isEmpty →
      (t kept).run (SlotLine.slots (ε := LineFault) true) line =
        ⟨line.reset, kept, [.noPresence], .error (.refused .noResponse)⟩) :
    (a.run t kept).result = .error (.refused .noResponse) := by
  rw [(a.run_refines_of_spared ht hs).result, hempty _ a.isEmpty_settled]

theorem selected_of_run {t : Transaction σ α} {kept : σ} (ht : (t kept).Resets)
    (hs : a.Spared t kept) : (a.run t kept).line.settle.selected =
      ((t kept).run (SlotLine.slots (ε := LineFault) true) a.line.settled).line.selected :=
  congrArg SlotLine.selected (a.run_refines_of_spared ht hs).line

theorem selected_selectAll (hne : codes ≠ []) {kept : σ} (hs : a.Spared selectAll kept) :
    (a.run selectAll kept).result = .ok () ∧
      (a.run selectAll kept).line.settle.selected = codes := by
  have hresets : (selectAll kept).Resets := trivial
  have hrun : (selectAll kept).run (SlotLine.slots (ε := LineFault) true) a.line.settled = _ :=
    SlotLine.run_selectAll (a.not_isEmpty_settled hne) kept
  refine ⟨?_, ?_⟩
  · rw [(a.run_refines_of_spared hresets hs).result, hrun]
  · rw [selected_of_run hresets hs, hrun, SlotLine.selected_skipRom, a.codes_settled]

theorem selected_select (hne : codes ≠ []) {c : RomCode} {kept : σ}
    (hs : a.Spared (select c) kept) :
    (a.run (select c) kept).result = .ok () ∧
      (a.run (select c) kept).line.settle.selected = codes.filter (· = c) := by
  have hresets : (select c kept).Resets := trivial
  have hrun : (select c kept).run (SlotLine.slots (ε := LineFault) true) a.line.settled = _ :=
    SlotLine.run_select (a.not_isEmpty_settled hne) c kept
  refine ⟨?_, ?_⟩
  · rw [(a.run_refines_of_spared hresets hs).result, hrun]
  · rw [selected_of_run hresets hs, hrun, SlotLine.selected_matchRom, a.codes_settled]

theorem selected_next {s : Search} {c : RomCode} (hs : a.Spared next s)
    (hc : (a.run next s).result = .ok c) :
    c ∈ codes ∧ (a.run next s).line.settle.selected = codes.filter (· = c) := by
  have hu : s.finished = false := by
    rw [← Bool.not_eq_true]
    intro hf
    rw [run, Master.run, next_of_finished hf] at hc
    cases hc
  have hpass := next_of_unfinished hu
  have hresets : (next s).Resets := hpass ▸ trivial
  have hresult := (a.run_refines_of_spared hresets hs).result
  rw [selected_of_run hresets hs]
  rw [hc, hpass] at hresult
  rw [hpass]
  have hcodes := a.codes_settled
  by_cases hne : codes = []
  · -- without devices there would have been no code
    rw [Search.run_pass_of_isEmpty s (by rw [a.isEmpty_settled, hne]; rfl)] at hresult
    cases hresult
  · obtain ⟨r, hw⟩ := RomCode.exists_walkEnds s.choice hne
    have hmem := hw.mem
    rw [← hcodes] at hw
    rw [Search.run_pass hw] at hresult ⊢
    obtain rfl : c = r := by
      unfold Search.given at hresult
      split at hresult
      · cases hresult
        rfl
      · cases hresult
    exact ⟨hmem, by rw [SlotLine.selected_searched, hcodes]⟩

/-- Addressing all devices, one code, or the code that a search comes to leaves exactly those
devices addressed, and without devices there is no response. -/
theorem selected_exactly (a : Station codes) :
    (codes ≠ [] →
      (∀ {σ : Type} (kept : σ), a.Spared selectAll kept →
        (a.run selectAll kept).result = .ok () ∧
          (a.run selectAll kept).line.settle.selected = codes) ∧
      (∀ {σ : Type} (c : RomCode) (kept : σ), a.Spared (select c) kept →
        (a.run (select c) kept).result = .ok () ∧
          (a.run (select c) kept).line.settle.selected = codes.filter (· = c)) ∧
      ∀ s c, a.Spared next s → (a.run next s).result = .ok c →
        c ∈ codes ∧ (a.run next s).line.settle.selected = codes.filter (· = c)) ∧
    (codes = [] →
      (∀ {σ : Type} (kept : σ), a.Spared selectAll kept →
        (a.run selectAll kept).result = .error (.refused .noResponse)) ∧
      (∀ {σ : Type} (c : RomCode) (kept : σ), a.Spared (select c) kept →
        (a.run (select c) kept).result = .error (.refused .noResponse)) ∧
      ∀ s, s.finished = false → a.Spared next s →
        (a.run next s).result = .error (.refused .noResponse)) := by
  refine ⟨fun hne => ⟨fun kept hs => ?_, fun c kept hs => ?_, fun s c hs hc => ?_⟩, ?_⟩
  · exact selected_selectAll hne hs
  · exact selected_select hne hs
  · exact selected_next hs hc
  · rintro rfl
    refine ⟨fun kept hs => ?_, fun c kept hs => ?_, fun s hu hs => ?_⟩
    · exact a.result_of_nil trivial hs fun _ he => SlotLine.run_addressing_of_isEmpty he kept _
    · exact a.result_of_nil trivial hs fun _ he => SlotLine.run_addressing_of_isEmpty he kept _
    · have hpass := next_of_unfinished hu
      refine a.result_of_nil (hpass ▸ trivial) hs fun _ he => ?_
      rw [hpass, Search.run_pass_of_isEmpty s he]

/-- Two of three devices have the same code, on a line that is held low by a driver that went away;
and a line without devices. -/
theorem selected_exactly_held :
    let first := RomCode.make 0x10 #v[1, 2, 3, 4, 5, 6]
    let second := RomCode.make 0x28 #v[1, 2, 3, 4, 5, 6]
    let a : Station [second, first, second] :=
      ⟨.counted, .standard, after (pause 1000) (after ((adapter .plain).act .pullLow) (.ofCodes _)),
        Schedule.readable_standard, .pause 1000 (.act .plain .pullLow .new), rfl⟩
    let b : Station [] := ⟨.plain, .standard, .ofCodes [], Schedule.readable_standard, .new, rfl⟩
    a.line.lowSince = some 0 ∧
      (a.run selectAll ()).line.settle.selected = [second, first, second] ∧
      (a.run (select second) ()).line.settle.selected = [second, second] ∧
      (a.run (select .zero) ()).line.settle.selected = [] ∧
      (a.run next {}).result = .ok first ∧ (a.run next {}).line.settle.selected = [first] ∧
      (b.run next {}).result = .error (.refused .noResponse) := by
  intro first second a b
  have ha : a.line.Faultless := nofun
  have hb : b.line.Faultless := nofun
  obtain ⟨hall, hone, hsearch⟩ := (selected_exactly a).1 (List.cons_ne_nil _ _)
  obtain ⟨-, -, hnone⟩ := (selected_exactly b).2 rfl
  have hfound : (a.run next {}).result = .ok first := by decide +kernel
  refine ⟨rfl, (hall () (spared_of_faultless ha _ _)).2, ?_, ?_, hfound, ?_, ?_⟩
  · rw [(hone second () (spared_of_faultless ha _ _)).2]
    decide +kernel
  · rw [(hone .zero () (spared_of_faultless ha _ _)).2]
    decide +kernel
  · rw [(hsearch {} first (spared_of_faultless ha _ _) hfound).2]
    decide +kernel
  · exact hnone {} rfl (spared_of_faultless hb _ _)

end OneWire.Station
