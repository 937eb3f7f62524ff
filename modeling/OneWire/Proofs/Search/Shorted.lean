import OneWire.Proofs.Search.Enumeration
import OneWire.Proofs.Search.Place

namespace OneWire

def stuckLow {ε : Type} : Slots Unit ε where
  reset := pure true
  write _ := pure ()
  read := pure false

namespace Search
open Transaction

variable {ε : Type} {s t : Search}

/-- The code that a pass makes up where devices seem to differ at every position. -/
@[irreducible]
def phantom (s : Search) : RomCode :=
  (List.finRange 64).foldl (fun c p => c.withBit p (s.choice p)) .zero

theorem bit_phantom (s : Search) (p : Fin 64) : s.phantom.bit p = s.choice p := by
  rw [phantom, RomCode.foldl_withBit, if_pos (List.mem_finRange p)]

theorem SamePlace.phantom (h : SamePlace s t) : t.phantom = s.phantom := by
  rw [Search.phantom, Search.phantom, h.choice]

theorem phantom_of_branch (h : s.branch = none) : s.phantom = .zero := by
  rw [RomCode.eq_zero_iff]
  intro p
  rw [bit_phantom, choice, h]

theorem run_descend_stuckLow (h : SamePlace s t) (ps : List (Fin 64)) (c : RomCode) :
    ∃ u, SamePlace s u ∧ (descend ps c t).run (stuckLow (ε := ε)) () =
      ⟨(), u, [], .ok (ps.foldl (fun c p => c.withBit p (s.choice p)) c)⟩ := by
  induction ps generalizing c t with
  | nil => exact ⟨t, h, rfl⟩
  | cons p ps ih =>
    have hstep : ∃ u, SamePlace s u ∧
        (step p t).run (stuckLow (ε := ε)) () = ⟨(), u, [], .ok (s.choice p)⟩ := by
      have hrun : (step p t).run (stuckLow (ε := ε)) () =
          ((branchAt p t).bind fun s bit => .write bit s (.done s (.ok bit))).run stuckLow () := rfl
      rw [hrun, branchAt_eq, h.choice]
      cases s.choice p with
      | true => exact ⟨t, h, rfl⟩
      | false => exact ⟨_, h.trans (samePlace_takeLow t p), rfl⟩
    obtain ⟨u, hu, hrun⟩ := hstep
    obtain ⟨v, hv, hrest⟩ := ih hu (c.withBit p (s.choice p))
    refine ⟨v, hv, ?_⟩
    rw [descend_cons, Exchange.run_bind_of_ok hrun, hrest]
    rfl

theorem run_pass_stuckLow (s : Search) :
    ∃ u, SamePlace s u ∧ (pass s).run (stuckLow (ε := ε)) () =
      ⟨(), if s.phantom.Acceptable then u.found s.phantom else u,
        [.searchPass s.branch, verdict s.phantom], (given s.phantom).mapError .refused⟩ := by
  obtain ⟨u, hu, hdescend⟩ :=
    run_descend_stuckLow (ε := ε) (samePlace_begin s) (List.finRange 64) .zero
  have hphantom : (List.finRange 64).foldl (fun c p => c.withBit p (s.choice p)) .zero =
      s.phantom := by
    rw [phantom]
  rw [hphantom] at hdescend
  refine ⟨u, hu, ?_⟩
  have hreset : (reset s).run (stuckLow (ε := ε)) () = ⟨(), s, [], .ok ()⟩ := rfl
  have hcommand : (sendByte RomCommand.searchRom.code s).run (stuckLow (ε := ε)) () =
      ⟨(), s, [], .ok ()⟩ := rfl
  rw [pass_eq, Exchange.run_bind_of_ok hreset, Exchange.run_bind_of_ok hcommand, Exchange.run,
    Exchange.run_bind_of_ok hdescend, run_accept]
  simp only [List.nil_append]

end Search

namespace PulseLine
variable {line : PulseLine} {s : Schedule}

theorem shorted_effects (actions : List Action) (line : PulseLine) :
    (effects actions line).shorted = line.shorted := by
  induction actions generalizing line with
  | nil => rfl
  | cons action rest ih => exact (ih _).trans (leads_effect action line).shorted

theorem level_of_shorted (h : line.shorted = true) : line.level = (false, line) := by
  simp [level, h]

/-- Whatever the schedule, the pulses come to slots on a line that stays low. -/
theorem simulates_stuckLow (timer : Timer) (s : Schedule) :
    Simulates (master timer s).slots stuckLow (fun line => line.shorted = true) fun _ => () where
  reset line h := by
    apply (runs_reset_effect timer s line).mono
    rintro present later ⟨hv, n, hl⟩
    have hs := level_of_shorted ((shorted_effects s.resetWindow.before line).trans h)
    rw [hs] at hv hl
    subst hv hl
    exact ⟨(shorted_effects _ _).trans ((shorted_effects _ _).trans h), rfl⟩
  write line h bit := by
    apply (runs_write_effect timer s line bit).mono
    rintro _ later ⟨n, hl⟩
    refine ⟨?_, rfl⟩
    rw [hl]
    exact (shorted_effects _ _).trans h
  read line h := by
    apply (runs_read_effect timer s line).mono
    rintro level later ⟨hv, n, hl⟩
    have hs := level_of_shorted ((shorted_effects s.readWindow.before line).trans h)
    rw [hs] at hv hl
    subst hv hl
    exact ⟨(shorted_effects _ _).trans ((shorted_effects _ _).trans h), rfl⟩

end PulseLine

namespace Search
open PulseLine
open RomCode (ascending)

section Calls
variable {codes : List RomCode} {sch : Schedule} {line : PulseLine} {s : Search} {k : Nat}

theorem run_next_of_shorted (timer : Timer) (sch : Schedule) (h : line.shorted = true)
    (hs : s.finished = false) :
    let o := (next s).run (master timer sch).slots line
    (o.result = (given s.phantom).mapError .refused ∧ ∃ u, SamePlace s u ∧
      o.kept = if s.phantom.Acceptable then u.found s.phantom else u) ∨ CutShort line s o := by
  intro o
  obtain ⟨u, hu, hpass⟩ := run_pass_stuckLow (ε := LineFault) s
  have hrun : o = (pass s).run (master timer sch).slots line := by
    rw [← next_of_unfinished hs]
  rcases (simulates_stuckLow timer sch).run h (pass s) with ⟨-, hr⟩ | ⟨hresult, hstruck⟩
  · rw [hpass, ← hrun] at hr
    exact .inl ⟨hr.result, u, hu, hr.kept⟩
  · rw [← hrun] at hresult hstruck
    exact .inr ⟨hresult, hstruck, samePlace_of_error hresult⟩

theorem calls_of_shorted (timer : Timer) (sch : Schedule) (h : line.shorted = true)
    (hs : s.finished = false) (hbad : ¬ s.phantom.Acceptable) (n : Nat) :
    let o := calls (master timer sch).slots n s line
    (∀ result ∈ o.result, result = .error (.refused s.phantom.defect) ∨
      result = .error (.failed .injected)) ∧ SamePlace s o.kept := by
  induction n generalizing s line with
  | zero => exact ⟨nofun, .refl s⟩
  | succ n ih =>
    have hshorted : ((next s).run (master timer sch).slots line).line.shorted = true :=
      (leads_run timer sch (next s) line).shorted.trans h
    have hfirst : (((next s).run (master timer sch).slots line).result =
        .error (.refused s.phantom.defect) ∨ ((next s).run (master timer sch).slots line).result =
          .error (.failed .injected)) ∧
        SamePlace s ((next s).run (master timer sch).slots line).kept := by
      rcases run_next_of_shorted timer sch h hs with ⟨hresult, u, hu, hkept⟩ | hcut
      · rw [given, if_neg hbad] at hresult
        rw [if_neg hbad] at hkept
        exact ⟨.inl hresult, hkept ▸ hu⟩
      · exact ⟨.inr hcut.result, hcut.place⟩
    obtain ⟨hresult, hplace⟩ := hfirst
    have hrest := ih hshorted (hplace.finished.trans hs) (hplace.phantom ▸ hbad)
    rw [hplace.phantom] at hrest
    refine ⟨?_, hplace.trans hrest.2⟩
    intro result hm
    rcases List.mem_cons.1 hm with rfl | hm
    · exact hresult
    · exact hrest.1 result hm

theorem leads_calls (timer : Timer) (sch : Schedule) (n : Nat) (s : Search) (line : PulseLine) :
    Leads line (calls (master timer sch).slots n s line).line := by
  induction n generalizing s line with
  | zero => exact .refl line
  | succ n ih => exact (leads_run timer sch (next s) line).trans (ih _ _)

theorem faultless_short (h : line.Faultless) : line.short.Faultless := h

theorem calls_of_le_length (timer : Timer) (h : sch.Readable) (hl : line.Reachable codes)
    (hf : line.shorted = false) (hn : line.Faultless) (hall : ∀ c ∈ codes, c.Acceptable)
    (hk : k ≤ (ascending codes).length) :
    let before := calls (master timer sch).slots k {} line
    before.result = ((ascending codes).take k).map .ok ∧ before.kept = milestone codes k ∧
      before.line.short.Faultless := by
  intro before
  have hgood := reportable_eq_iff.2 hall
  obtain ⟨hresult, -, hexact⟩ := calls_of_milestone (i := 0) timer h k hl hf hn
    (Nat.zero_le _) (.refl {})
  refine ⟨?_, ?_, faultless_short ((leads_calls timer sch k {} line).faultless hn)⟩
  · have hnone : k - ((ascending codes).length - 0) = 0 := by omega
    rw [expected, hgood, hnone] at hresult
    simpa using hresult
  · have := hexact hall rfl
    rwa [hgood, Nat.zero_add, Nat.min_eq_left hk] at this

theorem run_next_of_phantom (timer : Timer) (sch : Schedule) (h : line.shorted = true)
    (hn : line.Faultless) (hs : s.finished = false) (hok : s.phantom.Acceptable) :
    let o := (next s).run (master timer sch).slots line
    o.result = .ok s.phantom ∧ o.kept.lastCode = s.phantom := by
  rcases run_next_of_shorted timer sch h hs with ⟨hresult, u, -, hkept⟩ | hcut
  · rw [given, if_pos hok] at hresult
    rw [if_pos hok] at hkept
    exact ⟨hresult, by rw [hkept, found]⟩
  · exact absurd hcut.struck hn.not_struck

/-- A search that is not over when its line is shorted makes up one code from then on. If it is
refused, every call fails and the search stays in its place; if its checksum is right, the next
call gives it out. -/
theorem calls_short (timer : Timer) (h : sch.Readable) (hl : line.Reachable codes)
    (hf : line.shorted = false) (hn : line.Faultless) (hall : ∀ c ∈ codes, c.Acceptable)
    (hk : k ≤ (ascending codes).length) :
    let before := calls (master timer sch).slots k {} line
    before.kept.finished = false →
    before.result = ((ascending codes).take k).map .ok ∧
    (k = 0 → before.kept.phantom = .zero) ∧
    (¬ before.kept.phantom.Acceptable → ∀ later : PulseLine, later.shorted = true →
      ∀ timer' sch' n, let o := calls (master timer' sch').slots n before.kept later
        (∀ result ∈ o.result, result = .error (.refused before.kept.phantom.defect) ∨
          result = .error (.failed .injected)) ∧ SamePlace before.kept o.kept) ∧
    (before.kept.phantom.Acceptable →
      ((next before.kept).run (master timer sch).slots before.line.short).result =
        .ok before.kept.phantom) := by
  intro before hunf
  obtain ⟨hresult, -, hfaultless⟩ := calls_of_le_length timer h hl hf hn hall hk
  refine ⟨hresult, ?_, ?_, ?_⟩
  · rintro rfl
    exact phantom_of_branch rfl
  · intro hbad later hshort timer' sch' n
    exact calls_of_shorted timer' sch' hshort hunf hbad n
  · intro hok
    exact (run_next_of_phantom timer sch rfl hfaultless hunf hok).1

/-- After the first of two devices the made up code has a wrong checksum. -/
theorem calls_short_standard :
    let codes := [RomCode.make 0x28 #v[1, 2, 3, 4, 5, 6], .make 0x10 #v[1, 2, 3, 4, 5, 6]]
    let before := calls (master .plain .standard).slots 1 {} (.ofCodes codes)
    before.result = [.ok (.make 0x10 #v[1, 2, 3, 4, 5, 6])] ∧
      SamePlace before.kept
        (calls (master .plain .standard).slots 3 before.kept before.line.short).kept ∧
      ∀ result ∈ (calls (master .plain .standard).slots 3 before.kept before.line.short).result,
        result.toOption = none := by
  intro codes before
  have hall : ∀ c ∈ codes, c.Acceptable := by decide +kernel
  have hk : 1 ≤ (ascending codes).length := by decide +kernel
  have hkept : before.kept = milestone codes 1 :=
    (calls_of_le_length .plain Schedule.readable_standard .new rfl nofun hall hk).2.1
  have hunf : before.kept.finished = false := by
    rw [hkept]
    decide +kernel
  have hbad : ¬ before.kept.phantom.Acceptable := by
    rw [hkept]
    decide +kernel
  obtain ⟨hresult, -, hrefused, -⟩ :=
    calls_short .plain Schedule.readable_standard .new rfl nofun hall hk hunf
  obtain ⟨hresults, hplace⟩ := hrefused hbad before.line.short rfl .plain .standard 3
  refine ⟨?_, hplace, ?_⟩
  · rw [hresult]
    decide +kernel
  · intro result hm
    rcases hresults result hm with rfl | rfl
    · rfl
    · rfl

/-- What becomes of a search whose line is shorted after the first of its codes, if the code that it
makes up then is another with a right checksum. -/
theorem next_of_short (timer : Timer) (h : sch.Readable) (hl : line.Reachable codes)
    (hf : line.shorted = false) (hn : line.Faultless) (hall : ∀ c ∈ codes, c.Acceptable)
    {r r' c : RomCode} {rest : List RomCode} (hsorted : ascending codes = r :: r' :: rest)
    (hc : (milestone codes 1).phantom = c) (hok : c.Acceptable) (hne : c ≠ r) :
    let before := calls (master timer sch).slots 1 {} line
    let after := (next before.kept).run (master timer sch).slots before.line.short
    before.result = [.ok r] ∧ after.result = .ok c ∧ ¬ SamePlace before.kept after.kept := by
  intro before after
  have hlength : 1 < (ascending codes).length := by
    rw [hsorted]
    exact Nat.succ_lt_succ (Nat.succ_pos _)
  obtain ⟨hresult, hkept, hfaultless⟩ := calls_of_le_length timer h hl hf hn hall
    (Nat.le_of_lt hlength)
  have hunf : before.kept.finished = false := by
    rw [hkept, unfinished_milestone hlength]
  have hphantom : before.kept.phantom = c := by
    rw [hkept, hc]
  have hlast : before.kept.lastCode = r := by
    rw [hkept, milestone_succ (congrArg (·[0]?) hsorted)]
    rfl
  obtain ⟨hgiven, hlater⟩ :=
    run_next_of_phantom timer sch rfl hfaultless hunf (hphantom ▸ hok)
  refine ⟨?_, ?_, fun hplace => hne ?_⟩
  · rw [hresult, hsorted]
    rfl
  · rw [hgiven, hphantom]
  · rw [← hphantom, ← hlater, ← hlast]
    exact hplace.lastCode

/-- The checksum of a made up code can be right: of two devices whose serial numbers differ in one
byte the search reports the first, and once the line is shorted a device that is not there. -/
theorem next_of_short_phantom :
    let first : RomCode := ⟨#v[0x28, 4, 0, 0, 0, 0, 0, 0xc2]⟩
    let second : RomCode := ⟨#v[0x28, 4, 0, 0, 0, 0, 0x18, 0x9d]⟩
    let absent : RomCode := ⟨#v[0x28, 4, 0, 0, 0, 0, 8, 0]⟩
    Schedule.standard.Readable ∧ (∀ c ∈ [first, second], c.Acceptable) ∧
      absent ∉ [first, second] ∧
      let before := calls (master .plain .standard).slots 1 {} (.ofCodes [first, second])
      let after := (next before.kept).run (master .plain .standard).slots before.line.short
      before.result = [.ok first] ∧ after.result = .ok absent ∧
        ¬ SamePlace before.kept after.kept := by
  intro first second absent
  have hall : ∀ c ∈ [first, second], c.Acceptable := by decide +kernel
  refine ⟨Schedule.readable_standard, hall, by decide, ?_⟩
  have hsorted : ascending [first, second] = [first, second] := by decide +kernel
  have hphantom : (milestone [first, second] 1).phantom = absent := by decide +kernel
  exact next_of_short .plain Schedule.readable_standard .new rfl nofun hall hsorted hphantom
    (by decide +kernel) (by decide)

end Calls

end Search

end OneWire
