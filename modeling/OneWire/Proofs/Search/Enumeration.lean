import Mathlib.Data.List.TakeWhile
import OneWire.Proofs.PulseLine.Reachable
import OneWire.Proofs.PulseLine.Refinement
import OneWire.Proofs.Search.Pass

namespace OneWire.Search

open RomCode (ascending forks next? WalkEnds)

variable {codes : List RomCode} {r : RomCode} {s : Search} {i : Nat}

/-- A new search once it has reported the first `i` codes. -/
def milestone (codes : List RomCode) : Nat → Search
  | 0 => {}
  | i + 1 => match (ascending codes)[i]? with
    | some r => reported codes r
    | none => {}

theorem milestone_succ (h : (ascending codes)[i]? = some r) :
    milestone codes (i + 1) = reported codes r := by
  simp [milestone, h]

theorem walkEnds_milestone (h : (ascending codes)[i]? = some r) :
    WalkEnds (milestone codes i).choice codes r := by
  cases i with
  | zero =>
    -- a new search goes low everywhere, which leads to the first code
    apply RomCode.walkEnds_low (RomCode.mem_ascending.1 (List.mem_of_getElem? h))
    intro a ha hb
    obtain ⟨j, hj, rfl⟩ := List.mem_iff_getElem.1 (RomCode.mem_ascending.2 ha)
    obtain ⟨h0, rfl⟩ := List.getElem?_eq_some_iff.1 h
    rcases Nat.eq_zero_or_pos j with rfl | hpos
    · exact RomCode.before_irrefl _ hb
    · exact hb.asymm (List.pairwise_iff_getElem.1 (RomCode.pairwise_ascending codes) _ _ h0 hj hpos)
  | succ i =>
    have hi : i < (ascending codes).length := by
      have := (List.getElem?_eq_some_iff.1 h).1
      omega
    have hc := List.getElem?_eq_getElem hi
    rw [milestone_succ hc]
    exact walkEnds_reported ((RomCode.next?_getElem? hc).trans h)

theorem finished_milestone (h : i ≤ (ascending codes).length) :
    (milestone codes i).finished = true ↔ codes ≠ [] ∧ i = (ascending codes).length := by
  cases i with
  | zero =>
    rw [← RomCode.length_ascending_pos]
    constructor
    · nofun
    · omega
  | succ i =>
    have hc := List.getElem?_eq_getElem h
    rw [milestone_succ hc, reported, Option.isNone_iff_eq_none, RomCode.next?_getElem? hc,
      List.getElem?_eq_none_iff, ← RomCode.length_ascending_pos]
    omega

theorem unfinished_milestone (h : i < (ascending codes).length) :
    (milestone codes i).finished = false := by
  rw [← Bool.not_eq_true, finished_milestone (Nat.le_of_lt h)]
  exact fun he => Nat.ne_of_lt h he.2

/-- What a call gives once `i` codes have been reported. -/
def answer (codes : List RomCode) (i : Nat) : Except Refusal RomCode :=
  match (ascending codes)[i]? with
  | some r => given r
  | none => .error (if codes = [] then .noResponse else .exhausted)

/-- The milestone that the call leads to. -/
def onward (codes : List RomCode) (i : Nat) : Nat :=
  match answer codes i with
  | .ok _ => i + 1
  | .error _ => i

section Run
open PulseLine

variable {sch : Schedule} {line : PulseLine}

/-- The call was cut short by the attempt that was to fail, and the search is in its place. -/
structure CutShort (line : PulseLine) (s : Search)
    (o : Outcome PulseLine Search (Except (BusError LineFault) RomCode)) : Prop where
  result : o.result = .error (.failed .injected)
  struck : Struck line o.line
  place : SamePlace s o.kept

theorem run_pass_pulses (timer : Timer) (h : sch.Legible) (hl : line.Reachable codes)
    (hf : line.shorted = false) (s : Search) :
    let o := (pass s).run (master timer sch).slots line
    let o' := (pass s).run (SlotLine.slots (ε := LineFault) sch.inTime) line.settled
    Leads line o.line ∧ o.kept = o'.kept ∧ o.result = o'.result ∨ CutShort line s o := by
  intro o o'
  -- a pass begins with a reset, which needs no free line
  have hr : RefinesOrStruck line o o' :=
    run_reset_refines timer h hl.sound hf s fun _ _ hfree => run_refines timer h hfree _
  rcases hr with ⟨hlead, hr⟩ | ⟨hresult, hstruck⟩
  · exact .inl ⟨hlead, hr.kept, hr.result⟩
  · refine .inr ⟨hresult, hstruck, ?_⟩
    rcases (ends_pass s).run (master timer sch).slots line with ⟨c, hc, -⟩ | ⟨-, hplace⟩
    · exact absurd (hc.symm.trans hresult) nofun
    · exact hplace

theorem run_pass_of_walkEnds (timer : Timer) (h : sch.Readable) (hl : line.Reachable codes)
    (hf : line.shorted = false) (hw : WalkEnds s.choice codes r) :
    let o := (pass s).run (master timer sch).slots line
    (Leads line o.line ∧ o.result = (given r).mapError .refused ∧
      o.kept = if r.Acceptable then reported codes r else s.marked codes r) ∨
      CutShort line s o := by
  have hcodes : line.settled.devices.map (·.code) = codes :=
    (codes_settled line).trans hl.codes_eq
  rw [← hcodes] at hw
  have hrun := run_pass (ε := LineFault) hw
  rw [hcodes] at hrun
  apply (run_pass_pulses timer h.toLegible hl hf s).imp_left
  rintro ⟨hlead, hkept, hresult⟩
  rw [h.inTime_eq, hrun] at hkept hresult
  exact ⟨hlead, hresult, hkept⟩

theorem run_pass_of_nil (timer : Timer) (h : sch.Legible) (hl : line.Reachable [])
    (hf : line.shorted = false) (s : Search) :
    let o := (pass s).run (master timer sch).slots line
    (Leads line o.line ∧ o.result = .error (.refused .noResponse) ∧ o.kept = s) ∨
      CutShort line s o := by
  have hempty : line.settled.devices.isEmpty := by
    rw [List.isEmpty_iff, ← List.map_eq_nil_iff (f := (·.code))]
    exact (codes_settled line).trans hl.codes_eq
  apply (run_pass_pulses timer h hl hf s).imp_left
  rintro ⟨hlead, hkept, hresult⟩
  rw [run_pass_of_isEmpty s hempty] at hkept hresult
  exact ⟨hlead, hresult, hkept⟩

structure Answers (codes : List RomCode) (i : Nat) (s : Search)
    (o : Outcome PulseLine Search (Except (BusError LineFault) RomCode)) : Prop where
  result : o.result = (answer codes i).mapError .refused
  place : SamePlace (milestone codes (onward codes i)) o.kept
  exact : (∀ c ∈ codes, c.Acceptable) → s = milestone codes i →
    o.kept = milestone codes (onward codes i)

theorem run_next_of_some (timer : Timer) (h : sch.Readable) (hl : line.Reachable codes)
    (hf : line.shorted = false) (hr : (ascending codes)[i]? = some r)
    (hs : SamePlace (milestone codes i) s) :
    let o := (next s).run (master timer sch).slots line
    Leads line o.line ∧ Answers codes i s o ∨ s.finished = false ∧ CutShort line s o := by
  have hlt := (List.getElem?_eq_some_iff.1 hr).1
  have hunf : s.finished = false := hs.finished.trans (unfinished_milestone hlt)
  have hw : WalkEnds s.choice codes r := by
    rw [hs.choice]
    exact walkEnds_milestone hr
  have ha : answer codes i = given r := by simp only [answer, hr]
  rw [next_of_unfinished hunf]
  rcases run_pass_of_walkEnds timer h hl hf hw with ⟨hlead, hresult, hkept⟩ | hcut
  · refine .inl ⟨hlead, ⟨by rw [ha, hresult], ?_, ?_⟩⟩
    · rw [hkept, onward, ha, given]
      by_cases hok : r.Acceptable
      · simp only [hok, ↓reduceIte, milestone_succ hr]
        exact .refl _
      · simp only [hok, ↓reduceIte]
        exact hs.trans (samePlace_marked s codes r)
    · intro hall _
      have hok := hall r (RomCode.mem_ascending.1 (List.mem_of_getElem? hr))
      simp only [hkept, onward, ha, given, hok, ↓reduceIte, milestone_succ hr]
  · exact .inr ⟨hunf, hcut⟩

theorem run_next_of_none (timer : Timer) (h : sch.Legible) (hl : line.Reachable codes)
    (hf : line.shorted = false) (hi : i = (ascending codes).length)
    (hs : SamePlace (milestone codes i) s) :
    let o := (next s).run (master timer sch).slots line
    Leads line o.line ∧ Answers codes i s o ∨ s.finished = false ∧ CutShort line s o := by
  have hr : (ascending codes)[i]? = none := List.getElem?_eq_none_iff.2 (by omega)
  have ho : onward codes i = i := by simp only [onward, answer, hr]
  have hfin : s.finished = true ↔ codes ≠ [] ∧ i = (ascending codes).length := by
    rw [hs.finished, finished_milestone (by omega)]
  by_cases hc : codes = []
  · have ha : answer codes i = .error .noResponse := by simp only [answer, hr, if_pos hc]
    have hunf : s.finished = false := by
      rw [← Bool.not_eq_true, hfin]
      exact fun h => h.1 hc
    subst hc
    rw [next_of_unfinished hunf]
    rcases run_pass_of_nil timer h hl hf s with ⟨hlead, hresult, hkept⟩ | hcut
    · refine .inl ⟨hlead, ⟨?_, by rwa [hkept, ho], ?_⟩⟩
      · rw [ha, hresult]
        rfl
      · intro _ he
        rw [hkept, ho, he]
    · exact .inr ⟨hunf, hcut⟩
  · have ha : answer codes i = .error .exhausted := by simp only [answer, hr, if_neg hc]
    rw [next_of_finished (hfin.2 ⟨hc, hi⟩)]
    refine .inl ⟨.refl line, ⟨?_, by rwa [ho], ?_⟩⟩
    · rw [ha]
      rfl
    · intro _ he
      rw [ho]
      exact he

theorem run_next (timer : Timer) (h : sch.Readable) (hl : line.Reachable codes)
    (hf : line.shorted = false) (hi : i ≤ (ascending codes).length)
    (hs : SamePlace (milestone codes i) s) :
    let o := (next s).run (master timer sch).slots line
    Leads line o.line ∧ Answers codes i s o ∨ s.finished = false ∧ CutShort line s o := by
  rcases Nat.lt_or_eq_of_le hi with hlt | heq
  · exact run_next_of_some timer h hl hf (List.getElem?_eq_getElem hlt) hs
  · exact run_next_of_none timer h.toLegible hl hf heq hs

end Run

/-- The codes that a new search reports. -/
def reportable (codes : List RomCode) : List RomCode :=
  (ascending codes).takeWhile (·.Acceptable)

/-- The error that a new search comes to and stays with. -/
def ending (codes : List RomCode) : Refusal :=
  match (ascending codes).find? (¬ ·.Acceptable) with
  | some r => r.defect
  | none => if codes = [] then .noResponse else .exhausted

theorem length_reportable_le (codes : List RomCode) :
    (reportable codes).length ≤ (ascending codes).length :=
  (List.takeWhile_prefix _).length_le

theorem reportable_eq_iff :
    reportable codes = ascending codes ↔ ∀ c ∈ codes, c.Acceptable := by
  simp [reportable, List.takeWhile_eq_self_iff]

theorem ending_of_acceptable (hne : codes ≠ []) (hall : ∀ c ∈ codes, c.Acceptable) :
    ending codes = .exhausted := by
  have hnone : (ascending codes).find? (¬ ·.Acceptable) = none := by
    simpa [List.find?_eq_none] using hall
  simp only [ending, hnone, if_neg hne]

theorem length_reportable_eq_iff :
    (reportable codes).length = (ascending codes).length ↔ ∀ c ∈ codes, c.Acceptable := by
  rw [← reportable_eq_iff]
  constructor
  · exact (List.takeWhile_prefix _).eq_of_length
  · exact congrArg List.length

theorem answer_of_reportable (h : (reportable codes)[i]? = some r) :
    answer codes i = .ok r := by
  obtain ⟨hi, rfl⟩ := List.getElem?_eq_some_iff.1 h
  have hp : reportable codes <+: ascending codes := List.takeWhile_prefix _
  have hgood : ((reportable codes)[i]).Acceptable := by
    simpa using List.mem_takeWhile_imp (List.getElem_mem hi)
  have hr : (ascending codes)[i]? = some (reportable codes)[i] := by
    rw [List.getElem?_eq_getElem (by have := hp.length_le; omega), hp.getElem hi]
  simp only [answer, hr, given, if_pos hgood]

theorem answer_of_acceptable (hall : ∀ c ∈ codes, c.Acceptable)
    (h : (ascending codes)[i]? = some r) : answer codes i = .ok r := by
  rw [← reportable_eq_iff.2 hall] at h
  exact answer_of_reportable h

theorem answer_length_reportable (codes : List RomCode) :
    answer codes (reportable codes).length = .error (ending codes) := by
  have hsplit : reportable codes ++ (ascending codes).dropWhile (·.Acceptable) = ascending codes :=
    List.takeWhile_append_dropWhile
  have hr : (ascending codes)[(reportable codes).length]? =
      (ascending codes).find? (¬ ·.Acceptable) := by
    conv_lhs => rw [← hsplit, List.getElem?_append_right (Nat.le_refl _), Nat.sub_self]
    rw [← List.head?_eq_getElem?, List.find?_eq_head?_dropWhile_not]
    simp
  rw [answer, ending, hr]
  cases hf : (ascending codes).find? (¬ ·.Acceptable) with
  | none => rfl
  | some r =>
    have hbad : ¬ r.Acceptable := by simpa using List.find?_some hf
    simp only [given, if_neg hbad]

def expected {ε : Type} (codes : List RomCode) (i n : Nat) :
    List (Except (BusError ε) RomCode) :=
  (((reportable codes).drop i).take n).map .ok ++
    List.replicate (n - ((reportable codes).length - i)) (.error (.refused (ending codes)))

theorem onward_le (h : i ≤ (reportable codes).length) :
    onward codes i ≤ (reportable codes).length := by
  rcases Nat.lt_or_eq_of_le h with hlt | rfl
  · simp only [onward, answer_of_reportable (List.getElem?_eq_getElem hlt)]
    exact hlt
  · simp only [onward, answer_length_reportable]
    exact h

theorem min_onward (h : i ≤ (reportable codes).length) (n : Nat) :
    min (onward codes i + n) (reportable codes).length =
      min (i + (n + 1)) (reportable codes).length := by
  rcases Nat.lt_or_eq_of_le h with hlt | rfl
  · simp only [onward, answer_of_reportable (List.getElem?_eq_getElem hlt)]
    omega
  · simp only [onward, answer_length_reportable]
    omega

theorem expected_succ {ε : Type} (h : i ≤ (reportable codes).length) (n : Nat) :
    expected (ε := ε) codes i (n + 1) =
      (answer codes i).mapError .refused :: expected codes (onward codes i) n := by
  unfold expected
  rcases Nat.lt_or_eq_of_le h with hlt | rfl
  · -- one code fewer is left, so the error comes as often as before
    have ha := answer_of_reportable (List.getElem?_eq_getElem hlt)
    have hcount : n - ((reportable codes).length - (i + 1)) =
        n + 1 - ((reportable codes).length - i) := by omega
    simp only [onward, ha]
    rw [List.drop_eq_getElem_cons hlt, List.take_succ_cons, List.map_cons, List.cons_append, hcount]
    rfl
  · simp only [onward, answer_length_reportable, List.drop_length, List.take_nil, List.map_nil,
      List.nil_append, Nat.sub_self, Nat.sub_zero]
    rfl

def calls {L ε : Type} (slots : Slots L ε) :
    Nat → Search → L → Outcome L Search (List (Except (BusError ε) RomCode))
  | 0, s, line => ⟨line, s, [], []⟩
  | n + 1, s, line =>
    let first := (next s).run slots line
    let rest := calls slots n first.kept first.line
    ⟨rest.line, rest.kept, first.log ++ rest.log, first.result :: rest.result⟩

section Calls
open PulseLine

variable {sch : Schedule} {line : PulseLine}

theorem calls_of_milestone (timer : Timer) (h : sch.Readable) (n : Nat)
    (hl : line.Reachable codes) (hf : line.shorted = false) (hn : line.Faultless)
    (hi : i ≤ (reportable codes).length) (hs : SamePlace (milestone codes i) s) :
    let o := calls (master timer sch).slots n s line
    let last := min (i + n) (reportable codes).length
    o.result = expected codes i n ∧ SamePlace (milestone codes last) o.kept ∧
      ((∀ c ∈ codes, c.Acceptable) → s = milestone codes i → o.kept = milestone codes last) := by
  induction n generalizing i s line with
  | zero =>
    intro o last
    have hlast : last = i := Nat.min_eq_left hi
    rw [hlast]
    exact ⟨by simp [o, calls, expected], hs, fun _ he => he⟩
  | succ n ih =>
    intro o last
    have hle := hi.trans (length_reportable_le codes)
    rcases run_next timer h hl hf hle hs with ⟨hlead, ⟨hresult, hplace, hexact⟩⟩ | ⟨-, hcut⟩
    · -- the first call leads to the milestone from which the others go on
      obtain ⟨hresults, hplace', hexact'⟩ := ih (hl.run timer sch (next s))
        (hlead.shorted.trans hf) (hlead.faultless hn) (onward_le hi) hplace
      rw [min_onward hi] at hplace' hexact'
      refine ⟨?_, hplace', fun hall he => hexact' hall (hexact hall he)⟩
      rw [expected_succ hi, ← hresult, ← hresults]
      rfl
    · exact absurd hcut.struck hn.not_struck

/-- A new search reports the codes in ascending order, up to the first that it cannot accept. After
that it repeats one error: what is wrong with that code, or that all have been reported, or that
there are no devices. Once it is finished it leaves the line alone. -/
theorem calls_new (timer : Timer) (h : sch.Readable) (hl : line.Reachable codes)
    (hf : line.shorted = false) (hn : line.Faultless) (n : Nat) :
    let o := calls (master timer sch).slots n {} line
    o.result = ((reportable codes).take n).map .ok ++
        List.replicate (n - (reportable codes).length) (.error (.refused (ending codes))) ∧
      (o.kept.finished = true ↔
        codes ≠ [] ∧ (∀ c ∈ codes, c.Acceptable) ∧ (ascending codes).length ≤ n) ∧
      (o.kept.finished = true → ∀ later : PulseLine,
        (next o.kept).run (master timer sch).slots later =
          ⟨later, o.kept, [], .error (.refused .exhausted)⟩) := by
  intro o
  obtain ⟨hresult, hplace, -⟩ := calls_of_milestone (i := 0) timer h n hl hf hn
    (Nat.zero_le _) (.refl {})
  have hle := length_reportable_le codes
  refine ⟨hresult, ?_, ?_⟩
  · rw [hplace.finished, finished_milestone (by omega), ← length_reportable_eq_iff]
    apply and_congr_right
    intro _
    omega
  · intro hfin later
    rw [next_of_finished hfin]
    rfl

theorem calls_new_standard : Schedule.standard.Readable ∧
    (calls (master .plain .standard).slots 3 {} (.ofCodes
      [.make 0x28 #v[1, 2, 3, 4, 5, 6], .make 0x10 #v[1, 2, 3, 4, 5, 6]])).result =
      [.ok (.make 0x10 #v[1, 2, 3, 4, 5, 6]), .ok (.make 0x28 #v[1, 2, 3, 4, 5, 6]),
        .error (.refused .exhausted)] := by
  refine ⟨Schedule.readable_standard, ?_⟩
  rw [(calls_new .plain Schedule.readable_standard .new rfl nofun 3).1]
  decide +kernel

/-- The first pass of an unfinished search ends at one of the codes, and leaves the search as if it
had reported those before it too. -/
theorem exists_milestone (timer : Timer) (h : sch.Readable) (hl : line.Reachable codes)
    (hf : line.shorted = false) (hn : line.Faultless) (hne : codes ≠ [])
    (hall : ∀ c ∈ codes, c.Acceptable) (hs : s.finished = false) :
    ∃ (i : Nat) (r : RomCode), (ascending codes)[i]? = some r ∧
      let o := (next s).run (master timer sch).slots line
      Leads line o.line ∧ o.result = .ok r ∧ o.kept = milestone codes (i + 1) := by
  obtain ⟨r, hw⟩ := RomCode.exists_walkEnds s.choice hne
  obtain ⟨i, hi⟩ := List.mem_iff_getElem?.1 (RomCode.mem_ascending.2 hw.mem)
  have hok := hall r hw.mem
  refine ⟨i, r, hi, ?_⟩
  rw [next_of_unfinished hs, milestone_succ hi]
  rcases run_pass_of_walkEnds timer h hl hf hw with ⟨hlead, hresult, hkept⟩ | hcut
  · rw [if_pos hok] at hkept
    rw [given, if_pos hok] at hresult
    exact ⟨hlead, hresult, hkept⟩
  · exact absurd hcut.struck hn.not_struck

theorem milestone_eq_reported (h : (ascending codes)[i]? = some r) (k : Nat) :
    ∃ c, (((ascending codes).drop i).take (k + 1)).getLast? = some c ∧
      milestone codes (min (i + 1 + k) (ascending codes).length) = reported codes c := by
  have hlen := (List.getElem?_eq_some_iff.1 h).1
  obtain ⟨m, hm⟩ : ∃ m, m = min (i + k) ((ascending codes).length - 1) := ⟨_, rfl⟩
  have hlt : m < (ascending codes).length := by omega
  have hc := List.getElem?_eq_getElem hlt
  refine ⟨(ascending codes)[m], ?_, ?_⟩
  · have hk : min (k + 1) ((ascending codes).length - i) - 1 < k + 1 := by omega
    rw [List.getLast?_eq_getElem?, List.length_take, List.length_drop, List.getElem?_take,
      if_pos hk, List.getElem?_drop, ← hc]
    congr 1
    omega
  · rw [← milestone_succ hc]
    congr 1
    omega

/-- Whatever an unfinished search holds, its first pass brings it to one of the codes, and from
there it reports those above in ascending order. After each code its state depends only on that
code and the others on the line. -/
theorem calls_of_unfinished (timer : Timer) (h : sch.Readable) (hl : line.Reachable codes)
    (hf : line.shorted = false) (hn : line.Faultless) (hne : codes ≠ [])
    (hall : ∀ c ∈ codes, c.Acceptable) (hs : s.finished = false) :
    ∃ r ∈ codes, ∀ k,
      let above := (ascending codes).filter (r.Before ·)
      let o := calls (master timer sch).slots (k + 1) s line
      o.result = ((r :: above).take (k + 1)).map .ok ++
          List.replicate (k - above.length) (.error (.refused .exhausted)) ∧
        (∃ c, ((r :: above).take (k + 1)).getLast? = some c ∧ o.kept = reported codes c) ∧
        (r :: above).length ≤ (ascending codes).length := by
  obtain ⟨i, r, hi, hlead, hresult, hkept⟩ := exists_milestone timer h hl hf hn hne hall hs
  refine ⟨r, RomCode.mem_ascending.1 (List.mem_of_getElem? hi), ?_⟩
  intro k above o
  have hlen := (List.getElem?_eq_some_iff.1 hi).1
  have hgood := reportable_eq_iff.2 hall
  have habove : above = (ascending codes).drop (i + 1) := RomCode.filter_before_ascending hi
  have hcons : r :: above = (ascending codes).drop i := by
    rw [habove, ← List.getElem_cons_drop hlen, (List.getElem?_eq_some_iff.1 hi).2]
  have hplace : SamePlace (milestone codes (i + 1))
      ((next s).run (master timer sch).slots line).kept := by
    rw [hkept]
    exact .refl _
  obtain ⟨hresults, -, hexact⟩ := calls_of_milestone timer h k (hl.run timer sch (next s))
    (hlead.shorted.trans hf) (hlead.faultless hn) (by rw [hgood]; exact hlen) hplace
  have hlast := hexact hall hkept
  rw [hgood] at hlast
  rw [expected, hgood, ending_of_acceptable hne hall, ← habove] at hresults
  refine ⟨?_, ?_, by rw [hcons]; simp⟩
  · rw [List.take_succ_cons, List.map_cons, List.cons_append, habove, List.length_drop, ← habove,
      ← hresults]
    exact congrArg (· :: _) hresult
  · obtain ⟨c, hc, hm⟩ := milestone_eq_reported hi k
    rw [← hcons] at hc
    exact ⟨c, hc, hlast.trans hm⟩

/-- What a search carries over from another line is forgotten in one pass. -/
theorem calls_of_unfinished_standard : Schedule.standard.Readable ∧
    (calls (master .plain .standard).slots 2
      { deepestLow := some 9, branch := some 70, lowBranches := 3, lastCode := .ofWord 5 }
      (.ofCodes [.make 0x28 #v[1, 2, 3, 4, 5, 6]])).result =
      [.ok (.make 0x28 #v[1, 2, 3, 4, 5, 6]), .error (.refused .exhausted)] := by
  have hall : ∀ c ∈ [RomCode.make 0x28 #v[1, 2, 3, 4, 5, 6]], c.Acceptable := by decide +kernel
  obtain ⟨r, hr, hcalls⟩ := calls_of_unfinished .plain Schedule.readable_standard .new rfl nofun
    (by simp) hall
    (s := { deepestLow := some 9, branch := some 70, lowBranches := 3, lastCode := .ofWord 5 }) rfl
  obtain rfl := List.mem_singleton.1 hr
  refine ⟨Schedule.readable_standard, ?_⟩
  rw [(hcalls 1).1]
  decide +kernel

end Calls

end OneWire.Search
