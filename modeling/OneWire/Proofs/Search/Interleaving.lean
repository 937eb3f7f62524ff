import Mathlib.Logic.Function.Basic
import OneWire.Proofs.Search.Enumeration

namespace OneWire

structure Bench (ι : Type) where
  line : PulseLine
  search : ι → Search

namespace Bench
open PulseLine Search
open RomCode (ascending)

/-- What can happen between two calls of a search, and the calls. -/
inductive Event (ι : Type) : Type 1 where
  | next (i : ι) (timer : Timer) (schedule : Schedule)
  | run {σ α : Type} (timer : Timer) (schedule : Schedule) (t : Transaction σ α) (kept : σ)
  | failOn (number : Nat)
  | settle

structure Report (ι : Type) where
  caller : ι
  result : Except (BusError LineFault) RomCode
  /-- The attempt that was to fail came during the call. -/
  struck : Bool

variable {ι : Type}

section Step
variable [DecidableEq ι]

def step (b : Bench ι) : Event ι → Bench ι × List (Report ι)
  | .next i timer schedule =>
    let o := (Master.mk (adapter timer) schedule).run Search.next (b.search i) b.line
    (⟨o.line, Function.update b.search i o.kept⟩, [⟨i, o.result, b.line.struckBetween o.line⟩])
  | .run timer schedule t kept =>
    ({ b with line := ((Master.mk (adapter timer) schedule).run t kept b.line).line }, [])
  | .failOn number => ({ b with line := b.line.failOn number }, [])
  | .settle => ({ b with line := b.line.settle }, [])

def reports (b : Bench ι) : List (Event ι) → List (Report ι)
  | [] => []
  | e :: rest => (b.step e).2 ++ (b.step e).1.reports rest

end Step

def Event.caller? : Event ι → Option ι
  | .next i _ _ => some i
  | _ => none

def Event.Readable : Event ι → Prop
  | .next _ _ schedule => schedule.Readable
  | _ => True

/-- The reports of one search that has `rest` still to find. Every call finds the first of them or
is struck by a fault; when none is left every call says so. -/
inductive Follows : List RomCode → List (Report ι) → Prop
  | nil {rest : List RomCode} : Follows rest []
  | found {r : RomCode} {rest : List RomCode} {report : Report ι} {later : List (Report ι)}
      (hr : report.result = .ok r) (h : Follows rest later) : Follows (r :: rest) (report :: later)
  | struck {r : RomCode} {rest : List RomCode} {report : Report ι} {later : List (Report ι)}
      (hr : report.result = .error (.failed .injected)) (hs : report.struck = true)
      (h : Follows (r :: rest) later) : Follows (r :: rest) (report :: later)
  | exhausted {report : Report ι} {later : List (Report ι)}
      (hr : report.result = .error (.refused .exhausted)) (h : Follows [] later) :
      Follows [] (report :: later)

theorem Follows.found_prefix {rest : List RomCode} {reports : List (Report ι)}
    (h : Follows rest reports) : reports.filterMap (·.result.toOption) <+: rest := by
  induction h with
  | nil => exact List.nil_prefix
  | found hr _ ih => simpa [hr, Except.toOption] using ih
  | struck hr _ _ ih => simpa [hr, Except.toOption] using ih
  | exhausted hr _ ih => simpa [hr, Except.toOption] using ih

variable {codes : List RomCode} {b : Bench ι} {place : ι → Nat}

/-- Every search stands at a milestone, on a line that may be in any state. -/
structure Stands (codes : List RomCode) (place : ι → Nat) (b : Bench ι) : Prop where
  reachable : b.line.Reachable codes
  shorted : b.line.shorted = false
  place_le : ∀ i, place i ≤ (ascending codes).length
  samePlace : ∀ i, SamePlace (milestone codes (place i)) (b.search i)

theorem Stands.of_line (hb : b.Stands codes place) {line : PulseLine}
    (hl : line.Reachable codes) (hf : line.shorted = b.line.shorted) :
    Stands codes place { b with line } :=
  ⟨hl, hf.trans hb.shorted, hb.place_le, hb.samePlace⟩

variable [DecidableEq ι]

theorem Stands.update (hb : b.Stands codes place) {i : ι} {n : Nat} {line : PulseLine} {s : Search}
    (hl : line.Reachable codes) (hf : line.shorted = b.line.shorted)
    (hn : n ≤ (ascending codes).length) (hs : SamePlace (milestone codes n) s) :
    Stands codes (Function.update place i n) ⟨line, Function.update b.search i s⟩ := by
  refine ⟨hl, hf.trans hb.shorted, fun j => ?_, fun j => ?_⟩
  · by_cases hj : j = i
    · subst hj
      rwa [Function.update_self]
    · rw [Function.update_of_ne hj]
      exact hb.place_le j
  · by_cases hj : j = i
    · subst hj
      simpa using hs
    · simpa [hj] using hb.samePlace j

theorem follows_update {i : ι} {n : Nat} {result : Except (BusError LineFault) RomCode}
    {struck : Bool}
    (h : ∀ later, Follows ((ascending codes).drop n) later →
      Follows ((ascending codes).drop (place i)) (⟨i, result, struck⟩ :: later))
    (j : ι) (later : List (Report ι))
    (hj : Follows ((ascending codes).drop (Function.update place i n j)) later) :
    Follows ((ascending codes).drop (place j))
      ([(⟨i, result, struck⟩ : Report ι)].filter (·.caller = j) ++ later) := by
  by_cases hij : i = j
  · subst hij
    rw [Function.update_self] at hj
    simpa using h later hj
  · rw [Function.update_of_ne (Ne.symm hij)] at hj
    simpa [hij] using hj

omit [DecidableEq ι] in
theorem follows_next {sch : Schedule} {line : PulseLine} {s : Search} {n : Nat} (timer : Timer)
    (h : sch.Readable) (hall : ∀ c ∈ codes, c.Acceptable) (hne : codes ≠ [])
    (hl : line.Reachable codes) (hf : line.shorted = false)
    (hn : n ≤ (ascending codes).length) (hs : SamePlace (milestone codes n) s) (i : ι) :
    let o := (Search.next s).run (master timer sch).slots line
    ∃ m ≤ (ascending codes).length, SamePlace (milestone codes m) o.kept ∧
      ∀ later, Follows ((ascending codes).drop m) later →
        Follows ((ascending codes).drop n)
          ((⟨i, o.result, line.struckBetween o.line⟩ : Report ι) :: later) := by
  intro o
  rcases run_next timer h hl hf hn hs with
    ⟨-, ⟨hresult, hplace, -⟩⟩ | ⟨hunf, hcut⟩
  · cases hr : (ascending codes)[n]? with
    | some r =>
      -- the call took the first code that was left
      obtain ⟨hlt, hget⟩ := List.getElem?_eq_some_iff.1 hr
      have ha := answer_of_acceptable hall hr
      have ho : onward codes n = n + 1 := by simp only [onward, ha]
      rw [ho] at hplace
      rw [ha] at hresult
      refine ⟨n + 1, hlt, hplace, ?_⟩
      intro later hlater
      rw [List.drop_eq_getElem_cons hlt, hget]
      exact .found hresult hlater
    | none =>
      have hdrop := List.drop_eq_nil_of_le (List.getElem?_eq_none_iff.1 hr)
      have ha : answer codes n = .error .exhausted := by simp only [answer, hr, if_neg hne]
      have ho : onward codes n = n := by simp only [onward, ha]
      rw [ho] at hplace
      rw [ha] at hresult
      refine ⟨n, hn, hplace, ?_⟩
      intro later hlater
      rw [hdrop] at hlater ⊢
      exact .exhausted hresult hlater
  · -- only an unfinished search touches the line, so a code is left and stays
    have hlt : n < (ascending codes).length := by
      apply Nat.lt_of_le_of_ne hn
      intro heq
      rw [hs.finished, ← Bool.not_eq_true, finished_milestone hn] at hunf
      exact hunf ⟨hne, heq⟩
    refine ⟨n, hn, hs.trans hcut.place, ?_⟩
    intro later hlater
    rw [List.drop_eq_getElem_cons hlt] at hlater ⊢
    exact .struck hcut.result hcut.struck.struckBetween hlater

theorem Stands.step (hall : ∀ c ∈ codes, c.Acceptable) (hne : codes ≠ [])
    (hb : b.Stands codes place) {e : Event ι} (he : e.Readable) :
    ∃ place', (b.step e).1.Stands codes place' ∧ ∀ i later,
      Follows ((ascending codes).drop (place' i)) later →
        Follows ((ascending codes).drop (place i))
          ((b.step e).2.filter (·.caller = i) ++ later) := by
  cases e with
  | next i timer schedule =>
    obtain ⟨m, hm, hplace, hfollows⟩ := follows_next timer he hall hne hb.reachable
      hb.shorted (hb.place_le i) (hb.samePlace i) i
    refine ⟨_, hb.update ?_ ?_ hm hplace, follows_update hfollows⟩
    · exact hb.reachable.run timer schedule (Search.next (b.search i))
    · exact (leads_run timer schedule (Search.next (b.search i)) b.line).shorted
  | run timer schedule t kept =>
    refine ⟨place, hb.of_line (hb.reachable.run timer schedule (t kept)) ?_, fun _ _ h => h⟩
    exact (leads_run timer schedule (t kept) b.line).shorted
  | failOn number => exact ⟨place, hb.of_line (hb.reachable.failOn number) rfl, fun _ _ h => h⟩
  | settle =>
    exact ⟨place, hb.of_line hb.reachable.settle (leads_settle b.line).shorted, fun _ _ h => h⟩

theorem Stands.follows (hall : ∀ c ∈ codes, c.Acceptable) (hne : codes ≠ [])
    (hb : b.Stands codes place) {events : List (Event ι)} (he : ∀ e ∈ events, e.Readable) (i : ι) :
    Follows ((ascending codes).drop (place i)) ((b.reports events).filter (·.caller = i)) := by
  induction events generalizing b place with
  | nil => exact .nil
  | cons e rest ih =>
    obtain ⟨place', hb', hfollows⟩ := hb.step hall hne (he e List.mem_cons_self)
    rw [reports, List.filter_append]
    exact hfollows i _ (ih hb' fun e' he' => he e' (List.mem_cons_of_mem e he'))

theorem map_caller_reports (b : Bench ι) (events : List (Event ι)) :
    (b.reports events).map (·.caller) = events.filterMap Event.caller? := by
  induction events generalizing b with
  | nil => rfl
  | cons e rest ih =>
    rw [reports, List.map_append, ih]
    cases e <;> rfl

/-- However calls, other transactions and faults follow each other, every search finds each code
once and in ascending order: every call has its report, and a fault costs a search a call and no
code. -/
theorem follows_reports (hall : ∀ c ∈ codes, c.Acceptable) (hne : codes ≠ [])
    {line : PulseLine} (hl : line.Reachable codes) (hf : line.shorted = false)
    (events : List (Event ι)) (he : ∀ e ∈ events, e.Readable) (i : ι) :
    let made := reports ⟨line, fun _ => {}⟩ events
    let found := made.filter (·.caller = i)
    made.map (·.caller) = events.filterMap Event.caller? ∧
      Follows (ascending codes) found ∧
      found.filterMap (·.result.toOption) <+: ascending codes := by
  intro made found
  have hb : Stands codes (fun _ : ι => 0) ⟨line, fun _ => {}⟩ :=
    ⟨hl, hf, fun _ => Nat.zero_le _, fun _ => .refl {}⟩
  have h := hb.follows hall hne he i
  exact ⟨map_caller_reports _ events, h, h.found_prefix⟩

/-- Two searches and a reader of codes take turns; the second pass of the first one is struck. -/
theorem follows_reports_standard :
    (∀ c ∈ [RomCode.make 0x28 #v[1, 2, 3, 4, 5, 6], .make 0x10 #v[1, 2, 3, 4, 5, 6]],
      c.Acceptable) ∧ Schedule.standard.Readable ∧
    Follows [.make 0x10 #v[1, 2, 3, 4, 5, 6], .make 0x28 #v[1, 2, 3, 4, 5, 6]]
      ((reports (ι := Bool) ⟨.ofCodes [.make 0x28 #v[1, 2, 3, 4, 5, 6],
          .make 0x10 #v[1, 2, 3, 4, 5, 6]], fun _ => {}⟩
        [.next true .plain .standard, .next false .counted .standard,
          .run .plain .standard Transaction.soleCode (), .failOn 4000,
          .next true .counted .standard, .next true .plain .standard]).filter
        (·.caller = true)) := by
  have hall : ∀ c ∈ [RomCode.make 0x28 #v[1, 2, 3, 4, 5, 6], .make 0x10 #v[1, 2, 3, 4, 5, 6]],
      c.Acceptable := by decide +kernel
  refine ⟨hall, Schedule.readable_standard, ?_⟩
  have h := (follows_reports hall (by simp) .new rfl
    ([.next true .plain .standard, .next false .counted .standard,
      .run .plain .standard Transaction.soleCode (), .failOn 4000,
      .next true .counted .standard, .next true .plain .standard] : List (Event Bool))
    (by simp [Event.Readable, Schedule.readable_standard]) true).2.1
  rwa [show ascending [RomCode.make 0x28 #v[1, 2, 3, 4, 5, 6], .make 0x10 #v[1, 2, 3, 4, 5, 6]] =
    [.make 0x10 #v[1, 2, 3, 4, 5, 6], .make 0x28 #v[1, 2, 3, 4, 5, 6]] by decide +kernel] at h

end Bench

end OneWire
