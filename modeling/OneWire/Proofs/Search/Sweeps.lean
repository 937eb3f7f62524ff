import OneWire.Proofs.Exchange.FirstFailure
import OneWire.Proofs.Search.Family
import OneWire.Proofs.Search.Heard

namespace OneWire

namespace Search
variable {L ε : Type} {s : Search}

theorem Passes.ne_exhausted {t : Transcript} {kept : Search} {result : Except Refusal RomCode}
    (h : Passes s t kept result) : result ≠ .error .exhausted := by
  cases h with
  | absent => exact nofun
  | lost pairs kept h hl => exact nofun
  | arrived heard kept h hk =>
    rcases given_cases (s.leaf heard) with ⟨-, hg⟩ | ⟨-, -, hg⟩ | ⟨-, -, hg⟩
    · rw [hg]
      exact nofun
    · rw [hg]
      exact nofun
    · rw [hg]
      exact nofun

theorem result_pass_ne_exhausted (slots : Slots L ε) (s : Search) (line : L) :
    ((pass s).run slots line).result ≠ .error (.refused .exhausted) := by
  rw [Exchange.run_transcribed slots (pass s) ⟨line, {}⟩]
  rcases (comesTo_pass s).run slots line with ⟨fault, hfault⟩ | ⟨result, hresult, hpass⟩
  · intro he
    exact absurd (hfault.symm.trans he) nofun
  · intro he
    have hmap : (result.mapError .refused : Except (BusError ε) RomCode) =
        .error (.refused .exhausted) := hresult.symm.trans he
    cases result with
    | ok c => cases hmap
    | error reason =>
      cases hmap
      exact hpass.ne_exhausted rfl

theorem finished_of_exhausted {slots : Slots L ε} {line : L}
    (h : ((next s).run slots line).result = .error (.refused .exhausted)) : s.finished = true := by
  cases hs : s.finished with
  | true => rfl
  | false =>
    rw [next_of_unfinished hs] at h
    exact absurd h (result_pass_ne_exhausted slots s line)

/-- The results up to the first error, with it. -/
def throughError : List (Except (BusError ε) RomCode) → List (Except (BusError ε) RomCode)
  | [] => []
  | .ok c :: rest => .ok c :: throughError rest
  | .error e :: _ => [.error e]

theorem throughError_append (cs : List RomCode) (e : BusError ε)
    (rest : List (Except (BusError ε) RomCode)) :
    throughError (cs.map .ok ++ .error e :: rest) = cs.map .ok ++ [.error e] := by
  induction cs with
  | nil => rfl
  | cons c cs ih => exact congrArg (.ok c :: ·) ih

end Search

namespace Sweep
open PulseLine
open Search (calls reportable throughError)

variable {L ε : Type} {slots : Slots L ε} {s : Sweep} {line : L}

def Item.ofResult : Except (BusError ε) RomCode → Item ε
  | .error (.refused .exhausted) => none
  | result => some result

/-- Nothing more will come: an error has been reported, or all devices have. -/
def Over (s : Sweep) : Prop := s.stopped = true ∨ s.search.finished = true

theorem next_of_over (h : s.Over) (slots : Slots L ε) (line : L) :
    s.next slots line = ⟨line, s, [], none⟩ := by
  cases hs : s.stopped with
  | true => exact next_of_stopped slots hs line
  | false =>
    have hf : s.search.finished = true := h.resolve_left (by simp [hs])
    rw [next_of_running slots hs, Search.next_of_finished hf]
    rfl

theorem take_of_over (h : s.Over) (slots : Slots L ε) (n : Nat) (line : L) :
    s.take slots n line = ⟨line, s, [], List.replicate n none⟩ :=
  take_of_still (next_of_over h slots line) n

inductive Calls (slots : Slots L ε) (s : Search) (line : L) : Outcome L Sweep (Item ε) → Prop
  | found {later : L} {kept : Search} {log : List Note} {c : RomCode}
      (h : (Search.next s).run slots line = ⟨later, kept, log, .ok c⟩) :
      Calls slots s line ⟨later, ⟨kept, false⟩, log, some (.ok c)⟩
  | failed {later : L} {kept : Search} {log : List Note} {e : BusError ε}
      (h : (Search.next s).run slots line = ⟨later, kept, log, .error e⟩)
      (he : e ≠ .refused .exhausted) :
      Calls slots s line ⟨later, ⟨kept, true⟩, log, some (.error e)⟩
  | ended (h : s.finished = true) : Calls slots s line ⟨line, ⟨s, false⟩, [], none⟩

theorem calls_next (slots : Slots L ε) (s : Search) (line : L) :
    Calls slots s line (next slots ⟨s, false⟩ line) := by
  cases hs : s.finished with
  | true =>
    rw [next_of_over (.inr hs)]
    exact .ended hs
  | false =>
    have hopen : ((Search.next s).run slots line).result ≠ .error (.refused .exhausted) := by
      intro he
      rw [Search.finished_of_exhausted he] at hs
      cases hs
    rw [next_of_running slots rfl]
    generalize h : (Search.next s).run slots line = o at hopen
    obtain ⟨later, kept, log, e | c⟩ := o
    · have he : e ≠ .refused .exhausted := fun he => hopen (congrArg Except.error he)
      rw [report_of_error ⟨s, false⟩ rfl he]
      exact .failed h he
    · exact .found h

theorem Item.ofResult_error {e : BusError ε} (h : e ≠ .refused .exhausted) :
    Item.ofResult (.error e) = some (.error e) := by
  unfold ofResult
  split
  · rename_i he
    cases he
    exact absurd rfl h
  · rfl

theorem Item.ofResult_error_ne (e : BusError ε) (c : RomCode) :
    Item.ofResult (.error e) ≠ some (.ok c) := by
  unfold ofResult
  split <;> exact nofun

theorem Item.ofResult_ne_exhausted (result : Except (BusError ε) RomCode) :
    Item.ofResult result ≠ some (.error (.refused .exhausted)) := by
  unfold ofResult
  split
  · exact nofun
  · rename_i h
    intro he
    cases he
    exact h rfl

structure Follows (n : Nat) (o : Outcome L Sweep (List (Item ε)))
    (heard : List (Except (BusError ε) RomCode))
    (called : Outcome L Search (List (Except (BusError ε) RomCode))) : Prop where
  result : o.result = heard.map Item.ofResult ++ List.replicate (n - heard.length) none
  line : o.line = called.line
  search : o.kept.search = called.kept
  log : o.log = called.log

theorem take_follows (slots : Slots L ε) (s : Search) (line : L) (n : Nat) :
    let heard := throughError (calls slots n s line).result
    Follows n (take slots n ⟨s, false⟩ line) heard (calls slots heard.length s line) := by
  induction n generalizing s line with
  | zero => exact ⟨rfl, rfl, rfl, rfl⟩
  | succ n ih =>
    have hnext := calls_next slots s line
    rw [take, calls]
    generalize next slots ⟨s, false⟩ line = first at hnext
    -- after a code the sweep goes on as a new one would, and otherwise it is over
    cases hnext with
    | @found later kept log c h =>
      obtain ⟨hresult, hline, hsearch, hlog⟩ := ih kept later
      simp only [h, throughError, List.length_cons, calls]
      refine ⟨?_, hline, hsearch, congrArg (log ++ ·) hlog⟩
      simp only [List.length_cons, List.map_cons, Nat.add_sub_add_right, List.cons_append, hresult]
      rfl
    | @failed later kept log e h he =>
      have hover : (⟨kept, true⟩ : Sweep).Over := .inl rfl
      simp only [h, throughError, List.length_cons, List.length_nil, calls, take_of_over hover]
      refine ⟨?_, rfl, rfl, rfl⟩
      simp only [List.length_cons, List.length_nil, List.map_cons, List.map_nil, List.cons_append,
        List.nil_append, Item.ofResult_error he, Nat.add_sub_cancel]
    | ended h =>
      have hover : (⟨s, false⟩ : Sweep).Over := .inr h
      have hcall : (Search.next s).run slots line = ⟨line, s, [], .error (.refused .exhausted)⟩ := by
        rw [Search.next_of_finished h]
        rfl
      simp only [hcall, throughError, List.length_cons, List.length_nil, calls, take_of_over hover]
      refine ⟨?_, rfl, rfl, rfl⟩
      simp only [List.length_cons, List.length_nil, List.map_cons, List.map_nil, List.cons_append,
        List.nil_append, Nat.add_sub_cancel]
      rfl

theorem rest_of_end (slots : Slots L ε) (s : Search) (line : L) (n i : Nat) {item : Item ε}
    (h : (take slots n ⟨s, false⟩ line).result[i]? = some item) (hc : ∀ c, item ≠ some (.ok c)) :
    (take slots n ⟨s, false⟩ line).result.drop (i + 1) = List.replicate (n - (i + 1)) none ∧
      (take slots n ⟨s, false⟩ line).kept.Over := by
  induction n generalizing s line i with
  | zero => cases h
  | succ n ih =>
    have hnext := calls_next slots s line
    rw [take] at h ⊢
    generalize next slots ⟨s, false⟩ line = first at hnext h
    cases hnext with
    | @found later kept log c hcall =>
      cases i with
      | zero => exact absurd (Option.some.inj h).symm (hc c)
      | succ i =>
        rw [Nat.add_sub_add_right]
        exact ih kept later i h
    | @failed later kept log e hcall he =>
      have hover : (⟨kept, true⟩ : Sweep).Over := .inl rfl
      simp only [take_of_over hover]
      refine ⟨?_, hover⟩
      rw [List.drop_succ_cons, List.drop_replicate, Nat.add_sub_add_right]
    | ended hs =>
      have hover : (⟨s, false⟩ : Sweep).Over := .inr hs
      simp only [take_of_over hover]
      refine ⟨?_, hover⟩
      rw [List.drop_succ_cons, List.drop_replicate, Nat.add_sub_add_right]

section FirstOfFamily

/-- A caller's loop over a sweep: the first code of a family, the end, or an error. There is no
answer after `limit` codes of other families. -/
def firstOfFamily (slots : Slots L ε) (family : UInt8) :
    (limit : Nat) → Sweep → L → Outcome L Sweep (Option (Except (BusError ε) (Option RomCode)))
  | 0, s, line => ⟨line, s, [], none⟩
  | limit + 1, s, line =>
    let first := s.next slots line
    match first.result with
    | none => { first with result := some (.ok none) }
    | some (.error e) => { first with result := some (.error e) }
    | some (.ok c) =>
      if c.family = family then { first with result := some (.ok (some c)) }
      else
        let rest := firstOfFamily slots family limit first.kept first.line
        { rest with log := first.log ++ rest.log }

/-- The search for a family is the loop over a new sweep; it gives nothing where the loop runs out
of its limit. -/
theorem run_search_firstOfFamily (slots : Slots L ε) (family : UInt8) (limit : Nat) (s : Search)
    (line : L) :
    let o := firstOfFamily slots family limit ⟨s, false⟩ line
    (Search.firstOfFamily family limit s).run slots line =
      ⟨o.line, o.kept.search, o.log, o.result.getD (.ok none)⟩ := by
  induction limit generalizing s line with
  | zero => rfl
  | succ limit ih =>
    cases hs : s.finished with
    | true =>
      rw [Search.firstOfFamily_of_finished family limit hs, firstOfFamily, next_of_over (.inr hs)]
      rfl
    | false =>
      have hnext := calls_next slots s line
      rw [Search.firstOfFamily_of_unfinished family limit hs, firstOfFamily]
      generalize next slots ⟨s, false⟩ line = first at hnext
      cases hnext with
      | @found later kept log c h =>
        rw [Search.next_of_unfinished hs] at h
        rw [Exchange.run_bind_of_ok h]
        by_cases hc : c.family = family
        · simp only [if_pos hc, Exchange.run, List.append_nil]
          rfl
        · simp only [if_neg hc, ih]
      | failed h he =>
        rw [Search.next_of_unfinished hs] at h
        rw [Exchange.run_bind_of_error h]
        rfl
      | ended h => cases hs.symm.trans h

/-- The loop runs out of its limit only on a line that gave as many codes of other families. -/
theorem firstOfFamily_eq_none_iff (slots : Slots L ε) (family : UInt8) (limit : Nat) (s : Sweep)
    (line : L) : (firstOfFamily slots family limit s line).result = none ↔
      ∀ item ∈ (take slots limit s line).result, ∃ c, item = some (.ok c) ∧ c.family ≠ family := by
  induction limit generalizing s line with
  | zero => simp [firstOfFamily, take]
  | succ limit ih =>
    rw [firstOfFamily, take, List.forall_mem_cons]
    dsimp only
    generalize next slots s line = first
    obtain ⟨later, kept, log, _ | e | c⟩ := first
    · simp
    · simp
    · by_cases hc : c.family = family
      · simp [hc]
      · simp [hc, ih kept later]

/-- On a line of devices the loop ends with the call after the last code, if not before. -/
theorem firstOfFamily_ne_none {codes : List RomCode} {line : PulseLine} {sch : Schedule}
    (timer : Timer) (h : sch.Readable) (hl : line.Reachable codes) (hf : line.shorted = false)
    (hn : line.Faultless) (family : UInt8) {limit : Nat}
    (hlimit : (reportable codes).length < limit) :
    (firstOfFamily (master timer sch).slots family limit ⟨{}, false⟩ line).result ≠ none := by
  intro hnone
  have hcodes := (firstOfFamily_eq_none_iff _ family limit _ line).1 hnone
  obtain ⟨hresult, -, -⟩ := Search.calls_of_milestone (i := 0) timer h limit hl hf hn
    (Nat.zero_le _) (.refl {})
  obtain ⟨k, hk⟩ := Nat.exists_eq_add_of_lt hlimit
  have hrest : limit - ((reportable codes).length - 0) = k + 1 := by omega
  rw [Search.expected, List.drop_zero, List.take_of_length_le (Nat.le_of_lt hlimit), hrest,
    List.replicate_succ] at hresult
  -- so the items up to there end with an error, and none of them should
  have hitems := (take_follows (master timer sch).slots {} line limit).result
  rw [hresult, Search.throughError_append, List.map_append] at hitems
  have hlast : Item.ofResult (.error (.refused (Search.ending codes))) ∈
      (take (master timer sch).slots limit ⟨{}, false⟩ line).result := by
    rw [hitems]
    simp
  obtain ⟨c, hc, -⟩ := hcodes _ hlast
  exact Item.ofResult_error_ne _ c hc

theorem run_firstOfFamily {σ : Type} (slots : Slots L ε) (family : UInt8) (kept : σ) (line : L) :
    let o := firstOfFamily slots family UInt64.size ⟨{}, false⟩ line
    (Transaction.firstOfFamily family kept).run slots line =
      ⟨o.line, kept, o.log, o.result.getD (.ok none)⟩ := by
  change ((Search.firstOfFamily family UInt64.size {}).mapKept fun _ => kept).run slots line = _
  rw [Exchange.run_mapKept, run_search_firstOfFamily]

/-- There the limit has no part in what the search for a family gives: it is the answer of the
loop. -/
theorem result_firstOfFamily {codes : List RomCode} {line : PulseLine} {sch : Schedule} {σ : Type}
    (timer : Timer) (h : sch.Readable) (hl : line.Reachable codes) (hf : line.shorted = false)
    (hn : line.Faultless) (family : UInt8) (kept : σ) :
    (firstOfFamily (master timer sch).slots family UInt64.size ⟨{}, false⟩ line).result =
      some ((Transaction.firstOfFamily family kept).run (master timer sch).slots line).result := by
  rw [run_firstOfFamily]
  have hanswer := firstOfFamily_ne_none timer h hl hf hn family (Search.length_reportable_lt codes)
  obtain ⟨answer, ha⟩ := Option.ne_none_iff_exists'.1 hanswer
  rw [ha, Option.getD_some]

end FirstOfFamily

/-- However often a sweep is asked, and whatever the line does, it gives what the calls of its
search give, up to the first error, and leaves what these leave. It never says that the search is
exhausted: it gives nothing there. What follows an error or the end is nothing again, for ever, and
neither the search nor any line notices, so no slot is begun. -/
theorem follows_calls (slots : Slots L ε) (s : Search) (line : L) (n : Nat) :
    let o := take slots n ⟨s, false⟩ line
    let heard := throughError (calls slots n s line).result
    let called := calls slots heard.length s line
    (o.result = heard.map Item.ofResult ++ List.replicate (n - heard.length) none ∧
      o.line = called.line ∧ o.kept.search = called.kept ∧ o.log = called.log) ∧
    some (.error (.refused .exhausted)) ∉ o.result ∧
    ∀ i item, o.result[i]? = some item → (∀ c, item ≠ some (.ok c)) →
      o.result.drop (i + 1) = List.replicate (n - (i + 1)) none ∧
      ∀ (later : Slots L ε) (place : L) (m : Nat),
        take later m o.kept place = ⟨place, o.kept, [], List.replicate m none⟩ := by
  intro o heard called
  have hfollows : Follows n o heard called := take_follows slots s line n
  refine ⟨⟨hfollows.result, hfollows.line, hfollows.search, hfollows.log⟩, ?_, ?_⟩
  · rw [hfollows.result, List.mem_append, List.mem_map]
    rintro (⟨result, -, hr⟩ | hr)
    · exact Item.ofResult_ne_exhausted result hr
    · cases List.eq_of_mem_replicate hr
  · intro i item hi hc
    obtain ⟨hrest, hover⟩ := rest_of_end slots s line n i hi hc
    exact ⟨hrest, fun later place m => take_of_over hover later m place⟩

end Sweep

end OneWire
