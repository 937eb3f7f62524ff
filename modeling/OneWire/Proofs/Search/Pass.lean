import OneWire.Proofs.Exchange.Ends
import OneWire.Proofs.Search.Descent

namespace OneWire

/-- The search reports this code when it comes to it. -/
def RomCode.Acceptable (c : RomCode) : Prop := c ≠ .zero ∧ c.Valid

instance (c : RomCode) : Decidable c.Acceptable := inferInstanceAs (Decidable (_ ∧ _))

def RomCode.defect (c : RomCode) : Refusal :=
  if c = .zero then .stuckLow else .checksum c.computed c.checksum

def Device.called (d : Device) : Device := d.reset.obey RomCommand.searchRom.code

theorem Device.called_eq (d : Device) : d.called = { d with
    phase := .search 0 .direct, selected := false
    commands := d.commands.push RomCommand.searchRom.code } := by
  simp [called, obey, reset]

theorem Device.searching_called (d : Device) (r : RomCode) :
    d.called.searching r 0 .direct = d.called := by
  rw [called_eq, searching, following, if_pos (RomCode.agrees_zero _ _)]
  rfl

namespace SlotLine

/-- The line after a search pass that came to `r`. -/
def searched (line : SlotLine) (r : RomCode) : SlotLine where
  devices := line.devices.map fun d => d.called.searching r 64 .direct
  written := line.written ++ (bitsOf RomCommand.searchRom.code).toArray ++
    ((List.finRange 64).map r.bit).toArray

theorem writes_searchRom (line : SlotLine) (r : RomCode) :
    line.reset.writes (bitsOf RomCommand.searchRom.code) =
      ⟨(line.devices.map (·.called)).map (·.searching r 0 .direct),
        line.written ++ (bitsOf RomCommand.searchRom.code).toArray⟩ := by
  simp only [writes, reset, List.map_map, Function.comp_def, Device.searching_called,
    Device.foldl_hear_reset]
  rfl

end SlotLine

namespace Search
open Transaction
open RomCode (forks next? parting WalkEnds)

variable {codes : List RomCode} {r : RomCode} {s t u : Search}

/-- What decides the course of the next pass is the same. -/
structure SamePlace (s t : Search) : Prop where
  finished : t.finished = s.finished
  branch : t.branch = s.branch
  lastCode : t.lastCode = s.lastCode

theorem SamePlace.refl (s : Search) : SamePlace s s := ⟨rfl, rfl, rfl⟩

theorem SamePlace.trans (h : SamePlace s t) (h' : SamePlace t u) : SamePlace s u :=
  ⟨h'.finished.trans h.finished, h'.branch.trans h.branch, h'.lastCode.trans h.lastCode⟩

theorem SamePlace.symm (h : SamePlace s t) : SamePlace t s :=
  ⟨h.finished.symm, h.branch.symm, h.lastCode.symm⟩

theorem SamePlace.choice (h : SamePlace s t) : t.choice = s.choice := by
  funext p
  rw [Search.choice, Search.choice, h.branch, h.lastCode]

theorem samePlace_takeLow (s : Search) (p : Fin 64) : SamePlace s (s.takeLow p) := ⟨rfl, rfl, rfl⟩

theorem samePlace_begin (s : Search) : SamePlace s s.begin := ⟨rfl, rfl, rfl⟩

theorem samePlace_marked (s : Search) (codes : List RomCode) (r : RomCode) :
    SamePlace s (s.marked codes r) := ⟨rfl, rfl, rfl⟩

theorem ends_resolve (h : SamePlace s t) (p : Fin 64) (direct complement : Bool) :
    (resolve p direct complement t).Ends (SamePlace s) fun _ => SamePlace s := by
  cases direct with
  | true =>
    cases complement with
    | true => exact h
    | false => exact h
  | false =>
    cases complement with
    | true => exact h
    | false =>
      rw [resolve, branchAt_eq]
      cases t.choice p with
      | true => exact h
      | false => exact h.trans (samePlace_takeLow t p)

theorem ends_descend (h : SamePlace s t) (ps : List (Fin 64)) (c : RomCode) :
    (descend ps c t).Ends (SamePlace s) fun _ => SamePlace s := by
  induction ps generalizing c t with
  | nil => exact h
  | cons p ps ih =>
    rw [descend_cons, step_eq]
    apply Exchange.Ends.bind (Q := fun _ => SamePlace s)
    · refine ⟨h, fun direct => ⟨h, fun complement => ?_⟩⟩
      apply (ends_resolve h p direct complement).bind
      intro bit kept hk
      exact ⟨hk, hk⟩
    · intro bit kept hk
      exact ih hk _

theorem ends_accept (h : SamePlace s t) (c : RomCode) :
    (accept c t).Ends (SamePlace s) fun _ u => u = t.found c := by
  unfold accept
  split
  · exact h
  · split
    · rfl
    · rename_i hv
      have hc : c.check = .error (.checksum c.computed c.checksum) := if_neg hv
      rw [hc]
      exact h

theorem pass_eq (s : Search) : pass s = (reset s).bind fun s _ =>
    (sendByte RomCommand.searchRom.code s).bind fun s _ =>
      .note (.searchPass s.branch) ((descend (List.finRange 64) .zero s.begin).bind fun s c =>
        (accept c s).bind fun s _ => .done s (.ok c)) := by
  change ((reset s).bind fun s _ =>
    (sendByte RomCommand.searchRom.code s).bind fun s _ => .note (.searchPass s.branch)
      (descend (List.finRange 64) .zero s.begin)).bind _ = _
  simp only [Exchange.bind_assoc]
  rfl

/-- Whatever the line does, a pass without a result leaves the search in its place, and one with a
result moves it on by that code. -/
theorem ends_pass (s : Search) :
    (pass s).Ends (SamePlace s) fun c u => ∃ t, SamePlace s t ∧ u = t.found c := by
  have h := SamePlace.refl s
  rw [pass_eq]
  apply (ends_reset h).bind
  intro _ kept hk
  subst hk
  apply (ends_sendByte h _).bind
  intro _ kept hk
  subst hk
  apply (ends_descend (samePlace_begin kept) _ _).bind
  intro c t ht
  apply (ends_accept ht c).bind
  intro _ u hu
  exact ⟨t, ht, hu⟩

theorem next_of_finished (h : s.finished = true) : next s = .done s (.error .exhausted) := by
  change (if s.finished then refuse .exhausted else pass) s = _
  rw [if_pos h]
  rfl

theorem next_of_unfinished (h : s.finished = false) : next s = pass s := by
  change (if s.finished then refuse .exhausted else pass) s = _
  rw [if_neg (by simp [h])]

/-- The state of a search that has just reported `r` on a line with these codes. -/
def reported (codes : List RomCode) (r : RomCode) : Search where
  finished := (next? codes r).isNone
  deepestLow := ((next? codes r).bind (parting r)).map (·.val)
  branch := ((next? codes r).bind (parting r)).map (·.val)
  lowBranches := (forks codes r).length
  lastCode := r

/-- A pass that reports a code leaves nothing of the state before it. -/
theorem found_marked (s : Search) (codes : List RomCode) (r : RomCode) :
    (s.marked codes r).found r = reported codes r := by
  have hlast : (forks codes r).getLast? = (next? codes r).bind (parting r) := by
    cases h : next? codes r with
    | none => rw [RomCode.forks_eq_nil_iff.2 h]; rfl
    | some r' => exact RomCode.getLast?_forks h
  have hcount : ((forks codes r).length == 0) = (next? codes r).isNone := by
    rw [Bool.eq_iff_iff, beq_iff_eq, List.length_eq_zero_iff, RomCode.forks_eq_nil_iff,
      Option.isNone_iff_eq_none]
  rw [reported, ← hlast, ← hcount]
  rfl

theorem walkEnds_reported {r' : RomCode} (h : next? codes r = some r') :
    WalkEnds (reported codes r).choice codes r' := by
  obtain ⟨-, ⟨p, hagree, hlow, hhigh⟩, -⟩ := RomCode.next?_eq_some h
  have hp : parting r r' = some p := RomCode.parting_eq_some hagree (by simp [hlow, hhigh])
  have hb : (reported codes r).branch = some p.val := by simp [reported, h, hp]
  apply RomCode.walkEnds_next h hp
  · intro q hq
    rw [choice, hb]
    simp [Fin.val_ne_of_ne (ne_of_lt hq), Fin.lt_def.1 hq, reported]
  · rw [choice, hb]
    simp
  · intro q hq
    rw [choice, hb]
    simp [Fin.val_ne_of_ne (ne_of_gt hq), not_lt.2 (Fin.le_def.1 (le_of_lt hq))]

def verdict (c : RomCode) : Note :=
  if c = .zero then .zeroCode else if c.Valid then .found c else .badChecksum c

def given (c : RomCode) : Except Refusal RomCode := if c.Acceptable then .ok c else .error c.defect

theorem accept_eq (c : RomCode) (s : Search) : ((accept c s).bind fun s _ => .done s (.ok c)) =
    .note (verdict c) (.done (if c.Acceptable then s.found c else s) (given c)) := by
  unfold accept verdict given RomCode.defect RomCode.Acceptable
  by_cases hz : c = .zero
  · simp only [hz, ↓reduceIte, ne_eq, not_true_eq_false, false_and]
    rfl
  · by_cases hv : c.Valid
    · simp only [hz, hv, ↓reduceIte, ne_eq, not_false_eq_true, and_self]
      rfl
    · have hc : c.check = .error (.checksum c.computed c.checksum) := if_neg hv
      simp only [hz, hv, ↓reduceIte, ne_eq, not_false_eq_true, and_false, hc]
      rfl

section Run
variable {L ε : Type} {line : SlotLine}

theorem run_accept (slots : Slots L ε) (c : RomCode) (s : Search) (line : L) :
    ((accept c s).bind fun s _ => .done s (.ok c)).run slots line =
      ⟨line, if c.Acceptable then s.found c else s, [verdict c], (given c).mapError .refused⟩ := by
  rw [accept_eq]
  rfl

theorem run_pass_of_isEmpty {inTime : Bool} (s : Search) (h : line.devices.isEmpty) :
    (pass s).run (SlotLine.slots (ε := ε) inTime) line =
      ⟨line.reset, s, [.noPresence], .error (.refused .noResponse)⟩ := by
  have hr := SlotLine.run_reset (ε := ε) inTime s line
  rw [if_pos h] at hr
  rw [pass_eq, Exchange.run_bind_of_error hr]

/-- A pass comes to the code where the walk ends, from any state of the search and of the line. -/
theorem run_pass (hw : WalkEnds s.choice (line.devices.map (·.code)) r) :
    (pass s).run (SlotLine.slots (ε := ε) true) line =
      ⟨line.searched r, if r.Acceptable then reported (line.devices.map (·.code)) r
        else s.marked (line.devices.map (·.code)) r,
        [.searchPass s.branch, verdict r], (given r).mapError .refused⟩ := by
  have hne : ¬ line.devices.isEmpty := by
    rw [List.isEmpty_iff]
    exact fun h => List.ne_nil_of_mem hw.mem (by rw [h]; rfl)
  have hcodes : (line.devices.map (·.called)).map (·.code) = line.devices.map (·.code) := by
    simp [Device.called_eq, Function.comp_def]
  -- a pass is a reset, a command and a descent; the last begins with every device taking part
  have hreset := SlotLine.run_reset (ε := ε) true s line
  rw [if_neg hne] at hreset
  rw [← hcodes] at hw
  have hdescend := run_descend (s := s.begin) (ε := ε) (k := 0) rfl .zero
    (line.written ++ (bitsOf RomCommand.searchRom.code).toArray) hw
  rw [List.drop_zero, foldl_track_finRange, RomCode.foldl_withBit_finRange, hcodes] at hdescend
  rw [pass_eq, Exchange.run_bind_of_ok hreset,
    Exchange.run_bind_of_ok (SlotLine.run_sendByte s _ _), SlotLine.writes_searchRom line r,
    Exchange.run, Exchange.run_bind_of_ok hdescend, run_accept, found_marked]
  simp [SlotLine.searched]

end Run

end Search

end OneWire
