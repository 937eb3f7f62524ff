import OneWire.Proofs.Exchange.Buffers
import OneWire.Proofs.PulseLine.Slots
import OneWire.Search.Sweep

namespace OneWire

variable {L ε : Type} {m : Master L ε}

open Transaction

namespace Sweep

def report (s : Sweep) (o : Outcome L Search (Except (BusError ε) RomCode)) :
    Outcome L Sweep (Item ε) :=
  match o.result with
  | .ok c => ⟨o.line, { s with search := o.kept }, o.log, some (.ok c)⟩
  | .error (.refused .exhausted) => ⟨o.line, { s with search := o.kept }, o.log, none⟩
  | .error e => ⟨o.line, ⟨o.kept, true⟩, o.log, some (.error e)⟩

theorem next_of_running (slots : Slots L ε) {s : Sweep} (h : s.stopped = false) (line : L) :
    s.next slots line = s.report ((Search.next s.search).run slots line) := by
  unfold next
  rw [if_neg (by simp [h])]
  rcases (Search.next s.search).run slots line with ⟨later, kept, log, (reason | fault) | c⟩
  · cases reason <;> rfl
  · rfl
  · rfl

theorem line_report (s : Sweep) (o : Outcome L Search (Except (BusError ε) RomCode)) :
    (s.report o).line = o.line := by
  unfold report
  split <;> rfl

def Item.fault : Item ε → Option ε
  | some (.error (.failed fault)) => some fault
  | _ => none

theorem fault_report (s : Sweep) (o : Outcome L Search (Except (BusError ε) RomCode)) :
    (s.report o).result.fault = o.fault := by
  obtain ⟨line, kept, log, (reason | fault) | c⟩ := o
  · cases reason <;> rfl
  · rfl
  · rfl

theorem report_of_error (s : Sweep) {o : Outcome L Search (Except (BusError ε) RomCode)}
    {e : BusError ε} (h : o.result = .error e) (he : e ≠ .refused .exhausted) :
    s.report o = ⟨o.line, ⟨o.kept, true⟩, o.log, some (.error e)⟩ := by
  unfold report
  rw [h]
  split
  · rename_i hc
    cases hc
  · rename_i hc
    cases hc
    exact absurd rfl he
  · rename_i hc
    cases hc
    rfl

theorem Item.eq_of_fault {item : Item ε} {e : ε} (h : item.fault = some e) :
    item = some (.error (.failed e)) := by
  unfold fault at h
  split at h
  · cases h
    rfl
  · cases h

theorem Item.fault_eq_some_iff {item : Item ε} {e : ε} :
    item.fault = some e ↔ item = some (.error (.failed e)) := by
  refine ⟨Item.eq_of_fault, fun h => ?_⟩
  rw [h, Item.fault]

theorem Item.fault_eq_none_iff {item : Item ε} :
    item.fault = none ↔ ∀ e, item ≠ some (.error (.failed e)) := by
  simp only [Option.eq_none_iff_forall_ne_some, ne_eq, Item.fault_eq_some_iff]

theorem stopped_of_fault {slots : Slots L ε} {s : Sweep} {line : L} {e : ε}
    (h : (s.next slots line).result.fault = some e) : (s.next slots line).kept.stopped = true := by
  cases hs : s.stopped with
  | true =>
    rw [next_of_stopped slots hs] at h
    cases h
  | false =>
    have hr := Item.eq_of_fault h
    rw [next_of_running slots hs] at hr ⊢
    unfold report at hr ⊢
    split at hr
    · cases hr
    · cases hr
    · rfl

/-- Where a call gives nothing and leaves everything as it is, all later ones do. -/
theorem take_of_still {slots : Slots L ε} {s : Sweep} {line : L}
    (h : s.next slots line = ⟨line, s, [], none⟩) (n : Nat) :
    s.take slots n line = ⟨line, s, [], List.replicate n none⟩ := by
  induction n with
  | zero => rfl
  | succ n ih =>
    rw [take, h]
    dsimp only
    rw [ih]
    rfl

theorem take_of_stopped (slots : Slots L ε) {s : Sweep} (h : s.stopped) (n : Nat) (line : L) :
    s.take slots n line = ⟨line, s, [], List.replicate n none⟩ :=
  take_of_still (next_of_stopped slots h line) n

theorem shortCircuits_next (m : Master L ε) (s : Sweep) :
    ShortCircuits Outcome.line (fun o : Outcome (Recorded L) Sweep (Item ε) => o.result.fault)
      fun plan => s.next (m.recorded plan).slots := by
  cases hs : s.stopped with
  | true =>
    simp only [funext (next_of_stopped _ hs)]
    exact shortCircuits_const fun _ => rfl
  | false =>
    simp only [funext (next_of_running _ hs)]
    apply (shortCircuits_run m (Search.next s.search)).map (s.report ·) (line_report s)
    intro o e ho
    rw [report_of_error s (Outcome.result_of_fault ho) nofun]
    rfl

theorem stripped_next (m : Master L ε) (s : Sweep) (r : Recorded L) :
    (s.next (m.recorded .never).slots r).stripped = s.next m.slots r.line :=
  (mirrors_recorded m).next s r

theorem stripped_take (m : Master L ε) (n : Nat) (s : Sweep) (r : Recorded L) :
    (s.take (m.recorded .never).slots n r).stripped = s.take m.slots n r.line := by
  induction n generalizing s r with
  | zero => rfl
  | succ n ih =>
    have hfirst := stripped_next m s r
    have hrest := ih (s.next (m.recorded .never).slots r).kept
      (s.next (m.recorded .never).slots r).line
    rw [take, take, ← hfirst]
    change _ = (⟨_, _, _, _⟩ : Outcome L Sweep (List (Item ε)))
    simp only [Outcome.stripped] at hrest ⊢
    rw [← hrest]

theorem grows_take (m : Master L ε) (n : Nat) (s : Sweep) (r : Recorded L) :
    r.operations <+: (s.take (m.recorded .never).slots n r).line.operations := by
  induction n generalizing s r with
  | zero => exact List.prefix_refl _
  | succ n ih => exact ((shortCircuits_next m s).grows r).trans (ih _ _)

theorem take_spared {plan : FaultPlan ε} {n : Nat} {s : Sweep} {r : Recorded L}
    (hp : plan.Spares r.operations.length
      (s.take (m.recorded .never).slots n r).line.operations.length) :
    s.take (m.recorded plan).slots n r = s.take (m.recorded .never).slots n r := by
  induction n generalizing s r with
  | zero => rfl
  | succ n ih =>
    have hnext := shortCircuits_next m s
    have hgrow := grows_take m n (s.next (m.recorded .never).slots r).kept
      (s.next (m.recorded .never).slots r).line
    have hfirst := hnext.spared plan r (hp.left hgrow.length_le)
    have hrest := ih (hp.right (hnext.grows r).length_le)
    rw [take, hfirst, hrest]
    rfl

/-- The failure takes the place of an item, and nothing comes after it. -/
theorem take_struck {plan : FaultPlan ε} {n k : Nat} {e : ε} {s : Sweep} {r : Recorded L}
    (hs : plan.Strikes r.operations.length
      (s.take (m.recorded .never).slots n r).line.operations.length k e) :
    (s.take (m.recorded plan).slots n r).line.operations =
        (s.take (m.recorded .never).slots n r).line.operations.take k ∧
      ∃ i < n, (s.take (m.recorded plan).slots n r).result =
        (s.take (m.recorded .never).slots n r).result.take i ++
          some (.error (.failed e)) :: List.replicate (n - (i + 1)) none := by
  induction n generalizing s r with
  | zero => exact absurd hs.first_lt (Nat.not_lt.2 hs.le_last)
  | succ n ih =>
    have hnext := shortCircuits_next m s
    rcases hs.left_or_right (hnext.grows r).length_le with hleft | ⟨hp, hright⟩
    · -- the first call reports the failure, and the others find the sweep over
      obtain ⟨hf, ho⟩ := hnext.struck plan r k e hleft
      obtain ⟨more, hmore⟩ := grows_take m n (s.next (m.recorded .never).slots r).kept
        (s.next (m.recorded .never).slots r).line
      simp only [take, take_of_stopped _ (stopped_of_fault hf), Item.eq_of_fault hf]
      refine ⟨?_, 0, Nat.succ_pos n, rfl⟩
      rw [ho, ← hmore, List.take_append_of_le_length hleft.le_last]
    · obtain ⟨hops, i, hi, hresult⟩ := ih hright
      simp only [take, hnext.spared plan r hp]
      refine ⟨hops, i + 1, Nat.succ_lt_succ hi, ?_⟩
      rw [hresult, Nat.add_sub_add_right]
      rfl

end Sweep

/-- The first operation that fails ends a transaction with what it reported: of the operations of
the run without faults those up to it are made, and no other. In a sweep the failure is the last
item. A buffer has taken the bytes whose bits all came before. A failure that is to come later
changes nothing. -/
theorem first_failure (m : Master L ε) (line : L) (plan : FaultPlan ε) :
    (∀ {σ α : Type} (t : Transaction σ α) (kept : σ),
      let free := m.operations t kept line
      let o := (m.recorded plan).run t kept ⟨line, []⟩
      (∀ k e, plan.Strikes 0 free.length k e →
        o.result = .error (.failed e) ∧ o.line.operations = free.take k) ∧
      (plan.Spares 0 free.length →
        o.line.operations = free ∧ o.stripped = m.run t kept line)) ∧
    (∀ (s : Sweep) (n : Nat),
      let free := s.take (m.recorded .never).slots n ⟨line, []⟩
      let o := s.take (m.recorded plan).slots n ⟨line, []⟩
      (∀ k e, plan.Strikes 0 free.line.operations.length k e →
        o.line.operations = free.line.operations.take k ∧ ∃ i < n, o.result =
          free.result.take i ++ some (.error (.failed e)) :: List.replicate (n - (i + 1)) none) ∧
      (plan.Spares 0 free.line.operations.length →
        o.line.operations = free.line.operations ∧ o.stripped = s.take m.slots n line)) ∧
    (∀ {size : Nat} (buffer : Vector UInt8 size),
      let free := (m.recorded .never).run receive buffer ⟨line, []⟩
      let o := (m.recorded plan).run receive buffer ⟨line, []⟩
      ∀ k e, plan.Strikes 0 free.line.operations.length k e → ∀ j : Fin size,
        o.kept.get j = if 80 * (j.val + 1) < k then free.kept.get j else buffer.get j) ∧
    (∀ c : RomCode,
      let free := (m.recorded .never).run readCode c ⟨line, []⟩
      let o := (m.recorded plan).run readCode c ⟨line, []⟩
      ∀ k e, plan.Strikes 0 free.line.operations.length k e → ∀ j : Fin 8,
        o.kept.bytes.get j =
          if 53 + 80 * (j.val + 1) < k then free.kept.bytes.get j else c.bytes.get j) := by
  refine ⟨fun t kept => ?_, fun s n => ?_, fun {size} buffer => ?_, fun c => ?_⟩
  · have h := shortCircuits_run m (t kept)
    refine ⟨fun k e hs => ?_, fun hp => ?_⟩
    · obtain ⟨hf, ho⟩ := h.struck plan ⟨line, []⟩ k e hs
      exact ⟨Outcome.result_of_fault hf, ho⟩
    · have hsame := h.spared plan ⟨line, []⟩ hp
      dsimp only [Master.run]
      rw [hsame]
      exact ⟨rfl, run_recorded_never m (t kept) ⟨line, []⟩⟩
  · refine ⟨fun k e hs => ?_, fun hp => ?_⟩
    · exact Sweep.take_struck (r := ⟨line, []⟩) hs
    · rw [Sweep.take_spared (r := ⟨line, []⟩) hp]
      exact ⟨rfl, Sweep.stripped_take m n s ⟨line, []⟩⟩
  · intro free o k e hs j
    have hsize : size ≠ 0 := Nat.ne_of_gt (Nat.zero_lt_of_lt j.isLt)
    dsimp only [free, o, Master.run] at hs ⊢
    rw [receive_eq_fill hsize] at hs ⊢
    have hj := kept_fill (k := 0) (r := ⟨line, []⟩) List.drop_zero (Nat.add_zero 0).symm hs j
    rwa [Nat.zero_add] at hj
  · intro free o k e hs j
    have hj := kept_readCode (r := ⟨line, []⟩) hs j
    rwa [List.length_nil, Nat.zero_add] at hj

/-- On a line that is low at its first sample and high from then on, the reading of a code fails
once its first byte is in, and a sweep in its first call. -/
theorem first_failure_once_low :
    let m : Master Nat Unit := ⟨⟨⟨fun _ => pure (), pure (), pure (),
      modifyGet fun samples => (decide (0 < samples), samples + 1)⟩, fun _ => pure ()⟩, .standard⟩
    let o := (m.recorded (.only 140 ())).run readCode .zero ⟨0, []⟩
    let swept := Sweep.take (m.recorded (.only 60 ())).slots 2 ⟨{}, false⟩ ⟨0, []⟩
    o.result = .error (.failed ()) ∧ o.line.operations.length = 140 ∧
      o.kept.bytes.get 0 = 0xff ∧ (∀ j : Fin 8, 0 < j.val → o.kept.bytes.get j = 0) ∧
      swept.line.operations.length = 60 ∧ some (.error (.failed ())) ∈ swept.result := by
  intro m o swept
  have hcode : (FaultPlan.only 140 ()).Strikes 0 (m.operations readCode .zero 0).length 140 () :=
    .only (by decide) (by decide +kernel)
  have hsweep : (FaultPlan.only 60 ()).Strikes 0
      (Sweep.take (m.recorded .never).slots 2 ⟨{}, false⟩ ⟨0, []⟩).line.operations.length 60 () :=
    .only (by decide) (by decide +kernel)
  obtain ⟨hrun, -, -, hkept⟩ := first_failure m 0 (.only 140 ())
  obtain ⟨-, htake, -, -⟩ := first_failure m 0 (.only 60 ())
  obtain ⟨hresult, hops⟩ := (hrun readCode .zero).1 140 () hcode
  obtain ⟨hswept, i, hi, hitems⟩ := (htake ⟨{}, false⟩ 2).1 60 () hsweep
  refine ⟨hresult, ?_, ?_, ?_, ?_, ?_⟩
  · rw [hops, List.length_take, Nat.min_eq_left hcode.le_last]
  · rw [hkept .zero 140 () hcode 0, if_pos (by decide)]
    decide +kernel
  · intro j hj
    rw [hkept .zero 140 () hcode j, if_neg (by omega)]
    revert j
    decide
  · rw [hswept, List.length_take, Nat.min_eq_left hsweep.le_last]
  · rw [hitems]
    exact List.mem_append_right _ List.mem_cons_self

end OneWire
