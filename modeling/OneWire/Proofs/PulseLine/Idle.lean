import OneWire.Proofs.Exchange.FirstFailure
import OneWire.Proofs.PulseLine.Reachable
import OneWire.Proofs.PulseLine.Refinement

namespace OneWire.PulseLine

variable {α σ : Type} {line later : PulseLine}

structure Idle (line : PulseLine) : Prop where
  lowSince : line.lowSince = none
  direction : line.direction = .output

@[simp] theorem lowSince_rise (line : PulseLine) : line.rise.lowSince = none := by
  rw [rise_eq]

@[simp] theorem lowSince_level (line : PulseLine) : line.level.2.lowSince = line.lowSince := by
  rw [level_eq]

theorem idle_reset (s : Schedule) (line : PulseLine) :
    (effects s.resetWindow.after (effects s.resetWindow.before line).level.2).Idle :=
  ⟨(lowSince_level _).trans (lowSince_rise _), rfl⟩

theorem idle_write (s : Schedule) (line : PulseLine) (bit : Bool) :
    (effects (s.writeActions bit) line).Idle := by
  cases bit with
  | true => exact ⟨lowSince_rise _, (direction_rise _).trans (direction_fall _)⟩
  | false => exact ⟨lowSince_rise _, (direction_rise _).trans (direction_fall _)⟩

theorem idle_read (s : Schedule) (line : PulseLine) :
    (effects s.readWindow.after (effects s.readWindow.before line).level.2).Idle :=
  ⟨(lowSince_level _).trans (lowSince_rise _), rfl⟩

/-- Something was attempted in between. -/
def Worked (line later : PulseLine) : Prop := line.attempts < later.attempts

theorem Worked.of_leads {mid : PulseLine} (h : Worked line mid) (hl : Leads mid later) :
    Worked line later := Nat.lt_of_lt_of_le h hl.attempts

section Worked
variable (timer : Timer)

theorem stable_worked_act (action : Action) :
    Stable (Worked line) ((adapter timer).act action) :=
  fun mid h => h.of_leads (stable_act timer action mid (.refl mid))

theorem stable_worked_sample : Stable (Worked line) (adapter timer).sample :=
  fun mid h => h.of_leads (stable_sample timer mid (.refl mid))

theorem worked_attempt (line : PulseLine) : Worked line (after attempt line) := by
  unfold after attempt
  dsimp only
  split
  · rename_i he
    split at he <;> cases he
    exact Nat.lt_succ_self _
  · rename_i he
    split at he <;> cases he
    exact Nat.lt_succ_self _

theorem worked_perform (line : PulseLine) (direction : Direction) (rest : List Action) :
    Worked line (after ((adapter timer).perform (.turn direction :: rest)) line) := by
  have hturn : Worked line (after ((adapter timer).act (.turn direction)) line) :=
    after_bind (worked_attempt line) fun _ => stable_modifyGet fun _ h => h
  exact after_bind hturn fun _ => stable_perform (stable_worked_act timer) rest

theorem worked_observe (line : PulseLine) {w : Window} {direction : Direction}
    {rest : List Action} (hw : w.before = .turn direction :: rest) :
    Worked line (after ((adapter timer).observe w) line) := by
  have hbefore := worked_perform timer line direction rest
  rw [← hw] at hbefore
  apply after_bind hbefore
  intro _
  apply (stable_worked_sample timer).bind
  intro level
  exact (stable_perform (stable_worked_act timer) w.after).bind fun _ => stable_pure level

theorem Runs.and_after {I : PulseLine → Prop} {Q : α → PulseLine → Prop}
    {x : EStateM LineFault PulseLine α} (h : Runs x line Q) (hi : I (after x line)) :
    Runs x line fun a later => I later ∧ Q a later := by
  unfold Runs after at *
  cases hx : x line with
  | ok a later =>
    simp only [hx] at h hi ⊢
    exact ⟨h.1, hi, h.2⟩
  | error fault later => simpa only [hx] using h

/-- What is not struck has worked the line and leaves it idle. -/
def Works (x : EStateM LineFault PulseLine α) : Prop :=
  ∀ line, Runs x line fun _ later => Worked line later ∧ later.Idle

variable (s : Schedule)

theorem works_reset : Works (master timer s).slots.reset := by
  intro line
  have hlt : Worked line (after (master timer s).slots.reset line) :=
    after_bind (worked_observe timer line rfl) fun level => stable_pure (!level)
  apply ((runs_reset_effect timer s line).and_after hlt).mono
  rintro present later ⟨hlt, -, n, hl⟩
  subst hl
  exact ⟨hlt, (idle_reset s line).1, (idle_reset s line).2⟩

theorem works_write (bit : Bool) : Works ((master timer s).slots.write bit) := by
  intro line
  have hlt : Worked line (after ((adapter timer).perform (s.writeActions bit)) line) := by
    cases bit <;> exact worked_perform timer line .output _
  apply ((runs_write_effect timer s line bit).and_after hlt).mono
  rintro _ later ⟨hlt, n, hl⟩
  subst hl
  exact ⟨hlt, (idle_write s line bit).1, (idle_write s line bit).2⟩

theorem works_read : Works (master timer s).slots.read := by
  intro line
  apply ((runs_read_effect timer s line).and_after (worked_observe timer line rfl)).mono
  rintro level later ⟨hlt, -, n, hl⟩
  subst hl
  exact ⟨hlt, (idle_read s line).1, (idle_read s line).2⟩

end Worked

/-- What a call makes of a line, by what the line or the timer reported. -/
inductive Leaves (line : PulseLine) : Option LineFault → PulseLine → Prop
  | untouched : Leaves line none line
  | idle {later : PulseLine} (hw : Worked line later) (hi : later.Idle) :
      Leaves line none later
  | struck {later : PulseLine} (h : Struck line later) : Leaves line (some .injected) later

theorem Leaves.of_worked {last : PulseLine} {fault : Option LineFault} (hl : Leads line later)
    (hw : Worked line later) (hi : later.Idle) (h : Leaves later fault last) :
    Leaves line fault last := by
  cases h with
  | untouched => exact .idle hw hi
  | idle hw' hi' => exact .idle (Nat.lt_trans hw hw') hi'
  | struck hs => exact .struck (hl.struck hs)

theorem leaves_run (timer : Timer) (s : Schedule) (x : Exchange σ α) (line : PulseLine) :
    let o := x.run (master timer s).slots line
    Leaves line o.fault o.line := by
  induction x generalizing line with
  | done kept result =>
    cases result with
    | ok a => exact .untouched
    | error reason => exact .untouched
  | reset kept next ih =>
    rw [Exchange.run]
    rcases (works_reset timer s line).cases with ⟨present, later, he, hl, hw, hi⟩ | ⟨later, he, hs⟩
    · rw [he]
      exact (ih present later).of_worked hl hw hi
    · rw [he]
      exact .struck hs
  | write bit kept next ih =>
    rw [Exchange.run]
    rcases (works_write timer s bit line).cases with ⟨_, later, he, hl, hw, hi⟩ | ⟨later, he, hs⟩
    · rw [he]
      exact (ih later).of_worked hl hw hi
    · rw [he]
      exact .struck hs
  | read kept next ih =>
    rw [Exchange.run]
    rcases (works_read timer s line).cases with ⟨level, later, he, hl, hw, hi⟩ | ⟨later, he, hs⟩
    · rw [he]
      exact (ih level later).of_worked hl hw hi
    · rw [he]
      exact .struck hs
  | note record next ih => exact ih line

theorem leaves_next (timer : Timer) (s : Schedule) (sweep : Sweep) (line : PulseLine) :
    let o := sweep.next (master timer s).slots line
    Leaves line o.result.fault o.line := by
  cases hs : sweep.stopped with
  | true =>
    rw [Sweep.next_of_stopped _ hs]
    exact .untouched
  | false =>
    have h := leaves_run timer s (Search.next sweep.search) line
    rw [Sweep.next_of_running _ hs]
    dsimp only
    rwa [Sweep.fault_report, Sweep.line_report]

theorem Leaves.fault_ne {fault : Option LineFault} (h : Leaves line fault later) :
    fault ≠ some .direction := by
  cases h <;> nofun

theorem Leaves.eq_of_attempts {fault : Option LineFault} (h : Leaves line fault later)
    (ha : later.attempts = line.attempts) : later = line := by
  cases h with
  | untouched => rfl
  | idle hw _ => exact absurd ha (Nat.ne_of_gt hw)
  | struck hs => exact absurd ha (Nat.ne_of_gt hs.attempts_lt)

theorem Leaves.idle_of_worked (h : Leaves line none later) (hw : Worked line later) :
    later.Idle := by
  cases h with
  | untouched => exact absurd hw (Nat.lt_irrefl _)
  | idle _ hi => exact hi

/-- Whatever state a line is in and wherever an attempt is to fail: no call drives the line while it
is turned to sampling, or samples it while it is turned to driving or held. A call that attempts
something and is not struck leaves the line idle, and one that attempts nothing leaves it as it
was. -/
theorem works_in_order (timer : Timer) (s : Schedule) (line : PulseLine) :
    (∀ {σ α : Type} (t : Transaction σ α) (kept : σ),
      let o := (master timer s).run t kept line
      o.result ≠ .error (.failed .direction) ∧
      (line.attempts < o.line.attempts → (∀ fault, o.result ≠ .error (.failed fault)) →
        o.line.lowSince = none ∧ o.line.direction = .output) ∧
      (o.line.attempts = line.attempts → o.line = line)) ∧
    (∀ sweep : Sweep,
      let o := sweep.next (master timer s).slots line
      o.result ≠ some (.error (.failed .direction)) ∧
      (line.attempts < o.line.attempts → (∀ fault, o.result ≠ some (.error (.failed fault))) →
        o.line.lowSince = none ∧ o.line.direction = .output) ∧
      (o.line.attempts = line.attempts → o.line = line)) ∧
    (∀ {σ α : Type} (t : Transaction σ α) (kept : σ) (plan : FaultPlan LineFault),
      Orderly {} (((master timer s).recorded plan).run t kept ⟨line, []⟩).line.operations) ∧
    ∀ (sweep : Sweep) (plan : FaultPlan LineFault),
      Orderly {} (sweep.next ((master timer s).recorded plan).slots ⟨line, []⟩).line.operations := by
  refine ⟨fun t kept => ?_, fun sweep => ?_, fun t kept plan => ?_, fun sweep plan => ?_⟩
  · have h : Leaves line ((master timer s).run t kept line).fault _ :=
      leaves_run timer s (t kept) line
    refine ⟨fun he => ?_, fun hw hf => ?_, h.eq_of_attempts⟩
    · exact h.fault_ne (Outcome.fault_eq_some_iff.2 he)
    · rw [Outcome.fault_eq_none_iff.2 hf] at h
      exact ⟨(h.idle_of_worked hw).lowSince, (h.idle_of_worked hw).direction⟩
  · have h : Leaves line (sweep.next (master timer s).slots line).result.fault _ :=
      leaves_next timer s sweep line
    refine ⟨fun he => ?_, fun hw hf => ?_, h.eq_of_attempts⟩
    · exact h.fault_ne (Sweep.Item.fault_eq_some_iff.2 he)
    · rw [Sweep.Item.fault_eq_none_iff.2 hf] at h
      exact ⟨(h.idle_of_worked hw).lowSince, (h.idle_of_worked hw).direction⟩
  · exact (tidy_run _ plan (t kept) ⟨line, []⟩).orderly
  · cases hs : sweep.stopped with
    | true =>
      rw [Sweep.next_of_stopped _ hs]
      trivial
    | false =>
      rw [Sweep.next_of_running _ hs, Sweep.line_report]
      exact (tidy_run _ plan (Search.next sweep.search) ⟨line, []⟩).orderly

/-- A line without devices that a driver left held low and turned to sampling. -/
theorem works_in_order_held :
    let line := after ((adapter .plain).act (.turn .input))
      (after ((adapter .plain).act .pullLow) (ofCodes []))
    let o := (master .counted .standard).run Transaction.reset () line
    let o' := (master .counted .standard).run (Transaction.send []) () line
    line.lowSince = some 0 ∧ line.direction = .input ∧
      o.result.toOption = none ∧ o.line.lowSince = none ∧ o.line.direction = .output ∧
      o'.line = line ∧ Orderly {} (((master .counted .standard).recorded (.only 7 .injected)).run
        Transaction.reset () ⟨line, []⟩).line.operations := by
  intro line o o'
  obtain ⟨hrun, -, horder, -⟩ := works_in_order .counted .standard line
  have hheld : line.lowSince = some 0 ∧ line.direction = .input := ⟨rfl, rfl⟩
  have hpassive : o'.line.attempts = line.attempts := rfl
  have hresult : o.result.toOption = none := by decide +kernel
  have hworked : line.attempts < o.line.attempts := by decide +kernel
  have hfault : o.fault = none := by decide +kernel
  have hno : ∀ fault, o.result ≠ .error (.failed fault) := Outcome.fault_eq_none_iff.1 hfault
  clear_value line
  obtain ⟨-, hidle, -⟩ := hrun Transaction.reset ()
  obtain ⟨hlow, hdirection⟩ := hidle hworked hno
  obtain ⟨-, -, hstays⟩ := hrun (Transaction.send []) ()
  exact ⟨hheld.1, hheld.2, hresult, hlow, hdirection, hstays hpassive,
    horder Transaction.reset () (.only 7 .injected)⟩

end OneWire.PulseLine
