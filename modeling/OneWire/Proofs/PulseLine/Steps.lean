import OneWire.PulseLine

namespace OneWire.PulseLine

def codes (line : PulseLine) : List RomCode := line.devices.map (·.code)

/-- A low phase began in the past and ended the slot that was pending before it. -/
def Sound (line : PulseLine) : Prop :=
  ∀ start, line.lowSince = some start → start ≤ line.elapsed ∧ line.pending = none

/-- A time that the line remembers. -/
def Stamp (line : PulseLine) (time : Nat) : Prop :=
  line.lowSince = some time ∨ line.resetEnd = some time ∨
    line.pending.map (·.start) = some time

/-- No time remembered is still to come. -/
def Past (line : PulseLine) : Prop := ∀ time, line.Stamp time → time ≤ line.elapsed

theorem Past.mono {line later : PulseLine} (h : line.Past) (hn : line.elapsed ≤ later.elapsed)
    (hs : ∀ time, later.Stamp time → line.Stamp time ∨ time = line.elapsed) : later.Past := by
  intro time ht
  rcases hs time ht with ht | rfl
  · exact Nat.le_trans (h time ht) hn
  · exact hn

/-- What every action keeps, failed ones too. Time does not go back. -/
structure Leads (line later : PulseLine) : Prop where
  codes : later.codes = line.codes
  shorted : later.shorted = line.shorted
  failAt : later.failAt = line.failAt
  attempts : line.attempts ≤ later.attempts
  elapsed : line.elapsed ≤ later.elapsed
  sound : line.Sound → later.Sound
  past : line.Past → later.Past

theorem Leads.refl (line : PulseLine) : Leads line line :=
  ⟨rfl, rfl, rfl, Nat.le_refl _, Nat.le_refl _, id, id⟩

theorem Leads.trans {a b c : PulseLine} (h : Leads a b) (h' : Leads b c) : Leads a c :=
  ⟨h'.codes.trans h.codes, h'.shorted.trans h.shorted, h'.failAt.trans h.failAt,
    Nat.le_trans h.attempts h'.attempts, Nat.le_trans h.elapsed h'.elapsed,
    fun hs => h'.sound (h.sound hs), fun hp => h'.past (h.past hp)⟩

/-- The attempt that was asked to fail came in between. -/
structure Struck (line later : PulseLine) : Prop extends Leads line later where
  number : later.failAt = some later.attempts
  attempts_lt : line.attempts < later.attempts

theorem Leads.struck {a b c : PulseLine} (h : Leads a b) (h' : Struck b c) : Struck a c :=
  ⟨h.trans h'.toLeads, h'.number, Nat.lt_of_le_of_lt h.attempts h'.attempts_lt⟩

/-- No attempt still to come is asked to fail. -/
def Faultless (line : PulseLine) : Prop := ∀ n, line.failAt = some n → n ≤ line.attempts

theorem Faultless.not_struck {line later : PulseLine} (h : line.Faultless) :
    ¬ Struck line later := by
  intro hs
  have := h _ (hs.failAt.symm.trans hs.number)
  have := hs.attempts_lt
  omega

theorem Leads.faultless {line later : PulseLine} (h : Leads line later) (hf : line.Faultless) :
    later.Faultless :=
  fun n hn => Nat.le_trans (hf n (h.failAt.symm.trans hn)) h.attempts

/-- The attempt that was to fail came between two states of a line. -/
def struckBetween (line later : PulseLine) : Bool :=
  later.failAt.any fun n => line.attempts < n ∧ n ≤ later.attempts

theorem Struck.struckBetween {line later : PulseLine} (h : Struck line later) :
    line.struckBetween later = true := by
  simp [PulseLine.struckBetween, h.number, h.attempts_lt]

theorem Leads.not_struckBetween {line later : PulseLine} (h : Leads line later)
    (hf : line.Faultless) : line.struckBetween later = false := by
  unfold struckBetween
  cases hn : later.failAt with
  | none => rfl
  | some n =>
    have := hf n (h.failAt.symm.trans hn)
    simp only [Option.any_some, decide_eq_false_iff_not]
    omega

section Settle

theorem settle_of_pending {line : PulseLine} (h : line.pending = none) : line.settle = line := by
  simp [settle, h]

@[simp] theorem codes_deliver (line : PulseLine) (bit : Bool) :
    (line.deliver bit).codes = line.codes := by
  simp [codes, deliver, Function.comp_def]

@[simp] theorem pending_settle (line : PulseLine) : line.settle.pending = none := by
  unfold settle
  split
  · assumption
  · dsimp only
    split <;> rfl

/-- Ending a slot reaches the devices and the bits heard, nothing else. -/
theorem settle_eq (line : PulseLine) : line.settle = { line with
    devices := line.settle.devices, written := line.settle.written, pending := none } := by
  unfold settle
  split
  · rename_i h
    rw [← h]
  · dsimp only
    split <;> rfl

theorem stamp_of_settle {line : PulseLine} {time : Nat} (h : line.settle.Stamp time) :
    line.Stamp time := by
  rw [settle_eq] at h
  rcases h with h | h | h
  · exact .inl h
  · exact .inr (.inl h)
  · cases h

theorem leads_settle (line : PulseLine) : Leads line line.settle := by
  have hnow : line.settle.elapsed = line.elapsed := by rw [settle_eq]
  refine ⟨?_, ?_, ?_, ?_, Nat.le_of_eq hnow.symm, fun hs start hlow => ⟨?_, pending_settle line⟩,
    fun hp => hp.mono (Nat.le_of_eq hnow.symm) fun _ h => .inl (stamp_of_settle h)⟩
  · unfold settle
    split
    · rfl
    · dsimp only
      split
      · exact codes_deliver _ true
      · rfl
  · rw [settle_eq]
  · rw [settle_eq]
  · exact Nat.le_of_eq (by rw [settle_eq])
  · rw [settle_eq] at hlow ⊢
    exact (hs start hlow).1

end Settle

def numbered (line : PulseLine) (n : Nat) : PulseLine := { line with attempts := n }

def turned (line : PulseLine) (direction : Direction) : PulseLine := { line with direction }

/-- An action that is allowed and does not fail, without its number. -/
def effect : Action → PulseLine → PulseLine
  | .turn direction, line => line.turned direction
  | .pullLow, line => line.fall
  | .release, line => line.rise
  | .wait us, line => line.advance (us.toNat * 1000)

def effects : List Action → PulseLine → PulseLine
  | [], line => line
  | action :: rest, line => effects rest (effect action line)

/-- The master drives the line only while it is turned to driving. -/
def allowed : Direction → List Action → Bool
  | _, [] => true
  | _, .turn direction :: rest => allowed direction rest
  | direction, .pullLow :: rest => direction = .output && allowed direction rest
  | direction, .release :: rest => direction = .output && allowed direction rest
  | direction, .wait _ :: rest => allowed direction rest

@[simp] theorem direction_numbered (line : PulseLine) (n : Nat) :
    (line.numbered n).direction = line.direction := rfl

theorem settle_numbered (line : PulseLine) (n : Nat) :
    (line.numbered n).settle = line.settle.numbered n := by
  unfold settle numbered
  dsimp only
  split
  · rfl
  · split <;> rfl

theorem fall_numbered (line : PulseLine) (n : Nat) :
    (line.numbered n).fall = line.fall.numbered n := by
  unfold fall
  rw [settle_numbered]
  cases h : line.lowSince <;> simp [numbered, h]

theorem endPulse_numbered (line : PulseLine) (n start : Nat) :
    (line.numbered n).endPulse start = (line.endPulse start).numbered n := by
  have hwidth : (line.numbered n).since start = line.since start := rfl
  unfold endPulse
  rw [hwidth]
  dsimp only
  split
  · rfl
  · split <;> rfl

theorem rise_numbered (line : PulseLine) (n : Nat) :
    (line.numbered n).rise = line.rise.numbered n := by
  unfold rise
  cases h : line.lowSince with
  | none => simp [numbered, h]
  | some start => simpa [numbered, h] using endPulse_numbered line n start

theorem level_numbered (line : PulseLine) (n : Nat) :
    (line.numbered n).level = (line.level.1, line.level.2.numbered n) := by
  by_cases h : line.lowSince.isSome || line.shorted
  · simp [level, numbered, h]
  · cases hp : line.pending with
    | none =>
      simp only [level, numbered, h, hp, Bool.false_eq_true, ↓reduceIte]
      rfl
    | some slot =>
      cases ha : slot.answer <;>
        simp only [level, numbered, h, hp, ha, Bool.false_eq_true, ↓reduceIte] <;> rfl

theorem effect_numbered (action : Action) (line : PulseLine) (n : Nat) :
    effect action (line.numbered n) = (effect action line).numbered n := by
  cases action with
  | turn direction => rfl
  | pullLow => exact fall_numbered line n
  | release => exact rise_numbered line n
  | wait us => rfl

theorem effects_numbered (actions : List Action) (line : PulseLine) (n : Nat) :
    effects actions (line.numbered n) = (effects actions line).numbered n := by
  induction actions generalizing line with
  | nil => rfl
  | cons action rest ih => rw [effects, effects, effect_numbered, ih]

@[simp] theorem direction_fall (line : PulseLine) : line.fall.direction = line.direction := by
  unfold fall
  split
  · rfl
  · rw [settle_eq]

theorem rise_eq (line : PulseLine) : line.rise = { line with
    devices := line.rise.devices, lowSince := none, pending := line.rise.pending
    resetEnd := line.rise.resetEnd, pulses := line.rise.pulses, written := line.rise.written } := by
  unfold rise endPulse
  split
  · rename_i h
    rw [← h]
  · dsimp only
    split
    · rfl
    · split <;> rfl

@[simp] theorem direction_rise (line : PulseLine) : line.rise.direction = line.direction := by
  rw [rise_eq]

/-- A sample reaches the devices and the slot that is pending, nothing else. -/
theorem level_eq (line : PulseLine) : line.level.2 = { line with
    devices := line.level.2.devices, pending := line.level.2.pending } := by
  unfold level
  split
  · rfl
  · split
    · rfl
    · dsimp only
      split <;> rfl

@[simp] theorem direction_level (line : PulseLine) :
    line.level.2.direction = line.direction := by
  rw [level_eq]

theorem allowed_cons {line : PulseLine} {action : Action} {rest : List Action}
    (h : allowed line.direction (action :: rest)) :
    allowed line.direction [action] ∧ allowed (effect action line).direction rest := by
  cases action with
  | turn direction => exact ⟨rfl, h⟩
  | pullLow =>
    simp only [allowed, Bool.and_eq_true, decide_eq_true_eq] at h
    exact ⟨by simp [allowed, h.1], by simpa [effect] using h.2⟩
  | release =>
    simp only [allowed, Bool.and_eq_true, decide_eq_true_eq] at h
    exact ⟨by simp [allowed, h.1], by simpa [effect] using h.2⟩
  | wait us => exact ⟨rfl, h⟩

theorem leads_numbered (line : PulseLine) {n : Nat} (h : line.attempts ≤ n) :
    Leads line (line.numbered n) := ⟨rfl, rfl, rfl, h, Nat.le_refl _, id, id⟩

theorem leads_fall (line : PulseLine) : Leads line line.fall := by
  unfold fall
  split
  · exact .refl line
  · have h := leads_settle line
    refine ⟨h.codes, h.shorted, h.failAt, h.attempts, h.elapsed, ?_, ?_⟩
    · intro _ start hlow
      cases hlow
      exact ⟨h.elapsed, pending_settle line⟩
    · intro hp
      refine hp.mono h.elapsed fun time ht => ?_
      rcases ht with ht | ht
      · exact .inr (Option.some.inj ht).symm
      · exact .inl (stamp_of_settle (.inr ht))

theorem leads_rise (line : PulseLine) : Leads line line.rise := by
  unfold rise endPulse
  split
  · exact .refl line
  · rename_i start hlow
    dsimp only
    split
    · refine ⟨by simp [codes, Function.comp_def], rfl, rfl, Nat.le_refl _, Nat.le_refl _, nofun,
        fun hp => hp.mono (Nat.le_refl _) fun time ht => ?_⟩
      rcases ht with ht | ht | ht
      · cases ht
      · exact .inr (Option.some.inj ht).symm
      · exact .inl (.inr (.inr ht))
    · split
      · refine ⟨codes_deliver _ _, rfl, rfl, Nat.le_refl _, Nat.le_refl _, nofun,
          fun hp => hp.mono (Nat.le_refl _) fun time ht => .inl (.inr (ht.resolve_left nofun))⟩
      · refine ⟨rfl, rfl, rfl, Nat.le_refl _, Nat.le_refl _, nofun,
          fun hp => hp.mono (Nat.le_refl _) fun time ht => ?_⟩
        rcases ht with ht | ht | ht
        · cases ht
        · exact .inl (.inr (.inl ht))
        · cases ht
          exact .inl (.inl hlow)

@[simp] theorem map_code_answerAll (ds : List Device) :
    (answerAll ds).2.map (·.code) = ds.map (·.code) := by
  induction ds with
  | nil => rfl
  | cons d ds ih => simp [answerAll, ih]

theorem leads_level (line : PulseLine) : Leads line line.level.2 := by
  unfold level
  split
  · exact .refl line
  · rename_i h
    split
    · exact .refl line
    · rename_i slot hpending
      dsimp only
      split
      · exact .refl line
      · refine ⟨map_code_answerAll _, rfl, rfl, Nat.le_refl _, Nat.le_refl _, ?_, ?_⟩
        · intro _ start hlow
          have : line.lowSince = some start := hlow
          simp [this] at h
        · intro hp time ht
          apply hp time
          rcases ht with ht | ht | ht
          · exact .inl ht
          · exact .inr (.inl ht)
          · exact .inr (.inr (by rwa [hpending]))

theorem leads_advance (line : PulseLine) (ns : Nat) : Leads line (line.advance ns) :=
  ⟨rfl, rfl, rfl, Nat.le_refl _, Nat.le_add_right _ _,
    fun hs start hlow => ⟨Nat.le_trans (hs start hlow).1 (Nat.le_add_right _ _), (hs start hlow).2⟩,
    fun hp => hp.mono (Nat.le_add_right _ _) fun _ => .inl⟩

theorem leads_effect (action : Action) (line : PulseLine) : Leads line (effect action line) := by
  cases action with
  | turn direction => exact ⟨rfl, rfl, rfl, Nat.le_refl _, Nat.le_refl _, id, id⟩
  | pullLow => exact leads_fall line
  | release => exact leads_rise line
  | wait us => exact leads_advance line _

/-- From `line`, `x` ends in a state that `Q` allows, or strikes the attempt that is to fail. -/
def Runs {α : Type} (x : EStateM LineFault PulseLine α) (line : PulseLine)
    (Q : α → PulseLine → Prop) : Prop :=
  match x line with
  | .ok a later => Leads line later ∧ Q a later
  | .error fault later => fault = .injected ∧ Struck line later

variable {α β : Type} {line : PulseLine} {Q : α → PulseLine → Prop} {R : β → PulseLine → Prop}

theorem Runs.bind {x : EStateM LineFault PulseLine α} {f : α → EStateM LineFault PulseLine β}
    (hx : Runs x line Q) (hf : ∀ a later, Q a later → Runs (f a) later R) :
    Runs (x >>= f) line R := by
  unfold Runs at hx ⊢
  simp only [Bind.bind, EStateM.bind]
  cases h : x line with
  | error fault later => simpa [h] using hx
  | ok a later =>
    rw [h] at hx
    -- the first part was not struck, so a strike is one of the second
    have hr := hf a later hx.2
    unfold Runs at hr
    cases h' : f a later with
    | error fault last =>
      simp only [h'] at hr ⊢
      exact ⟨hr.1, hx.1.struck hr.2⟩
    | ok b last =>
      simp only [h'] at hr ⊢
      exact ⟨hx.1.trans hr.1, hr.2⟩

theorem Runs.mono {Q' : α → PulseLine → Prop} {x : EStateM LineFault PulseLine α}
    (hx : Runs x line Q) (h : ∀ a later, Q a later → Q' a later) : Runs x line Q' := by
  unfold Runs at hx ⊢
  split
  · rename_i hr
    rw [hr] at hx
    exact ⟨hx.1, h _ _ hx.2⟩
  · rename_i hr
    rw [hr] at hx
    exact hx

theorem runs_pure (a : α) (h : Q a line) : Runs (pure a) line Q := ⟨.refl line, h⟩

theorem runs_attempt (line : PulseLine) :
    Runs attempt line fun _ later => later = line.numbered (line.attempts + 1) := by
  have he : attempt line = if line.failAt = some (line.attempts + 1)
      then .error .injected (line.numbered (line.attempts + 1))
      else .ok () (line.numbered (line.attempts + 1)) := rfl
  unfold Runs
  rw [he]
  by_cases h : line.failAt = some (line.attempts + 1)
  · rw [if_pos h]
    exact ⟨rfl, leads_numbered line (Nat.le_succ _), h, Nat.lt_succ_self _⟩
  · rw [if_neg h]
    exact ⟨leads_numbered line (Nat.le_succ _), rfl⟩

theorem runs_modifyGet (f : PulseLine → α × PulseLine) (h : Leads line (f line).2) :
    Runs (modifyGet f) line fun a later => a = (f line).1 ∧ later = (f line).2 :=
  ⟨h, rfl, rfl⟩

theorem runs_require {direction : Direction} (h : line.direction = direction) :
    Runs (require direction) line fun _ later => later = line := by
  simp only [Runs, require, h, ↓reduceIte]
  exact ⟨.refl line, trivial⟩

theorem split_pause (us : UInt32) (line : PulseLine) :
    Wait.split pause us line = .ok () (line.advance (us.toNat * 1000)) := by
  have h (parts : List UInt32) (line : PulseLine) :
      parts.forM pause line = .ok () (line.advance (Duration.total parts)) := by
    induction parts generalizing line with
    | nil => rfl
    | cons part parts ih =>
      rw [Duration.total_cons]
      change parts.forM pause (line.advance part.toNat) = _
      rw [ih]
      simp [advance, Nat.add_assoc]
  rw [Wait.split, h, Wait.total_parts]

theorem runs_wait (timer : Timer) (us : UInt32) (line : PulseLine) :
    Runs (wait timer us) line fun _ later =>
      ∃ n, later = (line.advance (us.toNat * 1000)).numbered n := by
  cases timer with
  | plain =>
    simp only [Runs, wait, split_pause]
    exact ⟨leads_effect (.wait us) line, line.attempts, rfl⟩
  | counted =>
    apply (runs_attempt line).bind
    intro _ later h
    subst h
    exact (runs_modifyGet _ (leads_effect (.wait us) _)).mono fun _ _ h => ⟨_, h.2⟩

theorem runs_act (timer : Timer) {action : Action} (h : allowed line.direction [action]) :
    Runs ((adapter timer).act action) line fun _ later =>
      ∃ n, later = (effect action line).numbered n := by
  cases action with
  | turn direction =>
    apply (runs_attempt line).bind
    intro _ later hl
    subst hl
    exact (runs_modifyGet _ (leads_effect (.turn direction) _)).mono fun _ _ h => ⟨_, h.2⟩
  | pullLow =>
    apply (runs_attempt line).bind
    intro _ later hl
    subst hl
    apply (runs_require (by simpa [allowed] using h)).bind
    intro _ later hl
    subst hl
    refine (runs_modifyGet _ (leads_fall _)).mono fun _ _ h => ⟨line.attempts + 1, ?_⟩
    rw [h.2]
    exact fall_numbered line _
  | release =>
    apply (runs_attempt line).bind
    intro _ later hl
    subst hl
    apply (runs_require (by simpa [allowed] using h)).bind
    intro _ later hl
    subst hl
    refine (runs_modifyGet _ (leads_rise _)).mono fun _ _ h => ⟨line.attempts + 1, ?_⟩
    rw [h.2]
    exact rise_numbered line _
  | wait us => exact runs_wait timer us line

theorem runs_perform (timer : Timer) {actions : List Action}
    (h : allowed line.direction actions) :
    Runs ((adapter timer).perform actions) line fun _ later =>
      ∃ n, later = (effects actions line).numbered n := by
  induction actions generalizing line with
  | nil => exact runs_pure () ⟨line.attempts, rfl⟩
  | cons action rest ih =>
    obtain ⟨h, hr⟩ := allowed_cons h
    apply (runs_act timer h).bind
    rintro _ later ⟨n, hl⟩
    subst hl
    refine (ih (by simpa using hr)).mono fun _ later ⟨m, hl⟩ => ⟨m, ?_⟩
    rw [hl, effects_numbered, effects]
    rfl

theorem runs_observe (timer : Timer) {w : Window} (hb : allowed line.direction w.before)
    (hs : (effects w.before line).direction = .input) (ha : allowed .input w.after) :
    Runs ((adapter timer).observe w) line fun level later =>
      level = (effects w.before line).level.1 ∧
        ∃ n, later = (effects w.after (effects w.before line).level.2).numbered n := by
  apply (runs_perform timer hb).bind
  rintro _ sampled ⟨n, hl⟩
  subst hl
  refine Runs.bind (Q := fun level later => level = (effects w.before line).level.1 ∧
    ∃ n, later = (effects w.before line).level.2.numbered n) ?_ fun level later ⟨hv, m, hl⟩ => ?_
  · apply (runs_attempt _).bind
    intro _ later hl
    subst hl
    apply (runs_require (by simpa using hs)).bind
    intro _ later hl
    subst hl
    apply (runs_modifyGet level (leads_level _)).mono
    intro level later hl
    rw [level_numbered, level_numbered] at hl
    exact ⟨hl.1, _, hl.2⟩
  · subst hl
    apply (runs_perform timer (by simpa [hs] using ha)).bind
    rintro _ later ⟨k, hl⟩
    refine runs_pure level ⟨hv, k, ?_⟩
    rw [hl, effects_numbered]
    rfl

end OneWire.PulseLine
