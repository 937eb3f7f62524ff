import OneWire.Proofs.PulseLine.Steps
import OneWire.SlotLine

namespace OneWire

/-- Devices can tell the low phases of the schedule apart, and show their presence when the master
looks for it. Intervals are in microseconds. -/
structure Schedule.Legible (s : Schedule) : Prop where
  reset : 240 ≤ s.timing.resetLow.toNat
  presence_from : 15 ≤ s.timing.presenceWait.toNat
  presence_until : s.timing.presenceWait.toNat < 135
  one : s.timing.writeOneLow.toNat < 15
  zero_from : 15 ≤ s.timing.writeSlot.toNat
  zero_until : s.timing.writeSlot.toNat < 240
  read : s.timing.readLow.toNat < 15

/-- Read slots are sampled while devices still hold the line. -/
def Schedule.inTime (s : Schedule) : Bool :=
  s.timing.readLow.toNat + s.timing.readSettle.toNat < 15

/-- Legible, and read slots are sampled while devices still hold the line. -/
structure Schedule.Readable (s : Schedule) : Prop extends Schedule.Legible s where
  sample : s.timing.readLow.toNat + s.timing.readSettle.toNat < 15

theorem Schedule.Readable.inTime_eq {s : Schedule} (h : s.Readable) : s.inTime = true :=
  decide_eq_true h.sample

def Schedule.standard : Schedule := ⟨{}, ⟨420, 50, 50⟩, rfl⟩

theorem Schedule.readable_standard : standard.Readable := by
  refine ⟨⟨?_, ?_, ?_, ?_, ?_, ?_, ?_⟩, ?_⟩ <;> decide

theorem Schedule.legible_standard : standard.Legible := readable_standard.toLegible

namespace PulseLine

/-- What the pulses so far mean: the slot that is pending counts as ended. -/
def settled (line : PulseLine) : SlotLine := ⟨line.settle.devices, line.settle.written⟩

structure Free (line : PulseLine) : Prop where
  lowSince : line.lowSince = none
  shorted : line.shorted = false

theorem Free.sound {line : PulseLine} (h : line.Free) : line.Sound := by
  intro start hlow
  rw [h.lowSince] at hlow
  cases hlow

theorem settled_numbered (line : PulseLine) (n : Nat) :
    (line.numbered n).settled = line.settled := by
  rw [settled, settle_numbered]
  rfl

theorem settled_of_pending {line : PulseLine} (h : line.pending = none) :
    line.settled = ⟨line.devices, line.written⟩ := by
  rw [settled, settle_of_pending h]

theorem settled_of_unanswered {line : PulseLine} {start : Nat}
    (h : line.pending = some ⟨start, none⟩) :
    line.settled = SlotLine.write ⟨line.devices, line.written⟩ true := by
  simp [settled, settle, h, deliver, SlotLine.write]

theorem settled_of_answered {line : PulseLine} {start : Nat} {answer : Bool}
    (h : line.pending = some ⟨start, some answer⟩) :
    line.settled = ⟨line.devices, line.written⟩ := by
  simp [settled, settle, h]

theorem codes_settled (line : PulseLine) : line.settled.devices.map (·.code) = line.codes :=
  (leads_settle line).codes

theorem isEmpty_settled (line : PulseLine) :
    line.settled.devices.isEmpty = line.devices.isEmpty := by
  have h := congrArg List.isEmpty (codes_settled line)
  simpa [codes, List.isEmpty_map] using h

/-- The line after the master has held it low for a time; it may have held it low before. -/
def held (line : PulseLine) (us : UInt32) : PulseLine := { line with
  devices := line.settled.devices, written := line.settled.written, pending := none
  direction := .output, lowSince := some (line.lowSince.getD line.elapsed)
  elapsed := line.elapsed + us.toNat * 1000 }

theorem settle_turned (line : PulseLine) (direction : Direction) :
    (line.turned direction).settle = line.settle.turned direction := by
  unfold settle turned
  dsimp only
  split
  · rfl
  · split <;> rfl

theorem effects_held {line : PulseLine} (hs : line.Sound) (us : UInt32) (rest : List Action) :
    effects (.turn .output :: .pullLow :: .wait us :: rest) line =
      effects rest (line.held us) := by
  simp only [effects, effect]
  congr 1
  unfold fall
  cases h : line.lowSince with
  | none =>
    simp only [show (line.turned .output).lowSince = none from h]
    rw [settle_turned, settle_eq, held, h]
    rfl
  | some start =>
    have hp := (hs start h).2
    simp only [show (line.turned .output).lowSince = some start from h]
    have hl : some (line.lowSince.getD line.elapsed) = line.lowSince := by
      rw [h]
      rfl
    rw [held, settled_of_pending hp, hl, ← hp]
    rfl

def quiet : Action → Bool
  | .turn _ => true
  | .wait _ => true
  | _ => false

theorem effect_quiet {action : Action} (h : quiet action) (line : PulseLine) :
    (effect action line).settled = line.settled ∧
      ((effect action line).Free ↔ line.Free) := by
  cases action with
  | turn direction =>
    refine ⟨?_, fun h => ⟨h.1, h.2⟩, fun h => ⟨h.1, h.2⟩⟩
    simp only [settled, effect, settle_turned]
    rfl
  | pullLow => cases h
  | release => cases h
  | wait us =>
    refine ⟨?_, fun h => ⟨h.1, h.2⟩, fun h => ⟨h.1, h.2⟩⟩
    simp only [settled, effect, settle, advance]
    split
    · rfl
    · split <;> rfl

theorem effects_quiet (actions : List Action) (h : actions.all quiet) (line : PulseLine) :
    (effects actions line).settled = line.settled ∧
      ((effects actions line).Free ↔ line.Free) := by
  induction actions generalizing line with
  | nil => exact ⟨rfl, .rfl⟩
  | cons action rest ih =>
    simp only [List.all_cons, Bool.and_eq_true] at h
    obtain ⟨hd, hf⟩ := effect_quiet h.1 line
    obtain ⟨hd', hf'⟩ := ih h.2 (effect action line)
    exact ⟨hd'.trans hd, hf'.trans hf⟩

section Low
variable {line : PulseLine} {us : UInt32}

theorem rise_held (line : PulseLine) (us : UInt32) :
    (line.held us).rise = (line.held us).endPulse (line.lowSince.getD line.elapsed) := rfl

/-- A long pulse is a reset however long the line was low before it. -/
theorem rise_held_of_long (hs : line.Sound) (h : 240 ≤ us.toNat) :
    ∃ pulses, (line.held us).rise = { line.held us with
      devices := line.settled.reset.devices, lowSince := none
      resetEnd := some (line.held us).elapsed, pulses } := by
  have hw : resetWidth ≤ (line.held us).since (line.lowSince.getD line.elapsed) := by
    unfold since resetWidth held
    cases hl : line.lowSince with
    | none => simp only [Option.getD_none]; omega
    | some start =>
      have := (hs start hl).1
      simp only [Option.getD_some]
      omega
  rw [rise_held, endPulse, if_pos hw]
  exact ⟨_, rfl⟩

theorem width_held (hf : line.lowSince = none) (us : UInt32) :
    (line.held us).since (line.lowSince.getD line.elapsed) = us.toNat * 1000 := by
  simp [since, held, hf]

theorem rise_held_of_medium (hf : line.lowSince = none) (h : 15 ≤ us.toNat)
    (h' : us.toNat < 240) :
    ∃ pulses, (line.held us).rise = { line.held us with
      devices := (line.settled.write false).devices, written := (line.settled.write false).written
      lowSince := none, pulses } := by
  have hw := width_held hf us
  have hshort : ¬ resetWidth ≤ us.toNat * 1000 := by unfold resetWidth; omega
  have hlong : zeroWidth ≤ us.toNat * 1000 := by unfold zeroWidth; omega
  rw [rise_held, endPulse, hw, if_neg hshort, if_pos hlong]
  exact ⟨_, rfl⟩

theorem rise_held_of_short (hf : line.lowSince = none) (h : us.toNat < 15) :
    ∃ pulses, (line.held us).rise = { line.held us with
      pending := some ⟨line.elapsed, none⟩, lowSince := none, pulses } := by
  have hw := width_held hf us
  have hreset : ¬ resetWidth ≤ us.toNat * 1000 := by unfold resetWidth; omega
  have hzero : ¬ zeroWidth ≤ us.toNat * 1000 := by unfold zeroWidth; omega
  rw [rise_held, endPulse, hw, if_neg hreset, if_neg hzero, hf]
  exact ⟨_, rfl⟩

end Low

section Slots
variable {s : Schedule} {line : PulseLine}

theorem level_of_idle (hf : line.Free) (hp : line.pending = none) :
    line.level = (!line.presence, line) := by
  simp [level, hf.lowSince, hf.shorted, hp]

theorem level_of_unanswered (hf : line.Free) {start : Nat}
    (hp : line.pending = some ⟨start, none⟩) :
    line.level = ((answerAll line.devices).1 || decide (hold ≤ line.since start),
      { line with
        devices := (answerAll line.devices).2
        pending := some ⟨start, some (answerAll line.devices).1⟩ }) := by
  simp [level, hf.lowSince, hf.shorted, hp]

/-- The pulse is a reset, and the sample falls into the presence pulse. -/
theorem effects_reset (h : s.Legible) (hs : line.Sound) (hf : line.shorted = false) :
    let sample := (effects s.resetWindow.before line).level
    let later := effects s.resetWindow.after sample.2
    sample.1 = line.devices.isEmpty ∧ later.Free ∧ later.settled = line.settled.reset := by
  -- the line may have been low before, so only the lower bound of the width is known
  obtain ⟨pulses, hr⟩ := rise_held_of_long hs h.reset
  have he : effects s.resetWindow.before line = _ := effects_held hs _ _
  simp only [effects, effect, hr] at he
  -- from here on only the time of the sample and what the pulse left behind matter
  generalize effects s.resetWindow.before line = l at he
  have hl : l.Free := by
    subst he
    exact ⟨rfl, hf⟩
  have hp : l.pending = none := by
    subst he
    rfl
  have hd : l.settled = line.settled.reset := by
    rw [settled_of_pending hp]
    subst he
    rfl
  have hpresent : l.presence = !line.devices.isEmpty := by
    have hfrom := h.presence_from
    have huntil := h.presence_until
    have hempty : l.devices.isEmpty = line.devices.isEmpty := by
      subst he
      exact List.isEmpty_map.trans (isEmpty_settled line)
    have hend : l.resetEnd = some (line.held s.timing.resetLow).elapsed := by
      subst he
      rfl
    have hnow : l.elapsed =
        (line.held s.timing.resetLow).elapsed + s.timing.presenceWait.toNat * 1000 := by
      subst he
      rfl
    simp only [presence, since, hend, hnow, hempty, presenceFrom, presenceUntil,
      Nat.add_sub_cancel_left]
    rw [decide_eq_true (by omega), decide_eq_true (by omega)]
    simp
  have ha := effects_quiet s.resetWindow.after rfl l
  simp only [level_of_idle hl hp, hpresent, Bool.not_not]
  exact ⟨trivial, ha.2.2 hl, ha.1.trans hd⟩

theorem effects_write (h : s.Legible) (hf : line.Free) (bit : Bool) :
    (effects (s.writeActions bit) line).Free ∧
      (effects (s.writeActions bit) line).settled = line.settled.write bit := by
  cases bit with
  | true =>
    obtain ⟨pulses, hr⟩ := rise_held_of_short hf.lowSince h.one
    have he : effects (s.writeActions true) line = _ := effects_held hf.sound _ _
    rw [he, effects, effect, hr]
    -- the one is still pending after the waits, and counts as delivered once it settles
    have hq := fun l => effects_quiet [.wait s.rest.write, .wait s.timing.writeRecovery] rfl l
    refine ⟨(hq _).2.2 ⟨rfl, hf.shorted⟩, (hq _).1.trans ?_⟩
    exact settled_of_unanswered rfl
  | false =>
    obtain ⟨pulses, hr⟩ := rise_held_of_medium hf.lowSince h.zero_from h.zero_until
    have he : effects (s.writeActions false) line = _ := effects_held hf.sound _ _
    rw [he, effects, effect, hr]
    have hq := fun l => effects_quiet [.wait s.timing.writeRecovery] rfl l
    refine ⟨(hq _).2.2 ⟨rfl, hf.shorted⟩, (hq _).1.trans ?_⟩
    exact settled_of_pending rfl

theorem effects_read (h : s.Legible) (hf : line.Free) :
    let sample := (effects s.readWindow.before line).level
    let later := effects s.readWindow.after sample.2
    sample.1 = (line.settled.read s.inTime).1 ∧ later.Free ∧
      later.settled = (line.settled.read s.inTime).2 := by
  obtain ⟨pulses, hr⟩ := rise_held_of_short hf.lowSince h.read
  have he : effects s.readWindow.before line = _ := effects_held hf.sound _ _
  simp only [effects, effect, hr] at he
  -- the slot is pending at the sample, and the sample makes the devices answer
  generalize effects s.readWindow.before line = l at he
  have hl : l.Free := by
    subst he
    exact ⟨rfl, hf.shorted⟩
  have hp : l.pending = some ⟨line.elapsed, none⟩ := by
    subst he
    rfl
  have hd : l.devices = line.settled.devices := by
    subst he
    rfl
  have hw : l.written = line.settled.written := by
    subst he
    rfl
  have hlate : decide (hold ≤ l.since line.elapsed) = !s.inTime := by
    have hnow : l.elapsed =
        line.elapsed + s.timing.readLow.toNat * 1000 + s.timing.readSettle.toNat * 1000 := by
      subst he
      rfl
    rw [since, hnow, Schedule.inTime, ← decide_not]
    apply decide_eq_decide.2
    unfold hold
    omega
  have ha := effects_quiet s.readWindow.after rfl
  simp only [level_of_unanswered hl hp, hlate, hd]
  refine ⟨rfl, (ha _).2.2 ⟨hl.1, hl.2⟩, (ha _).1.trans ?_⟩
  rw [settled_of_answered rfl, hw]
  rfl

end Slots

end PulseLine

end OneWire
