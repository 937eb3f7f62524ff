import OneWire.Proofs.Exchange.Stable
import OneWire.Proofs.PulseLine.Steps

namespace OneWire.PulseLine

variable {α σ : Type} {codes : List RomCode} {line : PulseLine}

/-- Every line that can come of a new one with these devices. -/
inductive Reachable (codes : List RomCode) : PulseLine → Prop
  | new : Reachable codes (ofCodes codes)
  | act {line : PulseLine} (timer : Timer) (action : Action) (h : Reachable codes line) :
      Reachable codes (after ((adapter timer).act action) line)
  | sample {line : PulseLine} (timer : Timer) (h : Reachable codes line) :
      Reachable codes (after (adapter timer).sample line)
  | pause {line : PulseLine} (ns : UInt32) (h : Reachable codes line) :
      Reachable codes (after (pause ns) line)
  | settle {line : PulseLine} (h : Reachable codes line) : Reachable codes line.settle
  | failOn {line : PulseLine} (number : Nat) (h : Reachable codes line) :
      Reachable codes (line.failOn number)
  | short {line : PulseLine} (h : Reachable codes line) : Reachable codes line.short

theorem Reachable.run (h : Reachable codes line) (timer : Timer) (s : Schedule)
    (x : Exchange σ α) : Reachable codes (x.run (Master.slots ⟨adapter timer, s⟩) line).line :=
  stable_run (fun action _ h => h.act timer action) (fun _ h => h.sample timer) s x h

section Leads
variable {start : PulseLine}

theorem stable_attempt : Stable (Leads start) attempt := by
  intro line h
  have hn := h.trans (leads_numbered line (Nat.le_succ line.attempts))
  unfold after attempt
  dsimp only
  split
  · rename_i he
    split at he <;> cases he
    exact hn
  · rename_i he
    split at he <;> cases he
    exact hn

theorem stable_require (direction : Direction) :
    Stable (Leads start) (require direction) := by
  intro line h
  unfold after require
  split
  · rename_i he
    split at he <;> cases he
    exact h
  · rename_i he
    split at he <;> cases he
    exact h

theorem stable_split (us : UInt32) : Stable (Leads start) (Wait.split pause us) := by
  intro line h
  rw [after, split_pause]
  exact h.trans (leads_effect (.wait us) line)

theorem stable_act (timer : Timer) (action : Action) :
    Stable (Leads start) ((adapter timer).act action) := by
  -- what comes before the effect changes no more than the count of attempts
  have hm (action : Action) : Stable (Leads start)
      (modifyGet fun line => ((), effect action line) : EStateM LineFault PulseLine Unit) :=
    stable_modifyGet fun line h => h.trans (leads_effect action line)
  cases action with
  | turn direction => exact stable_attempt.bind fun _ => hm (.turn direction)
  | pullLow => exact stable_attempt.bind fun _ => (stable_require .output).bind fun _ => hm .pullLow
  | release => exact stable_attempt.bind fun _ => (stable_require .output).bind fun _ => hm .release
  | wait us =>
    cases timer with
    | plain => exact stable_split us
    | counted => exact stable_attempt.bind fun _ => hm (.wait us)

theorem stable_sample (timer : Timer) : Stable (Leads start) (adapter timer).sample :=
  stable_attempt.bind fun _ => (stable_require .input).bind fun _ =>
    stable_modifyGet fun line h => h.trans (leads_level line)

end Leads

theorem leads_run (timer : Timer) (s : Schedule) (x : Exchange σ α) (line : PulseLine) :
    Leads line (x.run (Master.slots ⟨adapter timer, s⟩) line).line :=
  stable_run (stable_act timer) (stable_sample timer) s x (.refl line)

theorem leads_pause (ns : UInt32) (line : PulseLine) : Leads line (after (pause ns) line) :=
  leads_advance line ns.toNat

/-- What holds of a new line and is kept by every action, by asking for a fault and by a short. -/
theorem Reachable.of_leads {P : PulseLine → Prop} (h : Reachable codes line)
    (new : P (ofCodes codes)) (leads : ∀ line later, Leads line later → P line → P later)
    (failOn : ∀ line number, P line → P (line.failOn number))
    (short : ∀ line, P line → P line.short) : P line := by
  induction h with
  | new => exact new
  | act timer action _ ih => exact leads _ _ (stable_act timer action _ (.refl _)) ih
  | sample timer _ ih => exact leads _ _ (stable_sample timer _ (.refl _)) ih
  | pause ns _ ih => exact leads _ _ (leads_pause ns _) ih
  | settle _ ih => exact leads _ _ (leads_settle _) ih
  | failOn number _ ih => exact failOn _ number ih
  | short _ ih => exact short _ ih

theorem Reachable.codes_eq (h : Reachable codes line) : line.codes = codes :=
  h.of_leads (by simp [PulseLine.codes, ofCodes, Function.comp_def])
    (fun _ _ hl ih => hl.codes.trans ih) (fun _ _ => id) fun _ => id

theorem Reachable.sound (h : Reachable codes line) : line.Sound :=
  h.of_leads nofun (fun _ _ hl => hl.sound) (fun _ _ => id) fun _ => id

theorem Reachable.past (h : Reachable codes line) : line.Past := by
  refine h.of_leads ?_ (fun _ _ hl => hl.past) (fun _ _ => id) fun _ => id
  rintro time (ht | ht | ht) <;> cases ht

/-- Words that wrap differ by what the times differ by, wrapped or not. -/
theorem Reachable.clock_sub (h : Reachable codes line) {time : Nat} (ht : line.Stamp time) :
    line.clock - .ofNat time = .ofNat (line.since time) :=
  (UInt64.ofNat_sub (h.past time ht)).symm

/-- Up to the horizon of 2^64 nanoseconds, more than 500 years, the clock of 64 bits has the time,
and the differences of its words, which then never borrow, are those that devices go by. What ends
before the horizon was before it all along. -/
theorem Reachable.since_eq_clock_sub (h : Reachable codes line) {later : PulseLine}
    (hl : Leads line later) (hn : later.elapsed < UInt64.size) {time : Nat} (ht : line.Stamp time) :
    line.checkedClock = some line.clock ∧ .ofNat time ≤ line.clock ∧
      line.since time = (line.clock - .ofNat time).toNat := by
  have hnow : line.elapsed < UInt64.size := Nat.lt_of_le_of_lt hl.elapsed hn
  have htime : time < UInt64.size := Nat.lt_of_le_of_lt (h.past time ht) hnow
  have hsince : line.since time < UInt64.size := Nat.lt_of_le_of_lt (Nat.sub_le _ _) hnow
  refine ⟨if_pos hnow, (UInt64.ofNat_le_iff_le htime hnow).2 (h.past time ht), ?_⟩
  rw [h.clock_sub ht, UInt64.toNat_ofNat_of_lt' hsince]

end OneWire.PulseLine
