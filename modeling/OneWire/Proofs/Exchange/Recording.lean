import OneWire.Proofs.Exchange.Views

namespace OneWire

inductive Operation where
  | act (action : Action)
  | sample
  deriving DecidableEq, Repr

/-- A line and the operations on it, in order, failed ones too. -/
structure Recorded (L : Type) where
  line : L
  operations : List Operation := []

/-- Which operations are to fail, by their numbers in the record, and what they report. The first
operation has number 1. -/
def FaultPlan (ε : Type) : Type := Nat → Option ε

namespace FaultPlan
variable {ε : Type} {plan : FaultPlan ε} {first last middle n : Nat} {e : ε}

def never : FaultPlan ε := fun _ => none

def only (number : Nat) (e : ε) : FaultPlan ε := fun n => if n = number then some e else none

/-- No operation after the first `first` ones and up to number `last` is to fail. -/
def Spares (plan : FaultPlan ε) (first last : Nat) : Prop :=
  ∀ n, first < n → n ≤ last → plan n = none

/-- After the first `first` operations and up to number `last`, the first to fail is number `n`. -/
structure Strikes (plan : FaultPlan ε) (first last n : Nat) (e : ε) : Prop where
  first_lt : first < n
  le_last : n ≤ last
  fails : plan n = some e
  spares : ∀ m, first < m → m < n → plan m = none

theorem Strikes.only (h : 0 < n) (hl : n ≤ last) :
    (only n e).Strikes 0 last n e :=
  ⟨h, hl, if_pos rfl, fun _ _ hm => if_neg (Nat.ne_of_lt hm)⟩

theorem Spares.left (h : plan.Spares first last) (hm : middle ≤ last) :
    plan.Spares first middle := fun n hf hn => h n hf (Nat.le_trans hn hm)

theorem Spares.right (h : plan.Spares first last) (hm : first ≤ middle) :
    plan.Spares middle last := fun n hf hn => h n (Nat.lt_of_le_of_lt hm hf) hn

theorem Strikes.left_or_right (h : plan.Strikes first last n e) (hm : first ≤ middle) :
    plan.Strikes first middle n e ∨
      plan.Spares first middle ∧ plan.Strikes middle last n e := by
  rcases Nat.lt_or_ge middle n with hn | hn
  · refine .inr ⟨?_, hn, h.le_last, h.fails, ?_⟩
    · intro m hf hle
      exact h.spares m hf (Nat.lt_of_le_of_lt hle hn)
    · intro m hf hlt
      exact h.spares m (Nat.lt_of_le_of_lt hm hf) hlt
  · exact .inl ⟨h.first_lt, hn, h.fails, h.spares⟩

end FaultPlan

namespace Adapter
variable {L ε α : Type}

def record (plan : FaultPlan ε) (operation : Operation) (x : EStateM ε L α) :
    EStateM ε (Recorded L) α := fun r =>
  let operations := r.operations ++ [operation]
  match plan operations.length with
  | some fault => .error fault { r with operations }
  | none =>
    match x r.line with
    | .ok a line => .ok a ⟨line, operations⟩
    | .error fault line => .error fault ⟨line, operations⟩

def recorded (a : Adapter L ε) (plan : FaultPlan ε) : Adapter (Recorded L) ε where
  turn direction := record plan (.act (.turn direction)) (a.turn direction)
  pullLow := record plan (.act .pullLow) a.pullLow
  release := record plan (.act .release) a.release
  sample := record plan .sample a.sample
  wait us := record plan (.act (.wait us)) (a.wait us)

theorem act_recorded (a : Adapter L ε) (plan : FaultPlan ε) (action : Action) :
    (a.recorded plan).act action = record plan (.act action) (a.act action) := by
  cases action <;> rfl

end Adapter

section ShortCircuits
variable {L ε α β R S : Type}

/-- `run` goes by a plan of faults as it goes without faults, up to the first operation that fails,
and then stops with what that operation reported. `line` and `fault` read an end of it. -/
structure ShortCircuits (line : R → Recorded L) (fault : R → Option ε)
    (run : FaultPlan ε → Recorded L → R) : Prop where
  grows : ∀ r, r.operations <+: (line (run .never r)).operations
  spared : ∀ plan r,
    plan.Spares r.operations.length (line (run .never r)).operations.length →
      run plan r = run .never r
  struck : ∀ plan r n e,
    plan.Strikes r.operations.length (line (run .never r)).operations.length n e →
      fault (run plan r) = some e ∧
        (line (run plan r)).operations = (line (run .never r)).operations.take n

def stepLine : EStateM.Result ε L α → L
  | .ok _ line => line
  | .error _ line => line

def stepFault : EStateM.Result ε L α → Option ε
  | .ok _ _ => none
  | .error fault _ => some fault

abbrev ShortStep (x : FaultPlan ε → EStateM ε (Recorded L) α) : Prop :=
  ShortCircuits stepLine stepFault x

variable {line : R → Recorded L} {fault : R → Option ε}

theorem stepFault_eq_some {result : EStateM.Result ε L α} {e : ε}
    (h : stepFault result = some e) : result = .error e (stepLine result) := by
  cases result with
  | ok a line => cases h
  | error fault line =>
    cases h
    rfl

theorem shortCircuits_const {rest : Recorded L → R} (h : ∀ r, line (rest r) = r) :
    ShortCircuits line fault fun _ r => rest r := by
  refine ⟨fun r => ?_, fun _ _ _ => rfl, fun plan r n e hs => ?_⟩
  · simp [h]
  · have hle : n ≤ (line (rest r)).operations.length := hs.le_last
    rw [h] at hle
    exact absurd hs.first_lt (Nat.not_lt.2 hle)

theorem ShortCircuits.map {line' : S → Recorded L} {fault' : S → Option ε}
    {run : FaultPlan ε → Recorded L → R} (h : ShortCircuits line fault run) (f : R → S)
    (hline : ∀ o, line' (f o) = line o)
    (hfault : ∀ o e, fault o = some e → fault' (f o) = some e) :
    ShortCircuits line' fault' fun plan r => f (run plan r) := by
  refine ⟨fun r => ?_, fun plan r hp => ?_, fun plan r n e hs => ?_⟩
  · rw [hline]
    exact h.grows r
  · rw [hline] at hp
    rw [h.spared plan r hp]
  · rw [hline] at hs
    obtain ⟨hf, ho⟩ := h.struck plan r n e hs
    rw [hline, hline]
    exact ⟨hfault _ e hf, ho⟩

theorem ShortCircuits.seq {x : FaultPlan ε → EStateM ε (Recorded L) α}
    {run : FaultPlan ε → Recorded L → R} {next : α → FaultPlan ε → Recorded L → R}
    (hx : ShortStep x) (hnext : ∀ a, ShortCircuits line fault (next a))
    (stop : ε → Recorded L → R) (hstop : ∀ e r, fault (stop e r) = some e ∧ line (stop e r) = r)
    (hok : ∀ plan r a later, x plan r = .ok a later → run plan r = next a plan later)
    (herror : ∀ plan r e later, x plan r = .error e later → run plan r = stop e later) :
    ShortCircuits line fault run := by
  have hgrow (r : Recorded L) : (stepLine (x .never r)).operations <+:
      (line (run .never r)).operations := by
    cases hfree : x .never r with
    | ok a later =>
      rw [hok _ _ _ _ hfree]
      exact (hnext a).grows later
    | error e later =>
      rw [herror _ _ _ _ hfree, (hstop e later).2]
      exact List.prefix_refl _
  refine ⟨fun r => (hx.grows r).trans (hgrow r), fun plan r hp => ?_, fun plan r n e hs => ?_⟩
  · have hlen := (hx.grows r).length_le
    have hstep := hx.spared plan r (hp.left (hgrow r).length_le)
    cases hfree : x .never r with
    | ok a later =>
      rw [hfree] at hlen hstep
      rw [hok _ _ _ _ hfree] at hp ⊢
      rw [hok _ _ _ _ hstep]
      exact (hnext a).spared plan later (hp.right hlen)
    | error e later =>
      rw [hfree] at hstep
      rw [herror _ _ _ _ hfree, herror _ _ _ _ hstep]
  · rcases hs.left_or_right (hx.grows r).length_le with hleft | ⟨hp, hright⟩
    · -- the step is struck, and stops the whole at what it has recorded
      obtain ⟨hf, ho⟩ := hx.struck plan r n e hleft
      obtain ⟨more, hmore⟩ := hgrow r
      rw [herror _ _ _ _ (stepFault_eq_some hf), ← hmore,
        List.take_append_of_le_length hleft.le_last, (hstop e _).2, ← ho]
      exact ⟨(hstop e _).1, rfl⟩
    · have hstep := hx.spared plan r hp
      cases hfree : x .never r with
      | ok a later =>
        rw [hfree] at hstep
        rw [hok _ _ _ _ hfree, hfree] at hright
        rw [hok _ _ _ _ hfree, hok _ _ _ _ hstep]
        exact (hnext a).struck plan later n e hright
      | error e' later =>
        -- a step that fails by itself ends the record, and nothing can be struck after it
        rw [herror _ _ _ _ hfree, hfree, (hstop e' later).2] at hright
        exact absurd hright.first_lt (Nat.not_lt.2 hright.le_last)

theorem shortStep_pure (a : α) : ShortStep fun _ => (pure a : EStateM ε (Recorded L) α) :=
  shortCircuits_const fun _ => rfl

theorem ShortCircuits.bind {x : FaultPlan ε → EStateM ε (Recorded L) α}
    {f : α → FaultPlan ε → EStateM ε (Recorded L) β} (hx : ShortStep x)
    (hf : ∀ a, ShortStep (f a)) : ShortStep fun plan => x plan >>= fun a => f a plan :=
  hx.seq hf .error (fun _ _ => ⟨rfl, rfl⟩)
    (fun plan r a later h => by simp only [Bind.bind, EStateM.bind, h])
    (fun plan r e later h => by simp only [Bind.bind, EStateM.bind, h])

theorem shortStep_record (operation : Operation) (x : EStateM ε L α) :
    ShortStep fun plan => Adapter.record plan operation x := by
  have hfree (r : Recorded L) : (stepLine (Adapter.record .never operation x r)).operations =
      r.operations ++ [operation] := by
    unfold Adapter.record FaultPlan.never
    cases x r.line <;> rfl
  refine ⟨fun r => ?_, fun plan r hp => ?_, fun plan r n e hs => ?_⟩
  · rw [hfree]
    exact List.prefix_append _ _
  · rw [hfree, List.length_append, List.length_singleton] at hp
    have hnone := hp (r.operations.length + 1) (Nat.lt_succ_self _) (Nat.le_refl _)
    simp only [Adapter.record, List.length_append, List.length_singleton, hnone, FaultPlan.never]
  · rw [hfree] at hs ⊢
    have hlt := hs.first_lt
    have hle := hs.le_last
    rw [List.length_append, List.length_singleton] at hle
    obtain rfl : n = r.operations.length + 1 := by omega
    have hlen : (r.operations ++ [operation]).length = r.operations.length + 1 := by simp
    rw [← hlen, List.take_length]
    simp only [Adapter.record, hlen, hs.fails]
    exact ⟨rfl, rfl⟩

variable (a : Adapter L ε)

theorem shortStep_perform (actions : List Action) :
    ShortStep fun plan => (a.recorded plan).perform actions := by
  induction actions with
  | nil => exact shortStep_pure ()
  | cons action rest ih =>
    have hact : ShortStep fun plan => (a.recorded plan).act action := by
      simpa only [Adapter.act_recorded] using shortStep_record (.act action) (a.act action)
    exact hact.bind fun _ => ih

theorem shortStep_observe (w : Window) : ShortStep fun plan => (a.recorded plan).observe w := by
  apply (shortStep_perform a w.before).bind
  intro _
  apply (shortStep_record .sample a.sample).bind
  intro level
  exact (shortStep_perform a w.after).bind fun _ => shortStep_pure level

end ShortCircuits

section Run
variable {L ε α σ : Type}

def Master.recorded (m : Master L ε) (plan : FaultPlan ε) : Master (Recorded L) ε :=
  ⟨m.adapter.recorded plan, m.schedule⟩

/-- What a run does to the line and the timer, in order. -/
def Master.operations (m : Master L ε) (t : Transaction σ α) (kept : σ) (line : L) :
    List Operation := ((m.recorded .never).run t kept ⟨line, []⟩).line.operations

/-- What the line or the timer reported, if that ended the run. -/
def Outcome.fault {ρ : Type} (o : Outcome L σ (Except (BusError ε) ρ)) : Option ε :=
  match o.result with
  | .error (.failed fault) => some fault
  | _ => none

theorem Outcome.result_of_fault {ρ : Type} {o : Outcome L σ (Except (BusError ε) ρ)} {e : ε}
    (h : o.fault = some e) : o.result = .error (.failed e) := by
  unfold Outcome.fault at h
  split at h
  · rename_i he
    cases h
    exact he
  · cases h

theorem Outcome.fault_eq_some_iff {ρ : Type} {o : Outcome L σ (Except (BusError ε) ρ)} {e : ε} :
    o.fault = some e ↔ o.result = .error (.failed e) := by
  refine ⟨Outcome.result_of_fault, fun h => ?_⟩
  rw [Outcome.fault, h]

theorem Outcome.fault_eq_none_iff {ρ : Type} {o : Outcome L σ (Except (BusError ε) ρ)} :
    o.fault = none ↔ ∀ e, o.result ≠ .error (.failed e) := by
  simp only [Option.eq_none_iff_forall_ne_some, ne_eq, Outcome.fault_eq_some_iff]

theorem shortCircuits_run (m : Master L ε) (x : Exchange σ α) :
    ShortCircuits Outcome.line Outcome.fault fun plan => x.run (m.recorded plan).slots := by
  have hreset : ShortStep fun plan => (m.recorded plan).slots.reset :=
    (shortStep_observe m.adapter m.schedule.resetWindow).bind fun level => shortStep_pure (!level)
  have hwrite (bit : Bool) : ShortStep fun plan => (m.recorded plan).slots.write bit :=
    shortStep_perform m.adapter (m.schedule.writeActions bit)
  have hread : ShortStep fun plan => (m.recorded plan).slots.read :=
    shortStep_observe m.adapter m.schedule.readWindow
  have hstop (kept : σ) (e : ε) (r : Recorded L) :
      (⟨r, kept, [], .error (.failed e)⟩ :
        Outcome (Recorded L) σ (Except (BusError ε) α)).fault = some e ∧ r = r := ⟨rfl, rfl⟩
  induction x with
  | done kept result => exact shortCircuits_const fun _ => rfl
  | reset kept next ih =>
    exact hreset.seq ih (fun e r => ⟨r, kept, [], .error (.failed e)⟩) (hstop kept)
      (fun plan r present later h => by rw [Exchange.run, h])
      (fun plan r e later h => by rw [Exchange.run, h])
  | write bit kept next ih =>
    exact (hwrite bit).seq (fun _ => ih) (fun e r => ⟨r, kept, [], .error (.failed e)⟩) (hstop kept)
      (fun plan r _ later h => by rw [Exchange.run, h])
      (fun plan r e later h => by rw [Exchange.run, h])
  | read kept next ih =>
    exact hread.seq ih (fun e r => ⟨r, kept, [], .error (.failed e)⟩) (hstop kept)
      (fun plan r level later h => by rw [Exchange.run, h])
      (fun plan r e later h => by rw [Exchange.run, h])
  | note record next ih =>
    refine ⟨ih.grows, fun plan r hp => ?_, ih.struck⟩
    simp only [Exchange.run, ih.spared plan r hp]

/-- The end of a run without the record. -/
def Outcome.stripped {ρ : Type} (o : Outcome (Recorded L) σ ρ) : Outcome L σ ρ :=
  { o with line := o.line.line }

theorem mirrors_record (operation : Operation) (x : EStateM ε L α) :
    Mirrors Recorded.line (Adapter.record .never operation x) x := by
  intro r
  simp only [Adapter.record, FaultPlan.never]
  cases x r.line <;> rfl

theorem mirrors_recorded (m : Master L ε) :
    MirrorsSlots Recorded.line (m.recorded .never).slots m.slots := by
  have hadapter : MirrorsAdapter Recorded.line (m.adapter.recorded .never) m.adapter := by
    refine ⟨fun action => ?_, mirrors_record .sample m.adapter.sample⟩
    rw [Adapter.act_recorded]
    exact mirrors_record (.act action) (m.adapter.act action)
  exact hadapter.slots m.schedule

theorem run_recorded_never (m : Master L ε) (x : Exchange σ α) (r : Recorded L) :
    (x.run (m.recorded .never).slots r).stripped = x.run m.slots r.line :=
  (mirrors_recorded m).run x r

end Run

end OneWire
