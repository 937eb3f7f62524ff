import OneWire.Proofs.Exchange.Recording

namespace OneWire

variable {L ε α β σ : Type}

def Window.operations (w : Window) : List Operation :=
  w.before.map .act ++ .sample :: w.after.map .act

/-- A step that succeeds adds these operations to the record, and one that fails some of them from
the first on. -/
def Adds (x : EStateM ε (Recorded L) α) (operations : List Operation) : Prop :=
  ∀ r, match x r with
    | .ok _ later => later.operations = r.operations ++ operations
    | .error _ later => ∃ made, made <+: operations ∧ later.operations = r.operations ++ made

theorem adds_pure (a : α) : Adds (pure a : EStateM ε (Recorded L) α) [] :=
  fun r => (List.append_nil r.operations).symm

theorem Adds.bind {x : EStateM ε (Recorded L) α} {f : α → EStateM ε (Recorded L) β}
    {first second : List Operation} (hx : Adds x first) (hf : ∀ a, Adds (f a) second) :
    Adds (x >>= f) (first ++ second) := by
  intro r
  have hr := hx r
  simp only [Bind.bind, EStateM.bind]
  cases h : x r with
  | error e later =>
    simp only [h] at hr ⊢
    obtain ⟨made, hmade, ho⟩ := hr
    exact ⟨made, hmade.trans (List.prefix_append _ _), ho⟩
  | ok a later =>
    simp only [h] at hr ⊢
    have hl := hf a later
    cases h' : f a later with
    | error e last =>
      simp only [h'] at hl ⊢
      obtain ⟨made, hmade, ho⟩ := hl
      refine ⟨first ++ made, (List.prefix_append_right_inj first).2 hmade, ?_⟩
      rw [ho, hr, List.append_assoc]
    | ok b last =>
      simp only [h'] at hl ⊢
      rw [hl, hr, List.append_assoc]

theorem adds_record (plan : FaultPlan ε) (operation : Operation) (x : EStateM ε L α) :
    Adds (Adapter.record plan operation x) [operation] := by
  intro r
  unfold Adapter.record
  dsimp only
  cases plan (r.operations ++ [operation]).length with
  | some fault => exact ⟨[operation], List.prefix_refl _, rfl⟩
  | none =>
    cases x r.line with
    | ok a line => rfl
    | error e line => exact ⟨[operation], List.prefix_refl _, rfl⟩

theorem adds_perform (a : Adapter L ε) (plan : FaultPlan ε) (actions : List Action) :
    Adds ((a.recorded plan).perform actions) (actions.map .act) := by
  induction actions with
  | nil => exact adds_pure ()
  | cons action rest ih =>
    rw [Adapter.perform, Adapter.act_recorded]
    exact (adds_record plan (.act action) (a.act action)).bind fun _ => ih

theorem adds_observe (a : Adapter L ε) (plan : FaultPlan ε) (w : Window) :
    Adds ((a.recorded plan).observe w) w.operations := by
  apply (adds_perform a plan w.before).bind
  intro _
  refine (adds_record plan .sample a.sample).bind fun level => ?_
  rw [← List.append_nil (w.after.map Operation.act)]
  exact (adds_perform a plan w.after).bind fun _ => adds_pure level

section Slots
variable (m : Master L ε) (plan : FaultPlan ε)

theorem adds_reset : Adds (m.recorded plan).slots.reset m.schedule.resetWindow.operations := by
  rw [← List.append_nil m.schedule.resetWindow.operations]
  exact (adds_observe m.adapter plan m.schedule.resetWindow).bind fun level => adds_pure (!level)

theorem adds_write (bit : Bool) :
    Adds ((m.recorded plan).slots.write bit) ((m.schedule.writeActions bit).map .act) :=
  adds_perform m.adapter plan (m.schedule.writeActions bit)

theorem adds_read : Adds (m.recorded plan).slots.read m.schedule.readWindow.operations :=
  adds_observe m.adapter plan m.schedule.readWindow

end Slots

/-- How a line has been worked so far: how it was turned last, and whether it has been pulled low
since it was last let go. -/
structure Stance where
  direction : Option Direction := none
  held : Option Bool := none
  deriving DecidableEq, Repr

namespace Stance

def idle : Stance := ⟨some .output, some false⟩

def after (s : Stance) : Operation → Stance
  | .act (.turn direction) => { s with direction := some direction }
  | .act .pullLow => { s with held := some true }
  | .act .release => { s with held := some false }
  | .act (.wait _) => s
  | .sample => s

/-- The line may be driven only while it is turned to driving, and sampled only while it is turned
to sampling and nobody holds it. -/
def Allows (s : Stance) : Operation → Prop
  | .act .pullLow => s.direction = some .output
  | .act .release => s.direction = some .output
  | .sample => s.direction = some .input ∧ s.held = some false
  | _ => True

end Stance

def Orderly : Stance → List Operation → Prop
  | _, [] => True
  | s, operation :: rest => s.Allows operation ∧ Orderly (s.after operation) rest

theorem orderly_append {s : Stance} {first second : List Operation} :
    Orderly s (first ++ second) ↔ Orderly s first ∧ Orderly (first.foldl Stance.after s) second := by
  induction first generalizing s with
  | nil => simp [Orderly]
  | cons operation first ih => simp only [List.cons_append, Orderly, ih, List.foldl_cons, and_assoc]

/-- However the line was worked before, these operations are in order and leave it idle. -/
def Idles (operations : List Operation) : Prop :=
  ∀ s, Orderly s operations ∧ operations.foldl Stance.after s = .idle

theorem idles_reset (s : Schedule) : Idles s.resetWindow.operations := fun _ =>
  ⟨⟨trivial, rfl, trivial, rfl, trivial, trivial, ⟨rfl, rfl⟩, trivial, trivial, trivial⟩, rfl⟩

theorem idles_write (s : Schedule) (bit : Bool) : Idles ((s.writeActions bit).map .act) := by
  cases bit with
  | true => exact fun _ => ⟨⟨trivial, rfl, trivial, rfl, trivial, trivial, trivial⟩, rfl⟩
  | false => exact fun _ => ⟨⟨trivial, rfl, trivial, rfl, trivial, trivial⟩, rfl⟩

theorem idles_read (s : Schedule) : Idles s.readWindow.operations := fun _ =>
  ⟨⟨trivial, rfl, trivial, rfl, trivial, trivial, ⟨rfl, rfl⟩, trivial, trivial, trivial, trivial⟩,
    rfl⟩

/-- What a run has added to the record: operations in order, which leave the line idle unless one
of them failed. -/
def Tidy (r later : Recorded L) (fault : Option ε) : Prop :=
  ∃ made, later.operations = r.operations ++ made ∧ (∀ s, Orderly s made) ∧
    (fault = none → made = [] ∨ Idles made)

theorem tidy_refl (r : Recorded L) : Tidy r r (none : Option ε) :=
  ⟨[], (List.append_nil _).symm, fun _ => trivial, fun _ => .inl rfl⟩

theorem Tidy.orderly {line : L} {later : Recorded L} {fault : Option ε}
    (h : Tidy ⟨line, []⟩ later fault) : Orderly {} later.operations := by
  obtain ⟨made, hmade, horder, -⟩ := h
  rw [hmade, List.nil_append]
  exact horder {}

theorem Adds.tidy {x : EStateM ε (Recorded L) α} {operations : List Operation}
    (hx : Adds x operations) (hi : Idles operations) (r : Recorded L) :
    match x r with
    | .ok _ later => ∀ last fault, Tidy later last (fault : Option ε) → Tidy r last fault
    | .error fault later => Tidy r later (some fault) := by
  have hr := hx r
  cases h : x r with
  | ok a later =>
    simp only [h] at hr ⊢
    rintro last fault ⟨made, hmade, horder, hidle⟩
    refine ⟨operations ++ made, by rw [hmade, hr, List.append_assoc], fun s => ?_, fun hf => ?_⟩
    · exact orderly_append.2 ⟨(hi s).1, horder _⟩
    · refine .inr fun s => ⟨orderly_append.2 ⟨(hi s).1, horder _⟩, ?_⟩
      rw [List.foldl_append, (hi s).2]
      rcases hidle hf with rfl | hidle
      · rfl
      · exact (hidle .idle).2
  | error e later =>
    simp only [h] at hr ⊢
    obtain ⟨made, ⟨missing, hmade⟩, ho⟩ := hr
    refine ⟨made, ho, fun s => ?_, nofun⟩
    have hall := (hi s).1
    rw [← hmade] at hall
    exact (orderly_append.1 hall).1

/-- Slot by slot: each is in order by itself and leaves the line idle for the next. -/
theorem tidy_run (m : Master L ε) (plan : FaultPlan ε) (x : Exchange σ α) (r : Recorded L) :
    let o := x.run (m.recorded plan).slots r
    Tidy r o.line o.fault := by
  induction x generalizing r with
  | done kept result =>
    cases result with
    | ok a => exact tidy_refl r
    | error reason => exact tidy_refl r
  | reset kept next ih =>
    have hr := (adds_reset m plan).tidy (idles_reset m.schedule) r
    rw [Exchange.run]
    cases h : (m.recorded plan).slots.reset r with
    | ok present later =>
      simp only [h] at hr
      exact hr _ _ (ih present later)
    | error e later =>
      simp only [h] at hr
      exact hr
  | write bit kept next ih =>
    have hr := (adds_write m plan bit).tidy (idles_write m.schedule bit) r
    rw [Exchange.run]
    cases h : (m.recorded plan).slots.write bit r with
    | ok _ later =>
      simp only [h] at hr
      exact hr _ _ (ih later)
    | error e later =>
      simp only [h] at hr
      exact hr
  | read kept next ih =>
    have hr := (adds_read m plan).tidy (idles_read m.schedule) r
    rw [Exchange.run]
    cases h : (m.recorded plan).slots.read r with
    | ok level later =>
      simp only [h] at hr
      exact hr _ _ (ih level later)
    | error e later =>
      simp only [h] at hr
      exact hr
  | note record next ih => exact ih r

end OneWire
