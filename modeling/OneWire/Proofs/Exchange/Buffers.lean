import OneWire.Addressing
import OneWire.Proofs.Exchange.Ends
import OneWire.Proofs.Exchange.Operations
import OneWire.Proofs.SlotLine.Transfer

namespace OneWire

variable {L ε α β σ : Type} {m : Master L ε}

/-- A step that succeeds takes `n` operations, and one that fails takes no more. -/
def StepLasts (x : EStateM ε (Recorded L) α) (n : Nat) : Prop :=
  ∀ r, match x r with
    | .ok _ later => later.operations.length = r.operations.length + n
    | .error _ later => later.operations.length ≤ r.operations.length + n

theorem Adds.stepLasts {x : EStateM ε (Recorded L) α} {operations : List Operation}
    (h : Adds x operations) : StepLasts x operations.length := by
  intro r
  have hr := h r
  cases hx : x r with
  | ok a later =>
    simp only [hx] at hr ⊢
    rw [hr, List.length_append]
  | error e later =>
    simp only [hx] at hr ⊢
    obtain ⟨made, hmade, ho⟩ := hr
    have := hmade.length_le
    rw [ho, List.length_append]
    omega

/-- A run that succeeds takes `n` operations, and one that does not takes no more. -/
def Lasts (m : Master L ε) (x : Exchange σ α) (n : Nat) : Prop :=
  ∀ plan r, let o := x.run (m.recorded plan).slots r
    match o.result with
    | .ok _ => o.line.operations.length = r.operations.length + n
    | .error _ => o.line.operations.length ≤ r.operations.length + n

theorem Lasts.length_le {x : Exchange σ α} {n : Nat} (h : Lasts m x n) (plan : FaultPlan ε)
    (r : Recorded L) :
    (x.run (m.recorded plan).slots r).line.operations.length ≤ r.operations.length + n := by
  have hr := h plan r
  dsimp only at hr
  split at hr
  · exact Nat.le_of_eq hr
  · exact hr

theorem Lasts.length_eq {x : Exchange σ α} {n : Nat} (h : Lasts m x n) (plan : FaultPlan ε)
    (r : Recorded L) {later : Recorded L} {kept : σ} {log : List Note} {a : α}
    (he : x.run (m.recorded plan).slots r = ⟨later, kept, log, .ok a⟩) :
    later.operations.length = r.operations.length + n := by
  have hr := h plan r
  rw [he] at hr
  exact hr

theorem Lasts.bind {x : Exchange σ α} {f : σ → α → Exchange σ β} {n k : Nat} (hx : Lasts m x n)
    (hf : ∀ kept a, Lasts m (f kept a) k) : Lasts m (x.bind f) (n + k) := by
  intro plan r
  have hr := hx plan r
  rw [Exchange.run_bind]
  rcases h : x.run (m.recorded plan).slots r with ⟨later, kept, log, e | a⟩
  · simp only [h] at hr ⊢
    omega
  · simp only [h] at hr ⊢
    have hl := hf kept a plan later
    cases h' : ((f kept a).run (m.recorded plan).slots later).result with
    | error e' =>
      simp only [h'] at hl ⊢
      omega
    | ok b =>
      simp only [h'] at hl ⊢
      omega

theorem lasts_done (kept : σ) (result : Except Refusal α) :
    Lasts m (.done kept result) 0 := by
  intro plan r
  cases result with
  | ok a => rfl
  | error reason => exact Nat.le_refl _

open Transaction

theorem lasts_presence (kept : σ) : Lasts m (presence kept) 9 := by
  intro plan r
  have hstep : StepLasts (m.recorded plan).slots.reset 9 := (adds_reset m plan).stepLasts
  have hr := hstep r
  rw [presence, Exchange.run]
  cases h : (m.recorded plan).slots.reset r with
  | ok present later => rwa [h] at hr
  | error e later => rwa [h] at hr

theorem lasts_sendBit (bit : Bool) (kept : σ) :
    Lasts m (sendBit bit kept) (m.schedule.writeActions bit).length := by
  intro plan r
  have hr := (adds_write m plan bit).stepLasts r
  rw [List.length_map] at hr
  rw [sendBit, Exchange.run]
  cases h : (m.recorded plan).slots.write bit r with
  | ok _ later => rwa [h] at hr
  | error e later => rwa [h] at hr

theorem lasts_receiveBit (kept : σ) : Lasts m (receiveBit kept) 10 := by
  intro plan r
  have hstep : StepLasts (m.recorded plan).slots.read 10 := (adds_read m plan).stepLasts
  have hr := hstep r
  rw [receiveBit, Exchange.run]
  cases h : (m.recorded plan).slots.read r with
  | ok level later => rwa [h] at hr
  | error e later => rwa [h] at hr

theorem lasts_reset (kept : σ) : Lasts m (Transaction.reset kept) 9 := by
  apply (lasts_presence kept).bind (k := 0)
  intro kept present
  cases present with
  | true => exact lasts_done kept (.ok ())
  | false =>
    intro plan r
    exact Nat.le_refl _

theorem lasts_sendBits (bits : List Bool) (kept : σ) :
    Lasts m (bits.forM sendBit kept : Exchange σ Unit)
      (bits.flatMap m.schedule.writeActions).length := by
  induction bits generalizing kept with
  | nil => exact lasts_done kept (.ok ())
  | cons bit bits ih =>
    rw [List.flatMap_cons, List.length_append]
    exact (lasts_sendBit bit kept).bind fun kept _ => ih kept

theorem lasts_receiveBits (n : Nat) (kept : σ) : Lasts m (receiveBits n kept) (10 * n) := by
  induction n generalizing kept with
  | zero => exact lasts_done kept (.ok [])
  | succ n ih =>
    rw [Nat.mul_succ, Nat.add_comm (10 * n)]
    apply (lasts_receiveBit kept).bind
    intro kept bit
    exact (ih kept).bind fun kept rest => lasts_done kept (.ok (bit :: rest))

theorem lasts_receiveByte (kept : σ) : Lasts m (receiveByte kept) 80 :=
  (lasts_receiveBits 8 kept).bind fun kept bits => lasts_done kept (.ok (byteOf bits))

theorem Exchange.Ends.kept {x : Exchange σ α} {P : σ → Prop} (h : x.Ends P fun _ => P)
    (slots : Slots L ε) (line : L) : P (x.run slots line).kept := by
  rcases h.run slots line with ⟨a, -, hp⟩ | ⟨-, hp⟩
  · exact hp
  · exact hp

/-- A failure strikes either the first part of a sequence or, once that has succeeded, the rest. -/
theorem run_bind_struck {x : Exchange σ α} {f : σ → α → Exchange σ β} {r : Recorded L}
    {plan : FaultPlan ε} {n : Nat} {e : ε} (hs : plan.Strikes r.operations.length
      ((x.bind f).run (m.recorded .never).slots r).line.operations.length n e) :
    (n ≤ (x.run (m.recorded .never).slots r).line.operations.length ∧
      ((x.bind f).run (m.recorded plan).slots r).kept = (x.run (m.recorded plan).slots r).kept) ∨
    ∃ later kept log a, x.run (m.recorded .never).slots r = ⟨later, kept, log, .ok a⟩ ∧
      x.run (m.recorded plan).slots r = ⟨later, kept, log, .ok a⟩ ∧
      plan.Strikes later.operations.length
        ((f kept a).run (m.recorded .never).slots later).line.operations.length n e := by
  have hx := shortCircuits_run m x
  rcases hs.left_or_right (hx.grows r).length_le with hleft | ⟨hp, hright⟩
  · have hfault := Outcome.result_of_fault (hx.struck plan r n e hleft).1
    refine .inl ⟨hleft.le_last, ?_⟩
    rcases h : x.run (m.recorded plan).slots r with ⟨cut, kept, log, result⟩
    rw [h] at hfault
    cases hfault
    rw [Exchange.run_bind_of_error h]
  · have hsame := hx.spared plan r hp
    rcases h : x.run (m.recorded .never).slots r with ⟨later, kept, log, fault | a⟩
    · -- a run that ends by itself leaves nothing to be struck
      rw [Exchange.run_bind_of_error h, h] at hright
      exact absurd hright.first_lt (Nat.not_lt.2 hright.le_last)
    · rw [Exchange.run_bind_of_ok h, h] at hright
      exact .inr ⟨later, kept, log, a, rfl, hsame.trans h, hright⟩

section Fill
variable {size : Nat}

theorem ends_receiveByte {P : σ → Prop} {kept : σ} (h : P kept) :
    (receiveByte kept).Ends P fun _ later => later = kept := by
  have hbits (n : Nat) : (receiveBits n kept).Ends P fun _ later => later = kept := by
    induction n with
    | zero => rfl
    | succ n ih =>
      refine ⟨h, fun bit => ?_⟩
      apply ih.bind
      rintro rest _ rfl
      rfl
  apply (hbits 8).bind
  rintro bits _ rfl
  rfl

def fill (indices : List (Fin size)) : Transaction (Vector UInt8 size) Unit :=
  indices.forM fun i => do
    let b ← receiveByte
    modify (·.set i b i.isLt)

theorem fill_cons (i : Fin size) (rest : List (Fin size)) (buffer : Vector UInt8 size) :
    fill (i :: rest) buffer =
      (receiveByte buffer).bind fun buffer b => fill rest (buffer.set i b i.isLt) :=
  Exchange.bind_assoc _ _ _

theorem receive_eq_fill (h : size ≠ 0) : receive (n := size) = fill (List.finRange size) :=
  if_neg h

theorem ends_fill {indices : List (Fin size)} {j : Fin size} {old : UInt8} (hj : j ∉ indices)
    {buffer : Vector UInt8 size} (h : buffer.get j = old) :
    (fill indices buffer).Ends (fun later => later.get j = old)
      fun _ later => later.get j = old := by
  induction indices generalizing buffer with
  | nil => exact h
  | cons i rest ih =>
    rw [fill_cons]
    apply (ends_receiveByte (P := fun later : Vector UInt8 size => later.get j = old) h).bind
    rintro b _ rfl
    have hij : i.val ≠ j.val := by
      intro he
      exact hj (List.mem_cons.2 (.inl (Fin.ext he.symm)))
    apply ih (fun hm => hj (List.mem_cons_of_mem _ hm))
    exact (Vector.getElem_set_ne _ _ hij).trans h

/-- A byte is stored before the failure if all its eighty operations come before it. -/
theorem kept_fill {base k : Nat} {indices : List (Fin size)}
    (hi : (List.finRange size).drop k = indices) {buffer : Vector UInt8 size}
    {r : Recorded L} (hr : r.operations.length = base + 80 * k) {plan : FaultPlan ε} {n : Nat}
    {e : ε} (hs : plan.Strikes r.operations.length
      ((fill indices buffer).run (m.recorded .never).slots r).line.operations.length n e)
    (j : Fin size) :
    ((fill indices buffer).run (m.recorded plan).slots r).kept.get j =
      if base + 80 * (j.val + 1) < n then
        ((fill indices buffer).run (m.recorded .never).slots r).kept.get j else buffer.get j := by
  induction indices generalizing k buffer r with
  | nil => exact absurd hs.first_lt (Nat.not_lt.2 hs.le_last)
  | cons i rest ih =>
    obtain ⟨his, hrest⟩ := drop_finRange_cons hi
    have hbyte : (receiveByte buffer).Ends (· = buffer) fun _ later => later = buffer :=
      ends_receiveByte rfl
    rw [fill_cons] at hs
    have hlasts : Lasts m (receiveByte buffer) 80 := lasts_receiveByte buffer
    rcases run_bind_struck hs with ⟨hn, hkept⟩ | ⟨later, kept, log, b, hfree, hsame, hafter⟩
    · -- the failure comes before the first of these bytes is in, so none of them is stored
      have hlen := hlasts.length_le .never r
      rw [hbyte.kept] at hkept
      rw [fill_cons, hkept]
      split
      · have hj : j ∉ i :: rest := by
          rw [← hi]
          intro hm
          obtain ⟨t, ht, he⟩ := List.mem_drop_iff_getElem.1 hm
          have := congrArg Fin.val he
          simp only [List.getElem_finRange, Fin.val_cast] at this
          omega
        rw [← fill_cons]
        exact ((ends_fill hj rfl).kept _ _).symm
      · rfl
    · have hlen := hlasts.length_eq .never r hfree
      have hb := hbyte.kept (m.recorded .never).slots r
      rw [hfree] at hb
      dsimp only at hb
      subst hb
      rw [fill_cons, Exchange.run_bind_of_ok hfree, Exchange.run_bind_of_ok hsame]
      have := ih hrest (by omega) hafter
      dsimp only
      rw [this]
      split
      · rfl
      · rename_i hlt
        have hij : i.val ≠ j.val := by
          intro he
          have := hafter.first_lt
          omega
        exact Vector.getElem_set_ne _ _ hij

theorem readCode_eq (c : RomCode) : readCode c =
    ((Transaction.reset c).bind fun c _ => sendByte RomCommand.readRom.code c).bind
      fun c _ => (receive c.bytes).mapKept RomCode.mk :=
  (Exchange.bind_assoc _ _ _).symm

theorem kept_readCode {c : RomCode} {r : Recorded L} {plan : FaultPlan ε} {n : Nat} {e : ε}
    (hs : plan.Strikes r.operations.length
      ((readCode c).run (m.recorded .never).slots r).line.operations.length n e) (j : Fin 8) :
    ((readCode c).run (m.recorded plan).slots r).kept.bytes.get j =
      if r.operations.length + 53 + 80 * (j.val + 1) < n then
        ((readCode c).run (m.recorded .never).slots r).kept.bytes.get j else c.bytes.get j := by
  have hask :
      Lasts m ((Transaction.reset c).bind fun c _ => sendByte RomCommand.readRom.code c) 53 :=
    (lasts_reset c).bind fun c _ => lasts_sendBits _ c
  have hstays : ((Transaction.reset c).bind fun c _ => sendByte RomCommand.readRom.code c).Ends
      (· = c) fun _ later => later = c := by
    apply (ends_reset (P := (· = c)) rfl).bind
    intro _ kept hk
    rw [hk]
    exact ends_sendByte rfl RomCommand.readRom.code
  rw [readCode_eq] at hs ⊢
  rcases run_bind_struck hs with ⟨hn, hkept⟩ | ⟨later, kept, log, _, hfree, hsame, hafter⟩
  · have hlen := hask.length_le .never r
    rw [hkept, hstays.kept, if_neg (by omega)]
  · have hlen := hask.length_eq .never r hfree
    have hc := hstays.kept (m.recorded .never).slots r
    rw [hfree] at hc
    dsimp only at hc
    subst hc
    rw [Exchange.run_bind_of_ok hfree, Exchange.run_bind_of_ok hsame]
    dsimp only
    rw [Exchange.run_mapKept, Exchange.run_mapKept]
    rw [Exchange.run_mapKept, receive_eq_fill (by decide)] at hafter
    rw [receive_eq_fill (by decide)]
    exact kept_fill (k := 0) rfl (by omega) hafter j

end Fill

end OneWire
