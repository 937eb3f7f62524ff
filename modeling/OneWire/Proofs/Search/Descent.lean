import OneWire.Proofs.RomCode.Tree
import OneWire.Proofs.RomCode.Word
import OneWire.Proofs.SlotLine.Transfer
import OneWire.Search.Basic

namespace OneWire

namespace Device

/-- A device that compares its code with `r` and has come to position `k`. It is addressed once all
of its code agrees. -/
def following (onward : Fin 64 → Phase) (r : RomCode) (k : Nat) (d : Device) : Device :=
  if d.code.Agrees k r then
    if h : k < 64 then { d with phase := onward ⟨k, h⟩ } else d.select
  else { d with phase := .idle }

def searching (r : RomCode) (k : Nat) (turn : SearchTurn) (d : Device) : Device :=
  d.following (.search · turn) r k

variable {d : Device} {r : RomCode}

theorem answer_searching_direct (p : Fin 64) : (d.searching r p .direct).answer =
    (decide (d.code.Agrees p r → d.code.bit p = true), d.searching r p .complement) := by
  by_cases h : d.code.Agrees p r <;> simp [searching, following, answer, h]

theorem answer_searching_complement (p : Fin 64) : (d.searching r p .complement).answer =
    (decide (d.code.Agrees p r → d.code.bit p = false), d.searching r p .choice) := by
  by_cases h : d.code.Agrees p r <;> simp [searching, following, answer, h]

theorem agree_following (phase : Phase) {onward : Fin 64 → Phase} {p : Fin 64}
    (h : d.code.Agrees p r) :
    ({ d with phase } : Device).agree p (r.bit p) onward = d.following onward r (p.val + 1) := by
  by_cases hb : d.code.bit p = r.bit p
  · by_cases hp : p.val + 1 < 64
    · simp [following, agree, after, RomCode.agrees_succ, h, hb, hp]
    · simp [following, agree, after, select, RomCode.agrees_succ, h, hb, hp]
  · simp [following, agree, RomCode.agrees_succ, h, hb, Ne.symm hb]

theorem hear_searching (p : Fin 64) :
    (d.searching r p .choice).hear (r.bit p) = d.searching r (p.val + 1) .direct := by
  by_cases h : d.code.Agrees p r
  · rw [searching, searching, ← agree_following (.search p .choice) h]
    simp [following, hear, h]
  · simp [searching, following, hear, RomCode.agrees_succ, h]

end Device

namespace SlotLine
variable {r : RomCode} {ds : List Device} {written : Array Bool}

theorem read_map {f g : Device → Device} {heard : RomCode → Prop} [DecidablePred heard]
    (h : ∀ d, (f d).answer = (decide (heard d.code), g d)) :
    read true ⟨ds.map f, written⟩ =
      (decide (∀ a ∈ ds.map Device.code, heard a), ⟨ds.map g, written⟩) := by
  have hl : (ds.all fun d => decide (heard d.code)) =
      decide (∀ a ∈ ds.map Device.code, heard a) := by
    rw [Bool.eq_iff_iff]
    simp
  simp only [read, answerAll_eq, List.all_map, List.map_map, Function.comp_def, h, hl,
    Bool.not_true, Bool.or_false]

theorem read_direct (p : Fin 64) :
    read true ⟨ds.map (·.searching r p .direct), written⟩ =
      (decide (∀ a ∈ ds.map (·.code), a.Agrees p r → a.bit p = true),
        ⟨ds.map (·.searching r p .complement), written⟩) :=
  read_map fun _ => Device.answer_searching_direct p

theorem read_complement (p : Fin 64) :
    read true ⟨ds.map (·.searching r p .complement), written⟩ =
      (decide (∀ a ∈ ds.map (·.code), a.Agrees p r → a.bit p = false),
        ⟨ds.map (·.searching r p .choice), written⟩) :=
  read_map fun _ => Device.answer_searching_complement p

theorem write_choice (p : Fin 64) :
    write ⟨ds.map (·.searching r p .choice), written⟩ (r.bit p) =
      ⟨ds.map (·.searching r (p.val + 1) .direct), written.push (r.bit p)⟩ := by
  simp [write, Device.hear_searching, Function.comp_def]

end SlotLine

namespace Search
open RomCode (forks WalkEnds)

variable {codes : List RomCode} {r : RomCode} {s : Search}

/-- The bookkeeping at one position on the way to `r`. -/
def track (codes : List RomCode) (r : RomCode) (s : Search) (p : Fin 64) : Search :=
  if p ∈ forks codes r then s.takeLow p else s

/-- The bookkeeping of a whole pass to `r`. -/
def marked (s : Search) (codes : List RomCode) (r : RomCode) : Search := { s with
  deepestLow := (forks codes r).getLast?.map (·.val)
  lowBranches := (forks codes r).length }

@[simp] theorem choice_track (p : Fin 64) : (s.track codes r p).choice = s.choice := by
  unfold track
  split <;> rfl

theorem foldl_takeLow (low : Fin 64 → Prop) [DecidablePred low] (ps : List (Fin 64)) (s : Search) :
    ps.foldl (fun s p => if low p then s.takeLow p else s) s = { s with
      deepestLow := ((ps.filter (low ·)).getLast?.map (·.val)).or s.deepestLow
      lowBranches := s.lowBranches + (ps.filter (low ·)).length } := by
  induction ps generalizing s with
  | nil => rfl
  | cons p ps ih =>
    rw [List.foldl_cons, ih]
    by_cases hp : low p
    · simp only [hp, if_pos, takeLow, List.filter_cons, decide_true, List.getLast?_cons,
        List.length_cons, Nat.add_assoc, Nat.add_comm 1]
      cases (ps.filter (low ·)).getLast? <;> rfl
    · simp [hp]

theorem foldl_track_finRange (s : Search) :
    (List.finRange 64).foldl (track codes r) s.begin = s.marked codes r := by
  have hf : (List.finRange 64).filter (· ∈ forks codes r) = forks codes r := by
    conv_rhs => rw [forks]
    exact List.filter_congr fun p _ => by simp [RomCode.mem_forks]
  have h := foldl_takeLow (· ∈ forks codes r) (List.finRange 64) s.begin
  rw [hf] at h
  refine h.trans ?_
  simp [marked, begin]

theorem branchAt_eq (s : Search) (p : Fin 64) : branchAt p s =
    .done (if s.choice p then s else s.takeLow p) (.ok (s.choice p)) := by
  unfold branchAt
  simp only [bind, Exchange.bind, get, getThe, MonadStateOf.get]
  cases s.choice p <;> rfl

theorem resolve_eq (hw : WalkEnds s.choice codes r) (p : Fin 64) :
    resolve p (decide (∀ a ∈ codes, a.Agrees p r → a.bit p = true))
        (decide (∀ a ∈ codes, a.Agrees p r → a.bit p = false)) s =
      .done (s.track codes r p) (.ok (r.bit p)) := by
  have hr := RomCode.Agrees.refl p r
  cases hb : r.bit p with
  | true =>
    have hfork : p ∉ forks codes r := by simp [RomCode.mem_forks, hb]
    -- `r` itself holds the complement low, so two ones are never heard
    have hc : ¬ ∀ a ∈ codes, a.Agrees p r → a.bit p = false := fun h => by
      simpa [hb] using h r hw.mem hr
    rw [track, if_neg hfork, decide_eq_false hc]
    by_cases hd : ∀ a ∈ codes, a.Agrees p r → a.bit p = true
    · rw [decide_eq_true hd]
      rfl
    · rw [decide_eq_false hd]
      obtain ⟨a, ha, hagree, hbit⟩ : ∃ a ∈ codes, a.Agrees p r ∧ a.bit p ≠ true := by
        simpa using hd
      have hc := hw.bit_eq p a ha hagree (by rwa [hb])
      rw [hb] at hc
      rw [resolve, branchAt_eq, ← hc]
      rfl
  | false =>
    have hd : ¬ ∀ a ∈ codes, a.Agrees p r → a.bit p = true := fun h => by
      simpa [hb] using h r hw.mem hr
    rw [decide_eq_false hd]
    by_cases hd : ∀ a ∈ codes, a.Agrees p r → a.bit p = false
    · have hfork : p ∉ forks codes r := by
        rw [RomCode.mem_forks]
        rintro ⟨-, a, ha, hagree, hbit⟩
        simp [hd a ha hagree] at hbit
      rw [track, if_neg hfork, decide_eq_true hd]
      rfl
    · rw [decide_eq_false hd]
      obtain ⟨a, ha, hagree, hbit⟩ : ∃ a ∈ codes, a.Agrees p r ∧ a.bit p ≠ false := by
        simpa using hd
      have hfork : p ∈ forks codes r :=
        RomCode.mem_forks.2 ⟨hb, a, ha, hagree, by simpa using hbit⟩
      have hc := hw.bit_eq p a ha hagree (by rwa [hb])
      rw [hb] at hc
      rw [track, if_pos hfork, resolve, branchAt_eq, ← hc]
      rfl

section Run
variable {ε : Type} {ds : List Device} {written : Array Bool}

theorem step_eq (p : Fin 64) (s : Search) : step p s = .read s fun direct =>
    .read s fun complement => (resolve p direct complement s).bind fun s bit =>
      .write bit s (.done s (.ok bit)) := rfl

/-- One position: the devices move on with the walk, and the search keeps count of the forks. -/
theorem run_step (hw : WalkEnds s.choice (ds.map (·.code)) r) (p : Fin 64) :
    (step p s).run (SlotLine.slots (ε := ε) true) ⟨ds.map (·.searching r p .direct), written⟩ =
      ⟨⟨ds.map (·.searching r (p.val + 1) .direct), written.push (r.bit p)⟩,
        s.track (ds.map (·.code)) r p, [], .ok (r.bit p)⟩ := by
  rw [step_eq, SlotLine.run_read, SlotLine.read_direct, SlotLine.run_read,
    SlotLine.read_complement, resolve_eq hw, Exchange.bind, SlotLine.run_write,
    SlotLine.write_choice]
  rfl

theorem descend_cons (p : Fin 64) (rest : List (Fin 64)) (c : RomCode) (s : Search) :
    descend (p :: rest) c s =
      (step p s).bind fun s bit => descend rest (c.withBit p bit) s := rfl

theorem run_descend {ps : List (Fin 64)} {k : Nat} (hps : (List.finRange 64).drop k = ps)
    (c : RomCode) (written : Array Bool) (hw : WalkEnds s.choice (ds.map (·.code)) r) :
    (descend ps c s).run (SlotLine.slots (ε := ε) true)
        ⟨ds.map (·.searching r k .direct), written⟩ =
      ⟨⟨ds.map (·.searching r (k + ps.length) .direct), written ++ (ps.map r.bit).toArray⟩,
        ps.foldl (track (ds.map (·.code)) r) s, [],
        .ok (ps.foldl (fun c p => c.withBit p (r.bit p)) c)⟩ := by
  induction ps generalizing k c s written with
  | nil => simp [descend]; rfl
  | cons p ps ih =>
    -- the positions left are those from `k` on, so the first of them is `k`
    obtain ⟨rfl, hps⟩ := drop_finRange_cons hps
    rw [descend_cons, Exchange.run_bind_of_ok (run_step hw p),
      ih hps _ _ (by rwa [choice_track])]
    simp [Nat.add_assoc, Nat.add_comm 1]

end Run

end Search

end OneWire
