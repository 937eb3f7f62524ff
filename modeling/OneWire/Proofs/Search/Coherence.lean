import Mathlib.Logic.Function.Basic
import OneWire.Proofs.Exchange.FirstFailure
import OneWire.Proofs.Search.Place

namespace OneWire.Search

open Transaction

variable {s t : Search} {c : RomCode} {k : Nat} {p : Fin 64} {ps : List (Fin 64)}

/-- The count of low branches and the deepest of them fit. -/
structure Counted (s : Search) : Prop where
  lowBranches_le : s.lowBranches ≤ 64
  deepestLow_eq_none_iff : s.deepestLow = none ↔ s.lowBranches = 0
  deepestLow_lt : ∀ b, s.deepestLow = some b → b < 64

/-- The counts of a pass that has come to position `k`, with the bits of `c` above. -/
structure CountedTo (k : Nat) (c : RomCode) (s : Search) : Prop where
  lowBranches_le : s.lowBranches ≤ k
  deepestLow_eq_none_iff : s.deepestLow = none ↔ s.lowBranches = 0
  deepestLow_eq_some : ∀ b, s.deepestLow = some b →
    b < k ∧ ∃ p : Fin 64, p.val = b ∧ c.bit p = false

theorem CountedTo.counted (h : CountedTo k c s) (hk : k ≤ 64) : s.Counted :=
  ⟨h.lowBranches_le.trans hk, h.deepestLow_eq_none_iff,
    fun b hb => (h.deepestLow_eq_some b hb).1.trans_le hk⟩

theorem countedTo_begin (s : Search) : CountedTo 0 .zero s.begin :=
  ⟨Nat.le_refl 0, iff_of_true rfl rfl, nofun⟩

theorem CountedTo.withBit (h : CountedTo p c s) (bit : Bool) :
    CountedTo (p.val + 1) (c.withBit p bit) s := by
  refine ⟨Nat.le_succ_of_le h.lowBranches_le, h.deepestLow_eq_none_iff, fun b hb => ?_⟩
  obtain ⟨hlt, q, hq, hbit⟩ := h.deepestLow_eq_some b hb
  have hne : p ≠ q := by
    rintro rfl
    exact Nat.ne_of_lt hlt hq.symm
  exact ⟨Nat.lt_succ_of_lt hlt, q, hq, by rw [RomCode.bit_withBit, if_neg hne, hbit]⟩

theorem CountedTo.takeLow (h : CountedTo p c s) :
    CountedTo (p.val + 1) (c.withBit p false) (s.takeLow p) := by
  refine ⟨Nat.succ_le_succ h.lowBranches_le, iff_of_false nofun (Nat.succ_ne_zero _), ?_⟩
  rintro b hb
  obtain rfl : p.val = b := Option.some.inj hb
  exact ⟨Nat.lt_succ_self _, p, rfl, by rw [RomCode.bit_withBit, if_pos rfl]⟩

theorem ends_resolve_counted (h : CountedTo p c t) (direct complement : Bool) :
    (resolve p direct complement t).Ends Counted
      fun bit u => CountedTo (p.val + 1) (c.withBit p bit) u := by
  cases direct with
  | true =>
    cases complement with
    | true => exact h.counted (Nat.le_of_lt p.isLt)
    | false => exact h.withBit true
  | false =>
    cases complement with
    | true => exact h.withBit false
    | false =>
      rw [resolve, branchAt_eq]
      cases t.choice p with
      | true => exact h.withBit true
      | false => exact h.takeLow

theorem ends_step_counted (h : CountedTo p c t) :
    (step p t).Ends Counted fun bit u => CountedTo (p.val + 1) (c.withBit p bit) u := by
  have hc := h.counted (Nat.le_of_lt p.isLt)
  rw [step_eq]
  refine ⟨hc, fun direct => ⟨hc, fun complement => ?_⟩⟩
  apply (ends_resolve_counted h direct complement).bind
  intro bit kept hk
  -- a low branch that was counted shows in the slot that writes its bit
  exact ⟨hk.counted p.isLt, hk⟩

theorem ends_descend_counted (hps : (List.finRange 64).drop k = ps) (h : CountedTo k c t)
    (hk : k ≤ 64) : (descend ps c t).Ends Counted fun c u => CountedTo 64 c u := by
  induction ps generalizing k c t with
  | nil =>
    obtain rfl : k = 64 := Nat.le_antisymm hk (by simpa using hps)
    exact h
  | cons p ps ih =>
    obtain ⟨rfl, hps⟩ := drop_finRange_cons hps
    rw [descend_cons]
    apply (ends_step_counted h).bind
    intro bit kept hkept
    exact ih hps hkept p.isLt

/-- What the state of a search is between calls, and wherever a call is cut short. -/
structure Coherent (s : Search) : Prop extends Counted s where
  of_finished : s.finished = true → s.branch = none ∧ s.deepestLow = none ∧ s.lowBranches = 0
  of_branch : ∀ b, s.branch = some b → s.finished = false ∧ s.lastCode.Valid ∧
    s.lastCode ≠ .zero ∧ ∃ p : Fin 64, p.val = b ∧ s.lastCode.bit p = false
  of_unbegun : s.finished = false → s.branch = none → s.lastCode = .zero

theorem coherent_new : Coherent {} :=
  ⟨⟨Nat.zero_le _, iff_of_true rfl rfl, nofun⟩, nofun, nofun, fun _ _ => rfl⟩

theorem Coherent.of_samePlace (hs : s.Coherent) (hu : s.finished = false) (h : SamePlace s t)
    (hc : t.Counted) : t.Coherent := by
  refine ⟨hc, fun hf => ?_, fun b hb => ?_, fun _ hb => ?_⟩
  · rw [h.finished, hu] at hf
    cases hf
  · rw [h.branch] at hb
    rw [h.finished, h.lastCode]
    exact hs.of_branch b hb
  · rw [h.branch] at hb
    rw [h.lastCode]
    exact hs.of_unbegun hu hb

/-- The deepest low branch of the pass that found `c` is the branch point of the next one. -/
theorem CountedTo.coherent_found (h : CountedTo 64 c t) (ha : c.Acceptable) :
    (t.found c).Coherent := by
  have hfinished : (t.found c).finished = true ↔ t.lowBranches = 0 := beq_iff_eq
  refine ⟨⟨h.lowBranches_le, h.deepestLow_eq_none_iff, (h.counted (Nat.le_refl 64)).deepestLow_lt⟩,
    fun hf => ?_, fun b hb => ?_, fun hf hb => ?_⟩
  · have hzero := hfinished.1 hf
    have hnone := h.deepestLow_eq_none_iff.2 hzero
    exact ⟨hnone, hnone, hzero⟩
  · refine ⟨?_, ha.2, ha.1, (h.deepestLow_eq_some b hb).2⟩
    rw [← Bool.not_eq_true, hfinished, ← h.deepestLow_eq_none_iff]
    intro hnone
    cases hb.symm.trans hnone
  · rw [hfinished.2 (h.deepestLow_eq_none_iff.1 hb)] at hf
    cases hf

theorem ends_pass_coherent (hs : s.Coherent) (hu : s.finished = false) :
    (pass s).Ends Coherent fun c u => u.Coherent ∧ c.Acceptable ∧ u.lastCode = c := by
  rw [pass_eq]
  apply (ends_reset hs).bind
  rintro _ kept rfl
  apply (ends_sendByte hs _).bind
  rintro _ kept rfl
  have hdescend := (ends_descend (samePlace_begin kept) (List.finRange 64) .zero).and
    (ends_descend_counted rfl (countedTo_begin kept) (Nat.zero_le 64))
  apply (hdescend.mono (fun u h => hs.of_samePlace hu h.1 h.2) fun _ _ h => h).bind
  intro c u h
  rw [accept_eq]
  change (Exchange.done _ (given c)).Ends Coherent _
  unfold given
  by_cases ha : c.Acceptable
  · rw [if_pos ha, if_pos ha]
    exact ⟨h.2.coherent_found ha, ha, rfl⟩
  · rw [if_neg ha, if_neg ha]
    exact hs.of_samePlace hu h.1 (h.2.counted (Nat.le_refl 64))

theorem ends_next_coherent (hs : s.Coherent) :
    (next s).Ends Coherent fun c u => u.Coherent ∧ c.Acceptable ∧ u.lastCode = c := by
  cases hf : s.finished with
  | true =>
    rw [next_of_finished hf]
    exact hs
  | false =>
    rw [next_of_unfinished hf]
    exact ends_pass_coherent hs hf

/-- A search and the codes that it has reported since it was new or began anew. -/
structure Account where
  search : Search := {}
  reported : List RomCode := []

/-- What can be done with searches. Every call is made on a line of its own, which answers and fails
as it likes. -/
inductive Use (ι : Type) : Type 1
  | next {L ε : Type} (i : ι) (slots : Slots L ε) (line : L)
  | sweep {L ε : Type} (i : ι) (stopped : Bool) (slots : Slots L ε) (line : L)
  | restart (i : ι)
  | copy (i j : ι)

section Account
variable {L ε ι : Type} {a : Account}

namespace Account

def next (a : Account) (slots : Slots L ε) (line : L) : Account :=
  let o := (Search.next a.search).run slots line
  ⟨o.kept, a.reported ++ o.result.toOption.toList⟩

def sweep (a : Account) (stopped : Bool) (slots : Slots L ε) (line : L) : Account :=
  let o := Sweep.next slots ⟨a.search, stopped⟩ line
  ⟨o.kept.search, a.reported ++ (o.result.bind Except.toOption).toList⟩

theorem sweep_eq (a : Account) (stopped : Bool) (slots : Slots L ε) (line : L) :
    a.sweep stopped slots line = if stopped then a else a.next slots line := by
  cases stopped with
  | true =>
    rw [sweep, Sweep.next_of_stopped slots rfl]
    simp
  | false =>
    rw [sweep, Sweep.next_of_running slots rfl, Account.next]
    unfold Sweep.report
    dsimp only
    split
    · rename_i hr
      simp [hr, Except.toOption]
    · rename_i hr
      simp [hr, Except.toOption]
    · rename_i hr
      simp [hr, Except.toOption]

/-- The account is true: the state is coherent and the last code is the one reported last. -/
structure Sound (a : Account) : Prop where
  coherent : a.search.Coherent
  acceptable : ∀ c ∈ a.reported, c.Acceptable
  lastCode_eq : a.search.lastCode = a.reported.getLast?.getD .zero

theorem sound_new : Sound {} := ⟨coherent_new, nofun, rfl⟩

theorem Sound.next (h : a.Sound) (slots : Slots L ε) (line : L) : (a.next slots line).Sound := by
  unfold Account.next
  rcases (ends_next_coherent h.coherent).run slots line with
    ⟨c, hc, hcoherent, hok, hlast⟩ | ⟨⟨e, he⟩, hcoherent⟩
  · refine ⟨hcoherent, fun r hr => ?_, ?_⟩
    · simp only [hc, Except.toOption, Option.toList_some, List.mem_append,
        List.mem_singleton] at hr
      rcases hr with hr | rfl
      · exact h.acceptable r hr
      · exact hok
    · simp [hc, Except.toOption, hlast]
  · have hplace := samePlace_of_error he
    refine ⟨hcoherent, fun r hr => ?_, ?_⟩
    · exact h.acceptable r (by simpa [he, Except.toOption] using hr)
    · simp [he, Except.toOption, hplace.lastCode, h.lastCode_eq]

theorem Sound.sweep (h : a.Sound) (stopped : Bool) (slots : Slots L ε) (line : L) :
    (a.sweep stopped slots line).Sound := by
  rw [sweep_eq]
  split
  · exact h
  · exact h.next slots line

theorem Sound.reported_eq_nil (h : a.Sound) (hz : a.search.lastCode = .zero) :
    a.reported = [] := by
  rw [h.lastCode_eq] at hz
  cases hr : a.reported.getLast? with
  | none => exact List.getLast?_eq_none_iff.1 hr
  | some c =>
    rw [hr] at hz
    exact absurd hz (h.acceptable c (List.mem_of_getLast? hr)).1

end Account

variable [DecidableEq ι]

def Use.act (accounts : ι → Account) : Use ι → ι → Account
  | next i slots line => Function.update accounts i ((accounts i).next slots line)
  | sweep i stopped slots line =>
    Function.update accounts i ((accounts i).sweep stopped slots line)
  | restart i => Function.update accounts i {}
  | copy i j => Function.update accounts j (accounts i)

theorem sound_act {accounts : ι → Account} (h : ∀ i, (accounts i).Sound) (use : Use ι) (i : ι) :
    (use.act accounts i).Sound := by
  have hupdate {j : ι} {a : Account} (ha : a.Sound) : (Function.update accounts j a i).Sound := by
    rw [Function.update_apply]
    split
    · exact ha
    · exact h i
  cases use with
  | next j slots line => exact hupdate ((h j).next slots line)
  | sweep j stopped slots line => exact hupdate ((h j).sweep stopped slots line)
  | restart j => exact hupdate Account.sound_new
  | copy j k => exact hupdate (h j)

theorem sound_foldl {accounts : ι → Account} (h : ∀ i, (accounts i).Sound) (uses : List (Use ι))
    (i : ι) : (uses.foldl Use.act accounts i).Sound := by
  induction uses generalizing accounts with
  | nil => exact h i
  | cons use uses ih => exact ih (sound_act h use)

/-- Whatever was done with searches on whatever lines, every one is in a coherent state, and the
next call keeps to such states wherever it is cut short: low branches are counted to 64 at most,
and the deepest of them is known. One that is not over and has no branch point has reported nothing
since it began. -/
theorem coherent_after (uses : List (Use ι)) (i : ι) :
    let a := uses.foldl Use.act (fun _ => {}) i
    a.search.Coherent ∧ (next a.search).Ends Coherent (fun _ => Coherent) ∧
      (a.search.finished = false → a.search.branch = none →
        a.search.lastCode = .zero ∧ a.reported = []) := by
  intro a
  have h : a.Sound := sound_foldl (fun _ => Account.sound_new) uses i
  refine ⟨h.coherent, ?_, fun hf hb => ?_⟩
  · exact (ends_next_coherent h.coherent).mono (fun _ hk => hk) fun _ _ hk => hk.1
  · have hz := h.coherent.of_unbegun hf hb
    exact ⟨hz, h.reported_eq_nil hz⟩

end Account

end OneWire.Search
