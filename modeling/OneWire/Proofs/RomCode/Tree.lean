import OneWire.Proofs.RomCode.WireOrder

namespace OneWire.RomCode

variable {codes : List RomCode} {a b c r r' : RomCode} {p q : Fin 64}

/-- Where `c` goes low and another code with the same bits above goes high. -/
def forks (codes : List RomCode) (c : RomCode) : List (Fin 64) :=
  (List.finRange 64).filter fun p => c.bit p = false ∧ ∃ a ∈ codes, a.Agrees p c ∧ a.bit p = true

theorem mem_forks :
    p ∈ forks codes c ↔ c.bit p = false ∧ ∃ a ∈ codes, a.Agrees p c ∧ a.bit p = true := by
  simp [forks]

theorem pairwise_forks (codes : List RomCode) (c : RomCode) :
    (forks codes c).Pairwise (· < ·) :=
  List.Pairwise.sublist List.filter_sublist (List.pairwise_lt_finRange 64)

theorem forks_eq_nil_iff : forks codes c = [] ↔ next? codes c = none := by
  rw [next?_eq_none_iff, List.eq_nil_iff_forall_not_mem]
  constructor
  · rintro h a ha ⟨p, hp, hc, hap⟩
    exact h p (mem_forks.2 ⟨hc, a, ha, hp.symm, hap⟩)
  · intro h p hp
    obtain ⟨hc, a, ha, hagree, hap⟩ := mem_forks.1 hp
    exact h a ha ⟨p, hagree.symm, hc, hap⟩

def parting (a b : RomCode) : Option (Fin 64) := (List.finRange 64).find? fun p => a.bit p ≠ b.bit p

theorem parting_eq_some (h : a.Agrees p b) (hp : a.bit p ≠ b.bit p) : parting a b = some p := by
  obtain ⟨before, after, he⟩ := List.append_of_mem (List.mem_finRange p)
  rw [parting, List.find?_eq_some_iff_append]
  refine ⟨by simpa using hp, before, after, he, ?_⟩
  intro q hq
  have hs := List.pairwise_lt_finRange 64
  rw [he, List.pairwise_append] at hs
  simp [h q (hs.2.2 q hq p List.mem_cons_self)]

theorem getLast?_eq_some_iff {l : List (Fin 64)} (h : l.Pairwise (· < ·)) :
    l.getLast? = some p ↔ p ∈ l ∧ ∀ q ∈ l, q ≤ p := by
  have hgreatest (last : Fin 64) (he : l.getLast? = some last) :
      last ∈ l ∧ ∀ q ∈ l, q ≤ last := by
    obtain ⟨before, rfl⟩ := List.getLast?_eq_some_iff.1 he
    simp only [List.pairwise_append, List.mem_singleton, forall_eq] at h
    refine ⟨by simp, fun q hq => ?_⟩
    rcases List.mem_append.1 hq with hq | hq
    · exact le_of_lt (h.2.2 q hq)
    · exact le_of_eq (List.mem_singleton.1 hq)
  refine ⟨hgreatest p, fun ⟨hp, hm⟩ => ?_⟩
  have he := List.getLast?_eq_some_getLast (List.ne_nil_of_mem hp)
  obtain ⟨hmem, hle⟩ := hgreatest _ he
  rw [he, le_antisymm (hm _ hmem) (hle p hp)]

/-- The deepest fork of a code is where the next one parts from it. -/
theorem getLast?_forks (h : next? codes c = some r) :
    (forks codes c).getLast? = parting c r := by
  obtain ⟨hr, ⟨p, hp, hc, hrp⟩, hleast⟩ := next?_eq_some h
  rw [parting_eq_some hp (by simp [hc, hrp])]
  refine (getLast?_eq_some_iff (pairwise_forks codes c)).2
    ⟨mem_forks.2 ⟨hc, r, hr, hp.symm, hrp⟩, fun q hq => ?_⟩
  obtain ⟨hcq, a, ha, hagree, haq⟩ := mem_forks.1 hq
  -- a deeper fork would lead to a code between the two
  by_contra hlt
  rw [not_le] at hlt
  refine hleast a ha ⟨q, hagree.symm, hcq, haq⟩ ⟨p, ?_, ?_, hrp⟩
  · exact (hagree.mono (le_of_lt hlt)).trans hp
  · rw [hagree p hlt, hc]

/-- A walk that goes by `choice` wherever codes part ends at `r`. -/
structure WalkEnds (choice : Fin 64 → Bool) (codes : List RomCode) (r : RomCode) : Prop where
  mem : r ∈ codes
  bit_eq : ∀ p : Fin 64, ∀ a ∈ codes, a.Agrees p r → a.bit p ≠ r.bit p → r.bit p = choice p

/-- `r` is below the place that the walk comes to after `k` positions. -/
structure WalkPasses (choice : Fin 64 → Bool) (codes : List RomCode) (k : Nat) (r : RomCode) :
    Prop where
  mem : r ∈ codes
  bit_eq : ∀ p : Fin 64, p.val < k → ∀ a ∈ codes, a.Agrees p r → a.bit p ≠ r.bit p →
    r.bit p = choice p

section Passes
variable {choice : Fin 64 → Bool} {k : Nat}

theorem WalkPasses.of_choice (h : WalkPasses choice codes k r) (hk : k < 64) (hb : b ∈ codes)
    (hagree : b.Agrees k r) (hbit : b.bit ⟨k, hk⟩ = choice ⟨k, hk⟩) :
    WalkPasses choice codes (k + 1) b := by
  refine ⟨hb, ?_⟩
  intro p hp a ha hap hne
  rcases Nat.lt_succ_iff_lt_or_eq.1 hp with hlt | heq
  · have hpr : b.bit p = r.bit p := hagree p hlt
    rw [hpr] at hne ⊢
    exact h.bit_eq p hlt a ha (hap.trans (hagree.mono (le_of_lt hlt))) hne
  · rw [show p = ⟨k, hk⟩ from Fin.ext heq]
    exact hbit

theorem WalkPasses.of_forced (h : WalkPasses choice codes k r) (hk : k < 64)
    (hforced : ∀ b ∈ codes, b.Agrees k r → b.bit ⟨k, hk⟩ ≠ choice ⟨k, hk⟩) :
    WalkPasses choice codes (k + 1) r := by
  refine ⟨h.mem, ?_⟩
  intro p hp a ha hap hne
  rcases Nat.lt_succ_iff_lt_or_eq.1 hp with hlt | heq
  · exact h.bit_eq p hlt a ha hap hne
  · have hpk : p = ⟨k, hk⟩ := Fin.ext heq
    subst hpk
    have ha' := Bool.eq_not.2 (hforced a ha hap)
    have hr' := Bool.eq_not.2 (hforced r h.mem (.refl k r))
    exact absurd (ha'.trans hr'.symm) hne

theorem exists_walkPasses (choice : Fin 64 → Bool) (h : codes ≠ []) (hk : k ≤ 64) :
    ∃ r, WalkPasses choice codes k r := by
  induction k with
  | zero =>
    obtain ⟨r, hr⟩ := List.exists_mem_of_ne_nil codes h
    exact ⟨r, hr, fun p hp => absurd hp (Nat.not_lt_zero _)⟩
  | succ k ih =>
    obtain ⟨r, hr⟩ := ih (by omega)
    by_cases hb : ∃ b ∈ codes, b.Agrees k r ∧ b.bit ⟨k, hk⟩ = choice ⟨k, hk⟩
    · obtain ⟨b, hb, hagree, hbit⟩ := hb
      exact ⟨b, hr.of_choice hk hb hagree hbit⟩
    · refine ⟨r, hr.of_forced hk ?_⟩
      intro b hm hagree hbit
      exact hb ⟨b, hm, hagree, hbit⟩

theorem exists_walkEnds (choice : Fin 64 → Bool) (h : codes ≠ []) :
    ∃ r, WalkEnds choice codes r := by
  obtain ⟨r, hr⟩ := exists_walkPasses choice h (Nat.le_refl 64)
  exact ⟨r, hr.mem, fun p => hr.bit_eq p p.isLt⟩

end Passes

theorem walkEnds_low (hr : r ∈ codes) (hleast : ∀ a ∈ codes, ¬ a.Before r) :
    WalkEnds (fun _ => false) codes r := by
  refine ⟨hr, ?_⟩
  intro p a ha hagree hne
  by_contra hbit
  rw [Bool.not_eq_false] at hbit
  exact hleast a ha ⟨p, hagree, by simpa [hbit] using hne, hbit⟩

/-- The walk that follows `c` down to where the next code parts from it, and goes high there and
low below, ends at the next code. -/
theorem walkEnds_next {choice : Fin 64 → Bool} (h : next? codes c = some r)
    (hp : parting c r = some p) (habove : ∀ q, q < p → choice q = c.bit q)
    (hhere : choice p = true) (hbelow : ∀ q, p < q → choice q = false) :
    WalkEnds choice codes r := by
  obtain ⟨hr, ⟨p', hagree, hc, hrp⟩, hleast⟩ := next?_eq_some h
  obtain rfl : p' = p := by
    rw [parting_eq_some hagree (by simp [hc, hrp])] at hp
    exact Option.some.inj hp
  refine ⟨hr, ?_⟩
  intro q a ha haq hne
  rcases lt_trichotomy q p' with hlt | rfl | hlt
  · rw [habove q hlt, hagree q hlt]
  · rw [hhere, hrp]
  · rw [hbelow q hlt]
    -- otherwise `a` would go low there and come between the two
    by_contra hbit
    rw [Bool.not_eq_false] at hbit
    have hap : a.bit p' = true := (haq p' hlt).trans hrp
    have hac : a.Agrees p' c := (haq.mono (le_of_lt hlt)).trans hagree.symm
    exact hleast a ha ⟨p', hac.symm, hc, hap⟩ ⟨q, haq, by simpa [hbit] using hne, hbit⟩

end OneWire.RomCode
