import Mathlib.Data.List.Dedup
import Mathlib.Data.List.Sort
import Mathlib.Order.PiLex
import OneWire.RomCode.Basic

namespace OneWire.RomCode

/-- The same bits below a position. -/
def Agrees (p : Nat) (a b : RomCode) : Prop := ∀ q : Fin 64, q.val < p → a.bit q = b.bit q

instance (p : Nat) (a b : RomCode) : Decidable (Agrees p a b) :=
  inferInstanceAs (Decidable (∀ q : Fin 64, q.val < p → a.bit q = b.bit q))

def Before (a b : RomCode) : Prop :=
  ∃ p : Fin 64, Agrees p a b ∧ a.bit p = false ∧ b.bit p = true

instance (a b : RomCode) : Decidable (Before a b) :=
  inferInstanceAs (Decidable (∃ p : Fin 64, Agrees p a b ∧ a.bit p = false ∧ b.bit p = true))

section Agrees
variable {a b c : RomCode} {p q : Nat}

theorem Agrees.refl (p : Nat) (a : RomCode) : Agrees p a a := fun _ _ => rfl

theorem Agrees.symm (h : Agrees p a b) : Agrees p b a := fun q hq => (h q hq).symm

theorem Agrees.trans (h : Agrees p a b) (h' : Agrees p b c) : Agrees p a c :=
  fun q hq => (h q hq).trans (h' q hq)

theorem Agrees.mono (h : Agrees p a b) (hq : q ≤ p) : Agrees q a b :=
  fun i hi => h i (hi.trans_le hq)

theorem agrees_zero (a b : RomCode) : Agrees 0 a b := fun _ h => absurd h (Nat.not_lt_zero _)

theorem agrees_succ {p : Fin 64} :
    Agrees (p.val + 1) a b ↔ Agrees p.val a b ∧ a.bit p = b.bit p := by
  constructor
  · intro h
    exact ⟨h.mono (Nat.le_succ _), h p (Nat.lt_succ_self _)⟩
  · rintro ⟨h, hp⟩ q hq
    rcases Nat.lt_succ_iff_lt_or_eq.1 hq with hlt | heq
    · exact h q hlt
    · rw [Fin.ext heq]
      exact hp

end Agrees

section Before
variable {a b c : RomCode}

/-- The order of functions on positions that compares the first position where they differ. -/
theorem before_iff : Before a b ↔ toLex a.bit < toLex b.bit := by
  constructor
  · rintro ⟨p, h, ha, hb⟩
    exact ⟨p, fun q hq => h q hq, by simp [ha, hb]⟩
  · rintro ⟨p, h, hp⟩
    exact ⟨p, fun q hq => h q hq, Bool.lt_iff.1 hp⟩

theorem before_irrefl (a : RomCode) : ¬ Before a a := by
  rw [before_iff]
  exact lt_irrefl _

theorem Before.trans (h : Before a b) (h' : Before b c) : Before a c := by
  rw [before_iff] at h h' ⊢
  exact h.trans h'

theorem Before.asymm (h : Before a b) : ¬ Before b a := fun h' => before_irrefl a (h.trans h')

theorem before_or_before (h : a ≠ b) : Before a b ∨ Before b a := by
  rw [before_iff, before_iff]
  apply lt_or_gt_of_ne
  intro he
  apply h
  apply ext_bit
  intro p
  exact congrFun (toLex_inj.1 he) p

end Before

/-- The different codes of a list in ascending order. -/
def ascending (codes : List RomCode) : List RomCode :=
  codes.dedup.insertionSort fun a b => ¬ Before b a

variable {codes : List RomCode}

@[simp] theorem mem_ascending {c : RomCode} : c ∈ ascending codes ↔ c ∈ codes := by
  rw [ascending, List.mem_insertionSort, List.mem_dedup]

theorem pairwise_ascending (codes : List RomCode) : (ascending codes).Pairwise Before := by
  have : Std.Total fun a b : RomCode => ¬ Before b a :=
    ⟨fun a b => not_and_or.1 fun h => h.1.asymm h.2⟩
  have : IsTrans RomCode fun a b => ¬ Before b a := ⟨fun a b c hab hbc hca => by
    rcases eq_or_ne b c with rfl | h
    · exact hab hca
    · exact (before_or_before h).elim (fun h => hab (h.trans hca)) hbc⟩
  -- sorting gives the weak order, and without duplicates it is the strict one
  have hs : (ascending codes).Pairwise fun a b => ¬ Before b a := List.pairwise_insertionSort _ _
  have hn : (ascending codes).Nodup :=
    (List.perm_insertionSort _ _).nodup_iff.2 codes.nodup_dedup
  exact (hs.and hn).imp fun h => (before_or_before h.2).resolve_right h.1

@[simp] theorem ascending_eq_nil_iff : ascending codes = [] ↔ codes = [] := by
  simp [List.eq_nil_iff_forall_not_mem]

theorem length_ascending_pos : 0 < (ascending codes).length ↔ codes ≠ [] := by
  rw [List.length_pos_iff, ne_eq, ascending_eq_nil_iff]

theorem filter_before_ascending {i : Nat} {c : RomCode} (h : (ascending codes)[i]? = some c) :
    (ascending codes).filter (c.Before ·) = (ascending codes).drop (i + 1) := by
  obtain ⟨hi, rfl⟩ := List.getElem?_eq_some_iff.1 h
  have hp := pairwise_ascending codes
  conv_lhs => arg 2; rw [← List.take_append_drop (i + 1) (ascending codes)]
  rw [List.filter_append, List.filter_eq_nil_iff.2, List.nil_append, List.filter_eq_self.2]
  · intro a ha
    obtain ⟨j, hj, rfl⟩ := List.mem_drop_iff_getElem.1 ha
    exact decide_eq_true (List.pairwise_iff_getElem.1 hp _ _ _ _ (by omega))
  · intro a ha
    obtain ⟨j, hj, rfl⟩ := List.mem_take_iff_getElem.1 ha
    simp only [decide_eq_true_eq]
    rcases Nat.lt_or_eq_of_le (show j ≤ i by omega) with hlt | rfl
    · exact (List.pairwise_iff_getElem.1 hp _ _ _ _ hlt).asymm
    · exact before_irrefl _

/-- The least of the codes above `c`. -/
def next? (codes : List RomCode) (c : RomCode) : Option RomCode :=
  (ascending codes).find? (c.Before ·)

theorem next?_eq_none_iff {c : RomCode} : next? codes c = none ↔ ∀ a ∈ codes, ¬ c.Before a := by
  simp [next?, List.find?_eq_none]

theorem next?_getElem? {i : Nat} {c : RomCode} (h : (ascending codes)[i]? = some c) :
    next? codes c = (ascending codes)[i + 1]? := by
  rw [next?, ← List.head?_filter, filter_before_ascending h, List.head?_drop]

theorem next?_eq_some {c r : RomCode} (h : next? codes c = some r) :
    r ∈ codes ∧ c.Before r ∧ ∀ a ∈ codes, c.Before a → ¬ a.Before r := by
  obtain ⟨hc, as, bs, he, has⟩ := List.find?_eq_some_iff_append.1 h
  have hp := pairwise_ascending codes
  rw [he, List.pairwise_append] at hp
  have hr : r ∈ ascending codes := by simp [he]
  refine ⟨mem_ascending.1 hr, by simpa using hc, ?_⟩
  intro a ha hca har
  have hm : a ∈ as ++ r :: bs := he ▸ mem_ascending.2 ha
  rcases List.mem_append.1 hm with hm | hm
  · have := has a hm
    simp [hca] at this
  · rcases List.mem_cons.1 hm with rfl | hm
    · exact before_irrefl _ har
    · exact har.asymm ((List.pairwise_cons.1 hp.2.1).1 a hm)

end OneWire.RomCode
