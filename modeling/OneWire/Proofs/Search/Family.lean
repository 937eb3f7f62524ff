import Mathlib.Data.Fintype.BigOperators
import OneWire.Proofs.Search.Enumeration
import OneWire.Proofs.Search.Selection

namespace OneWire

def Note.beginsPass : Note → Bool
  | .searchPass _ => true
  | _ => false

namespace RomCode

theorem length_le_of_nodup {codes : List RomCode} (h : codes.Nodup) :
    codes.length ≤ UInt64.size := by
  have hinj : Function.Injective RomCode.bit := fun _ _ h => ext_bit (congrFun h)
  have hle := List.Nodup.length_le_card (h.map hinj)
  rwa [List.length_map, Fintype.card_fun, Fintype.card_bool, Fintype.card_fin] at hle

theorem nodup_ascending (codes : List RomCode) : (ascending codes).Nodup := by
  apply (pairwise_ascending codes).imp
  rintro c _ h rfl
  exact before_irrefl c h

theorem length_ascending_le (codes : List RomCode) : (ascending codes).length ≤ UInt64.size :=
  length_le_of_nodup (nodup_ascending codes)

end RomCode

namespace Search
open Transaction
open RomCode (ascending)

variable {ε σ : Type} {codes before rest : List RomCode} {r : RomCode} {family : UInt8} {i n : Nat}
  {line : SlotLine}

/-- The code of zeros is none of those reported. -/
theorem length_reportable_lt (codes : List RomCode) :
    (reportable codes).length < UInt64.size := by
  have hzero : RomCode.zero ∉ reportable codes := by
    intro hmem
    have hgood : RomCode.zero.Acceptable := by simpa using List.mem_takeWhile_imp hmem
    exact hgood.1 rfl
  have hnodup : (RomCode.zero :: reportable codes).Nodup :=
    List.nodup_cons.2 ⟨hzero, (RomCode.nodup_ascending codes).sublist (List.takeWhile_sublist _)⟩
  exact RomCode.length_le_of_nodup hnodup

/-- The search goes on from this code. -/
def Passed (family : UInt8) (c : RomCode) : Prop := c.Acceptable ∧ c.family ≠ family

instance (family : UInt8) : DecidablePred (Passed family) :=
  fun _ => inferInstanceAs (Decidable (_ ∧ _))

/-- What a search that comes to these codes one by one gives, and the codes that it comes to. -/
def seek (family : UInt8) : List RomCode → Except Refusal (Option RomCode) × List RomCode
  | [] => (.ok none, [])
  | r :: rest =>
    if ¬ r.Acceptable then (.error r.defect, [r])
    else if r.family = family then (.ok (some r), [r])
    else ((seek family rest).1, r :: (seek family rest).2)

theorem seek_of_refused (h : ¬ r.Acceptable) (rest : List RomCode) :
    seek family (r :: rest) = (.error r.defect, [r]) := by
  rw [seek, if_pos h]

theorem seek_of_family (h : r.Acceptable) (hf : r.family = family) (rest : List RomCode) :
    seek family (r :: rest) = (.ok (some r), [r]) := by
  rw [seek, if_neg (not_not.2 h), if_pos hf]

theorem seek_of_passed (h : Passed family r) (rest : List RomCode) :
    seek family (r :: rest) = ((seek family rest).1, r :: (seek family rest).2) := by
  rw [seek, if_neg (not_not.2 h.1), if_neg h.2]

theorem seek_append (h : ∀ c ∈ before, Passed family c) (rest : List RomCode) :
    seek family (before ++ rest) = ((seek family rest).1, before ++ (seek family rest).2) := by
  induction before with
  | nil => rfl
  | cons c before ih =>
    rw [List.forall_mem_cons] at h
    rw [List.cons_append, seek_of_passed h.1, ih h.2]
    rfl

theorem seek_of_stop (hr : codes[i]? = some r) (h : ∀ c ∈ codes.take i, Passed family c)
    {result : Except Refusal (Option RomCode)}
    (hstop : ∀ rest, seek family (r :: rest) = (result, [r])) :
    seek family codes = (result, codes.take (i + 1)) := by
  obtain ⟨hi, rfl⟩ := List.getElem?_eq_some_iff.1 hr
  have hsplit : codes.take i ++ codes[i] :: codes.drop (i + 1) = codes := by
    rw [← List.drop_eq_getElem_cons hi, List.take_append_drop]
  conv_lhs => rw [← hsplit, seek_append h, hstop]
  rw [List.take_append_getElem]

theorem seek_of_forall (h : ∀ c ∈ codes, Passed family c) :
    seek family codes = (.ok none, codes) := by
  have := seek_append h []
  rwa [List.append_nil, seek, List.append_nil] at this

theorem countP_pass (branch : Option Nat) (c : RomCode) :
    [Note.searchPass branch, verdict c].countP Note.beginsPass = 1 := by
  unfold verdict
  split
  · rfl
  · split <;> rfl

theorem written_searched (rs : List RomCode) (line : SlotLine) :
    (rs.foldl SlotLine.searched line).written = line.written ++
      (rs.flatMap fun r => bitsOf RomCommand.searchRom.code ++ r.bits).toArray := by
  induction rs generalizing line with
  | nil => simp
  | cons r rs ih =>
    rw [List.foldl_cons, ih, List.flatMap_cons, RomCode.bits_eq]
    simp [SlotLine.searched]

theorem run_pass_milestone (hl : line.codes = codes) (hr : (ascending codes)[i]? = some r) :
    (pass (milestone codes i)).run (SlotLine.slots (ε := ε) true) line =
      ⟨line.searched r,
        if r.Acceptable then milestone codes (i + 1) else (milestone codes i).marked codes r,
        [.searchPass (milestone codes i).branch, verdict r], (given r).mapError .refused⟩ := by
  subst hl
  rw [milestone_succ hr]
  exact run_pass (walkEnds_milestone hr)

theorem run_firstOfFamily (family : UInt8) (hne : codes ≠ []) (hl : line.codes = codes)
    (hi : i ≤ (ascending codes).length) (hrest : (ascending codes).drop i = rest)
    (hn : rest.length ≤ n) :
    let o := (firstOfFamily family n (milestone codes i)).run (SlotLine.slots (ε := ε) true) line
    o.result = (seek family rest).1.mapError .refused ∧
      o.log.countP Note.beginsPass = (seek family rest).2.length ∧
      o.line = (seek family rest).2.foldl SlotLine.searched line := by
  induction rest generalizing i n line with
  | nil =>
    have hlast : i = (ascending codes).length :=
      Nat.le_antisymm hi (List.drop_eq_nil_iff.1 hrest)
    cases n with
    | zero => exact ⟨rfl, rfl, rfl⟩
    | succ n =>
      rw [firstOfFamily_of_finished family n ((finished_milestone hi).2 ⟨hne, hlast⟩)]
      exact ⟨rfl, rfl, rfl⟩
  | cons r rest ih =>
    have hr : (ascending codes)[i]? = some r := by
      rw [← List.head?_drop, hrest]
      rfl
    have hdrop : (ascending codes).drop (i + 1) = rest := by
      rw [← List.tail_drop, hrest, List.tail_cons]
    have hlt := (List.getElem?_eq_some_iff.1 hr).1
    have hpass := run_pass_milestone (ε := ε) hl hr
    cases n with
    | zero => cases hn
    | succ n =>
      rw [firstOfFamily_of_unfinished family n (unfinished_milestone hlt)]
      by_cases hok : r.Acceptable
      · simp only [given, if_pos hok] at hpass
        by_cases hf : r.family = family
        · rw [Exchange.run_bind_of_ok hpass, if_pos hf, seek_of_family hok hf]
          exact ⟨rfl, countP_pass _ r, rfl⟩
        · -- the search goes on from the next milestone
          obtain ⟨hresult, hlog, hline⟩ := ih ((SlotLine.codes_searched line r).trans hl) hlt hdrop
            (Nat.le_of_succ_le_succ hn)
          rw [Exchange.run_bind_of_ok hpass, if_neg hf, seek_of_passed ⟨hok, hf⟩]
          refine ⟨hresult, ?_, hline⟩
          rw [List.countP_append, countP_pass, hlog, List.length_cons, Nat.add_comm]
      · simp only [given, if_neg hok] at hpass
        rw [Exchange.run_bind_of_error hpass, seek_of_refused hok]
        exact ⟨rfl, countP_pass _ r, rfl⟩

end Search

namespace Station
open PulseLine Transaction
open RomCode (ascending)
open Search (Passed seek)

variable {codes : List RomCode} {σ : Type} {a : Station codes} {family : UInt8} {kept : σ}

/-- The search for a family gives this result after one pass to each of these codes and no other:
so many passes are noted, and their commands and codes are all that is written. -/
structure Seeks (a : Station codes) (family : UInt8) (kept : σ) (rs : List RomCode)
    (result : Except Refusal (Option RomCode)) : Prop where
  result : (a.run (firstOfFamily family) kept).result = result.mapError .refused
  passes : (a.run (firstOfFamily family) kept).log.countP Note.beginsPass = rs.length
  written : (a.run (firstOfFamily family) kept).line.settle.written = a.line.settle.written ++
    (rs.flatMap fun r => bitsOf RomCommand.searchRom.code ++ r.bits).toArray

theorem firstOfFamily_within (family : UInt8) (kept : σ) : firstOfFamily family kept =
    (Search.firstOfFamily family UInt64.size {}).mapKept fun _ => kept := rfl

theorem seeks (hne : codes ≠ []) (hs : a.Spared (firstOfFamily family) kept) :
    a.Seeks family kept (seek family (ascending codes)).2 (seek family (ascending codes)).1 := by
  have hr := a.run_refines_of_spared (resets_firstOfFamily family kept) hs
  obtain ⟨hresult, hlog, hline⟩ := Search.run_firstOfFamily (ε := LineFault) family (i := 0) hne
    a.codes_settled (Nat.zero_le _) List.drop_zero (RomCode.length_ascending_le codes)
  rw [firstOfFamily_within, Exchange.run_mapKept] at hr
  refine ⟨hr.result.trans hresult, ?_, ?_⟩
  · rw [hr.log]
    exact hlog
  · have hwritten := congrArg SlotLine.written (hr.line.trans hline)
    exact hwritten.trans (Search.written_searched _ _)

theorem seeks_of_nil {a : Station []} (hs : a.Spared (firstOfFamily family) kept) :
    a.Seeks family kept [] (.error .noResponse) := by
  have hr := a.run_refines_of_spared (resets_firstOfFamily family kept) hs
  obtain ⟨n, hn⟩ := firstOfFamily_eq family kept
  have hpass : (Search.pass {}).run (SlotLine.slots (ε := LineFault) true) a.line.settled = _ :=
    Search.run_pass_of_isEmpty {} a.isEmpty_settled
  rw [hn, Exchange.run_mapKept, Search.firstOfFamily_of_unfinished family n rfl,
    Exchange.run_bind_of_error hpass] at hr
  refine ⟨hr.result, ?_, ?_⟩
  · rw [hr.log]
    rfl
  · have hwritten := congrArg SlotLine.written hr.line
    rw [List.flatMap_nil, Array.append_empty]
    exact hwritten

/-- The search for a family gives the first code of it in the order of the search, unless it comes
to a refused code before. It takes a pass for each code up to there, and for all of them if none
is of the family. -/
theorem seeks_first (a : Station codes) (family : UInt8) (kept : σ)
    (hs : a.Spared (firstOfFamily family) kept) :
    (∀ j r, (ascending codes)[j]? = some r → (∀ c ∈ (ascending codes).take j, Passed family c) →
      r.Acceptable → r.family = family →
        a.Seeks family kept ((ascending codes).take (j + 1)) (.ok (some r))) ∧
    (∀ k r, (ascending codes)[k]? = some r → (∀ c ∈ (ascending codes).take k, Passed family c) →
      ¬ r.Acceptable →
        a.Seeks family kept ((ascending codes).take (k + 1)) (.error r.defect)) ∧
    (codes = [] → a.Seeks family kept [] (.error .noResponse)) ∧
    (codes ≠ [] → (∀ c ∈ codes, Passed family c) →
      a.Seeks family kept (ascending codes) (.ok none)) := by
  have hseek (j : Nat) (r : RomCode) (hr : (ascending codes)[j]? = some r) :=
    seeks (List.ne_nil_of_mem (RomCode.mem_ascending.1 (List.mem_of_getElem? hr))) hs
  refine ⟨fun j r hr hpassed hok hf => ?_, fun k r hr hpassed hbad => ?_, ?_, fun hne hall => ?_⟩
  · have h := hseek j r hr
    rwa [Search.seek_of_stop hr hpassed (Search.seek_of_family hok hf)] at h
  · have h := hseek k r hr
    rwa [Search.seek_of_stop hr hpassed (Search.seek_of_refused hbad)] at h
  · rintro rfl
    exact seeks_of_nil hs
  · have h := seeks hne hs
    rwa [Search.seek_of_forall fun c hc => hall c (RomCode.mem_ascending.1 hc)] at h

/-- A device with a wrong checksum comes last, though the number of its family is the lowest: it is
in the way of its own family only. Without it a family that is not there is looked for to the end. -/
theorem seeks_first_held :
    let first := RomCode.make 0x10 #v[1, 2, 3, 4, 5, 6]
    let second := RomCode.make 0x28 #v[1, 2, 3, 4, 5, 6]
    let bad : RomCode := ⟨#v[0x01, 0, 0, 0, 0, 0, 0, 0]⟩
    let a : Station [bad, second, first, second] :=
      ⟨.counted, .standard, after (pause 1000) (after ((adapter .plain).act .pullLow) (.ofCodes _)),
        Schedule.readable_standard, .pause 1000 (.act .plain .pullLow .new), rfl⟩
    let b : Station [second, first] :=
      ⟨.plain, .standard, .ofCodes _, Schedule.readable_standard, .new, rfl⟩
    let c : Station [] := ⟨.plain, .standard, .ofCodes [], Schedule.readable_standard, .new, rfl⟩
    a.line.lowSince = some 0 ∧ a.Seeks 0x28 () [first, second] (.ok (some second)) ∧
      a.Seeks 0x01 () [first, second, bad] (.error bad.defect) ∧
      b.Seeks 0x01 () [first, second] (.ok none) ∧ c.Seeks 0x28 () [] (.error .noResponse) := by
  intro first second bad a b c
  have ha : a.line.Faultless := nofun
  have hb : b.line.Faultless := nofun
  have hc : c.line.Faultless := nofun
  have hsorted : ascending [bad, second, first, second] = [first, second, bad] := by decide +kernel
  have hsorted' : ascending [second, first] = [first, second] := by decide +kernel
  refine ⟨rfl, ?_, ?_, ?_, ?_⟩
  · have h := (seeks_first a 0x28 () (spared_of_faultless ha _ _)).1 1 second
    rw [hsorted] at h
    exact h rfl (by decide +kernel) (by decide +kernel) rfl
  · have h := (seeks_first a 0x01 () (spared_of_faultless ha _ _)).2.1 2 bad
    rw [hsorted] at h
    exact h rfl (by decide +kernel) (by decide +kernel)
  · have h := (seeks_first b 0x01 () (spared_of_faultless hb _ _)).2.2.2 (List.cons_ne_nil _ _)
    rw [hsorted'] at h
    exact h (by decide +kernel)
  · exact (seeks_first c 0x28 () (spared_of_faultless hc _ _)).2.2.1 rfl

end Station

end OneWire
