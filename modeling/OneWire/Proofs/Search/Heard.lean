import OneWire.Proofs.Exchange.Transcript
import OneWire.Proofs.PulseLine.Refinement
import OneWire.Proofs.Search.Pass
import OneWire.Proofs.SlotLine.Addressing

namespace OneWire

def spread (pairs : List (Bool × Bool)) : List Bool := pairs.flatMap fun pair => [pair.1, pair.2]

theorem length_spread (pairs : List (Bool × Bool)) : (spread pairs).length = 2 * pairs.length := by
  simp [spread, Nat.mul_comm]

def Transcript.heard (t : Transcript) (pairs : List (Bool × Bool)) : Transcript :=
  { t with samples := t.samples ++ spread pairs }

namespace Search
open Transaction

variable {L ε : Type} {s kept : Search} {t later : Transcript} {p : Fin 64} {ps : List (Fin 64)}
  {pair : Bool × Bool} {pairs : List (Bool × Bool)} {c : RomCode} {result : Except Refusal RomCode}

/-- Two ones: no device sends its bit. -/
abbrev silence : Bool × Bool := (true, true)

/-- Two zeros: devices seem to differ. -/
abbrev conflict : Bool × Bool := (false, false)

def settle (s : Search) (p : Fin 64) (pair : Bool × Bool) : Bool :=
  if pair.1 = pair.2 then s.choice p else pair.1

def settled (s : Search) (ps : List (Fin 64)) (pairs : List (Bool × Bool)) : List Bool :=
  List.zipWith s.settle ps pairs

def mark (s : Search) (p : Fin 64) (pair : Bool × Bool) : Search :=
  if pair = conflict ∧ s.settle p pair = false then s.takeLow p else s

theorem samePlace_mark (s : Search) (p : Fin 64) (pair : Bool × Bool) :
    SamePlace s (s.mark p pair) := by
  unfold mark
  split
  · exact samePlace_takeLow s p
  · exact .refl s

theorem SamePlace.settle {u : Search} (h : SamePlace s u) : u.settle = s.settle := by
  funext p pair
  rw [Search.settle, Search.settle, h.choice]

theorem SamePlace.settled {u : Search} (h : SamePlace s u) : u.settled = s.settled := by
  funext ps pairs
  rw [Search.settled, Search.settled, h.settle]

inductive Steps (s : Search) (p : Fin 64) (t : Transcript) :
    Transcript → Search → Except Refusal Bool → Prop
  | lost : Steps s p t (t.heard [silence]) s (.error .noResponse)
  | settled (pair : Bool × Bool) (h : pair ≠ silence) :
    Steps s p t ((t.heard [pair]).wrote [s.settle p pair]) (s.mark p pair) (.ok (s.settle p pair))

theorem comesTo_step (p : Fin 64) (s : Search) (t : Transcript) :
    (step p s).ComesTo (Steps s p t) t := by
  have hheard (direct complement : Bool) :
      (t.sampled direct).sampled complement = t.heard [(direct, complement)] := by
    simp [Transcript.sampled, Transcript.heard, spread]
  rw [step_eq]
  intro direct complement
  rw [hheard]
  cases direct with
  | true =>
    cases complement with
    | true => exact .lost
    | false => exact .settled (true, false) nofun
  | false =>
    cases complement with
    | true => exact .settled (false, true) nofun
    | false =>
      have h : s.Steps p t _ _ _ := .settled conflict nofun
      change ((branchAt p s).bind fun s bit => .write bit s (.done s (.ok bit))).ComesTo _ _
      rw [branchAt_eq]
      change s.Steps p t ((t.heard [conflict]).wrote [s.choice p]) _ _
      cases hb : s.choice p <;> simpa [mark, settle, hb] using h

/-- What a descent through `ps` can come to. It ends at the first position where nothing is heard
of any device. -/
inductive Descends (s : Search) (ps : List (Fin 64)) (c : RomCode) (t : Transcript) :
    Transcript → Search → Except Refusal RomCode → Prop
  | lost (pairs : List (Bool × Bool)) (kept : Search) (h : silence ∉ pairs)
      (hl : pairs.length < ps.length) :
    Descends s ps c t ((t.heard (pairs ++ [silence])).wrote (s.settled ps pairs)) kept
      (.error .noResponse)
  | arrived (pairs : List (Bool × Bool)) (h : silence ∉ pairs) (hl : pairs.length = ps.length) :
    Descends s ps c t ((t.heard pairs).wrote (s.settled ps pairs))
      ((ps.zip pairs).foldl (fun s x => s.mark x.1 x.2) s)
      (.ok ((ps.zip pairs).foldl (fun c x => c.withBit x.1 (s.settle x.1 x.2)) c))

theorem Descends.cons (hp : pair ≠ silence) (h : Descends (s.mark p pair) ps
      (c.withBit p (s.settle p pair)) ((t.heard [pair]).wrote [s.settle p pair]) later kept result) :
    Descends s (p :: ps) c t later kept result := by
  have hs := (samePlace_mark s p pair).settle
  have hadd (heard : List (Bool × Bool)) (bits : List Bool) :
      ((((t.heard [pair]).wrote [s.settle p pair]).heard heard).wrote bits) =
        (t.heard (pair :: heard)).wrote (s.settle p pair :: bits) := by
    simp [Transcript.heard, Transcript.wrote, spread]
  cases h with
  | lost pairs _ hm hl =>
    have hlost : s.Descends (p :: ps) c t _ kept _ :=
      .lost (pair :: pairs) kept (by simp [hm, Ne.symm hp]) (Nat.succ_lt_succ hl)
    rw [hadd, settled, hs]
    exact hlost
  | arrived pairs hm hl =>
    have harrived : s.Descends (p :: ps) c t _ _ _ :=
      .arrived (pair :: pairs) (by simp [hm, Ne.symm hp]) (congrArg Nat.succ hl)
    rw [hadd, settled, hs]
    exact harrived

theorem comesTo_descend (ps : List (Fin 64)) (c : RomCode) (s : Search) (t : Transcript) :
    (descend ps c s).ComesTo (Descends s ps c t) t := by
  induction ps generalizing c s t with
  | nil =>
    change s.Descends [] c t t s (.ok c)
    have h : s.Descends [] c t _ _ _ := .arrived [] (by simp) rfl
    simpa [Transcript.heard, Transcript.wrote, spread, settled] using h
  | cons p ps ih =>
    rw [descend_cons]
    apply (comesTo_step p s t).bind
    · intro later kept bit h
      cases h with
      | settled pair hp => exact (ih _ _ _).mono fun _ _ _ h => h.cons hp
    · intro later kept reason h
      cases h with
      | lost =>
        have hlost : s.Descends (p :: ps) c t _ s _ := .lost [] s (by simp) (Nat.succ_pos _)
        simpa [Transcript.wrote, settled] using hlost

theorem exists_heard (hl : pairs.length = 64) :
    ∃ heard : Fin 64 → Bool × Bool, pairs = (List.finRange 64).map heard := by
  refine ⟨fun p => pairs[p], List.ext_getElem ?_ ?_⟩
  · simp [hl]
  · simp

section Leaf
variable (s : Search) (heard : Fin 64 → Bool × Bool)

def leaf : RomCode :=
  (List.finRange 64).foldl (fun c p => c.withBit p (s.settle p (heard p))) .zero

theorem bit_leaf (p : Fin 64) : (s.leaf heard).bit p = s.settle p (heard p) := by
  rw [leaf, RomCode.foldl_withBit, if_pos (List.mem_finRange p)]

theorem settled_map :
    s.settled (List.finRange 64) ((List.finRange 64).map heard) = (s.leaf heard).bits := by
  rw [RomCode.bits_eq, settled, List.zipWith_map_right, List.zipWith_self]
  exact List.map_congr_left fun p _ => (s.bit_leaf heard p).symm

def WentLow (c : RomCode) (p : Fin 64) : Prop := heard p = conflict ∧ c.bit p = false

instance (c : RomCode) : DecidablePred (WentLow heard c) :=
  fun _ => inferInstanceAs (Decidable (_ ∧ _))

def lows (c : RomCode) : List (Fin 64) := (List.finRange 64).filter (WentLow heard c ·)

theorem mem_lows {c : RomCode} {p : Fin 64} : p ∈ lows heard c ↔ WentLow heard c p := by
  simp [lows]

def counted : Search := { s with
  deepestLow := (lows heard (s.leaf heard)).getLast?.map (·.val)
  lowBranches := (lows heard (s.leaf heard)).length }

variable {s} {u : Search}

theorem foldl_mark (h : SamePlace s u) (ps : List (Fin 64)) :
    ps.foldl (fun u p => u.mark p (heard p)) u =
      ps.foldl (fun u p => if WentLow heard (s.leaf heard) p then u.takeLow p else u) u := by
  induction ps generalizing u with
  | nil => rfl
  | cons p ps ih =>
    rw [List.foldl_cons, List.foldl_cons, ih (h.trans (samePlace_mark u p _)), mark, h.settle,
      ← bit_leaf]
    rfl

theorem foldl_mark_finRange (s : Search) :
    (List.finRange 64).foldl (fun u p => u.mark p (heard p)) s.begin = s.counted heard := by
  rw [foldl_mark heard (samePlace_begin s), foldl_takeLow]
  simp [counted, lows, begin]

end Leaf

/-- What a pass can come to. -/
inductive Passes (s : Search) : Transcript → Search → Except Refusal RomCode → Prop
  | absent : Passes s ⟨[true], []⟩ s (.error .noResponse)
  | lost (pairs : List (Bool × Bool)) (kept : Search) (h : silence ∉ pairs)
      (hl : pairs.length < 64) :
    Passes s ⟨false :: spread (pairs ++ [silence]),
      bitsOf RomCommand.searchRom.code ++ s.settled (List.finRange 64) pairs⟩ kept
      (.error .noResponse)
  | arrived (heard : Fin 64 → Bool × Bool) (kept : Search) (h : ∀ p, heard p ≠ silence)
      (hk : (s.leaf heard).Acceptable → kept = (s.counted heard).found (s.leaf heard)) :
    Passes s ⟨false :: spread ((List.finRange 64).map heard),
      bitsOf RomCommand.searchRom.code ++ (s.leaf heard).bits⟩ kept (given (s.leaf heard))

theorem Descends.passes_error {reason : Refusal}
    (h : s.begin.Descends (List.finRange 64) .zero
      ⟨[false], bitsOf RomCommand.searchRom.code⟩ later kept (.error reason)) :
    Passes s later kept (.error reason) := by
  cases h with
  | lost pairs _ hm hl =>
    rw [(samePlace_begin s).settled]
    exact .lost pairs kept hm hl

theorem Descends.passes_ok (h : s.begin.Descends (List.finRange 64) .zero
      ⟨[false], bitsOf RomCommand.searchRom.code⟩ later kept (.ok c)) :
    Passes s later (if c.Acceptable then kept.found c else kept) (given c) := by
  have hs := samePlace_begin s
  cases h with
  | arrived pairs hm hl =>
    obtain ⟨heard, rfl⟩ := exists_heard hl
    have hzip : (List.finRange 64).zip ((List.finRange 64).map heard) =
        (List.finRange 64).map fun p => (p, heard p) := by
      rw [List.zip_map_right, List.zip_eq_zipWith, List.zipWith_self, List.map_map]
      rfl
    have hne (p : Fin 64) : heard p ≠ silence := fun hp =>
      hm (hp ▸ List.mem_map_of_mem (List.mem_finRange p))
    rw [hzip, List.foldl_map, List.foldl_map, foldl_mark_finRange, hs.settled, hs.settle,
      settled_map]
    exact .arrived heard _ hne fun ha => if_pos ha

theorem comesTo_pass (s : Search) : (pass s).ComesTo (Passes s) {} := by
  rw [pass_eq]
  apply comesTo_addressing .searchRom .absent
  apply (comesTo_descend _ _ _ _).bind
  · intro later kept c h
    rw [accept_eq]
    exact h.passes_ok
  · intro later kept reason h
    exact h.passes_error

/-- A pass that reported `c` and left `kept`, by its transcript and the pairs in it. -/
structure Reports (t : Transcript) (heard : Fin 64 → Bool × Bool) (c : RomCode) (kept : Search) :
    Prop where
  valid : c.Valid
  ne_zero : c ≠ .zero
  samples : t.samples = false :: spread ((List.finRange 64).map heard)
  count : t.samples.length = 1 + 128
  written : t.written = bitsOf RomCommand.searchRom.code ++ (List.finRange 64).map c.bit
  heard_ne : ∀ p, heard p ≠ (true, true)
  bit_eq : ∀ p, (heard p).1 ≠ (heard p).2 → c.bit p = (heard p).1
  lastCode : kept.lastCode = c
  branch_eq_some : ∀ b, kept.branch = some b ↔
    ∃ p : Fin 64, p.val = b ∧ WentLow heard c p ∧ ∀ q, WentLow heard c q → q ≤ p
  branch_eq_none : kept.branch = none ↔ ∀ p, ¬ WentLow heard c p
  finished : kept.finished = true ↔ ∀ p, ¬ WentLow heard c p

theorem reports_leaf {heard : Fin 64 → Bool × Bool} (hne : ∀ p, heard p ≠ silence)
    (ha : (s.leaf heard).Acceptable) :
    Reports ⟨false :: spread ((List.finRange 64).map heard),
      bitsOf RomCommand.searchRom.code ++ (s.leaf heard).bits⟩ heard (s.leaf heard)
      ((s.counted heard).found (s.leaf heard)) := by
  have hnil : lows heard (s.leaf heard) = [] ↔ ∀ p, ¬ WentLow heard (s.leaf heard) p := by
    simp [List.eq_nil_iff_forall_not_mem, mem_lows]
  have hpairwise : (lows heard (s.leaf heard)).Pairwise (· < ·) :=
    List.Pairwise.sublist List.filter_sublist (List.pairwise_lt_finRange 64)
  refine ⟨ha.2, ha.1, rfl, ?_, ?_, hne, fun p hp => ?_, rfl, fun b => ?_, ?_, ?_⟩
  · rw [List.length_cons, length_spread, List.length_map, List.length_finRange]
  · rw [RomCode.bits_eq]
  · rw [bit_leaf, settle, if_neg hp]
  · simp only [found, counted, Option.map_eq_some_iff, RomCode.getLast?_eq_some_iff hpairwise,
      mem_lows]
    tauto
  · rw [← hnil]
    simp [found, counted]
  · rw [← hnil]
    simp [found, counted]

theorem given_cases (c : RomCode) :
    (c = .zero ∧ given c = .error .stuckLow) ∨
      (c ≠ .zero ∧ ¬ c.Valid ∧ given c = .error (.checksum c.computed c.checksum)) ∨
      (c ≠ .zero ∧ c.Valid ∧ given c = .ok c) := by
  unfold given RomCode.Acceptable RomCode.defect
  by_cases hz : c = .zero
  · exact .inl ⟨hz, by simp [hz]⟩
  · by_cases hv : c.Valid
    · exact .inr (.inr ⟨hz, hv, by simp [hz, hv]⟩)
    · exact .inr (.inl ⟨hz, hv, by simp [hz, hv]⟩)

/-- The course of a pass: whether a device was present, the pairs heard from then on, the
transcript, and what the caller is left with. -/
structure Course (s : Search) (present : Bool) (pairs : List (Bool × Bool)) (t : Transcript)
    (kept : Search) (result : Except Refusal RomCode) : Prop where
  samples : t.samples = (!present) :: spread pairs
  noResponse_iff : result = .error .noResponse ↔ present = false ∨ (true, true) ∈ pairs
  absent : present = false → pairs = [] ∧ t.written = []
  /-- The pass ends with the first pair of ones, and nothing is written for that position. -/
  lost : (true, true) ∈ pairs → ∃ earlier, pairs = earlier ++ [(true, true)] ∧
    (true, true) ∉ earlier ∧ earlier.length < 64 ∧
    t.written = bitsOf RomCommand.searchRom.code ++ s.settled (List.finRange 64) earlier
  /-- Without one it comes to a leaf, and the code there decides. -/
  leaf : present = true → (true, true) ∉ pairs → ∃ (heard : Fin 64 → Bool × Bool) (c : RomCode),
    pairs = (List.finRange 64).map heard ∧ (∀ p, c.bit p = s.settle p (heard p)) ∧
    t.written = bitsOf RomCommand.searchRom.code ++ (List.finRange 64).map c.bit ∧
    (result = .error .stuckLow ↔ c = .zero) ∧
    ((∃ computed received, result = .error (.checksum computed received)) ↔
      c ≠ .zero ∧ ¬ c.Valid) ∧
    (result = .ok c ↔ c ≠ .zero ∧ c.Valid)
  reports : ∀ c, result = .ok c →
    ∃ heard, pairs = (List.finRange 64).map heard ∧ Reports t heard c kept

theorem Passes.course (h : Passes s t kept result) :
    ∃ present pairs, Course s present pairs t kept result := by
  cases h with
  | absent =>
    refine ⟨false, [], ?_⟩
    exact ⟨rfl, by simp, fun _ => ⟨rfl, rfl⟩, nofun, nofun, nofun⟩
  | lost pairs kept hm hl =>
    refine ⟨true, pairs ++ [silence], ?_⟩
    exact ⟨rfl, by simp, nofun, fun _ => ⟨pairs, rfl, hm, hl, rfl⟩,
      fun _ h => absurd (by simp) h, nofun⟩
  | arrived heard kept hne hk =>
    have hm : silence ∉ (List.finRange 64).map heard := by
      simpa using fun p => hne p
    have hresult : given (s.leaf heard) ≠ .error .noResponse := by
      rcases given_cases (s.leaf heard) with ⟨-, h⟩ | ⟨-, -, h⟩ | ⟨-, -, h⟩ <;> rw [h] <;> nofun
    refine ⟨true, (List.finRange 64).map heard, ?_⟩
    refine ⟨rfl, ?_, nofun, fun h => absurd h hm, fun _ _ => ?_, fun c hc => ?_⟩
    · simpa [hresult] using hne
    · refine ⟨heard, s.leaf heard, rfl, s.bit_leaf heard, by rw [RomCode.bits_eq], ?_⟩
      rcases given_cases (s.leaf heard) with ⟨hz, h⟩ | ⟨hz, hv, h⟩ | ⟨hz, hv, h⟩
      · rw [h]
        simp [hz]
      · rw [h]
        simp [hz, hv]
      · rw [h]
        simp [hz, hv]
    · refine ⟨heard, rfl, ?_⟩
      have ha : (s.leaf heard).Acceptable := by
        by_contra ha
        rw [given, if_neg ha] at hc
        cases hc
      rw [given, if_pos ha] at hc
      obtain rfl : s.leaf heard = c := Except.ok.inj hc
      rw [hk ha]
      exact reports_leaf hne ha

/-- What a pass reports, writes and keeps, whatever the line answers at each sample. -/
theorem next_of_samples (slots : Slots L ε) (line : L) (hu : s.finished = false)
    (hf : ∀ fault, ((next s).run slots line).result ≠ .error (.failed fault)) :
    let o := (next s).run slots line
    let t := ((next s).run slots.transcribed ⟨line, {}⟩).line.transcript
    ∃ result present pairs, o.result = result.mapError .refused ∧
      Course s present pairs t o.kept result := by
  rw [next_of_unfinished hu] at hf ⊢
  intro o t
  have hrun : (pass s).run slots line = _ := Exchange.run_transcribed slots (pass s) ⟨line, {}⟩
  simp only [o, hrun] at hf ⊢
  rcases (comesTo_pass s).run slots line with ⟨fault, hfault⟩ | ⟨result, hresult, hpasses⟩
  · exact absurd hfault (hf fault)
  · obtain ⟨present, pairs, hcourse⟩ := hpasses.course
    exact ⟨result, present, pairs, hresult, hcourse⟩

/-- A line that only ever answers low, and a search that has a code to go by: devices seem to
differ everywhere, and a code is made up whose checksum happens to be right. -/
theorem next_of_samples_low :
    let s : Search := { branch := some 51, lastCode := ⟨#v[0x28, 4, 0, 0, 0, 0, 0, 0xc2]⟩ }
    let m := PulseLine.master .plain .standard
    let line : PulseLine := { PulseLine.ofCodes [] with shorted := true }
    let o := (next s).run m.slots line
    let t := ((next s).run m.slots.transcribed ⟨line, {}⟩).line.transcript
    s.finished = false ∧ (∀ fault, o.result ≠ .error (.failed fault)) ∧
      ∃ heard, Reports t heard ⟨#v[0x28, 4, 0, 0, 0, 0, 8, 0]⟩ o.kept := by
  have hreports (s : Search) (slots : Slots PulseLine LineFault) (line : PulseLine) (c : RomCode)
      (hu : s.finished = false) (hr : ((next s).run slots line).result.toOption = some c) :
      (∀ fault, ((next s).run slots line).result ≠ .error (.failed fault)) ∧
        ∃ heard, Reports ((next s).run slots.transcribed ⟨line, {}⟩).line.transcript heard c
          ((next s).run slots line).kept := by
    have hfault (fault : LineFault) :
        ((next s).run slots line).result ≠ .error (.failed fault) := by
      intro he
      rw [he] at hr
      cases hr
    obtain ⟨result, present, pairs, hresult, hcourse⟩ := next_of_samples slots line hu hfault
    rw [hresult] at hr
    have hok : result = .ok c := by
      cases result with
      | ok c => exact congrArg Except.ok (Option.some.inj hr)
      | error reason => cases hr
    obtain ⟨heard, -, hheard⟩ := hcourse.reports c hok
    exact ⟨hfault, heard, hheard⟩
  exact ⟨rfl, hreports _ _ _ _ rfl (by decide +kernel)⟩

end Search

end OneWire
