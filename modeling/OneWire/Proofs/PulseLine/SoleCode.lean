import OneWire.Proofs.Exchange.Transcript
import OneWire.Proofs.Search.Selection
import OneWire.Proofs.Search.Shorted

namespace OneWire

namespace RomCode

theorem valid_zero : zero.Valid := by decide +kernel

theorem meet_of_forall_eq {codes : List RomCode} {r : RomCode} (hne : codes ≠ [])
    (h : ∀ c ∈ codes, c = r) : meet codes = r := by
  apply ext_bit
  intro p
  obtain ⟨c, hc⟩ := List.exists_mem_of_ne_nil codes hne
  rw [bit_meet, Bool.eq_iff_iff, decide_eq_true_iff]
  constructor
  · intro hall
    exact h c hc ▸ hall c hc
  · intro hr a ha
    rwa [h a ha]

theorem meet_eq_zero_iff {codes : List RomCode} :
    meet codes = .zero ↔ ∀ p, ∃ c ∈ codes, c.bit p = false := by
  simp [eq_zero_iff, bit_meet]

end RomCode

namespace Transaction
variable {σ α L ε : Type} {n : Nat} {t : Transcript} {kept : σ}

theorem comesTo_fill (indices : List (Fin n)) (buffer : Vector UInt8 n) :
    (fill indices buffer).ComesTo (fun later last result =>
      ∃ bytes : List UInt8, bytes.length = indices.length ∧
        later = t.listened (bytes.flatMap bitsOf) ∧ result = .ok () ∧
        last = (indices.zip bytes).foldl (fun b x => b.set x.1 x.2 x.1.isLt) buffer) t := by
  induction indices generalizing buffer t with
  | nil => exact ⟨[], rfl, by simp [Transcript.listened], rfl, rfl⟩
  | cons i rest ih =>
    rw [fill_cons]
    refine Exchange.ComesTo.bind comesTo_receiveByte ?_ ?_
    · rintro _ _ b ⟨rfl, _, rfl, hr⟩
      cases hr
      apply (ih _).mono
      rintro _ _ _ ⟨bytes, hl, rfl, hr, rfl⟩
      exact ⟨b :: bytes, congrArg Nat.succ hl, Transcript.listened_listened t _ _, hr, rfl⟩
    · rintro _ _ _ ⟨-, _, -, hr⟩
      cases hr

theorem comesTo_receive (hn : n ≠ 0) (buffer : Vector UInt8 n) :
    (receive buffer).ComesTo (fun later last result =>
      later = t.listened (last.toList.flatMap bitsOf) ∧ result = .ok ()) t := by
  rw [receive_eq_fill hn]
  apply (comesTo_fill _ buffer).mono
  rintro _ _ _ ⟨bytes, hl, rfl, rfl, rfl⟩
  rw [List.length_finRange] at hl
  obtain ⟨v, rfl⟩ : ∃ v : Vector UInt8 n, v.toList = bytes := ⟨⟨bytes.toArray, hl⟩, rfl⟩
  have hzip : (List.finRange n).zip v.toList = (List.finRange n).map fun i => (i, v.get i) := by
    apply List.ext_getElem
    · simp
    · simp [Vector.get]
  rw [hzip, List.foldl_map, foldl_set_finRange]
  exact ⟨rfl, rfl⟩

theorem comesTo_readCode (c : RomCode) : (readCode c).ComesTo (fun later last result =>
    later = ⟨[true], []⟩ ∧ last = c ∧ result = .error .noResponse ∨
      later = ⟨false :: last.bits, bitsOf RomCommand.readRom.code⟩ ∧ result = .ok ()) {} := by
  have he : readCode c = (reset c).bind fun c _ =>
      (sendByte RomCommand.readRom.code c).bind fun c _ =>
        (receive c.bytes).mapKept RomCode.mk := rfl
  have hreceive := @comesTo_receive 8
  -- from here on only what the sixty-four reads come to matters
  generalize receive = reads at he hreceive
  rw [he]
  refine comesTo_addressing .readRom (.inl ⟨rfl, rfl, rfl⟩) (Exchange.ComesTo.mapKept ?_)
  apply (hreceive (by decide) c.bytes).mono
  rintro _ bytes _ ⟨rfl, rfl⟩
  exact .inr ⟨rfl, rfl⟩

def checked (c : RomCode) : Except Refusal RomCode := c.check.map fun _ => c

theorem checked_of_valid {c : RomCode} (h : c.Valid) : checked c = .ok c := by
  rw [checked, RomCode.check, if_pos h]
  rfl

theorem checked_of_not_valid {c : RomCode} (h : ¬ c.Valid) :
    checked c = .error (.checksum c.computed c.checksum) := by
  rw [checked, RomCode.check, if_neg h]
  rfl

theorem checked_eq_ok_iff {c a : RomCode} :
    (checked c).mapError (BusError.refused (ε := ε)) = .ok a ↔ c = a ∧ c.Valid := by
  by_cases h : c.Valid
  · simp [checked_of_valid h, h, Except.mapError]
  · simp [checked_of_not_valid h, h, Except.mapError]

theorem bind_check (c : RomCode) :
    ((ofExcept c.check c).bind fun s _ => .done s (.ok c)) = .done c (checked c) := by
  unfold checked ofExcept
  cases c.check <;> rfl

theorem comesTo_soleCode : (soleCode kept).ComesTo (fun later last result => last = kept ∧
    (later = ⟨[true], []⟩ ∧ result = .error .noResponse ∨
      ∃ c : RomCode, later = ⟨false :: c.bits, bitsOf RomCommand.readRom.code⟩ ∧
        result = checked c)) {} := by
  rw [SlotLine.soleCode_eq]
  refine Exchange.ComesTo.mapKept ?_
  refine Exchange.ComesTo.bind (comesTo_readCode .zero) ?_ ?_
  · rintro _ c _ (⟨-, -, hr⟩ | ⟨rfl, -⟩)
    · cases hr
    · rw [bind_check]
      exact ⟨rfl, .inr ⟨c, rfl, rfl⟩⟩
  · rintro _ _ _ (⟨rfl, rfl, hr⟩ | ⟨-, hr⟩)
    · cases hr
      exact ⟨rfl, .inl ⟨rfl, rfl⟩⟩
    · cases hr

theorem run_soleCode (slots : Slots L ε) (line : L) (kept : σ) :
    let o := (soleCode kept).run slots line
    let t := ((soleCode kept).run slots.transcribed ⟨line, {}⟩).line.transcript
    (∃ fault, o.result = .error (.failed fault)) ∨
      (o.result = .error (.refused .noResponse) ∧ t.samples = [true]) ∨
      ∃ c : RomCode, o.result = (checked c).mapError .refused ∧ t.samples = false :: c.bits := by
  intro o t
  have hrun : o = _ := Exchange.run_transcribed slots (soleCode kept) ⟨line, {}⟩
  rw [hrun]
  rcases comesTo_soleCode.run slots line with hfault | ⟨_, hresult, -, ⟨ht, rfl⟩ | ⟨c, ht, rfl⟩⟩
  · exact .inl hfault
  · exact .inr (.inl ⟨hresult, congrArg Transcript.samples ht⟩)
  · exact .inr (.inr ⟨c, hresult, congrArg Transcript.samples ht⟩)

theorem samples_of_soleCode (slots : Slots L ε) (line : L) {a : RomCode}
    (h : ((soleCode kept).run slots line).result = .ok a) :
    a.Valid ∧ ((soleCode kept).run slots.transcribed ⟨line, {}⟩).line.transcript.samples =
      false :: a.bits := by
  rcases run_soleCode slots line kept with ⟨fault, hr⟩ | ⟨hr, -⟩ | ⟨c, hr, ht⟩
  · cases h.symm.trans hr
  · cases h.symm.trans hr
  · obtain ⟨rfl, hv⟩ := checked_eq_ok_iff.1 (hr.symm.trans h)
    exact ⟨hv, ht⟩

theorem run_soleCode_stuckLow :
    (soleCode kept).run (stuckLow (ε := ε)) () = ⟨(), kept, [], .ok .zero⟩ := by
  have hread : (readCode .zero).run (stuckLow (ε := ε)) () = ⟨(), .zero, [], .ok ()⟩ := rfl
  rw [SlotLine.soleCode_eq, Exchange.run_mapKept, Exchange.run_bind_of_ok hread, bind_check,
    checked_of_valid RomCode.valid_zero]
  rfl

end Transaction

namespace PulseLine
open Transaction

/-- A shorted line passes for a device with the code of zeros. -/
theorem soleCode_of_shorted {σ : Type} {line : PulseLine} (timer : Timer) (s : Schedule)
    (h : line.shorted = true) (kept : σ) :
    let o := (soleCode kept).run (master timer s).slots line
    o.result = .ok .zero ∨ o.result = .error (.failed .injected) ∧ Struck line o.line := by
  rcases (simulates_stuckLow timer s).run h (soleCode kept) with ⟨-, hshows⟩ | hstruck
  · rw [run_soleCode_stuckLow] at hshows
    exact .inl hshows.result
  · exact .inr hstruck

end PulseLine

namespace Station
open PulseLine Transaction

variable {codes : List RomCode} {σ : Type} {a : Station codes}

theorem run_readCode (hne : codes ≠ []) {c : RomCode} (hs : a.Spared readCode c) :
    (a.run readCode c).result = .ok () ∧ (a.run readCode c).kept = .meet codes := by
  have hr := a.run_refines_of_spared (t := readCode) trivial hs
  rw [SlotLine.run_readCode (a.not_isEmpty_settled hne), a.codes_settled] at hr
  exact ⟨hr.result, hr.kept⟩

theorem result_soleCode (hne : codes ≠ []) {kept : σ} (hs : a.Spared soleCode kept) :
    (a.run soleCode kept).result = (checked (.meet codes)).mapError .refused := by
  have hr := a.run_refines_of_spared (t := soleCode) trivial hs
  rw [SlotLine.run_soleCode (a.not_isEmpty_settled hne), a.codes_settled] at hr
  exact hr.result

theorem run_readCode_of_nil {a : Station []} {c : RomCode} (hs : a.Spared readCode c) :
    (a.run readCode c).result = .error (.refused .noResponse) ∧ (a.run readCode c).kept = c := by
  have hr := a.run_refines_of_spared (t := readCode) trivial hs
  have hempty : (readCode c).run (SlotLine.slots (ε := LineFault) true) a.line.settled = _ :=
    SlotLine.run_addressing_of_isEmpty a.isEmpty_settled c _
  rw [hempty] at hr
  exact ⟨hr.result, hr.kept⟩

theorem result_soleCode_of_nil {a : Station []} {kept : σ} (hs : a.Spared soleCode kept) :
    (a.run soleCode kept).result = .error (.refused .noResponse) := by
  have hresets : (soleCode kept).Resets := trivial
  exact a.result_of_nil hresets hs fun _ he => SlotLine.run_soleCode_of_isEmpty he kept

/-- What is read from devices that answer at once is the bitwise and of their codes, whatever was
kept before; so it is the code itself if they all have the same. -/
theorem reads_meet (a : Station codes) :
    (codes ≠ [] →
      (∀ c, a.Spared readCode c →
        (a.run readCode c).result = .ok () ∧ (a.run readCode c).kept = .meet codes) ∧
      (∀ p, (RomCode.meet codes).bit p = decide (∀ c ∈ codes, c.bit p = true)) ∧
      (∀ r, (∀ c ∈ codes, c = r) → RomCode.meet codes = r) ∧
      ∀ {σ : Type} (kept : σ), a.Spared soleCode kept →
        ((a.run soleCode kept).result = .ok (.meet codes) ↔ (RomCode.meet codes).Valid) ∧
        (¬ (RomCode.meet codes).Valid → (a.run soleCode kept).result =
          .error (.refused (.checksum (RomCode.meet codes).computed
            (RomCode.meet codes).checksum)))) ∧
    (codes = [] →
      (∀ c, a.Spared readCode c →
        (a.run readCode c).result = .error (.refused .noResponse) ∧
          (a.run readCode c).kept = c) ∧
      ∀ {σ : Type} (kept : σ), a.Spared soleCode kept →
        (a.run soleCode kept).result = .error (.refused .noResponse)) := by
  refine ⟨fun hne => ⟨fun c hs => run_readCode hne hs, RomCode.bit_meet codes,
    fun r hall => RomCode.meet_of_forall_eq hne hall, fun kept hs => ?_⟩, ?_⟩
  · rw [result_soleCode hne hs]
    refine ⟨checked_eq_ok_iff.trans (and_iff_right rfl), fun hbad => ?_⟩
    rw [checked_of_not_valid hbad]
    rfl
  · rintro rfl
    refine ⟨fun c hs => ?_, fun kept hs => ?_⟩
    · exact run_readCode_of_nil hs
    · exact result_soleCode_of_nil hs

/-- Two devices of different families and one of them alone, on a line that is held low by a driver
that went away; and a line without devices. -/
theorem reads_meet_held :
    let first := RomCode.make 0x10 #v[1, 2, 3, 4, 5, 6]
    let second := RomCode.make 0x28 #v[1, 2, 3, 4, 5, 6]
    let a : Station [first, second] :=
      ⟨.counted, .standard, after (pause 1000) (after ((adapter .plain).act .pullLow) (.ofCodes _)),
        Schedule.readable_standard, .pause 1000 (.act .plain .pullLow .new), rfl⟩
    let b : Station [second, second] :=
      ⟨.plain, .standard, .ofCodes _, Schedule.readable_standard, .new, rfl⟩
    let c : Station [] := ⟨.plain, .standard, .ofCodes [], Schedule.readable_standard, .new, rfl⟩
    a.line.lowSince = some 0 ∧
      (a.run readCode first).kept = .meet [first, second] ∧
      (a.run soleCode ()).result = .error (.refused (.checksum 0x80 0x1a)) ∧
      (b.run readCode first).kept = second ∧ (b.run soleCode ()).result = .ok second ∧
      (c.run readCode first).kept = first := by
  intro first second a b c
  have ha : a.line.Faultless := nofun
  have hb : b.line.Faultless := nofun
  have hc : c.line.Faultless := nofun
  obtain ⟨hread, -, -, hsole⟩ := (reads_meet a).1 (List.cons_ne_nil _ _)
  obtain ⟨hread', -, hsame, hsole'⟩ := (reads_meet b).1 (List.cons_ne_nil _ _)
  have hmeet : RomCode.meet [second, second] = second := hsame second (by decide +kernel)
  refine ⟨rfl, (hread first (spared_of_faultless ha _ _)).2, ?_, ?_, ?_, ?_⟩
  · rw [(hsole () (spared_of_faultless ha _ _)).2 (by decide +kernel)]
    decide +kernel
  · rw [(hread' first (spared_of_faultless hb _ _)).2, hmeet]
  · have hvalid : (RomCode.meet [second, second]).Valid := by
      rw [hmeet]
      decide +kernel
    rw [(hsole' () (spared_of_faultless hb _ _)).1.2 hvalid, hmeet]
  · exact (((reads_meet c).2 rfl).1 first (spared_of_faultless hc _ _)).2

end Station

theorem Station.result_eq_zero_iff {codes : List RomCode} {σ : Type} {a : Station codes} {kept : σ}
    (hs : a.Spared Transaction.soleCode kept) :
    (a.run Transaction.soleCode kept).result = .ok .zero ↔
      codes ≠ [] ∧ ∀ p, ∃ c ∈ codes, c.bit p = false := by
  by_cases hne : codes = []
  · subst hne
    rw [result_soleCode_of_nil hs]
    simp
  · rw [result_soleCode hne hs, Transaction.checked_eq_ok_iff, RomCode.meet_eq_zero_iff]
    constructor
    · rintro ⟨hlow, -⟩
      exact ⟨hne, hlow⟩
    · rintro ⟨-, hlow⟩
      refine ⟨hlow, ?_⟩
      rw [RomCode.meet_eq_zero_iff.2 hlow]
      exact RomCode.valid_zero

namespace Transaction
open PulseLine

/-- A code that is given has a right checksum and is what was heard after the presence, so it is the
code of zeros exactly if no sample was high. On a shorted line none is, and on a sound one none is
if no position is high in the codes of all devices. -/
theorem soleCode_zero_iff {L ε σ : Type} (slots : Slots L ε) (line : L) (kept : σ) :
    (∀ a, ((soleCode kept).run slots line).result = .ok a →
      let t := ((soleCode kept).run slots.transcribed ⟨line, {}⟩).line.transcript
      a.Valid ∧ t.samples = false :: a.bits ∧
        (a = .zero ↔ ∀ level ∈ t.samples, level = false)) ∧
    (∀ (timer : Timer) (s : Schedule) (line : PulseLine), line.shorted = true →
      let o := (soleCode kept).run (master timer s).slots line
      o.result = .ok .zero ∨ o.result = .error (.failed .injected) ∧ Struck line o.line) ∧
    ∀ {codes : List RomCode} (a : Station codes), a.Spared soleCode kept →
      ((a.run soleCode kept).result = .ok .zero ↔
        codes ≠ [] ∧ ∀ p, ∃ c ∈ codes, c.bit p = false) := by
  refine ⟨fun a h => ?_, fun timer s line h => ?_, fun a hs => ?_⟩
  · obtain ⟨hv, ht⟩ := samples_of_soleCode slots line h
    refine ⟨hv, ht, ?_⟩
    simp [ht, RomCode.eq_zero_iff, RomCode.bits_eq]
  · exact soleCode_of_shorted timer s h kept
  · exact Station.result_eq_zero_iff hs

/-- Two devices that hold every position low between them, and the line when it is shorted. -/
theorem soleCode_zero_iff_standard :
    let codes : List RomCode :=
      [⟨#v[0x10, 0xa, 0, 0, 0, 0, 0, 0x34]⟩, ⟨#v[0x28, 4, 0, 0, 0, 0, 0, 0xc2]⟩]
    let a : Station codes :=
      ⟨.plain, .standard, .ofCodes codes, Schedule.readable_standard, .new, rfl⟩
    let slots := (master .plain .standard).slots
    (a.run soleCode ()).result = .ok .zero ∧
      (∀ level ∈ ((soleCode ()).run slots.transcribed ⟨a.line, {}⟩).line.transcript.samples,
        level = false) ∧
      ((soleCode ()).run slots a.line.short).result = .ok .zero := by
  intro codes a slots
  obtain ⟨hsamples, hshorted, hstation⟩ := soleCode_zero_iff slots a.line ()
  have ha : a.line.Faultless := nofun
  have hshort : a.line.short.Faultless := nofun
  have hzero : (a.run soleCode ()).result = .ok .zero :=
    (hstation a (Station.spared_of_faultless ha _ _)).2 ⟨List.cons_ne_nil _ _, by decide +kernel⟩
  obtain ⟨-, -, hlow⟩ := hsamples .zero hzero
  refine ⟨hzero, hlow.1 rfl, ?_⟩
  exact (hshorted .plain .standard _ rfl).resolve_right fun h => hshort.not_struck h.2

/-- The code of zeros is given for a device on a shorted line, and for two devices on a sound one,
though the codes of both are others with right checksums. -/
theorem soleCode_presents_zero :
    let first : RomCode := ⟨#v[0x10, 0xa, 0, 0, 0, 0, 0, 0x34]⟩
    let second : RomCode := ⟨#v[0x28, 4, 0, 0, 0, 0, 0, 0xc2]⟩
    let shorted := (PulseLine.ofCodes [first]).short
    let a : Station [first, second] :=
      ⟨.plain, .standard, .ofCodes _, Schedule.readable_standard, .new, rfl⟩
    (∀ c ∈ [first, second], c.Acceptable) ∧
      ((soleCode ()).run (master .plain .standard).slots shorted).result = .ok .zero ∧
      (a.run soleCode ()).result = .ok .zero := by
  intro first second shorted a
  have hshorted : shorted.Faultless := nofun
  have ha : a.line.Faultless := nofun
  refine ⟨by decide +kernel, ?_, ?_⟩
  · exact (soleCode_of_shorted .plain .standard rfl ()).resolve_right fun h =>
      hshorted.not_struck h.2
  · exact (Station.result_eq_zero_iff (Station.spared_of_faultless ha _ _)).2
      ⟨List.cons_ne_nil _ _, by decide +kernel⟩

end Transaction

end OneWire
