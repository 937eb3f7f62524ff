import OneWire.Addressing
import OneWire.Proofs.Exchange.Buffers
import OneWire.Proofs.Search.Descent

namespace OneWire

namespace RomCode

/-- What devices with these codes spell when they send them at once. -/
def meet (codes : List RomCode) : RomCode :=
  ⟨.ofFn fun i => (codes.map (·.bytes.get i)).foldr (· &&& ·) 0xff⟩

theorem bit_meet (codes : List RomCode) (p : Fin 64) :
    (meet codes).bit p = decide (∀ a ∈ codes, a.bit p = true) := by
  have hfold (f : RomCode → UInt8) (j : Nat) (hj : j < 8) :
      bitAt ((codes.map f).foldr (· &&& ·) 0xff) j =
        decide (∀ a ∈ codes, bitAt (f a) j = true) := by
    induction codes with
    | nil =>
      have : ∀ j : Fin 8, bitAt 0xff j = true := by decide
      simpa using this ⟨j, hj⟩
    | cons a rest ih =>
      simp only [List.map_cons, List.foldr_cons, List.forall_mem_cons, bitAt, UInt8.toBitVec_and,
        BitVec.getLsbD_and, Bool.decide_and, Bool.decide_eq_true]
      exact congrArg _ ih
  simp only [bit, meet, Vector.getElem_ofFn]
  exact hfold _ _ (Nat.mod_lt _ (by decide))

theorem agrees_all {a b : RomCode} : Agrees 64 a b ↔ a = b := by
  constructor
  · intro h
    exact ext_bit fun p => h p p.isLt
  · rintro rfl
    exact .refl 64 a

end RomCode

theorem get_ofFn {α : Type} {n : Nat} (f : Fin n → α) (i : Fin n) : (Vector.ofFn f).get i = f i :=
  Vector.getElem_ofFn i.isLt

theorem foldl_set {α : Type} {n : Nat} (v : Vector α n) (indices : List (Fin n)) (b : Vector α n)
    (j : Fin n) : (indices.foldl (fun b i => b.set i (v.get i) i.isLt) b).get j =
      if j ∈ indices then v.get j else b.get j := by
  induction indices generalizing b with
  | nil => rfl
  | cons i rest ih =>
    rw [List.foldl_cons, ih]
    by_cases hj : j ∈ rest
    · simp [hj]
    · rw [if_neg hj]
      by_cases hi : j = i
      · subst hi
        rw [if_pos List.mem_cons_self]
        exact Vector.getElem_set_self j.isLt
      · have hne : i.val ≠ j.val := fun he => hi (Fin.ext he.symm)
        rw [if_neg (by simp [hj, hi])]
        exact Vector.getElem_set_ne _ _ hne

theorem foldl_set_finRange {α : Type} {n : Nat} (v b : Vector α n) :
    (List.finRange n).foldl (fun b i => b.set i (v.get i) i.isLt) b = v := by
  apply Vector.ext
  intro j hj
  have := foldl_set v (List.finRange n) b ⟨j, hj⟩
  rwa [if_pos (List.mem_finRange _)] at this

namespace Device

/-- A device that has been given a ROM command. -/
def asked (command : RomCommand) (d : Device) : Device := d.reset.obey command.code

@[simp] theorem code_asked (command : RomCommand) (d : Device) :
    (d.asked command).code = d.code := by cases command <;> rfl

/-- A device that sends its code and has come to position `k`. -/
def sending (k : Nat) (d : Device) : Device :=
  { d with phase := if h : k < 64 then .sendCode ⟨k, h⟩ else .idle }

variable {d : Device} {r : RomCode}

theorem hear_following (p : Fin 64) : (d.following .matchCode r p).hear (r.bit p) =
    d.following .matchCode r (p.val + 1) := by
  by_cases h : d.code.Agrees p r
  · rw [← agree_following (.matchCode p) h]
    simp [following, hear, h]
  · simp [following, hear, RomCode.agrees_succ, h]

theorem foldl_hear_following {ps : List (Fin 64)} {k : Nat}
    (hps : (List.finRange 64).drop k = ps) :
    (ps.map r.bit).foldl hear (d.following .matchCode r k) =
      d.following .matchCode r (k + ps.length) := by
  induction ps generalizing k with
  | nil => rfl
  | cons p ps ih =>
    obtain ⟨rfl, hps⟩ := drop_finRange_cons hps
    rw [List.map_cons, List.foldl_cons, hear_following, ih hps, List.length_cons]
    congr 1
    omega

theorem answer_sending (p : Fin 64) :
    (d.sending p).answer = (d.code.bit p, d.sending (p.val + 1)) := by
  by_cases hp : p.val + 1 < 64 <;> simp [sending, answer, after, hp]

theorem selected_following (onward : Fin 64 → Phase) (h : d.selected = false) :
    (d.following onward r 64).selected = decide (d.code = r) := by
  unfold following
  by_cases hr : d.code = r
  · simp [RomCode.agrees_all, hr, select]
  · simp [RomCode.agrees_all, hr, h]

theorem code_following (onward : Fin 64 → Phase) (k : Nat) :
    (d.following onward r k).code = d.code := by
  unfold following select
  grind

end Device
namespace SlotLine

def codes (line : SlotLine) : List RomCode := line.devices.map (·.code)

def selected (line : SlotLine) : List RomCode := (line.devices.filter (·.selected)).map (·.code)

section Map
variable {ds : List Device} {written : Array Bool} {f : Device → Device}

theorem codes_map {line : SlotLine} (h : line.devices = ds.map f)
    (hc : ∀ d, (f d).code = d.code) : line.codes = ds.map (·.code) := by
  simp only [codes, h, List.map_map, Function.comp_def, hc]

theorem selected_map {line : SlotLine} (h : line.devices = ds.map f)
    (hc : ∀ d, (f d).code = d.code) {addressed : RomCode → Bool}
    (hs : ∀ d, (f d).selected = addressed d.code) :
    line.selected = (ds.map (·.code)).filter addressed := by
  simp only [selected, h, List.filter_map, List.map_map, Function.comp_def, hc, hs]

theorem read_sending (p : Fin 64) : read true ⟨ds.map (·.sending p), written⟩ =
    ((RomCode.meet (ds.map (·.code))).bit p, ⟨ds.map (·.sending (p.val + 1)), written⟩) := by
  rw [RomCode.bit_meet]
  refine read_map fun d => ?_
  rw [Device.answer_sending, Bool.decide_eq_true]

end Map

section Run
open Transaction

variable {ε σ α : Type} {line : SlotLine} {inTime : Bool}

theorem run_addressing_of_isEmpty (h : line.devices.isEmpty) (kept : σ)
    (f : σ → Unit → Exchange σ α) :
    ((Transaction.reset kept).bind f).run (slots (ε := ε) inTime) line =
      ⟨line.reset, kept, [.noPresence], .error (.refused .noResponse)⟩ := by
  have hr := run_reset (ε := ε) inTime kept line
  rw [if_pos h] at hr
  exact Exchange.run_bind_of_error hr

def ask (line : SlotLine) (command : RomCommand) : SlotLine :=
  ⟨line.devices.map (·.asked command), line.written ++ (bitsOf command.code).toArray⟩

theorem codes_ask (line : SlotLine) (command : RomCommand) :
    (line.ask command).codes = line.codes :=
  codes_map rfl (Device.code_asked command)

theorem run_addressing (h : ¬ line.devices.isEmpty) (command : RomCommand) (kept : σ)
    (f : σ → Unit → Exchange σ α) :
    ((Transaction.reset kept).bind fun kept _ => (sendByte command.code kept).bind f).run
      (slots (ε := ε) inTime) line = (f kept ()).run (slots inTime) (line.ask command) := by
  have hr := run_reset (ε := ε) inTime kept line
  rw [if_neg h] at hr
  have hwrites : line.reset.writes (bitsOf command.code) = line.ask command := by
    simp only [writes, reset, ask, List.map_map, Function.comp_def,
      Device.foldl_hear_reset]
    rfl
  rw [Exchange.run_bind_of_ok hr, Exchange.run_bind_of_ok (run_sendByte kept _ _), hwrites]
  rfl

theorem run_selectAll (h : ¬ line.devices.isEmpty) (kept : σ) :
    (selectAll kept).run (slots (ε := ε) inTime) line = ⟨line.ask .skipRom, kept, [], .ok ()⟩ := by
  have he : selectAll kept = (Transaction.reset kept).bind fun kept _ =>
      (sendByte RomCommand.skipRom.code kept).bind fun kept _ => .done kept (.ok ()) := by
    simp only [Exchange.bind_done]
    rfl
  rw [he]
  exact run_addressing h .skipRom kept _

theorem writes_writes (line : SlotLine) (first second : List Bool) :
    (line.writes first).writes second = line.writes (first ++ second) := by
  simp [writes, Function.comp_def]

theorem run_select (h : ¬ line.devices.isEmpty) (c : RomCode) (kept : σ) :
    (select c kept).run (slots (ε := ε) inTime) line =
      ⟨(line.ask .matchRom).writes c.bits, kept, [], .ok ()⟩ := by
  have he : select c kept = (Transaction.reset kept).bind fun kept _ =>
      (sendByte RomCommand.matchRom.code kept).bind fun kept _ => c.bits.forM sendBit kept := by
    rw [← send_bytes]
    rfl
  rw [he]
  exact (run_addressing h .matchRom kept _).trans (run_sendBits kept c.bits _)

theorem devices_select (line : SlotLine) (c : RomCode) :
    ((line.ask .matchRom).writes c.bits).devices =
      line.devices.map fun d => (d.asked .matchRom).following .matchCode c 64 := by
  have hbegin (d : Device) : (d.asked .matchRom).following .matchCode c 0 = d.asked .matchRom := by
    rw [Device.following, if_pos (RomCode.agrees_zero _ _)]
    rfl
  simp only [writes, ask, List.map_map, Function.comp_def, RomCode.bits_eq]
  apply List.map_congr_left
  intro d _
  have hheard := Device.foldl_hear_following (d := d.asked .matchRom) (r := c) (k := 0) rfl
  rwa [hbegin] at hheard

section Receive
variable {n : Nat} {lines : Nat → SlotLine} {v : Vector UInt8 n}

/-- The lines that a master comes to while it reads the bytes of `v`, by the bits read so far. -/
def Sends (lines : Nat → SlotLine) (v : Vector UInt8 n) : Prop := ∀ (i : Fin n) (j : Nat), j < 8 →
  read true (lines (8 * i.val + j)) = (bitAt (v.get i) j, lines (8 * i.val + j + 1))

theorem run_receiveBits (h : Sends lines v) {m j : Nat} (i : Fin n) (hm : j + m = 8) (kept : σ) :
    (receiveBits m kept).run (slots (ε := ε) true) (lines (8 * i.val + j)) =
      ⟨lines (8 * (i.val + 1)), kept, [], .ok ((bitsOf (v.get i)).drop j)⟩ := by
  induction m generalizing j with
  | zero =>
    obtain rfl : j = 8 := hm
    rw [List.drop_eq_nil_of_le (by simp), Nat.mul_succ]
    rfl
  | succ m ih =>
    have hone : (receiveBit kept).run (slots (ε := ε) true) (lines (8 * i.val + j)) =
        ⟨lines (8 * i.val + (j + 1)), kept, [], .ok (bitAt (v.get i) j)⟩ := by
      rw [receiveBit, run_read, h i j (by omega)]
      rfl
    have hcons : receiveBits (m + 1) kept = (receiveBit kept).bind fun kept bit =>
        (receiveBits m kept).bind fun kept rest => .done kept (.ok (bit :: rest)) := rfl
    rw [hcons, Exchange.run_bind_of_ok hone, Exchange.run_bind_of_ok (ih (by omega)),
      List.drop_eq_getElem_cons (i := j) (by simp; omega), getElem_bitsOf]
    rfl

theorem run_receiveByte (h : Sends lines v) (i : Fin n) (kept : σ) :
    (receiveByte kept).run (slots (ε := ε) true) (lines (8 * i.val)) =
      ⟨lines (8 * (i.val + 1)), kept, [], .ok (v.get i)⟩ := by
  have hbits : (receiveBits 8 kept).run (slots (ε := ε) true) (lines (8 * i.val)) = _ :=
    run_receiveBits h (j := 0) i rfl kept
  have he : receiveByte kept =
      (receiveBits 8 kept).bind fun kept bits => .done kept (.ok (byteOf bits)) := rfl
  rw [he, Exchange.run_bind_of_ok hbits, List.drop_zero, byteOf_bitsOf]
  rfl

theorem run_fill (h : Sends lines v) {indices : List (Fin n)} {k : Nat}
    (hi : (List.finRange n).drop k = indices) (buffer : Vector UInt8 n) :
    (fill indices buffer).run (slots (ε := ε) true) (lines (8 * k)) =
      ⟨lines (8 * (k + indices.length)),
        indices.foldl (fun b (i : Fin n) => b.set i (v.get i) i.isLt) buffer, [], .ok ()⟩ := by
  induction indices generalizing k buffer with
  | nil => rfl
  | cons i rest ih =>
    obtain ⟨rfl, hrest⟩ := drop_finRange_cons hi
    rw [fill_cons, Exchange.run_bind_of_ok (run_receiveByte h i buffer), ih hrest,
      List.length_cons, Nat.add_assoc, Nat.add_comm 1]
    rfl

/-- The buffer is overwritten as a whole. -/
theorem run_receive (h : Sends lines v) (hn : n ≠ 0) (buffer : Vector UInt8 n) :
    (receive buffer).run (slots (ε := ε) true) (lines 0) = ⟨lines (8 * n), v, [], .ok ()⟩ := by
  rw [receive_eq_fill hn]
  refine (run_fill h (k := 0) List.drop_zero buffer).trans ?_
  rw [foldl_set_finRange, List.length_finRange, Nat.zero_add]

end Receive

theorem sends_meet (ds : List Device) (written : Array Bool) :
    Sends (fun k => ⟨ds.map (·.sending k), written⟩) (RomCode.meet (ds.map (·.code))).bytes := by
  intro i j hj
  refine (read_sending ⟨8 * i.val + j, by omega⟩).trans ?_
  simp only [RomCode.bit, show (8 * i.val + j) / 8 = i by omega,
    show (8 * i.val + j) % 8 = j by omega]
  rfl

/-- The line after all devices have sent their codes at once. -/
def sent (line : SlotLine) : SlotLine :=
  ⟨line.devices.map fun d => (d.asked .readRom).sending 64, (line.ask .readRom).written⟩

theorem run_readCode (h : ¬ line.devices.isEmpty) (c : RomCode) :
    (readCode c).run (slots (ε := ε) true) line =
      ⟨line.sent, RomCode.meet line.codes, [], .ok ()⟩ := by
  have hask : line.ask .readRom =
      ⟨(line.devices.map (·.asked .readRom)).map (·.sending 0), (line.ask .readRom).written⟩ := by
    rw [List.map_map]
    rfl
  have he : readCode c = (Transaction.reset c).bind fun c _ =>
      (sendByte RomCommand.readRom.code c).bind fun c _ =>
        (receive c.bytes).mapKept RomCode.mk := rfl
  rw [he, run_addressing h .readRom, Exchange.run_mapKept, hask,
    run_receive (sends_meet _ _) (by decide), List.map_map, List.map_map]
  simp only [Function.comp_def, Device.code_asked]
  rfl

theorem soleCode_eq (kept : σ) : soleCode kept = ((readCode .zero).bind fun c _ =>
    (Transaction.ofExcept c.check c).bind fun s _ => .done s (.ok c)).mapKept fun _ => kept := rfl

theorem run_soleCode_of_isEmpty (h : line.devices.isEmpty) (kept : σ) :
    (soleCode kept).run (slots (ε := ε) inTime) line =
      ⟨line.reset, kept, [.noPresence], .error (.refused .noResponse)⟩ := by
  have hread : (readCode .zero).run (slots (ε := ε) inTime) line =
      ⟨line.reset, .zero, [.noPresence], .error (.refused .noResponse)⟩ :=
    run_addressing_of_isEmpty h RomCode.zero _
  rw [soleCode_eq, Exchange.run_mapKept, Exchange.run_bind_of_error hread]

theorem run_soleCode (h : ¬ line.devices.isEmpty) (kept : σ) :
    (soleCode kept).run (slots (ε := ε) true) line = ⟨line.sent, kept, [],
      ((RomCode.meet line.codes).check.map fun _ => RomCode.meet line.codes).mapError
        .refused⟩ := by
  rw [soleCode_eq, Exchange.run_mapKept, Exchange.run_bind_of_ok (run_readCode h .zero)]
  simp only [Transaction.ofExcept]
  cases (RomCode.meet line.codes).check with
  | ok _ => rfl
  | error reason => rfl

end Run

section Selected
variable (line : SlotLine)

theorem codes_reset : line.reset.codes = line.codes := codes_map rfl Device.code_reset

theorem selected_reset : line.reset.selected = [] := by
  have h : line.reset.selected = line.codes.filter fun _ => false :=
    selected_map (f := Device.reset) rfl (fun _ => rfl) fun _ => rfl
  rw [h, List.filter_false]

theorem selected_skipRom : (line.ask .skipRom).selected = line.codes := by
  have h : (line.ask .skipRom).selected = line.codes.filter fun _ => true :=
    selected_map rfl (Device.code_asked .skipRom) fun _ => rfl
  rw [h, List.filter_true]

theorem codes_matchRom (c : RomCode) :
    ((line.ask .matchRom).writes c.bits).codes = line.codes := by
  apply codes_map (devices_select line c)
  intro d
  rw [Device.code_following, Device.code_asked]

theorem selected_matchRom (c : RomCode) :
    ((line.ask .matchRom).writes c.bits).selected = line.codes.filter (· = c) := by
  apply selected_map (devices_select line c)
  · intro d
    rw [Device.code_following, Device.code_asked]
  · intro d
    rw [Device.selected_following _ rfl, Device.code_asked]

theorem codes_sent : line.sent.codes = line.codes :=
  codes_map (f := fun d => (d.asked .readRom).sending 64) rfl (Device.code_asked .readRom)

theorem selected_sent : line.sent.selected = [] := by
  have h : line.sent.selected = line.codes.filter fun _ => false :=
    selected_map (f := fun d => (d.asked .readRom).sending 64) rfl (Device.code_asked .readRom)
      fun _ => rfl
  rw [h, List.filter_false]

end Selected

end SlotLine

end OneWire
