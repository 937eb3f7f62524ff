import OneWire.Proofs.Search.Alike

namespace OneWire

namespace Device
variable {d : Device} {f : Device → Device} {hit : RomCode → Bool}

theorem hear_idle (hd : d.phase = .idle) (bit : Bool) : d.hear bit = d := by
  obtain ⟨code, phase, selected, commands, scratchpad⟩ := d
  obtain rfl : phase = .idle := hd
  rfl

theorem foldl_hear_idle (hd : d.phase = .idle) (bits : List Bool) : bits.foldl hear d = d := by
  induction bits with
  | nil => rfl
  | cons bit bits ih => rw [List.foldl_cons, hear_idle hd, ih]

theorem foldl_hear_store (bits : List Bool) (d : Device) :
    bits.foldl hear { d with phase := .store } =
      { d with phase := .store, scratchpad := d.scratchpad ++ bits.toArray } := by
  induction bits generalizing d with
  | nil => simp
  | cons bit bits ih =>
    refine (ih { d with scratchpad := d.scratchpad.push bit }).trans ?_
    simp

@[simp] theorem scratchpad_asked (command : RomCommand) (d : Device) :
    (d.asked command).scratchpad = d.scratchpad := by cases command <;> rfl

theorem scratchpad_following (onward : Fin 64 → Phase) (r : RomCode) (k : Nat) :
    (d.following onward r k).scratchpad = d.scratchpad := by
  unfold following select
  grind

/-- `f` addresses the devices whose codes are hit and sends the others away. -/
structure Addresses (hit : RomCode → Bool) (f : Device → Device) : Prop where
  code (d : Device) : (f d).code = d.code
  scratchpad (d : Device) : (f d).scratchpad = d.scratchpad
  phase (d : Device) : (f d).phase = if hit d.code then .function [] else .idle

theorem addresses_all : Addresses (fun _ => true) (·.asked .skipRom) :=
  ⟨code_asked .skipRom, scratchpad_asked .skipRom, fun _ => rfl⟩

theorem addresses_code (c : RomCode) :
    Addresses (· = c) fun d => (d.asked .matchRom).following .matchCode c 64 := by
  refine ⟨fun d => ?_, fun d => ?_, fun d => ?_⟩
  · rw [code_following, code_asked]
  · rw [scratchpad_following, scratchpad_asked]
  · simp only [following, RomCode.agrees_all, code_asked, decide_eq_true_eq]
    split <;> rfl

theorem Addresses.scratchpad_written (h : Addresses hit f) (bits : List Bool) (d : Device) :
    let written := (bitsOf writeScratchpad ++ bits).foldl hear (f d)
    written.code = d.code ∧
      written.scratchpad = if hit d.code then bits.toArray else d.scratchpad := by
  have hphase := h.phase d
  rw [List.foldl_append]
  by_cases hd : hit d.code
  · rw [if_pos hd] at hphase
    have hperform : (f d).perform writeScratchpad =
        { { f d with scratchpad := #[] } with phase := .store } := rfl
    rw [foldl_hear_function hphase, hperform, foldl_hear_store, if_pos hd]
    exact ⟨h.code d, by simp⟩
  · rw [if_neg hd] at hphase
    rw [foldl_hear_idle hphase, foldl_hear_idle hphase, if_neg hd]
    exact ⟨h.code d, h.scratchpad d⟩

/-- A device that was asked for its scratchpad, if it is addressed, and has sent `k` bits. -/
def recalling (hit : RomCode → Bool) (f : Device → Device) (k : Nat) (d : Device) : Device :=
  { f d with phase := if hit d.code then .recall k else .idle }

theorem Addresses.foldl_hear_recall (h : Addresses hit f) (d : Device) :
    (bitsOf readScratchpad).foldl hear (f d) = d.recalling hit f 0 := by
  have hphase := h.phase d
  by_cases hd : hit d.code
  · rw [if_pos hd] at hphase
    rw [foldl_hear_function hphase, recalling, if_pos hd]
    rfl
  · rw [if_neg hd] at hphase
    rw [foldl_hear_idle hphase, recalling, if_neg hd, ← hphase]

theorem Addresses.answer_recalling (h : Addresses hit f) (k : Nat) (d : Device) :
    (d.recalling hit f k).answer =
      (!hit d.code || d.scratchpad.getD k true, d.recalling hit f (k + 1)) := by
  by_cases hd : hit d.code
  · simp [recalling, answer, hd, h.scratchpad]
  · simp [recalling, answer, hd]

end Device

namespace Transaction
variable {σ : Type}

def address : Option RomCode → Transaction σ Unit
  | none => selectAll
  | some c => select c

/-- Fills the scratchpads of all devices, or of those with one code. -/
def store (target : Option RomCode) (data : List UInt8) : Transaction σ Unit := do
  address target
  sendByte Device.writeScratchpad
  send data

/-- Reads the scratchpad of the device with this code into the buffer that is kept. -/
def load {n : Nat} (c : RomCode) : Transaction (Vector UInt8 n) Unit := do
  select c
  sendByte Device.readScratchpad
  receive

end Transaction

def hits (target : Option RomCode) (c : RomCode) : Bool := target.all (c = ·)

def padOf (data : List UInt8) : Array Bool := (data.flatMap bitsOf).toArray

/-- Past its end a scratchpad reads as ones. -/
theorem getD_padOf (data : List UInt8) (i : Nat) {j : Nat} (hj : j < 8) :
    (padOf data).getD (8 * i + j) true = bitAt (data.getD i 0xff) j := by
  induction data generalizing i with
  | nil =>
    have : ∀ j : Fin 8, true = bitAt 0xff j := by decide
    exact this ⟨j, hj⟩
  | cons b data ih =>
    have hpad : padOf (b :: data) = (bitsOf b).toArray ++ padOf data := by simp [padOf]
    rw [hpad]
    cases i with
    | zero => simp [Array.getD_eq_getD_getElem?, Array.getElem?_append, hj]
    | succ i =>
      have hi := ih i
      simp only [Array.getD_eq_getD_getElem?] at hi ⊢
      simp [Array.getElem?_append, show ¬ 8 * (i + 1) + j < 8 by omega,
        show 8 * (i + 1) + j - 8 = 8 * i + j by omega, hi]

namespace SlotLine
open Transaction
variable {ε σ α β : Type} {line later : SlotLine} {ds : List Device} {f : Device → Device}
  {written : Array Bool}

def memory (line : SlotLine) : List (RomCode × Array Bool) :=
  line.devices.map fun d => (d.code, d.scratchpad)

theorem memory_map (hc : ∀ d, (f d).code = d.code) (hs : ∀ d, (f d).scratchpad = d.scratchpad) :
    memory ⟨ds.map f, written⟩ = ds.map fun d => (d.code, d.scratchpad) := by
  simp only [memory, List.map_map, Function.comp_def, hc, hs]

theorem run_address (h : ¬ line.devices.isEmpty) (target : Option RomCode) (kept : σ) :
    ∃ f written, Device.Addresses (hits target) f ∧
      (address target kept).run (slots (ε := ε) true) line =
        ⟨⟨line.devices.map f, written⟩, kept, [], .ok ()⟩ := by
  cases target with
  | none => exact ⟨_, _, Device.addresses_all, run_selectAll h kept⟩
  | some c =>
    refine ⟨_, ((line.ask .matchRom).writes c.bits).written, Device.addresses_code c, ?_⟩
    rw [← devices_select]
    exact run_select h c kept

theorem run_send (kept : σ) (data : List UInt8) (line : SlotLine) :
    (send data kept).run (slots (ε := ε) true) line = ⟨line.writes (data.flatMap bitsOf), kept, [],
      if data.isEmpty then .error (.refused .emptyBuffer) else .ok ()⟩ := by
  cases data with
  | nil => simp [writes]; rfl
  | cons b data =>
    rw [send_of_ne_nil (List.cons_ne_nil b data)]
    exact run_sendBits kept ((b :: data).flatMap bitsOf) line

/-- The devices that are meant hold the data from then on, and the others what they held. -/
theorem run_store (h : ¬ line.devices.isEmpty) (target : Option RomCode) (data : List UInt8)
    (kept : σ) : ∃ later, (store target data kept).run (slots (ε := ε) true) line =
        ⟨later, kept, [], if data.isEmpty then .error (.refused .emptyBuffer) else .ok ()⟩ ∧
      later.memory = line.memory.map fun x =>
        (x.1, if hits target x.1 then padOf data else x.2) := by
  obtain ⟨f, written, hf, hrun⟩ := run_address (ε := ε) h target kept
  have he : store target data kept = (address target kept).bind fun kept _ =>
      (sendByte Device.writeScratchpad kept).bind fun kept _ => send data kept := rfl
  refine ⟨writes ⟨line.devices.map f, written⟩
    (bitsOf Device.writeScratchpad ++ data.flatMap bitsOf), ?_, ?_⟩
  · rw [he, Exchange.run_bind_of_ok hrun, Exchange.run_bind_of_ok (run_sendByte kept _ _), run_send,
      writes_writes]
    rfl
  · simp only [memory, writes, List.map_map, Function.comp_def]
    apply List.map_congr_left
    intro d _
    obtain ⟨hcode, hpad⟩ := hf.scratchpad_written (data.flatMap bitsOf) d
    rw [hcode, hpad]
    rfl

theorem all_answers (codes : List RomCode) (c : RomCode) (bit : RomCode → Bool) :
    (codes.all fun a => !decide (a = c) || bit a) = if c ∈ codes then bit c else true := by
  induction codes with
  | nil => rfl
  | cons a codes ih =>
    rw [List.all_cons, ih]
    by_cases ha : a = c
    · subst ha
      by_cases hm : a ∈ codes <;> simp [hm]
    · simp [ha, Ne.symm ha]

theorem sends_recalling {n : Nat} {codes : List RomCode} {held : RomCode → List UInt8}
    {c : RomCode} (hf : Device.Addresses (· = c) f)
    (hm : memory ⟨ds, #[]⟩ = codes.map fun a => (a, padOf (held a))) (written : Array Bool) :
    Sends (fun k => ⟨ds.map (·.recalling (· = c) f k), written⟩)
      (.ofFn fun i : Fin n => if c ∈ codes then (held c).getD i 0xff else 0xff) := by
  intro i j hj
  have hbit (k : Nat) : (ds.all fun d => !decide (d.code = c) || d.scratchpad.getD k true) =
      if c ∈ codes then (padOf (held c)).getD k true else true := by
    rw [← all_answers codes c fun a => (padOf (held a)).getD k true]
    have h := congrArg (List.all · fun x => !decide (x.1 = c) || x.2.getD k true) hm
    simpa only [memory, List.all_map, Function.comp_def] using h
  have hones : true = bitAt 0xff j := by
    have : ∀ j : Fin 8, true = bitAt 0xff j := by decide
    exact this ⟨j, hj⟩
  simp only [read, answerAll_eq, List.all_map, List.map_map, Function.comp_def,
    hf.answer_recalling, hbit, getD_padOf _ _ hj, get_ofFn, Bool.not_true, Bool.or_false]
  by_cases hc : c ∈ codes
  · simp [hc]
  · simp [hc, ← hones]

/-- A scratchpad is read without changing any. Past its end, and where no device has the code, ones
are read. -/
theorem run_load {n : Nat} {codes : List RomCode} {held : RomCode → List UInt8}
    (h : ¬ line.devices.isEmpty) (hm : line.memory = codes.map fun a => (a, padOf (held a)))
    (c : RomCode) (buffer : Vector UInt8 n) : ∃ lines : Nat → SlotLine,
      (∀ k, (lines k).memory = line.memory) ∧
      Sends lines (.ofFn fun i : Fin n => if c ∈ codes then (held c).getD i 0xff else 0xff) ∧
      (load c buffer).run (slots (ε := ε) true) line =
        (receive buffer).run (slots true) (lines 0) := by
  have he : load c buffer = (select c buffer).bind fun kept _ =>
      (sendByte Device.readScratchpad kept).bind fun kept _ => receive kept := rfl
  have hf := Device.addresses_code c
  refine ⟨_, fun k => ?_, sends_recalling hf hm
    ((line.ask .matchRom).writes c.bits |>.writes (bitsOf Device.readScratchpad)).written, ?_⟩
  · exact memory_map hf.code hf.scratchpad
  · have hdevices : (((line.ask .matchRom).writes c.bits).writes
        (bitsOf Device.readScratchpad)).devices =
          line.devices.map (Device.recalling (· = c)
            (fun d => (d.asked .matchRom).following .matchCode c 64) 0) := by
      rw [writes, devices_select, List.map_map]
      exact List.map_congr_left fun d _ => hf.foldl_hear_recall d
    rw [he, Exchange.run_bind_of_ok (run_select h c buffer),
      Exchange.run_bind_of_ok (run_sendByte _ _ _)]
    simp only [← hdevices]
    rfl

theorem memory_reset (line : SlotLine) : line.reset.memory = line.memory :=
  memory_map (fun _ => rfl) fun _ => rfl

theorem memory_sent (line : SlotLine) : line.sent.memory = line.memory :=
  memory_map (f := fun d => (d.asked .readRom).sending 64) (Device.code_asked .readRom)
    (Device.scratchpad_asked .readRom)

theorem memory_searched (line : SlotLine) (r : RomCode) :
    (line.searched r).memory = line.memory := by
  apply memory_map
  · intro d
    exact (Device.code_following (.search · .direct) 64).trans (Device.code_asked .searchRom d)
  · intro d
    exact (Device.scratchpad_following (.search · .direct) r 64).trans
      (Device.scratchpad_asked .searchRom d)

/-- No run changes a scratchpad. -/
def KeepsMemory (ε : Type) (x : Exchange σ α) : Prop :=
  ∀ line, (x.run (slots (ε := ε) true) line).line.memory = line.memory

theorem KeepsMemory.bind {x : Exchange σ α} {g : σ → α → Exchange σ β} (h : KeepsMemory ε x)
    (hg : ∀ kept a, KeepsMemory ε (g kept a)) : KeepsMemory ε (x.bind g) := by
  intro line
  have hx := h line
  rw [Exchange.run_bind]
  generalize x.run (slots (ε := ε) true) line = o at hx
  obtain ⟨later, kept, log, result⟩ := o
  cases result with
  | error e => exact hx
  | ok a => exact (hg kept a later).trans hx

theorem keepsMemory_reset (kept : σ) : KeepsMemory ε (Transaction.reset kept) := by
  intro line
  rw [run_reset]
  split <;> exact memory_reset line

theorem keepsMemory_soleCode (kept : σ) : KeepsMemory ε (soleCode kept) := by
  intro line
  by_cases h : line.devices.isEmpty
  · rw [run_soleCode_of_isEmpty h]
    exact memory_reset line
  · rw [run_soleCode h]
    exact memory_sent line

theorem keepsMemory_pass (s : Search) : KeepsMemory ε (Search.pass s) := by
  intro line
  by_cases h : line.devices.isEmpty
  · rw [Search.run_pass_of_isEmpty s h]
    exact memory_reset line
  · have hne : line.codes ≠ [] := by simpa [codes] using h
    obtain ⟨r, hr⟩ := RomCode.exists_walkEnds s.choice hne
    rw [Search.run_pass hr]
    exact memory_searched line r

theorem keepsMemory_next (s : Search) : KeepsMemory ε (Search.next s) := by
  cases hs : s.finished with
  | true =>
    rw [Search.next_of_finished hs]
    exact fun _ => rfl
  | false =>
    rw [Search.next_of_unfinished hs]
    exact keepsMemory_pass s

theorem keepsMemory_search_firstOfFamily (family : UInt8) (n : Nat) (s : Search) :
    KeepsMemory ε (Search.firstOfFamily family n s) := by
  induction n generalizing s with
  | zero => exact fun _ => rfl
  | succ n ih =>
    cases hs : s.finished with
    | true =>
      rw [Search.firstOfFamily_of_finished family n hs]
      exact fun _ => rfl
    | false =>
      rw [Search.firstOfFamily_of_unfinished family n hs]
      apply (keepsMemory_pass s).bind
      intro s c
      split
      · exact fun _ => rfl
      · exact ih s

theorem keepsMemory_firstOfFamily (family : UInt8) (kept : σ) :
    KeepsMemory ε (firstOfFamily family kept) := by
  obtain ⟨n, hn⟩ := firstOfFamily_eq family kept
  intro line
  rw [hn, Exchange.run_mapKept]
  exact keepsMemory_search_firstOfFamily family (n + 1) {} line

end SlotLine

end OneWire
