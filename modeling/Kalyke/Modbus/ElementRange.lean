-- SUMMARY: Which requests make the slave read or write elements that do not exist.
import Kalyke.Modbus.Requests

/-!
# Elements out of Range

A request names elements: one, a block of them, or a list. If all exist, only existing ones are
touched. If one does not exist, the request should be refused with nothing touched; it is not where
`LetsPass` holds.
-/

namespace Kalyke

open List

/-- The element exists. -/
def Cell.Present : Cell → Prop
  | bit e i => i < e.rang
  | word e i => i < e.rang
  | c32 i => c16Rang ≤ i ∧ i < cRang
  | lm k => k < lmRang * maxSbrNestedLayer
  | v k => k < vRang * maxSbrNestedLayer

/-- The standard functions and those on lists. -/
def MbFunction.OnElements (f : MbFunction) : Prop :=
  f ≠ .downloadFunc ∧ f ≠ .uploadFunc ∧ f ≠ .ctrlFunc

/-- The cell an address of a list stands for. -/
def cellAt (kind : AddrKind) (a : Nat) : Option Cell :=
  match mbSlaveConvertElementInfo kind a with
  | none => none
  | some (t, n) =>
    match t.bit?, t.register? n with
    | some e, _ => some (.bit e n)
    | none, some .c32 => some (.c32 (c32RealAddr n))
    | none, some (.word e) => some (.word e n)
    | none, none => none

variable {ω : Type}

namespace Slave

/-- The state with nothing recorded yet. -/
def fresh (s : Slave ω) : Slave ω :=
  { s with sent := [], accessed := [], errorCode := none, stuck := false }

@[simp] theorem fresh_sent (s : Slave ω) : s.fresh.sent = [] := rfl

@[simp] theorem fresh_accessed (s : Slave ω) : s.fresh.accessed = [] := rfl

/-- Hand a frame over to the slave. -/
def handle (b : Board ω) (s : Slave ω) (m : MsgPack) : Slave ω := s.fresh.mbSlaveMsgHandler b m

section Handle

variable {b : Board ω} {s : Slave ω} {m : MsgPack}

theorem handle_short (hlen : m.len < 5) : s.handle b m = s.fresh := if_pos hlen

theorem handle_badCrc (hlen : ¬ m.len < 5) (hcrc : ¬ s.CrcOk m) :
    s.handle b m = (s.fresh.countCrcErr m).mbSlaveErrorResp m .errorFrame := by
  rw [handle, mbSlaveMsgHandler, if_neg hlen]
  exact if_pos hcrc

theorem handle_filtered (hlen : ¬ m.len < 5) (hcrc : s.CrcOk m) (hfilter : s.Filtered m) :
    s.handle b m = s.fresh := by
  rw [handle, mbSlaveMsgHandler, if_neg hlen]
  exact (if_neg (not_not.mpr hcrc)).trans (if_pos hfilter)

theorem handle_passed (hlen : ¬ m.len < 5) (hcrc : s.CrcOk m) (hfilter : ¬ s.Filtered m) :
    s.handle b m = s.fresh.function b m (mbFunction? s.functionCode) := by
  rw [handle, mbSlaveMsgHandler, if_neg hlen]
  exact (if_neg (not_not.mpr hcrc)).trans (if_neg hfilter)

end Handle

/-! ## What a Request Names -/

/-- A block of bits. An address that is not mapped stands for no element. -/
def bitBlock (s : Slave ω) (base : BitElement → BitElement) (cnt : Nat) : List (Option Cell) :=
  match mbSlaveConvertElementInfo .bit s.reqAddr with
  | none => [none]
  | some (t, n) => (range cnt).map fun i => t.bit?.map fun e => .bit (base e) (n + i)

def registerBlock (s : Slave ω) (cnt : Nat) : List (Option Cell) :=
  match mbSlaveConvertElementInfo .word s.reqAddr with
  | none => [none]
  | some (t, n) => (range cnt).map fun i => (t.register? n).map fun r => r.cell (n + i)

/-- The elements of a list whose entries have some number of bytes. -/
def listNames (s : Slave ω) (kind : AddrKind) (width : Nat) : List (Option Cell) :=
  (range s.listCnt).map fun i => cellAt kind (s.entryAddr (3 + width * i))

def named (s : Slave ω) : MbFunction → List (Option Cell)
  | .readCoilsStatus => s.bitBlock id s.reqCnt
  | .readDescreteInputStatus => s.bitBlock (fun _ => .X) s.reqCnt
  | .readHoldingRegister => s.registerBlock s.reqCnt
  | .writeSingleCoil => s.bitBlock id 1
  | .writeRegister => s.registerBlock 1
  | .writeMultipleCoils => s.bitBlock id s.reqCnt
  | .writeMultipleRegisters => s.registerBlock s.reqCnt
  | .readMultipleBitElement => s.listNames .bit 2
  | .readMultipleWordElement => s.listNames .word 2
  | .writeMultipleBitElement => s.listNames .bit 3
  | .writeMultipleWordElement => s.listNames .word 4
  | _ => []

/-- A request names something that does not exist. -/
def NamesAbsent (s : Slave ω) (f : MbFunction) : Prop :=
  ∃ x ∈ s.named f, ∀ c, x = some c → ¬ c.Present

/-- Only existing elements are touched, and a request that names another is refused with an
exception response and touches nothing. -/
def KeepsRange (b : Board ω) (s : Slave ω) (m : MsgPack) (f : MbFunction) : Prop :=
  (∀ c ∈ (s.handle b m).accessed, c.Present) ∧
    (s.NamesAbsent f → (∃ frame, (s.handle b m).sent = [.exception frame]) ∧
      (s.handle b m).accessed = [] ∧ (s.handle b m).store = s.store)

/-- No exception response is sent to the frame, whatever is wrong with it. -/
def Silent (s : Slave ω) (m : MsgPack) : Prop :=
  m.len < 5 ∨ s.Filtered m ∨ m.isBroadcastInfo

/-- The checks of a function let a request pass, or the first entry of a list. A block may start
so that its last element is the first behind the end; for registers written at a counter of 16 bits
the end is that of all counters; the functions on single elements do not look at the range. -/
def LetsPass (s : Slave ω) (m : MsgPack) : MbFunction → Prop
  | .readCoilsStatus =>
    m.len = 8 ∧ s.reqCnt ≤ 0x7D0 ∧ ∃ e n, BitAt s.reqAddr e n ∧ n + s.reqCnt ≤ e.rang + 1
  | .readDescreteInputStatus =>
    m.len = 8 ∧ s.reqCnt ≤ 0x7D0 ∧ ∃ e n, BitAt s.reqAddr e n ∧ n + s.reqCnt ≤ 2048 + 1
  | .readHoldingRegister =>
    m.len = 8 ∧ s.reqCnt ≤ 0x7D ∧ ∃ r n, RegisterAt s.reqAddr r n ∧ n + s.reqCnt ≤ r.readRang + 1
  | .writeSingleCoil => s.CoilValue ∧ ∃ e n, CoilAt s.reqAddr e n
  | .writeRegister => ∃ r n, RegisterAt s.reqAddr r n
  | .writeMultipleCoils =>
    s.reqByteNum = (s.reqCnt + 7) / 8 ∧ 1 ≤ s.reqCnt ∧ s.reqCnt ≤ 0x7B0 ∧
      ∃ e n, CoilAt s.reqAddr e n ∧ n + s.reqCnt ≤ e.rang + 1
  | .writeMultipleRegisters =>
    1 ≤ s.reqCnt ∧ s.reqCnt ≤ 0x78 ∧ s.reqByteNum / 2 = s.reqCnt ∧
      ∃ r n, RegisterAt s.reqAddr r n ∧ n + s.reqCnt ≤ r.writeRang + 1
  | .readMultipleBitElement => s.listCnt ≤ 0x50 ∧ ∃ e n, BitAt (s.entryAddr 3) e n
  | .readMultipleWordElement => s.listCnt ≤ 0x3C ∧ ∃ r n, RegisterAt (s.entryAddr 3) r n
  | .writeMultipleBitElement => s.listCnt ≤ 0x50 ∧ ∃ e n, CoilAt (s.entryAddr 3) e n
  | .writeMultipleWordElement => s.listCnt ≤ 0x3C ∧ ∃ r n, RegisterAt (s.entryAddr 3) r n
  | _ => False

/-! ## What the Functions Do -/

variable {s s' : Slave ω} {m : MsgPack} {f : MbFunction}

/-- What a function does with a request, as far as the range of elements goes. -/
structure RangeOutcome (s : Slave ω) (m : MsgPack) (f : MbFunction) (s' : Slave ω) : Prop where
  touched : ∀ c ∈ s'.accessed, some c ∈ s.named f
  broadcast : m.isBroadcastInfo → ∀ frame, s'.sent ≠ [.exception frame]
  refused : ¬ m.isBroadcastInfo → s.NamesAbsent f → ¬ s.LetsPass m f →
    (∃ frame, s'.sent = [.exception frame]) ∧ s'.accessed = [] ∧ s'.store = s.store
  passed : ¬ m.isBroadcastInfo → s.named f ≠ [] → s.LetsPass m f → s'.accessed ≠ []

namespace RangeOutcome

theorem kept_iff (h : RangeOutcome s m f s') (hb : ¬ m.isBroadcastInfo) :
    ((∀ c ∈ s'.accessed, c.Present) ∧
      (s.NamesAbsent f → (∃ frame, s'.sent = [.exception frame]) ∧ s'.accessed = [] ∧
        s'.store = s.store)) ↔ ¬ (s.NamesAbsent f ∧ s.LetsPass m f) := by
  constructor
  · rintro ⟨-, hrefused⟩ ⟨habsent, hpass⟩
    have hnamed : s.named f ≠ [] := by
      obtain ⟨x, hx, -⟩ := habsent
      exact ne_nil_of_mem hx
    exact h.passed hb hnamed hpass (hrefused habsent).2.1
  · intro hnot
    by_cases habsent : s.NamesAbsent f
    · have hr := h.refused hb habsent fun hpass => hnot ⟨habsent, hpass⟩
      exact ⟨by simp [hr.2.1], fun _ => hr⟩
    · refine ⟨fun c hc => ?_, fun ha => absurd ha habsent⟩
      by_contra hp
      refine habsent ⟨some c, h.touched c hc, fun c' hc' => ?_⟩
      cases hc'
      exact hp

/-- A frame that is not answered with an exception keeps the range if it names nothing absent. -/
theorem silent_iff (htouched : ∀ c ∈ s'.accessed, some c ∈ s.named f)
    (hsent : ∀ frame, s'.sent ≠ [.exception frame]) :
    ((∀ c ∈ s'.accessed, c.Present) ∧
      (s.NamesAbsent f → (∃ frame, s'.sent = [.exception frame]) ∧ s'.accessed = [] ∧
        s'.store = s.store)) ↔ ¬ s.NamesAbsent f := by
  constructor
  · rintro ⟨-, hrefused⟩ habsent
    obtain ⟨⟨frame, hframe⟩, -⟩ := hrefused habsent
    exact hsent frame hframe
  · intro habsent
    refine ⟨fun c hc => ?_, fun ha => absurd ha habsent⟩
    by_contra hp
    refine habsent ⟨some c, htouched c hc, fun c' hc' => ?_⟩
    cases hc'
    exact hp

theorem of_refused (e : MbError) (h : ¬ s.LetsPass m f) :
    RangeOutcome s m f (s.fresh.mbSlaveErrorResp m e) where
  touched := by simp [fresh]
  broadcast hb frame := by
    rw [mbSlaveErrorResp_sent, if_pos hb]
    simp [fresh]
  refused hb _ _ := by
    rw [mbSlaveErrorResp_sent, if_neg hb]
    exact ⟨⟨_, rfl⟩, by simp [fresh], by simp [fresh]⟩
  passed _ _ hpass := absurd hpass h

theorem of_ignored (h : m.isBroadcastInfo) : RangeOutcome s m f s.fresh where
  touched := by simp [fresh]
  broadcast _ frame := by simp [fresh]
  refused hb := absurd h hb
  passed hb := absurd h hb

theorem of_passed (hpass : s.LetsPass m f) (hnamed : s'.accessed.map some = s.named f)
    (hsent : ∃ frame, s'.sent = [.normal frame]) : RangeOutcome s m f s' where
  touched c hc := hnamed ▸ mem_map_of_mem hc
  broadcast _ frame := by
    obtain ⟨frame', h⟩ := hsent
    simp [h]
  refused _ _ h := absurd hpass h
  passed _ hne _ hnil := by
    rw [hnil] at hnamed
    exact hne hnamed.symm

end RangeOutcome

theorem bitBlock_eq {base : BitElement → BitElement} {cnt n : Nat} {e : BitElement}
    (h : BitAt s.reqAddr e n) :
    s.bitBlock base cnt = (range cnt).map fun i => some (.bit (base e) (n + i)) := by
  obtain ⟨t, ht, he⟩ := h
  simp [bitBlock, ht, he]

theorem registerBlock_eq {cnt n : Nat} {r : Register} (h : RegisterAt s.reqAddr r n) :
    s.registerBlock cnt = (range cnt).map fun i => some (r.cell (n + i)) := by
  obtain ⟨t, ht, hr⟩ := h
  simp [registerBlock, ht, hr]

theorem readBits_outcome {base : BitElement → BitElement} {shift : Bool}
    (hnamed : s.named f = s.bitBlock base s.reqCnt)
    (hpass : s.LetsPass m f ↔ ∃ x, s.fresh.readBitsRequest m base = .ok x) :
    RangeOutcome s m f (s.fresh.readBits m base shift) := by
  unfold readBits
  by_cases hb : m.isBroadcastInfo
  · rw [if_pos hb]
    exact .of_ignored hb
  · rw [if_neg hb]
    cases h : s.fresh.readBitsRequest m base with
    | error e => exact .of_refused e (by rw [hpass, h]; simp)
    | ok x =>
      obtain ⟨e, addr, cnt⟩ := x
      obtain ⟨-, -, hcnt, e₀, hat, he, -⟩ := readBitsRequest_eq_ok_iff.mp h
      refine .of_passed (hpass.mpr ⟨_, h⟩) ?_ (respond_normal _ m _ _)
      have hat : BitAt s.reqAddr e₀ addr := hat
      have hcnt : cnt = s.reqCnt := hcnt
      rw [hnamed, bitBlock_eq hat, he, hcnt]
      simp [respond, mbSlaveVerifyRespMsg, putResp, copyRequest, access]

theorem readHoldingRegister_outcome :
    RangeOutcome s m .readHoldingRegister (s.fresh.mbSlaveReadHoldingRegister m) := by
  unfold mbSlaveReadHoldingRegister
  by_cases hb : m.isBroadcastInfo
  · rw [if_pos hb]
    exact .of_ignored hb
  · rw [if_neg hb]
    cases h : s.fresh.readRegistersRequest m with
    | error e =>
      refine .of_refused e ?_
      rintro ⟨hlen, hcnt, r, n, hat, hn⟩
      have := readRegistersRequest_eq_ok_iff.mpr ⟨hlen, hcnt, rfl, hat, hn⟩
      exact absurd (h.symm.trans this) (by simp)
    | ok x =>
      obtain ⟨r, addr, cnt⟩ := x
      obtain ⟨hlen, hle, hcnt, hat, hn⟩ := readRegistersRequest_eq_ok_iff.mp h
      refine .of_passed ⟨hlen, hle, r, addr, hat, hn⟩ ?_ (respond_normal _ m _ _)
      have hat : RegisterAt s.reqAddr r addr := hat
      have hcnt : cnt = s.reqCnt := hcnt
      rw [named, registerBlock_eq hat, hcnt]
      simp [respond, mbSlaveVerifyRespMsg, putResp, copyRequest, access]

theorem writeSingleCoil_outcome :
    RangeOutcome s m .writeSingleCoil (s.fresh.mbSlaveWriteSingleCoil m) := by
  unfold mbSlaveWriteSingleCoil
  cases h : s.fresh.writeCoilRequest with
  | error e =>
    refine .of_refused e ?_
    rintro ⟨hv, e, n, hat⟩
    have := writeCoilRequest_eq_ok_iff.mpr ⟨hv, hat, rfl⟩
    exact absurd (h.symm.trans this) (by simp)
  | ok x =>
    obtain ⟨e, addr, x⟩ := x
    obtain ⟨hv, hat, -⟩ := writeCoilRequest_eq_ok_iff.mp h
    refine .of_passed ⟨hv, e, addr, hat⟩ ?_ (respond_normal _ m _ _)
    have hat : BitAt s.reqAddr e addr := (coilAt_iff.mp hat).1
    rw [named, bitBlock_eq hat]
    simp [respond, mbSlaveVerifyRespMsg, putResp, copyRequest, setBit, access]

theorem writeRegister_outcome :
    RangeOutcome s m .writeRegister (s.fresh.mbSlaveWriteRegister m) := by
  unfold mbSlaveWriteRegister
  cases h : s.fresh.writeRegisterRequest with
  | error e =>
    refine .of_refused e ?_
    rintro ⟨r, n, hat⟩
    have := writeRegisterRequest_eq_ok_iff.mpr hat
    exact absurd (h.symm.trans this) (by simp)
  | ok x =>
    obtain ⟨r, addr⟩ := x
    have hat : RegisterAt s.reqAddr r addr := writeRegisterRequest_eq_ok_iff.mp h
    refine .of_passed ⟨r, addr, hat⟩ ?_ ?_
    · rw [named, registerBlock_eq hat]
      cases r <;> simp [respond, mbSlaveVerifyRespMsg, putResp, copyRequest, setRegister, setWord,
        setC32, access, fresh, Register.cell]
    · obtain ⟨frame, hframe⟩ := respond_normal (s.fresh.setRegister r addr
        (s.fresh.receiveBuff.bigPU16 4)) m 6 []
      refine ⟨frame, hframe.trans ?_⟩
      cases r <;> rfl

theorem writeMultipleCoils_outcome :
    RangeOutcome s m .writeMultipleCoils (s.fresh.mbSlaveWriteMultipleCoils m) := by
  unfold mbSlaveWriteMultipleCoils
  cases h : s.fresh.writeCoilsRequest with
  | error e =>
    refine .of_refused e ?_
    rintro ⟨hbytes, h1, h2, e, n, hat, hn⟩
    have := writeCoilsRequest_eq_ok_iff.mpr ⟨hbytes, h1, h2, rfl, hat, hn⟩
    exact absurd (h.symm.trans this) (by simp)
  | ok x =>
    obtain ⟨e, addr, cnt⟩ := x
    obtain ⟨hbytes, h1, h2, hcnt, hat, hn⟩ := writeCoilsRequest_eq_ok_iff.mp h
    simp only [setCoils_eq]
    refine .of_passed ⟨hbytes, h1, h2, e, addr, hat, hn⟩ ?_ (respond_normal _ m _ _)
    have hat : BitAt s.reqAddr e addr := (coilAt_iff.mp hat).1
    have hcnt : cnt = s.reqCnt := hcnt
    rw [named, bitBlock_eq hat, hcnt]
    simp [respond, mbSlaveVerifyRespMsg, putResp, copyRequest]

theorem writeMultipleRegisters_outcome :
    RangeOutcome s m .writeMultipleRegisters (s.fresh.mbSlaveWriteMultipleRegisters m) := by
  unfold mbSlaveWriteMultipleRegisters
  cases h : s.fresh.writeRegistersRequest with
  | error e =>
    refine .of_refused e ?_
    rintro ⟨h1, h2, hbytes, r, n, hat, hn⟩
    have := writeRegistersRequest_eq_ok_iff.mpr ⟨h1, h2, hbytes, rfl, hat, hn⟩
    exact absurd (h.symm.trans this) (by simp)
  | ok x =>
    obtain ⟨r, addr, cnt⟩ := x
    obtain ⟨h1, h2, hbytes, hcnt, hat, hn⟩ := writeRegistersRequest_eq_ok_iff.mp h
    simp only [setRegisters_eq]
    refine .of_passed ⟨h1, h2, hbytes, r, addr, hat, hn⟩ ?_ (respond_normal _ m _ _)
    have hat : RegisterAt s.reqAddr r addr := hat
    have hcnt : cnt = s.reqCnt := hcnt
    rw [named, registerBlock_eq hat, hcnt]
    simp [respond, mbSlaveVerifyRespMsg, putResp, copyRequest]

/-! ## Lists -/

/-- An entry is carried out on the element its address stands for, or refused with nothing
touched. -/
def TouchesEntry (kind : AddrKind) (width : Nat) (step : Nat → Slave ω → EntryResult ω) : Prop :=
  ∀ i s, (step i s).1.sent = s.sent ∧ (step i s).1.receiveBuff = s.receiveBuff ∧
    (((step i s).1.accessed = s.accessed ∧ (step i s).1.store = s.store ∧
        ∃ e, (step i s).2 = .error e) ∨
      ∃ c skip, (step i s).2 = .ok skip ∧ cellAt kind (s.entryAddr (3 + width * i)) = some c ∧
        (step i s).1.accessed = s.accessed ++ [c])

theorem cellAt_bit {a n : Nat} {e : BitElement} (h : BitAt a e n) :
    cellAt .bit a = some (.bit e n) := by
  obtain ⟨t, ht, he⟩ := h
  simp [cellAt, ht, he]

theorem cellAt_word {a n : Nat} {e : WordElement} (h : RegisterAt a (.word e) n) :
    cellAt .word a = some (.word e n) := by
  obtain ⟨t, ht, hr⟩ := h
  simp [cellAt, ht, hr, word_bit?_eq_none ht]

theorem cellAt_c32 {a n : Nat} (h : RegisterAt a .c32 n) :
    cellAt .word a = some (.c32 (c32RealAddr n)) := by
  obtain ⟨t, ht, hr⟩ := h
  simp [cellAt, ht, hr, word_bit?_eq_none ht]

theorem readBitEntry_touches : TouchesEntry .bit 2 (@readBitEntry ω) := by
  intro i s
  rcases readBitEntry_cases i s with ⟨-, h⟩ | ⟨e, n, hat, h⟩
  · rw [h]
    exact ⟨rfl, rfl, .inl ⟨rfl, rfl, _, rfl⟩⟩
  · rw [h]
    exact ⟨rfl, rfl, .inr ⟨_, _, rfl, cellAt_bit hat, rfl⟩⟩

theorem readWordEntry_touches : TouchesEntry .word 2 (@readWordEntry ω) := by
  intro i s
  rcases readWordEntry_cases i s with ⟨-, h⟩ | ⟨e, n, hat, h⟩ | ⟨n, hat, h⟩
  · rw [h]
    exact ⟨rfl, rfl, .inl ⟨rfl, rfl, _, rfl⟩⟩
  · rw [h]
    exact ⟨rfl, rfl, .inr ⟨_, _, rfl, cellAt_word hat, rfl⟩⟩
  · rw [h]
    exact ⟨rfl, rfl, .inr ⟨_, _, rfl, cellAt_c32 hat, rfl⟩⟩

theorem writeBitEntry_touches : TouchesEntry .bit 3 (@writeBitEntry ω) := by
  intro i s
  rcases writeBitEntry_cases i s with ⟨-, h⟩ | ⟨e, n, hat, h⟩
  · rw [h]
    exact ⟨rfl, rfl, .inl ⟨rfl, rfl, _, rfl⟩⟩
  · rw [h]
    exact ⟨rfl, rfl, .inr ⟨_, _, rfl, cellAt_bit (coilAt_iff.mp hat).1, rfl⟩⟩

theorem writeWordEntry_touches : TouchesEntry .word 4 (@writeWordEntry ω) := by
  intro i s
  rcases writeWordEntry_cases i s with ⟨-, h⟩ | ⟨e, n, hat, h⟩ | ⟨n, hat, h⟩
  · rw [h]
    exact ⟨rfl, rfl, .inl ⟨rfl, rfl, _, rfl⟩⟩
  · rw [h]
    exact ⟨rfl, rfl, .inr ⟨_, _, rfl, cellAt_word hat, rfl⟩⟩
  · rw [h]
    exact ⟨rfl, rfl, .inr ⟨_, _, rfl, cellAt_c32 hat, rfl⟩⟩

/-- A loop over entries touches elements the entries name, and sends nothing. -/
theorem entryLoop_touches {kind : AddrKind} {width : Nat} {step : Nat → Slave ω → EntryResult ω}
    (hstep : TouchesEntry kind width step) (is : List Nat) (skip : Bool) (s : Slave ω) :
    (entryLoop step is skip s).1.sent = s.sent ∧
      (entryLoop step is skip s).1.receiveBuff = s.receiveBuff ∧
      ∃ cs, (entryLoop step is skip s).1.accessed = s.accessed ++ cs ∧
        ∀ c ∈ cs, ∃ i ∈ is, cellAt kind (s.entryAddr (3 + width * i)) = some c := by
  induction is generalizing skip s with
  | nil => exact ⟨rfl, rfl, [], by simp [entryLoop], by simp⟩
  | cons i is ih =>
    cases skip with
    | true =>
      obtain ⟨h1, h2, cs, h3, h4⟩ := ih false s
      refine ⟨h1, h2, cs, h3, fun c hc => ?_⟩
      obtain ⟨j, hj, hat⟩ := h4 c hc
      exact ⟨j, mem_cons_of_mem i hj, hat⟩
    | false =>
      obtain ⟨hsent, hrecv, ⟨hacc, -, e, he⟩ | ⟨c, skip, hok, hat, hacc⟩⟩ := hstep i s
      · have hloop : entryLoop step (i :: is) false s = ((step i s).1, some e) := by
          rw [entryLoop, ← Prod.eta (step i s), he]
        rw [hloop]
        exact ⟨hsent, hrecv, [], by simp [hacc], by simp⟩
      · have hloop : entryLoop step (i :: is) false s = entryLoop step is skip (step i s).1 := by
          rw [entryLoop, ← Prod.eta (step i s), hok]
        rw [hloop]
        obtain ⟨h1, h2, cs, h3, h4⟩ := ih skip (step i s).1
        refine ⟨h1.trans hsent, h2.trans hrecv, c :: cs, by simp [h3, hacc], fun c' hc' => ?_⟩
        rcases mem_cons.mp hc' with rfl | hc'
        · exact ⟨i, mem_cons_self, hat⟩
        · obtain ⟨j, hj, hat'⟩ := h4 c' hc'
          refine ⟨j, mem_cons_of_mem i hj, ?_⟩
          rwa [entryAddr, hrecv] at hat'

theorem finishList_accessed {respond : Slave ω → Slave ω} (r : LoopResult ω)
    (h : ∀ t, (respond t).accessed = t.accessed) :
    (finishList m respond r).accessed = r.1.accessed := by
  obtain ⟨t, _ | e⟩ := r
  · exact h t
  · exact mbSlaveErrorResp_accessed t m e

theorem list_outcome {kind : AddrKind} {width limit : Nat} {step : Nat → Slave ω → EntryResult ω}
    {respond : Slave ω → Slave ω} (hstep : TouchesEntry kind width step)
    (hrespond : ∀ t, (respond t).accessed = t.accessed)
    (hnamed : s.named f = s.listNames kind width)
    (hpass : s.LetsPass m f ↔ s.listCnt ≤ limit ∧ ∃ skip, (step 0 s.fresh).2 = .ok skip) :
    RangeOutcome s m f
      (if m.isBroadcastInfo then s.fresh
      else if limit < s.listCnt then s.fresh.mbSlaveErrorResp m .iliegalData
      else finishList m respond (entryLoop step (range s.listCnt) false s.fresh)) := by
  by_cases hb : m.isBroadcastInfo
  · rw [if_pos hb]
    exact .of_ignored hb
  by_cases hcnt : limit < s.listCnt
  · rw [if_neg hb, if_pos hcnt]
    exact .of_refused _ fun h => absurd (hpass.mp h).1 (Nat.not_le.mpr hcnt)
  rw [if_neg hb, if_neg hcnt]
  have hacc := finishList_accessed (m := m) (entryLoop step (range s.listCnt) false s.fresh)
    hrespond
  refine ⟨?_, fun h => absurd h hb, fun _ habsent hnot => ?_, fun _ hne hlets => ?_⟩
  · obtain ⟨-, -, cs, hcs, hmem⟩ := entryLoop_touches hstep (range s.listCnt) false s.fresh
    intro c hc
    rw [hacc, hcs] at hc
    obtain ⟨i, hi, hat⟩ := hmem c (by simpa [fresh] using hc)
    rw [hnamed]
    exact mem_map.mpr ⟨i, hi, hat⟩
  -- the first entry is refused, so the loop ends with it
  · obtain ⟨hsent, -, ⟨hacc₁, hstore, e, he⟩ | ⟨c, skip, hok, -⟩⟩ := hstep 0 s.fresh
    · have hloop : ∃ is, entryLoop step (0 :: is) false s.fresh = ((step 0 s.fresh).1, some e) ∧
          range s.listCnt = 0 :: is := by
        obtain ⟨x, hx, -⟩ := habsent
        rw [hnamed] at hx
        obtain ⟨i, hi, -⟩ := mem_map.mp hx
        obtain ⟨k, hk⟩ : ∃ k, s.listCnt = k + 1 :=
          Nat.exists_eq_succ_of_ne_zero (by have := mem_range.mp hi; omega)
        refine ⟨_, ?_, by rw [hk, range_succ_eq_map]⟩
        rw [entryLoop, ← Prod.eta (step 0 s.fresh), he]
      obtain ⟨is, hloop, hrange⟩ := hloop
      rw [hrange, hloop, finishList, mbSlaveErrorResp_sent, if_neg hb, hsent,
        mbSlaveErrorResp_accessed, mbSlaveErrorResp_store, hacc₁, hstore]
      exact ⟨⟨_, rfl⟩, rfl, rfl⟩
    · exact absurd (hpass.mpr ⟨Nat.not_lt.mp hcnt, skip, hok⟩) hnot
  -- the first entry is carried out, so something is touched
  · obtain ⟨-, skip, hok⟩ := hpass.mp hlets
    obtain ⟨hsent, -, ⟨-, -, e, he⟩ | ⟨c, skip, hok, -, hacc₁⟩⟩ := hstep 0 s.fresh
    · exact absurd (hok.symm.trans he) (by simp)
    · obtain ⟨k, hk⟩ : ∃ k, s.listCnt = k + 1 := by
        refine Nat.exists_eq_succ_of_ne_zero fun h => hne ?_
        rw [hnamed, listNames, h]
        rfl
      rw [hacc, hk, range_succ_eq_map, entryLoop, ← Prod.eta (step 0 s.fresh), hok]
      obtain ⟨-, -, cs, hcs, -⟩ := entryLoop_touches hstep ((range k).map Nat.succ) skip
        (step 0 s.fresh).1
      rw [hcs, hacc₁]
      simp

/-- A diagnostic request touches no element, and an exception response to it is not broadcast. -/
theorem diagnosticFunc_quiet (m : MsgPack) (s : Slave ω) :
    (s.mbSlaveDiagnosticFunc m).accessed = s.accessed ∧
      ((s.mbSlaveDiagnosticFunc m).sent = s.sent ∨
        (∃ frame, (s.mbSlaveDiagnosticFunc m).sent = s.sent ++ [.normal frame]) ∨
        ¬ m.isBroadcastInfo) := by
  have herr (e : MbError) (t : Slave ω) (ht : t.accessed = s.accessed) (hs : t.sent = s.sent) :
      (t.mbSlaveErrorResp m e).accessed = s.accessed ∧
        ((t.mbSlaveErrorResp m e).sent = s.sent ∨
          (∃ frame, (t.mbSlaveErrorResp m e).sent = s.sent ++ [.normal frame]) ∨
          ¬ m.isBroadcastInfo) := by
    refine ⟨(mbSlaveErrorResp_accessed t m e).trans ht, ?_⟩
    by_cases hb : m.isBroadcastInfo
    · rw [mbSlaveErrorResp_sent, if_pos hb, hs]
      exact .inl (append_nil _)
    · exact .inr (.inr hb)
  unfold mbSlaveDiagnosticFunc
  split
  · exact ⟨rfl, .inl rfl⟩
  · cases diagCode? (s.receiveBuff 3) with
    | none => exact herr _ _ rfl rfl
    | some c =>
      cases c
      case restartCommunication =>
        unfold diagnosticCase
        split_ifs
        · exact ⟨rfl, .inr (.inl (mbSlaveVerifyRespMsg_normal _ m _))⟩
        · exact ⟨rfl, .inl rfl⟩
        · exact herr _ _ rfl rfl
      case forceListenOnlyMode => exact ⟨rfl, .inl rfl⟩
      all_goals exact ⟨rfl, .inr (.inl (mbSlaveVerifyRespMsg_normal _ m _))⟩

theorem diagnostic_outcome :
    RangeOutcome s m .diagDiagnostic (s.fresh.mbSlaveDiagnosticFunc m) where
  touched := by
    rw [(diagnosticFunc_quiet m s.fresh).1]
    simp
  broadcast hb frame := by
    rcases (diagnosticFunc_quiet m s.fresh).2 with h | ⟨frame', h⟩ | h
    · simp [h]
    · simp [h]
    · exact absurd hb h
  refused _ habsent := by
    obtain ⟨x, hx, -⟩ := habsent
    cases hx
  passed _ hne := absurd rfl hne

/-! ## The Range -/

/-- The checks of the functions that read bits. -/
theorem readBits_pass_iff (base : BitElement → BitElement) :
    (∃ x, s.fresh.readBitsRequest m base = .ok x) ↔
      m.len = 8 ∧ s.reqCnt ≤ mbMaxRBitNum ∧
        ∃ e n, BitAt s.reqAddr e n ∧ n + s.reqCnt ≤ (base e).rang + 1 := by
  constructor
  · rintro ⟨⟨e, addr, cnt⟩, h⟩
    obtain ⟨hlen, hcnt, -, e₀, hat, rfl, hn⟩ := readBitsRequest_eq_ok_iff.mp h
    exact ⟨hlen, hcnt, e₀, addr, hat, hn⟩
  · rintro ⟨hlen, hcnt, e, n, hat, hn⟩
    exact ⟨_, readBitsRequest_eq_ok_iff.mpr ⟨hlen, hcnt, rfl, e, hat, rfl, hn⟩⟩

theorem readBitEntry_pass_iff :
    (∃ skip, (readBitEntry 0 s.fresh).2 = .ok skip) ↔ ∃ e n, BitAt (s.entryAddr 3) e n := by
  rcases readBitEntry_cases 0 s.fresh with ⟨hnone, h⟩ | ⟨e, n, hat, h⟩
  · have hnone : mbSlaveConvertElementInfo .bit (s.entryAddr 3) = none := hnone
    simp [h, BitAt, hnone]
  · exact ⟨fun _ => ⟨e, n, hat⟩, fun _ => ⟨false, by rw [h]⟩⟩

theorem readWordEntry_pass_iff :
    (∃ skip, (readWordEntry 0 s.fresh).2 = .ok skip) ↔ ∃ r n, RegisterAt (s.entryAddr 3) r n := by
  rcases readWordEntry_cases 0 s.fresh with ⟨hnone, h⟩ | ⟨e, n, hat, h⟩ | ⟨n, hat, h⟩
  · have hnone : mbSlaveConvertElementInfo .word (s.entryAddr 3) = none := hnone
    simp [h, RegisterAt, hnone]
  · exact ⟨fun _ => ⟨_, n, hat⟩, fun _ => ⟨false, by rw [h]⟩⟩
  · exact ⟨fun _ => ⟨_, n, hat⟩, fun _ => ⟨true, by rw [h]⟩⟩

theorem writeBitEntry_pass_iff :
    (∃ skip, (writeBitEntry 0 s.fresh).2 = .ok skip) ↔ ∃ e n, CoilAt (s.entryAddr 3) e n := by
  rcases writeBitEntry_cases 0 s.fresh with ⟨hnone, h⟩ | ⟨e, n, hat, h⟩
  · constructor
    · rintro ⟨skip, hok⟩
      simp [h] at hok
    · rintro ⟨e, n, hat⟩
      exact absurd hat (hnone e n)
  · exact ⟨fun _ => ⟨e, n, hat⟩, fun _ => ⟨false, by rw [h]⟩⟩

theorem writeWordEntry_pass_iff :
    (∃ skip, (writeWordEntry 0 s.fresh).2 = .ok skip) ↔
      ∃ r n, RegisterAt (s.entryAddr 3) r n := by
  rcases writeWordEntry_cases 0 s.fresh with ⟨hnone, h⟩ | ⟨e, n, hat, h⟩ | ⟨n, hat, h⟩
  · have hnone : mbSlaveConvertElementInfo .word (s.entryAddr 3) = none := hnone
    simp [h, RegisterAt, hnone]
  · exact ⟨fun _ => ⟨_, n, hat⟩, fun _ => ⟨false, by rw [h]⟩⟩
  · exact ⟨fun _ => ⟨_, n, hat⟩, fun _ => ⟨true, by rw [h]⟩⟩

theorem function_outcome (b : Board ω) (hset : f.OnElements) :
    RangeOutcome s m f (s.fresh.function b m (some f)) := by
  cases f
  case readCoilsStatus => exact readBits_outcome rfl (readBits_pass_iff id).symm
  case readDescreteInputStatus =>
    exact readBits_outcome rfl (readBits_pass_iff fun _ => .X).symm
  case readHoldingRegister => exact readHoldingRegister_outcome
  case writeSingleCoil => exact writeSingleCoil_outcome
  case writeRegister => exact writeRegister_outcome
  case diagDiagnostic => exact diagnostic_outcome
  case writeMultipleCoils => exact writeMultipleCoils_outcome
  case writeMultipleRegisters => exact writeMultipleRegisters_outcome
  case readMultipleBitElement =>
    exact list_outcome readBitEntry_touches (fun _ => rfl) rfl
      (and_congr_right fun _ => readBitEntry_pass_iff.symm)
  case readMultipleWordElement =>
    exact list_outcome readWordEntry_touches (fun _ => rfl) rfl
      (and_congr_right fun _ => readWordEntry_pass_iff.symm)
  case writeMultipleBitElement =>
    exact list_outcome writeBitEntry_touches (fun _ => rfl) rfl
      (and_congr_right fun _ => writeBitEntry_pass_iff.symm)
  case writeMultipleWordElement =>
    exact list_outcome writeWordEntry_touches (fun _ => rfl) rfl
      (and_congr_right fun _ => writeWordEntry_pass_iff.symm)
  case downloadFunc => exact absurd rfl hset.1
  case uploadFunc => exact absurd rfl hset.2.1
  case ctrlFunc => exact absurd rfl hset.2.2

/-- A frame keeps the range unless it names something that does not exist, and the checks let it
pass or it is not answered with an exception anyway. -/
theorem keepsRange_iff (b : Board ω) (s : Slave ω) (m : MsgPack) (f : MbFunction)
    (hcrc : s.CrcOk m) (hf : mbFunction? s.functionCode = some f) (hset : f.OnElements) :
    s.KeepsRange b m f ↔ ¬ (s.NamesAbsent f ∧ (s.Silent m ∨ s.LetsPass m f)) := by
  have hquiet (h : s.handle b m = s.fresh) : s.KeepsRange b m f ↔ ¬ s.NamesAbsent f := by
    unfold KeepsRange
    rw [h]
    exact RangeOutcome.silent_iff (by simp) (by simp)
  by_cases hlen : m.len < 5
  · rw [hquiet (handle_short hlen), and_iff_left (.inl (.inl hlen))]
  by_cases hfilter : s.Filtered m
  · rw [hquiet (handle_filtered hlen hcrc hfilter), and_iff_left (.inl (.inr (.inl hfilter)))]
  have hhandle : s.handle b m = s.fresh.function b m (some f) := by
    rw [handle_passed hlen hcrc hfilter, hf]
  have hout : RangeOutcome s m f (s.handle b m) := hhandle ▸ function_outcome b hset
  by_cases hb : m.isBroadcastInfo
  · rw [and_iff_left (.inl (.inr (.inr hb)))]
    exact RangeOutcome.silent_iff hout.touched (hout.broadcast hb)
  · have hsilent : ¬ s.Silent m := by
      rintro (h | h | h)
      · exact hlen h
      · exact hfilter h
      · exact hb h
    rw [or_iff_right hsilent]
    exact hout.kept_iff hb

/-- The request to set the coil `Y2047` keeps the range. -/
theorem keepsRange_y2047 :
    (idle [1, 5, 0x2E, 0x0F, 0xFF, 0, 0xB5, 0x11]).KeepsRange idleBoard (comMsg 8)
      .writeSingleCoil := by
  refine (keepsRange_iff idleBoard _ _ _ (by decide) (by decide) (by simp [MbFunction.OnElements])).mpr ?_
  rintro ⟨⟨x, hx, habsent⟩, -⟩
  exact habsent (.bit .Y 2047) (mem_singleton.mp hx) (by simp [Cell.Present, BitElement.rang])

/-- The request to set the coil behind the last output, `Y2048`, is carried out. -/
theorem y2048_written : ¬ ∀ (s : Slave Unit) (m : MsgPack) (f : MbFunction), s.CrcOk m →
    mbFunction? s.functionCode = some f → f.OnElements → s.KeepsRange idleBoard m f := by
  intro h
  have hkeeps := h (idle [1, 5, 0x2E, 0x10, 0xFF, 0, 0x84, 0xD7]) (comMsg 8) .writeSingleCoil
    (by decide) (by decide) (by simp [MbFunction.OnElements])
  have hacc : ((idle [1, 5, 0x2E, 0x10, 0xFF, 0, 0x84, 0xD7]).handle idleBoard (comMsg 8)).accessed =
      [.bit .Y 2048] := by decide
  have := hkeeps.1 (.bit .Y 2048) (by rw [hacc]; simp)
  simp [Cell.Present, BitElement.rang] at this

end Slave

end Kalyke
