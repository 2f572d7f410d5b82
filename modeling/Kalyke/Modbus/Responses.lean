-- SUMMARY: The bytes of a response depend on the request and what it asks for, not on what was left.
import Kalyke.Modbus.Alike
import Kalyke.Modbus.WriteRead

/-!
# What a Response Depends On

Slaves that look alike answer alike. The function of a frame may read bytes that a frame of the
right length has and a shorter one does not; these count as part of the request.
-/

namespace Kalyke

open List Nat BitVec Option
open Function (update)

variable {ω : Type}

namespace Slave

/-! ## Coils and Registers -/

section Standard

variable {n : Nat} {s s' : Slave ω} {m : MsgPack}

theorem Alike.reqAddr (h : Alike n s s') (hn : 4 ≤ n) : s'.reqAddr = s.reqAddr :=
  congrArg BitVec.toNat (h.bigPU16 hn)

theorem Alike.reqCnt (h : Alike n s s') (hn : 6 ≤ n) : s'.reqCnt = s.reqCnt :=
  congrArg BitVec.toNat (h.bigPU16 hn)

theorem Alike.reqByteNum (h : Alike n s s') (hn : 7 ≤ n) : s'.reqByteNum = s.reqByteNum :=
  congrArg BitVec.toNat (h.byte hn)

theorem Alike.readBits (h : Alike n s s') (h2 : 2 ≤ n) (hlen : m.len ≤ n)
    (base : BitElement → BitElement) (shift : Bool) :
    Alike n (s.readBits m base shift) (s'.readBits m base shift) := by
  have hreq : s'.readBitsRequest m base = s.readBitsRequest m base := by
    unfold readBitsRequest
    by_cases h8 : m.len = 8
    · rw [h.reqAddr (by omega), h.reqCnt (by omega)]
    · rw [if_pos h8, if_pos h8]
  unfold Slave.readBits
  split
  · exact h
  rw [hreq]
  cases s.readBitsRequest m base with
  | error e => exact h.errorResp h2 e
  | ok x =>
    obtain ⟨e, addr, cnt⟩ := x
    have hacc := h.map (fun t => t.access ((range cnt).map fun i => .bit e (addr + i)))
      (fun _ _ _ => rfl) rfl
    dsimp only
    rw [hacc.store]
    exact hacc.respond h2 _

theorem Alike.readHoldingRegister (h : Alike n s s') (h2 : 2 ≤ n) (hlen : m.len ≤ n) :
    Alike n (s.mbSlaveReadHoldingRegister m) (s'.mbSlaveReadHoldingRegister m) := by
  have hreq : s'.readRegistersRequest m = s.readRegistersRequest m := by
    unfold readRegistersRequest
    by_cases h8 : m.len = 8
    · rw [h.reqAddr (by omega), h.reqCnt (by omega)]
    · rw [if_pos h8, if_pos h8]
  unfold mbSlaveReadHoldingRegister
  split
  · exact h
  rw [hreq]
  cases s.readRegistersRequest m with
  | error e => exact h.errorResp h2 e
  | ok x =>
    obtain ⟨r, addr, cnt⟩ := x
    have hacc := h.map (fun t => t.access ((range cnt).map fun i => r.cell (addr + i)))
      (fun _ _ _ => rfl) rfl
    dsimp only
    rw [hacc.store]
    exact hacc.respond h2 _

theorem Alike.writeSingleCoil (h : Alike n s s') (hn : 6 ≤ n) :
    Alike n (s.mbSlaveWriteSingleCoil m) (s'.mbSlaveWriteSingleCoil m) := by
  have hreq : s'.writeCoilRequest = s.writeCoilRequest := by
    unfold writeCoilRequest
    rw [h.reqAddr (by omega), h.bigPU16 hn]
  unfold mbSlaveWriteSingleCoil
  rw [hreq]
  cases s.writeCoilRequest with
  | error e => exact h.errorResp (by omega) e
  | ok x =>
    exact (h.map (fun t => t.setBit x.1 x.2.1 x.2.2) (fun _ _ _ => rfl) rfl).respond hn []

theorem Alike.writeRegister (h : Alike n s s') (hn : 6 ≤ n) :
    Alike n (s.mbSlaveWriteRegister m) (s'.mbSlaveWriteRegister m) := by
  have hreq : s'.writeRegisterRequest = s.writeRegisterRequest := by
    unfold writeRegisterRequest
    rw [h.reqAddr (by omega)]
  unfold mbSlaveWriteRegister
  rw [hreq, h.bigPU16 hn]
  cases s.writeRegisterRequest with
  | error e => exact h.errorResp (by omega) e
  | ok x =>
    obtain ⟨r, addr⟩ := x
    cases r <;> exact (h.map (fun t => t.setRegister _ addr (s.receiveBuff.bigPU16 4))
      (fun _ _ _ => rfl) rfl).respond hn []

/-- The first bytes of a request are sent back, whatever was done before. -/
theorem respond_sent_congr {t t' : Slave ω} {k : Nat} (hmax : k < 100) (hsent : t'.sent = t.sent)
    (hrecv : t'.receiveBuff.bytes k = t.receiveBuff.bytes k) :
    (t'.respond m k []).sent = (t.respond m k []).sent := by
  have hlen : k + ([] : List Byte).length + 2 < 2 ^ 16 := by
    rw [length_nil]
    omega
  rw [respond_sent _ _ hlen, respond_sent _ _ hlen, hsent, hrecv]

theorem Alike.acknowledged (h : Alike n s s') {k : Nat} (hk : k ≤ n) (hmax : k < 100)
    {t t' : Slave ω} (hsent : t.sent = s.sent) (hrecv : t.receiveBuff = s.receiveBuff)
    (hsent' : t'.sent = s'.sent) (hrecv' : t'.receiveBuff = s'.receiveBuff) :
    (t'.respond m k []).sent = (t.respond m k []).sent := by
  refine respond_sent_congr hmax ?_ ?_
  · rw [hsent, hsent', h.sent]
  · rw [hrecv, hrecv', h.bytes hk]

theorem Alike.writeMultipleCoils_sent (h : Alike n s s') (hn : 7 ≤ n) :
    (s'.mbSlaveWriteMultipleCoils m).sent = (s.mbSlaveWriteMultipleCoils m).sent := by
  have hreq : s'.writeCoilsRequest = s.writeCoilsRequest := by
    unfold writeCoilsRequest
    rw [h.reqAddr (by omega), h.reqCnt (by omega), h.reqByteNum hn]
  unfold mbSlaveWriteMultipleCoils
  rw [hreq]
  cases s.writeCoilsRequest with
  | error e => exact (h.errorResp (by omega) e).sent
  | ok x =>
    obtain ⟨e, addr, cnt⟩ := x
    dsimp only
    rw [setCoils_eq, setCoils_eq]
    exact h.acknowledged (by omega) (by decide) rfl rfl rfl rfl

theorem Alike.writeMultipleRegisters_sent (h : Alike n s s') (hn : 7 ≤ n) :
    (s'.mbSlaveWriteMultipleRegisters m).sent = (s.mbSlaveWriteMultipleRegisters m).sent := by
  have hreq : s'.writeRegistersRequest = s.writeRegistersRequest := by
    unfold writeRegistersRequest
    rw [h.reqAddr (by omega), h.reqCnt (by omega), h.reqByteNum hn]
  unfold mbSlaveWriteMultipleRegisters
  rw [hreq]
  cases s.writeRegistersRequest with
  | error e => exact (h.errorResp (by omega) e).sent
  | ok x =>
    obtain ⟨r, addr, cnt⟩ := x
    dsimp only
    rw [setRegisters_eq, setRegisters_eq]
    exact h.acknowledged (by omega) (by decide) rfl rfl rfl rfl

end Standard

/-! ## Diagnostics -/

def counterCodes : List DiagCode :=
  [.returnBusPackageCnt, .returnCrcErrCnt, .slaveErrCnt, .slaveBusMsgCnt, .slaveNoRespCnt,
   .busCharOverrunCnt]

/-- A request for a counter, which sends one byte of it and one that was left in the buffer. -/
def AsksCounter (s : Slave ω) : Prop :=
  ∃ code ∈ counterCodes, diagCode? (s.receiveBuff 3) = some code

section Diagnostics

variable {n : Nat} {s s' : Slave ω} {m : MsgPack}

theorem Alike.echoSlaveID (h : Alike n s s') (hlen : m.len ≤ n) (h2 : 2 ≤ m.len) :
    Alike n (s.echoSlaveID m) (s'.echoSlaveID m) := by
  have hnat : (m.receiveLen - 2).toNat = m.len - 2 := by
    rw [toNat_sub_of_le (by simpa [le_def, MsgPack.len] using h2)]
    rfl
  refine verifyRespMsg ?_ fun i hi => ?_
  · obtain ⟨q, r, l, hq, rfl⟩ := h
    exact ⟨q, _, l, hq, rfl⟩
  · rw [hnat] at hi
    rcases Nat.eq_zero_or_pos i with rfl | hpos
    · simp [Buff.put]
    · simp only [Buff.put, update, hpos.ne', eq_rec_constant, dite_false, Buff.copy]
      rw [if_pos ⟨hpos, hi⟩, if_pos ⟨hpos, hi⟩, h.byte (by omega)]

theorem Alike.diagnosticFunc (h : Alike n s s') (hn : 6 ≤ n) (hlen : m.len ≤ n) (h2 : 2 ≤ m.len)
    (hcounter : ¬ s.AsksCounter) :
    Alike n (s.mbSlaveDiagnosticFunc m) (s'.mbSlaveDiagnosticFunc m) := by
  have hcount : Alike n (s.countSlaveErr m) (s'.countSlaveErr m) :=
    h.map (fun t => t.countSlaveErr m) (fun _ _ _ => rfl) rfl
  have hcode : s'.diagReqCode = s.diagReqCode := h.bigPU16 (by omega)
  have hdata : s'.diagReqData = s.diagReqData := h.bigPU16 (by omega)
  have hdrops : s'.DropsCode m ↔ s.DropsCode m := by rw [DropsCode, DropsCode, hcode]
  unfold mbSlaveDiagnosticFunc
  rw [h.byte (i := 3) (by omega)]
  by_cases hdrop : s.DropsCode m
  · rw [if_pos hdrop, if_pos (hdrops.mpr hdrop)]
    exact hcount
  rw [if_neg hdrop, if_neg (mt hdrops.mp hdrop)]
  cases hop : diagCode? (s.receiveBuff 3) with
  | none => exact hcount.errorResp (by omega) _
  | some code =>
    have hnot : code ∉ counterCodes := fun hmem => hcounter ⟨code, hmem, hop⟩
    cases code with
    | broadReturnQueryData => exact h.echoSlaveID hlen h2
    | returnQueryData => exact h.echo hlen h2
    | restartCommunication =>
      simp only [diagnosticCase, hdata, h.diag]
      split_ifs
      · exact (h.map (fun t => t.setListenOnly m false) (fun _ _ _ => rfl) rfl).echo hlen h2
      · exact h
      · exact hcount.errorResp (by omega) _
    | forceListenOnlyMode =>
      exact h.map (fun t => t.setListenOnly m true) (fun _ _ _ => rfl) rfl
    | clearCtrlDiagReg =>
      exact (h.map mbSlaveDiagClearCtrlDiagReg (fun _ _ _ => rfl) rfl).echo hlen h2
    | returnBusPackageCnt | returnCrcErrCnt | slaveErrCnt | slaveBusMsgCnt | slaveNoRespCnt
      | busCharOverrunCnt => exact absurd (by decide) hnot

end Diagnostics

/-! ## Lists -/

section Lists

variable {n : Nat} {s s' : Slave ω} {m : MsgPack}

theorem Alike.listCnt (h : Alike n s s') (hn : 3 ≤ n) : s'.listCnt = s.listCnt :=
  congrArg BitVec.toNat (h.byte hn)

theorem Alike.exceptionResp (h : Alike n s s') (hn : 2 ≤ n) (e : MbError) :
    s'.exceptionResp e = s.exceptionResp e := by
  unfold Slave.exceptionResp
  rw [h.byte (by omega), h.byte (by omega)]

/-- The answer to a request to read a list depends on its entries. -/
theorem Alike.listResp (h : Alike n s s') (hn : 3 + 2 * s.listCnt ≤ n) (kind : AddrKind)
    (limit : Nat) : s'.listResp kind limit = s.listResp kind limit := by
  have hcnt := h.listCnt (by omega)
  have hasked : s'.asked kind s.listCnt 0 none = s.asked kind s.listCnt 0 none := by
    refine Half.entries_congr (fun i _ hi => ?_) none
    rw [entryAddr, h.bigPU16 (by omega)]
    rfl
  have hdata : s'.listData kind = s.listData kind := by
    unfold listData
    rw [hcnt, hasked]
    refine flatMap_congr fun x hx => ?_
    have hi := mem_range.mp (of_mem_zip hx).1
    unfold entryBytes
    rw [h.byte (by omega), h.byte (by omega), h.store]
  unfold Slave.listResp
  rw [hcnt, hasked, hdata, h.exceptionResp (by omega), h.exceptionResp (by omega),
    h.bytes (by omega)]

/-- Whether a list is accepted depends on which entries are, and on how many entries each uses. -/
theorem planned_snd_congr {α : Type} {plan plan' : Nat → Option (α × Bool)} {is : List Nat}
    (h : ∀ i ∈ is, (plan' i).map Prod.snd = (plan i).map Prod.snd) (skip : Bool) :
    (planned plan' is skip).2 = (planned plan is skip).2 := by
  induction is generalizing skip with
  | nil => rfl
  | cons i is ih =>
    have ih := ih fun j hj => h j (mem_cons_of_mem i hj)
    cases skip with
    | true => exact ih false
    | false =>
      have hi := h i mem_cons_self
      rw [planned, planned]
      cases hplan : plan i with
      | none =>
        rw [hplan, map_none, map_eq_none_iff] at hi
        rw [hi]
      | some x =>
        rw [hplan, map_some, map_eq_some_iff] at hi
        obtain ⟨y, hy, hskip⟩ := hi
        rw [hy]
        dsimp only
        rw [hskip]
        exact ih x.2

/-- The answer to a request to write a list depends on whether it is accepted. -/
theorem Alike.writeList_sent {plan : Buff → Nat → Option (ElementWrite × Bool)}
    {step : Nat → Slave ω → EntryResult ω} (hstep : CarriesOut plan step) (limit : Nat)
    (h : Alike n s s') (hn : 3 ≤ n)
    (hplan : ∀ i < s.listCnt,
      (plan s'.receiveBuff i).map Prod.snd = (plan s.receiveBuff i).map Prod.snd) :
    (if m.isBroadcastInfo then s'
      else if limit < s'.listCnt then s'.mbSlaveErrorResp m .iliegalData
      else finishList m (fun t => t.respond m 2 [])
        (entryLoop step (range s'.listCnt) false s')).sent =
    (if m.isBroadcastInfo then s
      else if limit < s.listCnt then s.mbSlaveErrorResp m .iliegalData
      else finishList m (fun t => t.respond m 2 [])
        (entryLoop step (range s.listCnt) false s)).sent := by
  have hall := planned_snd_congr (fun i hi => hplan i (mem_range.mp hi)) false
  rw [h.listCnt hn]
  split
  · exact h.sent
  split
  · exact (h.errorResp (by omega) _).sent
  rw [entryLoop_carriesOut s' hstep, entryLoop_carriesOut s hstep, hall]
  split
  · exact h.acknowledged (by omega) (by decide) rfl rfl rfl rfl
  · simp only [finishList, mbSlaveErrorResp_sent]
    rw [h.sent, h.byte (by omega), h.byte (by omega)]

theorem Alike.writeMultipleBitElement_sent (h : Alike n s s') (hn : 3 + 3 * s.listCnt ≤ n) :
    (s'.mbSlaveWriteMultipleBitElement m).sent = (s.mbSlaveWriteMultipleBitElement m).sent := by
  refine writeList_sent writeBitEntry_carriesOut 0x50 h (by omega) fun i hi => ?_
  unfold bitPlan
  rw [h.bigPU16 (by omega)]
  cases mbSlaveConvertElementInfo .bit (s.receiveBuff.bigPU16 (3 + 3 * i)).toNat with
  | none => rfl
  | some x =>
    obtain ⟨t, k⟩ := x
    dsimp only
    cases t.coil? <;> rfl

theorem Alike.writeMultipleWordElement_sent (h : Alike n s s') (hn : 3 + 4 * s.listCnt ≤ n) :
    (s'.mbSlaveWriteMultipleWordElement m).sent = (s.mbSlaveWriteMultipleWordElement m).sent := by
  refine writeList_sent writeWordEntry_carriesOut 0x3C h (by omega) fun i hi => ?_
  unfold wordPlan
  rw [h.bigPU16 (i := 3 + 4 * i) (by omega)]
  cases mbSlaveConvertElementInfo .word (s.receiveBuff.bigPU16 (3 + 4 * i)).toNat with
  | none => rfl
  | some x =>
    obtain ⟨t, k⟩ := x
    dsimp only
    cases t.register? k with
    | none => rfl
    | some r =>
      simp only [map_some]
      cases r <;> rfl

end Lists

/-! ## Loops and Passwords -/

section Rules

variable {n : Nat} {s s' : Slave ω} {m : MsgPack} {b : Board ω}

/-- A loop over entries that each leave slaves that look alike so, and come to the same. -/
theorem Alike.entryLoop {step : Nat → Slave ω → EntryResult ω} {is : List Nat}
    (hstep : ∀ i ∈ is, ∀ t t', Alike n t t' →
      Alike n (step i t).1 (step i t').1 ∧ (step i t').2 = (step i t).2)
    (h : Alike n s s') (skip : Bool) :
    Alike n (entryLoop step is skip s).1 (entryLoop step is skip s').1 ∧
      (entryLoop step is skip s').2 = (entryLoop step is skip s).2 := by
  induction is generalizing skip s s' with
  | nil => exact ⟨h, rfl⟩
  | cons i is ih =>
    have ih {t t' : Slave ω} (h : Alike n t t') (skip : Bool) :=
      ih (fun j hj => hstep j (mem_cons_of_mem i hj)) h skip
    cases skip with
    | true => exact ih h false
    | false =>
      obtain ⟨halike, hx⟩ := hstep i mem_cons_self s s' h
      rw [Kalyke.entryLoop, Kalyke.entryLoop, ← Prod.eta (step i s), ← Prod.eta (step i s'), hx]
      cases (step i s).2 with
      | error e => exact ⟨halike, rfl⟩
      | ok skip => exact ih halike skip

theorem Alike.finishList {respond : Slave ω → Slave ω} (hn : 2 ≤ n)
    (hrespond : ∀ {t t'}, Alike n t t' → Alike n (respond t) (respond t')) {r r' : LoopResult ω}
    (h : Alike n r.1 r'.1 ∧ r'.2 = r.2) :
    Alike n (finishList m respond r) (finishList m respond r') := by
  obtain ⟨t, x⟩ := r
  obtain ⟨t', x'⟩ := r'
  obtain ⟨halike, hx⟩ := h
  subst hx
  cases x' with
  | none => exact hrespond halike
  | some e => exact halike.errorResp hn e

theorem Alike.passwordChecked (h : Alike n s s') (hn : 2 ≤ n) (p : Password)
    {f : Slave ω → Slave ω}
    (hf : s.Unlocked b p →
      Alike n (f (s.passwordChecked b p).2) (f (s'.passwordChecked b p).2)) :
    Alike n
      (match s.passwordChecked b p with
        | (true, s) => f s
        | (false, s) => s.mbSlaveErrorResp m .passwordCheckFail)
      (match s'.passwordChecked b p with
        | (true, s) => f s
        | (false, s) => s.mbSlaveErrorResp m .passwordCheckFail) := by
  have hchecked : Alike n (s.passwordChecked b p).2 (s'.passwordChecked b p).2 :=
    h.map (fun t => (t.passwordChecked b p).2) (fun _ _ _ => rfl) rfl
  have hok : (s'.passwordChecked b p).1 = (s.passwordChecked b p).1 := by
    rw [Slave.passwordChecked, Slave.passwordChecked, h.world]
  have hunlocked : s.Unlocked b p ↔ (s.passwordChecked b p).1 = true := Iff.rfl
  rw [hunlocked] at hf
  generalize s.passwordChecked b p = x at hf hchecked hok
  generalize s'.passwordChecked b p = x' at hf hchecked hok
  obtain ⟨ok, t⟩ := x
  obtain ⟨ok', t'⟩ := x'
  subst hok
  cases ok' with
  | true => exact hf rfl
  | false => exact hchecked.errorResp hn _

end Rules

/-! ## Downloads -/

/-- The end of the bytes that a list to monitor is read from. -/
def monitorEnd (s : Slave ω) : Monitor → Nat
  | .bits | .words => 7 + 2 * (s.receiveBuff 6).toNat
  | .bitsWords => 8 + 2 * ((s.receiveBuff 4).toNat + (s.receiveBuff 5).toNat)

/-- The end of the bytes that a frame of a file is read from. The first of a `CBIN` says how long
the file is. -/
def fileEnd (s : Slave ω) (m : MsgPack) (f : DlFile) : Nat :=
  max (if f = .plcCbin ∧ s.files f = none then 12 else 0) (4 + (m.receiveLen - 6).toNat)

/-- The end of the bytes that a download is read from. -/
def downloadEnd (s : Slave ω) (m : MsgPack) : Option DownloadOp → Nat
  | some (.monitor k) => if s.frameNum = 0x01 ∨ s.frameNum = 0xFE then s.monitorEnd k else 0
  | some (.file f) | some (.upgrade f) => s.fileEnd m f
  | _ => 0

section Download

variable {n : Nat} {s s' : Slave ω} {m : MsgPack} {b : Board ω}

theorem Alike.monitorEntries (h : Alike n s s') (k : Monitor) (kind : AddrKind) {start cnt : Nat}
    (hn : start + 2 * cnt ≤ n) :
    Alike n (monitorEntries k kind start cnt s).1 (monitorEntries k kind start cnt s').1 ∧
      (monitorEntries k kind start cnt s').2 = (monitorEntries k kind start cnt s).2 := by
  refine Alike.entryLoop (fun i hi t t' ht => ?_) h false
  have hi := mem_range.mp hi
  unfold monitorEntry
  dsimp only
  rw [ht.bigPU16 (by omega)]
  cases mbSlaveConvertElementInfo kind (t.receiveBuff.bigPU16 (start + 2 * i)).toNat with
  | none => exact ⟨ht, rfl⟩
  | some x =>
    exact ⟨ht.map (fun t => t.setMonitor k (t.monitor k ++ [_])) (fun _ _ _ => rfl) rfl, rfl⟩

theorem Alike.downloadMonitor (h : Alike n s s') (hn : 4 ≤ n) (k : Monitor)
    (hend : s.frameNum = 0x01 ∨ s.frameNum = 0xFE → s.monitorEnd k ≤ n) :
    Alike n (s.downloadMonitor m k) (s'.downloadMonitor m k) := by
  have hnum : s'.frameNum = s.frameNum := h.byte (by omega)
  refine Alike.finishList (by omega) (fun ht => ht.respond hn []) ?_
  rw [hnum]
  split_ifs with hfirst
  swap
  · exact ⟨h, rfl⟩
  have hend := hend hfirst
  have hset : Alike n (s.setMonitor k []) (s'.setMonitor k []) :=
    h.map (fun t => t.setMonitor k []) (fun _ _ _ => rfl) rfl
  cases k with
  | bits =>
    simp only [monitorEnd] at hend
    dsimp only
    rw [h.byte (i := 6) (by omega)]
    exact hset.monitorEntries .bits .bit hend
  | words =>
    simp only [monitorEnd] at hend
    dsimp only
    rw [h.byte (i := 6) (by omega)]
    exact hset.monitorEntries .words .word hend
  | bitsWords =>
    simp only [monitorEnd] at hend
    dsimp only
    rw [h.byte (i := 4) (by omega), h.byte (i := 5) (by omega)]
    have hbitsEnd : 8 + 2 * (s.receiveBuff 4).toNat ≤ n := by omega
    have hbits := hset.monitorEntries .bitsWords .bit hbitsEnd
    generalize Slave.monitorEntries .bitsWords .bit 8 (s.receiveBuff 4).toNat
      (s.setMonitor .bitsWords []) = r at hbits
    generalize Slave.monitorEntries .bitsWords .bit 8 (s.receiveBuff 4).toNat
      (s'.setMonitor .bitsWords []) = r' at hbits
    obtain ⟨t, x⟩ := r
    obtain ⟨t', x'⟩ := r'
    obtain ⟨halike, hx⟩ := hbits
    subst hx
    cases x' with
    | none => exact Alike.monitorEntries halike .bitsWords .word (by omega)
    | some e => exact ⟨halike, rfl⟩

theorem Alike.openFile (h : Alike n s s') (f : DlFile)
    (hn : f = .plcCbin ∧ s.files f = none → 12 ≤ n) :
    (s'.openFile b f).1 = (s.openFile b f).1 ∧
      Alike n (s.openFile b f).2 (s'.openFile b f).2 := by
  have hfiles := h.files
  unfold Slave.openFile
  rw [hfiles]
  cases hunder : (s.files f).filter fun t => !(f.restarts && t.complete) with
  | some t => exact ⟨rfl, h⟩
  | none =>
    have hroom : s'.allocated b f = s.allocated b f := by
      cases f with
      | plcCbin =>
        have hnone : s.files .plcCbin = none := by
          simpa [DlFile.restarts, eq_none_iff_forall_ne_some] using hunder
        have h12 := hn ⟨rfl, hnone⟩
        exact congrArg BitVec.toNat (h.nativePU32 h12)
      | sysUpgrade =>
        unfold allocated
        rw [h.world]
      | _ =>
        rfl
    have hstopped : Alike n
        (if f = .ucode ∧ s.store.isOnlineProgram then s.mbSlaveCtrlStopCmd else s)
        (if f = .ucode ∧ s'.store.isOnlineProgram then s'.mbSlaveCtrlStopCmd else s') := by
      rw [h.store]
      split
      · exact h.map mbSlaveCtrlStopCmd (fun _ _ _ => rfl) rfl
      · exact h
    rw [hroom, h.world]
    exact ⟨rfl, hstopped.map (fun t => t.setFile f (some _)) (fun _ _ _ => rfl) rfl⟩

theorem onlineProgram_refill (t : Slave ω) (f : DlFile) (x : FileTrans) (q r : Buff) (l : Stack) :
    (t.refill q r l).onlineProgram b f x =
        ((t.onlineProgram b f x).1, (t.onlineProgram b f x).2.refill q r l) ∧
      (t.onlineProgram b f x).2.receiveBuff = t.receiveBuff := by
  have hstore : (t.refill q r l).store = t.store := rfl
  have hworld : (t.refill q r l).world = t.world := rfl
  unfold Slave.onlineProgram
  rw [hstore, hworld]
  split
  · cases f with
    | ucode =>
      generalize b.compilerUcode x.fileHandler (t.store, t.world) = y
      obtain ⟨ok, store, world⟩ := y
      cases ok <;> exact ⟨rfl, rfl⟩
    | _ => exact ⟨rfl, rfl⟩
  · exact ⟨rfl, rfl⟩

theorem Alike.downloadFrame (h : Alike n s s') (hn : 4 ≤ n) (f : DlFile)
    (hend : s.fileEnd m f ≤ n) : Alike n (s.downloadFrame b m f) (s'.downloadFrame b m f) := by
  have hlen : 4 + (m.receiveLen - 6).toNat ≤ n := (le_max_right _ _).trans hend
  obtain ⟨ht, hopen⟩ := h.openFile (b := b) f fun hf => by
    have := (le_max_left _ _).trans hend
    rwa [if_pos hf] at this
  suffices hfile : (s'.mbSlaveDownloadFile b m f).1 = (s.mbSlaveDownloadFile b m f).1 ∧
      Alike n (s.mbSlaveDownloadFile b m f).2 (s'.mbSlaveDownloadFile b m f).2 by
    unfold Slave.downloadFrame
    generalize s.mbSlaveDownloadFile b m f = x at hfile
    generalize s'.mbSlaveDownloadFile b m f = x' at hfile
    obtain ⟨ok, t⟩ := x
    obtain ⟨ok', t'⟩ := x'
    obtain ⟨hok, halike⟩ := hfile
    subst hok
    cases ok' with
    | true => exact halike.respond hn []
    | false => exact halike.errorResp (by omega) _
  unfold mbSlaveDownloadFile
  generalize s.openFile b f = x at ht hopen
  generalize s'.openFile b f = x' at ht hopen
  obtain ⟨t, u⟩ := x
  obtain ⟨t', u'⟩ := x'
  subst ht
  have hnum : u'.frameNum = u.frameNum := hopen.byte (by omega)
  have hdata : u'.frameData m = u.frameData m := hopen.slice hlen
  dsimp only
  rw [hnum, hdata]
  cases t'.receive u.frameNum (u.frameData m) with
  | refused => exact ⟨rfl, hopen⟩
  | again => exact ⟨rfl, hopen⟩
  | done t =>
    have hset : Alike n (u.setFile f (some t)) (u'.setFile f (some t)) :=
      hopen.map (fun v => v.setFile f (some t)) (fun _ _ _ => rfl) rfl
    obtain ⟨q, r, l, hq, heq⟩ := hset
    obtain ⟨hrefill, hrecv⟩ := onlineProgram_refill (b := b) (u.setFile f (some t)) f t q r l
    dsimp only
    rw [heq, hrefill]
    exact ⟨rfl, q, r, l, fun i hi => (hq i hi).trans (congrFun hrecv i).symm, rfl⟩

theorem Alike.downloadCase (h : Alike n s s') (hn : 4 ≤ n) {op : Option DownloadOp}
    (hend : s.downloadEnd m op ≤ n) :
    Alike n (s.downloadCase b m op) (s'.downloadCase b m op) := by
  have hact : Alike n (s.act b .suspendTaskWhenDownloadUcode)
      (s'.act b .suspendTaskWhenDownloadUcode) :=
    h.map (fun t => t.act b .suspendTaskWhenDownloadUcode) (fun _ _ _ => rfl) rfl
  have hchecked (p : Password) : Alike n (s.passwordChecked b p).2 (s'.passwordChecked b p).2 :=
    h.map (fun t => (t.passwordChecked b p).2) (fun _ _ _ => rfl) rfl
  cases op with
  | none =>
    exact (h.map (fun t => t.countSlaveErr m) (fun _ _ _ => rfl) rfl).errorResp (by omega) _
  | some op =>
    cases op with
    | monitor k =>
      refine Alike.passwordChecked h (by omega) .monitor (f := fun t => t.downloadMonitor m k)
        fun _ => ?_
      refine (hchecked .monitor).downloadMonitor hn k fun hfirst => ?_
      have hfirst : s.frameNum = 0x01 ∨ s.frameNum = 0xFE := hfirst
      rwa [downloadEnd, if_pos hfirst] at hend
    | file f =>
      exact Alike.passwordChecked h (by omega) .download (f := fun t => t.downloadFrame b m f)
        fun _ => (hchecked .download).downloadFrame hn f hend
    | upgrade f =>
      unfold Slave.downloadCase
      dsimp only
      rw [h.store]
      split
      · exact h.errorResp (by omega) _
      · exact hact.downloadFrame hn f hend
    | slave =>
      unfold Slave.downloadCase
      dsimp only
      rw [h.store]
      split
      · exact h.errorResp (by omega) _
      · exact hact.map (fun t => { t with stuck := true }) (fun _ _ _ => rfl) rfl

theorem downloadEnd_congr {t : Slave ω} (hrecv : t.receiveBuff = s.receiveBuff)
    (hfiles : t.files = s.files) (op : Option DownloadOp) :
    t.downloadEnd m op = s.downloadEnd m op := by
  unfold downloadEnd monitorEnd fileEnd frameNum
  rw [hrecv, hfiles]

theorem Alike.downloadManage (h : Alike n s s') (hn : 4 ≤ n)
    (hend : s.downloadEnd m (downloadOp? s.subCode) ≤ n) :
    Alike n (s.mbSlaveDownloadManage b m) (s'.mbSlaveDownloadManage b m) := by
  have hsub : s'.subCode = s.subCode := h.byte (by omega)
  have hnum : s'.frameNum = s.frameNum := h.byte (by omega)
  unfold mbSlaveDownloadManage
  rw [hnum]
  split
  · have hrecv : (s.mbSlaveErrorResp m .iliegalData).receiveBuff = s.receiveBuff := by
      unfold mbSlaveErrorResp
      split <;> rfl
    have hfiles : (s.mbSlaveErrorResp m .iliegalData).files = s.files := by
      unfold mbSlaveErrorResp
      split <;> rfl
    have hrefused := h.errorResp (m := m) (by omega) .iliegalData
    have hsub' : (s'.mbSlaveErrorResp m .iliegalData).subCode = s.subCode :=
      (hrefused.byte (by omega)).trans (congrFun hrecv 2)
    have hsub'' : (s.mbSlaveErrorResp m .iliegalData).subCode = s.subCode := congrFun hrecv 2
    dsimp only
    rw [hsub', hsub'']
    refine hrefused.downloadCase hn ?_
    rwa [downloadEnd_congr hrecv hfiles]
  · dsimp only
    rw [hsub]
    exact h.downloadCase hn hend

end Download

/-! ## Uploads -/

/-- The first frame of an upload has a number that a first frame does not have. -/
def StartsWrongly (b : Board ω) (s : Slave ω) (f : DlFile) : Prop :=
  ¬ (s.openUpload b f).1.flag &&& 0x01 ≠ 0 ∧ ¬ (s.frameNum = 0x01 ∨ s.frameNum = 0xFE)

/-- An upload that sends what was left in the buffer, or as much as a local says that was not
set. -/
def UploadsStale (b : Board ω) (s : Slave ω) : Option UploadOp → Prop
  | some (.monitor _) => s.Unlocked b .monitor ∧ s.frameNum ≠ 0x01
  | some (.file f) => b.uploadForbidFlag s.world = false ∧ s.Unlocked b .upload ∧
      (s.passwordChecked b .upload).2.StartsWrongly b f
  | _ => False

/-- The end of the bytes that an upload is read from. -/
def uploadEnd : Option UploadOp → Nat
  | some .genDataBlock => 8
  | _ => 0

section Upload

variable {n : Nat} {s s' : Slave ω} {m : MsgPack} {b : Board ω}

/-- The answer to the first frame for a list of monitored elements. -/
theorem Alike.monitorResp (h : Alike n s s') (hn : 3 ≤ n) {k : Nat} (head data : List Byte)
    (hk : 3 + head.length = k) {len : BitVec 16} (hlen : len.toNat ≤ k + data.length) :
    Alike n ((((s.putResp k data).copyRequest 3).putResp 3 head).mbSlaveVerifyRespMsg m len)
      ((((s'.putResp k data).copyRequest 3).putResp 3 head).mbSlaveVerifyRespMsg m len) := by
  refine (h.putResp k data).headedResp hn head fun i hi hi' => ?_
  have hki : k ≤ i := by omega
  have hlt : i - k < data.length := by omega
  simp [Slave.putResp, Buff.putList, hki, hlt]

theorem Alike.uploadMonitor (h : Alike n s s') (hn : 4 ≤ n) (hnum : s.frameNum = 0x01)
    (k : Monitor) : Alike n (s.uploadMonitor m k) (s'.uploadMonitor m k) := by
  have hnum' : s'.frameNum = 0x01 := (h.byte (by omega)).trans hnum
  have hrefresh : Alike n (s.refreshMonitor k) (s'.refreshMonitor k) :=
    h.map (fun t => t.refreshMonitor k) (fun _ _ _ => rfl) rfl
  have hlist : (s'.refreshMonitor k).monitor k = (s.refreshMonitor k).monitor k := by
    obtain ⟨q, r, l, -, rfl⟩ := h
    rfl
  have hfirst : (s.refreshMonitor k).frameNum = 0x01 := hnum
  have hfirst' : (s'.refreshMonitor k).frameNum = 0x01 := hnum'
  have hmul (x : Nat) : ((5 : BitVec 16) + BitVec.ofNat 16 x * 3).toNat ≤ 5 + x * 3 := by
    rw [toNat_add, toNat_mul, toNat_ofNat]
    refine (mod_le _ _).trans (Nat.add_le_add_left ((mod_le _ _).trans ?_) 5)
    exact Nat.mul_le_mul_right 3 (mod_le _ _)
  cases k with
  | bits =>
    simp only [Slave.uploadMonitor, mbSlaveUploadMonitorBits, hfirst, hfirst', hlist]
    refine hrefresh.monitorResp (by omega) _ _ rfl ((hmul _).trans ?_)
    simp [ListedElement.bitBytes]
  | words =>
    simp only [Slave.uploadMonitor, mbSlaveUploadMonitorWords, hfirst, hfirst', hlist]
    refine hrefresh.monitorResp (by omega) _ _ rfl ?_
    refine (mod_le _ _).trans ?_
    simp [ListedElement.wordBytes, Nat.mul_comm]
  | bitsWords =>
    simp only [Slave.uploadMonitor, mbSlaveUploadMonitorBitsWords, hfirst, hfirst', hlist]
    refine hrefresh.monitorResp (by omega) _ _ rfl ?_
    exact mod_le _ _

theorem Alike.uploadGenDataBlock (h : Alike n s s') (hn : 8 ≤ n) :
    Alike n (s.mbSlaveUploadGenDataBlockFromRam m) (s'.mbSlaveUploadGenDataBlockFromRam m) := by
  have hnum : s'.frameNum = s.frameNum := h.byte (by omega)
  have hdata : s'.dataBytes = s.dataBytes := by
    unfold dataBytes
    rw [h.store]
  unfold mbSlaveUploadGenDataBlockFromRam
  rw [hnum, hdata, h.bigPU16 (i := 4) (by omega), h.bigPU16 (i := 6) (by omega)]
  dsimp only
  split_ifs
  · exact h.errorResp (by omega) _
  · exact h.respond (by omega) _
  · exact h.respond (by omega) _
  · exact h.respond (by omega) _
  · exact h.respond (by omega) _

theorem openUpload_refill (t : Slave ω) (f : DlFile) (q r : Buff) (l : Stack) :
    (t.refill q r l).openUpload b f =
        ((t.openUpload b f).1, (t.openUpload b f).2.refill q r l) ∧
      (t.openUpload b f).2.receiveBuff = t.receiveBuff := by
  have hfiles : (t.refill q r l).files = t.files := rfl
  unfold openUpload
  rw [hfiles]
  cases t.files f with
  | some x => exact ⟨rfl, rfl⟩
  | none =>
    dsimp only
    split <;> exact ⟨rfl, rfl⟩

theorem Alike.sendPiece (h : Alike n s s') (hn : 4 ≤ n) (f : DlFile) (t : FileTrans)
    (offset : Nat) : Alike n (s.sendPiece m f t offset) (s'.sendPiece m f t offset) := by
  unfold Slave.sendPiece
  generalize pieceLen t offset = x
  obtain ⟨cnt, last⟩ := x
  have hend : (cnt + 4).toNat ≤ 4 + cnt.toNat := by
    rw [Nat.add_comm]
    exact mod_le _ _
  -- what is done once the data are in the buffer
  have hrest {u u' : Slave ω} (hu : Alike n u u')
      (hresp : ∀ i, 4 ≤ i → i < 4 + cnt.toNat → u'.respBuff i = u.respBuff i) :
      Alike n
        (((if u.frameNum = 0xFE then u.freeUpload f else u).copyRequest 4).mbSlaveVerifyRespMsg m
          (cnt + 4))
        (((if u'.frameNum = 0xFE then u'.freeUpload f else u').copyRequest 4).mbSlaveVerifyRespMsg m
          (cnt + 4)) := by
    have hnum : u'.frameNum = u.frameNum := hu.byte (by omega)
    rw [hnum]
    split
    · exact copiedResp (hu.map (fun v => v.freeUpload f) (fun _ _ _ => rfl) rfl) hn
        fun i hi hi' => hresp i hi (by omega)
    · exact hu.copiedResp hn fun i hi hi' => hresp i hi (by omega)
  have hnote : Alike n { s with files := update s.files f (some t) }
      { s' with files := update s'.files f (some t) } :=
    h.map (fun u => { u with files := update u.files f (some t) }) (fun _ _ _ => rfl) rfl
  have hput := hnote.putResp 4 (t.fileHandler.slice offset cnt.toNat)
  have hresp (r r' : Buff) : ∀ i, 4 ≤ i → i < 4 + cnt.toNat →
      r'.putList 4 (t.fileHandler.slice offset cnt.toNat) i =
        r.putList 4 (t.fileHandler.slice offset cnt.toNat) i := by
    intro i hi hi'
    have hlt : i - 4 < cnt.toNat := by omega
    simp [Buff.putList, hi, Buff.slice, hlt]
  cases last with
  | true => exact hrest (hput.putReceive 3 0xFE) (hresp _ _)
  | false => exact hrest hput (hresp _ _)

theorem Alike.uploadFile (h : Alike n s s') (hn : 4 ≤ n) (f : DlFile)
    (hstart : ¬ s.StartsWrongly b f) :
    Alike n (s.mbSlaveUploadFile b m f) (s'.mbSlaveUploadFile b m f) := by
  have hopen : (s'.openUpload b f).1 = (s.openUpload b f).1 ∧
      Alike n (s.openUpload b f).2 (s'.openUpload b f).2 := by
    obtain ⟨q, r, l, hq, rfl⟩ := h
    obtain ⟨hrefill, hrecv⟩ := openUpload_refill (b := b) s f q r l
    rw [hrefill]
    exact ⟨rfl, q, r, l, fun i hi => (hq i hi).trans (congrFun hrecv i).symm, rfl⟩
  obtain ⟨-, hrecv⟩ := openUpload_refill (b := b) s f s.receiveBuff s.respBuff s.stack
  have hfirst : (s.openUpload b f).2.frameNum = s.frameNum := congrFun hrecv 3
  unfold StartsWrongly at hstart
  rw [← hfirst] at hstart
  unfold mbSlaveUploadFile
  generalize s.openUpload b f = x at hopen hstart
  generalize s'.openUpload b f = x' at hopen
  obtain ⟨t, u⟩ := x
  obtain ⟨t', u'⟩ := x'
  obtain ⟨ht, hu⟩ := hopen
  have hu : Alike n u u' := hu
  subst ht
  have hnum : u'.frameNum = u.frameNum := hu.byte (by omega)
  dsimp only at hstart ⊢
  rw [hnum]
  split_ifs with hflag hnext hsame hturn hgood
  · exact hu.sendPiece hn f _ _
  · exact hu.sendPiece hn f _ _
  · exact hu.sendPiece hn f _ _
  · exact hu.errorResp (by omega) _
  · exact hu.sendPiece hn f _ _
  · exact absurd ⟨not_not.mpr (not_not.mp hflag), hgood⟩ hstart

theorem Alike.uploadManage (h : Alike n s s') (hn : 4 ≤ n)
    (hend : uploadEnd (uploadOp? s.subCode) ≤ n)
    (hstale : ¬ s.UploadsStale b (uploadOp? s.subCode)) :
    Alike n (s.mbSlaveUploadManage b m) (s'.mbSlaveUploadManage b m) := by
  have hsub : s'.subCode = s.subCode := h.byte (by omega)
  have hchecked (p : Password) : Alike n (s.passwordChecked b p).2 (s'.passwordChecked b p).2 :=
    h.map (fun t => (t.passwordChecked b p).2) (fun _ _ _ => rfl) rfl
  unfold mbSlaveUploadManage
  rw [hsub]
  generalize uploadOp? s.subCode = op at hend hstale
  cases op with
  | none =>
    exact (h.map (fun t => t.countSlaveErr m) (fun _ _ _ => rfl) rfl).errorResp (by omega) _
  | some op =>
    cases op with
    | monitor k =>
      refine Alike.passwordChecked h (by omega) .monitor (f := fun t => t.uploadMonitor m k)
        fun hunlocked => (hchecked .monitor).uploadMonitor hn ?_ k
      by_contra hne
      exact hstale ⟨hunlocked, hne⟩
    | force kind =>
      have hforce : s'.force = s.force := by
        obtain ⟨q, r, l, -, rfl⟩ := h
        rfl
      cases kind <;> simp only [uploadCase, mbSlaveUploadForceBits, mbSlaveUploadForceWords,
        uploadForce, hforce] <;> exact h.respond (by omega) _
    | genDataBlock => exact h.uploadGenDataBlock hend
    | file f =>
      unfold uploadCase
      rw [h.world]
      split_ifs with hforbid
      · exact h.errorResp (by omega) _
      · exact Alike.passwordChecked h (by omega) .upload (f := fun t => t.mbSlaveUploadFile b m f)
          fun hunlocked => (hchecked .upload).uploadFile hn f fun hstart =>
            hstale ⟨Bool.eq_false_iff.mpr hforbid, hunlocked, hstart⟩

end Upload

/-! ## Controls -/

/-- The end of the bytes that a control is read from. A new password is only stored. -/
def ctrlEnd (s : Slave ω) : Option CtrlOp → Nat
  | some .writeRtc => 15
  | some (.force kind) => 4 + forceWidth kind * (s.receiveBuff 3).toNat
  | some (.setPwd _) =>
    if maxPasswordLen < (s.receiveBuff 3).toNat then 0 else 4 + (s.receiveBuff 3).toNat
  | _ => 0

section Ctrl

variable {n : Nat} {s s' : Slave ω} {m : MsgPack} {b : Board ω}

theorem Alike.setRealtime (h : Alike n s s') (hn : 15 ≤ n) :
    Alike n (s.mbSlaveCtrlSetRealtime b m) (s'.mbSlaveCtrlSetRealtime b m) := by
  unfold mbSlaveCtrlSetRealtime
  dsimp only
  rw [h.bigPU16 (by omega), h.byte (i := 6) (by omega), h.byte (i := 8) (by omega),
    h.byte (i := 10) (by omega), h.byte (i := 12) (by omega), h.byte (i := 14) (by omega), h.world]
  generalize b.setDatetime _ s.world = x
  cases x with
  | none => exact h.errorResp (by omega) _
  | some world =>
    exact (h.map (fun t => { t with world := world }) (fun _ _ _ => rfl) rfl).respond (by omega) _

theorem Alike.force_ (h : Alike n s s') (hn : 4 ≤ n) (kind : AddrKind)
    (hend : 4 + forceWidth kind * (s.receiveBuff 3).toNat ≤ n) :
    Alike n (s.force_ m kind) (s'.force_ m kind) := by
  have hforce {t t' : Slave ω} (ht : Alike n t t') : t'.force = t.force := by
    obtain ⟨q, r, l, -, rfl⟩ := ht
    rfl
  refine Alike.finishList (by omega) (fun ht => ht) ?_
  rw [hforce h, h.byte (i := 3) (by omega)]
  refine Alike.entryLoop (fun i hi t t' ht => ?_) h false
  have hi := mem_range.mp hi
  have hwidth : 4 + forceWidth kind * i + forceWidth kind ≤ n := by
    refine le_trans ?_ hend
    rw [Nat.add_assoc]
    exact Nat.add_le_add_left (Nat.mul_le_mul_left _ hi) 4
  have haddr : t'.forceAddr kind i = t.forceAddr kind i := by
    refine ht.bigPU16 ?_
    cases kind <;> simp only [forceWidth] at hwidth ⊢ <;> omega
  have hvalue : t'.forceValue kind i = t.forceValue kind i := by
    cases kind with
    | bit =>
      simp only [forceWidth] at hwidth
      simp only [forceValue, ht.byte (i := 4 + 3 * i + 2) (by omega)]
    | word =>
      simp only [forceWidth] at hwidth
      exact ht.bigPU16 (by omega)
  unfold forceEntry
  dsimp only
  rw [haddr, hvalue, hforce ht]
  split
  · exact ⟨ht.map (fun u => u.setForce kind _) (fun _ _ _ => rfl) rfl, rfl⟩
  cases mbSlaveConvertElementInfo kind (t.forceAddr kind i).toNat with
  | none => exact ⟨ht, rfl⟩
  | some x => exact ⟨ht.map (fun u => u.setForce kind _) (fun _ _ _ => rfl) rfl, rfl⟩

/-- What does not look at the buffers leaves them alone. -/
theorem writeCbin_refill (file : Buff) (fs : List (DlFile × Bool)) (pos : Nat) (t : Slave ω)
    (q r : Buff) (l : Stack) :
    writeCbin b file fs pos (t.refill q r l) =
        ((writeCbin b file fs pos t).1.refill q r l, (writeCbin b file fs pos t).2) ∧
      (writeCbin b file fs pos t).1.receiveBuff = t.receiveBuff := by
  induction fs generalizing pos t with
  | nil => exact ⟨rfl, rfl⟩
  | cons f fs ih =>
    obtain ⟨f, encrypted⟩ := f
    unfold writeCbin
    dsimp only
    split
    · exact ⟨rfl, rfl⟩
    · exact ih _ (acts b t [.eraseFile f, .writeFile f _])

theorem programmeFile_refill (f : DlFile) (x : FileTrans) (t : Slave ω) (q r : Buff) (l : Stack) :
    (t.refill q r l).programmeFile b f x =
        ((t.programmeFile b f x).1.refill q r l, (t.programmeFile b f x).2) ∧
      (t.programmeFile b f x).1.receiveBuff = t.receiveBuff := by
  have hworld : (t.refill q r l).world = t.world := rfl
  unfold programmeFile
  cases f with
  | plcCbin =>
    dsimp only
    rw [hworld]
    split
    · exact ⟨rfl, rfl⟩
    · exact writeCbin_refill ..
  | _ =>
    dsimp only
    split <;> exact ⟨rfl, rfl⟩

theorem programmeFiles_refill (fs : List DlFile) (t : Slave ω) (q r : Buff) (l : Stack) :
    programmeFiles b fs (t.refill q r l) =
        ((programmeFiles b fs t).1.refill q r l, (programmeFiles b fs t).2) ∧
      (programmeFiles b fs t).1.receiveBuff = t.receiveBuff := by
  induction fs generalizing t with
  | nil => exact ⟨rfl, rfl⟩
  | cons f fs ih =>
    have hfiles : (t.refill q r l).files = t.files := rfl
    unfold programmeFiles
    rw [hfiles]
    cases (t.files f).filter FileTrans.complete with
    | none => exact ih t
    | some x =>
      obtain ⟨hrefill, hrecv⟩ := programmeFile_refill (b := b) f x t q r l
      dsimp only
      rw [hrefill]
      generalize t.programmeFile b f x = y at hrecv
      obtain ⟨u, e⟩ := y
      cases e with
      | some e => exact ⟨rfl, hrecv⟩
      | none =>
        obtain ⟨hrest, hr⟩ := ih (u.setFile f none)
        exact ⟨hrest, hr.trans hrecv⟩

theorem Alike.programme (h : Alike n s s') (hn : 3 ≤ n) :
    Alike n (s.programme b m) (s'.programme b m) := by
  have hcmd {t t' : Slave ω} (ht : Alike n t t') :
      Alike n (t.mbSlaveCtrlProgrammeCmd b m) (t'.mbSlaveCtrlProgrammeCmd b m) := by
    refine Alike.finishList (by omega) (fun ht => ht.respond hn []) ?_
    obtain ⟨q, r, l, hq, rfl⟩ := ht
    obtain ⟨hrefill, hrecv⟩ := programmeFiles_refill (b := b) dlFiles t q r l
    rw [hrefill]
    exact ⟨⟨q, r, l, fun i hi => (hq i hi).trans (congrFun hrecv i).symm, rfl⟩, rfl⟩
  have hact {t t' : Slave ω} (ht : Alike n t t') (a : Act) : Alike n (t.act b a) (t'.act b a) :=
    ht.map (fun u => u.act b a) (fun _ _ _ => rfl) rfl
  unfold Slave.programme
  dsimp only
  rw [h.store]
  split
  · have hstop : Alike n s.mbSlaveCtrlStopCmd s'.mbSlaveCtrlStopCmd :=
      h.map mbSlaveCtrlStopCmd (fun _ _ _ => rfl) rfl
    exact (hact (hcmd (hact hstop _)) _).map (fun u => u.mbSlaveCtrlRunCmd b) (fun _ _ _ => rfl) rfl
  · exact hact (hcmd (hact h _)) _

theorem Alike.setUserPassword_sent (h : Alike n s s') (hn : 4 ≤ n) (p : Password)
    (hend : s.ctrlEnd (some (.setPwd p)) ≤ n) :
    ((s'.mbSlaveCtrlSetUserPassword b m p).respond m 3 []).sent =
      ((s.mbSlaveCtrlSetUserPassword b m p).respond m 3 []).sent := by
  have hold : s'.receiveBuff 3 = s.receiveBuff 3 := h.byte (by omega)
  unfold mbSlaveCtrlSetUserPassword
  dsimp only
  rw [hold]
  split_ifs with hlong
  · exact ((h.errorResp (by omega) _).respond (by omega) []).sent
  have hend : 4 + (s.receiveBuff 3).toNat ≤ n := by
    rwa [ctrlEnd, if_neg fun hmax => hlong (.inl hmax)] at hend
  have hpwd : s'.password 4 (s.receiveBuff 3) = s.password 4 (s.receiveBuff 3) := h.slice hend
  rw [hpwd, h.world]
  generalize b.checkPasswordInfo p (s.password 4 (s.receiveBuff 3)) s.world = x
  obtain ⟨ok, world⟩ := x
  cases ok with
  | true => exact h.acknowledged (by omega) (by decide) rfl rfl rfl rfl
  | false =>
    have hworld : Alike n { s with world := world } { s' with world := world } :=
      h.map (fun t => { t with world := world }) (fun _ _ _ => rfl) rfl
    exact ((hworld.errorResp (by omega) _).respond (by omega) []).sent

theorem Alike.checkUserPassword (h : Alike n s s') (hn : 2 ≤ n) (hlen : m.len ≤ n)
    (h5 : 5 ≤ m.len) (p : Password) :
    Alike n (s.mbSlaveCtrlCheckUserPassword b m p) (s'.mbSlaveCtrlCheckUserPassword b m p) := by
  have hpwd : s'.password 3 ((m.receiveLen - 5).setWidth 8) =
      s.password 3 ((m.receiveLen - 5).setWidth 8) := by
    refine h.slice (le_trans ?_ hlen)
    have hnat : (m.receiveLen - 5).toNat = m.len - 5 := by
      rw [toNat_sub_of_le (by simpa [le_def, MsgPack.len] using h5)]
      rfl
    rw [toNat_setWidth]
    omega
  unfold mbSlaveCtrlCheckUserPassword
  rw [hpwd, h.world]
  generalize b.checkPasswordInfo p _ s.world = x
  obtain ⟨ok, world⟩ := x
  have hworld : Alike n { s with world := world } { s' with world := world } :=
    h.map (fun t => { t with world := world }) (fun _ _ _ => rfl) rfl
  cases ok with
  | true => exact hworld
  | false => exact hworld.errorResp hn _

theorem Alike.onlineProgramMode (h : Alike n s s') (hlen : m.len ≤ n) (h5 : 5 ≤ m.len)
    (on : Bool) : Alike n (s.onlineProgramMode m on) (s'.onlineProgramMode m on) := by
  have hset : Alike n { s with store := { s.store with isOnlineProgram := on } }
      { s' with store := { s'.store with isOnlineProgram := on } } :=
    h.map (fun t => { t with store := { t.store with isOnlineProgram := on } })
      (fun _ _ _ => rfl) rfl
  unfold Slave.onlineProgramMode
  split
  · exact hset.map (fun t => { t with stuck := true }) (fun _ _ _ => rfl) rfl
  · exact hset.echo hlen (by omega)

@[simp] theorem acts_sent (s : Slave ω) (as : List Act) : (s.acts b as).sent = s.sent := by
  induction as generalizing s with
  | nil => rfl
  | cons a as ih => exact ih (s.act b a)

@[simp] theorem acts_receiveBuff (s : Slave ω) (as : List Act) :
    (s.acts b as).receiveBuff = s.receiveBuff := by
  induction as generalizing s with
  | nil => rfl
  | cons a as ih => exact ih (s.act b a)

theorem cleanAllUserData_sent (s : Slave ω) : (s.mbSlaveCtrlCleanAllUserData b).sent = s.sent := by
  simp only [mbSlaveCtrlCleanAllUserData, mbSlaveCtrlUnforceAll, act, acts_sent]

theorem cleanAllUserData_receiveBuff (s : Slave ω) :
    (s.mbSlaveCtrlCleanAllUserData b).receiveBuff = s.receiveBuff := by
  simp only [mbSlaveCtrlCleanAllUserData, mbSlaveCtrlUnforceAll, act, acts_receiveBuff]

/-- The dispatcher answers after something that has nothing to do with the buffers. -/
theorem Alike.thenRespond_sent (h : Alike n s s') (hn : 3 ≤ n) (f : Slave ω → Slave ω)
    (hsent : ∀ t, (f t).sent = t.sent) (hrecv : ∀ t, (f t).receiveBuff = t.receiveBuff) :
    ((f s').thenRespond m).sent = ((f s).thenRespond m).sent :=
  h.acknowledged hn (by decide) (hsent s) (hrecv s) (hsent s') (hrecv s')

theorem Alike.cleaning_sent (h : Alike n s s') (hn : 3 ≤ n) (clean : Slave ω → Slave ω)
    (hsent : ∀ t, (clean t).sent = t.sent) (hrecv : ∀ t, (clean t).receiveBuff = t.receiveBuff) :
    (s'.cleaning b m clean).sent = (s.cleaning b m clean).sent := by
  unfold cleaning
  rw [h.world]
  split
  · exact (h.errorResp (by omega) _).sent
  · exact h.thenRespond_sent hn clean hsent hrecv

theorem Alike.ctrlManage_sent (h : Alike n s s') (hn : 5 ≤ n) (hlen : m.len ≤ n)
    (h5 : 5 ≤ m.len) (hend : s.ctrlEnd (ctrlOp? s.subCode) ≤ n) :
    (s'.mbSlaveCtrlManage b m).sent = (s.mbSlaveCtrlManage b m).sent := by
  have hsub : s'.subCode = s.subCode := h.byte (by omega)
  have hn3 : 3 ≤ n := by omega
  have hclean (as : List Act) : (s'.cleaning b m fun t => t.acts b as).sent =
      (s.cleaning b m fun t => t.acts b as).sent :=
    h.cleaning_sent hn3 (fun t => t.acts b as) (fun t => acts_sent t as)
      fun t => acts_receiveBuff t as
  have hact (a : Act) : ((s'.act b a).thenRespond m).sent = ((s.act b a).thenRespond m).sent :=
    h.thenRespond_sent hn3 (fun t => t.act b a) (fun _ => rfl) fun _ => rfl
  unfold mbSlaveCtrlManage
  rw [hsub]
  generalize ctrlOp? s.subCode = op at hend
  cases op with
  | none =>
    exact ((h.map (fun t => t.countSlaveErr m) (fun _ _ _ => rfl) rfl).errorResp (by omega) _).sent
  | some op =>
    cases op with
    | readRtc =>
      simp only [ctrlCase, mbSlaveCtrlReadRealtime, h.world]
      exact (h.respond hn3 _).sent
    | writeRtc => exact (h.setRealtime hend).sent
    | force kind => cases kind <;> exact ((h.force_ (by omega) _ hend).respond hn3 []).sent
    | unforce kind =>
      cases kind <;>
        exact h.thenRespond_sent hn3 (fun t => t.unforce _) (fun _ => rfl) fun _ => rfl
    | readPlcInfo =>
      have hinfo : s'.plcInfo b = s.plcInfo b := by
        obtain ⟨q, r, l, -, rfl⟩ := h
        rfl
      simp only [ctrlCase, mbSlaveCtrlReadPlcInfo, hinfo]
      exact (h.respond hn3 _).sent
    | readPlcStatus =>
      simp only [ctrlCase, mbSlaveCtrlReadPlcStatus, runByte, sdBytes, h.store]
      exact (h.respond hn3 _).sent
    | programmeCmd => exact (h.programme hn3).sent
    | cleanUserCode => exact hclean _
    | cleanSysBlock => exact hclean _
    | cleanDataBlock => exact hclean _
    | cleanNetcfg => exact hclean _
    | cleanAll =>
      exact h.cleaning_sent hn3 (fun t => t.mbSlaveCtrlCleanAllUserData b) cleanAllUserData_sent
        cleanAllUserData_receiveBuff
    | verifyUcode | verifyPid1 =>
      simp only [ctrlCase, verifyFile, h.world]
      exact (h.respond hn3 _).sent
    | reboot => exact (h.respond hn3 []).sent
    | readErrorInfo =>
      simp only [ctrlCase, mbSlaveReadErrorInfo, h.world]
      exact (h.respond hn3 _).sent
    | setPwd p => exact h.setUserPassword_sent (by omega) p hend
    | checkPwd p => exact ((h.checkUserPassword (by omega) hlen h5 p).respond hn3 []).sent
    | onlineProgram on => exact (h.onlineProgramMode hlen h5 on).sent
    | searchSlave => exact h.sent
    | runCmd =>
      exact h.thenRespond_sent hn3 (fun t => t.mbSlaveCtrlRunCmd b) (fun _ => rfl) fun _ => rfl
    | stopCmd => exact h.thenRespond_sent hn3 mbSlaveCtrlStopCmd (fun _ => rfl) fun _ => rfl
    | unforceAll => exact h.thenRespond_sent hn3 mbSlaveCtrlUnforceAll (fun _ => rfl) fun _ => rfl
    | cleanErrorInfo => exact hact _
    | cleanElement =>
      exact h.thenRespond_sent hn3
        (fun t => t.acts b [.plcElementValueInit, .plcSmSdInit, .plsdEraseAll])
        (fun t => acts_sent t _) fun t => acts_receiveBuff t _
    | setUploadForbid flag => exact hact _
    | writeDeviceInfo =>
      exact h.thenRespond_sent hn3
        (fun t => t.act b (.writeDeviceInfo (t.receiveBuff.slice 3 38))) (fun _ => rfl) fun _ => rfl
    | blinkNetLed => exact hact _
    | touChuan x =>
      exact h.thenRespond_sent hn3
        (fun t => { t with store := t.store.setWord (.elem .SD) 231 (x.setWidth 16)
          }.act b (.touChuan x)) (fun _ => rfl) fun _ => rfl
    | touChuanNet => exact hact _
    | slaveId => exact h.thenRespond_sent hn3 id (fun _ => rfl) fun _ => rfl

end Ctrl

end Slave

end Kalyke
