-- SUMMARY: The bytes of every response, but for some that send stale bytes, and their counts.
import Kalyke.Modbus.Counters
import Kalyke.Modbus.Responses

/-!
# Determined Responses

What is sent depends on the request, on the elements, counters, lists and files, and on the rest of
the firmware. The exceptions are the counters of the diagnostic function and the first frames of
uploads with another number than 1.
-/

namespace Kalyke

/-- The count in a response to a request to read a block is that of the data bytes behind it. -/
def Resp.CountsData : Resp → Prop
  | .normal frame => ∃ (x y count : Byte) (data : List Byte),
    frame = withCrc (x :: y :: count :: data) ∧ count.toNat = data.length
  | .exception _ => True

variable {ω : Type}

namespace Slave

/-- The end of the bytes of the request that the answer of a function is made from. -/
def requestEnd (s : Slave ω) (m : MsgPack) : Option MbFunction → Nat
  | some .writeSingleCoil | some .writeRegister | some .diagDiagnostic => 6
  | some .writeMultipleCoils | some .writeMultipleRegisters => 7
  | some .readMultipleBitElement | some .readMultipleWordElement => 3 + 2 * s.listCnt
  | some .writeMultipleBitElement => 3 + 3 * s.listCnt
  | some .writeMultipleWordElement => 3 + 4 * s.listCnt
  | some .downloadFunc => s.downloadEnd m (downloadOp? s.subCode)
  | some .uploadFunc => uploadEnd (uploadOp? s.subCode)
  | some .ctrlFunc => s.ctrlEnd (ctrlOp? s.subCode)
  -- the functions that read blocks look at the length of the frame
  | _ => 0

/-- The bytes of a request: the frame, and what its function reads behind a frame that is too
short. -/
def requestLen (s : Slave ω) (m : MsgPack) : Nat :=
  max m.len (s.requestEnd m (mbFunction? s.functionCode))

/-- A function sends bytes that were left in the buffer, or as many as a local says that was not
set. -/
def SendsStale (b : Board ω) (s : Slave ω) : Option MbFunction → Prop
  | some .diagDiagnostic => s.AsksCounter
  | some .uploadFunc => s.UploadsStale b (uploadOp? s.subCode)
  | _ => False

/-- A block of so many counters of 32 bits that the count of the data bytes does not fit. -/
def CutsCount (s : Slave ω) : Prop := 64 ≤ s.reqCnt ∧ ∃ n, RegisterAt s.reqAddr .c32 n

section Sent

variable {n : Nat} {s s' : Slave ω} {m : MsgPack} {b : Board ω}

theorem Alike.function_sent (h : Alike n s s') (h5 : 5 ≤ m.len) (hlen : m.len ≤ n)
    {f : Option MbFunction} (hend : s.requestEnd m f ≤ n) (hstale : ¬ s.SendsStale b f) :
    (s'.function b m f).sent = (s.function b m f).sent := by
  have hread (kind : AddrKind) (limit : Nat) (hcnt : 3 + 2 * s.listCnt ≤ n) {t t' : Slave ω}
      (ht : t.sent = s.sent ++ [s.listResp kind limit])
      (ht' : t'.sent = s'.sent ++ [s'.listResp kind limit]) : t'.sent = t.sent := by
    rw [ht, ht', h.sent, h.listResp hcnt]
  cases f with
  | none =>
    exact ((h.map (fun t => t.countSlaveErr m) (fun _ _ _ => rfl) rfl).errorResp (by omega) _).sent
  | some f =>
    cases f with
    | readCoilsStatus => exact (h.readBits (by omega) hlen _ _).sent
    | readDescreteInputStatus => exact (h.readBits (by omega) hlen _ _).sent
    | readHoldingRegister => exact (h.readHoldingRegister (by omega) hlen).sent
    | writeSingleCoil => exact (h.writeSingleCoil hend).sent
    | writeRegister => exact (h.writeRegister hend).sent
    | diagDiagnostic => exact (h.diagnosticFunc hend hlen (by omega) hstale).sent
    | writeMultipleCoils => exact h.writeMultipleCoils_sent hend
    | writeMultipleRegisters => exact h.writeMultipleRegisters_sent hend
    | readMultipleBitElement =>
      by_cases hb : m.isBroadcastInfo
      · simp only [function, mbSlaveReadMultipleBitElement, if_pos hb, h.sent]
      · exact hread .bit 0x50 hend (readMultipleBitElement_sent s hb)
          (readMultipleBitElement_sent s' hb)
    | readMultipleWordElement =>
      by_cases hb : m.isBroadcastInfo
      · simp only [function, mbSlaveReadMultipleWordElement, if_pos hb, h.sent]
      · exact hread .word 0x3C hend (readMultipleWordElement_sent s hb)
          (readMultipleWordElement_sent s' hb)
    | writeMultipleBitElement => exact h.writeMultipleBitElement_sent hend
    | writeMultipleWordElement => exact h.writeMultipleWordElement_sent hend
    | downloadFunc => exact (h.downloadManage (by omega) hend).sent
    | uploadFunc => exact (h.uploadManage (by omega) hend hstale).sent
    | ctrlFunc => exact h.ctrlManage_sent (by omega) hlen h5 hend

/-- What was recorded before has nothing to do with the bytes sent. -/
theorem sendsStale_fresh (s : Slave ω) (f : Option MbFunction) :
    s.fresh.SendsStale b f ↔ s.SendsStale b f := by
  have hopen (t : Slave ω) (f : DlFile) :
      (t.fresh.openUpload b f).1 = (t.openUpload b f).1 := by
    unfold openUpload
    dsimp only [fresh]
    cases t.files f with
    | some x => rfl
    | none =>
      dsimp only
      split <;> rfl
  have hupload (op : Option UploadOp) : s.fresh.UploadsStale b op ↔ s.UploadsStale b op := by
    cases op with
    | none => exact Iff.rfl
    | some op =>
      cases op with
      | file f =>
        have hfile : (s.fresh.passwordChecked b .upload).2.StartsWrongly b f ↔
            (s.passwordChecked b .upload).2.StartsWrongly b f := by
          unfold StartsWrongly
          rw [← hopen (s.passwordChecked b .upload).2 f]
          exact Iff.rfl
        exact and_congr Iff.rfl (and_congr Iff.rfl hfile)
      | _ => exact Iff.rfl
  cases f with
  | none => exact Iff.rfl
  | some f =>
    cases f with
    | uploadFunc => exact hupload _
    | _ => exact Iff.rfl

theorem Alike.handle_sent (h : Alike (s.requestLen m) s s')
    (hstale : ¬ s.SendsStale b (mbFunction? s.functionCode)) :
    (s'.handle b m).sent = (s.handle b m).sent := by
  have hfresh : Alike (s.requestLen m) s.fresh s'.fresh :=
    h.map Slave.fresh (fun _ _ _ => rfl) rfl
  by_cases hshort : m.len < 5
  · rw [handle_short hshort, handle_short hshort, fresh_sent, fresh_sent]
  have hlen : m.len ≤ s.requestLen m := le_max_left _ _
  have hcrc : s'.CrcOk m ↔ s.CrcOk m := by
    simp only [CrcOk, Buff.nativePU16]
    rw [h.bytes (by omega), h.byte (by omega), h.byte (by omega)]
  have hcode : s'.functionCode = s.functionCode := h.byte (by omega)
  have hfilter : s'.Filtered m ↔ s.Filtered m := by
    unfold Filtered listenOnly
    rw [hcode, h.byte (by omega), h.diag]
  by_cases hok : s.CrcOk m
  swap
  · rw [handle_badCrc hshort hok, handle_badCrc hshort fun h => hok (hcrc.mp h)]
    exact ((hfresh.map (fun t => t.countCrcErr m) (fun _ _ _ => rfl) rfl).errorResp
      (by omega) _).sent
  by_cases hdropped : s.Filtered m
  · rw [handle_filtered hshort hok hdropped,
      handle_filtered hshort (hcrc.mpr hok) (hfilter.mpr hdropped), fresh_sent, fresh_sent]
  · rw [handle_passed hshort hok hdropped,
      handle_passed hshort (hcrc.mpr hok) fun h => hdropped (hfilter.mp h), hcode]
    exact hfresh.function_sent (Nat.not_lt.mp hshort) hlen (le_max_right _ _)
      (mt (sendsStale_fresh s _).mp hstale)

end Sent

/-! ## Counts -/

section Counts

variable {s : Slave ω} {m : MsgPack} {b : Board ω}

theorem countsData_normal (s : Slave ω) {data : List Byte} (hlen : data.length < 256) :
    (Resp.normal (withCrc
      (s.receiveBuff.bytes 2 ++ BitVec.ofNat 8 data.length :: data))).CountsData := by
  refine ⟨s.receiveBuff 0, s.receiveBuff 1, BitVec.ofNat 8 data.length, data, rfl, ?_⟩
  exact Nat.mod_eq_of_lt hlen

theorem bitsResp_countsData (s : Slave ω) (m : MsgPack) (base : BitElement → BitElement)
    (shift : Bool) : (s.bitsResp m base shift).CountsData := by
  unfold bitsResp
  cases h : s.readBitsRequest m base with
  | error e => trivial
  | ok x =>
    obtain ⟨e, addr, cnt⟩ := x
    obtain ⟨-, hcnt, rfl, -⟩ := readBitsRequest_eq_ok_iff.mp h
    have hlen := length_packBits_le shift (fun i => s.store.bit e (addr + i)) s.reqCnt
    have hmax : mbMaxRBitNum = 2000 := rfl
    exact countsData_normal s (by omega)

theorem registersResp_countsData (hcut : ¬ s.CutsCount) : (s.registersResp m).CountsData := by
  unfold registersResp
  cases h : s.readRegistersRequest m with
  | error e => trivial
  | ok x =>
    obtain ⟨r, addr, cnt⟩ := x
    obtain ⟨-, hcnt, rfl, hat, -⟩ := readRegistersRequest_eq_ok_iff.mp h
    have hlen := length_registers r s.store addr s.reqCnt
    have hmax : mbMaxRWordNum = 125 := rfl
    refine countsData_normal s ?_
    rw [hlen]
    cases r with
    | word e =>
      simp only [Register.width]
      omega
    | c32 =>
      have hfew : ¬ 64 ≤ s.reqCnt := fun h64 => hcut ⟨h64, addr, hat⟩
      simp only [Register.width]
      omega

def ReadsBlock (s : Slave ω) : Prop :=
  s.functionCode = 0x01 ∨ s.functionCode = 0x02 ∨ s.functionCode = 0x03

/-- A response that was made by itself. -/
theorem countsData_of_sent {t : Slave ω} {r : Resp} (hsent : t.sent = s.fresh.sent ++ [r])
    (hr : r.CountsData) : ∀ r ∈ t.sent, r.CountsData := by
  intro r' hr'
  rw [hsent, fresh_sent, List.nil_append, List.mem_singleton] at hr'
  exact hr' ▸ hr

theorem handle_countsData (hreads : s.ReadsBlock)
    (hcut : s.functionCode = 0x03 → ¬ s.CutsCount) : ∀ r ∈ (s.handle b m).sent, r.CountsData := by
  by_cases hshort : m.len < 5
  · rw [handle_short hshort]
    simp
  by_cases hok : s.CrcOk m
  swap
  · rw [handle_badCrc hshort hok]
    by_cases hb : m.isBroadcastInfo
    · rw [mbSlaveErrorResp_sent, if_pos hb]
      simp [countCrcErr]
    · exact countsData_of_sent (s := s) (mbSlaveErrorResp_sent_one hb _) trivial
  by_cases hdropped : s.Filtered m
  · rw [handle_filtered hshort hok hdropped]
    simp
  rw [handle_passed hshort hok hdropped]
  by_cases hb : m.isBroadcastInfo
  · have hnone : (s.fresh.function b m (mbFunction? s.functionCode)).sent = [] := by
      rcases hreads with h | h | h <;> rw [h]
      · exact congrArg Slave.sent (if_pos hb)
      · exact congrArg Slave.sent (if_pos hb)
      · exact congrArg Slave.sent (if_pos hb)
    rw [hnone]
    simp
  · rcases hreads with h | h | h <;> rw [h]
    · exact countsData_of_sent (readBits_sent s.fresh hb _ _) (bitsResp_countsData _ m _ _)
    · exact countsData_of_sent (readBits_sent s.fresh hb _ _) (bitsResp_countsData _ m _ _)
    · exact countsData_of_sent (readHoldingRegister_sent s.fresh hb)
        (registersResp_countsData (hcut h))

end Counts

/-- What is sent does not depend on what was left in the buffers and locals, but for the responses
that send stale bytes; and a count of data bytes is right where it fits. -/
theorem responses_determined (b : Board ω) (s : Slave ω) (m : MsgPack) :
    (¬ s.SendsStale b (mbFunction? s.functionCode) →
      ∀ s', Alike (s.requestLen m) s s' → (s'.handle b m).sent = (s.handle b m).sent) ∧
    (s.ReadsBlock → (s.functionCode = 0x03 → ¬ s.CutsCount) →
      ∀ r ∈ (s.handle b m).sent, r.CountsData) :=
  ⟨fun hstale _ h => h.handle_sent hstale, handle_countsData⟩

/-- The answer to a request for `Y0`, whatever was left in the buffer and the locals. -/
theorem y0_response_determined :
    (((idle [1, 1, 0, 0, 0, 1, 0xFD, 0xCA]).refill (idle [1, 1, 0, 0, 0, 1, 0xFD, 0xCA]).receiveBuff
      (fun _ => 0xFF) ⟨1, 1, 1, 1, 1⟩).handle idleBoard (comMsg 8)).sent =
        ((idle [1, 1, 0, 0, 0, 1, 0xFD, 0xCA]).handle idleBoard (comMsg 8)).sent ∧
      ∀ r ∈ ((idle [1, 1, 0, 0, 0, 1, 0xFD, 0xCA]).handle idleBoard (comMsg 8)).sent,
        r.CountsData :=
  ⟨(responses_determined idleBoard (idle [1, 1, 0, 0, 0, 1, 0xFD, 0xCA]) (comMsg 8)).1 id _
      ⟨_, _, _, fun _ _ => rfl, rfl⟩,
    (responses_determined idleBoard (idle [1, 1, 0, 0, 0, 1, 0xFD, 0xCA]) (comMsg 8)).2
      (.inl rfl) fun h => absurd h (by decide)⟩

/-- The clock is read: two boards that differ only in it get different responses. -/
theorem clock_not_determined : ¬ ∀ (b b' : Board Unit) (s : Slave Unit) (m : MsgPack),
    b'.userFile = b.userFile → b'.flashFile = b.flashFile → s.CrcOk m →
      (s.handle b' m).sent = (s.handle b m).sent := by
  intro h
  have hsame := h idleBoard { idleBoard with getDatetime := fun _ => ⟨2021, 1, 1, 0, 0, 0⟩ }
    (idle [1, 0x6A, 1, 0xCF, 0x60]) (comMsg 5) rfl rfl (by decide)
  exact absurd hsame (by decide)

end Slave

end Kalyke
