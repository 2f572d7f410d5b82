-- SUMMARY: A port in listen-only mode neither acts nor answers, in runs without the frames it minds.
import Kalyke.Lib.Runs
import Kalyke.Modbus.Answers

/-!
# The Listen-Only Mode

A port that has been told to listen only should ignore all frames until it is told to restart. The
filter of the handler lets pass every frame whose fourth byte is 1, whatever its function, and all
diagnostics; frames with a wrong checksum are answered before it; and one diagnostic ends the mode
of all ports.
-/

namespace Kalyke

open Function

/-- A message handed over to the slave: the pack and its two buffers. -/
structure Message where
  pack : MsgPack
  receiveBuff : Buff
  respBuff : Buff

/-- A message with some bytes from a serial port. -/
def comMessage (frame : List Byte) : Message where
  pack := comMsg (BitVec.ofNat 16 frame.length)
  receiveBuff i := frame.getD i 0
  respBuff _ := 0

variable {ω : Type}

namespace Slave

/-- A message has been received. -/
def take (s : Slave ω) (x : Message) : Slave ω :=
  { s with receiveBuff := x.receiveBuff, respBuff := x.respBuff }

def receive (b : Board ω) (s : Slave ω) (x : Message) : Slave ω := (s.take x).handle b x.pack

/-! ## The Mode -/

/-- A diagnostic request with a valid checksum. -/
def Diagnoses (s : Slave ω) (m : MsgPack) : Prop := 5 ≤ m.len ∧ s.CrcOk m ∧ s.functionCode = 0x08

/-- The request that turns the mode on. -/
def ForcesListenOnly (s : Slave ω) (m : MsgPack) : Prop :=
  s.Diagnoses m ∧ s.diagReqCode = 0x0004

/-- The request that turns the mode off. -/
def Restarts (s : Slave ω) (m : MsgPack) : Prop :=
  s.Diagnoses m ∧ s.diagReqCode = 0x0001 ∧ (s.diagReqData = 0x0000 ∨ s.diagReqData = 0xFF00)

/-- A frame that a port in listen-only mode does not mind: it is too short, or broadcast with a
wrong checksum, or dropped by the filter, or it is a diagnostic that is not for broadcasts, that
turns the mode on once more, or that has the code of a restart without its data. -/
def Ignored (s : Slave ω) (m : MsgPack) : Prop :=
  m.len < 5 ∨ (m.isBroadcastInfo ∧ ¬ s.CrcOk m) ∨ s.CrcOk m ∧
    if s.functionCode = 0x08 then
      m.isBroadcastInfo ∧ s.diagReqCode ∉ broadcastCodes ∨ s.receiveBuff 3 = 0x04 ∨
        s.receiveBuff 3 = 0x01 ∧ s.diagReqData ≠ 0x0000 ∧ s.diagReqData ≠ 0xFF00
    else s.receiveBuff 3 ≠ 0x01

/-- A diagnostic that resets the information on all ports. -/
def ClearsModes (s : Slave ω) (m : MsgPack) : Prop :=
  s.Diagnoses m ∧ s.receiveBuff 3 = 0x0A ∧
    ¬ (m.isBroadcastInfo ∧ s.diagReqCode ∉ broadcastCodes)

/-- A frame that leaves the mode of a port alone: one it does not mind, or one from another port
that does not reset all ports. -/
def LeavesMode (p : Sender) (s : Slave ω) (x : Message) : Prop :=
  if x.pack.sender = p then (s.take x).Ignored x.pack else ¬ (s.take x).ClearsModes x.pack

/-- The port only listens. -/
def ListensOnly (s : Slave ω) (p : Sender) : Prop := (s.diag p).listenOnlyMode = true

/-- Nothing is answered, and no element, list, file or flag is changed. -/
structure Untouched (s s' : Slave ω) : Prop where
  sent : s'.sent = []
  store : s'.store = s.store
  force : s'.force = s.force
  monitor : s'.monitor = s.monitor
  files : s'.files = s.files
  powerOnAutoRun : s'.powerOnAutoRun = s.powerOnAutoRun
  cmdRun : s'.cmdRun = s.cmdRun
  cmdReboot : s'.cmdReboot = s.cmdReboot

/-- Messages from all ports, each of which meets a condition. Between them anything may happen that
leaves the mode of the port as it is. -/
def ListenRun (b : Board ω) (p : Sender) (P : Slave ω → Message → Prop) :
    Slave ω → List Message → Slave ω → Prop :=
  EventRun (fun t t' => t'.ListensOnly p ↔ t.ListensOnly p) (fun t x => t.receive b x) P

/-- A port keeps listening: the mode is on, and the next frame on it is ignored and leaves it on. -/
structure KeepsListening (b : Board ω) (p : Sender) (P : Slave ω → Message → Prop)
    (s : Slave ω) : Prop where
  mode : s.ListensOnly p
  next : ∀ x, x.pack.sender = p → P s x →
    Untouched s (s.receive b x) ∧ (s.receive b x).ListensOnly p

/-! ## Frames on the Port -/

variable {b : Board ω} {s : Slave ω} {m : MsgPack} {p : Sender} {x : Message}

theorem untouched_fresh (s : Slave ω) : Untouched s s.fresh :=
  ⟨rfl, rfl, rfl, rfl, rfl, rfl, rfl, rfl⟩

/-- The cases of the diagnostic function that a port in listen-only mode does not mind. -/
theorem diagnostic_untouched (hmode : s.ListensOnly m.sender)
    (h : m.isBroadcastInfo ∧ s.diagReqCode ∉ broadcastCodes ∨ s.receiveBuff 3 = 0x04 ∨
      s.receiveBuff 3 = 0x01 ∧ s.diagReqData ≠ 0x0000 ∧ s.diagReqData ≠ 0xFF00) :
    Untouched s (s.fresh.mbSlaveDiagnosticFunc m) ∧
      (s.fresh.mbSlaveDiagnosticFunc m).ListensOnly m.sender := by
  by_cases hdrop : m.isBroadcastInfo ∧ s.diagReqCode ∉ broadcastCodes
  · have heq : s.fresh.mbSlaveDiagnosticFunc m = s.fresh.countSlaveErr m := if_pos hdrop
    rw [heq]
    refine ⟨⟨rfl, rfl, rfl, rfl, rfl, rfl, rfl, rfl⟩, ?_⟩
    simp only [ListensOnly, countSlaveErr, update_self]
    exact hmode
  have heq : s.fresh.mbSlaveDiagnosticFunc m =
      s.fresh.diagnosticCase m (diagCode? (s.receiveBuff 3)) := if_neg hdrop
  rw [heq]
  rcases h with h | h | ⟨h, hdata⟩
  · exact absurd h hdrop
  · rw [diagCode?_eq_force.mpr h]
    refine ⟨⟨rfl, rfl, rfl, rfl, rfl, rfl, rfl, rfl⟩, ?_⟩
    simp [ListensOnly, diagnosticCase, setListenOnly]
  · have hcode : diagCode? (s.receiveBuff 3) = some .restartCommunication := by
      rw [h]
      decide
    have hcase : s.fresh.diagnosticCase m (some .restartCommunication) = s.fresh := by
      have hbad : ¬ (s.fresh.diagReqData = 0x0000 ∨ s.fresh.diagReqData = 0xFF00) :=
        not_or.mpr hdata
      rw [diagnosticCase, if_neg hbad]
      exact if_pos hmode
    rw [hcode, hcase]
    exact ⟨untouched_fresh s, hmode⟩

theorem handle_of_diagnoses (h : s.Diagnoses m) :
    s.handle b m = s.fresh.mbSlaveDiagnosticFunc m := by
  obtain ⟨hlen, hcrc, hcode⟩ := h
  have hfilter : ¬ s.Filtered m := fun h => h.2.1 hcode
  rw [handle_passed (Nat.not_lt.mpr hlen) hcrc hfilter, mbFunction?_eq_diag.mpr hcode]
  rfl

/-- A frame that is ignored. -/
theorem handle_untouched (hmode : s.ListensOnly m.sender) (h : s.Ignored m) :
    Untouched s (s.handle b m) ∧ (s.handle b m).ListensOnly m.sender := by
  by_cases hlen : m.len < 5
  · rw [handle_short hlen]
    exact ⟨untouched_fresh s, hmode⟩
  by_cases hcrc : s.CrcOk m
  · have hdiag := ((h.resolve_left hlen).resolve_left fun h => h.2 hcrc).2
    by_cases hcode : s.functionCode = 0x08
    · rw [if_pos hcode] at hdiag
      rw [handle_of_diagnoses ⟨Nat.not_lt.mp hlen, hcrc, hcode⟩]
      exact diagnostic_untouched hmode hdiag
    · rw [if_neg hcode] at hdiag
      rw [handle_filtered hlen hcrc ⟨hmode, hcode, hdiag⟩]
      exact ⟨untouched_fresh s, hmode⟩
  · have hb : m.isBroadcastInfo := by
      rcases h with h | h | h
      · exact absurd h hlen
      · exact h.1
      · exact absurd h.1 hcrc
    rw [handle_badCrc hlen hcrc, mbSlaveErrorResp, if_pos hb]
    refine ⟨⟨rfl, rfl, rfl, rfl, rfl, rfl, rfl, rfl⟩, ?_⟩
    simp only [ListensOnly, countCrcErr, update_self]
    exact hmode

/-! ## Frames on Other Ports -/

theorem countErr_diag (a : Account) (hp : p ≠ m.sender) :
    ((a.countErr m).refuse m).diag p = a.diag p := by
  simp [Account.refuse, Account.countErr, hp]

theorem ctrlManage_diag (hp : p ≠ m.sender) : (s.mbSlaveCtrlManage b m).diag p = s.diag p := by
  unfold mbSlaveCtrlManage
  cases ctrlOp? s.subCode with
  | none =>
    have h := account_mbSlaveErrorResp (s.countSlaveErr m) m .iliegalCode
    exact (congrFun (congrArg Account.diag h) p).trans (countErr_diag s.account hp)
  | some op =>
    by_cases hsearch : op = .searchSlave
    · subst hsearch
      rfl
    by_cases htwice : s.AnswersTwice b m op
    · exact congrFun (congrArg Account.diag (ctrlCase_twice b s m htwice)) p
    by_cases hendless : EchoEndless m op
    · exact congrFun (congrArg Account.diag (ctrlCase_endless b s m hendless)) p
    · exact congrFun (ctrlCase_settles b s m htwice hendless hsearch).diag p

theorem uploadManage_diag (hp : p ≠ m.sender) :
    (s.mbSlaveUploadManage b m).diag p = s.diag p := by
  unfold mbSlaveUploadManage
  cases uploadOp? s.subCode with
  | none =>
    have h := account_mbSlaveErrorResp (s.countSlaveErr m) m .iliegalCode
    exact (congrFun (congrArg Account.diag h) p).trans (countErr_diag s.account hp)
  | some op => exact congrFun (uploadCase_settles b s m op).diag p

theorem downloadManage_diag (hp : p ≠ m.sender) :
    (s.mbSlaveDownloadManage b m).diag p = s.diag p := by
  have hcase (t : Slave ω) (op : Option DownloadOp) :
      (t.downloadCase b m op).diag p = t.diag p := by
    cases op with
    | none =>
      have h := account_mbSlaveErrorResp (t.countSlaveErr m) m .iliegalCode
      exact (congrFun (congrArg Account.diag h) p).trans (countErr_diag t.account hp)
    | some op =>
      by_cases hslave : t.SlaveUpgrade op
      · exact congrFun (congrArg Account.diag (downloadCase_slave b t m hslave)) p
      · exact congrFun (downloadCase_settles b t m hslave).diag p
  unfold mbSlaveDownloadManage
  split
  · rw [hcase]
    exact congrFun (congrArg Account.diag (account_mbSlaveErrorResp s m .iliegalData)) p
  · exact hcase s _

/-- A function other than the diagnostics leaves the information on other ports. -/
theorem function_diag (hp : p ≠ m.sender) {f : Option MbFunction}
    (hf : f ≠ some .diagDiagnostic) : (s.function b m f).diag p = s.diag p := by
  have hset {P : Prop} {t : Slave ω} (h : ¬ m.isBroadcastInfo → Account.Settles m s.account t.account P)
      (hb : m.isBroadcastInfo → t = s) : t.diag p = s.diag p := by
    by_cases hbroad : m.isBroadcastInfo
    · rw [hb hbroad]
    · exact congrFun (h hbroad).diag p
  cases f with
  | none =>
    have h := account_mbSlaveErrorResp (s.countSlaveErr m) m .iliegalCode
    exact (congrFun (congrArg Account.diag h) p).trans (countErr_diag s.account hp)
  | some f =>
    cases f
    case readCoilsStatus => exact hset (fun hb => readBits_settles s m hb _ _) fun hb => if_pos hb
    case readDescreteInputStatus =>
      exact hset (fun hb => readBits_settles s m hb _ _) fun hb => if_pos hb
    case readHoldingRegister =>
      exact hset (fun hb => readHoldingRegister_settles s m hb) fun hb => if_pos hb
    case writeSingleCoil => exact congrFun (writeSingleCoil_settles s m).diag p
    case writeRegister => exact congrFun (writeRegister_settles s m).diag p
    case diagDiagnostic => exact absurd rfl hf
    case writeMultipleCoils => exact congrFun (writeMultipleCoils_settles s m).diag p
    case writeMultipleRegisters => exact congrFun (writeMultipleRegisters_settles s m).diag p
    case readMultipleBitElement =>
      exact hset (fun hb => readMultipleBitElement_settles s m hb) fun hb => if_pos hb
    case readMultipleWordElement =>
      exact hset (fun hb => readMultipleWordElement_settles s m hb) fun hb => if_pos hb
    case writeMultipleBitElement =>
      exact hset (fun hb => writeMultipleBitElement_settles s m hb) fun hb => if_pos hb
    case writeMultipleWordElement =>
      exact hset (fun hb => writeMultipleWordElement_settles s m hb) fun hb => if_pos hb
    case downloadFunc => exact downloadManage_diag hp
    case uploadFunc => exact uploadManage_diag hp
    case ctrlFunc => exact ctrlManage_diag hp

/-- A diagnostic that does not reset all ports leaves the information on other ports. -/
theorem diagnosticFunc_diag (hp : p ≠ m.sender)
    (h : ¬ (s.receiveBuff 3 = 0x0A ∧ ¬ (m.isBroadcastInfo ∧ s.diagReqCode ∉ broadcastCodes))) :
    (s.mbSlaveDiagnosticFunc m).diag p = s.diag p := by
  have hclear {x : Byte} : diagCode? x = some .clearCtrlDiagReg → x = 0x0A := by
    revert x
    decide
  have hcount := (congrFun (congrArg Account.diag (account_mbSlaveErrorResp (s.countSlaveErr m) m
    .iliegalCode)) p).trans (countErr_diag s.account hp)
  unfold mbSlaveDiagnosticFunc
  split
  · simp [countSlaveErr, hp]
  · next hpass =>
    have hne : diagCode? (s.receiveBuff 3) ≠ some .clearCtrlDiagReg :=
      fun hcode => h ⟨hclear hcode, hpass⟩
    cases hc : diagCode? (s.receiveBuff 3) with
    | none => exact hcount
    | some c =>
      cases c
      case clearCtrlDiagReg => exact absurd hc hne
      case restartCommunication =>
        unfold diagnosticCase
        split_ifs
        · simp [echo, copyRequest, mbSlaveVerifyRespMsg, setListenOnly, hp]
        · rfl
        · exact hcount
      case forceListenOnlyMode => simp [diagnosticCase, setListenOnly, update, hp]
      all_goals rfl

theorem handle_diag (hp : p ≠ m.sender) (h : ¬ s.ClearsModes m) :
    (s.handle b m).diag p = s.diag p := by
  by_cases hlen : m.len < 5
  · rw [handle_short hlen]
    rfl
  by_cases hcrc : s.CrcOk m
  · by_cases hcode : s.functionCode = 0x08
    · have hdiag : s.Diagnoses m := ⟨Nat.not_lt.mp hlen, hcrc, hcode⟩
      rw [handle_of_diagnoses hdiag]
      exact diagnosticFunc_diag (s := s.fresh) hp fun h' => h ⟨hdiag, h'⟩
    · by_cases hfilter : s.Filtered m
      · rw [handle_filtered hlen hcrc hfilter]
        rfl
      · rw [handle_passed hlen hcrc hfilter]
        exact function_diag (s := s.fresh) hp fun h => hcode (mbFunction?_eq_diag.mp h)
  · rw [handle_badCrc hlen hcrc]
    have h := account_mbSlaveErrorResp (s.fresh.countCrcErr m) m .errorFrame
    refine (congrFun (congrArg Account.diag h) p).trans ?_
    simp [account, Account.refuse, countCrcErr, hp, fresh]

/-! ## Runs -/

theorem listensOnly_of_forced (h : s.ForcesListenOnly m) :
    (s.handle b m).ListensOnly m.sender := by
  obtain ⟨hdiag, hcode⟩ := h
  have hbyte : s.receiveBuff 3 = 0x04 := by
    rw [receiveBuff_three, hcode]
    decide
  have hpass : ¬ s.fresh.DropsCode m := by
    rintro ⟨-, h⟩
    have hcode : s.fresh.diagReqCode = 0x0004 := hcode
    exact h (by rw [hcode]; decide)
  rw [handle_of_diagnoses hdiag, mbSlaveDiagnosticFunc, if_neg hpass]
  rw [show diagCode? (s.fresh.receiveBuff 3) = _ from diagCode?_eq_force.mpr hbyte]
  simp [ListensOnly, diagnosticCase, setListenOnly]

theorem receive_listens (hmode : s.ListensOnly p) (hx : LeavesMode p s x) :
    (s.receive b x).ListensOnly p := by
  unfold LeavesMode at hx
  split_ifs at hx with hp
  · subst hp
    exact (handle_untouched (s := s.take x) hmode hx).2
  · have hdiag := handle_diag (b := b) (s := s.take x) (Ne.symm hp) hx
    rw [ListensOnly, receive, hdiag]
    exact hmode

/-- From the request to listen only on, a port keeps listening in every run of frames that leave its
mode alone. -/
theorem keepsListening_of_run {s₀ : Slave ω} {x₀ : Message} {xs : List Message}
    (hp : x₀.pack.sender = p) (hforce : (s₀.take x₀).ForcesListenOnly x₀.pack)
    (hrun : ListenRun b p (LeavesMode p) (s₀.receive b x₀) xs s) :
    s.KeepsListening b p (LeavesMode p) := by
  have hstart : (s₀.receive b x₀).ListensOnly p := hp ▸ listensOnly_of_forced hforce
  have hmode : s.ListensOnly p :=
    hrun.invariant hstart (fun t t' ht hidle => hidle.mpr ht) fun t x ht hx => receive_listens ht hx
  refine ⟨hmode, fun x hsender hx => ?_⟩
  have hignored : (s.take x).Ignored x.pack := by rwa [LeavesMode, if_pos hsender] at hx
  subst hsender
  obtain ⟨⟨h1, h2, h3, h4, h5, h6, h7, h8⟩, hlistens⟩ :=
    handle_untouched (b := b) (s := s.take x) hmode hignored
  exact ⟨⟨h1, h2, h3, h4, h5, h6, h7, h8⟩, hlistens⟩

/-- A port that was told to listen only ignores the request to set the coil `Y2047`. -/
theorem y2047_ignored :
    let s := (idle []).receive idleBoard (comMessage [1, 8, 0, 4, 0, 0, 0xA1, 0xCA])
    Untouched s (s.receive idleBoard (comMessage [1, 5, 0x2E, 0x0F, 0xFF, 0, 0xB5, 0x11])) := by
  intro s
  have hignored : LeavesMode .com0 s (comMessage [1, 5, 0x2E, 0x0F, 0xFF, 0, 0xB5, 0x11]) := by
    exact .inr (.inr ⟨by decide, by decide⟩)
  have hfirst : (comMessage [1, 8, 0, 4, 0, 0, 0xA1, 0xCA]).pack.sender = .com0 := rfl
  have hforce : ((idle []).take (comMessage [1, 8, 0, 4, 0, 0, 0xA1, 0xCA])).ForcesListenOnly
      (comMessage [1, 8, 0, 4, 0, 0, 0xA1, 0xCA]).pack :=
    ⟨⟨by decide, by decide, by decide⟩, by decide⟩
  have hstart : ListenRun idleBoard .com0 (LeavesMode .com0) s [] s := .start
  have hkeeps := keepsListening_of_run hfirst hforce hstart
  exact (hkeeps.next _ rfl hignored).1

/-- The request to set the coil `Y1` is carried out by a port that was told to listen only. -/
theorem y1_set : ¬ ∀ (p : Sender) (s₀ s : Slave Unit) (x₀ : Message) (xs : List Message),
    x₀.pack.sender = p → (s₀.take x₀).ForcesListenOnly x₀.pack →
      ListenRun idleBoard p
        (fun t x => ¬ (x.pack.sender = p ∧ (t.take x).Restarts x.pack)) (s₀.receive idleBoard x₀)
        xs s →
        s.KeepsListening idleBoard p fun t x =>
          ¬ (x.pack.sender = p ∧ (t.take x).Restarts x.pack) := by
  intro h
  have hkeeps := h .com0 (idle []) _ (comMessage [1, 8, 0, 4, 0, 0, 0xA1, 0xCA]) [] rfl
    ⟨⟨by decide, by decide, by decide⟩, by decide⟩ .start
  have huntouched := (hkeeps.next (comMessage [1, 5, 0, 1, 0xFF, 0, 0xDD, 0xFA]) rfl
    (fun h => absurd h.2.1.2.2 (by decide))).1
  have hset : (((idle []).receive idleBoard (comMessage [1, 8, 0, 4, 0, 0, 0xA1, 0xCA])).receive
      idleBoard (comMessage [1, 5, 0, 1, 0xFF, 0, 0xDD, 0xFA])).store.bit .Y 1 = true := by decide
  rw [huntouched.store] at hset
  cases hset

end Slave

end Kalyke
