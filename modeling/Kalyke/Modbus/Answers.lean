-- SUMMARY: Which frames are answered once, and which broadcasts are answered.
import Kalyke.Modbus.Account

/-!
# Answers

Outside the listen-only mode a frame should be answered once, and a broadcast not at all. A frame is
answered twice where the function or a sub-function sends an exception response and the dispatcher
answers nevertheless. The dispatchers of the vendor's functions do not ask whether the frame is a
broadcast, nor do the standard functions that write.
-/

namespace Kalyke

open List Option

open Account (Settles)

namespace Account

variable {m : MsgPack} {a a' : Account} {P : Prop}

/-- One response was sent, an exception response exactly if the request was refused. -/
def Once (a : Account) : Prop :=
  a.stuck = false ∧ (a.normals = 1 ∧ a.exceptions = 0 ∧ a.refused = false ∨
    a.normals = 0 ∧ a.exceptions = 1 ∧ a.refused = true)

/-- Nothing was sent. -/
def Silent (a : Account) : Prop := a.stuck = false ∧ a.normals = 0 ∧ a.exceptions = 0

/-- Nothing has happened yet. -/
def Blank (a : Account) : Prop :=
  a.stuck = false ∧ a.normals = 0 ∧ a.exceptions = 0 ∧ a.refused = false

theorem Settles.stuck (h : Settles m a a' P) : a'.stuck = a.stuck := by
  rcases h with ⟨-, rfl⟩ | ⟨-, rfl⟩ <;> rfl

theorem Settles.once (h : Settles m a a' P) (ha : a.Blank) (hb : m.isBroadcastInfo = false) :
    a'.Once := by
  obtain ⟨hstuck, hn, he, hr⟩ := ha
  rcases h with ⟨-, rfl⟩ | ⟨-, rfl⟩
  · exact ⟨hstuck, .inl ⟨by simp [answer, hn], he, hr⟩⟩
  · exact ⟨hstuck, .inr ⟨hn, by simp [refuse, he, hb], rfl⟩⟩

theorem Settles.not_once (h : Settles m a a' P) (ha : a.exceptions = 1)
    (hb : m.isBroadcastInfo = false) : ¬ a'.Once := by
  rintro ⟨-, hsent⟩
  rcases h with ⟨-, rfl⟩ | ⟨-, rfl⟩
  · simp [answer, ha] at hsent
  · simp [refuse, ha, hb] at hsent

theorem Settles.silent_iff (h : Settles m a a' P) (ha : a.stuck = false ∧ a.normals = 0 ∧
    a.exceptions = 0) (hb : m.isBroadcastInfo = true) : a'.Silent ↔ ¬ P := by
  obtain ⟨hstuck, hn, he⟩ := ha
  rcases h with ⟨hP, rfl⟩ | ⟨hP, rfl⟩
  · exact iff_of_false (fun h => by simpa [answer] using h.2.1) (not_not.mpr hP)
  · exact iff_of_true ⟨hstuck, hn, by simp [refuse, he, hb]⟩ hP

end Account

variable {ω : Type}

namespace Slave

/-! ## Frames and Their Answers -/

/-- The frame that turns the listen-only mode on, which is never answered. -/
def EntersListenOnly (s : Slave ω) : Prop := s.functionCode = 0x08 ∧ s.receiveBuff 3 = 0x04

/-- The query that is answered although it is broadcast. -/
def BroadcastQuery (s : Slave ω) : Prop := s.functionCode = 0x08 ∧ s.diagReqCode = 0x00AA

/-- A frame is answered once, by an exception response exactly if it is refused; a broadcast is not
answered; and the slave does not get stuck. -/
structure AnsweredOnce (b : Board ω) (s : Slave ω) (m : MsgPack) : Prop where
  ends : (s.handle b m).stuck = false
  once : m.isBroadcastInfo = false → ¬ s.EntersListenOnly →
    (∃ frame, (s.handle b m).sent = [.normal frame]) ∧ (s.handle b m).errorCode = none ∨
      (∃ frame, (s.handle b m).sent = [.exception frame]) ∧ (s.handle b m).errorCode ≠ none
  quiet : s.EntersListenOnly → (s.handle b m).sent = []
  broadcast : m.isBroadcastInfo = true → ¬ s.BroadcastQuery → (s.handle b m).sent = []

/-- The frames to one slave that are not answered once: downloads with a number that is not
allowed, for which an exception response is sent and the frame handled all the same, or of the
firmware of another device; controls whose sub-function answers a refused request before the
dispatcher answers it, or that are never answered, or whose loop does not end. -/
def AnsweredWrongly (b : Board ω) (s : Slave ω) (m : MsgPack) : MbFunction → Prop
  | .downloadFunc => s.frameNum = 0x00 ∨ s.frameNum = 0xFF ∨
      ∃ op, downloadOp? s.subCode = some op ∧ s.SlaveUpgrade op
  | .ctrlFunc => ∃ op, ctrlOp? s.subCode = some op ∧
      (op = .searchSlave ∨ s.AnswersTwice b m op ∨ EchoEndless m op)
  | _ => False

/-- The broadcasts that are answered: those of the functions without a check for broadcasts whose
request is accepted. -/
def BroadcastAnswered (b : Board ω) (s : Slave ω) (m : MsgPack) : MbFunction → Prop
  | .writeSingleCoil => s.LetsPass m .writeSingleCoil
  | .writeRegister => s.LetsPass m .writeRegister
  | .writeMultipleCoils => s.LetsPass m .writeMultipleCoils
  | .writeMultipleRegisters => s.LetsPass m .writeMultipleRegisters
  | .diagDiagnostic => s.diagReqCode = 0x000A ∨
      s.diagReqCode = 0x0001 ∧ (s.diagReqData = 0x0000 ∨ s.diagReqData = 0xFF00)
  | .downloadFunc => ∃ op, downloadOp? s.subCode = some op ∧
      (s.SlaveUpgrade op ∨ s.DownloadAccepted b m op)
  | .uploadFunc => ∃ op, uploadOp? s.subCode = some op ∧ s.UploadAccepted b op
  | .ctrlFunc => ∃ op, ctrlOp? s.subCode = some op ∧ op ≠ .searchSlave ∧
      (s.AnswersTwice b m op ∨ EchoEndless m op ∨ s.CtrlAccepted b op)
  | _ => False

/-- The frames that are not answered as they should be. -/
def Misanswered (b : Board ω) (s : Slave ω) (m : MsgPack) : Prop :=
  ∃ f, mbFunction? s.functionCode = some f ∧
    if m.isBroadcastInfo then s.fresh.BroadcastAnswered b m f else s.fresh.AnsweredWrongly b m f

/-! ## From Accounts to Responses -/

variable {b : Board ω} {s : Slave ω} {m : MsgPack}

/-- A list of responses with one of each kind at most. -/
theorem sent_of_account {s : Slave ω} :
    (s.account.normals = 0 ∧ s.account.exceptions = 0 ↔ s.sent = []) ∧
    (s.account.normals = 1 ∧ s.account.exceptions = 0 ↔ ∃ frame, s.sent = [.normal frame]) ∧
    (s.account.normals = 0 ∧ s.account.exceptions = 1 ↔ ∃ frame, s.sent = [.exception frame]) := by
  simp only [account]
  rcases s.sent with _ | ⟨r, _ | ⟨q, rs⟩⟩
  · simp
  · cases r <;> simp [Resp.isNormal]
  · have hlen := length_eq_countP_add_countP Resp.isNormal (l := r :: q :: rs)
    simp only [length_cons, decide_not, Bool.decide_eq_true] at hlen
    refine ⟨iff_of_false ?_ (by simp), iff_of_false ?_ (by simp), iff_of_false ?_ (by simp)⟩
    all_goals
      rintro ⟨hn, he⟩
      omega

theorem answeredOnce_iff_account : s.AnsweredOnce b m ↔
    (s.handle b m).stuck = false ∧
      (m.isBroadcastInfo = false → ¬ s.EntersListenOnly → (s.handle b m).account.Once) ∧
      (s.EntersListenOnly → (s.handle b m).account.Silent) ∧
      (m.isBroadcastInfo = true → ¬ s.BroadcastQuery → (s.handle b m).account.Silent) := by
  obtain ⟨hnil, hnormal, hexception⟩ := sent_of_account (s := s.handle b m)
  have hrefused : (s.handle b m).account.refused = false ↔ (s.handle b m).errorCode = none := by
    simp [account]
  constructor
  · rintro ⟨hends, honce, hquiet, hbroadcast⟩
    refine ⟨hends, fun hb hnot => ⟨hends, ?_⟩, fun h => ⟨hends, hnil.mpr (hquiet h)⟩,
      fun hb hnot => ⟨hends, hnil.mpr (hbroadcast hb hnot)⟩⟩
    rcases honce hb hnot with ⟨hsent, hcode⟩ | ⟨hsent, hcode⟩
    · obtain ⟨hn, he⟩ := hnormal.mpr hsent
      exact .inl ⟨hn, he, hrefused.mpr hcode⟩
    · obtain ⟨hn, he⟩ := hexception.mpr hsent
      exact .inr ⟨hn, he, Bool.eq_true_of_not_eq_false fun h => hcode (hrefused.mp h)⟩
  · rintro ⟨hends, honce, hquiet, hbroadcast⟩
    refine ⟨hends, fun hb hnot => ?_, fun h => hnil.mp (hquiet h).2,
      fun hb hnot => hnil.mp (hbroadcast hb hnot).2⟩
    obtain ⟨-, ⟨hn, he, hr⟩ | ⟨hn, he, hr⟩⟩ := honce hb hnot
    · exact .inl ⟨hnormal.mp ⟨hn, he⟩, hrefused.mp hr⟩
    · exact .inr ⟨hexception.mp ⟨hn, he⟩, fun h => by simp [hrefused.mpr h] at hr⟩

/-! ## Functions -/

/-- The codes of diagnostic requests that are accepted. -/
def DiagAccepted (s : Slave ω) : Option DiagCode → Prop
  | some .restartCommunication => s.diagReqData = 0x0000 ∨ s.diagReqData = 0xFF00
  | some _ => True
  | none => False

/-- A diagnostic request other than the one that turns the listen-only mode on. -/
theorem diagnosticCase_settles {c : Option DiagCode} (hc : c ≠ some .forceListenOnlyMode)
    (hlisten : s.listenOnly m = false) :
    ∃ d, Settles m { s.account with diag := d } (s.diagnosticCase m c).account
      (s.DiagAccepted c) := by
  have hmode : ¬ (s.diag m.sender).listenOnlyMode := by simpa [listenOnly] using hlisten
  cases c with
  | none => exact ⟨_, .inr ⟨id, account_mbSlaveErrorResp _ m _⟩⟩
  | some c =>
    cases c
    case forceListenOnlyMode => exact absurd rfl hc
    case restartCommunication =>
      unfold diagnosticCase DiagAccepted
      split_ifs with hdata
      · exact ⟨_, .inl ⟨hdata, account_mbSlaveVerifyRespMsg _ m _⟩⟩
      · exact ⟨_, .inr ⟨hdata, account_mbSlaveErrorResp _ m _⟩⟩
    all_goals exact ⟨_, .inl ⟨trivial, account_mbSlaveVerifyRespMsg _ m _⟩⟩

theorem diagCode?_eq_force {x : Byte} : diagCode? x = some .forceListenOnlyMode ↔ x = 0x04 := by
  revert x
  decide

theorem acknowledged_errorCode (f : DlFile) (x : Option MbError) :
    { s with errorCode := x }.Acknowledged b m f ↔ s.Acknowledged b m f := by
  unfold Acknowledged openFile
  cases (s.files f).filter fun t => !(f.restarts && t.complete) with
  | some t => exact Iff.rfl
  | none =>
    split_ifs <;> exact Iff.rfl

theorem downloadAccepted_errorCode (op : DownloadOp) (x : Option MbError) :
    { s with errorCode := x }.DownloadAccepted b m op ↔ s.DownloadAccepted b m op := by
  cases op with
  | monitor k => cases k <;> exact Iff.rfl
  | file f =>
    exact and_congr_right fun _ =>
      acknowledged_errorCode (s := (s.passwordChecked b .download).2) f x
  | upgrade f =>
    exact and_congr_right fun _ =>
      acknowledged_errorCode (s := s.act b .suspendTaskWhenDownloadUcode) f x
  | slave => exact Iff.rfl

/-- A code that is not known, in a frame to one slave. -/
theorem countErr_once (hblank : s.account.Blank) (hb : m.isBroadcastInfo = false) :
    ((s.countSlaveErr m).mbSlaveErrorResp m .iliegalCode).account.Once := by
  have h := Account.settles_refuse (m := m) (a := (s.countSlaveErr m).account) (P := False) id
  rw [account_mbSlaveErrorResp]
  exact h.once hblank hb

theorem countErr_silent (hblank : s.account.Blank) (hb : m.isBroadcastInfo = true) :
    ((s.countSlaveErr m).mbSlaveErrorResp m .iliegalCode).account.Silent := by
  have h := Account.settles_refuse (m := m) (a := (s.countSlaveErr m).account) (P := False) id
  rw [account_mbSlaveErrorResp]
  exact (h.silent_iff ⟨hblank.1, hblank.2.1, hblank.2.2.1⟩ hb).mpr id

theorem download_once_iff (hblank : s.account.Blank) (hb : m.isBroadcastInfo = false) :
    (s.mbSlaveDownloadManage b m).account.Once ↔ ¬ s.AnsweredWrongly b m .downloadFunc := by
  unfold mbSlaveDownloadManage
  dsimp only
  by_cases hnum : s.frameNum = 0x00 ∨ s.frameNum = 0xFF
  · rw [if_pos hnum]
    have hwrong : s.AnsweredWrongly b m .downloadFunc := hnum.elim .inl fun h => .inr (.inl h)
    refine iff_of_false ?_ (not_not.mpr hwrong)
    have hexc : (s.mbSlaveErrorResp m .iliegalData).account.exceptions = 1 := by
      simp [Account.refuse, hb, hblank.2.2.1]
    cases downloadOp? (s.mbSlaveErrorResp m .iliegalData).subCode with
    | none =>
      rintro ⟨-, h⟩
      simp only [downloadCase] at h hexc
      simp [Account.refuse, Account.countErr, hb] at h
    | some op =>
      by_cases hslave : (s.mbSlaveErrorResp m .iliegalData).SlaveUpgrade op
      · rw [downloadCase_slave b _ m hslave]
        exact fun h => absurd h.1 (by simp [Account.stick])
      · exact (downloadCase_settles b _ m hslave).not_once hexc hb
  · rw [if_neg hnum]
    have hwrong : s.AnsweredWrongly b m .downloadFunc ↔
        ∃ op, downloadOp? s.subCode = some op ∧ s.SlaveUpgrade op := by
      rw [not_or] at hnum
      simp only [AnsweredWrongly, hnum.1, hnum.2, false_or]
    rw [hwrong]
    cases hop : downloadOp? s.subCode with
    | none =>
      exact iff_of_true (countErr_once hblank hb) (by simp)
    | some op =>
      by_cases hslave : s.SlaveUpgrade op
      · rw [downloadCase_slave b _ m hslave]
        exact iff_of_false (fun h => absurd h.1 (by simp [Account.stick]))
          (not_not.mpr ⟨op, rfl, hslave⟩)
      · refine iff_of_true ((downloadCase_settles b _ m hslave).once hblank hb) ?_
        rintro ⟨op', hop', h⟩
        cases hop'
        exact hslave h

theorem download_silent_iff (hblank : s.account.Blank) (hb : m.isBroadcastInfo = true) :
    (s.mbSlaveDownloadManage b m).account.Silent ↔ ¬ s.BroadcastAnswered b m .downloadFunc := by
  -- a number that is not allowed only sets the error code
  obtain ⟨x, hx⟩ : ∃ x, (if s.frameNum = 0x00 ∨ s.frameNum = 0xFF then
      s.mbSlaveErrorResp m .iliegalData else s) = { s with errorCode := x } := by
    split_ifs
    · exact ⟨some .iliegalData, if_pos hb⟩
    · exact ⟨s.errorCode, rfl⟩
  unfold mbSlaveDownloadManage BroadcastAnswered
  dsimp only
  rw [hx]
  have hbase : { s with errorCode := x }.account.stuck = false ∧
      { s with errorCode := x }.account.normals = 0 ∧
      { s with errorCode := x }.account.exceptions = 0 :=
    ⟨hblank.1, hblank.2.1, hblank.2.2.1⟩
  have hsub : { s with errorCode := x }.subCode = s.subCode := rfl
  rw [hsub]
  cases hop : downloadOp? s.subCode with
  | none =>
    refine iff_of_true ?_ (by simp)
    have h := Account.settles_refuse (m := m)
      (a := ({ s with errorCode := x }.countSlaveErr m).account) (P := False) id
    simp only [downloadCase, account_mbSlaveErrorResp]
    exact (h.silent_iff hbase hb).mpr id
  | some op =>
    simp only [some.injEq, exists_eq_left']
    by_cases hslave : s.SlaveUpgrade op
    · rw [downloadCase_slave b { s with errorCode := x } m hslave]
      exact iff_of_false (fun h => absurd h.1 (by simp [Account.stick]))
        (not_not.mpr (.inl hslave))
    · have hother : ¬ { s with errorCode := x }.SlaveUpgrade op := hslave
      have h := (downloadCase_settles b { s with errorCode := x } m hother).silent_iff hbase hb
      rw [h, downloadAccepted_errorCode, or_iff_right hslave]

theorem upload_once (hblank : s.account.Blank) (hb : m.isBroadcastInfo = false) :
    (s.mbSlaveUploadManage b m).account.Once := by
  unfold mbSlaveUploadManage
  cases uploadOp? s.subCode with
  | none => exact countErr_once hblank hb
  | some op => exact (uploadCase_settles b s m op).once hblank hb

theorem upload_silent_iff (hblank : s.account.Blank) (hb : m.isBroadcastInfo = true) :
    (s.mbSlaveUploadManage b m).account.Silent ↔ ¬ s.BroadcastAnswered b m .uploadFunc := by
  unfold mbSlaveUploadManage BroadcastAnswered
  cases uploadOp? s.subCode with
  | none => exact iff_of_true (countErr_silent hblank hb) (by simp)
  | some op =>
    simp only [some.injEq, exists_eq_left']
    exact (uploadCase_settles b s m op).silent_iff ⟨hblank.1, hblank.2.1, hblank.2.2.1⟩ hb

theorem ctrl_once_iff (hblank : s.account.Blank) (hb : m.isBroadcastInfo = false) :
    (s.mbSlaveCtrlManage b m).account.Once ↔ ¬ s.AnsweredWrongly b m .ctrlFunc := by
  unfold mbSlaveCtrlManage AnsweredWrongly
  cases ctrlOp? s.subCode with
  | none => exact iff_of_true (countErr_once hblank hb) (by simp)
  | some op =>
    simp only [some.injEq, exists_eq_left']
    by_cases hsearch : op = .searchSlave
    · subst hsearch
      refine iff_of_false ?_ (not_not.mpr (.inl rfl))
      rintro ⟨-, h⟩
      simp [ctrlCase, hblank.2.1, hblank.2.2.1] at h
    by_cases htwice : s.AnswersTwice b m op
    · refine iff_of_false ?_ (not_not.mpr (.inr (.inl htwice)))
      rw [ctrlCase_twice b s m htwice]
      rintro ⟨-, h⟩
      simp [Account.answer, Account.refuse] at h
    by_cases hendless : EchoEndless m op
    · refine iff_of_false ?_ (not_not.mpr (.inr (.inr hendless)))
      rw [ctrlCase_endless b s m hendless]
      exact fun h => absurd h.1 (by simp [Account.stick])
    · refine iff_of_true ((ctrlCase_settles b s m htwice hendless hsearch).once hblank hb) ?_
      simp [hsearch, htwice, hendless]

theorem ctrl_silent_iff (hblank : s.account.Blank) (hb : m.isBroadcastInfo = true) :
    (s.mbSlaveCtrlManage b m).account.Silent ↔ ¬ s.BroadcastAnswered b m .ctrlFunc := by
  unfold mbSlaveCtrlManage BroadcastAnswered
  cases ctrlOp? s.subCode with
  | none => exact iff_of_true (countErr_silent hblank hb) (by simp)
  | some op =>
    simp only [some.injEq, exists_eq_left']
    by_cases hsearch : op = .searchSlave
    · subst hsearch
      exact iff_of_true ⟨hblank.1, hblank.2.1, hblank.2.2.1⟩ (by simp)
    by_cases htwice : s.AnswersTwice b m op
    · refine iff_of_false ?_ (not_not.mpr ⟨hsearch, .inl htwice⟩)
      rw [ctrlCase_twice b s m htwice]
      exact fun h => by simpa [Account.answer] using h.2.1
    by_cases hendless : EchoEndless m op
    · refine iff_of_false ?_ (not_not.mpr ⟨hsearch, .inr (.inl hendless)⟩)
      rw [ctrlCase_endless b s m hendless]
      exact fun h => absurd h.1 (by simp [Account.stick])
    · rw [(ctrlCase_settles b s m htwice hendless hsearch).silent_iff
        ⟨hblank.1, hblank.2.1, hblank.2.2.1⟩ hb]
      simp [hsearch, htwice, hendless]

/-! ## Requests for Elements -/

theorem writeCoil_pass_iff (m : MsgPack) :
    (∃ x, s.writeCoilRequest = .ok x) ↔ s.LetsPass m .writeSingleCoil := by
  constructor
  · rintro ⟨⟨e, addr, x⟩, h⟩
    obtain ⟨hv, hat, -⟩ := writeCoilRequest_eq_ok_iff.mp h
    exact ⟨hv, e, addr, hat⟩
  · rintro ⟨hv, e, n, hat⟩
    exact ⟨_, writeCoilRequest_eq_ok_iff.mpr ⟨hv, hat, rfl⟩⟩

theorem writeRegister_pass_iff (m : MsgPack) :
    (∃ x, s.writeRegisterRequest = .ok x) ↔ s.LetsPass m .writeRegister := by
  constructor
  · rintro ⟨⟨r, addr⟩, h⟩
    exact ⟨r, addr, writeRegisterRequest_eq_ok_iff.mp h⟩
  · rintro ⟨r, n, hat⟩
    exact ⟨_, writeRegisterRequest_eq_ok_iff.mpr hat⟩

theorem writeCoils_pass_iff (m : MsgPack) :
    (∃ x, s.writeCoilsRequest = .ok x) ↔ s.LetsPass m .writeMultipleCoils := by
  constructor
  · rintro ⟨⟨e, addr, cnt⟩, h⟩
    obtain ⟨hbytes, h1, h2, -, hat, hn⟩ := writeCoilsRequest_eq_ok_iff.mp h
    exact ⟨hbytes, h1, h2, e, addr, hat, hn⟩
  · rintro ⟨hbytes, h1, h2, e, n, hat, hn⟩
    exact ⟨_, writeCoilsRequest_eq_ok_iff.mpr ⟨hbytes, h1, h2, rfl, hat, hn⟩⟩

theorem writeRegisters_pass_iff (m : MsgPack) :
    (∃ x, s.writeRegistersRequest = .ok x) ↔ s.LetsPass m .writeMultipleRegisters := by
  constructor
  · rintro ⟨⟨r, addr, cnt⟩, h⟩
    obtain ⟨h1, h2, hbytes, -, hat, hn⟩ := writeRegistersRequest_eq_ok_iff.mp h
    exact ⟨h1, h2, hbytes, r, addr, hat, hn⟩
  · rintro ⟨h1, h2, hbytes, r, n, hat, hn⟩
    exact ⟨_, writeRegistersRequest_eq_ok_iff.mpr ⟨h1, h2, hbytes, rfl, hat, hn⟩⟩

theorem function_once_iff (hblank : s.account.Blank) (hb : m.isBroadcastInfo = false)
    {f : MbFunction} (hf : f ≠ .diagDiagnostic) :
    (s.function b m (some f)).account.Once ↔ ¬ s.AnsweredWrongly b m f := by
  have hb' : ¬ m.isBroadcastInfo := by simp [hb]
  have hset {P : Prop} {t : Slave ω} (h : Settles m s.account t.account P) :
      t.account.Once ↔ ¬ False := iff_of_true (h.once hblank hb) id
  cases f
  case readCoilsStatus => exact hset (readBits_settles s m hb' _ _)
  case readDescreteInputStatus => exact hset (readBits_settles s m hb' _ _)
  case readHoldingRegister => exact hset (readHoldingRegister_settles s m hb')
  case writeSingleCoil => exact hset (writeSingleCoil_settles s m)
  case writeRegister => exact hset (writeRegister_settles s m)
  case diagDiagnostic => exact absurd rfl hf
  case writeMultipleCoils => exact hset (writeMultipleCoils_settles s m)
  case writeMultipleRegisters => exact hset (writeMultipleRegisters_settles s m)
  case readMultipleBitElement => exact hset (readMultipleBitElement_settles s m hb')
  case readMultipleWordElement => exact hset (readMultipleWordElement_settles s m hb')
  case writeMultipleBitElement => exact hset (writeMultipleBitElement_settles s m hb')
  case writeMultipleWordElement => exact hset (writeMultipleWordElement_settles s m hb')
  case downloadFunc => exact download_once_iff hblank hb
  case uploadFunc => exact iff_of_true (upload_once hblank hb) id
  case ctrlFunc => exact ctrl_once_iff hblank hb

theorem function_silent_iff (hblank : s.account.Blank) (hb : m.isBroadcastInfo = true)
    {f : MbFunction} (hf : f ≠ .diagDiagnostic) :
    (s.function b m (some f)).account.Silent ↔ ¬ s.BroadcastAnswered b m f := by
  have hbase : s.account.stuck = false ∧ s.account.normals = 0 ∧ s.account.exceptions = 0 :=
    ⟨hblank.1, hblank.2.1, hblank.2.2.1⟩
  have hquiet {t : Slave ω} (h : t = s) : t.account.Silent ↔ ¬ False :=
    iff_of_true (by rw [h]; exact hbase) id
  cases f
  case readCoilsStatus => exact hquiet (if_pos hb)
  case readDescreteInputStatus => exact hquiet (if_pos hb)
  case readHoldingRegister => exact hquiet (if_pos hb)
  case writeSingleCoil =>
    exact ((writeSingleCoil_settles s m).silent_iff hbase hb).trans (not_congr (writeCoil_pass_iff m))
  case writeRegister =>
    exact ((writeRegister_settles s m).silent_iff hbase hb).trans
      (not_congr (writeRegister_pass_iff m))
  case diagDiagnostic => exact absurd rfl hf
  case writeMultipleCoils =>
    exact ((writeMultipleCoils_settles s m).silent_iff hbase hb).trans
      (not_congr (writeCoils_pass_iff m))
  case writeMultipleRegisters =>
    exact ((writeMultipleRegisters_settles s m).silent_iff hbase hb).trans
      (not_congr (writeRegisters_pass_iff m))
  case readMultipleBitElement => exact hquiet (if_pos hb)
  case readMultipleWordElement => exact hquiet (if_pos hb)
  case writeMultipleBitElement => exact hquiet (if_pos hb)
  case writeMultipleWordElement => exact hquiet (if_pos hb)
  case downloadFunc => exact download_silent_iff hblank hb
  case uploadFunc => exact upload_silent_iff hblank hb
  case ctrlFunc => exact ctrl_silent_iff hblank hb

/-! ## Diagnostics -/

/-- The low byte of the code of a diagnostic request. -/
theorem receiveBuff_three (s : Slave ω) : s.receiveBuff 3 = loByte s.diagReqCode :=
  BitVec.extractLsb'_append_eq_right.symm

/-- The frame that turns the listen-only mode on is not answered. -/
theorem diagnostic_quiet (hblank : s.account.Blank) (h : s.receiveBuff 3 = 0x04) :
    (s.mbSlaveDiagnosticFunc m).account.Silent := by
  have hbase : s.account.Silent := ⟨hblank.1, hblank.2.1, hblank.2.2.1⟩
  unfold mbSlaveDiagnosticFunc
  rw [diagCode?_eq_force.mpr h]
  split <;> exact hbase

theorem diagnostic_once (hblank : s.account.Blank) (hb : m.isBroadcastInfo = false)
    (hlisten : s.listenOnly m = false) (h : s.receiveBuff 3 ≠ 0x04) :
    (s.mbSlaveDiagnosticFunc m).account.Once := by
  obtain ⟨d, hsettles⟩ := diagnosticCase_settles (mt diagCode?_eq_force.mp h) hlisten
  rw [mbSlaveDiagnosticFunc, if_neg (fun h => by simp [DropsCode, hb] at h)]
  exact hsettles.once hblank hb

theorem diagnostic_silent_iff (hblank : s.account.Blank) (hb : m.isBroadcastInfo = true)
    (hlisten : s.listenOnly m = false) (hquery : s.diagReqCode ≠ 0x00AA) :
    (s.mbSlaveDiagnosticFunc m).account.Silent ↔ ¬ s.BroadcastAnswered b m .diagDiagnostic := by
  have hbase : s.account.Silent := ⟨hblank.1, hblank.2.1, hblank.2.2.1⟩
  unfold BroadcastAnswered
  by_cases hcode : s.diagReqCode ∈ broadcastCodes
  · have hcode' := hcode
    simp only [broadcastCodes, mem_cons, not_mem_nil, or_false] at hcode
    rcases hcode with h | h | h | h
    · have hbyte : diagCode? (s.receiveBuff 3) = some .restartCommunication := by
        rw [receiveBuff_three, h]
        decide
      obtain ⟨d, hsettles⟩ := diagnosticCase_settles (m := m)
        (c := some .restartCommunication) (by simp) hlisten
      rw [mbSlaveDiagnosticFunc, if_neg (fun h => h.2 hcode'), hbyte, hsettles.silent_iff hbase hb, h]
      simp [DiagAccepted]
    · have hbyte : s.receiveBuff 3 = 0x04 := by
        rw [receiveBuff_three, h]
        decide
      exact iff_of_true (diagnostic_quiet hblank hbyte) (by simp [h])
    · have hbyte : diagCode? (s.receiveBuff 3) = some .clearCtrlDiagReg := by
        rw [receiveBuff_three, h]
        decide
      obtain ⟨d, hsettles⟩ := diagnosticCase_settles (m := m)
        (c := some .clearCtrlDiagReg) (by simp) hlisten
      rw [mbSlaveDiagnosticFunc, if_neg (fun h => h.2 hcode'), hbyte, hsettles.silent_iff hbase hb, h]
      simp [DiagAccepted]
    · exact absurd h hquery
  · rw [mbSlaveDiagnosticFunc, if_pos ⟨hb, hcode⟩]
    refine iff_of_true hbase ?_
    rintro (h | ⟨h, -⟩)
    · exact hcode (by rw [h]; decide)
    · exact hcode (by rw [h]; decide)

theorem diagnostic_stuck (hlisten : s.listenOnly m = false) :
    (s.mbSlaveDiagnosticFunc m).stuck = s.stuck := by
  unfold mbSlaveDiagnosticFunc
  split
  · rfl
  · by_cases hc : diagCode? (s.receiveBuff 3) = some .forceListenOnlyMode
    · rw [hc]
      rfl
    · obtain ⟨d, hsettles⟩ := diagnosticCase_settles hc hlisten
      exact hsettles.stuck

/-! ## The Handler -/

theorem mbFunction?_eq_diag {x : Byte} : mbFunction? x = some .diagDiagnostic ↔ x = 0x08 := by
  revert x
  decide

/-- A frame outside the listen-only mode is answered as it should be if it is not one of those
listed. -/
theorem answeredOnce_iff (b : Board ω) (s : Slave ω) (m : MsgPack) (hlen : 5 ≤ m.len)
    (hcrc : s.CrcOk m) (hlisten : s.listenOnly m = false) :
    s.AnsweredOnce b m ↔ ¬ s.Misanswered b m := by
  have hblank : s.fresh.account.Blank := ⟨rfl, rfl, rfl, rfl⟩
  have hfilter : ¬ s.Filtered m := fun h => absurd h.1 (by simp [hlisten])
  rw [answeredOnce_iff_account, handle_passed (Nat.not_lt.mpr hlen) hcrc hfilter, Misanswered]
  cases hf : mbFunction? s.functionCode with
  | none =>
    have hcode : s.functionCode ≠ 0x08 := fun h => by simp [mbFunction?_eq_diag.mpr h] at hf
    refine iff_of_true ⟨?_, fun hb _ => countErr_once hblank hb, fun h => absurd h.1 hcode,
      fun hb _ => countErr_silent hblank hb⟩ (by simp)
    cases hb : m.isBroadcastInfo with
    | false => exact (countErr_once hblank hb).1
    | true => exact (countErr_silent hblank hb).1
  | some f =>
    simp only [some.injEq, exists_eq_left']
    by_cases hdiag : f = .diagDiagnostic
    · subst hdiag
      have hcode : s.functionCode = 0x08 := mbFunction?_eq_diag.mp hf
      have hstuck : (s.fresh.mbSlaveDiagnosticFunc m).stuck = false :=
        diagnostic_stuck (s := s.fresh) hlisten
      have hquiet (h : s.EntersListenOnly) := diagnostic_quiet (m := m) hblank h.2
      cases hb : m.isBroadcastInfo with
      | false =>
        refine iff_of_true ⟨hstuck, fun _ hnot => ?_, hquiet, fun h => by simp at h⟩ id
        exact diagnostic_once hblank hb hlisten fun h => hnot ⟨hcode, h⟩
      | true =>
        simp only [if_true]
        by_cases hquery : s.diagReqCode = 0x00AA
        · refine iff_of_true ⟨hstuck, fun h => by simp at h, hquiet, fun _ h => ?_⟩ ?_
          · exact absurd ⟨hcode, hquery⟩ h
          · rintro (h | ⟨h, -⟩)
            · exact absurd (hquery.symm.trans h) (by decide)
            · exact absurd (hquery.symm.trans h) (by decide)
        · rw [← diagnostic_silent_iff (s := s.fresh) hblank hb hlisten hquery]
          exact ⟨fun h => h.2.2.2 trivial fun h => hquery h.2,
            fun h => ⟨hstuck, fun h => by simp at h, hquiet, fun _ _ => h⟩⟩
    · have hcode : s.functionCode ≠ 0x08 := fun h => by
        rw [mbFunction?_eq_diag.mpr h] at hf
        exact hdiag (some.inj hf).symm
      cases hb : m.isBroadcastInfo with
      | false =>
        simp only [Bool.false_eq_true, if_false]
        rw [← function_once_iff (b := b) hblank hb hdiag]
        exact ⟨fun h => h.2.1 trivial fun h => hcode h.1,
          fun h => ⟨h.1, fun _ _ => h, fun h => absurd h.1 hcode, fun h => by simp at h⟩⟩
      | true =>
        simp only [if_true]
        rw [← function_silent_iff (b := b) hblank hb hdiag]
        exact ⟨fun h => h.2.2.2 trivial fun h => hcode h.1,
          fun h => ⟨h.1, fun h => by simp at h, fun h => absurd h.1 hcode, fun _ _ => h⟩⟩

/-- The request to read the coil `Y0` is answered once. -/
theorem answeredOnce_y0 :
    (idle [1, 1, 0, 0, 0, 1, 0xFD, 0xCA]).AnsweredOnce idleBoard (comMsg 8) := by
  refine (answeredOnce_iff _ _ _ (by decide) (by decide) (by decide)).mpr ?_
  rintro ⟨f, hf, hwrong⟩
  have hread : mbFunction? (idle [1, 1, 0, 0, 0, 1, 0xFD, 0xCA]).functionCode =
      some .readCoilsStatus := by decide
  cases hread.symm.trans hf
  exact hwrong

/-- The request to force a bit whose address is not mapped is answered twice. -/
theorem force_answered_twice : ¬ ∀ (s : Slave Unit) (m : MsgPack), 5 ≤ m.len → s.CrcOk m →
    s.listenOnly m = false → s.AnsweredOnce idleBoard m := by
  intro h
  have honce := h (idle [1, 0x6A, 5, 1, 0xFF, 0xFF, 1, 0x7F, 0x36]) (comMsg 9) (by decide)
    (by decide) (by decide)
  have hsent : ((idle [1, 0x6A, 5, 1, 0xFF, 0xFF, 1, 0x7F, 0x36]).handle idleBoard
      (comMsg 9)).sent.length = 2 := by decide
  rcases honce.once rfl (fun h => absurd h.1 (by decide)) with ⟨⟨frame, hf⟩, -⟩ | ⟨⟨frame, hf⟩, -⟩
  · rw [hf] at hsent
    cases hsent
  · rw [hf] at hsent
    cases hsent

end Slave

end Kalyke
