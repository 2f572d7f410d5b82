-- SUMMARY: What each function answers, counted: the responses sent, the error code, the modes.
import Kalyke.Modbus.ElementRange

/-!
# Accounts

Of a state only this is kept here: how many responses of each kind were sent, whether an error code
is set, whether the slave is stuck, and the information on the ports. What a function does to it is
an equation in the account before.
-/

namespace Kalyke

open List
open Function (update update_self)

/-- The responses sent, counted, and what else the handler decides by itself. -/
@[ext] structure Account where
  normals : Nat
  exceptions : Nat
  refused : Bool
  stuck : Bool
  diag : Sender → DiagInfo

namespace Account

/-- A response was sent. -/
def answer (a : Account) : Account := { a with normals := a.normals + 1 }

/-- An error code was set, and an exception response sent unless the frame is a broadcast. -/
def refuse (a : Account) (m : MsgPack) : Account :=
  { a with
    exceptions := a.exceptions + if m.isBroadcastInfo then 0 else 1
    refused := true }

def countErr (a : Account) (m : MsgPack) : Account :=
  let info := a.diag m.sender
  { a with
    diag := update a.diag m.sender { info with slaveErrCnt := info.slaveErrCnt + 1 } }

/-- The slave got stuck. -/
def stick (a : Account) : Account := { a with stuck := true }

/-- A request is answered if it is accepted, and else refused. -/
def Settles (m : MsgPack) (a a' : Account) (accepted : Prop) : Prop :=
  accepted ∧ a' = a.answer ∨ ¬ accepted ∧ a' = a.refuse m

variable {m : MsgPack} {a a' : Account} {P Q : Prop}

theorem Settles.diag (h : Settles m a a' P) : a'.diag = a.diag := by
  rcases h with ⟨-, rfl⟩ | ⟨-, rfl⟩ <;> rfl

theorem Settles.congr (h : Settles m a a' P) (hPQ : P ↔ Q) : Settles m a a' Q := by
  rwa [← hPQ]

theorem settles_refuse (hP : ¬ P) : Settles m a (a.refuse m) P := .inr ⟨hP, rfl⟩

end Account

open Account (Settles settles_refuse)

/-- A normal response. -/
def Resp.isNormal : Resp → Bool
  | normal _ => true
  | exception _ => false

variable {ω : Type}

namespace Slave

/-- The account of a state. -/
def account (s : Slave ω) : Account where
  normals := s.sent.countP Resp.isNormal
  exceptions := s.sent.countP fun r => !r.isNormal
  refused := s.errorCode.isSome
  stuck := s.stuck
  diag := s.diag

variable (b : Board ω) (s : Slave ω) (m : MsgPack)

/-! ## Senders and Loops -/

@[simp] theorem account_mbSlaveErrorResp (e : MbError) :
    (s.mbSlaveErrorResp m e).account = s.account.refuse m := by
  unfold mbSlaveErrorResp
  cases hb : m.isBroadcastInfo <;>
    simp [account, Account.refuse, MsgPack.callRespFuncs_eq, Resp.isNormal, hb]

@[simp] theorem account_mbSlaveVerifyRespMsg (n : BitVec 16) :
    (s.mbSlaveVerifyRespMsg m n).account = s.account.answer := by
  simp [mbSlaveVerifyRespMsg, account, Account.answer, MsgPack.callRespFuncs_eq, Resp.isNormal]

@[simp] theorem account_respond (n : Nat) (data : List Byte) :
    (s.respond m n data).account = s.account.answer :=
  account_mbSlaveVerifyRespMsg _ m _

@[simp] theorem account_countSlaveErr : (s.countSlaveErr m).account = s.account.countErr m := rfl

@[simp] theorem account_act (a : Act) : (s.act b a).account = s.account := rfl

@[simp] theorem account_acts (as : List Act) : (s.acts b as).account = s.account := by
  induction as generalizing s with
  | nil => rfl
  | cons a as ih => exact ih (s.act b a)

/-- What no entry of a list changes is as it was when the loop ends. -/
theorem entryLoop_keeps {α : Type*} (view : Slave ω → α) {step : Nat → Slave ω → EntryResult ω}
    (hstep : ∀ i s, view (step i s).1 = view s) (is : List Nat) (skip : Bool) (s : Slave ω) :
    view (entryLoop step is skip s).1 = view s := by
  induction is generalizing skip s with
  | nil => rfl
  | cons i is ih =>
    cases skip with
    | true => exact ih false s
    | false =>
      have hi := hstep i s
      rw [entryLoop]
      generalize step i s = x at hi
      obtain ⟨t, e | skip⟩ := x
      · exact hi
      · exact (ih skip t).trans hi

/-- What follows a loop: an exception response where it ended with an error. -/
theorem finishList_settles {respond : Slave ω → Slave ω} (r : LoopResult ω) {a : Account}
    (hr : r.1.account = a) (h : ∀ t, (respond t).account = t.account.answer) :
    Settles m a (finishList m respond r).account (r.2 = none) := by
  obtain ⟨t, _ | e⟩ := r
  · exact .inl ⟨rfl, (h t).trans (congrArg _ hr)⟩
  · exact .inr ⟨by simp, (account_mbSlaveErrorResp t m e).trans (congrArg (Account.refuse · m) hr)⟩

/-- A request that is checked first: an error is answered with an exception response. -/
theorem request_settles {α : Type} {x : Except MbError α} {t : Slave ω}
    (herr : ∀ e, x = .error e → t = s.mbSlaveErrorResp m e)
    (hok : ∀ y, x = .ok y → t.account = s.account.answer) :
    Settles m s.account t.account (∃ y, x = .ok y) := by
  cases x with
  | error e => exact .inr ⟨by simp, by rw [herr e rfl, account_mbSlaveErrorResp]⟩
  | ok y => exact .inl ⟨⟨y, rfl⟩, hok y rfl⟩

/-! ## Functions on Elements -/

theorem readBits_settles (hb : ¬ m.isBroadcastInfo) (base : BitElement → BitElement)
    (shift : Bool) :
    Settles m s.account (s.readBits m base shift).account
      (∃ x, s.readBitsRequest m base = .ok x) := by
  rw [readBits, if_neg hb]
  refine request_settles s m (fun e h => by rw [h]) fun x h => ?_
  rw [h]
  exact account_respond _ m _ _

theorem readHoldingRegister_settles (hb : ¬ m.isBroadcastInfo) :
    Settles m s.account (s.mbSlaveReadHoldingRegister m).account
      (∃ x, s.readRegistersRequest m = .ok x) := by
  rw [mbSlaveReadHoldingRegister, if_neg hb]
  refine request_settles s m (fun e h => by rw [h]) fun x h => ?_
  rw [h]
  exact account_respond _ m _ _

theorem writeSingleCoil_settles :
    Settles m s.account (s.mbSlaveWriteSingleCoil m).account
      (∃ x, s.writeCoilRequest = .ok x) := by
  unfold mbSlaveWriteSingleCoil
  refine request_settles s m (fun e h => by rw [h]) fun x h => ?_
  rw [h]
  exact account_respond _ m _ _

theorem writeRegister_settles :
    Settles m s.account (s.mbSlaveWriteRegister m).account
      (∃ x, s.writeRegisterRequest = .ok x) := by
  unfold mbSlaveWriteRegister
  refine request_settles s m (fun e h => by rw [h]) fun x h => ?_
  obtain ⟨r, addr⟩ := x
  rw [h]
  refine (account_respond _ m _ _).trans ?_
  cases r <;> rfl

theorem writeMultipleCoils_settles :
    Settles m s.account (s.mbSlaveWriteMultipleCoils m).account
      (∃ x, s.writeCoilsRequest = .ok x) := by
  unfold mbSlaveWriteMultipleCoils
  refine request_settles s m (fun e h => by rw [h]) fun x h => ?_
  rw [h]
  simp only [setCoils_eq]
  exact account_respond _ m _ _

theorem writeMultipleRegisters_settles :
    Settles m s.account (s.mbSlaveWriteMultipleRegisters m).account
      (∃ x, s.writeRegistersRequest = .ok x) := by
  unfold mbSlaveWriteMultipleRegisters
  refine request_settles s m (fun e h => by rw [h]) fun x h => ?_
  rw [h]
  simp only [setRegisters_eq]
  exact account_respond _ m _ _

theorem account_readBitEntry (i : Nat) (s : Slave ω) :
    (readBitEntry i s).1.account = s.account := by
  rcases readBitEntry_cases i s with ⟨-, h⟩ | ⟨e, n, -, h⟩ <;>
    exact congrArg (fun r => (Prod.fst r).account) h

theorem account_readWordEntry (i : Nat) (s : Slave ω) :
    (readWordEntry i s).1.account = s.account := by
  rcases readWordEntry_cases i s with ⟨-, h⟩ | ⟨e, n, -, h⟩ | ⟨n, -, h⟩ <;>
    exact congrArg (fun r => (Prod.fst r).account) h

theorem account_writeBitEntry (i : Nat) (s : Slave ω) :
    (writeBitEntry i s).1.account = s.account := by
  rcases writeBitEntry_cases i s with ⟨-, h⟩ | ⟨e, n, -, h⟩ <;>
    exact congrArg (fun r => (Prod.fst r).account) h

theorem account_writeWordEntry (i : Nat) (s : Slave ω) :
    (writeWordEntry i s).1.account = s.account := by
  rcases writeWordEntry_cases i s with ⟨-, h⟩ | ⟨e, n, -, h⟩ | ⟨n, -, h⟩ <;>
    exact congrArg (fun r => (Prod.fst r).account) h

theorem list_settles {step : Nat → Slave ω → EntryResult ω} {respond : Slave ω → Slave ω}
    (hb : ¬ m.isBroadcastInfo) (hstep : ∀ i s, (step i s).1.account = s.account)
    (hrespond : ∀ t, (respond t).account = t.account.answer) (limit : Nat) :
    Settles m s.account
      (if m.isBroadcastInfo then s
      else if limit < s.listCnt then s.mbSlaveErrorResp m .iliegalData
      else finishList m respond (entryLoop step (range s.listCnt) false s)).account
      (s.listCnt ≤ limit ∧ (entryLoop step (range s.listCnt) false s).2 = none) := by
  rw [if_neg hb]
  by_cases hcnt : limit < s.listCnt
  · rw [if_pos hcnt, account_mbSlaveErrorResp]
    exact settles_refuse fun h => absurd h.1 (Nat.not_le.mpr hcnt)
  · rw [if_neg hcnt]
    exact (finishList_settles m _ (entryLoop_keeps account hstep _ _ s) hrespond).congr
      (and_iff_right (Nat.not_lt.mp hcnt)).symm

theorem readMultipleBitElement_settles (hb : ¬ m.isBroadcastInfo) :
    Settles m s.account (s.mbSlaveReadMultipleBitElement m).account
      (s.listCnt ≤ 0x50 ∧ (entryLoop readBitEntry (range s.listCnt) false s).2 = none) :=
  list_settles s m hb account_readBitEntry
    (fun t => account_mbSlaveVerifyRespMsg (t.copyRequest 3) m _) 0x50

theorem readMultipleWordElement_settles (hb : ¬ m.isBroadcastInfo) :
    Settles m s.account (s.mbSlaveReadMultipleWordElement m).account
      (s.listCnt ≤ 0x3C ∧ (entryLoop readWordEntry (range s.listCnt) false s).2 = none) :=
  list_settles s m hb account_readWordEntry
    (fun t => account_mbSlaveVerifyRespMsg (t.copyRequest 3) m _) 0x3C

theorem writeMultipleBitElement_settles (hb : ¬ m.isBroadcastInfo) :
    Settles m s.account (s.mbSlaveWriteMultipleBitElement m).account
      (s.listCnt ≤ 0x50 ∧ (entryLoop writeBitEntry (range s.listCnt) false s).2 = none) :=
  list_settles s m hb account_writeBitEntry (fun t => account_respond t m 2 []) 0x50

theorem writeMultipleWordElement_settles (hb : ¬ m.isBroadcastInfo) :
    Settles m s.account (s.mbSlaveWriteMultipleWordElement m).account
      (s.listCnt ≤ 0x3C ∧ (entryLoop writeWordEntry (range s.listCnt) false s).2 = none) :=
  list_settles s m hb account_writeWordEntry (fun t => account_respond t m 2 []) 0x3C

/-! ## Downloads -/

def Mapped (kind : AddrKind) (a : BitVec 16) : Prop :=
  mbSlaveConvertElementInfo kind a.toNat ≠ none

/-- A password's check comes out well. -/
def Unlocked (p : Password) : Prop := (b.passwordCheckResult p s.world).1 = true

/-- The addresses of a list to monitor are mapped, where the frame is one that sets the list. -/
def MonitorMapped : Monitor → Prop
  | .bits => ∀ i < (s.receiveBuff 6).toNat, Mapped .bit (s.receiveBuff.bigPU16 (7 + 2 * i))
  | .words => ∀ i < (s.receiveBuff 6).toNat, Mapped .word (s.receiveBuff.bigPU16 (7 + 2 * i))
  | .bitsWords =>
    (∀ i < (s.receiveBuff 4).toNat, Mapped .bit (s.receiveBuff.bigPU16 (8 + 2 * i))) ∧
      ∀ i < (s.receiveBuff 5).toNat,
        Mapped .word (s.receiveBuff.bigPU16 (8 + 2 * (s.receiveBuff 4).toNat + 2 * i))

/-- A frame of a file is taken, and a program that is then complete can be compiled. -/
def Acknowledged (f : DlFile) : Prop :=
  let (t, s) := s.openFile b f
  match t.receive s.frameNum (s.frameData m) with
  | .refused => False
  | .again => True
  | .done t => ¬ (s.store.isOnlineProgram ∧ t.complete ∧ f = .ucode ∧
      (b.compilerUcode t.fileHandler (s.store, s.world)).1 = false)

/-- Where no entry skips the next, a loop ends without an error if every entry is carried out. -/
theorem entryLoop_eq_none_iff {step : Nat → Slave ω → EntryResult ω} {I : Slave ω → Prop}
    {P : Nat → Prop}
    (hstep : ∀ i s, I s → I (step i s).1 ∧
      (P i ∧ (step i s).2 = .ok false ∨ ¬ P i ∧ ∃ e, (step i s).2 = .error e))
    (is : List Nat) {s : Slave ω} (hs : I s) :
    (entryLoop step is false s).2 = none ↔ ∀ i ∈ is, P i := by
  induction is generalizing s with
  | nil => simp [entryLoop]
  | cons i is ih =>
    obtain ⟨hI, ⟨hP, hok⟩ | ⟨hP, e, herr⟩⟩ := hstep i s hs
    · rw [entryLoop, ← Prod.eta (step i s), hok]
      simp only [ih hI, forall_mem_cons, hP, true_and]
    · rw [entryLoop, ← Prod.eta (step i s), herr]
      simp [hP]

theorem monitorEntry_step (k : Monitor) (kind : AddrKind) (start : Nat) (buff : Buff) (i : Nat)
    (s : Slave ω) (hs : s.receiveBuff = buff) :
    (monitorEntry k kind start i s).1.receiveBuff = buff ∧
      (Mapped kind (buff.bigPU16 (start + 2 * i)) ∧
          (monitorEntry k kind start i s).2 = .ok false ∨
        ¬ Mapped kind (buff.bigPU16 (start + 2 * i)) ∧
          ∃ e, (monitorEntry k kind start i s).2 = .error e) := by
  subst hs
  simp only [monitorEntry, Mapped]
  cases mbSlaveConvertElementInfo kind (s.receiveBuff.bigPU16 (start + 2 * i)).toNat with
  | none => exact ⟨rfl, .inr ⟨by simp, _, rfl⟩⟩
  | some x => exact ⟨rfl, .inl ⟨by simp, rfl⟩⟩

theorem account_monitorEntry (k : Monitor) (kind : AddrKind) (start i : Nat) (s : Slave ω) :
    (monitorEntry k kind start i s).1.account = s.account := by
  simp only [monitorEntry]
  split <;> rfl

theorem monitorEntries_spec (k : Monitor) (kind : AddrKind) (start cnt : Nat) (s : Slave ω) :
    (monitorEntries k kind start cnt s).1.account = s.account ∧
      (monitorEntries k kind start cnt s).1.receiveBuff = s.receiveBuff ∧
      ((monitorEntries k kind start cnt s).2 = none ↔
        ∀ i < cnt, Mapped kind (s.receiveBuff.bigPU16 (start + 2 * i))) := by
  refine ⟨entryLoop_keeps account (account_monitorEntry k kind start) _ _ s, ?_, ?_⟩
  · exact entryLoop_keeps (fun s => s.receiveBuff)
      (fun i s => (monitorEntry_step k kind start _ i s rfl).1) _ _ s
  · rw [monitorEntries, entryLoop_eq_none_iff (monitorEntry_step k kind start s.receiveBuff) _ rfl]
    simp only [mem_range]

theorem downloadMonitor_settles (k : Monitor) :
    Settles m s.account (s.downloadMonitor m k).account
      (s.frameNum = 0x01 ∨ s.frameNum = 0xFE → s.MonitorMapped k) := by
  unfold downloadMonitor
  by_cases hnum : s.frameNum = 0x01 ∨ s.frameNum = 0xFE
  · simp only [hnum, if_true, true_implies]
    cases k with
    | bits =>
      obtain ⟨hacc, -, hnone⟩ := monitorEntries_spec .bits .bit 7 (s.receiveBuff 6).toNat
        (s.setMonitor .bits [])
      exact (finishList_settles m _ hacc fun t => account_respond t m _ _).congr hnone
    | words =>
      obtain ⟨hacc, -, hnone⟩ := monitorEntries_spec .words .word 7 (s.receiveBuff 6).toNat
        (s.setMonitor .words [])
      exact (finishList_settles m _ hacc fun t => account_respond t m _ _).congr hnone
    | bitsWords =>
      obtain ⟨hacc, hrecv, hnone⟩ := monitorEntries_spec .bitsWords .bit 8 (s.receiveBuff 4).toNat
        (s.setMonitor .bitsWords [])
      generalize monitorEntries .bitsWords .bit 8 (s.receiveBuff 4).toNat
        (s.setMonitor .bitsWords []) = r at hacc hrecv hnone
      obtain ⟨t, _ | e⟩ := r
      · obtain ⟨hacc', -, hnone'⟩ := monitorEntries_spec .bitsWords .word
          (8 + 2 * (s.receiveBuff 4).toNat) (s.receiveBuff 5).toNat t
        rw [hrecv] at hnone'
        have hbits : ∀ i < (s.receiveBuff 4).toNat,
            Mapped .bit (s.receiveBuff.bigPU16 (8 + 2 * i)) := hnone.mp rfl
        exact (finishList_settles m _ (hacc'.trans hacc) fun t => account_respond t m _ _).congr
          (hnone'.trans (and_iff_right hbits).symm)
      · have hbits := mt hnone.mpr (by simp)
        refine .inr ⟨fun h => hbits h.1, ?_⟩
        exact (account_mbSlaveErrorResp t m e).trans (congrArg (Account.refuse · m) hacc)
  · simp only [hnum, if_false, false_implies]
    exact .inl ⟨trivial, account_respond s m _ _⟩

theorem account_openFile (f : DlFile) : (s.openFile b f).2.account = s.account := by
  unfold openFile
  dsimp only
  split
  · rfl
  · simp only [setFile]
    split_ifs <;> rfl

theorem onlineProgram_spec (f : DlFile) (t : FileTrans) :
    (s.onlineProgram b f t).2.account = s.account ∧
      ((s.onlineProgram b f t).1 = true ↔ ¬ (s.store.isOnlineProgram ∧ t.complete ∧ f = .ucode ∧
        (b.compilerUcode t.fileHandler (s.store, s.world)).1 = false)) := by
  unfold onlineProgram
  by_cases h : s.store.isOnlineProgram ∧ t.complete
  · rw [if_pos h]
    obtain ⟨honline, hcomplete⟩ := h
    cases f
    case ucode =>
      dsimp only
      split
      case isTrue hok => exact ⟨rfl, by simp [hok]⟩
      case isFalse hok => exact ⟨rfl, by simp [hok, honline, hcomplete]⟩
    all_goals exact ⟨rfl, by simp⟩
  · rw [if_neg h]
    exact ⟨rfl, iff_of_true rfl fun h' => h ⟨h'.1, h'.2.1⟩⟩

theorem mbSlaveDownloadFile_spec (f : DlFile) :
    (s.mbSlaveDownloadFile b m f).2.account = s.account ∧
      ((s.mbSlaveDownloadFile b m f).1 = true ↔ s.Acknowledged b m f) := by
  have hopen := account_openFile b s f
  unfold mbSlaveDownloadFile Acknowledged
  generalize s.openFile b f = x at hopen
  obtain ⟨t, s'⟩ := x
  dsimp only at hopen ⊢
  cases t.receive s'.frameNum (s'.frameData m) with
  | refused => exact ⟨hopen, by simp⟩
  | again => exact ⟨hopen, by simp⟩
  | done t' =>
    obtain ⟨hacc, hok⟩ := onlineProgram_spec b (s'.setFile f (some t')) f t'
    exact ⟨hacc.trans hopen, hok⟩

theorem downloadFrame_settles (f : DlFile) :
    Settles m s.account (s.downloadFrame b m f).account (s.Acknowledged b m f) := by
  obtain ⟨hacc, hok⟩ := mbSlaveDownloadFile_spec b s m f
  unfold downloadFrame
  generalize s.mbSlaveDownloadFile b m f = x at hacc hok
  obtain ⟨_ | _, t⟩ := x
  · refine .inr ⟨mt hok.mpr (by simp), ?_⟩
    exact (account_mbSlaveErrorResp t m _).trans (congrArg (Account.refuse · m) hacc)
  · refine .inl ⟨hok.mp rfl, ?_⟩
    exact (account_respond t m _ _).trans (congrArg Account.answer hacc)

/-- A function behind a password: a wrong one is answered with an exception response. -/
theorem passwordChecked_settles (p : Password) {f : Slave ω → Slave ω} {P : Prop}
    (h : Settles m s.account (f (s.passwordChecked b p).2).account P) :
    Settles m s.account
      (match s.passwordChecked b p with
        | (true, s) => f s
        | (false, s) => s.mbSlaveErrorResp m .passwordCheckFail).account
      (s.Unlocked b p ∧ P) := by
  have hunlocked : s.Unlocked b p ↔ (s.passwordChecked b p).1 = true := Iff.rfl
  have hacc : (s.passwordChecked b p).2.account = s.account := rfl
  rw [hunlocked]
  generalize s.passwordChecked b p = x at hacc h
  obtain ⟨_ | _, t⟩ := x
  · refine .inr ⟨by simp, ?_⟩
    exact (account_mbSlaveErrorResp t m _).trans (congrArg (Account.refuse · m) hacc)
  · exact h.congr (and_iff_right rfl).symm

/-- The downloads that are answered, if they are not broadcast. -/
def DownloadAccepted : DownloadOp → Prop
  | .monitor k => s.Unlocked b .monitor ∧
      (s.frameNum = 0x01 ∨ s.frameNum = 0xFE → s.MonitorMapped k)
  | .file f => s.Unlocked b .download ∧ (s.passwordChecked b .download).2.Acknowledged b m f
  | .upgrade f => s.store.isOnlineProgram = false ∧
      (s.act b .suspendTaskWhenDownloadUcode).Acknowledged b m f
  | .slave => False

/-- A download of the firmware of another device while the program is not changed online. -/
def SlaveUpgrade (op : DownloadOp) : Prop := op = .slave ∧ s.store.isOnlineProgram = false

theorem downloadCase_settles {op : DownloadOp} (h : ¬ s.SlaveUpgrade op) :
    Settles m s.account (s.downloadCase b m (some op)).account (s.DownloadAccepted b m op) := by
  cases op with
  | monitor k =>
    exact passwordChecked_settles b s m .monitor
      (downloadMonitor_settles (s.passwordChecked b .monitor).2 m k)
  | file f =>
    exact passwordChecked_settles b s m .download
      (downloadFrame_settles b (s.passwordChecked b .download).2 m f)
  | upgrade f =>
    unfold downloadCase DownloadAccepted
    cases honline : s.store.isOnlineProgram with
    | true => exact .inr ⟨by simp, account_mbSlaveErrorResp s m _⟩
    | false =>
      exact (downloadFrame_settles b (s.act b .suspendTaskWhenDownloadUcode) m f).congr (by simp)
  | slave =>
    have honline : s.store.isOnlineProgram = true := by simpa [SlaveUpgrade] using h
    simp only [downloadCase, honline]
    exact .inr ⟨id, account_mbSlaveErrorResp s m _⟩

theorem downloadCase_slave {op : DownloadOp} (h : s.SlaveUpgrade op) :
    (s.downloadCase b m (some op)).account = s.account.stick := by
  obtain ⟨rfl, honline⟩ := h
  simp only [downloadCase, honline]
  rfl

/-! ## Uploads -/

theorem account_uploadMonitor (k : Monitor) : (s.uploadMonitor m k).account = s.account.answer := by
  cases k
  case bits =>
    simp only [uploadMonitor, mbSlaveUploadMonitorBits]
    split <;> exact account_mbSlaveVerifyRespMsg _ m _
  case words =>
    simp only [uploadMonitor, mbSlaveUploadMonitorWords]
    split <;> exact account_mbSlaveVerifyRespMsg _ m _
  case bitsWords =>
    simp only [uploadMonitor, mbSlaveUploadMonitorBitsWords]
    split <;> exact account_mbSlaveVerifyRespMsg _ m _

/-- The first frame of a data block that does not exist. -/
def BlockAbsent : Prop :=
  s.frameNum = 1 ∧
    WordElement.rang .D < (s.receiveBuff.bigPU16 6).toNat + (s.receiveBuff.bigPU16 4).toNat

theorem uploadGenDataBlock_settles :
    Settles m s.account (s.mbSlaveUploadGenDataBlockFromRam m).account (¬ s.BlockAbsent) := by
  unfold mbSlaveUploadGenDataBlockFromRam BlockAbsent
  dsimp only
  split_ifs with hnum hrang hcnt hcnt
  · exact .inr ⟨not_not.mpr ⟨hnum, hrang⟩, account_mbSlaveErrorResp s m _⟩
  · exact .inl ⟨fun h => hrang h.2, account_respond s m _ _⟩
  · exact .inl ⟨fun h => hrang h.2, account_respond s m _ _⟩
  · exact .inl ⟨fun h => hnum h.1, account_respond s m _ _⟩
  · exact .inl ⟨fun h => hnum h.1, account_respond s m _ _⟩

theorem account_openUpload (f : DlFile) :
    (s.openUpload b f).2.account = s.account ∧
      (s.openUpload b f).2.receiveBuff = s.receiveBuff := by
  unfold openUpload
  split
  · exact ⟨rfl, rfl⟩
  · dsimp only
    split_ifs <;> exact ⟨rfl, rfl⟩

theorem account_sendPiece (f : DlFile) (t : FileTrans) (offset : Nat) :
    (s.sendPiece m f t offset).account = s.account.answer := by
  simp only [sendPiece]
  rw [account_mbSlaveVerifyRespMsg]
  split_ifs <;> rfl

/-- A frame of a file under way with a number that is neither the next nor the same. -/
def WrongNumber (f : DlFile) : Prop :=
  let t := (s.openUpload b f).1
  t.flag &&& 0x01 ≠ 0 ∧ ¬ (s.frameNum.toNat = t.preFrame.toNat + 1 ∨ s.frameNum = 0xFE) ∧
    s.frameNum ≠ t.preFrame ∧ ¬ (s.frameNum = 0x01 ∧ t.preFrame = 0xFD)

theorem uploadFile_settles (f : DlFile) :
    Settles m s.account (s.mbSlaveUploadFile b m f).account (¬ s.WrongNumber b f) := by
  obtain ⟨hacc, hrecv⟩ := account_openUpload b s f
  unfold mbSlaveUploadFile WrongNumber
  have hnum : s.frameNum = (s.openUpload b f).2.frameNum := by
    rw [frameNum, frameNum, hrecv]
  rw [hnum]
  generalize s.openUpload b f = x at hacc
  obtain ⟨t, s'⟩ := x
  rw [← hacc]
  dsimp only
  split_ifs with hflag hnext hsame hturn hfirst
  · exact .inl ⟨fun h => h.2.1 hnext, account_sendPiece s' m f _ _⟩
  · exact .inl ⟨fun h => h.2.2.1 hsame, account_sendPiece s' m f _ _⟩
  · exact .inl ⟨fun h => h.2.2.2 hturn, account_sendPiece s' m f _ _⟩
  · exact .inr ⟨not_not.mpr ⟨hflag, hnext, hsame, hturn⟩, account_mbSlaveErrorResp s' m _⟩
  · exact .inl ⟨fun h => hflag h.1, account_sendPiece s' m f _ _⟩
  · exact .inl ⟨fun h => hflag h.1, account_mbSlaveVerifyRespMsg _ m _⟩

/-- The uploads that are answered, if they are not broadcast. -/
def UploadAccepted : UploadOp → Prop
  | .monitor _ => s.Unlocked b .monitor
  | .force _ => True
  | .genDataBlock => ¬ s.BlockAbsent
  | .file f => b.uploadForbidFlag s.world = false ∧ s.Unlocked b .upload ∧
      ¬ (s.passwordChecked b .upload).2.WrongNumber b f

theorem uploadCase_settles (op : UploadOp) :
    Settles m s.account (s.uploadCase b m (some op)).account (s.UploadAccepted b op) := by
  cases op with
  | monitor k =>
    exact (passwordChecked_settles b s m .monitor (P := True)
      (.inl ⟨trivial, account_uploadMonitor (s.passwordChecked b .monitor).2 m k⟩)).congr
        (and_iff_left trivial)
  | force kind => cases kind <;> exact .inl ⟨trivial, account_respond s m _ _⟩
  | genDataBlock => exact uploadGenDataBlock_settles s m
  | file f =>
    unfold uploadCase UploadAccepted
    cases hforbid : b.uploadForbidFlag s.world with
    | true => exact .inr ⟨by simp, account_mbSlaveErrorResp s m _⟩
    | false =>
      exact (passwordChecked_settles b s m .upload (f := fun t => t.mbSlaveUploadFile b m f)
        (uploadFile_settles b (s.passwordChecked b .upload).2 m f)).congr (and_iff_right rfl).symm

/-! ## Controls -/

/-- The addresses to force are mapped, or in the list already. -/
def ForceKnown (kind : AddrKind) : Prop :=
  ∀ i < (s.receiveBuff 3).toNat, Mapped kind (s.forceAddr kind i) ∨
    ∃ e ∈ s.force kind, e.modbusAddr = s.forceAddr kind i

theorem mem_replaceValue {a a' x : BitVec 16} {es : List ListedElement} :
    (∃ e ∈ replaceValue a x es, e.modbusAddr = a') ↔ ∃ e ∈ es, e.modbusAddr = a' := by
  induction es with
  | nil => simp [replaceValue]
  | cons e es ih =>
    by_cases h : e.modbusAddr = a
    · simp [replaceValue, h]
    · simp only [replaceValue, h, if_false, mem_cons, exists_eq_or_imp, ih]

/-- What the entries to force leave as it is: the request, and which addresses that are not mapped
are in the list. -/
structure ForceKept (kind : AddrKind) (s t : Slave ω) : Prop where
  receiveBuff : t.receiveBuff = s.receiveBuff
  listed : ∀ a, ¬ Mapped kind a →
    ((∃ e ∈ t.force kind, e.modbusAddr = a) ↔ ∃ e ∈ s.force kind, e.modbusAddr = a)

theorem forceEntry_step (kind : AddrKind) (i : Nat) (t : Slave ω) (ht : ForceKept kind s t) :
    ForceKept kind s (forceEntry kind (s.force kind ≠ []) i t).1 ∧
      ((Mapped kind (s.forceAddr kind i) ∨
            ∃ e ∈ s.force kind, e.modbusAddr = s.forceAddr kind i) ∧
          (forceEntry kind (s.force kind ≠ []) i t).2 = .ok false ∨
        ¬ (Mapped kind (s.forceAddr kind i) ∨
            ∃ e ∈ s.force kind, e.modbusAddr = s.forceAddr kind i) ∧
          ∃ e, (forceEntry kind (s.force kind ≠ []) i t).2 = .error e) := by
  have haddr : t.forceAddr kind i = s.forceAddr kind i := by
    rw [forceAddr, forceAddr, ht.receiveBuff]
  have hfind : (t.force kind).any (·.modbusAddr = s.forceAddr kind i) = true ↔
      ∃ e ∈ t.force kind, e.modbusAddr = s.forceAddr kind i := by simp
  simp only [forceEntry, haddr]
  by_cases hlisted : decide (s.force kind ≠ []) = true ∧
      (t.force kind).any (·.modbusAddr = s.forceAddr kind i) = true
  · rw [if_pos hlisted]
    refine ⟨⟨ht.receiveBuff, fun a ha => ?_⟩, .inl ⟨?_, rfl⟩⟩
    · simp only [setForce, update_self, mem_replaceValue]
      exact ht.listed a ha
    · by_cases hmap : Mapped kind (s.forceAddr kind i)
      · exact .inl hmap
      · exact .inr ((ht.listed _ hmap).mp (hfind.mp hlisted.2))
  · rw [if_neg hlisted]
    cases hconv : mbSlaveConvertElementInfo kind (s.forceAddr kind i).toNat with
    | none =>
      have hmap : ¬ Mapped kind (s.forceAddr kind i) := fun h => h hconv
      refine ⟨ht, .inr ⟨?_, _, rfl⟩⟩
      rintro (h | h)
      · exact hmap h
      · refine hlisted ⟨?_, hfind.mpr ((ht.listed _ hmap).mpr h)⟩
        obtain ⟨e, he, -⟩ := h
        simpa using ne_nil_of_mem he
    | some x =>
      have hmap : Mapped kind (s.forceAddr kind i) := by simp [Mapped, hconv]
      refine ⟨⟨ht.receiveBuff, fun a ha => ?_⟩, .inl ⟨.inl hmap, rfl⟩⟩
      have hne : s.forceAddr kind i ≠ a := fun h => ha (h ▸ hmap)
      simp only [setForce, update_self, mem_append, mem_singleton, or_and_right,
        exists_or, exists_eq_left, hne, or_false]
      exact ht.listed a ha

theorem account_forceEntry (kind : AddrKind) (search : Bool) (i : Nat) (s : Slave ω) :
    (forceEntry kind search i s).1.account = s.account := by
  simp only [forceEntry]
  split
  · rfl
  · split <;> rfl

/-- A request to force is refused by an exception response where an address is not known. -/
theorem account_force (kind : AddrKind) :
    s.ForceKnown kind ∧ (s.force_ m kind).account = s.account ∨
      ¬ s.ForceKnown kind ∧ (s.force_ m kind).account = s.account.refuse m := by
  have hnone := entryLoop_eq_none_iff (forceEntry_step s kind)
    (range (s.receiveBuff 3).toNat) (s := s) ⟨rfl, fun _ _ => Iff.rfl⟩
  have hacc := entryLoop_keeps account (account_forceEntry kind (s.force kind ≠ []))
    (range (s.receiveBuff 3).toNat) false s
  simp only [mem_range] at hnone
  unfold force_
  dsimp only
  generalize entryLoop (forceEntry kind (s.force kind ≠ [])) (range (s.receiveBuff 3).toNat)
    false s = r at hnone hacc
  obtain ⟨t, _ | e⟩ := r
  · exact .inl ⟨hnone.mp rfl, hacc⟩
  · refine .inr ⟨mt hnone.mpr (by simp), ?_⟩
    exact (account_mbSlaveErrorResp t m e).trans (congrArg (Account.refuse · m) hacc)

/-- A password of a request is taken. -/
def PasswordSet (p : Password) : Prop :=
  (s.receiveBuff 3).toNat ≤ maxPasswordLen ∧
    ((m.receiveLen - 6).setWidth 8 - s.receiveBuff 3).toNat ≤ maxPasswordLen ∧
    (b.checkPasswordInfo p (s.password 4 (s.receiveBuff 3)) s.world).1 = true

def PasswordRight (p : Password) : Prop :=
  (b.checkPasswordInfo p (s.password 3 ((m.receiveLen - 5).setWidth 8)) s.world).1 = true

theorem account_setUserPassword (p : Password) :
    s.PasswordSet b m p ∧ (s.mbSlaveCtrlSetUserPassword b m p).account = s.account ∨
      ¬ s.PasswordSet b m p ∧
        (s.mbSlaveCtrlSetUserPassword b m p).account = s.account.refuse m := by
  unfold mbSlaveCtrlSetUserPassword PasswordSet
  dsimp only
  split_ifs with hlen
  · refine .inr ⟨fun h => ?_, account_mbSlaveErrorResp s m _⟩
    omega
  · rw [not_or, Nat.not_lt, Nat.not_lt] at hlen
    split
    case h_1 world hcheck => exact .inr ⟨by simp [hcheck], account_mbSlaveErrorResp _ m _⟩
    case h_2 world hcheck => exact .inl ⟨⟨hlen.1, hlen.2, by simp [hcheck]⟩, rfl⟩

theorem account_checkUserPassword (p : Password) :
    s.PasswordRight b m p ∧ (s.mbSlaveCtrlCheckUserPassword b m p).account = s.account ∨
      ¬ s.PasswordRight b m p ∧
        (s.mbSlaveCtrlCheckUserPassword b m p).account = s.account.refuse m := by
  unfold mbSlaveCtrlCheckUserPassword PasswordRight
  split
  case h_1 world hcheck =>
    refine .inr ⟨?_, account_mbSlaveErrorResp _ m _⟩
    rw [hcheck]
    exact Bool.false_ne_true
  case h_2 world hcheck => exact .inl ⟨by rw [hcheck], rfl⟩

/-- The files in a `CBIN` fit their parts of the flash memory. -/
def CbinFits (file : Buff) : List (DlFile × Bool) → Nat → Prop
  | [], _ => True
  | (f, _) :: fs, pos =>
    (file.nativePU32 pos).toNat ≤ f.partSize ∧
      CbinFits file fs (pos + 4 + (file.nativePU32 pos).toNat)

/-- A complete file can be written to the flash memory. -/
def FileFits (f : DlFile) (t : FileTrans) : Prop :=
  match f with
  | .sysUpgrade => t.fileLen.toNat ≤ f.partSize
  | .plcCbin => (b.devInfo s.world).deviceTypeId = (t.fileHandler.nativePU16 12).setWidth 32 ∧
      CbinFits t.fileHandler cbinFiles 26
  | f => t.fileHandler.fileLength.toNat ≤ f.partSize

/-- All complete files can be written to the flash memory, one after the other. -/
def FilesFit (b : Board ω) : List DlFile → Slave ω → Prop
  | [], _ => True
  | f :: fs, s =>
    match (s.files f).filter FileTrans.complete with
    | none => FilesFit b fs s
    | some t => s.FileFits b f t ∧ FilesFit b fs ((s.programmeFile b f t).1.setFile f none)

theorem writeCbin_spec (file : Buff) (fs : List (DlFile × Bool)) (pos : Nat) :
    (writeCbin b file fs pos s).1.account = s.account ∧
      ((writeCbin b file fs pos s).2 = none ↔ CbinFits file fs pos) := by
  induction fs generalizing pos s with
  | nil => simp [writeCbin, CbinFits]
  | cons x fs ih =>
    obtain ⟨f, encrypted⟩ := x
    simp only [writeCbin, CbinFits]
    by_cases h : f.partSize < (file.nativePU32 pos).toNat
    · rw [if_pos h]
      exact ⟨rfl, by simp [Nat.not_le.mpr h]⟩
    · rw [if_neg h]
      obtain ⟨hacc, hnone⟩ := ih (s.acts b _) _
      exact ⟨hacc.trans (account_acts b s _), hnone.trans (and_iff_right (Nat.not_lt.mp h)).symm⟩

theorem programmeFile_spec (f : DlFile) (t : FileTrans) :
    (s.programmeFile b f t).1.account = s.account ∧
      ((s.programmeFile b f t).2 = none ↔ s.FileFits b f t) := by
  unfold programmeFile FileFits
  cases f
  case sysUpgrade =>
    dsimp only
    split_ifs with h
    · exact ⟨rfl, by simp [Nat.not_le.mpr h]⟩
    · exact ⟨rfl, by simp [Nat.not_lt.mp h]⟩
  case plcCbin =>
    dsimp only
    split_ifs with h
    · exact ⟨rfl, by simp [h]⟩
    · obtain ⟨hacc, hnone⟩ := writeCbin_spec b s t.fileHandler cbinFiles 26
      exact ⟨hacc, hnone.trans (and_iff_right (not_not.mp h)).symm⟩
  all_goals
    dsimp only
    split_ifs with h
    · exact ⟨rfl, by simp [Nat.not_le.mpr h]⟩
    · exact ⟨account_acts b s _, by simp [Nat.not_lt.mp h]⟩

theorem programmeFiles_spec (fs : List DlFile) :
    (programmeFiles b fs s).1.account = s.account ∧
      ((programmeFiles b fs s).2 = none ↔ FilesFit b fs s) := by
  induction fs generalizing s with
  | nil => simp [programmeFiles, FilesFit]
  | cons f fs ih =>
    simp only [programmeFiles, FilesFit]
    cases (s.files f).filter FileTrans.complete with
    | none => exact ih s
    | some t =>
      obtain ⟨hacc, hfits⟩ := programmeFile_spec b s f t
      dsimp only
      generalize s.programmeFile b f t = r at hacc hfits
      obtain ⟨t', _ | e⟩ := r
      · obtain ⟨hacc', hnone⟩ := ih (t'.setFile f none)
        exact ⟨hacc'.trans hacc, hnone.trans (and_iff_right (hfits.mp rfl)).symm⟩
      · exact ⟨hacc, iff_of_false (by simp) fun h => by simpa using hfits.mpr h.1⟩

/-- The state in which complete files are written. -/
def suspended : Slave ω :=
  (if s.store.isOnlineProgram then s.mbSlaveCtrlStopCmd else s).act b .suspendTaskWhenDownloadUcode

theorem programme_settles :
    Settles m s.account (s.programme b m).account (FilesFit b dlFiles (s.suspended b)) := by
  obtain ⟨hacc, hnone⟩ := programmeFiles_spec b (s.suspended b) dlFiles
  have hstart : (s.suspended b).account = s.account := by
    unfold suspended
    split <;> rfl
  have h := (finishList_settles m (programmeFiles b dlFiles (s.suspended b)) (hacc.trans hstart)
    fun t => account_respond t m 3 []).congr hnone
  have hend : (s.programme b m).account = (finishList m (fun s => s.respond m 3 [])
      (programmeFiles b dlFiles (s.suspended b))).account := by
    cases honline : s.store.isOnlineProgram <;> simp only [programme, suspended, honline] <;> rfl
  rwa [hend]

theorem cleaning_settles (clean : Slave ω → Slave ω) (h : ∀ t, (clean t).account = t.account) :
    Settles m s.account (s.cleaning b m clean).account (b.forbiddenFormat s.world = false) := by
  unfold cleaning
  cases hforbid : b.forbiddenFormat s.world with
  | true => exact .inr ⟨by simp, account_mbSlaveErrorResp s m _⟩
  | false => exact .inl ⟨rfl, (account_respond _ m _ _).trans (congrArg _ (h s))⟩

theorem account_cleanAllUserData : (s.mbSlaveCtrlCleanAllUserData b).account = s.account := by
  have hunforce (t : Slave ω) : t.mbSlaveCtrlUnforceAll.account = t.account := rfl
  simp only [mbSlaveCtrlCleanAllUserData, account_act, hunforce, account_acts]

/-- The controls whose sub-function answers a request it refuses, and whose dispatcher then answers
again. -/
def AnswersTwice : CtrlOp → Prop
  | .force kind => ¬ s.ForceKnown kind
  | .setPwd p => ¬ s.PasswordSet b m p
  | .checkPwd p => ¬ s.PasswordRight b m p
  | _ => False

/-- The controls that are answered once if they are not broadcast. -/
def CtrlAccepted : CtrlOp → Prop
  | .writeRtc =>
    let r := s.receiveBuff
    (b.setDatetime ⟨r.bigPU16 3, r 6, r 8, r 10, r 12, r 14⟩ s.world).isSome
  | .programmeCmd => FilesFit b dlFiles (s.suspended b)
  | .cleanUserCode | .cleanSysBlock | .cleanDataBlock | .cleanNetcfg | .cleanAll =>
    b.forbiddenFormat s.world = false
  | _ => True

/-- The loop that answers a change of the mode of the program does not end. -/
def EchoEndless (op : CtrlOp) : Prop := (∃ on, op = .onlineProgram on) ∧ 256 ≤ m.len - 2

theorem ctrlCase_settles {op : CtrlOp} (htwice : ¬ s.AnswersTwice b m op)
    (hendless : ¬ EchoEndless m op) (hsearch : op ≠ .searchSlave) :
    Settles m s.account (s.ctrlCase b m (some op)).account (s.CtrlAccepted b op) := by
  cases op
  case writeRtc =>
    simp only [ctrlCase, mbSlaveCtrlSetRealtime, CtrlAccepted]
    split
    case h_1 world h => exact .inl ⟨by simp [h], account_respond _ m _ _⟩
    case h_2 h => exact .inr ⟨by simp [h], account_mbSlaveErrorResp s m _⟩
  case force kind =>
    have hforce := (account_force s m kind).resolve_right fun h => htwice h.1
    cases kind <;> exact .inl ⟨trivial, (account_respond _ m _ _).trans (congrArg _ hforce.2)⟩
  case unforce kind => cases kind <;> exact .inl ⟨trivial, account_respond _ m _ _⟩
  case programmeCmd => exact programme_settles b s m
  case cleanUserCode => exact cleaning_settles b s m _ fun t => account_acts b t _
  case cleanSysBlock => exact cleaning_settles b s m _ fun t => account_acts b t _
  case cleanDataBlock => exact cleaning_settles b s m _ fun t => account_acts b t _
  case cleanNetcfg => exact cleaning_settles b s m _ fun t => account_acts b t _
  case cleanAll => exact cleaning_settles b s m _ fun t => account_cleanAllUserData b t
  case setPwd p =>
    have hpwd := (account_setUserPassword b s m p).resolve_right fun h => htwice h.1
    exact .inl ⟨trivial, (account_respond _ m _ _).trans (congrArg _ hpwd.2)⟩
  case checkPwd p =>
    have hpwd := (account_checkUserPassword b s m p).resolve_right fun h => htwice h.1
    exact .inl ⟨trivial, (account_respond _ m _ _).trans (congrArg _ hpwd.2)⟩
  case onlineProgram on =>
    have hlen : ¬ 256 ≤ m.len - 2 := fun h => hendless ⟨⟨on, rfl⟩, h⟩
    simp only [ctrlCase, onlineProgramMode, if_neg hlen]
    exact .inl ⟨trivial, account_mbSlaveVerifyRespMsg _ m _⟩
  case searchSlave => exact absurd rfl hsearch
  all_goals exact .inl ⟨trivial, account_respond _ m _ _⟩

theorem ctrlCase_twice {op : CtrlOp} (h : s.AnswersTwice b m op) :
    (s.ctrlCase b m (some op)).account = (s.account.refuse m).answer := by
  cases op
  case force kind =>
    have hforce := (account_force s m kind).resolve_left fun h' => h h'.1
    cases kind <;> exact (account_respond _ m _ _).trans (congrArg _ hforce.2)
  case setPwd p =>
    have hpwd := (account_setUserPassword b s m p).resolve_left fun h' => h h'.1
    exact (account_respond _ m _ _).trans (congrArg _ hpwd.2)
  case checkPwd p =>
    have hpwd := (account_checkUserPassword b s m p).resolve_left fun h' => h h'.1
    exact (account_respond _ m _ _).trans (congrArg _ hpwd.2)
  all_goals exact absurd h id

theorem ctrlCase_endless {op : CtrlOp} (h : EchoEndless m op) :
    (s.ctrlCase b m (some op)).account = s.account.stick := by
  obtain ⟨⟨on, rfl⟩, hlen⟩ := h
  simp only [ctrlCase, onlineProgramMode, if_pos hlen]
  rfl

end Slave

end Kalyke
