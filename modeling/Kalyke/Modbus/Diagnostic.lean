-- SUMMARY: The diagnostic function: echoes, the listen-only mode and the counters.
import Kalyke.Modbus.Message

/-!
# Diagnostics

The function `0x08`. A broadcast is filtered by the code of 16 bits, but what is done is chosen by
its low byte alone.
-/

namespace Kalyke

/-- The codes of the diagnostic function. -/
inductive DiagCode where
  | broadReturnQueryData | returnQueryData | restartCommunication | forceListenOnlyMode
  | clearCtrlDiagReg | returnBusPackageCnt | returnCrcErrCnt | slaveErrCnt | slaveBusMsgCnt
  | slaveNoRespCnt | busCharOverrunCnt
deriving DecidableEq, Repr

/-- The `case` labels of the diagnostic function. -/
def diagCode? (x : Byte) : Option DiagCode :=
  if x = 0xAA then some .broadReturnQueryData
  else if x = 0x00 then some .returnQueryData
  else if x = 0x01 then some .restartCommunication
  else if x = 0x04 then some .forceListenOnlyMode
  else if x = 0x0A then some .clearCtrlDiagReg
  else if x = 0x0B then some .returnBusPackageCnt
  else if x = 0x0C then some .returnCrcErrCnt
  else if x = 0x0D then some .slaveErrCnt
  else if x = 0x0E then some .slaveBusMsgCnt
  else if x = 0x0F then some .slaveNoRespCnt
  else if x = 0x12 then some .busCharOverrunCnt
  else none

/-- What `mb_slave_diag_clear_ctrl_diag_reg` leaves of the information on one port. -/
def DiagInfo.clear (d : DiagInfo) : DiagInfo := ⟨d.slaveId, false, 0, 0, 0, 0, 0, 0⟩

variable {ω : Type}

namespace Slave

/-- The code of a diagnostic request, all 16 bits. -/
def diagReqCode (s : Slave ω) : BitVec 16 := s.receiveBuff.bigPU16 2

/-- The data of a diagnostic request. -/
def diagReqData (s : Slave ω) : BitVec 16 := s.receiveBuff.bigPU16 4

/-- Set `mcv_ListenOnlyMode` of the port a message came from. -/
def setListenOnly (s : Slave ω) (m : MsgPack) (on : Bool) : Slave ω :=
  { s with diag := Function.update s.diag m.sender { s.diag m.sender with listenOnlyMode := on } }

def mbSlaveDiagClearCtrlDiagReg (s : Slave ω) : Slave ω :=
  { s with diag := fun p => (s.diag p).clear }

/-- Answer with the request. -/
def echo (s : Slave ω) (m : MsgPack) : Slave ω :=
  (s.copyRequest (m.len - 2)).mbSlaveVerifyRespMsg m (m.receiveLen - 2)

/-- Answer with the request and the slave's own number. -/
def echoSlaveID (s : Slave ω) (m : MsgPack) : Slave ω :=
  { s with respBuff := (s.respBuff.copy s.receiveBuff 1 (m.len - 2)).put 0 m.slaveID
    }.mbSlaveVerifyRespMsg m (m.receiveLen - 2)

/-- A counter: that of the port, or of the first two ports where they have the same number. -/
def diagCounter (s : Slave ω) (m : MsgPack) (f : DiagInfo → BitVec 16) : BitVec 16 :=
  if (s.diag .com0).slaveId = (s.diag .com1).slaveId then f (s.diag .com0) + f (s.diag .com1)
  else f (s.diag m.sender)

/-- Answer with a counter. Its high byte goes to the response, its low byte to the request. -/
def respondCounter (s : Slave ω) (m : MsgPack) (f : DiagInfo → BitVec 16) : Slave ω :=
  let data := s.diagCounter m f
  let s := (s.copyRequest 4).putResp 4 [hiByte data]
  { s with receiveBuff := s.receiveBuff.put 5 (loByte data) }.mbSlaveVerifyRespMsg m 6

/-- The cases of `mb_slave_diagnostic_func`. -/
def diagnosticCase (s : Slave ω) (m : MsgPack) : Option DiagCode → Slave ω
  | some .broadReturnQueryData => s.echoSlaveID m
  | some .returnQueryData => s.echo m
  | some .restartCommunication =>
    if s.diagReqData = 0x0000 ∨ s.diagReqData = 0xFF00 then (s.setListenOnly m false).echo m
    else if (s.diag m.sender).listenOnlyMode then s
    else (s.countSlaveErr m).mbSlaveErrorResp m .iliegalCode
  | some .forceListenOnlyMode => s.setListenOnly m true
  | some .clearCtrlDiagReg => s.mbSlaveDiagClearCtrlDiagReg.echo m
  | some .returnBusPackageCnt => s.respondCounter m fun d => d.busPackageCnt - d.busCrcErrCnt
  | some .returnCrcErrCnt => s.respondCounter m DiagInfo.busCrcErrCnt
  | some .slaveErrCnt => s.respondCounter m DiagInfo.slaveErrCnt
  | some .slaveBusMsgCnt => s.respondCounter m DiagInfo.slavePackageCnt
  | some .slaveNoRespCnt => s.respondCounter m DiagInfo.slaveNoRespCnt
  | some .busCharOverrunCnt => s.respondCounter m DiagInfo.busCharOverrunCnt
  | none => (s.countSlaveErr m).mbSlaveErrorResp m .iliegalCode

/-- The codes a broadcast may have. -/
def broadcastCodes : List (BitVec 16) := [0x0001, 0x0004, 0x000A, 0x00AA]

/-- A broadcast with another code is dropped. -/
def DropsCode (s : Slave ω) (m : MsgPack) : Prop :=
  m.isBroadcastInfo ∧ s.diagReqCode ∉ broadcastCodes

theorem dropsCode_iff (s : Slave ω) (m : MsgPack) :
    (m.isBroadcastInfo = true ∧ broadcastCodes.contains s.diagReqCode = false) ↔ s.DropsCode m := by
  simp [DropsCode]

instance (s : Slave ω) (m : MsgPack) : Decidable (s.DropsCode m) :=
  decidable_of_iff _ (s.dropsCode_iff m)

def mbSlaveDiagnosticFunc (s : Slave ω) (m : MsgPack) : Slave ω :=
  if s.DropsCode m then s.countSlaveErr m
  else s.diagnosticCase m (diagCode? (s.receiveBuff 3))

end Slave

end Kalyke
