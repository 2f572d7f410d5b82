-- SUMMARY: The message handler: checksum, listen-only mode and the choice of the function.
import Kalyke.Modbus.Ctrl
import Kalyke.Modbus.Diagnostic
import Kalyke.Modbus.Upload

/-!
# The Message Handler

Every task that receives Modbus frames hands them to `mb_slave_msg_handler`, one at a time.
-/

namespace Kalyke

/-- The functions of the slave. -/
inductive MbFunction where
  | readCoilsStatus | readDescreteInputStatus | readHoldingRegister
  | writeSingleCoil | writeRegister | diagDiagnostic | writeMultipleCoils | writeMultipleRegisters
  | readMultipleBitElement | readMultipleWordElement
  | writeMultipleBitElement | writeMultipleWordElement
  | downloadFunc | uploadFunc | ctrlFunc
deriving DecidableEq, Repr

/-- The `case` labels of `mb_slave_msg_handler`. -/
def mbFunction? (x : Byte) : Option MbFunction :=
  if x = 0x01 then some .readCoilsStatus
  else if x = 0x02 then some .readDescreteInputStatus
  else if x = 0x03 then some .readHoldingRegister
  else if x = 0x05 then some .writeSingleCoil
  else if x = 0x06 then some .writeRegister
  else if x = 0x08 then some .diagDiagnostic
  else if x = 0x0F then some .writeMultipleCoils
  else if x = 0x10 then some .writeMultipleRegisters
  else if x = 0x64 then some .readMultipleBitElement
  else if x = 0x65 then some .readMultipleWordElement
  else if x = 0x66 then some .writeMultipleBitElement
  else if x = 0x67 then some .writeMultipleWordElement
  else if x = 0x68 then some .downloadFunc
  else if x = 0x69 then some .uploadFunc
  else if x = 0x6A then some .ctrlFunc
  else none

variable {ω : Type}

namespace Slave

/-- Count a frame with a wrong checksum, `msv_BusCrcErrCnt++`. -/
def countCrcErr (s : Slave ω) (m : MsgPack) : Slave ω :=
  let info := s.diag m.sender
  { s with
    diag := Function.update s.diag m.sender { info with busCrcErrCnt := info.busCrcErrCnt + 1 } }

/-- The port a message came from only listens. -/
def listenOnly (s : Slave ω) (m : MsgPack) : Bool := (s.diag m.sender).listenOnlyMode

/-- The frames that are dropped in listen-only mode. -/
def Filtered (s : Slave ω) (m : MsgPack) : Prop :=
  s.listenOnly m ∧ s.functionCode ≠ 0x08 ∧ s.receiveBuff 3 ≠ 0x01

instance (s : Slave ω) (m : MsgPack) : Decidable (s.Filtered m) := by
  unfold Filtered; infer_instance

/-- The function a frame is for. -/
def function (b : Board ω) (s : Slave ω) (m : MsgPack) : Option MbFunction → Slave ω
  | some .readCoilsStatus => s.mbSlaveReadCoilsStatus m
  | some .readDescreteInputStatus => s.mbSlaveReadDescreteInputStatus m
  | some .readHoldingRegister => s.mbSlaveReadHoldingRegister m
  | some .writeSingleCoil => s.mbSlaveWriteSingleCoil m
  | some .writeRegister => s.mbSlaveWriteRegister m
  | some .diagDiagnostic => s.mbSlaveDiagnosticFunc m
  | some .writeMultipleCoils => s.mbSlaveWriteMultipleCoils m
  | some .writeMultipleRegisters => s.mbSlaveWriteMultipleRegisters m
  | some .readMultipleBitElement => s.mbSlaveReadMultipleBitElement m
  | some .readMultipleWordElement => s.mbSlaveReadMultipleWordElement m
  | some .writeMultipleBitElement => s.mbSlaveWriteMultipleBitElement m
  | some .writeMultipleWordElement => s.mbSlaveWriteMultipleWordElement m
  | some .downloadFunc => s.mbSlaveDownloadManage b m
  | some .uploadFunc => s.mbSlaveUploadManage b m
  | some .ctrlFunc => s.mbSlaveCtrlManage b m
  | none => (s.countSlaveErr m).mbSlaveErrorResp m .iliegalCode

def mbSlaveMsgHandler (b : Board ω) (s : Slave ω) (m : MsgPack) : Slave ω :=
  if m.len < 5 then s
  else if ¬ s.CrcOk m then (s.countCrcErr m).mbSlaveErrorResp m .errorFrame
  else if s.Filtered m then s
  else s.function b m (mbFunction? s.functionCode)

/-- A store with every element off or zero. -/
def idleStore : Store where
  bit _ _ := false
  lm _ := false
  word _ _ := 0
  v _ := 0
  c32 _ := 0
  timer _ := resetTimer 0
  edgeValue _ := false
  edgeInit _ := false
  errorStatusStop := false
  cmdStop := false
  watchDogTime := 0
  isOnlineProgram := false

/-- A slave that has received some bytes and has nothing else in its buffers. -/
def idle (frame : List Byte) : Slave Unit where
  receiveBuff i := frame.getD i 0
  respBuff _ := 0
  errorCode := none
  sent := []
  accessed := []
  stuck := false
  store := idleStore
  diag _ := ⟨1, false, 0, 0, 0, 0, 0, 0⟩
  force _ := []
  monitor _ := []
  files _ := none
  powerOnAutoRun := false
  cmdRun := false
  cmdReboot := false
  stack := ⟨0, 0, 0, 0, 0⟩
  world := ()

end Slave

/-- A message of some length from a serial port. -/
def comMsg (len : BitVec 16) : MsgPack where
  sender := .com0
  receiveLen := len
  isBroadcastInfo := false
  slaveID := 1
  isTcpClient := false
  respFunc := true
  tcpRespFunc := false
  answers := by decide

end Kalyke
