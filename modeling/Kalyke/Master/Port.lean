-- SUMMARY: The serial ports as a Modbus master sees them, and what its instructions have in common.
import Kalyke.Exec.DataProcessing
import Kalyke.Modbus.Message

/-!
# Master Port

`MODBUS`, `MODRW` and `MODLINK` send requests on a serial port. Each port has a block of `SM`
elements for its flags and a block of `SD` elements for its values. The three instructions begin
with the same checks of the port, refuse a request in the same way, and prepare the port for an
answer in the same way.

Whether a port is idle is asked twice: once by a flag of the port, and once by the state of its
driver, which changes between the scans and is given here for each call.
-/

namespace Kalyke

/-- The flags of a port that the instructions use (`UART_SM_TX_FINISH` and so on). -/
inductive UartSmFlag where
  | txFinish | rxFinish | idle | modbusFinish | modbusError
deriving DecidableEq, Repr

/-- The places of the flags in the block of a port. -/
def UartSmFlag.offset : UartSmFlag → Nat
  | txFinish => 2 | rxFinish => 3 | idle => 4 | modbusFinish => 5 | modbusError => 6

/-- The values of a port that the instructions use: `UART_SD_MODBUS_ID` and
`UART_SD_MASTER_ERROR_CODE`. -/
inductive UartSdValue where
  | modbusId | masterErrorCode
deriving DecidableEq, Repr

/-- The places of the values in the block of a port. -/
def UartSdValue.offset : UartSdValue → Nat
  | modbusId => 1 | masterErrorCode => 9

/-- The reasons a master has to refuse a request. -/
inductive MasterError where
  | iliegalCode | iliegalAddr | serverSlaveModeErr | sameSlaveIdErr
deriving DecidableEq, Repr

/-- The numbers of the reasons. -/
def MasterError.code : MasterError → BitVec 16
  | iliegalCode => 0x01 | iliegalAddr => 0x02 | serverSlaveModeErr => 0x12 | sameSlaveIdErr => 0x13

/-- `uart_port_info_st`, as far as the instructions use it. -/
structure UartPort where
  isMaster : Bool
  smFlagStart : Nat
  sdFlagStart : Nat
  txTimeOut : BitVec 16

/-- `gtp_UartPort`, and the number of ports the device supports. -/
structure UartPorts where
  supportUartNum : Nat
  port : Nat → UartPort

namespace UartPort

variable (port : UartPort)

def getSmFlag (f : UartSmFlag) (s : Store) : Bool := s.getBit (.elem .SM) (port.smFlagStart + f.offset)

def putSmFlag (f : UartSmFlag) (b : Bool) (s : Store) : Store :=
  s.setBit (.elem .SM) (port.smFlagStart + f.offset) b

def getSdValue (v : UartSdValue) (s : Store) : BitVec 16 :=
  s.getWord (.elem .SD) (port.sdFlagStart + v.offset)

def setSdValue (v : UartSdValue) (x : BitVec 16) (s : Store) : Store :=
  s.setWord (.elem .SD) (port.sdFlagStart + v.offset) x

/-- A request is refused: communication has finished with an error. -/
def refuse (e : MasterError) (s : Store) : Store :=
  port.setSdValue .masterErrorCode e.code
    (port.putSmFlag .modbusError true (port.putSmFlag .modbusFinish true s))

/-- The flags are cleared before a request is sent. -/
def clearFlags (s : Store) : Store :=
  port.setSdValue .masterErrorCode 0
    (port.putSmFlag .modbusError false (port.putSmFlag .modbusFinish false
      (port.putSmFlag .rxFinish false (port.putSmFlag .txFinish false s))))

variable {port} {f : UartSmFlag} {b : Bool} {s : Store}

end UartPort

/-- Where the answer to a request is to be stored. -/
inductive RecvBuff where
  | elements (area : WordArea) (start : Int)
  | sheet
deriving DecidableEq, Repr

/-- A request that is sent: the port, the bytes, and what `bsp_set_free_port_receive_para` is told
about the answer. -/
structure MasterRequest where
  port : Nat
  frame : List Byte
  recvBuff : RecvBuff
  rxCnt : BitVec 16
  flag : Bool
deriving DecidableEq, Repr

/-- What a master instruction returns; `MODLINK` returns `pdFAIL` on an unknown function. -/
inductive MasterRet where
  | pass | fail
  | err (e : PlcErr)
deriving DecidableEq, Repr

/-- What a master instruction leaves behind. -/
structure MasterResult where
  ret : MasterRet
  store : Store
  request : Option MasterRequest

/-- Return without a request. -/
def MasterResult.leave (ret : MasterRet) (s : Store) : MasterResult := ⟨ret, s, none⟩

/-! ## The Checks of the Port -/

/-- The port an instruction works on, or what it returns before it has looked at anything else. -/
def openPort (ports : UartPorts) (i : BodyInput) : Except MasterResult Nat :=
  match i.word 2 0 i.store with
  | .error e => .error (.leave (.err e) i.store)
  | .ok n =>
    let port := ports.port n.toNat
    if ports.supportUartNum ≤ n.toNat then .error (.leave (.err .operands) i.store)
    else if port.getSmFlag .idle i.store = false then .error (.leave .pass i.store)
    else if port.isMaster = false then
      .error (.leave (.err .netConfig) (port.refuse .serverSlaveModeErr i.store))
    else .ok n.toNat

/-- A port that cannot be used leaves the edge memories as they are. -/
theorem openPort_error {ports : UartPorts} {i : BodyInput} {r : MasterResult}
    (h : openPort ports i = .error r) :
    r.request = none ∧ r.store.edgeValue = i.store.edgeValue ∧
      r.store.edgeInit = i.store.edgeInit := by
  unfold openPort at h
  cases hn : i.word 2 0 i.store with
  | error e =>
    rw [hn] at h
    cases h
    exact ⟨rfl, rfl, rfl⟩
  | ok n =>
    rw [hn] at h
    dsimp only at h
    split at h
    · cases h
      exact ⟨rfl, rfl, rfl⟩
    · split at h
      · cases h
        exact ⟨rfl, rfl, rfl⟩
      · split at h
        · cases h
          exact ⟨rfl, rfl, rfl⟩
        · cases h

/-- The edge memory is cleared in the first scan. -/
def initEdge (n : Nat) (s : Store) : Store :=
  if s.edgeInit n then (s.rstEdgeInit n).setEdge n false else s

theorem edgeInit_initEdge (n : Nat) (s : Store) : (initEdge n s).edgeInit n = false := by
  unfold initEdge
  split
  · exact Function.update_self n false s.edgeInit
  · rename_i h
    simpa using h

theorem initEdge_of_done {n : Nat} {s : Store} (h : s.edgeInit n = false) : initEdge n s = s := by
  rw [initEdge, if_neg (by simp [h])]

/-! ## Word Operands as Memory -/

/-- A word operand of `MODBUS` or `MODRW`: the area, and whether a `Z` register is added. -/
def masterOperand (level : Nat) : AddrType → Option (WordArea × Bool)
  | .d => some (.elem .D, false)
  | .dz => some (.elem .D, true)
  | .v => some (.v level, false)
  | .vz => some (.v level, true)
  | .r => some (.elem .R, false)
  | .rz => some (.elem .R, true)
  | _ => none

/-- The element number of an operand, which is a `short` here. -/
def startElement (i : BodyInput) (q : Nat) (indexed : Bool) : Int :=
  (BitVec.ofNat 16 (operandStart i.ucode (i.pc + q) i.store indexed)).toInt

/-- What lies in front of the elements of an area, where a negative element number reads. -/
abbrev InFront := WordArea → Int → BitVec 16

/-- A word read through the address of an element. -/
def wordAt (inFront : InFront) (s : Store) (area : WordArea) (k : Int) : BitVec 16 :=
  if 0 ≤ k then s.getWord area k.toNat else inFront area k

end Kalyke
