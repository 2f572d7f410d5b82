-- SUMMARY: The cycle of the extension bus: the master fills a frame, each device exchanges its data, the master takes its own.
import Kalyke.Daisy.Octets
import Kalyke.Lib.Image
import Kalyke.Modbus.Counters

/-!
# The Cycle of the Bus

The data exchange of `daisy_task.c`. A frame has the command, the working counter and, from its
fifth byte on, the data. The master fills in its outputs and sends the frame along the chain. Each
device fills in its inputs, takes its outputs and hands the frame on. The last one sends it back.
The numbers of two bytes are sums of bytes that share no bit: `GET_SMLPU16_DATA` is `Image.word`,
and `GET_BIGPU16_DATA` is `Image.bigWord`.
-/

namespace Kalyke

/-- `pdo_st`: an element that is exchanged, and the offset of its data in the frame. -/
structure Pdo where
  eType : DaisyElementType
  eAddr : Nat
  offset : Nat
  len : Nat
deriving DecidableEq, Repr

def DaisyElementType.daisyWord : DaisyElementType → Option WordElement
  | d => some .D
  | sd => some .SD
  | r => some .R
  | _ => none

/-! ## Items -/

def fillItem (s : Store) (pData : Nat) (frame : Image) (p : Pdo) : Image :=
  match p.eType.bits, p.eType.daisyWord with
  | some b, _ => frame.put (pData + p.offset) [daisyGet8bitElementValue s b p.eAddr]
  | none, some w =>
    if w = .D ∧ p.len = 4 then
      frame.put (pData + p.offset)
        (Image.bigBytes (s.word w (p.eAddr + 1)) ++ Image.bigBytes (s.word w p.eAddr))
    else frame.put (pData + p.offset) (Image.bigBytes (s.word w p.eAddr))
  | none, none => frame

/-- The switch that takes an item, from data that begin at `pData`. -/
def takeItem (pData : Nat) (frame : Image) (s : Store) (p : Pdo) : Store :=
  match p.eType.bits, p.eType.daisyWord with
  | some b, _ => daisySet8bitElementValue s b p.eAddr (frame (pData + p.offset))
  | none, some w =>
    if w = .D ∧ p.len = 4 then
      (s.setWord (.elem w) p.eAddr (frame.bigWord (pData + p.offset + 2))).setWord (.elem w)
        (p.eAddr + 1) (frame.bigWord (pData + p.offset))
    else s.setWord (.elem w) p.eAddr (frame.bigWord (pData + p.offset))
  | none, none => s

/-! ## Devices -/

/-- `gSmartBFM`, as far as it is read here, and the elements of a device. -/
structure SmartDevice where
  pdo1ASmart : List Pdo
  pdo1BSmart : List Pdo
  store : Store

/-- `daisy_handle_data`, behind the command and the working counter of the frame. -/
def daisyHandleData (d : SmartDevice) (pBuf : Image) : SmartDevice × Image :=
  let pBuf := d.pdo1ASmart.foldl (fillItem d.store 4) pBuf
  ({ d with store := d.pdo1BSmart.foldl (takeItem 4 pBuf) d.store }, pBuf)

/-- A frame that goes along a chain. -/
def alongChain : List SmartDevice → Image → List SmartDevice × Image
  | [], pBuf => ([], pBuf)
  | d :: ds, pBuf =>
    let (d, pBuf) := daisyHandleData d pBuf
    let (ds, pBuf) := alongChain ds pBuf
    (d :: ds, pBuf)

/-! ## Errors of the master -/

/-- `daisy_err_e`, as far as it is used here. -/
inductive DaisyErr where
  | lenErrMasterLoopSlave | cmdErrMasterLoopSlave | timeoutErrMasterLoopSlave
  | wkcLostErrMasterLoopSlave
deriving DecidableEq, Repr

/-- The numbers of the errors. -/
def DaisyErr.code : DaisyErr → BitVec 16
  | lenErrMasterLoopSlave => 0x0151
  | cmdErrMasterLoopSlave => 0x0152
  | timeoutErrMasterLoopSlave => 0x0153
  | wkcLostErrMasterLoopSlave => 0x0154

/-- The master: its elements, and what is used here of `gMasterRunInfo` and of
`daisy_loop_delay`. -/
structure BusMaster where
  store : Store
  daisyErrFlag : Bool
  daisyErrTimes : BitVec 8
  daisyTotalerrTimes : BitVec 16
  msTickStart : BitVec 32

/-- `SET_SD_ELEMENT_VALUE`. -/
def BusMaster.setSd (m : BusMaster) (i : Nat) (v : BitVec 16) : BusMaster :=
  { m with store := m.store.setWord (.elem .SD) i v }

/-- A code comes to the head of a row of registers, unless it is there, and the others move on. -/
def pushRegisters (head : Nat) (later : List Nat) (code : BitVec 16) (s : Store) : Store :=
  if s.word .SD head = code then s
  else (later.foldl (fun s i => s.setWord (.elem .SD) i (s.word .SD (i - 1))) s).setWord (.elem .SD)
    head code

def saveErrorCodeFIFO (nErrorCode : BitVec 16) : Store → Store :=
  pushRegisters 248 [257, 256, 255, 254, 253, 252, 251, 250, 249] nErrorCode

/-- `plc_refresh_error_msg` for `ERR_SLAVE_ERR`. -/
def refreshSlaveErr (s : Store) : Store :=
  pushRegisters 20 [24, 23, 22, 21] 201 (s.setBit (.elem .SM) 20 true)

def daisySetError (errCode errAddr errContent : BitVec 16) (m : BusMaster) : BusMaster :=
  let m := { m with daisyErrFlag := true }.setSd 243 errCode
  let m := { m with store := saveErrorCodeFIFO errCode m.store }
  let m := (m.setSd 244 errAddr).setSd 245 errContent
  { m with store := refreshSlaveErr m.store }

def daisyClearError (m : BusMaster) : BusMaster :=
  (({ m with daisyErrFlag := false }.setSd 243 0).setSd 244 0).setSd 245 0

/-! ## The master -/

/-- `gBusConfig`, as far as it is read here. -/
structure BusConfig where
  nSubStationCount : BitVec 16
  nSlaveCount : BitVec 16
  nMasterExtCount : BitVec 16
  nBfm608A : BitVec 16
  pdo1A : List Pdo
  pdo1B : List Pdo

/-- How many extension modules the slaves have. -/
def BusConfig.slaveExtMoudles (cfg : BusConfig) : BitVec 16 :=
  cfg.nSubStationCount - cfg.nSlaveCount - cfg.nMasterExtCount

def inSlaveErrHandle5555 (pBuf : Image) : BusMaster → BusMaster :=
  daisySetError (pBuf.word 2) (pBuf.word 4) (pBuf.word 6)

def loopSlaveHandle3333 (cfg : BusConfig) (pBuf : Image) (len : Nat) (m : BusMaster) : BusMaster :=
  if len < 4 then daisySetError DaisyErr.lenErrMasterLoopSlave.code 0 (BitVec.ofNat 16 len) m
  else if pBuf.word 0 ≠ 0x3333 then
    if pBuf.word 0 = 0x5555 then inSlaveErrHandle5555 pBuf m
    else daisySetError DaisyErr.cmdErrMasterLoopSlave.code 0 (pBuf.word 0) m
  else if pBuf.word 2 ≠ cfg.slaveExtMoudles then
    daisySetError DaisyErr.wkcLostErrMasterLoopSlave.code 0 (pBuf.word 2) m
  else daisyClearError { m with store := cfg.pdo1A.foldl (takeItem 4 pBuf) m.store }

/-- What `daisy_task_handle_loop_slave` puts into the frame before it sends it. -/
def daisyFillLoop (cfg : BusConfig) (s : Store) (pbufLoop : Image) : Image :=
  let pbufLoop := Function.update (Function.update pbufLoop 3 0) 2 0
  cfg.pdo1B.foldl (fillItem s 4) pbufLoop

/-- What `daisy_task_handle_loop_slave` does once a frame has come or the time is over. -/
def daisyLoopReceived (cfg : BusConfig) (received : Bool) (m : BusMaster) : BusMaster :=
  if received && !m.daisyErrFlag then { m with daisyErrTimes := 0 }
  else
    let m := { m with
      daisyErrTimes := m.daisyErrTimes + 1, daisyTotalerrTimes := m.daisyTotalerrTimes + 1 }
    let m := m.setSd 247 m.daisyTotalerrTimes
    if 10 < m.daisyErrTimes then
      let m := if received then m
        else daisySetError DaisyErr.timeoutErrMasterLoopSlave.code 0 cfg.nBfm608A m
      { m with daisyErrTimes := 0 }
    else m

def daisyLoopDelay (now : BitVec 32) (m : BusMaster) : BusMaster :=
  if m.msTickStart = 0 then { m with msTickStart := now }
  else
    let msInterval := now - m.msTickStart
    let m := m.setSd 236 (msInterval.setWidth 16)
    let m := if (m.store.word .SD 238).setWidth 32 < msInterval then
      m.setSd 238 (msInterval.setWidth 16) else m
    { m with msTickStart := now }

/-- A cycle: `daisy_task_handle_loop_slave` with a frame of `len` bytes that goes along the chain
and comes back. None if the refresh of the forced elements does not end. -/
def loopCycle (headIsC : Bool) (force : AddrKind → List ListedElement) (cfg : BusConfig)
    (pbufLoop : Image) (len : Nat) (now : BitVec 32) (m : BusMaster) (chain : List SmartDevice) :
    Option (BusMaster × List SmartDevice) :=
  (plcRefreshForceElementValue headIsC force m.store).map fun s =>
    let (chain, pBuf) := alongChain chain (daisyFillLoop cfg s pbufLoop)
    let m := loopSlaveHandle3333 cfg pBuf len { m with store := s }
    (daisyLoopDelay now (daisyLoopReceived cfg true m), chain)

end Kalyke
