-- SUMMARY: The control function: running and stopping, forcing elements, flash memory, passwords.
import Kalyke.Modbus.Download

/-!
# Controls

The function `0x6A`. Some sub-functions answer themselves; after all others, one that failed
included, the dispatcher answers with the first three bytes of the request.
-/

namespace Kalyke

open List

def maxPasswordLen : Nat := 8

variable {ω : Type}

namespace Slave

/-! ## The Clock -/

def mbSlaveCtrlReadRealtime (b : Board ω) (s : Slave ω) (m : MsgPack) : Slave ω :=
  let d := b.getDatetime s.world
  s.respond m 3 [hiByte d.year, loByte d.year, 0, d.month, 0, d.day, 0, d.hour, 0, d.minute,
    0, d.second, 0, 2]

def mbSlaveCtrlSetRealtime (b : Board ω) (s : Slave ω) (m : MsgPack) : Slave ω :=
  let r := s.receiveBuff
  match b.setDatetime ⟨r.bigPU16 3, r 6, r 8, r 10, r 12, r 14⟩ s.world with
  | some world => { s with world := world }.respond m 3 []
  | none => s.mbSlaveErrorResp m .iliegalData

/-! ## Forced Elements -/

def setForce (s : Slave ω) (kind : AddrKind) (es : List ListedElement) : Slave ω :=
  { s with force := Function.update s.force kind es }

/-- The bytes of an entry of a list to force: the address and the value. -/
def forceWidth : AddrKind → Nat
  | .bit => 3
  | .word => 4

/-- The address of an entry to force. -/
def forceAddr (s : Slave ω) (kind : AddrKind) (i : Nat) : BitVec 16 :=
  s.receiveBuff.bigPU16 (4 + forceWidth kind * i)

def forceValue (s : Slave ω) : AddrKind → Nat → BitVec 16
  | .bit, i => (s.receiveBuff (4 + 3 * i + 2)).setWidth 16
  | .word, i => s.receiveBuff.bigPU16 (4 + 4 * i + 2)

/-- Set the value of the first element of a list with an address. -/
def replaceValue (modbusAddr value : BitVec 16) : List ListedElement → List ListedElement
  | [] => []
  | e :: es =>
    if e.modbusAddr = modbusAddr then { e with elementValue := value } :: es
    else e :: replaceValue modbusAddr value es

/-- An entry to force. With `search`, an element that is in the list already gets the new value. -/
def forceEntry (kind : AddrKind) (search : Bool) (i : Nat) (s : Slave ω) : EntryResult ω :=
  let modbusAddr := s.forceAddr kind i
  let value := s.forceValue kind i
  let es := s.force kind
  if search ∧ es.any (·.modbusAddr = modbusAddr) then
    (s.setForce kind (replaceValue modbusAddr value es), .ok false)
  else match mbSlaveConvertElementInfo kind modbusAddr.toNat with
    | none => (s, .error .iliegalData)
    | some (t, addr) => (s.setForce kind (es ++ [⟨t, addr, modbusAddr, value⟩]), .ok false)

/-- `mb_slave_ctrl_force_bits` and its sibling. A list that is empty at the start is not searched.
An entry that is refused is answered here. -/
def force_ (s : Slave ω) (m : MsgPack) (kind : AddrKind) : Slave ω :=
  let search := s.force kind ≠ []
  finishList m id
    (entryLoop (forceEntry kind search) (range (s.receiveBuff 3).toNat) false s)

def mbSlaveCtrlForceBits (s : Slave ω) (m : MsgPack) : Slave ω := s.force_ m .bit

def mbSlaveCtrlForceWords (s : Slave ω) (m : MsgPack) : Slave ω := s.force_ m .word

/-- `mb_slave_ctrl_unforce_bits` and its sibling: the first element with each address is deleted. -/
def unforce (s : Slave ω) (kind : AddrKind) : Slave ω :=
  let addr (i : Nat) := s.receiveBuff.bigPU16 (4 + 2 * i)
  s.setForce kind ((range (s.receiveBuff 3).toNat).foldl
    (fun es i => es.eraseP fun e => e.modbusAddr = addr i) (s.force kind))

def mbSlaveCtrlUnforceBits (s : Slave ω) : Slave ω := s.unforce .bit

def mbSlaveCtrlUnforceWords (s : Slave ω) : Slave ω := s.unforce .word

def mbSlaveCtrlUnforceAll (s : Slave ω) : Slave ω := { s with force := fun _ => [] }

/-! ## Information -/

/-- The bytes of a halfword, high byte first. -/
def bigBytes (x : BitVec 16) : List Byte := [hiByte x, loByte x]

/-- The bytes of a word, high byte first. -/
def bigBytes32 (x : BitVec 32) : List Byte :=
  bigBytes (x.extractLsb' 16 16) ++ bigBytes (x.extractLsb' 0 16)

/-- The value of an `SD` element, high byte first. -/
def sdBytes (s : Slave ω) (i : Nat) : List Byte := bigBytes (s.store.word .SD i)

/-- The value of `SM0`, whether the program runs. -/
def runByte (s : Slave ω) : Byte := (BitVec.ofBool (s.store.bit .SM 0)).setWidth 8

/-- The data of `mb_slave_ctrl_read_plc_info`. -/
def plcInfo (b : Board ω) (s : Slave ω) : List Byte :=
  let dev := b.devInfo s.world
  let net := b.netcfg s.world
  let uart (port : Nat) := s.sdBytes (b.uartSdStart s.world port)
  bigBytes (dev.deviceTypeId.setWidth 16) ++ dev.deviceId ++
    -- `FIRMWARE_IMAGE_ID` and `PROGRAM_CAPACITY`
    bigBytes 1 ++ bigBytes 128 ++ s.sdBytes 3 ++ s.sdBytes 20 ++ [0, 33] ++ [0, s.runByte] ++
    s.sdBytes 30 ++ s.sdBytes 31 ++ s.sdBytes 32 ++
    net.wanIp ++ net.wanMask ++ net.wanGate ++ net.wanDns ++ s.sdBytes 223 ++ s.sdBytes 226 ++
    uart 0 ++ uart 1 ++ uart 2 ++ [0, 0, 0, 0, 0, 0] ++ bigBytes32 (b.secondTick s.world) ++
    s.sdBytes 209 ++ s.sdBytes 210 ++ s.sdBytes 211 ++ s.sdBytes 212 ++
    net.lanIoExp :: net.lanIp ++ net.lanMask ++ net.lanGate ++ [net.wanIoExp] ++
    replicate 7 0xBB

def mbSlaveCtrlReadPlcInfo (b : Board ω) (s : Slave ω) (m : MsgPack) : Slave ω :=
  s.respond m 3 (s.plcInfo b)

def mbSlaveCtrlReadPlcStatus (s : Slave ω) (m : MsgPack) : Slave ω :=
  s.respond m 3 (s.runByte :: s.sdBytes 30)

/-- `mb_slave_ctrl_verify_ucode` and `mb_slave_ctrl_verify_pid1`: the name of the file in the flash
memory and the first two of its last four bytes. -/
def verifyFile (b : Board ω) (s : Slave ω) (m : MsgPack) (f : DlFile) : Slave ω :=
  let file := b.flashFile f s.world
  let last := (file.fileLength - 4).toNat
  s.respond m 3 (file.slice 6 16 ++ [file last, file (last + 1)])

def errorBytes (r : ExecErrorRecord) (i : Nat) : List Byte :=
  bigBytes (r.errorMsg i) ++ bigBytes32 (r.errorAddr i / 2)

/-- `mb_slave_read_error_info`: up to five errors, and nothing where more are counted. -/
def mbSlaveReadErrorInfo (b : Board ω) (s : Slave ω) (m : MsgPack) : Slave ω :=
  let r := b.execErrorRecord s.world
  let cnt := if r.errorCnt.toNat ≤ 5 then r.errorCnt.toNat else 0
  s.respond m 3 ((range cnt).flatMap (errorBytes r) ++ replicate (30 - 6 * cnt) 0)

/-! ## Flash Memory -/

/-- `mb_slave_ctrl_descrypt_cbin_file`: the code of each byte is taken off. -/
def descryptCbin (xs : List Byte) : List Byte :=
  xs.zipIdx.map fun x => x.1 - [0x37, 0x9e, 0x88, 0x12, 0x4f, 0xa3, 0x77].getD ((x.2 + 1) % 7) 0

/-- The files in a `CBIN`, in their order, and whether they are encrypted. -/
def cbinFiles : List (DlFile × Bool) :=
  [(.ucode, true), (.pouInfo, false), (.gvt, false), (.sysBlock, false), (.dataBlock, true),
   (.netcfg, true), (.pid1, false), (.pid2, false)]

/-- Write the files of a `CBIN` that are left. One that is too long ends it. -/
def writeCbin (b : Board ω) (file : Buff) :
    List (DlFile × Bool) → Nat → Slave ω → LoopResult ω
  | [], _, s => (s, none)
  | (f, encrypted) :: fs, pos, s =>
    let len := (file.nativePU32 pos).toNat
    if f.partSize < len then (s, some .iliegalData)
    else
      let data := file.slice (pos + 4) len
      let s := s.acts b [.eraseFile f, .writeFile f (if encrypted then descryptCbin data else data)]
      writeCbin b file fs (pos + 4 + len) s

/-- What `mb_slave_ctrl_programme_cmd` does with one complete file. -/
def programmeFile (b : Board ω) (s : Slave ω) (f : DlFile) (t : FileTrans) : LoopResult ω :=
  let data := t.fileHandler.slice 0 t.fileLen.toNat
  match f with
  | .sysUpgrade =>
    if f.partSize < t.fileLen.toNat then (s, some .errorFrame)
    else (s.act b (.writeImage data), none)
  | .plcCbin =>
    -- behind the mark, the length and the version comes the number of the product
    if (b.devInfo s.world).deviceTypeId ≠ (t.fileHandler.nativePU16 12).setWidth 32 then
      (s, some .iliegalData)
    else writeCbin b t.fileHandler cbinFiles 26 s
  | f =>
    if f.partSize < t.fileHandler.fileLength.toNat then (s, some .iliegalData)
    else (s.acts b [.eraseFile f, .writeFile f data], none)

/-- `MB_DL_MAX`: the files in the order of their numbers. -/
def dlFiles : List DlFile :=
  [.ucode, .sysBlock, .dataBlock, .pouInfo, .gvt, .netcfg, .sysUpgrade, .plcCbin, .pid1, .pid2]

/-- The loop over the files that are left. A complete one is written and its transfer ended. -/
def programmeFiles (b : Board ω) : List DlFile → Slave ω → LoopResult ω
  | [], s => (s, none)
  | f :: fs, s =>
    match (s.files f).filter FileTrans.complete with
    | none => programmeFiles b fs s
    | some t =>
      match s.programmeFile b f t with
      | (s, none) => programmeFiles b fs (s.setFile f none)
      | (s, some e) => (s.setFile f none, some e)

def mbSlaveCtrlProgrammeCmd (b : Board ω) (s : Slave ω) (m : MsgPack) : Slave ω :=
  finishList m (fun s => s.respond m 3 []) (programmeFiles b dlFiles s)

/-- The case `MB_CTRL_PROGRAMME_CMD`: a program that may be changed while it runs is stopped for it
and started again, also after a file that was refused. -/
def programme (b : Board ω) (s : Slave ω) (m : MsgPack) : Slave ω :=
  let online := s.store.isOnlineProgram
  let s := if online then s.mbSlaveCtrlStopCmd else s
  let s := (s.act b .suspendTaskWhenDownloadUcode).mbSlaveCtrlProgrammeCmd b m
  let s := s.act b .resumeTaskAfterDownloadUcode
  if online then s.mbSlaveCtrlRunCmd b else s

/-- `mb_slave_ctrl_clean_user_code`. The parts of the flash memory always exist, so
`bsp_get_flash_info` does not fail here. -/
def cleanUserCode : List Act :=
  [.useDefaultFile .pouInfo, .eraseFile .pouInfo, .useDefaultFile .gvt, .eraseFile .gvt,
   .useDefaultFile .ucode, .eraseFile .ucode]

/-- `mb_slave_ctrl_clean_system_block`. -/
def cleanSystemBlock : List Act := [.useDefaultFile .sysBlock, .eraseFile .sysBlock]

/-- `mb_slave_ctrl_clean_data_block`. -/
def cleanDataBlock : List Act := [.useDefaultFile .dataBlock, .eraseFile .dataBlock]

/-- `mb_slave_ctrl_clean_net_cfg`. -/
def cleanNetCfg : List Act := [.useDefaultFile .netcfg, .eraseFile .netcfg]

def mbSlaveCtrlCleanAllUserData (b : Board ω) (s : Slave ω) : Slave ω :=
  let s := s.acts b (cleanUserCode ++ cleanSystemBlock ++ cleanDataBlock ++ cleanNetCfg ++
    [.plcPasswordErase, .plcElementValueInit, .plcEuEdInit, .plcHspInit, .plcSmSdInit])
  s.mbSlaveCtrlUnforceAll.act b .plcCleanUserRunErrorFlag

/-! ## Passwords and Modes -/

/-- A password of the request. -/
def password (s : Slave ω) (start : Nat) (len : Byte) : List Byte :=
  s.receiveBuff.slice start len.toNat

/-- `mb_slave_ctrl_set_user_password`: a password that is refused is answered here. The lengths are
numbers of 8 bits. -/
def mbSlaveCtrlSetUserPassword (b : Board ω) (s : Slave ω) (m : MsgPack) (p : Password) : Slave ω :=
  let oldLen := s.receiveBuff 3
  let newLen := (m.receiveLen - 6).setWidth 8 - oldLen
  if maxPasswordLen < oldLen.toNat ∨ maxPasswordLen < newLen.toNat then
    s.mbSlaveErrorResp m .iliegalData
  else match b.checkPasswordInfo p (s.password 4 oldLen) s.world with
    | (false, world) => { s with world := world }.mbSlaveErrorResp m .iliegalData
    | (true, world) =>
      { s with world := world }.act b (.updatePassword p (s.password (4 + oldLen.toNat) newLen))

def mbSlaveCtrlCheckUserPassword (b : Board ω) (s : Slave ω) (m : MsgPack) (p : Password) :
    Slave ω :=
  match b.checkPasswordInfo p (s.password 3 ((m.receiveLen - 5).setWidth 8)) s.world with
  | (false, world) => { s with world := world }.mbSlaveErrorResp m .iliegalData
  | (true, world) => { s with world := world }

/-- `mb_slave_ctrl_entry_online_program` and its sibling: answer with the request. The counter of
the loop has 8 bits, so with 256 bytes or more to copy the loop does not end. -/
def onlineProgramMode (s : Slave ω) (m : MsgPack) (on : Bool) : Slave ω :=
  let s := { s with store := { s.store with isOnlineProgram := on } }
  if 256 ≤ m.len - 2 then { s with stuck := true }
  else (s.copyRequest (m.len - 2)).mbSlaveVerifyRespMsg m (m.receiveLen - 2)

/-! ## The Function -/

/-- What a control is for. -/
inductive CtrlOp where
  | readRtc | writeRtc | runCmd | stopCmd
  | force (kind : AddrKind) | unforce (kind : AddrKind) | unforceAll
  | readPlcInfo | readPlcStatus | programmeCmd
  | cleanUserCode | cleanSysBlock | cleanDataBlock | cleanNetcfg | cleanAll
  | verifyUcode | verifyPid1 | reboot | cleanErrorInfo | cleanElement
  | setUploadForbid (flag : Bool) | readErrorInfo
  | setPwd (p : Password) | checkPwd (p : Password)
  | onlineProgram (on : Bool) | writeDeviceInfo | blinkNetLed
  /-- Pass a serial port through, which is also noted in `SD231`. -/
  | touChuan (x : Byte)
  /-- Pass a network port through. -/
  | touChuanNet
  | searchSlave | slaveId
deriving DecidableEq, Repr

/-- The `case` labels of `mb_slave_ctrl_manage`. -/
def ctrlTable : List (Byte × CtrlOp) :=
  [(0x01, .readRtc), (0x02, .writeRtc), (0x03, .runCmd), (0x04, .stopCmd),
   (0x05, .force .bit), (0x06, .force .word), (0x07, .unforce .bit), (0x08, .unforce .word),
   (0x09, .unforceAll), (0x10, .readPlcInfo), (0x11, .readPlcStatus), (0x12, .programmeCmd),
   (0x13, .cleanUserCode), (0x14, .cleanSysBlock), (0x15, .cleanDataBlock), (0x16, .cleanAll),
   (0x17, .verifyUcode), (0x18, .reboot), (0x19, .cleanErrorInfo), (0x20, .cleanElement),
   (0x21, .cleanNetcfg), (0x23, .verifyPid1), (0x30, .setUploadForbid true),
   (0x31, .setUploadForbid false), (0x38, .searchSlave), (0x39, .readErrorInfo),
   (0x57, .setPwd .upload), (0x58, .checkPwd .upload), (0x59, .setPwd .download),
   (0x5A, .checkPwd .download), (0x5B, .setPwd .monitor), (0x5C, .checkPwd .monitor),
   (0x5D, .setPwd .timer), (0x5E, .checkPwd .timer), (0x6E, .onlineProgram true),
   (0x70, .touChuan 0), (0x71, .touChuan 1), (0x72, .touChuan 2), (0x77, .touChuanNet),
   (0x78, .touChuanNet), (0x7E, .touChuan 0xFF), (0x83, .onlineProgram false),
   (0x84, .writeDeviceInfo), (0x88, .blinkNetLed), (0x90, .slaveId)]

/-- The control a sub-code stands for. -/
def ctrlOp? (x : Byte) : Option CtrlOp := ctrlTable.lookup x

/-- What the dispatcher does after a sub-function: answer, or nothing as it has answered. -/
def thenRespond (s : Slave ω) (m : MsgPack) : Slave ω := s.respond m 3 []

/-- The cases that clean a part of the flash memory, where that is not forbidden. -/
def cleaning (b : Board ω) (s : Slave ω) (m : MsgPack) (clean : Slave ω → Slave ω) : Slave ω :=
  if b.forbiddenFormat s.world then s.mbSlaveErrorResp m .errorSlaveOp
  else (clean s).thenRespond m

/-- The cases of `mb_slave_ctrl_manage`. -/
def ctrlCase (b : Board ω) (s : Slave ω) (m : MsgPack) : Option CtrlOp → Slave ω
  | some .readRtc => s.mbSlaveCtrlReadRealtime b m
  | some .writeRtc => s.mbSlaveCtrlSetRealtime b m
  | some .runCmd => (s.mbSlaveCtrlRunCmd b).thenRespond m
  | some .stopCmd => s.mbSlaveCtrlStopCmd.thenRespond m
  | some (.force .bit) => (s.mbSlaveCtrlForceBits m).thenRespond m
  | some (.force .word) => (s.mbSlaveCtrlForceWords m).thenRespond m
  | some (.unforce .bit) => s.mbSlaveCtrlUnforceBits.thenRespond m
  | some (.unforce .word) => s.mbSlaveCtrlUnforceWords.thenRespond m
  | some .unforceAll => s.mbSlaveCtrlUnforceAll.thenRespond m
  | some .readPlcInfo => s.mbSlaveCtrlReadPlcInfo b m
  | some .readPlcStatus => s.mbSlaveCtrlReadPlcStatus m
  | some .programmeCmd => s.programme b m
  | some .cleanUserCode => s.cleaning b m fun s => s.acts b Slave.cleanUserCode
  | some .cleanSysBlock => s.cleaning b m fun s => s.acts b cleanSystemBlock
  | some .cleanDataBlock => s.cleaning b m fun s => s.acts b Slave.cleanDataBlock
  | some .cleanNetcfg => s.cleaning b m fun s => s.acts b cleanNetCfg
  | some .cleanAll => s.cleaning b m fun s => s.mbSlaveCtrlCleanAllUserData b
  | some .verifyUcode => s.verifyFile b m .ucode
  | some .verifyPid1 => s.verifyFile b m .pid1
  | some .reboot => (s.respond m 3 []).act b .plcReboot
  | some .cleanErrorInfo => (s.act b .plcCleanUserRunErrorFlag).thenRespond m
  | some .cleanElement =>
    (s.acts b [.plcElementValueInit, .plcSmSdInit, .plsdEraseAll]).thenRespond m
  | some (.setUploadForbid flag) => (s.act b (.setUploadForbid flag)).thenRespond m
  | some .readErrorInfo => s.mbSlaveReadErrorInfo b m
  | some (.setPwd p) => (s.mbSlaveCtrlSetUserPassword b m p).thenRespond m
  | some (.checkPwd p) => (s.mbSlaveCtrlCheckUserPassword b m p).thenRespond m
  | some (.onlineProgram on) => s.onlineProgramMode m on
  | some .writeDeviceInfo => (s.act b (.writeDeviceInfo (s.receiveBuff.slice 3 38))).thenRespond m
  | some .blinkNetLed => (s.act b .blinkNetLed).thenRespond m
  | some (.touChuan x) =>
    let s := { s with store := s.store.setWord (.elem .SD) 231 (x.setWidth 16) }
    (s.act b (.touChuan x)).thenRespond m
  | some .touChuanNet => (s.act b (.saveTouChuan 4)).thenRespond m
  -- without the feature of the chain, `daisy_get_info` is empty
  | some .searchSlave => s
  | some .slaveId => s.thenRespond m
  | none => (s.countSlaveErr m).mbSlaveErrorResp m .iliegalCode

def mbSlaveCtrlManage (b : Board ω) (s : Slave ω) (m : MsgPack) : Slave ω :=
  s.ctrlCase b m (ctrlOp? s.subCode)

end Slave

end Kalyke
