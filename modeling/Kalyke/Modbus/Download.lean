-- SUMMARY: The download function: lists of monitored elements, and files in numbered frames.
import Kalyke.Modbus.Board
import Kalyke.Modbus.Multiple

/-!
# Downloads

The function `0x68`. A file comes in frames numbered from 1 to `0xFD` and again from 1; the last has
the number `0xFE`. What a frame does to a transfer is a function of the transfer alone.
-/

namespace Kalyke

/-! ## Transfers -/

/-- `UCODE_FILE_MAX_SIZE` and its siblings: the size of the part of the flash memory for a file. -/
def DlFile.partSize : DlFile → Nat
  | ucode => 256 * 1024
  | sysBlock => 64 * 1024
  | dataBlock => 64 * 1024
  | pouInfo => 16 * 1024
  | gvt => 16 * 1024
  | netcfg => 128 * 1024
  | sysUpgrade => 500 * 1024
  | plcCbin => 128 * 1024
  | pid1 => 4 * 1024
  | pid2 => 4 * 1024

/-- The files of which a complete transfer is thrown away when the next frame comes. -/
def DlFile.restarts : DlFile → Bool
  | ucode | dataBlock | pouInfo => true
  | _ => false

namespace FileTrans

/-- A transfer as `mb_slave_init_file_info` leaves it. -/
def init (handler : Buff) (room : Nat) : FileTrans := ⟨0, 0, 0, 0, handler, room⟩

/-- Bit 0 of the flags: the transfer is under way. -/
def started (t : FileTrans) : Bool := t.flag &&& 0x01 ≠ 0

/-- Bit 1 of the flags: the last frame has come. -/
def complete (t : FileTrans) : Bool := t.flag &&& 0x02 ≠ 0

def append (t : FileTrans) (frameNum : Byte) (data : List Byte) : FileTrans :=
  { t with
    preFrame := frameNum
    fileHandler := t.fileHandler.putList t.fileLen.toNat data
    fileLen := t.fileLen + BitVec.ofNat 32 data.length
    flag := if frameNum = 0xFE then t.flag ||| 0x02 else t.flag }

/-- Count a turn of the frame numbers in bits 2 to 4 of the flags. -/
def countTurn (t : FileTrans) : FileTrans :=
  { t with flag := t.flag &&& 0xE3 ||| (((t.flag &&& 0x1A) >>> 2) + 1) <<< 2 }

/-- What a frame comes to: it is refused, it is taken for the last one sent again, or it leaves the
transfer as given. -/
inductive Receipt where
  | refused
  | again
  | done (t : FileTrans)

/-- `mb_slave_download_file`, what it does to the transfer. A first frame with a number that cannot
be the first changes nothing and is still acknowledged. -/
def receive (t : FileTrans) (frameNum : Byte) (data : List Byte) : Receipt :=
  if t.started then
    if frameNum = t.preFrame then .again
    else if frameNum = 0xFE ∨ frameNum.toNat = t.preFrame.toNat + 1 then
      .done ({ t with frameCnt := t.frameCnt + 1 }.append frameNum data)
    else if frameNum = 0x01 ∧ t.preFrame = 0xFD then
      .done ({ t with frameCnt := t.frameCnt + 1 }.countTurn.append frameNum data)
    else .refused
  else if frameNum = 0x01 ∨ frameNum = 0xFE then
    .done ({ t with frameCnt := 1, flag := t.flag ||| 0x01 }.append frameNum data)
  else .done t

end FileTrans

variable {ω : Type}

namespace Slave

/-! ## Files -/

/-- The number of a frame of a file. -/
def frameNum (s : Slave ω) : Byte := s.receiveBuff 3

/-- The data of a frame of a file: `msv_ReceiveLen - 6` bytes, a number of 16 bits. -/
def frameData (s : Slave ω) (m : MsgPack) : List Byte :=
  s.receiveBuff.slice 4 (m.receiveLen - 6).toNat

/-- The bytes allocated for a file. For a `CBIN` the frame says how many, for an upgrade most of the
memory that is left is taken. -/
def allocated (b : Board ω) (s : Slave ω) : DlFile → Nat
  | .plcCbin => (s.receiveBuff.nativePU32 8).toNat
  | .sysUpgrade => b.freeHeapSize s.world - 40 * 1024
  | f => f.partSize

def setFile (s : Slave ω) (f : DlFile) (t : Option FileTrans) : Slave ω :=
  { s with files := Function.update s.files f t }

/-- The transfer a frame belongs to: the one under way, or a new one. Where a file can be changed
while the program runs, the program is stopped for the transfer. -/
def openFile (b : Board ω) (s : Slave ω) (f : DlFile) : FileTrans × Slave ω :=
  let under := (s.files f).filter fun t => !(f.restarts && t.complete)
  match under with
  | some t => (t, s)
  | none =>
    let t := FileTrans.init (b.malloc s.world) (s.allocated b f)
    let s := if f = .ucode ∧ s.store.isOnlineProgram then s.mbSlaveCtrlStopCmd else s
    (t, s.setFile f (some t))

/-- What follows the transfer while the program may be changed: a complete program is compiled, and
a complete list of its parts starts it. -/
def onlineProgram (b : Board ω) (s : Slave ω) (f : DlFile) (t : FileTrans) : Bool × Slave ω :=
  if s.store.isOnlineProgram ∧ t.complete then
    match f with
    | .ucode =>
      let (ok, store, world) := b.compilerUcode t.fileHandler (s.store, s.world)
      if ok then (true, { s with store := store, world := world }.act b (.useBuffer f t.fileHandler))
      else
        let store := { store with errorStatusStop := true }
        (false, { s with store := store, world := world }.act b .refreshErrorMsgCompiler)
    | .pouInfo => (true, (s.act b (.useBuffer f t.fileHandler)).mbSlaveCtrlRunCmd b)
    | _ => (true, s)
  else (true, s)

/-- `mb_slave_download_file`: whether the frame is acknowledged, and the state it leaves. -/
def mbSlaveDownloadFile (b : Board ω) (s : Slave ω) (m : MsgPack) (f : DlFile) : Bool × Slave ω :=
  let (t, s) := s.openFile b f
  match t.receive s.frameNum (s.frameData m) with
  | .refused => (false, s)
  | .again => (true, s)
  | .done t => (s.setFile f (some t)).onlineProgram b f t

/-! ## Monitored Elements -/

def setMonitor (s : Slave ω) (k : Monitor) (es : List ListedElement) : Slave ω :=
  { s with monitor := Function.update s.monitor k es }

/-- An entry of a list to monitor, which starts at a byte of the request. Its value is not set: that
is done before it is sent. -/
def monitorEntry (k : Monitor) (kind : AddrKind) (start i : Nat) (s : Slave ω) : EntryResult ω :=
  let modbusAddr := s.receiveBuff.bigPU16 (start + 2 * i)
  match mbSlaveConvertElementInfo kind modbusAddr.toNat with
  | none => (s, .error .iliegalData)
  | some (t, addr) =>
    (s.setMonitor k (s.monitor k ++ [⟨t, addr, modbusAddr, 0⟩]), .ok false)

def monitorEntries (k : Monitor) (kind : AddrKind) (start cnt : Nat) (s : Slave ω) : LoopResult ω :=
  entryLoop (monitorEntry k kind start) (List.range cnt) false s

/-- `mb_slave_download_monitor_bits` and its siblings: other frames than the first and the last
change nothing. -/
def downloadMonitor (s : Slave ω) (m : MsgPack) (k : Monitor) : Slave ω :=
  let byteAt (i : Nat) := (s.receiveBuff i).toNat
  finishList m (fun s => s.respond m 4 [])
    (if s.frameNum = 0x01 ∨ s.frameNum = 0xFE then
      let s := s.setMonitor k []
      match k with
      | .bits => monitorEntries k .bit 7 (byteAt 6) s
      | .words => monitorEntries k .word 7 (byteAt 6) s
      | .bitsWords =>
        match monitorEntries k .bit 8 (byteAt 4) s with
        | (s, none) => monitorEntries k .word (8 + 2 * byteAt 4) (byteAt 5) s
        | r => r
    else (s, none))

/-! ## The Function -/

/-- What a download is for. -/
inductive DownloadOp where
  | monitor (k : Monitor)
  | file (f : DlFile)
  /-- The firmware, or the files of a program in one. -/
  | upgrade (f : DlFile)
  /-- The firmware of another device. -/
  | slave
deriving DecidableEq, Repr

/-- The `case` labels of `mb_slave_download_manage`. -/
def downloadOp? (x : Byte) : Option DownloadOp :=
  if x = 0x06 then some (.monitor .bits)
  else if x = 0x07 then some (.monitor .words)
  else if x = 0x0A then some (.monitor .bitsWords)
  else if x = 0x5D then some (.file .ucode)
  else if x = 0x5E then some (.file .sysBlock)
  else if x = 0x5F then some (.file .dataBlock)
  else if x = 0x60 then some (.file .pouInfo)
  else if x = 0x61 then some (.file .gvt)
  else if x = 0x66 then some (.file .netcfg)
  else if x = 0x6C then some (.file .pid1)
  else if x = 0x6D then some (.file .pid2)
  else if x = 0x68 then some (.upgrade .sysUpgrade)
  else if x = 0x69 then some .slave
  else if x = 0x6A then some (.upgrade .plcCbin)
  else none

/-- Run a file's frame and answer. -/
def downloadFrame (b : Board ω) (s : Slave ω) (m : MsgPack) (f : DlFile) : Slave ω :=
  match s.mbSlaveDownloadFile b m f with
  | (true, s) => s.respond m 4 []
  | (false, s) => s.mbSlaveErrorResp m .iliegalData

/-- The cases of `mb_slave_download_manage`. With the firmware of another device the pointer to the
transfer is never set. -/
def downloadCase (b : Board ω) (s : Slave ω) (m : MsgPack) : Option DownloadOp → Slave ω
  | some (.monitor k) =>
    match s.passwordChecked b .monitor with
    | (true, s) => s.downloadMonitor m k
    | (false, s) => s.mbSlaveErrorResp m .passwordCheckFail
  | some (.file f) =>
    match s.passwordChecked b .download with
    | (true, s) => s.downloadFrame b m f
    | (false, s) => s.mbSlaveErrorResp m .passwordCheckFail
  | some (.upgrade f) =>
    if s.store.isOnlineProgram then s.mbSlaveErrorResp m .errorSlaveBusy
    else (s.act b .suspendTaskWhenDownloadUcode).downloadFrame b m f
  | some .slave =>
    if s.store.isOnlineProgram then s.mbSlaveErrorResp m .errorSlaveBusy
    else { s.act b .suspendTaskWhenDownloadUcode with stuck := true }
  | none => (s.countSlaveErr m).mbSlaveErrorResp m .iliegalCode

/-- `mb_slave_download_manage`. A frame whose number is not allowed is refused, and then handled all
the same. -/
def mbSlaveDownloadManage (b : Board ω) (s : Slave ω) (m : MsgPack) : Slave ω :=
  let s := if s.frameNum = 0x00 ∨ s.frameNum = 0xFF then s.mbSlaveErrorResp m .iliegalData else s
  s.downloadCase b m (downloadOp? s.subCode)

end Slave

end Kalyke
