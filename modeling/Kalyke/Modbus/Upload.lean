-- SUMMARY: The upload function: the values of monitored and forced elements, data blocks and files.
import Kalyke.Modbus.Download

/-!
# Uploads

The function `0x69`. The values of monitored elements are taken when their list is sent. Only the
frame with the number 1 sets the counts of such a list; another leaves them unset.
-/

namespace Kalyke

open Function

def maxUploadFileLength : Nat := 1000

/-- The value of a monitored element: `mb_slave_refresh_monitor_bits` and its siblings. Of a counter
of 32 bits the odd number is the high half. -/
def monitorValue (st : Store) (t : MbElement) (addr : Nat) : BitVec 16 :=
  match t.bit? with
  | some e => (BitVec.ofBool (st.bit e addr)).setWidth 16
  | none =>
    match t.register? addr with
    | some (.word e) => st.word e addr
    | some .c32 =>
      let value := st.c32 (c32RealAddr addr)
      if (addr - c16Rang) % 2 ≠ 0 then value.extractLsb' 16 16 else value.extractLsb' 0 16
    | none => 0

def ListedElement.refresh (st : Store) (e : ListedElement) : ListedElement :=
  { e with elementValue := monitorValue st e.elementType e.elementAddr }

def ListedElement.bitBytes (e : ListedElement) : List Byte :=
  [hiByte e.modbusAddr, loByte e.modbusAddr, loByte e.elementValue]

def ListedElement.wordBytes (e : ListedElement) : List Byte :=
  [hiByte e.modbusAddr, loByte e.modbusAddr, hiByte e.elementValue, loByte e.elementValue]

/-- The elements of a mixed list that fit: the loop ends when the frame has 1000 bytes or more. -/
def takeFrame : Nat → List ListedElement → List ListedElement
  | _, [] => []
  | frameLen, e :: es =>
    let frameLen := frameLen + if e.elementType.kind = .bit then 3 else 4
    e :: if 1000 ≤ frameLen then [] else takeFrame frameLen es

def ListedElement.bytes (e : ListedElement) : List Byte :=
  match e.elementType.kind with
  | .bit => e.bitBytes
  | .word => e.wordBytes

variable {ω : Type}

namespace Slave

/-! ## Monitored and Forced Elements -/

/-- Take the values of all elements of a list. -/
def refreshMonitor (s : Slave ω) (k : Monitor) : Slave ω :=
  { s with
    monitor := update s.monitor k ((s.monitor k).map (ListedElement.refresh s.store)) }

def mbSlaveUploadMonitorBits (s : Slave ω) (m : MsgPack) : Slave ω :=
  let s := s.refreshMonitor .bits
  let es := (s.monitor .bits).take 250
  let (s, cnt) :=
    if s.frameNum = 0x01 then
      (s.putResp 5 (es.flatMap ListedElement.bitBytes), BitVec.ofNat 16 es.length)
    else (s, s.stack.elementCnt)
  ((s.copyRequest 3).putResp 3 [0xFE, loByte cnt]).mbSlaveVerifyRespMsg m (5 + cnt * 3)

def mbSlaveUploadMonitorWords (s : Slave ω) (m : MsgPack) : Slave ω :=
  let s := s.refreshMonitor .words
  let es := (s.monitor .words).take 250
  let (s, cnt, frameLen) :=
    if s.frameNum = 0x01 then
      (s.putResp 5 (es.flatMap ListedElement.wordBytes), BitVec.ofNat 16 es.length,
        BitVec.ofNat 16 (5 + 4 * es.length))
    else (s, s.stack.elementCnt, s.stack.frameLen)
  ((s.copyRequest 3).putResp 3 [0xFE, loByte cnt]).mbSlaveVerifyRespMsg m frameLen

def mbSlaveUploadMonitorBitsWords (s : Slave ω) (m : MsgPack) : Slave ω :=
  let s := s.refreshMonitor .bitsWords
  let es := takeFrame 6 (s.monitor .bitsWords)
  let bitsCnt := es.countP (·.elementType.kind = .bit)
  let (s, bitsCnt, wordsCnt, frameLen) :=
    if s.frameNum = 0x01 then
      (s.putResp 6 (es.flatMap ListedElement.bytes), BitVec.ofNat 8 bitsCnt,
        BitVec.ofNat 8 (es.length - bitsCnt),
        BitVec.ofNat 16 (6 + (es.flatMap ListedElement.bytes).length))
    else (s, s.stack.bitsCnt, s.stack.wordsCnt, s.stack.frameLen)
  ((s.copyRequest 3).putResp 3 [0xFE, bitsCnt, wordsCnt]).mbSlaveVerifyRespMsg m frameLen

def uploadForce (s : Slave ω) (m : MsgPack) (kind : AddrKind) (bytes : ListedElement → List Byte) :
    Slave ω :=
  let es := (s.force kind).take 250
  s.respond m 3 (0xFE :: BitVec.ofNat 8 es.length :: es.flatMap bytes)

def mbSlaveUploadForceBits (s : Slave ω) (m : MsgPack) : Slave ω :=
  s.uploadForce m .bit ListedElement.bitBytes

def mbSlaveUploadForceWords (s : Slave ω) (m : MsgPack) : Slave ω :=
  s.uploadForce m .word ListedElement.wordBytes

/-! ## Data Blocks -/

/-- The values of `D` elements, high byte first. -/
def dataBytes (s : Slave ω) (start cnt : Nat) : List Byte :=
  (List.range cnt).flatMap fun i => Register.read s.store (.word .D) (start + i)

def mbSlaveUploadGenDataBlockFromRam (s : Slave ω) (m : MsgPack) : Slave ω :=
  let frameNum := s.frameNum
  let readCnt := s.receiveBuff.bigPU16 4
  let start := s.receiveBuff.bigPU16 6
  if frameNum = 1 then
    if WordElement.rang .D < start.toNat + readCnt.toNat then s.mbSlaveErrorResp m .iliegalAddr
    else if readCnt.toNat < mbMaxRWordNum then
      s.respond m 3 (0xFE :: hiByte readCnt :: loByte readCnt ::
        s.dataBytes start.toNat readCnt.toNat)
    else s.respond m 3 (0x01 :: 0 :: 0x7D :: s.dataBytes start.toNat mbMaxRWordNum)
  else
    let preSendCnt := BitVec.ofInt 16 ((frameNum.toNat - 1 : Int) * mbMaxWWordNum)
    let remainCnt := readCnt - preSendCnt
    let start := start + preSendCnt - 1
    if remainCnt.toNat < mbMaxWWordNum then
      s.respond m 3 (0xFE :: hiByte remainCnt :: loByte remainCnt ::
        s.dataBytes start.toNat remainCnt.toNat)
    else s.respond m 4 (0 :: 0x7D :: s.dataBytes start.toNat mbMaxRWordNum)

/-! ## Files -/

def freeUpload (s : Slave ω) (f : DlFile) : Slave ω :=
  { s with files := update s.files f none }

/-- The transfer of an upload: the one under way, or a new one from where the file lies. -/
def openUpload (b : Board ω) (s : Slave ω) (f : DlFile) : FileTrans × Slave ω :=
  match s.files f with
  | some t => (t, s)
  | none =>
    let s := if f = .ucode ∨ f = .pid1 ∨ f = .pid2 then s.act b (.useFlashFile f) else s
    let file := b.userFile f s.world
    let t : FileTrans := ⟨0, 0, 0, file.fileLength, file, 0⟩
    (t, { s with files := update s.files f (some t) })

/-- The length of a piece of a file that starts at an offset, and whether it is the last. -/
def pieceLen (t : FileTrans) (offset : Nat) : BitVec 16 × Bool :=
  let rest := t.fileLen - BitVec.ofNat 32 offset
  if maxUploadFileLength < rest.toNat then (BitVec.ofNat 16 maxUploadFileLength, false)
  else (rest.setWidth 16, true)

/-- Put a piece of a file into the response, note the transfer as given, and end it with the last
piece, which gets the number `0xFE`. -/
def sendPiece (s : Slave ω) (m : MsgPack) (f : DlFile) (t : FileTrans) (offset : Nat) : Slave ω :=
  let (cnt, last) := pieceLen t offset
  let data := t.fileHandler.slice offset cnt.toNat
  let s := { s with files := update s.files f (some t) }.putResp 4 data
  let s : Slave ω := if last then { s with receiveBuff := s.receiveBuff.put 3 0xFE } else s
  let s := if s.frameNum = 0xFE then s.freeUpload f else s
  (s.copyRequest 4).mbSlaveVerifyRespMsg m (cnt + 4)

/-- `mb_slave_upload_file`. Where the first frame does not have the number of a first frame, the
number of bytes to send is not set. -/
def mbSlaveUploadFile (b : Board ω) (s : Slave ω) (m : MsgPack) (f : DlFile) : Slave ω :=
  let (t, s) := s.openUpload b f
  let frameNum := s.frameNum
  let next := { t with preFrame := frameNum, frameCnt := t.frameCnt + 1 }
  let offset := t.frameCnt.toNat * maxUploadFileLength
  if t.flag &&& 0x01 ≠ 0 then
    if frameNum.toNat = t.preFrame.toNat + 1 ∨ frameNum = 0xFE then s.sendPiece m f next offset
    else if frameNum = t.preFrame then
      s.sendPiece m f t ((frameNum - 1).toNat * maxUploadFileLength)
    else if frameNum = 0x01 ∧ t.preFrame = 0xFD then s.sendPiece m f next.countTurn offset
    else s.mbSlaveErrorResp m .iliegalData
  else if frameNum = 0x01 ∨ frameNum = 0xFE then
    s.sendPiece m f { t with flag := t.flag ||| 0x01, preFrame := frameNum, frameCnt := 1 } 0
  else (s.copyRequest 4).mbSlaveVerifyRespMsg m (s.stack.cnt + 4)

/-! ## The Function -/

/-- What an upload is for. -/
inductive UploadOp where
  | monitor (k : Monitor)
  | force (kind : AddrKind)
  | genDataBlock
  | file (f : DlFile)
deriving DecidableEq, Repr

/-- The `case` labels of `mb_slave_upload_manage`. -/
def uploadOp? (x : Byte) : Option UploadOp :=
  if x = 0x06 then some (.monitor .bits)
  else if x = 0x07 then some (.monitor .words)
  else if x = 0x08 then some (.force .bit)
  else if x = 0x09 then some (.force .word)
  else if x = 0x0A then some (.monitor .bitsWords)
  else if x = 0x46 then some .genDataBlock
  else if x = 0x63 then some (.file .ucode)
  else if x = 0x64 then some (.file .sysBlock)
  else if x = 0x65 then some (.file .dataBlock)
  else if x = 0x66 then some (.file .pouInfo)
  else if x = 0x67 then some (.file .gvt)
  else if x = 0x69 then some (.file .netcfg)
  else if x = 0x6C then some (.file .pid1)
  else if x = 0x6D then some (.file .pid2)
  else none

/-- The list of monitored elements that is sent. -/
def uploadMonitor (s : Slave ω) (m : MsgPack) : Monitor → Slave ω
  | .bits => s.mbSlaveUploadMonitorBits m
  | .words => s.mbSlaveUploadMonitorWords m
  | .bitsWords => s.mbSlaveUploadMonitorBitsWords m

/-- The cases of `mb_slave_upload_manage`. -/
def uploadCase (b : Board ω) (s : Slave ω) (m : MsgPack) : Option UploadOp → Slave ω
  | some (.monitor k) =>
    match s.passwordChecked b .monitor with
    | (true, s) => s.uploadMonitor m k
    | (false, s) => s.mbSlaveErrorResp m .passwordCheckFail
  | some (.force .bit) => s.mbSlaveUploadForceBits m
  | some (.force .word) => s.mbSlaveUploadForceWords m
  | some .genDataBlock => s.mbSlaveUploadGenDataBlockFromRam m
  | some (.file f) =>
    if b.uploadForbidFlag s.world then s.mbSlaveErrorResp m .uploadForbid
    else match s.passwordChecked b .upload with
      | (true, s) => s.mbSlaveUploadFile b m f
      | (false, s) => s.mbSlaveErrorResp m .passwordCheckFail
  | none => (s.countSlaveErr m).mbSlaveErrorResp m .iliegalCode

def mbSlaveUploadManage (b : Board ω) (s : Slave ω) (m : MsgPack) : Slave ω :=
  s.uploadCase b m (uploadOp? s.subCode)

end Slave

end Kalyke
