-- SUMMARY: The Modbus slave's buffers, checksum, message packs and state, and how it answers.
import Kalyke.Exec.Frames
import Kalyke.Modbus.MapTable

/-!
# Messages

A message pack holds the frame received and a buffer for the answer. Both buffers are longer than
the frames in them and keep what earlier frames left, so they are total functions here. What is
answered is recorded: every call of a response function appends the bytes it is given.
-/

namespace Kalyke

open List

abbrev Byte := BitVec 8

/-- A buffer of bytes. -/
abbrev Buff := Nat → Byte

namespace Buff

def bytes (b : Buff) (n : Nat) : List Byte := (range n).map b

/-- Some bytes from one on. -/
def slice (b : Buff) (start len : Nat) : List Byte := (range len).map fun i => b (start + i)

/-- `GET_BIGPU16_DATA`. -/
def bigPU16 (b : Buff) (i : Nat) : BitVec 16 := b i ++ b (i + 1)

/-- `GET_BIGPU32_DATA`. -/
def bigPU32 (b : Buff) (i : Nat) : BitVec 32 := b.bigPU16 i ++ b.bigPU16 (i + 2)

/-- A halfword read in the byte order of the machine, low byte first. -/
def nativePU16 (b : Buff) (i : Nat) : BitVec 16 := b (i + 1) ++ b i

/-- A word read in the byte order of the machine. -/
def nativePU32 (b : Buff) (i : Nat) : BitVec 32 := b.nativePU16 (i + 2) ++ b.nativePU16 i

/-- `plc_get_file_length` at `FILE_LEN_INFO_START_INDEX`. -/
def fileLength (file : Buff) : BitVec 32 := file.nativePU32 6

/-- Store a byte. -/
def put (b : Buff) (i : Nat) (x : Byte) : Buff := Function.update b i x

/-- Store bytes one behind the other. -/
def putList (b : Buff) (i : Nat) (xs : List Byte) : Buff :=
  fun k => if i ≤ k then xs.getD (k - i) (b k) else b k

/-- Copy the bytes from `i` up to `n` of another buffer to the same places. -/
def copy (b src : Buff) (i n : Nat) : Buff := fun k => if i ≤ k ∧ k < n then src k else b k

@[simp] theorem length_bytes (b : Buff) (n : Nat) : (b.bytes n).length = n := by simp [bytes]

theorem bytes_congr {b b' : Buff} {n : Nat} (h : ∀ i < n, b i = b' i) : b.bytes n = b'.bytes n := by
  refine map_congr_left fun i hi => h i ?_
  simpa using hi

theorem bytes_succ (b : Buff) (n : Nat) : b.bytes (n + 1) = b.bytes n ++ [b n] := by
  simp [bytes, range_succ]

/-- Two bytes stored behind the first `n`. -/
theorem bytes_put_two (b : Buff) (n : Nat) (x y : Byte) :
    ((b.put n x).put (n + 1) y).bytes (n + 2) = b.bytes n ++ [x, y] := by
  have hkeep : ((b.put n x).put (n + 1) y).bytes n = b.bytes n := by
    refine bytes_congr fun i hi => ?_
    simp [put, show i ≠ n by omega, show i ≠ n + 1 by omega]
  rw [bytes_succ, bytes_succ, hkeep]
  simp [put]

theorem bytes_copy (b src : Buff) (n : Nat) : (b.copy src 0 n).bytes n = src.bytes n :=
  bytes_congr fun i hi => by simp [copy, hi]

theorem bytes_putList (b : Buff) (n : Nat) (xs : List Byte) :
    (b.putList n xs).bytes (n + xs.length) = b.bytes n ++ xs := by
  refine ext_getElem (by simp) fun i h₁ h₂ => ?_
  simp only [length_bytes] at h₁
  by_cases hi : i < n
  · rw [getElem_append_left (by simpa using hi)]
    simp [bytes, putList, show ¬ n ≤ i by omega]
  · rw [getElem_append_right (by simpa using hi)]
    simp [bytes, putList, show n ≤ i by omega, show i - n < xs.length by omega]

end Buff

/-- The high byte of a halfword. -/
def hiByte (x : BitVec 16) : Byte := x.extractLsb' 8 8

/-- The low byte of a halfword. -/
def loByte (x : BitVec 16) : Byte := x.extractLsb' 0 8

/-! ## Checksum -/

/-- `gcv_CRCHi`. -/
def crcHiTable : List Byte :=
  [0x00, 0xC1, 0x81, 0x40, 0x01, 0xC0, 0x80, 0x41, 0x01, 0xC0, 0x80, 0x41, 0x00, 0xC1, 0x81, 0x40,
   0x01, 0xC0, 0x80, 0x41, 0x00, 0xC1, 0x81, 0x40, 0x00, 0xC1, 0x81, 0x40, 0x01, 0xC0, 0x80, 0x41,
   0x01, 0xC0, 0x80, 0x41, 0x00, 0xC1, 0x81, 0x40, 0x00, 0xC1, 0x81, 0x40, 0x01, 0xC0, 0x80, 0x41,
   0x00, 0xC1, 0x81, 0x40, 0x01, 0xC0, 0x80, 0x41, 0x01, 0xC0, 0x80, 0x41, 0x00, 0xC1, 0x81, 0x40,
   0x01, 0xC0, 0x80, 0x41, 0x00, 0xC1, 0x81, 0x40, 0x00, 0xC1, 0x81, 0x40, 0x01, 0xC0, 0x80, 0x41,
   0x00, 0xC1, 0x81, 0x40, 0x01, 0xC0, 0x80, 0x41, 0x01, 0xC0, 0x80, 0x41, 0x00, 0xC1, 0x81, 0x40,
   0x00, 0xC1, 0x81, 0x40, 0x01, 0xC0, 0x80, 0x41, 0x01, 0xC0, 0x80, 0x41, 0x00, 0xC1, 0x81, 0x40,
   0x01, 0xC0, 0x80, 0x41, 0x00, 0xC1, 0x81, 0x40, 0x00, 0xC1, 0x81, 0x40, 0x01, 0xC0, 0x80, 0x41,
   0x01, 0xC0, 0x80, 0x41, 0x00, 0xC1, 0x81, 0x40, 0x00, 0xC1, 0x81, 0x40, 0x01, 0xC0, 0x80, 0x41,
   0x00, 0xC1, 0x81, 0x40, 0x01, 0xC0, 0x80, 0x41, 0x01, 0xC0, 0x80, 0x41, 0x00, 0xC1, 0x81, 0x40,
   0x00, 0xC1, 0x81, 0x40, 0x01, 0xC0, 0x80, 0x41, 0x01, 0xC0, 0x80, 0x41, 0x00, 0xC1, 0x81, 0x40,
   0x01, 0xC0, 0x80, 0x41, 0x00, 0xC1, 0x81, 0x40, 0x00, 0xC1, 0x81, 0x40, 0x01, 0xC0, 0x80, 0x41,
   0x00, 0xC1, 0x81, 0x40, 0x01, 0xC0, 0x80, 0x41, 0x01, 0xC0, 0x80, 0x41, 0x00, 0xC1, 0x81, 0x40,
   0x01, 0xC0, 0x80, 0x41, 0x00, 0xC1, 0x81, 0x40, 0x00, 0xC1, 0x81, 0x40, 0x01, 0xC0, 0x80, 0x41,
   0x01, 0xC0, 0x80, 0x41, 0x00, 0xC1, 0x81, 0x40, 0x00, 0xC1, 0x81, 0x40, 0x01, 0xC0, 0x80, 0x41,
   0x00, 0xC1, 0x81, 0x40, 0x01, 0xC0, 0x80, 0x41, 0x01, 0xC0, 0x80, 0x41, 0x00, 0xC1, 0x81, 0x40]

/-- `gcv_CRCLo`. -/
def crcLoTable : List Byte :=
  [0x00, 0xC0, 0xC1, 0x01, 0xC3, 0x03, 0x02, 0xC2, 0xC6, 0x06, 0x07, 0xC7, 0x05, 0xC5, 0xC4, 0x04,
   0xCC, 0x0C, 0x0D, 0xCD, 0x0F, 0xCF, 0xCE, 0x0E, 0x0A, 0xCA, 0xCB, 0x0B, 0xC9, 0x09, 0x08, 0xC8,
   0xD8, 0x18, 0x19, 0xD9, 0x1B, 0xDB, 0xDA, 0x1A, 0x1E, 0xDE, 0xDF, 0x1F, 0xDD, 0x1D, 0x1C, 0xDC,
   0x14, 0xD4, 0xD5, 0x15, 0xD7, 0x17, 0x16, 0xD6, 0xD2, 0x12, 0x13, 0xD3, 0x11, 0xD1, 0xD0, 0x10,
   0xF0, 0x30, 0x31, 0xF1, 0x33, 0xF3, 0xF2, 0x32, 0x36, 0xF6, 0xF7, 0x37, 0xF5, 0x35, 0x34, 0xF4,
   0x3C, 0xFC, 0xFD, 0x3D, 0xFF, 0x3F, 0x3E, 0xFE, 0xFA, 0x3A, 0x3B, 0xFB, 0x39, 0xF9, 0xF8, 0x38,
   0x28, 0xE8, 0xE9, 0x29, 0xEB, 0x2B, 0x2A, 0xEA, 0xEE, 0x2E, 0x2F, 0xEF, 0x2D, 0xED, 0xEC, 0x2C,
   0xE4, 0x24, 0x25, 0xE5, 0x27, 0xE7, 0xE6, 0x26, 0x22, 0xE2, 0xE3, 0x23, 0xE1, 0x21, 0x20, 0xE0,
   0xA0, 0x60, 0x61, 0xA1, 0x63, 0xA3, 0xA2, 0x62, 0x66, 0xA6, 0xA7, 0x67, 0xA5, 0x65, 0x64, 0xA4,
   0x6C, 0xAC, 0xAD, 0x6D, 0xAF, 0x6F, 0x6E, 0xAE, 0xAA, 0x6A, 0x6B, 0xAB, 0x69, 0xA9, 0xA8, 0x68,
   0x78, 0xB8, 0xB9, 0x79, 0xBB, 0x7B, 0x7A, 0xBA, 0xBE, 0x7E, 0x7F, 0xBF, 0x7D, 0xBD, 0xBC, 0x7C,
   0xB4, 0x74, 0x75, 0xB5, 0x77, 0xB7, 0xB6, 0x76, 0x72, 0xB2, 0xB3, 0x73, 0xB1, 0x71, 0x70, 0xB0,
   0x50, 0x90, 0x91, 0x51, 0x93, 0x53, 0x52, 0x92, 0x96, 0x56, 0x57, 0x97, 0x55, 0x95, 0x94, 0x54,
   0x9C, 0x5C, 0x5D, 0x9D, 0x5F, 0x9F, 0x9E, 0x5E, 0x5A, 0x9A, 0x9B, 0x5B, 0x99, 0x59, 0x58, 0x98,
   0x88, 0x48, 0x49, 0x89, 0x4B, 0x8B, 0x8A, 0x4A, 0x4E, 0x8E, 0x8F, 0x4F, 0x8D, 0x4D, 0x4C, 0x8C,
   0x44, 0x84, 0x85, 0x45, 0x87, 0x47, 0x46, 0x86, 0x82, 0x42, 0x43, 0x83, 0x41, 0x81, 0x80, 0x40]

/-- One byte of the checksum, on the high and the low byte of the register. -/
def crcStep (crc : Byte × Byte) (b : Byte) : Byte × Byte :=
  let i := (crc.2 ^^^ b).toNat
  (crcLoTable.getD i 0, crc.1 ^^^ crcHiTable.getD i 0)

def calcCrc16 (xs : List Byte) : BitVec 16 :=
  let crc := xs.foldl crcStep (0xFF, 0xFF)
  crc.1 ++ crc.2

/-- Bytes with their checksum behind them, low byte first. -/
def withCrc (xs : List Byte) : List Byte := xs ++ [loByte (calcCrc16 xs), hiByte (calcCrc16 xs)]

/-! ## Message Packs -/

/-- `__MB_MSG_SENDER_E`: the ports messages come from. -/
inductive Sender where
  | com0 | com1 | com2 | com3 | usb | tcp | tcp4G
deriving DecidableEq, Repr

/-- The error codes of exception responses. -/
inductive MbError where
  | iliegalCode | iliegalAddr | iliegalData | errorSlaveOp | errorSlaveBusy | passwordCheckFail
  | errorFrame | uploadForbid
deriving DecidableEq, Repr

/-- The numbers of the error codes. -/
def MbError.code : MbError → Byte
  | iliegalCode => 0x01 | iliegalAddr => 0x02 | iliegalData => 0x03 | errorSlaveOp => 0x04
  | errorSlaveBusy => 0x06 | passwordCheckFail => 0x09 | errorFrame => 0x18 | uploadForbid => 0x22

/-- A frame that was answered, by `mb_slave_verify_resp_msg` or by `mb_slave_error_resp`. -/
inductive Resp where
  | normal (frame : List Byte)
  | exception (frame : List Byte)
deriving DecidableEq, Repr

/-- What `md_slave_msg_pack` holds from the start: where the message comes from, its length, and
the functions that answer. A task that hands a message over sets exactly one function that is
called: `resp_func`, or `tcp_resp_func` for a TCP client. -/
structure MsgPack where
  sender : Sender
  receiveLen : BitVec 16
  isBroadcastInfo : Bool
  slaveID : Byte
  isTcpClient : Bool
  respFunc : Bool
  tcpRespFunc : Bool
  answers : respFunc = !(isTcpClient && tcpRespFunc) ∧ (sender = .usb → respFunc = true)

namespace MsgPack

/-- The number of bytes received. -/
def len (m : MsgPack) : Nat := m.receiveLen.toNat

/-- The response functions are called with a response: what each of them sends. -/
def callRespFuncs (m : MsgPack) (r : Resp) : List Resp :=
  if m.sender = .usb then [r]
  else
    (if m.respFunc then [r] else []) ++ if m.isTcpClient && m.tcpRespFunc then [r] else []

/-- A response is sent once. -/
theorem callRespFuncs_eq (m : MsgPack) (r : Resp) : m.callRespFuncs r = [r] := by
  obtain ⟨hresp, -⟩ := m.answers
  unfold callRespFuncs
  split
  · rfl
  · rw [hresp]
    cases m.isTcpClient && m.tcpRespFunc <;> rfl

end MsgPack

/-- `mb_slave_diagnositic_info_st`. -/
structure DiagInfo where
  slaveId : Byte
  listenOnlyMode : Bool
  busPackageCnt : BitVec 16
  busCrcErrCnt : BitVec 16
  slaveErrCnt : BitVec 16
  slavePackageCnt : BitVec 16
  slaveNoRespCnt : BitVec 16
  busCharOverrunCnt : BitVec 16
deriving DecidableEq, Repr

/-- `mb_monitor_element_t`, which is also `mb_force_element_t`. -/
structure ListedElement where
  elementType : MbElement
  elementAddr : Nat
  modbusAddr : BitVec 16
  elementValue : BitVec 16
deriving DecidableEq, Repr

/-- The lists of monitored elements. -/
inductive Monitor where
  | bits | words | bitsWords
deriving DecidableEq, Repr

/-- `MB_DL_FILE_CNT`: the files that can be downloaded. -/
inductive DlFile where
  | ucode | sysBlock | dataBlock | pouInfo | gvt | netcfg | sysUpgrade | plcCbin | pid1 | pid2
deriving DecidableEq, Repr

/-- `mb_file_trans_st`: a transfer under way. `fileHandler` points to a buffer of `room` bytes. -/
structure FileTrans where
  frameCnt : Byte
  preFrame : Byte
  flag : Byte
  fileLen : BitVec 32
  fileHandler : Buff
  room : Nat

/-- What local variables hold before they are set. -/
structure Stack where
  elementCnt : BitVec 16
  frameLen : BitVec 16
  bitsCnt : Byte
  wordsCnt : Byte
  cnt : BitVec 16

/-- The state of the slave while it handles a message. The buffers and the error code belong to the
message pack. `sent` lists what was answered, and `accessed` the elements that the functions for
elements read or wrote. `stuck` says that a loop was entered that does not end, or a pointer was
followed that was never set. `world` is all that lies in other files: passwords, the clock, flash
memory. -/
structure Slave (ω : Type) where
  receiveBuff : Buff
  respBuff : Buff
  errorCode : Option MbError
  sent : List Resp
  accessed : List Cell
  stuck : Bool
  store : Store
  diag : Sender → DiagInfo
  force : AddrKind → List ListedElement
  monitor : Monitor → List ListedElement
  files : DlFile → Option FileTrans
  powerOnAutoRun : Bool
  cmdRun : Bool
  cmdReboot : Bool
  stack : Stack
  world : ω

variable {ω : Type}

namespace Slave

/-- The frame under way has the checksum it was sent with. -/
def CrcOk (s : Slave ω) (m : MsgPack) : Prop :=
  s.receiveBuff.nativePU16 (m.len - 2) = calcCrc16 (s.receiveBuff.bytes (m.len - 2))

instance (s : Slave ω) (m : MsgPack) : Decidable (s.CrcOk m) := by unfold CrcOk; infer_instance

/-- The function code of the frame under way. -/
def functionCode (s : Slave ω) : Byte := s.receiveBuff 1

/-- The sub-code of the frames of the vendor. -/
def subCode (s : Slave ω) : Byte := s.receiveBuff 2

def countSlaveErr (s : Slave ω) (m : MsgPack) : Slave ω :=
  let info := s.diag m.sender
  { s with
    diag := Function.update s.diag m.sender { info with slaveErrCnt := info.slaveErrCnt + 1 } }

/-! ## Responses -/

def mbSlaveErrorResp (s : Slave ω) (m : MsgPack) (e : MbError) : Slave ω :=
  if m.isBroadcastInfo then { s with errorCode := some e }
  else
    let resp := s.respBuff.put 0 (s.receiveBuff 0)
    let resp := resp.put 1 (s.receiveBuff 1 + 0x80)
    let resp := resp.put 2 e.code
    let crc := calcCrc16 (resp.bytes 3)
    let resp := resp.put 3 (loByte crc)
    let resp := resp.put 4 (hiByte crc)
    { s with
      errorCode := some e, respBuff := resp
      sent := s.sent ++ m.callRespFuncs (.exception (resp.bytes 5)) }

/-- `mb_slave_verify_resp_msg` with `msv_RespLen`: append the checksum and answer, also to a
broadcast. -/
def mbSlaveVerifyRespMsg (s : Slave ω) (m : MsgPack) (respLen : BitVec 16) : Slave ω :=
  let crc := calcCrc16 (s.respBuff.bytes respLen.toNat)
  let resp := s.respBuff.put respLen.toNat (loByte crc)
  let resp := resp.put (respLen.toNat + 1) (hiByte crc)
  { s with
    respBuff := resp
    sent := s.sent ++ m.callRespFuncs (.normal (resp.bytes (respLen + 2).toNat)) }

/-- Copy the first `n` bytes of the request to the response. -/
def copyRequest (s : Slave ω) (n : Nat) : Slave ω :=
  { s with respBuff := s.respBuff.copy s.receiveBuff 0 n }

/-- Store bytes of the response. -/
def putResp (s : Slave ω) (i : Nat) (xs : List Byte) : Slave ω :=
  { s with respBuff := s.respBuff.putList i xs }

/-- Answer with the first `n` bytes of the request and some bytes behind them. -/
def respond (s : Slave ω) (m : MsgPack) (n : Nat) (data : List Byte) : Slave ω :=
  ((s.copyRequest n).putResp n data).mbSlaveVerifyRespMsg m (BitVec.ofNat 16 (n + data.length))

/-! ## Laws of the Responses

The frame of a response is read back from the buffer. `respond` writes every byte it sends, so what
the buffer held before does not matter; `mbSlaveVerifyRespMsg` alone sends what is there. -/

section Laws

variable (s : Slave ω) (m : MsgPack)

theorem mbSlaveVerifyRespMsg_sent {respLen : BitVec 16} (h : respLen.toNat + 2 < 2 ^ 16) :
    (s.mbSlaveVerifyRespMsg m respLen).sent =
      s.sent ++ [.normal (withCrc (s.respBuff.bytes respLen.toNat))] := by
  have hlen : (respLen + 2).toNat = respLen.toNat + 2 := by
    exact Nat.mod_eq_of_lt h
  simp only [mbSlaveVerifyRespMsg, MsgPack.callRespFuncs_eq, hlen, Buff.bytes_put_two, withCrc]

theorem respond_sent {n : Nat} {data : List Byte} (h : n + data.length + 2 < 2 ^ 16) :
    (s.respond m n data).sent =
      s.sent ++ [.normal (withCrc (s.receiveBuff.bytes n ++ data))] := by
  have hlen : (BitVec.ofNat 16 (n + data.length)).toNat = n + data.length := by
    exact Nat.mod_eq_of_lt (by omega)
  rw [respond, mbSlaveVerifyRespMsg_sent _ _ (by rw [hlen]; exact h), hlen]
  simp only [putResp, copyRequest, Buff.bytes_putList, Buff.bytes_copy]

/-- Whatever its length, a response is sent once. -/
theorem mbSlaveVerifyRespMsg_normal (respLen : BitVec 16) :
    ∃ frame, (s.mbSlaveVerifyRespMsg m respLen).sent = s.sent ++ [.normal frame] := by
  simp only [mbSlaveVerifyRespMsg, MsgPack.callRespFuncs_eq]
  exact ⟨_, rfl⟩

theorem respond_normal (n : Nat) (data : List Byte) :
    ∃ frame, (s.respond m n data).sent = s.sent ++ [.normal frame] :=
  mbSlaveVerifyRespMsg_normal _ m _

theorem mbSlaveErrorResp_sent (e : MbError) :
    (s.mbSlaveErrorResp m e).sent = s.sent ++ if m.isBroadcastInfo then [] else
      [.exception (withCrc [s.receiveBuff 0, s.receiveBuff 1 + 0x80, e.code])] := by
  unfold mbSlaveErrorResp
  split
  · simp
  · simp [MsgPack.callRespFuncs_eq, withCrc, Buff.bytes, range_succ, Buff.put]

@[simp] theorem mbSlaveErrorResp_errorCode (e : MbError) :
    (s.mbSlaveErrorResp m e).errorCode = some e := by
  unfold mbSlaveErrorResp
  split <;> rfl

@[simp] theorem mbSlaveErrorResp_store (e : MbError) :
    (s.mbSlaveErrorResp m e).store = s.store := by
  unfold mbSlaveErrorResp
  split <;> rfl

@[simp] theorem mbSlaveErrorResp_accessed (e : MbError) :
    (s.mbSlaveErrorResp m e).accessed = s.accessed := by
  unfold mbSlaveErrorResp
  split <;> rfl

end Laws

/-! ## Elements -/

/-- Record that elements are read or written. -/
def access (s : Slave ω) (cs : List Cell) : Slave ω := { s with accessed := s.accessed ++ cs }

/-- `plc_set_bit_element_value`: every value but zero sets the element. -/
def setBit (s : Slave ω) (e : BitElement) (i : Nat) (x : Byte) : Slave ω :=
  { s with store := s.store.setBit (.elem e) i (x != 0) }.access [.bit e i]

/-- `SET_D_ELEMENT_VALUE` and its siblings. -/
def setWord (s : Slave ω) (e : WordElement) (i : Nat) (x : BitVec 16) : Slave ω :=
  { s with store := s.store.setWord (.elem e) i x }.access [.word e i]

/-- `SET_C32_CURRENT_VALUE`. -/
def setC32 (s : Slave ω) (i : Nat) (x : BitVec 32) : Slave ω :=
  { s with store := s.store.setC32 i x }.access [.c32 i]

end Slave

end Kalyke
