-- SUMMARY: The standard functions: reading and writing blocks of coils and registers.
import Kalyke.Modbus.Message

/-!
# Coils and Registers

The functions `0x01` to `0x10`. Each checks its request and then does all of it. The checks are a
function of their own, whose result is what the request asks for or the error it is refused with.
-/

namespace Kalyke

open List

/-- `MB_MAX_R_BIT_NUM`, `MB_MAX_W_BIT_NUM`, `MB_MAX_R_WORD_NUM` and `MB_MAX_W_WORD_NUM`. -/
def mbMaxRBitNum : Nat := 0x7D0
def mbMaxWBitNum : Nat := 0x7B0
def mbMaxRWordNum : Nat := 0x7D
def mbMaxWWordNum : Nat := 0x78

/-- The bits a coil can be written to: all but the inputs. -/
def MbElement.coil? : MbElement → Option BitElement
  | .bitX => none
  | t => t.bit?

/-- The values behind a word address: elements of 16 bits, or counters of 32. -/
inductive Register where
  | word (e : WordElement)
  | c32
deriving DecidableEq, Repr

/-- The register behind a class and a number. -/
def MbElement.register? (t : MbElement) (i : Nat) : Option Register :=
  if t = .wordC ∧ c16Rang ≤ i then some .c32 else t.word?.map .word

namespace Register

/-- What the range check of `mb_slave_read_holding_register` compares with. -/
def readRang : Register → Nat
  | word e => e.rang
  | c32 => cRang

/-- What the range check of `mb_slave_write_multiple_registers` compares with. -/
def writeRang : Register → Nat
  | word .C => cRang
  | word e => e.rang
  | c32 => cRang

def cell : Register → Nat → Cell
  | word e, i => .word e i
  | c32, i => .c32 i

/-- The bytes of a register in a response. -/
def read (st : Store) : Register → Nat → List Byte
  | word e, i => [hiByte (st.word e i), loByte (st.word e i)]
  | c32, i =>
    let x := st.c32 i
    [x.extractLsb' 24 8, x.extractLsb' 16 8, x.extractLsb' 8 8, x.extractLsb' 0 8]

/-- The number of these bytes. -/
def width : Register → Nat
  | word _ => 2
  | c32 => 4

@[simp] theorem length_read (st : Store) (r : Register) (i : Nat) :
    (r.read st i).length = r.width := by
  cases r <;> rfl

end Register

/-- One bit is packed into the current byte; after eight bits the next byte is begun. -/
def packStep (shift : Bool) (st : List Byte × Byte × Nat) (b : Bool) : List Byte × Byte × Nat :=
  let (done, value, bitsCnt) := if 8 ≤ st.2.2 then (st.1 ++ [st.2.1], 0, 0) else st
  let value := value + (BitVec.ofBool b).setWidth 8 <<< bitsCnt
  (done, if shift then value <<< 1 else value, bitsCnt + 1)

/-- The data bytes of the loops that pack bits. The first byte is there from the start. With
`shift`, the byte is shifted once more after each bit. -/
def packBits (shift : Bool) (bits : List Bool) : List Byte :=
  let (done, value, _) := bits.foldl (packStep shift) ([], 0, 0)
  done ++ [value]

variable {ω : Type}

namespace Slave

/-- The address in a request. -/
def reqAddr (s : Slave ω) : Nat := (s.receiveBuff.bigPU16 2).toNat

/-- The number of elements in a request. -/
def reqCnt (s : Slave ω) : Nat := (s.receiveBuff.bigPU16 4).toNat

/-! ## Reading -/

/-- The checks of `mb_slave_read_coils_status` and of its sibling for inputs, which reads `X` for
every class. -/
def readBitsRequest (s : Slave ω) (m : MsgPack) (base : BitElement → BitElement) :
    Except MbError (BitElement × Nat × Nat) :=
  if m.len ≠ 8 then .error .iliegalData
  else if mbMaxRBitNum < s.reqCnt then .error .iliegalData
  else match mbSlaveConvertElementInfo .bit s.reqAddr with
    | none => .error .iliegalAddr
    | some (t, addr) =>
      match t.bit? with
      | none => .error .iliegalAddr
      | some e =>
        if (base e).rang < addr + s.reqCnt - 1 then .error .iliegalAddr
        else .ok (base e, addr, s.reqCnt)

/-- `mb_slave_read_coils_status` and its sibling. -/
def readBits (s : Slave ω) (m : MsgPack) (base : BitElement → BitElement) (shift : Bool) :
    Slave ω :=
  if m.isBroadcastInfo then s
  else match s.readBitsRequest m base with
    | .error e => s.mbSlaveErrorResp m e
    | .ok (e, addr, cnt) =>
      let s := s.access ((range cnt).map fun i => .bit e (addr + i))
      let data := packBits shift ((range cnt).map fun i => s.store.bit e (addr + i))
      s.respond m 2 (BitVec.ofNat 8 data.length :: data)

def mbSlaveReadCoilsStatus (s : Slave ω) (m : MsgPack) : Slave ω := s.readBits m id false

def mbSlaveReadDescreteInputStatus (s : Slave ω) (m : MsgPack) : Slave ω :=
  s.readBits m (fun _ => .X) true

def readRegistersRequest (s : Slave ω) (m : MsgPack) : Except MbError (Register × Nat × Nat) :=
  if m.len ≠ 8 then .error .iliegalData
  else if mbMaxRWordNum < s.reqCnt then .error .iliegalAddr
  else match mbSlaveConvertElementInfo .word s.reqAddr with
    | none => .error .iliegalAddr
    | some (t, addr) =>
      match t.register? addr with
      | none => .error .iliegalAddr
      | some r =>
        if r.readRang < addr + s.reqCnt - 1 then .error .iliegalAddr
        else .ok (r, addr, s.reqCnt)

/-- `mb_slave_read_holding_register`. The number of data bytes is cut to a byte. -/
def mbSlaveReadHoldingRegister (s : Slave ω) (m : MsgPack) : Slave ω :=
  if m.isBroadcastInfo then s
  else match s.readRegistersRequest m with
    | .error e => s.mbSlaveErrorResp m e
    | .ok (r, addr, cnt) =>
      let s := s.access ((range cnt).map fun i => r.cell (addr + i))
      let data := (range cnt).flatMap fun i => r.read s.store (addr + i)
      s.respond m 2 (BitVec.ofNat 8 data.length :: data)

/-! ## Writing -/

/-- Write a value of 16 bits to a register. -/
def setRegister (s : Slave ω) (r : Register) (i : Nat) (x : BitVec 16) : Slave ω :=
  match r with
  | .word e => s.setWord e i x
  | .c32 => s.setC32 i (x.setWidth 32)

def writeCoilRequest (s : Slave ω) : Except MbError (BitElement × Nat × Byte) :=
  let value := s.receiveBuff.bigPU16 4
  if value ≠ 0xFF00 ∧ value ≠ 0 then .error .iliegalData
  else match mbSlaveConvertElementInfo .bit s.reqAddr with
    | none => .error .iliegalAddr
    | some (t, addr) =>
      match t.coil? with
      | none => .error .iliegalAddr
      | some e => .ok (e, addr, if 0 < value then 1 else 0)

/-- `mb_slave_write_single_coil`. The number of the element is not compared with the range. -/
def mbSlaveWriteSingleCoil (s : Slave ω) (m : MsgPack) : Slave ω :=
  match s.writeCoilRequest with
  | .error e => s.mbSlaveErrorResp m e
  | .ok (e, addr, x) => (s.setBit e addr x).respond m 6 []

def writeRegisterRequest (s : Slave ω) : Except MbError (Register × Nat) :=
  match mbSlaveConvertElementInfo .word s.reqAddr with
  | none => .error .iliegalAddr
  | some (t, addr) =>
    match t.register? addr with
    | none => .error .iliegalAddr
    | some r => .ok (r, addr)

def mbSlaveWriteRegister (s : Slave ω) (m : MsgPack) : Slave ω :=
  match s.writeRegisterRequest with
  | .error e => s.mbSlaveErrorResp m e
  | .ok (r, addr) => (s.setRegister r addr (s.receiveBuff.bigPU16 4)).respond m 6 []

/-- The number of data bytes in a request that writes a block. -/
def reqByteNum (s : Slave ω) : Nat := (s.receiveBuff 6).toNat

def writeCoilsRequest (s : Slave ω) : Except MbError (BitElement × Nat × Nat) :=
  let cnt := s.reqCnt
  let byteNum := s.reqByteNum
  if cnt / 8 ≠ byteNum ∧ cnt / 8 + 1 ≠ byteNum then .error .iliegalAddr
  else if cnt % 8 = 0 ∧ cnt / 8 ≠ byteNum then .error .iliegalAddr
  else if cnt % 8 ≠ 0 ∧ cnt / 8 + 1 ≠ byteNum then .error .iliegalAddr
  else if mbMaxWBitNum < cnt ∨ cnt < 1 then .error .iliegalAddr
  else match mbSlaveConvertElementInfo .bit s.reqAddr with
    | none => .error .iliegalAddr
    | some (t, addr) =>
      match t.coil? with
      | none => .error .iliegalAddr
      | some e => if e.rang < addr + cnt - 1 then .error .iliegalAddr else .ok (e, addr, cnt)

/-- The value of the `i`-th coil in the data of a request, `lcp_Value[i/8]>>(i%8) & 0x01`. -/
def coilValue (s : Slave ω) (i : Nat) : Byte := s.receiveBuff (7 + i / 8) >>> (i % 8) &&& 1

/-- Write coils one after the other. After the checks there is a byte for each eight coils begun,
so the loops of the source over bytes and bits end with the last coil. -/
def setCoils (s : Slave ω) (e : BitElement) (addr cnt : Nat) : Slave ω :=
  (range cnt).foldl (fun s i => s.setBit e (addr + i) (s.coilValue i)) s

def mbSlaveWriteMultipleCoils (s : Slave ω) (m : MsgPack) : Slave ω :=
  match s.writeCoilsRequest with
  | .error e => s.mbSlaveErrorResp m e
  | .ok (e, addr, cnt) => (s.setCoils e addr cnt).respond m 6 []

def writeRegistersRequest (s : Slave ω) : Except MbError (Register × Nat × Nat) :=
  let cnt := s.reqCnt
  if mbMaxWWordNum < cnt ∨ cnt < 1 then .error .iliegalData
  else if cnt ≠ s.reqByteNum / 2 then .error .iliegalData
  else match mbSlaveConvertElementInfo .word s.reqAddr with
    | none => .error .iliegalAddr
    | some (t, addr) =>
      match t.register? addr with
      | none => .error .iliegalAddr
      | some r => if r.writeRang < addr + cnt - 1 then .error .iliegalAddr else .ok (r, addr, cnt)

/-- Write the `i`-th register of a request. A counter of 32 bits takes four bytes of the data. -/
def setBlock (s : Slave ω) (r : Register) (addr i : Nat) : Slave ω :=
  match r with
  | .word e => s.setWord e (addr + i) (s.receiveBuff.bigPU16 (7 + 2 * i))
  | .c32 => s.setC32 (addr + i) (s.receiveBuff.bigPU32 (7 + 4 * i))

/-- Write registers one after the other. -/
def setRegisters (s : Slave ω) (r : Register) (addr cnt : Nat) : Slave ω :=
  (range cnt).foldl (fun s i => s.setBlock r addr i) s

def mbSlaveWriteMultipleRegisters (s : Slave ω) (m : MsgPack) : Slave ω :=
  match s.writeRegistersRequest with
  | .error e => s.mbSlaveErrorResp m e
  | .ok (r, addr, cnt) => (s.setRegisters r addr cnt).respond m 6 []

end Slave

end Kalyke
