-- SUMMARY: The instruction `MODRW`, which builds a request from its operands.
import Kalyke.Master.ModbusIns

/-!
# MODRW

`run_ci_modrw_ins`. The operands give the address of the slave, the function, the start address, the
number of elements or the value, and the element where data are taken from or stored.

The lengths are computed from the number of elements before that operand has been read, so from
whatever the variable happens to hold. The loops that fill in data count in a byte and do not end
for 256 bytes or more. The request is written over what the send buffer holds, and two bytes more
than the request and its checksum are sent.
-/

namespace Kalyke

/-- The numbers of bytes that `MODRW` computes: `TxByteCnt`, `RxByteCnt` and `tmpu16`. -/
structure ModrwCounts where
  txByteCnt : BitVec 16
  rxByteCnt : BitVec 16
  tmpu16 : BitVec 16
deriving DecidableEq, Repr

/-- The bytes that so many bits fill. -/
def bytesOfBits (cnt : BitVec 16) : BitVec 16 :=
  if cnt &&& 7 ≠ 0 then (cnt >>> 3) + 1 else cnt >>> 3

/-- The first `switch` of `run_ci_modrw_ins`, on the number of elements as it stands then. -/
def modrwCounts (s3 s5 : BitVec 16) : Option ModrwCounts :=
  match MasterFunc.ofCode s3 with
  | some .readCoilsStatus | some .readDescreteInputStatus => some ⟨6, bytesOfBits s5, 0⟩
  | some .readHoldingRegister | some .readMultipleInputRegister => some ⟨6, s5 <<< 1, 0⟩
  | some .writeSingleCoil => some ⟨6, 0, 1⟩
  | some .writeRegister => some ⟨6, 0, 2⟩
  | some .writeMultipleCoils => some ⟨7 + bytesOfBits s5, 0, bytesOfBits s5⟩
  | some .writeMultipleRegisters => some ⟨7 + (s5 <<< 1), 0, s5 <<< 1⟩
  | some .diagDiagnostic | none => none

/-- The element where data are taken from or stored. The index register is not checked. -/
def modrwElement (i : BodyInput) : Option (WordArea × Int) :=
  match (AddrType.ofCode (i.ucode.getPU8 (i.pc + 23))).bind (masterOperand i.level) with
  | none => none
  | some (area, indexed) =>
    if (area.rang : Int) ≤ startElement i 22 indexed then none
    else some (area, startElement i 22 indexed)

/-- A byte of a block of words that follow one another, with the low or the high byte first. -/
def dataByte (highFirst : Bool) (word : Nat → BitVec 16) (k : Nat) : Byte :=
  if decide (k % 2 = 0) = highFirst then hiByte (word (k / 2)) else loByte (word (k / 2))

/-- The bytes a request begins with. -/
def modrwHeader (s2 s3 s4 s5 : BitVec 16) : List Byte :=
  [loByte s2, loByte s3, hiByte s4, loByte s4, hiByte s5, loByte s5]

/-- The second `switch`: the request over what the buffer holds. None if a loop does not end. -/
def modrwFill (left : Buff) (s2 s3 s4 s5 : BitVec 16) (cnts : ModrwCounts)
    (word : Nat → BitVec 16) : Option Buff :=
  let header := left.putList 0 (modrwHeader s2 s3 s4 s5)
  let tx := cnts.txByteCnt.toNat
  match MasterFunc.ofCode s3 with
  | some .writeMultipleCoils =>
    if 256 ≤ tx then none
    else some ((header.put 6 (loByte cnts.tmpu16)).putList 7
      ((List.range (tx - 7)).map (dataByte false word)))
  | some .writeMultipleRegisters =>
    if 256 ≤ tx then none
    else some ((header.put 6 (loByte cnts.tmpu16)).putList 7
      ((List.range (tx - 7)).map (dataByte true word)))
  | _ => some header

/-- The request, its checksum, and what stands behind: the bytes that are sent. Their number is one
that counts in a byte, plus two. -/
def modrwFrame (b : Buff) (txByteCnt : BitVec 16) : List Byte :=
  let tx := txByteCnt.toNat
  let crc := calcCrc16 (b.bytes tx)
  ((b.put (tx + 1) (hiByte crc)).put tx (loByte crc)).bytes ((tx + 2) % 256 + 2)

/-- The branch of `run_ci_modrw_ins` that sends, on the port `n`. `stale` is the number of elements
before it is read. None if the instruction does not return. -/
def modrwSend (ports : UartPorts) (inFront : InFront) (left : Buff) (stale : BitVec 16)
    (i : BodyInput) (n edge : Nat) (s2 : BitVec 16) (s : Store) : Option MasterResult :=
  let port := ports.port n
  match i.word 10 0 s with
  | .error e => some (.leave (.err e) s)
  | .ok s3 =>
    match modrwCounts s3 stale with
    | none => some (.leave (.err .operands) (port.refuse .iliegalCode (s.setEdge edge true)))
    | some cnts =>
      match i.word 14 0 s with
      | .error e => some (.leave (.err e) s)
      | .ok s4 =>
        match i.word 18 0 s with
        | .error e => some (.leave (.err e) s)
        | .ok s5 =>
          match modrwElement i with
          | none => some (.leave (.err .overElementRang) (s.setEdge edge true))
          | some (area, rx) =>
            if (area.rang : Int) - cnts.rxByteCnt.toNat < rx ∨
                (area.rang : Int) - (cnts.tmpu16 >>> 1).toNat < rx then
              some (.leave (.err .overElementRang) (s.setEdge edge true))
            else
              (modrwFill left s2 s3 s4 s5 cnts fun k => wordAt inFront s area (rx + k)).map fun b =>
                ⟨.pass, (port.clearFlags s).setEdge edge true,
                  some ⟨n, modrwFrame b cnts.txByteCnt, .elements area rx,
                    BitVec.ofInt 16 (area.rang - rx), false⟩⟩

def runCiModrwIns (ports : UartPorts) (free : Nat → Bool) (inFront : InFront) (left : Buff)
    (stale : BitVec 16) (i : BodyInput) : Option MasterResult :=
  match openPort ports i with
  | .error r => some r
  | .ok n =>
    let port := ports.port n
    let edge := i.ucode.getPU16 (i.pc + 26)
    let s := initEdge edge i.store
    match i.word 6 0 s with
    | .error e => some (.leave (.err e) s)
    | .ok s2 =>
      if s2 = port.getSdValue .modbusId s then
        some (.leave (.err .operands) (port.refuse .sameSlaveIdErr (s.setEdge edge true)))
      else if getPowerFlow i.inPF = true ∧ s.edgeValue edge = false ∧ free n = true then
        modrwSend ports inFront left stale i n edge s2 s
      else if getPowerFlow i.inPF then some (.leave .pass (s.setEdge edge true))
      else some (.leave .pass (s.setEdge edge false))

section

variable {ports : UartPorts} {free : Nat → Bool} {inFront : InFront} {left : Buff}
  {stale s2 : BitVec 16} {i : BodyInput} {n edge : Nat} {s : Store} {r : MasterResult}

/-- What the branch that sends leaves in the edge memory: it is set if a request is sent. -/
theorem modrwSend_spec (h : modrwSend ports inFront left stale i n edge s2 s = some r) :
    r.store.edgeInit = s.edgeInit ∧ (r.request ≠ none → r.store.edgeValue edge = true) := by
  have hleave {ret : MasterRet} {s' : Store} (h : some (MasterResult.leave ret s') = some r)
      (hs : s'.edgeInit = s.edgeInit) :
      r.store.edgeInit = s.edgeInit ∧ (r.request ≠ none → r.store.edgeValue edge = true) := by
    obtain rfl := Option.some.inj h
    exact ⟨hs, fun hno => absurd rfl hno⟩
  unfold modrwSend at h
  split at h
  · exact hleave h rfl
  · split at h
    · exact hleave h rfl
    · split at h
      · exact hleave h rfl
      · split at h
        · exact hleave h rfl
        · split at h
          · exact hleave h rfl
          · split at h
            · exact hleave h rfl
            · obtain ⟨b, -, rfl⟩ := Option.map_eq_some_iff.mp h
              exact ⟨rfl, fun _ => by simp [Store.setEdge]⟩

end

end Kalyke
