-- SUMMARY: The instruction `MODBUS`, which sends a request laid out in elements by the user program.
import Kalyke.Master.Port

/-!
# MODBUS

`run_ci_modbus_ins`. The request lies in the low bytes of word elements from an operand on, without
its checksum; the answer goes to elements from a second operand on. A request is sent if the power
flow is on, the edge memory is off and the driver of the port is idle.
-/

namespace Kalyke

/-- The function codes a master sends. -/
inductive MasterFunc where
  | readCoilsStatus | readDescreteInputStatus | readHoldingRegister | readMultipleInputRegister
  | writeSingleCoil | writeRegister | diagDiagnostic | writeMultipleCoils | writeMultipleRegisters
deriving DecidableEq, Repr

namespace MasterFunc

def code : MasterFunc → BitVec 16
  | readCoilsStatus => 0x01 | readDescreteInputStatus => 0x02 | readHoldingRegister => 0x03
  | readMultipleInputRegister => 0x04 | writeSingleCoil => 0x05 | writeRegister => 0x06
  | diagDiagnostic => 0x08 | writeMultipleCoils => 0x0F | writeMultipleRegisters => 0x10

def all : List MasterFunc :=
  [readCoilsStatus, readDescreteInputStatus, readHoldingRegister, readMultipleInputRegister,
   writeSingleCoil, writeRegister, diagDiagnostic, writeMultipleCoils, writeMultipleRegisters]

def ofCode (x : BitVec 16) : Option MasterFunc := all.find? fun f => f.code == x

theorem ofCode_code (f : MasterFunc) : ofCode f.code = some f := by cases f <;> rfl

theorem code_of_ofCode {x : BitVec 16} {f : MasterFunc} (h : ofCode x = some f) : f.code = x := by
  have hcode := List.find?_some h
  exact beq_iff_eq.mp hcode

end MasterFunc

/-- The element an operand of `MODBUS` begins with. An operand that is refused is refused with the
edge memory set, but for an index register that does not exist. -/
def modbusElement (i : BodyInput) (q : Nat) : Except (PlcErr × Bool) (WordArea × Int) :=
  match (AddrType.ofCode (i.ucode.getPU8 (i.pc + q + 1))).bind (masterOperand i.level) with
  | none => .error (.elementType, true)
  | some (area, indexed) =>
    if indexed = true ∧ WordElement.Z.rang < i.ucode.getPU8 (i.pc + q) then
      .error (.overElementRang, false)
    else if (area.rang : Int) ≤ startElement i q indexed then .error (.overElementRang, true)
    else .ok (area, startElement i q indexed)

/-- The number of bytes of a request without its checksum. For the functions with a byte count it is
computed as `(7 + count) & 0xFF`. -/
def modbusTxLength (func count : BitVec 16) : Option Nat :=
  match MasterFunc.ofCode (func &&& 0xFF) with
  | none => none
  | some .writeMultipleCoils | some .writeMultipleRegisters => some ((7 + count) &&& 0xFF).toNat
  | some _ => some 6

/-- The branch of `run_ci_modbus_ins` that sends, on the port `n`. -/
def modbusSend (ports : UartPorts) (inFront : InFront) (i : BodyInput) (n edge : Nat) (s : Store) :
    MasterResult :=
  let port := ports.port n
  match modbusElement i 6 with
  | .error (e, marks) => .leave (.err e) (if marks then s.setEdge edge true else s)
  | .ok (txArea, tx) =>
    match modbusElement i 10 with
    | .error (e, marks) => .leave (.err e) (if marks then s.setEdge edge true else s)
    | .ok (rxArea, rx) =>
      let word (k : Nat) : BitVec 16 := wordAt inFront s txArea (tx + k)
      if (loByte (word 0)).setWidth 16 = port.getSdValue .modbusId s then
        .leave (.err .operands) (port.refuse .sameSlaveIdErr (s.setEdge edge true))
      else
        match modbusTxLength (word 1) (word 6) with
        | none => .leave (.err .operands) (port.refuse .iliegalCode (s.setEdge edge true))
        | some length =>
          if (txArea.rang : Int) ≤ tx + length then
            .leave (.err .overElementRang) (port.refuse .iliegalAddr (s.setEdge edge true))
          else
            ⟨.pass, port.clearFlags s,
              some ⟨n, withCrc ((List.range length).map fun k => loByte (word k)),
                .elements rxArea rx, BitVec.ofInt 16 (rxArea.rang - rx), false⟩⟩

/-- `run_ci_modbus_ins`; `free` tells which drivers are idle. -/
def runCiModbusIns (ports : UartPorts) (free : Nat → Bool) (inFront : InFront) (i : BodyInput) :
    MasterResult :=
  match openPort ports i with
  | .error r => r
  | .ok n =>
    let edge := i.ucode.getPU16 (i.pc + 14)
    let s := initEdge edge i.store
    if getPowerFlow i.inPF = true ∧ s.edgeValue edge = false ∧ free n = true then
      modbusSend ports inFront i n edge s
    else if getPowerFlow i.inPF then .leave .pass (s.setEdge edge true)
    else .leave .pass (s.setEdge edge false)

section

variable {ports : UartPorts} {free : Nat → Bool} {inFront : InFront} {i : BodyInput} {n edge : Nat}
  {s : Store}

/-- The branch that sends does not touch the flag of the first scan. -/
theorem edgeInit_modbusSend :
    (modbusSend ports inFront i n edge s).store.edgeInit = s.edgeInit := by
  unfold modbusSend
  split
  · rename_i marks _
    cases marks <;> rfl
  · split
    · rename_i marks _
      cases marks <;> rfl
    · dsimp only
      split
      · rfl
      · split
        · rfl
        · split <;> rfl

/-- What a request of `MODBUS` consists of: the low bytes of words from the operand's element on. -/
structure SentFrom (ports : UartPorts) (inFront : InFront) (i : BodyInput) (s : Store)
    (area : WordArea) (start : Int) (length : Nat) (frame : List Byte) : Prop where
  element : modbusElement i 6 = .ok (area, start)
  below : start + length < area.rang
  length_eq : modbusTxLength (wordAt inFront s area (start + 1)) (wordAt inFront s area (start + 6)) =
    some length
  frame_eq : frame =
    withCrc ((List.range length).map fun k : Nat => loByte (wordAt inFront s area (start + k)))

theorem modbusSend_request {q : MasterRequest}
    (h : (modbusSend ports inFront i n edge s).request = some q) :
    ∃ area start length, SentFrom ports inFront i s area start length q.frame := by
  unfold modbusSend at h
  split at h
  · cases h
  · rename_i area start htx
    split at h
    · cases h
    · dsimp only at h
      split at h
      · cases h
      · split at h
        · cases h
        · rename_i length hlength
          split at h
          · cases h
          · rename_i hbelow
            obtain rfl := Option.some.inj h
            exact ⟨area, start, length, htx, Int.not_le.mp hbelow, hlength, rfl⟩

/-- A call that sends a request went through the branch that does. -/
theorem runCiModbusIns_request {q : MasterRequest}
    (h : (runCiModbusIns ports free inFront i).request = some q) :
    ∃ n, openPort ports i = .ok n ∧ getPowerFlow i.inPF = true ∧
      (initEdge (i.ucode.getPU16 (i.pc + 14)) i.store).edgeValue (i.ucode.getPU16 (i.pc + 14)) =
        false ∧
      free n = true ∧
      (modbusSend ports inFront i n (i.ucode.getPU16 (i.pc + 14))
        (initEdge (i.ucode.getPU16 (i.pc + 14)) i.store)).request = some q := by
  unfold runCiModbusIns at h
  split at h
  · rename_i r hport
    rw [(openPort_error hport).1] at h
    cases h
  · rename_i n hport
    dsimp only at h
    split at h
    · rename_i hsends
      exact ⟨n, hport, hsends.1, hsends.2.1, hsends.2.2, h⟩
    · split at h <;> cases h

end

end Kalyke
