-- SUMMARY: The vendor's functions that read and write lists of elements at arbitrary addresses.
import Kalyke.Modbus.Registers

/-!
# Lists of Elements

The functions `0x64` to `0x67`. A request holds a list of addresses, for writes each with a value.
The entries are converted and carried out one by one, and the first that is refused ends the loop
with the entries before it done.
-/

namespace Kalyke

/-- The number of the counter of 32 bits that an element number of the address map belongs to. -/
def c32RealAddr (addr : Nat) : Nat := (addr - c16Rang) / 2 + c16Rang

variable {ω : Type}

/-- The result of a loop: the state it leaves, and the error it ended with. -/
abbrev LoopResult (ω : Type) := Slave ω × Option MbError

/-- The result of one entry: the state, and the error it is refused with or whether it used the
next entry as well. -/
abbrev EntryResult (ω : Type) := Slave ω × Except MbError Bool

/-- The loop over the entries of a list. A refused entry ends it; an entry that was used already is
skipped. -/
def entryLoop (step : Nat → Slave ω → EntryResult ω) : List Nat → Bool → Slave ω → LoopResult ω
  | [], _, s => (s, none)
  | _ :: is, true, s => entryLoop step is false s
  | i :: is, false, s =>
    match step i s with
    | (s, .error e) => (s, some e)
    | (s, .ok skip) => entryLoop step is skip s

namespace Slave

/-- The number of entries of a list. -/
def listCnt (s : Slave ω) : Nat := (s.receiveBuff 2).toNat

/-- The address of an entry that starts at a byte of the request. -/
def entryAddr (s : Slave ω) (i : Nat) : Nat := (s.receiveBuff.bigPU16 i).toNat

/-- What a function on a list does after its loop. -/
def finishList (m : MsgPack) (respond : Slave ω → Slave ω) : LoopResult ω → Slave ω
  | (s, some e) => s.mbSlaveErrorResp m e
  | (s, none) => respond s

/-! ## Reading -/

def readBitEntry (i : Nat) (s : Slave ω) : EntryResult ω :=
  let s := s.putResp (3 + 3 * i) [s.receiveBuff (3 + 2 * i), s.receiveBuff (4 + 2 * i)]
  match mbSlaveConvertElementInfo .bit (s.entryAddr (3 + 2 * i)) with
  | none => (s, .error .iliegalAddr)
  | some (t, addr) =>
    match t.bit? with
    | none => (s, .error .iliegalAddr)
    | some e =>
      let value := (BitVec.ofBool (s.store.bit e addr)).setWidth 8
      ((s.access [.bit e addr]).putResp (5 + 3 * i) [value], .ok false)

def mbSlaveReadMultipleBitElement (s : Slave ω) (m : MsgPack) : Slave ω :=
  if m.isBroadcastInfo then s
  else if 0x50 < s.listCnt then s.mbSlaveErrorResp m .iliegalData
  else
    finishList m
      (fun t => (t.copyRequest 3).mbSlaveVerifyRespMsg m (BitVec.ofNat 16 ((s.listCnt + 1) * 3)))
      (entryLoop readBitEntry (List.range s.listCnt) false s)

/-- The bytes of a halfword stored in the byte order of the machine. -/
def nativeBytes (x : BitVec 16) : List Byte := [loByte x, hiByte x]

/-- Store the address of an entry and its value, which takes four bytes. -/
def putWordEntry (s : Slave ω) (i : Nat) (x : BitVec 16) : Slave ω :=
  (s.putResp (3 + 4 * i) [s.receiveBuff (3 + 2 * i), s.receiveBuff (4 + 2 * i)]).putResp (5 + 4 * i)
    (nativeBytes x)

/-- An entry of `mb_slave_read_multiple_word_element`. A counter of 32 bits fills this entry and the
next with its two halves, whatever the parity of its address. -/
def readWordEntry (i : Nat) (s : Slave ω) : EntryResult ω :=
  let refused := s.putResp (3 + 4 * i) [s.receiveBuff (3 + 2 * i), s.receiveBuff (4 + 2 * i)]
  match mbSlaveConvertElementInfo .word (s.entryAddr (3 + 2 * i)) with
  | none => (refused, .error .iliegalAddr)
  | some (t, addr) =>
    match t.register? addr with
    | none => (refused, .error .iliegalAddr)
    | some (.word e) =>
      ((s.access [.word e addr]).putWordEntry i (s.store.word e addr), .ok false)
    | some .c32 =>
      let value := s.store.c32 (c32RealAddr addr)
      let s := (s.access [.c32 (c32RealAddr addr)]).putWordEntry i (value.extractLsb' 16 16)
      (s.putWordEntry (i + 1) (value.extractLsb' 0 16), .ok true)

def mbSlaveReadMultipleWordElement (s : Slave ω) (m : MsgPack) : Slave ω :=
  if m.isBroadcastInfo then s
  else if 0x3C < s.listCnt then s.mbSlaveErrorResp m .iliegalData
  else
    finishList m
      (fun t => (t.copyRequest 3).mbSlaveVerifyRespMsg m (BitVec.ofNat 16 (3 + s.listCnt * 4)))
      (entryLoop readWordEntry (List.range s.listCnt) false s)

/-! ## Writing -/

def writeBitEntry (i : Nat) (s : Slave ω) : EntryResult ω :=
  match mbSlaveConvertElementInfo .bit (s.entryAddr (3 + 3 * i)) with
  | none => (s, .error .iliegalAddr)
  | some (t, addr) =>
    match t.coil? with
    | none => (s, .error .iliegalAddr)
    | some e => (s.setBit e addr (s.receiveBuff (5 + 3 * i)), .ok false)

def mbSlaveWriteMultipleBitElement (s : Slave ω) (m : MsgPack) : Slave ω :=
  if m.isBroadcastInfo then s
  else if 0x50 < s.listCnt then s.mbSlaveErrorResp m .iliegalData
  else
    finishList m (fun t => t.respond m 2 [])
      (entryLoop writeBitEntry (List.range s.listCnt) false s)

/-- An entry of `mb_slave_write_multiple_word_element`. A counter of 32 bits takes its high half
from this entry and its low half from the next, whose address is not looked at. -/
def writeWordEntry (i : Nat) (s : Slave ω) : EntryResult ω :=
  match mbSlaveConvertElementInfo .word (s.entryAddr (3 + 4 * i)) with
  | none => (s, .error .iliegalAddr)
  | some (t, addr) =>
    let value := s.receiveBuff.bigPU16 (5 + 4 * i)
    match t.register? addr with
    | none => (s, .error .iliegalAddr)
    | some (.word e) => (s.setWord e addr value, .ok false)
    | some .c32 =>
      let low := s.receiveBuff.bigPU16 (5 + 4 * (i + 1))
      (s.setC32 (c32RealAddr addr) (value ++ low), .ok true)

def mbSlaveWriteMultipleWordElement (s : Slave ω) (m : MsgPack) : Slave ω :=
  if m.isBroadcastInfo then s
  else if 0x3C < s.listCnt then s.mbSlaveErrorResp m .iliegalData
  else
    finishList m (fun t => t.respond m 2 [])
      (entryLoop writeWordEntry (List.range s.listCnt) false s)

end Slave

end Kalyke
