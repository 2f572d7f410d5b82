-- SUMMARY: The passing of parameters by the CALL instruction.
import Kalyke.Exec.ParseAddr
import Kalyke.Exec.State

/-!
# Call Parameters

`plc_call_ins_in_parameter_parse` and `plc_call_ins_out_parameter_parse`. A `CALL` carries three
sections of parameters, for input, for both directions and for output, with their lengths in its
head. Bits are passed in the `LM` elements of the callee's layer and words in its `V` elements, each
numbered on its own through all the sections.
-/

namespace Kalyke

/-- The types of a call's parameters (`PARA_BOOL` and so on). -/
inductive ParaType where
  | bool | word | int | dword | dint | real
deriving DecidableEq, Repr

namespace ParaType

def ofCode : Nat → Option ParaType
  | 0x01 => some bool
  | 0x02 => some word
  | 0x04 => some int
  | 0x08 => some dword
  | 0x10 => some dint
  | 0x20 => some real
  | _ => none

/-- The bytes a parameter takes in the instruction. -/
def size : ParaType → Nat
  | bool | word | int => 6
  | dword | dint | real => 8

/-- The `LM` elements a parameter takes. -/
def bits : ParaType → Nat
  | bool => 1
  | _ => 0

/-- The `V` elements a parameter takes. -/
def words : ParaType → Nat
  | bool => 0
  | word | int => 1
  | dword | dint | real => 2

end ParaType

/-- `lcv_BitCnt` and `lcv_WordCnt`: the local elements used up so far, as `unsigned char`. -/
structure ParaCnt where
  bit : Nat
  word : Nat
deriving DecidableEq, Repr

/-- Count a parameter. -/
def ParaCnt.add (c : ParaCnt) (t : ParaType) : ParaCnt :=
  ⟨(c.bit + t.bits) % 256, (c.word + t.words) % 256⟩

section

variable (u : Ucode) (ptr n : Nat) (c : ParaCnt) (s : Store)

/-- Write a double word into the `V` elements of a layer. -/
def putDword (layer : Nat) (i : Nat) (x : BitVec 32) (s : Store) : Store :=
  setDword (.v layer) (.v layer) i x s

/-- Load the operand of the parameter at `ptr` into the layer above call level `n`. What the get
function has written stays even if it fails. -/
def loadParameter (stale : Bool) : ParaType → Except PlcErr Unit × Store
  | .bool =>
    let (ret, xs) := getChar u (ptr + 2) s n 0 1
    (ret, s.setBit (.lm (n + 1)) c.bit (xs.headD stale))
  | .word | .int =>
    let (ret, xs) := getWord u (ptr + 2) s n 0 1
    (ret, xs.foldl (fun s x => s.setWord (.v (n + 1)) c.word x) s)
  | .dword | .dint =>
    let (ret, xs) := getDword u (ptr + 2) s n 0 1
    (ret, xs.foldl (fun s x => putDword (n + 1) c.word x s) s)
  | .real =>
    let (ret, xs) := getFloat u (ptr + 2) s n 0 1
    (ret, xs.foldl (fun s x => putDword (n + 1) c.word x s) s)

/-- Store the local elements of the parameter at `ptr` into its operand. The save functions work on
the `V` elements in place. -/
def storeParameter : ParaType → Except PlcErr Unit × Store
  | .bool => saveChar u (ptr + 2) s n 0 [s.getBit (.lm (n + 1)) c.bit]
  | .word | .int =>
    let (ret, xs, s') := saveWord u (ptr + 2) s n 0 [s.getWord (.v (n + 1)) c.word]
    (ret, xs.foldl (fun s x => s.setWord (.v (n + 1)) c.word x) s')
  | .dword | .dint =>
    let (ret, xs, s') := saveDword u (ptr + 2) s n 0
      [s.getWord (.v (n + 1)) (c.word + 1) ++ s.getWord (.v (n + 1)) c.word]
    (ret, xs.foldl (fun s x => putDword (n + 1) c.word x s) s')
  | .real => saveFloat u (ptr + 2) s n 0
      [s.getWord (.v (n + 1)) (c.word + 1) ++ s.getWord (.v (n + 1)) c.word]

end

/-- The loop of `plc_call_ins_in_parameter_parse`, with `temp` the bytes passed and `kept` the
counters written back. A type that is not zero lies inside the memory, so that a bound of the
memory's length is never reached. -/
def inParameterLoop (stale : Bool) (u : Ucode) (n inCnt inOutCnt : Nat) :
    Nat → Nat → Nat → ParaCnt → ParaCnt → Store → Except PlcErr Unit × ParaCnt × Store
  | 0, _, _, _, kept, s => (.ok (), kept, s)
  | fuel + 1, ptr, temp, c, kept, s =>
    if temp < inOutCnt then
      match ParaType.ofCode (u.getPU16 ptr) with
      | some t =>
        let (ret, s') := loadParameter u ptr n c s stale t
        let temp' := (temp + t.size) % 65536
        let kept' := if temp' = inCnt then c.add t else kept
        match ret with
        | .ok () =>
          inParameterLoop stale u n inCnt inOutCnt fuel (ptr + t.size) temp' (c.add t) kept' s'
        | .error e => (.error e, kept', s')
      | none => (.error .operands, if temp = inCnt then c else kept, s)
    else (.ok (), kept, s)

/-- Clear the local elements of a layer. -/
def clearLayer (layer : Nat) (s : Store) : Store :=
  (List.range lmRang).foldl
    (fun s i => (s.setBit (.lm layer) i false).setWord (.v layer) i 0) s

/-- `plc_call_ins_in_parameter_parse` for the `CALL` at `p`: the result, the counters behind the
input section, and the elements. -/
def plcCallInsInParameterParse (stale : Bool) (u : Ucode) (p n : Nat) (s : Store) :
    Except PlcErr Unit × ParaCnt × Store :=
  let inCnt := u.getPU16 (p + 4)
  let inOutCnt := (inCnt + u.getPU16 (p + 6)) % 65536
  inParameterLoop stale u n inCnt inOutCnt (u.length + 1) (p + 10) 0 ⟨0, 0⟩ ⟨0, 0⟩
    (clearLayer (n + 1) s)

/-- The loop of `plc_call_ins_out_parameter_parse`. -/
def outParameterLoop (u : Ucode) (n outCnt : Nat) :
    Nat → Nat → Nat → ParaCnt → Store → Except PlcErr Unit × Store
  | 0, _, _, _, s => (.ok (), s)
  | fuel + 1, ptr, temp, c, s =>
    if temp < outCnt then
      match ParaType.ofCode (u.getPU16 ptr) with
      | some t =>
        match storeParameter u ptr n c s t with
        | (.ok (), s') =>
          outParameterLoop u n outCnt fuel (ptr + t.size) ((temp + t.size) % 65536) (c.add t) s'
        | (.error e, s') => (.error e, s')
      | none => (.error .operands, s)
    else (.ok (), s)

def plcCallInsOutParameterParse (u : Ucode) (p n : Nat) (c : ParaCnt) (s : Store) :
    Except PlcErr Unit × Store :=
  let outCnt := (u.getPU16 (p + 6) + u.getPU16 (p + 8)) % 65536
  outParameterLoop u n outCnt (u.length + 1) (p + 10 + u.getPU16 (p + 4)) 0 c s

end Kalyke
