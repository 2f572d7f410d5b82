-- SUMMARY: The bodies of data instructions: local bits, bits of words, and blocks of elements.
import Kalyke.Exec.FlowCtrl
import Kalyke.Exec.SimpleIns

/-!
# Data Instructions

`plc_dataprocessing.c`, as far as it is needed. A body is run on the place of the instruction, the
call level, the power flow and the elements, and leaves a result, the power flow and the elements.
-/

namespace Kalyke

open List

/-- What the body of a data instruction returns. -/
abbrev BodyResult := Except PlcErr Unit × BitVec 32 × Store

/-! ## Local bits -/

/-- A contact on the local bit whose number stands behind the instruction. -/
def runLmContact (k : Contact) (i : BodyInput) : BodyResult :=
  (.ok (), k.run (i.store.getBit (.lm i.level) (i.ucode.getPU16 (i.pc + 4))) i.inPF, i.store)

/-- A coil on the local bit whose number stands behind the instruction. -/
def runLmCoil (k : Coil) (i : BodyInput) : BodyResult :=
  (.ok (), i.inPF, k.run (.lm i.level) (i.ucode.getPU16 (i.pc + 4)) i.inPF i.store)

def runCiLdLmIns : BodyInput → BodyResult := runLmContact .ld

def runCiLdiLmIns : BodyInput → BodyResult := runLmContact .ldi

def runCiAndLmIns : BodyInput → BodyResult := runLmContact .and

def runCiAniLmIns : BodyInput → BodyResult := runLmContact .ani

def runCiOrLmIns : BodyInput → BodyResult := runLmContact .or

def runCiOriLmIns : BodyInput → BodyResult := runLmContact .ori

def runCiSetLmIns : BodyInput → BodyResult := runLmCoil .set

def runCiOutLmIns : BodyInput → BodyResult := runLmCoil .out

def runCiRstLmIns : BodyInput → BodyResult := runLmCoil .rst

/-- The body of the contact instruction of a kind on a local bit. -/
def lmContactBody : Contact → BodyInput → BodyResult
  | .ld => runCiLdLmIns
  | .ldi => runCiLdiLmIns
  | .and => runCiAndLmIns
  | .ani => runCiAniLmIns
  | .or => runCiOrLmIns
  | .ori => runCiOriLmIns

/-- The body of the coil instruction of a kind on a local bit. -/
def lmCoilBody : Coil → BodyInput → BodyResult
  | .out => runCiOutLmIns
  | .set => runCiSetLmIns
  | .rst => runCiRstLmIns

theorem lmContactBody_eq (k : Contact) : lmContactBody k = runLmContact k := by cases k <;> rfl

theorem lmCoilBody_eq (k : Coil) : lmCoilBody k = runLmCoil k := by cases k <;> rfl

/-! ## Operands of bodies -/

section

variable {α β : Type}

/-- What a get function returns: its values if it passes. -/
def outcome : Except PlcErr Unit × α → Except PlcErr α
  | (.ok (), x) => .ok x
  | (.error e, _) => .error e

namespace BodyInput

variable (i : BodyInput)

/-- `get_char` for the operand `q` bytes behind the instruction code. -/
def chars (q off cnt : Nat) (s : Store) : Except PlcErr (List Bool) :=
  outcome (getChar i.ucode (i.pc + q) s i.level off cnt)

def words (q off cnt : Nat) (s : Store) : Except PlcErr (List (BitVec 16)) :=
  outcome (getWord i.ucode (i.pc + q) s i.level off cnt)

/-- `get_word` for a single word. -/
def word (q off : Nat) (s : Store) : Except PlcErr (BitVec 16) :=
  (i.words q off 1 s).map fun xs => xs.headD 0

/-- `get_dword` for a single double word. -/
def dword (q off : Nat) (s : Store) : Except PlcErr (BitVec 32) :=
  (outcome (getDword i.ucode (i.pc + q) s i.level off 1)).map fun xs => xs.headD 0

/-- `save_char` for the operand at an address. -/
def saveChars (dst off : Nat) (xs : List Bool) (s : Store) : Except PlcErr Unit × Store :=
  saveChar i.ucode dst s i.level off xs

/-- `save_word`, with a buffer that is not used any more. -/
def saveWords (dst off : Nat) (xs : List (BitVec 16)) (s : Store) : Except PlcErr Unit × Store :=
  let (ret, _, s') := saveWord i.ucode dst s i.level off xs
  (ret, s')

/-- `save_dword`, with a buffer that is not used any more. -/
def saveDwords (dst off : Nat) (xs : List (BitVec 32)) (s : Store) : Except PlcErr Unit × Store :=
  let (ret, _, s') := saveDword i.ucode dst s i.level off xs
  (ret, s')

end BodyInput

/-! ## Loops over blocks -/

/-- One pass of a loop over a block: the values that are read or made, and the operand and the
offset where they are saved. -/
structure Move (α : Type) where
  read : Store → Except PlcErr (List α)
  dst : Nat
  off : Nat

/-- A loop that returns at the first failure. -/
def runMoves (save : Nat → Nat → List α → Store → Except PlcErr Unit × Store) :
    List (Move α) → Store → Except PlcErr Unit × Store
  | [], s => (.ok (), s)
  | m :: ms, s =>
    match m.read s with
    | .error e => (.error e, s)
    | .ok xs =>
      match save m.dst m.off xs s with
      | (.ok (), s') => runMoves save ms s'
      | (.error e, s') => (.error e, s')

/-- A loop that returns at the first failure to read, but goes on if the values cannot be saved. The
result is that of the last save. -/
def runMovesOn (save : Nat → Nat → List α → Store → Except PlcErr Unit × Store) :
    List (Move α) → Except PlcErr Unit → Store → Except PlcErr Unit × Store
  | [], ret, s => (ret, s)
  | m :: ms, _, s =>
    match m.read s with
    | .error e => (.error e, s)
    | .ok xs => runMovesOn save ms (save m.dst m.off xs s).1 (save m.dst m.off xs s).2

/-- A body that does nothing without power flow, checks its operands, and then works on the
elements. -/
def runChecked (i : BodyInput) (checked : Except PlcErr β)
    (run : β → Store → Except PlcErr Unit × Store) : BodyResult :=
  if getPowerFlow i.inPF then
    match checked with
    | .error e => (.error e, i.inPF, i.store)
    | .ok x => ((run x i.store).1, i.inPF, (run x i.store).2)
  else (.ok (), i.inPF, i.store)

end

/-! ## BOUT -/

section

variable (i : BodyInput)

def runCiBoutIns : BodyResult :=
  let checked : Except PlcErr (BitVec 16) := do
    let s1 ← i.word 2 0 i.store
    let s2 ← i.word 6 0 i.store
    if s2.toInt < 0 ∨ 15 < s2.toInt then .error .operands
    else if getPowerFlow i.inPF then return s1 ||| (1#16 <<< s2.toNat)
    else return s1 &&& ~~~(1#16 <<< s2.toNat)
  runChecked i checked fun x => i.saveWords (i.pc + 2) 0 [x]

/-! ## Moving and filling -/

/-- The loop of `run_ci_bmov_ins`. -/
def bmovMoves : Except PlcErr (List (Move (BitVec 16))) := do
  let cnt ← i.word 10 0 i.store
  if cnt.toInt ≤ 0 then .error .operands
  else return (range cnt.toNat).map fun k => ⟨i.words 2 k 1, i.pc + 6, k⟩

def runCiBmovIns : BodyResult := runChecked i (bmovMoves i) (runMoves i.saveWords)

/-- The loop of `run_ci_fmov_ins`. -/
def fmovMoves : Except PlcErr (List (Move (BitVec 16))) := do
  let cnt ← i.word 10 0 i.store
  if cnt.toInt ≤ 0 then .error .operands
  else
    let x ← i.word 2 0 i.store
    return (range cnt.toNat).map fun k => ⟨fun _ => .ok [x], i.pc + 6, k⟩

def runCiFmovIns : BodyResult := runChecked i (fmovMoves i) (runMoves i.saveWords)

/-- The loop of `run_ci_dfmov_ins`. -/
def dfmovMoves : Except PlcErr (List (Move (BitVec 32))) := do
  let cnt ← i.word 14 0 i.store
  if cnt.toInt ≤ 0 then .error .operands
  else
    let x ← i.dword 2 0 i.store
    return (range cnt.toNat).map fun k => ⟨fun _ => .ok [x], i.pc + 8, k⟩

def runCiDfmovIns : BodyResult := runChecked i (dfmovMoves i) (runMoves i.saveDwords)

/-! ## Shifting bits and words -/

/-- The blocks of a bit shift overlap: `s1` bits at the destination, and the source or the bit `s2`
behind it. -/
def BitsOverlap (s1 s2 : Nat) : Prop :=
  let src := i.ucode.getPU16 (i.pc + 4)
  let dst := i.ucode.getPU16 (i.pc + 8)
  i.ucode.getPU16 (i.pc + 2) = i.ucode.getPU16 (i.pc + 6) ∧
    (dst ≤ src ∧ src < dst + s1 ∨ dst ≤ src + s2 ∧ src + s2 < dst + s1)

instance (s1 s2 : Nat) : Decidable (BitsOverlap i s1 s2) := inferInstanceAs (Decidable (_ ∧ _))

/-- The checks of `run_ci_sftr_ins` and `run_ci_sftl_ins`: the numbers of bits that are shifted and
shifted in. -/
def bitShift : Except PlcErr (Nat × Nat) := do
  let s1 ← i.word 10 0 i.store
  let s2 ← i.word 14 0 i.store
  if s1.toInt < 0 ∨ s2.toInt < 0 ∨ s1.toInt < s2.toInt ∨ 1024 < s1.toInt then .error .operands
  else if BitsOverlap i s1.toNat s2.toNat then .error .operands
  else return (s1.toNat, s2.toNat)

/-- The loops of `run_ci_sftr_ins`. -/
def sftrMoves : Except PlcErr (List (Move Bool)) := do
  let (s1, s2) ← bitShift i
  return (range (s1 - s2)).map (fun k => ⟨i.chars 6 (s2 + k) 1, i.pc + 6, k⟩) ++
    (range s2).map fun k => ⟨i.chars 2 k 1, i.pc + 6, s1 - s2 + k⟩

def runCiSftrIns : BodyResult := runChecked i (sftrMoves i) (runMoves i.saveChars)

/-- The loops of `run_ci_sftl_ins`. -/
def sftlMoves : Except PlcErr (List (Move Bool)) := do
  let (s1, s2) ← bitShift i
  return (range (s1 - s2)).map
      (fun k => ⟨i.chars 6 (s1 - s2 - 1 - k) 1, i.pc + 6, s1 - 1 - k⟩) ++
    (range s2).map fun k => ⟨i.chars 2 k 1, i.pc + 6, k⟩

def runCiSftlIns : BodyResult := runChecked i (sftlMoves i) (runMoves i.saveChars)

/-- The checks of `run_ci_wsfr_ins` and `run_ci_wsfl_ins`: the lengths of the destination and the
source. -/
def wordShift : Except PlcErr (Nat × Nat) := do
  let destLen ← i.word 10 0 i.store
  let srcLen ← i.word 14 0 i.store
  if destLen.toInt < 0 ∨ srcLen.toInt < 0 ∨ destLen.toInt < srcLen.toInt then .error .operands
  else return (destLen.toNat, srcLen.toNat)

/-- The loops of `run_ci_wsfr_ins`. -/
def wsfrMoves : Except PlcErr (List (Move (BitVec 16))) := do
  let (destLen, srcLen) ← wordShift i
  return (range (destLen - srcLen)).map
      (fun k => ⟨i.words 6 (k + srcLen) 1, i.pc + 6, k⟩) ++
    (range srcLen).map fun k => ⟨i.words 2 k 1, i.pc + 6, k + (destLen - srcLen)⟩

def runCiWsfrIns : BodyResult := runChecked i (wsfrMoves i) (runMoves i.saveWords)

/-- The values of the counter in the first loop of `run_ci_wsfl_ins`. It counts up and not down, so
that it ends only where 16 bits do. -/
def wsflCounter (destLen srcLen : Nat) : List Nat :=
  if srcLen < destLen then range' destLen (65536 - destLen) else []

/-- The loops of `run_ci_wsfl_ins`. -/
def wsflMoves : Except PlcErr (List (Move (BitVec 16))) := do
  let (destLen, srcLen) ← wordShift i
  return (wsflCounter destLen srcLen).map
      (fun k => ⟨i.words 6 (k - srcLen - 1) 1, i.pc + 6, k - 1⟩) ++
    (range srcLen).map fun k => ⟨i.words 2 k 1, i.pc + 6, k⟩

def runCiWsflIns : BodyResult := runChecked i (wsflMoves i) (runMoves i.saveWords)

/-! ## Queues -/

/-- The checks of `run_ci_push_ins`: the size of the stack, and the number of values on it. -/
def pushSizes : Except PlcErr (Nat × Nat) := do
  let size ← i.word 10 0 i.store
  if size.toInt ≤ 0 then .error .stackDefine
  else
    let index ← i.word 6 0 i.store
    if index.toInt < 0 then .error .stackDefine
    else return (size.toNat, index.toNat)

/-- The value is saved on top of `index` others, and then the number of values. -/
def pushMoves (index : Nat) : List (Move (BitVec 16)) :=
  [⟨i.words 2 0 1, i.pc + 6, index + 1⟩,
    ⟨fun _ => .ok [BitVec.ofNat 16 (index + 1)], i.pc + 6, 0⟩]

/-- `run_ci_push_ins`. `SM181` says that there is no room for the value. -/
def runCiPushIns : BodyResult :=
  runChecked i (pushSizes i) fun (size, index) s =>
    if size < index then (.error .stackDefine, s.setBit (.elem .SM) 181 true)
    else if index = size then
      (.ok (), (s.setBit (.elem .SM) 181 false).setBit (.elem .SM) 181 true)
    else runMoves i.saveWords (pushMoves i index) (s.setBit (.elem .SM) 181 false)

/-- The checks of `run_ci_fifo_ins` and `run_ci_lifo_ins`: the number of values in the queue. -/
def fifoLength : Except PlcErr Nat := do
  let size ← i.word 10 0 i.store
  if size.toInt ≤ 0 then .error .stackDefine
  else
    let len ← i.word 2 0 i.store
    if len.toInt < 0 ∨ size.toInt < len.toInt then .error .stackDefine
    else return len.toNat

/-- The head of a queue of `len` values is taken out, the others follow, and the new length is
saved. -/
def fifoMoves (len : Nat) : List (Move (BitVec 16)) :=
  ⟨i.words 2 1 1, i.pc + 6, 0⟩ ::
    (range' 1 (len - 1)).map (fun k => ⟨i.words 2 (k + 1) 1, i.pc + 2, k⟩) ++
    [⟨fun _ => .ok [BitVec.ofNat 16 (len - 1)], i.pc + 2, 0⟩]

/-- `run_ci_fifo_ins`. `SM180` says that the queue is empty. -/
def runCiFifoIns : BodyResult :=
  runChecked i (fifoLength i) fun len s =>
    if len = 0 then (.ok (), (s.setBit (.elem .SM) 180 false).setBit (.elem .SM) 180 true)
    else runMoves i.saveWords (fifoMoves i len) (s.setBit (.elem .SM) 180 false)

/-- The last of `len` values is taken out, and the new length is saved. -/
def lifoMoves (len : Nat) : List (Move (BitVec 16)) :=
  [⟨i.words 2 len 1, i.pc + 6, 0⟩, ⟨fun _ => .ok [BitVec.ofNat 16 (len - 1)], i.pc + 2, 0⟩]

/-- `run_ci_lifo_ins`. Before it saves the new length it would set `SM180` if the size were zero,
which its checks have ruled out. -/
def runCiLifoIns : BodyResult :=
  runChecked i (fifoLength i) fun len s =>
    if len = 0 then (.ok (), (s.setBit (.elem .SM) 180 false).setBit (.elem .SM) 180 true)
    else runMoves i.saveWords (lifoMoves i len) (s.setBit (.elem .SM) 180 false)

end

/-! ## Bytes and words -/

/-- What happens to lie where a body reads a variable that was not set, or past the end of a table:
words that were not read, the bytes behind the two tables of digits, and the digit of a single
character of `ATI`. -/
structure Junk where
  word : Nat → BitVec 16
  ascii : Nat → BitVec 8
  digit : Nat → BitVec 8
  single : BitVec 8

section

variable (junk : Junk) (i : BodyInput)

/-- The count of `run_ci_wtob_ins` and `run_ci_btow_ins`. -/
def byteCount : Except PlcErr Nat := do
  let cnt ← i.word 10 0 i.store
  if cnt.toInt < 0 then .error .operands
  else return cnt.toNat

/-- The loop of `run_ci_wtob_ins`, and half a word that is left. -/
def wtobMoves : Except PlcErr (List (Move (BitVec 16))) := do
  let cnt ← byteCount i
  return (range (cnt / 2)).map
      (fun k => ⟨fun s => (i.word 2 k s).map fun x : BitVec 16 => [x >>> 8, x &&& 0xFF], i.pc + 6,
        2 * k⟩) ++
    if cnt % 2 = 1 then
      [⟨fun s => (i.word 2 (cnt / 2) s).map fun x : BitVec 16 => [x >>> 8], i.pc + 6,
        2 * (cnt / 2)⟩]
    else []

def runCiWtobIns : BodyResult := runChecked i (wtobMoves i) (runMoves i.saveWords)

/-- A value of an array that a get function has filled as far as its values go. -/
def filled (xs : List (BitVec 16)) (j : Nat) : BitVec 16 := xs.getD j (junk.word j)

/-- A word of two bytes. -/
def joinBytes (high low : BitVec 16) : BitVec 16 := ((high &&& 0xFF) <<< 8) ||| (low &&& 0xFF)

/-- The loop of `run_ci_btow_ins`, and half a word that is left. -/
def btowMoves : Except PlcErr (List (Move (BitVec 16))) := do
  let cnt ← byteCount i
  return (range (cnt / 2)).map
      (fun k => ⟨fun s => (i.words 2 (2 * k) 2 s).map fun xs =>
        [joinBytes (filled junk xs 0) (filled junk xs 1)], i.pc + 6, k⟩) ++
    if cnt % 2 = 1 then
      [⟨fun s => (i.word 2 (2 * (cnt / 2)) s).map fun x => [joinBytes x 0], i.pc + 6, cnt / 2⟩]
    else []

def runCiBtowIns : BodyResult := runChecked i (btowMoves junk i) (runMoves i.saveWords)

/-! ## Hexadecimal digits -/

/-- `SM186`: whether a character has a word of its own. -/
def asciiWide : Bool := i.store.getBit (.elem .SM) 186

/-- The table `lca_ASCIICode`. Two of the four numbers it is used with are not cut to a digit. -/
def asciiCode (k : BitVec 16) : BitVec 16 :=
  let table : List (BitVec 8) := [0x30, 0x31, 0x32, 0x33, 0x34, 0x35, 0x36, 0x37,
    0x38, 0x39, 0x41, 0x42, 0x43, 0x44, 0x45, 0x46]
  (table.getD (k &&& 0xFF).toNat (junk.ascii (k &&& 0xFF).toNat)).setWidth 16

/-- The characters of a word, the highest digit first. -/
def asciiOf (x : BitVec 16) : List (BitVec 16) :=
  [asciiCode junk (x >>> 12), asciiCode junk (x >>> 8), asciiCode junk (x >>> 4), asciiCode junk x]

/-- Characters that are saved in words of their own, or two to a word. -/
def packAscii (wide : Bool) : List (BitVec 16) → List (BitVec 16)
  | a :: b :: cs =>
    if wide then a :: b :: packAscii wide cs else (a + (b <<< 8)) :: packAscii wide cs
  | cs => cs

/-- The count of `run_ci_ita_ins`. -/
def itaCount : Except PlcErr Nat := do
  let cnt ← i.word 10 0 i.store
  if cnt.toNat < 1 ∨ 256 < cnt.toNat then .error .operands
  else if i.ucode.getPU8 (i.pc + 2) = 0 ∧ 4 < cnt.toNat then return 4
  else return cnt.toNat

/-- The saves of `run_ci_ita_ins` for the word number `k`, of which `cnt` characters are saved. -/
def itaMove (wide : Bool) (k cnt : Nat) : Move (BitVec 16) where
  read := fun s => (i.word 2 k s).map fun x => packAscii wide ((asciiOf junk x).take cnt)
  dst := i.pc + 6
  off := if wide then 4 * k else 2 * k

/-- The loop of `run_ci_ita_ins`, and the characters that are left. -/
def itaMoves : Except PlcErr (List (Move (BitVec 16))) := do
  let cnt ← itaCount i
  return (range (cnt / 4)).map (fun k => itaMove junk i (asciiWide i) k 4) ++
    if cnt % 4 = 0 then [] else [itaMove junk i (asciiWide i) (cnt / 4) (cnt % 4)]

def runCiItaIns : BodyResult :=
  runChecked i (itaMoves junk i) fun ms => runMovesOn i.saveWords ms (.ok ())

def IsHexNumAscii (x : BitVec 16) : Prop :=
  (0x30 ≤ x.toNat ∧ x.toNat ≤ 0x39) ∨ (0x41 ≤ x.toNat ∧ x.toNat ≤ 0x46)

instance (x : BitVec 16) : Decidable (IsHexNumAscii x) := inferInstanceAs (Decidable (_ ∨ _))

/-- The table `lca_DeASCIICode`. -/
def deAsciiCode (k : Nat) : BitVec 16 :=
  let table : List (BitVec 8) := [0x00, 0x01, 0x02, 0x03, 0x04, 0x05, 0x06, 0x07, 0x08, 0x09,
    0x00, 0x00, 0x00, 0x00, 0x00, 0x00, 0x00, 0x0A, 0x0B, 0x0C, 0x0D, 0x0E, 0x0F]
  (table.getD k (junk.digit k)).setWidth 16

/-- The digit of a character in the upper or lower byte of a word. The mask is `0xFF-0x30`, where
`0x30` was to be taken from the character. -/
def packedDigit (x : BitVec 16) : BitVec 16 := deAsciiCode junk (x &&& 0xCF).toNat

/-- The value of characters in words of their own. -/
def wideValue (xs : List (BitVec 16)) : Except PlcErr (BitVec 16) :=
  if ∀ x ∈ xs, IsHexNumAscii x then
    .ok (xs.foldl (fun r x => (r <<< 4) + deAsciiCode junk (x.toNat - 0x30)) 0)
  else .error .operands

/-- The value of the characters that are left, if each has a word of its own. The place of a single
one is taken from a loop counter that does not count it. -/
def wideRest (cnt : Nat) (x : Nat → BitVec 16) : Except PlcErr (BitVec 16) :=
  match cnt with
  | 1 => if IsHexNumAscii (x 0) then .ok (junk.single.setWidth 16) else .error .operands
  | cnt => wideValue junk ((range cnt).map x)

/-- Both characters of a word are digits. -/
def BothHex (x : BitVec 16) : Prop := IsHexNumAscii (x &&& 0xFF) ∧ IsHexNumAscii (x >>> 8)

instance (x : BitVec 16) : Decidable (BothHex x) := inferInstanceAs (Decidable (_ ∧ _))

/-- The value of two words with two characters each. -/
def packedValue (a b : BitVec 16) : Except PlcErr (BitVec 16) :=
  let value (x : BitVec 16) := (packedDigit junk x <<< 4) + packedDigit junk (x >>> 8)
  if BothHex a ∧ BothHex b then .ok ((value a <<< 8) + value b) else .error .operands

/-- The value of the characters that are left, two to a word. It is zero if one is no digit. -/
def packedRest (cnt : Nat) (a b : BitVec 16) : BitVec 16 :=
  match cnt with
  | 1 => if IsHexNumAscii (a &&& 0xFF) then packedDigit junk a else 0
  | 2 => if BothHex a then (packedDigit junk a <<< 4) + packedDigit junk (a >>> 8) else 0
  | 3 =>
    if BothHex a ∧ IsHexNumAscii (b &&& 0xFF) then
      (packedDigit junk a <<< 8) + (packedDigit junk (a >>> 8) <<< 4) + packedDigit junk b
    else 0
  | _ => 0

/-- The count of `run_ci_ati_ins`. -/
def atiCount : Except PlcErr Nat := do
  let cnt ← i.word 10 0 i.store
  if cnt.toNat < 1 ∨ 256 < cnt.toNat then .error .operands
  else if i.ucode.getPU8 (i.pc + 2) = 0 then return min cnt.toNat (if asciiWide i then 1 else 2)
  else return cnt.toNat

/-- What `run_ci_ati_ins` makes of the characters for the word number `k`. -/
def atiValue (wide : Bool) (k : Nat) (s : Store) : Except PlcErr (BitVec 16) :=
  if wide then do
    let xs ← i.words 2 (4 * k) 4 s
    wideValue junk ((range 4).map (filled junk xs))
  else do
    let xs ← i.words 2 (2 * k) 2 s
    packedValue junk (filled junk xs 0) (filled junk xs 1)

/-- The same for the last `cnt` characters, which do not fill a word. -/
def atiRest (wide : Bool) (k cnt : Nat) (s : Store) : Except PlcErr (BitVec 16) :=
  if wide then do
    let xs ← i.words 2 (4 * k) 4 s
    wideRest junk cnt (filled junk xs)
  else do
    let xs ← i.words 2 (2 * k) (if 2 < cnt then 2 else 1) s
    return packedRest junk cnt (filled junk xs 0) (filled junk xs 1)

/-- The loop of `run_ci_ati_ins`, and the characters that are left. -/
def atiMoves : Except PlcErr (List (Move (BitVec 16))) := do
  let cnt ← atiCount i
  let wide := asciiWide i
  return (range (cnt / 4)).map
      (fun k => ⟨fun s => (atiValue junk i wide k s).map fun x => [x], i.pc + 6, k⟩) ++
    if cnt % 4 = 0 then []
    else [⟨fun s => (atiRest junk i wide (cnt / 4) (cnt % 4) s).map fun x => [x], i.pc + 6,
      cnt / 4⟩]

def runCiAtiIns : BodyResult :=
  runChecked i (atiMoves junk i) fun ms => runMovesOn i.saveWords ms (.ok ())

end

end Kalyke
