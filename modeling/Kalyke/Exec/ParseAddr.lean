-- SUMMARY: Decoding of operands: the get and save functions for bits, words, double words and reals.
import Kalyke.Common.Error
import Kalyke.Exec.Elements
import Kalyke.Ucode.Memory

/-!
# Operands

`plc_parseaddr.c`. An operand is a type byte, a sub byte before it and a halfword behind them. The
type selects an area of elements; the `Z` forms add an index register to the element number, and the
`Kn` forms join `4 * n` bit elements to one value. Every function is a table from operand types to
what they access, which is the switch of the source, followed by a loop that all the cases share.

The access functions take the call level, as the local elements of the current call lie in the
layer of that number. Some cases use the layer above it; the tables keep that.
-/

namespace Kalyke

variable {α : Type}

/-- The operand types (`ADDR_X` and so on). -/
inductive AddrType where
  | const
  | x | y | bC | bT | sm | m | s | lm | dxY
  | knX | knY | knM | knS | knLm | knSm
  | d | z | sd | c | t | v | r
  | rz | dz | cz | tz | xz | yz | mz | sz | lmz | bTz | bCz | vz
  | knXz | knYz | knMz | knSz | knLmz
deriving DecidableEq, Repr

namespace AddrType

/-- The type bytes. -/
def code : AddrType → Nat
  | const => 0xFF
  | x => 0x00 | y => 0x01 | bC => 0x02 | bT => 0x03 | sm => 0x04 | m => 0x05 | s => 0x06
  | lm => 0x07 | dxY => 0x09
  | knX => 0x0C | knY => 0x0D | knM => 0x0E | knS => 0x0F | knLm => 0x10 | knSm => 0x17
  | d => 0x11 | z => 0x12 | sd => 0x13 | c => 0x14 | t => 0x15 | v => 0x16 | r => 0x1A
  | rz => 0x31 | dz => 0x32 | cz => 0x33 | tz => 0x34 | xz => 0x35 | yz => 0x36 | mz => 0x37
  | sz => 0x38 | lmz => 0x39 | bTz => 0x3A | bCz => 0x3B | vz => 0x3C
  | knXz => 0x46 | knYz => 0x50 | knMz => 0x5A | knSz => 0x64 | knLmz => 0x6E

def all : List AddrType :=
  [const, x, y, bC, bT, sm, m, s, lm, dxY, knX, knY, knM, knS, knLm, knSm, d, z, sd, c, t, v, r,
   rz, dz, cz, tz, xz, yz, mz, sz, lmz, bTz, bCz, vz, knXz, knYz, knMz, knSz, knLmz]

def ofCode (n : Nat) : Option AddrType := all.find? fun a => a.code == n

theorem ofCode_code (a : AddrType) : ofCode a.code = some a := by
  cases a <;> rfl

end AddrType

/-- The mark of a string literal among the operands (`ADDR_STR`). -/
def addrStr : Nat := 0x82

/-! ## The shared loops -/

/-- The sum of an element number, which is an `unsigned short`. -/
def elementIndex (i : Nat) : Nat := i % 65536

/-- The loop of the get functions over elements that follow one another: `n` values from number `i`
on, `stride` apart, as long as the number is below `limit`. -/
def getLoop (read : Nat → α) (limit stride : Nat) : Nat → Nat → Except PlcErr Unit × List α
  | 0, _ => (.ok (), [])
  | n + 1, i =>
    if i < limit then
      let (ret, xs) := getLoop read limit stride n (elementIndex (i + stride))
      (ret, read i :: xs)
    else (.error .overElementRang, [])

def saveLoop (write : Nat → α → Store → Store) (limit stride : Nat) :
    List α → Nat → Store → Except PlcErr Unit × Store
  | [], _, s => (.ok (), s)
  | x :: xs, i, s =>
    if i < limit then saveLoop write limit stride xs (elementIndex (i + stride)) (write i x s)
    else (.error .overElementRang, s)

/-- The inner loop of the get functions over a `Kn` operand, from the highest bit down. The value is
built up in place, so that a failure leaves the bits read so far. -/
def getKn {w : Nat} (read : Nat → Bool) (limit start : Nat) :
    Nat → BitVec w → Except PlcErr Unit × BitVec w
  | 0, acc => (.ok (), acc)
  | n + 1, acc =>
    if elementIndex (start + n) < limit then
      getKn read limit start n
        ((acc <<< 1) + BitVec.ofNat w (read (elementIndex (start + n))).toNat)
    else (.error .overElementRang, acc)

/-- The outer loop of the get functions over `Kn` operands of `width` bits. -/
def getKnLoop (w : Nat) (read : Nat → Bool) (limit width start : Nat) :
    Nat → Nat → Except PlcErr Unit × List (BitVec w)
  | 0, _ => (.ok (), [])
  | n + 1, off =>
    match getKn read limit (start + off * width) width (0 : BitVec w) with
    | (.ok (), x) =>
      let (ret, xs) := getKnLoop w read limit width start n (elementIndex (off + 1))
      (ret, x :: xs)
    | (.error e, x) => (.error e, [x])

/-- The inner loop of the save functions over a `Kn` operand, from the lowest bit up. It shifts the
buffer it takes the bits from. -/
def saveKn {w : Nat} (area : BitArea) (start : Nat) :
    Nat → Nat → BitVec w → Store → Except PlcErr Unit × BitVec w × Store
  | 0, _, x, s => (.ok (), x, s)
  | n + 1, i, x, s =>
    if elementIndex (start + i) < area.rang then
      saveKn area start n (i + 1) (x >>> 1) (s.setBit area (elementIndex (start + i)) (x.getLsbD 0))
    else (.error .overElementRang, x, s)

/-- The outer loop of the save functions over `Kn` operands: the result, the buffer as left behind,
and the store. -/
def saveKnLoop {w : Nat} (area : BitArea) (width start : Nat) :
    List (BitVec w) → Nat → Store → Except PlcErr Unit × List (BitVec w) × Store
  | [], _, s => (.ok (), [], s)
  | x :: xs, off, s =>
    match saveKn area (start + off * width) width 0 x s with
    | (.ok (), x', s') =>
      let (ret, xs', s'') := saveKnLoop area width start xs (elementIndex (off + 1)) s'
      (ret, x' :: xs', s'')
    | (.error e, x', s') => (.error e, x' :: xs, s')

/-! ## What the parts of an operand say -/

variable (u : Ucode) (p : Nat) (s : Store)

/-- The element number of an operand at `p`, with the index register of the `Z` forms added. -/
def operandStart (indexed : Bool) : Nat :=
  (if indexed then (s.word .Z (u.getPU8 p)).toNat else 0) + u.getPU16 (p + 2)

/-- The number of nibbles of a `Kn` operand. The `Z` forms have it in the upper half of the sub
byte, with the index register in the lower half. -/
def operandKn (indexed : Bool) : Nat :=
  if indexed then u.getPU8 p / 16 else u.getPU8 p

/-- The first bit of a `Kn` operand. -/
def operandKnStart (indexed : Bool) : Nat :=
  if indexed then elementIndex ((s.word .Z (u.getPU8 p % 16)).toNat + u.getPU16 (p + 2))
  else u.getPU16 (p + 2)

/-! ## Bits -/

/-- The cases of `get_char` at call level `n`: the area and whether a `Z` register is added. -/
def getCharTable (n : Nat) : AddrType → Option (BitArea × Bool)
  | .x => some (.elem .X, false)
  | .y => some (.elem .Y, false)
  | .bC => some (.elem .C, false)
  | .bT => some (.elem .T, false)
  | .sm => some (.elem .SM, false)
  | .m => some (.elem .M, false)
  | .s => some (.elem .S, false)
  | .lm => some (.lm (n + 1), false)
  | .xz => some (.elem .X, true)
  | .yz => some (.elem .Y, true)
  | .mz => some (.elem .M, true)
  | .sz => some (.elem .S, true)
  | .lmz => some (.lm (n + 1), true)
  | .bTz => some (.elem .T, true)
  | .bCz => some (.elem .C, true)
  | _ => none

def saveCharTable (n : Nat) : AddrType → Option (BitArea × Bool)
  | .y => some (.elem .Y, false)
  | .c => some (.elem .C, false)
  | .t => some (.elem .T, false)
  | .sm => some (.elem .SM, false)
  | .m => some (.elem .M, false)
  | .s => some (.elem .S, false)
  | .lm => some (.lm (n + 1), false)
  | .yz => some (.elem .Y, true)
  | .mz => some (.elem .M, true)
  | .sz => some (.elem .S, true)
  | .lmz => some (.lm (n + 1), true)
  | .tz => some (.elem .T, true)
  | .cz => some (.elem .C, true)
  | _ => none

def getChar (n off cnt : Nat) : Except PlcErr Unit × List Bool :=
  match (AddrType.ofCode (u.getPU8 (p + 1))).bind (getCharTable n) with
  | some (area, z) =>
    getLoop (s.getBit area) area.rang 1 cnt (elementIndex (operandStart u p s z + off))
  | none => (.error .elementType, [])

def saveChar (n off : Nat) (xs : List Bool) : Except PlcErr Unit × Store :=
  match (AddrType.ofCode (u.getPU8 (p + 1))).bind (saveCharTable n) with
  | some (area, z) =>
    saveLoop (fun i x s => s.setBit area i x) area.rang 1 xs
      (elementIndex (operandStart u p s z + off)) s
  | none => (.error .elementType, s)

/-- The bit elements of `get_char_in_simpleIns` and `save_char_in_simpleIns`, which have their type
in the first byte. -/
def simpleInsArea (n : Nat) : Option BitArea :=
  match AddrType.ofCode (u.getPU8 p) with
  | some .x => some (.elem .X)
  | some .y => some (.elem .Y)
  | some .bC => some (.elem .C)
  | some .bT => some (.elem .T)
  | some .sm => some (.elem .SM)
  | some .m => some (.elem .M)
  | some .s => some (.elem .S)
  | some .lm => some (.lm (n + 1))
  | _ => none

def getCharInSimpleIns (n : Nat) : Option Bool :=
  (simpleInsArea u p n).map fun area => s.getBit area (u.getPU16 (p + 2))

def saveCharInSimpleIns (n : Nat) (b : Bool) : Store :=
  match simpleInsArea u p n with
  | some area => s.setBit area (u.getPU16 (p + 2)) b
  | none => s

/-! ## Words -/

/-- What a word operand accesses: a literal, joined bits, or an area with the limit it is checked
against. -/
inductive WordForm where
  | const
  | kn (area : BitArea) (indexed : Bool)
  | cells (area : WordArea) (indexed : Bool) (limit : Nat)
deriving DecidableEq, Repr

/-- An area checked against its own size. -/
def WordForm.of (area : WordArea) (indexed : Bool) : WordForm := .cells area indexed area.rang

def getWordTable (n : Nat) : AddrType → Option WordForm
  | .const => some .const
  | .knX => some (.kn (.elem .X) false)
  | .knY => some (.kn (.elem .Y) false)
  | .knM => some (.kn (.elem .M) false)
  | .knS => some (.kn (.elem .S) false)
  | .knLm => some (.kn (.lm n) false)
  | .knSm => some (.kn (.elem .SM) false)
  | .d | .dxY => some (.of (.elem .D) false)
  | .r => some (.of (.elem .R) false)
  | .z => some (.of (.elem .Z) false)
  | .sd => some (.of (.elem .SD) false)
  | .c => some (.of (.elem .C) false)
  | .t => some (.of (.elem .T) false)
  | .v => some (.of (.v n) false)
  | .dz => some (.of (.elem .D) true)
  | .rz => some (.of (.elem .R) true)
  | .cz => some (.of (.elem .C) true)
  | .tz => some (.of (.elem .T) true)
  | .vz => some (.of (.v n) true)
  | .knXz => some (.kn (.elem .X) true)
  | .knYz => some (.kn (.elem .Y) true)
  | .knMz => some (.kn (.elem .M) true)
  | .knSz => some (.kn (.elem .S) true)
  | .knLmz => some (.kn (.lm n) true)
  | _ => none

/-- The cases of `save_word`. The plain `V` operand lies in the layer above the current one, and the
indexed `R` operand is checked against the number of `D` elements. -/
def saveWordTable (n : Nat) : AddrType → Option WordForm
  | .knY => some (.kn (.elem .Y) false)
  | .knM => some (.kn (.elem .M) false)
  | .knS => some (.kn (.elem .S) false)
  | .knLm => some (.kn (.lm n) false)
  | .d | .dxY => some (.of (.elem .D) false)
  | .r => some (.of (.elem .R) false)
  | .z => some (.of (.elem .Z) false)
  | .sd => some (.of (.elem .SD) false)
  | .c => some (.of (.elem .C) false)
  | .t => some (.of (.elem .T) false)
  | .v => some (.of (.v (n + 1)) false)
  | .dz => some (.of (.elem .D) true)
  | .rz => some (.cells (.elem .R) true (WordElement.rang .D))
  | .cz => some (.of (.elem .C) true)
  | .tz => some (.of (.elem .T) true)
  | .vz => some (.of (.v n) true)
  | .knYz => some (.kn (.elem .Y) true)
  | .knMz => some (.kn (.elem .M) true)
  | .knSz => some (.kn (.elem .S) true)
  | .knLmz => some (.kn (.lm n) true)
  | _ => none

/-- `get_word`. A literal is stored once, whatever the count. -/
def getWord (n off cnt : Nat) : Except PlcErr Unit × List (BitVec 16) :=
  match (AddrType.ofCode (u.getPU8 (p + 1))).bind (getWordTable n) with
  | some .const =>
    if 2 ≤ u.getPU8 p then (.error .elementType, [])
    else (.ok (), [BitVec.ofNat 16 (u.getPU16 (p + 2))])
  | some (.kn area z) =>
    if operandKn u p z < 1 ∨ 4 < operandKn u p z then (.error .operands, [])
    else
      getKnLoop 16 (s.getBit area) area.rang (4 * operandKn u p z) (operandKnStart u p s z) cnt off
  | some (.cells area z limit) =>
    getLoop (s.getWord area) limit 1 cnt (elementIndex (operandStart u p s z + off))
  | none => (.error .elementType, [])

/-- `save_word`: the result, the buffer as left behind, and the store. -/
def saveWord (n off : Nat) (xs : List (BitVec 16)) :
    Except PlcErr Unit × List (BitVec 16) × Store :=
  match (AddrType.ofCode (u.getPU8 (p + 1))).bind (saveWordTable n) with
  | some (.kn area z) =>
    if operandKn u p z < 1 ∨ 4 < operandKn u p z then (.error .operands, xs, s)
    else saveKnLoop area (4 * operandKn u p z) (operandKnStart u p s z) xs off s
  | some (.cells area z limit) =>
    let (ret, s') := saveLoop (fun i x s => s.setWord area i x) limit 1 xs
      (elementIndex (operandStart u p s z + off)) s
    (ret, xs, s')
  | _ => (.error .elementType, xs, s)

/-! ## Double words and reals -/

/-- What an operand of 32 bits accesses: a literal, joined bits, two word elements, whose upper half
may be looked for in another area than the lower one, or a counter of 32 bits. -/
inductive DwordForm where
  | const
  | kn (area : BitArea) (indexed : Bool)
  | cells (low high : WordArea) (indexed : Bool) (limit : Nat)
  | counter (indexed : Bool) (scale limit : Nat)
deriving DecidableEq, Repr

/-- Two elements of one area that ends with the second. -/
def DwordForm.of (area : WordArea) (indexed : Bool) : DwordForm :=
  .cells area area indexed (area.rang - 1)

/-- The cases of `get_dword`. A `V` operand has its upper half in the layer above the current one,
and the plain one is checked against the number of `SD` elements. -/
def getDwordTable (n : Nat) : AddrType → Option DwordForm
  | .const => some .const
  | .knX => some (.kn (.elem .X) false)
  | .knY => some (.kn (.elem .Y) false)
  | .knM => some (.kn (.elem .M) false)
  | .knS => some (.kn (.elem .S) false)
  | .knLm => some (.kn (.lm n) false)
  | .knSm => some (.kn (.elem .SM) false)
  | .d => some (.of (.elem .D) false)
  | .r => some (.of (.elem .R) false)
  | .sd => some (.of (.elem .SD) false)
  | .c => some (.counter false 2 (cRang - 1))
  | .v => some (.cells (.v n) (.v (n + 1)) false (WordElement.rang .SD - 1))
  | .dz => some (.of (.elem .D) true)
  | .rz => some (.of (.elem .R) true)
  | .cz => some (.counter true 2 (cRang - 1))
  | .vz => some (.cells (.v n) (.v (n + 1)) true (vRang - 1))
  | .knXz => some (.kn (.elem .X) true)
  | .knYz => some (.kn (.elem .Y) true)
  | .knMz => some (.kn (.elem .M) true)
  | .knSz => some (.kn (.elem .S) true)
  | .knLmz => some (.kn (.lm n) true)
  | _ => none

def saveDwordTable (n : Nat) : AddrType → Option DwordForm
  | .knY => some (.kn (.elem .Y) false)
  | .knM => some (.kn (.elem .M) false)
  | .knS => some (.kn (.elem .S) false)
  | .knLm => some (.kn (.lm n) false)
  | .d => some (.of (.elem .D) false)
  | .r => some (.of (.elem .R) false)
  | .sd => some (.of (.elem .SD) false)
  | .c => some (.counter false 1 cRang)
  | .v => some (.of (.v n) false)
  | .dz => some (.of (.elem .D) true)
  | .rz => some (.of (.elem .R) true)
  | .cz => some (.counter true 2 cRang)
  | .vz => some (.of (.v n) true)
  | .knYz => some (.kn (.elem .Y) true)
  | .knMz => some (.kn (.elem .M) true)
  | .knSz => some (.kn (.elem .S) true)
  | .knLmz => some (.kn (.lm n) true)
  | _ => none

/-- The cases of `get_float`; `save_float` has the same without the literal. -/
def floatTable (n : Nat) : AddrType → Option DwordForm
  | .const => some .const
  | .d => some (.of (.elem .D) false)
  | .r => some (.of (.elem .R) false)
  | .v => some (.of (.v n) false)
  | .dz => some (.of (.elem .D) true)
  | .rz => some (.of (.elem .R) true)
  | .vz => some (.of (.v n) true)
  | _ => none

/-- The least number of nibbles a `Kn` operand of `get_dword` may have. -/
def getDwordKnMin (indexed : Bool) : Nat := if indexed then 1 else 5

/-- Store the two halves of a double word. -/
def setDword (low high : WordArea) (i : Nat) (x : BitVec 32) (s : Store) : Store :=
  (s.setWord low i (x.setWidth 16)).setWord high (i + 1) ((x >>> 16).setWidth 16)

def getDword (n off cnt : Nat) : Except PlcErr Unit × List (BitVec 32) :=
  match (AddrType.ofCode (u.getPU8 (p + 1))).bind (getDwordTable n) with
  | some .const =>
    if u.getPU8 p < 2 ∨ 3 < u.getPU8 p then (.error .elementType, [])
    else (.ok (), [BitVec.ofNat 32 (u.getPU32 (p + 2))])
  | some (.kn area z) =>
    if operandKn u p z < getDwordKnMin z ∨ 8 < operandKn u p z then (.error .operands, [])
    else
      getKnLoop 32 (s.getBit area) area.rang (4 * operandKn u p z) (operandKnStart u p s z) cnt off
  | some (.cells low high z limit) =>
    getLoop (fun i => s.getWord high (i + 1) ++ s.getWord low i) limit 2 cnt
      (elementIndex (operandStart u p s z + off * 2))
  | some (.counter z scale limit) =>
    getLoop s.c32 limit 1 cnt (elementIndex (operandStart u p s z + off * scale))
  | none => (.error .elementType, [])

/-- `save_dword`: the result, the buffer as left behind, and the store. -/
def saveDword (n off : Nat) (xs : List (BitVec 32)) :
    Except PlcErr Unit × List (BitVec 32) × Store :=
  match (AddrType.ofCode (u.getPU8 (p + 1))).bind (saveDwordTable n) with
  | some (.kn area z) =>
    if operandKn u p z < 5 ∨ 8 < operandKn u p z then (.error .operands, xs, s)
    else saveKnLoop area (4 * operandKn u p z) (operandKnStart u p s z) xs off s
  | some (.cells low high z limit) =>
    let (ret, s') := saveLoop (setDword low high) limit 2 xs
      (elementIndex (operandStart u p s z + off * 2)) s
    (ret, xs, s')
  | some (.counter z scale limit) =>
    let (ret, s') := saveLoop (fun i x s => s.setC32 i x) limit 1 xs
      (elementIndex (operandStart u p s z + off * scale)) s
    (ret, xs, s')
  | _ => (.error .elementType, xs, s)

def getFloat (n off cnt : Nat) : Except PlcErr Unit × List (BitVec 32) :=
  match (AddrType.ofCode (u.getPU8 (p + 1))).bind (floatTable n) with
  | some .const =>
    if u.getPU8 p ≠ 4 then (.error .elementType, [])
    else (.ok (), [BitVec.ofNat 32 (u.getPU32 (p + 2))])
  | some (.cells low high z limit) =>
    getLoop (fun i => s.getWord high (i + 1) ++ s.getWord low i) limit 2 cnt
      (elementIndex (operandStart u p s z + off * 2))
  | _ => (.error .elementType, [])

def saveFloat (n off : Nat) (xs : List (BitVec 32)) : Except PlcErr Unit × Store :=
  match (AddrType.ofCode (u.getPU8 (p + 1))).bind (floatTable n) with
  | some (.cells low high z limit) =>
    saveLoop (setDword low high) limit 2 xs (elementIndex (operandStart u p s z + off * 2)) s
  | _ => (.error .elementType, s)

end Kalyke
