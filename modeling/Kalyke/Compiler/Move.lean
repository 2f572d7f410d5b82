-- SUMMARY: How far the compiler moves its pointer over one instruction, and what it stores on the way.
import Kalyke.Common.Error
import Kalyke.Compiler.State
import Kalyke.Ucode.ComplexIns
import Kalyke.Ucode.Memory
import Kalyke.Ucode.SimpleIns

/-!
# Moving over Instructions

`plc_move_ucode_ptr_from_simple_ins` and `plc_move_ucode_ptr_from_complex_ins`: the length the
compiler gives to each instruction, and for the block instructions the table entries it makes.
-/

namespace Kalyke

open Function

variable {u : Ucode} {p : Nat}

/-! ## Lengths -/

/-- The lengths in the switch of `plc_move_ucode_ptr_from_simple_ins`. -/
def SimpleIns.moveLength : SimpleIns → Nat
  | contact _ _ ext => if ext then 4 else 2
  | coil _ _ ext => if ext then 4 else 2
  | contactLm _ | coilLm _ => 2
  | inv | anb | orb | mps | mrd | mpp | nop => 2
  | eu | ed => 4
  | pulse _ => 6

/-- The lengths of the plain cases in the switch of `plc_move_ucode_ptr_from_complex_ins`. -/
def DataIns.moveLength : DataIns → Nat
  | .ei | .di | .wdt | .anr => 2
  | .ldLm | .ldiLm | .andLm | .aniLm | .orLm | .oriLm | .outLm | .setLm | .rstLm | .rstS | .setS
  | .outS | .rstT | .rstC | .swap | .inc | .dec | .reff | .trd | .twr | .alt | .rnd => 6
  | .dinc | .ddec | .ldDxY | .ldiDxY | .andDxY | .aniDxY | .orDxY | .oriDxY | .setDxY | .rstDxY
  | .outDxY => 8
  | .ton | .tof | .tonr | .ctu | .ctr | .mov | .xch | .sqt | .vabs | .neg | .winv | .bcd | .bin
  | .gry | .gbin | .seg | .pr | .ref | .deco | .enco | .bits | .zrst | .zset | .bld | .bldi | .band
  | .bandi | .bor | .bori | .bset | .brst | .bout | .vrrd | .strlen | .loadr | .initr | .initer
  | .htos | .stoh => 10
  | .flt | .int | .eromwr | .dbits | .itd | .dti | .tmon | .evfwd | .evrev | .evdfwd | .evdrev => 12
  | .dcnt | .dmov | .bmov | .fmov | .dxch | .push | .add | .sub | .div | .dsqt | .dvabs | .dneg
  | .rsqt | .sin | .cos | .tan | .ln | .exp | .rneg | .rvabs | .wand | .wor | .wxor | .dwinv | .ror
  | .rol | .rcr | .rcl | .shr | .shl | .dflt | .dint | .dbcd | .dbin | .dgry | .dgbin | .ita | .ati
  | .xmt | .tadd | .tsub | .fifo | .lifo | .bon | .pwm | .spd | .hcnt | .rmov | .rcv | .dcmpe
  | .dcmpg | .dcmpl | .dcmpne | .dcmple | .dcmpge | .tcmpe | .tcmpg | .tcmpl | .tcmpne | .tcmple
  | .tcmpge | .ccitt | .crc16 | .lrc | .pls | .cmp | .asin | .acos | .atan | .log | .rad | .deg
  | .tky | .mean | .wtob | .btow | .uni | .dis | .ans | .scl | .strright | .strleft | .strmidr
  | .strmidw | .saver | .duty => 14
  | .mul | .hour | .modbus | .sum | .abs | .plsv | .evstop | .evfrq => 16
  | .dfmov | .wsfl | .dror | .drol | .drcr | .drcl | .dshr | .dshl | .sftr | .sftl | .from_ | .to_
  | .pid | .plsy | .wsfr | .dsum | .rsum | .dszr | .lcnv | .lcmp | .rcmp | .absd | .gearbox | .bkadd
  | .bksub | .bkcmpde | .bkcmpdg | .bkcmpdl | .bkcmpdne | .bkcmpdle | .bkcmpdge | .limit | .dband
  | .zone | .ser | .swapword => 18
  | .dadd | .dsub | .dmul | .ddiv | .radd | .rsub | .rmul | .rdiv | .power | .dwand | .dwor | .dwxor
  | .dhscs | .dhscr | .dhst | .dhsp | .plsr | .dfrom | .dto | .dhsci | .evwrt | .evrdst | .evrd
  | .canmxmt | .tcpPing | .modlink | .dhspi | .drvc => 20
  | .dabsd | .cambox | .logr | .camtable => 22
  | .ramp | .hackle | .triangle | .zrn | .drvi | .drva | .plsb | .rlcnv | .tcpXmt | .tcpRcv | .lin
  | .cw | .ccw | .stopdv => 24
  | .dhsz | .canxmt | .canrcv | .drv => 26
  | .modrw | .mbcconn | .modtcplink | .s7tcplink => 28
  | .tcpConn => 32
  | .movelink => 34
  | .ecatsdord | .ecatsdowr => 36
  | .asc => 38

/-- The length of a comparison contact. -/
def CmpWidth.moveLength : CmpWidth → Nat
  | word => 10
  | dword | real => 14

/-- `plc_call_instruction_length`: the sum comes back in an `unsigned short`. -/
def plcCallInstructionLength (u : Ucode) (p : Nat) : Nat :=
  (10 + u.getPU16 (p + 4) + u.getPU16 (p + 6) + u.getPU16 (p + 8)) % 65536

/-- The compiler's length of `CI_STRADD`. It takes a string literal to be marked by `0x82` in the
lower byte of the operand, with the literal's length in the upper one. -/
def straddMoveLength (u : Ucode) (p : Nat) : Nat :=
  let first := if u.getPU8 (p + 2) = 0x82 then u.getPU8 (p + 3) + 4 else 6
  let second := if u.getPU8 (p + first) = 0x82 then u.getPU8 (p + first + 1) + 6 else 8
  first + second

/-- The compiler's length of `CI_STRINSTR`, with the literal marked as for `CI_STRADD`. -/
def strinstrMoveLength (u : Ucode) (p : Nat) : Nat :=
  if u.getPU8 (p + 2) = 0x82 then u.getPU8 (p + 3) + 16 else 18

/-- The compiler's length of `CI_STRMOV`. Here the mark is in the upper byte. -/
def strmovMoveLength (u : Ucode) (p : Nat) : Nat :=
  if u.getPU8 (p + 3) = 0x82 then u.getPU8 (p + 2) + 8 else 10

/-- The inner loop of `CI_STL`: the number of step instructions that follow one another from `p`
on. A step instruction is not zero and so stands inside the memory, which bounds the count. -/
def stlScan (u : Ucode) : Nat → Nat → Nat
  | 0, _ => 1
  | fuel + 1, p =>
    if u.getPU16 (p + 10) = ComplexIns.stl.code then stlScan u fuel (p + 10) + 1 else 1

/-- The number of consecutive `CI_STL` that the compiler takes together at `p`. -/
def stlRun (u : Ucode) (p : Nat) : Nat := stlScan u u.length p

/-- How far `plc_move_ucode_ptr_from_complex_ins` moves over each instruction. `CI_CONTINUE` and
`CI_BREAK` have no case there. -/
def ComplexIns.moveLength (u : Ucode) (p : Nat) : ComplexIns → Option Nat
  | fend | cfend | next | iret | ciret | stop | csret | sret | ret => some 2
  | sbr | intr => some 4
  | lbl | mcr => some 6
  | cj | for_ | mc => some 10
  | compare w _ _ => some w.moveLength
  | data d => some d.moveLength
  | stradd => some (straddMoveLength u p)
  | strinstr => some (strinstrMoveLength u p)
  | strmov => some (strmovMoveLength u p)
  | call => some (plcCallInstructionLength u p)
  | stl => some (10 * stlRun u p)
  | continue_ | break_ => none

/-- The subroutine number of `CI_SBR`, none if the operand is in neither of the two ranges. -/
def sbrNumber (u : Ucode) (p : Nat) : Option Nat :=
  let n := u.getPU16 (p + 2)
  if (0x100 ≤ n ∧ n ≤ 0x1FF) ∨ (0x400 ≤ n ∧ n ≤ 0x4FF) then some (n % 256) else none

/-- The interrupt number of `CI_INTR`. -/
def intrNumber (u : Ucode) (p : Nat) : Option Nat :=
  let n := u.getPU16 (p + 2)
  if 0x200 ≤ n ∧ n ≤ 0x2FF then some (n % 256) else none

/-- The step number of a `CI_STL`. -/
def stlNumber (u : Ucode) (p : Nat) : Nat := u.getPU16 (p + 4)

/-! ## Table entries -/

namespace CompState

/-- The `CI_CALL` case: note the call's address. -/
def recordCall (s : CompState) (p : Nat) : CompState :=
  { s with
    ucodeAddr := update s.ucodeAddr s.useNum p
    useNum := s.useNum + 1
    stores := s.stores ++ [.call s.useNum] }

/-- The `CI_SBR` case: note the entry point and start the subroutine's lists. -/
def enterSbr (s : CompState) (n p : Nat) : CompState :=
  { s with
    sbrPc := update s.sbrPc n p
    flag := .sub
    sbrListPtr := some n
    sbrList := update s.sbrList n .init
    stores := s.stores ++ [.sbr n] }

/-- The `CI_SRET` case. -/
def leaveSbr (s : CompState) : CompState := { s with flag := .normal, sbrListPtr := none }

/-- The `CI_INTR` case. -/
def recordIntr (s : CompState) (n p : Nat) : CompState :=
  { s with
    intPara := update s.intPara n (some p)
    stores := s.stores ++ [.intr n] }

/-- The `CI_MC` case up to its allocation, whose result is stored before it is looked at. -/
def storeMc (s : CompState) : CompState :=
  { s with
    flag := .mcMcr
    mallocs := s.mallocs + 1
    stores := s.stores ++ [.mc s.nestedLevel] }

/-- The `CI_MC` case once its node is allocated. -/
def enterMc (s : CompState) (p : Nat) : CompState :=
  { s.storeMc with
    mcListPtr := update s.mcListPtr s.nestedLevel s.mcBlocks.length
    mcBlocks := s.mcBlocks ++ [⟨p, .init⟩]
    nestedLevel := (s.nestedLevel + 1) % 256 }

/-- The `CI_MCR` case. Only closing the outermost block resets the flag. -/
def leaveMc (s : CompState) : CompState :=
  let level := s.nestedLevel - 1
  { s with
    nestedLevel := level
    flag := if level = 0 then .normal else s.flag }

/-- The `CI_STL` case for a single step. -/
def enterStl (s : CompState) (n : Nat) : CompState :=
  { s with
    flag := .stl
    stlListPtr := some n
    stlList := update s.stlList n .init
    stores := s.stores ++ [.stl n] }

/-- The `CI_RET` case, and the `CI_STL` case for merging branches. -/
def leaveStl (s : CompState) : CompState := { s with flag := .normal, stlListPtr := none }

end CompState

/-! ## The two move functions -/

def plcMoveUcodePtrFromSimpleIns (u : Ucode) (p : Nat) : Except PlcErr Nat :=
  match SimpleIns.ofCode (u.getPU8 (p + 1)) with
  | some i => .ok (p + i.moveLength)
  | none => .error .compiler

/-- What the cases of `plc_move_ucode_ptr_from_complex_ins` do to the tables. `alloc n` says whether
the `n`-th call of `pvPortMalloc` succeeds. -/
def ComplexIns.fillTables (alloc : Nat → Bool) (u : Ucode) (p : Nat) (s : CompState) :
    ComplexIns → Except PlcErr Unit × CompState
  | call => (.ok (), s.recordCall p)
  | sbr =>
    match sbrNumber u p with
    | some n => (.ok (), s.enterSbr n p)
    | none => (.error .userProgram, s)
  | sret => (.ok (), s.leaveSbr)
  | intr =>
    match intrNumber u p with
    | some n => (.ok (), s.recordIntr n p)
    | none => (.error .userProgram, s)
  | mc => if alloc s.mallocs then (.ok (), s.enterMc p) else (.error .noFreeMemory, s.storeMc)
  | mcr => (.ok (), s.leaveMc)
  | stl => (.ok (), if stlRun u p = 1 then s.enterStl (stlNumber u p) else s.leaveStl)
  | ret => (.ok (), s.leaveStl)
  | _ => (.ok (), s)

def plcMoveUcodePtrFromComplexIns (alloc : Nat → Bool) (u : Ucode) (p : Nat) (s : CompState) :
    Except PlcErr Nat × CompState :=
  match ComplexIns.ofCode (u.getPU16 p) with
  | none => (.error .compiler, s)
  | some i =>
    match i.moveLength u p with
    | none => (.error .compiler, s)
    | some n =>
      match i.fillTables alloc u p s with
      | (.ok (), s') => (.ok (p + n), s')
      | (.error e, s') => (.error e, s')

end Kalyke
