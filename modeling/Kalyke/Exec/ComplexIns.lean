-- SUMMARY: The interpreter of the complex instructions.
import Kalyke.Exec.FlowCtrl

/-!
# Running Complex Instructions

`plc_exec_complex_instruction`: one case for each opcode, with the length by which it advances the
program counter when the instruction does not do so itself.
-/

namespace Kalyke

/-- The lengths by which the plain cases of `plc_exec_complex_instruction` advance, none for the
instructions of the compiler that have no case here. -/
def DataIns.execLength : DataIns → Option Nat
  | .ei | .di | .wdt | .anr => some 2
  | .ldLm | .ldiLm | .andLm | .aniLm | .orLm | .oriLm | .outLm | .setLm | .rstLm | .rstS | .setS
  | .outS | .rstT | .rstC | .swap | .inc | .dec | .reff | .trd | .twr | .alt | .rnd => some 6
  | .dinc | .ddec | .ldDxY | .ldiDxY | .andDxY | .aniDxY | .orDxY | .oriDxY | .setDxY | .rstDxY
  | .outDxY => some 8
  | .ton | .tof | .tonr | .ctu | .ctr | .mov | .xch | .sqt | .vabs | .neg | .winv | .bcd | .bin
  | .gry | .gbin | .seg | .pr | .ref | .deco | .enco | .bits | .zrst | .zset | .bld | .bldi | .band
  | .bandi | .bor | .bori | .bset | .brst | .bout | .strlen | .loadr | .initr | .initer | .htos
  | .stoh => some 10
  | .flt | .int | .eromwr | .dbits | .itd | .dti | .tmon | .evfwd | .evrev | .evdfwd
  | .evdrev => some 12
  | .dcnt | .dmov | .bmov | .fmov | .dxch | .push | .add | .sub | .div | .dsqt | .dvabs | .dneg
  | .rsqt | .sin | .cos | .tan | .ln | .exp | .rneg | .rvabs | .wand | .wor | .wxor | .dwinv | .ror
  | .rol | .rcr | .rcl | .shr | .shl | .dflt | .dint | .dbcd | .dbin | .dgry | .dgbin | .ita | .ati
  | .xmt | .tadd | .tsub | .fifo | .lifo | .bon | .pwm | .spd | .hcnt | .rmov | .rcv | .dcmpe
  | .dcmpg | .dcmpl | .dcmpne | .dcmple | .dcmpge | .tcmpe | .tcmpg | .tcmpl | .tcmpne | .tcmple
  | .tcmpge | .ccitt | .crc16 | .lrc | .pls | .cmp | .asin | .acos | .atan | .log | .rad | .deg
  | .mean | .wtob | .btow | .uni | .dis | .ans | .scl | .strright | .strleft | .strmidr | .strmidw
  | .saver | .duty => some 14
  | .mul | .hour | .modbus | .sum | .abs | .plsv | .evstop | .evfrq => some 16
  | .dfmov | .wsfl | .dror | .drol | .drcr | .drcl | .dshr | .dshl | .sftr | .sftl | .from_ | .to_
  | .pid | .plsy | .wsfr | .dsum | .rsum | .dszr | .lcnv | .lcmp | .rcmp | .gearbox | .bkadd
  | .bksub | .bkcmpde | .bkcmpdg | .bkcmpdl | .bkcmpdne | .bkcmpdle | .bkcmpdge | .limit | .dband
  | .zone | .ser | .swapword => some 18
  | .dadd | .dsub | .dmul | .ddiv | .radd | .rsub | .rmul | .rdiv | .power | .dwand | .dwor | .dwxor
  | .dhscs | .dhscr | .dhst | .dhsp | .plsr | .dfrom | .dto | .dhsci | .evwrt | .evrdst | .evrd
  | .canmxmt | .tcpPing | .dhspi | .drvc => some 20
  | .cambox | .logr | .camtable => some 22
  | .ramp | .hackle | .triangle | .zrn | .drvi | .drva | .plsb | .rlcnv | .tcpXmt | .tcpRcv | .lin
  | .cw | .ccw | .stopdv => some 24
  | .dhsz | .canxmt | .canrcv | .drv => some 26
  | .modrw => some 28
  | .tcpConn => some 32
  | .movelink => some 34
  | .ecatsdord | .ecatsdowr => some 36
  | .asc => some 38
  | .vrrd | .absd | .dabsd | .modlink | .mbcconn | .modtcplink | .s7tcplink | .tky => none

/-- The instructions whose case only returns `ERR_ILLEGAL_INSTRCTION`. -/
def DataIns.unsupported : DataIns → Bool
  | .pr | .from_ | .to_ | .eromwr | .ref | .dfrom | .dto | .ramp | .hackle | .triangle | .abs | .pls
  | .dszr | .evfwd | .evrev | .evdfwd | .evdrev | .evstop | .evfrq | .evwrt | .evrdst | .evrd
  | .canxmt | .canrcv | .canmxmt | .dhspi | .lin | .cw | .ccw | .drv | .movelink | .stopdv
  | .gearbox | .cambox | .loadr | .saver | .initr | .logr | .initer | .camtable | .drvc => true
  | _ => false

/-- The interpreter's length of `CI_STRADD`. It takes a string literal to be marked by `ADDR_STR` in
the upper byte of the operand, with the literal's length in the lower one. -/
def straddExecLength (u : Ucode) (p : Nat) : Nat :=
  let first := if u.getPU8 (p + 3) = addrStr then u.getPU8 (p + 2) + 4 else 6
  let second := if u.getPU8 (p + first + 1) = addrStr then u.getPU8 (p + first) + 6 else 8
  first + second

/-- The interpreter's length of `CI_STRINSTR`. -/
def strinstrExecLength (u : Ucode) (p : Nat) : Nat :=
  if u.getPU8 (p + 3) = addrStr then u.getPU8 (p + 2) + 16 else 18

/-- The interpreter's length of `CI_STRMOV`. -/
def strmovExecLength (u : Ucode) (p : Nat) : Nat :=
  if u.getPU8 (p + 3) = addrStr then u.getPU8 (p + 2) + 8 else 10

section

variable (out : Outside) (t : CompState) (u : Ucode) (now : BitVec 32) (env : RunEnv) (plc : Plc)

/-- What the body of the current instruction is run on. -/
def bodyInput : BodyInput := ⟨u, env.pc, plc.sbrNestedNum, now, env.inPF, plc.sfc, plc.store⟩

/-- Run a body that belongs to another file and advance by `n`. -/
def runBody (i : ComplexIns) (n : Nat) : InsResult :=
  let (ret, inPF, s) := out.body i (bodyInput u now env plc)
  ⟨.ofExcept ret, .next n, inPF, env.outPF, { plc with store := s }⟩

/-- The plain cases. -/
def execDataIns (d : DataIns) : InsResult :=
  match d.execLength with
  | none => env.done (.err .illegalInstrction) .stay plc
  | some n =>
    let store (f : BodyInput → Store) : InsResult :=
      env.done .pass (.next n) { plc with store := f (bodyInput u now env plc) }
    if d.unsupported then env.done (.err .illegalInstrction) (.next n) plc
    else match d with
      | .setS => store runCiSetSIns
      | .outS => store runCiOutSIns
      | .rstS => store runCiRstSIns
      | .wdt => store runCiWdtIns
      | _ => runBody out u now env plc (.data d) n

/-- The relation a comparison contact on integers tests. -/
def CmpRel.test {w : Nat} (a b : BitVec w) : CmpRel → Bool
  | e => a == b
  | g => b.slt a
  | l => a.slt b
  | ne => a != b
  | le => a.sle b
  | ge => b.sle a

/-- The two values of a comparison contact, none of them if an operand is in error. -/
def compareOperands {w : Nat} (get : Nat → Except PlcErr Unit × List (BitVec w)) (p q : Nat) :
    Except PlcErr (BitVec w × BitVec w) :=
  match get p, get q with
  | (.error e, _), _ => .error e
  | (.ok (), _), (.error e, _) => .error e
  | (.ok (), xs), (.ok (), ys) => .ok (xs.headD 0, ys.headD 0)

/-- Whether a comparison contact is closed. -/
def compareClosed (k : CmpConn) (r : CmpRel) : CmpWidth → Except PlcErr Bool
  | .word =>
    (compareOperands (getWord u · plc.store plc.sbrNestedNum 0 1) (env.pc + 2) (env.pc + 6)).map
      fun (a, b) => r.test a b
  | .dword =>
    (compareOperands (getDword u · plc.store plc.sbrNestedNum 0 1) (env.pc + 2) (env.pc + 8)).map
      fun (a, b) => r.test a b
  | .real =>
    (compareOperands (getFloat u · plc.store plc.sbrNestedNum 0 1) (env.pc + 2) (env.pc + 8)).map
      fun (a, b) => out.realCompare k r a b

/-- A serial comparison contact is evaluated with power flow only, a parallel one without. -/
def CmpConn.evaluates (pf : BitVec 32) : CmpConn → Bool
  | ld => true
  | and => getPowerFlow pf
  | or => !getPowerFlow pf

/-- The effect of a comparison contact that has been evaluated. -/
def CmpConn.run (pf : BitVec 32) (closed : Bool) : CmpConn → BitVec 32
  | ld => putPowerFlow (pf <<< 1) closed
  | and => if closed then pf else rstPowerFlow pf
  | or => if closed then setPowerFlow pf else pf

/-- The length by which a comparison contact advances. -/
def CmpWidth.execLength : CmpWidth → Nat
  | word => 10
  | dword | real => 14

/-- The comparison contacts. An operand in error is reported before the program counter is moved. -/
def execCompareIns (w : CmpWidth) (k : CmpConn) (r : CmpRel) : InsResult :=
  if k.evaluates env.inPF then
    match compareClosed out u env plc k r w with
    | .error e => env.done (.err e) .stay plc
    | .ok closed => ⟨.pass, .next w.execLength, k.run env.inPF closed, env.outPF, plc⟩
  else env.done .pass (.next w.execLength) plc

/-- An instruction that returns with power flow and is passed over without. -/
def returnWithPower (ret : RetValue) : InsResult :=
  env.done (if getPowerFlow env.inPF then ret else .pass) (.next 2) plc

/-- The cases of `plc_exec_complex_instruction`. -/
def ComplexIns.exec : ComplexIns → InsOutcome
  | lbl => .done (env.done .pass (.next 6) plc)
  | sbr | intr => .done (env.done .pass (.next 4) plc)
  | stl => .done (runCiStlIns out t u now env plc)
  | ret => .done (env.done .pass (.next 2) { plc with sfc := { plc.sfc with sfcEnable := false } })
  | mc => .done (runCiMcIns out t u now env plc)
  | mcr => .done (env.done .pass (.next 6) plc)
  | cj => .done (runCiCjIns u env plc)
  | for_ => .done (runCiForIns u env plc)
  | next => .done (runCiNextIns env plc)
  | continue_ | break_ => .done (env.done .pass .stay plc)
  | call => runCiCallIns out t u now env plc
  | csret => .done (if getPowerFlow env.inPF then env.done .sret .stay plc
      else env.done .pass (.next 2) plc)
  | sret => .done (env.done .sret .stay plc)
  | ciret => .done (returnWithPower env plc .iret)
  | iret => .done (env.done .iret .stay plc)
  | stop => .done (returnWithPower env (if getPowerFlow env.inPF then
      plc.onStore fun s => { s with cmdStop := true } else plc) .stop)
  | cfend => .done (returnWithPower env plc .fend)
  | fend => .done (env.done .fend (.next 10) plc)
  | stradd => .done (runBody out u now env plc .stradd (straddExecLength u env.pc))
  | strinstr => .done (runBody out u now env plc .strinstr (strinstrExecLength u env.pc))
  | strmov => .done (runBody out u now env plc .strmov (strmovExecLength u env.pc))
  | compare w k r => .done (execCompareIns out u env plc w k r)
  | data d => .done (execDataIns out u now env plc d)

/-- One pass over the loop of `plc_exec_complex_instruction`. -/
def execComplexIns : InsOutcome :=
  match ComplexIns.ofCode (u.getPU16 env.pc) with
  | some i => i.exec out t u now env plc
  | none => .done (env.done (.err .illegalInstrction) .stay plc)

end

end Kalyke
