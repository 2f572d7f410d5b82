-- SUMMARY: The complex instructions: their two-byte opcodes, split by how their length is found.
import Mathlib.Tactic.Common

/-!
# Complex Instructions

A complex instruction starts with a halfword opcode from `0xF000` on. Three groups are told apart:
the instructions with a treatment of their own in the compiler or the interpreter, the comparison
contacts, whose opcodes form a regular table, and the rest, which have a fixed length and run one
function of the data instruction files.
-/

namespace Kalyke

/-- The instructions of fixed length that both switches treat alike, by their `CI_` names. -/
inductive DataIns where
  | ldLm | ldiLm | andLm | aniLm | orLm | oriLm | outLm | setLm | rstLm | rstS | setS | outS | ton
  | tof | tonr | rstT | dcnt | ctu | ctr | rstC | ei | di | wdt | mov | dmov | bmov | fmov | dfmov
  | swap | xch | dxch | push | wsfl | add | sub | mul | div | sqt | inc | dec | vabs | neg | dadd
  | dsub | dmul | ddiv | dsqt | dinc | ddec | dvabs | dneg | radd | rsub | rmul | rdiv | rsqt | sin
  | cos | tan | ln | exp | rneg | power | rvabs | wand | wor | wxor | winv | dwand | dwor | dwxor
  | dwinv | ror | rol | rcr | rcl | dror | drol | drcr | drcl | shr | shl | dshr | dshl | sftr
  | sftl | flt | dflt | int | dint | bcd | dbcd | bin | dbin | gry | dgry | gbin | dgbin | seg | asc
  | ita | ati | pr | from_ | to_ | eromwr | ref | reff | deco | enco | bits | zrst | zset | pid
  | xmt | trd | twr | tadd | tsub | fifo | lifo | hour | bld | bldi | band | bandi | bor | bori
  | dbits | bon | dhscs | dhscr | dhsz | dhst | dhsp | plsy | plsr | pwm | spd | hcnt | dfrom | dto
  | dhsci | bset | brst | wsfr | itd | dti | bout | rmov | rcv | vrrd | modbus | sum | dsum | rsum
  | dcmpe | dcmpg | dcmpl | dcmpne | dcmple | dcmpge | tcmpe | tcmpg | tcmpl | tcmpne | tcmple
  | tcmpge | ramp | hackle | triangle | tmon | ccitt | crc16 | lrc | abs | zrn | plsv | drvi | drva
  | pls | dszr | plsb | evfwd | evrev | evdfwd | evdrev | evstop | evfrq | evwrt | evrdst | evrd
  | canxmt | canrcv | canmxmt | lcnv | cmp | lcmp | rcmp | alt | absd | dabsd | modrw | asin | acos
  | atan | rlcnv | tcpConn | tcpXmt | tcpRcv | tcpPing | modlink | mbcconn | modtcplink | s7tcplink
  | log | rad | deg | tky | dhspi | ldDxY | ldiDxY | andDxY | aniDxY | orDxY | oriDxY | setDxY
  | rstDxY | outDxY | lin | cw | ccw | drv | movelink | stopdv | gearbox | cambox | mean | wtob
  | btow | uni | dis | ans | anr | bkadd | bksub | bkcmpde | bkcmpdg | bkcmpdl | bkcmpdne | bkcmpdle
  | bkcmpdge | limit | dband | zone | scl | ser | strlen | strright | strleft | strmidr | strmidw
  | loadr | saver | initr | logr | initer | camtable | drvc | rnd | duty | htos | stoh | ecatsdord
  | ecatsdowr | swapword
deriving DecidableEq, Repr

namespace DataIns

/-- The opcodes of `plc_instruction.h`. -/
def code : DataIns → Nat
  | ldLm => 0xF003 | ldiLm => 0xF004 | andLm => 0xF005 | aniLm => 0xF006 | orLm => 0xF007
  | oriLm => 0xF008 | outLm => 0xF009 | setLm => 0xF00A | rstLm => 0xF00B | rstS => 0xF00F
  | setS => 0xF010 | outS => 0xF011 | ton => 0xF014 | tof => 0xF015 | tonr => 0xF016
  | rstT => 0xF017 | dcnt => 0xF018 | ctu => 0xF019 | ctr => 0xF01A | rstC => 0xF01B | ei => 0xF026
  | di => 0xF027 | wdt => 0xF029 | mov => 0xF02D | dmov => 0xF02E | bmov => 0xF02F | fmov => 0xF031
  | dfmov => 0xF032 | swap => 0xF033 | xch => 0xF035 | dxch => 0xF036 | push => 0xF037
  | wsfl => 0xF038 | add => 0xF06F | sub => 0xF070 | mul => 0xF071 | div => 0xF072 | sqt => 0xF073
  | inc => 0xF074 | dec => 0xF075 | vabs => 0xF076 | neg => 0xF077 | dadd => 0xF079 | dsub => 0xF07A
  | dmul => 0xF07B | ddiv => 0xF07C | dsqt => 0xF07D | dinc => 0xF07E | ddec => 0xF07F
  | dvabs => 0xF080 | dneg => 0xF081 | radd => 0xF083 | rsub => 0xF084 | rmul => 0xF085
  | rdiv => 0xF086 | rsqt => 0xF087 | sin => 0xF088 | cos => 0xF089 | tan => 0xF08A | ln => 0xF08B
  | exp => 0xF08C | rneg => 0xF08D | power => 0xF08E | rvabs => 0xF08F | wand => 0xF090
  | wor => 0xF091 | wxor => 0xF092 | winv => 0xF093 | dwand => 0xF094 | dwor => 0xF095
  | dwxor => 0xF096 | dwinv => 0xF097 | ror => 0xF098 | rol => 0xF099 | rcr => 0xF09A
  | rcl => 0xF09B | dror => 0xF09C | drol => 0xF09D | drcr => 0xF09E | drcl => 0xF09F
  | shr => 0xF0A0 | shl => 0xF0A1 | dshr => 0xF0A2 | dshl => 0xF0A3 | sftr => 0xF0A4
  | sftl => 0xF0A5 | flt => 0xF0A8 | dflt => 0xF0A9 | int => 0xF0AA | dint => 0xF0AB | bcd => 0xF0AC
  | dbcd => 0xF0AD | bin => 0xF0AE | dbin => 0xF0AF | gry => 0xF0B0 | dgry => 0xF0B1
  | gbin => 0xF0B2 | dgbin => 0xF0B3 | seg => 0xF0B4 | asc => 0xF0B5 | ita => 0xF0B6 | ati => 0xF0B7
  | pr => 0xF0B8 | from_ => 0xF0BB | to_ => 0xF0BC | eromwr => 0xF0BD | ref => 0xF0BE
  | reff => 0xF0BF | deco => 0xF0C0 | enco => 0xF0C1 | bits => 0xF0C2 | zrst => 0xF0C3
  | zset => 0xF0C4 | pid => 0xF0C5 | xmt => 0xF0C6 | trd => 0xF0C7 | twr => 0xF0C8 | tadd => 0xF0C9
  | tsub => 0xF0CA | fifo => 0xF0CB | lifo => 0xF0CC | hour => 0xF0CE | bld => 0xF0D2
  | bldi => 0xF0D3 | band => 0xF0D4 | bandi => 0xF0D5 | bor => 0xF0D6 | bori => 0xF0D7
  | dbits => 0xF0DB | bon => 0xF0DE | dhscs => 0xF0DF | dhscr => 0xF0E0 | dhsz => 0xF0E1
  | dhst => 0xF0E2 | dhsp => 0xF0E3 | plsy => 0xF0E4 | plsr => 0xF0E5 | pwm => 0xF0E6
  | spd => 0xF0E7 | hcnt => 0xF0E8 | dfrom => 0xF0E9 | dto => 0xF0EA | dhsci => 0xF0EB
  | bset => 0xF0EC | brst => 0xF0ED | wsfr => 0xF0EF | itd => 0xF0F0 | dti => 0xF0F1
  | bout => 0xF0F2 | rmov => 0xF0F3 | rcv => 0xF0F4 | vrrd => 0xF0F5 | modbus => 0xF0F6
  | sum => 0xF0F9 | dsum => 0xF0FA | rsum => 0xF0FB | dcmpe => 0xF0FC | dcmpg => 0xF0FD
  | dcmpl => 0xF0FE | dcmpne => 0xF0FF | dcmple => 0xF100 | dcmpge => 0xF101 | tcmpe => 0xF102
  | tcmpg => 0xF103 | tcmpl => 0xF104 | tcmpne => 0xF105 | tcmple => 0xF106 | tcmpge => 0xF107
  | ramp => 0xF108 | hackle => 0xF109 | triangle => 0xF10A | tmon => 0xF10B | ccitt => 0xF10C
  | crc16 => 0xF10D | lrc => 0xF10E | abs => 0xF130 | zrn => 0xF131 | plsv => 0xF132
  | drvi => 0xF133 | drva => 0xF134 | pls => 0xF135 | dszr => 0xF136 | plsb => 0xF138
  | evfwd => 0xF140 | evrev => 0xF141 | evdfwd => 0xF142 | evdrev => 0xF143 | evstop => 0xF144
  | evfrq => 0xF145 | evwrt => 0xF146 | evrdst => 0xF147 | evrd => 0xF148 | canxmt => 0xF149
  | canrcv => 0xF14A | canmxmt => 0xF14D | lcnv => 0xF150 | cmp => 0xF151 | lcmp => 0xF152
  | rcmp => 0xF153 | alt => 0xF154 | absd => 0xF155 | dabsd => 0xF156 | modrw => 0xF160
  | asin => 0xF170 | acos => 0xF171 | atan => 0xF172 | rlcnv => 0xF174 | tcpConn => 0xF180
  | tcpXmt => 0xF181 | tcpRcv => 0xF182 | tcpPing => 0xF183 | modlink => 0xF19C | mbcconn => 0xF19D
  | modtcplink => 0xF19E | s7tcplink => 0xF19F | log => 0xF200 | rad => 0xF201 | deg => 0xF202
  | tky => 0xF210 | dhspi => 0xF221 | ldDxY => 0xF230 | ldiDxY => 0xF231 | andDxY => 0xF232
  | aniDxY => 0xF233 | orDxY => 0xF234 | oriDxY => 0xF235 | setDxY => 0xF236 | rstDxY => 0xF237
  | outDxY => 0xF238 | lin => 0xF240 | cw => 0xF241 | ccw => 0xF242 | drv => 0xF243
  | movelink => 0xF245 | stopdv => 0xF246 | gearbox => 0xF247 | cambox => 0xF248 | mean => 0xF250
  | wtob => 0xF251 | btow => 0xF252 | uni => 0xF253 | dis => 0xF254 | ans => 0xF255 | anr => 0xF256
  | bkadd => 0xF260 | bksub => 0xF261 | bkcmpde => 0xF262 | bkcmpdg => 0xF263 | bkcmpdl => 0xF264
  | bkcmpdne => 0xF265 | bkcmpdle => 0xF266 | bkcmpdge => 0xF267 | limit => 0xF270 | dband => 0xF271
  | zone => 0xF272 | scl => 0xF273 | ser => 0xF274 | strlen => 0xF291 | strright => 0xF292
  | strleft => 0xF293 | strmidr => 0xF294 | strmidw => 0xF295 | loadr => 0xF2A0 | saver => 0xF2A1
  | initr => 0xF2A2 | logr => 0xF2A3 | initer => 0xF2A4 | camtable => 0xF2A5 | drvc => 0xF2A7
  | rnd => 0xF2B0 | duty => 0xF2B1 | htos => 0xF2C0 | stoh => 0xF2C1 | ecatsdord => 0xF2D7
  | ecatsdowr => 0xF2D8 | swapword => 0xF2D9

/-- The instructions in the order of the source's enumeration. -/
def all : List DataIns :=
  [.ldLm, .ldiLm, .andLm, .aniLm, .orLm, .oriLm, .outLm, .setLm, .rstLm, .rstS, .setS, .outS, .ton,
   .tof, .tonr, .rstT, .dcnt, .ctu, .ctr, .rstC, .ei, .di, .wdt, .mov, .dmov, .bmov, .fmov, .dfmov,
   .swap, .xch, .dxch, .push, .wsfl, .add, .sub, .mul, .div, .sqt, .inc, .dec, .vabs, .neg, .dadd,
   .dsub, .dmul, .ddiv, .dsqt, .dinc, .ddec, .dvabs, .dneg, .radd, .rsub, .rmul, .rdiv, .rsqt, .sin,
   .cos, .tan, .ln, .exp, .rneg, .power, .rvabs, .wand, .wor, .wxor, .winv, .dwand, .dwor, .dwxor,
   .dwinv, .ror, .rol, .rcr, .rcl, .dror, .drol, .drcr, .drcl, .shr, .shl, .dshr, .dshl, .sftr,
   .sftl, .flt, .dflt, .int, .dint, .bcd, .dbcd, .bin, .dbin, .gry, .dgry, .gbin, .dgbin, .seg,
   .asc, .ita, .ati, .pr, .from_, .to_, .eromwr, .ref, .reff, .deco, .enco, .bits, .zrst, .zset,
   .pid, .xmt, .trd, .twr, .tadd, .tsub, .fifo, .lifo, .hour, .bld, .bldi, .band, .bandi, .bor,
   .bori, .dbits, .bon, .dhscs, .dhscr, .dhsz, .dhst, .dhsp, .plsy, .plsr, .pwm, .spd, .hcnt,
   .dfrom, .dto, .dhsci, .bset, .brst, .wsfr, .itd, .dti, .bout, .rmov, .rcv, .vrrd, .modbus, .sum,
   .dsum, .rsum, .dcmpe, .dcmpg, .dcmpl, .dcmpne, .dcmple, .dcmpge, .tcmpe, .tcmpg, .tcmpl, .tcmpne,
   .tcmple, .tcmpge, .ramp, .hackle, .triangle, .tmon, .ccitt, .crc16, .lrc, .abs, .zrn, .plsv,
   .drvi, .drva, .pls, .dszr, .plsb, .evfwd, .evrev, .evdfwd, .evdrev, .evstop, .evfrq, .evwrt,
   .evrdst, .evrd, .canxmt, .canrcv, .canmxmt, .lcnv, .cmp, .lcmp, .rcmp, .alt, .absd, .dabsd,
   .modrw, .asin, .acos, .atan, .rlcnv, .tcpConn, .tcpXmt, .tcpRcv, .tcpPing, .modlink, .mbcconn,
   .modtcplink, .s7tcplink, .log, .rad, .deg, .tky, .dhspi, .ldDxY, .ldiDxY, .andDxY, .aniDxY,
   .orDxY, .oriDxY, .setDxY, .rstDxY, .outDxY, .lin, .cw, .ccw, .drv, .movelink, .stopdv, .gearbox,
   .cambox, .mean, .wtob, .btow, .uni, .dis, .ans, .anr, .bkadd, .bksub, .bkcmpde, .bkcmpdg,
   .bkcmpdl, .bkcmpdne, .bkcmpdle, .bkcmpdge, .limit, .dband, .zone, .scl, .ser, .strlen, .strright,
   .strleft, .strmidr, .strmidw, .loadr, .saver, .initr, .logr, .initer, .camtable, .drvc, .rnd,
   .duty, .htos, .stoh, .ecatsdord, .ecatsdowr, .swapword]

def ofCode (n : Nat) : Option DataIns := all.find? fun d => d.code == n

theorem code_of_ofCode {n : Nat} {d : DataIns} (h : ofCode n = some d) : d.code = n := by
  simpa using List.find?_some h

end DataIns

/-- The operand width of a comparison contact. -/
inductive CmpWidth where
  | word | dword | real
deriving DecidableEq, Repr

/-- How a comparison contact is connected to the power flow. -/
inductive CmpConn where
  | ld | and | or
deriving DecidableEq, Repr

/-- The relation a comparison contact tests: `=`, `>`, `<`, `≠`, `≤` and `≥`. -/
inductive CmpRel where
  | e | g | l | ne | le | ge
deriving DecidableEq, Repr

/-- The complex instructions of `plc_instruction.h` that the compiler or the interpreter knows. -/
inductive ComplexIns where
  | lbl | sbr | intr | stl | ret | mc | mcr | cj | for_ | next | continue_ | break_
  | call | csret | sret | ciret | iret | stop | cfend | fend
  | stradd | strinstr | strmov
  | compare (w : CmpWidth) (k : CmpConn) (r : CmpRel)
  | data (d : DataIns)
deriving DecidableEq, Repr

/-- `CI_END`: the mark that ends a ucode file. -/
def ciEnd : Nat := 0xFFFF

def CmpWidth.index : CmpWidth → Nat
  | word => 0 | dword => 1 | real => 2

def CmpConn.index : CmpConn → Nat
  | ld => 0 | and => 1 | or => 2

def CmpRel.index : CmpRel → Nat
  | e => 0 | g => 1 | l => 2 | ne => 3 | le => 4 | ge => 5

namespace ComplexIns

/-- The instructions outside the two regular groups. -/
def controls : List ComplexIns :=
  [lbl, sbr, intr, stl, ret, mc, mcr, cj, for_, next, continue_, break_, call, csret, sret, ciret,
   iret, stop, cfend, fend, stradd, strinstr, strmov]

/-- The comparison contacts, from `CI_LDE` to `CI_ORRGE`. -/
def compares : List ComplexIns :=
  [CmpWidth.word, .dword, .real].flatMap fun w =>
    [CmpConn.ld, .and, .or].flatMap fun k =>
      [CmpRel.e, .g, .l, .ne, .le, .ge].map fun r => compare w k r

/-- The opcode of a complex instruction. -/
def code : ComplexIns → Nat
  | lbl => 0xF000 | sbr => 0xF001 | intr => 0xF002 | stl => 0xF00E | ret => 0xF012
  | mc => 0xF01C | mcr => 0xF01D | cj => 0xF01E | for_ => 0xF01F | next => 0xF020
  | continue_ => 0xF222 | break_ => 0xF223
  | call => 0xF021 | csret => 0xF022 | sret => 0xF023 | ciret => 0xF024 | iret => 0xF025
  | stop => 0xF028 | cfend => 0xF02A | fend => 0xF02B
  | stradd => 0xF290 | strinstr => 0xF296 | strmov => 0xF297
  | compare w k r => 0xF039 + 18 * w.index + 6 * k.index + r.index
  | data d => d.code

/-- The instruction an opcode stands for, none for the opcodes neither switch has a case for. -/
def ofCode (n : Nat) : Option ComplexIns :=
  ((controls ++ compares).find? fun i => i.code == n).or ((DataIns.ofCode n).map data)

theorem code_of_ofCode {n : Nat} {i : ComplexIns} (h : ofCode n = some i) : i.code = n := by
  rcases Option.or_eq_some_iff.mp h with h | ⟨-, h⟩
  · simpa using List.find?_some h
  · obtain ⟨d, hd, rfl⟩ := Option.map_eq_some_iff.mp h
    exact DataIns.code_of_ofCode hd

theorem le_code (i : ComplexIns) : 0xF000 ≤ i.code := by
  cases i with
  | compare w k r => simp only [code]; omega
  | data d => cases d <;> decide
  | _ => decide

end ComplexIns

end Kalyke
