-- SUMMARY: The element values of the PLC, their areas, and the reads and writes of single elements.
import Kalyke.Ucode.SimpleIns
import Mathlib.Logic.Function.Basic
import Mathlib.Tactic.Common

/-!
# Elements

The values user programs work on: bit elements, word elements, the counters of 32 bits, and the
local elements `LM` and `V`, of which every call level has a layer of its own. Elements of one area
are numbered from zero. The source reaches them through unchecked arrays; here an area is a total
function, so a number past the end of an area names a cell of its own and not, as in the firmware,
whatever is stored there.
-/

namespace Kalyke

open Function

/-- The word elements with one value of 16 bits for each number. `C` holds the counters of 16 bits
and `T` the current values of the timers. -/
inductive WordElement where
  | D | R | Z | SD | C | T
deriving DecidableEq, Repr

/-- `LM_ELEMENT_CNT`: the local bit elements of one layer. -/
def lmRang : Nat := 64

/-- `V_ELEMENT_CNT`: the local word elements of one layer. -/
def vRang : Nat := 64

/-- `MAX_SBR_NESTED_LAYER`: the number of layers of the local elements. -/
def maxSbrNestedLayer : Nat := 8

/-- `C_ELEMENT_CNT`. -/
def cRang : Nat := 512

def BitElement.rang : BitElement → Nat
  | X | Y => 2048
  | C => cRang
  | T => 512
  | SM => 1024
  | M => 16384
  | S => 4096

def WordElement.rang : WordElement → Nat
  | D => 8000
  | R => 32768
  | Z => 16
  | SD => 1024
  | C => 200
  | T => 512

/-- Where a bit operand lies: a global area, or the `LM` elements of a layer. -/
inductive BitArea where
  | elem (e : BitElement)
  | lm (layer : Nat)
deriving DecidableEq, Repr

/-- Where a word operand lies: a global area, or the `V` elements of a layer. -/
inductive WordArea where
  | elem (e : WordElement)
  | v (layer : Nat)
deriving DecidableEq, Repr

def BitArea.rang : BitArea → Nat
  | elem e => e.rang
  | lm _ => lmRang

def WordArea.rang : WordArea → Nat
  | elem e => e.rang
  | v _ => vRang

/-- The parts of a timer's status byte have two and three bits. -/
instance neZeroFour : @NeZero Nat Zero.ofOfNat0 4 := ⟨Nat.succ_ne_zero 3⟩

instance neZeroEight : @NeZero Nat Zero.ofOfNat0 8 := ⟨Nat.succ_ne_zero 7⟩

/-- A timer's status byte, target and start time. -/
structure Timer where
  enable : Bool
  powerFlow : Bool
  init : Bool
  type : Fin 4
  capacity : Fin 8
  dest : BitVec 16
  start : BitVec 32
deriving DecidableEq, Repr

/-- A timer as `plc_reset_one_timer` leaves it at the tick count `now`. -/
def resetTimer (now : BitVec 32) : Timer := ⟨false, false, false, 0, 0, 0, now⟩

/-- What instruction bodies read and change. The layers of `lm` and `v` lie one behind the other, as
in the source; `c32` is numbered like the counters, from 200 on. -/
structure Store where
  bit : BitElement → Nat → Bool
  lm : Nat → Bool
  word : WordElement → Nat → BitVec 16
  v : Nat → BitVec 16
  c32 : Nat → BitVec 32
  timer : Nat → Timer
  edgeValue : Nat → Bool
  edgeInit : Nat → Bool
  errorStatusStop : Bool
  cmdStop : Bool
  watchDogTime : BitVec 32
  isOnlineProgram : Bool

namespace Store

/-- `plc_get_bit_element_value` and `plc_get_lm_element_value`. -/
def getBit (s : Store) : BitArea → Nat → Bool
  | .elem e, i => s.bit e i
  | .lm layer, i => s.lm (lmRang * layer + i)

/-- `plc_set_bit_element_value` and `plc_set_lm_element_value`. -/
def setBit (s : Store) (a : BitArea) (i : Nat) (b : Bool) : Store :=
  match a with
  | .elem e => { s with bit := update s.bit e (update (s.bit e) i b) }
  | .lm layer => { s with lm := update s.lm (lmRang * layer + i) b }

/-- `GET_D_ELEMENT_VALUE` and its siblings. -/
def getWord (s : Store) : WordArea → Nat → BitVec 16
  | .elem e, i => s.word e i
  | .v layer, i => s.v (vRang * layer + i)

/-- `SET_D_ELEMENT_VALUE` and its siblings. -/
def setWord (s : Store) (w : WordArea) (i : Nat) (x : BitVec 16) : Store :=
  match w with
  | .elem e => { s with word := update s.word e (update (s.word e) i x) }
  | .v layer => { s with v := update s.v (vRang * layer + i) x }

/-- `SET_C32_CURRENT_VALUE`. -/
def setC32 (s : Store) (i : Nat) (x : BitVec 32) : Store :=
  { s with c32 := update s.c32 i x }

def setEdge (s : Store) (n : Nat) (b : Bool) : Store :=
  { s with edgeValue := update s.edgeValue n b }

def rstEdgeInit (s : Store) (n : Nat) : Store :=
  { s with edgeInit := update s.edgeInit n false }

def plcResetOneTimer (s : Store) (now : BitVec 32) (n : Nat) : Store :=
  let off : Timer := resetTimer now
  { (s.setBit (.elem .T) n false).setWord (.elem .T) n 0 with
    timer := update s.timer n off }

/-- Clear the flag `mbv_Enable` of a timer. -/
def disableTimer (s : Store) (n : Nat) : Store :=
  { s with timer := update s.timer n { s.timer n with enable := false } }

end Store

end Kalyke
