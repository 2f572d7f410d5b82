-- SUMMARY: The state user programs run in, and what the interpreter takes from other files.
import Kalyke.Common.Error
import Kalyke.Exec.Elements
import Kalyke.Ucode.ComplexIns
import Kalyke.Ucode.Memory

/-!
# Interpreter State

The power-flow registers and the program counter of one activation of `plc_run_user_program`, and
the state all activations share: the elements, the loop stacks of `FOR` and `NEXT`, one for each
call level, the call counters, and the status of the step sequences.

The bodies of the data instructions are in other files of the firmware. They enter as a parameter:
any function that works on the elements and the power flow. They cannot reach the program counter,
the call level or the loop stacks, and in the firmware none of them does.
-/

namespace Kalyke

/-- `MAX_FOR_NEXT_NESTED_NUM`: the size of the arrays of a loop stack. -/
def maxForNextNestedNum : Nat := 8

/-- `plc_run_power_flow_st`: the input and output stacks of the power flow and the program
counter. -/
structure RunEnv where
  inPF : BitVec 32
  outPF : BitVec 32
  pc : Nat

def getPowerFlow (pf : BitVec 32) : Bool := pf.getLsbD 0

@[simp] theorem getPowerFlow_zero : getPowerFlow 0#32 = false := by decide

@[simp] theorem getPowerFlow_one : getPowerFlow 1#32 = true := by decide

def setPowerFlow (pf : BitVec 32) : BitVec 32 := pf ||| 1

def rstPowerFlow (pf : BitVec 32) : BitVec 32 := pf &&& 0xFFFFFFFE

def putPowerFlow (pf : BitVec 32) (b : Bool) : BitVec 32 :=
  if b then setPowerFlow pf else rstPowerFlow pf

/-- `plc_for_next_ins_st`: the loop stack of a call level. -/
structure ForNextIns where
  loopCnt : Nat → Nat
  startUcodeAddr : Nat → Nat
  endUcodeAddr : Nat → Nat
  nestedNum : Nat

/-- `plc_sfc_run_status_info_st`. -/
structure SfcStatus where
  sfcEnable : Bool
  seriesStlCnt : Nat
  stlNum : Nat → Nat

/-- The state that all activations of `plc_run_user_program` share. -/
structure Plc where
  store : Store
  forNext : Nat → ForNextIns
  sbrNestedNum : Nat
  isExec : Nat → Bool
  retPc : Nat → Nat
  sfc : SfcStatus

namespace Plc

/-- The loop stack of the current call level. -/
def loops (plc : Plc) : ForNextIns := plc.forNext plc.sbrNestedNum

/-- Replace the loop stack of the current call level. -/
def setLoops (plc : Plc) (l : ForNextIns) : Plc :=
  { plc with forNext := Function.update plc.forNext plc.sbrNestedNum l }

@[simp] theorem loops_setLoops (plc : Plc) (l : ForNextIns) : (plc.setLoops l).loops = l := by
  simp [loops, setLoops]

end Plc

/-- What the body of a data instruction is run on: the place of the instruction, the call level, the
tick count, the power flow, the step status and the elements. -/
structure BodyInput where
  ucode : Ucode
  pc : Nat
  level : Nat
  now : BitVec 32
  inPF : BitVec 32
  sfc : SfcStatus
  store : Store

/-- What the interpreter takes from outside the modelled files: the bodies of the data instructions
and of the string instructions of variable length, the layers of the local elements that an
instruction's operands name, whether a comparison contact on two reals is closed, and the value a
local variable happens to have before it is set. -/
structure Outside where
  body : ComplexIns → BodyInput → Except PlcErr Unit × BitVec 32 × Store
  layers : ComplexIns → Ucode → Nat → Nat → List Nat
  layers_le : ∀ i u p level, ∀ l ∈ layers i u p level, l ≤ level + 1
  realCompare : CmpConn → CmpRel → BitVec 32 → BitVec 32 → Bool
  stale : Bool

/-- Bodies that do nothing, and contacts that never close. -/
def Outside.idle : Outside where
  body := fun _ i => (.ok (), i.inPF, i.store)
  layers := fun _ _ _ _ => []
  layers_le := by simp
  realCompare := fun _ _ _ _ => false
  stale := false

/-- All elements are off and all values zero. -/
def Store.off : Store where
  bit := fun _ _ => false
  lm := fun _ => false
  word := fun _ _ => 0
  v := fun _ => 0
  c32 := fun _ => 0
  timer := fun _ => resetTimer 0
  edgeValue := fun _ => false
  edgeInit := fun _ => false
  errorStatusStop := false
  cmdStop := false
  watchDogTime := 0
  isOnlineProgram := false

/-- The state before anything has been run. -/
def Plc.off : Plc where
  store := .off
  forNext := fun _ => ⟨fun _ => 0, fun _ => 0, fun _ => 0, 0⟩
  sbrNestedNum := 0
  isExec := fun _ => false
  retPc := fun _ => 0
  sfc := ⟨false, 0, fun _ => 0⟩

/-- Where an instruction leaves the program counter: past itself, at a target it jumps to, or where
it was. -/
inductive Flow where
  | next (length : Nat)
  | jump (target : Nat)
  | stay
deriving DecidableEq, Repr

/-- The program counter after an instruction at `p`. -/
def Flow.apply (p : Nat) : Flow → Nat
  | next n => p + n
  | jump q => q
  | stay => p

/-- What an instruction leaves behind. -/
structure InsResult where
  ret : RetValue
  flow : Flow
  inPF : BitVec 32
  outPF : BitVec 32
  plc : Plc

/-- An instruction that leaves the power-flow stacks alone. -/
def RunEnv.done (env : RunEnv) (ret : RetValue) (flow : Flow) (plc : Plc) : InsResult :=
  ⟨ret, flow, env.inPF, env.outPF, plc⟩

/-- The return value of a function that can only pass or fail. -/
def RetValue.ofExcept : Except PlcErr Unit → RetValue
  | .ok () => pass
  | .error e => err e

end Kalyke
