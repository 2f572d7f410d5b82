-- SUMMARY: The instructions that steer a program: loops, jumps, calls, master control and steps.
import Kalyke.Compiler.Move
import Kalyke.Exec.CallPara
import Kalyke.Exec.Clean
import Mathlib.Algebra.Group.Nat.Defs

/-!
# Flow Control

`plc_flowctrlins.c`. The loop stack of a call level is popped lazily: `NEXT` leaves a loop that has
come to its end on the stack with the count zero, and a later `NEXT` removes it.
-/

namespace Kalyke

open Function

section

variable (u : Ucode) (env : RunEnv) (plc : Plc)

/-- The target of a jump by a word of 32 bits, which may count as negative. -/
def jumpTarget (p offset : Nat) : Nat := (p + offset) % 2 ^ 32

/-! ## FOR, NEXT and CJ -/

/-- Where the `FOR` at `p` continues when its body is not run. -/
def forTarget (p : Nat) : Nat := jumpTarget p (u.getPU32 (p + 6))

/-- The stores of `run_ci_for_ins` into the addresses of the loop stack. -/
def ForNextIns.setAddr (l : ForNextIns) (p : Nat) : ForNextIns :=
  { l with startUcodeAddr := update l.startUcodeAddr l.nestedNum p,
           endUcodeAddr := update l.endUcodeAddr l.nestedNum (forTarget u p) }

/-- Enter a loop with a count. -/
def ForNextIns.push (l : ForNextIns) (cnt : Nat) : ForNextIns :=
  { l with loopCnt := update l.loopCnt l.nestedNum cnt, nestedNum := l.nestedNum + 1 }

/-- Change the count of the innermost loop. -/
def ForNextIns.setTop (l : ForNextIns) (cnt : Nat) : ForNextIns :=
  { l with loopCnt := update l.loopCnt (l.nestedNum - 1) cnt }

/-- `run_ci_for_ins`. The addresses are stored even if the loop is passed over. -/
def runCiForIns : InsResult :=
  match getWord u (env.pc + 2) plc.store plc.sbrNestedNum 0 1 with
  | (.error e, _) => env.done (.err e) (.next 10) plc
  | (.ok (), xs) =>
    let cnt := (xs.headD 0).toNat
    let l := plc.loops.setAddr u env.pc
    if getPowerFlow env.inPF ∧ 0 < cnt then
      env.done .pass (.next 10) (plc.setLoops (l.push cnt))
    else env.done .pass (.jump (forTarget u env.pc)) (plc.setLoops l)

/-- The inner switch of `run_ci_next_ins`, on the innermost loop of `l`. A count of zero is
decremented like any other and wraps around. -/
def nextTop (l : ForNextIns) : InsResult :=
  if l.loopCnt (l.nestedNum - 1) = 1 then env.done .pass (.next 2) (plc.setLoops (l.setTop 0))
  else
    env.done .pass (.jump (l.startUcodeAddr (l.nestedNum - 1) + 10))
      (plc.setLoops (l.setTop ((l.loopCnt (l.nestedNum - 1) + 65535) % 65536)))

def runCiNextIns : InsResult :=
  let l := plc.loops
  if l.nestedNum = 0 then env.done .pass (.next 2) plc
  else if l.loopCnt (l.nestedNum - 1) = 0 then
    let l' : ForNextIns := { l with nestedNum := l.nestedNum - 1 }
    if l'.nestedNum = 0 then env.done .pass (.next 2) (plc.setLoops l') else nextTop env plc l'
  else nextTop env plc l

/-- The loop of `run_ci_cj_ins`: the loops that a jump from `src` to `dst` does not leave, of the
innermost `n`. -/
def loopsKept (l : ForNextIns) (src dst : Nat) : Nat → Nat
  | 0 => 0
  | i + 1 =>
    if l.startUcodeAddr i < src ∧ src < l.endUcodeAddr i ∧
        (dst < l.startUcodeAddr i ∨ l.endUcodeAddr i < dst) then loopsKept l src dst i
    else i + 1

def runCiCjIns : InsResult :=
  if getPowerFlow env.inPF then
    let dst := jumpTarget env.pc (u.getPU32 (env.pc + 6))
    let l := plc.loops
    env.done .pass (.jump dst)
      (plc.setLoops { l with nestedNum := loopsKept l env.pc dst l.nestedNum })
  else env.done .pass (.next 10) plc

end

/-! ## CALL -/

/-- What an instruction does: it is done, or a subroutine has to be run first from an entry point,
with the counters of the parameters passed to it. -/
inductive InsOutcome where
  | done (r : InsResult)
  | call (entry : Nat) (c : ParaCnt) (plc : Plc)

section

variable (out : Outside) (t : CompState) (u : Ucode) (now : BitVec 32) (env : RunEnv) (plc : Plc)

/-- The entry point of a subroutine is one: the pointer is set and a `SBR` stands there. -/
def IsSbrEntry (t : CompState) (u : Ucode) (id : Nat) : Prop :=
  t.sbrPc id ≠ 0 ∧ u.getPU16 (t.sbrPc id) = ComplexIns.code .sbr

instance (id : Nat) : Decidable (IsSbrEntry t u id) := inferInstanceAs (Decidable (_ ∧ _))

/-- `run_ci_call_ins` with power flow, up to the call of `plc_run_user_program`. -/
def callWithPower (id : Nat) : InsOutcome :=
  let len := plcCallInstructionLength u env.pc
  let sbr := callSbrNumber u env.pc
  let plc := { plc with isExec := update plc.isExec id true }
  if IsSbrEntry t u sbr then
    match plcCallInsInParameterParse out.stale u env.pc plc.sbrNestedNum plc.store with
    | (.error e, _, s) => .done (env.done (.err e) (.next len) { plc with store := s })
    | (.ok (), c, s) =>
      .call (t.sbrPc sbr) c
        { plc with store := s,
                   retPc := update plc.retPc plc.sbrNestedNum env.pc,
                   sbrNestedNum := plc.sbrNestedNum + 1 }
  else .done (env.done (.err .noDefineSbrIntr) (.next len) plc)

/-- `run_ci_call_ins` without power flow. -/
def callWithoutPower (id : Nat) : InsResult :=
  let len := plcCallInstructionLength u env.pc
  if plc.isExec id then
    let plc := { plc with isExec := update plc.isExec id false }
    match plcCallInsCleanElement out t u now (maxSbrNestedLayer - plc.sbrNestedNum)
        (callSbrNumber u env.pc) plc with
    | (.ok (), plc') => env.done .pass (.next len) plc'
    | (.error _, plc') => env.done (.err .noDefineSbrIntr) (.next len) plc'
  else env.done .pass (.next len) plc

def runCiCallIns : InsOutcome :=
  match plcGetCallInsId t env.pc with
  | none => .done (env.done (.err .noDefineSbrIntr) .stay plc)
  | some id =>
    if maxSbrNestedLayer ≤ plc.sbrNestedNum then
      .done (env.done (.err .overSbrStack) (.next (plcCallInstructionLength u env.pc)) plc)
    else if getPowerFlow env.inPF then callWithPower out t u env plc id
    else .done (callWithoutPower out t u now env plc id)

/-- `run_ci_call_ins` after the subroutine has come back with `EXEC_FLAG_SRET`. -/
def callReturn (c : ParaCnt) : InsResult :=
  let len := plcCallInstructionLength u env.pc
  let plc := { plc with sbrNestedNum := plc.sbrNestedNum - 1 }
  let (ret, s) := plcCallInsOutParameterParse u env.pc plc.sbrNestedNum c plc.store
  env.done (.ofExcept ret) (.next len) { plc with store := s }

/-! ## MC and STL -/

def runCiMcIns : InsResult :=
  let edge := u.getPU16 (env.pc + 6)
  let skip : Flow := .jump (env.pc + u.getPU16 (env.pc + 8))
  if getPowerFlow env.inPF then
    env.done .pass (.next 10) (plc.onStore (·.setEdge edge true))
  else if plc.store.edgeValue edge then
    match plcMcInsCleanElement out t u now env.pc (plc.onStore (·.setEdge edge false)) with
    | (.ok (), plc') => env.done .pass skip plc'
    | (.error e, plc') => env.done (.err e) .stay plc'
  else env.done .pass skip (plc.onStore (·.setEdge edge false))

def maxSfcSeriesStlNum : Nat := 16

/-- The loop of `plc_stl_bus_meet_analyse` from position `i` on: it stores the steps of a run. -/
def stlNumbers (u : Ucode) (p : Nat) : Nat → Nat → (Nat → Nat) → Nat → Nat
  | 0, _, f => f
  | fuel + 1, i, f =>
    if u.getPU16 (p + 10 * i) = ComplexIns.code .stl then
      stlNumbers u p fuel (i + 1) (update f i (u.getPU16 (p + 10 * i + 4)))
    else f

/-- `plc_stl_bus_meet_analyse`: whether several steps meet, and the status. The number of steps is
set to two for every run of more than one. -/
def plcStlBusMeetAnalyse (p : Nat) (sfc : SfcStatus) : Bool × SfcStatus :=
  let first := update sfc.stlNum 0 (u.getPU16 (p + 4))
  if u.getPU16 (p + 10) = ComplexIns.code .stl then
    (true, { sfc with stlNum := stlNumbers u p (maxSfcSeriesStlNum - 1) 1 first,
                      seriesStlCnt := 2 })
  else (false, { sfc with stlNum := first, seriesStlCnt := 1 })

def plcStlIsAllOn (sfc : SfcStatus) (s : Store) : Bool :=
  (List.range sfc.seriesStlCnt).all fun i => s.bit .S (sfc.stlNum i)

/-- `run_ci_stl_ins` for a single step. The number of the step is cut to a byte. -/
def stlSingle : InsResult :=
  let step := u.getPU16 (env.pc + 4) % 256
  let edge := u.getPU16 (env.pc + 6)
  let skip : Flow := .jump (env.pc + u.getPU16 (env.pc + 8))
  if plc.store.bit .S step then
    let plc := if plc.store.edgeInit edge then
        (plcStlInsCleanElement out t u now step (plc.onStore (·.rstEdgeInit edge))).2
      else plc
    ⟨.pass, .next 10, setPowerFlow env.inPF, env.outPF, plc.onStore (·.setEdge edge true)⟩
  else if plc.store.edgeValue edge then
    env.done .pass skip
      (plcStlInsCleanElement out t u now step (plc.onStore (·.setEdge edge false))).2
  else env.done .pass skip plc

/-- `run_ci_stl_ins` for several steps that meet. -/
def stlSeries : InsResult :=
  let len := 10 * plc.sfc.seriesStlCnt
  if plcStlIsAllOn plc.sfc plc.store then
    ⟨.pass, .next len, setPowerFlow env.inPF, env.outPF, plc⟩
  else
    env.done .pass (.jump (env.pc + len + u.getPU16 (env.pc + len + 8))) plc

def runCiStlIns : InsResult :=
  let (series, sfc) := plcStlBusMeetAnalyse u env.pc
    { plc.sfc with seriesStlCnt := 0, sfcEnable := true }
  let plc := { plc with sfc := sfc }
  if series then stlSeries u env plc else stlSingle out t u now env plc

end

/-! ## Steps and watchdog -/

def leaveSteps (i : BodyInput) : Store :=
  if i.sfc.sfcEnable then
    (List.range i.sfc.seriesStlCnt).foldl (fun s k => s.setBit (.elem .S) (i.sfc.stlNum k) false)
      i.store
  else i.store

def runCiSetSIns (i : BodyInput) : Store :=
  if getPowerFlow i.inPF then
    (leaveSteps i).setBit (.elem .S) (i.ucode.getPU16 (i.pc + 4)) true
  else i.store

def runCiOutSIns (i : BodyInput) : Store :=
  if getPowerFlow i.inPF then
    (leaveSteps i).setBit (.elem .S) (i.ucode.getPU16 (i.pc + 4)) true
  else if i.sfc.sfcEnable then i.store
  else i.store.setBit (.elem .S) (i.ucode.getPU16 (i.pc + 4)) false

def runCiRstSIns (i : BodyInput) : Store :=
  if getPowerFlow i.inPF then
    (leaveSteps i).setBit (.elem .S) (i.ucode.getPU16 (i.pc + 4)) false
  else i.store

def runCiWdtIns (i : BodyInput) : Store :=
  if getPowerFlow i.inPF then { i.store with watchDogTime := i.now } else i.store

end Kalyke
