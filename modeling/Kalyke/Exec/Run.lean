-- SUMMARY: Running a user program: the loop of the interpreter, its nested activations, and its scans.
import Kalyke.Compiler.Compile
import Kalyke.Exec.ComplexIns
import Mathlib.Logic.Relation

/-!
# Running User Programs

`plc_run_user_program` runs instructions in batches of simple and of complex ones; between two
batches it reports errors, looks at the watchdog and stops on a stopping error. A `CALL` runs the
function again for the subroutine. Here one step is one instruction, and the activations that wait
for a subroutine are kept as a list of frames, innermost first.

Interrupt routines, which run the same function from another task, are not modelled.
-/

namespace Kalyke

/-- An activation of `plc_run_user_program` that waits in a `CALL`: its registers, with the program
counter still at the `CALL`, and the parameters counted so far. -/
structure Frame where
  env : RunEnv
  cnt : ParaCnt

/-- A state of the interpreter. -/
structure Config where
  env : RunEnv
  frames : List Frame
  plc : Plc

/-- What the outermost `plc_run_user_program` returns. -/
structure Finish where
  ret : RetValue
  plc : Plc

def plcRefreshErrorMsg (e : PlcErr) (s : Store) : Store :=
  let s := s.setBit (.elem .SM) 20 true
  let s := if e.stops then { s with errorStatusStop := true }
    else match e with
      | .operands | .mdtcpExceedmaxconn => s.setBit (.elem .SM) 22 true
      | .overElementRang => s.setBit (.elem .SM) 21 true
      | _ => s
  if s.word .SD 20 = BitVec.ofNat 16 e.code then s
  else
    let s := [24, 23, 22, 21].foldl (fun s i => s.setWord (.elem .SD) i (s.word .SD (i - 1))) s
    s.setWord (.elem .SD) 20 (BitVec.ofNat 16 e.code)

/-- `plc_judge_run_over_time` at the tick count `now`, which is skipped in online mode. -/
def plcJudgeRunOverTime (now : BitVec 32) (s : Store) : Store :=
  if s.isOnlineProgram = false ∧ (s.word .SD 34).setWidth 32 < now - s.watchDogTime then
    plcRefreshErrorMsg .execOverTime s
  else s

/-- What is done with the return value of a batch before the watchdog is looked at. -/
def reportResult (simple : Bool) (ret : RetValue) (s : Store) : Store :=
  match ret with
  | .err e => plcRefreshErrorMsg e s
  | _ =>
    if simple then s
    else ((s.setBit (.elem .SM) 20 false).setBit (.elem .SM) 21 false).setBit (.elem .SM) 22 false

def RunsSimple (u : Ucode) (p : Nat) : Prop := u.getPU16 p < 0xE000

instance (u : Ucode) : DecidablePred (RunsSimple u) := fun _ => inferInstanceAs (Decidable (_ < _))

/-- The loops of `plc_exec_simple_instruction` and `plc_exec_complex_instruction` go on at `p`. -/
def StaysInBatch (u : Ucode) (simple : Bool) (ret : RetValue) (p : Nat) : Prop :=
  ret = .pass ∧ if simple then RunsSimple u p else 0xF000 ≤ u.getPU16 p

instance (u : Ucode) (simple : Bool) (ret : RetValue) (p : Nat) :
    Decidable (StaysInBatch u simple ret p) := by
  unfold StaysInBatch
  infer_instance

/-- The registers after an instruction. -/
def InsResult.env (r : InsResult) (p : Nat) : RunEnv := ⟨r.inPF, r.outPF, r.flow.apply p⟩

/-- The entry into `plc_run_user_program`: fresh registers and an empty loop stack. -/
def enterProgram (entry : Nat) (frames : List Frame) (plc : Plc) : Config :=
  ⟨⟨0, 0, entry⟩, frames, plc.setLoops { plc.loops with nestedNum := 0 }⟩

section

variable (out : Outside) (t : CompState) (u : Ucode) (now : BitVec 32)

/-- What `plc_run_user_program` does after an instruction at `p` that is done: leave, go on with the
batch, or end the batch. `leave` returns from the current activation. -/
def afterIns (leave : RetValue → Plc → Config ⊕ Finish) (frames : List Frame) (p : Nat)
    (simple : Bool) (r : InsResult) : Config ⊕ Finish :=
  if r.ret.leaves then leave r.ret r.plc
  else if StaysInBatch u simple r.ret (r.flow.apply p) then .inl ⟨r.env p, frames, r.plc⟩
  else
    let plc := r.plc.onStore fun s => plcJudgeRunOverTime now (reportResult simple r.ret s)
    if plc.store.errorStatusStop then leave .stop plc else .inl ⟨r.env p, frames, plc⟩

/-- Return from an activation. Only `EXEC_FLAG_SRET` is an ordinary end of a subroutine; on any
other value the `CALL` that waits for it returns that value too, and so do all the callers. -/
def leaveProgram : List Frame → RetValue → Plc → Config ⊕ Finish
  | [], ret, plc => .inr ⟨ret, plc⟩
  | f :: fs, .sret, plc =>
    afterIns u now (leaveProgram fs) fs f.env.pc false (callReturn u f.env plc f.cnt)
  | _ :: fs, .stop, plc => leaveProgram fs .stop (plc.onStore fun s => { s with cmdStop := true })
  | _ :: fs, ret, plc => leaveProgram fs ret plc

/-- The instruction at the program counter. -/
def execIns (env : RunEnv) (plc : Plc) : InsOutcome :=
  if RunsSimple u env.pc then .done (execSimpleIns out u env plc)
  else execComplexIns out t u now env plc

/-- One step of the interpreter. -/
def step (c : Config) : Config ⊕ Finish :=
  match execIns out t u now c.env c.plc with
  | .done r =>
    afterIns u now (leaveProgram u now c.frames) c.frames c.env.pc (RunsSimple u c.env.pc) r
  | .call entry cnt plc => .inl (enterProgram entry (⟨c.env, cnt⟩ :: c.frames) plc)

end

/-- `plc_run_deamon`: a scan starts at the first instruction, at call level zero. -/
def scanStart (plc : Plc) : Config := enterProgram ucodeStart [] { plc with sbrNestedNum := 0 }

section

variable (out : Outside) (t : CompState) (u : Ucode)

/-- One step at some tick count. -/
def Step (c c' : Config) : Prop := ∃ now, step out t u now c = .inl c'

def Ends (c : Config) (f : Finish) : Prop := ∃ now, step out t u now c = .inr f

/-- A step, or the start of the next scan, before which other tasks may have changed the elements
in any way. -/
inductive RunStep : Config → Config → Prop where
  | step {c c' : Config} (h : Step out t u c c') : RunStep c c'
  | scan {c : Config} {f : Finish} (h : Ends out t u c f) (s : Store) :
      RunStep c (scanStart { f.plc with store := s })

/-- What a user program comes to, over any number of scans. -/
def Reachable (c : Config) : Prop :=
  ∃ plc, Relation.ReflTransGen (RunStep out t u) (scanStart plc) c

end

end Kalyke
