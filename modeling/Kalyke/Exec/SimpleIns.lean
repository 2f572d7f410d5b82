-- SUMMARY: The interpreter of the simple instructions.
import Kalyke.Exec.ParseAddr
import Kalyke.Exec.State

/-!
# Running Simple Instructions

`plc_exec_simple_instruction`. Contacts and coils work on the low bit of the register `mlv_InPF`,
which is at the same time a stack: a load shifts the register, and the block connections shift it
back. `mlv_OutPF` is the stack of the branch points.
-/

namespace Kalyke

/-- The effect of a contact on the power flow when its element has the value `b`. The serial and
parallel connections look at the element only when it matters. -/
def Contact.run : Contact → Bool → BitVec 32 → BitVec 32
  | ld, b, pf => putPowerFlow (pf <<< 1) b
  | ldi, b, pf => putPowerFlow (pf <<< 1) !b
  | and, b, pf => if getPowerFlow pf then (if b then pf else rstPowerFlow pf) else pf
  | ani, b, pf => if getPowerFlow pf then (if b then rstPowerFlow pf else pf) else pf
  | or, b, pf => if getPowerFlow pf then pf else (if b then setPowerFlow pf else pf)
  | ori, b, pf => if getPowerFlow pf then pf else (if b then pf else setPowerFlow pf)

/-- The effect of a coil on an element. -/
def Coil.run (area : BitArea) (i : Nat) (pf : BitVec 32) (s : Store) : Coil → Store
  | out => s.setBit area i (getPowerFlow pf)
  | set => if getPowerFlow pf then s.setBit area i true else s
  | rst => if getPowerFlow pf then s.setBit area i false else s

/-- `SI_ANB`. -/
def anb (pf : BitVec 32) : BitVec 32 :=
  (if pf &&& 3 ≠ 3 then pf &&& 0xFFFFFFFC else pf) >>> 1

/-- `SI_ORB`. -/
def orb (pf : BitVec 32) : BitVec 32 :=
  (if pf &&& 3 ≠ 0 then pf ||| 2 else pf) >>> 1

/-- `SI_MPS`, on the stack of the branch points. -/
def mps (inPF outPF : BitVec 32) : BitVec 32 := (outPF <<< 1) ||| (inPF &&& 1)

def runEuIns (n : Nat) (pf : BitVec 32) (s : Store) : BitVec 32 × Store :=
  if s.edgeInit n then
    (rstPowerFlow pf, (s.rstEdgeInit n).setEdge n (getPowerFlow pf))
  else if getPowerFlow pf then
    (putPowerFlow pf !s.edgeValue n, s.setEdge n true)
  else (rstPowerFlow pf, s.setEdge n false)

def runEdIns (n : Nat) (pf : BitVec 32) (s : Store) : BitVec 32 × Store :=
  if s.edgeInit n then
    (rstPowerFlow pf, (s.rstEdgeInit n).setEdge n (getPowerFlow pf))
  else if getPowerFlow pf then
    (rstPowerFlow pf, s.setEdge n true)
  else (putPowerFlow pf (s.edgeValue n), s.setEdge n false)

/-- `run_eu_p_ins` on edge number `n` and the value `b` of the operand. -/
def runEuPIns (n : Nat) (b : Bool) (pf : BitVec 32) (s : Store) : BitVec 32 × Store :=
  if s.edgeInit n then (rstPowerFlow pf, (s.rstEdgeInit n).setEdge n b)
  else (putPowerFlow pf (!s.edgeValue n && b), s.setEdge n b)

/-- `run_ed_f_ins`. -/
def runEdFIns (n : Nat) (b : Bool) (pf : BitVec 32) (s : Store) : BitVec 32 × Store :=
  if s.edgeInit n then (rstPowerFlow pf, (s.rstEdgeInit n).setEdge n b)
  else (putPowerFlow pf (s.edgeValue n && !b), s.setEdge n b)

section

variable (u : Ucode) (p : Nat)

/-- The element number of a contact or coil on a global element. -/
def elementNumber (ext : Bool) : Nat :=
  if ext then (16 * u.getPU16 (p + 2) + u.getPU8 p) % 65536 else u.getPU8 p

/-- The edge contacts and coils. `b` is the value read from the operand. -/
def Pulse.run (n : Nat) (b : Bool) (pf : BitVec 32) (s : Store) : Pulse → BitVec 32 × Store
  | ldp => runEuPIns (u.getPU16 (p + 4)) b (pf <<< 1) s
  | ldf => runEdFIns (u.getPU16 (p + 4)) b (pf <<< 1) s
  | andp => if getPowerFlow pf then runEuPIns (u.getPU16 (p + 4)) b pf s else (pf, s)
  | andf => if getPowerFlow pf then runEdFIns (u.getPU16 (p + 4)) b pf s else (pf, s)
  | orp => if getPowerFlow pf then (pf, s) else runEuPIns (u.getPU16 (p + 4)) b pf s
  | orf => if getPowerFlow pf then (pf, s) else runEdFIns (u.getPU16 (p + 4)) b pf s
  | plp =>
    let (pf', s') := runEuIns (u.getPU16 (p + 4)) pf s
    (pf', saveCharInSimpleIns u p s' n (getPowerFlow pf'))
  | plf =>
    let (pf', s') := runEdIns (u.getPU16 (p + 4)) pf s
    (pf', saveCharInSimpleIns u p s' n (getPowerFlow pf'))

/-- The lengths by which the cases of `plc_exec_simple_instruction` advance. `SI_OUT_LM` has no
case. -/
def SimpleIns.execLength : SimpleIns → Option Nat
  | contact _ _ ext => some (if ext then 4 else 2)
  | contactLm _ => some 2
  | coil _ _ ext => some (if ext then 4 else 2)
  | coilLm .out => none
  | coilLm _ => some 2
  | inv | anb | orb | mps | mrd | mpp | nop => some 2
  | eu | ed => some 4
  | pulse _ => some 6

/-- The cases of `plc_exec_simple_instruction` on the power-flow stacks and the elements, at call
level `n`. -/
def SimpleIns.run (stale : Bool) (n : Nat) (inPF outPF : BitVec 32) (s : Store) :
    SimpleIns → BitVec 32 × BitVec 32 × Store
  | contact k e ext => (k.run (s.getBit (.elem e) (elementNumber u p ext)) inPF, outPF, s)
  | contactLm k => (k.run (s.getBit (.lm n) (u.getPU8 p)) inPF, outPF, s)
  | coil k e ext => (inPF, outPF, k.run (.elem e.toBitElement) (elementNumber u p ext) inPF s)
  | coilLm k => (inPF, outPF, k.run (.lm n) (u.getPU8 p) inPF s)
  | inv => (inPF ^^^ 1, outPF, s)
  | anb => (Kalyke.anb inPF, outPF, s)
  | orb => (Kalyke.orb inPF, outPF, s)
  | mps => (inPF, Kalyke.mps inPF outPF, s)
  | mrd => (putPowerFlow inPF (getPowerFlow outPF), outPF, s)
  | mpp => (putPowerFlow inPF (getPowerFlow outPF), outPF >>> 1, s)
  | nop => (inPF, outPF, s)
  | eu =>
    let (pf, s') := runEuIns (u.getPU16 (p + 2)) inPF s
    (pf, outPF, s')
  | ed =>
    let (pf, s') := runEdIns (u.getPU16 (p + 2)) inPF s
    (pf, outPF, s')
  | pulse k =>
    -- the result of the operand access is not looked at, and the variable keeps its old value
    let (pf, s') := k.run u p n ((getCharInSimpleIns u p s n).getD stale) inPF s
    (pf, outPF, s')

end

/-- One pass over the loop of `plc_exec_simple_instruction`. -/
def execSimpleIns (out : Outside) (u : Ucode) (env : RunEnv) (plc : Plc) : InsResult :=
  match (SimpleIns.ofCode (u.getPU8 (env.pc + 1))).bind fun i => i.execLength.map (i, ·) with
  | some (i, n) =>
    let (inPF, outPF, s) :=
      i.run u env.pc out.stale plc.sbrNestedNum env.inPF env.outPF plc.store
    ⟨.pass, .next n, inPF, outPF, { plc with store := s }⟩
  | none => env.done (.err .illegalInstrction) .stay plc

end Kalyke
