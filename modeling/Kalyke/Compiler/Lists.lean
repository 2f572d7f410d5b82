-- SUMMARY: The clean-up lists: which instructions the compiler records, and in which blocks.
import Kalyke.Common.Error
import Kalyke.Compiler.State
import Kalyke.Ucode.ComplexIns
import Kalyke.Ucode.Memory
import Kalyke.Ucode.SimpleIns

/-!
# Clean-up Lists

`plc_add_ins_to_simple_list` and `plc_add_ins_to_complex_list`. Both look at the mode flag alone to
decide in which block an instruction lies.
-/

namespace Kalyke

/-- The simple instructions recorded in steps and master-control blocks. -/
def SimpleIns.cleanable : SimpleIns → Bool
  | coil .out _ _ | eu | ed | pulse _ => true
  | _ => false

/-- The simple instructions recorded in subroutines, where the outputs are left alone. -/
def SimpleIns.cleanableInSub : SimpleIns → Bool
  | eu | ed | pulse _ => true
  | _ => false

/-- The data instructions recorded in all three kinds of block. -/
def DataIns.cleanable : DataIns → Bool
  | .ton | .tonr | .tof | .outLm | .bout | .drvi | .drvc | .drva | .zrn | .pls | .plsb | .pwm
  | .plsy | .plsr | .plsv | .dhscs | .hcnt | .spd | .gearbox | .lin | .cw | .ccw | .cambox => true
  | _ => false

/-- The complex instructions recorded in all three kinds of block. -/
def ComplexIns.cleanable : ComplexIns → Bool
  | call => true
  | data d => d.cleanable
  | _ => false

/-- Allocate a list entry and, if that succeeds, hang it into a list. -/
def CompState.addEntry (alloc : Nat → Bool) (s : CompState) (f : CompState → CompState) :
    Except PlcErr Unit × CompState :=
  let s' := { s with mallocs := s.mallocs + 1 }
  if alloc s.mallocs then (.ok (), f s') else (.error .noFreeMemory, s')

/-- The loop over the open master-control blocks, from level `i` up to `i + n`. -/
def CompState.addEntryMc (alloc : Nat → Bool) (f : InsList → InsList) :
    Nat → Nat → CompState → Except PlcErr Unit × CompState
  | 0, _, s => (.ok (), s)
  | n + 1, i, s =>
    match s.addEntry alloc (·.modifyMc i f) with
    | (.ok (), s') => addEntryMc alloc f n (i + 1) s'
    | (.error e, s') => (.error e, s')

/-- Record an instruction in the block or blocks that the mode flag points to. `inSub` says whether
the instruction is one of those recorded in a subroutine. -/
def CompState.addIns (alloc : Nat → Bool) (f : InsList → InsList) (inSub : Bool) (s : CompState) :
    Except PlcErr Unit × CompState :=
  match s.flag with
  | .stl =>
    match s.stlListPtr with
    | some n => s.addEntry alloc (·.modifyStl n f)
    | none => (.ok (), s)
  | .mcMcr => s.addEntryMc alloc f s.nestedLevel 0
  | .sub =>
    match inSub, s.sbrListPtr with
    | true, some n => s.addEntry alloc (·.modifySbr n f)
    | _, _ => (.ok (), s)
  | .normal => (.ok (), s)

def plcAddInsToSimpleList (alloc : Nat → Bool) (u : Ucode) (p : Nat) (s : CompState) :
    Except PlcErr Unit × CompState :=
  match SimpleIns.ofCode (u.getPU8 (p + 1)) with
  | some i => if i.cleanable then s.addIns alloc (·.addSimp p) i.cleanableInSub else (.ok (), s)
  | none => (.ok (), s)

def plcAddInsToComplexList (alloc : Nat → Bool) (u : Ucode) (p : Nat) (s : CompState) :
    Except PlcErr Unit × CompState :=
  match ComplexIns.ofCode (u.getPU16 p) with
  | some i => if i.cleanable then s.addIns alloc (·.addComp p) true else (.ok (), s)
  | none => (.ok (), s)

end Kalyke
