-- SUMMARY: The compile loop over a downloaded ucode file.
import Kalyke.Compiler.Lists
import Kalyke.Compiler.Move
import Kalyke.Lib.WhileLoop

/-!
# The Compile Loop

`plc_compiler_ucode` walks over the file from byte 28 to four bytes before the end that the header
names, records the instructions of the clean-up lists and fills the tables. The loop is given by one
pass over its body; its termination is a theorem about some files, not part of the definition.
-/

namespace Kalyke

/-- How `plc_compiler_ucode` ends: `pdPASS`, or `pdFAIL` with the error and the place recorded. -/
inductive CompileResult where
  | accepted (s : CompState)
  | rejected (e : PlcErr) (p : Nat) (s : CompState)

/-- The length field of the file header, at `FILE_LEN_INFO_START_INDEX`. -/
def fileLength (u : Ucode) : Nat := u.getPU32 6

/-- `lcp_UCodePtr < lcp_UCodeEndPtr`, where the end is four bytes before the end of the file. A
length below four puts the end before the start of the file. -/
def BeforeEnd (u : Ucode) (p : Nat) : Prop := p + 4 < fileLength u

/-- `lcp_UCodePtr > lcp_UCodeEndPtr`. -/
def PastEnd (u : Ucode) (p : Nat) : Prop := fileLength u < p + 4

instance (u : Ucode) : DecidablePred (BeforeEnd u) := fun _ => inferInstanceAs (Decidable (_ < _))

instance (u : Ucode) : DecidablePred (PastEnd u) := fun _ => inferInstanceAs (Decidable (_ < _))

/-- The address of the first instruction. -/
def ucodeStart : Nat := 28

/-- The compiler takes the instruction at `p` for a simple one. -/
def IsSimple (u : Ucode) (p : Nat) : Prop := u.getPU8 (p + 1) < siMaxIns

instance (u : Ucode) : DecidablePred (IsSimple u) := fun _ => inferInstanceAs (Decidable (_ < _))

/-- Record the instruction at `p` and move over it. -/
def compilerIns (alloc : Nat → Bool) (u : Ucode) (p : Nat) (s : CompState) :
    Except PlcErr Nat × CompState :=
  if IsSimple u p then
    match plcAddInsToSimpleList alloc u p s with
    | (.ok (), s') => (plcMoveUcodePtrFromSimpleIns u p, s')
    | (.error e, s') => (.error e, s')
  else
    match plcAddInsToComplexList alloc u p s with
    | (.ok (), s') => plcMoveUcodePtrFromComplexIns alloc u p s'
    | (.error e, s') => (.error e, s')

/-- One pass over the loop of `plc_compiler_ucode`. -/
def compilerLoop (alloc : Nat → Bool) (u : Ucode) : WhileLoop (Nat × CompState) CompileResult
  | (p, s) =>
    if BeforeEnd u p then
      match compilerIns alloc u p s with
      | (.ok q, s') => if PastEnd u q then .inr (.rejected .userProgram q s') else .inl (q, s')
      | (.error e, s') =>
        -- only the move function of the complex instructions is followed by the test for `CI_END`
        if ¬ IsSimple u p ∧ u.getPU16 p = ciEnd then .inr (.accepted s')
        else .inr (.rejected e p s')
    else .inr (.accepted s)

def plcCompilerUcode (alloc : Nat → Bool) (u : Ucode) (fuel : Nat) : Option CompileResult :=
  (compilerLoop alloc u).run fuel (ucodeStart, .start)

/-- The loop of `plc_compiler_ucode` comes to the pointer `p` with the tables `s`. -/
def CompilerReaches (alloc : Nat → Bool) (u : Ucode) (p : Nat) (s : CompState) : Prop :=
  (compilerLoop alloc u).Reaches (ucodeStart, .start) (p, s)

/-- `plc_compiler_ucode` returns `pdPASS` and leaves the tables `s`. -/
def Accepts (alloc : Nat → Bool) (u : Ucode) (s : CompState) : Prop :=
  (compilerLoop alloc u).Returns (ucodeStart, .start) (.accepted s)

end Kalyke
