-- SUMMARY: Switching off the instructions of a block that is no longer run.
import Kalyke.Compiler.State
import Kalyke.Exec.SimpleIns

/-!
# Clean-up of Blocks

When a subroutine, a step or a master-control block loses its power flow, the interpreter walks over
the clean-up lists the compiler made for it: outputs and edges are reset, timers stopped, and the
subroutines called from there are cleaned up in turn, one call level further up.
-/

namespace Kalyke

def plcGetCallInsId (t : CompState) (p : Nat) : Option Nat :=
  (List.range t.useNum).find? fun i => t.ucodeAddr i == p

/-- The operand of `CALL` that names the subroutine. -/
def callSbrNumber (u : Ucode) (p : Nat) : Nat := u.getPU16 (p + 2) % 256

/-- Reset the value and the first-run flag of an edge. -/
def Store.cleanEdge (s : Store) (n : Nat) : Store := (s.setEdge n false).rstEdgeInit n

/-- The clean-up of a recorded simple instruction at call level `n`. Outputs are reset in steps and
master-control blocks, but not in subroutines. -/
def cleanSimpleIns (u : Ucode) (outputs : Bool) (n : Nat) (s : Store) (p : Nat) : Store :=
  match SimpleIns.ofCode (u.getPU8 (p + 1)) with
  | some (.coil .out e ext) =>
    if outputs then s.setBit (.elem e.toBitElement) (elementNumber u p ext) false else s
  | some (.coilLm .out) => if outputs then s.setBit (.lm n) (u.getPU8 p) false else s
  | some .eu | some .ed => s.cleanEdge (u.getPU16 (p + 2))
  | some (.pulse _) => s.cleanEdge (u.getPU16 (p + 4))
  | _ => s

/-- Apply a change to the elements. -/
def Plc.onStore (plc : Plc) (f : Store → Store) : Plc := { plc with store := f plc.store }

/-- The clean-up of a `CALL`: the subroutine it last ran is cleaned up one level further up. -/
def cleanCall (t : CompState) (u : Ucode) (sub : Nat → Plc → Except PlcErr Unit × Plc)
    (plc : Plc) (p : Nat) : Except PlcErr Unit × Plc :=
  match plcGetCallInsId t p with
  | none => (.error .noDefineSbrIntr, plc)
  | some id =>
    if maxSbrNestedLayer ≤ plc.sbrNestedNum then (.error .overSbrStack, plc)
    else if plc.isExec id then
      let (ret, plc') := sub (callSbrNumber u p)
        { plc with isExec := Function.update plc.isExec id false,
                   sbrNestedNum := plc.sbrNestedNum + 1 }
      (ret, { plc' with sbrNestedNum := plc'.sbrNestedNum - 1 })
    else (.ok (), plc)

section

variable (out : Outside) (t : CompState) (u : Ucode) (now : BitVec 32)

/-- The clean-up of a recorded complex instruction. Of the instructions the compiler records, those
for pulse output and high-speed counting are passed over. -/
def cleanComplexIns (sub : Nat → Plc → Except PlcErr Unit × Plc) (plc : Plc) (p : Nat) :
    Except PlcErr Unit × Plc :=
  match ComplexIns.ofCode (u.getPU16 p) with
  | some (.data .ton) | some (.data .tof) =>
    (.ok (), plc.onStore (·.plcResetOneTimer now (u.getPU16 (p + 4))))
  | some (.data .tonr) => (.ok (), plc.onStore (·.disableTimer (u.getPU16 (p + 4))))
  | some (.data .outLm) =>
    (.ok (), plc.onStore (·.setBit (.lm plc.sbrNestedNum) (u.getPU16 (p + 4)) false))
  | some (.data .bout) =>
    let input : BodyInput := ⟨u, p, plc.sbrNestedNum, now, 0, plc.sfc, plc.store⟩
    (.ok (), { plc with store := (out.body (.data .bout) input).2.2 })
  | some .call => cleanCall t u sub plc p
  | _ => (.ok (), plc)

/-- The loop over the recorded complex instructions, which ends at the first error. -/
def cleanComplexList (sub : Nat → Plc → Except PlcErr Unit × Plc) :
    List Nat → Plc → Except PlcErr Unit × Plc
  | [], plc => (.ok (), plc)
  | p :: ps, plc =>
    match cleanComplexIns out t u now sub plc p with
    | (.ok (), plc') => cleanComplexList sub ps plc'
    | (.error e, plc') => (.error e, plc')

/-- The clean-up of both lists of a block. -/
def cleanLists (outputs : Bool) (sub : Nat → Plc → Except PlcErr Unit × Plc) (l : InsList)
    (plc : Plc) : Except PlcErr Unit × Plc :=
  cleanComplexList out t u now sub l.comp
    (plc.onStore fun s => l.simp.foldl (cleanSimpleIns u outputs plc.sbrNestedNum) s)

/-- `plc_call_ins_clean_element` for a subroutine, with room for that many further call levels. At
the last level `cleanCall` has already given up, so that the case without room is never run. -/
def plcCallInsCleanElement : Nat → Nat → Plc → Except PlcErr Unit × Plc
  | 0, id, plc =>
    if maxSbrCount < id then (.error .overSbrStack, plc)
    else cleanLists out t u now false (fun _ plc => (.error .overSbrStack, plc)) (t.sbrList id) plc
  | room + 1, id, plc =>
    if maxSbrCount < id then (.error .overSbrStack, plc)
    else cleanLists out t u now false (plcCallInsCleanElement room) (t.sbrList id) plc

/-- The clean-up of a subroutine called from the current level. -/
def cleanSub (plc : Plc) : Nat → Plc → Except PlcErr Unit × Plc :=
  plcCallInsCleanElement out t u now (maxSbrNestedLayer - plc.sbrNestedNum - 1)

def plcMcInsCleanElement (p : Nat) (plc : Plc) : Except PlcErr Unit × Plc :=
  match t.mcBlocks.find? fun b => b.pc == p with
  | some b => cleanLists out t u now true (cleanSub out t u now plc) b.ins plc
  | none => (.ok (), plc)

def plcStlInsCleanElement (step : Nat) (plc : Plc) : Except PlcErr Unit × Plc :=
  if sRang < step then (.error .overElementRang, plc)
  else cleanLists out t u now true (cleanSub out t u now plc) (t.stlList step) plc

end

/-! ## Rules -/

/-- A relation that holds between the states before and after every part of a clean-up: it lets the
elements change in any way, and it gets from the clean-up of a subroutine to that of its `CALL`. -/
structure CleanRelation (R : Plc → Plc → Prop) : Prop where
  trans : ∀ {a b c : Plc}, R a b → R b c → R a c
  store : ∀ (plc : Plc) (s : Store), R plc { plc with store := s }
  call : ∀ (plc plc' : Plc) (id : Nat),
    R { plc with isExec := Function.update plc.isExec id false,
                 sbrNestedNum := plc.sbrNestedNum + 1 } plc' →
      R plc { plc' with sbrNestedNum := plc'.sbrNestedNum - 1 }

namespace CleanRelation

variable {R : Plc → Plc → Prop} {out : Outside} {t : CompState} {u : Ucode} {now : BitVec 32}
variable {sub : Nat → Plc → Except PlcErr Unit × Plc}

theorem refl (hR : CleanRelation R) (plc : Plc) : R plc plc := hR.store plc plc.store

theorem cleanCall (hR : CleanRelation R) (hsub : ∀ id plc, R plc (sub id plc).2) (plc : Plc)
    (p : Nat) : R plc (cleanCall t u sub plc p).2 := by
  unfold Kalyke.cleanCall
  split
  · exact hR.refl plc
  · split
    · exact hR.refl plc
    · split
      · exact hR.call plc _ _ (hsub _ _)
      · exact hR.refl plc

theorem cleanComplexIns (hR : CleanRelation R) (hsub : ∀ id plc, R plc (sub id plc).2) (plc : Plc)
    (p : Nat) : R plc (cleanComplexIns out t u now sub plc p).2 := by
  unfold Kalyke.cleanComplexIns
  split <;> first | exact hR.cleanCall hsub plc p | exact hR.store plc _

theorem cleanComplexList (hR : CleanRelation R) (hsub : ∀ id plc, R plc (sub id plc).2)
    (ps : List Nat) (plc : Plc) : R plc (cleanComplexList out t u now sub ps plc).2 := by
  induction ps generalizing plc with
  | nil => exact hR.refl plc
  | cons p ps ih =>
    have h : R plc (Kalyke.cleanComplexIns out t u now sub plc p).2 :=
      hR.cleanComplexIns hsub plc p
    rw [Kalyke.cleanComplexList]
    split
    · rename_i plc' heq
      rw [heq] at h
      exact hR.trans h (ih plc')
    · rename_i e plc' heq
      rw [heq] at h
      exact h

theorem cleanLists (hR : CleanRelation R) (hsub : ∀ id plc, R plc (sub id plc).2) (outputs : Bool)
    (l : InsList) (plc : Plc) : R plc (cleanLists out t u now outputs sub l plc).2 :=
  hR.trans (hR.store plc _) (hR.cleanComplexList hsub l.comp _)

theorem plcCallInsCleanElement (hR : CleanRelation R) (room id : Nat) (plc : Plc) :
    R plc (plcCallInsCleanElement out t u now room id plc).2 := by
  induction room generalizing id plc with
  | zero =>
    rw [Kalyke.plcCallInsCleanElement]
    split
    · exact hR.refl plc
    · exact hR.cleanLists (fun _ plc => hR.refl plc) false _ plc
  | succ room ih =>
    rw [Kalyke.plcCallInsCleanElement]
    split
    · exact hR.refl plc
    · exact hR.cleanLists ih false _ plc

theorem plcMcInsCleanElement (hR : CleanRelation R) (p : Nat) (plc : Plc) :
    R plc (plcMcInsCleanElement out t u now p plc).2 := by
  unfold Kalyke.plcMcInsCleanElement
  split
  · exact hR.cleanLists (fun id plc => hR.plcCallInsCleanElement _ id plc) true _ plc
  · exact hR.refl plc

theorem plcStlInsCleanElement (hR : CleanRelation R) (step : Nat) (plc : Plc) :
    R plc (plcStlInsCleanElement out t u now step plc).2 := by
  unfold Kalyke.plcStlInsCleanElement
  split
  · exact hR.refl plc
  · exact hR.cleanLists (fun id plc => hR.plcCallInsCleanElement _ id plc) true _ plc

end CleanRelation

end Kalyke
