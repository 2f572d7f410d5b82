-- SUMMARY: The blocks of a program as its text gives them, and the mode flag as a reading of it.
import Kalyke.Compiler.Tables
import Kalyke.Lib.History
import Mathlib.Data.List.Induction

/-!
# Blocks

A program opens and closes three kinds of blocks: subroutines, steps and master-control blocks.
`openBlock` and `openMc` say which are open after a piece of program, each kind on its own, as the
text gives it; `blockList` and `mcList` are the clean-up lists that the blocks ought to have. The
compiler follows one flag instead. Its value is determined by the last delimiter that sets it,
which is how the condition for the lists to be right is put in terms of the text.
-/

namespace Kalyke

open List Option History

variable {u : Ucode} {p q a n : Nat} {ps : List Nat}

/-! ## Open blocks -/

/-- The two kinds of blocks that have a number. -/
inductive BlockKind where
  | sub | step
deriving DecidableEq, Repr

def BlockKind.opens : BlockKind → Mark → Option Nat
  | sub, .sbr n => some n
  | step, .stl n => some n
  | _, _ => none

/-- The marks that end a block without opening one. A step ends at the next step or `RET`. -/
def BlockKind.closes : BlockKind → Mark → Bool
  | sub, .sret => true
  | step, .merge | step, .ret => true
  | _, _ => false

/-- The numbered block, by the address of its opening instruction and its number, that is open
after one more instruction. -/
def openStep (u : Ucode) (k : BlockKind) (o : Option (Nat × Nat)) (p : Nat) : Option (Nat × Nat) :=
  match k.opens (mark u p) with
  | some n => some (p, n)
  | none => if k.closes (mark u p) then none else o

/-- The numbered block open after the instructions at `ps`. -/
def openBlock (u : Ucode) (k : BlockKind) (ps : List Nat) : Option (Nat × Nat) :=
  ps.foldl (openStep u k) none

/-- The open master-control blocks, innermost first, after one more instruction. -/
def openMcStep (u : Ucode) (o : List Nat) (p : Nat) : List Nat :=
  match mark u p with
  | .mc => p :: o
  | .mcr => o.tail
  | _ => o

/-- The master-control blocks open after the instructions at `ps`, by the addresses of their
`MC`. -/
def openMc (u : Ucode) (ps : List Nat) : List Nat := ps.foldl (openMcStep u) []

@[simp] theorem openBlock_nil {k : BlockKind} : openBlock u k [] = none := rfl

@[simp] theorem openBlock_snoc {k : BlockKind} :
    openBlock u k (ps ++ [p]) = openStep u k (openBlock u k ps) p := by
  simp [openBlock]

@[simp] theorem openMc_nil : openMc u [] = [] := rfl

@[simp] theorem openMc_snoc : openMc u (ps ++ [p]) = openMcStep u (openMc u ps) p := by
  simp [openMc]

/-! ## Clearable instructions -/

/-- The cases of `plc_mc_ins_clean_element` and `plc_stl_ins_clean_element` for simple
instructions. They have one for the output of a local element. -/
def SimpleIns.cleaned : SimpleIns → Bool
  | coil .out _ _ | coilLm .out | eu | ed | pulse _ => true
  | _ => false

/-- The cases of `plc_call_ins_clean_element` for simple instructions. -/
def SimpleIns.cleanedInSub : SimpleIns → Bool
  | eu | ed | pulse _ => true
  | _ => false

/-- The cases of the three clean functions for complex instructions. -/
def ComplexIns.cleaned : ComplexIns → Bool
  | call => true
  | data .ton | data .tonr | data .tof | data .outLm | data .bout | data .drvi | data .drvc
  | data .drva | data .zrn | data .pls | data .plsb | data .pwm | data .plsy | data .plsr
  | data .plsv | data .dhscs | data .hcnt | data .spd | data .gearbox | data .lin | data .cw
  | data .ccw | data .cambox => true
  | _ => false

/-- The instruction at `p` is one that passes `f` or `g`, by its kind. -/
def insTest (u : Ucode) (f : SimpleIns → Bool) (g : ComplexIns → Bool) (p : Nat) : Bool :=
  if IsSimple u p then (SimpleIns.ofCode (u.getPU8 (p + 1))).any f
  else (ComplexIns.ofCode (u.getPU16 p)).any g

/-- The clean functions of steps and master-control blocks handle the instruction at `p`. -/
def clearable (u : Ucode) (p : Nat) : Bool :=
  insTest u SimpleIns.cleaned ComplexIns.cleaned p

/-- The clean function for a kind of numbered block handles the instruction at `p`. -/
def clearableIn (u : Ucode) : BlockKind → Nat → Bool
  | .sub, p => insTest u SimpleIns.cleanedInSub ComplexIns.cleaned p
  | .step, p => clearable u p

/-- The simple form of an output to a local element, `SI_OUT_LM`. -/
def isOutLm (u : Ucode) (p : Nat) : Bool := insTest u (· == .coilLm .out) (fun _ => false) p

/-! ## The lists the blocks ought to have -/

/-- The instructions of a program that pass a test on what stands before them, simple and complex
ones apart. -/
def collect (u : Ucode) (R : List Nat → Nat → Bool) (ps : List Nat) : InsList where
  simp := select (fun pre q => IsSimple u q && R pre q) ps
  comp := select (fun pre q => !IsSimple u q && R pre q) ps

/-- Put the instruction at `p` at the end of the list of its kind. -/
def InsList.add (u : Ucode) (p : Nat) (l : InsList) : InsList :=
  if IsSimple u p then l.addSimp p else l.addComp p

def inBlock (u : Ucode) (k : BlockKind) (a : Nat) (pre : List Nat) : Bool :=
  (openBlock u k pre).any fun b => b.1 == a

/-- The master-control block opened at `a` is open after `pre`. -/
def inMc (u : Ucode) (a : Nat) (pre : List Nat) : Bool := (openMc u pre).contains a

/-- What ought to be in the lists of the numbered block opened at `a`. -/
def blockList (u : Ucode) (k : BlockKind) (ps : List Nat) (a : Nat) : InsList :=
  collect u (fun pre q => inBlock u k a pre && clearableIn u k q) ps

/-- What ought to be in the lists of the master-control block opened at `a`. -/
def mcList (u : Ucode) (ps : List Nat) (a : Nat) : InsList :=
  collect u (fun pre q => inMc u a pre && clearable u q) ps

/-- The clean-up lists the compiler has made for the number `n`. -/
def CompState.listOf (s : CompState) : BlockKind → Nat → InsList
  | .sub, n => s.sbrList n
  | .step, n => s.stlList n

/-- The clean-up lists are those of the blocks of the program: every instruction that lies in a
block and that the block's clean function handles, once and in program order, and no other. -/
structure ListsExact (u : Ucode) (ps : List Nat) (s : CompState) : Prop where
  numbered : ∀ k, ∀ a ∈ ps, ∀ n, k.opens (mark u a) = some n →
    s.listOf k n = blockList u k ps a
  mc : s.mcBlocks = (ps.filter (mark u · = .mc)).map fun a => ⟨a, mcList u ps a⟩

/-! ## The mode flag -/

/-- The flag that a delimiter sets the compiler to. -/
def Mark.flag : Mark → InsFlag
  | sbr _ => .sub
  | stl _ => .stl
  | mc => .mcMcr
  | _ => .normal

/-- The delimiter at `p`, read after `pre`, sets the flag. An `MCR` does so only if it closes the
outermost master-control block. -/
def setsFlag (u : Ucode) (pre : List Nat) (p : Nat) : Bool :=
  match mark u p with
  | .sbr _ | .sret | .stl _ | .merge | .ret | .mc => true
  | .mcr => (openMc u pre).length ≤ 1
  | _ => false

/-- The delimiters of a program that set the flag, in order. -/
def flagSetters (u : Ucode) (ps : List Nat) : List Nat := select (setsFlag u) ps

/-- The value of the flag after the instructions at `ps`. -/
def flagAfter (u : Ucode) (ps : List Nat) : InsFlag :=
  (flagSetters u ps).getLast?.elim .normal fun p => (mark u p).flag

/-- No delimiter between `a` and `q` sets the flag. -/
def FlagKept (u : Ucode) (ps : List Nat) (a q : Nat) : Prop :=
  ∀ d ∈ flagSetters u ps, a < d → q ≤ d

/-- The condition on a program under which the one flag is enough: at every clearable instruction
the flag still is what the opening instruction of the block set it to, or for a master-control
block what some `MC` set it to; no simple output to a local element lies in a step or a
master-control block; and of two blocks with the same number neither holds a clearable
instruction. -/
structure FlagFollowsBlocks (u : Ucode) (ps : List Nat) : Prop where
  numbered : ∀ k a n, ∀ q ∈ ps, openBlock u k (before ps q) = some (a, n) →
    clearableIn u k q = true → FlagKept u ps a q ∧ isOutLm u q = false
  mc : ∀ q ∈ ps, openMc u (before ps q) ≠ [] → clearable u q = true →
    (∃ a ∈ before ps q, mark u a = .mc ∧ FlagKept u ps a q) ∧ isOutLm u q = false
  once : ∀ k n, ∀ a ∈ ps, ∀ b ∈ ps, k.opens (mark u a) = some n → k.opens (mark u b) = some n →
    a ≠ b → ∀ q ∈ ps, openBlock u k (before ps q) = some (a, n) → clearableIn u k q = false

/-! ## Reading the flag off the text -/

def BlockKind.flag : BlockKind → InsFlag
  | sub => .sub
  | step => .stl

theorem BlockKind.flag_eq_iff {k : BlockKind} {m : Mark} :
    m.flag = k.flag ↔ ∃ n, k.opens m = some n := by
  cases k <;> cases m <;> simp [Mark.flag, flag, opens]

theorem Mark.flag_eq_mcMcr_iff {m : Mark} : m.flag = .mcMcr ↔ m = .mc := by
  cases m <;> simp [Mark.flag]

theorem setsFlag_of_opens {k : BlockKind} {pre : List Nat} (h : k.opens (mark u p) = some n) :
    setsFlag u pre p = true := by
  unfold setsFlag
  cases k <;> cases hm : mark u p <;> simp_all [BlockKind.opens]

theorem openBlock_spec {k : BlockKind} (hps : ps.Pairwise (· < ·))
    (h : openBlock u k ps = some (a, n)) :
    a ∈ ps ∧ k.opens (mark u a) = some n ∧
      ∀ d ∈ ps, a < d → k.opens (mark u d) = none ∧ k.closes (mark u d) = false := by
  induction ps using reverseRecOn with
  | nil => cases h
  | append_singleton ps p ih =>
    rw [openBlock_snoc, openStep] at h
    have hlt := lt_of_pairwise_snoc hps
    split at h
    · rename_i m hm
      cases h
      refine ⟨by simp, hm, fun d hd had => ?_⟩
      rcases mem_append.mp hd with hd | hd
      · exact absurd (had.trans (hlt d hd)) (lt_irrefl _)
      · exact absurd (mem_singleton.mp hd ▸ had) (lt_irrefl _)
    · rename_i hopen
      split at h
      · cases h
      · rename_i hclose
        obtain ⟨hmem, hopens, hsince⟩ := ih (pairwise_of_snoc hps) h
        refine ⟨mem_append_left _ hmem, hopens, fun d hd had => ?_⟩
        rcases mem_append.mp hd with hd | hd
        · exact hsince d hd had
        · obtain rfl := mem_singleton.mp hd
          exact ⟨hopen, by simpa using hclose⟩

theorem flagAfter_snoc (hps : (ps ++ [p]).Pairwise (· < ·)) :
    flagAfter u (ps ++ [p]) =
      if setsFlag u ps p then (mark u p).flag else flagAfter u ps := by
  unfold flagAfter flagSetters
  rw [select_snoc hps]
  split <;> simp

theorem flagAfter_eq_iff {k : BlockKind} (hps : ps.Pairwise (· < ·))
    (h : openBlock u k ps = some (a, n)) :
    flagAfter u ps = k.flag ↔ ∀ d ∈ flagSetters u ps, d ≤ a := by
  obtain ⟨hmem, hopens, hsince⟩ := openBlock_spec hps h
  have ha : a ∈ flagSetters u ps := mem_select.mpr ⟨hmem, setsFlag_of_opens hopens⟩
  obtain ⟨m, hm⟩ : ∃ m, (flagSetters u ps).getLast? = some m :=
    isSome_iff_exists.mp (by simpa using ne_nil_of_mem ha)
  have hlast := le_getLast (pairwise_select hps) hm
  have hmset : m ∈ flagSetters u ps := mem_of_getLast? hm
  rw [flagAfter, hm, elim_some, BlockKind.flag_eq_iff]
  constructor
  · rintro ⟨n', hn'⟩ d hd
    have hma : ¬ a < m := fun ham => by
      simp [(hsince m (mem_select.mp hmset).1 ham).1] at hn'
    exact (hlast d hd).trans (not_lt.mp hma)
  · intro hall
    have : m = a := le_antisymm (hall m hmset) (hlast a ha)
    exact ⟨n, this ▸ hopens⟩

theorem flagAfter_eq_mcMcr_iff (hps : ps.Pairwise (· < ·)) :
    flagAfter u ps = .mcMcr ↔ ∃ a ∈ ps, mark u a = .mc ∧ ∀ d ∈ flagSetters u ps, d ≤ a := by
  have hsets : ∀ a ∈ ps, mark u a = .mc → a ∈ flagSetters u ps := fun a ha hm =>
    mem_select.mpr ⟨ha, by simp [setsFlag, hm]⟩
  unfold flagAfter
  cases hm : (flagSetters u ps).getLast? with
  | none =>
    have hnil : flagSetters u ps = [] := by simpa using hm
    simp only [elim_none, reduceCtorEq, false_iff]
    rintro ⟨a, ha, hmark, -⟩
    simpa [hnil] using hsets a ha hmark
  | some m =>
    have hlast := le_getLast (pairwise_select hps) hm
    have hmset : m ∈ flagSetters u ps := mem_of_getLast? hm
    rw [elim_some, Mark.flag_eq_mcMcr_iff]
    constructor
    · exact fun hmark => ⟨m, (mem_select.mp hmset).1, hmark, hlast⟩
    · rintro ⟨a, ha, hmark, hall⟩
      have : m = a := le_antisymm (hall m hmset) (hlast a (hsets a ha hmark))
      rwa [this]

end Kalyke
