-- SUMMARY: The tables the ucode compiler fills and the stores it makes into them.
import Mathlib.Logic.Function.Basic
import Mathlib.Tactic.Common

/-!
# Compiler State

`plc_compiler_ucode` fills five tables of fixed size: the addresses of the `CALL` instructions, the
entry points of the subroutines and of the interrupt routines, and the clean-up lists of
subroutines, steps and master-control blocks. The source stores into them without checking the
index. Here a table is a total function and every store is also put on record, so that what a run
stores, and where, can be stated; what happens after a store past the end of a table is not
modelled.
-/

namespace Kalyke

def maxCallInsUseNumber : Nat := 256

def maxSbrCount : Nat := 64

def maxMcMcrBlockNumber : Nat := 8

def maxSysIntNum : Nat := 60

def sRang : Nat := 4096

/-- `scv_CompilerInsFlag`: the kind of block the compiler takes itself to be in. -/
inductive InsFlag where
  | normal | stl | mcMcr | sub
deriving DecidableEq, Repr

/-- The two clean-up lists of a block, as the addresses of the recorded instructions. -/
structure InsList where
  simp : List Nat
  comp : List Nat
deriving DecidableEq, Repr

/-- A node of the list of master-control blocks: the block's `MC` and its clean-up lists. -/
structure McBlock where
  pc : Nat
  ins : InsList
deriving DecidableEq, Repr

/-- A store into one of the tables, with the index it goes to. -/
inductive TableStore where
  | call (i : Nat)
  | sbr (n : Nat)
  | intr (n : Nat)
  | mc (level : Nat)
  | stl (step : Nat)
deriving DecidableEq, Repr

/-- The index of a store is inside its table. -/
def TableStore.InTable : TableStore → Prop
  | call i => i < maxCallInsUseNumber
  | sbr n => n < maxSbrCount
  | intr n => n < maxSysIntNum
  | mc level => level < maxMcMcrBlockNumber
  | stl step => step < sRang

instance : DecidablePred TableStore.InTable
  | .call _ | .sbr _ | .intr _ | .mc _ | .stl _ => inferInstanceAs (Decidable (_ < _))

/-- The variables and tables of the compiler. `mcBlocks` is the list `mtv_McMcrHead`, and
`mcListPtr` holds for each nesting level the position of its block there. -/
structure CompState where
  flag : InsFlag
  useNum : Nat
  ucodeAddr : Nat → Nat
  sbrPc : Nat → Nat
  intPara : Nat → Option Nat
  sbrList : Nat → InsList
  stlList : Nat → InsList
  sbrListPtr : Option Nat
  stlListPtr : Option Nat
  nestedLevel : Nat
  mcListPtr : Nat → Nat
  mcBlocks : List McBlock
  mallocs : Nat
  stores : List TableStore

namespace InsList

/-- `INIT_LIST_HEAD` on both lists. -/
def init : InsList := ⟨[], []⟩

/-- `list_add_tail` on the list of simple instructions. -/
def addSimp (l : InsList) (p : Nat) : InsList := { l with simp := l.simp ++ [p] }

/-- `list_add_tail` on the list of complex instructions. -/
def addComp (l : InsList) (p : Nat) : InsList := { l with comp := l.comp ++ [p] }

end InsList

namespace CompState

/-- The state `plc_compiler_ucode` starts its loop in: counters reset, tables and lists emptied. -/
def start : CompState where
  flag := .normal
  useNum := 0
  ucodeAddr := fun _ => 0
  sbrPc := fun _ => 0
  intPara := fun _ => none
  sbrList := fun _ => .init
  stlList := fun _ => .init
  sbrListPtr := none
  stlListPtr := none
  nestedLevel := 0
  mcListPtr := fun _ => 0
  mcBlocks := []
  mallocs := 0
  stores := []

/-- Apply a change to the block of one nesting level. -/
def modifyMc (s : CompState) (level : Nat) (f : InsList → InsList) : CompState :=
  { s with mcBlocks := s.mcBlocks.modify (s.mcListPtr level) fun b => { b with ins := f b.ins } }

/-- Apply a change to the clean-up lists of a subroutine. -/
def modifySbr (s : CompState) (n : Nat) (f : InsList → InsList) : CompState :=
  { s with sbrList := Function.update s.sbrList n (f (s.sbrList n)) }

/-- Apply a change to the clean-up lists of a step. -/
def modifyStl (s : CompState) (n : Nat) (f : InsList → InsList) : CompState :=
  { s with stlList := Function.update s.stlList n (f (s.stlList n)) }

end CompState

end Kalyke
