-- SUMMARY: The elements that are kept when the power is lost: saving and restoring their arrays.
import Mathlib.Logic.Function.Basic
import Mathlib.Tactic.Common

/-!
# Data Kept without Power

When the power goes, the arrays of the elements to be kept are written to the flash memory, and when
the program starts, two groups of elements of each class are copied back. Bits are packed into
halfwords, so a group may begin or end inside of one. The values of the 32-bit counters lie behind
those of the 16-bit counters.
-/

namespace Kalyke

open List Function

/-! ## Arrays -/

/-- An element of an array of bits, which are packed into halfwords. -/
def bitAt (xs : Nat → BitVec 16) (i : Nat) : Bool := (xs (i / 16)).getLsbD (i % 16)

/-- `set_bit_element_value` of `plsd_task.c`. -/
def setBitElementValue (dst src : BitVec 16) (element : Nat) : BitVec 16 :=
  if src.getLsbD element then dst ||| (1#16 <<< element) else dst &&& ~~~(1#16 <<< element)

/-- The loops that copy the bits from `lo` up to `hi` of the halfword at `p`. -/
def setBits (src dst : Nat → BitVec 16) (p lo hi : Nat) : Nat → BitVec 16 :=
  update dst p
    ((range' lo (hi - lo)).foldl (fun w i => setBitElementValue w (src p) i) (dst p))

/-- `restore_u8_element`, `restore_u16_element` and `restore_u32_element`. -/
def restoreArray {α : Type} (src dst : Nat → α) (start len : Nat) : Nat → α :=
  fun i => if start ≤ i ∧ i < start + len then src i else dst i

def copyBitElement (src dst : Nat → BitVec 16) (p len : Nat) : Nat → BitVec 16 :=
  if len < 16 then setBits src dst p 0 len
  else
    let u16Counts := len / 16
    let dst := restoreArray src dst p u16Counts
    if len % 16 ≠ 0 then setBits src dst (p + u16Counts) 0 (len % 16) else dst

def restoreBitElement (src dst : Nat → BitVec 16) (start len : Nat) : Nat → BitVec 16 :=
  let p := start / 16
  if start % 16 = 0 then copyBitElement src dst p len
  else
    let first := start % 16
    let last := first + len
    if 16 < last then
      let dst := setBits src dst p first 16
      if len - (16 - first) = 0 then dst else copyBitElement src dst (p + 1) (len - (16 - first))
    else setBits src dst p first last

section

variable {src dst : Nat → BitVec 16} {w v : BitVec 16} {p lo hi len start i j : Nat}

theorem getLsbD_setBitElementValue (hj : j < 16) :
    (setBitElementValue w v i).getLsbD j = if j = i then v.getLsbD i else w.getLsbD j := by
  have hone : (1#16 <<< i).getLsbD j = decide (j = i) := by
    rw [BitVec.getLsbD_shiftLeft, BitVec.getLsbD_one]
    by_cases hji : j = i
    · simp [hji, show i < 16 by omega]
    · simp only [hji, decide_false, Bool.and_eq_false_imp, decide_eq_true_eq]
      intro hlt
      simp at hlt ⊢
      omega
  unfold setBitElementValue
  split
  · rename_i hv
    rw [BitVec.getLsbD_or, hone]
    by_cases hji : j = i <;> simp [hji, hv]
  · rename_i hv
    rw [BitVec.getLsbD_and, BitVec.getLsbD_not, hone]
    by_cases hji : j = i <;> simp [hji, hv, hj]

/-- The bits that were copied are those of the source. -/
theorem getLsbD_foldl_setBit (hj : j < 16) (is : List Nat) :
    (is.foldl (fun w i => setBitElementValue w v i) w).getLsbD j =
      if j ∈ is then v.getLsbD j else w.getLsbD j := by
  induction is generalizing w with
  | nil => simp
  | cons i is ih =>
    rw [foldl_cons, ih, getLsbD_setBitElementValue hj]
    by_cases hmem : j ∈ is
    · simp [hmem]
    · by_cases hji : j = i
      · simp [hji]
      · simp [hji]

theorem bitAt_setBits : bitAt (setBits src dst p lo hi) i =
    if i / 16 = p ∧ lo ≤ i % 16 ∧ i % 16 < hi then bitAt src i else bitAt dst i := by
  unfold bitAt setBits
  by_cases hp : i / 16 = p
  · subst hp
    rw [update_self, getLsbD_foldl_setBit (Nat.mod_lt _ (by omega))]
    simp only [mem_range'_1, true_and]
    exact if_congr (by omega) rfl rfl
  · rw [update_of_ne hp, if_neg fun h => hp h.1]

theorem bitAt_restoreArray : bitAt (restoreArray src dst p len) i =
    if 16 * p ≤ i ∧ i < 16 * (p + len) then bitAt src i else bitAt dst i := by
  unfold bitAt restoreArray
  have hiff : (p ≤ i / 16 ∧ i / 16 < p + len) ↔ (16 * p ≤ i ∧ i < 16 * (p + len)) := by omega
  simp only [hiff]
  split <;> rfl

theorem bitAt_copyBitElement : bitAt (copyBitElement src dst p len) i =
    if 16 * p ≤ i ∧ i < 16 * p + len then bitAt src i else bitAt dst i := by
  unfold copyBitElement
  by_cases hlen : len < 16
  · rw [if_pos hlen, bitAt_setBits]
    exact if_congr (by omega) rfl rfl
  · rw [if_neg hlen]
    split
    · rw [bitAt_setBits, bitAt_restoreArray]
      split_ifs <;> first | rfl | omega
    · rw [bitAt_restoreArray]
      exact if_congr (by omega) rfl rfl

/-- Exactly the bits of the group are restored, wherever in a halfword it begins and ends. -/
theorem bitAt_restoreBitElement : bitAt (restoreBitElement src dst start len) i =
    if start ≤ i ∧ i < start + len then bitAt src i else bitAt dst i := by
  unfold restoreBitElement
  by_cases hstart : start % 16 = 0
  · rw [if_pos hstart, bitAt_copyBitElement]
    exact if_congr (by omega) rfl rfl
  · rw [if_neg hstart]
    by_cases hlast : 16 < start % 16 + len
    · rw [if_pos hlast]
      by_cases hrest : len - (16 - start % 16) = 0
      · rw [if_pos hrest, bitAt_setBits]
        exact if_congr (by omega) rfl rfl
      · rw [if_neg hrest, bitAt_copyBitElement, bitAt_setBits]
        split_ifs <;> first | rfl | omega
    · rw [if_neg hlast, bitAt_setBits]
      exact if_congr (by omega) rfl rfl

end

/-! ## Elements -/

/-- `__PLC_PLSD_SEQ_E`: the classes of elements that can be kept. -/
inductive Plsd where
  | M | S | C | T | D
deriving DecidableEq, Repr

/-- The classes in the order of the loops over them. -/
def Plsd.all : List Plsd := [.M, .S, .C, .T, .D]

/-- The number of elements of a class. -/
def Plsd.rang : Plsd → Nat
  | M => 16384
  | S => 4096
  | C | T => 512
  | D => 8000

def cElement16BitCnt : Nat := 200

/-- `plc_c_element_st`: the values are the halfwords of `msp_16BitValue` and, behind them, of
`msp_32BitValue`. -/
structure CElement where
  bitElement : Nat → BitVec 16
  value : Nat → BitVec 16
  statusInfo : Nat → BitVec 8

/-- `plc_t_element_st`. -/
structure TElement where
  bitElement : Nat → BitVec 16
  currentValue : Nat → BitVec 16
  destValue : Nat → BitVec 16
  startValue : Nat → BitVec 32
  statusInfo : Nat → BitVec 8

/-- The elements that can be kept, in use or in the flash memory. -/
structure PlsdElements where
  mElement : Nat → BitVec 16
  sElement : Nat → BitVec 16
  cElement : CElement
  tElement : TElement
  dElement : Nat → BitVec 16

/-- The first halfword of a counter's value. -/
def c32Index (i : Nat) : Nat := cElement16BitCnt + 2 * (i - cElement16BitCnt)

/-- What an element consists of. -/
inductive ElementValue where
  | bit (b : Bool)
  | counter16 (b : Bool) (value : BitVec 16) (status : BitVec 8)
  | counter32 (b : Bool) (low high : BitVec 16) (status : BitVec 8)
  | timer (b : Bool) (current dest : BitVec 16) (start : BitVec 32) (status : BitVec 8)
  | word (value : BitVec 16)
deriving DecidableEq, Repr

def ElementValue.flag : ElementValue → Bool
  | bit b | counter16 b .. | counter32 b .. | timer b .. => b
  | word w => w.getLsbD 0

namespace PlsdElements

def element (e : PlsdElements) (c : Plsd) (i : Nat) : ElementValue :=
  match c with
  | .M => .bit (bitAt e.mElement i)
  | .S => .bit (bitAt e.sElement i)
  | .C =>
    if i < cElement16BitCnt then
      .counter16 (bitAt e.cElement.bitElement i) (e.cElement.value i) (e.cElement.statusInfo i)
    else
      .counter32 (bitAt e.cElement.bitElement i) (e.cElement.value (c32Index i))
        (e.cElement.value (c32Index i + 1)) (e.cElement.statusInfo i)
  | .T => .timer (bitAt e.tElement.bitElement i) (e.tElement.currentValue i)
      (e.tElement.destValue i) (e.tElement.startValue i) (e.tElement.statusInfo i)
  | .D => .word (e.dElement i)

/-- All bits of the elements are turned over. -/
def compl (e : PlsdElements) : PlsdElements where
  mElement i := ~~~ e.mElement i
  sElement i := ~~~ e.sElement i
  cElement := ⟨fun i => ~~~ e.cElement.bitElement i, fun i => ~~~ e.cElement.value i,
    e.cElement.statusInfo⟩
  tElement := { e.tElement with bitElement := fun i => ~~~ e.tElement.bitElement i }
  dElement i := ~~~ e.dElement i

theorem flag_compl (e : PlsdElements) (c : Plsd) (i : Nat) :
    (e.compl.element c i).flag = !(e.element c i).flag := by
  have hmod : i % 16 < 16 := Nat.mod_lt _ (by omega)
  cases c with
  | C =>
    by_cases hi : i < cElement16BitCnt <;>
      simp [element, hi, ElementValue.flag, compl, bitAt, hmod]
  | _ => simp [element, ElementValue.flag, compl, bitAt, hmod]

/-- What `restore_element` does with the values of counters: those of 32 bits only if the first
counter is one of them. -/
def restoreCounters (src dst : Nat → BitVec 16) (start len : Nat) : Nat → BitVec 16 :=
  if start < cElement16BitCnt then restoreArray src dst start len
  else restoreArray src dst (c32Index start) (2 * len)

/-- `restore_element`, from the areas of the flash memory. -/
def restoreElement (area e : PlsdElements) (c : Plsd) (start len : Nat) : PlsdElements :=
  match c with
  | .M => { e with mElement := restoreBitElement area.mElement e.mElement start len }
  | .S => { e with sElement := restoreBitElement area.sElement e.sElement start len }
  | .C =>
    { e with cElement := {
        bitElement := restoreBitElement area.cElement.bitElement e.cElement.bitElement start len
        value := restoreCounters area.cElement.value e.cElement.value start len
        statusInfo := restoreArray area.cElement.statusInfo e.cElement.statusInfo start len } }
  | .T =>
    { e with tElement := {
        bitElement := restoreBitElement area.tElement.bitElement e.tElement.bitElement start len
        currentValue := restoreArray area.tElement.currentValue e.tElement.currentValue start len
        destValue := restoreArray area.tElement.destValue e.tElement.destValue start len
        startValue := restoreArray area.tElement.startValue e.tElement.startValue start len
        statusInfo := restoreArray area.tElement.statusInfo e.tElement.statusInfo start len } }
  | .D => { e with dElement := restoreArray area.dElement e.dElement start len }

/-- The arrays of a class are written to its area. -/
def saveArea (area e : PlsdElements) : Plsd → PlsdElements
  | .M => { area with mElement := e.mElement }
  | .S => { area with sElement := e.sElement }
  | .C => { area with cElement := e.cElement }
  | .T => { area with tElement := e.tElement }
  | .D => { area with dElement := e.dElement }

end PlsdElements

/-- `plc_plsd_item_st`, a group that lies within the range of its class. -/
structure PlsdItem (c : Plsd) where
  startElement : Nat
  length : Nat
  inRang : startElement + length ≤ c.rang

/-- An element belongs to a group. -/
def PlsdItem.Contains {c : Plsd} (g : PlsdItem c) (i : Nat) : Prop :=
  g.startElement ≤ i ∧ i < g.startElement + g.length

instance {c : Plsd} (g : PlsdItem c) (i : Nat) : Decidable (g.Contains i) :=
  inferInstanceAs (Decidable (_ ∧ _))

/-- `gtp_PowerLoseSaveDataInfo`: two groups of each class. -/
structure PlsdInfo where
  group1 : (c : Plsd) → PlsdItem c
  group2 : (c : Plsd) → PlsdItem c

namespace PlsdInfo

/-- Elements of a class are to be kept. -/
def Includes (info : PlsdInfo) (c : Plsd) : Prop :=
  ¬ ((info.group1 c).length = 0 ∧ (info.group2 c).length = 0)

instance (info : PlsdInfo) (c : Plsd) : Decidable (info.Includes c) :=
  inferInstanceAs (Decidable (¬ _))

/-- An element is to be kept. -/
def Keeps (info : PlsdInfo) (c : Plsd) (i : Nat) : Prop :=
  (info.group1 c).Contains i ∨ (info.group2 c).Contains i

instance (info : PlsdInfo) (c : Plsd) (i : Nat) : Decidable (info.Keeps c i) :=
  inferInstanceAs (Decidable (_ ∨ _))

end PlsdInfo

/-- The flash memory: the mark at `FLASH_ADDRESS_RESTORE_BASE` and the areas of the classes. -/
structure PlsdFlash where
  magicNum : BitVec 32
  area : PlsdElements

/-- The mark that something was saved. -/
def plsdMagic : BitVec 32 := 0x44455649

/-- The mark of memory that was erased. -/
def erasedMagic : BitVec 32 := 0xFFFFFFFF

namespace PlsdFlash

def plsdSaveData (info : PlsdInfo) (e : PlsdElements) (f : PlsdFlash) : PlsdFlash where
  magicNum :=
    if ∃ c ∈ Plsd.all, info.Includes c then
      if f.magicNum ≠ plsdMagic then plsdMagic else f.magicNum
    else f.magicNum
  area := Plsd.all.foldl (fun area c => if info.Includes c then area.saveArea e c else area) f.area

def plsdEraseAll (f : PlsdFlash) : PlsdFlash :=
  if f.magicNum = erasedMagic then f else { f with magicNum := erasedMagic }

/-- One group of the loop in `plsd_restore_data`. -/
def restoreGroup {c : Plsd} (g : PlsdItem c) (f : PlsdFlash) (e : PlsdElements) : PlsdElements :=
  if g.length ≠ 0 then f.area.restoreElement e c g.startElement g.length else e

def plsdRestoreData (info : PlsdInfo) (f : PlsdFlash) (e : PlsdElements) : PlsdElements :=
  if f.magicNum = erasedMagic then e
  else Plsd.all.foldl
    (fun e c => restoreGroup (info.group2 c) f (restoreGroup (info.group1 c) f e)) e

end PlsdFlash

/-! ## Restored Elements -/

/-- A halfword of the counters' values is copied with a group. -/
def PlsdItem.Covers (g : PlsdItem .C) (j : Nat) : Prop :=
  if g.startElement < cElement16BitCnt then g.Contains j
  else c32Index g.startElement ≤ j ∧ j < c32Index g.startElement + 2 * g.length

instance (g : PlsdItem .C) (j : Nat) : Decidable (g.Covers j) :=
  inferInstanceAs (Decidable (if g.startElement < cElement16BitCnt then g.Contains j
    else c32Index g.startElement ≤ j ∧ j < c32Index g.startElement + 2 * g.length))

namespace PlsdFlash

variable {c d : Plsd} {f : PlsdFlash} {e : PlsdElements} {info : PlsdInfo} {i j : Nat}

/-- An element of another class. -/
theorem element_restoreGroup_of_ne (g : PlsdItem d) (h : c ≠ d) :
    (restoreGroup g f e).element c i = e.element c i := by
  unfold restoreGroup
  split
  · cases d <;> cases c <;> first | rfl | exact absurd rfl h
  · rfl

/-- An element of the class of the group. The counters have values of two widths. -/
theorem element_restoreGroup (g : PlsdItem c) (hc : c ≠ .C) :
    (restoreGroup g f e).element c i =
      if g.Contains i then f.area.element c i else e.element c i := by
  unfold restoreGroup
  by_cases hlen : g.length = 0
  · have hout : ¬ g.Contains i := by
      unfold PlsdItem.Contains
      omega
    rw [if_neg (not_not.mpr hlen), if_neg hout]
  · rw [if_pos hlen]
    have hbits (src dst : Nat → BitVec 16) :
        bitAt (restoreBitElement src dst g.startElement g.length) i =
          if g.Contains i then bitAt src i else bitAt dst i := bitAt_restoreBitElement
    have harray {α : Type} (src dst : Nat → α) :
        restoreArray src dst g.startElement g.length i =
          if g.Contains i then src i else dst i := rfl
    by_cases hin : g.Contains i
    · rw [if_pos hin]
      cases c with
      | C => exact absurd rfl hc
      | _ => simp only [PlsdElements.element, PlsdElements.restoreElement, hbits, harray, if_pos hin]
    · rw [if_neg hin]
      cases c with
      | C => exact absurd rfl hc
      | _ => simp only [PlsdElements.element, PlsdElements.restoreElement, hbits, harray, if_neg hin]

theorem cElement_restoreGroup_of_ne (g : PlsdItem d) (h : d ≠ .C) :
    (restoreGroup g f e).cElement = e.cElement := by
  unfold restoreGroup
  split
  · cases d <;> first | rfl | exact absurd rfl h
  · rfl

theorem cElement_restoreGroup (g : PlsdItem .C) :
    (bitAt (restoreGroup g f e).cElement.bitElement i =
      if g.Contains i then bitAt f.area.cElement.bitElement i else bitAt e.cElement.bitElement i) ∧
    ((restoreGroup g f e).cElement.statusInfo i =
      if g.Contains i then f.area.cElement.statusInfo i else e.cElement.statusInfo i) ∧
    ((restoreGroup g f e).cElement.value j =
      if g.Covers j then f.area.cElement.value j else e.cElement.value j) := by
  unfold restoreGroup
  by_cases hlen : g.length = 0
  · have hout : ¬ g.Contains i := by
      unfold PlsdItem.Contains
      omega
    have hcovers : ¬ g.Covers j := by
      unfold PlsdItem.Covers PlsdItem.Contains
      split <;> omega
    rw [if_neg (not_not.mpr hlen), if_neg hout, if_neg hout, if_neg hcovers]
    exact ⟨rfl, rfl, rfl⟩
  · rw [if_pos hlen]
    refine ⟨bitAt_restoreBitElement, rfl, ?_⟩
    simp only [PlsdElements.restoreElement, PlsdElements.restoreCounters, PlsdItem.Covers]
    split <;> rfl

/-- Two groups, and what the rest of the loop copies again. -/
theorem ite_twice {α : Type} (a p q : Prop) [Decidable a] [Decidable p] [Decidable q] (x y : α) :
    (if a ∧ (p ∨ q) then x else if q then x else if p then x else y) =
      if p ∨ q then x else y := by
  by_cases hp : p <;> by_cases hq : q <;> simp [hp, hq]

/-- The loop over the classes. -/
theorem element_foldl (hc : c ≠ .C) (l : List Plsd) :
    (l.foldl (fun e c => restoreGroup (info.group2 c) f (restoreGroup (info.group1 c) f e))
      e).element c i =
        if c ∈ l ∧ info.Keeps c i then f.area.element c i else e.element c i := by
  induction l generalizing e with
  | nil => simp
  | cons d l ih =>
    rw [foldl_cons, ih]
    by_cases hd : c = d
    · subst hd
      rw [element_restoreGroup _ hc, element_restoreGroup _ hc]
      simp only [mem_cons, true_or, true_and]
      exact ite_twice _ _ _ _ _
    · rw [element_restoreGroup_of_ne _ hd, element_restoreGroup_of_ne _ hd]
      simp [hd]

/-- What of the counters is restored. -/
theorem cElement_foldl (info : PlsdInfo) (l : List Plsd) :
    (bitAt (l.foldl (fun e c => restoreGroup (info.group2 c) f (restoreGroup (info.group1 c) f e))
        e).cElement.bitElement i =
      if .C ∈ l ∧ info.Keeps .C i then bitAt f.area.cElement.bitElement i
      else bitAt e.cElement.bitElement i) ∧
    ((l.foldl (fun e c => restoreGroup (info.group2 c) f (restoreGroup (info.group1 c) f e))
        e).cElement.statusInfo i =
      if .C ∈ l ∧ info.Keeps .C i then f.area.cElement.statusInfo i
      else e.cElement.statusInfo i) ∧
    ((l.foldl (fun e c => restoreGroup (info.group2 c) f (restoreGroup (info.group1 c) f e))
        e).cElement.value j =
      if .C ∈ l ∧ ((info.group1 .C).Covers j ∨ (info.group2 .C).Covers j)
      then f.area.cElement.value j else e.cElement.value j) := by
  induction l generalizing e with
  | nil => simp
  | cons d l ih =>
    rw [foldl_cons]
    obtain ⟨hbit, hstatus, hvalue⟩ :=
      ih (e := restoreGroup (info.group2 d) f (restoreGroup (info.group1 d) f e))
    rw [hbit, hstatus, hvalue]
    by_cases hd : d = .C
    · subst hd
      obtain ⟨hbit₁, hstatus₁, hvalue₁⟩ :=
        cElement_restoreGroup (f := f) (e := e) (i := i) (j := j) (info.group1 .C)
      obtain ⟨hbit₂, hstatus₂, hvalue₂⟩ := cElement_restoreGroup (f := f)
        (e := restoreGroup (info.group1 .C) f e) (i := i) (j := j) (info.group2 .C)
      rw [hbit₂, hbit₁, hstatus₂, hstatus₁, hvalue₂, hvalue₁]
      simp only [mem_cons, true_or, true_and]
      exact ⟨ite_twice _ _ _ _ _, ite_twice _ _ _ _ _, ite_twice _ _ _ _ _⟩
    · rw [cElement_restoreGroup_of_ne _ hd, cElement_restoreGroup_of_ne _ hd]
      have hmem : Plsd.C ∈ d :: l ↔ Plsd.C ∈ l := by
        rw [mem_cons]
        exact or_iff_right fun h => hd h.symm
      simp only [hmem, and_self]

end PlsdFlash

end Kalyke
