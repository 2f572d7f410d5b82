-- SUMMARY: The element types of process data, and the octets of bit elements that are exchanged.
import Kalyke.Exec.Bits
import Kalyke.Exec.Frames
import Kalyke.Lib.Patch

/-!
# Octets

`daisy_task.h`, as far as it is about elements: process data that are bit elements are exchanged
eight at a time. The bits lie in words of 16, and neither function looks beyond the word of the
first bit: fewer than eight are read from its upper half, and those that are written are its lower
half or its upper half.
-/

namespace Kalyke

open BitVec Function Option

/-- `daisy_element_type_e`, and the values that have no name. -/
inductive DaisyElementType where
  | wkc | x | y | m | d | sd | r | unknown
deriving DecidableEq, Repr

def DaisyElementType.bits : DaisyElementType → Option BitElement
  | x => some .X
  | y => some .Y
  | m => some .M
  | _ => none

def daisyGet8bitElementValue (s : Store) (base : BitElement) (element : Nat) : BitVec 8 :=
  let word : BitVec 16 := BitVec.ofNat 16
    (joinBits (fun m => s.bit base (16 * (element / 16) + m)) 16)
  (word >>> (element % 16)).setWidth 8

/-- Where the eight bits lie that are written for the bit `bitElement`. -/
def octetStart (bitElement : Nat) : Nat :=
  16 * (bitElement / 16) + if bitElement % 16 = 0 then 0 else 8

def daisySet8bitElementValue (s : Store) (base : BitElement) (bitElement : Nat) (value : BitVec 8) :
    Store :=
  { s with bit := update s.bit base fun i =>
      if octetStart bitElement ≤ i ∧ i < octetStart bitElement + 8 then
        value.getLsbD (i - octetStart bitElement)
      else s.bit base i }

section

variable {s : Store} {b : BitElement} {a : Nat} {v : BitVec 8} {c : Cell}

/-- The eight bits that follow, unless they leave the word. -/
theorem getLsbD_daisyGet8bitElementValue {k : Nat} (hk : k < 8) (ha : a % 16 + k < 16) :
    (daisyGet8bitElementValue s b a).getLsbD k = s.bit b (a + k) := by
  have hplace : 16 * (a / 16) + (a % 16 + k) = a + k := by omega
  rw [daisyGet8bitElementValue]
  simp only [getLsbD_setWidth, getLsbD_ushiftRight, getLsbD_ofNat]
  rw [testBit_joinBits _ ha, hplace]
  simp [hk, ha]

/-- What is written in a cell. -/
theorem read_daisySet8bitElementValue :
    c.read (daisySet8bitElementValue s b a v) =
      match c with
      | .bit b' i => if b' = b ∧ octetStart a ≤ i ∧ i < octetStart a + 8 then
          BitVec.ofNat 32 (v.getLsbD (i - octetStart a)).toNat else c.read s
      | _ => c.read s := by
  cases c with
  | bit b' i =>
    by_cases hb : b' = b
    · subst hb
      simp only [Cell.read, daisySet8bitElementValue, update_self, true_and]
      split <;> rfl
    · simp only [Cell.read, daisySet8bitElementValue, update_of_ne hb, hb, false_and,
        if_false]
  | lm k | word e i | v k | c32 i => rfl

end

/-! ## Patches of the elements -/

/-- A word that is written. -/
def wordPatch (w : WordElement) (i : Nat) (x : BitVec 16) : Patch Cell (BitVec 32) := fun c =>
  if c = .word w i then some (x.setWidth 32) else none

/-- A bit that is written. -/
def bitPatch (b : BitElement) (i : Nat) (v : Bool) : Patch Cell (BitVec 32) := fun c =>
  if c = .bit b i then some (BitVec.ofNat 32 v.toNat) else none

/-- The bit of an octet that lies at a place. -/
def inOctet (start : Nat) (x : BitVec 8) (i : Nat) : Option Bool :=
  if start ≤ i ∧ i < start + 8 then some (x.getLsbD (i - start)) else none

/-- An octet that is written. -/
def octetPatch (b : BitElement) (start : Nat) (x : BitVec 8) : Patch Cell (BitVec 32)
  | .bit b' i => if b' = b then (inOctet start x i).map fun v => BitVec.ofNat 32 v.toNat else none
  | _ => none

section

variable {s : Store}

theorem read_setWord_eq (w : WordElement) (i : Nat) (x : BitVec 16) :
    (fun c => Cell.read (s.setWord (.elem w) i x) c) =
      (wordPatch w i x).apply fun c => c.read s := by
  funext c
  rw [Patch.apply, wordPatch]
  by_cases hc : c = .word w i
  · rw [if_pos hc, getD_some, hc]
    exact ((WordArea.elem w).read_cell i).trans (by rw [getWord_setWord_self])
  · rw [if_neg hc, getD_none]
    exact read_setWord hc x

theorem read_setBit_eq (b : BitElement) (i : Nat) (v : Bool) :
    (fun c => Cell.read (s.setBit (.elem b) i v) c) =
      (bitPatch b i v).apply fun c => c.read s := by
  funext c
  rw [Patch.apply, bitPatch]
  by_cases hc : c = .bit b i
  · rw [if_pos hc, getD_some, hc]
    exact ((BitArea.elem b).read_cell i).trans (by rw [getBit_setBit_self])
  · rw [if_neg hc, getD_none]
    exact read_setBit hc v

theorem read_set8bit_eq (b : BitElement) (a : Nat) (x : BitVec 8) :
    (fun c => Cell.read (daisySet8bitElementValue s b a x) c) =
      (octetPatch b (octetStart a) x).apply fun c => c.read s := by
  funext c
  rw [read_daisySet8bitElementValue, Patch.apply]
  cases c with
  | bit b' i =>
    simp only [octetPatch, inOctet]
    by_cases hb : b' = b
    · simp only [hb, true_and, if_true]
      split <;> rfl
    · simp only [hb, false_and, if_false]
      rfl
  | lm k | word e i | v k | c32 i => rfl

theorem octetPatch_eq_some {b : BitElement} {start : Nat} {x : BitVec 8} {c : Cell}
    {y : BitVec 32} (h : octetPatch b start x c = some y) :
    ∃ i v, c = .bit b i ∧ inOctet start x i = some v ∧ y = BitVec.ofNat 32 v.toNat := by
  cases c with
  | bit b' i =>
    rw [octetPatch] at h
    split at h
    · rename_i hb
      obtain ⟨v, hv, rfl⟩ := map_eq_some_iff.mp h
      exact ⟨i, v, by rw [hb], hv, rfl⟩
    · cases h
  | lm k | word w i | v k | c32 i => cases h

theorem wordPatch_eq_some {w : WordElement} {i : Nat} {x : BitVec 16} {c : Cell} {y : BitVec 32}
    (h : wordPatch w i x c = some y) : c = .word w i ∧ y = x.setWidth 32 := by
  rw [wordPatch] at h
  split at h
  · rename_i hc
    exact ⟨hc, (some.inj h).symm⟩
  · cases h

end

end Kalyke
