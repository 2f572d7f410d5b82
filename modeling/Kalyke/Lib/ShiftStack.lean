-- SUMMARY: A register used as a stack of bits: what it holds, and pushing, popping and replacing.
import Mathlib.Tactic.Common

/-!
# Shift-Register Stacks

A register of `w` bits can serve as a stack of at most `w` bits, the top in the lowest place: a push
shifts to the left and a pop to the right. Only the entries that are on the stack are specified; the
places above them are unrestricted.
-/

namespace ShiftStack

open List

variable {w : Nat} {r r' : BitVec w} {a b : Bool} {l : List Bool}

/-- The low places of the register hold the entries of `l`, its head at the lowest. -/
structure Holds (r : BitVec w) (l : List Bool) : Prop where
  length_le : l.length ≤ w
  entry : ∀ i (h : i < l.length), r.getLsbD i = l[i]

theorem holds_nil : Holds r [] := ⟨Nat.zero_le w, fun _ h => absurd h (Nat.not_lt_zero _)⟩

theorem Holds.top (h : Holds r (a :: l)) : r.getLsbD 0 = a := h.entry 0 (by simp)

/-- Shifting to the left and filling the lowest place is a push. -/
theorem Holds.push (h : Holds r l) (hroom : l.length < w) (hlow : r'.getLsbD 0 = b)
    (hshift : ∀ i, i + 1 < w → r'.getLsbD (i + 1) = r.getLsbD i) : Holds r' (b :: l) := by
  refine ⟨by simp only [length_cons]; omega, fun i hi => ?_⟩
  cases i with
  | zero => exact hlow
  | succ i =>
    simp only [length_cons] at hi
    rw [hshift i (by omega), h.entry i (by omega), getElem_cons_succ]

theorem Holds.pop (h : Holds r (a :: l)) : Holds (r >>> 1) l := by
  have hlen := h.length_le
  simp only [length_cons] at hlen
  refine ⟨by omega, fun i hi => ?_⟩
  rw [BitVec.getLsbD_ushiftRight, Nat.add_comm, h.entry (i + 1) (by simpa using hi),
    getElem_cons_succ]

/-- Changing the lowest place replaces the top. -/
theorem Holds.replace (h : Holds r (a :: l)) (hlow : r'.getLsbD 0 = b)
    (hrest : ∀ i, i + 1 < w → r'.getLsbD (i + 1) = r.getLsbD (i + 1)) : Holds r' (b :: l) := by
  refine ⟨by simpa using h.length_le, fun i hi => ?_⟩
  cases i with
  | zero => exact hlow
  | succ i =>
    have hlen := h.length_le
    simp only [length_cons] at hi hlen
    rw [hrest i (by omega), h.entry (i + 1) (by simpa using hi), getElem_cons_succ,
      getElem_cons_succ]

end ShiftStack
