-- SUMMARY: Rotations of a word through a carry, as rotations of the word with one bit more.
import Mathlib.Tactic.Common

/-!
# Rotations Through a Carry

A word with a carry bit above it is a word of one bit more. To rotate through the carry is to rotate
that word. With shifts of the word alone the bit that the carry becomes, and the bits on either side
of where it goes, have to be put in their places one by one.
-/

namespace CarryRotation

open Nat BitVec

def carryWord (w : Nat) (c : Bool) : BitVec w := BitVec.ofNat w c.toNat

/-- The word of a rotation to the left through the carry by a distance from 1 to the width. -/
def leftWord {w : Nat} (c : Bool) (x : BitVec w) (k : Nat) : BitVec w :=
  x <<< k ||| (x >>> (w + 1 - k) + carryWord w c <<< (k - 1))

/-- The word of a rotation to the right through the carry by a distance from 1 to the width. -/
def rightWord {w : Nat} (c : Bool) (x : BitVec w) (k : Nat) : BitVec w :=
  x >>> k ||| (x <<< (w + 1 - k) + carryWord w c <<< (w - k))

section

variable {w i k m : Nat} {c : Bool} {x : BitVec w}

theorem getLsbD_carryWord :
    (carryWord w c).getLsbD i = (decide (i < w) && (decide (i = 0) && c)) := by
  rw [carryWord, getLsbD_ofNat]
  cases c with
  | false => simp
  | true =>
    cases i with
    | zero => rfl
    | succ i => simp [testBit_succ]

theorem getLsbD_carryWord_shiftLeft (hm : m < w) :
    (carryWord w c <<< m).getLsbD i = (decide (i = m) && c) := by
  rw [getLsbD_shiftLeft, getLsbD_carryWord]
  by_cases hi : i = m
  · subst hi
    simp [hm, zero_lt_of_lt hm]
  · by_cases hlt : i < m
    · simp [hi, hlt]
    · have hne : i - m ≠ 0 := by omega
      simp [hi, hne]

theorem shiftRight_add_carry (hk : 0 < k) (hkw : k ≤ w) :
    x >>> (w + 1 - k) + carryWord w c <<< (k - 1) =
      x >>> (w + 1 - k) ||| carryWord w c <<< (k - 1) := by
  refine add_eq_or_of_and_eq_zero _ _ (eq_of_getLsbD_eq fun i hi => ?_)
  rw [getLsbD_and, getLsbD_ushiftRight, getLsbD_carryWord_shiftLeft (by omega),
    getLsbD_zero]
  by_cases hik : i = k - 1
  · rw [getLsbD_of_ge x _ (by omega), Bool.false_and]
  · simp [hik]

theorem shiftLeft_add_carry (hk : 0 < k) (hkw : k ≤ w) :
    x <<< (w + 1 - k) + carryWord w c <<< (w - k) =
      x <<< (w + 1 - k) ||| carryWord w c <<< (w - k) := by
  refine add_eq_or_of_and_eq_zero _ _ (eq_of_getLsbD_eq fun i hi => ?_)
  rw [getLsbD_and, getLsbD_carryWord_shiftLeft (by omega)]
  by_cases hik : i = w - k
  · have hlt : i < w + 1 - k := by omega
    simp [hlt]
  · simp [hik]

theorem rotateLeft_cons (hk : 0 < k) (hkw : k ≤ w) :
    (cons c x).rotateLeft k = cons (x.getLsbD (w - k)) (leftWord c x k) := by
  refine eq_of_getLsbD_eq fun i hi => ?_
  rw [leftWord, shiftRight_add_carry hk hkw, getLsbD_rotateLeft,
    mod_eq_of_lt (lt_succ_of_le hkw), getLsbD_cons, getLsbD_cons,
    getLsbD_cons, getLsbD_or, getLsbD_or, getLsbD_shiftLeft,
    getLsbD_ushiftRight, getLsbD_carryWord_shiftLeft (by omega)]
  rcases Nat.lt_or_ge i k with hik | hik
  · -- below the carry the upper bits of the word, and the carry above them
    have hne : i ≠ w := by omega
    by_cases hlast : i = k - 1
    · have htop : w + 1 - k + i = w := by omega
      simp [hik, htop, hne, ← hlast]
    · have htop : w + 1 - k + i ≠ w := by omega
      simp [hik, hlast, hne, htop]
  · -- above it the lower bits of the word
    have hnot : ¬ i < k := Nat.not_lt.mpr hik
    have hlow : i - k ≠ w := by omega
    have hlast : i ≠ k - 1 := by omega
    have hhigh : w ≤ w + 1 - k + i := by omega
    by_cases hiw : i = w
    · subst hiw
      simp [hnot, hlow]
    · have hlt : i < w := by omega
      simp [hnot, hlow, hlast, hlt, hi, hiw, getLsbD_of_ge x _ hhigh]

/-- A rotation to the right is one to the left by the rest of the width. -/
theorem rotateRight_eq_rotateLeft {v : BitVec m} (hk : 0 < k) (hkm : k < m) :
    v.rotateRight k = v.rotateLeft (m - k) := by
  rw [rotateRight_def, rotateLeft_def, mod_eq_of_lt hkm,
    mod_eq_of_lt (by omega), Nat.sub_sub_self (Nat.le_of_lt hkm), BitVec.or_comm]

theorem rotateRight_cons (hk : 0 < k) (hkw : k ≤ w) :
    (cons c x).rotateRight k = cons (x.getLsbD (k - 1)) (rightWord c x k) := by
  have hdist : w - (w + 1 - k) = k - 1 := by omega
  have hcarry : w + 1 - k - 1 = w - k := by omega
  have hback : w + 1 - (w + 1 - k) = k := by omega
  have hword : leftWord c x (w + 1 - k) = rightWord c x k := by
    rw [leftWord, rightWord, shiftRight_add_carry (by omega) (by omega),
      shiftLeft_add_carry hk hkw, hcarry, hback, ← BitVec.or_assoc, ← BitVec.or_assoc,
      BitVec.or_comm (x <<< _)]
  rw [rotateRight_eq_rotateLeft hk (lt_succ_of_le hkw),
    rotateLeft_cons (by omega) (by omega), hdist, hword]

/-- A rotation to the right undoes one to the left. -/
theorem rotateRight_rotateLeft (v : BitVec m) : (v.rotateLeft k).rotateRight k = v := by
  refine eq_of_getLsbD_eq fun i hi => ?_
  rw [getLsbD_rotateRight, getLsbD_rotateLeft]
  rcases Nat.lt_or_ge i (m - k % m) with hlt | hge
  · have hnot : ¬ k % m + i < k % m := by omega
    have hin : k % m + i < m := by omega
    simp [hlt, hnot, hin]
  · have hin : i - (m - k % m) < k % m := by omega
    have hback : m - k % m + (i - (m - k % m)) = i := by omega
    simp [Nat.not_lt.mpr hge, hin, hback, hi]

end

end CarryRotation
