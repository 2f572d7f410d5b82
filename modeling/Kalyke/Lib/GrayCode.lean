-- SUMMARY: The reflected Gray code of machine words, and its decoding by shifts of doubling length.
import Mathlib.Algebra.Group.Nat.Defs
import Mathlib.Tactic.Common

/-!
# Gray Code

A word is encoded by one shift and an exclusive or. It is decoded by the same with shifts of 1, 2, 4
and so on, until the last one shifts out the whole word.
-/

namespace GrayCode

open List BitVec

variable {w : Nat} (x : BitVec w) (k n : Nat)

/-- A word with its shifted self laid over it. -/
def fold : BitVec w := x ^^^ (x >>> k)

/-- The code of a word. -/
def encode : BitVec w := fold x 1

/-- The word of a code, if the shifts up to `2 ^ (n - 1)` are enough. -/
def decode : BitVec w := (range n).foldl (fun x k => fold x (2 ^ k)) x

theorem decode_succ : decode x (n + 1) = fold (decode x n) (2 ^ n) := by
  rw [decode, range_succ, foldl_append]
  rfl

/-- Two such steps by the same length are one of the double length. -/
theorem fold_fold_self : fold (fold x k) k = fold x (k + k) := by
  rw [fold, fold, fold, ushiftRight_xor_distrib, ← shiftRight_add, BitVec.xor_assoc,
    ← BitVec.xor_assoc (x >>> k) (x >>> k), BitVec.xor_self, BitVec.zero_xor]

/-- Such steps can be taken in any order. -/
theorem fold_comm (m : Nat) : fold (fold x k) m = fold (fold x m) k := by
  simp only [fold, ushiftRight_xor_distrib, ← shiftRight_add, Nat.add_comm m k]
  rw [BitVec.xor_assoc, BitVec.xor_assoc, ← BitVec.xor_assoc (x >>> k),
    BitVec.xor_comm (x >>> k) (x >>> m), BitVec.xor_assoc]

theorem encode_decode_comm : encode (decode x n) = decode (encode x) n := by
  induction n with
  | zero => rfl
  | succ n ih =>
    rw [decode_succ, decode_succ, ← ih]
    exact fold_comm _ _ _

/-- What decoding has not yet undone after `n` steps. -/
theorem decode_encode_fold : decode (encode x) n = fold x (2 ^ n) := by
  induction n with
  | zero => rfl
  | succ n ih =>
    rw [decode_succ, ih, fold_fold_self, Nat.pow_succ, Nat.mul_two]

variable {x n}

/-- A shift by the whole length leaves nothing. -/
theorem fold_of_le (h : w ≤ k) : fold x k = x := by
  rw [fold, ushiftRight_eq_zero h, xor_zero]

theorem decode_encode (h : w ≤ 2 ^ n) : decode (encode x) n = x := by
  rw [decode_encode_fold, fold_of_le _ h]

theorem encode_decode (h : w ≤ 2 ^ n) : encode (decode x n) = x := by
  rw [encode_decode_comm, decode_encode h]

end GrayCode
