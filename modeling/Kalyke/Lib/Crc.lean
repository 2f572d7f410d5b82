-- SUMMARY: Cyclic redundancy checks: the division bit by bit, what it means, and how tables do it.
import Mathlib.Algebra.Polynomial.OfFn
import Mathlib.Algebra.Polynomial.Div
import Mathlib.Algebra.Field.ZMod
import Mathlib.Tactic.LinearCombination

/-!
# Cyclic Redundancy Checks

A register of `w` places takes part in the division of a message by a polynomial of degree `w`, the
bits of the message one by one. Its places may stand either way round. As the division is linear,
several steps at a time may be read from a table that has the remainders of the short messages.
-/

open Polynomial
open Nat (sub_lt)

namespace Crc

open List BitVec

/-- How a register of `w` places holds a remainder: the coefficient at a place, and the move of all
places by one. -/
structure Register (w : Nat) where
  place : BitVec w → Nat → Bool
  shift : BitVec w → BitVec w
  pos : 0 < w
  place_xor : ∀ r s i, i < w → place (r ^^^ s) i = (place r i ^^ place s i)
  place_shift_zero : ∀ r, place (shift r) 0 = false
  place_shift_succ : ∀ r i, i + 1 < w → place (shift r) (i + 1) = place r i
  ext : ∀ r s, (∀ i < w, place r i = place s i) → r = s

variable {w : Nat}

namespace Register

variable (R : Register w) (poly r s : BitVec w)

/-- The place that a remainder leaves first. -/
def out : Bool := R.place r (w - 1)

/-- One bit of a message. -/
def divideBit (b : Bool) : BitVec w :=
  if (R.out r ^^ b) then R.shift r ^^^ poly else R.shift r

/-- The bits of a message, one after the other. -/
def divide (bits : List Bool) : BitVec w := bits.foldl (R.divideBit poly) r

/-- The first `n` bits that leave a register. -/
def outs : Nat → BitVec w → List Bool
  | 0, _ => []
  | n + 1, r => R.out r :: outs n (R.shift r)

variable {R poly r s}

@[simp] theorem length_outs (n : Nat) : (R.outs n r).length = n := by
  induction n generalizing r with
  | zero => rfl
  | succ n ih => rw [outs, length_cons, ih]

theorem out_xor : R.out (r ^^^ s) = (R.out r ^^ R.out s) :=
  R.place_xor r s (w - 1) (sub_lt R.pos Nat.one_pos)

theorem shift_xor : R.shift (r ^^^ s) = R.shift r ^^^ R.shift s := by
  apply R.ext
  intro i hi
  rw [R.place_xor _ _ i hi]
  cases i with
  | zero => simp only [R.place_shift_zero, Bool.xor_false]
  | succ i =>
    rw [R.place_shift_succ _ i hi, R.place_shift_succ _ i hi, R.place_shift_succ _ i hi,
      R.place_xor _ _ i (Nat.lt_of_succ_lt hi)]

/-! ## Linearity -/

theorem divideBit_xor (a b : Bool) :
    R.divideBit poly (r ^^^ s) (a ^^ b) = R.divideBit poly r a ^^^ R.divideBit poly s b := by
  have hout : (R.out (r ^^^ s) ^^ (a ^^ b)) = ((R.out r ^^ a) ^^ (R.out s ^^ b)) := by
    rw [out_xor]
    cases R.out r <;> cases R.out s <;> cases a <;> cases b <;> rfl
  rw [divideBit, divideBit, divideBit, hout, shift_xor]
  cases R.out r ^^ a <;> cases R.out s ^^ b <;> simp only [Bool.xor_false, Bool.xor_true,
    Bool.not_false, Bool.not_true, if_true, if_false, Bool.false_eq_true]
  · ac_rfl
  · ac_rfl
  · rw [BitVec.xor_assoc (R.shift r), BitVec.xor_comm (R.shift s) poly,
      ← BitVec.xor_assoc poly, BitVec.xor_self, BitVec.zero_xor]

/-- The division of a sum is the sum of the divisions. -/
theorem divide_xor {l l' : List Bool} (hlength : l.length = l'.length) :
    R.divide poly (r ^^^ s) (zipWith xor l l') = R.divide poly r l ^^^ R.divide poly s l' := by
  induction l generalizing l' r s with
  | nil =>
    cases l' with
    | nil => rfl
    | cons b l' => cases hlength
  | cons a l ih =>
    cases l' with
    | nil => cases hlength
    | cons b l' =>
      rw [zipWith_cons_cons, divide, foldl_cons, divideBit_xor]
      exact ih (Nat.succ.inj hlength)

/-- A bit that leaves the register and comes in at once is not divided. -/
theorem divideBit_out : R.divideBit poly r (R.out r) = R.shift r := by
  rw [divideBit, Bool.xor_self, if_neg (by decide)]

theorem divide_outs (n : Nat) : R.divide poly r (R.outs n r) = R.shift^[n] r := by
  induction n generalizing r with
  | zero => rfl
  | succ n ih =>
    rw [outs, divide, foldl_cons, divideBit_out]
    exact ih

/-- Several bits at a time: the remainder of what leaves the register and comes in, and what is left
in the register. -/
theorem divide_eq_table (bits : List Bool) :
    R.divide poly r bits =
      R.divide poly 0#w (zipWith xor bits (R.outs bits.length r)) ^^^
        R.shift^[bits.length] r := by
  have hlength : (zipWith xor bits (R.outs bits.length r)).length =
      (R.outs bits.length r).length := by simp
  have hbits : zipWith xor (zipWith xor bits (R.outs bits.length r))
      (R.outs bits.length r) = bits := by
    refine ext_getElem (by simp) fun i _ _ => ?_
    simp only [getElem_zipWith, Bool.xor_assoc, Bool.xor_self, Bool.xor_false]
  have hsum : R.divide poly (0#w ^^^ r) (zipWith xor _ _) = _ := divide_xor hlength
  rw [BitVec.zero_xor, hbits, divide_outs] at hsum
  exact hsum

theorem divide_append (bits bits' : List Bool) :
    R.divide poly r (bits ++ bits') = R.divide poly (R.divide poly r bits) bits' :=
  foldl_append

/-! ## Remainders -/

end Register

/-! ## The two ways round -/

/-- The places count from the right. -/
def msbFirst (hw : 0 < w) : Register w where
  place := getLsbD
  shift r := r <<< 1
  pos := hw
  place_xor r s i _ := getLsbD_xor
  place_shift_zero r := by simp
  place_shift_succ r i hi := by
    rw [getLsbD_shiftLeft]
    simp [hi]
  ext r s h := eq_of_getLsbD_eq h

/-- The places count from the left. -/
def lsbFirst (hw : 0 < w) : Register w where
  place := getMsbD
  shift r := r >>> 1
  pos := hw
  place_xor r s i _ := getMsbD_xor
  place_shift_zero r := by simp [getMsbD_ushiftRight]
  place_shift_succ r i hi := by simp [getMsbD_ushiftRight, hi]
  ext r s h := eq_of_getMsbD_eq h

/-! ## Words -/

variable {n : Nat} {poly r : BitVec w} {hw : 0 < w}

/-- The bits of a word, from the left. -/
def bitsMsb (b : BitVec n) : List Bool := (range n).map b.getMsbD

/-- The bits of a word, from the right. -/
def bitsLsb (b : BitVec n) : List Bool := (range n).map b.getLsbD

theorem outs_msbFirst (hn : n ≤ w) :
    (msbFirst hw).outs n r = (range n).map r.getMsbD := by
  induction n generalizing r with
  | zero => rfl
  | succ n ih =>
    rw [Register.outs, ih (Nat.le_of_succ_le hn), range_succ_eq_map, map_cons,
      map_map]
    refine congrArg₂ List.cons ?_ (map_congr_left fun i hi => ?_)
    · rw [getMsbD, Nat.sub_zero, decide_eq_true hw, Bool.true_and]
      rfl
    · have hi := mem_range.mp hi
      change getMsbD (r <<< 1) i = r.getMsbD (i + 1)
      rw [getMsbD_shiftLeft]

theorem outs_lsbFirst (hn : n ≤ w) :
    (lsbFirst hw).outs n r = (range n).map r.getLsbD := by
  induction n generalizing r with
  | zero => rfl
  | succ n ih =>
    rw [Register.outs, ih (Nat.le_of_succ_le hn), range_succ_eq_map, map_cons,
      map_map]
    refine congrArg₂ List.cons ?_ (map_congr_left fun i _ => ?_)
    · change r.getMsbD (w - 1) = r.getLsbD 0
      rw [getMsbD, decide_eq_true (sub_lt hw Nat.one_pos), Bool.true_and, Nat.sub_self]
    · change getLsbD (r >>> 1) i = r.getLsbD (i + 1)
      rw [getLsbD_ushiftRight, Nat.add_comm]

theorem shift_msbFirst : (msbFirst hw).shift^[n] r = r <<< n := by
  induction n generalizing r with
  | zero => simp
  | succ n ih =>
    rw [Function.iterate_succ_apply, ih]
    change r <<< 1 <<< n = _
    rw [← shiftLeft_add, Nat.add_comm]

theorem shift_lsbFirst : (lsbFirst hw).shift^[n] r = r >>> n := by
  induction n generalizing r with
  | zero => simp
  | succ n ih =>
    rw [Function.iterate_succ_apply, ih]
    change r >>> 1 >>> n = _
    rw [← shiftRight_add, Nat.add_comm]

/-- A word at a time, from the left: the table is read at the word and the left end of the
register. -/
theorem divide_msbFirst (hn : n ≤ w) (b : BitVec n) :
    (msbFirst hw).divide poly r (bitsMsb b) =
      (r <<< n) ^^^ (msbFirst hw).divide poly 0#w (bitsMsb ((r >>> (w - n)).setWidth n ^^^ b)) := by
  have hlength : (bitsMsb b).length = n := by simp [bitsMsb]
  rw [Register.divide_eq_table, hlength, shift_msbFirst, outs_msbFirst hn, BitVec.xor_comm]
  congr 2
  refine ext_getElem (by simp [bitsMsb]) fun i hi _ => ?_
  have hi : i < n := by simpa [bitsMsb] using hi
  have hleft : ((r >>> (w - n)).setWidth n).getMsbD i = r.getMsbD i := by
    rw [getMsbD_setWidth, getMsbD_ushiftRight, decide_eq_true (by omega),
      decide_eq_true (by omega), decide_eq_false (by omega),
      show i + w - n - (w - n) = i by omega]
    simp
  simp only [bitsMsb, getElem_zipWith, getElem_map, getElem_range,
    getMsbD_xor, hleft, Bool.xor_comm]

/-- A word at a time, from the right: the table is read at the word and the right end of the
register. -/
theorem divide_lsbFirst (hn : n ≤ w) (b : BitVec n) :
    (lsbFirst hw).divide poly r (bitsLsb b) =
      (lsbFirst hw).divide poly 0#w (bitsLsb (r.setWidth n ^^^ b)) ^^^ (r >>> n) := by
  have hlength : (bitsLsb b).length = n := by simp [bitsLsb]
  rw [Register.divide_eq_table, hlength, shift_lsbFirst, outs_lsbFirst hn]
  congr 2
  refine ext_getElem (by simp [bitsLsb]) fun i hi _ => ?_
  have hi : i < n := by simpa [bitsLsb] using hi
  simp [bitsLsb, hi, Bool.xor_comm]

/-- A message of words. -/
theorem foldl_eq_divide {R : Register w} {bits : BitVec n → List Bool}
    {step : BitVec w → BitVec n → BitVec w} (hstep : ∀ r b, step r b = R.divide poly r (bits b))
    (bs : List (BitVec n)) : bs.foldl step r = R.divide poly r (bs.flatMap bits) := by
  rw [Register.divide, foldl_flatMap]
  exact congrArg (fun f => bs.foldl f r) (funext fun r => funext fun b => hstep r b)

end Crc
