-- SUMMARY: Images of bytes: what is put into them, words in either order of their bytes, single bits.
import Kalyke.Lib.Patch
import Mathlib.Data.List.GetD

/-!
# Images

An image is a row of bytes with no end. Bytes are put into it one behind the other, and words of 16
bits are read from it with the lower or the upper byte first. What is put changes its own bytes
only.
-/

/-- A row of bytes. -/
abbrev Image := Nat → BitVec 8

namespace Image

open List Nat BitVec Function Option

/-- Bytes that follow one another. -/
def put (img : Image) (i : Nat) : List (BitVec 8) → Image
  | [] => img
  | x :: xs => put (update img i x) (i + 1) xs

def wordBytes (x : BitVec 16) : List (BitVec 8) :=
  [(x &&& 0x00FF).setWidth 8, ((x &&& 0xFF00) >>> 8).setWidth 8]

/-- The word of two bytes. -/
def word (img : Image) (i : Nat) : BitVec 16 :=
  ((img (i + 1)).setWidth 16 <<< 8) ||| (img i).setWidth 16

/-- The two bytes of a word, the upper one first. -/
def bigBytes (x : BitVec 16) : List (BitVec 8) :=
  [((x &&& 0xFF00) >>> 8).setWidth 8, (x &&& 0x00FF).setWidth 8]

/-- The word of two bytes, the upper one first. -/
def bigWord (img : Image) (i : Nat) : BitVec 16 :=
  ((img i).setWidth 16 <<< 8) ||| (img (i + 1)).setWidth 16

/-- Bytes that are put into an image. -/
def putPatch (i : Nat) (xs : List (BitVec 8)) : Patch Nat (BitVec 8) := fun q =>
  if i ≤ q then xs[q - i]? else none

def bit (img : Image) (q : Nat) : Bool := (img (q / 8)).getLsbD (q % 8)

section

variable {img : Image} {i q : Nat} {xs : List (BitVec 8)} {x : BitVec 16}

theorem put_eq_apply : img.put i xs = (putPatch i xs).apply img := by
  induction xs generalizing img i with
  | nil =>
    funext q
    simp [put, Patch.apply, putPatch]
  | cons x xs ih =>
    funext q
    rw [put, ih, Patch.apply, Patch.apply, putPatch, putPatch]
    rcases Nat.lt_trichotomy q i with h | rfl | h
    · rw [if_neg (by omega), if_neg (by omega), getD_none, getD_none,
        update_of_ne (by omega)]
    · rw [if_neg (by omega), if_pos (Nat.le_refl q), Nat.sub_self, getD_none,
        update_self]
      rfl
    · have hnext : q - i = q - (i + 1) + 1 := by omega
      rw [if_pos (by omega), if_pos (by omega), hnext, getElem?_cons_succ,
        update_of_ne (by omega)]

theorem bit_put : (img.put i xs).bit q =
    if 8 * i ≤ q ∧ q < 8 * (i + xs.length) then (xs.getD (q / 8 - i) 0).getLsbD (q % 8)
    else img.bit q := by
  induction xs generalizing img i with
  | nil =>
    rw [if_neg (by simp only [length_nil]; omega)]
    rfl
  | cons x xs ih =>
    rw [put, ih, length_cons]
    by_cases hfirst : q / 8 = i
    · have hself : bit (update img i x) q = x.getLsbD (q % 8) := by
        rw [bit, hfirst, update_self]
      rw [if_neg (by omega), if_pos (by omega), hself, hfirst, Nat.sub_self]
      rfl
    · have hother : bit (update img i x) q = img.bit q := by
        rw [bit, update_of_ne hfirst, bit]
      rw [hother]
      by_cases hin : 8 * i ≤ q ∧ q < 8 * (i + (xs.length + 1))
      · have hnext : q / 8 - i = q / 8 - (i + 1) + 1 := by omega
        rw [if_pos (by omega), if_pos hin, hnext, getD_cons_succ]
      · rw [if_neg (by omega), if_neg hin]

theorem getLsbD_wordBytes {k : Nat} (hk : k < 16) :
    ((wordBytes x).getD (k / 8) 0).getLsbD (k % 8) = x.getLsbD k := by
  have hlow : ∀ j < 8, (0x00FF#16).getLsbD j = true := by decide
  have hhigh : ∀ j < 8, (0xFF00#16).getLsbD (8 + j) = true := by decide
  have hlt : k % 8 < 8 := mod_lt _ (by decide)
  rcases Nat.lt_or_ge k 8 with h | h
  · have hmod : k % 8 = k := mod_eq_of_lt h
    rw [div_eq_of_lt h, hmod]
    change ((x &&& 0x00FF#16).setWidth 8).getLsbD k = _
    rw [getLsbD_setWidth, getLsbD_and, hlow k h]
    simp [h]
  · have hdiv : k / 8 = 1 := by omega
    have hsum : 8 + k % 8 = k := by omega
    rw [hdiv]
    change (((x &&& 0xFF00#16) >>> 8).setWidth 8).getLsbD (k % 8) = _
    rw [getLsbD_setWidth, getLsbD_ushiftRight, getLsbD_and,
      hhigh _ hlt, hsum]
    simp [hlt]

theorem getLsbD_word {k : Nat} (hk : k < 16) :
    (img.word i).getLsbD k = img.bit (8 * i + k) := by
  rw [word, getLsbD_or, getLsbD_shiftLeft, getLsbD_setWidth,
    getLsbD_setWidth, bit]
  rcases Nat.lt_or_ge k 8 with h | h
  · have hdiv : (8 * i + k) / 8 = i := by omega
    have hmod : (8 * i + k) % 8 = k := by omega
    rw [hdiv, hmod]
    simp [h, hk]
  · have hdiv : (8 * i + k) / 8 = i + 1 := by omega
    have hmod : (8 * i + k) % 8 = k - 8 := by omega
    have hbeyond : (img i).getLsbD k = false := getLsbD_of_ge _ _ h
    rw [hdiv, hmod, hbeyond]
    simp [hk, Nat.not_lt.mpr h]
    omega

/-- What is put reaches from its place as far as its bytes. -/
theorem put_apply : img.put i xs q =
    if i ≤ q ∧ q < i + xs.length then xs.getD (q - i) 0 else img q := by
  rw [put_eq_apply, Patch.apply, putPatch]
  split
  · rename_i hle
    rcases Nat.lt_or_ge (q - i) xs.length with hlt | hge
    · rw [if_pos (by omega), List.getElem?_eq_getElem hlt, getD_eq_getElem _ _ hlt,
        getD_some]
    · rw [if_neg (by omega), List.getElem?_eq_none hge, getD_none]
  · rename_i hlt
    rw [if_neg (by omega), getD_none]

theorem word_of_bytes (hlow : img i = (wordBytes x).getD 0 0)
    (hhigh : img (i + 1) = (wordBytes x).getD 1 0) : img.word i = x := by
  refine eq_of_getLsbD_eq fun k hk => ?_
  rw [getLsbD_word hk, bit, ← getLsbD_wordBytes hk]
  rcases Nat.lt_or_ge k 8 with h | h
  · have hdiv : (8 * i + k) / 8 = i := by omega
    have hmod : (8 * i + k) % 8 = k % 8 := by omega
    rw [hdiv, hmod, hlow, div_eq_of_lt h]
  · have hdiv : (8 * i + k) / 8 = i + 1 := by omega
    have hmod : (8 * i + k) % 8 = k % 8 := by omega
    have hone : k / 8 = 1 := by omega
    rw [hdiv, hmod, hhigh, hone]

/-- A word that is put is read back. -/
theorem word_put_wordBytes : (img.put i (wordBytes x)).word i = x :=
  word_of_bytes (by rw [put_apply, if_pos ⟨Nat.le_refl i, by simp [wordBytes]⟩, Nat.sub_self])
    (by rw [put_apply, if_pos ⟨by omega, by simp [wordBytes]⟩, Nat.add_sub_cancel_left])

/-- What is put elsewhere leaves a word. -/
theorem word_put_of_apart {j : Nat} (h : j + 2 ≤ i ∨ i + xs.length ≤ j) :
    (img.put i xs).word j = img.word j := by
  rw [word, word, put_apply, put_apply, if_neg (by omega), if_neg (by omega)]

theorem length_bigBytes : (bigBytes x).length = 2 := rfl

/-- The upper byte of a word comes first. -/
theorem getLsbD_bigBytes {k : Nat} (hk : k < 16) :
    ((bigBytes x).getD (1 - k / 8) 0).getLsbD (k % 8) = x.getLsbD k := by
  rw [← getLsbD_wordBytes hk]
  rcases Nat.lt_or_ge k 8 with h | h
  · rw [div_eq_of_lt h]
    rfl
  · have hdiv : k / 8 = 1 := by omega
    rw [hdiv]
    rfl

theorem getLsbD_bigWord {k : Nat} (hk : k < 16) :
    (img.bigWord i).getLsbD k = (img (i + (1 - k / 8))).getLsbD (k % 8) := by
  rw [bigWord, getLsbD_or, getLsbD_shiftLeft, getLsbD_setWidth,
    getLsbD_setWidth]
  rcases Nat.lt_or_ge k 8 with h | h
  · rw [div_eq_of_lt h, mod_eq_of_lt h]
    simp [h, hk]
  · have hdiv : k / 8 = 1 := by omega
    have hmod : k % 8 = k - 8 := by omega
    have hbeyond : (img (i + 1)).getLsbD k = false := getLsbD_of_ge _ _ h
    rw [hdiv, hmod, hbeyond]
    simp [hk, Nat.not_lt.mpr h]
    omega

end

end Image
