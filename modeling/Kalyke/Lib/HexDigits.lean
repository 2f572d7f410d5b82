-- SUMMARY: Hexadecimal characters: those of a number, and the number that characters stand for.
import Kalyke.Lib.Digits

/-!
# Hexadecimal Characters

A number is written with its hexadecimal digits in upper case, the highest one first, and read again
from the characters. Characters that are read as a number are the ones it is written with.
-/

/-- The character of a hexadecimal digit, in upper case. -/
def hexChar (d : Nat) : Nat := if d < 10 then 48 + d else 55 + d

/-- Characters of hexadecimal digits. -/
def IsHexChar (c : Nat) : Prop := 48 ≤ c ∧ c ≤ 57 ∨ 65 ≤ c ∧ c ≤ 70

instance (c : Nat) : Decidable (IsHexChar c) := inferInstanceAs (Decidable (_ ∨ _))

/-- The digit that a character stands for. -/
def hexDigit (c : Nat) : Nat := if c ≤ 57 then c - 48 else c - 55

/-- The number that characters stand for, the highest digit first. -/
def hexNumber (c : Nat → Nat) : Nat → Nat
  | 0 => 0
  | n + 1 => 16 * hexNumber c n + hexDigit (c n)

variable {c d n x y : Nat} {f g : Nat → Nat}

theorem isHexChar_hexChar (hd : d < 16) : IsHexChar (hexChar d) := by
  rw [IsHexChar, hexChar]
  split <;> omega

theorem hexDigit_hexChar (hd : d < 16) : hexDigit (hexChar d) = d := by
  rw [hexDigit, hexChar]
  split <;> split <;> omega

theorem hexDigit_lt (hc : IsHexChar c) : hexDigit c < 16 := by
  rw [IsHexChar] at hc
  rw [hexDigit]
  split <;> omega

theorem hexNumber_congr (h : ∀ m < n, f m = g m) : hexNumber f n = hexNumber g n := by
  induction n with
  | zero => rfl
  | succ n ih =>
    rw [hexNumber, hexNumber, ih fun m hm => h m (by omega), h n (Nat.lt_succ_self n)]

/-- The number is read again from its characters. -/
theorem hexNumber_digits (n x : Nat) :
    hexNumber (fun m => hexChar (digitAt 16 x (n - 1 - m))) n = x % 16 ^ n := by
  induction n generalizing x with
  | zero => rw [hexNumber, Nat.pow_zero, Nat.mod_one]
  | succ n ih =>
    have hhigh : hexNumber (fun m => hexChar (digitAt 16 x (n + 1 - 1 - m))) n =
        hexNumber (fun m => hexChar (digitAt 16 (x / 16) (n - 1 - m))) n := by
      refine hexNumber_congr fun m hm => congrArg hexChar ?_
      have hplace : n + 1 - 1 - m = n - 1 - m + 1 := by omega
      rw [hplace, digitAt_succ]
    have hlow : n + 1 - 1 - n = 0 := by omega
    have hdigit : digitAt 16 x 0 < 16 := by
      rw [digitAt_zero]
      exact Nat.mod_lt x (by decide)
    rw [hexNumber, hhigh, ih, hlow, hexDigit_hexChar hdigit, digitAt_zero, Nat.pow_succ',
      Nat.mod_mul, Nat.add_comm]

/-- Numbers that are written alike are equal. -/
theorem eq_of_hexChars (hx : x < 16 ^ n) (hy : y < 16 ^ n)
    (h : ∀ m < n, hexChar (digitAt 16 x (n - 1 - m)) = hexChar (digitAt 16 y (n - 1 - m))) :
    x = y := by
  calc x = x % 16 ^ n := (Nat.mod_eq_of_lt hx).symm
    _ = hexNumber (fun m => hexChar (digitAt 16 x (n - 1 - m))) n := (hexNumber_digits n x).symm
    _ = hexNumber (fun m => hexChar (digitAt 16 y (n - 1 - m))) n := hexNumber_congr h
    _ = y % 16 ^ n := hexNumber_digits n y
    _ = y := Nat.mod_eq_of_lt hy
