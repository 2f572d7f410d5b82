-- SUMMARY: The memory a ucode file lies in, its little-endian reads, and code placed at an address.
import Mathlib.Data.List.Basic
import Mathlib.Tactic.Common

/-!
# Ucode Memory

The compiler and the interpreter read the downloaded file through raw pointers. Addresses are
offsets from the file's first byte, and a memory is the list of bytes from there on: the file
itself and whatever is stored behind it.
-/

namespace Kalyke

open List

/-- The bytes from the start of a ucode file on. A file may end long before the memory does. -/
abbrev Ucode := List UInt8

namespace Ucode

variable {u : Ucode} {p : Nat}

/-- `GET_PU8_DATA`: the byte at an address. Past the memory everything reads as zero. -/
def getPU8 (u : Ucode) (p : Nat) : Nat := (u.getD p 0).toNat

/-- `GET_PU16_DATA`: the little-endian halfword at an address. -/
def getPU16 (u : Ucode) (p : Nat) : Nat := u.getPU8 p + 256 * u.getPU8 (p + 1)

/-- `GET_PU32_DATA`: the little-endian word at an address. -/
def getPU32 (u : Ucode) (p : Nat) : Nat := u.getPU16 p + 65536 * u.getPU16 (p + 2)

theorem getPU8_lt : u.getPU8 p < 256 := UInt8.toNat_lt _

theorem getPU16_lt : u.getPU16 p < 65536 := by
  have hlo := getPU8_lt (u := u) (p := p)
  have hhi := getPU8_lt (u := u) (p := p + 1)
  unfold getPU16
  omega

/-- The opcode byte of an instruction is the high byte of its first halfword. -/
theorem getPU16_div : u.getPU16 p / 256 = u.getPU8 (p + 1) := by
  have hlo := getPU8_lt (u := u) (p := p)
  unfold getPU16
  omega

theorem getPU8_of_length_le (h : u.length ≤ p) : u.getPU8 p = 0 := by
  simp [getPU8, getElem?_eq_none h]

/-- A halfword that is not zero starts inside the memory. -/
theorem lt_length_of_getPU16_ne_zero (h : u.getPU16 p ≠ 0) : p < u.length := by
  by_contra hge
  have hp : u.length ≤ p := by omega
  have hp' : u.length ≤ p + 1 := by omega
  exact h (by simp [getPU16, getPU8_of_length_le hp, getPU8_of_length_le hp'])

/-! ## Code at an address -/

/-- The bytes `code` stand in memory from address `p` on. -/
def CodeAt (u : Ucode) (p : Nat) (code : List UInt8) : Prop :=
  ∀ i, i < code.length → u.getD (p + i) 0 = code.getD i 0

theorem codeAt_self : u.CodeAt 0 u := fun i _ => by rw [Nat.zero_add]

theorem codeAt_append {xs ys : List UInt8} :
    u.CodeAt p (xs ++ ys) ↔ u.CodeAt p xs ∧ u.CodeAt (p + xs.length) ys := by
  constructor
  · intro h
    refine ⟨fun i hi => ?_, fun i hi => ?_⟩
    · have hlt : i < (xs ++ ys).length := by simp; omega
      simpa [getElem?_append_left hi] using h i hlt
    · have hlt : xs.length + i < (xs ++ ys).length := by simp; omega
      simpa [getElem?_append_right, Nat.add_assoc] using h (xs.length + i) hlt
  · rintro ⟨hx, hy⟩ i hi
    by_cases hlt : i < xs.length
    · simpa [getElem?_append_left hlt] using hx i hlt
    · have hge : xs.length ≤ i := by omega
      have hlen : i - xs.length < ys.length := by simp at hi; omega
      have := hy (i - xs.length) hlen
      rw [show p + xs.length + (i - xs.length) = p + i by omega] at this
      simpa [getElem?_append_right hge] using this

/-- Reading a byte inside a piece of placed code gives the code's own byte. -/
theorem CodeAt.getPU8 {code : List UInt8} (h : u.CodeAt p code) {i : Nat} (hi : i < code.length) :
    u.getPU8 (p + i) = (code.getD i 0).toNat := by
  rw [Ucode.getPU8, h i hi]

theorem CodeAt.getPU16 {code : List UInt8} (h : u.CodeAt p code) {i : Nat}
    (hi : i + 1 < code.length) :
    u.getPU16 (p + i) = (code.getD i 0).toNat + 256 * (code.getD (i + 1) 0).toNat := by
  rw [Ucode.getPU16, h.getPU8 (by omega), Nat.add_assoc, h.getPU8 hi]

end Ucode

end Kalyke
