-- SUMMARY: The complete pulses on a line whose level is driven and toggled.
import Mathlib.Logic.Function.Iterate
import Mathlib.Data.Nat.Basic

/-!
# Pulse Trains

A line is watched from some moment on. A complete pulse is a rise and the fall after it, both since
that moment.
-/

/-- The level, whether it has risen since the start and not fallen again, and the complete
pulses. -/
structure PulseTrain where
  level : Bool
  risen : Bool
  pulses : Nat
deriving DecidableEq, Repr

namespace PulseTrain

open Function

/-- The line is watched from now on. -/
def start (level : Bool) : PulseTrain := ⟨level, false, 0⟩

/-- The line is driven to a level. -/
def drive (t : PulseTrain) (b : Bool) : PulseTrain :=
  if t.level = b then t
  else if b then ⟨true, true, t.pulses⟩
  else ⟨false, false, t.pulses + t.risen.toNat⟩

def toggle (t : PulseTrain) : PulseTrain := t.drive (!t.level)

variable {t : PulseTrain} {b : Bool} {n : Nat}

@[simp] theorem level_drive : (t.drive b).level = b := by
  unfold drive
  split
  · assumption
  · cases b <;> rfl

theorem drive_level : t.drive t.level = t := if_pos rfl

/-- A line that is toggled an even number of times is where it was, with half as many pulses; one
that began high has the last of them still up. -/
theorem toggle_even (level : Bool) (n : Nat) :
    toggle^[2 * n] (start level) =
      ⟨level, level && decide (n ≠ 0), if level then n - 1 else n⟩ := by
  induction n with
  | zero => cases level <;> rfl
  | succ n ih =>
    rw [show 2 * (n + 1) = 2 * n + 1 + 1 by omega, iterate_succ_apply',
      iterate_succ_apply', ih]
    cases level with
    | false => simp [toggle, drive]
    | true =>
      cases n with
      | zero => rfl
      | succ n => simp [toggle, drive]

/-- Driven low at the end, it has made its pulses. -/
theorem pulses_even_drive (level : Bool) (n : Nat) :
    ((toggle^[2 * n] (start level)).drive false).pulses = n := by
  rw [toggle_even]
  cases level with
  | false => rfl
  | true =>
    cases n with
    | zero => rfl
    | succ n => simp [drive]

/-- Half as many pulses as it has been toggled, at most. -/
theorem pulses_le (level : Bool) (k : Nat) : (toggle^[k] (start level)).pulses ≤ k / 2 := by
  obtain ⟨n, rfl | rfl⟩ : ∃ n, k = 2 * n ∨ k = 2 * n + 1 := ⟨k / 2, by omega⟩
  · rw [toggle_even]
    dsimp only
    split <;> omega
  · rw [iterate_succ_apply', toggle_even]
    cases level with
    | false =>
      simp [toggle, drive]
      omega
    | true =>
      simp only [toggle, drive]
      cases n with
      | zero => simp
      | succ n =>
        simp
        omega

/-- A line that began low and is low has made half as many pulses as it has been toggled. -/
theorem pulses_of_low {k : Nat} (h : (toggle^[k] (start false)).level = false) :
    (toggle^[k] (start false)).pulses = k / 2 ∧ 2 * (k / 2) = k := by
  obtain ⟨n, rfl | rfl⟩ : ∃ n, k = 2 * n ∨ k = 2 * n + 1 := ⟨k / 2, by omega⟩
  · rw [toggle_even]
    dsimp only
    rw [if_neg Bool.false_ne_true]
    omega
  · rw [iterate_succ_apply', toggle_even] at h
    exact nomatch h

end PulseTrain
