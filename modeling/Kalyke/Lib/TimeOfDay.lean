-- SUMMARY: Times of day as counts of seconds.
import Mathlib.Data.Int.Basic
import Mathlib.Data.Prod.Lex
import Mathlib.Tactic.Common

/-!
# Times of Day

The hours, minutes and seconds of a time are digits of the seconds since midnight. Every number of
seconds is the time of one day.
-/

/-- A time of day. -/
@[ext] structure TimeOfDay where
  hour : Nat
  minute : Nat
  second : Nat
  hour_lt : hour < 24
  minute_lt : minute < 60
  second_lt : second < 60
deriving DecidableEq

namespace TimeOfDay

variable {t u : TimeOfDay} {z q : Int}

/-- The seconds since midnight. -/
def seconds (t : TimeOfDay) : Nat := 3600 * t.hour + 60 * t.minute + t.second

/-- The time at which a number of seconds have passed since a midnight. -/
def ofSeconds (z : Int) : TimeOfDay where
  hour := (z % 86400).toNat / 3600
  minute := (z % 86400).toNat / 60 % 60
  second := (z % 86400).toNat % 60
  hour_lt := by omega
  minute_lt := Nat.mod_lt _ (by decide)
  second_lt := Nat.mod_lt _ (by decide)

theorem seconds_lt : t.seconds < 86400 := by
  have hh := t.hour_lt
  have hm := t.minute_lt
  have hs := t.second_lt
  unfold seconds
  omega

/-- The digits of a time are those of its seconds. -/
theorem eq_of_seconds (h : t.seconds = u.seconds) : t = u := by
  have hm := t.minute_lt
  have hs := t.second_lt
  have hm' := u.minute_lt
  have hs' := u.second_lt
  unfold seconds at h
  ext <;> omega

theorem seconds_ofSeconds : ((ofSeconds z).seconds : Int) = z % 86400 := by
  simp only [seconds, ofSeconds]
  omega

theorem ofSeconds_eq (h : z = t.seconds + 86400 * q) : ofSeconds z = t := by
  apply eq_of_seconds
  have hlt := @seconds_lt t
  have hsame := @seconds_ofSeconds z
  omega

theorem ofSeconds_seconds : ofSeconds t.seconds = t :=
  ofSeconds_eq (q := 0) (by omega)

/-- Times come in the order of their hours, minutes and seconds. -/
theorem seconds_lt_iff : t.seconds < u.seconds ↔
    t.hour < u.hour ∨ t.hour = u.hour ∧
      (t.minute < u.minute ∨ t.minute = u.minute ∧ t.second < u.second) := by
  have hm := t.minute_lt
  have hs := t.second_lt
  have hm' := u.minute_lt
  have hs' := u.second_lt
  unfold seconds
  omega

/-- The hour, minute and second, in the lexicographic order. -/
def lex (t : TimeOfDay) : Nat ×ₗ Nat ×ₗ Nat := toLex (t.hour, toLex (t.minute, t.second))

theorem seconds_lt_iff_lex : t.seconds < u.seconds ↔ t.lex < u.lex := by
  rw [seconds_lt_iff, lex, lex, Prod.Lex.toLex_lt_toLex, Prod.Lex.toLex_lt_toLex]

end TimeOfDay
