-- SUMMARY: Pulses of a fixed duration that a trigger starts and does not start again.
import Mathlib.Data.Option.Basic

/-!
# One-Shots

A line is watched at some times that do not go back. A trigger that comes while there is no pulse
starts one, which ends at the first of the times where its duration has passed. A trigger that comes
during a pulse is ignored.
-/

namespace OneShot

def next (duration : Nat) (began : Option Nat) (trigger : Bool) (time : Nat) : Option Nat :=
  (began.or (if trigger then some time else none)).filter fun t => time < t + duration

variable {duration t time : Nat} {trigger : Bool}

theorem next_idle : next duration none false time = none := rfl

theorem next_trigger : next duration none true time = if 0 < duration then some time else none := by
  unfold next
  simp only [Option.none_or, if_true, Option.filter, Nat.lt_add_right_iff_pos, decide_eq_true_eq]

theorem next_running :
    next duration (some t) trigger time = if time < t + duration then some t else none := by
  unfold next
  simp only [Option.some_or, Option.filter, decide_eq_true_eq]

end OneShot
