-- SUMMARY: Deques of bounded length: their operations, what goes in and comes out, and arrays that hold them.
import Kalyke.Lib.Runs
import Mathlib.Data.List.Perm.Basic

/-!
# Bounded Deques

A deque of at most `n` values takes a value at its end, and gives its oldest or its newest one. What
has gone in is what has come out and what is in it.

An array can hold a deque behind a first entry that is left for the count, the oldest value first.
-/

namespace BoundedDeque

open List

variable {α β : Type*}

/-- The operations of a deque. -/
inductive Op (α : Type*) where
  | append (x : α)
  | oldest
  | newest

/-- The deque is full or empty, so that an operation can do nothing. -/
def Refused (n : Nat) (xs : List α) : Op α → Prop
  | .append _ => n ≤ xs.length
  | .oldest | .newest => xs = []

/-- What an operation leaves of a deque of at most `n` values. -/
def next (n : Nat) (xs : List α) : Op α → List α
  | .append x => if n ≤ xs.length then xs else xs ++ [x]
  | .oldest => xs.tail
  | .newest => xs.dropLast

/-- What comes out. -/
def delivered (xs : List α) : Op α → List α
  | .append _ => []
  | .oldest => xs.head?.toList
  | .newest => xs.getLast?.toList

variable {n : Nat} {xs : List α} {op : Op α} {ops : List (Op α)}

theorem next_of_refused (h : Refused n xs op) : next n xs op = xs := by
  cases op with
  | append x => exact if_pos h
  | oldest =>
    obtain rfl : xs = [] := h
    rfl
  | newest =>
    obtain rfl : xs = [] := h
    rfl

theorem length_next_le (h : xs.length ≤ n) : (next n xs op).length ≤ n := by
  cases op with
  | append x =>
    rw [BoundedDeque.next]
    split
    · exact h
    · rw [length_append, length_singleton]
      omega
  | oldest =>
    rw [BoundedDeque.next, length_tail]
    omega
  | newest =>
    rw [BoundedDeque.next, length_dropLast]
    omega

/-! ## Arrays -/

/-- The entries of an array from its second one on stand for the values. -/
def Laid (code : α → β) (f : Nat → β) (xs : List α) : Prop :=
  ∀ k (h : k < xs.length), f (k + 1) = code xs[k]

variable {code : α → β} {f g : Nat → β}

theorem Laid.congr (h : Laid code f xs) (hg : ∀ k, 1 ≤ k → k ≤ xs.length → g k = f k) :
    Laid code g xs := fun k hk => (hg (k + 1) (Nat.succ_pos k) hk).trans (h k hk)

theorem Laid.append {x : α} (h : Laid code f xs) (hg : ∀ k, 1 ≤ k → k ≤ xs.length → g k = f k)
    (hx : g (xs.length + 1) = code x) : Laid code g (xs ++ [x]) := by
  intro k hk
  rw [length_append, length_singleton] at hk
  rcases Nat.lt_succ_iff_lt_or_eq.mp hk with hlt | rfl
  · rw [getElem_append_left hlt]
    exact h.congr hg k hlt
  · rw [getElem_concat_length rfl, hx]

/-- Each value but the first has moved down. -/
theorem Laid.tail (h : Laid code f xs) (hg : ∀ k, 1 ≤ k → k < xs.length → g k = f (k + 1)) :
    Laid code g xs.tail := by
  intro k hk
  rw [length_tail] at hk
  rw [hg (k + 1) (Nat.succ_pos k) (by omega), h (k + 1) (by omega), getElem_tail]

theorem Laid.dropLast (h : Laid code f xs) (hg : ∀ k, 1 ≤ k → k < xs.length → g k = f k) :
    Laid code g xs.dropLast := by
  intro k hk
  rw [length_dropLast] at hk
  rw [hg (k + 1) (Nat.succ_pos k) (by omega), h k (by omega), getElem_dropLast]

end BoundedDeque
