-- SUMMARY: A receiver of numbered frames that takes a repeated number for a repeated frame.
import Mathlib.Data.List.Basic
import Mathlib.Tactic.Common

/-!
# Numbered Frames

A sender splits a list into frames, numbers them, and sends a frame again until it is acknowledged.
The receiver knows the number of the frame it stored last. A frame with that number is the same one
once more; another is stored if its number comes next, and refused if it does not.
-/

namespace NumberedFrames

open List

/-- How frames are numbered: the first, the one behind each, and the last of all. -/
structure Numbering (ν : Type*) where
  first : ν
  next : ν → ν
  last : ν
  next_ne (k : ν) : next k ≠ k
  first_ne_last : first ≠ last
  next_ne_last (k : ν) : next k ≠ last

/-- The second list is the first with each element repeated in place. -/
inductive Repeats {β : Type*} : List β → List β → Prop
  | nil : Repeats [] []
  | once {xs ys : List β} (x : β) : Repeats xs ys → Repeats (x :: xs) (x :: ys)
  | again {xs ys : List β} {x : β} : Repeats (x :: xs) (x :: ys) → Repeats (x :: xs) (x :: x :: ys)

theorem Repeats.head? {β : Type*} {xs ys : List β} (h : Repeats xs ys) : ys.head? = xs.head? := by
  cases h <;> rfl

/-- Every element of a list as often as a pattern says: the one at `k` is repeated `r k` times. -/
def repeated {β : Type*} (r : Nat → Nat) (k : Nat) : List β → List β
  | [] => []
  | x :: xs => replicate (r k + 1) x ++ repeated r (k + 1) xs

theorem mem_repeated {β : Type*} {r : Nat → Nat} {k : Nat} {x : β} {xs : List β} :
    x ∈ repeated r k xs ↔ x ∈ xs := by
  induction xs generalizing k with
  | nil => rfl
  | cons y xs ih =>
    rw [repeated, mem_append, ih, mem_cons]
    refine or_congr_left ?_
    simp

/-- What a receiver has: the number of the last frame it stored, and what was in all of them. -/
@[ext] structure Received (ν α : Type*) where
  num : ν
  content : List α

/-- What a frame comes to. -/
inductive Outcome (ν α : Type*) where
  | refused
  | again
  | stored (r : Received ν α)

namespace Outcome

variable {ν α : Type*}

/-- What a receiver has after a frame. -/
def after (r : Option (Received ν α)) : Outcome ν α → Option (Received ν α)
  | refused => r
  | again => r
  | stored r' => some r'

end Outcome

variable {ν α : Type*} [DecidableEq ν] (N : Numbering ν)

def number (k : ν) : List (List α) → List (ν × List α)
  | [] => []
  | [p] => [(N.last, p)]
  | p :: q :: ps => (k, p) :: number (N.next k) (q :: ps)

omit [DecidableEq ν] in
theorem exists_last_mem_number (k : ν) {ps : List (List α)} (h : ps ≠ []) :
    ∃ p, (N.last, p) ∈ number N k ps := by
  induction ps generalizing k with
  | nil => exact absurd rfl h
  | cons p ps ih =>
    cases ps with
    | nil => exact ⟨p, mem_singleton_self _⟩
    | cons q ps =>
      obtain ⟨p', hp'⟩ := ih (N.next k) (cons_ne_nil _ _)
      exact ⟨p', mem_cons_of_mem _ hp'⟩

/-- Receive a frame. With `restart`, a first frame behind a whole file begins another. -/
def receive (restart : Bool) (r : Option (Received ν α)) (num : ν) (data : List α) :
    Outcome ν α :=
  match r with
  | none => if num = N.first ∨ num = N.last then .stored ⟨num, data⟩ else .refused
  | some r =>
    if num = r.num then .again
    else if r.num = N.last then
      if restart ∧ num = N.first then .stored ⟨num, data⟩ else .refused
    else if num = N.last ∨ num = N.next r.num then .stored ⟨num, r.content ++ data⟩
    else .refused

/-- What a receiver has after a frame. -/
def step (restart : Bool) (r : Option (Received ν α)) (x : ν × List α) : Option (Received ν α) :=
  (receive N restart r x.1 x.2).after r

/-- What a receiver has after some frames. -/
def run (restart : Bool) (r : Option (Received ν α)) (xs : List (ν × List α)) :
    Option (Received ν α) := xs.foldl (step N restart) r

variable {N} {restart : Bool} {r : Option (Received ν α)}

/-- The number of a stored frame is remembered. -/
theorem num_of_stored {num : ν} {data : List α} {r' : Received ν α}
    (h : receive N restart r num data = .stored r') : r'.num = num := by
  cases r with
  | none =>
    simp only [receive] at h
    split_ifs at h
    cases h
    rfl
  | some r =>
    simp only [receive] at h
    split_ifs at h <;> cases h <;> rfl

/-- A frame received twice in a row changes what it changes once. -/
theorem step_step (x : ν × List α) : step N restart (step N restart r x) x = step N restart r x := by
  cases h : receive N restart r x.1 x.2 with
  | refused => simp [step, h, Outcome.after]
  | again => simp [step, h, Outcome.after]
  | stored r' =>
    have hagain : receive N restart (some r') x.1 x.2 = .again := by
      simp [receive, num_of_stored h]
    simp [step, h, hagain, Outcome.after]

/-- Frames that are sent again right away make no difference. -/
theorem run_repeats {xs ys : List (ν × List α)} (h : Repeats xs ys) :
    run N restart r ys = run N restart r xs := by
  induction h generalizing r with
  | nil => rfl
  | once x _ ih =>
    exact ih
  | again _ ih =>
    simp only [run, foldl_cons] at ih ⊢
    rw [step_step]
    exact ih

/-- A receiver that has some frames of a file gets the frames that are left. -/
theorem run_number_some (ps : List (List α)) (hps : ps ≠ []) {r : Received ν α}
    (hr : r.num ≠ N.last) :
    run N restart (some r) (number N (N.next r.num) ps) =
      some ⟨N.last, r.content ++ ps.flatten⟩ := by
  match ps with
  | [p] => simp [number, run, step, receive, hr, Ne.symm hr, Outcome.after]
  | p :: q :: ps =>
    have hstep : step N restart (some r) (N.next r.num, p) =
        some ⟨N.next r.num, r.content ++ p⟩ := by
      simp [step, receive, N.next_ne, hr, Outcome.after]
    have ih := run_number_some (q :: ps) (by simp) (r := ⟨N.next r.num, r.content ++ p⟩)
      (N.next_ne_last _)
    simp only [run, number, foldl_cons, hstep] at ih ⊢
    rw [ih]
    simp

/-- A receiver that has nothing, or that has a whole file and begins another, gets a file. -/
theorem run_number (ps : List (List α)) (hps : ps ≠ [])
    (hr : r = none ∨ restart ∧ 2 ≤ ps.length ∧ r.map (·.num) = some N.last) :
    run N restart r (number N N.first ps) = some ⟨N.last, ps.flatten⟩ := by
  match ps with
  | [p] =>
    obtain rfl | ⟨-, h, -⟩ := hr
    · simp [number, run, step, receive, Outcome.after]
    · simp at h
  | p :: q :: ps =>
    have hstep : step N restart r (N.first, p) = some ⟨N.first, p⟩ := by
      obtain rfl | ⟨hrestart, -, hlast⟩ := hr
      · simp [step, receive, Outcome.after]
      · obtain ⟨r, rfl, hnum⟩ := Option.map_eq_some_iff.mp hlast
        simp [step, receive, hnum, hrestart, N.first_ne_last, Outcome.after]
    have h : run N restart (some ⟨N.first, p⟩) (number N (N.next N.first) (q :: ps)) =
        some ⟨N.last, p ++ (q :: ps).flatten⟩ :=
      run_number_some (q :: ps) (by simp) N.first_ne_last
    simp only [run, number, foldl_cons, hstep] at h ⊢
    rw [h]
    simp

end NumberedFrames
