-- SUMMARY: The running least value of a list and its place, from any value to start with.
import Mathlib.Order.Lattice
import Mathlib.Tactic.Common

/-!
# Running Least Value

A loop over a list that keeps the least value so far and its place ends with the first place of the
least value of the list, if a value of the list is less than the one that the loop has started with.
If not, it ends as it has started. The values are compared by a key, so that the greatest value is
the least one of another key.
-/

namespace RunningLeast

open List

section

variable {α κ : Type*} [LinearOrder κ] (key : α → κ)

/-- The least value and its place, where the list begins at a place `i`. -/
def least : Nat → List α → α × Nat → α × Nat
  | _, [], r => r
  | i, x :: xs, r => least (i + 1) xs (if key x < key r.1 then (x, i) else r)

/-- At a place there is a least value of a list. -/
def LeastAt (xs : List α) (k : Nat) : Prop := ∃ x, xs[k]? = some x ∧ ∀ y ∈ xs, key x ≤ key y

variable {key} {xs ys : List α} {r : α × Nat} {x : α} {i k : Nat}

/-- What the loop ends with. -/
theorem least_spec (key : α → κ) (xs : List α) (i : Nat) (r : α × Nat) :
    (least key i xs r = r ∧ ∀ y ∈ xs, key r.1 ≤ key y) ∨
    ∃ j x, xs[j]? = some x ∧ least key i xs r = (x, i + j) ∧ key x < key r.1 ∧
      ∀ y ∈ xs, key x ≤ key y := by
  induction xs generalizing i r with
  | nil => exact .inl ⟨rfl, fun y hy => absurd hy not_mem_nil⟩
  | cons x xs ih =>
    rw [least]
    by_cases hx : key x < key r.1
    · rw [if_pos hx]
      right
      rcases ih (i + 1) (x, i) with ⟨hleast, hall⟩ | ⟨j, y, hj, hleast, hlt, hall⟩
      · exact ⟨0, x, rfl, hleast, hx, forall_mem_cons.mpr ⟨le_refl _, hall⟩⟩
      · refine ⟨j + 1, y, hj, ?_, lt_trans hlt hx, forall_mem_cons.mpr ⟨le_of_lt hlt, hall⟩⟩
        rw [hleast, Nat.add_assoc, Nat.add_comm 1]
    · rw [if_neg hx]
      rcases ih (i + 1) r with ⟨hleast, hall⟩ | ⟨j, y, hj, hleast, hlt, hall⟩
      · exact .inl ⟨hleast, forall_mem_cons.mpr ⟨not_lt.mp hx, hall⟩⟩
      · refine .inr ⟨j + 1, y, hj, ?_, hlt, ?_⟩
        · rw [hleast, Nat.add_assoc, Nat.add_comm 1]
        · exact forall_mem_cons.mpr ⟨le_trans (le_of_lt hlt) (not_lt.mp hx), hall⟩

/-- The loop ends as it has started if no value is less. -/
theorem least_of_le (h : ∀ y ∈ xs, key r.1 ≤ key y) : least key i xs r = r := by
  rcases least_spec key xs i r with ⟨hleast, -⟩ | ⟨j, x, hj, -, hlt, -⟩
  · exact hleast
  · exact absurd (h x (mem_of_getElem? hj)) (not_le.mpr hlt)

/-- The place that the loop has started with is forgotten if a value is less. -/
theorem least_forgets {l : Nat} (h : ∃ y ∈ xs, key y < key x) :
    least key i xs (x, k) = least key i xs (x, l) := by
  induction xs generalizing i with
  | nil =>
    obtain ⟨y, hy, -⟩ := h
    exact absurd hy not_mem_nil
  | cons z zs ih =>
    rw [least, least]
    by_cases hz : key z < key x
    · rw [if_pos hz, if_pos hz]
    · rw [if_neg hz, if_neg hz]
      obtain ⟨y, hy, hlt⟩ := h
      rcases mem_cons.mp hy with rfl | hy
      · exact absurd hlt hz
      · exact ih ⟨y, hy, hlt⟩

/-- A loop over a first part ends with the first place if there is a least value of the list. -/
theorem least_of_leastAt {b : α} (h : LeastAt key (xs ++ ys) 0) :
    (least key 0 xs (b, 0)).2 = 0 := by
  obtain ⟨z, hz, hall⟩ := h
  cases xs with
  | nil => rfl
  | cons x xs =>
    obtain rfl : x = z := Option.some.inj hz
    have hrest (y : α) (hy : y ∈ xs) : key x ≤ key y :=
      hall y (mem_append_left ys (mem_cons_of_mem x hy))
    rw [least]
    split
    · rw [least_of_le hrest]
    · rename_i hx
      rw [least_of_le fun y hy => le_trans (not_lt.mp hx) (hrest y hy)]

/-- Whatever value a loop over a first part has started with, its place is one of a least value of
the list just if that is the first place. -/
theorem leastAt_of_starts_iff (hbot : ∃ b, ∀ x, key b ≤ key x) :
    (∀ b, LeastAt key (xs ++ ys) (least key 0 xs (b, 0)).2) ↔ LeastAt key (xs ++ ys) 0 := by
  constructor
  · intro h
    obtain ⟨b, hb⟩ := hbot
    have hleast := h b
    rwa [least_of_le fun y _ => hb y] at hleast
  · intro h b
    rwa [least_of_leastAt h]

/-- A loop over a second part, started with some value at some place. -/
theorem leastAt_append_iff (key : α → κ) (xs ys : List α) (x : α) (k : Nat) :
    LeastAt key (xs ++ ys) (least key xs.length ys (x, k)).2 ↔
    (∃ y ∈ ys, key y < key x ∧ ∀ z ∈ xs ++ ys, key y ≤ key z) ∨
      (∀ y ∈ ys, key x ≤ key y) ∧ LeastAt key (xs ++ ys) k := by
  rcases least_spec key ys xs.length (x, k) with
    ⟨hleast, hall⟩ | ⟨j, y, hj, hleast, hlt, hall⟩
  · rw [hleast]
    constructor
    · exact fun h => .inr ⟨hall, h⟩
    · rintro (⟨y, hy, hlt, -⟩ | ⟨-, h⟩)
      · exact absurd (hall y hy) (not_le.mpr hlt)
      · exact h
  · have hplace : (xs ++ ys)[xs.length + j]? = some y := by
      rw [getElem?_append_right (Nat.le_add_right _ _), Nat.add_sub_cancel_left, hj]
    have hmem := mem_of_getElem? hj
    rw [hleast]
    constructor
    · rintro ⟨z, hz, hz'⟩
      obtain rfl := Option.some.inj (hplace.symm.trans hz)
      exact .inl ⟨y, hmem, hlt, hz'⟩
    · rintro (⟨y', hy', -, hle⟩ | ⟨hle, -⟩)
      · exact ⟨y, hplace, fun z hz => le_trans (hall y' hy') (hle z hz)⟩
      · exact absurd (hle y hmem) (not_le.mpr hlt)

end

end RunningLeast
