-- SUMMARY: Selecting the elements of an increasing list by what stands before them.
import Mathlib.Data.List.TakeWhile
import Mathlib.Order.Lattice
import Mathlib.Tactic.Common

/-!
# Histories

An increasing list is read as a history: the elements before an element are those that are smaller.
`select` picks the elements that pass a test on their past. The list grows at its end, and growing
it changes neither the past nor the selection of what was there.
-/

namespace History

open List

variable {α : Type*} [LinearOrder α] {R R' : List α → α → Bool} {xs : List α} {x y : α}

/-- The past of `y` in an increasing list. -/
def before (xs : List α) (y : α) : List α := xs.takeWhile (· < y)

/-- The elements of a list that pass a test on their past. -/
def select (R : List α → α → Bool) (xs : List α) : List α :=
  xs.filter fun y => R (before xs y) y

theorem before_prefix : before xs y <+: xs := takeWhile_prefix _

theorem before_of_forall_lt (h : ∀ x ∈ xs, x < y) : before xs y = xs :=
  takeWhile_eq_self_iff.mpr (by simpa using h)

theorem lt_of_pairwise_snoc (h : (xs ++ [x]).Pairwise (· < ·)) : ∀ y ∈ xs, y < x :=
  fun y hy => (pairwise_append.mp h).2.2 y hy x (mem_singleton.mpr rfl)

theorem pairwise_of_snoc (h : (xs ++ [x]).Pairwise (· < ·)) : xs.Pairwise (· < ·) :=
  (pairwise_append.mp h).1

theorem pairwise_snoc (h : xs.Pairwise (· < ·)) (hx : ∀ y ∈ xs, y < x) :
    (xs ++ [x]).Pairwise (· < ·) := by
  rw [pairwise_append]
  refine ⟨h, pairwise_singleton _ _, fun y hy z hz => ?_⟩
  rw [mem_singleton.mp hz]
  exact hx y hy

/-- A new last element does not change the past of what is not beyond it. -/
theorem before_snoc (hyx : y ≤ x) : before (xs ++ [x]) y = before xs y := by
  induction xs with
  | nil => simp [before, hyx]
  | cons a xs ih =>
    simp only [before, cons_append, takeWhile_cons] at ih ⊢
    rw [ih]

theorem mem_before (h : xs.Pairwise (· < ·)) : x ∈ before xs y ↔ x ∈ xs ∧ x < y := by
  induction xs with
  | nil => simp [before]
  | cons a xs ih =>
    obtain ⟨ha, hxs⟩ := pairwise_cons.mp h
    simp only [before, takeWhile_cons] at ih ⊢
    by_cases hay : a < y
    · simp only [hay, decide_true, if_true, mem_cons, ih hxs]
      constructor
      · rintro (rfl | ⟨hx, hxy⟩)
        · exact ⟨.inl rfl, hay⟩
        · exact ⟨.inr hx, hxy⟩
      · rintro ⟨rfl | hx, hxy⟩
        · exact .inl rfl
        · exact .inr ⟨hx, hxy⟩
    · simp only [hay, decide_false, Bool.false_eq_true, if_false, not_mem_nil, false_iff]
      rintro ⟨hx, hxy⟩
      rcases mem_cons.mp hx with rfl | hx
      · exact hay hxy
      · exact hay (lt_trans (ha x hx) hxy)

theorem pairwise_before (h : xs.Pairwise (· < ·)) : (before xs y).Pairwise (· < ·) :=
  h.sublist before_prefix.sublist

/-- The past of an element of a past is its past. -/
theorem before_before (hxy : x ≤ y) : before (before xs y) x = before xs x := by
  induction xs with
  | nil => rfl
  | cons a xs ih =>
    simp only [before] at ih ⊢
    by_cases hay : a < y
    · simp [hay, takeWhile_cons, ih]
    · have hax : ¬ a < x := fun hax => hay (lt_of_lt_of_le hax hxy)
      simp [hay, hax]

@[simp] theorem mem_select : y ∈ select R xs ↔ y ∈ xs ∧ R (before xs y) y = true :=
  mem_filter

/-- The selection grows by the new last element, if that passes the test on the list so far. -/
theorem select_snoc (h : (xs ++ [x]).Pairwise (· < ·)) :
    select R (xs ++ [x]) = select R xs ++ if R xs x then [x] else [] := by
  have hlt := lt_of_pairwise_snoc h
  have hold : ∀ y ∈ xs, R (before (xs ++ [x]) y) y = R (before xs y) y :=
    fun y hy => by rw [before_snoc (le_of_lt (hlt y hy))]
  have hnew : before (xs ++ [x]) x = xs := by
    rw [before_snoc le_rfl, before_of_forall_lt hlt]
  rw [select, filter_append, filter_congr hold, filter_cons, filter_nil, hnew]
  rfl

/-- Of two selections of which one is part of the other, equality is a question of elements. -/
theorem select_eq_iff (himp : ∀ pre y, R pre y = true → R' pre y = true) :
    select R xs = select R' xs ↔
      ∀ y ∈ xs, R' (before xs y) y = true → R (before xs y) y = true := by
  constructor
  · intro heq y hy hR'
    have : y ∈ select R xs := heq ▸ mem_select.mpr ⟨hy, hR'⟩
    exact (mem_select.mp this).2
  · intro h
    refine filter_congr fun y hy => ?_
    rw [Bool.eq_iff_iff]
    exact ⟨himp _ y, h y hy⟩

theorem pairwise_select (h : xs.Pairwise (· < ·)) : (select R xs).Pairwise (· < ·) :=
  h.sublist filter_sublist

/-- The selection from a past is the past of the selection. -/
theorem mem_select_before (h : xs.Pairwise (· < ·)) :
    x ∈ select R (before xs y) ↔ x ∈ select R xs ∧ x < y := by
  rw [mem_select, mem_select, mem_before h]
  constructor
  · rintro ⟨⟨hx, hxy⟩, hR⟩
    rw [before_before (le_of_lt hxy)] at hR
    exact ⟨⟨hx, hR⟩, hxy⟩
  · rintro ⟨⟨hx, hR⟩, hxy⟩
    refine ⟨⟨hx, hxy⟩, ?_⟩
    rwa [before_before (le_of_lt hxy)]

theorem le_getLast (h : xs.Pairwise (· < ·)) (hlast : xs.getLast? = some y) : ∀ x ∈ xs, x ≤ y := by
  obtain ⟨ys, rfl⟩ := getLast?_eq_some_iff.mp hlast
  intro x hx
  rcases mem_append.mp hx with hx | hx
  · exact le_of_lt (lt_of_pairwise_snoc h x hx)
  · exact le_of_eq (mem_singleton.mp hx)

theorem select_eq_nil_iff : select R xs = [] ↔ ∀ y ∈ xs, R (before xs y) y = false := by
  simp [select]

end History
