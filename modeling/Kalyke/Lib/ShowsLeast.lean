-- SUMMARY: The least element of a set, or that it is empty.
import Mathlib.Order.Bounds.Basic
import Mathlib.Tactic.Common

/-!
# Least Elements

What is known of a set by its least element, if it has one, and what becomes of that when an element
is put in.
-/

variable {α : Type*} [LinearOrder α]

/-- The least element of a set, or none of an empty one. -/
def ShowsLeast (A : Set α) : Option α → Prop
  | none => A = ∅
  | some a => IsLeast A a

namespace ShowsLeast

variable {A : Set α} {o o' : Option α} {a : α}

theorem unique (h : ShowsLeast A o) (h' : ShowsLeast A o') : o = o' := by
  cases o with
  | none =>
    cases o' with
    | none => rfl
    | some b => exact absurd h'.1 (Set.eq_empty_iff_forall_notMem.mp h b)
  | some b =>
    cases o' with
    | none => exact absurd h.1 (Set.eq_empty_iff_forall_notMem.mp h' b)
    | some c => exact congrArg some (IsLeast.unique h h')

theorem mem (h : ShowsLeast A (some a)) : a ∈ A := h.1

/-- An element that is put in is the least one if it is below the one before. -/
theorem insert (h : ShowsLeast A o) (a : α) :
    ShowsLeast (Insert.insert a A) (some (o.elim a (min a))) := by
  cases o with
  | none =>
    obtain rfl : A = ∅ := h
    rw [insert_empty_eq]
    exact isLeast_singleton
  | some l => exact IsLeast.insert a h

/-- There is an element up to one if the least is. -/
theorem exists_le_iff (h : ShowsLeast A o) : (∃ b ∈ A, b ≤ a) ↔ ∃ l ∈ o, l ≤ a := by
  cases o with
  | none =>
    obtain rfl : A = ∅ := h
    constructor <;> rintro ⟨b, hb, -⟩ <;> cases hb
  | some l =>
    constructor
    · rintro ⟨b, hb, hle⟩
      exact ⟨l, rfl, le_trans (h.2 hb) hle⟩
    · rintro ⟨l', hl', hle⟩
      obtain rfl := Option.mem_some_iff.mp hl'
      exact ⟨l, h.1, hle⟩

end ShowsLeast
