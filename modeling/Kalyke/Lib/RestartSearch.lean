-- SUMMARY: A search for a string in another one that begins again behind each failure.
import Kalyke.Lib.PackedStrings
import Mathlib.Order.Bounds.Defs

/-!
# Restart Search

The search compares two images byte by byte, up to the zero of one of them. Where they differ, it
begins again with the pattern one place further on in the text. It leaves in a number of passes that
the two lengths bound.
-/

namespace PackedStrings

/-! ## Places -/

/-- A string stands in another one at a place. -/
def OccursAt (cs ds : List (BitVec 8)) (k : Nat) : Prop := k ≤ ds.length ∧ cs <+: ds.drop k

instance {cs ds : List (BitVec 8)} {k : Nat} : Decidable (OccursAt cs ds k) :=
  inferInstanceAs (Decidable (_ ∧ _))

/-- The first place of a string from one on, or that there is none. -/
def FirstFrom (cs ds : List (BitVec 8)) (k : Nat) : Option Nat → Prop
  | some c => IsLeast {c | k ≤ c ∧ OccursAt cs ds c} c
  | none => ∀ c, k ≤ c → ¬ OccursAt cs ds c

/-- There is a first place of a string, or none. -/
theorem exists_firstFrom (cs ds : List (BitVec 8)) (k : Nat) : ∃ r, FirstFrom cs ds k r := by
  classical
  by_cases h : ∃ c, k ≤ c ∧ OccursAt cs ds c
  · exact ⟨some (Nat.find h), Nat.find_spec h, fun _ hc => Nat.find_min' h hc⟩
  · exact ⟨none, fun c hk hc => h ⟨c, hk, hc⟩⟩

/-! ## The loop -/

/-- Where a search is: in the pattern, in the text, and where in the text it began. -/
structure Cursor where
  pattern : Nat
  text : Nat
  start : Nat

/-- A search that begins at a place. -/
def Cursor.startAt (k : Nat) : Cursor := ⟨0, k, k⟩

/-- The loop of the search, and the place it has found. -/
def searchLoop (t s : Image) : WhileLoop Cursor (Option Nat) := fun x =>
  if t x.pattern ≠ 0 ∧ s x.text ≠ 0 then
    if t x.pattern ≠ s x.text then .inl (.startAt (x.start + 1))
    else .inl ⟨x.pattern + 1, x.text + 1, x.start⟩
  else .inr (if t x.pattern = 0 then some x.start else none)

section

variable {t s : Image} {x y : Cursor} {m n k : Nat} {r : Option Nat}

theorem searchLoop_step (h : WhileLoop.Step (searchLoop t s) x y) :
    t x.pattern ≠ 0 ∧ s x.text ≠ 0 ∧
      (t x.pattern ≠ s x.text ∧ y = .startAt (x.start + 1) ∨
        t x.pattern = s x.text ∧ y = ⟨x.pattern + 1, x.text + 1, x.start⟩) := by
  unfold WhileLoop.Step searchLoop at h
  split at h
  · rename_i hgoes
    refine ⟨hgoes.1, hgoes.2, ?_⟩
    split at h
    · rename_i hdiffer
      exact .inl ⟨hdiffer, (Sum.inl.inj h).symm⟩
    · rename_i hsame
      exact .inr ⟨not_not.mp hsame, (Sum.inl.inj h).symm⟩
  · cases h

/-! ## Termination -/

/-- A cursor is not behind the zeros of the images. -/
structure Cursor.Within (x : Cursor) (m n : Nat) : Prop where
  pattern : x.pattern ≤ m
  text : x.text ≤ n
  start : x.start ≤ x.text

theorem within_step (ht : t m = 0) (hs : s n = 0) (h : x.Within m n)
    (hstep : WhileLoop.Step (searchLoop t s) x y) : y.Within m n := by
  obtain ⟨hpattern, htext, hy⟩ := searchLoop_step hstep
  have hp : x.pattern ≠ m := fun heq => hpattern (heq ▸ ht)
  have hn : x.text ≠ n := fun heq => htext (heq ▸ hs)
  have hle := h.pattern
  have hle' := h.text
  have hstart := h.start
  rcases hy with ⟨-, rfl⟩ | ⟨-, rfl⟩
  · exact ⟨Nat.zero_le _, show x.start + 1 ≤ n by omega, Nat.le_refl _⟩
  · exact ⟨show x.pattern + 1 ≤ m by omega, show x.text + 1 ≤ n by omega,
      show x.start ≤ x.text + 1 by omega⟩

theorem within_startAt (hk : k ≤ n) : (Cursor.startAt k).Within m n :=
  ⟨Nat.zero_le _, hk, Nat.le_refl _⟩

/-- What a pass lowers: the places that are left, and the characters that are left at this one. -/
def Cursor.left (x : Cursor) (m n : Nat) : Nat := (n - x.start) * (m + 1) + (m - x.pattern)

theorem left_step (ht : t m = 0) (hs : s n = 0) (h : x.Within m n)
    (hstep : WhileLoop.Step (searchLoop t s) x y) : y.left m n < x.left m n := by
  obtain ⟨hpattern, htext, hy⟩ := searchLoop_step hstep
  have hp : x.pattern ≠ m := fun heq => hpattern (heq ▸ ht)
  have hn : x.text ≠ n := fun heq => htext (heq ▸ hs)
  have hle := h.pattern
  have hle' := h.text
  have hstart := h.start
  rcases hy with ⟨-, rfl⟩ | ⟨-, rfl⟩
  · obtain ⟨d, hd⟩ : ∃ d, n - x.start = d + 1 := ⟨n - x.start - 1, by omega⟩
    have hd' : n - (x.start + 1) = d := by omega
    change (n - (x.start + 1)) * (m + 1) + (m - 0) < (n - x.start) * (m + 1) + (m - x.pattern)
    rw [hd, hd', Nat.succ_mul]
    omega
  · change (n - x.start) * (m + 1) + (m - (x.pattern + 1)) <
      (n - x.start) * (m + 1) + (m - x.pattern)
    omega

/-- The passes of a search in images with zeros at such places. -/
def searchFuel (m n : Nat) : Nat := (n + 1) * (m + 1)

/-- A search in images that end leaves. -/
theorem search_leaves (ht : t m = 0) (hs : s n = 0) (hk : k ≤ n) :
    ∃ r, WhileLoop.run (searchLoop t s) (searchFuel m n) (.startAt k) = some r := by
  have hwithin {x : Cursor} (h : WhileLoop.Reaches (searchLoop t s) (.startAt k) x) :
      x.Within m n :=
    WhileLoop.Reaches.invariant (I := (Cursor.Within · m n))
      (fun _ _ hx hstep => within_step ht hs hx hstep) h (within_startAt hk)
  refine WhileLoop.run_of_measure (Cursor.left · m n)
    (fun x y hx hstep => left_step ht hs (hwithin hx) hstep) ?_
  have hplaces : (n - k) * (m + 1) ≤ n * (m + 1) := Nat.mul_le_mul_right _ (Nat.sub_le n k)
  change (n - k) * (m + 1) + (m - 0) < (n + 1) * (m + 1)
  rw [Nat.succ_mul]
  omega

end

end PackedStrings
