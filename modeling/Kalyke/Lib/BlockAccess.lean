-- SUMMARY: Access to blocks at an offset: in one go, in two parts, and value by value.
import Mathlib.Data.List.Basic
import Mathlib.Tactic.Common

/-!
# Block Access

Values that lie one behind the other are read and saved by an offset and a count. The ways to go over
a block agree if an offset always stands for the same place: a read then takes the values of the
places, and a save writes to them one after the other.
-/

variable {ε α σ : Type*}

/-! ## Reads -/

/-- A read of some values from an offset on. -/
abbrev BlockRead (ε α : Type*) := Nat → Nat → Except ε Unit × List α

/-- The reads of a block that succeed agree. -/
structure BlockRead.Splits (get : BlockRead ε α) : Prop where
  parts : ∀ {o m n xs ys zs}, get o (m + n) = (.ok (), xs) → get o m = (.ok (), ys) →
    get (o + m) n = (.ok (), zs) → xs = ys ++ zs
  single : ∀ {o n i xs ys}, get o n = (.ok (), xs) → i < n → get (o + i) 1 = (.ok (), ys) →
    ys = xs[i]?.toList

/-- The first of the values from an offset on, and the values behind it. -/
theorem map_range_succ_offset (value : Nat → α) (o n : Nat) :
    ((List.range (n + 1)).map fun j => value (o + j)) =
      value o :: (List.range n).map fun j => value (o + 1 + j) := by
  rw [List.range_succ_eq_map, List.map_cons, List.map_map]
  refine congrArg _ (List.map_congr_left fun j _ => ?_)
  exact congrArg value (Nat.add_right_comm o j 1)

/-- A read that takes the value of each place is the same in all ways. -/
theorem BlockRead.Splits.of_value {get : BlockRead ε α} (value : Nat → α)
    (h : ∀ {o n xs}, get o n = (.ok (), xs) → xs = (List.range n).map fun j => value (o + j)) :
    get.Splits where
  parts := by
    intro o m n xs ys zs hxs hys hzs
    rw [h hxs, h hys, h hzs, List.range_add, List.map_append, List.map_map]
    refine congrArg _ (List.map_congr_left fun j _ => ?_)
    exact congrArg value (Nat.add_assoc o m j).symm
  single := by
    intro o n i xs ys hxs hi hys
    rw [h hxs, h hys, List.getElem?_map, List.getElem?_range hi]
    rfl

/-- A read that always fails is the same in all ways. -/
theorem BlockRead.Splits.of_fails {get : BlockRead ε α} (h : ∀ o n xs, get o n ≠ (.ok (), xs)) :
    get.Splits where
  parts := fun hxs _ _ => absurd hxs (h _ _ _)
  single := fun hxs _ _ => absurd hxs (h _ _ _)

/-! ## Saves -/

/-- A save of some values from an offset on. -/
abbrev BlockSave (ε α σ : Type*) := Nat → List α → σ → Except ε Unit × σ

/-- The values are saved one by one, each with a save of its own. -/
def BlockSave.each (save : BlockSave ε α σ) : BlockSave ε α σ
  | _, [], s => (.ok (), s)
  | o, x :: xs, s =>
    match save o [x] s with
    | (.ok (), s') => save.each (o + 1) xs s'
    | (.error e, s') => (.error e, s')

/-- The saves of a block that succeed leave the same behind. -/
structure BlockSave.Splits (save : BlockSave ε α σ) (s : σ) : Prop where
  parts : ∀ {o xs ys s₁ s₂ s₃}, save o (xs ++ ys) s = (.ok (), s₁) → save o xs s = (.ok (), s₂) →
    save (o + xs.length) ys s₂ = (.ok (), s₃) → s₃ = s₁
  single : ∀ {o xs s₁ s₂}, save o xs s = (.ok (), s₁) → save.each o xs s = (.ok (), s₂) → s₂ = s₁

/-- The values are written to the places from an offset on. -/
def writeAll (write : Nat → α → σ → σ) : Nat → List α → σ → σ
  | _, [], s => s
  | o, x :: xs, s => writeAll write (o + 1) xs (write o x s)

theorem writeAll_append (write : Nat → α → σ → σ) (o : Nat) (xs ys : List α) (s : σ) :
    writeAll write o (xs ++ ys) s = writeAll write (o + xs.length) ys (writeAll write o xs s) := by
  induction xs generalizing o s with
  | nil => rfl
  | cons x xs ih =>
    have hlen : o + (x :: xs).length = o + 1 + xs.length := by
      rw [List.length_cons]
      omega
    rw [hlen]
    exact ih (o + 1) (write o x s)

section

variable {save : BlockSave ε α σ} (write : Nat → α → σ → σ)
  (h : ∀ {o xs s s'}, save o xs s = (.ok (), s') → s' = writeAll write o xs s)
include h

theorem BlockSave.each_of_write {o : Nat} {xs : List α} {s s' : σ}
    (heach : save.each o xs s = (.ok (), s')) : s' = writeAll write o xs s := by
  induction xs generalizing o s with
  | nil => exact (congrArg Prod.snd heach).symm
  | cons x xs ih =>
    rw [BlockSave.each] at heach
    split at heach
    · rename_i s₁ hfirst
      have hwritten : s₁ = write o x s := h hfirst
      rw [hwritten] at heach
      exact ih heach
    · cases heach

/-- A save that writes each value to its place is the same in all ways. -/
theorem BlockSave.Splits.of_write (s : σ) : save.Splits s where
  parts := by
    intro o xs ys s₁ s₂ s₃ hall hxs hys
    rw [h hall, h hys, h hxs, writeAll_append]
  single := by
    intro o xs s₁ s₂ hall heach
    rw [h hall]
    exact BlockSave.each_of_write write h heach

end

/-- A save that always fails is the same in all ways. -/
theorem BlockSave.Splits.of_fails {save : BlockSave ε α σ} {s : σ}
    (h : ∀ o xs s', save o xs s ≠ (.ok (), s')) : save.Splits s where
  parts := fun hall _ _ => absurd hall (h _ _ _)
  single := fun hall _ => absurd hall (h _ _ _)
