-- SUMMARY: Memory that is erased in sectors and written byte by byte, and its parts.
import Mathlib.Data.List.Basic
import Mathlib.Data.List.GetD
import Mathlib.Tactic.Common

/-!
# Flash Memory

A memory is erased sector by sector and written cell by cell. It is divided into parts, and as long
as each operation keeps to its part, what a part holds is decided by the operations on it alone.
-/

/-- An operation on a memory of cells in `α`. -/
inductive FlashOp (α : Type*) where
  | erase (start size : Nat)
  | write (start : Nat) (data : List α)
deriving DecidableEq, Repr

namespace FlashOp

open List

variable {α : Type*} {sector : Nat} {blank : α} {a : Nat}

/-- An address lies in a sector that is erased. -/
def Erases (sector : Nat) : FlashOp α → Nat → Prop
  | erase start size, a =>
    0 < size ∧ start / sector ≤ a / sector ∧ a / sector ≤ (start + size - 1) / sector
  | write _ _, _ => False

instance (sector : Nat) (op : FlashOp α) (a : Nat) : Decidable (op.Erases sector a) :=
  match op with
  | erase start size =>
    inferInstanceAs (Decidable (0 < size ∧ start / sector ≤ a / sector ∧
      a / sector ≤ (start + size - 1) / sector))
  | write _ _ => inferInstanceAs (Decidable False)

/-- An address is written. -/
def Writes : FlashOp α → Nat → Prop
  | erase _ _, _ => False
  | write start data, a => start ≤ a ∧ a < start + data.length

/-- An address is erased or written. -/
def Touches (sector : Nat) (op : FlashOp α) (a : Nat) : Prop := op.Erases sector a ∨ op.Writes a

/-- The memory after an operation. -/
def act (sector : Nat) (blank : α) (mem : Nat → α) : FlashOp α → Nat → α
  | erase start size, a => if (erase start size : FlashOp α).Erases sector a then blank else mem a
  | write start data, a => if start ≤ a then data.getD (a - start) (mem a) else mem a

/-- The memory after several operations. -/
def run (sector : Nat) (blank : α) (ops : List (FlashOp α)) (mem : Nat → α) : Nat → α :=
  ops.foldl (act sector blank) mem

@[simp] theorem run_nil (mem : Nat → α) : run sector blank [] mem = mem := rfl

@[simp] theorem run_cons (op : FlashOp α) (ops : List (FlashOp α)) (mem : Nat → α) :
    run sector blank (op :: ops) mem = run sector blank ops (act sector blank mem op) := rfl

theorem run_append (l r : List (FlashOp α)) (mem : Nat → α) :
    run sector blank (l ++ r) mem = run sector blank r (run sector blank l mem) :=
  foldl_append

/-- The sectors erased are those that overlap the range. -/
theorem erases_iff {start size : Nat} :
    (erase start size : FlashOp α).Erases sector a ↔
      ∃ x, start ≤ x ∧ x < start + size ∧ x / sector = a / sector := by
  constructor
  · rintro ⟨hsize, hlo, hhi⟩
    rcases Nat.lt_or_ge a start with ha | ha
    · exact ⟨start, Nat.le_refl _, by omega, Nat.le_antisymm hlo (Nat.div_le_div_right (by omega))⟩
    rcases Nat.lt_or_ge a (start + size) with ha' | ha'
    · exact ⟨a, ha, ha', rfl⟩
    · exact ⟨start + size - 1, by omega, by omega,
        Nat.le_antisymm (Nat.div_le_div_right (by omega)) hhi⟩
  · rintro ⟨x, hlo, hhi, hx⟩
    refine ⟨by omega, ?_, ?_⟩
    · rw [← hx]
      exact Nat.div_le_div_right hlo
    · rw [← hx]
      exact Nat.div_le_div_right (by omega)

/-- Whole sectors are erased exactly. -/
theorem erases_aligned (hs : 0 < sector) {start n : Nat} (hstart : sector ∣ start) :
    (erase start (sector * n) : FlashOp α).Erases sector a ↔
      start ≤ a ∧ a < start + sector * n := by
  obtain ⟨k, rfl⟩ := hstart
  rw [erases_iff]
  constructor
  · rintro ⟨x, hlo, hhi, hx⟩
    have hk : k ≤ x / sector := (Nat.le_div_iff_mul_le hs).mpr (by rwa [Nat.mul_comm])
    have hkn : x / sector < k + n := by
      rw [Nat.div_lt_iff_lt_mul hs, Nat.mul_comm, Nat.mul_add]
      exact hhi
    rw [hx] at hk hkn
    rw [Nat.le_div_iff_mul_le hs, Nat.mul_comm] at hk
    rw [Nat.div_lt_iff_lt_mul hs, Nat.mul_comm, Nat.mul_add] at hkn
    exact ⟨hk, hkn⟩
  · rintro ⟨hlo, hhi⟩
    exact ⟨a, hlo, hhi, rfl⟩

/-! ## What an Operation Leaves -/

/-- An address that is not touched keeps its cell. -/
theorem act_of_not_touches {op : FlashOp α} (h : ¬ op.Touches sector a) (mem : Nat → α) :
    act sector blank mem op a = mem a := by
  cases op with
  | erase start size => exact if_neg fun he => h (Or.inl he)
  | write start data =>
    simp only [act]
    split
    next hlo =>
      have hlen : data.length ≤ a - start := by
        by_contra hlt
        exact h (Or.inr ⟨hlo, by omega⟩)
      rw [getD_eq_default _ _ hlen]
    next => rfl

/-- An address that none of several operations touches keeps its cell. -/
theorem run_of_not_touches {ops : List (FlashOp α)} (h : ∀ op ∈ ops, ¬ op.Touches sector a)
    (mem : Nat → α) : run sector blank ops mem a = mem a := by
  induction ops generalizing mem with
  | nil => rfl
  | cons op ops ih =>
    rw [run_cons, ih fun op' hop' => h op' (mem_cons_of_mem op hop'),
      act_of_not_touches (h op mem_cons_self)]

/-- What is written is there. -/
theorem act_write (mem : Nat → α) (start : Nat) (data : List α) (i : Nat) :
    act sector blank mem (write start data) (start + i) = data.getD i (mem (start + i)) := by
  simp [act]

theorem act_erase {start size : Nat} (h : (erase start size : FlashOp α).Erases sector a)
    (mem : Nat → α) : act sector blank mem (erase start size) a = blank :=
  if_pos h

/-! ## Erasing before Writing -/

/-- Every cell written lies in a sector that was erased before. -/
def ErasedFirst (sector : Nat) (ops : List (FlashOp α)) : Prop :=
  ∀ l op r, ops = l ++ op :: r → ∀ a, op.Writes a → ∃ op' ∈ l, op'.Erases sector a

@[simp] theorem erasedFirst_nil : ErasedFirst sector ([] : List (FlashOp α)) := by
  intro l op r h
  simp at h

/-- Erasing first is kept where lists are joined. -/
theorem ErasedFirst.append {l r : List (FlashOp α)} (hl : ErasedFirst sector l)
    (hr : ErasedFirst sector r) : ErasedFirst sector (l ++ r) := by
  intro l' op r' heq a ha
  rcases append_eq_append_iff.mp heq with ⟨m, rfl, hm⟩ | ⟨m, rfl, hm⟩
  · obtain ⟨op', hop', he⟩ := hr m op r' hm a ha
    exact ⟨op', mem_append_right l hop', he⟩
  · cases m with
    | nil =>
      obtain ⟨op', hop', -⟩ := hr [] op r' hm.symm a ha
      simp at hop'
    | cons x m =>
      obtain ⟨rfl, -⟩ := cons.inj hm
      exact hl l' op m rfl a ha

theorem ErasedFirst.flatMap {β : Type*} {f : β → List (FlashOp α)} {xs : List β}
    (h : ∀ x ∈ xs, ErasedFirst sector (f x)) : ErasedFirst sector (xs.flatMap f) := by
  induction xs with
  | nil => exact erasedFirst_nil
  | cons x xs ih =>
    exact (h x mem_cons_self).append (ih fun y hy => h y (mem_cons_of_mem x hy))

/-- A range that is erased may be written. -/
theorem ErasedFirst.erase_cons {start size : Nat} {ops : List (FlashOp α)}
    (h : ∀ op ∈ ops, ∀ a, op.Writes a → (erase start size : FlashOp α).Erases sector a) :
    ErasedFirst sector (erase start size :: ops) := by
  intro l op r heq a ha
  cases l with
  | nil =>
    obtain ⟨rfl, -⟩ := cons.inj heq
    exact absurd ha id
  | cons x l =>
    obtain ⟨rfl, rfl⟩ := cons.inj heq
    exact ⟨_, mem_cons_self, h op (by simp) a ha⟩

end FlashOp

/-! ## Parts -/

/-- A division of a memory into parts. -/
structure FlashLayout (ι : Type*) where
  start : ι → Nat
  size : ι → Nat
  disjoint : ∀ i j, i ≠ j → start i + size i ≤ start j ∨ start j + size j ≤ start i

namespace FlashLayout

variable {ι α : Type*} {L : FlashLayout ι} {i j : ι} {a sector : Nat}

/-- An address lies in a part. -/
def Contains (L : FlashLayout ι) (i : ι) (a : Nat) : Prop :=
  L.start i ≤ a ∧ a < L.start i + L.size i

/-- An operation keeps to a part. -/
def Within (L : FlashLayout ι) (sector : Nat) (i : ι) (op : FlashOp α) : Prop :=
  ∀ a, op.Touches sector a → L.Contains i a

/-- An address lies in one part only. -/
theorem Contains.unique (hi : L.Contains i a) (hj : L.Contains j a) : i = j := by
  by_contra hne
  obtain ⟨hi₁, hi₂⟩ := hi
  obtain ⟨hj₁, hj₂⟩ := hj
  rcases L.disjoint i j hne with h | h <;> omega

/-- An operation that keeps to one part does not touch another. -/
theorem Within.not_touches {op : FlashOp α} (h : L.Within sector j op) (hi : L.Contains i a)
    (hne : i ≠ j) : ¬ op.Touches sector a :=
  fun ht => hne (hi.unique (h a ht))

end FlashLayout
