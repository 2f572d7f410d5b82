-- SUMMARY: Sequences of writes to the cells of a state: what is read back, and when nothing changes.
import Mathlib.Data.List.Basic
import Mathlib.Tactic.Common

/-!
# Writes

A write gives one cell of a state a value and leaves the others. Of several writes to one cell the
last decides, so a sequence changes nothing just if the last write to each cell writes what is
there.
-/

variable {σ κ υ : Type*}

/-- A write to one of the cells that `read` tells apart. -/
structure CellWrite (read : σ → κ → υ) where
  key : κ
  value : υ
  act : σ → σ
  read_self (s : σ) : read (act s) key = value
  read_other (s : σ) (k : κ) : k ≠ key → read (act s) k = read s k

namespace CellWrite

open List

variable {read : σ → κ → υ} {ws l r : List (CellWrite read)} {w : CellWrite read} {k : κ} {s : σ}

/-- The writes one after the other. -/
def run (ws : List (CellWrite read)) (s : σ) : σ := ws.foldl (fun s w => w.act s) s

@[simp] theorem run_nil (s : σ) : run ([] : List (CellWrite read)) s = s := rfl

@[simp] theorem run_cons (w : CellWrite read) (ws : List (CellWrite read)) (s : σ) :
    run (w :: ws) s = run ws (w.act s) := rfl

theorem run_append (l r : List (CellWrite read)) (s : σ) : run (l ++ r) s = run r (run l s) :=
  foldl_append

/-- A cell that is not written keeps its value. -/
theorem read_run_of_forall_ne (h : ∀ w ∈ ws, k ≠ w.key) (s : σ) :
    read (run ws s) k = read s k := by
  induction ws generalizing s with
  | nil => rfl
  | cons w ws ih =>
    rw [run_cons, ih fun w' hw' => h w' (mem_cons_of_mem w hw')]
    exact w.read_other s k (h w mem_cons_self)

/-- The last write to a cell decides. -/
theorem read_run_last (h : ∀ w' ∈ r, w.key ≠ w'.key) (s : σ) :
    read (run (l ++ w :: r) s) w.key = w.value := by
  rw [run_append, run_cons, read_run_of_forall_ne h, w.read_self]

/-- Where no cell is written twice, every write is read back. -/
theorem read_run_of_pairwise (h : ws.Pairwise fun w w' => w.key ≠ w'.key) (hw : w ∈ ws) (s : σ) :
    read (run ws s) w.key = w.value := by
  obtain ⟨l, r, rfl⟩ := append_of_mem hw
  exact read_run_last (pairwise_cons.mp (pairwise_append.mp h).2.1).1 s

/-- The last write to each cell writes what is there. -/
def Settled (s : σ) (ws : List (CellWrite read)) : Prop :=
  ∀ l w r, ws = l ++ w :: r → (∀ w' ∈ r, w.key ≠ w'.key) → read s w.key = w.value

/-- Writes that are given by `f` are settled just if they are one by one. -/
theorem settled_map_iff {β : Type*} (f : β → CellWrite read) {xs : List β} :
    Settled s (xs.map f) ↔ ∀ l x r, xs = l ++ x :: r →
      (∀ x' ∈ r, (f x).key ≠ (f x').key) → read s (f x).key = (f x).value := by
  constructor
  · rintro h l x r rfl hlast
    refine h (l.map f) (f x) (r.map f) (by simp) fun w' hw' => ?_
    obtain ⟨x', hx', rfl⟩ := mem_map.mp hw'
    exact hlast x' hx'
  · intro h l w r heq hlast
    obtain ⟨l', r', rfl, rfl, htail⟩ := map_eq_append_iff.mp heq
    obtain ⟨x, r'', rfl, rfl, rfl⟩ := map_eq_cons_iff.mp htail
    exact h l' x r'' rfl fun x' hx' => hlast _ (mem_map_of_mem hx')

/-- A cell that is written is written last by some write. -/
theorem exists_last (h : ∃ w ∈ ws, k = w.key) :
    ∃ l w r, ws = l ++ w :: r ∧ k = w.key ∧ ∀ w' ∈ r, k ≠ w'.key := by
  induction ws with
  | nil =>
    obtain ⟨w, hw, -⟩ := h
    cases hw
  | cons v ws ih =>
    by_cases hlater : ∃ w ∈ ws, k = w.key
    · obtain ⟨l, w, r, rfl, hk, hr⟩ := ih hlater
      exact ⟨v :: l, w, r, rfl, hk, hr⟩
    · obtain ⟨w, hw, hk⟩ := h
      rcases mem_cons.mp hw with rfl | hw
      · exact ⟨[], w, ws, rfl, hk, fun w' hw' hk' => hlater ⟨w', hw', hk'⟩⟩
      · exact absurd ⟨w, hw, hk⟩ hlater

/-- The writes change nothing just if the last to each cell writes what is there. -/
theorem reads_run_iff : (∀ k, read (run ws s) k = read s k) ↔ Settled s ws := by
  constructor
  · rintro h l w r rfl hlast
    rw [← h, read_run_last hlast]
  · intro h k
    by_cases hk : ∃ w ∈ ws, k = w.key
    · obtain ⟨l, w, r, rfl, rfl, hlast⟩ := exists_last hk
      rw [read_run_last hlast, h l w r rfl hlast]
    · exact read_run_of_forall_ne (fun w hw hkey => hk ⟨w, hw, hkey⟩) s

/-- Writes that are done are settled. -/
theorem settled_run (ws : List (CellWrite read)) (s : σ) : Settled (run ws s) ws := by
  rintro l w r rfl hlast
  exact read_run_last hlast s

end CellWrite
