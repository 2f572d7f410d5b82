-- SUMMARY: Deterministic loops: what they reach, what they return, and rules for termination.
import Mathlib.Logic.Relation
import Mathlib.Tactic.Common

/-!
# While Loops

A loop is given by one pass over its body, which either goes on with a new state or leaves with a
result. The rules below reduce a statement about the whole loop to one about a single pass: an
invariant for what is reached, a measure for termination, and a trap for the loops that never end.
-/

/-- One pass over a loop's body: a new state to go on with, or the result the loop leaves with. -/
abbrev WhileLoop (σ ρ : Type*) := σ → σ ⊕ ρ

namespace WhileLoop

variable {σ ρ : Type*} {f : WhileLoop σ ρ} {s s' t : σ} {r : ρ}

def Step (f : WhileLoop σ ρ) (s s' : σ) : Prop := f s = .inl s'

/-- The loop comes to `s'` when started in `s`. -/
abbrev Reaches (f : WhileLoop σ ρ) : σ → σ → Prop := Relation.ReflTransGen (Step f)

/-- Run the loop for at most `n` passes. -/
def run (f : WhileLoop σ ρ) : Nat → σ → Option ρ
  | 0, _ => none
  | n + 1, s =>
    match f s with
    | .inl s' => run f n s'
    | .inr r => some r

/-- The loop leaves with `r` when started in `s`. -/
def Returns (f : WhileLoop σ ρ) (s : σ) (r : ρ) : Prop := ∃ n, run f n s = some r

/-- The loop ends when started in `s`. -/
def Terminates (f : WhileLoop σ ρ) (s : σ) : Prop := ∃ r, Returns f s r

theorem run_of_le {m n : Nat} (h : run f n s = some r) (hle : n ≤ m) : run f m s = some r := by
  induction n generalizing m s with
  | zero => cases h
  | succ n ih =>
    obtain ⟨m, rfl⟩ := Nat.exists_eq_add_of_le' (Nat.le_trans (Nat.succ_pos n) hle)
    rw [run] at h ⊢
    cases hs : f s with
    | inl s' =>
      rw [hs] at h
      exact ih h (Nat.le_of_succ_le_succ hle)
    | inr r' =>
      rw [hs] at h
      exact h

/-- A loop leaves with one result. -/
theorem Returns.unique {r' : ρ} (h : Returns f s r) (h' : Returns f s r') : r = r' := by
  obtain ⟨n, hn⟩ := h
  obtain ⟨m, hm⟩ := h'
  exact Option.some.inj
    ((run_of_le hn (Nat.le_max_left n m)).symm.trans (run_of_le hm (Nat.le_max_right n m)))

theorem returns_of_exit (h : f s = .inr r) : Returns f s r :=
  ⟨1, by simp [run, h]⟩

theorem returns_iff_of_step (h : Step f s s') : Returns f s r ↔ Returns f s' r := by
  have hrun : ∀ n, run f (n + 1) s = run f n s' := fun n => by rw [run, h]
  constructor
  · rintro ⟨n, hn⟩
    cases n with
    | zero => simp [run] at hn
    | succ n => exact ⟨n, by rw [← hrun, hn]⟩
  · rintro ⟨n, hn⟩
    exact ⟨n + 1, by rw [hrun, hn]⟩

theorem returns_iff_of_reaches (h : Reaches f s t) : Returns f s r ↔ Returns f t r := by
  induction h with
  | refl => exact Iff.rfl
  | tail _ hstep ih => exact ih.trans (returns_iff_of_step hstep)

/-- A result is what some state reached leaves with. -/
theorem returns_iff : Returns f s r ↔ ∃ t, Reaches f s t ∧ f t = .inr r := by
  constructor
  · rintro ⟨n, hn⟩
    induction n generalizing s with
    | zero => simp [run] at hn
    | succ n ih =>
      cases hs : f s with
      | inl s' =>
        obtain ⟨t, hreach, hexit⟩ := ih (s := s') (by simpa [run, hs] using hn)
        exact ⟨t, .head hs hreach, hexit⟩
      | inr r' =>
        have hr : r' = r := by simpa [run, hs] using hn
        exact ⟨s, .refl, by rw [hs, hr]⟩
  · rintro ⟨t, hreach, hexit⟩
    exact (returns_iff_of_reaches hreach).mpr (returns_of_exit hexit)

/-- What one pass preserves holds of every state the loop comes to. -/
theorem Reaches.invariant {I : σ → Prop} (hstep : ∀ a b, I a → Step f a b → I b)
    (hreach : Reaches f s t) (hs : I s) : I t := by
  induction hreach with
  | refl => exact hs
  | tail _ hlast ih => exact hstep _ _ ih hlast

/-- Where every pass from a state reached lowers a measure, the loop leaves in no more passes. -/
theorem run_of_measure (m : σ → Nat) (hdec : ∀ a b, Reaches f s a → Step f a b → m b < m a)
    {n : Nat} (hn : m s < n) : ∃ r, run f n s = some r := by
  induction n generalizing s with
  | zero => exact absurd hn (Nat.not_lt_zero _)
  | succ n ih =>
    cases hs : f s with
    | inr r => exact ⟨r, by rw [run, hs]⟩
    | inl b =>
      have hlt := hdec s b .refl hs
      obtain ⟨r, hr⟩ := ih (fun a c ha => hdec a c (.head hs ha)) (by omega)
      exact ⟨r, by rw [run, hs]; exact hr⟩

/-- A loop ends when every pass from a state reached lowers a measure. -/
theorem terminates_of_measure (m : σ → Nat)
    (hdec : ∀ a b, Reaches f s a → Step f a b → m b < m a) : Terminates f s := by
  obtain ⟨r, hr⟩ := run_of_measure m hdec (Nat.lt_succ_self _)
  exact ⟨r, _, hr⟩

/-- A loop that comes into a set of states it cannot leave never ends. -/
theorem not_terminates_of_trap {T : σ → Prop} (htrap : ∀ a, T a → ∃ b, Step f a b ∧ T b)
    (hreach : Reaches f s t) (ht : T t) : ¬ Terminates f s := by
  rintro ⟨r, hr⟩
  obtain ⟨a, ha, hexit⟩ := returns_iff.mp ((returns_iff_of_reaches hreach).mp hr)
  have htrapped : T a := by
    refine Reaches.invariant (fun b c hb hstep => ?_) ha ht
    obtain ⟨d, hd, hd'⟩ := htrap b hb
    have hcd : c = d := Sum.inl.inj (hstep.symm.trans hd)
    exact hcd ▸ hd'
  obtain ⟨b, hb, -⟩ := htrap a htrapped
  exact absurd (hexit.symm.trans hb) (by simp)

end WhileLoop
