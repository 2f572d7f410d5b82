-- SUMMARY: Patches of functions: what a row of them leaves at a place, which is what the last one has there.
import Mathlib.Data.List.Basic
import Mathlib.Tactic.Common

/-!
# Patches

A patch gives new values at some places and leaves the others. After a row of patches a place has
the value of the last patch that gives it one. A state whose steps patch what can be seen of it is
seen through the row of their patches.
-/

/-- New values at some places. -/
abbrev Patch (κ υ : Type*) := κ → Option υ

namespace Patch

open List Option

variable {κ υ σ ε : Type*} {p : Patch κ υ} {ps : List (Patch κ υ)} {f : κ → υ} {k : κ} {v : υ}

/-- The function with the new values. -/
def apply (p : Patch κ υ) (f : κ → υ) : κ → υ := fun k => (p k).getD (f k)

/-- The patches one after the other. -/
def run (ps : List (Patch κ υ)) (f : κ → υ) : κ → υ := ps.foldl (fun f p => p.apply f) f

@[simp] theorem run_cons (p : Patch κ υ) (ps : List (Patch κ υ)) (f : κ → υ) :
    run (p :: ps) f = run ps (p.apply f) := rfl

theorem run_append (l r : List (Patch κ υ)) (f : κ → υ) : run (l ++ r) f = run r (run l f) :=
  foldl_append

theorem apply_of_some (h : p k = some v) : p.apply f k = v := by rw [apply, h, getD_some]

theorem apply_of_none (h : p k = none) : p.apply f k = f k := by rw [apply, h, getD_none]

/-- A place without a new value keeps its own. -/
theorem run_of_none (h : ∀ p ∈ ps, p k = none) : run ps f k = f k := by
  induction ps generalizing f with
  | nil => rfl
  | cons p ps ih =>
    rw [run_cons, ih fun q hq => h q (mem_cons_of_mem p hq)]
    exact apply_of_none (h p mem_cons_self)

/-- The last new value stays. -/
theorem run_last {patch : ε → Patch κ υ} {l r : List ε} {e : ε} (he : patch e k = some v)
    (hr : ∀ e' ∈ r, patch e' k = none) : run ((l ++ e :: r).map patch) f k = v := by
  have hlater : ∀ p ∈ r.map patch, p k = none := List.forall_mem_map.mpr hr
  rw [map_append, map_cons, run_append, run_cons, run_of_none hlater, apply_of_some he]

/-- Of patches that do not meet, each stays. -/
theorem run_apart {patch : ε → Patch κ υ} {es : List ε} {e : ε}
    (hapart : es.Pairwise fun e e' => ∀ k, patch e k ≠ none → patch e' k = none) (hmem : e ∈ es)
    (he : patch e k = some v) : run (es.map patch) f k = v := by
  obtain ⟨l, r, rfl⟩ := append_of_mem hmem
  refine run_last he fun e' he' => ?_
  have hcons := (pairwise_append.mp hapart).2.1
  refine (pairwise_cons.mp hcons).1 e' he' k ?_
  rw [he]
  exact some_ne_none v

/-- Of some things with patches none gives a place a new value, or there is a last one. -/
theorem none_or_last (patch : ε → Patch κ υ) (es : List ε) (k : κ) :
    (∀ e ∈ es, patch e k = none) ∨
      ∃ l e r v, es = l ++ e :: r ∧ patch e k = some v ∧ ∀ e' ∈ r, patch e' k = none := by
  induction es with
  | nil => exact .inl fun e he => by cases he
  | cons e es ih =>
    rcases ih with hnone | ⟨l, e', r, v, rfl, he', hr⟩
    · cases he : patch e k with
      | none => exact .inl (forall_mem_cons.mpr ⟨he, hnone⟩)
      | some v => exact .inr ⟨[], e, es, v, rfl, he, hnone⟩
    · exact .inr ⟨e :: l, e', r, v, rfl, he', hr⟩

/-- Steps that patch what is seen of a state. -/
theorem view_foldl {step : σ → ε → σ} (view : σ → κ → υ) (patch : ε → Patch κ υ) {es : List ε}
    (h : ∀ e ∈ es, ∀ s, view (step s e) = (patch e).apply (view s)) (s : σ) :
    view (es.foldl step s) = run (es.map patch) (view s) := by
  induction es generalizing s with
  | nil => rfl
  | cons e es ih =>
    rw [foldl_cons, ih fun e' he' => h e' (mem_cons_of_mem e he'),
      h e mem_cons_self, map_cons, run_cons]

def andThen (p q : Patch κ υ) : Patch κ υ := fun k => (q k).or (p k)

theorem andThen_apply (p q : Patch κ υ) (f : κ → υ) :
    (p.andThen q).apply f = q.apply (p.apply f) := by
  funext k
  rw [apply, andThen, apply]
  cases q k <;> rfl

end Patch
