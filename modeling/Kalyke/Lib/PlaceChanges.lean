-- SUMMARY: Changes of single places of a state, and when changing two lists of places comes to the same.
import Mathlib.Data.List.Basic
import Mathlib.Tactic.Common

/-!
# Changes of Places

A state is known by what is seen at its places and by the rest. An action changes what is at one
place, in a way that nothing is gained by doing it twice. Which places were changed can be told from
the state only where the change is one: changing two lists of places comes to the same just if each
place is in both of them, in none, or would not have changed.
-/

/-- Actions that change single places. -/
structure ChangesPlaces {σ κ ν ρ : Type*} (view : κ → σ → ν) (rest : σ → ρ) (change : ν → ν)
    (act : κ → σ → σ) : Prop where
  idem : ∀ x, change (change x) = change x
  self : ∀ k s, view k (act k s) = change (view k s)
  other : ∀ j k s, j ≠ k → view j (act k s) = view j s
  keeps : ∀ k s, rest (act k s) = rest s
  ext : ∀ s t, (∀ k, view k t = view k s) → rest t = rest s → t = s

namespace ChangesPlaces

variable {σ κ ν ρ : Type*} {view : κ → σ → ν} {rest : σ → ρ} {change : ν → ν} {act : κ → σ → σ}
variable {ks ls : List κ} {k : κ} {s t : σ}

/-- The actions on a list of places, one after the other. -/
def all (act : κ → σ → σ) (ks : List κ) (s : σ) : σ := ks.foldl (fun s k => act k s) s

/-- The change may be given otherwise where it is the same on what can be seen. -/
theorem congr {change' : ν → ν} (h : ChangesPlaces view rest change act)
    (hidem : ∀ x, change' (change' x) = change' x)
    (hsame : ∀ k s, change' (view k s) = change (view k s)) :
    ChangesPlaces view rest change' act where
  idem := hidem
  self := fun k s => (h.self k s).trans (hsame k s).symm
  other := h.other
  keeps := h.keeps
  ext := h.ext

section

variable (h : ChangesPlaces view rest change act)

include h

theorem rest_all (ks : List κ) (s : σ) : rest (all act ks s) = rest s := by
  induction ks generalizing s with
  | nil => rfl
  | cons j ks ih => exact (ih (act j s)).trans (h.keeps j s)

variable [DecidableEq κ]

/-- What is seen at a place afterwards. -/
theorem view_all (k : κ) (ks : List κ) (s : σ) :
    view k (all act ks s) = if k ∈ ks then change (view k s) else view k s := by
  induction ks generalizing s with
  | nil => rfl
  | cons j ks ih =>
    change view k (all act ks (act j s)) = _
    rw [ih]
    by_cases hj : k = j
    · subst hj
      rw [h.self, h.idem, ite_self, if_pos List.mem_cons_self]
    · rw [h.other k j s hj]
      by_cases hk : k ∈ ks
      · rw [if_pos hk, if_pos (List.mem_cons_of_mem j hk)]
      · rw [if_neg hk, if_neg fun hmem => (List.mem_cons.mp hmem).elim hj hk]

/-- The state afterwards is the one where the places are changed and all else is as it was. -/
theorem eq_all_iff : t = all act ks s ↔
    (∀ k, view k t = if k ∈ ks then change (view k s) else view k s) ∧ rest t = rest s := by
  constructor
  · rintro rfl
    exact ⟨fun k => h.view_all k ks s, h.rest_all ks s⟩
  · rintro ⟨hview, hrest⟩
    refine h.ext _ t (fun k => ?_) ?_
    · rw [hview, h.view_all]
    · rw [hrest, h.rest_all]

theorem all_eq_iff : all act ks s = all act ls s ↔
    ∀ k, (k ∈ ks ↔ k ∈ ls) ∨ change (view k s) = view k s := by
  rw [h.eq_all_iff, and_iff_left (h.rest_all ks s)]
  refine forall_congr' fun k => ?_
  rw [h.view_all]
  by_cases hks : k ∈ ks <;> by_cases hls : k ∈ ls <;> simp [hks, hls, eq_comm]

theorem all_eq_self_iff : all act ks s = s ↔ ∀ k ∈ ks, change (view k s) = view k s := by
  have hall : all act ks s = all act [] s ↔ _ := h.all_eq_iff
  rw [show all act [] s = s from rfl] at hall
  rw [hall]
  refine forall_congr' fun k => ?_
  by_cases hk : k ∈ ks <;> simp [hk]

end

end ChangesPlaces
