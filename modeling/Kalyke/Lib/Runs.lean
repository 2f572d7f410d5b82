-- SUMMARY: Runs of a system that handles events while its surroundings change its state.
import Mathlib.Data.List.Forall2
import Mathlib.Tactic.Common

/-!
# Runs

A system handles events one after the other, each of which meets a condition in the state it comes
in. Between them the surroundings may change the state in a given way.

Where the events alone change the state, a run is a fold over them, and something can be said of
every event and the state it comes in.

Where an event is a question with its answer, the answers of a run are those of an abstract system
that asks for less of the state.
-/

variable {σ ε : Type*}

/-- A run from a state over some events to a state. -/
inductive EventRun (idle : σ → σ → Prop) (step : σ → ε → σ) (P : σ → ε → Prop) (s : σ) :
    List ε → σ → Prop
  | start : EventRun idle step P s [] s
  | idle {xs : List ε} {t t' : σ} (h : EventRun idle step P s xs t) (ht : idle t t') :
      EventRun idle step P s xs t'
  | event {xs : List ε} {t : σ} (x : ε) (h : EventRun idle step P s xs t) (hx : P t x) :
      EventRun idle step P s (xs ++ [x]) (step t x)

namespace EventRun

open List

variable {idle : σ → σ → Prop} {step : σ → ε → σ} {P : σ → ε → Prop} {s t : σ} {xs : List ε}

/-- What the surroundings and the events keep holds at the end if it does at the start. -/
theorem invariant (h : EventRun idle step P s xs t) {I : σ → Prop} (hs : I s)
    (hidle : ∀ t t', I t → idle t t' → I t') (hstep : ∀ t x, I t → P t x → I (step t x)) : I t := by
  induction h with
  | start => exact hs
  | idle _ ht ih => exact hidle _ _ ih ht
  | event x _ hx ih => exact hstep _ x ih hx

/-- A view of the state that the events change as an abstract system does. -/
theorem simulates (h : EventRun idle step P s xs t) {I : σ → Prop} {α : Type*} (view : σ → α)
    (next : α → ε → α) (hs : I s) (hidle : ∀ t t', I t → idle t t' → I t' ∧ view t' = view t)
    (hstep : ∀ t x, I t → P t x → I (step t x) ∧ view (step t x) = next (view t) x) :
    I t ∧ view t = xs.foldl next (view s) := by
  induction h with
  | start => exact ⟨hs, rfl⟩
  | idle _ ht ih =>
    obtain ⟨hI, hview⟩ := hidle _ _ ih.1 ht
    exact ⟨hI, hview.trans ih.2⟩
  | event x _ hx ih =>
    obtain ⟨hI, hview⟩ := hstep _ x ih.1 hx
    refine ⟨hI, ?_⟩
    rw [hview, ih.2, foldl_append]
    rfl

/-- The first event comes while a view the surroundings keep is as it was at the start. -/
theorem head (h : EventRun idle step P s xs t) {α : Type*} (view : σ → α)
    (hidle : ∀ t t', idle t t' → view t' = view t) :
    (xs = [] → view t = view s) ∧ ∀ x ∈ xs.head?, ∃ u, view u = view s ∧ P u x := by
  induction h with
  | start => simp
  | idle _ ht ih => exact ⟨fun hxs => (hidle _ _ ht).trans (ih.1 hxs), ih.2⟩
  | @event xs t x _ hx ih =>
    refine ⟨by simp, fun y hy => ?_⟩
    cases xs with
    | nil =>
      have hxy : x = y := by simpa using hy
      exact ⟨t, ih.1 rfl, hxy ▸ hx⟩
    | cons z xs => exact ih.2 y (by simpa using hy)

/-- Each event has come in a state in which it meets the condition. -/
theorem mem (h : EventRun idle step P s xs t) : ∀ x ∈ xs, ∃ u, P u x := by
  induction h with
  | start => simp
  | idle _ _ ih => exact ih
  | @event xs t x _ hx ih =>
    intro y hy
    rcases mem_append.mp hy with hy | hy
    · exact ih y hy
    · exact ⟨t, mem_singleton.mp hy ▸ hx⟩

/-- One run behind another. -/
theorem trans {u : σ} {ys : List ε} (h : EventRun idle step P s xs t)
    (h' : EventRun idle step P t ys u) : EventRun idle step P s (xs ++ ys) u := by
  induction h' with
  | start => rwa [append_nil]
  | idle _ ht ih => exact .idle ih ht
  | event x _ hx ih =>
    rw [← append_assoc]
    exact .event x ih hx

end EventRun

/-! ## Questions and Answers -/

section Outputs

variable {ι ο ρ α : Type*}

/-- What a system puts out for some inputs, one after the other. -/
def outputs (next : α → ι → α) (out : α → ι → ο) (a : α) : List ι → List ο
  | [] => []
  | x :: xs => out a x :: outputs next out (next a x) xs

variable {next : α → ι → α} {out : α → ι → ο} {a : α}

theorem outputs_append (xs ys : List ι) :
    outputs next out a (xs ++ ys) =
      outputs next out a xs ++ outputs next out (xs.foldl next a) ys := by
  induction xs generalizing a with
  | nil => rfl
  | cons x xs ih =>
    simp only [List.cons_append, outputs, ih, List.foldl_cons]

variable (next out) in
/-- A system that looks at a part of its input. -/
theorem outputs_map {κ : Type*} (g : κ → ι) (xs : List κ) :
    outputs (fun a x => next a (g x)) (fun a x => out a (g x)) a xs =
      outputs next out a (xs.map g) := by
  induction xs generalizing a with
  | nil => rfl
  | cons x xs ih => simp only [List.map_cons, outputs, ih]

variable (next out) in
/-- An input that changes nothing, given several times. -/
theorem outputs_replicate {x : ι} (h : next a x = a) (n : Nat) :
    outputs next out a (List.replicate n x) = List.replicate n (out a x) ∧
      (List.replicate n x).foldl next a = a := by
  induction n with
  | zero => exact ⟨rfl, rfl⟩
  | succ n ih =>
    simp only [List.replicate_succ, outputs, List.foldl_cons, h, ih, and_self]

variable (next out) in
/-- The answers of a run are those of an abstract system, as far as a relation says. -/
theorem EventRun.answers {idle : σ → σ → Prop} {step : σ → ι → σ} {P : σ → ι × ρ → Prop} {s t : σ}
    {ys : List (ι × ρ)} (h : EventRun idle (fun s y => step s y.1) P s ys t) (view : σ → α)
    (Gives : ι → ο → ρ → Prop) (hidle : ∀ t t', idle t t' → view t' = view t)
    (hstep : ∀ t y, P t y →
      Gives y.1 (out (view t) y.1) y.2 ∧ view (step t y.1) = next (view t) y.1) :
    view t = (ys.map Prod.fst).foldl next (view s) ∧
      List.Forall₂ (fun y o => Gives y.1 o y.2) ys
        (outputs next out (view s) (ys.map Prod.fst)) := by
  induction h with
  | start => exact ⟨rfl, .nil⟩
  | idle _ ht ih => exact ⟨(hidle _ _ ht).trans ih.1, ih.2⟩
  | event y _ hy ih =>
    obtain ⟨hgives, hview⟩ := hstep _ y hy
    rw [ih.1] at hgives hview
    simp only [List.map_append, List.foldl_append, outputs_append]
    exact ⟨hview, List.rel_append ih.2 (.cons hgives .nil)⟩

end Outputs

/-! ## Runs of Events Alone -/

/-- Something holds of each event of a run and the state it comes in. -/
def Each (step : σ → ε → σ) (P : σ → ε → Prop) (s : σ) (xs : List ε) : Prop :=
  ∀ before x after, xs = before ++ x :: after → P (before.foldl step s) x

namespace Each

variable {step : σ → ε → σ} {P Q L : σ → ε → Prop} {s : σ} {x : ε} {xs : List ε}

theorem nil : Each step P s [] := fun before x after h => by simp at h

theorem cons_iff : Each step P s (x :: xs) ↔ P s x ∧ Each step P (step s x) xs := by
  constructor
  · intro h
    refine ⟨h [] x xs rfl, fun before y after hxs => ?_⟩
    exact h (x :: before) y after (by rw [hxs, List.cons_append])
  · rintro ⟨hx, hxs⟩ before y after heq
    cases before with
    | nil =>
      obtain ⟨rfl, -⟩ := List.cons_eq_cons.mp heq
      exact hx
    | cons z before =>
      obtain ⟨rfl, htail⟩ := List.cons_eq_cons.mp heq
      exact hxs before y after htail

/-- Two properties that mean the same in every state of an invariant, which the second keeps. -/
theorem iff_of_invariant {I : σ → Prop} (hs : I s) (hlegal : Each step L s xs)
    (hiff : ∀ s x, I s → L s x → (P s x ↔ Q s x))
    (hstep : ∀ s x, I s → L s x → Q s x → I (step s x)) : Each step P s xs ↔ Each step Q s xs := by
  induction xs generalizing s with
  | nil => exact iff_of_true nil nil
  | cons x xs ih =>
    obtain ⟨hx, hxs⟩ := cons_iff.mp hlegal
    rw [cons_iff, cons_iff, hiff s x hs hx]
    exact and_congr_right fun hq => ih (hstep s x hs hx hq) hxs

/-- A property that holds of every event that meets a condition in a state of an invariant. -/
theorem of_invariant {I : σ → Prop} (hs : I s) (hall : Each step Q s xs)
    (hstep : ∀ s x, I s → Q s x → P s x ∧ I (step s x)) : Each step P s xs := by
  induction xs generalizing s with
  | nil => exact nil
  | cons x xs ih =>
    obtain ⟨hx, hxs⟩ := cons_iff.mp hall
    obtain ⟨hp, hnext⟩ := hstep s x hs hx
    exact cons_iff.mpr ⟨hp, ih hnext hxs⟩

/-- A run that is part of a run of more. -/
theorem view_iff {τ : Type*} {step' : τ → ε → τ} (view : τ → σ)
    (hview : ∀ t x, view (step' t x) = step (view t) x) {t : τ} :
    Each step P (view t) xs ↔ Each step' (fun t x => P (view t) x) t xs := by
  induction xs generalizing t with
  | nil => exact iff_of_true nil nil
  | cons x xs ih => rw [cons_iff, cons_iff, ← hview, ih]

end Each
