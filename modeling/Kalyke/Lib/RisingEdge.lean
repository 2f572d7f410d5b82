-- SUMMARY: Runs of events in which something happens at most once per rising edge of a level.
import Kalyke.Lib.Runs

/-!
# Once per Rising Edge

Each event shows a level, and some events fire. A run fires at most once per rising edge if between
two events that fire there is one with a low level. What is shown of a system is less: firing blocks
it, and at a high level a blocked system does not fire and stays blocked.
-/

variable {σ ε : Type*} {high fires : ε → Bool} {xs : List ε} {x : ε}

/-- Between two events that fire the level is low at least once. -/
def OncePerEdge (high fires : ε → Bool) (xs : List ε) : Prop :=
  ∀ before x between y after, xs = before ++ x :: (between ++ y :: after) →
    fires x = true → fires y = true → ∃ z ∈ between, high z = false

/-- An event has fired since the level was last low. -/
def Spent (high fires : ε → Bool) (xs : List ε) : Prop :=
  ∃ before x since, xs = before ++ x :: since ∧ fires x = true ∧ ∀ z ∈ since, high z = true

namespace OncePerEdge

open List

theorem nil : OncePerEdge high fires [] := fun before x between y after h => by simp at h

theorem not_spent_nil : ¬ Spent high fires [] := by
  rintro ⟨before, x, since, h, -⟩
  simp at h

/-- What a further event does to the account. -/
theorem spent_snoc (h : Spent high fires (xs ++ [x])) :
    fires x = true ∨ Spent high fires xs ∧ high x = true := by
  obtain ⟨before, y, since, heq, hy, hsince⟩ := h
  rcases eq_nil_or_concat since with rfl | ⟨since, z, rfl⟩
  · obtain ⟨-, hxy⟩ := append_inj' heq rfl
    obtain rfl : x = y := by simpa using hxy
    exact .inl hy
  · have heq' : xs ++ [x] = (before ++ y :: since) ++ [z] := by simpa using heq
    obtain ⟨rfl, hxz⟩ := append_inj' heq' rfl
    obtain rfl : x = z := by simpa using hxz
    refine .inr ⟨⟨before, y, since, rfl, hy, fun w hw => hsince w ?_⟩, hsince x (by simp)⟩
    simp [hw]

theorem snoc (h : OncePerEdge high fires xs) (hx : fires x = true → ¬ Spent high fires xs) :
    OncePerEdge high fires (xs ++ [x]) := by
  intro before y between z after heq hy hz
  rcases eq_nil_or_concat after with rfl | ⟨after, w, rfl⟩
  · have heq' : xs ++ [x] = (before ++ y :: between) ++ [z] := by simpa using heq
    obtain ⟨rfl, hxz⟩ := append_inj' heq' rfl
    obtain rfl : x = z := by simpa using hxz
    by_contra hlow
    have hhigh : ∀ w ∈ between, high w = true := by
      intro w hw
      by_contra hlow'
      exact hlow ⟨w, hw, by simpa using hlow'⟩
    exact hx hz ⟨before, y, between, rfl, hy, hhigh⟩
  · have heq' : xs ++ [x] = (before ++ y :: (between ++ z :: after)) ++ [w] := by simpa using heq
    obtain ⟨rfl, -⟩ := append_inj' heq' rfl
    exact h before y between z after rfl hy hz

end OncePerEdge

theorem EventRun.oncePerEdge {idle : σ → σ → Prop} {step : σ → ε → σ} {P : σ → ε → Prop} {s t : σ}
    (h : EventRun idle step P s xs t) (Blocked : σ → Prop)
    (hidle : ∀ t t', Blocked t → idle t t' → Blocked t')
    (hfires : ∀ t x, P t x → fires x = true → Blocked (step t x))
    (hhigh : ∀ t x, P t x → Blocked t → high x = true → fires x = false ∧ Blocked (step t x))
    (hlevel : ∀ t x, P t x → fires x = true → high x = true) :
    (Spent high fires xs → Blocked t) ∧ OncePerEdge high fires xs := by
  induction h with
  | start => exact ⟨fun h => absurd h OncePerEdge.not_spent_nil, OncePerEdge.nil⟩
  | idle _ ht ih => exact ⟨fun h => hidle _ _ (ih.1 h) ht, ih.2⟩
  | event x _ hx ih =>
    refine ⟨fun hspent => ?_, ih.2.snoc fun hf hspent => ?_⟩
    · rcases OncePerEdge.spent_snoc hspent with hf | ⟨hspent, hh⟩
      · exact hfires _ x hx hf
      · exact (hhigh _ x hx (ih.1 hspent) hh).2
    · have hoff := (hhigh _ x hx (ih.1 hspent) (hlevel _ x hx hf)).1
      rw [hf] at hoff
      cases hoff
