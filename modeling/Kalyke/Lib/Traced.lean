-- SUMMARY: Computations that note what they do and may give up, and rules for what they note.
import Mathlib.Data.List.Basic
import Mathlib.Data.Nat.Find
import Mathlib.Tactic.Common

/-!
# Traced Computations

A traced computation has a list of notes, one for each thing it has done, and a result unless it has
given up. Every note satisfies a predicate just if those of its parts do, so what is noted is read
off one part after the other, with a loop as a sequence of equal parts.
-/

/-- What a computation has noted, and its result unless it has given up. -/
structure Traced (τ α : Type) where
  notes : List τ
  result : Option α

namespace Traced

open List

variable {τ σ α β : Type} {P : τ → Prop} {Q R : α → Prop} {x : Traced τ α} {f : α → Traced τ β}

/-- Do one thing. -/
def note (t : τ) : Traced τ Unit := ⟨[t], some ()⟩

def giveUp : Traced τ α := ⟨[], none⟩

/-- Go on with the result, if there is one. -/
def andThen (x : Traced τ α) (f : α → Traced τ β) : Traced τ β :=
  match x.result with
  | some a => ⟨x.notes ++ (f a).notes, (f a).result⟩
  | none => ⟨x.notes, none⟩

instance : Monad (Traced τ) where
  pure a := ⟨[], some a⟩
  bind := andThen

/-- Run `f` for `n` indices from `i` on. -/
def loopFrom (f : Nat → σ → Traced τ σ) (i : Nat) : Nat → σ → Traced τ σ
  | 0, s => pure s
  | n + 1, s => f i s >>= loopFrom f (i + 1) n

/-- Run `f` for the indices below `n`. -/
def loop (f : Nat → σ → Traced τ σ) (n : Nat) (s : σ) : Traced τ σ := loopFrom f 0 n s

/-- Every note satisfies `P`, and the result, if there is one, satisfies `Q`. -/
structure Sat (P : τ → Prop) (x : Traced τ α) (Q : α → Prop) : Prop where
  notes : ∀ t ∈ x.notes, P t
  result : ∀ a, x.result = some a → Q a

/-! ## Rules -/

@[simp] theorem sat_pure {a : α} : Sat P (pure a) Q ↔ Q a := by
  constructor
  · intro h
    exact h.result a rfl
  · intro h
    refine ⟨(fun t ht => by cases ht), fun b hb => ?_⟩
    cases hb
    exact h

@[simp] theorem sat_note {t : τ} {Q : Unit → Prop} : Sat P (note t) Q ↔ P t ∧ Q () := by
  constructor
  · intro h
    exact ⟨h.notes t mem_cons_self, h.result () rfl⟩
  · rintro ⟨ht, hQ⟩
    refine ⟨fun t' ht' => ?_, fun _ _ => hQ⟩
    rw [mem_singleton.mp ht']
    exact ht

@[simp] theorem sat_giveUp : Sat P (giveUp : Traced τ α) Q ↔ True :=
  iff_of_true ⟨(fun t ht => by cases ht), fun a ha => by cases ha⟩ trivial

@[simp] theorem sat_bind {Q : β → Prop} :
    Sat P (x >>= f) Q ↔ Sat P x fun a => Sat P (f a) Q := by
  obtain ⟨notes, result⟩ := x
  cases result with
  | none =>
    constructor
    · intro h
      exact ⟨h.notes, fun a ha => by cases ha⟩
    · intro h
      exact ⟨h.notes, fun b hb => by cases hb⟩
  | some a =>
    constructor
    · intro h
      refine ⟨fun t ht => h.notes t (mem_append_left _ ht), fun b hb => ?_⟩
      cases hb
      exact ⟨fun t ht => h.notes t (mem_append_right _ ht), h.result⟩
    · intro h
      have hrest := h.result a rfl
      refine ⟨fun t ht => ?_, hrest.result⟩
      exact (mem_append.mp ht).elim (h.notes t) (hrest.notes t)

theorem sat_ite {c : Prop} [Decidable c] {x y : Traced τ α} :
    Sat P (if c then x else y) Q ↔ (c → Sat P x Q) ∧ (¬ c → Sat P y Q) := by
  split <;> rename_i h
  · simp [h]
  · simp [h]

/-- Where the round `i` that starts at `s i` notes what it should just if `C i`, and goes on to
`s (i + 1)` just if `G i`, a loop does so for every round it comes to. -/
theorem sat_loop {g : Nat → σ → Traced τ σ} {s : Nat → σ} {C G : Nat → Prop} {n : Nat}
    {Q : σ → Prop}
    (hround : ∀ i < n, ∀ Q : σ → Prop,
      Sat P (g i (s i)) Q ↔ C i ∧ (G i → Q (s (i + 1)))) :
    Sat P (loop g n (s 0)) Q ↔
      (∀ i < n, (∀ j < i, G j) → C i) ∧ ((∀ j < n, G j) → Q (s n)) := by
  suffices h : ∀ k i, i + k = n → (Sat P (loopFrom g i k (s i)) Q ↔
      (∀ j, i ≤ j → j < n → (∀ l, i ≤ l → l < j → G l) → C j) ∧
        ((∀ l, i ≤ l → l < n → G l) → Q (s n))) by
    simpa [loop] using h n 0 (Nat.zero_add n)
  intro k
  induction k with
  | zero =>
    intro i hi
    have hi : i = n := by omega
    subst hi
    constructor
    · intro h
      exact ⟨fun j hj hlt => absurd hlt (by omega), fun _ => sat_pure.mp h⟩
    · intro h
      exact sat_pure.mpr (h.2 fun l hl hlt => absurd hlt (by omega))
  | succ k ih =>
    intro i hi
    show Sat P (g i (s i) >>= loopFrom g (i + 1) k) Q ↔ _
    rw [sat_bind, hround i (by omega), ih (i + 1) (by omega)]
    constructor
    · rintro ⟨hC, hrest⟩
      refine ⟨fun j hj hlt hG => ?_, fun hG => ?_⟩
      · rcases Nat.eq_or_lt_of_le hj with rfl | hj
        · exact hC
        · exact (hrest (hG i (Nat.le_refl i) hj)).1 j hj hlt fun l hl => hG l (by omega)
      · exact (hrest (hG i (Nat.le_refl i) (by omega))).2 fun l hl => hG l (by omega)
    · rintro ⟨hC, hQ⟩
      refine ⟨hC i (Nat.le_refl i) (by omega) fun l hl hlt => absurd hlt (by omega), fun hGi => ?_⟩
      have hcons (j : Nat) (hG : ∀ l, i + 1 ≤ l → l < j → G l) : ∀ l, i ≤ l → l < j → G l := by
        intro l hl hlt
        rcases Nat.eq_or_lt_of_le hl with rfl | hl
        · exact hGi
        · exact hG l hl hlt
      exact ⟨fun j hj hlt hG => hC j (by omega) hlt (hcons j hG), fun hG => hQ (hcons n hG)⟩

/-- A loop none of whose rounds gives up. -/
theorem sat_loop_forall {g : Nat → σ → Traced τ σ} {s : Nat → σ} {C : Nat → Prop} {n : Nat}
    {Q : σ → Prop}
    (hround : ∀ i < n, ∀ Q : σ → Prop, Sat P (g i (s i)) Q ↔ C i ∧ Q (s (i + 1))) :
    Sat P (loop g n (s 0)) Q ↔ (∀ i < n, C i) ∧ Q (s n) := by
  rw [sat_loop (G := fun _ => True) fun i hi Q => by rw [hround i hi, true_imp_iff]]
  simp only [implies_true, true_imp_iff]

/-! ## Results -/

@[simp] theorem result_pure {a : α} : (pure a : Traced τ α).result = some a := rfl

@[simp] theorem result_note {t : τ} : (note t).result = some () := rfl

@[simp] theorem result_giveUp : (giveUp : Traced τ α).result = none := rfl

@[simp] theorem result_bind : (x >>= f).result = x.result.bind fun a => (f a).result := by
  obtain ⟨notes, result⟩ := x
  cases result <;> rfl

@[simp] theorem notes_pure {a : α} : (pure a : Traced τ α).notes = [] := rfl

@[simp] theorem notes_bind :
    (x >>= f).notes = x.notes ++ x.result.elim [] fun a => (f a).notes := by
  obtain ⟨notes, result⟩ := x
  cases result with
  | none => exact (append_nil notes).symm
  | some a => rfl

section

variable {g : Nat → σ → Traced τ σ} {s : Nat → σ} {t : σ} {i n : Nat}

theorem loopFrom_result (h : ∀ j, i ≤ j → j < i + n → (g j (s j)).result = some (s (j + 1))) :
    (loopFrom g i n (s i)).result = some (s (i + n)) := by
  induction n generalizing i with
  | zero => rfl
  | succ n ih =>
    show (g i (s i) >>= loopFrom g (i + 1) n).result = _
    rw [result_bind, h i (Nat.le_refl i) (by omega), Option.bind_some,
      ih fun j hj hlt => h j (by omega) (by omega), Nat.add_right_comm]
    rfl

/-- A loop none of whose rounds gives up comes to its last state. -/
theorem loop_result (h : ∀ j < n, (g j (s j)).result = some (s (j + 1))) :
    (loop g n (s 0)).result = some (s n) := by
  have hfrom := loopFrom_result (g := g) (s := s) (i := 0) (n := n) fun j _ hlt => h j (by omega)
  rwa [Nat.zero_add] at hfrom

/-- A loop none of whose rounds gives up notes what they note. -/
theorem loop_notes (h : ∀ j < n, (g j (s j)).result = some (s (j + 1))) :
    (loop g n (s 0)).notes = (range n).flatMap fun j => (g j (s j)).notes := by
  suffices hfrom : ∀ n i, (∀ j, i ≤ j → j < i + n → (g j (s j)).result = some (s (j + 1))) →
      (loopFrom g i n (s i)).notes = (range' i n).flatMap fun j => (g j (s j)).notes by
    rw [range_eq_range']
    exact hfrom n 0 fun j _ hlt => h j (by omega)
  intro n
  induction n with
  | zero => exact fun i _ => rfl
  | succ n ih =>
    intro i h
    show (g i (s i) >>= loopFrom g (i + 1) n).notes = _
    rw [notes_bind, h i (Nat.le_refl i) (by omega), range'_succ, flatMap_cons]
    exact congrArg _ (ih (i + 1) fun j hj hlt => h j (by omega) (by omega))

/-- A loop gives up with the first round that does. -/
theorem loop_gives_up {m : Nat} (hm : m < n)
    (h : ∀ j < m, (g j (s j)).result = some (s (j + 1))) (hnone : (g m (s m)).result = none) :
    (loop g n (s 0)).result = none := by
  suffices hfrom : ∀ n i, i ≤ m → m < i + n → (loopFrom g i n (s i)).result = none from
    hfrom n 0 (Nat.zero_le m) (by omega)
  intro n
  induction n with
  | zero => exact fun i hi hlt => absurd hlt (by omega)
  | succ n ih =>
    intro i hi hlt
    show (g i (s i) >>= loopFrom g (i + 1) n).result = none
    rw [result_bind]
    rcases Nat.eq_or_lt_of_le hi with rfl | hi
    · rw [hnone]
      rfl
    · rw [h i hi]
      exact ih (i + 1) hi (by omega)

/-- Where a round gives up just if `G` fails, so does the loop. -/
theorem loop_gives_up_of {G : Nat → Prop} (hok : ∀ j < n, G j → (g j (s j)).result = some (s (j + 1)))
    (hno : ∀ j < n, ¬ G j → (g j (s j)).result = none) (h : ¬ ∀ j < n, G j) :
    (loop g n (s 0)).result = none := by
  classical
  have hex : ∃ j, j < n ∧ ¬ G j := by
    by_contra hall
    exact h fun j hj => by_contra fun hG => hall ⟨j, hj, hG⟩
  obtain ⟨hlt, hfails⟩ := Nat.find_spec hex
  refine loop_gives_up hlt (fun j hj => hok j (by omega) ?_) (hno _ hlt hfails)
  by_contra hG
  exact Nat.find_min hex hj ⟨by omega, hG⟩

/-- A loop whose rounds never give up does not either. -/
theorem loop_returns (h : ∀ i t, (g i t).result.isSome = true) : (loop g n t).result.isSome = true := by
  suffices hfrom : ∀ n i t, (loopFrom g i n t).result.isSome = true from hfrom n 0 t
  intro n
  induction n with
  | zero => exact fun _ _ => rfl
  | succ n ih =>
    intro i t
    show (g i t >>= loopFrom g (i + 1) n).result.isSome = true
    obtain ⟨t', ht'⟩ := Option.isSome_iff_exists.mp (h i t)
    rw [result_bind, ht']
    exact ih (i + 1) t'

end

end Traced
