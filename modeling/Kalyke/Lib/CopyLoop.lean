-- SUMMARY: Loops that copy one value after the other, and when every place gets what it is to get.
import Mathlib.Data.List.Basic
import Mathlib.Data.List.Nodup
import Mathlib.Logic.Function.Basic
import Mathlib.Tactic.Common

/-!
# Copy Loops

A loop copies values to places one after the other. A value is taken when its turn comes, so that it
may hang on what the loop has written, and perhaps it cannot be had. What a place can hold of a
value is given. If no place is written twice, every place gets what it is to get just if every value
is right where the places before it are. So a block may be shifted in place if the loop begins at
the end that the block moves to.
-/

/-- A copy: the value as the places say when it is taken, if it can be had, and the place it is
for. -/
abbrev Copy (κ υ : Type*) := ((κ → υ) → Option υ) × κ

variable {κ υ : Type*} [DecidableEq κ] {kept : υ → υ} {f g h : κ → υ} {cs : List (Copy κ υ)}
variable {c : Copy κ υ} {k : κ}

/-- The places after the copies, if all values can be had. -/
def copyAll (kept : υ → υ) : List (Copy κ υ) → (κ → υ) → Option (κ → υ)
  | [], f => some f
  | c :: cs, f => (c.1 f).bind fun v => copyAll kept cs (Function.update f c.2 (kept v))

/-- Its place gets the value that it is to get. -/
def Copy.Right (kept : υ → υ) (g f : κ → υ) (c : Copy κ υ) : Prop :=
  ∃ v, c.1 f = some v ∧ kept v = g c.2

/-- Every value is right where the places before it are. -/
def CopiesRight (kept : υ → υ) (g : κ → υ) : List (Copy κ υ) → (κ → υ) → Prop
  | [], _ => True
  | c :: cs, f => c.Right kept g f ∧ CopiesRight kept g cs (Function.update f c.2 (g c.2))

/-- Places that are not written stay as they are. -/
theorem copyAll_of_notMem (hrun : copyAll kept cs f = some h) (hk : k ∉ cs.map Prod.snd) :
    h k = f k := by
  induction cs generalizing f with
  | nil =>
    cases hrun
    rfl
  | cons c cs ih =>
    obtain ⟨v, -, hrest⟩ := Option.bind_eq_some_iff.mp hrun
    rw [List.map_cons, List.mem_cons, not_or] at hk
    rw [ih hrest hk.2, Function.update_of_ne hk.1]

/-- If no place is written twice, all of them are right just if all copies are. -/
theorem copyAll_right_iff (hplaces : (cs.map Prod.snd).Nodup) :
    (∃ h, copyAll kept cs f = some h ∧ ∀ c ∈ cs, h c.2 = g c.2) ↔ CopiesRight kept g cs f := by
  induction cs generalizing f with
  | nil => exact iff_of_true ⟨f, rfl, fun c hc => nomatch hc⟩ trivial
  | cons c cs ih =>
    obtain ⟨hc, hcs⟩ := List.nodup_cons.mp hplaces
    constructor
    · rintro ⟨h, hrun, hg⟩
      obtain ⟨v, hv, hrest⟩ := Option.bind_eq_some_iff.mp hrun
      obtain ⟨hfirst, hg⟩ := List.forall_mem_cons.mp hg
      have hkept : kept v = g c.2 := by
        rw [← hfirst, copyAll_of_notMem hrest hc, Function.update_self]
      rw [hkept] at hrest
      exact ⟨⟨v, hv, hkept⟩, (ih hcs).mp ⟨h, hrest, hg⟩⟩
    · rintro ⟨⟨v, hv, hkept⟩, hright⟩
      obtain ⟨h, hrest, hg⟩ := (ih hcs).mpr hright
      refine ⟨h, Option.bind_eq_some_iff.mpr ⟨v, hv, ?_⟩, List.forall_mem_cons.mpr ⟨?_, hg⟩⟩
      · rw [hkept]
        exact hrest
      · rw [copyAll_of_notMem hrest hc, Function.update_self]

/-- No value hangs on a place that was written before. -/
def ReadsFirst (cs : List (Copy κ υ)) : Prop :=
  cs.Pairwise fun c d => ∀ f v, d.1 (Function.update f c.2 v) = d.1 f

/-- Then the values are those that stand there at the start. -/
theorem copiesRight_iff_of_readsFirst (hfirst : ReadsFirst cs) :
    CopiesRight kept g cs f ↔ ∀ c ∈ cs, c.Right kept g f := by
  induction cs generalizing f with
  | nil => exact iff_of_true trivial fun c hc => nomatch hc
  | cons c cs ih =>
    obtain ⟨hc, hcs⟩ := List.pairwise_cons.mp hfirst
    rw [CopiesRight, ih hcs, List.forall_mem_cons]
    refine and_congr_right fun _ => forall₂_congr fun d hd => ?_
    rw [Copy.Right, hc d hd]
    rfl

/-! ## Copies in ascending order -/

section

variable {f g : Nat → υ} {value : Nat → (Nat → υ) → Option υ} {n a l : Nat}

/-- The first `n` places have what they are to get. -/
def written (g f : Nat → υ) (n k : Nat) : υ := if k < n then g k else f k

theorem update_written : Function.update (written g f n) n (g n) = written g f (n + 1) := by
  funext k
  rcases Nat.lt_trichotomy k n with hk | rfl | hk
  · rw [Function.update_of_ne (Nat.ne_of_lt hk), written, written, if_pos hk,
      if_pos (Nat.lt_succ_of_lt hk)]
  · rw [Function.update_self, written, if_pos (Nat.lt_succ_self k)]
  · rw [Function.update_of_ne (Nat.ne_of_gt hk), written, written, if_neg (Nat.lt_asymm hk),
      if_neg (by omega)]

theorem copiesRight_range' :
    CopiesRight kept g ((List.range' a l).map fun k => (value k, k)) (written g f a) ↔
      ∀ k, a ≤ k → k < a + l → ∃ v, value k (written g f k) = some v ∧ kept v = g k := by
  induction l generalizing a with
  | zero => exact iff_of_true trivial fun k hk hlt => by omega
  | succ l ih =>
    rw [List.range'_succ, List.map_cons, CopiesRight, update_written, ih]
    constructor
    · rintro ⟨hfirst, hrest⟩ k hk hlt
      rcases Nat.eq_or_lt_of_le hk with rfl | hk
      · exact hfirst
      · exact hrest k hk (by omega)
    · intro h
      exact ⟨h a (Nat.le_refl a) (by omega), fun k hk hlt => h k (by omega) (by omega)⟩

/-- From the first place up, a value may hang on what was written. -/
theorem copiesRight_range :
    CopiesRight kept g ((List.range n).map fun k => (value k, k)) f ↔
      ∀ k < n, ∃ v, value k (written g f k) = some v ∧ kept v = g k := by
  have hstart : written g f 0 = f := funext fun k => if_neg (Nat.not_lt_zero k)
  have hrange : CopiesRight kept g ((List.range' 0 n).map fun k => (value k, k)) (written g f 0) ↔
      _ := copiesRight_range'
  rw [hstart, ← List.range_eq_range', Nat.zero_add] at hrange
  rw [hrange]
  exact forall_congr' fun k => forall_prop_of_true (Nat.zero_le k)

end

/-! ## Shifts -/

section

variable {d x : Nat → υ} {n m : Nat}

/-- A block `d` of `n` places that has moved down by `m`, with the values `x` behind it. -/
def shiftedDown (d x : Nat → υ) (n m k : Nat) : υ :=
  if k < n - m then d (m + k) else x (k - (n - m))

/-- A block that has moved up by `m`, with the values before it. -/
def shiftedUp (d x : Nat → υ) (m k : Nat) : υ := if k < m then x k else d (k - m)

theorem map_range_of_le {α : Type*} (g : Nat → α) (h : m ≤ n) :
    (List.range n).map g =
      (List.range m).map g ++ (List.range (n - m)).map fun k => g (m + k) := by
  obtain ⟨l, rfl⟩ := Nat.exists_eq_add_of_le h
  rw [List.range_add, List.map_append, List.map_map, Nat.add_sub_cancel_left]
  rfl

theorem map_shiftedDown (hm : m ≤ n) : (List.range n).map (shiftedDown d x n m) =
    ((List.range n).map d).drop m ++ (List.range m).map x := by
  rw [map_range_of_le d hm, List.drop_left' (by simp), map_range_of_le _ (Nat.sub_le n m),
    Nat.sub_sub_self hm]
  congr 1
  · exact List.map_congr_left fun k hk => if_pos (List.mem_range.mp hk)
  · refine List.map_congr_left fun k _ => ?_
    rw [shiftedDown, if_neg (Nat.not_lt.mpr (Nat.le_add_right _ k)), Nat.add_sub_cancel_left]

theorem map_shiftedUp (hm : m ≤ n) : (List.range n).map (shiftedUp d x m) =
    (List.range m).map x ++ ((List.range n).map d).take (n - m) := by
  rw [map_range_of_le d (Nat.sub_le n m), List.take_left' (by simp), map_range_of_le _ hm]
  congr 1
  · exact List.map_congr_left fun k hk => if_pos (List.mem_range.mp hk)
  · refine List.map_congr_left fun k _ => ?_
    rw [shiftedUp, if_neg (Nat.not_lt.mpr (Nat.le_add_right m k)), Nat.add_sub_cancel_left]

/-- A block is what the other one has become just if each of its places is. -/
theorem map_eq_shiftedDown_iff {e : Nat → υ} (hm : m ≤ n) :
    (List.range n).map e = ((List.range n).map d).drop m ++ (List.range m).map x ↔
      ∀ k < n, e k = shiftedDown d x n m k := by
  rw [← map_shiftedDown hm, List.map_inj_left]
  simp only [List.mem_range]

theorem map_eq_shiftedUp_iff {e : Nat → υ} (hm : m ≤ n) :
    (List.range n).map e = (List.range m).map x ++ ((List.range n).map d).take (n - m) ↔
      ∀ k < n, e k = shiftedUp d x m k := by
  rw [← map_shiftedUp hm, List.map_inj_left]
  simp only [List.mem_range]

end
