-- SUMMARY: The loops of the get and save functions over blocks of elements.
import Kalyke.Exec.Operands
import Mathlib.Data.Nat.ModEq

/-!
# Blocks of Elements

The get and save functions go over the elements of a block one after the other and stop at the first
number that is too large. The areas are small against the 16 bits of a number, so a block that does
not end in an error never wraps around. Stated here, for each loop: when it passes, what it reads
and where it writes.
-/

namespace Kalyke

open List Nat

variable {α β : Type} {s : Store}

/-! ## Elements -/

section

variable {read : Nat → α} {write : Nat → α → Store → Store} {limit stride i n : Nat} {xs : List α}

/-- The next number of a block does not wrap around. -/
theorem elementIndex_add (hlimit : limit + stride ≤ 65536) (h : i < limit) :
    elementIndex (i + stride) = i + stride :=
  mod_eq_of_lt (by omega)

/-- All numbers of a block of `n` are below the limit. -/
def InBlock (limit stride i n : Nat) : Prop := ∀ j < n, i + stride * j < limit

instance : Decidable (InBlock limit stride i n) := inferInstanceAs (Decidable (∀ _ < _, _))

theorem inBlock_zero : InBlock limit stride i 0 := fun _ hj => absurd hj (Nat.not_lt_zero _)

theorem inBlock_succ :
    InBlock limit stride i (n + 1) ↔ i < limit ∧ InBlock limit stride (i + stride) n := by
  have hnext (j : Nat) : i + stride + stride * j = i + stride * (j + 1) := by
    rw [mul_succ]
    omega
  constructor
  · intro h
    refine ⟨h 0 (succ_pos n), fun j hj => ?_⟩
    rw [hnext]
    exact h (j + 1) (succ_lt_succ hj)
  · intro h j hj
    cases j with
    | zero => exact h.1
    | succ j =>
      rw [← hnext]
      exact h.2 j (lt_of_succ_lt_succ hj)

theorem getLoop_ok_iff (hlimit : limit + stride ≤ 65536) :
    (getLoop read limit stride n i).1 = .ok () ↔ InBlock limit stride i n := by
  induction n generalizing i with
  | zero => exact ⟨fun _ => inBlock_zero, fun _ => rfl⟩
  | succ n ih =>
    rw [getLoop, inBlock_succ]
    split
    · rename_i hi
      rw [elementIndex_add hlimit hi]
      exact ih.trans (and_iff_right hi).symm
    · rename_i hi
      exact ⟨(absurd · error_ne_ok), fun h => absurd h.1 hi⟩

theorem getLoop_of_inBlock (hlimit : limit + stride ≤ 65536) (h : InBlock limit stride i n) :
    getLoop read limit stride n i =
      (.ok (), (range n).map fun j => read (i + stride * j)) := by
  induction n generalizing i with
  | zero => rfl
  | succ n ih =>
    obtain ⟨hi, hrest⟩ := inBlock_succ.mp h
    have hvalues : (range n).map (fun j => read (i + stride + stride * j)) =
        (range n).map ((fun j => read (i + stride * j)) ∘ succ) := by
      refine map_congr_left fun j _ => congrArg read ?_
      rw [mul_succ]
      omega
    rw [getLoop, if_pos hi, elementIndex_add hlimit hi, ih hrest, range_succ_eq_map,
      map_cons, map_map, ← hvalues]
    rfl

theorem saveLoop_ok_iff (hlimit : limit + stride ≤ 65536) :
    (saveLoop write limit stride xs i s).1 = .ok () ↔ InBlock limit stride i xs.length := by
  induction xs generalizing i s with
  | nil => exact ⟨fun _ => inBlock_zero, fun _ => rfl⟩
  | cons x xs ih =>
    rw [saveLoop, length_cons, inBlock_succ]
    split
    · rename_i hi
      rw [elementIndex_add hlimit hi]
      exact ih.trans (and_iff_right hi).symm
    · rename_i hi
      exact ⟨(absurd · error_ne_ok), fun h => absurd h.1 hi⟩

/-- What no write to the block changes stays as it is, whether the block passes or not. -/
theorem saveLoop_frame (obs : Store → β) (hlimit : limit + stride ≤ 65536)
    (h : ∀ j < xs.length, i + stride * j < limit →
      ∀ x s, obs (write (i + stride * j) x s) = obs s) :
    obs (saveLoop write limit stride xs i s).2 = obs s := by
  induction xs generalizing i s with
  | nil => rfl
  | cons x xs ih =>
    rw [saveLoop]
    split
    · rename_i hi
      have hnext (j : Nat) : i + stride + stride * j = i + stride * (j + 1) := by
        rw [mul_succ]
        omega
      rw [elementIndex_add hlimit hi, ih fun j hj hlt x s => ?_]
      · exact h 0 (succ_pos _) hi x s
      · rw [hnext] at hlt ⊢
        exact h (j + 1) (succ_lt_succ hj) hlt x s
    · rfl

/-- What a write to one number of a block gives stays, if no later write changes it. -/
theorem saveLoop_last (obs : Store → β) {y : β} (hlimit : limit + stride ≤ 65536) (j : Nat)
    (hj : j < xs.length) (h : i + stride * j < limit)
    (hself : ∀ s, obs (write (i + stride * j) (xs.get ⟨j, hj⟩) s) = y)
    (hlater : ∀ l, i + stride * j + stride ≤ l → ∀ x s, obs (write l x s) = obs s) :
    obs (saveLoop write limit stride xs i s).2 = y := by
  induction xs generalizing i s j with
  | nil => cases hj
  | cons x xs ih =>
    have hi : i < limit := Nat.lt_of_le_of_lt (Nat.le_add_right _ _) h
    rw [saveLoop, if_pos hi, elementIndex_add hlimit hi]
    cases j with
    | zero =>
      rw [saveLoop_frame obs hlimit]
      · exact hself s
      · intro k _ _ x s
        exact hlater _ (by omega) x s
    | succ j =>
      have hnext : i + stride * (j + 1) = i + stride + stride * j := by
        rw [mul_succ]
        omega
      rw [hnext] at h hself hlater
      exact ih j (lt_of_succ_lt_succ hj) h hself hlater

/-- The elements of a block that are below the limit have the values that were written, if a write
to one of its numbers is not seen at a lower one. -/
theorem saveLoop_read (obs : Store → Nat → β) (value : α → β) (hlimit : limit + stride ≤ 65536)
    (hself : ∀ k x s, obs (write k x s) k = value x)
    (hother : ∀ k l, k + stride ≤ l → ∀ x s, obs (write l x s) k = obs s k)
    (j : Nat) (hj : j < xs.length) (h : i + stride * j < limit) :
    obs (saveLoop write limit stride xs i s).2 (i + stride * j) = value (xs.get ⟨j, hj⟩) :=
  saveLoop_last (fun s => obs s (i + stride * j)) hlimit j hj h (fun s => hself _ _ s)
    fun l hl x s => hother _ l hl x s

end

/-! ## Joined bits -/

@[simp] theorem getBit_setBit_self (area : BitArea) (i : Nat) (b : Bool) :
    (s.setBit area i b).getBit area i = b := by
  cases area <;> simp [Store.setBit, Store.getBit]

theorem getBit_setBit_of_ne {area : BitArea} {i j : Nat} (h : i ≠ j) (b : Bool) :
    (s.setBit area j b).getBit area i = s.getBit area i := by
  cases area <;> simp [Store.setBit, Store.getBit, h]

section

variable {w : Nat} {read : Nat → Bool} {area : BitArea} {limit start width n off i m : Nat}

/-- The numbers of joined bits count from the first one as an `unsigned short`. -/
theorem elementIndex_mod (start m : Nat) :
    elementIndex (elementIndex start + m) = elementIndex (start + m) :=
  mod_add_mod _ _ _

theorem elementIndex_of_lt (h : i < 65536) : elementIndex i = i := mod_eq_of_lt h

theorem getKn_mod {acc : BitVec w} :
    getKn read limit (elementIndex start) n acc = getKn read limit start n acc := by
  induction n generalizing acc with
  | zero => rfl
  | succ n ih => simp only [getKn, elementIndex_mod, ih]

theorem getKn_ok_iff {acc : BitVec w} :
    (getKn read limit start n acc).1 = .ok () ↔ ∀ m < n, elementIndex (start + m) < limit := by
  induction n generalizing acc with
  | zero => exact ⟨fun _ m hm => absurd hm (Nat.not_lt_zero m), fun _ => rfl⟩
  | succ n ih =>
    rw [getKn]
    split
    · rename_i hn
      rw [ih]
      constructor
      · intro h m hm
        rcases Nat.lt_succ_iff_lt_or_eq.mp hm with hm | rfl
        · exact h m hm
        · exact hn
      · intro h m hm
        exact h m (lt_succ_of_lt hm)
    · rename_i hn
      exact ⟨(absurd · error_ne_ok), fun h => absurd (h n (lt_succ_self n)) hn⟩

theorem saveKn_mod {x : BitVec w} :
    saveKn area (elementIndex start) n i x s = saveKn area start n i x s := by
  induction n generalizing i x s with
  | zero => rfl
  | succ n ih => simp only [saveKn, elementIndex_mod, ih]

theorem saveKn_ok_iff {x : BitVec w} :
    (saveKn area start n i x s).1 = .ok () ↔ ∀ m < n, elementIndex (start + i + m) < area.rang := by
  induction n generalizing i x s with
  | zero => exact ⟨fun _ m hm => absurd hm (Nat.not_lt_zero m), fun _ => rfl⟩
  | succ n ih =>
    rw [saveKn]
    split
    · rename_i hi
      rw [ih]
      constructor
      · intro h m hm
        cases m with
        | zero => exact hi
        | succ m =>
          have hm' := h m (lt_of_succ_lt_succ hm)
          rwa [show start + (i + 1) + m = start + i + (m + 1) by omega] at hm'
      · intro h m hm
        have hm' := h (m + 1) (succ_lt_succ hm)
        rwa [show start + i + (m + 1) = start + (i + 1) + m by omega] at hm'
    · rename_i hi
      exact ⟨(absurd · error_ne_ok), fun h => absurd (h 0 (succ_pos n)) hi⟩

/-- The bits of one value are below a limit. -/
theorem forall_elementIndex_lt_iff (hlimit : limit < 65536) (hstart : start < 65536) :
    (∀ m < n, elementIndex (start + m) < limit) ↔ n = 0 ∨ start + n ≤ limit := by
  constructor
  · intro h
    by_contra hover
    have hfirst := h 0 (by omega)
    rw [Nat.add_zero, elementIndex_of_lt hstart] at hfirst
    -- The first number past the limit is one of the bits.
    have hlast := h (limit - start) (by omega)
    rw [show start + (limit - start) = limit by omega, elementIndex_of_lt hlimit] at hlast
    omega
  · intro h m hm
    rw [elementIndex_of_lt (by omega)]
    omega

/-- What no write to the bits of a value changes stays as it is. -/
theorem saveKn_frame (obs : Store → β) {x : BitVec w} (hstart : start + i ≤ area.rang)
    (h : ∀ m < n, start + i + m < area.rang →
      ∀ b s, obs (s.setBit area (start + i + m) b) = obs s) :
    obs (saveKn area start n i x s).2.2 = obs s := by
  have hrang := area.rang_le
  induction n generalizing i x s with
  | zero => rfl
  | succ n ih =>
    rw [saveKn, elementIndex_of_lt (by omega)]
    split
    · rename_i hi
      rw [ih (by omega) fun m hm hlt b s => ?_]
      · exact h 0 (succ_pos n) hi _ s
      · rw [show start + (i + 1) + m = start + i + (m + 1) by omega] at hlt ⊢
        exact h (m + 1) (succ_lt_succ hm) hlt b s
    · rfl

/-- The bits of a value are written to the elements from its first one on. -/
theorem saveKn_read {x : BitVec w} (hm : m < n) (h : start + i + m < area.rang) :
    (saveKn area start n i x s).2.2.getBit area (start + i + m) = x.getLsbD m := by
  have hrang := area.rang_le
  induction n generalizing i x s m with
  | zero => cases hm
  | succ n ih =>
    rw [saveKn, elementIndex_of_lt (by omega), if_pos (by omega)]
    cases m with
    | zero =>
      rw [saveKn_frame (fun s => s.getBit area (start + i + 0)) (by omega)]
      · exact getBit_setBit_self area _ _
      · intro k _ _ b s
        exact getBit_setBit_of_ne (by omega) b
    | succ m =>
      rw [show start + i + (m + 1) = start + (i + 1) + m by omega,
        ih (lt_of_succ_lt_succ hm) (by omega), BitVec.getLsbD_ushiftRight, Nat.add_comm]

/-! ## Blocks of joined bits -/

/-- The number of the first bit of a block of values of `width` bits. -/
def knBase (start off width : Nat) : Nat := elementIndex (start + off * width)

def InBits (limit width b n : Nat) : Prop := n = 0 ∨ b + n * width ≤ limit

instance {b : Nat} : Decidable (InBits limit width b n) := inferInstanceAs (Decidable (_ ∨ _))

theorem knBase_lt : knBase start off width < 65536 := mod_lt _ (by decide)

/-- The offset counts as an `unsigned short` too, and yet the values follow one another. -/
theorem knBase_next : knBase start (elementIndex (off + 1)) width =
    elementIndex (knBase start off width + width) := by
  have hoff : elementIndex (off + 1) ≡ off + 1 [MOD 65536] := mod_modEq _ _
  have hsum : start + elementIndex (off + 1) * width ≡ start + (off + 1) * width [MOD 65536] :=
    (hoff.mul_right width).add_left start
  rw [knBase, knBase, elementIndex_mod, Nat.add_assoc, ← succ_mul]
  exact hsum

theorem knBase_next_of_lt (h : knBase start off width + width < 65536) :
    knBase start (elementIndex (off + 1)) width = knBase start off width + width := by
  rw [knBase_next, elementIndex_of_lt h]

theorem inBits_succ {b : Nat} :
    InBits limit width b (n + 1) ↔ b + width ≤ limit ∧ InBits limit width (b + width) n := by
  unfold InBits
  rcases n with _ | n
  · omega
  · rw [succ_mul]
    omega

/-- Each bit of a block in range is below the limit. -/
theorem InBits.bit_lt {b j : Nat} (h : InBits limit width b n) (hj : j < n) (hm : m < width) :
    b + width * j + m < limit := by
  rcases h with rfl | hle
  · cases hj
  · have hmul : width * (j + 1) ≤ width * n := Nat.mul_le_mul_left width hj
    rw [mul_succ] at hmul
    rw [Nat.mul_comm] at hle
    omega

/-- One value of a block is in range. -/
theorem forall_knBase_lt_iff (hlimit : limit < 65536) (hwidth : 0 < width) :
    (∀ m < width, elementIndex (start + off * width + m) < limit) ↔
      knBase start off width + width ≤ limit := by
  have hmod (m : Nat) : elementIndex (start + off * width + m) =
      elementIndex (knBase start off width + m) := (elementIndex_mod _ m).symm
  simp only [hmod]
  rw [forall_elementIndex_lt_iff hlimit knBase_lt]
  omega

theorem getKnLoop_ok_iff (hlimit : limit < 65536) (hwidth : 0 < width) :
    (getKnLoop w read limit width start n off).1 = .ok () ↔
      InBits limit width (knBase start off width) n := by
  induction n generalizing off with
  | zero => exact ⟨fun _ => .inl rfl, fun _ => rfl⟩
  | succ n ih =>
    have hfirst : (getKn read limit (start + off * width) width (0 : BitVec w)).1 = .ok () ↔ _ :=
      getKn_ok_iff.trans (forall_knBase_lt_iff hlimit hwidth)
    rw [getKnLoop, inBits_succ]
    split
    · rename_i x heq
      rw [heq] at hfirst
      have hle := hfirst.mp rfl
      rw [ih.trans (by rw [knBase_next_of_lt (by omega)])]
      exact (and_iff_right hle).symm
    · rename_i e x heq
      rw [heq] at hfirst
      exact ⟨(absurd · error_ne_ok), fun h => absurd (hfirst.mpr h.1) error_ne_ok⟩

/-- What a block of joined bits yields. -/
theorem getKnLoop_of_inBits (h : InBits area.rang width (knBase start off width) n) :
    getKnLoop w (s.getBit area) area.rang width start n off =
      (.ok (), (range n).map fun j => BitVec.ofNat w
        (joinBits (fun m => s.getBit area (knBase start off width + width * j + m)) width)) := by
  have hrang := area.rang_le
  induction n generalizing off with
  | zero => rfl
  | succ n ih =>
    obtain ⟨hle, hrest⟩ := inBits_succ.mp h
    have hnext : knBase start (elementIndex (off + 1)) width = knBase start off width + width :=
      knBase_next_of_lt (by omega)
    have hvalue : getKn (s.getBit area) area.rang (start + off * width) width (0 : BitVec w) =
        (.ok (), BitVec.ofNat w
          (joinBits (fun m => s.getBit area (knBase start off width + m)) width)) := by
      have hget :
          getKn (s.getBit area) area.rang (knBase start off width) width (BitVec.ofNat w 0) =
          _ := getKn_eq hle 0
      rw [Nat.zero_mul, Nat.zero_add] at hget
      rw [← getKn_mod]
      exact hget
    have hvalues : ∀ j, knBase start off width + width + width * j =
        knBase start off width + width * (j + 1) := fun j => by
      rw [mul_succ]
      omega
    rw [← hnext] at hrest
    rw [getKnLoop, hvalue]
    simp only [ih hrest, hnext, hvalues, range_succ_eq_map, map_cons, map_map]
    rfl

theorem saveKn_ok_iff_base {x : BitVec w} (hwidth : 0 < width) :
    (saveKn area (start + off * width) width 0 x s).1 = .ok () ↔
      knBase start off width + width ≤ area.rang := by
  have hrang := area.rang_le
  rw [saveKn_ok_iff]
  exact forall_knBase_lt_iff (by omega) hwidth

theorem saveKnLoop_ok_iff {xs : List (BitVec w)} (hwidth : 0 < width) :
    (saveKnLoop area width start xs off s).1 = .ok () ↔
      InBits area.rang width (knBase start off width) xs.length := by
  have hrang := area.rang_le
  induction xs generalizing off s with
  | nil => exact ⟨fun _ => .inl rfl, fun _ => rfl⟩
  | cons x xs ih =>
    have hfirst : (saveKn area (start + off * width) width 0 x s).1 = .ok () ↔ _ :=
      saveKn_ok_iff_base hwidth
    rw [saveKnLoop, length_cons, inBits_succ]
    split
    · rename_i x' s' heq
      rw [heq] at hfirst
      have hle := hfirst.mp rfl
      rw [ih.trans (by rw [knBase_next_of_lt (by omega)])]
      exact (and_iff_right hle).symm
    · rename_i e x' s' heq
      rw [heq] at hfirst
      exact ⟨(absurd · error_ne_ok), fun h => absurd (hfirst.mpr h.1) error_ne_ok⟩

/-- What no write to the bits of a value changes stays as it is, wherever the value starts. -/
theorem saveKn_frame_of_mod (obs : Store → β) {x : BitVec w} (hwidth : 0 < width)
    (h : ∀ m < width, elementIndex start + m < area.rang →
      ∀ b s, obs (s.setBit area (elementIndex start + m) b) = obs s) :
    obs (saveKn area start width 0 x s).2.2 = obs s := by
  rw [← saveKn_mod]
  by_cases hstart : elementIndex start ≤ area.rang
  · exact saveKn_frame obs hstart fun m hm hlt b s => h m hm hlt b s
  · obtain ⟨k, rfl⟩ : ∃ k, width = k + 1 := ⟨width - 1, by omega⟩
    rw [saveKn, elementIndex_mod, Nat.add_zero, if_neg (by omega)]

/-- What no write to the bits of a block changes stays as it is, whether the block passes or not. -/
theorem saveKnLoop_frame (obs : Store → β) {xs : List (BitVec w)} (hwidth : 0 < width)
    (h : ∀ m < xs.length * width, knBase start off width + m < area.rang →
      ∀ b s, obs (s.setBit area (knBase start off width + m) b) = obs s) :
    obs (saveKnLoop area width start xs off s).2.2 = obs s := by
  have hrang := area.rang_le
  induction xs generalizing off s with
  | nil => rfl
  | cons x xs ih =>
    have hlen : (x :: xs).length * width = width + xs.length * width := by
      rw [length_cons, succ_mul, Nat.add_comm]
    have hfirst : obs (saveKn area (start + off * width) width 0 x s).2.2 = obs s :=
      saveKn_frame_of_mod obs hwidth fun m hm hlt b s => h m (by omega) hlt b s
    have hok : (saveKn area (start + off * width) width 0 x s).1 = .ok () ↔ _ :=
      saveKn_ok_iff_base hwidth
    rw [saveKnLoop]
    split
    · rename_i x' s' heq
      rw [heq] at hfirst hok
      have hle := hok.mp rfl
      have hnext : knBase start (elementIndex (off + 1)) width = knBase start off width + width :=
        knBase_next_of_lt (by omega)
      refine (ih fun m hm hlt b s => ?_).trans hfirst
      rw [hnext, Nat.add_assoc] at hlt ⊢
      exact h (width + m) (by omega) hlt b s
    · rename_i e x' s' heq
      rw [heq] at hfirst
      exact hfirst

/-- The bits of a block that are in range have the values that were written. -/
theorem saveKnLoop_read {xs : List (BitVec w)} (hwidth : 0 < width) (j : Nat) (hj : j < xs.length)
    (hm : m < width) (h : knBase start off width + width * j + m < area.rang) :
    (saveKnLoop area width start xs off s).2.2.getBit area
      (knBase start off width + width * j + m) = (xs.get ⟨j, hj⟩).getLsbD m := by
  have hrang := area.rang_le
  induction xs generalizing off s j with
  | nil => cases hj
  | cons x xs ih =>
    have hok : (saveKn area (start + off * width) width 0 x s).1 = .ok () ↔ _ :=
      saveKn_ok_iff_base hwidth
    cases j with
    | zero =>
      have hvalue : (saveKn area (start + off * width) width 0 x s).2.2.getBit area
          (knBase start off width + m) = x.getLsbD m := by
        rw [← saveKn_mod]
        exact saveKn_read hm h
      rw [saveKnLoop]
      split
      · rename_i x' s' heq
        rw [heq] at hvalue hok
        have hle := hok.mp rfl
        refine (saveKnLoop_frame (fun s => s.getBit area (knBase start off width + width * 0 + m))
          hwidth fun k _ _ b s => ?_).trans hvalue
        rw [knBase_next_of_lt (by omega)]
        exact getBit_setBit_of_ne (by omega) b
      · rename_i e x' s' heq
        rw [heq] at hvalue
        exact hvalue
    | succ j =>
      rw [mul_succ, Nat.add_comm (width * j), ← Nat.add_assoc] at h ⊢
      have hnext : knBase start (elementIndex (off + 1)) width = knBase start off width + width :=
        knBase_next_of_lt (by omega)
      rw [← hnext] at h ⊢
      rw [saveKnLoop]
      split
      · exact ih j (lt_of_succ_lt_succ hj) h
      · rename_i e x' s' heq
        rw [heq] at hok
        exact absurd (hok.mpr (by omega)) error_ne_ok

end

end Kalyke
