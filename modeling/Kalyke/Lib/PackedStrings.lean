-- SUMMARY: Zero-terminated strings in words of two bytes, their length, and buffers of bytes.
import Kalyke.Lib.Image
import Kalyke.Lib.WhileLoop
import Mathlib.Data.List.GetD
import Mathlib.Data.Nat.Find
import Mathlib.Tactic.Common

/-!
# Packed Strings

A memory of words of 16 bits is an image of bytes, two to a word and the low one first. A string is
what stands in an image before the first zero. A loop finds its length, with a counter of 16 bits
and one word in a pass. A buffer is a part of an image, beyond which nothing can be put.
-/

namespace PackedStrings

open List Nat BitVec

/-! ## Bytes and words -/

def low (w : BitVec 16) : BitVec 8 := w.setWidth 8

def high (w : BitVec 16) : BitVec 8 := (w >>> 8).setWidth 8

def join (h l : BitVec 8) : BitVec 16 := h ++ l

/-- The bytes of a memory of words. -/
def image (w : Nat → BitVec 16) : Image := fun j =>
  if j % 2 = 0 then low (w (j / 2)) else high (w (j / 2))

def word (m : Image) (k : Nat) : BitVec 16 := join (m (2 * k + 1)) (m (2 * k))

def words (m : Image) (n : Nat) : List (BitVec 16) := (range n).map (word m)

/-- The bytes of a list of words, with zeros behind them. -/
def ofList (ws : List (BitVec 16)) : Image := image fun k => ws.getD k 0

section

variable {w w' : Nat → BitVec 16} {m m' : Image} {j k n : Nat} {x : BitVec 16} {a b : BitVec 8}
  {ws : List (BitVec 16)}

theorem toNat_low : (low x).toNat = x.toNat % 256 := toNat_setWidth _ _

theorem toNat_high : (high x).toNat = x.toNat / 256 := by
  rw [high, toNat_setWidth, toNat_ushiftRight]
  omega

theorem toNat_join : (join a b).toNat = 256 * a.toNat + b.toNat := by
  have hb := b.isLt
  rw [join, toNat_append, Nat.shiftLeft_eq, Nat.mul_comm]
  exact (two_pow_add_eq_or_of_lt hb a.toNat).symm

@[simp] theorem low_join : low (join a b) = b := by
  apply eq_of_toNat_eq
  rw [toNat_low, toNat_join]
  omega

@[simp] theorem high_join : high (join a b) = a := by
  apply eq_of_toNat_eq
  rw [toNat_high, toNat_join]
  omega

theorem image_even : image w (2 * k) = low (w k) := by
  unfold image
  rw [if_pos (by omega)]
  congr 2
  omega

theorem image_odd : image w (2 * k + 1) = high (w k) := by
  unfold image
  rw [if_neg (by omega)]
  congr 2
  omega

theorem image_word : image (word m) j = m j := by
  obtain ⟨k, rfl | rfl⟩ : ∃ k, j = 2 * k ∨ j = 2 * k + 1 := ⟨j / 2, by omega⟩
  · rw [image_even, word, low_join]
  · rw [image_odd, word, high_join]

theorem image_congr (h : w (j / 2) = w' (j / 2)) : image w j = image w' j := by
  unfold image
  rw [h]

@[simp] theorem length_words : (words m n).length = n := by
  rw [words, length_map, length_range]

theorem ofList_words (h : j < 2 * n) : ofList (words m n) j = m j := by
  have hk : j / 2 < n := by omega
  have hget : (words m n).getD (j / 2) 0 = word m (j / 2) := by
    rw [getD_eq_getElem _ _ (by rwa [length_words])]
    simp [words]
  unfold ofList
  rw [← image_word (m := m), image_congr hget]

end

/-! ## Strings -/

/-- No character is zero. -/
theorem getD_ne_zero {cs : List (BitVec 8)} {j : Nat} (h : 0 ∉ cs) (hj : j < cs.length) :
    cs.getD j 0 ≠ 0 := by
  rw [getD_eq_getElem _ _ hj]
  intro hzero
  exact h (hzero ▸ getElem_mem hj)

/-- The characters before the first zero. -/
structure Spells (m : Image) (cs : List (BitVec 8)) : Prop where
  nonzero : 0 ∉ cs
  chars : ∀ j ≤ cs.length, m j = cs.getD j 0

namespace Spells

variable {m m' : Image} {cs cs' : List (BitVec 8)} {j : Nat}

theorem zero (h : Spells m cs) : m cs.length = 0 := by
  rw [h.chars _ (Nat.le_refl _), getD_eq_default _ _ (Nat.le_refl _)]

theorem ne_zero (h : Spells m cs) (hj : j < cs.length) : m j ≠ 0 := by
  rw [h.chars j (Nat.le_of_lt hj)]
  exact getD_ne_zero h.nonzero hj

/-- A string stands in an image where a zero stands behind its characters. -/
theorem iff_of_zero (hcs : 0 ∉ cs) (hzero : m cs.length = 0) :
    Spells m cs ↔ ∀ j < cs.length, m j = cs.getD j 0 := by
  refine ⟨fun h j hj => h.chars j (Nat.le_of_lt hj), fun h => ⟨hcs, fun j hj => ?_⟩⟩
  rcases Nat.eq_or_lt_of_le hj with rfl | hlt
  · rw [hzero, getD_eq_default _ _ (Nat.le_refl _)]
  · exact h j hlt

theorem congr (h : Spells m cs) (hm : ∀ j ≤ cs.length, m' j = m j) : Spells m' cs :=
  ⟨h.nonzero, fun j hj => (hm j hj).trans (h.chars j hj)⟩

/-- An image has a single string. -/
theorem unique (h : Spells m cs) (h' : Spells m cs') : cs = cs' := by
  have hlength : cs.length = cs'.length := by
    rcases Nat.lt_trichotomy cs.length cs'.length with hlt | heq | hlt
    · exact absurd h.zero (h'.ne_zero hlt)
    · exact heq
    · exact absurd h'.zero (h.ne_zero hlt)
  refine ext_getElem hlength fun j hj hj' => ?_
  rw [← getD_eq_getElem _ 0 hj, ← getD_eq_getElem _ 0 hj', ← h.chars j (Nat.le_of_lt hj),
    h'.chars j (Nat.le_of_lt hj')]

theorem of_first_zero {n : Nat} (hne : ∀ k < n, m k ≠ 0) (hzero : m n = 0) :
    Spells m ((range n).map m) := by
  have hlength : ((range n).map m).length = n := by
    rw [length_map, length_range]
  refine ⟨fun hmem => ?_, fun k hk => ?_⟩
  · obtain ⟨k, hk, heq⟩ := mem_map.mp hmem
    exact hne k (mem_range.mp hk) heq
  · rw [hlength] at hk
    rcases Nat.eq_or_lt_of_le hk with rfl | hlt
    · rw [getD_eq_default _ _ (Nat.le_of_eq hlength), hzero]
    · rw [getD_eq_getElem _ _ (by rwa [hlength]), getElem_map, getElem_range]

end Spells

theorem spells_words_iff {m : Image} {cs : List (BitVec 8)} {n : Nat} (h : cs.length < 2 * n) :
    Spells (ofList (words m n)) cs ↔ Spells m cs := by
  constructor <;> intro hs <;> refine hs.congr fun j hj => ?_
  · exact (ofList_words (by omega)).symm
  · exact ofList_words (by omega)

/-! ## Length -/

section

variable {ε : Type*} (get : Nat → Except ε (BitVec 16)) (off : BitVec 16 → Nat)

/-- The loop for the length of a string, whose words are got at offsets that the counter gives. -/
def lengthLoop : WhileLoop (BitVec 16) (Except ε (BitVec 16)) := fun n =>
  match get (off n) with
  | .error e => .inr (.error e)
  | .ok w =>
    if low w = 0 then .inr (.ok n)
    else if high w = 0 then .inr (.ok (n + 1))
    else .inl (n + 2)

variable {get off} {n : BitVec 16} {k fuel : Nat} {r : Except ε (BitVec 16)}
  {w : Nat → BitVec 16} {cs : List (BitVec 8)}

theorem eq_of_step {n' : BitVec 16} (h : WhileLoop.Step (lengthLoop get off) n n') :
    n' = n + 2 := by
  unfold WhileLoop.Step lengthLoop at h
  split at h
  · cases h
  · split at h
    · cases h
    · split at h
      · cases h
      · exact (Sum.inl.inj h).symm

/-- If the loop has not left after some passes, it has gone on in each. -/
theorem step_of_run_none (h : WhileLoop.run (lengthLoop get off) fuel n = none) (hk : k < fuel) :
    WhileLoop.Step (lengthLoop get off) (n + 2 * BitVec.ofNat 16 k)
      (n + 2 * BitVec.ofNat 16 (k + 1)) := by
  induction fuel generalizing n k with
  | zero => exact absurd hk (Nat.not_lt_zero k)
  | succ fuel ih =>
    rw [WhileLoop.run] at h
    rcases hstep : lengthLoop get off n with n' | r <;> rw [hstep] at h
    · obtain rfl := eq_of_step hstep
      cases k with
      | zero =>
        change lengthLoop get off _ = _
        simpa using hstep
      | succ k =>
        have hnext := ih h (lt_of_succ_lt_succ hk)
        have hcount (k : Nat) : n + 2 * BitVec.ofNat 16 (k + 1) =
            n + 2 + 2 * BitVec.ofNat 16 k := by
          rw [ofNat_add, BitVec.mul_add, BitVec.mul_one, BitVec.add_assoc,
            BitVec.add_comm 2 (2 * BitVec.ofNat 16 k)]
        rwa [hcount, hcount]
    · cases h

/-- After 32768 passes the counter is where it was: a loop that has not left by then never does. -/
theorem not_terminates_of_run_none
    (h : WhileLoop.run (lengthLoop get off) 32768 n = none) :
    ¬ WhileLoop.Terminates (lengthLoop get off) n := by
  refine WhileLoop.not_terminates_of_trap (T := fun n' => ∃ k < 32768,
    n' = n + 2 * BitVec.ofNat 16 k) ?_ .refl ⟨0, by decide, by simp⟩
  rintro n' ⟨k, hk, rfl⟩
  refine ⟨_, step_of_run_none h hk, ?_⟩
  rcases Nat.lt_or_ge (k + 1) 32768 with hlt | hge
  · exact ⟨k + 1, hlt, rfl⟩
  · refine ⟨0, by decide, ?_⟩
    obtain rfl : k = 32767 := by omega
    rfl

/-- What the loop leaves with, it leaves with in 32768 passes. -/
theorem returns_iff_run :
    WhileLoop.Returns (lengthLoop get off) n r ↔
      WhileLoop.run (lengthLoop get off) 32768 n = some r := by
  constructor
  · intro hreturns
    rcases hrun : WhileLoop.run (lengthLoop get off) 32768 n with _ | r'
    · exact absurd ⟨r, hreturns⟩ (not_terminates_of_run_none hrun)
    · rw [WhileLoop.Returns.unique hreturns ⟨_, hrun⟩]
  · exact fun hrun => ⟨_, hrun⟩

theorem reaches_word (h : ∀ j < k, WhileLoop.Step (lengthLoop get off) (2 * BitVec.ofNat 16 j)
    (2 * BitVec.ofNat 16 (j + 1))) :
    WhileLoop.Reaches (lengthLoop get off) 0 (2 * BitVec.ofNat 16 k) := by
  induction k with
  | zero => exact .refl
  | succ k ih => exact .tail (ih fun j hj => h j (lt_succ_of_lt hj)) (h k (lt_succ_self k))

theorem step_word {v : BitVec 16} (hget : get (off (2 * BitVec.ofNat 16 k)) = .ok v)
    (hlow : low v ≠ 0) (hhigh : high v ≠ 0) :
    WhileLoop.Step (lengthLoop get off) (2 * BitVec.ofNat 16 k)
      (2 * BitVec.ofNat 16 (k + 1)) := by
  unfold WhileLoop.Step lengthLoop
  rw [hget, ofNat_add, BitVec.mul_add, BitVec.mul_one]
  simp only [if_neg hlow, if_neg hhigh]

/-- The loop finds the length of a string. -/
theorem returns_length (hs : Spells (image w) cs)
    (hget : ∀ k ≤ cs.length / 2, get (off (2 * BitVec.ofNat 16 k)) = .ok (w k)) :
    WhileLoop.Returns (lengthLoop get off) 0 (.ok (BitVec.ofNat 16 cs.length)) := by
  have hreach : WhileLoop.Reaches (lengthLoop get off) 0
      (2 * BitVec.ofNat 16 (cs.length / 2)) := by
    refine reaches_word fun j hj => step_word (hget j (Nat.le_of_lt hj)) ?_ ?_
    · rw [← image_even (w := w)]
      exact hs.ne_zero (by omega)
    · rw [← image_odd (w := w)]
      exact hs.ne_zero (by omega)
  refine (WhileLoop.returns_iff_of_reaches hreach).mpr (WhileLoop.returns_of_exit ?_)
  unfold lengthLoop
  rw [hget _ (Nat.le_refl _)]
  have htwice (k : Nat) : 2 * BitVec.ofNat 16 k = BitVec.ofNat 16 (2 * k) := by
    rw [ofNat_mul]
    rfl
  rcases mod_two_eq_zero_or_one cs.length with heven | hodd
  · have hlow : low (w (cs.length / 2)) = 0 := by
      rw [← image_even, ← hs.zero]
      congr 1
      omega
    have hcount : 2 * (cs.length / 2) = cs.length := by omega
    rw [htwice, hcount]
    exact if_pos hlow
  · have hlow : low (w (cs.length / 2)) ≠ 0 := by
      rw [← image_even]
      exact hs.ne_zero (by omega)
    have hhigh : high (w (cs.length / 2)) = 0 := by
      rw [← image_odd, ← hs.zero]
      congr 1
      omega
    have hcount : 2 * (cs.length / 2) + 1 = cs.length := by omega
    have hnext : 2 * BitVec.ofNat 16 (cs.length / 2) + 1 = BitVec.ofNat 16 cs.length := by
      conv_rhs => rw [← hcount, ofNat_add, ← htwice]
      rfl
    simp only [if_neg hlow, if_pos hhigh, hnext]

/-- The loop leaves at a word that cannot be got or has a zero byte. -/
def Stops (get : Nat → Except ε (BitVec 16)) (k : Nat) : Prop :=
  ∀ w, get k = .ok w → low w = 0 ∨ high w = 0

/-- Half of the counter. -/
def half (n : BitVec 16) : Nat := n.toNat / 2

theorem half_word (hk : k < 32768) : half (2 * BitVec.ofNat 16 k) = k := by
  change 2 * (k % 65536) % 65536 / 2 = k
  omega

theorem step_of_not_stops (hk : k < 32768) (h : ¬ Stops get k) :
    WhileLoop.Step (lengthLoop get half) (2 * BitVec.ofNat 16 k)
      (2 * BitVec.ofNat 16 (k + 1)) := by
  obtain ⟨v, hv⟩ := not_forall.mp h
  obtain ⟨hget, hbytes⟩ := Classical.not_imp.mp hv
  obtain ⟨hlow, hhigh⟩ := not_or.mp hbytes
  exact step_word (by rwa [half_word hk]) hlow hhigh

/-- What the loop leaves with at the first word at which it can. -/
theorem returns_at (hk : k < 32768) (hbefore : ∀ j < k, ¬ Stops get j) :
    (∀ e, get k = .error e → WhileLoop.Returns (lengthLoop get half) 0 (.error e)) ∧
    ∀ v, get k = .ok v →
      (low v = 0 → WhileLoop.Returns (lengthLoop get half) 0 (.ok (BitVec.ofNat 16 (2 * k)))) ∧
      (low v ≠ 0 → high v = 0 →
        WhileLoop.Returns (lengthLoop get half) 0 (.ok (BitVec.ofNat 16 (2 * k + 1)))) := by
  have hreach : WhileLoop.Reaches (lengthLoop get half) 0 (2 * BitVec.ofNat 16 k) :=
    reaches_word fun j hj => step_of_not_stops (Nat.lt_trans hj hk) (hbefore j hj)
  have hreturns {r : Except ε (BitVec 16)}
      (hexit : lengthLoop get half (2 * BitVec.ofNat 16 k) = .inr r) :
      WhileLoop.Returns (lengthLoop get half) 0 r :=
    (WhileLoop.returns_iff_of_reaches hreach).mpr (WhileLoop.returns_of_exit hexit)
  have htwice : 2 * BitVec.ofNat 16 k = BitVec.ofNat 16 (2 * k) := by
    rw [ofNat_mul]
    rfl
  refine ⟨fun e he => hreturns ?_, fun v hv => ⟨fun hlow => hreturns ?_, fun hlow hhigh =>
    hreturns ?_⟩⟩
  · simp only [lengthLoop, half_word hk, he]
  · unfold lengthLoop
    rw [half_word hk, hv]
    simp only [if_pos hlow, htwice]
  · unfold lengthLoop
    rw [half_word hk, hv]
    simp only [if_neg hlow, if_pos hhigh, htwice, ofNat_add]
    rfl

/-- What a loop for the length of a string should leave with: the number of the characters before
the first zero, or the error of a word before which there is no zero. -/
def Measured (get : Nat → Except ε (BitVec 16)) : Except ε (BitVec 16) → Prop
  | .ok n => ∃ w cs, cs.length = n.toNat ∧ (∀ k ≤ cs.length / 2, get k = .ok (w k)) ∧
      Spells (image w) cs
  | .error e => ∃ k, get k = .error e ∧ ∀ j < k, ¬ Stops get j

/-- The value of a word that can be got. -/
def gotten (get : Nat → Except ε (BitVec 16)) (k : Nat) : BitVec 16 :=
  match get k with
  | .ok w => w
  | .error _ => 0

theorem gotten_of_not_stops (h : ¬ Stops get k) :
    get k = .ok (gotten get k) ∧ low (gotten get k) ≠ 0 ∧ high (gotten get k) ≠ 0 := by
  obtain ⟨v, hv⟩ := not_forall.mp h
  obtain ⟨hget, hbytes⟩ := Classical.not_imp.mp hv
  have hgotten : gotten get k = v := by
    rw [gotten, hget]
  rw [hgotten]
  exact ⟨hget, not_or.mp hbytes⟩

/-- The characters before the zero at which a loop stops. -/
theorem measured_ok (hlt : n.toNat < 2 * k + 2) (hbefore : ∀ j < k, ¬ Stops get j)
    (hget : get k = .ok (gotten get k)) (hfrom : ∀ j < n.toNat, 2 * k ≤ j →
      image (gotten get) j ≠ 0) (hzero : image (gotten get) n.toNat = 0) :
    Measured get (.ok n) := by
  have hlength : ((range n.toNat).map (image (gotten get))).length = n.toNat := by
    rw [length_map, length_range]
  refine ⟨gotten get, _, hlength, fun j hj => ?_, Spells.of_first_zero (fun j hj => ?_) hzero⟩
  · rw [hlength] at hj
    rcases Nat.lt_or_ge j k with hless | hge
    · exact (gotten_of_not_stops (hbefore j hless)).1
    · obtain rfl : j = k := by omega
      exact hget
  · rcases Nat.lt_or_ge j (2 * k) with hless | hge
    · obtain ⟨-, hlow, hhigh⟩ := gotten_of_not_stops (hbefore (j / 2) (by omega))
      unfold image
      split
      · exact hlow
      · exact hhigh
    · exact hfrom j hj hge

/-- The loop measures a string just if there is a word at which it can leave, at an offset that the
counter can give. Else it never ends. -/
theorem measures_iff :
    (∃ r, WhileLoop.Returns (lengthLoop get half) 0 r ∧ Measured get r) ↔
      ∃ k < 32768, Stops get k := by
  constructor
  · rintro ⟨r, hends, -⟩
    by_contra hno
    have hgoes (k : Nat) (hk : k < 32768) : WhileLoop.Step (lengthLoop get half)
        (2 * BitVec.ofNat 16 k) (2 * BitVec.ofNat 16 (k + 1)) :=
      step_of_not_stops hk fun hstops => hno ⟨k, hk, hstops⟩
    refine WhileLoop.not_terminates_of_trap (T := fun n => ∃ k < 32768,
      n = 2 * BitVec.ofNat 16 k) ?_ .refl ⟨0, by decide, rfl⟩ ⟨r, hends⟩
    rintro n ⟨k, hk, rfl⟩
    refine ⟨_, hgoes k hk, ?_⟩
    rcases Nat.lt_or_ge (k + 1) 32768 with hlt | hge
    · exact ⟨k + 1, hlt, rfl⟩
    · obtain rfl : k = 32767 := by omega
      exact ⟨0, by decide, rfl⟩
  · rintro ⟨k, hk, hstops⟩
    classical
    have hfirst : ∃ k, Stops get k := ⟨k, hstops⟩
    have hbefore : ∀ j < Nat.find hfirst, ¬ Stops get j := fun j hj => Nat.find_min hfirst hj
    have hlt : Nat.find hfirst < 32768 := Nat.lt_of_le_of_lt (Nat.find_min' hfirst hstops) hk
    obtain ⟨herror, hok⟩ := returns_at hlt hbefore
    rcases hget : get (Nat.find hfirst) with e | v
    · exact ⟨_, herror e hget, _, hget, hbefore⟩
    · have hv : gotten get (Nat.find hfirst) = v := by
        rw [gotten, hget]
      have hgot : get (Nat.find hfirst) = .ok (gotten get (Nat.find hfirst)) := by rw [hv, hget]
      have htoNat (n : Nat) (hn : n < 65536) : (BitVec.ofNat 16 n).toNat = n := by
        rw [toNat_ofNat, mod_eq_of_lt hn]
      by_cases hlow : low v = 0
      · refine ⟨_, (hok v hget).1 hlow, measured_ok ?_ hbefore hgot (fun j hj hge => ?_) ?_⟩
        · rw [htoNat _ (by omega)]
          omega
        · rw [htoNat _ (by omega)] at hj
          omega
        · rw [htoNat _ (by omega), image_even, hv, hlow]
      · have hhigh : high v = 0 := (Nat.find_spec hfirst v hget).resolve_left hlow
        refine ⟨_, (hok v hget).2 hlow hhigh, measured_ok ?_ hbefore hgot (fun j hj hge => ?_) ?_⟩
        · rw [htoNat _ (by omega)]
          omega
        · rw [htoNat _ (by omega)] at hj
          obtain rfl : j = 2 * Nat.find hfirst := by omega
          rwa [image_even, hv]
        · rw [htoNat _ (by omega), image_odd, hv, hhigh]

end

/-! ## Buffers -/

/-- A buffer of a size. Its image goes on behind it, but there is nothing. -/
structure Buffer where
  size : Nat
  bytes : Image

namespace Buffer

/-- Memory for a buffer, with what is in it. There is none for a size that is not positive. -/
def alloc (junk : Image) (size : Int) : Option Buffer :=
  if 0 < size then some ⟨size.toNat, junk⟩ else none

/-- An image in which bytes have been put at an address. -/
def onto (m : Image) (p : Nat) (cs : List (BitVec 8)) : Image := fun j =>
  if p ≤ j ∧ j < p + cs.length then cs.getD (j - p) 0 else m j

/-- Bytes are put at an address, unless they would lie outside. -/
def put (b : Buffer) (p : Int) (cs : List (BitVec 8)) : Option Buffer :=
  if 0 ≤ p ∧ p + cs.length ≤ b.size then some ⟨b.size, onto b.bytes p.toNat cs⟩ else none

def wordBytes (ws : List (BitVec 16)) : List (BitVec 8) :=
  (range (2 * ws.length)).map (ofList ws)

def putWords (b : Buffer) (p : Int) (ws : List (BitVec 16)) : Option Buffer :=
  b.put p (wordBytes ws)

def words (b : Buffer) (n : Nat) : Option (List (BitVec 16)) :=
  if 2 * n ≤ b.size then some (PackedStrings.words b.bytes n) else none

variable {junk m : Image} {b : Buffer} {p j n : Nat} {cs : List (BitVec 8)}
  {ws : List (BitVec 16)}

theorem alloc_eq (h : 0 < n) : alloc junk n = some ⟨n, junk⟩ := by
  rw [alloc, if_pos (by omega), Int.toNat_natCast]

theorem put_eq (h : p + cs.length ≤ b.size) : b.put p cs = some ⟨b.size, onto b.bytes p cs⟩ := by
  rw [put, if_pos (by omega), Int.toNat_natCast]

@[simp] theorem length_wordBytes : (wordBytes ws).length = 2 * ws.length := by
  rw [wordBytes, length_map, length_range]

theorem wordBytes_getD (h : j < 2 * ws.length) : (wordBytes ws).getD j 0 = ofList ws j := by
  rw [getD_eq_getElem _ _ (by rwa [length_wordBytes])]
  simp [wordBytes]

theorem putWords_eq (h : p + 2 * ws.length ≤ b.size) :
    b.putWords p ws = some ⟨b.size, onto b.bytes p (wordBytes ws)⟩ :=
  put_eq (by rwa [length_wordBytes])

theorem onto_of_lt (h : j < p) : onto m p cs j = m j := if_neg (by omega)

theorem onto_of_ge (h : p + cs.length ≤ j) : onto m p cs j = m j := if_neg (by omega)

theorem onto_add (h : j < cs.length) : onto m p cs (p + j) = cs.getD j 0 := by
  rw [onto, if_pos (by omega), Nat.add_sub_cancel_left]

theorem words_eq (h : 2 * n ≤ b.size) : b.words n = some (PackedStrings.words b.bytes n) :=
  if_pos h

end Buffer

end PackedStrings
