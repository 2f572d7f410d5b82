-- SUMMARY: What the save functions change: the elements an operand addresses, others, and the buffer of the caller.
import Kalyke.Exec.RoundTrip

/-!
# Frames

`save_char`, `save_word` and `save_dword` are to change the elements that their operand addresses
and nothing else, and to leave the values they are given alone. What they change besides is named
here: local elements one layer up, the elements that a number comes to when it wraps around at
65536, counters below 200, which have no 32 bits, and the buffer from which joined bits are shifted
out.
-/

namespace Kalyke

open Nat Option

/-! ## Cells -/

/-- A single cell of the elements. The local ones are numbered through all layers. -/
inductive Cell where
  | bit (e : BitElement) (i : Nat)
  | lm (k : Nat)
  | word (e : WordElement) (i : Nat)
  | v (k : Nat)
  | c32 (i : Nat)
deriving DecidableEq, Repr

/-- The value of a cell. -/
def Cell.read (s : Store) : Cell → BitVec 32
  | bit e i => BitVec.ofNat 32 (s.bit e i).toNat
  | lm k => BitVec.ofNat 32 (s.lm k).toNat
  | word e i => (s.word e i).setWidth 32
  | v k => (s.v k).setWidth 32
  | c32 i => s.c32 i

def BitArea.cell : BitArea → Nat → Cell
  | elem e, i => .bit e i
  | lm layer, i => .lm (lmRang * layer + i)

def WordArea.cell : WordArea → Nat → Cell
  | elem e, i => .word e i
  | v layer, i => .v (vRang * layer + i)

/-- What is not an element. -/
def Store.rest (s : Store) : Store :=
  { s with bit := Store.off.bit, lm := Store.off.lm, word := Store.off.word, v := Store.off.v,
           c32 := Store.off.c32 }

/-- Only cells of `A` are changed. -/
structure ChangesOnly (A : Cell → Prop) (s s' : Store) : Prop where
  cells : ∀ c, ¬ A c → c.read s' = c.read s
  rest : s'.rest = s.rest

section

variable {s s' : Store} {A : Cell → Prop}

theorem ofNat_toNat_inj {b b' : Bool} (h : BitVec.ofNat 32 b.toNat = BitVec.ofNat 32 b'.toNat) :
    b = b' := by
  revert h
  cases b <;> cases b' <;> decide

theorem setWidth_inj {x y : BitVec 16} (h : x.setWidth 32 = y.setWidth 32) : x = y := by
  have hcut := congrArg (BitVec.setWidth 16) h
  simpa using hcut

theorem BitArea.read_cell (area : BitArea) (i : Nat) :
    (area.cell i).read s = BitVec.ofNat 32 (s.getBit area i).toNat := by
  cases area <;> rfl

theorem WordArea.read_cell (area : WordArea) (i : Nat) :
    (area.cell i).read s = (s.getWord area i).setWidth 32 := by
  cases area <;> rfl

theorem BitArea.cell_inj {area : BitArea} {i j : Nat} (h : area.cell i = area.cell j) : i = j := by
  cases area with
  | elem e =>
    cases h
    rfl
  | lm layer => exact Nat.add_left_cancel (Cell.lm.inj h)

theorem WordArea.cell_inj {area : WordArea} {i j : Nat} (h : area.cell i = area.cell j) :
    i = j := by
  cases area with
  | elem e =>
    cases h
    rfl
  | v layer => exact Nat.add_left_cancel (Cell.v.inj h)

theorem changesOnly_refl : ChangesOnly A s s := ⟨fun _ _ => rfl, rfl⟩

/-- Writing a bit changes its cell only. -/
theorem read_setBit {area : BitArea} {c : Cell} {i : Nat} (h : c ≠ area.cell i) (b : Bool) :
    c.read (s.setBit area i b) = c.read s := by
  cases area with
  | elem e =>
    cases c with
    | bit e' j =>
      have hne : ¬ (e' = e ∧ j = i) := fun heq => h (by rw [heq.1, heq.2]; rfl)
      rw [Cell.read, Cell.read]
      by_cases he : e' = e
      · subst he
        have hj : j ≠ i := fun hj => hne ⟨rfl, hj⟩
        simp [Store.setBit, hj]
      · simp [Store.setBit, he]
    | lm k | word e' j | v k | c32 j => rfl
  | lm layer =>
    cases c with
    | lm k =>
      have hk : k ≠ lmRang * layer + i := fun hk => h (by rw [hk]; rfl)
      simp [Cell.read, Store.setBit, hk]
    | bit e' j | word e' j | v k | c32 j => rfl

/-- Writing a word changes its cell only. -/
theorem read_setWord {area : WordArea} {c : Cell} {i : Nat} (h : c ≠ area.cell i) (x : BitVec 16) :
    c.read (s.setWord area i x) = c.read s := by
  cases area with
  | elem e =>
    cases c with
    | word e' j =>
      have hne : ¬ (e' = e ∧ j = i) := fun heq => h (by rw [heq.1, heq.2]; rfl)
      rw [Cell.read, Cell.read]
      by_cases he : e' = e
      · subst he
        have hj : j ≠ i := fun hj => hne ⟨rfl, hj⟩
        simp [Store.setWord, hj]
      · simp [Store.setWord, he]
    | bit e' j | lm k | v k | c32 j => rfl
  | v layer =>
    cases c with
    | v k =>
      have hk : k ≠ vRang * layer + i := fun hk => h (by rw [hk]; rfl)
      simp [Cell.read, Store.setWord, hk]
    | bit e' j | lm k | word e' j | c32 j => rfl

theorem read_setC32 {c : Cell} {i : Nat} (h : c ≠ .c32 i) (x : BitVec 32) :
    c.read (s.setC32 i x) = c.read s := by
  cases c with
  | c32 j =>
    have hj : j ≠ i := fun hj => h (by rw [hj])
    exact c32_setC32_of_ne hj x
  | bit e j | lm k | word e j | v k => rfl

theorem rest_setBit {area : BitArea} {i : Nat} {b : Bool} : (s.setBit area i b).rest = s.rest := by
  cases area <;> rfl

theorem rest_setWord {area : WordArea} {i : Nat} {x : BitVec 16} :
    (s.setWord area i x).rest = s.rest := by
  cases area <;> rfl

end

/-! ## Blocks -/

section

variable {α : Type} {s : Store} {A : Cell → Prop} {write : Nat → α → Store → Store}
variable {limit stride i : Nat} {xs : List α}

/-- What one write of a loop does: it gives the cells that it touches a value, and changes nothing
else. Writes that are at least `stride` apart touch different cells. -/
structure Touches (write : Nat → α → Store → Store) (stride : Nat) (touch : Nat → Cell → Prop)
    (value : Nat → α → Cell → BitVec 32) : Prop where
  self : ∀ k x s c, touch k c → c.read (write k x s) = value k x c
  other : ∀ k x s c, ¬ touch k c → c.read (write k x s) = c.read s
  apart : ∀ k l c, k + stride ≤ l → touch k c → ¬ touch l c
  rest : ∀ k x s, (write k x s).rest = s.rest

theorem saveLoop_changesOnly_iff {touch : Nat → Cell → Prop}
    {value : Nat → α → Cell → BitVec 32} (ht : Touches write stride touch value)
    (hlimit : limit + stride ≤ 65536) :
    ChangesOnly A s (saveLoop write limit stride xs i s).2 ↔
      ∀ j (hj : j < xs.length), i + stride * j < limit → ∀ c, touch (i + stride * j) c →
        A c ∨ c.read s = value (i + stride * j) (xs.get ⟨j, hj⟩) c := by
  have hsaved (j : Nat) (hj : j < xs.length) (hlt : i + stride * j < limit) (c : Cell)
      (hc : touch (i + stride * j) c) : c.read (saveLoop write limit stride xs i s).2 =
      value (i + stride * j) (xs.get ⟨j, hj⟩) c :=
    saveLoop_last c.read hlimit j hj hlt (fun s => ht.self _ _ s c hc)
      fun l hl x s => ht.other l x s c (ht.apart _ l c hl hc)
  constructor
  · intro h j hj hlt c hc
    by_cases hA : A c
    · exact .inl hA
    · rw [← hsaved j hj hlt c hc, h.cells c hA]
      exact .inr rfl
  · intro h
    refine ⟨fun c hA => ?_, saveLoop_frame Store.rest hlimit fun j _ _ x s => ht.rest _ x s⟩
    by_cases hc : ∃ j, ∃ hj : j < xs.length, i + stride * j < limit ∧ touch (i + stride * j) c
    · obtain ⟨j, hj, hlt, htouch⟩ := hc
      rw [hsaved j hj hlt c htouch]
      exact ((h j hj hlt c htouch).resolve_left hA).symm
    · refine saveLoop_frame c.read hlimit fun j hj hlt x s => ht.other _ x s c fun htouch => ?_
      exact hc ⟨j, hj, hlt, htouch⟩

theorem touches_setBit (area : BitArea) :
    Touches (fun i x s => s.setBit area i x) 1 (fun k c => c = area.cell k)
      fun _ x _ => BitVec.ofNat 32 x.toNat where
  self := by
    rintro k x s c rfl
    rw [area.read_cell, getBit_setBit_self]
  other := fun k x s c hc => read_setBit hc x
  apart := by
    rintro k l c hkl rfl hc
    have heq := area.cell_inj hc
    omega
  rest := fun _ _ _ => rest_setBit

theorem touches_setWord (area : WordArea) :
    Touches (fun i x s => s.setWord area i x) 1 (fun k c => c = area.cell k)
      fun _ x _ => x.setWidth 32 where
  self := by
    rintro k x s c rfl
    rw [area.read_cell, getWord_setWord_self]
  other := fun k x s c hc => read_setWord hc x
  apart := by
    rintro k l c hkl rfl hc
    have heq := area.cell_inj hc
    omega
  rest := fun _ _ _ => rest_setWord

theorem touches_setDword (area : WordArea) :
    Touches (setDword area area) 2 (fun k c => c = area.cell k ∨ c = area.cell (k + 1))
      fun k x c => (if c = area.cell k then x.setWidth 16 else highHalf x).setWidth 32 where
  self := by
    rintro k x s c (rfl | rfl)
    · rw [if_pos rfl, area.read_cell, setDword, getWord_setWord_of_ne (Nat.succ_ne_self k).symm,
        getWord_setWord_self]
    · have hne : area.cell (k + 1) ≠ area.cell k := fun h => Nat.succ_ne_self k (area.cell_inj h)
      rw [if_neg hne, area.read_cell, setDword, getWord_setWord_self]
      rfl
  other := by
    intro k x s c hc
    rw [not_or] at hc
    rw [setDword, read_setWord hc.2, read_setWord hc.1]
  apart := by
    rintro k l c hkl (rfl | rfl) (hc | hc) <;>
    · have heq := area.cell_inj hc
      omega
  rest := fun _ _ _ => rest_setWord.trans rest_setWord

theorem touches_setC32 :
    Touches (fun i x s => s.setC32 i x) 1 (fun k c => c = .c32 k) fun _ x _ => x where
  self := by
    rintro k x s c rfl
    exact c32_setC32_self k x
  other := fun k x s c hc => read_setC32 hc x
  apart := by
    rintro k l c hkl rfl hc
    have heq := Cell.c32.inj hc
    omega
  rest := fun _ _ _ => rfl

end

/-! ## Blocks of joined bits -/

section

variable {s : Store} {A : Cell → Prop} {w : Nat} {area : BitArea} {start width off n i : Nat}

theorem saveKnLoop_changesOnly_iff {xs : List (BitVec w)} (hwidth : 0 < width) :
    ChangesOnly A s (saveKnLoop area width start xs off s).2.2 ↔
      ∀ j (hj : j < xs.length) m, m < width → knBase start off width + width * j + m < area.rang →
        A (area.cell (knBase start off width + width * j + m)) ∨
          s.getBit area (knBase start off width + width * j + m) = (xs.get ⟨j, hj⟩).getLsbD m := by
  constructor
  · intro h j hj m hm hlt
    by_cases hA : A (area.cell (knBase start off width + width * j + m))
    · exact .inl hA
    · have hcell := h.cells _ hA
      rw [area.read_cell, area.read_cell] at hcell
      rw [← ofNat_toNat_inj hcell]
      exact .inr (saveKnLoop_read hwidth j hj hm hlt)
  · intro h
    refine ⟨fun c hA => ?_, saveKnLoop_frame Store.rest hwidth fun _ _ _ b s => rest_setBit⟩
    by_cases hc : ∃ k < xs.length * width, knBase start off width + k < area.rang ∧
        c = area.cell (knBase start off width + k)
    · obtain ⟨k, hk, hlt, rfl⟩ := hc
      -- The bit is number `k % width` of the value number `k / width`.
      have hj : k / width < xs.length := Nat.div_lt_of_lt_mul (by rwa [Nat.mul_comm])
      have hm : k % width < width := mod_lt k hwidth
      have hsplit : knBase start off width + width * (k / width) + k % width =
          knBase start off width + k := by
        rw [Nat.add_assoc, div_add_mod]
      have hread : (saveKnLoop area width start xs off s).2.2.getBit area
          (knBase start off width + width * (k / width) + k % width) = _ :=
        saveKnLoop_read hwidth (k / width) hj hm (by rwa [hsplit])
      have hheld := h (k / width) hj (k % width) hm (by rwa [hsplit])
      rw [hsplit] at hread hheld
      rw [area.read_cell, area.read_cell, hread, hheld.resolve_left hA]
    · refine saveKnLoop_frame c.read hwidth fun m hm hlt b s => read_setBit (fun heq => hc ?_) b
      exact ⟨m, hm, hlt, heq⟩

theorem ushiftRight_eq_self_iff (x : BitVec w) (k : Nat) : x >>> (k + 1) = x ↔ x = 0#w := by
  constructor
  · intro h
    have hnat := congrArg BitVec.toNat h
    rw [BitVec.toNat_ushiftRight, shiftRight_eq_div_pow] at hnat
    apply BitVec.eq_of_toNat_eq
    by_contra hne
    have hpos : 0 < x.toNat := Nat.pos_of_ne_zero fun hzero => hne (by simp [hzero])
    have hlt := Nat.div_lt_self hpos (Nat.one_lt_two_pow (succ_ne_zero k))
    exact absurd hnat (Nat.ne_of_lt hlt)
  · rintro rfl
    simp

theorem saveKn_shifts (x : BitVec w) :
    ∃ k : Nat, (saveKn area start n i x s).2.1 = x >>> k := by
  induction n generalizing i x s with
  | zero => exact ⟨0, (BitVec.ushiftRight_zero x).symm⟩
  | succ n ih =>
    rw [saveKn]
    split
    · obtain ⟨k, hk⟩ := ih (i := i + 1) (x >>> 1)
        (s := s.setBit area (elementIndex (start + i)) (x.getLsbD 0))
      refine ⟨1 + k, ?_⟩
      rw [hk, BitVec.shiftRight_add]
    · exact ⟨0, (BitVec.ushiftRight_zero x).symm⟩

/-- A value is left alone just if none of its bits is taken or there is none. -/
theorem saveKn_buffer_iff {x : BitVec w} (hn : 0 < n) :
    (saveKn area start n 0 x s).2.1 = x ↔ (elementIndex start < area.rang → x = 0#w) := by
  obtain ⟨n, rfl⟩ : ∃ k, n = k + 1 := ⟨n - 1, by omega⟩
  rw [saveKn, Nat.add_zero]
  split
  · rename_i hlt
    obtain ⟨k, hk⟩ : ∃ k : Nat, (saveKn area start n (0 + 1) (x >>> 1)
        (s.setBit area (elementIndex start) (x.getLsbD 0))).2.1 = x >>> 1 >>> k := saveKn_shifts _
    rw [hk, ← BitVec.shiftRight_add, Nat.add_comm, ushiftRight_eq_self_iff]
    exact ⟨fun h _ => h, fun h => h hlt⟩
  · rename_i hge
    exact iff_of_true rfl fun hlt => absurd hlt hge

theorem saveKnLoop_buffer_iff {xs : List (BitVec w)} (hwidth : 0 < width) :
    (saveKnLoop area width start xs off s).2.1 = xs ↔
      ∀ j (hj : j < xs.length), knBase start off width + width * j < area.rang →
        xs.get ⟨j, hj⟩ = 0#w := by
  have hrang := area.rang_le
  induction xs generalizing off s with
  | nil => exact iff_of_true rfl fun j hj => absurd hj (Nat.not_lt_zero j)
  | cons x xs ih =>
    have hcons : (∀ j (hj : j < (x :: xs).length), knBase start off width + width * j < area.rang →
        (x :: xs).get ⟨j, hj⟩ = 0#w) ↔ (knBase start off width < area.rang → x = 0#w) ∧
        ∀ j (hj : j < xs.length), knBase start off width + width + width * j < area.rang →
          xs.get ⟨j, hj⟩ = 0#w := by
      have hnext (j : Nat) : knBase start off width + width + width * j =
          knBase start off width + width * (j + 1) := by
        rw [mul_succ]
        omega
      simp only [hnext]
      refine ⟨fun h => ⟨h 0 (succ_pos _), fun j hj => h (j + 1) (succ_lt_succ hj)⟩, ?_⟩
      intro h j hj
      cases j with
      | zero => exact h.1
      | succ j => exact h.2 j (lt_of_succ_lt_succ hj)
    have hfirst : (saveKn area (start + off * width) width 0 x s).2.1 = x ↔
        (knBase start off width < area.rang → x = 0#w) := saveKn_buffer_iff hwidth
    have hok : (saveKn area (start + off * width) width 0 x s).1 = .ok () ↔ _ :=
      saveKn_ok_iff_base hwidth
    rw [saveKnLoop, hcons]
    split
    · rename_i x' s' heq
      rw [heq] at hfirst hok
      have hle := hok.mp rfl
      have hrest : (saveKnLoop area width start xs (elementIndex (off + 1)) s').2.1 = xs ↔ _ := ih
      rw [knBase_next_of_lt (by omega)] at hrest
      rw [List.cons.injEq]
      exact and_congr hfirst hrest
    · rename_i e x' s' heq
      rw [heq] at hfirst hok
      have hover : ¬ knBase start off width + width ≤ area.rang := fun hle =>
        error_ne_ok (hok.mpr hle)
      rw [List.cons.injEq, and_iff_left rfl, hfirst]
      refine ⟨fun h => ⟨h, fun j hj hlt => ?_⟩, And.left⟩
      exact absurd (Nat.le_trans (Nat.le_add_right _ _) (Nat.le_of_lt hlt)) hover

end

/-! ## What operands address -/

section

variable (u : Ucode) (p : Nat) (s : Store) (n off cnt : Nat)

/-- The number of the first bit of a `Kn` operand as it is written, not cut to 16 bits. -/
def knNumber (z : Bool) : Nat :=
  (if z then (s.word .Z (u.getPU8 p % 16)).toNat else 0) + u.getPU16 (p + 2)

def BitArea.Has (area : BitArea) (i cnt : Nat) (c : Cell) : Prop :=
  ∃ j < cnt, i + j < area.rang ∧ c = area.cell (i + j)

def WordArea.Has (area : WordArea) (i cnt : Nat) (c : Cell) : Prop :=
  ∃ j < cnt, i + j < area.rang ∧ c = area.cell (i + j)

/-- The cells that a block of `cnt` bits addresses at call level `n`. -/
def AddressedChar : Cell → Prop :=
  match (AddrType.ofCode (u.getPU8 (p + 1))).bind (namedBit n) with
  | some (area, z) => area.Has (operandStart u p s z + off) cnt
  | none => fun _ => False

/-- The cells that a block of `cnt` words addresses at call level `n`. -/
def AddressedWord : Cell → Prop :=
  match (AddrType.ofCode (u.getPU8 (p + 1))).bind (getWordTable n) with
  | some (.kn area z) =>
    area.Has (knNumber u p s z + off * (4 * operandKn u p z)) (cnt * (4 * operandKn u p z))
  | some (.cells area z _) => area.Has (operandStart u p s z + off) cnt
  | _ => fun _ => False

/-- The cells that a block of `cnt` double words addresses at call level `n`. The counters below 200
are not among those of 32 bits. -/
def AddressedDword : Cell → Prop :=
  match (AddrType.ofCode (u.getPU8 (p + 1))).bind (namedDword n) with
  | some (.kn area z) =>
    area.Has (knNumber u p s z + off * (4 * operandKn u p z)) (cnt * (4 * operandKn u p z))
  | some (.cells low _ z _) => low.Has (operandStart u p s z + off * 2) (cnt * 2)
  | some (.counter z _ _) => fun c => ∃ j < cnt, 200 ≤ operandStart u p s z + off + j ∧
      operandStart u p s z + off + j < cRang ∧ c = .c32 (operandStart u p s z + off + j)
  | _ => fun _ => False

/-- `save_char` changes only what its operand addresses. It does not write to its buffer. -/
def CharFrame (xs : List Bool) : Prop :=
  ChangesOnly (AddressedChar u p s n off xs.length) s (saveChar u p s n off xs).2

/-- `save_word` changes only what its operand addresses, and not its buffer. -/
def WordFrame (xs : List (BitVec 16)) : Prop :=
  (saveWord u p s n off xs).2.1 = xs ∧
    ChangesOnly (AddressedWord u p s n off xs.length) s (saveWord u p s n off xs).2.2

/-- `save_dword` changes only what its operand addresses, and not its buffer. -/
def DwordFrame (xs : List (BitVec 32)) : Prop :=
  (saveDword u p s n off xs).2.1 = xs ∧
    ChangesOnly (AddressedDword u p s n off xs.length) s (saveDword u p s n off xs).2.2

/-! ## When nothing else is changed -/

/-- The values of which joined bits are taken are zero, and if the number of the first bit is too
large for 16 bits, the bits that it comes to are off. -/
def KnKept {w : Nat} (area : BitArea) (z : Bool) (xs : List (BitVec w)) : Prop :=
  let width := 4 * operandKn u p z
  let base := knBase (operandKnStart u p s z) off width
  (∀ j (hj : j < xs.length), base + width * j < area.rang → xs.get ⟨j, hj⟩ = 0#w) ∧
  (65536 ≤ knNumber u p s z + off * width → ∀ j < xs.length, ∀ m < width,
    base + width * j + m < area.rang → s.getBit area (base + width * j + m) = false)

/-- A block of bits has a number that is not too large for 16 bits and is not local, or the bits
that are written have the values already. -/
def CharKept (xs : List Bool) : Prop :=
  match (AddrType.ofCode (u.getPU8 (p + 1))).bind (saveCharTable n) with
  | some (area, z) =>
    65536 ≤ operandStart u p s z + off ∨ area = .lm (n + 1) → ∀ j (hj : j < xs.length),
      blockStart u p s z off + 1 * j < area.rang →
        s.getBit area (blockStart u p s z off + 1 * j) = xs.get ⟨j, hj⟩
  | none => True

/-- The same for words, of which the plain local ones lie one layer up. -/
def WordKept (xs : List (BitVec 16)) : Prop :=
  match (AddrType.ofCode (u.getPU8 (p + 1))).bind (saveWordTable n) with
  | some (.kn area z) =>
    1 ≤ operandKn u p z → operandKn u p z ≤ 4 → KnKept u p s off area z xs
  | some (.cells area z limit) =>
    65536 ≤ operandStart u p s z + off ∨ area = .v (n + 1) → ∀ j (hj : j < xs.length),
      blockStart u p s z off + 1 * j < limit →
        s.getWord area (blockStart u p s z off + 1 * j) = xs.get ⟨j, hj⟩
  | _ => True

/-- The same for double words. A counter that is written is one of those addressed, or has the value
already. -/
def DwordKept (xs : List (BitVec 32)) : Prop :=
  match (AddrType.ofCode (u.getPU8 (p + 1))).bind (saveDwordTable n) with
  | some (.kn area z) =>
    5 ≤ operandKn u p z → operandKn u p z ≤ 8 → KnKept u p s off area z xs
  | some (.cells low high z limit) =>
    65536 ≤ operandStart u p s z + off * 2 → ∀ j (hj : j < xs.length),
      blockStart u p s z (off * 2) + 2 * j < limit →
        getTwo low high s (blockStart u p s z (off * 2) + 2 * j) = xs.get ⟨j, hj⟩
  | some (.counter z scale limit) => ∀ j (hj : j < xs.length),
      blockStart u p s z (off * scale) + 1 * j < limit →
        (200 ≤ blockStart u p s z (off * scale) + 1 * j ∧
          operandStart u p s z + off ≤ blockStart u p s z (off * scale) + 1 * j ∧
          blockStart u p s z (off * scale) + 1 * j < operandStart u p s z + off + xs.length) ∨
        s.c32 (blockStart u p s z (off * scale) + 1 * j) = xs.get ⟨j, hj⟩
  | _ => True

end

section

variable {u : Ucode} {p : Nat} {s : Store} {n off : Nat}

/-- An element that is written is addressed just if the number is not too large for 16 bits. -/
theorem BitArea.has_cell_iff {area : BitArea} {i j cnt : Nat} (hj : j < cnt)
    (hlt : elementIndex i + j < area.rang) :
    area.Has i cnt (area.cell (elementIndex i + j)) ↔ i < 65536 := by
  have hrang := area.rang_le
  constructor
  · rintro ⟨j', -, hlt', -⟩
    omega
  · intro hi
    rw [elementIndex_of_lt hi] at hlt ⊢
    exact ⟨j, hj, hlt, rfl⟩

theorem WordArea.has_cell_iff {area : WordArea} {i j cnt : Nat} (hj : j < cnt)
    (hlt : elementIndex i + j < area.rang) :
    area.Has i cnt (area.cell (elementIndex i + j)) ↔ i < 65536 := by
  have hrang := area.rang_le
  constructor
  · rintro ⟨j', -, hlt', -⟩
    omega
  · intro hi
    rw [elementIndex_of_lt hi] at hlt ⊢
    exact ⟨j, hj, hlt, rfl⟩

/-- The local elements one layer up are not addressed. -/
theorem not_has_lm {i k cnt : Nat} :
    ¬ (BitArea.lm n).Has i cnt ((BitArea.lm (n + 1)).cell k) := by
  rintro ⟨j, -, hlt, hcell⟩
  have heq : lmRang * (n + 1) + k = lmRang * n + (i + j) := Cell.lm.inj hcell
  have hlt' : i + j < lmRang := hlt
  rw [mul_succ] at heq
  omega

theorem not_has_v {i k cnt : Nat} :
    ¬ (WordArea.v n).Has i cnt ((WordArea.v (n + 1)).cell k) := by
  rintro ⟨j, -, hlt, hcell⟩
  have heq : vRang * (n + 1) + k = vRang * n + (i + j) := Cell.v.inj hcell
  have hlt' : i + j < vRang := hlt
  rw [mul_succ] at heq
  omega

/-- Where the operands of `save_char` are to lie. -/
theorem namedBit_of_save {a : AddrType} {area : BitArea} {z : Bool}
    (h : saveCharTable n a = some (area, z)) :
    namedBit n a = some (area, z) ∧ area ≠ .lm (n + 1) ∨
      area = .lm (n + 1) ∧ namedBit n a = some (.lm n, z) := by
  cases a <;> cases h <;> first | exact .inr ⟨rfl, rfl⟩ | exact .inl ⟨rfl, nofun⟩

/-- If all of the elements written are addressed or none is, only the second case asks for
anything. -/
theorem forall_addressed_or_iff {len : Nat} {bad : Prop}
    {lt addressed held : (j : Nat) → j < len → Prop}
    (h : ∀ j hj, lt j hj → (addressed j hj ↔ ¬ bad)) :
    (∀ j hj, lt j hj → addressed j hj ∨ held j hj) ↔ (bad → ∀ j hj, lt j hj → held j hj) := by
  constructor
  · intro hall hbad j hj hlt
    exact (hall j hj hlt).resolve_left fun ha => (h j hj hlt).mp ha hbad
  · intro hall j hj hlt
    by_cases hbad : bad
    · exact .inr (hall hbad j hj hlt)
    · exact .inl ((h j hj hlt).mpr hbad)

theorem charFrame_iff (xs : List Bool) :
    CharFrame u p s n off xs ↔ CharKept u p s n off xs := by
  rcases hform : (AddrType.ofCode (u.getPU8 (p + 1))).bind (saveCharTable n) with _ | ⟨area, z⟩
  · simp only [CharFrame, saveChar, CharKept, hform]
    exact iff_of_true changesOnly_refl trivial
  · obtain ⟨a, ha, htable⟩ := bind_eq_some_iff.mp hform
    have hrang := area.rang_le
    have haddressed (j : Nat) (hj : j < xs.length)
        (hlt : blockStart u p s z off + 1 * j < area.rang) :
        AddressedChar u p s n off xs.length (area.cell (blockStart u p s z off + 1 * j)) ↔
          ¬ (65536 ≤ operandStart u p s z + off ∨ area = .lm (n + 1)) := by
      rcases namedBit_of_save htable with ⟨hnamed, hown⟩ | ⟨rfl, hnamed⟩
      · simp only [AddressedChar, ha, bind_some, hnamed]
        rw [Nat.one_mul] at hlt ⊢
        rw [not_or, and_iff_left hown, Nat.not_le]
        exact BitArea.has_cell_iff hj hlt
      · simp only [AddressedChar, ha, bind_some, hnamed]
        exact iff_of_false not_has_lm fun h => h (.inr trivial)
    simp only [CharFrame, saveChar, CharKept, hform]
    rw [saveLoop_changesOnly_iff (touches_setBit area) (by omega)]
    simp only [forall_eq]
    rw [← forall_addressed_or_iff haddressed]
    refine forall_congr' fun j => forall_congr' fun hj => imp_congr_right fun _ => or_congr_right ?_
    rw [area.read_cell]
    exact ⟨ofNat_toNat_inj, congrArg fun b : Bool => BitVec.ofNat 32 b.toNat⟩

/-! ## Words -/

theorem knBase_operand (z : Bool) (width : Nat) :
    knBase (operandKnStart u p s z) off width = elementIndex (knNumber u p s z + off * width) := by
  cases z with
  | false => rw [knBase, knNumber, operandKnStart, if_neg Bool.false_ne_true, if_neg Bool.false_ne_true,
      Nat.zero_add]
  | true =>
    exact elementIndex_mod _ _

theorem knFrame_iff {w : Nat} {xs : List (BitVec w)} {area : BitArea} {z : Bool} {A : Cell → Prop}
    (hwidth : 0 < 4 * operandKn u p z)
    (hA : A = area.Has (knNumber u p s z + off * (4 * operandKn u p z))
      (xs.length * (4 * operandKn u p z))) :
    ((saveKnLoop area (4 * operandKn u p z) (operandKnStart u p s z) xs off s).2.1 = xs ∧
      ChangesOnly A s
        (saveKnLoop area (4 * operandKn u p z) (operandKnStart u p s z) xs off s).2.2) ↔
    KnKept u p s off area z xs := by
  rw [saveKnLoop_buffer_iff hwidth, saveKnLoop_changesOnly_iff hwidth]
  refine and_congr_right fun hzero => ?_
  have haddressed (j : Nat) (hj : j < xs.length) (m : Nat) (hm : m < 4 * operandKn u p z)
      (hlt :
        knBase (operandKnStart u p s z) off (4 * operandKn u p z) + 4 * operandKn u p z * j + m <
        area.rang) :
      A (area.cell (knBase (operandKnStart u p s z) off (4 * operandKn u p z) +
          4 * operandKn u p z * j + m)) ↔
        ¬ 65536 ≤ knNumber u p s z + off * (4 * operandKn u p z) := by
    have hk : 4 * operandKn u p z * j + m < xs.length * (4 * operandKn u p z) := by
      have hmul := Nat.mul_le_mul_left (4 * operandKn u p z) hj
      rw [mul_succ] at hmul
      rw [Nat.mul_comm xs.length]
      omega
    rw [hA, Nat.not_le]
    rw [knBase_operand, Nat.add_assoc] at hlt ⊢
    exact BitArea.has_cell_iff hk hlt
  have hbit (j : Nat) (hj : j < xs.length) (m : Nat)
      (hlt :
        knBase (operandKnStart u p s z) off (4 * operandKn u p z) + 4 * operandKn u p z * j + m <
        area.rang) : (xs.get ⟨j, hj⟩).getLsbD m = false := by
    rw [hzero j hj (Nat.lt_of_le_of_lt (Nat.le_add_right _ m) hlt), BitVec.getLsbD_zero]
  constructor
  · intro h hwrap j hj m hm hlt
    rw [← hbit j hj m hlt]
    exact (h j hj m hm hlt).resolve_left fun ha => (haddressed j hj m hm hlt).mp ha hwrap
  · intro h j hj m hm hlt
    by_cases hwrap : 65536 ≤ knNumber u p s z + off * (4 * operandKn u p z)
    · rw [hbit j hj m hlt]
      exact .inr (h hwrap j hj m hm hlt)
    · exact .inl ((haddressed j hj m hm hlt).mpr hwrap)

/-- Where the word elements of `save_word` are to lie. -/
theorem getWordTable_of_save {a : AddrType} {form : WordForm} (h : saveWordTable n a = some form) :
    (∃ area z, form = .kn area z ∧ getWordTable n a = some (.kn area z)) ∨
    (∃ area z l l', form = .cells area z l ∧ getWordTable n a = some (.cells area z l') ∧
      l ≤ area.rang ∧ area ≠ .v (n + 1)) ∨
    form = .cells (.v (n + 1)) false vRang ∧
      ∃ l', getWordTable n a = some (.cells (.v n) false l') := by
  by_cases hv : a = .v
  · subst hv
    cases h
    exact .inr (.inr ⟨rfl, _, rfl⟩)
  · rcases saveWordTable_cases h hv with hkn | ⟨area, z, l, l', rfl, htable, hle, hl', -⟩
    · exact .inl hkn
    · refine .inr (.inl ⟨area, z, l, l', rfl, htable, by omega, ?_⟩)
      rintro rfl
      cases a <;> first | exact hv rfl | cases h

theorem wordFrame_iff (xs : List (BitVec 16)) :
    WordFrame u p s n off xs ↔ WordKept u p s n off xs := by
  rcases hform : (AddrType.ofCode (u.getPU8 (p + 1))).bind (saveWordTable n) with _ | form
  · simp only [WordFrame, saveWord, WordKept, hform]
    exact iff_of_true ⟨trivial, changesOnly_refl⟩ trivial
  obtain ⟨a, ha, hsave⟩ := bind_eq_some_iff.mp hform
  have hcells (area : WordArea) (z : Bool) (limit : Nat) (hlimit : limit ≤ area.rang)
      (hsome : form = .cells area z limit)
      (haddressed : ∀ j, j < xs.length → blockStart u p s z off + 1 * j < limit →
        (AddressedWord u p s n off xs.length (area.cell (blockStart u p s z off + 1 * j)) ↔
          ¬ (65536 ≤ operandStart u p s z + off ∨ area = .v (n + 1)))) :
      WordFrame u p s n off xs ↔ WordKept u p s n off xs := by
    have hrang := area.rang_le
    subst hsome
    simp only [WordFrame, saveWord, WordKept, hform]
    rw [saveLoop_changesOnly_iff (touches_setWord area) (by omega), true_and]
    simp only [forall_eq]
    rw [← forall_addressed_or_iff haddressed]
    refine forall_congr' fun j => forall_congr' fun hj => imp_congr_right fun _ => or_congr_right ?_
    rw [area.read_cell]
    exact ⟨setWidth_inj, congrArg fun x : BitVec 16 => x.setWidth 32⟩
  rcases getWordTable_of_save hsave with ⟨area, z, rfl, htable⟩ |
    ⟨area, z, l, l', rfl, htable, hle, hown⟩ | ⟨rfl, l', htable⟩
  · simp only [WordFrame, saveWord, WordKept, hform]
    split
    · rename_i hkn
      refine iff_of_true ⟨rfl, changesOnly_refl⟩ fun hleast hmost => ?_
      omega
    · rename_i hkn
      rw [knFrame_iff (by omega) (by simp only [AddressedWord, ha, bind_some, htable])]
      exact ⟨fun h _ _ => h, fun h => h (by omega) (by omega)⟩
  · refine hcells area z l hle rfl fun j hj hlt => ?_
    simp only [AddressedWord, ha, bind_some, htable]
    rw [Nat.one_mul] at hlt ⊢
    rw [not_or, and_iff_left hown, Nat.not_le]
    exact WordArea.has_cell_iff hj (Nat.lt_of_lt_of_le hlt hle)
  · refine hcells (.v (n + 1)) false vRang (Nat.le_refl _) rfl fun j hj hlt => ?_
    simp only [AddressedWord, ha, bind_some, htable]
    exact iff_of_false not_has_v fun h => h (.inr trivial)

/-! ## Double words -/

/-- Where the operands of `save_dword` are to lie. -/
theorem namedDword_of_save {a : AddrType} {form : DwordForm} (h : saveDwordTable n a = some form) :
    (∃ area z, form = .kn area z ∧ namedDword n a = some (.kn area z)) ∨
    (∃ area z, form = .of area z ∧ namedDword n a = some (.of area z)) ∨
    ∃ z scale, form = .counter z scale cRang ∧ namedDword n a = some (.counter z 1 cRang) := by
  cases a <;> cases h <;> first
    | exact .inl ⟨_, _, rfl, rfl⟩
    | exact .inr (.inl ⟨_, _, rfl, rfl⟩)
    | exact .inr (.inr ⟨_, _, rfl, rfl⟩)

theorem halves_held_iff {area : WordArea} {k : Nat} {x : BitVec 32} :
    (∀ c, c = area.cell k ∨ c = area.cell (k + 1) →
      c.read s = (if c = area.cell k then x.setWidth 16 else highHalf x).setWidth 32) ↔
    getTwo area area s k = x := by
  have hne : area.cell (k + 1) ≠ area.cell k := fun h => Nat.succ_ne_self k (area.cell_inj h)
  simp only [forall_eq_or_imp, forall_eq, if_neg hne, area.read_cell]
  constructor
  · rintro ⟨hlow, hhigh⟩
    rw [getTwo, setWidth_inj hlow, setWidth_inj hhigh]
    exact append_highHalf x
  · rintro rfl
    exact ⟨congrArg _ (lowHalf_append _ _).symm, congrArg _ (highHalf_append _ _).symm⟩

theorem dwordFrame_iff (xs : List (BitVec 32)) :
    DwordFrame u p s n off xs ↔ DwordKept u p s n off xs := by
  rcases hform : (AddrType.ofCode (u.getPU8 (p + 1))).bind (saveDwordTable n) with _ | form
  · simp only [DwordFrame, saveDword, DwordKept, hform]
    exact iff_of_true ⟨trivial, changesOnly_refl⟩ trivial
  obtain ⟨a, ha, hsave⟩ := bind_eq_some_iff.mp hform
  rcases namedDword_of_save hsave with ⟨area, z, rfl, htable⟩ | ⟨area, z, rfl, htable⟩ |
    ⟨z, scale, rfl, htable⟩
  · simp only [DwordFrame, saveDword, DwordKept, hform]
    split
    · rename_i hkn
      refine iff_of_true ⟨rfl, changesOnly_refl⟩ fun hleast hmost => ?_
      omega
    · rename_i hkn
      rw [knFrame_iff (by omega) (by simp only [AddressedDword, ha, bind_some, htable])]
      exact ⟨fun h _ _ => h, fun h => h (by omega) (by omega)⟩
  · have hrang := area.rang_le
    have haddressed (j : Nat) (hj : j < xs.length)
        (hlt : blockStart u p s z (off * 2) + 2 * j < area.rang - 1) (c : Cell)
        (hc : c = area.cell (blockStart u p s z (off * 2) + 2 * j) ∨
          c = area.cell (blockStart u p s z (off * 2) + 2 * j + 1)) :
        AddressedDword u p s n off xs.length c ↔ ¬ 65536 ≤ operandStart u p s z + off * 2 := by
      simp only [AddressedDword, ha, bind_some, htable]
      rw [Nat.not_le]
      rcases hc with rfl | rfl
      · exact WordArea.has_cell_iff (by omega) (by rw [blockStart] at hlt; omega)
      · rw [Nat.add_assoc]
        exact WordArea.has_cell_iff (by omega) (by rw [blockStart] at hlt; omega)
    simp only [DwordFrame, saveDword, DwordKept, hform, DwordForm.of]
    rw [saveLoop_changesOnly_iff (touches_setDword area) (by omega), true_and]
    constructor
    · intro h hwrap j hj hlt
      refine halves_held_iff.mp fun c hc => ?_
      exact (h j hj hlt c hc).resolve_left fun hA => (haddressed j hj hlt c hc).mp hA hwrap
    · intro h j hj hlt c hc
      by_cases hwrap : 65536 ≤ operandStart u p s z + off * 2
      · exact .inr (halves_held_iff.mpr (h hwrap j hj hlt) c hc)
      · exact .inl ((haddressed j hj hlt c hc).mpr hwrap)
  · simp only [DwordFrame, saveDword, DwordKept, hform]
    rw [← blockStart, saveLoop_changesOnly_iff touches_setC32 (by decide), true_and]
    simp only [forall_eq]
    refine forall_congr' fun j => forall_congr' fun hj => imp_congr_right fun hlt =>
      or_congr_left ?_
    simp only [AddressedDword, ha, bind_some, htable]
    constructor
    · rintro ⟨j', hj', hleast, -, hcell⟩
      have heq := Cell.c32.inj hcell
      omega
    · intro h
      refine ⟨blockStart u p s z (off * scale) + 1 * j - (operandStart u p s z + off), by omega,
        by omega, by omega, congrArg Cell.c32 (by omega)⟩

end

/-- The save functions change only what their operand addresses and leave their buffer alone just if
the elements written beside hold the values already, and the values from which bits are taken are
zero. -/
theorem save_frames_iff (u : Ucode) (p n off : Nat) (s : Store) :
    (∀ xs, CharFrame u p s n off xs ↔ CharKept u p s n off xs) ∧
    (∀ xs, WordFrame u p s n off xs ↔ WordKept u p s n off xs) ∧
    ∀ xs, DwordFrame u p s n off xs ↔ DwordKept u p s n off xs :=
  ⟨charFrame_iff, wordFrame_iff, dwordFrame_iff⟩

/-- A one stored in `K1Y0` is shifted out of the buffer, so that the `V0` of a subroutine that is
returned there is zero afterwards. -/
theorem k1y0_consumes_v0 :
    ¬ WordFrame [0x02, 0x00, 0x01, 0x0D, 0x00, 0x00] 2 .off 0 0 [1] ∧
    ∃ s', storeParameter [0x02, 0x00, 0x01, 0x0D, 0x00, 0x00] 0 0 ⟨0, 0⟩
        (Store.off.setWord (.v 1) 0 1) .word = (.ok (), s') ∧ s'.getWord (.v 1) 0 = 0 := by
  refine ⟨fun h => ?_, _, rfl, by decide⟩
  exact absurd h.1 (by decide)

end Kalyke
