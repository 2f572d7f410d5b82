-- SUMMARY: The cells that the get and save functions access for an operand.
import Kalyke.Exec.Frames

/-!
# Accesses

Which cells of the elements a get or save function reads or writes, up to the first number that it
refuses: the index register, and the elements that its loop comes to. What a get function returns
depends on these cells only, and a save function changes no others. Whether a cell is an element of
its class is said apart from that.
-/

namespace Kalyke

open List Nat

/-! ## Elements -/

/-- The cells that are elements of their class. -/
def Cell.IsElement : Cell → Prop
  | bit e i => i < e.rang
  | lm k => k < lmRang * maxSbrNestedLayer
  | word e i => i < e.rang
  | v k => k < vRang * maxSbrNestedLayer
  | c32 i => 200 ≤ i ∧ i < cRang

instance decidableIsElement : ∀ c : Cell, Decidable c.IsElement
  | .bit e i => inferInstanceAs (Decidable (i < e.rang))
  | .lm k => inferInstanceAs (Decidable (k < lmRang * maxSbrNestedLayer))
  | .word e i => inferInstanceAs (Decidable (i < e.rang))
  | .v k => inferInstanceAs (Decidable (k < vRang * maxSbrNestedLayer))
  | .c32 i => inferInstanceAs (Decidable (200 ≤ i ∧ i < cRang))

/-- There are layers for all call levels below the greatest one. -/
def BitArea.Exists : BitArea → Prop
  | elem _ => True
  | lm layer => layer < maxSbrNestedLayer

def WordArea.Exists : WordArea → Prop
  | elem _ => True
  | v layer => layer < maxSbrNestedLayer

theorem layer_lt_iff {rang layer i : Nat} (hi : i < rang) :
    rang * layer + i < rang * maxSbrNestedLayer ↔ layer < maxSbrNestedLayer := by
  constructor
  · intro h
    exact Nat.lt_of_mul_lt_mul_left (Nat.lt_of_le_of_lt (Nat.le_add_right _ i) h)
  · intro h
    have hle := Nat.mul_le_mul_left rang (succ_le_of_lt h)
    rw [mul_succ] at hle
    omega

theorem BitArea.isElement_cell {area : BitArea} {i : Nat} (hi : i < area.rang) :
    (area.cell i).IsElement ↔ area.Exists := by
  cases area with
  | elem e => exact iff_of_true hi trivial
  | lm layer => exact layer_lt_iff hi

theorem WordArea.isElement_cell {area : WordArea} {i : Nat} (hi : i < area.rang) :
    (area.cell i).IsElement ↔ area.Exists := by
  cases area with
  | elem e => exact iff_of_true hi trivial
  | v layer => exact layer_lt_iff hi

/-! ## What a loop accesses -/

section

variable {cells : Nat → List Cell} {limit stride n i : Nat} {c : Cell}

/-- The cells that the loops of the get and save functions access, if those of one number are given:
the get loop itself yields them. -/
def loopCells (cells : Nat → List Cell) (limit stride n i : Nat) : List Cell :=
  (getLoop cells limit stride n i).2.flatten

theorem mem_loopCells (hlimit : limit + stride ≤ 65536) :
    c ∈ loopCells cells limit stride n i ↔
      ∃ j < n, i + stride * j < limit ∧ c ∈ cells (i + stride * j) := by
  induction n generalizing i with
  | zero =>
    refine iff_of_false not_mem_nil ?_
    rintro ⟨j, hj, -⟩
    exact absurd hj (Nat.not_lt_zero j)
  | succ n ih =>
    have hnext (j : Nat) : i + stride + stride * j = i + stride * (j + 1) := by
      rw [mul_succ]
      omega
    by_cases hi : i < limit
    · have hcells : loopCells cells limit stride (n + 1) i =
          cells i ++ loopCells cells limit stride n (i + stride) := by
        rw [loopCells, getLoop, if_pos hi, elementIndex_add hlimit hi]
        rfl
      rw [hcells, mem_append, ih]
      constructor
      · rintro (h | ⟨j, hj, hlt, h⟩)
        · exact ⟨0, succ_pos n, hi, h⟩
        · rw [hnext] at hlt h
          exact ⟨j + 1, succ_lt_succ hj, hlt, h⟩
      · rintro ⟨j, hj, hlt, h⟩
        cases j with
        | zero => exact .inl h
        | succ j =>
          rw [← hnext] at hlt h
          exact .inr ⟨j, lt_of_succ_lt_succ hj, hlt, h⟩
    · have hcells : loopCells cells limit stride (n + 1) i = [] := by
        rw [loopCells, getLoop, if_neg hi]
        rfl
      rw [hcells]
      refine iff_of_false not_mem_nil ?_
      rintro ⟨j, -, hlt, -⟩
      omega

/-- The cells of one value that a get function joins from `width` bits, from the highest down to the
first that is out of range. -/
def getKnCells (area : BitArea) (start : Nat) : Nat → List Cell
  | 0 => []
  | width + 1 =>
    if elementIndex (start + width) < area.rang then
      area.cell (elementIndex (start + width)) :: getKnCells area start width
    else []

/-- The cells of one value that a save function distributes, from bit `i` up. -/
def saveKnCells (area : BitArea) (start : Nat) : Nat → Nat → List Cell
  | 0, _ => []
  | width + 1, i =>
    if elementIndex (start + i) < area.rang then
      area.cell (elementIndex (start + i)) :: saveKnCells area start width (i + 1)
    else []

/-- The cells of several values: the next one is accessed after all bits of the one before. -/
def knLoopCells (value : Nat → List Cell) (width start : Nat) : Nat → Nat → List Cell
  | 0, _ => []
  | n + 1, off =>
    value (start + off * width) ++
      if (value (start + off * width)).length = width then
        knLoopCells value width start n (elementIndex (off + 1))
      else []

end

section

variable {area : BitArea} {value : Nat → List Cell} {start width off n i : Nat} {c : Cell}

theorem mem_getKnCells (h : c ∈ getKnCells area start width) :
    ∃ m < width, elementIndex (start + m) < area.rang ∧
      c = area.cell (elementIndex (start + m)) := by
  induction width with
  | zero => cases h
  | succ width ih =>
    rw [getKnCells] at h
    split at h
    · rename_i hlt
      rcases mem_cons.mp h with rfl | h
      · exact ⟨width, lt_succ_self width, hlt, rfl⟩
      · obtain ⟨m, hm, hmem⟩ := ih h
        exact ⟨m, lt_succ_of_lt hm, hmem⟩
    · cases h

theorem mem_saveKnCells (h : c ∈ saveKnCells area start width i) :
    ∃ m < width, elementIndex (start + i + m) < area.rang ∧
      c = area.cell (elementIndex (start + i + m)) := by
  induction width generalizing i with
  | zero => cases h
  | succ width ih =>
    rw [saveKnCells] at h
    split at h
    · rename_i hlt
      rcases mem_cons.mp h with rfl | h
      · exact ⟨0, succ_pos width, hlt, rfl⟩
      · obtain ⟨m, hm, hmem⟩ := ih h
        rw [show start + (i + 1) + m = start + i + (m + 1) by omega] at hmem
        exact ⟨m + 1, succ_lt_succ hm, hmem⟩
    · cases h

/-- The cells of several values are cells of one of them. -/
theorem mem_knLoopCells (h : c ∈ knLoopCells value width start n off) : ∃ k, c ∈ value k := by
  induction n generalizing off with
  | zero => cases h
  | succ n ih =>
    rcases mem_append.mp h with h | h
    · exact ⟨_, h⟩
    · split at h
      · exact ih h
      · cases h

end

/-! ## The loops access these cells only -/

section

variable {α : Type} {s s' s'' : Store} {A B : Cell → Prop} {cells : Nat → List Cell}
variable {limit stride n i w : Nat} {area : BitArea} {start width off : Nat}

theorem getLoop_of_agree (read : Store → Nat → α) (hlimit : limit + stride ≤ 65536)
    (hread : ∀ k, (∀ c ∈ cells k, c.read s' = c.read s) → read s' k = read s k)
    (h : ∀ c ∈ loopCells cells limit stride n i, c.read s' = c.read s) :
    getLoop (read s') limit stride n i = getLoop (read s) limit stride n i := by
  simp only [mem_loopCells hlimit] at h
  induction n generalizing i with
  | zero => rfl
  | succ n ih =>
    rw [getLoop, getLoop]
    split
    · rename_i hi
      have hfirst : read s' i = read s i :=
        hread i fun c hc => h c ⟨0, succ_pos n, hi, hc⟩
      rw [elementIndex_add hlimit hi, hfirst, ih fun c hc => ?_]
      obtain ⟨j, hj, hlt, hc⟩ := hc
      have hnext : i + stride + stride * j = i + stride * (j + 1) := by
        rw [mul_succ]
        omega
      rw [hnext] at hlt hc
      exact h c ⟨j + 1, succ_lt_succ hj, hlt, hc⟩
    · rfl

theorem BitArea.getBit_of_agree {k : Nat}
    (h : (area.cell k).read s' = (area.cell k).read s) : s'.getBit area k = s.getBit area k := by
  rw [area.read_cell, area.read_cell] at h
  exact ofNat_toNat_inj h

theorem WordArea.getWord_of_agree {area : WordArea} {k : Nat}
    (h : (area.cell k).read s' = (area.cell k).read s) : s'.getWord area k = s.getWord area k := by
  rw [area.read_cell, area.read_cell] at h
  exact setWidth_inj h

theorem getKn_of_agree {acc : BitVec w}
    (h : ∀ c ∈ getKnCells area start width, c.read s' = c.read s) :
    getKn (s'.getBit area) area.rang start width acc =
      getKn (s.getBit area) area.rang start width acc := by
  induction width generalizing acc with
  | zero => rfl
  | succ width ih =>
    rw [getKnCells] at h
    rw [getKn, getKn]
    split at h
    · rename_i hlt
      rw [if_pos hlt, if_pos hlt, BitArea.getBit_of_agree (h _ mem_cons_self),
        ih fun c hc => h c (mem_cons_of_mem _ hc)]
    · rename_i hlt
      rw [if_neg hlt, if_neg hlt]

/-- All bits of a value are accessed if it passes. -/
theorem length_getKnCells {read : Nat → Bool} {acc : BitVec w}
    (h : (getKn read area.rang start width acc).1 = .ok ()) :
    (getKnCells area start width).length = width := by
  induction width generalizing acc with
  | zero => rfl
  | succ width ih =>
    rw [getKn] at h
    rw [getKnCells]
    split at h
    · rename_i hlt
      rw [if_pos hlt, length_cons, ih h]
    · cases h

theorem getKnLoop_of_agree
    (h : ∀ c ∈ knLoopCells (fun k => getKnCells area k width) width start n off,
      c.read s' = c.read s) :
    getKnLoop w (s'.getBit area) area.rang width start n off =
      getKnLoop w (s.getBit area) area.rang width start n off := by
  induction n generalizing off with
  | zero => rfl
  | succ n ih =>
    rw [knLoopCells] at h
    rw [getKnLoop, getKnLoop, getKn_of_agree fun c hc => h c (mem_append_left _ hc)]
    split
    · rename_i x heq
      have hlen : (getKnCells area (start + off * width) width).length = width :=
        length_getKnCells (congrArg Prod.fst heq)
      rw [if_pos hlen] at h
      rw [ih fun c hc => h c (mem_append_right _ hc)]
    · rfl

theorem ChangesOnly.mono (h : ChangesOnly A s s') (hAB : ∀ c, A c → B c) : ChangesOnly B s s' :=
  ⟨fun c hc => h.cells c fun hA => hc (hAB c hA), h.rest⟩

theorem ChangesOnly.trans (h : ChangesOnly A s s') (h' : ChangesOnly A s' s'') :
    ChangesOnly A s s'' :=
  ⟨fun c hc => (h'.cells c hc).trans (h.cells c hc), h'.rest.trans h.rest⟩

end

/-! ## What the get and save functions access -/

section

variable (u : Ucode) (p : Nat) (s : Store)

/-- The index register of an operand. -/
def registerCells (z : Bool) : List Cell := if z then [.word .Z (u.getPU8 p)] else []

/-- The index register of an operand with joined bits, which has four bits for its number. -/
def knRegisterCells (z : Bool) : List Cell := if z then [.word .Z (u.getPU8 p % 16)] else []

/-- The cells that `get_char` or `save_char` accesses. -/
def charCells (form : Option (BitArea × Bool)) (off cnt : Nat) : List Cell :=
  match form with
  | some (area, z) =>
    registerCells u p z ++
      loopCells (fun k => [area.cell k]) area.rang 1 cnt (blockStart u p s z off)
  | none => []

/-- The cells of an operand with joined bits, if those of one value are given. -/
def knCells (value : BitArea → Nat → Nat → List Cell) (area : BitArea) (z : Bool) (off cnt : Nat) :
    List Cell :=
  knRegisterCells u p z ++ knLoopCells (fun k => value area k (4 * operandKn u p z))
    (4 * operandKn u p z) (operandKnStart u p s z) cnt off

/-- The cells that `get_word` or `save_word` accesses. -/
def wordCells (value : BitArea → Nat → Nat → List Cell) (form : Option WordForm) (off cnt : Nat) :
    List Cell :=
  match form with
  | some (.kn area z) =>
    if operandKn u p z < 1 ∨ 4 < operandKn u p z then [] else knCells u p s value area z off cnt
  | some (.cells area z limit) =>
    registerCells u p z ++ loopCells (fun k => [area.cell k]) limit 1 cnt (blockStart u p s z off)
  | _ => []

/-- The cells that `get_dword` or `save_dword` accesses. -/
def dwordCells (value : BitArea → Nat → Nat → List Cell) (least : Bool → Nat)
    (form : Option DwordForm) (off cnt : Nat) : List Cell :=
  match form with
  | some (.kn area z) =>
    if operandKn u p z < least z ∨ 8 < operandKn u p z then []
    else knCells u p s value area z off cnt
  | some (.cells low high z limit) =>
    registerCells u p z ++ loopCells (fun k => [low.cell k, high.cell (k + 1)]) limit 2 cnt
      (blockStart u p s z (off * 2))
  | some (.counter z scale limit) =>
    registerCells u p z ++ loopCells (fun k => [.c32 k]) limit 1 cnt
      (blockStart u p s z (off * scale))
  | _ => []

def savedKnCells (area : BitArea) (start width : Nat) : List Cell := saveKnCells area start width 0

/-- The least number of nibbles that `save_dword` takes. -/
def saveDwordKnMin (_ : Bool) : Nat := 5

end

section

variable {u : Ucode} {p n off cnt : Nat} {s s' : Store}

theorem operandStart_of_agree {z : Bool} (h : ∀ c ∈ registerCells u p z, c.read s' = c.read s) :
    operandStart u p s' z = operandStart u p s z := by
  cases z with
  | false => rfl
  | true =>
    have hread := setWidth_inj (h (.word .Z (u.getPU8 p)) mem_cons_self)
    rw [operandStart, operandStart, if_pos rfl, if_pos rfl, hread]

theorem operandKnStart_of_agree {z : Bool} (h : ∀ c ∈ knRegisterCells u p z, c.read s' = c.read s) :
    operandKnStart u p s' z = operandKnStart u p s z := by
  cases z with
  | false => rfl
  | true =>
    have hread := setWidth_inj (h (.word .Z (u.getPU8 p % 16)) mem_cons_self)
    rw [operandKnStart, operandKnStart, if_pos rfl, if_pos rfl, hread]

theorem getKnLoop_of_agree_operand {w : Nat} {area : BitArea} {z : Bool}
    (h : ∀ c ∈ knCells u p s getKnCells area z off cnt, c.read s' = c.read s) :
    getKnLoop w (s'.getBit area) area.rang (4 * operandKn u p z) (operandKnStart u p s' z) cnt off =
      getKnLoop w (s.getBit area) area.rang (4 * operandKn u p z) (operandKnStart u p s z) cnt
        off := by
  simp only [knCells, forall_mem_append] at h
  rw [operandKnStart_of_agree h.1]
  exact getKnLoop_of_agree h.2

/-- The outcome of `get_word` depends on the cells that it accesses only. -/
theorem getWord_of_agree (h : ∀ c ∈ wordCells u p s getKnCells
      ((AddrType.ofCode (u.getPU8 (p + 1))).bind (getWordTable n)) off cnt, c.read s' = c.read s) :
    getWord u p s' n off cnt = getWord u p s n off cnt := by
  rcases hform : (AddrType.ofCode (u.getPU8 (p + 1))).bind (getWordTable n) with
    _ | _ | ⟨area, z⟩ | ⟨area, z, limit⟩
  · simp only [getWord, hform]
  · simp only [getWord, hform]
  · simp only [wordCells, hform] at h
    simp only [getWord, hform]
    split
    · rfl
    · rename_i hkn
      rw [if_neg hkn] at h
      exact getKnLoop_of_agree_operand h
  · obtain ⟨a, -, htable⟩ := Option.bind_eq_some_iff.mp hform
    have hlimit : limit ≤ 32768 := by
      cases a <;> cases htable <;> exact WordArea.rang_le _
    simp only [wordCells, hform, forall_mem_append] at h
    simp only [getWord, hform]
    rw [operandStart_of_agree h.1]
    refine getLoop_of_agree (fun s => s.getWord area) (by omega) (fun k hk => ?_) h.2
    exact WordArea.getWord_of_agree (hk _ mem_cons_self)

end

end Kalyke
