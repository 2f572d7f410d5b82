-- SUMMARY: Loops that save one value after the other, and when they leave the elements as they were.
import Kalyke.Exec.Accesses
import Kalyke.Exec.DataProcessing

/-!
# Moves

A loop over a block saves one value after the other. It leaves the elements as they were just if all
that it saves is there already, as no later save changes an element back: the values go to a lane,
in which each has elements of its own. Either the offsets are small against the 65536 numbers of an
element, or they follow one another and the loop stops at the first that is out of range.
-/

namespace Kalyke

open List Nat Option

/-! ## Values that are there already -/

section

variable (u : Ucode) (p : Nat) (s : Store) (n off : Nat)

/-- The bits of an operand hold those of the values, as far as they are in range. -/
def KnHeld {w : Nat} (area : BitArea) (z : Bool) (xs : List (BitVec w)) : Prop :=
  let width := 4 * operandKn u p z
  let base := knBase (operandKnStart u p s z) off width
  ∀ j (hj : j < xs.length), ∀ m < width, base + width * j + m < area.rang →
    s.getBit area (base + width * j + m) = (xs.get ⟨j, hj⟩).getLsbD m

/-- The elements that `save_char` comes to hold the values. -/
def CharsHeld (xs : List Bool) : Prop :=
  match (AddrType.ofCode (u.getPU8 (p + 1))).bind (saveCharTable n) with
  | some (area, z) => ∀ j (hj : j < xs.length), blockStart u p s z off + 1 * j < area.rang →
      s.getBit area (blockStart u p s z off + 1 * j) = xs.get ⟨j, hj⟩
  | none => True

def WordsHeld (xs : List (BitVec 16)) : Prop :=
  match (AddrType.ofCode (u.getPU8 (p + 1))).bind (saveWordTable n) with
  | some (.kn area z) =>
    1 ≤ operandKn u p z → operandKn u p z ≤ 4 → KnHeld u p s off area z xs
  | some (.cells area z limit) =>
    ∀ j (hj : j < xs.length), blockStart u p s z off + 1 * j < limit →
      s.getWord area (blockStart u p s z off + 1 * j) = xs.get ⟨j, hj⟩
  | _ => True

def DwordsHeld (xs : List (BitVec 32)) : Prop :=
  match (AddrType.ofCode (u.getPU8 (p + 1))).bind (saveDwordTable n) with
  | some (.kn area z) =>
    5 ≤ operandKn u p z → operandKn u p z ≤ 8 → KnHeld u p s off area z xs
  | some (.cells low high z limit) =>
    ∀ j (hj : j < xs.length), blockStart u p s z (off * 2) + 2 * j < limit →
      getTwo low high s (blockStart u p s z (off * 2) + 2 * j) = xs.get ⟨j, hj⟩
  | some (.counter z scale limit) =>
    ∀ j (hj : j < xs.length), blockStart u p s z (off * scale) + 1 * j < limit →
      s.c32 (blockStart u p s z (off * scale) + 1 * j) = xs.get ⟨j, hj⟩
  | _ => True

end

section

variable {u : Ucode} {p n off : Nat} {s s' s'' : Store} {A B : Cell → Prop}

/-- Where no cell changes, nothing does. -/
theorem changesOnly_none_iff : ChangesOnly (fun _ => False) s s' ↔ s' = s := by
  constructor
  · intro h
    have hbit : s'.bit = s.bit :=
      funext fun e => funext fun i => ofNat_toNat_inj (h.cells (.bit e i) id)
    have hlm : s'.lm = s.lm := funext fun k => ofNat_toNat_inj (h.cells (.lm k) id)
    have hword : s'.word = s.word :=
      funext fun e => funext fun i => setWidth_inj (h.cells (.word e i) id)
    have hv : s'.v = s.v := funext fun k => setWidth_inj (h.cells (.v k) id)
    have hc32 : s'.c32 = s.c32 := funext fun i => h.cells (.c32 i) id
    have hrest := h.rest
    cases s
    cases s'
    simp only [Store.rest, Store.mk.injEq] at hbit hlm hword hv hc32 hrest ⊢
    exact ⟨hbit, hlm, hword, hv, hc32, hrest.2.2.2.2.2⟩
  · rintro rfl
    exact changesOnly_refl

/-- What is changed in one step is not changed back in a step that changes other cells. -/
theorem eq_of_changesOnly (h : ChangesOnly A s s') (h' : ChangesOnly B s' s)
    (hAB : ∀ c, A c → ¬ B c) : s' = s := by
  refine changesOnly_none_iff.mp ⟨fun c _ => ?_, h.rest⟩
  by_cases hA : A c
  · exact (h'.cells c (hAB c hA)).symm
  · exact h.cells c hA

theorem saveKnLoop_eq_iff {w : Nat} {area : BitArea} {z : Bool} {xs : List (BitVec w)}
    (hwidth : 0 < 4 * operandKn u p z) :
    (saveKnLoop area (4 * operandKn u p z) (operandKnStart u p s z) xs off s).2.2 = s ↔
      KnHeld u p s off area z xs := by
  rw [← changesOnly_none_iff, saveKnLoop_changesOnly_iff hwidth]
  simp only [false_or]
  rfl

theorem saveChar_eq_iff {xs : List Bool} :
    (saveChar u p s n off xs).2 = s ↔ CharsHeld u p s n off xs := by
  rcases hform : (AddrType.ofCode (u.getPU8 (p + 1))).bind (saveCharTable n) with _ | ⟨area, z⟩
  · simp only [saveChar, hform, CharsHeld]
  · have hrang := area.rang_le
    simp only [saveChar, hform, CharsHeld]
    rw [← changesOnly_none_iff, saveLoop_changesOnly_iff (touches_setBit area) (by omega)]
    simp only [forall_eq, false_or]
    refine forall_congr' fun j => forall_congr' fun hj => imp_congr_right fun _ => ?_
    rw [area.read_cell]
    exact ⟨ofNat_toNat_inj, congrArg fun b : Bool => BitVec.ofNat 32 b.toNat⟩

theorem saveWord_eq_iff {xs : List (BitVec 16)} :
    (saveWord u p s n off xs).2.2 = s ↔ WordsHeld u p s n off xs := by
  rcases hform : (AddrType.ofCode (u.getPU8 (p + 1))).bind (saveWordTable n) with
    _ | _ | ⟨area, z⟩ | ⟨area, z, limit⟩
  · simp only [saveWord, hform, WordsHeld]
  · simp only [saveWord, hform, WordsHeld]
  · simp only [saveWord, hform, WordsHeld]
    split
    · rename_i hkn
      refine iff_of_true rfl fun hleast hmost => ?_
      omega
    · rename_i hkn
      rw [saveKnLoop_eq_iff (by omega)]
      exact ⟨fun h _ _ => h, fun h => h (by omega) (by omega)⟩
  · obtain ⟨a, -, htable⟩ := bind_eq_some_iff.mp hform
    have hlimit : limit ≤ 32768 := by
      cases a <;> cases htable <;> first | exact WordArea.rang_le _ | decide
    simp only [saveWord, hform, WordsHeld]
    rw [← changesOnly_none_iff, saveLoop_changesOnly_iff (touches_setWord area) (by omega)]
    simp only [forall_eq, false_or]
    refine forall_congr' fun j => forall_congr' fun hj => imp_congr_right fun _ => ?_
    rw [area.read_cell]
    exact ⟨setWidth_inj, congrArg fun x : BitVec 16 => x.setWidth 32⟩

theorem saveDword_eq_iff {xs : List (BitVec 32)} :
    (saveDword u p s n off xs).2.2 = s ↔ DwordsHeld u p s n off xs := by
  rcases hform : (AddrType.ofCode (u.getPU8 (p + 1))).bind (saveDwordTable n) with _ | form
  · simp only [saveDword, hform, DwordsHeld]
  obtain ⟨a, -, htable⟩ := bind_eq_some_iff.mp hform
  rcases namedDword_of_save htable with ⟨area, z, rfl, -⟩ | ⟨area, z, rfl, -⟩ | ⟨z, scale, rfl, -⟩
  · simp only [saveDword, hform, DwordsHeld]
    split
    · rename_i hkn
      refine iff_of_true rfl fun hleast hmost => ?_
      omega
    · rename_i hkn
      rw [saveKnLoop_eq_iff (by omega)]
      exact ⟨fun h _ _ => h, fun h => h (by omega) (by omega)⟩
  · have hrang := area.rang_le
    simp only [saveDword, hform, DwordsHeld, DwordForm.of]
    rw [← changesOnly_none_iff, saveLoop_changesOnly_iff (touches_setDword area) (by omega)]
    simp only [false_or]
    refine forall_congr' fun j => forall_congr' fun hj => imp_congr_right fun _ => ?_
    exact halves_held_iff
  · simp only [saveDword, hform, DwordsHeld]
    rw [← changesOnly_none_iff, saveLoop_changesOnly_iff touches_setC32 (by decide)]
    simp only [forall_eq, false_or]
    rfl

end

/-! ## Loops that change nothing -/

section

variable {α : Type}

/-- Up to the first failure, all that a loop saves is there already. -/
def Harmless (save : Nat → Nat → List α → Store → Except PlcErr Unit × Store)
    (held : Nat → Nat → List α → Store → Prop) : List (Move α) → Store → Prop
  | [], _ => True
  | m :: ms, s => ∀ xs, m.read s = .ok xs →
      held m.dst m.off xs s ∧ ((save m.dst m.off xs s).1 = .ok () → Harmless save held ms s)

/-- The same for a loop that goes on if the values cannot be saved. -/
def HarmlessOn (held : Nat → Nat → List α → Store → Prop) : List (Move α) → Store → Prop
  | [], _ => True
  | m :: ms, s => ∀ xs, m.read s = .ok xs → held m.dst m.off xs s ∧ HarmlessOn held ms s

variable {save : Nat → Nat → List α → Store → Except PlcErr Unit × Store}
variable {held : Nat → Nat → List α → Store → Prop} {m : Move α} {ms : List (Move α)}
variable {s : Store}

/-- A harmless loop leaves the elements as they were. -/
theorem Harmless.eq (hheld : ∀ dst off xs s, (save dst off xs s).2 = s ↔ held dst off xs s)
    (h : Harmless save held ms s) : (runMoves save ms s).2 = s := by
  induction ms with
  | nil => rfl
  | cons m ms ih =>
    rw [runMoves]
    split
    · rfl
    · rename_i xs hread
      obtain ⟨hthere, hrest⟩ := h xs hread
      have hsame := (hheld m.dst m.off xs s).mpr hthere
      split
      · rename_i s₁ hsave
        rw [hsave] at hsame hrest
        cases hsame
        exact ih (hrest rfl)
      · rename_i e s₁ hsave
        rw [hsave] at hsame
        exact hsame

theorem HarmlessOn.eq (hheld : ∀ dst off xs s, (save dst off xs s).2 = s ↔ held dst off xs s)
    {ret : Except PlcErr Unit} (h : HarmlessOn held ms s) : (runMovesOn save ms ret s).2 = s := by
  induction ms generalizing ret with
  | nil => rfl
  | cons m ms ih =>
    rw [runMovesOn]
    split
    · rfl
    · rename_i xs hread
      obtain ⟨hthere, hrest⟩ := h xs hread
      rw [(hheld m.dst m.off xs s).mpr hthere]
      exact ih hrest

/-- A move changes only cells that no later move changes back. -/
def Apart (F : Move α → Cell → Prop) : List (Move α) → Prop :=
  List.Pairwise fun m m' => ∀ c, F m c → ¬ F m' c

/-- What a save changes of the cells, by the move that it is part of. -/
structure Marks (save : Nat → Nat → List α → Store → Except PlcErr Unit × Store)
    (inv : Store → Prop) (F : Move α → Cell → Prop) (ms : List (Move α)) : Prop where
  keeps : ∀ m ∈ ms, ∀ s xs, inv s → m.read s = .ok xs → inv (save m.dst m.off xs s).2
  frame : ∀ m ∈ ms, ∀ s xs, inv s → m.read s = .ok xs →
    ChangesOnly (F m) s (save m.dst m.off xs s).2

variable {inv : Store → Prop} {F : Move α → Cell → Prop}

theorem Marks.tail (h : Marks save inv F (m :: ms)) : Marks save inv F ms :=
  ⟨fun m' hm' => h.keeps m' (mem_cons_of_mem _ hm'),
    fun m' hm' => h.frame m' (mem_cons_of_mem _ hm')⟩

/-- A loop changes only cells of its moves. -/
theorem runMoves_frame (h : Marks save inv F ms) (hinv : inv s) :
    ChangesOnly (fun c => ∃ m ∈ ms, F m c) s (runMoves save ms s).2 := by
  induction ms generalizing s with
  | nil => exact changesOnly_refl
  | cons m ms ih =>
    rw [runMoves]
    split
    · exact changesOnly_refl
    · rename_i xs hread
      have hfirst : ChangesOnly (fun c => ∃ m' ∈ m :: ms, F m' c) s (save m.dst m.off xs s).2 :=
        (h.frame m mem_cons_self s xs hinv hread).mono fun c hc => ⟨m, mem_cons_self, hc⟩
      have hkeep := h.keeps m mem_cons_self s xs hinv hread
      split
      · rename_i s₁ hsave
        rw [hsave] at hfirst hkeep
        refine hfirst.trans ((ih h.tail hkeep).mono ?_)
        rintro c ⟨m', hm', hc⟩
        exact ⟨m', mem_cons_of_mem _ hm', hc⟩
      · rename_i e s₁ hsave
        rw [hsave] at hfirst
        exact hfirst

theorem runMovesOn_frame {ret : Except PlcErr Unit} (h : Marks save inv F ms) (hinv : inv s) :
    ChangesOnly (fun c => ∃ m ∈ ms, F m c) s (runMovesOn save ms ret s).2 := by
  induction ms generalizing s ret with
  | nil => exact changesOnly_refl
  | cons m ms ih =>
    rw [runMovesOn]
    split
    · exact changesOnly_refl
    · rename_i xs hread
      have hfirst : ChangesOnly (fun c => ∃ m' ∈ m :: ms, F m' c) s (save m.dst m.off xs s).2 :=
        (h.frame m mem_cons_self s xs hinv hread).mono fun c hc => ⟨m, mem_cons_self, hc⟩
      have hkeep := h.keeps m mem_cons_self s xs hinv hread
      refine hfirst.trans ((ih h.tail hkeep).mono ?_)
      rintro c ⟨m', hm', hc⟩
      exact ⟨m', mem_cons_of_mem _ hm', hc⟩

/-- A loop over moves that are apart and that leaves the elements as they were is harmless. -/
theorem harmless_of_eq (hheld : ∀ dst off xs s, (save dst off xs s).2 = s ↔ held dst off xs s)
    (h : Marks save inv F ms) (hapart : Apart F ms) (hinv : inv s)
    (heq : (runMoves save ms s).2 = s) : Harmless save held ms s := by
  induction ms with
  | nil => trivial
  | cons m ms ih =>
    intro xs hread
    have hfirst := h.frame m mem_cons_self s xs hinv hread
    have hkeep := h.keeps m mem_cons_self s xs hinv hread
    simp only [runMoves, hread] at heq
    split at heq
    · rename_i s₁ hsave
      rw [hsave] at hfirst hkeep
      have hrest := runMoves_frame h.tail hkeep
      rw [heq] at hrest
      have hsame : s₁ = s := by
        refine eq_of_changesOnly hfirst hrest fun c hc => ?_
        rintro ⟨m', hm', hc'⟩
        exact rel_of_pairwise_cons hapart hm' c hc hc'
      subst hsame
      rw [← hheld, hsave]
      exact ⟨rfl, fun _ => ih h.tail hapart.of_cons heq⟩
    · rename_i e s₁ hsave
      rw [← hheld, hsave]
      exact ⟨heq, nofun⟩

theorem harmlessOn_of_eq (hheld : ∀ dst off xs s, (save dst off xs s).2 = s ↔ held dst off xs s)
    {ret : Except PlcErr Unit} (h : Marks save inv F ms) (hapart : Apart F ms) (hinv : inv s)
    (heq : (runMovesOn save ms ret s).2 = s) : HarmlessOn held ms s := by
  induction ms generalizing ret with
  | nil => trivial
  | cons m ms ih =>
    intro xs hread
    have hfirst := h.frame m mem_cons_self s xs hinv hread
    have hkeep := h.keeps m mem_cons_self s xs hinv hread
    simp only [runMovesOn, hread] at heq
    have hrest : ChangesOnly _ _ (runMovesOn save ms (save m.dst m.off xs s).1
        (save m.dst m.off xs s).2).2 := runMovesOn_frame h.tail hkeep
    rw [heq] at hrest
    have hsame : (save m.dst m.off xs s).2 = s := by
      refine eq_of_changesOnly hfirst hrest fun c hc => ?_
      rintro ⟨m', hm', hc'⟩
      exact rel_of_pairwise_cons hapart hm' c hc hc'
    rw [hsame] at heq
    exact ⟨(hheld _ _ _ _).mp hsame, ih h.tail hapart.of_cons heq⟩

end

/-! ## The elements of an operand in a row -/

/-- The elements that an operand comes to with growing offsets: values of `unit` cells that start
`step` numbers apart. -/
structure Lane where
  cell : Nat → Cell
  start : Nat
  step : Nat
  unit : Nat

/-- The number of the first element of the value at an offset. -/
def Lane.at (l : Lane) (off : Nat) : Nat := elementIndex (l.start + off * l.step)

/-- The cell belongs to one of `cnt` values from an offset on. -/
def Lane.Has (l : Lane) (off cnt : Nat) (c : Cell) : Prop :=
  ∃ m < l.unit * cnt, c = l.cell (l.at off + m)

section

variable {α : Type} {u : Ucode} {dst n : Nat}

/-- The values that are saved with an operand go to a lane, as long as the invariant holds that
tells where it starts. -/
structure LaneOf (save : Nat → List α → Store → Except PlcErr Unit × Store) (inv : Store → Prop)
    (l : Lane) : Prop where
  inj : ∀ x y, l.cell x = l.cell y → x = y
  unit_pos : 0 < l.unit
  unit_le : l.unit ≤ l.step
  keeps : ∀ off xs s, inv s → inv (save off xs s).2
  frame : ∀ off xs s, inv s → ChangesOnly (l.Has off xs.length) s (save off xs s).2
  pass : ∀ off xs s, inv s → 0 < xs.length → (save off xs s).1 = .ok () →
    l.at off + l.step * xs.length ≤ 32768

/-- An operand that no value can be saved with has any lane. -/
theorem laneOf_refused {save : Nat → List α → Store → Except PlcErr Unit × Store} {e : PlcErr}
    (h : ∀ off xs s, save off xs s = (.error e, s)) :
    LaneOf save (fun _ => True) ⟨.lm, 0, 1, 1⟩ where
  inj := fun _ _ => Cell.lm.inj
  unit_pos := Nat.one_pos
  unit_le := Nat.le_refl 1
  keeps := fun _ _ _ _ => trivial
  frame := fun off xs s _ => by
    rw [h]
    exact changesOnly_refl
  pass := fun off xs s _ _ hok => by
    rw [h] at hok
    cases hok

theorem laneOf_saveLoop (s₀ : Store) {write : Nat → α → Store → Store} {touch : Nat → Cell → Prop}
    {value : Nat → α → Cell → BitVec 32} {cell : Nat → Cell} {limit stride scale : Nat} {z : Bool}
    (ht : Touches write stride touch value) (hlimit : limit + stride ≤ 65536)
    (hinj : ∀ x y, cell x = cell y → x = y) (hpos : 0 < stride) (hunit : stride ≤ scale)
    (hcell : ∀ k c, touch k c → ∃ m < stride, c = cell (k + m))
    (hz : z = true → ∀ k x s, (write k x s).word .Z = s.word .Z)
    (hpass : ∀ i cnt, 0 < cnt → InBlock limit stride i cnt → i + scale * cnt ≤ 32768) :
    LaneOf (fun off xs s => saveLoop write limit stride xs
        (elementIndex (operandStart u dst s z + off * scale)) s)
      (fun s => z = true → s.word .Z = s₀.word .Z)
      ⟨cell, operandStart u dst s₀ z, scale, stride⟩ where
  inj := hinj
  unit_pos := hpos
  unit_le := hunit
  keeps := fun off xs s hinv hindexed => by
    refine Eq.trans ?_ (hinv hindexed)
    exact saveLoop_frame (fun s => s.word .Z) hlimit fun j _ _ x s => hz hindexed _ x s
  frame := fun off xs s hinv => by
    rw [operandStart_congr hinv]
    refine (saveLoop_changesOnly_iff ht hlimit).mpr fun j hj hlt c hc => .inl ?_
    obtain ⟨m, hm, rfl⟩ := hcell _ c hc
    have hmul : stride * (j + 1) ≤ stride * xs.length := Nat.mul_le_mul_left stride hj
    rw [mul_succ] at hmul
    refine ⟨stride * j + m, Nat.lt_of_lt_of_le (Nat.add_lt_add_left hm _) hmul, ?_⟩
    rw [Nat.add_assoc]
    rfl
  pass := fun off xs s hinv hlen hok => by
    rw [operandStart_congr hinv] at hok
    exact hpass _ _ hlen ((saveLoop_ok_iff hlimit).mp hok)

theorem laneOf_saveKnLoop (s₀ : Store) {w : Nat} {area : BitArea} {z : Bool}
    (hkn : 0 < operandKn u dst z) :
    LaneOf (fun off (xs : List (BitVec w)) s =>
        ((saveKnLoop area (4 * operandKn u dst z) (operandKnStart u dst s z) xs off s).1,
          (saveKnLoop area (4 * operandKn u dst z) (operandKnStart u dst s z) xs off s).2.2))
      (fun s => s.word .Z = s₀.word .Z)
      ⟨area.cell, operandKnStart u dst s₀ z, 4 * operandKn u dst z, 4 * operandKn u dst z⟩ where
  inj := fun _ _ => area.cell_inj
  unit_pos := by
    change 0 < 4 * operandKn u dst z
    omega
  unit_le := Nat.le_refl _
  keeps := fun off xs s hinv => by
    refine Eq.trans ?_ hinv
    exact congrFun (saveKnLoop_word (by omega)) .Z
  frame := fun off xs s hinv => by
    rw [operandKnStart_congr hinv]
    refine (saveKnLoop_changesOnly_iff (by omega)).mpr fun j hj m hm hlt => .inl ?_
    have hmul : 4 * operandKn u dst z * (j + 1) ≤ 4 * operandKn u dst z * xs.length :=
      Nat.mul_le_mul_left _ hj
    refine ⟨_, Nat.lt_of_lt_of_le (Nat.add_lt_add_left hm _) hmul, ?_⟩
    rw [Nat.add_assoc]
    rfl
  pass := fun off xs s hinv hlen hok => by
    have hrang := area.rang_le
    rw [operandKnStart_congr hinv] at hok
    rcases (saveKnLoop_ok_iff (by omega)).mp hok with hzero | hle
    · omega
    · rw [Nat.mul_comm xs.length] at hle
      exact Nat.le_trans hle (by omega)

/-- A single cell for each number. -/
theorem touch_one {cell : Nat → Cell} (k : Nat) (c : Cell) (h : c = cell k) :
    ∃ m < 1, c = cell (k + m) := ⟨0, Nat.one_pos, h⟩

/-- Blocks of single cells that pass do not get too large. -/
theorem pass_one {limit : Nat} (hlimit : limit ≤ 32768) (i cnt : Nat) (hcnt : 0 < cnt)
    (h : InBlock limit 1 i cnt) : i + 1 * cnt ≤ 32768 := by
  have hlast := h (cnt - 1) (by omega)
  omega

theorem exists_lane_chars (u : Ucode) (dst n : Nat) (s₀ : Store) :
    ∃ l inv, inv s₀ ∧ LaneOf (fun off xs s => saveChar u dst s n off xs) inv l ∧ l.step = 1 := by
  rcases hform : (AddrType.ofCode (u.getPU8 (dst + 1))).bind (saveCharTable n) with _ | ⟨area, z⟩
  · simp only [saveChar, hform]
    exact ⟨⟨.lm, 0, 1, 1⟩, _, trivial, laneOf_refused fun _ _ _ => rfl, rfl⟩
  · have hrang := area.rang_le
    have hlane : LaneOf (fun off xs s => saveLoop (fun i x s => s.setBit area i x) area.rang 1 xs
        (elementIndex (operandStart u dst s z + off * 1)) s) _ _ :=
      laneOf_saveLoop s₀ (touches_setBit area) (by omega) (fun _ _ => area.cell_inj) Nat.one_pos
        (Nat.le_refl 1) touch_one (fun _ k x s => congrFun (setBit_word k x) .Z)
        (pass_one (by omega))
    simp only [Nat.mul_one] at hlane
    simp only [saveChar, hform]
    exact ⟨_, _, fun _ => rfl, hlane, rfl⟩

theorem exists_lane_words (u : Ucode) (dst n : Nat) (s₀ : Store) :
    ∃ l inv, inv s₀ ∧
      LaneOf (fun off xs s => ((saveWord u dst s n off xs).1, (saveWord u dst s n off xs).2.2))
        inv l ∧ l.step ≤ 16 := by
  rcases hform : (AddrType.ofCode (u.getPU8 (dst + 1))).bind (saveWordTable n) with
    _ | _ | ⟨area, z⟩ | ⟨area, z, limit⟩
  · simp only [saveWord, hform]
    exact ⟨⟨.lm, 0, 1, 1⟩, _, trivial, laneOf_refused fun _ _ _ => rfl, by decide⟩
  · simp only [saveWord, hform]
    exact ⟨⟨.lm, 0, 1, 1⟩, _, trivial, laneOf_refused fun _ _ _ => rfl, by decide⟩
  · simp only [saveWord, hform]
    by_cases hkn : operandKn u dst z < 1 ∨ 4 < operandKn u dst z
    · simp only [if_pos hkn]
      exact ⟨⟨.lm, 0, 1, 1⟩, _, trivial, laneOf_refused fun _ _ _ => rfl, by decide⟩
    · have hpos : 0 < operandKn u dst z := by omega
      simp only [if_neg hkn]
      refine ⟨_, fun s => s.word .Z = s₀.word .Z, rfl, laneOf_saveKnLoop s₀ hpos, ?_⟩
      change 4 * operandKn u dst z ≤ 16
      omega
  · obtain ⟨a, -, htable⟩ := bind_eq_some_iff.mp hform
    have hlimit : limit ≤ 32768 ∧ (z = true → area ≠ .elem .Z) := by
      cases a <;> cases htable <;> refine ⟨?_, by simp⟩ <;>
        first | exact WordArea.rang_le _ | decide
    have hlane : LaneOf (fun off xs s => saveLoop (fun i x s => s.setWord area i x) limit 1 xs
        (elementIndex (operandStart u dst s z + off * 1)) s) _ _ :=
      laneOf_saveLoop s₀ (touches_setWord area) (by omega) (fun _ _ => area.cell_inj) Nat.one_pos
        (Nat.le_refl 1) touch_one (fun hz k x s => setWord_word_z (hlimit.2 hz) k x)
        (pass_one hlimit.1)
    simp only [Nat.mul_one] at hlane
    simp only [saveWord, hform]
    exact ⟨_, _, fun _ => rfl, hlane, (by decide : 1 ≤ 16)⟩

theorem exists_lane_dwords (u : Ucode) (dst n : Nat) (s₀ : Store) :
    ∃ l inv, inv s₀ ∧
      LaneOf (fun off xs s => ((saveDword u dst s n off xs).1, (saveDword u dst s n off xs).2.2))
        inv l := by
  rcases hform : (AddrType.ofCode (u.getPU8 (dst + 1))).bind (saveDwordTable n) with _ | form
  · simp only [saveDword, hform]
    exact ⟨_, _, trivial, laneOf_refused fun _ _ _ => rfl⟩
  obtain ⟨a, -, htable⟩ := bind_eq_some_iff.mp hform
  rcases namedDword_of_save htable with ⟨area, z, rfl, -⟩ | ⟨area, z, rfl, -⟩ | ⟨z, scale, rfl, -⟩
  · simp only [saveDword, hform]
    by_cases hkn : operandKn u dst z < 5 ∨ 8 < operandKn u dst z
    · simp only [if_pos hkn]
      exact ⟨_, _, trivial, laneOf_refused fun _ _ _ => rfl⟩
    · have hpos : 0 < operandKn u dst z := by omega
      simp only [if_neg hkn]
      exact ⟨_, fun s => s.word .Z = s₀.word .Z, rfl, laneOf_saveKnLoop s₀ hpos⟩
  · have hrang := area.rang_le
    have hz : z = true → area ≠ .elem .Z := by
      cases a <;> cases htable <;> simp
    simp only [saveDword, hform]
    refine ⟨_, _, fun _ => rfl, laneOf_saveLoop s₀ (touches_setDword area) (by omega)
      (fun _ _ => area.cell_inj) Nat.two_pos (Nat.le_refl 2) ?_ (fun hindexed k x s => ?_) ?_⟩
    · rintro k c (rfl | rfl)
      · exact ⟨0, Nat.two_pos, rfl⟩
      · exact ⟨1, Nat.one_lt_two, rfl⟩
    · rw [setDword, setWord_word_z (hz hindexed), setWord_word_z (hz hindexed)]
    · intro i cnt hcnt h
      have hlast := h (cnt - 1) (by omega)
      omega
  · have hscale : 1 ≤ scale ∧ scale ≤ 2 := by
      cases a <;> cases htable <;> decide
    simp only [saveDword, hform]
    refine ⟨_, _, fun _ => rfl, laneOf_saveLoop s₀ touches_setC32 (by decide)
      (fun _ _ => Cell.c32.inj) Nat.one_pos hscale.1 touch_one (fun _ _ _ _ => rfl) ?_⟩
    intro i cnt hcnt h
    have hlast := h (cnt - 1) (by omega)
    have hrang : cRang = 512 := rfl
    have hmul : scale * cnt ≤ 2 * cnt := Nat.mul_le_mul_right cnt hscale.2
    omega

end

/-! ## Moves in a row -/

section

variable {α : Type} {save : Nat → Nat → List α → Store → Except PlcErr Unit × Store}
variable {held : Nat → Nat → List α → Store → Prop} {inv : Store → Prop} {l : Lane}
variable {dst off cnt : Nat} {m : Move α} {ms rest : List (Move α)} {s : Store}

/-- A move has that many values. -/
def Move.Yields (m : Move α) (cnt : Nat) : Prop := ∀ s xs, m.read s = .ok xs → xs.length = cnt

/-- The moves save their values with one operand, each behind the one before. -/
def Consecutive (dst : Nat) : Nat → List (Move α) → Prop
  | _, [] => True
  | off, m :: ms => m.dst = dst ∧ m.off = off ∧
      ∃ cnt, 0 < cnt ∧ m.Yields cnt ∧ Consecutive dst (off + cnt) ms

/-- The value behind a block that has passed does not wrap around. -/
theorem LaneOf.at_next {save : Nat → List α → Store → Except PlcErr Unit × Store}
    (h : LaneOf save inv l) (hinv : inv s) {xs : List α} (hlen : 0 < xs.length)
    (hok : (save off xs s).1 = .ok ()) :
    l.at (off + xs.length) = l.at off + l.step * xs.length := by
  have hle := h.pass off xs s hinv hlen hok
  have hsum :
      l.start + (off + xs.length) * l.step = l.start + off * l.step + l.step * xs.length := by
    rw [Nat.add_mul, Nat.mul_comm xs.length, Nat.add_assoc]
  have hmod : l.at (off + xs.length) = elementIndex (l.at off + l.step * xs.length) := by
    rw [Lane.at, hsum, Lane.at, elementIndex_mod]
  rw [hmod]
  exact elementIndex_of_lt (by omega)

/-- A loop over consecutive moves changes only cells from its first offset on. -/
theorem runMoves_beyond (hl : LaneOf (save dst) inv l) (hc : Consecutive dst off ms)
    (hinv : inv s) :
    ChangesOnly (fun c => ∃ x, l.at off ≤ x ∧ c = l.cell x) s (runMoves save ms s).2 := by
  induction ms generalizing off s with
  | nil => exact changesOnly_refl
  | cons m ms ih =>
    obtain ⟨hdst, hoff, cnt, hcnt, hyields, hrest⟩ := hc
    rw [runMoves, hdst, hoff]
    split
    · exact changesOnly_refl
    · rename_i xs hread
      have hlen := hyields s xs hread
      have hfirst : ChangesOnly (fun c => ∃ x, l.at off ≤ x ∧ c = l.cell x) s
          (save dst off xs s).2 := by
        refine (hl.frame off xs s hinv).mono ?_
        rintro c ⟨k, -, rfl⟩
        exact ⟨_, Nat.le_add_right _ k, rfl⟩
      have hkeep := hl.keeps off xs s hinv
      split
      · rename_i s₁ hsave
        have hnext := hl.at_next hinv (by omega) (congrArg Prod.fst hsave)
        rw [hlen] at hnext
        rw [hsave] at hfirst hkeep
        refine hfirst.trans ((ih hrest hkeep).mono ?_)
        rintro c ⟨x, hx, rfl⟩
        exact ⟨x, by omega, rfl⟩
      · rename_i e s₁ hsave
        rw [hsave] at hfirst
        exact hfirst

/-- A loop over consecutive moves that leaves the elements as they were is harmless. -/
theorem harmless_of_consecutive
    (hheld : ∀ dst off xs s, (save dst off xs s).2 = s ↔ held dst off xs s)
    (hl : LaneOf (save dst) inv l) (hc : Consecutive dst off ms) (hinv : inv s)
    (heq : (runMoves save ms s).2 = s) : Harmless save held ms s := by
  induction ms generalizing off with
  | nil => trivial
  | cons m ms ih =>
    obtain ⟨hdst, hoff, cnt, hcnt, hyields, hrest⟩ := hc
    intro xs hread
    have hlen := hyields s xs hread
    have hfirst := hl.frame off xs s hinv
    have hkeep := hl.keeps off xs s hinv
    simp only [runMoves, hread, hdst, hoff] at heq
    rw [hdst, hoff]
    split at heq
    · rename_i s₁ hsave
      have hnext := hl.at_next hinv (by omega) (congrArg Prod.fst hsave)
      rw [hsave] at hfirst hkeep
      have hlater := runMoves_beyond hl hrest hkeep
      rw [heq, ← hlen] at hlater
      have hunit : l.unit * xs.length ≤ l.step * xs.length := Nat.mul_le_mul_right _ hl.unit_le
      have hsame : s₁ = s := by
        refine eq_of_changesOnly hfirst hlater ?_
        rintro c ⟨k, hk, rfl⟩ ⟨x, hx, hcell⟩
        have heq' := hl.inj _ _ hcell
        omega
      subst hsame
      rw [← hheld, hsave]
      exact ⟨rfl, fun _ => ih hrest heq⟩
    · rename_i e s₁ hsave
      rw [← hheld, hsave]
      exact ⟨heq, nofun⟩

/-- Consecutive moves that do not fit into the 32768 numbers of the largest class: a loop over them
does not come to its end. -/
theorem runMoves_endless (hl : LaneOf (save dst) inv l) (hc : Consecutive dst off ms)
    (hinv : inv s) (hne : ms ≠ []) (hlong : 32768 < l.at off + l.step * ms.length) :
    runMoves save (ms ++ rest) s = runMoves save ms s := by
  induction ms generalizing off s with
  | nil => exact absurd rfl hne
  | cons m ms ih =>
    obtain ⟨hdst, hoff, cnt, hcnt, hyields, hrest⟩ := hc
    rw [cons_append, runMoves, runMoves, hdst, hoff]
    split
    · rfl
    · rename_i xs hread
      have hlen := hyields s xs hread
      have hkeep := hl.keeps off xs s hinv
      split
      · rename_i s₁ hsave
        have hpass := hl.pass off xs s hinv (by omega) (congrArg Prod.fst hsave)
        have hnext := hl.at_next hinv (by omega) (congrArg Prod.fst hsave)
        rw [hsave] at hkeep
        rw [hlen] at hpass hnext
        have hstep : l.step * 1 ≤ l.step * cnt := Nat.mul_le_mul_left l.step hcnt
        rw [length_cons, mul_succ] at hlong
        have hmore : ms ≠ [] := by
          rintro rfl
          rw [length_nil] at hlong
          omega
        exact ih hrest hkeep hmore (by omega)
      · rfl

/-- And what comes behind them is of no importance. -/
theorem harmless_endless (hl : LaneOf (save dst) inv l) (hc : Consecutive dst off ms)
    (hinv : inv s) (hne : ms ≠ []) (hlong : 32768 < l.at off + l.step * ms.length)
    (h : Harmless save held ms s) : Harmless save held (ms ++ rest) s := by
  induction ms generalizing off with
  | nil => exact absurd rfl hne
  | cons m ms ih =>
    obtain ⟨hdst, hoff, cnt, hcnt, hyields, hrest⟩ := hc
    intro xs hread
    obtain ⟨hthere, hlater⟩ := h xs hread
    refine ⟨hthere, fun hok => ?_⟩
    have hrun := hlater hok
    have hlen := hyields s xs hread
    rw [hdst, hoff] at hok
    have hpass := hl.pass off xs s hinv (by omega) hok
    have hnext := hl.at_next hinv (by omega) hok
    rw [hlen] at hpass hnext
    have hstep : l.step * 1 ≤ l.step * cnt := Nat.mul_le_mul_left l.step hcnt
    rw [length_cons, mul_succ] at hlong
    have hmore : ms ≠ [] := by
      rintro rfl
      rw [length_nil] at hlong
      omega
    exact ih hrest hmore (by omega) hrun

/-! ## Moves apart -/

def Lane.Marked (l : Lane) (m : Move α) (c : Cell) : Prop :=
  ∃ s xs, m.read s = .ok xs ∧ l.Has m.off xs.length c

theorem marks_of_lane (hl : LaneOf (save dst) inv l) (hdst : ∀ m ∈ ms, m.dst = dst) :
    Marks save inv l.Marked ms where
  keeps := fun m hm s xs hinv _ => by
    rw [hdst m hm]
    exact hl.keeps m.off xs s hinv
  frame := fun m hm s xs hinv hread => by
    rw [hdst m hm]
    exact (hl.frame m.off xs s hinv).mono fun c hc => ⟨s, xs, hread, hc⟩

/-- Blocks of a lane whose offsets do not meet have no cell in common. -/
theorem LaneOf.not_has {save : Nat → List α → Store → Except PlcErr Unit × Store}
    (h : LaneOf save inv l) {off' cnt' : Nat} {c : Cell}
    (hle : off + cnt ≤ off' ∨ off' + cnt' ≤ off) (hbound : (off + cnt) * l.step ≤ 65536)
    (hbound' : (off' + cnt') * l.step ≤ 65536) (hc : l.Has off cnt c) : ¬ l.Has off' cnt' c := by
  rintro ⟨k', hk', rfl⟩
  obtain ⟨k, hk, hcell⟩ := hc
  have hnumber := h.inj _ _ hcell
  have hunit : l.unit * cnt ≤ l.step * cnt := Nat.mul_le_mul_right _ h.unit_le
  have hunit' : l.unit * cnt' ≤ l.step * cnt' := Nat.mul_le_mul_right _ h.unit_le
  have hmod : off' * l.step + k' ≡ off * l.step + k [MOD 65536] := by
    have hat (o j : Nat) : l.at o + j ≡ l.start + (o * l.step + j) [MOD 65536] := by
      rw [← Nat.add_assoc]
      exact (mod_modEq _ _).add_right j
    refine Nat.ModEq.add_left_cancel' l.start ((hat off' k').symm.trans ?_)
    rw [hnumber]
    exact hat off k
  rw [Nat.add_mul, Nat.mul_comm cnt] at hbound
  rw [Nat.add_mul, Nat.mul_comm cnt'] at hbound'
  have heq : off' * l.step + k' = off * l.step + k :=
    hmod.eq_of_lt_of_lt (by omega) (by omega)
  rcases hle with hle | hle
  · have hmul := Nat.mul_le_mul_right l.step hle
    rw [Nat.add_mul, Nat.mul_comm cnt] at hmul
    omega
  · have hmul := Nat.mul_le_mul_right l.step hle
    rw [Nat.add_mul, Nat.mul_comm cnt'] at hmul
    omega

end

section

variable {α : Type} {save : Nat → Nat → List α → Store → Except PlcErr Unit × Store}
variable {held : Nat → Nat → List α → Store → Prop} {inv : Store → Prop} {l : Lane}
variable {dst off cnt n start : Nat} {m : Move α} {ms rest : List (Move α)} {s : Store}

/-- Two moves do not save to the same offsets. -/
def Move.Misses (m m' : Move α) : Prop :=
  ∀ s s' xs xs', m.read s = .ok xs → m'.read s' = .ok xs' →
    m.off + xs.length ≤ m'.off ∨ m'.off + xs'.length ≤ m.off

/-- All offsets of the moves are small. -/
def Bounded (l : Lane) (ms : List (Move α)) : Prop :=
  ∀ m ∈ ms, ∀ s xs, m.read s = .ok xs → (m.off + xs.length) * l.step ≤ 65536

theorem apart_of_misses (hl : LaneOf (save dst) inv l) (h : ms.Pairwise Move.Misses)
    (hbound : Bounded l ms) : Apart l.Marked ms := by
  refine h.imp_of_mem fun {m m'} hm hm' hmiss c => ?_
  rintro ⟨s, xs, hread, hc⟩ ⟨s', xs', hread', hc'⟩
  exact hl.not_has (hmiss s s' xs xs' hread hread') (hbound m hm s xs hread)
    (hbound m' hm' s' xs' hread') hc hc'

theorem Consecutive.of_mem (h : Consecutive dst off ms) (hm : m ∈ ms) :
    m.dst = dst ∧ off ≤ m.off := by
  induction ms generalizing off with
  | nil => cases hm
  | cons m' ms ih =>
    obtain ⟨hdst, hoff, cnt, -, -, hrest⟩ := h
    rcases mem_cons.mp hm with rfl | hm
    · exact ⟨hdst, Nat.le_of_eq hoff.symm⟩
    · obtain ⟨hdst', hle⟩ := ih hrest hm
      exact ⟨hdst', by omega⟩

theorem Consecutive.misses (h : Consecutive dst off ms) : ms.Pairwise Move.Misses := by
  induction ms generalizing off with
  | nil => exact .nil
  | cons m ms ih =>
    obtain ⟨-, hoff, cnt, -, hyields, hrest⟩ := h
    refine pairwise_cons.mpr ⟨fun m' hm' s s' xs xs' hread _ => .inl ?_, ih hrest⟩
    rw [hyields s xs hread, hoff]
    exact (hrest.of_mem hm').2

/-- Moves for the values of a counter, and others behind them. -/
theorem consecutive_range' {f : Nat → Move α} (hcnt : 0 < cnt)
    (hf : ∀ j < n, (f (start + j)).dst = dst ∧ (f (start + j)).off = off + cnt * j ∧
      (f (start + j)).Yields cnt)
    (hrest : Consecutive dst (off + cnt * n) rest) :
    Consecutive dst off ((range' start n).map f ++ rest) := by
  induction n generalizing start off with
  | zero => exact hrest
  | succ n ih =>
    obtain ⟨hdst, hoff, hyields⟩ := hf 0 (succ_pos n)
    refine ⟨hdst, hoff, cnt, hcnt, hyields, ih (fun j hj => ?_) ?_⟩
    · obtain ⟨hdst', hoff', hyields'⟩ := hf (j + 1) (succ_lt_succ hj)
      rw [show start + 1 + j = start + (j + 1) by omega]
      refine ⟨hdst', hoff'.trans ?_, hyields'⟩
      rw [mul_succ]
      omega
    · rw [mul_succ, ← Nat.add_assoc] at hrest
      rwa [Nat.add_right_comm]

theorem consecutive_range {f : Nat → Move α} (hcnt : 0 < cnt)
    (hf : ∀ j < n, (f j).dst = dst ∧ (f j).off = off + cnt * j ∧ (f j).Yields cnt)
    (hrest : Consecutive dst (off + cnt * n) rest) :
    Consecutive dst off ((range n).map f ++ rest) := by
  rw [range_eq_range']
  refine consecutive_range' hcnt (fun j hj => ?_) hrest
  rw [Nat.zero_add]
  exact hf j hj

theorem consecutive_single (hdst : m.dst = dst) (hoff : m.off = off) (hcnt : 0 < cnt)
    (hyields : m.Yields cnt) : Consecutive dst off [m] :=
  ⟨hdst, hoff, cnt, hcnt, hyields, trivial⟩

end

end Kalyke
