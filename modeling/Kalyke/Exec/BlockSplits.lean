-- SUMMARY: Reading and saving a block of elements in one go, in parts, and element by element.
import Kalyke.Exec.RoundTrip
import Kalyke.Lib.BlockAccess

/-!
# Blocks in Parts

Instructions read an operand as a block, with a count, or value by value, with an offset for each.
Both are the same where an offset stands for as many elements as a value takes up. `get_dword` takes
an offset as two counters of 32 bits and a value as one; `save_dword` does so for the indexed ones.
-/

namespace Kalyke

open List Nat Option

variable {α : Type} {u : Ucode} {p n : Nat} {s : Store}

/-! ## The loops -/

theorem elementIndex_add_stride (start o stride : Nat) :
    elementIndex (elementIndex (start + o * stride) + stride) =
      elementIndex (start + (o + 1) * stride) := by
  rw [elementIndex_mod, Nat.add_assoc, ← succ_mul]

/-- What the loop of the get functions reads, by the places the offsets stand for. -/
theorem getLoop_values {read : Nat → α} {limit stride start o cnt : Nat} {xs : List α}
    (h : getLoop read limit stride cnt (elementIndex (start + o * stride)) = (.ok (), xs)) :
    xs = (range cnt).map fun j => read (elementIndex (start + (o + j) * stride)) := by
  induction cnt generalizing o xs with
  | zero => exact (congrArg Prod.snd h).symm
  | succ cnt ih =>
    rw [getLoop, elementIndex_add_stride] at h
    split at h
    · rcases hrest : getLoop read limit stride cnt (elementIndex (start + (o + 1) * stride)) with
        ⟨ret, ys⟩
      rw [hrest] at h
      cases h
      rw [ih hrest]
      exact (map_range_succ_offset (fun o => read (elementIndex (start + o * stride))) o cnt).symm
    · cases h

theorem saveLoop_writes (start : Store → Nat) (write : Nat → α → Store → Store)
    {limit stride o : Nat} {xs : List α} {s s' : Store}
    (hstart : ∀ k x s, start (write k x s) = start s)
    (h : saveLoop write limit stride xs (elementIndex (start s + o * stride)) s = (.ok (), s')) :
    s' = writeAll (fun o x s => write (elementIndex (start s + o * stride)) x s) o xs s := by
  induction xs generalizing o s with
  | nil => exact (congrArg Prod.snd h).symm
  | cons x xs ih =>
    rw [saveLoop, elementIndex_add_stride] at h
    split at h
    · rw [writeAll]
      refine ih ?_
      rw [hstart]
      exact h
    · cases h

section

variable {w : Nat} {read : Nat → Bool} {area : BitArea} {limit width start o cnt : Nat}

/-- The first bit of a value, when the offset has wrapped around. -/
theorem knBase_elementIndex :
    elementIndex (start + elementIndex o * width) = elementIndex (start + o * width) :=
  ((mod_modEq o 65536).mul_right width).add_left start

theorem getKn_elementIndex {acc : BitVec w} :
    getKn read limit (start + elementIndex o * width) cnt acc =
      getKn read limit (start + o * width) cnt acc := by
  rw [← getKn_mod, knBase_elementIndex, getKn_mod]

theorem getKnLoop_elementIndex :
    getKnLoop w read limit width start cnt (elementIndex o) =
      getKnLoop w read limit width start cnt o := by
  cases cnt with
  | zero => rfl
  | succ cnt => rw [getKnLoop, getKnLoop, getKn_elementIndex, elementIndex_mod]

theorem getKnLoop_values {xs : List (BitVec w)}
    (h : getKnLoop w read limit width start cnt o = (.ok (), xs)) :
    xs = (range cnt).map fun j =>
      (getKn read limit (start + (o + j) * width) width (0 : BitVec w)).2 := by
  induction cnt generalizing o xs with
  | zero => exact (congrArg Prod.snd h).symm
  | succ cnt ih =>
    rw [getKnLoop] at h
    split at h
    · rename_i x hfirst
      rw [getKnLoop_elementIndex] at h
      rcases hrest : getKnLoop w read limit width start cnt (o + 1) with ⟨ret, ys⟩
      rw [hrest] at h
      cases h
      have hx : x = (getKn read limit (start + o * width) width (0 : BitVec w)).2 := by
        rw [hfirst]
      rw [ih hrest, hx]
      exact (map_range_succ_offset
        (fun o => (getKn read limit (start + o * width) width (0 : BitVec w)).2) o cnt).symm
    · cases h

theorem saveKn_elementIndex {x : BitVec w} :
    saveKn area (start + elementIndex o * width) cnt 0 x s =
      saveKn area (start + o * width) cnt 0 x s := by
  rw [← saveKn_mod, knBase_elementIndex, saveKn_mod]

theorem saveKnLoop_elementIndex {xs : List (BitVec w)} :
    saveKnLoop area width start xs (elementIndex o) s = saveKnLoop area width start xs o s := by
  cases xs with
  | nil => rfl
  | cons x xs => rw [saveKnLoop, saveKnLoop, saveKn_elementIndex, elementIndex_mod]

/-- Joined bits are saved to bit elements only, so the index registers stay. -/
theorem saveKn_word {i : Nat} {x : BitVec w} :
    (saveKn area start cnt i x s).2.2.word = s.word := by
  induction cnt generalizing i x s with
  | zero => rfl
  | succ cnt ih =>
    rw [saveKn]
    split
    · exact ih.trans (setBit_word _ _)
    · rfl

theorem saveKnLoop_writes {z : Bool} {xs : List (BitVec w)} {s' : Store} (ys : List (BitVec w))
    (h : saveKnLoop area width (operandKnStart u p s z) xs o s = (.ok (), ys, s')) :
    s' = writeAll (fun o x s =>
      (saveKn area (operandKnStart u p s z + o * width) width 0 x s).2.2) o xs s := by
  induction xs generalizing o s ys with
  | nil => exact (congrArg (fun r => r.2.2) h).symm
  | cons x xs ih =>
    rw [saveKnLoop] at h
    split at h
    · rename_i x' s₁ hfirst
      rw [saveKnLoop_elementIndex] at h
      have hs₁ : s₁ = (saveKn area (operandKnStart u p s z + o * width) width 0 x s).2.2 := by
        rw [hfirst]
      have hstart : operandKnStart u p s₁ z = operandKnStart u p s z := by
        refine operandKnStart_congr ?_ z
        rw [hs₁, saveKn_word]
      rcases hrest : saveKnLoop area width (operandKnStart u p s z) xs (o + 1) s₁ with
        ⟨ret, xs', s₂⟩
      rw [hrest] at h
      cases h
      rw [← hstart] at hrest
      rw [writeAll, ih _ hrest, hs₁]
    · cases h

end

/-! ## Operands -/

/-- The operand is not a literal. -/
def ElementOperand (u : Ucode) (p : Nat) : Prop :=
  AddrType.ofCode (u.getPU8 (p + 1)) ≠ some .const

instance : Decidable (ElementOperand u p) := inferInstanceAs (Decidable (_ ≠ _))

/-- What a save of words leaves of the elements. -/
def elementsAfter {β : Type} (r : Except PlcErr Unit × β × Store) : Except PlcErr Unit × Store :=
  (r.1, r.2.2)

theorem getChar_splits : BlockRead.Splits (getChar u p s n) := by
  rcases hform : (AddrType.ofCode (u.getPU8 (p + 1))).bind (getCharTable n) with _ | ⟨area, z⟩
  · refine .of_fails fun o cnt xs h => ?_
    simp only [getChar, hform] at h
    cases h
  · refine .of_value (fun o => s.getBit area (elementIndex (operandStart u p s z + o * 1)))
      fun {o cnt xs} h => ?_
    simp only [getChar, hform] at h
    rw [← Nat.mul_one o] at h
    exact getLoop_values h

theorem saveChar_splits : BlockSave.Splits (fun o xs s => saveChar u p s n o xs) s := by
  rcases hform : (AddrType.ofCode (u.getPU8 (p + 1))).bind (saveCharTable n) with _ | ⟨area, z⟩
  · refine .of_fails fun o xs s' h => ?_
    simp only [saveChar, hform] at h
    cases h
  · refine .of_write (fun o x s =>
      s.setBit area (elementIndex (operandStart u p s z + o * 1)) x) (fun {o xs s s'} h => ?_) s
    simp only [saveChar, hform] at h
    rw [← Nat.mul_one o] at h
    refine saveLoop_writes (fun s => operandStart u p s z) _ (fun k x s => ?_) h
    exact operandStart_congr fun _ => congrFun (setBit_word k x) .Z

theorem getWordTable_const {a : AddrType} (h : getWordTable n a = some .const) : a = .const := by
  cases a <;> cases h
  rfl

theorem getWord_splits (hop : ElementOperand u p) : BlockRead.Splits (getWord u p s n) := by
  rcases hform : (AddrType.ofCode (u.getPU8 (p + 1))).bind (getWordTable n) with _ | form
  · refine .of_fails fun o cnt xs h => ?_
    simp only [getWord, hform] at h
    cases h
  · cases form with
    | const =>
      obtain ⟨a, ha, htable⟩ := bind_eq_some_iff.mp hform
      rw [getWordTable_const htable] at ha
      exact absurd ha hop
    | kn area z =>
      refine .of_value (fun o => (getKn (s.getBit area) area.rang
        (operandKnStart u p s z + o * (4 * operandKn u p z)) (4 * operandKn u p z) 0).2)
        fun {o cnt xs} h => ?_
      simp only [getWord, hform] at h
      split at h
      · cases h
      · exact getKnLoop_values h
    | cells area z limit =>
      refine .of_value (fun o => s.getWord area (elementIndex (operandStart u p s z + o * 1)))
        fun {o cnt xs} h => ?_
      simp only [getWord, hform] at h
      rw [← Nat.mul_one o] at h
      exact getLoop_values h

/-- Only the plain form saves to the index registers. -/
theorem saveWordTable_z {a : AddrType} {area : WordArea} {limit : Nat}
    (h : saveWordTable n a = some (.cells area true limit)) : area ≠ .elem .Z := by
  cases a <;> cases h <;> rintro ⟨⟩

theorem saveWord_splits :
    BlockSave.Splits (fun o xs s => elementsAfter (saveWord u p s n o xs)) s := by
  rcases hform : (AddrType.ofCode (u.getPU8 (p + 1))).bind (saveWordTable n) with _ | form
  · refine .of_fails fun o xs s' h => ?_
    simp only [saveWord, hform, elementsAfter] at h
    cases h
  · cases form with
    | const =>
      refine .of_fails fun o xs s' h => ?_
      simp only [saveWord, hform, elementsAfter] at h
      cases h
    | kn area z =>
      refine .of_write (fun o x s => (saveKn area
        (operandKnStart u p s z + o * (4 * operandKn u p z)) (4 * operandKn u p z) 0 x s).2.2)
        (fun {o xs s s'} h => ?_) s
      simp only [saveWord, hform, elementsAfter] at h
      split at h
      · cases h
      · refine saveKnLoop_writes (saveKnLoop area (4 * operandKn u p z)
          (operandKnStart u p s z) xs o s).2.1 ?_
        rw [Prod.mk.injEq] at h
        rw [← h.1, ← h.2]
    | cells area z limit =>
      refine .of_write (fun o x s =>
        s.setWord area (elementIndex (operandStart u p s z + o * 1)) x) (fun {o xs s s'} h => ?_) s
      simp only [saveWord, hform, elementsAfter] at h
      rw [← Nat.mul_one o] at h
      refine saveLoop_writes (fun s => operandStart u p s z) _ (fun k x s => ?_) h
      refine operandStart_congr fun hz => setWord_word_z ?_ k x
      obtain ⟨a, -, htable⟩ := bind_eq_some_iff.mp hform
      rw [hz] at htable
      exact saveWordTable_z htable

/-! ## Double words and reals -/

theorem getDwordTable_const {a : AddrType} (h : getDwordTable n a = some .const) : a = .const := by
  cases a <;> cases h
  rfl

theorem getDwordTable_counter {a : AddrType} {z : Bool} {scale limit : Nat}
    (h : getDwordTable n a = some (.counter z scale limit)) : a = .c ∨ a = .cz := by
  cases a <;> cases h
  · exact .inl rfl
  · exact .inr rfl

theorem getDword_splits (hop : ElementOperand u p)
    (hc : AddrType.ofCode (u.getPU8 (p + 1)) ≠ some .c)
    (hcz : AddrType.ofCode (u.getPU8 (p + 1)) ≠ some .cz) :
    BlockRead.Splits (getDword u p s n) := by
  rcases hform : (AddrType.ofCode (u.getPU8 (p + 1))).bind (getDwordTable n) with _ | form
  · refine .of_fails fun o cnt xs h => ?_
    simp only [getDword, hform] at h
    cases h
  · obtain ⟨a, ha, htable⟩ := bind_eq_some_iff.mp hform
    cases form with
    | const =>
      rw [getDwordTable_const htable] at ha
      exact absurd ha hop
    | kn area z =>
      refine .of_value (fun o => (getKn (s.getBit area) area.rang
        (operandKnStart u p s z + o * (4 * operandKn u p z)) (4 * operandKn u p z) 0).2)
        fun {o cnt xs} h => ?_
      simp only [getDword, hform] at h
      split at h
      · cases h
      · exact getKnLoop_values h
    | cells low high z limit =>
      refine .of_value (fun o => (fun i => s.getWord high (i + 1) ++ s.getWord low i)
        (elementIndex (operandStart u p s z + o * 2))) fun {o cnt xs} h => ?_
      simp only [getDword, hform] at h
      exact getLoop_values h
    | counter z scale limit =>
      rcases getDwordTable_counter htable with rfl | rfl
      · exact absurd ha hc
      · exact absurd ha hcz

theorem saveDwordTable_cells {a : AddrType} {low high : WordArea} {z : Bool} {limit : Nat}
    (h : saveDwordTable n a = some (.cells low high z limit)) :
    low ≠ .elem .Z ∧ high ≠ .elem .Z := by
  cases a <;> cases h <;> constructor <;> rintro ⟨⟩

theorem saveDwordTable_counter {a : AddrType} {z : Bool} {scale limit : Nat}
    (h : saveDwordTable n a = some (.counter z scale limit)) :
    a = .c ∧ scale = 1 ∨ a = .cz := by
  cases a <;> cases h
  · exact .inl ⟨rfl, rfl⟩
  · exact .inr rfl

theorem setDword_start {low high : WordArea} (hlow : low ≠ .elem .Z) (hhigh : high ≠ .elem .Z)
    (z : Bool) (k : Nat) (x : BitVec 32) (s : Store) :
    operandStart u p (setDword low high k x s) z = operandStart u p s z :=
  operandStart_congr fun _ => (setWord_word_z hhigh _ _).trans (setWord_word_z hlow _ _)

theorem saveDword_splits (hcz : AddrType.ofCode (u.getPU8 (p + 1)) ≠ some .cz) :
    BlockSave.Splits (fun o xs s => elementsAfter (saveDword u p s n o xs)) s := by
  rcases hform : (AddrType.ofCode (u.getPU8 (p + 1))).bind (saveDwordTable n) with _ | form
  · refine .of_fails fun o xs s' h => ?_
    simp only [saveDword, hform] at h
    cases h
  · obtain ⟨a, ha, htable⟩ := bind_eq_some_iff.mp hform
    cases form with
    | const =>
      refine .of_fails fun o xs s' h => ?_
      simp only [saveDword, hform] at h
      cases h
    | kn area z =>
      refine .of_write (fun o x s => (saveKn area
        (operandKnStart u p s z + o * (4 * operandKn u p z)) (4 * operandKn u p z) 0 x s).2.2)
        (fun {o xs s s'} h => ?_) s
      simp only [saveDword, hform, elementsAfter] at h
      split at h
      · cases h
      · refine saveKnLoop_writes (saveKnLoop area (4 * operandKn u p z)
          (operandKnStart u p s z) xs o s).2.1 ?_
        rw [Prod.mk.injEq] at h
        rw [← h.1, ← h.2]
    | cells low high z limit =>
      obtain ⟨hlow, hhigh⟩ := saveDwordTable_cells htable
      refine .of_write (fun o x s =>
        setDword low high (elementIndex (operandStart u p s z + o * 2)) x s)
        (fun {o xs s s'} h => ?_) s
      simp only [saveDword, hform] at h
      exact saveLoop_writes (fun s => operandStart u p s z) _
        (fun k x s => setDword_start hlow hhigh z k x s) h
    | counter z scale limit =>
      rcases saveDwordTable_counter htable with ⟨rfl, rfl⟩ | rfl
      · refine .of_write (fun o x s => s.setC32 (elementIndex (operandStart u p s z + o * 1)) x)
          (fun {o xs s s'} h => ?_) s
        simp only [saveDword, hform] at h
        exact saveLoop_writes (fun s => operandStart u p s z) (fun i x s => s.setC32 i x)
          (fun _ _ _ => rfl) h
      · exact absurd ha hcz

theorem floatTable_const {a : AddrType} (h : floatTable n a = some .const) : a = .const := by
  cases a <;> cases h
  rfl

theorem floatTable_area_ne_z {a : AddrType} {low high : WordArea} {z : Bool} {limit : Nat}
    (h : floatTable n a = some (.cells low high z limit)) :
    low ≠ .elem .Z ∧ high ≠ .elem .Z := by
  cases a <;> cases h <;> constructor <;> rintro ⟨⟩

theorem getFloat_splits (hop : ElementOperand u p) : BlockRead.Splits (getFloat u p s n) := by
  rcases hform : (AddrType.ofCode (u.getPU8 (p + 1))).bind (floatTable n) with _ | form
  · refine .of_fails fun o cnt xs h => ?_
    simp only [getFloat, hform] at h
    cases h
  · cases form with
    | const =>
      obtain ⟨a, ha, htable⟩ := bind_eq_some_iff.mp hform
      rw [floatTable_const htable] at ha
      exact absurd ha hop
    | cells low high z limit =>
      refine .of_value (fun o => (fun i => s.getWord high (i + 1) ++ s.getWord low i)
        (elementIndex (operandStart u p s z + o * 2))) fun {o cnt xs} h => ?_
      simp only [getFloat, hform] at h
      exact getLoop_values h
    | kn | counter =>
      refine .of_fails fun o cnt xs h => ?_
      simp only [getFloat, hform] at h
      cases h

theorem saveFloat_splits : BlockSave.Splits (fun o xs s => saveFloat u p s n o xs) s := by
  rcases hform : (AddrType.ofCode (u.getPU8 (p + 1))).bind (floatTable n) with _ | form
  · refine .of_fails fun o xs s' h => ?_
    simp only [saveFloat, hform] at h
    cases h
  · cases form with
    | cells low high z limit =>
      obtain ⟨a, -, htable⟩ := bind_eq_some_iff.mp hform
      obtain ⟨hlow, hhigh⟩ := floatTable_area_ne_z htable
      refine .of_write (fun o x s =>
        setDword low high (elementIndex (operandStart u p s z + o * 2)) x s)
        (fun {o xs s s'} h => ?_) s
      simp only [saveFloat, hform] at h
      exact saveLoop_writes (fun s => operandStart u p s z) _
        (fun k x s => setDword_start hlow hhigh z k x s) h
    | const | kn | counter =>
      refine .of_fails fun o xs s' h => ?_
      simp only [saveFloat, hform] at h
      cases h

/-! ## Counters of 32 bits -/

/-- All counters behind the first one that an offset stands for hold one value. An offset counts
twice, so it stands for every second counter from an even or an odd number on. -/
def CountersAlike (s : Store) (start : Nat) : Prop :=
  ∀ j, start % 2 < j → j + 1 < cRang - 1 → s.c32 j = s.c32 (j + 1)

/-- Some offset stands for the first counter. -/
theorem exists_offset (start : Nat) : ∃ o, elementIndex (start + o * 2) = start % 2 := by
  refine ⟨32768 - start % 65536 / 2, ?_⟩
  unfold elementIndex
  omega

theorem elementIndex_succ_offset {start o : Nat} (h : elementIndex (start + o * 2) = start % 2) :
    elementIndex (start + (o + 1) * 2) = start % 2 + 2 := by
  rw [← elementIndex_add_stride, h]
  exact elementIndex_of_lt (by omega)

theorem CountersAlike.eq_first {start j : Nat} (h : CountersAlike s start) (hj : start % 2 < j)
    (hlt : j < cRang - 1) : s.c32 j = s.c32 (start % 2 + 1) := by
  induction j, succ_le_of_lt hj using le_induction with
  | base => rfl
  | succ j hle ih =>
    rw [← h j hle hlt]
    exact ih hle (lt_of_succ_lt hlt)

theorem getDword_c (hc : AddrType.ofCode (u.getPU8 (p + 1)) = some .c) (o cnt : Nat) :
    getDword u p s n o cnt = getLoop s.c32 (cRang - 1) 1 cnt
      (elementIndex (operandStart u p s false + o * 2)) := by
  simp only [getDword, hc]
  rfl

theorem getDword_c_of_le (hc : AddrType.ofCode (u.getPU8 (p + 1)) = some .c) {o b : Nat}
    (cnt : Nat) (hb : elementIndex (operandStart u p s false + o * 2) = b) (hle : b + cnt ≤ cRang - 1) :
    getDword u p s n o cnt = (.ok (), (range cnt).map fun j => s.c32 (b + 1 * j)) := by
  rw [getDword_c hc, hb]
  exact getLoop_of_inBlock (by decide) fun j hj => by omega

theorem getDword_c_splits_iff (hc : AddrType.ofCode (u.getPU8 (p + 1)) = some .c) :
    BlockRead.Splits (getDword u p s n) ↔ CountersAlike s (operandStart u p s false) := by
  constructor
  · intro hsplits j hj hlt
    obtain ⟨o, ho⟩ := exists_offset (operandStart u p s false)
    obtain ⟨k, rfl⟩ := Nat.exists_eq_add_of_lt hj
    have hlist := hsplits.parts (getDword_c_of_le hc (1 + (k + 1)) ho (by omega))
      (getDword_c_of_le hc 1 ho (by omega))
      (getDword_c_of_le hc (k + 1) (elementIndex_succ_offset ho) (by omega))
    have hlast := congrArg (fun xs => xs[k + 1]?) hlist
    rw [getElem?_append_right (by simp)] at hlast
    simp only [getElem?_map, length_map, length_range] at hlast
    rw [getElem?_range (by omega), getElem?_range (by omega)] at hlast
    have hvalue : s.c32 (operandStart u p s false % 2 + 1 * (k + 1)) =
        s.c32 (operandStart u p s false % 2 + 2 + 1 * (k + 1 - 1)) := some.inj hlast
    rw [show operandStart u p s false % 2 + 1 * (k + 1) = operandStart u p s false % 2 + k + 1 by
        omega, show operandStart u p s false % 2 + 2 + 1 * (k + 1 - 1) =
        operandStart u p s false % 2 + k + 1 + 1 by omega] at hvalue
    exact hvalue
  · intro halike
    refine .of_value (fun o => if elementIndex (operandStart u p s false + o * 2) =
        operandStart u p s false % 2 then s.c32 (operandStart u p s false % 2)
      else s.c32 (operandStart u p s false % 2 + 1)) fun {o cnt xs} h => ?_
    rw [getDword_c hc] at h
    have hblock := (getLoop_ok_iff (by decide)).mp (congrArg Prod.fst h)
    rw [getLoop_of_inBlock (by decide) hblock] at h
    cases h
    refine map_congr_left fun j hj => ?_
    have hlt : elementIndex (operandStart u p s false + o * 2) + 1 * j < 511 :=
      hblock j (mem_range.mp hj)
    -- Only the first value of a block can be the first counter.
    split
    · rename_i hfirst
      have hindex : elementIndex (operandStart u p s false + o * 2) + 1 * j =
          operandStart u p s false % 2 := by
        unfold elementIndex at hfirst hlt ⊢
        omega
      rw [hindex]
    · rename_i hlater
      refine halike.eq_first ?_ hlt
      unfold elementIndex at hlater hlt ⊢
      omega

/-! ## Indexed counters -/

theorem saveDword_cz (hcz : AddrType.ofCode (u.getPU8 (p + 1)) = some .cz) (o : Nat)
    (xs : List (BitVec 32)) (s : Store) :
    elementsAfter (saveDword u p s n o xs) =
      saveLoop (fun i x s => s.setC32 i x) cRang 1 xs
        (elementIndex (operandStart u p s true + o * 2)) s := by
  simp only [saveDword, hcz]
  rfl

/-- Two values saved one by one leave a counter between them as it is. -/
theorem saveDword_cz_not_splits (hcz : AddrType.ofCode (u.getPU8 (p + 1)) = some .cz) :
    ¬ BlockSave.Splits (fun o xs s => elementsAfter (saveDword u p s n o xs)) s := by
  intro hsplits
  obtain ⟨o, ho⟩ := exists_offset (operandStart u p s true)
  have hlt : operandStart u p s true % 2 + 2 < cRang := by
    have hmod := mod_lt (operandStart u p s true) (by decide : 2 > 0)
    unfold cRang
    omega
  have hnext : elementIndex (operandStart u p s true % 2 + 1) = operandStart u p s true % 2 + 1 :=
    elementIndex_of_lt (by omega)
  have hstart (x : BitVec 32) (k : Nat) :
      operandStart u p (s.setC32 k x) true = operandStart u p s true := rfl
  let y : BitVec 32 := s.c32 (operandStart u p s true % 2 + 1) + 1
  have hall : elementsAfter (saveDword u p s n o ([0] ++ [y])) =
      (.ok (), (s.setC32 (operandStart u p s true % 2) 0).setC32
        (operandStart u p s true % 2 + 1) y) := by
    rw [saveDword_cz hcz, ho, singleton_append, saveLoop, if_pos (by omega), hnext]
    exact saveLoop_one (by omega)
  have hfirst : elementsAfter (saveDword u p s n o [0]) =
      (.ok (), s.setC32 (operandStart u p s true % 2) 0) := by
    rw [saveDword_cz hcz, ho]
    exact saveLoop_one (by omega)
  have hsecond : elementsAfter
      (saveDword u p (s.setC32 (operandStart u p s true % 2) 0) n (o + 1) [y]) =
      (.ok (), (s.setC32 (operandStart u p s true % 2) 0).setC32
        (operandStart u p s true % 2 + 2) y) := by
    rw [saveDword_cz hcz, hstart, elementIndex_succ_offset ho]
    exact saveLoop_one hlt
  have hstore := hsplits.parts hall hfirst hsecond
  have hbetween := congrFun (congrArg Store.c32 hstore) (operandStart u p s true % 2 + 1)
  simp [Store.setC32, y] at hbetween

/-! ## All accesses -/

/-- The ways to go over a block agree, for the accesses to an operand at a call level. -/
structure AccessesSplit (u : Ucode) (p n : Nat) (s : Store) : Prop where
  getChar : BlockRead.Splits (getChar u p s n)
  getWord : BlockRead.Splits (getWord u p s n)
  getDword : BlockRead.Splits (getDword u p s n)
  getFloat : BlockRead.Splits (getFloat u p s n)
  saveChar : BlockSave.Splits (fun o xs s => saveChar u p s n o xs) s
  saveWord : BlockSave.Splits (fun o xs s => elementsAfter (saveWord u p s n o xs)) s
  saveDword : BlockSave.Splits (fun o xs s => elementsAfter (saveDword u p s n o xs)) s
  saveFloat : BlockSave.Splits (fun o xs s => saveFloat u p s n o xs) s

/-- The ways to go over a block agree just if the operand is no counter, or one that is not indexed
where the counters of 32 bits hold one value from the second on. -/
theorem accessesSplit_iff (hop : ElementOperand u p) :
    AccessesSplit u p n s ↔
      AddrType.ofCode (u.getPU8 (p + 1)) ≠ some .cz ∧
      (AddrType.ofCode (u.getPU8 (p + 1)) = some .c →
        CountersAlike s (operandStart u p s false)) := by
  constructor
  · intro h
    exact ⟨fun hcz => saveDword_cz_not_splits hcz h.saveDword,
      fun hc => (getDword_c_splits_iff hc).mp h.getDword⟩
  · rintro ⟨hcz, halike⟩
    have hdword : BlockRead.Splits (getDword u p s n) := by
      by_cases hc : AddrType.ofCode (u.getPU8 (p + 1)) = some .c
      · exact (getDword_c_splits_iff hc).mpr (halike hc)
      · exact getDword_splits hop hc hcz
    exact {
      getChar := getChar_splits
      getWord := getWord_splits hop
      getDword := hdword
      getFloat := getFloat_splits hop
      saveChar := saveChar_splits
      saveWord := saveWord_splits
      saveDword := saveDword_splits hcz
      saveFloat := saveFloat_splits }

/-- `D100`. -/
theorem accessesSplit_d100 : AccessesSplit [0x00, 0x11, 0x64, 0x00] 0 0 .off :=
  (accessesSplit_iff (by decide)).mpr ⟨by decide, fun hc => absurd hc (by decide)⟩

/-- Two counters read from `C200` on are `C200` and `C201`, but the one at offset 1 is `C202`. -/
theorem c200_read_apart :
    ¬ ∀ u p n s, ElementOperand u p → AccessesSplit u p n s := by
  intro h
  have hsplits := (h [0x00, 0x14, 0xC8, 0x00] 0 0
    { Store.off with c32 := fun i => BitVec.ofNat 32 i } (by decide)).getDword
  have hsecond : [(202 : BitVec 32)] = [201] :=
    hsplits.single (o := 0) (n := 2) (i := 1) rfl (by decide) rfl
  exact absurd hsecond (by decide)

end Kalyke
