-- SUMMARY: Instructions that end by saving values in their destination, and a sample of operands.
import Kalyke.Exec.Deque

/-!
# Stored Values

Most data instructions get their operands, compute something, and return what a save function for
the destination returns. What they leave is what saving these values leaves. Where a law says that
another value would have been stored, it is refuted with literals and the destination `D0`.
-/

namespace Kalyke

open List Function

namespace BodyInput

variable (i : BodyInput)

/-- What an instruction leaves that ends with `save_word`. -/
def storedWords (q : Nat) (xs : List (BitVec 16)) (s : Store) : BodyResult :=
  ((i.saveWords (i.pc + q) 0 xs s).1, i.inPF, (i.saveWords (i.pc + q) 0 xs s).2)

/-- What an instruction leaves that ends with `save_dword` of one value. -/
def storedDword (q : Nat) (x : BitVec 32) (s : Store) : BodyResult :=
  ((i.saveDwords (i.pc + q) 0 [x] s).1, i.inPF, (i.saveDwords (i.pc + q) 0 [x] s).2)

/-- What an instruction leaves that refuses its operands. -/
def refused : BodyResult := (.error .operands, i.inPF, i.store)

end BodyInput

/-! ## Special bits -/

section

variable {i : BodyInput} {q off : Nat} {s : Store} {e : BitElement}

theorem setBit_bit_of_ne {area : BitArea} {k : Nat} {b : Bool} (h : area ≠ .elem e) :
    (s.setBit area k b).bit e = s.bit e := by
  cases area with
  | elem e' =>
    have hne : e ≠ e' := by
      rintro rfl
      exact h rfl
    exact update_of_ne hne _ _
  | lm layer => rfl

theorem saveKnLoop_bit {w : Nat} {area : BitArea} {width start : Nat} {xs : List (BitVec w)}
    (hwidth : 0 < width) (h : area ≠ .elem e) :
    (saveKnLoop area width start xs off s).2.2.bit e = s.bit e :=
  saveKnLoop_frame (fun s => s.bit e) hwidth fun _ _ _ _ _ => setBit_bit_of_ne h

/-- No area that words are saved in holds special bits. -/
theorem saveWordTable_kn {n : Nat} {a : AddrType} {area : BitArea} {z : Bool}
    (h : saveWordTable n a = some (.kn area z)) : area ≠ .elem .SM := by
  rintro rfl
  cases a <;> cases h

theorem saveDwordTable_kn {n : Nat} {a : AddrType} {area : BitArea} {z : Bool}
    (h : saveDwordTable n a = some (.kn area z)) : area ≠ .elem .SM := by
  rintro rfl
  cases a <;> cases h

theorem setWord_bit {area : WordArea} {k : Nat} {x : BitVec 16} :
    (s.setWord area k x).bit = s.bit := by
  cases area <;> rfl

theorem saveLoop_bit {α : Type} {write : Nat → α → Store → Store} {limit stride k : Nat}
    {xs : List α} (h : ∀ k x s, (write k x s).bit = s.bit) :
    (saveLoop write limit stride xs k s).2.bit = s.bit := by
  induction xs generalizing k s with
  | nil => rfl
  | cons x xs ih =>
    rw [saveLoop]
    split
    · exact ih.trans (h k x s)
    · rfl

/-- Saving words changes no special bit. -/
theorem saveWords_sm {xs : List (BitVec 16)} : (i.saveWords q off xs s).2.bit .SM = s.bit .SM := by
  simp only [BodyInput.saveWords, saveWord]
  rcases hform : (AddrType.ofCode (i.ucode.getPU8 (q + 1))).bind (saveWordTable i.level) with
    _ | _ | ⟨area, z⟩ | ⟨area, z, limit⟩
  · rfl
  · rfl
  · obtain ⟨a, -, htable⟩ := Option.bind_eq_some_iff.mp hform
    simp only
    split
    · rfl
    · exact saveKnLoop_bit (by omega) (saveWordTable_kn htable)
  · exact congrFun (saveLoop_bit fun _ _ _ => setWord_bit) .SM

/-- Saving double words changes no special bit. -/
theorem saveDwords_sm {xs : List (BitVec 32)} :
    (i.saveDwords q off xs s).2.bit .SM = s.bit .SM := by
  simp only [BodyInput.saveDwords, saveDword]
  rcases hform : (AddrType.ofCode (i.ucode.getPU8 (q + 1))).bind (saveDwordTable i.level) with
    _ | _ | ⟨area, z⟩ | ⟨low, high, z, limit⟩ | ⟨z, scale, limit⟩
  · rfl
  · rfl
  · obtain ⟨a, -, htable⟩ := Option.bind_eq_some_iff.mp hform
    simp only
    split
    · rfl
    · exact saveKnLoop_bit (by omega) (saveDwordTable_kn htable)
  · refine congrFun (saveLoop_bit fun k x s => ?_) .SM
    rw [setDword, setWord_bit, setWord_bit]
  · refine congrFun (saveLoop_bit fun k x s => ?_) .SM
    rfl

end

/-! ## Literals and `D0` -/

def literalOperand (x : BitVec 32) : List UInt8 :=
  [2, 0xFF, .ofNat x.toNat, .ofNat (x.toNat / 256), .ofNat (x.toNat / 65536),
    .ofNat (x.toNat / 16777216)]

def wordOperand (x : BitVec 16) : List UInt8 :=
  [0, 0xFF, .ofNat x.toNat, .ofNat (x.toNat / 256)]

def d0Operand : List UInt8 := [0, 0x11, 0, 0]

/-- `R` with a number below 256 as an operand. -/
def rOperand (k : UInt8) : List UInt8 := [0, 0x1A, k, 0]

/-- The elements of the class `D` hold a list from `D0` on. -/
def listFromD0 (xs : List (BitVec 16)) : Store :=
  { Store.off with word := update Store.off.word .D fun k => xs.getD k 0 }

section

variable {i : BodyInput} {q n : Nat} {x y : BitVec 32} {xs ys : List (BitVec 16)} {s : Store}

theorem word_literal {x : BitVec 16} (h : i.ucode.CodeAt (i.pc + q) (wordOperand x)) :
    i.word q 0 s = .ok x := by
  have hkind : i.ucode.getPU8 (i.pc + q) = 0 := h.getPU8 (i := 0) (Nat.zero_lt_succ _)
  have htype : i.ucode.getPU8 (i.pc + q + 1) = 0xFF := h.getPU8 (by decide : 1 < 4)
  have hvalue : i.ucode.getPU16 (i.pc + q + 2) = x.toNat := by
    rw [h.getPU16 (by decide : 2 + 1 < 4)]
    simp only [wordOperand, getD_cons_succ, getD_cons_zero, UInt8.toNat_ofNat']
    omega
  have hget : getWord i.ucode (i.pc + q) s i.level 0 1 = (.ok (), [x]) := by
    simp only [getWord, hkind, htype, hvalue]
    simp [AddrType.ofCode, AddrType.all, AddrType.code, getWordTable]
  rw [BodyInput.word, BodyInput.words, hget]
  rfl

theorem words_d0 (h : i.ucode.CodeAt (i.pc + q) d0Operand) (hn : n ≤ 8000) :
    i.words q 0 n s = .ok ((range n).map (s.getWord (.elem .D))) := by
  have htype : i.ucode.getPU8 (i.pc + q + 1) = 0x11 := h.getPU8 (by decide : 1 < 4)
  have hnumber : i.ucode.getPU16 (i.pc + q + 2) = 0 := h.getPU16 (by decide : 2 + 1 < 4)
  have hblock : InBlock 8000 1 (elementIndex 0) n := fun j hj => by
    change 0 + 1 * j < 8000
    omega
  have hget : getWord i.ucode (i.pc + q) s i.level 0 n =
      (.ok (), (range n).map fun j => s.getWord (.elem .D) (elementIndex 0 + 1 * j)) := by
    simp only [getWord, htype, operandStart, hnumber]
    exact getLoop_of_inBlock (by decide) hblock
  have hvalues : (fun j => s.getWord (.elem .D) (elementIndex 0 + 1 * j)) =
      s.getWord (.elem .D) := by
    funext j
    change s.getWord (.elem .D) (0 + 1 * j) = _
    rw [Nat.one_mul, Nat.zero_add]
  rw [BodyInput.words, hget, hvalues]
  rfl

theorem words_listFromD0 (h : i.ucode.CodeAt (i.pc + q) d0Operand) (hn : xs.length ≤ 8000) :
    i.words q 0 xs.length (listFromD0 xs) = .ok xs := by
  rw [words_d0 h hn]
  refine congrArg Except.ok (ext_getElem (by simp) fun k hk hk' => ?_)
  rw [getElem_map, getElem_range]
  change (update Store.off.word .D (fun k => xs.getD k 0)) .D k = _
  rw [update_self, getD_eq_getElem?_getD, getElem?_eq_getElem hk']
  rfl

theorem storedWords_d0 (h : i.ucode.CodeAt (i.pc + q) d0Operand) (hn : xs.length ≤ 8000) :
    (i.storedWords q xs s).1 = .ok () ∧
      ∀ k (hk : k < xs.length),
        (i.storedWords q xs s).2.2.getWord (.elem .D) k = xs.get ⟨k, hk⟩ := by
  have htype : i.ucode.getPU8 (i.pc + q + 1) = 0x11 := h.getPU8 (by decide : 1 < 4)
  have hnumber : i.ucode.getPU16 (i.pc + q + 2) = 0 := h.getPU16 (by decide : 2 + 1 < 4)
  have hform : (AddrType.ofCode 0x11).bind (saveWordTable i.level) =
      some (.of (.elem .D) false) := rfl
  have hsave : i.saveWords (i.pc + q) 0 xs s =
      saveLoop (fun k x s => s.setWord (.elem .D) k x) 8000 1 xs 0 s := by
    simp only [BodyInput.saveWords, saveWord, htype, hform, WordForm.of, operandStart, hnumber]
    rfl
  rw [BodyInput.storedWords, hsave]
  refine ⟨(saveLoop_ok_iff (by decide)).mpr fun j hj => by omega, fun k hk => ?_⟩
  have hother (k l : Nat) (hl : k + 1 ≤ l) (x : BitVec 16) (s : Store) :
      (s.setWord (.elem .D) l x).getWord (.elem .D) k = s.getWord (.elem .D) k :=
    getWord_setWord_of_ne (Nat.ne_of_lt hl) x
  have hread : (saveLoop (fun k x s => s.setWord (.elem .D) k x) 8000 1 xs 0 s).2.getWord
      (.elem .D) (0 + 1 * k) = xs.get ⟨k, hk⟩ :=
    saveLoop_read (fun s k => s.getWord (.elem .D) k) id (by decide)
      (fun k x s => getWord_setWord_self (.elem .D) k x) hother k hk (by omega)
  rwa [Nat.one_mul, Nat.zero_add] at hread

/-- What is stored from `D0` on can be told. -/
theorem storedWords_d0_inj (h : i.ucode.CodeAt (i.pc + q) d0Operand) (hn : xs.length ≤ 8000)
    (hlen : ys.length = xs.length) {t : Store}
    (hxy : i.storedWords q xs s = i.storedWords q ys t) : xs = ys := by
  refine ext_getElem hlen.symm fun k hk hk' => ?_
  have hread := (storedWords_d0 (s := s) h hn).2 k hk
  rw [hxy, (storedWords_d0 h (hlen ▸ hn)).2 k hk'] at hread
  exact hread.symm

theorem dword_literal (h : i.ucode.CodeAt (i.pc + q) (literalOperand x)) :
    i.dword q 0 s = .ok x := by
  have hkind : i.ucode.getPU8 (i.pc + q) = 2 := h.getPU8 (i := 0) (Nat.zero_lt_succ _)
  have htype : i.ucode.getPU8 (i.pc + q + 1) = 0xFF := h.getPU8 (by decide : 1 < 6)
  have hlow : i.ucode.getPU16 (i.pc + q + 2) = x.toNat % 65536 := by
    rw [h.getPU16 (by decide : 2 + 1 < 6)]
    simp only [literalOperand, getD_cons_succ, getD_cons_zero, UInt8.toNat_ofNat']
    omega
  have hhigh : i.ucode.getPU16 (i.pc + q + 4) = x.toNat / 65536 := by
    rw [h.getPU16 (by decide : 4 + 1 < 6)]
    simp only [literalOperand, getD_cons_succ, getD_cons_zero, UInt8.toNat_ofNat']
    omega
  have hvalue : i.ucode.getPU32 (i.pc + q + 2) = x.toNat := by
    rw [Ucode.getPU32, hlow, hhigh]
    omega
  have hget : getDword i.ucode (i.pc + q) s i.level 0 1 = (.ok (), [x]) := by
    simp only [getDword, hkind, htype, hvalue]
    simp [AddrType.ofCode, AddrType.all, AddrType.code, getDwordTable]
  rw [BodyInput.dword, hget]
  rfl

theorem storedDword_d0 (h : i.ucode.CodeAt (i.pc + q) d0Operand) :
    i.storedDword q x s = (.ok (), i.inPF, setDword (.elem .D) (.elem .D) 0 x s) := by
  have htype : i.ucode.getPU8 (i.pc + q + 1) = 0x11 := h.getPU8 (by decide : 1 < 4)
  have hnumber : i.ucode.getPU16 (i.pc + q + 2) = 0 := h.getPU16 (by decide : 2 + 1 < 4)
  have hsave : saveDword i.ucode (i.pc + q) s i.level 0 [x] =
      (.ok (), [x], setDword (.elem .D) (.elem .D) 0 x s) := by
    simp only [saveDword, htype, operandStart, hnumber]
    rfl
  rw [BodyInput.storedDword, BodyInput.saveDwords, hsave]

/-- What is stored in `D0` can be told. -/
theorem storedDword_d0_inj (h : i.ucode.CodeAt (i.pc + q) d0Operand)
    (hxy : i.storedDword q x s = i.storedDword q y s) : x = y := by
  rw [storedDword_d0 h, storedDword_d0 h] at hxy
  have hread (x : BitVec 32) : getTwo (.elem .D) (.elem .D)
      (setDword (.elem .D) (.elem .D) 0 x s) 0 = x := getTwo_setDword_self (.elem .D) 0 x
  have hstore : setDword (.elem .D) (.elem .D) 0 x s = setDword (.elem .D) (.elem .D) 0 y s :=
    congrArg (fun r : BodyResult => r.2.2) hxy
  rw [← hread x, ← hread y, hstore]

end

end Kalyke
