-- SUMMARY: Sums, differences and comparisons of blocks of words, and where the comparisons look.
import Kalyke.Exec.Stored
import Kalyke.Exec.Shifts
import Mathlib.Tactic.IntervalCases

/-!
# Operations on Blocks

The sum, the difference or the comparison of two blocks of words is taken word by word into a
buffer, which is saved at once. A literal stands for as many words as are needed. If the first
source of a comparison is one, the second source is looked for at its address: the literal is
compared with itself. While the words are compared, `SM188` tells whether all comparisons held so
far.
-/

namespace Kalyke

open List Option Except

/-! ## The instructions -/

def blockSize (i : BodyInput) : Except PlcErr Nat := do
  let n ← i.word 14 0 i.store
  if n.toInt ≤ 0 then .error .operands else return n.toNat

/-- The test for a literal: the upper byte of the first halfword. -/
def BodyInput.isConst (i : BodyInput) (q : Nat) : Prop :=
  i.ucode.getPU16 (i.pc + q) / 256 % 256 = 0xFF

instance decidableIsConst (i : BodyInput) (q : Nat) : Decidable (i.isConst q) :=
  inferInstanceAs (Decidable (_ = _))

def fillBuffer (word : Nat → Except PlcErr (BitVec 16)) :
    Nat → Nat → Except PlcErr (List (BitVec 16))
  | 0, _ => .ok []
  | n + 1, k => do
    let x ← word k
    let xs ← fillBuffer word n (k + 1)
    return x :: xs

/-- The buffer of an operation on two blocks. If the second source is a literal, it is got once. -/
def blockBuffer (op : BitVec 16 → BitVec 16 → BitVec 16) (i : BodyInput) :
    Except PlcErr (List (BitVec 16)) := do
  let n ← blockSize i
  if i.isConst 6 then do
    let y ← i.word 6 0 i.store
    fillBuffer (fun k => do
      let x ← i.word 2 k i.store
      return op x y) n 0
  else
    fillBuffer (fun k => do
      let x ← i.word 2 k i.store
      let y ← i.word 6 k i.store
      return op x y) n 0

def runBlockOperation (op : BitVec 16 → BitVec 16 → BitVec 16) (i : BodyInput) : BodyResult :=
  runChecked i (blockBuffer op i) fun xs s => i.saveWords (i.pc + 10) 0 xs s

def runCiBkaddIns : BodyInput → BodyResult := runBlockOperation (· + ·)

def runCiBksubIns : BodyInput → BodyResult := runBlockOperation (· - ·)

/-- The comparisons of blocks. -/
inductive BlockComparison where
  | de | dg | dl | dne | dle | dge
deriving DecidableEq, Repr

namespace BlockComparison

/-- The instruction of a comparison. -/
def ins : BlockComparison → DataIns
  | de => .bkcmpde
  | dg => .bkcmpdg
  | dl => .bkcmpdl
  | dne => .bkcmpdne
  | dle => .bkcmpdle
  | dge => .bkcmpdge

/-- Whether two signed words compare so. -/
def holds (op : BlockComparison) (x y : BitVec 16) : Bool :=
  match op with
  | de => x.toInt = y.toInt
  | dg => y.toInt < x.toInt
  | dl => x.toInt < y.toInt
  | dne => x.toInt ≠ y.toInt
  | dle => x.toInt ≤ y.toInt
  | dge => y.toInt ≤ x.toInt

/-- The comparison that an instruction code asks for. -/
def ofCode (code : Nat) : Option BlockComparison :=
  [de, dg, dl, dne, dle, dge].find? fun op => op.ins.code == code

theorem ofCode_code (op : BlockComparison) : ofCode op.ins.code = some op := by
  cases op <;> rfl

end BlockComparison

/-- Give `SM188` a value. -/
def setAllHold (b : Bool) (s : Store) : Store := s.setBit (.elem .SM) 188 b

/-- The loop over `n` words from the place `k` on. A comparison that does not hold, and an operand
that cannot be got, switch `SM188` off. For other codes the buffer is left as it is. -/
def bkcmpLoop (op : Option BlockComparison) (junk : Nat → Bool)
    (left right : Nat → Store → Except PlcErr (BitVec 16)) :
    Nat → Nat → Store → Except PlcErr (List Bool) × Store
  | 0, _, s => (.ok [], s)
  | n + 1, k, s =>
    match left k s, right k s with
    | .error e, _ => (.error e, setAllHold false s)
    | .ok _, .error e => (.error e, setAllHold false s)
    | .ok x, .ok y =>
      let b := (op.map fun op => op.holds x y).getD (junk k)
      let s := if (op.map fun op => op.holds x y) = some false then setAllHold false s else s
      let (ret, s) := bkcmpLoop op junk left right n (k + 1) s
      (ret.map fun bs => b :: bs, s)

/-- The comparisons, with `SM188` switched on. If the first source is a literal, it is got once, and
the words of the second one are looked for at its address. -/
def runBkcmp (i : BodyInput) (junk : Nat → Bool) (n : Nat) (s : Store) :
    Except PlcErr (List Bool) × Store :=
  let op := BlockComparison.ofCode (i.ucode.getPU16 i.pc)
  if i.isConst 2 then
    match i.word 2 0 s with
    | .error e => (.error e, setAllHold false s)
    | .ok x => bkcmpLoop op junk (fun _ _ => .ok x) (i.word 2) n 0 s
  else bkcmpLoop op junk (i.word 2) (i.word 6) n 0 s

/-- Compare and save. -/
def saveBkcmp (i : BodyInput) (junk : Nat → Bool) (n : Nat) (s : Store) :
    Except PlcErr Unit × Store :=
  match runBkcmp i junk n (setAllHold true s) with
  | (.error e, s) => (.error e, s)
  | (.ok bs, s) => i.saveChars (i.pc + 10) 0 bs s

def runCiBkcmpIns (junk : Nat → Bool) (i : BodyInput) : BodyResult :=
  runChecked i (blockSize i) (saveBkcmp i junk)

/-! ## Laws -/

/-- An operation with power flow on two sources of `n` words, either of which may be a literal. -/
structure BlockOf (n : Nat) (x y : Nat → BitVec 16) (i : BodyInput) : Prop where
  power : getPowerFlow i.inPF = true
  size : i.word 14 0 i.store = .ok (BitVec.ofNat 16 n)
  pos : 0 < n
  lt : n < 32768
  left : ∀ k < n, i.word 2 k i.store = .ok (x k)
  right : ∀ k < n, i.word 6 k i.store = .ok (y k)

/-- A comparison of two sources into a block of bits. -/
structure ComparisonOf (op : BlockComparison) (n : Nat) (x y : Nat → BitVec 16) (d : BitBlock)
    (i : BodyInput) : Prop extends BlockOf n x y i where
  code : i.ucode.getPU16 i.pc = op.ins.code
  dest : (i.operand 10).bitBlock i.store = some d
  fits : d.Fits n
  saves : (i.operand 10).SavesBits

section

variable (op : BlockComparison) (n : Nat) (x y : Nat → BitVec 16) (d : BitBlock) (i : BodyInput)

/-- All comparisons before a place hold. -/
def HoldBefore (k : Nat) : Prop := ∀ j < k, op.holds (x j) (y j) = true

instance decidableHoldBefore (k : Nat) : Decidable (HoldBefore op x y k) :=
  inferInstanceAs (Decidable (∀ j < k, op.holds (x j) (y j) = true))

/-- Every bit is the truth value of its comparison, and `SM188` that of all. -/
structure ComparesBlocks (r : BodyResult) : Prop where
  passes : r.1 = .ok ()
  bits : ∀ k < n, d.read k r.2.2 = op.holds (x k) (y k)
  all : r.2.2.getBit (.elem .SM) 188 = true ↔ HoldBefore op x y n

def whileCompared (k : Nat) : Store := setAllHold (HoldBefore op x y k) i.store

/-- Where the instruction looks, the words compare as those of the sources: a literal as first
source with itself, and words of other sources while `SM188` tells whether the comparisons before
hold. -/
def ComparesAlike : Prop :=
  if i.isConst 2 then ∀ k < n, op.holds (x k) (x k) = op.holds (x k) (y k)
  else ∀ k < n, ∃ x' y', i.word 2 k (whileCompared op x y i k) = .ok x' ∧
    i.word 6 k (whileCompared op x y i k) = .ok y' ∧ op.holds x' y' = op.holds (x k) (y k)

/-- If `SM188` is one of the bits, its comparison holds only with all others. -/
def FlagAgrees : Prop :=
  ∀ k < n, d.cell k = .bit .SM 188 → op.holds (x k) (y k) = true → HoldBefore op x y n

end

/-! ## Sums and differences -/

section

variable {i : BodyInput} {n k q : Nat} {x y : Nat → BitVec 16} {s t : Store}

/-- A literal is got at every offset, and from every store. -/
theorem word_of_isConst (h : i.isConst q) : i.word q k s = i.word q 0 t := by
  have htype : i.ucode.getPU8 (i.pc + q + 1) = 0xFF := by
    have hlow : i.ucode.getPU8 (i.pc + q) < 256 := UInt8.toNat_lt _
    have hhigh : i.ucode.getPU8 (i.pc + q + 1) < 256 := UInt8.toNat_lt _
    rw [BodyInput.isConst, Ucode.getPU16] at h
    omega
  have hform : (AddrType.ofCode 0xFF).bind (getWordTable i.level) = some .const := rfl
  simp only [BodyInput.word, BodyInput.words, getWord, htype, hform]

theorem fillBuffer_eq {word : Nat → Except PlcErr (BitVec 16)} {f : Nat → BitVec 16}
    (h : ∀ j, k ≤ j → j < k + n → word j = .ok (f j)) :
    fillBuffer word n k = .ok ((range' k n).map f) := by
  induction n generalizing k with
  | zero => rfl
  | succ n ih =>
    have hrest := ih (k := k + 1) fun j hj hlt => h j (by omega) (by omega)
    rw [fillBuffer, h k (Nat.le_refl k) (by omega), hrest]
    rfl

theorem blockSize_eq (h : BlockOf n x y i) : blockSize i = .ok n := by
  have hpos := h.pos
  rw [blockSize, h.size]
  simp only [bind, Except.bind, toInt_ofNat_count h.lt, toNat_ofNat_count h.lt]
  rw [if_neg (by omega)]
  rfl

theorem blockOperation_run {op : BitVec 16 → BitVec 16 → BitVec 16} (h : BlockOf n x y i) :
    runBlockOperation op i =
      i.storedWords 10 ((range n).map fun k => op (x k) (y k)) i.store := by
  have hbuffer : blockBuffer op i = .ok ((range n).map fun k => op (x k) (y k)) := by
    rw [blockBuffer, blockSize_eq h, range_eq_range']
    split
    · rename_i hconst
      rw [h.right 0 h.pos]
      refine fillBuffer_eq fun j _ hlt => ?_
      have hright := h.right j (by omega)
      rw [word_of_isConst hconst, h.right 0 h.pos] at hright
      rw [h.left j (by omega), ok.inj hright]
      rfl
    · refine fillBuffer_eq fun j _ hlt => ?_
      rw [h.left j (by omega), h.right j (by omega)]
      rfl
  rw [runBlockOperation, runChecked_eq h.power hbuffer]
  rfl

end

/-! ## Comparisons -/

section

variable {op : BlockComparison} {n k : Nat} {x y : Nat → BitVec 16} {d : BitBlock} {i : BodyInput}
variable {junk : Nat → Bool} {left right : Nat → Store → Except PlcErr (BitVec 16)} {s : Store}

theorem holdBefore_succ : HoldBefore op x y (k + 1) ↔
    HoldBefore op x y k ∧ op.holds (x k) (y k) = true :=
  Nat.forall_lt_succ_right

/-- `SM188` after a comparison. -/
theorem whileCompared_succ : whileCompared op x y i (k + 1) =
    if op.holds (x k) (y k) = false then setAllHold false (whileCompared op x y i k)
    else whileCompared op x y i k := by
  simp only [whileCompared, holdBefore_succ]
  split
  · rename_i hfalse
    simp only [hfalse, Bool.false_eq_true, and_false, decide_false, setAllHold, setSm_setSm]
  · rename_i htrue
    simp only [htrue, and_true]

/-- One word is compared as those of the sources. -/
def Alike (op : BlockComparison) (x y : Nat → BitVec 16) (i : BodyInput)
    (left right : Nat → Store → Except PlcErr (BitVec 16)) (k : Nat) : Prop :=
  ∃ x' y', left k (whileCompared op x y i k) = .ok x' ∧
    right k (whileCompared op x y i k) = .ok y' ∧ op.holds x' y' = op.holds (x k) (y k)

/-- One pass of the loop that got its words. -/
theorem bkcmpLoop_succ {s : Store} {a b : BitVec 16} (hleft : left k s = .ok a)
    (hright : right k s = .ok b) :
    bkcmpLoop (some op) junk left right (n + 1) k s =
      ((bkcmpLoop (some op) junk left right n (k + 1)
          (if op.holds a b = false then setAllHold false s else s)).1.map (op.holds a b :: ·),
        (bkcmpLoop (some op) junk left right n (k + 1)
          (if op.holds a b = false then setAllHold false s else s)).2) := by
  simp only [bkcmpLoop, hleft, hright, map_some, getD_some, some.injEq]

/-- The loop fills the buffer with the truth values just if it compares all words alike. -/
theorem bkcmpLoop_iff :
    (bkcmpLoop (some op) junk left right n k (whileCompared op x y i k)).1 =
        .ok ((range' k n).map fun j => op.holds (x j) (y j)) ↔
      ∀ j, k ≤ j → j < k + n → Alike op x y i left right j := by
  induction n generalizing k with
  | zero => exact iff_of_true rfl fun j hj hlt => absurd hlt (by omega)
  | succ n ih =>
    have hsplit : (∀ j, k ≤ j → j < k + (n + 1) → Alike op x y i left right j) ↔
        Alike op x y i left right k ∧
          ∀ j, k + 1 ≤ j → j < k + 1 + n → Alike op x y i left right j := by
      constructor
      · exact fun h => ⟨h k (Nat.le_refl k) (by omega), fun j hj hlt => h j (by omega) (by omega)⟩
      · rintro ⟨hfirst, hrest⟩ j hj hlt
        rcases Nat.eq_or_lt_of_le hj with rfl | hj
        · exact hfirst
        · exact hrest j hj (by omega)
    rw [hsplit, ← ih]
    rcases hleft : left k (whileCompared op x y i k) with e | a
    · refine iff_of_false ?_ ?_
      · simp [bkcmpLoop, hleft]
      · rintro ⟨⟨x', -, hx, -⟩, -⟩
        rw [hleft] at hx
        cases hx
    · rcases hright : right k (whileCompared op x y i k) with e | b
      · refine iff_of_false ?_ ?_
        · simp [bkcmpLoop, hleft, hright]
        · rintro ⟨⟨-, y', -, hy, -⟩, -⟩
          rw [hright] at hy
          cases hy
      · have halike : Alike op x y i left right k ↔ op.holds a b = op.holds (x k) (y k) := by
          constructor
          · rintro ⟨x', y', hx, hy, heq⟩
            rw [ok.inj (hleft.symm.trans hx), ok.inj (hright.symm.trans hy)]
            exact heq
          · exact fun heq => ⟨a, b, hleft, hright, heq⟩
        rw [bkcmpLoop_succ hleft hright, halike, range'_succ]
        by_cases heq : op.holds a b = op.holds (x k) (y k)
        · rw [heq, ← whileCompared_succ]
          rcases (bkcmpLoop (some op) junk left right n (k + 1)
            (whileCompared op x y i (k + 1))).1 with e | bs
          · simp [Except.map]
          · simp [Except.map]
        · refine iff_of_false (fun h => ?_) fun h => heq h.1
          rcases hrest : (bkcmpLoop (some op) junk left right n (k + 1)
              (if op.holds a b = false then setAllHold false (whileCompared op x y i k)
              else whileCompared op x y i k)).1 with e | bs
          · rw [hrest] at h
            cases h
          · rw [hrest] at h
            exact heq (cons.inj (ok.inj h)).1

/-- If the words compare alike, `SM188` tells in the end whether all comparisons hold. -/
theorem bkcmpLoop_store (h : ∀ j, k ≤ j → j < k + n → Alike op x y i left right j) :
    (bkcmpLoop (some op) junk left right n k (whileCompared op x y i k)).2 =
      whileCompared op x y i (k + n) := by
  induction n generalizing k with
  | zero => rfl
  | succ n ih =>
    obtain ⟨a, b, hleft, hright, heq⟩ := h k (Nat.le_refl k) (by omega)
    have hrest := ih (k := k + 1) fun j hj hlt => h j (by omega) (by omega)
    rw [bkcmpLoop_succ hleft hright, heq, ← whileCompared_succ, hrest, Nat.add_assoc,
      Nat.add_comm 1]

/-- The buffer that is filled has as many bits as there are words. -/
theorem bkcmpLoop_length {s : Store} {bs : List Bool}
    (h : (bkcmpLoop (some op) junk left right n k s).1 = .ok bs) : bs.length = n := by
  induction n generalizing k s bs with
  | zero =>
    cases h
    rfl
  | succ n ih =>
    rcases hleft : left k s with e | a
    · simp [bkcmpLoop, hleft] at h
    · rcases hright : right k s with e | b
      · simp [bkcmpLoop, hleft, hright] at h
      · rw [bkcmpLoop_succ hleft hright] at h
        obtain ⟨cs, hcs, rfl⟩ := map_eq_ok h
        rw [length_cons, ih hcs]

theorem bkcmpLoop_changesOnly {s : Store} : ChangesOnly (· = .bit .SM 188) s
    (bkcmpLoop (some op) junk left right n k s).2 := by
  induction n generalizing k s with
  | zero => exact changesOnly_refl
  | succ n ih =>
    rcases hleft : left k s with e | a
    · simp only [bkcmpLoop, hleft]
      exact changesOnly_sm 188 false
    · rcases hright : right k s with e | b
      · simp only [bkcmpLoop, hleft, hright]
        exact changesOnly_sm 188 false
      · rw [bkcmpLoop_succ hleft hright]
        refine ChangesOnly.trans ?_ ih
        split
        · exact changesOnly_sm 188 false
        · exact changesOnly_refl

end

/-! ## Blocks of bits that are saved -/

section

variable {i : BodyInput} {q : Nat} {d : BitBlock} {bs : List Bool} {s : Store}

theorem BitBlock.read_of_cell {e : BitElement} {k m : Nat} (h : d.cell k = .bit e m) :
    d.read k s = s.getBit (.elem e) m := by
  rw [BitBlock.cell] at h
  rw [BitBlock.read]
  cases harea : d.area with
  | elem e' =>
    rw [harea] at h
    obtain ⟨rfl, hm⟩ := Cell.bit.inj h
    rw [hm]
  | lm layer =>
    rw [harea] at h
    cases h

theorem saveChars_block (hd : (i.operand q).bitBlock s = some d) (hfits : d.Fits bs.length)
    (hsaves : (i.operand q).SavesBits) : (i.saveChars (i.pc + q) 0 bs s).1 = .ok () ∧
    (∀ k (hk : k < bs.length), d.read k (i.saveChars (i.pc + q) 0 bs s).2 = bs.get ⟨k, hk⟩) ∧
    ∀ e m, (∀ k < bs.length, d.cell k ≠ .bit e m) →
      (i.saveChars (i.pc + q) 0 bs s).2.getBit (.elem e) m = s.getBit (.elem e) m := by
  have hrang := d.area.rang_le
  change d.start + bs.length ≤ d.area.rang at hfits
  obtain ⟨z, hform, -⟩ := bit_place hd
  obtain ⟨type, htype, hget⟩ := bind_eq_some_iff.mp hform
  obtain ⟨g, hg⟩ := ne_none_iff_exists'.mp hsaves
  obtain ⟨type', htype', htable⟩ := bind_eq_some_iff.mp hg
  obtain rfl : type' = type := some.inj (htype'.symm.trans htype)
  obtain rfl := saveCharTable_of_get hget htable
  have hstart : elementIndex (operandStart i.ucode (i.pc + q) s z + 0) = d.start := by
    obtain ⟨⟨area, z'⟩, hform', rfl⟩ := map_eq_some_iff.mp hd
    obtain ⟨-, rfl⟩ := Prod.mk.inj (some.inj (hform'.symm.trans hform))
    rfl
  have hsave : i.saveChars (i.pc + q) 0 bs s =
      saveLoop (fun k x s => s.setBit d.area k x) d.area.rang 1 bs d.start s := by
    rw [WordOperand.type] at hg
    simp only [BodyInput.operand] at hg
    simp only [BodyInput.saveChars, saveChar, hg, hstart]
  have hother (k l : Nat) (hl : k + 1 ≤ l) (x : Bool) (s : Store) :
      (s.setBit d.area l x).getBit d.area k = s.getBit d.area k :=
    getBit_setBit_of_ne (Nat.ne_of_lt hl) x
  rw [hsave]
  refine ⟨(saveLoop_ok_iff (by omega)).mpr fun j hj => by omega, fun k hk => ?_, fun e m hne => ?_⟩
  · have hread : (saveLoop (fun k x s => s.setBit d.area k x) d.area.rang 1 bs d.start s).2.getBit
        d.area (d.start + 1 * k) = bs.get ⟨k, hk⟩ :=
      saveLoop_read (fun s k => s.getBit d.area k) id (by omega)
        (fun k x s => getBit_setBit_self d.area k x) hother k hk (by omega)
    rwa [Nat.one_mul] at hread
  · refine saveLoop_frame (fun s => s.getBit (.elem e) m) (by omega) fun j hj _ x s => ?_
    have hcell : Cell.bit e m ≠ d.area.cell (d.start + 1 * j) := by
      rw [Nat.one_mul]
      exact (hne j hj).symm
    have hread : ((BitArea.elem e).cell m).read (s.setBit d.area (d.start + 1 * j) x) =
        ((BitArea.elem e).cell m).read s := read_setBit hcell x
    exact BitArea.getBit_of_agree hread

end

/-! ## The instructions together -/

section

variable {op : BlockComparison} {n m : Nat} {x y u v : Nat → BitVec 16} {d : BitBlock}
variable {i j : BodyInput} {junk : Nat → Bool}

theorem whileCompared_zero : whileCompared op x y i 0 = setAllHold true i.store := by
  have hbefore : HoldBefore op x y 0 := fun k hk => absurd hk (Nat.not_lt_zero k)
  rw [whileCompared, decide_eq_true hbefore]

/-- Where the instruction looks for the words of the first source. -/
def lookLeft (i : BodyInput) (c : BitVec 16) (k : Nat) (s : Store) : Except PlcErr (BitVec 16) :=
  if i.isConst 2 then .ok c else i.word 2 k s

/-- Where the instruction looks for the words of the second source. -/
def lookRight (i : BodyInput) (k : Nat) (s : Store) : Except PlcErr (BitVec 16) :=
  if i.isConst 2 then i.word 2 k s else i.word 6 k s

theorem runBkcmp_eq (h : ComparisonOf op n x y d i) : runBkcmp i junk n (setAllHold true i.store) =
    bkcmpLoop (some op) junk (lookLeft i (x 0)) (lookRight i) n 0 (whileCompared op x y i 0) := by
  have hop : BlockComparison.ofCode (i.ucode.getPU16 i.pc) = some op := by
    rw [h.code, BlockComparison.ofCode_code]
  rw [runBkcmp, hop, whileCompared_zero]
  by_cases hconst : i.isConst 2
  · have hword : i.word 2 0 (setAllHold true i.store) = .ok (x 0) := by
      rw [word_of_isConst (t := i.store) hconst]
      exact h.left 0 h.pos
    have hleft : lookLeft i (x 0) = fun _ _ => .ok (x 0) := funext₂ fun _ _ => if_pos hconst
    have hright : lookRight i = i.word 2 := funext₂ fun _ _ => if_pos hconst
    rw [hleft, hright]
    simp only [if_pos hconst, hword]
  · have hleft : lookLeft i (x 0) = i.word 2 := funext₂ fun _ _ => if_neg hconst
    have hright : lookRight i = i.word 6 := funext₂ fun _ _ => if_neg hconst
    rw [hleft, hright]
    exact if_neg hconst

theorem comparesAlike_iff (h : BlockOf n x y i) : ComparesAlike op n x y i ↔
    ∀ k, 0 ≤ k → k < 0 + n → Alike op x y i (lookLeft i (x 0)) (lookRight i) k := by
  simp only [ComparesAlike, Nat.zero_le, forall_const, Nat.zero_add, Alike]
  split
  · rename_i hconst
    refine forall₂_congr fun k hk => ?_
    have hword (s : Store) : i.word 2 k s = .ok (x k) := by
      rw [word_of_isConst (t := i.store) hconst, ← word_of_isConst (k := k) (s := i.store) hconst]
      exact h.left k hk
    have hzero : x k = x 0 := by
      have heq := h.left 0 h.pos
      rw [← word_of_isConst (k := k) (s := i.store) hconst, h.left k hk] at heq
      exact ok.inj heq
    simp only [lookLeft, lookRight, if_pos hconst, hword, ok.injEq]
    constructor
    · intro heq
      exact ⟨x k, x k, hzero.symm, rfl, heq⟩
    · rintro ⟨x', y', rfl, rfl, heq⟩
      rw [← hzero] at heq
      exact heq
  · rename_i hconst
    simp only [lookLeft, lookRight, if_neg hconst]

/-- A comparison is right just if the words compare alike where it looks, and the bit for all
comparisons is none of the block, or agrees. -/
theorem comparesBlocks_iff (h : ComparisonOf op n x y d i) :
    ComparesBlocks op n x y d (runCiBkcmpIns junk i) ↔
      ComparesAlike op n x y i ∧ FlagAgrees op n x y d := by
  have halike : (runBkcmp i junk n (setAllHold true i.store)).1 =
      .ok ((range n).map fun k => op.holds (x k) (y k)) ↔ ComparesAlike op n x y i := by
    rw [comparesAlike_iff h.toBlockOf, ← bkcmpLoop_iff, runBkcmp_eq h, range_eq_range']
  have hchanges : ChangesOnly (· = .bit .SM 188) i.store
      (runBkcmp i junk n (setAllHold true i.store)).2 := by
    rw [runBkcmp_eq h]
    exact (changesOnly_sm 188 true).trans bkcmpLoop_changesOnly
  have hlength {bs : List Bool} (hbs : (runBkcmp i junk n (setAllHold true i.store)).1 = .ok bs) :
      bs.length = n := by
    rw [runBkcmp_eq h] at hbs
    exact bkcmpLoop_length hbs
  have hstore (hcompares : ComparesAlike op n x y i) :
      (runBkcmp i junk n (setAllHold true i.store)).2 = whileCompared op x y i n := by
    rw [runBkcmp_eq h, bkcmpLoop_store ((comparesAlike_iff h.toBlockOf).mp hcompares), Nat.zero_add]
  rw [runCiBkcmpIns, runChecked_eq h.power (blockSize_eq h.toBlockOf), saveBkcmp]
  generalize runBkcmp i junk n (setAllHold true i.store) = loop at *
  rcases loop with ⟨e | bs, s⟩
  · refine iff_of_false (fun hright => ?_) fun hboth => ?_
    · cases hright.passes
    · cases halike.mpr hboth.1
  · obtain rfl := hlength rfl
    have hdest : (i.operand 10).bitBlock s = some d := by
      rw [bitBlock_of_bits (d := ⟨.elem .SM, 188⟩) (n := 1)
        (hchanges.mono fun c hc => ⟨0, Nat.one_pos, hc⟩)]
      exact h.dest
    obtain ⟨hpasses, hbits, hrest⟩ := saveChars_block hdest h.fits h.saves
    -- the bits are those of the buffer, and `SM188` is one of them or as the loop has left it
    have hflag (hcompares : ComparesAlike op bs.length x y i) :
        s.getBit (.elem .SM) 188 = true ↔ HoldBefore op x y bs.length := by
      have hs : s = whileCompared op x y i bs.length := hstore hcompares
      rw [hs, whileCompared, setAllHold, getBit_setBit_self, decide_eq_true_iff]
    constructor
    · intro hright
      have hbuffer : ComparesAlike op bs.length x y i := by
        refine halike.mp (congrArg ok (ext_get (by simp) fun k hk hk' => ?_))
        have hbit := hright.bits k hk
        rw [hbits k hk] at hbit
        simpa using hbit
      refine ⟨hbuffer, fun k hk hcell hholds => ?_⟩
      have hbit := hright.bits k hk
      rw [BitBlock.read_of_cell hcell, hholds] at hbit
      exact hright.all.mp hbit
    · rintro ⟨hcompares, hagrees⟩
      have hbuffer := ok.inj (halike.mpr hcompares)
      have hvalue (k : Nat) (hk : k < bs.length) : bs.get ⟨k, hk⟩ = op.holds (x k) (y k) := by
        have hat := congrArg (fun bs => bs[k]?) hbuffer
        simpa [hk] using hat
      refine ⟨hpasses, fun k hk => (hbits k hk).trans (hvalue k hk), ?_⟩
      by_cases hcell : ∃ k < bs.length, d.cell k = .bit .SM 188
      · obtain ⟨k, hk, hcell⟩ := hcell
        rw [← BitBlock.read_of_cell hcell, hbits k hk, hvalue k hk]
        exact ⟨hagrees k hk hcell, fun hall => hall k hk⟩
      · rw [hrest .SM 188 fun k hk heq => hcell ⟨k, hk, heq⟩]
        exact hflag hcompares

/-- The operations on blocks are right just if the comparison is. -/
theorem blocks_right_iff (hi : BlockOf n x y i) (hj : ComparisonOf op m u v d j) :
    (runCiBkaddIns i = i.storedWords 10 ((range n).map fun k => x k + y k) i.store ∧
      runCiBksubIns i = i.storedWords 10 ((range n).map fun k => x k - y k) i.store ∧
      ∀ junk, ComparesBlocks op m u v d (runCiBkcmpIns junk j)) ↔
      ComparesAlike op m u v j ∧ FlagAgrees op m u v d := by
  constructor
  · rintro ⟨-, -, hcompares⟩
    exact (comparesBlocks_iff hj).mp (hcompares fun _ => false)
  · intro hboth
    exact ⟨blockOperation_run hi, blockOperation_run hi,
      fun _ => (comparesBlocks_iff hj).mpr hboth⟩

end

/-! ## Samples -/

/-- An operation on two sources of so many words, with the word 6 in `D0` and 7 in `D1`. -/
def blockOfD0 (code : UInt8) (left right dest : List UInt8) (n : BitVec 16) : BodyInput :=
  { ucode := [code, 0xF2] ++ left ++ right ++ dest ++ wordOperand n, pc := 0, level := 0, now := 0,
    inPF := 1, sfc := Plc.off.sfc, store := listFromD0 [6, 7] }

def m0Operand : List UInt8 := [0, 0x05, 0, 0]

def addFive : BodyInput := blockOfD0 0x60 d0Operand (wordOperand 5) d0Operand 2

/-- The words 6 and 7 are compared with the literal 5. -/
def compareFive : BodyInput := blockOfD0 0x63 d0Operand (wordOperand 5) m0Operand 2

def fiveCompared : BodyInput := blockOfD0 0x62 (wordOperand 5) d0Operand m0Operand 1

theorem addFive_block : BlockOf 2 (fun k => [6, 7].getD k 0) (fun _ => 5) addFive := by
  refine ⟨getPowerFlow_one, rfl, by decide, by decide, fun k hk => ?_, fun k hk => ?_⟩ <;>
    interval_cases k <;> rfl

theorem compareFive_comparison : ComparisonOf .dg 2 (fun k => [6, 7].getD k 0) (fun _ => 5)
    ⟨.elem .M, 0⟩ compareFive := by
  refine ⟨⟨getPowerFlow_one, rfl, by decide, by decide, fun k hk => ?_, fun k hk => ?_⟩, rfl, rfl,
    show 0 + 2 ≤ 16384 by decide, by decide⟩ <;> interval_cases k <;> rfl

theorem fiveCompared_comparison : ComparisonOf .de 1 (fun _ => 5) (fun _ => 6) ⟨.elem .M, 0⟩
    fiveCompared := by
  refine ⟨⟨getPowerFlow_one, rfl, by decide, by decide, fun k hk => ?_, fun k hk => ?_⟩, rfl, rfl,
    show 0 + 1 ≤ 16384 by decide, by decide⟩ <;> interval_cases k <;> rfl

/-- The sums are 11 and 12, the differences 1 and 2, and both words are greater. -/
theorem blocks_right_d0 :
    runCiBkaddIns addFive = addFive.storedWords 10 [11, 12] addFive.store ∧
      runCiBksubIns addFive = addFive.storedWords 10 [1, 2] addFive.store ∧
      ∀ junk, ComparesBlocks .dg 2 (fun k => [6, 7].getD k 0) (fun _ => 5) ⟨.elem .M, 0⟩
        (runCiBkcmpIns junk compareFive) := by
  refine (blocks_right_iff addFive_block compareFive_comparison).mpr ⟨?_, fun k _ hcell => ?_⟩
  · rw [ComparesAlike, if_neg (by decide)]
    intro k hk
    interval_cases k
    · exact ⟨6, 5, rfl, rfl, rfl⟩
    · exact ⟨7, 5, rfl, rfl, rfl⟩
  · cases hcell

/-- The literal 5 is found equal to the word 6. -/
theorem bkcmp_ignores_block : ¬ ∀ junk, ComparesBlocks .de 1 (fun _ => 5) (fun _ => 6)
    ⟨.elem .M, 0⟩ (runCiBkcmpIns junk fiveCompared) := by
  intro h
  have halike := ((comparesBlocks_iff fiveCompared_comparison).mp (h fun _ => false)).1
  exact absurd (halike 0 Nat.one_pos) (by decide)

end Kalyke
