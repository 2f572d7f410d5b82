-- SUMMARY: Word operands as blocks of words: what is got from them, what is saved in them, and what stays.
import Kalyke.Exec.Accesses
import Kalyke.Exec.DataProcessing

/-!
# Blocks of Words

A word operand with its offsets is a block of words, each in an element of its own or in joined bits
of its own. But for the plain `V` operand `get_word` and `save_word` mean the same block, and a word
that is saved is the only one that changes, as long as the block lies in its class and its index
register stays as it is.
-/

namespace Kalyke

open List Nat Option

/-! ## Blocks -/

/-- Where the words of an operand lie: in joined bits of a width, or in elements below a limit. -/
inductive WordBlock where
  | bits (area : BitArea) (width start : Nat)
  | elems (area : WordArea) (limit start : Nat)
deriving DecidableEq, Repr

namespace WordBlock

def cells (k : Nat) : WordBlock → List Cell
  | bits area width start => (range width).map fun m => area.cell (start + width * k + m)
  | elems area _ start => [area.cell (start + k)]

/-- The value of a word. -/
def read (k : Nat) (s : Store) : WordBlock → BitVec 16
  | bits area width start =>
    BitVec.ofNat 16 (joinBits (fun m => s.getBit area (start + width * k + m)) width)
  | elems area _ start => s.getWord area (start + k)

/-- What a word can hold of a value. -/
def kept (x : BitVec 16) : WordBlock → BitVec 16
  | bits _ width _ => cutTo width x
  | elems .. => x

/-- The first `m` words lie in their class. -/
def Fits (m : Nat) : WordBlock → Prop
  | bits area width start => start + width * m ≤ area.rang
  | elems _ limit start => start + m ≤ limit

instance decidableFits (m : Nat) : ∀ b : WordBlock, Decidable (b.Fits m)
  | bits _ _ _ => inferInstanceAs (Decidable (_ ≤ _))
  | elems _ _ _ => inferInstanceAs (Decidable (_ ≤ _))

variable {b : WordBlock} {j k m : Nat} {s s' : Store} {c : Cell}

theorem Fits.mono (h : b.Fits m) (hk : k ≤ m) : b.Fits k := by
  cases b with
  | bits area width start =>
    have hmul : width * k ≤ width * m := Nat.mul_le_mul_left width hk
    change start + width * m ≤ area.rang at h
    change start + width * k ≤ area.rang
    omega
  | elems area limit start =>
    change start + m ≤ limit at h
    change start + k ≤ limit
    omega

theorem read_of_agree (h : ∀ c ∈ b.cells k, c.read s' = c.read s) : b.read k s' = b.read k s := by
  cases b with
  | bits area width start =>
    refine congrArg (BitVec.ofNat 16) (joinBits_congr fun m hm => BitArea.getBit_of_agree (h _ ?_))
    exact List.mem_map.mpr ⟨m, mem_range.mpr hm, rfl⟩
  | elems area limit start => exact WordArea.getWord_of_agree (h _ (mem_singleton.mpr rfl))

/-- Two words share no cell. -/
theorem cells_disjoint (hjk : j ≠ k) (hj : c ∈ b.cells j) : c ∉ b.cells k := by
  intro hk
  cases b with
  | bits area width start =>
    obtain ⟨m, hm, rfl⟩ := List.mem_map.mp hj
    obtain ⟨m', hm', heq⟩ := List.mem_map.mp hk
    have hm := mem_range.mp hm
    have hm' := mem_range.mp hm'
    have hsum : width * k + m' = width * j + m := by
      have hcell := BitArea.cell_inj heq
      omega
    have hquot := congrArg (· / width) hsum
    have hwidth : 0 < width := zero_lt_of_lt hm
    simp only [mul_add_div hwidth, div_eq_of_lt hm, div_eq_of_lt hm'] at hquot
    omega
  | elems area limit start =>
    have heq := (mem_singleton.mp hj).symm.trans (mem_singleton.mp hk)
    have hcell := WordArea.cell_inj heq
    omega

/-- What is in a word has been cut to what it can hold. -/
theorem kept_read : b.kept (b.read k s) = b.read k s := by
  cases b with
  | bits area width start =>
    have hlt := joinBits_lt (fun m => s.getBit area (start + width * k + m)) width
    have hle :=
      mod_le (joinBits (fun m => s.getBit area (start + width * k + m)) width) (2 ^ 16)
    simp only [kept, read, cutTo, BitVec.toNat_ofNat]
    rw [mod_eq_of_lt (Nat.lt_of_le_of_lt hle hlt)]
    exact BitVec.eq_of_toNat_eq (by simp)
  | elems area limit start => rfl

end WordBlock

/-! ## Operands -/

/-- A word operand: the code it is in, its address, and the call level. -/
structure WordOperand where
  ucode : Ucode
  addr : Nat
  level : Nat

/-- The operand `q` bytes behind the instruction code. -/
def BodyInput.operand (i : BodyInput) (q : Nat) : WordOperand := ⟨i.ucode, i.pc + q, i.level⟩

namespace WordOperand

variable (o : WordOperand)

/-- The element type. -/
def type : Option AddrType := AddrType.ofCode (o.ucode.getPU8 (o.addr + 1))

/-- Two places of one operand. -/
def Same (o' : WordOperand) : Prop :=
  o.ucode.getPU8 o.addr = o'.ucode.getPU8 o'.addr ∧ o.type = o'.type ∧
    o.ucode.getPU16 (o.addr + 2) = o'.ucode.getPU16 (o'.addr + 2) ∧ o.level = o'.level

/-- What `get_word` gives at an offset. -/
def get (k : Nat) (s : Store) : Except PlcErr (BitVec 16) :=
  (outcome (getWord o.ucode o.addr s o.level k 1)).map fun xs => xs.headD 0

def save (k : Nat) (x : BitVec 16) (s : Store) : Except PlcErr Unit × Store :=
  ((saveWord o.ucode o.addr s o.level k [x]).1, (saveWord o.ucode o.addr s o.level k [x]).2.2)

def block (s : Store) : Option WordBlock :=
  match o.type.bind (saveWordTable o.level) with
  | some (.kn area z) =>
    if operandKn o.ucode o.addr z < 1 ∨ 4 < operandKn o.ucode o.addr z then none
    else some (.bits area (4 * operandKn o.ucode o.addr z) (operandKnStart o.ucode o.addr s z))
  | some (.cells area z limit) => some (.elems area limit (blockStart o.ucode o.addr s z 0))
  | _ => none

/-- The index register. -/
def register : List Cell :=
  match o.type.bind (saveWordTable o.level) with
  | some (.kn _ z) => knRegisterCells o.ucode o.addr z
  | some (.cells _ z _) => registerCells o.ucode o.addr z
  | _ => []

variable {o} {b : WordBlock} {j k m : Nat} {x : BitVec 16} {s s' : Store} {c : Cell}

/-- The kinds of blocks, with the class of elements and how it is read. -/
theorem block_cases (hb : o.block s = some b) (hv : o.type ≠ some .v) :
    (∃ area z, o.type.bind (saveWordTable o.level) = some (.kn area z) ∧
      o.type.bind (getWordTable o.level) = some (.kn area z) ∧ area ≠ .elem .SM ∧
      ¬ (operandKn o.ucode o.addr z < 1 ∨ 4 < operandKn o.ucode o.addr z) ∧
      b = .bits area (4 * operandKn o.ucode o.addr z) (operandKnStart o.ucode o.addr s z)) ∨
    ∃ area z l l', o.type.bind (saveWordTable o.level) = some (.cells area z l) ∧
      o.type.bind (getWordTable o.level) = some (.cells area z l') ∧ l ≤ l' ∧ l' ≤ area.rang ∧
      (z = true → area ≠ .elem .Z) ∧ b = .elems area l (blockStart o.ucode o.addr s z 0) := by
  rcases hform : o.type.bind (saveWordTable o.level) with _ | form
  · simp only [block, hform, reduceCtorEq] at hb
  · obtain ⟨a, ha, hsave⟩ := bind_eq_some_iff.mp hform
    have hget : o.type.bind (getWordTable o.level) = getWordTable o.level a := by
      rw [ha]
      rfl
    rcases saveWordTable_cases hsave (fun h => hv (h ▸ ha)) with
      ⟨area, z, rfl, htable⟩ | ⟨area, z, l, l', rfl, htable, hle, hl', hz⟩
    · simp only [block, hform] at hb
      split at hb
      · cases hb
      · rename_i hkn
        refine .inl ⟨area, z, rfl, hget.trans htable, ?_, hkn, (some.inj hb).symm⟩
        rintro rfl
        cases a <;> cases hsave
    · simp only [block, hform] at hb
      exact .inr ⟨area, z, l, l', rfl, hget.trans htable, hle, hl', hz, (some.inj hb).symm⟩

/-- The block depends on the index register only. -/
theorem block_of_agree (h : ∀ c ∈ o.register, c.read s' = c.read s) : o.block s' = o.block s := by
  simp only [register, type] at h
  simp only [block, type]
  split <;> rename_i heq <;> simp only [heq] at h
  · rw [operandKnStart_of_agree h]
  · rw [blockStart, operandStart_of_agree h, blockStart]
  · rfl

/-- No index register lies in the block it is used for. -/
theorem not_mem_cells_of_register (hb : o.block s = some b) (hv : o.type ≠ some .v)
    (hc : c ∈ o.register) : c ∉ b.cells k := by
  intro hmem
  rcases block_cases hb hv with
    ⟨area, z, hsave, -, -, -, rfl⟩ | ⟨area, z, l, l', hsave, -, -, -, hz, rfl⟩
  · simp only [register, hsave, knRegisterCells] at hc
    obtain ⟨m, -, rfl⟩ := List.mem_map.mp hmem
    split at hc
    · cases area <;> cases mem_singleton.mp hc
    · cases hc
  · simp only [register, hsave, registerCells] at hc
    obtain rfl := mem_singleton.mp hmem
    split at hc
    · rename_i hindexed
      cases area with
      | elem e =>
        refine hz hindexed ?_
        injection mem_singleton.mp hc with he
        rw [he]
      | v layer => cases mem_singleton.mp hc
    · cases hc

/-- No special bit lies in the block of an operand. -/
theorem sm_not_mem_cells (hb : o.block s = some b) (hv : o.type ≠ some .v) (i : Nat) :
    Cell.bit .SM i ∉ b.cells k := by
  intro hmem
  rcases block_cases hb hv with ⟨area, z, -, -, hsm, -, rfl⟩ | ⟨area, z, l, l', -, -, -, -, -, rfl⟩
  · obtain ⟨m, -, heq⟩ := List.mem_map.mp hmem
    cases area with
    | elem e =>
      injection heq with he
      exact hsm (congrArg BitArea.elem he)
    | lm layer => cases heq
  · cases area <;> cases mem_singleton.mp hmem

/-- The operand has a block, whose first `m` words lie in their class. -/
structure HasBlock (o : WordOperand) (b : WordBlock) (m : Nat) (s : Store) : Prop where
  block : o.block s = some b
  plain : o.type ≠ some .v
  fits : b.Fits m

namespace HasBlock

variable {A : Cell → Prop}

theorem mono (h : o.HasBlock b m s) (hk : k ≤ m) : o.HasBlock b k s :=
  ⟨h.block, h.plain, h.fits.mono hk⟩

/-- The block stays where it is if the index register is not changed. -/
theorem of_changes (h : o.HasBlock b m s) (hc : ChangesOnly A s s')
    (hA : ∀ c ∈ o.register, ¬ A c) : o.HasBlock b m s' :=
  ⟨(block_of_agree fun c hmem => hc.cells c (hA c hmem)).trans h.block, h.plain, h.fits⟩

/-- What the two functions do with a word of the block. -/
theorem access (h : o.HasBlock b m s) (hk : k < m) :
    (∃ area width start, b = .bits area width start ∧ 0 < width ∧
      knBase start k width = start + width * k ∧ start + width * k + width ≤ area.rang ∧
      getWord o.ucode o.addr s o.level k 1 =
        getKnLoop 16 (s.getBit area) area.rang width start 1 k ∧
      ∀ x, o.save k x s = ((saveKnLoop area width start [x] k s).1,
        (saveKnLoop area width start [x] k s).2.2)) ∨
    ∃ area limit limit' start, b = .elems area limit start ∧ start + k < limit ∧
      limit ≤ limit' ∧ limit' ≤ 32768 ∧
      getWord o.ucode o.addr s o.level k 1 = getLoop (s.getWord area) limit' 1 1 (start + k) ∧
      ∀ x, o.save k x s =
        saveLoop (fun i x s => s.setWord area i x) limit 1 [x] (start + k) s := by
  have hfits := h.fits.mono (succ_le_of_lt hk)
  rcases block_cases h.block h.plain with
    ⟨area, z, hsave, hget, -, hkn, rfl⟩ | ⟨area, z, l, l', hsave, hget, hle, hl', -, rfl⟩
  · have hrang := area.rang_le
    change _ + _ * (k + 1) ≤ area.rang at hfits
    rw [mul_succ] at hfits
    have hbase : knBase (operandKnStart o.ucode o.addr s z) k (4 * operandKn o.ucode o.addr z) =
        operandKnStart o.ucode o.addr s z + 4 * operandKn o.ucode o.addr z * k := by
      rw [knBase, Nat.mul_comm]
      exact elementIndex_of_lt (by omega)
    rw [type] at hget hsave
    refine .inl ⟨area, _, _, rfl, by omega, hbase, by omega, ?_, fun x => ?_⟩
    · simp only [getWord, hget, if_neg hkn]
    · simp only [WordOperand.save, saveWord, hsave, if_neg hkn]
  · have hrang := area.rang_le
    change _ + (k + 1) ≤ l at hfits
    have hstart : elementIndex (operandStart o.ucode o.addr s z + k) =
        blockStart o.ucode o.addr s z 0 + k := by
      rw [← elementIndex_of_lt (i := blockStart o.ucode o.addr s z 0 + k) (by omega)]
      exact (elementIndex_mod (operandStart o.ucode o.addr s z + 0) k).symm
    rw [type] at hget hsave
    refine .inr ⟨area, l, l', _, rfl, by omega, hle, by omega, ?_, fun x => ?_⟩
    · simp only [getWord, hget, hstart]
    · simp only [WordOperand.save, saveWord, hsave, hstart]

/-- What is got from the block. -/
theorem get (h : o.HasBlock b m s) (hk : k < m) : o.get k s = .ok (b.read k s) := by
  rw [WordOperand.get]
  rcases h.access hk with
    ⟨area, width, start, rfl, hwidth, hbase, hle, hget, -⟩ |
    ⟨area, limit, limit', start, rfl, hlt, hle, hl', hget, -⟩
  · have hblock : InBits area.rang width (knBase start k width) 1 := by
      exact .inr (by omega)
    rw [hget, getKnLoop_of_inBits hblock, hbase]
    rfl
  · rw [hget, getLoop_of_inBlock (by omega) fun j hj => by omega]
    rfl

/-- A word of the block can be saved. -/
theorem save_ok (h : o.HasBlock b m s) (hk : k < m) (x : BitVec 16) :
    (o.save k x s).1 = .ok () := by
  rcases h.access hk with
    ⟨area, width, start, rfl, hwidth, hbase, hle, -, hsave⟩ |
    ⟨area, limit, limit', start, rfl, hlt, hle, hl', -, hsave⟩
  · rw [hsave, saveKnLoop_ok_iff hwidth, hbase, length_singleton]
    exact .inr (by omega)
  · rw [hsave, saveLoop_ok_iff (by omega), length_singleton]
    exact fun j hj => by omega

theorem save_changesOnly (h : o.HasBlock b m s) (hk : k < m) (x : BitVec 16) :
    ChangesOnly (· ∈ b.cells k) s (o.save k x s).2 := by
  rcases h.access hk with
    ⟨area, width, start, rfl, hwidth, hbase, hle, -, hsave⟩ |
    ⟨area, limit, limit', start, rfl, hlt, hle, hl', -, hsave⟩
  · rw [hsave]
    refine (saveKnLoop_changesOnly_iff hwidth).mpr fun j hj i hi _ => .inl ?_
    obtain rfl : j = 0 := lt_one_iff.mp hj
    rw [hbase]
    exact List.mem_map.mpr ⟨i, mem_range.mpr hi, rfl⟩
  · rw [hsave]
    refine (saveLoop_changesOnly_iff (touches_setWord area) (by omega)).mpr
      fun j hj _ c hc => .inl ?_
    obtain rfl : j = 0 := lt_one_iff.mp hj
    exact mem_singleton.mpr hc

/-- The word that is saved can be got back, as far as its bits can hold it. -/
theorem read_save (h : o.HasBlock b m s) (hk : k < m) (x : BitVec 16) :
    b.read k (o.save k x s).2 = b.kept x := by
  have hx : 0 < [x].length := Nat.one_pos
  rcases h.access hk with
    ⟨area, width, start, rfl, hwidth, hbase, hle, -, hsave⟩ |
    ⟨area, limit, limit', start, rfl, hlt, hle, hl', -, hsave⟩
  · rw [hsave]
    refine congrArg (BitVec.ofNat 16) ((joinBits_congr fun i hi => ?_).trans
      (joinBits_getLsbD x width))
    have hread : (saveKnLoop area width start [x] k s).2.2.getBit area
        (knBase start k width + width * 0 + i) = x.getLsbD i :=
      saveKnLoop_read hwidth 0 hx hi (by rw [hbase]; omega)
    rw [hbase] at hread
    exact hread
  · rw [hsave]
    have hread : (saveLoop (fun i x s => s.setWord area i x) limit 1 [x] (start + k) s).2.getWord
        area (start + k + 1 * 0) = id x :=
      saveLoop_read (fun s i => s.getWord area i) id (by omega)
        (fun k x s => getWord_setWord_self area k x)
        (fun k l hkl x s => getWord_setWord_of_ne (by omega) x) 0 hx (by omega)
    exact hread

/-- The block is still there. -/
theorem saved (h : o.HasBlock b m s) (hk : k < m) (x : BitVec 16) :
    o.HasBlock b m (o.save k x s).2 :=
  h.of_changes (h.save_changesOnly hk x) fun _ => not_mem_cells_of_register h.block h.plain

theorem read_save_of_ne (h : o.HasBlock b m s) (hk : k < m) (hjk : j ≠ k) (x : BitVec 16) :
    b.read j (o.save k x s).2 = b.read j s :=
  WordBlock.read_of_agree fun c hc =>
    (h.save_changesOnly hk x).cells c (WordBlock.cells_disjoint hjk hc)

end HasBlock

end WordOperand

end Kalyke
