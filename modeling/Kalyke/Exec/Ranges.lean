-- SUMMARY: Which operands the get and save functions accept.
import Kalyke.Exec.Accesses

/-!
# Ranges of Operands

The get and save functions are to pass just for blocks that lie in their class of elements, as the
number of an element is meant and not as it comes out in 16 bits, and to access elements of the
class only. The numbers are checked one by one, after they have been cut to 16 bits and, in some
cases, against the size of another class; the number of an index register is not checked.
-/

namespace Kalyke

open List Nat Option

/-! ## Operands that fit -/

section

variable (u : Ucode) (p : Nat) (s : Store)

/-- The index register is one of those that there are. -/
def RegisterFits (z : Bool) : Prop := z = true → u.getPU8 p < WordElement.rang .Z

/-- A block of bits lies in its class. -/
def CharFits (form : Option (BitArea × Bool)) (off cnt : Nat) : Prop :=
  match form with
  | some (area, z) => RegisterFits u p z ∧ InBlock area.rang 1 (operandStart u p s z + off) cnt
  | none => False

/-- The bits of an operand lie in their class. -/
def KnFits (area : BitArea) (z : Bool) (off cnt : Nat) : Prop :=
  InBits area.rang (4 * operandKn u p z) (knNumber u p s z + off * (4 * operandKn u p z)) cnt

/-- A block of words lies in its class. A literal has no elements. -/
def WordFits (form : Option WordForm) (off cnt : Nat) : Prop :=
  match form with
  | some .const => u.getPU8 p < 2
  | some (.kn area z) => 1 ≤ operandKn u p z ∧ operandKn u p z ≤ 4 ∧ KnFits u p s area z off cnt
  | some (.cells area z _) =>
    RegisterFits u p z ∧ InBlock area.rang 1 (operandStart u p s z + off) cnt
  | none => False

/-- A block of double words lies in its class. The counters of 32 bits are those from 200 on. -/
def DwordFits (least : Bool → Nat) (form : Option DwordForm) (off cnt : Nat) : Prop :=
  match form with
  | some .const => 2 ≤ u.getPU8 p ∧ u.getPU8 p ≤ 3
  | some (.kn area z) =>
    least z ≤ operandKn u p z ∧ operandKn u p z ≤ 8 ∧ KnFits u p s area z off cnt
  | some (.cells low _ z _) =>
    RegisterFits u p z ∧ InBlock (low.rang - 1) 2 (operandStart u p s z + off * 2) cnt
  | some (.counter z _ _) => RegisterFits u p z ∧
      ∀ j < cnt, 200 ≤ operandStart u p s z + off + j ∧ operandStart u p s z + off + j < cRang
  | none => False

/-- A function passes just if its operand fits, and where it does not pass it has accessed elements
only. -/
def PassesExactly (ok fits : Prop) (accessed : List Cell) : Prop :=
  (ok ↔ fits) ∧ (¬ ok → ∀ c ∈ accessed, c.IsElement)

variable (n off : Nat)

def GetCharExact (cnt : Nat) : Prop :=
  let form := (AddrType.ofCode (u.getPU8 (p + 1))).bind (getCharTable n)
  PassesExactly ((getChar u p s n off cnt).1 = .ok ()) (CharFits u p s form off cnt)
    (charCells u p s form off cnt)

def SaveCharExact (xs : List Bool) : Prop :=
  let form := (AddrType.ofCode (u.getPU8 (p + 1))).bind (saveCharTable n)
  PassesExactly ((saveChar u p s n off xs).1 = .ok ()) (CharFits u p s form off xs.length)
    (charCells u p s form off xs.length)

def GetWordExact (cnt : Nat) : Prop :=
  let form := (AddrType.ofCode (u.getPU8 (p + 1))).bind (getWordTable n)
  PassesExactly ((getWord u p s n off cnt).1 = .ok ()) (WordFits u p s form off cnt)
    (wordCells u p s getKnCells form off cnt)

def SaveWordExact (xs : List (BitVec 16)) : Prop :=
  let form := (AddrType.ofCode (u.getPU8 (p + 1))).bind (saveWordTable n)
  PassesExactly ((saveWord u p s n off xs).1 = .ok ()) (WordFits u p s form off xs.length)
    (wordCells u p s savedKnCells form off xs.length)

def GetDwordExact (cnt : Nat) : Prop :=
  let form := (AddrType.ofCode (u.getPU8 (p + 1))).bind (getDwordTable n)
  PassesExactly ((getDword u p s n off cnt).1 = .ok ())
    (DwordFits u p s getDwordKnMin form off cnt)
    (dwordCells u p s getKnCells getDwordKnMin form off cnt)

def SaveDwordExact (xs : List (BitVec 32)) : Prop :=
  let form := (AddrType.ofCode (u.getPU8 (p + 1))).bind (saveDwordTable n)
  PassesExactly ((saveDword u p s n off xs).1 = .ok ())
    (DwordFits u p s saveDwordKnMin form off xs.length)
    (dwordCells u p s savedKnCells saveDwordKnMin form off xs.length)

end

/-! ## When the ranges are exact -/

/-- When a block of `cnt` numbers from `start` on is checked rightly, if each number is compared
with `limit` and there are `rang` of them. -/
structure BlockRanged (register layers : Prop) (limit rang stride start cnt : Nat) : Prop where
  /-- The index register is one. -/
  register : register
  /-- A number that is too large for 16 bits does not come to a block that is accepted. -/
  wrap : 65536 ≤ start → InBlock limit stride (elementIndex start) cnt → cnt = 0
  /-- The block does not end between the two limits. -/
  between : start < 65536 → InBlock (max limit rang) stride start cnt →
    InBlock (min limit rang) stride start cnt
  /-- If the block is refused, the elements below the limit exist or none was accessed. -/
  layers : ¬ InBlock limit stride (elementIndex start) cnt → layers ∨ limit ≤ elementIndex start

/-- The same for joined bits from `number` on, of which number `first` is accessed first. -/
structure KnRanged (area : BitArea) (width number first cnt : Nat) : Prop where
  wrap : 65536 ≤ number → InBits area.rang width (elementIndex number) cnt → cnt = 0
  layers : ¬ InBits area.rang width (elementIndex number) cnt →
    area.Exists ∨ area.rang ≤ elementIndex (number + first)

/-- When a block of counters that is to start at `first` and that is looked for from `number` on is
checked rightly: it is accepted at both, or at none and then no counter of 16 bits is accessed. -/
def CounterRanged (register : Prop) (limit first number cnt : Nat) : Prop :=
  register ∧ (cnt = 0 ∨
    (200 ≤ first ∧ first + cnt ≤ cRang ∧ elementIndex number + cnt ≤ limit) ∨
    ((first < 200 ∨ cRang < first + cnt) ∧ limit < elementIndex number + cnt ∧
      200 ≤ elementIndex number))

/-- Both halves of the double words below a limit exist. -/
def HalvesExist (low high : WordArea) (limit : Nat) : Prop :=
  limit ≤ low.rang - 1 ∧ low.Exists ∧ high.Exists

section

variable (u : Ucode) (p : Nat) (s : Store)

def CharRanged (form : Option (BitArea × Bool)) (off cnt : Nat) : Prop :=
  match form with
  | some (area, z) => BlockRanged (RegisterFits u p z) area.Exists area.rang area.rang 1
      (operandStart u p s z + off) cnt
  | none => True

/-- For words; `first` is the bit of a value that is accessed first, as its width says. -/
def WordRanged (first : Nat → Nat) (form : Option WordForm) (off cnt : Nat) : Prop :=
  match form with
  | some (.kn area z) => 1 ≤ operandKn u p z → operandKn u p z ≤ 4 →
      KnRanged area (4 * operandKn u p z) (knNumber u p s z + off * (4 * operandKn u p z))
        (first (4 * operandKn u p z)) cnt
  | some (.cells area z limit) => BlockRanged (RegisterFits u p z) area.Exists limit area.rang 1
      (operandStart u p s z + off) cnt
  | _ => True

def DwordRanged (first : Nat → Nat) (least : Bool → Nat) (form : Option DwordForm)
    (off cnt : Nat) : Prop :=
  match form with
  | some (.kn area z) => least z ≤ operandKn u p z → operandKn u p z ≤ 8 →
      KnRanged area (4 * operandKn u p z) (knNumber u p s z + off * (4 * operandKn u p z))
        (first (4 * operandKn u p z)) cnt
  | some (.cells low high z limit) => BlockRanged (RegisterFits u p z) (HalvesExist low high limit)
      limit (low.rang - 1) 2 (operandStart u p s z + off * 2) cnt
  | some (.counter z scale limit) => CounterRanged (RegisterFits u p z) limit
      (operandStart u p s z + off) (operandStart u p s z + off * scale) cnt
  | _ => True

/-- The bit of a value that the get functions access first is the last one. -/
def lastBit (width : Nat) : Nat := width - 1

/-- The save functions start with the first bit. -/
def firstBit (_ : Nat) : Nat := 0

end

section

variable {limit limit' rang stride start cnt i : Nat} {reg ex : Prop} {regCells : List Cell}
variable {cells : Nat → List Cell}

theorem InBlock.mono (h : InBlock limit stride i cnt) (hle : limit ≤ limit') :
    InBlock limit' stride i cnt := fun j hj => Nat.lt_of_lt_of_le (h j hj) hle

/-- A loop that starts below its limit and fails has accessed a number close to it. -/
theorem exists_last_of_not_inBlock (hi : i < limit) (h : ¬ InBlock limit stride i cnt) :
    ∃ j < cnt, i + stride * j < limit ∧ limit ≤ i + stride * j + stride := by
  induction cnt generalizing i with
  | zero => exact absurd inBlock_zero h
  | succ cnt ih =>
    by_cases hnext : i + stride < limit
    · have hrest : ¬ InBlock limit stride (i + stride) cnt :=
        fun hr => h (inBlock_succ.mpr ⟨hi, hr⟩)
      obtain ⟨j, hj, hlt, hle⟩ := ih hnext hrest
      have heq : i + stride + stride * j = i + stride * (j + 1) := by
        rw [mul_succ]
        omega
      rw [heq] at hlt hle
      exact ⟨j + 1, succ_lt_succ hj, hlt, hle⟩
    · exact ⟨0, succ_pos cnt, hi, Nat.le_of_not_lt hnext⟩

/-- Whatever an operand accesses, it is right only with an index register that is one. -/
theorem PassesExactly.register {ok fits : Prop} {accessed : List Cell}
    (hreg : (∀ c ∈ regCells, c.IsElement) ↔ reg)
    (h : PassesExactly ok (reg ∧ fits) (regCells ++ accessed)) : reg := by
  by_cases hok : ok
  · exact (h.1.mp hok).1
  · exact hreg.mp fun c hc => h.2 hok c (mem_append_left _ hc)

theorem inBlock_iff_of_wrap (hrang : rang ≤ 65536)
    (hwrap : 65536 ≤ start → InBlock limit stride (elementIndex start) cnt → cnt = 0)
    (hbetween : start < 65536 → InBlock (max limit rang) stride start cnt →
      InBlock (min limit rang) stride start cnt) :
    InBlock limit stride (elementIndex start) cnt ↔ InBlock rang stride start cnt := by
  rcases Nat.eq_zero_or_pos cnt with rfl | hcnt
  · exact iff_of_true inBlock_zero inBlock_zero
  · rcases Nat.lt_or_ge start 65536 with hlt | hge
    · rw [elementIndex_of_lt hlt]
      constructor
      · intro h
        exact (hbetween hlt (h.mono (Nat.le_max_left _ _))).mono (Nat.min_le_right _ _)
      · intro h
        exact (hbetween hlt (h.mono (Nat.le_max_right _ _))).mono (Nat.min_le_left _ _)
    · refine iff_of_false (fun h => ?_) fun h => ?_
      · exact absurd (hwrap hge h) (by omega)
      · have hfirst := h 0 hcnt
        omega

theorem passesExactly_block_iff (hlimit : limit + stride ≤ 65536) (hrang : rang ≤ 65536)
    (hreg : (∀ c ∈ regCells, c.IsElement) ↔ reg)
    (hex : ex → ∀ k < limit, ∀ c ∈ cells k, c.IsElement)
    (hlast : ∀ k < limit, limit ≤ k + stride → (∀ c ∈ cells k, c.IsElement) → ex) :
    PassesExactly (InBlock limit stride (elementIndex start) cnt)
        (reg ∧ InBlock rang stride start cnt)
        (regCells ++ loopCells cells limit stride cnt (elementIndex start)) ↔
      BlockRanged reg ex limit rang stride start cnt := by
  constructor
  · intro h
    have hregister := h.register hreg
    refine ⟨hregister, fun hge hok => ?_, fun hlt hmax => ?_, fun hnot => ?_⟩
    · by_contra hcnt
      have hfirst := (h.1.mp hok).2 0 (by omega)
      omega
    · rw [PassesExactly, elementIndex_of_lt hlt] at h
      rcases Nat.le_total limit rang with hle | hle
      · rw [Nat.max_eq_right hle] at hmax
        rw [Nat.min_eq_left hle]
        exact h.1.mpr ⟨hregister, hmax⟩
      · rw [Nat.max_eq_left hle] at hmax
        rw [Nat.min_eq_right hle]
        exact (h.1.mp hmax).2
    · rcases Nat.lt_or_ge (elementIndex start) limit with hlt | hge
      · obtain ⟨j, hj, hlt', hle⟩ := exists_last_of_not_inBlock hlt hnot
        refine .inl (hlast _ hlt' hle fun c hc => h.2 hnot c (mem_append_right _ ?_))
        exact (mem_loopCells hlimit).mpr ⟨j, hj, hlt', hc⟩
      · exact .inr hge
  · intro h
    refine ⟨?_, fun hnot c hc => ?_⟩
    · rw [and_iff_right h.register]
      exact inBlock_iff_of_wrap hrang h.wrap h.between
    · rcases mem_append.mp hc with hc | hc
      · exact hreg.mpr h.register c hc
      · obtain ⟨j, -, hlt, hc⟩ := (mem_loopCells hlimit).mp hc
        rcases h.layers hnot with hex' | hge
        · exact hex hex' _ hlt c hc
        · omega

end

section

variable {u : Ucode} {p n off cnt : Nat} {s : Store}

theorem registerCells_isElement {z : Bool} :
    (∀ c ∈ registerCells u p z, c.IsElement) ↔ RegisterFits u p z := by
  cases z with
  | false => exact iff_of_true nofun nofun
  | true =>
    rw [registerCells, if_pos rfl, forall_mem_singleton]
    exact ⟨fun h _ => h, fun h => h rfl⟩

theorem knRegisterCells_isElement {z : Bool} {c : Cell} (h : c ∈ knRegisterCells u p z) :
    c.IsElement := by
  cases z with
  | false => cases h
  | true =>
    rw [mem_singleton.mp h]
    exact mod_lt _ (by decide)

/-- Operands that are refused for their type. -/
theorem passesExactly_refused {ret : Except PlcErr Unit} {e : PlcErr} (h : ret = .error e) :
    PassesExactly (ret = .ok ()) False [] := by
  subst h
  exact ⟨iff_of_false nofun id, nofun⟩

/-- A literal accesses nothing. -/
theorem passesExactly_literal {ok fits : Prop} (h : ok ↔ fits) : PassesExactly ok fits [] :=
  ⟨h, nofun⟩

/-! ## Bits -/

theorem passesExactly_bits_iff {area : BitArea} {z : Bool} :
    PassesExactly (InBlock area.rang 1 (blockStart u p s z off) cnt)
        (RegisterFits u p z ∧ InBlock area.rang 1 (operandStart u p s z + off) cnt)
        (registerCells u p z ++
          loopCells (fun k => [area.cell k]) area.rang 1 cnt (blockStart u p s z off)) ↔
      BlockRanged (RegisterFits u p z) area.Exists area.rang area.rang 1
        (operandStart u p s z + off) cnt := by
  have hrang := area.rang_le
  refine passesExactly_block_iff (by omega) (by omega) registerCells_isElement ?_ ?_
  · intro hex k hk c hc
    rw [mem_singleton.mp hc]
    exact (BitArea.isElement_cell hk).mpr hex
  · intro k hk _ h
    exact (BitArea.isElement_cell hk).mp (h _ mem_cons_self)

theorem getCharExact_iff :
    GetCharExact u p s n off cnt ↔
      CharRanged u p s ((AddrType.ofCode (u.getPU8 (p + 1))).bind (getCharTable n)) off cnt := by
  rcases hform : (AddrType.ofCode (u.getPU8 (p + 1))).bind (getCharTable n) with _ | ⟨area, z⟩
  · simp only [GetCharExact, getChar, hform, CharRanged]
    exact iff_of_true (passesExactly_refused rfl) trivial
  · have hrang := area.rang_le
    simp only [GetCharExact, getChar, hform]
    rw [getLoop_ok_iff (by omega)]
    exact passesExactly_bits_iff

theorem saveCharExact_iff {xs : List Bool} :
    SaveCharExact u p s n off xs ↔
      CharRanged u p s ((AddrType.ofCode (u.getPU8 (p + 1))).bind (saveCharTable n)) off
        xs.length := by
  rcases hform : (AddrType.ofCode (u.getPU8 (p + 1))).bind (saveCharTable n) with _ | ⟨area, z⟩
  · simp only [SaveCharExact, saveChar, hform, CharRanged]
    exact iff_of_true (passesExactly_refused rfl) trivial
  · have hrang := area.rang_le
    simp only [SaveCharExact, saveChar, hform]
    rw [saveLoop_ok_iff (by omega)]
    exact passesExactly_bits_iff

/-! ## Joined bits -/

/-- The number of a bit, whether an index register was added in 16 bits before or not. -/
theorem elementIndex_operandKn (z : Bool) (width m : Nat) :
    elementIndex (operandKnStart u p s z + off * width + m) =
      elementIndex (knNumber u p s z + off * width + m) := by
  have hbase : elementIndex (operandKnStart u p s z + off * width) =
      elementIndex (knNumber u p s z + off * width) := knBase_operand z width
  rw [← elementIndex_mod, hbase, elementIndex_mod]

/-- In which order a function accesses the bits of a value: all are in range, and if the first is
not, none is accessed. -/
structure AccessOrder (value : BitArea → Nat → Nat → List Cell) (first : Nat → Nat) : Prop where
  mem : ∀ area start width c, c ∈ value area start width →
    ∃ m, elementIndex m < area.rang ∧ c = area.cell (elementIndex m)
  head : ∀ area start width, 0 < width → elementIndex (start + first width) < area.rang →
    area.cell (elementIndex (start + first width)) ∈ value area start width
  none : ∀ area start width, 0 < width → area.rang ≤ elementIndex (start + first width) →
    value area start width = []

theorem accessOrder_get : AccessOrder getKnCells lastBit where
  mem := fun area start width c hc => by
    obtain ⟨m, -, hlt, heq⟩ := mem_getKnCells hc
    exact ⟨start + m, hlt, heq⟩
  head := fun area start width hwidth hlt => by
    obtain ⟨k, rfl⟩ := exists_eq_succ_of_ne_zero (Nat.ne_of_gt hwidth)
    rw [getKnCells, if_pos (by exact hlt)]
    exact mem_cons_self
  none := fun area start width hwidth hge => by
    obtain ⟨k, rfl⟩ := exists_eq_succ_of_ne_zero (Nat.ne_of_gt hwidth)
    rw [getKnCells, if_neg (by exact Nat.not_lt.mpr hge)]

theorem accessOrder_save : AccessOrder savedKnCells firstBit where
  mem := fun area start width c hc => by
    obtain ⟨m, -, hlt, heq⟩ := mem_saveKnCells hc
    exact ⟨start + 0 + m, hlt, heq⟩
  head := fun area start width hwidth hlt => by
    obtain ⟨k, rfl⟩ := exists_eq_succ_of_ne_zero (Nat.ne_of_gt hwidth)
    rw [savedKnCells, saveKnCells, if_pos (by exact hlt)]
    exact mem_cons_self
  none := fun area start width hwidth hge => by
    obtain ⟨k, rfl⟩ := exists_eq_succ_of_ne_zero (Nat.ne_of_gt hwidth)
    rw [savedKnCells, saveKnCells, if_neg (by exact Nat.not_lt.mpr hge)]

theorem knLoopCells_of_none {value : Nat → List Cell} {width start : Nat} (hwidth : 0 < width)
    (h : value (start + off * width) = []) : knLoopCells value width start cnt off = [] := by
  cases cnt with
  | zero => rfl
  | succ cnt =>
    rw [knLoopCells, h, nil_append, if_neg]
    exact Nat.ne_of_lt hwidth

theorem passesExactly_kn_iff {area : BitArea} {z : Bool} {least most : Nat} {first : Nat → Nat}
    {value : BitArea → Nat → Nat → List Cell} (hvalue : AccessOrder value first)
    (hleast : 1 ≤ least) :
    PassesExactly
        (¬ (operandKn u p z < least ∨ most < operandKn u p z) ∧
          InBits area.rang (4 * operandKn u p z)
            (knBase (operandKnStart u p s z) off (4 * operandKn u p z)) cnt)
        (least ≤ operandKn u p z ∧ operandKn u p z ≤ most ∧ KnFits u p s area z off cnt)
        (if operandKn u p z < least ∨ most < operandKn u p z then []
          else knCells u p s value area z off cnt) ↔
      (least ≤ operandKn u p z → operandKn u p z ≤ most →
        KnRanged area (4 * operandKn u p z) (knNumber u p s z + off * (4 * operandKn u p z))
          (first (4 * operandKn u p z)) cnt) := by
  by_cases hkn : operandKn u p z < least ∨ most < operandKn u p z
  · rw [if_pos hkn]
    refine iff_of_true (passesExactly_literal (iff_of_false (fun h => h.1 hkn) ?_)) ?_
    · intro h
      omega
    · intro hle hmost
      omega
  · have hle : least ≤ operandKn u p z := by omega
    have hmost : operandKn u p z ≤ most := by omega
    have hwidth : 0 < 4 * operandKn u p z := by omega
    have hrang := area.rang_le
    rw [if_neg hkn, knBase_operand, and_iff_right hkn, and_iff_right hle, and_iff_right hmost,
      KnFits]
    have hhead := hvalue.head area (operandKnStart u p s z + off * (4 * operandKn u p z)) _ hwidth
    have hnone := hvalue.none area (operandKnStart u p s z + off * (4 * operandKn u p z)) _ hwidth
    rw [elementIndex_operandKn] at hhead hnone
    generalize knNumber u p s z + off * (4 * operandKn u p z) = number at hhead hnone ⊢
    constructor
    · intro h _ _
      refine ⟨fun hge hok => ?_, fun hnot => ?_⟩
      · rcases h.1.mp hok with hzero | hin
        · exact hzero
        · omega
      · by_contra hmissing
        rw [not_or, Nat.not_le] at hmissing
        -- The first bit is accessed, and its cell is no element.
        obtain ⟨k, rfl⟩ := exists_eq_succ_of_ne_zero fun hzero => hnot (.inl hzero)
        have helement := h.2 hnot _ (mem_append_right _
          (mem_append_left _ (hhead hmissing.2)))
        exact hmissing.1 ((BitArea.isElement_cell hmissing.2).mp helement)
    · intro h
      obtain ⟨hwrap, hlayers⟩ := h hle hmost
      refine ⟨?_, fun hnot c hc => ?_⟩
      · rcases Nat.lt_or_ge number 65536 with hlt | hge
        · rw [elementIndex_of_lt hlt]
        · constructor
          · intro hok
            exact .inl (hwrap hge hok)
          · rintro (hzero | hin)
            · exact .inl hzero
            · omega
      · rcases mem_append.mp hc with hc | hc
        · exact knRegisterCells_isElement hc
        · rcases hlayers hnot with hexists | hge
          · obtain ⟨k, hk⟩ := mem_knLoopCells hc
            obtain ⟨m, hlt, rfl⟩ := hvalue.mem _ _ _ _ hk
            exact (BitArea.isElement_cell hlt).mpr hexists
          · rw [knLoopCells_of_none hwidth (hnone hge)] at hc
            cases hc

/-! ## Words -/

theorem passesExactly_words_iff {area : WordArea} {z : Bool} {limit : Nat}
    (hlimit : limit ≤ area.rang) :
    PassesExactly (InBlock limit 1 (blockStart u p s z off) cnt)
        (RegisterFits u p z ∧ InBlock area.rang 1 (operandStart u p s z + off) cnt)
        (registerCells u p z ++
          loopCells (fun k => [area.cell k]) limit 1 cnt (blockStart u p s z off)) ↔
      BlockRanged (RegisterFits u p z) area.Exists limit area.rang 1
        (operandStart u p s z + off) cnt := by
  have hrang := area.rang_le
  refine passesExactly_block_iff (by omega) (by omega) registerCells_isElement ?_ ?_
  · intro hex k hk c hc
    rw [mem_singleton.mp hc]
    exact (WordArea.isElement_cell (by omega)).mpr hex
  · intro k hk _ h
    exact (WordArea.isElement_cell (by omega)).mp (h _ mem_cons_self)

/-- Whether a function passes that first looks at the number of nibbles. -/
theorem ite_ok_iff {α : Type} {cond fits : Prop} [Decidable cond] {e : PlcErr} {x : α}
    {r : Except PlcErr Unit × α} (h : ¬ cond → (r.1 = .ok () ↔ fits)) :
    (if cond then (.error e, x) else r).1 = .ok () ↔ ¬ cond ∧ fits := by
  split
  · rename_i hcond
    exact iff_of_false nofun fun hnot => hnot.1 hcond
  · rename_i hcond
    exact (h hcond).trans (and_iff_right hcond).symm

theorem getWordExact_iff :
    GetWordExact u p s n off cnt ↔ WordRanged u p s lastBit
      ((AddrType.ofCode (u.getPU8 (p + 1))).bind (getWordTable n)) off cnt := by
  rcases hform : (AddrType.ofCode (u.getPU8 (p + 1))).bind (getWordTable n) with
    _ | _ | ⟨area, z⟩ | ⟨area, z, limit⟩
  · simp only [GetWordExact, getWord, hform, WordRanged]
    exact iff_of_true (passesExactly_refused rfl) trivial
  · simp only [GetWordExact, getWord, hform, WordRanged]
    refine iff_of_true (passesExactly_literal ?_) trivial
    rw [ite_ok_iff fun _ => iff_of_true rfl trivial, and_true, Nat.not_le]
    rfl
  · have hrang := area.rang_le
    simp only [GetWordExact, getWord, hform]
    rw [ite_ok_iff fun hkn => getKnLoop_ok_iff (by omega) (by omega)]
    exact passesExactly_kn_iff accessOrder_get (Nat.le_refl 1)
  · obtain ⟨a, -, htable⟩ := bind_eq_some_iff.mp hform
    have hlimit : limit ≤ area.rang := by
      cases a <;> cases htable <;> exact Nat.le_refl _
    have hrang := area.rang_le
    simp only [GetWordExact, getWord, hform]
    rw [getLoop_ok_iff (by omega)]
    exact passesExactly_words_iff hlimit

theorem saveWordExact_iff {xs : List (BitVec 16)} :
    SaveWordExact u p s n off xs ↔ WordRanged u p s firstBit
      ((AddrType.ofCode (u.getPU8 (p + 1))).bind (saveWordTable n)) off xs.length := by
  rcases hform : (AddrType.ofCode (u.getPU8 (p + 1))).bind (saveWordTable n) with
    _ | _ | ⟨area, z⟩ | ⟨area, z, limit⟩
  · simp only [SaveWordExact, saveWord, hform, WordRanged]
    exact iff_of_true (passesExactly_refused rfl) trivial
  · obtain ⟨a, -, htable⟩ := bind_eq_some_iff.mp hform
    cases a <;> cases htable
  · simp only [SaveWordExact, saveWord, hform, WordRanged, WordFits, wordCells]
    rw [ite_ok_iff fun hkn => saveKnLoop_ok_iff (by omega)]
    exact passesExactly_kn_iff accessOrder_save (Nat.le_refl 1)
  · obtain ⟨a, -, htable⟩ := bind_eq_some_iff.mp hform
    have hlimit : limit ≤ area.rang := by
      cases a <;> cases htable <;> first | exact Nat.le_refl _ | decide
    have hrang := area.rang_le
    simp only [SaveWordExact, saveWord, hform]
    rw [saveLoop_ok_iff (by omega)]
    exact passesExactly_words_iff hlimit

/-! ## Double words -/

/-- Two areas whose double words are checked against a limit: their own, or one so large that its
last numbers are no elements at any level. -/
structure HalvesChecked (low high : WordArea) (limit : Nat) : Prop where
  rang : high.rang = low.rang
  le : limit ≤ 32767
  last : limit ≤ low.rang - 1 ∨ ∀ k, limit ≤ k + 2 → ¬ (low.cell k).IsElement

theorem halvesChecked_get {a : AddrType} {low high : WordArea} {z : Bool} {limit : Nat}
    (h : getDwordTable n a = some (.cells low high z limit)) : HalvesChecked low high limit := by
  by_cases hv : a = .v
  · subst hv
    cases h
    refine ⟨rfl, by decide, .inr fun k hk helement => ?_⟩
    have hlt : vRang * n + k < vRang * maxSbrNestedLayer := helement
    have hk' : 1023 ≤ k + 2 := hk
    have hmax : vRang * maxSbrNestedLayer = 512 := rfl
    omega
  · cases a <;> cases h <;>
      first | exact absurd rfl hv | exact ⟨rfl, by decide, .inl (Nat.le_refl _)⟩

theorem passesExactly_dwords_iff {low high : WordArea} {z : Bool} {limit : Nat}
    (h : HalvesChecked low high limit) :
    PassesExactly (InBlock limit 2 (blockStart u p s z (off * 2)) cnt)
        (RegisterFits u p z ∧ InBlock (low.rang - 1) 2 (operandStart u p s z + off * 2) cnt)
        (registerCells u p z ++ loopCells (fun k => [low.cell k, high.cell (k + 1)]) limit 2 cnt
          (blockStart u p s z (off * 2))) ↔
      BlockRanged (RegisterFits u p z) (HalvesExist low high limit) limit (low.rang - 1) 2
        (operandStart u p s z + off * 2) cnt := by
  have hrang := low.rang_le
  have hhigh := h.rang
  have hle := h.le
  refine passesExactly_block_iff (by omega) (by omega) registerCells_isElement ?_ ?_
  · rintro ⟨hlimit, hlow, hex⟩ k hk c hc
    rcases mem_pair.mp hc with rfl | rfl
    · exact (WordArea.isElement_cell (by omega)).mpr hlow
    · exact (WordArea.isElement_cell (by omega)).mpr hex
  · intro k hk hlast helement
    rcases h.last with hlimit | hnone
    · refine ⟨hlimit, ?_, ?_⟩
      · exact (WordArea.isElement_cell (by omega)).mp (helement _ mem_cons_self)
      · exact (WordArea.isElement_cell (by omega)).mp
          (helement _ (mem_cons_of_mem _ mem_cons_self))
    · exact absurd (helement _ mem_cons_self) (hnone k hlast)

theorem inBlock_one_iff {limit i : Nat} : InBlock limit 1 i cnt ↔ cnt = 0 ∨ i + cnt ≤ limit := by
  constructor
  · intro h
    rcases Nat.eq_zero_or_pos cnt with hzero | hpos
    · exact .inl hzero
    · have hlast := h (cnt - 1) (by omega)
      omega
  · intro h j hj
    omega

theorem passesExactly_counters_iff {reg : Prop} {regCells : List Cell} {limit first number : Nat}
    (hreg : (∀ c ∈ regCells, c.IsElement) ↔ reg) (hleast : 200 ≤ limit) (hmost : limit ≤ cRang) :
    PassesExactly (InBlock limit 1 (elementIndex number) cnt)
        (reg ∧ ∀ j < cnt, 200 ≤ first + j ∧ first + j < cRang)
        (regCells ++ loopCells (fun k => [.c32 k]) limit 1 cnt (elementIndex number)) ↔
      CounterRanged reg limit first number cnt := by
  have hrang : cRang = 512 := rfl
  have hlimit : limit + 1 ≤ 65536 := by omega
  have hfits : (∀ j < cnt, 200 ≤ first + j ∧ first + j < cRang) ↔
      cnt = 0 ∨ 200 ≤ first ∧ first + cnt ≤ cRang := by
    constructor
    · intro h
      rcases Nat.eq_zero_or_pos cnt with hzero | hpos
      · exact .inl hzero
      · have hfirst := h 0 hpos
        have hlast := h (cnt - 1) (by omega)
        omega
    · intro h j hj
      omega
  rw [hfits]
  constructor
  · intro h
    have hregister := h.register hreg
    refine ⟨hregister, ?_⟩
    obtain ⟨hiff, haccessed⟩ := h
    rw [and_iff_right hregister, inBlock_one_iff] at hiff
    rw [inBlock_one_iff] at haccessed
    by_cases hok : cnt = 0 ∨ elementIndex number + cnt ≤ limit
    · have hfit := hiff.mp hok
      omega
    · have hnofit := mt hiff.mpr hok
      have hfirst : elementIndex number < limit → 200 ≤ elementIndex number := by
        intro hlt
        have helement : (Cell.c32 (elementIndex number)).IsElement :=
          haccessed hok _ (mem_append_right _
            ((mem_loopCells hlimit).mpr ⟨0, by omega, hlt, mem_cons_self⟩))
        exact helement.1
      omega
  · rintro ⟨hregister, h⟩
    refine ⟨?_, fun hnot c hc => ?_⟩
    · rw [and_iff_right hregister, inBlock_one_iff]
      omega
    · rw [inBlock_one_iff] at hnot
      rcases mem_append.mp hc with hc | hc
      · exact hreg.mpr hregister c hc
      · obtain ⟨j, hj, hlt, hc⟩ := (mem_loopCells hlimit).mp hc
        rw [mem_singleton.mp hc]
        exact ⟨by omega, by omega⟩

theorem getDwordExact_iff :
    GetDwordExact u p s n off cnt ↔ DwordRanged u p s lastBit getDwordKnMin
      ((AddrType.ofCode (u.getPU8 (p + 1))).bind (getDwordTable n)) off cnt := by
  rcases hform : (AddrType.ofCode (u.getPU8 (p + 1))).bind (getDwordTable n) with
    _ | _ | ⟨area, z⟩ | ⟨low, high, z, limit⟩ | ⟨z, scale, limit⟩
  · simp only [GetDwordExact, getDword, hform, DwordRanged]
    exact iff_of_true (passesExactly_refused rfl) trivial
  · simp only [GetDwordExact, getDword, hform, DwordRanged]
    refine iff_of_true (passesExactly_literal ?_) trivial
    rw [ite_ok_iff fun _ => iff_of_true rfl trivial, and_true, not_or, Nat.not_lt, Nat.not_lt]
    rfl
  · have hrang := area.rang_le
    have hleast : 1 ≤ getDwordKnMin z := by
      cases z <;> decide
    simp only [GetDwordExact, getDword, hform]
    rw [ite_ok_iff fun hkn => getKnLoop_ok_iff (by omega) (by omega)]
    exact passesExactly_kn_iff accessOrder_get hleast
  · obtain ⟨a, -, htable⟩ := bind_eq_some_iff.mp hform
    have hchecked := halvesChecked_get htable
    have hle := hchecked.le
    simp only [GetDwordExact, getDword, hform]
    rw [getLoop_ok_iff (by omega)]
    exact passesExactly_dwords_iff hchecked
  · obtain ⟨a, -, htable⟩ := bind_eq_some_iff.mp hform
    have hlimit : 200 ≤ limit ∧ limit ≤ cRang := by
      cases a <;> cases htable <;> decide
    have hrang : cRang = 512 := rfl
    simp only [GetDwordExact, getDword, hform]
    rw [getLoop_ok_iff (by omega)]
    exact passesExactly_counters_iff registerCells_isElement hlimit.1 hlimit.2

theorem saveDwordExact_iff {xs : List (BitVec 32)} :
    SaveDwordExact u p s n off xs ↔ DwordRanged u p s firstBit saveDwordKnMin
      ((AddrType.ofCode (u.getPU8 (p + 1))).bind (saveDwordTable n)) off xs.length := by
  rcases hform : (AddrType.ofCode (u.getPU8 (p + 1))).bind (saveDwordTable n) with _ | form
  · simp only [SaveDwordExact, saveDword, hform, DwordRanged]
    exact iff_of_true (passesExactly_refused rfl) trivial
  · obtain ⟨a, -, htable⟩ := bind_eq_some_iff.mp hform
    rcases namedDword_of_save htable with ⟨area, z, rfl, -⟩ | ⟨area, z, rfl, -⟩ | ⟨z, scale, rfl, -⟩
    · simp only [SaveDwordExact, saveDword, hform, DwordRanged, DwordFits, dwordCells]
      rw [ite_ok_iff fun hkn => saveKnLoop_ok_iff (by omega)]
      exact passesExactly_kn_iff accessOrder_save (by decide)
    · have hrang := area.rang_le
      have hchecked : HalvesChecked area area (area.rang - 1) :=
        ⟨rfl, by omega, .inl (Nat.le_refl _)⟩
      simp only [SaveDwordExact, saveDword, hform, DwordForm.of]
      rw [saveLoop_ok_iff (by omega)]
      exact passesExactly_dwords_iff hchecked
    · simp only [SaveDwordExact, saveDword, hform, DwordRanged, DwordFits, dwordCells]
      rw [saveLoop_ok_iff (by decide)]
      exact passesExactly_counters_iff registerCells_isElement (by decide) (Nat.le_refl _)

end

/-- The get and save functions accept what lies in its class, and access only elements of what they
refuse, just if the index register is one, no number wraps around to an accepted block, no block
ends between the limit that is checked and the size of the class, no counter is meant or found below
200 or beside its place, and the layer of a local block that is refused exists. -/
theorem ranges_exact_iff (u : Ucode) (p n off : Nat) (s : Store) :
    (∀ cnt, GetCharExact u p s n off cnt ↔
      CharRanged u p s ((AddrType.ofCode (u.getPU8 (p + 1))).bind (getCharTable n)) off cnt) ∧
    (∀ xs, SaveCharExact u p s n off xs ↔
      CharRanged u p s ((AddrType.ofCode (u.getPU8 (p + 1))).bind (saveCharTable n)) off
        xs.length) ∧
    (∀ cnt, GetWordExact u p s n off cnt ↔ WordRanged u p s lastBit
      ((AddrType.ofCode (u.getPU8 (p + 1))).bind (getWordTable n)) off cnt) ∧
    (∀ xs, SaveWordExact u p s n off xs ↔ WordRanged u p s firstBit
      ((AddrType.ofCode (u.getPU8 (p + 1))).bind (saveWordTable n)) off xs.length) ∧
    (∀ cnt, GetDwordExact u p s n off cnt ↔ DwordRanged u p s lastBit getDwordKnMin
      ((AddrType.ofCode (u.getPU8 (p + 1))).bind (getDwordTable n)) off cnt) ∧
    ∀ xs, SaveDwordExact u p s n off xs ↔ DwordRanged u p s firstBit saveDwordKnMin
      ((AddrType.ofCode (u.getPU8 (p + 1))).bind (saveDwordTable n)) off xs.length :=
  ⟨fun _ => getCharExact_iff, fun _ => saveCharExact_iff, fun _ => getWordExact_iff,
    fun _ => saveWordExact_iff, fun _ => getDwordExact_iff, fun _ => saveDwordExact_iff⟩

/-- `D65535` with the offset 1 is taken for `D0`. -/
theorem d65535_wraps : ¬ GetWordExact [0x00, 0x11, 0xFF, 0xFF] 0 .off 0 1 1 ∧
    getWord [0x00, 0x11, 0xFF, 0xFF] 0 (Store.off.setWord (.elem .D) 0 7) 0 1 1 =
      (.ok (), [7]) := by
  refine ⟨fun h => ?_, by decide⟩
  have hfits : RegisterFits [0x00, 0x11, 0xFF, 0xFF] 0 false ∧ InBlock 8000 1 65536 1 := h.1.mp rfl
  exact absurd hfits.2 (by decide)

end Kalyke
