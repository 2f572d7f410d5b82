-- SUMMARY: What the operands of a call level name, and what the access functions do with them.
import Kalyke.Exec.CallPara
import Mathlib.Tactic.Ring

/-!
# Places

An operand names a place: a literal, an element, two word elements in a row, a counter of 32 bits,
or bit elements that are joined to one value. A place can be read and, but for the literal, written.
The get and save functions read and write places too, which are not always those that the operand
names: some of their cases go to the local elements one layer up.
-/

namespace Kalyke

open Nat BitVec Function Option

/-- What an operand names. -/
inductive Place where
  | const (x : BitVec 32)
  | bit (area : BitArea) (i : Nat)
  | word (area : WordArea) (i : Nat)
  | dword (low high : WordArea) (i : Nat)
  | counter (i : Nat)
  | bits (area : BitArea) (i width : Nat)
deriving DecidableEq, Repr

/-- The number with the given bits. -/
def joinBits (f : Nat → Bool) : Nat → Nat
  | 0 => 0
  | n + 1 => joinBits f n + (f n).toNat * 2 ^ n

def splitBits (area : BitArea) (i : Nat) (x : BitVec 32) : Nat → Nat → Store → Store
  | 0, _, s => s
  | n + 1, k, s => splitBits area i x n (k + 1) (s.setBit area (i + k) (x.getLsbD k))

namespace Place

/-- The value of a place, with zeros above its own bits. -/
def read (s : Store) : Place → BitVec 32
  | const x => x
  | bit area i => BitVec.ofNat 32 (s.getBit area i).toNat
  | word area i => (s.getWord area i).setWidth 32
  | dword low high i => s.getWord high (i + 1) ++ s.getWord low i
  | counter i => s.c32 i
  | bits area i width => BitVec.ofNat 32 (joinBits (fun k => s.getBit area (i + k)) width)

/-- Store as much of a value as a place can hold. -/
def write (x : BitVec 32) (s : Store) : Place → Store
  | const _ => s
  | bit area i => s.setBit area i (x.getLsbD 0)
  | word area i => s.setWord area i (x.setWidth 16)
  | dword low high i => setDword low high i x s
  | counter i => s.setC32 i x
  | bits area i width => splitBits area i x width 0 s

end Place

/-! ## The places of operands -/

section

variable (u : Ucode) (p : Nat) (s : Store)

def bitPlace (table : AddrType → Option (BitArea × Bool)) : Option Place :=
  match (AddrType.ofCode (u.getPU8 (p + 1))).bind table with
  | some (area, z) =>
    if elementIndex (operandStart u p s z) < area.rang then
      some (.bit area (elementIndex (operandStart u p s z)))
    else none
  | none => none

/-- The place of joined bits, with the numbers of nibbles allowed. -/
def knPlace (area : BitArea) (indexed : Bool) (least most : Nat) : Option Place :=
  if least ≤ operandKn u p indexed ∧ operandKn u p indexed ≤ most ∧
      operandKnStart u p s indexed + 4 * operandKn u p indexed ≤ area.rang then
    some (.bits area (operandKnStart u p s indexed) (4 * operandKn u p indexed))
  else none

def wordPlace (table : AddrType → Option WordForm) : Option Place :=
  match (AddrType.ofCode (u.getPU8 (p + 1))).bind table with
  | some .const =>
    if u.getPU8 p < 2 then some (.const (BitVec.ofNat 32 (u.getPU16 (p + 2)))) else none
  | some (.kn area z) => knPlace u p s area z 1 4
  | some (.cells area z limit) =>
    if elementIndex (operandStart u p s z) < limit then
      some (.word area (elementIndex (operandStart u p s z)))
    else none
  | none => none

/-- The place of the operand of 32 bits at `p` under a table of operand types, with the literals and
the least numbers of nibbles allowed. -/
def dwordPlace (literal : Nat → Bool) (least : Bool → Nat) (table : AddrType → Option DwordForm) :
    Option Place :=
  match (AddrType.ofCode (u.getPU8 (p + 1))).bind table with
  | some .const =>
    if literal (u.getPU8 p) then some (.const (BitVec.ofNat 32 (u.getPU32 (p + 2)))) else none
  | some (.kn area z) => knPlace u p s area z (least z) 8
  | some (.cells low high z limit) =>
    if elementIndex (operandStart u p s z) < limit then
      some (.dword low high (elementIndex (operandStart u p s z)))
    else none
  | some (.counter z _ limit) =>
    if elementIndex (operandStart u p s z) < limit then
      some (.counter (elementIndex (operandStart u p s z)))
    else none
  | none => none

end

/-- The first byte of an integer literal of 32 bits. -/
def dwordLiteral (n : Nat) : Bool := 2 ≤ n && n ≤ 3

/-- The first byte of a real literal. -/
def realLiteral (n : Nat) : Bool := n == 4

/-- The place that the get function for a parameter at `ptr` reads. -/
def loadPlace (u : Ucode) (n : Nat) (s : Store) (ptr : Nat) : ParaType → Option Place
  | .bool => bitPlace u (ptr + 2) s (getCharTable n)
  | .word | .int => wordPlace u (ptr + 2) s (getWordTable n)
  | .dword | .dint => dwordPlace u (ptr + 2) s dwordLiteral getDwordKnMin (getDwordTable n)
  | .real => dwordPlace u (ptr + 2) s realLiteral (fun _ => 5) (floatTable n)

/-- The place that the save function for a parameter at `ptr` writes. -/
def storePlace (u : Ucode) (n : Nat) (s : Store) (ptr : Nat) : ParaType → Option Place
  | .bool => bitPlace u (ptr + 2) s (saveCharTable n)
  | .word | .int => wordPlace u (ptr + 2) s (saveWordTable n)
  | .dword | .dint => dwordPlace u (ptr + 2) s (fun _ => false) (fun _ => 5) (saveDwordTable n)
  | .real => dwordPlace u (ptr + 2) s (fun _ => false) (fun _ => 5) (floatTable n)

/-- What bit operands name at call level `n`: local elements lie in the layer of that number, and
the bits of counters and timers go by both of their types. -/
def namedBit (n : Nat) : AddrType → Option (BitArea × Bool)
  | .lm => some (.lm n, false)
  | .lmz => some (.lm n, true)
  | .c => some (.elem .C, false)
  | .t => some (.elem .T, false)
  | .cz => some (.elem .C, true)
  | .tz => some (.elem .T, true)
  | a => getCharTable n a

/-- What operands of 32 bits name at call level `n`: both halves of a local operand lie in the layer
of that number, and a counter may be the last one. -/
def namedDword (n : Nat) : AddrType → Option DwordForm
  | .v => some (.of (.v n) false)
  | .vz => some (.of (.v n) true)
  | .c => some (.counter false 1 cRang)
  | .cz => some (.counter true 1 cRang)
  | a => getDwordTable n a

/-- The counters below 200 have 16 bits. -/
def Place.counterExists : Place → Bool
  | counter i => 200 ≤ i
  | _ => true

/-- The place that the operand of a parameter at `ptr` names at call level `n`, none if there is no
such element. -/
def namedPlace (u : Ucode) (n : Nat) (s : Store) (ptr : Nat) : ParaType → Option Place
  | .bool => bitPlace u (ptr + 2) s (namedBit n)
  | .word | .int => wordPlace u (ptr + 2) s (getWordTable n)
  | .dword | .dint =>
    (dwordPlace u (ptr + 2) s dwordLiteral getDwordKnMin (namedDword n)).filter Place.counterExists
  | .real => dwordPlace u (ptr + 2) s realLiteral (fun _ => 5) (floatTable n)

/-! ## Operands in their own place -/

def operandType (u : Ucode) (ptr : Nat) : Option AddrType :=
  AddrType.ofCode (u.getPU8 (ptr + 2 + 1))

/-- The get function for a parameter reads the place that an operand names. It does not for local
bits and for the local operands of 32 bits, it knows bits of counters and timers by one of their
types only, and it takes the last counter for one too many. -/
def LoadsOwn (a : AddrType) (pl : Place) : ParaType → Prop
  | .bool => a ∉ [.lm, .lmz, .c, .t, .cz, .tz]
  | .word | .int | .real => True
  | .dword | .dint => a ∉ [.v, .vz] ∧ pl ≠ .counter (cRang - 1)

/-- The save function for a parameter writes the place that an operand names. It does not for local
bits and plain local words, it knows bits of counters and timers by the other one of their types
only, it takes an indexed `R` element for missing from the number of `D` elements on, and joined
bits of a double word have at least five nibbles. Inputs and literals are not written, nor are
joined special bits. -/
def StoresOwn (a : AddrType) (pl : Place) : ParaType → Prop
  | .bool => a ∉ [.lm, .lmz, .x, .xz, .bC, .bT, .bCz, .bTz]
  | .word | .int =>
    a ∉ [.const, .v, .knX, .knXz, .knSm] ∧
      (a = .rz → ∀ i, pl = .word (.elem .R) i → i < WordElement.rang .D)
  | .dword | .dint =>
    a ∉ [.const, .knX, .knXz, .knSm] ∧ ∀ area i width, pl = .bits area i width → 20 ≤ width
  | .real => a ≠ .const

section

variable {u : Ucode} {n p ptr : Nat} {s : Store} {a : AddrType} {pl : Place} {type : ParaType}

theorem bitPlace_congr {table table' : AddrType → Option (BitArea × Bool)}
    (ha : AddrType.ofCode (u.getPU8 (p + 1)) = some a) (h : table a = table' a) :
    bitPlace u p s table = bitPlace u p s table' := by
  simp only [bitPlace, ha, bind_some, h]

theorem loadPlace_of_named (hpl : namedPlace u n s ptr type = some pl)
    (ha : operandType u ptr = some a) (hown : LoadsOwn a pl type) :
    loadPlace u n s ptr type = some pl := by
  cases type with
  | bool =>
    rw [← hpl]
    apply bitPlace_congr ha
    cases a <;> first | rfl | simp [LoadsOwn] at hown
  | word | int | real => exact hpl
  | dword | dint =>
    simp only [namedPlace, filter_eq_some_iff] at hpl
    replace hpl := hpl.1
    rw [operandType] at ha
    simp only [loadPlace, dwordPlace, ha, bind_some] at hpl ⊢
    cases a <;> first | exact hpl | (simp [LoadsOwn] at hown; done) | skip
    -- What is left are the two forms of a counter, with a limit that is one too small.
    all_goals
      simp only [getDwordTable, namedDword] at hpl ⊢
      split at hpl
      · rename_i hlt
        obtain rfl := some.inj hpl
        have hlast := mt (congrArg Place.counter) hown.2
        rw [if_pos (by omega)]
      · cases hpl

theorem storePlace_of_named (hpl : namedPlace u n s ptr type = some pl)
    (ha : operandType u ptr = some a) (hown : StoresOwn a pl type) :
    storePlace u n s ptr type = some pl := by
  cases type with
  | bool =>
    rw [← hpl]
    apply bitPlace_congr ha
    cases a <;> first | rfl | simp [StoresOwn] at hown
  | word | int =>
    rw [operandType] at ha
    simp only [namedPlace, storePlace, wordPlace, ha, bind_some] at hpl ⊢
    cases a <;> first | exact hpl | (simp [StoresOwn] at hown; done) | skip
    all_goals
      simp only [getWordTable, saveWordTable, WordForm.of] at hpl ⊢
      split at hpl
      · rename_i hlt
        obtain rfl := some.inj hpl
        rw [if_pos (hown.2 rfl _ rfl)]
      · cases hpl
  | dword | dint =>
    simp only [namedPlace, filter_eq_some_iff] at hpl
    replace hpl := hpl.1
    rw [operandType] at ha
    simp only [storePlace, dwordPlace, ha, bind_some] at hpl ⊢
    cases a <;> first | exact hpl | (simp [StoresOwn] at hown; done) | skip
    all_goals
      simp only [getDwordTable, namedDword, saveDwordTable, knPlace] at hpl ⊢
      split at hpl
      · rename_i hkn
        obtain rfl := some.inj hpl
        have hwidth := hown.2 _ _ _ rfl
        rw [if_pos ⟨by omega, hkn.2⟩]
      · cases hpl
  | real =>
    rw [operandType] at ha
    simp only [namedPlace, storePlace, dwordPlace, ha] at hpl ⊢
    cases a <;> first | exact hpl | simp [StoresOwn] at hown

/-! ## What a place stands for -/

theorem bitPlace_cases {table : AddrType → Option (BitArea × Bool)}
    (h : bitPlace u p s table = some pl) :
    ∃ area z, (AddrType.ofCode (u.getPU8 (p + 1))).bind table = some (area, z) ∧
      elementIndex (operandStart u p s z) < area.rang ∧
      pl = .bit area (elementIndex (operandStart u p s z)) := by
  unfold bitPlace at h
  split at h
  · split at h
    · exact ⟨_, _, ‹_›, ‹_›, (some.inj h).symm⟩
    · cases h
  · cases h

theorem knPlace_cases {area : BitArea} {z : Bool} {least most : Nat}
    (h : knPlace u p s area z least most = some pl) :
    least ≤ operandKn u p z ∧ operandKn u p z ≤ most ∧
      operandKnStart u p s z + 4 * operandKn u p z ≤ area.rang ∧
      pl = .bits area (operandKnStart u p s z) (4 * operandKn u p z) := by
  unfold knPlace at h
  split at h
  · rename_i hkn
    exact ⟨hkn.1, hkn.2.1, hkn.2.2, (some.inj h).symm⟩
  · cases h

/-- What the operand at `p` is, if it names the place `pl` as a word. -/
inductive WordPlace (u : Ucode) (p : Nat) (s : Store) (form : Option WordForm) : Place → Prop where
  | const (hform : form = some .const) (hlit : u.getPU8 p < 2) :
      WordPlace u p s form (.const (BitVec.ofNat 32 (u.getPU16 (p + 2))))
  | kn (area : BitArea) (z : Bool) (hform : form = some (.kn area z))
      (hleast : 1 ≤ operandKn u p z) (hmost : operandKn u p z ≤ 4)
      (hrang : operandKnStart u p s z + 4 * operandKn u p z ≤ area.rang) :
      WordPlace u p s form (.bits area (operandKnStart u p s z) (4 * operandKn u p z))
  | cells {area : WordArea} {z : Bool} {limit : Nat} (hform : form = some (.cells area z limit))
      (hlimit : elementIndex (operandStart u p s z) < limit) :
      WordPlace u p s form (.word area (elementIndex (operandStart u p s z)))

theorem wordPlace_cases {table : AddrType → Option WordForm} (h : wordPlace u p s table = some pl) :
    WordPlace u p s ((AddrType.ofCode (u.getPU8 (p + 1))).bind table) pl := by
  unfold wordPlace at h
  split at h
  · rename_i hform
    split at h
    · obtain rfl := some.inj h
      exact .const hform ‹_›
    · cases h
  · rename_i hform
    obtain ⟨hleast, hmost, hrang, rfl⟩ := knPlace_cases h
    exact .kn _ _ hform hleast hmost hrang
  · rename_i hform
    split at h
    · obtain rfl := some.inj h
      exact .cells hform ‹_›
    · cases h
  · cases h

/-- What the operand at `p` is, if it names the place `pl` as a value of 32 bits. -/
inductive DwordPlace (u : Ucode) (p : Nat) (s : Store) (literal : Nat → Bool) (least : Bool → Nat)
    (form : Option DwordForm) : Place → Prop where
  | const (hform : form = some .const) (hlit : literal (u.getPU8 p) = true) :
      DwordPlace u p s literal least form (.const (BitVec.ofNat 32 (u.getPU32 (p + 2))))
  | kn (area : BitArea) (z : Bool) (hform : form = some (.kn area z))
      (hleast : least z ≤ operandKn u p z) (hmost : operandKn u p z ≤ 8)
      (hrang : operandKnStart u p s z + 4 * operandKn u p z ≤ area.rang) :
      DwordPlace u p s literal least form
        (.bits area (operandKnStart u p s z) (4 * operandKn u p z))
  | cells {low high : WordArea} {z : Bool} {limit : Nat}
      (hform : form = some (.cells low high z limit))
      (hlimit : elementIndex (operandStart u p s z) < limit) :
      DwordPlace u p s literal least form (.dword low high (elementIndex (operandStart u p s z)))
  | counter {z : Bool} {scale limit : Nat} (hform : form = some (.counter z scale limit))
      (hlimit : elementIndex (operandStart u p s z) < limit) :
      DwordPlace u p s literal least form (.counter (elementIndex (operandStart u p s z)))

theorem dwordPlace_cases {literal : Nat → Bool} {least : Bool → Nat}
    {table : AddrType → Option DwordForm} (h : dwordPlace u p s literal least table = some pl) :
    DwordPlace u p s literal least ((AddrType.ofCode (u.getPU8 (p + 1))).bind table) pl := by
  unfold dwordPlace at h
  split at h
  · rename_i hform
    split at h
    · obtain rfl := some.inj h
      exact .const hform ‹_›
    · cases h
  · rename_i hform
    obtain ⟨hleast, hmost, hrang, rfl⟩ := knPlace_cases h
    exact .kn _ _ hform hleast hmost hrang
  · rename_i hform
    split at h
    · obtain rfl := some.inj h
      exact .cells hform ‹_›
    · cases h
  · rename_i hform
    split at h
    · obtain rfl := some.inj h
      exact .counter hform ‹_›
    · cases h
  · cases h

/-! ## Joined bits -/

theorem BitArea.rang_le (area : BitArea) : area.rang ≤ 16384 := by
  cases area with
  | elem e => cases e <;> decide
  | lm layer => exact (by decide : lmRang ≤ 16384)

theorem joinBits_lt (f : Nat → Bool) (k : Nat) : joinBits f k < 2 ^ k := by
  induction k with
  | zero => exact Nat.one_pos
  | succ k ih =>
    have hbit : (f k).toNat * 2 ^ k ≤ 2 ^ k := by
      cases f k <;> simp
    rw [joinBits]
    omega

theorem shift_add_bit {w : Nat} (x : Nat) (b : Bool) :
    (BitVec.ofNat w x <<< 1) + BitVec.ofNat w b.toNat = BitVec.ofNat w (2 * x + b.toNat) := by
  rw [ofNat_add]
  congr 1
  apply eq_of_toNat_eq
  simp [Nat.shiftLeft_eq, Nat.mul_comm]

theorem getKn_eq {w : Nat} {area : BitArea} {start k : Nat} (h : start + k ≤ area.rang) (x : Nat) :
    getKn (s.getBit area) area.rang start k (BitVec.ofNat w x) =
      (.ok (), BitVec.ofNat w (x * 2 ^ k + joinBits (fun i => s.getBit area (start + i)) k)) := by
  have hrang := area.rang_le
  induction k generalizing x with
  | zero => simp [getKn, joinBits]
  | succ k ih =>
    have hidx : elementIndex (start + k) = start + k := mod_eq_of_lt (by omega)
    have hvalue (b j : Nat) : (2 * x + b) * 2 ^ k + j = x * 2 ^ (k + 1) + (j + b * 2 ^ k) := by
      ring
    rw [getKn, hidx, if_pos (by omega), shift_add_bit, ih (by omega), joinBits, hvalue]

theorem saveKn_eq {w : Nat} {area : BitArea} {start k i : Nat} (h : start + i + k ≤ area.rang)
    (x : BitVec w) (y : BitVec 32)
    (hxy : ∀ j, i ≤ j → j < i + k → x.getLsbD (j - i) = y.getLsbD j) :
    saveKn area start k i x s = (.ok (), x >>> k, splitBits area start y k i s) := by
  have hrang := area.rang_le
  induction k generalizing x i s with
  | zero => simp [saveKn, splitBits]
  | succ k ih =>
    have hidx : elementIndex (start + i) = start + i := mod_eq_of_lt (by omega)
    have hbit : x.getLsbD 0 = y.getLsbD i := by
      simpa using hxy i (Nat.le_refl i) (by omega)
    have hrest : ∀ j, i + 1 ≤ j → j < i + 1 + k →
        (x >>> 1).getLsbD (j - (i + 1)) = y.getLsbD j := by
      intro j hle hlt
      rw [getLsbD_ushiftRight, ← hxy j (by omega) (by omega)]
      congr 1
      omega
    rw [saveKn, hidx, if_pos (by omega), ih (by omega) _ hrest, hbit, splitBits,
      ← BitVec.shiftRight_add, Nat.add_comm 1 k]

/-- The two halves of a double word make it up. -/
theorem append_halves (x : BitVec 32) :
    (x >>> 16).setWidth 16 ++ x.setWidth 16 = x := by
  apply eq_of_getLsbD_eq
  intro i hi
  rw [getLsbD_append]
  split
  · simp [‹i < 16›]
  · rw [getLsbD_setWidth, getLsbD_ushiftRight]
    simp [show i - 16 < 16 by omega, show 16 + (i - 16) = i by omega]

/-! ## The access functions on a place -/

theorem getLoop_one {α : Type} {read : Nat → α} {limit stride i : Nat} (h : i < limit) :
    getLoop read limit stride 1 i = (.ok (), [read i]) := by
  rw [getLoop, if_pos h]
  rfl

theorem saveLoop_one {α : Type} {write : Nat → α → Store → Store} {limit stride i : Nat} {x : α}
    (h : i < limit) : saveLoop write limit stride [x] i s = (.ok (), write i x s) := by
  rw [saveLoop, if_pos h]
  rfl

theorem getKnLoop_one {w : Nat} {area : BitArea} {start width : Nat}
    (h : start + width ≤ area.rang) :
    getKnLoop w (s.getBit area) area.rang width start 1 0 =
      (.ok (), [BitVec.ofNat w (joinBits (fun i => s.getBit area (start + i)) width)]) := by
  rw [getKnLoop, Nat.zero_mul, Nat.add_zero, show (0 : BitVec w) = BitVec.ofNat w 0 from rfl,
    getKn_eq h, Nat.zero_mul, Nat.zero_add]
  rfl

theorem saveKnLoop_one {w : Nat} {area : BitArea} {start width : Nat}
    (h : start + width ≤ area.rang) (x : BitVec w) (y : BitVec 32)
    (hxy : ∀ j < width, x.getLsbD j = y.getLsbD j) :
    saveKnLoop area width start [x] 0 s =
      (.ok (), [x >>> width], splitBits area start y width 0 s) := by
  have hbits : ∀ j, 0 ≤ j → j < 0 + width → x.getLsbD (j - 0) = y.getLsbD j :=
    fun j _ hj => hxy j (by omega)
  rw [saveKnLoop, Nat.zero_mul, saveKn_eq (by omega) x y hbits]
  rfl

theorem getChar_of_place (h : bitPlace u p s (getCharTable n) = some pl) :
    ∃ b, getChar u p s n 0 1 = (.ok (), [b]) ∧ pl.read s = BitVec.ofNat 32 b.toNat := by
  obtain ⟨area, z, hform, hrang, rfl⟩ := bitPlace_cases h
  refine ⟨s.getBit area _, ?_, rfl⟩
  simp only [getChar, hform]
  exact getLoop_one hrang

theorem saveChar_of_place (h : bitPlace u p s (saveCharTable n) = some pl) (b : Bool) :
    saveChar u p s n 0 [b] = (.ok (), pl.write (BitVec.ofNat 32 b.toNat) s) := by
  obtain ⟨area, z, hform, hrang, rfl⟩ := bitPlace_cases h
  have hbit : (BitVec.ofNat 32 b.toNat).getLsbD 0 = b := by
    cases b <;> rfl
  simp only [saveChar, hform, Place.write, hbit]
  exact saveLoop_one hrang

theorem getWord_of_place (h : wordPlace u p s (getWordTable n) = some pl) :
    ∃ x, getWord u p s n 0 1 = (.ok (), [x]) ∧ pl.read s = x.setWidth 32 := by
  cases wordPlace_cases h with
  | const hform hlit =>
    refine ⟨BitVec.ofNat 16 (u.getPU16 (p + 2)), ?_, ?_⟩
    · simp only [getWord, hform, if_neg (Nat.not_le.mpr hlit)]
    · apply eq_of_toNat_eq
      have hlt := Ucode.getPU16_lt (u := u) (p := p + 2)
      simp [Place.read, mod_eq_of_lt hlt]
  | kn area z hform hleast hmost hrang =>
    let bits := joinBits (fun i => s.getBit area (operandKnStart u p s z + i)) (4 * operandKn u p z)
    refine ⟨BitVec.ofNat 16 bits, ?_, ?_⟩
    · simp only [getWord, hform]
      rw [if_neg (by omega)]
      exact getKnLoop_one hrang
    · have hpow : 2 ^ (4 * operandKn u p z) ≤ 2 ^ 16 :=
        Nat.pow_le_pow_right (by decide) (by omega)
      have hlt : bits < 2 ^ 16 := Nat.lt_of_lt_of_le (joinBits_lt _ _) hpow
      apply eq_of_toNat_eq
      simp only [Place.read, toNat_ofNat, toNat_setWidth]
      omega
  | cells hform hlimit =>
    refine ⟨_, ?_, rfl⟩
    simp only [getWord, hform]
    exact getLoop_one hlimit

theorem saveWordTable_ne_const (a : AddrType) : saveWordTable n a ≠ some .const := by
  cases a <;> simp [saveWordTable, WordForm.of]

theorem saveWord_of_place (h : wordPlace u p s (saveWordTable n) = some pl) (x : BitVec 16) :
    ∃ x', saveWord u p s n 0 [x] = (.ok (), [x'], pl.write (x.setWidth 32) s) := by
  cases wordPlace_cases h with
  | const hform hlit =>
    obtain ⟨a, -, ha⟩ := bind_eq_some_iff.mp hform
    exact absurd ha (saveWordTable_ne_const a)
  | kn area z hform hleast hmost hrang =>
    refine ⟨x >>> (4 * operandKn u p z), ?_⟩
    simp only [saveWord, hform]
    rw [if_neg (by omega)]
    refine saveKnLoop_one hrang x (x.setWidth 32) fun j hj => ?_
    simp [show j < 32 by omega]
  | cells hform hlimit =>
    refine ⟨x, ?_⟩
    simp only [saveWord, hform, Nat.add_zero, saveLoop_one hlimit, Place.write]
    simp

theorem getDword_of_place
    (h : dwordPlace u p s dwordLiteral getDwordKnMin (getDwordTable n) = some pl) :
    getDword u p s n 0 1 = (.ok (), [pl.read s]) := by
  cases dwordPlace_cases h with
  | const hform hlit =>
    simp only [dwordLiteral, Bool.and_eq_true, decide_eq_true_eq] at hlit
    simp only [getDword, hform]
    rw [if_neg (by omega)]
    rfl
  | kn area z hform hleast hmost hrang =>
    simp only [getDword, hform]
    rw [if_neg (by omega)]
    exact getKnLoop_one hrang
  | cells hform hlimit =>
    simp only [getDword, hform]
    exact getLoop_one hlimit
  | counter hform hlimit =>
    simp only [getDword, hform, Nat.zero_mul]
    exact getLoop_one hlimit

theorem saveDword_of_place
    (h : dwordPlace u p s (fun _ => false) (fun _ => 5) (saveDwordTable n) = some pl)
    (x : BitVec 32) : ∃ x', saveDword u p s n 0 [x] = (.ok (), [x'], pl.write x s) := by
  cases dwordPlace_cases h with
  | const hform hlit => cases hlit
  | kn area z hform hleast hmost hrang =>
    refine ⟨x >>> (4 * operandKn u p z), ?_⟩
    simp only [saveDword, hform]
    rw [if_neg (by omega)]
    exact saveKnLoop_one hrang x x fun _ _ => rfl
  | cells hform hlimit =>
    refine ⟨x, ?_⟩
    simp only [saveDword, hform, Nat.zero_mul, Nat.add_zero, saveLoop_one hlimit]
    rfl
  | counter hform hlimit =>
    refine ⟨x, ?_⟩
    simp only [saveDword, hform, Nat.zero_mul, Nat.add_zero, saveLoop_one hlimit]
    rfl

theorem floatTable_cases {form : DwordForm} (h : floatTable n a = some form) :
    form = .const ∨ ∃ area z, form = .of area z := by
  cases a <;> cases h <;> first | exact .inl rfl | exact .inr ⟨_, _, rfl⟩

theorem getFloat_of_place
    (h : dwordPlace u p s realLiteral (fun _ => 5) (floatTable n) = some pl) :
    getFloat u p s n 0 1 = (.ok (), [pl.read s]) := by
  cases dwordPlace_cases h with
  | const hform hlit =>
    simp only [realLiteral, beq_iff_eq] at hlit
    simp only [getFloat, hform, hlit]
    rfl
  | kn area z hform hleast hmost hrang =>
    obtain ⟨a, -, ha⟩ := bind_eq_some_iff.mp hform
    rcases floatTable_cases ha with hne | ⟨_, _, hne⟩ <;> cases hne
  | cells hform hlimit =>
    simp only [getFloat, hform]
    exact getLoop_one hlimit
  | counter hform hlimit =>
    obtain ⟨a, -, ha⟩ := bind_eq_some_iff.mp hform
    rcases floatTable_cases ha with hne | ⟨_, _, hne⟩ <;> cases hne

theorem saveFloat_of_place
    (h : dwordPlace u p s (fun _ => false) (fun _ => 5) (floatTable n) = some pl) (x : BitVec 32) :
    saveFloat u p s n 0 [x] = (.ok (), pl.write x s) := by
  cases dwordPlace_cases h with
  | const hform hlit => cases hlit
  | kn area z hform hleast hmost hrang =>
    obtain ⟨a, -, ha⟩ := bind_eq_some_iff.mp hform
    rcases floatTable_cases ha with hne | ⟨_, _, hne⟩ <;> cases hne
  | cells hform hlimit =>
    simp only [saveFloat, hform]
    exact saveLoop_one hlimit
  | counter hform hlimit =>
    obtain ⟨a, -, ha⟩ := bind_eq_some_iff.mp hform
    rcases floatTable_cases ha with hne | ⟨_, _, hne⟩ <;> cases hne

end

/-! ## Layers -/

/-- Two stores differ in the local elements of one layer at most. -/
structure SameOutside (l : Nat) (s s' : Store) : Prop where
  rest : s' = { s with lm := s'.lm, v := s'.v }
  lm : ∀ i, i / lmRang ≠ l → s'.lm i = s.lm i
  v : ∀ i, i / vRang ≠ l → s'.v i = s.v i

/-- Two stores have the same local elements in a layer. -/
structure SameLayer (l : Nat) (s s' : Store) : Prop where
  lm : ∀ i, i / lmRang = l → s'.lm i = s.lm i
  v : ∀ i, i / vRang = l → s'.v i = s.v i

/-- A bit is a global one, or local to the layer `n`. -/
def BitArea.Within (n : Nat) : BitArea → Nat → Prop
  | elem _, _ => True
  | lm layer, i => layer = n ∧ i < lmRang

/-- A word is a global one, or local to the layer `n`. -/
def WordArea.Within (n : Nat) : WordArea → Nat → Prop
  | elem _, _ => True
  | v layer, i => layer = n ∧ i < vRang

/-- A place has no local elements but those of the layer `n`. -/
def Place.Within (n : Nat) : Place → Prop
  | const _ | counter _ => True
  | bit area i => area.Within n i
  | word area i => area.Within n i
  | dword low high i => low.Within n i ∧ high.Within n (i + 1)
  | bits area i width => ∀ k < width, area.Within n (i + k)

section

variable {l n i : Nat} {s s' s'' : Store} {pl : Place}

theorem layer_div {r : Nat} (h : i < r) : (r * n + i) / r = n := by
  rw [mul_add_div (by omega), div_eq_of_lt h, Nat.add_zero]

namespace SameOutside

theorem refl (s : Store) : SameOutside l s s := ⟨rfl, fun _ _ => rfl, fun _ _ => rfl⟩

theorem trans (h : SameOutside l s s') (h' : SameOutside l s' s'') : SameOutside l s s'' where
  rest := by
    have hrest := h'.rest
    rw [h.rest] at hrest
    exact hrest
  lm := fun i hi => (h'.lm i hi).trans (h.lm i hi)
  v := fun i hi => (h'.v i hi).trans (h.v i hi)

theorem bit (h : SameOutside l s s') : s'.bit = s.bit := by rw [h.rest]

theorem word (h : SameOutside l s s') : s'.word = s.word := by rw [h.rest]

theorem c32 (h : SameOutside l s s') : s'.c32 = s.c32 := by rw [h.rest]

theorem getBit (h : SameOutside l s s') (hn : n ≠ l) {area : BitArea} (ha : area.Within n i) :
    s'.getBit area i = s.getBit area i := by
  cases area with
  | elem e => exact congrFun (congrFun h.bit e) i
  | lm layer =>
    obtain ⟨rfl, hi⟩ := ha
    exact h.lm _ (by rwa [layer_div hi])

theorem getWord (h : SameOutside l s s') (hn : n ≠ l) {area : WordArea} (ha : area.Within n i) :
    s'.getWord area i = s.getWord area i := by
  cases area with
  | elem e => exact congrFun (congrFun h.word e) i
  | v layer =>
    obtain ⟨rfl, hi⟩ := ha
    exact h.v _ (by rwa [layer_div hi])

theorem setBit (h : SameOutside l s s') (area : BitArea) (i : Nat) (b : Bool) :
    SameOutside l (s.setBit area i b) (s'.setBit area i b) := by
  cases area with
  | elem e =>
    refine ⟨?_, h.lm, h.v⟩
    rw [h.rest]
    rfl
  | lm layer =>
    refine ⟨?_, fun j hj => ?_, h.v⟩
    · rw [Store.setBit, h.rest]
      rfl
    · simp only [Store.setBit, update_apply, h.lm j hj]

theorem setWord (h : SameOutside l s s') (area : WordArea) (i : Nat) (x : BitVec 16) :
    SameOutside l (s.setWord area i x) (s'.setWord area i x) := by
  cases area with
  | elem e =>
    refine ⟨?_, h.lm, h.v⟩
    rw [h.rest]
    rfl
  | v layer =>
    refine ⟨?_, h.lm, fun j hj => ?_⟩
    · rw [Store.setWord, h.rest]
      rfl
    · simp only [Store.setWord, update_apply, h.v j hj]

theorem setC32 (h : SameOutside l s s') (i : Nat) (x : BitVec 32) :
    SameOutside l (s.setC32 i x) (s'.setC32 i x) := by
  refine ⟨?_, h.lm, h.v⟩
  rw [h.rest]
  rfl

theorem splitBits (h : SameOutside l s s') (area : BitArea) (i : Nat) (x : BitVec 32) (w k : Nat) :
    SameOutside l (splitBits area i x w k s) (splitBits area i x w k s') := by
  induction w generalizing k s s' with
  | zero => exact h
  | succ w ih => exact ih (h.setBit _ _ _) (k + 1)

/-- A place of another layer has the same value in both stores. -/
theorem read (h : SameOutside l s s') (hn : n ≠ l) (hpl : pl.Within n) :
    pl.read s' = pl.read s := by
  cases pl with
  | const x => rfl
  | bit area i => rw [Place.read, Place.read, h.getBit hn hpl]
  | word area i => rw [Place.read, Place.read, h.getWord hn hpl]
  | dword low high i => rw [Place.read, Place.read, h.getWord hn hpl.1, h.getWord hn hpl.2]
  | counter i => rw [Place.read, Place.read, h.c32]
  | bits area i width =>
    have hjoin : ∀ w, w ≤ width → joinBits (fun k => s'.getBit area (i + k)) w =
        joinBits (fun k => s.getBit area (i + k)) w := by
      intro w hw
      induction w with
      | zero => rfl
      | succ w ih => rw [joinBits, joinBits, ih (by omega), h.getBit hn (hpl w (by omega))]
    rw [Place.read, Place.read, hjoin width (Nat.le_refl _)]

theorem write (h : SameOutside l s s') (x : BitVec 32) (pl : Place) :
    SameOutside l (pl.write x s) (pl.write x s') := by
  cases pl with
  | const _ => exact h
  | bit area i => exact h.setBit _ _ _
  | word area i => exact h.setWord _ _ _
  | dword low high i => exact (h.setWord _ _ _).setWord _ _ _
  | counter i => exact h.setC32 _ _
  | bits area i width => exact h.splitBits _ _ _ _ _

end SameOutside

namespace SameLayer

theorem refl (s : Store) : SameLayer l s s := ⟨fun _ _ => rfl, fun _ _ => rfl⟩

theorem trans (h : SameLayer l s s') (h' : SameLayer l s' s'') : SameLayer l s s'' :=
  ⟨fun i hi => (h'.lm i hi).trans (h.lm i hi), fun i hi => (h'.v i hi).trans (h.v i hi)⟩

theorem of_setBit {area : BitArea} (ha : area.Within n i) (hn : n ≠ l) (b : Bool) :
    SameLayer l s (s.setBit area i b) := by
  cases area with
  | elem e => exact ⟨fun _ _ => rfl, fun _ _ => rfl⟩
  | lm layer =>
    obtain ⟨rfl, hi⟩ := ha
    refine ⟨fun j hj => update_of_ne ?_ _ _, fun _ _ => rfl⟩
    rintro rfl
    exact hn ((layer_div hi).symm.trans hj)

theorem of_setWord {area : WordArea} (ha : area.Within n i) (hn : n ≠ l) (x : BitVec 16) :
    SameLayer l s (s.setWord area i x) := by
  cases area with
  | elem e => exact ⟨fun _ _ => rfl, fun _ _ => rfl⟩
  | v layer =>
    obtain ⟨rfl, hi⟩ := ha
    refine ⟨fun _ _ => rfl, fun j hj => update_of_ne ?_ _ _⟩
    rintro rfl
    exact hn ((layer_div hi).symm.trans hj)

/-- Writing a place leaves the other layers alone. -/
theorem of_write (hpl : pl.Within n) (hn : n ≠ l) (x : BitVec 32) :
    SameLayer l s (pl.write x s) := by
  cases pl with
  | const _ | counter i => exact ⟨fun _ _ => rfl, fun _ _ => rfl⟩
  | bit area i => exact of_setBit hpl hn _
  | word area i => exact of_setWord hpl hn _
  | dword low high i => exact (of_setWord hpl.1 hn _).trans (of_setWord hpl.2 hn _)
  | bits area i width =>
    have hsplit : ∀ w k s, k + w ≤ width → SameLayer l s (splitBits area i x w k s) := by
      intro w
      induction w with
      | zero => exact fun _ s _ => refl s
      | succ w ih =>
        intro k s hk
        exact (of_setBit (hpl k (by omega)) hn _).trans (ih (k + 1) _ (by omega))
    exact hsplit width 0 s (by omega)

end SameLayer

/-! ## The layer of named places -/

def BitArea.Of (n : Nat) : BitArea → Prop
  | elem _ => True
  | lm layer => layer = n

def WordArea.Of (n : Nat) : WordArea → Prop
  | elem _ => True
  | v layer => layer = n

/-- A word operand stays inside an area of the layer `n`. -/
def WordForm.Of (n : Nat) : WordForm → Prop
  | const => True
  | kn area _ => area.Of n
  | cells area _ limit => area.Of n ∧ limit ≤ area.rang

/-- An operand of 32 bits stays inside an area of the layer `n`. -/
def DwordForm.Of (n : Nat) : DwordForm → Prop
  | const | counter _ _ _ => True
  | kn area _ => area.Of n
  | cells low high _ limit => low.Of n ∧ high.Of n ∧ limit ≤ low.rang ∧ limit < high.rang

theorem BitArea.Of.within {area : BitArea} (h : area.Of n) (hi : i < area.rang) :
    area.Within n i := by
  cases area with
  | elem e => trivial
  | lm layer => exact ⟨h, hi⟩

theorem WordArea.Of.within {area : WordArea} (h : area.Of n) (hi : i < area.rang) :
    area.Within n i := by
  cases area with
  | elem e => trivial
  | v layer => exact ⟨h, hi⟩

theorem namedBit_of {a : AddrType} {area : BitArea} {z : Bool} (h : namedBit n a = some (area, z)) :
    area.Of n := by
  cases a <;> cases h <;> trivial

theorem getWordTable_of {a : AddrType} {form : WordForm} (h : getWordTable n a = some form) :
    form.Of n := by
  cases a <;> cases h <;>
    simp [WordForm.Of, WordForm.of, BitArea.Of, WordArea.Of]

theorem namedDword_of {a : AddrType} {form : DwordForm} (h : namedDword n a = some form) :
    form.Of n := by
  cases a <;> cases h <;>
    simp [DwordForm.Of, DwordForm.of, BitArea.Of, WordArea.Of, WordArea.rang, WordElement.rang,
      vRang]

theorem floatTable_of {a : AddrType} {form : DwordForm} (h : floatTable n a = some form) :
    form.Of n := by
  cases a <;> cases h <;>
    simp [DwordForm.Of, DwordForm.of, WordArea.Of, WordArea.rang, WordElement.rang, vRang]

theorem wordPlace_within {u : Ucode} {p : Nat} {table : AddrType → Option WordForm}
    (htable : ∀ a form, table a = some form → form.Of n) (h : wordPlace u p s table = some pl) :
    pl.Within n := by
  cases wordPlace_cases h with
  | const hform hlit => trivial
  | kn area z hform hleast hmost hrang =>
    obtain ⟨a, -, ha⟩ := bind_eq_some_iff.mp hform
    intro k hk
    exact (htable a _ ha).within (by omega)
  | cells hform hlimit =>
    obtain ⟨a, -, ha⟩ := bind_eq_some_iff.mp hform
    obtain ⟨harea, hle⟩ := htable a _ ha
    exact harea.within (by omega)

theorem dwordPlace_within {u : Ucode} {p : Nat} {literal : Nat → Bool} {least : Bool → Nat}
    {table : AddrType → Option DwordForm} (htable : ∀ a form, table a = some form → form.Of n)
    (h : dwordPlace u p s literal least table = some pl) : pl.Within n := by
  cases dwordPlace_cases h with
  | const hform hlit => trivial
  | kn area z hform hleast hmost hrang =>
    obtain ⟨a, -, ha⟩ := bind_eq_some_iff.mp hform
    have harea : area.Of n := htable a _ ha
    intro k hk
    exact harea.within (by omega)
  | cells hform hlimit =>
    obtain ⟨a, -, ha⟩ := bind_eq_some_iff.mp hform
    obtain ⟨hlow, hhigh, hle, hlt⟩ := htable a _ ha
    exact ⟨hlow.within (by omega), hhigh.within (by omega)⟩
  | counter hform hlimit => trivial

/-- The operands of a call level have no local elements but those of its own layer. -/
theorem namedPlace_within {u : Ucode} {ptr : Nat} {type : ParaType}
    (h : namedPlace u n s ptr type = some pl) : pl.Within n := by
  cases type with
  | bool =>
    obtain ⟨area, z, hform, hrang, rfl⟩ := bitPlace_cases h
    obtain ⟨a, -, ha⟩ := bind_eq_some_iff.mp hform
    exact (namedBit_of ha).within hrang
  | word | int => exact wordPlace_within (fun _ _ => getWordTable_of) h
  | dword | dint =>
    simp only [namedPlace, filter_eq_some_iff] at h
    exact dwordPlace_within (fun _ _ => namedDword_of) h.1
  | real => exact dwordPlace_within (fun _ _ => floatTable_of) h

/-- Of the elements, a place depends on the index registers only. -/
theorem namedPlace_congr {u : Ucode} {ptr : Nat} {type : ParaType} (h : s'.word = s.word) :
    namedPlace u n s' ptr type = namedPlace u n s ptr type := by
  have hstart (p : Nat) (z : Bool) : operandStart u p s' z = operandStart u p s z := by
    rw [operandStart, operandStart, h]
  have hkn (p : Nat) (z : Bool) : operandKnStart u p s' z = operandKnStart u p s z := by
    rw [operandKnStart, operandKnStart, h]
  cases type <;> simp only [namedPlace, bitPlace, wordPlace, dwordPlace, knPlace, hstart, hkn]

end

end Kalyke
