-- SUMMARY: Sums, differences, negation and absolute value of double words, and their special bits.
import Kalyke.Exec.Conversions

/-!
# Arithmetic

The sums and differences of double words are taken modulo 2 ^ 32. `SM180` says that the result is
zero, and `SM181` and `SM182` that an exact result was too large or too small, which is told from
the signs of the operands and of the result. The signs that the tests ask for leave out a result of
zero: the sum of two least numbers, or the difference of zero and the least number. `DVABS`, `DNEG`
and their siblings of 16 bits leave the special bits alone.
-/

namespace Kalyke

open List
open BitVec (le_toInt ofInt_add ofInt_toInt ofInt_neg)

/-! ## The instructions -/

/-- Switch a special bit on. -/
def setFlag (n : Nat) (s : Store) : Store := s.setBit (.elem .SM) n true

/-- Switch the special bits for zero, carry and borrow off. -/
def clearFlags (s : Store) : Store :=
  ((s.setBit (.elem .SM) 180 false).setBit (.elem .SM) 181 false).setBit (.elem .SM) 182 false

/-- The test for a carry of `x + y = z`. -/
def SumCarries (x y z : BitVec 32) : Prop := 0 < x.toInt ∧ 0 < y.toInt ∧ z.toInt < 0

def SumBorrows (x y z : BitVec 32) : Prop := x.toInt ≤ 0 ∧ y.toInt < 0 ∧ 0 < z.toInt

/-- The test for a carry of `x - y = z`. -/
def DifferenceCarries (x y z : BitVec 32) : Prop := 0 < x.toInt ∧ y.toInt < 0 ∧ z.toInt < 0

def DifferenceBorrows (x y z : BitVec 32) : Prop := x.toInt < 0 ∧ 0 < y.toInt ∧ 0 < z.toInt

section

variable (x y z : BitVec 32)

instance : Decidable (SumCarries x y z) := inferInstanceAs (Decidable (_ ∧ _))

instance : Decidable (SumBorrows x y z) := inferInstanceAs (Decidable (_ ∧ _))

instance : Decidable (DifferenceCarries x y z) := inferInstanceAs (Decidable (_ ∧ _))

instance : Decidable (DifferenceBorrows x y z) := inferInstanceAs (Decidable (_ ∧ _))

end

/-- Switch on the bits for carry and borrow. -/
def setCarry (carry borrow : Prop) [Decidable carry] [Decidable borrow] (s : Store) : Store :=
  if carry then setFlag 181 s else if borrow then setFlag 182 s else s

/-- The operands of an instruction on two double words. -/
def dwordTerms (i : BodyInput) : Except PlcErr (BitVec 32 × BitVec 32) := do
  let x ← i.dword 2 0 i.store
  let y ← i.dword 8 0 i.store
  return (x, y)

def runCiDaddIns (i : BodyInput) : BodyResult :=
  runChecked i (dwordTerms i) fun (x, y) s =>
    let z := x + y
    let s := setCarry (SumCarries x y z) (SumBorrows x y z) (clearFlags s)
    i.saveDwords (i.pc + 14) 0 [z] (if z = 0 then setFlag 180 s else s)

def runCiDsubIns (i : BodyInput) : BodyResult :=
  runChecked i (dwordTerms i) fun (x, y) s =>
    let z := x - y
    let s := setCarry (DifferenceCarries x y z) (DifferenceBorrows x y z) (clearFlags s)
    i.saveDwords (i.pc + 14) 0 [z] (if z = 0 then setFlag 180 s else s)

/-- `run_ci_dvabs_ins`. The number that is refused is not the one that has no absolute value. -/
def runCiDvabsIns : BodyInput → BodyResult :=
  runDwordConversion fun x =>
    if x.toInt = -2147483647 then .error .operands else .ok (if x.toInt < 0 then -x else x)

def runCiDnegIns : BodyInput → BodyResult :=
  runDwordConversion fun x => if x.toInt = -2147483647 then .error .operands else .ok (-x)

/-- The count of `run_ci_sum_ins` and `run_ci_dsum_ins`. -/
def sumCount (i : BodyInput) (q : Nat) : Except PlcErr Nat := do
  let cnt ← i.word q 0 i.store
  if cnt.toInt < 0 ∨ 255 < cnt.toInt then .error .operands else return cnt.toNat

/-- The loop of the two: `n` numbers from the one at offset `k` on are added to a sum. -/
def sumLoop (get : Nat → Store → Except PlcErr (BitVec 32))
    (flag : BitVec 32 → BitVec 32 → Store → Store) :
    Nat → Nat → BitVec 32 → Store → Except PlcErr (BitVec 32) × Store
  | 0, _, sum, s => (.ok sum, s)
  | n + 1, k, sum, s =>
    match get k s with
    | .error e => (.error e, s)
    | .ok x => sumLoop get flag n (k + 1) (sum + x) (flag sum x s)

/-- Sum up and save. If the sum is zero, `SM180` is given a value. -/
def runSum (i : BodyInput) (get : Nat → Store → Except PlcErr (BitVec 32))
    (flag : BitVec 32 → BitVec 32 → Store → Store) (zero : Bool) (dst n : Nat) (s : Store) :
    Except PlcErr Unit × Store :=
  match sumLoop get flag n 0 0 (clearFlags s) with
  | (.error e, s) => (.error e, s)
  | (.ok sum, s) =>
    i.saveDwords (i.pc + dst) 0 [sum] (if sum = 0 then s.setBit (.elem .SM) 180 zero else s)

def sumWord (i : BodyInput) (k : Nat) (s : Store) : Except PlcErr (BitVec 32) :=
  (i.word 2 k s).map fun x => x.signExtend 32

/-- `SUM` looks for no carry. -/
def sumFlag (_ _ : BitVec 32) (s : Store) : Store := s

/-- `run_ci_sum_ins`. It switches `SM180` off where it was to be switched on. -/
def runCiSumIns (i : BodyInput) : BodyResult :=
  runChecked i (sumCount i 6) (runSum i (sumWord i) sumFlag false 10)

/-- A double word of the list of `DSUM`. -/
def dsumWord (i : BodyInput) (k : Nat) (s : Store) : Except PlcErr (BitVec 32) := i.dword 2 k s

def dsumFlag (sum x : BitVec 32) (s : Store) : Store :=
  setCarry (SumCarries sum x (sum + x)) (SumBorrows sum x (sum + x)) s

def runCiDsumIns (i : BodyInput) : BodyResult :=
  runChecked i (sumCount i 8) (runSum i (dsumWord i) dsumFlag true 12)

/-! ## Laws -/

/-- The special bits for zero, carry and borrow. -/
def IsFlag (c : Cell) : Prop := c = .bit .SM 180 ∨ c = .bit .SM 181 ∨ c = .bit .SM 182

/-- The special bit tells whether a result is zero. -/
def ZeroTells (z : BitVec 32) (s : Store) : Prop := s.getBit (.elem .SM) 180 = true ↔ z = 0

/-- The special bits tell whether one of some exact results is above or below what 32 bits hold. -/
structure CarryTells (exact : List Int) (s : Store) : Prop where
  carry : s.getBit (.elem .SM) 181 = true ↔ ∃ p ∈ exact, 2 ^ 31 ≤ p
  borrow : s.getBit (.elem .SM) 182 = true ↔ ∃ p ∈ exact, p < -2 ^ 31

/-- An instruction stores an exact result modulo 2 ^ 32. But for that it changes the special bits
only. -/
def StoresExact (i : BodyInput) (q : Nat) (z : Int) (r : BodyResult) : Prop :=
  ∃ s, ChangesOnly IsFlag i.store s ∧ r = i.storedDword q (BitVec.ofInt 32 z) s

/-- A sum or difference with power flow. -/
structure DwordTerms (x y : BitVec 32) (i : BodyInput) : Prop where
  power : getPowerFlow i.inPF = true
  left : i.dword 2 0 i.store = .ok x
  right : i.dword 8 0 i.store = .ok y

/-- The exact results of adding some numbers to a sum of 32 bits, one after the other. -/
def partialSums : BitVec 32 → List (BitVec 32) → List Int
  | _, [] => []
  | sum, x :: xs => (sum.toInt + x.toInt) :: partialSums (sum + x) xs

/-- The exact sums of the first numbers of a list. -/
def exactSums : Int → List (BitVec 32) → List Int
  | _, [] => []
  | z, x :: xs => (z + x.toInt) :: exactSums (z + x.toInt) xs

/-- The numbers that the loop gets, each when it is its turn. -/
def SumGets (get : Nat → Store → Except PlcErr (BitVec 32))
    (flag : BitVec 32 → BitVec 32 → Store → Store) :
    Nat → BitVec 32 → Store → List (BitVec 32) → Prop
  | _, _, _, [] => True
  | k, sum, s, x :: xs => get k s = .ok x ∧ SumGets get flag (k + 1) (sum + x) (flag sum x s) xs

/-- `SUM` or `DSUM` with power flow, and the numbers of its list. -/
structure SumOf (i : BodyInput) (q : Nat) (get : Nat → Store → Except PlcErr (BitVec 32))
    (flag : BitVec 32 → BitVec 32 → Store → Store) (xs : List (BitVec 32)) : Prop where
  power : getPowerFlow i.inPF = true
  count : sumCount i q = .ok xs.length
  gets : SumGets get flag 0 0 (clearFlags i.store) xs

/-! ## Carry and borrow -/

section

variable {x y z : BitVec 32} {s : Store} {n m : Nat}

theorem getBit_setFlag : (setFlag m s).getBit (.elem .SM) n =
    if n = m then true else s.getBit (.elem .SM) n := by
  split
  · rename_i h
    rw [h]
    exact getBit_setBit_self (.elem .SM) m true
  · rename_i h
    exact getBit_setBit_of_ne h true

theorem changesOnly_setFlag {A : Cell → Prop} (h : A (.bit .SM n)) (b : Bool) :
    ChangesOnly A s (s.setBit (.elem .SM) n b) := by
  refine ⟨fun c hc => read_setBit ?_ b, rest_setBit⟩
  rintro rfl
  exact hc h

/-- The bounds of 32 bits, and an exact result as far as they hold it. -/
theorem toInt_bounds (x : BitVec 32) : -2147483648 ≤ x.toInt ∧ x.toInt < 2147483648 :=
  ⟨le_toInt x, BitVec.toInt_lt⟩

theorem exists_wraps (z : Int) : ∃ q, z = (BitVec.ofInt 32 z).toInt + 4294967296 * q := by
  refine ⟨Int.bdiv z (2 ^ 32), ?_⟩
  rw [BitVec.toInt_ofInt]
  exact (Int.bmod_add_bdiv z (2 ^ 32)).symm

theorem exists_wraps_add : ∃ q, x.toInt + y.toInt = (x + y).toInt + 4294967296 * q := by
  have hwrap := exists_wraps (x.toInt + y.toInt)
  rwa [ofInt_add, ofInt_toInt, ofInt_toInt] at hwrap

theorem ofInt_sub_toInt : BitVec.ofInt 32 (x.toInt - y.toInt) = x - y := by
  rw [Int.sub_eq_add_neg, ofInt_add, ofInt_neg, ofInt_toInt,
    ofInt_toInt, BitVec.sub_eq_add_neg]

theorem exists_wraps_sub : ∃ q, x.toInt - y.toInt = (x - y).toInt + 4294967296 * q := by
  have hwrap := exists_wraps (x.toInt - y.toInt)
  rwa [ofInt_sub_toInt] at hwrap

/-- The test for a carry of a sum tells. -/
theorem sumCarries_iff : SumCarries x y (x + y) ↔ 2 ^ 31 ≤ x.toInt + y.toInt := by
  obtain ⟨q, hq⟩ := exists_wraps_add (x := x) (y := y)
  have hx := toInt_bounds x
  have hy := toInt_bounds y
  have hz := toInt_bounds (x + y)
  rw [SumCarries]
  omega

/-- The test for a borrow of a sum tells if the exact result is not -2 ^ 32. -/
theorem sumBorrows_iff (h : x.toInt + y.toInt ≠ -2 ^ 32) :
    SumBorrows x y (x + y) ↔ x.toInt + y.toInt < -2 ^ 31 := by
  obtain ⟨q, hq⟩ := exists_wraps_add (x := x) (y := y)
  have hx := toInt_bounds x
  have hy := toInt_bounds y
  have hz := toInt_bounds (x + y)
  rw [SumBorrows]
  omega

/-- The test for a carry of a difference tells, but for zero and the least number. -/
theorem differenceCarries_iff (h : ¬ (x.toInt = 0 ∧ y.toInt = -2 ^ 31)) :
    DifferenceCarries x y (x - y) ↔ 2 ^ 31 ≤ x.toInt - y.toInt := by
  obtain ⟨q, hq⟩ := exists_wraps_sub (x := x) (y := y)
  have hx := toInt_bounds x
  have hy := toInt_bounds y
  have hz := toInt_bounds (x - y)
  rw [DifferenceCarries]
  omega

theorem differenceBorrows_iff : DifferenceBorrows x y (x - y) ↔ x.toInt - y.toInt < -2 ^ 31 := by
  obtain ⟨q, hq⟩ := exists_wraps_sub (x := x) (y := y)
  have hx := toInt_bounds x
  have hy := toInt_bounds y
  have hz := toInt_bounds (x - y)
  rw [DifferenceBorrows]
  omega

section

variable {carry borrow : Prop} [Decidable carry] [Decidable borrow] {b : Bool} {t : Store}

theorem clearFlags_changesOnly : ChangesOnly IsFlag s (clearFlags s) :=
  ((changesOnly_setFlag (.inl rfl) false).trans (changesOnly_setFlag (.inr (.inl rfl)) false)).trans
    (changesOnly_setFlag (.inr (.inr rfl)) false)

theorem setCarry_changesOnly : ChangesOnly IsFlag s (setCarry carry borrow s) := by
  rw [setCarry]
  split
  · exact changesOnly_setFlag (.inr (.inl rfl)) true
  · split
    · exact changesOnly_setFlag (.inr (.inr rfl)) true
    · exact changesOnly_refl

theorem clearFlags_off : (clearFlags s).getBit (.elem .SM) 180 = false ∧
    (clearFlags s).getBit (.elem .SM) 181 = false ∧
    (clearFlags s).getBit (.elem .SM) 182 = false := by
  refine ⟨?_, ?_, getBit_setBit_self ..⟩
  · rw [clearFlags, getBit_setBit_of_ne (by decide), getBit_setBit_of_ne (by decide)]
    exact getBit_setBit_self ..
  · rw [clearFlags, getBit_setBit_of_ne (by decide)]
    exact getBit_setBit_self ..

theorem setCarry_flags (h : carry → ¬ borrow) :
    (setCarry carry borrow s).getBit (.elem .SM) 180 = s.getBit (.elem .SM) 180 ∧
    ((setCarry carry borrow s).getBit (.elem .SM) 181 = true ↔
      s.getBit (.elem .SM) 181 = true ∨ carry) ∧
    ((setCarry carry borrow s).getBit (.elem .SM) 182 = true ↔
      s.getBit (.elem .SM) 182 = true ∨ borrow) := by
  by_cases hcarry : carry
  · simp [setCarry, getBit_setFlag, hcarry, h hcarry]
  · by_cases hborrow : borrow
    · simp [setCarry, getBit_setFlag, hcarry, hborrow]
    · simp [setCarry, hcarry, hborrow]

theorem storedDword_getBit {i : BodyInput} {q n : Nat} {z : BitVec 32} :
    (i.storedDword q z s).2.2.getBit (.elem .SM) n = s.getBit (.elem .SM) n :=
  congrFun saveDwords_sm n

theorem zero_changesOnly (hb : ChangesOnly IsFlag s t) :
    ChangesOnly IsFlag s (if z = 0 then t.setBit (.elem .SM) 180 b else t) := by
  split
  · exact hb.trans (changesOnly_setFlag (.inl rfl) b)
  · exact hb

theorem zero_getBit (hn : n ≠ 180) :
    (if z = 0 then t.setBit (.elem .SM) 180 b else t).getBit (.elem .SM) n =
      t.getBit (.elem .SM) n := by
  split
  · exact getBit_setBit_of_ne hn b
  · rfl

theorem zeroTells_of_off (h : t.getBit (.elem .SM) 180 = false) :
    ZeroTells z (if z = 0 then setFlag 180 t else t) := by
  rw [ZeroTells]
  split
  · rename_i hz
    exact iff_of_true (getBit_setBit_self ..) hz
  · rename_i hz
    rw [h]
    exact iff_of_false Bool.false_ne_true hz

/-- A sum or difference: the result is stored, and the special bits tell what the tests tell. -/
theorem terms_spec {i : BodyInput} {p : Int} (hz : z = BitVec.ofInt 32 p)
    (hexclusive : carry → ¬ borrow) :
    let t := setCarry carry borrow (clearFlags i.store)
    let r := i.storedDword 14 z (if z = 0 then setFlag 180 t else t)
    StoresExact i 14 p r ∧ ZeroTells z r.2.2 ∧
      ((carry ↔ 2 ^ 31 ≤ p) → (borrow ↔ p < -2 ^ 31) → CarryTells [p] r.2.2) := by
  intro t r
  obtain ⟨hzero, hoff, hoff'⟩ := clearFlags_off (s := i.store)
  obtain ⟨h180, h181, h182⟩ := setCarry_flags (s := clearFlags i.store) hexclusive
  refine ⟨⟨if z = 0 then setFlag 180 t else t, ?_, ?_⟩, ?_, ?_⟩
  · exact zero_changesOnly (clearFlags_changesOnly.trans setCarry_changesOnly)
  · rw [← hz]
  · rw [ZeroTells, storedDword_getBit]
    exact zeroTells_of_off (h180.trans hzero)
  · intro hcarry hborrow
    refine ⟨?_, ?_⟩
    · rw [storedDword_getBit, setFlag, zero_getBit (by decide), h181, hoff, hcarry]
      simp
    · rw [storedDword_getBit, setFlag, zero_getBit (by decide), h182, hoff', hborrow]
      simp

end

end

/-! ## Sums of lists -/

section

variable {get : Nat → Store → Except PlcErr (BitVec 32)}
variable {flag : BitVec 32 → BitVec 32 → Store → Store} {sum x z : BitVec 32}
variable {xs : List (BitVec 32)} {s : Store} {n k : Nat} {i : BodyInput}

/-- What the loop makes of the special bits. -/
def flagAll (flag : BitVec 32 → BitVec 32 → Store → Store) :
    BitVec 32 → List (BitVec 32) → Store → Store
  | _, [], s => s
  | sum, x :: xs, s => flagAll flag (sum + x) xs (flag sum x s)

def exactSum (xs : List (BitVec 32)) : Int := (xs.map BitVec.toInt).sum

theorem sumLoop_eq (h : SumGets get flag k sum s xs) :
    sumLoop get flag xs.length k sum s =
      (.ok (BitVec.ofInt 32 (sum.toInt + exactSum xs)), flagAll flag sum xs s) := by
  induction xs generalizing k sum s with
  | nil =>
    rw [exactSum, map_nil, sum_nil, Int.add_zero, ofInt_toInt]
    rfl
  | cons x xs ih =>
    have hsum : BitVec.ofInt 32 ((sum + x).toInt + exactSum xs) =
        BitVec.ofInt 32 (sum.toInt + exactSum (x :: xs)) := by
      rw [exactSum, exactSum, map_cons, sum_cons, ofInt_add, ofInt_toInt,
        ← Int.add_assoc, ofInt_add, ofInt_add, ofInt_toInt,
        ofInt_toInt]
    simp only [length_cons, sumLoop, h.1, ih h.2, hsum, flagAll]

theorem runSum_eq {b : Bool} {q dst : Nat} (h : SumOf i q get flag xs) :
    runChecked i (sumCount i q) (runSum i get flag b dst) =
      i.storedDword dst (BitVec.ofInt 32 (exactSum xs))
        (if BitVec.ofInt 32 (exactSum xs) = 0 then
          (flagAll flag 0 xs (clearFlags i.store)).setBit (.elem .SM) 180 b
        else flagAll flag 0 xs (clearFlags i.store)) := by
  have hloop := sumLoop_eq h.gets
  rw [show (0 : BitVec 32).toInt + exactSum xs = exactSum xs from Int.zero_add _] at hloop
  rw [runChecked_eq h.power h.count]
  simp only [runSum, hloop]
  rfl

theorem flagAll_changesOnly (hflag : ∀ sum x s, ChangesOnly IsFlag s (flag sum x s)) :
    ChangesOnly IsFlag s (flagAll flag sum xs s) := by
  induction xs generalizing sum s with
  | nil => exact changesOnly_refl
  | cons x xs ih => exact (hflag sum x s).trans ih

/-- The tests for a carry and a borrow of a sum exclude each other. -/
theorem sumCarries_not_borrows : SumCarries sum x z → ¬ SumBorrows sum x z := by
  rintro ⟨hpos, -, -⟩ ⟨hneg, -, -⟩
  omega

theorem flagAll_dsum_zero :
    (flagAll dsumFlag sum xs s).getBit (.elem .SM) 180 = s.getBit (.elem .SM) 180 := by
  induction xs generalizing sum s with
  | nil => rfl
  | cons x xs ih => exact ih.trans (setCarry_flags sumCarries_not_borrows).1

/-- The loop of `DSUM` tells of each exact result what the tests tell. -/
theorem flagAll_dsum (h : -2 ^ 32 ∉ partialSums sum xs) :
    ((flagAll dsumFlag sum xs s).getBit (.elem .SM) 181 = true ↔
      s.getBit (.elem .SM) 181 = true ∨ ∃ p ∈ partialSums sum xs, 2 ^ 31 ≤ p) ∧
    ((flagAll dsumFlag sum xs s).getBit (.elem .SM) 182 = true ↔
      s.getBit (.elem .SM) 182 = true ∨ ∃ p ∈ partialSums sum xs, p < -2 ^ 31) := by
  induction xs generalizing sum s with
  | nil => simp [flagAll, partialSums]
  | cons x xs ih =>
    obtain ⟨hne, hrest⟩ := not_or.mp fun hp => h (mem_cons.mpr hp)
    obtain ⟨-, h181, h182⟩ := setCarry_flags (s := s) (sumCarries_not_borrows (z := sum + x))
    obtain ⟨ih181, ih182⟩ := ih (s := dsumFlag sum x s) hrest
    simp only [flagAll, partialSums, mem_cons, exists_eq_or_imp]
    refine ⟨?_, ?_⟩
    · rw [ih181, dsumFlag, h181, or_assoc, sumCarries_iff]
    · rw [ih182, dsumFlag, h182, or_assoc, sumBorrows_iff (Ne.symm hne)]

/-- The exact results of adding up at most 255 words are within 32 bits. -/
theorem partialSums_of_words {m : Nat}
    (hsum : -32768 * m ≤ sum.toInt ∧ sum.toInt ≤ 32768 * m)
    (hm : m + xs.length ≤ 255) (hxs : ∀ x ∈ xs, -32768 ≤ x.toInt ∧ x.toInt ≤ 32767) :
    ∀ p ∈ partialSums sum xs, -2 ^ 31 ≤ p ∧ p < 2 ^ 31 := by
  induction xs generalizing sum m with
  | nil => simp [partialSums]
  | cons x xs ih =>
    have hx := hxs x mem_cons_self
    rw [length_cons] at hm
    obtain ⟨q, hq⟩ := exists_wraps_add (x := sum) (y := x)
    have hbounds := toInt_bounds (sum + x)
    intro p hp
    rcases mem_cons.mp hp with rfl | hp
    · omega
    · have hys : ∀ y ∈ xs, _ := fun y hy => hxs y (mem_cons_of_mem x hy)
      refine ih (m := m + 1) ⟨?_, ?_⟩ (by omega) hys p hp
      · push_cast
        omega
      · push_cast
        omega

theorem sumGets_words (h : SumGets (sumWord i) flag k sum s xs) :
    ∀ x ∈ xs, -32768 ≤ x.toInt ∧ x.toInt ≤ 32767 := by
  induction xs generalizing k sum s with
  | nil => simp
  | cons x xs ih =>
    obtain ⟨d, -, rfl⟩ := map_eq_ok h.1
    intro y hy
    rcases mem_cons.mp hy with rfl | hy
    · have hlow := le_toInt d
      have hhigh := d.toInt_lt
      rw [BitVec.toInt_signExtend_of_le (by decide)]
      omega
    · exact ih h.2 y hy

theorem flagAll_sum : flagAll sumFlag sum xs s = s := by
  induction xs generalizing sum s with
  | nil => rfl
  | cons x xs ih => exact ih

theorem length_of_sumCount {q : Nat} (h : sumCount i q = .ok n) : n ≤ 255 := by
  obtain ⟨cnt, -, hcnt⟩ := bind_eq_ok h
  obtain ⟨hrange, hn⟩ := ite_eq_ok hcnt
  have hnat := BitVec.toInt_eq_toNat_cond cnt
  cases hn
  split at hnat <;> omega

end

/-! ## The instructions together -/

section

variable {i j k l : BodyInput} {x y v z : BitVec 32} {xs ys : List (BitVec 32)}

theorem dwordTerms_eq (h : DwordTerms x y i) : dwordTerms i = .ok (x, y) := by
  simp only [dwordTerms, h.left, h.right]
  rfl

theorem dadd_tells (h : DwordTerms x y i) :
    StoresExact i 14 (x.toInt + y.toInt) (runCiDaddIns i) ∧
    ZeroTells (x + y) (runCiDaddIns i).2.2 ∧
    (x.toInt + y.toInt ≠ -2 ^ 32 → CarryTells [x.toInt + y.toInt] (runCiDaddIns i).2.2) := by
  have hz : x + y = BitVec.ofInt 32 (x.toInt + y.toInt) := by
    rw [ofInt_add, ofInt_toInt, ofInt_toInt]
  obtain ⟨hstore, hzero, htells⟩ := terms_spec (i := i) hz sumCarries_not_borrows
  rw [runCiDaddIns, runChecked_eq h.power (dwordTerms_eq h)]
  exact ⟨hstore, hzero, fun hne => htells sumCarries_iff (sumBorrows_iff hne)⟩

theorem dsub_tells (h : DwordTerms x y i) :
    StoresExact i 14 (x.toInt - y.toInt) (runCiDsubIns i) ∧
    ZeroTells (x - y) (runCiDsubIns i).2.2 ∧
    (¬ (x.toInt = 0 ∧ y.toInt = -2 ^ 31) →
      CarryTells [x.toInt - y.toInt] (runCiDsubIns i).2.2) := by
  have hexclusive : DifferenceCarries x y (x - y) → ¬ DifferenceBorrows x y (x - y) := by
    rintro ⟨hpos, -, -⟩ ⟨hneg, -, -⟩
    omega
  obtain ⟨hstore, hzero, htells⟩ := terms_spec (i := i) ofInt_sub_toInt.symm hexclusive
  rw [runCiDsubIns, runChecked_eq h.power (dwordTerms_eq h)]
  exact ⟨hstore, hzero, fun hne => htells (differenceCarries_iff hne) differenceBorrows_iff⟩

/-- `DVABS` stores the absolute value of a number that it does not have to refuse. -/
theorem dvabs_exact (h : Given v i) (hv : -2 ^ 31 + 1 < v.toInt) :
    runCiDvabsIns i = i.storedDword 8 (BitVec.ofInt 32 |v.toInt|) i.store := by
  refine converts_of_eq ?_ i h
  rw [if_neg (by omega)]
  split
  · rename_i hneg
    rw [abs_of_neg hneg, ofInt_neg, ofInt_toInt]
  · rename_i hpos
    rw [abs_of_nonneg (Int.not_lt.mp hpos), ofInt_toInt]

/-- `DNEG` stores the negation of a number that it does not have to refuse. -/
theorem dneg_exact (h : Given v i) (hv : -2 ^ 31 + 1 < v.toInt) :
    runCiDnegIns i = i.storedDword 8 (BitVec.ofInt 32 (-v.toInt)) i.store := by
  refine converts_of_eq ?_ i h
  rw [if_neg (by omega), ofInt_neg, ofInt_toInt]

/-- `SUM` and `DSUM` store the sum, and leave the bits for carry and borrow as the loop does. -/
theorem sum_stores {get : Nat → Store → Except PlcErr (BitVec 32)}
    {flag : BitVec 32 → BitVec 32 → Store → Store} {b : Bool} {q dst : Nat}
    (h : SumOf i q get flag xs) (hflag : ∀ sum x s, ChangesOnly IsFlag s (flag sum x s)) :
    StoresExact i dst (exactSum xs) (runChecked i (sumCount i q) (runSum i get flag b dst)) := by
  refine ⟨_, ?_, runSum_eq h⟩
  exact zero_changesOnly (clearFlags_changesOnly.trans (flagAll_changesOnly hflag))

theorem dsumFlag_changesOnly (sum x : BitVec 32) (s : Store) :
    ChangesOnly IsFlag s (dsumFlag sum x s) := setCarry_changesOnly

theorem sum_tells (h : SumOf i 6 (sumWord i) sumFlag xs) :
    StoresExact i 10 (exactSum xs) (runCiSumIns i) ∧
    (BitVec.ofInt 32 (exactSum xs) ≠ 0 →
      ZeroTells (BitVec.ofInt 32 (exactSum xs)) (runCiSumIns i).2.2) ∧
    CarryTells (partialSums 0 xs) (runCiSumIns i).2.2 := by
  obtain ⟨h180, h181, h182⟩ := clearFlags_off (s := i.store)
  have hlen : 0 + xs.length ≤ 255 := by
    rw [Nat.zero_add]
    exact length_of_sumCount h.count
  have hbounds : ∀ p ∈ partialSums 0 xs, -2 ^ 31 ≤ p ∧ p < 2 ^ 31 :=
    partialSums_of_words (by decide) hlen (sumGets_words h.gets)
  refine ⟨sum_stores h fun _ _ _ => changesOnly_refl, ?_, ?_⟩
  · intro hne
    rw [runCiSumIns, runSum_eq h, ZeroTells, storedDword_getBit, if_neg hne, flagAll_sum]
    exact iff_of_false Bool.false_ne_true hne
  · rw [runCiSumIns, runSum_eq h]
    refine ⟨?_, ?_⟩
    · rw [storedDword_getBit, zero_getBit (by decide), flagAll_sum, h181]
      refine iff_of_false Bool.false_ne_true ?_
      rintro ⟨p, hp, hlarge⟩
      exact Int.not_le.mpr (hbounds p hp).2 hlarge
    · rw [storedDword_getBit, zero_getBit (by decide), flagAll_sum, h182]
      refine iff_of_false Bool.false_ne_true ?_
      rintro ⟨p, hp, hsmall⟩
      exact Int.not_lt.mpr (hbounds p hp).1 hsmall

theorem dsum_tells (h : SumOf i 8 (dsumWord i) dsumFlag xs) :
    StoresExact i 12 (exactSum xs) (runCiDsumIns i) ∧
    ZeroTells (BitVec.ofInt 32 (exactSum xs)) (runCiDsumIns i).2.2 ∧
    (-2 ^ 32 ∉ partialSums 0 xs → CarryTells (partialSums 0 xs) (runCiDsumIns i).2.2) := by
  obtain ⟨h180, h181, h182⟩ := clearFlags_off (s := i.store)
  refine ⟨sum_stores h dsumFlag_changesOnly, ?_, fun hne => ?_⟩
  · rw [runCiDsumIns, runSum_eq h, ZeroTells, storedDword_getBit]
    exact zeroTells_of_off (flagAll_dsum_zero.trans h180)
  · obtain ⟨hcarry, hborrow⟩ := flagAll_dsum (s := clearFlags i.store) hne
    rw [runCiDsumIns, runSum_eq h]
    refine ⟨?_, ?_⟩
    · rw [storedDword_getBit, zero_getBit (by decide), hcarry, h181]
      simp
    · rw [storedDword_getBit, zero_getBit (by decide), hborrow, h182]
      simp

end

/-! ## Samples -/

/-- An instruction on two literals. -/
def termsOfLiterals (x y : BitVec 32) : BodyInput :=
  { ucode := [0, 0] ++ literalOperand x ++ literalOperand y ++ d0Operand, pc := 0, level := 0,
    now := 0, inPF := 1, sfc := Plc.off.sfc, store := .off }

/-- A sum of the words or double words from `D0` on, with so many bytes between the operands. -/
def sumOfD0 (pad : List UInt8) (n : UInt8) (s : Store) : BodyInput :=
  { ucode := [0, 0] ++ d0Operand ++ pad ++ [0, 0xFF, n, 0] ++ d0Operand, pc := 0, level := 0,
    now := 0, inPF := 1, sfc := Plc.off.sfc, store := s }

theorem termsOfLiterals_terms (x y : BitVec 32) : DwordTerms x y (termsOfLiterals x y) := by
  obtain ⟨hxy, -⟩ := Ucode.codeAt_append.mp (Ucode.codeAt_self (u := (termsOfLiterals x y).ucode))
  obtain ⟨hx, hy⟩ := Ucode.codeAt_append.mp hxy
  exact ⟨getPowerFlow_one, dword_literal (Ucode.codeAt_append.mp hx).2, dword_literal hy⟩

def fiveInD0 : Store := Store.off.setWord (.elem .D) 0 5

def threeFromD0 : Store :=
  ((((Store.off.setWord (.elem .D) 0 0xFFFF).setWord (.elem .D) 1 0x7FFF).setWord (.elem .D) 2
    1).setWord (.elem .D) 4 0xFFFF).setWord (.elem .D) 5 0xFFFF

theorem sumOf_five : SumOf (sumOfD0 [] 2 fiveInD0) 6 (sumWord (sumOfD0 [] 2 fiveInD0)) sumFlag
    [5, 0] := ⟨rfl, rfl, rfl, rfl, trivial⟩

theorem sumOf_three : SumOf (sumOfD0 [0, 0] 3 threeFromD0) 8
    (dsumWord (sumOfD0 [0, 0] 3 threeFromD0)) dsumFlag [0x7FFFFFFF, 1, 0xFFFFFFFF] :=
  ⟨rfl, rfl, rfl, rfl, rfl, trivial⟩

end Kalyke
