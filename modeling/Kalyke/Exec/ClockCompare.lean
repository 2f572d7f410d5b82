-- SUMMARY: Comparisons of dates and times, and the day that is no date to them.
import Kalyke.Exec.Clock
import Kalyke.Lib.Calendar
import Mathlib.Tactic.IntervalCases

/-!
# Comparisons of Dates and Times

`DCMP` compares two dates and `TCMP` two times, which are three signed words each, field by field.
Both check the fields before. The test of `DCMP` for a leap year asks that 100 does not divide the
year and that 400 does: it finds none.
-/

namespace Kalyke

/-! ## The instructions -/

/-- The comparisons of dates and times. -/
inductive ClockComparison where
  | e | g | l | ne | le | ge
deriving DecidableEq, Repr

/-- Three signed fields. -/
structure ClockFields where
  high : Int
  middle : Int
  low : Int
deriving DecidableEq, Repr

namespace ClockComparison

def all : List ClockComparison := [e, g, l, ne, le, ge]

/-- The instruction that compares dates so. -/
def dcmp : ClockComparison → DataIns
  | e => .dcmpe
  | g => .dcmpg
  | l => .dcmpl
  | ne => .dcmpne
  | le => .dcmple
  | ge => .dcmpge

/-- The instruction that compares times so. -/
def tcmp : ClockComparison → DataIns
  | e => .tcmpe
  | g => .tcmpg
  | l => .tcmpl
  | ne => .tcmpne
  | le => .tcmple
  | ge => .tcmpge

/-- What is made of the result of the comparison of the fields. -/
def test (op : ClockComparison) (result : Int) : Bool :=
  match op with
  | e => result = 0
  | g => result = 1
  | l => result = -1
  | ne => result ≠ 0
  | le => result ≤ 0
  | ge => 0 ≤ result

/-- Whether two numbers compare so. -/
def compares (op : ClockComparison) (x y : Int) : Bool :=
  match op with
  | e => x = y
  | g => y < x
  | l => x < y
  | ne => x ≠ y
  | le => x ≤ y
  | ge => y ≤ x

end ClockComparison

namespace ClockFields

/-- What `get_word` has left of three words in a buffer. -/
def ofWords (junk : Nat → BitVec 16) (xs : List (BitVec 16)) : ClockFields :=
  ⟨(xs.getD 0 (junk 0)).toInt, (xs.getD 1 (junk 1)).toInt, (xs.getD 2 (junk 2)).toInt⟩

def compare (x y : ClockFields) : Int :=
  if x.high < y.high then -1
  else if y.high < x.high then 1
  else if x.middle < y.middle then -1
  else if y.middle < x.middle then 1
  else if x.low < y.low then -1
  else if y.low < x.low then 1
  else 0

/-- The months with 31 days. -/
def longMonth (month : Int) : Prop :=
  month = 1 ∨ month = 3 ∨ month = 5 ∨ month = 7 ∨ month = 8 ∨ month = 10 ∨ month = 12

/-- The months with 30 days. -/
def shortMonth (month : Int) : Prop := month = 4 ∨ month = 6 ∨ month = 9 ∨ month = 11

def leapTest (year : Int) : Prop :=
  year.tmod 4 = 0 ∧ year.tmod 100 ≠ 0 ∧ year.tmod 400 = 0

instance (month : Int) : Decidable (longMonth month) := inferInstanceAs (Decidable (_ ∨ _))

instance (month : Int) : Decidable (shortMonth month) := inferInstanceAs (Decidable (_ ∨ _))

instance (year : Int) : Decidable (leapTest year) := inferInstanceAs (Decidable (_ ∧ _))

/-- The days that a month is allowed. Other months are not checked again. -/
def lastDay (x : ClockFields) : Option Int :=
  if longMonth x.middle then some 31
  else if shortMonth x.middle then some 30
  else if x.middle = 2 then if leapTest x.high then some 29 else some 28
  else none

/-- The check of the month. -/
def MonthBeyond (x : ClockFields) : Prop := x.middle < 1 ∨ 12 < x.middle

/-- The check of the day. -/
def DayBeyond (x : ClockFields) : Prop := ∃ last ∈ x.lastDay, x.low < 1 ∨ last < x.low

/-- The check of a time. -/
def TimeBeyond (x : ClockFields) : Prop :=
  x.high < 0 ∨ 23 < x.high ∨ x.middle < 0 ∨ 59 < x.middle ∨ x.low < 0 ∨ 59 < x.low

instance (x : ClockFields) : Decidable x.MonthBeyond := inferInstanceAs (Decidable (_ ∨ _))

instance (x : ClockFields) : Decidable x.DayBeyond :=
  inferInstanceAs (Decidable (∃ last ∈ x.lastDay, _))

instance (x : ClockFields) : Decidable x.TimeBeyond := inferInstanceAs (Decidable (_ ∨ _))

end ClockFields

/-- What is in the variables of a comparison before: those for the words, and that for the bit. -/
structure CompareJunk where
  left : Nat → BitVec 16
  right : Nat → BitVec 16
  bit : Bool

/-- The two operands. -/
def compareTerms (junk : CompareJunk) (i : BodyInput) :
    Except PlcErr (ClockFields × ClockFields) := do
  let xs ← i.words 2 0 3 i.store
  let ys ← i.words 6 0 3 i.store
  return (.ofWords junk.left xs, .ofWords junk.right ys)

/-- The bit that the instruction code asks for. -/
def compareBit (junk : CompareJunk) (ins : ClockComparison → DataIns) (i : BodyInput)
    (x y : ClockFields) : Bool :=
  ((ClockComparison.all.find? fun op => (ins op).code == i.ucode.getPU16 i.pc).map fun op =>
    op.test (x.compare y)).getD junk.bit

def runCiDcmpIns (junk : CompareJunk) (i : BodyInput) : BodyResult :=
  runChecked i
    (do
      let (x, y) ← compareTerms junk i
      if x.MonthBeyond ∨ y.MonthBeyond then .error .operands
      else if x.DayBeyond then .error .operands
      else if y.DayBeyond then .error .operands
      else return compareBit junk ClockComparison.dcmp i x y)
    fun b s => i.saveChars (i.pc + 10) 0 [b] s

def runCiTcmpIns (junk : CompareJunk) (i : BodyInput) : BodyResult :=
  runChecked i
    (do
      let (x, y) ← compareTerms junk i
      if x.TimeBeyond ∨ y.TimeBeyond then .error .operands
      else return compareBit junk ClockComparison.tcmp i x y)
    fun b s => i.saveChars (i.pc + 10) 0 [b] s

/-! ## Laws -/

/-- Three words. -/
structure ThreeWords where
  high : BitVec 16
  middle : BitVec 16
  low : BitVec 16
deriving DecidableEq, Repr

namespace ThreeWords

def list (w : ThreeWords) : List (BitVec 16) := [w.high, w.middle, w.low]

def fields (w : ThreeWords) : ClockFields := ⟨w.high.toInt, w.middle.toInt, w.low.toInt⟩

def IsDate (w : ThreeWords) (d : Calendar.Date) : Prop :=
  w.high.toInt = d.year ∧ w.middle.toInt = d.month ∧ w.low.toInt = d.day

def IsTime (w : ThreeWords) (t : TimeOfDay) : Prop :=
  w.high.toInt = t.hour ∧ w.middle.toInt = t.minute ∧ w.low.toInt = t.second

end ThreeWords

namespace BodyInput

/-- What an instruction leaves that ends with `save_char` of one bit. -/
def storedBit (i : BodyInput) (b : Bool) : BodyResult :=
  ((i.saveChars (i.pc + 10) 0 [b] i.store).1, i.inPF, (i.saveChars (i.pc + 10) 0 [b] i.store).2)

end BodyInput

/-- A comparison with power flow and its operands. -/
structure CompareTerms (ins : DataIns) (v w : ThreeWords) (i : BodyInput) : Prop where
  power : getPowerFlow i.inPF = true
  code : i.ucode.getPU16 i.pc = ins.code
  left : i.words 2 0 3 i.store = .ok v.list
  right : i.words 6 0 3 i.store = .ok w.list

/-- The bit tells how the days of two dates compare, and what is no date is refused. -/
def DcmpRight (op : ClockComparison) (v w : ThreeWords) (i : BodyInput) (r : BodyResult) : Prop :=
  (∀ d e, v.IsDate d → w.IsDate e → r = i.storedBit (op.compares d.number e.number)) ∧
    (¬ ((∃ d, v.IsDate d) ∧ ∃ e, w.IsDate e) → r = i.refused)

/-- The bit tells how the seconds of two times compare, and what is no time is refused. -/
def TcmpRight (op : ClockComparison) (v w : ThreeWords) (i : BodyInput) (r : BodyResult) : Prop :=
  (∀ t u, v.IsTime t → w.IsTime u → r = i.storedBit (op.compares t.seconds u.seconds)) ∧
    (¬ ((∃ t, v.IsTime t) ∧ ∃ u, w.IsTime u) → r = i.refused)

/-! ## The comparison of the fields -/

namespace ClockFields

/-- The order of the fields, the high ones first. -/
def Before (x y : ClockFields) : Prop :=
  x.high < y.high ∨ x.high = y.high ∧
    (x.middle < y.middle ∨ x.middle = y.middle ∧ x.low < y.low)

variable {x y : ClockFields} {a b : Int}

/-- The result of the comparison is that of numbers in the order of the fields. -/
theorem compare_cases (hlt : a < b ↔ x.Before y) (hgt : b < a ↔ y.Before x) :
    x.compare y = -1 ∧ a < b ∨ x.compare y = 1 ∧ b < a ∨ x.compare y = 0 ∧ a = b := by
  unfold Before at hlt hgt
  unfold compare
  split
  · exact .inl ⟨rfl, by omega⟩
  split
  · exact .inr (.inl ⟨rfl, by omega⟩)
  split
  · exact .inl ⟨rfl, by omega⟩
  split
  · exact .inr (.inl ⟨rfl, by omega⟩)
  split
  · exact .inl ⟨rfl, by omega⟩
  split
  · exact .inr (.inl ⟨rfl, by omega⟩)
  · exact .inr (.inr ⟨rfl, by omega⟩)

theorem test_compare (op : ClockComparison) (hlt : a < b ↔ x.Before y) (hgt : b < a ↔ y.Before x) :
    op.test (x.compare y) = op.compares a b := by
  rcases compare_cases hlt hgt with ⟨hresult, hab⟩ | ⟨hresult, hab⟩ | ⟨hresult, hab⟩ <;>
    cases op <;> exact decide_eq_decide.mpr (by omega)

end ClockFields

/-! ## Dates and times in words -/

section

variable {v w : ThreeWords} {d e : Calendar.Date} {t u : TimeOfDay}

theorem isDate_unique (h : v.IsDate d) (h' : v.IsDate e) : d = e := by
  obtain ⟨hyear, hmonth, hday⟩ := h
  obtain ⟨hyear', hmonth', hday'⟩ := h'
  obtain ⟨year, month, day, _, _, _, _⟩ := d
  obtain ⟨year', month', day', _, _, _, _⟩ := e
  simp only at hyear hmonth hday hyear' hmonth' hday'
  obtain rfl : year = year' := by omega
  obtain rfl : month = month' := by omega
  obtain rfl : day = day' := by omega
  rfl

theorem dates_before (hd : v.IsDate d) (he : w.IsDate e) :
    d.number < e.number ↔ v.fields.Before w.fields := by
  obtain ⟨hyear, hmonth, hday⟩ := hd
  obtain ⟨hyear', hmonth', hday'⟩ := he
  rw [Calendar.Date.number_lt_iff]
  unfold ClockFields.Before ThreeWords.fields
  simp only [hmonth]
  omega

theorem times_before (ht : v.IsTime t) (hu : w.IsTime u) :
    (t.seconds : Int) < u.seconds ↔ v.fields.Before w.fields := by
  obtain ⟨hhour, hminute, hsecond⟩ := ht
  obtain ⟨hhour', hminute', hsecond'⟩ := hu
  rw [Int.ofNat_lt, TimeOfDay.seconds_lt_iff]
  unfold ClockFields.Before ThreeWords.fields
  simp only [hhour]
  omega

theorem not_leapTest (year : Int) : ¬ ClockFields.leapTest year := by
  rintro ⟨-, hhundred, hfour⟩
  have hdvd : (400 : Int) ∣ year := Int.dvd_of_tmod_eq_zero hfour
  exact hhundred (Int.tmod_eq_zero_of_dvd (dvd_trans (by decide) hdvd))

theorem lastDay_eq {x : ClockFields} {m : Nat} (hm : x.middle = m) (hpos : 1 ≤ m)
    (hle : m ≤ 12) :
    x.lastDay = some (if m = 2 then 28 else (Calendar.monthLength x.high m : Int)) := by
  unfold ClockFields.lastDay ClockFields.longMonth ClockFields.shortMonth
  rw [hm, if_neg (not_leapTest x.high)]
  interval_cases m <;> rfl

theorem passes_iff : ¬ v.fields.MonthBeyond ∧ ¬ v.fields.DayBeyond ↔
    ∃ d, v.IsDate d ∧ ¬ d.IsLeapDay := by
  constructor
  · rintro ⟨hmonth, hday⟩
    unfold ClockFields.MonthBeyond ThreeWords.fields at hmonth
    dsimp only at hmonth
    obtain ⟨m, hm⟩ := Int.eq_ofNat_of_zero_le (a := v.middle.toInt) (by omega)
    have hlast := lastDay_eq (x := v.fields) hm (by omega) (by omega)
    unfold ClockFields.DayBeyond at hday
    rw [hlast] at hday
    simp only [Option.mem_some_iff, exists_eq_left'] at hday
    change ¬ (v.low.toInt < 1 ∨ _ < v.low.toInt) at hday
    obtain ⟨k, hk⟩ := Int.eq_ofNat_of_zero_le (a := v.low.toInt) (by omega)
    have hlength : k ≤ Calendar.monthLength v.high.toInt m ∧ ¬ (m = 2 ∧ k = 29) := by
      change ¬ (v.low.toInt < 1 ∨
        (if m = 2 then 28 else (Calendar.monthLength v.high.toInt m : Int)) < v.low.toInt) at hday
      split at hday
      · rename_i htwo
        have hfeb : 28 ≤ Calendar.monthLength v.high.toInt m := by
          unfold Calendar.monthLength
          rw [if_pos htwo]
          split <;> decide
        omega
      · omega
    exact ⟨⟨v.high.toInt, m, k, by omega, by omega, by omega, hlength.1⟩, ⟨rfl, hm, hk⟩,
      hlength.2⟩
  · rintro ⟨d, ⟨hyear, hmonth, hday⟩, hleap⟩
    have hpos := d.month_pos
    have hle := d.month_le
    have hpos' := d.day_pos
    have hle' := d.day_le
    refine ⟨?_, ?_⟩
    · unfold ClockFields.MonthBeyond ThreeWords.fields
      dsimp only
      omega
    · have hlast := lastDay_eq (x := v.fields) hmonth hpos hle
      unfold ClockFields.DayBeyond
      rw [hlast]
      simp only [Option.mem_some_iff, exists_eq_left']
      change ¬ (v.low.toInt < 1 ∨
        (if d.month = 2 then 28 else (Calendar.monthLength v.high.toInt d.month : Int)) <
          v.low.toInt)
      rw [hyear]
      split
      · rename_i htwo
        have hfeb : Calendar.monthLength d.year d.month ≤ 29 := by
          unfold Calendar.monthLength
          rw [if_pos htwo]
          split <;> decide
        unfold Calendar.Date.IsLeapDay at hleap
        omega
      · omega

theorem inTime_iff : ¬ v.fields.TimeBeyond ↔ ∃ t, v.IsTime t := by
  constructor
  · intro h
    unfold ClockFields.TimeBeyond ThreeWords.fields at h
    dsimp only at h
    refine ⟨⟨v.high.toInt.toNat, v.middle.toInt.toNat, v.low.toInt.toNat, ?_, ?_, ?_⟩, ?_, ?_, ?_⟩
    · omega
    · omega
    · omega
    · show _ = ((v.high.toInt.toNat : Nat) : Int)
      omega
    · show _ = ((v.middle.toInt.toNat : Nat) : Int)
      omega
    · show _ = ((v.low.toInt.toNat : Nat) : Int)
      omega
  · rintro ⟨t, hhour, hminute, hsecond⟩
    have hlt := t.hour_lt
    have hlt' := t.minute_lt
    have hlt'' := t.second_lt
    unfold ClockFields.TimeBeyond ThreeWords.fields
    dsimp only
    omega

end

/-! ## The instructions together -/

section

variable {v w : ThreeWords} {i : BodyInput} {op : ClockComparison} {junk : CompareJunk}
  {ins : DataIns}

theorem compareTerms_eq (h : CompareTerms ins v w i) :
    compareTerms junk i = .ok (v.fields, w.fields) := by
  simp only [compareTerms, h.left, h.right]
  rfl

theorem dcmpBit_eq {x y : ClockFields} (h : CompareTerms op.dcmp v w i) :
    compareBit junk ClockComparison.dcmp i x y = op.test (x.compare y) := by
  unfold compareBit
  rw [h.code]
  cases op <;> rfl

theorem tcmpBit_eq {x y : ClockFields} (h : CompareTerms op.tcmp v w i) :
    compareBit junk ClockComparison.tcmp i x y = op.test (x.compare y) := by
  unfold compareBit
  rw [h.code]
  cases op <;> rfl

theorem dcmp_of_passes (h : CompareTerms op.dcmp v w i)
    (hv : ¬ v.fields.MonthBeyond ∧ ¬ v.fields.DayBeyond)
    (hw : ¬ w.fields.MonthBeyond ∧ ¬ w.fields.DayBeyond) :
    runCiDcmpIns junk i = i.storedBit (op.test (v.fields.compare w.fields)) := by
  have hmonths : ¬ (v.fields.MonthBeyond ∨ w.fields.MonthBeyond) := not_or.mpr ⟨hv.1, hw.1⟩
  unfold runCiDcmpIns
  rw [compareTerms_eq h]
  refine runChecked_eq h.power ?_
  change (if v.fields.MonthBeyond ∨ w.fields.MonthBeyond then _ else if v.fields.DayBeyond then _
    else if w.fields.DayBeyond then _ else _) = _
  rw [if_neg hmonths, if_neg hv.2, if_neg hw.2, dcmpBit_eq h]
  rfl

theorem dcmp_of_not_passes (h : CompareTerms op.dcmp v w i)
    (hnot : ¬ ((¬ v.fields.MonthBeyond ∧ ¬ v.fields.DayBeyond) ∧
      ¬ w.fields.MonthBeyond ∧ ¬ w.fields.DayBeyond)) :
    runCiDcmpIns junk i = i.refused := by
  have hchecked : (if v.fields.MonthBeyond ∨ w.fields.MonthBeyond then .error .operands
      else if v.fields.DayBeyond then .error .operands
      else if w.fields.DayBeyond then .error .operands
      else (.ok (compareBit junk ClockComparison.dcmp i v.fields w.fields) :
        Except PlcErr Bool)) = .error .operands := by
    split
    · rfl
    split
    · rfl
    split
    · rfl
    · rename_i hmonths hv hw
      obtain ⟨hmonth, hmonth'⟩ := not_or.mp hmonths
      exact absurd ⟨⟨hmonth, hv⟩, hmonth', hw⟩ hnot
  unfold runCiDcmpIns
  rw [compareTerms_eq h]
  exact runChecked_error h.power hchecked

theorem tcmp_right (h : CompareTerms op.tcmp v w i) :
    TcmpRight op v w i (runCiTcmpIns junk i) := by
  have hrun : runCiTcmpIns junk i = runChecked i
      (if v.fields.TimeBeyond ∨ w.fields.TimeBeyond then .error .operands
      else .ok (compareBit junk ClockComparison.tcmp i v.fields w.fields))
      fun b s => i.saveChars (i.pc + 10) 0 [b] s := by
    unfold runCiTcmpIns
    rw [compareTerms_eq h]
    rfl
  rw [hrun]
  refine ⟨fun t u ht hu => ?_, fun hnot => ?_⟩
  · have hpass : ¬ (v.fields.TimeBeyond ∨ w.fields.TimeBeyond) :=
      not_or.mpr ⟨inTime_iff.mpr ⟨t, ht⟩, inTime_iff.mpr ⟨u, hu⟩⟩
    rw [if_neg hpass, tcmpBit_eq h, ClockFields.test_compare op (times_before ht hu)
      (times_before hu ht)]
    exact runChecked_eq h.power rfl
  · have hbeyond : v.fields.TimeBeyond ∨ w.fields.TimeBeyond := by
      by_contra hpass
      obtain ⟨hv, hw⟩ := not_or.mp hpass
      exact hnot ⟨inTime_iff.mp hv, inTime_iff.mp hw⟩
    rw [if_pos hbeyond]
    exact runChecked_error h.power rfl

theorem dcmp_right_of_passes (h : CompareTerms op.dcmp v w i)
    (hleap : ∀ d e, v.IsDate d → w.IsDate e → ¬ d.IsLeapDay ∧ ¬ e.IsLeapDay) :
    DcmpRight op v w i (runCiDcmpIns junk i) := by
  refine ⟨fun d e hd he => ?_, fun hnot => ?_⟩
  · obtain ⟨hdleap, heleap⟩ := hleap d e hd he
    rw [dcmp_of_passes h (passes_iff.mpr ⟨d, hd, hdleap⟩) (passes_iff.mpr ⟨e, he, heleap⟩),
      ClockFields.test_compare op (dates_before hd he) (dates_before he hd)]
  · refine dcmp_of_not_passes h fun ⟨hv, hw⟩ => hnot ?_
    obtain ⟨d, hd, -⟩ := passes_iff.mp hv
    obtain ⟨e, he, -⟩ := passes_iff.mp hw
    exact ⟨⟨d, hd⟩, e, he⟩

end

def dateEqToM0 (v w : ThreeWords) : BodyInput :=
  { ucode := [0xFC, 0xF0] ++ rOperand 0 ++ rOperand 3 ++ [0, 0x05, 0, 0],
    pc := 0, level := 0, now := 0, inPF := 1, sfc := Plc.off.sfc,
    store := { Store.off with
      word := Function.update Store.off.word .R fun k => (v.list ++ w.list).getD k 0 } }

theorem dateEqToM0_terms (v w : ThreeWords) :
    CompareTerms ClockComparison.e.dcmp v w (dateEqToM0 v w) where
  power := getPowerFlow_one
  code := by
    change (0xFC : UInt8).toNat + 256 * (0xF0 : UInt8).toNat = 0xF0FC
    decide
  left := rfl
  right := rfl

theorem dateEqToM0_stored {v w : ThreeWords} {b : Bool} :
    ((dateEqToM0 v w).storedBit b).1 = .ok () := rfl

theorem not_leapDay_of_right {v w : ThreeWords} {d e : Calendar.Date} {junk : CompareJunk}
    (h : DcmpRight .e v w (dateEqToM0 v w) (runCiDcmpIns junk (dateEqToM0 v w)))
    (hd : v.IsDate d) (he : w.IsDate e) : ¬ d.IsLeapDay ∧ ¬ e.IsLeapDay := by
  by_contra hleap
  have hnot : ¬ ((¬ v.fields.MonthBeyond ∧ ¬ v.fields.DayBeyond) ∧
      ¬ w.fields.MonthBeyond ∧ ¬ w.fields.DayBeyond) := by
    rintro ⟨hv, hw⟩
    obtain ⟨d', hd', hdleap⟩ := passes_iff.mp hv
    obtain ⟨e', he', heleap⟩ := passes_iff.mp hw
    rw [isDate_unique hd hd', isDate_unique he he'] at hleap
    exact hleap ⟨hdleap, heleap⟩
  have hrefused : runCiDcmpIns junk (dateEqToM0 v w) = (dateEqToM0 v w).refused :=
    dcmp_of_not_passes (dateEqToM0_terms v w) hnot
  have hstored := congrArg Prod.fst (hrefused.symm.trans (h.1 d e hd he))
  rw [dateEqToM0_stored] at hstored
  cases hstored

/-- `TCMP` orders times as their seconds do, and `DCMP` dates as their days do, if neither is a leap
day. Both are the lexicographic orders. -/
theorem compare_right_iff (v w : ThreeWords) :
    ((∀ op junk i, CompareTerms (ClockComparison.dcmp op) v w i →
        DcmpRight op v w i (runCiDcmpIns junk i)) ↔
      ∀ d e, v.IsDate d → w.IsDate e → ¬ d.IsLeapDay ∧ ¬ e.IsLeapDay) ∧
    (∀ op junk i, CompareTerms (ClockComparison.tcmp op) v w i →
      TcmpRight op v w i (runCiTcmpIns junk i)) ∧
    (∀ d e : Calendar.Date, d.number < e.number ↔ d.lex < e.lex) ∧
    ∀ t u : TimeOfDay, t.seconds < u.seconds ↔ t.lex < u.lex := by
  refine ⟨⟨fun h d e hd he => ?_, fun h op junk i hi => dcmp_right_of_passes hi h⟩,
    fun op junk i hi => tcmp_right hi, fun d e => Calendar.Date.number_lt_iff_lex,
    fun t u => TimeOfDay.seconds_lt_iff_lex⟩
  exact not_leapDay_of_right (h .e ⟨fun _ => 0, fun _ => 0, false⟩ _ (dateEqToM0_terms v w)) hd
    he

def leapDay2020 : Calendar.Date := ⟨2020, 2, 29, by decide, by decide, by decide, by decide⟩

/-- It is refused. -/
theorem leapDay_refused : ¬ ∀ (v w : ThreeWords) (op : ClockComparison) (junk : CompareJunk)
    (i : BodyInput), CompareTerms op.dcmp v w i → DcmpRight op v w i (runCiDcmpIns junk i) := by
  intro h
  have hright := h ⟨2020, 2, 29⟩ ⟨2020, 2, 29⟩ .e ⟨fun _ => 0, fun _ => 0, false⟩ _
    (dateEqToM0_terms _ _)
  have hdate : ThreeWords.IsDate ⟨2020, 2, 29⟩ leapDay2020 := ⟨by decide, by decide, by decide⟩
  exact (not_leapDay_of_right hright hdate hdate).1 ⟨rfl, rfl⟩

end Kalyke
