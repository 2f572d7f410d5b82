-- SUMMARY: Sums and differences of times of day, and when their digits and special bits are right.
import Kalyke.Exec.Arithmetic
import Kalyke.Lib.TimeOfDay

/-!
# Clock Arithmetic

A time is three words: hours, minutes and seconds. `TADD` and `TSUB` take the digits one after the
other, from the seconds on, each with the carry of the one before. A sum of exactly 60 is not
carried, nor is a minute or a second of 60 refused. `TSUB` borrows from the hours whenever the
difference of the minutes is below 60, which it always is. `SM180` is switched on if any of the
three digits is zero.
-/

namespace Kalyke

open BitVec

/-! ## The instructions -/

/-- The words of a time. -/
structure ClockWords where
  hour : BitVec 16
  minute : BitVec 16
  second : BitVec 16
deriving DecidableEq, Repr

namespace ClockWords

def list (w : ClockWords) : List (BitVec 16) := [w.hour, w.minute, w.second]

def ofTime (t : TimeOfDay) : ClockWords :=
  ⟨BitVec.ofNat 16 t.hour, BitVec.ofNat 16 t.minute, BitVec.ofNat 16 t.second⟩

/-- The words are those of a time of day. -/
def Valid (w : ClockWords) : Prop := w.hour < 24 ∧ w.minute < 60 ∧ w.second < 60

/-- What the instructions refuse. -/
def Beyond (w : ClockWords) : Prop := 23 < w.hour ∨ 60 < w.minute ∨ 60 < w.second

/-- The test for a result of zero. -/
def SomeZero (w : ClockWords) : Prop := w.hour = 0 ∨ w.minute = 0 ∨ w.second = 0

instance (w : ClockWords) : Decidable w.Valid := inferInstanceAs (Decidable (_ ∧ _))

instance (w : ClockWords) : Decidable w.Beyond := inferInstanceAs (Decidable (_ ∨ _))

instance (w : ClockWords) : Decidable w.SomeZero := inferInstanceAs (Decidable (_ ∨ _))

end ClockWords

/-- A digit of each operand, checked against a limit. -/
def clockPair (i : BodyInput) (k : Nat) (limit : BitVec 16) (s : Store) :
    Except PlcErr (BitVec 16 × BitVec 16) := do
  let x ← i.word 2 k s
  let y ← i.word 6 k s
  if limit < x ∨ limit < y then .error .operands else return (x, y)

/-- The two operands, from the seconds on. -/
def clockTerms (i : BodyInput) (s : Store) : Except PlcErr (ClockWords × ClockWords) := do
  let second ← clockPair i 2 60 s
  let minute ← clockPair i 1 60 s
  let hour ← clockPair i 0 23 s
  return (⟨hour.1, minute.1, second.1⟩, ⟨hour.2, minute.2, second.2⟩)

/-- A digit of a sum, and whether it carries. -/
def taddDigit (limit base sum : BitVec 16) : BitVec 16 × Bool :=
  if limit < sum then (sum - base, true) else (sum, false)

/-- What `TADD` makes of two times, and whether it is too large. -/
def taddTime (a b : ClockWords) : ClockWords × Bool :=
  let second := taddDigit 60 60 (a.second + b.second)
  let minute := taddDigit 60 60 (BitVec.ofNat 16 second.2.toNat + (a.minute + b.minute))
  let hour := taddDigit 23 24 (BitVec.ofNat 16 minute.2.toNat + (a.hour + b.hour))
  (⟨hour.1, minute.1, second.1⟩, hour.2)

/-- A digit of a difference, and whether it borrows. -/
def tsubDigit (limit : Int) (base diff : BitVec 16) : BitVec 16 × Bool :=
  if diff.toInt < limit then (diff + base, true) else (diff, false)

/-- What `TSUB` makes of two times, and whether it is too small. -/
def tsubTime (a b : ClockWords) : ClockWords × Bool :=
  let second := tsubDigit 0 60 (a.second - b.second)
  let minute := tsubDigit 60 60 (a.minute - b.minute - BitVec.ofNat 16 second.2.toNat)
  let hour := tsubDigit 0 24 (a.hour - b.hour - BitVec.ofNat 16 minute.2.toNat)
  (⟨hour.1, minute.1, second.1⟩, hour.2)

/-- An instruction on times. -/
inductive ClockOp where
  | tadd
  | tsub
deriving DecidableEq, Repr

namespace ClockOp

/-- The special bit for a result that leaves the day. -/
def flag : ClockOp → Nat
  | tadd => 181
  | tsub => 182

def time : ClockOp → ClockWords → ClockWords → ClockWords × Bool
  | tadd => taddTime
  | tsub => tsubTime

/-- The elements with the special bits of the instruction switched off. -/
def cleared (op : ClockOp) (s : Store) : Store :=
  (s.setBit (.elem .SM) 180 false).setBit (.elem .SM) op.flag false

/-- The special bits for a result. -/
def flagged (op : ClockOp) (r : ClockWords × Bool) (s : Store) : Store :=
  let s := if r.2 then setFlag op.flag s else s
  if r.1.SomeZero then setFlag 180 s else s

/-- The instruction. -/
def run (op : ClockOp) (i : BodyInput) : BodyResult :=
  if getPowerFlow i.inPF then
    let s := op.cleared i.store
    match clockTerms i s with
    | .error e => (.error e, i.inPF, s)
    | .ok (a, b) =>
      let r := op.time a b
      i.storedWords 10 r.1.list (op.flagged r s)
  else (.ok (), i.inPF, i.store)

end ClockOp

def runCiTaddIns : BodyInput → BodyResult := ClockOp.tadd.run

def runCiTsubIns : BodyInput → BodyResult := ClockOp.tsub.run

/-! ## Laws -/

namespace ClockOp

/-- The body of the instruction. -/
def body : ClockOp → BodyInput → BodyResult
  | tadd => runCiTaddIns
  | tsub => runCiTsubIns

def exact : ClockOp → TimeOfDay → TimeOfDay → Int
  | tadd, t, u => t.seconds + u.seconds
  | tsub, t, u => t.seconds - u.seconds

end ClockOp

/-- An instruction with power flow on two times, as it reads them. -/
structure ClockTerms (op : ClockOp) (a b : ClockWords) (i : BodyInput) : Prop where
  power : getPowerFlow i.inPF = true
  hours : i.word 2 0 (op.cleared i.store) = .ok a.hour
  minutes : i.word 2 1 (op.cleared i.store) = .ok a.minute
  seconds : i.word 2 2 (op.cleared i.store) = .ok a.second
  hours' : i.word 6 0 (op.cleared i.store) = .ok b.hour
  minutes' : i.word 6 1 (op.cleared i.store) = .ok b.minute
  seconds' : i.word 6 2 (op.cleared i.store) = .ok b.second

/-- An instruction stores a time, and but for that it changes the special bits only. -/
def StoresTime (i : BodyInput) (t : TimeOfDay) (r : BodyResult) : Prop :=
  ∃ s, ChangesOnly IsFlag i.store s ∧ r = i.storedWords 10 (ClockWords.ofTime t).list s

namespace ClockOp

variable (op : ClockOp) (a b : ClockWords)

/-- For two times of day the exact result modulo a day is stored. The special bits tell whether the
exact result is outside of the day, and whether the stored one is midnight. -/
def Tells (t u : TimeOfDay) (i : BodyInput) (r : BodyResult) : Prop :=
  StoresTime i (.ofSeconds (op.exact t u)) r ∧
    (r.2.2.getBit (.elem .SM) op.flag = true ↔ op.exact t u < 0 ∨ 86400 ≤ op.exact t u) ∧
      (r.2.2.getBit (.elem .SM) 180 = true ↔ TimeOfDay.ofSeconds (op.exact t u) = .ofSeconds 0)

/-- The instruction tells, and other operands are refused, without storing anything. -/
def Right (i : BodyInput) : Prop :=
  (∀ t u, a = .ofTime t → b = .ofTime u → op.Tells t u i (op.body i)) ∧
    (¬ (a.Valid ∧ b.Valid) →
      (op.body i).1 = .error .operands ∧ ChangesOnly IsFlag i.store (op.body i).2.2)

/-- No sum of the seconds, or of the minutes with what the seconds carry, is 60. The minutes of a
difference borrow. -/
def Carries : ClockOp → TimeOfDay → TimeOfDay → Prop
  | tadd, t, u => t.second + u.second ≠ 60 ∧
      t.minute + u.minute + (if 60 ≤ t.second + u.second then 1 else 0) ≠ 60
  | tsub, t, u => t.minute < u.minute + (if t.second < u.second then 1 else 0)

/-- If one of the three digits of a time is zero, they all are. -/
def ZeroTogether (t : TimeOfDay) : Prop :=
  t.hour = 0 ∨ t.minute = 0 ∨ t.second = 0 → t = .ofSeconds 0

/-- For times of day, the digits of the result carry or borrow as they should and are zero together.
In others, a minute or a second is above 60, or an hour above 23. -/
def Holds : Prop :=
  (∀ t u, a = .ofTime t → b = .ofTime u →
    op.Carries t u ∧ ZeroTogether (.ofSeconds (op.exact t u))) ∧
    (¬ (a.Valid ∧ b.Valid) → a.Beyond ∨ b.Beyond)

end ClockOp

def TakesBack (t u : TimeOfDay) : Prop :=
  ∀ i, ClockTerms .tsub (taddTime (.ofTime t) (.ofTime u)).1 (.ofTime u) i →
    StoresTime i t (runCiTsubIns i)

/-! ## Reading the operands -/

namespace ClockWords

variable {w : ClockWords} {t u : TimeOfDay}

theorem ofTime_toNat (t : TimeOfDay) : (ofTime t).hour.toNat = t.hour ∧
    (ofTime t).minute.toNat = t.minute ∧ (ofTime t).second.toNat = t.second := by
  refine ⟨Nat.mod_eq_of_lt (t.hour_lt.trans ?_), Nat.mod_eq_of_lt (t.minute_lt.trans ?_),
    Nat.mod_eq_of_lt (t.second_lt.trans ?_)⟩ <;> decide

theorem ofTime_injective (h : ofTime t = ofTime u) : t = u := by
  obtain ⟨hh, hm, hs⟩ := ofTime_toNat t
  obtain ⟨hh', hm', hs'⟩ := ofTime_toNat u
  rw [h] at hh hm hs
  ext <;> omega

theorem valid_ofTime (t : TimeOfDay) : (ofTime t).Valid := by
  obtain ⟨hh, hm, hs⟩ := ofTime_toNat t
  refine ⟨lt_def.mpr ?_, lt_def.mpr ?_, lt_def.mpr ?_⟩
  · rw [hh]
    exact t.hour_lt
  · rw [hm]
    exact t.minute_lt
  · rw [hs]
    exact t.second_lt

theorem exists_ofTime (h : w.Valid) : ∃ t, w = ofTime t := by
  obtain ⟨hh, hm, hs⟩ := h
  refine ⟨⟨w.hour.toNat, w.minute.toNat, w.second.toNat, hh, hm, hs⟩, ?_⟩
  simp only [ofTime, ofNat_toNat, setWidth_eq]

theorem not_beyond_of_valid (h : w.Valid) : ¬ w.Beyond := by
  obtain ⟨hh, hm, hs⟩ := h
  unfold Beyond
  bv_omega

end ClockWords

section

variable {i : BodyInput} {s : Store} {k : Nat} {limit x y : BitVec 16} {op : ClockOp}
  {a b : ClockWords}

theorem clockPair_eq (hx : i.word 2 k s = .ok x) (hy : i.word 6 k s = .ok y) :
    clockPair i k limit s = if limit < x ∨ limit < y then .error .operands else .ok (x, y) := by
  simp only [clockPair, hx, hy]
  rfl

/-- Whichever digit is refused, the error is the same. -/
theorem clockTerms_eq (h : ClockTerms op a b i) :
    clockTerms i (op.cleared i.store) =
      if a.Beyond ∨ b.Beyond then .error .operands else .ok (a, b) := by
  unfold clockTerms
  rw [clockPair_eq h.seconds h.seconds', clockPair_eq h.minutes h.minutes',
    clockPair_eq h.hours h.hours']
  by_cases hsecond : 60 < a.second ∨ 60 < b.second
  · have hbeyond : a.Beyond ∨ b.Beyond := hsecond.imp (.inr ∘ .inr) (.inr ∘ .inr)
    rw [if_pos hsecond, if_pos hbeyond]
    rfl
  by_cases hminute : 60 < a.minute ∨ 60 < b.minute
  · have hbeyond : a.Beyond ∨ b.Beyond := hminute.imp (.inr ∘ .inl) (.inr ∘ .inl)
    rw [if_neg hsecond, if_pos hminute, if_pos hbeyond]
    rfl
  by_cases hhour : 23 < a.hour ∨ 23 < b.hour
  · have hbeyond : a.Beyond ∨ b.Beyond := hhour.imp .inl .inl
    rw [if_neg hsecond, if_neg hminute, if_pos hhour, if_pos hbeyond]
    rfl
  · have hnot : ¬ (a.Beyond ∨ b.Beyond) := by
      unfold ClockWords.Beyond
      tauto
    rw [if_neg hsecond, if_neg hminute, if_neg hhour, if_neg hnot]
    rfl

theorem run_of_beyond (h : ClockTerms op a b i) (hbeyond : a.Beyond ∨ b.Beyond) :
    op.run i = (.error .operands, i.inPF, op.cleared i.store) := by
  simp only [ClockOp.run, h.power, if_true, clockTerms_eq h, if_pos hbeyond]

theorem run_of_not_beyond (h : ClockTerms op a b i) (hnot : ¬ (a.Beyond ∨ b.Beyond)) :
    op.run i = i.storedWords 10 (op.time a b).1.list
      (op.flagged (op.time a b) (op.cleared i.store)) := by
  simp only [ClockOp.run, h.power, if_true, clockTerms_eq h, if_neg hnot]

theorem body_eq : op.body i = op.run i := by cases op <;> rfl

/-! ## The special bits of an instruction -/

theorem cleared_changesOnly : ChangesOnly IsFlag s (op.cleared s) := by
  refine (changesOnly_setFlag (.inl rfl) false).trans (changesOnly_setFlag ?_ false)
  cases op with
  | tadd => exact .inr (.inl rfl)
  | tsub => exact .inr (.inr rfl)

theorem flag_ne : op.flag ≠ 180 := by cases op <;> decide

theorem flagged_changesOnly (r : ClockWords × Bool) : ChangesOnly IsFlag s (op.flagged r s) := by
  have hflag : IsFlag (.bit .SM op.flag) := by
    cases op with
    | tadd => exact .inr (.inl rfl)
    | tsub => exact .inr (.inr rfl)
  unfold ClockOp.flagged
  dsimp only
  have hfirst : ChangesOnly IsFlag s (if r.2 = true then setFlag op.flag s else s) := by
    split
    · exact changesOnly_setFlag hflag true
    · exact changesOnly_refl
  split
  · exact hfirst.trans (changesOnly_setFlag (.inl rfl) true)
  · exact hfirst

theorem flagged_flag (r : ClockWords × Bool) :
    (op.flagged r (op.cleared s)).getBit (.elem .SM) op.flag = r.2 := by
  have hoff : (op.cleared s).getBit (.elem .SM) op.flag = false := getBit_setBit_self ..
  unfold ClockOp.flagged
  dsimp only
  split
  · rw [setFlag, getBit_setBit_of_ne flag_ne]
    split
    · rename_i hset
      rw [getBit_setFlag, if_pos rfl, hset]
    · rename_i hno
      rw [hoff, Bool.eq_false_iff.mpr hno]
  · split
    · rename_i hset
      rw [getBit_setFlag, if_pos rfl, hset]
    · rename_i hno
      rw [hoff, Bool.eq_false_iff.mpr hno]

theorem flagged_zero (r : ClockWords × Bool) :
    (op.flagged r (op.cleared s)).getBit (.elem .SM) 180 = true ↔ r.1.SomeZero := by
  have hoff : (op.cleared s).getBit (.elem .SM) 180 = false := by
    rw [ClockOp.cleared, getBit_setBit_of_ne flag_ne.symm]
    exact getBit_setBit_self ..
  unfold ClockOp.flagged
  dsimp only
  split
  · rename_i hzero
    exact iff_of_true (getBit_setBit_self ..) hzero
  · rename_i hno
    refine iff_of_false ?_ hno
    split
    · rw [setFlag, getBit_setBit_of_ne flag_ne.symm, hoff]
      exact Bool.false_ne_true
    · rw [hoff]
      exact Bool.false_ne_true

theorem storedWords_getBit {q n : Nat} {xs : List (BitVec 16)} :
    (i.storedWords q xs s).2.2.getBit (.elem .SM) n = s.getBit (.elem .SM) n :=
  congrFun saveWords_sm n

end

/-! ## Digits of sums and differences -/

section

variable {sum diff x y : BitVec 16} {n : Nat} {d : Int}

theorem toNat_of_toInt (h : x.toInt = d) (hd : 0 ≤ d) : (x.toNat : Int) = d := by
  have hcond := x.toInt_eq_toNat_cond
  split at hcond <;> omega

theorem taddDigit_spec (limit base : BitVec 16) (h : sum.toNat = n)
    (hbase : base.toNat ≤ limit.toNat + 1) :
    (taddDigit limit base sum).1.toNat + base.toNat * (taddDigit limit base sum).2.toNat = n ∧
      ((taddDigit limit base sum).2.toNat = 1 ↔ limit.toNat < n) := by
  unfold taddDigit
  by_cases hcarry : limit < sum
  · have hlt := lt_def.mp hcarry
    have hle : base ≤ sum := le_def.mpr (by omega)
    rw [if_pos hcarry]
    refine ⟨?_, iff_of_true rfl (h ▸ hlt)⟩
    show (sum - base).toNat + base.toNat * 1 = n
    rw [toNat_sub_of_le hle]
    omega
  · have hle := mt lt_def.mpr hcarry
    rw [if_neg hcarry]
    exact ⟨h, iff_of_false Nat.zero_ne_one (h ▸ hle)⟩

theorem tsubDigit_spec (bound : Int) (base : BitVec 16) (h : diff.toInt = d) (hlow : -1000 ≤ d)
    (hhigh : d ≤ 1000) (hbase : base.toNat ≤ 1000) :
    (tsubDigit bound base diff).1.toInt =
        d + base.toNat * (tsubDigit bound base diff).2.toNat ∧
      ((tsubDigit bound base diff).2.toNat = 1 ↔ d < bound) := by
  unfold tsubDigit
  by_cases hborrow : d < bound
  · rw [h, if_pos hborrow]
    refine ⟨?_, iff_of_true rfl hborrow⟩
    have hsmall := base.toInt_eq_toNat_cond
    show (diff + base).toInt = d + base.toNat * 1
    rw [toInt_add, Int.bmod_def]
    split at hsmall <;> omega
  · rw [h, if_neg hborrow]
    refine ⟨?_, iff_of_false Nat.zero_ne_one hborrow⟩
    show diff.toInt = d + base.toNat * 0
    rw [h, Int.mul_zero, Int.add_zero]

theorem taddDigit_add (limit base : BitVec 16) (b : Bool) (hx : x.toNat < 60) (hy : y.toNat < 60)
    (hbase : base.toNat ≤ limit.toNat + 1) :
    let r := taddDigit limit base (BitVec.ofNat 16 b.toNat + (x + y))
    r.1.toNat + base.toNat * r.2.toNat = b.toNat + (x.toNat + y.toNat) ∧
      (r.2.toNat = 1 ↔ limit.toNat < b.toNat + (x.toNat + y.toNat)) := by
  refine taddDigit_spec limit base ?_ hbase
  have hb : (BitVec.ofNat 16 b.toNat).toNat = b.toNat := by cases b <;> rfl
  have hle : b.toNat ≤ 1 := Bool.toNat_le b
  rw [toNat_add, toNat_add]
  omega

theorem tsubDigit_sub (bound : Int) (base : BitVec 16) (b : Bool) (hx : x.toNat ≤ 60)
    (hy : y.toNat ≤ 60) (hbase : base.toNat ≤ 1000) :
    let r := tsubDigit bound base (x - y - BitVec.ofNat 16 b.toNat)
    r.1.toInt = x.toNat - y.toNat - b.toNat + base.toNat * r.2.toNat ∧
      (r.2.toNat = 1 ↔ (x.toNat - y.toNat - b.toNat : Int) < bound) := by
  have hx' := x.toInt_eq_toNat_cond
  have hy' := y.toInt_eq_toNat_cond
  have hb : (BitVec.ofNat 16 b.toNat).toInt = b.toNat := by cases b <;> rfl
  have hle : b.toNat ≤ 1 := Bool.toNat_le b
  refine tsubDigit_spec bound base ?_ (by omega) (by omega) hbase
  rw [toInt_sub, toInt_sub, Int.bmod_def, Int.bmod_def]
  split at hx' <;> split at hy' <;> omega

end

section

variable (t u : TimeOfDay)

theorem taddTime_spec :
    let r := taddTime (.ofTime t) (.ofTime u)
    ∃ c c' : Nat, c ≤ 1 ∧ c' ≤ 1 ∧ (c = 1 ↔ 60 < t.second + u.second) ∧
      (c' = 1 ↔ 60 < c + (t.minute + u.minute)) ∧
      r.1.second.toNat + 60 * c = t.second + u.second ∧
      r.1.minute.toNat + 60 * c' = c + (t.minute + u.minute) ∧
      r.1.hour.toNat + 24 * r.2.toNat = c' + (t.hour + u.hour) ∧
      (r.2.toNat = 1 ↔ 23 < c' + (t.hour + u.hour)) := by
  intro r
  obtain ⟨hh, hm, hs⟩ := ClockWords.ofTime_toNat t
  obtain ⟨hh', hm', hs'⟩ := ClockWords.ofTime_toNat u
  have ht := t.hour_lt
  have ht' := t.minute_lt
  have ht'' := t.second_lt
  have hu := u.hour_lt
  have hu' := u.minute_lt
  have hu'' := u.second_lt
  set a := ClockWords.ofTime t
  set b := ClockWords.ofTime u
  have hsum : (a.second + b.second).toNat = t.second + u.second := by
    rw [toNat_add]
    omega
  obtain ⟨hsecond, hcarry⟩ := taddDigit_spec 60 60 hsum (by decide)
  obtain ⟨hminute, hcarry'⟩ := taddDigit_add 60 60 (taddDigit 60 60 (a.second + b.second)).2
    (x := a.minute) (y := b.minute) (by omega) (by omega) (by decide)
  obtain ⟨hhour, hout⟩ := taddDigit_add 23 24 (taddDigit 60 60 (BitVec.ofNat 16
    (taddDigit 60 60 (a.second + b.second)).2.toNat + (a.minute + b.minute))).2
    (x := a.hour) (y := b.hour) (by omega) (by omega) (by decide)
  rw [hm, hm'] at hminute hcarry'
  rw [hh, hh'] at hhour hout
  exact ⟨_, _, Bool.toNat_le _, Bool.toNat_le _, hcarry, hcarry', hsecond, hminute, hhour, hout⟩

theorem tsubTime_spec {a b : ClockWords} (ha : ¬ a.Beyond) (hb : b.Valid) :
    let r := tsubTime a b
    ∃ c c' : Nat, c ≤ 1 ∧ c' ≤ 1 ∧ (c = 1 ↔ a.second.toNat < b.second.toNat) ∧
      (c' = 1 ↔ a.minute.toNat < b.minute.toNat + c + 60) ∧
      r.1.second.toNat + b.second.toNat = a.second.toNat + 60 * c ∧
      r.1.minute.toNat + b.minute.toNat + c = a.minute.toNat + 60 * c' ∧
      r.1.hour.toNat + b.hour.toNat + c' = a.hour.toNat + 24 * r.2.toNat ∧
      (r.2.toNat = 1 ↔ a.hour.toNat < b.hour.toNat + c') := by
  intro r
  obtain ⟨hbh, hbm, hbs⟩ : b.hour.toNat < 24 ∧ b.minute.toNat < 60 ∧ b.second.toNat < 60 := hb
  obtain ⟨hah, ham, has⟩ : a.hour.toNat ≤ 23 ∧ a.minute.toNat ≤ 60 ∧ a.second.toNat ≤ 60 := by
    unfold ClockWords.Beyond at ha
    bv_omega
  obtain ⟨hsecond, hborrow⟩ := tsubDigit_sub 0 60 false (x := a.second) (y := b.second)
    (by omega) (by omega) (by decide)
  rw [show a.second - b.second - BitVec.ofNat 16 false.toNat = a.second - b.second from
    BitVec.sub_zero _, show false.toNat = 0 from rfl] at hsecond hborrow
  set s := tsubDigit 0 60 (a.second - b.second)
  obtain ⟨hminute, hborrow'⟩ := tsubDigit_sub 60 60 s.2 (x := a.minute) (y := b.minute)
    (by omega) (by omega) (by decide)
  set m := tsubDigit 60 60 (a.minute - b.minute - BitVec.ofNat 16 s.2.toNat)
  obtain ⟨hhour, hout⟩ := tsubDigit_sub 0 24 m.2 (x := a.hour) (y := b.hour)
    (by omega) (by omega) (by decide)
  set h := tsubDigit 0 24 (a.hour - b.hour - BitVec.ofNat 16 m.2.toNat)
  have hcount : (60 : BitVec 16).toNat = 60 := rfl
  have hday : (24 : BitVec 16).toNat = 24 := rfl
  rw [hcount] at hsecond hminute
  rw [hday] at hhour
  have hle := Bool.toNat_le s.2
  have hle' := Bool.toNat_le m.2
  have hsecond := toNat_of_toInt hsecond (by omega)
  have hminute := toNat_of_toInt hminute (by omega)
  have hhour := toNat_of_toInt hhour (by omega)
  have hr : r = (⟨h.1, m.1, s.1⟩, h.2) := rfl
  rw [hr]
  dsimp only
  exact ⟨s.2.toNat, m.2.toNat, hle, hle', by omega, by omega, by omega, by omega, by omega,
    by omega⟩

end

section

variable {w : ClockWords} {z q : Int} {op : ClockOp} {t u : TimeOfDay}

/-- Digits that add up to a number of seconds, but for whole days. -/
theorem eq_ofTime_ofSeconds (hhour : w.hour.toNat < 24) (hminute : w.minute.toNat < 60)
    (hsecond : w.second.toNat < 60)
    (hz : z = 3600 * w.hour.toNat + 60 * w.minute.toNat + w.second.toNat + 86400 * q) :
    w = .ofTime (.ofSeconds z) := by
  obtain ⟨t, rfl⟩ := ClockWords.exists_ofTime ⟨hhour, hminute, hsecond⟩
  obtain ⟨hh, hm, hs⟩ := ClockWords.ofTime_toNat t
  congr 1
  refine (TimeOfDay.ofSeconds_eq (q := q) ?_).symm
  rw [TimeOfDay.seconds]
  omega

/-- What a result that leaves the day adds. -/
def ClockOp.days : ClockOp → Bool → Int
  | tadd, out => out.toNat
  | tsub, out => -out.toNat

/-- Digits that carry or borrow as they should add up to the exact result, but for a day. -/
theorem digits_of_carries (h : op.Carries t u) :
    let r := op.time (.ofTime t) (.ofTime u)
    r.1.hour.toNat < 24 ∧ r.1.minute.toNat < 60 ∧ r.1.second.toNat < 60 ∧
      op.exact t u = 3600 * r.1.hour.toNat + 60 * r.1.minute.toNat + r.1.second.toNat +
        86400 * op.days r.2 := by
  intro r
  have ht := t.hour_lt
  have ht' := t.minute_lt
  have ht'' := t.second_lt
  have hu := u.hour_lt
  have hu' := u.minute_lt
  have hu'' := u.second_lt
  have hout := Bool.toNat_le r.2
  cases op with
  | tadd =>
    obtain ⟨c, c', hc, hc', hcarry, hcarry', hs, hm, hh, hleaves⟩ := taddTime_spec t u
    obtain ⟨hsecond, hminute⟩ := h
    change r.1.second.toNat + _ = _ at hs
    change r.1.minute.toNat + _ = _ at hm
    change r.1.hour.toNat + 24 * r.2.toNat = _ at hh
    change r.2.toNat = 1 ↔ _ at hleaves
    refine ⟨by omega, ?_, by omega, ?_⟩
    · split at hminute <;> omega
    · show (t.seconds + u.seconds : Int) = _ + 86400 * (r.2.toNat : Int)
      unfold TimeOfDay.seconds
      omega
  | tsub =>
    obtain ⟨hth, htm, hts⟩ := ClockWords.ofTime_toNat t
    obtain ⟨huh, hum, hus⟩ := ClockWords.ofTime_toNat u
    obtain ⟨c, c', hc, hc', hborrow, hborrow', hs, hm, hh, hleaves⟩ :=
      tsubTime_spec (ClockWords.not_beyond_of_valid (ClockWords.valid_ofTime t))
        (ClockWords.valid_ofTime u)
    change _ < _ + (if _ then _ else _) at h
    change r.1.second.toNat + _ = _ at hs
    change r.1.minute.toNat + _ + _ = _ at hm
    change r.1.hour.toNat + _ + _ = _ + 24 * r.2.toNat at hh
    change r.2.toNat = 1 ↔ _ at hleaves
    refine ⟨by omega, ?_, by omega, ?_⟩
    · split at h <;> omega
    · show (t.seconds - u.seconds : Int) = _ + 86400 * (-r.2.toNat : Int)
      unfold TimeOfDay.seconds
      omega

/-- They do so where the result is the exact one modulo a day. -/
theorem carries_of_time_eq
    (h : (op.time (.ofTime t) (.ofTime u)).1 = .ofTime (.ofSeconds (op.exact t u))) :
    op.Carries t u := by
  obtain ⟨-, hm, hs⟩ := ClockWords.ofTime_toNat (.ofSeconds (op.exact t u))
  have hminute := (TimeOfDay.ofSeconds (op.exact t u)).minute_lt
  have hsecond := (TimeOfDay.ofSeconds (op.exact t u)).second_lt
  rw [← h] at hm hs
  cases op with
  | tadd =>
    obtain ⟨c, c', hc, hc', hcarry, hcarry', hdigit, hdigit', -⟩ := taddTime_spec t u
    change (taddTime _ _).1.minute.toNat = _ at hm
    change (taddTime _ _).1.second.toNat = _ at hs
    refine ⟨by omega, ?_⟩
    split <;> omega
  | tsub =>
    obtain ⟨hth, htm, hts⟩ := ClockWords.ofTime_toNat t
    obtain ⟨huh, hum, hus⟩ := ClockWords.ofTime_toNat u
    obtain ⟨c, c', hc, hc', hborrow, hborrow', -, hdigit, -⟩ :=
      tsubTime_spec (ClockWords.not_beyond_of_valid (ClockWords.valid_ofTime t))
        (ClockWords.valid_ofTime u)
    change (tsubTime _ _).1.minute.toNat = _ at hm
    show _ < _ + (if _ then _ else _)
    split <;> omega

theorem time_eq_of_carries (h : op.Carries t u) :
    (op.time (.ofTime t) (.ofTime u)).1 = .ofTime (.ofSeconds (op.exact t u)) := by
  obtain ⟨hhour, hminute, hsecond, hexact⟩ := digits_of_carries h
  exact eq_ofTime_ofSeconds hhour hminute hsecond hexact

/-- Then the mark of the result tells whether it leaves the day. -/
theorem out_of_carries (h : op.Carries t u) :
    (op.time (.ofTime t) (.ofTime u)).2 = true ↔
      op.exact t u < 0 ∨ 86400 ≤ op.exact t u := by
  obtain ⟨hhour, hminute, hsecond, hexact⟩ := digits_of_carries h
  rw [hexact]
  cases op <;> cases hout : (ClockOp.time _ (.ofTime t) (.ofTime u)).2 <;>
    simp only [ClockOp.days, Bool.toNat_true, Bool.toNat_false, Bool.false_eq_true, false_iff,
      true_iff] <;> omega

theorem someZero_ofTime : (ClockWords.ofTime t).SomeZero ↔
    t.hour = 0 ∨ t.minute = 0 ∨ t.second = 0 := by
  obtain ⟨hh, hm, hs⟩ := ClockWords.ofTime_toNat t
  unfold ClockWords.SomeZero
  rw [← toNat_inj, ← toNat_inj, ← toNat_inj, hh, hm, hs]
  rfl

theorem zeroTogether_iff :
    ClockOp.ZeroTogether t ↔ ((ClockWords.ofTime t).SomeZero ↔ t = .ofSeconds 0) := by
  rw [someZero_ofTime]
  refine ⟨fun h => ⟨h, ?_⟩, fun h => h.mp⟩
  rintro rfl
  exact .inl rfl

/-! ## The instructions -/

/-- Two times whose digits carry and are zero together. -/
theorem tells_of_holds {i : BodyInput} (hi : ClockTerms op (.ofTime t) (.ofTime u) i)
    (hcarries : op.Carries t u) (hzero : ClockOp.ZeroTogether (.ofSeconds (op.exact t u))) :
    op.Tells t u i (op.body i) := by
  have hnot : ¬ ((ClockWords.ofTime t).Beyond ∨ (ClockWords.ofTime u).Beyond) := by
    rintro (hbeyond | hbeyond)
    · exact ClockWords.not_beyond_of_valid (ClockWords.valid_ofTime t) hbeyond
    · exact ClockWords.not_beyond_of_valid (ClockWords.valid_ofTime u) hbeyond
  rw [body_eq, run_of_not_beyond hi hnot, ClockOp.Tells, storedWords_getBit, storedWords_getBit,
    flagged_flag, flagged_zero, time_eq_of_carries hcarries, out_of_carries hcarries,
    ← zeroTogether_iff.mp hzero]
  exact ⟨⟨_, cleared_changesOnly.trans (flagged_changesOnly _), rfl⟩, Iff.rfl, Iff.rfl⟩

end

/-! ## A sample of operands -/

/-- Two times from `R0` and `R3` on, and the destination `D0`. -/
def clockToD0 (a b : ClockWords) : BodyInput :=
  { ucode := [0, 0] ++ rOperand 0 ++ rOperand 3 ++ d0Operand, pc := 0, level := 0, now := 0,
    inPF := 1, sfc := Plc.off.sfc,
    store := { Store.off with
      word := Function.update Store.off.word .R fun k => (a.list ++ b.list).getD k 0 } }

section

variable {op : ClockOp} {a b w : ClockWords} {t u : TimeOfDay} {s : Store}

theorem clockToD0_terms (op : ClockOp) (a b : ClockWords) : ClockTerms op a b (clockToD0 a b) := by
  cases op <;> exact ⟨getPowerFlow_one, rfl, rfl, rfl, rfl, rfl, rfl⟩

theorem clockToD0_d0 : (clockToD0 a b).ucode.CodeAt ((clockToD0 a b).pc + 10) d0Operand :=
  (Ucode.codeAt_append.mp (Ucode.codeAt_self (u := (clockToD0 a b).ucode))).2

theorem list_length_le : w.list.length ≤ 8000 := by
  change 3 ≤ 8000
  decide

theorem clockToD0_inj {w' : ClockWords} {s' : Store}
    (h : (clockToD0 a b).storedWords 10 w.list s = (clockToD0 a b).storedWords 10 w'.list s') :
    w = w' := by
  have hlength : w'.list.length = w.list.length := rfl
  have hlist : w.list = w'.list := storedWords_d0_inj clockToD0_d0 list_length_le hlength h
  cases w
  cases w'
  simpa [ClockWords.list] using hlist

theorem not_beyond_of_times :
    ¬ ((ClockWords.ofTime t).Beyond ∨ (ClockWords.ofTime u).Beyond) := by
  rintro (hbeyond | hbeyond)
  · exact ClockWords.not_beyond_of_valid (ClockWords.valid_ofTime t) hbeyond
  · exact ClockWords.not_beyond_of_valid (ClockWords.valid_ofTime u) hbeyond

/-- The digits that the instruction tells carry and are zero together. -/
theorem holds_of_tells (h : op.Tells t u (clockToD0 (.ofTime t) (.ofTime u))
      (op.body (clockToD0 (.ofTime t) (.ofTime u)))) :
    op.Carries t u ∧ ClockOp.ZeroTogether (.ofSeconds (op.exact t u)) := by
  rw [body_eq, run_of_not_beyond (clockToD0_terms op _ _) not_beyond_of_times] at h
  obtain ⟨⟨s, -, hstored⟩, -, hzero⟩ := h
  have htime := clockToD0_inj hstored
  rw [storedWords_getBit, flagged_zero, htime] at hzero
  exact ⟨carries_of_time_eq htime, zeroTogether_iff.mpr hzero⟩

theorem beyond_of_refused (h : (op.body (clockToD0 a b)).1 = .error .operands) :
    a.Beyond ∨ b.Beyond := by
  by_contra hnot
  rw [body_eq, run_of_not_beyond (clockToD0_terms op a b) hnot,
    (storedWords_d0 clockToD0_d0 list_length_le).1] at h
  cases h

/-! ## Taking back a sum -/

theorem clockWords_eq {w' : ClockWords} (hhour : w.hour.toNat = w'.hour.toNat)
    (hminute : w.minute.toNat = w'.minute.toNat) (hsecond : w.second.toNat = w'.second.toNat) :
    w = w' := by
  cases w
  cases w'
  simp only [ClockWords.mk.injEq]
  exact ⟨eq_of_toNat_eq hhour, eq_of_toNat_eq hminute,
    eq_of_toNat_eq hsecond⟩

theorem not_beyond_taddTime : ¬ (taddTime (.ofTime t) (.ofTime u)).1.Beyond := by
  obtain ⟨c, c', hc, hc', hcarry, hcarry', hs, hm, hh, hout⟩ := taddTime_spec t u
  have ht := t.hour_lt
  have ht' := t.minute_lt
  have ht'' := t.second_lt
  have hu := u.hour_lt
  have hu' := u.minute_lt
  have hu'' := u.second_lt
  unfold ClockWords.Beyond
  simp only [lt_def, reduceToNat]
  omega

/-- The sum gives back the first time if its minutes carry. -/
theorem tsubTime_taddTime :
    (tsubTime (taddTime (.ofTime t) (.ofTime u)).1 (.ofTime u)).1 = .ofTime t ↔
      60 < t.minute + u.minute + if 60 < t.second + u.second then 1 else 0 := by
  obtain ⟨hth, htm, hts⟩ := ClockWords.ofTime_toNat t
  obtain ⟨huh, hum, hus⟩ := ClockWords.ofTime_toNat u
  obtain ⟨c, c', hc, hc', hcarry, hcarry', hs, hm, hh, hout⟩ := taddTime_spec t u
  obtain ⟨d, d', hd, hd', hborrow, hborrow', hs', hm', hh', hout'⟩ :=
    tsubTime_spec not_beyond_taddTime (ClockWords.valid_ofTime u) (a := (taddTime (.ofTime t)
      (.ofTime u)).1)
  have hle' := Bool.toNat_le (tsubTime (taddTime (.ofTime t) (.ofTime u)).1 (.ofTime u)).2
  have ht := t.hour_lt
  have ht' := t.minute_lt
  have ht'' := t.second_lt
  have hdc : d = c := by
    clear hcarry' hborrow' hout hout'
    omega
  have hif : (if 60 < t.second + u.second then 1 else 0) = c := by
    clear hcarry' hborrow hborrow' hout hout'
    split <;> omega
  rw [hif]
  subst d
  clear hif hborrow hcarry
  constructor
  · intro heq
    rw [heq] at hm'
    omega
  · intro hlt
    refine clockWords_eq ?_ ?_ ?_ <;> omega

theorem takesBack_iff : TakesBack t u ↔
    60 < t.minute + u.minute + if 60 < t.second + u.second then 1 else 0 := by
  have hnot : ¬ ((taddTime (.ofTime t) (.ofTime u)).1.Beyond ∨ (ClockWords.ofTime u).Beyond) := by
    rintro (hbeyond | hbeyond)
    · exact not_beyond_taddTime hbeyond
    · exact ClockWords.not_beyond_of_valid (ClockWords.valid_ofTime u) hbeyond
  rw [← tsubTime_taddTime]
  constructor
  · intro h
    obtain ⟨s, -, hstored⟩ := h _ (clockToD0_terms .tsub _ _)
    change ClockOp.tsub.run _ = _ at hstored
    rw [run_of_not_beyond (clockToD0_terms .tsub _ _) hnot] at hstored
    exact clockToD0_inj hstored
  · intro htime i hi
    have hrun : runCiTsubIns i = _ := run_of_not_beyond hi hnot
    rw [show (ClockOp.tsub.time _ _).1 = ClockWords.ofTime t from htime] at hrun
    refine ⟨_, ?_, hrun⟩
    exact cleared_changesOnly.trans (flagged_changesOnly _)

end

/-! ## The law -/

/-- When `TADD` and `TSUB` tell, and when `TSUB` takes back what `TADD` has added. -/
theorem clock_right_iff (a b : ClockWords) :
    (∀ op : ClockOp, (∀ i, ClockTerms op a b i → op.Right a b i) ↔ op.Holds a b) ∧
      ∀ t u, a = .ofTime t → b = .ofTime u → (TakesBack t u ↔
        60 < t.minute + u.minute + if 60 < t.second + u.second then 1 else 0) := by
  refine ⟨fun op => ⟨fun h => ?_, fun h i hi => ?_⟩, fun t u _ _ => takesBack_iff⟩
  · obtain ⟨htells, hrefuses⟩ := h _ (clockToD0_terms op a b)
    refine ⟨?_, fun hinvalid => beyond_of_refused (hrefuses hinvalid).1⟩
    rintro t u rfl rfl
    exact holds_of_tells (htells t u rfl rfl)
  · obtain ⟨htimes, hbeyond⟩ := h
    refine ⟨?_, fun hinvalid => ?_⟩
    · rintro t u rfl rfl
      obtain ⟨hcarries, hzero⟩ := htimes t u rfl rfl
      exact tells_of_holds hi hcarries hzero
    · rw [body_eq, run_of_beyond hi (hbeyond hinvalid)]
      exact ⟨rfl, cleared_changesOnly⟩

def halfPastNoon : TimeOfDay := ⟨12, 0, 30, by decide, by decide, by decide⟩

/-- The sum of 12:00:30 with itself has 60 seconds. -/
theorem tadd_not_carried : ¬ ∀ (op : ClockOp) (a b : ClockWords) (i : BodyInput),
    ClockTerms op a b i → op.Right a b i := by
  intro h
  have hright := h .tadd (.ofTime halfPastNoon) (.ofTime halfPastNoon) _ (clockToD0_terms ..)
  obtain ⟨⟨hsecond, -⟩, -⟩ := holds_of_tells (hright.1 _ _ rfl rfl)
  exact hsecond rfl

end Kalyke
