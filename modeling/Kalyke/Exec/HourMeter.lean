-- SUMMARY: `HOUR` over whole runs, `HTOS` and `STOH`: when hours and seconds are counted right.
import Kalyke.Exec.Bytes
import Kalyke.Exec.Clock
import Kalyke.Exec.TimerLaw

/-!
# The hour meter

An instance of `HOUR` adds the whole seconds that have passed to the second of two words, and moves
the time from which it counts behind them. More than 3600 seconds carry an hour to the first word,
once in each execution. `HTOS` turns a time of day into a single word of seconds, and `STOH` turns
them back.
-/

namespace Kalyke

open List Nat BitVec Function Option Except

/-! ## The instructions -/

/-- `plc_hour_ins_st`. -/
structure HourInsSt where
  lastPFStatus : Bool
  lastTime : BitVec 32
deriving DecidableEq

/-- The hours and seconds in the two words. -/
structure HourMeter where
  hours : BitVec 16
  seconds : BitVec 16
deriving DecidableEq, Repr

namespace HourMeter

def list (m : HourMeter) : List (BitVec 16) := [m.hours, m.seconds]

/-- The hours as they are read. -/
def wrapped (m : HourMeter) : HourMeter :=
  { m with hours := if 32767 < m.hours then 0 else m.hours }

/-- The seconds that have passed are added, and carry. -/
def advance (m : HourMeter) (passed : BitVec 16) : HourMeter :=
  if 3600 < m.seconds + passed then ⟨m.hours + 1, m.seconds + passed - 3600⟩
  else ⟨m.hours, m.seconds + passed⟩

def total (m : HourMeter) : Nat := 3600 * m.hours.toNat + m.seconds.toNat

end HourMeter

/-- The preset and the meter. -/
def hourTerms (i : BodyInput) : Except PlcErr (BitVec 16 × HourMeter) := do
  let destHour ← i.word 2 0 i.store
  let hours ← i.word 6 0 i.store
  let seconds ← i.word 6 1 i.store
  return (destHour, HourMeter.wrapped ⟨hours, seconds⟩)

def saveHours (i : BodyInput) (destHour : BitVec 16) (m : HourMeter) : BodyResult :=
  if destHour ≤ m.hours then
    match i.saveChars (i.pc + 10) 0 [true] i.store with
    | (.error e, s) => (.error e, i.inPF, s)
    | (.ok (), s) => i.storedWords 6 m.list s
  else i.storedWords 6 m.list i.store

def runCiHourIns (i : BodyInput) (table : Nat → HourInsSt) : BodyResult × (Nat → HourInsSt) :=
  let n := i.ucode.getPU16 (i.pc + 14)
  if 255 < n then (i.refused, table)
  else if getPowerFlow i.inPF then
    if (table n).lastPFStatus = false then
      ((.ok (), i.inPF, i.store), update table n ⟨true, i.now⟩)
    else
      match hourTerms i with
      | .error e => ((.error e, i.inPF, i.store), table)
      | .ok (destHour, m) =>
        let passed := i.now - (table n).lastTime
        (saveHours i destHour (m.advance ((passed / 1000).setWidth 16)),
          update table n { table n with lastTime := i.now - passed % 1000 })
  else
    ((.ok (), i.inPF, i.store), update table n { table n with lastPFStatus := false })

/-- What `get_word` has left of three words in a buffer. -/
def ClockWords.ofWords (junk : Nat → BitVec 16) (xs : List (BitVec 16)) : ClockWords :=
  ⟨xs.getD 0 (junk 0), xs.getD 1 (junk 1), xs.getD 2 (junk 2)⟩

def htosSeconds (w : ClockWords) : BitVec 16 :=
  BitVec.ofNat 16 (w.hour.toNat * 60 * 60 + w.minute.toNat * 60 + w.second.toNat)

def runCiHtosIns (junk : Nat → BitVec 16) (i : BodyInput) : BodyResult :=
  runChecked i
    (do
      let w := ClockWords.ofWords junk (← i.words 2 0 3 i.store)
      if 23 < w.hour ∨ 59 < w.minute ∨ 59 < w.second then .error .operands
      else return htosSeconds w)
    fun x s => i.saveWords (i.pc + 6) 0 [x] s

/-- The time after a number of seconds. -/
def stohTime (x : BitVec 16) : ClockWords := ⟨x / 3600, x % 3600 / 60, x % 60⟩

def runCiStohIns (i : BodyInput) : BodyResult :=
  runChecked i (i.word 2 0 i.store) fun x s => i.saveWords (i.pc + 6) 0 (stohTime x).list s

/-! ## Laws -/

/-- An instruction `HOUR`: its instance, its preset, the words of its meter and its output bit. The
words hold what is saved in them, and the bit is no part of them. -/
structure HourPlace where
  number : Nat
  preset : BitVec 16
  block : WordBlock
  area : BitArea
  index : Nat
  number_le : number ≤ 255
  kept : ∀ x, block.kept x = x
  apart : ∀ k < 2, area.cell index ∉ block.cells k

/-- The meter and the output bit, the table of the instances, the seconds at the start, when the
first execution was, and when the last one. -/
structure HourRun where
  meter : HourMeter
  out : Bool
  table : Nat → HourInsSt
  base : Nat
  began : Option Nat
  last : Nat

namespace HourRun

/-- An instance after an execution without power flow. -/
def start (p : HourPlace) (m : HourMeter) (out : Bool) (table : Nat → HourInsSt) (time : Nat) :
    HourRun :=
  ⟨m, out, update table p.number { table p.number with lastPFStatus := false }, m.total,
    none, time⟩

variable (p : HourPlace) (s : HourRun) (x : TimedExecution)

/-- What the instruction sees. -/
def seen : BodyInput := { x.input with now := BitVec.ofNat 32 x.time }

def next : HourRun where
  meter := ⟨p.block.read 0 (runCiHourIns (seen x) s.table).1.2.2,
    p.block.read 1 (runCiHourIns (seen x) s.table).1.2.2⟩
  out := (runCiHourIns (seen x) s.table).1.2.2.getBit p.area p.index
  table := (runCiHourIns (seen x) s.table).2
  base := s.base
  began := some (s.began.getD x.time)
  last := x.time

/-- The seconds that the meter should show. -/
def exact : Nat := s.base + (x.time - s.began.getD x.time) / 1000

/-- An execution of the instruction with power flow, which finds the meter and the output bit as
they are. -/
structure Legal : Prop where
  power : x.flow = true
  le : s.last ≤ x.time
  number : x.input.ucode.getPU16 (x.input.pc + 14) = p.number
  preset : x.input.word 2 0 x.input.store = .ok p.preset
  block : (x.input.operand 6).HasBlock p.block 2 x.input.store
  hours : p.block.read 0 x.input.store = s.meter.hours
  seconds : p.block.read 1 x.input.store = s.meter.seconds
  out : x.input.store.getBit p.area p.index = s.out
  output : x.input.saveChars (x.input.pc + 10) 0 [true] x.input.store =
    (.ok (), x.input.store.setBit p.area p.index true)

/-- As long as the hours stay at most 32767, the meter shows the exact seconds, those of the hour in
the second word, and the output bit tells whether the hours have reached the preset. -/
def Right : Prop :=
  s.exact x < 32768 * 3600 →
    (s.next p x).meter.seconds.toNat < 3600 ∧ (s.next p x).meter.total = s.exact x ∧
      ((s.next p x).out = true ↔ p.preset ≤ (s.next p x).meter.hours)

/-- The first execution finds the output bit right. The others come before two hours more have
passed than the meter shows, and not just after one. -/
def Regular : Prop :=
  s.exact x < 32768 * 3600 →
    if s.began.isSome then
      s.exact x ≠ 3600 * (s.meter.hours.toNat + 1) ∧ s.exact x < 3600 * (s.meter.hours.toNat + 2)
    else s.out = true ↔ p.preset ≤ s.meter.hours

end HourRun

/-- `STOH` gives back the time whose seconds `HTOS` has stored, if it has stored any. -/
def RestoresTime (t : TimeOfDay) : Prop :=
  ∀ junk i, getPowerFlow i.inPF = true → i.words 2 0 3 i.store = .ok (ClockWords.ofTime t).list →
    (runCiHtosIns junk i).1 ≠ .ok () ∨ ∃ x, runCiHtosIns junk i = i.storedWords 6 [x] i.store ∧
      ∀ j, getPowerFlow j.inPF = true → j.word 2 0 j.store = .ok x →
        runCiStohIns j = j.storedWords 6 (ClockWords.ofTime t).list j.store
/-! ## Adding seconds -/

namespace HourMeter

variable {m : HourMeter} {passed : BitVec 16} {q : Nat}

theorem wrapped_of_le (h : m.hours.toNat ≤ 32767) : m.wrapped = m := by
  have hle : ¬ 32767 < m.hours := by
    exact Nat.not_lt.mpr h
  rw [wrapped, if_neg hle]

/-- One hour is carried, from more than 3600 seconds. -/
theorem advance_cases (passed : BitVec 16) (hh : m.hours.toNat ≤ 32767) :
    let sum := (m.seconds.toNat + passed.toNat) % 65536
    3600 < sum ∧ (m.advance passed).hours.toNat = m.hours.toNat + 1 ∧
      (m.advance passed).seconds.toNat = sum - 3600 ∨
    sum ≤ 3600 ∧ (m.advance passed).hours.toNat = m.hours.toNat ∧
      (m.advance passed).seconds.toNat = sum := by
  intro sum
  have hsum : (m.seconds + passed).toNat = sum := toNat_add _ _
  unfold advance
  split
  · rename_i hlt
    have hlt' : 3600 < sum := by
      rwa [lt_def] at hlt
    refine .inl ⟨hlt', ?_, ?_⟩
    · rw [toNat_add]
      change (m.hours.toNat + 1) % 65536 = _
      omega
    · rw [toNat_sub, hsum]
      change (65536 - 3600 + sum) % 65536 = _
      omega
  · rename_i hnot
    have hle : sum ≤ 3600 := by
      exact Nat.le_of_not_lt hnot
    exact .inr ⟨hle, rfl, hsum⟩

theorem hours_le_advance (hh : m.hours.toNat ≤ 32767) : m.hours ≤ (m.advance passed).hours := by
  rw [le_def]
  rcases advance_cases passed hh with ⟨-, hhours, -⟩ | ⟨-, hhours, -⟩ <;> omega

/-- Seconds are counted as long as they do not fill the hour just, or two. -/
theorem advance_right_iff (hh : m.hours.toNat ≤ 32767) (hs : m.seconds.toNat < 3600)
    (hpassed : m.seconds.toNat + q < 7200 → passed.toNat = q) :
    (m.advance passed).seconds.toNat < 3600 ∧ (m.advance passed).total = m.total + q ↔
      m.total + q ≠ 3600 * (m.hours.toNat + 1) ∧ m.total + q < 3600 * (m.hours.toNat + 2) := by
  unfold total
  rcases advance_cases passed hh with ⟨hsum, hhours, hseconds⟩ | ⟨hsum, hhours, hseconds⟩
  · rw [hhours, hseconds]
    constructor
    · rintro ⟨hlt, htotal⟩
      omega
    · rintro ⟨hne, hlt⟩
      omega
  · rw [hhours, hseconds]
    constructor
    · rintro ⟨hlt, htotal⟩
      omega
    · rintro ⟨hne, hlt⟩
      omega

end HourMeter

/-! ## What an execution leaves -/

section

variable {p : HourPlace} {s : HourRun} {x : TimedExecution} {m : HourMeter}

namespace HourRun

theorem Legal.terms (h : s.Legal p x) :
    hourTerms (seen x) = .ok (p.preset, s.meter.wrapped) := by
  have hhours : (seen x).word 6 0 (seen x).store = .ok s.meter.hours :=
    (h.block.get (by decide)).trans (congrArg ok h.hours)
  have hseconds : (seen x).word 6 1 (seen x).store = .ok s.meter.seconds :=
    (h.block.get (by decide)).trans (congrArg ok h.seconds)
  have hpreset : (seen x).word 2 0 (seen x).store = .ok p.preset := h.preset
  rw [hourTerms, hpreset, hhours, hseconds]
  rfl

/-- The first execution sets the time from which the instance counts. -/
theorem Legal.first (h : s.Legal p x) (hstatus : (s.table p.number).lastPFStatus = false) :
    runCiHourIns (seen x) s.table = ((.ok (), x.input.inPF, x.input.store),
      update s.table p.number ⟨true, BitVec.ofNat 32 x.time⟩) := by
  have hnumber : ¬ 255 < p.number := Nat.not_lt.mpr p.number_le
  have hcode : (seen x).ucode.getPU16 ((seen x).pc + 14) = p.number := h.number
  have hpower : getPowerFlow (seen x).inPF = true := h.power
  rw [runCiHourIns, hcode, if_neg hnumber, if_pos hpower, if_pos hstatus]
  rfl

/-- The others count. -/
theorem Legal.later (h : s.Legal p x) (hstatus : (s.table p.number).lastPFStatus = true) :
    runCiHourIns (seen x) s.table =
      (saveHours (seen x) p.preset (s.meter.wrapped.advance
        (((BitVec.ofNat 32 x.time - (s.table p.number).lastTime) / 1000).setWidth 16)),
        update s.table p.number { s.table p.number with
          lastTime := BitVec.ofNat 32 x.time -
            (BitVec.ofNat 32 x.time - (s.table p.number).lastTime) % 1000 }) := by
  have hnumber : ¬ 255 < p.number := Nat.not_lt.mpr p.number_le
  have hcode : (seen x).ucode.getPU16 ((seen x).pc + 14) = p.number := h.number
  have hpower : getPowerFlow (seen x).inPF = true := h.power
  have hset : ¬ (s.table p.number).lastPFStatus = false := by
    rw [hstatus]
    decide
  rw [runCiHourIns, hcode, if_neg hnumber, if_pos hpower, if_neg hset, h.terms]
  rfl

/-- The meter as it is saved. -/
theorem Legal.stored {u : Store} (hb : (x.input.operand 6).HasBlock p.block 2 u) :
    p.block.read 0 ((seen x).storedWords 6 m.list u).2.2 = m.hours ∧
      p.block.read 1 ((seen x).storedWords 6 m.list u).2.2 = m.seconds ∧
      ((seen x).storedWords 6 m.list u).2.2.getBit p.area p.index = u.getBit p.area p.index := by
  have hzero : 0 < 2 := Nat.two_pos
  have hone : 1 < 2 := Nat.one_lt_two
  have hfirst : (seen x).saveWords (x.input.pc + 6) 0 [m.hours] u =
      (.ok (), ((x.input.operand 6).save 0 m.hours u).2) :=
    Prod.ext (hb.save_ok hzero m.hours) rfl
  have hb' := hb.saved hzero m.hours
  have hlast : ((seen x).storedWords 6 m.list u).2.2 =
      ((x.input.operand 6).save 1 m.seconds ((x.input.operand 6).save 0 m.hours u).2).2 := by
    change ((seen x).saveWords (x.input.pc + 6) 0 [m.hours, m.seconds] u).2 = _
    rw [saveWords_cons hfirst]
    rfl
  have hbit {k : Nat} {v : BitVec 16} {u : Store} (hk : k < 2)
      (hb : (x.input.operand 6).HasBlock p.block 2 u) :
      ((x.input.operand 6).save k v u).2.getBit p.area p.index = u.getBit p.area p.index :=
    BitArea.getBit_of_agree ((hb.save_changesOnly hk v).cells _ (p.apart k hk))
  rw [hlast]
  refine ⟨?_, ?_, ?_⟩
  · rw [hb'.read_save_of_ne hone Nat.zero_ne_one, hb.read_save hzero, p.kept]
  · rw [hb'.read_save hone, p.kept]
  · rw [hbit hone hb', hbit hzero hb]

theorem Legal.saved (h : s.Legal p x) :
    p.block.read 0 (saveHours (seen x) p.preset m).2.2 = m.hours ∧
      p.block.read 1 (saveHours (seen x) p.preset m).2.2 = m.seconds ∧
      (saveHours (seen x) p.preset m).2.2.getBit p.area p.index =
        (s.out || decide (p.preset ≤ m.hours)) := by
  unfold saveHours
  split
  · rename_i hle
    have houtput : (seen x).saveChars ((seen x).pc + 10) 0 [true] (seen x).store =
        (.ok (), x.input.store.setBit p.area p.index true) := h.output
    rw [houtput]
    obtain ⟨hhours, hseconds, hbit⟩ := stored (m := m) (h.block.setBit p.area p.index true)
    refine ⟨hhours, hseconds, hbit.trans ?_⟩
    rw [getBit_setBit_self, decide_eq_true hle, Bool.or_true]
  · rename_i hnot
    obtain ⟨hhours, hseconds, hbit⟩ := stored (m := m) h.block
    refine ⟨hhours, hseconds, hbit.trans ?_⟩
    rw [h.out, decide_eq_false hnot, Bool.or_false]

end HourRun

end

/-! ## The account of the meter -/

namespace HourRun

/-- The meter shows the seconds since the first execution, and the instance counts on behind
them. -/
structure Counted (p : HourPlace) (t : Nat) (s : HourRun) : Prop where
  seconds : s.meter.seconds.toNat < 3600
  total : s.meter.total = s.base + (s.last - t) / 1000
  out : s.out = true ↔ p.preset ≤ s.meter.hours
  lastTime : (s.table p.number).lastTime = BitVec.ofNat 32 (t + 1000 * ((s.last - t) / 1000))

/-- A meter that has not begun, or has counted as long as its hours stay at most 32767. -/
structure Inv (p : HourPlace) (s : HourRun) : Prop where
  fresh : s.began = none → (s.table p.number).lastPFStatus = false ∧
    s.meter.seconds.toNat < 3600 ∧ s.meter.total = s.base
  begun : ∀ t, s.began = some t → (s.table p.number).lastPFStatus = true ∧ t ≤ s.last ∧
    (s.base + (s.last - t) / 1000 < 32768 * 3600 → s.Counted p t)

variable {p : HourPlace} {s : HourRun} {x : TimedExecution} {t : Nat}

theorem inv_start {m : HourMeter} {out : Bool} {table : Nat → HourInsSt} {time : Nat}
    (h : m.seconds.toNat < 3600) : (start p m out table time).Inv p where
  fresh := fun _ => ⟨by simp [start], h, rfl⟩
  begun := fun t ht => by cases ht

/-! ### The first execution -/

theorem next_first (h : s.Legal p x) (hstatus : (s.table p.number).lastPFStatus = false) :
    (s.next p x).meter = s.meter ∧ (s.next p x).out = s.out := by
  unfold next
  rw [h.first hstatus]
  exact ⟨by rw [h.hours, h.seconds], h.out⟩

theorem first_right_iff (hinv : s.Inv p) (h : s.Legal p x) (hbegan : s.began = none) :
    s.Right p x ↔ s.Regular p x := by
  obtain ⟨hstatus, hseconds, htotal⟩ := hinv.fresh hbegan
  obtain ⟨hmeter, hout⟩ := next_first h hstatus
  have hexact : s.exact x = s.base := by
    simp only [exact, hbegan, getD_none, Nat.sub_self, Nat.zero_div, Nat.add_zero]
  unfold Right Regular
  rw [hmeter, hout, hexact, hbegan]
  exact imp_congr_right fun _ =>
    ⟨fun hright => hright.2.2, fun hright => ⟨hseconds, htotal, hright⟩⟩

theorem first_inv (hinv : s.Inv p) (h : s.Legal p x) (hbegan : s.began = none)
    (hregular : s.Regular p x) : (s.next p x).Inv p := by
  obtain ⟨hstatus, hseconds, htotal⟩ := hinv.fresh hbegan
  obtain ⟨hmeter, hout⟩ := next_first h hstatus
  have hexact : s.exact x = s.base := by
    simp only [exact, hbegan, getD_none, Nat.sub_self, Nat.zero_div, Nat.add_zero]
  have htable : (s.next p x).table p.number = ⟨true, BitVec.ofNat 32 x.time⟩ := by
    unfold next
    rw [h.first hstatus]
    exact update_self _ _ _
  have hbegan' : (s.next p x).began = some x.time := by
    unfold next
    rw [hbegan]
    rfl
  have hlast : (s.next p x).last = x.time := rfl
  refine ⟨fun hnone => ?_, fun t ht => ?_⟩
  · rw [hbegan'] at hnone
    cases hnone
  · obtain rfl : x.time = t := some.inj (hbegan'.symm.trans ht)
    refine ⟨by rw [htable], Nat.le_refl _, fun hlimit => ?_⟩
    rw [hlast, Nat.sub_self] at hlimit
    unfold Regular at hregular
    rw [hexact, hbegan] at hregular
    exact {
      seconds := by rwa [hmeter]
      total := by
        rw [hmeter, hlast, Nat.sub_self]
        exact htotal
      out := by
        rw [hout, hmeter]
        exact hregular hlimit
      lastTime := by
        rw [htable, hlast, Nat.sub_self]
        rfl }

/-! ### The others -/

/-- The whole seconds since the time from which the instance counts. -/
def passed (t : Nat) (s : HourRun) (x : TimedExecution) : Nat :=
  (x.time - (t + 1000 * ((s.last - t) / 1000))) / 1000

theorem exact_eq (hcounted : s.Counted p t) (hbegan : s.began = some t) (ht : t ≤ s.last)
    (hle : s.last ≤ x.time) : s.exact x = s.meter.total + s.passed t x := by
  have htotal := hcounted.total
  simp only [exact, passed, hbegan, getD_some]
  omega

theorem hours_le (hcounted : s.Counted p t)
    (hlimit : s.base + (s.last - t) / 1000 < 32768 * 3600) : s.meter.hours.toNat ≤ 32767 := by
  have htotal := hcounted.total
  unfold HourMeter.total at htotal
  omega

/-- The tick count since the time from which the instance counts. -/
def ticks (p : HourPlace) (s : HourRun) (x : TimedExecution) : BitVec 32 :=
  BitVec.ofNat 32 x.time - (s.table p.number).lastTime

theorem ticks_toNat (hcounted : s.Counted p t) (ht : t ≤ s.last) (hle : s.last ≤ x.time) :
    (s.ticks p x).toNat = (x.time - (t + 1000 * ((s.last - t) / 1000))) % 2 ^ 32 := by
  rw [ticks, hcounted.lastTime]
  exact sub_ofNat_toNat (by omega)

theorem seconds_toNat (hcounted : s.Counted p t) (ht : t ≤ s.last) (hle : s.last ≤ x.time)
    (hlt : s.passed t x < 7200) :
    ((s.ticks p x / 1000).setWidth 16).toNat = s.passed t x := by
  rw [toNat_setWidth, toNat_udiv, ticks_toNat hcounted ht hle]
  change _ / 1000 % 65536 = _
  unfold passed at hlt ⊢
  rw [mod_eq_of_lt (b := 2 ^ 32) (by omega)]
  exact mod_eq_of_lt (by omega)

/-- The instance counts on behind the whole seconds. -/
theorem lastTime_eq (hcounted : s.Counted p t) (ht : t ≤ s.last) (hle : s.last ≤ x.time)
    (hlt : s.passed t x < 7200) : BitVec.ofNat 32 x.time - s.ticks p x % 1000 =
      BitVec.ofNat 32 (t + 1000 * ((x.time - t) / 1000)) := by
  have hrest : s.ticks p x % 1000 = BitVec.ofNat 32 ((x.time - t) % 1000) := by
    apply eq_of_toNat_eq
    rw [toNat_umod, ticks_toNat hcounted ht hle, toNat_ofNat]
    change _ % 1000 = _
    unfold passed at hlt
    rw [mod_eq_of_lt (b := 2 ^ 32) (by omega)]
    omega
  have htime : x.time = t + 1000 * ((x.time - t) / 1000) + (x.time - t) % 1000 := by omega
  rw [hrest, BitVec.sub_eq_iff_eq_add, ← ofNat_add, ← htime]

theorem next_later (h : s.Legal p x) (hhours : s.meter.hours.toNat ≤ 32767)
    (hstatus : (s.table p.number).lastPFStatus = true) :
    let m := s.meter.advance ((s.ticks p x / 1000).setWidth 16)
    (s.next p x).meter = m ∧ (s.next p x).out = (s.out || decide (p.preset ≤ m.hours)) ∧
      (s.next p x).table p.number = ⟨true, BitVec.ofNat 32 x.time - s.ticks p x % 1000⟩ := by
  have hlater := h.later hstatus
  rw [HourMeter.wrapped_of_le hhours] at hlater
  unfold next
  rw [hlater]
  obtain ⟨hhours, hseconds, hout⟩ := h.saved
  refine ⟨by rw [hhours, hseconds]; rfl, hout, ?_⟩
  change update s.table p.number _ p.number = _
  rw [update_self, hstatus]
  rfl

/-- The output bit, once on, stays right. -/
theorem out_iff {w : BitVec 16} (hcounted : s.Counted p t)
    (hhours : s.meter.hours.toNat ≤ 32767) :
    (s.out || decide (p.preset ≤ (s.meter.advance w).hours)) = true ↔
      p.preset ≤ (s.meter.advance w).hours := by
  rw [Bool.or_eq_true, decide_eq_true_iff]
  refine ⟨fun hor => ?_, .inr⟩
  rcases hor with hout | hle
  · exact BitVec.le_trans (hcounted.out.mp hout) (HourMeter.hours_le_advance hhours)
  · exact hle

theorem later_right_iff (hinv : s.Inv p) (h : s.Legal p x) (hbegan : s.began = some t) :
    s.Right p x ↔ s.Regular p x := by
  obtain ⟨hstatus, ht, hcounts⟩ := hinv.begun t hbegan
  have hle := h.le
  unfold Right Regular
  refine imp_congr_right fun hlimit => ?_
  have hlimit' : s.base + (s.last - t) / 1000 < 32768 * 3600 := by
    simp only [exact, hbegan, getD_some] at hlimit
    omega
  have hcounted := hcounts hlimit'
  have hhours := hours_le hcounted hlimit'
  obtain ⟨hmeter, hout, -⟩ := next_later h hhours hstatus
  rw [hmeter, hout, exact_eq hcounted hbegan ht hle, hbegan]
  have hpassed : s.meter.seconds.toNat + s.passed t x < 7200 →
      ((s.ticks p x / 1000).setWidth 16).toNat = s.passed t x :=
    fun hlt => seconds_toNat hcounted ht hle (by omega)
  have hiff := HourMeter.advance_right_iff hhours hcounted.seconds hpassed
  rw [and_iff_left (out_iff hcounted hhours)]
  exact hiff

theorem later_inv (hinv : s.Inv p) (h : s.Legal p x) (hbegan : s.began = some t)
    (hregular : s.Regular p x) : (s.next p x).Inv p := by
  obtain ⟨hstatus, ht, hcounts⟩ := hinv.begun t hbegan
  have hle := h.le
  have hbegan' : (s.next p x).began = some t := by
    unfold next
    rw [hbegan]
    rfl
  have hlast : (s.next p x).last = x.time := rfl
  have hbase : (s.next p x).base = s.base := rfl
  have hexact : s.exact x = s.base + (x.time - t) / 1000 := by
    simp only [exact, hbegan, getD_some]
  have hright := (later_right_iff hinv h hbegan).mpr hregular
  refine ⟨fun hnone => ?_, fun t' ht' => ?_⟩
  · rw [hbegan'] at hnone
    cases hnone
  · obtain rfl : t = t' := some.inj (hbegan'.symm.trans ht')
    refine ⟨?_, by omega, fun hlimit => ?_⟩
    · unfold next
      rw [h.later hstatus]
      change (update s.table p.number _ p.number).lastPFStatus = true
      rw [update_self]
      exact hstatus
    · rw [hlast, hbase] at hlimit
      have hlimit' : s.base + (s.last - t) / 1000 < 32768 * 3600 := by omega
      have hcounted := hcounts hlimit'
      have hhours := hours_le hcounted hlimit'
      obtain ⟨hseconds, htotal, hout⟩ := hright (by omega)
      have hfew : s.passed t x < 7200 := by
        have hbound := hregular (by omega)
        rw [hbegan, exact_eq hcounted hbegan ht hle] at hbound
        have hlt := hbound.2
        unfold HourMeter.total at hlt
        omega
      refine ⟨hseconds, htotal.trans hexact, hout, ?_⟩
      rw [(next_later h hhours hstatus).2.2]
      exact lastTime_eq hcounted ht hle hfew

/-! ### All of them -/

theorem right_iff_regular (hinv : s.Inv p) (h : s.Legal p x) : s.Right p x ↔ s.Regular p x := by
  rcases hbegan : s.began with _ | t
  · exact first_right_iff hinv h hbegan
  · exact later_right_iff hinv h hbegan

theorem inv_next (hinv : s.Inv p) (h : s.Legal p x) (hregular : s.Regular p x) :
    (s.next p x).Inv p := by
  rcases hbegan : s.began with _ | t
  · exact first_inv hinv h hbegan hregular
  · exact later_inv hinv h hbegan hregular

end HourRun

/-! ## Seconds of a day -/

section

variable {t u : TimeOfDay} {x : BitVec 16} {i : BodyInput} {junk : Nat → BitVec 16}

theorem htosSeconds_ofTime : htosSeconds (.ofTime t) = BitVec.ofNat 16 t.seconds := by
  obtain ⟨hhour, hminute, hsecond⟩ := ClockWords.ofTime_toNat t
  unfold htosSeconds TimeOfDay.seconds
  congr 1
  omega

theorem stohTime_eq (x : BitVec 16) : stohTime x = .ofTime (.ofSeconds x.toNat) := by
  have hday : ((x.toNat : Int) % 86400).toNat = x.toNat := by omega
  obtain ⟨hhour, hminute, hsecond⟩ := ClockWords.ofTime_toNat (.ofSeconds x.toNat)
  apply clockWords_eq
  · rw [hhour]
    simp only [TimeOfDay.ofSeconds, hday]
    rfl
  · rw [hminute]
    simp only [TimeOfDay.ofSeconds, hday]
    change x.toNat % 3600 / 60 = x.toNat / 60 % 60
    omega
  · rw [hsecond]
    simp only [TimeOfDay.ofSeconds, hday]
    rfl

theorem list_inj {w w' : ClockWords} (h : w.list = w'.list) : w = w' := by
  cases w
  cases w'
  simpa [ClockWords.list] using h

/-- The seconds of a time that `STOH` gives back are below 65536. -/
theorem ofSeconds_cut_iff : TimeOfDay.ofSeconds (BitVec.ofNat 16 t.seconds).toNat = t ↔
    t.seconds < 65536 := by
  rw [toNat_ofNat]
  constructor
  · intro h
    have hseconds := @TimeOfDay.seconds_ofSeconds ((t.seconds % 2 ^ 16 : Nat) : Int)
    rw [h] at hseconds
    omega
  · intro hlt
    rw [mod_eq_of_lt hlt]
    exact TimeOfDay.ofSeconds_seconds

theorem htos_eq (hpower : getPowerFlow i.inPF = true)
    (hwords : i.words 2 0 3 i.store = .ok (ClockWords.ofTime t).list) :
    runCiHtosIns junk i = i.storedWords 6 [BitVec.ofNat 16 t.seconds] i.store := by
  obtain ⟨hhour, hminute, hsecond⟩ := ClockWords.ofTime_toNat t
  have hnot : ¬ (23 < (ClockWords.ofTime t).hour ∨ 59 < (ClockWords.ofTime t).minute ∨
      59 < (ClockWords.ofTime t).second) := by
    have hlt := t.hour_lt
    have hlt' := t.minute_lt
    have hlt'' := t.second_lt
    simp only [lt_def, reduceToNat]
    omega
  refine runChecked_eq hpower ?_
  rw [hwords]
  exact (if_neg hnot).trans (congrArg ok htosSeconds_ofTime)

theorem stoh_eq (hpower : getPowerFlow i.inPF = true) (hword : i.word 2 0 i.store = .ok x) :
    runCiStohIns i =
      i.storedWords 6 (ClockWords.ofTime (.ofSeconds x.toNat)).list i.store := by
  rw [← stohTime_eq]
  exact runChecked_eq hpower hword

/-- The code of an instruction on two operands and a count. -/
theorem fromTo_code {src dst : List UInt8} {n : BitVec 16} {s : Store} :
    (fromTo src dst n s).ucode.CodeAt 2 src ∧
      (fromTo src dst n s).ucode.CodeAt (2 + src.length) dst := by
  have hcode : (fromTo src dst n s).ucode.CodeAt 0 ([0, 0] ++ (src ++ (dst ++ wordOperand n))) := by
    have hself : (fromTo src dst n s).ucode.CodeAt 0 _ := Ucode.codeAt_self
    simpa only [fromTo, List.append_assoc] using hself
  obtain ⟨-, hcode⟩ := Ucode.codeAt_append.mp hcode
  obtain ⟨hsrc, hcode⟩ := Ucode.codeAt_append.mp hcode
  exact ⟨hsrc, (Ucode.codeAt_append.mp hcode).1⟩

theorem time_of_stoh (hd0 : i.ucode.CodeAt (i.pc + 6) d0Operand)
    (hpower : getPowerFlow i.inPF = true) (hword : i.word 2 0 i.store = .ok x)
    (h : runCiStohIns i = i.storedWords 6 (ClockWords.ofTime t).list i.store) :
    TimeOfDay.ofSeconds x.toNat = t := by
  have hlength : (ClockWords.ofTime t).list.length =
      (ClockWords.ofTime (.ofSeconds x.toNat)).list.length := rfl
  have hlist := storedWords_d0_inj hd0 list_length_le hlength
    ((stoh_eq hpower hword).symm.trans h)
  exact ClockWords.ofTime_injective (list_inj hlist)

theorem restoresTime_iff : RestoresTime t ↔ t.seconds < 65536 := by
  rw [← ofSeconds_cut_iff]
  constructor
  · intro h
    have hwords : (fromTo d0Operand d0Operand 0 (listFromD0 (ClockWords.ofTime t).list)).words 2 0 3
        (listFromD0 (ClockWords.ofTime t).list) = .ok (ClockWords.ofTime t).list :=
      words_listFromD0 fromTo_code.1 list_length_le
    have hhtos := @htos_eq t _ (fun _ => 0) getPowerFlow_one hwords
    have hone : [BitVec.ofNat 16 t.seconds].length ≤ 8000 := succ_le_succ (Nat.zero_le 7999)
    rcases h (fun _ => 0) _ getPowerFlow_one hwords with herror | ⟨x, hstored, hback⟩
    · rw [hhtos] at herror
      exact absurd (storedWords_d0 fromTo_code.2 hone).1 herror
    · have hx : [BitVec.ofNat 16 t.seconds] = [x] :=
        storedWords_d0_inj fromTo_code.2 hone rfl (hhtos.symm.trans hstored)
      obtain rfl := singleton_inj.mp hx
      have hword : (fromTo (wordOperand (BitVec.ofNat 16 t.seconds)) d0Operand 0
          Store.off).word 2 0 Store.off = .ok (BitVec.ofNat 16 t.seconds) :=
        word_literal fromTo_code.1
      exact time_of_stoh fromTo_code.2 getPowerFlow_one hword (hback _ getPowerFlow_one hword)
  · intro h junk i hpower hwords
    refine .inr ⟨_, htos_eq hpower hwords, fun j hpower' hword => ?_⟩
    rw [stoh_eq hpower' hword, h]

end

/-! ## Both together -/

open HourRun

theorem hours_right_iff_regular {p : HourPlace} {s : HourRun} {xs : List TimedExecution}
    (hinv : s.Inv p) (h : Each (next p) (fun s x => s.Legal p x) s xs) :
    Each (next p) (fun s x => s.Right p x) s xs ↔ Each (next p) (fun s x => s.Regular p x) s xs :=
  Each.iff_of_invariant hinv h (fun _ _ => right_iff_regular) fun _ _ => inv_next

/-- The first instance, with the preset 1, its meter in `D0` and `D1`, and its output in `M0`. -/
def hourPlace : HourPlace where
  number := 0
  preset := 1
  block := .elems (.elem .D) 8000 0
  area := .elem .M
  index := 0
  number_le := Nat.zero_le _
  kept := fun _ => rfl
  apart := fun k _ hmem => by cases mem_singleton.mp hmem

def hourAt (m : HourMeter) (time : Nat) : TimedExecution where
  time := time
  input :=
    { ucode := [0, 0] ++ wordOperand 1 ++ d0Operand ++ [0, 0x05, 0, 0] ++ [0, 0], pc := 0,
      level := 0, now := 0, inPF := 1, sfc := Plc.off.sfc, store := listFromD0 m.list }

theorem hourAt_legal {s : HourRun} {m : HourMeter} {time : Nat} (hm : s.meter = m)
    (hout : s.out = false) (h : s.last ≤ time) : s.Legal hourPlace (hourAt m time) where
  power := getPowerFlow_one
  le := h
  number := rfl
  preset := rfl
  block := ⟨rfl, fun htype => (by cases htype), (by decide : 0 + 2 ≤ 8000)⟩
  hours := by
    rw [hm]
    rfl
  seconds := by
    rw [hm]
    rfl
  out := hout.symm
  output := rfl

end Kalyke
