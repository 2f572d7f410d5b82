-- SUMMARY: `ANS` and `ANR` over whole runs: when `SD401` and `SM401` show the least alarm.
import Kalyke.Exec.Stored
import Kalyke.Exec.TimerIns
import Kalyke.Lib.Runs
import Kalyke.Lib.ShowsLeast

/-!
# Alarms

`ANS` switches an alarm step on when its timer has reached its destination, `ANR` switches the least
one off. Both keep the least alarm that is on in `SD401`, and whether there is one in `SM401`. The
least number that `ANS` has seen is in a static variable, which is 999 where there is none.
-/

namespace Kalyke

open List Option

/-! ## The instructions -/

/-- The timer of `ANS`, with the destination as it has been read. -/
def TimerCells.ans (now : BitVec 32) (flow : Bool) (t : TimerCells) : TimerCells :=
  let t := if t.timer.enable then t else { t with timer.start := now }
  if flow then
    if 0x7FFF ≤ t.value then t.setEnable false
    else (t.setEnable true).count (some 100) now
  else { t.setEnable false with value := 0, timer.start := now }

/-- What `ANS` does where the timer has reached its destination, with `ssv_MinAlarmSElement`. -/
def raiseAlarm (a : Nat) (s : Store) (minAlarm : Nat) : Store × Nat :=
  let s := s.setBit (.elem .S) a true
  if s.getBit (.elem .SM) 100 then
    let s := s.setBit (.elem .SM) 401 true
    if a < minAlarm then (s.setWord (.elem .SD) 401 (BitVec.ofNat 16 a), a) else (s, minAlarm)
  else (s, minAlarm)

def runCiAnsIns (i : BodyInput) (minAlarm : Nat) : BodyResult × Nat :=
  let n := i.ucode.getPU16 (i.pc + 4)
  if timerCnt10ms ≤ n then ((.error .overElementRang, i.inPF, i.store), minAlarm)
  else
    let dest := getWord i.ucode (i.pc + 6) i.store i.level 0 1
    let t := { i.store.timerCells n with timer.capacity := 2, timer.type := 0 }.setDest dest.2
    match dest.1 with
    | .error e => ((.error e, i.inPF, i.store.putTimer n t), minAlarm)
    | .ok () =>
      let a := i.ucode.getPU16 (i.pc + 12)
      if a < 900 ∨ 999 < a then
        ((.error .overElementRang, i.inPF, i.store.putTimer n t), minAlarm)
      else
        let t := t.ans i.now (getPowerFlow i.inPF)
        let s := i.store.putTimer n t
        if getPowerFlow i.inPF = true ∧ t.timer.dest ≤ t.value then
          ((.ok (), i.inPF, (raiseAlarm a s minAlarm).1), (raiseAlarm a s minAlarm).2)
        else ((.ok (), i.inPF, s), minAlarm)

/-- Where the loop over the alarms ends: at the first one that is on, or behind them. -/
def firstAlarm (s : Store) : Nat :=
  ((range' 900 100).find? fun k => s.getBit (.elem .S) k).getD 1000

/-- The loop of `ANR` for the least alarm. It ends after one pass, since its `break` stands behind
the test. -/
def refreshLeast (k : Nat) (s : Store) : Store :=
  if k ≤ 999 ∧ s.getBit (.elem .S) k = true then s.setWord (.elem .SD) 401 (BitVec.ofNat 16 k)
  else s

def runCiAnrIns (i : BodyInput) (minAlarm : Nat) : BodyResult × Nat :=
  if getPowerFlow i.inPF then
    let k := firstAlarm i.store
    let s := if k ≤ 999 then i.store.setBit (.elem .S) k false else i.store
    if s.getBit (.elem .SM) 400 then
      let s := refreshLeast k s
      if 999 < k then
        ((.ok (), i.inPF, (s.setBit (.elem .SM) 401 false).setWord (.elem .SD) 401 0), 999)
      else ((.ok (), i.inPF, s), minAlarm)
    else ((.ok (), i.inPF, s), minAlarm)
  else ((.ok (), i.inPF, i.store), minAlarm)

/-! ## Laws -/

/-- An instruction on alarms. -/
inductive AlarmIns where
  | ans
  | anr
deriving DecidableEq, Repr

def AlarmIns.body : AlarmIns → BodyInput → Nat → BodyResult × Nat
  | ans => runCiAnsIns
  | anr => runCiAnrIns

/-- An execution. -/
structure AlarmEvent where
  ins : AlarmIns
  input : BodyInput

/-- The elements after the last execution, and the static variable. -/
structure AlarmRun where
  store : Store
  minAlarm : Nat

namespace Store

def alarmsOn (s : Store) : Set Nat := {a | 900 ≤ a ∧ a ≤ 999 ∧ s.getBit (.elem .S) a = true}

def TellsAlarm (s : Store) (o : Option Nat) : Prop :=
  s.getWord (.elem .SD) 401 = BitVec.ofNat 16 (o.getD 0) ∧
    s.getBit (.elem .SM) 401 = o.isSome

def TellsLeast (s : Store) : Prop := ∃ o, ShowsLeast s.alarmsOn o ∧ s.TellsAlarm o

/-- The alarms, `SD401` and `SM401` are the same. -/
structure SameAlarms (s s' : Store) : Prop where
  steps : ∀ a, 900 ≤ a → a ≤ 999 → s'.getBit (.elem .S) a = s.getBit (.elem .S) a
  number : s'.getWord (.elem .SD) 401 = s.getWord (.elem .SD) 401
  acts : s'.getBit (.elem .SM) 401 = s.getBit (.elem .SM) 401

end Store

namespace AlarmRun

variable (s : AlarmRun) (x : AlarmEvent)

def next : AlarmRun :=
  ⟨(x.ins.body x.input s.minAlarm).1.2.2, (x.ins.body x.input s.minAlarm).2⟩

/-- The alarms are as the last execution has left them, and their monitoring is on. -/
def Legal : Prop :=
  s.store.SameAlarms x.input.store ∧ x.input.store.getBit (.elem .SM) 400 = true

def Right : Prop := (s.next x).store.TellsLeast

end AlarmRun

namespace BodyInput

variable (i : BodyInput)

/-- The number of the alarm of `ANS`. -/
def alarm : Nat := i.ucode.getPU16 (i.pc + 12)

/-- The timer of `ANS` before it counts. -/
def alarmTimer : TimerCells :=
  { i.store.timerCells (i.ucode.getPU16 (i.pc + 4)) with
      timer.capacity := 2, timer.type := 0 }.setDest
    (getWord i.ucode (i.pc + 6) i.store i.level 0 1).2

/-- `ANS` passes its checks, and its timer reaches its destination. -/
def Raises : Prop :=
  i.ucode.getPU16 (i.pc + 4) < timerCnt10ms ∧
    (getWord i.ucode (i.pc + 6) i.store i.level 0 1).1 = .ok () ∧
    900 ≤ i.alarm ∧ i.alarm ≤ 999 ∧ getPowerFlow i.inPF = true ∧
    (i.alarmTimer.ans i.now true).timer.dest ≤ (i.alarmTimer.ans i.now true).value

end BodyInput

/-- An alarm that is raised with `SM100` on is not 999 alone, and with `SM100` off it is not below
all others. `ANR` finds no alarm. -/
def AlarmEvent.Regular (x : AlarmEvent) : Prop :=
  match x.ins with
  | .ans => x.input.Raises →
    if x.input.store.getBit (.elem .SM) 100 then
      x.input.alarm = 999 → x.input.store.alarmsOn.Nonempty
    else ∃ a ∈ x.input.store.alarmsOn, a ≤ x.input.alarm
  | .anr => getPowerFlow x.input.inPF = true → x.input.store.alarmsOn = ∅
/-! ## What the instructions leave -/

section

variable {s s' u : Store} {a n m : Nat} {t : TimerCells} {o : Option Nat} {i : BodyInput}

theorem Store.SameAlarms.refl : s.SameAlarms s := ⟨fun _ _ _ => rfl, rfl, rfl⟩

theorem Store.SameAlarms.alarmsOn (h : s.SameAlarms s') : s'.alarmsOn = s.alarmsOn := by
  ext a
  refine and_congr_right fun ha => and_congr_right fun ha' => ?_
  rw [h.steps a ha ha']

theorem Store.SameAlarms.tellsAlarm (h : s.SameAlarms s') : s'.TellsAlarm o ↔ s.TellsAlarm o := by
  unfold Store.TellsAlarm
  rw [h.number, h.acts]

theorem sameAlarms_putTimer : s.SameAlarms (s.putTimer n t) := ⟨fun _ _ _ => rfl, rfl, rfl⟩

theorem alarmsOn_setBit_true (ha : 900 ≤ a) (ha' : a ≤ 999) :
    (s.setBit (.elem .S) a true).alarmsOn = insert a s.alarmsOn := by
  ext k
  by_cases hk : k = a
  · subst hk
    simp [Store.alarmsOn, ha, ha']
  · simp [Store.alarmsOn, getBit_setBit_of_ne hk, hk]

theorem raiseAlarm_alarmsOn (ha : 900 ≤ a) (ha' : a ≤ 999) :
    (raiseAlarm a s m).1.alarmsOn = insert a s.alarmsOn := by
  rw [← alarmsOn_setBit_true ha ha']
  unfold raiseAlarm
  dsimp only
  split
  · split <;> rfl
  · rfl

theorem raiseAlarm_on (h : s.getBit (.elem .SM) 100 = true) :
    (raiseAlarm a s m).1.getWord (.elem .SD) 401 =
        (if a < m then BitVec.ofNat 16 a else s.getWord (.elem .SD) 401) ∧
      (raiseAlarm a s m).1.getBit (.elem .SM) 401 = true ∧
      (raiseAlarm a s m).2 = if a < m then a else m := by
  have hsm : (s.setBit (.elem .S) a true).getBit (.elem .SM) 100 = true := h
  unfold raiseAlarm
  rw [if_pos hsm]
  split
  · exact ⟨rfl, rfl, rfl⟩
  · exact ⟨rfl, rfl, rfl⟩

/-- Without it nothing else is done. -/
theorem raiseAlarm_off (h : s.getBit (.elem .SM) 100 = false) :
    raiseAlarm a s m = (s.setBit (.elem .S) a true, m) := by
  have hsm : (s.setBit (.elem .S) a true).getBit (.elem .SM) 100 = false := h
  simp only [raiseAlarm, hsm, Bool.false_eq_true, if_false]

theorem ans_of_raises (h : i.Raises) : ∃ u, i.store.SameAlarms u ∧
    u.getBit (.elem .SM) 100 = i.store.getBit (.elem .SM) 100 ∧
    runCiAnsIns i m =
      ((.ok (), i.inPF, (raiseAlarm i.alarm u m).1), (raiseAlarm i.alarm u m).2) := by
  obtain ⟨hn, hdest, ha, ha', hpower, hreached⟩ := h
  refine ⟨i.store.putTimer (i.ucode.getPU16 (i.pc + 4)) (i.alarmTimer.ans i.now true),
    sameAlarms_putTimer, rfl, ?_⟩
  have hnot : ¬ (i.ucode.getPU16 (i.pc + 12) < 900 ∨ 999 < i.ucode.getPU16 (i.pc + 12)) :=
    not_or.mpr ⟨Nat.not_lt.mpr ha, Nat.not_lt.mpr ha'⟩
  unfold BodyInput.alarmTimer at hreached
  simp only [runCiAnsIns, if_neg (Nat.not_le.mpr hn), hdest, if_neg hnot, hpower, true_and,
    if_pos hreached]
  rfl

theorem ans_of_not_raises (h : ¬ i.Raises) :
    i.store.SameAlarms (runCiAnsIns i m).1.2.2 ∧ (runCiAnsIns i m).2 = m := by
  unfold runCiAnsIns
  dsimp only
  split
  · exact ⟨.refl, rfl⟩
  · rename_i hn
    split
    · exact ⟨sameAlarms_putTimer, rfl⟩
    · rename_i hdest
      split
      · exact ⟨sameAlarms_putTimer, rfl⟩
      · rename_i halarm
        obtain ⟨ha, ha'⟩ := not_or.mp halarm
        split
        · rename_i hreached
          obtain ⟨hpower, hreached⟩ := hreached
          rw [hpower] at hreached
          exact absurd ⟨Nat.not_le.mp hn, hdest, Nat.not_lt.mp ha, Nat.not_lt.mp ha', hpower,
            hreached⟩ h
        · exact ⟨sameAlarms_putTimer, rfl⟩

theorem firstAlarm_eq (h : ShowsLeast s.alarmsOn o) : firstAlarm s = o.getD 1000 := by
  unfold firstAlarm
  congr 1
  cases o with
  | none =>
    rw [find?_range'_eq_none]
    intro a ha ha'
    by_contra hon
    exact Set.eq_empty_iff_forall_notMem.mp h a ⟨ha, by omega, by simpa using hon⟩
  | some l =>
    obtain ⟨⟨hl, hl', hon⟩, hleast⟩ := h
    rw [find?_range'_eq_some]
    refine ⟨hon, mem_range'_1.mpr ⟨hl, by omega⟩, fun a ha hlt => ?_⟩
    by_contra hon'
    have hle := hleast ⟨ha, by omega, by simpa using hon'⟩
    omega

theorem anr_none (h : i.store.alarmsOn = ∅) (hsm : i.store.getBit (.elem .SM) 400 = true)
    (hpower : getPowerFlow i.inPF = true) :
    runCiAnrIns i m =
      ((.ok (), i.inPF, (i.store.setBit (.elem .SM) 401 false).setWord (.elem .SD) 401 0),
        999) := by
  have hfirst : firstAlarm i.store = 1000 := firstAlarm_eq (o := none) h
  simp only [runCiAnrIns, hpower, hfirst]
  have hnot : ¬ 1000 ≤ 999 := by decide
  simp only [hsm, hnot, if_false]
  rfl

/-- Where alarms are on, the least one is switched off, and nothing else is done. -/
theorem anr_some (h : ShowsLeast i.store.alarmsOn (some a))
    (hsm : i.store.getBit (.elem .SM) 400 = true) (hpower : getPowerFlow i.inPF = true) :
    runCiAnrIns i m = ((.ok (), i.inPF, i.store.setBit (.elem .S) a false), m) := by
  have hfirst : firstAlarm i.store = a := firstAlarm_eq h
  have hle : a ≤ 999 := h.mem.2.1
  have hsm' : (i.store.setBit (.elem .S) a false).getBit (.elem .SM) 400 = true := hsm
  have hoff : (i.store.setBit (.elem .S) a false).getBit (.elem .S) a = false :=
    getBit_setBit_self (.elem .S) a false
  simp only [runCiAnrIns, hpower, if_true, hfirst, if_pos hle, hsm', refreshLeast, hoff,
    Bool.false_eq_true, and_false, if_false, if_neg (Nat.not_lt.mpr hle)]

end

/-! ## Runs -/

namespace AlarmRun

/-- `SD401` and `SM401` tell of the least alarm that is on, and the static variable is its number,
or 999 where there is none. -/
def Inv (s : AlarmRun) : Prop :=
  ∃ o, ShowsLeast s.store.alarmsOn o ∧ s.store.TellsAlarm o ∧ s.minAlarm = o.getD 999

/-- No alarm is on, and none has been. -/
structure Fresh (s : AlarmRun) : Prop where
  quiet : s.store.alarmsOn = ∅
  tells : s.store.TellsAlarm none
  minAlarm : s.minAlarm = 999

variable {s : AlarmRun} {x : AlarmEvent} {o o' : Option Nat} {a l : Nat} {u : Store}

theorem Fresh.inv (h : s.Fresh) : s.Inv := ⟨none, h.quiet, h.tells, h.minAlarm⟩

theorem tellsLeast_iff (h : ShowsLeast u.alarmsOn o) : u.TellsLeast ↔ u.TellsAlarm o := by
  constructor
  · rintro ⟨o', ho', htells⟩
    rwa [h.unique ho']
  · exact fun htells => ⟨o, h, htells⟩

theorem ofNat_alarm_inj (ha : a ≤ 999) (hl : l ≤ 999)
    (h : BitVec.ofNat 16 a = BitVec.ofNat 16 l) : a = l := by
  have hnat := congrArg BitVec.toNat h
  rw [BitVec.toNat_ofNat, BitVec.toNat_ofNat] at hnat
  omega

/-- Of one alarm at most is told. -/
theorem tellsAlarm_unique (h : u.TellsAlarm (some l)) (h' : u.TellsAlarm o') (hl : l ≤ 999)
    (hle : ∀ k ∈ o', k ≤ 999) : o' = some l := by
  cases o' with
  | none => cases h.2.symm.trans h'.2
  | some k => exact congrArg some (ofNat_alarm_inj (hle k rfl) hl (h'.1.symm.trans h.1))

/-! ### Alarms that are raised -/

/-- What the elements tell of after an alarm has been raised with `SM100` on. -/
theorem raise_on_iff (hu : ShowsLeast u.alarmsOn o) (htells : u.TellsAlarm o)
    (hon : u.getBit (.elem .SM) 100 = true) (ha : 900 ≤ a) (ha' : a ≤ 999) :
    (raiseAlarm a u (o.getD 999)).1.TellsAlarm (some (o.elim a (min a))) ↔
      (a = 999 → u.alarmsOn.Nonempty) := by
  obtain ⟨hnumber, hacts, -⟩ := @raiseAlarm_on u a (o.getD 999) hon
  unfold Store.TellsAlarm
  rw [hnumber, hacts, htells.1]
  cases o with
  | none =>
    have hempty : ¬ u.alarmsOn.Nonempty := Set.not_nonempty_iff_eq_empty.mpr hu
    simp only [getD_none, elim_none, getD_some, isSome_some, and_true,
      hempty, imp_false]
    constructor
    · rintro heq rfl
      exact absurd heq (by decide)
    · intro hne
      rw [if_pos (by omega)]
  | some l =>
    have hmem : u.alarmsOn.Nonempty := ⟨l, hu.mem⟩
    simp only [getD_some, elim_some, isSome_some, and_true, hmem,
      implies_true, iff_true]
    split
    · rename_i hlt
      rw [min_eq_left (Nat.le_of_lt hlt)]
    · rename_i hnot
      rw [min_eq_right (Nat.le_of_not_lt hnot)]

/-- What they tell of after one has been raised with `SM100` off. -/
theorem raise_off_iff {m : Nat} (hu : ShowsLeast u.alarmsOn o) (htells : u.TellsAlarm o)
    (hoff : u.getBit (.elem .SM) 100 = false) (ha' : a ≤ 999) :
    (raiseAlarm a u m).1.TellsAlarm (some (o.elim a (min a))) ↔ ∃ b ∈ u.alarmsOn, b ≤ a := by
  have hsame : (raiseAlarm a u m).1.TellsAlarm (some (o.elim a (min a))) ↔
      u.TellsAlarm (some (o.elim a (min a))) := by
    rw [raiseAlarm_off hoff]
    rfl
  rw [hsame, hu.exists_le_iff]
  unfold Store.TellsAlarm at htells ⊢
  rw [htells.1, htells.2]
  cases o with
  | none =>
    constructor
    · rintro ⟨-, hsome⟩
      cases hsome
    · rintro ⟨l, hl, -⟩
      cases hl
  | some l =>
    simp only [elim_some, isSome_some, and_true, mem_some_iff, exists_eq_left']
    constructor
    · intro heq
      have hmin := ofNat_alarm_inj hu.mem.2.1 (Nat.le_trans (Nat.min_le_left a l) ha') heq
      exact min_eq_right_iff.mp hmin.symm
    · intro hle
      rw [min_eq_right hle]

theorem raise_right_iff {m : Nat} (hu : ShowsLeast u.alarmsOn o) (htells : u.TellsAlarm o)
    (hmin : m = o.getD 999) (ha : 900 ≤ a) (ha' : a ≤ 999) :
    let regular := if u.getBit (.elem .SM) 100 then a = 999 → u.alarmsOn.Nonempty
      else ∃ b ∈ u.alarmsOn, b ≤ a
    ((raiseAlarm a u m).1.TellsLeast ↔ regular) ∧
      (regular → AlarmRun.Inv ⟨(raiseAlarm a u m).1, (raiseAlarm a u m).2⟩) := by
  intro regular
  have hleast : ShowsLeast (raiseAlarm a u m).1.alarmsOn (some (o.elim a (min a))) := by
    rw [raiseAlarm_alarmsOn ha ha']
    exact hu.insert a
  have hiff : (raiseAlarm a u m).1.TellsAlarm (some (o.elim a (min a))) ↔ regular := by
    unfold regular
    split
    · rename_i hon
      rw [hmin]
      exact raise_on_iff hu htells hon ha ha'
    · rename_i hoff
      exact raise_off_iff hu htells (Bool.not_eq_true _ ▸ hoff) ha'
  refine ⟨(tellsLeast_iff hleast).trans hiff, fun hregular => ?_⟩
  refine ⟨_, hleast, hiff.mpr hregular, ?_⟩
  unfold regular at hregular
  split at hregular
  · rename_i hon
    rw [(@raiseAlarm_on u a m hon).2.2, hmin]
    cases o with
    | none =>
      have hne : a ≠ 999 := fun heq => Set.not_nonempty_iff_eq_empty.mpr hu (hregular heq)
      exact if_pos (by change a < 999; omega)
    | some l =>
      split
      · rename_i hlt
        exact (min_eq_left (Nat.le_of_lt hlt)).symm
      · rename_i hnot
        exact (min_eq_right (Nat.le_of_not_lt hnot)).symm
  · rename_i hoff
    obtain ⟨l, hl, hle⟩ := hu.exists_le_iff.mp hregular
    obtain rfl := mem_def.mp hl
    rw [raiseAlarm_off (Bool.not_eq_true _ ▸ hoff), hmin]
    exact (min_eq_right hle).symm

/-! ### The executions -/

theorem next_ans (hins : x.ins = .ans) : s.next x =
    ⟨(runCiAnsIns x.input s.minAlarm).1.2.2, (runCiAnsIns x.input s.minAlarm).2⟩ := by
  unfold next
  rw [hins]
  rfl

theorem next_anr (hins : x.ins = .anr) : s.next x =
    ⟨(runCiAnrIns x.input s.minAlarm).1.2.2, (runCiAnrIns x.input s.minAlarm).2⟩ := by
  unfold next
  rw [hins]
  rfl

theorem right_of_inv {s : AlarmRun} (h : s.Inv) : s.store.TellsLeast := by
  obtain ⟨o, ho, htells, -⟩ := h
  exact ⟨o, ho, htells⟩

theorem ans_right_iff (hinv : s.Inv) (h : s.Legal x) (hins : x.ins = .ans) :
    (s.Right x ↔ x.Regular) ∧ (x.Regular → (s.next x).Inv) := by
  obtain ⟨o, ho, htells, hmin⟩ := hinv
  obtain ⟨hsame, -⟩ := h
  have hu : ShowsLeast x.input.store.alarmsOn o := by rwa [hsame.alarmsOn]
  have htells' := hsame.tellsAlarm.mpr htells
  unfold Right AlarmEvent.Regular
  rw [next_ans hins, hins]
  by_cases hraises : x.input.Raises
  · obtain ⟨u, hsame', hsm, hrun⟩ := @ans_of_raises s.minAlarm x.input hraises
    have hu' : ShowsLeast u.alarmsOn o := by rwa [hsame'.alarmsOn]
    rw [hrun, ← hsm, ← hsame'.alarmsOn, forall_prop_of_true hraises]
    exact raise_right_iff hu' (hsame'.tellsAlarm.mpr htells') hmin hraises.2.2.1 hraises.2.2.2.1
  · obtain ⟨hsame', hmin'⟩ := @ans_of_not_raises s.minAlarm x.input hraises
    have hnext : AlarmRun.Inv ⟨(runCiAnsIns x.input s.minAlarm).1.2.2,
        (runCiAnsIns x.input s.minAlarm).2⟩ :=
      ⟨o, by rwa [hsame'.alarmsOn], hsame'.tellsAlarm.mpr htells', hmin'.trans hmin⟩
    exact ⟨iff_of_true (right_of_inv hnext) fun hyes => absurd hyes hraises, fun _ => hnext⟩

theorem anr_right_iff (hinv : s.Inv) (h : s.Legal x) (hins : x.ins = .anr) :
    (s.Right x ↔ x.Regular) ∧ (x.Regular → (s.next x).Inv) := by
  obtain ⟨o, ho, htells, hmin⟩ := hinv
  obtain ⟨hsame, hsm⟩ := h
  have hu : ShowsLeast x.input.store.alarmsOn o := by rwa [hsame.alarmsOn]
  have htells' := hsame.tellsAlarm.mpr htells
  unfold Right AlarmEvent.Regular
  rw [next_anr hins, hins]
  by_cases hpower : getPowerFlow x.input.inPF = true
  · rw [forall_prop_of_true hpower]
    cases o with
    | none =>
      have hempty : x.input.store.alarmsOn = ∅ := hu
      rw [anr_none hempty hsm hpower]
      have hnext : AlarmRun.Inv
          ⟨(x.input.store.setBit (.elem .SM) 401 false).setWord (.elem .SD) 401 0, 999⟩ :=
        ⟨none, hu, ⟨rfl, rfl⟩, rfl⟩
      exact ⟨iff_of_true (right_of_inv hnext) hempty, fun _ => hnext⟩
    | some l =>
      have hnonempty : ¬ x.input.store.alarmsOn = ∅ := fun hempty =>
        Set.eq_empty_iff_forall_notMem.mp hempty l hu.mem
      rw [anr_some hu hsm hpower]
      refine ⟨iff_of_false ?_ hnonempty, fun hempty => absurd hempty hnonempty⟩
      rintro ⟨o', ho', htells''⟩
      have hle : ∀ k ∈ o', k ≤ 999 := by
        intro k hk
        obtain rfl := mem_def.mp hk
        exact ho'.mem.2.1
      obtain rfl := tellsAlarm_unique htells' htells'' hu.mem.2.1 hle
      have hoff := (ho'.mem).2.2
      rw [getBit_setBit_self] at hoff
      cases hoff
  · have hrun : runCiAnrIns x.input s.minAlarm =
        ((.ok (), x.input.inPF, x.input.store), s.minAlarm) := by
      unfold runCiAnrIns
      rw [if_neg hpower]
    have hnext : AlarmRun.Inv ⟨(runCiAnrIns x.input s.minAlarm).1.2.2,
        (runCiAnrIns x.input s.minAlarm).2⟩ := by
      rw [hrun]
      exact ⟨o, hu, htells', hmin⟩
    exact ⟨iff_of_true (right_of_inv hnext) fun hyes => absurd hyes hpower, fun _ => hnext⟩

end AlarmRun

open AlarmRun

theorem alarms_right_iff_regular {s : AlarmRun} {xs : List AlarmEvent} (hinv : s.Inv)
    (h : Each next (fun s x => s.Legal x) s xs) :
    Each next (fun s x => s.Right x) s xs ↔ Each next (fun _ x => x.Regular) s xs := by
  have hstep (s : AlarmRun) (x : AlarmEvent) (hinv : s.Inv) (h : s.Legal x) :
      (s.Right x ↔ x.Regular) ∧ (x.Regular → (s.next x).Inv) := by
    rcases hins : x.ins with _ | _
    · exact ans_right_iff hinv h hins
    · exact anr_right_iff hinv h hins
  exact Each.iff_of_invariant hinv h (fun s x hinv h => (hstep s x hinv h).1)
    fun s x hinv h => (hstep s x hinv h).2

/-- The least alarm is shown just as long as `ANR` finds none and `ANS` raises them with `SM100` on,
but for 999 alone, or above others. -/
theorem alarms_right_iff (s : AlarmRun) (xs : List AlarmEvent) (hs : s.Fresh)
    (h : Each next (fun s x => s.Legal x) s xs) :
    Each next (fun s x => s.Right x) s xs ↔ Each next (fun _ x => x.Regular) s xs :=
  alarms_right_iff_regular hs.inv h

/-- Everything is off but the monitoring of alarms, and `SM100` is as it is. -/
def monitored (b : Bool) : Store :=
  (Store.off.setBit (.elem .SM) 400 true).setBit (.elem .SM) 100 b

/-- `ANS` raises the alarm 900 with the timer 0, whose destination is zero. -/
def raise900 (b : Bool) : AlarmEvent where
  ins := .ans
  input :=
    { ucode := [0, 0, 0, 0, 0, 0] ++ wordOperand 0 ++ [0, 0, 0x84, 0x03], pc := 0, level := 0,
      now := 0, inPF := 1, sfc := Plc.off.sfc, store := monitored b }

theorem monitored_fresh (b : Bool) : AlarmRun.Fresh ⟨monitored b, 999⟩ where
  quiet := by
    refine Set.eq_empty_iff_forall_notMem.mpr fun a ha => ?_
    cases ha.2.2
  tells := ⟨rfl, rfl⟩
  minAlarm := rfl

theorem raise900_legal (b : Bool) :
    Each next (fun s x => s.Legal x) ⟨monitored b, 999⟩ [raise900 b] :=
  Each.cons_iff.mpr ⟨⟨.refl, rfl⟩, Each.nil⟩

theorem raise900_raises (b : Bool) : (raise900 b).input.Raises :=
  ⟨by decide +revert, rfl, by decide +revert, by decide +revert, getPowerFlow_one,
    by decide +revert⟩

/-- With `SM100` on it is shown. -/
theorem raise900_right :
    Each next (fun s x => s.Right x) ⟨monitored true, 999⟩ [raise900 true] := by
  refine (alarms_right_iff _ _ (monitored_fresh true) (raise900_legal true)).mpr
    (Each.cons_iff.mpr ⟨fun _ => ?_, Each.nil⟩)
  intro h
  exact absurd h (by decide)

/-- With `SM100` off it is not, though `SM400` is on. -/
theorem raise900_not_shown : ¬ ∀ (s : AlarmRun) (xs : List AlarmEvent), s.Fresh →
    Each next (fun s x => s.Legal x) s xs → Each next (fun s x => s.Right x) s xs := by
  intro hall
  have hregular := (alarms_right_iff_regular (monitored_fresh false).inv (raise900_legal false)).mp
    (hall _ _ (monitored_fresh false) (raise900_legal false))
  obtain ⟨a, ha, -⟩ := (Each.cons_iff.mp hregular).1 (raise900_raises false)
  cases ha.2.2

end Kalyke
