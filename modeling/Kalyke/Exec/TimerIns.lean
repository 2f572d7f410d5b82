-- SUMMARY: The timers `TON`, `TONR`, `TOF` and `TMON`, their reset, and the refresh of the fast timers.
import Kalyke.Exec.DataProcessing
import Kalyke.Exec.RoundTrip

/-!
# Timers

`plc_timeins.c`. A timer has a status, a destination and a start value, beside its value and its bit
among the elements. The timers below 256 count in 100 ms, those below 384 in 10 ms, the others in
1 ms.

An instruction counts the whole units that have passed since the start value, and moves the start
value on by as many. `plc_refresh_10ms_1ms_timer` does the same for the fast timers between the
instructions.
-/

namespace Kalyke

open List

/-- `T_ELEMENT_100MS_TIMER_CNT`. -/
def timerCnt100ms : Nat := 256

/-- `T_ELEMENT_10MS_TIMER_CNT`. -/
def timerCnt10ms : Nat := 128

/-- A timer with its value and its bit. -/
structure TimerCells where
  timer : Timer
  value : BitVec 16
  bit : Bool
deriving DecidableEq, Repr

namespace Store

/-- The timer with a number. -/
def timerCells (s : Store) (n : Nat) : TimerCells := ⟨s.timer n, s.word .T n, s.bit .T n⟩

/-- The same elements with another timer in its place. -/
def putTimer (s : Store) (n : Nat) (t : TimerCells) : Store :=
  { (s.setBit (.elem .T) n t.bit).setWord (.elem .T) n t.value with
    timer := Function.update s.timer n t.timer }

end Store

def timeAccuracy (n : Nat) : Fin 8 :=
  if n < timerCnt100ms then 2 else if n < timerCnt100ms + timerCnt10ms then 1 else 0

/-- The milliseconds of a unit. -/
def timeUnit (accuracy : Fin 8) : Option (BitVec 32) :=
  if accuracy = 2 then some 100
  else if accuracy = 1 then some 10
  else if accuracy = 0 then some 1
  else none

namespace TimerCells

/-- A timer as `plc_reset_one_timer` leaves it. -/
def reset (now : BitVec 32) : TimerCells := ⟨resetTimer now, 0, false⟩

def setEnable (t : TimerCells) (b : Bool) : TimerCells := { t with timer.enable := b }

/-- What `get_word` has left at the destination. -/
def setDest (t : TimerCells) (xs : List (BitVec 16)) : TimerCells :=
  { t with timer.dest := xs.headD t.timer.dest }

def firstStart (t : TimerCells) (n : Nat) (type : Fin 4) (now : BitVec 32) : TimerCells :=
  { t with
    timer.init := true
    timer.capacity := timeAccuracy n
    timer.type := type
    timer.start := now }

def count (unit : Option (BitVec 32)) (now : BitVec 32) (t : TimerCells) : TimerCells :=
  match unit with
  | some unit =>
    let units := (now - t.timer.start) / unit
    { t with
      value := t.value + units.setWidth 16
      timer.start := t.timer.start + units * unit }
  | none => t

/-- The counting of the instructions. -/
def advance (now : BitVec 32) (t : TimerCells) : TimerCells :=
  t.count (timeUnit t.timer.capacity) now

/-- `run_ci_ton_ins` on its timer, with the power flow and the destination as `get_word` returns
it. -/
def ton (n : Nat) (now : BitVec 32) (flow : Bool) (dest : Except PlcErr Unit × List (BitVec 16))
    (t : TimerCells) : Except PlcErr Unit × TimerCells :=
  if flow then
    let t := t.setDest dest.2
    match dest.1 with
    | .error e => (.error e, t)
    | .ok () =>
      let t := if t.timer.init then t else t.firstStart n 0 now
      if 0x7FFF ≤ t.value then (.ok (), { t.setEnable false with bit := true })
      else
        let t := (t.setEnable true).advance now
        (.ok (), if t.timer.dest ≤ t.value then { t with bit := true } else t)
  else if t.timer.init then (.ok (), reset now)
  else (.ok (), t)

/-- `run_ci_tonr_ins` on its timer. -/
def tonr (n : Nat) (now : BitVec 32) (flow : Bool) (dest : Except PlcErr Unit × List (BitVec 16))
    (t : TimerCells) : Except PlcErr Unit × TimerCells :=
  if flow then
    let t := t.setDest dest.2
    match dest.1 with
    | .error e => (.error e, t)
    | .ok () =>
      let t := if t.timer.init then t else t.firstStart n 1 now
      if 0x7FFF ≤ t.value then (.ok (), { t with bit := true })
      else if t.timer.enable = false then
        (.ok (), { t with timer.enable := true, timer.start := now })
      else
        let t := t.advance now
        (.ok (), if t.timer.dest ≤ t.value then { t with bit := true } else t)
  else if t.timer.init then (.ok (), { t with timer.enable := false, timer.start := now })
  else (.ok (), t)

/-- Where `TOF` and `TMON` have reached the destination they stop and switch the bit off. -/
def expire (t : TimerCells) : TimerCells :=
  if t.timer.dest ≤ t.value then { t.setEnable false with bit := false } else t

/-- `TOF` and `TMON` count where they are enabled. -/
def elapse (now : BitVec 32) (t : TimerCells) : TimerCells :=
  if t.timer.enable then (t.advance now).expire else t

/-- `run_ci_tof_ins` on its timer. With power flow the whole status byte is cleared, but for the
memory of the power flow. -/
def tof (n : Nat) (now : BitVec 32) (flow : Bool) (dest : Except PlcErr Unit × List (BitVec 16))
    (t : TimerCells) : Except PlcErr Unit × TimerCells :=
  if flow then
    (.ok (), ⟨⟨false, true, false, 0, 0, t.timer.dest, t.timer.start⟩, 0, true⟩)
  else
    let t := t.setDest dest.2
    match dest.1 with
    | .error e => (.error e, t)
    | .ok () =>
      let t := if t.timer.init = false ∧ t.timer.powerFlow then
          (t.firstStart n 2 now).setEnable true
        else t
      (.ok (), t.elapse now)

/-- `run_ci_tmon_ins` on its timer. The value is not cleared when the timer starts. -/
def tmon (n : Nat) (now : BitVec 32) (flow : Bool) (dest : Except PlcErr Unit × List (BitVec 16))
    (t : TimerCells) : Except PlcErr Unit × TimerCells :=
  if flow then
    if t.timer.powerFlow = false then
      let t := { t with timer.powerFlow := true, timer.capacity := timeAccuracy n }.setDest dest.2
      match dest.1 with
      | .error e => (.error e, t)
      | .ok () =>
        let t := { t.setEnable true with timer.type := 3, timer.start := now, bit := true }
        (.ok (), t.elapse now)
    else (.ok (), t.elapse now)
  else (.ok (), { t with timer.powerFlow := false }.elapse now)

/-- The milliseconds of a unit that `plc_refresh_10ms_1ms_timer` counts. -/
def refreshUnit (accuracy : Fin 8) : Option (BitVec 32) :=
  if accuracy = 1 then some 10
  else if accuracy = 0 then some 1
  else none

/-- One pass of the loop of `plc_refresh_10ms_1ms_timer`. -/
def refresh (now : BitVec 32) (t : TimerCells) : TimerCells :=
  if t.timer.enable = false then t
  else
    let t := t.count (refreshUnit t.timer.capacity) now
    let t := if 0x7FFF ≤ t.value then t.setEnable false else t
    if t.timer.dest ≤ t.value then { t with bit := decide (t.timer.type ≠ 2) } else t

end TimerCells

/-- An instruction on a timer: its number follows the code, its destination the number. -/
def runTimer (body : Nat → BitVec 32 → Bool → Except PlcErr Unit × List (BitVec 16) → TimerCells →
    Except PlcErr Unit × TimerCells) (i : BodyInput) : BodyResult :=
  let n := i.ucode.getPU16 (i.pc + 4)
  let r := body n i.now (getPowerFlow i.inPF) (getWord i.ucode (i.pc + 6) i.store i.level 0 1)
    (i.store.timerCells n)
  (r.1, i.inPF, i.store.putTimer n r.2)

def runCiTonIns (i : BodyInput) : BodyResult := runTimer TimerCells.ton i

def runCiTonrIns (i : BodyInput) : BodyResult := runTimer TimerCells.tonr i

def runCiTofIns (i : BodyInput) : BodyResult := runTimer TimerCells.tof i

def runCiTmonIns (i : BodyInput) : BodyResult := runTimer TimerCells.tmon i

/-- `run_ci_rst_t_ins`. -/
def runCiRstTIns (i : BodyInput) : BodyResult :=
  if getPowerFlow i.inPF then
    (.ok (), i.inPF, i.store.plcResetOneTimer i.now (i.ucode.getPU16 (i.pc + 4)))
  else (.ok (), i.inPF, i.store)

/-- `plc_refresh_10ms_1ms_timer`. The loop starts at the number of timers of 10 ms, not at the first
of them. -/
def plcRefresh10ms1msTimer (now : BitVec 32) (s : Store) : Store :=
  (range' timerCnt10ms (WordElement.rang .T - timerCnt10ms)).foldl
    (fun s n => s.putTimer n ((s.timerCells n).refresh now)) s

/-! ## The timers of a store -/

namespace Store

variable {s : Store} {n k : Nat} {t : TimerCells}

theorem timerCells_putTimer_self : (s.putTimer n t).timerCells n = t := by
  simp [timerCells, putTimer, setBit, setWord]

theorem timerCells_putTimer_of_ne (h : k ≠ n) : (s.putTimer n t).timerCells k = s.timerCells k := by
  simp [timerCells, putTimer, setBit, setWord, h]

end Store

section

variable {s : Store} {n : Nat} {now : BitVec 32}

/-- A pass over some timers, each of them once, refreshes those. -/
theorem timerCells_foldl_refresh {ns : List Nat} (h : ns.Nodup) :
    (ns.foldl (fun s n => s.putTimer n ((s.timerCells n).refresh now)) s).timerCells n =
      if n ∈ ns then (s.timerCells n).refresh now else s.timerCells n := by
  induction ns generalizing s with
  | nil => rfl
  | cons k ns ih =>
    obtain ⟨hk, hns⟩ := nodup_cons.mp h
    rw [foldl_cons, ih hns]
    by_cases heq : n = k
    · subst heq
      rw [if_neg hk, if_pos (.head _), Store.timerCells_putTimer_self]
    · rw [Store.timerCells_putTimer_of_ne heq]
      simp only [mem_cons, heq, false_or]

/-- The refresh comes to every timer from 128 on. -/
theorem timerCells_plcRefresh :
    (plcRefresh10ms1msTimer now s).timerCells n =
      if timerCnt10ms ≤ n ∧ n < WordElement.rang .T then (s.timerCells n).refresh now
      else s.timerCells n := by
  have hmem : n ∈ range' timerCnt10ms (WordElement.rang .T - timerCnt10ms) ↔
      timerCnt10ms ≤ n ∧ n < WordElement.rang .T := by
    rw [mem_range'_1]
    omega
  rw [plcRefresh10ms1msTimer, timerCells_foldl_refresh nodup_range']
  simp only [hmem]

theorem timerCells_runTimer {body : Nat → BitVec 32 → Bool →
      Except PlcErr Unit × List (BitVec 16) → TimerCells → Except PlcErr Unit × TimerCells}
    {i : BodyInput} (hn : i.ucode.getPU16 (i.pc + 4) = n) :
    (runTimer body i).2.2.timerCells n =
      (body n i.now (getPowerFlow i.inPF) (getWord i.ucode (i.pc + 6) i.store i.level 0 1)
        (i.store.timerCells n)).2 := by
  subst hn
  exact Store.timerCells_putTimer_self

end

end Kalyke
