-- SUMMARY: `PLSY` and its timer interrupt: how many pulses an output makes, over whole runs.
import Kalyke.Exec.DataProcessing
import Kalyke.Exec.RoundTrip
import Kalyke.Lib.PulseTrain
import Kalyke.Lib.Runs

/-!
# Pulse Output

`PLSY` starts a timer whose interrupts toggle the output until the wanted pulses are out. While the
output is busy (`SM80`) the instruction only follows its frequency; the start function takes a
frequency other than zero in the channel's record for a change of frequency, and zero for a start.

Stopping clears the record, and with it the number of pulses.
-/

namespace Kalyke

open List Function
open BitVec (lt_def)

def getCharIndex (u : Ucode) (p : Nat) : Except PlcErr Nat :=
  match AddrType.ofCode (u.getPU8 (p + 1)) with
  | some .x =>
    if BitElement.rang .X ≤ u.getPU16 (p + 2) then .error .overElementRang
    else .ok (u.getPU16 (p + 2))
  | some .y =>
    if BitElement.rang .Y ≤ u.getPU16 (p + 2) then .error .overElementRang
    else .ok (u.getPU16 (p + 2))
  | _ => .error .elementType

/-- `gPlsyChannelInfo` of a channel. -/
structure PlsyChannel where
  plsyStatus : Bool
  curFreq : BitVec 32
  destPulseNum : BitVec 32
  outPulseCnt : BitVec 32
deriving DecidableEq, Repr

def PlsyChannel.zero : PlsyChannel := ⟨false, 0, 0, 0⟩

/-- A channel with its timer, whether it runs and interrupts, and its output. -/
structure PlsyPort where
  info : PlsyChannel
  timer : Bool
  pin : Bool
deriving DecidableEq, Repr

namespace PlsyPort

def start (p : PlsyPort) (freq num : BitVec 32) : PlsyPort :=
  if freq = p.info.curFreq then p
  else if p.info.curFreq = 0 then { p with info := ⟨true, freq, num * 2, 0⟩, timer := true }
  else { p with info.curFreq := freq }

/-- `bsp_stop_plsy`. The output stays as it is. -/
def stop (p : PlsyPort) : PlsyPort := { p with info := .zero, timer := false }

/-- `GPT1_IRQHandler` and `GPT2_IRQHandler` for an output of `PLSY`, with the busy flag. -/
def irq (p : PlsyPort) (busy : Bool) : PlsyPort × Bool :=
  if p.timer = false ∨ p.info.plsyStatus = false then (p, busy)
  else if p.info.destPulseNum ≠ 0 then
    if p.info.outPulseCnt < p.info.destPulseNum then
      ({ p with pin := !p.pin, info.outPulseCnt := p.info.outPulseCnt + 1 }, busy)
    else if p.info.outPulseCnt = p.info.destPulseNum then
      ({ p with pin := false, timer := false, info.outPulseCnt := p.info.outPulseCnt + 1 }, false)
    else (p, busy)
  else ({ p with pin := !p.pin }, busy)

end PlsyPort

/-- `SM70` and the flags after it stop the outputs. -/
def stopFlag (ch : Nat) : Nat := 70 + ch

/-- `SM80` and the flags after it show that the outputs are busy. -/
def busyFlag (ch : Nat) : Nat := 80 + ch

/-- What an instruction that outputs pulses leaves behind. -/
structure PlsyLeft where
  ret : Except PlcErr Unit
  store : Store
  ports : Nat → PlsyPort

def runCiPlsyIns (i : BodyInput) (ports : Nat → PlsyPort) : PlsyLeft :=
  match getCharIndex i.ucode (i.pc + 14) with
  | .error e => ⟨.error e, i.store, ports⟩
  | .ok ch =>
    if 1 < ch then ⟨.error .overElementRang, i.store, ports⟩
    else if getPowerFlow i.inPF then
      if i.store.getBit (.elem .SM) (stopFlag ch) then
        ⟨.ok (), i.store, update ports ch (ports ch).stop⟩
      else
        match i.dword 2 0 i.store with
        | .error e => ⟨.error e, i.store, ports⟩
        | .ok freq =>
          if freq < 1 ∨ 100000 < freq then ⟨.error .operands, i.store, ports⟩
          else if i.store.getBit (.elem .SM) (busyFlag ch) then
            if freq ≠ (ports ch).info.curFreq then
              ⟨.ok (), i.store, update ports ch ((ports ch).start freq 0)⟩
            else ⟨.ok (), i.store, ports⟩
          else if (ports ch).info.destPulseNum ≠ 0 ∧
              (ports ch).info.destPulseNum < (ports ch).info.outPulseCnt then
            ⟨.ok (), i.store, ports⟩
          else
            match i.dword 8 0 i.store with
            | .error e => ⟨.error e, i.store, ports⟩
            | .ok num =>
              if num < 1 ∨ 2147483647 < num then ⟨.error .operands, i.store, ports⟩
              else ⟨.ok (), i.store.setBit (.elem .SM) (busyFlag ch) true,
                update ports ch ((ports ch).start freq num)⟩
    else if i.store.getBit (.elem .SM) (stopFlag ch) then
      ⟨.ok (), i.store.setBit (.elem .SM) (busyFlag ch) false,
        update ports ch (ports ch).stop⟩
    else if (ports ch).info.plsyStatus then
      ⟨.ok (), i.store, update ports ch (ports ch).stop⟩
    else ⟨.ok (), i.store, ports⟩

/-! ## Runs -/

/-- The instruction is executed, the timer interrupts, or other elements change. -/
inductive PlsyEvent where
  | scan (i : BodyInput)
  | tick
  | other (s : Store)

/-- The elements and the channels, and of the last output that was started on one of them the
wanted pulses, the level and the pulses since, and whether it has come to its end and the power flow
has not been off since. -/
structure PlsyRun where
  store : Store
  ports : Nat → PlsyPort
  goal : Nat
  train : PulseTrain
  finished : Bool

namespace PlsyRun

/-- A device that is switched on. -/
def start (s : Store) : PlsyRun :=
  ⟨s.setBit (.elem .SM) 80 false |>.setBit (.elem .SM) 81 false, fun _ => ⟨.zero, false, false⟩, 0,
    .start false, false⟩

variable (ch : Nat) (s : PlsyRun)

def busy : Bool := s.store.getBit (.elem .SM) (busyFlag ch)

def stopped : Bool := s.store.getBit (.elem .SM) (stopFlag ch)

/-- The frequency an execution reads, if it may be used. -/
def freq (i : BodyInput) : Option (BitVec 32) :=
  match i.dword 2 0 s.store with
  | .ok freq => if freq < 1 ∨ 100000 < freq then none else some freq
  | .error _ => none

/-- The number of pulses an execution reads, if it may be used. -/
def num (i : BodyInput) : Option (BitVec 32) :=
  match i.dword 8 0 s.store with
  | .ok num => if num < 1 ∨ 2147483647 < num then none else some num
  | .error _ => none

def next : PlsyEvent → PlsyRun
  | .scan i =>
    let left := runCiPlsyIns { i with store := s.store } s.ports
    let starts := !(s.ports ch).timer && (left.ports ch).timer
    { store := left.store
      ports := left.ports
      goal := if starts then ((s.num i).getD 0).toNat else s.goal
      train := if starts then .start (left.ports ch).pin else s.train.drive (left.ports ch).pin
      finished := s.finished && getPowerFlow i.inPF }
  | .tick =>
    let r := (s.ports ch).irq (s.busy ch)
    { s with
      store := s.store.setBit (.elem .SM) (busyFlag ch) r.2
      ports := update s.ports ch r.1
      train := s.train.drive r.1.pin
      finished := s.finished || (s.ports ch).timer && !r.1.timer }
  | .other t => { s with store := t }

/-- No output makes more pulses than were wanted, and none makes pulses without end. One that has
come to its end has made all of them, and stays off. -/
def Good : Prop :=
  s.train.pulses ≤ s.goal ∧ ((s.ports ch).timer = true → (s.ports ch).info.destPulseNum ≠ 0) ∧
    (s.finished = true → s.train.pulses = s.goal ∧ (s.ports ch).timer = false ∧
      (s.ports ch).pin = false ∧ s.busy ch = false)

end PlsyRun

namespace PlsyEvent

variable (ch : Nat) (s : PlsyRun)

/-- The instruction is one on the channel. Nothing else changes its busy flag. -/
def Legal : PlsyEvent → Prop
  | scan i => getCharIndex i.ucode (i.pc + 14) = .ok ch
  | tick => True
  | other t => t.getBit (.elem .SM) (busyFlag ch) = s.busy ch

/-- After the event all is well. An output goes on that is not stopped, toggled by each interrupt,
until it comes to its end. -/
def Right (x : PlsyEvent) : Prop :=
  let s' := s.next ch x
  s'.Good ch ∧ ((s.ports ch).timer = true →
    match x with
    | scan i => getPowerFlow i.inPF = true → s.stopped ch = false → (s'.ports ch).timer = true
    | tick =>
      (s'.ports ch).timer = true ∧ (s'.ports ch).pin = !(s.ports ch).pin ∨ s'.finished = true
    | other _ => (s'.ports ch).timer = true)

/-- With power flow, no stop flag and a cleared record, the instruction finds the busy flag off, or
no frequency. An output that has come to its end has its record, or it cannot be started. -/
def Regular : PlsyEvent → Prop
  | scan i =>
    getPowerFlow i.inPF = true → s.stopped ch = false → (s.ports ch).info.plsyStatus = false →
      (s.freq i).isSome = true →
        s.busy ch = false ∧ (s.finished = true → (s.num i).isSome = false)
  | _ => True

end PlsyEvent

/-! ## What an execution does -/

/-- What an execution makes of the channel and its busy flag. -/
def PlsyPort.scan (p : PlsyPort) (flow stopped busy : Bool) (freq num : Option (BitVec 32)) :
    PlsyPort × Bool :=
  match flow, stopped with
  | true, true => (p.stop, busy)
  | true, false =>
    match freq with
    | none => (p, busy)
    | some freq =>
      if busy then (p.start freq 0, true)
      else if p.info.destPulseNum ≠ 0 ∧ p.info.destPulseNum < p.info.outPulseCnt then (p, false)
      else
        match num with
        | none => (p, false)
        | some num => (p.start freq num, true)
  | false, true => (p.stop, false)
  | false, false => if p.info.plsyStatus then (p.stop, busy) else (p, busy)

namespace PlsyRun

variable {ch : Nat} {s : PlsyRun} {i : BodyInput}

theorem scan_eq (hch : ch ≤ 1) (hlegal : (PlsyEvent.scan i).Legal ch s) :
    ((s.next ch (.scan i)).ports ch, (s.next ch (.scan i)).busy ch) =
      (s.ports ch).scan (getPowerFlow i.inPF) (s.stopped ch) (s.busy ch) (s.freq i) (s.num i) := by
  have hindex : getCharIndex i.ucode (i.pc + 14) = .ok ch := hlegal
  have hsame : (s.ports ch).start (s.ports ch).info.curFreq 0 = s.ports ch := if_pos rfl
  have hfreq : BodyInput.dword { i with store := s.store } 2 0 s.store = i.dword 2 0 s.store := rfl
  have hnum : BodyInput.dword { i with store := s.store } 8 0 s.store = i.dword 8 0 s.store := rfl
  simp only [next, busy, stopped, freq, num, runCiPlsyIns, hindex, if_neg (Nat.not_lt.mpr hch),
    hfreq, hnum]
  cases hflow : getPowerFlow i.inPF <;>
    cases hstop : s.store.getBit (.elem .SM) (stopFlag ch)
  · simp only [PlsyPort.scan, Bool.false_eq_true, if_false]
    split
    · simp only [update_self]
    · rfl
  · simp only [PlsyPort.scan, Bool.false_eq_true, if_false, if_true, update_self,
      getBit_setBit_self]
  · simp only [PlsyPort.scan, Bool.false_eq_true, if_false, if_true]
    cases i.dword 2 0 s.store with
    | error e => rfl
    | ok f =>
      by_cases hrange : f < 1 ∨ 100000 < f
      · simp only [hrange, if_true]
      · simp only [hrange, if_false]
        cases hbusy : s.store.getBit (.elem .SM) (busyFlag ch) with
        | true =>
          simp only [if_true]
          by_cases hsamefreq : f = (s.ports ch).info.curFreq
          · simp only [hsamefreq, ne_eq, not_true_eq_false, if_false, hbusy, hsame]
          · simp only [hsamefreq, ne_eq, not_false_eq_true, if_true, update_self, hbusy]
        | false =>
          simp only [Bool.false_eq_true, if_false]
          split
          · rw [hbusy]
          · cases i.dword 8 0 s.store with
            | error e => simp only [hbusy]
            | ok n =>
              by_cases hcount : n < 1 ∨ 2147483647 < n
              · simp only [hcount, if_true, hbusy]
              · simp only [hcount, if_false, update_self, getBit_setBit_self]
  · simp only [PlsyPort.scan, if_true, update_self]

theorem next_tick_ports : (s.next ch .tick).ports ch = ((s.ports ch).irq (s.busy ch)).1 := by
  simp only [next, update_self]

theorem next_tick_busy : (s.next ch .tick).busy ch = ((s.ports ch).irq (s.busy ch)).2 := by
  simp only [next, busy, getBit_setBit_self]

/-! ## The invariant -/

/-- An output that is on its way. -/
structure Running (ch : Nat) (s : PlsyRun) : Prop where
  busy : s.busy ch = true
  finished : s.finished = false
  freq : (s.ports ch).info.curFreq ≠ 0
  goal : 0 < s.goal
  dest : (s.ports ch).info.destPulseNum.toNat = 2 * s.goal
  out : (s.ports ch).info.outPulseCnt.toNat ≤ 2 * s.goal
  train : ∃ level, s.train =
    PulseTrain.toggle^[(s.ports ch).info.outPulseCnt.toNat] (.start level)

/-- The record of an output that has come to its end. -/
def Ended (p : PlsyPort) : Prop :=
  p.info.destPulseNum ≠ 0 ∧ p.info.destPulseNum < p.info.outPulseCnt

/-- A record is empty, or of an output on its way, or of one that has come to its end. -/
structure Inv (ch : Nat) (s : PlsyRun) : Prop where
  good : s.Good ch
  level : s.train.level = (s.ports ch).pin
  idle : (s.ports ch).info.plsyStatus = false →
    (s.ports ch).info = .zero ∧ (s.ports ch).timer = false
  running : (s.ports ch).timer = true → s.Running ch
  ended : (s.ports ch).info.plsyStatus = true → (s.ports ch).timer = false →
    s.finished = true ∧ Ended (s.ports ch)

theorem inv_start (t : Store) : (start t).Inv ch where
  good := ⟨Nat.le_refl _, nofun, nofun⟩
  level := rfl
  idle := fun _ => ⟨rfl, rfl⟩
  running := nofun
  ended := nofun

/-- A state in which the channel is as before, but for the flag that tells its end. -/
theorem Inv.of_same {s' : PlsyRun} (hinv : s.Inv ch) (hports : s'.ports ch = s.ports ch)
    (hbusy : s'.busy ch = s.busy ch) (hgoal : s'.goal = s.goal) (htrain : s'.train = s.train)
    (hfinished : s'.finished = s.finished) : s'.Inv ch := by
  have hgood : s'.Good ch := by
    simp only [Good, hports, hbusy, hgoal, htrain, hfinished]
    exact hinv.good
  refine ⟨hgood, ?_, ?_, ?_, ?_⟩
  · rw [htrain, hports]
    exact hinv.level
  · rw [hports]
    exact hinv.idle
  · rw [hports]
    intro htimer
    obtain ⟨h1, h2, h3, h4, h5, h6, h7⟩ := hinv.running htimer
    refine ⟨hbusy.trans h1, hfinished.trans h2, ?_, ?_, ?_, ?_, ?_⟩
    · rwa [hports]
    · rwa [hgoal]
    · rwa [hports, hgoal]
    · rwa [hports, hgoal]
    · rwa [htrain, hports]
  · rw [hports, hfinished]
    exact hinv.ended

/-- The channel is empty or stopped, and nothing is out. -/
theorem Inv.of_stopped {s' : PlsyRun} (hinv : s.Inv ch) (hports : s'.ports ch = (s.ports ch).stop)
    (hbusy : s'.busy ch = true → s.busy ch = true) (hgoal : s'.goal = s.goal)
    (htrain : s'.train = s.train) (hfinished : s'.finished = true → s.finished = true) :
    s'.Inv ch := by
  have hgood : s'.Good ch := by
    refine ⟨?_, ?_, ?_⟩
    · rw [htrain, hgoal]
      exact hinv.good.1
    · rw [hports]
      exact nofun
    · intro hf
      obtain ⟨hpulses, -, hpin, hoff⟩ := hinv.good.2.2 (hfinished hf)
      refine ⟨?_, ?_, ?_, ?_⟩
      · rwa [htrain, hgoal]
      · rw [hports]
        rfl
      · rw [hports]
        exact hpin
      · exact Bool.eq_false_iff.mpr fun h => Bool.eq_false_iff.mp hoff (hbusy h)
  refine ⟨hgood, ?_, ?_, ?_, ?_⟩
  · rw [htrain, hports]
    exact hinv.level
  · rw [hports]
    exact fun _ => ⟨rfl, rfl⟩
  · rw [hports]
    exact nofun
  · rw [hports]
    exact nofun

theorem Inv.of_stop (hinv : s.Inv ch) (h : (s.ports ch).info.plsyStatus = false) :
    (s.ports ch).stop = s.ports ch := by
  obtain ⟨hinfo, htimer⟩ := hinv.idle h
  simp only [PlsyPort.stop, ← hinfo, ← htimer]

/-! ## The interrupt -/

theorem irq_running (hrun : s.Running ch) (htimer : (s.ports ch).timer = true)
    (hstatus : (s.ports ch).info.plsyStatus = true) :
    (s.ports ch).irq (s.busy ch) =
      if (s.ports ch).info.outPulseCnt.toNat < 2 * s.goal then
        ({ s.ports ch with
            pin := !(s.ports ch).pin
            info.outPulseCnt := (s.ports ch).info.outPulseCnt + 1 }, true)
      else
        ({ s.ports ch with
            pin := false
            timer := false
            info.outPulseCnt := (s.ports ch).info.outPulseCnt + 1 }, false) := by
  have hdest := hrun.dest
  have hout := hrun.out
  have hgoal := hrun.goal
  have hne : (s.ports ch).info.destPulseNum ≠ 0 := by
    intro h
    rw [h] at hdest
    simp at hdest
    omega
  simp only [PlsyPort.irq, htimer, hstatus, Bool.true_eq_false, or_self, if_false, ne_eq, hne,
    not_false_eq_true, if_true, lt_def, hdest, hrun.busy]
  split
  · rfl
  · have heq : (s.ports ch).info.outPulseCnt = (s.ports ch).info.destPulseNum :=
      BitVec.eq_of_toNat_eq (by omega)
    rw [if_pos heq]

/-- The output is toggled, with a pulse for every second time. -/
theorem Running.toggled {s' : PlsyRun} (hinv : s.Inv ch) (hrun : s.Running ch)
    (hless : (s.ports ch).info.outPulseCnt.toNat < 2 * s.goal)
    (htimer : (s.ports ch).timer = true)
    (hports : s'.ports ch =
      { s.ports ch with
        pin := !(s.ports ch).pin
        info.outPulseCnt := (s.ports ch).info.outPulseCnt + 1 })
    (hbusy : s'.busy ch = true) (hgoal : s'.goal = s.goal)
    (htrain : s'.train = s.train.drive (s'.ports ch).pin) (hfinished : s'.finished = s.finished) :
    s'.Inv ch := by
  have hdest := hrun.dest
  have hsucc : ((s.ports ch).info.outPulseCnt + 1).toNat =
      (s.ports ch).info.outPulseCnt.toNat + 1 := by
    exact Nat.mod_eq_of_lt (by simp; omega)
  have htoggle : s'.train = s.train.toggle := by
    rw [htrain, hports, PulseTrain.toggle, hinv.level]
  have hoff : s'.finished = false := hfinished.trans hrun.finished
  obtain ⟨level, hlevel⟩ := hrun.train
  have htrain' : s'.train =
      PulseTrain.toggle^[(s'.ports ch).info.outPulseCnt.toNat] (.start level) := by
    rw [htoggle, hlevel, hports, hsucc, iterate_succ_apply']
  have hrun' : s'.Running ch := by
    refine ⟨hbusy, hoff, ?_, ?_, ?_, ?_, level, htrain'⟩
    · rw [hports]
      exact hrun.freq
    · rw [hgoal]
      exact hrun.goal
    · rw [hports, hgoal]
      exact hdest
    · rw [hports, hgoal, hsucc]
      exact hless
  have hpulses : s'.train.pulses ≤ s'.goal := by
    have hbound := PulseTrain.pulses_le level (s'.ports ch).info.outPulseCnt.toNat
    have hout := hrun'.out
    rw [htrain']
    omega
  refine ⟨⟨hpulses, ?_, ?_⟩, ?_, ?_, ?_, ?_⟩
  · rw [hports]
    exact hinv.good.2.1
  · intro h
    cases hoff.symm.trans h
  · rw [htrain, PulseTrain.level_drive]
  · intro hstatus
    rw [hports] at hstatus
    have hidle := (hinv.idle hstatus).2
    cases hidle.symm.trans htimer
  · exact fun _ => hrun'
  · intro _ hstop
    rw [hports] at hstop
    cases hstop.symm.trans htimer

/-- The last interrupt of an output. -/
theorem Running.ends {s' : PlsyRun} (hrun : s.Running ch)
    (hend : ¬(s.ports ch).info.outPulseCnt.toNat < 2 * s.goal)
    (hports : s'.ports ch =
      { s.ports ch with
        pin := false
        timer := false
        info.outPulseCnt := (s.ports ch).info.outPulseCnt + 1 })
    (hbusy : s'.busy ch = false) (hgoal : s'.goal = s.goal)
    (htrain : s'.train = s.train.drive (s'.ports ch).pin) (hfinished : s'.finished = true)
    (hstatus : (s.ports ch).info.plsyStatus = true) : s'.Inv ch := by
  have hdest := hrun.dest
  have hpos := hrun.goal
  have hout : (s.ports ch).info.outPulseCnt.toNat = 2 * s.goal :=
    Nat.le_antisymm hrun.out (Nat.le_of_not_lt hend)
  obtain ⟨level, hlevel⟩ := hrun.train
  have hpulses : s'.train.pulses = s'.goal := by
    rw [htrain, hports, hlevel, hout, hgoal]
    exact PulseTrain.pulses_even_drive level s.goal
  refine ⟨⟨Nat.le_of_eq hpulses, ?_, ?_⟩, ?_, ?_, ?_, ?_⟩
  · rw [hports]
    exact nofun
  · refine fun _ => ⟨hpulses, ?_, ?_, hbusy⟩
    · rw [hports]
    · rw [hports]
  · rw [htrain, PulseTrain.level_drive]
  · intro hclear
    rw [hports] at hclear
    exact nomatch hclear.symm.trans hstatus
  · rw [hports]
    exact nofun
  · intro _ _
    refine ⟨hfinished, ?_⟩
    rw [hports]
    refine ⟨?_, ?_⟩
    · intro hzero
      rw [hzero] at hdest
      simp at hdest
      omega
    · have hlt := (s.ports ch).info.destPulseNum.isLt
      simp only [lt_def]
      simp
      omega

theorem Inv.tick (hinv : s.Inv ch) :
    PlsyEvent.Right ch s .tick ∧ (s.next ch .tick).Inv ch := by
  have hports := @next_tick_ports ch s
  have hbusy := @next_tick_busy ch s
  have htrain : (s.next ch .tick).train = s.train.drive ((s.next ch .tick).ports ch).pin := by
    rw [hports]
    rfl
  have hfinished : (s.next ch .tick).finished =
      (s.finished || (s.ports ch).timer && !((s.next ch .tick).ports ch).timer) := by
    rw [hports]
    rfl
  cases htimer : (s.ports ch).timer with
  | false =>
    have hirq : (s.ports ch).irq (s.busy ch) = (s.ports ch, s.busy ch) := by
      simp only [PlsyPort.irq, htimer, true_or, if_true]
    rw [hirq] at hports hbusy
    rw [hports, ← hinv.level, PulseTrain.drive_level] at htrain
    rw [htimer, Bool.false_and, Bool.or_false] at hfinished
    have hnext := hinv.of_same hports hbusy rfl htrain hfinished
    exact ⟨⟨hnext.good, fun h => nomatch htimer.symm.trans h⟩, hnext⟩
  | true =>
    have hstatus : (s.ports ch).info.plsyStatus = true := by
      cases h : (s.ports ch).info.plsyStatus with
      | true => rfl
      | false => exact nomatch (hinv.idle h).2.symm.trans htimer
    have hrun := hinv.running htimer
    have hirq := irq_running hrun htimer hstatus
    rw [hirq] at hports hbusy
    by_cases hless : (s.ports ch).info.outPulseCnt.toNat < 2 * s.goal
    · rw [if_pos hless] at hports hbusy
      have hon : ((s.next ch .tick).ports ch).timer = true := by
        rw [hports]
        exact htimer
      rw [hon, Bool.not_true, Bool.and_false, Bool.or_false] at hfinished
      have hnext := hrun.toggled hinv hless htimer hports hbusy rfl htrain hfinished
      refine ⟨⟨hnext.good, fun _ => .inl ⟨hon, ?_⟩⟩, hnext⟩
      rw [hports]
    · rw [if_neg hless] at hports hbusy
      have hend : (s.next ch .tick).finished = true := by
        rw [hfinished, htimer, hports]
        simp
      have hnext := hrun.ends hless hports hbusy rfl htrain hend hstatus
      exact ⟨⟨hnext.good, fun _ => .inr hend⟩, hnext⟩

/-- Other elements change. -/
theorem Inv.other {t : Store} (hinv : s.Inv ch) (hlegal : (PlsyEvent.other t).Legal ch s) :
    PlsyEvent.Right ch s (.other t) ∧ (s.next ch (.other t)).Inv ch := by
  have hnext : (s.next ch (.other t)).Inv ch := hinv.of_same rfl hlegal rfl rfl rfl
  exact ⟨⟨hnext.good, id⟩, hnext⟩

/-! ## The instruction -/

/-- An execution that starts nothing. -/
theorem Inv.scan_kept (hinv : s.Inv ch)
    (hpin : ((s.next ch (.scan i)).ports ch).pin = (s.ports ch).pin)
    (htimer : ((s.next ch (.scan i)).ports ch).timer = true → (s.ports ch).timer = true) :
    (s.next ch (.scan i)).goal = s.goal ∧ (s.next ch (.scan i)).train = s.train := by
  have hstarts : (!(s.ports ch).timer && ((s.next ch (.scan i)).ports ch).timer) = false := by
    cases h : ((s.next ch (.scan i)).ports ch).timer with
    | false => exact Bool.and_false _
    | true =>
      rw [htimer h]
      rfl
  have hgoal : (s.next ch (.scan i)).goal =
      if !(s.ports ch).timer && ((s.next ch (.scan i)).ports ch).timer then
        ((s.num i).getD 0).toNat
      else s.goal := rfl
  have htrain : (s.next ch (.scan i)).train =
      if !(s.ports ch).timer && ((s.next ch (.scan i)).ports ch).timer then
        .start ((s.next ch (.scan i)).ports ch).pin
      else s.train.drive ((s.next ch (.scan i)).ports ch).pin := rfl
  rw [hstarts] at hgoal htrain
  rw [hpin, ← hinv.level, PulseTrain.drive_level] at htrain
  exact ⟨hgoal, htrain⟩

theorem Inv.scan_stopped (hinv : s.Inv ch)
    (hports : (s.next ch (.scan i)).ports ch = (s.ports ch).stop)
    (hbusy : (s.next ch (.scan i)).busy ch = true → s.busy ch = true) :
    (s.next ch (.scan i)).Inv ch := by
  obtain ⟨hgoal, htrain⟩ := hinv.scan_kept (i := i) (by rw [hports]; rfl) (by rw [hports]; exact nofun)
  exact hinv.of_stopped hports hbusy hgoal htrain fun h => (Bool.and_eq_true_iff.mp h).1

/-- With power flow, an execution that leaves the channel as it is. -/
theorem Inv.scan_same (hinv : s.Inv ch) (hflow : getPowerFlow i.inPF = true)
    (hports : (s.next ch (.scan i)).ports ch = s.ports ch)
    (hbusy : (s.next ch (.scan i)).busy ch = s.busy ch) :
    PlsyEvent.Right ch s (.scan i) ∧ (s.next ch (.scan i)).Inv ch := by
  obtain ⟨hgoal, htrain⟩ := hinv.scan_kept (i := i) (by rw [hports]) (by rw [hports]; exact id)
  have hfinished : (s.next ch (.scan i)).finished = s.finished := by
    show (s.finished && getPowerFlow i.inPF) = s.finished
    rw [hflow, Bool.and_true]
  have hnext := hinv.of_same hports hbusy hgoal htrain hfinished
  refine ⟨⟨hnext.good, fun htimer _ _ => ?_⟩, hnext⟩
  rw [hports]
  exact htimer

/-- The frequency an execution reads is one a timer can have. -/
theorem freq_ne_zero {f : BitVec 32} (h : s.freq i = some f) : f ≠ 0 := by
  rintro rfl
  unfold freq at h
  split at h
  · split at h
    · exact nomatch h
    · rename_i hrange
      cases h
      exact hrange (.inl (by decide))
  · exact nomatch h

theorem num_range {n : BitVec 32} (h : s.num i = some n) : 0 < n.toNat ∧ n.toNat < 2 ^ 31 := by
  unfold num at h
  split at h
  · split at h
    · exact nomatch h
    · rename_i hrange
      cases h
      simp only [lt_def] at hrange
      simp at hrange
      omega
  · exact nomatch h

/-- An output on its way follows its frequency. -/
theorem Running.follows {f : BitVec 32} (hinv : s.Inv ch) (htimer : (s.ports ch).timer = true)
    (hflow : getPowerFlow i.inPF = true) (hfreq : s.freq i = some f)
    (hports : (s.next ch (.scan i)).ports ch = (s.ports ch).start f 0)
    (hbusy : (s.next ch (.scan i)).busy ch = true) :
    PlsyEvent.Right ch s (.scan i) ∧ (s.next ch (.scan i)).Inv ch := by
  have hrun := hinv.running htimer
  by_cases hsame : f = (s.ports ch).info.curFreq
  · rw [PlsyPort.start, if_pos hsame] at hports
    exact hinv.scan_same hflow hports (hbusy.trans hrun.busy.symm)
  · rw [PlsyPort.start, if_neg hsame, if_neg hrun.freq] at hports
    obtain ⟨hgoal, htrain⟩ :=
      hinv.scan_kept (i := i) (by rw [hports]) (by rw [hports]; exact id)
    have hon : ((s.next ch (.scan i)).ports ch).timer = true := by
      rw [hports]
      exact htimer
    have hfinished : (s.next ch (.scan i)).finished = false := by
      show (s.finished && getPowerFlow i.inPF) = false
      rw [hrun.finished, Bool.false_and]
    have hnext : (s.next ch (.scan i)).Running ch := by
      refine ⟨hbusy, hfinished, ?_, ?_, ?_, ?_, ?_⟩
      · rw [hports]
        exact freq_ne_zero hfreq
      · rw [hgoal]
        exact hrun.goal
      · rw [hports, hgoal]
        exact hrun.dest
      · rw [hports, hgoal]
        exact hrun.out
      · rw [htrain, hports]
        exact hrun.train
    have hgood : (s.next ch (.scan i)).Good ch := by
      refine ⟨?_, ?_, fun h => nomatch hfinished.symm.trans h⟩
      · rw [htrain, hgoal]
        exact hinv.good.1
      · rw [hports]
        exact hinv.good.2.1
    refine ⟨⟨hgood, fun _ _ _ => hon⟩, hgood, ?_, ?_, fun _ => hnext, ?_⟩
    · rw [htrain, hports]
      exact hinv.level
    · rw [hports]
      intro hstatus
      exact nomatch (hinv.idle hstatus).2.symm.trans htimer
    · exact fun _ hoff => nomatch hoff.symm.trans hon

/-- An output starts. -/
theorem Inv.starts {f n : BitVec 32} (hinv : s.Inv ch)
    (hstatus : (s.ports ch).info.plsyStatus = false) (hfreq : s.freq i = some f)
    (hnum : s.num i = some n) (hports : (s.next ch (.scan i)).ports ch = (s.ports ch).start f n)
    (hbusy : (s.next ch (.scan i)).busy ch = true) (hfinished : s.finished = false) :
    PlsyEvent.Right ch s (.scan i) ∧ (s.next ch (.scan i)).Inv ch := by
  obtain ⟨hinfo, htimer⟩ := hinv.idle hstatus
  obtain ⟨hpos, hbound⟩ := num_range hnum
  have hzero : (s.ports ch).info.curFreq = 0 := by rw [hinfo]; rfl
  have hne : f ≠ (s.ports ch).info.curFreq := hzero ▸ freq_ne_zero hfreq
  have hdouble : (n * 2).toNat = 2 * n.toNat := by
    simp
    omega
  rw [PlsyPort.start, if_neg hne, if_pos hzero] at hports
  have hgoal : (s.next ch (.scan i)).goal = n.toNat := by
    have hif : (s.next ch (.scan i)).goal =
      if !(s.ports ch).timer && ((s.next ch (.scan i)).ports ch).timer then
        ((s.num i).getD 0).toNat
      else s.goal := rfl
    rw [hif, htimer, hports, hnum]
    rfl
  have htrain : (s.next ch (.scan i)).train = .start (s.ports ch).pin := by
    have hif : (s.next ch (.scan i)).train =
      if !(s.ports ch).timer && ((s.next ch (.scan i)).ports ch).timer then
        .start ((s.next ch (.scan i)).ports ch).pin
      else s.train.drive ((s.next ch (.scan i)).ports ch).pin := rfl
    rw [hif, htimer, hports]
    rfl
  have hoff : (s.next ch (.scan i)).finished = false := by
    show (s.finished && getPowerFlow i.inPF) = false
    rw [hfinished, Bool.false_and]
  have hrun : (s.next ch (.scan i)).Running ch := by
    refine ⟨hbusy, hoff, ?_, ?_, ?_, ?_, (s.ports ch).pin, ?_⟩
    · rw [hports]
      exact freq_ne_zero hfreq
    · rw [hgoal]
      exact hpos
    · rw [hports, hgoal]
      exact hdouble
    · rw [hports]
      exact Nat.zero_le _
    · rw [htrain, hports]
      rfl
  have hgood : (s.next ch (.scan i)).Good ch := by
    refine ⟨?_, ?_, fun h => nomatch hoff.symm.trans h⟩
    · rw [htrain]
      exact Nat.zero_le _
    · rw [hports]
      intro _ hdest
      have hd : (n * 2).toNat = 0 := by
        exact congrArg BitVec.toNat hdest
      omega
  refine ⟨⟨hgood, fun h => nomatch htimer.symm.trans h⟩, hgood, ?_, ?_, fun _ => hrun, ?_⟩
  · rw [htrain, hports]
    rfl
  · rw [hports]
    exact nofun
  · rw [hports]
    exact nofun

/-- With power flow and no stop flag, on an empty record. -/
theorem Inv.scan_empty (hinv : s.Inv ch) (hflow : getPowerFlow i.inPF = true)
    (hstatus : (s.ports ch).info.plsyStatus = false)
    (hports : (s.next ch (.scan i)).ports ch =
      ((s.ports ch).scan true false (s.busy ch) (s.freq i) (s.num i)).1)
    (hbusy : (s.next ch (.scan i)).busy ch =
      ((s.ports ch).scan true false (s.busy ch) (s.freq i) (s.num i)).2) :
    (PlsyEvent.Right ch s (.scan i) ↔ ((s.freq i).isSome = true →
      s.busy ch = false ∧ (s.finished = true → (s.num i).isSome = false))) ∧
    (((s.freq i).isSome = true →
      s.busy ch = false ∧ (s.finished = true → (s.num i).isSome = false)) →
        (s.next ch (.scan i)).Inv ch) := by
  obtain ⟨hinfo, htimer⟩ := hinv.idle hstatus
  have hdest : (s.ports ch).info.destPulseNum = 0 := by rw [hinfo]; rfl
  have hzero : (s.ports ch).info.curFreq = 0 := by rw [hinfo]; rfl
  simp only [PlsyPort.scan, hdest] at hports hbusy
  cases hfreq : s.freq i with
  | none =>
    simp only [hfreq] at hports hbusy
    obtain ⟨hright, hnext⟩ := hinv.scan_same hflow hports hbusy
    exact ⟨iff_of_true hright nofun, fun _ => hnext⟩
  | some f =>
    simp only [hfreq] at hports hbusy
    have hne : f ≠ (s.ports ch).info.curFreq := hzero ▸ freq_ne_zero hfreq
    have hstart (n : BitVec 32) : (s.ports ch).start f n =
        { s.ports ch with info := ⟨true, f, n * 2, 0⟩, timer := true } := by
      rw [PlsyPort.start, if_neg hne, if_pos hzero]
    cases hon : s.busy ch with
    | true =>
      -- the start function is called for a change of frequency, and starts without a number
      simp only [hon, if_true, hstart] at hports
      have hwrong : ¬PlsyEvent.Right ch s (.scan i) := by
        intro h
        refine h.1.2.1 ?_ ?_
        · rw [hports]
        · rw [hports]
          rfl
      exact ⟨iff_of_false hwrong (by simp), fun h => nomatch (h rfl).1⟩
    | false =>
      simp only [hon, Bool.false_eq_true, if_false] at hports hbusy
      cases hnum : s.num i with
      | none =>
        simp only [hnum] at hports hbusy
        obtain ⟨hright, hnext⟩ := hinv.scan_same hflow hports (hbusy.trans hon.symm)
        exact ⟨iff_of_true hright (by simp), fun _ => hnext⟩
      | some n =>
        simp only [hnum] at hports hbusy
        cases hfinished : s.finished with
        | false =>
          obtain ⟨hright, hnext⟩ := hinv.starts hstatus hfreq hnum hports hbusy hfinished
          exact ⟨iff_of_true hright (by simp), fun _ => hnext⟩
        | true =>
          -- it is started again, with the power flow on all the time
          rw [hstart] at hports
          have hstill : (s.next ch (.scan i)).finished = true := by
            show (s.finished && getPowerFlow i.inPF) = true
            rw [hfinished, hflow]
            rfl
          have hwrong : ¬PlsyEvent.Right ch s (.scan i) := by
            intro h
            have hoff := (h.1.2.2 hstill).2.1
            rw [hports] at hoff
            cases hoff
          exact ⟨iff_of_false hwrong (by simp), fun h => by simp at h⟩

/-- An execution is right exactly as the condition says, and keeps the invariant then. -/
theorem Inv.scan (hch : ch ≤ 1) (hinv : s.Inv ch) (hlegal : (PlsyEvent.scan i).Legal ch s) :
    (PlsyEvent.Right ch s (.scan i) ↔ PlsyEvent.Regular ch s (.scan i)) ∧
      (PlsyEvent.Regular ch s (.scan i) → (s.next ch (.scan i)).Inv ch) := by
  have heq := scan_eq hch hlegal
  have hports := congrArg Prod.fst heq
  have hbusy := congrArg Prod.snd heq
  simp only [PlsyEvent.Regular]
  cases hflow : getPowerFlow i.inPF with
  | false =>
    rw [hflow] at hports hbusy
    have hright : (s.next ch (.scan i)).Inv ch → PlsyEvent.Right ch s (.scan i) :=
      fun h => ⟨h.good, fun _ hon => nomatch hflow.symm.trans hon⟩
    have hnext : (s.next ch (.scan i)).Inv ch := by
      cases hstop : s.stopped ch with
      | true =>
        rw [hstop] at hports hbusy
        exact hinv.scan_stopped hports fun h => nomatch hbusy.symm.trans h
      | false =>
        rw [hstop] at hports hbusy
        simp only [PlsyPort.scan] at hports hbusy
        cases hstatus : (s.ports ch).info.plsyStatus with
        | true =>
          simp only [hstatus] at hports hbusy
          exact hinv.scan_stopped hports fun h => hbusy.symm.trans h
        | false =>
          simp only [hstatus] at hports hbusy
          exact hinv.scan_stopped (hports.trans (hinv.of_stop hstatus).symm)
            fun h => hbusy.symm.trans h
    exact ⟨iff_of_true (hright hnext) (fun h => nomatch h), fun _ => hnext⟩
  | true =>
    rw [hflow] at hports hbusy
    cases hstop : s.stopped ch with
    | true =>
      rw [hstop] at hports hbusy
      have hnext := hinv.scan_stopped hports fun h => hbusy.symm.trans h
      have hright : PlsyEvent.Right ch s (.scan i) :=
        ⟨hnext.good, fun _ _ hoff => nomatch hstop.symm.trans hoff⟩
      exact ⟨iff_of_true hright (fun _ h => nomatch h), fun _ => hnext⟩
    | false =>
      rw [hstop] at hports hbusy
      cases hstatus : (s.ports ch).info.plsyStatus with
      | false =>
        obtain ⟨hiff, hnext⟩ := hinv.scan_empty hflow hstatus hports hbusy
        exact ⟨hiff.trans ⟨fun h _ _ _ => h, fun h => h rfl rfl rfl⟩,
          fun h => hnext (h rfl rfl rfl)⟩
      | true =>
        have hboth : PlsyEvent.Right ch s (.scan i) ∧ (s.next ch (.scan i)).Inv ch := by
          simp only [PlsyPort.scan] at hports hbusy
          cases htimer : (s.ports ch).timer with
          | false =>
            obtain ⟨hend, hdest, hout⟩ := hinv.ended hstatus htimer
            have hoff := (hinv.good.2.2 hend).2.2.2
            simp only [hoff, hdest, hout, ne_eq] at hports hbusy
            refine hinv.scan_same hflow ?_ ?_
            · rw [hports]
              split <;> rfl
            · rw [hbusy, hoff]
              split <;> rfl
          | true =>
            have hon := (hinv.running htimer).busy
            cases hfreq : s.freq i with
            | none =>
              simp only [hfreq] at hports hbusy
              exact hinv.scan_same hflow hports hbusy
            | some f =>
              simp only [hfreq, hon] at hports hbusy
              exact Running.follows hinv htimer hflow hfreq hports hbusy
        exact ⟨iff_of_true hboth.1 (fun _ _ h => nomatch h), fun _ => hboth.2⟩

end PlsyRun

/-! ## Whole runs -/

open PlsyRun

variable {ch : Nat}

/-- All outputs of a run are right exactly when no execution starts from a cleared record while the
busy flag is still set, or starts again what has come to its end. -/
theorem plsy_right_iff (hch : ch ≤ 1) (t : Store) (xs : List PlsyEvent)
    (hlegal : Each (next ch) (PlsyEvent.Legal ch) (start t) xs) :
    Each (next ch) (PlsyEvent.Right ch) (start t) xs ↔
      Each (next ch) (PlsyEvent.Regular ch) (start t) xs := by
  refine hlegal.iff_of_invariant (I := fun s => s.Inv ch) (inv_start t) ?_ ?_
  · intro s x hinv hx
    cases x with
    | scan i => exact (hinv.scan hch hx).1
    | tick => exact iff_of_true hinv.tick.1 trivial
    | other t => exact iff_of_true (hinv.other hx).1 trivial
  · intro s x hinv hx hregular
    cases x with
    | scan i => exact (hinv.scan hch hx).2 hregular
    | tick => exact hinv.tick.2
    | other t => exact (hinv.other hx).2

/-- `PLSY K1000 K1 Y0` with power flow, or without. -/
def plsyOfOne (inPF : BitVec 32) : BodyInput where
  ucode := [0xE4, 0xF0, 0x02, 0xFF, 0xE8, 0x03, 0x00, 0x00, 0x02, 0xFF, 0x01, 0x00, 0x00, 0x00,
    0x00, 0x01, 0x00, 0x00]
  pc := 0
  level := 0
  now := 0
  inPF := inPF
  sfc := Plc.off.sfc
  store := Store.off

/-- It starts, the power flow goes off, and comes again. -/
def plsyOfOneRun : List PlsyEvent :=
  [.scan (plsyOfOne 1), .tick, .tick, .scan (plsyOfOne 0), .scan (plsyOfOne 1)]

theorem plsyOfOneRun_legal (n : Nat) :
    Each (next 0) (PlsyEvent.Legal 0) (start Store.off) (plsyOfOneRun.take n) := by
  intro before x after hsplit
  have hmem : x ∈ plsyOfOneRun :=
    mem_of_mem_take (hsplit ▸ mem_append_right before (.head _))
  simp only [plsyOfOneRun, mem_cons, not_mem_nil, or_false] at hmem
  rcases hmem with rfl | rfl | rfl | rfl | rfl
  · exact rfl
  · exact trivial
  · exact trivial
  · exact rfl
  · exact rfl

/-- Until the power flow goes off, all is well. -/
theorem plsyOfOneRun_right :
    Each (next 0) (PlsyEvent.Right 0) (start Store.off) (plsyOfOneRun.take 3) := by
  refine (plsy_right_iff (Nat.zero_le 1) Store.off _ (plsyOfOneRun_legal 3)).mpr ?_
  refine Each.cons_iff.mpr ⟨fun _ _ _ _ => ⟨rfl, nofun⟩, ?_⟩
  exact Each.cons_iff.mpr ⟨trivial, Each.cons_iff.mpr ⟨trivial, Each.nil⟩⟩

/-- When it comes again, the output makes pulses without end. -/
theorem plsy_not_right : ¬ ∀ (ch : Nat), ch ≤ 1 → ∀ (t : Store) (xs : List PlsyEvent),
    Each (next ch) (PlsyEvent.Legal ch) (start t) xs →
      Each (next ch) (PlsyEvent.Right ch) (start t) xs := by
  intro h
  have hright := h 0 (Nat.zero_le 1) Store.off _ (plsyOfOneRun_legal 5)
    [.scan (plsyOfOne 1), .tick, .tick, .scan (plsyOfOne 0)] (.scan (plsyOfOne 1)) [] rfl
  have hendless := hright.1.2.1
  revert hendless
  decide

end Kalyke
