-- SUMMARY: `TMON` and `TOF` over whole runs: when each pulse and each delay has its full duration.
import Kalyke.Exec.TimerLaw
import Kalyke.Lib.OneShot

/-!
# The pulses of a timer

A run executes `TMON` or `TOF` on one timer, at times that do not go back. `TMON` is a one-shot that
a rise of the power flow triggers. The bit of `TOF` is on with the power flow, and a fall triggers a
one-shot that the power flow takes back.
-/

namespace Kalyke

open Nat BitVec Option

/-- An instruction whose bit stays on for a time. -/
inductive OneShotKind where
  | tof
  | tmon
deriving DecidableEq

namespace OneShotKind

def body : OneShotKind → Nat → BitVec 32 → Bool → Except PlcErr Unit × List (BitVec 16) →
    TimerCells → Except PlcErr Unit × TimerCells
  | tof => TimerCells.tof
  | tmon => TimerCells.tmon

def run : OneShotKind → BodyInput → BodyResult
  | tof => runCiTofIns
  | tmon => runCiTmonIns

/-- The change of the power flow that starts a pulse. -/
def trigger : OneShotKind → Bool → Bool → Bool
  | tof, line, flow => line && !flow
  | tmon, line, flow => !line && flow

/-- Where the instruction reads the destination. -/
def reads : OneShotKind → Bool → Bool → Bool
  | tof, _, flow => !flow
  | tmon, line, flow => !line && flow

/-- Where the power flow alone keeps the bit on. -/
def holds : OneShotKind → Bool → Bool
  | tof, flow => flow
  | tmon, _ => false

end OneShotKind

/-- The timer, the power flow of the last execution and its time, when the pulse began that is on,
and the time of the start value. -/
structure OneShotRun where
  cells : TimerCells
  line : Bool
  last : Nat
  began : Option Nat
  since : Nat

/-- The milliseconds of a destination. -/
def durationMs (n : Nat) (d : BitVec 16) : Nat := d.toNat * unitMs n

namespace OneShotRun

def start (time : Nat) : OneShotRun := ⟨.reset (BitVec.ofNat 32 time), false, time, none, time⟩

def trigger (kind : OneShotKind) (s : OneShotRun) (x : TimedExecution) : Bool :=
  kind.trigger s.line x.flow

def pulse (kind : OneShotKind) (n : Nat) (d : BitVec 16) (s : OneShotRun) (x : TimedExecution) :
    Option Nat :=
  if kind.holds x.flow then none
  else OneShot.next (durationMs n d) s.began (s.trigger kind x) x.time

/-- The whole units since the start value, as the tick count shows them. -/
def counted (n : Nat) (s : OneShotRun) (x : TimedExecution) : Nat :=
  (x.time - s.since) % 2 ^ 32 / unitMs n

def next (kind : OneShotKind) (n : Nat) (d : BitVec 16) (s : OneShotRun) (x : TimedExecution) :
    OneShotRun where
  cells := (kind.run (x.seen n s.cells)).2.2.timerCells n
  line := x.flow
  last := x.time
  began := s.pulse kind n d x
  since := if s.trigger kind x then x.time else s.since + s.counted n x * unitMs n

end OneShotRun

namespace OneShotKind

variable (kind : OneShotKind) (n : Nat) (d : BitVec 16) (s : OneShotRun) (x : TimedExecution)

/-- The instruction is one on the timer with number `n`, and with the destination `d`. -/
def Legal : Prop :=
  x.input.ucode.getPU16 (x.input.pc + 4) = n ∧ s.last ≤ x.time ∧
    (kind.reads s.line x.flow = true → x.dest n s.cells = (.ok (), [d]))

/-- The bit is on during the pulses, and where the power flow keeps it on. -/
def Right : Prop :=
  (s.next kind n d x).cells.bit = (kind.holds x.flow || (s.pulse kind n d x).isSome)

/-- A pulse starts with the value zero, unless its destination is zero. No trigger comes with the
execution that ends a pulse, and there the units since the start value, which a trigger moves
forward, and those of the value reach the destination. -/
def Regular : Prop :=
  if kind.holds x.flow then True
  else match s.began with
    | none => s.trigger kind x = true → d ≠ 0 → s.cells.value = 0
    | some t => t + durationMs n d ≤ x.time →
        s.trigger kind x = false ∧ d.toNat ≤ (s.cells.value.toNat + s.counted n x) % 2 ^ 16

end OneShotKind

namespace TimerCells

variable {t t' : TimerCells} {n since time : Nat} {d : BitVec 16}

/-- What counting the time since a start value leaves of an enabled timer with a destination. -/
structure Elapsed (n since time : Nat) (d : BitVec 16) (t t' : TimerCells) : Prop where
  value : t'.value.toNat = (t.value.toNat + (time - since) % 2 ^ 32 / unitMs n) % 2 ^ 16
  start : t'.timer.start = BitVec.ofNat 32 (since + (time - since) % 2 ^ 32 / unitMs n * unitMs n)
  enable : t'.timer.enable = decide (t'.value < d)
  bit : t'.bit = (t.bit && decide (t'.value < d))
  capacity : t'.timer.capacity = timeAccuracy n
  dest : t'.timer.dest = d
  init : t'.timer.init = t.timer.init
  powerFlow : t'.timer.powerFlow = t.timer.powerFlow

theorem powerFlow_advance {now : BitVec 32} :
    (t.advance now).timer.powerFlow = t.timer.powerFlow := by
  unfold advance count
  split <;> rfl

theorem elapse_of_disabled {now : BitVec 32} (h : t.timer.enable = false) : t.elapse now = t := by
  simp only [elapse, h, Bool.false_eq_true, if_false]

theorem elapsed_elapse (henable : t.timer.enable = true)
    (hcap : t.timer.capacity = timeAccuracy n) (hdest : t.timer.dest = d)
    (hstart : t.timer.start = BitVec.ofNat 32 since) (h : since ≤ time) :
    Elapsed n since time d t (t.elapse (BitVec.ofNat 32 time)) := by
  have hvalue := @value_advance _ _ (BitVec.ofNat 32 time) hcap
  have hmoved := @start_advance _ _ (BitVec.ofNat 32 time) hcap
  rw [hstart, sub_ofNat_toNat h] at hvalue hmoved
  rw [← ofNat_add] at hmoved
  simp only [elapse, henable, if_true, expire, dest_advance, hdest]
  split
  · rename_i hle
    have hoff : decide ((t.advance (BitVec.ofNat 32 time)).value < d) = false :=
      decide_eq_false (BitVec.not_lt.mpr hle)
    exact ⟨hvalue, hmoved, hoff.symm, by rw [setEnable, hoff, Bool.and_false],
      capacity_advance.trans hcap, dest_advance.trans hdest, init_advance, powerFlow_advance⟩
  · rename_i hlt
    have hon : decide ((t.advance (BitVec.ofNat 32 time)).value < d) = true :=
      decide_eq_true (BitVec.not_le.mp hlt)
    exact ⟨hvalue, hmoved, (enable_advance.trans henable).trans hon.symm,
      by rw [hon, Bool.and_true, bit_advance], capacity_advance.trans hcap,
      dest_advance.trans hdest, init_advance, powerFlow_advance⟩

end TimerCells

/-! ## What an execution leaves of the timer -/

namespace TimerCells

variable {t : TimerCells} {n : Nat} {now : BitVec 32} {d : BitVec 16}
  {dest : Except PlcErr Unit × List (BitVec 16)} {flow : Bool}

/-- The timer of `TMON` on a rise of the power flow, before it counts. -/
def tmonStart (n : Nat) (now : BitVec 32) (d : BitVec 16) (t : TimerCells) : TimerCells :=
  ⟨⟨true, true, t.timer.init, 3, timeAccuracy n, d, now⟩, t.value, true⟩

theorem tmon_rise (h : t.timer.powerFlow = false) :
    (tmon n now true (.ok (), [d]) t).2 = (t.tmonStart n now d).elapse now := by
  simp only [tmon, h]
  rfl

theorem tmon_quiet (h : flow = true → t.timer.powerFlow = true) :
    (tmon n now flow dest t).2 = ({ t with timer.powerFlow := flow } : TimerCells).elapse now := by
  cases flow with
  | false => rfl
  | true =>
    have hset := h rfl
    simp only [tmon, if_true, hset, Bool.true_eq_false, if_false]
    congr 1
    rw [← hset]

/-- The timer of `TOF` on a fall of the power flow, before it counts. -/
def tofStart (n : Nat) (now : BitVec 32) (d : BitVec 16) (t : TimerCells) : TimerCells :=
  ⟨⟨true, true, true, 2, timeAccuracy n, d, now⟩, t.value, t.bit⟩

theorem tof_fall (hinit : t.timer.init = false) (hflow : t.timer.powerFlow = true) :
    (tof n now false (.ok (), [d]) t).2 = (t.tofStart n now d).elapse now := by
  simp only [tof, setDest, hinit, hflow]
  rfl

theorem tof_quiet (h : t.timer.init = true ∨ t.timer.powerFlow = false) :
    (tof n now false (.ok (), [d]) t).2 =
      ({ t with timer.dest := d } : TimerCells).elapse now := by
  have hno : ¬ (t.timer.init = false ∧ t.timer.powerFlow = true) := by
    rintro ⟨hinit, hflow⟩
    rcases h with h | h
    · exact absurd (hinit.symm.trans h) Bool.false_ne_true
    · exact absurd (h.symm.trans hflow) Bool.false_ne_true
  exact congrArg (elapse now) (if_neg hno)

end TimerCells

namespace OneShotRun

variable {kind : OneShotKind} {n t : Nat} {d : BitVec 16} {s : OneShotRun} {x : TimedExecution}

theorem cells_next (h : kind.Legal n d s x) :
    (s.next kind n d x).cells =
      (kind.body n (BitVec.ofNat 32 x.time) x.flow (x.dest n s.cells) s.cells).2 := by
  have hcells : (x.seen n s.cells).store.timerCells n = s.cells := Store.timerCells_putTimer_self
  have hrun (body) : (runTimer body (x.seen n s.cells)).2.2.timerCells n =
      (body n (BitVec.ofNat 32 x.time) x.flow (x.dest n s.cells) s.cells).2 := by
    rw [timerCells_runTimer (i := x.seen n s.cells) h.1, hcells]
    rfl
  cases kind
  · exact hrun _
  · exact hrun _

def Marked (d : BitVec 16) : OneShotKind → OneShotRun → Prop
  | .tof, s =>
    if s.line then
      s.cells.timer.init = false ∧ s.cells.timer.powerFlow = true ∧ s.cells.value = 0 ∧
        s.began = none
    else s.cells.timer.init = true ∨ s.cells.timer.powerFlow = false
  | .tmon, s =>
    s.cells.timer.powerFlow = s.line ∧ (s.began = none → s.cells.value = 0 ∨ d ≤ s.cells.value)

/-- A timer that counts the time of a pulse, or less of it. -/
structure Running (n : Nat) (d : BitVec 16) (t : Nat) (s : OneShotRun) : Prop where
  capacity : s.cells.timer.capacity = timeAccuracy n
  dest : s.cells.timer.dest = d
  start : s.cells.timer.start = BitVec.ofNat 32 s.since
  since : t + s.cells.value.toNat * unitMs n ≤ s.since
  since_le : s.since ≤ s.last
  value : s.cells.value < d

/-- A timer whose bit shows the pulses. -/
structure Inv (kind : OneShotKind) (n : Nat) (d : BitVec 16) (s : OneShotRun) : Prop where
  bit : s.cells.bit = (kind.holds s.line || s.began.isSome)
  enable : s.cells.timer.enable = s.began.isSome
  marked : Marked d kind s
  running : ∀ t, s.began = some t → Running n d t s

theorem inv_start (time : Nat) : (start time).Inv kind n d where
  bit := by cases kind <;> rfl
  enable := rfl
  marked := by
    cases kind with
    | tof => exact .inr rfl
    | tmon => exact ⟨rfl, fun _ => .inl rfl⟩
  running t h := by cases h

/-! ### Executions that count -/

/-- The timer before it counts: a trigger has set it, and without one it is as it was. -/
structure Ready (kind : OneShotKind) (n : Nat) (d : BitVec 16) (s : OneShotRun)
    (x : TimedExecution) (u : TimerCells) : Prop where
  cells : (s.next kind n d x).cells = u.elapse (BitVec.ofNat 32 x.time)
  value : u.value = s.cells.value
  mark : match kind with
    | .tof => u.timer.init = true ∨ u.timer.powerFlow = false
    | .tmon => u.timer.powerFlow = x.flow
  triggered : s.trigger kind x = true →
    u.timer.enable = true ∧ u.bit = true ∧ u.timer.capacity = timeAccuracy n ∧ u.timer.dest = d ∧
      u.timer.start = BitVec.ofNat 32 x.time
  quiet : s.trigger kind x = false →
    u.timer.enable = s.cells.timer.enable ∧ u.bit = s.cells.bit ∧
      u.timer.capacity = s.cells.timer.capacity ∧ u.timer.start = s.cells.timer.start ∧
        (s.cells.timer.dest = d → u.timer.dest = d)

theorem tof_ready (hinv : s.Inv .tof n d) (h : OneShotKind.tof.Legal n d s x)
    (hflow : x.flow = false) : ∃ u, Ready .tof n d s x u := by
  have hdest := h.2.2 (by rw [hflow]; rfl)
  have hcells := cells_next h
  rw [hflow, hdest] at hcells
  have hmarked : if s.line then s.cells.timer.init = false ∧ s.cells.timer.powerFlow = true ∧
      s.cells.value = 0 ∧ s.began = none
    else s.cells.timer.init = true ∨ s.cells.timer.powerFlow = false := hinv.marked
  have htrigger : s.trigger .tof x = s.line := by
    show (s.line && !x.flow) = s.line
    rw [hflow, Bool.not_false, Bool.and_true]
  cases hline : s.line with
  | true =>
    rw [hline] at hmarked
    refine ⟨s.cells.tofStart n (BitVec.ofNat 32 x.time) d,
      hcells.trans (TimerCells.tof_fall hmarked.1 hmarked.2.1), rfl, .inl rfl, fun _ => ?_,
      fun hno => ?_⟩
    · refine ⟨rfl, ?_, rfl, rfl, rfl⟩
      show s.cells.bit = true
      rw [hinv.bit, hline]
      rfl
    · exact absurd ((htrigger.trans hline).symm.trans hno) Bool.noConfusion
  | false =>
    rw [hline] at hmarked
    refine ⟨{ s.cells with timer.dest := d }, hcells.trans (TimerCells.tof_quiet hmarked), rfl,
      hmarked, fun hyes => ?_, fun _ => ⟨rfl, rfl, rfl, rfl, fun _ => rfl⟩⟩
    exact absurd ((htrigger.trans hline).symm.trans hyes) Bool.noConfusion

theorem tmon_ready (hinv : s.Inv .tmon n d) (h : OneShotKind.tmon.Legal n d s x) :
    ∃ u, Ready .tmon n d s x u := by
  have hcells := cells_next h
  have hpower : s.cells.timer.powerFlow = s.line := hinv.marked.1
  cases htrigger : s.trigger .tmon x with
  | true =>
    obtain ⟨hline, hflow⟩ : (!s.line) = true ∧ x.flow = true := Bool.and_eq_true_iff.mp htrigger
    have hline : s.line = false := by simpa using hline
    rw [hflow, h.2.2 htrigger] at hcells
    refine ⟨s.cells.tmonStart n (BitVec.ofNat 32 x.time) d,
      hcells.trans (TimerCells.tmon_rise (hpower.trans hline)), rfl, hflow.symm,
      fun _ => ⟨rfl, rfl, rfl, rfl, rfl⟩, fun hno => ?_⟩
    exact absurd (htrigger.symm.trans hno) Bool.noConfusion
  | false =>
    have hquiet : x.flow = true → s.cells.timer.powerFlow = true := by
      intro hflow
      have hno : (!s.line && x.flow) = false := htrigger
      rw [hflow] at hno
      rw [hpower]
      simpa using hno
    refine ⟨{ s.cells with timer.powerFlow := x.flow },
      hcells.trans (TimerCells.tmon_quiet hquiet), rfl, rfl, fun hyes => ?_,
      fun _ => ⟨rfl, rfl, rfl, rfl, id⟩⟩
    exact absurd (htrigger.symm.trans hyes) Bool.noConfusion

theorem exists_ready (hinv : s.Inv kind n d) (h : kind.Legal n d s x)
    (hholds : kind.holds x.flow = false) : ∃ u, Ready kind n d s x u := by
  cases kind with
  | tof => exact tof_ready hinv h hholds
  | tmon => exact tmon_ready hinv h

end OneShotRun

namespace OneShotRun

variable {kind : OneShotKind} {n t : Nat} {d : BitVec 16} {s : OneShotRun} {x : TimedExecution}
  {u : TimerCells}

theorem isSome_filter_iff {began : Nat} {p : Prop} [Decidable p] :
    (if p then some began else none).isSome = decide p := by
  split
  · exact (decide_eq_true ‹_›).symm
  · exact (decide_eq_false ‹_›).symm

/-- The bit, the enabling and the value of a timer that has counted. -/
theorem Ready.elapsed {since : Nat} (hready : Ready kind n d s x u) (henable : u.timer.enable = true)
    (hcap : u.timer.capacity = timeAccuracy n) (hdest : u.timer.dest = d)
    (hstart : u.timer.start = BitVec.ofNat 32 since) (hle : since ≤ x.time) :
    TimerCells.Elapsed n since x.time d u (s.next kind n d x).cells := by
  rw [hready.cells]
  exact TimerCells.elapsed_elapse henable hcap hdest hstart hle

/-- The marks of the timer stay when it counts. -/
theorem Ready.marked (hready : Ready kind n d s x u) (hholds : kind.holds x.flow = false)
    (hinit : (s.next kind n d x).cells.timer.init = u.timer.init)
    (hpower : (s.next kind n d x).cells.timer.powerFlow = u.timer.powerFlow)
    (hidle : kind = .tmon → (s.next kind n d x).began = none →
      (s.next kind n d x).cells.value = 0 ∨ d ≤ (s.next kind n d x).cells.value) :
    Marked d kind (s.next kind n d x) := by
  cases kind with
  | tof =>
    have hflow : (s.next .tof n d x).line = false := hholds
    unfold Marked
    dsimp only
    rw [hflow, hinit, hpower]
    exact hready.mark
  | tmon => exact ⟨hpower.trans hready.mark, hidle rfl⟩

theorem pulse_eq (hholds : kind.holds x.flow = false) :
    s.pulse kind n d x =
      OneShot.next (durationMs n d) s.began (s.trigger kind x) x.time := by
  unfold pulse
  rw [hholds, if_neg Bool.false_ne_true]

/-! ### No pulse and no trigger -/

theorem idle_right (hinv : s.Inv kind n d) (hready : Ready kind n d s x u)
    (hholds : kind.holds x.flow = false) (hbegan : s.began = none)
    (htrigger : s.trigger kind x = false) : kind.Right n d s x := by
  obtain ⟨henable, hbit, -⟩ := hready.quiet htrigger
  have hoff : u.timer.enable = false := by rw [henable, hinv.enable, hbegan]; rfl
  unfold OneShotKind.Right
  rw [hready.cells, TimerCells.elapse_of_disabled hoff, hbit, hinv.bit, pulse_eq hholds, hbegan,
    htrigger, OneShot.next_idle]
  cases kind with
  | tof =>
    have hline : (s.line && !x.flow) = false := htrigger
    have hflow : x.flow = false := hholds
    rw [hflow, Bool.not_false, Bool.and_true] at hline
    rw [hline, hflow]
  | tmon => rfl

theorem idle_inv (hinv : s.Inv kind n d) (hready : Ready kind n d s x u)
    (hholds : kind.holds x.flow = false) (hbegan : s.began = none)
    (htrigger : s.trigger kind x = false) : (s.next kind n d x).Inv kind n d := by
  obtain ⟨henable, -⟩ := hready.quiet htrigger
  have hoff : u.timer.enable = false := by rw [henable, hinv.enable, hbegan]; rfl
  have hcells := hready.cells
  rw [TimerCells.elapse_of_disabled hoff] at hcells
  have hnext : (s.next kind n d x).began = none := by
    show s.pulse kind n d x = none
    rw [pulse_eq hholds, hbegan, htrigger, OneShot.next_idle]
  exact {
    bit := idle_right hinv hready hholds hbegan htrigger
    enable := by rw [hcells, hoff, hnext]; rfl
    marked := by
      refine hready.marked hholds (by rw [hcells]) (by rw [hcells]) ?_
      rintro rfl -
      rw [hcells, hready.value]
      exact hinv.marked.2 hbegan
    running := fun t h => by rw [hnext] at h; cases h }

/-! ### Pulses that start -/

theorem triggered_elapsed (hready : Ready kind n d s x u) (htrigger : s.trigger kind x = true) :
    TimerCells.Elapsed n x.time x.time d u (s.next kind n d x).cells := by
  obtain ⟨henable, -, hcap, hdest, hstart⟩ := hready.triggered htrigger
  exact hready.elapsed henable hcap hdest hstart (Nat.le_refl _)

theorem triggered_value (hready : Ready kind n d s x u) (htrigger : s.trigger kind x = true) :
    (s.next kind n d x).cells.value = s.cells.value := by
  apply eq_of_toNat_eq
  have hlt := s.cells.value.isLt
  rw [(triggered_elapsed hready htrigger).value, hready.value, Nat.sub_self, zero_mod,
    Nat.zero_div, Nat.add_zero, mod_eq_of_lt hlt]

theorem triggered_bit (hready : Ready kind n d s x u) (htrigger : s.trigger kind x = true) :
    (s.next kind n d x).cells.bit = decide (s.cells.value < d) := by
  obtain ⟨-, hbit, -⟩ := hready.triggered htrigger
  rw [(triggered_elapsed hready htrigger).bit, hbit, Bool.true_and,
    triggered_value hready htrigger]

theorem durationMs_pos : 0 < durationMs n d ↔ d ≠ 0 := by
  unfold durationMs
  rw [Nat.mul_pos_iff_of_pos_right (unitMs_pos n), Nat.pos_iff_ne_zero]
  exact not_congr (toNat_eq (x := d) (y := 0)).symm

theorem triggered_running (hready : Ready kind n d s x u) (htrigger : s.trigger kind x = true)
    (hsince : t + s.cells.value.toNat * unitMs n ≤ x.time) (hvalue : s.cells.value < d) :
    Running n d t (s.next kind n d x) := by
  have helapsed := triggered_elapsed hready htrigger
  have hstart := helapsed.start
  rw [Nat.sub_self, zero_mod, Nat.zero_div, Nat.zero_mul] at hstart
  have htime : (s.next kind n d x).since = x.time := if_pos htrigger
  exact {
    capacity := helapsed.capacity
    dest := helapsed.dest
    start := by rw [htime]; exact hstart
    since := by rw [htime, triggered_value hready htrigger]; exact hsince
    since_le := by rw [htime]; exact Nat.le_refl _
    value := by rw [triggered_value hready htrigger]; exact hvalue }

end OneShotRun

namespace OneShotRun

variable {kind : OneShotKind} {n t : Nat} {d : BitVec 16} {s : OneShotRun} {x : TimedExecution}
  {u : TimerCells}

theorem regular_of_idle (hholds : kind.holds x.flow = false) (hbegan : s.began = none) :
    kind.Regular n d s x ↔ (s.trigger kind x = true → d ≠ 0 → s.cells.value = 0) := by
  unfold OneShotKind.Regular
  rw [hholds, if_neg Bool.false_ne_true, hbegan]

theorem regular_of_running (hholds : kind.holds x.flow = false) (hbegan : s.began = some t) :
    kind.Regular n d s x ↔ (t + durationMs n d ≤ x.time →
      s.trigger kind x = false ∧ d.toNat ≤ (s.cells.value.toNat + s.counted n x) % 2 ^ 16) := by
  unfold OneShotKind.Regular
  rw [hholds, if_neg Bool.false_ne_true, hbegan]

/-- The value is zero or has reached the destination where a pulse can start. -/
theorem value_of_trigger (hinv : s.Inv kind n d) (hbegan : s.began = none)
    (htrigger : s.trigger kind x = true) : s.cells.value = 0 ∨ d ≤ s.cells.value := by
  have hmarked := hinv.marked
  cases kind with
  | tof =>
    have hline : s.line = true := (Bool.and_eq_true_iff.mp htrigger).1
    unfold Marked at hmarked
    dsimp only at hmarked
    rw [hline] at hmarked
    exact .inl hmarked.2.2.1
  | tmon => exact hmarked.2 hbegan

theorem lt_dest_iff (hvalue : s.cells.value = 0 ∨ d ≤ s.cells.value) :
    s.cells.value < d ↔ d ≠ 0 ∧ s.cells.value = 0 := by
  constructor
  · intro hlt
    have hzero := hvalue.resolve_right (BitVec.not_le.mpr hlt)
    rw [hzero] at hlt
    exact ⟨(BitVec.pos_iff_ne_zero _).mp hlt, hzero⟩
  · rintro ⟨hd, hzero⟩
    rw [hzero]
    exact (BitVec.pos_iff_ne_zero _).mpr hd

theorem start_right_iff (hinv : s.Inv kind n d) (hready : Ready kind n d s x u)
    (hholds : kind.holds x.flow = false) (hbegan : s.began = none)
    (htrigger : s.trigger kind x = true) : kind.Right n d s x ↔ kind.Regular n d s x := by
  rw [regular_of_idle hholds hbegan]
  unfold OneShotKind.Right
  rw [triggered_bit hready htrigger, hholds, pulse_eq hholds, hbegan, htrigger,
    OneShot.next_trigger, isSome_filter_iff, Bool.false_or, decide_eq_decide,
    lt_dest_iff (value_of_trigger hinv hbegan htrigger), durationMs_pos]
  exact ⟨fun h _ hd => (h.mpr hd).2, fun h => ⟨And.left, fun hd => ⟨hd, h rfl hd⟩⟩⟩

theorem start_inv (hinv : s.Inv kind n d) (hready : Ready kind n d s x u)
    (hholds : kind.holds x.flow = false) (hbegan : s.began = none)
    (htrigger : s.trigger kind x = true) (hregular : kind.Regular n d s x) :
    (s.next kind n d x).Inv kind n d := by
  have hright := (start_right_iff hinv hready hholds hbegan htrigger).mpr hregular
  have helapsed := triggered_elapsed hready htrigger
  have hpulse : (s.next kind n d x).began = if d ≠ 0 then some x.time else none := by
    show s.pulse kind n d x = _
    rw [pulse_eq hholds, hbegan, htrigger, OneShot.next_trigger]
    simp only [durationMs_pos]
  have hvalue := value_of_trigger hinv hbegan htrigger
  have hregular := (regular_of_idle hholds hbegan).mp hregular htrigger
  constructor
  case bit => exact hright
  case enable =>
    rw [helapsed.enable, triggered_value hready htrigger, hpulse, isSome_filter_iff,
      decide_eq_decide, lt_dest_iff hvalue]
    exact ⟨And.left, fun hd => ⟨hd, hregular hd⟩⟩
  case marked =>
    refine hready.marked hholds helapsed.init helapsed.powerFlow fun _ _ => ?_
    rw [triggered_value hready htrigger]
    exact hvalue
  case running =>
    intro t ht
    rw [hpulse] at ht
    split at ht
    · rename_i hd
      have hzero := hregular hd
      obtain rfl := some.inj ht
      refine triggered_running hready htrigger ?_ ?_
      · rw [hzero]
        show x.time + 0 * unitMs n ≤ x.time
        rw [Nat.zero_mul, Nat.add_zero]
      · exact (lt_dest_iff hvalue).mpr ⟨hd, hzero⟩
    · cases ht

/-! ### Triggers during a pulse -/

theorem again_right_iff (hinv : s.Inv kind n d) (hready : Ready kind n d s x u)
    (hholds : kind.holds x.flow = false) (hbegan : s.began = some t)
    (htrigger : s.trigger kind x = true) : kind.Right n d s x ↔ kind.Regular n d s x := by
  rw [regular_of_running hholds hbegan, htrigger]
  unfold OneShotKind.Right
  rw [triggered_bit hready htrigger, decide_eq_true (hinv.running t hbegan).value, hholds,
    pulse_eq hholds, hbegan, OneShot.next_running, isSome_filter_iff, Bool.false_or, eq_comm,
    decide_eq_true_iff]
  exact ⟨fun hlt hle => absurd hlt (Nat.not_lt.mpr hle),
    fun h => Nat.lt_of_not_le fun hle => absurd (h hle).1 Bool.noConfusion⟩

theorem again_inv (hinv : s.Inv kind n d) (hready : Ready kind n d s x u)
    (hlegal : kind.Legal n d s x) (hholds : kind.holds x.flow = false) (hbegan : s.began = some t)
    (htrigger : s.trigger kind x = true) (hregular : kind.Regular n d s x) :
    (s.next kind n d x).Inv kind n d := by
  have hright := (again_right_iff hinv hready hholds hbegan htrigger).mpr hregular
  have helapsed := triggered_elapsed hready htrigger
  have hrunning := hinv.running t hbegan
  have hlt : x.time < t + durationMs n d := by
    by_contra hnot
    have hno := ((regular_of_running hholds hbegan).mp hregular (Nat.le_of_not_lt hnot)).1
    exact absurd (htrigger.symm.trans hno) Bool.noConfusion
  have hpulse : (s.next kind n d x).began = some t := by
    show s.pulse kind n d x = _
    rw [pulse_eq hholds, hbegan, OneShot.next_running, if_pos hlt]
  have hle : t + s.cells.value.toNat * unitMs n ≤ x.time :=
    Nat.le_trans hrunning.since (Nat.le_trans hrunning.since_le hlegal.2.1)
  constructor
  case bit => exact hright
  case enable =>
    rw [helapsed.enable, triggered_value hready htrigger, decide_eq_true hrunning.value, hpulse]
    rfl
  case marked =>
    refine hready.marked hholds helapsed.init helapsed.powerFlow fun _ hno => ?_
    rw [hpulse] at hno
    cases hno
  case running =>
    intro t' ht'
    obtain rfl := some.inj (hpulse.symm.trans ht')
    exact triggered_running hready htrigger hle hrunning.value

/-! ### Pulses that go on -/

/-- What is left of the duration bounds what can be counted. -/
theorem counted_lt (hrunning : Running n d t s) (hle : s.last ≤ x.time)
    (hlt : x.time < t + durationMs n d) :
    s.counted n x = (x.time - s.since) / unitMs n ∧
      s.cells.value.toNat + s.counted n x < d.toNat := by
  have hunit := unitMs_le n
  have hsince := hrunning.since
  have hlast := hrunning.since_le
  have hdiv : (x.time - s.since) / unitMs n * unitMs n ≤ x.time - s.since := div_mul_le_self _ _
  have hbelow : s.cells.value.toNat + (x.time - s.since) / unitMs n < d.toNat := by
    refine Nat.lt_of_mul_lt_mul_right (a := unitMs n) ?_
    rw [Nat.add_mul]
    unfold durationMs at hlt
    omega
  have hsmall : x.time - s.since < 2 ^ 32 := by
    have hmul : d.toNat * unitMs n ≤ d.toNat * 100 := Nat.mul_le_mul_left _ hunit
    unfold durationMs at hlt
    omega
  have hcounted : s.counted n x = (x.time - s.since) / unitMs n := by
    unfold counted
    rw [mod_eq_of_lt hsmall]
  exact ⟨hcounted, by rw [hcounted]; exact hbelow⟩

theorem running_elapsed (hinv : s.Inv kind n d) (hready : Ready kind n d s x u)
    (hlegal : kind.Legal n d s x) (hbegan : s.began = some t)
    (htrigger : s.trigger kind x = false) :
    TimerCells.Elapsed n s.since x.time d u (s.next kind n d x).cells := by
  obtain ⟨henable, -, hcap, hstart, hdest⟩ := hready.quiet htrigger
  have hrunning := hinv.running t hbegan
  refine hready.elapsed ?_ (hcap.trans hrunning.capacity) (hdest hrunning.dest)
    (hstart.trans hrunning.start) (Nat.le_trans hrunning.since_le hlegal.2.1)
  rw [henable, hinv.enable, hbegan]
  rfl

theorem running_value (hinv : s.Inv kind n d) (hready : Ready kind n d s x u)
    (hlegal : kind.Legal n d s x) (hbegan : s.began = some t)
    (htrigger : s.trigger kind x = false) :
    (s.next kind n d x).cells.value.toNat = (s.cells.value.toNat + s.counted n x) % 2 ^ 16 := by
  rw [(running_elapsed hinv hready hlegal hbegan htrigger).value, hready.value]
  rfl

/-- The value stays below the destination until the pulse is to end. -/
theorem running_below (hinv : s.Inv kind n d) (hready : Ready kind n d s x u)
    (hlegal : kind.Legal n d s x) (hbegan : s.began = some t)
    (htrigger : s.trigger kind x = false) (hlt : x.time < t + durationMs n d) :
    (s.next kind n d x).cells.value.toNat = s.cells.value.toNat + s.counted n x ∧
      (s.next kind n d x).cells.value < d := by
  obtain ⟨-, hbelow⟩ := counted_lt (hinv.running t hbegan) hlegal.2.1 hlt
  have hvalue : (s.next kind n d x).cells.value.toNat =
      s.cells.value.toNat + s.counted n x := by
    rw [running_value hinv hready hlegal hbegan htrigger, mod_eq_of_lt (by omega)]
  exact ⟨hvalue, lt_def.mpr (by rw [hvalue]; exact hbelow)⟩

/-- It shows the pulse as far as it reaches the destination then. -/
theorem running_iff (hinv : s.Inv kind n d) (hready : Ready kind n d s x u)
    (hlegal : kind.Legal n d s x) (hholds : kind.holds x.flow = false) (hbegan : s.began = some t)
    (htrigger : s.trigger kind x = false) :
    ((s.next kind n d x).cells.value < d ↔ x.time < t + durationMs n d) ↔
      kind.Regular n d s x := by
  rw [regular_of_running hholds hbegan, ← running_value hinv hready hlegal hbegan htrigger]
  constructor
  · intro hiff hend
    exact ⟨htrigger, Nat.le_of_not_lt fun hlt =>
      absurd (hiff.mp (lt_def.mpr hlt)) (Nat.not_lt.mpr hend)⟩
  · intro hregular
    refine ⟨fun hlt => Nat.lt_of_not_le fun hend => ?_,
      fun hlt => (running_below hinv hready hlegal hbegan htrigger hlt).2⟩
    exact absurd (lt_def.mp hlt) (Nat.not_lt.mpr (hregular hend).2)

theorem running_right_iff (hinv : s.Inv kind n d) (hready : Ready kind n d s x u)
    (hlegal : kind.Legal n d s x) (hholds : kind.holds x.flow = false) (hbegan : s.began = some t)
    (htrigger : s.trigger kind x = false) : kind.Right n d s x ↔ kind.Regular n d s x := by
  obtain ⟨-, hbit, -⟩ := hready.quiet htrigger
  rw [← running_iff hinv hready hlegal hholds hbegan htrigger]
  unfold OneShotKind.Right
  rw [(running_elapsed hinv hready hlegal hbegan htrigger).bit, hbit, hinv.bit, hholds,
    pulse_eq hholds, hbegan, OneShot.next_running, isSome_filter_iff, isSome_some,
    Bool.or_true, Bool.true_and, Bool.false_or, decide_eq_decide]

theorem running_inv (hinv : s.Inv kind n d) (hready : Ready kind n d s x u)
    (hlegal : kind.Legal n d s x) (hholds : kind.holds x.flow = false) (hbegan : s.began = some t)
    (htrigger : s.trigger kind x = false) (hregular : kind.Regular n d s x) :
    (s.next kind n d x).Inv kind n d := by
  have hright := (running_right_iff hinv hready hlegal hholds hbegan htrigger).mpr hregular
  have hiff := (running_iff hinv hready hlegal hholds hbegan htrigger).mpr hregular
  have helapsed := running_elapsed hinv hready hlegal hbegan htrigger
  have hpulse : (s.next kind n d x).began =
      if x.time < t + durationMs n d then some t else none := by
    show s.pulse kind n d x = _
    rw [pulse_eq hholds, hbegan, OneShot.next_running]
  have hmoved : (s.next kind n d x).since = s.since + s.counted n x * unitMs n := by
    show (if s.trigger kind x = true then _ else _) = _
    rw [htrigger, if_neg Bool.false_ne_true]
  constructor
  case bit => exact hright
  case enable =>
    rw [helapsed.enable, hpulse, isSome_filter_iff, decide_eq_decide]
    exact hiff
  case marked =>
    refine hready.marked hholds helapsed.init helapsed.powerFlow fun _ hno => .inr ?_
    rw [hpulse, ite_eq_right_iff] at hno
    refine BitVec.not_lt.mp fun hlt => ?_
    exact absurd (hno (hiff.mp hlt)) (some_ne_none t)
  case running =>
    intro t' ht'
    rw [hpulse] at ht'
    split at ht'
    · rename_i hlt
      obtain rfl := some.inj ht'
      obtain ⟨hvalue, hbelow⟩ := running_below hinv hready hlegal hbegan htrigger hlt
      have hrunning := hinv.running t hbegan
      have hdiv : (x.time - s.since) / unitMs n * unitMs n ≤ x.time - s.since :=
        div_mul_le_self _ _
      rw [← (counted_lt hrunning hlegal.2.1 hlt).1] at hdiv
      have hlast := Nat.le_trans hrunning.since_le hlegal.2.1
      exact {
        capacity := helapsed.capacity
        dest := helapsed.dest
        start := by rw [hmoved]; exact helapsed.start
        since := by
          have hsince := hrunning.since
          rw [hvalue, Nat.add_mul]
          omega
        since_le := by
          show _ ≤ x.time
          omega
        value := hbelow }
    · cases ht'

end OneShotRun

namespace OneShotRun

variable {kind : OneShotKind} {n : Nat} {d : BitVec 16} {s : OneShotRun} {x : TimedExecution}

theorem holds_right (h : kind.Legal n d s x) (hholds : kind.holds x.flow = true) :
    kind.Right n d s x ∧ (s.next kind n d x).Inv kind n d := by
  have hpulse : s.pulse kind n d x = none := if_pos hholds
  cases kind with
  | tof =>
    have hflow : x.flow = true := hholds
    have hcells : (s.next .tof n d x).cells =
        ⟨⟨false, true, false, 0, 0, s.cells.timer.dest, s.cells.timer.start⟩, 0, true⟩ := by
      rw [cells_next h, hflow]
      rfl
    have hright : OneShotKind.tof.Right n d s x := by
      unfold OneShotKind.Right
      rw [hcells, hholds, Bool.true_or]
    refine ⟨hright, ?_⟩
    exact {
      bit := hright
      enable := by
        show _ = (s.pulse .tof n d x).isSome
        rw [hcells, hpulse]
        rfl
      marked := by
        show if x.flow then _ else _
        rw [hflow, hcells]
        exact ⟨rfl, rfl, rfl, hpulse⟩
      running := fun t ht => by cases hpulse.symm.trans ht }
  | tmon => exact absurd hholds Bool.false_ne_true

theorem right_iff_regular (hinv : s.Inv kind n d) (h : kind.Legal n d s x) :
    kind.Right n d s x ↔ kind.Regular n d s x := by
  cases hholds : kind.holds x.flow with
  | true =>
    have hregular : kind.Regular n d s x := by
      unfold OneShotKind.Regular
      rw [hholds]
      trivial
    exact iff_of_true (holds_right h hholds).1 hregular
  | false =>
    obtain ⟨u, hready⟩ := exists_ready hinv h hholds
    cases hbegan : s.began with
    | none =>
      cases htrigger : s.trigger kind x with
      | true => exact start_right_iff hinv hready hholds hbegan htrigger
      | false =>
        refine iff_of_true (idle_right hinv hready hholds hbegan htrigger) ?_
        refine (regular_of_idle hholds hbegan).mpr fun hyes => ?_
        exact absurd (htrigger.symm.trans hyes) Bool.noConfusion
    | some t =>
      cases htrigger : s.trigger kind x with
      | true => exact again_right_iff hinv hready hholds hbegan htrigger
      | false => exact running_right_iff hinv hready h hholds hbegan htrigger

theorem inv_next (hinv : s.Inv kind n d) (h : kind.Legal n d s x)
    (hregular : kind.Regular n d s x) : (s.next kind n d x).Inv kind n d := by
  cases hholds : kind.holds x.flow with
  | true => exact (holds_right h hholds).2
  | false =>
    obtain ⟨u, hready⟩ := exists_ready hinv h hholds
    cases hbegan : s.began with
    | none =>
      cases htrigger : s.trigger kind x with
      | true => exact start_inv hinv hready hholds hbegan htrigger hregular
      | false => exact idle_inv hinv hready hholds hbegan htrigger
    | some t =>
      cases htrigger : s.trigger kind x with
      | true => exact again_inv hinv hready h hholds hbegan htrigger hregular
      | false => exact running_inv hinv hready h hholds hbegan htrigger hregular

end OneShotRun

open OneShotRun

/-- The run lemma. -/
theorem pulses_right_iff (kind : OneShotKind) (n : Nat) (d : BitVec 16) (time : Nat)
    (xs : List TimedExecution)
    (hlegal : Each (next kind n d) (fun s x => kind.Legal n d s x) (start time) xs) :
    Each (next kind n d) (fun s x => kind.Right n d s x) (start time) xs ↔
      Each (next kind n d) (fun s x => kind.Regular n d s x) (start time) xs :=
  Each.iff_of_invariant (inv_start time) hlegal (fun _ _ hinv h => right_iff_regular hinv h)
    fun _ _ hinv h hregular => inv_next hinv h hregular

/-- `TMON T384 K100` at a time, with a power flow. -/
def tmonAt (time : Nat) (inPF : BitVec 32) : TimedExecution where
  time := time
  input :=
    { ucode := [0x0B, 0xF1, 0x00, 0x15, 0x80, 0x01, 0x00, 0xFF, 0x64, 0x00]
      pc := 0
      level := 0
      now := 0
      inPF := inPF
      sfc := Plc.off.sfc
      store := Store.off }

theorem tmonAt_legal {s : OneShotRun} {time : Nat} {inPF : BitVec 32} (h : s.last ≤ time) :
    OneShotKind.tmon.Legal 384 100 s (tmonAt time inPF) := ⟨rfl, h, fun _ => rfl⟩

/-- The first pulse has its duration. -/
theorem tmonAt_right : Each (next .tmon 384 100) (fun s x => OneShotKind.tmon.Right 384 100 s x)
    (start 0) [tmonAt 0 1, tmonAt 99 1, tmonAt 100 1] := by
  refine (pulses_right_iff .tmon 384 100 0 _ ?_).mpr ?_
  · exact Each.cons_iff.mpr ⟨tmonAt_legal (Nat.le_refl _),
      Each.cons_iff.mpr ⟨tmonAt_legal (Nat.zero_le _),
        Each.cons_iff.mpr ⟨tmonAt_legal (by decide), Each.nil⟩⟩⟩
  · refine Each.cons_iff.mpr ⟨?_, Each.cons_iff.mpr ⟨?_, Each.cons_iff.mpr ⟨?_, Each.nil⟩⟩⟩
    · exact fun _ _ => rfl
    · exact fun hend => absurd hend (by decide)
    · exact fun _ => by decide

/-- The second pulse ends when it starts. -/
theorem pulses_not_right : ¬ ∀ (kind : OneShotKind) (n : Nat) (d : BitVec 16) (time : Nat)
    (xs : List TimedExecution),
    Each (next kind n d) (fun s x => kind.Legal n d s x) (start time) xs →
      Each (next kind n d) (fun s x => kind.Right n d s x) (start time) xs := by
  intro h
  have hlegal : Each (next .tmon 384 100) (fun s x => OneShotKind.tmon.Legal 384 100 s x) (start 0)
      [tmonAt 0 1, tmonAt 100 0, tmonAt 200 1] :=
    Each.cons_iff.mpr ⟨tmonAt_legal (Nat.le_refl _),
      Each.cons_iff.mpr ⟨tmonAt_legal (Nat.zero_le _),
        Each.cons_iff.mpr ⟨tmonAt_legal (by decide), Each.nil⟩⟩⟩
  have hright := h .tmon 384 100 0 _ hlegal [tmonAt 0 1, tmonAt 100 0] (tmonAt 200 1) [] rfl
  have hbit : ((((start 0).next .tmon 384 100 (tmonAt 0 1)).next .tmon 384 100
      (tmonAt 100 0)).next .tmon 384 100 (tmonAt 200 1)).cells.bit = false := by decide
  exact absurd (hbit.symm.trans hright) (by decide)

end Kalyke
