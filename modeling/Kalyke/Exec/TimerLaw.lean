-- SUMMARY: `TON` and `TONR` over whole runs: when the value is the time that has passed, in whole units.
import Kalyke.Exec.TimerIns
import Kalyke.Lib.Runs

/-!
# The time of a timer

A run executes `TON` or `TONR` on one timer, at times that do not go back. Beside the timer it keeps
an account: how long the power flow was on between consecutive executions, and of that time what
the start value still holds of a unit that is not whole, and what was dropped when the power flow
went off.
-/

namespace Kalyke

open List Nat
open BitVec (ofNat_add toNat_ofNat toNat_udiv le_def)

/-- An instruction that switches on with a delay. -/
inductive DelayKind where
  | ton
  | tonr
deriving DecidableEq

def DelayKind.body : DelayKind → Nat → BitVec 32 → Bool →
    Except PlcErr Unit × List (BitVec 16) → TimerCells → Except PlcErr Unit × TimerCells
  | ton => TimerCells.ton
  | tonr => TimerCells.tonr

def DelayKind.run : DelayKind → BodyInput → BodyResult
  | ton => runCiTonIns
  | tonr => runCiTonrIns

/-- The milliseconds of a unit of the timer with a number. -/
def unitMs (n : Nat) : Nat :=
  if n < timerCnt100ms then 100 else if n < timerCnt100ms + timerCnt10ms then 10 else 1

def MeasuresTime (unit time value : Nat) : Prop :=
  ∃ full, 0x7FFF ≤ full ∧ value = min (time / unit) full

/-- An execution of the instruction at a time in milliseconds. The tick count is the time modulo
`2 ^ 32`; of the store, the timer itself comes from the run. -/
structure TimedExecution where
  time : Nat
  input : BodyInput

/-- The timer, whether the power flow was on at the last execution, its time, and the account. -/
structure DelayRun where
  cells : TimerCells
  on : Bool
  last : Nat
  total : Nat
  phase : Nat
  lost : Nat

namespace TimedExecution

/-- What the instruction sees. -/
def seen (x : TimedExecution) (n : Nat) (t : TimerCells) : BodyInput :=
  { x.input with now := BitVec.ofNat 32 x.time, store := x.input.store.putTimer n t }

def flow (x : TimedExecution) : Bool := getPowerFlow x.input.inPF

/-- The destination as `get_word` returns it. -/
def dest (x : TimedExecution) (n : Nat) (t : TimerCells) : Except PlcErr Unit × List (BitVec 16) :=
  getWord x.input.ucode (x.input.pc + 6) (x.input.store.putTimer n t) x.input.level 0 1

end TimedExecution

namespace DelayRun

def start (time : Nat) : DelayRun := ⟨.reset (BitVec.ofNat 32 time), false, time, 0, 0, 0⟩

/-- The time that has passed since the last execution, if the power flow was on at both. -/
def passed (s : DelayRun) (x : TimedExecution) : Nat :=
  if s.on = true ∧ x.flow = true then x.time - s.last else 0

/-- What has passed since the start value, where the power flow was on. -/
def elapsed (s : DelayRun) (x : TimedExecution) : Nat := s.phase + (x.time - s.last)

/-- The time in whole units, where the power flow was on. -/
def units (n : Nat) (s : DelayRun) (x : TimedExecution) : Nat :=
  (s.total + (x.time - s.last)) / unitMs n

def next (kind : DelayKind) (n : Nat) (s : DelayRun) (x : TimedExecution) : DelayRun where
  cells := (kind.run (x.seen n s.cells)).2.2.timerCells n
  on := x.flow
  last := x.time
  total := s.total + s.passed x
  phase := if x.flow then (s.phase + s.passed x) % unitMs n else 0
  lost := if x.flow then s.lost else s.lost + s.phase

end DelayRun

namespace TimedExecution

variable (kind : DelayKind) (n : Nat) (d : BitVec 16) (s : DelayRun) (x : TimedExecution)

/-- The instruction is one on the timer with number `n`, and with the destination `d`. `TON` is
executed with power flow. -/
def Legal : Prop :=
  x.input.ucode.getPU16 (x.input.pc + 4) = n ∧ s.last ≤ x.time ∧
    (x.flow = true → x.dest n s.cells = (.ok (), [d])) ∧ (kind = .ton → x.flow = true)

/-- The value measures the time and does not go down, one that is full stays, and the bit is on
where the value has reached the destination. -/
def Right : Prop :=
  let s' := s.next kind n x
  MeasuresTime (unitMs n) s'.total s'.cells.value.toNat ∧ s.cells.value ≤ s'.cells.value ∧
    (0x7FFF ≤ s.cells.value → s'.cells.value = s.cells.value) ∧
    (s'.cells.bit = true ↔ d ≤ s'.cells.value)

/-- A full value has reached the destination. Before, the parts of units that have been dropped make
no unit together with the one that has begun, and what overflows the 16 bits or the tick count
leaves a full value. A destination of zero has been compared where the instruction does not. -/
def Regular : Prop :=
  if x.flow = false then d = 0 → s.cells.bit = true
  else if 0x7FFF ≤ s.cells.value then d ≤ s.cells.value
  else if s.on = false then kind = .tonr → d = 0 → s.cells.bit = true
  else if s.units n x < 0x7FFF then s.lost + s.elapsed x % unitMs n < unitMs n
  else 0x7FFF ≤ (s.cells.value.toNat + s.elapsed x % 2 ^ 32 / unitMs n) % 2 ^ 16

end TimedExecution

/-! ## Units -/

/-- The time that has passed, as the tick count shows it. -/
theorem sub_ofNat_toNat {since time : Nat} (h : since ≤ time) :
    (BitVec.ofNat 32 time - BitVec.ofNat 32 since).toNat = (time - since) % 2 ^ 32 := by
  have htime : BitVec.ofNat 32 time = BitVec.ofNat 32 since + BitVec.ofNat 32 (time - since) := by
    rw [← ofNat_add]
    congr 1
    omega
  rw [htime, BitVec.add_comm, BitVec.add_sub_cancel, toNat_ofNat]

theorem unitMs_cases (n : Nat) : unitMs n = 100 ∨ unitMs n = 10 ∨ unitMs n = 1 := by
  unfold unitMs
  split
  · exact .inl rfl
  · split
    · exact .inr (.inl rfl)
    · exact .inr (.inr rfl)

theorem timeUnit_timeAccuracy (n : Nat) :
    timeUnit (timeAccuracy n) = some (BitVec.ofNat 32 (unitMs n)) := by
  unfold timeAccuracy unitMs
  split
  · rfl
  · split <;> rfl

theorem unitMs_pos (n : Nat) : 0 < unitMs n := by
  have hcases := unitMs_cases n
  omega

theorem unitMs_le (n : Nat) : unitMs n ≤ 100 := by
  have hcases := unitMs_cases n
  omega

theorem measuresTime_iff {unit time value : Nat} :
    MeasuresTime unit time value ↔
      (time / unit < 0x7FFF → value = time / unit) ∧
        (0x7FFF ≤ time / unit → 0x7FFF ≤ value ∧ value ≤ time / unit) := by
  constructor
  · rintro ⟨full, hfull, rfl⟩
    exact ⟨fun _ => by omega, fun _ => by omega⟩
  · rintro ⟨hbelow, habove⟩
    rcases Nat.lt_or_ge (time / unit) 0x7FFF with hlt | hge
    · exact ⟨0x7FFF, Nat.le_refl _, by rw [hbelow hlt]; omega⟩
    · exact ⟨value, (habove hge).1, by have := (habove hge).2; omega⟩

/-- Time that is kept as a number of units, a part that was dropped, and what has passed since. -/
theorem units_div {unit : Nat} (h : 0 < unit) (value lost elapsed : Nat) :
    (value * unit + (lost + elapsed)) / unit =
      value + (elapsed / unit + (lost + elapsed % unit) / unit) := by
  have hsplit : lost + elapsed = lost + elapsed % unit + unit * (elapsed / unit) := by
    have hdiv := mod_add_div elapsed unit
    omega
  rw [Nat.mul_comm, mul_add_div h, hsplit, add_mul_div_left _ _ h, Nat.add_comm (_ / unit)]

namespace TimerCells

variable {t : TimerCells} {n : Nat} {now : BitVec 32}

theorem ofNat_unitMs_toNat (n : Nat) : (BitVec.ofNat 32 (unitMs n)).toNat = unitMs n := by
  have hle := unitMs_le n
  rw [toNat_ofNat, mod_eq_of_lt (by omega)]

/-- The value after counting. -/
theorem value_advance (h : t.timer.capacity = timeAccuracy n) :
    (t.advance now).value.toNat =
      (t.value.toNat + (now - t.timer.start).toNat / unitMs n) % 2 ^ 16 := by
  rw [advance, h, timeUnit_timeAccuracy]
  show (t.value + BitVec.setWidth 16 _).toNat = _
  rw [BitVec.toNat_add, BitVec.toNat_setWidth, toNat_udiv, ofNat_unitMs_toNat]
  omega

/-- The start value after counting. -/
theorem start_advance (h : t.timer.capacity = timeAccuracy n) :
    (t.advance now).timer.start =
      t.timer.start + BitVec.ofNat 32 ((now - t.timer.start).toNat / unitMs n * unitMs n) := by
  rw [advance, h, timeUnit_timeAccuracy]
  show t.timer.start + _ = _
  congr 1
  apply BitVec.eq_of_toNat_eq
  rw [BitVec.toNat_mul, toNat_udiv, ofNat_unitMs_toNat, toNat_ofNat]

@[simp] theorem enable_advance : (t.advance now).timer.enable = t.timer.enable := by
  unfold advance count
  split <;> rfl

@[simp] theorem init_advance : (t.advance now).timer.init = t.timer.init := by
  unfold advance count
  split <;> rfl

@[simp] theorem capacity_advance : (t.advance now).timer.capacity = t.timer.capacity := by
  unfold advance count
  split <;> rfl

@[simp] theorem dest_advance : (t.advance now).timer.dest = t.timer.dest := by
  unfold advance count
  split <;> rfl

@[simp] theorem bit_advance : (t.advance now).bit = t.bit := by
  unfold advance count
  split <;> rfl

/-- What counting the time to `now` and comparing the value with `d` leaves of a timer. -/
structure Counted (n : Nat) (now : BitVec 32) (d : BitVec 16) (t t' : TimerCells) : Prop where
  value : t'.value.toNat = (t.value.toNat + (now - t.timer.start).toNat / unitMs n) % 2 ^ 16
  start : t'.timer.start =
    t.timer.start + BitVec.ofNat 32 ((now - t.timer.start).toNat / unitMs n * unitMs n)
  enable : t'.timer.enable = true
  init : t'.timer.init = true
  capacity : t'.timer.capacity = timeAccuracy n
  bit : t'.bit = true ↔ t.bit = true ∨ d ≤ t'.value

theorem counted_of_advance {d : BitVec 16} {u : TimerCells} (hvalue : u.value = t.value)
    (hstart : u.timer.start = t.timer.start) (hbit : u.bit = t.bit) (hdest : u.timer.dest = d)
    (henable : u.timer.enable = true) (hinit : u.timer.init = true)
    (hcap : u.timer.capacity = timeAccuracy n) :
    Counted n now d t (if (u.advance now).timer.dest ≤ (u.advance now).value then
      { u.advance now with bit := true } else u.advance now) := by
  have hcount := @value_advance _ _ now hcap
  have hmoved := @start_advance _ _ now hcap
  rw [hvalue, hstart] at hcount
  rw [hstart] at hmoved
  rw [dest_advance, hdest]
  split
  · rename_i hle
    exact ⟨hcount, hmoved, enable_advance.trans henable, init_advance.trans hinit,
      capacity_advance.trans hcap, iff_of_true rfl (.inr hle)⟩
  · rename_i hlt
    refine ⟨hcount, hmoved, enable_advance.trans henable, init_advance.trans hinit,
      capacity_advance.trans hcap, ?_⟩
    rw [bit_advance, hbit]
    exact ⟨.inl, fun h => h.resolve_right hlt⟩

theorem ton_counted {d : BitVec 16} (hvalue : t.value < 0x7FFF)
    (hcap : t.timer.init = true → t.timer.capacity = timeAccuracy n) :
    Counted n now d (if t.timer.init then t else t.firstStart n 0 now)
      (ton n now true (.ok (), [d]) t).2 := by
  have hbelow : ¬ (0x7FFF : BitVec 16) ≤ t.value := BitVec.not_le.mpr hvalue
  cases hinit : t.timer.init with
  | true =>
    simp only [ton, setDest, headD_cons, hinit, if_true, hbelow, if_false]
    exact counted_of_advance rfl rfl rfl rfl rfl rfl (hcap hinit)
  | false =>
    simp only [ton, setDest, headD_cons, hinit, Bool.false_eq_true, if_false, firstStart,
      hbelow]
    exact counted_of_advance rfl rfl rfl rfl rfl rfl rfl

/-- `TONR` counts where it is enabled. -/
theorem tonr_counted {d : BitVec 16} (hvalue : t.value < 0x7FFF) (henable : t.timer.enable = true)
    (hinit : t.timer.init = true) (hcap : t.timer.capacity = timeAccuracy n) :
    Counted n now d t (tonr n now true (.ok (), [d]) t).2 := by
  have hbelow : ¬ (0x7FFF : BitVec 16) ≤ t.value := BitVec.not_le.mpr hvalue
  simp only [tonr, setDest, hinit, if_true, hbelow, henable]
  exact counted_of_advance rfl rfl rfl rfl rfl rfl hcap

/-- Where it is not, it starts to count. -/
theorem tonr_starts {d : BitVec 16} (hvalue : t.value < 0x7FFF) (henable : t.timer.enable = false)
    (hcap : t.timer.init = true → t.timer.capacity = timeAccuracy n) :
    let t' := (tonr n now true (.ok (), [d]) t).2
    t'.value = t.value ∧ t'.bit = t.bit ∧ t'.timer.enable = true ∧ t'.timer.init = true ∧
      t'.timer.capacity = timeAccuracy n ∧ t'.timer.start = now := by
  have hbelow : ¬ (0x7FFF : BitVec 16) ≤ t.value := BitVec.not_le.mpr hvalue
  cases hinit : t.timer.init with
  | true =>
    simp only [tonr, setDest, hinit, if_true, hbelow, if_false, henable, true_and, and_true]
    exact hcap hinit
  | false =>
    simp only [tonr, setDest, hinit, if_true, Bool.false_eq_true, if_false, firstStart, hbelow,
      henable, and_true]

end TimerCells

namespace DelayRun

variable {kind : DelayKind} {n : Nat} {d : BitVec 16} {s : DelayRun} {x : TimedExecution}

theorem cells_next (h : x.Legal kind n d s) :
    (s.next kind n x).cells =
      (kind.body n (BitVec.ofNat 32 x.time) x.flow (x.dest n s.cells) s.cells).2 := by
  have hcells : (x.seen n s.cells).store.timerCells n = s.cells := Store.timerCells_putTimer_self
  have hrun (body) : (runTimer body (x.seen n s.cells)).2.2.timerCells n =
      (body n (BitVec.ofNat 32 x.time) x.flow (x.dest n s.cells) s.cells).2 := by
    rw [timerCells_runTimer (i := x.seen n s.cells) h.1, hcells]
    rfl
  cases kind
  · exact hrun _
  · exact hrun _

/-- A timer that keeps its account. -/
structure Inv (kind : DelayKind) (n : Nat) (d : BitVec 16) (s : DelayRun) : Prop where
  law : MeasuresTime (unitMs n) s.total s.cells.value.toNat
  le_of_bit : s.cells.bit = true → d ≤ s.cells.value
  bit_of_le : d ≠ 0 → d ≤ s.cells.value → s.cells.bit = true
  enable : s.cells.value < 0x7FFF → s.cells.timer.enable = s.on
  capacity : s.cells.timer.init = true → s.cells.timer.capacity = timeAccuracy n
  init : s.on = true → s.cells.timer.init = true
  ton : kind = .ton → s.on = false → s.cells.timer.init = false
  start : s.cells.value < 0x7FFF → s.on = true →
    s.cells.timer.start + BitVec.ofNat 32 s.phase = BitVec.ofNat 32 s.last
  account : s.cells.value < 0x7FFF →
    s.total = s.cells.value.toNat * unitMs n + (s.lost + s.phase) ∧ s.lost + s.phase < unitMs n
  phase : s.on = false → s.phase = 0

theorem inv_start (time : Nat) : (start time).Inv kind n d where
  law := measuresTime_iff.mpr ⟨fun _ => (Nat.zero_div _).symm, fun h => absurd h (by simp [start])⟩
  le_of_bit h := by cases h
  bit_of_le hd hle := absurd (BitVec.le_zero_iff.mp hle) hd
  enable _ := rfl
  capacity h := by cases h
  init h := by cases h
  ton _ _ := rfl
  start _ h := by cases h
  account _ := ⟨by simp [start, TimerCells.reset], unitMs_pos n⟩
  phase _ := rfl

/-! ### Executions without power flow -/

theorem off_cells (h : x.Legal kind n d s) (hflow : x.flow = false) :
    (s.next kind n x).cells =
      if s.cells.timer.init then
        { s.cells with timer.enable := false, timer.start := BitVec.ofNat 32 x.time }
      else s.cells := by
  rw [cells_next h, hflow]
  cases kind with
  | ton => exact absurd (h.2.2.2 rfl) (by simp [hflow])
  | tonr =>
    show (TimerCells.tonr _ _ false _ _).2 = _
    unfold TimerCells.tonr
    simp only [Bool.false_eq_true, if_false]
    split <;> rfl

variable (kind n s) in
theorem off_next (hflow : x.flow = false) :
    (s.next kind n x).total = s.total ∧ (s.next kind n x).on = false ∧
      (s.next kind n x).phase = 0 ∧ (s.next kind n x).lost = s.lost + s.phase := by
  simp [next, passed, hflow]

theorem off_right_iff (hinv : s.Inv kind n d) (h : x.Legal kind n d s) (hflow : x.flow = false) :
    x.Right kind n d s ↔ (d = 0 → s.cells.bit = true) := by
  have hcells := off_cells h hflow
  obtain ⟨htotal, -⟩ := off_next kind n s hflow
  have hvalue : (s.next kind n x).cells.value = s.cells.value := by
    rw [hcells]
    split <;> rfl
  have hbit : (s.next kind n x).cells.bit = s.cells.bit := by
    rw [hcells]
    split <;> rfl
  unfold TimedExecution.Right
  simp only [htotal, hvalue, hbit]
  constructor
  · rintro ⟨-, -, -, hright⟩ rfl
    exact hright.mpr (le_def.mpr (Nat.zero_le _))
  · intro hzero
    refine ⟨hinv.law, BitVec.le_refl _, fun _ => trivial, hinv.le_of_bit, fun hle => ?_⟩
    by_cases hd : d = 0
    · exact hzero hd
    · exact hinv.bit_of_le hd hle

theorem off_inv (hinv : s.Inv kind n d) (h : x.Legal kind n d s) (hflow : x.flow = false) :
    (s.next kind n x).Inv kind n d := by
  have hcells := off_cells h hflow
  obtain ⟨htotal, hon, hphase, hlost⟩ := off_next kind n s hflow
  have hvalue : (s.next kind n x).cells.value = s.cells.value := by
    rw [hcells]
    split <;> rfl
  have hbit : (s.next kind n x).cells.bit = s.cells.bit := by
    rw [hcells]
    split <;> rfl
  constructor
  case law => rw [htotal, hvalue]; exact hinv.law
  case le_of_bit => rw [hvalue, hbit]; exact hinv.le_of_bit
  case bit_of_le => rw [hvalue, hbit]; exact hinv.bit_of_le
  case enable =>
    intro hbelow
    rw [hvalue] at hbelow
    rw [hcells, hon]
    split
    · rfl
    · rename_i hinit
      rw [hinv.enable hbelow]
      exact Bool.eq_false_iff.mpr fun hset => hinit (hinv.init hset)
  case capacity =>
    rw [hcells]
    split
    · exact hinv.capacity
    · exact hinv.capacity
  case init => rw [hon]; exact fun hset => absurd hset Bool.false_ne_true
  case ton => exact fun hton => absurd (h.2.2.2 hton) (by simp [hflow])
  case start => rw [hon]; exact fun _ hset => absurd hset Bool.false_ne_true
  case account =>
    rw [htotal, hvalue, hphase, hlost]
    exact hinv.account
  case phase => exact fun _ => hphase

/-! ### Full timers -/

theorem full_cells (h : x.Legal kind n d s) (hflow : x.flow = true)
    (hfull : 0x7FFF ≤ s.cells.value) :
    (s.next kind n x).cells.value = s.cells.value ∧ (s.next kind n x).cells.bit = true ∧
      (s.next kind n x).cells.timer.init = true ∧
        ((s.cells.timer.init = true → s.cells.timer.capacity = timeAccuracy n) →
          (s.next kind n x).cells.timer.capacity = timeAccuracy n) := by
  rw [cells_next h, hflow, h.2.2.1 hflow]
  cases kind <;> cases hinit : s.cells.timer.init <;>
    simp only [DelayKind.body, TimerCells.ton, TimerCells.tonr, TimerCells.setDest,
      TimerCells.setEnable, TimerCells.firstStart, hinit, hfull, if_true, if_false,
      Bool.false_eq_true, forall_const, imp_self, and_self]

variable (kind n s) in
theorem on_next (hflow : x.flow = true) :
    (s.next kind n x).on = true ∧ (s.next kind n x).lost = s.lost ∧
      (s.next kind n x).last = x.time ∧ (s.next kind n x).total = s.total + s.passed x ∧
        (s.next kind n x).phase = (s.phase + s.passed x) % unitMs n := by
  simp [next, hflow]

theorem full_law (hinv : s.Inv kind n d) (hfull : 0x7FFF ≤ s.cells.value) (more : Nat) :
    MeasuresTime (unitMs n) (s.total + more) s.cells.value.toNat := by
  obtain ⟨hbelow, habove⟩ := measuresTime_iff.mp hinv.law
  have hvalue : 0x7FFF ≤ s.cells.value.toNat := hfull
  have hmore : s.total / unitMs n ≤ (s.total + more) / unitMs n :=
    Nat.div_le_div_right (Nat.le_add_right _ _)
  refine measuresTime_iff.mpr ⟨fun hlt => ?_, fun _ => ⟨hvalue, ?_⟩⟩
  · have hsame := hbelow (by omega)
    omega
  · rcases Nat.lt_or_ge (s.total / unitMs n) 0x7FFF with hlt | hge
    · have hsame := hbelow hlt
      omega
    · exact Nat.le_trans (habove hge).2 hmore

theorem full_right_iff (hinv : s.Inv kind n d) (h : x.Legal kind n d s) (hflow : x.flow = true)
    (hfull : 0x7FFF ≤ s.cells.value) : x.Right kind n d s ↔ d ≤ s.cells.value := by
  obtain ⟨hvalue, hbit, -⟩ := full_cells h hflow hfull
  obtain ⟨-, -, -, htotal, -⟩ := on_next kind n s hflow
  unfold TimedExecution.Right
  simp only [hvalue, hbit, true_iff]
  constructor
  · rintro ⟨-, -, -, hle⟩
    exact hle
  · intro hle
    exact ⟨full_law hinv hfull _, BitVec.le_refl _, fun _ => trivial, hle⟩

theorem full_inv (hinv : s.Inv kind n d) (h : x.Legal kind n d s) (hflow : x.flow = true)
    (hfull : 0x7FFF ≤ s.cells.value) (hle : d ≤ s.cells.value) : (s.next kind n x).Inv kind n d := by
  obtain ⟨hvalue, hbit, hinit, hcap⟩ := full_cells h hflow hfull
  obtain ⟨hon, -, -, htotal, -⟩ := on_next kind n s hflow
  have hno : ¬ (s.next kind n x).cells.value < 0x7FFF := by
    rw [hvalue]
    exact BitVec.not_lt.mpr hfull
  have hset : (s.next kind n x).on ≠ false := by simp [hon]
  exact {
    law := by rw [htotal, hvalue]; exact full_law hinv hfull _
    le_of_bit := fun _ => by rw [hvalue]; exact hle
    bit_of_le := fun _ _ => hbit
    enable := fun hbelow => absurd hbelow hno
    capacity := fun _ => hcap hinv.capacity
    init := fun _ => hinit
    ton := fun _ hoff => absurd hoff hset
    start := fun hbelow => absurd hbelow hno
    account := fun hbelow => absurd hbelow hno
    phase := fun hoff => absurd hoff hset }

/-! ### Timers that start to count -/

theorem first_cells (hinv : s.Inv kind n d) (h : x.Legal kind n d s) (hflow : x.flow = true)
    (hbelow : s.cells.value < 0x7FFF) (hoff : s.on = false) :
    let t := (s.next kind n x).cells
    t.value = s.cells.value ∧ (t.bit = true ↔ s.cells.bit = true ∨ kind = .ton ∧ d ≤ t.value) ∧
      t.timer.enable = true ∧ t.timer.init = true ∧ t.timer.capacity = timeAccuracy n ∧
        t.timer.start = BitVec.ofNat 32 x.time := by
  rw [cells_next h, hflow, h.2.2.1 hflow]
  cases kind with
  | ton =>
    have hcounted := @TimerCells.ton_counted _ _ (BitVec.ofNat 32 x.time) d hbelow
      hinv.capacity
    rw [hinv.ton rfl hoff] at hcounted
    have hzero : (BitVec.ofNat 32 x.time - BitVec.ofNat 32 x.time).toNat = 0 := by
      rw [BitVec.sub_self, BitVec.toNat_zero]
    have hstart := hcounted.start
    have hvalue := hcounted.value
    simp only [Bool.false_eq_true, if_false, TimerCells.firstStart, hzero] at hstart hvalue
    refine ⟨BitVec.eq_of_toNat_eq ?_, ?_, hcounted.enable, hcounted.init, hcounted.capacity, ?_⟩
    · have hlt := s.cells.value.isLt
      show (TimerCells.ton n _ true (.ok (), [d]) s.cells).2.value.toNat = _
      rw [hvalue, Nat.zero_div, Nat.add_zero, mod_eq_of_lt hlt]
    · refine hcounted.bit.trans ?_
      rw [eq_self, true_and]
      rfl
    · show (TimerCells.ton n _ true (.ok (), [d]) s.cells).2.timer.start = _
      rw [hstart, Nat.zero_div, Nat.zero_mul]
      exact BitVec.add_zero _
  | tonr =>
    obtain ⟨hvalue, hbit, henable, hinit, hcap, hstart⟩ :=
      @TimerCells.tonr_starts _ _ (BitVec.ofNat 32 x.time) d hbelow ((hinv.enable hbelow).trans hoff) hinv.capacity
    refine ⟨hvalue, ?_, henable, hinit, hcap, hstart⟩
    show (TimerCells.tonr n _ true (.ok (), [d]) s.cells).2.bit = true ↔ _
    rw [hbit]
    exact ⟨.inl, fun hor => hor.resolve_right (by rintro ⟨hno, -⟩; cases hno)⟩

theorem first_right_iff (hinv : s.Inv kind n d) (h : x.Legal kind n d s) (hflow : x.flow = true)
    (hbelow : s.cells.value < 0x7FFF) (hoff : s.on = false) :
    x.Right kind n d s ↔ (kind = .tonr → d = 0 → s.cells.bit = true) := by
  obtain ⟨hvalue, hbit, -⟩ := first_cells hinv h hflow hbelow hoff
  obtain ⟨-, -, -, htotal, -⟩ := on_next kind n s hflow
  have hpassed : s.passed x = 0 := by simp [passed, hoff]
  rw [hpassed] at htotal
  unfold TimedExecution.Right
  simp only [htotal, hbit, hvalue]
  constructor
  · rintro ⟨-, -, -, hright⟩ rfl rfl
    have hzero : (0 : BitVec 16) ≤ s.cells.value := le_def.mpr (Nat.zero_le _)
    exact (hright.mpr hzero).resolve_right (by rintro ⟨hno, -⟩; cases hno)
  · intro hzero
    refine ⟨hinv.law, BitVec.le_refl _, fun _ => trivial, ?_, fun hle => ?_⟩
    · rintro (hset | ⟨-, hle⟩)
      · exact hinv.le_of_bit hset
      · exact hle
    · cases kind with
      | ton => exact .inr ⟨rfl, hle⟩
      | tonr =>
        by_cases hd : d = 0
        · exact .inl (hzero rfl hd)
        · exact .inl (hinv.bit_of_le hd hle)

theorem first_inv (hinv : s.Inv kind n d) (h : x.Legal kind n d s) (hflow : x.flow = true)
    (hbelow : s.cells.value < 0x7FFF) (hoff : s.on = false) : (s.next kind n x).Inv kind n d := by
  obtain ⟨hvalue, hbit, henable, hinit, hcap, hstart⟩ := first_cells hinv h hflow hbelow hoff
  obtain ⟨hon, hlost, hlast, htotal, hphase⟩ := on_next kind n s hflow
  have hpassed : s.passed x = 0 := by simp [passed, hoff]
  rw [hpassed, hinv.phase hoff] at hphase
  rw [hpassed] at htotal
  have hset : (s.next kind n x).on ≠ false := by simp [hon]
  constructor
  case law => rw [htotal, hvalue]; exact hinv.law
  case le_of_bit =>
    intro hon
    rcases hbit.mp hon with hold | ⟨-, hle⟩
    · rw [hvalue]
      exact hinv.le_of_bit hold
    · exact hle
  case bit_of_le =>
    intro hd hle
    rw [hvalue] at hle
    exact hbit.mpr (.inl (hinv.bit_of_le hd hle))
  case enable => exact fun _ => henable.trans hon.symm
  case capacity => exact fun _ => hcap
  case init => exact fun _ => hinit
  case ton => exact fun _ hno => absurd hno hset
  case start =>
    intro _ _
    rw [hstart, hphase]
    exact BitVec.add_zero _
  case account =>
    have haccount := hinv.account hbelow
    rw [hinv.phase hoff] at haccount
    rw [htotal, hvalue, hlost, hphase]
    exact fun _ => haccount
  case phase => exact fun hno => absurd hno hset

/-! ### Timers that count -/

theorem counting_cells (hinv : s.Inv kind n d) (h : x.Legal kind n d s) (hflow : x.flow = true)
    (hbelow : s.cells.value < 0x7FFF) (hon : s.on = true) :
    TimerCells.Counted n (BitVec.ofNat 32 x.time) d s.cells (s.next kind n x).cells := by
  have hinit := hinv.init hon
  rw [cells_next h, hflow, h.2.2.1 hflow]
  cases kind with
  | ton =>
    have hcounted := @TimerCells.ton_counted _ _ (BitVec.ofNat 32 x.time) d hbelow
      hinv.capacity
    rw [hinit] at hcounted
    exact hcounted
  | tonr =>
    exact TimerCells.tonr_counted hbelow ((hinv.enable hbelow).trans hon) hinit
      (hinv.capacity hinit)

/-- What has passed since the start value, as the tick count shows it. -/
theorem elapsed_toNat (hinv : s.Inv kind n d) (h : x.Legal kind n d s)
    (hbelow : s.cells.value < 0x7FFF) (hon : s.on = true) :
    (BitVec.ofNat 32 x.time - s.cells.timer.start).toNat = s.elapsed x % 2 ^ 32 := by
  have hstart := hinv.start hbelow hon
  have htime : BitVec.ofNat 32 x.time =
      BitVec.ofNat 32 s.last + BitVec.ofNat 32 (x.time - s.last) := by
    rw [← ofNat_add]
    congr 1
    have hle := h.2.1
    omega
  rw [htime, ← hstart, BitVec.add_assoc, BitVec.add_comm, BitVec.add_sub_cancel, ← ofNat_add,
    toNat_ofNat, elapsed]

/-- The whole units that have passed since the start value. -/
def whole (n : Nat) (s : DelayRun) (x : TimedExecution) : Nat := s.elapsed x / unitMs n

def carry (n : Nat) (s : DelayRun) (x : TimedExecution) : Nat :=
  (s.lost + s.elapsed x % unitMs n) / unitMs n

theorem carry_eq_zero_iff : s.carry n x = 0 ↔ s.lost + s.elapsed x % unitMs n < unitMs n :=
  div_eq_zero_iff_lt (unitMs_pos n)

theorem units_eq (hinv : s.Inv kind n d) (hbelow : s.cells.value < 0x7FFF) :
    s.units n x = s.cells.value.toNat + (s.whole n x + s.carry n x) := by
  have haccount := (hinv.account hbelow).1
  have hsplit : s.total + (x.time - s.last) =
      s.cells.value.toNat * unitMs n + (s.lost + s.elapsed x) := by
    unfold elapsed
    omega
  rw [units, hsplit, units_div (unitMs_pos n)]
  rfl

theorem counting_value (hinv : s.Inv kind n d) (h : x.Legal kind n d s) (hflow : x.flow = true)
    (hbelow : s.cells.value < 0x7FFF) (hon : s.on = true) :
    (s.next kind n x).cells.value.toNat =
      (s.cells.value.toNat + s.elapsed x % 2 ^ 32 / unitMs n) % 2 ^ 16 := by
  rw [(counting_cells hinv h hflow hbelow hon).value, elapsed_toNat hinv h hbelow hon]

/-- Where the time is below the limit, nothing overflows. -/
theorem elapsed_of_below (hinv : s.Inv kind n d) (hbelow : s.cells.value < 0x7FFF)
    (hlow : s.units n x < 0x7FFF) : s.elapsed x % 2 ^ 32 = s.elapsed x := by
  have hunits := units_eq (x := x) hinv hbelow
  have hdiv : s.whole n x < 0x7FFF := by omega
  have hlt := (Nat.div_lt_iff_lt_mul (unitMs_pos n)).mp hdiv
  have hle := unitMs_le n
  exact mod_eq_of_lt (by omega)

theorem counting_value_of_below (hinv : s.Inv kind n d) (h : x.Legal kind n d s)
    (hflow : x.flow = true) (hbelow : s.cells.value < 0x7FFF) (hon : s.on = true)
    (hlow : s.units n x < 0x7FFF) :
    (s.next kind n x).cells.value.toNat = s.cells.value.toNat + s.whole n x := by
  have hunits := units_eq (x := x) hinv hbelow
  rw [counting_value hinv h hflow hbelow hon, elapsed_of_below hinv hbelow hlow]
  exact mod_eq_of_lt (by unfold whole at hunits; omega)

/-- The value never goes beyond the time. -/
theorem counting_value_le (hinv : s.Inv kind n d) (h : x.Legal kind n d s) (hflow : x.flow = true)
    (hbelow : s.cells.value < 0x7FFF) (hon : s.on = true) :
    (s.next kind n x).cells.value.toNat ≤ s.units n x := by
  have hunits := units_eq (x := x) hinv hbelow
  have hmod : s.elapsed x % 2 ^ 32 / unitMs n ≤ s.whole n x :=
    Nat.div_le_div_right (mod_le _ _)
  rw [counting_value hinv h hflow hbelow hon]
  refine Nat.le_trans (mod_le _ _) (Nat.le_trans (Nat.add_le_add_left hmod _) ?_)
  omega

theorem total_next (hflow : x.flow = true) (hon : s.on = true) :
    (s.next kind n x).total = s.total + (x.time - s.last) := by
  simp [next, passed, hon, hflow]

/-- The law of the value and the bit, where the timer counts. -/
theorem counting_right_iff_measures (hinv : s.Inv kind n d) (h : x.Legal kind n d s)
    (hflow : x.flow = true) (hbelow : s.cells.value < 0x7FFF) (hon : s.on = true) :
    x.Right kind n d s ↔
      (s.units n x < 0x7FFF → (s.next kind n x).cells.value.toNat = s.units n x) ∧
        (0x7FFF ≤ s.units n x → 0x7FFF ≤ (s.next kind n x).cells.value.toNat) := by
  have hcells := counting_cells hinv h hflow hbelow hon
  have hunits := units_eq (x := x) hinv hbelow
  have hold : s.cells.value.toNat < 0x7FFF := hbelow
  unfold TimedExecution.Right
  simp only [total_next hflow hon, measuresTime_iff]
  constructor
  · rintro ⟨⟨hlow, hhigh⟩, -⟩
    exact ⟨hlow, fun hle => (hhigh hle).1⟩
  · rintro ⟨hlow, hhigh⟩
    have hmono : s.cells.value ≤ (s.next kind n x).cells.value := by
      apply le_def.mpr
      rcases Nat.lt_or_ge (s.units n x) 0x7FFF with hlt | hge
      · have hsame := hlow hlt
        omega
      · have hfull := hhigh hge
        omega
    refine ⟨⟨hlow, fun hle => ⟨hhigh hle, counting_value_le hinv h hflow hbelow hon⟩⟩, hmono, ?_, ?_⟩
    · exact fun hfull => absurd hfull (BitVec.not_le.mpr hbelow)
    · refine hcells.bit.trans ⟨?_, .inr⟩
      rintro (hset | hle)
      · exact BitVec.le_trans (hinv.le_of_bit hset) hmono
      · exact hle

theorem regular_counting (hflow : x.flow = true) (hbelow : s.cells.value < 0x7FFF)
    (hon : s.on = true) : x.Regular kind n d s ↔
      if s.units n x < 0x7FFF then s.lost + s.elapsed x % unitMs n < unitMs n
      else 0x7FFF ≤ (s.cells.value.toNat + s.elapsed x % 2 ^ 32 / unitMs n) % 2 ^ 16 := by
  have hnot : ¬ (0x7FFF : BitVec 16) ≤ s.cells.value := BitVec.not_le.mpr hbelow
  unfold TimedExecution.Regular
  simp only [hflow, hon, if_neg hnot, Bool.true_eq_false, if_false]

theorem counting_right_iff (hinv : s.Inv kind n d) (h : x.Legal kind n d s) (hflow : x.flow = true)
    (hbelow : s.cells.value < 0x7FFF) (hon : s.on = true) :
    x.Right kind n d s ↔ x.Regular kind n d s := by
  have hunits := units_eq (x := x) hinv hbelow
  rw [counting_right_iff_measures hinv h hflow hbelow hon, regular_counting hflow hbelow hon]
  split
  · rename_i hlow
    rw [counting_value_of_below hinv h hflow hbelow hon hlow, ← carry_eq_zero_iff]
    constructor
    · rintro ⟨hright, -⟩
      omega
    · intro hzero
      exact ⟨fun _ => by omega, fun hfull => by omega⟩
  · rename_i hhigh
    rw [counting_value hinv h hflow hbelow hon]
    exact ⟨fun hright => hright.2 (Nat.le_of_not_lt hhigh),
      fun hfull => ⟨fun hlow => absurd hlow hhigh, fun _ => hfull⟩⟩

theorem counting_inv (hinv : s.Inv kind n d) (h : x.Legal kind n d s) (hflow : x.flow = true)
    (hbelow : s.cells.value < 0x7FFF) (hon : s.on = true) (hregular : x.Regular kind n d s) :
    (s.next kind n x).Inv kind n d := by
  have hcells := counting_cells hinv h hflow hbelow hon
  obtain ⟨hon', hlost, hlast, -, -⟩ := on_next kind n s hflow
  have hphase : (s.next kind n x).phase = s.elapsed x % unitMs n := by
    simp [next, passed, hon, hflow, elapsed]
  have hright := (counting_right_iff hinv h hflow hbelow hon).mpr hregular
  obtain ⟨-, hhigh⟩ := (counting_right_iff_measures hinv h hflow hbelow hon).mp hright
  obtain ⟨hlaw, -, -, hbit⟩ := hright
  have hset : (s.next kind n x).on ≠ false := by simp [hon']
  have hdiv : unitMs n * s.whole n x + s.elapsed x % unitMs n = s.elapsed x := div_add_mod _ _
  -- Where the value is not full, nothing has overflowed.
  have hlow (hvalue : (s.next kind n x).cells.value < 0x7FFF) : s.units n x < 0x7FFF := by
    have hless : (s.next kind n x).cells.value.toNat < 0x7FFF := hvalue
    by_contra hnot
    omega
  constructor
  case law => exact hlaw
  case le_of_bit => exact hbit.mp
  case bit_of_le => exact fun _ => hbit.mpr
  case enable => exact fun _ => hcells.enable.trans hon'.symm
  case capacity => exact fun _ => hcells.capacity
  case init => exact fun _ => hcells.init
  case ton => exact fun _ hno => absurd hno hset
  case start =>
    intro hvalue _
    have hle := h.2.1
    have hstart := hinv.start hbelow hon
    have hsum : s.phase + (x.time - s.last) = s.elapsed x := rfl
    rw [hcells.start, elapsed_toNat hinv h hbelow hon, elapsed_of_below hinv hbelow (hlow hvalue),
      hphase, BitVec.add_assoc, ← ofNat_add, Nat.mul_comm]
    show _ + BitVec.ofNat 32 (unitMs n * s.whole n x + _) = _
    rw [hdiv, ← hsum, ofNat_add, ← BitVec.add_assoc, hstart, ← ofNat_add]
    congr 1
    omega
  case account =>
    intro hvalue
    have hregular := (regular_counting hflow hbelow hon).mp hregular
    rw [if_pos (hlow hvalue)] at hregular
    have haccount := (hinv.account hbelow).1
    have hsum : s.phase + (x.time - s.last) = s.elapsed x := rfl
    rw [hlost, hphase, total_next hflow hon,
      counting_value_of_below hinv h hflow hbelow hon (hlow hvalue), Nat.add_mul,
      Nat.mul_comm (s.whole n x)]
    exact ⟨by omega, hregular⟩
  case phase => exact fun hno => absurd hno hset

theorem right_iff_regular (hinv : s.Inv kind n d) (h : x.Legal kind n d s) :
    x.Right kind n d s ↔ x.Regular kind n d s := by
  by_cases hflow : x.flow = true
  · by_cases hfull : 0x7FFF ≤ s.cells.value
    · rw [full_right_iff hinv h hflow hfull]
      unfold TimedExecution.Regular
      simp only [hflow, Bool.true_eq_false, if_false, if_pos hfull]
    · have hbelow : s.cells.value < 0x7FFF := BitVec.not_le.mp hfull
      by_cases hon : s.on = true
      · exact counting_right_iff hinv h hflow hbelow hon
      · have hoff : s.on = false := by simpa using hon
        rw [first_right_iff hinv h hflow hbelow hoff]
        unfold TimedExecution.Regular
        simp only [hflow, hoff, Bool.true_eq_false, if_false, if_neg hfull, if_true]
  · have hoff : x.flow = false := by simpa using hflow
    rw [off_right_iff hinv h hoff]
    unfold TimedExecution.Regular
    simp only [hoff, if_true]

/-- One execution keeps the account. -/
theorem inv_next (hinv : s.Inv kind n d) (h : x.Legal kind n d s) (hregular : x.Regular kind n d s) :
    (s.next kind n x).Inv kind n d := by
  by_cases hflow : x.flow = true
  · by_cases hfull : 0x7FFF ≤ s.cells.value
    · have hright := (right_iff_regular hinv h).mpr hregular
      exact full_inv hinv h hflow hfull ((full_right_iff hinv h hflow hfull).mp hright)
    · have hbelow : s.cells.value < 0x7FFF := BitVec.not_le.mp hfull
      by_cases hon : s.on = true
      · exact counting_inv hinv h hflow hbelow hon hregular
      · exact first_inv hinv h hflow hbelow (by simpa using hon)
  · exact off_inv hinv h (by simpa using hflow)

end DelayRun

open DelayRun

/-- The run lemma. -/
theorem timers_right_iff (kind : DelayKind) (n : Nat) (d : BitVec 16) (time : Nat)
    (xs : List TimedExecution)
    (hlegal : Each (next kind n) (fun s x => x.Legal kind n d s) (start time) xs) :
    Each (next kind n) (fun s x => x.Right kind n d s) (start time) xs ↔
      Each (next kind n) (fun s x => x.Regular kind n d s) (start time) xs :=
  Each.iff_of_invariant (inv_start time) hlegal (fun _ _ hinv h => right_iff_regular hinv h)
    fun _ _ hinv h hregular => inv_next hinv h hregular

/-- `TON T384 K100` with power flow at a time. -/
def tonAt (time : Nat) : TimedExecution where
  time := time
  input :=
    { ucode := [0x14, 0xF0, 0x00, 0x15, 0x80, 0x01, 0x00, 0xFF, 0x64, 0x00]
      pc := 0
      level := 0
      now := 0
      inPF := 1
      sfc := Plc.off.sfc
      store := Store.off }

theorem tonAt_legal {s : DelayRun} {time : Nat} (h : s.last ≤ time) :
    (tonAt time).Legal .ton 384 100 s :=
  ⟨rfl, h, fun _ => rfl, fun _ => getPowerFlow_one⟩

/-- After 3 ms the value is right. -/
theorem tonAt_right : Each (next .ton 384) (fun s x => x.Right .ton 384 100 s) (start 0)
    [tonAt 0, tonAt 3] := by
  refine (timers_right_iff .ton 384 100 0 _ ?_).mpr ?_
  · exact Each.cons_iff.mpr ⟨tonAt_legal (Nat.le_refl _),
      Each.cons_iff.mpr ⟨tonAt_legal (Nat.zero_le _), Each.nil⟩⟩
  · refine Each.cons_iff.mpr ⟨?_, Each.cons_iff.mpr ⟨?_, Each.nil⟩⟩
    · exact fun hton => absurd hton (by decide)
    · have hunits : ((start 0).next .ton 384 (tonAt 0)).units 384 (tonAt 3) < 0x7FFF := by decide
      have hbelow : ((start 0).next .ton 384 (tonAt 0)).cells.value < 0x7FFF := by decide
      have hflow : (tonAt 3).flow = true := getPowerFlow_one
      refine (regular_counting hflow hbelow rfl).mpr ?_
      decide

/-- After 65536 ms the value is zero again. -/
theorem timers_not_right : ¬ ∀ (kind : DelayKind) (n : Nat) (d : BitVec 16) (time : Nat)
    (xs : List TimedExecution),
    Each (next kind n) (fun s x => x.Legal kind n d s) (start time) xs →
      Each (next kind n) (fun s x => x.Right kind n d s) (start time) xs := by
  intro h
  have hlegal : Each (next .ton 384) (fun s x => x.Legal .ton 384 100 s) (start 0)
      [tonAt 0, tonAt 65536] :=
    Each.cons_iff.mpr ⟨tonAt_legal (Nat.le_refl _),
      Each.cons_iff.mpr ⟨tonAt_legal (Nat.zero_le _), Each.nil⟩⟩
  have hright := h .ton 384 100 0 _ hlegal [tonAt 0] (tonAt 65536) [] rfl
  obtain ⟨⟨full, hfull, hvalue⟩, -⟩ := hright
  have hzero : (((start 0).next .ton 384 (tonAt 0)).next .ton 384 (tonAt 65536)).cells.value = 0 := by
    decide
  have htime : (((start 0).next .ton 384 (tonAt 0)).next .ton 384 (tonAt 65536)).total = 65536 := rfl
  have hunit : unitMs 384 = 1 := rfl
  have hempty : _ = 0 := hvalue.symm.trans (congrArg BitVec.toNat hzero)
  rw [foldl_cons, foldl_nil, hunit] at hempty
  omega

end Kalyke
