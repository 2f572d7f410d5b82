-- SUMMARY: The refresh of the fast timers beside their instructions: when it changes nothing they see.
import Kalyke.Exec.TimerLaw

/-!
# The refresh of the fast timers

A run keeps one timer twice: once with the calls of `plc_refresh_10ms_1ms_timer` between the
executions of its instruction, and once without them. Between two executions the refreshed timer is
ahead by some units, in its value and in its start value. The next execution counts the rest, and
both are the same again.
-/

namespace Kalyke

open List
open BitVec (toNat_add toNat_ofNat ofNat_add)

/-- An instruction that drives a timer. -/
inductive TimerKind where
  | ton
  | tonr
  | tof
  | tmon
deriving DecidableEq

namespace TimerKind

def body : TimerKind → Nat → BitVec 32 → Bool → Except PlcErr Unit × List (BitVec 16) →
    TimerCells → Except PlcErr Unit × TimerCells
  | ton => TimerCells.ton
  | tonr => TimerCells.tonr
  | tof => TimerCells.tof
  | tmon => TimerCells.tmon

def run : TimerKind → BodyInput → BodyResult
  | ton => runCiTonIns
  | tonr => runCiTonrIns
  | tof => runCiTofIns
  | tmon => runCiTmonIns

/-- `TON` and `TONR` stop to count at `0x7FFF`. -/
def Stops (kind : TimerKind) : Prop := kind = .ton ∨ kind = .tonr

end TimerKind

/-- The instruction is executed, or the timers are refreshed. Of the elements, the timer itself
comes from the run. -/
inductive RefreshEvent where
  | execute (i : BodyInput)
  | refresh (now : BitVec 32) (s : Store)

/-- The timer with the refreshes and without them, the power flow of the last execution, whether a
refresh has changed the timer since, and the units it is ahead. -/
structure RefreshRun where
  refreshed : TimerCells
  plain : TimerCells
  flow : Bool
  touched : Bool
  ahead : Nat

namespace RefreshRun

/-- A timer that is reset. -/
def start (now : BitVec 32) : RefreshRun := ⟨.reset now, .reset now, false, false, 0⟩

/-- The units that have passed since the start value of the refreshed timer. -/
def units (n : Nat) (s : RefreshRun) (now : BitVec 32) : Nat :=
  (now - s.refreshed.timer.start).toNat / unitMs n

def next (kind : TimerKind) (n : Nat) (s : RefreshRun) : RefreshEvent → RefreshRun
  | .execute i =>
    { refreshed := (kind.run { i with store := i.store.putTimer n s.refreshed }).2.2.timerCells n
      plain := (kind.run { i with store := i.store.putTimer n s.plain }).2.2.timerCells n
      flow := getPowerFlow i.inPF
      touched := false
      ahead := 0 }
  | .refresh now t =>
    let refreshed := (plcRefresh10ms1msTimer now (t.putTimer n s.refreshed)).timerCells n
    let touched := s.touched || decide (refreshed ≠ s.refreshed)
    let ahead :=
      if touched && s.refreshed.timer.enable then s.ahead + s.units n now else s.ahead
    { s with refreshed, touched, ahead }

end RefreshRun

namespace RefreshEvent

variable (kind : TimerKind) (n : Nat) (s : RefreshRun)

/-- The instruction is one on the timer with number `n`. -/
def Legal : RefreshEvent → Prop
  | execute i => i.ucode.getPU16 (i.pc + 4) = n
  | refresh _ _ => True

/-- After an execution the value, the enable flag and the bit of a fast timer are what they are
without the refreshes. A refresh leaves a timer of 100 ms alone and counts the time of any other;
where it switches the bit, so does the instruction. -/
def Right (x : RefreshEvent) : Prop :=
  let s' := s.next kind n x
  match x with
  | execute _ =>
    timerCnt100ms ≤ n → s'.refreshed.value = s'.plain.value ∧
      s'.refreshed.timer.enable = s'.plain.timer.enable ∧ s'.refreshed.bit = s'.plain.bit
  | refresh now _ =>
    (n < timerCnt100ms → s'.refreshed = s.refreshed) ∧
      (timerCnt100ms ≤ n → s.refreshed.timer.enable = true →
        s'.refreshed.value = s.refreshed.value + BitVec.ofNat 16 (s.units n now)) ∧
      (s'.refreshed.bit ≠ s.refreshed.bit →
        (kind.body n now s.flow (.ok (), [s.refreshed.timer.dest]) s.refreshed).2.bit =
          s'.refreshed.bit)

/-- The destination as `get_word` returns it to the instruction on a timer. -/
def dest (i : BodyInput) (n : Nat) (t : TimerCells) : Except PlcErr Unit × List (BitVec 16) :=
  getWord i.ucode (i.pc + 6) (i.store.putTimer n t) i.level 0 1

/-- Less than `2 ^ 32` ms have passed since the start value without the refreshes. -/
def InTime (n : Nat) (s : RefreshRun) (now : BitVec 32) : Prop :=
  s.ahead * unitMs n + (now - s.refreshed.timer.start).toNat < 2 ^ 32

/-- The destination can be read, and where a refresh has switched the bit, the value has reached
it. -/
def Agrees (i : BodyInput) : Prop :=
  ∃ d, dest i n s.refreshed = (.ok (), [d]) ∧ dest i n s.plain = (.ok (), [d]) ∧
    (s.refreshed.bit = s.plain.bit ∨ kind = .ton ∧ 0x7FFF ≤ s.refreshed.value ∨
      d ≤ s.refreshed.value + BitVec.ofNat 16 (s.units n i.now))

/-- Where a refresh has changed the timer, the next execution does not start or interrupt the
counting, it comes in time, and its destination agrees with what the refresh has done. A refresh
does not find a timer that is full or becomes full, and a timer of 100 ms it comes to has neither
become full nor reached its destination since its last execution. -/
def Regular : RefreshEvent → Prop
  | execute i =>
    s.touched = true →
      match kind, getPowerFlow i.inPF with
      | .ton, false | .tof, true => True
      | .tonr, false => False
      | .tmon, flow =>
        ¬ (flow = true ∧ s.refreshed.timer.powerFlow = false) ∧ InTime n s i.now
      | .ton, true | .tonr, true | .tof, false => InTime n s i.now ∧ Agrees kind n s i
  | refresh now _ =>
    let t := s.refreshed
    t.timer.enable = true →
      if n < timerCnt100ms then
        timerCnt10ms ≤ n → t.value < 0x7FFF ∧
          (t.timer.dest ≤ t.value → t.bit = decide (t.timer.type ≠ 2))
      else
        t.value + BitVec.ofNat 16 (s.units n now) < 0x7FFF ∧ (kind.Stops → t.value < 0x7FFF) ∨
          kind = .ton ∧ s.units n now = 0

end RefreshEvent

/-! ## Sound timers -/

namespace TimerCells

/-- What the status of a timer says after executions of one instruction, the last of them with a
power flow. -/
structure Sound (kind : TimerKind) (n : Nat) (flow : Bool) (t : TimerCells) : Prop where
  init : kind ≠ .tmon → t.timer.enable = true → t.timer.init = true
  flow : kind ≠ .tmon → t.timer.enable = true → flow = decide (kind ≠ .tof)
  type : t.timer.enable = true ∨ t.timer.init = true → (t.timer.type = 2 ↔ kind = .tof)
  capacity : t.timer.enable = true ∨ t.timer.init = true → t.timer.capacity = timeAccuracy n
  bit : kind = .tmon → t.timer.enable = true → t.bit = true

variable {kind : TimerKind} {n : Nat} {flow : Bool} {t : TimerCells} {now : BitVec 32}

theorem sound_reset : (reset now).Sound kind n flow where
  init _ h := by cases h
  flow _ h := by cases h
  type h := by rcases h with h | h <;> cases h
  capacity h := by rcases h with h | h <;> cases h
  bit _ h := by cases h

theorem sound_of_disabled (henable : t.timer.enable = false)
    (htype : t.timer.init = true → (t.timer.type = 2 ↔ kind = .tof))
    (hcap : t.timer.init = true → t.timer.capacity = timeAccuracy n) : t.Sound kind n flow where
  init _ h := absurd (henable.symm.trans h) Bool.false_ne_true
  flow _ h := absurd (henable.symm.trans h) Bool.false_ne_true
  type h := h.elim (fun h => absurd (henable.symm.trans h) Bool.false_ne_true) htype
  capacity h := h.elim (fun h => absurd (henable.symm.trans h) Bool.false_ne_true) hcap
  bit _ h := absurd (henable.symm.trans h) Bool.false_ne_true

theorem sound_of_init (hkind : kind ≠ .tmon) (hinit : t.timer.init = true)
    (hflow : flow = decide (kind ≠ .tof)) (htype : t.timer.type = 2 ↔ kind = .tof)
    (hcap : t.timer.capacity = timeAccuracy n) : t.Sound kind n flow where
  init _ _ := hinit
  flow _ _ := hflow
  type _ := htype
  capacity _ := hcap
  bit h := absurd h hkind

/-- `Sound` looks at the status and the bit. -/
theorem Sound.congr {t' : TimerCells} (h : t.Sound kind n flow)
    (henable : t'.timer.enable = t.timer.enable) (hinit : t'.timer.init = t.timer.init)
    (htype : t'.timer.type = t.timer.type) (hcap : t'.timer.capacity = t.timer.capacity)
    (hbit : t'.bit = t.bit) : t'.Sound kind n flow where
  init := by rw [henable, hinit]; exact h.init
  flow := by rw [henable]; exact h.flow
  type := by rw [henable, hinit, htype]; exact h.type
  capacity := by rw [henable, hinit, hcap]; exact h.capacity
  bit := by rw [henable, hbit]; exact h.bit

/-- A sound timer that is not enabled may forget the power flow. -/
theorem Sound.disabled (h : t.Sound kind n flow) (henable : t.timer.enable = false) (f : Bool) :
    t.Sound kind n f :=
  sound_of_disabled henable (fun hinit => h.type (.inr hinit)) fun hinit => h.capacity (.inr hinit)

/-- Where `TON`, `TONR` and `TOF` have not started, they do not count. -/
theorem Sound.enable_of_init (h : t.Sound kind n flow) (hkind : kind ≠ .tmon)
    (hinit : t.timer.init = false) : t.timer.enable = false :=
  Bool.eq_false_iff.mpr fun henable =>
    absurd (hinit.symm.trans (h.init hkind henable)) Bool.false_ne_true

/-- The instruction may be executed with the power flow it counts with. -/
theorem Sound.again (h : t.Sound kind n flow) {f : Bool} (hf : f = decide (kind ≠ .tof)) :
    t.Sound kind n f where
  init := h.init
  flow _ _ := hf
  type := h.type
  capacity := h.capacity
  bit := h.bit

@[simp] theorem type_advance : (t.advance now).timer.type = t.timer.type := by
  unfold advance count
  split <;> rfl

section

variable {f : Bool} {dest : Except PlcErr Unit × List (BitVec 16)}

theorem Sound.begun (h : t.Sound kind n flow) {type : Fin 4} (htype : type = 2 ↔ kind = .tof) :
    let u := if t.timer.init then t else t.firstStart n type now
    u.timer.init = true ∧ (u.timer.type = 2 ↔ kind = .tof) ∧
      u.timer.capacity = timeAccuracy n := by
  split
  · rename_i hinit
    exact ⟨hinit, h.type (.inr hinit), h.capacity (.inr hinit)⟩
  · exact ⟨rfl, htype, rfl⟩

/-- Counting and comparing keep the status. -/
theorem sound_of_advance {u : TimerCells} (hkind : kind ≠ .tmon) (hinit : u.timer.init = true)
    (hflow : f = decide (kind ≠ .tof)) (htype : u.timer.type = 2 ↔ kind = .tof)
    (hcap : u.timer.capacity = timeAccuracy n) :
    (if (u.advance now).timer.dest ≤ (u.advance now).value then
      { u.advance now with bit := true } else u.advance now).Sound kind n f := by
  have hinit' : (u.advance now).timer.init = true := init_advance.trans hinit
  have hcap' : (u.advance now).timer.capacity = timeAccuracy n := capacity_advance.trans hcap
  have htype' : (u.advance now).timer.type = 2 ↔ kind = .tof := by
    rw [type_advance]
    exact htype
  split
  · exact sound_of_init hkind hinit' hflow htype' hcap'
  · exact sound_of_init hkind hinit' hflow htype' hcap'

theorem sound_ton (h : t.Sound .ton n flow) : (ton n now f dest t).2.Sound .ton n f := by
  unfold ton
  cases f with
  | false =>
    simp only [Bool.false_eq_true, if_false]
    split
    · exact sound_reset
    · rename_i hinit
      have hoff := h.enable_of_init (by decide) (Bool.eq_false_iff.mpr hinit)
      exact h.disabled hoff false
  | true =>
    have hset : (t.setDest dest.2).Sound .ton n true := (h.again rfl).congr rfl rfl rfl rfl rfl
    have hbegun := @Sound.begun _ _ _ _ now hset 0 (by decide)
    simp only [if_true]
    split
    · exact hset
    · dsimp only at hbegun
      generalize (if (t.setDest dest.2).timer.init = true then t.setDest dest.2
        else (t.setDest dest.2).firstStart n 0 now) = u at hbegun ⊢
      obtain ⟨hinit, htype, hcap⟩ := hbegun
      split
      · exact sound_of_init (by decide) hinit rfl htype hcap
      · exact sound_of_advance (u := u.setEnable true) (by decide) hinit rfl htype hcap

theorem sound_tonr (h : t.Sound .tonr n flow) : (tonr n now f dest t).2.Sound .tonr n f := by
  unfold tonr
  cases f with
  | false =>
    simp only [Bool.false_eq_true, if_false]
    split
    · rename_i hinit
      exact sound_of_disabled rfl (fun _ => h.type (.inr hinit)) fun _ => h.capacity (.inr hinit)
    · rename_i hinit
      have hoff := h.enable_of_init (by decide) (Bool.eq_false_iff.mpr hinit)
      exact h.disabled hoff false
  | true =>
    have hset : (t.setDest dest.2).Sound .tonr n true := (h.again rfl).congr rfl rfl rfl rfl rfl
    have hbegun := @Sound.begun _ _ _ _ now hset 1 (by decide)
    simp only [if_true]
    split
    · exact hset
    · dsimp only at hbegun
      generalize (if (t.setDest dest.2).timer.init = true then t.setDest dest.2
        else (t.setDest dest.2).firstStart n 1 now) = u at hbegun ⊢
      obtain ⟨hinit, htype, hcap⟩ := hbegun
      split
      · exact sound_of_init (by decide) hinit rfl htype hcap
      · split
        · exact sound_of_init (by decide) hinit rfl htype hcap
        · exact sound_of_advance (by decide) hinit rfl htype hcap

/-- A timer that expires is not enabled any more. -/
theorem sound_expire {u : TimerCells} (h : u.Sound kind n f) : u.expire.Sound kind n f := by
  unfold expire
  split
  · exact sound_of_disabled rfl (fun hinit => h.type (.inr hinit))
      fun hinit => h.capacity (.inr hinit)
  · exact h

theorem sound_advance {u : TimerCells} (h : u.Sound kind n f) : (u.advance now).Sound kind n f :=
  h.congr enable_advance init_advance type_advance capacity_advance bit_advance

theorem sound_elapse {u : TimerCells} (h : u.Sound kind n f) : (u.elapse now).Sound kind n f := by
  unfold elapse
  split
  · exact sound_expire (sound_advance h)
  · exact h

theorem sound_tof (h : t.Sound .tof n flow) : (tof n now f dest t).2.Sound .tof n f := by
  unfold tof
  cases f with
  | true =>
    exact sound_of_disabled rfl (fun hinit => absurd hinit Bool.false_ne_true)
      fun hinit => absurd hinit Bool.false_ne_true
  | false =>
    have hset : (t.setDest dest.2).Sound .tof n false := (h.again rfl).congr rfl rfl rfl rfl rfl
    simp only [Bool.false_eq_true, if_false]
    split
    · exact hset
    · have hbegun : (if (t.setDest dest.2).timer.init = false ∧
          (t.setDest dest.2).timer.powerFlow = true then
            ((t.setDest dest.2).firstStart n 2 now).setEnable true
          else t.setDest dest.2).Sound .tof n false := by
        split
        · exact sound_of_init (by decide) rfl rfl (iff_of_true rfl rfl) rfl
        · exact hset
      generalize (if (t.setDest dest.2).timer.init = false ∧
        (t.setDest dest.2).timer.powerFlow = true then
          ((t.setDest dest.2).firstStart n 2 now).setEnable true
        else t.setDest dest.2) = u at hbegun ⊢
      exact sound_elapse hbegun

theorem sound_tmon (h : t.Sound .tmon n flow) : (tmon n now f dest t).2.Sound .tmon n f := by
  have hno {p : Prop} (hkind : TimerKind.tmon ≠ .tmon) : p := absurd rfl hkind
  unfold tmon
  split
  · split
    · dsimp only
      split
      · exact ⟨fun hkind => hno hkind, fun hkind => hno hkind, h.type, fun _ => rfl, h.bit⟩
      · dsimp only
        refine sound_elapse ?_
        refine ⟨fun hkind => hno hkind, fun hkind => hno hkind, fun _ => ?_, fun _ => rfl,
          fun _ _ => rfl⟩
        exact iff_of_false (show (3 : Fin 4) ≠ 2 by decide) (by decide)
    · exact sound_elapse ⟨fun hkind => hno hkind, fun hkind => hno hkind, h.type, h.capacity, h.bit⟩
  · exact sound_elapse ⟨fun hkind => hno hkind, fun hkind => hno hkind, h.type, h.capacity, h.bit⟩

theorem sound_body (h : t.Sound kind n flow) : (kind.body n now f dest t).2.Sound kind n f := by
  cases kind with
  | ton => exact sound_ton h
  | tonr => exact sound_tonr h
  | tof => exact sound_tof h
  | tmon => exact sound_tmon h

end

/-! ## One refresh -/

theorem refreshUnit_of_fast (hn : timerCnt100ms ≤ n) :
    refreshUnit (timeAccuracy n) = timeUnit (timeAccuracy n) := by
  unfold timeAccuracy
  rw [if_neg (Nat.not_lt.mpr hn)]
  split <;> rfl

theorem refreshUnit_of_slow (hn : n < timerCnt100ms) : refreshUnit (timeAccuracy n) = none := by
  unfold timeAccuracy
  rw [if_pos hn]
  rfl

theorem refresh_of_disabled (h : t.timer.enable = false) : t.refresh now = t := if_pos h

theorem setEnable_self {b : Bool} (h : t.timer.enable = b) : t.setEnable b = t := by
  subst h
  rfl

/-- What the refresh of an enabled fast timer leaves behind. -/
theorem refresh_of_fast (hn : timerCnt100ms ≤ n) (henable : t.timer.enable = true)
    (hcap : t.timer.capacity = timeAccuracy n) :
    t.refresh now =
      { (t.advance now).setEnable (decide ((t.advance now).value < 0x7FFF)) with
        bit := if t.timer.dest ≤ (t.advance now).value then decide (t.timer.type ≠ 2) else t.bit } := by
  have hcount : t.count (refreshUnit t.timer.capacity) now = t.advance now := by
    rw [advance, hcap, refreshUnit_of_fast hn]
  have hstop : (if 0x7FFF ≤ (t.advance now).value then (t.advance now).setEnable false
      else t.advance now) =
      (t.advance now).setEnable (decide ((t.advance now).value < 0x7FFF)) := by
    split
    · rename_i hfull
      rw [decide_eq_false (BitVec.not_lt.mpr hfull)]
    · rename_i hbelow
      rw [decide_eq_true (BitVec.not_le.mp hbelow)]
      exact (setEnable_self (enable_advance.trans henable)).symm
  unfold refresh
  rw [if_neg (by simp [henable])]
  simp only [hcount, hstop]
  simp only [setEnable, dest_advance, type_advance]
  split
  · rfl
  · simp only [bit_advance]

/-- A timer of 100 ms that is neither full nor at its destination is left alone. -/
theorem refresh_of_slow (hn : n < timerCnt100ms) (henable : t.timer.enable = true)
    (hcap : t.timer.capacity = timeAccuracy n) (hvalue : t.value < 0x7FFF)
    (hbit : t.timer.dest ≤ t.value → t.bit = decide (t.timer.type ≠ 2)) : t.refresh now = t := by
  have hcount : t.count (refreshUnit t.timer.capacity) now = t := by
    rw [hcap, refreshUnit_of_slow hn]
    rfl
  unfold refresh
  rw [if_neg (by simp [henable])]
  simp only [hcount, if_neg (BitVec.not_le.mpr hvalue)]
  split
  · rename_i hle
    rw [← hbit hle]
  · rfl

/-! ## Ahead -/

def Same (kind : TimerKind) (a b : TimerCells) : Prop :=
  a = b ∨ kind = .tof ∧ b.timer.init = false ∧ b.timer.enable = false ∧
    a = { b with timer.start := a.timer.start }

/-- A timer that counts is ahead by some units; the bit may have been switched. `TON` may have found
itself full. -/
structure Ahead (kind : TimerKind) (n : Nat) (units : Nat) (a b : TimerCells) : Prop where
  enable : b.timer.enable = true
  status : a.timer = { b.timer with enable := a.timer.enable, start := a.timer.start }
  stopped : a.timer.enable = true ∨ kind = .ton ∧ 0x7FFF ≤ a.value
  value : a.value = b.value + BitVec.ofNat 16 units
  start : a.timer.start = b.timer.start + BitVec.ofNat 32 (units * unitMs n)
  full : kind.Stops → (0x7FFF ≤ a.value ∨ 0x7FFF ≤ b.value) → units = 0
  bit : kind = .tmon → a.bit = b.bit

theorem advance_frame : t.advance now =
    { t with
      value := (t.advance now).value
      timer.start := (t.advance now).timer.start } := by
  unfold advance count
  split <;> rfl

/-- The value after counting, in the width of the value. -/
theorem value_advance_eq (hcap : t.timer.capacity = timeAccuracy n) :
    (t.advance now).value =
      t.value + BitVec.ofNat 16 ((now - t.timer.start).toNat / unitMs n) := by
  apply BitVec.eq_of_toNat_eq
  rw [value_advance hcap, toNat_add, toNat_ofNat]
  omega

theorem reached_advance {d : BitVec 16} (hcap : t.timer.capacity = timeAccuracy n)
    (h : d ≤ t.value + BitVec.ofNat 16 ((now - t.timer.start).toNat / unitMs n)) :
    d ≤ (t.advance now).value := by
  rw [value_advance_eq hcap]
  exact h

variable {a b : TimerCells} {units : Nat}

theorem advance_of_ahead (hvalue : a.value = b.value + BitVec.ofNat 16 units)
    (hstart : a.timer.start = b.timer.start + BitVec.ofNat 32 (units * unitMs n))
    (hcap : b.timer.capacity = timeAccuracy n)
    (hstatus : a.timer = { b.timer with start := a.timer.start })
    (htime : units * unitMs n + (now - a.timer.start).toNat < 2 ^ 32) :
    a.advance now = { b.advance now with bit := a.bit } := by
  have hcapa : a.timer.capacity = timeAccuracy n := by
    rw [hstatus]
    exact hcap
  have hpassed : (now - b.timer.start).toNat = units * unitMs n + (now - a.timer.start).toNat := by
    have hsum : now - b.timer.start =
        BitVec.ofNat 32 (units * unitMs n) + (now - a.timer.start) := by
      bv_omega
    rw [hsum, toNat_add, toNat_ofNat, Nat.mod_add_mod, Nat.mod_eq_of_lt htime]
  have hdiv : (now - b.timer.start).toNat / unitMs n =
      units + (now - a.timer.start).toNat / unitMs n := by
    rw [hpassed, Nat.mul_comm, Nat.mul_add_div (unitMs_pos n)]
  have hvalues : (a.advance now).value = (b.advance now).value := by
    rw [value_advance_eq hcapa, value_advance_eq hcap, hdiv, hvalue, ofNat_add,
      BitVec.add_assoc]
  have hstarts : (a.advance now).timer.start = (b.advance now).timer.start := by
    rw [start_advance hcapa, start_advance hcap, hdiv, hstart, Nat.add_mul, ofNat_add,
      BitVec.add_assoc]
  rw [advance_frame (t := a), advance_frame (t := b), hvalues, hstarts, hstatus]

/-- The comparison of `TON` and `TONR` brings the bits together. -/
theorem compare_of_ahead (h : a.advance now = { b.advance now with bit := a.bit })
    (hbit : a.bit = b.bit ∨ a.timer.dest ≤ (a.advance now).value) :
    (if (a.advance now).timer.dest ≤ (a.advance now).value then
        { a.advance now with bit := true } else a.advance now) =
      if (b.advance now).timer.dest ≤ (b.advance now).value then
        { b.advance now with bit := true } else b.advance now := by
  rcases hbit with hbit | hle
  · rw [h, hbit, ← @bit_advance b now]
  · rw [← @dest_advance _ now] at hle
    have hle' : (b.advance now).timer.dest ≤ (b.advance now).value := by
      rw [h] at hle
      exact hle
    rw [if_pos hle, if_pos hle', h]

/-- So does that of `TOF` and `TMON`. -/
theorem expire_of_ahead (h : a.advance now = { b.advance now with bit := a.bit })
    (hbit : a.bit = b.bit ∨ a.timer.dest ≤ (a.advance now).value) :
    (a.advance now).expire = (b.advance now).expire := by
  rcases hbit with hbit | hle
  · rw [h, hbit, ← @bit_advance b now]
  · rw [← @dest_advance _ now] at hle
    have hle' : (b.advance now).timer.dest ≤ (b.advance now).value := by
      rw [h] at hle
      exact hle
    unfold expire
    rw [if_pos hle, if_pos hle', h]
    rfl

namespace Ahead

/-- A full `TON` or `TONR` is not ahead. -/
theorem same_of_full (h : Ahead kind n units a b) (hkind : kind.Stops)
    (hfull : 0x7FFF ≤ a.value ∨ 0x7FFF ≤ b.value) :
    a.value = b.value ∧ a.timer.start = b.timer.start := by
  have hzero := h.full hkind hfull
  refine ⟨?_, ?_⟩
  · rw [h.value, hzero]
    exact BitVec.add_zero _
  · rw [h.start, hzero, Nat.zero_mul]
    exact BitVec.add_zero _

theorem full_iff (h : Ahead kind n units a b) (hkind : kind.Stops) :
    0x7FFF ≤ a.value ↔ 0x7FFF ≤ b.value := by
  constructor
  · intro hle
    rwa [(h.same_of_full hkind (.inl hle)).1] at hle
  · intro hle
    rwa [(h.same_of_full hkind (.inr hle)).1]

theorem enabled (h : Ahead kind n units a b) (hno : kind = .ton → a.value < 0x7FFF) :
    a.timer.enable = true := by
  rcases h.stopped with hon | ⟨hton, hfull⟩
  · exact hon
  · exact absurd hfull (BitVec.not_le.mpr (hno hton))

theorem init_eq (h : Ahead kind n units a b) : a.timer.init = b.timer.init := by rw [h.status]

theorem capacity_eq (h : Ahead kind n units a b) : a.timer.capacity = b.timer.capacity := by
  rw [h.status]

theorem powerFlow_eq (h : Ahead kind n units a b) : a.timer.powerFlow = b.timer.powerFlow := by
  rw [h.status]

theorem dest_eq (h : Ahead kind n units a b) : a.timer.dest = b.timer.dest := by rw [h.status]

end Ahead

section

variable {d : BitVec 16}

theorem ton_of_ahead (h : Ahead .ton n units a b) (hb : b.Sound .ton n flow)
    (htime : units * unitMs n + (now - a.timer.start).toNat < 2 ^ 32)
    (hbit : a.bit = b.bit ∨ 0x7FFF ≤ a.value ∨
      d ≤ a.value + BitVec.ofNat 16 ((now - a.timer.start).toNat / unitMs n)) :
    (ton n now true (.ok (), [d]) a).2 = (ton n now true (.ok (), [d]) b).2 := by
  have hinit := hb.init (by decide) h.enable
  have hcap := hb.capacity (.inl h.enable)
  simp only [ton, setDest, if_true, h.init_eq, hinit, h.full_iff (.inl rfl)]
  split
  · rename_i hfull
    obtain ⟨hvalue, hstart⟩ := h.same_of_full (.inl rfl) (.inr hfull)
    rw [h.status, hstart, hvalue]
    rfl
  · rename_i hbelow
    refine compare_of_ahead (@advance_of_ahead _ _ _ _ units h.value h.start hcap ?_ htime) ?_
    · dsimp only [setEnable]
      rw [h.status]
    · rcases hbit with hbit | hfull | hle
      · exact .inl hbit
      · exact absurd ((h.full_iff (.inl rfl)).mp hfull) hbelow
      · exact .inr (reached_advance (h.capacity_eq.trans hcap) hle)

theorem tonr_of_ahead (h : Ahead .tonr n units a b) (hb : b.Sound .tonr n flow)
    (htime : units * unitMs n + (now - a.timer.start).toNat < 2 ^ 32)
    (hbit : a.bit = b.bit ∨
      d ≤ a.value + BitVec.ofNat 16 ((now - a.timer.start).toNat / unitMs n)) :
    (tonr n now true (.ok (), [d]) a).2 = (tonr n now true (.ok (), [d]) b).2 := by
  have hinit := hb.init (by decide) h.enable
  have hcap := hb.capacity (.inl h.enable)
  have hon := h.enabled (fun hton => absurd hton (by decide))
  simp only [tonr, setDest, if_true, h.init_eq, hinit, h.full_iff (.inr rfl), hon, h.enable]
  split
  · rename_i hfull
    obtain ⟨hvalue, hstart⟩ := h.same_of_full (.inr rfl) (.inr hfull)
    rw [h.status, hstart, hvalue]
  · refine compare_of_ahead (@advance_of_ahead _ _ _ _ units h.value h.start hcap ?_ htime) ?_
    · dsimp only
      rw [h.status]
    · rcases hbit with hbit | hle
      · exact .inl hbit
      · exact .inr (reached_advance (h.capacity_eq.trans hcap) hle)

theorem tof_of_ahead (h : Ahead .tof n units a b) (hb : b.Sound .tof n flow)
    (htime : units * unitMs n + (now - a.timer.start).toNat < 2 ^ 32)
    (hbit : a.bit = b.bit ∨
      d ≤ a.value + BitVec.ofNat 16 ((now - a.timer.start).toNat / unitMs n)) :
    (tof n now false (.ok (), [d]) a).2 = (tof n now false (.ok (), [d]) b).2 := by
  have hinit := hb.init (by decide) h.enable
  have hcap := hb.capacity (.inl h.enable)
  have hon := h.enabled (fun hton => absurd hton (by decide))
  simp only [tof, setDest, h.init_eq, hinit, Bool.true_eq_false, false_and, if_false, hon, h.enable]
  refine expire_of_ahead (@advance_of_ahead _ _ _ _ units h.value h.start hcap ?_ htime) ?_
  · dsimp only
    rw [h.status]
  · rcases hbit with hbit | hle
    · exact .inl hbit
    · exact .inr (reached_advance (h.capacity_eq.trans hcap) hle)

theorem tmon_of_ahead (h : Ahead .tmon n units a b) (hb : b.Sound .tmon n flow)
    (htime : units * unitMs n + (now - a.timer.start).toNat < 2 ^ 32) {f : Bool}
    (hstart : ¬ (f = true ∧ a.timer.powerFlow = false))
    (desta destb : Except PlcErr Unit × List (BitVec 16)) :
    (tmon n now f desta a).2 = (tmon n now f destb b).2 := by
  have hcap := hb.capacity (.inl h.enable)
  have hon := h.enabled (fun hton => absurd hton (by decide))
  have hflow := h.powerFlow_eq
  have helapse {u v : TimerCells} (hu : u.timer = { a.timer with powerFlow := u.timer.powerFlow })
      (hv : v.timer = { b.timer with powerFlow := u.timer.powerFlow }) (hua : u.value = a.value)
      (hvb : v.value = b.value) (hbit : u.bit = v.bit) : u.elapse now = v.elapse now := by
    have hstartu : u.timer.start = a.timer.start := by rw [hu]
    have hstartv : v.timer.start = b.timer.start := by rw [hv]
    have honu : u.timer.enable = true := by rw [hu]; exact hon
    have honv : v.timer.enable = true := by rw [hv]; exact h.enable
    unfold elapse
    rw [if_pos honu, if_pos honv]
    refine expire_of_ahead (@advance_of_ahead n _ _ _ units ?_ ?_ ?_ ?_ ?_) (.inl hbit)
    · rw [hua, hvb, h.value]
    · rw [hstartu, hstartv, h.start]
    · rw [hv]
      exact hcap
    · have henable : a.timer.enable = b.timer.enable := hon.trans h.enable.symm
      rw [hu, hv, h.status, henable]
    · rw [hstartu]
      exact htime
  unfold tmon
  cases f with
  | false =>
    exact helapse rfl rfl rfl rfl (h.bit rfl)
  | true =>
    have hset : a.timer.powerFlow = true := by simpa using hstart
    simp only [hset, hflow.symm.trans hset]
    exact helapse rfl (by rw [hflow]) rfl rfl (h.bit rfl)

end

/-- The executions that restart the timer do not look at the count. -/
theorem ton_off_of_ahead (h : Ahead .ton n units a b) (hb : b.Sound .ton n flow)
    (desta destb : Except PlcErr Unit × List (BitVec 16)) :
    (ton n now false desta a).2 = (ton n now false destb b).2 := by
  have hinit := hb.init (by decide) h.enable
  simp only [ton, Bool.false_eq_true, if_false, h.init_eq, hinit, if_true]

theorem tof_on_same (hdest : a.timer.dest = b.timer.dest)
    (desta destb : Except PlcErr Unit × List (BitVec 16)) :
    Same .tof (tof n now true desta a).2 (tof n now true destb b).2 := by
  refine .inr ⟨rfl, rfl, rfl, ?_⟩
  simp only [tof, if_true, hdest]

theorem Same.body (h : Same kind a b) {f : Bool} {dest : Except PlcErr Unit × List (BitVec 16)} :
    Same kind (kind.body n now f dest a).2 (kind.body n now f dest b).2 := by
  rcases h with rfl | ⟨rfl, hinit, henable, hab⟩
  · exact .inl rfl
  · cases f with
    | true => exact tof_on_same (by rw [hab]) _ _
    | false =>
      generalize a.timer.start = start at hab
      subst hab
      have hoff : (b.setDest dest.2).timer.enable = false := henable
      have hnew : (b.setDest dest.2).timer.init = false := hinit
      show Same .tof (tof n now false dest _).2 (tof n now false dest b).2
      simp only [tof, Bool.false_eq_true, if_false]
      cases dest.1 with
      | error e => exact .inr ⟨rfl, hnew, hoff, rfl⟩
      | ok u =>
        cases hflow : b.timer.powerFlow with
        | true =>
          refine .inl ?_
          simp only [setDest, hinit, hflow, and_self, if_true, firstStart]
        | false =>
          refine .inr ?_
          simp only [setDest, hinit, hflow, Bool.false_eq_true, and_false, if_false, elapse,
            henable, and_self]

theorem ahead_self (henable : a.timer.enable = true) : Ahead kind n 0 a a where
  enable := henable
  status := rfl
  stopped := .inl henable
  value := (BitVec.add_zero _).symm
  start := by
    rw [Nat.zero_mul]
    exact (BitVec.add_zero _).symm
  full _ _ := rfl
  bit _ := rfl

/-- A refresh takes an enabled timer further ahead. -/
theorem Ahead.refresh (h : Ahead kind n units a b) (ha : a.Sound kind n flow)
    (hn : timerCnt100ms ≤ n) (henable : a.timer.enable = true) {more : Nat}
    (hmore : more = (now - a.timer.start).toNat / unitMs n)
    (hcond : a.value + BitVec.ofNat 16 more < 0x7FFF ∧ (kind.Stops → a.value < 0x7FFF) ∨
      kind = .ton ∧ more = 0) : Ahead kind n (units + more) (a.refresh now) b := by
  have hcap := ha.capacity (.inl henable)
  have hvalue : (a.advance now).value = a.value + BitVec.ofNat 16 more := by
    rw [value_advance_eq hcap, hmore]
  have hstart : (a.advance now).timer.start =
      a.timer.start + BitVec.ofNat 32 (more * unitMs n) := by
    rw [start_advance hcap, hmore]
  rw [refresh_of_fast hn henable hcap, hvalue]
  constructor
  case enable => exact h.enable
  case status =>
    dsimp only [setEnable]
    rw [advance_frame, h.status]
  case stopped =>
    rcases hcond with ⟨hbelow, -⟩ | ⟨hton, -⟩
    · exact .inl (decide_eq_true hbelow)
    · by_cases hbelow : a.value + BitVec.ofNat 16 more < 0x7FFF
      · exact .inl (decide_eq_true hbelow)
      · refine .inr ⟨hton, ?_⟩
        show 0x7FFF ≤ (a.advance now).value
        rw [hvalue]
        exact BitVec.not_lt.mp hbelow
  case value =>
    show (a.advance now).value = _
    rw [hvalue, h.value, ofNat_add, BitVec.add_assoc]
  case start =>
    show (a.advance now).timer.start = _
    rw [hstart, h.start, Nat.add_mul, ofNat_add, BitVec.add_assoc]
  case full =>
    intro hkind hfull
    replace hfull : 0x7FFF ≤ a.value + BitVec.ofNat 16 more ∨ 0x7FFF ≤ b.value := by
      rw [← hvalue]
      exact hfull
    rcases hcond with ⟨hbelow, hold⟩ | ⟨-, rfl⟩
    · rcases hfull with hfull | hfull
      · exact absurd hfull (BitVec.not_le.mpr hbelow)
      · exact absurd ((h.full_iff hkind).mpr hfull) (BitVec.not_le.mpr (hold hkind))
    · rw [BitVec.add_zero] at hfull
      exact h.full hkind hfull
  case bit =>
    intro hkind
    have hon := ha.bit hkind henable
    have htype : a.timer.type ≠ 2 := fun htwo => by
      have htof := (ha.type (.inl henable)).mp htwo
      rw [hkind] at htof
      cases htof
    rw [← h.bit hkind]
    split
    · rw [hon]
      exact decide_eq_true htype
    · rfl

theorem Sound.refresh (h : t.Sound kind n flow) (hn : timerCnt100ms ≤ n) :
    (t.refresh now).Sound kind n flow := by
  cases henable : t.timer.enable with
  | false =>
    rw [refresh_of_disabled henable]
    exact h
  | true =>
    have hcap := h.capacity (.inl henable)
    rw [refresh_of_fast hn henable hcap, advance_frame]
    refine ⟨fun hkind _ => h.init hkind henable, fun hkind _ => h.flow hkind henable,
      fun _ => h.type (.inl henable), fun _ => hcap, fun hkind _ => ?_⟩
    have htype : t.timer.type ≠ 2 := fun htwo => by
      have htof := (h.type (.inl henable)).mp htwo
      rw [hkind] at htof
      cases htof
    split
    · exact decide_eq_true htype
    · exact h.bit hkind henable

/-- Where the refresh switches the bit, the instruction does so too. -/
theorem refresh_bit (h : t.Sound kind n flow) (hn : timerCnt100ms ≤ n)
    (hbit : (t.refresh now).bit ≠ t.bit) :
    (kind.body n now flow (.ok (), [t.timer.dest]) t).2.bit = (t.refresh now).bit := by
  have henable : t.timer.enable = true := by
    by_contra hoff
    rw [refresh_of_disabled (by simpa using hoff)] at hbit
    exact hbit rfl
  have hcap := h.capacity (.inl henable)
  have htype := h.type (.inl henable)
  rw [refresh_of_fast hn henable hcap] at hbit ⊢
  dsimp only at hbit ⊢
  by_cases hle : t.timer.dest ≤ (t.advance now).value
  · rw [if_pos hle] at hbit ⊢
    have hset : t.setDest [t.timer.dest] = t := rfl
    have hle' : (t.advance now).timer.dest ≤ (t.advance now).value := by
      rw [dest_advance]
      exact hle
    have hno (hkind : kind ≠ .tof) : decide (t.timer.type ≠ 2) = true :=
      decide_eq_true fun htwo => hkind (htype.mp htwo)
    cases kind with
    | ton =>
      have hflow : flow = true := h.flow (by decide) henable
      have hinit := h.init (by decide) henable
      rw [hno (by decide), hflow]
      simp only [TimerKind.body, ton, hset, hinit, if_true, setEnable_self henable]
      split <;> rfl
    | tonr =>
      have hflow : flow = true := h.flow (by decide) henable
      have hinit := h.init (by decide) henable
      rw [hno (by decide), hflow]
      simp only [TimerKind.body, tonr, hset, hinit, if_true, henable]
      split <;> rfl
    | tof =>
      have hflow : flow = false := h.flow (by decide) henable
      have hinit := h.init (by decide) henable
      rw [hflow, decide_eq_false (fun hno => hno (htype.mpr rfl))]
      simp only [TimerKind.body, tof, hset, hinit, Bool.true_eq_false, Bool.false_eq_true,
        false_and, if_false, elapse, henable, if_true, expire, if_pos hle']
    | tmon =>
      rw [hno (by decide), h.bit rfl henable] at hbit
      exact absurd rfl hbit
  · rw [if_neg hle] at hbit
    exact absurd rfl hbit

end TimerCells

/-! ## Runs -/

namespace RefreshRun

variable {kind : TimerKind} {n : Nat} {s : RefreshRun}

/-- Both timers are sound, and the refreshed one is ahead once a refresh has changed it. Timers of
100 ms are not changed. -/
structure Inv (kind : TimerKind) (n : Nat) (s : RefreshRun) : Prop where
  refreshed : s.refreshed.Sound kind n s.flow
  plain : s.plain.Sound kind n s.flow
  same : s.touched = false → s.ahead = 0 ∧ TimerCells.Same kind s.refreshed s.plain
  ahead : s.touched = true → TimerCells.Ahead kind n s.ahead s.refreshed s.plain
  slow : n < timerCnt100ms → s.touched = false

theorem inv_start (now : BitVec 32) : (start now).Inv kind n where
  refreshed := TimerCells.sound_reset
  plain := TimerCells.sound_reset
  same _ := ⟨rfl, .inl rfl⟩
  ahead h := by cases h
  slow _ := rfl

/-! ### Executions -/

section

variable {i : BodyInput}

/-- What the destination reads does not depend on the start value. -/
theorem dest_of_same {a b : TimerCells} (h : TimerCells.Same kind a b) :
    RefreshEvent.dest i n a = RefreshEvent.dest i n b := by
  rcases h with rfl | ⟨-, -, -, hab⟩
  · rfl
  · rw [hab]
    rfl

theorem cells_execute (h : i.ucode.getPU16 (i.pc + 4) = n) (t : TimerCells) :
    (kind.run { i with store := i.store.putTimer n t }).2.2.timerCells n =
      (kind.body n i.now (getPowerFlow i.inPF) (RefreshEvent.dest i n t) t).2 := by
  have hcells : (i.store.putTimer n t).timerCells n = t := Store.timerCells_putTimer_self
  have hrun (body) : (runTimer body { i with store := i.store.putTimer n t }).2.2.timerCells n =
      (body n i.now (getPowerFlow i.inPF) (RefreshEvent.dest i n t) t).2 := by
    rw [timerCells_runTimer (i := { i with store := i.store.putTimer n t }) h, hcells]
    rfl
  cases kind
  · exact hrun _
  · exact hrun _
  · exact hrun _
  · exact hrun _

theorem refreshed_execute (h : (RefreshEvent.execute i).Legal n) :
    (s.next kind n (.execute i)).refreshed = (kind.body n i.now (getPowerFlow i.inPF)
      (RefreshEvent.dest i n s.refreshed) s.refreshed).2 :=
  cells_execute h _

theorem plain_execute (h : (RefreshEvent.execute i).Legal n) :
    (s.next kind n (.execute i)).plain = (kind.body n i.now (getPowerFlow i.inPF)
      (RefreshEvent.dest i n s.plain) s.plain).2 :=
  cells_execute h _

/-- An execution that agrees with the refreshes before it brings the timers together. -/
theorem body_of_ahead (hinv : s.Inv kind n) (hregular : (RefreshEvent.execute i).Regular kind n s)
    (htouched : s.touched = true) :
    TimerCells.Same kind
      (kind.body n i.now (getPowerFlow i.inPF) (RefreshEvent.dest i n s.refreshed) s.refreshed).2
      (kind.body n i.now (getPowerFlow i.inPF) (RefreshEvent.dest i n s.plain) s.plain).2 := by
  have hahead := hinv.ahead htouched
  have hplain := hinv.plain
  replace hregular := hregular htouched
  cases kind with
  | ton =>
    cases hflow : getPowerFlow i.inPF with
    | false => exact .inl (TimerCells.ton_off_of_ahead hahead hplain _ _)
    | true =>
      rw [hflow] at hregular
      obtain ⟨htime, d, hdest, hdest', hbit⟩ := hregular
      rw [hdest, hdest']
      refine .inl (TimerCells.ton_of_ahead hahead hplain htime ?_)
      rcases hbit with hbit | ⟨-, hfull⟩ | hle
      · exact .inl hbit
      · exact .inr (.inl hfull)
      · exact .inr (.inr hle)
  | tonr =>
    cases hflow : getPowerFlow i.inPF with
    | false =>
      rw [hflow] at hregular
      exact hregular.elim
    | true =>
      rw [hflow] at hregular
      obtain ⟨htime, d, hdest, hdest', hbit⟩ := hregular
      rw [hdest, hdest']
      refine .inl (TimerCells.tonr_of_ahead hahead hplain htime ?_)
      rcases hbit with hbit | ⟨hton, -⟩ | hle
      · exact .inl hbit
      · cases hton
      · exact .inr hle
  | tof =>
    cases hflow : getPowerFlow i.inPF with
    | true => exact TimerCells.tof_on_same hahead.dest_eq _ _
    | false =>
      rw [hflow] at hregular
      obtain ⟨htime, d, hdest, hdest', hbit⟩ := hregular
      rw [hdest, hdest']
      refine .inl (TimerCells.tof_of_ahead hahead hplain htime ?_)
      rcases hbit with hbit | ⟨hton, -⟩ | hle
      · exact .inl hbit
      · cases hton
      · exact .inr hle
  | tmon => exact .inl (TimerCells.tmon_of_ahead hahead hplain hregular.2 hregular.1 _ _)

theorem execute_same (hinv : s.Inv kind n) (hlegal : (RefreshEvent.execute i).Legal n)
    (hregular : (RefreshEvent.execute i).Regular kind n s) :
    TimerCells.Same kind (s.next kind n (.execute i)).refreshed
      (s.next kind n (.execute i)).plain := by
  rw [refreshed_execute hlegal, plain_execute hlegal]
  cases htouched : s.touched with
  | false =>
    obtain ⟨-, hsame⟩ := hinv.same htouched
    rw [dest_of_same hsame]
    exact hsame.body
  | true => exact body_of_ahead hinv hregular htouched

theorem execute_right (hinv : s.Inv kind n) (hlegal : (RefreshEvent.execute i).Legal n)
    (hregular : (RefreshEvent.execute i).Regular kind n s) :
    (RefreshEvent.execute i).Right kind n s := by
  intro _
  rcases execute_same hinv hlegal hregular with heq | ⟨-, -, -, heq⟩
  · rw [heq]
    exact ⟨rfl, rfl, rfl⟩
  · rw [heq]
    exact ⟨rfl, rfl, rfl⟩

theorem execute_inv (hinv : s.Inv kind n) (hlegal : (RefreshEvent.execute i).Legal n)
    (hregular : (RefreshEvent.execute i).Regular kind n s) :
    (s.next kind n (.execute i)).Inv kind n where
  refreshed := by
    rw [refreshed_execute hlegal]
    exact TimerCells.sound_body hinv.refreshed
  plain := by
    rw [plain_execute hlegal]
    exact TimerCells.sound_body hinv.plain
  same _ := ⟨rfl, execute_same hinv hlegal hregular⟩
  ahead h := by cases h
  slow _ := rfl

end

/-! ### Refreshes -/

section

variable {now : BitVec 32} {t : Store}

theorem cells_refresh (hn : n < WordElement.rang .T) :
    (s.next kind n (.refresh now t)).refreshed =
      if timerCnt10ms ≤ n then s.refreshed.refresh now else s.refreshed := by
  have hcells : (t.putTimer n s.refreshed).timerCells n = s.refreshed :=
    Store.timerCells_putTimer_self
  show (plcRefresh10ms1msTimer now (t.putTimer n s.refreshed)).timerCells n = _
  rw [timerCells_plcRefresh, hcells]
  simp only [hn, and_true]

/-- A timer of 100 ms is left alone. -/
theorem refresh_slow (hinv : s.Inv kind n) (hn : n < WordElement.rang .T)
    (hslow : n < timerCnt100ms) (hregular : (RefreshEvent.refresh now t).Regular kind n s) :
    (s.next kind n (.refresh now t)).refreshed = s.refreshed := by
  rw [cells_refresh hn]
  split
  · rename_i hreached
    cases henable : s.refreshed.timer.enable with
    | false => exact TimerCells.refresh_of_disabled henable
    | true =>
      have hcap := hinv.refreshed.capacity (.inl henable)
      replace hregular := hregular henable
      rw [if_pos hslow] at hregular
      obtain ⟨hvalue, hbit⟩ := hregular hreached
      exact TimerCells.refresh_of_slow hslow henable hcap hvalue hbit
  · rfl

/-- Any other is refreshed. -/
theorem refresh_fast (hn : n < WordElement.rang .T) (hfast : timerCnt100ms ≤ n) :
    (s.next kind n (.refresh now t)).refreshed = s.refreshed.refresh now := by
  have hreached : timerCnt10ms ≤ n := Nat.le_trans (by decide) hfast
  rw [cells_refresh hn, if_pos hreached]

theorem refresh_right (hinv : s.Inv kind n) (hn : n < WordElement.rang .T)
    (hregular : (RefreshEvent.refresh now t).Regular kind n s) :
    (RefreshEvent.refresh now t).Right kind n s := by
  refine ⟨fun hslow => refresh_slow hinv hn hslow hregular, fun hfast henable => ?_, fun hbit => ?_⟩
  · have hcap := hinv.refreshed.capacity (.inl henable)
    rw [refresh_fast hn hfast, TimerCells.refresh_of_fast hfast henable hcap]
    exact TimerCells.value_advance_eq hcap
  · rcases Nat.lt_or_ge n timerCnt100ms with hslow | hfast
    · rw [refresh_slow hinv hn hslow hregular] at hbit
      exact absurd rfl hbit
    · rw [refresh_fast hn hfast] at hbit ⊢
      exact TimerCells.refresh_bit hinv.refreshed hfast hbit

/-- A refresh that does not change the timer, where it is not ahead or not enabled. -/
theorem refresh_idle (hsame : (s.next kind n (.refresh now t)).refreshed = s.refreshed)
    (hno : s.touched = false ∨ s.refreshed.timer.enable = false) :
    s.next kind n (.refresh now t) = s := by
  have hsame' : (plcRefresh10ms1msTimer now (t.putTimer n s.refreshed)).timerCells n =
      s.refreshed := hsame
  have hcount : (s.touched && s.refreshed.timer.enable) = false := by
    rcases hno with hno | hno <;> simp [hno]
  simp only [next, hsame', ne_eq, not_true_eq_false, decide_false, Bool.or_false, hcount,
    Bool.false_eq_true, if_false]

theorem ahead_refresh_le :
    (s.next kind n (.refresh now t)).ahead ≤ s.ahead + s.units n now := by
  unfold next
  dsimp only
  split
  · exact Nat.le_refl _
  · exact Nat.le_add_right _ _

theorem ahead_of_enabled (hinv : s.Inv kind n) (henable : s.refreshed.timer.enable = true) :
    TimerCells.Ahead kind n s.ahead s.refreshed s.plain := by
  cases htouched : s.touched with
  | true => exact hinv.ahead htouched
  | false =>
    obtain ⟨hzero, heq | ⟨-, -, hoff, heq⟩⟩ := hinv.same htouched
    · rw [hzero, ← heq]
      exact TimerCells.ahead_self henable
    · rw [heq] at henable
      exact absurd (hoff.symm.trans henable) Bool.false_ne_true

theorem refresh_inv (hinv : s.Inv kind n) (hn : n < WordElement.rang .T)
    (hregular : (RefreshEvent.refresh now t).Regular kind n s) :
    (s.next kind n (.refresh now t)).Inv kind n := by
  rcases Nat.lt_or_ge n timerCnt100ms with hslow | hfast
  · rw [refresh_idle (refresh_slow hinv hn hslow hregular) (.inl (hinv.slow hslow))]
    exact hinv
  have hcells := @refresh_fast kind n s now t hn hfast
  cases henable : s.refreshed.timer.enable with
  | false =>
    rw [TimerCells.refresh_of_disabled henable] at hcells
    rw [refresh_idle hcells (.inr henable)]
    exact hinv
  | true =>
    cases htouched : (s.next kind n (.refresh now t)).touched with
    | false =>
      obtain ⟨hno, hsame⟩ := Bool.or_eq_false_iff.mp htouched
      have hsame := Classical.not_not.mp (of_decide_eq_false hsame)
      rw [refresh_idle hsame (.inl hno)]
      exact hinv
    | true =>
      replace hregular := hregular henable
      rw [if_neg (Nat.not_lt.mpr hfast)] at hregular
      have hcount : (s.next kind n (.refresh now t)).ahead = s.ahead + s.units n now := by
        have hboth : ((s.next kind n (.refresh now t)).touched && s.refreshed.timer.enable) = true :=
          Bool.and_eq_true_iff.mpr ⟨htouched, henable⟩
        exact if_pos hboth
      constructor
      case refreshed =>
        rw [hcells]
        exact hinv.refreshed.refresh hfast
      case plain => exact hinv.plain
      case same => exact fun hno => absurd (htouched.symm.trans hno) (by decide)
      case ahead =>
        intro _
        rw [hcells, hcount]
        exact (ahead_of_enabled hinv henable).refresh hinv.refreshed hfast henable rfl hregular
      case slow => exact fun hslow => absurd hslow (Nat.not_lt.mpr hfast)

end

end RefreshRun

open RefreshRun

/-- The run lemma. -/
theorem refreshes_right (kind : TimerKind) (n : Nat) (hn : n < WordElement.rang .T)
    (now : BitVec 32) (xs : List RefreshEvent)
    (h : Each (next kind n) (fun s x => x.Legal n ∧ x.Regular kind n s) (start now) xs) :
    Each (next kind n) (fun s x => x.Right kind n s) (start now) xs := by
  refine h.of_invariant (I := RefreshRun.Inv kind n) (inv_start now) ?_
  rintro s (i | ⟨now, t⟩) hinv ⟨hlegal, hregular⟩
  · exact ⟨execute_right hinv hlegal hregular, execute_inv hinv hlegal hregular⟩
  · exact ⟨refresh_right hinv hn hregular, refresh_inv hinv hn hregular⟩

/-- `TONR T384 K100` at a tick count, with a power flow. -/
def tonrAt (now inPF : BitVec 32) : BodyInput where
  ucode := [0x16, 0xF0, 0x00, 0x15, 0x80, 0x01, 0x00, 0xFF, 0x64, 0x00]
  pc := 0
  level := 0
  now := now
  inPF := inPF
  sfc := Plc.off.sfc
  store := Store.off

/-- The timer after an execution with power flow, and after a refresh. -/
theorem tonrAt_refreshed (now : BitVec 32) :
    (((start 0).next .tonr 384 (.execute (tonrAt 0 1))).next .tonr 384
        (.refresh now Store.off)).refreshed =
      ((start 0).next .tonr 384 (.execute (tonrAt 0 1))).refreshed.refresh now :=
  refresh_fast (by decide) (by decide)

/-- A refresh between two executions with power flow. -/
theorem tonrAt_right : Each (next .tonr 384) (fun s x => x.Right .tonr 384 s) (start 0)
    [.execute (tonrAt 0 1), .refresh 3 Store.off, .execute (tonrAt 5 1)] := by
  refine refreshes_right .tonr 384 (by decide) 0 _ ?_
  refine Each.cons_iff.mpr ⟨⟨rfl, fun htouched => ?_⟩, Each.cons_iff.mpr ⟨⟨trivial, fun _ => ?_⟩,
    Each.cons_iff.mpr ⟨⟨rfl, fun _ => ⟨?_, 100, rfl, rfl, .inl ?_⟩⟩, Each.nil⟩⟩⟩
  · exact absurd htouched (by decide)
  · rw [if_neg (by decide)]
    exact .inl ⟨by decide, fun _ => by decide⟩
  · have hahead := @ahead_refresh_le .tonr 384 ((start 0).next .tonr 384 (.execute (tonrAt 0 1))) 3
      Store.off
    have hunits : ((start 0).next .tonr 384 (.execute (tonrAt 0 1))).ahead +
        ((start 0).next .tonr 384 (.execute (tonrAt 0 1))).units 384 3 = 3 := by decide
    have hpassed : ((5 : BitVec 32) - (((start 0).next .tonr 384
        (.execute (tonrAt 0 1))).refreshed.refresh 3).timer.start).toNat = 2 := by decide
    have hunit : unitMs 384 = 1 := rfl
    have htime : (tonrAt 5 1).now = 5 := rfl
    unfold RefreshEvent.InTime
    rw [tonrAt_refreshed, htime, hunit]
    omega
  · rw [tonrAt_refreshed]
    decide

/-- A refresh before the power flow goes off counts what the instruction does not. -/
theorem refreshes_not_right : ¬ ∀ (kind : TimerKind) (n : Nat), n < WordElement.rang .T →
    ∀ (now : BitVec 32) (xs : List RefreshEvent),
    Each (next kind n) (fun _ x => x.Legal n) (start now) xs →
      Each (next kind n) (fun s x => x.Right kind n s) (start now) xs := by
  intro h
  have hlegal : Each (next .tonr 384) (fun _ x => x.Legal 384) (start 0)
      [.execute (tonrAt 0 1), .refresh 5 Store.off, .execute (tonrAt 5 0)] :=
    Each.cons_iff.mpr ⟨rfl, Each.cons_iff.mpr ⟨trivial, Each.cons_iff.mpr ⟨rfl, Each.nil⟩⟩⟩
  have hright := h .tonr 384 (by decide) 0 _ hlegal [.execute (tonrAt 0 1), .refresh 5 Store.off]
    (.execute (tonrAt 5 0)) [] rfl
  have hvalue := (hright (by decide)).1
  have hlast : (RefreshEvent.execute (tonrAt 5 0)).Legal 384 := rfl
  rw [foldl_cons, foldl_cons, foldl_nil, refreshed_execute hlast,
    tonrAt_refreshed] at hvalue
  revert hvalue
  decide

end Kalyke
