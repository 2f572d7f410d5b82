-- SUMMARY: `DUTY`: a pulse of so many scans on and so many off, and when it keeps its phase.
import Kalyke.Exec.CounterIns
import Kalyke.Exec.Deque

/-!
# Pulses

`DUTY` switches a special bit on for one number of scans and off for another, over and over. It
counts the scans on and the scans off in two counters of 16 bits, and starts anew when their sum, as
it is kept in a special word, has reached the sum of the operands. The word has 16 bits and the sum
of the operands 17, so that some pulses never start anew.
-/

namespace Kalyke

open Nat
open Function (update update_self)

/-! ## The instruction -/

def dutyInsBaseElement : Nat := 430

def maxDutySupportNum : Nat := 5

/-- `plc_duty_ins_info_st`. -/
structure DutyInsInfo where
  isEnable : Nat → Bool
  onTime : Nat → BitVec 16
  offTime : Nat → BitVec 16

def plcDutyInsInit : DutyInsInfo := ⟨fun _ => false, fun _ => 0, fun _ => 0⟩

namespace DutyInsInfo

variable (d : DutyInsInfo) (n : Nat)

def enable : DutyInsInfo := { d with isEnable := update d.isEnable n true }

/-- Count a scan on. -/
def countOn : DutyInsInfo := { d with onTime := update d.onTime n (d.onTime n + 1) }

def countOff : DutyInsInfo := { d with offTime := update d.offTime n (d.offTime n + 1) }

/-- Start anew. -/
def restart : DutyInsInfo :=
  { d with onTime := update d.onTime n 0, offTime := update d.offTime n 0 }

end DutyInsInfo

/-- The pulse number `n` in one scan. -/
def dutyPulse (onTime offTime : BitVec 16) (n : Nat) (d : DutyInsInfo) (s : Store) :
    DutyInsInfo × Store :=
  if onTime = 0 then (d, s.setBit (.elem .SM) (n + dutyInsBaseElement) false)
  else if offTime = 0 then (d, s.setBit (.elem .SM) (n + dutyInsBaseElement) true)
  else
    let on := (d.onTime n).toNat < onTime.toNat
    let d := if on then d.countOn n else d.countOff n
    let s := (s.setBit (.elem .SM) (n + dutyInsBaseElement) (decide on)).setWord (.elem .SD)
      (n + dutyInsBaseElement) (d.onTime n + d.offTime n)
    -- the sum of the operands is an `int`
    if onTime.toNat + offTime.toNat ≤ (s.getWord (.elem .SD) (n + dutyInsBaseElement)).toNat then
      (d.restart n, s.setWord (.elem .SD) (n + dutyInsBaseElement) 0)
    else (d, s)

def runCiDutyIns (d : DutyInsInfo) (i : BodyInput) : Except PlcErr Unit × DutyInsInfo × Store :=
  if getPowerFlow i.inPF then
    match i.word 2 0 i.store with
    | .error e => (.error e, d, i.store)
    | .ok onTime =>
      match i.word 6 0 i.store with
      | .error e => (.error e, d, i.store)
      | .ok offTime =>
        let element := i.ucode.getPU16 (i.pc + 12)
        if element < dutyInsBaseElement ∨ dutyInsBaseElement + maxDutySupportNum - 1 < element then
          (.error .operands, d, i.store)
        else
          let n := element - dutyInsBaseElement
          let d := if getPowerFlow i.inPF then d.enable n else d
          if d.isEnable n then (.ok (), dutyPulse onTime offTime n d i.store)
          else (.ok (), d, i.store)
  else (.ok (), d, i.store)

/-! ## Scans -/

/-- `DUTY` with power flow, for the pulse number `n` with `on` scans on and `off` scans off. -/
structure DutyCall (n on off : Nat) (i : BodyInput) : Prop where
  power : getPowerFlow i.inPF = true
  onTime : i.word 2 0 i.store = .ok (BitVec.ofNat 16 on)
  offTime : i.word 6 0 i.store = .ok (BitVec.ofNat 16 off)
  element : i.ucode.getPU16 (i.pc + 12) = n + dutyInsBaseElement

/-- What `DUTY` has counted before scan number `k`. What else happens in the scans may change the
elements. -/
def dutyAfter (x : Nat → BodyInput) : Nat → DutyInsInfo
  | 0 => plcDutyInsInit
  | k + 1 => (runCiDutyIns (dutyAfter x k) (x k)).2.1

def dutyScan (x : Nat → BodyInput) (k : Nat) : Except PlcErr Unit × DutyInsInfo × Store :=
  runCiDutyIns (dutyAfter x k) (x k)

/-- In scan number `k` the special bit is on in the first `on` of `on + off` scans, and the special
word is the number of scans, as far as it has room for it. -/
def DutyRight (n on off k : Nat) (r : Except PlcErr Unit × DutyInsInfo × Store) : Prop :=
  r.1 = .ok () ∧
  (r.2.2.getBit (.elem .SM) (n + dutyInsBaseElement) = true ↔ k % (on + off) < on) ∧
  ((k + 1) % (on + off) < 65536 → (r.2.2.getWord (.elem .SD) (n + dutyInsBaseElement)).toNat =
    (k + 1) % (on + off))

section

variable {n on off a b k : Nat} {d : DutyInsInfo} {i : BodyInput} {x : Nat → BodyInput} {s : Store}

/-- The two counters. -/
def DutyInsInfo.Counts (d : DutyInsInfo) (n a b : Nat) : Prop :=
  (d.onTime n).toNat = a ∧ (d.offTime n).toNat = b

/-- The counters after a scan, as long as the pulse does not start anew. -/
def dutyNext (on a b : Nat) : Nat × Nat := if a < on then (a + 1, b) else (a, (b + 1) % 65536)

theorem DutyInsInfo.counts_countOn (hd : d.Counts n a b) (ha : a + 1 < 65536) :
    (d.countOn n).Counts n (a + 1) b := by
  obtain ⟨rfl, rfl⟩ := hd
  refine ⟨?_, rfl⟩
  simp only [DutyInsInfo.countOn, update_self]
  exact mod_eq_of_lt ha

theorem DutyInsInfo.counts_countOff (hd : d.Counts n a b) :
    (d.countOff n).Counts n a ((b + 1) % 65536) := by
  obtain ⟨rfl, rfl⟩ := hd
  refine ⟨rfl, ?_⟩
  simp only [DutyInsInfo.countOff, update_self]
  rfl

theorem DutyInsInfo.counts_restart : (d.restart n).Counts n 0 0 := by
  simp [DutyInsInfo.Counts, DutyInsInfo.restart]

theorem dutyPulse_spec (hon : 0 < on) (hon' : on < 65536) (hoff : 0 < off) (hoff' : off < 65536)
    (hd : d.Counts n a b) :
    let r := dutyPulse (BitVec.ofNat 16 on) (BitVec.ofNat 16 off) n d s
    let sum := ((dutyNext on a b).1 + (dutyNext on a b).2) % 65536
    r.2.getBit (.elem .SM) (n + dutyInsBaseElement) = decide (a < on) ∧
    (r.2.getWord (.elem .SD) (n + dutyInsBaseElement)).toNat =
      (if on + off ≤ sum then 0 else sum) ∧
    (if on + off ≤ sum then r.1.Counts n 0 0
      else r.1.Counts n (dutyNext on a b).1 (dutyNext on a b).2) := by
  intro r sum
  have hon0 : BitVec.ofNat 16 on ≠ 0 := by
    intro h
    have hnat := congrArg BitVec.toNat h
    simp [mod_eq_of_lt hon'] at hnat
    omega
  have hoff0 : BitVec.ofNat 16 off ≠ 0 := by
    intro h
    have hnat := congrArg BitVec.toNat h
    simp [mod_eq_of_lt hoff'] at hnat
    omega
  -- the counters after the scan
  obtain ⟨d', hd', hcounts⟩ : ∃ d', d' = (if a < on then d.countOn n else d.countOff n) ∧
      d'.Counts n (dutyNext on a b).1 (dutyNext on a b).2 := by
    refine ⟨_, rfl, ?_⟩
    by_cases ha : a < on
    · simp only [dutyNext, if_pos ha]
      exact DutyInsInfo.counts_countOn hd (by omega)
    · simp only [dutyNext, if_neg ha]
      exact DutyInsInfo.counts_countOff hd
  have hword : (d'.onTime n + d'.offTime n).toNat = sum := by
    rw [BitVec.toNat_add, hcounts.1, hcounts.2]
  have hr : r = if on + off ≤ sum then
      (d'.restart n, ((s.setBit (.elem .SM) (n + dutyInsBaseElement) (decide (a < on))).setWord
        (.elem .SD) (n + dutyInsBaseElement) (d'.onTime n + d'.offTime n)).setWord (.elem .SD)
          (n + dutyInsBaseElement) 0)
      else (d', (s.setBit (.elem .SM) (n + dutyInsBaseElement) (decide (a < on))).setWord
        (.elem .SD) (n + dutyInsBaseElement) (d'.onTime n + d'.offTime n)) := by
    simp only [r, dutyPulse, if_neg hon0, if_neg hoff0, BitVec.toNat_ofNat, mod_eq_of_lt hon',
      mod_eq_of_lt hoff', hd.1, ← hd', getWord_setWord_self, hword]
  rw [hr]
  by_cases hsum : on + off ≤ sum
  · simp only [if_pos hsum, getWord_setWord_self, getBit_setWord, getBit_setBit_self]
    exact ⟨trivial, rfl, d'.counts_restart⟩
  · simp only [if_neg hsum, getWord_setWord_self, getBit_setWord, getBit_setBit_self]
    exact ⟨trivial, hword, hcounts⟩

theorem runCiDutyIns_eq (h : DutyCall n on off i) (hn : n < maxDutySupportNum) :
    runCiDutyIns d i =
      (.ok (), dutyPulse (BitVec.ofNat 16 on) (BitVec.ofNat 16 off) n (d.enable n) i.store) := by
  have henable : (d.enable n).isEnable n = true := by simp [DutyInsInfo.enable]
  have hrange : ¬ (n + dutyInsBaseElement < dutyInsBaseElement ∨
      dutyInsBaseElement + maxDutySupportNum - 1 < n + dutyInsBaseElement) := by omega
  simp only [runCiDutyIns, h.power, if_true, h.onTime, h.offTime, h.element, if_neg hrange,
    Nat.add_sub_cancel, henable]

/-! ## Runs -/

/-- What is counted after `k` scans. A sum of the operands that has no room in the special word is
never reached: then the scans on are counted once, and the scans off for ever. -/
def dutyCounts (on off k : Nat) : Nat × Nat :=
  if on + off < 65536 then (min (k % (on + off)) on, k % (on + off) - on)
  else (min k on, (k - on) % 65536)

/-- The counts of a pulse that starts anew after `on + off` scans. -/
theorem dutyNext_of_room (h : k < on + off) (hroom : on + off < 65536) :
    dutyNext on (min k on) (k - on) = (min (k + 1) on, k + 1 - on) := by
  rw [dutyNext]
  split
  · rename_i hlt
    exact Prod.ext (by omega) (by omega)
  · rename_i hlt
    exact Prod.ext (by omega) (by omega)

/-- The counts of a pulse that never does. -/
theorem dutyNext_of_no_room :
    dutyNext on (min k on) ((k - on) % 65536) = (min (k + 1) on, (k + 1 - on) % 65536) := by
  rw [dutyNext]
  split
  · rename_i hlt
    exact Prod.ext (by omega) (by omega)
  · rename_i hlt
    exact Prod.ext (by omega) (by omega)

theorem mod_succ (h : 1 < n) : (k + 1) % n = if k % n + 1 = n then 0 else k % n + 1 := by
  have hlt := mod_lt k (zero_lt_of_lt h)
  rw [add_mod, mod_eq_of_lt h]
  split
  · rename_i heq
    rw [heq, mod_self]
  · exact mod_eq_of_lt (by omega)

/-- What one scan more makes of the counts. -/
theorem dutyCounts_succ (hon : 0 < on) (hoff : 0 < off) :
    let next := dutyNext on (dutyCounts on off k).1 (dutyCounts on off k).2
    let sum := (next.1 + next.2) % 65536
    (if on + off ≤ sum then 0 else sum) =
      (if on + off < 65536 then (k + 1) % (on + off) else (k + 1) % 65536) ∧
    (if on + off ≤ sum then (0, 0) else next) = dutyCounts on off (k + 1) := by
  simp only [dutyCounts]
  by_cases hroom : on + off < 65536
  · have hlt := mod_lt k (show 0 < on + off by omega)
    have hsucc := mod_succ (n := on + off) (k := k) (by omega)
    simp only [if_pos hroom]
    generalize k % (on + off) = r at hlt hsucc
    simp only [dutyNext_of_room hlt hroom, hsucc]
    have hsum : (min (r + 1) on + (r + 1 - on)) % 65536 = r + 1 := by omega
    rw [hsum]
    by_cases hend : r + 1 = on + off
    · simp only [if_pos (Nat.le_of_eq hend.symm), if_pos hend, true_and]
      exact Prod.ext (by omega) (by omega)
    · simp only [if_neg (show ¬ on + off ≤ r + 1 by omega), if_neg hend, and_self]
  · have hsum : (min (k + 1) on + (k + 1 - on) % 65536) % 65536 = (k + 1) % 65536 := by omega
    simp only [if_neg hroom, dutyNext_of_no_room, hsum,
      if_neg (show ¬ on + off ≤ (k + 1) % 65536 by omega), and_self]

theorem dutyScan_spec (hn : n < maxDutySupportNum) (hon : 0 < on) (hon' : on < 65536)
    (hoff : 0 < off) (hoff' : off < 65536) (hx : ∀ k, DutyCall n on off (x k)) (k : Nat) :
    (dutyScan x k).1 = .ok () ∧
    (dutyScan x k).2.2.getBit (.elem .SM) (n + dutyInsBaseElement) =
      decide ((dutyCounts on off k).1 < on) ∧
    ((dutyScan x k).2.2.getWord (.elem .SD) (n + dutyInsBaseElement)).toNat =
      if on + off < 65536 then (k + 1) % (on + off) else (k + 1) % 65536 := by
  have hcounts (k : Nat) :
      (dutyAfter x k).Counts n (dutyCounts on off k).1 (dutyCounts on off k).2 := by
    induction k with
    | zero =>
      have hzero : dutyCounts on off 0 = (0, 0) := by simp [dutyCounts]
      rw [hzero]
      exact ⟨rfl, rfl⟩
    | succ k ih =>
      have hstep := (dutyPulse_spec (s := (x k).store) hon hon' hoff hoff'
        (show ((dutyAfter x k).enable n).Counts n _ _ from ih)).2.2
      have hnext := (dutyCounts_succ (k := k) hon hoff).2
      rw [dutyAfter, runCiDutyIns_eq (hx k) hn]
      split at hstep <;> rename_i hsum
      · rw [if_pos hsum] at hnext
        rw [← hnext]
        exact hstep
      · rw [if_neg hsum] at hnext
        rw [← hnext]
        exact hstep
  obtain ⟨hbit, hword, -⟩ := dutyPulse_spec (s := (x k).store) hon hon' hoff hoff'
    (show ((dutyAfter x k).enable n).Counts n _ _ from hcounts k)
  rw [dutyScan, runCiDutyIns_eq (hx k) hn]
  exact ⟨rfl, hbit, hword.trans (dutyCounts_succ hon hoff).1⟩

/-- `DUTY` is right in each of `m` scans just if the sum of its operands has room in 16 bits, or the
scans end before the pulse would start anew. The sum 65536 still shows zero in its last scan. -/
theorem duty_keeps_phase_iff (hn : n < maxDutySupportNum) (hon : 0 < on) (hon' : on < 65536)
    (hoff : 0 < off) (hoff' : off < 65536) (hx : ∀ k, DutyCall n on off (x k)) (m : Nat) :
    (∀ k < m, DutyRight n on off k (dutyScan x k)) ↔
      on + off < 65536 ∨ m < on + off ∨ on + off = 65536 ∧ m = 65536 := by
  have hspec := dutyScan_spec hn hon hon' hoff hoff' hx
  constructor
  · intro h
    by_contra hfail
    have hroom : ¬ on + off < 65536 := by omega
    rcases Nat.lt_or_ge (on + off) 65537 with hsum | hsum
    · -- the bit of the scan that should start anew
      have hk : on + off < m := by omega
      have hbit := (h _ hk).2.1
      rw [(hspec _).2.1, dutyCounts, if_neg hroom, mod_self, decide_eq_true_iff] at hbit
      omega
    · -- the word of the scan before it
      have hk : on + off - 1 < m := by omega
      have hword := (h _ hk).2.2
      rw [(hspec _).2.2, if_neg hroom, Nat.sub_add_cancel (by omega), mod_self] at hword
      omega
  · intro h k hk
    refine ⟨(hspec k).1, ?_, fun hlt => ?_⟩
    · rw [(hspec k).2.1, decide_eq_true_iff, dutyCounts]
      by_cases hroom : on + off < 65536
      · rw [if_pos hroom]
        omega
      · have hkmod : k % (on + off) = k := mod_eq_of_lt (by omega)
        rw [if_neg hroom]
        omega
    · rw [(hspec k).2.2]
      by_cases hroom : on + off < 65536
      · rw [if_pos hroom]
      · rw [if_neg hroom]
        rcases Nat.lt_or_ge (k + 1) (on + off) with hlt' | hge
        · have hkmod : (k + 1) % (on + off) = k + 1 := mod_eq_of_lt hlt'
          omega
        · have hkeq : k + 1 = 65536 := by omega
          have hsum : on + off = 65536 := by omega
          rw [hsum]

end

/-- `DUTY` on `SM430` with literals of two bytes each. -/
def dutyOfLiterals (on0 on1 off0 off1 : UInt8) : BodyInput :=
  { ucode := [0xB1, 0xF2, 0, 0xFF, on0, on1, 0, 0xFF, off0, off1, 0, 0x04, 0xAE, 0x01],
    pc := 0, level := 0, now := 0, inPF := 1, sfc := Plc.off.sfc, store := .off }

/-- Three scans on and two off, for a thousand scans. -/
theorem duty_three_two :
    0 < 3 ∧ ∀ k < 1000, DutyRight 0 3 2 k (dutyScan (fun _ => dutyOfLiterals 3 0 2 0) k) :=
  ⟨by decide, (duty_keeps_phase_iff (by decide) (by decide) (by decide) (by decide) (by decide)
    (fun _ => ⟨rfl, rfl, rfl, rfl⟩) 1000).mpr (.inl (by decide))⟩

/-- With 40000 scans on and as many off the bit is not on again after 80000 scans. -/
theorem duty_stays_off : ¬ ∀ k < 80001, DutyRight 0 40000 40000 k
    (dutyScan (fun _ => dutyOfLiterals 0x40 0x9C 0x40 0x9C) k) := by
  intro h
  have hbit := (h 80000 (by decide)).2.1.mpr (by decide)
  rw [(dutyScan_spec (n := 0) (by decide) (by decide) (by decide) (by decide) (by decide)
    (fun _ => ⟨rfl, rfl, rfl, rfl⟩) 80000).2.1] at hbit
  exact absurd hbit (by decide)

end Kalyke
