-- SUMMARY: When the task of the PLC runs a scan: the switch, the flags and the compiled program.
import Kalyke.Lib.Runs
import Kalyke.Modbus.OnlineProgram

/-!
# Running and Stopping

The task of the PLC takes two steps in turn: it follows the flags that ask for running or stopping,
and it does what the status it has come to demands. Commands come between these steps, from tasks of
their own. That the program could not be compiled is told by one of the flags, too, and a command to
run clears it.

Noted beside the state are what the last compilation was of, whether a stop is in force, and whether
the outputs still have to be set for it. The flag for a restart is set nowhere and is left out.
-/

namespace Kalyke

variable {π : Type}

/-- `gtv_PlcRunStatus`, with the program that is found at `gtv_UserFilePtrSt.UCodePtr` and which
step the task takes next. -/
structure PlcRunStatus (π : Type) where
  runSwitch : Bool
  poweronAutoRun : Bool
  cmdRun : Bool
  inputPointRun : Bool
  errorStatusStop : Bool
  cmdStop : Bool
  currentStatus : PlcStatus
  isOnlineProgram : Bool
  ucodePtr : π
  atAction : Bool

namespace PlcRunStatus

/-- One of the flags that ask for stopping is set. -/
def Stops (s : PlcRunStatus π) : Prop := s.errorStatusStop = true ∨ s.cmdStop = true

instance (s : PlcRunStatus π) : Decidable s.Stops := inferInstanceAs (Decidable (_ ∨ _))

def flagSwitch (s : PlcRunStatus π) : Bool :=
  if s.Stops then false
  else s.runSwitch || s.poweronAutoRun || s.cmdRun || s.inputPointRun

def plcSysStatusSwitch (s : PlcRunStatus π) (input : Bool) : PlcRunStatus π :=
  let s := { s with runSwitch := s.flagSwitch }
  let s := if s.currentStatus = .stop ∧ input = true then
    { s with
      runSwitch := true, inputPointRun := true, cmdStop := false, errorStatusStop := false }
  else s
  { s with currentStatus := OnlinePlc.nextStatus s.runSwitch s.currentStatus, atAction := true }

/-- `plc_status_stop_to_run`: the program that is found in the flash memory is compiled, or the one
in use where it may be changed while it runs. -/
def plcStatusStopToRun (compiles : π → Bool) (found : π) (s : PlcRunStatus π) : PlcRunStatus π :=
  let s := if s.isOnlineProgram then s else { s with ucodePtr := found }
  let s := if compiles s.ucodePtr then s else { s with errorStatusStop := true }
  { s with currentStatus := .run, atAction := false }

/-- `plc_run_deamon`: the scan may end with an error or at a `STOP` instruction. -/
def plcRunDeamon (fault stopIns : Bool) (s : PlcRunStatus π) : PlcRunStatus π :=
  { s with
    errorStatusStop := s.errorStatusStop || fault
    cmdStop := s.cmdStop || stopIns
    atAction := false }

def mbSlaveCtrlRunCmd (s : PlcRunStatus π) : PlcRunStatus π :=
  { s with cmdRun := true, cmdStop := false, errorStatusStop := false }

def mbSlaveCtrlStopCmd (s : PlcRunStatus π) : PlcRunStatus π :=
  { s with poweronAutoRun := false, cmdRun := false, cmdStop := true }

/-- What `mb_slave_download_file` does when a `UCODE` is complete. -/
def downloadUcode (compiles : π → Bool) (s : PlcRunStatus π) (x : π) : PlcRunStatus π :=
  if s.isOnlineProgram then
    if compiles x then { s with ucodePtr := x } else { s with errorStatusStop := true }
  else s

/-- What `mb_slave_download_file` does when the information on the program's parts is complete. -/
def downloadPouInfo (s : PlcRunStatus π) : PlcRunStatus π :=
  if s.isOnlineProgram then s.mbSlaveCtrlRunCmd else s

end PlcRunStatus

/-! ## Runs -/

/-- The task of the PLC takes its next step (with the level of the run input, the program in the
flash memory, and how a scan ends), or something comes in between: a command, the last frame of a
download, a change of the mode, or another program in the memory that is in use, because a buffer is
freed or the flash memory is written. -/
inductive RunEvent (π : Type) where
  | task (input : Bool) (found : π) (fault stopIns : Bool)
  | runCmd
  | stopCmd
  | ucode (x : π)
  | pouInfo
  | online (on : Bool)
  | replace (x : π)

/-- The PLC, the program that the last compilation was of if it succeeded, whether a stop is in
force that no run has followed, whether the outputs are those for a stop, and whether they are still
to be set for one that came when they were not. -/
structure PlcRun (π : Type) where
  plc : PlcRunStatus π
  compiled : Option π
  halted : Bool
  stopOutputs : Bool
  owed : Bool

namespace PlcRun

/-- The state after `plc_system_global_var_init`. -/
def init (online : Bool) (ucode : π) : PlcRun π where
  plc := ⟨false, true, false, false, false, false, .stop, online, ucode, false⟩
  compiled := none
  halted := false
  stopOutputs := true
  owed := false

/-- What the last compilation was of. -/
def compile (compiles : π → Bool) (x : π) : Option π := if compiles x then some x else none

/-- A step of the task. -/
def task (compiles : π → Bool) (s : PlcRun π) (input : Bool) (found : π) (fault stopIns : Bool) :
    PlcRun π :=
  if s.plc.atAction then
    match s.plc.currentStatus with
    | .stop | .runToStop =>
      { s with plc := { s.plc with atAction := false }, stopOutputs := true, owed := false }
    | .stopToRun =>
      let plc := s.plc.plcStatusStopToRun compiles found
      { s with plc := plc, compiled := compile compiles plc.ucodePtr }
    | .run =>
      { s with
        plc := s.plc.plcRunDeamon fault stopIns
        halted := s.halted || fault || stopIns
        stopOutputs := false
        owed := s.owed || s.halted || fault || stopIns }
  else
    { s with
      plc := s.plc.plcSysStatusSwitch input
      halted := s.halted && !(s.plc.currentStatus = .stop && input) }

def next (compiles : π → Bool) (s : PlcRun π) : RunEvent π → PlcRun π
  | .task input found fault stopIns => s.task compiles input found fault stopIns
  | .runCmd => { s with plc := s.plc.mbSlaveCtrlRunCmd, halted := false }
  | .stopCmd =>
    { s with plc := s.plc.mbSlaveCtrlStopCmd, halted := true, owed := s.owed || !s.stopOutputs }
  | .ucode x =>
    { s with
      plc := s.plc.downloadUcode compiles x
      compiled := if s.plc.isOnlineProgram then compile compiles x else s.compiled }
  | .pouInfo =>
    { s with plc := s.plc.downloadPouInfo, halted := s.halted && !s.plc.isOnlineProgram }
  | .online on => { s with plc := { s.plc with isOnlineProgram := on } }
  | .replace x => { s with plc := { s.plc with ucodePtr := x } }

/-- The program that would be run is the one compiled last. -/
def Compiled (s : PlcRun π) : Prop := s.compiled = some s.plc.ucodePtr

end PlcRun

/-- A scan is chosen only if no stop is in force and none has its outputs still to be set; with one
of these the status turns to stopping. A scan is run only of the program compiled last. -/
def RunEvent.Right (compiles : π → Bool) (s : PlcRun π) : RunEvent π → Prop
  | .task input found fault stopIns =>
    if s.plc.atAction then s.plc.currentStatus = .run → s.Compiled
    else
      ((s.task compiles input found fault stopIns).plc.currentStatus = .run →
        s.halted = false ∧ s.owed = false) ∧
      (s.plc.currentStatus = .run → s.halted = true ∨ s.owed = true →
        (s.task compiles input found fault stopIns).plc.currentStatus = .runToStop)
  | _ => True

/-- While the program runs, a command to run comes only when no stop has its outputs still to be set
and the program was compiled; a download that cannot be compiled does not come between the choice of
a scan and the scan; and the program that runs is not replaced. -/
def RunEvent.Timely (compiles : π → Bool) (s : PlcRun π) : RunEvent π → Prop
  | .runCmd => s.plc.currentStatus = .run → s.owed = false ∧ s.Compiled
  | .pouInfo => s.plc.isOnlineProgram = true → s.plc.currentStatus = .run →
      s.owed = false ∧ s.Compiled
  | .ucode x => s.plc.isOnlineProgram = true → compiles x = false →
      ¬ (s.plc.atAction = true ∧ s.plc.currentStatus = .run)
  | .replace _ => s.plc.currentStatus ≠ .run
  | _ => True

/-! ## Invariants -/

/-- What holds in every run of timely events. -/
structure PlcRun.Inv (s : PlcRun π) : Prop where
  running : s.plc.currentStatus = .run → s.plc.Stops ∨ s.Compiled ∧ s.halted = false ∧ s.owed = false
  chosen : s.plc.atAction = true → s.plc.currentStatus = .run → s.Compiled
  halted : s.halted = true → s.plc.Stops
  outputs : s.owed = true ∨ s.stopOutputs = false → s.plc.currentStatus = .run ∨
    s.plc.currentStatus = .runToStop ∧ s.plc.atAction = true

namespace PlcRun

variable {compiles : π → Bool} {s : PlcRun π} {input fault stopIns : Bool} {found x : π}

theorem Inv.init (online : Bool) (ucode : π) : (PlcRun.init online ucode).Inv where
  running h := by cases h
  chosen h := by cases h
  halted h := by cases h
  outputs h := by simp [PlcRun.init] at h

theorem Inv.runCmd (h : s.Inv) (hx : s.plc.currentStatus = .run → s.owed = false ∧ s.Compiled) :
    ({ s with plc := s.plc.mbSlaveCtrlRunCmd, halted := false } : PlcRun π).Inv where
  running hrun := .inr ⟨(hx hrun).2, rfl, (hx hrun).1⟩
  chosen _ hrun := (hx hrun).2
  halted hno := by cases hno
  outputs := h.outputs

theorem Inv.stopCmd (h : s.Inv) : (s.next compiles .stopCmd).Inv where
  running _ := .inl (.inr rfl)
  chosen := h.chosen
  halted _ := .inr rfl
  outputs howed := by
    refine h.outputs ?_
    simp only [PlcRun.next, Bool.or_eq_true, Bool.not_eq_true'] at howed
    tauto

theorem Inv.ucode (h : s.Inv) (hx : (RunEvent.ucode x).Timely compiles s) :
    (s.next compiles (.ucode x)).Inv := by
  by_cases honline : s.plc.isOnlineProgram = true
  · by_cases hok : compiles x = true
    · have hnext : s.next compiles (.ucode x) =
          { s with plc := { s.plc with ucodePtr := x }, compiled := some x } := by
        simp [PlcRun.next, PlcRunStatus.downloadUcode, compile, honline, hok]
      rw [hnext]
      exact ⟨fun hrun => (h.running hrun).imp id fun hfine => ⟨rfl, hfine.2⟩, fun _ _ => rfl,
        h.halted, h.outputs⟩
    · have hnext : s.next compiles (.ucode x) =
          { s with plc := { s.plc with errorStatusStop := true }, compiled := none } := by
        simp [PlcRun.next, PlcRunStatus.downloadUcode, compile, honline, hok]
      rw [hnext]
      refine ⟨fun _ => .inl (.inl rfl), fun hact hrun => ?_, fun _ => .inl rfl, h.outputs⟩
      exact absurd ⟨hact, hrun⟩ (hx honline (by simpa using hok))
  · have hnext : s.next compiles (.ucode x) = s := by
      simp [PlcRun.next, PlcRunStatus.downloadUcode, honline]
    rw [hnext]
    exact h

theorem flagSwitch_of_stops {p : PlcRunStatus π} (h : p.Stops) : p.flagSwitch = false := if_pos h

theorem switch_of_run {p : PlcRunStatus π} (hrun : p.currentStatus = .run) :
    p.plcSysStatusSwitch input =
      { p with
        runSwitch := p.flagSwitch
        currentStatus := if p.flagSwitch then .run else .runToStop
        atAction := true } := by
  simp [PlcRunStatus.plcSysStatusSwitch, hrun, OnlinePlc.nextStatus]

theorem nextStatus_eq_run {b : Bool} {status : PlcStatus} :
    OnlinePlc.nextStatus b status = .run ↔ status = .run ∧ b = true := by
  cases status <;> cases b <;> simp [OnlinePlc.nextStatus]

theorem run_of_switch {p : PlcRunStatus π}
    (hrun : (p.plcSysStatusSwitch input).currentStatus = .run) :
    p.currentStatus = .run ∧ p.flagSwitch = true := by
  have hstatus : p.currentStatus = .run := by
    unfold PlcRunStatus.plcSysStatusSwitch at hrun
    dsimp only at hrun
    split at hrun
    · exact (nextStatus_eq_run.mp hrun).1
    · exact (nextStatus_eq_run.mp hrun).1
  refine ⟨hstatus, ?_⟩
  rw [switch_of_run hstatus] at hrun
  by_contra hno
  rw [if_neg hno] at hrun
  cases hrun

theorem Inv.of_flagSwitch (h : s.Inv) (hrun : s.plc.currentStatus = .run)
    (hflag : s.plc.flagSwitch = true) : s.Compiled ∧ s.halted = false ∧ s.owed = false := by
  refine (h.running hrun).resolve_left fun hstops => ?_
  rw [flagSwitch_of_stops hstops] at hflag
  cases hflag

theorem ucodePtr_switch (p : PlcRunStatus π) : (p.plcSysStatusSwitch input).ucodePtr = p.ucodePtr := by
  unfold PlcRunStatus.plcSysStatusSwitch
  dsimp only
  split <;> rfl

/-- The flags are only changed when the run input starts the PLC. -/
theorem stops_switch {p : PlcRunStatus π} (h : ¬ (p.currentStatus = .stop ∧ input = true)) :
    (p.plcSysStatusSwitch input).Stops ↔ p.Stops := by
  unfold PlcRunStatus.plcSysStatusSwitch PlcRunStatus.Stops
  dsimp only
  rw [if_neg h]

theorem Inv.switch (h : s.Inv) (hact : s.plc.atAction = false) :
    (s.task compiles input found fault stopIns).Inv := by
  rw [task, if_neg (by simp [hact])]
  have hcompiled : ∀ c : Option π, c = some s.plc.ucodePtr →
      c = some (s.plc.plcSysStatusSwitch input).ucodePtr := fun c hc => by
    rw [ucodePtr_switch, hc]
  refine ⟨fun hrun => ?_, fun _ hrun => ?_, fun hhalted => ?_, fun howed => ?_⟩
  · obtain ⟨hstatus, hflag⟩ := run_of_switch hrun
    obtain ⟨hfine, hno, howed⟩ := h.of_flagSwitch hstatus hflag
    refine .inr ⟨hcompiled _ hfine, ?_, howed⟩
    simp [hno]
  · obtain ⟨hstatus, hflag⟩ := run_of_switch hrun
    exact hcompiled _ (h.of_flagSwitch hstatus hflag).1
  · simp only [Bool.and_eq_true, Bool.not_eq_true', Bool.and_eq_false_iff,
      decide_eq_false_iff_not] at hhalted
    refine (stops_switch fun hstart => ?_).mpr (h.halted hhalted.1)
    rcases hhalted.2 with hno | hno
    · exact hno hstart.1
    · rw [hstart.2] at hno
      cases hno
  · have hstatus : s.plc.currentStatus = .run := by
      rcases h.outputs howed with hrun | ⟨-, hno⟩
      · exact hrun
      · rw [hact] at hno
        cases hno
    rw [switch_of_run hstatus]
    split
    · exact .inl rfl
    · exact .inr ⟨rfl, rfl⟩

/-- A program that cannot be compiled asks for stopping. -/
theorem stops_of_not_compiles {p : PlcRunStatus π}
    (h : ¬ compiles (p.plcStatusStopToRun compiles found).ucodePtr = true) :
    (p.plcStatusStopToRun compiles found).Stops := by
  unfold PlcRunStatus.plcStatusStopToRun at h ⊢
  dsimp only at h ⊢
  split at h <;> split at h <;> first | exact absurd ‹_› h | skip
  · rename_i honline hno
    rw [if_pos honline, if_neg hno]
    exact .inl rfl
  · rename_i honline hno
    rw [if_neg honline, if_neg hno]
    exact .inl rfl

theorem Inv.action (h : s.Inv) (hact : s.plc.atAction = true) :
    (s.task compiles input found fault stopIns).Inv := by
  rw [task, if_pos hact]
  have hstopped (hne : s.plc.currentStatus ≠ .run) :
      ({ s with plc := { s.plc with atAction := false }, stopOutputs := true, owed := false } :
        PlcRun π).Inv :=
    ⟨fun hrun => absurd hrun hne, (fun hno => by cases hno), h.halted,
      (fun hno => by rcases hno with hno | hno <;> cases hno)⟩
  cases hstatus : s.plc.currentStatus with
  | stop => exact hstopped (by rw [hstatus]; decide)
  | runToStop => exact hstopped (by rw [hstatus]; decide)
  | stopToRun =>
    have houtputs : s.owed = false ∧ s.stopOutputs = true := by
      have hno : ¬ (s.owed = true ∨ s.stopOutputs = false) := fun howed => by
        rcases h.outputs howed with hrun | ⟨hrun, -⟩ <;> rw [hstatus] at hrun <;> cases hrun
      simpa using hno
    have hhalted : s.halted = true → (s.plc.plcStatusStopToRun compiles found).Stops := by
      intro hhalted
      unfold PlcRunStatus.plcStatusStopToRun PlcRunStatus.Stops
      dsimp only
      have hstops := h.halted hhalted
      split_ifs <;> first | exact hstops | exact .inl rfl
    refine ⟨fun _ => ?_, (fun hno => by cases hno), hhalted, fun _ => .inl rfl⟩
    by_cases hok : compiles (s.plc.plcStatusStopToRun compiles found).ucodePtr = true
    · by_cases hno : s.halted = true
      · exact .inl (hhalted hno)
      · exact .inr ⟨if_pos hok, by simpa using hno, houtputs.1⟩
    · exact .inl (stops_of_not_compiles hok)
  | run =>
    have hstill : ({ s with
        plc := s.plc.plcRunDeamon fault stopIns
        halted := s.halted || fault || stopIns
        stopOutputs := false
        owed := s.owed || s.halted || fault || stopIns } : PlcRun π).halted = true →
        (s.plc.plcRunDeamon fault stopIns).Stops := by
      simp only [Bool.or_eq_true, PlcRunStatus.plcRunDeamon, PlcRunStatus.Stops]
      have hstops := h.halted
      unfold PlcRunStatus.Stops at hstops
      tauto
    refine ⟨fun _ => ?_, (fun hno => by cases hno), hstill, fun _ => .inl hstatus⟩
    by_cases hstops : (s.plc.plcRunDeamon fault stopIns).Stops
    · exact .inl hstops
    · have hnone : ¬ s.plc.Stops ∧ fault = false ∧ stopIns = false := by
        simp only [PlcRunStatus.plcRunDeamon, PlcRunStatus.Stops, Bool.or_eq_true] at hstops
        unfold PlcRunStatus.Stops
        refine ⟨by tauto, ?_, ?_⟩ <;> rw [← Bool.not_eq_true] <;> tauto
      obtain ⟨hfine, hno, howed⟩ := (h.running hstatus).resolve_left hnone.1
      refine .inr ⟨hfine, ?_, ?_⟩
      · simp [hno, hnone]
      · simp [hno, howed, hnone]

theorem Inv.right (h : s.Inv) : (RunEvent.task input found fault stopIns).Right compiles s := by
  unfold RunEvent.Right
  dsimp only
  by_cases hact : s.plc.atAction = true
  · rw [if_pos hact]
    exact h.chosen hact
  · rw [if_neg hact, task, if_neg hact]
    constructor
    · intro hrun
      obtain ⟨hstatus, hflag⟩ := run_of_switch hrun
      exact (h.of_flagSwitch hstatus hflag).2
    · intro hstatus hstop
      rw [switch_of_run hstatus]
      refine if_neg fun hflag => ?_
      obtain ⟨-, hno, howed⟩ := h.of_flagSwitch hstatus hflag
      rw [hno, howed] at hstop
      rcases hstop with hstop | hstop <;> cases hstop

theorem Inv.next (h : s.Inv) {e : RunEvent π} (he : e.Timely compiles s) :
    (s.next compiles e).Inv := by
  cases e with
  | task input found fault stopIns =>
    by_cases hact : s.plc.atAction = true
    · exact h.action hact
    · exact h.switch (by simpa using hact)
  | runCmd => exact h.runCmd he
  | stopCmd => exact h.stopCmd
  | ucode x => exact h.ucode he
  | pouInfo =>
    by_cases honline : s.plc.isOnlineProgram = true
    · have hnext : s.next compiles .pouInfo =
          { s with plc := s.plc.mbSlaveCtrlRunCmd, halted := false } := by
        simp [PlcRun.next, PlcRunStatus.downloadPouInfo, honline]
      rw [hnext]
      exact h.runCmd (he honline)
    · have hnext : s.next compiles .pouInfo = s := by
        simp [PlcRun.next, PlcRunStatus.downloadPouInfo, honline]
      rw [hnext]
      exact h
  | online on => exact ⟨h.running, h.chosen, h.halted, h.outputs⟩
  | replace x =>
    exact ⟨fun hrun => absurd hrun he, fun _ hrun => absurd hrun he, h.halted, h.outputs⟩

end PlcRun

/-- In a run from the start of the device on whose events are timely, a scan is chosen only while no
stop is in force, and only the program compiled last is run. -/
theorem plcTask_right (compiles : π → Bool) (online : Bool) (ucode : π) (xs : List (RunEvent π))
    (h : Each (PlcRun.next compiles) (fun s x => x.Timely compiles s) (.init online ucode) xs) :
    Each (PlcRun.next compiles) (fun s x => x.Right compiles s) (.init online ucode) xs := by
  refine Each.of_invariant (PlcRun.Inv.init online ucode) h fun s x hinv hx => ⟨?_, hinv.next hx⟩
  cases x with
  | task input found fault stopIns => exact hinv.right
  | _ => trivial

/-- A step of the task with the run input off. -/
def taskStep : RunEvent Unit := .task false () false false

/-- The PLC starts, runs a scan, is stopped, and is started again when its outputs are set. -/
theorem plcTask_right_stop_run :
    Each (PlcRun.next fun _ => true) (fun s x => x.Right (fun _ => true) s) (.init false ())
      [taskStep, taskStep, taskStep, taskStep, .stopCmd, taskStep, taskStep, .runCmd, taskStep] := by
  refine plcTask_right _ false () _ ?_
  simp only [Each.cons_iff]
  exact ⟨trivial, trivial, trivial, trivial, trivial, trivial, trivial,
    (fun hrun => absurd hrun (by decide)), trivial, Each.nil⟩

/-- The program cannot be compiled, and a command to run comes before the status switch. -/
theorem failed_program_runs : ¬ ∀ (compiles : Unit → Bool) (online : Bool)
    (xs : List (RunEvent Unit)),
    Each (PlcRun.next compiles) (fun s x => x.Right compiles s) (.init online ()) xs := by
  intro h
  have hright := h (fun _ => false) false [taskStep, taskStep, .runCmd, taskStep, taskStep]
    [taskStep, taskStep, .runCmd, taskStep] taskStep [] rfl
  have hcompiled := hright rfl
  revert hcompiled
  unfold PlcRun.Compiled
  decide

end Kalyke
