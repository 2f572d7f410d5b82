-- SUMMARY: The program that runs while it may be changed, and when its buffer is still there.
import Kalyke.Modbus.Directions

/-!
# Programming Online

Where the program may be changed while it runs, a complete `UCODE` is compiled and run in the buffer
it was downloaded to: `gtv_UserFilePtrSt.UCodePtr` is set to the buffer of the transfer. The next
frame of a `UCODE` frees that buffer, and so does the programme command, and the pointer stays. The
task of the PLC follows it whenever it compiles the program or runs a scan.
-/

namespace Kalyke

open Option

/-- `__PLC_RUN_STOP_STATUS`. -/
inductive PlcStatus where
  | stop | stopToRun | run | runToStop
deriving DecidableEq, Repr

/-- What `gtv_UserFilePtrSt.UCodePtr` points to. Buffers are numbered in the order in which they are
allocated. -/
inductive UcodePtr where
  | default | flash
  | buffer (num : Nat)
deriving DecidableEq, Repr

/-- What the task of the PLC has other parts of the firmware do, which may change elements. -/
structure PlcParts (ω : Type) where
  /-- `ucode_default`. -/
  ucodeDefault : Buff
  /-- The memory of a buffer that was freed. -/
  freedBuffer : Buff
  /-- `plc_ucode_verify`: the program in the flash memory is valid. -/
  ucodeVerify : ω → Bool
  /-- `plc_status_stop_to_run` up to the check of the program. -/
  prepare : Store × ω → Store × ω
  prepare_online (x : Store × ω) : (prepare x).1.isOnlineProgram = x.1.isOnlineProgram
  /-- From there to `plc_compiler_ucode`. -/
  configure : Store × ω → Store × ω
  /-- What follows `plc_compiler_ucode`. -/
  start : Bool → Store × ω → Store × ω
  /-- `plc_run_deamon` with the program it runs. -/
  runUserProgram : Buff → Store × ω → Store × ω
  /-- `plc_status_stop`. -/
  statusStop : Store × ω → Store × ω
  /-- `plc_status_run_to_stop`. -/
  statusRunToStop : Store × ω → Store × ω
  /-- Forced elements, inputs and outputs. -/
  refresh : Store × ω → Store × ω

/-- The slave, and what the task of the PLC has besides it: the switch and the status, whether an
input started it, and the pointer to the program. The number is that of the buffer of the transfer
of a `UCODE`. Noted beside them is the program of the last download of a `UCODE` that was completed
and acknowledged. -/
structure OnlinePlc (ω : Type) where
  slave : Slave ω
  runSwitch : Bool
  status : PlcStatus
  inputPointRun : Bool
  ucodePtr : UcodePtr
  bufferNum : Nat
  lastUcode : Option (List Byte)

variable {ω : Type}

def Slave.compiled? (b : Board ω) (s : Slave ω) (x : FileFrame) : Option FileTrans :=
  let t := ((s.hand x).openFile b .ucode).1
  if s.store.isOnlineProgram then
    match t.receive x.num x.data with
    | .done t => if t.complete then some t else none
    | _ => none
  else none

namespace OnlinePlc

/-- Have another part of the firmware do something. -/
def part (p : OnlinePlc ω) (g : Store × ω → Store × ω) : OnlinePlc ω :=
  let (store, world) := g (p.slave.store, p.slave.world)
  { p with slave := { p.slave with store := store, world := world } }

/-- The program the pointer denotes: none where its buffer was freed. -/
def denotes (b : Board ω) (k : PlcParts ω) (p : OnlinePlc ω) : Option Buff :=
  match p.ucodePtr with
  | .default => some k.ucodeDefault
  | .flash => some (b.flashFile .ucode p.slave.world)
  | .buffer num =>
    if num = p.bufferNum then (p.slave.files .ucode).map FileTrans.fileHandler else none

/-- The program that is found at the pointer. -/
def program (b : Board ω) (k : PlcParts ω) (p : OnlinePlc ω) : Buff :=
  (p.denotes b k).getD k.freedBuffer

/-! ## The Task of the PLC -/

def flagSwitch (p : OnlinePlc ω) : Bool :=
  let s := p.slave
  if s.store.errorStatusStop ∨ s.store.cmdStop ∨ s.cmdReboot then false
  else p.runSwitch || s.powerOnAutoRun || s.cmdRun || p.inputPointRun

/-- An input starts the PLC, where `SM9` says so. -/
def inputRuns (p : OnlinePlc ω) : Bool :=
  p.status = .stop && p.slave.store.bit .SM 9 &&
    p.slave.store.bit .X (p.slave.store.word .SD 9).toNat

/-- The status that follows, by the switch. -/
def nextStatus (run : Bool) : PlcStatus → PlcStatus
  | .stop => if run then .stopToRun else .stop
  | .stopToRun => if run then .stopToRun else .runToStop
  | .run => if run then .run else .runToStop
  | .runToStop => if run then .stopToRun else .stop

def sysStatusSwitch (p : OnlinePlc ω) : OnlinePlc ω :=
  let p := { p with runSwitch := p.flagSwitch }
  let p := if p.inputRuns then
    { p with
      runSwitch := true, inputPointRun := true
      slave := { p.slave with
        cmdReboot := false
        store := { p.slave.store with cmdStop := false, errorStatusStop := false } } }
  else p
  { p with status := nextStatus p.runSwitch p.status }

/-- `plc_status_stop_to_run`, up to the compiler: while the program may be changed it is not checked
again, so the pointer stays. -/
def prepared (k : PlcParts ω) (p : OnlinePlc ω) : OnlinePlc ω :=
  let p := p.part k.prepare
  let p := if p.slave.store.isOnlineProgram then p
    else { p with ucodePtr := if k.ucodeVerify p.slave.world then .flash else .default }
  p.part k.configure

def statusStopToRun (b : Board ω) (k : PlcParts ω) (p : OnlinePlc ω) : OnlinePlc ω :=
  let p := p.prepared k
  let (ok, store, world) := b.compilerUcode (p.program b k) (p.slave.store, p.slave.world)
  let store := if ok then store else { store with errorStatusStop := true }
  { p with slave := { p.slave with store := store, world := world } }.part (k.start ok)

def runDeamon (b : Board ω) (k : PlcParts ω) (p : OnlinePlc ω) : OnlinePlc ω :=
  p.part (k.runUserProgram (p.program b k))

def taskTurn (b : Board ω) (k : PlcParts ω) (p : OnlinePlc ω) : OnlinePlc ω :=
  let p := p.sysStatusSwitch
  let p := match p.status with
    | .stop => p.part k.statusStop
    | .stopToRun => { p.statusStopToRun b k with status := .run }
    | .run => p.runDeamon b k
    | .runToStop => p.part k.statusRunToStop
  p.part k.refresh

/-! ## Downloads -/

/-- A frame of a file has its transfer: where a new one is opened for a `UCODE`, the buffer of the
one before is freed and another is allocated. -/
def opened (b : Board ω) (p : OnlinePlc ω) (f : DlFile) (x : FileFrame) : OnlinePlc ω :=
  { p with
    slave := ((p.slave.hand x).openFile b f).2
    bufferNum :=
      if f = .ucode ∧ p.slave.underWay .ucode = none then p.bufferNum + 1 else p.bufferNum }

/-- A frame of a file comes. A program that was compiled is run from then on. -/
def frame (b : Board ω) (p : OnlinePlc ω) (f : DlFile) (x : FileFrame) : OnlinePlc ω :=
  let (ok, s) := p.slave.download b f x
  let q := { p.opened b f x with slave := s }
  match if f = .ucode ∧ ok then p.slave.compiled? b x else none with
  | some t =>
    { q with
      ucodePtr := .buffer q.bufferNum
      lastUcode := some (t.fileHandler.bytes t.fileLen.toNat) }
  | none => q

end OnlinePlc

/-- What happens: a frame of a file comes, the programme command, a command to run or to stop, the
task of the PLC takes a turn, or something else happens to the slave. -/
inductive OnlineEvent (ω : Type) where
  | frame (f : DlFile) (x : FileFrame)
  | programme (m : MsgPack)
  | runCmd
  | stopCmd
  | turn
  | other (s : Slave ω)

namespace OnlineEvent

def step (b : Board ω) (k : PlcParts ω) (p : OnlinePlc ω) : OnlineEvent ω → OnlinePlc ω
  | frame f x => p.frame b f x
  | programme m => { p with slave := p.slave.programme b m }
  | runCmd => { p with slave := p.slave.mbSlaveCtrlRunCmd b }
  | stopCmd => { p with slave := p.slave.mbSlaveCtrlStopCmd }
  | turn => p.taskTurn b k
  | other s => { p with slave := s }

/-- The program may be changed while it runs, and other events leave the transfer of a `UCODE`
alone. -/
def Legal (p : OnlinePlc ω) (e : OnlineEvent ω) : Prop :=
  p.slave.store.isOnlineProgram ∧ ∀ s, e = other s → s.files .ucode = p.slave.files .ucode

end OnlineEvent

namespace OnlinePlc

/-- The pointer denotes a program that is there, and that is the one downloaded last. -/
def Good (b : Board ω) (k : PlcParts ω) (p : OnlinePlc ω) : Prop :=
  ∃ file, p.denotes b k = some file ∧ ∀ xs ∈ p.lastUcode, file.bytes xs.length = xs

/-- Whenever a program is compiled or a scan is run, the pointer is good. -/
def UsesGood (b : Board ω) (k : PlcParts ω) (p : OnlinePlc ω) : OnlineEvent ω → Prop
  | .frame f x => f = .ucode → p.slave.compiled? b x ≠ none → (p.opened b f x).Good b k
  | .turn =>
    (p.sysStatusSwitch.status = .stopToRun → (p.sysStatusSwitch.prepared k).Good b k) ∧
      (p.sysStatusSwitch.status = .run → p.sysStatusSwitch.Good b k)
  | _ => True

/-- A program that runs in its buffer is left there: neither a frame of a `UCODE` comes nor the
programme command. -/
def Keeps (p : OnlinePlc ω) : OnlineEvent ω → Prop
  | .frame f _ => f = .ucode → ∀ num, p.ucodePtr ≠ .buffer num
  | .programme _ => ∀ num, p.ucodePtr ≠ .buffer num
  | _ => True

/-- The program that runs is the default one or that in the flash memory, and none was downloaded,
or it is in the buffer of a complete transfer. -/
def Running (p : OnlinePlc ω) : Prop :=
  match p.ucodePtr with
  | .buffer num => num = p.bufferNum ∧ ∃ t xs, p.slave.files .ucode = some t ∧ t.complete ∧
      p.lastUcode = some xs ∧ t.fileHandler.bytes xs.length = xs
  | _ => p.lastUcode = none

/-! ## One Event -/

section Events

variable {b : Board ω} {k : PlcParts ω} {p q : OnlinePlc ω} {x : FileFrame}

theorem Running.good (h : p.Running) : p.Good b k := by
  unfold Running at h
  unfold Good denotes
  cases hptr : p.ucodePtr with
  | default =>
    rw [hptr] at h
    exact ⟨_, rfl, by simp [show p.lastUcode = none from h]⟩
  | flash =>
    rw [hptr] at h
    exact ⟨_, rfl, by simp [show p.lastUcode = none from h]⟩
  | buffer num =>
    rw [hptr] at h
    obtain ⟨hnum, t, xs, hfile, -, hlast, hcontent⟩ := h
    refine ⟨t.fileHandler, ?_, fun ys hys => ?_⟩
    · dsimp only
      rw [if_pos hnum, hfile, map_some]
    · rw [hlast] at hys
      cases hys
      exact hcontent

/-- What the invariant looks at is the same. -/
theorem Running.congr (h : p.Running) (hptr : q.ucodePtr = p.ucodePtr)
    (hnum : q.bufferNum = p.bufferNum) (hlast : q.lastUcode = p.lastUcode)
    (hfiles : q.slave.files .ucode = p.slave.files .ucode) : q.Running := by
  unfold Running at h ⊢
  rw [hptr, hnum, hlast, hfiles]
  exact h

theorem Running.sysStatusSwitch (h : p.Running) : p.sysStatusSwitch.Running := by
  unfold OnlinePlc.sysStatusSwitch
  dsimp only
  split_ifs <;> exact h.congr rfl rfl rfl rfl

theorem sysStatusSwitch_online :
    p.sysStatusSwitch.slave.store.isOnlineProgram = p.slave.store.isOnlineProgram := by
  unfold OnlinePlc.sysStatusSwitch
  dsimp only
  split_ifs <;> rfl

theorem Running.prepared (h : p.Running) (honline : p.slave.store.isOnlineProgram) :
    (p.prepared k).Running := by
  have hprepare : (p.part k.prepare).slave.store.isOnlineProgram :=
    (k.prepare_online _).trans honline
  unfold OnlinePlc.prepared
  dsimp only
  rw [if_pos hprepare]
  exact h.congr rfl rfl rfl rfl

theorem Running.taskTurn (h : p.Running) (honline : p.slave.store.isOnlineProgram) :
    (p.taskTurn b k).Running := by
  have hswitch := h.sysStatusSwitch
  have hprepared := hswitch.prepared (k := k) (sysStatusSwitch_online.trans honline)
  unfold OnlinePlc.taskTurn
  dsimp only
  cases p.sysStatusSwitch.status with
  | stop => exact hswitch.congr rfl rfl rfl rfl
  | stopToRun =>
    exact hprepared.congr rfl rfl rfl rfl
  | run => exact hswitch.congr rfl rfl rfl rfl
  | runToStop => exact hswitch.congr rfl rfl rfl rfl

/-- A program that was compiled is in a complete transfer. -/
theorem compiled?_eq_some {s : Slave ω} {t : FileTrans} (h : s.compiled? b x = some t) :
    (s.download b .ucode x).2.files .ucode = some t ∧ t.complete := by
  rw [Slave.download_files, FileTrans.after]
  unfold Slave.compiled? at h
  dsimp only at h
  split_ifs at h
  cases hreceive : ((s.hand x).openFile b .ucode).1.receive x.num x.data with
  | done u =>
    rw [hreceive] at h
    dsimp only at h
    split_ifs at h with hcomplete
    cases h
    exact ⟨rfl, hcomplete⟩
  | refused =>
    rw [hreceive] at h
    cases h
  | again =>
    rw [hreceive] at h
    cases h

/-- The program that runs is not in a buffer, so none was downloaded. -/
theorem Running.lastUcode (h : p.Running) (hptr : ∀ num, p.ucodePtr ≠ .buffer num) :
    p.lastUcode = none := by
  unfold Running at h
  cases hp : p.ucodePtr with
  | buffer num => exact absurd hp (hptr num)
  | default => rwa [hp] at h
  | flash => rwa [hp] at h

theorem running_of_lastUcode (hptr : ∀ num, p.ucodePtr ≠ .buffer num) (hlast : p.lastUcode = none) :
    p.Running := by
  unfold Running
  cases hp : p.ucodePtr with
  | buffer num => exact absurd hp (hptr num)
  | default => exact hlast
  | flash => exact hlast

/-- The program runs from a download's buffer after a frame only if it was compiled. -/
theorem Running.frame (h : p.Running) {f : DlFile} (hkeeps : p.Keeps (.frame f x)) :
    (p.frame b f x).Running := by
  by_cases hf : f = .ucode
  · subst hf
    have hptr := hkeeps rfl
    have hlast := h.lastUcode hptr
    unfold OnlinePlc.frame
    dsimp only
    cases hcompiled : (if DlFile.ucode = .ucode ∧ (p.slave.download b .ucode x).1 then
        p.slave.compiled? b x else none) with
    | none => exact running_of_lastUcode hptr hlast
    | some t =>
      split_ifs at hcompiled
      obtain ⟨hfile, hcomplete⟩ := compiled?_eq_some hcompiled
      refine ⟨rfl, t, _, hfile, hcomplete, rfl, ?_⟩
      rw [Buff.length_bytes]
  · unfold OnlinePlc.frame
    dsimp only
    rw [if_neg fun hok => hf hok.1]
    refine h.congr rfl (if_neg fun hnew => hf hnew.1) rfl ?_
    rw [Slave.download_files, Function.update_of_ne (Ne.symm hf)]

/-- An event that leaves the program in its buffer. -/
theorem Running.step (h : p.Running) {e : OnlineEvent ω} (hlegal : e.Legal p)
    (hkeeps : p.Keeps e) : (e.step b k p).Running := by
  cases e with
  | frame f x => exact h.frame hkeeps
  | programme m => exact running_of_lastUcode hkeeps (h.lastUcode hkeeps)
  | runCmd => exact h.congr rfl rfl rfl rfl
  | stopCmd => exact h.congr rfl rfl rfl rfl
  | turn => exact h.taskTurn hlegal.1
  | other s => exact h.congr rfl rfl rfl (hlegal.2 s rfl)

/-- What is used in an event that leaves the program in its buffer is good. -/
theorem Running.usesGood (h : p.Running) {e : OnlineEvent ω} (hlegal : e.Legal p)
    (hkeeps : p.Keeps e) : p.UsesGood b k e := by
  cases e with
  | frame f x =>
    rintro rfl -
    exact (running_of_lastUcode (p := p.opened b .ucode x) (hkeeps rfl)
      (h.lastUcode (hkeeps rfl))).good
  | turn =>
    have hswitch := h.sysStatusSwitch
    exact ⟨fun _ => (hswitch.prepared (sysStatusSwitch_online.trans hlegal.1)).good,
      fun _ => hswitch.good⟩
  | programme m => trivial
  | runCmd => trivial
  | stopCmd => trivial
  | other s => trivial

/-! ## Freed Buffers -/

/-- The loop over the files ends a complete `UCODE`, which comes first. -/
theorem programmeFiles_ucode (s : Slave ω) {t : FileTrans} (hfile : s.files .ucode = some t)
    (hcomplete : t.complete) : (Slave.programmeFiles b Slave.dlFiles s).1.files .ucode = none := by
  have hfilter : (s.files .ucode).filter FileTrans.complete = some t := by
    rw [hfile, filter_some, if_pos hcomplete]
  rw [Slave.dlFiles, Slave.programmeFiles, hfilter]
  dsimp only
  have hend : ∀ u : Slave ω, (u.setFile .ucode none).files .ucode = none := by
    simp [Slave.setFile]
  generalize s.programmeFile b .ucode t = r
  obtain ⟨u, _ | e⟩ := r
  · rcases Slave.programmeFiles_files (b := b) _ (u.setFile .ucode none) .ucode with h | h
    · exact h.trans (hend u)
    · exact h
  · exact hend u

/-- The programme command frees the buffer of a complete `UCODE`. -/
theorem programme_ucode (s : Slave ω) (m : MsgPack) {t : FileTrans}
    (hfile : s.files .ucode = some t) (hcomplete : t.complete) :
    (s.programme b m).files .ucode = none := by
  have hcmd : ∀ u : Slave ω, u.files .ucode = some t →
      (u.mbSlaveCtrlProgrammeCmd b m).files .ucode = none := by
    intro u hu
    have hloop := programmeFiles_ucode (b := b) u hu hcomplete
    unfold Slave.mbSlaveCtrlProgrammeCmd Slave.finishList
    generalize Slave.programmeFiles b Slave.dlFiles u = r at hloop ⊢
    obtain ⟨v, _ | e⟩ := r
    · exact hloop
    · dsimp only
      unfold Slave.mbSlaveErrorResp
      split_ifs <;> exact hloop
  unfold Slave.programme
  dsimp only
  split_ifs
  · exact hcmd _ hfile
  · exact hcmd _ hfile

/-- Where the program runs in its buffer, a frame of a `UCODE` allocates another. -/
theorem Running.opened_bufferNum (h : p.Running) {num : Nat} (hptr : p.ucodePtr = .buffer num) :
    (p.opened b .ucode x).bufferNum = num + 1 := by
  unfold Running at h
  rw [hptr] at h
  obtain ⟨hnum, t, xs, hfile, hcomplete, -⟩ := h
  have hunder : p.slave.underWay .ucode = none := by
    refine Slave.underWay_eq_none_iff.mpr fun u hu => ?_
    rw [hfile] at hu
    cases hu
    exact ⟨rfl, hcomplete⟩
  unfold opened
  rw [if_pos ⟨rfl, hunder⟩, hnum]

/-- A buffer that is not that of the transfer is gone. -/
theorem not_good_of_bufferNum {num : Nat} (hptr : p.ucodePtr = .buffer num)
    (hnum : p.bufferNum = num + 1) : ¬ p.Good b k := by
  rintro ⟨file, hfile, -⟩
  rw [denotes, hptr] at hfile
  dsimp only at hfile
  rw [if_neg (by omega)] at hfile
  cases hfile

/-- An event that does not leave the program in its buffer frees it. -/
theorem Running.not_good (h : p.Running) {e : OnlineEvent ω} (hkeeps : ¬ p.Keeps e) :
    ¬ (p.UsesGood b k e ∧ (e.step b k p).Good b k) := by
  rintro ⟨huses, hgood⟩
  cases e with
  | frame f x =>
    simp only [Keeps, not_forall, not_not] at hkeeps
    obtain ⟨rfl, num, hptr⟩ := hkeeps
    have hnum := h.opened_bufferNum (b := b) (x := x) hptr
    by_cases hcompiled : p.slave.compiled? b x = none
    · have hptr' : (p.frame b .ucode x).ucodePtr = .buffer num := by
        unfold OnlinePlc.frame
        dsimp only
        rw [hcompiled, ite_self]
        exact hptr
      have hnum' : (p.frame b .ucode x).bufferNum = num + 1 := by
        unfold OnlinePlc.frame
        dsimp only
        rw [hcompiled, ite_self]
        exact hnum
      exact not_good_of_bufferNum hptr' hnum' hgood
    · exact not_good_of_bufferNum (p := p.opened b .ucode x) hptr hnum (huses rfl hcompiled)
  | programme m =>
    simp only [Keeps, not_forall, not_not] at hkeeps
    obtain ⟨num, hptr⟩ := hkeeps
    unfold Running at h
    rw [hptr] at h
    obtain ⟨-, t, xs, hfile, hcomplete, -⟩ := h
    obtain ⟨file, hdenotes, -⟩ := hgood
    have hfreed := programme_ucode (b := b) p.slave m hfile hcomplete
    rw [denotes, OnlineEvent.step] at hdenotes
    rw [hptr, hfreed] at hdenotes
    simp at hdenotes
  | runCmd => exact hkeeps trivial
  | stopCmd => exact hkeeps trivial
  | turn => exact hkeeps trivial
  | other s => exact hkeeps trivial

end Events

end OnlinePlc

/-! ## Runs -/

/-- While the program may be changed, in a run that starts with the default program or that in the
flash memory, the pointer to the program is good after every event and whenever the program is
compiled or a scan is run, exactly if no frame of a `UCODE` and no programme command comes once a
downloaded program runs in its buffer. -/
theorem ucodePtr_run_iff {b : Board ω} {k : PlcParts ω} {p : OnlinePlc ω}
    (hptr : ∀ num, p.ucodePtr ≠ .buffer num) (hlast : p.lastUcode = none)
    {es : List (OnlineEvent ω)}
    (hlegal : Each (OnlineEvent.step b k) OnlineEvent.Legal p es) :
    Each (OnlineEvent.step b k)
        (fun p e => p.UsesGood b k e ∧ (e.step b k p).Good b k) p es ↔
      Each (OnlineEvent.step b k) OnlinePlc.Keeps p es := by
  refine Each.iff_of_invariant (OnlinePlc.running_of_lastUcode hptr hlast) hlegal ?_ ?_
  · intro q e hq hlegal
    constructor
    · exact fun h => by_contra fun hkeeps => hq.not_good hkeeps h
    · exact fun hkeeps => ⟨hq.usesGood hlegal hkeeps, (hq.step hlegal hkeeps).good⟩
  · exact fun q e hq hlegal hkeeps => hq.step hlegal hkeeps

/-- Parts that do nothing. -/
def idleParts : PlcParts Unit where
  ucodeDefault _ := 0
  freedBuffer _ := 0
  ucodeVerify _ := true
  prepare x := x
  prepare_online _ := rfl
  configure x := x
  start _ x := x
  runUserProgram _ x := x
  statusStop x := x
  statusRunToStop x := x
  refresh x := x

/-- A PLC that is stopped and whose program may be changed while it runs. -/
def stoppedPlc : OnlinePlc Unit where
  slave := { Slave.idle [] with store := { Slave.idleStore with isOnlineProgram := true } }
  runSwitch := false
  status := .stop
  inputPointRun := false
  ucodePtr := .flash
  bufferNum := 0
  lastUcode := none

/-- A `UCODE` and the list of its parts are downloaded, and the program is compiled and run. -/
theorem downloadedUcode_good :
    Each (OnlineEvent.step idleBoard idleParts)
      (fun p e => p.UsesGood idleBoard idleParts e ∧
        (e.step idleBoard idleParts p).Good idleBoard idleParts) stoppedPlc
      [.frame .ucode (Slave.dataFrame 0x5D 0xFE 0xAA),
        .frame .pouInfo (Slave.dataFrame 0x60 0xFE 0xBB), .turn, .turn] := by
  refine (ucodePtr_run_iff (fun num h => ?_) rfl ?_).mpr ?_
  · cases h
  · rw [Each.cons_iff, Each.cons_iff, Each.cons_iff, Each.cons_iff]
    refine ⟨⟨by decide, fun s h => ?_⟩, ⟨by decide, fun s h => ?_⟩, ⟨by decide, fun s h => ?_⟩,
      ⟨by decide, fun s h => ?_⟩, Each.nil⟩ <;> cases h
  · rw [Each.cons_iff, Each.cons_iff, Each.cons_iff, Each.cons_iff]
    refine ⟨fun _ num h => ?_, fun h => ?_, trivial, trivial, Each.nil⟩
    · cases h
    · cases h

/-- The programme command frees the buffer the program runs in, and starts the PLC. -/
theorem programmeCmd_frees_program : ¬ ∀ es : List (OnlineEvent Unit),
    Each (OnlineEvent.step idleBoard idleParts) OnlineEvent.Legal stoppedPlc es →
      Each (OnlineEvent.step idleBoard idleParts)
        (OnlinePlc.UsesGood idleBoard idleParts) stoppedPlc es := by
  intro h
  have hlegal : Each (OnlineEvent.step idleBoard idleParts) OnlineEvent.Legal stoppedPlc
      [.frame .ucode (Slave.dataFrame 0x5D 0xFE 0xAA), .programme (comMsg 5), .turn] := by
    rw [Each.cons_iff, Each.cons_iff, Each.cons_iff]
    refine ⟨⟨by decide, fun s h => ?_⟩, ⟨by decide, fun s h => ?_⟩, ⟨by decide, fun s h => ?_⟩,
      Each.nil⟩ <;> cases h
  have hall := h _ hlegal
  rw [Each.cons_iff, Each.cons_iff, Each.cons_iff] at hall
  obtain ⟨file, hfile, -⟩ := hall.2.2.1.1 (by decide)
  have hisSome := (congrArg isSome hfile).trans isSome_some
  exact absurd hisSome (by decide)

end Kalyke
