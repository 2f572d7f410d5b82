-- SUMMARY: The position `DRVA` and `DRVI` keep beside the pulses a channel puts out, over whole runs.
import Kalyke.Exec.CounterIns
import Kalyke.Highspeed.Ownership

/-!
# The position of a move

The interrupt counts half pulses in the record of the channel, and the owner copies them into the
position when it is executed. What is counted between the last copy and the end of the output is
not in the position, and is lost when the record is cleared.
-/

namespace Kalyke

open BitVec

/-- An instruction is executed, by which the target is a position or relative to it, the timer
interrupts, or other elements change. -/
inductive DriveEvent where
  | exec (absolute : Bool) (i : BodyInput)
  | tick
  | other (s : Store)

/-- The device, and of the last move the position before it, its direction, how many pulses it
takes, where it leads, the level and the pulses since it began, and whether it has come to its
end. -/
structure DriveRun where
  device : HspDevice
  base : BitVec 32
  forward : Bool
  goal : Nat
  target : BitVec 32
  train : PulseTrain
  finished : Bool

/-- Some pulses on from a position. -/
def moved (forward : Bool) (base : BitVec 32) (n : Nat) : BitVec 32 :=
  if forward then base + BitVec.ofNat 32 n else base - BitVec.ofNat 32 n

def driveKind (absolute : Bool) : DriveKind := if absolute then .drva else .drvi

namespace DriveRun

/-- A device that has gone from stop to run. -/
def start (ch : Nat) (t : Store) : DriveRun :=
  let d : HspDevice := (OwnerRun.start t).device.plcHSPInit
  ⟨d, d.position ch, true, 0, d.position ch, .start false, false⟩

variable (ch : Nat) (s : DriveRun)

def port : HspPort := s.device.ports ch

def position : BitVec 32 := s.device.position ch

def stopped : Bool := s.device.store.getBit (.elem .SM) (stopFlag ch)

/-- What an execution reads for the number of pulses or the target. -/
def operand (i : BodyInput) : BitVec 32 :=
  match i.dword 2 0 s.device.store with
  | .ok n => n
  | .error _ => 0

/-- The pulses of a move that would begin now, with their sign. -/
def pulses (absolute : Bool) (i : BodyInput) : BitVec 32 :=
  (driveKind absolute).pulses (s.operand i) (s.position ch)

def next : DriveEvent → DriveRun
  | .exec absolute i =>
    let device := (runCiDrvIns (driveKind absolute) i s.device).2
    if (s.port ch).info.hspStatus = .close ∧ (device.ports ch).info.hspStatus = .start then
      { device := device
        base := s.position ch
        forward := 0 < (s.pulses ch absolute i).toInt
        goal := (s.pulses ch absolute i).toInt.natAbs
        target := if absolute then s.operand i else s.position ch + s.operand i
        train := .start (device.ports ch).pin
        finished := false }
    else { s with device := device, train := s.train.drive (device.ports ch).pin }
  | .tick =>
    let device := s.device.irq ch
    { s with
      device := device
      train := s.train.drive (device.ports ch).pin
      finished := s.finished || (s.port ch).timer && !(device.ports ch).timer }
  | .other t => { s with device := { s.device with store := t } }

/-- While nothing is put out, the position is that before the move and the pulses since. No move
makes more pulses than it takes, and one that has come to its end has made them, and leads to its
target. -/
structure Good : Prop where
  position : (s.port ch).timer = false → s.position ch = moved s.forward s.base s.train.pulses
  pulses : s.train.pulses ≤ s.goal
  finished : s.finished = true →
    (s.port ch).timer = false ∧ s.train.pulses = s.goal ∧ s.position ch = s.target

end DriveRun

namespace DriveEvent

variable (ch : Nat) (s : DriveRun)

/-- The instruction is one on the channel. Nothing else changes the position. -/
def Legal : DriveEvent → Prop
  | exec _ i => PositionIns.OnChannel i.ucode i.pc ch .drvi
  | tick => True
  | other t => ({ s.device with store := t } : HspDevice).position ch = s.position ch

/-- After the event all is well. An output goes on that is not stopped, toggled by each interrupt,
until it comes to its end. -/
def Right (x : DriveEvent) : Prop :=
  let s' := s.next ch x
  s'.Good ch ∧ ((s.port ch).timer = true →
    match x with
    | exec _ i =>
      (PositionIns.edge i.ucode i.pc = (s.port ch).info.edgeID →
        getPowerFlow i.inPF = true ∧ s.stopped ch = false) → (s'.port ch).timer = true
    | tick => (s'.port ch).timer = true ∧ (s'.port ch).pin = !(s.port ch).pin ∨ s'.finished = true
    | other _ => (s'.port ch).timer = true)

/-- What the record tells is in the position, and no pulse is up, when an output is stopped. It is
in the position when an output comes to its end. No instruction has the mark of a free channel for
its edge number, and no move begins for which the number of pulses, doubled, is zero. -/
def Regular : DriveEvent → Prop
  | exec absolute i =>
    PositionIns.edge i.ucode i.pc ≠ hspFree ∧
      ((s.port ch).info.hspStatus = .close → s.pulses ch absolute i ≠ intMin 32) ∧
      ((s.port ch).timer = true → PositionIns.edge i.ucode i.pc = (s.port ch).info.edgeID →
        getPowerFlow i.inPF = false ∨ s.stopped ch = true →
          (s.port ch).pin = false ∧ s.position ch = s.device.counted ch)
  | tick =>
    (s.port ch).timer = true → ¬(s.port ch).info.outPulseCnt < (s.port ch).info.destPulseNum →
      s.position ch = s.device.counted ch
  | other _ => True

end DriveEvent

/-! ## What an execution does -/

/-- Two records that tell of the same move. -/
structure HspChannel.SameMove (c c' : HspChannel) : Prop where
  status : c'.hspStatus = c.hspStatus
  direction : c'.destDirection = c.destDirection
  dest : c'.destPulseNum = c.destPulseNum
  out : c'.outPulseCnt = c.outPulseCnt
  edge : c'.edgeID = c.edgeID
  location : c'.location = c.location

/-- A record in which a move by some pulses has begun. -/
structure HspChannel.Begun (n : BitVec 32) (c c' : HspChannel) : Prop where
  nonzero : n ≠ 0
  status : c'.hspStatus = .start
  direction : c'.destDirection = !n.slt 0
  dest : c'.destPulseNum = n.abs * 2
  out : c'.outPulseCnt = c.outPulseCnt
  edge : c'.edgeID = c.edgeID
  location : c'.location = c.location

theorem HspPort.Sound.off_of_close {p : HspPort} (h : p.Sound) (hclose : p.info.hspStatus = .close) :
    p.timer = false :=
  Bool.eq_false_iff.mpr fun htimer => h.status htimer hclose

theorem HspPort.Sound.low_of_off {p : HspPort} (h : p.Sound) (hoff : p.timer = false) :
    p.pin = false :=
  Bool.eq_false_iff.mpr fun hpin => nomatch hoff.symm.trans (h.pin hpin)

namespace HspDevice

variable {d : HspDevice} {ch dir : Nat} {i : BodyInput} {kind : DriveKind}

theorem sameMove_accelerate (c : HspChannel) : c.SameMove c.accelerate.brake := by
  unfold HspChannel.brake HspChannel.accelerate
  split <;> exact ⟨rfl, rfl, rfl, rfl, rfl, rfl⟩

theorem sameMove_begin (c : HspChannel) (freq : BitVec 32) (s : Store) :
    c.SameMove (c.begin freq s) := ⟨rfl, rfl, rfl, rfl, rfl, rfl⟩

/-- What `HSP_CLOSE` makes of the channel: nothing of the move changes, or it begins. -/
theorem driveBegin_cases :
    (∃ c, (d.driveBegin kind i ch dir).2.ports ch = { d.ports ch with info := c } ∧
      (d.ports ch).info.SameMove c) ∨
    ∃ operand c, i.dword 2 0 d.store = .ok operand ∧
      (d.driveBegin kind i ch dir).2.ports ch = { d.ports ch with info := c } ∧
      (d.ports ch).info.Begun (kind.pulses operand (d.ports ch).info.location) c := by
  have hsame : (d.ports ch).info.SameMove (d.ports ch).info := ⟨rfl, rfl, rfl, rfl, rfl, rfl⟩
  unfold driveBegin
  cases i.dword 8 0 d.store with
  | error e => exact .inl ⟨_, rfl, hsame⟩
  | ok freq =>
    dsimp only
    split
    · exact .inl ⟨_, rfl, hsame⟩
    · cases i.dword 2 0 d.store with
      | error e => exact .inl ⟨_, setInfo_ports, sameMove_begin ..⟩
      | ok operand =>
        dsimp only
        split
        · exact .inl ⟨_, setInfo_ports, sameMove_begin ..⟩
        · rename_i hzero
          exact .inr ⟨operand, _, rfl, setInfo_ports, hzero, rfl, rfl, rfl, rfl, rfl, rfl⟩

@[simp] theorem position_setPort {p : HspPort} : (d.setPort ch p).position ch = d.position ch := rfl

@[simp] theorem position_setInfo {c : HspChannel} :
    (d.setInfo ch c).position ch = d.position ch := rfl

@[simp] theorem position_setBusy {b : Bool} : (d.setBusy ch b).position ch = d.position ch := rfl

@[simp] theorem position_clearY {y : Nat} : (d.clearY y).position ch = d.position ch := rfl

@[simp] theorem position_release : (d.release ch).position ch = d.position ch := rfl

@[simp] theorem position_finish : (d.finish ch).position ch = d.position ch := rfl

/-- The position is not touched but by the copy. -/
theorem position_driveWork : (d.driveWork kind i ch dir).2.position ch = d.position ch := by
  unfold driveWork
  dsimp only
  cases (d.ports ch).info.hspStatus with
  | close =>
    simp only [driveBegin]
    split
    · rfl
    · split
      · rfl
      · split
        · rfl
        · split <;> rfl
  | start =>
    dsimp only
    split <;> rfl
  | on =>
    dsimp only
    split <;> rfl
  | _ => rfl

theorem position_refreshCurrentPosition :
    (d.refreshCurrentPosition ch).position ch = d.counted ch := by
  have hne : 90 + 2 * ch ≠ 90 + 2 * ch + 1 := by omega
  unfold position refreshCurrentPosition
  rw [getWord_setWord_self, getWord_setWord_of_ne hne, getWord_setWord_self]
  exact extractLsb'_append_extractLsb'

/-- A position that is what the record tells does not change. -/
theorem refreshCurrentPosition_self (h : d.position ch = d.counted ch) :
    d.refreshCurrentPosition ch = d := by
  unfold refreshCurrentPosition
  rw [← h]
  have hlow : (d.position ch).extractLsb' 0 16 = d.store.getWord (.elem .SD) (90 + 2 * ch) := by
    exact extractLsb'_append_eq_right
  have hhigh : (d.position ch).extractLsb' 16 16 =
      d.store.getWord (.elem .SD) (90 + 2 * ch + 1) := by
    exact extractLsb'_append_eq_left
  rw [hlow, hhigh, setWord_getWord, setWord_getWord]

/-- What the owner does to its channel: nothing of the move changes, or it begins, or the timer is
started, or the output has come to its end. -/
theorem driveWork_cases :
    (∃ c, (d.driveWork kind i ch dir).2.ports ch = { d.ports ch with info := c } ∧
      (d.ports ch).info.SameMove c) ∨
    ((d.ports ch).info.hspStatus = .close ∧
      ∃ operand c, i.dword 2 0 d.store = .ok operand ∧
        (d.driveWork kind i ch dir).2.ports ch = { d.ports ch with info := c } ∧
        (d.ports ch).info.Begun (kind.pulses operand (d.ports ch).info.location) c) ∨
    ((d.ports ch).info.hspStatus = .start ∧
      (d.driveWork kind i ch dir).2.ports ch =
        { d.ports ch with info :=
          { (d.ports ch).info with freqTick := i.now, hspStatus := .on } }.hspStart
          (d.ports ch).info.curFreq) ∨
    ((d.ports ch).info.hspStatus = .stop ∧
      (d.driveWork kind i ch dir).2.ports ch = (d.finish ch).ports ch) := by
  have hsame : (d.ports ch).info.SameMove (d.ports ch).info := ⟨rfl, rfl, rfl, rfl, rfl, rfl⟩
  cases hstatus : (d.ports ch).info.hspStatus with
  | close =>
    have hwork : d.driveWork kind i ch dir = d.driveBegin kind i ch dir := by
      simp only [driveWork, hstatus]
    rw [hwork]
    exact driveBegin_cases.imp_right fun h => .inl ⟨rfl, h⟩
  | start =>
    by_cases htick : 4 < i.now - (d.ports ch).info.freqTick
    · refine .inr (.inr (.inl ⟨rfl, ?_⟩))
      simp only [driveWork, hstatus, htick, if_true, setPort_ports]
    · refine .inl ⟨_, ?_, hsame⟩
      simp only [driveWork, hstatus, htick, if_false]
  | on =>
    by_cases htick : 20 ≤ i.now - (d.ports ch).info.freqTick
    · obtain ⟨h1, h2, h3, h4, h5, h6⟩ :=
        sameMove_accelerate { (d.ports ch).info with freqTick := i.now, hspStatus := .on }
      refine .inl ⟨_, ?_, h1.trans hstatus.symm, h2, h3, h4, h5, h6⟩
      simp only [driveWork, hstatus, htick, if_true, setInfo_ports]
    · refine .inl ⟨_, ?_, hsame⟩
      simp only [driveWork, hstatus, htick, if_false]
  | stop =>
    refine .inr (.inr (.inr ⟨rfl, ?_⟩))
    simp only [driveWork, hstatus, clearY_ports]
  | lowSpeed =>
    refine .inl ⟨_, ?_, hsame⟩
    simp only [driveWork, hstatus]
  | ended =>
    refine .inl ⟨_, ?_, hsame⟩
    simp only [driveWork, hstatus]

end HspDevice

/-! ## The invariant -/

namespace DriveRun

variable {ch : Nat} {s : DriveRun}

/-- The record tells of the last move, which is not at its end. -/
structure Underway (ch : Nat) (s : DriveRun) : Prop where
  owner : (s.port ch).info.edgeID ≠ hspFree
  goal : 0 < s.goal
  dest : (s.port ch).info.destPulseNum.toNat = 2 * s.goal
  out : (s.port ch).info.outPulseCnt.toNat ≤ 2 * s.goal
  direction : (s.port ch).info.destDirection = s.forward
  location : (s.port ch).info.location = s.base
  train : s.train = PulseTrain.toggle^[(s.port ch).info.outPulseCnt.toNat] (.start false)
  finished : s.finished = false

/-- While nothing is put out, an owner would copy the position that is there. -/
structure Inv (ch : Nat) (s : DriveRun) : Prop where
  good : s.Good ch
  level : s.train.level = (s.port ch).pin
  target : s.target = moved s.forward s.base s.goal
  sound : (s.port ch).Sound
  moving : (s.port ch).timer = true → (s.port ch).info.hspStatus = .on ∧ s.Underway ch
  starting : (s.port ch).info.hspStatus = .start →
    (s.port ch).info.outPulseCnt = 0 ∧ s.Underway ch
  closed : (s.port ch).info.hspStatus = .close → (s.port ch).info.outPulseCnt = 0
  synced : (s.port ch).timer = false → (s.port ch).info.edgeID ≠ hspFree →
    s.position ch = s.device.counted ch

theorem moved_zero (forward : Bool) (base : BitVec 32) : moved forward base 0 = base := by
  unfold moved
  split <;> simp

theorem counted_eq : s.device.counted ch =
    moved (s.port ch).info.destDirection (s.port ch).info.location
      ((s.port ch).info.outPulseCnt.toNat / 2) := by
  have hhalf : (s.port ch).info.outPulseCnt / 2 =
      BitVec.ofNat 32 ((s.port ch).info.outPulseCnt.toNat / 2) := by
    apply eq_of_toNat_eq
    rw [toNat_ofNat, Nat.mod_eq_of_lt (by omega)]
    rfl
  unfold moved
  rw [← hhalf]
  rfl

/-- The record of a move under way tells how far it is. -/
theorem Underway.counted (h : s.Underway ch) : s.device.counted ch =
    moved s.forward s.base ((s.port ch).info.outPulseCnt.toNat / 2) := by
  rw [counted_eq, h.direction, h.location]

/-- A state in which the record tells of the same move. -/
theorem Inv.of_sameMove {s' : DriveRun} {c : HspChannel} (hinv : s.Inv ch)
    (hport : s'.port ch = { s.port ch with info := c }) (hsame : (s.port ch).info.SameMove c)
    (hposition : (s.port ch).timer = false → s'.position ch = s.position ch)
    (hghost : s' = { s with device := s'.device }) : s'.Inv ch := by
  obtain ⟨d, rfl⟩ : ∃ d, s' = { s with device := d } := ⟨_, hghost⟩
  set s' : DriveRun := { s with device := d }
  have htimer : (s'.port ch).timer = (s.port ch).timer := by rw [hport]
  have hpin : (s'.port ch).pin = (s.port ch).pin := by rw [hport]
  have hstatus : (s'.port ch).info.hspStatus = (s.port ch).info.hspStatus := by
    rw [hport]
    exact hsame.status
  have hout : (s'.port ch).info.outPulseCnt = (s.port ch).info.outPulseCnt := by
    rw [hport]
    exact hsame.out
  have hedge : (s'.port ch).info.edgeID = (s.port ch).info.edgeID := by
    rw [hport]
    exact hsame.edge
  have hcounted : s'.device.counted ch = s.device.counted ch := by
    rw [counted_eq, counted_eq, hport, hsame.direction, hsame.location, hsame.out]
  have hunderway (h : s.Underway ch) : s'.Underway ch :=
    { owner := hedge ▸ h.owner
      goal := h.goal
      dest := by
        rw [hport, hsame.dest]
        exact h.dest
      out := hout ▸ h.out
      direction := by
        rw [hport, hsame.direction]
        exact h.direction
      location := by
        rw [hport, hsame.location]
        exact h.location
      train := hout ▸ h.train
      finished := h.finished }
  exact
    { good :=
        { position := fun h => (hposition (htimer ▸ h)).trans (hinv.good.position (htimer ▸ h))
          pulses := hinv.good.pulses
          finished := fun h => by
            obtain ⟨hoff, hpulses, hreached⟩ := hinv.good.finished h
            exact ⟨htimer.trans hoff, hpulses, (hposition hoff).trans hreached⟩ }
      level := hinv.level.trans hpin.symm
      target := hinv.target
      sound :=
        { status := htimer ▸ hstatus ▸ hinv.sound.status
          pin := hpin ▸ htimer ▸ hinv.sound.pin }
      moving := fun h => by
        obtain ⟨hon, hmove⟩ := hinv.moving (htimer ▸ h)
        exact ⟨hstatus.trans hon, hunderway hmove⟩
      starting := fun h => by
        obtain ⟨hzero, hmove⟩ := hinv.starting (hstatus ▸ h)
        exact ⟨hout.trans hzero, hunderway hmove⟩
      closed := fun h => hout.trans (hinv.closed (hstatus ▸ h))
      synced := fun hoff howner => by
        rw [hposition (htimer ▸ hoff), hcounted]
        exact hinv.synced (htimer ▸ hoff) (hedge ▸ howner) }

/-- A state in which nothing is put out or about to be, with the pulses and the position that were
there. -/
theorem Inv.of_off {s' : DriveRun} (hinv : s.Inv ch) (hlow : (s.port ch).pin = false)
    (hhere : s.position ch = moved s.forward s.base s.train.pulses)
    (hoff : (s'.port ch).timer = false) (hpin : (s'.port ch).pin = false)
    (hposition : s'.position ch = s.position ch)
    (hghost : s' = { s with device := s'.device, train := s.train.drive (s'.port ch).pin })
    (hstart : (s'.port ch).info.hspStatus ≠ .start)
    (hclosed : (s'.port ch).info.hspStatus = .close → (s'.port ch).info.outPulseCnt = 0)
    (hsynced : (s'.port ch).info.edgeID ≠ hspFree → s.position ch = s'.device.counted ch) :
    s'.Inv ch := by
  have htrain : s.train.drive (s'.port ch).pin = s.train := by
    rw [hpin, ← hlow, ← hinv.level, PulseTrain.drive_level]
  rw [htrain] at hghost
  obtain ⟨d, rfl⟩ : ∃ d, s' = { s with device := d } := ⟨_, hghost⟩
  exact
    { good :=
        { position := fun _ => hposition.trans hhere
          pulses := hinv.good.pulses
          finished := fun h => by
            obtain ⟨-, hpulses, hreached⟩ := hinv.good.finished h
            exact ⟨hoff, hpulses, hposition.trans hreached⟩ }
      level := hinv.level.trans (hlow.trans hpin.symm)
      target := hinv.target
      sound :=
        { status := fun h => nomatch hoff.symm.trans h
          pin := fun h => nomatch hpin.symm.trans h }
      moving := fun h => nomatch hoff.symm.trans h
      starting := fun h => absurd h hstart
      closed := hclosed
      synced := fun _ howner => hposition.trans (hsynced howner) }

/-! ## The interrupt -/

theorem next_tick_port : (s.next ch .tick).port ch =
    ((s.port ch).irq (s.device.store.getBit (.elem .SM) (busyFlag ch))).1 := by
  simp only [port, next, HspDevice.irq, HspDevice.setBusy_ports, HspDevice.setPort_ports]

theorem Underway.dest_ne_zero (h : s.Underway ch) : (s.port ch).info.destPulseNum ≠ 0 := by
  intro hzero
  have hdest := h.dest
  have hgoal := h.goal
  rw [hzero] at hdest
  simp at hdest
  omega

/-- The output is toggled, with a pulse for every second time. -/
theorem Inv.toggled {s' : DriveRun} (hinv : s.Inv ch) (htimer : (s.port ch).timer = true)
    (hless : (s.port ch).info.outPulseCnt < (s.port ch).info.destPulseNum)
    (hport : s'.port ch =
      { s.port ch with
        pin := !(s.port ch).pin
        info := { (s.port ch).info with outPulseCnt := (s.port ch).info.outPulseCnt + 1 } })
    (hghost : s' = { s with device := s'.device, train := s.train.drive (s'.port ch).pin }) :
    s'.Inv ch := by
  obtain ⟨hstatus, hunderway⟩ := hinv.moving htimer
  have hdest := hunderway.dest
  rw [lt_def] at hless
  have hsucc : ((s.port ch).info.outPulseCnt + 1).toNat =
      (s.port ch).info.outPulseCnt.toNat + 1 := by
    exact Nat.mod_eq_of_lt (by simp; omega)
  have hout : (s'.port ch).info.outPulseCnt.toNat = (s.port ch).info.outPulseCnt.toNat + 1 := by
    rw [hport]
    exact hsucc
  have htoggle : s.train.drive (s'.port ch).pin = s.train.toggle := by
    rw [PulseTrain.toggle, hinv.level, hport]
  have hlevel : s'.train.level = (s'.port ch).pin := by
    rw [hghost]
    exact PulseTrain.level_drive
  rw [htoggle] at hghost
  obtain ⟨d, rfl⟩ : ∃ d, s' = { s with device := d, train := s.train.toggle } := ⟨_, hghost⟩
  set s' : DriveRun := { s with device := d, train := s.train.toggle }
  have htrain : s'.train =
      PulseTrain.toggle^[(s'.port ch).info.outPulseCnt.toNat] (.start false) := by
    change s.train.toggle = _
    rw [hunderway.train, hout, Function.iterate_succ_apply']
  have hon : (s'.port ch).timer = true := by
    rw [hport]
    exact htimer
  have hstatus' : (s'.port ch).info.hspStatus = .on := by
    rw [hport]
    exact hstatus
  have hmost : (s'.port ch).info.outPulseCnt.toNat ≤ 2 * s.goal := by omega
  have hunderway' : s'.Underway ch :=
    { owner := by
        rw [hport]
        exact hunderway.owner
      goal := hunderway.goal
      dest := by
        rw [hport]
        exact hdest
      out := hmost
      direction := by
        rw [hport]
        exact hunderway.direction
      location := by
        rw [hport]
        exact hunderway.location
      train := htrain
      finished := hunderway.finished }
  exact
    { good :=
        { position := fun h => by cases hon.symm.trans h
          pulses := by
            have hbound := PulseTrain.pulses_le false (s'.port ch).info.outPulseCnt.toNat
            rw [htrain]
            exact Nat.le_trans hbound (show _ / 2 ≤ s.goal by omega)
          finished := fun h => by cases hunderway.finished.symm.trans h }
      level := hlevel
      target := hinv.target
      sound :=
        { status := fun _ h => by cases hstatus'.symm.trans h
          pin := fun _ => hon }
      moving := fun _ => ⟨hstatus', hunderway'⟩
      starting := fun h => by cases hstatus'.symm.trans h
      closed := fun h => by cases hstatus'.symm.trans h
      synced := fun h => by cases hon.symm.trans h }

/-- The last interrupt of a move, with what the record tells already in the position. -/
theorem Inv.ends {s' : DriveRun} (hinv : s.Inv ch) (htimer : (s.port ch).timer = true)
    (hend : ¬(s.port ch).info.outPulseCnt < (s.port ch).info.destPulseNum)
    (hcopied : s.position ch = s.device.counted ch)
    (hport : s'.port ch =
      { timer := false
        pin := false
        info :=
          { (s.port ch).info with
            outPulseCnt := (s.port ch).info.outPulseCnt + 1
            hspStatus := .stop } })
    (hposition : s'.position ch = s.position ch)
    (hghost : s' =
      { s with device := s'.device, train := s.train.drive false, finished := true }) :
    s'.Inv ch := by
  obtain ⟨hstatus, hunderway⟩ := hinv.moving htimer
  have hdest := hunderway.dest
  rw [lt_def] at hend
  have hout : (s.port ch).info.outPulseCnt.toNat = 2 * s.goal :=
    Nat.le_antisymm hunderway.out (by omega)
  have hpulses : (s.train.drive false).pulses = s.goal := by
    rw [hunderway.train, hout]
    exact PulseTrain.pulses_even_drive false s.goal
  have hhere : s'.position ch = moved s.forward s.base s.goal := by
    rw [hposition, hcopied, hunderway.counted, hout, Nat.mul_div_cancel_left _ Nat.two_pos]
  have hoff : (s'.port ch).timer = false := by rw [hport]
  have hpin : (s'.port ch).pin = false := by rw [hport]
  have hstatus' : (s'.port ch).info.hspStatus = .stop := by rw [hport]
  have hcounted : s'.device.counted ch = moved s.forward s.base s.goal := by
    have hsucc : ((s.port ch).info.outPulseCnt + 1).toNat = 2 * s.goal + 1 := by
      rw [toNat_add, hout]
      exact Nat.mod_eq_of_lt (by simp; omega)
    have hhalf : (2 * s.goal + 1) / 2 = s.goal := by omega
    rw [counted_eq, hport]
    rw [hsucc, hhalf, hunderway.direction, hunderway.location]
  obtain ⟨d, rfl⟩ : ∃ d, s' = { s with device := d, train := s.train.drive false, finished := true } :=
    ⟨_, hghost⟩
  exact
    { good :=
        { position := fun _ => hhere.trans (congrArg (moved s.forward s.base) hpulses.symm)
          pulses := Nat.le_of_eq hpulses
          finished := fun _ => ⟨hoff, hpulses, hhere.trans hinv.target.symm⟩ }
      level := PulseTrain.level_drive.trans hpin.symm
      target := hinv.target
      sound :=
        { status := fun h => nomatch hoff.symm.trans h
          pin := fun h => nomatch hpin.symm.trans h }
      moving := fun h => nomatch hoff.symm.trans h
      starting := fun h => nomatch hstatus'.symm.trans h
      closed := fun h => nomatch hstatus'.symm.trans h
      synced := fun _ _ => hhere.trans hcounted.symm }

theorem Inv.tick (hinv : s.Inv ch) (hregular : DriveEvent.tick.Regular ch s) :
    DriveEvent.tick.Right ch s ∧ (s.next ch .tick).Inv ch := by
  have hport : (s.next ch .tick).port ch =
      ((s.port ch).irq (s.device.store.getBit (.elem .SM) (busyFlag ch))).1 := next_tick_port
  have hghost : s.next ch .tick =
      { s with
        device := (s.next ch .tick).device
        train := s.train.drive ((s.next ch .tick).port ch).pin
        finished := s.finished || (s.port ch).timer && !((s.next ch .tick).port ch).timer } := rfl
  cases htimer : (s.port ch).timer with
  | false =>
    rw [HspDevice.irq_off htimer] at hport
    rw [hport, ← hinv.level, PulseTrain.drive_level, htimer, Bool.false_and, Bool.or_false] at hghost
    have hnext := hinv.of_sameMove (c := (s.port ch).info) hport ⟨rfl, rfl, rfl, rfl, rfl, rfl⟩
      (fun _ => rfl) hghost
    exact ⟨⟨hnext.good, (fun h => nomatch htimer.symm.trans h)⟩, hnext⟩
  | true =>
    obtain ⟨hstatus, hunderway⟩ := hinv.moving htimer
    rw [HspPort.irq, if_pos htimer, if_pos hunderway.dest_ne_zero] at hport
    by_cases hless : (s.port ch).info.outPulseCnt < (s.port ch).info.destPulseNum
    · rw [if_pos hless] at hport
      have hon : ((s.next ch .tick).port ch).timer = true := by
        rw [hport]
        exact htimer
      rw [hon, Bool.not_true, Bool.and_false, Bool.or_false] at hghost
      have hnext := hinv.toggled htimer hless hport hghost
      refine ⟨⟨hnext.good, fun _ => .inl ⟨hon, ?_⟩⟩, hnext⟩
      rw [hport]
    · rw [if_neg hless] at hport
      have hoff : ((s.next ch .tick).port ch).timer = false := by rw [hport]
      have hpin : ((s.next ch .tick).port ch).pin = false := by rw [hport]
      rw [hpin, hoff, htimer, Bool.not_false, Bool.and_true, Bool.or_true] at hghost
      have hnext := hinv.ends htimer hless (hregular htimer hless) hport rfl hghost
      have hend : (s.next ch .tick).finished = true := by rw [hghost]
      exact ⟨⟨hnext.good, fun _ => .inr hend⟩, hnext⟩

/-! ## The instruction -/

/-- A move begins with the execution. -/
def Begins (ch : Nat) (s : DriveRun) (absolute : Bool) (i : BodyInput) : Prop :=
  (s.port ch).info.hspStatus = .close ∧
    ((s.next ch (.exec absolute i)).port ch).info.hspStatus = .start

theorem next_exec_of_not_begins {absolute : Bool} {i : BodyInput} (h : ¬ s.Begins ch absolute i) :
    s.next ch (.exec absolute i) =
      { s with
        device := (s.next ch (.exec absolute i)).device
        train := s.train.drive ((s.next ch (.exec absolute i)).port ch).pin } := by
  by_cases hbegins : (s.port ch).info.hspStatus = .close ∧
    ((runCiDrvIns (driveKind absolute) i s.device).2.ports ch).info.hspStatus = .start
  · refine absurd ⟨hbegins.1, ?_⟩ h
    simp only [next, hbegins]
    exact hbegins.2
  · have hnext : s.next ch (.exec absolute i) =
        { s with
          device := (runCiDrvIns (driveKind absolute) i s.device).2
          train := s.train.drive
            ((runCiDrvIns (driveKind absolute) i s.device).2.ports ch).pin } := if_neg hbegins
    rw [hnext]
    rfl

/-- The owner of the channel loses it, with what the record tells already in the position. -/
theorem Inv.released {s' : DriveRun} (hinv : s.Inv ch)
    (hcopied : (s.port ch).timer = true →
      (s.port ch).pin = false ∧ s.position ch = s.device.counted ch)
    (hport : s'.port ch = (s.port ch).hspStop.free) (hposition : s'.position ch = s.position ch)
    (hghost : s' = { s with device := s'.device, train := s.train.drive (s'.port ch).pin }) :
    s'.Inv ch := by
  have hlow : (s.port ch).pin = false := by
    cases htimer : (s.port ch).timer with
    | true => exact (hcopied htimer).1
    | false => exact hinv.sound.low_of_off htimer
  have hhere : s.position ch = moved s.forward s.base s.train.pulses := by
    cases htimer : (s.port ch).timer with
    | false => exact hinv.good.position htimer
    | true =>
      obtain ⟨-, hunderway⟩ := hinv.moving htimer
      have hlevel : s.train.level = false := hinv.level.trans hlow
      rw [(hcopied htimer).2, hunderway.counted]
      rw [hunderway.train] at hlevel ⊢
      rw [(PulseTrain.pulses_of_low hlevel).1]
  have hedge : (s'.port ch).info.edgeID = hspFree := by
    rw [hport]
    rfl
  refine hinv.of_off hlow hhere ?_ ?_ hposition hghost ?_ ?_ fun howner => absurd hedge howner
  · rw [hport]
    rfl
  · rw [hport]
    rfl
  · rw [hport]
    exact nofun
  · rw [hport]
    exact fun _ => rfl

/-- An instruction gets the channel. -/
theorem Inv.acquired {s' : DriveRun} {orderID edge : Nat} (hinv : s.Inv ch)
    (hfree : (s.port ch).info.edgeID = hspFree)
    (hport : s'.port ch =
      { s.port ch with
        info :=
          { HspChannel.zero with
            location := s.position ch
            orderID := orderID
            edgeID := edge } })
    (hposition : s'.position ch = s.position ch)
    (hghost : s' = { s with device := s'.device, train := s.train.drive (s'.port ch).pin }) :
    s'.Inv ch := by
  have htimer : (s.port ch).timer = false :=
    Bool.eq_false_iff.mpr fun h => (hinv.moving h).2.owner hfree
  have hlow := hinv.sound.low_of_off htimer
  refine hinv.of_off hlow (hinv.good.position htimer) ?_ ?_ hposition hghost ?_ ?_ fun _ => ?_
  · rw [hport]
    exact htimer
  · rw [hport]
    exact hlow
  · rw [hport]
    exact nofun
  · rw [hport]
    exact fun _ => rfl
  · rw [counted_eq, hport]
    show s.position ch = moved false (s.position ch) ((0 : BitVec 32).toNat / 2)
    exact (moved_zero _ _).symm

/-- The output of a move has come to its end, and the owner closes it. -/
theorem Inv.ended {s' : DriveRun} (hinv : s.Inv ch) (hstop : (s.port ch).info.hspStatus = .stop)
    (hport : s'.port ch =
      { (s.port ch).hspStop with info := { (s.port ch).info with hspStatus := .ended } })
    (hposition : s'.position ch = s.position ch)
    (hghost : s' = { s with device := s'.device, train := s.train.drive (s'.port ch).pin }) :
    s'.Inv ch := by
  have htimer : (s.port ch).timer = false :=
    Bool.eq_false_iff.mpr fun h => nomatch hstop.symm.trans (hinv.moving h).1
  refine hinv.of_off (hinv.sound.low_of_off htimer) (hinv.good.position htimer) ?_ ?_ hposition
    hghost ?_ ?_ fun howner => ?_
  · rw [hport]
    rfl
  · rw [hport]
    rfl
  · rw [hport]
    exact nofun
  · rw [hport]
    exact nofun
  · rw [hport] at howner
    rw [hinv.synced htimer howner, counted_eq, counted_eq, hport]

theorem Inv.timed {s' : DriveRun} {c : HspChannel} (hinv : s.Inv ch)
    (hstart : (s.port ch).info.hspStatus = .start) (hon : c.hspStatus = .on)
    (hport : s'.port ch = { s.port ch with info := c, timer := true })
    (hdirection : c.destDirection = (s.port ch).info.destDirection)
    (hdest : c.destPulseNum = (s.port ch).info.destPulseNum) (hout : c.outPulseCnt = 0)
    (hedge : c.edgeID = (s.port ch).info.edgeID) (hlocation : c.location = (s.port ch).info.location)
    (hghost : s' = { s with device := s'.device, train := s.train.drive (s'.port ch).pin }) :
    s'.Inv ch := by
  obtain ⟨hzero, hunderway⟩ := hinv.starting hstart
  have hpin : (s'.port ch).pin = (s.port ch).pin := by rw [hport]
  rw [hpin, ← hinv.level, PulseTrain.drive_level] at hghost
  obtain ⟨d, rfl⟩ : ∃ d, s' = { s with device := d } := ⟨_, hghost⟩
  set s' : DriveRun := { s with device := d }
  have htimer : (s'.port ch).timer = true := by rw [hport]
  have hstatus : (s'.port ch).info.hspStatus = .on := by
    rw [hport]
    exact hon
  have hunderway' : s'.Underway ch :=
    { owner := by
        rw [hport, hedge]
        exact hunderway.owner
      goal := hunderway.goal
      dest := by
        rw [hport, hdest]
        exact hunderway.dest
      out := by
        rw [hport, hout]
        exact Nat.zero_le _
      direction := by
        rw [hport, hdirection]
        exact hunderway.direction
      location := by
        rw [hport, hlocation]
        exact hunderway.location
      train := by
        rw [hport, hout, ← hzero]
        exact hunderway.train
      finished := hunderway.finished }
  exact
    { good :=
        { position := fun h => nomatch htimer.symm.trans h
          pulses := hinv.good.pulses
          finished := fun h => nomatch hunderway.finished.symm.trans h }
      level := hinv.level.trans hpin.symm
      target := hinv.target
      sound :=
        { status := fun _ h => nomatch hstatus.symm.trans h
          pin := fun _ => htimer }
      moving := fun _ => ⟨hstatus, hunderway'⟩
      starting := fun h => nomatch hstatus.symm.trans h
      closed := fun h => nomatch hstatus.symm.trans h
      synced := fun h => nomatch htimer.symm.trans h }

/-! ## Moves that begin -/

/-- A number and the direction of its sign lead as far as the number itself. -/
theorem moved_natAbs (base n : BitVec 32) :
    moved (0 < n.toInt) base n.toInt.natAbs = base + n := by
  have hn : n = BitVec.ofInt 32 n.toInt := (ofInt_toInt).symm
  by_cases hpos : 0 < n.toInt
  · have habs : (n.toInt.natAbs : Int) = n.toInt := Int.natAbs_of_nonneg (Int.le_of_lt hpos)
    rw [moved, decide_eq_true hpos, if_pos rfl, ← ofInt_natCast, habs, ← hn]
  · have habs : (n.toInt.natAbs : Int) = -n.toInt := by omega
    rw [moved, decide_eq_false hpos, if_neg Bool.false_ne_true, ← ofInt_natCast, habs,
      ofInt_neg, ← hn, BitVec.sub_eq_add_neg, BitVec.neg_neg]

theorem pos_toInt_eq {n : BitVec 32} (h : n ≠ 0) : decide (0 < n.toInt) = !n.slt 0 := by
  have hzero : n.toInt ≠ 0 := fun hz => h (eq_of_toInt_eq (hz.trans rfl))
  have hiff : 0 < n.toInt ↔ ¬n.toInt < (0 : BitVec 32).toInt := by
    rw [show (0 : BitVec 32).toInt = 0 from rfl]
    omega
  rw [slt_eq_decide, ← decide_not]
  exact decide_eq_decide.mpr hiff

theorem toNat_double_abs {n : BitVec 32} (h : n ≠ intMin 32) :
    (n.abs * 2).toNat = 2 * n.toInt.natAbs := by
  have habs := toInt_abs_eq_natAbs_of_ne_intMin h
  have hlt : n.abs.toInt < 2 ^ 31 := toInt_lt
  have hnat : n.abs.toNat = n.toInt.natAbs := by
    rw [toInt_eq_toNat_cond] at habs
    split at habs <;> omega
  rw [toNat_mul, hnat]
  simp
  omega

theorem Inv.begins {s' : DriveRun} {c : HspChannel} {absolute : Bool} {operand n : BitVec 32}
    (hinv : s.Inv ch) (howner : (s.port ch).info.edgeID ≠ hspFree)
    (hclose : (s.port ch).info.hspStatus = .close)
    (hn : n = (driveKind absolute).pulses operand (s.position ch))
    (hmin : n ≠ intMin 32) (hport : s'.port ch = { s.port ch with info := c })
    (hbegun : (s.port ch).info.Begun n c) (hlocation : (s.port ch).info.location = s.position ch)
    (hposition : s'.position ch = s.position ch)
    (hghost : s' =
      { device := s'.device
        base := s.position ch
        forward := 0 < n.toInt
        goal := n.toInt.natAbs
        target := if absolute then operand else s.position ch + operand
        train := .start (s'.port ch).pin
        finished := false }) : s'.Inv ch := by
  have hoff : (s.port ch).timer = false := hinv.sound.off_of_close hclose
  have htimer : (s'.port ch).timer = false := by
    rw [hport]
    exact hoff
  have hpin : (s'.port ch).pin = false := by
    rw [hport]
    exact hinv.sound.low_of_off hoff
  have hstatus : (s'.port ch).info.hspStatus = .start := by
    rw [hport]
    exact hbegun.status
  have hout : (s'.port ch).info.outPulseCnt = 0 := by
    rw [hport]
    exact hbegun.out.trans (hinv.closed hclose)
  rw [hpin] at hghost
  obtain ⟨d, rfl⟩ : ∃ d, s' = ⟨d, s.position ch, 0 < n.toInt, n.toInt.natAbs,
    if absolute then operand else s.position ch + operand, .start false, false⟩ := ⟨_, hghost⟩
  set s' : DriveRun := ⟨d, s.position ch, 0 < n.toInt, n.toInt.natAbs,
    if absolute then operand else s.position ch + operand, .start false, false⟩
  have hunderway : s'.Underway ch :=
    { owner := by
        rw [hport, hbegun.edge]
        exact howner
      goal := Int.natAbs_pos.mpr fun hz => hbegun.nonzero (eq_of_toInt_eq (hz.trans rfl))
      dest := by
        rw [hport, hbegun.dest]
        exact toNat_double_abs hmin
      out := by
        rw [hout]
        exact Nat.zero_le _
      direction := by
        rw [hport, hbegun.direction]
        exact (pos_toInt_eq hbegun.nonzero).symm
      location := by
        rw [hport, hbegun.location]
        exact hlocation
      train := by
        rw [hout]
        rfl
      finished := rfl }
  exact
    { good :=
        { position := fun _ => hposition.trans (moved_zero _ _).symm
          pulses := Nat.zero_le _
          finished := nofun }
      level := hpin.symm
      target := by
        rw [moved_natAbs, hn]
        cases absolute with
        | false => rfl
        | true =>
          show operand = s.position ch + (operand - s.position ch)
          rw [BitVec.add_comm, BitVec.sub_add_cancel]
      sound :=
        { status := fun h => nomatch htimer.symm.trans h
          pin := fun h => nomatch hpin.symm.trans h }
      moving := fun h => nomatch htimer.symm.trans h
      starting := fun _ => ⟨hout, hunderway⟩
      closed := fun h => nomatch hstatus.symm.trans h
      synced := fun _ _ => by
        rw [hunderway.counted, hout]
        exact hposition.trans (moved_zero _ _).symm }

/-! ## Executions -/

theorem next_exec_device {absolute : Bool} {i : BodyInput} :
    (s.next ch (.exec absolute i)).device =
      (runCiDrvIns (driveKind absolute) i s.device).2 := by
  simp only [next]
  split <;> rfl

theorem Inv.synced_location (hinv : s.Inv ch) (howner : (s.port ch).info.edgeID ≠ hspFree)
    (hclose : (s.port ch).info.hspStatus = .close) :
    (s.port ch).info.location = s.position ch := by
  rw [hinv.synced (hinv.sound.off_of_close hclose) howner, counted_eq, hinv.closed hclose]
  exact (moved_zero _ _).symm

/-- The owner goes on. -/
theorem Inv.works {absolute : Bool} {i : BodyInput} {dir : Nat} (hinv : s.Inv ch)
    (howner : (s.port ch).info.edgeID ≠ hspFree)
    (hmin : (s.port ch).info.hspStatus = .close → s.pulses ch absolute i ≠ intMin 32)
    (hdevice : (s.next ch (.exec absolute i)).device =
      ((s.device.refreshCurrentPosition ch).driveWork (driveKind absolute) i ch dir).2) :
    (s.next ch (.exec absolute i)).Inv ch ∧
      ((s.port ch).timer = true → ((s.next ch (.exec absolute i)).port ch).timer = true) := by
  have hport : (s.next ch (.exec absolute i)).port ch =
      ((s.device.refreshCurrentPosition ch).driveWork (driveKind absolute) i ch dir).2.ports ch := by
    rw [port, hdevice]
  have hcases := @HspDevice.driveWork_cases (s.device.refreshCurrentPosition ch) ch dir i
    (driveKind absolute)
  rw [← hport, HspDevice.refreshCurrentPosition_ports] at hcases
  have hghost := @next_exec_of_not_begins ch s absolute i
  have hposition (htimer : (s.port ch).timer = false) :
      (s.next ch (.exec absolute i)).position ch = s.position ch := by
    rw [position, hdevice, HspDevice.position_driveWork,
      HspDevice.refreshCurrentPosition_self (hinv.synced htimer howner)]
    rfl
  rcases hcases with ⟨c, hc, hsame⟩ | ⟨hclose, operand, c, hread, hc, hbegun⟩ |
      ⟨hstart, hc⟩ | ⟨hstop, hc⟩
  · have hnot : ¬ s.Begins ch absolute i := by
      rintro ⟨hclose, hstart⟩
      rw [hc] at hstart
      exact nomatch (hsame.status.trans hclose).symm.trans hstart
    have hnext := hghost hnot
    have hpin : ((s.next ch (.exec absolute i)).port ch).pin = (s.port ch).pin := by
      rw [hc]
      rfl
    rw [hpin, ← hinv.level, PulseTrain.drive_level] at hnext
    refine ⟨hinv.of_sameMove hc hsame hposition hnext, fun h => ?_⟩
    rw [hc]
    exact h
  · have htimer := hinv.sound.off_of_close hclose
    have hlocation : (s.port ch).info.location = s.position ch :=
      hinv.synced_location howner hclose
    rw [show (s.device.ports ch).info.location = s.position ch from hlocation] at hbegun
    rw [HspDevice.refreshCurrentPosition_self (hinv.synced htimer howner)] at hread
    have hoperand : s.operand i = operand := by
      rw [DriveRun.operand, hread]
    have hpulses : s.pulses ch absolute i = (driveKind absolute).pulses operand (s.position ch) := by
      rw [pulses, hoperand]
    have hbegins : s.Begins ch absolute i := by
      refine ⟨hclose, ?_⟩
      rw [hc]
      exact hbegun.status
    have hnext : s.next ch (.exec absolute i) =
        { device := (s.next ch (.exec absolute i)).device
          base := s.position ch
          forward := 0 < (s.pulses ch absolute i).toInt
          goal := (s.pulses ch absolute i).toInt.natAbs
          target := if absolute then operand else s.position ch + operand
          train := .start ((s.next ch (.exec absolute i)).port ch).pin
          finished := false } := by
      rw [Begins, port, port, next_exec_device] at hbegins
      have hif : s.next ch (.exec absolute i) = _ := if_pos hbegins
      rw [port, hif, hoperand]
    rw [← hpulses] at hbegun
    refine ⟨hinv.begins howner hclose hpulses (hmin hclose) hc hbegun hlocation (hposition htimer)
      hnext, fun h => ?_⟩
    exact nomatch htimer.symm.trans h
  · have hnot : ¬ s.Begins ch absolute i := fun h => nomatch h.1.symm.trans hstart
    refine ⟨hinv.timed hstart ?_ hc ?_ ?_ ?_ ?_ ?_ (hghost hnot), fun _ => ?_⟩
    · rfl
    · rfl
    · rfl
    · rfl
    · rfl
    · rfl
    · rw [hc]
      rfl
  · have hnot : ¬ s.Begins ch absolute i := fun h => nomatch h.1.symm.trans hstop
    have htimer : (s.port ch).timer = false :=
      Bool.eq_false_iff.mpr fun h => nomatch hstop.symm.trans (hinv.moving h).1
    rw [HspDevice.finish_ports] at hc
    refine ⟨hinv.ended hstop hc (hposition htimer) (hghost hnot), fun h => ?_⟩
    exact nomatch htimer.symm.trans h

/-- The channel and the position stay as they are. -/
theorem Inv.of_same {s' : DriveRun} (hinv : s.Inv ch) (hport : s'.port ch = s.port ch)
    (hposition : s'.position ch = s.position ch) (hghost : s' = { s with device := s'.device }) :
    s'.Inv ch :=
  hinv.of_sameMove (c := (s.port ch).info) hport ⟨rfl, rfl, rfl, rfl, rfl, rfl⟩
    (fun _ => hposition) hghost

theorem Inv.exec {absolute : Bool} {i : BodyInput} (hinv : s.Inv ch)
    (hlegal : (DriveEvent.exec absolute i).Legal ch s)
    (hregular : (DriveEvent.exec absolute i).Regular ch s) :
    (DriveEvent.exec absolute i).Right ch s ∧ (s.next ch (.exec absolute i)).Inv ch := by
  obtain ⟨hbelow, hmin, hstops⟩ := hregular
  obtain ⟨dir, hrun⟩ := runCiDrvIns_eq (driveKind absolute) hlegal
  have hdevice := @next_exec_device ch s absolute i
  rw [hrun s.device] at hdevice
  have hghost := @next_exec_of_not_begins ch s absolute i
  by_cases howner : (s.port ch).info.edgeID = PositionIns.edge i.ucode i.pc
  · have hne : (s.port ch).info.edgeID ≠ hspFree := fun h => hbelow (howner.symm.trans h)
    by_cases hgoes : getPowerFlow i.inPF = true ∧ s.stopped ch = false
    · have hwork : (s.next ch (.exec absolute i)).device =
          ((s.device.refreshCurrentPosition ch).driveWork (driveKind absolute) i ch dir).2 := by
        have hgo : ¬s.device.store.getBit (.elem .SM) (stopFlag ch) = true :=
          Bool.eq_false_iff.mp hgoes.2
        rw [hdevice, HspDevice.owned, if_pos ⟨hgoes.1, howner⟩, if_neg hgo]
      obtain ⟨hnext, htimer⟩ := hinv.works hne hmin hwork
      exact ⟨⟨hnext.good, fun h _ => htimer h⟩, hnext⟩
    · have hreleased : (s.next ch (.exec absolute i)).port ch = (s.port ch).hspStop.free ∧
          (s.next ch (.exec absolute i)).position ch = s.position ch := by
        rw [port, position, hdevice, HspDevice.owned]
        cases hflow : getPowerFlow i.inPF with
        | true =>
          have hstop : s.device.store.getBit (.elem .SM) (stopFlag ch) = true :=
            Bool.not_eq_false _ ▸ fun h => hgoes ⟨hflow, h⟩
          rw [if_pos ⟨rfl, howner⟩, if_pos hstop]
          exact ⟨HspDevice.release_ports, rfl⟩
        | false =>
          rw [if_neg (fun h => Bool.false_ne_true h.1), if_neg (fun h => Bool.false_ne_true h.1),
            if_pos ⟨rfl, howner⟩]
          exact ⟨HspDevice.release_ports, rfl⟩
      have hcopied (htimer : (s.port ch).timer = true) :
          (s.port ch).pin = false ∧ s.position ch = s.device.counted ch := by
        refine hstops htimer howner.symm ?_
        cases hflow : getPowerFlow i.inPF with
        | true =>
          cases hstop : s.stopped ch with
          | true => exact .inr rfl
          | false => exact absurd ⟨hflow, hstop⟩ hgoes
        | false => exact .inl rfl
      have hnot : ¬ s.Begins ch absolute i := by
        rw [Begins, hreleased.1]
        rintro ⟨-, h⟩
        cases h
      have hnext := hinv.released hcopied hreleased.1 hreleased.2 (hghost hnot)
      exact ⟨⟨hnext.good, fun _ h => absurd (h howner.symm) hgoes⟩, hnext⟩
  · by_cases hfree : getPowerFlow i.inPF = true ∧ (s.port ch).info.edgeID = hspFree
    · have hfree' : getPowerFlow i.inPF = true ∧ (s.device.ports ch).info.edgeID = hspFree := hfree
      have hacquired : (s.next ch (.exec absolute i)).device = s.device.setInfo ch
          { HspChannel.zero with
            location := s.position ch
            orderID := (driveKind absolute).orderID
            edgeID := PositionIns.edge i.ucode i.pc } := by
        rw [hdevice, HspDevice.owned, if_neg fun h => howner h.2, if_pos hfree']
        rfl
      have hport : (s.next ch (.exec absolute i)).port ch =
          { s.port ch with
            info :=
              { HspChannel.zero with
                location := s.position ch
                orderID := (driveKind absolute).orderID
                edgeID := PositionIns.edge i.ucode i.pc } } := by
        rw [port, hacquired, HspDevice.setInfo_ports]
        rfl
      have hposition : (s.next ch (.exec absolute i)).position ch = s.position ch := by
        rw [position, hacquired]
        rfl
      have hnot : ¬ s.Begins ch absolute i := by
        rw [Begins, hport]
        rintro ⟨-, h⟩
        cases h
      have hnext := hinv.acquired hfree.2 hport hposition (hghost hnot)
      refine ⟨⟨hnext.good, fun htimer _ => ?_⟩, hnext⟩
      exact absurd hfree.2 (hinv.moving htimer).2.owner
    · have hfree' : ¬(getPowerFlow i.inPF = true ∧ (s.device.ports ch).info.edgeID = hspFree) :=
        hfree
      have hsame : (s.next ch (.exec absolute i)).device = s.device := by
        rw [hdevice, HspDevice.owned, if_neg fun h => howner h.2, if_neg hfree',
          if_neg fun h => howner h.2]
      have hport : (s.next ch (.exec absolute i)).port ch = s.port ch := by
        rw [port, hsame]
        rfl
      have hnot : ¬ s.Begins ch absolute i := by
        rw [Begins, hport]
        rintro ⟨hclose, hstart⟩
        cases hclose.symm.trans hstart
      have hnext := hghost hnot
      rw [hport, ← hinv.level, PulseTrain.drive_level] at hnext
      have hnext' : (s.next ch (.exec absolute i)).Inv ch := by
        refine hinv.of_same hport ?_ hnext
        rw [position, hsame]
        rfl
      refine ⟨⟨hnext'.good, fun htimer _ => ?_⟩, hnext'⟩
      rw [hport]
      exact htimer

theorem inv_start (hch : ch ≤ 3) (t : Store) : (start ch t).Inv ch := by
  have hport : (start ch t).port ch =
      ⟨{ HspChannel.zero with edgeID := hspFree }, false, false⟩ :=
    HspDevice.plcHSPInit_ports hch
  have hhere : (start ch t).position ch = moved true ((start ch t).position ch) 0 :=
    (moved_zero _ _).symm
  refine ⟨⟨fun _ => hhere, Nat.le_refl _, nofun⟩, ?_, hhere, ?_, ?_, ?_, ?_, ?_⟩
  · rw [hport]
    rfl
  · rw [hport]
    exact ⟨nofun, nofun⟩
  · rw [hport]
    exact nofun
  · rw [hport]
    exact nofun
  · rw [hport]
    exact fun _ => rfl
  · rw [hport]
    exact fun _ h => absurd rfl h

end DriveRun

/-! ## Whole runs -/

open DriveRun

/-- In a run in which what the record tells is in the position whenever an output stops or ends, and
in which no move begins for which the number of pulses doubled is zero, position and pulses are
right. -/
theorem positions_right {ch : Nat} (hch : ch ≤ 3) (t : Store) (xs : List DriveEvent)
    (hlegal : Each (next ch) (DriveEvent.Legal ch) (start ch t) xs)
    (hregular : Each (next ch) (DriveEvent.Regular ch) (start ch t) xs) :
    Each (next ch) (DriveEvent.Right ch) (start ch t) xs := by
  have hboth : Each (next ch) (fun s x => DriveEvent.Legal ch s x ∧ DriveEvent.Regular ch s x)
      (start ch t) xs :=
    fun before x after h => ⟨hlegal before x after h, hregular before x after h⟩
  refine Each.of_invariant (I := fun s => s.Inv ch) (inv_start hch t) hboth ?_
  intro s x hinv ⟨hx, hr⟩
  cases x with
  | exec absolute i => exact hinv.exec hx hr
  | tick => exact hinv.tick hr
  | other t =>
    have hnext : (s.next ch (.other t)).Inv ch := hinv.of_same rfl hx rfl
    exact ⟨⟨hnext.good, id⟩, hnext⟩

/-- `DRVI K1 K1000 Y0 Y4` is executed at some tick counts with power flow, or without. Between them
the timer interrupts. -/
def drviEvents (xs : List (Option (BitVec 32 × BitVec 32))) : List DriveEvent :=
  xs.map fun
    | some (now, inPF) => .exec false { drviOfOneExec inPF with now := now }
    | none => .tick

theorem drviEvents_legal (xs : List (Option (BitVec 32 × BitVec 32))) :
    Each (next 0) (DriveEvent.Legal 0) (start 0 Store.off) (drviEvents xs) := by
  intro before x after hsplit
  have hmem : x ∈ drviEvents xs := hsplit ▸ List.mem_append_right before (.head _)
  obtain ⟨y, -, rfl⟩ := List.mem_map.mp hmem
  cases y with
  | none => exact trivial
  | some y => exact ⟨rfl, Nat.zero_le 3, 4, rfl, Nat.le_refl 4, by decide⟩

/-- It gets the channel, begins, starts the timer, and copies the position before the last
interrupt. -/
theorem drviEvents_right : Each (next 0) (DriveEvent.Right 0) (start 0 Store.off)
    (drviEvents [some (0, 1), some (0, 1), some (5, 1), none, none, some (6, 1), none]) := by
  refine positions_right (Nat.zero_le 3) Store.off _ (drviEvents_legal _) ?_
  refine Each.cons_iff.mpr ⟨⟨by decide, by decide, by decide⟩, ?_⟩
  refine Each.cons_iff.mpr ⟨⟨by decide, by decide, by decide⟩, ?_⟩
  refine Each.cons_iff.mpr ⟨⟨by decide, by decide, by decide⟩, ?_⟩
  refine Each.cons_iff.mpr ⟨fun _ h => absurd (by decide) h, ?_⟩
  refine Each.cons_iff.mpr ⟨fun _ h => absurd (by decide) h, ?_⟩
  refine Each.cons_iff.mpr ⟨⟨by decide, by decide, by decide⟩, ?_⟩
  exact Each.cons_iff.mpr ⟨fun _ _ => by decide, Each.nil⟩

/-- A pulse is put out after the last copy, and the power flow goes off. -/
theorem positions_not_right : ¬ ∀ (ch : Nat), ch ≤ 3 → ∀ (t : Store) (xs : List DriveEvent),
    Each (next ch) (DriveEvent.Legal ch) (start ch t) xs →
      Each (next ch) (DriveEvent.Right ch) (start ch t) xs := by
  intro h
  have hright := h 0 (Nat.zero_le 3) Store.off _
    (drviEvents_legal [some (0, 1), some (0, 1), some (5, 1), none, none, some (6, 0)])
    (drviEvents [some (0, 1), some (0, 1), some (5, 1), none, none]) _ [] rfl
  have hposition := hright.1.position
  revert hposition
  decide

end Kalyke
