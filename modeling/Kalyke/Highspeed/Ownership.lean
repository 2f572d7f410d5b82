-- SUMMARY: Who owns a pulse channel, over whole runs with starts and stops of the device.
import Kalyke.Highspeed.Drive
import Mathlib.Data.List.Pairwise

/-!
# Ownership of the Pulse Channels

The records of the channels are all zero when the device is switched on, and zero is an edge number
like any other. When the device goes from stop to run the channels are freed, and no instruction is
executed before that. From then on a channel is free or has one owner.
-/

namespace Kalyke

open List

/-- The positioning instructions. -/
inductive PositionIns where
  | drva
  | drvi
  | zrn
deriving DecidableEq

namespace PositionIns

def run : PositionIns → BodyInput → HspDevice → Except PlcErr Unit × HspDevice
  | drva => runCiDrvaIns
  | drvi => runCiDrviIns
  | zrn => runCiZrnIns

/-- The instruction at an address outputs on a channel. -/
def OnChannel (u : Ucode) (pc ch : Nat) : PositionIns → Prop
  | zrn => (∃ near, getCharIndex u (pc + 14) = .ok near) ∧ getCharIndex u (pc + 18) = .ok ch ∧ ch ≤ 3
  | _ => getCharIndex u (pc + 14) = .ok ch ∧ ch ≤ 3 ∧
    ∃ dir, getCharIndex u (pc + 18) = .ok dir ∧ 4 ≤ dir ∧ dir ≤ 7

/-- The edge number of the instruction at an address. -/
def edge (u : Ucode) (pc : Nat) : Nat := u.getPU16 (pc + 22)

end PositionIns

/-- A program with the positioning instructions it has on a channel. -/
structure DriveProgram where
  ucode : Ucode
  ins : List (PositionIns × Nat)

namespace DriveProgram

/-- Their edge numbers are different, and none is the mark of a free channel. -/
structure Fits (g : DriveProgram) (ch : Nat) : Prop where
  onChannel : ∀ x ∈ g.ins, x.1.OnChannel g.ucode x.2 ch
  distinct : g.ins.Pairwise fun x y => PositionIns.edge g.ucode x.2 ≠ PositionIns.edge g.ucode y.2
  below : ∀ x ∈ g.ins, PositionIns.edge g.ucode x.2 < hspFree

/-- An edge number is that of exactly one instruction. -/
def Owns (g : DriveProgram) (edge : Nat) : Prop :=
  ∃! x, x ∈ g.ins ∧ PositionIns.edge g.ucode x.2 = edge

theorem Fits.owns {g : DriveProgram} {ch : Nat} (h : g.Fits ch) {x : PositionIns × Nat}
    (hx : x ∈ g.ins) : g.Owns (PositionIns.edge g.ucode x.2) := by
  refine ⟨x, ⟨hx, rfl⟩, ?_⟩
  rintro y ⟨hy, hedge⟩
  have : Std.Symm fun x y : PositionIns × Nat =>
      PositionIns.edge g.ucode x.2 ≠ PositionIns.edge g.ucode y.2 := ⟨fun _ _ h => h.symm⟩
  exact Classical.not_not.mp fun hne => h.distinct.forall hy hx hne hedge

end DriveProgram

/-! ## Runs -/

/-- An instruction is executed, the timer of the channel interrupts, other elements change, or the
device stops or starts. -/
inductive OwnerEvent where
  | exec (k : PositionIns) (i : BodyInput)
  | tick
  | other (s : Store)
  | runToStop
  | stopToRun

/-- The device, whether it runs, whether it has ever run, and the position when the channel got its
owner. -/
structure OwnerRun where
  device : HspDevice
  running : Bool
  started : Bool
  saved : Option (BitVec 32)

namespace OwnerRun

/-- A device that is switched on. -/
def start (s : Store) : OwnerRun :=
  ⟨⟨s, fun _ => ⟨.zero, false, false⟩, fun _ => false⟩, false, false, none⟩

variable (ch : Nat) (s : OwnerRun)

def port : HspPort := s.device.ports ch

def next : OwnerEvent → OwnerRun
  | .exec k i =>
    let device := (k.run i s.device).2
    { s with
      device := device
      saved :=
        if (s.port ch).info.edgeID = hspFree ∧ (device.ports ch).info.edgeID ≠ hspFree then
          some (s.device.position ch)
        else s.saved }
  | .tick => { s with device := s.device.irq ch }
  | .other t => { s with device := { s.device with store := t } }
  | .runToStop => { s with device := s.device.uninitHighSpeed, running := false }
  | .stopToRun => { s with device := s.device.plcHSPInit, running := true, started := true }

/-- The channel is free or has one owner. Something is put out only for an owner, which has recorded
the position it got the channel at. -/
structure Good (g : DriveProgram) : Prop where
  owner : (s.port ch).info.edgeID = hspFree ∨ g.Owns (s.port ch).info.edgeID
  output : (s.port ch).timer = true ∨ (s.port ch).pin = true → (s.port ch).info.edgeID ≠ hspFree
  saved : (s.port ch).info.edgeID ≠ hspFree → s.saved = some (s.port ch).info.location

/-- The channel is as when the device is switched on. -/
def AtRest : Prop := s.port ch = ⟨.zero, false, false⟩

end OwnerRun

namespace OwnerEvent

variable (g : DriveProgram) (ch : Nat) (s : OwnerRun)

/-- Only instructions of the program are executed, and only while the device runs. -/
def Legal : OwnerEvent → Prop
  | exec k i => s.running = true ∧ i.ucode = g.ucode ∧ (k, i.pc) ∈ g.ins
  | runToStop => s.running = true
  | stopToRun => s.running = false
  | _ => True

/-- An instruction that does not own the channel changes nothing, and one with power flow gets a
channel that is free. -/
def Obeys : OwnerEvent → Prop
  | exec k i =>
    let edge := PositionIns.edge g.ucode i.pc
    ((s.port ch).info.edgeID ≠ edge → (s.port ch).info.edgeID ≠ hspFree →
      (k.run i s.device).2 = s.device) ∧
    ((s.port ch).info.edgeID = hspFree → getPowerFlow i.inPF = false →
      (k.run i s.device).2 = s.device) ∧
    ((s.port ch).info.edgeID = hspFree → getPowerFlow i.inPF = true →
      ((s.next ch (.exec k i)).port ch).info.edgeID = edge)
  | _ => True

/-- After the event the channel is as it should be, once the device has run. -/
def Right (x : OwnerEvent) : Prop :=
  x.Obeys g ch s ∧
    if (s.next ch x).started then (s.next ch x).Good ch g else (s.next ch x).AtRest ch

end OwnerEvent

/-! ## What the owner does -/

namespace HspPort

/-- The timer interrupts only while the status says that something is put out, and the output is up
only while it does. -/
structure Sound (p : HspPort) : Prop where
  status : p.timer = true → p.info.hspStatus ≠ .close
  pin : p.pin = true → p.timer = true

/-- The owner stays, with the position it has recorded. -/
structure Kept (p p' : HspPort) : Prop where
  edge : p'.info.edgeID = p.info.edgeID
  location : p'.info.location = p.info.location
  sound : p.Sound → p'.Sound

theorem Kept.refl (p : HspPort) : p.Kept p := ⟨rfl, rfl, id⟩

/-- Only the record changes, and its status does not become that of a closed channel. -/
theorem Kept.of_info {p : HspPort} {c : HspChannel} (hedge : c.edgeID = p.info.edgeID)
    (hlocation : c.location = p.info.location)
    (hstatus : c.hspStatus = .close → p.info.hspStatus = .close) : p.Kept { p with info := c } :=
  ⟨hedge, hlocation, fun h => ⟨fun htimer hc => h.status htimer (hstatus hc), h.pin⟩⟩

theorem sound_free {p : HspPort} : p.hspStop.free.Sound := ⟨nofun, nofun⟩

end HspPort

namespace HspDevice

variable {d : HspDevice} {ch : Nat} {i : BodyInput}

@[simp] theorem setPort_ports {p : HspPort} : (d.setPort ch p).ports ch = p := Function.update_self ..

@[simp] theorem setInfo_ports {c : HspChannel} :
    (d.setInfo ch c).ports ch = { d.ports ch with info := c } := setPort_ports

@[simp] theorem setBusy_ports {b : Bool} : (d.setBusy ch b).ports = d.ports := rfl

@[simp] theorem clearY_ports {y : Nat} : (d.clearY y).ports = d.ports := rfl

@[simp] theorem refreshCurrentPosition_ports : (d.refreshCurrentPosition ch).ports = d.ports := rfl

@[simp] theorem release_ports : (d.release ch).ports ch = (d.ports ch).hspStop.free := by
  simp only [release, setBusy_ports, setPort_ports]

@[simp] theorem finish_ports : (d.finish ch).ports ch =
    { (d.ports ch).hspStop with info := { (d.ports ch).info with hspStatus := .ended } } := by
  simp only [finish, setBusy_ports, setPort_ports]

theorem kept_finish : (d.ports ch).Kept ((d.finish ch).ports ch) := by
  rw [finish_ports]
  exact ⟨rfl, rfl, fun _ => ⟨nofun, nofun⟩⟩

/-- The timer is started with a status that is not that of a closed channel. -/
theorem kept_start {now freq : BitVec 32} :
    (d.ports ch).Kept ({ d.ports ch with
      info := { (d.ports ch).info with freqTick := now, hspStatus := .on } }.hspStart freq) :=
  ⟨rfl, rfl, fun _ => ⟨nofun, fun _ => rfl⟩⟩

theorem accelerate_edge (c : HspChannel) : c.accelerate.brake.edgeID = c.edgeID ∧
    c.accelerate.brake.location = c.location ∧ c.accelerate.brake.hspStatus = c.hspStatus := by
  unfold HspChannel.brake HspChannel.accelerate
  split <;> exact ⟨rfl, rfl, rfl⟩

theorem kept_driveWork (kind : DriveKind) (dir : Nat) :
    (d.ports ch).Kept ((d.driveWork kind i ch dir).2.ports ch) := by
  unfold driveWork
  dsimp only
  cases hstatus : (d.ports ch).info.hspStatus with
  | close =>
    simp only [driveBegin]
    split
    · exact .refl _
    · split
      · exact .refl _
      · split
        · rw [setInfo_ports]
          exact .of_info rfl rfl fun _ => hstatus
        · split
          · rw [setInfo_ports]
            exact .of_info rfl rfl fun _ => hstatus
          · rw [setBusy_ports, setInfo_ports]
            exact .of_info rfl rfl nofun
  | start =>
    dsimp only
    split
    · rw [setPort_ports]
      exact kept_start
    · exact .refl _
  | on =>
    dsimp only
    split
    · rw [setInfo_ports]
      exact .of_info (accelerate_edge _).1 (accelerate_edge _).2.1 fun h =>
        nomatch (accelerate_edge _).2.2.symm.trans h
    · exact .refl _
  | stop =>
    exact kept_finish
  | lowSpeed => exact .refl _
  | ended => exact .refl _

theorem kept_zrnWork (near : Nat) : (d.ports ch).Kept ((d.zrnWork i ch near).2.ports ch) := by
  unfold zrnWork
  dsimp only
  cases hstatus : (d.ports ch).info.hspStatus with
  | close =>
    simp only [zrnBegin]
    split
    · exact .refl _
    · split
      · exact .refl _
      · split
        · rw [setInfo_ports]
          exact .of_info rfl rfl fun _ => hstatus
        · split
          · rw [setInfo_ports]
            exact .of_info rfl rfl fun _ => hstatus
          · rw [setBusy_ports, setInfo_ports]
            exact .of_info rfl rfl nofun
  | start =>
    dsimp only
    split
    · rw [setPort_ports]
      exact kept_start
    · exact .refl _
  | on =>
    dsimp only
    split <;> split <;> rw [setInfo_ports]
    · exact .of_info rfl rfl nofun
    · exact .of_info rfl rfl nofun
    · exact .of_info rfl rfl id
    · exact .of_info rfl rfl id
  | lowSpeed =>
    dsimp only
    split <;> split <;> rw [setInfo_ports]
    · exact .of_info rfl rfl id
    · exact .of_info rfl rfl id
    · exact .of_info rfl rfl nofun
    · exact .of_info rfl rfl nofun
  | stop => exact kept_finish
  | ended => exact .refl _

end HspDevice

/-! ## What an execution does -/

theorem runCiDrvIns_eq {i : BodyInput} {ch : Nat} (kind : DriveKind)
    (hon : PositionIns.drvi.OnChannel i.ucode i.pc ch) : ∃ dir, ∀ d : HspDevice,
      runCiDrvIns kind i d =
        d.owned ch i.inPF (PositionIns.edge i.ucode i.pc) kind.orderID (fun d => d.clearY dir)
          fun d => d.driveWork kind i ch dir := by
  obtain ⟨hout, hch, dir, hdir, hlow, hhigh⟩ := hon
  have hrange : ¬(dir < 4 ∨ 7 < dir) := by omega
  refine ⟨dir, fun d => ?_⟩
  simp only [runCiDrvIns, hout, hdir, if_neg (Nat.not_lt.mpr hch), if_neg hrange,
    PositionIns.edge]

/-- An instruction on the channel is `owned` with something of its own to do. -/
theorem PositionIns.run_eq {k : PositionIns} {u : Ucode} {i : BodyInput} {ch : Nat}
    (hk : k.OnChannel u i.pc ch) (hu : i.ucode = u) (d : HspDevice) :
    ∃ orderID off work,
      k.run i d = d.owned ch i.inPF (edge u i.pc) orderID off work ∧
        (∀ d : HspDevice, (off d).ports = d.ports) ∧
        ∀ d : HspDevice, (d.ports ch).Kept ((work d).2.ports ch) := by
  subst hu
  have hdrive (kind : DriveKind) (hon : PositionIns.drvi.OnChannel i.ucode i.pc ch) :
      ∃ orderID off work,
        runCiDrvIns kind i d = d.owned ch i.inPF (edge i.ucode i.pc) orderID off work ∧
          (∀ d : HspDevice, (off d).ports = d.ports) ∧
          ∀ d : HspDevice, (d.ports ch).Kept ((work d).2.ports ch) := by
    obtain ⟨dir, hrun⟩ := runCiDrvIns_eq kind hon
    exact ⟨kind.orderID, fun d => d.clearY dir, fun d => d.driveWork kind i ch dir, hrun d,
      fun _ => rfl, fun d => HspDevice.kept_driveWork kind dir⟩
  cases k with
  | drva => exact hdrive .drva hk
  | drvi => exact hdrive .drvi hk
  | zrn =>
    obtain ⟨⟨near, hnear⟩, hout, hch⟩ := hk
    refine ⟨0xF131, id, fun d => d.zrnWork i ch near, ?_, fun _ => rfl,
      fun d => HspDevice.kept_zrnWork near⟩
    simp only [run, runCiZrnIns, hnear, hout, if_neg (Nat.not_lt.mpr hch), edge]

namespace HspDevice

variable {d : HspDevice} {ch edge orderID : Nat} {inPF : BitVec 32} {off : HspDevice → HspDevice}
  {work : HspDevice → Except PlcErr Unit × HspDevice}

theorem owned_of_other (hedge : (d.ports ch).info.edgeID ≠ edge)
    (hfree : (d.ports ch).info.edgeID ≠ hspFree) :
    (d.owned ch inPF edge orderID off work).2 = d := by
  simp only [owned, hedge, hfree, and_false, if_false]

theorem owned_of_free_off (hedge : edge < hspFree) (hfree : (d.ports ch).info.edgeID = hspFree)
    (hoff : getPowerFlow inPF = false) : (d.owned ch inPF edge orderID off work).2 = d := by
  have hne : (d.ports ch).info.edgeID ≠ edge := fun h => hedge.ne (h.symm.trans hfree)
  simp only [owned, hne, hoff, Bool.false_eq_true, false_and, and_false, if_false]

theorem owned_of_free_on (hedge : edge < hspFree) (hfree : (d.ports ch).info.edgeID = hspFree)
    (hon : getPowerFlow inPF = true) :
    (d.owned ch inPF edge orderID off work).2 = d.setInfo ch
      { HspChannel.zero with location := d.position ch, orderID := orderID, edgeID := edge } := by
  have hne : (d.ports ch).info.edgeID ≠ edge := fun h => hedge.ne (h.symm.trans hfree)
  rw [owned, if_neg fun h => hne h.2, if_pos ⟨hon, hfree⟩]

/-- The owner keeps the channel, or frees it. -/
theorem owned_of_owner (hedge : (d.ports ch).info.edgeID = edge)
    (hports : ∀ d : HspDevice, (off d).ports = d.ports)
    (hkept : ∀ d : HspDevice, (d.ports ch).Kept ((work d).2.ports ch)) :
    (d.ports ch).Kept ((d.owned ch inPF edge orderID off work).2.ports ch) ∨
      (d.owned ch inPF edge orderID off work).2.ports ch = (d.ports ch).hspStop.free := by
  unfold owned
  cases hon : getPowerFlow inPF with
  | true =>
    rw [if_pos ⟨rfl, hedge⟩]
    split
    · exact .inr release_ports
    · have h := hkept (d.refreshCurrentPosition ch)
      exact .inl h
  | false =>
    rw [if_neg (fun h => nomatch h.1), if_neg (fun h => nomatch h.1), if_pos ⟨rfl, hedge⟩]
    refine .inr ?_
    rw [hports]
    exact release_ports

theorem sound_irq {p : HspPort} {b : Bool} (h : p.Sound) : (p.irq b).1.Sound := by
  unfold HspPort.irq
  cases htimer : p.timer with
  | false =>
    exact h
  | true =>
    have hstatus := h.status htimer
    rw [if_pos rfl]
    split
    · split
      · exact ⟨fun _ => hstatus, fun _ => rfl⟩
      · exact ⟨nofun, nofun⟩
    · exact ⟨fun _ => hstatus, fun _ => rfl⟩

theorem irq_info {p : HspPort} {b : Bool} :
    (p.irq b).1.info.edgeID = p.info.edgeID ∧ (p.irq b).1.info.location = p.info.location := by
  unfold HspPort.irq
  split
  · split
    · split <;> exact ⟨rfl, rfl⟩
    · exact ⟨rfl, rfl⟩
  · exact ⟨rfl, rfl⟩

theorem irq_off {p : HspPort} {b : Bool} (h : p.timer = false) : (p.irq b).1 = p := by
  rw [HspPort.irq, if_neg (by rw [h]; exact Bool.false_ne_true)]

/-- What `uninit_high_speed` makes of a channel. -/
def uninitPort (p : HspPort) : HspPort :=
  if p.info.hspStatus ≠ .close then p.hspStop.free else p

theorem foldl_uninit {l : List Nat} (hnodup : l.Nodup) :
    (l.foldl (fun d ch => if (d.ports ch).info.hspStatus ≠ .close then d.release ch else d) d).ports
      ch = if ch ∈ l then uninitPort (d.ports ch) else d.ports ch := by
  induction l generalizing d with
  | nil => rfl
  | cons j l ih =>
    obtain ⟨hj, hl⟩ := nodup_cons.mp hnodup
    rw [foldl_cons, ih hl]
    by_cases hch : ch = j
    · subst hch
      rw [if_neg hj, if_pos mem_cons_self, uninitPort]
      split
      · exact release_ports
      · rfl
    · have hsame : (if (d.ports j).info.hspStatus ≠ .close then d.release j else d).ports ch =
          d.ports ch := by
        split
        · exact Function.update_of_ne hch ..
        · rfl
      rw [hsame]
      simp only [mem_cons, hch, false_or]

theorem uninitHighSpeed_ports (hch : ch ≤ 3) :
    d.uninitHighSpeed.ports ch = uninitPort (d.ports ch) :=
  (foldl_uninit nodup_range).trans
    (if_pos (mem_range.mpr (Nat.lt_succ_of_le hch)))

theorem plcHSPInit_ports (hch : ch ≤ 3) : d.plcHSPInit.ports ch = (d.ports ch).free :=
  if_pos (Nat.lt_succ_of_le hch)

end HspDevice

/-! ## Whole runs -/

namespace OwnerRun

variable {g : DriveProgram} {ch : Nat} {s : OwnerRun}

/-- Nothing is put out while the device does not run. -/
structure Inv (g : DriveProgram) (ch : Nat) (s : OwnerRun) : Prop where
  sound : (s.port ch).Sound
  stopped : s.running = false → (s.port ch).timer = false
  started : s.running = true → s.started = true
  state : if s.started then s.Good ch g else s.AtRest ch

theorem inv_start (t : Store) : (start t).Inv g ch where
  sound := ⟨nofun, nofun⟩
  stopped := fun _ => rfl
  started := nofun
  state := rfl

/-- A channel that is free and puts out nothing. -/
theorem good_of_free {s : OwnerRun} (hedge : (s.port ch).info.edgeID = hspFree)
    (htimer : (s.port ch).timer = false) (hsound : (s.port ch).Sound) : s.Good ch g where
  owner := .inl hedge
  output := by
    rintro (h | h)
    · exact nomatch htimer.symm.trans h
    · exact nomatch htimer.symm.trans (hsound.pin h)
  saved := fun h => absurd hedge h

/-- The owner stays. -/
theorem Good.of_kept {s' : OwnerRun} (hgood : s.Good ch g)
    (hkept : (s.port ch).Kept (s'.port ch)) (hsound : (s'.port ch).Sound)
    (houtput : (s'.port ch).timer = true → (s.port ch).info.edgeID ≠ hspFree)
    (hsaved : s'.saved = s.saved) : s'.Good ch g where
  owner := by
    rw [hkept.edge]
    exact hgood.owner
  output := by
    rw [hkept.edge]
    rintro (h | h)
    · exact houtput h
    · exact houtput (hsound.pin h)
  saved := by
    rw [hkept.edge, hkept.location, hsaved]
    exact hgood.saved

theorem Inv.exec {k : PositionIns} {i : BodyInput} (hfits : g.Fits ch) (hinv : s.Inv g ch)
    (hlegal : (OwnerEvent.exec k i).Legal g s) :
    OwnerEvent.Right g ch s (.exec k i) ∧ (s.next ch (.exec k i)).Inv g ch := by
  obtain ⟨hrunning, hucode, hmem⟩ := hlegal
  have hstarted := hinv.started hrunning
  have hgood : s.Good ch g := by
    have h := hinv.state
    rwa [if_pos hstarted] at h
  obtain ⟨orderID, off, work, hrun, hoff, hwork⟩ :=
    PositionIns.run_eq (hfits.onChannel _ hmem) hucode s.device
  have hbelow : PositionIns.edge g.ucode i.pc < hspFree := hfits.below _ hmem
  have hport : (s.next ch (.exec k i)).port ch = (k.run i s.device).2.ports ch := rfl
  have hsaved : (s.next ch (.exec k i)).saved =
      if (s.port ch).info.edgeID = hspFree ∧
          ((k.run i s.device).2.ports ch).info.edgeID ≠ hspFree then
        some (s.device.position ch)
      else s.saved := rfl
  have hobeys : OwnerEvent.Obeys g ch s (.exec k i) := by
    refine ⟨fun hedge hfree => ?_, fun hfree hflow => ?_, fun hfree hflow => ?_⟩
    · rw [hrun]
      exact HspDevice.owned_of_other hedge hfree
    · rw [hrun]
      exact HspDevice.owned_of_free_off hbelow hfree hflow
    · rw [hport, hrun, HspDevice.owned_of_free_on hbelow hfree hflow, HspDevice.setInfo_ports]
  have hnext : (s.next ch (.exec k i)).Good ch g ∧ ((s.next ch (.exec k i)).port ch).Sound := by
    by_cases hfree : (s.port ch).info.edgeID = hspFree
    · have htimer : (s.port ch).timer = false :=
        Bool.eq_false_iff.mpr fun h => hgood.output (.inl h) hfree
      cases hflow : getPowerFlow i.inPF with
      | false =>
        have hsame := hobeys.2.1 hfree hflow
        rw [hsame] at hport
        have hsound : ((s.next ch (.exec k i)).port ch).Sound := hport ▸ hinv.sound
        refine ⟨good_of_free ?_ ?_ hsound, hsound⟩
        · rw [hport]
          exact hfree
        · rw [hport]
          exact htimer
      | true =>
        rw [hrun, HspDevice.owned_of_free_on hbelow hfree hflow, HspDevice.setInfo_ports] at hport
        have hpin : (s.port ch).pin = false :=
          Bool.eq_false_iff.mpr fun h => nomatch htimer.symm.trans (hinv.sound.pin h)
        refine ⟨⟨.inr ?_, ?_, ?_⟩, ?_, ?_⟩
        · rw [hport]
          exact hfits.owns hmem
        · rw [hport]
          rintro - h
          exact hbelow.ne h
        · intro _
          rw [hsaved, hrun, HspDevice.owned_of_free_on hbelow hfree hflow,
            HspDevice.setInfo_ports, if_pos ⟨hfree, hbelow.ne⟩, hport]
        · rw [hport]
          exact fun h => nomatch htimer.symm.trans h
        · rw [hport]
          exact fun h => nomatch hpin.symm.trans h
    · rw [if_neg fun h => hfree h.1] at hsaved
      by_cases hedge : (s.port ch).info.edgeID = PositionIns.edge g.ucode i.pc
      · have howner : (s.port ch).Kept ((s.next ch (.exec k i)).port ch) ∨
            (s.next ch (.exec k i)).port ch = (s.port ch).hspStop.free := by
          rw [hport, hrun]
          exact HspDevice.owned_of_owner hedge hoff hwork
        rcases howner with hkept | hreleased
        · have hsound := hkept.sound hinv.sound
          exact ⟨hgood.of_kept hkept hsound (fun _ => hfree) hsaved, hsound⟩
        · have hsound : ((s.next ch (.exec k i)).port ch).Sound :=
            hreleased ▸ HspPort.sound_free
          refine ⟨good_of_free ?_ ?_ hsound, hsound⟩
          · rw [hreleased]
            rfl
          · rw [hreleased]
            rfl
      · rw [hobeys.1 hedge hfree] at hport
        have hsound : ((s.next ch (.exec k i)).port ch).Sound := hport ▸ hinv.sound
        refine ⟨hgood.of_kept ?_ hsound (fun _ => hfree) hsaved, hsound⟩
        rw [hport]
        exact .refl _
  have hstarted' : (s.next ch (.exec k i)).started = true := hstarted
  have hrunning' : (s.next ch (.exec k i)).running = true := hrunning
  have hstate : if (s.next ch (.exec k i)).started then (s.next ch (.exec k i)).Good ch g
      else (s.next ch (.exec k i)).AtRest ch := by
    rw [if_pos hstarted']
    exact hnext.1
  exact ⟨⟨hobeys, hstate⟩, hnext.2, (fun h => nomatch hrunning'.symm.trans h),
    fun _ => hstarted', hstate⟩

theorem Inv.tick (hinv : s.Inv g ch) : (s.next ch .tick).Inv g ch := by
  have hport : (s.next ch .tick).port ch =
      ((s.port ch).irq (s.device.store.getBit (.elem .SM) (busyFlag ch))).1 := by
    simp only [port, next, HspDevice.irq, HspDevice.setBusy_ports, HspDevice.setPort_ports]
  have hsound : ((s.next ch .tick).port ch).Sound := hport ▸ HspDevice.sound_irq hinv.sound
  have hoff (h : (s.port ch).timer = false) : (s.next ch .tick).port ch = s.port ch :=
    hport.trans (HspDevice.irq_off h)
  refine ⟨hsound, ?_, hinv.started, ?_⟩
  · intro hrunning
    rw [hoff (hinv.stopped hrunning)]
    exact hinv.stopped hrunning
  · have hstate := hinv.state
    cases hstarted : s.started with
    | true =>
      rw [hstarted] at hstate
      rw [if_pos (show (s.next ch .tick).started = true from hstarted)]
      have hkept : (s.port ch).Kept ((s.next ch .tick).port ch) := by
        rw [hport]
        exact ⟨HspDevice.irq_info.1, HspDevice.irq_info.2, HspDevice.sound_irq⟩
      refine hstate.of_kept hkept hsound (fun htimer => ?_) rfl
      cases hon : (s.port ch).timer with
      | true => exact hstate.output (.inl hon)
      | false =>
        rw [hoff hon] at htimer
        exact nomatch hon.symm.trans htimer
    | false =>
      rw [hstarted] at hstate
      rw [if_neg (show ¬(s.next ch .tick).started = true from by
        rw [show (s.next ch .tick).started = s.started from rfl, hstarted]
        exact Bool.false_ne_true)]
      have htimer : (s.port ch).timer = false := by
        rw [show s.port ch = ⟨.zero, false, false⟩ from hstate]
      exact (hoff htimer).trans hstate

/-- The channel stays as it is. -/
theorem Inv.of_same {s' : OwnerRun} (hinv : s.Inv g ch) (hport : s'.port ch = s.port ch)
    (hrunning : s'.running = s.running) (hstarted : s'.started = s.started)
    (hsaved : s'.saved = s.saved) : s'.Inv g ch := by
  refine ⟨hport ▸ hinv.sound, ?_, ?_, ?_⟩
  · rw [hrunning, hport]
    exact hinv.stopped
  · rw [hrunning, hstarted]
    exact hinv.started
  · have hstate := hinv.state
    rw [hstarted]
    cases h : s.started with
    | true =>
      rw [h] at hstate
      refine ⟨hport ▸ hstate.owner, hport ▸ hstate.output, ?_⟩
      rw [hport, hsaved]
      exact hstate.saved
    | false =>
      rw [h] at hstate
      exact hport.trans hstate

theorem Inv.runToStop (hch : ch ≤ 3) (hinv : s.Inv g ch) (hrunning : s.running = true) :
    (s.next ch .runToStop).Inv g ch := by
  have hport : (s.next ch .runToStop).port ch = HspDevice.uninitPort (s.port ch) :=
    HspDevice.uninitHighSpeed_ports hch
  have hstarted := hinv.started hrunning
  have hgood : s.Good ch g := by
    have h := hinv.state
    rwa [if_pos hstarted] at h
  unfold HspDevice.uninitPort at hport
  by_cases hclose : (s.port ch).info.hspStatus = .close
  · rw [if_neg (not_not.mpr hclose)] at hport
    have htimer : (s.port ch).timer = false :=
      Bool.eq_false_iff.mpr fun h => hinv.sound.status h hclose
    have hsound : ((s.next ch .runToStop).port ch).Sound := hport ▸ hinv.sound
    refine ⟨hsound, fun _ => ?_, nofun, ?_⟩
    · rw [hport]
      exact htimer
    · rw [if_pos (show (s.next ch .runToStop).started = true from hstarted)]
      refine hgood.of_kept ?_ hsound (fun h => ?_) rfl
      · rw [hport]
        exact .refl _
      · rw [hport] at h
        exact nomatch htimer.symm.trans h
  · rw [if_pos hclose] at hport
    have hsound : ((s.next ch .runToStop).port ch).Sound := hport ▸ HspPort.sound_free
    have htimer : ((s.next ch .runToStop).port ch).timer = false := by
      rw [hport]
      rfl
    refine ⟨hsound, fun _ => htimer, nofun, ?_⟩
    rw [if_pos (show (s.next ch .runToStop).started = true from hstarted)]
    refine good_of_free ?_ htimer hsound
    rw [hport]
    rfl

theorem Inv.stopToRun (hch : ch ≤ 3) (hinv : s.Inv g ch) (hrunning : s.running = false) :
    (s.next ch .stopToRun).Inv g ch := by
  have hport : (s.next ch .stopToRun).port ch = (s.port ch).free :=
    HspDevice.plcHSPInit_ports hch
  have htimer : ((s.next ch .stopToRun).port ch).timer = false := by
    rw [hport]
    exact hinv.stopped hrunning
  have hsound : ((s.next ch .stopToRun).port ch).Sound := by
    refine ⟨(fun h => nomatch htimer.symm.trans h), fun h => ?_⟩
    rw [hport] at h ⊢
    exact hinv.sound.pin h
  refine ⟨hsound, nofun, fun _ => rfl, ?_⟩
  refine good_of_free ?_ htimer hsound
  rw [hport]
  rfl

/-- What one event preserves. -/
theorem Inv.right (hch : ch ≤ 3) (hfits : g.Fits ch) (hinv : s.Inv g ch) {x : OwnerEvent}
    (hlegal : x.Legal g s) : x.Right g ch s ∧ (s.next ch x).Inv g ch := by
  cases x with
  | exec k i => exact hinv.exec hfits hlegal
  | tick => exact ⟨⟨trivial, hinv.tick.state⟩, hinv.tick⟩
  | other t =>
    have hnext : (s.next ch (.other t)).Inv g ch := hinv.of_same rfl rfl rfl rfl
    exact ⟨⟨trivial, hnext.state⟩, hnext⟩
  | runToStop =>
    have hnext := hinv.runToStop hch hlegal
    exact ⟨⟨trivial, hnext.state⟩, hnext⟩
  | stopToRun =>
    have hnext := hinv.stopToRun hch hlegal
    exact ⟨⟨trivial, hnext.state⟩, hnext⟩

end OwnerRun

open OwnerRun

/-- Once the device has run, the channel is free or has one owner, others change nothing, and a free
one goes to the first instruction with power flow. -/
theorem channel_owned {g : DriveProgram} {ch : Nat} (hch : ch ≤ 3) (hfits : g.Fits ch) (t : Store)
    (xs : List OwnerEvent) (hlegal : Each (next ch) (OwnerEvent.Legal g) (start t) xs) :
    (start t).AtRest ch ∧ Each (next ch) (OwnerEvent.Right g ch) (start t) xs :=
  ⟨rfl, Each.of_invariant (inv_start t) hlegal fun _ _ hinv hx => hinv.right hch hfits hx⟩

/-- `DRVI K1 K1000 Y0 Y4`, with edge number 1. -/
def drviOfOne : DriveProgram where
  ucode := [0x33, 0xF1, 0x02, 0xFF, 0x01, 0x00, 0x00, 0x00, 0x02, 0xFF, 0xE8, 0x03, 0x00, 0x00,
    0x00, 0x01, 0x00, 0x00, 0x00, 0x01, 0x04, 0x00, 0x01, 0x00]
  ins := [(.drvi, 0)]

theorem drviOfOne_fits : drviOfOne.Fits 0 where
  onChannel := by
    intro x hx
    obtain rfl := mem_singleton.mp hx
    exact ⟨rfl, Nat.zero_le 3, 4, rfl, Nat.le_refl 4, by decide⟩
  distinct := pairwise_singleton _ _
  below := by
    intro x hx
    obtain rfl := mem_singleton.mp hx
    decide

def drviOfOneExec (inPF : BitVec 32) : BodyInput where
  ucode := drviOfOne.ucode
  pc := 0
  level := 0
  now := 0
  inPF := inPF
  sfc := Plc.off.sfc
  store := Store.off

/-- It gets the channel. -/
theorem drviOfOne_owned :
    (start Store.off).AtRest 0 ∧ Each (next 0) (OwnerEvent.Right drviOfOne 0) (start Store.off)
      [.stopToRun, .exec .drvi (drviOfOneExec 1)] := by
  refine channel_owned (Nat.zero_le 3) drviOfOne_fits Store.off _ ?_
  refine Each.cons_iff.mpr ⟨rfl, Each.cons_iff.mpr ⟨⟨rfl, rfl, ?_⟩, Each.nil⟩⟩
  exact mem_singleton_self _

/-- Before the device has run, the channel is neither free nor has it an owner. -/
theorem channel_not_owned_at_first : ¬ ∀ (g : DriveProgram) (ch : Nat), ch ≤ 3 → g.Fits ch →
    ∀ (t : Store) (xs : List OwnerEvent), Each (next ch) (OwnerEvent.Legal g) (start t) xs →
      (xs.foldl (next ch) (start t)).Good ch g := by
  intro h
  have hgood := h drviOfOne 0 (Nat.zero_le 3) drviOfOne_fits Store.off [] Each.nil
  rcases hgood.owner with hfree | ⟨x, ⟨hmem, hedge⟩, -⟩
  · exact nomatch hfree
  · obtain rfl := mem_singleton.mp hmem
    exact nomatch hedge

end Kalyke
