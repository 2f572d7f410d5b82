-- SUMMARY: `DRVA`, `DRVI` and `ZRN` on the pulse channels, with their timers and their stop.
import Kalyke.Highspeed.Plsy

/-!
# Positioning

The positioning instructions share four pulse channels. A channel is owned by the instruction whose
edge number is in its record, and is free while that is `0xFFFF`. The owner copies the position to
`SD90` and `SD91` (and so on) whenever it is executed; between two executions the timer interrupts
toggle the output and count.
-/

namespace Kalyke

/-- `hspStatus`. -/
inductive HspStatus where
  | close
  | start
  | on
  | lowSpeed
  | stop
  | ended
deriving DecidableEq, Repr

/-- `gHspChannelInfo` of a channel. -/
structure HspChannel where
  orderID : Nat
  hspStatus : HspStatus
  destDirection : Bool
  freqDirection : Bool
  curFreq : BitVec 32
  destFreq : BitVec 32
  stepFreq : BitVec 32
  baseFreq : BitVec 32
  slowFreq : BitVec 32
  destPulseNum : BitVec 32
  outPulseCnt : BitVec 32
  frepPulseCnt : BitVec 32
  freqTick : BitVec 32
  edgeID : Nat
  location : BitVec 32
deriving DecidableEq, Repr

def HspChannel.zero : HspChannel := ⟨0, .close, false, false, 0, 0, 0, 0, 0, 0, 0, 0, 0, 0, 0⟩

/-- The edge number in the record of a channel that no instruction owns. -/
def hspFree : Nat := 0xFFFF

/-- A channel with its timer, whether it interrupts, and its output. -/
structure HspPort where
  info : HspChannel
  timer : Bool
  pin : Bool
deriving DecidableEq, Repr

/-- The elements, the channels, and the outputs `Y4` to `Y7` that show the directions. -/
structure HspDevice where
  store : Store
  ports : Nat → HspPort
  directions : Nat → Bool

namespace HspPort

def hspStart (p : HspPort) (freq : BitVec 32) : HspPort :=
  { p with timer := true, info := { p.info with curFreq := freq, outPulseCnt := 0 } }

def hspStop (p : HspPort) : HspPort := { p with timer := false, pin := false }

/-- The record is cleared and the channel is free. -/
def free (p : HspPort) : HspPort := { p with info := { HspChannel.zero with edgeID := hspFree } }

/-- `TMR1_IRQHandler` and the handlers after it, with the busy flag. -/
def irq (p : HspPort) (busy : Bool) : HspPort × Bool :=
  if p.timer then
    if p.info.destPulseNum ≠ 0 then
      if p.info.outPulseCnt < p.info.destPulseNum then
        ({ p with
            pin := !p.pin
            info := { p.info with outPulseCnt := p.info.outPulseCnt + 1 } }, busy)
      else
        ({ timer := false
           pin := false
           info := { p.info with outPulseCnt := p.info.outPulseCnt + 1, hspStatus := .stop } },
          false)
    else
      ({ p with
          pin := !p.pin
          info := { p.info with outPulseCnt := p.info.outPulseCnt + 1 } }, busy)
  else (p, busy)

end HspPort

namespace HspChannel

/-- The base frequency for the target, by `SD84`. -/
def baseOf (dest : BitVec 32) (sd : BitVec 16) : BitVec 32 :=
  if 0 < sd ∧ sd.zeroExtend 32 ≤ dest then sd.zeroExtend 32 else 1000

def stepOf (sd : BitVec 16) : BitVec 32 :=
  if 0 < sd ∧ sd ≤ 10000 then BitVec.ofNat 32 (100000 / (sd.toNat / 20)) else 1000

/-- The frequencies with which an instruction begins. -/
def begin (c : HspChannel) (dest : BitVec 32) (s : Store) : HspChannel :=
  { c with
    destFreq := dest
    baseFreq := baseOf dest (s.getWord (.elem .SD) 84)
    stepFreq := stepOf (s.getWord (.elem .SD) 87)
    curFreq := baseOf dest (s.getWord (.elem .SD) 84)
    freqDirection := true }

/-- The frequency goes up, until it is the target or half of the pulses are out. -/
def accelerate (c : HspChannel) : HspChannel :=
  if c.freqDirection then
    let reaches : Bool := c.destFreq ≤ c.curFreq + c.stepFreq
    let half : Bool := c.destPulseNum / 2 ≤ c.outPulseCnt
    { c with
      curFreq := if reaches then c.destFreq else c.curFreq + c.stepFreq
      frepPulseCnt := if reaches || half then c.outPulseCnt else c.frepPulseCnt
      freqDirection := !(reaches || half) }
  else c

/-- A frequency that goes down by a step, not below a bound. -/
def lower (c : HspChannel) (bound : BitVec 32) : BitVec 32 :=
  if c.curFreq - c.stepFreq < bound ∨ c.destFreq < c.curFreq - c.stepFreq then bound
  else c.curFreq - c.stepFreq

/-- The frequency goes down when no more pulses are left than it took to go up. -/
def brake (c : HspChannel) : HspChannel :=
  { c with
    curFreq :=
      if c.freqDirection = false ∧ c.destPulseNum - c.outPulseCnt ≤ c.frepPulseCnt then
        c.lower c.baseFreq
      else c.curFreq }

end HspChannel

namespace HspDevice

variable (d : HspDevice) (ch : Nat)

def setPort (p : HspPort) : HspDevice := { d with ports := Function.update d.ports ch p }

def setInfo (c : HspChannel) : HspDevice := d.setPort ch { d.ports ch with info := c }

def setBusy (b : Bool) : HspDevice :=
  { d with store := d.store.setBit (.elem .SM) (busyFlag ch) b }

def clearY (y : Nat) : HspDevice := { d with store := d.store.setBit (.elem .Y) y false }

def position : BitVec 32 :=
  d.store.getWord (.elem .SD) (90 + 2 * ch + 1) ++ d.store.getWord (.elem .SD) (90 + 2 * ch)

/-- The position of which the record tells. -/
def counted : BitVec 32 :=
  let c := (d.ports ch).info
  if c.destDirection then c.location + c.outPulseCnt / 2 else c.location - c.outPulseCnt / 2

def refreshCurrentPosition : HspDevice :=
  { d with
    store := (d.store.setWord (.elem .SD) (90 + 2 * ch) ((d.counted ch).extractLsb' 0 16)).setWord
      (.elem .SD) (90 + 2 * ch + 1) ((d.counted ch).extractLsb' 16 16) }

/-- The end of an output, and the channel is free. -/
def release : HspDevice :=
  (d.setPort ch (d.ports ch).hspStop.free).setBusy ch false

/-- What the three instructions have in common: who owns the channel, and when it is released. With
power flow and no stop flag the owner goes on. -/
def owned (inPF : BitVec 32) (edge orderID : Nat) (off : HspDevice → HspDevice)
    (work : HspDevice → Except PlcErr Unit × HspDevice) : Except PlcErr Unit × HspDevice :=
  if getPowerFlow inPF = true ∧ (d.ports ch).info.edgeID = edge then
    if d.store.getBit (.elem .SM) (stopFlag ch) then (.ok (), d.release ch)
    else work (d.refreshCurrentPosition ch)
  else if getPowerFlow inPF = true ∧ (d.ports ch).info.edgeID = hspFree then
    (.ok (), d.setInfo ch
      { HspChannel.zero with location := d.position ch, orderID := orderID, edgeID := edge })
  else if getPowerFlow inPF = false ∧ (d.ports ch).info.edgeID = edge then
    (.ok (), off (d.release ch))
  else (.ok (), d)

/-- The output has come to its end. -/
def finish : HspDevice :=
  (d.setPort ch
    { (d.ports ch).hspStop with info := { (d.ports ch).info with hspStatus := .ended } }).setBusy
    ch false

end HspDevice

/-! ## `DRVA` and `DRVI` -/

/-- How many pulses a move takes, with their sign, for an operand and the position it starts from. A
move that takes none returns at once. -/
structure DriveKind where
  orderID : Nat
  pulses : BitVec 32 → BitVec 32 → BitVec 32
  none : Except PlcErr Unit

def DriveKind.drva : DriveKind := ⟨0xF134, fun operand location => operand - location, .ok ()⟩

def DriveKind.drvi : DriveKind := ⟨0xF133, fun operand _ => operand, .error .operands⟩

namespace HspDevice

variable (kind : DriveKind) (i : BodyInput) (ch dir : Nat) (d : HspDevice)

/-- `HSP_CLOSE`: the operands are read. -/
def driveBegin : Except PlcErr Unit × HspDevice :=
  match i.dword 8 0 d.store with
  | .error e => (.error e, d)
  | .ok freq =>
    if freq < 1 ∨ 100000 < freq then (.error .operands, d)
    else
      let c := (d.ports ch).info.begin freq d.store
      match i.dword 2 0 d.store with
      | .error e => (.error e, d.setInfo ch c)
      | .ok operand =>
        let n := kind.pulses operand c.location
        if n = 0 then (kind.none, d.setInfo ch c)
        else
          let forward := !n.slt 0
          (.ok (),
            { (d.setInfo ch
                { c with
                  destDirection := forward
                  destPulseNum := n.abs * 2
                  freqTick := i.now
                  hspStatus := .start }).setBusy ch true with
              directions := Function.update d.directions dir forward })

/-- The owner with power flow, by the state of its channel. -/
def driveWork : Except PlcErr Unit × HspDevice :=
  let c := (d.ports ch).info
  match c.hspStatus with
  | .close => d.driveBegin kind i ch dir
  | .start =>
    if 4 < i.now - c.freqTick then
      (.ok (), d.setPort ch
        ({ d.ports ch with info := { c with freqTick := i.now, hspStatus := .on } }.hspStart
          c.curFreq))
    else (.ok (), d)
  | .on =>
    if 20 ≤ i.now - c.freqTick then
      (.ok (), d.setInfo ch { c with freqTick := i.now }.accelerate.brake)
    else (.ok (), d)
  | .stop => (.ok (), (d.finish ch).clearY dir)
  | .lowSpeed => (.ok (), d)
  | .ended => (.ok (), d)

end HspDevice

def runCiDrvIns (kind : DriveKind) (i : BodyInput) (d : HspDevice) :
    Except PlcErr Unit × HspDevice :=
  match getCharIndex i.ucode (i.pc + 14) with
  | .error e => (.error e, d)
  | .ok ch =>
    match getCharIndex i.ucode (i.pc + 18) with
    | .error e => (.error e, d)
    | .ok dir =>
      if 3 < ch then (.error .overElementRang, d)
      else if dir < 4 ∨ 7 < dir then (.error .overElementRang, d)
      else
        d.owned ch i.inPF (i.ucode.getPU16 (i.pc + 22)) kind.orderID (fun d => d.clearY dir)
          fun d => d.driveWork kind i ch dir

def runCiDrvaIns := runCiDrvIns .drva

def runCiDrviIns := runCiDrvIns .drvi

/-! ## `ZRN` -/

namespace HspDevice

variable (i : BodyInput) (ch near : Nat) (d : HspDevice)

/-- `HSP_CLOSE`: the operands are read. -/
def zrnBegin : Except PlcErr Unit × HspDevice :=
  match i.dword 8 0 d.store with
  | .error e => (.error e, d)
  | .ok slow =>
    if slow < 1 ∨ 100000 < slow then (.error .operands, d)
    else
      let c := { (d.ports ch).info with slowFreq := slow }
      match i.dword 2 0 d.store with
      | .error e => (.error e, d.setInfo ch c)
      | .ok freq =>
        if freq < 1 ∨ 100000 < freq then (.error .operands, d.setInfo ch c)
        else
          (.ok (), (d.setInfo ch
            { c.begin freq d.store with
              destPulseNum := 0
              freqTick := i.now
              hspStatus := .start }).setBusy ch true)

/-- The owner with power flow, by the state of its channel. -/
def zrnWork : Except PlcErr Unit × HspDevice :=
  let c := (d.ports ch).info
  match c.hspStatus with
  | .close => d.zrnBegin i ch
  | .start =>
    if 10 < i.now - c.freqTick then
      (.ok (), d.setPort ch
        ({ d.ports ch with info := { c with freqTick := i.now, hspStatus := .on } }.hspStart
          c.curFreq))
    else (.ok (), d)
  | .on =>
    let c :=
      if d.store.getBit (.elem .X) near then
        { c with freqDirection := false, hspStatus := .lowSpeed }
      else c
    if 20 ≤ i.now - c.freqTick then
      (.ok (), d.setInfo ch
        { c with
          freqTick := i.now
          curFreq :=
            if c.freqDirection then
              if c.destFreq < c.curFreq + c.stepFreq then c.destFreq else c.curFreq + c.stepFreq
            else c.curFreq })
    else (.ok (), d.setInfo ch c)
  | .lowSpeed =>
    let c := if d.store.getBit (.elem .X) near then c else { c with hspStatus := .stop }
    if 10 < i.now - c.freqTick then
      (.ok (), d.setInfo ch
        { c with
          freqTick := i.now
          curFreq := if c.freqDirection = false then c.lower c.slowFreq else c.curFreq })
    else (.ok (), d.setInfo ch c)
  | .stop => (.ok (), d.finish ch)
  | .ended => (.ok (), d)

end HspDevice

def runCiZrnIns (i : BodyInput) (d : HspDevice) : Except PlcErr Unit × HspDevice :=
  match getCharIndex i.ucode (i.pc + 14) with
  | .error e => (.error e, d)
  | .ok near =>
    match getCharIndex i.ucode (i.pc + 18) with
    | .error e => (.error e, d)
    | .ok ch =>
      if 3 < ch then (.error .overElementRang, d)
      else
        d.owned ch i.inPF (i.ucode.getPU16 (i.pc + 22)) 0xF131 id fun d => d.zrnWork i ch near

/-! ## Start and stop -/

namespace HspDevice

variable (d : HspDevice)

/-- `plc_HSP_init`, which runs when the device goes from stop to run. -/
def plcHSPInit : HspDevice :=
  { d with ports := fun ch => if ch < 4 then (d.ports ch).free else d.ports ch }

/-- The channels of `uninit_high_speed`, which runs when the device goes from run to stop. -/
def uninitHighSpeed : HspDevice :=
  (List.range 4).foldl
    (fun d ch => if (d.ports ch).info.hspStatus ≠ .close then d.release ch else d) d

/-- The timer of a channel interrupts. -/
def irq (ch : Nat) : HspDevice :=
  let r := (d.ports ch).irq (d.store.getBit (.elem .SM) (busyFlag ch))
  (d.setPort ch r.1).setBusy ch r.2

end HspDevice

end Kalyke
