-- SUMMARY: The start of the extension bus: the master numbers, configures and starts the devices of a chain.
import Kalyke.Daisy.Cycle

/-!
# The Start of the Bus

The steps of `daisy_task.c` before the data exchange. The master numbers the devices, configures
them one by one and asks whether they are ready. A request goes along the chain from device to
device, none of which lets one overtake another, until a device sends an answer. The answers may
come late, out of order, several times or not at all, and the master waits for each a certain time
only. What has no place in the program is noted beside it: which request a frame belongs to, which
device has executed which configuration, and which answer was counted for which.
-/

namespace Kalyke

/-! ## Frames -/

/-- A frame on a link. -/
structure Packet where
  buf : Image
  len : Nat

/-- What the master asks for: addresses, the configuration of an item, readiness. -/
inductive Ask where
  | num
  | config (k : Nat)
  | preloop
deriving DecidableEq, Repr

/-- A request on its way to device `pos`, the attempt with the number `sent`. -/
structure BusRequest where
  packet : Packet
  pos : Nat
  ask : Ask
  sent : Nat

/-- An answer of the device `station` to the attempt `sent`. -/
structure BusAnswer where
  packet : Packet
  station : Nat
  ask : Ask
  sent : Nat

/-- A frame of some words. -/
def Packet.ofWords (ws : List (BitVec 16)) (len : Nat) : Packet :=
  ⟨Image.put (fun _ => 0) 0 (ws.flatMap Image.wordBytes), len⟩

/-! ## Devices -/

/-- A smart device: what is used here of `gMasterRunInfo`, and the configurations it has executed
since it was numbered. -/
structure SmartNode where
  nodeAddr : BitVec 16
  smartNum : Bool
  smartConfig : Bool
  lastNode : Bool
  daisyStatus : BitVec 16
  executed : List Ask

/-- A frame that a device sends: on along the chain, or back to the master. -/
inductive Sends where
  | lan (p : Packet)
  | wan (p : Packet)

def daisyNodeAddress (slaveAddr extAddr : BitVec 16) : BitVec 16 := extAddr ||| (slaveAddr <<< 8)

def daisyHandleErrToMaster (errCode errAddr errContent : BitVec 16) : Sends :=
  .wan (Packet.ofWords [0x5555, errCode, errAddr, errContent] 10)

def handleCmd0101 (lanIsUp : Bool) (p : Packet) (d : SmartNode) : SmartNode × Sends :=
  let nodeAddr := p.buf.word 2 + 1
  let p : Packet := ⟨p.buf.put 2 (Image.wordBytes nodeAddr), 6⟩
  let d := { d with
    nodeAddr := nodeAddr, smartNum := true, smartConfig := false, daisyStatus := 232,
    executed := [] }
  let total := ((p.buf.word 4).setWidth 8).setWidth 16
  if total = 0 then
    if lanIsUp then ({ d with lastNode := false }, .lan p)
    else ({ d with lastNode := true }, .wan p)
  else if total ≤ nodeAddr then ({ d with lastNode := true }, .wan p)
  else if lanIsUp then ({ d with lastNode := false }, .lan p)
  else ({ d with lastNode := false },
    daisyHandleErrToMaster 0x0511 (daisyNodeAddress nodeAddr 0) (daisyNodeAddress (nodeAddr + 1) 0))

/-- `handle_cmd_1C1C`, for a request for `ask`, where `daisy_handle_config` returns `ret`, a code
and its content. -/
def handleCmd1C1C (lanIsUp : Bool) (ret : BitVec 16 × BitVec 16) (ask : Ask) (p : Packet)
    (d : SmartNode) : SmartNode × Sends :=
  let extendAddr := (p.buf 2).setWidth 16
  let slaveAddr := (p.buf 3).setWidth 16
  if d.smartNum = false then
    (d, daisyHandleErrToMaster 0x0531 (daisyNodeAddress slaveAddr extendAddr) d.daisyStatus)
  else if slaveAddr ≠ d.nodeAddr then
    if lanIsUp then (d, .lan p)
    else (d, daisyHandleErrToMaster 0x0532 (daisyNodeAddress slaveAddr extendAddr)
      (daisyNodeAddress (slaveAddr + 1) extendAddr))
  else if extendAddr = 0 then
    let d := { d with daisyStatus := 242 }
    if ret.1 = 0 then
      ({ d with smartConfig := true, executed := ask :: d.executed },
        .wan ⟨p.buf.put 2 (Image.wordBytes 0), 4⟩)
    else
      ({ d with smartConfig := false },
        daisyHandleErrToMaster ret.1 (daisyNodeAddress slaveAddr extendAddr) ret.2)
  else
    ({ d with smartConfig := false },
      daisyHandleErrToMaster 0x0537 (daisyNodeAddress slaveAddr 0)
        (daisyNodeAddress slaveAddr extendAddr))

def handleCmd2222 (lanIsUp : Bool) (p : Packet) (d : SmartNode) : SmartNode × Sends :=
  if d.smartNum = false then
    (d, daisyHandleErrToMaster 0x0541 (daisyNodeAddress 0 0) d.daisyStatus)
  else if d.smartConfig = false then
    (d, daisyHandleErrToMaster 0x0542 (daisyNodeAddress d.nodeAddr 0) d.daisyStatus)
  else
    let p : Packet := ⟨p.buf.put 2 (Image.wordBytes (p.buf.word 2 + 1)), 6⟩
    if d.lastNode then (d, .wan p)
    else if lanIsUp then (d, .lan p)
    else (d, daisyHandleErrToMaster 0x0543 (daisyNodeAddress d.nodeAddr 0)
      (daisyNodeAddress (d.nodeAddr + 1) 0))

/-- The switch of `daisy_WAN_task`, for the commands that are sent here. -/
def daisyWANTask (lanIsUp : Bool) (ret : BitVec 16 × BitVec 16) (q : BusRequest) (d : SmartNode) :
    SmartNode × Sends :=
  if q.packet.buf.word 0 = 0x0101 then handleCmd0101 lanIsUp q.packet d
  else if q.packet.buf.word 0 = 0x1C1C then handleCmd1C1C lanIsUp ret q.ask q.packet d
  else if q.packet.buf.word 0 = 0x2222 then handleCmd2222 lanIsUp q.packet d
  else (d, daisyHandleErrToMaster 0x0502 (daisyNodeAddress d.nodeAddr 0) (q.packet.buf.word 0))

/-! ## The master -/

/-- `daisy_status_e`, as far as it is used here. -/
inductive DaisyStatus where
  | numSlave | inNumSlave | numSlaveOver
  | configSlave | inConfigSlave | configSlaveOver
  | preloopSlave | inPreloopSlave | preloopSlaveOver
  | loopSlave
deriving DecidableEq, Repr

/-- The numbers of the states. -/
def DaisyStatus.code : DaisyStatus → BitVec 16
  | numSlave => 61 | inNumSlave => 62 | numSlaveOver => 63
  | configSlave => 71 | inConfigSlave => 72 | configSlaveOver => 73
  | preloopSlave => 81 | inPreloopSlave => 82 | preloopSlaveOver => 83
  | loopSlave => 91

/-- The states in which the task waits for an answer. -/
def DaisyStatus.Waits (st : DaisyStatus) : Prop :=
  st = inNumSlave ∨ st = inConfigSlave ∨ st = inPreloopSlave

instance (st : DaisyStatus) : Decidable st.Waits := by unfold DaisyStatus.Waits; infer_instance

/-- `gBusConfig`, with the buffers of its items. -/
structure StationConfig where
  bus : BusConfig
  item : Nat → List (BitVec 8)

namespace StationConfig

variable (cfg : StationConfig) (k : Nat)

def sNumExt : BitVec 8 := (cfg.item k).getD 0 0

/-- `sNum`, the second byte of an item. -/
def sNum : BitVec 8 := (cfg.item k).getD 1 0

/-- The first two bytes of an item, as a number. -/
def itemAddr : BitVec 16 := ((cfg.sNum k).setWidth 16 <<< 8) ||| (cfg.sNumExt k).setWidth 16

end StationConfig

/-- What the three handlers of an answer have in common: the length, the command, the value behind
it. -/
def handleAnswer (cmd lenErr cmdErr valueErr addr value : BitVec 16) (p : Packet) (m : BusMaster) :
    BusMaster :=
  if p.len < 4 then daisySetError lenErr 0 (BitVec.ofNat 16 p.len) m
  else if p.buf.word 0 ≠ cmd then
    if p.buf.word 0 = 0x5555 then inSlaveErrHandle5555 p.buf m
    else daisySetError cmdErr addr (p.buf.word 0) m
  else if p.buf.word 2 ≠ value then daisySetError valueErr addr (p.buf.word 2) m
  else daisyClearError m

def inNumSlaveHandle0101 (cfg : StationConfig) : Packet → BusMaster → BusMaster :=
  handleAnswer 0x0101 0x0111 0x0112 0x0113 0 cfg.bus.nSlaveCount

def inConfigSlaveHandle1C1C (cfg : StationConfig) (index : Nat) : Packet → BusMaster → BusMaster :=
  handleAnswer 0x1C1C 0x0131 0x0132 0x0133 (cfg.itemAddr index) 0

def inPreloopSlaveHandle2222 (cfg : StationConfig) : Packet → BusMaster → BusMaster :=
  handleAnswer 0x2222 0x0141 0x0142 0x0143 0 cfg.bus.nSlaveCount

def inOtherStatusSlaveHandle (st : DaisyStatus) (p : Packet) (m : BusMaster) : BusMaster :=
  if p.len < 4 then daisySetError 0x0102 0 st.code m
  else if p.buf.word 0 = 0x5555 then inSlaveErrHandle5555 p.buf m
  else daisySetError 0x0101 0 st.code m

/-! ## The bus -/

/-- The master with its task, which has been woken when its wait has returned, the devices, the
requests on their way, the oldest first, and the answers that may come. Each answer that is counted
for the configuration of an item is noted. -/
structure BusStart where
  bus : BusMaster
  status : DaisyStatus
  index : Nat
  event : Bool
  woken : Bool
  devices : List SmartNode
  down : List BusRequest
  up : List BusAnswer
  sent : Nat
  handled : Option BusAnswer
  counted : List (Nat × BusAnswer)

/-- What can happen: the task goes on from a state in which it does not wait, it is woken, it goes
on after that, its time is over, answer `j` comes, request `k` comes to its device, request `k` is
lost. -/
inductive StartEvent where
  | task (extCanLoop : Bool)
  | woken
  | goesOn
  | timeout
  | answer (j : Nat)
  | device (k : Nat) (lanIsUp : Bool) (ret : BitVec 16 × BitVec 16)
  | lose (k : Nat)

namespace BusStart

variable (cfg : StationConfig) (s : BusStart)

/-- `daisy_LAN_send` of the master. -/
def send (ask : Ask) (p : Packet) (st : DaisyStatus) : BusStart :=
  { s with
    status := st, down := s.down ++ [⟨p, 0, ask, s.sent + 1⟩], sent := s.sent + 1, handled := none }

/-- The switch of `daisy_task`, until it waits or comes to the next state. -/
def task (extCanLoop : Bool) : BusStart :=
  match s.status with
  | .numSlave =>
    { s with counted := [] }.send .num (Packet.ofWords [0x0101, 0, cfg.bus.nSlaveCount] 6)
      .inNumSlave
  | .numSlaveOver =>
    { s with
      bus := { s.bus with daisyErrTimes := 0 }, index := cfg.bus.nMasterExtCount.toNat,
      status := .configSlave }
  | .configSlave =>
    s.send (.config s.index)
      ⟨(Image.put (fun _ => 0) 0 (Image.wordBytes 0x1C1C)).put 2 (cfg.item s.index),
        2 + (cfg.item s.index).length⟩ .inConfigSlave
  | .configSlaveOver =>
    { s with bus := { s.bus with daisyErrTimes := 0 }, index := 0, status := .preloopSlave }
  | .preloopSlave =>
    s.send .preloop (Packet.ofWords [0x2222, 0, cfg.bus.nSlaveCount] 6) .inPreloopSlave
  | .preloopSlaveOver =>
    if extCanLoop then { s with bus := { s.bus with daisyErrTimes := 0 }, status := .loopSlave }
    else s
  | .inNumSlave | .inConfigSlave | .inPreloopSlave | .loopSlave => s

/-- An attempt that has failed: `daisy_err_times` is counted up to ten. -/
def failed (onLast : BusMaster → BusMaster) : BusMaster :=
  let m := { s.bus with daisyErrTimes := s.bus.daisyErrTimes + 1 }
  if 10 < m.daisyErrTimes then onLast { m with daisyErrTimes := 0 } else m

/-- How the task goes on once an answer has come. -/
def goesOn : BusStart :=
  let s := { s with woken := false }
  match s.status with
  | .inNumSlave =>
    if s.bus.daisyErrFlag then { s with status := .numSlave }
    else { s with status := .numSlaveOver }
  | .inConfigSlave =>
    if s.bus.daisyErrFlag then { s with bus := s.failed id, status := .configSlave }
    else
      let s := { s with
        bus := { s.bus with daisyErrTimes := 0 },
        counted := s.handled.toList.map (fun a => (s.index, a)) ++ s.counted }
      if cfg.bus.nSubStationCount.toNat ≤ s.index + 1 then
        { s with index := 0, status := .configSlaveOver }
      else { s with index := s.index + 1, status := .configSlave }
  | .inPreloopSlave =>
    if s.bus.daisyErrFlag then { s with bus := s.failed id, status := .preloopSlave }
    else { s with bus := { s.bus with daisyErrTimes := 0 }, status := .preloopSlaveOver }
  | _ => s

/-- How the task goes on once its time is over. -/
def timeout : BusStart :=
  match s.status with
  | .inNumSlave => { s with bus := daisySetError 0x0114 0 500 s.bus, status := .numSlave }
  | .inConfigSlave =>
    { s with
      bus := s.failed (daisySetError 0x0134 (cfg.itemAddr s.index) 500), status := .configSlave }
  | .inPreloopSlave =>
    { s with bus := s.failed (daisySetError 0x0144 0 500), status := .preloopSlave }
  | _ => s

/-- `daisy_handle_lan_received_data`. -/
def receive (a : BusAnswer) : BusStart :=
  let s := { s with event := true, handled := some a }
  match s.status with
  | .inNumSlave => { s with bus := inNumSlaveHandle0101 cfg a.packet s.bus }
  | .inConfigSlave => { s with bus := inConfigSlaveHandle1C1C cfg s.index a.packet s.bus }
  | .inPreloopSlave => { s with bus := inPreloopSlaveHandle2222 cfg a.packet s.bus }
  | .loopSlave => { s with bus := loopSlaveHandle3333 cfg.bus a.packet.buf a.packet.len s.bus }
  | st => { s with bus := inOtherStatusSlaveHandle st a.packet s.bus }

/-- Request `k` comes to its device, unless another is there before it. -/
def device (k : Nat) (lanIsUp : Bool) (ret : BitVec 16 × BitVec 16) : BusStart :=
  match s.down[k]? with
  | none => s
  | some q =>
    if (s.down.take k).all fun q' => q'.pos != q.pos then
      match s.devices[q.pos]? with
      | none => s
      | some d =>
        let (d, sends) := daisyWANTask lanIsUp ret q d
        let s := { s with devices := s.devices.set q.pos d }
        match sends with
        | .lan p =>
          let q := { q with packet := p, pos := q.pos + 1 }
          { s with down := s.down.take k ++ q :: s.down.drop (k + 1) }
        | .wan p =>
          { s with
            down := s.down.take k ++ s.down.drop (k + 1)
            up := ⟨p, q.pos, q.ask, q.sent⟩ :: s.up }
    else s

/-- What happens at an event. One that cannot happen changes nothing. -/
def next : StartEvent → BusStart
  | .task extCanLoop => s.task cfg extCanLoop
  | .woken =>
    if s.status.Waits ∧ s.event = true ∧ s.woken = false then
      { s with event := false, woken := true }
    else s
  | .goesOn => if s.woken then s.goesOn cfg else s
  | .timeout => if s.event = false ∧ s.woken = false then s.timeout cfg else s
  | .answer j => match s.up[j]? with
    | some a => s.receive cfg a
    | none => s
  | .device k lanIsUp ret => s.device k lanIsUp ret
  | .lose k => { s with down := s.down.take k ++ s.down.drop (k + 1) }

end BusStart

end Kalyke
