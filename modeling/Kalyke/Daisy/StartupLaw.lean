-- SUMMARY: Starts of the extension bus: when all devices are numbered and configured once it runs.
import Kalyke.Daisy.Startup
import Kalyke.Lib.Runs

/-!
# Starts of the Bus

Whenever the exchange begins, the stations are to have their numbers in order, and each is to have
executed and acknowledged its configurations. An answer to a configuration does not say which station
it comes from. So this holds as long as an answer that the master accepts is one to the request that
it sent last, and does not come between the wake-up of its task and what the task does then. The
requests do not overtake each other: once one has been answered, all that were sent before it have
gone as far as it has.
-/

namespace Kalyke

open List Nat BitVec

/-! ## The law -/

namespace StationConfig

variable (cfg : StationConfig)

/-- The number of stations. -/
def stations : Nat := cfg.bus.nSlaveCount.toNat

/-- Device `j` is the station that item `k` is for. -/
def Station (k j : Nat) : Prop := j + 1 = (cfg.sNum k).toNat ∧ j < cfg.stations

end StationConfig

namespace BusStart

variable (cfg : StationConfig) (s : BusStart)

/-- The stations have the addresses from 1 on, in order, and the last one is marked as such. -/
def Numbered : Prop :=
  ∀ i < cfg.stations, ∃ d, s.devices[i]? = some d ∧ d.nodeAddr.toNat = i + 1 ∧ d.smartNum = true ∧
    (d.lastNode = true ↔ i + 1 = cfg.stations)

/-- The station of an item has executed its configuration since it was numbered. -/
def Done (k : Nat) : Prop :=
  ∀ j, cfg.Station k j → ∃ d, s.devices[j]? = some d ∧ Ask.config k ∈ d.executed

/-- Each answer that was counted for an item is an answer of its station to its configuration. -/
def CountedRight : Prop :=
  ∀ x ∈ s.counted, x.2.ask = .config x.1 ∧ ∀ j, cfg.Station x.1 j → x.2.station = j

/-- The stations are numbered, and each item was executed, and an answer was counted for it. -/
def Ready : Prop :=
  s.Numbered cfg ∧ ∀ k, cfg.bus.nMasterExtCount.toNat ≤ k → k < cfg.bus.nSubStationCount.toNat →
    s.Done cfg k ∧ ∃ a, (k, a) ∈ s.counted

/-- What is to hold in every state. -/
def Right : Prop := s.CountedRight cfg ∧ (s.status = .loopSlave → s.Ready cfg)

/-- The master accepts a frame as the answer it waits for. -/
def Expects (p : Packet) : Prop :=
  4 ≤ p.len ∧ match s.status with
    | .inNumSlave => p.buf.word 0 = 0x0101 ∧ p.buf.word 2 = cfg.bus.nSlaveCount
    | .inConfigSlave => p.buf.word 0 = 0x1C1C ∧ p.buf.word 2 = 0
    | .inPreloopSlave => p.buf.word 0 = 0x2222 ∧ p.buf.word 2 = cfg.bus.nSlaveCount
    | _ => False

/-- A start: the task is to number the stations. The devices may be in any state, and answers to
earlier requests may still come. -/
structure Fresh : Prop where
  status : s.status = .numSlave
  event : s.event = false
  woken : s.woken = false
  down : s.down = []
  up : ∀ a ∈ s.up, a.sent ≤ s.sent
  counted : s.counted = []

end BusStart

/-- While the devices are numbered and configured, an answer that is accepted is one to the last
request, and comes before the task is woken. -/
def StartEvent.InTurn (cfg : StationConfig) (s : BusStart) : StartEvent → Prop
  | .answer j => s.status ≠ .inPreloopSlave →
    ∀ a, s.up[j]? = some a → s.Expects cfg a.packet → a.sent = s.sent ∧ s.woken = false
  | _ => True

/-! ## Frames -/

section

variable {a b c : BitVec 16} {len : Nat} {ws : List (BitVec 16)}

theorem word_ofWords_zero : (Packet.ofWords (a :: ws) len).buf.word 0 = a :=
  Image.word_of_bytes (Image.put_apply.trans (if_pos ⟨Nat.le_refl 0, zero_lt_succ _⟩))
    (Image.put_apply.trans (if_pos ⟨Nat.zero_le 1, by simp [Image.wordBytes]⟩))

theorem word_ofWords_two : (Packet.ofWords [a, b, c] len).buf.word 2 = b :=
  Image.word_of_bytes rfl rfl

end

/-! ## Devices -/

/-- What a device has is still there. -/
structure SmartNode.Keeps (d d' : SmartNode) : Prop where
  nodeAddr : d'.nodeAddr = d.nodeAddr
  smartNum : d'.smartNum = d.smartNum
  lastNode : d'.lastNode = d.lastNode
  executed : d.executed ⊆ d'.executed

theorem SmartNode.Keeps.refl (d : SmartNode) : d.Keeps d := ⟨rfl, rfl, rfl, fun _ h => h⟩

/-- A device is numbered. It sends the request on unless it is the last, or an error back. -/
theorem handleCmd0101_cases (lanIsUp : Bool) (p : Packet) (d : SmartNode) :
    ∃ d' sends, handleCmd0101 lanIsUp p d = (d', sends) ∧ d'.nodeAddr = p.buf.word 2 + 1 ∧
      d'.smartNum = true ∧
      ((∃ p', sends = .lan p' ∧ d'.lastNode = false ∧ p'.buf.word 0 = p.buf.word 0 ∧
          p'.buf.word 2 = p.buf.word 2 + 1 ∧ p'.buf.word 4 = p.buf.word 4) ∨
        (∃ p', sends = .wan p' ∧ d'.lastNode = true ∧ p'.buf.word 2 = p.buf.word 2 + 1) ∨
        ∃ p', sends = .wan p' ∧ p'.buf.word 0 = 0x5555) := by
  have hlen (x : BitVec 16) : (Image.wordBytes x).length = 2 := rfl
  have hzero : (p.buf.put 2 (Image.wordBytes (p.buf.word 2 + 1))).word 0 = p.buf.word 0 :=
    Image.word_put_of_apart (.inl (by omega))
  have hfour : (p.buf.put 2 (Image.wordBytes (p.buf.word 2 + 1))).word 4 = p.buf.word 4 :=
    Image.word_put_of_apart (.inr (by rw [hlen]))
  have htwo : (p.buf.put 2 (Image.wordBytes (p.buf.word 2 + 1))).word 2 = p.buf.word 2 + 1 :=
    Image.word_put_wordBytes
  rw [handleCmd0101]
  split
  · split
    · exact ⟨_, _, rfl, rfl, rfl, .inl ⟨_, rfl, rfl, hzero, htwo, hfour⟩⟩
    · exact ⟨_, _, rfl, rfl, rfl, .inr (.inl ⟨_, rfl, rfl, htwo⟩)⟩
  split
  · exact ⟨_, _, rfl, rfl, rfl, .inr (.inl ⟨_, rfl, rfl, htwo⟩)⟩
  split
  · exact ⟨_, _, rfl, rfl, rfl, .inl ⟨_, rfl, rfl, hzero, htwo, hfour⟩⟩
  · exact ⟨_, _, rfl, rfl, rfl, .inr (.inr ⟨_, rfl, word_ofWords_zero⟩)⟩

/-- A device executes a configuration that is for it, and sends others on. -/
theorem handleCmd1C1C_cases (lanIsUp : Bool) (ret : BitVec 16 × BitVec 16) (ask : Ask) (p : Packet)
    (d : SmartNode) :
    ∃ d' sends, handleCmd1C1C lanIsUp ret ask p d = (d', sends) ∧ d.Keeps d' ∧
      ((sends = .lan p ∧ (p.buf 3).setWidth 16 ≠ d.nodeAddr) ∨
        (∃ p', sends = .wan p' ∧ (p.buf 3).setWidth 16 = d.nodeAddr ∧ ask ∈ d'.executed) ∨
        ∃ p', sends = .wan p' ∧ p'.buf.word 0 = 0x5555) := by
  rw [handleCmd1C1C]
  split
  · exact ⟨_, _, rfl, .refl d, .inr (.inr ⟨_, rfl, word_ofWords_zero⟩)⟩
  split
  · rename_i hother
    split
    · exact ⟨_, _, rfl, .refl d, .inl ⟨rfl, hother⟩⟩
    · exact ⟨_, _, rfl, .refl d, .inr (.inr ⟨_, rfl, word_ofWords_zero⟩)⟩
  rename_i hown
  have hown := not_not.mp hown
  split
  · split
    · exact ⟨_, _, rfl, ⟨rfl, rfl, rfl, fun _ h => mem_cons_of_mem _ h⟩,
        .inr (.inl ⟨_, rfl, hown, mem_cons_self⟩)⟩
    · exact ⟨_, _, rfl, ⟨rfl, rfl, rfl, fun _ h => h⟩, .inr (.inr ⟨_, rfl, word_ofWords_zero⟩)⟩
  · exact ⟨_, _, rfl, ⟨rfl, rfl, rfl, fun _ h => h⟩, .inr (.inr ⟨_, rfl, word_ofWords_zero⟩)⟩

/-- A device that is asked whether it is ready stays as it is. -/
theorem handleCmd2222_cases (lanIsUp : Bool) (p : Packet) (d : SmartNode) :
    ∃ sends, handleCmd2222 lanIsUp p d = (d, sends) ∧
      ∀ p', sends = .lan p' → p'.buf.word 0 = p.buf.word 0 := by
  have hzero : (p.buf.put 2 (Image.wordBytes (p.buf.word 2 + 1))).word 0 = p.buf.word 0 :=
    Image.word_put_of_apart (.inl (by omega))
  have hback {x y z : BitVec 16} (p' : Packet) (h : daisyHandleErrToMaster x y z = .lan p') :
      p'.buf.word 0 = p.buf.word 0 := by cases h
  rw [handleCmd2222]
  split
  · exact ⟨_, rfl, hback⟩
  split
  · exact ⟨_, rfl, hback⟩
  split
  · exact ⟨_, rfl, fun p' h => by cases h⟩
  split
  · refine ⟨_, rfl, fun p' h => ?_⟩
    cases h
    exact hzero
  · exact ⟨_, rfl, hback⟩

/-! ## The invariant -/

/-- The devices have said that they are ready. -/
def DaisyStatus.Over (st : DaisyStatus) : Prop := st = preloopSlaveOver ∨ st = loopSlave

instance (st : DaisyStatus) : Decidable st.Over := by unfold DaisyStatus.Over; infer_instance

/-- What a request looks like on its way to device `pos`. -/
def BusRequest.Shaped (cfg : StationConfig) (q : BusRequest) : Prop :=
  match q.ask with
  | .num => q.packet.buf.word 0 = 0x0101 ∧ q.packet.buf.word 2 = BitVec.ofNat 16 q.pos
  | .config k => q.packet.buf.word 0 = 0x1C1C ∧ q.packet.buf 3 = cfg.sNum k
  | .preloop => q.packet.buf.word 0 = 0x2222

namespace BusStart

variable (cfg : StationConfig) (s : BusStart)

/-- What requests the stations can get. -/
def stage : Option Ask :=
  match s.status with
  | .numSlave | .inNumSlave => some .num
  | .numSlaveOver => none
  | .configSlave | .inConfigSlave => some (.config s.index)
  | .configSlaveOver | .preloopSlave | .inPreloopSlave | .preloopSlaveOver | .loopSlave =>
    some .preloop

/-- Up to which item the stations are configured. -/
def progress : Nat :=
  match s.status with
  | .numSlave | .inNumSlave | .numSlaveOver => cfg.bus.nMasterExtCount.toNat
  | .configSlave | .inConfigSlave => s.index
  | .configSlaveOver | .preloopSlave | .inPreloopSlave | .preloopSlaveOver | .loopSlave =>
    cfg.bus.nSubStationCount.toNat

/-- No request is on its way to a station. -/
def Clear : Prop := ∀ q ∈ s.down, cfg.stations ≤ q.pos

/-- What an answer says that the master accepts. -/
def Means (a : BusAnswer) : Prop :=
  match s.status with
  | .inNumSlave => s.Clear cfg ∧ s.Numbered cfg
  | .inConfigSlave => s.Clear cfg ∧ s.Done cfg s.index ∧ a.ask = .config s.index ∧
      ∀ j, cfg.Station s.index j → a.station = j
  | _ => True

/-- The invariant of a start. -/
structure Inv : Prop where
  short : s.devices.length < 65536
  order : s.down.Pairwise fun q q' => q'.pos ≤ q.pos ∧ q.sent < q'.sent
  downSent : ∀ q ∈ s.down, q.sent ≤ s.sent
  upSent : ∀ a ∈ s.up, a.sent ≤ s.sent
  shaped : ∀ q ∈ s.down, q.Shaped cfg
  before : ∀ q ∈ s.down, ∀ k j, q.ask = .config k → cfg.Station k j → q.pos ≤ j
  staged : ∀ q ∈ s.down, q.pos < cfg.stations → s.stage = some q.ask
  current : s.status.Waits → ∀ q ∈ s.down, q.sent = s.sent → s.stage = some q.ask
  numbering : s.status = .inNumSlave → ∀ q ∈ s.down, q.sent = s.sent → ∀ i < q.pos,
    i < cfg.stations → ∃ d, s.devices[i]? = some d ∧ d.nodeAddr.toNat = i + 1 ∧
      d.smartNum = true ∧ d.lastNode = false
  numbered : s.stage ≠ some .num → s.Numbered cfg
  configured : ∀ k, cfg.bus.nMasterExtCount.toNat ≤ k → k < s.progress cfg →
    s.Done cfg k ∧ ∃ a, (k, a) ∈ s.counted
  counted : s.CountedRight cfg
  answers : s.status.Waits → ∀ a ∈ s.up, a.sent = s.sent → s.Expects cfg a.packet → s.Means cfg a
  pending : s.status.Waits → s.event = true ∨ s.woken = true → s.bus.daisyErrFlag = false →
    ∃ a, s.handled = some a ∧ s.Means cfg a
  idle : ¬ s.status.Waits → ¬ s.status.Over → s.event = true → s.bus.daisyErrFlag = true
  awake : s.woken = true → s.status.Waits ∧
    (s.status ≠ .inPreloopSlave → s.event = true → s.bus.daisyErrFlag = true)

variable {cfg s} {s' : BusStart}

theorem Inv.right (h : s.Inv cfg) : s.Right cfg := by
  refine ⟨h.counted, fun hloop => ⟨h.numbered (by rw [stage, hloop]; simp), fun k hk hlt => ?_⟩⟩
  exact h.configured k hk (by rw [progress, hloop]; exact hlt)

theorem Fresh.inv (h : s.Fresh) (hshort : s.devices.length < 65536) : s.Inv cfg where
  short := hshort
  order := by rw [h.down]; exact .nil
  downSent q hq := by rw [h.down] at hq; cases hq
  upSent := h.up
  shaped q hq := by rw [h.down] at hq; cases hq
  before q hq := by rw [h.down] at hq; cases hq
  staged q hq := by rw [h.down] at hq; cases hq
  current _ q hq := by rw [h.down] at hq; cases hq
  numbering hst := by rw [h.status] at hst; cases hst
  numbered hne := absurd (by rw [stage, h.status]) hne
  configured k hk hlt := by
    simp only [progress, h.status] at hlt
    exact absurd hk (Nat.not_le.mpr hlt)
  counted x hx := by rw [h.counted] at hx; cases hx
  answers hwaits := by rw [h.status] at hwaits; exact absurd hwaits (by decide)
  pending hwaits := by rw [h.status] at hwaits; exact absurd hwaits (by decide)
  idle _ _ hevent := by rw [h.event] at hevent; cases hevent
  awake hwoken := by rw [h.woken] at hwoken; cases hwoken

/-! ## Steps of the master -/

theorem Inv.send (h : s.Inv cfg) {ask : Ask} {p : Packet} {st : DaisyStatus}
    (hidle : ¬ s.status.Waits) (hover : ¬ s.status.Over) (hask : s.stage = some ask)
    (hstage : (s.send ask p st).stage = s.stage)
    (hprogress : (s.send ask p st).progress cfg = s.progress cfg)
    (hshaped : BusRequest.Shaped cfg ⟨p, 0, ask, s.sent + 1⟩) : (s.send ask p st).Inv cfg := by
  have hmem {q : BusRequest} (hq : q ∈ (s.send ask p st).down) :
      q ∈ s.down ∨ q = ⟨p, 0, ask, s.sent + 1⟩ :=
    (mem_append.mp hq).imp_right mem_singleton.mp
  have hasleep : s.woken ≠ true := fun hwoken => hidle (h.awake hwoken).1
  refine
    { short := h.short
      order := pairwise_append.mpr ⟨h.order, pairwise_singleton _ _, ?_⟩
      downSent := fun q hq => ?_
      upSent := fun a ha => le_succ_of_le (h.upSent a ha)
      shaped := fun q hq => ?_
      before := fun q hq k j hk hj => ?_
      staged := fun q hq hlt => ?_
      current := fun _ q hq hsent => ?_
      numbering := fun _ q hq hsent i hi => ?_
      numbered := fun hne => h.numbered (hstage ▸ hne)
      configured := fun k hk hlt => h.configured k hk (hprogress ▸ hlt)
      counted := h.counted
      answers := fun _ a ha hsent => ?_
      pending := fun _ hevent hflag => ?_
      idle := fun _ _ hevent => h.idle hidle hover hevent
      awake := fun hwoken => absurd hwoken hasleep }
  · intro q hq q' hq'
    rw [mem_singleton.mp hq']
    exact ⟨Nat.zero_le _, lt_succ_of_le (h.downSent q hq)⟩
  · rcases hmem hq with hq | rfl
    · exact le_succ_of_le (h.downSent q hq)
    · exact Nat.le_refl _
  · rcases hmem hq with hq | rfl
    · exact h.shaped q hq
    · exact hshaped
  · rcases hmem hq with hq | rfl
    · exact h.before q hq k j hk hj
    · exact Nat.zero_le j
  · rw [hstage]
    rcases hmem hq with hq | rfl
    · exact h.staged q hq hlt
    · exact hask
  · rw [hstage]
    rcases hmem hq with hq | rfl
    · exact absurd hsent (Nat.ne_of_lt (lt_succ_of_le (h.downSent q hq)))
    · exact hask
  · rcases hmem hq with hq | rfl
    · exact absurd hsent (Nat.ne_of_lt (lt_succ_of_le (h.downSent q hq)))
    · exact absurd hi (Nat.not_lt_zero i)
  · exact absurd hsent (Nat.ne_of_lt (lt_succ_of_le (h.upSent a ha)))
  · rcases hevent with hevent | hwoken
    · exact absurd ((h.idle hidle hover hevent).symm.trans hflag) (by decide)
    · exact absurd hwoken hasleep

/-- A step of the task to a state in which it does not wait, with the frames as they are. -/
theorem Inv.leaves (h : s.Inv cfg) (hdevices : s'.devices = s.devices) (hdown : s'.down = s.down)
    (hup : s'.up = s.up) (hsent : s'.sent = s.sent) (hidle : ¬ s'.status.Waits)
    (hwoken : s'.woken = false)
    (hstaged : ∀ q ∈ s.down, q.pos < cfg.stations → s'.stage = some q.ask)
    (hnumbered : s'.stage ≠ some .num → s.Numbered cfg)
    (hconfigured : ∀ k, cfg.bus.nMasterExtCount.toNat ≤ k → k < s'.progress cfg →
      s.Done cfg k ∧ ∃ a, (k, a) ∈ s'.counted)
    (hcounted : s'.CountedRight cfg)
    (hevent : ¬ s'.status.Over → s'.event = true → s'.bus.daisyErrFlag = true) :
    s'.Inv cfg where
  short := by rw [hdevices]; exact h.short
  order := by rw [hdown]; exact h.order
  downSent := by rw [hdown, hsent]; exact h.downSent
  upSent := by rw [hup, hsent]; exact h.upSent
  shaped := by rw [hdown]; exact h.shaped
  before := by rw [hdown]; exact h.before
  staged := by rw [hdown]; exact hstaged
  current hwaits := absurd hwaits hidle
  numbering hst := absurd (.inl hst) hidle
  numbered hne := by
    rw [Numbered, hdevices]
    exact hnumbered hne
  configured k hk hlt := by
    rw [Done, hdevices]
    exact hconfigured k hk hlt
  counted := hcounted
  answers hwaits := absurd hwaits hidle
  pending hwaits := absurd hwaits hidle
  idle _ := hevent
  awake h' := by rw [hwoken] at h'; cases h'

/-- A step of the task that stays in its stage. -/
theorem Inv.stays (h : s.Inv cfg) (hdevices : s'.devices = s.devices) (hdown : s'.down = s.down)
    (hup : s'.up = s.up) (hsent : s'.sent = s.sent) (hidle : ¬ s'.status.Waits)
    (hwoken : s'.woken = false) (hstage : s'.stage = s.stage)
    (hprogress : s'.progress cfg = s.progress cfg) (hcounted : s'.counted = s.counted)
    (hevent : ¬ s'.status.Over → s'.event = true → s'.bus.daisyErrFlag = true) :
    s'.Inv cfg := by
  refine h.leaves hdevices hdown hup hsent hidle hwoken (fun q hq hlt => ?_) (fun hne => ?_)
    (fun k hk hlt => ?_) ?_ hevent
  · rw [hstage]
    exact h.staged q hq hlt
  · exact h.numbered (hstage ▸ hne)
  · rw [hcounted]
    exact h.configured k hk (hprogress ▸ hlt)
  · rw [CountedRight, hcounted]
    exact h.counted

/-- The task goes on from a state in which it does not wait. -/
theorem Inv.task (h : s.Inv cfg) (extCanLoop : Bool) : (s.task cfg extCanLoop).Inv cfg := by
  have hword (x : BitVec 16) : (Image.wordBytes x).length = 2 := rfl
  have hasleep (hidle : ¬ s.status.Waits) : s.woken = false :=
    Bool.eq_false_iff.mpr fun hwoken => hidle (h.awake hwoken).1
  rw [BusStart.task]
  split
  · rename_i hst
    have hstage : s.stage = some .num := by rw [stage, hst]
    have hempty : BusStart.Inv cfg { s with counted := [] } := by
      refine h.leaves rfl rfl rfl rfl (by simp only [hst]; decide) (hasleep (by rw [hst]; decide))
        h.staged h.numbered (fun k hk hlt => ?_) (fun x hx => by cases hx)
        fun hover hevent => h.idle (by rw [hst]; decide) hover hevent
      simp only [hst] at hlt
      exact absurd hk (Nat.not_le.mpr hlt)
    refine hempty.send (by simp only [hst]; decide) (by simp only [hst]; decide) hstage ?_ ?_
      ⟨word_ofWords_zero, word_ofWords_two⟩
    · simp only [stage, BusStart.send, hst]
    · simp only [progress, BusStart.send, hst]
  · rename_i hst
    have hidle : ¬ DaisyStatus.configSlave.Waits := by decide
    refine h.leaves rfl rfl rfl rfl hidle (hasleep (by rw [hst]; decide))
      (fun q hq hlt => ?_) (fun _ => h.numbered (by simp [stage, hst])) (fun k hk hlt => ?_)
      h.counted fun _ hevent => h.idle (by rw [hst]; decide) (by rw [hst]; decide) hevent
    · have hnone := h.staged q hq hlt
      rw [stage, hst] at hnone
      cases hnone
    · exact absurd hk (Nat.not_le.mpr hlt)
  · rename_i hst
    refine h.send (by rw [hst]; decide) (by rw [hst]; decide) (by rw [stage, hst]) ?_ ?_ ⟨?_, ?_⟩
    · simp only [stage, BusStart.send, hst]
    · simp only [progress, BusStart.send, hst]
    · exact (Image.word_put_of_apart (.inl (by omega))).trans Image.word_put_wordBytes
    · change Image.put _ 2 _ 3 = _
      rw [Image.put_apply]
      split
      · rfl
      · rename_i hout
        have hshort : (cfg.item s.index).length ≤ 1 := by omega
        rw [Image.put_apply, if_neg (by rw [hword]; omega), StationConfig.sNum,
          getD_eq_default _ _ hshort]
  · rename_i hst
    have hidle : ¬ DaisyStatus.preloopSlave.Waits := by decide
    refine h.stays rfl rfl rfl rfl hidle (hasleep (by rw [hst]; decide)) ?_ ?_ rfl
      fun _ hevent => h.idle (by rw [hst]; decide) (by rw [hst]; decide) hevent
    · simp only [stage, hst]
    · simp only [progress, hst]
  · rename_i hst
    refine h.send (by rw [hst]; decide) (by rw [hst]; decide) (by rw [stage, hst]) ?_ ?_
      word_ofWords_zero
    · simp only [stage, BusStart.send, hst]
    · simp only [progress, BusStart.send, hst]
  · rename_i hst
    split
    · have hidle : ¬ DaisyStatus.loopSlave.Waits := by decide
      refine h.stays rfl rfl rfl rfl hidle (hasleep (by rw [hst]; decide)) ?_ ?_ rfl
        fun hover => absurd (.inr rfl) hover
      · simp only [stage, hst]
      · simp only [progress, hst]
    · exact h
  · exact h
  · exact h
  · exact h
  · exact h

/-- The error flag after an attempt that has failed. -/
theorem failed_daisyErrFlag : (s.failed id).daisyErrFlag = s.bus.daisyErrFlag := by
  rw [failed]
  split
  · rfl
  · rfl

theorem Inv.goesOn (h : s.Inv cfg) (hwoken : s.woken = true) : (s.goesOn cfg).Inv cfg := by
  obtain ⟨hwaits, hagain⟩ := h.awake hwoken
  have hquiet (hst : s.status ≠ .inPreloopSlave) (hflag : s.bus.daisyErrFlag = false)
      (hevent : s.event = true) : False := by
    rw [hagain hst hevent] at hflag
    cases hflag
  rcases hwaits with hst | hst | hst
  · simp only [BusStart.goesOn, hst]
    split
    · rename_i hflag
      have hidle : ¬ DaisyStatus.numSlave.Waits := by decide
      refine h.stays rfl rfl rfl rfl hidle rfl ?_ ?_ rfl fun _ _ => hflag
      · simp only [stage, hst]
      · simp only [progress, hst]
    · rename_i hflag
      have hflag := Bool.eq_false_iff.mpr hflag
      obtain ⟨a, -, hmeans⟩ := h.pending (.inl hst) (.inr hwoken) hflag
      simp only [Means, hst] at hmeans
      have hidle : ¬ DaisyStatus.numSlaveOver.Waits := by decide
      refine h.leaves rfl rfl rfl rfl hidle rfl (fun q hq hlt => ?_) (fun _ => hmeans.2)
        (fun k hk hlt => absurd hk (Nat.not_le.mpr hlt)) h.counted
        fun _ hevent => (hquiet (by rw [hst]; decide) hflag hevent).elim
      exact absurd hlt (Nat.not_lt.mpr (hmeans.1 q hq))
  · simp only [BusStart.goesOn, hst]
    split
    · rename_i hflag
      have hidle : ¬ DaisyStatus.configSlave.Waits := by decide
      refine h.stays rfl rfl rfl rfl hidle rfl ?_ ?_ rfl
        fun _ _ => failed_daisyErrFlag.trans hflag
      · simp only [stage, hst]
      · simp only [progress, hst]
    · rename_i hflag
      have hflag := Bool.eq_false_iff.mpr hflag
      obtain ⟨a, ha, hmeans⟩ := h.pending (.inr (.inl hst)) (.inr hwoken) hflag
      simp only [Means, hst] at hmeans
      obtain ⟨hclear, hdone, hask, hstation⟩ := hmeans
      have hlist : s.handled.toList.map (fun a => (s.index, a)) ++ s.counted =
          (s.index, a) :: s.counted := by rw [ha]; rfl
      have hcounted : ∀ x ∈ (s.index, a) :: s.counted, x.2.ask = .config x.1 ∧
          ∀ j, cfg.Station x.1 j → x.2.station = j :=
        forall_mem_cons.mpr ⟨⟨hask, hstation⟩, h.counted⟩
      have hstaged {st : Option Ask} (q : BusRequest) (hq : q ∈ s.down)
          (hlt : q.pos < cfg.stations) : st = some q.ask :=
        absurd hlt (Nat.not_lt.mpr (hclear q hq))
      have hconfigured (k : Nat) (hk : cfg.bus.nMasterExtCount.toNat ≤ k) (hlt : k < s.index + 1) :
          s.Done cfg k ∧ ∃ a', (k, a') ∈ (s.index, a) :: s.counted := by
        rcases Nat.lt_succ_iff_lt_or_eq.mp hlt with hlt | rfl
        · obtain ⟨hdone, a', ha'⟩ := h.configured k hk (by simp only [progress, hst]; exact hlt)
          exact ⟨hdone, a', mem_cons_of_mem _ ha'⟩
        · exact ⟨hdone, a, mem_cons_self⟩
      have hnumbered : s.Numbered cfg := h.numbered (by simp [stage, hst])
      simp only [hlist]
      split
      · rename_i hlast
        have hidle : ¬ DaisyStatus.configSlaveOver.Waits := by decide
        exact h.leaves rfl rfl rfl rfl hidle rfl hstaged (fun _ => hnumbered)
          (fun k hk hlt => hconfigured k hk (Nat.lt_of_lt_of_le hlt hlast)) hcounted
          fun _ hevent => (hquiet (by rw [hst]; decide) hflag hevent).elim
      · have hidle : ¬ DaisyStatus.configSlave.Waits := by decide
        exact h.leaves rfl rfl rfl rfl hidle rfl hstaged (fun _ => hnumbered) hconfigured hcounted
          fun _ hevent => (hquiet (by rw [hst]; decide) hflag hevent).elim
  · simp only [BusStart.goesOn, hst]
    split
    · rename_i hflag
      have hidle : ¬ DaisyStatus.preloopSlave.Waits := by decide
      refine h.stays rfl rfl rfl rfl hidle rfl ?_ ?_ rfl
        fun _ _ => failed_daisyErrFlag.trans hflag
      · simp only [stage, hst]
      · simp only [progress, hst]
    · rename_i hflag
      have hidle : ¬ DaisyStatus.preloopSlaveOver.Waits := by decide
      refine h.stays rfl rfl rfl rfl hidle rfl ?_ ?_ rfl
        fun hover => absurd (.inl rfl) hover
      · simp only [stage, hst]
      · simp only [progress, hst]

/-- The time of the task is over. -/
theorem Inv.timeout (h : s.Inv cfg) (hevent : s.event = false) (hwoken : s.woken = false) :
    (s.timeout cfg).Inv cfg := by
  have hnone {m : BusMaster} (h : s.event = true) : m.daisyErrFlag = true := by
    rw [hevent] at h
    cases h
  rw [BusStart.timeout]
  split
  · rename_i hst
    have hidle : ¬ DaisyStatus.numSlave.Waits := by decide
    refine h.stays rfl rfl rfl rfl hidle hwoken ?_ ?_ rfl fun _ => hnone
    · simp only [stage, hst]
    · simp only [progress, hst]
  · rename_i hst
    have hidle : ¬ DaisyStatus.configSlave.Waits := by decide
    refine h.stays rfl rfl rfl rfl hidle hwoken ?_ ?_ rfl fun _ => hnone
    · simp only [stage, hst]
    · simp only [progress, hst]
  · rename_i hst
    have hidle : ¬ DaisyStatus.preloopSlave.Waits := by decide
    refine h.stays rfl rfl rfl rfl hidle hwoken ?_ ?_ rfl fun _ => hnone
    · simp only [stage, hst]
    · simp only [progress, hst]
  · exact h

/-- The task is woken. -/
theorem Inv.woken (h : s.Inv cfg) (hwaits : s.status.Waits) (hevent : s.event = true) :
    BusStart.Inv cfg { s with event := false, woken := true } :=
  { h with
    pending := fun hwaits _ => h.pending hwaits (.inl hevent)
    idle := fun _ _ hevent => by cases hevent
    awake := fun _ => ⟨hwaits, fun _ hevent => by cases hevent⟩ }

/-! ## Answers -/

/-- Each handler of an answer accepts one of its own. -/
theorem handleAnswer_daisyErrFlag {cmd lenErr cmdErr valueErr addr value : BitVec 16} {p : Packet}
    {m : BusMaster} (hflag : (handleAnswer cmd lenErr cmdErr valueErr addr value p m).daisyErrFlag =
      false) : 4 ≤ p.len ∧ p.buf.word 0 = cmd ∧ p.buf.word 2 = value := by
  have herr {x y z : BitVec 16} (h : (daisySetError x y z m).daisyErrFlag = false) : False := by
    cases h
  rw [handleAnswer] at hflag
  split at hflag
  · exact (herr hflag).elim
  rename_i hlen
  split at hflag
  · split at hflag
    · exact (herr hflag).elim
    · exact (herr hflag).elim
  rename_i hcmd
  split at hflag
  · exact (herr hflag).elim
  rename_i hvalue
  exact ⟨Nat.le_of_not_lt hlen, not_not.mp hcmd, not_not.mp hvalue⟩

theorem inOtherStatusSlaveHandle_daisyErrFlag {st : DaisyStatus} {p : Packet} {m : BusMaster} :
    (inOtherStatusSlaveHandle st p m).daisyErrFlag = true := by
  rw [inOtherStatusSlaveHandle]
  split
  · rfl
  split
  · rfl
  · rfl

/-- An answer comes. -/
theorem Inv.receive (h : s.Inv cfg) {a : BusAnswer} (ha : a ∈ s.up)
    (hturn : s.status ≠ .inPreloopSlave → s.Expects cfg a.packet →
      a.sent = s.sent ∧ s.woken = false) : (s.receive cfg a).Inv cfg := by
  -- A handler that clears the error has an answer that is expected.
  have hwaiting (m : BusMaster) (hwaits : s.status.Waits) (hne : s.status ≠ .inPreloopSlave)
      (haccepts : m.daisyErrFlag = false → s.Expects cfg a.packet) :
      BusStart.Inv cfg { s with event := true, handled := some a, bus := m } :=
    { h with
      pending := fun _ _ hflag =>
        ⟨a, rfl, h.answers hwaits a ha (hturn hne (haccepts hflag)).1 (haccepts hflag)⟩
      idle := fun hidle => absurd hwaits hidle
      awake := fun hwoken => ⟨hwaits, fun _ _ => by
        by_contra hflag
        have hasleep := (hturn hne (haccepts (Bool.eq_false_iff.mpr hflag))).2
        rw [hasleep] at hwoken
        cases hwoken⟩ }
  have hother (m : BusMaster) (hidle : ¬ s.status.Waits)
      (hflag : ¬ s.status.Over → m.daisyErrFlag = true) :
      BusStart.Inv cfg { s with event := true, handled := some a, bus := m } :=
    { h with
      pending := fun hwaits => absurd hwaits hidle
      idle := fun _ hover _ => hflag hover
      awake := fun hwoken => absurd (h.awake hwoken).1 hidle }
  rw [BusStart.receive]
  simp only
  split
  · rename_i hst
    refine hwaiting _ (.inl hst) (by rw [hst]; decide) fun hflag => ?_
    rw [Expects, hst]
    exact handleAnswer_daisyErrFlag hflag
  · rename_i hst
    refine hwaiting _ (.inr (.inl hst)) (by rw [hst]; decide) fun hflag => ?_
    rw [Expects, hst]
    exact handleAnswer_daisyErrFlag hflag
  · rename_i hst
    exact
      { h with
        pending := fun _ _ _ => ⟨a, rfl, by simp only [Means, hst]⟩
        idle := fun hidle => absurd (.inr (.inr hst)) hidle
        awake := fun _ => ⟨.inr (.inr hst), fun hne => absurd hst hne⟩ }
  · rename_i hst
    exact hother _ (by rw [hst]; decide) fun hover => absurd (.inr hst) hover
  · rename_i hnum hconfig hpreloop hloop
    refine hother _ ?_ fun _ => inOtherStatusSlaveHandle_daisyErrFlag
    rintro (hst | hst | hst)
    · exact hnum hst
    · exact hconfig hst
    · exact hpreloop hst

/-! ## Requests on their way -/

/-- The stations keep what they have. -/
def StationsKeep (cfg : StationConfig) (s s' : BusStart) : Prop :=
  ∀ i < cfg.stations, ∀ d, s.devices[i]? = some d → ∃ d', s'.devices[i]? = some d' ∧ d.Keeps d'

theorem Numbered.mono (h : s.Numbered cfg) (hkeep : StationsKeep cfg s s') : s'.Numbered cfg := by
  intro i hi
  obtain ⟨d, hd, haddr, hnum, hlast⟩ := h i hi
  obtain ⟨d', hd', hkeeps⟩ := hkeep i hi d hd
  refine ⟨d', hd', ?_, ?_, ?_⟩
  · rw [hkeeps.nodeAddr, haddr]
  · rw [hkeeps.smartNum, hnum]
  · rw [hkeeps.lastNode, hlast]

theorem Done.mono {k : Nat} (h : s.Done cfg k) (hkeep : StationsKeep cfg s s') : s'.Done cfg k := by
  intro j hj
  obtain ⟨d, hd, hmem⟩ := h j hj
  obtain ⟨d', hd', hkeeps⟩ := hkeep j hj.2 d hd
  exact ⟨d', hd', hkeeps.executed hmem⟩

/-- What an answer says still holds where the stations keep what they have and no request comes back
to one. -/
theorem Means.mono {a : BusAnswer} (h : s.Means cfg a) (hstatus : s'.status = s.status)
    (hindex : s'.index = s.index) (hclear : s.Clear cfg → s'.Clear cfg)
    (hkeep : StationsKeep cfg s s') : s'.Means cfg a := by
  unfold Means at h ⊢
  rw [hstatus, hindex]
  split at h
  · exact ⟨hclear h.1, h.2.mono hkeep⟩
  · exact ⟨hclear h.1, h.2.1.mono hkeep, h.2.2⟩
  · trivial

/-- Requests are lost. -/
theorem Inv.fewer (h : s.Inv cfg) {down : List BusRequest} (hsub : down.Sublist s.down) :
    BusStart.Inv cfg { s with down := down } := by
  have hkeep : StationsKeep cfg s { s with down := down } := fun i _ d hd => ⟨d, hd, .refl d⟩
  have hmeans {a : BusAnswer} (h : s.Means cfg a) : BusStart.Means cfg { s with down := down } a :=
    h.mono rfl rfl (fun hclear q hq => hclear q (hsub.subset hq)) hkeep
  exact
    { h with
      order := h.order.sublist hsub
      downSent := fun q hq => h.downSent q (hsub.subset hq)
      shaped := fun q hq => h.shaped q (hsub.subset hq)
      before := fun q hq => h.before q (hsub.subset hq)
      staged := fun q hq => h.staged q (hsub.subset hq)
      current := fun hwaits q hq => h.current hwaits q (hsub.subset hq)
      numbering := fun hst q hq => h.numbering hst q (hsub.subset hq)
      answers := fun hwaits a ha hsent hexpects => hmeans (h.answers hwaits a ha hsent hexpects)
      pending := fun hwaits hevent hflag => by
        obtain ⟨a, ha, hmean⟩ := h.pending hwaits hevent hflag
        exact ⟨a, ha, hmeans hmean⟩ }

section

variable {l r ms : List BusRequest} {as : List BusAnswer} {q : BusRequest} {d d' : SmartNode}

/-- The state after a device has handled a request. -/
def moved (s : BusStart) (l ms r : List BusRequest) (as : List BusAnswer) (q : BusRequest)
    (d' : SmartNode) : BusStart :=
  { s with devices := s.devices.set q.pos d', down := l ++ (ms ++ r), up := as ++ s.up }

/-- What becomes of a request: it goes on, or it is answered. -/
def routed (s : BusStart) (l r : List BusRequest) (q : BusRequest) : SmartNode × Sends → BusStart
  | (d', .lan p) => s.moved l [{ q with packet := p, pos := q.pos + 1 }] r [] q d'
  | (d', .wan p) => s.moved l [] r [⟨p, q.pos, q.ask, q.sent⟩] q d'

/-- Older requests are further on, newer ones are not. -/
theorem Inv.around (h : s.Inv cfg) (hdown : s.down = l ++ q :: r)
    (hfirst : ∀ x ∈ l, x.pos ≠ q.pos) :
    (∀ x ∈ l, q.pos < x.pos ∧ x.sent < q.sent) ∧ ∀ x ∈ r, x.pos ≤ q.pos ∧ q.sent < x.sent := by
  have horder := h.order
  rw [hdown] at horder
  obtain ⟨-, hright, hcross⟩ := pairwise_append.mp horder
  refine ⟨fun x hx => ?_, (pairwise_cons.mp hright).1⟩
  obtain ⟨hpos, hsent⟩ := hcross x hx q mem_cons_self
  exact ⟨Nat.lt_of_le_of_ne hpos (hfirst x hx).symm, hsent⟩

/-- Once the last request has been answered behind the other stations, none is on its way to one. -/
theorem clear_moved (as : List BusAnswer) (d' : SmartNode) (h : s.Inv cfg)
    (hdown : s.down = l ++ q :: r)
    (hfirst : ∀ x ∈ l, x.pos ≠ q.pos) (hlast : q.sent = s.sent)
    (hl : ∀ x ∈ l, q.pos < x.pos → cfg.stations ≤ x.pos) :
    (s.moved l [] r as q d').Clear cfg := by
  obtain ⟨hahead, hbehind⟩ := h.around hdown hfirst
  intro x hx
  rcases mem_append.mp hx with hx | hx
  · exact hl x hx (hahead x hx).1
  · have hle := h.downSent x (by rw [hdown]; simp [show x ∈ r from hx])
    have hlt := (hbehind x hx).2
    omega

/-- A device handles a request: it sends it on or answers it. -/
theorem Inv.moved (h : s.Inv cfg) (hdown : s.down = l ++ q :: r)
    (hfirst : ∀ x ∈ l, x.pos ≠ q.pos) (hd : s.devices[q.pos]? = some d)
    (hnum : q.ask = .num → d'.nodeAddr.toNat = q.pos + 1 ∧ d'.smartNum = true)
    (hkeeps : q.ask ≠ .num → d.Keeps d') (hone : ms.length ≤ 1)
    (hms : ∀ x ∈ ms, x.pos = q.pos + 1 ∧ x.sent = q.sent ∧ x.ask = q.ask ∧ x.Shaped cfg ∧
      (∀ k j, q.ask = .config k → cfg.Station k j → q.pos ≠ j) ∧
      (q.ask = .num → d'.lastNode = false))
    (has : ∀ a ∈ as, a.sent = q.sent ∧ (s.status.Waits → q.sent = s.sent →
      s.Expects cfg a.packet → (s.moved l ms r as q d').Means cfg a)) :
    (s.moved l ms r as q d').Inv cfg := by
  obtain ⟨hahead, hbehind⟩ := h.around hdown hfirst
  have hqmem : q ∈ s.down := by rw [hdown]; simp
  have hlmem {x : BusRequest} (hx : x ∈ l) : x ∈ s.down := by rw [hdown]; simp [hx]
  have hrmem {x : BusRequest} (hx : x ∈ r) : x ∈ s.down := by rw [hdown]; simp [hx]
  have hmem {x : BusRequest} (hx : x ∈ (s.moved l ms r as q d').down) : x ∈ l ∨ x ∈ ms ∨ x ∈ r :=
    (mem_append.mp hx).imp_right mem_append.mp
  have hlength : q.pos < s.devices.length := (List.getElem?_eq_some_iff.mp hd).1
  -- Outside the first stage, and behind the stations in it, the stations keep what they have.
  have hkeep (hcase : cfg.stations ≤ q.pos ∨ q.ask ≠ .num) :
      StationsKeep cfg s (s.moved l ms r as q d') := fun i hi e he => by
    by_cases hi' : i = q.pos
    · subst hi'
      rw [hd] at he
      cases he
      refine ⟨d', getElem?_set_self hlength, hkeeps (hcase.resolve_left ?_)⟩
      exact Nat.not_le.mpr hi
    · exact ⟨e, (getElem?_set_ne (Ne.symm hi')).trans he, .refl e⟩
  have hclear (hclear : s.Clear cfg) : (s.moved l ms r as q d').Clear cfg := fun x hx => by
    rcases hmem hx with hx | hx | hx
    · exact hclear x (hlmem hx)
    · have hq := hclear q hqmem
      rw [(hms x hx).1]
      omega
    · exact hclear x (hrmem hx)
  have hstage (hlt : q.pos < cfg.stations) (hask : q.ask = .num) : s.stage = some .num :=
    hask ▸ h.staged q hqmem hlt
  have hother (hne : s.stage ≠ some .num) : cfg.stations ≤ q.pos ∨ q.ask ≠ .num := by
    rcases Nat.lt_or_ge q.pos cfg.stations with hlt | hge
    · exact .inr fun hask => hne (hstage hlt hask)
    · exact .inl hge
  have hmeans {a : BusAnswer} (hwaits : s.status.Waits) (hm : s.Means cfg a) :
      (s.moved l ms r as q d').Means cfg a := by
    by_cases hcase : cfg.stations ≤ q.pos ∨ q.ask ≠ .num
    · exact hm.mono rfl rfl hclear (hkeep hcase)
    · -- A station that is about to be numbered: nothing has been answered yet.
      obtain ⟨hlt, hask⟩ := not_or.mp hcase
      have hst : s.stage = some .num := hstage (Nat.lt_of_not_le hlt) (not_not.mp hask)
      rcases hwaits with hs | hs | hs
      · simp only [Means, hs] at hm
        exact absurd (hm.1 q hqmem) hlt
      · simp [stage, hs] at hst
      · simp [stage, hs] at hst
  exact
    { short := by
        change (s.devices.set q.pos d').length < 65536
        rw [length_set]
        exact h.short
      order := by
        have horder := h.order
        rw [hdown] at horder
        obtain ⟨hleft, hright, hcross⟩ := pairwise_append.mp horder
        refine pairwise_append.mpr ⟨hleft, pairwise_append.mpr
          ⟨?_, (pairwise_cons.mp hright).2, fun x hx y hy => ?_⟩, fun x hx y hy => ?_⟩
        · match ms, hone with
          | [], _ => exact .nil
          | [x], _ => exact pairwise_singleton _ x
        · obtain ⟨hpos, hsent, -⟩ := hms x hx
          have hy := hbehind y hy
          omega
        · have hx' := hahead x hx
          rcases mem_append.mp hy with hy | hy
          · obtain ⟨hpos, hsent, -⟩ := hms y hy
            omega
          · exact hcross x hx y (mem_cons_of_mem q hy)
      downSent := fun x hx => by
        rcases hmem hx with hx | hx | hx
        · exact h.downSent x (hlmem hx)
        · rw [(hms x hx).2.1]
          exact h.downSent q hqmem
        · exact h.downSent x (hrmem hx)
      upSent := fun a ha => by
        rcases mem_append.mp ha with ha | ha
        · rw [(has a ha).1]
          exact h.downSent q hqmem
        · exact h.upSent a ha
      shaped := fun x hx => by
        rcases hmem hx with hx | hx | hx
        · exact h.shaped x (hlmem hx)
        · exact (hms x hx).2.2.2.1
        · exact h.shaped x (hrmem hx)
      before := fun x hx k j hask hj => by
        rcases hmem hx with hx | hx | hx
        · exact h.before x (hlmem hx) k j hask hj
        · obtain ⟨hpos, -, hsame, -, hne, -⟩ := hms x hx
          have hle := h.before q hqmem k j (hsame ▸ hask) hj
          have hne := hne k j (hsame ▸ hask) hj
          omega
        · exact h.before x (hrmem hx) k j hask hj
      staged := fun x hx hlt => by
        rcases hmem hx with hx | hx | hx
        · exact h.staged x (hlmem hx) hlt
        · obtain ⟨hpos, -, hsame, -⟩ := hms x hx
          rw [hsame]
          exact h.staged q hqmem (by omega)
        · exact h.staged x (hrmem hx) hlt
      current := fun hwaits x hx hsent => by
        rcases hmem hx with hx | hx | hx
        · exact h.current hwaits x (hlmem hx) hsent
        · obtain ⟨-, hsame, hask, -⟩ := hms x hx
          rw [hask]
          exact h.current hwaits q hqmem (hsame.symm.trans hsent)
        · exact h.current hwaits x (hrmem hx) hsent
      numbering := fun hst x hx hsent i hi hlt => by
        have hst' : s.status = .inNumSlave := hst
        have hbelow {y : BusRequest} (hy : y ∈ s.down) (hsent : y.sent = s.sent) (hi : i < y.pos)
            (hne : i ≠ q.pos) : ∃ e, (s.moved l ms r as q d').devices[i]? = some e ∧
              e.nodeAddr.toNat = i + 1 ∧ e.smartNum = true ∧ e.lastNode = false := by
          obtain ⟨e, he, hrest⟩ := h.numbering hst' y hy hsent i hi hlt
          exact ⟨e, (getElem?_set_ne (Ne.symm hne)).trans he, hrest⟩
        rcases hmem hx with hx | hx | hx
        · have hold := (hahead x hx).2
          have hle := h.downSent q hqmem
          have hsent : x.sent = s.sent := hsent
          omega
        · obtain ⟨hpos, hsame, hask, -, -, hlast⟩ := hms x hx
          have hqsent : q.sent = s.sent := hsame.symm.trans hsent
          rcases Nat.lt_or_eq_of_le (le_of_lt_succ (hpos ▸ hi)) with hi | rfl
          · exact hbelow hqmem hqsent hi (Nat.ne_of_lt hi)
          · have hqask : q.ask = .num := by
              have hcurrent := h.current (.inl hst') q hqmem hqsent
              simp only [stage, hst'] at hcurrent
              exact (Option.some.inj hcurrent).symm
            obtain ⟨haddr, hsmart⟩ := hnum hqask
            exact ⟨d', getElem?_set_self hlength, haddr, hsmart, hlast hqask⟩
        · have hle := (hbehind x hx).1
          exact hbelow (hrmem hx) hsent hi (by omega)
      numbered := fun hne => (h.numbered hne).mono (hkeep (hother hne))
      configured := fun k hk hlt => by
        obtain ⟨hdone, hcounted⟩ := h.configured k hk hlt
        refine ⟨hdone.mono (hkeep (hother fun hst => ?_)), hcounted⟩
        have hnone : s.progress cfg = cfg.bus.nMasterExtCount.toNat := by
          revert hst
          rw [stage, progress]
          cases s.status <;> simp
        have hlt : k < s.progress cfg := hlt
        omega
      counted := h.counted
      answers := fun hwaits a ha hsent hexpects => by
        rcases mem_append.mp ha with ha | ha
        · obtain ⟨hsame, hmean⟩ := has a ha
          exact hmean hwaits (hsame.symm.trans hsent) hexpects
        · exact hmeans hwaits (h.answers hwaits a ha hsent hexpects)
      pending := fun hwaits hevent hflag => by
        obtain ⟨a, ha, hmean⟩ := h.pending hwaits hevent hflag
        exact ⟨a, ha, hmeans hwaits hmean⟩
      idle := h.idle
      awake := h.awake }

/-- A request for addresses comes to a device. -/
theorem Inv.numbers (h : s.Inv cfg) (hdown : s.down = l ++ q :: r)
    (hfirst : ∀ x ∈ l, x.pos ≠ q.pos) (hd : s.devices[q.pos]? = some d) (hask : q.ask = .num)
    {lanIsUp : Bool} {sends : Sends} (hsends : handleCmd0101 lanIsUp q.packet d = (d', sends)) :
    (s.routed l r q (d', sends)).Inv cfg := by
  obtain ⟨e, sends', heq, haddr, hsmart, hcases⟩ :=
    handleCmd0101_cases lanIsUp q.packet d
  rw [hsends] at heq
  cases heq
  have hqmem : q ∈ s.down := by rw [hdown]; simp
  have hlength : q.pos < s.devices.length := (List.getElem?_eq_some_iff.mp hd).1
  have hshort := h.short
  have hshaped := h.shaped q hqmem
  simp only [BusRequest.Shaped, hask] at hshaped
  have hnext : q.packet.buf.word 2 + 1 = BitVec.ofNat 16 (q.pos + 1) := by
    rw [hshaped.2, ofNat_add]
    rfl
  have hnat : (BitVec.ofNat 16 (q.pos + 1)).toNat = q.pos + 1 := by
    exact mod_eq_of_lt (by omega)
  have hnum : q.ask = .num → d'.nodeAddr.toNat = q.pos + 1 ∧ d'.smartNum = true :=
    fun _ => ⟨by rw [haddr, hnext, hnat], hsmart⟩
  have hnokeep : q.ask ≠ .num → d.Keeps d' := fun hne => absurd hask hne
  rcases hcases with ⟨p', rfl, hlast, hzero, htwo, -⟩ | ⟨p', rfl, hlast, htwo⟩ | ⟨p', rfl, hzero⟩
  · refine h.moved hdown hfirst hd hnum hnokeep (Nat.le_refl 1) (fun x hx => ?_)
      (fun a ha => by cases ha)
    rw [mem_singleton.mp hx]
    refine ⟨rfl, rfl, rfl, ?_, fun k j hk => ?_, fun _ => hlast⟩
    · simp only [BusRequest.Shaped, hask]
      exact ⟨hzero.trans hshaped.1, htwo.trans hnext⟩
    · rw [hask] at hk
      cases hk
  · refine h.moved hdown hfirst hd hnum hnokeep (Nat.zero_le 1) (fun x hx => by cases hx)
      fun a ha => ?_
    rw [mem_singleton.mp ha]
    refine ⟨rfl, fun hwaits hcurrent hexpects => ?_⟩
    have hstage := h.current hwaits q hqmem hcurrent
    rcases hwaits with hst | hst | hst
    · -- The answer has the number of all stations, so this device is the last of them.
      simp only [Expects, hst] at hexpects
      have hcount : cfg.stations = q.pos + 1 := by
        have hvalue := hexpects.2.2
        rw [htwo, hnext] at hvalue
        rw [StationConfig.stations, ← hvalue, hnat]
      simp only [BusStart.moved, hst]
      refine ⟨clear_moved [⟨p', q.pos, q.ask, q.sent⟩] d' h hdown hfirst hcurrent fun x _ hlt => by omega, fun i hi => ?_⟩
      rcases Nat.lt_or_eq_of_le (le_of_lt_succ (hcount ▸ hi)) with hlt | rfl
      · obtain ⟨e, he, headdr, hesmart, helast⟩ := h.numbering hst q hqmem hcurrent i hlt hi
        refine ⟨e, (getElem?_set_ne (Nat.ne_of_gt hlt)).trans he, headdr, hesmart, ?_⟩
        rw [helast]
        exact iff_of_false (by decide) (by omega)
      · exact ⟨d', getElem?_set_self hlength, (hnum hask).1, hsmart,
          fun _ => hcount.symm, fun _ => hlast⟩
    · simp [stage, hst, hask] at hstage
    · simp [stage, hst, hask] at hstage
  · refine h.moved hdown hfirst hd hnum hnokeep (Nat.zero_le 1) (fun x hx => by cases hx)
      fun a ha => ?_
    rw [mem_singleton.mp ha]
    refine ⟨rfl, fun hwaits hcurrent hexpects => ?_⟩
    have hstage := h.current hwaits q hqmem hcurrent
    rcases hwaits with hst | hst | hst
    · simp only [Expects, hst, hzero] at hexpects
      exact absurd hexpects.2.1 (by decide)
    · simp [stage, hst, hask] at hstage
    · simp [stage, hst, hask] at hstage

/-- A configuration comes to a device. -/
theorem Inv.configures (h : s.Inv cfg) (hdown : s.down = l ++ q :: r)
    (hfirst : ∀ x ∈ l, x.pos ≠ q.pos) (hd : s.devices[q.pos]? = some d) {k : Nat}
    (hask : q.ask = .config k) {lanIsUp : Bool} {ret : BitVec 16 × BitVec 16} {sends : Sends}
    (hsends : handleCmd1C1C lanIsUp ret q.ask q.packet d = (d', sends)) :
    (s.routed l r q (d', sends)).Inv cfg := by
  obtain ⟨e, sends', heq, hkeeps, hcases⟩ :=
    handleCmd1C1C_cases lanIsUp ret q.ask q.packet d
  rw [hsends] at heq
  cases heq
  have hqmem : q ∈ s.down := by rw [hdown]; simp
  have hlength : q.pos < s.devices.length := (List.getElem?_eq_some_iff.mp hd).1
  have hshaped := h.shaped q hqmem
  simp only [BusRequest.Shaped, hask] at hshaped
  have hnum : q.ask = .num → d'.nodeAddr.toNat = q.pos + 1 ∧ d'.smartNum = true := fun hq => by
    rw [hask] at hq
    cases hq
  -- A station has its address once it is configured.
  have haddr (hlt : q.pos < cfg.stations) : d.nodeAddr.toNat = q.pos + 1 := by
    have hstage := h.staged q hqmem hlt
    obtain ⟨e, he, headdr, -⟩ := h.numbered (by rw [hstage, hask]; simp) q.pos hlt
    rw [hd] at he
    cases he
    exact headdr
  have hslave : ((q.packet.buf 3).setWidth 16).toNat = (cfg.sNum k).toNat := by
    rw [hshaped.2, toNat_setWidth]
    exact mod_eq_of_lt (Nat.lt_trans (cfg.sNum k).isLt (by decide))
  rcases hcases with ⟨rfl, hother⟩ | ⟨p', rfl, hown, hexecuted⟩ | ⟨p', rfl, hzero⟩
  · refine h.moved hdown hfirst hd hnum (fun _ => hkeeps) (Nat.le_refl 1) (fun x hx => ?_)
      (fun a ha => by cases ha)
    rw [mem_singleton.mp hx]
    refine ⟨rfl, rfl, rfl, ?_, fun k' j hk hj => ?_, fun hq => ?_⟩
    · simp only [BusRequest.Shaped, hask]
      exact hshaped
    · rw [hask] at hk
      cases hk
      rintro rfl
      refine hother (eq_of_toNat_eq ?_)
      rw [hslave, haddr hj.2]
      exact hj.1.symm
    · rw [hask] at hq
      cases hq
  · refine h.moved hdown hfirst hd hnum (fun _ => hkeeps) (Nat.zero_le 1)
      (fun x hx => by cases hx) fun a ha => ?_
    rw [mem_singleton.mp ha]
    refine ⟨rfl, fun hwaits hcurrent hexpects => ?_⟩
    have hstage := h.current hwaits q hqmem hcurrent
    rcases hwaits with hst | hst | hst
    · simp [stage, hst, hask] at hstage
    · have hindex : s.index = k := by simpa [stage, hst, hask] using hstage
      -- The station of the item is this device, and none before it gets a request for it.
      have hhere {j : Nat} (hj : cfg.Station k j) : j = q.pos := by
        have hle := h.before q hqmem k j hask hj
        have hown := congrArg BitVec.toNat hown
        rw [haddr (Nat.lt_of_le_of_lt hle hj.2)] at hown
        have hnumber := hj.1
        omega
      simp only [BusStart.moved, hst, hindex]
      refine ⟨clear_moved [⟨p', q.pos, q.ask, q.sent⟩] d' h hdown hfirst hcurrent fun x hx hlt => ?_, fun j hj => ?_, hask,
        fun j hj => (hhere hj).symm⟩
      · by_contra hx'
        have hxmem : x ∈ s.down := by rw [hdown]; simp [hx]
        have hxstage := h.staged x hxmem (Nat.lt_of_not_le hx')
        have hxask : x.ask = .config k := by
          rw [hxstage] at hstage
          rw [← hask]
          exact Option.some.inj hstage
        have hstation : cfg.Station k q.pos := by
          refine ⟨?_, by omega⟩
          rw [← haddr (by omega), ← hslave, hown]
        have hle := h.before x hxmem k q.pos hxask hstation
        omega
      · rw [hhere hj]
        exact ⟨d', getElem?_set_self hlength, hask ▸ hexecuted⟩
    · simp [stage, hst, hask] at hstage
  · refine h.moved hdown hfirst hd hnum (fun _ => hkeeps) (Nat.zero_le 1)
      (fun x hx => by cases hx) fun a ha => ?_
    rw [mem_singleton.mp ha]
    refine ⟨rfl, fun hwaits hcurrent hexpects => ?_⟩
    have hstage := h.current hwaits q hqmem hcurrent
    rcases hwaits with hst | hst | hst
    · simp [stage, hst, hask] at hstage
    · simp only [Expects, hst, hzero] at hexpects
      exact absurd hexpects.2.1 (by decide)
    · simp [stage, hst, hask] at hstage

/-- The question whether it is ready comes to a device. -/
theorem Inv.asks (h : s.Inv cfg) (hdown : s.down = l ++ q :: r)
    (hfirst : ∀ x ∈ l, x.pos ≠ q.pos) (hd : s.devices[q.pos]? = some d) (hask : q.ask = .preloop)
    {lanIsUp : Bool} {sends : Sends} (hsends : handleCmd2222 lanIsUp q.packet d = (d', sends)) :
    (s.routed l r q (d', sends)).Inv cfg := by
  obtain ⟨sends', heq, hcases⟩ := handleCmd2222_cases lanIsUp q.packet d
  rw [hsends] at heq
  cases heq
  have hqmem : q ∈ s.down := by rw [hdown]; simp
  have hshaped := h.shaped q hqmem
  simp only [BusRequest.Shaped, hask] at hshaped
  have hnever {P : Prop} (hq : q.ask = .num) : P := by
    rw [hask] at hq
    cases hq
  cases sends with
  | lan p =>
    refine h.moved hdown hfirst hd hnever (fun _ => .refl d) (Nat.le_refl 1) (fun x hx => ?_)
      (fun a ha => by cases ha)
    rw [mem_singleton.mp hx]
    refine ⟨rfl, rfl, rfl, ?_, fun k j hk => ?_, hnever⟩
    · simp only [BusRequest.Shaped, hask]
      exact (hcases p rfl).trans hshaped
    · rw [hask] at hk
      cases hk
  | wan p =>
    refine h.moved hdown hfirst hd hnever (fun _ => .refl d) (Nat.zero_le 1)
      (fun x hx => by cases hx) fun a ha => ?_
    rw [mem_singleton.mp ha]
    refine ⟨rfl, fun hwaits hcurrent hexpects => ?_⟩
    have hstage := h.current hwaits q hqmem hcurrent
    rcases hwaits with hst | hst | hst
    · simp [stage, hst, hask] at hstage
    · simp [stage, hst, hask] at hstage
    · simp only [Means, BusStart.moved, hst]

end

/-- What happens when a request comes to a device. -/
theorem device_eq {k : Nat} {q : BusRequest} {d : SmartNode} (hq : s.down[k]? = some q)
    (hfirst : (s.down.take k).all (fun q' => q'.pos != q.pos) = true)
    (hd : s.devices[q.pos]? = some d) (lanIsUp : Bool) (ret : BitVec 16 × BitVec 16) :
    s.device k lanIsUp ret =
      s.routed (s.down.take k) (s.down.drop (k + 1)) q (daisyWANTask lanIsUp ret q d) := by
  simp only [BusStart.device, hq, hfirst, hd]
  obtain ⟨d', p | p⟩ := daisyWANTask lanIsUp ret q d
  · rfl
  · rfl

theorem Inv.device (h : s.Inv cfg) (k : Nat) (lanIsUp : Bool) (ret : BitVec 16 × BitVec 16) :
    (s.device k lanIsUp ret).Inv cfg := by
  cases hq : s.down[k]? with
  | none => rwa [BusStart.device, hq]
  | some q =>
  by_cases hfirst : (s.down.take k).all (fun q' => q'.pos != q.pos) = true
  case neg =>
    simp only [BusStart.device, hq]
    rwa [if_neg hfirst]
  cases hd : s.devices[q.pos]? with
  | none =>
    simp only [BusStart.device, hq, hd, if_pos hfirst]
    exact h
  | some d =>
  rw [device_eq hq hfirst hd]
  obtain ⟨hlt, hget⟩ := List.getElem?_eq_some_iff.mp hq
  have hdown : s.down = s.down.take k ++ q :: s.down.drop (k + 1) := by
    rw [← hget, ← drop_eq_getElem_cons hlt, take_append_drop]
  have hfirst : ∀ x ∈ s.down.take k, x.pos ≠ q.pos := fun x hx =>
    bne_iff_ne.mp (all_eq_true.mp hfirst x hx)
  have hshaped := h.shaped q (mem_of_getElem? hq)
  rw [daisyWANTask]
  cases hask : q.ask with
  | num =>
    simp only [BusRequest.Shaped, hask] at hshaped
    rw [if_pos hshaped.1]
    exact h.numbers hdown hfirst hd hask rfl
  | config j =>
    simp only [BusRequest.Shaped, hask] at hshaped
    rw [if_neg (by rw [hshaped.1]; decide), if_pos hshaped.1, ← hask]
    exact h.configures hdown hfirst hd hask rfl
  | preloop =>
    simp only [BusRequest.Shaped, hask] at hshaped
    rw [if_neg (by rw [hshaped]; decide), if_neg (by rw [hshaped]; decide), if_pos hshaped]
    exact h.asks hdown hfirst hd hask rfl

/-! ## Runs -/

/-- Each event keeps the invariant. -/
theorem Inv.next (h : s.Inv cfg) {x : StartEvent} (hturn : x.InTurn cfg s) :
    (s.next cfg x).Inv cfg := by
  cases x with
  | task extCanLoop => exact h.task extCanLoop
  | woken =>
    rw [BusStart.next]
    split
    · rename_i hwoken
      exact h.woken hwoken.1 hwoken.2.1
    · exact h
  | goesOn =>
    rw [BusStart.next]
    split
    · rename_i hwoken
      exact h.goesOn hwoken
    · exact h
  | timeout =>
    rw [BusStart.next]
    split
    · rename_i hidle
      exact h.timeout hidle.1 hidle.2
    · exact h
  | answer j =>
    rw [BusStart.next]
    split
    · rename_i a ha
      exact h.receive (mem_of_getElem? ha) fun hst => hturn hst a ha
    · exact h
  | device k lanIsUp ret => exact h.device k lanIsUp ret
  | lose k =>
    refine h.fewer ?_
    rw [← eraseIdx_eq_take_drop_succ]
    exact eraseIdx_sublist _ _

def twoStations : StationConfig :=
  ⟨⟨2, 2, 0, 100, [], []⟩, fun k => [0, BitVec.ofNat 8 (k + 1)]⟩

/-- Two devices that have no address yet. -/
def twoDevices : BusStart :=
  let d : SmartNode := ⟨0, false, false, false, 0, []⟩
  ⟨⟨Store.off, false, 0, 0, 0⟩, .numSlave, 0, false, false, [d, d], [], [], 0, none, []⟩

/-- The devices are numbered, and the first is configured. -/
def firstConfigured : List StartEvent :=
  [.task true, .device 0 true (0, 0), .device 0 true (0, 0), .answer 0, .woken, .goesOn,
    .task true, .task true, .device 0 true (0, 0), .answer 0, .woken, .goesOn]

theorem twoDevices_fresh : twoDevices.Fresh where
  status := rfl
  event := rfl
  woken := rfl
  down := rfl
  up a ha := by cases ha
  counted := rfl

end BusStart

end Kalyke
