-- SUMMARY: The counters `CTU`, `CTR` and `DCNT` and their reset: what they have counted.
import Kalyke.Exec.DataProcessing
import Kalyke.Exec.RoundTrip
import Kalyke.Lib.Runs

/-!
# Counters

`plc_counterins.c`. A counter has a value, a bit, and a memory of the power flow of the last
execution. The counters below 200 have 16 bits, the others 32.

`CTU` counts before it reads its preset, `CTR` and `DCNT` after it. `CTR` starts again at one where
its value is the preset, and switches the bit off there. The value of `DCNT` wraps around.
-/

namespace Kalyke

open List Nat BitVec Function

/-- `plc_reset_one_counter`. The memory of the power flow stays. -/
def plcResetOneCounter (c : Nat) (s : Store) : Store :=
  (if c < WordElement.rang .C then s.setWord (.elem .C) c 0 else s.setC32 c 0).setBit (.elem .C) c
    false

/-- What an instruction on a counter leaves behind. -/
structure CounterLeft where
  ret : Except PlcErr Unit
  store : Store
  powerFlow : Nat → Bool

/-- What the three instructions have in common: they do something at a rising edge of the power
flow. `powerFlow` is `mbv_PowerFlow` of each counter. -/
def countEdge (i : BodyInput) (powerFlow : Nat → Bool)
    (count : Nat → Store → Except PlcErr Unit × Store) : CounterLeft :=
  let c := i.ucode.getPU16 (i.pc + 4)
  if getPowerFlow i.inPF then
    if powerFlow c = false then
      let r := count c i.store
      ⟨r.1, r.2, update powerFlow c true⟩
    else ⟨.ok (), i.store, powerFlow⟩
  else ⟨.ok (), i.store, update powerFlow c false⟩

/-- The value of a counter of 16 bits goes up, but not beyond `0x7FFF`. -/
def countUp (c : Nat) (s : Store) : Store :=
  if s.getWord (.elem .C) c ≠ 0x7FFF then
    s.setWord (.elem .C) c (s.getWord (.elem .C) c + 1)
  else s

/-- The bit of a counter of 16 bits is switched on where the value has reached the preset. -/
def showReached (c : Nat) (preset : BitVec 16) (s : Store) : Store :=
  if preset ≤ s.getWord (.elem .C) c then s.setBit (.elem .C) c true else s

/-- What `run_ci_ctu_ins` does at a rising edge. -/
def ctuCount (i : BodyInput) (c : Nat) (s : Store) : Except PlcErr Unit × Store :=
  match i.word 6 0 (countUp c s) with
  | .error e => (.error e, countUp c s)
  | .ok preset => (.ok (), showReached c preset (countUp c s))

def runCiCtuIns (i : BodyInput) (powerFlow : Nat → Bool) : CounterLeft :=
  countEdge i powerFlow (ctuCount i)

/-- What `run_ci_ctr_ins` does at a rising edge. -/
def ctrCount (i : BodyInput) (c : Nat) (s : Store) : Except PlcErr Unit × Store :=
  match i.word 6 0 s with
  | .error e => (.error e, s)
  | .ok preset =>
    if s.getWord (.elem .C) c = preset then
      (.ok (), (s.setWord (.elem .C) c 1).setBit (.elem .C) c false)
    else (.ok (), showReached c preset (s.setWord (.elem .C) c (s.getWord (.elem .C) c + 1)))

def runCiCtrIns (i : BodyInput) (powerFlow : Nat → Bool) : CounterLeft :=
  countEdge i powerFlow (ctrCount i)

/-- What `run_ci_dcnt_ins` does at a rising edge. The `SM` element with the number of the counter
selects the direction. -/
def dcntCount (i : BodyInput) (c : Nat) (s : Store) : Except PlcErr Unit × Store :=
  match i.dword 8 0 s with
  | .error e => (.error e, s)
  | .ok preset =>
    if s.getBit (.elem .SM) c = false then
      let value := s.c32 c + 1
      (.ok (), (s.setC32 c value).setBit (.elem .C) c (decide (preset.toInt ≤ value.toInt)))
    else
      let value := s.c32 c - 1
      (.ok (), (s.setC32 c value).setBit (.elem .C) c (decide (value.toInt ≤ preset.toInt)))

def runCiDcntIns (i : BodyInput) (powerFlow : Nat → Bool) : CounterLeft :=
  countEdge i powerFlow (dcntCount i)

/-- `run_ci_rst_c_ins`. -/
def runCiRstCIns (i : BodyInput) : BodyResult :=
  if getPowerFlow i.inPF then
    (.ok (), i.inPF, plcResetOneCounter (i.ucode.getPU16 (i.pc + 4)) i.store)
  else (.ok (), i.inPF, i.store)

/-! ## Runs -/

/-- An instruction that counts. The preset of `CTR` is a constant, at least one. -/
inductive CounterKind where
  | ctu
  | ctr (preset : BitVec 16) (pos : preset ≠ 0)
  | dcnt

def CounterKind.run : CounterKind → BodyInput → (Nat → Bool) → CounterLeft
  | ctu => runCiCtuIns
  | ctr _ _ => runCiCtrIns
  | dcnt => runCiDcntIns

/-- What happens to a counter: its instruction is executed, it is reset, or the rest of the elements
change. -/
inductive CounterEvent where
  | count (i : BodyInput)
  | reset (i : BodyInput)
  | other (s : Store)

/-- The elements, and beside them the power flow of the last execution, the edges counted up and
down since the last reset, and whether the value has reached the preset at one of them. -/
structure CounterRun where
  store : Store
  powerFlow : Nat → Bool
  flow : Bool
  ups : Nat
  downs : Nat
  reached : Bool

namespace CounterRun

/-- A counter that has been reset. -/
def start (s : Store) (powerFlow : Nat → Bool) (c : Nat) : CounterRun where
  store := ((s.setWord (.elem .C) c 0).setC32 c 0).setBit (.elem .C) c false
  powerFlow := powerFlow
  flow := powerFlow c
  ups := 0
  downs := 0
  reached := false

/-- An execution sees a rising edge. -/
def Edge (s : CounterRun) (i : BodyInput) : Prop := getPowerFlow i.inPF = true ∧ s.flow = false

instance (s : CounterRun) (i : BodyInput) : Decidable (s.Edge i) :=
  inferInstanceAs (Decidable (_ ∧ _))

/-- The edges since the last reset. -/
def edges (s : CounterRun) : Nat := s.ups + s.downs

/-- The edges, kept in 16 bits of which the first stays off. -/
def saturated (edges : Nat) : BitVec 16 := BitVec.ofNat 16 (min edges 0x7FFF)

/-- A further edge brings the value to the preset, which is read when it has been counted. -/
def Reaches (c : Nat) (s : CounterRun) (i : BodyInput) : Prop :=
  ∃ preset, i.word 6 0 (s.store.setWord (.elem .C) c (saturated (s.edges + 1))) = .ok preset ∧
    preset ≤ saturated (s.edges + 1)

instance (c : Nat) (s : CounterRun) (i : BodyInput) : Decidable (Reaches c s i) :=
  match h : i.word 6 0 (s.store.setWord (.elem .C) c (saturated (s.edges + 1))) with
  | .ok preset =>
    decidable_of_iff (preset ≤ saturated (s.edges + 1))
      ⟨fun hle => ⟨preset, h, hle⟩, fun ⟨_, h', hle⟩ => by
        obtain rfl := Except.ok.inj (h.symm.trans h')
        exact hle⟩
  | .error _ => isFalse fun ⟨_, h', _⟩ => by cases h.symm.trans h'

/-- The account of the edges after an execution. -/
def note (c : Nat) (s : CounterRun) (i : BodyInput) : CounterRun :=
  if s.Edge i then
    { s with
      flow := true
      ups := if s.store.getBit (.elem .SM) c = false then s.ups + 1 else s.ups
      downs := if s.store.getBit (.elem .SM) c = false then s.downs else s.downs + 1
      reached := s.reached || decide (Reaches c s i) }
  else { s with flow := getPowerFlow i.inPF }

def next (kind : CounterKind) (c : Nat) (s : CounterRun) : CounterEvent → CounterRun
  | .count i =>
    let left := kind.run { i with store := s.store } s.powerFlow
    { note c s i with store := left.store, powerFlow := left.powerFlow }
  | .reset i =>
    let store := (runCiRstCIns { i with store := s.store }).2.2
    if getPowerFlow i.inPF then { s with store, ups := 0, downs := 0, reached := false }
    else { s with store }
  | .other t => { s with store := t }

end CounterRun

def CounterEvent.Legal (kind : CounterKind) (c : Nat) (s : CounterRun) : CounterEvent → Prop
  | count i => i.ucode.getPU16 (i.pc + 4) = c ∧
      match kind with
      | .ctr preset _ => i.word 6 0 s.store = .ok preset
      | _ => True
  | reset i => i.ucode.getPU16 (i.pc + 4) = c
  | other t => t.getWord (.elem .C) c = s.store.getWord (.elem .C) c ∧ t.c32 c = s.store.c32 c ∧
      t.getBit (.elem .C) c = s.store.getBit (.elem .C) c

/-- What the value and the bit of a counter are to be. -/
def CounterRun.Counts (kind : CounterKind) (c : Nat) (s : CounterRun) : Prop :=
  match kind with
  | .ctu =>
    s.store.getWord (.elem .C) c = CounterRun.saturated s.edges ∧
      (s.store.getBit (.elem .C) c = true ↔ s.reached = true)
  | .ctr preset _ =>
    (s.store.getWord (.elem .C) c).toNat =
      (if s.edges = 0 then 0 else (s.edges - 1) % preset.toNat + 1) ∧
      (s.store.getBit (.elem .C) c = true ↔ s.store.getWord (.elem .C) c = preset)
  | .dcnt => s.store.c32 c = BitVec.ofNat 32 s.ups - BitVec.ofNat 32 s.downs

/-- After the event the value and the bit are right. -/
def CounterEvent.Right (kind : CounterKind) (c : Nat) (s : CounterRun) (x : CounterEvent) : Prop :=
  (s.next kind c x).Counts kind c

/-- A second edge does not come to a preset of one, the preset of `DCNT` can be read at an edge, and
a counter that is reset is of the size its instruction works on or has counted nothing. -/
def CounterEvent.Regular (kind : CounterKind) (c : Nat) (s : CounterRun) : CounterEvent → Prop
  | count i =>
    s.Edge i →
      match kind with
      | .ctu => True
      | .ctr preset _ => preset = 1 → s.edges = 0
      | .dcnt => ∃ preset, i.dword 8 0 s.store = .ok preset
  | reset i =>
    getPowerFlow i.inPF = true →
      match kind with
      | .ctu | .ctr _ _ => c < WordElement.rang .C ∨ s.store.getWord (.elem .C) c = 0
      | .dcnt => WordElement.rang .C ≤ c ∨ s.store.c32 c = 0
  | other _ => True

/-! ## Single cells -/

section

variable {s : Store} {c k : Nat}

theorem getWord_setBit {area : BitArea} {w : WordArea} {b : Bool} :
    (s.setBit area k b).getWord w c = s.getWord w c := by
  cases area <;> cases w <;> rfl

theorem getWord_setC32 {w : WordArea} {x : BitVec 32} :
    (s.setC32 k x).getWord w c = s.getWord w c := by
  cases w <;> rfl

theorem c32_setBit {area : BitArea} {b : Bool} : (s.setBit area k b).c32 = s.c32 := by
  cases area <;> rfl

theorem c32_setWord {w : WordArea} {x : BitVec 16} : (s.setWord w k x).c32 = s.c32 := by
  cases w <;> rfl

theorem getBit_setWord {area : BitArea} {w : WordArea} {x : BitVec 16} :
    (s.setWord w k x).getBit area c = s.getBit area c := by
  cases area <;> cases w <;> rfl

theorem setWord_getWord {w : WordArea} : s.setWord w k (s.getWord w k) = s := by
  cases w <;> simp [Store.setWord, Store.getWord]

end

/-! ## Right counts -/

namespace CounterRun

theorem saturated_toNat (n : Nat) : (saturated n).toNat = min n 0x7FFF := by
  rw [saturated, toNat_ofNat]
  omega

variable {kind : CounterKind} {c : Nat} {s : CounterRun} {i : BodyInput}

/-- A value that goes up with the edges keeps to them. -/
theorem countUp_eq (h : s.store.getWord (.elem .C) c = saturated s.edges) :
    countUp c s.store = s.store.setWord (.elem .C) c (saturated (s.edges + 1)) := by
  have hvalue := saturated_toNat s.edges
  have hnext := saturated_toNat (s.edges + 1)
  unfold countUp
  split
  · rename_i hbelow
    congr 1
    rw [h] at hbelow ⊢
    have hlt : (saturated s.edges).toNat ≠ 0x7FFF := fun heq => hbelow (eq_of_toNat_eq heq)
    apply eq_of_toNat_eq
    rw [toNat_add]
    have hone : (1 : BitVec 16).toNat = 1 := rfl
    omega
  · rename_i hfull
    have hlast : s.store.getWord (.elem .C) c = 0x7FFF := Classical.not_not.mp hfull
    have hmax : saturated (s.edges + 1) = s.store.getWord (.elem .C) c := by
      rw [hlast]
      apply eq_of_toNat_eq
      rw [h] at hlast
      have hfull' := congrArg BitVec.toNat hlast
      have hmax : (0x7FFF : BitVec 16).toNat = 0x7FFF := rfl
      omega
    rw [hmax, setWord_getWord]

theorem getWord_showReached {preset : BitVec 16} {t : Store} :
    (showReached c preset t).getWord (.elem .C) c = t.getWord (.elem .C) c := by
  unfold showReached
  split
  · exact getWord_setBit
  · rfl

theorem getBit_showReached {preset : BitVec 16} {t : Store} :
    (showReached c preset t).getBit (.elem .C) c = true ↔
      t.getBit (.elem .C) c = true ∨ preset ≤ t.getWord (.elem .C) c := by
  unfold showReached
  split
  · rename_i hle
    rw [getBit_setBit_self]
    exact iff_of_true rfl (.inr hle)
  · rename_i hlt
    exact ⟨.inl, fun h => h.resolve_right hlt⟩

/-- What the account says of the edges once there has been a further one. -/
theorem edges_note (h : s.Edge i) : (note c s i).edges = s.edges + 1 := by
  rw [note, if_pos h]
  simp only [edges]
  split <;> omega

/-- The memory of the power flow is that of the last execution. -/
def Remembers (c : Nat) (s : CounterRun) : Prop := s.flow = s.powerFlow c

/-- An execution at a rising edge. -/
theorem countEdge_of_edge (hmem : s.Remembers c) (hc : i.ucode.getPU16 (i.pc + 4) = c)
    (h : s.Edge i) (count : Nat → Store → Except PlcErr Unit × Store) :
    countEdge { i with store := s.store } s.powerFlow count =
      ⟨(count c s.store).1, (count c s.store).2, update s.powerFlow c true⟩ := by
  have hoff : s.powerFlow c = false := hmem.symm.trans h.2
  simp only [countEdge, hc, h.1, hoff, if_true]

/-- Any other execution. -/
theorem store_countEdge_of_not_edge (hmem : s.Remembers c) (hc : i.ucode.getPU16 (i.pc + 4) = c)
    (h : ¬ s.Edge i) (count : Nat → Store → Except PlcErr Unit × Store) :
    (countEdge { i with store := s.store } s.powerFlow count).store = s.store := by
  unfold countEdge
  dsimp only
  split
  · rename_i hon
    split
    · rename_i hoff
      rw [hc] at hoff
      exact absurd ⟨hon, hmem.trans hoff⟩ h
    · rfl
  · rfl

/-- Every execution leaves the power flow behind. -/
theorem powerFlow_countEdge (hc : i.ucode.getPU16 (i.pc + 4) = c) {powerFlow : Nat → Bool}
    (count : Nat → Store → Except PlcErr Unit × Store) :
    (countEdge i powerFlow count).powerFlow c = getPowerFlow i.inPF := by
  unfold countEdge
  dsimp only
  rw [hc]
  split
  · rename_i hon
    split
    · exact (update_self c true powerFlow).trans hon.symm
    · rename_i hset
      rw [hon]
      simpa using hset
  · rename_i hoff
    have hflow : getPowerFlow i.inPF = false := by simpa using hoff
    exact (update_self c false powerFlow).trans hflow.symm

theorem powerFlow_run (hc : i.ucode.getPU16 (i.pc + 4) = c) {powerFlow : Nat → Bool} :
    (kind.run i powerFlow).powerFlow c = getPowerFlow i.inPF := by
  cases kind <;> exact powerFlow_countEdge hc _

theorem flow_note : (note c s i).flow = getPowerFlow i.inPF := by
  unfold note
  split
  · rename_i hedge
    exact hedge.1.symm
  · rfl

theorem remembers_next {x : CounterEvent} (hmem : s.Remembers c) (hlegal : x.Legal kind c s) :
    (s.next kind c x).Remembers c := by
  cases x with
  | count i =>
    have hc : i.ucode.getPU16 (i.pc + 4) = c := hlegal.1
    exact flow_note.trans (powerFlow_run (i := { i with store := s.store }) hc).symm
  | reset i =>
    unfold Remembers CounterRun.next
    dsimp only
    split <;> exact hmem
  | other t => exact hmem

/-! ### Executions -/

theorem store_run_of_not_edge (hmem : s.Remembers c) (hc : i.ucode.getPU16 (i.pc + 4) = c)
    (h : ¬ s.Edge i) : (kind.run { i with store := s.store } s.powerFlow).store = s.store := by
  cases kind <;> exact store_countEdge_of_not_edge hmem hc h _

/-- `Counts` looks at the elements of the counter and the account. -/
theorem counts_congr {s' : CounterRun} (hs : s'.store = s.store) (hups : s'.ups = s.ups)
    (hdowns : s'.downs = s.downs) (hreached : s'.reached = s.reached) :
    s'.Counts kind c ↔ s.Counts kind c := by
  cases kind <;> simp [Counts, edges, hs, hups, hdowns, hreached]

theorem counts_of_not_edge (hmem : s.Remembers c) (hc : i.ucode.getPU16 (i.pc + 4) = c)
    (h : ¬ s.Edge i) (hcounts : s.Counts kind c) : (s.next kind c (.count i)).Counts kind c := by
  refine (counts_congr ?_ ?_ ?_ ?_).mpr hcounts
  · exact store_run_of_not_edge hmem hc h
  · simp only [next, note, if_neg h]
  · simp only [next, note, if_neg h]
  · simp only [next, note, if_neg h]

theorem ctu_counts (hmem : s.Remembers c) (hc : i.ucode.getPU16 (i.pc + 4) = c) (h : s.Edge i)
    (hcounts : s.Counts .ctu c) : (s.next .ctu c (.count i)).Counts .ctu c := by
  obtain ⟨hvalue, hbit⟩ := hcounts
  have hup := countUp_eq hvalue
  have hedges : (s.next .ctu c (.count i)).edges = s.edges + 1 := edges_note h
  have hreached : (s.next .ctu c (.count i)).reached = (s.reached || decide (Reaches c s i)) := by
    simp only [next, note, if_pos h]
  have hstore : (s.next .ctu c (.count i)).store = (ctuCount i c s.store).2 :=
    congrArg CounterLeft.store (countEdge_of_edge hmem hc h (ctuCount i))
  simp only [Counts, hstore, hedges, hreached, ctuCount, hup]
  cases hpreset : i.word 6 0 (s.store.setWord (.elem .C) c (saturated (s.edges + 1))) with
  | error e =>
    have hno : ¬ Reaches c s i := by
      rintro ⟨preset, hok, -⟩
      rw [hpreset] at hok
      cases hok
    dsimp only
    refine ⟨getWord_setWord_self _ _ _, ?_⟩
    rw [getBit_setWord, hbit]
    simp [hno]
  | ok preset =>
    refine ⟨?_, ?_⟩
    · dsimp only
      rw [getWord_showReached, getWord_setWord_self]
    · have hreaches : Reaches c s i ↔ preset ≤ saturated (s.edges + 1) := by
        constructor
        · rintro ⟨preset', hok, hle⟩
          obtain rfl := Except.ok.inj (hpreset.symm.trans hok)
          exact hle
        · intro hle
          exact ⟨preset, hpreset, hle⟩
      rw [getBit_showReached, getBit_setWord, getWord_setWord_self, hbit, Bool.or_eq_true,
        decide_eq_true_iff, hreaches]

theorem ctr_counts_iff {preset : BitVec 16} (hpos : preset ≠ 0) (hmem : s.Remembers c)
    (hc : i.ucode.getPU16 (i.pc + 4) = c) (hpreset : i.word 6 0 s.store = .ok preset)
    (h : s.Edge i) (hcounts : s.Counts (.ctr preset hpos) c) :
    (s.next (.ctr preset hpos) c (.count i)).Counts (.ctr preset hpos) c ↔
      (preset = 1 → s.edges = 0) := by
  obtain ⟨hvalue, hbit⟩ := hcounts
  have hedges : (s.next (.ctr preset hpos) c (.count i)).edges = s.edges + 1 := edges_note h
  have hstore : (s.next (.ctr preset hpos) c (.count i)).store = (ctrCount i c s.store).2 :=
    congrArg CounterLeft.store (countEdge_of_edge hmem hc h (ctrCount i))
  have hp : 0 < preset.toNat := by
    refine Nat.pos_of_ne_zero fun hzero => hpos ?_
    exact eq_of_toNat_eq hzero
  have hone : preset = 1 ↔ preset.toNat = 1 :=
    ⟨fun heq => by rw [heq]; rfl, fun heq => eq_of_toNat_eq heq⟩
  simp only [Counts, hstore, hedges, ctrCount, hpreset, Nat.add_sub_cancel, succ_ne_zero,
    if_false]
  by_cases hend : s.store.getWord (.elem .C) c = preset
  · -- The count starts again, with the bit off.
    have hsome : s.edges ≠ 0 := by
      intro hzero
      rw [if_pos hzero, hend] at hvalue
      omega
    rw [if_neg hsome, hend] at hvalue
    have hwhole : s.edges % preset.toNat = 0 := by
      have hsucc : s.edges = s.edges - 1 + 1 := by omega
      rw [hsucc, add_mod]
      rcases Nat.lt_or_ge 1 preset.toNat with hbig | hsmall
      · rw [mod_eq_of_lt hbig, ← hvalue, mod_self]
      · have heq : preset.toNat = 1 := by omega
        rw [heq, mod_one]
    rw [if_pos hend]
    rw [getWord_setBit, getWord_setWord_self, getBit_setBit_self, hwhole]
    constructor
    · rintro ⟨-, hoff⟩ heq
      exact absurd (hoff.mpr heq.symm) Bool.false_ne_true
    · intro hno
      refine ⟨rfl, iff_of_false Bool.false_ne_true fun heq => hsome (hno heq.symm)⟩
  · rw [if_neg hend]
    have hne : (s.store.getWord (.elem .C) c).toNat ≠ preset.toNat :=
      fun heq => hend (eq_of_toNat_eq heq)
    have hoff : ¬ s.store.getBit (.elem .C) c = true := fun hon => hend (hbit.mp hon)
    have hnext : (s.store.getWord (.elem .C) c).toNat = s.edges % preset.toNat ∧
        s.edges % preset.toNat < preset.toNat := by
      refine ⟨?_, mod_lt _ hp⟩
      split at hvalue
      · rename_i hzero
        rw [hvalue, hzero, zero_mod]
      · rename_i hsome
        have hmod := mod_lt (s.edges - 1) hp
        have hsucc : s.edges = s.edges - 1 + 1 := by omega
        have hbig : 1 < preset.toNat := by omega
        have hroom : (s.edges - 1) % preset.toNat + 1 < preset.toNat := by omega
        have hmore : (s.edges - 1 + 1) % preset.toNat = (s.edges - 1) % preset.toNat + 1 := by
          rw [add_mod, mod_eq_of_lt hbig, mod_eq_of_lt hroom]
        rw [hvalue, ← hmore, ← hsucc]
    obtain ⟨hmod, hbelow⟩ := hnext
    have hcount : (s.store.getWord (.elem .C) c + 1).toNat = s.edges % preset.toNat + 1 := by
      have hadd : (1 : BitVec 16).toNat = 1 := rfl
      rw [toNat_add, hadd, hmod, mod_eq_of_lt (by omega)]
    refine iff_of_true ⟨?_, ?_⟩ fun heq => ?_
    · rw [getWord_showReached, getWord_setWord_self, hcount]
    · rw [getBit_showReached, getBit_setWord, getWord_showReached, getWord_setWord_self,
        or_iff_right hoff, le_def, hcount]
      constructor
      · intro hle
        exact eq_of_toNat_eq (by omega)
      · intro heq
        rw [← hcount, heq]
    · rw [hone.mp heq] at hmod hvalue
      by_contra hsome
      rw [if_neg hsome] at hvalue
      omega

theorem dcnt_counts_iff (hmem : s.Remembers c) (hc : i.ucode.getPU16 (i.pc + 4) = c)
    (h : s.Edge i) (hcounts : s.Counts .dcnt c) :
    (s.next .dcnt c (.count i)).Counts .dcnt c ↔ ∃ preset, i.dword 8 0 s.store = .ok preset := by
  have hvalue : s.store.c32 c = BitVec.ofNat 32 s.ups - BitVec.ofNat 32 s.downs := hcounts
  have hstore : (s.next .dcnt c (.count i)).store = (dcntCount i c s.store).2 :=
    congrArg CounterLeft.store (countEdge_of_edge hmem hc h (dcntCount i))
  have hups : (s.next .dcnt c (.count i)).ups =
      if s.store.getBit (.elem .SM) c = false then s.ups + 1 else s.ups := by
    simp only [next, note, if_pos h]
  have hdowns : (s.next .dcnt c (.count i)).downs =
      if s.store.getBit (.elem .SM) c = false then s.downs else s.downs + 1 := by
    simp only [next, note, if_pos h]
  have hsucc (n : Nat) : BitVec.ofNat 32 (n + 1) = BitVec.ofNat 32 n + 1 := ofNat_add n 1
  simp only [Counts, hstore, hups, hdowns, dcntCount]
  cases hpreset : i.dword 8 0 s.store with
  | error e =>
    refine iff_of_false ?_ (by rintro ⟨preset, hok⟩; cases hok)
    dsimp only
    rw [hvalue]
    intro heq
    split at heq
    · rw [hsucc] at heq
      have hcancel := congrArg (fun x => x + BitVec.ofNat 32 s.downs - BitVec.ofNat 32 s.ups) heq
      have hfalse : (0 : BitVec 32) = 1 := by
        have hleft (a b : BitVec 32) : a - b + b - a = 0 := by
          rw [BitVec.sub_add_cancel, BitVec.sub_self]
          rfl
        have hright (a b : BitVec 32) : a + 1 - b + b - a = 1 := by
          rw [BitVec.sub_add_cancel, BitVec.add_comm, BitVec.add_sub_cancel]
        simpa only [hleft, hright] using hcancel
      exact absurd hfalse (by decide)
    · rw [hsucc] at heq
      have hcancel :=
        congrArg (fun x => x + BitVec.ofNat 32 s.downs + 1 - BitVec.ofNat 32 s.ups) heq
      have hfalse : (1 : BitVec 32) = 0 := by
        have hleft (a b : BitVec 32) : a - b + b + 1 - a = 1 := by
          rw [BitVec.sub_add_cancel, BitVec.add_comm, BitVec.add_sub_cancel]
        have hright (a b : BitVec 32) : a - (b + 1) + b + 1 - a = 0 := by
          rw [BitVec.add_assoc, BitVec.sub_add_cancel, BitVec.sub_self]
          rfl
        simpa only [hleft, hright] using hcancel
      exact absurd hfalse (by decide)
  | ok preset =>
    refine iff_of_true ?_ ⟨preset, rfl⟩
    dsimp only
    split
    · rename_i hup
      dsimp only
      rw [c32_setBit, c32_setC32_self]
      bv_omega
    · dsimp only
      rw [c32_setBit, c32_setC32_self]
      bv_omega

/-! ### Resets -/

theorem getBit_plcResetOneCounter {t : Store} :
    (plcResetOneCounter c t).getBit (.elem .C) c = false :=
  getBit_setBit_self _ _ _

theorem getWord_plcResetOneCounter {t : Store} :
    (plcResetOneCounter c t).getWord (.elem .C) c = 0 ↔
      c < WordElement.rang .C ∨ t.getWord (.elem .C) c = 0 := by
  unfold plcResetOneCounter
  rw [getWord_setBit]
  split
  · rename_i hlow
    exact iff_of_true (getWord_setWord_self _ _ _) (.inl hlow)
  · rename_i hhigh
    rw [getWord_setC32, or_iff_right hhigh]

theorem c32_plcResetOneCounter {t : Store} :
    (plcResetOneCounter c t).c32 c = 0 ↔ WordElement.rang .C ≤ c ∨ t.c32 c = 0 := by
  unfold plcResetOneCounter
  rw [c32_setBit]
  split
  · rename_i hlow
    rw [c32_setWord, or_iff_right (Nat.not_le.mpr hlow)]
  · rename_i hhigh
    exact iff_of_true (c32_setC32_self _ _) (.inl (Nat.le_of_not_lt hhigh))

/-- The state after a reset that is executed. -/
theorem next_reset (hc : i.ucode.getPU16 (i.pc + 4) = c) (hon : getPowerFlow i.inPF = true) :
    s.next kind c (.reset i) =
      { s with store := plcResetOneCounter c s.store, ups := 0, downs := 0, reached := false } := by
  simp only [next, runCiRstCIns, hon, hc, if_true]

theorem reset_counts_iff (hc : i.ucode.getPU16 (i.pc + 4) = c) (hcounts : s.Counts kind c) :
    (s.next kind c (.reset i)).Counts kind c ↔ (CounterEvent.reset i).Regular kind c s := by
  by_cases hon : getPowerFlow i.inPF = true
  · rw [next_reset hc hon]
    cases kind with
    | ctu =>
      have hbit : (plcResetOneCounter c s.store).getBit (.elem .C) c = true ↔ false = true := by
        rw [getBit_plcResetOneCounter]
      refine (and_iff_left hbit).trans ?_
      refine getWord_plcResetOneCounter.trans ?_
      exact ⟨fun h _ => h, fun h => h hon⟩
    | ctr preset hpos =>
      constructor
      · intro hreset _
        exact getWord_plcResetOneCounter.mp (eq_of_toNat_eq hreset.1)
      · intro hregular
        have hvalue := getWord_plcResetOneCounter.mpr (hregular hon)
        refine ⟨congrArg BitVec.toNat hvalue, ?_⟩
        rw [getBit_plcResetOneCounter]
        exact iff_of_false Bool.false_ne_true fun heq => hpos (heq.symm.trans hvalue)
    | dcnt =>
      show (plcResetOneCounter c s.store).c32 c = BitVec.ofNat 32 0 - BitVec.ofNat 32 0 ↔ _
      refine c32_plcResetOneCounter.trans ?_
      exact ⟨fun h _ => h, fun h => h hon⟩
  · refine iff_of_true ?_ fun hset => absurd hset hon
    refine (counts_congr ?_ ?_ ?_ ?_).mpr hcounts <;> simp [next, runCiRstCIns, hon]

end CounterRun

/-! ## Whole runs -/

open CounterRun

variable {kind : CounterKind} {c : Nat} {s : CounterRun}

/-- What one event preserves. -/
theorem CounterEvent.right_iff_regular {x : CounterEvent} (hmem : s.Remembers c)
    (hcounts : s.Counts kind c) (hlegal : x.Legal kind c s) :
    x.Right kind c s ↔ x.Regular kind c s := by
  cases x with
  | count i =>
    obtain ⟨hc, hkind⟩ := hlegal
    by_cases hedge : s.Edge i
    · refine Iff.trans ?_ (show _ ↔ (CounterEvent.count i).Regular kind c s from
        ⟨fun h _ => h, fun h => h hedge⟩)
      cases kind with
      | ctu => exact iff_of_true (ctu_counts hmem hc hedge hcounts) trivial
      | ctr preset hpos => exact ctr_counts_iff hpos hmem hc hkind hedge hcounts
      | dcnt => exact dcnt_counts_iff hmem hc hedge hcounts
    · exact iff_of_true (counts_of_not_edge hmem hc hedge hcounts) fun h => absurd h hedge
  | reset i => exact reset_counts_iff hlegal hcounts
  | other t =>
    obtain ⟨hword, hdword, hbit⟩ := hlegal
    refine iff_of_true ?_ trivial
    unfold Right CounterRun.next
    cases kind with
    | ctu =>
      simp only [Counts, hword, hbit]
      exact hcounts
    | ctr preset hpos =>
      simp only [Counts, hword, hbit]
      exact hcounts
    | dcnt => exact hdword.trans hcounts

/-- The counter that has been reset counts right. -/
theorem CounterRun.counts_start {t : Store} {powerFlow : Nat → Bool} :
    (start t powerFlow c).Counts kind c := by
  have hbit : (start t powerFlow c).store.getBit (.elem .C) c = false :=
    getBit_setBit_self (s := (t.setWord (.elem .C) c 0).setC32 c 0) (.elem .C) c false
  have hword : (start t powerFlow c).store.getWord (.elem .C) c = 0 := by
    unfold start
    rw [getWord_setBit, getWord_setC32, getWord_setWord_self]
  have hdword : (start t powerFlow c).store.c32 c = 0 := by
    unfold start
    rw [c32_setBit, c32_setC32_self]
  cases kind with
  | ctu =>
    refine ⟨hword, ?_⟩
    rw [hbit]
    rfl
  | ctr preset hpos =>
    refine ⟨congrArg BitVec.toNat hword, ?_⟩
    rw [hbit, hword]
    exact iff_of_false Bool.false_ne_true fun heq => hpos heq.symm
  | dcnt => exact hdword.trans (BitVec.sub_self _).symm

theorem counters_right_iff (t : Store) (powerFlow : Nat → Bool) (xs : List CounterEvent)
    (hlegal : Each (next kind c) (CounterEvent.Legal kind c) (start t powerFlow c) xs) :
    Each (next kind c) (CounterEvent.Right kind c) (start t powerFlow c) xs ↔
      Each (next kind c) (CounterEvent.Regular kind c) (start t powerFlow c) xs := by
  refine hlegal.iff_of_invariant (I := fun s => s.Counts kind c ∧ s.Remembers c)
    ⟨counts_start, rfl⟩ ?_ ?_
  · intro s x ⟨hcounts, hmem⟩ hx
    exact CounterEvent.right_iff_regular hmem hcounts hx
  · intro s x ⟨hcounts, hmem⟩ hx hregular
    exact ⟨(CounterEvent.right_iff_regular hmem hcounts hx).mpr hregular, remembers_next hmem hx⟩

/-- `CTR C0 K1` with power flow, or without. -/
def ctrOfOne (inPF : BitVec 32) : BodyInput where
  ucode := [0x1A, 0xF0, 0x00, 0x14, 0x00, 0x00, 0x00, 0xFF, 0x01, 0x00]
  pc := 0
  level := 0
  now := 0
  inPF := inPF
  sfc := Plc.off.sfc
  store := Store.off

/-- It is executed with power flow and without. -/
def ctrOfOneRun : List CounterEvent :=
  [.count (ctrOfOne 1), .count (ctrOfOne 0), .count (ctrOfOne 1), .count (ctrOfOne 0)]

theorem ctrOfOneRun_legal (n : Nat) : Each (next (.ctr 1 (by decide)) 0)
    (CounterEvent.Legal (.ctr 1 (by decide)) 0) (start Store.off (fun _ => false) 0)
    (ctrOfOneRun.take n) := by
  intro before x after hsplit
  have hmem : x ∈ ctrOfOneRun :=
    mem_of_mem_take (hsplit ▸ mem_append_right before (.head _))
  have hctr : ∃ inPF, x = .count (ctrOfOne inPF) := by
    simp only [ctrOfOneRun, mem_cons, not_mem_nil, or_false] at hmem
    rcases hmem with rfl | rfl | rfl | rfl <;> exact ⟨_, rfl⟩
  obtain ⟨inPF, rfl⟩ := hctr
  exact ⟨rfl, rfl⟩

/-- One edge is counted right. -/
theorem ctrOfOneRun_right : Each (next (.ctr 1 (by decide)) 0)
    (CounterEvent.Right (.ctr 1 (by decide)) 0) (start Store.off (fun _ => false) 0)
    (ctrOfOneRun.take 2) := by
  refine (counters_right_iff Store.off (fun _ => false) _ (ctrOfOneRun_legal 2)).mpr ?_
  refine Each.cons_iff.mpr ⟨fun _ _ => rfl, Each.cons_iff.mpr ⟨fun hedge => ?_, Each.nil⟩⟩
  exact absurd hedge.1 (by decide)

/-- The second edge switches the bit off though the value is the preset. -/
theorem counters_not_right : ¬ ∀ (kind : CounterKind) (c : Nat) (t : Store)
    (powerFlow : Nat → Bool) (xs : List CounterEvent),
    Each (next kind c) (CounterEvent.Legal kind c) (start t powerFlow c) xs →
      Each (next kind c) (CounterEvent.Right kind c) (start t powerFlow c) xs := by
  intro h
  have hright := h (.ctr 1 (by decide)) 0 Store.off (fun _ => false) _ (ctrOfOneRun_legal 4)
    [.count (ctrOfOne 1), .count (ctrOfOne 0)] (.count (ctrOfOne 1)) [.count (ctrOfOne 0)] rfl
  have hbit := hright.2
  revert hbit
  decide

end Kalyke
