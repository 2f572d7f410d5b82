-- SUMMARY: What a pulse at one of the inputs X0 to X5 does: counting, and the compare instructions.
import Kalyke.Highspeed.CompareList
import Kalyke.Interrupt.Queue

/-!
# Pulses

An interrupt routine for each of the inputs `X0` to `X5` counts the pulse on the counters that are
started and then, for `X0` to `X3`, lets every compare instruction that runs look at its counter. An
instruction does what it is there for when it finds its compare value. Whether the pulse has changed
its counter at all is not looked at.

`DHST` and `DHSP` compare with one record of a table after the other.
-/

namespace Kalyke

open List Nat BitVec Function Option

/-! ## What the Compare Instructions Do -/

/-- What an instruction does when its counter has its compare value: a bit is set or reset, or one
of three, an interrupt is noted, or the rest of a record is put out. Bits of `Y` are put out at
once. -/
inductive DhsAction where
  | set (elemType address : Nat) (b : Bool)
  | zone (elemType address : Nat) (z : Nat)
  | interrupt (intNum : BitVec 8)
  | output (area : WordArea) (dAddress : Nat)
  | position (area : WordArea) (dAddress : Nat)
deriving DecidableEq

/-- `gHS_DHSx`, `gHCNT` and `gHCNT2`, the elements, the interrupts, and for the `SPD` instructions
that are started, their counts. -/
structure HighSpeed where
  store : Store
  hcnt : HcntState
  dhs : DhsTable
  interrupts : InterruptInfo
  spd : Nat → Option (BitVec 32)

/-- The elements a type byte stands for in `handleDHSCS` and, for resetting, in `handleDHSCR`. -/
def dhsElement (elemType : Nat) (b : Bool) : Option BitElement :=
  match AddrType.ofCode elemType with
  | some .y => some .Y
  | some .m => some .M
  | some .s => some .S
  | some .bC => if b then none else some .C
  | _ => none

/-- Two words of an area as one value. -/
def dwordAt (s : Store) (area : WordArea) (address : Nat) : BitVec 32 :=
  s.getWord area (address + 1) ++ s.getWord area address

def dAddress (address : Nat) (record : BitVec 8) : Nat := (address + 4 * record.toNat) % 2 ^ 32

/-- What an instruction does at a pulse, if anything. -/
def DhsEntry.action (e : DhsEntry) (s : Store) : Option DhsAction :=
  match e with
  | .dhscs _ c elemType address v =>
    if v = s.c32 c.toNat then some (.set elemType address true) else none
  | .dhscr _ c elemType address v =>
    if v = s.c32 c.toNat then some (.set elemType address false) else none
  | .dhsci _ c intNum v => if v = s.c32 c.toNat then some (.interrupt intNum) else none
  | .dhsz _ c elemType address v₁ v₂ =>
    some (.zone elemType address
      (if (s.c32 c.toNat).slt v₁ then 0 else if (s.c32 c.toNat).sle v₂ then 1 else 2))
  | .dhst _ c curRecord _ elemType address =>
    (recordArea elemType).bind fun area =>
      if s.c32 c.toNat = dwordAt s area (dAddress address curRecord) then
        some (.output area (dAddress address curRecord))
      else none
  | .dhsp _ c curRecord _ elemType address =>
    (recordArea elemType).bind fun area =>
      if s.c32 c.toNat = dwordAt s area (dAddress address curRecord) then
        some (.position area (dAddress address curRecord))
      else none

/-- `curRecord` after a record has been used. -/
def nextRecord (curRecord recordNum : BitVec 8) : BitVec 8 :=
  if recordNum ≤ curRecord + 1 then 0 else curRecord + 1

/-- The entry after its action. -/
def DhsEntry.advance : DhsEntry → DhsEntry
  | .dhst sNum c curRecord recordNum elemType address =>
    .dhst sNum c (nextRecord curRecord recordNum) recordNum elemType address
  | .dhsp sNum c curRecord recordNum elemType address =>
    .dhsp sNum c (nextRecord curRecord recordNum) recordNum elemType address
  | e => e

/-- After an action, the number of the next record and its compare value are shown, and that the
table is done. -/
def DhsEntry.showNext (e : DhsEntry) (s : Store) : Store :=
  match e with
  | .dhst _ _ curRecord recordNum elemType address
  | .dhsp _ _ curRecord recordNum elemType address =>
    match recordArea elemType with
    | some area =>
      let s := if recordNum ≤ curRecord + 1 then s.setBit (.elem .SM) 185 true else s
      let next := nextRecord curRecord recordNum
      showRecord 182 area (dAddress address next)
        (s.setWord (.elem .SD) 184 (next.setWidth 16 + 1))
    | none => s
  | _ => s

namespace HighSpeed

/-- What an action changes. -/
def perform (s : HighSpeed) : DhsAction → HighSpeed
  | .set elemType address b =>
    match dhsElement elemType b with
    | some e => { s with store := s.store.setBit (.elem e) address b }
    | none => s
  | .zone elemType address z =>
    match dhsElement elemType true with
    | some e =>
      { s with
        store := ((s.store.setBit (.elem e) address (z == 0)).setBit (.elem e) (address + 1)
          (z == 1)).setBit (.elem e) (address + 2) (z == 2) }
    | none => s
  | .interrupt intNum =>
    { s with
      interrupts := (s.interrupts.plcUserInterruptEnable true).plcAddIntToInterruptQueue intNum }
  | .output area a =>
    let y := (s.store.getWord area (a + 2)).toNat
    if s.store.getWord area (a + 3) = 1 then { s with store := s.store.setBit (.elem .Y) y true }
    else if s.store.getWord area (a + 3) = 0 then
      { s with store := s.store.setBit (.elem .Y) y false }
    else s
  | .position area a => { s with store := showRecord 180 area (a + 2) s.store }

/-- A handler of `handleDHSx` that has found its compare value. -/
def act (s : HighSpeed) (k : Nat) (a : DhsAction) : HighSpeed :=
  let s := s.perform a
  let e := s.dhs.ring.slot k
  { s with
    store := e.showNext s.store
    dhs := { s.dhs with
      ring := { s.dhs.ring with slot := update s.dhs.ring.slot k e.advance } } }

/-- The handlers, from `handleDHSCS` to `handleDHSCI`, on the entry of a slot, and what has been
done. -/
def handle (p : HighSpeed × List (Nat × DhsAction)) (k : Nat) : HighSpeed × List (Nat × DhsAction) :=
  match (p.1.dhs.ring.slot k).action p.1.store with
  | none => p
  | some a => (p.1.act k a, p.2 ++ [(k, a)])

/-- The slots of the instructions that run; none if the loop over them does not end. -/
def running (s : HighSpeed) : Option (List Nat) :=
  s.dhs.ring.walk (maxInstructionNum + 2) s.dhs.ring.head

/-- `handleDHSx`, and what has been done in which slot. -/
def handleDHSx (s : HighSpeed) : Option (HighSpeed × List (Nat × DhsAction)) :=
  s.running.map fun slots => slots.foldl handle (s, [])

/-! ## Counting -/

def getCounterCompareValue (s : HighSpeed) (counterNum : Nat) : BitVec 32 :=
  (s.hcnt.hcnts (counterNum - 236)).compareNum

def isUpperCounter (s : HighSpeed) (counterNum : Nat) : Bool := !s.store.bit .SM counterNum

def setCounterMode (s : HighSpeed) (counterNum : Nat) (mode : Bool) : HighSpeed :=
  { s with store := s.store.setBit (.elem .SM) counterNum (!mode) }

/-- A counter goes up or down, and when it has its compare value, a contact follows. -/
def stepCounter (s : HighSpeed) (counterNum : Nat) (up : Bool) (contact : Nat) : HighSpeed :=
  let v := if up then s.store.c32 counterNum + 1 else s.store.c32 counterNum - 1
  let store := s.store.setC32 counterNum v
  { s with
    store := if v = s.getCounterCompareValue counterNum then store.setBit (.elem .C) contact up
      else store }

def handleCounterValueAddOrMinus (s : HighSpeed) (counterNum : Nat) : HighSpeed :=
  s.stepCounter counterNum (s.isUpperCounter counterNum) counterNum

def handleCounterValueAddOnly (s : HighSpeed) (counterNum : Nat) : HighSpeed :=
  (s.setCounterMode counterNum true).stepCounter counterNum true 248

/-- `handleCounterValueMinusOnly`, which resets the contact of `C248`. -/
def handleCounterValueMinusOnly (s : HighSpeed) (counterNum : Nat) : HighSpeed :=
  (s.setCounterMode counterNum false).stepCounter counterNum false 248

/-- The input whose level tells the direction of a counter with two phases. -/
def phaseInput : Nat → Nat
  | 256 | 260 | 262 => 0
  | 257 => 2
  | 258 => 4
  | _ => 3

def handleCounterValueBPhase (level : Nat → Bool) (s : HighSpeed) (counterNum : Nat) : HighSpeed :=
  let up := level (phaseInput counterNum)
  (s.setCounterMode counterNum up).stepCounter counterNum up counterNum

end HighSpeed

/-- The ways to count. -/
inductive CountMode where
  | addOrMinus | addOnly | minusOnly | bPhase

def CountMode.handler (level : Nat → Bool) : CountMode → HighSpeed → Nat → HighSpeed
  | addOrMinus => HighSpeed.handleCounterValueAddOrMinus
  | addOnly => HighSpeed.handleCounterValueAddOnly
  | minusOnly => HighSpeed.handleCounterValueMinusOnly
  | bPhase => HighSpeed.handleCounterValueBPhase level

/-- The inputs with an interrupt routine that counts. -/
inductive PulseInput where
  | x0 | x1 | x2 | x3 | x4 | x5
deriving DecidableEq

namespace PulseInput

/-- The counters of an input, in the order of its routine. -/
def counters : PulseInput → List (Nat × CountMode)
  | x0 => [(236, .addOrMinus), (244, .addOrMinus), (246, .addOrMinus), (248, .addOnly),
      (252, .addOnly), (254, .addOnly)]
  | x1 => [(237, .addOrMinus), (248, .minusOnly), (252, .minusOnly), (254, .minusOnly),
      (256, .bPhase), (260, .bPhase), (262, .bPhase)]
  | x2 => [(238, .addOrMinus), (249, .addOnly)]
  | x3 => [(239, .addOrMinus), (245, .addOrMinus), (247, .addOrMinus), (249, .minusOnly),
      (253, .addOnly), (255, .addOnly), (257, .bPhase)]
  | x4 => [(240, .addOrMinus), (250, .addOnly), (253, .minusOnly), (255, .minusOnly),
      (261, .bPhase), (263, .bPhase)]
  | x5 => [(241, .addOrMinus), (250, .minusOnly), (258, .bPhase)]

/-- The `SPD` instruction that takes the pulses of an input for itself. -/
def spd : PulseInput → Option Nat
  | x0 => some 0
  | x1 => some 1
  | x2 => some 2
  | x3 => some 3
  | x4 | x5 => none

/-- Whether the routine of an input calls `handleDHSx`. -/
def compares : PulseInput → Bool
  | x0 | x1 | x2 | x3 => true
  | x4 | x5 => false

end PulseInput

namespace HighSpeed

/-- The counters of an input that are started count. -/
def count (level : Nat → Bool) (s : HighSpeed) (cs : List (Nat × CountMode)) : HighSpeed :=
  cs.foldl (fun s c => if s.hcnt.started c.1 then c.2.handler level s c.1 else s) s

def handleCounterReset (resets : List Nat) (s : HighSpeed) (counterNum : Nat) : HighSpeed :=
  if resets.contains counterNum then
    { s with store := (s.store.setC32 counterNum 0).setBit (.elem .C) counterNum false }
  else s

/-- The counters whose reset input is `X2`. -/
def x002Resets : List Nat := [244, 246, 252, 254, 260, 262]

/-- The counters whose reset input is `X5`. -/
def x005Resets : List Nat := [245, 247, 253, 255, 261, 263]

/-- The loop of `X002_Interrupt` over the list of the counters. -/
def resetListed (s : HighSpeed) : Option HighSpeed :=
  (s.hcnt.ring.walk (hcntMaxNumber + 1) s.hcnt.ring.head).map fun slots =>
    slots.foldl (fun s k => handleCounterReset x002Resets s (s.hcnt.ring.slot k).counterNum) s

/-- The loop of `X005_Interrupt` over the first slots. -/
def resetFirst (s : HighSpeed) : HighSpeed :=
  (range s.hcnt.cntNumbers).foldl
    (fun s k => handleCounterReset x005Resets s (s.hcnt.ring.slot k).counterNum) s

/-- What the routine of an input resets at its end. -/
def reset (s : HighSpeed) : PulseInput → Option HighSpeed
  | .x2 => s.resetListed
  | .x5 => some s.resetFirst
  | _ => some s

/-- The count of the `SPD` instruction that is started on an input. -/
def spdCount (s : HighSpeed) (x : PulseInput) : Option (Nat × BitVec 32) :=
  x.spd.bind fun i => (s.spd i).map fun c => (i, c)

/-- The first part of a routine: the pulse is counted, and the compare instructions look at it. -/
def compared (s : HighSpeed) (x : PulseInput) (level : Nat → Bool) :
    Option (HighSpeed × List (Nat × DhsAction)) :=
  if x.compares then (s.count level x.counters).handleDHSx
  else some (s.count level x.counters, [])

/-- `X000_Interrupt` to `X005_Interrupt`: the state after the routine, and what the compare
instructions have done in it; none if it does not return. -/
def interrupt (s : HighSpeed) (x : PulseInput) (level : Nat → Bool) :
    Option (HighSpeed × List (Nat × DhsAction)) :=
  match s.spdCount x with
  | some (i, c) => some ({ s with spd := update s.spd i (some (c + 1)) }, [])
  | none =>
    let s := s.count level x.counters
    (if x.compares then s.handleDHSx else some (s, [])).bind fun p =>
      (p.1.reset x).map fun s => (s, p.2)

end HighSpeed

/-! ## Runs -/

/-- A pulse, with the levels of the inputs, or what comes in between: a call of `HCNT`, the start or
the stop of a compare instruction, an `SPD` instruction, and any other change of the elements and
the interrupts. -/
inductive PulseEvent where
  | pulse (x : PulseInput) (level : Nat → Bool)
  | hcnt (x : HcntCall)
  | start (sNum : BitVec 8) (counterNum : BitVec 16) (i : BodyInput) (kind : DhsType)
  | stop (sNum : BitVec 8)
  | spd (i : Nat) (count : Option (BitVec 32))
  | other (store : Store) (interrupts : InterruptInfo)

/-- The state, and for each slot the count of records that its instruction has been started with and
the record that is due. -/
structure PulseRun where
  hs : HighSpeed
  recordCount : Nat → Nat
  due : Nat → Nat

/-- The table of a `DHST` or `DHSP` entry. -/
structure RecordTable where
  area : WordArea
  address : Nat
  curRecord : BitVec 8
  recordNum : BitVec 8

namespace DhsEntry

def table : DhsEntry → Option RecordTable
  | .dhst _ _ curRecord recordNum elemType address
  | .dhsp _ _ curRecord recordNum elemType address =>
    (recordArea elemType).map fun area => ⟨area, address, curRecord, recordNum⟩
  | _ => none

def counter : DhsEntry → Nat
  | .dhscs _ c .. | .dhscr _ c .. | .dhsz _ c .. => c.toNat
  | .dhst _ c .. | .dhsp _ c .. | .dhsci _ c .. => c.toNat

/-- An entry that acts when its counter comes to a value. -/
def isArrival : DhsEntry → Bool
  | .dhsz .. => false
  | _ => true

def compareValue (e : DhsEntry) (r : Nat) (s : Store) : Option (BitVec 32) :=
  match e with
  | .dhscs _ _ _ _ v | .dhscr _ _ _ _ v | .dhsci _ _ _ v => some v
  | .dhsz .. => none
  | .dhst _ _ _ _ elemType address | .dhsp _ _ _ _ elemType address =>
    (recordArea elemType).map fun area => dwordAt s area (address + 4 * r)

/-- What an entry is to do when its counter comes to this value. -/
def demanded (e : DhsEntry) (r : Nat) : Option DhsAction :=
  match e with
  | .dhscs _ _ elemType address _ => some (.set elemType address true)
  | .dhscr _ _ elemType address _ => some (.set elemType address false)
  | .dhsci _ _ intNum _ => some (.interrupt intNum)
  | .dhsz .. => none
  | .dhst _ _ _ _ elemType address =>
    (recordArea elemType).map fun area => .output area (address + 4 * r)
  | .dhsp _ _ _ _ elemType address =>
    (recordArea elemType).map fun area => .position area (address + 4 * r)

end DhsEntry

/-- A start is not refused, and the instruction does not run yet. -/
def DhsTable.Enters (t : DhsTable) (sNum : BitVec 8) : Prop :=
  t.dhsNumbers ≤ maxInstructionNum ∧ t.find sNum = some .nowhere

instance (t : DhsTable) (sNum : BitVec 8) : Decidable (t.Enters sNum) :=
  inferInstanceAs (Decidable (_ ∧ _))

namespace HighSpeed

/-- The state when the pulse has been counted. -/
def counted (s : HighSpeed) (x : PulseInput) (level : Nat → Bool) : HighSpeed :=
  if (s.spdCount x).isSome then s else s.count level x.counters

/-- The compare instructions look at a pulse of the input. -/
def listens (s : HighSpeed) (x : PulseInput) : Bool := x.compares && (s.spdCount x).isNone

end HighSpeed

namespace PulseRun

variable (s : PulseRun)

/-- The start of a run. -/
def init (store : Store) (interrupts : InterruptInfo) : PulseRun where
  hs := ⟨store, .init, .init, interrupts, fun _ => none⟩
  recordCount := fun _ => 0
  due := fun _ => 0

def entry (k : Nat) : DhsEntry := s.hs.dhs.ring.slot k

/-- The slots of the instructions that run. -/
def slots : List Nat := s.hs.running.getD []

def arrives (x : PulseInput) (level : Nat → Bool) (k : Nat) : Bool :=
  match (s.entry k).compareValue (s.due k) s.hs.store with
  | none => false
  | some v =>
    s.hs.store.c32 (s.entry k).counter != v &&
      (s.hs.counted x level).store.c32 (s.entry k).counter == v

def dueNext (k : Nat) : Nat := if s.due k + 1 < s.recordCount k then s.due k + 1 else 0

/-- A start of an instruction: the slot it is entered in has its records before it. -/
def start (sNum : BitVec 8) (counterNum : BitVec 16) (i : BodyInput) (kind : DhsType) : PulseRun :=
  let i := { i with store := s.hs.store }
  match s.hs.dhs.startDHSx sNum counterNum i kind with
  | none => s
  | some (dhs, store) =>
    { hs := { s.hs with dhs := dhs, store := store }
      recordCount := if s.hs.dhs.Enters sNum then
          update s.recordCount s.hs.dhs.ring.tail (i.wordOr 8 0).toNat
        else s.recordCount
      due := if s.hs.dhs.Enters sNum then update s.due s.hs.dhs.ring.tail 0 else s.due }

def next : PulseEvent → PulseRun
  | .pulse x level =>
    { hs := (s.hs.interrupt x level).elim s.hs Prod.fst
      recordCount := s.recordCount
      due k := if k ∈ s.slots ∧ s.arrives x level k = true then s.dueNext k else s.due k }
  | .hcnt x =>
    { s with hs := { s.hs with hcnt := s.hs.hcnt.next { x with i := { x.i with store := s.hs.store } } } }
  | .start sNum counterNum i kind => s.start sNum counterNum i kind
  | .stop sNum => { s with hs := { s.hs with dhs := (s.hs.dhs.stopDHSx sNum).getD s.hs.dhs } }
  | .spd i c => { s with hs := { s.hs with spd := update s.hs.spd i c } }
  | .other store interrupts => { s with hs := { s.hs with store := store, interrupts := interrupts } }

def RecordsInRange : Prop :=
  ∀ k ∈ s.slots, ∀ t, (s.entry k).table = some t → 1 ≤ s.recordCount k →
    t.curRecord.toNat < s.recordCount k

end PulseRun

/-- The words of a table that a handler reads lie in the area: the compare value of a record and,
when it acts, the rest of the record and the compare value of the next. -/
def RecordTable.ReadsInside (t : RecordTable) (record nextRecord : Nat) (acts : Bool) : Prop :=
  record + 1 < t.area.rang ∧
    (acts = true → record + 3 < t.area.rang ∧ nextRecord + 1 < t.area.rang)

/-- At a pulse, each instruction that runs does what it is to do just if its counter arrives at its
compare value, and words are only read in the area of a table, also at a start. -/
def PulseEvent.Right (s : PulseRun) (e : PulseEvent) : Prop :=
  (s.next e).RecordsInRange ∧
    match e with
    | .pulse x level =>
      ∃ hs log, s.hs.interrupt x level = some (hs, log) ∧ ∀ k ∈ s.slots,
        ((s.entry k).isArrival = true → (log.filter (fun p => p.1 == k)).map Prod.snd =
          if s.arrives x level k then ((s.entry k).demanded (s.due k)).toList else []) ∧
        ∀ t, (s.entry k).table = some t → s.hs.listens x = true →
          t.ReadsInside (dAddress t.address t.curRecord)
            (dAddress t.address (nextRecord t.curRecord t.recordNum)) (log.any fun p => p.1 == k)
    | .start sNum counterNum i kind => s.hs.dhs.Enters sNum →
      ∀ t, (dhsEntry sNum counterNum { i with store := s.hs.store } kind).table = some t →
        t.address + 1 < t.area.rang
    | _ => True

/-- At a pulse that the instructions look at, no counter rests at its compare value, and at another
one, no counter arrives there. The records of a table that are due lie in its area, and there are
more of them just if there are by the low byte of their count. -/
def PulseEvent.Timely (s : PulseRun) : PulseEvent → Prop
  | .pulse x level => ∀ k ∈ s.slots,
      (∀ v, (s.entry k).compareValue (s.due k) s.hs.store = some v →
        (s.hs.counted x level).store.c32 (s.entry k).counter = v →
          (s.hs.listens x = true ↔ s.hs.store.c32 (s.entry k).counter ≠ v)) ∧
      ∀ t, (s.entry k).table = some t → s.hs.listens x = true →
        t.ReadsInside (t.address + 4 * s.due k) (t.address + 4 * s.dueNext k) (s.arrives x level k) ∧
        (s.arrives x level k = true →
          (s.due k + 1 < s.recordCount k ↔ s.due k + 1 < s.recordCount k % 256))
  | .start sNum counterNum i kind => s.hs.dhs.Enters sNum →
      ∀ t, (dhsEntry sNum counterNum { i with store := s.hs.store } kind).table = some t →
        t.address + 1 < t.area.rang
  | _ => True

/-! ## One Routine -/

/-- What the handlers read is the same. -/
structure Store.SameInputs (s s' : Store) : Prop where
  c32 : s'.c32 = s.c32
  d : s'.word .D = s.word .D
  r : s'.word .R = s.word .R

namespace Store.SameInputs

variable {s s' s'' : Store}

theorem rfl' : s.SameInputs s := ⟨rfl, rfl, rfl⟩

theorem trans (h : s.SameInputs s') (h' : s'.SameInputs s'') : s.SameInputs s'' :=
  ⟨h'.c32.trans h.c32, h'.d.trans h.d, h'.r.trans h.r⟩

theorem setBit (e : BitElement) (i : Nat) (b : Bool) : s.SameInputs (s.setBit (.elem e) i b) :=
  ⟨rfl, rfl, rfl⟩

theorem setWordSd (i : Nat) (x : BitVec 16) : s.SameInputs (s.setWord (.elem .SD) i x) :=
  ⟨rfl, rfl, rfl⟩

theorem showRecord (sd : Nat) (area : WordArea) (a : Nat) :
    s.SameInputs (Kalyke.showRecord sd area a s) := (setWordSd _ _).trans (setWordSd _ _)

end Store.SameInputs

theorem recordArea_eq {elemType : Nat} {area : WordArea} (h : recordArea elemType = some area) :
    area = .elem .D ∨ area = .elem .R := by
  unfold recordArea at h
  split at h <;> cases h
  · exact .inl rfl
  · exact .inr rfl

theorem dwordAt_congr {s s' : Store} (h : s.SameInputs s') {elemType : Nat} {area : WordArea}
    (harea : recordArea elemType = some area) (a : Nat) : dwordAt s' area a = dwordAt s area a := by
  rcases recordArea_eq harea with rfl | rfl
  · simp only [dwordAt, Store.getWord, h.d]
  · simp only [dwordAt, Store.getWord, h.r]

/-- Whether an entry acts is told by what the handlers read; for a zone, which action it is, too. -/
theorem DhsEntry.action_congr {s s' : Store} (h : s.SameInputs s') (e : DhsEntry) :
    e.action s' = e.action s := by
  cases e with
  | dhst _ c cur n t address =>
    simp only [action, h.c32]
    refine Option.bind_congr fun area harea => ?_
    rw [dwordAt_congr h harea]
  | dhsp _ c cur n t address =>
    simp only [action, h.c32]
    refine Option.bind_congr fun area harea => ?_
    rw [dwordAt_congr h harea]
  | _ => simp only [action, h.c32]

theorem DhsEntry.sameInputs_showNext (e : DhsEntry) (s : Store) : s.SameInputs (e.showNext s) := by
  have htable (n cur : BitVec 8) (sd : BitVec 16) (area : WordArea) (a : Nat) :
      s.SameInputs (showRecord 182 area a
        ((if n ≤ cur + 1 then s.setBit (.elem .SM) 185 true else s).setWord (.elem .SD) 184 sd)) := by
    refine .trans (.trans ?_ (.setWordSd 184 sd)) (.showRecord 182 area a)
    split
    · exact .setBit .SM 185 true
    · exact .rfl'
  cases e with
  | dhst _ _ cur n t address =>
    simp only [showNext]
    cases recordArea t with
    | none => exact .rfl'
    | some area =>
      exact htable n cur ((nextRecord cur n).setWidth 16 + 1) area (dAddress address (nextRecord cur n))
  | dhsp _ _ cur n t address =>
    simp only [showNext]
    cases recordArea t with
    | none => exact .rfl'
    | some area =>
      exact htable n cur ((nextRecord cur n).setWidth 16 + 1) area (dAddress address (nextRecord cur n))
  | dhscs | dhscr | dhsz | dhsci => exact .rfl'

namespace HighSpeed

variable {s : HighSpeed} {k : Nat}

theorem perform_keeps (s : HighSpeed) (a : DhsAction) :
    s.store.SameInputs (s.perform a).store ∧ (s.perform a).dhs = s.dhs ∧
      (s.perform a).hcnt = s.hcnt := by
  cases a with
  | set elemType address b =>
    unfold perform
    dsimp only
    split
    · exact ⟨.setBit .., rfl, rfl⟩
    · exact ⟨.rfl', rfl, rfl⟩
  | zone elemType address z =>
    unfold perform
    dsimp only
    split
    · exact ⟨.trans (.trans (.setBit ..) (.setBit ..)) (.setBit ..), rfl, rfl⟩
    · exact ⟨.rfl', rfl, rfl⟩
  | interrupt intNum => exact ⟨.rfl', rfl, rfl⟩
  | output area a =>
    unfold perform
    dsimp only
    split_ifs
    · exact ⟨.setBit .., rfl, rfl⟩
    · exact ⟨.setBit .., rfl, rfl⟩
    · exact ⟨.rfl', rfl, rfl⟩
  | position area a => exact ⟨.showRecord .., rfl, rfl⟩

theorem act_keeps (s : HighSpeed) (k : Nat) (a : DhsAction) :
    s.store.SameInputs (s.act k a).store ∧ (s.act k a).hcnt = s.hcnt ∧
      (s.act k a).dhs = { s.dhs with
        ring := { s.dhs.ring with
          slot := update s.dhs.ring.slot k (s.dhs.ring.slot k).advance } } := by
  obtain ⟨hstore, hdhs, hhcnt⟩ := s.perform_keeps a
  unfold act
  dsimp only
  rw [hdhs, hhcnt]
  exact ⟨hstore.trans (DhsEntry.sameInputs_showNext _ _), rfl, rfl⟩

/-- What the handlers do for some slots, by the state before. -/
def actions (s : HighSpeed) (ks : List Nat) : List (Nat × DhsAction) :=
  ks.filterMap fun k => ((s.dhs.ring.slot k).action s.store).map fun a => (k, a)

/-- The slots after the handlers, by the state before. -/
def advanced (s : HighSpeed) (ks : List Nat) (k : Nat) : DhsEntry :=
  if k ∈ ks ∧ ((s.dhs.ring.slot k).action s.store).isSome = true then (s.dhs.ring.slot k).advance
  else s.dhs.ring.slot k

/-- The handlers do not disturb each other. -/
theorem handle_foldl {ks : List Nat} (hks : ks.Nodup) (s : HighSpeed)
    (log : List (Nat × DhsAction)) :
    ∃ s', ks.foldl handle (s, log) = (s', log ++ s.actions ks) ∧ s'.hcnt = s.hcnt ∧
      s'.dhs = { s.dhs with ring := { s.dhs.ring with slot := s.advanced ks } } := by
  induction ks generalizing s log with
  | nil =>
    refine ⟨s, by simp [actions], rfl, ?_⟩
    have hslot : s.advanced [] = s.dhs.ring.slot := funext fun k => if_neg (by simp)
    rw [hslot]
  | cons k ks ih =>
    obtain ⟨hk, hks⟩ := nodup_cons.mp hks
    rw [foldl_cons]
    cases hact : (s.dhs.ring.slot k).action s.store with
    | none =>
      have hhandle : handle (s, log) k = (s, log) := by rw [handle, hact]
      obtain ⟨s', hfold, hhcnt, hdhs⟩ := ih hks s log
      refine ⟨s', ?_, hhcnt, ?_⟩
      · rw [hhandle, hfold, actions, actions, filterMap_cons, hact]
        rfl
      · have hslot : s.advanced (k :: ks) = s.advanced ks := by
          funext j
          refine if_congr ?_ rfl rfl
          rw [mem_cons]
          refine and_congr_left fun hsome => or_iff_right fun hjk => ?_
          rw [hjk, hact] at hsome
          cases hsome
        rw [hdhs, hslot]
    | some a =>
      have hhandle : handle (s, log) k = (s.act k a, log ++ [(k, a)]) := by rw [handle, hact]
      obtain ⟨hstore, hhcnt, hdhs⟩ := s.act_keeps k a
      have hother (j : Nat) (hj : j ≠ k) : (s.act k a).dhs.ring.slot j = s.dhs.ring.slot j := by
        rw [hdhs]
        exact update_of_ne hj _ _
      obtain ⟨s', hfold, hhcnt', hdhs'⟩ := ih hks (s.act k a) (log ++ [(k, a)])
      refine ⟨s', ?_, hhcnt'.trans hhcnt, ?_⟩
      · have hactions : (s.act k a).actions ks = s.actions ks := by
          refine filterMap_congr fun j hj => ?_
          have hne : j ≠ k := fun heq => hk (heq ▸ hj)
          rw [hother j hne, DhsEntry.action_congr hstore]
        rw [hhandle, hfold, hactions]
        unfold actions
        rw [filterMap_cons, hact, List.append_assoc]
        rfl
      · have hslot : (s.act k a).advanced ks = s.advanced (k :: ks) := by
          funext j
          unfold advanced
          by_cases hj : j = k
          · subst hj
            rw [if_neg fun hmem => hk hmem.1, if_pos ⟨mem_cons_self, by rw [hact]; rfl⟩, hdhs]
            exact update_self ..
          · rw [hother j hj, DhsEntry.action_congr hstore]
            simp [hj]
        rw [hdhs', hslot, hdhs]

theorem filter_actions {ks : List Nat} (hks : ks.Nodup) (hk : k ∈ ks) :
    ((s.actions ks).filter (fun p => p.1 == k)).map Prod.snd =
      ((s.dhs.ring.slot k).action s.store).toList := by
  induction ks with
  | nil => cases hk
  | cons j ks ih =>
    obtain ⟨hj, hks⟩ := nodup_cons.mp hks
    have hnone (hkj : k ∉ ks) : (s.actions ks).filter (fun p => p.1 == k) = [] := by
      refine filter_eq_nil_iff.mpr fun p hp => ?_
      obtain ⟨i, hi, hact⟩ := mem_filterMap.mp hp
      obtain ⟨a, -, rfl⟩ := map_eq_some_iff.mp hact
      refine Bool.eq_false_iff.mp (beq_eq_false_iff_ne.mpr fun heq => hkj ?_)
      rw [← show i = k from heq]
      exact hi
    rcases mem_cons.mp hk with rfl | hk
    · unfold actions at hnone ⊢
      rw [filterMap_cons]
      cases (s.dhs.ring.slot k).action s.store with
      | none => simp [hnone hj]
      | some a => simp [hnone hj]
    · have hne : j ≠ k := fun heq => hj (heq ▸ hk)
      rw [← ih hks hk]
      unfold actions
      rw [filterMap_cons]
      cases (s.dhs.ring.slot j).action s.store with
      | none => rfl
      | some a => simp [hne]

end HighSpeed

/-- Counting changes no entry and no table. -/
theorem HighSpeed.count_keeps (level : Nat → Bool) (s : HighSpeed) (cs : List (Nat × CountMode)) :
    (s.count level cs).dhs = s.dhs ∧ (s.count level cs).hcnt = s.hcnt ∧
      (s.count level cs).store.word = s.store.word := by
  have hstep (s : HighSpeed) (n : Nat) (up : Bool) (contact : Nat) :
      (s.stepCounter n up contact).dhs = s.dhs ∧ (s.stepCounter n up contact).hcnt = s.hcnt ∧
        (s.stepCounter n up contact).store.word = s.store.word := by
    refine ⟨rfl, rfl, ?_⟩
    unfold HighSpeed.stepCounter
    dsimp only
    split_ifs <;> rfl
  have hhandler (m : CountMode) (s : HighSpeed) (n : Nat) :
      (m.handler level s n).dhs = s.dhs ∧ (m.handler level s n).hcnt = s.hcnt ∧
        (m.handler level s n).store.word = s.store.word := by
    cases m with
    | addOrMinus => exact hstep s n _ n
    | addOnly => exact hstep (s.setCounterMode n true) n true 248
    | minusOnly => exact hstep (s.setCounterMode n false) n false 248
    | bPhase => exact hstep (s.setCounterMode n _) n _ n
  unfold HighSpeed.count
  induction cs generalizing s with
  | nil => exact ⟨rfl, rfl, rfl⟩
  | cons c cs ih =>
    rw [foldl_cons]
    obtain ⟨hdhs, hhcnt, hword⟩ := ih (if s.hcnt.started c.1 then c.2.handler level s c.1 else s)
    rw [hdhs, hhcnt, hword]
    split
    · exact hhandler c.2 s c.1
    · exact ⟨rfl, rfl, rfl⟩

/-- Resetting changes elements only. -/
theorem HighSpeed.reset_keeps {s s' : HighSpeed} {x : PulseInput} (h : s.reset x = some s') :
    s'.dhs = s.dhs ∧ s'.hcnt = s.hcnt := by
  have hfold (resets : List Nat) (f : HighSpeed → Nat → Nat) (ks : List Nat) (s : HighSpeed) :
      (ks.foldl (fun s k => handleCounterReset resets s (f s k)) s).dhs = s.dhs ∧
        (ks.foldl (fun s k => handleCounterReset resets s (f s k)) s).hcnt = s.hcnt := by
    induction ks generalizing s with
    | nil => exact ⟨rfl, rfl⟩
    | cons k ks ih =>
      rw [foldl_cons]
      obtain ⟨hdhs, hhcnt⟩ := ih (handleCounterReset resets s (f s k))
      rw [hdhs, hhcnt]
      unfold handleCounterReset
      split <;> exact ⟨rfl, rfl⟩
  cases x with
  | x2 =>
    obtain ⟨slots, -, rfl⟩ := map_eq_some_iff.mp h
    exact hfold x002Resets (fun s k => (s.hcnt.ring.slot k).counterNum) slots s
  | x5 =>
    obtain rfl := some.inj h
    exact hfold x005Resets (fun s k => (s.hcnt.ring.slot k).counterNum) _ s
  | _ =>
    obtain rfl := some.inj h
    exact ⟨rfl, rfl⟩

/-- The slots of the compare instructions and those of the counters form rings. -/
structure PulseRun.Rings (s : PulseRun) : Prop where
  dhs : s.hs.dhs.ring.Fits (maxInstructionNum + 1)
  hcnt : s.hs.hcnt.ring.Fits hcntMaxNumber

/-- `curRecord` is the record that is due, for all slots of tables, and `recordNum` is the low byte
of the count. -/
structure PulseRun.Inv (s : PulseRun) : Prop where
  dhs : s.hs.dhs.ring.Fits (maxInstructionNum + 1)
  hcnt : s.hs.hcnt.ring.Fits hcntMaxNumber
  curRecord : ∀ k t, (s.entry k).table = some t → t.curRecord.toNat = s.due k
  recordNum : ∀ k t, (s.entry k).table = some t → t.recordNum.toNat = s.recordCount k % 256
  due_lt : ∀ k, 1 ≤ s.recordCount k → s.due k < s.recordCount k

namespace DhsEntry

variable {e : DhsEntry} {t : RecordTable} {s s' : Store} {r : Nat}

theorem table_area (h : e.table = some t) : t.area = .elem .D ∨ t.area = .elem .R := by
  cases e with
  | dhst _ _ cur n elemType address | dhsp _ _ cur n elemType address =>
    obtain ⟨area, harea, rfl⟩ := map_eq_some_iff.mp h
    exact recordArea_eq harea
  | dhscs | dhscr | dhsz | dhsci => cases h

theorem table_advance (h : e.advance.table = some t) :
    ∃ t', e.table = some t' ∧
      t = { t' with curRecord := nextRecord t'.curRecord t'.recordNum } := by
  cases e with
  | dhst _ _ cur n elemType address | dhsp _ _ cur n elemType address =>
    obtain ⟨area, harea, rfl⟩ := map_eq_some_iff.mp h
    exact ⟨_, map_eq_some_iff.mpr ⟨area, harea, rfl⟩, rfl⟩
  | dhscs | dhscr | dhsz | dhsci => cases h

/-- Addresses in an area are not shortened to 32 bits. -/
theorem dAddress_eq {area : WordArea} (harea : area = .elem .D ∨ area = .elem .R) {address : Nat}
    {cur : BitVec 8} (hcur : cur.toNat = r) (hin : address + 4 * r + 1 < area.rang) :
    dAddress address cur = address + 4 * r := by
  unfold dAddress
  rw [hcur]
  refine mod_eq_of_lt ?_
  rcases harea with rfl | rfl
  · have hrang : (WordArea.elem .D).rang = 8000 := rfl
    omega
  · have hrang : (WordArea.elem .R).rang = 32768 := rfl
    omega

/-- An entry does what it is to do just if its counter has its compare value. -/
theorem action_eq (he : e.isArrival = true) (hword : s'.word = s.word)
    (htable : ∀ t, e.table = some t → dAddress t.address t.curRecord = t.address + 4 * r) :
    e.action s' = if e.compareValue r s = some (s'.c32 e.counter) then e.demanded r else none := by
  have hrecord (elemType address : Nat) (cur n : BitVec 8) (f : WordArea → Nat → DhsAction) (c : Nat)
      (htable : ∀ area, recordArea elemType = some area →
        dAddress address cur = address + 4 * r) :
      ((recordArea elemType).bind fun area =>
        if s'.c32 c = dwordAt s' area (dAddress address cur) then
          some (f area (dAddress address cur)) else none) =
      if ((recordArea elemType).map fun area => dwordAt s area (address + 4 * r)) =
          some (s'.c32 c) then
        (recordArea elemType).map fun area => f area (address + 4 * r)
      else none := by
    cases harea : recordArea elemType with
    | none => simp only [bind_none, map_none, ite_self]
    | some area =>
      have hdword : dwordAt s' area (address + 4 * r) = dwordAt s area (address + 4 * r) := by
        rcases recordArea_eq harea with rfl | rfl <;> simp only [dwordAt, Store.getWord, hword]
      rw [bind_some, htable area harea, hdword, map_some]
      refine if_congr ?_ rfl rfl
      rw [some_inj]
      exact eq_comm
  cases e with
  | dhsz => cases he
  | dhscs | dhscr | dhsci => exact if_congr some_inj.symm rfl rfl
  | dhst _ c cur n elemType address =>
    exact hrecord elemType address cur n .output c.toNat fun area harea =>
      htable _ (map_eq_some_iff.mpr ⟨area, harea, rfl⟩)
  | dhsp _ c cur n elemType address =>
    exact hrecord elemType address cur n .position c.toNat fun area harea =>
      htable _ (map_eq_some_iff.mpr ⟨area, harea, rfl⟩)

end DhsEntry

theorem nextRecord_toNat {cur n : BitVec 8} {count : Nat} (hn : n.toNat = count % 256)
    (hmore : cur.toNat + 1 < count ↔ cur.toNat + 1 < count % 256) :
    (nextRecord cur n).toNat = if cur.toNat + 1 < count then cur.toNat + 1 else 0 := by
  have hadd : (cur + 1).toNat = (cur.toNat + 1) % 256 := by rw [toNat_add]; rfl
  have hle : n ≤ cur + 1 ↔ count % 256 ≤ (cur.toNat + 1) % 256 := by
    rw [le_def, hn, hadd]
  unfold nextRecord
  by_cases hwrap : cur.toNat + 1 = 256
  · rw [hwrap] at hadd hmore ⊢
    have hno : ¬ 256 < count := by omega
    split
    · rfl
    · exact hadd
  · have hsmall : (cur.toNat + 1) % 256 = cur.toNat + 1 := mod_eq_of_lt (by omega)
    rw [hsmall] at hadd hle
    by_cases hlast : n ≤ cur + 1
    · have hno : ¬ cur.toNat + 1 < count := by
        have hfew := Nat.not_lt.mpr (hle.mp hlast)
        exact fun hmany => hfew (hmore.mp hmany)
      rw [if_pos hlast, if_neg hno]
      rfl
    · have hyes : cur.toNat + 1 < count := hmore.mpr (Nat.lt_of_not_le fun h => hlast (hle.mpr h))
      rw [if_neg hlast, if_pos hyes, hadd]

namespace PulseRun

variable {s : PulseRun} {x : PulseInput} {level : Nat → Bool} {k : Nat}

theorem Inv.init (store : Store) (interrupts : InterruptInfo) :
    (PulseRun.init store interrupts).Inv where
  dhs := ⟨_, _, DhsState.Inv.init.ring, by decide⟩
  hcnt := ⟨_, _, HcntState.Inv.init.ring, by decide⟩
  curRecord k t h := by cases h
  recordNum k t h := by cases h
  due_lt k h := by cases h

theorem Inv.rings (h : s.Inv) : s.Rings := ⟨h.dhs, h.hcnt⟩

theorem Rings.running (h : s.Rings) : s.hs.running = some s.slots ∧ s.slots.Nodup := by
  obtain ⟨busy, hwalk, hnodup, -⟩ := h.dhs.walk (le_succ _)
  have hrun : s.hs.running = some busy := hwalk
  rw [slots, hrun]
  exact ⟨rfl, hnodup⟩

theorem Inv.recordsInRange (h : s.Inv) : s.RecordsInRange := fun k _ t ht hcount => by
  rw [h.curRecord k t ht]
  exact h.due_lt k hcount

theorem counted_keeps (s : HighSpeed) (x : PulseInput) (level : Nat → Bool) :
    (s.counted x level).dhs = s.dhs ∧ (s.counted x level).hcnt = s.hcnt ∧
      (s.counted x level).store.word = s.store.word := by
  unfold HighSpeed.counted
  split
  · exact ⟨rfl, rfl, rfl⟩
  · exact HighSpeed.count_keeps level s x.counters

/-- The state and the actions after the first part of a routine. -/
theorem Rings.compared (h : s.Rings) (hspd : s.hs.spdCount x = none)
    (level : Nat → Bool) :
    ∃ hs, s.hs.compared x level =
        some (hs, if s.hs.listens x then (s.hs.counted x level).actions s.slots else []) ∧
      hs.hcnt = s.hs.hcnt ∧ hs.dhs = { s.hs.dhs with
        ring := { s.hs.dhs.ring with
          slot := if s.hs.listens x then (s.hs.counted x level).advanced s.slots
            else s.hs.dhs.ring.slot } } := by
  obtain ⟨hrun, hnodup⟩ := h.running
  have hcounted : s.hs.counted x level = s.hs.count level x.counters := if_neg (by simp [hspd])
  have hlistens : s.hs.listens x = x.compares := by simp [HighSpeed.listens, hspd]
  obtain ⟨hdhs, hhcnt, -⟩ := counted_keeps s.hs x level
  rw [hcounted] at hdhs hhcnt
  rw [hlistens, hcounted, HighSpeed.compared]
  cases x.compares with
  | false => exact ⟨_, by rw [if_neg (by simp), if_neg (by simp)], hhcnt, by rw [hdhs, if_neg (by simp)]⟩
  | true =>
    have hrun' : (s.hs.count level x.counters).running = some s.slots := by
      rw [← hrun, HighSpeed.running, HighSpeed.running, hdhs]
    obtain ⟨hs₁, hfold, hhcnt₁, hdhs₁⟩ :=
      HighSpeed.handle_foldl hnodup (s.hs.count level x.counters) []
    refine ⟨hs₁, ?_, hhcnt₁.trans hhcnt, by rw [hdhs₁, if_pos rfl, hdhs]⟩
    rw [if_pos rfl, if_pos rfl, HighSpeed.handleDHSx, hrun', map_some, hfold, nil_append]

/-- The state and the actions after a routine. -/
theorem Rings.interrupt (h : s.Rings) (x : PulseInput) (level : Nat → Bool) :
    ∃ hs, s.hs.interrupt x level =
        some (hs, if s.hs.listens x then (s.hs.counted x level).actions s.slots else []) ∧
      hs.hcnt = s.hs.hcnt ∧ hs.dhs = { s.hs.dhs with
        ring := { s.hs.dhs.ring with
          slot := if s.hs.listens x then (s.hs.counted x level).advanced s.slots
            else s.hs.dhs.ring.slot } } := by
  cases hspd : s.hs.spdCount x with
  | some ic =>
    have hno : s.hs.listens x = false := by simp [HighSpeed.listens, hspd]
    refine ⟨{ s.hs with spd := update s.hs.spd ic.1 (some (ic.2 + 1)) }, ?_, rfl, ?_⟩
    · rw [HighSpeed.interrupt, hspd, if_neg (by simp [hno])]
    · rw [if_neg (by simp [hno])]
  | none =>
    obtain ⟨hs₁, hcompared, hhcnt₁, hdhs₁⟩ := h.compared hspd level
    obtain ⟨hs, hs_eq⟩ : ∃ hs', hs₁.reset x = some hs' := by
      have hfits := h.hcnt
      rw [← hhcnt₁] at hfits
      obtain ⟨busy, hwalk, -⟩ := hfits.walk (le_succ _)
      cases x with
      | x2 => exact ⟨_, by rw [HighSpeed.reset, HighSpeed.resetListed, hwalk, map_some]⟩
      | _ => exact ⟨_, rfl⟩
    obtain ⟨hdhs, hhcnt⟩ := HighSpeed.reset_keeps hs_eq
    refine ⟨hs, ?_, hhcnt.trans hhcnt₁, hdhs.trans hdhs₁⟩
    rw [HighSpeed.interrupt, hspd]
    change (s.hs.compared x level).bind _ = _
    rw [hcompared, bind_some, hs_eq, map_some]

theorem Rings.pulse (h : s.Rings) (x : PulseInput) (level : Nat → Bool) :
    (s.next (.pulse x level)).Rings := by
  obtain ⟨hs, hint, hhcnt, hdhs⟩ := h.interrupt x level
  have hnext : (s.next (.pulse x level)).hs = hs := by
    change (s.hs.interrupt x level).elim s.hs Prod.fst = hs
    rw [hint]
    rfl
  obtain ⟨busy, free, hring, hn⟩ := h.dhs
  refine ⟨?_, ?_⟩
  · rw [hnext, hdhs]
    exact ⟨busy, free, ⟨hring.busy_path, hring.free_path, hring.free_ne_nil, hring.nodup⟩, hn⟩
  · rw [hnext, hhcnt]
    exact h.hcnt

theorem Inv.action (h : s.Inv) (hx : (PulseEvent.pulse x level).Timely s) (hk : k ∈ s.slots)
    (he : (s.entry k).isArrival = true) :
    (if s.hs.listens x then (s.entry k).action (s.hs.counted x level).store else none) =
      if s.arrives x level k then (s.entry k).demanded (s.due k) else none := by
  obtain ⟨hvalue, htable⟩ := hx k hk
  obtain ⟨-, -, hword⟩ := counted_keeps s.hs x level
  unfold arrives
  cases hlistens : s.hs.listens x with
  | false =>
    rw [if_neg (by simp), if_neg]
    cases hcompare : (s.entry k).compareValue (s.due k) s.hs.store with
    | none => simp
    | some v =>
      intro harrives
      simp only [Bool.and_eq_true, bne_iff_ne, beq_iff_eq] at harrives
      have hyes := (hvalue v hcompare harrives.2).mpr harrives.1
      rw [hlistens] at hyes
      cases hyes
  | true =>
    rw [if_pos rfl, DhsEntry.action_eq he hword fun t ht =>
      DhsEntry.dAddress_eq (DhsEntry.table_area ht) (h.curRecord k t ht) (htable t ht hlistens).1.1]
    refine if_congr ?_ rfl rfl
    cases hcompare : (s.entry k).compareValue (s.due k) s.hs.store with
    | none => simp
    | some v =>
      simp only [some_inj, Bool.and_eq_true, bne_iff_ne, beq_iff_eq]
      constructor
      · intro hafter
        exact ⟨(hvalue v hcompare hafter.symm).mp hlistens, hafter.symm⟩
      · exact fun harrives => harrives.2.symm

theorem demanded_isSome {e : DhsEntry} {t : RecordTable} (ht : e.table = some t) (r : Nat) :
    (e.demanded r).isSome = true ∧ e.isArrival = true := by
  cases e with
  | dhst _ _ cur n elemType address | dhsp _ _ cur n elemType address =>
    obtain ⟨area, harea, -⟩ := map_eq_some_iff.mp ht
    simp [DhsEntry.demanded, DhsEntry.isArrival, harea]
  | dhscs | dhscr | dhsz | dhsci => cases ht

theorem dueNext_lt (h : 1 ≤ s.recordCount k) : s.dueNext k < s.recordCount k := by
  unfold dueNext
  split <;> omega

theorem Inv.pulse (h : s.Inv) (hx : (PulseEvent.pulse x level).Timely s) :
    (s.next (.pulse x level)).Inv := by
  obtain ⟨hs, hint, -, hdhs⟩ := h.rings.interrupt x level
  obtain ⟨hdhs₀, -, -⟩ := counted_keeps s.hs x level
  have hnext : (s.next (.pulse x level)).hs = hs := by
    change (s.hs.interrupt x level).elim s.hs Prod.fst = hs
    rw [hint]
    rfl
  -- A slot either keeps its entry and the record that is due, or both go on to the next.
  have hslot (k : Nat) (t : RecordTable) (ht : ((s.next (.pulse x level)).entry k).table = some t) :
      ((s.entry k).table = some t ∧ (s.next (.pulse x level)).due k = s.due k) ∨
      ∃ t', (s.entry k).table = some t' ∧
        t = { t' with curRecord := nextRecord t'.curRecord t'.recordNum } ∧
        (s.next (.pulse x level)).due k = s.dueNext k ∧
        (s.due k + 1 < s.recordCount k ↔ s.due k + 1 < s.recordCount k % 256) := by
    have hentry : (s.next (.pulse x level)).entry k =
        if s.hs.listens x then
          if k ∈ s.slots ∧ ((s.entry k).action (s.hs.counted x level).store).isSome = true then
            (s.entry k).advance
          else s.entry k
        else s.entry k := by
      rw [entry, hnext, hdhs]
      dsimp only
      split
      · rw [HighSpeed.advanced, hdhs₀]
        rfl
      · rfl
    rw [hentry] at ht
    by_cases hk : k ∈ s.slots
    · have hsame (he : (s.entry k).isArrival = true) := h.action hx hk he
      cases hlistens : s.hs.listens x with
      | false =>
        rw [hlistens] at ht hsame
        rw [if_neg (by simp)] at ht
        obtain ⟨hsome, he⟩ := demanded_isSome ht (s.due k)
        specialize hsame he
        refine .inl ⟨ht, if_neg fun harrives => ?_⟩
        rw [if_pos harrives.2] at hsame
        rw [← hsame] at hsome
        cases hsome
      | true =>
        rw [hlistens] at ht hsame
        simp only [if_true, hk, true_and] at ht hsame
        by_cases hact : ((s.entry k).action (s.hs.counted x level).store).isSome = true
        · rw [if_pos hact] at ht
          obtain ⟨t', ht', rfl⟩ := DhsEntry.table_advance ht
          have harrives : s.arrives x level k = true := by
            by_contra hno
            rw [hsame (demanded_isSome ht' 0).2, if_neg hno] at hact
            cases hact
          refine .inr ⟨t', ht', rfl, if_pos ⟨hk, harrives⟩, ?_⟩
          exact ((hx k hk).2 t' ht' hlistens).2 harrives
        · rw [if_neg hact] at ht
          refine .inl ⟨ht, if_neg fun harrives => hact ?_⟩
          obtain ⟨hsome, he⟩ := demanded_isSome ht (s.due k)
          rw [hsame he, if_pos harrives.2]
          exact hsome
    · simp only [hk, false_and, if_false, ite_self] at ht
      exact .inl ⟨ht, if_neg fun harrives => hk harrives.1⟩
  have hcount : (s.next (.pulse x level)).recordCount = s.recordCount := rfl
  obtain ⟨hfits, hfits'⟩ := h.rings.pulse x level
  refine ⟨hfits, hfits', fun k t ht => ?_, fun k t ht => ?_, fun k hk => ?_⟩
  · rcases hslot k t ht with ⟨ht', hdue⟩ | ⟨t', ht', rfl, hdue, hmore⟩
    · rw [hdue, h.curRecord k t ht']
    · rw [hdue, dueNext]
      rw [← h.curRecord k t' ht'] at hmore ⊢
      exact nextRecord_toNat (h.recordNum k t' ht') hmore
  · rw [hcount]
    rcases hslot k t ht with ⟨ht', -⟩ | ⟨t', ht', rfl, -⟩
    · exact h.recordNum k t ht'
    · exact h.recordNum k t' ht'
  · rw [hcount] at hk ⊢
    change (if _ then s.dueNext k else s.due k) < s.recordCount k
    split
    · exact dueNext_lt hk
    · exact h.due_lt k hk

theorem Inv.done (h : s.Inv) (hx : (PulseEvent.pulse x level).Timely s) (hk : k ∈ s.slots)
    (he : (s.entry k).isArrival = true) :
    ((if s.hs.listens x then (s.hs.counted x level).actions s.slots else []).filter
        (fun p => p.1 == k)).map Prod.snd =
      if s.arrives x level k then ((s.entry k).demanded (s.due k)).toList else [] := by
  obtain ⟨hdhs, -, -⟩ := counted_keeps s.hs x level
  have haction := h.action hx hk he
  have hleft : ((if s.hs.listens x then (s.hs.counted x level).actions s.slots else []).filter
      (fun p => p.1 == k)).map Prod.snd =
      (if s.hs.listens x then (s.entry k).action (s.hs.counted x level).store else none).toList := by
    split
    · rw [HighSpeed.filter_actions h.rings.running.2 hk, hdhs]
      rfl
    · rfl
  rw [hleft, haction]
  split <;> rfl

/-- A slot of a table is in the log just if its counter arrives. -/
theorem any_eq {log : List (Nat × DhsAction)} {t : RecordTable} {b : Bool}
    (ht : (s.entry k).table = some t)
    (hdone : (log.filter (fun p => p.1 == k)).map Prod.snd =
      if b then ((s.entry k).demanded (s.due k)).toList else []) :
    (log.any fun p => p.1 == k) = b := by
  obtain ⟨a, ha⟩ := isSome_iff_exists.mp (demanded_isSome ht (s.due k)).1
  rw [ha] at hdone
  cases b with
  | false =>
    rw [if_neg (by simp), map_eq_nil_iff, filter_eq_nil_iff] at hdone
    rw [List.any_eq_false]
    exact hdone
  | true =>
    rw [List.any_eq_true]
    by_contra hno
    push Not at hno
    rw [filter_eq_nil_iff.mpr hno] at hdone
    cases hdone

theorem Inv.right_pulse (h : s.Inv) (hx : (PulseEvent.pulse x level).Timely s) :
    (PulseEvent.pulse x level).Right s := by
  obtain ⟨hs, hint, -⟩ := h.rings.interrupt x level
  refine ⟨(h.pulse hx).recordsInRange, hs, _, hint, fun k hk => ⟨fun he => h.done hx hk he, ?_⟩⟩
  intro t ht hlistens
  have hdone := h.done hx hk (demanded_isSome ht 0).2
  rw [any_eq ht hdone]
  obtain ⟨⟨hfirst, hacts⟩, hmore⟩ := (hx k hk).2 t ht hlistens
  have harea := DhsEntry.table_area ht
  have hcur := h.curRecord k t ht
  rw [DhsEntry.dAddress_eq harea hcur hfirst]
  refine ⟨hfirst, fun harrives => ⟨(hacts harrives).1, ?_⟩⟩
  have hnext : (nextRecord t.curRecord t.recordNum).toNat = s.dueNext k := by
    rw [dueNext]
    have hmore := hmore harrives
    rw [← hcur] at hmore ⊢
    exact nextRecord_toNat (h.recordNum k t ht) hmore
  rw [DhsEntry.dAddress_eq harea hnext (hacts harrives).2]
  exact (hacts harrives).2

/-! ## The Other Events -/

theorem table_dhsEntry {sNum : BitVec 8} {counterNum : BitVec 16} {i : BodyInput} {kind : DhsType}
    {t : RecordTable} (h : (dhsEntry sNum counterNum i kind).table = some t) :
    t.curRecord = 0 ∧ t.recordNum = (i.wordOr 8 0).setWidth 8 := by
  cases kind with
  | dhst | dhsp =>
    obtain ⟨area, -, rfl⟩ := map_eq_some_iff.mp h
    exact ⟨rfl, rfl⟩
  | dhscs | dhscr | dhsz | dhsci => cases h

/-- A start either enters the instruction or changes nothing. -/
theorem Rings.start_cases (h : s.Rings) (sNum : BitVec 8) (counterNum : BitVec 16) (i : BodyInput)
    (kind : DhsType) :
    s.hs.dhs.Enters sNum ∧ s.hs.dhs.startDHSx sNum counterNum i kind =
        some (⟨s.hs.dhs.ring.append (dhsEntry sNum counterNum i kind), s.hs.dhs.dhsNumbers + 1⟩,
          showStart (dhsEntry sNum counterNum i kind) i.store) ∨
      ¬ s.hs.dhs.Enters sNum ∧
        s.hs.dhs.startDHSx sNum counterNum i kind = some (s.hs.dhs, i.store) := by
  unfold DhsTable.startDHSx DhsTable.Enters
  by_cases hfull : maxInstructionNum < s.hs.dhs.dhsNumbers
  · exact .inr ⟨fun henters => absurd hfull (Nat.not_lt.mpr henters.1), if_pos hfull⟩
  · rcases h.dhs.search (le_succ _) (fun e => e.serialNum == sNum) with hfind | ⟨p, k, hfind, -⟩
    · have hfind : s.hs.dhs.find sNum = some .nowhere := hfind
      refine .inl ⟨⟨Nat.not_lt.mp hfull, hfind⟩, ?_⟩
      rw [if_neg hfull, hfind]
    · have hfind : s.hs.dhs.find sNum = some (.at p k) := hfind
      refine .inr ⟨fun henters => ?_, ?_⟩
      · rw [hfind] at henters
        cases henters.2
      · rw [if_neg hfull, hfind]

theorem Inv.start (h : s.Inv) (sNum : BitVec 8) (counterNum : BitVec 16) (i : BodyInput)
    (kind : DhsType) : (s.start sNum counterNum i kind).Inv := by
  unfold PulseRun.start
  rcases h.rings.start_cases sNum counterNum { i with store := s.hs.store } kind with
    ⟨henters, hstart⟩ | ⟨hno, hstart⟩
  · dsimp only at hstart ⊢
    rw [hstart]
    rw [if_pos henters, if_pos henters]
    have hentry (k : Nat) (t : RecordTable)
        (ht : (update s.hs.dhs.ring.slot s.hs.dhs.ring.tail
          (dhsEntry sNum counterNum { i with store := s.hs.store } kind) k).table = some t) :
        k = s.hs.dhs.ring.tail ∧
          (dhsEntry sNum counterNum { i with store := s.hs.store } kind).table = some t ∨
        k ≠ s.hs.dhs.ring.tail ∧ (s.entry k).table = some t := by
      by_cases hk : k = s.hs.dhs.ring.tail
      · rw [hk, update_self] at ht
        exact .inl ⟨hk, ht⟩
      · rw [update_of_ne hk] at ht
        exact .inr ⟨hk, ht⟩
    refine ⟨h.dhs.append, h.hcnt, fun k t ht => ?_, fun k t ht => ?_, fun k hk => ?_⟩
    · dsimp only
      rcases hentry k t ht with ⟨rfl, ht'⟩ | ⟨hk, ht'⟩
      · rw [update_self, (table_dhsEntry ht').1]
        rfl
      · rw [update_of_ne hk]
        exact h.curRecord k t ht'
    · dsimp only
      rcases hentry k t ht with ⟨rfl, ht'⟩ | ⟨hk, ht'⟩
      · rw [update_self, (table_dhsEntry ht').2, toNat_setWidth]
      · rw [update_of_ne hk]
        exact h.recordNum k t ht'
    · dsimp only at hk ⊢
      by_cases hkt : k = s.hs.dhs.ring.tail
      · rw [hkt, update_self] at hk ⊢
        rw [update_self]
        exact hk
      · rw [update_of_ne hkt] at hk ⊢
        rw [update_of_ne hkt]
        exact h.due_lt k hk
  · dsimp only at hstart ⊢
    rw [hstart]
    rw [if_neg hno, if_neg hno]
    exact h

theorem Inv.stop (h : s.Inv) (sNum : BitVec 8) : (s.next (.stop sNum)).Inv := by
  rcases h.dhs.search (le_succ _) (fun e => e.serialNum == sNum) with
    hfind | ⟨p, k, hfind, hfits, hslot⟩
  · have hfind : s.hs.dhs.find sNum = some .nowhere := hfind
    have hnext : s.next (.stop sNum) = s := by
      rw [PulseRun.next, DhsTable.stopDHSx, hfind]
      rfl
    rw [hnext]
    exact h
  · have hfind : s.hs.dhs.find sNum = some (.at p k) := hfind
    have hnext : s.next (.stop sNum) = { s with
        hs := { s.hs with dhs := ⟨s.hs.dhs.ring.remove p k, s.hs.dhs.dhsNumbers - 1⟩ } } := by
      rw [PulseRun.next, DhsTable.stopDHSx, hfind]
      rfl
    have hentry (j : Nat) : (s.next (.stop sNum)).entry j = s.entry j := by
      rw [hnext, entry, entry, hslot]
    have hcount : (s.next (.stop sNum)).recordCount = s.recordCount := by rw [hnext]
    refine ⟨?_, ?_, fun j t ht => ?_, fun j t ht => ?_, fun j hj => ?_⟩
    · rw [hnext]
      exact hfits
    · rw [hnext]
      exact h.hcnt
    · rw [hentry] at ht
      exact h.curRecord j t ht
    · rw [hentry] at ht
      exact h.recordNum j t ht
    · rw [hcount] at hj ⊢
      exact h.due_lt j hj

/-- The slots of the counters stay a ring. -/
theorem fits_hcnt {h : HcntState} (hfits : h.ring.Fits hcntMaxNumber) (x : HcntCall) :
    (h.next x).ring.Fits hcntMaxNumber := by
  have hadd (c : Nat) (b : Bool) (v : BitVec 32) (s' : HcntState)
      (hs' : (h.setStarted c b).addCounter c v = some s') : s'.ring.Fits hcntMaxNumber := by
    have hring : ((h.setStarted c b).enter c v).ring = h.ring := by
      rw [HcntState.enter]
      split <;> rfl
    unfold HcntState.addCounter at hs'
    dsimp only at hs'
    split at hs'
    · obtain rfl := some.inj hs'
      rw [hring]
      exact hfits
    · split at hs'
      · cases hs'
      · obtain rfl := some.inj hs'
        rw [hring]
        exact hfits
      · obtain rfl := some.inj hs'
        rw [hring]
        exact hfits.append
  have hdel (c : Nat) (b : Bool) (s' : HcntState)
      (hs' : (h.setStarted c b).delCounter c = some s') : s'.ring.Fits hcntMaxNumber := by
    have hring : ((h.setStarted c b).leave c).ring = h.ring := by
      rw [HcntState.leave]
      split <;> rfl
    unfold HcntState.delCounter at hs'
    dsimp only at hs'
    rcases hfits.search (le_succ _) (fun e => e.counterNum == c) with
      hfind | ⟨p, k, hfind, hremove, -⟩
    · have hfind : ((h.setStarted c b).leave c).find c = some .nowhere := by
        rw [HcntState.find, hring]
        exact hfind
      rw [hfind] at hs'
      obtain rfl := some.inj hs'
      rw [hring]
      exact hfits
    · have hfind : ((h.setStarted c b).leave c).find c = some (.at p k) := by
        rw [HcntState.find, hring]
        exact hfind
      rw [hfind] at hs'
      obtain rfl := some.inj hs'
      rw [hring]
      exact hremove
  unfold HcntState.next
  rcases runCiHcntIns_cases x h with ⟨ret, hrun, -⟩ | ⟨-, hrun⟩ | ⟨-, hrun⟩
  · rw [hrun]
    exact hfits
  · rw [hrun]
    cases hs' : (h.setStarted _ true).addCounter _ x.cmpValue with
    | none => exact hfits
    | some s' => exact hadd _ _ _ s' hs'
  · rw [hrun]
    cases hs' : (h.setStarted _ false).delCounter _ with
    | none => exact hfits
    | some s' => exact hdel _ _ s' hs'

/-- No event breaks the rings. -/
theorem Rings.next (h : s.Rings) (e : PulseEvent) : (s.next e).Rings := by
  cases e with
  | pulse x level => exact h.pulse x level
  | start sNum counterNum i kind =>
    change (s.start sNum counterNum i kind).Rings
    unfold PulseRun.start
    rcases h.start_cases sNum counterNum { i with store := s.hs.store } kind with
      ⟨-, hstart⟩ | ⟨-, hstart⟩
    · dsimp only at hstart ⊢
      rw [hstart]
      exact ⟨h.dhs.append, h.hcnt⟩
    · dsimp only at hstart ⊢
      rw [hstart]
      exact ⟨h.dhs, h.hcnt⟩
  | stop sNum =>
    refine ⟨?_, h.hcnt⟩
    change ((s.hs.dhs.stopDHSx sNum).getD s.hs.dhs).ring.Fits _
    rcases h.dhs.search (le_succ _) (fun e => e.serialNum == sNum) with
      hfind | ⟨p, k, hfind, hfits, -⟩
    · have hfind : s.hs.dhs.find sNum = some .nowhere := hfind
      rw [DhsTable.stopDHSx, hfind]
      exact h.dhs
    · have hfind : s.hs.dhs.find sNum = some (.at p k) := hfind
      rw [DhsTable.stopDHSx, hfind]
      exact hfits
  | hcnt x => exact ⟨h.dhs, fits_hcnt h.hcnt _⟩
  | spd i count => exact ⟨h.dhs, h.hcnt⟩
  | other store interrupts => exact ⟨h.dhs, h.hcnt⟩

theorem Inv.next (h : s.Inv) {e : PulseEvent} (he : e.Timely s) : e.Right s ∧ (s.next e).Inv := by
  cases e with
  | pulse x level => exact ⟨h.right_pulse he, h.pulse he⟩
  | start sNum counterNum i kind =>
    exact ⟨⟨(h.start sNum counterNum i kind).recordsInRange, he⟩, h.start sNum counterNum i kind⟩
  | stop sNum => exact ⟨⟨(h.stop sNum).recordsInRange, trivial⟩, h.stop sNum⟩
  | hcnt x =>
    have hinv : (s.next (.hcnt x)).Inv :=
      ⟨h.dhs, fits_hcnt h.hcnt _, h.curRecord, h.recordNum, h.due_lt⟩
    exact ⟨⟨hinv.recordsInRange, trivial⟩, hinv⟩
  | spd i count =>
    have hinv : (s.next (.spd i count)).Inv :=
      ⟨h.dhs, h.hcnt, h.curRecord, h.recordNum, h.due_lt⟩
    exact ⟨⟨hinv.recordsInRange, trivial⟩, hinv⟩
  | other store interrupts =>
    have hinv : (s.next (.other store interrupts)).Inv :=
      ⟨h.dhs, h.hcnt, h.curRecord, h.recordNum, h.due_lt⟩
    exact ⟨⟨hinv.recordsInRange, trivial⟩, hinv⟩

end PulseRun

/-- In a run from `init_high_speed` on whose events are timely, the compare instructions do at each
pulse what they are to do. -/
theorem pulses_right (store : Store) (interrupts : InterruptInfo) (xs : List PulseEvent)
    (h : Each PulseRun.next (fun s e => e.Timely s) (.init store interrupts) xs) :
    Each PulseRun.next (fun s e => e.Right s) (.init store interrupts) xs :=
  Each.of_invariant (PulseRun.Inv.init store interrupts) h fun _ _ hinv he => hinv.next he

/-- All counters are at 9. -/
def ninesStore : Store := { Store.off with c32 := fun _ => 9 }

/-- No interrupt is noted, and none is enabled. -/
def noInterrupts : InterruptInfo := .start fun _ => ⟨intPriLow, 0x01, 0⟩

def pulseLow (x : PulseInput) : PulseEvent := .pulse x fun _ => false

/-- `HCNT` starts `C236`, `DHSCS` under serial number 0 is to set `Y0` when it comes to 10, and
there is a pulse at `X0`. -/
def dhscsRun : List PulseEvent :=
  [.hcnt (hcntCall 0 true),
    .start 0 236
      ⟨[0xE0, 0xF0, 0x02, 0xFF, 0x0A, 0x00, 0x00, 0x00, 0x00, 0x14, 0xEC, 0x00, 0x00, 0x00, 0x00, 0x01,
        0x00, 0x00, 0x00], 0, 0, 0, 1, ⟨false, 0, fun _ => 0⟩, .off⟩ .dhscs,
    pulseLow .x0]

/-- `Y0` is set when `C236` comes to 10. -/
theorem pulses_right_dhscs :
    Each PulseRun.next (fun s e => e.Right s) (.init ninesStore noInterrupts) dhscsRun := by
  refine pulses_right ninesStore noInterrupts dhscsRun ?_
  refine Each.cons_iff.mpr ⟨trivial, Each.cons_iff.mpr ⟨fun _ t ht => ?_, ?_⟩⟩
  · cases ht
  · refine Each.cons_iff.mpr ⟨fun k hk => ?_, Each.nil⟩
    have hslots : ((dhscsRun.take 2).foldl PulseRun.next (.init ninesStore noInterrupts)).slots =
        [0] := by decide
    obtain rfl := mem_singleton.mp (hslots ▸ hk)
    refine ⟨fun v hv hafter => iff_of_true (by decide) ?_, fun t ht => by cases ht⟩
    obtain rfl := some.inj hv
    decide

/-- A pulse at `X1` changes no counter, and `Y0` is set a second time. -/
theorem dhscs_acts_twice : ¬ ∀ (store : Store) (interrupts : InterruptInfo) (xs : List PulseEvent),
    Each PulseRun.next (fun s e => e.Right s) (.init store interrupts) xs := by
  intro h
  have hright := h ninesStore noInterrupts (dhscsRun ++ [pulseLow .x1]) dhscsRun (pulseLow .x1) [] rfl
  obtain ⟨-, hs, log, hint, hslots⟩ := hright
  have hlog : ((dhscsRun.foldl PulseRun.next (.init ninesStore noInterrupts)).hs.interrupt .x1
      fun _ => false).map Prod.snd = some [(0, .set 1 0 true)] := by decide
  rw [hint] at hlog
  obtain rfl : log = [(0, .set 1 0 true)] := some.inj hlog
  have hdone := (hslots 0 (by decide)).1 (by decide)
  revert hdone
  decide

end Kalyke
