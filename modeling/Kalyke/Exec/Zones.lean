-- SUMMARY: `ZRST` and `ZSET`: which elements of a class they clear and set.
import Kalyke.Exec.Stored
import Kalyke.Exec.CounterIns
import Kalyke.Lib.PlaceChanges

/-!
# Zones

`ZRST` clears and `ZSET` sets some elements of a class that follow one another. The class is found
by the type of the operand, and whether an index register is added by comparing the type with that
of indexed `X` elements. The types of indexed counters and timers are below it: the register is not
added there. The limit is checked from element to element, and lets one element too many pass. A
counter that is cleared keeps its status.
-/

namespace Kalyke

open List BitVec Function Option

/-! ## Classes -/

/-- The classes that the instructions work on. -/
inductive ZoneClass where
  | x | y | c | t | m | s | lm
deriving DecidableEq, Repr

/-- The switch over the operand types. -/
def zoneClass : AddrType → Option ZoneClass
  | .x | .xz => some .x
  | .y | .yz => some .y
  | .c | .cz => some .c
  | .t | .tz => some .t
  | .m | .mz => some .m
  | .s | .sz => some .s
  | .lm | .lmz => some .lm
  | _ => none

/-- The operand types that have an index register. -/
def zoneIndexed : AddrType → Bool
  | .xz | .yz | .cz | .tz | .mz | .sz | .lmz => true
  | _ => false

namespace ZoneClass

/-- Where the bits of a class lie. -/
def area (level : Nat) : ZoneClass → BitArea
  | x => .elem .X
  | y => .elem .Y
  | c => .elem .C
  | t => .elem .T
  | m => .elem .M
  | s => .elem .S
  | lm => .lm level

/-- The number of elements of a class. -/
def rang (cls : ZoneClass) : Nat := (cls.area 0).rang

end ZoneClass

/-! ## The instructions -/

/-- `plc_c_element_status_st`. -/
structure CounterStatus where
  powerFlow : Bool
  started : Bool
deriving DecidableEq, Repr

/-- `ZRST` and `ZSET`. -/
inductive ZoneIns where
  | zrst | zset
deriving DecidableEq, Repr

/-- What is done to the element with the number `k`. -/
def ZoneIns.act (op : ZoneIns) (cls : ZoneClass) (i : BodyInput) (k : Nat) (s : Store) : Store :=
  match op, cls with
  | zrst, .c => plcResetOneCounter k s
  | zrst, .t => s.plcResetOneTimer i.now k
  | zrst, cls => s.setBit (cls.area i.level) k false
  | zset, cls => s.setBit (cls.area i.level) k true

/-- The number of elements and their class. -/
def zoneOperands (i : BodyInput) : Except PlcErr (Nat × ZoneClass) := do
  let n ← i.word 6 0 i.store
  if n.toInt < 0 then .error .operands
  else match (AddrType.ofCode (i.ucode.getPU8 (i.pc + 3))).bind zoneClass with
    | some cls => return (n.toNat, cls)
    | none => .error .operands

/-- The first element. -/
def zoneStart (i : BodyInput) : Nat :=
  elementIndex (operandStart i.ucode (i.pc + 2) i.store
    (AddrType.xz.code ≤ i.ucode.getPU8 (i.pc + 3)))

def zoneLoop (rang : Nat) (act : Nat → Store → Store) :
    Nat → Nat → Store → Except PlcErr Unit × Store
  | 0, _, s => (.ok (), s)
  | n + 1, k, s =>
    if rang < k then (.error .overElementRang, s) else zoneLoop rang act n (k + 1) (act k s)

/-- What the two instructions have in common. -/
def runZone (op : ZoneIns) (i : BodyInput) : BodyResult :=
  runChecked i (zoneOperands i) fun (n, cls) s =>
    zoneLoop cls.rang (op.act cls i) n (zoneStart i) s

def runCiZrstIns (i : BodyInput) (status : Nat → CounterStatus) :
    BodyResult × (Nat → CounterStatus) :=
  (runZone .zrst i, status)

def runCiZsetIns (i : BodyInput) (status : Nat → CounterStatus) :
    BodyResult × (Nat → CounterStatus) :=
  (runZone .zset i, status)

namespace ZoneIns

def run : ZoneIns → BodyInput → (Nat → CounterStatus) → BodyResult × (Nat → CounterStatus)
  | zrst => runCiZrstIns
  | zset => runCiZsetIns

end ZoneIns

/-! ## Elements -/

/-- What belongs to an element: its bit, the value of a counter or timer, and the status of a
timer. -/
@[ext]
structure ZoneElement where
  bit : Bool
  value : Option (BitVec 32)
  status : Option Timer
deriving DecidableEq, Repr

namespace ZoneClass

def value (cls : ZoneClass) (k : Nat) (s : Store) : Option (BitVec 32) :=
  match cls with
  | c => some (if k < WordElement.rang .C then (s.word .C k).setWidth 32 else s.c32 k)
  | t => some ((s.word .T k).setWidth 32)
  | _ => none

def status (cls : ZoneClass) (k : Nat) (s : Store) : Option Timer :=
  match cls with
  | t => some (s.timer k)
  | _ => none

def element (cls : ZoneClass) (level k : Nat) (s : Store) : ZoneElement :=
  ⟨s.getBit (cls.area level) k, cls.value k s, cls.status k s⟩

def besideBits (s : Store) : BitArea → Store
  | .elem e => { s with bit := update s.bit e fun _ => false }
  | .lm layer => { s with lm := fun k => if lmRang * layer ≤ k then false else s.lm k }

def beside (cls : ZoneClass) (level : Nat) (s : Store) : Store :=
  match cls with
  | c =>
    { besideBits s (.elem .C) with
      word := update s.word .C fun k =>
        if k < WordElement.rang .C then 0 else s.word .C k
      c32 := fun k => if k < WordElement.rang .C then s.c32 k else 0 }
  | t =>
    { besideBits s (.elem .T) with
      word := update s.word .T fun _ => 0
      timer := fun _ => resetTimer 0 }
  | cls => besideBits s (cls.area level)

end ZoneClass

/-- What an element is to be afterwards. -/
def ZoneIns.change (op : ZoneIns) (now : BitVec 32) (x : ZoneElement) : ZoneElement :=
  match op with
  | zrst => ⟨false, x.value.map fun _ => 0, x.status.map fun _ => resetTimer now⟩
  | zset => { x with bit := true }

/-! ## Laws -/

/-- An instruction with power flow on an operand of type `a`, of the class `cls`, with the count
`count`. -/
structure ZoneOf (a : AddrType) (cls : ZoneClass) (count : BitVec 16) (i : BodyInput) : Prop where
  power : getPowerFlow i.inPF = true
  type : AddrType.ofCode (i.ucode.getPU8 (i.pc + 3)) = some a
  cls : zoneClass a = some cls
  count : i.word 6 0 i.store = .ok count

section

variable (op : ZoneIns) (a : AddrType) (cls : ZoneClass) (count : BitVec 16) (i : BodyInput)
variable (status : Nat → CounterStatus)

/-- The effective address: the element number with the index register of the `Z` forms. -/
def zoneBase : Nat :=
  elementIndex (operandStart i.ucode (i.pc + 2) i.store (zoneIndexed a))

/-- The elements from a number on. -/
def zoneFrom (k : Nat) : List Nat := range' k count.toNat

/-- The elements are elements of the class. -/
def ZoneFits : Prop := ∀ k ∈ zoneFrom count (zoneBase a i), k < cls.rang

instance decidableZoneFits : Decidable (ZoneFits a cls count i) :=
  inferInstanceAs (Decidable (∀ k ∈ _, _))

/-- The elements are changed, and the status of the counters is cleared by `ZRST`. All else is as it
was. -/
structure ChangesZone (r : BodyResult × (Nat → CounterStatus)) : Prop where
  passes : r.1.1 = .ok ()
  elements : ∀ k, cls.element i.level k r.1.2.2 =
    if k ∈ zoneFrom count (zoneBase a i) then op.change i.now (cls.element i.level k i.store)
    else cls.element i.level k i.store
  beside : cls.beside i.level r.1.2.2 = cls.beside i.level i.store
  status : ∀ k, r.2 k =
    if op = .zrst ∧ cls = .c ∧ k ∈ zoneFrom count (zoneBase a i) then ⟨false, false⟩ else status k

/-- An error, and nothing has changed. -/
structure RefusesZone (r : BodyResult × (Nat → CounterStatus)) : Prop where
  fails : r.1.1 ≠ .ok ()
  store : r.1.2.2 = i.store
  status : r.2 = status

/-- Exactly the elements of the zone are changed, and those that do not fit are refused. -/
def RightZone (r : BodyResult × (Nat → CounterStatus)) : Prop :=
  if ZoneFits a cls count i then ChangesZone op a cls count i status r
  else RefusesZone i status r

def AlreadyChanged (k : Nat) : Prop :=
  op.change i.now (cls.element i.level k i.store) = cls.element i.level k i.store

/-- The zone that the instruction works on is not too long by more than one element. Where it is not
the zone of the operand, the elements in one of them only are as they are to be already, and so is
the status of the counters in it. Zones that do not fit are refused after nothing has changed, or
because of the count. -/
def ZoneSafe : Prop :=
  if ZoneFits a cls count i then
    (∀ k ∈ zoneFrom count (zoneStart i), k ≤ cls.rang) ∧
    (∀ k, (k ∈ zoneFrom count (zoneBase a i) ↔ k ∈ zoneFrom count (zoneStart i)) ∨
      AlreadyChanged op cls i k) ∧
    (op = .zrst → cls = .c → ∀ k ∈ zoneFrom count (zoneBase a i), status k = ⟨false, false⟩)
  else
    32768 ≤ count.toNat ∨ (∃ k ∈ zoneFrom count (zoneStart i), cls.rang < k) ∧
      ∀ k, zoneStart i ≤ k → k ≤ cls.rang → AlreadyChanged op cls i k

end

/-! ## Single elements -/

section

variable {op : ZoneIns} {a : AddrType} {cls : ZoneClass} {count : BitVec 16} {i : BodyInput}
variable {level j k n rang : Nat} {s t : Store} {b : Bool} {act : Nat → Store → Store}

theorem ZoneIns.change_idem (now : BitVec 32) (x : ZoneElement) :
    op.change now (op.change now x) = op.change now x := by
  cases op with
  | zrst =>
    obtain ⟨bit, value, status⟩ := x
    cases value <;> cases status <;> rfl
  | zset => rfl

theorem besideBits_setBit (area : BitArea) :
    ZoneClass.besideBits (s.setBit area k b) area = ZoneClass.besideBits s area := by
  cases area with
  | elem e =>
    simp only [ZoneClass.besideBits, Store.setBit, update_idem]
  | lm layer =>
    have hlm (m : Nat) : (if lmRang * layer ≤ m then false else
        update s.lm (lmRang * layer + k) b m) =
        if lmRang * layer ≤ m then false else s.lm m := by
      split
      · rfl
      · rename_i hlow
        exact update_of_ne (by omega) ..
    simp only [ZoneClass.besideBits, Store.setBit, hlm]

theorem bit_of_besideBits {area : BitArea}
    (hbits : ∀ k, t.getBit area k = s.getBit area k)
    (hbit : (ZoneClass.besideBits t area).bit = (ZoneClass.besideBits s area).bit) :
    t.bit = s.bit := by
  cases area with
  | lm layer => exact hbit
  | elem e =>
    funext e' k
    by_cases he : e' = e
    · rw [he]
      exact hbits k
    · have hk := congrFun (congrFun hbit e') k
      simpa only [ZoneClass.besideBits, update_of_ne he] using hk

theorem lm_of_besideBits {area : BitArea}
    (hbits : ∀ k, t.getBit area k = s.getBit area k)
    (hlm : (ZoneClass.besideBits t area).lm = (ZoneClass.besideBits s area).lm) :
    t.lm = s.lm := by
  cases area with
  | elem e => exact hlm
  | lm layer =>
    funext m
    by_cases hm : lmRang * layer ≤ m
    · have hk := hbits (m - lmRang * layer)
      simpa only [Store.getBit, Nat.add_sub_cancel' hm] using hk
    · have hk := congrFun hlm m
      simpa only [ZoneClass.besideBits, if_neg hm] using hk

theorem value_setBit (area : BitArea) : cls.value j (s.setBit area k b) = cls.value j s := by
  cases area <;> rfl

theorem status_setBit (area : BitArea) : cls.status j (s.setBit area k b) = cls.status j s := by
  cases area <;> rfl

theorem beside_setBit :
    cls.beside level (s.setBit (cls.area level) k b) = cls.beside level s := by
  have hbits := besideBits_setBit (s := s) (k := k) (b := b) (cls.area level)
  cases cls with
  | c =>
    have hbit := congrArg Store.bit hbits
    simpa only [ZoneClass.beside, ZoneClass.besideBits, Store.setBit, ZoneClass.area,
      Store.mk.injEq, and_true] using hbit
  | t =>
    have hbit := congrArg Store.bit hbits
    simpa only [ZoneClass.beside, ZoneClass.besideBits, Store.setBit, ZoneClass.area,
      Store.mk.injEq, and_true] using hbit
  | x | y | m | s | lm => exact hbits

theorem beside_bits :
    (cls.beside level s).bit = (ZoneClass.besideBits s (cls.area level)).bit ∧
      (cls.beside level s).lm = (ZoneClass.besideBits s (cls.area level)).lm := by
  cases cls <;> exact ⟨rfl, rfl⟩

theorem values_of_elements (hvalue : ∀ k, cls.value k t = cls.value k s)
    (hstatus : ∀ k, cls.status k t = cls.status k s)
    (hbeside : cls.beside level t = cls.beside level s) :
    t.word = s.word ∧ t.c32 = s.c32 ∧ t.timer = s.timer := by
  have hword := congrArg Store.word hbeside
  have hc32 := congrArg Store.c32 hbeside
  have htimer := congrArg Store.timer hbeside
  cases cls with
  | x | y | m | s | lm => exact ⟨hword, hc32, htimer⟩
  | c =>
    have hcounter (k : Nat) := some.inj (hvalue k)
    refine ⟨?_, ?_, htimer⟩
    · funext e k
      have hk := congrFun (congrFun hword e) k
      by_cases he : e = .C
      · subst he
        by_cases hlow : k < WordElement.rang .C
        · have hlowValue := hcounter k
          rw [if_pos hlow, if_pos hlow] at hlowValue
          exact setWidth_inj hlowValue
        · simpa only [ZoneClass.beside, update_self, if_neg hlow] using hk
      · simpa only [ZoneClass.beside, update_of_ne he] using hk
    · funext k
      by_cases hlow : k < WordElement.rang .C
      · have hk := congrFun hc32 k
        simpa only [ZoneClass.beside, if_pos hlow] using hk
      · have hhighValue := hcounter k
        rwa [if_neg hlow, if_neg hlow] at hhighValue
  | t =>
    refine ⟨?_, hc32, funext fun k => some.inj (hstatus k)⟩
    funext e k
    by_cases he : e = .T
    · subst he
      exact setWidth_inj (some.inj (hvalue k))
    · have hk := congrFun (congrFun hword e) k
      simpa only [ZoneClass.beside, update_of_ne he] using hk

/-- The elements of a class and what is beside them are all there is. -/
theorem eq_of_elements (helements : ∀ k, cls.element level k t = cls.element level k s)
    (hbeside : cls.beside level t = cls.beside level s) : t = s := by
  have hbits (k : Nat) : t.getBit (cls.area level) k = s.getBit (cls.area level) k :=
    congrArg ZoneElement.bit (helements k)
  have hbit : t.bit = s.bit := by
    refine bit_of_besideBits hbits ?_
    rw [← beside_bits.1, ← beside_bits.1, hbeside]
  have hlm : t.lm = s.lm := by
    refine lm_of_besideBits hbits ?_
    rw [← beside_bits.2, ← beside_bits.2, hbeside]
  obtain ⟨hword, hc32, htimer⟩ := values_of_elements
    (fun k => congrArg ZoneElement.value (helements k))
    (fun k => congrArg ZoneElement.status (helements k)) hbeside
  have hothers : { t with bit := s.bit, lm := s.lm, word := s.word, c32 := s.c32,
                          timer := s.timer } = s := by
    have hput := congrArg (fun r : Store => { r with bit := s.bit, lm := s.lm, word := s.word,
                                                     c32 := s.c32, timer := s.timer }) hbeside
    cases cls <;> exact hput
  rw [← hothers, ← hbit, ← hlm, ← hword, ← hc32, ← htimer]

/-! ## What is done to an element -/

theorem setBit_changes (cls : ZoneClass) (level : Nat) (b : Bool) :
    ChangesPlaces (cls.element level) (cls.beside level) (fun x => { x with bit := b })
      fun k s => s.setBit (cls.area level) k b where
  idem := fun _ => rfl
  self := fun _ _ => ZoneElement.ext (getBit_setBit_self ..) (value_setBit _) (status_setBit _)
  other := fun _ _ _ h =>
    ZoneElement.ext (getBit_setBit_of_ne h b) (value_setBit _) (status_setBit _)
  keeps := fun _ _ => beside_setBit
  ext := fun _ _ => eq_of_elements

theorem value_resetCounter : ZoneClass.c.value j (plcResetOneCounter k s) =
    if j = k then some 0 else ZoneClass.c.value j s := by
  unfold plcResetOneCounter
  rw [value_setBit]
  by_cases hlow : k < WordElement.rang .C
  · rw [if_pos hlow]
    split
    · rename_i hj
      rw [hj, ZoneClass.value, if_pos hlow]
      exact congrArg (fun x => some (setWidth 32 x)) (getWord_setWord_self (.elem .C) k 0)
    · rename_i hj
      have hword : (s.setWord (.elem .C) k 0).getWord (.elem .C) j = s.getWord (.elem .C) j :=
        getWord_setWord_of_ne hj 0
      change (s.setWord (.elem .C) k 0).word .C j = s.word .C j at hword
      rw [ZoneClass.value, hword]
      rfl
  · rw [if_neg hlow]
    split
    · rename_i hj
      rw [hj, ZoneClass.value, if_neg hlow, c32_setC32_self]
    · rename_i hj
      rw [ZoneClass.value, c32_setC32_of_ne hj]
      rfl

theorem beside_resetCounter :
    ZoneClass.c.beside level (plcResetOneCounter k s) = ZoneClass.c.beside level s := by
  refine beside_setBit.trans ?_
  by_cases hlow : k < WordElement.rang .C
  · have hword (j : Nat) : (if j < WordElement.rang .C then 0 else
        update (s.word .C) k 0 j) =
        if j < WordElement.rang .C then 0 else s.word .C j := by
      split
      · rfl
      · rename_i hhigh
        refine update_of_ne (fun hj => hhigh ?_) ..
        rwa [hj]
    simp only [if_pos hlow, ZoneClass.beside, ZoneClass.besideBits, Store.setWord,
      update_self, update_idem, hword]
  · have hc32 (j : Nat) : (if j < WordElement.rang .C then update s.c32 k 0 j else 0) =
        if j < WordElement.rang .C then s.c32 j else 0 := by
      split
      · rename_i hj
        refine update_of_ne (fun heq => hlow ?_) ..
        rwa [← heq]
      · rfl
    simp only [if_neg hlow, ZoneClass.beside, ZoneClass.besideBits, Store.setC32, hc32]

theorem resetCounter_changes (level : Nat) (now : BitVec 32) :
    ChangesPlaces (ZoneClass.c.element level) (ZoneClass.c.beside level) (ZoneIns.zrst.change now)
      plcResetOneCounter where
  idem := ZoneIns.change_idem now
  self := fun k s => by
    have hbit : (plcResetOneCounter k s).getBit (.elem .C) k = false := getBit_setBit_self ..
    have hvalue := value_resetCounter (j := k) (k := k) (s := s)
    rw [if_pos rfl] at hvalue
    exact ZoneElement.ext hbit hvalue rfl
  other := fun j k s h => by
    have hbit : (plcResetOneCounter k s).getBit (.elem .C) j = s.getBit (.elem .C) j := by
      refine (getBit_setBit_of_ne h false).trans ?_
      split <;> rfl
    have hvalue := value_resetCounter (j := j) (k := k) (s := s)
    rw [if_neg h] at hvalue
    exact ZoneElement.ext hbit hvalue rfl
  keeps := fun _ _ => beside_resetCounter
  ext := fun _ _ => eq_of_elements

theorem resetTimer_changes (level : Nat) (now : BitVec 32) :
    ChangesPlaces (ZoneClass.t.element level) (ZoneClass.t.beside level) (ZoneIns.zrst.change now)
      fun k s => s.plcResetOneTimer now k where
  idem := ZoneIns.change_idem now
  self := fun k s => by
    have hbit : (s.plcResetOneTimer now k).getBit (.elem .T) k = false :=
      getBit_setBit_self (.elem .T) k false
    have hword : (s.plcResetOneTimer now k).getWord (.elem .T) k = 0 :=
      getWord_setWord_self (.elem .T) k 0
    exact ZoneElement.ext hbit (congrArg (fun x => some (setWidth 32 x)) hword)
      (congrArg some (update_self ..))
  other := fun j k s h => by
    have hset : (s.setBit (.elem .T) k false).getBit (.elem .T) j = s.getBit (.elem .T) j :=
      getBit_setBit_of_ne h false
    have hbit : (s.plcResetOneTimer now k).getBit (.elem .T) j = s.getBit (.elem .T) j := hset
    have hzero : ((s.setBit (.elem .T) k false).setWord (.elem .T) k 0).getWord (.elem .T) j =
        (s.setBit (.elem .T) k false).getWord (.elem .T) j := getWord_setWord_of_ne h 0
    have hword : (s.plcResetOneTimer now k).getWord (.elem .T) j = s.getWord (.elem .T) j := hzero
    exact ZoneElement.ext hbit (congrArg (fun x => some (setWidth 32 x)) hword)
      (congrArg some (update_of_ne h ..))
  keeps := fun k s => by
    simp only [ZoneClass.beside, ZoneClass.besideBits, Store.plcResetOneTimer, Store.setBit,
      Store.setWord, update_idem]
  ext := fun _ _ => eq_of_elements

/-- What an instruction does to an element. -/
theorem ZoneIns.act_changes (op : ZoneIns) (cls : ZoneClass) (i : BodyInput) :
    ChangesPlaces (cls.element i.level) (cls.beside i.level) (op.change i.now) (op.act cls i) := by
  have hset := setBit_changes cls i.level
  cases op with
  | zset =>
    exact hset true
  | zrst =>
    cases cls with
    | c => exact resetCounter_changes i.level i.now
    | t => exact resetTimer_changes i.level i.now
    | x | y | m | s | lm =>
      exact (hset false).congr (ZoneIns.change_idem i.now) fun _ _ => rfl

/-! ## Zones -/

theorem zoneLoop_pass (h : ∀ m ∈ range' k n, m ≤ rang) :
    zoneLoop rang act n k s = (.ok (), ChangesPlaces.all act (range' k n) s) := by
  induction n generalizing k s with
  | zero => rfl
  | succ n ih =>
    have hk := h k mem_cons_self
    rw [zoneLoop, if_neg (Nat.not_lt.mpr hk), ih fun m hm => h m (mem_cons_of_mem k hm)]
    rfl

theorem zoneLoop_fail (h : ∃ m ∈ range' k n, rang < m) :
    zoneLoop rang act n k s =
      (.error .overElementRang, ChangesPlaces.all act (range' k (rang + 1 - k)) s) := by
  induction n generalizing k s with
  | zero =>
    obtain ⟨m, hm, -⟩ := h
    exact absurd hm (not_mem_nil)
  | succ n ih =>
    rw [zoneLoop]
    by_cases hk : rang < k
    · have hnone : rang + 1 - k = 0 := by omega
      rw [if_pos hk, hnone]
      rfl
    · obtain ⟨m, hm, hlt⟩ := h
      have hsucc : rang + 1 - k = (rang + 1 - (k + 1)) + 1 := by omega
      have hrest : ∃ m ∈ range' (k + 1) n, rang < m := by
        rcases mem_cons.mp hm with rfl | hm
        · exact absurd hlt hk
        · exact ⟨m, hm, hlt⟩
      rw [if_neg hk, ih hrest, hsucc]
      rfl

section

variable (h : ZoneOf a cls count i)

include h

theorem zoneOperands_eq : zoneOperands i =
    if count.toInt < 0 then .error .operands else .ok (count.toNat, cls) := by
  have hclass : (AddrType.ofCode (i.ucode.getPU8 (i.pc + 3))).bind zoneClass = some cls := by
    rw [h.type]
    exact h.cls
  simp only [zoneOperands, h.count, hclass]
  rfl

/-- A count with the sign bit is refused. -/
theorem runZone_negative (hneg : 32768 ≤ count.toNat) :
    runZone op i = (.error .operands, i.inPF, i.store) := by
  have hlt : count.toInt < 0 := by
    rw [toInt_eq_toNat_cond]
    omega
  simp only [runZone, runChecked, h.power, if_true, zoneOperands_eq h, if_pos hlt]

theorem runZone_eq (op : ZoneIns) (hpos : count.toNat < 32768) :
    runZone op i =
      ((zoneLoop cls.rang (op.act cls i) count.toNat (zoneStart i) i.store).1, i.inPF,
        (zoneLoop cls.rang (op.act cls i) count.toNat (zoneStart i) i.store).2) := by
  have hnonneg : ¬ count.toInt < 0 := by
    rw [toInt_eq_toNat_cond]
    omega
  have hoperands := zoneOperands_eq h
  rw [if_neg hnonneg] at hoperands
  rw [runZone, runChecked_eq h.power hoperands]

end

/-- No class has so many elements. -/
theorem ZoneFits.lt (h : ZoneFits a cls count i) : count.toNat < 32768 := by
  by_contra hge
  have hlast := h (zoneBase a i + 32767) (mem_range'_1.mpr ⟨by omega, by omega⟩)
  have hrang : cls.rang ≤ 16384 := by cases cls <;> decide
  omega

section

variable {status : Nat → CounterStatus} (h : ZoneOf a cls count i)

include h

theorem changesZone_iff (hfits : ZoneFits a cls count i) :
    ChangesZone op a cls count i status (runZone op i, status) ↔
      (∀ k ∈ zoneFrom count (zoneStart i), k ≤ cls.rang) ∧
      (∀ k, (k ∈ zoneFrom count (zoneBase a i) ↔ k ∈ zoneFrom count (zoneStart i)) ∨
        AlreadyChanged op cls i k) ∧
      (op = .zrst → cls = .c →
        ∀ k ∈ zoneFrom count (zoneBase a i), status k = ⟨false, false⟩) := by
  have hacts := ZoneIns.act_changes op cls i
  have hstatus : (∀ k, status k = if op = .zrst ∧ cls = .c ∧ k ∈ zoneFrom count (zoneBase a i)
      then ⟨false, false⟩ else status k) ↔ (op = .zrst → cls = .c →
        ∀ k ∈ zoneFrom count (zoneBase a i), status k = ⟨false, false⟩) := by
    constructor
    · intro hall hop hcls k hk
      have hclear := hall k
      rwa [if_pos ⟨hop, hcls, hk⟩] at hclear
    · intro hclear k
      split
      · rename_i hk
        exact hclear hk.1 hk.2.1 k hk.2.2
      · rfl
  by_cases hin : ∀ k ∈ zoneFrom count (zoneStart i), k ≤ cls.rang
  · have hloop := runZone_eq h op hfits.lt
    rw [zoneLoop_pass hin] at hloop
    have hzones : ChangesPlaces.all (op.act cls i) (zoneFrom count (zoneStart i)) i.store =
        ChangesPlaces.all (op.act cls i) (zoneFrom count (zoneBase a i)) i.store ↔ _ :=
      hacts.all_eq_iff
    rw [hacts.eq_all_iff] at hzones
    rw [hloop]
    constructor
    · rintro ⟨-, helements, hbeside, hcleared⟩
      refine ⟨hin, fun k => ?_, hstatus.mp hcleared⟩
      exact (hzones.mp ⟨helements, hbeside⟩ k).imp_left Iff.symm
    · rintro ⟨-, hsame, hcleared⟩
      have hstore := hzones.mpr fun k => (hsame k).imp_left Iff.symm
      exact ⟨rfl, hstore.1, hstore.2, hstatus.mpr hcleared⟩
  · obtain ⟨k, hk, hlt⟩ : ∃ k ∈ zoneFrom count (zoneStart i), cls.rang < k := by
      simpa only [not_forall, Nat.not_le, exists_prop] using hin
    have hloop := runZone_eq h op hfits.lt
    rw [zoneLoop_fail ⟨k, hk, hlt⟩] at hloop
    rw [hloop]
    exact iff_of_false (fun hchanges => by cases hchanges.passes) fun hsafe => hin hsafe.1

theorem refusesZone_iff :
    RefusesZone i status (runZone op i, status) ↔
      32768 ≤ count.toNat ∨ (∃ k ∈ zoneFrom count (zoneStart i), cls.rang < k) ∧
        ∀ k, zoneStart i ≤ k → k ≤ cls.rang → AlreadyChanged op cls i k := by
  have hacts := ZoneIns.act_changes op cls i
  by_cases hneg : 32768 ≤ count.toNat
  · rw [runZone_negative h hneg]
    exact iff_of_true ⟨fun hok => (by cases hok), rfl, rfl⟩ (.inl hneg)
  · rw [or_iff_right hneg, runZone_eq h op (Nat.lt_of_not_le hneg)]
    by_cases hout : ∃ k ∈ zoneFrom count (zoneStart i), cls.rang < k
    · rw [zoneLoop_fail hout, and_iff_right hout]
      have hself : ChangesPlaces.all (op.act cls i)
          (range' (zoneStart i) (cls.rang + 1 - zoneStart i)) i.store = i.store ↔ _ :=
        hacts.all_eq_self_iff
      constructor
      · rintro ⟨-, hstore, -⟩ k hstart hrang
        exact hself.mp hstore k (mem_range'_1.mpr ⟨hstart, by omega⟩)
      · intro hchanged
        refine ⟨fun hok => (by cases hok), hself.mpr fun k hk => ?_, rfl⟩
        obtain ⟨hstart, hlt⟩ := mem_range'_1.mp hk
        exact hchanged k hstart (by omega)
    · have hin : ∀ k ∈ zoneFrom count (zoneStart i), k ≤ cls.rang :=
        fun k hk => Nat.le_of_not_lt fun hlt => hout ⟨k, hk, hlt⟩
      rw [zoneLoop_pass hin]
      exact iff_of_false (fun hrefuses => hrefuses.fails rfl) fun hsafe => hout hsafe.1

end

/-- The instructions change exactly the elements of the zone, or refuse it without changes, just if
the zone is safe. -/
theorem zones_right_iff (op : ZoneIns) (status : Nat → CounterStatus)
    (h : ZoneOf a cls count i) :
    RightZone op a cls count i status (op.run i status) ↔ ZoneSafe op a cls count i status := by
  have hrun : op.run i status = (runZone op i, status) := by cases op <;> rfl
  rw [hrun, RightZone, ZoneSafe]
  split
  · rename_i hfits
    exact changesZone_iff h hfits
  · exact refusesZone_iff h

end

/-! ## Samples -/

def zrstFrom (type : AddrType) (number : UInt8) (count : BitVec 16) : BodyInput :=
  { ucode := [0xC3, 0xF0, 0, .ofNat type.code, number, 0] ++ wordOperand count, pc := 0, level := 0,
    now := 0, inPF := 1, sfc := Plc.off.sfc,
    store := (Store.off.setWord (.elem .Z) 0 1).setBit (.elem .C) 0 true }

/-- No counter has counted. -/
def noStatus : Nat → CounterStatus := fun _ => ⟨false, false⟩

theorem zrstFrom_m3 : ZoneOf .m .m 2 (zrstFrom .m 3 2) :=
  ⟨getPowerFlow_one, rfl, rfl, rfl⟩

theorem zrstFrom_cz0 : ZoneOf .cz .c 1 (zrstFrom .cz 0 1) :=
  ⟨getPowerFlow_one, rfl, rfl, rfl⟩

/-- `M3` and `M4` are cleared. -/
theorem zones_right_m3 : RightZone .zrst .m .m 2 (zrstFrom .m 3 2) noStatus
    (ZoneIns.zrst.run (zrstFrom .m 3 2) noStatus) := by
  refine (zones_right_iff .zrst noStatus zrstFrom_m3).mpr ?_
  exact ⟨by decide, fun _ => .inl Iff.rfl, fun _ hcls => by cases hcls⟩

/-- `C0` is cleared instead of `C1`. -/
theorem zrst_ignores_z : ¬ RightZone .zrst .cz .c 1 (zrstFrom .cz 0 1) noStatus
    (ZoneIns.zrst.run (zrstFrom .cz 0 1) noStatus) := by
  intro h
  have hzones := ((changesZone_iff zrstFrom_cz0 (by decide)).mp h).2.1 0
  rcases hzones with hsame | hchanged
  · exact absurd hsame (by decide)
  · exact absurd (congrArg ZoneElement.bit hchanged) (by decide)

end Kalyke
