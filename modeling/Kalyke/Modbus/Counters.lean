-- SUMMARY: Counters of 32 bits: which half of which counter each way to access a word takes.
import Kalyke.Modbus.WriteRead

/-!
# Counters of 32 Bits

A counter of 32 bits has two word addresses. The standard functions, those on lists, the monitor and
the refresh of forced elements each decide on their own which half of which counter an address
stands for.
-/

namespace Kalyke

open List

/-! ## The Refresh of Forced Elements

Before each scan the forced elements are set. -/

def ListedElement.forceBit (st : Store) (e : ListedElement) : Store :=
  match e.elementType.bit? with
  | some t => st.setBit (.elem t) e.elementAddr (loByte e.elementValue != 0)
  | none => st

def ListedElement.forceWord (st : Store) (e : ListedElement) : Store :=
  match e.elementType.word? with
  | some t => st.setWord (.elem t) e.elementAddr e.elementValue
  | none => st

/-- A forced element that is part of a counter of 32 bits. -/
def ListedElement.OfC32 (e : ListedElement) : Prop :=
  e.elementType = .wordC ∧ c16Rang ≤ e.elementAddr

instance (e : ListedElement) : Decidable e.OfC32 := by unfold ListedElement.OfC32; infer_instance

/-- The loop of `plc_refresh_force_element_value` over the words. A counter of 32 bits takes its low
half from its element and its high half from the next, if that is of a counter as well. Behind the
last element the head of the list is looked at as if it was one; where that looks like a counter
the loop starts again and does not end. -/
def forceWords (headIsC : Bool) : List ListedElement → Store → Option Store
  | [], st => some st
  | [e], st => if e.OfC32 then if headIsC then none else some st else some (e.forceWord st)
  | e :: e' :: es, st =>
    if e.OfC32 then
      if e'.elementType = .wordC then
        forceWords headIsC es
          (st.setC32 (c32RealAddr e.elementAddr) (e'.elementValue ++ e.elementValue))
      else forceWords headIsC (e' :: es) st
    else forceWords headIsC (e' :: es) (e.forceWord st)

def plcRefreshForceElementValue (headIsC : Bool) (force : AddrKind → List ListedElement)
    (st : Store) : Option Store :=
  forceWords headIsC (force .word) ((force .bit).foldl ListedElement.forceBit st)

/-! ## The Words of a Counter -/

/-- The address of the first or the second word of a counter of 32 bits. -/
def counterAddr (n : Nat) (second : Bool) : Nat :=
  (if n < 256 then 9700 + 2 * (n - 200) else 54000 + 2 * (n - 256)) + second.toNat

/-- The half of a counter that a word is, by whether the high half comes first. -/
def counterHalf (highFirst : Bool) (n : Nat) (second : Bool) : Half :=
  if second = highFirst then .low n else .high n

/-- The two words of a counter. -/
abbrev Words := BitVec 16 × BitVec 16

def setCounter (highFirst : Bool) (n : Nat) (w : Words) (st : Store) : Store :=
  (counterHalf highFirst n true).set w.2 ((counterHalf highFirst n false).set w.1 st)

def counterWords (highFirst : Bool) (n : Nat) (st : Store) : Words :=
  ((counterHalf highFirst n false).read st, (counterHalf highFirst n true).read st)

/-- A word of a counter in a list, as the requests that make the list enter it. -/
def IsListed (n : Nat) (second : Bool) (e : ListedElement) : Prop :=
  e.modbusAddr = BitVec.ofNat 16 (counterAddr n second) ∧
    mbSlaveConvertElementInfo .word (counterAddr n second) = some (e.elementType, e.elementAddr)

variable {ω : Type}

namespace Slave

/-- A frame is handed to its function. -/
structure Passes (s : Slave ω) (m : MsgPack) (f : MbFunction) : Prop where
  len : 5 ≤ m.len
  crc : s.CrcOk m
  passes : ¬ s.Filtered m
  single : ¬ m.isBroadcastInfo
  code : mbFunction? s.functionCode = some f

/-- A request is for a block of registers that starts with the first word of a counter. -/
def CounterBlock (s : Slave ω) (n : Nat) : Prop :=
  s.reqAddr = counterAddr n false ∧ s.reqCnt = 2

/-- A request is for a list of the two words of a counter, in entries of some number of bytes. -/
def CounterList (s : Slave ω) (n width : Nat) : Prop :=
  s.listCnt = 2 ∧ s.entryAddr 3 = counterAddr n false ∧
    s.entryAddr (3 + width) = counterAddr n true

/-- The bytes of two words in a response, high bytes first. -/
def wordsBytes (w : Words) : List Byte := bigBytes w.1 ++ bigBytes w.2

end Slave

open Slave

/-- All ways to access a counter take its two addresses for its two words, in the same order; and
two registers are two words. -/
structure AccessedAs (highFirst : Bool) (b : Board ω) (n : Nat) : Prop where
  writeRegister : ∀ (s : Slave ω) (m : MsgPack) (second : Bool), s.Passes m .writeRegister →
    s.reqAddr = counterAddr n second →
    (s.handle b m).store = (counterHalf highFirst n second).set (s.receiveBuff.bigPU16 4) s.store
  writeRegisters : ∀ (s : Slave ω) (m : MsgPack), s.Passes m .writeMultipleRegisters →
    s.CounterBlock n → s.reqByteNum = 4 → m.len = 13 →
    (s.handle b m).store =
      setCounter highFirst n (s.receiveBuff.bigPU16 7, s.receiveBuff.bigPU16 9) s.store
  writeList : ∀ (s : Slave ω) (m : MsgPack), s.Passes m .writeMultipleWordElement →
    s.CounterList n 4 → m.len = 13 →
    (s.handle b m).store =
      setCounter highFirst n (s.receiveBuff.bigPU16 5, s.receiveBuff.bigPU16 9) s.store
  refresh : ∀ (headIsC : Bool) (e e' : ListedElement) (st : Store), IsListed n false e →
    IsListed n true e' →
    forceWords headIsC [e, e'] st =
      some (setCounter highFirst n (e.elementValue, e'.elementValue) st)
  readRegisters : ∀ (s : Slave ω) (m : MsgPack), s.Passes m .readHoldingRegister →
    s.CounterBlock n → m.len = 8 →
    (s.handle b m).sent = [.normal (withCrc (s.receiveBuff.bytes 2 ++
      4 :: wordsBytes (counterWords highFirst n s.store)))]
  readList : ∀ (s : Slave ω) (m : MsgPack), s.Passes m .readMultipleWordElement →
    s.CounterList n 2 → m.len = 9 →
    -- the bytes of each word are in the order of the function
    (s.handle b m).sent = [.normal (withCrc (s.receiveBuff.bytes 3 ++
      s.entryBytes .word 0 (counterHalf highFirst n false) ++
        s.entryBytes .word 1 (counterHalf highFirst n true)))]
  monitor : ∀ (s : Slave ω) (m : MsgPack) (e e' : ListedElement), s.Passes m .uploadFunc →
    uploadOp? s.subCode = some (.monitor .words) → s.frameNum = 0x01 → s.Unlocked b .monitor →
    s.monitor .words = [e, e'] → IsListed n false e → IsListed n true e' →
    (s.handle b m).sent = [.normal (withCrc (s.receiveBuff.bytes 3 ++ [0xFE, 2] ++
      { e with elementValue := (counterWords highFirst n s.store).1 }.wordBytes ++
        { e' with elementValue := (counterWords highFirst n s.store).2 }.wordBytes))]

/-- All ways to access a counter agree on its words. -/
def CounterAgrees (b : Board ω) (n : Nat) : Prop := ∃ highFirst, AccessedAs highFirst b n

/-! ## What Each Way Takes

The map numbers the words of the counters. The standard functions take this number for that of a
counter. The others halve it, so that the words of `C256` and up are those of counters 28 below. -/

/-- The number the map gives for the first word of a counter. -/
def counterElement (n : Nat) : Nat := if n < 256 then 200 + 2 * (n - 200) else 256 + 2 * (n - 256)

section Ways

variable {b : Board ω} {s : Slave ω} {m : MsgPack} {n : Nat}

theorem convert_counterAddr (hfirst : 200 ≤ n) (hlast : n < 512) (second : Bool) :
    mbSlaveConvertElementInfo .word (counterAddr n second) =
      some (.wordC, counterElement n + second.toNat) := by
  rw [convert_eq_some_iff]
  refine ⟨rfl, ?_⟩
  have hsecond := second.toNat_lt
  simp only [MbElement.windows, mem_cons, not_mem_nil, or_false, exists_eq_or_imp,
    exists_eq_left, AddrWindow.Maps, counterAddr, counterElement]
  by_cases hn : n < 256
  · rw [if_pos hn, if_pos hn]
    omega
  · rw [if_neg hn, if_neg hn]
    omega

theorem counterElement_le (n : Nat) : c16Rang ≤ counterElement n := by
  unfold counterElement c16Rang
  split <;> omega

/-- The second word of a counter has the number of another counter. -/
theorem counterElement_succ_ne (hfirst : 200 ≤ n) : counterElement n + 1 ≠ n := by
  unfold counterElement
  split <;> omega

theorem register_counterElement (n : Nat) (second : Bool) :
    MbElement.wordC.register? (counterElement n + second.toNat) = some .c32 :=
  if_pos ⟨rfl, (counterElement_le n).trans (Nat.le_add_right _ _)⟩

theorem handle_of_passes {f : MbFunction} (h : s.Passes m f) :
    s.handle b m = s.fresh.function b m (some f) := by
  rw [handle_passed (Nat.not_lt.mpr h.len) h.crc h.passes, h.code]

/-- Function `0x06` sets all of a counter, with the number of the word. -/
theorem writeRegister_counter (hfirst : 200 ≤ n) (hlast : n < 512) {second : Bool}
    (h : s.Passes m .writeRegister) (haddr : s.reqAddr = counterAddr n second) :
    (s.handle b m).store = s.store.setC32 (counterElement n + second.toNat)
      ((s.receiveBuff.bigPU16 4).setWidth 32) := by
  have hreq : s.fresh.writeRegisterRequest = .ok (.c32, counterElement n + second.toNat) := by
    have haddr : s.fresh.reqAddr = counterAddr n second := haddr
    simp only [writeRegisterRequest, haddr, convert_counterAddr hfirst hlast,
      register_counterElement n]
  rw [handle_of_passes h]
  simp only [function, mbSlaveWriteRegister, hreq]
  rfl

end Ways

/-! ## The Ways Compared -/

theorem hiByte_append_loByte (x : BitVec 16) : hiByte x ++ loByte x = x := by
  have hjoin : x.extractLsb' 8 8 ++ x.extractLsb' 0 8 = x.extractLsb' 0 (8 + 8) :=
    BitVec.extractLsb'_append_extractLsb'_eq_extractLsb' rfl
  exact hjoin.trans BitVec.extractLsb'_eq_self

/-- Bytes with their checksum behind them have it where it is looked for. -/
theorem crcOk_withCrc {s : Slave ω} {m : MsgPack} {xs : List Byte}
    (hbuff : s.receiveBuff = fun i => (withCrc xs).getD i 0) (hlen : m.len = xs.length + 2) :
    s.CrcOk m := by
  have hbytes : s.receiveBuff.bytes xs.length = xs := by
    refine ext_getElem (by simp) fun i h₁ h₂ => ?_
    simp [Buff.bytes, hbuff, withCrc, getElem?_append_left h₂, h₂]
  rw [CrcOk, hlen, Nat.add_sub_cancel, hbytes]
  simp only [Buff.nativePU16, hbuff, withCrc]
  rw [getD_append_right _ _ _ _ (Nat.le_succ _),
    getD_append_right _ _ _ _ (Nat.le_refl _), Nat.succ_sub (Nat.le_refl _), Nat.sub_self]
  exact hiByte_append_loByte _

/-- A slave that has received a frame that writes the value 1 to the second word of a counter. -/
def secondWritten (world : ω) (n : Nat) : Slave ω :=
  let addr := BitVec.ofNat 16 (counterAddr n true)
  { idle (withCrc [1, 6, hiByte addr, loByte addr, 0, 1]) with world := world }

theorem secondWritten_passes (world : ω) (n : Nat) :
    (secondWritten world n).Passes (comMsg 8) .writeRegister where
  len := by decide
  crc := crcOk_withCrc rfl rfl
  passes := fun h => absurd h.1 (by simp [listenOnly, secondWritten, idle])
  single := by decide
  code := rfl

theorem secondWritten_addr (world : ω) {n : Nat} (hlast : n < 512) :
    (secondWritten world n).reqAddr = counterAddr n true := by
  have haddr : (secondWritten world n).receiveBuff.bigPU16 2 =
      BitVec.ofNat 16 (counterAddr n true) := hiByte_append_loByte _
  rw [reqAddr, haddr]
  refine Nat.mod_eq_of_lt ?_
  unfold counterAddr
  simp only [Bool.toNat_true]
  split <;> omega

/-- A write to one half of a counter leaves the other counters alone. -/
theorem c32_counterHalf_set {k n : Nat} (hk : k ≠ n) (highFirst second : Bool) (x : BitVec 16)
    (st : Store) : ((counterHalf highFirst n second).set x st).c32 k = st.c32 k := by
  unfold counterHalf
  split <;> simp [Half.set, Store.setC32, hk]

/-- The ways agree on no counter: a write to the second word with function `0x06` does not touch
it. -/
theorem not_counterAgrees (b : Board ω) (world : ω) {n : Nat} (hfirst : 200 ≤ n)
    (hlast : n < 512) : ¬ CounterAgrees b n := by
  rintro ⟨highFirst, hacc⟩
  have hpasses := secondWritten_passes world n
  have haddr := secondWritten_addr world hlast
  have hwrites := writeRegister_counter (b := b) hfirst hlast hpasses haddr
  rw [hacc.writeRegister _ _ true hpasses haddr] at hwrites
  have hkept := c32_counterHalf_set (counterElement_succ_ne hfirst) highFirst true
    ((secondWritten world n).receiveBuff.bigPU16 4) (secondWritten world n).store
  rw [hwrites, Bool.toNat_true, c32_setC32_self] at hkept
  have hone : (secondWritten world n).receiveBuff.bigPU16 4 = 1 := by
    have happend : (0 : Byte) ++ (1 : Byte) = (1 : BitVec 16) := by decide
    exact happend
  have hzero : (secondWritten world n).store.c32 (counterElement n + 1) = 0 := rfl
  rw [hone, hzero] at hkept
  exact absurd hkept (by decide)

theorem c200_not_counterAgrees : ¬ CounterAgrees idleBoard 200 :=
  not_counterAgrees idleBoard () (by decide) (by decide)

/-- The value 1 written to the second word of `C200` is found in `C201`. -/
theorem c200_second_word :
    ¬ ∀ n, 200 ≤ n → n < 512 → CounterAgrees idleBoard n := by
  intro hagrees
  obtain ⟨highFirst, hacc⟩ := hagrees 200 (by decide) (by decide)
  have hset := hacc.writeRegister (idle [1, 6, 0x25, 0xE5, 0, 1, 0x52, 0xF1]) (comMsg 8) true
    ⟨by decide, by decide, by decide, by decide, by decide⟩ (by decide)
  have hc201 := congrArg (fun st => st.c32 201) hset
  cases highFirst <;> exact absurd hc201 (by decide)

end Kalyke
