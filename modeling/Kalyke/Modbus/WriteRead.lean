-- SUMMARY: When a read returns the bytes that the write before it was given.
import Mathlib.Data.List.Nodup
import Kalyke.Modbus.AllOrNothing
import Kalyke.Modbus.Reads

/-!
# Writing and Reading

A write that is accepted, followed by a read of the same elements, should return the bytes written.
For blocks this is so for bits and words, and never for counters of 32 bits. Lists of words are
taken high byte first and returned low byte first.
-/

namespace Kalyke

open List Nat BitVec Option

/-! ## Writes to Halfwords -/

namespace Half

/-- What is left of a value in a halfword: a bit is off or on. -/
def kept : Half → BitVec 16 → BitVec 16
  | bit _ _, x => BitVec.ofNat 16 (x != 0).toNat
  | _, x => x

/-- Set a halfword. -/
def set (x : BitVec 16) (st : Store) : Half → Store
  | bit e n => st.setBit (.elem e) n (x != 0)
  | word e n => st.setWord (.elem e) n x
  | high n => st.setC32 n (x ++ (st.c32 n).extractLsb' 0 16)
  | low n => st.setC32 n ((st.c32 n).extractLsb' 16 16 ++ x)

/-- Set the halfword that the next entry stands for, if there is one. -/
def setNext (x : BitVec 16) (st : Store) : Option Half → Store
  | none => st
  | some h => h.set x st

/-- The element a halfword is part of. -/
def cell : Half → Cell
  | bit e n => .bit e n
  | word e n => .word e n
  | high n => .c32 n
  | low n => .c32 n

theorem read_set_self (h : Half) (x : BitVec 16) (st : Store) : h.read (h.set x st) = h.kept x := by
  cases h with
  | bit e n =>
    have := getBit_setBit_self (s := st) (.elem e) n (x != 0)
    exact congrArg (fun b : Bool => BitVec.ofNat 16 b.toNat) this
  | word e n => exact getWord_setWord_self (.elem e) n x
  | high n =>
    simp only [read, set, c32_setC32_self]
    exact extractLsb'_append_eq_left
  | low n =>
    simp only [read, set, c32_setC32_self]
    exact extractLsb'_append_eq_right

/-- A halfword is a function of the element it is part of. -/
theorem read_congr {h : Half} {st st' : Store} (heq : h.cell.read st' = h.cell.read st) :
    h.read st' = h.read st := by
  cases h with
  | bit e n => exact congrArg (fun b : Bool => BitVec.ofNat 16 b.toNat) (ofNat_toNat_inj heq)
  | word e n => exact setWidth_inj heq
  | high n => exact congrArg (extractLsb' 16 16) heq
  | low n => exact congrArg (extractLsb' 0 16) heq

theorem read_set_of_ne {h k : Half} (hk : k ≠ h) (x : BitVec 16) (st : Store) :
    k.read (h.set x st) = k.read st := by
  by_cases hcell : k.cell = h.cell
  · -- the other half of the same counter
    cases h with
    | bit e n =>
      cases k <;> simp only [cell, Cell.bit.injEq, reduceCtorEq] at hcell
      obtain ⟨rfl, rfl⟩ := hcell
      exact absurd rfl hk
    | word e n =>
      cases k <;> simp only [cell, Cell.word.injEq, reduceCtorEq] at hcell
      obtain ⟨rfl, rfl⟩ := hcell
      exact absurd rfl hk
    | high n =>
      cases k <;> simp only [cell, Cell.c32.injEq, reduceCtorEq] at hcell
      · subst hcell
        exact absurd rfl hk
      · subst hcell
        simp only [read, set, c32_setC32_self]
        exact extractLsb'_append_eq_right
    | low n =>
      cases k <;> simp only [cell, Cell.c32.injEq, reduceCtorEq] at hcell
      · subst hcell
        simp only [read, set, c32_setC32_self]
        exact extractLsb'_append_eq_left
      · subst hcell
        exact absurd rfl hk
  · refine read_congr ?_
    cases h with
    | bit e n =>
      have hne : k.cell ≠ (BitArea.elem e).cell n := hcell
      exact read_setBit hne _
    | word e n =>
      have hne : k.cell ≠ (WordArea.elem e).cell n := hcell
      exact read_setWord hne _
    | high n => exact read_setC32 hcell _
    | low n => exact read_setC32 hcell _

def toCellWrite (w : Half × BitVec 16) : CellWrite fun (st : Store) (h : Half) => h.read st where
  key := w.1
  value := w.1.kept w.2
  act st := w.1.set w.2 st
  read_self := w.1.read_set_self w.2
  read_other st _ hk := read_set_of_ne hk w.2 st

/-- Halfwords set one after the other. -/
def setAll (ws : List (Half × BitVec 16)) (st : Store) : Store :=
  CellWrite.run (ws.map toCellWrite) st

@[simp] theorem setAll_cons (w : Half × BitVec 16) (ws : List (Half × BitVec 16)) (st : Store) :
    setAll (w :: ws) st = setAll ws (w.1.set w.2 st) := rfl

/-- The halfwords of a counter of 32 bits, set one after the other. -/
theorem set_low_set_high (n : Nat) (x y : BitVec 16) (st : Store) :
    (low n).set y ((high n).set x st) = st.setC32 n (x ++ y) := by
  simp only [set, c32_setC32_self]
  rw [extractLsb'_append_eq_left]
  simp [Store.setC32]

end Half

/-! ## Lists to Write -/

variable {ω : Type}

namespace Slave

/-- The value of an entry of a list to write. -/
def givenValue (buff : Buff) : AddrKind → Nat → BitVec 16
  | .bit, i => (buff (5 + 3 * i)).setWidth 16
  | .word, i => buff.bigPU16 (5 + 4 * i)

/-- What an entry of a list plans. -/
def entryPlan : AddrKind → Buff → Nat → Option (ElementWrite × Bool)
  | .bit => bitPlan
  | .word => wordPlan

/-- What the entries of a list to write stand for. -/
def startAt (buff : Buff) (kind : AddrKind) (i : Nat) : Option (Half × Option Half) :=
  Half.start kind (buff.bigPU16 (3 + forceWidth kind * i)).toNat

/-- What an entry plans is to set the halfword it stands for, and for a counter of 32 bits that of
the next as well. -/
theorem entryPlan_sets {kind : AddrKind} {buff : Buff} {i : Nat} {w : ElementWrite} {skip : Bool}
    (hplan : entryPlan kind buff i = some (w, skip)) :
    ∃ h next, startAt buff kind i = some (h, next) ∧ skip = next.isSome ∧
      ∀ st, w.act st = Half.setNext (givenValue buff kind (i + 1))
        (h.set (givenValue buff kind i) st) next := by
  cases kind with
  | bit =>
    simp only [entryPlan, bitPlan] at hplan
    cases hconv : mbSlaveConvertElementInfo .bit (buff.bigPU16 (3 + 3 * i)).toNat with
    | none => simp [hconv] at hplan
    | some x =>
      obtain ⟨t, n⟩ := x
      simp only [hconv, map_eq_some_iff] at hplan
      obtain ⟨e, he, rfl, rfl⟩ := hplan
      have hat := (coilAt_iff.mp ⟨t, hconv, he⟩).1
      refine ⟨.bit e n, none, ?_, rfl, fun st => ?_⟩
      · simp only [startAt, forceWidth, Half.start, cellAt_bit hat]
      · have hzero : ∀ x : Byte, (x != 0) = (x.setWidth 16 != 0) := by decide
        simp only [ElementWrite.act, Half.setNext, Half.set, givenValue, hzero]
  | word =>
    simp only [entryPlan, wordPlan] at hplan
    cases hconv : mbSlaveConvertElementInfo .word (buff.bigPU16 (3 + 4 * i)).toNat with
    | none => simp [hconv] at hplan
    | some x =>
      obtain ⟨t, n⟩ := x
      simp only [hconv, map_eq_some_iff] at hplan
      obtain ⟨r, hr, heq⟩ := hplan
      cases r with
      | word e =>
        cases heq
        refine ⟨.word e n, none, ?_, rfl, fun st => rfl⟩
        simp only [startAt, forceWidth, Half.start, cellAt_word ⟨t, hconv, hr⟩]
      | c32 =>
        cases heq
        refine ⟨.high (c32RealAddr n), some (.low (c32RealAddr n)), ?_, rfl, fun st => ?_⟩
        · simp only [startAt, forceWidth, Half.start, cellAt_c32 ⟨t, hconv, hr⟩]
        · exact (Half.set_low_set_high ..).symm

/-- The halfwords that entries of a list set, with their values. -/
def sets (buff : Buff) (kind : AddrKind) (n k : Nat) (next : Option Half) :
    List (Half × BitVec 16) :=
  (Half.entries (startAt buff kind) n k next).zip
    ((range' k (n + 1)).map (givenValue buff kind))

/-- A list that is accepted sets its halfwords one after the other. -/
theorem planned_sets {kind : AddrKind} {buff : Buff} {n k : Nat} (next : Option Half)
    (hall : (planned (entryPlan kind buff) (range' k n) next.isSome).2 = true) (st : Store) :
    n ≤ (Half.entries (startAt buff kind) n k next).length ∧
      ElementWrite.run (planned (entryPlan kind buff) (range' k n) next.isSome).1
        (Half.setNext (givenValue buff kind k) st next) =
      Half.setAll (sets buff kind n k next) st := by
  induction n generalizing k next st with
  | zero =>
    refine ⟨Nat.zero_le _, ?_⟩
    cases next <;> rfl
  | succ n ih =>
    unfold sets
    rw [range'_succ] at hall ⊢
    cases next with
    | some h =>
      obtain ⟨hlen, hrun⟩ := ih none hall (h.set (givenValue buff kind k) st)
      exact ⟨succ_le_succ hlen, hrun⟩
    | none =>
      simp only [isSome_none] at hall ⊢
      cases hplan : entryPlan kind buff k with
      | none => simp [planned, hplan] at hall
      | some x =>
        obtain ⟨w, skip⟩ := x
        obtain ⟨h, next', hstart, rfl, hact⟩ := entryPlan_sets hplan
        have hall : (planned (entryPlan kind buff) (range' (k + 1) n) next'.isSome).2 = true := by
          simpa [planned, hplan] using hall
        obtain ⟨hlen, hrun⟩ := ih _ hall (h.set (givenValue buff kind k) st)
        simp only [planned, hplan, Half.entries, hstart, ElementWrite.run_cons, hact]
        refine ⟨succ_le_succ hlen, ?_⟩
        exact hrun

end Slave

/-! ## Lists Read Back -/

namespace Half

theorem length_entries_le {f : Nat → Option (Half × Option Half)} (n k : Nat) (next : Option Half) :
    (entries f n k next).length ≤ n + 1 := by
  induction n generalizing k next with
  | zero => cases next <;> simp [entries]
  | succ n ih =>
    cases next with
    | some h => exact succ_le_succ (ih (k + 1) none)
    | none =>
      rw [entries]
      cases f k with
      | none => simp
      | some x => exact succ_le_succ (ih (k + 1) x.2)

theorem entries_congr {f g : Nat → Option (Half × Option Half)} {n k : Nat}
    (h : ∀ i, k ≤ i → i < k + n → f i = g i) (next : Option Half) :
    entries f n k next = entries g n k next := by
  induction n generalizing k next with
  | zero => cases next <;> rfl
  | succ n ih =>
    have ih := ih (k := k + 1) fun i hi hn => h i (by omega) (by omega)
    cases next with
    | some h' => rw [entries, entries, ih]
    | none =>
      rw [entries, entries, h k (Nat.le_refl k) (by omega)]
      cases g k with
      | none => rfl
      | some x => simp only [ih]

/-- What a halfword is read as depends on the last time it was set. -/
theorem read_setAll_iff {ws : List (Half × BitVec 16)} {h : Half} (hmem : h ∈ ws.map Prod.fst)
    (st : Store) (P : BitVec 16 → Prop) :
    P (h.read (setAll ws st)) ↔ ∀ l y r, ws = l ++ y :: r → y.1 = h → (∀ y' ∈ r, y'.1 ≠ h) →
      P (h.kept y.2) := by
  have hlast {l : List (Half × BitVec 16)} {y : Half × BitVec 16} {r : List (Half × BitVec 16)}
      (hws : ws = l ++ y :: r) (hy : y.1 = h) (hr : ∀ y' ∈ r, y'.1 ≠ h) :
      h.read (setAll ws st) = h.kept y.2 := by
    subst hws hy
    have hr' : ∀ w' ∈ r.map toCellWrite, (toCellWrite y).key ≠ w'.key := by
      intro w' hw'
      obtain ⟨y', hy', rfl⟩ := List.mem_map.mp hw'
      exact (hr y' hy').symm
    rw [setAll, map_append]
    exact CellWrite.read_run_last (l := l.map toCellWrite) (w := toCellWrite y) hr' st
  constructor
  · intro hP l y r hws hy hr
    rw [← hlast hws hy hr]
    exact hP
  · intro hall
    have hkey : ∃ w ∈ ws.map toCellWrite, h = w.key := by
      obtain ⟨y, hy, rfl⟩ := List.mem_map.mp hmem
      exact ⟨toCellWrite y, List.mem_map_of_mem hy, rfl⟩
    obtain ⟨l', w, r', hws, hw, hr⟩ := CellWrite.exists_last hkey
    obtain ⟨l, r'', rfl, rfl, htail⟩ := map_eq_append_iff.mp hws
    obtain ⟨y, r, rfl, rfl, rfl⟩ := map_eq_cons_iff.mp htail
    have hr : ∀ y' ∈ r, y'.1 ≠ h := fun y' hy' => (hr _ (List.mem_map_of_mem hy')).symm
    rw [hlast rfl hw.symm hr]
    exact hall l y r rfl hw.symm hr

end Half

/-- Pieces put together are equal just if the pieces are. -/
theorem flatMap_zip_eq_iff {α β γ : Type} {is : List α} {hs : List β} {f : α × β → List γ}
    {g : α → List γ} (hlen : is.length ≤ hs.length)
    (hpieces : ∀ x ∈ is.zip hs, (f x).length = (g x.1).length) :
    (is.zip hs).flatMap f = is.flatMap g ↔ ∀ x ∈ is.zip hs, f x = g x.1 := by
  induction is generalizing hs with
  | nil => simp
  | cons i is ih =>
    cases hs with
    | nil => simp at hlen
    | cons h hs =>
      simp only [zip_cons_cons, forall_mem_cons] at hpieces ⊢
      rw [flatMap_cons, flatMap_cons, ← ih (le_of_succ_le_succ hlen) hpieces.2]
      constructor
      · exact fun heq => List.append_inj heq hpieces.1
      · rintro ⟨hf, hrest⟩
        rw [hf, hrest]

/-- The bytes of a value in a list to write, high byte first. -/
def givenBytes : AddrKind → BitVec 16 → List Byte
  | .bit, x => [loByte x]
  | .word, x => [hiByte x, loByte x]

namespace Slave

/-- What the halfword of each entry is set to last is read as what the entry gives. -/
def Echoes (s : Slave ω) (kind : AddrKind) : Prop :=
  ∀ x ∈ (range s.listCnt).zip (Half.entries (startAt s.receiveBuff kind) s.listCnt 0 none),
    ∀ l y r, sets s.receiveBuff kind s.listCnt 0 none = l ++ y :: r → y.1 = x.2 →
      (∀ y' ∈ r, y'.1 ≠ x.2) →
        valueBytes kind (x.2.kept y.2) = givenBytes kind (givenValue s.receiveBuff kind x.1)

theorem slice_entry (buff : Buff) (kind : AddrKind) (i : Nat) :
    buff.slice (3 + forceWidth kind * i) (forceWidth kind) =
      [buff (3 + forceWidth kind * i), buff (4 + forceWidth kind * i)] ++
        givenBytes kind (givenValue buff kind i) := by
  cases kind with
  | bit =>
    have h1 : 3 + 3 * i + 1 = 4 + 3 * i := by omega
    have h2 : 3 + 3 * i + 2 = 5 + 3 * i := by omega
    have hlow : ∀ x : Byte, loByte (x.setWidth 16) = x := by decide
    simp [forceWidth, Buff.slice, givenBytes, givenValue, range_succ, h1, h2, hlow]
  | word =>
    have h1 : 3 + 4 * i + 1 = 4 + 4 * i := by omega
    have h2 : 3 + 4 * i + 2 = 5 + 4 * i := by omega
    have h3 : 3 + 4 * i + 3 = 5 + 4 * i + 1 := by omega
    simp [forceWidth, Buff.slice, givenBytes, givenValue, Buff.bigPU16, range_succ, h1, h2, h3]

theorem slice_entries (buff : Buff) (i w n : Nat) :
    buff.slice i (w * n) = (range n).flatMap fun k => buff.slice (i + w * k) w := by
  induction n with
  | zero => rfl
  | succ n ih =>
    rw [Nat.mul_succ, Buff.slice_add, ih, range_succ]
    simp

variable {s t : Slave ω} {kind : AddrKind}

/-- A request to read a list has the addresses of a list that was written. -/
def SameList (s t : Slave ω) (kind : AddrKind) : Prop :=
  t.listCnt = s.listCnt ∧ ∀ i < s.listCnt,
    t.receiveBuff (3 + 2 * i) = s.receiveBuff (3 + forceWidth kind * i) ∧
      t.receiveBuff (4 + 2 * i) = s.receiveBuff (4 + forceWidth kind * i)

theorem asked_eq (hsame : s.SameList t kind) :
    t.asked kind t.listCnt 0 none =
      Half.entries (startAt s.receiveBuff kind) s.listCnt 0 none := by
  rw [hsame.1]
  refine Half.entries_congr (fun i _ hi => ?_) none
  obtain ⟨hhigh, hlow⟩ := hsame.2 i (by omega)
  have h1 : 3 + 2 * i + 1 = 4 + 2 * i := by omega
  have h2 : 3 + forceWidth kind * i + 1 = 4 + forceWidth kind * i := by omega
  simp only [startAt, entryAddr, Buff.bigPU16, h1, h2, hhigh, hlow]

theorem listData_eq_iff (hsame : s.SameList t kind) {st : Store}
    (hstore : t.store = Half.setAll (sets s.receiveBuff kind s.listCnt 0 none) st)
    (hall : s.listCnt ≤ (Half.entries (startAt s.receiveBuff kind) s.listCnt 0 none).length) :
    t.listData kind = s.receiveBuff.slice 3 (forceWidth kind * s.listCnt) ↔ s.Echoes kind := by
  rw [listData, asked_eq hsame, hsame.1, slice_entries, flatMap_zip_eq_iff (by simpa using hall)]
  · refine forall₂_congr fun x hx => ?_
    have hi : x.1 < s.listCnt := mem_range.mp (of_mem_zip hx).1
    obtain ⟨hhigh, hlow⟩ := hsame.2 x.1 hi
    have hmem : x.2 ∈ (sets s.receiveBuff kind s.listCnt 0 none).map Prod.fst := by
      rw [sets, map_fst_zip]
      · exact (of_mem_zip hx).2
      · simpa using Half.length_entries_le s.listCnt 0 none
    rw [entryBytes, slice_entry, hhigh, hlow, append_cancel_left_eq, hstore]
    exact Half.read_setAll_iff hmem st fun v =>
      valueBytes kind v = givenBytes kind (givenValue s.receiveBuff kind x.1)
  · intro x _
    cases kind <;> simp [entryBytes, valueBytes, nativeBytes, Buff.slice, forceWidth]

/-! ## Reading Back -/

def lowBits (x : Byte) (n : Nat) : Byte := (x.setWidth n).setWidth 8

/-- The data bytes a request writes, as a read should return them: one byte for a single coil, and
the bits of coils with those not used off. -/
def dataWritten (s : Slave ω) : Writing → List Byte
  | .coil => [if s.receiveBuff.bigPU16 4 = 0xFF00 then 1 else 0]
  | .register => s.receiveBuff.slice 4 2
  | .coils => (range s.reqByteNum).map fun j => lowBits (s.receiveBuff (7 + j)) (s.reqCnt - 8 * j)
  | .registers => s.receiveBuff.slice 7 s.reqByteNum
  | .bitList => s.receiveBuff.slice 3 (3 * s.listCnt)
  | .wordList => s.receiveBuff.slice 3 (4 * s.listCnt)

/-- A request reads a block. -/
def AsksBlock (s : Slave ω) (m : MsgPack) (f : MbFunction) (addr cnt : Nat) : Prop :=
  mbFunction? s.functionCode = some f ∧ m.len = 8 ∧ s.reqAddr = addr ∧ s.reqCnt = cnt

/-- A request reads what another wrote. -/
def SameRange (s t : Slave ω) (m : MsgPack) : Writing → Prop
  | .coil => t.AsksBlock m .readCoilsStatus s.reqAddr 1
  | .register => t.AsksBlock m .readHoldingRegister s.reqAddr 1
  | .coils => t.AsksBlock m .readCoilsStatus s.reqAddr s.reqCnt
  | .registers => t.AsksBlock m .readHoldingRegister s.reqAddr s.reqCnt
  | .bitList => mbFunction? t.functionCode = some .readMultipleBitElement ∧
      m.len = 5 + 2 * t.listCnt ∧ s.SameList t .bit
  | .wordList => mbFunction? t.functionCode = some .readMultipleWordElement ∧
      m.len = 5 + 2 * t.listCnt ∧ s.SameList t .word

/-- A request to read what another wrote is handed to its function. -/
structure AsksBack (s t : Slave ω) (m : MsgPack) (w : Writing) : Prop where
  len : 5 ≤ m.len
  crc : t.CrcOk m
  passes : ¬ t.Filtered m
  single : ¬ m.isBroadcastInfo
  range : s.SameRange t m w

/-- The read returns the bytes written; the elements written exist and are those named in the
request, and all others are as they were. -/
structure ReadsBack (b : Board ω) (s : Slave ω) (m : MsgPack) (w : Writing) (t : Slave ω)
    (m' : MsgPack) : Prop where
  data : ∃ head, head.length = 3 ∧
    (t.handle b m').sent = [.normal (withCrc (head ++ s.dataWritten w))]
  within : ∀ c ∈ (s.handle b m).accessed, c.Present ∧ some c ∈ s.named w.function
  outside : ∀ c : Cell, some c ∉ s.named w.function →
    c.read (s.handle b m).store = c.read s.store

/-- The data of a request has the form a read returns it in: registers are not counters of 32 bits
and have two bytes each; each entry of a list of bits is 0 or 1 as the last for its bit is, and each
entry of a list of words is the last for its word with the bytes exchanged. -/
def DataFits (s : Slave ω) : Writing → Prop
  | .coil => True
  | .coils => True
  | .register => ∀ n, ¬ RegisterAt s.reqAddr .c32 n
  | .registers => (∀ n, ¬ RegisterAt s.reqAddr .c32 n) ∧ s.reqByteNum = 2 * s.reqCnt
  | .bitList => s.Echoes .bit
  | .wordList => s.Echoes .word

/-- The elements a request writes exist, and its data has the form a read returns it in. -/
def Returns (s : Slave ω) (w : Writing) : Prop :=
  (∀ x ∈ (s.plannedWrites w).1, x.cell.Present) ∧ s.DataFits w

variable {b : Board ω} {m m' : MsgPack} {w : Writing}

/-- Data behind three bytes is told by the frame. -/
theorem data_eq_iff {head data data' : List Byte} (hhead : head.length = 3) :
    (∃ head' : List Byte, head'.length = 3 ∧ [Resp.normal (withCrc (head ++ data))] =
      [.normal (withCrc (head' ++ data'))]) ↔ data = data' := by
  constructor
  · rintro ⟨head', hlen, heq⟩
    simp only [cons.injEq, Resp.normal.injEq, and_true] at heq
    exact (List.append_inj (append_inj' heq rfl).1 (hhead.trans hlen.symm)).2
  · rintro rfl
    exact ⟨head, hhead, rfl⟩

/-- The elements that are written are those named, and others keep their values. -/
theorem written_named (hask : s.Asks (.write w)) (hreach : s.Reaches m (.write w)) :
    (∀ c ∈ (s.handle b m).accessed, some c ∈ s.named w.function) ∧
      ∀ c : Cell, some c ∉ s.named w.function → c.read (s.handle b m).store = c.read s.store := by
  have hp := performed_of_reaches (b := b) hreach hask
  obtain ⟨hlen, hcrc, hfilter, -⟩ := hreach
  have hset : w.function.OnElements := by
    cases w <;> simp [Writing.function, MbFunction.OnElements]
  have hout : RangeOutcome s m w.function (s.handle b m) := by
    rw [handle_passed (Nat.not_lt.mpr hlen) hcrc hfilter, hask]
    exact function_outcome b hset
  refine ⟨hout.touched, fun c hc => ?_⟩
  rw [hp.store]
  refine ElementWrite.read_run_of_notMem (fun hmem => hc (hout.touched c ?_)) s.store
  rw [hp.accessed]
  exact mem_append_right _ hmem

/-! ## Blocks Read Back -/

theorem handle_back (hback : s.AsksBack t m' w) {f : MbFunction}
    (hf : mbFunction? t.functionCode = some f) :
    t.handle b m' = t.fresh.function b m' (some f) := by
  rw [handle_passed (Nat.not_lt.mpr hback.len) hback.crc hback.passes, hf]

theorem block_answer {t : Slave ω} {buff : Buff} {x : Byte} {data : List Byte}
    (hsent : t.sent = [.normal (withCrc (buff.bytes 2 ++ x :: data))]) :
    ∃ head, head.length = 3 ∧ t.sent = [.normal (withCrc (head ++ data))] := by
  refine ⟨buff.bytes 2 ++ [x], by simp, ?_⟩
  exact hsent

theorem bits_read (hback : s.AsksBack t m' w) {a cnt n : Nat} {e : BitElement}
    (hblock : t.AsksBlock m' .readCoilsStatus a cnt) (hat : BitAt a e n) (hcnt : cnt ≤ mbMaxRBitNum)
    (hrange : n + cnt ≤ e.rang) : ∃ head, head.length = 3 ∧ (t.handle b m').sent =
      [.normal (withCrc (head ++ packBits false ((range cnt).map fun i =>
        t.store.bit e (n + i))))] := by
  obtain ⟨hf, hlen, rfl, rfl⟩ := hblock
  have hreq : t.fresh.readBitsRequest m' id = .ok (e, n, t.reqCnt) :=
    readBitsRequest_eq_ok_iff.mpr ⟨hlen, hcnt, rfl, e, hat, rfl, le_succ_of_le hrange⟩
  rw [handle_back hback hf]
  have hsent := readBits_sent t.fresh hback.single id false
  rw [bitsResp, hreq] at hsent
  exact block_answer hsent

theorem registers_read (hback : s.AsksBack t m' w) {a cnt n : Nat} {r : Register}
    (hblock : t.AsksBlock m' .readHoldingRegister a cnt) (hat : RegisterAt a r n)
    (hcnt : cnt ≤ mbMaxRWordNum) (hrange : n + cnt ≤ r.readRang) :
    ∃ head, head.length = 3 ∧ (t.handle b m').sent =
      [.normal (withCrc (head ++ (range cnt).flatMap fun i => r.read t.store (n + i)))] := by
  obtain ⟨hf, hlen, rfl, rfl⟩ := hblock
  have hreq : t.fresh.readRegistersRequest m' = .ok (r, n, t.reqCnt) :=
    readRegistersRequest_eq_ok_iff.mpr ⟨hlen, hcnt, rfl, hat, le_succ_of_le hrange⟩
  rw [handle_back hback hf]
  have hsent := readHoldingRegister_sent t.fresh hback.single
  rw [registersResp, hreq] at hsent
  exact block_answer hsent

theorem coilValue_ne_zero (s : Slave ω) (j : Nat) {i : Nat} (hi : i < 8) :
    (s.coilValue (8 * j + i) != 0) = (s.receiveBuff (7 + j)).getLsbD i := by
  have hdiv : (8 * j + i) / 8 = j := by omega
  have hmod : (8 * j + i) % 8 = i := by omega
  have hone : (1 : Byte) = 1#8 := rfl
  rw [coilValue, hdiv, hmod, hone, and_one_eq_setWidth_ofBool_getLsbD,
    getLsbD_ushiftRight]
  cases (s.receiveBuff (7 + j)).getLsbD i <;> rfl

theorem getLsbD_lowBits (x : Byte) (n : Nat) {i : Nat} (hi : i < 8) :
    (lowBits x n).getLsbD i = (decide (i < n) && x.getLsbD i) := by
  simp [lowBits, hi]

/-- Coils that were written are packed into the bytes they were taken from. -/
theorem packBits_coils {st : Store} {e : BitElement} {n : Nat}
    (hbits : ∀ i < s.reqCnt, st.bit e (n + i) = (s.coilValue i != 0)) (hpos : 0 < s.reqCnt)
    (hbytes : s.reqByteNum = (s.reqCnt + 7) / 8) :
    packBits false ((range s.reqCnt).map fun i => st.bit e (n + i)) = s.dataWritten .coils := by
  rw [packBits_eq false _ hpos, dataWritten, hbytes]
  refine map_congr_left fun j _ => ?_
  ext i hi
  rw [← getLsbD_eq_getElem, ← getLsbD_eq_getElem, getLsbD_packByte _ hi,
    getLsbD_lowBits _ _ hi]
  by_cases hlt : i < s.reqCnt - 8 * j
  · have hmin : i < min 8 (s.reqCnt - 8 * j) := by omega
    simp only [hlt, hmin]
    rw [hbits _ (by omega), coilValue_ne_zero s j hi]
  · have hmin : ¬ i < min 8 (s.reqCnt - 8 * j) := by omega
    simp [hlt]

/-- Words that were written are the bytes they were taken from. -/
theorem words_read {st : Store} {e : WordElement} {n i cnt : Nat}
    (hwords : ∀ k < cnt, st.word e (n + k) = s.receiveBuff.bigPU16 (i + 2 * k)) :
    ((range cnt).flatMap fun k => (Register.word e).read st (n + k)) =
      s.receiveBuff.slice i (2 * cnt) := by
  rw [slice_entries]
  refine flatMap_congr fun k hk => ?_
  rw [Register.read, hwords k (mem_range.mp hk)]
  simp [Buff.slice, Buff.bigPU16, range_succ]

/-! ## What Reads Return -/

/-- The read after a write is answered with the bytes written. -/
def DataReturned (b : Board ω) (s t : Slave ω) (m : MsgPack) (w : Writing) : Prop :=
  ∃ head, head.length = 3 ∧ (t.handle b m).sent = [.normal (withCrc (head ++ s.dataWritten w))]

theorem dataReturned_iff {head data : List Byte} (hlen : head.length = 3)
    (hsent : (t.handle b m').sent = [.normal (withCrc (head ++ data))]) :
    s.DataReturned b t m' w ↔ data = s.dataWritten w := by
  rw [DataReturned, hsent]
  exact data_eq_iff hlen

theorem coil_returns (hback : s.AsksBack t m' .coil) (hacc : (s.plannedWrites .coil).2 = true)
    (hstore : t.store = ElementWrite.run (s.plannedWrites .coil).1 s.store)
    (hpresent : ∀ x ∈ (s.plannedWrites .coil).1, x.cell.Present) : s.DataReturned b t m' .coil := by
  cases hreq : s.writeCoilRequest with
  | error e => simp [plannedWrites, hreq, plannedIf] at hacc
  | ok x =>
    obtain ⟨e, n, x⟩ := x
    have hplan : (s.plannedWrites .coil).1 = [.bit e n (x != 0)] := by
      simp [plannedWrites, hreq, plannedIf]
    obtain ⟨hvalue, hat, hx⟩ := writeCoilRequest_eq_ok_iff.mp hreq
    rw [hplan] at hstore hpresent
    have hrang : n < e.rang := hpresent _ mem_cons_self
    have hbit : t.store.bit e n = (x != 0) := by
      rw [hstore]
      exact getBit_setBit_self (.elem e) n (x != 0)
    obtain ⟨head, hlen, hsent⟩ := bits_read (b := b) hback hback.range (coilAt_iff.mp hat).1
      (by decide) hrang
    refine (dataReturned_iff hlen hsent).mpr ?_
    simp only [range_one, map_singleton, Nat.add_zero, hbit, hx, dataWritten]
    rcases hvalue with hv | hv <;> rw [hv] <;> decide

theorem coils_returns (hback : s.AsksBack t m' .coils) (hacc : (s.plannedWrites .coils).2 = true)
    (hstore : t.store = ElementWrite.run (s.plannedWrites .coils).1 s.store)
    (hpresent : ∀ x ∈ (s.plannedWrites .coils).1, x.cell.Present) :
    s.DataReturned b t m' .coils := by
  cases hreq : s.writeCoilsRequest with
  | error e => simp [plannedWrites, hreq, plannedIf] at hacc
  | ok x =>
    obtain ⟨e, n, cnt⟩ := x
    obtain ⟨hbytes, hpos, hmax, rfl, hat, -⟩ := writeCoilsRequest_eq_ok_iff.mp hreq
    have hplan : (s.plannedWrites .coils).1 = s.coilWrites e n s.reqCnt := by
      simp [plannedWrites, hreq, plannedIf]
    rw [hplan] at hstore hpresent
    have hmem {i : Nat} (hi : i < s.reqCnt) :
        .bit e (n + i) (s.coilValue i != 0) ∈ s.coilWrites e n s.reqCnt :=
      List.mem_map.mpr ⟨i, mem_range.mpr hi, rfl⟩
    have hrang : n + s.reqCnt ≤ e.rang := by
      have : n + (s.reqCnt - 1) < e.rang := hpresent _ (hmem (i := s.reqCnt - 1) (by omega))
      omega
    have hnodup : ((s.coilWrites e n s.reqCnt).map ElementWrite.cell).Nodup := by
      rw [coilWrites, List.map_map]
      refine List.Nodup.map (fun i j hij => ?_) nodup_range
      simpa [ElementWrite.cell] using hij
    have hbits : ∀ i < s.reqCnt, t.store.bit e (n + i) = (s.coilValue i != 0) := fun i hi =>
      ofNat_toNat_inj (by rw [hstore]; exact ElementWrite.read_run_mem hnodup (hmem hi) s.store)
    obtain ⟨head, hlen, hsent⟩ := bits_read (b := b) hback hback.range (coilAt_iff.mp hat).1
      (hmax.trans (by decide)) hrang
    exact (dataReturned_iff hlen hsent).mpr (packBits_coils hbits hpos hbytes)

theorem register_returns (hback : s.AsksBack t m' .register)
    (hacc : (s.plannedWrites .register).2 = true)
    (hstore : t.store = ElementWrite.run (s.plannedWrites .register).1 s.store)
    (hpresent : ∀ x ∈ (s.plannedWrites .register).1, x.cell.Present) :
    s.DataReturned b t m' .register ↔ ∀ n, ¬ RegisterAt s.reqAddr .c32 n := by
  cases hreq : s.writeRegisterRequest with
  | error e => simp [plannedWrites, hreq, plannedIf] at hacc
  | ok x =>
    obtain ⟨r, n⟩ := x
    have hplan : (s.plannedWrites .register).1 = [singleWrite (s.receiveBuff.bigPU16 4) n r] := by
      simp [plannedWrites, hreq, plannedIf]
    have hat := writeRegisterRequest_eq_ok_iff.mp hreq
    rw [hplan] at hstore hpresent
    have hcell := hpresent _ mem_cons_self
    cases r with
    | word e =>
      have hrang : n < e.rang := hcell
      obtain ⟨head, hlen, hsent⟩ := registers_read (b := b) hback hback.range hat (by decide) hrang
      refine iff_of_true ((dataReturned_iff hlen hsent).mpr ?_) fun n' hc => ?_
      · refine words_read fun k hk => ?_
        obtain rfl : k = 0 := by omega
        rw [hstore]
        exact getWord_setWord_self (.elem e) n _
      · cases (hat.unique hc).1
    | c32 =>
      have hrang : n < cRang := hcell.2
      obtain ⟨head, hlen, hsent⟩ := registers_read (b := b) hback hback.range hat (by decide) hrang
      refine iff_of_false (fun h => ?_) fun h => h n hat
      have hdata := congrArg length ((dataReturned_iff hlen hsent).mp h)
      simp [Register.width, dataWritten, Buff.slice] at hdata

theorem registers_returns (hback : s.AsksBack t m' .registers)
    (hacc : (s.plannedWrites .registers).2 = true)
    (hstore : t.store = ElementWrite.run (s.plannedWrites .registers).1 s.store)
    (hpresent : ∀ x ∈ (s.plannedWrites .registers).1, x.cell.Present) :
    s.DataReturned b t m' .registers ↔
      (∀ n, ¬ RegisterAt s.reqAddr .c32 n) ∧ s.reqByteNum = 2 * s.reqCnt := by
  cases hreq : s.writeRegistersRequest with
  | error e => simp [plannedWrites, hreq, plannedIf] at hacc
  | ok x =>
    obtain ⟨r, n, cnt⟩ := x
    obtain ⟨hpos, hmax, hbytes, rfl, hat, -⟩ := writeRegistersRequest_eq_ok_iff.mp hreq
    have hplan : (s.plannedWrites .registers).1 = s.registerWrites r n s.reqCnt := by
      simp [plannedWrites, hreq, plannedIf]
    rw [hplan] at hstore hpresent
    have hmem {i : Nat} (hi : i < s.reqCnt) :
        s.registerWrite r n i ∈ s.registerWrites r n s.reqCnt :=
      List.mem_map.mpr ⟨i, mem_range.mpr hi, rfl⟩
    have hlast := hpresent _ (hmem (i := s.reqCnt - 1) (by omega))
    have hmax : s.reqCnt ≤ mbMaxRWordNum := hmax.trans (by decide)
    cases r with
    | word e =>
      have hrang : n + s.reqCnt ≤ e.rang := by
        have : n + (s.reqCnt - 1) < e.rang := hlast
        omega
      have hnodup : ((s.registerWrites (.word e) n s.reqCnt).map ElementWrite.cell).Nodup := by
        rw [registerWrites, List.map_map]
        refine List.Nodup.map (fun i j hij => ?_) nodup_range
        simpa [registerWrite, ElementWrite.cell] using hij
      have hwords : ∀ i < s.reqCnt, t.store.word e (n + i) = s.receiveBuff.bigPU16 (7 + 2 * i) :=
        fun i hi => setWidth_inj (by
          rw [hstore]
          exact ElementWrite.read_run_mem hnodup (hmem hi) s.store)
      obtain ⟨head, hlen, hsent⟩ := registers_read (b := b) hback hback.range hat hmax hrang
      rw [dataReturned_iff hlen hsent, words_read hwords, dataWritten]
      constructor
      · intro hdata
        have hnum := congrArg length hdata
        simp only [Buff.slice, length_map, length_range] at hnum
        refine ⟨fun n' hc => ?_, hnum.symm⟩
        cases (hat.unique hc).1
      · rintro ⟨-, hnum⟩
        rw [hnum]
    | c32 =>
      have hrang : n + s.reqCnt ≤ cRang := by
        have : n + (s.reqCnt - 1) < cRang := hlast.2
        omega
      obtain ⟨head, hlen, hsent⟩ := registers_read (b := b) hback hback.range hat hmax hrang
      refine iff_of_false (fun h => ?_) fun h => h.1 n hat
      have hdata := congrArg length ((dataReturned_iff hlen hsent).mp h)
      simp only [length_registers, Register.width, dataWritten, Buff.slice, length_map,
        length_range] at hdata
      omega

/-- A list that is accepted is read back as it was written just if it echoes. -/
theorem list_returns {kind : AddrKind} {limit : Nat} (hsame : s.SameList t kind)
    (hplan : s.plannedWrites w =
      plannedList limit s.listCnt (entryPlan kind s.receiveBuff))
    (hacc : (s.plannedWrites w).2 = true)
    (hstore : t.store = ElementWrite.run (s.plannedWrites w).1 s.store)
    (hsent : (t.handle b m').sent = [t.listResp kind limit])
    (hdata : s.dataWritten w = s.receiveBuff.slice 3 (forceWidth kind * s.listCnt)) :
    s.DataReturned b t m' w ↔ s.Echoes kind := by
  have hle : ¬ limit < s.listCnt := by
    intro h
    rw [hplan, plannedList, if_pos h] at hacc
    cases hacc
  rw [hplan, plannedList, if_neg hle, range_eq_range'] at hacc hstore
  obtain ⟨hlen, hrun⟩ := planned_sets none hacc s.store
  rw [listResp, if_neg (by rw [hsame.1]; exact hle), asked_eq hsame,
    if_pos (by rw [hsame.1]; exact hlen)] at hsent
  rw [dataReturned_iff (by simp) hsent, hdata]
  exact listData_eq_iff hsame (hstore.trans hrun) hlen

/-- A write that is accepted and the read after it: the read returns the bytes written just if the
elements exist and the bytes are in the form the read gives them. -/
theorem readsBack_iff (b : Board ω) (s t : Slave ω) (m m' : MsgPack) (w : Writing)
    (hask : s.Asks (.write w)) (hreach : s.Reaches m (.write w)) (hacc : s.Accepts (.write w))
    (hstore : t.store = (s.handle b m).store) (hback : s.AsksBack t m' w) :
    s.ReadsBack b m w t m' ↔ s.Returns w := by
  have hp := performed_of_reaches (b := b) hreach hask
  obtain ⟨hnamed, houtside⟩ := written_named (b := b) hask hreach
  have hstore : t.store = ElementWrite.run (s.plannedWrites w).1 s.store := hstore.trans hp.store
  have hwithin : (∀ c ∈ (s.handle b m).accessed, c.Present ∧ some c ∈ s.named w.function) ↔
      ∀ x ∈ (s.plannedWrites w).1, x.cell.Present := by
    rw [hp.accessed]
    simp only [fresh_accessed, nil_append, List.forall_mem_map]
    refine forall₂_congr fun x hx => and_iff_left (hnamed _ ?_)
    rw [hp.accessed]
    exact mem_append_right _ (List.mem_map_of_mem hx)
  have hdata (hpresent : ∀ x ∈ (s.plannedWrites w).1, x.cell.Present) :
      s.DataReturned b t m' w ↔ s.DataFits w := by
    cases w with
    | coil => exact iff_of_true (coil_returns hback hacc hstore hpresent) trivial
    | coils => exact iff_of_true (coils_returns hback hacc hstore hpresent) trivial
    | register => exact register_returns hback hacc hstore hpresent
    | registers => exact registers_returns hback hacc hstore hpresent
    | bitList =>
      obtain ⟨hf, -, hsame⟩ := hback.range
      exact list_returns hsame rfl hacc hstore ((congrArg Slave.sent (handle_back hback hf)).trans
        (readMultipleBitElement_sent t.fresh hback.single)) rfl
    | wordList =>
      obtain ⟨hf, -, hsame⟩ := hback.range
      exact list_returns hsame rfl hacc hstore ((congrArg Slave.sent (handle_back hback hf)).trans
        (readMultipleWordElement_sent t.fresh hback.single)) rfl
  constructor
  · rintro ⟨hread, hin, -⟩
    exact ⟨hwithin.mp hin, (hdata (hwithin.mp hin)).mp hread⟩
  · rintro ⟨hpresent, hform⟩
    exact ⟨(hdata hpresent).mpr hform, hwithin.mpr hpresent, houtside⟩

/-- A slave with the elements another left. -/
def withStore (t : Slave ω) (st : Store) : Slave ω := { t with store := st }

/-- Five written to `D0` is read back. -/
theorem d0_read_back :
    (idle [1, 6, 0, 0, 0, 5, 0x49, 0xC9]).ReadsBack idleBoard (comMsg 8) .register
      ((idle [1, 3, 0, 0, 0, 1, 0x84, 0x0A]).withStore
        ((idle [1, 6, 0, 0, 0, 5, 0x49, 0xC9]).handle idleBoard (comMsg 8)).store)
      (comMsg 8) := by
  refine (readsBack_iff idleBoard _ _ (comMsg 8) (comMsg 8) .register ?_ ?_ ?_ ?_ ?_).mpr ⟨?_, ?_⟩
  · unfold Asks
    decide
  · exact ⟨by decide, by decide, by decide, by decide⟩
  · unfold Accepts
    decide
  · rfl
  · exact ⟨by decide, by decide, by decide, by decide, by decide, rfl, by decide, by decide⟩
  · have hplan : ((idle [1, 6, 0, 0, 0, 5, 0x49, 0xC9]).plannedWrites .register).1 =
        [.word .D 0 5] := by decide
    intro x hx
    rw [mem_singleton.mp hx]
    exact (by decide : 0 < WordElement.D.rang)
  · rintro n ⟨u, hu, hr⟩
    have hconv : mbSlaveConvertElementInfo .word
        (idle [1, 6, 0, 0, 0, 5, 0x49, 0xC9]).reqAddr = some (.wordD, 0) := by decide
    cases hconv.symm.trans hu
    cases hr

/-- `0x1234` written to `D0` in a list is read back as `0x3412`. -/
theorem d0_bytes_exchanged : ¬ ∀ (s t : Slave Unit) (m m' : MsgPack) (w : Writing),
    s.Asks (.write w) → s.Reaches m (.write w) → s.Accepts (.write w) →
    t.store = (s.handle idleBoard m).store → s.AsksBack t m' w →
    s.ReadsBack idleBoard m w t m' := by
  intro h
  let s : Slave Unit := idle [1, 0x67, 1, 0, 0, 0x12, 0x34, 0x33, 0x60]
  let t : Slave Unit := (idle [1, 0x65, 1, 0, 0, 0x56, 0xCC]).withStore
    (s.handle idleBoard (comMsg 9)).store
  have hback := h s t (comMsg 9) (comMsg 7) .wordList (by unfold Asks; decide)
    ⟨by decide, by decide, by decide, by decide⟩ (by unfold Accepts; decide) rfl
    ⟨by decide, by decide, by decide, by decide, by decide, by decide, by unfold SameList; decide⟩
  have hsent : (t.handle idleBoard (comMsg 7)).sent =
      [.normal (withCrc ([1, 0x65, 1] ++ [0, 0, 0x34, 0x12]))] := by decide
  obtain ⟨head, hlen, heq⟩ := hback.data
  rw [hsent] at heq
  have := (data_eq_iff (by rfl)).mp ⟨head, hlen, heq⟩
  revert this
  decide

end Slave

end Kalyke
