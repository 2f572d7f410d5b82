-- SUMMARY: The writes to elements that a request plans, and that the functions carry out.
import Kalyke.Lib.Writes
import Kalyke.Modbus.Answers

/-!
# Planned Writes

What a request that writes is to do is a list of writes that can be read off the request. The
functions carry the list out up to the first entry that is refused.
-/

namespace Kalyke

open List

/-! ## Writes to Elements -/

/-- A write to an element. -/
inductive ElementWrite where
  | bit (e : BitElement) (n : Nat) (x : Bool)
  | word (e : WordElement) (n : Nat) (x : BitVec 16)
  | c32 (n : Nat) (x : BitVec 32)
deriving DecidableEq, Repr

namespace ElementWrite

/-- The cell that is written. -/
def cell : ElementWrite → Cell
  | bit e n _ => .bit e n
  | word e n _ => .word e n
  | c32 n _ => .c32 n

/-- The value that is written, as `Cell.read` gives it back. -/
def value : ElementWrite → BitVec 32
  | bit _ _ x => BitVec.ofNat 32 x.toNat
  | word _ _ x => x.setWidth 32
  | c32 _ x => x

def act (st : Store) : ElementWrite → Store
  | bit e n x => st.setBit (.elem e) n x
  | word e n x => st.setWord (.elem e) n x
  | c32 n x => st.setC32 n x

theorem read_act_self (w : ElementWrite) (st : Store) : w.cell.read (w.act st) = w.value := by
  cases w with
  | bit e n x =>
    change (BitArea.cell (.elem e) n).read _ = _
    rw [BitArea.read_cell, act, getBit_setBit_self]
    rfl
  | word e n x =>
    change (WordArea.cell (.elem e) n).read _ = _
    rw [WordArea.read_cell, act, getWord_setWord_self]
    rfl
  | c32 n x => exact c32_setC32_self n x

theorem read_act_other (w : ElementWrite) (st : Store) (c : Cell) (h : c ≠ w.cell) :
    c.read (w.act st) = c.read st := by
  cases w with
  | bit e n x =>
    have hne : c ≠ (BitArea.elem e).cell n := h
    exact read_setBit hne x
  | word e n x =>
    have hne : c ≠ (WordArea.elem e).cell n := h
    exact read_setWord hne x
  | c32 n x => exact read_setC32 h x

theorem rest_act (w : ElementWrite) (st : Store) : (w.act st).rest = st.rest := by
  cases w <;> rfl

def toCellWrite (w : ElementWrite) : CellWrite fun (st : Store) (c : Cell) => c.read st where
  key := w.cell
  value := w.value
  act st := w.act st
  read_self := w.read_act_self
  read_other := w.read_act_other

/-- The writes one after the other. -/
def run (ws : List ElementWrite) (st : Store) : Store := CellWrite.run (ws.map toCellWrite) st

@[simp] theorem run_nil (st : Store) : run [] st = st := rfl

@[simp] theorem run_cons (w : ElementWrite) (ws : List ElementWrite) (st : Store) :
    run (w :: ws) st = run ws (w.act st) := rfl

theorem run_append (l r : List ElementWrite) (st : Store) :
    run (l ++ r) st = run r (run l st) := by
  rw [run, map_append, CellWrite.run_append]
  rfl

theorem rest_run (ws : List ElementWrite) (st : Store) : (run ws st).rest = st.rest := by
  induction ws generalizing st with
  | nil => rfl
  | cons w ws ih => rw [run_cons, ih, rest_act]

/-- The last write to each element writes what is there. -/
def Settled (st : Store) (ws : List ElementWrite) : Prop :=
  ∀ l w r, ws = l ++ w :: r → (∀ w' ∈ r, w.cell ≠ w'.cell) → w.cell.read st = w.value

theorem settled_iff {st : Store} {ws : List ElementWrite} :
    CellWrite.Settled st (ws.map toCellWrite) ↔ Settled st ws :=
  CellWrite.settled_map_iff toCellWrite

theorem settled_run (ws : List ElementWrite) (st : Store) : Settled (run ws st) ws :=
  settled_iff.mp (CellWrite.settled_run (ws.map toCellWrite) st)

end ElementWrite

/-- Elements are told apart by their cells. -/
theorem store_eq_of_cells {st st' : Store} (hcells : ∀ c : Cell, c.read st' = c.read st)
    (hrest : st'.rest = st.rest) : st' = st := by
  have hbit : st'.bit = st.bit := by
    funext e i
    exact ofNat_toNat_inj (hcells (.bit e i))
  have hlm : st'.lm = st.lm := by
    funext k
    exact ofNat_toNat_inj (hcells (.lm k))
  have hword : st'.word = st.word := by
    funext e i
    exact setWidth_inj (hcells (.word e i))
  have hv : st'.v = st.v := by
    funext k
    exact setWidth_inj (hcells (.v k))
  have hc32 : st'.c32 = st.c32 := by
    funext i
    exact hcells (.c32 i)
  calc st' = { st'.rest with
        bit := st'.bit, lm := st'.lm, word := st'.word, v := st'.v, c32 := st'.c32 } := rfl
    _ = { st.rest with
        bit := st.bit, lm := st.lm, word := st.word, v := st.v, c32 := st.c32 } := by
      rw [hrest, hbit, hlm, hword, hv, hc32]
    _ = st := rfl

namespace ElementWrite

/-- Where no element is written twice, every write is read back. -/
theorem read_run_mem {ws : List ElementWrite} {w : ElementWrite} (hnodup : (ws.map cell).Nodup)
    (hw : w ∈ ws) (st : Store) : w.cell.read (run ws st) = w.value := by
  have hpairs : (ws.map toCellWrite).Pairwise fun w w' => w.key ≠ w'.key :=
    pairwise_map.mpr (pairwise_map.mp hnodup)
  exact CellWrite.read_run_of_pairwise hpairs (mem_map_of_mem hw) st

/-- An element that is not written keeps its value. -/
theorem read_run_of_notMem {ws : List ElementWrite} {c : Cell} (hc : c ∉ ws.map cell) (st : Store) :
    c.read (run ws st) = c.read st := by
  refine CellWrite.read_run_of_forall_ne (fun w' hw' => ?_) st
  obtain ⟨w, hw, rfl⟩ := mem_map.mp hw'
  exact fun h => hc (mem_map.mpr ⟨w, hw, h.symm⟩)

/-- Writes leave the elements as they are just if the last to each writes what is there. -/
theorem run_eq_iff {st : Store} {ws : List ElementWrite} : run ws st = st ↔ Settled st ws := by
  rw [← settled_iff, ← CellWrite.reads_run_iff]
  constructor
  · intro h c
    change c.read (run ws st) = c.read st
    rw [h]
  · intro h
    exact store_eq_of_cells h (rest_run ws st)

end ElementWrite

/-! ## Plans -/

/-- What the entries of a list come to: what is done for the entries before the first that is
refused, and whether there is none. An entry can use the next as well. -/
def planned {α : Type} (plan : Nat → Option (α × Bool)) : List Nat → Bool → List α × Bool
  | [], _ => ([], true)
  | _ :: is, true => planned plan is false
  | i :: is, false =>
    match plan i with
    | none => ([], false)
    | some (x, skip) =>
      let (xs, all) := planned plan is skip
      (x :: xs, all)

/-- Only what is planned for the entries of a list matters. -/
theorem planned_congr {α : Type} {plan plan' : Nat → Option (α × Bool)} {is : List Nat}
    (h : ∀ i ∈ is, plan' i = plan i) (skip : Bool) : planned plan' is skip = planned plan is skip := by
  induction is generalizing skip with
  | nil => rfl
  | cons i is ih =>
    have ih := ih fun j hj => h j (mem_cons_of_mem i hj)
    cases skip with
    | true => exact ih false
    | false =>
      rw [planned, planned, h i mem_cons_self]
      cases plan i with
      | none => rfl
      | some x => simp only [ih]

variable {ω : Type}

namespace Slave

variable (s : Slave ω)

/-- The writes to coils that a request plans. -/
def coilWrites (e : BitElement) (addr cnt : Nat) : List ElementWrite :=
  (range cnt).map fun i => .bit e (addr + i) (s.coilValue i != 0)

/-- The write to the `i`-th register of a block. -/
def registerWrite (r : Register) (addr i : Nat) : ElementWrite :=
  match r with
  | .word e => .word e (addr + i) (s.receiveBuff.bigPU16 (7 + 2 * i))
  | .c32 => .c32 (addr + i) (s.receiveBuff.bigPU32 (7 + 4 * i))

/-- The writes to registers that a request plans. -/
def registerWrites (r : Register) (addr cnt : Nat) : List ElementWrite :=
  (range cnt).map fun i => s.registerWrite r addr i

theorem coilStore_eq (e : BitElement) (addr cnt : Nat) :
    s.coilStore e addr cnt = ElementWrite.run (s.coilWrites e addr cnt) s.store := by
  rw [coilWrites, ElementWrite.run, CellWrite.run, map_map, foldl_map]
  rfl

theorem registerStore_eq (r : Register) (addr cnt : Nat) :
    s.registerStore r addr cnt = ElementWrite.run (s.registerWrites r addr cnt) s.store := by
  rw [registerWrites, ElementWrite.run, CellWrite.run, map_map, foldl_map]
  cases r <;> rfl

/-- What an entry of a list of bits plans. -/
def bitPlan (buff : Buff) (i : Nat) : Option (ElementWrite × Bool) :=
  match mbSlaveConvertElementInfo .bit (buff.bigPU16 (3 + 3 * i)).toNat with
  | none => none
  | some (t, n) => t.coil?.map fun e => (.bit e n (buff (5 + 3 * i) != 0), false)

/-- What an entry of a list of words plans. A counter of 32 bits uses the next entry as well. -/
def wordPlan (buff : Buff) (i : Nat) : Option (ElementWrite × Bool) :=
  match mbSlaveConvertElementInfo .word (buff.bigPU16 (3 + 4 * i)).toNat with
  | none => none
  | some (t, n) =>
    let value := buff.bigPU16 (5 + 4 * i)
    (t.register? n).map fun
      | .word e => (.word e n value, false)
      | .c32 => (.c32 (c32RealAddr n) (value ++ buff.bigPU16 (5 + 4 * (i + 1))), true)

/-- An entry carries out what it plans, and leaves the elements alone if it is refused. -/
def CarriesOut (plan : Buff → Nat → Option (ElementWrite × Bool))
    (step : Nat → Slave ω → EntryResult ω) : Prop :=
  ∀ i s, step i s = match plan s.receiveBuff i with
    | none => (s, .error .iliegalAddr)
    | some (w, skip) => ({ s with store := w.act s.store }.access [w.cell], .ok skip)

theorem writeBitEntry_carriesOut : CarriesOut bitPlan (@writeBitEntry ω) := by
  intro i s
  simp only [writeBitEntry, bitPlan, entryAddr]
  cases mbSlaveConvertElementInfo .bit (s.receiveBuff.bigPU16 (3 + 3 * i)).toNat with
  | none => rfl
  | some x =>
    obtain ⟨t, n⟩ := x
    dsimp only
    cases t.coil? <;> rfl

theorem writeWordEntry_carriesOut : CarriesOut wordPlan (@writeWordEntry ω) := by
  intro i s
  simp only [writeWordEntry, wordPlan, entryAddr]
  cases mbSlaveConvertElementInfo .word (s.receiveBuff.bigPU16 (3 + 4 * i)).toNat with
  | none => rfl
  | some x =>
    obtain ⟨t, n⟩ := x
    dsimp only
    cases t.register? n with
    | none => rfl
    | some r => cases r <;> rfl

theorem entryLoop_carriesOut {plan : Buff → Nat → Option (ElementWrite × Bool)}
    {step : Nat → Slave ω → EntryResult ω} (hstep : CarriesOut plan step) (is : List Nat)
    (skip : Bool) :
    entryLoop step is skip s =
      ({ s with
          store := ElementWrite.run (planned (plan s.receiveBuff) is skip).1 s.store
          accessed := s.accessed ++ (planned (plan s.receiveBuff) is skip).1.map ElementWrite.cell },
        if (planned (plan s.receiveBuff) is skip).2 then none else some .iliegalAddr) := by
  induction is generalizing skip s with
  | nil => simp [entryLoop, planned]
  | cons i is ih =>
    cases skip with
    | true => exact ih s false
    | false =>
      rw [entryLoop, hstep i s, planned]
      cases hplan : plan s.receiveBuff i with
      | none => simp
      | some x =>
        obtain ⟨w, skip⟩ := x
        simp only [ih, ElementWrite.run_cons, access, map_cons, append_assoc,
          singleton_append]

end Slave

/-! ## Requests -/

/-- What a request that writes elements is for. -/
inductive Writing where
  | coil | register | coils | registers | bitList | wordList
deriving DecidableEq, Repr

namespace Writing

/-- The function that carries a request out. -/
def function : Writing → MbFunction
  | coil => .writeSingleCoil
  | register => .writeRegister
  | coils => .writeMultipleCoils
  | registers => .writeMultipleRegisters
  | bitList => .writeMultipleBitElement
  | wordList => .writeMultipleWordElement

/-- The requests that are ignored when they are broadcast. -/
def IsList (w : Writing) : Prop := w = bitList ∨ w = wordList

end Writing

/-- What a request that is checked first comes to. -/
def plannedIf {α : Type} (plan : α → List ElementWrite) :
    Except MbError α → List ElementWrite × Bool
  | .error _ => ([], false)
  | .ok x => (plan x, true)

/-- What a list comes to whose number of entries is limited. -/
def plannedList (limit cnt : Nat) (plan : Nat → Option (ElementWrite × Bool)) :
    List ElementWrite × Bool :=
  if limit < cnt then ([], false) else planned plan (range cnt) false

namespace Slave

def singleWrite (x : BitVec 16) (addr : Nat) : Register → ElementWrite
  | .word e => .word e addr x
  | .c32 => .c32 addr (x.setWidth 32)

/-- What a request comes to: the writes up to the first that is refused, and whether none is. -/
def plannedWrites (s : Slave ω) : Writing → List ElementWrite × Bool
  | .coil => plannedIf (fun x => [.bit x.1 x.2.1 (x.2.2 != 0)]) s.writeCoilRequest
  | .register =>
    plannedIf (fun x => [singleWrite (s.receiveBuff.bigPU16 4) x.2 x.1]) s.writeRegisterRequest
  | .coils => plannedIf (fun x => s.coilWrites x.1 x.2.1 x.2.2) s.writeCoilsRequest
  | .registers => plannedIf (fun x => s.registerWrites x.1 x.2.1 x.2.2) s.writeRegistersRequest
  | .bitList => plannedList 0x50 s.listCnt (bitPlan s.receiveBuff)
  | .wordList => plannedList 0x3C s.listCnt (wordPlan s.receiveBuff)

/-- A request was carried out up to the first write that was refused, and answered if none was. -/
structure Performed (s t : Slave ω) (p : List ElementWrite × Bool) : Prop where
  store : t.store = ElementWrite.run p.1 s.store
  force : t.force = s.force
  accessed : t.accessed = s.accessed ++ p.1.map ElementWrite.cell
  accepted : p.2 = true → t.errorCode = s.errorCode ∧ ∃ frame, t.sent = s.sent ++ [.normal frame]
  refused : p.2 = false → t.errorCode ≠ none

variable {s : Slave ω} {m : MsgPack}

@[simp] theorem mbSlaveErrorResp_force (s : Slave ω) (m : MsgPack) (e : MbError) :
    (s.mbSlaveErrorResp m e).force = s.force := by
  unfold mbSlaveErrorResp
  split <;> rfl

theorem performed_refused {t : Slave ω} (e : MbError) (ws : List ElementWrite)
    (hstore : t.store = ElementWrite.run ws s.store) (hforce : t.force = s.force)
    (haccessed : t.accessed = s.accessed ++ ws.map ElementWrite.cell) :
    s.Performed (t.mbSlaveErrorResp m e) (ws, false) where
  store := (mbSlaveErrorResp_store t m e).trans hstore
  force := (mbSlaveErrorResp_force t m e).trans hforce
  accessed := (mbSlaveErrorResp_accessed t m e).trans haccessed
  accepted h := by cases h
  refused _ := by simp

theorem performed_accepted {t : Slave ω} (n : Nat) (ws : List ElementWrite)
    (hstore : t.store = ElementWrite.run ws s.store) (hforce : t.force = s.force)
    (haccessed : t.accessed = s.accessed ++ ws.map ElementWrite.cell)
    (hcode : t.errorCode = s.errorCode) (hsent : t.sent = s.sent) :
    s.Performed (t.respond m n []) (ws, true) where
  store := hstore
  force := hforce
  accessed := haccessed
  accepted _ := ⟨hcode, hsent ▸ respond_normal t m n []⟩
  refused h := by cases h

/-- A request is refused with nothing written. -/
theorem performed_none (s : Slave ω) (m : MsgPack) (e : MbError) :
    s.Performed (s.mbSlaveErrorResp m e) ([], false) :=
  performed_refused e [] rfl rfl (append_nil _).symm

theorem list_performed {plan : Buff → Nat → Option (ElementWrite × Bool)}
    {step : Nat → Slave ω → EntryResult ω} (hstep : CarriesOut plan step) (limit : Nat)
    (hb : ¬ m.isBroadcastInfo) :
    s.Performed
      (if m.isBroadcastInfo then s
      else if limit < s.listCnt then s.mbSlaveErrorResp m .iliegalData
      else finishList m (fun t => t.respond m 2 [])
        (entryLoop step (range s.listCnt) false s))
      (plannedList limit s.listCnt (plan s.receiveBuff)) := by
  rw [if_neg hb, plannedList]
  by_cases hcnt : limit < s.listCnt
  · rw [if_pos hcnt, if_pos hcnt]
    exact performed_none s m _
  · rw [if_neg hcnt, if_neg hcnt, entryLoop_carriesOut s hstep]
    generalize planned (plan s.receiveBuff) (range s.listCnt) false = p
    obtain ⟨ws, all⟩ := p
    cases all with
    | true => exact performed_accepted 2 ws rfl rfl rfl rfl rfl
    | false => exact performed_refused _ ws rfl rfl rfl

theorem function_performed (b : Board ω) (s : Slave ω) (m : MsgPack) (w : Writing)
    (hb : ¬ (w.IsList ∧ m.isBroadcastInfo)) :
    s.Performed (s.function b m (some w.function)) (s.plannedWrites w) := by
  cases w with
  | coil =>
    simp only [Writing.function, function, mbSlaveWriteSingleCoil, plannedWrites]
    cases s.writeCoilRequest with
    | error e => exact performed_none s m e
    | ok x => exact performed_accepted 6 _ rfl rfl rfl rfl rfl
  | register =>
    simp only [Writing.function, function, mbSlaveWriteRegister, plannedWrites]
    cases s.writeRegisterRequest with
    | error e => exact performed_none s m e
    | ok x =>
      obtain ⟨r, addr⟩ := x
      cases r <;> exact performed_accepted 6 _ rfl rfl rfl rfl rfl
  | coils =>
    simp only [function, mbSlaveWriteMultipleCoils, plannedWrites]
    cases s.writeCoilsRequest with
    | error e => exact performed_none s m e
    | ok x =>
      obtain ⟨e, addr, cnt⟩ := x
      simp only [setCoils_eq, coilStore_eq]
      refine performed_accepted 6 _ rfl rfl ?_ rfl rfl
      simp [coilWrites, ElementWrite.cell]
  | registers =>
    simp only [function, mbSlaveWriteMultipleRegisters, plannedWrites]
    cases s.writeRegistersRequest with
    | error e => exact performed_none s m e
    | ok x =>
      obtain ⟨r, addr, cnt⟩ := x
      simp only [setRegisters_eq, registerStore_eq]
      refine performed_accepted 6 _ rfl rfl ?_ rfl rfl
      cases r <;> simp [registerWrites, registerWrite, ElementWrite.cell, Register.cell]
  | bitList => exact list_performed writeBitEntry_carriesOut 0x50 fun h => hb ⟨.inl rfl, h⟩
  | wordList => exact list_performed writeWordEntry_carriesOut 0x3C fun h => hb ⟨.inr rfl, h⟩

end Slave

end Kalyke
