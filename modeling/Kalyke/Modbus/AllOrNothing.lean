-- SUMMARY: Which requests that write are carried out completely or not at all.
import Kalyke.Modbus.Forcing

/-!
# All or Nothing

A request that writes should be refused before anything is written, and carried out only if all its
data was received. Lists are written up to the first entry that is refused, and no function compares
the length received with the counts in the request.
-/

namespace Kalyke

open List BitVec Function

/-- The requests that change elements or the lists of forced elements. -/
inductive Change where
  | write (w : Writing)
  | force (kind : AddrKind)
deriving DecidableEq, Repr

/-- Whether the last entry of a list uses one behind it, which is not there. -/
def overruns {α : Type} (plan : Nat → Option (α × Bool)) : List Nat → Bool → Bool
  | [], skip => skip
  | _ :: is, true => overruns plan is false
  | i :: is, false =>
    match plan i with
    | none => false
    | some (_, skip) => overruns plan is skip

variable {ω : Type}

namespace Slave

def Asks (s : Slave ω) : Change → Prop
  | .write w => mbFunction? s.functionCode = some w.function
  | .force kind =>
    mbFunction? s.functionCode = some .ctrlFunc ∧ ctrlOp? s.subCode = some (.force kind)

/-- A frame has the length its counts imply. -/
def LengthFits (s : Slave ω) (m : MsgPack) : Change → Prop
  | .write .coil => m.len = 8
  | .write .register => m.len = 8
  | .write .coils => m.len = 9 + s.reqByteNum
  | .write .registers => m.len = 9 + s.reqByteNum ∧
      ∃ r n, RegisterAt s.reqAddr r n ∧ s.reqByteNum = r.width * s.reqCnt
  | .write .bitList => m.len = 5 + 3 * s.listCnt
  | .write .wordList => m.len = 5 + 4 * s.listCnt
  | .force kind => m.len = 6 + forceWidth kind * (s.receiveBuff 3).toNat

/-- A request was carried out: it was answered without an error. -/
def Executed (b : Board ω) (s : Slave ω) (m : MsgPack) : Prop :=
  (s.handle b m).errorCode = none ∧ ∃ frame, .normal frame ∈ (s.handle b m).sent

/-- A request that is refused changes nothing. One that is carried out has the length its counts
imply, and what it changes does not depend on bytes behind the frame. -/
structure AllOrNothing (b : Board ω) (s : Slave ω) (m : MsgPack) (c : Change) : Prop where
  refused : (s.handle b m).errorCode ≠ none →
    (s.handle b m).store = s.store ∧ (s.handle b m).force = s.force
  length : s.Executed b m → s.LengthFits m c
  within : s.Executed b m → ∀ buff : Buff, (∀ i < m.len, buff i = s.receiveBuff i) →
    ({ s with receiveBuff := buff }.handle b m).store = (s.handle b m).store ∧
      ({ s with receiveBuff := buff }.handle b m).force = (s.handle b m).force

/-- A frame is handed to its function, which does not ignore it. -/
def Reaches (s : Slave ω) (m : MsgPack) (c : Change) : Prop :=
  5 ≤ m.len ∧ s.CrcOk m ∧ ¬ s.Filtered m ∧
    ¬ (m.isBroadcastInfo ∧ (c = .write .bitList ∨ c = .write .wordList))

/-- No check and no entry refuses a request. -/
def Accepts (s : Slave ω) : Change → Prop
  | .write w => (s.plannedWrites w).2 = true
  | .force kind => (s.forcePlanned kind).2 = true

/-- What a request writes before it is refused, or ends, is there already. -/
def Unchanging (s : Slave ω) : Change → Prop
  | .write w => ElementWrite.Settled s.store (s.plannedWrites w).1
  | .force kind => ForceSettled (s.force kind) (s.forcePlanned kind).1

/-- A frame has the length its counts imply, and the last entry of a list of words is not a counter
of 32 bits, whose low half would be in another entry. -/
def FitsFrame (s : Slave ω) (m : MsgPack) (c : Change) : Prop :=
  s.LengthFits m c ∧ (c = .write .wordList →
    overruns (wordPlan s.receiveBuff) (range s.listCnt) false = false)

/-! ## What a Request Changes -/

/-- The elements after a request. -/
def changedStore (s : Slave ω) : Change → Store
  | .write w => ElementWrite.run (s.plannedWrites w).1 s.store
  | .force _ => s.store

def changedForce (s : Slave ω) : Change → AddrKind → List ListedElement
  | .write _ => s.force
  | .force kind => update s.force kind (s.forcedList kind (s.forcePlanned kind).1)

variable {b : Board ω} {s : Slave ω} {m : MsgPack} {c : Change}

/-- What becomes of a frame that is handed to its function. -/
structure Changed (b : Board ω) (s : Slave ω) (m : MsgPack) (c : Change) : Prop where
  store : (s.handle b m).store = s.changedStore c
  force : (s.handle b m).force = s.changedForce c
  executed : s.Executed b m ↔ s.Accepts c
  refused : (s.handle b m).errorCode ≠ none ↔ ¬ s.Accepts c

theorem plannedWrites_fresh (s : Slave ω) (w : Writing) :
    s.fresh.plannedWrites w = s.plannedWrites w := by
  cases w <;> rfl

/-- A request to write elements is carried out. -/
theorem performed_of_reaches {w : Writing} (hreach : s.Reaches m (.write w))
    (hask : s.Asks (.write w)) : s.fresh.Performed (s.handle b m) (s.plannedWrites w) := by
  obtain ⟨hlen, hcrc, hfilter, hlist⟩ := hreach
  have hb : ¬ (w.IsList ∧ m.isBroadcastInfo) := by
    rintro ⟨rfl | rfl, hb⟩ <;> exact hlist ⟨hb, by simp⟩
  rw [handle_passed (Nat.not_lt.mpr hlen) hcrc hfilter, hask, ← plannedWrites_fresh]
  exact function_performed b s.fresh m w hb

theorem changed_of_reaches (hreach : s.Reaches m c) (hask : s.Asks c) : s.Changed b m c := by
  have hends {t : Slave ω} {all : Bool} (ht : s.handle b m = t)
      (hok : all = true → t.errorCode = none ∧ ∃ frame, t.sent = [.normal frame])
      (herr : all = false → t.errorCode ≠ none) :
      (s.Executed b m ↔ all = true) ∧ ((s.handle b m).errorCode ≠ none ↔ ¬ all = true) := by
    rw [Executed, ht]
    cases all with
    | true =>
      obtain ⟨hcode, frame, hsent⟩ := hok rfl
      exact ⟨iff_of_true ⟨hcode, frame, by simp [hsent]⟩ rfl, by simp [hcode]⟩
    | false => exact ⟨iff_of_false (fun h => herr rfl h.1) (by simp), by simpa using herr rfl⟩
  cases c with
  | write w =>
    obtain ⟨hstore, hforce, -, hok, herr⟩ := performed_of_reaches (b := b) hreach hask
    obtain ⟨hexec, hrefused⟩ := hends rfl hok herr
    exact ⟨hstore, hforce, hexec, hrefused⟩
  | force kind =>
    obtain ⟨hlen, hcrc, hfilter, -⟩ := hreach
    obtain ⟨hcode, hop⟩ := hask
    have hhandle := handle_passed (b := b) (Nat.not_lt.mpr hlen) hcrc hfilter
    have hmanage : s.fresh.function b m (some .ctrlFunc) =
        s.fresh.ctrlCase b m (some (.force kind)) := congrArg (s.fresh.ctrlCase b m) hop
    rw [hcode, hmanage] at hhandle
    obtain ⟨hstore, hforce, hok, herr⟩ := ctrlCase_forced b s.fresh m kind
    obtain ⟨hexec, hrefused⟩ := hends hhandle hok herr
    exact ⟨hhandle ▸ hstore, hhandle ▸ hforce, hexec, hrefused⟩

/-- A request leaves everything as it is just if it writes what is there. -/
theorem unchanged_iff :
    s.changedStore c = s.store ∧ s.changedForce c = s.force ↔ s.Unchanging c := by
  cases c with
  | write w => exact (and_iff_left rfl).trans ElementWrite.run_eq_iff
  | force kind =>
    refine (and_iff_right rfl).trans (Iff.trans ?_ forcedList_eq_iff)
    exact update_eq_self_iff

/-! ## Bytes Behind the Frame -/

theorem bigPU16_congr {buff buff' : Buff} {i len : Nat} (h : ∀ i < len, buff' i = buff i)
    (hi : i + 1 < len) : buff'.bigPU16 i = buff.bigPU16 i := by
  rw [Buff.bigPU16, Buff.bigPU16, h i (by omega), h (i + 1) hi]

/-- What an entry of a list of words plans is decided by its address. -/
theorem wordPlan_cases (a : BitVec 16) (i : Nat) :
    (∀ buff : Buff, buff.bigPU16 (3 + 4 * i) = a → wordPlan buff i = none) ∨
    (∃ e n, ∀ buff : Buff, buff.bigPU16 (3 + 4 * i) = a →
      wordPlan buff i = some (.word e n (buff.bigPU16 (5 + 4 * i)), false)) ∨
    ∃ n, ∀ buff : Buff, buff.bigPU16 (3 + 4 * i) = a → wordPlan buff i =
      some (.c32 n (buff.bigPU16 (5 + 4 * i) ++ buff.bigPU16 (5 + 4 * (i + 1))), true) := by
  cases hconv : mbSlaveConvertElementInfo .word a.toNat with
  | none => exact .inl fun buff h => by simp [wordPlan, h, hconv]
  | some x =>
    obtain ⟨t, n⟩ := x
    cases hr : t.register? n with
    | none => exact .inl fun buff h => by simp [wordPlan, h, hconv, hr]
    | some r =>
      cases r with
      | word e => exact .inr (.inl ⟨e, n, fun buff h => by simp [wordPlan, h, hconv, hr]⟩)
      | c32 => exact .inr (.inr ⟨c32RealAddr n, fun buff h => by simp [wordPlan, h, hconv, hr]⟩)

/-- A list of words that does not overrun is decided by its own bytes. -/
theorem planned_words_congr {buff buff' : Buff} {k n : Nat} {skip : Bool}
    (h : ∀ i < 3 + 4 * (k + n), buff' i = buff i)
    (hover : overruns (wordPlan buff) (range' k n) skip = false) :
    planned (wordPlan buff') (range' k n) skip =
      planned (wordPlan buff) (range' k n) skip := by
  induction n generalizing k skip with
  | zero => rfl
  | succ n ih =>
    have hnext : ∀ i < 3 + 4 * (k + 1 + n), buff' i = buff i := fun i hi => h i (by omega)
    have haddr := bigPU16_congr (i := 3 + 4 * k) h (by omega)
    have hvalue := bigPU16_congr (i := 5 + 4 * k) h (by omega)
    rw [range'_succ] at hover ⊢
    cases skip with
    | true => exact ih hnext hover
    | false =>
      rcases wordPlan_cases (buff.bigPU16 (3 + 4 * k)) k with hp | ⟨e, a, hp⟩ | ⟨a, hp⟩
      · rw [planned, planned, hp buff' haddr, hp buff rfl]
      · rw [overruns, hp buff rfl] at hover
        rw [planned, planned, hp buff' haddr, hp buff rfl, hvalue]
        simp only [ih hnext hover]
      · rw [overruns, hp buff rfl] at hover
        cases n with
        | zero => cases hover
        | succ n =>
          have hlow := bigPU16_congr (i := 5 + 4 * (k + 1)) h (by omega)
          rw [planned, planned, hp buff' haddr, hp buff rfl, hvalue, hlow]
          simp only [ih hnext hover]

/-- A list of words that overruns ends with a counter whose low half is behind the list. -/
theorem planned_words_overrun {buff : Buff} {k n : Nat} {skip : Bool}
    (hskip : skip = true → n ≠ 0)
    (hover : overruns (wordPlan buff) (range' k n) skip = true) :
    ∃ ws a, ∃ hi : BitVec 16, ∀ buff' : Buff, (∀ i < 3 + 4 * (k + n), buff' i = buff i) →
      planned (wordPlan buff') (range' k n) skip =
        (ws ++ [.c32 a (hi ++ buff'.bigPU16 (5 + 4 * (k + n)))], true) := by
  induction n generalizing k skip with
  | zero =>
    cases skip with
    | true => exact absurd rfl (hskip rfl)
    | false => cases hover
  | succ n ih =>
    have hsum : k + 1 + n = k + (n + 1) := by omega
    rw [range'_succ] at hover ⊢
    cases skip with
    | true =>
      obtain ⟨ws, a, hi, hws⟩ := ih (by simp) hover
      rw [hsum] at hws
      exact ⟨ws, a, hi, hws⟩
    | false =>
      rcases wordPlan_cases (buff.bigPU16 (3 + 4 * k)) k with hp | ⟨e, a, hp⟩ | ⟨a, hp⟩
      · rw [overruns, hp buff rfl] at hover
        cases hover
      · rw [overruns, hp buff rfl] at hover
        obtain ⟨ws, a', hi, hws⟩ := ih (by simp) hover
        rw [hsum] at hws
        refine ⟨.word e a (buff.bigPU16 (5 + 4 * k)) :: ws, a', hi, fun buff' h => ?_⟩
        rw [planned, hp buff' (bigPU16_congr h (by omega)), bigPU16_congr h (by omega)]
        simp only [hws buff' h, List.cons_append]
      · rw [overruns, hp buff rfl] at hover
        cases n with
        | zero =>
          refine ⟨[], a, buff.bigPU16 (5 + 4 * k), fun buff' h => ?_⟩
          rw [planned, hp buff' (bigPU16_congr h (by omega)),
            bigPU16_congr (i := 5 + 4 * k) h (by omega)]
          rfl
        | succ n =>
          obtain ⟨ws, a', hi, hws⟩ := ih (by simp) hover
          rw [hsum] at hws
          refine ⟨.c32 a (buff.bigPU16 (5 + 4 * k) ++ buff.bigPU16 (5 + 4 * (k + 1))) :: ws, a', hi,
            fun buff' h => ?_⟩
          rw [planned, hp buff' (bigPU16_congr h (by omega)),
            bigPU16_congr (i := 5 + 4 * k) h (by omega),
            bigPU16_congr (i := 5 + 4 * (k + 1)) h (by omega)]
          simp only [hws buff' h, List.cons_append]

/-- A state that has received other bytes. -/
def withReceiveBuff (s : Slave ω) (buff : Buff) : Slave ω := { s with receiveBuff := buff }

section Received

variable {buff : Buff}

theorem asks_withReceiveBuff (hlen : 5 ≤ m.len) (h : ∀ i < m.len, buff i = s.receiveBuff i) :
    (s.withReceiveBuff buff).Asks c ↔ s.Asks c := by
  have hcode : (s.withReceiveBuff buff).functionCode = s.functionCode := h 1 (by omega)
  have hsub : (s.withReceiveBuff buff).subCode = s.subCode := h 2 (by omega)
  cases c <;> simp only [Asks, hcode, hsub]

theorem reaches_withReceiveBuff (h : ∀ i < m.len, buff i = s.receiveBuff i)
    (hreach : s.Reaches m c) :
    (s.withReceiveBuff buff).Reaches m c := by
  obtain ⟨hlen, hcrc, hfilter, hlist⟩ := hreach
  refine ⟨hlen, ?_, fun hf => hfilter ⟨hf.1, ?_, ?_⟩, hlist⟩
  · have hbytes : buff.bytes (m.len - 2) = s.receiveBuff.bytes (m.len - 2) :=
      Buff.bytes_congr fun i hi => h i (by omega)
    have hlow := h (m.len - 2) (by omega)
    have hhigh := h (m.len - 2 + 1) (by omega)
    unfold CrcOk Buff.nativePU16 at hcrc ⊢
    change buff (m.len - 2 + 1) ++ buff (m.len - 2) = calcCrc16 (buff.bytes (m.len - 2))
    rw [hbytes, hlow, hhigh, hcrc]
  · exact (h 1 (by omega)).symm.trans_ne hf.2.1
  · exact (h 3 (by omega)).symm.trans_ne hf.2.2

theorem plannedWrites_withReceiveBuff {w : Writing} (h : ∀ i < m.len, buff i = s.receiveBuff i)
    (hfits : s.FitsFrame m (.write w)) :
    (s.withReceiveBuff buff).plannedWrites w = s.plannedWrites w := by
  obtain ⟨hlen, hover⟩ := hfits
  have hword {i : Nat} (hi : i + 1 < m.len) : buff.bigPU16 i = s.receiveBuff.bigPU16 i :=
    bigPU16_congr h hi
  cases w with
  | coil =>
    have hlen : m.len = 8 := hlen
    simp only [plannedWrites, writeCoilRequest, reqAddr, withReceiveBuff,
      hword (i := 2) (by omega), hword (i := 4) (by omega)]
  | register =>
    have hlen : m.len = 8 := hlen
    simp only [plannedWrites, writeRegisterRequest, reqAddr, withReceiveBuff,
      hword (i := 2) (by omega), hword (i := 4) (by omega)]
  | coils =>
    have hlen : m.len = 9 + s.reqByteNum := hlen
    have haddr : (s.withReceiveBuff buff).reqAddr = s.reqAddr :=
      congrArg BitVec.toNat (hword (i := 2) (by omega))
    have hcnt : (s.withReceiveBuff buff).reqCnt = s.reqCnt :=
      congrArg BitVec.toNat (hword (i := 4) (by omega))
    have hnum : (s.withReceiveBuff buff).reqByteNum = s.reqByteNum :=
      congrArg BitVec.toNat (h 6 (by omega))
    have hreq : (s.withReceiveBuff buff).writeCoilsRequest = s.writeCoilsRequest := by
      unfold writeCoilsRequest
      dsimp only
      rw [haddr, hcnt, hnum]
    simp only [plannedWrites, hreq]
    cases hok : s.writeCoilsRequest with
    | error e => rfl
    | ok x =>
      obtain ⟨e, addr, cnt⟩ := x
      obtain ⟨hbytes, -, -, hcnt, -⟩ := writeCoilsRequest_eq_ok_iff.mp hok
      simp only [plannedIf, coilWrites, Prod.mk.injEq, and_true]
      refine map_congr_left fun i hi => ?_
      have hi := mem_range.mp hi
      have hvalue : (s.withReceiveBuff buff).coilValue i = s.coilValue i := by
        simp only [coilValue, withReceiveBuff, h (7 + i / 8) (by omega)]
      rw [hvalue]
  | registers =>
    obtain ⟨hlen, r, n, hat, hwidth⟩ := hlen
    have haddr : (s.withReceiveBuff buff).reqAddr = s.reqAddr :=
      congrArg BitVec.toNat (hword (i := 2) (by omega))
    have hcnt : (s.withReceiveBuff buff).reqCnt = s.reqCnt :=
      congrArg BitVec.toNat (hword (i := 4) (by omega))
    have hnum : (s.withReceiveBuff buff).reqByteNum = s.reqByteNum :=
      congrArg BitVec.toNat (h 6 (by omega))
    have hreq : (s.withReceiveBuff buff).writeRegistersRequest = s.writeRegistersRequest := by
      unfold writeRegistersRequest
      dsimp only
      rw [haddr, hcnt, hnum]
    simp only [plannedWrites, hreq]
    cases hok : s.writeRegistersRequest with
    | error e => rfl
    | ok x =>
      obtain ⟨r', addr, cnt⟩ := x
      obtain ⟨-, -, -, hcnt, hat', -⟩ := writeRegistersRequest_eq_ok_iff.mp hok
      obtain ⟨rfl, rfl⟩ := hat.unique hat'
      simp only [plannedIf, registerWrites, Prod.mk.injEq, and_true]
      refine map_congr_left fun i hi => ?_
      have hi := mem_range.mp hi
      cases r' with
      | word e =>
        simp only [Register.width] at hwidth
        simp only [registerWrite, withReceiveBuff, hword (i := 7 + 2 * i) (by omega)]
      | c32 =>
        simp only [Register.width] at hwidth
        simp only [registerWrite, withReceiveBuff, Buff.bigPU32, hword (i := 7 + 4 * i) (by omega),
          hword (i := 7 + 4 * i + 2) (by omega)]
  | bitList =>
    have hlen : m.len = 5 + 3 * s.listCnt := hlen
    have hcnt : (s.withReceiveBuff buff).listCnt = s.listCnt :=
      congrArg BitVec.toNat (h 2 (by omega))
    simp only [plannedWrites, plannedList, hcnt]
    split_ifs
    · rfl
    · refine planned_congr (fun i hi => ?_) false
      have hi := mem_range.mp hi
      simp only [bitPlan, withReceiveBuff, hword (i := 3 + 3 * i) (by omega),
        h (5 + 3 * i) (by omega)]
  | wordList =>
    have hlen : m.len = 5 + 4 * s.listCnt := hlen
    have hcnt : (s.withReceiveBuff buff).listCnt = s.listCnt :=
      congrArg BitVec.toNat (h 2 (by omega))
    simp only [plannedWrites, plannedList, hcnt]
    split_ifs
    · rfl
    · have hover := hover rfl
      rw [range_eq_range'] at hover ⊢
      exact planned_words_congr (fun i hi => h i (by omega)) hover

theorem forcePlanned_withReceiveBuff {kind : AddrKind} (h : ∀ i < m.len, buff i = s.receiveBuff i)
    (hfits : s.LengthFits m (.force kind)) :
    (s.withReceiveBuff buff).forcePlanned kind = s.forcePlanned kind := by
  have hlen : m.len = 6 + forceWidth kind * (s.receiveBuff 3).toNat := hfits
  have hcnt : (s.withReceiveBuff buff).receiveBuff 3 = s.receiveBuff 3 := h 3 (by omega)
  rw [forcePlanned, hcnt]
  refine planned_congr (fun i hi => ?_) false
  have hi : i + 1 ≤ (s.receiveBuff 3).toNat := mem_range.mp hi
  have hwidth := Nat.mul_le_mul_left (forceWidth kind) hi
  have haddr : (s.withReceiveBuff buff).forceAddr kind i = s.forceAddr kind i := by
    refine bigPU16_congr h ?_
    cases kind <;> simp only [forceWidth] at hlen hwidth ⊢ <;> omega
  have hvalue : (s.withReceiveBuff buff).forceValue kind i = s.forceValue kind i := by
    cases kind with
    | bit =>
      simp only [forceWidth] at hlen hwidth
      exact congrArg (setWidth 16) (h (4 + 3 * i + 2) (by omega))
    | word =>
      simp only [forceWidth] at hlen hwidth
      exact bigPU16_congr h (by omega)
  unfold forcePlan
  rw [haddr, hvalue]
  rfl

/-- What a request of the right length changes is decided by the frame. -/
theorem changed_withReceiveBuff (h : ∀ i < m.len, buff i = s.receiveBuff i)
    (hfits : s.FitsFrame m c) :
    (s.withReceiveBuff buff).changedStore c = s.changedStore c ∧
      (s.withReceiveBuff buff).changedForce c = s.changedForce c := by
  cases c with
  | write w =>
    refine ⟨?_, rfl⟩
    rw [changedStore, plannedWrites_withReceiveBuff h hfits]
    rfl
  | force kind =>
    refine ⟨rfl, ?_⟩
    rw [changedForce, forcePlanned_withReceiveBuff h hfits.1]
    rfl

end Received

/-! ## All or Nothing -/

/-- A request of the right length that is accepted, but whose last entry overruns the list, gets
some of its data from behind the frame. -/
theorem overrun_beyond (haccept : s.Accepts (.write .wordList))
    (hlen : s.LengthFits m (.write .wordList))
    (hover : overruns (wordPlan s.receiveBuff) (range s.listCnt) false = true) :
    ∃ buff : Buff, (∀ i < m.len, buff i = s.receiveBuff i) ∧
      (s.withReceiveBuff buff).changedStore (.write .wordList) ≠
        s.changedStore (.write .wordList) := by
  have hlen : m.len = 5 + 4 * s.listCnt := hlen
  rw [range_eq_range'] at hover
  obtain ⟨ws, a, hi, hws⟩ := planned_words_overrun (by simp) hover
  rw [Nat.zero_add] at hws
  let low := 5 + 4 * s.listCnt
  let buff : Buff := s.receiveBuff.put low (~~~ s.receiveBuff low)
  have hframe : ∀ i < m.len, buff i = s.receiveBuff i := by
    intro i hi
    have hne : i ≠ low := by omega
    exact update_of_ne hne _ _
  refine ⟨buff, hframe, fun heq => ?_⟩
  have hcnt : (s.withReceiveBuff buff).listCnt = s.listCnt :=
    congrArg BitVec.toNat (hframe 2 (by omega))
  have hle : ¬ 0x3C < s.listCnt := by
    intro hlt
    simp [Accepts, plannedWrites, plannedList, hlt] at haccept
  -- the counter that is written last has the halves of the two buffers
  have hread (buff' : Buff) (h : ∀ i < m.len, buff' i = s.receiveBuff i)
      (hc : (s.withReceiveBuff buff').listCnt = s.listCnt) :
      (Cell.c32 a).read ((s.withReceiveBuff buff').changedStore (.write .wordList)) =
        hi ++ buff'.bigPU16 low := by
    have hp : (s.withReceiveBuff buff').plannedWrites .wordList =
        (ws ++ [.c32 a (hi ++ buff'.bigPU16 low)], true) := by
      rw [plannedWrites, plannedList, hc, if_neg hle, range_eq_range']
      exact hws buff' fun i hi => h i (by omega)
    rw [changedStore, hp, ElementWrite.run_append]
    exact ElementWrite.read_act_self (.c32 a (hi ++ buff'.bigPU16 low)) _
  have hsame : hi ++ buff.bigPU16 low = hi ++ s.receiveBuff.bigPU16 low := by
    rw [← hread buff hframe hcnt, ← hread s.receiveBuff (fun _ _ => rfl) rfl, heq]
    rfl
  have hlow : buff.bigPU16 low = s.receiveBuff.bigPU16 low := by
    have := congrArg (extractLsb' 0 16) hsame
    rwa [extractLsb'_append_eq_right, extractLsb'_append_eq_right] at this
  have hbyte : buff low = s.receiveBuff low := by
    have := congrArg (extractLsb' 8 8) hlow
    rwa [Buff.bigPU16, Buff.bigPU16, extractLsb'_append_eq_left,
      extractLsb'_append_eq_left] at this
  have hflip : ∀ x : Byte, ~~~x ≠ x := by decide
  have hput : buff low = ~~~ s.receiveBuff low := update_self ..
  exact hflip _ (hput.symm.trans hbyte)

/-- A frame that is not handed to its function, or is ignored, changes nothing. -/
theorem handle_ignored (hreach : ¬ s.Reaches m c) (hask : s.Asks c) :
    (s.handle b m).store = s.store ∧ (s.handle b m).force = s.force ∧ ¬ s.Executed b m := by
  have hfresh (h : s.handle b m = s.fresh) :
      (s.handle b m).store = s.store ∧ (s.handle b m).force = s.force ∧ ¬ s.Executed b m := by
    rw [Executed, h]
    refine ⟨rfl, rfl, ?_⟩
    rintro ⟨-, frame, hsent⟩
    cases hsent
  by_cases hlen : m.len < 5
  · exact hfresh (handle_short hlen)
  by_cases hcrc : s.CrcOk m
  swap
  · rw [Executed, handle_badCrc hlen hcrc]
    exact ⟨mbSlaveErrorResp_store _ m _, mbSlaveErrorResp_force _ m _, fun h => by simp at h⟩
  by_cases hfilter : s.Filtered m
  · exact hfresh (handle_filtered hlen hcrc hfilter)
  · have hlist : m.isBroadcastInfo ∧ (c = .write .bitList ∨ c = .write .wordList) := by
      by_contra hnot
      exact hreach ⟨Nat.not_lt.mp hlen, hcrc, hfilter, hnot⟩
    obtain ⟨hb, rfl | rfl⟩ := hlist
    · refine hfresh ((handle_passed hlen hcrc hfilter).trans ?_)
      rw [hask]
      exact if_pos hb
    · refine hfresh ((handle_passed hlen hcrc hfilter).trans ?_)
      rw [hask]
      exact if_pos hb

/-- A request that writes is carried out completely or not at all if it is ignored, if all it
writes before it is refused is there already, or if it is accepted and has the right length. -/
theorem allOrNothing_iff (b : Board ω) (s : Slave ω) (m : MsgPack) (c : Change) (hask : s.Asks c) :
    s.AllOrNothing b m c ↔
      (s.Reaches m c → (¬ s.Accepts c → s.Unchanging c) ∧ (s.Accepts c → s.FitsFrame m c)) := by
  by_cases hreach : s.Reaches m c
  swap
  · obtain ⟨hstore, hforce, hexec⟩ := handle_ignored (b := b) hreach hask
    exact iff_of_true ⟨fun _ => ⟨hstore, hforce⟩, fun h => absurd h hexec, fun h => absurd h hexec⟩
      fun h => absurd h hreach
  have h : s.Changed b m c := changed_of_reaches hreach hask
  have hother {buff : Buff} (hbuff : ∀ i < m.len, buff i = s.receiveBuff i) :
      (s.withReceiveBuff buff).Changed b m c :=
    changed_of_reaches (reaches_withReceiveBuff hbuff hreach)
      ((asks_withReceiveBuff hreach.1 hbuff).mpr hask)
  constructor
  · rintro ⟨hrefused, hlength, hwithin⟩ -
    refine ⟨fun hacc => ?_, fun hacc => ?_⟩
    · obtain ⟨hstore, hforce⟩ := hrefused (h.refused.mpr hacc)
      exact unchanged_iff.mp ⟨h.store.symm.trans hstore, h.force.symm.trans hforce⟩
    · have hexec := h.executed.mpr hacc
      refine ⟨hlength hexec, ?_⟩
      rintro rfl
      by_contra hover
      obtain ⟨buff, hbuff, hne⟩ := overrun_beyond hacc (hlength hexec) (by simpa using hover)
      exact hne ((hother hbuff).store.symm.trans ((hwithin hexec buff hbuff).1.trans h.store))
  · intro hcond
    obtain ⟨hun, hfit⟩ := hcond hreach
    refine ⟨fun herr => ?_, fun hexec => (hfit (h.executed.mp hexec)).1, fun hexec buff hbuff => ?_⟩
    · obtain ⟨hstore, hforce⟩ := unchanged_iff.mpr (hun (h.refused.mp herr))
      exact ⟨h.store.trans hstore, h.force.trans hforce⟩
    · obtain ⟨hstore, hforce⟩ := changed_withReceiveBuff hbuff (hfit (h.executed.mp hexec))
      exact ⟨(hother hbuff).store.trans (hstore.trans h.store.symm),
        (hother hbuff).force.trans (hforce.trans h.force.symm)⟩

/-- The request to set `D0` is carried out completely. -/
theorem allOrNothing_d0 :
    (idle [1, 6, 0, 0, 0, 5, 0x49, 0xC9]).AllOrNothing idleBoard (comMsg 8) (.write .register) := by
  refine (allOrNothing_iff _ _ _ _ (by unfold Asks; decide)).mpr fun _ =>
    ⟨fun h => absurd ?_ h, fun _ => ?_⟩
  · unfold Accepts
    decide
  · refine ⟨rfl, fun h => ?_⟩
    cases h

/-- The request to set `Y0` and a bit that is not mapped is refused with `Y0` set. -/
theorem y0_left_set : ¬ ∀ (s : Slave Unit) (m : MsgPack) (c : Change), s.Asks c →
    s.AllOrNothing idleBoard m c := by
  intro h
  have hall := h (idle [1, 0x66, 2, 0, 0, 1, 0xFF, 0xFF, 1, 0x13, 0x5E]) (comMsg 11)
    (.write .bitList) (by unfold Asks; decide)
  have hset : ((idle [1, 0x66, 2, 0, 0, 1, 0xFF, 0xFF, 1, 0x13, 0x5E]).handle idleBoard
      (comMsg 11)).store.bit .Y 0 = true := by decide
  obtain ⟨hstore, -⟩ := hall.refused (by decide)
  rw [hstore] at hset
  cases hset

end Slave

end Kalyke
