-- SUMMARY: How often `MODBUS` and `MODRW` send while the power flow stays on, and what `MODBUS` sends.
import Kalyke.Lib.RisingEdge
import Kalyke.Master.ModrwIns

/-!
# Requests per Rising Edge

A master instruction is called once in each scan. Between the calls the elements, the flags of the
port and its driver change as they like; the edge memory of the instruction is its own.

`MODRW` sets its edge memory when it sends. `MODBUS` does not: the next call that gets past the
checks of the port sets it, if that call still finds the driver at work. If the exchange is over by
then, it sends again. So what holds of `MODBUS` depends on that call, and for the bytes it sends on
the element number and the byte count, which are kept in a `short` and in a byte.
-/

namespace Kalyke

open Option

/-- The instructions that send a request per rising edge. -/
inductive MasterIns where
  | modbus | modrw
deriving DecidableEq, Repr

/-- A call of a master instruction: what it is run on, the idle drivers, and what the memory in
front of the elements, the send buffer and a variable that is not set happen to hold. -/
structure MasterScan where
  i : BodyInput
  free : Nat → Bool
  inFront : InFront
  left : Buff
  stale : BitVec 16

def MasterScan.flow (x : MasterScan) : Bool := getPowerFlow x.i.inPF

namespace MasterIns

variable (ins : MasterIns) (ports : UartPorts) (x : MasterScan)

/-- The call; none if it does not return. -/
def run : Option MasterResult :=
  match ins with
  | modbus => some (runCiModbusIns ports x.free x.inFront x.i)
  | modrw => runCiModrwIns ports x.free x.inFront x.left x.stale x.i

/-- The request that a call sends. -/
def request : Option MasterRequest := (ins.run ports x).bind MasterResult.request

def sends : Bool := (ins.request ports x).isSome

/-- The edge number of the instruction at an address. -/
def edge (u : Ucode) (p : Nat) : Nat :=
  match ins with
  | modbus => u.getPU16 (p + 14)
  | modrw => u.getPU16 (p + 26)

end MasterIns

/-- A call gets past the checks of the port. -/
def opens (ports : UartPorts) (i : BodyInput) : Bool :=
  match openPort ports i with
  | .ok _ => true
  | .error _ => false

/-- The elements between two calls, and whether a request is fresh: the last call past the checks of
the port has sent it, and the power flow has been on since. -/
structure MasterState where
  store : Store
  fresh : Bool

/-- The state after a call. -/
def MasterIns.next (ins : MasterIns) (ports : UartPorts) (t : MasterState) (x : MasterScan) :
    MasterState where
  store := (ins.run ports x).elim t.store MasterResult.store
  fresh := x.flow && (ins.sends ports x || t.fresh && !opens ports x.i)

/-- What may happen between two calls: anything but to the edge memory. -/
structure KeepsEdge (edge : Nat) (t t' : MasterState) : Prop where
  value : t'.store.edgeValue edge = t.store.edgeValue edge
  init : t'.store.edgeInit edge = t.store.edgeInit edge
  fresh : t'.fresh = t.fresh

/-- A call of the instruction at an address, which returns. -/
structure IsCall (ins : MasterIns) (ports : UartPorts) (u : Ucode) (p : Nat) (t : MasterState)
    (x : MasterScan) : Prop where
  ucode : x.i.ucode = u
  pc : x.i.pc = p
  store : x.i.store = t.store
  returns : (ins.run ports x).isSome = true

/-! ## What Is Sent -/

/-- The functions whose requests have a byte count. -/
def HasByteCount (func : BitVec 16) : Prop := func &&& 0xFF = 0x0F ∨ func &&& 0xFF = 0x10

instance (func : BitVec 16) : Decidable (HasByteCount func) := inferInstanceAs (Decidable (_ ∨ _))

/-- The bytes of `MODBUS` come from elements of the operand's class, as many as the function asks
for, and are followed by their checksum. -/
def TakenFromElements (i : BodyInput) (frame : List Byte) : Prop :=
  ∃ area indexed length,
    (AddrType.ofCode (i.ucode.getPU8 (i.pc + 7))).bind (masterOperand i.level) =
      some (area, indexed) ∧
    let start := elementIndex (operandStart i.ucode (i.pc + 6) i.store indexed)
    let word (k : Nat) : BitVec 16 := i.store.getWord area (start + k)
    (length = if HasByteCount (word 1) then 7 + (loByte (word 6)).toNat else 6) ∧
    (∀ k < length, start + k < area.rang) ∧
    frame = withCrc ((List.range length).map fun k => loByte (word k))

/-- At most one request is sent per rising edge, and the requests of `MODBUS` are as laid out. -/
def SendsRight (ins : MasterIns) (ports : UartPorts) (xs : List MasterScan) : Prop :=
  OncePerEdge MasterScan.flow (ins.sends ports) xs ∧
    (ins = .modbus → ∀ x ∈ xs, ∀ q, ins.request ports x = some q → TakenFromElements x.i q.frame)

/-! ## When It Goes Right -/

/-- The call takes the branch of `MODBUS` that sends. -/
def EntersSend (ports : UartPorts) (x : MasterScan) : Prop :=
  let edge := x.i.ucode.getPU16 (x.i.pc + 14)
  x.flow = true ∧ (initEdge edge x.i.store).edgeValue edge = false ∧
    ∃ n, openPort ports x.i = .ok n ∧ x.free n = true

/-- The element number fits into a `short`, and the number of bytes into a byte. -/
def FitsOperand (x : MasterScan) : Prop :=
  ∀ area start, modbusElement x.i 6 = .ok (area, start) →
    let word (k : Nat) : BitVec 16 := wordAt x.inFront x.i.store area (start + k)
    0 ≤ start ∧ (HasByteCount (word 1) → (loByte (word 6)).toNat ≤ 248)

/-- The condition on a call of `MODBUS`; none on one of `MODRW`. -/
def MasterIns.Fits (ins : MasterIns) (ports : UartPorts) (t : MasterState) (x : MasterScan) : Prop :=
  ins = .modbus →
    (t.fresh = true → x.flow = true → ∀ n, openPort ports x.i = .ok n → x.free n = false) ∧
      (EntersSend ports x → FitsOperand x)

/-! ## The Edge Memory -/

section

variable {ins : MasterIns} {ports : UartPorts} {u : Ucode} {p : Nat} {t t' : MasterState}
  {x : MasterScan}

/-- The instruction does not send again before the power flow has been off. -/
def MasterIns.Blocked (ins : MasterIns) (edge : Nat) (t : MasterState) : Prop :=
  t.store.edgeInit edge = false ∧
    (t.store.edgeValue edge = true ∨ ins = .modbus ∧ t.fresh = true)

theorem MasterIns.Blocked.keepsEdge {edge : Nat} (h : ins.Blocked edge t) (hk : KeepsEdge edge t t') :
    ins.Blocked edge t' := by
  unfold MasterIns.Blocked
  rw [hk.init, hk.value, hk.fresh]
  exact h

theorem sends_iff {r : MasterResult} (h : ins.run ports x = some r) :
    ins.sends ports x = true ↔ r.request ≠ none := by
  rw [MasterIns.sends, MasterIns.request, h, bind_some, isSome_iff_ne_none]

theorem next_store {r : MasterResult} (h : ins.run ports x = some r) :
    (ins.next ports t x).store = r.store := by
  rw [MasterIns.next, h]
  rfl

theorem modbus_blocked (hc : IsCall .modbus ports u p t x) (hfits : MasterIns.Fits .modbus ports t x)
    (hb : MasterIns.Blocked .modbus (u.getPU16 (p + 14)) t) (hflow : x.flow = true) :
    MasterIns.sends .modbus ports x = false ∧
      MasterIns.Blocked .modbus (u.getPU16 (p + 14)) (MasterIns.next .modbus ports t x) := by
  obtain ⟨rfl, rfl, hstore, -⟩ := hc
  obtain ⟨hinit, hset⟩ := hb
  rw [← hstore] at hinit hset
  obtain ⟨r, hr⟩ : ∃ r, runCiModbusIns ports x.free x.inFront x.i = r := ⟨_, rfl⟩
  have hrun : MasterIns.run .modbus ports x = some r := congrArg some hr
  have hpf : getPowerFlow x.i.inPF = true := hflow
  have hsends : r.request = none → MasterIns.sends .modbus ports x = false := by
    intro hno
    rw [MasterIns.sends, MasterIns.request, hrun, bind_some, hno, isSome_none]
  unfold MasterIns.Blocked
  rw [next_store hrun]
  unfold runCiModbusIns at hr
  cases hport : openPort ports x.i with
  | error e =>
    rw [hport] at hr
    obtain ⟨hno, hvalue, hsame⟩ := openPort_error hport
    subst hr
    have hopens : opens ports x.i = false := by rw [opens, hport]
    refine ⟨hsends hno, by rw [hsame, hinit], ?_⟩
    rw [hvalue]
    refine hset.imp_right fun hfresh => ⟨rfl, ?_⟩
    simp [MasterIns.next, hflow, hfresh.2, hopens]
  | ok n =>
    rw [hport] at hr
    dsimp only at hr
    rw [initEdge_of_done hinit] at hr
    have hno : ¬ (getPowerFlow x.i.inPF = true ∧
        x.i.store.edgeValue (x.i.ucode.getPU16 (x.i.pc + 14)) = false ∧ x.free n = true) := by
      rintro ⟨-, hvalue, hfree⟩
      rcases hset with hset | ⟨-, hfresh⟩
      · rw [hset] at hvalue
        cases hvalue
      · have hbusy := (hfits rfl).1 hfresh hflow n hport
        rw [hbusy] at hfree
        cases hfree
    rw [if_neg hno, if_pos hpf] at hr
    subst hr
    exact ⟨hsends rfl, hinit, .inl (by simp [MasterResult.leave, Store.setEdge])⟩

/-- After a request of `MODBUS` the memory of the first scan is off and the request is fresh. -/
theorem modbus_sent (hc : IsCall .modbus ports u p t x)
    (hsends : MasterIns.sends .modbus ports x = true) :
    x.flow = true ∧
      MasterIns.Blocked .modbus (u.getPU16 (p + 14)) (MasterIns.next .modbus ports t x) := by
  obtain ⟨rfl, rfl, hstore, -⟩ := hc
  obtain ⟨r, hr⟩ : ∃ r, runCiModbusIns ports x.free x.inFront x.i = r := ⟨_, rfl⟩
  have hrun : MasterIns.run .modbus ports x = some r := congrArg some hr
  obtain ⟨q, hq⟩ := ne_none_iff_exists'.mp ((sends_iff hrun).mp hsends)
  rw [← hr] at hq
  obtain ⟨n, hport, hflow, hvalue, hfree, -⟩ := runCiModbusIns_request hq
  refine ⟨hflow, ?_, .inr ⟨rfl, ?_⟩⟩
  · rw [next_store hrun, ← hr, runCiModbusIns, hport]
    dsimp only
    rw [if_pos ⟨hflow, hvalue, hfree⟩, edgeInit_modbusSend]
    exact edgeInit_initEdge _ _
  · have hpf : x.flow = true := hflow
    simp [MasterIns.next, hsends, hpf]

theorem modrw_blocked (hc : IsCall .modrw ports u p t x)
    (hb : MasterIns.Blocked .modrw (u.getPU16 (p + 26)) t) (hflow : x.flow = true) :
    MasterIns.sends .modrw ports x = false ∧
      MasterIns.Blocked .modrw (u.getPU16 (p + 26)) (MasterIns.next .modrw ports t x) := by
  obtain ⟨rfl, rfl, hstore, hret⟩ := hc
  obtain ⟨hinit, hset | ⟨hins, -⟩⟩ := hb
  swap
  · cases hins
  rw [← hstore] at hinit hset
  obtain ⟨r, hrun⟩ := isSome_iff_exists.mp hret
  have hpf : getPowerFlow x.i.inPF = true := hflow
  have hsends : r.request = none → MasterIns.sends .modrw ports x = false := by
    intro hno
    rw [MasterIns.sends, MasterIns.request, hrun, bind_some, hno, isSome_none]
  unfold MasterIns.Blocked
  rw [next_store hrun]
  have hr : runCiModrwIns ports x.free x.inFront x.left x.stale x.i = some r := hrun
  have hleave {ret : MasterRet} {s' : Store} (h : some (MasterResult.leave ret s') = some r)
      (hi : s'.edgeInit (x.i.ucode.getPU16 (x.i.pc + 26)) = false)
      (hv : s'.edgeValue (x.i.ucode.getPU16 (x.i.pc + 26)) = true) :
      MasterIns.sends .modrw ports x = false ∧
        r.store.edgeInit (x.i.ucode.getPU16 (x.i.pc + 26)) = false ∧
        (r.store.edgeValue (x.i.ucode.getPU16 (x.i.pc + 26)) = true ∨
          MasterIns.modrw = .modbus ∧ (MasterIns.next .modrw ports t x).fresh = true) := by
    obtain rfl := some.inj h
    exact ⟨hsends rfl, hi, .inl hv⟩
  have hself (s : Store) (n : Nat) : (s.setEdge n true).edgeValue n = true := by simp [Store.setEdge]
  unfold runCiModrwIns at hr
  cases hport : openPort ports x.i with
  | error e =>
    rw [hport] at hr
    obtain ⟨hno, hvalue, hsame⟩ := openPort_error hport
    obtain rfl := some.inj hr
    refine ⟨hsends hno, by rw [hsame, hinit], .inl (by rw [hvalue, hset])⟩
  | ok n =>
    rw [hport] at hr
    dsimp only at hr
    rw [initEdge_of_done hinit] at hr
    cases hs2 : x.i.word 6 0 x.i.store with
    | error e =>
      rw [hs2] at hr
      exact hleave hr hinit hset
    | ok s2 =>
      rw [hs2] at hr
      dsimp only at hr
      split at hr
      · exact hleave hr hinit (hself _ _)
      · have hno : ¬ (getPowerFlow x.i.inPF = true ∧
            x.i.store.edgeValue (x.i.ucode.getPU16 (x.i.pc + 26)) = false ∧ x.free n = true) := by
          rintro ⟨-, hvalue, -⟩
          rw [hset] at hvalue
          cases hvalue
        rw [if_neg hno] at hr
        exact hleave hr hinit (hself _ _)

/-- After a request of `MODRW` its edge memory is set. -/
theorem modrw_sent (hc : IsCall .modrw ports u p t x)
    (hsends : MasterIns.sends .modrw ports x = true) :
    x.flow = true ∧
      MasterIns.Blocked .modrw (u.getPU16 (p + 26)) (MasterIns.next .modrw ports t x) := by
  obtain ⟨rfl, rfl, hstore, hret⟩ := hc
  obtain ⟨r, hrun⟩ := isSome_iff_exists.mp hret
  have hreq := (sends_iff hrun).mp hsends
  unfold MasterIns.Blocked
  rw [next_store hrun]
  have hr : runCiModrwIns ports x.free x.inFront x.left x.stale x.i = some r := hrun
  have hleave {ret : MasterRet} {s' : Store} (h : some (MasterResult.leave ret s') = some r) :
      False := by
    obtain rfl := some.inj h
    exact hreq rfl
  unfold runCiModrwIns at hr
  cases hport : openPort ports x.i with
  | error e =>
    rw [hport] at hr
    obtain rfl := some.inj hr
    exact absurd (openPort_error hport).1 hreq
  | ok n =>
    rw [hport] at hr
    dsimp only at hr
    cases hs2 : x.i.word 6 0 (initEdge (x.i.ucode.getPU16 (x.i.pc + 26)) x.i.store) with
    | error e =>
      rw [hs2] at hr
      exact (hleave hr).elim
    | ok s2 =>
      rw [hs2] at hr
      dsimp only at hr
      split at hr
      · exact (hleave hr).elim
      · split at hr
        · rename_i hsend
          obtain ⟨hinit, hvalue⟩ := modrwSend_spec hr
          refine ⟨hsend.1, ?_, .inl (hvalue hreq)⟩
          rw [hinit]
          exact edgeInit_initEdge _ _
        · split at hr
          · exact (hleave hr).elim
          · exact (hleave hr).elim

theorem master_blocked (hc : IsCall ins ports u p t x) (hfits : ins.Fits ports t x)
    (hb : ins.Blocked (ins.edge u p) t) (hflow : x.flow = true) :
    ins.sends ports x = false ∧ ins.Blocked (ins.edge u p) (ins.next ports t x) := by
  cases ins with
  | modbus => exact modbus_blocked hc hfits hb hflow
  | modrw => exact modrw_blocked hc hb hflow

theorem master_sent (hc : IsCall ins ports u p t x) (hsends : ins.sends ports x = true) :
    x.flow = true ∧ ins.Blocked (ins.edge u p) (ins.next ports t x) := by
  cases ins with
  | modbus => exact modbus_sent hc hsends
  | modrw => exact modrw_sent hc hsends

end

/-! ## The Bytes of MODBUS -/

theorem getWord_initEdge (n : Nat) (s : Store) (area : WordArea) (k : Nat) :
    (initEdge n s).getWord area k = s.getWord area k := by
  unfold initEdge
  split <;> cases area <;> rfl

theorem wordAt_initEdge (inFront : InFront) (n : Nat) (s : Store) (area : WordArea) (k : Int) :
    wordAt inFront (initEdge n s) area k = wordAt inFront s area k := by
  unfold wordAt
  split
  · exact getWord_initEdge n s area _
  · rfl

/-- The number of bytes, as long as it fits into a byte. -/
theorem modbusTxLength_eq {func count : BitVec 16} {n : Nat} (h : modbusTxLength func count = some n)
    (hfits : HasByteCount func → (loByte count).toNat ≤ 248) :
    n = if HasByteCount func then 7 + (loByte count).toNat else 6 := by
  have hlow : (loByte count).toNat = count.toNat % 256 := by simp [loByte]
  have hcount : HasByteCount func →
      ((7 + count) &&& 0xFF).toNat = 7 + (loByte count).toNat := by
    intro hhas
    have hle := hfits hhas
    have hmask : ((7 + count) &&& 0xFF).toNat = (7 + count.toNat) % 65536 % 256 := by
      exact Nat.and_two_pow_sub_one_eq_mod _ 8
    omega
  unfold modbusTxLength at h
  cases hf : MasterFunc.ofCode (func &&& 0xFF) with
  | none =>
    rw [hf] at h
    cases h
  | some f =>
    rw [hf] at h
    have hcode := MasterFunc.code_of_ofCode hf
    by_cases hhas : HasByteCount func
    · rw [if_pos hhas, ← hcount hhas]
      have hmulti : f = .writeMultipleCoils ∨ f = .writeMultipleRegisters := by
        rcases hhas with hhas | hhas
        · rw [hhas] at hf
          exact .inl (some.inj (hf.symm.trans (MasterFunc.ofCode_code .writeMultipleCoils)))
        · rw [hhas] at hf
          exact .inr (some.inj (hf.symm.trans (MasterFunc.ofCode_code .writeMultipleRegisters)))
      rcases hmulti with rfl | rfl
      · exact (some.inj h).symm
      · exact (some.inj h).symm
    · rw [if_neg hhas]
      cases f with
      | writeMultipleCoils => exact absurd (.inl hcode.symm) hhas
      | writeMultipleRegisters => exact absurd (.inr hcode.symm) hhas
      | readCoilsStatus => exact (some.inj h).symm
      | readDescreteInputStatus => exact (some.inj h).symm
      | readHoldingRegister => exact (some.inj h).symm
      | readMultipleInputRegister => exact (some.inj h).symm
      | writeSingleCoil => exact (some.inj h).symm
      | writeRegister => exact (some.inj h).symm
      | diagDiagnostic => exact (some.inj h).symm

theorem modbusElement_ok {i : BodyInput} {q : Nat} {area : WordArea} {start : Int}
    (h : modbusElement i q = .ok (area, start)) :
    ∃ indexed, (AddrType.ofCode (i.ucode.getPU8 (i.pc + q + 1))).bind (masterOperand i.level) =
      some (area, indexed) ∧ start = startElement i q indexed := by
  unfold modbusElement at h
  split at h
  · cases h
  · rename_i area' indexed htable
    split at h
    · cases h
    · split at h
      · cases h
      · cases h
        exact ⟨indexed, htable, rfl⟩

/-- A `short` that is not negative is the element number. -/
theorem startElement_of_nonneg {i : BodyInput} {q : Nat} {indexed : Bool}
    (h : 0 ≤ startElement i q indexed) : startElement i q indexed =
      (elementIndex (operandStart i.ucode (i.pc + q) i.store indexed) : Nat) := by
  unfold startElement elementIndex at *
  rw [BitVec.toInt_eq_toNat_cond] at *
  split
  · rfl
  · omega

theorem modbus_takenFromElements {ports : UartPorts} {x : MasterScan} {q : MasterRequest}
    (hfits : EntersSend ports x → FitsOperand x)
    (h : MasterIns.request .modbus ports x = some q) : TakenFromElements x.i q.frame := by
  obtain ⟨n, hport, hflow, hvalue, hfree, hsend⟩ := runCiModbusIns_request h
  obtain ⟨area, start, length, hsent⟩ := modbusSend_request hsend
  obtain ⟨hstart, hcount⟩ := hfits ⟨hflow, hvalue, n, hport, hfree⟩ area start hsent.element
  obtain ⟨indexed, htable, rfl⟩ := modbusElement_ok hsent.element
  have hword (k : Nat) : wordAt x.inFront x.i.store area (startElement x.i 6 indexed + k) =
      x.i.store.getWord area
        (elementIndex (operandStart x.i.ucode (x.i.pc + 6) x.i.store indexed) + k) := by
    rw [startElement_of_nonneg hstart]
    rfl
  have hframe := hsent.frame_eq
  simp only [wordAt_initEdge, hword] at hframe
  have hlength : modbusTxLength
      (wordAt x.inFront x.i.store area (startElement x.i 6 indexed + (1 : Nat)))
      (wordAt x.inFront x.i.store area (startElement x.i 6 indexed + (6 : Nat))) = some length := by
    rw [← hsent.length_eq, wordAt_initEdge, wordAt_initEdge]
    rfl
  rw [hword, hword] at hlength
  refine ⟨area, indexed, length, htable, ?_, ?_, hframe⟩
  · refine modbusTxLength_eq hlength ?_
    dsimp only
    rw [← hword, ← hword]
    exact hcount
  · have hbelow := hsent.below
    rw [startElement_of_nonneg hstart] at hbelow
    intro k hk
    omega

/-! ## Runs -/

/-- In a run whose calls all meet the condition, at most one request is sent per rising edge, and
the requests of `MODBUS` are laid out as their function asks for, from elements of their class. -/
theorem master_sendsRight {ins : MasterIns} {ports : UartPorts} {u : Ucode} {p : Nat}
    {s t : MasterState} {xs : List MasterScan}
    (h : EventRun (KeepsEdge (ins.edge u p)) (ins.next ports)
      (fun t x => IsCall ins ports u p t x ∧ ins.Fits ports t x) s xs t) :
    SendsRight ins ports xs := by
  refine ⟨(h.oncePerEdge (ins.Blocked (ins.edge u p)) ?_ ?_ ?_ ?_).2, ?_⟩
  · exact fun _ _ hb hk => hb.keepsEdge hk
  · exact fun _ _ hx hsends => (master_sent hx.1 hsends).2
  · exact fun _ _ hx hb hflow => master_blocked hx.1 hx.2 hb hflow
  · exact fun _ _ hx hsends => (master_sent hx.1 hsends).1
  · rintro rfl x hx q hq
    obtain ⟨t, -, hfits⟩ := h.mem x hx
    exact modbus_takenFromElements (hfits rfl).2 hq

/-- `MODBUS` on port 0 with its request from `D0` on, the answer to `D100` and edge number 0. -/
def modbusFile : Ucode :=
  [0x00, 0xF1] ++ [0x00, 0xFF, 0x00, 0x00] ++ [0x00, 0x11, 0x00, 0x00] ++ [0x00, 0x11, 0x64, 0x00] ++
    [0x00, 0x00]

def masterPort : UartPorts := ⟨1, fun _ => ⟨true, 0, 0, 0⟩⟩

/-- The port is idle, and `D0` and `D1` ask the slave 1 for holding registers. -/
def requestStore : Store :=
  let s := Store.off.setBit (.elem .SM) 4 true
  (s.setWord (.elem .D) 0 1).setWord (.elem .D) 1 3

/-- A call of `modbusFile` with power flow, while the driver is idle or not. -/
def modbusScan (free : Bool) (s : Store) : MasterScan where
  i := ⟨modbusFile, 0, 0, 0, 1, ⟨false, 0, fun _ => 0⟩, s⟩
  free := fun _ => free
  inFront := fun _ _ => 0
  left := fun _ => 0
  stale := 0

/-- The state before the first call, and after a call that finds the driver idle. -/
def beforeModbus : MasterState := ⟨requestStore, false⟩

def afterModbus : MasterState := MasterIns.next .modbus masterPort beforeModbus
  (modbusScan true requestStore)

theorem isCall_modbusScan (free : Bool) (t : MasterState) :
    IsCall .modbus masterPort modbusFile 0 t (modbusScan free t.store) := ⟨rfl, rfl, rfl, rfl⟩

/-- The second call of a run finds the driver at work, and sets the edge memory. -/
theorem master_sendsRight_modbus : SendsRight .modbus masterPort
    [modbusScan true requestStore, modbusScan false afterModbus.store] := by
  have hword : ¬ HasByteCount ((requestStore).getWord (.elem .D) 1) := by decide
  have hfirst : MasterIns.Fits .modbus masterPort beforeModbus (modbusScan true requestStore) := by
    refine fun _ => ⟨(fun hfresh => by cases hfresh), fun _ area start h => ?_⟩
    obtain ⟨rfl, rfl⟩ : WordArea.elem .D = area ∧ (0 : Int) = start := by
      cases h
      exact ⟨rfl, rfl⟩
    exact ⟨le_refl _, fun hhas => absurd hhas hword⟩
  have hsecond : MasterIns.Fits .modbus masterPort afterModbus
      (modbusScan false afterModbus.store) := by
    refine fun _ => ⟨fun _ _ _ _ => rfl, ?_⟩
    rintro ⟨-, -, n, -, hfree⟩
    cases hfree
  exact master_sendsRight (.event _ (.event _ .start
    ⟨isCall_modbusScan true beforeModbus, hfirst⟩) ⟨isCall_modbusScan false afterModbus, hsecond⟩)

/-- Where the exchange is over before the next call, `MODBUS` sends twice on one rising edge. -/
theorem modbus_sends_again : ¬ ∀ (ins : MasterIns) (ports : UartPorts) (u : Ucode) (p : Nat)
    (s t : MasterState) (xs : List MasterScan),
    EventRun (KeepsEdge (ins.edge u p)) (ins.next ports) (IsCall ins ports u p) s xs t →
      SendsRight ins ports xs := by
  intro h
  have hrun := h .modbus masterPort modbusFile 0 beforeModbus _ _
    (.event _ (.event _ .start (isCall_modbusScan true beforeModbus))
      (isCall_modbusScan true afterModbus))
  obtain ⟨z, hz, -⟩ := hrun.1 [] _ [] _ [] rfl rfl rfl
  cases hz

end Kalyke
