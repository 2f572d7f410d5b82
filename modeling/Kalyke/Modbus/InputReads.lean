-- SUMMARY: Reading inputs with the function for inputs and with the one for coils.
import Kalyke.Modbus.Reads
import Kalyke.Modbus.UploadRuns

/-!
# Reads of Inputs

`mb_slave_read_coils_status` (0x01) reads inputs as well, and `mb_slave_read_descrete_input_status`
(0x02) is to read them alone and to give the same bytes. It shifts its byte once more after each
bit, so that all bits of a byte end up in one place, and it takes the number of any element for that
of an input.
-/

namespace Kalyke

open List Nat BitVec

/-! ## Packed bits -/

/-- The data bytes of `cnt` bits: bit `j` of byte `i` is the bit `8 * i + j`, and what is left of
the last byte is 0. -/
structure Packs (f : Nat → Bool) (cnt : Nat) (data : List Byte) : Prop where
  length : data.length = (cnt + 7) / 8
  bit : ∀ i j, j < 8 → (data.getD i 0).getLsbD j = (decide (8 * i + j < cnt) && f (8 * i + j))

theorem Packs.unique {f : Nat → Bool} {cnt : Nat} {data data' : List Byte} (h : Packs f cnt data)
    (h' : Packs f cnt data') : data' = data := by
  refine ext_getElem (h'.length.trans h.length.symm) fun i hi hi' => ?_
  refine eq_of_getLsbD_eq fun j hj => ?_
  have hbit := (h'.bit i j hj).trans (h.bit i j hj).symm
  rwa [getD_eq_getElem _ _ hi, getD_eq_getElem _ _ hi'] at hbit

/-- The bytes of the function for coils. -/
theorem packs_packBits (f : Nat → Bool) {cnt : Nat} (hcnt : 0 < cnt) :
    Packs f cnt (packBits false ((range cnt).map f)) where
  length := length_packBits false f hcnt
  bit := by
    intro i j hj
    rw [packBits_eq false f hcnt]
    by_cases hi : i < (cnt + 7) / 8
    · rw [getD_eq_getElem _ _ (by simpa using hi), getElem_map, getElem_range,
        getLsbD_packByte _ hj]
      have hlt : j < min 8 (cnt - 8 * i) ↔ 8 * i + j < cnt := by omega
      rw [decide_eq_decide.mpr hlt]
    · have hout : ¬ 8 * i + j < cnt := by omega
      rw [getD_eq_default _ _ (by simpa using hi), decide_eq_false hout]
      simp

/-! ## Bytes that are shifted -/

theorem two_pow_dvd_packByte (f : Nat → Bool) {n : Nat} (hn : n ≤ 8) :
    2 ^ n ∣ (packByte true f n).toNat := by
  induction n with
  | zero => exact Nat.one_dvd _
  | succ n ih =>
    have hbyte : 2 ^ (n + 1) ∣ 2 ^ 8 := Nat.pow_dvd_pow 2 hn
    have hbit : 2 ^ n ∣ ((ofBool (f n)).setWidth 8 <<< n : Byte).toNat := by
      rw [toNat_shiftLeft, Nat.shiftLeft_eq]
      exact (dvd_mod_iff (Nat.pow_dvd_pow 2 (by omega))).mpr (Nat.dvd_mul_left _ _)
    have hsum : 2 ^ n ∣ (packByte true f n + (ofBool (f n)).setWidth 8 <<< n).toNat := by
      exact (dvd_mod_iff (Nat.pow_dvd_pow 2 (by omega))).mpr (Nat.dvd_add (ih (by omega)) hbit)
    simp only [packByte, if_pos]
    rw [toNat_shiftLeft, Nat.shiftLeft_eq, dvd_mod_iff hbyte]
    exact Nat.mul_dvd_mul hsum (dvd_refl 2)

theorem packByte_of_off {f : Nat → Bool} (shift : Bool) {n : Nat} (h : ∀ k < n, f k = false) :
    packByte shift f n = 0 := by
  induction n with
  | zero => rfl
  | succ n ih =>
    have hlow : packByte shift f n = 0 := ih fun k hk => h k (lt_succ_of_lt hk)
    simp [packByte, hlow, h n (lt_succ_self n)]

theorem packByte_eq_iff (f : Nat → Bool) {n : Nat} (hn : n ≤ 8) :
    packByte true f n = packByte false f n ↔ ∀ k < n, f k = false := by
  constructor
  · intro heq k hk
    have hbit := getLsbD_packByte f (n := n) (i := k) (by omega)
    obtain ⟨c, hc⟩ := two_pow_dvd_packByte f hn
    rw [← heq, getLsbD, hc, testBit_two_pow_mul, decide_eq_false (by omega),
      decide_eq_true hk] at hbit
    exact hbit.symm
  · intro hoff
    rw [packByte_of_off true hoff, packByte_of_off false hoff]

theorem packBits_eq_iff (f : Nat → Bool) {cnt : Nat} (hcnt : 0 < cnt) :
    packBits true ((range cnt).map f) = packBits false ((range cnt).map f) ↔
      ∀ k < cnt, f k = false := by
  rw [packBits_eq true f hcnt, packBits_eq false f hcnt, map_inj_left]
  constructor
  · intro h k hk
    have hbyte := (packByte_eq_iff _ (by omega)).mp (h (k / 8) (mem_range.mpr (by omega)))
      (k % 8) (by omega)
    rwa [div_add_mod] at hbyte
  · intro h j hj
    exact (packByte_eq_iff _ (by omega)).mpr fun k hk => h _ (by omega)

/-! ## The functions -/

variable {ω : Type}

namespace Slave

variable {s : Slave ω} {m : MsgPack}

def Answers (s s' : Slave ω) (data : List Byte) : Prop :=
  s'.sent = s.sent ++
    [.normal (withCrc (s.receiveBuff.bytes 2 ++ BitVec.ofNat 8 data.length :: data))]

def inputs (s : Slave ω) (addr cnt : Nat) : List Bool :=
  (range cnt).map fun k => s.store.bit .X (addr + k)

/-- The block of a request consists of inputs. -/
structure AsksInputs (s : Slave ω) (m : MsgPack) (addr : Nat) : Prop where
  len : m.len = 8
  isInput : BitAt s.reqAddr .X addr
  pos : 1 ≤ s.reqCnt
  max : s.reqCnt ≤ mbMaxRBitNum
  rang : addr + s.reqCnt ≤ BitElement.rang .X

/-- Both functions answer a request for inputs with their bits, and the one for inputs refuses any
other address. -/
structure ReadsInputs (s : Slave ω) (m : MsgPack) : Prop where
  same : ∀ addr, s.AsksInputs m addr →
    ∃ data, Packs (fun k => s.store.bit .X (addr + k)) s.reqCnt data ∧
      s.Answers (s.mbSlaveReadCoilsStatus m) data ∧
      s.Answers (s.mbSlaveReadDescreteInputStatus m) data
  refuses : (∀ addr, ¬ BitAt s.reqAddr .X addr) →
    ∃ e, (s.mbSlaveReadDescreteInputStatus m).sent = s.sent ++ [s.exceptionResp e]

theorem Answers.unique {s' : Slave ω} {data data' : List Byte} (h : s.Answers s' data)
    (h' : s.Answers s' data') : data' = data := by
  have hsent := append_cancel_left (h'.symm.trans h)
  have hframe := Resp.normal.inj (singleton_inj.mp hsent)
  have hbody := append_cancel_left (withCrc_injective hframe)
  exact (cons.inj hbody).2

theorem AsksInputs.request {addr : Nat} (h : s.AsksInputs m addr)
    (base : BitElement → BitElement) (hbase : base .X = .X) :
    s.readBitsRequest m base = .ok (.X, addr, s.reqCnt) :=
  readBitsRequest_eq_ok_iff.mpr
    ⟨h.len, h.max, rfl, .X, h.isInput, hbase.symm, le_succ_of_le h.rang⟩

/-- What both functions answer to a request for inputs. -/
theorem AsksInputs.answers {addr : Nat} (h : s.AsksInputs m addr) (hb : ¬ m.isBroadcastInfo)
    (base : BitElement → BitElement) (hbase : base .X = .X) (shift : Bool) :
    s.Answers (s.readBits m base shift) (packBits shift (s.inputs addr s.reqCnt)) := by
  rw [Answers, readBits_sent s hb, bitsResp, h.request base hbase]
  rfl

theorem answers_input_iff {addr : Nat} {data : List Byte} (h : s.AsksInputs m addr)
    (hb : ¬ m.isBroadcastInfo) :
    s.Answers (s.mbSlaveReadDescreteInputStatus m) data ↔
      data = packBits true (s.inputs addr s.reqCnt) := by
  constructor
  · exact fun hdata => (h.answers hb _ rfl true).unique hdata
  · rintro rfl
    exact h.answers hb _ rfl true

/-- A request for inputs is answered alike by both functions just if all of them are off. -/
theorem same_iff {addr : Nat} (h : s.AsksInputs m addr) (hb : ¬ m.isBroadcastInfo) :
    (∃ data, Packs (fun k => s.store.bit .X (addr + k)) s.reqCnt data ∧
      s.Answers (s.mbSlaveReadCoilsStatus m) data ∧
      s.Answers (s.mbSlaveReadDescreteInputStatus m) data) ↔
    ∀ k < s.reqCnt, s.store.bit .X (addr + k) = false := by
  have hpacks := packs_packBits (fun k => s.store.bit .X (addr + k)) h.pos
  rw [← packBits_eq_iff _ h.pos]
  constructor
  · rintro ⟨data, hdata, -, hinput⟩
    rw [← hpacks.unique hdata]
    exact ((answers_input_iff h hb).mp hinput).symm
  · intro heq
    exact ⟨_, hpacks, h.answers hb id rfl false, (answers_input_iff h hb).mpr heq.symm⟩

/-- The address of a request stands for a bit that is no input, and its number would do for an
input. -/
def TakenForInput (s : Slave ω) (m : MsgPack) : Prop :=
  m.len = 8 ∧ s.reqCnt ≤ mbMaxRBitNum ∧
    ∃ e addr, BitAt s.reqAddr e addr ∧ e ≠ .X ∧ addr + s.reqCnt ≤ BitElement.rang .X + 1

theorem refused_iff (hb : ¬ m.isBroadcastInfo) (hx : ∀ addr, ¬ BitAt s.reqAddr .X addr) :
    (∃ e, (s.mbSlaveReadDescreteInputStatus m).sent = s.sent ++ [s.exceptionResp e]) ↔
      ¬ s.TakenForInput m := by
  have hsent : (s.mbSlaveReadDescreteInputStatus m).sent =
      s.sent ++ [s.bitsResp m (fun _ => .X) true] := readBits_sent s hb _ _
  rw [hsent, bitsResp]
  cases hreq : s.readBitsRequest m fun _ => .X with
  | error e =>
    refine iff_of_true ⟨e, rfl⟩ ?_
    rintro ⟨hlen, hmax, e₀, addr, hat, -, hle⟩
    have hok : s.readBitsRequest m (fun _ => .X) = .ok (.X, addr, s.reqCnt) :=
      readBitsRequest_eq_ok_iff.mpr ⟨hlen, hmax, rfl, e₀, hat, rfl, hle⟩
    exact absurd (hreq.symm.trans hok) (by simp)
  | ok x =>
    obtain ⟨e, addr, cnt⟩ := x
    obtain ⟨hlen, hmax, -, e₀, hat, rfl, hle⟩ := readBitsRequest_eq_ok_iff.mp hreq
    refine iff_of_false ?_ (not_not.mpr ⟨hlen, hmax, e₀, addr, hat, ?_, hle⟩)
    · rintro ⟨e, heq⟩
      cases singleton_inj.mp (append_cancel_left heq)
    · rintro rfl
      exact hx addr hat

/-- Inputs are read right just if those asked for are off, and no other address is taken for that
of an input. -/
theorem readsInputs_iff (hb : ¬ m.isBroadcastInfo) :
    s.ReadsInputs m ↔
      (∀ addr, s.AsksInputs m addr → ∀ k < s.reqCnt, s.store.bit .X (addr + k) = false) ∧
      ¬ s.TakenForInput m := by
  constructor
  · intro h
    refine ⟨fun addr hasks => (same_iff hasks hb).mp (h.same addr hasks), fun htaken => ?_⟩
    obtain ⟨-, -, e, n, hat, hne, -⟩ := id htaken
    have hx (addr : Nat) : ¬ BitAt s.reqAddr .X addr := fun hX => hne (hX.unique hat).1
    exact (refused_iff hb hx).mp (h.refuses hx) htaken
  · rintro ⟨hoff, hnot⟩
    exact ⟨fun addr hasks => (same_iff hasks hb).mpr (hoff addr hasks),
      fun hx => (refused_iff hb hx).mpr hnot⟩

/-- Eight inputs from `X0` on that are off. -/
theorem readsInputs_x0 : (idle [1, 2, 0x04, 0xB0, 0, 8, 0x78, 0xDB]).ReadsInputs (comMsg 8) := by
  refine (readsInputs_iff (by decide)).mpr ⟨fun _ _ _ _ => rfl, ?_⟩
  rintro ⟨-, -, e, addr, hat, hne, -⟩
  have hX : BitAt (idle [1, 2, 0x04, 0xB0, 0, 8, 0x78, 0xDB]).reqAddr .X 0 :=
    ⟨.bitX, by decide, rfl⟩
  exact hne (hX.unique hat).1

/-- A request for `X0`, which is on. -/
def x0On : Slave Unit :=
  { idle [1, 2, 0x04, 0xB0, 0, 1, 0xB8, 0xDD] with
    store := { idleStore with bit := fun e i => e = .X ∧ i = 0 } }

/-- The input `X0` is on: the function for coils answers with 1 and the one for inputs with 2. -/
theorem x0_shifted :
    ¬ ∀ (s : Slave Unit) (m : MsgPack), ¬ m.isBroadcastInfo → s.ReadsInputs m := by
  intro h
  have hasks : x0On.AsksInputs (comMsg 8) 0 :=
    ⟨rfl, ⟨.bitX, by decide, rfl⟩, by decide, by decide, by decide⟩
  obtain ⟨data, -, hcoils, hinput⟩ := (h x0On (comMsg 8) (by decide)).same 0 hasks
  have hcoilsData := (hasks.answers (by decide) id rfl false).unique hcoils
  have hinputData := (answers_input_iff hasks (by decide)).mp hinput
  exact absurd (hcoilsData.symm.trans hinputData) (by decide)

end Slave

end Kalyke
