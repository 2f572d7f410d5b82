-- SUMMARY: Which requests the checks of the functions for elements let pass.
import Kalyke.Modbus.Handler

/-!
# Accepted Requests

The checks of a function are `Except` values. Here each is turned into the conditions under which
it accepts, in terms of the numbers in the request.
-/

namespace Kalyke

open List

/-! ## Addresses -/

/-- A bit address stands for a bit element. -/
def BitAt (a : Nat) (e : BitElement) (n : Nat) : Prop :=
  ∃ t, mbSlaveConvertElementInfo .bit a = some (t, n) ∧ t.bit? = some e

/-- A bit address stands for a coil, a bit that can be written. -/
def CoilAt (a : Nat) (e : BitElement) (n : Nat) : Prop :=
  ∃ t, mbSlaveConvertElementInfo .bit a = some (t, n) ∧ t.coil? = some e

/-- A word address stands for a register. -/
def RegisterAt (a : Nat) (r : Register) (n : Nat) : Prop :=
  ∃ t, mbSlaveConvertElementInfo .word a = some (t, n) ∧ t.register? n = some r

theorem MbElement.coil?_eq_some_iff {t : MbElement} {e : BitElement} :
    t.coil? = some e ↔ t.bit? = some e ∧ e ≠ .X := by
  cases t <;> simp [coil?, bit?] <;> cases e <;> simp

theorem coilAt_iff {a n : Nat} {e : BitElement} : CoilAt a e n ↔ BitAt a e n ∧ e ≠ .X := by
  simp only [CoilAt, MbElement.coil?_eq_some_iff]
  constructor
  · rintro ⟨t, ht, he, hx⟩
    exact ⟨⟨t, ht, he⟩, hx⟩
  · rintro ⟨⟨t, ht, he⟩, hx⟩
    exact ⟨t, ht, he, hx⟩

theorem BitAt.unique {a n n' : Nat} {e e' : BitElement} (h : BitAt a e n) (h' : BitAt a e' n') :
    e' = e ∧ n' = n := by
  obtain ⟨t, ht, he⟩ := h
  obtain ⟨t', ht', he'⟩ := h'
  cases ht.symm.trans ht'
  exact ⟨Option.some.inj (he'.symm.trans he), rfl⟩

theorem RegisterAt.unique {a n n' : Nat} {r r' : Register} (h : RegisterAt a r n)
    (h' : RegisterAt a r' n') : r' = r ∧ n' = n := by
  obtain ⟨t, ht, hr⟩ := h
  obtain ⟨t', ht', hr'⟩ := h'
  cases ht.symm.trans ht'
  exact ⟨Option.some.inj (hr'.symm.trans hr), rfl⟩

/-- A bit address is mapped to nothing, or it stands for a bit. -/
theorem bit_cases (a : Nat) : mbSlaveConvertElementInfo .bit a = none ∨ ∃ e n, BitAt a e n := by
  cases h : mbSlaveConvertElementInfo .bit a with
  | none => exact .inl rfl
  | some x =>
    obtain ⟨t, n⟩ := x
    have hk := (convert_eq_some_iff.mp h).1
    cases t <;> first | exact .inr ⟨_, n, _, h, rfl⟩ | cases hk

/-- A word address does not stand for a bit. -/
theorem word_bit?_eq_none {a n : Nat} {t : MbElement}
    (ht : mbSlaveConvertElementInfo .word a = some (t, n)) : t.bit? = none := by
  have hk := (convert_eq_some_iff.mp ht).1
  cases t <;> first | rfl | cases hk

/-- A word address is mapped to nothing, or it stands for a register. -/
theorem word_cases (a : Nat) :
    mbSlaveConvertElementInfo .word a = none ∨ ∃ r n, RegisterAt a r n := by
  cases h : mbSlaveConvertElementInfo .word a with
  | none => exact .inl rfl
  | some x =>
    obtain ⟨t, n⟩ := x
    have hk := (convert_eq_some_iff.mp h).1
    by_cases hc : t = .wordC ∧ c16Rang ≤ n
    · exact .inr ⟨.c32, n, t, h, by simp [MbElement.register?, hc]⟩
    · cases t <;>
        first
        | exact .inr ⟨_, n, _, h, by rw [MbElement.register?, if_neg hc]; rfl⟩
        | cases hk

variable {ω : Type} {s : Slave ω} {m : MsgPack}

namespace Slave

/-! ## Blocks -/

theorem readBitsRequest_eq_ok_iff {base : BitElement → BitElement} {e : BitElement}
    {addr cnt : Nat} :
    s.readBitsRequest m base = .ok (e, addr, cnt) ↔
      m.len = 8 ∧ s.reqCnt ≤ mbMaxRBitNum ∧ cnt = s.reqCnt ∧
        ∃ e₀, BitAt s.reqAddr e₀ addr ∧ e = base e₀ ∧ addr + s.reqCnt ≤ e.rang + 1 := by
  unfold readBitsRequest
  rcases bit_cases s.reqAddr with hnone | ⟨e₀, n, ⟨t, ht, he⟩⟩
  · simp only [hnone, BitAt, reduceCtorEq, false_and, exists_false, and_false, iff_false]
    split_ifs <;> simp
  · simp only [ht, he]
    constructor
    · intro h
      split_ifs at h with h1 h2 h3
      cases h
      exact ⟨not_not.mp h1, by omega, rfl, e₀, ⟨t, ht, he⟩, rfl, by omega⟩
    · rintro ⟨h1, h2, rfl, e₁, h3, rfl, h4⟩
      obtain ⟨rfl, rfl⟩ := BitAt.unique ⟨t, ht, he⟩ h3
      rw [if_neg (not_not.mpr h1), if_neg (by omega), if_neg (by omega)]

theorem readRegistersRequest_eq_ok_iff {r : Register} {addr cnt : Nat} :
    s.readRegistersRequest m = .ok (r, addr, cnt) ↔
      m.len = 8 ∧ s.reqCnt ≤ mbMaxRWordNum ∧ cnt = s.reqCnt ∧
        RegisterAt s.reqAddr r addr ∧ addr + s.reqCnt ≤ r.readRang + 1 := by
  unfold readRegistersRequest
  rcases word_cases s.reqAddr with hnone | ⟨r₀, n, ⟨t, ht, hr⟩⟩
  · simp only [hnone, RegisterAt, reduceCtorEq, false_and, exists_false, and_false, iff_false]
    split_ifs <;> simp
  · simp only [ht, hr]
    constructor
    · intro h
      split_ifs at h with h1 h2 h3
      cases h
      exact ⟨not_not.mp h1, by omega, rfl, ⟨t, ht, hr⟩, by omega⟩
    · rintro ⟨h1, h2, rfl, h3, h4⟩
      obtain ⟨rfl, rfl⟩ := RegisterAt.unique ⟨t, ht, hr⟩ h3
      rw [if_neg (not_not.mpr h1), if_neg (by omega), if_neg (by omega)]

/-- The value of a request to write one coil: on or off. -/
def CoilValue (s : Slave ω) : Prop :=
  s.receiveBuff.bigPU16 4 = 0xFF00 ∨ s.receiveBuff.bigPU16 4 = 0

theorem writeCoilRequest_eq_ok_iff {e : BitElement} {addr : Nat} {x : Byte} :
    s.writeCoilRequest = .ok (e, addr, x) ↔
      s.CoilValue ∧ CoilAt s.reqAddr e addr ∧
        x = if 0 < s.receiveBuff.bigPU16 4 then 1 else 0 := by
  unfold writeCoilRequest CoilValue CoilAt
  rcases bit_cases s.reqAddr with hnone | ⟨e₀, n, ⟨t, ht, -⟩⟩
  · simp only [hnone, reduceCtorEq, false_and, exists_false, and_false, iff_false]
    split_ifs <;> simp
  · simp only [ht]
    constructor
    · intro h
      by_cases hv : s.receiveBuff.bigPU16 4 = 0xFF00 ∨ s.receiveBuff.bigPU16 4 = 0
      · rw [if_neg (fun h => hv.elim h.1 h.2)] at h
        cases hc : t.coil? with
        | none => rw [hc] at h; cases h
        | some e =>
          rw [hc] at h
          cases h
          exact ⟨hv, ⟨t, rfl, hc⟩, rfl⟩
      · rw [if_pos (not_or.mp hv)] at h
        cases h
    · rintro ⟨hv, ⟨t', ht', hc⟩, rfl⟩
      cases ht'
      rw [if_neg (fun h => hv.elim h.1 h.2), hc]

theorem writeRegisterRequest_eq_ok_iff {r : Register} {addr : Nat} :
    s.writeRegisterRequest = .ok (r, addr) ↔ RegisterAt s.reqAddr r addr := by
  unfold writeRegisterRequest
  rcases word_cases s.reqAddr with hnone | ⟨r₀, n, ⟨t, ht, hr⟩⟩
  · simp [hnone, RegisterAt]
  · simp only [ht, hr]
    constructor
    · intro h
      cases h
      exact ⟨t, ht, hr⟩
    · intro h
      obtain ⟨rfl, rfl⟩ := RegisterAt.unique ⟨t, ht, hr⟩ h
      rfl

/-- The number of data bytes fits the number of coils: a byte for each eight coils begun. -/
theorem coilBytes_iff {cnt byteNum : Nat} :
    (¬ (cnt / 8 ≠ byteNum ∧ cnt / 8 + 1 ≠ byteNum) ∧ ¬ (cnt % 8 = 0 ∧ cnt / 8 ≠ byteNum) ∧
      ¬ (cnt % 8 ≠ 0 ∧ cnt / 8 + 1 ≠ byteNum)) ↔ byteNum = (cnt + 7) / 8 := by
  omega

theorem writeCoilsRequest_eq_ok_iff {e : BitElement} {addr cnt : Nat} :
    s.writeCoilsRequest = .ok (e, addr, cnt) ↔
      s.reqByteNum = (s.reqCnt + 7) / 8 ∧ 1 ≤ s.reqCnt ∧ s.reqCnt ≤ mbMaxWBitNum ∧
        cnt = s.reqCnt ∧ CoilAt s.reqAddr e addr ∧ addr + s.reqCnt ≤ e.rang + 1 := by
  unfold writeCoilsRequest CoilAt
  rcases bit_cases s.reqAddr with hnone | ⟨e₀, n, ⟨t, ht, -⟩⟩
  · simp only [hnone, reduceCtorEq, false_and, exists_false, and_false, iff_false]
    split_ifs <;> simp
  · simp only [ht]
    constructor
    · intro h
      split_ifs at h with h1 h2 h3 h4
      cases hc : t.coil? with
      | none => rw [hc] at h; cases h
      | some e =>
        simp only [hc] at h
        split_ifs at h with h5
        cases h
        exact ⟨coilBytes_iff.mp ⟨h1, h2, h3⟩, by omega, by omega, rfl, ⟨t, rfl, hc⟩, by omega⟩
    · rintro ⟨hb, h1, h2, rfl, ⟨t', ht', hc⟩, h3⟩
      cases ht'
      obtain ⟨hb1, hb2, hb3⟩ := coilBytes_iff.mpr hb
      rw [if_neg hb1, if_neg hb2, if_neg hb3, if_neg (by omega)]
      simp only [hc]
      rw [if_neg (by omega)]

theorem writeRegistersRequest_eq_ok_iff {r : Register} {addr cnt : Nat} :
    s.writeRegistersRequest = .ok (r, addr, cnt) ↔
      1 ≤ s.reqCnt ∧ s.reqCnt ≤ mbMaxWWordNum ∧ s.reqByteNum / 2 = s.reqCnt ∧
        cnt = s.reqCnt ∧ RegisterAt s.reqAddr r addr ∧ addr + s.reqCnt ≤ r.writeRang + 1 := by
  unfold writeRegistersRequest
  rcases word_cases s.reqAddr with hnone | ⟨r₀, n, ⟨t, ht, hr⟩⟩
  · simp only [hnone, RegisterAt, reduceCtorEq, false_and, exists_false, and_false, iff_false]
    split_ifs <;> simp
  · simp only [ht, hr]
    constructor
    · intro h
      split_ifs at h with h1 h2 h3
      cases h
      exact ⟨by omega, by omega, by omega, rfl, ⟨t, ht, hr⟩, by omega⟩
    · rintro ⟨h1, h2, h3, rfl, h4, h5⟩
      obtain ⟨rfl, rfl⟩ := RegisterAt.unique ⟨t, ht, hr⟩ h4
      rw [if_neg (by omega), if_neg (by omega), if_neg (by omega)]

/-! ## Writing Blocks -/

/-- The coils a request writes, one after the other. -/
def coilStore (s : Slave ω) (e : BitElement) (addr cnt : Nat) : Store :=
  (range cnt).foldl (fun st i => st.setBit (.elem e) (addr + i) (s.coilValue i != 0)) s.store

/-- The registers a request writes, one after the other. -/
def registerStore (s : Slave ω) (r : Register) (addr cnt : Nat) : Store :=
  (range cnt).foldl (fun st i =>
    match r with
    | .word e => st.setWord (.elem e) (addr + i) (s.receiveBuff.bigPU16 (7 + 2 * i))
    | .c32 => st.setC32 (addr + i) (s.receiveBuff.bigPU32 (7 + 4 * i))) s.store

theorem setCoils_eq (e : BitElement) (addr cnt : Nat) :
    s.setCoils e addr cnt = { s with
      store := s.coilStore e addr cnt
      accessed := s.accessed ++ (range cnt).map fun i => .bit e (addr + i) } := by
  induction cnt with
  | zero => simp [setCoils, coilStore]
  | succ cnt ih =>
    simp only [setCoils, coilStore] at ih ⊢
    rw [range_succ, foldl_append, ih]
    simp [setBit, access, coilValue]

theorem setRegisters_eq (r : Register) (addr cnt : Nat) :
    s.setRegisters r addr cnt = { s with
      store := s.registerStore r addr cnt
      accessed := s.accessed ++ (range cnt).map fun i => r.cell (addr + i) } := by
  induction cnt with
  | zero => simp [setRegisters, registerStore]
  | succ cnt ih =>
    simp only [setRegisters, registerStore] at ih ⊢
    rw [range_succ, foldl_append, ih]
    cases r <;> simp [setBlock, setWord, setC32, access, Register.cell]

/-! ## Entries of Lists

Each entry is refused and leaves the elements as they are, or it is carried out. -/

variable {i n : Nat}

/-- The bytes of an entry's address, put into the response before the address is converted. -/
def putEntryAddr (s : Slave ω) (width i : Nat) : Slave ω :=
  s.putResp (3 + width * i) [s.receiveBuff (3 + 2 * i), s.receiveBuff (4 + 2 * i)]

theorem readBitEntry_cases (i : Nat) (s : Slave ω) :
    (mbSlaveConvertElementInfo .bit (s.entryAddr (3 + 2 * i)) = none ∧
      readBitEntry i s = (s.putEntryAddr 3 i, .error .iliegalAddr)) ∨
    ∃ e n, BitAt (s.entryAddr (3 + 2 * i)) e n ∧
      readBitEntry i s = (((s.putEntryAddr 3 i).access [.bit e n]).putResp (5 + 3 * i)
        [(BitVec.ofBool (s.store.bit e n)).setWidth 8], .ok false) := by
  rcases bit_cases (s.entryAddr (3 + 2 * i)) with hnone | ⟨e, n, t, ht, he⟩
  · refine .inl ⟨hnone, ?_⟩
    simp only [entryAddr] at hnone
    simp [readBitEntry, entryAddr, putResp, putEntryAddr, hnone]
  · refine .inr ⟨e, n, ⟨t, ht, he⟩, ?_⟩
    simp only [entryAddr] at ht
    simp [readBitEntry, entryAddr, putResp, putEntryAddr, ht, he]

theorem readWordEntry_cases (i : Nat) (s : Slave ω) :
    (mbSlaveConvertElementInfo .word (s.entryAddr (3 + 2 * i)) = none ∧
      readWordEntry i s = (s.putEntryAddr 4 i, .error .iliegalAddr)) ∨
    (∃ e n, RegisterAt (s.entryAddr (3 + 2 * i)) (.word e) n ∧
      readWordEntry i s = ((s.access [.word e n]).putWordEntry i (s.store.word e n), .ok false)) ∨
    ∃ n, RegisterAt (s.entryAddr (3 + 2 * i)) .c32 n ∧
      readWordEntry i s = ((((s.access [.c32 (c32RealAddr n)]).putWordEntry i
        ((s.store.c32 (c32RealAddr n)).extractLsb' 16 16)).putWordEntry (i + 1)
          ((s.store.c32 (c32RealAddr n)).extractLsb' 0 16)), .ok true) := by
  rcases word_cases (s.entryAddr (3 + 2 * i)) with hnone | ⟨r, n, t, ht, hr⟩
  · exact .inl ⟨hnone, by simp [readWordEntry, putEntryAddr, hnone]⟩
  · cases r with
    | word e => exact .inr (.inl ⟨e, n, ⟨t, ht, hr⟩, by simp [readWordEntry, ht, hr]⟩)
    | c32 => exact .inr (.inr ⟨n, ⟨t, ht, hr⟩, by simp [readWordEntry, ht, hr]⟩)

theorem writeBitEntry_cases (i : Nat) (s : Slave ω) :
    ((∀ e n, ¬ CoilAt (s.entryAddr (3 + 3 * i)) e n) ∧
      writeBitEntry i s = (s, .error .iliegalAddr)) ∨
    ∃ e n, CoilAt (s.entryAddr (3 + 3 * i)) e n ∧
      writeBitEntry i s = (s.setBit e n (s.receiveBuff (5 + 3 * i)), .ok false) := by
  rcases bit_cases (s.entryAddr (3 + 3 * i)) with hnone | ⟨-, n, t, ht, -⟩
  · exact .inl ⟨by simp [CoilAt, hnone], by simp [writeBitEntry, hnone]⟩
  · cases hc : t.coil? with
    | none =>
      refine .inl ⟨?_, by simp [writeBitEntry, ht, hc]⟩
      rintro e k ⟨t', ht', hc'⟩
      cases ht.symm.trans ht'
      cases hc.symm.trans hc'
    | some e => exact .inr ⟨e, n, ⟨t, ht, hc⟩, by simp [writeBitEntry, ht, hc]⟩

theorem writeWordEntry_cases (i : Nat) (s : Slave ω) :
    (mbSlaveConvertElementInfo .word (s.entryAddr (3 + 4 * i)) = none ∧
      writeWordEntry i s = (s, .error .iliegalAddr)) ∨
    (∃ e n, RegisterAt (s.entryAddr (3 + 4 * i)) (.word e) n ∧
      writeWordEntry i s = (s.setWord e n (s.receiveBuff.bigPU16 (5 + 4 * i)), .ok false)) ∨
    ∃ n, RegisterAt (s.entryAddr (3 + 4 * i)) .c32 n ∧
      writeWordEntry i s = (s.setC32 (c32RealAddr n)
        (s.receiveBuff.bigPU16 (5 + 4 * i) ++ s.receiveBuff.bigPU16 (5 + 4 * (i + 1))),
          .ok true) := by
  rcases word_cases (s.entryAddr (3 + 4 * i)) with hnone | ⟨r, n, t, ht, hr⟩
  · exact .inl ⟨hnone, by simp [writeWordEntry, hnone]⟩
  · cases r with
    | word e => exact .inr (.inl ⟨e, n, ⟨t, ht, hr⟩, by simp [writeWordEntry, ht, hr]⟩)
    | c32 => exact .inr (.inr ⟨n, ⟨t, ht, hr⟩, by simp [writeWordEntry, ht, hr]⟩)

end Slave

end Kalyke
