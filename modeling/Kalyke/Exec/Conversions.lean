-- SUMMARY: Conversions of numbers to decimal digits and Gray code, and which undo one another.
import Kalyke.Exec.Stored
import Kalyke.Lib.Digits
import Kalyke.Lib.GrayCode
import Mathlib.Tactic.IntervalCases

/-!
# Conversions

`DBCD` writes a number with decimal digits of four bits each and `DBIN` reads it; `DGRY` encodes a
double word in Gray code and `DGBIN` decodes it. The first digit that `DBCD` writes is that of
10 ^ 8, where that of 10 ^ 7 belongs: the digit is lost.
-/

namespace Kalyke

open Nat Except GrayCode
open BitVec (toNat_ofNat ofNat_toNat setWidth_eq)

/-! ## The instructions -/

/-- An instruction that converts a double word. -/
def runDwordConversion (f : BitVec 32 → Except PlcErr (BitVec 32)) (i : BodyInput) : BodyResult :=
  runChecked i (i.dword 2 0 i.store >>= f) fun x => i.saveDwords (i.pc + 8) 0 [x]

/-- What `run_ci_dbcd_ins` makes of a number. -/
def dbcd (x : BitVec 32) : Except PlcErr (BitVec 32) :=
  let n := x.toNat
  if 99999999 < n then .error .operands
  else .ok (BitVec.ofNat 32 (0x10000000 * (n / 100000000) + 0x1000000 * (n % 10000000 / 1000000) +
    0x100000 * (n % 1000000 / 100000) + 0x10000 * (n % 100000 / 10000) +
    0x1000 * (n % 10000 / 1000) + 0x100 * (n % 1000 / 100) + 0x10 * (n % 100 / 10) + n % 10))

/-- Four bits of a double word. -/
def maskedDigit (x mask : BitVec 32) (shift : Nat) : Nat := ((x &&& mask) >>> shift).toNat

/-- What `run_ci_dbin_ins` makes of decimal digits. -/
def dbin (x : BitVec 32) : Except PlcErr (BitVec 32) :=
  let d := maskedDigit x
  if 9 < d 0xF0000000 28 ∨ 9 < d 0x0F000000 24 ∨ 9 < d 0x00F00000 20 ∨ 9 < d 0x000F0000 16 ∨
      9 < d 0x0000F000 12 ∨ 9 < d 0x00000F00 8 ∨ 9 < d 0x000000F0 4 ∨ 9 < d 0x0000000F 0 then
    .error .operands
  else .ok (BitVec.ofNat 32 (d 0xF0000000 28 * 10000000 + d 0x0F000000 24 * 1000000 +
    d 0x00F00000 20 * 100000 + d 0x000F0000 16 * 10000 + d 0x0000F000 12 * 1000 +
    d 0x00000F00 8 * 100 + d 0x000000F0 4 * 10 + d 0x0000000F 0))

def runCiDbcdIns : BodyInput → BodyResult := runDwordConversion dbcd

def runCiDbinIns : BodyInput → BodyResult := runDwordConversion dbin

def runCiDgryIns : BodyInput → BodyResult := runDwordConversion fun x => .ok (encode x)

/-- `run_ci_dgbin_ins`. The shifts are those of `1 << i` below 32. -/
def runCiDgbinIns : BodyInput → BodyResult := runDwordConversion fun x => .ok (decode x 5)

/-! ## Laws -/

/-- An instruction with power flow whose first operand is a double word. -/
structure Given (x : BitVec 32) (i : BodyInput) : Prop where
  power : getPowerFlow i.inPF = true
  value : i.dword 2 0 i.store = .ok x

/-- An instruction stores a value for another. -/
def Converts (run : BodyInput → BodyResult) (x y : BitVec 32) : Prop :=
  ∀ i, Given x i → run i = i.storedDword 8 y i.store

/-- An instruction refuses a value. -/
def Refuses (run : BodyInput → BodyResult) (x : BitVec 32) : Prop :=
  ∀ i, Given x i → run i = i.refused

/-- Applied to what one instruction has stored for a value, another stores the value. -/
def Undoes (back run : BodyInput → BodyResult) (x : BitVec 32) : Prop :=
  ∃ y, Converts run x y ∧ Converts back y x

section

variable {f g : BitVec 32 → Except PlcErr (BitVec 32)} {i : BodyInput} {x y : BitVec 32}

theorem converts_of_eq (h : f x = .ok y) : Converts (runDwordConversion f) x y := by
  intro i hi
  have hchecked : (i.dword 2 0 i.store >>= f) = .ok y := by
    rw [hi.value]
    exact h
  exact runChecked_eq hi.power hchecked

theorem refuses_of_eq (h : f x = .error .operands) : Refuses (runDwordConversion f) x := by
  intro i hi
  have hchecked : (i.dword 2 0 i.store >>= f) = .error .operands := by
    rw [hi.value]
    exact h
  simp only [runDwordConversion, runChecked, hi.power, hchecked]
  rfl

def literalToD0 (x : BitVec 32) : BodyInput :=
  { ucode := [0, 0] ++ literalOperand x ++ d0Operand, pc := 0, level := 0, now := 0, inPF := 1,
    sfc := Plc.off.sfc, store := .off }

theorem given_literalToD0 : Given x (literalToD0 x) := by
  refine ⟨getPowerFlow_one, dword_literal ?_⟩
  have hcode := Ucode.codeAt_self (u := (literalToD0 x).ucode)
  exact (Ucode.codeAt_append.mp (Ucode.codeAt_append.mp hcode).1).2

theorem dest_literalToD0 : (literalToD0 x).ucode.CodeAt ((literalToD0 x).pc + 8) d0Operand :=
  (Ucode.codeAt_append.mp (Ucode.codeAt_self (u := (literalToD0 x).ucode))).2

theorem run_literalToD0_error {e : PlcErr} (h : f x = .error e) :
    runDwordConversion f (literalToD0 x) =
      (.error e, (literalToD0 x).inPF, (literalToD0 x).store) := by
  have hchecked : ((literalToD0 x).dword 2 0 (literalToD0 x).store >>= f) = .error e := by
    rw [given_literalToD0.value]
    exact h
  simp only [runDwordConversion, runChecked, given_literalToD0.power, if_true, hchecked]

/-- An instruction stores no two values for one. -/
theorem converts_iff : Converts (runDwordConversion f) x y ↔ f x = .ok y := by
  refine ⟨fun h => ?_, converts_of_eq⟩
  have hrun := h _ given_literalToD0
  cases hf : f x with
  | error e =>
    rw [run_literalToD0_error hf, storedDword_d0 dest_literalToD0] at hrun
    cases congrArg Prod.fst hrun
  | ok z =>
    have hz := converts_of_eq hf _ given_literalToD0
    rw [storedDword_d0_inj dest_literalToD0 (hz.symm.trans hrun)]

theorem refuses_iff : Refuses (runDwordConversion f) x ↔ f x = .error .operands := by
  refine ⟨fun h => ?_, refuses_of_eq⟩
  have hrun := h _ given_literalToD0
  cases hf : f x with
  | error e =>
    rw [run_literalToD0_error hf] at hrun
    rw [error.inj (congrArg Prod.fst hrun)]
  | ok z =>
    rw [converts_of_eq hf _ given_literalToD0, storedDword_d0 dest_literalToD0] at hrun
    cases congrArg Prod.fst hrun

theorem undoes_iff :
    Undoes (runDwordConversion g) (runDwordConversion f) x ↔ (f x >>= g) = .ok x := by
  simp only [Undoes, converts_iff]
  constructor
  · rintro ⟨y, hf, hg⟩
    rw [hf]
    exact hg
  · exact bind_eq_ok

end

/-! ## Decimal digits -/

section

variable {x mask : BitVec 32}

/-- The decimal digits that `DBCD` writes: all but that of 10 ^ 7. -/
theorem dbcd_eq : dbcd x = if 99999999 < x.toNat then .error .operands
    else .ok (BitVec.ofNat 32 (rebase 10 16 8 (x.toNat % 10 ^ 7))) := by
  rw [dbcd]
  split
  · rfl
  · rename_i hle
    refine congrArg (fun n => ok (BitVec.ofNat 32 n)) ?_
    have hdigit (k : Nat) (hk : k < 7) :
        digitAt 10 (x.toNat % 10 ^ 7) k = x.toNat % 10 ^ (k + 1) / 10 ^ k := by
      rw [digitAt, ← mod_mul_right_div_self, ← Nat.pow_succ, mod_mod_of_dvd _ (pow_dvd_pow 10 hk)]
    have htop : digitAt 10 (x.toNat % 10 ^ 7) 7 = 0 := by
      rw [digitAt, Nat.div_eq_of_lt (mod_lt _ (by decide))]
    simp only [rebase_succ, htop, hdigit, reduceLT]
    rw [rebase]
    omega

theorem maskedDigit_eq {k : Nat} (h : mask.toNat >>> (4 * k) = 15) :
    maskedDigit x mask (4 * k) = digitAt 16 x.toNat k := by
  rw [maskedDigit, BitVec.toNat_ushiftRight, BitVec.toNat_and, shiftRight_and_distrib, h,
    and_two_pow_sub_one_eq_mod _ 4, shiftRight_eq_div_pow, digitAt, Nat.pow_mul]

/-- The masks and shifts of `DBIN` are those of the eight digits. -/
theorem dbin_digits (x : BitVec 32) :
    maskedDigit x 0xF0000000 28 = digitAt 16 x.toNat 7 ∧
    maskedDigit x 0x0F000000 24 = digitAt 16 x.toNat 6 ∧
    maskedDigit x 0x00F00000 20 = digitAt 16 x.toNat 5 ∧
    maskedDigit x 0x000F0000 16 = digitAt 16 x.toNat 4 ∧
    maskedDigit x 0x0000F000 12 = digitAt 16 x.toNat 3 ∧
    maskedDigit x 0x00000F00 8 = digitAt 16 x.toNat 2 ∧
    maskedDigit x 0x000000F0 4 = digitAt 16 x.toNat 1 ∧
    maskedDigit x 0x0000000F 0 = digitAt 16 x.toNat 0 :=
  ⟨maskedDigit_eq (k := 7) rfl, maskedDigit_eq (k := 6) rfl, maskedDigit_eq (k := 5) rfl,
    maskedDigit_eq (k := 4) rfl, maskedDigit_eq (k := 3) rfl, maskedDigit_eq (k := 2) rfl,
    maskedDigit_eq (k := 1) rfl, maskedDigit_eq (k := 0) rfl⟩

/-- All eight digits of a double word are decimal. -/
def DecimalDigits (x : BitVec 32) : Prop := ∀ k < 8, digitAt 16 x.toNat k ≤ 9

theorem decimalDigits_iff (x : BitVec 32) : DecimalDigits x ↔
    ¬ (9 < digitAt 16 x.toNat 7 ∨ 9 < digitAt 16 x.toNat 6 ∨ 9 < digitAt 16 x.toNat 5 ∨
      9 < digitAt 16 x.toNat 4 ∨ 9 < digitAt 16 x.toNat 3 ∨ 9 < digitAt 16 x.toNat 2 ∨
      9 < digitAt 16 x.toNat 1 ∨ 9 < digitAt 16 x.toNat 0) := by
  simp only [not_or, Nat.not_lt]
  constructor
  · intro h
    exact ⟨h 7 (by decide), h 6 (by decide), h 5 (by decide), h 4 (by decide), h 3 (by decide),
      h 2 (by decide), h 1 (by decide), h 0 (by decide)⟩
  · rintro ⟨h7, h6, h5, h4, h3, h2, h1, h0⟩ k hk
    interval_cases k <;> assumption

theorem dbin_of_decimal (h : DecimalDigits x) :
    dbin x = .ok (BitVec.ofNat 32 (rebase 16 10 8 x.toNat)) := by
  obtain ⟨h7, h6, h5, h4, h3, h2, h1, h0⟩ := dbin_digits x
  simp only [dbin, h7, h6, h5, h4, h3, h2, h1, h0, if_neg ((decimalDigits_iff x).mp h)]
  refine congrArg (fun n => ok (BitVec.ofNat 32 n)) ?_
  simp only [rebase_succ]
  generalize digitAt 16 x.toNat = d
  rw [rebase]
  omega

theorem dbin_refuses_iff : dbin x = .error .operands ↔ ¬ DecimalDigits x := by
  constructor
  · intro h hdigits
    rw [dbin_of_decimal hdigits] at h
    cases h
  · intro h
    obtain ⟨h7, h6, h5, h4, h3, h2, h1, h0⟩ := dbin_digits x
    simp only [dbin, h7, h6, h5, h4, h3, h2, h1, h0,
      if_pos (not_not.mp (mt (decimalDigits_iff x).mpr h))]

/-- `DBIN` after `DBCD` gives a number back just if it has no eighth digit. -/
theorem dbcd_dbin_iff (hx : x.toNat ≤ 99999999) : (dbcd x >>= dbin) = .ok x ↔ x.toNat < 10 ^ 7 := by
  have hdigits : ∀ k < 8, digitAt 10 (x.toNat % 10 ^ 7) k < 16 := fun k _ =>
    Nat.lt_of_lt_of_le (mod_lt _ (by decide)) (by decide)
  have hlt : rebase 10 16 8 (x.toNat % 10 ^ 7) < 2 ^ 32 := rebase_lt hdigits
  have hdecimal : DecimalDigits (BitVec.ofNat 32 (rebase 10 16 8 (x.toNat % 10 ^ 7))) := by
    intro k hk
    rw [toNat_ofNat, mod_eq_of_lt hlt, digitAt_rebase hdigits hk]
    exact le_of_lt_succ (mod_lt _ (by decide))
  have hback : (dbcd x >>= dbin) = .ok (BitVec.ofNat 32 (x.toNat % 10 ^ 7)) := by
    rw [dbcd_eq, if_neg (Nat.not_lt.mpr hx)]
    refine (dbin_of_decimal hdecimal).trans ?_
    rw [toNat_ofNat, mod_eq_of_lt hlt, rebase_rebase hdigits]
    refine congrArg (fun n => ok (BitVec.ofNat 32 n)) (mod_eq_of_lt ?_)
    exact Nat.lt_of_lt_of_le (mod_lt _ (by decide)) (by decide)
  rw [hback]
  constructor
  · intro h
    have hnat := congrArg BitVec.toNat (ok.inj h)
    rw [← hnat]
    exact Nat.lt_of_le_of_lt (mod_le _ _) (mod_lt _ (by decide))
  · intro h
    rw [mod_eq_of_lt h, ofNat_toNat, setWidth_eq]

theorem dbin_dbcd_iff (hx : DecimalDigits x) :
    (dbin x >>= dbcd) = .ok x ↔ digitAt 16 x.toNat 7 = 0 := by
  have hdigits : ∀ k < 8, digitAt 16 x.toNat k < 10 := fun k hk => lt_succ_of_le (hx k hk)
  have hseven : ∀ k < 7, digitAt 16 x.toNat k < 10 := fun k hk => hdigits k (lt_succ_of_lt hk)
  -- what `DBIN` reads, and its lower seven digits
  obtain ⟨n, hn⟩ : ∃ n, n = rebase 16 10 8 x.toNat := ⟨_, rfl⟩
  have hlt : n < 10 ^ 8 := hn ▸ rebase_lt hdigits
  have hlow : n % 10 ^ 7 = rebase 16 10 7 x.toNat := by
    rw [hn, rebase_succ, add_mul_mod_self_right]
    exact mod_eq_of_lt (rebase_lt hseven)
  have hnumber : (BitVec.ofNat 32 n).toNat = n := by
    exact mod_eq_of_lt (Nat.lt_trans hlt (by decide))
  have hsixteen : rebase 10 16 8 (n % 10 ^ 7) = x.toNat % 16 ^ 7 := by
    have htop : digitAt 10 (rebase 16 10 7 x.toNat) 7 = 0 := by
      rw [digitAt, div_eq_of_lt (rebase_lt hseven)]
    rw [hlow, rebase_succ, htop, Nat.zero_mul, Nat.add_zero, rebase_rebase hseven]
  have hback : (dbin x >>= dbcd) = .ok (BitVec.ofNat 32 (x.toNat % 16 ^ 7)) := by
    rw [dbin_of_decimal hx, ← hn]
    change dbcd (BitVec.ofNat 32 n) = _
    rw [dbcd_eq, hnumber, hsixteen, if_neg (by omega)]
  rw [hback]
  constructor
  · intro h
    have hnat := congrArg BitVec.toNat (ok.inj h)
    have hmod := mod_lt x.toNat (show 0 < 16 ^ 7 by decide)
    rw [toNat_ofNat, mod_eq_of_lt (Nat.lt_trans hmod (by decide))] at hnat
    rw [digitAt, div_eq_of_lt (hnat ▸ hmod)]
  · intro h
    have hdiv : x.toNat / 16 ^ 7 < 16 :=
      Nat.div_lt_of_lt_mul (Nat.lt_of_lt_of_le x.isLt (by decide))
    rw [digitAt, mod_eq_of_lt hdiv] at h
    rw [mod_eq_of_lt (div_eq_zero_iff_lt (by decide) |>.mp h), ofNat_toNat,
      setWidth_eq]

theorem dbcd_refuses_iff : dbcd x = .error .operands ↔ 99999999 < x.toNat := by
  rw [dbcd_eq]
  split
  · rename_i h
    exact iff_of_true rfl h
  · rename_i h
    refine iff_of_false ?_ h
    intro hdbcd
    cases hdbcd

/-- The laws of the conversions of double words: which undo one another, and what is refused. -/
structure ConversionsRight (x : BitVec 32) : Prop where
  dbcd : x.toNat ≤ 99999999 → Undoes runCiDbinIns runCiDbcdIns x
  dbin : DecimalDigits x → Undoes runCiDbcdIns runCiDbinIns x
  dbcdRefuses : Refuses runCiDbcdIns x ↔ 99999999 < x.toNat
  dbinRefuses : Refuses runCiDbinIns x ↔ ¬ DecimalDigits x
  dgry : Undoes runCiDgbinIns runCiDgryIns x
  dgbin : Undoes runCiDgryIns runCiDgbinIns x

/-- The laws hold of a double word just if the eighth decimal digit is not needed: neither as that
of a number nor as a digit of its own. -/
theorem conversions_right_iff (x : BitVec 32) : ConversionsRight x ↔
    (x.toNat < 10 ^ 7 ∨ 99999999 < x.toNat) ∧ (DecimalDigits x → digitAt 16 x.toNat 7 = 0) := by
  constructor
  · intro h
    refine ⟨(Nat.lt_or_ge 99999999 x.toNat).symm.imp_left fun hx => ?_, fun hx => ?_⟩
    · exact (dbcd_dbin_iff hx).mp (undoes_iff.mp (h.dbcd hx))
    · exact (dbin_dbcd_iff hx).mp (undoes_iff.mp (h.dbin hx))
  · rintro ⟨hnumber, hdigits⟩
    refine ⟨fun hx => ?_, fun hx => ?_, ?_, ?_, ?_, ?_⟩
    · have hlt := hnumber.resolve_right (Nat.not_lt.mpr hx)
      exact undoes_iff.mpr ((dbcd_dbin_iff hx).mpr hlt)
    · exact undoes_iff.mpr ((dbin_dbcd_iff hx).mpr (hdigits hx))
    · exact refuses_iff.trans dbcd_refuses_iff
    · exact refuses_iff.trans dbin_refuses_iff
    · exact undoes_iff.mpr (congrArg ok (decode_encode (by decide)))
    · exact undoes_iff.mpr (congrArg ok (encode_decode (by decide)))

/-- The number 10 ^ 7 becomes zero. -/
theorem dbcd_loses_digit : ¬ ConversionsRight 10000000 := by
  intro h
  have hback := undoes_iff.mp (h.dbcd (by decide))
  exact absurd hback (by decide)

end

end Kalyke
