-- SUMMARY: The rotations and shifts of words and double words, and the operands each of them takes.
import Kalyke.Exec.Stored
import Kalyke.Lib.CarryRotation

/-!
# Rotations and Shifts

The rotations and shifts of words are written out once for each width. A rotation through the carry
is one of the word with `SM181` above it. `DSHL` is the copy of `SHL` that has kept the addresses of
its operands: where it looks for the count and the destination is the middle of other operands.
-/

namespace Kalyke

open Nat BitVec CarryRotation

/-! ## The instructions -/

section

variable {w : Nat} (x : BitVec w) (y : Nat) (s : Store)

/-- What the rotations to the right store. -/
def ror : BitVec w × Store :=
  if y = 0 then (x, s)
  else
    let y := y % w
    let z := x >>> y ||| x <<< (w - y)
    (z, s.setBit (.elem .SM) 181 z.msb)

/-- What the rotations to the left store. -/
def rol : BitVec w × Store :=
  if y = 0 then (x, s)
  else
    let y := y % w
    let z := x <<< y ||| x >>> (w - y)
    (z, s.setBit (.elem .SM) 181 (z.getLsbD 0))

/-- What the rotations to the right through the carry store. -/
def rcr : BitVec w × Store :=
  let y := y % (w + 1)
  if y = 0 then (x, s)
  else
    let c := s.getBit (.elem .SM) 181
    let z := x >>> y ||| (x <<< (w + 1 - y) + carryWord w c <<< (w - y))
    (z, s.setBit (.elem .SM) 181 (x.getLsbD (y - 1)))

/-- What the rotations to the left through the carry store. -/
def rcl : BitVec w × Store :=
  let y := y % (w + 1)
  if y = 0 then (x, s)
  else
    let c := s.getBit (.elem .SM) 181
    let z := x <<< y ||| (x >>> (w + 1 - y) + carryWord w c <<< (y - 1))
    (z, s.setBit (.elem .SM) 181 (x.getLsbD (w - y)))

/-- What the shifts to the right store. -/
def shr : BitVec w × Store := (if w ≤ y then 0 else x >>> y, s)

/-- What the shifts to the left store. -/
def shl : BitVec w × Store := (if w ≤ y then 0 else x <<< y, s)

end

def shiftCount (i : BodyInput) (q : Nat) : Except PlcErr Nat := do
  let y ← i.word q 0 i.store
  if y.toInt < 0 then .error .operands else return y.toNat

/-- The operands of a rotation or shift of a word. -/
def wordShiftTerms (i : BodyInput) : Except PlcErr (BitVec 16 × Nat) := do
  let x ← i.word 2 0 i.store
  let y ← shiftCount i 10
  return (x, y)

def runWordShift (f : BitVec 16 → Nat → Store → BitVec 16 × Store) (i : BodyInput) : BodyResult :=
  runChecked i (wordShiftTerms i) fun (x, y) s =>
    i.saveWords (i.pc + 6) 0 [(f x y s).1] (f x y s).2

/-- The operands of a rotation or shift of a double word. -/
def dwordShiftTerms (i : BodyInput) (count : Nat) : Except PlcErr (BitVec 32 × Nat) := do
  let x ← i.dword 2 0 i.store
  let y ← shiftCount i count
  return (x, y)

/-- A rotation or shift of a double word. -/
def runDwordShift (f : BitVec 32 → Nat → Store → BitVec 32 × Store) (count dst : Nat)
    (i : BodyInput) : BodyResult :=
  runChecked i (dwordShiftTerms i count) fun (x, y) s =>
    i.saveDwords (i.pc + dst) 0 [(f x y s).1] (f x y s).2

def runCiRorIns : BodyInput → BodyResult := runWordShift ror

def runCiRolIns : BodyInput → BodyResult := runWordShift rol

def runCiRcrIns : BodyInput → BodyResult := runWordShift rcr

def runCiRclIns : BodyInput → BodyResult := runWordShift rcl

def runCiDrorIns : BodyInput → BodyResult := runDwordShift ror 14 8

def runCiDrolIns : BodyInput → BodyResult := runDwordShift rol 14 8

def runCiDrcrIns : BodyInput → BodyResult := runDwordShift rcr 14 8

def runCiDrclIns : BodyInput → BodyResult := runDwordShift rcl 14 8

def runCiShrIns : BodyInput → BodyResult := runWordShift shr

def runCiShlIns : BodyInput → BodyResult := runWordShift shl

def runCiDshrIns : BodyInput → BodyResult := runDwordShift shr 14 8

/-- `run_ci_dshl_ins`. It takes its count and destination for those of `SHL`. -/
def runCiDshlIns : BodyInput → BodyResult := runDwordShift shl 10 6

/-! ## Laws -/

/-- A rotation or shift of a word with power flow. -/
structure WordShiftOf (x : BitVec 16) (y : Nat) (i : BodyInput) : Prop where
  power : getPowerFlow i.inPF = true
  value : i.word 2 0 i.store = .ok x
  count : shiftCount i 10 = .ok y

/-- A rotation or shift of a double word with power flow. -/
structure DwordShiftOf (x : BitVec 32) (y : Nat) (i : BodyInput) : Prop where
  power : getPowerFlow i.inPF = true
  value : i.dword 2 0 i.store = .ok x
  count : shiftCount i 14 = .ok y

section

variable {w : Nat} (stored : BitVec w → Store → BodyResult) (s : Store)

/-- The word that is rotated through the carry. -/
def carried (x : BitVec w) : BitVec (w + 1) := cons (s.getBit (.elem .SM) 181) x

/-- A value is stored, and no other element changed but the carry. -/
def Stores (z : BitVec w) (r : BodyResult) : Prop :=
  ∃ t, ChangesOnly (· = .bit .SM 181) s t ∧ r = stored z t

/-- A word is stored with its carry. -/
def StoresCarried (v : BitVec (w + 1)) (r : BodyResult) : Prop :=
  r = stored (v.setWidth w) (s.setBit (.elem .SM) 181 v.msb)

/-- The laws of the rotations and shifts of one width, but for that to the left. -/
structure Rotates (x : BitVec w) (y : Nat) (ror rol rcr rcl shr : BodyResult) : Prop where
  ror : Stores stored s (x.rotateRight y) ror
  rol : Stores stored s (x.rotateLeft y) rol
  rcr : StoresCarried stored s ((carried s x).rotateRight y) rcr
  rcl : StoresCarried stored s ((carried s x).rotateLeft y) rcl
  shr : shr = stored (BitVec.ofNat w (x.toNat / 2 ^ y)) s

end

/-- The laws of the rotations and shifts of a word and a double word. -/
structure RotationsRight (x : BitVec 16) (y : Nat) (i : BodyInput) (u : BitVec 32) (m : Nat)
    (j : BodyInput) : Prop where
  words : Rotates (fun z => i.storedWords 6 [z]) i.store x y (runCiRorIns i) (runCiRolIns i)
    (runCiRcrIns i) (runCiRclIns i) (runCiShrIns i)
  shl : runCiShlIns i = i.storedWords 6 [BitVec.ofNat 16 (x.toNat * 2 ^ y)] i.store
  /-- `RCR` undoes what `RCL` has stored. -/
  undone : ∀ i', WordShiftOf (((carried i.store x).rotateLeft y).setWidth 16) y i' →
    i'.store.getBit (.elem .SM) 181 = ((carried i.store x).rotateLeft y).msb →
    StoresCarried (fun z => i'.storedWords 6 [z]) i'.store (carried i.store x) (runCiRcrIns i')
  dwords : Rotates (j.storedDword 8) j.store u m (runCiDrorIns j) (runCiDrolIns j)
    (runCiDrcrIns j) (runCiDrclIns j) (runCiDshrIns j)
  dshl : runCiDshlIns j = j.storedDword 8 (BitVec.ofNat 32 (u.toNat * 2 ^ m)) j.store
  /-- `DRCR` undoes what `DRCL` has stored. -/
  dundone : ∀ j', DwordShiftOf (((carried j.store u).rotateLeft m).setWidth 32) m j' →
    j'.store.getBit (.elem .SM) 181 = ((carried j.store u).rotateLeft m).msb →
    StoresCarried (j'.storedDword 8) j'.store (carried j.store u) (runCiDrcrIns j')

/-- What `DSHL` takes for its count and destination does what they would have done: as a count it is
taken, and the double word shifted by it is stored where and as it is to be stored, or it is refused
as the destination is. -/
def TakesForOthers (u : BitVec 32) (m : Nat) (j : BodyInput) : Prop :=
  let right := j.storedDword 8 (BitVec.ofNat 32 (u.toNat * 2 ^ m)) j.store
  (∃ m', shiftCount j 10 = .ok m' ∧
    j.storedDword 6 (BitVec.ofNat 32 (u.toNat * 2 ^ m')) j.store = right) ∨
  ∃ e, shiftCount j 10 = .error e ∧ right = (.error e, j.inPF, j.store)

/-! ## Values -/

section

variable {w y : Nat} {x : BitVec w} {s : Store} {stored : BitVec w → Store → BodyResult}
variable {r : BodyResult}

theorem setBit_getBit (area : BitArea) (k : Nat) : s.setBit area k (s.getBit area k) = s := by
  cases area <;> simp only [Store.setBit, Store.getBit, Function.update_eq_self]

/-- The value that is stored by a rotation to the right, and what it leaves in the carry. -/
theorem ror_spec : (ror x y s).1 = x.rotateRight y ∧
    ChangesOnly (· = .bit .SM 181) s (ror x y s).2 := by
  rw [ror]
  split
  · rename_i hy
    refine ⟨?_, changesOnly_refl⟩
    rw [hy, rotateRight_def, zero_mod, ushiftRight_zero, Nat.sub_zero,
      shiftLeft_eq_zero (Nat.le_refl w), BitVec.or_zero]
  · exact ⟨rotateRight_def.symm, changesOnly_sm 181 _⟩

theorem rol_spec : (rol x y s).1 = x.rotateLeft y ∧
    ChangesOnly (· = .bit .SM 181) s (rol x y s).2 := by
  rw [rol]
  split
  · rename_i hy
    refine ⟨?_, changesOnly_refl⟩
    rw [hy, rotateLeft_def, zero_mod, BitVec.shiftLeft_zero, Nat.sub_zero,
      ushiftRight_eq_zero (Nat.le_refl w), BitVec.or_zero]
  · exact ⟨rotateLeft_def.symm, changesOnly_sm 181 _⟩

/-- The word and the carry that are stored by a rotation to the right through the carry. -/
theorem rcr_spec : rcr x y s = (((carried s x).rotateRight y).setWidth w,
    s.setBit (.elem .SM) 181 ((carried s x).rotateRight y).msb) := by
  rw [rcr, ← rotateRight_mod_eq_rotateRight]
  split
  · rename_i hy
    rw [hy, rotateRight_def, zero_mod, ushiftRight_zero, Nat.sub_zero,
      shiftLeft_eq_zero (Nat.le_refl (w + 1)), BitVec.or_zero, carried,
      setWidth_cons,
      msb_cons, setBit_getBit]
  · rename_i hy
    have hlt := mod_lt y (zero_lt_succ w)
    rw [carried, rotateRight_cons (Nat.pos_of_ne_zero hy) (le_of_lt_succ hlt),
      setWidth_cons, msb_cons]
    rfl

theorem rcl_spec : rcl x y s = (((carried s x).rotateLeft y).setWidth w,
    s.setBit (.elem .SM) 181 ((carried s x).rotateLeft y).msb) := by
  rw [rcl, ← rotateLeft_mod_eq_rotateLeft]
  split
  · rename_i hy
    rw [hy, rotateLeft_def, zero_mod, BitVec.shiftLeft_zero, Nat.sub_zero,
      ushiftRight_eq_zero (Nat.le_refl (w + 1)), BitVec.or_zero, carried,
      setWidth_cons, msb_cons, setBit_getBit]
  · rename_i hy
    have hlt := mod_lt y (zero_lt_succ w)
    rw [carried, rotateLeft_cons (Nat.pos_of_ne_zero hy) (le_of_lt_succ hlt),
      setWidth_cons, msb_cons]
    rfl

theorem shr_spec : shr x y s = (BitVec.ofNat w (x.toNat / 2 ^ y), s) := by
  have hvalue : x >>> y = BitVec.ofNat w (x.toNat / 2 ^ y) := by
    refine eq_of_toNat_eq ?_
    have hle : x.toNat / 2 ^ y < 2 ^ w := Nat.lt_of_le_of_lt (Nat.div_le_self _ _) x.isLt
    rw [toNat_ushiftRight, shiftRight_eq_div_pow, toNat_ofNat,
      mod_eq_of_lt hle]
  rw [shr, ← hvalue]
  split
  · rename_i hle
    rw [ushiftRight_eq_zero hle]
    rfl
  · rfl

theorem shl_spec : shl x y s = (BitVec.ofNat w (x.toNat * 2 ^ y), s) := by
  have hvalue : x <<< y = BitVec.ofNat w (x.toNat * 2 ^ y) := by
    refine eq_of_toNat_eq ?_
    rw [toNat_shiftLeft, Nat.shiftLeft_eq, toNat_ofNat]
  rw [shl, ← hvalue]
  split
  · rename_i hle
    rw [shiftLeft_eq_zero hle]
    rfl
  · rfl

/-- The laws hold where what is computed is stored. -/
theorem rotates_of_stored : Rotates stored s x y (stored (ror x y s).1 (ror x y s).2)
    (stored (rol x y s).1 (rol x y s).2) (stored (rcr x y s).1 (rcr x y s).2)
    (stored (rcl x y s).1 (rcl x y s).2) (stored (shr x y s).1 (shr x y s).2) where
  ror := ⟨_, ror_spec.2, by rw [ror_spec.1]⟩
  rol := ⟨_, rol_spec.2, by rw [rol_spec.1]⟩
  rcr := by rw [rcr_spec, StoresCarried]
  rcl := by rw [rcl_spec, StoresCarried]
  shr := by rw [shr_spec]

/-- A rotation back of what a rotation through the carry has stored. -/
theorem carried_back {v : BitVec (w + 1)} {t : Store} (hcarry : t.getBit (.elem .SM) 181 = v.msb) :
    carried t (v.setWidth w) = v := by
  rw [carried, hcarry]
  exact cons_msb_setWidth v

end

/-! ## The instructions together -/

section

variable {i j : BodyInput} {x : BitVec 16} {y m : Nat} {u : BitVec 32}

theorem wordShift_run {f : BitVec 16 → Nat → Store → BitVec 16 × Store}
    (h : WordShiftOf x y i) :
    runWordShift f i = i.storedWords 6 [(f x y i.store).1] (f x y i.store).2 := by
  have hterms : wordShiftTerms i = .ok (x, y) := by
    simp only [wordShiftTerms, h.value, h.count]
    rfl
  rw [runWordShift, runChecked_eq h.power hterms]
  rfl

theorem dwordShift_run {f : BitVec 32 → Nat → Store → BitVec 32 × Store} {count dst : Nat}
    (hpower : getPowerFlow j.inPF = true) (hvalue : j.dword 2 0 j.store = .ok u)
    (hcount : shiftCount j count = .ok m) :
    runDwordShift f count dst j = j.storedDword dst (f u m j.store).1 (f u m j.store).2 := by
  have hterms : dwordShiftTerms j count = .ok (u, m) := by
    simp only [dwordShiftTerms, hvalue, hcount]
    rfl
  rw [runDwordShift, runChecked_eq hpower hterms]
  rfl

/-- `DSHL` does what it is to do just if what it takes for its operands does. -/
theorem dshl_right_iff (h : DwordShiftOf u m j) :
    runCiDshlIns j = j.storedDword 8 (BitVec.ofNat 32 (u.toNat * 2 ^ m)) j.store ↔
      TakesForOthers u m j := by
  rw [TakesForOthers]
  cases hcount : shiftCount j 10 with
  | ok m' =>
    rw [runCiDshlIns, dwordShift_run h.power h.value hcount, shl_spec]
    constructor
    · exact fun hright => .inl ⟨m', rfl, hright⟩
    · rintro (⟨m'', hm, hright⟩ | ⟨e, he, -⟩)
      · rw [Except.ok.inj hm]
        exact hright
      · cases he
  | error e =>
    have hterms : dwordShiftTerms j 10 = .error e := by
      simp only [dwordShiftTerms, h.value, hcount]
      rfl
    have hrun : runCiDshlIns j = (.error e, j.inPF, j.store) := by
      simp only [runCiDshlIns, runDwordShift, runChecked, h.power, if_true, hterms]
    rw [hrun]
    constructor
    · exact fun hright => .inr ⟨e, rfl, hright.symm⟩
    · rintro (⟨m'', hm, -⟩ | ⟨e', he, hright⟩)
      · cases hm
      · rw [Except.error.inj he]
        exact hright.symm

end

/-! ## Samples -/

def shiftOfWord (x y : UInt8) : BodyInput :=
  { ucode := [0, 0, 0, 0xFF, x, 0] ++ d0Operand ++ [0, 0xFF, y, 0], pc := 0, level := 0, now := 0,
    inPF := 1, sfc := Plc.off.sfc, store := .off }

/-- A shift of a literal of 32 bits to an element of the class `D`. -/
def shiftOfDword (x : BitVec 32) (low high y : UInt8) : BodyInput :=
  { ucode := [0, 0] ++ literalOperand x ++ [0, 0x11, low, high, 0, 0] ++ [0, 0xFF, y, 0], pc := 0,
    level := 0, now := 0, inPF := 1, sfc := Plc.off.sfc, store := .off }

end Kalyke
