-- SUMMARY: Process data of EtherCAT slaves: how elements are filled into an image and taken from one.
import Kalyke.Daisy.Octets
import Kalyke.Lib.Image
import Mathlib.Data.List.GetD

/-!
# Process Data

The cyclic part of `ether_cat_task.c`. The mapping of a slave lists elements with their lengths in
bits, and both directions walk through it with a count of the bits so far. Single bits go to the
place of the count, cut to eight bits; all else goes to the byte that the count lies in. What is
taken from the image for eight or sixteen bits at a time is not the image but its byte numbers.
-/

namespace Kalyke

open List Nat BitVec Function Option

/-- `soem_pdo_st`, as far as it is read here: the length in bits and the element. -/
structure SoemPdo where
  len : Nat
  eType : DaisyElementType
  eAddr : Nat
deriving DecidableEq, Repr

/-- A slave: its mapping in both directions, and its images. -/
structure SoemSlave where
  rxPDO : List SoemPdo
  txPDO : List SoemPdo
  outputs : Image
  inputs : Image

def DaisyElementType.soemWord : DaisyElementType → Option WordElement
  | d => some .D
  | r => some .R
  | _ => none

/-! ## Images -/

def setOutputBit (img : Image) (chIndex : BitVec 8) (value : Bool) : Image :=
  let offsetBytes := (chIndex >>> 3).toNat
  let bit := 1#8 <<< (chIndex.toNat % 8)
  update img offsetBytes
    (if value then img offsetBytes ||| bit else img offsetBytes &&& ~~~bit)

def getInputBit (img : Image) (chIndex : BitVec 8) : Bool :=
  (img (chIndex >>> 3).toNat &&& 1#8 <<< (chIndex.toNat % 8)) != 0#8

/-! ## Outputs -/

/-- What is filled in for word elements. -/
def rxWord (s : Store) (w : WordElement) (off : Nat) (e : SoemPdo) (img : Image) : Image :=
  let curOffset := off / 8
  if e.len = 0x20 then
    img.put curOffset (Image.wordBytes (s.word w e.eAddr) ++ Image.wordBytes (s.word w (e.eAddr + 1)))
  else if e.len = 0x10 then img.put curOffset (Image.wordBytes (s.word w e.eAddr))
  else if e.len = 0x08 then img.put curOffset [(s.word w e.eAddr).setWidth 8]
  else img

/-- What is filled in for bit elements. -/
def rxBits (s : Store) (b : BitElement) (off : Nat) (e : SoemPdo) (img : Image) : Image :=
  if e.len = 0x01 then setOutputBit img (BitVec.ofNat 8 off) (s.bit b e.eAddr)
  else
    let curOffset := off / 8
    if e.len = 0x08 then img.put curOffset [daisyGet8bitElementValue s b e.eAddr]
    else if e.len = 0x10 then
      img.put curOffset [daisyGet8bitElementValue s b e.eAddr,
        daisyGet8bitElementValue s b (elementIndex (e.eAddr + 8))]
    else img

/-- The switch of `kalyke_soem_process_RxPDO_data`. -/
def rxEntry (s : Store) (img : Image) (off : Nat) (e : SoemPdo) : Image :=
  match e.eType.soemWord, e.eType.bits with
  | some w, _ => rxWord s w off e img
  | none, some b => rxBits s b off e img
  | none, none => img

/-- The entries of a mapping, each with the `curOffsetBit` that it comes with. -/
def places : Nat → List SoemPdo → List (Nat × SoemPdo)
  | _, [] => []
  | off, e :: es => (off, e) :: places ((off + e.len) % 65536) es

/-- The outputs of a slave. -/
def rxLoop (s : Store) (es : List SoemPdo) (img : Image) : Image :=
  (places 0 es).foldl (fun img p => rxEntry s img p.1 p.2) img

def kalykeSoemProcessRxPDOData (s : Store) (slaves : List SoemSlave) : List SoemSlave :=
  slaves.map fun slave => { slave with outputs := rxLoop s slave.rxPDO slave.outputs }

/-! ## Inputs -/

/-- What is taken for word elements. A value of 32 bits is stored at once, the lower half first. -/
def txWord (img : Image) (w : WordElement) (off : Nat) (e : SoemPdo) (s : Store) : Store :=
  let curOffset := off / 8
  if e.len = 0x20 then
    (s.setWord (.elem w) e.eAddr (img.word curOffset)).setWord (.elem w) (e.eAddr + 1)
      (img.word (curOffset + 2))
  else if e.len = 0x10 then s.setWord (.elem w) e.eAddr (img.word curOffset)
  else if e.len = 0x08 then s.setWord (.elem w) e.eAddr ((img curOffset).setWidth 16)
  else s

/-- What is taken for bit elements. For eight or sixteen of them the number of the octet is given
where the number of its first bit is expected, and the number of the byte where its value is. -/
def txBits (img : Image) (b : BitElement) (off : Nat) (e : SoemPdo) (s : Store) : Store :=
  if e.len = 0x01 then s.setBit (.elem b) e.eAddr (getInputBit img (BitVec.ofNat 8 off))
  else
    let curOffset := off / 8
    let curOffsetElem := e.eAddr / 8
    if e.len = 0x08 then daisySet8bitElementValue s b curOffsetElem (BitVec.ofNat 8 curOffset)
    else if e.len = 0x10 then
      daisySet8bitElementValue
        (daisySet8bitElementValue s b curOffsetElem (BitVec.ofNat 8 (curOffset + 1))) b
        (curOffsetElem + 1) (BitVec.ofNat 8 curOffset)
    else s

/-- The switch of `kalyke_soem_process_TxPDO_data`. -/
def txEntry (img : Image) (s : Store) (off : Nat) (e : SoemPdo) : Store :=
  match e.eType.soemWord, e.eType.bits with
  | some w, _ => txWord img w off e s
  | none, some b => txBits img b off e s
  | none, none => s

def txLoop (s : Store) (slave : SoemSlave) : Store :=
  (places 0 slave.txPDO).foldl (fun s p => txEntry slave.inputs s p.1 p.2) s

def kalykeSoemProcessTxPDOData (slaves : List SoemSlave) (s : Store) : Store :=
  slaves.foldl txLoop s

/-! ## Bits of an image -/

section

variable {img : Image} {q : Nat}

theorem getLsbD_channel (off n : Nat) : (1#8 <<< (off % 8)).getLsbD n = decide (off % 8 = n) := by
  rw [← twoPow_eq]
  simp [mod_lt]

theorem toNat_byte (off : BitVec 8) : (off >>> 3).toNat = off.toNat / 8 := by
  rw [toNat_ushiftRight, shiftRight_eq_div_pow]

theorem bit_setOutputBit (off : BitVec 8) (v : Bool) :
    (setOutputBit img off v).bit q = if q = off.toNat then v else img.bit q := by
  have hlt : q % 8 < 8 := mod_lt _ (by decide)
  by_cases hq : q / 8 = off.toNat / 8
  · have hself : (setOutputBit img off v).bit q =
        (if v then img (q / 8) ||| 1#8 <<< (off.toNat % 8)
          else img (q / 8) &&& ~~~(1#8 <<< (off.toNat % 8))).getLsbD (q % 8) := by
      simp only [Image.bit, setOutputBit, toNat_byte, ← hq, update_self]
    rw [hself, Image.bit]
    by_cases heq : q = off.toNat
    · have hmask : (1#8 <<< (off.toNat % 8)).getLsbD (q % 8) = true := by
        rw [getLsbD_channel, heq, decide_eq_true rfl]
      rw [if_pos heq]
      cases v
      · simp only [Bool.false_eq_true, if_false, getLsbD_and, getLsbD_not, hmask,
          Bool.not_true, Bool.and_false]
      · simp only [if_true, getLsbD_or, hmask, Bool.or_true]
    · have hmask : (1#8 <<< (off.toNat % 8)).getLsbD (q % 8) = false := by
        rw [getLsbD_channel, decide_eq_false (by omega)]
      rw [if_neg heq]
      cases v
      · simp only [Bool.false_eq_true, if_false, getLsbD_and, getLsbD_not, hmask,
          hlt, decide_true, Bool.not_false, Bool.and_true]
      · simp only [if_true, getLsbD_or, hmask, Bool.or_false]
  · have hne : q ≠ off.toNat := fun heq => hq (by rw [heq])
    rw [if_neg hne, Image.bit, setOutputBit]
    simp only [toNat_byte]
    rw [update_of_ne hq, Image.bit]

theorem getInputBit_eq (off : BitVec 8) : getInputBit img off = img.bit off.toNat := by
  rw [getInputBit, toNat_byte, Image.bit, ← twoPow_eq, and_twoPow]
  cases hbit : (img (off.toNat / 8)).getLsbD (off.toNat % 8) with
  | false => simp
  | true =>
    have hone : (twoPow 8 (off.toNat % 8)).getLsbD (off.toNat % 8) = true := by
      rw [twoPow_eq, getLsbD_channel, decide_eq_true rfl]
    rw [if_pos rfl, bne_iff_ne]
    intro hzero
    rw [hzero, getLsbD_zero] at hone
    cases hone

end

/-! ## Entries -/

namespace SoemPdo

variable (e : SoemPdo)

/-- The elements of an entry: the words that its length takes up, or as many bits. -/
def cells : List Cell :=
  match e.eType.soemWord, e.eType.bits with
  | some w, _ => (range ((e.len + 15) / 16)).map fun k => .word w (e.eAddr + k)
  | none, some b => (range e.len).map fun k => .bit b (e.eAddr + k)
  | none, none => []

def value (s : Store) (k : Nat) : Bool :=
  match e.eType.soemWord, e.eType.bits with
  | some w, _ => (s.word w (e.eAddr + k / 16)).getLsbD (k % 16)
  | none, some b => s.bit b (e.eAddr + k)
  | none, none => false

/-- The place of an entry in the image, for the `curOffsetBit` that it comes with. -/
def startBit (off : Nat) : Nat := if e.len = 1 then off % 256 else 8 * (off / 8)

/-- An entry for elements that there are, of a length that they can have. The first of several bits
has a number that the length divides. -/
def Legal : Prop :=
  match e.eType.soemWord, e.eType.bits with
  | some w, _ => (e.len = 8 ∨ e.len = 16 ∨ e.len = 32) ∧ e.eAddr + (e.len + 15) / 16 ≤ w.rang
  | none, some b => (e.len = 1 ∨ e.len = 8 ∨ e.len = 16) ∧ e.len ∣ e.eAddr ∧
      e.eAddr + e.len ≤ b.rang
  | none, none => False

/-- The bits of the image that an entry fills in. -/
def rxPatch (s : Store) (off : Nat) : Patch Nat Bool := fun q =>
  if e.startBit off ≤ q ∧ q < e.startBit off + e.len then some (e.value s (q - e.startBit off))
  else none

variable {e} {off : Nat} {s : Store} {img : Image}

theorem Legal.cases (h : e.Legal) :
    (∃ w, e.eType.soemWord = some w ∧ (e.len = 8 ∨ e.len = 16 ∨ e.len = 32) ∧
      e.eAddr + (e.len + 15) / 16 ≤ w.rang) ∨
    ∃ b, e.eType.soemWord = none ∧ e.eType.bits = some b ∧
      (e.len = 1 ∨ e.len = 8 ∨ e.len = 16) ∧ e.len ∣ e.eAddr ∧ e.eAddr + e.len ≤ b.rang := by
  rw [Legal] at h
  split at h
  · rename_i w hw
    exact .inl ⟨w, hw, h⟩
  · rename_i b hw hb
    exact .inr ⟨b, hw, hb, h⟩
  · exact h.elim

/-- Some bytes are filled in that hold the bits of the entry. -/
theorem bit_put_eq {xs : List (BitVec 8)} (hlen : e.len ≠ 1) (hxs : e.len = 8 * xs.length)
    (h : ∀ k < e.len, (xs.getD (k / 8) 0).getLsbD (k % 8) = e.value s k) :
    (img.put (off / 8) xs).bit = (e.rxPatch s off).apply img.bit := by
  funext q
  rw [Image.bit_put, Patch.apply, rxPatch, startBit, if_neg hlen]
  by_cases hq : 8 * (off / 8) ≤ q ∧ q < 8 * (off / 8 + xs.length)
  · have hk := h (q - 8 * (off / 8)) (by omega)
    have hdiv : (q - 8 * (off / 8)) / 8 = q / 8 - off / 8 := by omega
    have hmod : (q - 8 * (off / 8)) % 8 = q % 8 := by omega
    rw [hdiv, hmod] at hk
    rw [if_pos hq, if_pos (by omega), hk]
    rfl
  · rw [if_neg hq, if_neg (by omega)]
    rfl

/-- An entry is filled in at its place. -/
theorem bit_rxEntry (h : e.Legal) :
    (rxEntry s img off e).bit = (e.rxPatch s off).apply img.bit := by
  rcases h.cases with ⟨w, hw, hlen, -⟩ | ⟨b, hw, hb, hlen, hdvd, hrang⟩
  · have hvalue (k : Nat) : e.value s k = (s.word w (e.eAddr + k / 16)).getLsbD (k % 16) := by
      simp only [value, hw]
    simp only [rxEntry, hw, rxWord]
    rcases hlen with hlen | hlen | hlen
    · simp only [hlen]
      refine bit_put_eq (by omega) (by simp [hlen]) fun k hk => ?_
      have hdiv : k / 16 = 0 := by omega
      have hmod : k % 16 = k := by omega
      have hzero : k / 8 = 0 := by omega
      rw [hvalue, hdiv, hmod, hzero, mod_eq_of_lt (by omega)]
      change ((s.word w e.eAddr).setWidth 8).getLsbD k = _
      rw [getLsbD_setWidth, decide_eq_true (by omega), Bool.true_and, Nat.add_zero]
    · simp only [hlen]
      refine bit_put_eq (by omega) (by simp [hlen, Image.wordBytes]) fun k hk => ?_
      have hdiv : k / 16 = 0 := by omega
      have hmod : k % 16 = k := by omega
      rw [hvalue, hdiv, hmod]
      exact Image.getLsbD_wordBytes (by omega)
    · simp only [hlen]
      refine bit_put_eq (by omega) (by simp [hlen, Image.wordBytes]) fun k hk => ?_
      have htwo : (Image.wordBytes (s.word w e.eAddr)).length = 2 := rfl
      rw [hvalue]
      rcases Nat.lt_or_ge k 16 with hlt | hge
      · have hdiv : k / 16 = 0 := by omega
        rw [getD_append _ _ _ _ (by rw [htwo]; omega), Image.getLsbD_wordBytes hlt, hdiv,
          mod_eq_of_lt hlt, Nat.add_zero]
      · have hdiv : k / 16 = 1 := by omega
        have hsub : k / 8 - 2 = (k - 16) / 8 := by omega
        have hmod : k % 8 = (k - 16) % 8 := by omega
        have hmod' : k % 16 = k - 16 := by omega
        rw [getD_append_right _ _ _ _ (by rw [htwo]; omega), htwo, hsub, hmod, hdiv, hmod']
        exact Image.getLsbD_wordBytes (by omega)
  · have hvalue (k : Nat) : e.value s k = s.bit b (e.eAddr + k) := by
      simp only [value, hw, hb]
    simp only [rxEntry, hw, hb, rxBits]
    rcases hlen with hlen | hlen | hlen
    · simp only [hlen, if_true]
      funext q
      have hoff : (BitVec.ofNat 8 off).toNat = off % 256 := toNat_ofNat off 8
      rw [bit_setOutputBit, hoff, Patch.apply, rxPatch, startBit, if_pos hlen]
      by_cases hq : q = off % 256
      · rw [if_pos hq, if_pos (by omega), hvalue, hq, Nat.sub_self]
        rfl
      · rw [if_neg hq, if_neg (by omega)]
        rfl
    · simp only [hlen]
      rw [hlen] at hdvd
      refine bit_put_eq (by omega) (by simp [hlen]) fun k hk => ?_
      have hzero : k / 8 = 0 := by omega
      rw [hzero, hvalue, mod_eq_of_lt (by omega)]
      exact getLsbD_daisyGet8bitElementValue (by omega) (by omega)
    · simp only [hlen]
      rw [hlen] at hdvd
      refine bit_put_eq (by omega) (by simp [hlen]) fun k hk => ?_
      rw [hvalue]
      rcases Nat.lt_or_ge k 8 with hlt | hge
      · rw [div_eq_of_lt hlt, mod_eq_of_lt hlt]
        exact getLsbD_daisyGet8bitElementValue hlt (by omega)
      · have hle : b.rang ≤ 16384 := BitArea.rang_le (.elem b)
        have hdiv : k / 8 = 1 := by omega
        have hplace : e.eAddr + 8 + k % 8 = e.eAddr + k := by omega
        rw [hdiv, ← hplace]
        rw [elementIndex_of_lt (by omega)]
        exact getLsbD_daisyGet8bitElementValue (by omega) (by omega)

end SoemPdo

/-! ## What is taken from an image -/

namespace SoemPdo

variable (e : SoemPdo)

/-- The bit that an entry writes, without regard to the image, where it has eight or sixteen. -/
def octetBit (off : Nat) (b : BitElement) (i : Nat) : Option Bool :=
  if e.eType.bits ≠ some b then none
  else if e.len = 0x08 then inOctet (octetStart (e.eAddr / 8)) (BitVec.ofNat 8 (off / 8)) i
  else if e.len = 0x10 then
    (inOctet (octetStart (e.eAddr / 8 + 1)) (BitVec.ofNat 8 (off / 8)) i).or
      (inOctet (octetStart (e.eAddr / 8)) (BitVec.ofNat 8 (off / 8 + 1)) i)
  else none

/-- The entry writes the bit. -/
def HitsBit (b : BitElement) (i : Nat) : Prop :=
  (e.eType.bits = some b ∧ e.len = 1 ∧ i = e.eAddr) ∨ (e.octetBit 0 b i).isSome

/-- What an entry writes. -/
def txPatch (img : Image) (off : Nat) : Patch Cell (BitVec 32) :=
  match e.eType.soemWord, e.eType.bits with
  | some w, _ =>
    if e.len = 0x20 then (wordPatch w e.eAddr (img.word (off / 8))).andThen
      (wordPatch w (e.eAddr + 1) (img.word (off / 8 + 2)))
    else if e.len = 0x10 then wordPatch w e.eAddr (img.word (off / 8))
    else if e.len = 0x08 then wordPatch w e.eAddr ((img (off / 8)).setWidth 16)
    else fun _ => none
  | none, some b =>
    if e.len = 0x01 then bitPatch b e.eAddr (getInputBit img (BitVec.ofNat 8 off))
    else if e.len = 0x08 then
      octetPatch b (octetStart (e.eAddr / 8)) (BitVec.ofNat 8 (off / 8))
    else if e.len = 0x10 then
      (octetPatch b (octetStart (e.eAddr / 8)) (BitVec.ofNat 8 (off / 8 + 1))).andThen
        (octetPatch b (octetStart (e.eAddr / 8 + 1)) (BitVec.ofNat 8 (off / 8)))
    else fun _ => none
  | none, none => fun _ => none

variable {e} {off : Nat} {s : Store} {img : Image}

theorem read_txEntry :
    (fun c => Cell.read (txEntry img s off e) c) =
      (e.txPatch img off).apply fun c => c.read s := by
  rw [txEntry, txPatch]
  split
  · rename_i w hw
    rw [txWord]
    split
    · rw [read_setWord_eq, read_setWord_eq, Patch.andThen_apply]
    split
    · rw [read_setWord_eq]
    split
    · rw [read_setWord_eq]
    · rfl
  · rename_i b hw hb
    rw [txBits]
    split
    · rw [read_setBit_eq]
    split
    · rw [read_set8bit_eq]
    split
    · rw [read_set8bit_eq, read_set8bit_eq, Patch.andThen_apply]
    · rfl
  · rfl

theorem soemWord_of_bits {b : BitElement} (hb : e.eType.bits = some b) :
    e.eType.soemWord = none := by
  cases htype : e.eType <;> rw [htype] at hb <;> first | rfl | cases hb

/-- Which bits are written without regard to the image does not hang on the place. -/
theorem isSome_octetBit_iff {b : BitElement} {i : Nat} (off : Nat) :
    (e.octetBit off b i).isSome ↔ (e.octetBit 0 b i).isSome := by
  have hin (start : Nat) (x : BitVec 8) :
      (inOctet start x i).isSome = decide (start ≤ i ∧ i < start + 8) := by
    rw [inOctet]
    split <;> rename_i h <;> simp [h]
  simp only [octetBit]
  split
  · rfl
  split
  · rw [hin, hin]
  split
  · rw [isSome_or, isSome_or, hin, hin, hin, hin]
  · rfl

/-- What an entry writes: words that hold the bits at its place in the image, the single bit at its
place, or bits without regard to the image. -/
theorem txPatch_cases {c : Cell} {y : BitVec 32} (hlegal : e.Legal)
    (h : e.txPatch img off c = some y) :
    (∃ w j, e.eType.soemWord = some w ∧ c = .word w (e.eAddr + j) ∧ c ∈ e.cells ∧
      ∀ m < 16, 16 * j + m < e.len → y.getLsbD m = img.bit (e.startBit off + (16 * j + m))) ∨
    (∃ b, e.eType.bits = some b ∧ e.len = 1 ∧ c = .bit b e.eAddr ∧
      y = BitVec.ofNat 32 (img.bit (e.startBit off)).toNat) ∨
    ∃ b i v, c = .bit b i ∧ e.octetBit off b i = some v ∧ y = BitVec.ofNat 32 v.toNat := by
  rcases hlegal.cases with ⟨w, hw, hlen, -⟩ | ⟨b, hw, hb, hlen, -, -⟩
  · have hplace : e.startBit off = 8 * (off / 8) := if_neg (by omega)
    have hcell {j : Nat} (hj : j < (e.len + 15) / 16) : .word w (e.eAddr + j) ∈ e.cells := by
      simp only [cells, hw]
      exact List.mem_map.mpr ⟨j, mem_range.mpr hj, rfl⟩
    have hword {i m : Nat} (hm : m < 16) :
        ((img.word i).setWidth 32).getLsbD m = img.bit (8 * i + m) := by
      rw [getLsbD_setWidth, Image.getLsbD_word hm]
      simp [show m < 32 by omega]
    simp only [txPatch, hw] at h
    rw [hplace]
    rcases hlen with hlen | hlen | hlen
    · simp only [hlen] at h
      obtain ⟨rfl, rfl⟩ := wordPatch_eq_some h
      refine .inl ⟨w, 0, hw, rfl, hcell (j := 0) (by omega), fun m hm hlt => ?_⟩
      have hdiv : (8 * (off / 8) + (16 * 0 + m)) / 8 = off / 8 := by omega
      have hmod : (8 * (off / 8) + (16 * 0 + m)) % 8 = m := by omega
      rw [getLsbD_setWidth, Image.bit, hdiv, hmod]
      simp [hm, show m < 32 by omega]
    · simp only [hlen] at h
      obtain ⟨rfl, rfl⟩ := wordPatch_eq_some h
      refine .inl ⟨w, 0, hw, rfl, hcell (j := 0) (by omega), fun m hm _ => ?_⟩
      rw [hword hm, Nat.mul_zero, Nat.zero_add]
    · simp only [hlen] at h
      rcases or_eq_some_iff.mp h with h | ⟨-, h⟩
      · obtain ⟨rfl, rfl⟩ := wordPatch_eq_some h
        refine .inl ⟨w, 1, hw, rfl, hcell (by omega), fun m hm _ => ?_⟩
        rw [hword hm]
        congr 1
        omega
      · obtain ⟨rfl, rfl⟩ := wordPatch_eq_some h
        refine .inl ⟨w, 0, hw, rfl, hcell (j := 0) (by omega), fun m hm _ => ?_⟩
        rw [hword hm, Nat.zero_add]
  · simp only [txPatch, hw, hb] at h
    have hoctet : ¬ e.eType.bits ≠ some b := fun hne => hne hb
    rcases hlen with hlen | hlen | hlen
    · simp only [hlen, if_true] at h
      rw [bitPatch] at h
      split at h
      · rename_i hc
        have hoff : (BitVec.ofNat 8 off).toNat = off % 256 := toNat_ofNat off 8
        refine .inr (.inl ⟨b, hb, hlen, hc, ?_⟩)
        rw [startBit, if_pos hlen, ← hoff, ← getInputBit_eq]
        exact (some.inj h).symm
      · cases h
    · simp only [hlen] at h
      obtain ⟨i, v, rfl, hv, rfl⟩ := octetPatch_eq_some h
      refine .inr (.inr ⟨b, i, v, rfl, ?_, rfl⟩)
      rw [octetBit, if_neg hoctet, if_pos hlen]
      exact hv
    · simp only [hlen] at h
      rcases or_eq_some_iff.mp h with h | ⟨hnone, h⟩
      · obtain ⟨i, v, rfl, hv, rfl⟩ := octetPatch_eq_some h
        refine .inr (.inr ⟨b, i, v, rfl, ?_, rfl⟩)
        rw [octetBit, if_neg hoctet, if_neg (by omega), if_pos hlen, hv]
        rfl
      · obtain ⟨i, v, rfl, hv, rfl⟩ := octetPatch_eq_some h
        refine .inr (.inr ⟨b, i, v, rfl, ?_, rfl⟩)
        rw [octetPatch, if_pos rfl, map_eq_none_iff] at hnone
        rw [octetBit, if_neg hoctet, if_neg (by omega), if_pos hlen, hnone, hv]
        rfl

/-- A bit that an entry does not write. -/
theorem txPatch_of_not_hits {b : BitElement} {i : Nat} (hlegal : e.Legal) (h : ¬ e.HitsBit b i) :
    e.txPatch img off (.bit b i) = none := by
  rcases hp : e.txPatch img off (.bit b i) with _ | y
  · rfl
  · refine absurd ?_ h
    rcases txPatch_cases hlegal hp with
      ⟨w, j, -, hc, -⟩ | ⟨b', hb, hlen, hc, -⟩ | ⟨b', i', v, hc, hv, -⟩
    · cases hc
    · cases hc
      exact .inl ⟨hb, hlen, rfl⟩
    · cases hc
      exact .inr ((isSome_octetBit_iff off).mp (isSome_of_eq_some hv))

/-- What an entry of eight or sixteen bits writes. -/
theorem txPatch_octet {b : BitElement} {i : Nat} {v : Bool} (h : e.octetBit off b i = some v) :
    e.txPatch img off (.bit b i) = some (BitVec.ofNat 32 v.toNat) := by
  rw [octetBit] at h
  split at h
  · cases h
  rename_i hb
  have hb := not_not.mp hb
  have hw := soemWord_of_bits hb
  have hone {start : Nat} {x : BitVec 8} :
      octetPatch b start x (.bit b i) = (inOctet start x i).map fun v => BitVec.ofNat 32 v.toNat :=
    if_pos rfl
  simp only [txPatch, hw, hb]
  split at h
  · rename_i hlen
    rw [if_neg (by omega), if_pos hlen, hone, h]
    rfl
  split at h
  · rename_i hlen
    rw [if_neg (by omega), if_neg (by omega), if_pos hlen, Patch.andThen, hone, hone]
    rcases or_eq_some_iff.mp h with h | ⟨hnone, h⟩
    · rw [h]
      rfl
    · rw [hnone, h]
      rfl
  · cases h

/-- A bit that an entry writes. -/
theorem txPatch_of_hits {b : BitElement} {i : Nat} (h : e.HitsBit b i) :
    e.txPatch img off (.bit b i) ≠ none := by
  rcases h with ⟨hb, hlen, rfl⟩ | h
  · simp only [txPatch, soemWord_of_bits hb, hb, hlen, if_true, bitPatch]
    exact some_ne_none _
  · obtain ⟨v, hv⟩ := isSome_iff_exists.mp ((isSome_octetBit_iff off).mpr h)
    rw [txPatch_octet hv]
    exact some_ne_none _

end SoemPdo

end Kalyke
