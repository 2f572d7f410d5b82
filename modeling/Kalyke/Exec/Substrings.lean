-- SUMMARY: `STRRIGHT`, `STRLEFT` and `STRMIDR`: which parts of strings they store right.
import Kalyke.Exec.Strings

/-!
# Parts of strings

`STRRIGHT` and `STRLEFT` take the operand one byte before the source for the source when they look
for its length, and their counter has no first value: only a part of no length is right. `STRMIDR`
counts positions from zero, puts the zeros of an even length at half of it, and writes nothing for
no length.
-/

namespace Kalyke

open List Option PackedStrings
open BitVec (toNat_ofNat eq_of_toInt_eq)

/-! ## The instructions -/

section

variable (i : BodyInput) (d : Nat)

/-- The loop that puts words of the source, from the one of a character on, in a buffer. -/
def copyPairs : Nat → Nat → Buffer → StrM Buffer
  | 0, _, b => pure b
  | n + 1, k, b => do
    let w ← checked (i.word 2 ((d + k) / 2) i.store)
    let b ← inMemory (b.putWords k [w])
    copyPairs n (k + 2) b

/-- The passes of a loop that counts in steps of two up to a length. -/
def pairPasses (k : Nat) (n : Int) : Nat := ((n - k + 1) / 2).toNat

/-- Some characters from a place on in a buffer. At an odd place the first one comes alone. -/
def copyPart (n : Int) (b : Buffer) : StrM Buffer :=
  if d % 2 = 0 then copyPairs i d (pairPasses 0 n) 0 b
  else do
    let w ← checked (i.word 2 (d / 2) i.store)
    let b ← inMemory (b.put 0 [high w])
    copyPairs i d (pairPasses 1 n) 1 b

end

section

variable (i : BodyInput) (junk : Image) (counter : BitVec 16)

/-- What `STRRIGHT` and `STRLEFT` share: the length that is asked for, and the length of the source,
with what is in its counter at first. -/
def sideLengths : StrM (BitVec 16 × Option (BitVec 16)) := do
  let n ← checked (i.word 10 0 i.store)
  refuseIf (32767 < n.toNat)
  if n = 0 then return (n, none)
  else
    let len ← scan i 1 half counter
    refuseIf (len < n)
    return (n, some len)

def runCiStrrightIns : Option BodyResult :=
  runString i do
    match ← sideLengths i counter with
    | (n, none) => return i.storedWords 6 [n] i.store
    | (n, some len) =>
      let b ← inMemory (Buffer.alloc junk (n.toNat + 2))
      let b ← copyPart i (len.toNat - n.toNat) n.toNat b
      saveEnded i 6 b n.toNat

/-- `run_ci_strleft_ins`. It copies from the place of `STRRIGHT`, too. -/
def runCiStrleftIns : Option BodyResult :=
  runString i do
    match ← sideLengths i counter with
    | (n, none) => return i.storedWords 6 [n] i.store
    | (n, some len) =>
      let b ← inMemory (Buffer.alloc junk (n.toNat + 2))
      let b ← copyPairs i (len.toNat - n.toNat) (pairPasses 0 n.toNat) 0 b
      saveEnded i 6 b n.toNat

/-- The end of `STRMIDR`, with the length of the source, a place, and the length that is asked for.
-/
def strmidrEnd (len p n : BitVec 16) : StrM BodyResult := do
  refuseIf (len.toNat < p.toInt)
  refuseIf (len.toNat - p.toInt < n.toInt)
  let b ← inMemory (Buffer.alloc junk (n.toInt + 2))
  let b ← copyPart i p.toNat n.toInt b
  saveEnded i 6 b n.toInt

def runCiStrmidrIns : Option BodyResult :=
  runString i do
    let p ← checked (i.word 10 0 i.store)
    refuseIf (p.toInt < 1)
    let n ← checked (i.word 10 1 i.store)
    let len ← scan i 2 half 0
    refuseIf (n.toInt < -2)
    if n = 0 then return (.ok (), i.inPF, i.store)
    else if n.toInt = -1 then strmidrEnd i junk len 0 len
    else strmidrEnd i junk len p n

end

/-! ## Laws -/

section

variable (s : List (BitVec 8)) (p n : Int)

/-- The last characters, if there are so many. -/
def rightPart : Option (List (BitVec 8)) :=
  if 0 ≤ n ∧ n ≤ s.length then some (s.drop (s.length - n.toNat)) else none

/-- The first characters, if there are so many. -/
def leftPart : Option (List (BitVec 8)) :=
  if 0 ≤ n ∧ n ≤ s.length then some (s.take n.toNat) else none

/-- Some characters from a position on, the first of which is 1. -/
def partFrom (p n : Nat) : List (BitVec 8) := (s.drop (p - 1)).take n

/-- The characters from a position on if they lie in the string, and all characters for -1. -/
def midPart : Option (List (BitVec 8)) :=
  if p < 1 then none
  else if n = -1 then some s
  else if 0 ≤ n ∧ p - 1 + n ≤ s.length then some (partFrom s p.toNat n.toNat)
  else none

end

def StoresPart (i : BodyInput) (part : Option (List (BitVec 8))) (r : Option BodyResult) : Prop :=
  match part with
  | some cs => StoresString i 6 cs r
  | none => r = some i.refused

/-- A string in elements, and the length that is asked for. -/
structure SideTerms (s : List (BitVec 8)) (n : BitVec 16) (i : BodyInput) : Prop where
  power : getPowerFlow i.inPF = true
  source : ElementsAt i 2 s i.store
  length : i.word 10 0 i.store = .ok n

/-- A string in elements, with a position and a length. -/
structure MidTerms (s : List (BitVec 8)) (p n : BitVec 16) (i : BodyInput) : Prop where
  power : getPowerFlow i.inPF = true
  source : ElementsAt i 2 s i.store
  position : i.word 10 0 i.store = .ok p
  length : i.word 10 1 i.store = .ok n

/-- `STRRIGHT` stores the last characters, whatever is in its memory at first. -/
def TakesRight (s : List (BitVec 8)) (n : BitVec 16) : Prop :=
  ∀ junk counter i, SideTerms s n i →
    StoresPart i (rightPart s n.toInt) (runCiStrrightIns i junk counter)

/-- `STRLEFT` stores the first characters. -/
def TakesLeft (s : List (BitVec 8)) (n : BitVec 16) : Prop :=
  ∀ junk counter i, SideTerms s n i →
    StoresPart i (leftPart s n.toInt) (runCiStrleftIns i junk counter)

/-- `STRMIDR` stores the characters from a position on. -/
def TakesMid (s : List (BitVec 8)) (p n : BitVec 16) : Prop :=
  ∀ junk i, MidTerms s p n i →
    StoresPart i (midPart s p.toInt n.toInt) (runCiStrmidrIns i junk)

/-- When `STRMIDR` is right: nothing is asked for that could be had, or the whole string with an odd
length that is no negative number or without any character, or an odd number of characters that are
the next ones too. -/
def MidHolds (s : List (BitVec 8)) (p n : Int) : Prop :=
  p < 1 ∨ n < -2 ∨ (n = -2 ∧ s.length < p) ∨
    (n = -1 ∧ (s.length = 0 ∨ s.length % 2 = 1 ∧ s.length < 32768)) ∨
    0 < n ∧ (s.length < p - 1 + n ∨ n % 2 = 1 ∧ p + n ≤ s.length ∧
      partFrom s (p.toNat + 1) n.toNat = partFrom s p.toNat n.toNat)

/-! ## Copies -/

section

variable {i : BodyInput} {s : List (BitVec 8)} {w : Nat → BitVec 16} {d n k c : Nat} {b : Buffer}

/-- The characters of the words are put in the buffer, one place after the other. -/
theorem copyPairs_eq (hw : ∀ k ≤ s.length / 2, i.word 2 k i.store = .ok (w k))
    (heven : (d + k) % 2 = 0) (hin : d + k + 2 * c ≤ s.length + 2) (hfits : k + 2 * c ≤ b.size) :
    ∃ m, copyPairs i d c k b = pure ⟨b.size, m⟩ ∧ (∀ j < k, m j = b.bytes j) ∧
      ∀ j, k ≤ j → j < k + 2 * c → m j = image w (d + j) := by
  induction c generalizing k b with
  | zero => exact ⟨b.bytes, rfl, fun _ _ => rfl, fun j hge hlt => by omega⟩
  | succ c ih =>
    have hput : b.putWords k [w ((d + k) / 2)] =
        some ⟨b.size, Buffer.onto b.bytes k (Buffer.wordBytes [w ((d + k) / 2)])⟩ :=
      Buffer.putWords_eq (show k + 2 * 1 ≤ b.size by omega)
    have hlength : (Buffer.wordBytes [w ((d + k) / 2)]).length = 2 := Buffer.length_wordBytes
    obtain ⟨m, hm, hbefore, hchars⟩ := ih (k := k + 2)
      (b := ⟨b.size, Buffer.onto b.bytes k (Buffer.wordBytes [w ((d + k) / 2)])⟩)
      (by omega) (by omega) (show k + 2 + 2 * c ≤ b.size by omega)
    refine ⟨m, ?_, fun j hj => ?_, fun j hge hlt => ?_⟩
    · rw [copyPairs, hw _ (by omega), checked_ok_bind, hput, inMemory_some_bind]
      exact hm
    · rw [hbefore j (by omega)]
      exact Buffer.onto_of_lt hj
    · rcases Nat.lt_or_ge j (k + 2) with hless | hmore
      · obtain ⟨t, rfl⟩ := Nat.exists_eq_add_of_le hge
        have hplace : (d + (k + t)) / 2 = (d + k) / 2 := by omega
        have hparity : (d + (k + t)) % 2 = t % 2 := by omega
        have hhalf : t / 2 = 0 := by omega
        rw [hbefore _ hless]
        refine (Buffer.onto_add (show t < _ by omega)).trans ?_
        rw [Buffer.wordBytes_getD (show t < 2 * 1 by omega)]
        simp only [ofList, image, hplace, hparity, hhalf]
        rfl
      · exact hchars j hmore (by omega)

theorem copyPart_eq (h : ElementsAt i 2 s i.store) (hin : d + n ≤ s.length)
    (hfits : b.size = n + 2) :
    ∃ m, copyPart i d n b = pure ⟨b.size, m⟩ ∧ ∀ j < n, m j = s.getD (d + j) 0 := by
  obtain ⟨w, hw, hs⟩ := h.words
  rw [copyPart]
  split
  · rename_i heven
    obtain ⟨m, hm, -, hchars⟩ := copyPairs_eq (d := d) (k := 0) (c := (n + 1) / 2) (b := b) hw
      (by omega) (by omega) (by omega)
    refine ⟨m, hm, fun j hj => ?_⟩
    rw [hchars j (Nat.zero_le j) (by omega), hs.chars _ (by omega)]
  · rename_i hodd
    have hpasses : pairPasses 1 n = n / 2 := by
      rw [pairPasses]
      omega
    have hput : b.put 0 [high (w (d / 2))] =
        some ⟨b.size, Buffer.onto b.bytes 0 [high (w (d / 2))]⟩ :=
      Buffer.put_eq (p := 0) (show 0 + 1 ≤ b.size by omega)
    obtain ⟨m, hm, hbefore, hchars⟩ := copyPairs_eq (d := d) (k := 1) (c := n / 2)
      (b := ⟨b.size, Buffer.onto b.bytes 0 [high (w (d / 2))]⟩) hw
      (by omega) (by omega) (show 1 + 2 * (n / 2) ≤ b.size by omega)
    refine ⟨m, ?_, fun j hj => ?_⟩
    · rw [hw _ (by omega), checked_ok_bind, hput, inMemory_some_bind, hpasses]
      exact hm
    · rcases Nat.eq_zero_or_pos j with rfl | hpos
      · rw [hbefore 0 Nat.one_pos, Nat.add_zero, ← hs.chars d (by omega)]
        have hplace : d = 2 * (d / 2) + 1 := by omega
        conv_rhs => rw [hplace, image_odd]
        exact Buffer.onto_add (m := b.bytes) (p := 0)
          (show 0 < [high (w (d / 2))].length from Nat.one_pos)
      · rw [hchars j hpos (by omega), hs.chars _ (by omega)]

end

/-! ## `STRMIDR` -/

section

variable {i : BodyInput} {s : List (BitVec 8)} {p n len : BitVec 16} {junk : Image} {part : Image}

theorem strmidrEnd_refused (h : len.toNat < p.toInt ∨ len.toNat - p.toInt < n.toInt) :
    strmidrEnd i junk len p n = checked (.error .operands) := by
  rw [strmidrEnd]
  by_cases hp : len.toNat < p.toInt
  · rw [refuseIf_bind_of hp]
  · rw [refuseIf_bind hp, refuseIf_bind_of (h.resolve_left hp)]

/-- No memory for a length of -2 and less, and none before the buffer for a length of -1. -/
theorem strmidrEnd_none (hp : p.toInt ≤ len.toNat) (hn : n.toInt < 0)
    (hfirst : n.toInt = -1 → p = 0) : strmidrEnd i junk len p n = inMemory none := by
  rw [strmidrEnd, refuseIf_bind (by omega), refuseIf_bind (by omega)]
  by_cases hone : n.toInt = -1
  · obtain rfl := hfirst hone
    rw [hone]
    rfl
  · have halloc : Buffer.alloc junk (n.toInt + 2) = none := if_neg (by omega)
    rw [halloc, inMemory_none_bind]

variable (junk) in
theorem strmidrEnd_stored (h : ElementsAt i 2 s i.store) (hlen : len.toNat = s.length)
    (hp : 0 ≤ p.toInt) (hn : 0 ≤ n.toInt) (hin : p.toInt + n.toInt ≤ s.length) :
    ∃ m, (∀ j < n.toNat, m j = s.getD (p.toNat + j) 0) ∧ strmidrEnd i junk len p n =
      pure (i.storedWords 6 (words (ended m n.toNat) (n.toNat / 2 + 1)) i.store) := by
  obtain ⟨m, hm, hchars⟩ := copyPart_eq (n := n.toNat) (d := p.toNat)
    (b := ⟨n.toNat + 2, junk⟩) h (by rw [toInt_of_nonneg hp, toInt_of_nonneg hn] at hin; omega) rfl
  refine ⟨m, hchars, ?_⟩
  have halloc : Buffer.alloc junk ((n.toNat : Int) + 2) = some ⟨n.toNat + 2, junk⟩ :=
    Buffer.alloc_eq (Nat.succ_pos _)
  rw [strmidrEnd, refuseIf_bind (by omega), refuseIf_bind (by omega), toInt_of_nonneg hn, halloc,
    inMemory_some_bind, hm]
  exact saveEnded_eq (b := ⟨n.toNat + 2, m⟩) (by omega) rfl

end

section

variable {i : BodyInput} {s : List (BitVec 8)} {p n : BitVec 16} {junk : Image}

theorem length_partFrom {p n : Nat} (h : p - 1 + n ≤ s.length) : (partFrom s p n).length = n := by
  rw [partFrom, length_take, length_drop]
  omega

theorem partFrom_getD {p n j : Nat} (hj : j < n) :
    (partFrom s (p + 1) n).getD j 0 = s.getD (p + j) 0 := by
  rw [partFrom, Nat.add_sub_cancel, getD_eq_getElem?_getD, getElem?_take_of_lt hj,
    getElem?_drop, ← getD_eq_getElem?_getD]

/-- Of what is in the buffer, an odd number of characters is stored right if they are those that are
asked for. -/
theorem spells_part_iff {m : Image} {p n : Nat} (hzero : 0 ∉ s) (hpos : 0 < n)
    (hin : p + n ≤ s.length) (hm : ∀ j < n, m j = s.getD (p + j) 0) :
    Spells (ended m n) (partFrom s p n) ↔
      n % 2 = 1 ∧ partFrom s (p + 1) n = partFrom s p n := by
  have hlength := length_partFrom (s := s) (p := p) (n := n) (by omega)
  have hlength' := length_partFrom (s := s) (p := p + 1) (n := n) (by omega)
  have hnext : Spells (ended m n) (partFrom s (p + 1) n) ↔ n % 2 = 1 := by
    have hzero' : 0 ∉ partFrom s (p + 1) n := fun hmem =>
      hzero (mem_of_mem_drop (mem_of_mem_take hmem))
    have hiff := spells_ended_iff (m := m) hzero' fun j hj => by
      rw [hlength'] at hj
      rw [hm j hj, partFrom_getD hj]
    rw [hlength'] at hiff
    rw [hiff]
    exact or_iff_left (by omega)
  constructor
  · intro h
    have hodd : n % 2 = 1 := by
      by_contra heven
      have hnot : ¬ Spells (ended m (partFrom s p n).length) (partFrom s p n) :=
        not_spells_ended (by omega) (by omega)
      rw [hlength] at hnot
      exact hnot h
    exact ⟨hodd, (hnext.mpr hodd).unique h⟩
  · rintro ⟨hodd, heq⟩
    rw [← heq]
    exact hnext.mpr hodd

theorem strmidr_low (h : MidTerms s p n i) (hp : p.toInt < 1) :
    runCiStrmidrIns i junk = some i.refused := by
  rw [runCiStrmidrIns, h.position, checked_ok_bind, refuseIf_bind_of hp, runString_error h.power]
  rfl

theorem strmidr_run (h : MidTerms s p n i) (hs : s.length ≤ 65535) (hp : ¬ p.toInt < 1)
    (hn : n ≠ 0) : runCiStrmidrIns i junk = runString i (do
      refuseIf (n.toInt < -2)
      if n.toInt = -1 then
        strmidrEnd i junk (BitVec.ofNat 16 s.length) 0 (BitVec.ofNat 16 s.length)
      else strmidrEnd i junk (BitVec.ofNat 16 s.length) p n) := by
  rw [runCiStrmidrIns, h.position, checked_ok_bind, refuseIf_bind hp, h.length, checked_ok_bind,
    h.source.scan_eq fun k hk => half_word (by omega), pure_bind]
  simp only [if_neg hn]

theorem strmidr_zero (h : MidTerms s p 0 i) (hs : s.length ≤ 65535) (hp : ¬ p.toInt < 1) :
    runCiStrmidrIns i junk = some (.ok (), i.inPF, i.store) := by
  rw [runCiStrmidrIns, h.position, checked_ok_bind, refuseIf_bind hp, h.length, checked_ok_bind,
    h.source.scan_eq fun k hk => half_word (by omega), pure_bind, refuseIf_bind (by decide),
    if_pos rfl, runString_pure h.power]

/-- A part of some characters is stored right just if it is odd and the next one too. -/
theorem strmidr_some_when (h : MidTerms s p n i) (hs : s.length ≤ 65535) (hzero : 0 ∉ s)
    (hp : ¬ p.toInt < 1) (hn : 0 < n.toInt) :
    RightWhen i 6 32768
      (s.length < p.toInt - 1 + n.toInt ∨ n.toInt % 2 = 1 ∧ p.toInt + n.toInt ≤ s.length ∧
        partFrom s (p.toInt.toNat + 1) n.toInt.toNat = partFrom s p.toInt.toNat n.toInt.toNat)
      (StoresPart i (midPart s p.toInt n.toInt) (runCiStrmidrIns i junk)) := by
  have hlen : (BitVec.ofNat 16 s.length).toNat = s.length := by
    rw [toNat_ofNat]
    omega
  have hpnat := toInt_of_nonneg (x := p) (by omega)
  have hnnat := toInt_of_nonneg (x := n) (by omega)
  have hrun : runCiStrmidrIns i junk =
      runString i (strmidrEnd i junk (BitVec.ofNat 16 s.length) p n) := by
    have hne : n ≠ 0 := by
      rintro rfl
      exact absurd hn (by decide)
    rw [strmidr_run h hs hp hne, refuseIf_bind (by omega), if_neg (by omega)]
  have hrefused (hout : s.length < p.toInt + n.toInt) :
      runCiStrmidrIns i junk = some i.refused := by
    rw [hrun, strmidrEnd_refused (by omega), runString_error h.power]
    rfl
  by_cases hout : s.length < p.toInt - 1 + n.toInt
  · have hpart : midPart s p.toInt n.toInt = none := by
      rw [midPart, if_neg hp, if_neg (by omega), if_neg (by omega)]
    rw [hpart]
    exact .of_iff (iff_of_true (hrefused (by omega)) (.inl hout))
  rw [or_iff_right hout]
  have hpart : midPart s p.toInt n.toInt = some (partFrom s p.toNat n.toNat) := by
    rw [midPart, if_neg hp, if_neg (by omega), if_pos (by omega), hpnat, hnnat, Int.toNat_natCast,
      Int.toNat_natCast]
  have hlength := length_partFrom (s := s) (p := p.toNat) (n := n.toNat) (by omega)
  rw [hpart]
  by_cases hin : p.toInt + n.toInt ≤ s.length
  · obtain ⟨m, hm, hend⟩ := strmidrEnd_stored (p := p) (n := n) junk h.source hlen
      (by omega) (by omega) hin
    have hstored : runCiStrmidrIns i junk = some (i.storedWords 6
        (words (ended m n.toNat) ((partFrom s p.toNat n.toNat).length / 2 + 1)) i.store) := by
      rw [hrun, hend, runString_pure h.power, hlength]
    have hspells := spells_part_iff (m := m) (p := p.toNat) (n := n.toNat) hzero (by omega)
      (by omega) hm
    rw [hnnat, hpnat, and_iff_right (show _ ≤ _ by omega),
      show ((n.toNat : Int) % 2 = 1 ↔ n.toNat % 2 = 1) by omega]
    exact (storesString_when hstored (by omega)).congr hspells
  · refine ⟨fun hright => absurd hright.2.1 hin, fun b hblock _ hstored => ?_⟩
    rw [hrefused (by omega)] at hstored
    have hok := ok_of_storesString hblock (by omega) hstored
    cases hok

/-- The whole string is stored right just if its length is odd and no negative number, or nothing.
-/
theorem strmidr_all_when (h : MidTerms s p n i) (hs : s.length ≤ 65535) (hzero : 0 ∉ s)
    (hp : ¬ p.toInt < 1) (hn : n.toInt = -1) :
    RightWhen i 6 32768 (s.length = 0 ∨ s.length % 2 = 1 ∧ s.length < 32768)
      (StoresPart i (midPart s p.toInt n.toInt) (runCiStrmidrIns i junk)) := by
  have hlen : (BitVec.ofNat 16 s.length).toNat = s.length := by
    rw [toNat_ofNat]
    omega
  have hpart : midPart s p.toInt n.toInt = some s := by
    rw [midPart, if_neg hp, if_pos hn]
  have hrun : runCiStrmidrIns i junk = runString i
      (strmidrEnd i junk (BitVec.ofNat 16 s.length) 0 (BitVec.ofNat 16 s.length)) := by
    have hne : n ≠ 0 := by
      rintro rfl
      exact absurd hn (by decide)
    rw [strmidr_run h hs hp hne, refuseIf_bind (by omega), if_pos hn]
  rw [hpart]
  rcases Nat.lt_or_ge s.length 32768 with hshort | hlong
  · have htoInt := toInt_ofNat_count hshort
    obtain ⟨m, hm, hend⟩ := strmidrEnd_stored (p := 0) (n := BitVec.ofNat 16 s.length)
      junk h.source hlen (by decide) (by omega) (by rw [htoInt]; exact (Int.zero_add _).le)
    rw [hlen] at hm hend
    have hstored : runCiStrmidrIns i junk = some (i.storedWords 6
        (words (ended m s.length) (s.length / 2 + 1)) i.store) := by
      rw [hrun, hend, runString_pure h.power]
    have hspells := spells_ended_iff (m := m) hzero fun j hj => by
      rw [hm j hj]
      exact congrArg (fun k => s.getD k 0) (Nat.zero_add j)
    rw [and_iff_left hshort, or_comm]
    exact (storesString_when hstored (by omega)).congr hspells
  · refine .of_iff (iff_of_false (fun hstored => ?_) (by omega))
    have hneg : (BitVec.ofNat 16 s.length).toInt < 0 := by
      rw [BitVec.toInt_eq_toNat_cond]
      omega
    have hfirst : (0 : BitVec 16).toInt ≤ (BitVec.ofNat 16 s.length).toNat := Int.natCast_nonneg _
    rw [hrun, strmidrEnd_none hfirst hneg fun _ => rfl, runString_none h.power] at hstored
    obtain ⟨ws, -, -, hnone⟩ := hstored
    cases hnone

/-- What asks for nothing that could be had is refused, but there is no memory for a length of -2.
-/
theorem strmidr_less_iff (h : MidTerms s p n i) (hs : s.length ≤ 65535)
    (hp : ¬ p.toInt < 1) (hn : n.toInt < -1) :
    StoresPart i (midPart s p.toInt n.toInt) (runCiStrmidrIns i junk) ↔
      n.toInt < -2 ∨ s.length < p.toInt := by
  have hlen : (BitVec.ofNat 16 s.length).toNat = s.length := by
    rw [toNat_ofNat]
    omega
  have hpart : midPart s p.toInt n.toInt = none := by
    rw [midPart, if_neg hp, if_neg (by omega), if_neg (by omega)]
  have hne : n ≠ 0 := by
    rintro rfl
    exact absurd hn (by decide)
  rw [hpart, strmidr_run h hs hp hne]
  by_cases hless : n.toInt < -2
  · rw [refuseIf_bind_of hless, runString_error h.power]
    exact iff_of_true rfl (.inl hless)
  · rw [refuseIf_bind hless, if_neg (by omega), or_iff_right hless]
    by_cases hbeyond : s.length < p.toInt
    · rw [strmidrEnd_refused (by omega), runString_error h.power]
      exact iff_of_true rfl hbeyond
    · rw [strmidrEnd_none (by omega) (by omega) (by omega), runString_none h.power]
      exact iff_of_false (fun hnone => by cases hnone) hbeyond

end

/-! ## `STRRIGHT` and `STRLEFT` -/

section

variable {i : BodyInput} {s : List (BitVec 8)} {n counter : BitVec 16} {junk : Image}

theorem sideLengths_zero (h : SideTerms s 0 i) : sideLengths i counter = pure (0, none) := by
  rw [sideLengths, h.length, checked_ok_bind, refuseIf_bind (by decide), if_pos rfl]

theorem sideLengths_refused (h : SideTerms s n i) (hn : n.toInt < 0) :
    sideLengths i counter = checked (.error .operands) := by
  have hlong : 32767 < n.toNat := by
    rw [BitVec.toInt_eq_toNat_cond] at hn
    split at hn <;> omega
  rw [sideLengths, h.length, checked_ok_bind, refuseIf_bind_of hlong]

/-- The operand one byte before the source is of another type. -/
theorem sideLengths_error {e : PlcErr} (h : SideTerms s n i) (hn : 0 < n.toInt)
    (herror : i.word 1 (half counter) i.store = .error e) :
    sideLengths i counter = checked (.error e) := by
  have hne : n ≠ 0 := by
    rintro rfl
    exact absurd hn (by decide)
  have hshort : ¬ 32767 < n.toNat := by
    have hlt := toNat_lt_of_nonneg (Int.le_of_lt hn)
    omega
  have hexit : lengthLoop (fun k => i.word 1 k i.store) half counter = .inr (.error e) := by
    rw [lengthLoop, herror]
  have hscan : scan i 1 half counter = checked (.error e) :=
    scan_of_returns (WhileLoop.returns_of_exit hexit)
  rw [sideLengths, h.length, checked_ok_bind, refuseIf_bind hshort, if_neg hne, hscan,
    checked_error_bind]

theorem rightPart_neg (hn : n.toInt < 0) : rightPart s n.toInt = none := if_neg (by omega)

theorem leftPart_neg (hn : n.toInt < 0) : leftPart s n.toInt = none := if_neg (by omega)

/-- A part without characters is a zero word. -/
theorem storesString_nil : StoresString i 6 [] (some (i.storedWords 6 [0] i.store)) := by
  refine ⟨[0], rfl, ⟨not_mem_nil, fun j hj => ?_⟩, rfl⟩
  obtain rfl := Nat.le_zero.mp hj
  rfl

theorem takesRight_of_le (hn : n.toInt ≤ 0) : TakesRight s n := by
  intro junk counter i h
  rcases Int.lt_or_eq_of_le hn with hneg | hzero
  · rw [rightPart_neg hneg, runCiStrrightIns, sideLengths_refused h hneg, checked_error_bind,
      runString_error h.power]
    rfl
  · obtain rfl : n = 0 := eq_of_toInt_eq hzero
    have hpart : rightPart s (0 : BitVec 16).toInt = some [] := by
      exact congrArg some (drop_length)
    rw [hpart, runCiStrrightIns, sideLengths_zero h, pure_bind, runString_pure h.power]
    exact storesString_nil

theorem takesLeft_of_le (hn : n.toInt ≤ 0) : TakesLeft s n := by
  intro junk counter i h
  rcases Int.lt_or_eq_of_le hn with hneg | hzero
  · rw [leftPart_neg hneg, runCiStrleftIns, sideLengths_refused h hneg, checked_error_bind,
      runString_error h.power]
    rfl
  · obtain rfl : n = 0 := eq_of_toInt_eq hzero
    rw [runCiStrleftIns, sideLengths_zero h, pure_bind, runString_pure h.power]
    exact storesString_nil

end

/-! ## Samples -/

/-- A string in `R`, a destination, and numbers from `D0` on, behind which there is a word that is
not zero. -/
def partInput (dst : List UInt8) (s : List (BitVec 8)) (p n : BitVec 16) : BodyInput :=
  stringInput (rOperand 0 ++ dst ++ d0Operand) (fun j => s.getD j 0) [p, n, 0x0101]

section

variable {s : List (BitVec 8)} {p n counter : BitVec 16} {dst : List UInt8} {junk : Image}

theorem partInput_code (hdst : dst.length = 4) :
    (partInput dst s p n).ucode.CodeAt 2 (rOperand 0) ∧
      (partInput dst s p n).ucode.CodeAt 6 dst ∧
      (partInput dst s p n).ucode.CodeAt 10 d0Operand := by
  obtain ⟨hcode, hnumbers⟩ := Ucode.codeAt_append.mp (stringInput_code (fun j => s.getD j 0)
    (rOperand 0 ++ dst ++ d0Operand) [p, n, 0x0101])
  obtain ⟨hsource, hdest⟩ := Ucode.codeAt_append.mp hcode
  rw [length_append, hdst] at hnumbers
  exact ⟨hsource, hdest, hnumbers⟩

variable (dst) in
theorem partInput_terms (hdst : dst.length = 4) (hs : s.length ≤ 65535) (hzero : 0 ∉ s) :
    MidTerms s p n (partInput dst s p n) := by
  obtain ⟨hsource, -, hnumbers⟩ := @partInput_code s p n dst hdst
  rw [← Nat.zero_add 10] at hnumbers
  refine ⟨getPowerFlow_one, elementsAt_of_r (r_block hsource) hzero
    (show 2 * 0 + s.length < 65536 by omega) fun j _ => ?_,
    (d0_block hnumbers).get (by decide : 0 < 8000), (d0_block hnumbers).get (by decide : 1 < 8000)⟩
  exact congrArg (fun k => s.getD k 0) (Nat.zero_add j)

variable (dst) in
theorem partInput_side (hdst : dst.length = 4) (hs : s.length ≤ 65535) (hzero : 0 ∉ s) :
    SideTerms s n (partInput dst s n n) := by
  have h := partInput_terms (p := n) (n := n) dst hdst hs hzero
  exact ⟨h.power, h.source, h.position⟩

/-- One byte before the source there is no operand of words. -/
theorem partInput_error (hdst : dst.length = 4) (k : Nat) :
    (partInput dst s p n).word 1 k (partInput dst s p n).store = .error .elementType := by
  have htype : (partInput dst s p n).ucode.getPU8 2 = 0 :=
    (partInput_code hdst).1.getPU8 (i := 0) (by decide : 0 < 4)
  exact word_elementType (t := 0) htype rfl

theorem not_storesPart_error {i : BodyInput} {b : WordBlock} {part : Option (List (BitVec 8))}
    (hblock : (i.operand 6).HasBlock b 32768 i.store)
    (hlength : ∀ cs, part = some cs → cs.length ≤ 65535) :
    ¬ StoresPart i part (some (.error .elementType, i.inPF, i.store)) := by
  rcases part with _ | cs
  · intro h
    cases h
  · intro h
    have hle := hlength cs rfl
    have hok := ok_of_storesString hblock (by omega) h
    cases hok

theorem takesRight_iff (hs : s.length ≤ 65535) (hzero : 0 ∉ s) :
    TakesRight s n ↔ n.toInt ≤ 0 := by
  refine ⟨fun h => ?_, takesRight_of_le⟩
  by_contra hn
  have hterms := partInput_side (n := n) (rOperand 0) rfl hs hzero
  have hright := h (fun _ => 0) 0 _ hterms
  rw [runCiStrrightIns, sideLengths_error hterms (by omega) (partInput_error rfl _),
    checked_error_bind, runString_error hterms.power] at hright
  refine not_storesPart_error (stringInput_r (partInput_code rfl).2.1) (fun cs hcs => ?_) hright
  rw [rightPart] at hcs
  split at hcs
  · rw [← some.inj hcs, length_drop]
    omega
  · cases hcs

theorem takesLeft_iff (hs : s.length ≤ 65535) (hzero : 0 ∉ s) :
    TakesLeft s n ↔ n.toInt ≤ 0 := by
  refine ⟨fun h => ?_, takesLeft_of_le⟩
  by_contra hn
  have hterms := partInput_side (n := n) (rOperand 0) rfl hs hzero
  have hright := h (fun _ => 0) 0 _ hterms
  rw [runCiStrleftIns, sideLengths_error hterms (by omega) (partInput_error rfl _),
    checked_error_bind, runString_error hterms.power] at hright
  refine not_storesPart_error (stringInput_r (partInput_code rfl).2.1) (fun cs hcs => ?_) hright
  rw [leftPart] at hcs
  split at hcs
  · rw [← some.inj hcs, length_take]
    omega
  · cases hcs

end

/-! ## All parts -/

section

variable {s : List (BitVec 8)} {p n : BitVec 16}

/-- Without a length nothing is written, and nothing is refused. -/
theorem takesMid_zero_wrong (hs : s.length ≤ 65535) (hzero : 0 ∉ s) (hp : ¬ p.toInt < 1) :
    ¬ TakesMid s p 0 := by
  intro h
  have hterms := partInput_terms (p := p) (n := 0) (dOperand 2) rfl hs hzero
  have hblock : ((partInput (dOperand 2) s p 0).operand 6).HasBlock (.elems (.elem .D) 8000 2) 7998
      (partInput (dOperand 2) s p 0).store := by
    have hcode := (@partInput_code s p 0 (dOperand 2) rfl).2.1
    rw [← Nat.zero_add 6] at hcode
    exact d_block hcode
  have hright := h (fun _ => 0) _ hterms
  rw [strmidr_zero hterms hs hp] at hright
  rcases hpart : midPart s p.toInt (0 : BitVec 16).toInt with _ | cs <;> rw [hpart] at hright
  · cases hright
  · have hempty : cs = [] := by
      rw [midPart, if_neg hp, if_neg (by decide)] at hpart
      split at hpart
      · rw [← some.inj hpart]
        exact take_zero
      · cases hpart
    subst hempty
    obtain ⟨ws, hlength, hspells, hstored⟩ := hright
    have hone : ws.length = 1 := hlength
    have hpos : 0 < ws.length := by omega
    have hfits : ws.length ≤ 7998 := by omega
    have hview := (storedWords_view hblock hpos hfits).2.2 0 hpos
    rw [← some.inj hstored] at hview
    have hlow : low (ws.getD 0 0) = 0 := hspells.zero
    change (0x0101 : BitVec 16) = ws.getD 0 0 at hview
    rw [← hview] at hlow
    exact absurd hlow (by decide)

theorem midHolds_iff_of_low (hp : ¬ p.toInt < 1) (hn : n.toInt < -1) :
    MidHolds s p.toInt n.toInt ↔ n.toInt < -2 ∨ s.length < p.toInt := by
  rw [MidHolds]
  omega

theorem takesMid_iff (hs : s.length ≤ 65535) (hzero : 0 ∉ s) :
    TakesMid s p n ↔ MidHolds s p.toInt n.toInt := by
  by_cases hp : p.toInt < 1
  · refine iff_of_true (fun junk i h => ?_) (.inl hp)
    have hpart : midPart s p.toInt n.toInt = none := if_pos hp
    rw [hpart]
    exact strmidr_low h hp
  have hterms := partInput_terms (p := p) (n := n) (rOperand 0) rfl hs hzero
  have hblock := stringInput_r (s := (partInput (rOperand 0) s p n).store)
    (@partInput_code s p n (rOperand 0) rfl).2.1
  -- a condition that decides every run decides the law
  have hdecide {c : Prop} (hwhen : ∀ junk i, MidTerms s p n i → RightWhen i 6 32768 c
      (StoresPart i (midPart s p.toInt n.toInt) (runCiStrmidrIns i junk))) :
      TakesMid s p n ↔ c := by
    refine ⟨fun h => ?_, fun hc junk i hi => (hwhen junk i hi).enough hc⟩
    exact (hwhen (fun _ => 0) _ hterms).needed _ hblock (fun _ => rfl) (h (fun _ => 0) _ hterms)
  rcases Int.lt_trichotomy n.toInt 0 with hneg | hnone | hpos
  · rcases Int.lt_or_eq_of_le (show n.toInt ≤ -1 by omega) with hless | hall
    · rw [midHolds_iff_of_low hp hless]
      exact hdecide fun junk i hi => .of_iff (strmidr_less_iff hi hs hp hless)
    · rw [hdecide fun junk i hi => strmidr_all_when hi hs hzero hp hall, MidHolds]
      omega
  · obtain rfl : n = 0 := eq_of_toInt_eq hnone
    refine iff_of_false (takesMid_zero_wrong hs hzero hp) ?_
    rw [MidHolds]
    omega
  · have hless : ¬ n.toInt < -2 := by omega
    have htwo : ¬ (n.toInt = -2 ∧ s.length < p.toInt) := fun h => by omega
    have hall : ¬ (n.toInt = -1 ∧ (s.length = 0 ∨ s.length % 2 = 1 ∧ s.length < 32768)) :=
      fun h => by omega
    rw [hdecide fun junk i hi => strmidr_some_when hi hs hzero hp hpos, MidHolds,
      or_iff_right hp, or_iff_right hless, or_iff_right htwo, or_iff_right hall,
      and_iff_right hpos]

end

/-- `STRRIGHT` and `STRLEFT` are right just for a part without characters or of a negative number of
them, `STRMIDR` where its condition holds. -/
theorem parts_right_iff (s : PlcString 65535) (p n : BitVec 16) :
    (TakesRight s.chars n ↔ n.toInt ≤ 0) ∧ (TakesLeft s.chars n ↔ n.toInt ≤ 0) ∧
      (TakesMid s.chars p n ↔ MidHolds s.chars p.toInt n.toInt) :=
  ⟨takesRight_iff s.length_le s.nonzero, takesLeft_iff s.length_le s.nonzero,
    takesMid_iff s.length_le s.nonzero⟩

/-- Of `ABC`, no instruction stores the first or last character, or the one at position 1. -/
theorem parts_abc_wrong : ¬ TakesRight [0x41, 0x42, 0x43] 1 ∧ ¬ TakesLeft [0x41, 0x42, 0x43] 1 ∧
    ¬ TakesMid [0x41, 0x42, 0x43] 1 1 := by
  refine ⟨fun h => ?_, fun h => ?_, fun h => ?_⟩
  · exact absurd ((takesRight_iff (by decide) (by decide)).mp h) (by decide)
  · exact absurd ((takesLeft_iff (by decide) (by decide)).mp h) (by decide)
  · refine absurd ((takesMid_iff (by decide) (by decide)).mp h) ?_
    rw [MidHolds]
    decide

end Kalyke
