-- SUMMARY: `STRMIDW`: when it replaces characters of a string and leaves the others as they are.
import Kalyke.Exec.Strings

/-!
# Replacing characters of a string

`STRMIDW` builds the new string in a buffer: it copies the words before the part that is replaced,
then those of the replacement, then those behind it. How many it copies first depends on the length
of the replacement and not on the position, and what it copies last comes from one character too
far.
-/

namespace Kalyke

open List Nat PackedStrings

/-! ## The instruction -/

section

variable (i : BodyInput) (junk : Image)

/-- The characters behind the part that is replaced, with the length of the destination, the
position and the length of the part. -/
def strmidwTail (dst p n : BitVec 16) (b : Buffer) : StrM Buffer :=
  if n.toInt < dst.toInt - p.toInt + 1 then
    if (p.toInt + n.toInt) % 2 = 0 then
      getInto i 6 b (p.toInt + n.toInt - 1) (wordCount ((p.toInt + n.toInt).tdiv 2))
        (wordCount ((dst.toInt - (p.toInt + n.toInt) + 1).tdiv 2)) i.store
    else do
      let w ← checked (i.word 6 (wordCount ((p.toInt + n.toInt).tdiv 2)) i.store)
      let b ← inMemory (b.put (p.toInt + n.toInt - 1) [high w])
      getInto i 6 b (p.toInt + n.toInt) (wordCount ((p.toInt + n.toInt + 1).tdiv 2))
        (wordCount ((dst.toInt - (p.toInt + n.toInt)).tdiv 2)) i.store
  else pure b

/-- The new string, with the lengths of source and destination, the position and the length of the
part that is replaced. -/
def strmidwEnd (src dst p n : BitVec 16) : StrM BodyResult := do
  let b ← inMemory (Buffer.alloc junk (dst.toInt + 2))
  let b ← getInto i 6 b 0 0 (wordCount (src.toInt.tdiv 2)) i.store
  let b ← getInto i 2 b (p.toInt - 1) 0 (wordCount ((n.toInt + 1).tdiv 2)) i.store
  let b ← strmidwTail i dst p n b
  let b ← inMemory (b.put dst.toInt [0])
  saveBuffer i 6 b (wordCount (dst.toInt.tdiv 2 + 1))

/-- The length of the part that is replaced: -1 stands for the one of the source, and the
destination ends it. -/
def replaceLen (src dst p n : BitVec 16) : BitVec 16 :=
  let n := if n.toInt = -1 then src else n
  if dst.toInt - p.toInt + 1 < n.toInt then BitVec.ofInt 16 (dst.toInt - p.toInt + 1) else n

def runCiStrmidwIns : Option BodyResult :=
  runString i do
    let p ← checked (i.word 10 0 i.store)
    refuseIf (p.toInt < 1)
    let n ← checked (i.word 10 1 i.store)
    let src ← scan i 2 halfShort 0
    let dst ← scan i 6 halfShort 0
    refuseIf (src.toInt < n.toInt)
    if n = 0 then return (.ok (), i.inPF, i.store)
    else strmidwEnd i junk src dst p (replaceLen src dst p n)

end

/-! ## Laws -/

/-- The characters to replace in a string: a position in it, and a length, -1 for all of the source.
The source has as many characters as there are to replace. -/
structure Replacement (s d : List (BitVec 8)) where
  position : BitVec 16
  length : BitVec 16
  pos : 1 ≤ position.toInt
  le_length : position.toInt ≤ d.length
  asks : -1 ≤ length.toInt
  enough : min (if length.toInt = -1 then s.length else length.toNat)
    (d.length - (position.toNat - 1)) ≤ s.length

namespace Replacement

variable {s d : List (BitVec 8)} (x : Replacement s d)

/-- The place of the first character that is replaced. -/
def start : Nat := x.position.toNat - 1

def asked : Nat := if x.length.toInt = -1 then s.length else x.length.toNat

/-- The number of the characters that are replaced. -/
def count : Nat := min x.asked (d.length - x.start)

/-- The new string. -/
def replaced : List (BitVec 8) :=
  d.take x.start ++ s.take x.count ++ d.drop (x.start + x.count)

/-- Two strings in elements, and the numbers. -/
structure Terms (i : BodyInput) : Prop where
  power : getPowerFlow i.inPF = true
  source : ElementsAt i 2 s i.store
  destination : ElementsAt i 6 d i.store
  position : i.word 10 0 i.store = .ok x.position
  length : i.word 10 1 i.store = .ok x.length

/-- The new string is stored, or is the old one, which is left. -/
def Replaces (i : BodyInput) (r : Option BodyResult) : Prop :=
  StoresString i 6 x.replaced r ∨ x.replaced = d ∧ r = some (.ok (), i.inPF, i.store)

/-- `STRMIDW` replaces the characters, whatever is in its buffer at first. -/
def Right : Prop := ∀ junk i, x.Terms i → x.Replaces i (runCiStrmidwIns i junk)

/-- The end of what is copied first. -/
def copied (_ : Replacement s d) : Nat := 2 * (s.length / 2)

/-- Behind the part that is replaced there is nothing, or an even string goes on with one character
only, and its last one has been there before. -/
def TailHolds : Prop :=
  x.start + x.count = d.length ∨ d.length % 2 = 0 ∧
    (∀ j, x.start + x.count ≤ j → j + 1 < d.length → d.getD (j + 1) 0 = d.getD j 0) ∧
    if x.start + x.count + 1 = d.length ∧ x.count % 2 = 1 then
      s.getD x.count 0 = d.getD (x.start + x.count) 0
    else d.length ≤ x.copied

/-- When `STRMIDW` is right: nothing is asked for, or no more than there is, what is copied first
comes up to the part that is replaced and stays in the buffer, and what is behind it holds. -/
def Holds : Prop :=
  x.length = 0 ∨ x.asked ≤ s.length ∧ x.start ≤ x.copied ∧ x.copied ≤ d.length + 2 ∧ x.TailHolds

end Replacement

/-! ## The buffer -/

section

variable {i : BodyInput} {s d : List (BitVec 8)} {p n : BitVec 16} {q : Nat} {m : Image}

/-- The characters of an image with those behind a place moved to it. An even string keeps its last
character. -/
def closedUp (m : Image) (d : List (BitVec 8)) (q : Nat) : Image := fun j =>
  if q ≤ j ∧ j + 1 < d.length + d.length % 2 then d.getD (j + 1) 0 else m j

/-- A part behind an odd place is copied from one character too far. -/
theorem tail_odd (h : ElementsAt i 6 d i.store) (hodd : q % 2 = 1) (hq : q < d.length) :
    ∃ m', getInto i 6 ⟨d.length + 2, m⟩ q ((q + 1) / 2) ((d.length - q) / 2) i.store =
        pure ⟨d.length + 2, m'⟩ ∧ ∀ j ≤ d.length, m' j = closedUp m d q j := by
  obtain ⟨bytes, hget, hlength, hbytes⟩ := h.getInto_eq ((q + 1) / 2)
    ((d.length - q) / 2) q ⟨d.length + 2, m⟩ (by omega)
    (show q + 2 * ((d.length - q) / 2) ≤ d.length + 2 by omega)
  refine ⟨_, hget, fun j hj => ?_⟩
  rw [closedUp]
  split
  · rename_i hin
    obtain ⟨t, rfl⟩ := Nat.exists_eq_add_of_le hin.1
    refine (Buffer.onto_add (show t < bytes.length by omega)).trans ?_
    rw [hbytes t (by omega) (by omega)]
    congr 1
    omega
  · rename_i hout
    rcases Nat.lt_or_ge j q with hbefore | hbehind
    · exact Buffer.onto_of_lt hbefore
    · exact Buffer.onto_of_ge (by omega)

/-- So is one behind an even place, of which the first character comes alone. -/
theorem tail_even (h : ElementsAt i 6 d i.store) (heven : q % 2 = 0) (hq : q < d.length) :
    ∃ m', (do
        let w ← checked (i.word 6 ((q + 1) / 2) i.store)
        let b ← inMemory (Buffer.put ⟨d.length + 2, m⟩ q [high w])
        getInto i 6 b ((q + 1 : Nat) : Int) ((q + 2) / 2) ((d.length - (q + 1)) / 2) i.store) =
        pure ⟨d.length + 2, m'⟩ ∧ ∀ j ≤ d.length, m' j = closedUp m d q j := by
  obtain ⟨w, hw, hs⟩ := h.words
  have hword : i.word 6 ((q + 1) / 2) i.store = .ok (w ((q + 1) / 2)) := hw _ (by omega)
  have hhigh : high (w ((q + 1) / 2)) = d.getD (q + 1) 0 := by
    have hchar : q + 1 = 2 * ((q + 1) / 2) + 1 := by omega
    rw [← hs.chars _ (by omega), ← image_odd, ← hchar]
  have hput : Buffer.put ⟨d.length + 2, m⟩ (q : Int) [d.getD (q + 1) 0] =
      some ⟨d.length + 2, Buffer.onto m q [d.getD (q + 1) 0]⟩ :=
    Buffer.put_eq (show q + 1 ≤ d.length + 2 by omega)
  obtain ⟨bytes, hget, hlength, hbytes⟩ := h.getInto_eq ((q + 2) / 2)
    ((d.length - (q + 1)) / 2) (q + 1)
    ⟨d.length + 2, Buffer.onto m q [d.getD (q + 1) 0]⟩ (by omega)
    (show q + 1 + 2 * ((d.length - (q + 1)) / 2) ≤ d.length + 2 by omega)
  rw [hword, checked_ok_bind, hhigh, hput, inMemory_some_bind, hget]
  refine ⟨_, rfl, fun j hj => ?_⟩
  rw [closedUp]
  split
  · rename_i hin
    rcases Nat.eq_or_lt_of_le hin.1 with rfl | hlt
    · refine (Buffer.onto_of_lt (lt_succ_self q)).trans ?_
      exact Buffer.onto_add (p := q) (show 0 < [d.getD (q + 1) 0].length from Nat.one_pos)
    · obtain ⟨t, rfl⟩ := Nat.exists_eq_add_of_le (succ_le_of_lt hlt)
      refine (Buffer.onto_add (show t < bytes.length by omega)).trans ?_
      rw [hbytes t (by omega) (by omega)]
      congr 1
      omega
  · rename_i hout
    rcases Nat.lt_or_ge j (q + 1) with hbefore | hbehind
    · exact (Buffer.onto_of_lt hbefore).trans (Buffer.onto_of_lt (by omega))
    · exact (Buffer.onto_of_ge (by omega)).trans (Buffer.onto_of_ge hbehind)

/-- The characters behind the part come from one place too far, and of an even string the last one
does not come. -/
theorem strmidwTail_eq (h : ElementsAt i 6 d i.store) (hd : d.length < 32768) (hq : q ≤ d.length)
    (hplace : p.toInt + n.toInt = ((q + 1 : Nat) : Int)) :
    ∃ m', strmidwTail i (BitVec.ofNat 16 d.length) p n ⟨d.length + 2, m⟩ =
      pure ⟨d.length + 2, m'⟩ ∧ ∀ j ≤ d.length, m' j = closedUp m d q j := by
  have hbefore : ((q + 1 : Nat) : Int) - 1 = (q : Int) := by omega
  rw [strmidwTail, toInt_ofNat_count hd, hplace, hbefore, wordCount_half (by omega)]
  split
  · have hlt : q < d.length := by omega
    split
    · have hcount : wordCount ((d.length - ((q + 1 : Nat) : Int) + 1).tdiv 2) =
          (d.length - q) / 2 := by
        rw [show (d.length : Int) - ((q + 1 : Nat) : Int) + 1 = ((d.length - q : Nat) : Int) by
          omega]
        exact wordCount_half (by omega)
      rw [hcount]
      exact tail_odd h (by omega) hlt
    · have hcount : wordCount ((d.length - ((q + 1 : Nat) : Int)).tdiv 2) =
          (d.length - (q + 1)) / 2 := by
        rw [show (d.length : Int) - ((q + 1 : Nat) : Int) = ((d.length - (q + 1) : Nat) : Int) by
          omega]
        exact wordCount_half (by omega)
      have hnext : wordCount ((((q + 1 : Nat) : Int) + 1).tdiv 2) = (q + 2) / 2 :=
        wordCount_half (show q + 2 < 131072 by omega)
      rw [hcount, hnext]
      exact tail_even h (by omega) hlt
  · refine ⟨m, rfl, fun j hj => ?_⟩
    rw [closedUp, if_neg]
    rintro ⟨hle, hlt⟩
    omega

end

namespace Replacement

variable {s d : List (BitVec 8)} {x : Replacement s d} {i : BodyInput} {junk : Image}

/-- What is in the buffer before the characters behind the part. -/
def front (x : Replacement s d) (junk : Image) : Image := fun j =>
  if x.start ≤ j ∧ j < x.start + 2 * ((x.count + 1) / 2) then s.getD (j - x.start) 0
  else if j < x.copied then d.getD j 0 else junk j

theorem position_eq (x : Replacement s d) : x.position.toInt = ((x.start + 1 : Nat) : Int) := by
  have hpos := x.pos
  have hnat := toInt_of_nonneg (show 0 ≤ x.position.toInt by omega)
  rw [start]
  omega

theorem start_lt (x : Replacement s d) : x.start < d.length := by
  have hle := x.le_length
  have hposition := x.position_eq
  omega

theorem end_le (x : Replacement s d) : x.start + x.count ≤ d.length := by
  have hstart := x.start_lt
  have hle : x.count ≤ d.length - x.start := Nat.min_le_right _ _
  omega

theorem count_le (x : Replacement s d) : x.count ≤ s.length := x.enough

variable (junk) in
/-- The words before the part and those of the replacement are put in the buffer. -/
theorem front_eq (h : x.Terms i) (hfits : x.copied ≤ d.length + 2) :
    ∃ m, (do
        let b ← getInto i 6 ⟨d.length + 2, junk⟩ 0 0 (s.length / 2) i.store
        getInto i 2 b x.start 0 ((x.count + 1) / 2) i.store) = pure ⟨d.length + 2, m⟩ ∧
      ∀ j ≤ d.length, m j = x.front junk j := by
  have hend := x.end_le
  have hcount := x.count_le
  have hcopied : x.copied = 2 * (s.length / 2) := rfl
  obtain ⟨before, hget, hlength, hbefore⟩ := h.destination.getInto_eq 0
    (s.length / 2) 0 ⟨d.length + 2, junk⟩ (by omega)
    (show 0 + 2 * (s.length / 2) ≤ d.length + 2 by omega)
  obtain ⟨bytes, hget', hlength', hbytes⟩ := h.source.getInto_eq 0
    ((x.count + 1) / 2) x.start ⟨d.length + 2, Buffer.onto junk 0 before⟩
    (by omega) (show x.start + 2 * ((x.count + 1) / 2) ≤ d.length + 2 by omega)
  rw [cast_zero] at hget
  rw [hget, pure_bind, hget']
  refine ⟨_, rfl, fun j hj => ?_⟩
  rw [front]
  split
  · rename_i hin
    obtain ⟨t, rfl⟩ := Nat.exists_eq_add_of_le hin.1
    refine (Buffer.onto_add (show t < bytes.length by omega)).trans ?_
    rw [hbytes t (by omega) (by omega), Nat.zero_add, Nat.add_sub_cancel_left]
  · rename_i hout
    have hunder : Buffer.onto (Buffer.onto junk 0 before) x.start bytes j =
        Buffer.onto junk 0 before j := by
      rcases Nat.lt_or_ge j x.start with hless | hge
      · exact Buffer.onto_of_lt hless
      · exact Buffer.onto_of_ge (by omega)
    refine hunder.trans ?_
    split
    · have hchar := Buffer.onto_add (m := junk) (p := 0) (show j < before.length by omega)
      rw [Nat.zero_add] at hchar
      rw [hchar, hbefore j (by omega) (by omega), Nat.zero_add]
    · exact Buffer.onto_of_ge (by omega)

variable (junk) in
/-- What is stored, if the words before the part stay in the buffer. -/
theorem strmidwEnd_eq {n : BitVec 16} (h : x.Terms i) (hs : s.length < 32768)
    (hd : d.length < 32768) (hn : n.toInt = x.count) (hfits : x.copied ≤ d.length + 2) :
    ∃ m : Image, m d.length = 0 ∧
      (∀ j < d.length, m j = closedUp (x.front junk) d (x.start + x.count) j) ∧
      strmidwEnd i junk (BitVec.ofNat 16 s.length) (BitVec.ofNat 16 d.length) x.position n =
        pure (i.storedWords 6 (words m (d.length / 2 + 1)) i.store) := by
  have hend := x.end_le
  obtain ⟨m, hm, hfront⟩ := front_eq junk h hfits
  obtain ⟨m', hm', htail⟩ := strmidwTail_eq (m := m) (p := x.position) (n := n) h.destination hd
    hend (by rw [x.position_eq, hn]; omega)
  have hput : Buffer.put ⟨d.length + 2, m'⟩ (d.length : Int) [0] =
      some ⟨d.length + 2, Buffer.onto m' d.length [0]⟩ :=
    Buffer.put_eq (show d.length + 1 ≤ d.length + 2 by omega)
  have halloc : Buffer.alloc junk ((d.length : Int) + 2) = some ⟨d.length + 2, junk⟩ :=
    Buffer.alloc_eq (succ_pos _)
  have hplace : ((x.start + 1 : Nat) : Int) - 1 = (x.start : Int) := by omega
  have hcount : wordCount (((x.count : Int) + 1).tdiv 2) = (x.count + 1) / 2 :=
    wordCount_half (show x.count + 1 < 131072 by omega)
  have hall : wordCount ((d.length : Int).tdiv 2 + 1) = d.length / 2 + 1 := by
    exact wordCount_of_lt (show d.length / 2 + 1 < 65536 by omega)
  refine ⟨Buffer.onto m' d.length [0], ?_, fun j hj => ?_, ?_⟩
  · exact Buffer.onto_add (j := 0) Nat.one_pos
  · rw [Buffer.onto_of_lt hj, htail j (Nat.le_of_lt hj), closedUp, closedUp,
      hfront j (Nat.le_of_lt hj)]
  · rw [strmidwEnd, toInt_ofNat_count hs, toInt_ofNat_count hd, x.position_eq, hn, halloc,
      inMemory_some_bind, wordCount_half (by omega), hplace, hcount, hall, ← bind_assoc, hm,
      pure_bind, hm', pure_bind, hput, inMemory_some_bind]
    exact saveBuffer_eq (show 2 * (d.length / 2 + 1) ≤ d.length + 2 by omega)

end Replacement

/-! ## The new string -/

namespace Replacement

variable {s d : List (BitVec 8)} {x : Replacement s d} {junk : Image} {j : Nat}

theorem length_replaced (x : Replacement s d) : x.replaced.length = d.length := by
  have hend := x.end_le
  have hcount := x.count_le
  simp only [replaced, length_append, length_take, length_drop]
  omega

theorem replaced_getD (x : Replacement s d) (j : Nat) : x.replaced.getD j 0 =
    if x.start ≤ j ∧ j < x.start + x.count then s.getD (j - x.start) 0 else d.getD j 0 := by
  have hend := x.end_le
  have hcount := x.count_le
  have hbefore : (d.take x.start).length = x.start := by
    rw [length_take]
    omega
  have hpart : (d.take x.start ++ s.take x.count).length = x.start + x.count := by
    rw [length_append, hbefore, length_take]
    omega
  simp only [replaced, getD_eq_getElem?_getD]
  rcases Nat.lt_or_ge j (x.start + x.count) with hlt | hge
  · rw [getElem?_append_left (by omega)]
    rcases Nat.lt_or_ge j x.start with hless | hmore
    · rw [getElem?_append_left (by omega), getElem?_take_of_lt hless, if_neg (by omega)]
    · rw [getElem?_append_right (by omega), hbefore, getElem?_take_of_lt (by omega),
        if_pos ⟨hmore, hlt⟩]
  · rw [getElem?_append_right (by omega), hpart, getElem?_drop, if_neg (by omega),
      Nat.add_sub_cancel' hge]

theorem nonzero_replaced (hs : 0 ∉ s) (hd : 0 ∉ d) (x : Replacement s d) : 0 ∉ x.replaced := by
  intro hmem
  rcases mem_append.mp hmem with hmem | hmem
  · rcases mem_append.mp hmem with hmem | hmem
    · exact hd (mem_of_mem_take hmem)
    · exact hs (mem_of_mem_take hmem)
  · exact hd (mem_of_mem_drop hmem)

/-- The buffer has the new string, whatever was in it, if what is behind the part holds. -/
theorem closedUp_of_holds (hstart : x.start ≤ x.copied) (htail : x.TailHolds) (hj : j < d.length) :
    closedUp (x.front junk) d (x.start + x.count) j = x.replaced.getD j 0 := by
  rw [replaced_getD, closedUp]
  rcases Nat.lt_or_ge j (x.start + x.count) with hlt | hge
  · rw [if_neg (by omega), front]
    by_cases hpart : x.start ≤ j
    · rw [if_pos (by omega), if_pos ⟨hpart, hlt⟩]
    · rw [if_neg (by omega), if_pos (by omega), if_neg (by omega)]
  · obtain ⟨heven, hall, hlast⟩ := htail.resolve_left (by omega)
    rw [if_neg (show ¬ (x.start ≤ j ∧ j < x.start + x.count) by omega)]
    by_cases hnext : j + 1 < d.length
    · rw [if_pos (by omega)]
      exact hall j hge hnext
    · rw [if_neg (by omega), front]
      split at hlast
      · rename_i hone
        obtain rfl : j = x.start + x.count := by omega
        rw [if_pos (by omega), Nat.add_sub_cancel_left]
        exact hlast
      · rw [if_neg (by omega), if_pos (by omega)]

/-- A buffer of zeros has the new string only then. -/
theorem holds_of_closedUp (hd : 0 ∉ d)
    (h : ∀ j < d.length, closedUp (x.front fun _ => 0) d (x.start + x.count) j =
      x.replaced.getD j 0) : x.start ≤ x.copied ∧ x.TailHolds := by
  have hend := x.end_le
  have hplain (j : Nat) (hj : j < d.length) (hout : ¬ (x.start ≤ j ∧ j < x.start + x.count)) :
      closedUp (x.front fun _ => 0) d (x.start + x.count) j = d.getD j 0 := by
    rw [h j hj, replaced_getD, if_neg hout]
  constructor
  · by_contra hless
    have hchar := hplain x.copied (by omega) (by omega)
    rw [closedUp, if_neg (by omega), front, if_neg (by omega), if_neg (by omega)] at hchar
    exact getD_ne_zero hd (by omega) hchar.symm
  · by_cases hnone : x.start + x.count = d.length
    · exact .inl hnone
    have heven : d.length % 2 = 0 := by
      by_contra hodd
      have hchar := hplain (d.length - 1) (by omega) (by omega)
      rw [closedUp, if_pos (by omega), getD_eq_default _ _ (by omega)] at hchar
      exact getD_ne_zero hd (by omega) hchar.symm
    refine .inr ⟨heven, fun j hge hlt => ?_, ?_⟩
    · have hchar := hplain j (by omega) (by omega)
      rwa [closedUp, if_pos (by omega)] at hchar
    · have hchar := hplain (d.length - 1) (by omega) (by omega)
      rw [closedUp, if_neg (by omega), front] at hchar
      split
      · rename_i hone
        have hlast : d.length - 1 = x.start + x.count := by omega
        rwa [hlast, if_pos (by omega), Nat.add_sub_cancel_left] at hchar
      · rw [if_neg (by omega)] at hchar
        by_contra hless
        rw [if_neg (by omega)] at hchar
        exact getD_ne_zero hd (by omega) hchar.symm

end Replacement

/-! ## Runs -/

namespace Replacement

variable {s d : List (BitVec 8)} {x : Replacement s d} {i : BodyInput} {junk : Image}

theorem toInt_asked (x : Replacement s d) (hs : s.length < 32768) :
    (if x.length.toInt = -1 then BitVec.ofNat 16 s.length else x.length).toInt = x.asked := by
  rw [asked]
  split
  · exact toInt_ofNat_count hs
  · have hasks := x.asks
    exact toInt_of_nonneg (by omega)

theorem replaceLen_eq (x : Replacement s d) (hs : s.length < 32768) (hd : d.length < 32768) :
    (replaceLen (BitVec.ofNat 16 s.length) (BitVec.ofNat 16 d.length) x.position
      x.length).toInt = x.count := by
  have hstart := x.start_lt
  have hroom : (d.length : Int) - ((x.start + 1 : Nat) : Int) + 1 =
      ((d.length - x.start : Nat) : Int) := by omega
  simp only [replaceLen, toInt_asked x hs, toInt_ofNat_count hd, x.position_eq, hroom]
  split
  · rename_i hless
    have hcount : x.count = d.length - x.start := Nat.min_eq_right (by omega)
    rw [hcount]
    exact toInt_ofNat_count (by omega)
  · rename_i hge
    have hcount : x.count = x.asked := Nat.min_eq_left (by omega)
    rw [hcount]
    exact toInt_asked x hs

/-- The instruction behind its lengths. -/
theorem strmidw_run (h : x.Terms i) (hs : s.length < 32768) (hd : d.length < 32768) :
    runCiStrmidwIns i junk = runString i (do
      refuseIf (s.length < x.length.toInt)
      if x.length = 0 then return (.ok (), i.inPF, i.store)
      else
        strmidwEnd i junk (BitVec.ofNat 16 s.length) (BitVec.ofNat 16 d.length) x.position
          (replaceLen (BitVec.ofNat 16 s.length) (BitVec.ofNat 16 d.length) x.position
            x.length)) := by
  have hpos := x.pos
  rw [runCiStrmidwIns, h.position, checked_ok_bind, refuseIf_bind (by omega), h.length,
    checked_ok_bind, h.source.scan_eq fun k hk => halfShort_word (by omega), pure_bind,
    h.destination.scan_eq fun k hk => halfShort_word (by omega), pure_bind, toInt_ofNat_count hs]

theorem asked_le_iff (x : Replacement s d) : x.asked ≤ s.length ↔ ¬ s.length < x.length.toInt := by
  rw [asked]
  split
  · omega
  · have hasks := x.asks
    have hnat := toInt_of_nonneg (x := x.length) (by omega)
    omega

theorem strmidw_refused (h : x.Terms i) (hs : s.length < 32768) (hd : d.length < 32768)
    (hasked : ¬ x.asked ≤ s.length) : runCiStrmidwIns i junk = some i.refused := by
  have hless := not_not.mp ((asked_le_iff x).not.mp hasked)
  rw [strmidw_run h hs hd, refuseIf_bind_of hless, runString_error h.power]
  rfl

theorem strmidw_nothing (h : x.Terms i) (hs : s.length < 32768) (hd : d.length < 32768)
    (hlength : x.length = 0) : runCiStrmidwIns i junk = some (.ok (), i.inPF, i.store) := by
  have hle : ¬ (s.length : Int) < x.length.toInt := by
    rw [hlength]
    exact Int.not_lt.mpr (Int.natCast_nonneg _)
  rw [strmidw_run h hs hd, refuseIf_bind hle, if_pos hlength, runString_pure h.power]

variable (junk) in
theorem strmidw_stored (h : x.Terms i) (hs : s.length < 32768) (hd : d.length < 32768)
    (hlength : x.length ≠ 0) (hasked : x.asked ≤ s.length) (hfits : x.copied ≤ d.length + 2) :
    ∃ m : Image, m d.length = 0 ∧
      (∀ j < d.length, m j = closedUp (x.front junk) d (x.start + x.count) j) ∧
      runCiStrmidwIns i junk = some (i.storedWords 6 (words m (d.length / 2 + 1)) i.store) := by
  obtain ⟨m, hzero, hm, hend⟩ := strmidwEnd_eq junk h hs hd (replaceLen_eq x hs hd) hfits
  refine ⟨m, hzero, hm, ?_⟩
  rw [strmidw_run h hs hd, refuseIf_bind ((asked_le_iff x).mp hasked), if_neg hlength, hend,
    runString_pure h.power]

/-- What is copied first does not fit into the buffer. -/
theorem strmidw_none {b : WordBlock} (h : x.Terms i) (hs : s.length < 32768)
    (hd : d.length < 32768) (hlength : x.length ≠ 0) (hasked : x.asked ≤ s.length)
    (hblock : (i.operand 6).HasBlock b 16384 i.store) (hfits : ¬ x.copied ≤ d.length + 2) :
    runCiStrmidwIns i junk = none := by
  have hcopied : x.copied = 2 * (s.length / 2) := rfl
  obtain ⟨ws, hws⟩ : ∃ ws, i.words 6 0 (s.length / 2) i.store = .ok ws :=
    (words_ok_iff (by omega)).mpr fun k hk => ⟨_, hblock.get (by omega)⟩
  have hlen := length_words_of_element h.destination.element hws
  have hput : Buffer.putWords ⟨d.length + 2, junk⟩ 0 ws = none := by
    refine if_neg ?_
    rw [Buffer.length_wordBytes, hlen]
    rintro ⟨-, hle⟩
    change (0 : Int) + ((2 * (s.length / 2) : Nat) : Int) ≤ ((d.length + 2 : Nat) : Int) at hle
    omega
  have halloc : Buffer.alloc junk ((d.length : Int) + 2) = some ⟨d.length + 2, junk⟩ :=
    Buffer.alloc_eq (succ_pos _)
  have hget : getInto i 6 ⟨d.length + 2, junk⟩ 0 0 (s.length / 2) i.store = inMemory none := by
    rw [getInto, outcome_eq_ok hws, hput, inMemory_none_bind]
  rw [strmidw_run h hs hd, refuseIf_bind ((asked_le_iff x).mp hasked), if_neg hlength, strmidwEnd,
    toInt_ofNat_count hs, toInt_ofNat_count hd, halloc, inMemory_some_bind,
    wordCount_half (by omega), hget, inMemory_none_bind, runString_none h.power]

/-- Where the condition holds, the characters are replaced. -/
theorem replaces_of_holds (h : x.Terms i) (hs : s.length < 32768) (hd : d.length < 32768)
    (hzero : 0 ∉ s) (hzero' : 0 ∉ d) (hholds : x.Holds) :
    x.Replaces i (runCiStrmidwIns i junk) := by
  by_cases hlength : x.length = 0
  · refine .inr ⟨?_, strmidw_nothing h hs hd hlength⟩
    have hcount : x.count = 0 := by
      rw [count, asked, hlength]
      exact Nat.zero_min _
    rw [replaced, hcount, take_zero, append_nil]
    exact take_append_drop _ _
  · obtain ⟨hasked, hstart, hfits, htail⟩ := hholds.resolve_left hlength
    obtain ⟨m, hend, hm, hrun⟩ := strmidw_stored junk h hs hd hlength hasked hfits
    rw [← x.length_replaced] at hend hrun
    refine .inl ((storesString_when hrun (Nat.le_refl _)).enough ?_)
    refine (Spells.iff_of_zero (nonzero_replaced hzero hzero' x) hend).mpr fun j hj => ?_
    rw [x.length_replaced] at hj
    rw [hm j hj, closedUp_of_holds hstart htail hj]

/-- In a buffer of zeros they are replaced only then. -/
theorem holds_of_replaces {b : WordBlock} (h : x.Terms i) (hs : s.length < 32768)
    (hd : d.length < 32768) (hzero : 0 ∉ s) (hzero' : 0 ∉ d)
    (hblock : (i.operand 6).HasBlock b 16384 i.store) (hkept : ∀ y, b.kept y = y)
    (hreplaces : x.Replaces i (runCiStrmidwIns i fun _ => 0)) : x.Holds := by
  by_cases hlength : x.length = 0
  · exact .inl hlength
  have hfull : x.replaced.length / 2 + 1 ≤ 16384 := by
    rw [x.length_replaced]
    omega
  have hasked : x.asked ≤ s.length := by
    by_contra hmore
    rw [strmidw_refused h hs hd hmore] at hreplaces
    rcases hreplaces with hstored | ⟨-, hpass⟩
    · have hok := ok_of_storesString hblock hfull hstored
      cases hok
    · cases hpass
  have hfits : x.copied ≤ d.length + 2 := by
    by_contra hmore
    rw [strmidw_none h hs hd hlength hasked hblock hmore] at hreplaces
    rcases hreplaces with ⟨ws, -, -, hnone⟩ | ⟨-, hnone⟩ <;> cases hnone
  obtain ⟨m, hend, hm, hrun⟩ := strmidw_stored (fun _ => 0) h hs hd hlength hasked hfits
  rw [← x.length_replaced] at hend hrun
  have hspells : Spells m x.replaced := by
    rcases hreplaces with hstored | ⟨hsame, hpass⟩
    · exact (storesString_when hrun hfull).needed b hblock hkept hstored
    · have hunchanged := Option.some.inj (hrun.symm.trans hpass)
      rw [x.length_replaced] at hunchanged
      rw [hsame]
      exact spells_of_unchanged h.destination hblock hkept (by omega) hunchanged
  have hchars := (Spells.iff_of_zero (nonzero_replaced hzero hzero' x) hend).mp hspells
  obtain ⟨hstart, htail⟩ := holds_of_closedUp hzero' fun j hj =>
    (hm j hj).symm.trans (hchars j (by rwa [x.length_replaced]))
  exact .inr ⟨hasked, hstart, hfits, htail⟩

end Replacement

/-! ## Long strings -/

section

variable {i : BodyInput} {q : Nat} {cs : List (BitVec 8)} {s : Store}

/-- No joined bits have so many words. -/
theorem knLoop_ends {area : BitArea} {start kn : Nat} (hkn : 1 ≤ kn) (hkn' : kn ≤ 4) :
    ¬ ∀ k ≤ 16384, (getKnLoop 16 (s.getBit area) area.rang (4 * kn) start 1 k).1 = .ok () := by
  intro h
  have hrang := area.rang_le
  have hbelow (k : Nat) (hk : k ≤ 16384) : (start + k * (4 * kn)) % 65536 + 4 * kn ≤ 16384 := by
    have hbits := (getKnLoop_ok_iff (by omega) (by omega)).mp (h k hk)
    have hfits := hbits.resolve_left (by decide)
    rw [knBase, elementIndex] at hfits
    omega
  obtain rfl | rfl | rfl | rfl : kn = 1 ∨ kn = 2 ∨ kn = 3 ∨ kn = 4 := by omega
  · have hlast := hbelow ((16384 - start % 65536) / 4) (by omega)
    omega
  · have hlast := hbelow ((16384 - start % 65536) / 8) (by omega)
    omega
  · have hlast := hbelow ((16384 - start % 65536) / 12) (by omega)
    omega
  · have hlast := hbelow ((16384 - start % 65536) / 16) (by omega)
    omega

/-- Where so many words can be got, none can at the offset of a `short` that has overflowed. -/
theorem word_beyond (hop : ElementOperand i.ucode (i.pc + q))
    (hw : ∀ k ≤ 16384, ∃ x, i.word q k s = .ok x) :
    i.word q 49152 s = .error .overElementRang := by
  have hpass (k : Nat) (hk : k ≤ 16384) := word_ok_iff.mp (hw k hk)
  have hget : (getWord i.ucode (i.pc + q) s i.level 49152 1).1 = .error .overElementRang := by
    rcases hform : (AddrType.ofCode (i.ucode.getPU8 (i.pc + q + 1))).bind (getWordTable i.level)
      with _ | _ | ⟨area, z⟩ | ⟨area, z, limit⟩ <;> simp only [getWord, hform] at hpass ⊢
    · cases hpass 0 (Nat.zero_le _)
    · obtain ⟨a, ha, htable⟩ := Option.bind_eq_some_iff.mp hform
      rw [getWordTable_const htable] at ha
      exact absurd ha hop
    · split at hpass
      · cases hpass 0 (Nat.zero_le _)
      · exact absurd hpass (knLoop_ends (by omega) (by omega))
    · obtain ⟨type, -, htable⟩ := Option.bind_eq_some_iff.mp hform
      have hlimit : limit ≤ 32768 := by
        cases type <;> cases htable <;> exact WordArea.rang_le _
      have hbelow (k : Nat) (hk : k ≤ 16384) :
          (operandStart i.ucode (i.pc + q) s z + k) % 65536 < limit :=
        getLoop_passes_iff.mp (hpass k hk) 0 Nat.one_pos
      have hlast := hbelow 16384 (Nat.le_refl _)
      rw [getLoop, if_neg]
      rw [elementIndex]
      omega
  rw [BodyInput.word, BodyInput.words]
  rcases hvalue : getWord i.ucode (i.pc + q) s i.level 49152 1 with ⟨r, xs⟩
  rw [hvalue] at hget
  obtain rfl : r = .error .overElementRang := hget
  rfl

/-- The length of a long string is not found. -/
theorem scan_long (h : ElementsAt i q cs i.store) (hlong : 32768 ≤ cs.length) :
    scan i q halfShort 0 = checked (.error .overElementRang) := by
  obtain ⟨w, hw, hs⟩ := h.words
  have hreach : WhileLoop.Reaches (lengthLoop (fun k => i.word q k i.store) halfShort) 0
      (2 * BitVec.ofNat 16 16384) := by
    refine reaches_word fun k hk => step_word (v := w k) ?_ ?_ ?_
    · rw [halfShort_word hk]
      exact hw k (by omega)
    · rw [← image_even (w := w)]
      exact hs.ne_zero (by omega)
    · rw [← image_odd (w := w)]
      exact hs.ne_zero (by omega)
  have hbeyond : i.word q (halfShort (2 * BitVec.ofNat 16 16384)) i.store =
      .error .overElementRang :=
    word_beyond h.element fun k hk => ⟨_, hw k (by omega)⟩
  have hexit : lengthLoop (fun k => i.word q k i.store) halfShort (2 * BitVec.ofNat 16 16384) =
      .inr (.error .overElementRang) := by
    rw [lengthLoop, hbeyond]
  exact scan_of_returns
    ((WhileLoop.returns_iff_of_reaches hreach).mpr (WhileLoop.returns_of_exit hexit))

end

namespace Replacement

variable {s d : List (BitVec 8)} {x : Replacement s d} {i : BodyInput} {junk : Image}

theorem strmidw_long (h : x.Terms i) (hlong : 32768 ≤ s.length ∨ 32768 ≤ d.length) :
    runCiStrmidwIns i junk = some (.error .overElementRang, i.inPF, i.store) := by
  have hpos := x.pos
  rw [runCiStrmidwIns, h.position, checked_ok_bind, refuseIf_bind (by omega), h.length,
    checked_ok_bind]
  rcases Nat.lt_or_ge s.length 32768 with hs | hs
  · rw [h.source.scan_eq fun k hk => halfShort_word (by omega), pure_bind,
      scan_long h.destination (hlong.resolve_left (by omega)), checked_error_bind,
      runString_error h.power]
  · rw [scan_long h.source hs, checked_error_bind, runString_error h.power]

end Replacement

/-! ## All replacements -/

def r16384Operand : List UInt8 := [0, 0x1A, 0, 0x40]

namespace Replacement

variable {s d : List (BitVec 8)}

/-- The source from `R0` on, the destination from `R16384` on, and the numbers in `D0` and `D1`. -/
def sample (x : Replacement s d) : BodyInput :=
  stringInput (rOperand 0 ++ r16384Operand ++ d0Operand) (twoStrings 32768 s d)
    [x.position, x.length]

theorem sample_block (x : Replacement s d) (t : Store) :
    (x.sample.operand 6).HasBlock (.elems (.elem .R) 32768 16384) 16384 t := by
  obtain ⟨hcode, -⟩ := Ucode.codeAt_append.mp (stringInput_code (twoStrings 32768 s d)
    (rOperand 0 ++ r16384Operand ++ d0Operand) [x.position, x.length])
  have hdest : x.sample.ucode.CodeAt (0 + 6) r16384Operand := (Ucode.codeAt_append.mp hcode).2
  exact block_of_code (e := .R) hdest rfl rfl (by decide) (by decide)

theorem sample_terms (x : Replacement s d) (hs : s.length < 32768) (hd : d.length < 32768)
    (hzero : 0 ∉ s) (hzero' : 0 ∉ d) : x.Terms x.sample := by
  obtain ⟨hcode, hnumbers⟩ := Ucode.codeAt_append.mp (stringInput_code
    (twoStrings 32768 s d) (rOperand 0 ++ r16384Operand ++ d0Operand) [x.position, x.length])
  have hsource : x.sample.ucode.CodeAt (0 + 2) (rOperand 0) := (Ucode.codeAt_append.mp hcode).1
  have hnumbers : x.sample.ucode.CodeAt (0 + 10) d0Operand := hnumbers
  refine ⟨getPowerFlow_one, elementsAt_of_r (r_block hsource) hzero
    (show 2 * 0 + s.length < 65536 by omega) fun j hj => ?_,
    elementsAt_of_r (x.sample_block _) hzero' (by omega) fun j hj => ?_,
    (d0_block hnumbers).get (by decide : 0 < 8000), (d0_block hnumbers).get (by decide : 1 < 8000)⟩
  · have hplace : 2 * UInt8.toNat 0 + j = j := Nat.zero_add j
    rw [hplace]
    exact if_pos (by omega)
  · refine (if_neg (show ¬ 2 * 16384 + j < 32768 by omega)).trans ?_
    exact congrArg (fun k => d.getD k 0) (Nat.add_sub_cancel_left 32768 j)

theorem right_iff_holds (x : Replacement s d) (hs : s.length < 32768) (hd : d.length < 32768)
    (hzero : 0 ∉ s) (hzero' : 0 ∉ d) : x.Right ↔ x.Holds := by
  constructor
  · intro h
    have hterms := x.sample_terms hs hd hzero hzero'
    exact holds_of_replaces hterms hs hd hzero hzero' (x.sample_block _) (fun _ => rfl)
      (h (fun _ => 0) _ hterms)
  · exact fun hholds junk i h => replaces_of_holds h hs hd hzero hzero' hholds

end Replacement

/-- `STRMIDW` replaces characters right just where its condition holds. A string whose length is no
positive `short` is an error of its elements. -/
theorem strmidw_right_iff (s d : PlcString 65535) (x : Replacement s.chars d.chars) :
    (s.chars.length < 32768 → d.chars.length < 32768 → (x.Right ↔ x.Holds)) ∧
      (32768 ≤ s.chars.length ∨ 32768 ≤ d.chars.length → ∀ junk i, x.Terms i →
        runCiStrmidwIns i junk = some (.error .overElementRang, i.inPF, i.store)) :=
  ⟨fun hs hd => x.right_iff_holds hs hd s.nonzero d.nonzero,
    fun hlong _ _ h => Replacement.strmidw_long h hlong⟩

/-- The first character of `ABC` by `X`. -/
def xForA : Replacement [0x58] [0x41, 0x42, 0x43] where
  position := 1
  length := 1
  pos := by decide
  le_length := by decide
  asks := by decide
  enough := by decide

/-- The characters behind the first one do not stay. -/
theorem strmidw_abc_wrong : ¬ xForA.Right := by
  intro h
  rcases (xForA.right_iff_holds (by decide) (by decide) (by decide) (by decide)).mp h with
    hnone | ⟨-, -, -, hend | ⟨heven, -⟩⟩
  · exact absurd hnone (by decide)
  · exact absurd hend (by decide)
  · exact absurd heven (by decide)

end Kalyke
