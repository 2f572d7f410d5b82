-- SUMMARY: The data block: which files are restored, and which are refused, as they should be.
import Kalyke.Exec.Elements
import Kalyke.Lib.Image
import Mathlib.Data.Nat.Count

/-!
# Data Block

`plc_restore_data_block`. The file of a data block has a bit for each element of `D` and `R`, and
behind them a word for each bit that is set. The length in its header is cut to 16 bits, and is
compared with that of the bits only.
-/

namespace Kalyke

open List Nat Function

/-- `plc_get_file_length` of four bytes. -/
def plcGetFileLength (file : Image) (i : Nat) : Nat :=
  (file i).toNat + 2 ^ 8 * (file (i + 1)).toNat + 2 ^ 16 * (file (i + 2)).toNat +
    2 ^ 24 * (file (i + 3)).toNat

/-- The length of a file without values. -/
def dataBlockMinLen : Nat := (WordElement.rang .D + WordElement.rang .R) / 8 + 28

/-- The state of the loops over the elements, with the bytes of the file that have been read. -/
structure Restoring where
  store : Store
  reads : List Nat
  j : Nat
  k : Nat
  m : Nat

def restoreRound (file : Image) (e : WordElement) (x : Restoring) (i : Nat) : Restoring :=
  let index := 24 + 2 * x.j
  let value := dataBlockMinLen - 4 + 2 * x.m
  let x :=
    if (file.word index).getLsbD x.k then
      { x with
        store := x.store.setWord (.elem e) i (file.word value)
        reads := x.reads ++ [index, index + 1, value, value + 1]
        m := x.m + 1 }
    else { x with reads := x.reads ++ [index, index + 1] }
  if 16 ≤ x.k + 1 then { x with j := x.j + 1, k := 0 } else { x with k := x.k + 1 }

def restoreRounds (file : Image) (e : WordElement) (n : Nat) (x : Restoring) : Restoring :=
  (range n).foldl (restoreRound file e) x

/-- The loops over `dRang` and `rRang` elements. -/
def restoreLoops (file : Image) (dRang rRang : Nat) (s : Store) : Restoring :=
  let x := restoreRounds file .D dRang ⟨s, [2, 3, 6, 7, 8, 9], 0, 0, 0⟩
  let j := if dRang % 8 = 0 then x.j else x.j + 1
  restoreRounds file .R rRang { x with j, k := 0 }

/-- `plc_restore_data_block`, with the bytes of the file that are read. -/
def plcRestoreDataBlock (file : Image) (s : Store) : Restoring :=
  if file.bigWord 2 ≠ 2 then ⟨s, [2, 3], 0, 0, 0⟩
  else if plcGetFileLength file 6 % 2 ^ 16 < dataBlockMinLen then ⟨s, [2, 3, 6, 7, 8, 9], 0, 0, 0⟩
  else restoreLoops file (WordElement.rang .D) (WordElement.rang .R) s

/-! ## What a file says -/

section

variable (file : Image)

/-- The number of values before a bit. -/
def valuesBefore (p : Nat) : Nat := count (fun q => file.bit (192 + q)) p

/-- The first `n` values of an area whose bits begin at `off`. -/
def filledTo (off n : Nat) (old : Nat → BitVec 16) (i : Nat) : BitVec 16 :=
  if i < n ∧ file.bit (192 + (off + i)) then file.word (5120 + 2 * valuesBefore file (off + i))
  else old i

/-- Put the values of some elements of an area. -/
def fill (e : WordElement) (off n : Nat) (s : Store) : Store :=
  { s with word := update s.word e (filledTo file off n (s.word e)) }

def restored (s : Store) : Store :=
  fill file .R (WordElement.rang .D) (WordElement.rang .R) (fill file .D 0 (WordElement.rang .D) s)

/-- The length that a file needs for its values. -/
def neededLen : Nat := dataBlockMinLen + 2 * valuesBefore file 40768

structure WellFormed : Prop where
  id : file.bigWord 2 = 2
  length : plcGetFileLength file 6 = neededLen file

def TooShort : Prop := plcGetFileLength file 6 < neededLen file

/-- A well-formed file is restored, and of one that is too short nothing is. -/
structure Restores : Prop where
  restored : WellFormed file → ∀ s, (plcRestoreDataBlock file s).store = restored file s
  refused : TooShort file → ∀ s, (plcRestoreDataBlock file s).store = s ∧
    ∀ q ∈ (plcRestoreDataBlock file s).reads, q < plcGetFileLength file 6

end

/-! ## The loops -/

section

variable {file : Image} {e : WordElement} {off n p : Nat} {s : Store} {x : Restoring}

theorem filledTo_succ (old : Nat → BitVec 16) : filledTo file off (n + 1) old =
    if file.bit (192 + (off + n)) then
      update (filledTo file off n old) n (file.word (5120 + 2 * valuesBefore file (off + n)))
    else filledTo file off n old := by
  funext i
  rcases eq_or_ne i n with rfl | hne
  · split <;> simp_all [filledTo]
  · have hlt : i < n + 1 ↔ i < n := by omega
    split <;> simp [filledTo, hlt, hne]

/-- Where the loops stand when they have come to a bit. -/
structure Restoring.At (x : Restoring) (file : Image) (p : Nat) : Prop where
  j : x.j = p / 16
  k : x.k = p % 16
  m : x.m = valuesBefore file p

theorem Restoring.At.round (h : x.At file p) (i : Nat) :
    (restoreRound file e x i).At file (p + 1) ∧ (restoreRound file e x i).store =
      if file.bit (192 + p) then
        x.store.setWord (.elem e) i (file.word (5120 + 2 * valuesBefore file p))
      else x.store := by
  have hk : x.k < 16 := h.k ▸ mod_lt p (by decide)
  have hplace : 8 * (24 + 2 * x.j) + x.k = 192 + p := by
    rw [h.j, h.k]
    omega
  have hbit : (file.word (24 + 2 * x.j)).getLsbD x.k = file.bit (192 + p) := by
    rw [Image.getLsbD_word hk, hplace]
  have hcount : valuesBefore file (p + 1) =
      valuesBefore file p + if file.bit (192 + p) then 1 else 0 := count_succ _ p
  have hj := h.j
  have hk' := h.k
  have hm := h.m
  simp only [restoreRound, hbit]
  by_cases hset : file.bit (192 + p) = true
  · simp only [hset, if_true] at hcount ⊢
    rw [← hm]
    split <;> refine ⟨⟨?_, ?_, ?_⟩, rfl⟩ <;> simp only <;> omega
  · simp only [hset, Bool.false_eq_true, if_false] at hcount ⊢
    split <;> refine ⟨⟨?_, ?_, ?_⟩, rfl⟩ <;> simp only <;> omega

theorem Restoring.At.rounds (h : x.At file off) :
    (restoreRounds file e n x).At file (off + n) ∧
      (restoreRounds file e n x).store = fill file e off n x.store := by
  induction n with
  | zero =>
    have hnone : filledTo file off 0 (x.store.word e) = x.store.word e :=
      funext fun i => if_neg fun h => absurd h.1 (not_lt_zero i)
    refine ⟨h, ?_⟩
    rw [fill, hnone, update_eq_self]
    rfl
  | succ n ih =>
    have hround : restoreRounds file e (n + 1) x =
        restoreRound file e (restoreRounds file e n x) n := by
      rw [restoreRounds, range_succ, foldl_append]
      rfl
    obtain ⟨hat, hstore⟩ := ih.1.round n
    rw [hround]
    refine ⟨hat, hstore.trans ?_⟩
    rw [ih.2, fill, fill, filledTo_succ]
    split
    · simp only [Store.setWord, update_self, update_idem]
    · rfl

theorem store_restoreLoops {dRang rRang : Nat} (hD : dRang % 16 = 0) :
    (restoreLoops file dRang rRang s).store =
      fill file .R dRang rRang (fill file .D 0 dRang s) := by
  have hstart : Restoring.At ⟨s, [2, 3, 6, 7, 8, 9], 0, 0, 0⟩ file 0 := ⟨rfl, rfl, rfl⟩
  obtain ⟨hat, hstore⟩ := hstart.rounds (e := .D) (n := dRang)
  rw [Nat.zero_add] at hat
  have hsecond : Restoring.At { restoreRounds file .D dRang
      ⟨s, [2, 3, 6, 7, 8, 9], 0, 0, 0⟩ with k := 0 } file dRang := ⟨hat.j, hD.symm, hat.m⟩
  rw [restoreLoops, if_pos (by omega)]
  exact hsecond.rounds.2.trans (congrArg _ hstore)

end

/-! ## Which files are restored -/

section

variable {file : Image} {s : Store}

theorem restoreDataBlock_accepted (hid : file.bigWord 2 = 2)
    (hlen : dataBlockMinLen ≤ plcGetFileLength file 6 % 2 ^ 16) :
    (plcRestoreDataBlock file s).store = restored file s := by
  have hD : WordElement.rang .D % 16 = 0 := by decide
  rw [plcRestoreDataBlock, if_neg (not_not_intro hid), if_neg (Nat.not_lt.mpr hlen),
    store_restoreLoops hD, restored]

theorem restoreDataBlock_refused (hid : file.bigWord 2 = 2)
    (hlen : plcGetFileLength file 6 % 2 ^ 16 < dataBlockMinLen) :
    plcRestoreDataBlock file s = ⟨s, [2, 3, 6, 7, 8, 9], 0, 0, 0⟩ := by
  rw [plcRestoreDataBlock, if_neg (not_not_intro hid), if_pos hlen]

instance storeInhabited : Inhabited Store :=
  ⟨⟨fun _ _ => false, fun _ => false, fun _ _ => 0, fun _ => 0, fun _ => 0, fun _ => resetTimer 0,
    fun _ => false, fun _ => false, false, false, 0, false⟩⟩

/-- A file with values changes some store. -/
theorem exists_restored_ne (h : valuesBefore file 40768 ≠ 0) : ∃ s, restored file s ≠ s := by
  obtain ⟨p, hp, hbit⟩ := count_ne_iff_exists.mp h
  refine ⟨{ (default : Store) with
    word := fun _ _ => ~~~file.word (5120 + 2 * valuesBefore file p) }, fun heq => ?_⟩
  have hne (y : BitVec 16) : y ≠ ~~~y := by
    intro hy
    have hzero := congrArg (BitVec.getLsbD · 0) hy
    simp at hzero
  rcases Nat.lt_or_ge p 8000 with hD | hR
  · have hword := congrArg (fun s => s.word .D p) heq
    simp [restored, fill, filledTo, WordElement.rang, hD, hbit, hne] at hword
  · have hword := congrArg (fun s => s.word .R (p - 8000)) heq
    have hplace : 8000 + (p - 8000) = p := by omega
    have hlt : p - 8000 < 32768 := by omega
    simp [restored, fill, filledTo, WordElement.rang, hplace, hbit, hlt, hne] at hword

/-- A file with values is refused for the length it seems to have only. -/
theorem dataBlock_refused_iff (hid : file.bigWord 2 = 2) (hvalues : valuesBefore file 40768 ≠ 0) :
    (∀ s, (plcRestoreDataBlock file s).store = s) ↔
      plcGetFileLength file 6 % 2 ^ 16 < dataBlockMinLen := by
  refine ⟨fun h => ?_, fun hlen s => by rw [restoreDataBlock_refused hid hlen]⟩
  by_contra hlen
  obtain ⟨s, hne⟩ := exists_restored_ne hvalues
  exact hne ((restoreDataBlock_accepted hid (Nat.not_lt.mp hlen)).symm.trans (h s))

end

/-- A well-formed file does not look shorter than its bits. One that is too short looks so, or is no
data block, and it has the bytes of the header that are read. -/
structure LooksRight (file : Image) : Prop where
  wellFormed : WellFormed file → dataBlockMinLen ≤ plcGetFileLength file 6 % 2 ^ 16
  tooShort : TooShort file →
    if file.bigWord 2 = 2 then
      plcGetFileLength file 6 % 2 ^ 16 < dataBlockMinLen ∧ 10 ≤ plcGetFileLength file 6
    else 4 ≤ plcGetFileLength file 6

theorem dataBlock_restores_iff (file : Image) : Restores file ↔ LooksRight file := by
  constructor
  · intro h
    refine ⟨fun hw => ?_, fun hs => ?_⟩
    · by_contra hlen
      have hvalues : valuesBefore file 40768 ≠ 0 := fun hzero => by
        have hlength := hw.length
        rw [neededLen, hzero] at hlength
        exact hlen (hlength ▸ by decide)
      obtain ⟨s, hne⟩ := exists_restored_ne hvalues
      rw [← h.restored hw, restoreDataBlock_refused hw.id (Nat.not_le.mp hlen)] at hne
      exact hne rfl
    · have hreads := (h.refused hs default).2
      split
      · rename_i hid
        have hlen : plcGetFileLength file 6 % 2 ^ 16 < dataBlockMinLen := by
          by_cases hvalues : valuesBefore file 40768 = 0
          · have hmod := mod_le (plcGetFileLength file 6) (2 ^ 16)
            rw [TooShort, neededLen, hvalues] at hs
            omega
          · exact (dataBlock_refused_iff hid hvalues).mp fun s => (h.refused hs s).1
        rw [restoreDataBlock_refused hid hlen] at hreads
        exact ⟨hlen, hreads 9 (by simp)⟩
      · rename_i hid
        rw [plcRestoreDataBlock, if_pos hid] at hreads
        exact hreads 3 (by simp)
  · intro h
    refine ⟨fun hw s => restoreDataBlock_accepted hw.id (h.wellFormed hw), fun hs s => ?_⟩
    have hlooks := h.tooShort hs
    have hid' : ∀ q ∈ [2, 3], q < 4 := by decide
    have hheader : ∀ q ∈ [2, 3, 6, 7, 8, 9], q < 10 := by decide
    split at hlooks
    · rename_i hid
      rw [restoreDataBlock_refused hid hlooks.1]
      exact ⟨rfl, fun q hq => Nat.lt_of_lt_of_le (hheader q hq) hlooks.2⟩
    · rename_i hid
      rw [plcRestoreDataBlock, if_pos hid]
      exact ⟨rfl, fun q hq => Nat.lt_of_lt_of_le (hid' q hq) hlooks⟩

/-- A file of the smallest length, with a bit and no value. -/
def fileWithoutValue : Image
  | 3 => 2
  | 6 => 0x04
  | 7 => 0x14
  | 24 => 1
  | _ => 0

theorem fileWithoutValue_not_refused : ¬ Restores fileWithoutValue := by
  intro h
  have hone : valuesBefore fileWithoutValue 1 = 1 := by decide
  have hmono : valuesBefore fileWithoutValue 1 ≤ valuesBefore fileWithoutValue 40768 :=
    count_monotone _ (by decide)
  have hlen : plcGetFileLength fileWithoutValue 6 = dataBlockMinLen := by decide
  have hshort : TooShort fileWithoutValue := by
    rw [TooShort, neededLen]
    omega
  exact absurd ((dataBlock_refused_iff (by decide) (by omega)).mp fun s => (h.refused hshort s).1) (by decide)

end Kalyke
