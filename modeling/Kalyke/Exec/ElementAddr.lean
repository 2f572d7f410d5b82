-- SUMMARY: The addresses of blocks of words and double words, beside the copies of the get functions.
import Kalyke.Exec.Ranges

/-!
# Element Addresses

`plc_parseaddr.c`. `get_word_addr` and `get_dword_addr` hand out a pointer to the first element of a
block, which is an element number here. They are to accept what `get_word` and `get_dword` accept,
and to point to what those copy.
-/

namespace Kalyke

open List BitVec Option

variable {u : Ucode} {p n cnt : Nat} {s : Store} {z : Nat → BitVec 16}

/-! ## The functions -/

/-- The classes of `get_word_addr` and `get_dword_addr`. -/
def addrTable : AddrType → Option (WordElement × Bool)
  | .d => some (.D, false)
  | .r => some (.R, false)
  | .dz => some (.D, true)
  | .rz => some (.R, true)
  | _ => none

/-- The element number of an operand at `p`, with the index register whose number is at `q`. -/
def addrIndex (z : Nat → BitVec 16) (u : Ucode) (p q : Nat) (indexed : Bool) : Nat :=
  elementIndex ((if indexed then (z (u.getPU8 q)).toNat else 0) + u.getPU16 (p + 2))

/-- `get_word_addr`: the area and the number of the first of `cnt` elements. -/
def getWordAddr (u : Ucode) (p : Nat) (s : Store) (cnt : Nat) :
    Except PlcErr (WordElement × Nat) :=
  match (AddrType.ofCode (u.getPU8 (p + 1))).bind addrTable with
  | some (e, indexed) =>
    if addrIndex (s.word .Z) u p p indexed + cnt ≥ e.rang then .error .overElementRang
    else .ok (e, addrIndex (s.word .Z) u p p indexed)
  | none => .error .elementType

/-- `get_dword_addr`. It takes the number of the index register from the type byte. -/
def getDwordAddr (u : Ucode) (p : Nat) (s : Store) (cnt : Nat) :
    Except PlcErr (WordElement × Nat) :=
  match (AddrType.ofCode (u.getPU8 (p + 1))).bind addrTable with
  | some (e, indexed) =>
    if addrIndex (s.word .Z) u p (p + 1) indexed % 2 = 1 ∨
        addrIndex (s.word .Z) u p (p + 1) indexed + 2 * cnt > e.rang then .error .overElementRang
    else .ok (e, addrIndex (s.word .Z) u p (p + 1) indexed)
  | none => .error .elementType

/-- The words behind an address. -/
def wordsAt (s : Store) (a : WordElement × Nat) (cnt : Nat) : List (BitVec 16) :=
  (range cnt).map fun j => s.word a.1 (a.2 + j)

/-- The double words behind an address, with the lower half first. -/
def dwordsAt (s : Store) (a : WordElement × Nat) (cnt : Nat) : List (BitVec 32) :=
  (range cnt).map fun j => s.word a.1 (a.2 + 2 * j + 1) ++ s.word a.1 (a.2 + 2 * j)

/-! ## Addresses and copies -/

/-- An address function does what a get function does for a block. -/
structure SameBlock {α : Type} (addr : Except PlcErr (WordElement × Nat))
    (copy : Except PlcErr Unit × List α) (behind : WordElement × Nat → List α) : Prop where
  succeeds : (∃ a, addr = .ok a) ↔ copy.1 = .ok ()
  values : ∀ a, addr = .ok a → behind a = copy.2

/-- With the index registers `z`, whatever the elements hold, both address functions do what the get
functions do. -/
def AddrRight (u : Ucode) (p n cnt : Nat) (z : Nat → BitVec 16) : Prop :=
  ∀ s : Store, s.word .Z = z →
    SameBlock (getWordAddr u p s cnt) (getWord u p s n 0 cnt) (wordsAt s · cnt) ∧
    SameBlock (getDwordAddr u p s cnt) (getDword u p s n 0 cnt) (dwordsAt s · cnt)

/-- The block of words from `i` on does not end exactly with the area, and an empty one starts
in it. -/
def WordAddrAgrees (rang i cnt : Nat) : Prop := i + cnt ≠ rang ∧ (cnt = 0 → i < rang)

/-- The block of double words from `i` on, looked for from `i'` on: an empty one is accepted, one
that is too long refused, and any other starts with an even number and is looked for where
it is. -/
def DwordAddrAgrees (rang i i' cnt : Nat) : Prop :=
  if cnt = 0 then i' % 2 = 0 ∧ i' ≤ rang
  else if rang < i + 2 * cnt then i' % 2 = 1 ∨ rang < i' + 2 * cnt
  else i' = i ∧ i % 2 = 0

instance {rang i : Nat} : Decidable (WordAddrAgrees rang i cnt) :=
  inferInstanceAs (Decidable (_ ∧ _))

instance {rang i i' : Nat} : Decidable (DwordAddrAgrees rang i i' cnt) :=
  inferInstanceAs (Decidable (if cnt = 0 then i' % 2 = 0 ∧ i' ≤ rang
    else if rang < i + 2 * cnt then i' % 2 = 1 ∨ rang < i' + 2 * cnt else i' = i ∧ i % 2 = 0))

/-! ## What the functions accept -/

section

variable {e : WordElement} {indexed : Bool}

theorem addrIndex_lt {q : Nat} : addrIndex z u p q indexed < 65536 := Nat.mod_lt _ (by decide)

theorem addrTable_cases {a : AddrType} (h : addrTable a = some (e, indexed)) :
    getWordTable n a = some (.of (.elem e) indexed) ∧
    getDwordTable n a = some (.of (.elem e) indexed) ∧ e ≠ .Z := by
  cases a <;> cases h <;> exact ⟨rfl, rfl, by decide⟩

variable (h : (AddrType.ofCode (u.getPU8 (p + 1))).bind addrTable = some (e, indexed))
include h

theorem getWord_of_addr :
    getWord u p s n 0 cnt =
      getLoop (s.word e) e.rang 1 cnt (addrIndex (s.word .Z) u p p indexed) := by
  obtain ⟨a, ha, htable⟩ := bind_eq_some_iff.mp h
  simp only [getWord, ha, bind_some, (addrTable_cases (n := n) htable).1]
  rfl

theorem getDword_of_addr :
    getDword u p s n 0 cnt =
      getLoop (fun i => s.word e (i + 1) ++ s.word e i) (e.rang - 1) 2 cnt
        (addrIndex (s.word .Z) u p p indexed) := by
  obtain ⟨a, ha, htable⟩ := bind_eq_some_iff.mp h
  simp only [getDword, ha, bind_some, (addrTable_cases (n := n) htable).2.1]
  rfl

theorem getWordAddr_of_addr :
    getWordAddr u p s cnt =
      if e.rang ≤ addrIndex (s.word .Z) u p p indexed + cnt then .error .overElementRang
      else .ok (e, addrIndex (s.word .Z) u p p indexed) := by
  rw [getWordAddr, h]

theorem getDwordAddr_of_addr :
    getDwordAddr u p s cnt =
      if addrIndex (s.word .Z) u p (p + 1) indexed % 2 = 1 ∨
          e.rang < addrIndex (s.word .Z) u p (p + 1) indexed + 2 * cnt then
        .error .overElementRang
      else .ok (e, addrIndex (s.word .Z) u p (p + 1) indexed) := by
  rw [getDwordAddr, h]

end

/-- A check that hands out an address, or refuses. -/
theorem exists_ok_ite_iff {c : Prop} [Decidable c] {err : PlcErr} {a : WordElement × Nat} :
    (∃ b, (if c then .error err else .ok a : Except PlcErr (WordElement × Nat)) = .ok b) ↔ ¬ c := by
  split
  · exact iff_of_false (fun ⟨b, hb⟩ => by cases hb) fun hc => hc ‹c›
  · exact iff_of_true ⟨a, rfl⟩ ‹¬ c›

theorem inBlock_two_iff {rang i : Nat} :
    InBlock (rang - 1) 2 i cnt ↔ cnt = 0 ∨ i + 2 * cnt ≤ rang := by
  constructor
  · intro h
    rcases Nat.eq_zero_or_pos cnt with hzero | hpos
    · exact .inl hzero
    · have hlast := h (cnt - 1) (by omega)
      omega
  · rintro hle j hj
    omega

theorem WordElement.rang_le (e : WordElement) : e.rang ≤ 32768 := by
  cases e <;> decide

/-! ## Words -/

section

variable {e : WordElement} {indexed : Bool}
  (h : (AddrType.ofCode (u.getPU8 (p + 1))).bind addrTable = some (e, indexed))
include h

theorem sameBlock_word_iff :
    SameBlock (getWordAddr u p s cnt) (getWord u p s n 0 cnt) (wordsAt s · cnt) ↔
      WordAddrAgrees e.rang (addrIndex (s.word .Z) u p p indexed) cnt := by
  have hrang := e.rang_le
  have hcopy : (getWord u p s n 0 cnt).1 = .ok () ↔
      cnt = 0 ∨ addrIndex (s.word .Z) u p p indexed + cnt ≤ e.rang := by
    rw [getWord_of_addr h, getLoop_ok_iff (by omega), inBlock_one_iff]
  have haddr : (∃ a, getWordAddr u p s cnt = .ok a) ↔
      ¬ e.rang ≤ addrIndex (s.word .Z) u p p indexed + cnt := by
    rw [getWordAddr_of_addr h]
    exact exists_ok_ite_iff
  constructor
  · intro hsame
    have hiff := haddr.symm.trans (hsame.succeeds.trans hcopy)
    unfold WordAddrAgrees
    omega
  · rintro ⟨hend, hempty⟩
    refine ⟨haddr.trans (Iff.trans ?_ hcopy.symm), fun a ha => ?_⟩
    · omega
    · rw [getWordAddr_of_addr h] at ha
      split at ha
      · cases ha
      · cases ha
        rw [getWord_of_addr h, getLoop_of_inBlock (by omega) (inBlock_one_iff.mpr (by omega))]
        exact map_congr_left fun j _ => by rw [Nat.one_mul]

/-! ## Double words -/

/-- Both functions for double words, by the two numbers they come to. -/
theorem sameBlock_dword_iff :
    SameBlock (getDwordAddr u p s cnt) (getDword u p s n 0 cnt) (dwordsAt s · cnt) ↔
      (¬ (addrIndex (s.word .Z) u p (p + 1) indexed % 2 = 1 ∨
          e.rang < addrIndex (s.word .Z) u p (p + 1) indexed + 2 * cnt) ↔
        cnt = 0 ∨ addrIndex (s.word .Z) u p p indexed + 2 * cnt ≤ e.rang) ∧
      (cnt = 0 ∨ addrIndex (s.word .Z) u p p indexed + 2 * cnt ≤ e.rang →
        dwordsAt s (e, addrIndex (s.word .Z) u p (p + 1) indexed) cnt =
          dwordsAt s (e, addrIndex (s.word .Z) u p p indexed) cnt) := by
  have hrang := e.rang_le
  have hcopy : (getDword u p s n 0 cnt).1 = .ok () ↔
      cnt = 0 ∨ addrIndex (s.word .Z) u p p indexed + 2 * cnt ≤ e.rang := by
    rw [getDword_of_addr h, getLoop_ok_iff (by omega), inBlock_two_iff]
  have hread (hle : cnt = 0 ∨ addrIndex (s.word .Z) u p p indexed + 2 * cnt ≤ e.rang) :
      (getDword u p s n 0 cnt).2 = dwordsAt s (e, addrIndex (s.word .Z) u p p indexed) cnt := by
    rw [getDword_of_addr h, getLoop_of_inBlock (by omega) (inBlock_two_iff.mpr hle)]
    rfl
  have haddr : (∃ a, getDwordAddr u p s cnt = .ok a) ↔
      ¬ (addrIndex (s.word .Z) u p (p + 1) indexed % 2 = 1 ∨
        e.rang < addrIndex (s.word .Z) u p (p + 1) indexed + 2 * cnt) := by
    rw [getDwordAddr_of_addr h]
    exact exists_ok_ite_iff
  constructor
  · intro hsame
    have hiff := haddr.symm.trans (hsame.succeeds.trans hcopy)
    refine ⟨hiff, fun hle => ?_⟩
    have hok : getDwordAddr u p s cnt = .ok (e, addrIndex (s.word .Z) u p (p + 1) indexed) := by
      rw [getDwordAddr_of_addr h, if_neg (hiff.mpr hle)]
    exact (hsame.values _ hok).trans (hread hle)
  · rintro ⟨hiff, hvalues⟩
    refine ⟨haddr.trans (hiff.trans hcopy.symm), fun a ha => ?_⟩
    rw [getDwordAddr_of_addr h] at ha
    split at ha
    · cases ha
    · rename_i hfits
      cases ha
      rw [hread (hiff.mp hfits)]
      exact hvalues (hiff.mp hfits)

end

/-- A store with the given index registers, whose other elements hold their numbers. -/
def Store.numbered (z : Nat → BitVec 16) (s : Store) : Store :=
  { s with word := fun e i => if e = .Z then z i else BitVec.ofNat 16 i }

/-- Double words that follow one another from two numbers on are the same, whatever the elements
hold, just if there are none or the numbers are the same. -/
theorem eq_of_dwordsAt_numbered {e : WordElement} {i i' : Nat} (he : e ≠ .Z) (hi : i < 65536)
    (hi' : i' < 65536) (hcnt : cnt ≠ 0)
    (h : dwordsAt (s.numbered z) (e, i') cnt = dwordsAt (s.numbered z) (e, i) cnt) : i' = i := by
  obtain ⟨k, rfl⟩ := Nat.exists_eq_succ_of_ne_zero hcnt
  have hfirst := congrArg (fun xs => xs[0]?) h
  simp only [dwordsAt, getElem?_map, getElem?_range k.succ_pos, map_some,
    Nat.mul_zero, Nat.add_zero, some.injEq, Store.numbered, if_neg he] at hfirst
  have hlow := congrArg (setWidth 16) hfirst
  rw [setWidth_append_eq_right, setWidth_append_eq_right] at hlow
  have hnat := congrArg BitVec.toNat hlow
  simpa [Nat.mod_eq_of_lt hi, Nat.mod_eq_of_lt hi'] using hnat

/-! ## Both -/

theorem numbered_z (z : Nat → BitVec 16) (s : Store) : (s.numbered z).word .Z = z := rfl

/-- The address functions do what the get functions do just if the block does not end with the last
element of its class, and the double words start with an even number that both functions
come to. -/
theorem addrRight_iff {e : WordElement} {indexed : Bool}
    (h : (AddrType.ofCode (u.getPU8 (p + 1))).bind addrTable = some (e, indexed)) :
    AddrRight u p n cnt z ↔
      WordAddrAgrees e.rang (addrIndex z u p p indexed) cnt ∧
      DwordAddrAgrees e.rang (addrIndex z u p p indexed) (addrIndex z u p (p + 1) indexed) cnt := by
  obtain ⟨a, -, htable⟩ := bind_eq_some_iff.mp h
  have he : e ≠ .Z := (addrTable_cases (n := n) htable).2.2
  constructor
  · intro hright
    obtain ⟨hword, hdword⟩ := hright (Store.off.numbered z) (numbered_z z _)
    refine ⟨(sameBlock_word_iff h).mp hword, ?_⟩
    obtain ⟨hiff, hvalues⟩ := (sameBlock_dword_iff h).mp hdword
    rw [numbered_z] at hiff hvalues
    unfold DwordAddrAgrees
    split
    · omega
    · rename_i hcnt
      split
      · omega
      · have hsame := eq_of_dwordsAt_numbered he addrIndex_lt addrIndex_lt hcnt (hvalues (by omega))
        omega
  · rintro ⟨hword, hdword⟩ s rfl
    refine ⟨(sameBlock_word_iff h).mpr hword, (sameBlock_dword_iff h).mpr ?_⟩
    unfold DwordAddrAgrees at hdword
    split at hdword
    · rename_i hcnt
      refine ⟨by omega, fun _ => ?_⟩
      rw [hcnt]
      rfl
    · split at hdword
      · exact ⟨by omega, fun hle => by omega⟩
      · rw [hdword.1]
        exact ⟨by omega, fun _ => rfl⟩

/-- Three elements from `D100` on. -/
theorem addrRight_d100 : AddrRight [0x00, 0x11, 0x64, 0x00] 0 0 3 fun _ => 0 :=
  (addrRight_iff rfl).mpr (by decide)

/-- The block of `D7999` alone is copied, but no address is handed out. -/
theorem d7999_refused :
    ¬ ∀ u p n cnt z e indexed, (AddrType.ofCode (u.getPU8 (p + 1))).bind addrTable =
      some (e, indexed) → AddrRight u p n cnt z := by
  intro h
  have hright := h [0x00, 0x11, 0x3F, 0x1F] 0 0 1 (fun _ => 0) .D false rfl Store.off rfl
  have hcopy : (getWord [0x00, 0x11, 0x3F, 0x1F] 0 Store.off 0 0 1).1 = .ok () := rfl
  obtain ⟨a, ha⟩ := hright.1.succeeds.mpr hcopy
  cases ha

end Kalyke
