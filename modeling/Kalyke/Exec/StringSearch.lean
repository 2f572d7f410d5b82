-- SUMMARY: `STRINSTR`: why the position it stores is never right.
import Kalyke.Exec.Strings
import Kalyke.Lib.RestartSearch

/-!
# Searching in a string

`STRINSTR` takes the number of the first position from a fixed place in the code, where in no form
of the search string it stands, and its counter for the length of the source has no first value.
-/

namespace Kalyke

open PackedStrings

/-! ## The instruction -/

section

variable (i : BodyInput) (junk junk' : Image)

/-- The length of the search string, for a literal the one with its zero, and the bytes of its
operand behind the mark. -/
def searchLengths : StrM (BitVec 16 × Nat) :=
  if IsLiteral i 2 then
    return (BitVec.ofNat 16 (i.ucode.getPU8 (i.pc + 2)), i.ucode.getPU8 (i.pc + 2))
  else return (← scan i 2 half 0, 2)

/-- The copies of search string and source and the search in them, with the bytes of the operand,
the lengths and the position. -/
def searchEnd (u : Nat) (m n p : BitVec 16) : StrM BodyResult := do
  let t ← inMemory (Buffer.alloc junk (m.toNat + 2))
  let s ← inMemory (Buffer.alloc junk' (n.toNat + 2))
  let t ← copyString i 2 m.toNat ((m.toNat + 1) / 2) t 0 i.store
  let t ← inMemory (t.put m.toNat [0])
  let s ← getInto i (4 + u) s 0 0 ((n.toNat + 1) / 2) i.store
  let s ← inMemory (s.put n.toNat [0])
  let found ← inMemory (WhileLoop.run (searchLoop t.bytes s.bytes)
    (searchFuel m.toNat n.toNat) (.startAt (p.toNat - 1)))
  return i.storedWords (8 + u) [BitVec.ofNat 16 (found.getD 0)] i.store

/-- What comes behind the length of the search string and the bytes of its operand. For an empty
search string the length of the source and 1 are saved first. -/
def searchBehind (counter m : BitVec 16) (u : Nat) : StrM BodyResult := do
  let p ← checked (i.word 12 0 i.store)
  if p.toInt ≤ 0 then return (.ok (), i.inPF, i.store)
  else
    let n ← scan i (4 + u) half counter
    refuseIf (n.toNat < p.toInt)
    if m = 0 then
      let saved := i.storedWords (8 + u) [n + 1] i.store
      match saved.1 with
      | .error _ => return saved
      | .ok _ =>
        let i' := { i with store := saved.2.2 }
        inMemory (runString i' (searchEnd i' junk junk' u m (n + 1) p))
    else searchEnd i junk junk' u m n p

/-- `run_ci_strinstr_ins`, with what is in the buffers and in the counter at first. -/
def runCiStrinstrIns (counter : BitVec 16) : Option BodyResult :=
  runString i do
    let (m, u) ← searchLengths i
    refuseIf (32 < m.toNat)
    searchBehind i junk junk' counter m u

end

/-! ## Laws -/

/-- The position of a place: the first one is 1, and 0 stands for none. -/
def positionOf : Option Nat → Nat
  | some k => k + 1
  | none => 0

/-- A search for a string in another one, from a position in it on. -/
structure StringSearch (t s : List (BitVec 8)) where
  position : BitVec 16
  pos : 1 ≤ position.toInt
  le_length : position.toInt ≤ s.length

namespace StringSearch

variable {t s : List (BitVec 8)} (x : StringSearch t s)

/-- The place at which the search begins. -/
def start : Nat := x.position.toNat - 1

/-- The operands of a search, with a form for the search string. -/
structure Terms (f : StringForm) (i : BodyInput) : Prop where
  power : getPowerFlow i.inPF = true
  search : f.At i 2 t
  source : ElementsAt i (4 + f.ucodeLen t) s i.store
  position : i.word (12 + f.ucodeLen t) 0 i.store = .ok x.position

def Right (f : StringForm) : Prop :=
  ∀ junk junk' counter i r, x.Terms f i → FirstFrom t s x.start r →
    runCiStrinstrIns i junk junk' counter =
      some (i.storedWords (8 + f.ucodeLen t) [BitVec.ofNat 16 (positionOf r)] i.store)

end StringSearch

/-! ## The search -/

def StringForm.searchLen (cs : List (BitVec 8)) : StringForm → Nat
  | literal => cs.length + 1
  | element => cs.length

theorem searchLengths_eq {f : StringForm} {t : List (BitVec 8)} {i : BodyInput} (h : f.At i 2 t)
    (ht : t.length ≤ 32) :
    searchLengths i = pure (BitVec.ofNat 16 (f.searchLen t), f.ucodeLen t) := by
  cases f with
  | literal =>
    rw [searchLengths, if_pos h.mark, h.length]
    rfl
  | element =>
    rw [searchLengths, if_neg h.not_literal, h.scan_eq fun k hk => half_word (by omega)]
    rfl

namespace StringSearch

variable {t s : List (BitVec 8)} {x : StringSearch t s} {f : StringForm} {i : BodyInput}
  {junk junk' : Image} {counter : BitVec 16}

theorem strinstr_run (h : x.Terms f i) (ht : t.length ≤ 32) (hm : f.searchLen t ≤ 32) :
    runCiStrinstrIns i junk junk' counter = runString i
      (searchBehind i junk junk' counter (BitVec.ofNat 16 (f.searchLen t)) (f.ucodeLen t)) := by
  have hless : ¬ 32 < (BitVec.ofNat 16 (f.searchLen t)).toNat := by
    rw [BitVec.toNat_ofNat]
    omega
  rw [runCiStrinstrIns, searchLengths_eq h.search ht]
  simp only [pure_bind]
  rw [refuseIf_bind hless]

theorem strinstr_refused (h : x.Terms f i) (ht : t.length ≤ 32) (hm : ¬ f.searchLen t ≤ 32) :
    runCiStrinstrIns i junk junk' counter = some i.refused := by
  have hlen : f.searchLen t ≤ t.length + 1 := by
    cases f with
    | literal => exact Nat.le_refl _
    | element => exact Nat.le_succ _
  have hmore : 32 < (BitVec.ofNat 16 (f.searchLen t)).toNat := by
    rw [BitVec.toNat_ofNat]
    omega
  rw [runCiStrinstrIns, searchLengths_eq h.search ht]
  simp only [pure_bind]
  rw [refuseIf_bind_of hmore, runString_error h.power]
  rfl

/-- An instruction that fails or leaves the elements as they are has no result. -/
def Fails (i : BodyInput) (r : Option BodyResult) : Prop :=
  (∃ e, r = some (.error e, i.inPF, i.store)) ∨ r = some (.ok (), i.inPF, i.store)

/-- Without a length of the source there is no result. -/
theorem strinstr_fails (h : x.Terms f i) (ht : t.length ≤ 32)
    (hscan : scan i (4 + f.ucodeLen t) half counter = pure 0 ∨
      ∃ e, scan i (4 + f.ucodeLen t) half counter = checked (.error e)) :
    Fails i (runCiStrinstrIns i junk junk' counter) := by
  by_cases hm : f.searchLen t ≤ 32
  · rw [strinstr_run h ht hm, searchBehind]
    rcases i.word 12 0 i.store with e | p
    · exact .inl ⟨e, runString_error h.power⟩
    · rw [checked_ok_bind]
      split
      · exact .inr (runString_pure h.power)
      · rename_i hp
        rcases hscan with hzero | ⟨e, herror⟩
        · have hless : ((0 : BitVec 16).toNat : Int) < p.toInt := Int.not_le.mp hp
          rw [hzero, pure_bind, refuseIf_bind_of hless]
          exact .inl ⟨.operands, runString_error h.power⟩
        · rw [herror, checked_error_bind]
          exact .inl ⟨e, runString_error h.power⟩
  · exact .inl ⟨.operands, strinstr_refused h ht hm⟩

/-- If the destination holds something else, that is not right. -/
theorem not_right_of_fails {b : WordBlock} {n : Nat} {r : Option Nat} (h : x.Terms f i)
    (hr : FirstFrom t s x.start r) (hn : 1 ≤ n)
    (hblock : (i.operand (8 + f.ucodeLen t)).HasBlock b n i.store) (hkept : ∀ y, b.kept y = y)
    (hother : b.read 0 i.store ≠ BitVec.ofNat 16 (positionOf r))
    (hfails : Fails i (runCiStrinstrIns i junk junk' counter)) : ¬ x.Right f := by
  intro hright
  obtain ⟨hpass, -, hview⟩ := storedWords_view hblock
    (show 0 < [BitVec.ofNat 16 (positionOf r)].length from Nat.one_pos) hn
  have hstored := hright junk junk' counter i r h hr
  rcases hfails with ⟨e, herror⟩ | hsame
  · rw [← Option.some.inj (herror.symm.trans hstored)] at hpass
    cases hpass
  · have hread := hview 0 Nat.one_pos
    rw [← Option.some.inj (hsame.symm.trans hstored), hkept] at hread
    exact hother hread

end StringSearch

/-! ## Samples -/

namespace StringSearch

variable {t s : List (BitVec 8)} {x : StringSearch t s} {f : StringForm} {k : UInt8}
  {w : BitVec 16}

def searchCode (t : List (BitVec 8)) (f : StringForm) : List UInt8 :=
  match f with
  | .literal => StringForm.literal.code t 0
  | .element => dOperand 2

/-- The source in the elements `R` from a number on, a word in `D0`, which is the destination, and
the position in `D1`. -/
def sample (x : StringSearch t s) (f : StringForm) (k : UInt8) (w : BitVec 16) : BodyInput :=
  stringInput (searchCode t f ++ rOperand k ++ dOperand 0 ++ dOperand 1)
    (fun j => s.getD (j - 2 * k.toNat) 0) ([w, x.position] ++ words (t.getD · 0) 17)

theorem sample_code :
    (x.sample f k w).ucode.CodeAt (0 + 2) (searchCode t f) ∧
      (x.sample f k w).ucode.CodeAt (0 + (4 + f.ucodeLen t)) (rOperand k) ∧
      (x.sample f k w).ucode.CodeAt (0 + (8 + f.ucodeLen t)) (dOperand 0) ∧
      (x.sample f k w).ucode.CodeAt (0 + (12 + f.ucodeLen t)) (dOperand 1) := by
  have hlength : (searchCode t f).length = 2 + f.ucodeLen t := by
    cases f with
    | literal => exact length_code t 0 .literal
    | element => rfl
  obtain ⟨hcode, hposition⟩ := Ucode.codeAt_append.mp (stringInput_code
    (fun j => s.getD (j - 2 * k.toNat) 0) (searchCode t f ++ rOperand k ++ dOperand 0 ++ dOperand 1)
    ([w, x.position] ++ words (t.getD · 0) 17))
  obtain ⟨hcode, hdest⟩ := Ucode.codeAt_append.mp hcode
  obtain ⟨hsearch, hsource⟩ := Ucode.codeAt_append.mp hcode
  simp only [List.length_append, hlength] at hposition hdest hsource
  have hplace : 0 + (4 + f.ucodeLen t) = 2 + (2 + f.ucodeLen t) := by omega
  have hplace' : 0 + (8 + f.ucodeLen t) = 2 + (2 + f.ucodeLen t + 4) := by omega
  have hplace'' : 0 + (12 + f.ucodeLen t) = 2 + (2 + f.ucodeLen t + 4 + 4) := by omega
  rw [hplace, hplace', hplace'']
  exact ⟨hsearch, hsource, hdest, hposition⟩

theorem sample_terms (ht : t.length ≤ 32) (ht' : 0 ∉ t) (hs : 0 ∉ s)
    (hfits : 2 * k.toNat + s.length < 65536) : x.Terms f (x.sample f k w) := by
  obtain ⟨hsearch, hsource, -, hposition⟩ := @sample_code t s x f k w
  refine ⟨getPowerFlow_one, ?_, elementsAt_of_r (r_block hsource) hs hfits fun j _ => ?_,
    (d_block hposition).get (show 0 < 7999 by decide)⟩
  · cases f with
    | literal => exact code_literalAt (k := 0) hsearch (by omega)
    | element =>
      refine elementsAt_of_block (d_block hsearch) (show t.length / 2 < 7998 by omega) ?_
      have hwords (j : Nat) : WordBlock.read j (x.sample .element k w).store
          (.elems (.elem .D) 8000 2) = (words (t.getD · 0) 17).getD j 0 := by
        change ([w, x.position] ++ words (t.getD · 0) 17).getD (2 + j) 0 = _
        rw [Nat.add_comm]
        rfl
      have hspells : Spells (t.getD · 0) t := ⟨ht', fun _ _ => rfl⟩
      refine ((spells_words_iff (n := 17) (by omega)).mpr hspells).congr fun j _ => ?_
      exact image_congr (hwords _)
  · rw [Nat.add_sub_cancel_left]

variable (k) in
theorem not_right_of_sample (counter : BitVec 16) (ht : t.length ≤ 32) (ht' : 0 ∉ t) (hs : 0 ∉ s)
    (hfits : 2 * k.toNat + s.length < 65536)
    (hfails : ∀ w, Fails (x.sample f k w)
      (runCiStrinstrIns (x.sample f k w) (fun _ => 0) (fun _ => 0) counter)) :
    ¬ x.Right f := by
  obtain ⟨r, hr⟩ := exists_firstFrom t s x.start
  refine not_right_of_fails (b := .elems (.elem .D) 8000 0) (n := 8000)
    (sample_terms ht ht' hs hfits) hr (by decide) (d_block sample_code.2.2.1) (fun _ => rfl) ?_
    (hfails (BitVec.ofNat 16 (positionOf r) + 1))
  intro heq
  exact absurd (BitVec.add_right_eq_self.mp heq) (by decide)

/-- With the search string in elements, the number is taken from the middle of an operand. -/
theorem element_wrong (ht : t.length ≤ 32) (ht' : 0 ∉ t) (hs : 0 ∉ s) (hlen : s.length ≤ 65535) :
    ¬ x.Right .element := by
  have hfits : 2 * UInt8.toNat 0 + s.length < 65536 := by
    change 0 + s.length < 65536
    omega
  refine not_right_of_sample 0 0 ht ht' hs hfits fun w => ?_
  have hterms : x.Terms .element (x.sample .element 0 w) := sample_terms ht ht' hs hfits
  have htype : (x.sample .element 0 w).ucode.getPU8 (0 + 12 + 1) = (0 : UInt8).toNat :=
    sample_code.2.2.1.getPU8 (i := 3) (by decide : 3 < 4)
  have herror : (x.sample .element 0 w).word 12 0 (x.sample .element 0 w).store =
      .error .elementType := word_elementType htype rfl
  refine .inl ⟨.elementType, ?_⟩
  rw [strinstr_run hterms ht ht, searchBehind, herror, checked_error_bind,
    runString_error hterms.power]

/-- With 65535 in the counter, the length of a source is not found where the last element is not the
one of its zero. -/
theorem literal_wrong (ht : t.length ≤ 32) (ht' : 0 ∉ t) (hs : 0 ∉ s) (hlen : s.length ≤ 65535)
    (hne : s.length ≠ 65534) : ¬ x.Right .literal := by
  rcases Nat.lt_or_gt_of_ne hne with hshort | hlong
  · have hfits : 2 * UInt8.toNat 1 + s.length < 65536 := by
      change 2 + s.length < 65536
      omega
    refine not_right_of_sample 1 65535 ht ht' hs hfits fun w => ?_
    refine strinstr_fails (sample_terms ht ht' hs hfits) ht (.inr ⟨.overElementRang, ?_⟩)
    have hbeyond : (x.sample .literal 1 w).word (4 + StringForm.literal.ucodeLen t) (half 65535)
        (x.sample .literal 1 w).store = .error .overElementRang :=
      r_word_beyond sample_code.2.1 (by decide) (by decide)
    refine scan_of_returns (WhileLoop.returns_of_exit ?_)
    rw [lengthLoop, hbeyond]
  · have hall : s.length = 65535 := by omega
    have hfits : 2 * UInt8.toNat 0 + s.length < 65536 := by
      change 0 + s.length < 65536
      omega
    refine not_right_of_sample 0 65535 ht ht' hs hfits fun w => ?_
    have hterms : x.Terms .literal (x.sample .literal 0 w) := sample_terms ht ht' hs hfits
    obtain ⟨v, hv, hspells⟩ := hterms.source.words
    have hword : (x.sample .literal 0 w).word (4 + StringForm.literal.ucodeLen t) (half 65535)
        (x.sample .literal 0 w).store = .ok (v 32767) := hv 32767 (by omega)
    have hlow : low (v 32767) ≠ 0 := by
      exact hspells.ne_zero (by omega)
    have hhigh : high (v 32767) = 0 := by
      rw [← image_odd, ← hspells.zero, hall]
    refine strinstr_fails hterms ht (.inl ?_)
    refine scan_of_returns (WhileLoop.returns_of_exit ?_)
    rw [lengthLoop, hword]
    simp only [if_neg hlow, if_pos hhigh]
    rfl

end StringSearch

/-- `A` in `AB`, from the first character on. -/
def aInAb : StringSearch [0x41] [0x41, 0x42] where
  position := 1#16
  pos := by decide
  le_length := by decide

end Kalyke
