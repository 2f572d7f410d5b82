-- SUMMARY: `STRADD`, `STRLEN` and `STRMOV`: when strings are joined, measured and moved right.
import Kalyke.Exec.Strings

/-!
# Joining, measuring and moving strings

`STRADD` puts two strings behind one another. If their lengths are even together, it puts the zeros
at half of the length. `STRLEN` looks for a zero byte in all words that its counter can give, and
goes on forever if there is none. `STRMOV` moves all strings as they are.
-/

namespace Kalyke

open List Nat BitVec PackedStrings

/-! ## The instructions -/

/-- Half of a `short` that has been rounded up, as a count of words. -/
def halfUp (n : BitVec 16) : Nat := wordCount ((n.toInt + 1).tdiv 2)

section

variable (i : BodyInput)

/-- The length of a string operand of `STRADD`, and its bytes in the code behind the mark. -/
def straddLength (q : Nat) : StrM (BitVec 16 × Nat) :=
  if IsLiteral i q then
    return (BitVec.ofNat 16 (i.ucode.getPU8 (i.pc + q)) - 1, i.ucode.getPU8 (i.pc + q))
  else return (← scan i q halfShort 0, 2)

def runCiStraddIns (junk : Image) : Option BodyResult :=
  runString i do
    let (n, u) ← straddLength i 2
    refuseIf (32 < n.toInt)
    let (n', u') ← straddLength i (4 + u)
    refuseIf (32 < n'.toInt)
    let b ← inMemory (Buffer.alloc junk (n.toInt + n'.toInt + 2))
    let b ← copyString i 2 n.toInt.toNat (halfUp n) b 0 i.store
    let b ← copyString i (4 + u) n'.toInt.toNat (halfUp n') b n.toInt i.store
    saveEnded i (6 + u + u') b (n.toInt + n'.toInt)

def runCiStrlenIns : Option BodyResult :=
  runString i do
    let n ← scan i 2 half 0
    refuseIf (32767 ≤ n.toNat)
    return i.storedWords 6 [n] i.store

/-- The length of the operand of `STRMOV` with its zero, and its bytes in the code. -/
def strmovLength : StrM (BitVec 16 × Nat) :=
  if IsLiteral i 2 then
    return (BitVec.ofNat 16 (i.ucode.getPU8 (i.pc + 2)), i.ucode.getPU8 (i.pc + 2))
  else return ((← scan i 2 halfShort 0) + 1, 2)

def runCiStrmovIns (junk : Image) : Option BodyResult :=
  runString i do
    let (n, u) ← strmovLength i
    refuseIf (32 < n.toInt)
    let b ← inMemory (Buffer.alloc junk (n.toInt + 2))
    let b ← copyString i 2 n.toInt.toNat (wordCount (n.toInt.tdiv 2)) b 0 i.store
    let b ← if IsLiteral i 2 then pure b else inMemory (b.put (n.toInt - 1) [0])
    saveBuffer i (4 + u) b (wordCount ((n.toInt + 1).tdiv 2))

end

/-! ## Laws -/

/-- Two operands of `STRADD` in their forms. -/
structure AddTerms (f g : StringForm) (s t : List (BitVec 8)) (i : BodyInput) : Prop where
  power : getPowerFlow i.inPF = true
  left : f.At i 2 s
  right : g.At i (4 + f.ucodeLen s) t

/-- `STRADD` stores the two strings behind one another, whatever is in its buffer at first. -/
def AddsStrings (f g : StringForm) (s t : List (BitVec 8)) : Prop :=
  ∀ junk i, AddTerms f g s t i →
    StoresString i (6 + f.ucodeLen s + g.ucodeLen t) (s ++ t) (runCiStraddIns i junk)

/-! ## `STRADD` -/

section

variable {f g : StringForm} {s t : List (BitVec 8)} {i : BodyInput} {q : Nat} {junk : Image}
  {n : Nat}

theorem halfUp_length (hn : n ≤ 64) : halfUp (BitVec.ofNat 16 n) = (n + 1) / 2 := by
  rw [halfUp, toInt_ofNat_count (by omega)]
  exact wordCount_half (show n + 1 < 131072 by omega)

/-- The length of an operand. -/
theorem straddLength_eq (h : f.At i q s) (hs : s.length ≤ 32) :
    straddLength i q = pure (BitVec.ofNat 16 s.length, f.ucodeLen s) := by
  cases f with
  | literal =>
    have hcount : BitVec.ofNat 16 (s.length + 1) - 1 = BitVec.ofNat 16 s.length := by
      rw [ofNat_add]
      exact BitVec.add_sub_cancel _ _
    rw [straddLength, if_pos h.mark, h.length, hcount]
    rfl
  | element =>
    rw [straddLength, if_neg h.not_literal, h.scan_eq fun k hk => halfShort_word (by omega)]
    rfl

variable (junk) in
theorem stradd_run (h : AddTerms f g s t i) (hs : s.length ≤ 32) (ht : t.length ≤ 32) :
    ∃ m : Image, (∀ j < (s ++ t).length, m j = (s ++ t).getD j 0) ∧
      runCiStraddIns i junk = some (i.storedWords (6 + f.ucodeLen s + g.ucodeLen t)
        (words (ended m (s ++ t).length) ((s ++ t).length / 2 + 1)) i.store) := by
  have hlength : (s ++ t).length = s.length + t.length := length_append
  obtain ⟨left, hleft, hlen, -, hchars⟩ := h.left.copy_eq ((s.length + 1) / 2) s.length 0
    ⟨s.length + t.length + 2, junk⟩ (by omega) (by omega) (by omega)
    (show _ ≤ s.length + t.length + 2 by omega) (show _ ≤ s.length + t.length + 2 by omega)
  obtain ⟨right, hright, hlen', -, hchars'⟩ := h.right.copy_eq ((t.length + 1) / 2) t.length
    s.length ⟨s.length + t.length + 2, Buffer.onto junk 0 left⟩
    (by omega) (by omega) (by omega) (show _ ≤ s.length + t.length + 2 by omega)
    (show _ ≤ s.length + t.length + 2 by omega)
  refine ⟨Buffer.onto (Buffer.onto junk 0 left) s.length right, fun j hj => ?_, ?_⟩
  · rcases Nat.lt_or_ge j s.length with hlt | hge
    · rw [Buffer.onto_of_lt hlt, getD_append _ _ _ _ hlt, ← hchars j (by omega) (by omega)]
      have hadd := Buffer.onto_add (m := junk) (p := 0) (show j < left.length by omega)
      rwa [Nat.zero_add] at hadd
    · rw [getD_append_right _ _ _ _ hge, ← hchars' _ (by omega) (by omega)]
      have hadd := Buffer.onto_add (m := Buffer.onto junk 0 left) (p := s.length)
        (show j - s.length < right.length by omega)
      rwa [Nat.add_sub_cancel' hge] at hadd
  · have halloc : Buffer.alloc junk ((s.length : Int) + t.length + 2) =
        some ⟨s.length + t.length + 2, junk⟩ := Buffer.alloc_eq (succ_pos _)
    have hended := saveEnded_eq (i := i) (q := 6 + f.ucodeLen s + g.ucodeLen t)
      (b := ⟨s.length + t.length + 2, Buffer.onto (Buffer.onto junk 0 left) s.length right⟩)
      (k := s.length + t.length) (by omega) rfl
    have hle : ¬ (32 : Int) < s.length := by omega
    have hle' : ¬ (32 : Int) < t.length := by omega
    rw [runCiStraddIns, straddLength_eq h.left hs]
    simp only [pure_bind, toInt_ofNat_count (show s.length < 32768 by omega)]
    rw [refuseIf_bind hle, straddLength_eq h.right ht]
    simp only [pure_bind, toInt_ofNat_count (show t.length < 32768 by omega)]
    rw [refuseIf_bind hle', halloc, inMemory_some_bind, halfUp_length (by omega),
      halfUp_length (by omega), Int.toNat_natCast, Int.toNat_natCast]
    rw [cast_zero] at hleft
    rw [Int.natCast_add] at hended
    rw [hleft, pure_bind, hright, pure_bind, hended, runString_pure h.power, hlength]

/-- The strings are joined just if the zeros are where they should be. -/
theorem stradd_when (h : AddTerms f g s t i) (hs : s.length ≤ 32) (ht : t.length ≤ 32)
    (hzero : 0 ∉ s ++ t) :
    RightWhen i (6 + f.ucodeLen s + g.ucodeLen t) 64
      ((s ++ t).length % 2 = 1 ∨ (s ++ t).length = 0)
      (StoresString i (6 + f.ucodeLen s + g.ucodeLen t) (s ++ t) (runCiStraddIns i junk)) := by
  have hlength : (s ++ t).length = s.length + t.length := length_append
  obtain ⟨m, hm, hrun⟩ := stradd_run junk h hs ht
  exact (storesString_when hrun (by omega)).congr (spells_ended_iff hzero hm)

def addInput (f g : StringForm) (s t : List (BitVec 8)) : BodyInput :=
  stringInput (f.code s 0 ++ g.code t 100 ++ rOperand 0) (twoStrings 200 s t) []

theorem addInput_code : (addInput f g s t).ucode.CodeAt 2 (f.code s 0) ∧
    (addInput f g s t).ucode.CodeAt (4 + f.ucodeLen s) (g.code t 100) ∧
    (addInput f g s t).ucode.CodeAt (6 + f.ucodeLen s + g.ucodeLen t) (rOperand 0) := by
  obtain ⟨hcode, hdest⟩ := Ucode.codeAt_append.mp (stringInput_code (twoStrings 200 s t)
    (f.code s 0 ++ g.code t 100 ++ rOperand 0) [])
  obtain ⟨hleft, hright⟩ := Ucode.codeAt_append.mp hcode
  rw [length_code] at hright
  rw [length_append, length_code, length_code] at hdest
  have hplace : 2 + (2 + f.ucodeLen s) = 4 + f.ucodeLen s := by omega
  have hplace' : 2 + (2 + f.ucodeLen s + (2 + g.ucodeLen t)) =
      6 + f.ucodeLen s + g.ucodeLen t := by omega
  rw [hplace] at hright
  rw [hplace'] at hdest
  exact ⟨hleft, hright, hdest⟩

theorem addInput_terms (hs : s.length ≤ 32) (ht : t.length ≤ 32) (hzero : 0 ∉ s) (hzero' : 0 ∉ t) :
    AddTerms f g s t (addInput f g s t) := by
  obtain ⟨hleft, hright, -⟩ := @addInput_code f g s t
  refine ⟨getPowerFlow_one, stringInput_at hleft hzero (by omega) fun j hj => ?_,
    stringInput_at hright hzero' (by omega) fun j hj => ?_⟩
  · have hplace : 2 * UInt8.toNat 0 + j = j := Nat.zero_add j
    rw [hplace]
    exact if_pos (by omega)
  · refine (if_neg (show ¬ 200 + j < 200 by omega)).trans ?_
    have hplace : 2 * UInt8.toNat 100 + j - 200 = j := Nat.add_sub_cancel_left 200 j
    rw [hplace]

/-- Joining is right just if the length is odd or nothing. -/
theorem addsStrings_iff (hs : s.length ≤ 32) (ht : t.length ≤ 32) (hzero : 0 ∉ s) (hzero' : 0 ∉ t) :
    AddsStrings f g s t ↔ (s.length + t.length) % 2 = 1 ∨ s.length + t.length = 0 := by
  have hboth : 0 ∉ s ++ t := fun hmem => (mem_append.mp hmem).elim hzero hzero'
  rw [← length_append]
  constructor
  · intro h
    have hterms := @addInput_terms f g s t hs ht hzero hzero'
    exact (stradd_when hterms hs ht hboth).needed _
      ((stringInput_r addInput_code.2.2).mono (by decide)) (fun _ => rfl)
      (h (fun _ => 0) _ hterms)
  · exact fun hlength junk i hi => (stradd_when hi hs ht hboth).enough hlength

end

/-- `STRADD` joins two strings right just if their length is odd, or nothing. -/
theorem stradd_right_iff (f g : StringForm) (s t : PlcString 32) :
    AddsStrings f g s.chars t.chars ↔
      (s.chars.length + t.chars.length) % 2 = 1 ∨ s.chars.length + t.chars.length = 0 :=
  addsStrings_iff s.length_le t.length_le s.nonzero t.nonzero

/-- The strings `A` and `B` to `R0`. -/
def aAndB : BodyInput := addInput .literal .literal [0x41] [0x42]

/-- Of `AB` only the first character is left. -/
theorem stradd_ab_wrong : AddTerms .literal .literal [0x41] [0x42] aAndB ∧
    ¬ StoresString aAndB 10 [0x41, 0x42] (runCiStraddIns aAndB fun _ => 0) := by
  have hterms : AddTerms .literal .literal [0x41] [0x42] aAndB :=
    addInput_terms (by decide) (by decide) (by decide) (by decide)
  refine ⟨hterms, fun h => ?_⟩
  have hlength := (stradd_when hterms (by decide) (by decide) (by decide)).needed _
    ((stringInput_r addInput_code.2.2).mono (by decide)) (fun _ => rfl) h
  exact absurd hlength (by decide)

/-! ## `STRLEN` and `STRMOV` -/

/-- What `STRLEN` does with what its loop leaves with. -/
def lengthOutcome (i : BodyInput) : Except PlcErr (BitVec 16) → BodyResult
  | .error e => (.error e, i.inPF, i.store)
  | .ok n => if 32767 ≤ n.toNat then i.refused else i.storedWords 6 [n] i.store

/-- The loop of `STRLEN` ends, with the number of the characters before the first zero byte or with
the error of a word before which there is none. -/
def MeasuresLength (i : BodyInput) : Prop :=
  ∃ r, WhileLoop.Returns (lengthLoop (fun k => i.word 2 k i.store) half) 0 r ∧
    Measured (fun k => i.word 2 k i.store) r ∧
    (getPowerFlow i.inPF = true → runCiStrlenIns i = some (lengthOutcome i r))

def StoresLength (i : BodyInput) (n : Nat) : Prop :=
  runCiStrlenIns i = some (i.storedWords 6 [BitVec.ofNat 16 n] i.store)

/-- An operand of `STRMOV` in its form. -/
structure StrmovTerms (f : StringForm) (s : List (BitVec 8)) (i : BodyInput) : Prop where
  power : getPowerFlow i.inPF = true
  source : f.At i 2 s

def MovesString (f : StringForm) (s : List (BitVec 8)) : Prop :=
  ∀ junk i, StrmovTerms f s i →
    StoresString i (4 + f.ucodeLen s) s (runCiStrmovIns i junk) ∧
    (f = .element → StoresLength i s.length) ∧
    ∀ b, (i.operand (4 + f.ucodeLen s)).HasBlock b (s.length / 2 + 1) i.store →
      (∀ x, b.kept x = x) → ∀ j, getPowerFlow j.inPF = true →
      (j.operand 2).Same (i.operand (4 + f.ucodeLen s)) →
      (∃ r, runCiStrmovIns i junk = some r ∧ j.store = r.2.2) →
      ElementsAt j 2 s j.store ∧ StoresLength j s.length

section

variable {f : StringForm} {s : List (BitVec 8)} {i j : BodyInput} {junk : Image} {b : WordBlock}

theorem strlen_eq (hpower : getPowerFlow i.inPF = true) (h : ElementsAt i 2 s i.store)
    (hs : s.length < 32767) : StoresLength i s.length := by
  have hcount : ¬ 32767 ≤ (BitVec.ofNat 16 s.length).toNat := by
    rw [toNat_ofNat]
    omega
  rw [StoresLength, runCiStrlenIns, h.scan_eq fun k hk => half_word (by omega), pure_bind,
    refuseIf_bind hcount, runString_pure hpower]

theorem strmovLength_eq (h : f.At i 2 s) (hs : s.length ≤ 31) :
    strmovLength i = pure (BitVec.ofNat 16 (s.length + 1), f.ucodeLen s) := by
  cases f with
  | literal =>
    rw [strmovLength, if_pos h.mark, h.length]
    rfl
  | element =>
    rw [strmovLength, if_neg h.not_literal, h.scan_eq fun k hk => halfShort_word (by omega),
      ofNat_add]
    rfl

variable (junk) in
theorem strmov_run (h : StrmovTerms f s i) (hs : s.length ≤ 31) (hzero : 0 ∉ s) :
    ∃ m : Image, Spells m s ∧ runCiStrmovIns i junk =
      some (i.storedWords (4 + f.ucodeLen s) (words m (s.length / 2 + 1)) i.store) := by
  obtain ⟨bytes, hcopy, hlen, hliteral, hchars⟩ := h.source.copy_eq ((s.length + 1) / 2)
    (s.length + 1) 0 ⟨s.length + 3, junk⟩ (by omega) (by omega) (by omega)
    (show _ ≤ s.length + 3 by omega) (show _ ≤ s.length + 3 by omega)
  have hover (j : Nat) (hj : j < bytes.length) (hle : j ≤ s.length) :
      Buffer.onto junk 0 bytes j = s.getD j 0 := by
    rw [← hchars j hj hle]
    have hadd := Buffer.onto_add (m := junk) (p := 0) hj
    rwa [Nat.zero_add] at hadd
  have htoInt : (BitVec.ofNat 16 (s.length + 1)).toInt = ((s.length + 1 : Nat) : Int) :=
    toInt_ofNat_count (by omega)
  have hle : ¬ (32 : Int) < ((s.length + 1 : Nat) : Int) := by omega
  have halloc : Buffer.alloc junk (((s.length + 1 : Nat) : Int) + 2) =
      some ⟨s.length + 3, junk⟩ := Buffer.alloc_eq (succ_pos _)
  have hcount : wordCount (((s.length + 1 : Nat) : Int).tdiv 2) = (s.length + 1) / 2 :=
    wordCount_half (by omega)
  have hcount' : wordCount ((((s.length + 1 : Nat) : Int) + 1).tdiv 2) = s.length / 2 + 1 :=
    (wordCount_half (show s.length + 2 < 131072 by omega)).trans (by omega)
  rw [cast_zero] at hcopy
  have hrun : runCiStrmovIns i junk = runString i
      (if IsLiteral i 2 then
        saveBuffer i (4 + f.ucodeLen s) ⟨s.length + 3, Buffer.onto junk 0 bytes⟩ (s.length / 2 + 1)
      else
        inMemory (Buffer.put ⟨s.length + 3, Buffer.onto junk 0 bytes⟩ (s.length : Int) [0]) >>=
          fun b => saveBuffer i (4 + f.ucodeLen s) b (s.length / 2 + 1)) := by
    rw [runCiStrmovIns, strmovLength_eq h.source hs]
    simp only [pure_bind, htoInt]
    rw [refuseIf_bind hle, halloc, inMemory_some_bind, Int.toNat_natCast, hcount, hcopy, pure_bind,
      hcount', show ((s.length + 1 : Nat) : Int) - 1 = (s.length : Int) by omega]
  rw [hrun]
  cases f with
  | literal =>
    have hsource : LiteralAt i 2 s := h.source
    refine ⟨Buffer.onto junk 0 bytes, ⟨hzero, fun j hj => ?_⟩, ?_⟩
    · have hmore := hliteral rfl
      exact hover j (by omega) hj
    · rw [if_pos hsource.mark, saveBuffer_eq (by omega), runString_pure h.power]
  | element =>
    have hsource : ElementsAt i 2 s i.store := h.source
    refine ⟨Buffer.onto (Buffer.onto junk 0 bytes) s.length [0], ⟨hzero, fun j hj => ?_⟩, ?_⟩
    · rcases Nat.eq_or_lt_of_le hj with rfl | hlt
      · rw [getD_eq_default _ _ (Nat.le_refl _)]
        exact Buffer.onto_add (j := 0) Nat.one_pos
      · rw [Buffer.onto_of_lt hlt]
        exact hover j (by omega) hj
    · have hput : Buffer.put ⟨s.length + 3, Buffer.onto junk 0 bytes⟩ (s.length : Int) [0] =
          some ⟨s.length + 3, Buffer.onto (Buffer.onto junk 0 bytes) s.length [0]⟩ :=
        Buffer.put_eq (show s.length + 1 ≤ s.length + 3 by omega)
      rw [if_neg hsource.not_literal, hput, inMemory_some_bind, saveBuffer_eq (by omega),
        runString_pure h.power]

theorem strlen_of_returns {r : Except PlcErr (BitVec 16)} (hpower : getPowerFlow i.inPF = true)
    (h : WhileLoop.Returns (lengthLoop (fun k => i.word 2 k i.store) half) 0 r) :
    runCiStrlenIns i = some (lengthOutcome i r) := by
  have hscan : scan i 2 half 0 = checked r := congrArg ExceptT.mk (returns_iff_run.mp h)
  rw [runCiStrlenIns, hscan]
  rcases r with e | n
  · rw [checked_error_bind, runString_error hpower]
    rfl
  · rw [checked_ok_bind, lengthOutcome]
    split
    · rename_i hlong
      rw [refuseIf_bind_of hlong, runString_error hpower]
      rfl
    · rename_i hshort
      rw [refuseIf_bind hshort, runString_pure hpower]

theorem measuresLength_iff :
    MeasuresLength i ↔ ∃ k < 32768, Stops (fun k => i.word 2 k i.store) k := by
  rw [← measures_iff]
  constructor
  · rintro ⟨r, hends, hright, -⟩
    exact ⟨r, hends, hright⟩
  · rintro ⟨r, hends, hright⟩
    exact ⟨r, hends, hright, fun hpower => strlen_of_returns hpower hends⟩

theorem movesString (hs : s.length ≤ 31) (hzero : 0 ∉ s) : MovesString f s := by
  intro junk i h
  obtain ⟨m, hm, hrun⟩ := strmov_run junk h hs hzero
  refine ⟨(storesString_when hrun (Nat.le_refl _)).enough hm, fun hf => ?_,
    fun b hblock hkept j hpower hsame hj => ?_⟩
  · subst hf
    exact strlen_eq h.power h.source (by omega)
  · obtain ⟨r, hr, hstore⟩ := hj
    obtain rfl : r = _ := Option.some.inj (hr.symm.trans hrun)
    have hlength : (words m (s.length / 2 + 1)).length = s.length / 2 + 1 :=
      PackedStrings.length_words
    have hpos : 0 < (words m (s.length / 2 + 1)).length := by omega
    obtain ⟨-, hthere, hview⟩ := storedWords_view hblock hpos hlength.le
    rw [← hstore] at hthere hview
    have helements : ElementsAt j 2 s j.store := by
      refine elementsAt_of_block (hsame.hasBlock hthere) (lt_succ_self _) ?_
      refine ((spells_words_iff (n := s.length / 2 + 1) (by omega)).mpr hm).congr fun k hk => ?_
      refine image_congr ?_
      rw [hview (k / 2) (by omega), hkept]
    exact ⟨helements, strlen_eq hpower helements (by omega)⟩

end

/-- `STRLEN` measures a string just if there is a word, among those that its counter can give, that
cannot be got or has a zero byte, and goes on forever if there is none. `STRMOV` moves all strings
as they are. -/
theorem strlen_strmov_right_iff (i : BodyInput) :
    (MeasuresLength i ∧ ∀ f (s : PlcString 31), MovesString f s.chars) ↔
      ∃ k < 32768, Stops (fun k => i.word 2 k i.store) k := by
  rw [and_iff_left fun f s => movesString s.length_le s.nonzero]
  exact measuresLength_iff

/-- All elements `R` without a zero byte. -/
def onesInR : BodyInput := stringInput (rOperand 0 ++ rOperand 0) (fun _ => 1) []

/-- `STRLEN` goes on forever where no byte of `R` is zero. -/
theorem strlen_ones_wrong : ¬ MeasuresLength onesInR := by
  intro h
  obtain ⟨k, hk, hstops⟩ := measuresLength_iff.mp h
  have hcode : onesInR.ucode.CodeAt (onesInR.pc + 2) (rOperand 0) :=
    (Ucode.codeAt_append.mp (stringInput_code _ _ _)).1
  have hword : onesInR.word 2 k onesInR.store = .ok (join 1 1) :=
    (r_block hcode).get (show k < 32768 by omega)
  exact (hstops _ hword).elim (by decide) (by decide)

end Kalyke
