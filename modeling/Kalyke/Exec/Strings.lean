-- SUMMARY: String operands: their forms, their lengths, and copies of them in temporary buffers.
import Kalyke.Exec.WordGroups
import Kalyke.Lib.PackedStrings

/-!
# Strings

A string stands in the code as a literal, with its length before it, or in word elements, up to a
zero byte. The instructions of `plc_strins.c` look for the zero, put what they want together in a
buffer from the heap, and save the words of the buffer. What is in a buffer at first is not known. A
length may have no end, and a buffer may be too small: then there is no result.
-/

namespace Kalyke

open List Nat BitVec PackedStrings

variable {α β : Type}

/-! ## Bodies -/

/-- What a body computes that may go on forever or leave its memory. -/
abbrev StrM := ExceptT PlcErr Option

/-- A value that may be refused. -/
def checked (r : Except PlcErr α) : StrM α := ExceptT.mk (some r)

/-- A value that is there if a body stays in its memory. -/
def inMemory (r : Option α) : StrM α := ExceptT.mk (r.map .ok)

@[simp] theorem checked_ok_bind {x : α} {f : α → StrM β} : checked (.ok x) >>= f = f x := rfl

@[simp] theorem checked_error_bind {e : PlcErr} {f : α → StrM β} :
    checked (.error e) >>= f = checked (.error e) := rfl

@[simp] theorem inMemory_some_bind {x : α} {f : α → StrM β} :
    inMemory (some x) >>= f = f x := rfl

@[simp] theorem inMemory_none_bind {f : α → StrM β} :
    (inMemory none >>= f) = inMemory none := rfl

/-- Operands that an instruction refuses. -/
def refuseIf (c : Prop) [Decidable c] : StrM Unit :=
  if c then checked (.error .operands) else pure ()

theorem refuseIf_bind {c : Prop} [Decidable c] {f : Unit → StrM β} (h : ¬ c) :
    refuseIf c >>= f = f () := by
  rw [refuseIf, if_neg h]
  rfl

theorem refuseIf_bind_of {c : Prop} [Decidable c] {f : Unit → StrM β} (h : c) :
    refuseIf c >>= f = checked (.error .operands) := by
  rw [refuseIf, if_pos h]
  rfl

def runString (i : BodyInput) (m : StrM BodyResult) : Option BodyResult :=
  if getPowerFlow i.inPF then
    m.run.map fun
      | .error e => (.error e, i.inPF, i.store)
      | .ok r => r
  else some (.ok (), i.inPF, i.store)

section

variable {i : BodyInput} {m : StrM BodyResult} {r : BodyResult} {e : PlcErr}

theorem runString_pure (h : getPowerFlow i.inPF = true) : runString i (pure r) = some r := by
  rw [runString, if_pos h]
  rfl

theorem runString_error (h : getPowerFlow i.inPF = true) :
    runString i (checked (.error e)) = some (.error e, i.inPF, i.store) := by
  rw [runString, if_pos h]
  rfl

theorem runString_none (h : getPowerFlow i.inPF = true) : runString i (inMemory none) = none := by
  rw [runString, if_pos h]
  rfl

end

/-! ## Lengths and copies -/

/-- Half of a `short` counter, as an offset. -/
def halfShort (n : BitVec 16) : Nat := (BitVec.ofInt 16 (n.toInt.tdiv 2)).toNat

def wordCount (n : Int) : Nat := (BitVec.ofInt 16 n).toNat

section

variable (i : BodyInput) (q : Nat)

/-- The loop for the length of a string in elements, with the offsets for a counter and its first
value. After 32768 passes it never ends. -/
def scan (off : BitVec 16 → Nat) (n : BitVec 16) : StrM (BitVec 16) :=
  ExceptT.mk (WhileLoop.run (lengthLoop (fun k => i.word q k i.store) off) 32768 n)

/-- The operand is a literal. -/
def IsLiteral : Prop := i.ucode.getPU8 (i.pc + q + 1) = addrStr

instance : Decidable (IsLiteral i q) := inferInstanceAs (Decidable (_ = _))

def literalBytes (n : Nat) : List (BitVec 8) :=
  (range n).map fun k => BitVec.ofNat 8 (i.ucode.getPU8 (i.pc + q + 2 + k))

def getInto (b : Buffer) (p : Int) (off cnt : Nat) (s : Store) : StrM Buffer := do
  let b' ← inMemory (b.putWords p (getWord i.ucode (i.pc + q) s i.level off cnt).2)
  checked (getWord i.ucode (i.pc + q) s i.level off cnt).1
  return b'

/-- A string operand of a length into a buffer, with a count of words for one in elements. -/
def copyString (n cnt : Nat) (b : Buffer) (p : Int) (s : Store) : StrM Buffer :=
  if IsLiteral i q then inMemory (b.put p (literalBytes i q n)) else getInto i q b p 0 cnt s

def saveBuffer (b : Buffer) (n : Nat) : StrM BodyResult := do
  return i.storedWords q (← inMemory (b.words n)) i.store

/-- A string of a length gets its zeros and is saved. If the length is even, they are a word that is
put at half of it. -/
def saveEnded (b : Buffer) (n : Int) : StrM BodyResult :=
  if n % 2 = 0 then do
    let b ← inMemory (b.putWords (n / 2) [0])
    saveBuffer i q b (wordCount ((n + 2) / 2))
  else do
    let b ← inMemory (b.put n [0])
    saveBuffer i q b (wordCount ((n + 1) / 2))

end

/-! ## Operands -/

/-- A string without zeros, of a length. -/
structure PlcString (max : Nat) where
  chars : List (BitVec 8)
  nonzero : 0 ∉ chars
  length_le : chars.length ≤ max

inductive StringForm where
  | literal | element
deriving DecidableEq

/-- The bytes in the code behind the two of the mark. -/
def StringForm.ucodeLen (cs : List (BitVec 8)) : StringForm → Nat
  | literal => cs.length + 1
  | element => 2

/-- The operand is a literal of a string. -/
structure LiteralAt (i : BodyInput) (q : Nat) (cs : List (BitVec 8)) : Prop where
  mark : IsLiteral i q
  length : i.ucode.getPU8 (i.pc + q) = cs.length + 1
  bytes : ∀ k ≤ cs.length, BitVec.ofNat 8 (i.ucode.getPU8 (i.pc + q + 2 + k)) = cs.getD k 0

/-- There is a string in the elements of an operand. -/
structure ElementsAt (i : BodyInput) (q : Nat) (cs : List (BitVec 8)) (s : Store) : Prop where
  element : ElementOperand i.ucode (i.pc + q)
  words : ∃ w, (∀ k ≤ cs.length / 2, i.word q k s = .ok (w k)) ∧ Spells (image w) cs

def StringForm.At (i : BodyInput) (q : Nat) (cs : List (BitVec 8)) : StringForm → Prop
  | literal => LiteralAt i q cs
  | element => ElementsAt i q cs i.store

/-- An instruction leaves what saving the words of a string leaves, up to the one with the zero. -/
def StoresString (i : BodyInput) (q : Nat) (cs : List (BitVec 8)) (r : Option BodyResult) : Prop :=
  ∃ ws : List (BitVec 16), ws.length = cs.length / 2 + 1 ∧ Spells (ofList ws) cs ∧
    r = some (i.storedWords q ws i.store)

/-- A condition is enough for a result, and needed for it if the destination is a block of so many
words that keeps them. -/
structure RightWhen (i : BodyInput) (q n : Nat) (c result : Prop) : Prop where
  enough : c → result
  needed : ∀ b, (i.operand q).HasBlock b n i.store → (∀ x, b.kept x = x) → result → c

theorem RightWhen.of_iff {i : BodyInput} {q n : Nat} {c result : Prop} (h : result ↔ c) :
    RightWhen i q n c result :=
  ⟨h.mpr, fun _ _ _ => h.mp⟩

theorem RightWhen.congr {i : BodyInput} {q n : Nat} {c c' result : Prop}
    (h : RightWhen i q n c result) (hc : c ↔ c') : RightWhen i q n c' result :=
  ⟨fun hright => h.enough (hc.mpr hright),
    fun b hblock hkept hresult => hc.mp (h.needed b hblock hkept hresult)⟩

/-! ## Reading -/

section

variable {i : BodyInput} {q off cnt n p : Nat} {cs : List (BitVec 8)} {s : Store} {b : Buffer}
  {f : StringForm} {half : BitVec 16 → Nat}

theorem isLiteral_type (h : IsLiteral i q) :
    AddrType.ofCode (i.ucode.getPU8 (i.pc + q + 1)) = none := by
  rw [show i.ucode.getPU8 (i.pc + q + 1) = 0x82 from h]
  rfl

theorem ElementsAt.not_literal (h : ElementsAt i q cs s) : ¬ IsLiteral i q := by
  intro hmark
  obtain ⟨w, hw, -⟩ := h.words
  have hword := word_ok_iff.mp ⟨_, hw 0 (Nat.zero_le _)⟩
  simp only [getWord, isLiteral_type hmark] at hword
  cases hword

/-- What the loop for a length leaves with. -/
theorem scan_of_returns {r : Except PlcErr (BitVec 16)} {x : BitVec 16}
    (h : WhileLoop.Returns (lengthLoop (fun k => i.word q k i.store) half) x r) :
    scan i q half x = checked r :=
  congrArg ExceptT.mk (returns_iff_run.mp h)

/-- The length of a string is found. -/
theorem ElementsAt.scan_eq (h : ElementsAt i q cs i.store)
    (hhalf : ∀ k ≤ cs.length / 2, half (2 * BitVec.ofNat 16 k) = k) :
    scan i q half 0 = pure (BitVec.ofNat 16 cs.length) := by
  obtain ⟨w, hw, hs⟩ := h.words
  refine scan_of_returns (returns_length hs fun k hk => ?_)
  rw [hhalf k hk]
  exact hw k hk

theorem toInt_of_nonneg {x : BitVec 16} (h : 0 ≤ x.toInt) : x.toInt = x.toNat := by
  have hlt := toNat_lt_of_nonneg h
  exact if_pos (by omega)

theorem halfShort_word (hn : n < 16384) : halfShort (2 * BitVec.ofNat 16 n) = n := by
  have htoInt : (2 * BitVec.ofNat 16 n).toInt = 2 * n := by
    change (if 2 * (2 * (n % 65536) % 65536) < 65536 then _ else _) = _
    rw [if_pos (by omega)]
    change ((2 * (n % 65536) % 65536 : Nat) : Int) = _
    omega
  rw [halfShort, htoInt, Int.mul_tdiv_cancel_left _ (by decide), toNat_ofInt]
  omega

variable (off cnt p b) in
theorem ElementsAt.getInto_eq (h : ElementsAt i q cs s) (hcnt : off + cnt ≤ cs.length / 2 + 1)
    (hfits : p + 2 * cnt ≤ b.size) :
    ∃ bytes, getInto i q b p off cnt s = pure ⟨b.size, Buffer.onto b.bytes p bytes⟩ ∧
      bytes.length = 2 * cnt ∧
      ∀ j < 2 * cnt, 2 * off + j ≤ cs.length → bytes.getD j 0 = cs.getD (2 * off + j) 0 := by
  obtain ⟨w, hw, hs⟩ := h.words
  have hwords : ∃ ws, i.words q off cnt s = .ok ws := by
    rcases Nat.eq_zero_or_pos cnt with rfl | hpos
    · exact ⟨[], words_zero h.element (hw 0 (Nat.zero_le _))⟩
    · exact (words_ok_iff hpos).mpr fun k hk => ⟨_, hw _ (by omega)⟩
  obtain ⟨ws, hws⟩ := hwords
  have hlength := length_words_of_element h.element hws
  have hget : getWord i.ucode (i.pc + q) s i.level off cnt = (.ok (), ws) := outcome_eq_ok hws
  refine ⟨Buffer.wordBytes ws, ?_, by rw [Buffer.length_wordBytes, hlength], fun j hj hle => ?_⟩
  · rw [getInto, hget, Buffer.putWords_eq (show p + 2 * ws.length ≤ b.size by omega)]
    rfl
  · have hlt : j / 2 < cnt := by omega
    have hword : ws.getD (j / 2) 0 = w (off + j / 2) := by
      rw [getD_eq_getElem?_getD,
        words_getElem hws hlt (.inr h.element) (hw (off + j / 2) (by omega))]
      rfl
    rw [Buffer.wordBytes_getD (by omega), ← hs.chars _ hle]
    have hj : (2 * off + j) / 2 = off + j / 2 := by omega
    have hparity : (2 * off + j) % 2 = j % 2 := by omega
    simp only [ofList, image, hword, hj, hparity]

theorem LiteralAt.bytes_getD (h : LiteralAt i q cs) {j : Nat} (hj : j < n) (hle : j ≤ cs.length) :
    (literalBytes i q n).getD j 0 = cs.getD j 0 := by
  rw [getD_eq_getElem _ _ (by simpa [literalBytes] using hj)]
  simp only [literalBytes, getElem_map, getElem_range]
  exact h.bytes j hle

variable (cnt n p b) in
theorem StringForm.At.copy_eq (h : f.At i q cs) (hcnt : cnt ≤ cs.length / 2 + 1)
    (hn : cs.length ≤ n) (hn' : cs.length ≤ 2 * cnt) (hfits : p + n ≤ b.size)
    (hfits' : p + 2 * cnt ≤ b.size) :
    ∃ bytes, copyString i q n cnt b p i.store = pure ⟨b.size, Buffer.onto b.bytes p bytes⟩ ∧
      cs.length ≤ bytes.length ∧ (f = .literal → n ≤ bytes.length) ∧
      ∀ j < bytes.length, j ≤ cs.length → bytes.getD j 0 = cs.getD j 0 := by
  cases f with
  | literal =>
    have h : LiteralAt i q cs := h
    have hlength : (literalBytes i q n).length = n := by simp [literalBytes]
    refine ⟨literalBytes i q n, ?_, by rwa [hlength], fun _ => hlength.ge, fun j hj hle => ?_⟩
    · rw [copyString, if_pos h.mark, Buffer.put_eq (by rwa [hlength])]
      rfl
    · exact h.bytes_getD (hlength ▸ hj) hle
  | element =>
    obtain ⟨bytes, heq, hlength, hbytes⟩ := h.getInto_eq 0 cnt p b (by omega) hfits'
    refine ⟨bytes, ?_, by omega, (fun h => by cases h), fun j hj hle => ?_⟩
    · rw [copyString, if_neg h.not_literal]
      exact heq
    · have hbyte := hbytes j (by omega) (by omega)
      rwa [Nat.zero_add] at hbyte

end

/-! ## Storing -/

section

variable {i : BodyInput} {q n : Nat} {s : Store} {b : WordBlock} {xs ys : List (BitVec 16)}
  {cs : List (BitVec 8)} {f : StringForm}

/-- Words that are stored in a block can be got back. -/
theorem storedWords_view (h : (i.operand q).HasBlock b n s) (hpos : 0 < xs.length)
    (hle : xs.length ≤ n) :
    (i.storedWords q xs s).1 = .ok () ∧ (i.operand q).HasBlock b n (i.storedWords q xs s).2.2 ∧
      ∀ k < xs.length, b.read k (i.storedWords q xs s).2.2 = b.kept (xs.getD k 0) := by
  obtain ⟨x, xs, rfl⟩ := exists_cons_of_length_pos hpos
  obtain ⟨hpass, hchanges, hview⟩ := saveWords_view (savesBlock_words h (WordBlock.Alike.refl b))
    (show 0 + (x :: xs).length ≤ n by omega) changesOnly_refl
  refine ⟨hpass, h.of_has hchanges, fun k hk => (hview k).trans ?_⟩
  rw [if_pos (by omega), Nat.sub_zero]

/-- What is stored in a block that keeps its words can be told. -/
theorem storedWords_inj (h : (i.operand q).HasBlock b n s) (hkept : ∀ x, b.kept x = x)
    (hle : xs.length ≤ n) (hlen : ys.length = xs.length)
    (hxy : i.storedWords q xs s = i.storedWords q ys s) : xs = ys := by
  refine ext_getElem hlen.symm fun k hk hk' => ?_
  have hx := (storedWords_view h (zero_lt_of_lt hk) hle).2.2 k hk
  have hy := (storedWords_view h (zero_lt_of_lt hk') (hlen ▸ hle)).2.2 k hk'
  rw [← hxy, hx, hkept, hkept, getD_eq_getElem _ _ hk, getD_eq_getElem _ _ hk'] at hy
  exact hy

theorem ok_of_storesString {r : BodyResult} (hblock : (i.operand q).HasBlock b n i.store)
    (hfits : cs.length / 2 + 1 ≤ n) (hr : StoresString i q cs (some r)) : r.1 = .ok () := by
  obtain ⟨ws, hlength, -, hstored⟩ := hr
  rw [Option.some.inj hstored]
  exact (storedWords_view hblock (by omega) (by omega)).1

/-- What an instruction saves of an image has a string just if the image has. -/
theorem storesString_when {m : Image} {r : Option BodyResult}
    (h : r = some (i.storedWords q (words m (cs.length / 2 + 1)) i.store))
    (hfits : cs.length / 2 + 1 ≤ n) :
    RightWhen i q n (Spells m cs) (StoresString i q cs r) := by
  refine ⟨fun hs => ⟨_, PackedStrings.length_words, (spells_words_iff (by omega)).mpr hs, h⟩, ?_⟩
  rintro b hblock hkept ⟨ws, hlength, hs, hstored⟩
  have heq : i.storedWords q ws i.store =
      i.storedWords q (words m (cs.length / 2 + 1)) i.store :=
    Option.some.inj (hstored.symm.trans h)
  rw [storedWords_inj hblock hkept (hlength ▸ hfits)
    (PackedStrings.length_words.trans hlength.symm) heq] at hs
  exact (spells_words_iff (by omega)).mp hs

/-- An image that is saved over a string without a change has the string. -/
theorem spells_of_unchanged {m : Image} (h : ElementsAt i q cs i.store)
    (hblock : (i.operand q).HasBlock b n i.store) (hkept : ∀ x, b.kept x = x)
    (hfits : cs.length / 2 + 1 ≤ n)
    (hsame : i.storedWords q (words m (cs.length / 2 + 1)) i.store =
      (.ok (), i.inPF, i.store)) : Spells m cs := by
  obtain ⟨w, hw, hs⟩ := h.words
  have hlength : (words m (cs.length / 2 + 1)).length = cs.length / 2 + 1 :=
    PackedStrings.length_words
  have hview := (storedWords_view hblock (by omega) (hlength ▸ hfits)).2.2
  rw [hsame] at hview
  refine (spells_words_iff (n := cs.length / 2 + 1) (by omega)).mp (hs.congr fun j hj => ?_)
  refine image_congr ?_
  have hword : b.read (j / 2) i.store = w (j / 2) :=
    Except.ok.inj ((hblock.get (by omega)).symm.trans (hw _ (by omega)))
  rw [← hword, hview _ (by omega), hkept]

/-- A block of words that an instruction saves in is no literal. -/
theorem element_of_block (h : (i.operand q).HasBlock b n s) :
    ElementOperand i.ucode (i.pc + q) := by
  intro hconst
  have hform : (i.operand q).type.bind (saveWordTable (i.operand q).level) = none := by
    change (AddrType.ofCode (i.ucode.getPU8 (i.pc + q + 1))).bind _ = _
    rw [hconst]
    rfl
  have hblock := h.block
  simp only [WordOperand.block, hform, reduceCtorEq] at hblock

/-- A string in a block. -/
theorem elementsAt_of_block (h : (i.operand q).HasBlock b n s) (hlt : cs.length / 2 < n)
    (hs : Spells (image fun k => b.read k s) cs) : ElementsAt i q cs s :=
  ⟨element_of_block h, _, fun _ hk => h.get (Nat.lt_of_le_of_lt hk hlt), hs⟩

/-- The zeros of a string as the instructions put them. -/
def ended (m : Image) (n : Nat) : Image :=
  if n % 2 = 0 then Buffer.onto m (n / 2) (Buffer.wordBytes [0]) else Buffer.onto m n [0]

theorem wordCount_of_lt {k : Nat} (hk : k < 65536) : wordCount k = k := by
  rw [wordCount, toNat_ofInt]
  omega

theorem wordCount_half {k : Nat} (hk : k < 131072) : wordCount ((k : Int).tdiv 2) = k / 2 := by
  exact wordCount_of_lt (show k / 2 < 65536 by omega)

theorem saveBuffer_eq {m : Image} {size k : Nat} (h : 2 * k ≤ size) :
    saveBuffer i q ⟨size, m⟩ k = pure (i.storedWords q (words m k) i.store) := by
  rw [saveBuffer, Buffer.words_eq (b := ⟨size, m⟩) h]
  rfl

theorem saveEnded_eq {b : Buffer} {k : Nat} (hk : k < 131070) (hsize : b.size = k + 2) :
    saveEnded i q b k =
      pure (i.storedWords q (words (ended b.bytes k) (k / 2 + 1)) i.store) := by
  have hfits : 2 * (k / 2 + 1) ≤ b.size := by omega
  rcases mod_two_eq_zero_or_one k with heven | hodd
  · have hcount : wordCount (((k : Int) + 2) / 2) = k / 2 + 1 := by
      rw [show ((k : Int) + 2) / 2 = ((k / 2 + 1 : Nat) : Int) by omega]
      exact wordCount_of_lt (by omega)
    have hput : b.putWords ((k : Int) / 2) [0] =
        some ⟨b.size, Buffer.onto b.bytes (k / 2) (Buffer.wordBytes [0])⟩ := by
      rw [show (k : Int) / 2 = ((k / 2 : Nat) : Int) by omega]
      exact Buffer.putWords_eq (show k / 2 + 2 * 1 ≤ b.size by omega)
    rw [saveEnded, if_pos (by omega), hput, hcount, inMemory_some_bind,
      saveBuffer_eq hfits, ended, if_pos heven]
  · have hcount : wordCount (((k : Int) + 1) / 2) = k / 2 + 1 := by
      rw [show ((k : Int) + 1) / 2 = ((k / 2 + 1 : Nat) : Int) by omega]
      exact wordCount_of_lt (by omega)
    have hput : b.put k [0] = some ⟨b.size, Buffer.onto b.bytes k [0]⟩ :=
      Buffer.put_eq (show k + 1 ≤ b.size by omega)
    rw [saveEnded, if_neg (by omega), hput, hcount, inMemory_some_bind,
      saveBuffer_eq hfits, ended, if_neg (by omega)]

/-- Zeros at half of a length cut the string. -/
theorem not_spells_ended {m : Image} (heven : cs.length % 2 = 0) (hpos : 0 < cs.length) :
    ¬ Spells (ended m cs.length) cs := by
  intro h
  have hbytes : (Buffer.wordBytes [0]).length = 2 := Buffer.length_wordBytes
  refine h.ne_zero (j := cs.length / 2) (by omega) ?_
  rw [ended, if_pos heven]
  exact Buffer.onto_add (m := m) (p := cs.length / 2)
    (show 0 < (Buffer.wordBytes [0]).length by omega)

/-- The zeros stand behind the string just if its length is odd or nothing. -/
theorem spells_ended_iff {m : Image} (hzero : 0 ∉ cs) (hm : ∀ j < cs.length, m j = cs.getD j 0) :
    Spells (ended m cs.length) cs ↔ cs.length % 2 = 1 ∨ cs.length = 0 := by
  constructor
  · intro h
    by_contra hlength
    obtain ⟨hodd, hne⟩ := not_or.mp hlength
    exact not_spells_ended (by omega) (by omega) h
  · rintro (hodd | hempty)
    · refine ⟨hzero, fun j hj => ?_⟩
      rw [ended, if_neg (by omega)]
      rcases Nat.eq_or_lt_of_le hj with rfl | hlt
      · rw [getD_eq_default _ _ (Nat.le_refl _)]
        exact Buffer.onto_add (j := 0) Nat.one_pos
      · rw [Buffer.onto_of_lt hlt, hm j hlt]
    · obtain rfl := eq_nil_of_length_eq_zero hempty
      have hbytes : (Buffer.wordBytes [0]).length = 2 := Buffer.length_wordBytes
      refine ⟨hzero, fun j hj => ?_⟩
      obtain rfl := le_zero.mp hj
      exact Buffer.onto_add (m := m) (p := 0) (j := 0)
        (show 0 < (Buffer.wordBytes [0]).length by omega)

end

/-! ## Samples of operands -/

def StringForm.code (cs : List (BitVec 8)) (k : UInt8) : StringForm → List UInt8
  | literal => UInt8.ofNat (cs.length + 1) :: 0x82 :: (cs ++ [0]).map UInt8.ofBitVec
  | element => rOperand k

/-- `D` with a number below 256 as an operand. -/
def dOperand (k : UInt8) : List UInt8 := [0, 0x11, k, 0]

/-- The bytes of an image in the elements `R`, and some words from `D0` on. -/
def stringStore (m : Image) (xs : List (BitVec 16)) : Store :=
  { Store.off with
    word := fun e k =>
      match e with
      | .R => word m k
      | .D => xs.getD k 0
      | _ => 0 }

/-- A string of characters, and another one from a byte on. -/
def twoStrings (n : Nat) (cs ds : List (BitVec 8)) : Image := fun j =>
  if j < n then cs.getD j 0 else ds.getD (j - n) 0

/-- An instruction with strings in `R` and numbers in `D`. -/
def stringInput (code : List UInt8) (m : Image) (xs : List (BitVec 16)) : BodyInput :=
  { ucode := [0, 0] ++ code, pc := 0, level := 0, now := 0, inPF := 1, sfc := Plc.off.sfc,
    store := stringStore m xs }

section

variable {i : BodyInput} {q off : Nat} {k : UInt8} {s : Store} {cs ds : List (BitVec 8)} {m : Image}
  {f : StringForm} {code : List UInt8} {xs : List (BitVec 16)}

variable (m code xs) in
theorem stringInput_code : (stringInput code m xs).ucode.CodeAt 2 code :=
  (Ucode.codeAt_append.mp (Ucode.codeAt_self (u := [0, 0] ++ code))).2

theorem length_code (cs : List (BitVec 8)) (k : UInt8) (f : StringForm) :
    (f.code cs k).length = 2 + f.ucodeLen cs := by
  cases f with
  | literal =>
    rw [StringForm.code, length_cons, length_cons, length_map, length_append,
      Nat.add_comm 2]
    rfl
  | element => rfl

/-- The block of an operand without an index register. -/
theorem block_of_code {t a b : UInt8} {k : Nat} {e : WordElement}
    (h : i.ucode.CodeAt (i.pc + q) [0, t, a, b]) (hab : a.toNat + 256 * b.toNat = k)
    (htable : (AddrType.ofCode t.toNat).bind (saveWordTable i.level) = some (.of (.elem e) false))
    (hplain : AddrType.ofCode t.toNat ≠ some .v) (hk : k ≤ e.rang) :
    (i.operand q).HasBlock (.elems (.elem e) e.rang k) (e.rang - k) s := by
  have ha : a.toNat < 256 := a.toNat_lt
  have hb : b.toNat < 256 := b.toNat_lt
  have htype : i.ucode.getPU8 (i.pc + q + 1) = t.toNat := h.getPU8 (by decide : 1 < 4)
  have hnumber : i.ucode.getPU16 (i.pc + q + 2) = k :=
    (h.getPU16 (by decide : 2 + 1 < 4)).trans hab
  have hform : (i.operand q).type.bind (saveWordTable (i.operand q).level) =
      some (.of (.elem e) false) := by
    change (AddrType.ofCode (i.ucode.getPU8 (i.pc + q + 1))).bind _ = _
    rwa [htype]
  have hstart : blockStart (i.operand q).ucode (i.operand q).addr s false 0 = k := by
    simp only [blockStart, operandStart, BodyInput.operand, hnumber, Bool.false_eq_true, if_false,
      Nat.zero_add, Nat.add_zero]
    exact mod_eq_of_lt (by omega)
  refine ⟨?_, ?_, ?_⟩
  · simp only [WordOperand.block, hform, WordForm.of, hstart]
    rfl
  · change AddrType.ofCode (i.ucode.getPU8 (i.pc + q + 1)) ≠ _
    rwa [htype]
  · change k + (e.rang - k) ≤ e.rang
    omega

theorem r_block (h : i.ucode.CodeAt (i.pc + q) (rOperand k)) :
    (i.operand q).HasBlock (.elems (.elem .R) 32768 k.toNat) (32768 - k.toNat) s :=
  block_of_code (e := .R) h (Nat.add_zero _) rfl (by decide)
    (Nat.le_of_lt (Nat.lt_trans k.toNat_lt (by decide)))

theorem d_block (h : i.ucode.CodeAt (i.pc + q) (dOperand k)) :
    (i.operand q).HasBlock (.elems (.elem .D) 8000 k.toNat) (8000 - k.toNat) s :=
  block_of_code (e := .D) h (Nat.add_zero _) rfl (by decide)
    (Nat.le_of_lt (Nat.lt_trans k.toNat_lt (by decide)))

theorem d0_block (h : i.ucode.CodeAt (i.pc + q) d0Operand) :
    (i.operand q).HasBlock (.elems (.elem .D) 8000 0) 8000 s :=
  d_block (k := 0) h

/-- What is no operand of words cannot be got. -/
theorem word_elementType {t : UInt8} (h : i.ucode.getPU8 (i.pc + q + 1) = t.toNat)
    (htable : (AddrType.ofCode t.toNat).bind (getWordTable i.level) = none) :
    i.word q off s = .error .elementType := by
  have hget : getWord i.ucode (i.pc + q) s i.level off 1 = (.error .elementType, []) := by
    simp only [getWord, h, htable]
  rw [BodyInput.word, BodyInput.words, hget]
  rfl

/-- Behind the last element `R` nothing can be got. -/
theorem r_word_beyond (h : i.ucode.CodeAt (i.pc + q) (rOperand k)) (hoff : 32768 ≤ k.toNat + off)
    (hlt : k.toNat + off < 65536) : i.word q off s = .error .overElementRang := by
  have htype : i.ucode.getPU8 (i.pc + q + 1) = 0x1A := h.getPU8 (by decide : 1 < 4)
  have hnumber : i.ucode.getPU16 (i.pc + q + 2) = k.toNat :=
    (h.getPU16 (by decide : 2 + 1 < 4)).trans (Nat.add_zero _)
  have hform : (AddrType.ofCode 0x1A).bind (getWordTable i.level) =
      some (.cells (.elem .R) false 32768) := rfl
  have hstart : operandStart i.ucode (i.pc + q) s false = k.toNat := by
    rw [operandStart, hnumber]
    exact Nat.zero_add _
  have hget : getWord i.ucode (i.pc + q) s i.level off 1 = (.error .overElementRang, []) := by
    simp only [getWord, htype, hform]
    rw [getLoop, if_neg]
    rw [elementIndex]
    omega
  rw [BodyInput.word, BodyInput.words, hget]
  rfl

theorem elementsAt_of_r {k : Nat}
    (h : (i.operand q).HasBlock (.elems (.elem .R) 32768 k) (32768 - k) (stringStore m xs))
    (hzero : 0 ∉ cs) (hfits : 2 * k + cs.length < 65536)
    (hm : ∀ j ≤ cs.length, m (2 * k + j) = cs.getD j 0) :
    ElementsAt i q cs (stringStore m xs) := by
  refine elementsAt_of_block h (by omega) ⟨hzero, fun j hj => ?_⟩
  rw [← hm j hj, ← image_word (m := m)]
  unfold image
  have hhalf : (2 * k + j) / 2 = k + j / 2 := by omega
  have hparity : (2 * k + j) % 2 = j % 2 := by omega
  rw [hhalf, hparity]
  rfl

theorem code_literalAt (h : i.ucode.CodeAt (i.pc + q) (StringForm.literal.code cs k))
    (hlen : cs.length < 255) : LiteralAt i q cs := by
  have hlength := length_code cs k .literal
  change _ = 2 + (cs.length + 1) at hlength
  refine ⟨h.getPU8 (by omega : 1 < _), (h.getPU8 (by omega : 0 < _)).trans ?_, fun j hle => ?_⟩
  · change (UInt8.ofNat (cs.length + 1)).toNat = cs.length + 1
    rw [UInt8.toNat_ofNat']
    omega
  · rw [Nat.add_assoc _ 2 j, h.getPU8 (by omega)]
    have hchar : ((cs ++ [0]).map UInt8.ofBitVec).getD j 0 = UInt8.ofBitVec (cs.getD j 0) := by
      refine (getD_map (cs ++ [0]) 0 UInt8.ofBitVec).trans (congrArg UInt8.ofBitVec ?_)
      rcases Nat.lt_or_ge j cs.length with hlt | hge
      · exact getD_append _ _ _ _ hlt
      · rw [getD_append_right _ _ _ _ hge, getD_eq_default _ _ hge,
          Nat.sub_eq_zero_of_le hle]
        rfl
    have hcode : (StringForm.literal.code cs k).getD (2 + j) 0 = UInt8.ofBitVec (cs.getD j 0) := by
      rw [Nat.add_comm]
      exact hchar
    rw [hcode]
    exact ofNat_toNat ..

/-- An operand of either form. -/
theorem stringInput_at (h : (stringInput code m xs).ucode.CodeAt q (f.code cs k)) (hzero : 0 ∉ cs)
    (hlen : cs.length < 255) (hm : ∀ j ≤ cs.length, m (2 * k.toNat + j) = cs.getD j 0) :
    f.At (stringInput code m xs) q cs := by
  have hk : k.toNat < 256 := k.toNat_lt
  rw [← Nat.zero_add q] at h
  cases f with
  | literal => exact code_literalAt h hlen
  | element => exact elementsAt_of_r (r_block h) hzero (by omega) hm

theorem stringInput_r (h : (stringInput code m xs).ucode.CodeAt q (rOperand k)) :
    ((stringInput code m xs).operand q).HasBlock (.elems (.elem .R) 32768 k.toNat)
      (32768 - k.toNat) s := by
  rw [← Nat.zero_add q] at h
  exact r_block h

end

end Kalyke
