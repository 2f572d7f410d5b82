-- SUMMARY: `ITA` and `ATI`: which words are written in hexadecimal characters, and read again.
import Kalyke.Exec.WordGroups
import Kalyke.Lib.HexDigits
import Mathlib.Data.List.OfFn

/-!
# Hexadecimal Characters of Words

`ITA` takes its four digits from a table, by numbers of which three are not cut to a digit, so that
it leaves the table unless the word is a single digit. `ATI` masks packed characters in a way that
is right for decimal digits only. Both take an operand for a literal if its first byte is zero, as
it is in every plain operand, and then convert the first characters only.
-/

namespace Kalyke

open List Nat Except
open BitVec (eq_of_toNat_eq toNat_inj toNat_ofNat toNat_add toNat_shiftLeft)

/-! ## Characters -/

/-- The number of words that four characters take up. -/
def charWords (wide : Bool) : Nat := if wide then 4 else 2

/-- A character of words that hold one or two each, the first one in the lower byte. -/
def charOf (wide : Bool) (w : Nat → BitVec 16) (m : Nat) : BitVec 16 :=
  if wide then w m else if m % 2 = 0 then w (m / 2) &&& 0xFF else w (m / 2) >>> 8

/-- The character of a digit of a word, the highest digit first. -/
def hexCharAt (x : BitVec 16) (m : Nat) : Nat := hexChar (digitAt 16 x.toNat (3 - m))

/-- The words of the four characters of a word. -/
def hexWords (wide : Bool) (x : BitVec 16) (j : Fin (charWords wide)) : BitVec 16 :=
  BitVec.ofNat 16
    (if wide then hexCharAt x j else hexCharAt x (2 * j) + 256 * hexCharAt x (2 * j + 1))

section

variable {wide : Bool} {w : Nat → BitVec 16} {x y : BitVec 16} {k m : Nat} {b : WordBlock}

theorem charWords_pos : 0 < charWords wide := by cases wide <;> decide

theorem hexCharAt_bounds : 48 ≤ hexCharAt x m ∧ hexCharAt x m ≤ 70 := by
  have hdigit : digitAt 16 x.toNat (3 - m) < 16 := mod_lt _ (by decide)
  rw [hexCharAt, hexChar]
  split <;> omega

theorem eq_of_hexCharAt (h : ∀ m < 4, hexCharAt x m = hexCharAt y m) : x = y :=
  eq_of_toNat_eq (eq_of_hexChars (n := 4) x.isLt y.isLt h)

theorem toNat_lowByte : (x &&& 0xFF).toNat = x.toNat % 256 := by
  exact and_two_pow_sub_one_eq_mod x.toNat 8

theorem toNat_highByte : (x >>> 8).toNat = x.toNat / 256 := by
  rw [BitVec.toNat_ushiftRight, shiftRight_eq_div_pow]

theorem toNat_hexWords (j : Fin (charWords wide)) : (hexWords wide x j).toNat =
    if wide then hexCharAt x j else hexCharAt x (2 * j) + 256 * hexCharAt x (2 * j + 1) := by
  have hfirst := hexCharAt_bounds (x := x) (m := j)
  have hlow := hexCharAt_bounds (x := x) (m := 2 * j)
  have hhigh := hexCharAt_bounds (x := x) (m := 2 * j + 1)
  refine mod_eq_of_lt ?_
  split <;> omega

/-- Four characters are those of a word just if their words are. -/
theorem chars_iff : (∀ m < 4, (charOf wide w (4 * k + m)).toNat = hexCharAt x m) ↔
    (fun j : Fin (charWords wide) => w (charWords wide * k + j)) = hexWords wide x := by
  rw [funext_iff]
  cases wide with
  | true =>
    constructor
    · intro h j
      refine eq_of_toNat_eq ?_
      rw [toNat_hexWords, if_pos rfl]
      exact h j j.isLt
    · intro h m hm
      have hword := congrArg BitVec.toNat (h ⟨m, hm⟩)
      rwa [toNat_hexWords, if_pos rfl] at hword
  | false =>
    have hplaces (j : Nat) : charOf false w (4 * k + 2 * j) = w (2 * k + j) &&& 0xFF ∧
        charOf false w (4 * k + (2 * j + 1)) = w (2 * k + j) >>> 8 := by
      have heven : (4 * k + 2 * j) % 2 = 0 ∧ (4 * k + 2 * j) / 2 = 2 * k + j := by omega
      have hodd : ¬ (4 * k + (2 * j + 1)) % 2 = 0 ∧ (4 * k + (2 * j + 1)) / 2 = 2 * k + j := by
        omega
      constructor
      · rw [charOf, if_neg (by decide), if_pos heven.1, heven.2]
      · rw [charOf, if_neg (by decide), if_neg hodd.1, hodd.2]
    constructor
    · intro h j
      have hj : j.val < 2 := j.isLt
      have hlow := h (2 * j) (by omega)
      have hhigh := h (2 * j + 1) (by omega)
      rw [(hplaces j).1, toNat_lowByte] at hlow
      rw [(hplaces j).2, toNat_highByte] at hhigh
      refine eq_of_toNat_eq ?_
      rw [toNat_hexWords, if_neg (by decide)]
      change (w (2 * k + j)).toNat = _
      omega
    · intro h m hm
      have hword := congrArg BitVec.toNat (h ⟨m / 2, (by change m / 2 < 2; omega)⟩)
      rw [toNat_hexWords, if_neg (by decide)] at hword
      change (w (2 * k + m / 2)).toNat =
        hexCharAt x (2 * (m / 2)) + 256 * hexCharAt x (2 * (m / 2) + 1) at hword
      have hlow := hexCharAt_bounds (x := x) (m := 2 * (m / 2))
      have hhigh := hexCharAt_bounds (x := x) (m := 2 * (m / 2) + 1)
      obtain ⟨heven, hodd⟩ := hplaces (m / 2)
      rcases mod_two_eq_zero_or_one m with hm2 | hm2
      · have hm : 2 * (m / 2) = m := by omega
        rw [hm] at heven hword hlow
        rw [heven, toNat_lowByte]
        omega
      · have hm : 2 * (m / 2) + 1 = m := by omega
        rw [hm] at hodd hword hhigh
        rw [hodd, toNat_highByte]
        omega

/-- The characters of a word are kept just if there is room for them. -/
theorem kept_hexWords_iff (hb : b.Proper) :
    (fun j => b.kept (hexWords wide x j)) = hexWords wide y ↔
      (if wide then 8 else 16) ≤ b.size ∧ x = y := by
  have hbound (m : Nat) := hexCharAt_bounds (x := x) (m := m)
  have hbound' (m : Nat) := hexCharAt_bounds (x := y) (m := m)
  rw [funext_iff]
  cases wide with
  | true =>
    have hword (j : Fin (charWords true)) : b.kept (hexWords true x j) = hexWords true y j ↔
        hexCharAt x j % 2 ^ b.size = hexCharAt y j := by
      rw [← toNat_inj, hb.toNat_kept, toNat_hexWords, toNat_hexWords, if_pos rfl, if_pos rfl]
    simp only [hword, if_true]
    have hcut (m : Nat) (hsize : 8 ≤ b.size) : hexCharAt x m % 2 ^ b.size = hexCharAt x m := by
      have hpow : 2 ^ 8 ≤ 2 ^ b.size := Nat.pow_le_pow_right (by decide) hsize
      exact mod_eq_of_lt (by have := hbound m; omega)
    constructor
    · intro h
      have hsize : 8 ≤ b.size := by
        rcases hb.size_cases with hsize | hsize | hsize | hsize
        · have hfirst := h ⟨0, by decide⟩
          rw [hsize] at hfirst
          have := hbound' 0
          change hexCharAt x 0 % 16 = hexCharAt y 0 at hfirst
          omega
        all_goals omega
      exact ⟨hsize, eq_of_hexCharAt fun m hm => (hcut m hsize).symm.trans (h ⟨m, hm⟩)⟩
    · rintro ⟨hsize, rfl⟩ j
      exact hcut j hsize
  | false =>
    have hword (j : Fin (charWords false)) : b.kept (hexWords false x j) = hexWords false y j ↔
        (hexCharAt x (2 * j) + 256 * hexCharAt x (2 * j + 1)) % 2 ^ b.size =
          hexCharAt y (2 * j) + 256 * hexCharAt y (2 * j + 1) := by
      rw [← toNat_inj, hb.toNat_kept, toNat_hexWords, toNat_hexWords,
        if_neg (by decide), if_neg (by decide)]
    simp only [hword]
    constructor
    · intro h
      have hsize : b.size = 16 := by
        have hfirst := h ⟨0, by decide⟩
        have hlow := hbound' (2 * 0)
        have hhigh := hbound' (2 * 0 + 1)
        change (_ + 256 * _) % 2 ^ b.size =
          hexCharAt y (2 * 0) + 256 * hexCharAt y (2 * 0 + 1) at hfirst
        rcases hb.size_cases with hsize | hsize | hsize | hsize <;> rw [hsize] at hfirst <;> omega
      refine ⟨Nat.le_of_eq (by rw [hsize]; rfl), eq_of_hexCharAt fun m hm => ?_⟩
      have hpair := h ⟨m / 2, (by change m / 2 < 2; omega)⟩
      rw [hsize] at hpair
      change (hexCharAt x (2 * (m / 2)) + 256 * hexCharAt x (2 * (m / 2) + 1)) % 65536 =
        hexCharAt y (2 * (m / 2)) + 256 * hexCharAt y (2 * (m / 2) + 1) at hpair
      have hlow := hbound (2 * (m / 2))
      have hhigh := hbound (2 * (m / 2) + 1)
      have hlow' := hbound' (2 * (m / 2))
      have hhigh' := hbound' (2 * (m / 2) + 1)
      rcases mod_two_eq_zero_or_one m with hm2 | hm2
      · have hm : 2 * (m / 2) = m := by omega
        rw [hm] at hpair hlow hlow' hhigh hhigh'
        omega
      · have hm : 2 * (m / 2) + 1 = m := by omega
        rw [hm] at hpair hhigh hhigh'
        omega
    · rintro ⟨hsize, rfl⟩ j
      have hlow := hbound (2 * j)
      have hhigh := hbound (2 * j + 1)
      refine mod_eq_of_lt ?_
      have hpow : 2 ^ 16 ≤ 2 ^ b.size := Nat.pow_le_pow_right (by decide) hsize
      omega

end

/-! ## The table of digits -/

/-- The numbers of the table entries that are read for a word. -/
def asciiEntries (x : BitVec 16) : List Nat :=
  [((x >>> 12) &&& 0xFF).toNat, ((x >>> 8) &&& 0xFF).toNat, ((x >>> 4) &&& 0xFF).toNat,
    (x &&& 0xFF).toNat]

def asciiWords (junk : Junk) (wide : Bool) (x : BitVec 16) (j : Fin (charWords wide)) :
    BitVec 16 :=
  (packAscii wide (asciiOf junk x)).getD j 0

section

variable {junk : Junk} {wide : Bool} {x : BitVec 16}

/-- All entries lie in the table just if the word is a single digit. -/
theorem asciiEntries_lt_iff : (∀ e ∈ asciiEntries x, e < 16) ↔ x.toNat < 16 := by
  have hbyte (y : BitVec 16) : (y &&& 0xFF).toNat = y.toNat % 256 := toNat_lowByte
  simp only [asciiEntries, forall_mem_cons, not_mem_nil, false_implies, implies_true,
    and_true, hbyte, BitVec.toNat_ushiftRight]
  omega

theorem ofFn_asciiWords : ofFn (asciiWords junk wide x) = packAscii wide (asciiOf junk x) := by
  cases wide <;> rfl

/-- Single digits are written right. -/
theorem asciiWords_eq (hx : x.toNat < 16) : asciiWords junk wide x = hexWords wide x := by
  obtain ⟨d, hd, rfl⟩ : ∃ d < 16, x = BitVec.ofNat 16 d :=
    ⟨x.toNat, hx, eq_of_toNat_eq (by rw [toNat_ofNat, mod_eq_of_lt x.isLt])⟩
  refine ofFn_injective ?_
  rw [ofFn_asciiWords]
  cases wide <;> interval_cases d <;> rfl

end

/-! ## From words to characters -/

/-- `ITA` with power flow on `n` words, with a block that can take their characters. -/
structure ItaOf (out : WordBlock) (n : Nat) (x : Nat → BitVec 16) (i : BodyInput) : Prop where
  power : getPowerFlow i.inPF = true
  size : i.word 10 0 i.store = .ok (BitVec.ofNat 16 (4 * n))
  short : 4 * n ≤ 256
  words : ∀ k < n, i.word 2 k i.store = .ok (x k)
  dest : (i.operand 6).block i.store = some out
  destFits : 0 < n → out.Fits (charWords (asciiWide i) * n)

section

variable (junk : Junk) (out : WordBlock) (n : Nat) (x : Nat → BitVec 16) (i : BodyInput)

/-- The number of words that are converted. A literal has one word; its first byte is zero, but so
is that of other operands. -/
def convertedWords : Nat := if i.ucode.getPU8 (i.pc + 2) = 0 then min n 1 else n

def itaTurn (k : Nat) : Store :=
  (runMovesOn i.saveWords ((range k).map fun l => itaMove junk i (asciiWide i) l 4) (.ok ())
    i.store).2

/-- No entry outside the table is read for a word that is got. -/
def StaysInTable : Prop :=
  ∀ k < convertedWords n i, ∀ y, i.word 2 k (itaTurn junk i k) = .ok y →
    ∀ e ∈ asciiEntries y, e < 16

/-- The characters of the words stand where they are saved. -/
structure WritesChars (r : BodyResult) : Prop where
  passes : r.1 = .ok ()
  chars : ∀ k < n, ∀ m < 4, (charOf (asciiWide i) (fun p => out.read p r.2.2) (4 * k + m)).toNat =
    hexCharAt (x k) m

/-- The store after the characters of the words before a place have been saved. -/
def charsSaved (k : Nat) : Store :=
  saveFirst (i.saveGroups (charWords (asciiWide i)) (i.pc + 6))
    (fun l => hexWords (asciiWide i) (x l)) k i.store

/-- There is a word, and room for its characters. Every word that is converted is a single digit,
and still itself after the characters of the words before it have been saved. The characters of the
others are there already. -/
structure ItaHolds : Prop where
  pos : 0 < n
  room : (if asciiWide i then 8 else 16) ≤ out.size
  words : ∀ k < convertedWords n i,
    (x k).toNat < 16 ∧ i.word 2 k (charsSaved x i k) = .ok (x k)
  others : ∀ k < n, convertedWords n i ≤ k → ∀ m < 4,
    (charOf (asciiWide i) (fun p => out.read p i.store) (4 * k + m)).toNat = hexCharAt (x k) m

end

section

variable {junk : Junk} {out : WordBlock} {n k : Nat} {x : Nat → BitVec 16} {i : BodyInput}

theorem convertedWords_le : convertedWords n i ≤ n := by
  rw [convertedWords]
  split <;> omega

theorem convertedWords_pos (hn : 0 < n) : 0 < convertedWords n i := by
  rw [convertedWords]
  split <;> omega

def itaGroup (junk : Junk) (i : BodyInput) (k : Nat) :
    Move (Fin (charWords (asciiWide i)) → BitVec 16) :=
  ⟨fun s => (i.word 2 k s).map fun y => [asciiWords junk (asciiWide i) y], i.pc + 6, k⟩

theorem itaMoves_eq (h : ItaOf out n x i) (hn : 0 < n) : itaMoves junk i =
    .ok ((range (convertedWords n i)).map fun k => itaMove junk i (asciiWide i) k 4) := by
  have hshort := h.short
  have hsize : (BitVec.ofNat 16 (4 * n)).toNat = 4 * n := by
    exact mod_eq_of_lt (by omega)
  have hcount : itaCount i = .ok (4 * convertedWords n i) := by
    simp only [itaCount, h.size, hsize, bind, Except.bind]
    rw [if_neg (by omega), convertedWords]
    split
    · rename_i hcut
      rw [if_pos hcut.1]
      exact congrArg ok (by omega)
    · rename_i hcut
      split
      · rename_i hzero
        exact congrArg ok (by omega)
      · rfl
  have hwhole : 4 * convertedWords n i / 4 = convertedWords n i := by omega
  have hrest : 4 * convertedWords n i % 4 = 0 := by omega
  simp only [itaMoves, hcount, bind, Except.bind, hwhole, hrest, if_true, append_nil]
  rfl

/-- A pass saves the characters of the word that it gets. -/
theorem itaMove_save {s : Store} {ws : List (BitVec 16)}
    (h : (itaMove junk i (asciiWide i) k 4).read s = .ok ws) :
    ∃ y, i.word 2 k s = .ok y ∧ i.saveWords (i.pc + 6) (itaMove junk i (asciiWide i) k 4).off ws =
      i.saveGroups (charWords (asciiWide i)) (i.pc + 6) k [asciiWords junk (asciiWide i) y] := by
  change (i.word 2 k s).map (fun y => packAscii (asciiWide i) (asciiOf junk y)) = .ok ws at h
  rcases hword : i.word 2 k s with e | y <;> rw [hword] at h
  · cases h
  · obtain rfl := ok.inj h
    refine ⟨y, rfl, funext fun u => ?_⟩
    have hoff : (itaMove junk i (asciiWide i) k 4).off = charWords (asciiWide i) * k := by
      change (if asciiWide i then 4 * k else 2 * k) = _
      rw [charWords]
      split <;> rfl
    rw [BodyInput.saveGroups, flatMap_singleton, ofFn_asciiWords, hoff]

theorem itaLoop_eq (h : ItaOf out n x i) (hn : 0 < n) (hk : k ≤ n) :
    runMovesOn i.saveWords ((range k).map fun l => itaMove junk i (asciiWide i) l 4) (.ok ())
        i.store =
      runMoves (i.saveGroups (charWords (asciiWide i))) ((range k).map (itaGroup junk i))
        i.store := by
  have hsave := (fillsBlock_groups (fillsBlock_words h.dest (h.destFits hn))
    charWords_pos).toSavesBlock
  have hpasses : ∀ m ∈ (range k).map (fun l => itaMove junk i (asciiWide i) l 4), ∀ u ws,
      ChangesOnly (out.Has (charWords (asciiWide i) * n)) i.store u → m.read u = .ok ws →
        (i.saveWords m.dst m.off ws u).1 = .ok () ∧
          ChangesOnly (out.Has (charWords (asciiWide i) * n)) i.store
            (i.saveWords m.dst m.off ws u).2 := by
    intro m hm u ws hu hread
    obtain ⟨l, hl, rfl⟩ := mem_map.mp hm
    have hl := mem_range.mp hl
    obtain ⟨y, -, hsaved⟩ := itaMove_save hread
    change (i.saveWords (i.pc + 6) _ ws u).1 = _ ∧
      ChangesOnly _ _ (i.saveWords (i.pc + 6) _ ws u).2
    rw [hsaved]
    exact ⟨hsave.passes l (by omega) _ u hu, hsave.keeps l (by omega) _ u hu⟩
  rw [runMovesOn_eq hpasses changesOnly_refl]
  refine runMoves_congr _ fun l u => ?_
  simp only [runMoves]
  rcases hread : (itaMove junk i (asciiWide i) l 4).read u with e | ws
  · have hgroup : (itaGroup junk i l).read u = .error e := by
      change (i.word 2 l u).map _ = _ at hread ⊢
      rcases hword : i.word 2 l u with e' | y <;> rw [hword] at hread
      · cases hread
        rfl
      · cases hread
    rw [hgroup]
  · obtain ⟨y, hy, hsaved⟩ := itaMove_save hread
    have hgroup : (itaGroup junk i l).read u = .ok [asciiWords junk (asciiWide i) y] := by
      change (i.word 2 l u).map _ = _
      rw [hy]
      rfl
    rw [hgroup]
    dsimp only
    rw [show (itaMove junk i (asciiWide i) l 4).dst = i.pc + 6 from rfl, hsaved]
    rfl

theorem itaGroup_read (u : Store) : ((itaGroup junk i k).read u).toOption =
    ((i.word 2 k u).map (asciiWords junk (asciiWide i))).toOption.map fun f => [f] := by
  change ((i.word 2 k u).map fun y => [asciiWords junk (asciiWide i) y]).toOption = _
  rcases i.word 2 k u with e | y <;> rfl

/-- What the first passes leave where the characters are saved. -/
theorem itaLoop_iff (junk : Junk) (h : ItaOf out n x i) (hn : 0 < n) (hk : k ≤ n) :
    let r := runMovesOn i.saveWords ((range k).map fun l => itaMove junk i (asciiWide i) l 4)
      (.ok ()) i.store
    ChangesOnly (out.Has (charWords (asciiWide i) * k)) i.store r.2 ∧
    ((r.1 = .ok () ∧ ∀ l < k, (fun j : Fin (charWords (asciiWide i)) =>
          out.read (charWords (asciiWide i) * l + j) r.2) = hexWords (asciiWide i) (x l)) ↔
      ∀ l < k, ∃ y, i.word 2 l (charsSaved x i l) = .ok y ∧
        (fun j => out.kept (asciiWords junk (asciiWide i) y j)) =
          hexWords (asciiWide i) (x l)) := by
  have hfits := (h.destFits hn).mono (Nat.mul_le_mul_left (charWords (asciiWide i)) hk)
  obtain ⟨hchanges, hright⟩ := runMoves_first_iff
    (g := fun l => hexWords (asciiWide i) (x l)) (itaGroup junk i)
    (fun l u => (i.word 2 l u).map (asciiWords junk (asciiWide i)))
    (fillsBlock_groups (fillsBlock_words h.dest hfits) charWords_pos) changesOnly_refl
    fun _ _ => ⟨rfl, rfl, fun u _ => itaGroup_read u⟩
  rw [itaLoop_eq h hn hk]
  refine ⟨hchanges, hright.trans (forall₂_congr fun l _ => ?_)⟩
  change (∃ f, (i.word 2 l (charsSaved x i l)).map _ = .ok f ∧ _) ↔ _
  rcases i.word 2 l (charsSaved x i l) with e | y
  · constructor
    · rintro ⟨f, hf, -⟩
      cases hf
    · rintro ⟨y, hy, -⟩
      cases hy
  · constructor
    · rintro ⟨f, hf, hkept⟩
      cases hf
      exact ⟨y, rfl, hkept⟩
    · rintro ⟨y', hy, hkept⟩
      cases hy
      exact ⟨_, rfl, hkept⟩

/-- The first passes, if each finds the characters that it is to save. -/
theorem itaLoop_saved (h : ItaOf out n x i) (hn : 0 < n) (hk : k ≤ n)
    (hgot : ∀ l < k, ∃ y, i.word 2 l (charsSaved x i l) = .ok y ∧
      (fun j => out.kept (asciiWords junk (asciiWide i) y j)) = hexWords (asciiWide i) (x l)) :
    runMovesOn i.saveWords ((range k).map fun l => itaMove junk i (asciiWide i) l 4) (.ok ())
      i.store = (.ok (), charsSaved x i k) := by
  have hfits := (h.destFits hn).mono (Nat.mul_le_mul_left (charWords (asciiWide i)) hk)
  have hproper := proper_of_block h.dest
  rw [itaLoop_eq h hn hk]
  refine runMoves_first_eq (itaGroup junk i)
    (fun l u => (i.word 2 l u).map (asciiWords junk (asciiWide i)))
    (fillsBlock_groups (fillsBlock_words h.dest hfits) charWords_pos) changesOnly_refl
    (fun _ _ => ⟨rfl, rfl, fun u _ => itaGroup_read u⟩) fun l hl => ?_
  obtain ⟨y, hy, hkept⟩ := hgot l hl
  refine ⟨asciiWords junk (asciiWide i) y, ?_, ?_⟩
  · change (i.word 2 l (charsSaved x i l)).map _ = _
    rw [hy]
    rfl
  · rw [← hkept]
    exact funext fun j => (hproper.kept_kept _).symm

/-- A word is converted right from the table just if it is a single digit, and its characters are
kept. -/
theorem ItaHolds.got (junk : Junk) (hb : out.Proper) (h : ItaHolds out n x i) :
    ∀ k < convertedWords n i, ∃ y, i.word 2 k (charsSaved x i k) = .ok y ∧
      (fun j => out.kept (asciiWords junk (asciiWide i) y j)) = hexWords (asciiWide i) (x k) := by
  intro k hk
  obtain ⟨hdigit, hword⟩ := h.words k hk
  refine ⟨x k, hword, ?_⟩
  rw [asciiWords_eq hdigit]
  exact (kept_hexWords_iff hb).mpr ⟨h.room, rfl⟩

theorem ita_saved (h : ItaOf out n x i) (hholds : ItaHolds out n x i) :
    runCiItaIns junk i = (.ok (), i.inPF, charsSaved x i (convertedWords n i)) := by
  rw [runCiItaIns, runChecked_eq h.power (itaMoves_eq h hholds.pos), itaLoop_saved h hholds.pos
    convertedWords_le (hholds.got junk (proper_of_block h.dest))]

/-- The characters that are not saved stay. -/
theorem chars_beyond {s u : Store} {l : Nat}
    (hu : ChangesOnly (out.Has (charWords (asciiWide i) * k)) s u) (hl : k ≤ l) :
    (fun j : Fin (charWords (asciiWide i)) => out.read (charWords (asciiWide i) * l + j) u) =
      fun j : Fin (charWords (asciiWide i)) => out.read (charWords (asciiWide i) * l + j) s := by
  funext j
  refine WordBlock.read_of_changes hu fun c hc => ?_
  rintro ⟨p, hp, hmem⟩
  have hle : charWords (asciiWide i) * k ≤ charWords (asciiWide i) * l := Nat.mul_le_mul_left _ hl
  exact WordBlock.cells_disjoint (show charWords (asciiWide i) * l + j ≠ p by omega) hc hmem

theorem ita_right_iff (junk : Junk) (h : ItaOf out n x i) :
    WritesChars out n x i (runCiItaIns junk i) ∧ StaysInTable junk n i ↔ ItaHolds out n x i := by
  have hproper := proper_of_block h.dest
  rcases Nat.eq_zero_or_pos n with rfl | hn
  · refine iff_of_false (fun hright => ?_) fun hholds => absurd hholds.pos (Nat.lt_irrefl 0)
    have hcount : itaMoves junk i = .error .operands := by
      simp only [itaMoves, itaCount, h.size]
      rfl
    have hpass := hright.1.passes
    simp only [runCiItaIns, runChecked, h.power, hcount] at hpass
    cases hpass
  constructor
  · rintro ⟨hwrites, htable⟩
    obtain ⟨hpass, hchars⟩ := hwrites
    rw [runCiItaIns, runChecked_eq h.power (itaMoves_eq h hn)] at hpass hchars
    obtain ⟨hchanges, hright⟩ := itaLoop_iff junk h hn (convertedWords_le (i := i))
    have hgot := hright.mp ⟨hpass, fun l hl =>
      chars_iff.mp (hchars l (Nat.lt_of_lt_of_le hl convertedWords_le))⟩
    have hword (k : Nat) (hk : k < convertedWords n i) : ∃ y,
        i.word 2 k (charsSaved x i k) = .ok y ∧ y.toNat < 16 ∧
        (if asciiWide i then 8 else 16) ≤ out.size ∧ y = x k := by
      obtain ⟨y, hy, hkept⟩ := hgot k hk
      have hturn : itaTurn junk i k = charsSaved x i k := congrArg Prod.snd (itaLoop_saved h hn
        (Nat.le_trans (Nat.le_of_lt hk) convertedWords_le) fun l hl => hgot l (by omega))
      have hdigit := asciiEntries_lt_iff.mp (htable k hk y (by rw [hturn]; exact hy))
      rw [asciiWords_eq hdigit] at hkept
      exact ⟨y, hy, hdigit, (kept_hexWords_iff hproper).mp hkept⟩
    refine ⟨hn, ?_, fun k hk => ?_, fun k hk hbeyond => ?_⟩
    · obtain ⟨-, -, -, hroom, -⟩ := hword 0 (convertedWords_pos hn)
      exact hroom
    · obtain ⟨y, hy, hdigit, -, rfl⟩ := hword k hk
      exact ⟨hdigit, hy⟩
    · rw [chars_iff, ← chars_beyond hchanges hbeyond]
      exact chars_iff.mp (hchars k hk)
  · intro hholds
    have hgot := hholds.got junk hproper
    have hsaved := itaLoop_saved h hn convertedWords_le hgot
    refine ⟨⟨?_, fun k hk => ?_⟩, fun k hk y hy => ?_⟩
    · rw [ita_saved h hholds]
    · obtain ⟨hchanges, hright⟩ := itaLoop_iff junk h hn (convertedWords_le (i := i))
      rw [ita_saved h hholds]
      rw [hsaved] at hchanges hright
      by_cases hconverted : k < convertedWords n i
      · exact chars_iff.mpr ((hright.mpr hgot).2 k hconverted)
      · rw [chars_iff, chars_beyond hchanges (Nat.le_of_not_lt hconverted)]
        exact chars_iff.mp (hholds.others k hk (Nat.le_of_not_lt hconverted))
    · have hturn : itaTurn junk i k = charsSaved x i k := congrArg Prod.snd (itaLoop_saved h hn
        (Nat.le_trans (Nat.le_of_lt hk) convertedWords_le) fun l hl => hgot l (by omega))
      obtain ⟨hdigit, hword⟩ := hholds.words k hk
      rw [hturn, hword] at hy
      obtain rfl := ok.inj hy
      exact asciiEntries_lt_iff.mpr hdigit

end

/-! ## The digits of characters -/

def fourDigits (d : Nat → Nat) : Nat := 4096 * d 0 + 256 * d 1 + 16 * d 2 + d 3

/-- The digit that `ATI` takes a character for. A packed letter is looked for behind the table. -/
def charDigit (junk : Junk) (wide : Bool) (c : Nat) : Nat :=
  if wide ∨ c ≤ 57 then hexDigit c else (junk.digit c).toNat

/-- The value that `ATI` makes of the words of four characters. -/
def groupValue (junk : Junk) (wide : Bool) (ws : List (BitVec 16)) : Except PlcErr (BitVec 16) :=
  if wide then wideValue junk ((range 4).map (filled junk ws))
  else packedValue junk (filled junk ws 0) (filled junk ws 1)

/-- Four characters are hexadecimal digits. -/
def FourHex (c : Nat → BitVec 16) : Prop := ∀ m < 4, IsHexChar (c m).toNat

instance (c : Nat → BitVec 16) : Decidable (FourHex c) :=
  inferInstanceAs (Decidable (∀ m < 4, IsHexChar (c m).toNat))

/-- Four characters stand for a word, as far as a block holds it. Those that it holds are decimal if
they are packed. -/
structure Decodes (wide : Bool) (back : WordBlock) (c : Nat → BitVec 16) (x : BitVec 16) :
    Prop where
  digits : FourHex c
  decimal : wide = false → ∀ m < 4, 4 ≤ m + back.size / 4 → (c m).toNat ≤ 57
  value : back.kept (BitVec.ofNat 16 (hexNumber (fun m => (c m).toNat) 4)) = x

section

variable {junk : Junk} {wide : Bool} {w : Nat → BitVec 16} {ws : List (BitVec 16)}
variable {a x : BitVec 16} {b : WordBlock} {d e : Nat → Nat}

theorem hexNumber_four {c : Nat → Nat} :
    hexNumber c 4 = fourDigits fun m => hexDigit (c m) := by
  simp only [hexNumber, fourDigits]
  omega

/-- What a block holds of four digits. -/
theorem kept_fourDigits (hb : b.Proper) (h : ∀ m < 4, 4 ≤ m + b.size / 4 → d m = e m) :
    b.kept (BitVec.ofNat 16 (fourDigits d)) = b.kept (BitVec.ofNat 16 (fourDigits e)) := by
  have h0 := h 0 (by decide)
  have h1 := h 1 (by decide)
  have h2 := h 2 (by decide)
  have h3 := h 3 (by decide)
  refine eq_of_toNat_eq ?_
  rw [hb.toNat_kept, hb.toNat_kept, toNat_ofNat, toNat_ofNat, fourDigits, fourDigits]
  rcases hb.size_cases with hsize | hsize | hsize | hsize <;> rw [hsize] at h0 h1 h2 h3 ⊢ <;> omega

/-- Digits that are raised by one change what a block holds of them. -/
theorem eq_of_kept_raised (hb : b.Proper) (hraised : ∀ m, e m = d m ∨ e m = d m + 1)
    (h : b.kept (BitVec.ofNat 16 (fourDigits d)) = b.kept (BitVec.ofNat 16 (fourDigits e))) :
    ∀ m < 4, 4 ≤ m + b.size / 4 → e m = d m := by
  have h0 := hraised 0
  have h1 := hraised 1
  have h2 := hraised 2
  have h3 := hraised 3
  have h := congrArg BitVec.toNat h
  rw [hb.toNat_kept, hb.toNat_kept, toNat_ofNat, toNat_ofNat, fourDigits,
    fourDigits] at h
  intro m hm hheld
  rcases hb.size_cases with hsize | hsize | hsize | hsize <;> rw [hsize] at h hheld <;>
    interval_cases m <;> omega

theorem deAsciiCode_eq {c : Nat} (hc : IsHexChar c) :
    deAsciiCode junk (c - 48) = BitVec.ofNat 16 (hexDigit c) := by
  rcases hc with ⟨hlow, hhigh⟩ | ⟨hlow, hhigh⟩ <;> interval_cases c <;> rfl

theorem toNat_packedDigit (junk : Junk) (hc : IsHexChar (a.toNat % 256)) :
    (packedDigit junk a).toNat = charDigit junk false (a.toNat % 256) := by
  have hmask : a &&& 0xCF = BitVec.ofNat 16 (a.toNat % 256) &&& 0xCF := by
    have hbyte : BitVec.ofNat 16 (a.toNat % 256) = a &&& 0xFF :=
      eq_of_toNat_eq (by rw [toNat_lowByte, toNat_ofNat]; omega)
    rw [hbyte, BitVec.and_assoc]
    rfl
  rw [packedDigit, hmask]
  generalize a.toNat % 256 = c at hc
  rcases hc with ⟨hlow, hhigh⟩ | ⟨hlow, hhigh⟩
  · interval_cases c <;> rfl
  · have hletter : (deAsciiCode junk (BitVec.ofNat 16 c &&& 0xCF).toNat).toNat =
        ((junk.digit c).setWidth 16).toNat := by
      interval_cases c <;> rfl
    have hnot : ¬ (false = true ∨ c ≤ 57) := by
      rintro (hwide | hle)
      · cases hwide
      · omega
    rw [hletter, charDigit, if_neg hnot, BitVec.toNat_setWidth]
    omega

/-- Four characters in words of their own. -/
theorem wideValue_four (hws : ∀ m < 4, filled junk ws m = w m) :
    groupValue junk true ws =
      if FourHex w then
        .ok (BitVec.ofNat 16 (fourDigits fun m => charDigit junk true (w m).toNat))
      else .error .operands := by
  have hlist : (range 4).map (filled junk ws) = (range 4).map w :=
    map_congr_left fun m hm => hws m (mem_range.mp hm)
  rw [groupValue, if_pos rfl, hlist, wideValue]
  by_cases hdigits : FourHex w
  · have hall : ∀ y ∈ (range 4).map w, IsHexNumAscii y := by
      intro y hy
      obtain ⟨m, hm, rfl⟩ := mem_map.mp hy
      exact hdigits m (mem_range.mp hm)
    rw [if_pos hall, if_pos hdigits]
    have hcode (m : Nat) (hm : m < 4) :
        deAsciiCode junk ((w m).toNat - 48) = BitVec.ofNat 16 (hexDigit (w m).toNat) :=
      deAsciiCode_eq (hdigits m hm)
    refine congrArg ok (eq_of_toNat_eq ?_)
    change BitVec.toNat ((((((((0#16 <<< 4) + deAsciiCode junk ((w 0).toNat - 48)) <<< 4) +
      deAsciiCode junk ((w 1).toNat - 48)) <<< 4) + deAsciiCode junk ((w 2).toNat - 48)) <<< 4) +
      deAsciiCode junk ((w 3).toNat - 48)) = _
    rw [hcode 0 (by decide), hcode 1 (by decide), hcode 2 (by decide), hcode 3 (by decide)]
    simp only [toNat_add, toNat_shiftLeft, toNat_ofNat, fourDigits, charDigit,
      true_or, if_true]
    omega
  · rw [if_neg hdigits, if_neg]
    exact fun hall => hdigits fun m hm =>
      hall (w m) (mem_map_of_mem (mem_range.mpr hm))

theorem bothHex_iff : BothHex a ↔ IsHexChar (a.toNat % 256) ∧ IsHexChar (a.toNat / 256) := by
  have hhex (y : BitVec 16) : IsHexNumAscii y ↔ IsHexChar y.toNat := Iff.rfl
  rw [BothHex, hhex, hhex, toNat_lowByte, toNat_highByte]

/-- The value of the two characters of a word. -/
theorem toNat_packedPair (junk : Junk) (ha : BothHex a) :
    ((packedDigit junk a <<< 4) + packedDigit junk (a >>> 8)).toNat =
      16 * charDigit junk false (a.toNat % 256) + charDigit junk false (a.toNat / 256) := by
  obtain ⟨hlow, hhigh⟩ := bothHex_iff.mp ha
  have hbyte : (a >>> 8).toNat % 256 = a.toNat / 256 := by
    rw [toNat_highByte]
    omega
  have hfirst := toNat_packedDigit junk hlow
  have hsecond := toNat_packedDigit junk (a := a >>> 8) (by rwa [hbyte])
  rw [hbyte] at hsecond
  have hbound (c : Nat) (hc : IsHexChar c) : charDigit junk false c < 256 := by
    rw [charDigit]
    split
    · exact Nat.lt_trans (hexDigit_lt hc) (by decide)
    · exact (junk.digit c).isLt
  have hless := hbound _ hlow
  have hless' := hbound _ hhigh
  rw [toNat_add, toNat_shiftLeft]
  omega

/-- Four characters in two words. -/
theorem packedValue_four (hws : ∀ m < 2, filled junk ws m = w m) :
    groupValue junk false ws =
      if FourHex (charOf false w) then
        .ok (BitVec.ofNat 16 (fourDigits fun m => charDigit junk false (charOf false w m).toNat))
      else .error .operands := by
  have hchars (j : Nat) : (charOf false w (2 * j)).toNat = (w j).toNat % 256 ∧
      (charOf false w (2 * j + 1)).toNat = (w j).toNat / 256 := by
    have heven : 2 * j % 2 = 0 ∧ 2 * j / 2 = j := by omega
    have hodd : ¬ (2 * j + 1) % 2 = 0 ∧ (2 * j + 1) / 2 = j := by omega
    constructor
    · rw [charOf, if_neg (by decide), if_pos heven.1, heven.2, toNat_lowByte]
    · rw [charOf, if_neg (by decide), if_neg hodd.1, hodd.2, toNat_highByte]
  have hdigits : FourHex (charOf false w) ↔ BothHex (w 0) ∧ BothHex (w 1) := by
    constructor
    · intro h
      exact ⟨⟨h 0 (by decide), h 1 (by decide)⟩, h 2 (by decide), h 3 (by decide)⟩
    · rintro ⟨⟨h0, h1⟩, h2, h3⟩ m hm
      interval_cases m
      · exact h0
      · exact h1
      · exact h2
      · exact h3
  rw [groupValue, if_neg (by decide), hws 0 (by decide), hws 1 (by decide), packedValue]
  by_cases hboth : BothHex (w 0) ∧ BothHex (w 1)
  · rw [if_pos hboth, if_pos (hdigits.mpr hboth)]
    refine congrArg ok (eq_of_toNat_eq ?_)
    have hchar0 : (charOf false w 0).toNat = (w 0).toNat % 256 := (hchars 0).1
    have hchar1 : (charOf false w 1).toNat = (w 0).toNat / 256 := (hchars 0).2
    have hchar2 : (charOf false w 2).toNat = (w 1).toNat % 256 := (hchars 1).1
    have hchar3 : (charOf false w 3).toNat = (w 1).toNat / 256 := (hchars 1).2
    rw [toNat_add, toNat_shiftLeft, toNat_packedPair junk hboth.1,
      toNat_packedPair junk hboth.2, toNat_ofNat, fourDigits, hchar0, hchar1, hchar2, hchar3]
    omega
  · rw [if_neg hboth, if_neg fun h => hboth (hdigits.mp h)]

theorem groupValue_eq (junk : Junk) (hws : ∀ m < charWords wide, filled junk ws m = w m) :
    groupValue junk wide ws =
      if FourHex (charOf wide w) then
        .ok (BitVec.ofNat 16 (fourDigits fun m => charDigit junk wide (charOf wide w m).toNat))
      else .error .operands := by
  cases wide with
  | true => exact wideValue_four hws
  | false => exact packedValue_four hws

/-- Digits that a block holds are taken right. -/
theorem kept_charDigit (hb : b.Proper) {c : Nat → Nat}
    (hdecimal : wide = false → ∀ m < 4, 4 ≤ m + b.size / 4 → c m ≤ 57) :
    b.kept (BitVec.ofNat 16 (fourDigits fun m => charDigit junk wide (c m))) =
      b.kept (BitVec.ofNat 16 (hexNumber c 4)) := by
  rw [hexNumber_four]
  refine kept_fourDigits hb fun m hm hheld => if_pos ?_
  cases wide with
  | true => exact .inl rfl
  | false => exact .inr (hdecimal rfl m hm hheld)

/-- Whatever lies behind the table, four characters are taken for a word just if they stand for
it. -/
theorem decodes_iff (hb : b.Proper)
    (hws : ∀ junk, ∀ m < charWords wide, filled junk ws m = w m) :
    (∀ junk, ∃ v, groupValue junk wide ws = .ok v ∧ b.kept v = x) ↔
      Decodes wide b (charOf wide w) x := by
  by_cases hdigits : FourHex (charOf wide w)
  · have hvalue (junk : Junk) : (∃ v, groupValue junk wide ws = .ok v ∧ b.kept v = x) ↔
        b.kept (BitVec.ofNat 16
          (fourDigits fun m => charDigit junk wide (charOf wide w m).toNat)) = x := by
      rw [groupValue_eq junk (hws junk), if_pos hdigits]
      constructor
      · rintro ⟨v, hv, hkept⟩
        cases hv
        exact hkept
      · intro hkept
        exact ⟨_, rfl, hkept⟩
    simp only [hvalue]
    constructor
    · intro h
      -- bytes behind the table that differ in all letters
      have hfirst := h ⟨fun _ => 0, fun _ => 0, fun _ => 0, 0⟩
      have hsecond := h ⟨fun _ => 0, fun _ => 0, fun _ => 1, 0⟩
      have hdecimal : wide = false → ∀ m < 4, 4 ≤ m + b.size / 4 →
          (charOf wide w m).toNat ≤ 57 := by
        rintro rfl m hm hheld
        have hsame := eq_of_kept_raised hb (fun m => ?_) (hfirst.trans hsecond.symm) m hm hheld
        · by_contra hletter
          simp only [charDigit, Bool.false_eq_true, false_or, if_neg hletter] at hsame
          exact absurd hsame (by decide)
        · simp only [charDigit]
          split
          · exact .inl rfl
          · exact .inr rfl
      exact ⟨hdigits, hdecimal, (kept_charDigit hb hdecimal).symm.trans hfirst⟩
    · intro h junk
      exact (kept_charDigit hb h.decimal).trans h.value
  · refine iff_of_false (fun h => ?_) fun h => hdigits h.digits
    obtain ⟨v, hv, -⟩ := h ⟨fun _ => 0, fun _ => 0, fun _ => 0, 0⟩
    rw [groupValue_eq _ (hws _), if_neg hdigits] at hv
    cases hv

/-- The characters of a word stand for it if it is a single digit, and no packed letter. -/
theorem decodes_of_hexChars {c : Nat → BitVec 16} (hx : x.toNat < 16)
    (hpacked : wide = false → x.toNat < 10) (hkept : b.kept x = x)
    (hc : ∀ m < 4, (c m).toNat = hexCharAt x m) : Decodes wide b c x where
  digits := fun m hm => by
    rw [hc m hm]
    exact isHexChar_hexChar (mod_lt _ (by decide))
  decimal := fun hwide m hm _ => by
    have hdecimal := hpacked hwide
    have hdigit : digitAt 16 x.toNat (3 - m) < 10 := by
      rw [digitAt]
      interval_cases m <;> omega
    rw [hc m hm, hexCharAt, hexChar, if_pos hdigit]
    omega
  value := by
    have hnumber : hexNumber (fun m => (c m).toNat) 4 = x.toNat % 16 ^ 4 :=
      (hexNumber_congr hc).trans (hexNumber_digits 4 x.toNat)
    have hx' : x.toNat % 16 ^ 4 = x.toNat := mod_eq_of_lt x.isLt
    rw [hnumber, hx', BitVec.ofNat_toNat, BitVec.setWidth_eq, hkept]

end

/-! ## From characters to words -/

/-- `ITA` on `n` words with power flow, and `ATI` on its output after it, with the same count and
the same mode. -/
structure AsciiTrip (junk : Junk) (out back : WordBlock) (n : Nat) (x : Nat → BitVec 16)
    (i j : BodyInput) : Prop extends ItaOf out n x i where
  power' : getPowerFlow j.inPF = true
  after : j.store = (runCiItaIns junk i).2.2
  size' : j.word 10 0 j.store = .ok (BitVec.ofNat 16 (4 * n))
  mode : asciiWide j = asciiWide i
  src : ∃ d, (j.operand 2).gotBlock j.store = some d ∧ d.Alike out ∧
    (0 < n → d.Fits (charWords (asciiWide i) * n))
  dest' : (j.operand 6).block j.store = some back
  destFits' : 0 < n → back.Fits n

section

variable (back : WordBlock) (n : Nat) (x : Nat → BitVec 16) (i j : BodyInput)

/-- The words stand where `ATI` saves them. -/
structure ReadsWords (r : BodyResult) : Prop where
  passes : r.1 = .ok ()
  words : ∀ k < n, back.read k r.2.2 = x k

/-- The characters of every word still stand for it after the words before it have been saved. If
the first byte of the operand is zero, only the first two packed characters are read: there is one
zero word, and the others are there already. -/
def AtiHolds : Prop :=
  if j.ucode.getPU8 (j.pc + 2) = 0 then
    asciiWide j = false ∧ x 0 = 0 ∧
      ∀ k < n, k ≠ 0 → back.read k (charsSaved x i (convertedWords n i)) = x k
  else ∀ k < n, ∃ w : Nat → BitVec 16,
    j.words 2 (charWords (asciiWide j) * k) (charWords (asciiWide j))
      (saveFirst (j.saveWords (j.pc + 6)) x k (charsSaved x i (convertedWords n i))) =
        .ok ((range (charWords (asciiWide j))).map w) ∧
    Decodes (asciiWide j) back (charOf (asciiWide j) w) (x k)

end

section

variable {junk junk' : Junk} {wide : Bool} {out back d : WordBlock} {n k m off : Nat}
variable {x : Nat → BitVec 16} {i j : BodyInput} {s u : Store} {y : BitVec 16}
variable {ws : List (BitVec 16)}

/-- As many words are got as are asked for, unless a literal is. -/
theorem length_words_of_gotBlock (hgot : (j.operand 2).gotBlock u = some d)
    (h : j.words 2 off m s = .ok ws) : ws.length = m := by
  have hget := outcome_eq_ok h
  rcases hform : (AddrType.ofCode (j.ucode.getPU8 (j.pc + 2 + 1))).bind (getWordTable j.level) with
    _ | _ | ⟨area, z⟩ | ⟨area, z, limit⟩
  · simp only [getWord, hform] at hget
    cases hget
  · have hnone : (j.operand 2).gotBlock u = none := by
      have hform : (j.operand 2).type.bind (getWordTable (j.operand 2).level) = _ := hform
      simp only [WordOperand.gotBlock, hform]
    rw [hnone] at hgot
    cases hgot
  · simp only [getWord, hform] at hget
    split at hget
    · cases hget
    · have hlen := length_getKnLoop (congrArg Prod.fst hget)
      rwa [hget] at hlen
  · simp only [getWord, hform] at hget
    have hlen := length_getLoop (congrArg Prod.fst hget)
    rwa [hget] at hlen

theorem atiValue_eq : atiValue junk j wide k s =
    (j.words 2 (charWords wide * k) (charWords wide) s).bind (groupValue junk wide) := by
  cases wide <;> rfl

/-- Whatever lies behind the table, `ATI` takes the characters that it gets for a word just if they
stand for it. -/
theorem atiValue_iff (hb : back.Proper) (hgot : (j.operand 2).gotBlock u = some d) :
    (∀ junk, ∃ v, atiValue junk j wide k s = .ok v ∧ back.kept v = y) ↔
      ∃ w : Nat → BitVec 16, j.words 2 (charWords wide * k) (charWords wide) s =
        .ok ((range (charWords wide)).map w) ∧ Decodes wide back (charOf wide w) y := by
  simp only [atiValue_eq]
  rcases hwords : j.words 2 (charWords wide * k) (charWords wide) s with e | ws
  · constructor
    · intro h
      obtain ⟨v, hv, -⟩ := h ⟨fun _ => 0, fun _ => 0, fun _ => 0, 0⟩
      cases hv
    · rintro ⟨w, hw, -⟩
      cases hw
  · have hlen := length_words_of_gotBlock hgot hwords
    have hlist (w : Nat → BitVec 16) : ws = (range (charWords wide)).map w →
        ∀ junk, ∀ m < charWords wide, filled junk ws m = w m := by
      rintro hws junk m hm
      rw [filled, hws, getD_eq_getElem?_getD, getElem?_map, getElem?_range hm]
      rfl
    constructor
    · intro h
      have hws : ws = (range (charWords wide)).map fun m => ws.getD m 0 := by
        refine ext_getElem (by simp [hlen]) fun m hm _ => ?_
        rw [getElem_map, getElem_range, getD_eq_getElem?_getD,
          getElem?_eq_getElem hm]
        rfl
      exact ⟨fun m => ws.getD m 0, congrArg ok hws, (decodes_iff hb (hlist _ hws)).mp h⟩
    · rintro ⟨w, hw, hdecodes⟩
      exact (decodes_iff hb (hlist w (ok.inj hw))).mpr hdecodes

/-- The pass of `ATI` for a word. -/
def atiMove (junk : Junk) (j : BodyInput) (k : Nat) : Move (BitVec 16) :=
  ⟨fun s => (atiValue junk j (asciiWide j) k s).map fun x => [x], j.pc + 6, k⟩

theorem toNat_charCount (hshort : 4 * n ≤ 256) : (BitVec.ofNat 16 (4 * n)).toNat = 4 * n := by
  exact mod_eq_of_lt (by omega)

/-- A pass that does not fail gets one word. -/
theorem single_of_map {r : Except PlcErr (BitVec 16)} (h : r.map (fun x => [x]) = .ok ws) :
    ∃ v, r = .ok v ∧ ws = [v] := by
  cases r with
  | error e => cases h
  | ok v => exact ⟨v, rfl, (ok.inj h).symm⟩

/-- `ATI` on all characters. -/
theorem ati_whole_iff (h : AsciiTrip junk out back n x i j) (hn : 0 < n)
    (hbyte : j.ucode.getPU8 (j.pc + 2) ≠ 0) :
    (∀ junk, ReadsWords back n x (runCiAtiIns junk j)) ↔ ∀ k < n, ∃ w : Nat → BitVec 16,
      j.words 2 (charWords (asciiWide j) * k) (charWords (asciiWide j))
        (saveFirst (j.saveWords (j.pc + 6)) x k j.store) =
          .ok ((range (charWords (asciiWide j))).map w) ∧
      Decodes (asciiWide j) back (charOf (asciiWide j) w) (x k) := by
  obtain ⟨d, hgot, -, -⟩ := h.src
  have hfill := fillsBlock_words h.dest' (h.destFits' hn)
  have hshort := h.short
  have hsize := toNat_charCount hshort
  have hright (junk : Junk) : ReadsWords back n x (runCiAtiIns junk j) ↔ ∀ k < n,
      ∃ v, atiValue junk j (asciiWide j) k (saveFirst (j.saveWords (j.pc + 6)) x k j.store) =
        .ok v ∧ back.kept v = x k := by
    have hmoves : atiMoves junk j = .ok ((range n).map (atiMove junk j)) := by
      have hcount : atiCount j = .ok (4 * n) := by
        simp only [atiCount, h.size', hsize, bind, Except.bind]
        rw [if_neg (by omega), if_neg hbyte]
        rfl
      have hwhole : 4 * n / 4 = n := by omega
      have hrest : 4 * n % 4 = 0 := by omega
      simp only [atiMoves, hcount, bind, Except.bind, hwhole, hrest, if_true, append_nil]
      rfl
    have hpasses : ∀ m ∈ (range n).map (atiMove junk j), ∀ u ws,
        ChangesOnly (back.Has n) j.store u → m.read u = .ok ws →
          (j.saveWords m.dst m.off ws u).1 = .ok () ∧
            ChangesOnly (back.Has n) j.store (j.saveWords m.dst m.off ws u).2 := by
      intro m hm u ws hu hread
      obtain ⟨l, hl, rfl⟩ := mem_map.mp hm
      have hl := mem_range.mp hl
      obtain ⟨v, -, rfl⟩ := single_of_map hread
      exact ⟨hfill.passes l hl v u hu, hfill.keeps l hl v u hu⟩
    have hloop := (runMoves_first_iff (g := x) (atiMove junk j)
      (fun k u => atiValue junk j (asciiWide j) k u) hfill changesOnly_refl
      fun k _ => ⟨rfl, rfl, fun u _ => by
        change ((atiValue junk j (asciiWide j) k u).map fun x => [x]).toOption = _
        rcases atiValue junk j (asciiWide j) k u with e | v <;> rfl⟩).2
    rw [runCiAtiIns, runChecked_eq h.power' hmoves, runMovesOn_eq hpasses changesOnly_refl,
      ← hloop]
    exact ⟨fun hreads => ⟨hreads.passes, hreads.words⟩, fun hreads => ⟨hreads.1, hreads.2⟩⟩
  simp only [hright]
  constructor
  · intro hall k hk
    exact (atiValue_iff (proper_of_block h.dest') hgot).mp fun junk => hall junk k hk
  · intro hall junk k hk
    exact (atiValue_iff (proper_of_block h.dest') hgot).mpr (hall k hk) junk

theorem ati_single_iff (h : AsciiTrip junk' out back n x i j) (hn : 0 < n)
    {f : Store → Except PlcErr (BitVec 16)}
    (hmoves : atiMoves junk j = .ok [⟨fun s => (f s).map fun x => [x], j.pc + 6, 0⟩])
    (hy : f j.store = .ok y) : ReadsWords back n x (runCiAtiIns junk j) ↔
      back.kept y = x 0 ∧ ∀ k < n, k ≠ 0 → back.read k j.store = x k := by
  have hsave := (fillsBlock_words h.dest' (h.destFits' hn)).toSavesBlock
  have hrun : runCiAtiIns junk j = ((j.saveWords (j.pc + 6) 0 [y] j.store).1, j.inPF,
      (j.saveWords (j.pc + 6) 0 [y] j.store).2) := by
    have hread : (f j.store).map (fun x => [x]) = .ok [y] := by
      rw [hy]
      rfl
    rw [runCiAtiIns, runChecked_eq h.power' hmoves]
    simp only [runMovesOn, hread]
  have hword (k : Nat) : back.read k (j.saveWords (j.pc + 6) 0 [y] j.store).2 =
      if k = 0 then back.kept y else back.read k j.store := by
    split
    · rename_i hk
      rw [hk]
      exact hsave.self 0 hn y _ changesOnly_refl
    · rename_i hk
      exact hsave.other 0 hn y _ changesOnly_refl k hk
  rw [hrun]
  constructor
  · intro hreads
    refine ⟨?_, fun k hk hne => ?_⟩
    · have hfirst := hreads.words 0 hn
      rwa [hword] at hfirst
    · have hother := hreads.words k hk
      rwa [hword, if_neg hne] at hother
  · rintro ⟨hfirst, hothers⟩
    refine ⟨hsave.passes 0 hn y _ changesOnly_refl, fun k hk => ?_⟩
    rw [hword]
    split
    · rename_i hzero
      rw [hzero]
      exact hfirst
    · rename_i hne
      exact hothers k hk hne

theorem ati_cut_iff (h : AsciiTrip junk' out back n x i j) (hholds : ItaHolds out n x i)
    (hbyte : j.ucode.getPU8 (j.pc + 2) = 0) :
    (∀ junk, ReadsWords back n x (runCiAtiIns junk j)) ↔ asciiWide j = false ∧ x 0 = 0 ∧
      ∀ k < n, k ≠ 0 → back.read k j.store = x k := by
  have hn := hholds.pos
  have hshort := h.short
  have hsize := toNat_charCount hshort
  have hproper := proper_of_block h.dest'
  have hdigit := (hholds.words 0 (convertedWords_pos hn)).1
  obtain ⟨d, hgot, halike, hfits⟩ := h.src
  have hwords {m : Nat} (hm : m ≤ charWords (asciiWide i)) :
      j.words 2 0 m j.store = .ok ((range m).map fun l => out.read l j.store) := by
    have hfit := (hfits hn).mono (show 0 + m ≤ _ from
      Nat.le_trans (by omega) (Nat.le_mul_of_pos_right (charWords (asciiWide i)) hn))
    refine (congrArg outcome (getWord_of_gotBlock hgot hfit)).trans (congrArg ok ?_)
    refine map_congr_left fun l _ => ?_
    rw [halike.read, Nat.zero_add]
  have hchars := ((ita_right_iff junk' h.toItaOf).mpr hholds).1.chars 0 hn
  rw [← h.after] at hchars
  have hzero : hexCharAt (x 0) 0 = 48 ∧ hexCharAt (x 0) 1 = 48 := by
    have hhigh : (x 0).toNat / 16 ^ 3 % 16 = 0 ∧ (x 0).toNat / 16 ^ 2 % 16 = 0 := by omega
    constructor
    · rw [hexCharAt, digitAt, hhigh.1]
      rfl
    · rw [hexCharAt, digitAt, hhigh.2]
      rfl
  rcases hmode : asciiWide i with _ | _
  · -- two packed characters
    rw [hmode] at hchars hwords
    have hwide : asciiWide j = false := h.mode.trans hmode
    have hfirst := (hchars 0 (by decide)).trans hzero.1
    have hsecond := (hchars 1 (by decide)).trans hzero.2
    change (out.read 0 j.store &&& 0xFF).toNat = 48 at hfirst
    change (out.read 0 j.store >>> 8).toNat = 48 at hsecond
    rw [toNat_lowByte] at hfirst
    rw [toNat_highByte] at hsecond
    have hboth : BothHex (out.read 0 j.store) := by
      rw [bothHex_iff, hfirst, hsecond]
      decide
    have hvalue (junk : Junk) : atiRest junk j false 0 2 j.store = .ok 0 := by
      have hpair := toNat_packedPair junk hboth
      rw [hfirst, hsecond] at hpair
      have hnone : (packedDigit junk (out.read 0 j.store) <<< 4) +
          packedDigit junk (out.read 0 j.store >>> 8) = 0 := eq_of_toNat_eq hpair
      have hread := hwords (m := 1) (by decide)
      simp only [atiRest, if_false, Nat.lt_irrefl, hread, bind]
      change ok (if BothHex (out.read 0 j.store) then _ else _) = _
      rw [if_pos hboth]
      exact congrArg ok hnone
    have hmoves (junk : Junk) : atiMoves junk j =
        .ok [⟨fun s => (atiRest junk j false 0 2 s).map fun x => [x], j.pc + 6, 0⟩] := by
      have hcount : atiCount j = .ok 2 := by
        simp only [atiCount, h.size', hsize, bind, Except.bind, hwide]
        rw [if_neg (by omega), if_pos hbyte]
        exact congrArg ok (show min (4 * n) 2 = 2 by omega)
      simp only [atiMoves, hcount, hwide]
      rfl
    have hkept : back.kept 0 = 0 := by
      refine eq_of_toNat_eq ?_
      rw [hproper.toNat_kept]
      exact zero_mod _
    have hsingle (junk : Junk) := ati_single_iff h hn (hmoves junk) (hvalue junk)
    rw [hkept] at hsingle
    constructor
    · intro hreads
      obtain ⟨hfirst, hothers⟩ := (hsingle junk').mp (hreads junk')
      exact ⟨hwide, hfirst.symm, hothers⟩
    · rintro ⟨-, hfirst, hothers⟩ junk
      exact (hsingle junk).mpr ⟨hfirst.symm, hothers⟩
  · -- one wide character, whose place is not the first one
    rw [hmode] at hwords hchars
    have hwide : asciiWide j = true := h.mode.trans hmode
    have hfirst := (hchars 0 (by decide)).trans hzero.1
    change (out.read 0 j.store).toNat = 48 at hfirst
    have hhex : IsHexNumAscii (out.read 0 j.store) := by
      rw [IsHexNumAscii, hfirst]
      decide
    have hvalue (junk : Junk) : atiRest junk j true 0 1 j.store =
        .ok (junk.single.setWidth 16) := by
      have hread := hwords (m := 4) (by decide)
      simp only [atiRest, hread]
      change (if IsHexNumAscii (out.read 0 j.store) then _ else _) = _
      rw [if_pos hhex]
    have hmoves (junk : Junk) : atiMoves junk j =
        .ok [⟨fun s => (atiRest junk j true 0 1 s).map fun x => [x], j.pc + 6, 0⟩] := by
      have hcount : atiCount j = .ok 1 := by
        simp only [atiCount, h.size', hsize, bind, Except.bind, hwide]
        rw [if_neg (by omega), if_pos hbyte]
        exact congrArg ok (show min (4 * n) 1 = 1 by omega)
      simp only [atiMoves, hcount, hwide]
      rfl
    refine iff_of_false (fun hreads => ?_) fun hright => ?_
    · have hsingle (junk : Junk) := ((ati_single_iff h hn (hmoves junk) (hvalue junk)).mp
        (hreads junk)).1
      have hnone := congrArg BitVec.toNat (hsingle ⟨fun _ => 0, fun _ => 0, fun _ => 0, 0⟩)
      have hone := congrArg BitVec.toNat (hsingle ⟨fun _ => 0, fun _ => 0, fun _ => 0, 1⟩)
      rw [hproper.toNat_kept] at hnone hone
      rcases hproper.size_cases with hsz | hsz | hsz | hsz <;> rw [hsz] at hnone hone <;>
        exact absurd (hnone.trans hone.symm) (by decide)
    · rw [hwide] at hright
      cases hright.1

theorem ascii_trip_iff (h : AsciiTrip junk out back n x i j) :
    (WritesChars out n x i (runCiItaIns junk i) ∧ StaysInTable junk n i ∧
        ∀ junk, ReadsWords back n x (runCiAtiIns junk j)) ↔
      ItaHolds out n x i ∧ AtiHolds back n x i j := by
  rw [← and_assoc, ita_right_iff junk h.toItaOf]
  refine and_congr_right fun hholds => ?_
  have hstore : j.store = charsSaved x i (convertedWords n i) := by
    rw [h.after, ita_saved h.toItaOf hholds]
  rw [AtiHolds, ← hstore]
  split
  · rename_i hbyte
    exact ati_cut_iff h hholds hbyte
  · rename_i hbyte
    exact ati_whole_iff h hholds.pos hbyte

end

/-! ## Which characters are taken -/

/-- The number of words that characters take up. -/
def charSpan (wide : Bool) (cnt : Nat) : Nat := if wide then cnt else (cnt + 1) / 2

/-- `ATI` with power flow on a sequence of characters in words `w`, which stay while words are saved
in the block `e`. A literal is one word. -/
structure CharsOf (w : Nat → BitVec 16) (cnt : BitVec 16) (e : WordBlock) (j : BodyInput) :
    Prop where
  power : getPowerFlow j.inPF = true
  size : j.word 10 0 j.store = .ok cnt
  short : cnt.toNat ≤ 256
  chars : ∀ k < charSpan (asciiWide j) cnt.toNat, j.word 2 k j.store = .ok (w k)
  source : charSpan (asciiWide j) cnt.toNat ≤ 1 ∨ ElementOperand j.ucode (j.pc + 2)
  dest : (j.operand 6).block j.store = some e
  destFits : 0 < cnt.toNat → e.Fits ((cnt.toNat + 3) / 4)
  stays : ∀ u, ChangesOnly (e.Has ((cnt.toNat + 3) / 4)) j.store u →
    ∀ k < cnt.toNat + 3, j.word 2 k u = j.word 2 k j.store

section

variable (w : Nat → BitVec 16) (cnt : Nat) (j : BodyInput)

/-- The number of characters that are read. -/
def atiChars : Nat :=
  if j.ucode.getPU8 (j.pc + 2) = 0 then min cnt (if asciiWide j then 1 else 2) else cnt

/-- The number of characters that are checked: those that are read, but not the last packed ones
that do not fill a word. -/
def checkedChars : Nat := if asciiWide j then atiChars cnt j else 4 * (atiChars cnt j / 4)

/-- Four words can be got for the last characters that do not fill a word, if they are wide. -/
def LastGroup : Prop := asciiWide j = true → atiChars cnt j % 4 ≠ 0 →
  ∀ m < 4, ∃ x, j.word 2 (4 * (atiChars cnt j / 4) + m) j.store = .ok x

/-- The sequence is taken just if all its characters are hexadecimal digits. -/
def TakesChars (r : BodyResult) : Prop :=
  r.1 = .ok () ↔ ∀ m < cnt, IsHexChar (charOf (asciiWide j) w m).toNat

/-- There is a character, and all are hexadecimal digits just if those that are checked are, and the
last words can be got. -/
def TakesHold : Prop :=
  0 < cnt ∧ (((∀ m < checkedChars cnt j, IsHexChar (charOf (asciiWide j) w m).toNat) ∧
    LastGroup cnt j) ↔ ∀ m < cnt, IsHexChar (charOf (asciiWide j) w m).toNat)

end

section

variable {junk : Junk} {wide : Bool} {w : Nat → BitVec 16} {cnt : BitVec 16} {e : WordBlock}
variable {j : BodyInput} {u : Store} {ws : List (BitVec 16)} {k m n r : Nat}

theorem charOf_group :
    charOf wide (fun p => w (charWords wide * k + p)) m = charOf wide w (4 * k + m) := by
  cases wide with
  | true => rfl
  | false =>
    have hplace : (4 * k + m) % 2 = m % 2 ∧ (4 * k + m) / 2 = 2 * k + m / 2 := by omega
    rw [charOf, charOf, hplace.1, hplace.2]
    rfl

theorem charSpan_le (wide : Bool) (n : Nat) : charSpan wide n ≤ n := by
  rw [charSpan]
  split <;> omega

/-- The words of a sequence are got while words are saved. -/
theorem CharsOf.words_ok (h : CharsOf w cnt e j)
    (hu : ChangesOnly (e.Has ((cnt.toNat + 3) / 4)) j.store u) (hm : 0 < m)
    (hspan : n + m ≤ charSpan (asciiWide j) cnt.toNat) : ∃ ws, j.words 2 n m u = .ok ws := by
  refine (words_ok_iff hm).mpr fun k hk => ⟨w (n + k), ?_⟩
  have hle := charSpan_le (asciiWide j) cnt.toNat
  rw [h.stays u hu _ (by omega)]
  exact h.chars _ (by omega)

theorem CharsOf.filled_eq (h : CharsOf w cnt e j)
    (hu : ChangesOnly (e.Has ((cnt.toNat + 3) / 4)) j.store u) (hws : j.words 2 n m u = .ok ws)
    (hk : k < m) (hspan : n + k < charSpan (asciiWide j) cnt.toNat) :
    filled junk ws k = w (n + k) := by
  have hle := charSpan_le (asciiWide j) cnt.toNat
  have hword := (h.stays u hu _ (by omega)).trans (h.chars _ hspan)
  have hsrc : k = 0 ∨ ElementOperand j.ucode (j.pc + 2) := by
    rcases h.source with hone | hop
    · exact .inl (by omega)
    · exact .inr hop
  rw [filled, getD_eq_getElem?_getD, words_getElem hws hk hsrc hword]
  rfl

/-- Four characters are taken if they are hexadecimal digits. -/
theorem CharsOf.group_iff (junk : Junk) (h : CharsOf w cnt e j)
    (hu : ChangesOnly (e.Has ((cnt.toNat + 3) / 4)) j.store u) (hk : 4 * k + 4 ≤ cnt.toNat) :
    (∃ v, atiValue junk j (asciiWide j) k u = .ok v) ↔
      ∀ m < 4, IsHexChar (charOf (asciiWide j) w (4 * k + m)).toNat := by
  have hspan : charWords (asciiWide j) * k + charWords (asciiWide j) ≤
      charSpan (asciiWide j) cnt.toNat := by
    rw [charWords, charSpan]
    split <;> omega
  obtain ⟨ws, hws⟩ := h.words_ok hu charWords_pos hspan
  have hvalue := groupValue_eq junk fun m hm =>
    h.filled_eq hu hws hm (Nat.lt_of_lt_of_le (Nat.add_lt_add_left hm _) hspan)
  have hchars : FourHex (charOf (asciiWide j) fun p => w (charWords (asciiWide j) * k + p)) ↔
      ∀ m < 4, IsHexChar (charOf (asciiWide j) w (4 * k + m)).toNat :=
    forall₂_congr fun m _ => by rw [charOf_group]
  rw [atiValue_eq, hws, ← hchars]
  change (∃ v, groupValue junk (asciiWide j) ws = .ok v) ↔ _
  rw [hvalue]
  by_cases hdigits : FourHex (charOf (asciiWide j) fun p => w (charWords (asciiWide j) * k + p))
  · rw [if_pos hdigits]
    exact iff_of_true ⟨_, rfl⟩ hdigits
  · rw [if_neg hdigits]
    refine iff_of_false ?_ hdigits
    rintro ⟨v, hv⟩
    cases hv

theorem wideRest_one {c : Nat → BitVec 16} (hr : r = 1) : wideRest junk r c =
    if IsHexNumAscii (c 0) then .ok (junk.single.setWidth 16) else .error .operands := by
  rw [wideRest.eq_def]
  split
  · rfl
  · rename_i hne
    exact absurd hr hne

theorem wideRest_more {c : Nat → BitVec 16} (hr : r ≠ 1) :
    wideRest junk r c = wideValue junk ((range r).map c) := by
  rw [wideRest.eq_def]
  split
  · exact absurd rfl hr
  · rfl

/-- The last characters are taken if they are hexadecimal digits, or packed. -/
theorem CharsOf.rest_iff (junk : Junk) (h : CharsOf w cnt e j)
    (hu : ChangesOnly (e.Has ((cnt.toNat + 3) / 4)) j.store u) (hr : 0 < r) (hr4 : r < 4)
    (hk : 4 * k + r ≤ cnt.toNat) :
    (∃ v, atiRest junk j (asciiWide j) k r u = .ok v) ↔ asciiWide j = true →
      (∀ m < 4, ∃ x, j.word 2 (4 * k + m) j.store = .ok x) ∧
        ∀ m < r, IsHexChar (charOf (asciiWide j) w (4 * k + m)).toNat := by
  rcases hmode : asciiWide j with _ | _
  · refine iff_of_true ?_ fun hwide => by cases hwide
    have hspan : 2 * k + (if 2 < r then 2 else 1) ≤ charSpan (asciiWide j) cnt.toNat := by
      have hnot : ¬ false = true := by decide
      rw [hmode, charSpan]
      split <;> omega
    have hpos : 0 < if 2 < r then 2 else 1 := by
      split
      · exact Nat.two_pos
      · exact Nat.one_pos
    obtain ⟨ws, hws⟩ := h.words_ok hu hpos hspan
    simp only [atiRest, hws]
    exact ⟨_, rfl⟩
  · have hspan : charSpan (asciiWide j) cnt.toNat = cnt.toNat := by
      rw [hmode, charSpan, if_pos rfl]
    have hgot : (∃ ws, j.words 2 (4 * k) 4 u = .ok ws) ↔
        ∀ m < 4, ∃ x, j.word 2 (4 * k + m) j.store = .ok x := by
      rw [words_ok_iff (by decide)]
      exact forall₂_congr fun m _ => by rw [h.stays u hu _ (by omega)]
    have hlead : (true = true → (∀ m < 4, ∃ x, j.word 2 (4 * k + m) j.store = .ok x) ∧
        ∀ m < r, IsHexChar (charOf true w (4 * k + m)).toNat) ↔
          (∃ ws, j.words 2 (4 * k) 4 u = .ok ws) ∧ ∀ m < r, IsHexNumAscii (w (4 * k + m)) := by
      rw [hgot]
      exact ⟨fun hboth => hboth rfl, fun hboth _ => hboth⟩
    rw [hlead]
    simp only [atiRest]
    rcases hws : j.words 2 (4 * k) 4 u with e' | ws
    · constructor
      · rintro ⟨v, hv⟩
        cases hv
      · rintro ⟨⟨ws, hws⟩, -⟩
        cases hws
    · have hfilled (m : Nat) (hm : m < r) : filled junk ws m = w (4 * k + m) :=
        h.filled_eq hu hws (by omega) (by omega)
      rw [and_iff_right ⟨ws, rfl⟩]
      change (∃ v, wideRest junk r (filled junk ws) = .ok v) ↔ _
      have hmany : (∃ v, wideValue junk ((range r).map (filled junk ws)) = .ok v) ↔
          ∀ m < r, IsHexNumAscii (w (4 * k + m)) := by
        have hall : (∀ y ∈ (range r).map (filled junk ws), IsHexNumAscii y) ↔
            ∀ m < r, IsHexNumAscii (w (4 * k + m)) := by
          rw [forall_mem_map]
          simp only [mem_range]
          exact forall₂_congr fun m hm => by rw [hfilled m hm]
        rw [← hall, wideValue]
        split
        · rename_i hdigits
          exact iff_of_true ⟨_, rfl⟩ hdigits
        · rename_i hdigits
          refine iff_of_false ?_ hdigits
          rintro ⟨v, hv⟩
          cases hv
      rcases eq_or_ne r 1 with rfl | hmore
      · rw [wideRest_one rfl, hfilled 0 Nat.one_pos]
        simp only [lt_one_iff, forall_eq]
        split
        · rename_i hdigit
          exact iff_of_true ⟨_, rfl⟩ hdigit
        · rename_i hdigit
          refine iff_of_false ?_ hdigit
          rintro ⟨v, hv⟩
          cases hv
      · rw [wideRest_more hmore]
        exact hmany

theorem atiChars_le : atiChars n j ≤ n := by
  rw [atiChars]
  split <;> omega

theorem CharsOf.atiMoves_eq (junk : Junk) (h : CharsOf w cnt e j) (hn : 0 < cnt.toNat) :
    atiMoves junk j = .ok ((range (atiChars cnt.toNat j / 4)).map (atiMove junk j) ++
      if atiChars cnt.toNat j % 4 = 0 then []
      else [⟨fun s => (atiRest junk j (asciiWide j) (atiChars cnt.toNat j / 4)
        (atiChars cnt.toNat j % 4) s).map fun x => [x], j.pc + 6, atiChars cnt.toNat j / 4⟩]) := by
  have hshort := h.short
  have hcount : atiCount j = .ok (atiChars cnt.toNat j) := by
    simp only [atiCount, h.size, bind, Except.bind, atiChars]
    rw [if_neg (by omega)]
    split <;> rfl
  simp only [atiMoves, hcount]
  rfl

theorem CharsOf.passes_iff (h : CharsOf w cnt e j) (hn : 0 < cnt.toNat) :
    (runCiAtiIns junk j).1 = .ok () ↔
      (∀ m < checkedChars cnt.toNat j, IsHexChar (charOf (asciiWide j) w m).toNat) ∧
        LastGroup cnt.toNat j := by
  have hfill := fillsBlock_words h.dest (h.destFits hn)
  have hle := atiChars_le (n := cnt.toNat) (j := j)
  have hmoves := h.atiMoves_eq junk hn
  rw [checkedChars, LastGroup]
  generalize atiChars cnt.toNat j = c at hle hmoves ⊢
  rw [runCiAtiIns, runChecked_eq h.power hmoves]
  have hgot {r : Except PlcErr (BitVec 16)} :
      (∃ ws, r.map (fun x => [x]) = .ok ws) ↔ ∃ v, r = .ok v := by
    constructor
    · rintro ⟨ws, hws⟩
      obtain ⟨v, hv, -⟩ := single_of_map hws
      exact ⟨v, hv⟩
    · rintro ⟨v, rfl⟩
      exact ⟨[v], rfl⟩
  -- the passes for whole words, and the one for the last characters
  let rest : Move (BitVec 16) :=
    ⟨fun s => (atiRest junk j (asciiWide j) (c / 4) (c % 4) s).map fun x => [x], j.pc + 6, c / 4⟩
  have hpass : (runMovesOn j.saveWords ((range (c / 4)).map (atiMove junk j) ++
        if c % 4 = 0 then [] else [rest]) (.ok ()) j.store).1 = .ok () ↔
      (∀ k < c / 4, ∀ m < 4, IsHexChar (charOf (asciiWide j) w (4 * k + m)).toNat) ∧
        (c % 4 ≠ 0 → asciiWide j = true →
          (∀ m < 4, ∃ x, j.word 2 (4 * (c / 4) + m) j.store = .ok x) ∧
            ∀ m < c % 4, IsHexChar (charOf (asciiWide j) w (4 * (c / 4) + m)).toNat) := by
    have hmem (m : Move (BitVec 16)) : (m ∈ (range (c / 4)).map (atiMove junk j) ++
        if c % 4 = 0 then [] else [rest]) ↔
          (∃ k < c / 4, atiMove junk j k = m) ∨ c % 4 ≠ 0 ∧ m = rest := by
      rw [mem_append, mem_map]
      refine or_congr (exists_congr fun k => and_congr_left fun _ => mem_range) ?_
      split
      · rename_i hzero
        exact iff_of_false (fun h => by cases h) fun h => h.1 hzero
      · rename_i hne
        rw [mem_singleton, and_iff_right hne]
    have hgroup (k : Nat) (hk : k < c / 4) (u : Store)
        (hu : ChangesOnly (e.Has ((cnt.toNat + 3) / 4)) j.store u) :=
      hgot.trans (h.group_iff junk hu (show 4 * k + 4 ≤ cnt.toNat by omega))
    have hlast (hne : c % 4 ≠ 0) (u : Store)
        (hu : ChangesOnly (e.Has ((cnt.toNat + 3) / 4)) j.store u) :=
      hgot.trans (h.rest_iff junk hu (Nat.pos_of_ne_zero hne)
        (mod_lt c (by decide)) (show 4 * (c / 4) + c % 4 ≤ cnt.toNat by omega))
    rw [runMovesOn_ok_iff (P := fun m => ∃ ws, m.read j.store = .ok ws) ?_ ?_
      (changesOnly_refl (A := e.Has ((cnt.toNat + 3) / 4)))]
    · simp only [hmem]
      constructor
      · intro hall
        refine ⟨fun k hk => ?_, fun hne => ?_⟩
        · exact (hgroup k hk _ changesOnly_refl).mp (hall _ (.inl ⟨k, hk, rfl⟩))
        · exact (hlast hne _ changesOnly_refl).mp (hall _ (.inr ⟨hne, rfl⟩))
      · rintro ⟨hgroups, hrest⟩ m (⟨k, hk, rfl⟩ | ⟨hne, rfl⟩)
        · exact (hgroup k hk _ changesOnly_refl).mpr (hgroups k hk)
        · exact (hlast hne _ changesOnly_refl).mpr (hrest hne)
    · intro m hm u ws hu hread
      rcases (hmem m).mp hm with ⟨k, hk, rfl⟩ | ⟨hne, rfl⟩
      · obtain ⟨v, -, rfl⟩ := single_of_map hread
        exact ⟨hfill.passes k (by omega) v u hu, hfill.keeps k (by omega) v u hu⟩
      · obtain ⟨v, -, rfl⟩ := single_of_map hread
        exact ⟨hfill.passes (c / 4) (by omega) v u hu, hfill.keeps (c / 4) (by omega) v u hu⟩
    · intro m hm u hu
      rcases (hmem m).mp hm with ⟨k, hk, rfl⟩ | ⟨hne, rfl⟩
      · exact (hgroup k hk u hu).trans (hgroup k hk _ changesOnly_refl).symm
      · exact (hlast hne u hu).trans (hlast hne _ changesOnly_refl).symm
  refine hpass.trans ?_
  have hwhole : (∀ k < c / 4, ∀ m < 4, IsHexChar (charOf (asciiWide j) w (4 * k + m)).toNat) ↔
      ∀ m < 4 * (c / 4), IsHexChar (charOf (asciiWide j) w m).toNat := by
    constructor
    · intro hgroups m hm
      have hplace : 4 * (m / 4) + m % 4 = m := div_add_mod m 4
      have hchar := hgroups (m / 4) (by omega) (m % 4) (mod_lt m (by decide))
      rwa [hplace] at hchar
    · intro hall k hk m hm
      exact hall _ (by omega)
  rw [hwhole]
  split
  · rename_i hwide
    constructor
    · rintro ⟨hgroups, hrest⟩
      refine ⟨fun m hm => ?_, fun _ hne => (hrest hne hwide).1⟩
      rcases Nat.lt_or_ge m (4 * (c / 4)) with hless | hge
      · exact hgroups m hless
      · have hchar := (hrest (by omega) hwide).2 (m - 4 * (c / 4)) (by omega)
        rwa [Nat.add_sub_cancel' hge] at hchar
    · rintro ⟨hall, hlast⟩
      exact ⟨fun m hm => hall m (by omega), fun hne _ =>
        ⟨hlast hwide hne, fun m hm => hall _ (by omega)⟩⟩
  · rename_i hwide
    exact and_congr_right fun _ =>
      iff_of_true (fun _ htrue => absurd htrue hwide) fun htrue => absurd htrue hwide

/-- `ATI` takes a sequence just if all its characters are hexadecimal digits, if those that it
checks tell so. -/
theorem takes_iff (h : CharsOf w cnt e j) :
    TakesChars w cnt.toNat j (runCiAtiIns junk j) ↔ TakesHold w cnt.toNat j := by
  rcases Nat.eq_zero_or_pos cnt.toNat with hzero | hn
  · have hcount : atiMoves junk j = .error .operands := by
      have hcnt : cnt = 0 := eq_of_toNat_eq hzero
      simp only [atiMoves, atiCount, h.size, hcnt]
      rfl
    refine iff_of_false (fun htakes => ?_) fun hhold => absurd hhold.1 (by omega)
    have hpass := htakes.mpr fun m hm => absurd hm (by omega)
    simp only [runCiAtiIns, runChecked, h.power, hcount] at hpass
    cases hpass
  · rw [TakesChars, TakesHold, and_iff_right hn, h.passes_iff hn]

/-- `ITA` and `ATI` convert words to characters and back just if the words hold, and `ATI` tells
hexadecimal characters just if those that it checks do. -/
theorem ascii_right_iff (junk' : Junk) {out back : WordBlock} {x : Nat → BitVec 16}
    {i i' : BodyInput} (htrip : AsciiTrip junk out back n x i i') (hchars : CharsOf w cnt e j) :
    (WritesChars out n x i (runCiItaIns junk i) ∧ StaysInTable junk n i ∧
        (∀ junk, ReadsWords back n x (runCiAtiIns junk i')) ↔
      ItaHolds out n x i ∧ AtiHolds back n x i i') ∧
    (TakesChars w cnt.toNat j (runCiAtiIns junk' j) ↔ TakesHold w cnt.toNat j) :=
  ⟨ascii_trip_iff htrip, takes_iff hchars⟩

end

/-! ## Samples -/

def d10z1Operand : List UInt8 := [1, 0x32, 10, 0]

def r0Operand : List UInt8 := [0, 0x1A, 0, 0]

def itaD0 (x : BitVec 16) : BodyInput := fromTo d0Operand d10z1Operand 4 (listFromD0 [x])

def atiD10 (x : BitVec 16) : BodyInput :=
  fromTo d10z1Operand r0Operand 4 (runCiItaIns noJunk (itaD0 x)).2.2

/-- The characters of 7. -/
def sevenChars (m : Nat) : BitVec 16 := if m = 0 then 0x3030 else 0x3730

theorem itaD0_of (x : BitVec 16) : ItaOf (.elems (.elem .D) 8000 10) 1 (fun _ => x) (itaD0 x) := by
  refine ⟨getPowerFlow_one, rfl, by decide, fun k hk => ?_, rfl, fun _ => ?_⟩
  · obtain rfl := lt_one_iff.mp hk
    rfl
  · exact (by decide : 10 + 2 * 1 ≤ 8000)

theorem seven_trip : AsciiTrip noJunk (.elems (.elem .D) 8000 10) (.elems (.elem .R) 32768 0) 1
    (fun _ => 7) (itaD0 7) (atiD10 7) where
  toItaOf := itaD0_of 7
  power' := getPowerFlow_one
  after := rfl
  size' := rfl
  mode := rfl
  src := ⟨.elems (.elem .D) 8000 10, rfl, .refl _, fun _ => (by decide : 10 + 2 * 1 ≤ 8000)⟩
  dest' := rfl
  destFits' := fun _ => (by decide : 0 + 1 ≤ 32768)

theorem seven_ita : ItaHolds (.elems (.elem .D) 8000 10) 1 (fun _ => 7) (itaD0 7) := by
  refine ⟨by decide, (by decide : 16 ≤ 16), fun k hk => ?_, fun k hk hbeyond => ?_⟩
  · obtain rfl : k = 0 := lt_one_iff.mp hk
    exact ⟨by decide, rfl⟩
  · obtain rfl := lt_one_iff.mp hk
    exact absurd hbeyond (by decide)

theorem seven_ati : AtiHolds (.elems (.elem .R) 32768 0) 1 (fun _ => 7) (itaD0 7) (atiD10 7) := by
  intro k hk
  obtain rfl := lt_one_iff.mp hk
  refine ⟨sevenChars, rfl, ?_⟩
  refine decodes_of_hexChars (by decide) (fun _ => by decide) rfl fun m hm => ?_
  interval_cases m <;> rfl

theorem seven_chars : CharsOf sevenChars 4 (.elems (.elem .R) 32768 0) (atiD10 7) := by
  refine ⟨getPowerFlow_one, rfl, by decide, fun k hk => ?_, .inr (by decide), rfl,
    fun _ => (by decide : 0 + 1 ≤ 32768), fun u hu k _ => ?_⟩
  · change k < 2 at hk
    interval_cases k <;> rfl
  · refine WordOperand.get_of_agree (o := (atiD10 7).operand 2)
      (fun c hc => hu.cells c ?_) fun c hc => hu.cells c ?_
    · obtain ⟨⟨r, rfl⟩, -⟩ := WordOperand.mem_gotRegister hc
      rintro ⟨l, -, hmem⟩
      cases mem_singleton.mp hmem
    · rintro ⟨l, -, hmem⟩
      rcases WordOperand.mem_gotCells hc with ⟨area, m, rfl⟩ | ⟨area, z, m, hform, -, rfl⟩
      · cases area <;> cases mem_singleton.mp hmem
      · obtain rfl : WordArea.elem .D = area := (WordForm.cells.inj (Option.some.inj hform)).1
        cases mem_singleton.mp hmem

theorem seven_takes : TakesHold sevenChars 4 (atiD10 7) := by
  have hall : ∀ m < 4, IsHexChar (charOf (asciiWide (atiD10 7)) sevenChars m).toNat := by
    intro m hm
    interval_cases m <;> decide
  exact ⟨by decide, iff_of_true ⟨hall, fun hwide => absurd hwide (by decide)⟩ hall⟩

/-- The digit 7 is written, read again, and taken for hexadecimal. -/
theorem ascii_right_seven :
    (WritesChars (.elems (.elem .D) 8000 10) 1 (fun _ => 7) (itaD0 7)
        (runCiItaIns noJunk (itaD0 7)) ∧
      StaysInTable noJunk 1 (itaD0 7) ∧
      ∀ junk, ReadsWords (.elems (.elem .R) 32768 0) 1 (fun _ => 7)
        (runCiAtiIns junk (atiD10 7))) ∧
    TakesChars sevenChars 4 (atiD10 7) (runCiAtiIns noJunk (atiD10 7)) := by
  obtain ⟨htrip, htakes⟩ := ascii_right_iff noJunk seven_trip seven_chars
  exact ⟨htrip.mpr ⟨seven_ita, seven_ati⟩, htakes.mpr seven_takes⟩

/-- For 18, an entry behind the table is read. -/
theorem ita_leaves_table : ¬ (WritesChars (.elems (.elem .D) 8000 10) 1 (fun _ => 18) (itaD0 18)
    (runCiItaIns noJunk (itaD0 18)) ∧ StaysInTable noJunk 1 (itaD0 18)) := by
  intro h
  have hdigit := (((ita_right_iff noJunk (itaD0_of 18)).mp h).words 0 (by decide)).1
  exact absurd hdigit (by decide)

end Kalyke
