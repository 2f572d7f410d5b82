-- SUMMARY: What the instructions on blocks leave behind when they fail.
import Kalyke.Exec.Moves

/-!
# Failing Blocks

An instruction that works on a block reads and saves one element after the other and returns at the
first that is out of range. It is to leave the elements as they were then, but what it has saved
before stays. So it leaves them as they were just if all that is saved up to the failure is there
already.
-/

namespace Kalyke

open List

/-! ## Values that are read -/

section

variable {α : Type} {i : BodyInput} {q off cnt n : Nat} {s : Store}

theorem length_getLoop {read : Nat → α} {limit stride k : Nat}
    (h : (getLoop read limit stride n k).1 = .ok ()) :
    (getLoop read limit stride n k).2.length = n := by
  induction n generalizing k with
  | zero => rfl
  | succ n ih =>
    rw [getLoop] at h ⊢
    split at h
    · rename_i hlt
      rw [if_pos hlt]
      exact congrArg Nat.succ (ih h)
    · cases h

theorem length_getKnLoop {w : Nat} {read : Nat → Bool} {limit width start : Nat}
    (h : (getKnLoop w read limit width start n off).1 = .ok ()) :
    (getKnLoop w read limit width start n off).2.length = n := by
  induction n generalizing off with
  | zero => rfl
  | succ n ih =>
    rw [getKnLoop] at h ⊢
    split at h
    · exact congrArg Nat.succ (ih h)
    · cases h

theorem outcome_eq_ok {r : Except PlcErr Unit × α} {x : α} (h : outcome r = .ok x) :
    r = (.ok (), x) := by
  obtain ⟨ret, y⟩ := r
  cases ret with
  | error e => cases h
  | ok v =>
    cases h
    rfl

/-- A single bit is read. -/
theorem length_chars {xs : List Bool} (h : i.chars q off cnt s = .ok xs) : xs.length = cnt := by
  have hget := outcome_eq_ok h
  rcases hform : (AddrType.ofCode (i.ucode.getPU8 (i.pc + q + 1))).bind (getCharTable i.level) with
    _ | ⟨area, z⟩
  · simp only [getChar, hform] at hget
    cases hget
  · simp only [getChar, hform] at hget
    have hlen := length_getLoop (congrArg Prod.fst hget)
    rwa [hget] at hlen

/-- A single word is read, be it a literal or not. -/
theorem length_words {xs : List (BitVec 16)} (h : i.words q off 1 s = .ok xs) : xs.length = 1 := by
  have hget := outcome_eq_ok h
  rcases hform : (AddrType.ofCode (i.ucode.getPU8 (i.pc + q + 1))).bind (getWordTable i.level) with
    _ | _ | ⟨area, z⟩ | ⟨area, z, limit⟩
  · simp only [getWord, hform] at hget
    cases hget
  · simp only [getWord, hform] at hget
    split at hget
    · cases hget
    · cases hget
      rfl
  · simp only [getWord, hform] at hget
    split at hget
    · cases hget
    · have hlen := length_getKnLoop (congrArg Prod.fst hget)
      rwa [hget] at hlen
  · simp only [getWord, hform] at hget
    have hlen := length_getLoop (congrArg Prod.fst hget)
    rwa [hget] at hlen

theorem map_eq_ok {β : Type} {f : α → β} {x : Except PlcErr α} {y : β} (h : x.map f = .ok y) :
    ∃ a, x = .ok a ∧ y = f a := by
  cases x with
  | error e => cases h
  | ok a =>
    cases h
    exact ⟨a, rfl, rfl⟩

theorem bind_eq_ok {β : Type} {f : α → Except PlcErr β} {x : Except PlcErr α} {y : β}
    (h : (x >>= f) = .ok y) : ∃ a, x = .ok a ∧ f a = .ok y := by
  cases x with
  | error e => cases h
  | ok a => exact ⟨a, rfl, h⟩

theorem ite_eq_ok {cond : Prop} [Decidable cond] {e : PlcErr} {x : Except PlcErr α} {y : α}
    (h : (if cond then .error e else x) = .ok y) : ¬ cond ∧ x = .ok y := by
  split at h
  · cases h
  · rename_i hcond
    exact ⟨hcond, h⟩

end

/-! ## Bodies -/

section

variable (i : BodyInput)

def BodyInput.charsHeld (dst off : Nat) (xs : List Bool) (s : Store) : Prop :=
  CharsHeld i.ucode dst s i.level off xs

def BodyInput.wordsHeld (dst off : Nat) (xs : List (BitVec 16)) (s : Store) : Prop :=
  WordsHeld i.ucode dst s i.level off xs

def BodyInput.dwordsHeld (dst off : Nat) (xs : List (BitVec 32)) (s : Store) : Prop :=
  DwordsHeld i.ucode dst s i.level off xs

/-- The loop over bits that follows the checks is harmless. -/
def HarmlessChars (moves : BodyInput → Except PlcErr (List (Move Bool))) : Prop :=
  ∀ ms, moves i = .ok ms → Harmless i.saveChars i.charsHeld ms i.store

def HarmlessWords (moves : BodyInput → Except PlcErr (List (Move (BitVec 16)))) : Prop :=
  ∀ ms, moves i = .ok ms → Harmless i.saveWords i.wordsHeld ms i.store

def HarmlessDwords (moves : BodyInput → Except PlcErr (List (Move (BitVec 32)))) : Prop :=
  ∀ ms, moves i = .ok ms → Harmless i.saveDwords i.dwordsHeld ms i.store

/-- The loop that follows the checks and does not stop where a value cannot be saved is harmless. -/
def HarmlessOnWords (moves : BodyInput → Except PlcErr (List (Move (BitVec 16)))) : Prop :=
  ∀ ms, moves i = .ok ms → HarmlessOn i.wordsHeld ms i.store

/-- The loop of `FIFO` is harmless, and so is it that the flag for an empty queue is reset
before. -/
def HarmlessFifo : Prop :=
  ∀ len, fifoLength i = .ok len → i.store.getBit (.elem .SM) 180 = false ∧
    Harmless i.saveWords i.wordsHeld (fifoMoves i len) i.store

end

/-- Where a body fails under a condition, the elements are as they were before. -/
def CleanIf (body : BodyInput → BodyResult) (cond : BodyInput → Prop) : Prop :=
  ∀ i e, (body i).1 = .error e → cond i → (body i).2.2 = i.store

/-- Where a body fails, the elements are as they were before just if a condition holds. -/
def CleanJustIf (body : BodyInput → BodyResult) (cond : BodyInput → Prop) : Prop :=
  ∀ i e, (body i).1 = .error e → ((body i).2.2 = i.store ↔ cond i)

section

variable {α : Type} {i : BodyInput} {dst off : Nat} {s : Store}

theorem saveChars_held (dst off : Nat) (xs : List Bool) (s : Store) :
    (i.saveChars dst off xs s).2 = s ↔ i.charsHeld dst off xs s := saveChar_eq_iff

theorem saveWords_held (dst off : Nat) (xs : List (BitVec 16)) (s : Store) :
    (i.saveWords dst off xs s).2 = s ↔ i.wordsHeld dst off xs s := saveWord_eq_iff

theorem saveDwords_held (dst off : Nat) (xs : List (BitVec 32)) (s : Store) :
    (i.saveDwords dst off xs s).2 = s ↔ i.dwordsHeld dst off xs s := saveDword_eq_iff

/-- A body leaves the elements alone when it fails just if what follows its checks does. -/
theorem cleanJustIf_runChecked {checked : BodyInput → Except PlcErr α}
    {run : BodyInput → α → Store → Except PlcErr Unit × Store} {cond : BodyInput → α → Prop}
    (h : ∀ i x, checked i = .ok x → ((run i x i.store).2 = i.store ↔ cond i x)) :
    CleanJustIf (fun i => runChecked i (checked i) (run i))
      fun i => ∀ x, checked i = .ok x → cond i x := by
  intro i e hfail
  simp only [runChecked] at hfail ⊢
  by_cases hpf : getPowerFlow i.inPF
  · rw [if_pos hpf] at hfail ⊢
    rcases hchecked : checked i with e' | x
    · exact iff_of_true rfl nofun
    · rw [h i x hchecked]
      exact ⟨fun hcond x' hx' => Except.ok.inj hx' ▸ hcond, fun hcond => hcond x rfl⟩
  · rw [if_neg hpf] at hfail
    cases hfail

theorem cleanIf_runChecked {checked : BodyInput → Except PlcErr α}
    {run : BodyInput → α → Store → Except PlcErr Unit × Store} {cond : BodyInput → α → Prop}
    (h : ∀ i x e, checked i = .ok x → (run i x i.store).1 = .error e → cond i x →
      (run i x i.store).2 = i.store) :
    CleanIf (fun i => runChecked i (checked i) (run i))
      fun i => ∀ x, checked i = .ok x → cond i x := by
  intro i e hfail hcond
  simp only [runChecked] at hfail ⊢
  by_cases hpf : getPowerFlow i.inPF
  · rw [if_pos hpf] at hfail ⊢
    rcases hchecked : checked i with e' | x
    · rfl
    · rw [hchecked] at hfail
      exact h i x e hchecked hfail (hcond x hchecked)
  · rw [if_neg hpf] at hfail
    cases hfail

/-- Loops over consecutive words. -/
theorem words_clean_iff {ms : List (Move (BitVec 16))} (hc : Consecutive dst off ms) :
    (runMoves i.saveWords ms s).2 = s ↔ Harmless i.saveWords i.wordsHeld ms s := by
  obtain ⟨l, inv, hinv, hl, -⟩ := exists_lane_words i.ucode dst i.level s
  exact ⟨harmless_of_consecutive saveWords_held hl hc hinv, Harmless.eq saveWords_held⟩

theorem dwords_clean_iff {ms : List (Move (BitVec 32))} (hc : Consecutive dst off ms) :
    (runMoves i.saveDwords ms s).2 = s ↔ Harmless i.saveDwords i.dwordsHeld ms s := by
  obtain ⟨l, inv, hinv, hl⟩ := exists_lane_dwords i.ucode dst i.level s
  exact ⟨harmless_of_consecutive saveDwords_held hl hc hinv, Harmless.eq saveDwords_held⟩

theorem chars_clean_iff {ms : List (Move Bool)} (hc : Consecutive dst off ms) :
    (runMoves i.saveChars ms s).2 = s ↔ Harmless i.saveChars i.charsHeld ms s := by
  obtain ⟨l, inv, hinv, hl, -⟩ := exists_lane_chars i.ucode dst i.level s
  exact ⟨harmless_of_consecutive saveChars_held hl hc hinv, Harmless.eq saveChars_held⟩

/-- Loops that go on, over consecutive words with small offsets. -/
theorem wordsOn_clean_iff {ms : List (Move (BitVec 16))} {ret : Except PlcErr Unit}
    (hc : Consecutive dst off ms)
    (hbound : ∀ m ∈ ms, ∀ s xs, m.read s = .ok xs → m.off + xs.length ≤ 4096) :
    (runMovesOn i.saveWords ms ret s).2 = s ↔ HarmlessOn i.wordsHeld ms s := by
  obtain ⟨l, inv, hinv, hlane, hstep⟩ := exists_lane_words i.ucode dst i.level s
  have hl : LaneOf (i.saveWords dst) inv l := hlane
  refine ⟨harmlessOn_of_eq saveWords_held (marks_of_lane hl fun m hm => (hc.of_mem hm).1)
    (apart_of_misses hl hc.misses fun m hm s xs hread => ?_) hinv, HarmlessOn.eq saveWords_held⟩
  exact Nat.mul_le_mul (hbound m hm s xs hread) hstep

theorem bmov_consecutive {ms : List (Move (BitVec 16))} (h : bmovMoves i = .ok ms) :
    Consecutive (i.pc + 6) 0 ms := by
  obtain ⟨cnt, -, h⟩ := bind_eq_ok h
  cases (ite_eq_ok h).2
  rw [← append_nil (map _ _)]
  exact consecutive_range Nat.one_pos
    (fun j _ => ⟨rfl, by dsimp only; omega, fun s xs hread => length_words hread⟩) trivial

theorem fmov_consecutive {ms : List (Move (BitVec 16))} (h : fmovMoves i = .ok ms) :
    Consecutive (i.pc + 6) 0 ms := by
  obtain ⟨cnt, -, h⟩ := bind_eq_ok h
  obtain ⟨x, -, h⟩ := bind_eq_ok (ite_eq_ok h).2
  cases h
  rw [← append_nil (map _ _)]
  exact consecutive_range Nat.one_pos
    (fun j _ => ⟨rfl, by dsimp only; omega, fun s xs hread => by cases hread; rfl⟩) trivial

theorem dfmov_consecutive {ms : List (Move (BitVec 32))} (h : dfmovMoves i = .ok ms) :
    Consecutive (i.pc + 8) 0 ms := by
  obtain ⟨cnt, -, h⟩ := bind_eq_ok h
  obtain ⟨x, -, h⟩ := bind_eq_ok (ite_eq_ok h).2
  cases h
  rw [← append_nil (map _ _)]
  exact consecutive_range Nat.one_pos
    (fun j _ => ⟨rfl, by dsimp only; omega, fun s xs hread => by cases hread; rfl⟩) trivial

theorem sftr_consecutive {ms : List (Move Bool)} (h : sftrMoves i = .ok ms) :
    Consecutive (i.pc + 6) 0 ms := by
  obtain ⟨⟨s1, s2⟩, -, h⟩ := bind_eq_ok h
  cases h
  refine consecutive_range Nat.one_pos
    (fun j _ => ⟨rfl, by dsimp only; omega, fun s xs hread => length_chars hread⟩) ?_
  rw [← append_nil (map _ (range s2))]
  exact consecutive_range Nat.one_pos
    (fun j _ => ⟨rfl, by dsimp only; omega, fun s xs hread => length_chars hread⟩) trivial

theorem wsfr_consecutive {ms : List (Move (BitVec 16))} (h : wsfrMoves i = .ok ms) :
    Consecutive (i.pc + 6) 0 ms := by
  obtain ⟨⟨destLen, srcLen⟩, -, h⟩ := bind_eq_ok h
  cases h
  refine consecutive_range Nat.one_pos
    (fun j _ => ⟨rfl, by dsimp only; omega, fun s xs hread => length_words hread⟩) ?_
  rw [← append_nil (map _ (range srcLen))]
  exact consecutive_range Nat.one_pos
    (fun j _ => ⟨rfl, by dsimp only; omega, fun s xs hread => length_words hread⟩) trivial

theorem wtob_consecutive {ms : List (Move (BitVec 16))} (h : wtobMoves i = .ok ms) :
    Consecutive (i.pc + 6) 0 ms := by
  obtain ⟨cnt, -, h⟩ := bind_eq_ok h
  cases h
  refine consecutive_range Nat.two_pos
    (fun j _ => ⟨rfl, by dsimp only; omega, fun s xs hread => ?_⟩) ?_
  · obtain ⟨x, -, rfl⟩ := map_eq_ok hread
    rfl
  · split
    · refine consecutive_single rfl (by dsimp only; omega) Nat.one_pos fun s xs hread => ?_
      obtain ⟨x, -, rfl⟩ := map_eq_ok hread
      rfl
    · trivial

theorem btow_consecutive {junk : Junk} {ms : List (Move (BitVec 16))}
    (h : btowMoves junk i = .ok ms) : Consecutive (i.pc + 6) 0 ms := by
  obtain ⟨cnt, -, h⟩ := bind_eq_ok h
  cases h
  refine consecutive_range Nat.one_pos
    (fun j _ => ⟨rfl, by dsimp only; omega, fun s xs hread => ?_⟩) ?_
  · obtain ⟨x, -, rfl⟩ := map_eq_ok hread
    rfl
  · split
    · refine consecutive_single rfl (by dsimp only; omega) Nat.one_pos fun s xs hread => ?_
      obtain ⟨x, -, rfl⟩ := map_eq_ok hread
      rfl
    · trivial

end

section

variable {i : BodyInput} {s : Store}

theorem toNat_lt_of_nonneg {x : BitVec 16} (h : 0 ≤ x.toInt) : x.toNat < 32768 := by
  rw [BitVec.toInt_eq_toNat_cond] at h
  split at h
  · omega
  · have hlt := x.isLt
    omega

/-- The pass of the first loop of `WSFL` with its counter at `k`. -/
def wsflMove (i : BodyInput) (srcLen k : Nat) : Move (BitVec 16) :=
  ⟨i.words 6 (k - srcLen - 1) 1, i.pc + 6, k - 1⟩

/-- The first loop of `WSFL` does not come to its end. -/
theorem wsflLoop_endless {destLen srcLen : Nat} (hlt : srcLen < destLen) (hdest : destLen < 32768) :
    ∃ l inv, inv s ∧ LaneOf (i.saveWords (i.pc + 6)) inv l ∧
      Consecutive (i.pc + 6) (destLen - 1)
        ((wsflCounter destLen srcLen).map (wsflMove i srcLen)) ∧
      (wsflCounter destLen srcLen).map (wsflMove i srcLen) ≠ [] ∧
      32768 < l.at (destLen - 1) +
        l.step * ((wsflCounter destLen srcLen).map (wsflMove i srcLen)).length := by
  rw [wsflCounter, if_pos hlt]
  obtain ⟨l, inv, hinv, hlane, -⟩ := exists_lane_words i.ucode (i.pc + 6) i.level s
  have hl : LaneOf (i.saveWords (i.pc + 6)) inv l := hlane
  have hc : Consecutive (i.pc + 6) (destLen - 1)
      ((range' destLen (65536 - destLen)).map (wsflMove i srcLen) ++ []) :=
    consecutive_range' Nat.one_pos
      (fun j _ => ⟨rfl, by simp only [wsflMove]; omega, fun s xs hread => length_words hread⟩) trivial
  rw [append_nil] at hc
  have hstep : 1 ≤ l.step := Nat.le_trans hl.unit_pos hl.unit_le
  have hlength : ((range' destLen (65536 - destLen)).map (wsflMove i srcLen)).length =
      65536 - destLen := by
    rw [length_map, length_range']
  refine ⟨l, inv, hinv, hl, hc, fun hnil => ?_, ?_⟩
  · rw [hnil, length_nil] at hlength
    omega
  · have hmul := Nat.mul_le_mul_right (65536 - destLen) hstep
    rw [hlength]
    omega

/-- `WSFL` is harmless just if its first loop is, as that does not come to its end. -/
theorem wsfl_clean_iff {ms : List (Move (BitVec 16))} (h : wsflMoves i = .ok ms) :
    (runMoves i.saveWords ms s).2 = s ↔ Harmless i.saveWords i.wordsHeld ms s := by
  obtain ⟨⟨destLen, srcLen⟩, hshift, h⟩ := bind_eq_ok h
  cases h
  have hdest : destLen < 32768 := by
    obtain ⟨x, -, hshift⟩ := bind_eq_ok hshift
    obtain ⟨y, -, hshift⟩ := bind_eq_ok hshift
    obtain ⟨hsigns, hshift⟩ := ite_eq_ok hshift
    cases hshift
    exact toNat_lt_of_nonneg (by omega)
  by_cases hlt : srcLen < destLen
  · refine ⟨fun heq => ?_, Harmless.eq saveWords_held⟩
    obtain ⟨l, inv, hinv, hl, hc, hne, hlong⟩ := wsflLoop_endless (i := i) (s := s) hlt hdest
    have hloop := (congrArg Prod.snd (runMoves_endless hl hc hinv hne hlong)).symm.trans heq
    exact harmless_endless hl hc hinv hne hlong
      (harmless_of_consecutive saveWords_held hl hc hinv hloop)
  · rw [wsflCounter, if_neg hlt, map_nil, nil_append]
    have hc : Consecutive (i.pc + 6) 0 (((range srcLen).map
        fun k => (⟨i.words 2 k 1, i.pc + 6, k⟩ : Move (BitVec 16))) ++ []) :=
      consecutive_range Nat.one_pos
        (fun j _ => ⟨rfl, by dsimp only; omega, fun s xs hread => length_words hread⟩) trivial
    rw [append_nil] at hc
    exact words_clean_iff hc

/-- `SFTL` works from the last bit down, and then from the first bit up to where it came to. -/
theorem sftl_clean_iff {ms : List (Move Bool)} (h : sftlMoves i = .ok ms) :
    (runMoves i.saveChars ms s).2 = s ↔ Harmless i.saveChars i.charsHeld ms s := by
  obtain ⟨⟨s1, s2⟩, hshift, h⟩ := bind_eq_ok h
  cases h
  have hbits : s2 ≤ s1 ∧ s1 ≤ 1024 := by
    obtain ⟨x, -, hshift⟩ := bind_eq_ok hshift
    obtain ⟨y, -, hshift⟩ := bind_eq_ok hshift
    obtain ⟨hsigns, hshift⟩ := ite_eq_ok hshift
    cases (ite_eq_ok hshift).2
    have hx := x.toInt_eq_toNat_cond
    have hy := y.toInt_eq_toNat_cond
    split at hx <;> split at hy <;> omega
  obtain ⟨l, inv, hinv, hlane, hstep⟩ := exists_lane_chars i.ucode (i.pc + 6) i.level s
  have hl : LaneOf (i.saveChars (i.pc + 6)) inv l := hlane
  refine ⟨harmless_of_eq saveChars_held (marks_of_lane hl ?_) (apart_of_misses hl ?_ ?_) hinv,
    Harmless.eq saveChars_held⟩
  · intro m hm
    rcases mem_append.mp hm with hm | hm
    · obtain ⟨k, -, rfl⟩ := mem_map.mp hm
      rfl
    · obtain ⟨k, -, rfl⟩ := mem_map.mp hm
      rfl
  · refine pairwise_append.mpr ⟨?_, ?_, ?_⟩
    · refine pairwise_map.mpr ((pairwise_lt_range).imp_of_mem ?_)
      intro k k' hk hk' hlt t t' xs xs' hread hread'
      have hlen' := length_chars hread'
      have hrange := mem_range.mp hk'
      dsimp only
      omega
    · refine pairwise_map.mpr ((pairwise_lt_range).imp ?_)
      intro k k' hlt t t' xs xs' hread hread'
      have hlen := length_chars hread
      dsimp only
      omega
    · intro m hm m' hm' t t' xs xs' hread hread'
      obtain ⟨k, hk, rfl⟩ := mem_map.mp hm
      obtain ⟨k', hk', rfl⟩ := mem_map.mp hm'
      have hlen' := length_chars hread'
      have hrange := mem_range.mp hk
      have hrange' := mem_range.mp hk'
      dsimp only
      omega
  · intro m hm t xs hread
    rw [hstep]
    rcases mem_append.mp hm with hm | hm
    · obtain ⟨k, hk, rfl⟩ := mem_map.mp hm
      have hlen := length_chars hread
      dsimp only
      omega
    · obtain ⟨k, hk, rfl⟩ := mem_map.mp hm
      have hlen := length_chars hread
      have hrange := mem_range.mp hk
      dsimp only
      omega

theorem length_packAscii (wide : Bool) (xs : List (BitVec 16)) :
    (packAscii wide xs).length = if wide then xs.length else (xs.length + 1) / 2 := by
  fun_induction packAscii wide xs with
  | case1 a b cs hwide ih =>
    rw [if_pos hwide] at ih ⊢
    simp [ih]
  | case2 a b cs hwide ih =>
    rw [if_neg hwide] at ih ⊢
    simp only [length_cons]
    omega
  | case3 cs hcs =>
    rcases cs with _ | ⟨a, _ | ⟨b, cs⟩⟩
    · simp
    · simp
    · exact absurd rfl (hcs a b cs)

/-- What `ITA` saves of a word: as many characters as it is asked for, in words of their own or two
to a word. -/
theorem itaMove_yields {junk : Junk} {wide : Bool} {k cnt : Nat} (hcnt : cnt ≤ 4) :
    (itaMove junk i wide k cnt).Yields (if wide then cnt else (cnt + 1) / 2) := by
  intro s xs hread
  obtain ⟨x, -, rfl⟩ := map_eq_ok hread
  rw [length_packAscii, length_take, asciiOf]
  simp only [length_cons, length_nil]
  rw [Nat.min_eq_left hcnt]

theorem ita_consecutive {junk : Junk} {ms : List (Move (BitVec 16))}
    (h : itaMoves junk i = .ok ms) :
    Consecutive (i.pc + 6) 0 ms ∧
      ∀ m ∈ ms, ∀ s xs, m.read s = .ok xs → m.off + xs.length ≤ 4096 := by
  obtain ⟨cnt, hcnt, h⟩ := bind_eq_ok h
  cases h
  have hle : cnt ≤ 256 := by
    obtain ⟨x, -, hcnt⟩ := bind_eq_ok hcnt
    obtain ⟨hrange, hcnt⟩ := ite_eq_ok hcnt
    split at hcnt <;> cases hcnt <;> omega
  generalize asciiWide i = wide
  constructor
  · have hwords : 0 < if wide then 4 else 2 := by
      split <;> decide
    refine consecutive_range hwords (fun j _ => ⟨rfl, ?_, itaMove_yields (Nat.le_refl 4)⟩) ?_
    · cases wide <;> simp [itaMove]
    · by_cases hrest : cnt % 4 = 0
      · rw [if_pos hrest]
        trivial
      · rw [if_neg hrest]
        refine consecutive_single rfl ?_ ?_ (itaMove_yields (by omega))
        · cases wide <;> simp [itaMove]
        · cases wide <;> simp <;> omega
  · intro m hm s xs hread
    rcases mem_append.mp hm with hm | hm
    · obtain ⟨k, hk, rfl⟩ := mem_map.mp hm
      have hrange := mem_range.mp hk
      rw [itaMove_yields (Nat.le_refl 4) s xs hread]
      cases wide <;> simp [itaMove] <;> omega
    · split at hm
      · cases hm
      · cases mem_singleton.mp hm
        rw [itaMove_yields (by omega) s xs hread]
        cases wide <;> simp [itaMove] <;> omega

theorem ati_consecutive {junk : Junk} {ms : List (Move (BitVec 16))}
    (h : atiMoves junk i = .ok ms) :
    Consecutive (i.pc + 6) 0 ms ∧
      ∀ m ∈ ms, ∀ s xs, m.read s = .ok xs → m.off + xs.length ≤ 4096 := by
  obtain ⟨cnt, hcnt, h⟩ := bind_eq_ok h
  cases h
  have hle : cnt ≤ 256 := by
    obtain ⟨x, -, hcnt⟩ := bind_eq_ok hcnt
    obtain ⟨hrange, hcnt⟩ := ite_eq_ok hcnt
    split at hcnt <;> cases hcnt <;> omega
  constructor
  · refine consecutive_range Nat.one_pos (fun j _ => ⟨rfl, by dsimp only; omega, ?_⟩) ?_
    · intro s xs hread
      obtain ⟨x, -, rfl⟩ := map_eq_ok hread
      rfl
    · split
      · trivial
      · refine consecutive_single rfl (by dsimp only; omega) Nat.one_pos fun s xs hread => ?_
        obtain ⟨x, -, rfl⟩ := map_eq_ok hread
        rfl
  · intro m hm s xs hread
    rcases mem_append.mp hm with hm | hm
    · obtain ⟨k, hk, rfl⟩ := mem_map.mp hm
      have hrange := mem_range.mp hk
      obtain ⟨x, -, rfl⟩ := map_eq_ok hread
      rw [length_singleton]
      dsimp only
      omega
    · split at hm
      · cases hm
      · cases mem_singleton.mp hm
        obtain ⟨x, -, rfl⟩ := map_eq_ok hread
        rw [length_singleton]
        dsimp only
        omega

theorem setBit_eq_iff {area : BitArea} {k : Nat} {b : Bool} :
    s.setBit area k b = s ↔ s.getBit area k = b := by
  constructor
  · intro h
    rw [← h, getBit_setBit_self]
  · rintro rfl
    refine changesOnly_none_iff.mp ⟨fun c _ => ?_, rest_setBit⟩
    by_cases hc : c = area.cell k
    · rw [hc, area.read_cell, area.read_cell, getBit_setBit_self]
    · exact read_setBit hc _

theorem fifo_clean {len : Nat} {e : PlcErr}
    (hfail : (if len = 0 then ((.ok () : Except PlcErr Unit),
        (i.store.setBit (.elem .SM) 180 false).setBit (.elem .SM) 180 true)
      else runMoves i.saveWords (fifoMoves i len) (i.store.setBit (.elem .SM) 180 false)).1 =
        .error e)
    (h : i.store.getBit (.elem .SM) 180 = false ∧
      Harmless i.saveWords i.wordsHeld (fifoMoves i len) i.store) :
    (if len = 0 then ((.ok () : Except PlcErr Unit),
        (i.store.setBit (.elem .SM) 180 false).setBit (.elem .SM) 180 true)
      else runMoves i.saveWords (fifoMoves i len) (i.store.setBit (.elem .SM) 180 false)).2 =
        i.store := by
  split at hfail
  · cases hfail
  · rename_i hlen
    rw [if_neg hlen, setBit_eq_iff.mpr h.1]
    exact Harmless.eq saveWords_held h.2

end

/-- An instruction on blocks that fails has left the elements as they were just if all that it saved
before it failed was there already. Only for `FIFO` this is enough but not always needed: the place
for the head may itself be in the queue, so that a later move changes it back. -/
theorem blockIns_clean_iff (junk : Junk) :
    CleanJustIf runCiBmovIns (HarmlessWords · bmovMoves) ∧
    CleanJustIf runCiFmovIns (HarmlessWords · fmovMoves) ∧
    CleanJustIf runCiDfmovIns (HarmlessDwords · dfmovMoves) ∧
    CleanJustIf runCiSftrIns (HarmlessChars · sftrMoves) ∧
    CleanJustIf runCiSftlIns (HarmlessChars · sftlMoves) ∧
    CleanJustIf runCiWsfrIns (HarmlessWords · wsfrMoves) ∧
    CleanJustIf runCiWsflIns (HarmlessWords · wsflMoves) ∧
    CleanIf runCiFifoIns HarmlessFifo ∧
    CleanJustIf runCiWtobIns (HarmlessWords · wtobMoves) ∧
    CleanJustIf (runCiBtowIns junk) (HarmlessWords · (btowMoves junk)) ∧
    CleanJustIf (runCiItaIns junk) (HarmlessOnWords · (itaMoves junk)) ∧
    CleanJustIf (runCiAtiIns junk) (HarmlessOnWords · (atiMoves junk)) := by
  refine ⟨?_, ?_, ?_, ?_, ?_, ?_, ?_, ?_, ?_, ?_, ?_, ?_⟩
  · exact cleanJustIf_runChecked fun i ms h => words_clean_iff (bmov_consecutive h)
  · exact cleanJustIf_runChecked fun i ms h => words_clean_iff (fmov_consecutive h)
  · exact cleanJustIf_runChecked fun i ms h => dwords_clean_iff (dfmov_consecutive h)
  · exact cleanJustIf_runChecked fun i ms h => chars_clean_iff (sftr_consecutive h)
  · exact cleanJustIf_runChecked fun i ms h => sftl_clean_iff h
  · exact cleanJustIf_runChecked fun i ms h => words_clean_iff (wsfr_consecutive h)
  · exact cleanJustIf_runChecked fun i ms h => wsfl_clean_iff h
  · exact cleanIf_runChecked fun i len e h hfail hcond => fifo_clean hfail hcond
  · exact cleanJustIf_runChecked fun i ms h => words_clean_iff (wtob_consecutive h)
  · exact cleanJustIf_runChecked fun i ms h => words_clean_iff (btow_consecutive h)
  · exact cleanJustIf_runChecked fun i ms h =>
      wordsOn_clean_iff (ita_consecutive h).1 (ita_consecutive h).2
  · exact cleanJustIf_runChecked fun i ms h =>
      wordsOn_clean_iff (ati_consecutive h).1 (ati_consecutive h).2

/-- `BMOV D0 D7999 K2` with power flow, where `D0` is seven. -/
def bmovPastEnd : BodyInput where
  ucode := [0x2F, 0xF0, 0x00, 0x11, 0x00, 0x00, 0x00, 0x11, 0x3F, 0x1F, 0x00, 0xFF, 0x02, 0x00]
  pc := 0
  level := 0
  now := 0
  inPF := 1
  sfc := Plc.off.sfc
  store := Store.off.setWord (.elem .D) 0 7

/-- It fails after it has written `D7999`. -/
theorem bmovPastEnd_writes : (runCiBmovIns bmovPastEnd).1 = .error .overElementRang ∧
    bmovPastEnd.store.getWord (.elem .D) 7999 = 0 ∧
    (runCiBmovIns bmovPastEnd).2.2.getWord (.elem .D) 7999 = 7 := by
  refine ⟨?_, ?_, ?_⟩ <;> decide

/-- So it has changed the elements. -/
theorem bmovPastEnd_not_clean : ¬ ∀ e, (runCiBmovIns bmovPastEnd).1 = .error e →
    (runCiBmovIns bmovPastEnd).2.2 = bmovPastEnd.store := by
  intro h
  have hsame := congrArg (fun s => s.getWord (.elem .D) 7999) (h _ bmovPastEnd_writes.1)
  exact absurd hsame (by decide)

end Kalyke
