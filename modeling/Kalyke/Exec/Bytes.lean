-- SUMMARY: `BTOW` after `WTOB`: when a block of words comes back from its bytes.
import Kalyke.Exec.BlockMoves
import Kalyke.Exec.BlockSplits
import Mathlib.Tactic.IntervalCases

/-!
# Bytes and Words

`WTOB` splits the words of a block into bytes, and `BTOW` joins them again. Both go up from the
first word. A word that lies among the bytes of the words before it is lost when it is its turn, and
so is a byte that lies in one of the words before its own. No word is in danger of both.
-/

namespace Kalyke

open List Nat Option Except
open BitVec (eq_of_toNat_eq)

/-! ## Pairs of words -/

section

variable {i : BodyInput} {dst q off n m k t : Nat} {x y : BitVec 16} {xs : List (BitVec 16)}
variable {s s₁ u : Store} {b : WordBlock}

/-- Saving some words is saving the first one and then the others. -/
theorem saveWords_cons (h : i.saveWords dst off [x] s = (.ok (), s₁)) :
    i.saveWords dst off (x :: xs) s = i.saveWords dst (off + 1) xs s₁ := by
  simp only [BodyInput.saveWords, saveWord] at h ⊢
  rcases hform : (AddrType.ofCode (i.ucode.getPU8 (dst + 1))).bind (saveWordTable i.level) with
    _ | _ | ⟨area, z⟩ | ⟨area, z, limit⟩ <;> simp only [hform] at h ⊢
  · cases h
  · cases h
  · split at h
    · cases h
    · rename_i hkn
      simp only [if_neg hkn, saveKnLoop] at h ⊢
      rcases hfirst : saveKn area (operandKnStart i.ucode dst s z +
        off * (4 * operandKn i.ucode dst z)) (4 * operandKn i.ucode dst z) 0 x s with
        ⟨e | _, x', s'⟩ <;> simp only [hfirst] at h ⊢
      · cases h
      · obtain rfl : s' = s₁ := congrArg Prod.snd h
        have hword : (saveKn area (operandKnStart i.ucode dst s z +
            off * (4 * operandKn i.ucode dst z)) (4 * operandKn i.ucode dst z) 0 x s).2.2.word =
            s.word := saveKn_word
        rw [hfirst] at hword
        rw [operandKnStart_congr (congrFun hword .Z), saveKnLoop_elementIndex]
  · obtain ⟨type, -, htable⟩ := bind_eq_some_iff.mp hform
    simp only [saveLoop] at h ⊢
    split at h
    · rename_i hlt
      obtain rfl : s.setWord area (elementIndex (operandStart i.ucode dst s z + off)) x = s₁ :=
        congrArg Prod.snd h
      have hstart (k : Nat) : operandStart i.ucode dst (s.setWord area k x) z =
          operandStart i.ucode dst s z := by
        refine operandStart_congr fun hz => setWord_word_z ?_ _ _
        rw [hz] at htable
        exact saveWordTable_z htable
      rw [if_pos hlt, hstart, elementIndex_mod, Nat.add_assoc]
    · cases h

theorem getWord_of_gotBlock {o : WordOperand} (hgot : o.gotBlock u = some b)
    (hfits : b.Fits (k + n)) : getWord o.ucode o.addr u o.level k n =
      (.ok (), (range n).map fun j => b.read (k + j) u) := by
  rcases hform : o.type.bind (getWordTable o.level) with _ | _ | ⟨area, z⟩ | ⟨area, z, limit⟩ <;>
    simp only [WordOperand.gotBlock, hform, reduceCtorEq] at hgot
  · split at hgot
    · cases hgot
    · rename_i hkn
      obtain rfl := some.inj hgot
      have hrang := area.rang_le
      change operandKnStart o.ucode o.addr u z + 4 * operandKn o.ucode o.addr z * (k + n) ≤
        area.rang at hfits
      rw [Nat.mul_add] at hfits
      have hbase : knBase (operandKnStart o.ucode o.addr u z) k (4 * operandKn o.ucode o.addr z) =
          operandKnStart o.ucode o.addr u z + 4 * operandKn o.ucode o.addr z * k := by
        rw [knBase, Nat.mul_comm]
        exact elementIndex_of_lt (by omega)
      have hblock : InBits area.rang (4 * operandKn o.ucode o.addr z)
          (knBase (operandKnStart o.ucode o.addr u z) k (4 * operandKn o.ucode o.addr z)) n := by
        rw [hbase, InBits, Nat.mul_comm n]
        exact .inr (by omega)
      rw [WordOperand.type] at hform
      simp only [getWord, hform, if_neg hkn, getKnLoop_of_inBits hblock, hbase]
      refine congrArg (Prod.mk _) (map_congr_left fun j _ => ?_)
      rw [WordBlock.read, Nat.mul_add, ← Nat.add_assoc]
  · obtain rfl := some.inj hgot
    obtain ⟨type, -, htable⟩ := bind_eq_some_iff.mp hform
    have hlimit : limit ≤ 32768 := by
      cases type <;> cases htable <;> exact WordArea.rang_le _
    change blockStart o.ucode o.addr u z 0 + (k + n) ≤ limit at hfits
    have hstart : elementIndex (operandStart o.ucode o.addr u z + k) =
        blockStart o.ucode o.addr u z 0 + k := by
      rw [← elementIndex_of_lt (i := blockStart o.ucode o.addr u z 0 + k) (by omega)]
      exact (elementIndex_mod (operandStart o.ucode o.addr u z + 0) k).symm
    have hblock : InBlock limit 1 (blockStart o.ucode o.addr u z 0 + k) n := fun j hj => by omega
    rw [WordOperand.type] at hform
    simp only [getWord, hform, hstart, getLoop_of_inBlock (by omega) hblock]
    refine congrArg (Prod.mk _) (map_congr_left fun j _ => ?_)
    rw [WordBlock.read, Nat.one_mul, Nat.add_assoc]

theorem words_pair (hgot : (i.operand q).gotBlock u = some b) (hfits : b.Fits n)
    (hk : k + 2 ≤ n) : i.words q k 2 u = .ok [b.read k u, b.read (k + 1) u] :=
  congrArg outcome (getWord_of_gotBlock hgot (hfits.mono hk))

end

def BodyInput.savePair (i : BodyInput) (dst off : Nat) (ps : List (BitVec 16 × BitVec 16))
    (s : Store) : Except PlcErr Unit × Store :=
  i.saveWords dst (2 * off) (ps.flatMap fun p => [p.1, p.2]) s

section

variable {i : BodyInput} {dst n m k t : Nat} {inv : Store → Prop} {s u : Store}
variable {view : Nat → Store → BitVec 16} {kept : BitVec 16 → BitVec 16}

theorem savePair_eq (hsave : SavesBlock (i.saveWords dst) view kept n inv) (hk : 2 * k + 1 < n)
    (p : BitVec 16 × BitVec 16) (hs : inv s) : i.savePair dst k [p] s =
      i.saveWords dst (2 * k + 1) [p.2] (i.saveWords dst (2 * k) [p.1] s).2 := by
  have hpass := hsave.passes (2 * k) (by omega) p.1 s hs
  have hfirst : i.saveWords dst (2 * k) [p.1] s =
      (.ok (), (i.saveWords dst (2 * k) [p.1] s).2) := by
    rw [← hpass]
  exact saveWords_cons hfirst

theorem fillsBlock_pairs (hfill : FillsBlock (i.saveWords dst) view kept (2 * m) inv) :
    FillsBlock (i.savePair dst) (fun k u => (view (2 * k) u, view (2 * k + 1) u))
      (Prod.map kept kept) m inv where
  passes := fun k hk p s hs => by
    rw [savePair_eq hfill.toSavesBlock (by omega) p hs]
    exact hfill.passes _ (by omega) _ _ (hfill.keeps _ (by omega) _ _ hs)
  keeps := fun k hk p s hs => by
    rw [savePair_eq hfill.toSavesBlock (by omega) p hs]
    exact hfill.keeps _ (by omega) _ _ (hfill.keeps _ (by omega) _ _ hs)
  self := fun k hk p s hs => by
    have hfirst := hfill.keeps (2 * k) (by omega) p.1 s hs
    rw [savePair_eq hfill.toSavesBlock (by omega) p hs,
      hfill.self _ (by omega) _ _ hfirst, hfill.other _ (by omega) _ _ hfirst _ (by omega),
      hfill.self _ (by omega) _ _ hs]
    rfl
  other := fun k hk p s hs j hj => by
    have hfirst := hfill.keeps (2 * k) (by omega) p.1 s hs
    rw [savePair_eq hfill.toSavesBlock (by omega) p hs,
      hfill.other _ (by omega) _ _ hfirst _ (by omega),
      hfill.other _ (by omega) _ _ hs _ (by omega),
      hfill.other _ (by omega) _ _ hfirst _ (by omega),
      hfill.other _ (by omega) _ _ hs _ (by omega)]
  kept_view := fun k hk s => by
    rw [Prod.map_apply, hfill.kept_view _ (by omega), hfill.kept_view _ (by omega)]
  ext := fun u v hu hv h => by
    refine hfill.ext u v hu hv fun k hk => ?_
    have hpair := h (k / 2) (by omega)
    rcases mod_two_eq_zero_or_one k with heven | hodd
    · have hplace : 2 * (k / 2) = k := by omega
      have hword := congrArg Prod.fst hpair
      rwa [hplace] at hword
    · have hplace : 2 * (k / 2) + 1 = k := by omega
      have hword := congrArg Prod.snd hpair
      rwa [hplace] at hword

/-- The first pass of a loop, and then the others. -/
theorem runMoves_cons {α : Type} {save : Nat → Nat → List α → Store → Except PlcErr Unit × Store}
    {move : Move α} {ms : List (Move α)} : runMoves save (move :: ms) s =
      match runMoves save [move] s with
      | (.ok (), s') => runMoves save ms s'
      | (.error e, s') => (.error e, s') := by
  simp only [runMoves]
  split
  · rfl
  · split <;> rfl

/-- Loops are the same if their passes are. -/
theorem runMoves_congr {α β : Type}
    {save : Nat → Nat → List α → Store → Except PlcErr Unit × Store}
    {save' : Nat → Nat → List β → Store → Except PlcErr Unit × Store} {move : Nat → Move α}
    {move' : Nat → Move β} (ks : List Nat)
    (h : ∀ k s, runMoves save [move k] s = runMoves save' [move' k] s) :
    runMoves save (ks.map move) s = runMoves save' (ks.map move') s := by
  induction ks generalizing s with
  | nil => rfl
  | cons k ks ih =>
    have hright : runMoves save' (move' k :: ks.map move') s = _ := runMoves_cons
    rw [map_cons, map_cons, hright, runMoves_cons, h k s]
    rcases runMoves save' [move' k] s with ⟨e | _, s'⟩
    · rfl
    · exact ih

end

/-! ## The round trip -/

/-- The bytes of a word. -/
def bytePair (x : BitVec 16) : BitVec 16 × BitVec 16 := (x >>> 8, x &&& 0xFF)

/-- `WTOB` with power flow from a block `a` of words to a block `b` of bytes, and `BTOW` from `b` to
`a` after it, with the same even count. -/
structure ByteTrip (a b : WordBlock) (count : BitVec 16) (i j : BodyInput) : Prop where
  power : getPowerFlow i.inPF = true
  power' : getPowerFlow j.inPF = true
  after : j.store = (runCiWtobIns i).2.2
  size : i.word 10 0 i.store = .ok count
  size' : j.word 10 0 j.store = .ok count
  even : count.toNat % 2 = 0
  words : (i.operand 2).gotBlock i.store = some a
  wordsFit : 0 < count.toNat → a.Fits (count.toNat / 2)
  bytes : (i.operand 6).gotBlock i.store = some b
  bytesFit : 0 < count.toNat → b.Fits count.toNat
  bytes' : (j.operand 2).gotBlock j.store = some b
  words' : (j.operand 6).gotBlock j.store = some a

section

variable (a b : WordBlock) (count : BitVec 16) (i j : BodyInput)

/-- Both instructions pass, and the words are as they were. -/
structure RestoresWords (r r' : BodyResult) : Prop where
  passes : 0 ≤ count.toInt → r.1 = .ok () ∧ r'.1 = .ok ()
  words : ∀ k < count.toNat / 2, a.read k r'.2.2 = a.read k i.store

/-- The store of `WTOB` after the bytes of the words `x` before a place have been saved. -/
def bytesSaved (x : Nat → BitVec 16) (k : Nat) : Store :=
  saveFirst (i.savePair (i.pc + 6)) (fun k => bytePair (x k)) k i.store

/-- The words of `a` as they are at the start. -/
def wordsOf (k : Nat) : BitVec 16 := a.read k i.store

/-- Each word is still itself after the bytes of the words before it have been saved, and `b` can
hold its bytes. -/
def WordsKeep : Prop :=
  ∀ k < count.toNat / 2, ∃ x, (i.operand 2).get k (bytesSaved i (wordsOf a i) k) = .ok x ∧
    Prod.map b.kept b.kept (bytePair x) = bytePair (wordsOf a i k)

/-- Once the bytes have been saved, each pair of bytes still makes up its word after the words
before it have been saved. -/
def BytesKeep : Prop :=
  ∀ k < count.toNat / 2,
    let s := saveFirst (j.saveWords (j.pc + 6)) (wordsOf a i) k
      (bytesSaved i (wordsOf a i) (count.toNat / 2))
    a.kept (joinBytes (b.read (2 * k) s) (b.read (2 * k + 1) s)) = wordsOf a i k

/-- `WTOB` gets some words, each after the bytes of the words before it have been saved, and leaves
those of `a` as they are. -/
def LeavesWords : Prop :=
  ∃ x, (∀ k < count.toNat / 2, (i.operand 2).get k (bytesSaved i x k) = .ok (x k)) ∧
    ∀ k < count.toNat / 2, a.read k (bytesSaved i x (count.toNat / 2)) = wordsOf a i k

/-- Both destinations can be saved, and words and bytes stay until they are got. The words of a
plain `V` operand are saved one layer up: they need only stay. -/
def BytesHold : Prop :=
  0 < count.toInt → (∃ e, (i.operand 6).block i.store = some e ∧ e.Fits count.toNat) ∧
    (∃ e, (j.operand 6).block j.store = some e ∧ e.Fits (count.toNat / 2)) ∧
    if (j.operand 6).type = some .v then LeavesWords a count i
    else WordsKeep a b count i ∧ BytesKeep a b count i j

end

/-! ## What blocks can hold -/

namespace WordBlock

variable {a b : WordBlock} {v w x y : BitVec 16}

def size : WordBlock → Nat
  | bits _ width _ => width
  | elems .. => 16

theorem Proper.size_cases (hb : b.Proper) :
    b.size = 4 ∨ b.size = 8 ∨ b.size = 12 ∨ b.size = 16 := by
  cases b with
  | bits area width start =>
    obtain ⟨kn, hpos, hle, hwidth⟩ := hb
    change width = 4 ∨ width = 8 ∨ width = 12 ∨ width = 16
    omega
  | elems area limit start => exact .inr (.inr (.inr rfl))

theorem Proper.toNat_kept (hb : b.Proper) (x : BitVec 16) :
    (b.kept x).toNat = x.toNat % 2 ^ b.size := by
  have hx := x.isLt
  cases b with
  | bits area width start =>
    change (BitVec.ofNat 16 (x.toNat % 2 ^ width)).toNat = x.toNat % 2 ^ width
    have hle := mod_le x.toNat (2 ^ width)
    rw [BitVec.toNat_ofNat, mod_eq_of_lt (by omega)]
  | elems area limit start => exact (mod_eq_of_lt hx).symm

theorem toNat_joinBytes (x y : BitVec 16) :
    (joinBytes x y).toNat = x.toNat % 256 * 256 + y.toNat % 256 := by
  have hhigh : (x &&& 0xFF).toNat = x.toNat % 256 := by
    exact and_two_pow_sub_one_eq_mod x.toNat 8
  have hlow : (y &&& 0xFF).toNat = y.toNat % 256 := by
    exact and_two_pow_sub_one_eq_mod y.toNat 8
  have hlt : y.toNat % 256 < 2 ^ 8 := mod_lt _ (by decide)
  have hfits : x.toNat % 256 * 2 ^ 8 < 2 ^ 16 := by omega
  rw [joinBytes, BitVec.toNat_or, BitVec.toNat_shiftLeft, hhigh, hlow, shiftLeft_eq,
    mod_eq_of_lt hfits, Nat.mul_comm, ← two_pow_add_eq_or_of_lt hlt, Nat.mul_comm]

theorem toNat_bytePair (x : BitVec 16) :
    (bytePair x).1.toNat = x.toNat / 256 ∧ (bytePair x).2.toNat = x.toNat % 256 := by
  constructor
  · change (x >>> 8).toNat = _
    rw [BitVec.toNat_ushiftRight, shiftRight_eq_div_pow]
  · change (x &&& 0xFF).toNat = _
    exact and_two_pow_sub_one_eq_mod x.toNat 8

/-- A block holds bytes whole, or their lower halves. -/
theorem Proper.byte_cases (hb : b.Proper) :
    (∀ n < 256, n % 2 ^ b.size = n) ∨ 2 ^ b.size = 16 := by
  rcases hb.size_cases with h | h | h | h <;> rw [h]
  · exact .inr rfl
  · exact .inl fun n hn => mod_eq_of_lt hn
  · exact .inl fun n hn => mod_eq_of_lt (by omega)
  · exact .inl fun n hn => mod_eq_of_lt (by omega)

/-- If two words of `b` make up a word of `a`, then `b` can hold its bytes. -/
theorem bytes_fit (ha : a.Proper) (hb : b.Proper) (hx : b.kept x = x) (hy : b.kept y = y)
    (h : a.kept (joinBytes x y) = w) : Prod.map b.kept b.kept (bytePair w) = bytePair w := by
  have hx := congrArg BitVec.toNat hx
  have hy := congrArg BitVec.toNat hy
  have h := congrArg BitVec.toNat h
  rw [hb.toNat_kept] at hx hy
  rw [ha.toNat_kept, toNat_joinBytes] at h
  obtain ⟨hhigh, hlow⟩ := toNat_bytePair w
  have hbytes : w.toNat / 256 % 2 ^ b.size = w.toNat / 256 ∧
      w.toNat % 256 % 2 ^ b.size = w.toNat % 256 := by
    rcases hb.byte_cases with hwhole | hhalf
    · exact ⟨hwhole _ (by omega), hwhole _ (by omega)⟩
    · rw [hhalf] at hx hy ⊢
      rcases ha.size_cases with ha | ha | ha | ha <;> rw [ha] at h <;> omega
  refine Prod.ext (eq_of_toNat_eq ?_) (eq_of_toNat_eq ?_)
  · rw [Prod.map_fst, hb.toNat_kept, hhigh, hbytes.1]
  · rw [Prod.map_snd, hb.toNat_kept, hlow, hbytes.2]

/-- If the bytes of a word of `a`, as far as `b` holds them, make up a word of `a`, then they are
the bytes of that word. -/
theorem bytes_of_joined (ha : a.Proper) (hb : b.Proper) (hv : a.kept v = v)
    (h : a.kept (joinBytes (b.kept (bytePair v).1) (b.kept (bytePair v).2)) = w) :
    Prod.map b.kept b.kept (bytePair v) = bytePair w := by
  have hv := congrArg BitVec.toNat hv
  have h := congrArg BitVec.toNat h
  obtain ⟨hhigh, hlow⟩ := toNat_bytePair v
  obtain ⟨hhigh', hlow'⟩ := toNat_bytePair w
  rw [ha.toNat_kept] at hv
  rw [ha.toNat_kept, toNat_joinBytes, hb.toNat_kept, hb.toNat_kept] at h
  have hbytes : v.toNat / 256 % 2 ^ b.size = w.toNat / 256 ∧
      v.toNat % 256 % 2 ^ b.size = w.toNat % 256 := by
    rcases hb.byte_cases with hwhole | hhalf
    · rw [hwhole _ (by omega), hwhole _ (by omega)] at h ⊢
      rw [mod_eq_of_lt (by omega)] at h
      omega
    · rw [hhalf] at h ⊢
      rw [mod_eq_of_lt (by omega)] at h
      omega
  refine Prod.ext (eq_of_toNat_eq ?_) (eq_of_toNat_eq ?_)
  · rw [Prod.map_fst, hb.toNat_kept, hhigh, hhigh', hbytes.1]
  · rw [Prod.map_snd, hb.toNat_kept, hlow, hlow', hbytes.2]

end WordBlock

/-! ## Where words and bytes meet -/

/-- The place of a cell within its class. -/
def Cell.place : Cell → Nat
  | bit _ k => k
  | lm k => k
  | word _ k => k
  | v k => k
  | c32 k => k

namespace WordBlock

variable {a b : WordBlock} {c d : Cell} {j k l n r t : Nat}

/-- The words of a block lie one behind the other. -/
theorem exists_places (b : WordBlock) : ∃ first width, ∀ k, ∀ c ∈ b.cells k,
    first + width * k ≤ c.place ∧ c.place < first + width * k + width := by
  cases b with
  | bits area width start =>
    cases area with
    | elem e =>
      refine ⟨start, width, fun k c hc => ?_⟩
      obtain ⟨m, hm, rfl⟩ := List.mem_map.mp hc
      have hm := mem_range.mp hm
      change start + width * k ≤ start + width * k + m ∧
        start + width * k + m < start + width * k + width
      omega
    | lm layer =>
      refine ⟨lmRang * layer + start, width, fun k c hc => ?_⟩
      obtain ⟨m, hm, rfl⟩ := List.mem_map.mp hc
      have hm := mem_range.mp hm
      change _ ≤ lmRang * layer + (start + width * k + m) ∧
        lmRang * layer + (start + width * k + m) < _
      omega
  | elems area limit start =>
    cases area with
    | elem e =>
      refine ⟨start, 1, fun k c hc => ?_⟩
      obtain rfl := mem_singleton.mp hc
      change start + 1 * k ≤ start + k ∧ start + k < start + 1 * k + 1
      omega
    | v layer =>
      refine ⟨vRang * layer + start, 1, fun k c hc => ?_⟩
      obtain rfl := mem_singleton.mp hc
      change _ ≤ vRang * layer + (start + k) ∧ vRang * layer + (start + k) < _
      omega

/-- If a word meets an earlier word of another block, then no word before it meets a later one. -/
theorem cells_cross (hc : c ∈ a.cells t) (hcb : c ∈ b.cells j) (hd : d ∈ a.cells k) (hk : k < t)
    (hj : j < l) : d ∉ b.cells l := by
  intro hdb
  obtain ⟨first, width, hplaces⟩ := exists_places a
  obtain ⟨first', width', hplaces'⟩ := exists_places b
  have hct := hplaces t c hc
  have hcj := hplaces' j c hcb
  have hdk := hplaces k d hd
  have hdl := hplaces' l d hdb
  have hword : width * k + width ≤ width * t := by
    exact Nat.mul_le_mul_left width hk
  have hbyte : width' * j + width' ≤ width' * l := by
    exact Nat.mul_le_mul_left width' hj
  omega

/-- A block with an index register has no other cells. -/
theorem eq_register_of_mem (hmem : Cell.word .Z r ∈ b.cells k) (hc : c ∈ b.cells j) :
    ∃ r, c = .word .Z r := by
  obtain ⟨limit, start, rfl, -⟩ := elems_of_register hmem
  exact ⟨start + j, mem_singleton.mp hc⟩

end WordBlock

section

variable {o : WordOperand} {a b e : WordBlock} {c : Cell} {j k n r : Nat} {x : BitVec 16}
variable {s u : Store}

theorem gotBlock_of_agree (hr : ∀ c ∈ o.gotRegister, c.read u = c.read s) :
    o.gotBlock u = o.gotBlock s := by
  simp only [WordOperand.gotRegister] at hr
  simp only [WordOperand.gotBlock]
  split <;> rename_i heq <;> simp only [heq] at hr
  · rw [operandKnStart_of_agree hr]
  · rw [blockStart, operandStart_of_agree hr, blockStart]
  · rfl

theorem z_not_mem_gotBlock (hb : o.gotBlock s = some b) (hc : c ∈ o.gotRegister) :
    Cell.word .Z r ∉ b.cells k := by
  intro hmem
  obtain ⟨limit, start, rfl, -⟩ := elems_of_register hmem
  simp only [WordOperand.gotBlock] at hb
  split at hb
  · split at hb <;> cases hb
  · rename_i area z limit hform
    cases hb
    obtain ⟨type, -, htable⟩ := bind_eq_some_iff.mp hform
    have hz : z = false := by
      cases type <;> cases htable
      rfl
    simp only [WordOperand.gotRegister, hform, hz] at hc
    cases hc
  · cases hb

theorem kept_got (hb : o.gotBlock s = some b) (hx : o.get k u = .ok x) : b.kept x = x := by
  simp only [WordOperand.gotBlock] at hb
  split at hb
  · rename_i area z hform
    split at hb
    · cases hb
    · rename_i hkn
      obtain rfl := some.inj hb
      have hrang := area.rang_le
      rw [WordOperand.type] at hform
      simp only [WordOperand.get, getWord, hform, if_neg hkn] at hx
      rcases hloop : getKnLoop 16 (u.getBit area) area.rang (4 * operandKn o.ucode o.addr z)
        (operandKnStart o.ucode o.addr u z) 1 k with ⟨e | _, xs⟩ <;> rw [hloop] at hx
      · cases hx
      · have hbits := (getKnLoop_ok_iff (by omega) (by omega)).mp (congrArg Prod.fst hloop)
        rw [getKnLoop_of_inBits hbits] at hloop
        cases hloop
        obtain rfl := ok.inj hx
        exact WordBlock.kept_read (b := .bits area (4 * operandKn o.ucode o.addr z)
          (knBase (operandKnStart o.ucode o.addr u z) k (4 * operandKn o.ucode o.addr z))) (k := 0)
  · obtain rfl := some.inj hb
    rfl
  · cases hb

theorem saved_cases (he : o.block s = some e) (hb : o.gotBlock s = some b) :
    o.type ≠ some .v ∧ b.Alike e ∨ o.type = some .v ∧ e = o.savedV s ∧ b = o.gotV s := by
  by_cases hv : o.type = some .v
  · obtain ⟨hblock, hblock'⟩ := WordOperand.block_v hv s
    exact .inr ⟨hv, some.inj (he.symm.trans hblock), some.inj (hb.symm.trans hblock')⟩
  · obtain ⟨b', hgot, halike⟩ := WordOperand.gotBlock_alike he hv
    obtain rfl : b' = b := some.inj (hgot.symm.trans hb)
    exact .inl ⟨hv, halike⟩

/-- If no index register is got, none is saved. -/
theorem z_not_mem_block (he : o.block s = some e) (hb : o.gotBlock s = some b)
    (hz : ∀ r k, Cell.word .Z r ∉ b.cells k) : Cell.word .Z r ∉ e.cells k := by
  rcases saved_cases he hb with ⟨-, halike⟩ | ⟨-, rfl, -⟩
  · rw [← halike.cells]
    exact hz r k
  · intro hmem
    cases mem_singleton.mp hmem

end

/-! ## The loops -/

section

variable {junk : Junk} {a b e e' : WordBlock} {count : BitVec 16} {i j : BodyInput} {k m n : Nat}
variable {s : Store}

def wtobMove (i : BodyInput) (k : Nat) : Move (BitVec 16 × BitVec 16) :=
  ⟨fun s => (i.word 2 k s).map fun x => [bytePair x], i.pc + 6, k⟩

def btowMove (junk : Junk) (i : BodyInput) (k : Nat) : Move (BitVec 16) :=
  ⟨fun s => (i.words 2 (2 * k) 2 s).map fun xs =>
    [joinBytes (filled junk xs 0) (filled junk xs 1)], i.pc + 6, k⟩

theorem byteCount_eq (hsize : i.word 10 0 i.store = .ok count) : byteCount i =
    if count.toInt < 0 then .error .operands else .ok count.toNat := by
  simp only [byteCount, hsize]
  rfl

theorem wtob_run (hpower : getPowerFlow i.inPF = true) (hsize : i.word 10 0 i.store = .ok count)
    (heven : count.toNat % 2 = 0) : runCiWtobIns i =
      if count.toInt < 0 then (.error .operands, i.inPF, i.store)
      else ((runMoves i.savePair ((range (count.toNat / 2)).map (wtobMove i)) i.store).1,
        i.inPF,
        (runMoves i.savePair ((range (count.toNat / 2)).map (wtobMove i)) i.store).2) := by
  have hcount := byteCount_eq hsize
  split at hcount
  · rename_i hneg
    simp only [runCiWtobIns, runChecked, hpower, if_true, wtobMoves, hcount, bind, Except.bind,
      if_pos hneg]
  · rename_i hnonneg
    have hodd : ¬ count.toNat % 2 = 1 := by omega
    have hmoves : wtobMoves i = .ok ((range (count.toNat / 2)).map fun k =>
        ⟨fun s => (i.word 2 k s).map fun x : BitVec 16 => [x >>> 8, x &&& 0xFF], i.pc + 6,
          2 * k⟩) := by
      simp only [wtobMoves, hcount, bind, Except.bind, if_neg hodd, append_nil]
      rfl
    have hpairs : runMoves i.saveWords ((range (count.toNat / 2)).map fun k =>
          ⟨fun s => (i.word 2 k s).map fun x : BitVec 16 => [x >>> 8, x &&& 0xFF], i.pc + 6,
            2 * k⟩) i.store =
        runMoves i.savePair ((range (count.toNat / 2)).map (wtobMove i)) i.store := by
      refine runMoves_congr _ fun k s => ?_
      simp only [runMoves, wtobMove]
      rcases i.word 2 k s with e | x <;> rfl
    rw [runCiWtobIns, runChecked_eq hpower hmoves, hpairs, if_neg hnonneg]

theorem btow_run (hpower : getPowerFlow j.inPF = true) (hsize : j.word 10 0 j.store = .ok count)
    (heven : count.toNat % 2 = 0) : runCiBtowIns junk j =
      if count.toInt < 0 then (.error .operands, j.inPF, j.store)
      else
        ((runMoves j.saveWords ((range (count.toNat / 2)).map (btowMove junk j)) j.store).1,
          j.inPF,
          (runMoves j.saveWords ((range (count.toNat / 2)).map (btowMove junk j))
            j.store).2) := by
  have hcount := byteCount_eq hsize
  split at hcount
  · rename_i hneg
    simp only [runCiBtowIns, runChecked, hpower, if_true, btowMoves, hcount, bind, Except.bind,
      if_pos hneg]
  · rename_i hnonneg
    have hodd : ¬ count.toNat % 2 = 1 := by omega
    have hmoves : btowMoves junk j =
        .ok ((range (count.toNat / 2)).map (btowMove junk j)) := by
      simp only [btowMoves, hcount, bind, Except.bind, if_neg hodd, append_nil]
      rfl
    rw [runCiBtowIns, runChecked_eq hpower hmoves, if_neg hnonneg]

theorem wtobMove_read (u : Store) : ((wtobMove i k).read u).toOption =
    (((i.operand 2).get k u).map bytePair).toOption.map fun x => [x] := by
  change ((i.word 2 k u).map fun x => [bytePair x]).toOption =
    (((i.word 2 k u).map bytePair).toOption).map fun x => [x]
  rcases i.word 2 k u with e | x <;> rfl

/-- What `WTOB` leaves where the bytes are saved. -/
theorem wtob_saved_iff {g : Nat → BitVec 16 × BitVec 16} (he : (i.operand 6).block s = some e)
    (hfits : e.Fits (2 * m)) :
    ChangesOnly (e.Has (2 * m)) s (runMoves i.savePair ((range m).map (wtobMove i)) s).2 ∧
    (((runMoves i.savePair ((range m).map (wtobMove i)) s).1 = .ok () ∧ ∀ k < m,
        (e.read (2 * k) (runMoves i.savePair ((range m).map (wtobMove i)) s).2,
          e.read (2 * k + 1) (runMoves i.savePair ((range m).map (wtobMove i)) s).2) = g k) ↔
      ∀ k < m, ∃ x, (i.operand 2).get k (saveFirst (i.savePair (i.pc + 6)) g k s) = .ok x ∧
        Prod.map e.kept e.kept (bytePair x) = g k) := by
  obtain ⟨hothers, hright⟩ := runMoves_first_iff (g := g) (wtobMove i)
    (fun k u => ((i.operand 2).get k u).map bytePair)
    (fillsBlock_pairs (fillsBlock_words he hfits)) changesOnly_refl
    fun _ _ => ⟨rfl, rfl, fun u _ => wtobMove_read u⟩
  refine ⟨hothers, hright.trans (forall₂_congr fun k _ => ?_)⟩
  rcases (i.operand 2).get k (saveFirst (i.savePair (i.pc + 6)) g k s) with e | x
  · constructor
    · rintro ⟨_, hx, -⟩
      cases hx
    · rintro ⟨_, hx, -⟩
      cases hx
  · constructor
    · rintro ⟨_, hx, hkept⟩
      cases hx
      exact ⟨x, rfl, hkept⟩
    · rintro ⟨_, hx, hkept⟩
      cases hx
      exact ⟨bytePair x, rfl, hkept⟩

/-- What `BTOW` leaves where the words are saved, if the bytes can be got all the time. -/
theorem btow_saved_iff (junk : Junk) {g : Nat → BitVec 16} (he : (j.operand 6).block s = some e)
    (hfits : e.Fits m) (hb : b.Fits (2 * m))
    (hgot : ∀ k < m, (j.operand 2).gotBlock (saveFirst (j.saveWords (j.pc + 6)) g k s) = some b) :
    ChangesOnly (e.Has m) s (runMoves j.saveWords ((range m).map (btowMove junk j)) s).2 ∧
    (((runMoves j.saveWords ((range m).map (btowMove junk j)) s).1 = .ok () ∧ ∀ k < m,
        e.read k (runMoves j.saveWords ((range m).map (btowMove junk j)) s).2 = g k) ↔
      ∀ k < m, e.kept (joinBytes
        (b.read (2 * k) (saveFirst (j.saveWords (j.pc + 6)) g k s))
        (b.read (2 * k + 1) (saveFirst (j.saveWords (j.pc + 6)) g k s))) = g k) := by
  obtain ⟨hothers, hright⟩ := runMoves_first_iff (g := g) (btowMove junk j)
    (fun k u => (j.words 2 (2 * k) 2 u).map fun xs =>
      joinBytes (filled junk xs 0) (filled junk xs 1))
    (fillsBlock_words he hfits) changesOnly_refl fun k _ => ⟨rfl, rfl, fun u _ => by
      change ((j.words 2 (2 * k) 2 u).map _).toOption = _
      rcases j.words 2 (2 * k) 2 u with e | xs <;> rfl⟩
  refine ⟨hothers, hright.trans (forall₂_congr fun k hk => ?_)⟩
  have hpair := words_pair (hgot k hk) hb (show 2 * k + 2 ≤ 2 * m by omega)
  rw [hpair]
  constructor
  · rintro ⟨x, hx, hkept⟩
    cases hx
    exact hkept
  · intro hkept
    exact ⟨_, rfl, hkept⟩

end

/-! ## What stays until it is got -/

section

variable {a b e e' : WordBlock} {i j : BodyInput} {k l m n t : Nat} {s u h : Store}
variable {A : Cell → Prop} {g : Nat → BitVec 16 × BitVec 16}

/-- The bytes can be got while the words of `a` are saved as they were before `WTOB`. -/
theorem source_stays (he : (i.operand 6).block s = some e) (hb : (i.operand 6).gotBlock s = some b)
    (hh : ChangesOnly (e.Has n) s h) (hbytes : (j.operand 2).gotBlock h = some b)
    (he' : (j.operand 6).block h = some e') (ha : (j.operand 6).gotBlock h = some a)
    (hfits : e'.Fits m) (ht : t ≤ m) : (j.operand 2).gotBlock
      (saveFirst (j.saveWords (j.pc + 6)) (fun k => a.read k s) t h) = some b := by
  have hfill := fillsBlock_words he' hfits
  by_cases hreg : ∃ c ∈ (j.operand 2).gotRegister, e'.Has m c
  · -- the register lies among the words, which are saved as they stand there
    obtain ⟨c, hc, k, -, hmem⟩ := hreg
    obtain ⟨⟨r, rfl⟩, -⟩ := WordOperand.mem_gotRegister hc
    have hnone (r k : Nat) : Cell.word .Z r ∉ e.cells k :=
      z_not_mem_block he hb fun _ _ => z_not_mem_gotBlock hbytes hc
    have halike : a.Alike e' := by
      rcases saved_cases he' ha with ⟨-, halike⟩ | ⟨-, rfl, -⟩
      · exact halike
      · cases mem_singleton.mp hmem
    have hsame (k : Nat) : a.read k h = a.read k s := by
      refine WordBlock.read_of_changes hh fun c hc => ?_
      rw [halike.cells] at hc
      obtain ⟨r, rfl⟩ := WordBlock.eq_register_of_mem hmem hc
      rintro ⟨l, -, hl⟩
      exact hnone r l hl
    rw [saveFirst_self hfill changesOnly_refl ht fun k _ => ?_]
    · exact hbytes
    · rw [← hsame, halike.read, WordBlock.kept_read]
  · have hchanges := (saveFirst_view (x := fun k => a.read k s) hfill.toSavesBlock
      changesOnly_refl ht).1
    rw [gotBlock_of_agree fun c hc => hchanges.cells c fun hhas => hreg ⟨c, hc, hhas⟩]
    exact hbytes

theorem got_untouched (ha : (i.operand 2).gotBlock s = some a) (hfits : a.Fits n) (hk : k < n)
    (hu : ChangesOnly A s u) (hr : ∀ c ∈ (i.operand 2).gotRegister, ¬ A c)
    (hc : ∀ c ∈ a.cells k, ¬ A c) : (i.operand 2).get k u = .ok (a.read k s) := by
  have hblock := (gotBlock_of_agree fun c hmem => hu.cells c (hr c hmem)).trans ha
  rw [get_of_gotBlock hblock hfits hk, WordBlock.read_of_changes hu hc]

theorem pairs_changesOnly (he : (i.operand 6).block s = some e) (hfits : e.Fits (2 * m))
    (ht : t ≤ m) :
    ChangesOnly (e.Has (2 * t)) s (saveFirst (i.savePair (i.pc + 6)) g t s) :=
  (saveFirst_view (fillsBlock_pairs (fillsBlock_words he
    (hfits.mono (Nat.mul_le_mul_left 2 ht)))).toSavesBlock changesOnly_refl le_rfl).1

theorem bytes_untouched (ha : (i.operand 2).gotBlock s = some a)
    (htouch : (∃ c ∈ (i.operand 2).gotRegister, b.Has (2 * t) c) ∨
      ∃ c ∈ a.cells t, b.Has (2 * t) c) (hl : 2 * t ≤ l) : ∀ c ∈ b.cells l, ¬ a.Has t c := by
  rintro c hc ⟨k, hk, hmem⟩
  rcases htouch with ⟨d, hd, j, -, hj⟩ | ⟨d, hd, j, hlt, hj⟩
  · obtain ⟨⟨r, rfl⟩, -⟩ := WordOperand.mem_gotRegister hd
    obtain ⟨r', rfl⟩ := WordBlock.eq_register_of_mem hj hc
    exact z_not_mem_gotBlock ha hd hmem
  · exact WordBlock.cells_cross hd hj hmem hk (Nat.lt_of_lt_of_le hlt hl) hc

/-- If the words are restored, then every word was split as it was. -/
theorem pairs_of_restored (ha : (i.operand 2).gotBlock s = some a) (hafits : a.Fits m)
    (hb : (i.operand 6).gotBlock s = some b) (he : (i.operand 6).block s = some e)
    (hfits : e.Fits (2 * m)) (halike : b.Alike e)
    (hh : (runMoves i.savePair ((range m).map (wtobMove i)) s).2 = h)
    (hpass : (runMoves i.savePair ((range m).map (wtobMove i)) s).1 = .ok ())
    (he' : (j.operand 6).block h = some e') (hfits' : e'.Fits m) (halike' : a.Alike e')
    (hright : ∀ k < m, a.kept (joinBytes
      (b.read (2 * k) (saveFirst (j.saveWords (j.pc + 6)) (fun k => a.read k s) k h))
      (b.read (2 * k + 1) (saveFirst (j.saveWords (j.pc + 6)) (fun k => a.read k s) k h))) =
        a.read k s) :
    ∀ k < m, (e.read (2 * k) h, e.read (2 * k + 1) h) = bytePair (a.read k s) := by
  intro t ht
  have hkept (x : BitVec 16) : b.kept x = e.kept x := congrFun halike.kept x
  have hgot := (wtob_saved_iff (g := fun k => (e.read (2 * k) h, e.read (2 * k + 1) h))
    he hfits).2.mp ⟨hpass, fun k _ => by rw [hh]⟩
  obtain ⟨x, hx, hpair⟩ := hgot t ht
  have hword := hright t ht
  have hproper := proper_of_gotBlock ha
  have hproper' := proper_of_gotBlock hb
  by_cases htouch : (∃ c ∈ (i.operand 2).gotRegister, b.Has (2 * t) c) ∨
    ∃ c ∈ a.cells t, b.Has (2 * t) c
  · -- the bytes of the word are got as `WTOB` has left them
    have hchanges : ChangesOnly (a.Has t) h
        (saveFirst (j.saveWords (j.pc + 6)) (fun k => a.read k s) t h) := by
      rw [halike'.has]
      exact (saveFirst_view (fillsBlock_words he'
        (hfits'.mono (Nat.le_of_lt ht))).toSavesBlock changesOnly_refl le_rfl).1
    rw [WordBlock.read_of_changes hchanges (bytes_untouched ha htouch le_rfl),
      WordBlock.read_of_changes hchanges (bytes_untouched ha htouch (le_succ _)),
      halike.read, halike.read] at hword
    have hfirst : e.kept (bytePair x).1 = e.read (2 * t) h := congrArg Prod.fst hpair
    have hsecond : e.kept (bytePair x).2 = e.read (2 * t + 1) h := congrArg Prod.snd hpair
    rw [← hfirst, ← hsecond, ← hkept, ← hkept] at hword
    rw [← hpair, ← WordBlock.bytes_of_joined hproper hproper' (kept_got ha hx) hword, halike.kept]
  · -- the word is got as it was
    rw [not_or] at htouch
    have hchanges := pairs_changesOnly (g := fun k => (e.read (2 * k) h, e.read (2 * k + 1) h))
      he hfits (Nat.le_of_lt ht)
    rw [← halike.has] at hchanges
    have hsame := got_untouched ha hafits ht hchanges (fun c hc hhas => htouch.1 ⟨c, hc, hhas⟩)
      fun c hc hhas => htouch.2 ⟨c, hc, hhas⟩
    obtain rfl : x = a.read t s := ok.inj (hx.symm.trans hsame)
    rw [← hpair, ← halike.kept]
    exact WordBlock.bytes_fit hproper hproper' WordBlock.kept_read WordBlock.kept_read hword

end

/-! ## Destinations that cannot be saved -/

section

variable {junk : Junk} {a b : WordBlock} {i j : BodyInput} {dst off m : Nat} {x : BitVec 16}
variable {xs : List (BitVec 16)} {s : Store}

/-- If some words can be saved, then the first one can. -/
theorem saveWords_first (h : (i.saveWords dst off (x :: xs) s).1 = .ok ()) :
    (i.saveWords dst off [x] s).1 = .ok () := by
  simp only [BodyInput.saveWords, saveWord] at h ⊢
  split at h
  · rename_i area z heq
    split at h
    · cases h
    · rename_i hkn
      rw [if_neg hkn]
      simp only [saveKnLoop] at h ⊢
      split at h
      · rfl
      · cases h
  · rename_i area z limit heq
    simp only [saveLoop] at h ⊢
    split at h
    · rename_i hlt
      rw [if_pos hlt]
    · cases h
  · cases h

/-- If the bytes cannot be saved, `WTOB` does not pass. -/
theorem wtob_fails (hm : 0 < m) (hb : (i.operand 6).gotBlock s = some b) (hfits : b.Fits (2 * m))
    (hno : ∀ e, (i.operand 6).block s = some e → ¬ e.Fits (2 * m)) :
    (runMoves i.savePair ((range m).map (wtobMove i)) s).1 ≠ .ok () := by
  obtain ⟨inv, hs, hkeep, hfail⟩ := save_fails hb (Nat.mul_pos Nat.two_pos hm) hfits hno
  have hlast : wtobMove i (m - 1) ∈ (range m).map (wtobMove i) :=
    List.mem_map_of_mem (mem_range.mpr (sub_lt hm Nat.one_pos))
  refine runMoves_ne_ok hlast (fun u ps hu hread hpass => ?_) (fun move hmove u ps hu => ?_) hs
  · obtain ⟨p, rfl⟩ : ∃ p, ps = [p] := by
      change (i.word 2 (m - 1) u).map _ = .ok ps at hread
      rcases hword : i.word 2 (m - 1) u with e | y <;> rw [hword] at hread
      · cases hread
      · exact ⟨bytePair y, (ok.inj hread).symm⟩
    change (i.saveWords (i.pc + 6) (2 * (m - 1)) [p.1, p.2] u).1 = .ok () at hpass
    have hfirst : i.saveWords (i.pc + 6) (2 * (m - 1)) [p.1] u =
        (.ok (), (i.saveWords (i.pc + 6) (2 * (m - 1)) [p.1] u).2) :=
      Prod.ext (saveWords_first hpass) rfl
    have hplace : 2 * (m - 1) + 1 = 2 * m - 1 := by omega
    rw [saveWords_cons hfirst, hplace] at hpass
    exact hfail p.2 _ (hkeep _ _ u hu) hpass
  · obtain ⟨t, -, rfl⟩ := List.mem_map.mp hmove
    exact hkeep _ _ u hu

/-- If the words cannot be saved, `BTOW` does not pass. -/
theorem btow_fails (hm : 0 < m) (ha : (j.operand 6).gotBlock s = some a) (hfits : a.Fits m)
    (hno : ∀ e, (j.operand 6).block s = some e → ¬ e.Fits m) :
    (runMoves j.saveWords ((range m).map (btowMove junk j)) s).1 ≠ .ok () := by
  obtain ⟨inv, hs, hkeep, hfail⟩ := save_fails ha hm hfits hno
  have hlast : btowMove junk j (m - 1) ∈ (range m).map (btowMove junk j) :=
    List.mem_map_of_mem (mem_range.mpr (sub_lt hm Nat.one_pos))
  refine runMoves_ne_ok hlast (fun u xs hu hread => ?_) (fun move hmove u xs hu => ?_) hs
  · obtain ⟨y, rfl⟩ : ∃ y, xs = [y] := by
      change (j.words 2 (2 * (m - 1)) 2 u).map _ = .ok xs at hread
      rcases hwords : j.words 2 (2 * (m - 1)) 2 u with e | ys <;> rw [hwords] at hread
      · cases hread
      · exact ⟨_, (ok.inj hread).symm⟩
    exact hfail y u hu
  · obtain ⟨t, -, rfl⟩ := List.mem_map.mp hmove
    exact hkeep _ xs u hu

end

/-! ## The words come back -/

section

variable {junk : Junk} {a b e e' : WordBlock} {count : BitVec 16} {i j : BodyInput} {m n : Nat}
variable {s h : Store}

/-- Bytes are kept the same where they are saved and where they are got. -/
theorem kept_eq (he : (i.operand 6).block s = some e) (hb : (i.operand 6).gotBlock s = some b)
    (x : BitVec 16) : b.kept x = e.kept x := by
  rcases saved_cases he hb with ⟨-, halike⟩ | ⟨-, rfl, rfl⟩
  · exact congrFun halike.kept x
  · rfl

theorem WordBlock.Proper.kept_kept (hb : b.Proper) (x : BitVec 16) :
    b.kept (b.kept x) = b.kept x := by
  refine eq_of_toNat_eq ?_
  rw [hb.toNat_kept, hb.toNat_kept, mod_mod]

theorem wtob_saved (he : (i.operand 6).block s = some e) (hfits : e.Fits (2 * m))
    {g : Nat → BitVec 16 × BitVec 16}
    (hg : ∀ k < m, ∃ x, (i.operand 2).get k (saveFirst (i.savePair (i.pc + 6)) g k s) = .ok x ∧
      Prod.map e.kept e.kept (bytePair x) = Prod.map e.kept e.kept (g k)) :
    runMoves i.savePair ((range m).map (wtobMove i)) s =
      (.ok (), saveFirst (i.savePair (i.pc + 6)) g m s) := by
  refine runMoves_first_eq (wtobMove i) (fun k u => ((i.operand 2).get k u).map bytePair)
    (fillsBlock_pairs (fillsBlock_words he hfits)) changesOnly_refl
    (fun _ _ => ⟨rfl, rfl, fun u _ => wtobMove_read u⟩) fun k hk => ?_
  obtain ⟨x, hx, hbytes⟩ := hg k hk
  refine ⟨bytePair x, ?_, hbytes⟩
  rw [hx]
  rfl

/-- If `WTOB` passes, it has got a word in every pass. -/
theorem exists_got (he : (i.operand 6).block s = some e) (hfits : e.Fits (2 * m))
    (hpass : (runMoves i.savePair ((range m).map (wtobMove i)) s).1 = .ok ()) :
    ∃ x : Nat → BitVec 16, (∀ k < m, (i.operand 2).get k
        (saveFirst (i.savePair (i.pc + 6)) (fun k => bytePair (x k)) k s) = .ok (x k)) ∧
      (runMoves i.savePair ((range m).map (wtobMove i)) s).2 =
        saveFirst (i.savePair (i.pc + 6)) (fun k => bytePair (x k)) m s := by
  have hfill := fillsBlock_pairs (fillsBlock_words he hfits)
  generalize hh : (runMoves i.savePair ((range m).map (wtobMove i)) s).2 = h
  have hgot := (wtob_saved_iff (g := fun k => (e.read (2 * k) h, e.read (2 * k + 1) h))
    he hfits).2.mp ⟨hpass, fun k _ => by rw [hh]⟩
  have hword (k : Nat) : ∃ x, k < m → (i.operand 2).get k (saveFirst (i.savePair (i.pc + 6))
      (fun k => (e.read (2 * k) h, e.read (2 * k + 1) h)) k s) = .ok x ∧
      Prod.map e.kept e.kept (bytePair x) = (e.read (2 * k) h, e.read (2 * k + 1) h) := by
    by_cases hk : k < m
    · obtain ⟨x, hx⟩ := hgot k hk
      exact ⟨x, fun _ => hx⟩
    · exact ⟨0, fun hlt => absurd hlt hk⟩
  obtain ⟨x, hx⟩ := Classical.axiomOfChoice hword
  have hsame (k : Nat) (hk : k ≤ m) : saveFirst (i.savePair (i.pc + 6))
        (fun k => (e.read (2 * k) h, e.read (2 * k + 1) h)) k s =
      saveFirst (i.savePair (i.pc + 6)) (fun k => bytePair (x k)) k s :=
    saveFirst_congr hfill changesOnly_refl hk fun l hl => by
      rw [(hx l (by omega)).2, Prod.map_apply, WordBlock.kept_read, WordBlock.kept_read]
  have hgets (k : Nat) (hk : k < m) : (i.operand 2).get k
      (saveFirst (i.savePair (i.pc + 6)) (fun k => bytePair (x k)) k s) = .ok (x k) := by
    rw [← hsame k (Nat.le_of_lt hk)]
    exact (hx k hk).1
  refine ⟨x, hgets, ?_⟩
  rw [← hh, wtob_saved (g := fun k => bytePair (x k)) he hfits fun k hk => ⟨x k, hgets k hk, rfl⟩]

theorem wordsKeep_iff (hm : count.toNat / 2 = m) (he : (i.operand 6).block i.store = some e)
    (hb : (i.operand 6).gotBlock i.store = some b) (hfits : e.Fits (2 * m)) :
    WordsKeep a b count i ↔
      (runMoves i.savePair ((range m).map (wtobMove i)) i.store).1 = .ok () ∧
      ∀ k < m, (e.read (2 * k) (runMoves i.savePair ((range m).map (wtobMove i)) i.store).2,
        e.read (2 * k + 1) (runMoves i.savePair ((range m).map (wtobMove i)) i.store).2) =
          bytePair (wordsOf a i k) := by
  have hkept : b.kept = e.kept := funext (kept_eq he hb)
  rw [(wtob_saved_iff he hfits).2, WordsKeep, hm, hkept]
  rfl

theorem stored_of_wordsKeep (hm : count.toNat / 2 = m) (he : (i.operand 6).block i.store = some e)
    (hb : (i.operand 6).gotBlock i.store = some b) (hfits : e.Fits (2 * m))
    (hkeep : WordsKeep a b count i) :
    runMoves i.savePair ((range m).map (wtobMove i)) i.store =
      (.ok (), bytesSaved i (wordsOf a i) m) := by
  have hkept : b.kept = e.kept := funext (kept_eq he hb)
  have hproper := proper_of_block he
  refine wtob_saved he hfits fun k hk => ?_
  obtain ⟨x, hx, hbytes⟩ := hkeep k (by omega)
  rw [hkept] at hbytes
  refine ⟨x, hx, ?_⟩
  rw [← hbytes, Prod.map_apply, Prod.map_apply, hproper.kept_kept, hproper.kept_kept]

/-- What `BTOW` leaves if its destination is no plain `V` operand. -/
theorem joined_iff (h : ByteTrip a b count i j) (hm : count.toNat = 2 * m) (hpos : 0 < m)
    (he : (i.operand 6).block i.store = some e)
    (hchanges : ChangesOnly (e.Has (2 * m)) i.store j.store)
    (he' : (j.operand 6).block j.store = some e') (hfits : e'.Fits m) (halike : a.Alike e') :
    ((runMoves j.saveWords ((range m).map (btowMove junk j)) j.store).1 = .ok () ∧
        ∀ k < m, a.read k (runMoves j.saveWords ((range m).map (btowMove junk j)) j.store).2 =
          wordsOf a i k) ↔
      ∀ k < m, a.kept (joinBytes
        (b.read (2 * k) (saveFirst (j.saveWords (j.pc + 6)) (wordsOf a i) k j.store))
        (b.read (2 * k + 1) (saveFirst (j.saveWords (j.pc + 6)) (wordsOf a i) k j.store))) =
          wordsOf a i k := by
  have hbfits : b.Fits (2 * m) := hm ▸ h.bytesFit (by omega)
  have hkept (x : BitVec 16) : a.kept x = e'.kept x := congrFun halike.kept x
  simp only [hkept, halike.read]
  refine (btow_saved_iff junk he' hfits hbfits fun k hk => ?_).2
  exact source_stays he h.bytes hchanges h.bytes' he' h.words' hfits (Nat.le_of_lt hk)

theorem restores_iff (h : ByteTrip a b count i j) (hm : count.toNat = 2 * m) (hpos : 0 < m)
    (hstore : (runMoves i.savePair ((range m).map (wtobMove i)) i.store).2 = j.store)
    (he : (i.operand 6).block i.store = some e) (hfits : e.Fits (2 * m))
    (he' : (j.operand 6).block j.store = some e') (hfits' : e'.Fits m) (halike' : a.Alike e') :
    ((runMoves i.savePair ((range m).map (wtobMove i)) i.store).1 = .ok () ∧
        (runMoves j.saveWords ((range m).map (btowMove junk j)) j.store).1 = .ok () ∧
        ∀ k < m, a.read k (runMoves j.saveWords ((range m).map (btowMove junk j)) j.store).2 =
          wordsOf a i k) ↔ WordsKeep a b count i ∧ BytesKeep a b count i j := by
  have hm2 : count.toNat / 2 = m := by omega
  have hchanges := (wtob_saved_iff (g := fun _ => (0, 0)) he hfits).1
  rw [hstore] at hchanges
  have hafits : a.Fits m := hm2 ▸ h.wordsFit (by omega)
  rw [joined_iff h hm hpos he hchanges he' hfits' halike']
  have hkeeps : WordsKeep a b count i → ((∀ k < m, a.kept (joinBytes
      (b.read (2 * k) (saveFirst (j.saveWords (j.pc + 6)) (wordsOf a i) k j.store))
      (b.read (2 * k + 1) (saveFirst (j.saveWords (j.pc + 6)) (wordsOf a i) k j.store))) =
        wordsOf a i k) ↔ BytesKeep a b count i j) := by
    intro hkeep
    have hsaved := congrArg Prod.snd (stored_of_wordsKeep hm2 he h.bytes hfits hkeep)
    rw [hstore] at hsaved
    rw [BytesKeep, hm2, hsaved]
  constructor
  · rintro ⟨hpass, hright⟩
    have hkeep : WordsKeep a b count i := by
      rcases saved_cases he h.bytes with ⟨-, halike⟩ | ⟨-, rfl, rfl⟩
      · refine (wordsKeep_iff hm2 he h.bytes hfits).mpr ⟨hpass, ?_⟩
        rw [hstore]
        exact pairs_of_restored h.words hafits h.bytes he hfits halike hstore hpass he' hfits'
          halike' hright
      · -- the bytes are saved one layer up
        intro k hk
        have hgot := get_of_gotBlock h.words hafits (show k < m by omega)
        have hchanges := pairs_changesOnly (g := fun k => bytePair (wordsOf a i k)) he hfits
          (show k ≤ m by omega)
        have hsame := get_of_savedV (o := i.operand 6) (k := k) (i.operand 2) rfl hchanges
        exact ⟨a.read k i.store, hsame.trans hgot, rfl⟩
    exact ⟨hkeep, (hkeeps hkeep).mp hright⟩
  · rintro ⟨hkeep, hbytes⟩
    exact ⟨((wordsKeep_iff hm2 he h.bytes hfits).mp hkeep).1, (hkeeps hkeep).mpr hbytes⟩

/-- `BTOW` passes if its destination is a plain `V` operand, and its words stay as they are. -/
theorem btow_v (junk : Junk) (hv : (j.operand 6).type = some .v)
    (hb : (j.operand 2).gotBlock s = some b) (hbfits : b.Fits (2 * m))
    (ha : (j.operand 6).gotBlock s = some a) (hafits : a.Fits m) :
    (runMoves j.saveWords ((range m).map (btowMove junk j)) s).1 = .ok () ∧
      ∀ k < m, a.read k (runMoves j.saveWords ((range m).map (btowMove junk j)) s).2 =
        a.read k s := by
  obtain ⟨hblock, hblock'⟩ := WordOperand.block_v hv s
  obtain rfl := some.inj (hblock'.symm.trans ha)
  have hstays (g : Nat → BitVec 16) (k : Nat) (hk : k < m) :
      ChangesOnly (((j.operand 6).savedV s).Has k) s (saveFirst (j.saveWords (j.pc + 6)) g k s) :=
    (saveFirst_view (fillsBlock_words hblock (n := k) (hafits.mono (Nat.le_of_lt hk))).toSavesBlock
      changesOnly_refl le_rfl).1
  have hgot (g : Nat → BitVec 16) (k : Nat) (hk : k < m) :
      (j.operand 2).gotBlock (saveFirst (j.saveWords (j.pc + 6)) g k s) = some b := by
    rw [gotBlock_of_agree fun c hc => (hstays g k hk).cells c ?_]
    · exact hb
    · obtain ⟨⟨r, rfl⟩, -⟩ := WordOperand.mem_gotRegister hc
      rintro ⟨l, -, hl⟩
      cases mem_singleton.mp hl
  have hread (g : Nat → BitVec 16) (k : Nat) (hk : k < m) (l : Nat) (hl : l < 2 * m) :
      b.read l (saveFirst (j.saveWords (j.pc + 6)) g k s) = b.read l s := by
    have hget := get_of_savedV (o := j.operand 6) (k := l) (j.operand 2) rfl (hstays g k hk)
    rw [get_of_gotBlock (hgot g k hk) hbfits hl, get_of_gotBlock hb hbfits hl] at hget
    exact ok.inj hget
  obtain ⟨hchanges, hright⟩ := btow_saved_iff junk
    (g := fun k => joinBytes (b.read (2 * k) s) (b.read (2 * k + 1) s)) hblock hafits hbfits
    (hgot _)
  refine ⟨(hright.mpr fun k hk => ?_).1, fun k hk => ?_⟩
  · rw [hread _ k hk _ (by omega), hread _ k hk _ (by omega)]
    rfl
  · exact WordBlock.read_of_changes hchanges fun c hc => savedV_apart hafits hk hc

theorem leaves_iff (hm : count.toNat / 2 = m) (he : (i.operand 6).block i.store = some e)
    (hfits : e.Fits (2 * m)) :
    ((runMoves i.savePair ((range m).map (wtobMove i)) i.store).1 = .ok () ∧
      ∀ k < m, a.read k (runMoves i.savePair ((range m).map (wtobMove i)) i.store).2 =
        wordsOf a i k) ↔ LeavesWords a count i := by
  rw [LeavesWords, hm]
  constructor
  · rintro ⟨hpass, hwords⟩
    obtain ⟨x, hgets, hsaved⟩ := exists_got he hfits hpass
    rw [hsaved] at hwords
    exact ⟨x, hgets, hwords⟩
  · rintro ⟨x, hgets, hwords⟩
    have hsaved := wtob_saved (g := fun k => bytePair (x k)) he hfits fun k hk =>
      ⟨x k, hgets k hk, rfl⟩
    rw [hsaved]
    exact ⟨rfl, hwords⟩

theorem bytes_right_iff (h : ByteTrip a b count i j) :
    RestoresWords a count i (runCiWtobIns i) (runCiBtowIns junk j) ↔ BytesHold a b count i j := by
  obtain ⟨m, hm⟩ : ∃ m, count.toNat = 2 * m := ⟨count.toNat / 2, by have := h.even; omega⟩
  have hm2 : count.toNat / 2 = m := by omega
  have hafter := h.after
  rw [wtob_run h.power h.size h.even, hm2] at hafter ⊢
  rw [btow_run h.power' h.size' h.even, hm2]
  split at hafter
  · rename_i hneg
    rw [if_pos hneg, if_pos hneg]
    refine iff_of_true ⟨fun hnonneg => absurd hneg (Int.not_lt.mpr hnonneg), fun k _ => ?_⟩
      fun hpos => absurd hneg (Int.not_lt.mpr (Int.le_of_lt hpos))
    exact congrArg (a.read k) hafter
  rename_i hnonneg
  rw [if_neg hnonneg, if_neg hnonneg]
  have hstore : (runMoves i.savePair ((range m).map (wtobMove i)) i.store).2 = j.store :=
    hafter.symm
  have hnonneg := Int.not_lt.mp hnonneg
  rcases Nat.eq_zero_or_pos m with rfl | hpos
  · have hzero : count = 0 := eq_of_toNat_eq hm
    refine iff_of_true ⟨fun _ => ⟨rfl, rfl⟩, fun k hk => ?_⟩ fun hpos => ?_
    · rw [hm2] at hk
      cases hk
    · rw [hzero] at hpos
      cases hpos
  have hpos' : 0 < count.toInt := by
    rw [BitVec.toInt_eq_toNat_cond] at hnonneg ⊢
    split at hnonneg <;> split <;> omega
  have hafits : a.Fits m := hm2 ▸ h.wordsFit (by omega)
  have hbfits : b.Fits (2 * m) := hm ▸ h.bytesFit (by omega)
  have hhold : BytesHold a b count i j ↔ _ := forall_prop_of_true hpos'
  rw [hhold, hm, show 2 * m / 2 = m by omega]
  by_cases hsaved : ∃ e, (i.operand 6).block i.store = some e ∧ e.Fits (2 * m)
  · by_cases hsaved' : ∃ e, (j.operand 6).block j.store = some e ∧ e.Fits m
    · rw [and_iff_right hsaved, and_iff_right hsaved']
      obtain ⟨e, he, hfits⟩ := hsaved
      obtain ⟨e', he', hfits'⟩ := hsaved'
      have hparts : RestoresWords a count i
          ((runMoves i.savePair ((range m).map (wtobMove i)) i.store).1, i.inPF,
            (runMoves i.savePair ((range m).map (wtobMove i)) i.store).2)
          ((runMoves j.saveWords ((range m).map (btowMove junk j)) j.store).1, j.inPF,
            (runMoves j.saveWords ((range m).map (btowMove junk j)) j.store).2) ↔
          (runMoves i.savePair ((range m).map (wtobMove i)) i.store).1 = .ok () ∧
          (runMoves j.saveWords ((range m).map (btowMove junk j)) j.store).1 = .ok () ∧
          ∀ k < m, a.read k (runMoves j.saveWords ((range m).map (btowMove junk j))
            j.store).2 = wordsOf a i k := by
        constructor
        · rintro ⟨hpass, hwords⟩
          rw [hm2] at hwords
          exact ⟨(hpass hnonneg).1, (hpass hnonneg).2, hwords⟩
        · rintro ⟨hpass, hpass', hwords⟩
          refine ⟨fun _ => ⟨hpass, hpass'⟩, ?_⟩
          rw [hm2]
          exact hwords
      rw [hparts]
      split
      · rename_i hv
        obtain ⟨hpass, hsame⟩ := btow_v junk hv h.bytes' hbfits h.words' hafits
        rw [← leaves_iff hm2 he hfits, and_iff_right hpass, hstore]
        exact and_congr_right fun _ => forall₂_congr fun k hk => by rw [hsame k hk]
      · rename_i hv
        rcases saved_cases he' h.words' with ⟨-, halike⟩ | ⟨hv', -⟩
        · exact restores_iff h hm hpos hstore he hfits he' hfits' halike
        · exact absurd hv' hv
    · refine iff_of_false (fun hright => ?_) fun hhold => hsaved' hhold.2.1
      exact btow_fails hpos h.words' hafits (fun e he hfits => hsaved' ⟨e, he, hfits⟩)
        (hright.passes hnonneg).2
  · refine iff_of_false (fun hright => ?_) fun hhold => hsaved hhold.1
    exact wtob_fails hpos h.bytes hbfits (fun e he hfits => hsaved ⟨e, he, hfits⟩)
      (hright.passes hnonneg).1

end

/-- Moves, swaps and the round trip over bytes are right just as far as their words stay until they
are got. -/
theorem moves_right_iff {a d src' dst' : WordBlock} {src dst : WordElement × Nat}
    {n m l : BitVec 16} {i i' i'' j : BodyInput} (junk : Junk) (hmove : BmovOf a d n i)
    (hswap : SwapOf src dst m i') (htrip : ByteTrip src' dst' l i'' j) :
    (CopiesBlock a d n i (runCiBmovIns i) ↔ BmovHolds a d n i) ∧
      (SwapsBlock src dst m i' (runCiSwapwordIns i') ↔ SwapHolds src dst m i') ∧
      (RestoresWords src' l i'' (runCiWtobIns i'') (runCiBtowIns junk j) ↔
        BytesHold src' dst' l i'' j) :=
  ⟨bmov_right_iff hmove, swap_right_iff hswap, bytes_right_iff htrip⟩

/-! ## Samples -/

/-- Nothing but zeros. -/
def noJunk : Junk := ⟨fun _ => 0, fun _ => 0, fun _ => 0, 0⟩

def d10Operand : List UInt8 := [0, 0x11, 10, 0]

/-- An instruction on two operands and a count. -/
def fromTo (src dst : List UInt8) (n : BitVec 16) (s : Store) : BodyInput :=
  { ucode := [0, 0] ++ src ++ dst ++ wordOperand n, pc := 0, level := 0, now := 0, inPF := 1,
    sfc := Plc.off.sfc, store := s }

def oneTwo : Store := listFromD0 [1, 2]

def d0ToD10 : BodyInput := fromTo d0Operand d10Operand 2 oneTwo

/-- `D0` to the bytes `D10` and `D11`, and back. -/
def d10ToD0 : BodyInput := fromTo d10Operand d0Operand 2 (runCiWtobIns d0ToD10).2.2

/-- The halves of the double word in `D0` and `D1` to `D10` and `D11`. -/
def swapToD10 : BodyInput := fromTo (d0Operand ++ [0, 0]) (d10Operand ++ [0, 0]) 1 oneTwo

/-- The halves of the double word in `D0` and `D1`, in place. -/
def swapD0 : BodyInput := fromTo (d0Operand ++ [0, 0]) (d0Operand ++ [0, 0]) 1 oneTwo

theorem d0ToD10_move : BmovOf (.elems (.elem .D) 8000 0) (.elems (.elem .D) 8000 10) 2 d0ToD10 :=
  ⟨getPowerFlow_one, rfl, rfl, fun _ => (by decide : 0 + 2 ≤ 8000), rfl,
    fun _ => (by decide : 10 + 2 ≤ 8000)⟩

theorem swapToD10_swap : SwapOf (.D, 0) (.D, 10) 1 swapToD10 :=
  ⟨getPowerFlow_one, rfl, ⟨false, rfl, rfl⟩, ⟨false, rfl, rfl⟩⟩

theorem swapD0_swap : SwapOf (.D, 0) (.D, 0) 1 swapD0 :=
  ⟨getPowerFlow_one, rfl, ⟨false, rfl, rfl⟩, ⟨false, rfl, rfl⟩⟩

theorem d0ToD10_trip :
    ByteTrip (.elems (.elem .D) 8000 0) (.elems (.elem .D) 8000 10) 2 d0ToD10 d10ToD0 :=
  ⟨getPowerFlow_one, getPowerFlow_one, rfl, rfl, rfl, by decide, rfl,
    fun _ => (by decide : 0 + 1 ≤ 8000), rfl, fun _ => (by decide : 10 + 2 ≤ 8000), rfl, rfl⟩

/-- The word 1 comes back from its bytes. -/
theorem d0ToD10_bytes :
    BytesHold (.elems (.elem .D) 8000 0) (.elems (.elem .D) 8000 10) 2 d0ToD10 d10ToD0 := by
  refine fun _ => ⟨⟨_, rfl, (by decide : 10 + 2 ≤ 8000)⟩, ⟨_, rfl, (by decide : 0 + 1 ≤ 8000)⟩, ?_⟩
  constructor
  · intro k hk
    obtain rfl : k = 0 := by
      change k < 1 at hk
      omega
    exact ⟨1, rfl, rfl⟩
  · intro k hk
    obtain rfl : k = 0 := by
      change k < 1 at hk
      omega
    rfl

theorem d0ToD10_words :
    BmovHolds (.elems (.elem .D) 8000 0) (.elems (.elem .D) 8000 10) 2 d0ToD10 := by
  refine fun _ => ⟨_, rfl, (by decide : 10 + 2 ≤ 8000), ?_⟩
  intro k hk
  change k < 2 at hk
  interval_cases k
  · exact ⟨1, rfl, rfl⟩
  · exact ⟨2, rfl, rfl⟩

theorem swapToD10_words : SwapHolds (.D, 0) (.D, 10) 1 swapToD10 := by
  refine .inr (.inr (.inr ⟨by decide, fun k hk => ?_⟩))
  change k < 2 at hk
  interval_cases k <;> rfl

/-- `D0` and `D1` are moved, swapped, and split and joined again. -/
theorem moves_right_d0 :
    CopiesBlock (.elems (.elem .D) 8000 0) (.elems (.elem .D) 8000 10) 2 d0ToD10
        (runCiBmovIns d0ToD10) ∧
      SwapsBlock (.D, 0) (.D, 10) 1 swapToD10 (runCiSwapwordIns swapToD10) ∧
      RestoresWords (.elems (.elem .D) 8000 0) 2 d0ToD10 (runCiWtobIns d0ToD10)
        (runCiBtowIns noJunk d10ToD0) := by
  obtain ⟨hmove, hswap, htrip⟩ :=
    moves_right_iff noJunk d0ToD10_move swapToD10_swap d0ToD10_trip
  exact ⟨hmove.mpr d0ToD10_words, hswap.mpr swapToD10_words, htrip.mpr d0ToD10_bytes⟩

/-- In place, `D1` is overwritten by what `D0` has become. -/
theorem swapword_loses_word :
    ¬ SwapsBlock (.D, 0) (.D, 0) 1 swapD0 (runCiSwapwordIns swapD0) := by
  intro h
  rcases (swap_right_iff swapD0_swap).mp h with hzero | hlong | hlong | ⟨-, hwords⟩
  · exact absurd hzero (by decide)
  · exact absurd hlong (by decide)
  · exact absurd hlong (by decide)
  · exact absurd (hwords 1 (by decide)) (by decide)

end Kalyke
