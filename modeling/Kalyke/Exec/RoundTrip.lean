-- SUMMARY: Which word and double word operands give back what was saved in them.
import Kalyke.Exec.Access

/-!
# Saving and Getting Back

`save_word` and `get_word` decode an operand each on its own, and so do `save_dword` and
`get_dword`. Where the two agree on the elements of an operand, a block of values that has been
saved is got back, joined bits up to their width. They disagree on the plain `V` operand of a word,
on the upper halves of `V` operands of 32 bits, and on the counters of 32 bits.
-/

namespace Kalyke

open List Nat

variable {u : Ucode} {p n off : Nat} {s s' : Store}

/-! ## Single elements -/

@[simp] theorem getWord_setWord_self (area : WordArea) (i : Nat) (x : BitVec 16) :
    (s.setWord area i x).getWord area i = x := by
  cases area <;> simp [Store.setWord, Store.getWord]

theorem getWord_setWord_of_ne {area : WordArea} {i j : Nat} (h : i ≠ j) (x : BitVec 16) :
    (s.setWord area j x).getWord area i = s.getWord area i := by
  cases area <;> simp [Store.setWord, Store.getWord, h]

/-- Different layers do not share elements. -/
theorem getV_setV_of_ne {l l' i j : Nat} (hl : l ≠ l') (hi : i < vRang) (hj : j < vRang)
    (x : BitVec 16) : (s.setWord (.v l') j x).getWord (.v l) i = s.getWord (.v l) i := by
  refine Function.update_of_ne (fun h => hl ?_) _ _
  have hlayer := congrArg (· / vRang) h
  simpa only [layer_div hi, layer_div hj] using hlayer

theorem WordArea.rang_le (area : WordArea) : area.rang ≤ 32768 := by
  cases area with
  | elem e => cases e <;> decide
  | v layer => exact (by decide : vRang ≤ 32768)

/-! ## Index registers -/

/-- The number of the first element of an operand with an offset. -/
def blockStart (u : Ucode) (p : Nat) (s : Store) (z : Bool) (off : Nat) : Nat :=
  elementIndex (operandStart u p s z + off)

theorem operandStart_congr {z : Bool} (h : z = true → s'.word .Z = s.word .Z) :
    operandStart u p s' z = operandStart u p s z := by
  cases z with
  | false => rfl
  | true => rw [operandStart, operandStart, h rfl]

theorem operandKnStart_congr (h : s'.word .Z = s.word .Z) (z : Bool) :
    operandKnStart u p s' z = operandKnStart u p s z := by
  rw [operandKnStart, operandKnStart, h]

theorem setWord_word_z {area : WordArea} (h : area ≠ .elem .Z) (i : Nat) (x : BitVec 16) :
    (s.setWord area i x).word .Z = s.word .Z := by
  cases area with
  | elem e =>
    refine Function.update_of_ne (fun he => h ?_) _ _
    rw [he]
  | v layer => rfl

theorem setBit_word {area : BitArea} (i : Nat) (b : Bool) :
    (s.setBit area i b).word = s.word := by
  cases area <;> rfl

/-! ## Values in joined bits -/

/-- What `width` bits hold of a value. -/
def cutTo {w : Nat} (width : Nat) (x : BitVec w) : BitVec w := BitVec.ofNat w (x.toNat % 2 ^ width)

theorem joinBits_getLsbD {w : Nat} (x : BitVec w) (width : Nat) :
    joinBits x.getLsbD width = x.toNat % 2 ^ width := by
  induction width with
  | zero => simp [joinBits, mod_one]
  | succ k ih =>
    have hbit : (x.getLsbD k).toNat = x.toNat / 2 ^ k % 2 := by
      rw [BitVec.getLsbD, testBit_eq_decide_div_mod_eq]
      rcases mod_two_eq_zero_or_one (x.toNat / 2 ^ k) with h | h <;> simp [h]
    rw [joinBits, ih, hbit, Nat.pow_succ, mod_mul, Nat.mul_comm]

theorem joinBits_congr {f g : Nat → Bool} {width : Nat} (h : ∀ m < width, f m = g m) :
    joinBits f width = joinBits g width := by
  induction width with
  | zero => rfl
  | succ k ih =>
    rw [joinBits, joinBits, ih fun m hm => h m (lt_succ_of_lt hm), h k (lt_succ_self k)]

/-- A list is what its elements are. -/
theorem map_range_eq {α β : Type} {f : Nat → β} {g : α → β} {xs : List α}
    (h : ∀ j (hj : j < xs.length), f j = g (xs.get ⟨j, hj⟩)) :
    (range xs.length).map f = xs.map g := by
  refine ext_getElem (by simp) fun j hj hj' => ?_
  simp only [getElem_map, getElem_range]
  exact h j (by simpa using hj)

/-- A block of joined bits gives back what it holds of the values saved. -/
theorem getKnLoop_of_saveKnLoop {w : Nat} {area : BitArea} {width start : Nat}
    {xs buf : List (BitVec w)} (hwidth : 0 < width)
    (h : saveKnLoop area width start xs off s = (.ok (), buf, s')) :
    getKnLoop w (s'.getBit area) area.rang width start xs.length off =
      (.ok (), xs.map (cutTo width)) := by
  have hblock : InBits area.rang width (knBase start off width) xs.length :=
    (saveKnLoop_ok_iff hwidth).mp (congrArg Prod.fst h)
  rw [getKnLoop_of_inBits hblock]
  refine congrArg _ (map_range_eq fun j hj => congrArg _ ?_)
  rw [← joinBits_getLsbD]
  refine joinBits_congr fun m hm => ?_
  rw [← saveKnLoop_read hwidth j hj hm (hblock.bit_lt hj hm) (s := s), h]

theorem saveKnLoop_word {w : Nat} {area : BitArea} {width start : Nat} {xs : List (BitVec w)}
    (hwidth : 0 < width) : (saveKnLoop area width start xs off s).2.2.word = s.word :=
  saveKnLoop_frame (fun s => s.word) hwidth fun _ _ _ b _ => setBit_word _ b

/-! ## Words -/

/-- What the word operand at `p` can hold of a value. -/
def keptWord (u : Ucode) (p n : Nat) (x : BitVec 16) : BitVec 16 :=
  match (AddrType.ofCode (u.getPU8 (p + 1))).bind (saveWordTable n) with
  | some (.kn _ z) => cutTo (4 * operandKn u p z) x
  | _ => x

/-- If `save_word` passes, `get_word` gives back the values. No operand that is indexed by a `Z`
register has `Z` elements, so the register is never among the elements written. -/
def WordRoundTrip (u : Ucode) (p n off : Nat) (s : Store) (xs : List (BitVec 16)) : Prop :=
  ∀ buf s', saveWord u p s n off xs = (.ok (), buf, s') →
    getWord u p s' n off xs.length = (.ok (), xs.map (keptWord u p n))

theorem saveWordTable_cases {a : AddrType} {form : WordForm} (h : saveWordTable n a = some form)
    (hv : a ≠ .v) :
    (∃ area z, form = .kn area z ∧ getWordTable n a = some (.kn area z)) ∨
    ∃ area z l l', form = .cells area z l ∧ getWordTable n a = some (.cells area z l') ∧ l ≤ l' ∧
      l' ≤ area.rang ∧ (z = true → area ≠ .elem .Z) := by
  cases a <;> cases h <;> first
    | exact absurd rfl hv
    | exact .inl ⟨_, _, rfl, rfl⟩
    | exact .inr ⟨_, _, _, _, rfl, rfl, by decide, Nat.le_refl _, by simp⟩
    | exact .inr ⟨_, _, _, _, rfl, rfl, Nat.le_refl _, Nat.le_refl _, by simp⟩

section

variable {a : AddrType} {xs : List (BitVec 16)}

theorem wordRoundTrip_kn {area : BitArea} {z : Bool}
    (hsave : (AddrType.ofCode (u.getPU8 (p + 1))).bind (saveWordTable n) = some (.kn area z))
    (hget : (AddrType.ofCode (u.getPU8 (p + 1))).bind (getWordTable n) = some (.kn area z)) :
    WordRoundTrip u p n off s xs := by
  intro buf s' h
  have hkept : keptWord u p n = cutTo (4 * operandKn u p z) := by
    funext x
    rw [keptWord, hsave]
  simp only [saveWord, hsave] at h
  split at h
  · cases h
  · rename_i hkn
    have hz : s'.word .Z = s.word .Z := by
      have hword :
          (saveKnLoop area (4 * operandKn u p z) (operandKnStart u p s z) xs off s).2.2.word =
          s.word := saveKnLoop_word (by omega)
      rw [h] at hword
      exact congrFun hword .Z
    simp only [getWord, hget]
    rw [if_neg hkn, operandKnStart_congr hz, getKnLoop_of_saveKnLoop (by omega) h, hkept]

/-- What `save_word` writes to elements in a row. -/
theorem saveWord_cells {area : WordArea} {z : Bool} {limit : Nat} {buf : List (BitVec 16)}
    (hsave : (AddrType.ofCode (u.getPU8 (p + 1))).bind (saveWordTable n) =
      some (.cells area z limit)) (hlimit : limit ≤ area.rang)
    (h : saveWord u p s n off xs = (.ok (), buf, s')) :
    InBlock limit 1 (blockStart u p s z off) xs.length ∧
    (saveLoop (fun i x s => s.setWord area i x) limit 1 xs (blockStart u p s z off) s).2 = s' := by
  have hrang := area.rang_le
  simp only [saveWord, hsave, Prod.mk.injEq] at h
  obtain ⟨hok, -, hstore⟩ := h
  exact ⟨(saveLoop_ok_iff (by omega)).mp hok, hstore⟩

theorem wordRoundTrip_cells {area : WordArea} {z : Bool} {l l' : Nat}
    (hsave : (AddrType.ofCode (u.getPU8 (p + 1))).bind (saveWordTable n) = some (.cells area z l))
    (hget : (AddrType.ofCode (u.getPU8 (p + 1))).bind (getWordTable n) = some (.cells area z l'))
    (hle : l ≤ l') (hl' : l' ≤ area.rang) (hz : z = true → area ≠ .elem .Z) :
    WordRoundTrip u p n off s xs := by
  intro buf s' h
  have hrang := area.rang_le
  have hkept : keptWord u p n = id := by
    funext x
    rw [keptWord, hsave]
    rfl
  obtain ⟨hblock, rfl⟩ := saveWord_cells hsave (by omega) h
  have hstart : blockStart u p (saveLoop (fun i x s => s.setWord area i x) l 1 xs
      (blockStart u p s z off) s).2 z off = blockStart u p s z off := by
    rw [blockStart, operandStart_congr fun hindexed => ?_, blockStart]
    exact saveLoop_frame (fun s => s.word .Z) (by omega) fun j _ _ x s =>
      setWord_word_z (hz hindexed) _ x
  simp only [getWord, hget]
  rw [← blockStart, hstart,
    getLoop_of_inBlock (by omega) fun j hj => Nat.lt_of_lt_of_le (hblock j hj) hle, hkept]
  refine congrArg _ (map_range_eq fun j hj => ?_)
  exact saveLoop_read (fun s i => s.getWord area i) id (by omega)
    (fun k x s => getWord_setWord_self area k x)
    (fun k l hkl x s => getWord_setWord_of_ne (by omega) x) j hj (hblock j hj)

/-- A list is given by its elements, read one by one. -/
theorem map_range_eq_iff {α β : Type} {f : Nat → β} {g : α → β} {xs : List α} :
    (range xs.length).map f = xs.map g ↔
      ∀ j (hj : j < xs.length), f j = g (xs.get ⟨j, hj⟩) := by
  refine ⟨fun h j hj => ?_, map_range_eq⟩
  have hget := congrArg (·[j]?) h
  simpa [hj] using hget

/-- The plain `V` operand is written one layer up and read in the layer of the call. -/
theorem wordRoundTrip_v_iff (ha : AddrType.ofCode (u.getPU8 (p + 1)) = some .v) :
    WordRoundTrip u p n off s xs ↔
      (InBlock vRang 1 (blockStart u p s false off) xs.length → ∀ j (hj : j < xs.length),
        s.getWord (.v n) (blockStart u p s false off + 1 * j) = xs.get ⟨j, hj⟩) := by
  have hsave : (AddrType.ofCode (u.getPU8 (p + 1))).bind (saveWordTable n) =
      some (.cells (.v (n + 1)) false vRang) := by
    rw [ha]
    rfl
  have hget : (AddrType.ofCode (u.getPU8 (p + 1))).bind (getWordTable n) =
      some (.cells (.v n) false vRang) := by
    rw [ha]
    rfl
  have hkept : keptWord u p n = id := by
    funext x
    rw [keptWord, hsave]
    rfl
  have hback (hblock : InBlock vRang 1 (blockStart u p s false off) xs.length) :
      getWord u p (saveLoop (fun i x s => s.setWord (.v (n + 1)) i x) vRang 1 xs
          (blockStart u p s false off) s).2 n off xs.length = (.ok (), xs.map (keptWord u p n)) ↔
        ∀ j (hj : j < xs.length),
          s.getWord (.v n) (blockStart u p s false off + 1 * j) = xs.get ⟨j, hj⟩ := by
    simp only [getWord, hget]
    have hloop (read : Nat → BitVec 16) : getLoop read vRang 1 xs.length
        (blockStart u p s false off) = _ := getLoop_of_inBlock (by decide) hblock
    have hplain (s' : Store) : elementIndex (operandStart u p s' false + off) =
        blockStart u p s false off := rfl
    rw [hplain, hloop, hkept, Prod.mk.injEq, and_iff_right rfl, map_range_eq_iff]
    refine forall_congr' fun j => forall_congr' fun hj => ?_
    rw [saveLoop_frame (fun t => t.getWord (.v n) (blockStart u p s false off + 1 * j)) (by decide)
      fun k _ hk x t => getV_setV_of_ne (Nat.succ_ne_self n).symm (hblock j hj) hk x]
    rfl
  constructor
  · intro h hblock
    refine (hback hblock).mp (h xs _ ?_)
    simp only [saveWord, hsave, Prod.mk.injEq, true_and]
    exact ⟨(saveLoop_ok_iff (by decide)).mpr hblock, rfl⟩
  · intro h buf s' hs
    obtain ⟨hblock, rfl⟩ := saveWord_cells hsave (Nat.le_refl _) hs
    exact (hback hblock).mpr (h hblock)

/-- What `save_word` saves, `get_word` gets back, but for a plain `V` operand whose elements in the
layer of the call do not hold the values already. -/
theorem wordRoundTrip_iff :
    WordRoundTrip u p n off s xs ↔
      (AddrType.ofCode (u.getPU8 (p + 1)) = some .v →
        InBlock vRang 1 (blockStart u p s false off) xs.length → ∀ j (hj : j < xs.length),
          s.getWord (.v n) (blockStart u p s false off + 1 * j) = xs.get ⟨j, hj⟩) := by
  by_cases hv : AddrType.ofCode (u.getPU8 (p + 1)) = some .v
  · rw [wordRoundTrip_v_iff hv]
    exact ⟨fun h _ => h, fun h => h hv⟩
  · refine iff_of_true ?_ fun h => absurd h hv
    rcases hform : (AddrType.ofCode (u.getPU8 (p + 1))).bind (saveWordTable n) with _ | form
    · intro buf s' h
      simp only [saveWord, hform] at h
      cases h
    · obtain ⟨a, ha, hsave⟩ := Option.bind_eq_some_iff.mp hform
      have hget :
          (AddrType.ofCode (u.getPU8 (p + 1))).bind (getWordTable n) = getWordTable n a := by
        rw [ha]
        rfl
      rcases saveWordTable_cases hsave (fun h => hv (h ▸ ha)) with
        ⟨area, z, rfl, htable⟩ | ⟨area, z, l, l', rfl, htable, hle, hl', hz⟩
      · exact wordRoundTrip_kn hform (hget.trans htable)
      · exact wordRoundTrip_cells hform (hget.trans htable) hle hl' hz

end

/-- Five saved in `V0` at call level 0 is got back as zero. -/
theorem v0_lost : ¬ WordRoundTrip [0x00, 0x16, 0x00, 0x00] 0 0 0 .off [5] := by
  intro h
  have hgot := congrArg Prod.snd (h _ _ rfl)
  exact absurd hgot (by decide)

/-! ## Double words -/

/-- What the operand of 32 bits at `p` can hold of a value. -/
def keptDword (u : Ucode) (p n : Nat) (x : BitVec 32) : BitVec 32 :=
  match (AddrType.ofCode (u.getPU8 (p + 1))).bind (saveDwordTable n) with
  | some (.kn _ z) => cutTo (4 * operandKn u p z) x
  | _ => x

/-- If `save_dword` passes, `get_dword` gives back the values. -/
def DwordRoundTrip (u : Ucode) (p n off : Nat) (s : Store) (xs : List (BitVec 32)) : Prop :=
  ∀ buf s', saveDword u p s n off xs = (.ok (), buf, s') →
    getDword u p s' n off xs.length = (.ok (), xs.map (keptDword u p n))

/-- A double word in two word elements. -/
def getTwo (low high : WordArea) (s : Store) (i : Nat) : BitVec 32 :=
  s.getWord high (i + 1) ++ s.getWord low i

/-- The upper half of a value. -/
def highHalf (x : BitVec 32) : BitVec 16 := (x >>> 16).setWidth 16

theorem append_highHalf (x : BitVec 32) : highHalf x ++ x.setWidth 16 = x := append_halves x

theorem highHalf_append (y z : BitVec 16) : highHalf (y ++ z) = y := by
  apply BitVec.eq_of_getLsbD_eq
  intro i hi
  rw [highHalf, BitVec.getLsbD_setWidth, BitVec.getLsbD_ushiftRight, BitVec.getLsbD_append]
  simp [hi]

theorem lowHalf_append (y z : BitVec 16) : (y ++ z).setWidth 16 = z := by
  apply BitVec.eq_of_getLsbD_eq
  intro i hi
  rw [BitVec.getLsbD_setWidth, BitVec.getLsbD_append]
  simp [hi]

theorem append_eq_iff {y : BitVec 16} {x : BitVec 32} :
    y ++ x.setWidth 16 = x ↔ y = highHalf x := by
  constructor
  · intro h
    rw [← h, highHalf_append]
  · rintro rfl
    exact append_highHalf x

theorem getTwo_setDword_self (area : WordArea) (i : Nat) (x : BitVec 32) :
    getTwo area area (setDword area area i x s) i = x := by
  rw [getTwo, setDword, getWord_setWord_self, getWord_setWord_of_ne (Nat.succ_ne_self i).symm,
    getWord_setWord_self]
  exact append_highHalf x

theorem getTwo_setDword_of_le {area : WordArea} {i j : Nat} (h : i + 2 ≤ j) (x : BitVec 32) :
    getTwo area area (setDword area area j x s) i = getTwo area area s i := by
  rw [getTwo, getTwo, setDword, getWord_setWord_of_ne (by omega), getWord_setWord_of_ne (by omega),
    getWord_setWord_of_ne (by omega), getWord_setWord_of_ne (by omega)]

section

variable {xs : List (BitVec 32)}

theorem dwordRoundTrip_kn {area : BitArea} {z : Bool}
    (hsave : (AddrType.ofCode (u.getPU8 (p + 1))).bind (saveDwordTable n) = some (.kn area z))
    (hget : (AddrType.ofCode (u.getPU8 (p + 1))).bind (getDwordTable n) = some (.kn area z)) :
    DwordRoundTrip u p n off s xs := by
  intro buf s' h
  have hkept : keptDword u p n = cutTo (4 * operandKn u p z) := by
    funext x
    rw [keptDword, hsave]
  have hleast : getDwordKnMin z ≤ 5 := by cases z <;> decide
  simp only [saveDword, hsave] at h
  split at h
  · cases h
  · rename_i hkn
    have hz : s'.word .Z = s.word .Z := by
      have hword :
          (saveKnLoop area (4 * operandKn u p z) (operandKnStart u p s z) xs off s).2.2.word =
          s.word := saveKnLoop_word (by omega)
      rw [h] at hword
      exact congrFun hword .Z
    simp only [getDword, hget]
    rw [if_neg (by omega), operandKnStart_congr hz, getKnLoop_of_saveKnLoop (by omega) h, hkept]

/-- What `save_dword` writes to pairs of elements, and where it starts afterwards. -/
theorem saveDword_cells {area : WordArea} {z : Bool} {limit : Nat} {buf : List (BitVec 32)}
    (hsave : (AddrType.ofCode (u.getPU8 (p + 1))).bind (saveDwordTable n) =
      some (.cells area area z limit)) (hlimit : limit ≤ area.rang)
    (h : saveDword u p s n off xs = (.ok (), buf, s')) :
    InBlock limit 2 (blockStart u p s z (off * 2)) xs.length ∧
    (saveLoop (setDword area area) limit 2 xs (blockStart u p s z (off * 2)) s).2 = s' := by
  have hrang := area.rang_le
  simp only [saveDword, hsave, Prod.mk.injEq] at h
  obtain ⟨hok, -, hstore⟩ := h
  exact ⟨(saveLoop_ok_iff (by omega)).mp hok, hstore⟩

theorem setDword_word_z {area : WordArea} (h : area ≠ .elem .Z) (i : Nat) (x : BitVec 32) :
    (setDword area area i x s).word .Z = s.word .Z :=
  (setWord_word_z h _ _).trans (setWord_word_z h _ _)

theorem blockStart_saveLoop_setDword {area : WordArea} {z : Bool} {limit i : Nat} {k : Nat}
    (hlimit : limit ≤ area.rang) (harea : area ≠ .elem .Z) :
    blockStart u p (saveLoop (setDword area area) limit 2 xs i s).2 z k = blockStart u p s z k := by
  have hrang := area.rang_le
  rw [blockStart, operandStart_congr fun _ => ?_, blockStart]
  exact saveLoop_frame (fun s => s.word .Z) (by omega) fun j _ _ x s => setDword_word_z harea _ x

theorem dwordRoundTrip_cells {area : WordArea} {z : Bool}
    (hsave : (AddrType.ofCode (u.getPU8 (p + 1))).bind (saveDwordTable n) = some (.of area z))
    (hget : (AddrType.ofCode (u.getPU8 (p + 1))).bind (getDwordTable n) = some (.of area z))
    (harea : area ≠ .elem .Z) : DwordRoundTrip u p n off s xs := by
  intro buf s' h
  have hrang := area.rang_le
  have hkept : keptDword u p n = id := by
    funext x
    rw [keptDword, hsave]
    rfl
  obtain ⟨hblock, rfl⟩ := saveDword_cells hsave (by omega) h
  simp only [getDword, hget, DwordForm.of]
  rw [← blockStart, blockStart_saveLoop_setDword (by omega) harea,
    getLoop_of_inBlock (by omega) hblock, hkept]
  refine congrArg _ (map_range_eq fun j hj => ?_)
  exact saveLoop_read (getTwo area area) id (by omega)
    (fun k x s => getTwo_setDword_self area k x)
    (fun k l hkl x s => getTwo_setDword_of_le hkl x) j hj (hblock j hj)

/-! ## Local double words -/

/-- The elements one layer up, where `get_dword` looks for the upper halves, hold them already. -/
def HighHalvesHeld (n b : Nat) (s : Store) (xs : List (BitVec 32)) : Prop :=
  InBlock (vRang - 1) 2 b xs.length →
    ∀ j (hj : j < xs.length), s.getWord (.v (n + 1)) (b + 2 * j + 1) = highHalf (xs.get ⟨j, hj⟩)

/-- What `get_dword` finds in the place of a local double word that has been saved. -/
theorem getTwo_saved {b j : Nat} (hblock : InBlock (vRang - 1) 2 b xs.length) (hj : j < xs.length) :
    getTwo (.v n) (.v (n + 1)) (saveLoop (setDword (.v n) (.v n)) (vRang - 1) 2 xs b s).2
        (b + 2 * j) =
      s.getWord (.v (n + 1)) (b + 2 * j + 1) ++ (xs.get ⟨j, hj⟩).setWidth 16 := by
  have hrange : vRang = 64 := rfl
  have hlast := hblock j hj
  have hhigh : (saveLoop (setDword (.v n) (.v n)) (vRang - 1) 2 xs b s).2.getWord (.v (n + 1))
      (b + 2 * j + 1) = s.getWord (.v (n + 1)) (b + 2 * j + 1) := by
    refine saveLoop_frame (fun s => s.getWord (.v (n + 1)) (b + 2 * j + 1)) (by decide)
      fun k _ hk x s => ?_
    rw [setDword, getV_setV_of_ne (Nat.succ_ne_self n) (by omega) (by omega),
      getV_setV_of_ne (Nat.succ_ne_self n) (by omega) (by omega)]
  have hlow :
      (saveLoop (setDword (.v n) (.v n)) (vRang - 1) 2 xs b s).2.getWord (.v n) (b + 2 * j) =
      (xs.get ⟨j, hj⟩).setWidth 16 := by
    refine saveLoop_read (fun s i => s.getWord (.v n) i) (fun x : BitVec 32 => x.setWidth 16)
      (by decide) (fun k x s => ?_) (fun k l hkl x s => ?_) j hj hlast
    · rw [setDword, getWord_setWord_of_ne (Nat.succ_ne_self k).symm, getWord_setWord_self]
    · rw [setDword, getWord_setWord_of_ne (by omega), getWord_setWord_of_ne (by omega)]
  rw [getTwo, hhigh, hlow]

/-- A local double word comes back just if its upper half was one layer up before. -/
theorem dwordRoundTrip_v_iff {z : Bool} {limit : Nat}
    (hsave : (AddrType.ofCode (u.getPU8 (p + 1))).bind (saveDwordTable n) = some (.of (.v n) z))
    (hget : (AddrType.ofCode (u.getPU8 (p + 1))).bind (getDwordTable n) =
      some (.cells (.v n) (.v (n + 1)) z limit))
    (hle : vRang - 1 ≤ limit) (hlimit : limit + 2 ≤ 65536) :
    DwordRoundTrip u p n off s xs ↔ HighHalvesHeld n (blockStart u p s z (off * 2)) s xs := by
  have hkept : keptDword u p n = id := by
    funext x
    rw [keptDword, hsave]
    rfl
  have hback (hblock : InBlock (vRang - 1) 2 (blockStart u p s z (off * 2)) xs.length) :
      getDword u p (saveLoop (setDword (.v n) (.v n)) (vRang - 1) 2 xs
          (blockStart u p s z (off * 2)) s).2 n off xs.length =
          (.ok (), xs.map (keptDword u p n)) ↔
        ∀ j (hj : j < xs.length),
          s.getWord (.v (n + 1)) (blockStart u p s z (off * 2) + 2 * j + 1) =
          highHalf (xs.get ⟨j, hj⟩) := by
    have hloop (read : Nat → BitVec 32) : getLoop read limit 2 xs.length
        (blockStart u p s z (off * 2)) = _ :=
      getLoop_of_inBlock hlimit fun j hj => Nat.lt_of_lt_of_le (hblock j hj) hle
    simp only [getDword, hget]
    rw [← blockStart, blockStart_saveLoop_setDword (sub_le vRang 1) (by simp), hloop, hkept,
      Prod.mk.injEq, and_iff_right rfl, map_range_eq_iff]
    refine forall_congr' fun j => forall_congr' fun hj => ?_
    rw [← getTwo, getTwo_saved hblock hj]
    exact append_eq_iff
  constructor
  · intro h hblock
    refine (hback hblock).mp (h xs _ ?_)
    simp only [saveDword, hsave, DwordForm.of, Prod.mk.injEq, true_and]
    exact ⟨(saveLoop_ok_iff (by decide : vRang - 1 + 2 ≤ 65536)).mpr hblock, rfl⟩
  · intro h buf s' hs
    obtain ⟨hblock, rfl⟩ := saveDword_cells hsave (sub_le vRang 1) hs
    exact (hback hblock).mpr (h hblock)

/-! ## Counters -/

/-- The counter with number `k` after the values `xs` have been stored from number `b` on. -/
def counterAfter (s : Store) (b : Nat) (xs : List (BitVec 32)) (k : Nat) : BitVec 32 :=
  if b ≤ k then (xs[k - b]?).getD (s.c32 k) else s.c32 k

theorem c32_setC32_self (i : Nat) (x : BitVec 32) : (s.setC32 i x).c32 i = x := by
  simp [Store.setC32]

theorem c32_setC32_of_ne {i j : Nat} (h : i ≠ j) (x : BitVec 32) :
    (s.setC32 j x).c32 i = s.c32 i := by
  simp [Store.setC32, h]

theorem c32_saved {b k : Nat} (hblock : InBlock cRang 1 b xs.length) :
    (saveLoop (fun i x s => s.setC32 i x) cRang 1 xs b s).2.c32 k = counterAfter s b xs k := by
  unfold counterAfter
  by_cases hk : b ≤ k ∧ k - b < xs.length
  · have hread := saveLoop_read (fun s i => s.c32 i) id (s := s) (by decide)
      (fun i x s => c32_setC32_self i x) (fun i l hil x s => c32_setC32_of_ne (by omega) x)
      (k - b) hk.2 (hblock (k - b) hk.2)
    rw [show b + 1 * (k - b) = k by omega] at hread
    rw [if_pos hk.1, hread]
    simp [hk.2]
  · have hother : (if b ≤ k then (xs[k - b]?).getD (s.c32 k) else s.c32 k) = s.c32 k := by
      split
      · rw [getElem?_eq_none (by omega)]
        rfl
      · rfl
    rw [hother]
    exact saveLoop_frame (fun s => s.c32 k) (by decide) fun j hj _ x s =>
      c32_setC32_of_ne (by omega) x

/-- The counters, which are saved from an offset times `scale` on and got back from twice the offset
on, all but the last. -/
theorem dwordRoundTrip_counter_iff {z : Bool} {scale : Nat}
    (hsave : (AddrType.ofCode (u.getPU8 (p + 1))).bind (saveDwordTable n) =
      some (.counter z scale cRang))
    (hget : (AddrType.ofCode (u.getPU8 (p + 1))).bind (getDwordTable n) =
      some (.counter z 2 (cRang - 1))) :
    DwordRoundTrip u p n off s xs ↔
      (InBlock cRang 1 (blockStart u p s z (off * scale)) xs.length →
        InBlock (cRang - 1) 1 (blockStart u p s z (off * 2)) xs.length ∧
        ∀ j (hj : j < xs.length), counterAfter s (blockStart u p s z (off * scale)) xs
          (blockStart u p s z (off * 2) + 1 * j) = xs.get ⟨j, hj⟩) := by
  have hkept : keptDword u p n = id := by
    funext x
    rw [keptDword, hsave]
    rfl
  have hstart (k b : Nat) :
      blockStart u p (saveLoop (fun i x s => s.setC32 i x) cRang 1 xs b s).2 z k =
      blockStart u p s z k := by
    rw [blockStart, operandStart_congr fun _ => ?_, blockStart]
    exact saveLoop_frame (fun s => s.word .Z) (by decide) fun _ _ _ _ _ => rfl
  have hback (hblock : InBlock cRang 1 (blockStart u p s z (off * scale)) xs.length) :
      getDword u p (saveLoop (fun i x s => s.setC32 i x) cRang 1 xs
          (blockStart u p s z (off * scale)) s).2 n off xs.length =
          (.ok (), xs.map (keptDword u p n)) ↔
        InBlock (cRang - 1) 1 (blockStart u p s z (off * 2)) xs.length ∧
        ∀ j (hj : j < xs.length), counterAfter s (blockStart u p s z (off * scale)) xs
          (blockStart u p s z (off * 2) + 1 * j) = xs.get ⟨j, hj⟩ := by
    simp only [getDword, hget]
    rw [← blockStart, hstart, hkept]
    by_cases hin : InBlock (cRang - 1) 1 (blockStart u p s z (off * 2)) xs.length
    · rw [getLoop_of_inBlock (by decide) hin, Prod.mk.injEq, and_iff_right rfl, map_range_eq_iff,
        and_iff_right hin]
      refine forall_congr' fun j => forall_congr' fun hj => ?_
      rw [c32_saved hblock]
      rfl
    · refine iff_of_false (fun h => hin ?_) fun h => hin h.1
      exact (getLoop_ok_iff (by decide)).mp (congrArg Prod.fst h)
  constructor
  · intro h hblock
    refine (hback hblock).mp (h xs _ ?_)
    simp only [saveDword, hsave, Prod.mk.injEq, true_and]
    exact ⟨(saveLoop_ok_iff (by decide)).mpr hblock, rfl⟩
  · intro h buf s' hs
    simp only [saveDword, hsave, Prod.mk.injEq] at hs
    obtain ⟨hok, -, rfl⟩ := hs
    have hblock := (saveLoop_ok_iff (by decide)).mp hok
    exact (hback hblock).mpr (h hblock)

theorem saveDwordTable_cases {a : AddrType} {form : DwordForm} (h : saveDwordTable n a = some form)
    (ha : a ∉ [.v, .vz, .c, .cz]) :
    (∃ area z, form = .kn area z ∧ getDwordTable n a = some (.kn area z)) ∨
    ∃ area z, form = .of area z ∧ getDwordTable n a = some (.of area z) ∧ area ≠ .elem .Z := by
  cases a <;> cases h <;> first
    | exact .inl ⟨_, _, rfl, rfl⟩
    | exact .inr ⟨_, _, rfl, rfl, by simp⟩
    | simp at ha

/-- The condition on the operand, the elements and the values under which what `save_dword` saves
comes back: the upper halves of local double words are one layer up already, and of the counters
those are read that were written, and not the last one. -/
def DwordComesBack (u : Ucode) (p n off : Nat) (s : Store) (xs : List (BitVec 32)) : Prop :=
  match AddrType.ofCode (u.getPU8 (p + 1)) with
  | some .v => HighHalvesHeld n (blockStart u p s false (off * 2)) s xs
  | some .vz => HighHalvesHeld n (blockStart u p s true (off * 2)) s xs
  | some .c =>
    InBlock cRang 1 (blockStart u p s false off) xs.length →
      InBlock (cRang - 1) 1 (blockStart u p s false (off * 2)) xs.length ∧
      ∀ j (hj : j < xs.length), counterAfter s (blockStart u p s false off) xs
        (blockStart u p s false (off * 2) + 1 * j) = xs.get ⟨j, hj⟩
  | some .cz =>
    InBlock cRang 1 (blockStart u p s true (off * 2)) xs.length →
      InBlock (cRang - 1) 1 (blockStart u p s true (off * 2)) xs.length
  | _ => True

theorem counterAfter_self {b j : Nat} (hj : j < xs.length) :
    counterAfter s b xs (b + 1 * j) = xs.get ⟨j, hj⟩ := by
  rw [counterAfter]
  simp [hj]

theorem dwordRoundTrip_iff :
    DwordRoundTrip u p n off s xs ↔ DwordComesBack u p n off s xs := by
  unfold DwordComesBack
  split
  · rename_i ha
    exact dwordRoundTrip_v_iff (by rw [ha]; rfl) (by rw [ha]; rfl) (by decide) (by decide)
  · rename_i ha
    exact dwordRoundTrip_v_iff (by rw [ha]; rfl) (by rw [ha]; rfl) (by decide) (by decide)
  · rename_i ha
    have hiff : DwordRoundTrip u p n off s xs ↔ _ :=
      dwordRoundTrip_counter_iff (by rw [ha]; rfl) (by rw [ha]; rfl)
    rwa [Nat.mul_one] at hiff
  · rename_i ha
    have hiff : DwordRoundTrip u p n off s xs ↔ _ :=
      dwordRoundTrip_counter_iff (by rw [ha]; rfl) (by rw [ha]; rfl)
    rw [hiff]
    refine imp_congr_right fun _ => and_iff_left fun j hj => counterAfter_self hj
  · rename_i hv hvz hc hcz
    refine iff_of_true ?_ trivial
    rcases hform : (AddrType.ofCode (u.getPU8 (p + 1))).bind (saveDwordTable n) with _ | form
    · intro buf s' h
      simp only [saveDword, hform] at h
      cases h
    · obtain ⟨a, ha, hsave⟩ := Option.bind_eq_some_iff.mp hform
      have hget :
          (AddrType.ofCode (u.getPU8 (p + 1))).bind (getDwordTable n) = getDwordTable n a := by
        rw [ha]
        rfl
      have hother : a ∉ [AddrType.v, .vz, .c, .cz] := by
        simp only [mem_cons, not_mem_nil, or_false, not_or]
        exact ⟨fun h => hv (h ▸ ha), fun h => hvz (h ▸ ha), fun h => hc (h ▸ ha),
          fun h => hcz (h ▸ ha)⟩
      rcases saveDwordTable_cases hsave hother with
        ⟨area, z, rfl, htable⟩ | ⟨area, z, rfl, htable, harea⟩
      · exact dwordRoundTrip_kn hform (hget.trans htable)
      · exact dwordRoundTrip_cells hform (hget.trans htable) harea

end

/-- 65536 saved in `V0` at call level 0 is got back as zero. -/
theorem v0_half_lost : ¬ DwordRoundTrip [0x00, 0x16, 0x00, 0x00] 0 0 0 .off [65536] := by
  intro h
  have hgot := congrArg Prod.snd (h _ _ rfl)
  exact absurd hgot (by decide)

end Kalyke
