-- SUMMARY: `BMOV` and `SWAPWORD`: which overlaps of their blocks they stand.
import Kalyke.Exec.Stored
import Kalyke.Exec.Shifts
import Kalyke.Exec.ElementAddr
import Kalyke.Exec.Bits

/-!
# Block Moves

`BMOV` copies one word after the other, in ascending order. `SWAPWORD` goes over two blocks of
double words by pointers. Either may find a source word that it has overwritten before. `SWAPWORD`
doubles its count in 16 bits, so that it checks too few words from 32768 on, and swaps the remaining
ones.
-/

namespace Kalyke

open List Nat
open BitVec (extractLsb')

/-! ## Loops that save what they read -/

section

variable {α : Type} {save : Nat → List α → Store → Except PlcErr Unit × Store}
variable {view : Nat → Store → α} {kept : α → α} {n k t : Nat} {inv : Store → Prop}
variable {s u v : Store} {x y : Nat → α}

/-- The store after the values `x` have been saved from the first place up to a place. -/
def saveFirst (save : Nat → List α → Store → Except PlcErr Unit × Store) (x : Nat → α) :
    Nat → Store → Store
  | 0, s => s
  | t + 1, s => (save t [x t] (saveFirst save x t s)).2

/-- A block that determines the store, as long as the invariant holds. -/
structure FillsBlock (save : Nat → List α → Store → Except PlcErr Unit × Store)
    (view : Nat → Store → α) (kept : α → α) (n : Nat) (inv : Store → Prop) : Prop
    extends SavesBlock save view kept n inv where
  kept_view : ∀ k < n, ∀ s, kept (view k s) = view k s
  ext : ∀ u v, inv u → inv v → (∀ k < n, view k u = view k v) → u = v

theorem saveFirst_view (hsave : SavesBlock save view kept n inv) (hs : inv s) (ht : t ≤ n) :
    inv (saveFirst save x t s) ∧
      ∀ k, view k (saveFirst save x t s) = if k < t then kept (x k) else view k s := by
  induction t with
  | zero => exact ⟨hs, fun k => rfl⟩
  | succ t ih =>
    obtain ⟨hinv, hview⟩ := ih (by omega)
    refine ⟨hsave.keeps t ht _ _ hinv, fun k => ?_⟩
    rw [saveFirst]
    rcases eq_or_ne k t with rfl | hk
    · rw [hsave.self k ht _ _ hinv, if_pos (lt_succ_self k)]
    · rw [hsave.other t ht _ _ hinv k hk, hview]
      by_cases hlt : k < t
      · rw [if_pos hlt, if_pos (by omega)]
      · rw [if_neg hlt, if_neg (by omega)]

/-- The values saved are those that stand there. -/
theorem saveFirst_self (hfill : FillsBlock save view kept n inv) (hs : inv s) (ht : t ≤ n)
    (hx : ∀ k < t, kept (x k) = view k s) : saveFirst save x t s = s := by
  obtain ⟨hinv, hview⟩ := saveFirst_view (x := x) hfill.toSavesBlock hs ht
  refine hfill.ext _ _ hinv hs fun k hk => (hview k).trans ?_
  split
  · rename_i hlt
    exact hx k hlt
  · rfl

theorem saveFirst_congr (hfill : FillsBlock save view kept n inv) (hs : inv s) (ht : t ≤ n)
    (hxy : ∀ k < t, kept (x k) = kept (y k)) : saveFirst save x t s = saveFirst save y t s := by
  obtain ⟨hinv, hview⟩ := saveFirst_view (x := x) hfill.toSavesBlock hs ht
  obtain ⟨hinv', hview'⟩ := saveFirst_view (x := y) hfill.toSavesBlock hs ht
  refine hfill.ext _ _ hinv hinv' fun k _ => (hview k).trans ((hview' k).trans ?_).symm
  split
  · rename_i hlt
    exact (hxy k hlt).symm
  · rfl

/-- A loop from the first place up is right just if every value is that was read after the values
before it were saved. -/
theorem runMoves_first_iff {saveTo : Nat → Nat → List α → Store → Except PlcErr Unit × Store}
    {dst : Nat} {g : Nat → α} (move : Nat → Move α) (read : Nat → Store → Except PlcErr α)
    (hfill : FillsBlock (saveTo dst) view kept n inv) (hs : inv s)
    (hmove : ∀ t < n, (move t).dst = dst ∧ (move t).off = t ∧ ∀ u, inv u →
      ((move t).read u).toOption = (read t u).toOption.map fun x => [x]) :
    inv (runMoves saveTo ((range n).map move) s).2 ∧
    (((runMoves saveTo ((range n).map move) s).1 = .ok () ∧
        ∀ k < n, view k (runMoves saveTo ((range n).map move) s).2 = g k) ↔
      ∀ t < n, ∃ v, read t (saveFirst (saveTo dst) g t s) = .ok v ∧ kept v = g t) := by
  have hthere (u : Store) (hu : inv u) :
      saveFirst (saveTo dst) (fun k => view k u) n s = u := by
    obtain ⟨hinv, hview⟩ := saveFirst_view (x := fun k => view k u) hfill.toSavesBlock hs le_rfl
    refine hfill.ext _ _ hinv hu fun k hk => (hview k).trans ?_
    rw [if_pos hk, hfill.kept_view k hk]
  have hwritten (t : Nat) (ht : t < n) :
      saveFirst (saveTo dst) (written g (fun k => view k s) t) n s =
        saveFirst (saveTo dst) g t s := by
    obtain ⟨hinv, hview⟩ := saveFirst_view (x := written g (fun k => view k s) t)
      hfill.toSavesBlock hs le_rfl
    obtain ⟨hinv', hview'⟩ := saveFirst_view (x := g) hfill.toSavesBlock hs (Nat.le_of_lt ht)
    refine hfill.ext _ _ hinv hinv' fun k hk => (hview k).trans ((hview' k).trans ?_).symm
    rw [if_pos hk, written]
    split
    · rfl
    · exact (hfill.kept_view k hk s).symm
  obtain ⟨hinv, hright⟩ := runMoves_ascending_iff (g := g)
    (fun t f => (read t (saveFirst (saveTo dst) f n s)).toOption) hfill.toSavesBlock hs
    fun t ht => ⟨(hmove t ht).1, (hmove t ht).2.1, fun u hu => by
      rw [hthere u hu]
      exact (hmove t ht).2.2 u hu⟩
  refine ⟨hinv, hright.trans (forall₂_congr fun t ht => ?_)⟩
  rw [hwritten t ht]
  constructor
  · rintro ⟨v, hv, hkept⟩
    exact ⟨v, eq_ok_of_toOption hv, hkept⟩
  · rintro ⟨v, hv, hkept⟩
    refine ⟨v, ?_, hkept⟩
    rw [hv]
    rfl

/-- A loop from the first place up that reads what is to be saved leaves just that. -/
theorem runMoves_first_eq {saveTo : Nat → Nat → List α → Store → Except PlcErr Unit × Store}
    {dst : Nat} {g : Nat → α} (move : Nat → Move α) (read : Nat → Store → Except PlcErr α)
    (hfill : FillsBlock (saveTo dst) view kept n inv) (hs : inv s)
    (hmove : ∀ t < n, (move t).dst = dst ∧ (move t).off = t ∧ ∀ u, inv u →
      ((move t).read u).toOption = (read t u).toOption.map fun x => [x])
    (hread : ∀ t < n, ∃ v, read t (saveFirst (saveTo dst) g t s) = .ok v ∧ kept v = kept (g t)) :
    runMoves saveTo ((range n).map move) s = (.ok (), saveFirst (saveTo dst) g n s) := by
  have htwice (t : Nat) (ht : t < n) (x : α) : kept (kept x) = kept x := by
    have hview := hfill.kept_view t ht (saveTo dst t [x] s).2
    rwa [hfill.self t ht x s hs] at hview
  have hsame (t : Nat) (ht : t ≤ n) : saveFirst (saveTo dst) (fun t => kept (g t)) t s =
      saveFirst (saveTo dst) g t s :=
    saveFirst_congr hfill hs ht fun l hl => htwice l (by omega) (g l)
  obtain ⟨hinv, hright⟩ := runMoves_first_iff (g := fun t => kept (g t)) move read hfill hs hmove
  obtain ⟨hpass, hviews⟩ := hright.mpr fun t ht => by
    rw [hsame t (Nat.le_of_lt ht)]
    exact hread t ht
  obtain ⟨hinv', hview⟩ := saveFirst_view (x := g) hfill.toSavesBlock hs le_rfl
  refine Prod.ext hpass (hfill.ext _ _ hinv hinv' fun k hk => (hviews k hk).trans ?_)
  rw [hview, if_pos hk]

end

/-! ## Words that determine the store -/

namespace WordBlock

variable {b e : WordBlock} {k n : Nat} {s u v : Store}

/-- Joined bits are four to sixteen. -/
def Proper : WordBlock → Prop
  | bits _ width _ => ∃ kn, 1 ≤ kn ∧ kn ≤ 4 ∧ width = 4 * kn
  | elems .. => True

theorem agree_of_read (hb : b.Proper) (h : b.read k u = b.read k v) :
    ∀ c ∈ b.cells k, c.read u = c.read v := by
  intro c hc
  cases b with
  | bits area width start =>
    obtain ⟨kn, -, hle, hwidth⟩ := hb
    obtain ⟨m, hm, rfl⟩ := mem_map.mp hc
    have hm := mem_range.mp hm
    have hbit := congrArg (fun x => BitVec.getLsbD x m) h
    simp only [read, BitVec.getLsbD_ofNat, testBit_joinBits _ hm, show m < 16 by omega,
      decide_true, Bool.true_and] at hbit
    rw [BitArea.read_cell, BitArea.read_cell, hbit]
  | elems area limit start =>
    obtain rfl := mem_singleton.mp hc
    rw [WordArea.read_cell, WordArea.read_cell]
    exact congrArg (BitVec.setWidth 32) h

/-- Two stores that differ in words of a block only are told apart by these words. -/
theorem eq_of_reads (hb : b.Proper) (hu : ChangesOnly (b.Has n) s u)
    (hv : ChangesOnly (b.Has n) s v) (h : ∀ k < n, b.read k u = b.read k v) : u = v := by
  refine (changesOnly_none_iff.mp ⟨fun c _ => ?_, hu.rest.trans hv.rest.symm⟩ : u = v)
  by_cases hc : b.Has n c
  · obtain ⟨k, hk, hmem⟩ := hc
    exact agree_of_read hb (h k hk) c hmem
  · rw [hu.cells c hc, hv.cells c hc]

end WordBlock

section

variable {i : BodyInput} {o : WordOperand} {q n k : Nat} {b e : WordBlock} {s u : Store}

theorem proper_of_block (hb : o.block s = some b) : b.Proper := by
  simp only [WordOperand.block] at hb
  split at hb
  · split at hb
    · cases hb
    · obtain rfl := Option.some.inj hb
      exact ⟨_, by omega, by omega, rfl⟩
  · obtain rfl := Option.some.inj hb
    trivial
  · cases hb

theorem proper_of_gotBlock (hb : o.gotBlock s = some b) : b.Proper := by
  simp only [WordOperand.gotBlock] at hb
  split at hb
  · split at hb
    · cases hb
    · obtain rfl := Option.some.inj hb
      exact ⟨_, by omega, by omega, rfl⟩
  · obtain rfl := Option.some.inj hb
    trivial
  · cases hb

theorem fillsBlock_words (hb : (i.operand q).block s = some b) (hfits : b.Fits n) :
    FillsBlock (i.saveWords (i.pc + q)) (fun k u => b.read k u) b.kept n
      (ChangesOnly (b.Has n) s) := by
  have hsaves : SavesBlock (i.saveWords (i.pc + q)) (fun k u => b.read k u) b.kept n
      (ChangesOnly (b.Has n) s) := by
    by_cases hv : (i.operand q).type = some .v
    · obtain rfl : (i.operand q).savedV s = b :=
        Option.some.inj ((WordOperand.block_v hv s).1.symm.trans hb)
      exact savesBlock_v hv hfits
    · exact savesBlock_words ⟨hb, hv, hfits⟩ (WordBlock.Alike.refl b)
  exact { hsaves with
    kept_view := fun k _ u => WordBlock.kept_read
    ext := fun u v hu hv => WordBlock.eq_of_reads (proper_of_block hb) hu hv }

end

/-! ## Moves -/

/-- `BMOV` with power flow from words of a block `a` to as many of a block `d`. -/
structure BmovOf (a d : WordBlock) (count : BitVec 16) (i : BodyInput) : Prop where
  power : getPowerFlow i.inPF = true
  size : i.word 10 0 i.store = .ok count
  src : (i.operand 2).gotBlock i.store = some a
  srcFits : 0 < count.toNat → a.Fits count.toNat
  dest : (i.operand 6).gotBlock i.store = some d
  destFits : 0 < count.toNat → d.Fits count.toNat

section

variable (a d : WordBlock) (count : BitVec 16) (i : BodyInput)

/-- The words of the source as they were stand in the destination. -/
structure CopiesBlock (r : BodyResult) : Prop where
  passes : 0 < count.toInt → r.1 = .ok ()
  words : ∀ k < count.toNat, d.read k r.2.2 = a.read k i.store

/-- The destination can be saved, and each word of the source, got after the words before it have
been saved there, is the one that it was, as far as the destination can hold it. The words of a
plain `V` operand are saved one layer up: they are those of the source already. -/
def BmovHolds : Prop :=
  0 < count.toInt → ∃ e, (i.operand 6).block i.store = some e ∧ e.Fits count.toNat ∧
    if (i.operand 6).type = some .v then
      ∀ k < count.toNat, d.read k i.store = a.read k i.store
    else ∀ k < count.toNat, ∃ x, (i.operand 2).get k
      (saveFirst (i.saveWords (i.pc + 6)) (fun j => a.read j i.store) k i.store) = .ok x ∧
      d.kept x = a.read k i.store

end

section

variable {a d e : WordBlock} {count : BitVec 16} {i : BodyInput} {o : WordOperand} {n k : Nat}
variable {s : Store}

/-- The pass of `BMOV` that saves a word. -/
def bmovMove (i : BodyInput) (k : Nat) : Move (BitVec 16) := ⟨i.words 2 k 1, i.pc + 6, k⟩

theorem bmov_run (h : BmovOf a d count i) : runCiBmovIns i =
    if count.toInt ≤ 0 then (.error .operands, i.inPF, i.store)
    else ((runMoves i.saveWords ((range count.toNat).map (bmovMove i)) i.store).1, i.inPF,
      (runMoves i.saveWords ((range count.toNat).map (bmovMove i)) i.store).2) := by
  split
  · rename_i hle
    simp only [runCiBmovIns, runChecked, h.power, if_true, bmovMoves, h.size, bind, Except.bind,
      if_pos hle]
  · rename_i hpos
    refine runChecked_eq h.power ?_
    simp only [bmovMoves, h.size, bind, Except.bind, if_neg hpos]
    rfl

/-- Only the `R` elements are so many. -/
theorem block_of_huge (hb : o.gotBlock s = some d) (hn : 32768 ≤ n) (hfits : d.Fits n) :
    ∀ k, d.read k s = s.word .R k := by
  simp only [WordOperand.gotBlock] at hb
  split at hb
  · rename_i area z hform
    split at hb
    · cases hb
    · obtain rfl := Option.some.inj hb
      have hrang := area.rang_le
      change _ + 4 * operandKn o.ucode o.addr z * n ≤ area.rang at hfits
      have hmul : 4 * n ≤ 4 * operandKn o.ucode o.addr z * n := Nat.mul_le_mul_right n (by omega)
      omega
  · rename_i area z limit hform
    obtain rfl := Option.some.inj hb
    obtain ⟨type, -, htable⟩ := Option.bind_eq_some_iff.mp hform
    have hlimit : limit = area.rang := by
      cases type <;> cases htable <;> rfl
    change blockStart o.ucode o.addr s z 0 + n ≤ limit at hfits
    have hrang := area.rang_le
    have hstart : blockStart o.ucode o.addr s z 0 = 0 := by omega
    have harea : area = .elem .R := by
      have hsize : 32768 ≤ area.rang := by omega
      cases area with
      | v layer => exact absurd hsize (by decide : ¬ 32768 ≤ vRang)
      | elem e => cases e <;> first | rfl | exact absurd hsize (by decide)
    intro k
    rw [harea, hstart, WordBlock.read, Nat.zero_add]
    rfl
  · cases hb

/-- If the destination cannot be saved, the move does not pass. -/
theorem bmov_fails (hn : 0 < n) (hdest : (i.operand 6).gotBlock s = some d) (hfits : d.Fits n)
    (hno : ∀ e, (i.operand 6).block s = some e → ¬ e.Fits n) :
    (runMoves i.saveWords ((range n).map (bmovMove i)) s).1 ≠ .ok () := by
  obtain ⟨inv, hs, hkeep, hfail⟩ := save_fails hdest hn hfits hno
  have hlast : bmovMove i (n - 1) ∈ (range n).map (bmovMove i) :=
    mem_map_of_mem (mem_range.mpr (sub_lt hn Nat.one_pos))
  refine runMoves_ne_ok hlast (fun u xs hu hread => ?_) (fun move hmove u xs hu => ?_) hs
  · obtain ⟨y, rfl⟩ := length_eq_one_iff.mp (length_words hread)
    exact hfail y u hu
  · obtain ⟨t, -, rfl⟩ := mem_map.mp hmove
    exact hkeep _ xs u hu

/-- What a move leaves where the destination is saved. -/
theorem bmov_saved_iff {g : Nat → BitVec 16} (he : (i.operand 6).block s = some e)
    (hfits : e.Fits n) :
    ChangesOnly (e.Has n) s (runMoves i.saveWords ((range n).map (bmovMove i)) s).2 ∧
    (((runMoves i.saveWords ((range n).map (bmovMove i)) s).1 = .ok () ∧
        ∀ k < n, e.read k (runMoves i.saveWords ((range n).map (bmovMove i)) s).2 = g k) ↔
      ∀ k < n, ∃ x, (i.operand 2).get k (saveFirst (i.saveWords (i.pc + 6)) g k s) = .ok x ∧
        e.kept x = g k) :=
  runMoves_first_iff (bmovMove i) (fun k u => (i.operand 2).get k u) (fillsBlock_words he hfits)
    changesOnly_refl fun _ _ => ⟨rfl, rfl, fun _ _ => toOption_words⟩

theorem get_of_savedV {u : Store} (o' : WordOperand) (hlevel : o'.level = o.level)
    (hu : ChangesOnly ((o.savedV s).Has n) s u) : o'.get k u = o'.get k s := by
  refine WordOperand.get_of_agree (fun c hc => hu.cells c ?_) fun c hc => hu.cells c ?_
  · obtain ⟨⟨r, rfl⟩, -⟩ := WordOperand.mem_gotRegister hc
    rintro ⟨j, -, hmem⟩
    cases mem_singleton.mp hmem
  · rintro ⟨j, -, hmem⟩
    obtain rfl := mem_singleton.mp hmem
    have hlayer := WordOperand.layer_of_gotCells hc
    rw [hlevel] at hlayer
    exact absurd hlayer (Nat.not_lt.mpr (Nat.le_add_right _ _))

theorem bmov_words_iff (h : BmovOf a d count i) (hpos : 0 < count.toInt) (hn : 0 < count.toNat)
    (he : (i.operand 6).block i.store = some e) (hfits : e.Fits count.toNat) :
    CopiesBlock a d count i
        ((runMoves i.saveWords ((range count.toNat).map (bmovMove i)) i.store).1, i.inPF,
          (runMoves i.saveWords ((range count.toNat).map (bmovMove i)) i.store).2) ↔
      if (i.operand 6).type = some .v then
        ∀ k < count.toNat, d.read k i.store = a.read k i.store
      else ∀ k < count.toNat, ∃ x, (i.operand 2).get k
        (saveFirst (i.saveWords (i.pc + 6)) (fun j => a.read j i.store) k i.store) = .ok x ∧
        d.kept x = a.read k i.store := by
  have hgot : ∀ k < count.toNat, (i.operand 2).get k i.store = .ok (a.read k i.store) :=
    fun k hk => get_of_gotBlock h.src (h.srcFits hn) hk
  obtain ⟨hothers, hright⟩ := bmov_saved_iff (g := fun k => a.read k i.store) he hfits
  generalize runMoves i.saveWords ((range count.toNat).map (bmovMove i)) i.store = r at *
  split
  · rename_i hv
    obtain ⟨hblock, hblock'⟩ := WordOperand.block_v hv i.store
    obtain rfl : (i.operand 6).savedV i.store = e := Option.some.inj (hblock.symm.trans he)
    obtain rfl : (i.operand 6).gotV i.store = d := Option.some.inj (hblock'.symm.trans h.dest)
    have hpass := hright.mpr fun k hk => by
      have hinv := (saveFirst_view (x := fun j => a.read j i.store)
        (fillsBlock_words he hfits).toSavesBlock changesOnly_refl (Nat.le_of_lt hk)).1
      have hkept := get_of_savedV (o := i.operand 6) (k := k) (i.operand 2) rfl hinv
      exact ⟨_, hkept.trans (hgot k hk), rfl⟩
    have hfits' := h.destFits hn
    have hsame (k : Nat) (hk : k < count.toNat) :
        ((i.operand 6).gotV i.store).read k r.2 = ((i.operand 6).gotV i.store).read k i.store := by
      refine WordBlock.read_of_changes hothers fun c hc => ?_
      exact savedV_apart hfits' hk hc
    constructor
    · intro hcopies k hk
      exact (hsame k hk).symm.trans (hcopies.words k hk)
    · intro hthere
      exact ⟨fun _ => hpass.1, fun k hk => (hsame k hk).trans (hthere k hk)⟩
  · rename_i hv
    obtain ⟨b, hb, halike⟩ := WordOperand.gotBlock_alike he hv
    obtain rfl : b = d := Option.some.inj (hb.symm.trans h.dest)
    have hkept (x : BitVec 16) : b.kept x = e.kept x := congrFun halike.kept x
    simp only [hkept]
    rw [← hright]
    constructor
    · intro hcopies
      exact ⟨hcopies.passes hpos, fun k hk => (halike.read k _).symm.trans (hcopies.words k hk)⟩
    · rintro ⟨hpass, hwords⟩
      exact ⟨fun _ => hpass, fun k hk => (halike.read k _).trans (hwords k hk)⟩

theorem bmov_right_iff (h : BmovOf a d count i) :
    CopiesBlock a d count i (runCiBmovIns i) ↔ BmovHolds a d count i := by
  rw [bmov_run h]
  split
  · rename_i hle
    refine iff_of_true ⟨fun hpos => absurd hpos (Int.not_lt.mpr hle), fun k hk => ?_⟩
      fun hpos => absurd hpos (Int.not_lt.mpr hle)
    have hhuge : 32768 ≤ count.toNat := by
      rw [BitVec.toInt_eq_toNat_cond] at hle
      split at hle <;> omega
    exact (block_of_huge h.dest hhuge (h.destFits (by omega)) k).trans
      (block_of_huge h.src hhuge (h.srcFits (by omega)) k).symm
  · rename_i hnot
    have hpos : 0 < count.toInt := Int.not_le.mp hnot
    have hn : 0 < count.toNat := by
      rw [BitVec.toInt_eq_toNat_cond] at hpos
      split at hpos <;> omega
    have hhold : BmovHolds a d count i ↔ _ := forall_prop_of_true hpos
    rw [hhold]
    by_cases hsaved : ∃ e, (i.operand 6).block i.store = some e ∧ e.Fits count.toNat
    · obtain ⟨e, he, hfits⟩ := hsaved
      refine (bmov_words_iff h hpos hn he hfits).trans ⟨fun hwords => ⟨e, he, hfits, hwords⟩, ?_⟩
      rintro ⟨-, -, -, hwords⟩
      exact hwords
    · refine iff_of_false (fun hright => ?_) fun hhold => ?_
      · exact bmov_fails hn h.dest (h.destFits hn) (fun e he hfits => hsaved ⟨e, he, hfits⟩)
          (hright.passes hpos)
      · obtain ⟨e, he, hfits, -⟩ := hhold
        exact hsaved ⟨e, he, hfits⟩

end

/-! ## Swaps -/

/-- A word is stored by a pointer. -/
def storeWordAt (e : WordElement) (dst off : Nat) (xs : List (BitVec 16)) (s : Store) :
    Except PlcErr Unit × Store :=
  (.ok (), s.setWord (.elem e) (dst + off) (xs.headD 0))

/-- The loop of `run_ci_swapword_ins`. -/
def swapMoves (src dst : WordElement × Nat) (n : Nat) : List (Move (BitVec 16)) :=
  (range n).flatMap fun k =>
    [⟨fun s => .ok [s.word src.1 (src.2 + (2 * k + 1))], dst.2, 2 * k⟩,
      ⟨fun s => .ok [s.word src.1 (src.2 + 2 * k)], dst.2, 2 * k + 1⟩]

/-- The pointers and the count, none if there is nothing to swap. The count is doubled for the
checks, and halved for the loop. -/
def swapPointers (i : BodyInput) :
    Except PlcErr (Option ((WordElement × Nat) × (WordElement × Nat) × Nat)) := do
  let cnt ← i.word 14 0 i.store
  if cnt = 0 then return none
  else
    let src ← getWordAddr i.ucode (i.pc + 2) i.store (cnt <<< 1).toNat
    let dst ← getWordAddr i.ucode (i.pc + 8) i.store (cnt <<< 1).toNat
    return some (src, dst, (cnt <<< 1 >>> 1).toNat)

def runCiSwapwordIns (i : BodyInput) : BodyResult :=
  runChecked i (swapPointers i) fun
    | none, s => (.ok (), s)
    | some (src, dst, n), s => runMoves (storeWordAt dst.1) (swapMoves src dst n) s

/-- The halves of a double word, swapped. -/
def swapHalves (x : BitVec 32) : BitVec 32 := x.extractLsb' 0 16 ++ x.extractLsb' 16 16

/-- `SWAPWORD` with power flow on two operands of words, from `src` and `dst` on. -/
structure SwapOf (src dst : WordElement × Nat) (count : BitVec 16) (i : BodyInput) : Prop where
  power : getPowerFlow i.inPF = true
  size : i.word 14 0 i.store = .ok count
  src : ∃ z, (AddrType.ofCode (i.ucode.getPU8 (i.pc + 2 + 1))).bind addrTable = some (src.1, z) ∧
    addrIndex (i.store.word .Z) i.ucode (i.pc + 2) (i.pc + 2) z = src.2
  dst : ∃ z, (AddrType.ofCode (i.ucode.getPU8 (i.pc + 8 + 1))).bind addrTable = some (dst.1, z) ∧
    addrIndex (i.store.word .Z) i.ucode (i.pc + 8) (i.pc + 8) z = dst.2

section

variable (src dst : WordElement × Nat) (count : BitVec 16) (i : BodyInput)

/-- So many double words from an address on lie in the class. -/
def HasDwords (a : WordElement × Nat) (n : Nat) : Prop := n = 0 ∨ a.2 + 2 * n ≤ a.1.rang

/-- An error without changes, or the double words of the source as they were, with their halves
swapped, stand in the destination. -/
def SwapsBlock (r : BodyResult) : Prop :=
  r.1 ≠ .ok () ∧ r.2.2 = i.store ∨
    r.1 = .ok () ∧ HasDwords src count.toNat ∧ HasDwords dst count.toNat ∧
      dwordsAt r.2.2 dst count.toNat = (dwordsAt i.store src count.toNat).map swapHalves

/-- The other word of a double word. -/
def otherHalf (k : Nat) : Nat := if k % 2 = 0 then k + 1 else k - 1

/-- The word that is to stand at a place. -/
def swapped (k : Nat) : BitVec 16 := i.store.word src.1 (src.2 + otherHalf k)

/-- There is nothing to swap, or the doubled count is refused, or it is less than 65536 and every
source word is still itself after the words before it have been stored. -/
def SwapHolds : Prop :=
  count = 0 ∨ src.1.rang ≤ src.2 + (count <<< 1).toNat ∨
    dst.1.rang ≤ dst.2 + (count <<< 1).toNat ∨
    count.toNat < 32768 ∧ ∀ k < 2 * count.toNat,
      (saveFirst (storeWordAt dst.1 dst.2) (swapped src i) k i.store).word src.1
        (src.2 + otherHalf k) = swapped src i k

end

section

variable {src dst : WordElement × Nat} {count : BitVec 16} {i : BodyInput} {n : Nat} {s u : Store}

/-- The pass of `SWAPWORD` that stores a word. -/
def swapMove (src dst : WordElement × Nat) (k : Nat) : Move (BitVec 16) :=
  ⟨fun s => .ok [s.word src.1 (src.2 + otherHalf k)], dst.2, k⟩

theorem swapMoves_eq : swapMoves src dst n = (range (2 * n)).map (swapMove src dst) := by
  induction n with
  | zero => rfl
  | succ n ih =>
    have hrange : range (2 * (n + 1)) = range (2 * n) ++ [2 * n, 2 * n + 1] := by
      rw [mul_succ, range_succ, range_succ, append_assoc]
      rfl
    have heven : otherHalf (2 * n) = 2 * n + 1 := if_pos (by omega)
    have hodd : otherHalf (2 * n + 1) = 2 * n := if_neg (by omega)
    rw [hrange, map_append, ← ih, swapMoves, range_succ, flatMap_append]
    simp only [map_cons, swapMove, heven, hodd]
    rfl

theorem fillsBlock_storeWordAt (dst : WordElement × Nat) (n : Nat) (s : Store) :
    FillsBlock (storeWordAt dst.1 dst.2) (fun k u => u.word dst.1 (dst.2 + k)) id n
      (ChangesOnly ((WordBlock.elems (.elem dst.1) n dst.2).Has n) s) where
  passes := fun _ _ _ _ _ => rfl
  keeps := fun k hk x u hu => by
    refine hu.trans ⟨fun c hc => ?_, rest_setWord⟩
    exact read_setWord (fun heq => hc ⟨k, hk, mem_singleton.mpr heq⟩) x
  self := fun k _ x u _ => getWord_setWord_self (.elem dst.1) (dst.2 + k) x
  other := fun k _ x u _ j hj => by
    have hne : dst.2 + j ≠ dst.2 + k := fun heq => hj (Nat.add_left_cancel heq)
    have hread : (u.setWord (.elem dst.1) (dst.2 + k) x).getWord (.elem dst.1) (dst.2 + j) = _ :=
      getWord_setWord_of_ne hne x
    exact hread
  kept_view := fun _ _ _ => rfl
  ext := fun u v hu hv =>
    WordBlock.eq_of_reads (b := .elems (.elem dst.1) n dst.2) trivial hu hv

theorem swapHalves_append (x y : BitVec 16) : swapHalves (x ++ y) = y ++ x := by
  rw [swapHalves, BitVec.extractLsb'_append_eq_right, BitVec.extractLsb'_append_eq_left]

theorem append_inj {x y x' y' : BitVec 16} : x ++ y = x' ++ y' ↔ x = x' ∧ y = y' := by
  constructor
  · intro h
    have hlow := congrArg (extractLsb' 0 16) h
    have hhigh := congrArg (extractLsb' 16 16) h
    rw [BitVec.extractLsb'_append_eq_right, BitVec.extractLsb'_append_eq_right] at hlow
    rw [BitVec.extractLsb'_append_eq_left, BitVec.extractLsb'_append_eq_left] at hhigh
    exact ⟨hhigh, hlow⟩
  · rintro ⟨rfl, rfl⟩
    rfl

theorem dwords_swapped_iff :
    dwordsAt u dst n = (dwordsAt i.store src n).map swapHalves ↔
      ∀ k < 2 * n, u.word dst.1 (dst.2 + k) = swapped src i k := by
  rw [dwordsAt, dwordsAt, map_map, map_inj_left]
  simp only [mem_range, Function.comp_apply, swapHalves_append, append_inj]
  constructor
  · intro h k hk
    rw [swapped, otherHalf]
    obtain ⟨hodd, heven⟩ := h (k / 2) (by omega)
    split
    · have hk2 : 2 * (k / 2) = k := by omega
      rwa [hk2] at heven
    · have hk2 : 2 * (k / 2) + 1 = k := by omega
      have hpred : 2 * (k / 2) = k - 1 := by omega
      rwa [Nat.add_assoc, hk2, hpred] at hodd
  · intro h j hj
    have hodd := h (2 * j + 1) (by omega)
    have heven := h (2 * j) (by omega)
    rw [swapped, otherHalf, if_neg (by omega)] at hodd
    rw [swapped, otherHalf, if_pos (by omega)] at heven
    exact ⟨hodd, heven⟩

theorem swapPointers_eq (h : SwapOf src dst count i) : swapPointers i =
    if count = 0 then .ok none
    else if src.1.rang ≤ src.2 + (count <<< 1).toNat ∨ dst.1.rang ≤ dst.2 + (count <<< 1).toNat then
      .error .overElementRang
    else .ok (some (src, dst, (count <<< 1 >>> 1).toNat)) := by
  obtain ⟨indexed, hsrc, hplace⟩ := h.src
  obtain ⟨indexed', hdst, hplace'⟩ := h.dst
  simp only [swapPointers, h.size, getWordAddr_of_addr hsrc, getWordAddr_of_addr hdst, hplace,
    hplace', bind, Except.bind]
  split
  · rfl
  · by_cases hlong : src.1.rang ≤ src.2 + (count <<< 1).toNat
    · simp only [if_pos hlong, if_pos (Or.inl hlong)]
    · simp only [if_neg hlong]
      by_cases hlong' : dst.1.rang ≤ dst.2 + (count <<< 1).toNat
      · simp only [if_pos hlong', if_pos (Or.inr hlong')]
      · simp only [if_neg hlong', if_neg (fun h : _ ∨ _ => h.elim hlong hlong')]
        rfl

theorem swapMoves_pass {ks : List Nat} :
    (runMoves (storeWordAt dst.1) (ks.map (swapMove src dst)) s).1 = .ok () := by
  induction ks generalizing s with
  | nil => rfl
  | cons k ks ih => exact ih

theorem swap_words_iff :
    dwordsAt (runMoves (storeWordAt dst.1) (swapMoves src dst n) i.store).2 dst n =
        (dwordsAt i.store src n).map swapHalves ↔
      ∀ k < 2 * n, (saveFirst (storeWordAt dst.1 dst.2) (swapped src i) k i.store).word src.1
        (src.2 + otherHalf k) = swapped src i k := by
  have hright := (runMoves_first_iff (g := swapped src i) (swapMove src dst)
    (fun k u => .ok (u.word src.1 (src.2 + otherHalf k)))
    (fillsBlock_storeWordAt dst (2 * n) i.store) changesOnly_refl
    fun _ _ => ⟨rfl, rfl, fun _ _ => rfl⟩).2
  rw [and_iff_right swapMoves_pass] at hright
  rw [dwords_swapped_iff, swapMoves_eq, hright]
  refine forall₂_congr fun k _ => ⟨?_, fun hsame => ⟨_, rfl, hsame⟩⟩
  rintro ⟨x, hx, hsame⟩
  cases hx
  exact hsame

theorem swap_right_iff (h : SwapOf src dst count i) :
    SwapsBlock src dst count i (runCiSwapwordIns i) ↔ SwapHolds src dst count i := by
  have hpointers := swapPointers_eq h
  split at hpointers
  · rename_i hzero
    refine iff_of_true (.inr ?_) (.inl hzero)
    rw [runCiSwapwordIns, runChecked_eq h.power hpointers, hzero]
    exact ⟨rfl, .inl rfl, .inl rfl, rfl⟩
  rename_i hcount
  split at hpointers
  · rename_i hlong
    refine iff_of_true (.inl ?_) ?_
    · simp only [runCiSwapwordIns, runChecked, h.power, if_true, hpointers]
      exact ⟨fun hok => (by cases hok), trivial⟩
    · exact .inr (hlong.imp_right .inl)
  rename_i hshort
  rw [runCiSwapwordIns, runChecked_eq h.power hpointers, SwapsBlock, SwapHolds,
    or_iff_right hcount, ← or_assoc, or_iff_right hshort]
  rw [not_or, Nat.not_le, Nat.not_le] at hshort
  have hpass (n : Nat) :
      (runMoves (storeWordAt dst.1) (swapMoves src dst n) i.store).1 = .ok () := by
    rw [swapMoves_eq]
    exact swapMoves_pass
  simp only [hpass, ne_eq, not_true_eq_false, false_and, false_or, true_and]
  by_cases hhuge : count.toNat < 32768
  · have hdouble : (count <<< 1).toNat = 2 * count.toNat := by
      rw [BitVec.toNat_shiftLeft, shiftLeft_eq, mod_eq_of_lt (by omega), Nat.mul_comm]
    have hhalf : (count <<< 1 >>> 1).toNat = count.toNat := by
      rw [BitVec.toNat_ushiftRight]
      omega
    rw [hdouble] at hshort
    have hsrc : HasDwords src count.toNat := .inr (Nat.le_of_lt hshort.1)
    have hdst : HasDwords dst count.toNat := .inr (Nat.le_of_lt hshort.2)
    rw [hhalf, and_iff_right hhuge, and_iff_right hsrc, and_iff_right hdst, swap_words_iff]
  · have hrang := src.1.rang_le
    refine iff_of_false (fun hswaps => ?_) fun hholds => hhuge hholds.1
    have hfits : count.toNat = 0 ∨ src.2 + 2 * count.toNat ≤ src.1.rang := hswaps.1
    omega

end

end Kalyke
