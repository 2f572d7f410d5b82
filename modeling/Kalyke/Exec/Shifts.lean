-- SUMMARY: `WSFR`, `WSFL`, `SFTR` and `SFTL`: when they shift a block, and which overlaps they see.
import Kalyke.Exec.Deque
import Kalyke.Lib.CopyLoop

/-!
# Shifts

A shift moves a block by some places and puts as many values from a source into the gap. Each of the
four instructions copies one value after the other. The first loop of `WSFL` counts up and not down,
so that it writes behind the block and never passes. `SFTR` and `SFTL` compare the operands and not
the bits they stand for, and take the bit behind the source for one of it.
-/

namespace Kalyke

open List Nat Function Option Except
open BitVec (setWidth isLt)

/-! ## Loops of copies -/

section

variable {α : Type} {save : Nat → Nat → List α → Store → Except PlcErr Unit × Store}
variable {view : Nat → Store → α} {kept : α → α} {n dst : Nat} {inv : Store → Prop} {s : Store}
variable {ms : List (Move α)} {cs : List (Copy Nat α)} {g : Nat → α} {m : Move α}

/-- What saving single values of a block does, as long as an invariant holds. -/
structure SavesBlock (save : Nat → List α → Store → Except PlcErr Unit × Store)
    (view : Nat → Store → α) (kept : α → α) (n : Nat) (inv : Store → Prop) : Prop where
  passes : ∀ k < n, ∀ x s, inv s → (save k [x] s).1 = .ok ()
  keeps : ∀ k < n, ∀ x s, inv s → inv (save k [x] s).2
  self : ∀ k < n, ∀ x s, inv s → view k (save k [x] s).2 = kept x
  other : ∀ k < n, ∀ x s, inv s → ∀ j ≠ k, view j (save k [x] s).2 = view j s

/-- A pass of a loop is a copy to the block. -/
def Move.Copies (dst n : Nat) (view : Nat → Store → α) (inv : Store → Prop) (m : Move α)
    (c : Copy Nat α) : Prop :=
  m.dst = dst ∧ m.off = c.2 ∧ c.2 < n ∧
    ∀ s, inv s → (m.read s).toOption = (c.1 fun k => view k s).map fun x => [x]

theorem eq_ok_of_toOption {ε β : Type} {r : Except ε β} {x : β} (h : r.toOption = some x) :
    r = .ok x := by
  cases r with
  | error e => cases h
  | ok y =>
    cases h
    rfl

/-- A loop of copies leaves the block as the copies do, and passes just if all values can be had. -/
theorem runMoves_copies (hsave : SavesBlock (save dst) view kept n inv)
    (h : Forall₂ (Move.Copies dst n view inv) ms cs) (hs : inv s) :
    inv (runMoves save ms s).2 ∧
    (∀ f, copyAll kept cs (fun k => view k s) = some f →
      (runMoves save ms s).1 = .ok () ∧ ∀ k, view k (runMoves save ms s).2 = f k) ∧
    ((runMoves save ms s).1 = .ok () → ∃ f, copyAll kept cs (fun k => view k s) = some f) := by
  induction h generalizing s with
  | nil =>
    refine ⟨hs, fun f hf => ?_, fun _ => ⟨_, rfl⟩⟩
    cases hf
    exact ⟨rfl, fun _ => rfl⟩
  | @cons m c ms cs hm _ ih =>
    obtain ⟨hdst, hoff, hlt, hread⟩ := hm
    have hvalue := hread s hs
    rcases hc : c.1 (fun k => view k s) with _ | x
    · rw [hc] at hvalue
      rcases hfail : m.read s with e | xs
      · have hrun : runMoves save (m :: ms) s = (.error e, s) := by
          simp only [runMoves, hfail]
        rw [hrun]
        refine ⟨hs, fun f hf => ?_, fun hok => ?_⟩
        · rw [copyAll, hc] at hf
          cases hf
        · cases hok
      · rw [hfail] at hvalue
        cases hvalue
    · rw [hc] at hvalue
      have hpass := hsave.passes c.2 hlt x s hs
      have hsaved : save m.dst m.off [x] s = (.ok (), (save dst c.2 [x] s).2) := by
        rw [hdst, hoff, ← hpass]
      have hstep : (fun k => view k (save dst c.2 [x] s).2) =
          update (fun k => view k s) c.2 (kept x) := by
        funext k
        rcases eq_or_ne k c.2 with rfl | hk
        · rw [update_self]
          exact hsave.self c.2 hlt x s hs
        · rw [update_of_ne hk]
          exact hsave.other c.2 hlt x s hs k hk
      have hrun : runMoves save (m :: ms) s = runMoves save ms (save dst c.2 [x] s).2 := by
        simp only [runMoves, eq_ok_of_toOption hvalue, hsaved]
      have hrest := ih (hsave.keeps c.2 hlt x s hs)
      rw [hstep] at hrest
      rw [hrun, copyAll, hc]
      exact hrest

/-- A loop that copies to every place of a block is right just if every value is. -/
theorem runMoves_right_iff (hsave : SavesBlock (save dst) view kept n inv)
    (h : Forall₂ (Move.Copies dst n view inv) ms cs) (hs : inv s)
    (hplaces : (cs.map Prod.snd).Perm (range n)) :
    ((runMoves save ms s).1 = .ok () ∧ ∀ k < n, view k (runMoves save ms s).2 = g k) ↔
      CopiesRight kept g cs fun k => view k s := by
  obtain ⟨-, hdone, hpass⟩ := runMoves_copies hsave h hs
  rw [← copyAll_right_iff (hplaces.nodup_iff.mpr nodup_range)]
  constructor
  · rintro ⟨hok, hg⟩
    obtain ⟨f, hf⟩ := hpass hok
    refine ⟨f, hf, fun c hc => ?_⟩
    have hplace := hplaces.mem_iff.mp (List.mem_map_of_mem hc)
    rw [← (hdone f hf).2, hg c.2 (mem_range.mp hplace)]
  · rintro ⟨f, hf, hg⟩
    refine ⟨(hdone f hf).1, fun k hk => ?_⟩
    obtain ⟨c, hc, rfl⟩ := List.mem_map.mp (hplaces.mem_iff.mpr (mem_range.mpr hk))
    rw [(hdone f hf).2, hg c hc]

/-- The same for a loop from the first place up. -/
theorem runMoves_ascending_iff {move : Nat → Move α} (value : Nat → (Nat → α) → Option α)
    (hsave : SavesBlock (save dst) view kept n inv) (hs : inv s)
    (hmove : ∀ t < n, (move t).dst = dst ∧ (move t).off = t ∧ ∀ s, inv s →
      ((move t).read s).toOption = (value t fun k => view k s).map fun x => [x]) :
    inv (runMoves save ((range n).map move) s).2 ∧
    (((runMoves save ((range n).map move) s).1 = .ok () ∧
        ∀ k < n, view k (runMoves save ((range n).map move) s).2 = g k) ↔
      ∀ t < n, ∃ v, value t (written g (fun k => view k s) t) = some v ∧ kept v = g t) := by
  have hcopies : Forall₂ (Move.Copies dst n view inv) ((range n).map move)
      ((range n).map fun t => (value t, t)) := by
    rw [forall₂_map_left_iff, forall₂_map_right_iff, forall₂_same]
    intro t ht
    have ht := mem_range.mp ht
    obtain ⟨hdst, hoff, hread⟩ := hmove t ht
    exact ⟨hdst, hoff, ht, hread⟩
  have hplaces : (((range n).map fun t => (value t, t)).map Prod.snd).Perm (range n) := by
    rw [List.map_map]
    exact Perm.of_eq (List.map_id _)
  refine ⟨(runMoves_copies hsave hcopies hs).1, ?_⟩
  rw [runMoves_right_iff hsave hcopies hs hplaces, copiesRight_range]

/-- A loop does not pass in which a pass always fails. -/
theorem runMoves_ne_ok (hm : m ∈ ms)
    (hfail : ∀ s xs, inv s → m.read s = .ok xs → (save m.dst m.off xs s).1 ≠ .ok ())
    (hkeep : ∀ m ∈ ms, ∀ s xs, inv s → inv (save m.dst m.off xs s).2) (hs : inv s) :
    (runMoves save ms s).1 ≠ .ok () := by
  induction ms generalizing s with
  | nil => cases hm
  | cons m' ms ih =>
    obtain ⟨hfirst, hkeep⟩ := forall_mem_cons.mp hkeep
    rw [runMoves]
    split
    · intro h
      cases h
    · rename_i xs hread
      have hnext := hfirst s xs hs
      split
      · rename_i s' hsave
        rw [hsave] at hnext
        rcases mem_cons.mp hm with rfl | hm
        · exact absurd (congrArg Prod.fst hsave) (hfail s xs hs hread)
        · exact ih hm hkeep hnext
      · intro h
        cases h

end

/-! ## Blocks of words -/

namespace WordBlock

variable {b e : WordBlock} {n : Nat} {s s' : Store}

def words (b : WordBlock) (n : Nat) (s : Store) : List (BitVec 16) :=
  (range n).map fun k => b.read k s

/-- A cell belongs to one of the first `n` words. -/
def Has (b : WordBlock) (n : Nat) (c : Cell) : Prop := ∃ k < n, c ∈ b.cells k

/-- Two blocks of the same words, but for the limit they are checked against. -/
structure Alike (b e : WordBlock) : Prop where
  cells : ∀ k, b.cells k = e.cells k
  read : ∀ k s, b.read k s = e.read k s
  kept : b.kept = e.kept

theorem Alike.refl (b : WordBlock) : b.Alike b := ⟨fun _ => rfl, fun _ _ => rfl, rfl⟩

theorem Alike.has (h : b.Alike e) : b.Has n = e.Has n := by
  funext c
  simp only [Has, h.cells]

end WordBlock

namespace WordOperand

variable {o : WordOperand} {b e : WordBlock} {k n : Nat} {s s' : Store}

def gotBlock (o : WordOperand) (s : Store) : Option WordBlock :=
  match o.type.bind (getWordTable o.level) with
  | some (.kn area z) =>
    if operandKn o.ucode o.addr z < 1 ∨ 4 < operandKn o.ucode o.addr z then none
    else some (.bits area (4 * operandKn o.ucode o.addr z) (operandKnStart o.ucode o.addr s z))
  | some (.cells area z limit) => some (.elems area limit (blockStart o.ucode o.addr s z 0))
  | _ => none

def gotRegister (o : WordOperand) : List Cell :=
  match o.type.bind (getWordTable o.level) with
  | some (.kn _ z) => knRegisterCells o.ucode o.addr z
  | some (.cells _ z _) => registerCells o.ucode o.addr z
  | _ => []

def gotCells (o : WordOperand) (k : Nat) (s : Store) : List Cell :=
  match o.type.bind (getWordTable o.level) with
  | some (.kn area z) =>
    knLoopCells (fun k => getKnCells area k (4 * operandKn o.ucode o.addr z))
      (4 * operandKn o.ucode o.addr z) (operandKnStart o.ucode o.addr s z) 1 k
  | some (.cells area z limit) =>
    loopCells (fun k => [area.cell k]) limit 1 1 (blockStart o.ucode o.addr s z k)
  | _ => []

theorem get_of_agree (hr : ∀ c ∈ o.gotRegister, c.read s' = c.read s)
    (h : ∀ c ∈ o.gotCells k s, c.read s' = c.read s) : o.get k s' = o.get k s := by
  rw [get, get, getWord_of_agree fun c hc => ?_]
  simp only [gotRegister, gotCells, type] at hr h
  rcases hform : (AddrType.ofCode (o.ucode.getPU8 (o.addr + 1))).bind (getWordTable o.level) with
    _ | _ | ⟨area, z⟩ | ⟨area, z, limit⟩ <;> simp only [wordCells, hform] at hc hr h
  · cases hc
  · cases hc
  · split at hc
    · cases hc
    · exact (mem_append.mp hc).elim (hr c) (h c)
  · exact (mem_append.mp hc).elim (hr c) (h c)

/-- There is one index register at most. -/
theorem mem_gotRegister {c : Cell} (hc : c ∈ o.gotRegister) :
    (∃ r, c = .word .Z r) ∧ o.gotRegister = [c] := by
  simp only [gotRegister] at hc ⊢
  split at hc
  · rw [knRegisterCells] at hc ⊢
    split at hc
    · rename_i hz
      obtain rfl := mem_singleton.mp hc
      exact ⟨⟨_, rfl⟩, if_pos hz⟩
    · cases hc
  · rw [registerCells] at hc ⊢
    split at hc
    · rename_i hz
      obtain rfl := mem_singleton.mp hc
      exact ⟨⟨_, rfl⟩, if_pos hz⟩
    · cases hc
  · cases hc

/-- Where a word is got from: a bit, or an element of its class. -/
theorem mem_gotCells {c : Cell} (hc : c ∈ o.gotCells k s) :
    (∃ area j, c = BitArea.cell area j) ∨
    ∃ area z j, o.type.bind (getWordTable o.level) = some (WordForm.of area z) ∧ j < area.rang ∧
      c = area.cell j := by
  simp only [gotCells] at hc
  split at hc
  · rename_i area z hform
    obtain ⟨k', hmem⟩ := mem_knLoopCells hc
    obtain ⟨m, -, -, rfl⟩ := mem_getKnCells hmem
    exact .inl ⟨area, _, rfl⟩
  · rename_i area z limit hform
    obtain ⟨a, -, htable⟩ := bind_eq_some_iff.mp hform
    have hlimit : limit = area.rang := by
      cases a <;> cases htable <;> rfl
    have hrang := area.rang_le
    rw [mem_loopCells (by omega)] at hc
    obtain ⟨j, -, hlt, hmem⟩ := hc
    rw [hlimit] at hform hlt
    exact .inr ⟨area, z, _, hform, hlt, mem_singleton.mp hmem⟩
  · cases hc

/-- The words of an operand with an index register do not lie in the index registers. -/
theorem z_not_mem_gotCells {c : Cell} (hc : c ∈ o.gotRegister) (r : Nat) :
    Cell.word .Z r ∉ o.gotCells k s := by
  intro hmem
  rcases mem_gotCells hmem with ⟨area, j, heq⟩ | ⟨area, z, j, hform, -, heq⟩
  · cases area <;> cases heq
  · cases area with
    | elem e =>
      injection heq with he
      subst he
      obtain ⟨a, -, htable⟩ := bind_eq_some_iff.mp hform
      have hz : z = false := by
        cases a <;> cases htable
        rfl
      simp only [gotRegister, hform, hz] at hc
      cases hc
    | v layer => cases heq

/-- But for the plain `V` operand, words are got from where they are saved. -/
theorem gotBlock_alike (hb : o.block s = some e) (hv : o.type ≠ some .v) :
    ∃ b, o.gotBlock s = some b ∧ b.Alike e := by
  rcases block_cases hb hv with
    ⟨area, z, -, hget, -, hkn, rfl⟩ | ⟨area, z, l, l', -, hget, -, -, -, rfl⟩
  · refine ⟨_, ?_, WordBlock.Alike.refl _⟩
    simp only [gotBlock, hget, if_neg hkn]
  · refine ⟨.elems area l' (blockStart o.ucode o.addr s z 0), ?_,
      ⟨fun _ => rfl, fun _ _ => rfl, rfl⟩⟩
    simp only [gotBlock, hget]

def savedV (o : WordOperand) (s : Store) : WordBlock :=
  .elems (.v (o.level + 1)) vRang (blockStart o.ucode o.addr s false 0)

def gotV (o : WordOperand) (s : Store) : WordBlock :=
  .elems (.v o.level) vRang (blockStart o.ucode o.addr s false 0)

/-- The words of a plain `V` operand are saved one layer up. -/
theorem block_v (hv : o.type = some .v) (s : Store) :
    o.block s = some (o.savedV s) ∧ o.gotBlock s = some (o.gotV s) := by
  simp only [block, gotBlock, hv]
  exact ⟨rfl, rfl⟩

/-- No word that is got lies in the layer above. -/
theorem layer_of_gotCells {j : Nat} (hc : Cell.v j ∈ o.gotCells k s) :
    j < vRang * (o.level + 1) := by
  rcases mem_gotCells hc with ⟨area, i, heq⟩ | ⟨area, z, i, hform, hlt, heq⟩
  · cases area with
    | elem e => cases heq
    | lm layer => cases heq
  · cases area with
    | elem e => cases heq
    | v layer =>
      obtain ⟨a, -, htable⟩ := bind_eq_some_iff.mp hform
      have hlayer : layer = o.level := by
        cases a <;> cases htable <;> rfl
      rw [Cell.v.inj heq, hlayer]
      exact Nat.add_lt_add_left hlt _

end WordOperand

/-! ## Saving words -/

section

variable {i : BodyInput} {q n k j : Nat} {b e : WordBlock} {s s' u : Store} {x : BitVec 16}

/-- A block that is not changed by others is still there. -/
theorem WordOperand.HasBlock.of_has {o : WordOperand} (h : o.HasBlock e n s)
    (hu : ChangesOnly (e.Has n) s u) : o.HasBlock e n u :=
  h.of_changes hu fun _ hc ⟨_, _, hmem⟩ => not_mem_cells_of_register h.block h.plain hc hmem

theorem savesBlock_words (h : (i.operand q).HasBlock e n s) (hb : b.Alike e) :
    SavesBlock (i.saveWords (i.pc + q)) (fun k u => b.read k u) b.kept n
      (ChangesOnly (b.Has n) s) := by
  simp only [hb.read, hb.kept, hb.has]
  refine ⟨fun k hk x u hu => (h.of_has hu).save_ok hk x, fun k hk x u hu => ?_,
    fun k hk x u hu => (h.of_has hu).read_save hk x,
    fun k hk x u hu j hj => (h.of_has hu).read_save_of_ne hk hj x⟩
  exact hu.trans (((h.of_has hu).save_changesOnly hk x).mono fun c hc => ⟨k, hk, hc⟩)

theorem get_of_gotBlock {o : WordOperand} (hgot : o.gotBlock s = some b) (hfits : b.Fits n)
    (hk : k < n) : o.get k s = .ok (b.read k s) := by
  have hfit := hfits.mono (succ_le_of_lt hk)
  rcases hform : o.type.bind (getWordTable o.level) with _ | _ | ⟨area, z⟩ | ⟨area, z, limit⟩ <;>
    simp only [WordOperand.gotBlock, hform, reduceCtorEq] at hgot
  · split at hgot
    · cases hgot
    · rename_i hkn
      obtain rfl := some.inj hgot
      have hrang := area.rang_le
      have hbase : knBase (operandKnStart o.ucode o.addr s z) k (4 * operandKn o.ucode o.addr z) =
          operandKnStart o.ucode o.addr s z + 4 * operandKn o.ucode o.addr z * k := by
        change _ + _ * (k + 1) ≤ area.rang at hfit
        rw [mul_succ] at hfit
        rw [knBase, Nat.mul_comm]
        exact elementIndex_of_lt (by omega)
      have hblock : InBits area.rang (4 * operandKn o.ucode o.addr z)
          (knBase (operandKnStart o.ucode o.addr s z) k (4 * operandKn o.ucode o.addr z)) 1 := by
        change _ + _ * (k + 1) ≤ area.rang at hfit
        rw [mul_succ] at hfit
        exact .inr (by omega)
      rw [WordOperand.type] at hform
      simp only [WordOperand.get, getWord, hform, if_neg hkn, getKnLoop_of_inBits hblock, hbase]
      rfl
  · obtain rfl := some.inj hgot
    obtain ⟨a, -, htable⟩ := bind_eq_some_iff.mp hform
    have hlimit : limit ≤ 32768 := by
      cases a <;> cases htable <;> exact WordArea.rang_le _
    change _ + (k + 1) ≤ limit at hfit
    have hstart : elementIndex (operandStart o.ucode o.addr s z + k) =
        blockStart o.ucode o.addr s z 0 + k := by
      rw [← elementIndex_of_lt (i := blockStart o.ucode o.addr s z 0 + k) (by omega)]
      exact (elementIndex_mod (operandStart o.ucode o.addr s z + 0) k).symm
    have hblock : InBlock limit 1 (blockStart o.ucode o.addr s z 0 + k) 1 := fun j hj => by omega
    rw [WordOperand.type] at hform
    simp only [WordOperand.get, getWord, hform, hstart, getLoop_of_inBlock (by omega) hblock]
    rfl

theorem toOption_words {q : Nat} :
    (i.words q k 1 u).toOption = ((i.operand q).get k u).toOption.map fun x => [x] := by
  rcases hget : (i.operand q).get k u with e | x
  · rcases hwords : i.words q k 1 u with e' | xs
    · rfl
    · have hmap : (i.operand q).get k u = (i.words q k 1 u).map fun xs => xs.headD 0 := rfl
      rw [hwords, hget] at hmap
      cases hmap
  · rw [words_of_get hget]
    rfl

theorem save_v {o : WordOperand} (hv : o.type = some .v) (hk : (o.savedV s).Fits (k + 1)) :
    o.save k x u = (.ok (), u.setWord (.v (o.level + 1))
      (blockStart o.ucode o.addr s false 0 + k) x) := by
  change blockStart o.ucode o.addr s false 0 + (k + 1) ≤ vRang at hk
  have hrang : vRang = 64 := rfl
  have hstart : elementIndex (operandStart o.ucode o.addr u false + k) =
      blockStart o.ucode o.addr s false 0 + k := by
    rw [← elementIndex_of_lt (i := blockStart o.ucode o.addr s false 0 + k) (by omega)]
    exact (elementIndex_mod (operandStart o.ucode o.addr s false + 0) k).symm
  have hform : (AddrType.ofCode (o.ucode.getPU8 (o.addr + 1))).bind (saveWordTable o.level) =
      some (.of (.v (o.level + 1)) false) := by
    rw [WordOperand.type] at hv
    rw [hv]
    rfl
  simp only [WordOperand.save, saveWord, hform, WordForm.of, hstart, saveLoop, WordArea.rang]
  rw [if_pos (by omega)]

theorem savesBlock_v (hv : (i.operand q).type = some .v) (hfits : ((i.operand q).savedV s).Fits n) :
    SavesBlock (i.saveWords (i.pc + q)) (fun k u => ((i.operand q).savedV s).read k u) id n
      (ChangesOnly (((i.operand q).savedV s).Has n) s) := by
  have hsave (k : Nat) (hk : k < n) (x : BitVec 16) (u : Store) : i.saveWords (i.pc + q) k [x] u =
      (.ok (), u.setWord (.v (i.level + 1))
        (blockStart i.ucode (i.pc + q) s false 0 + k) x) := save_v hv (hfits.mono hk)
  refine ⟨fun k hk x u _ => by rw [hsave k hk], fun k hk x u hu => ?_, fun k hk x u _ => ?_,
    fun k hk x u _ j hj => ?_⟩
  · rw [hsave k hk]
    refine hu.trans ⟨fun c hc => ?_, rest_setWord⟩
    exact read_setWord (fun heq => hc ⟨k, hk, mem_singleton.mpr heq⟩) x
  · rw [hsave k hk]
    exact getWord_setWord_self (.v (i.level + 1)) _ x
  · have hne : blockStart i.ucode (i.pc + q) s false 0 + j ≠
        blockStart i.ucode (i.pc + q) s false 0 + k := fun heq => hj (Nat.add_left_cancel heq)
    have hread : (u.setWord (.v (i.level + 1))
        (blockStart i.ucode (i.pc + q) s false 0 + k) x).getWord
        (.v (i.level + 1)) (blockStart i.ucode (i.pc + q) s false 0 + j) = _ :=
      getWord_setWord_of_ne hne x
    rw [hsave k hk]
    exact hread

/-- The two layers of a plain `V` operand share no cell. -/
theorem savedV_apart {o : WordOperand} {c : Cell} (hfits : (o.gotV s).Fits n) (hj : j < n)
    (hc : c ∈ (o.gotV s).cells j) : ¬ (o.savedV s).Has n c := by
  rintro ⟨k, hk, hmem⟩
  change blockStart o.ucode o.addr s false 0 + n ≤ vRang at hfits
  have heq := (mem_singleton.mp hc).symm.trans (mem_singleton.mp hmem)
  have hcell : vRang * o.level + (blockStart o.ucode o.addr s false 0 + j) =
      vRang * (o.level + 1) + (blockStart o.ucode o.addr s false 0 + k) := Cell.v.inj heq
  rw [mul_succ] at hcell
  omega

/-- A word of a block that `save_word` does not take cannot be saved, whatever else was. -/
theorem save_fails {o : WordOperand} (hgot : o.gotBlock s = some b) (hn : 0 < n) (hfits : b.Fits n)
    (hno : ∀ e, o.block s = some e → ¬ e.Fits n) :
    ∃ inv : Store → Prop, inv s ∧
      (∀ k xs u, inv u → inv (saveWord o.ucode o.addr u o.level k xs).2.2) ∧
      ∀ x u, inv u → (o.save (n - 1) x u).1 ≠ .ok () := by
  rcases eq_or_ne o.type (some .v) with hv | hv
  · obtain ⟨hblock, hblock'⟩ := WordOperand.block_v hv s
    rw [hblock'] at hgot
    obtain rfl := some.inj hgot
    exact absurd hfits (hno (o.savedV s) hblock)
  rcases hform : o.type.bind (saveWordTable o.level) with _ | form
  · rw [WordOperand.type] at hform
    refine ⟨fun _ => True, trivial, fun _ _ _ _ => trivial, fun x u _ => ?_⟩
    simp only [WordOperand.save, saveWord, hform]
    intro h
    cases h
  obtain ⟨a, ha, hsave⟩ := bind_eq_some_iff.mp hform
  have hget : o.type.bind (getWordTable o.level) = getWordTable o.level a := by
    rw [ha]
    rfl
  rcases saveWordTable_cases hsave (fun h => hv (h ▸ ha)) with
    ⟨area, z, rfl, htable⟩ | ⟨area, z, l, l', rfl, htable, hle, hl', hz⟩ <;>
    rw [htable] at hget <;> simp only [WordOperand.gotBlock, hget] at hgot <;>
    simp only [WordOperand.block, hform] at hno
  · split at hgot
    · cases hgot
    · rename_i hkn
      rw [if_neg hkn] at hno
      exact absurd hfits (hno b hgot)
  · obtain rfl := some.inj hgot
    have hrang := area.rang_le
    have hshort := hno _ rfl
    change ¬ blockStart o.ucode o.addr s z 0 + n ≤ l at hshort
    change blockStart o.ucode o.addr s z 0 + n ≤ l' at hfits
    rw [WordOperand.type] at hform
    refine ⟨fun u => z = true → u.word .Z = s.word .Z, fun _ => rfl, fun k xs u hu hindexed => ?_,
      fun x u hu => ?_⟩
    · simp only [saveWord, hform]
      refine Eq.trans ?_ (hu hindexed)
      exact saveLoop_frame (fun s => s.word .Z) (by omega) fun j _ _ x s =>
        setWord_word_z (hz hindexed) _ x
    · have hstart : elementIndex (operandStart o.ucode o.addr u z + (n - 1)) =
          blockStart o.ucode o.addr s z 0 + (n - 1) := by
        rw [operandStart_congr hu,
          ← elementIndex_of_lt (i := blockStart o.ucode o.addr s z 0 + (n - 1)) (by omega)]
        exact (elementIndex_mod (operandStart o.ucode o.addr s z + 0) (n - 1)).symm
      simp only [WordOperand.save, saveWord, hform, saveLoop]
      rw [if_neg (by omega)]
      intro h
      cases h

end

/-! ## Shifts of words -/

/-- A word shift with power flow: a block of `n` words, and `m` words `x` of a source that are not
got from the block. -/
structure WordShift (i : BodyInput) (b : WordBlock) (n m : Nat) (x : Nat → BitVec 16) : Prop where
  power : getPowerFlow i.inPF = true
  destLen : (i.operand 10).get 0 i.store = .ok (BitVec.ofNat 16 n)
  srcLen : (i.operand 14).get 0 i.store = .ok (BitVec.ofNat 16 m)
  le : m ≤ n
  lt : n < 32768
  dest : (i.operand 6).gotBlock i.store = some b
  fits : 0 < n → b.Fits n
  src : ∀ k < m, (i.operand 2).get k i.store = .ok (x k)
  apart : ∀ k < m, ∀ j < n, ∀ c ∈ b.cells j, c ∉ (i.operand 2).gotCells k i.store

section

variable (i : BodyInput) (b : WordBlock) (n m : Nat) (x : Nat → BitVec 16)

/-- A shift passes, its block is what it is to be, and no other cell is changed. -/
def ShiftsWords (ys : List (BitVec 16)) (r : BodyResult) : Prop :=
  r.1 = .ok () ∧ b.words n r.2.2 = ys ∧ ChangesOnly (b.Has n) i.store r.2.2

/-- If the index register of the source lies in the block, a source word that is got after the
register was written is the same there. -/
def IndexHolds : Prop :=
  ∀ r, Cell.word .Z r ∈ (i.operand 2).gotRegister → ∀ j, Cell.word .Z r ∈ b.cells j →
    ∀ k < m, j < n - m + k → (i.operand 2).get k (i.store.setWord (.elem .Z) r
      (shiftedDown (fun k => b.read k i.store) x n m j)) = .ok (x k)

/-- The block can be saved where it is got, and it can hold the source words, whose index register
means the same words all the time. The words of a plain `V` operand are those that the shift is to
bring, and so are those one layer up. -/
def WordsHold : Prop :=
  n = 0 ∨ ∃ e, (i.operand 6).block i.store = some e ∧ e.Fits n ∧
    if (i.operand 6).type = some .v then
      b.words n i.store = (b.words n i.store).drop m ++ (range m).map x ∧
        e.words n i.store = (b.words n i.store).drop m ++ (range m).map x
    else (∀ k < m, b.kept (x k) = x k) ∧ IndexHolds i b n m x

end

section

variable {i : BodyInput} {b e : WordBlock} {n m k t : Nat} {x : Nat → BitVec 16} {s s' : Store}

theorem wordShift_eq (h : WordShift i b n m x) : wordShift i = .ok (n, m) := by
  have hdest := h.destLen
  have hsrc := h.srcLen
  have hle := h.le
  have hm : m < 32768 := Nat.lt_of_le_of_lt h.le h.lt
  change i.word 10 0 i.store = _ at hdest
  change i.word 14 0 i.store = _ at hsrc
  simp only [wordShift, hdest, hsrc, bind, Except.bind, toInt_ofNat_count h.lt,
    toInt_ofNat_count hm, toNat_ofNat_count h.lt, toNat_ofNat_count hm]
  rw [if_neg (by omega)]
  rfl

/-- The pass of `WSFR` that saves a word. -/
def wsfrMove (i : BodyInput) (n m t : Nat) : Move (BitVec 16) :=
  if t < n - m then ⟨i.words 6 (t + m) 1, i.pc + 6, t⟩
  else ⟨i.words 2 (t - (n - m)) 1, i.pc + 6, t⟩

theorem wsfr_run (h : WordShift i b n m x) : runCiWsfrIns i =
    ((runMoves i.saveWords ((range n).map (wsfrMove i n m)) i.store).1, i.inPF,
      (runMoves i.saveWords ((range n).map (wsfrMove i n m)) i.store).2) := by
  refine runChecked_eq h.power ?_
  simp only [wsfrMoves, wordShift_eq h]
  refine congrArg ok ?_
  rw [map_range_of_le _ (sub_le n m), Nat.sub_sub_self h.le]
  congr 1
  · refine map_congr_left fun k hk => ?_
    rw [wsfrMove, if_pos (mem_range.mp hk)]
  · refine map_congr_left fun k _ => ?_
    rw [wsfrMove, if_neg (by omega), Nat.add_sub_cancel_left, Nat.add_comm k]

theorem words_shifted_iff (hm : m ≤ n) :
    e.words n s' = (b.words n s).drop m ++ (range m).map x ↔
      ∀ k < n, e.read k s' = shiftedDown (fun k => b.read k s) x n m k :=
  map_eq_shiftedDown_iff hm

/-- A block with an index register consists of index registers. -/
theorem elems_of_register {r j : Nat} (hmem : Cell.word .Z r ∈ b.cells j) :
    ∃ limit start, b = .elems (.elem .Z) limit start ∧ r = start + j := by
  cases b with
  | bits area width start =>
    obtain ⟨m, -, heq⟩ := List.mem_map.mp hmem
    cases area <;> cases heq
  | elems area limit start =>
    have heq := mem_singleton.mp hmem
    cases area with
    | elem e =>
      injection heq with he hj
      exact ⟨limit, start, by rw [he], hj⟩
    | v layer => cases heq

/-- If the index register of the source lies in the block, the source gives what it does with the
register as it stands there. -/
theorem get_of_register {o : WordOperand} {limit start j : Nat} {u : Store}
    (hr : Cell.word .Z (start + j) ∈ o.gotRegister)
    (hu : ChangesOnly ((WordBlock.elems (.elem .Z) limit start).Has n) s u) :
    o.get k u = o.get k (s.setWord (.elem .Z) (start + j)
      ((WordBlock.elems (.elem .Z) limit start).read j u)) := by
  refine WordOperand.get_of_agree (fun c hc => ?_) fun c hc => ?_
  · rw [(WordOperand.mem_gotRegister hr).2] at hc
    obtain rfl := mem_singleton.mp hc
    exact congrArg (setWidth 32) (getWord_setWord_self (.elem .Z) _ _).symm
  · have hne (r : Nat) : c ≠ .word .Z r := by
      rintro rfl
      exact WordOperand.z_not_mem_gotCells hr r hc
    have hout : ¬ (WordBlock.elems (.elem .Z) limit start).Has n c := by
      rintro ⟨j', -, hmem⟩
      exact hne _ (mem_singleton.mp hmem)
    rw [hu.cells c hout]
    exact (read_setWord (hne (start + j)) _).symm

/-- While the shift goes on, the source gives what it does at the start, but for its index
register. -/
theorem exists_index (h : WordShift i b n m x) :
    ∃ index : (Nat → BitVec 16) → Store,
      (∀ u, ChangesOnly (b.Has n) i.store u → ∀ k < m,
        (i.operand 2).get k u = (i.operand 2).get k (index fun j => b.read j u)) ∧
      ((∀ k < m, ∃ v, (i.operand 2).get k (index (written (shiftedDown
          (fun k => b.read k i.store) x n m) (fun k => b.read k i.store) (n - m + k))) = .ok v ∧
          b.kept v = x k) ↔ (∀ k < m, b.kept (x k) = x k) ∧ IndexHolds i b n m x) := by
  have hle := h.le
  by_cases hreg : ∃ r, Cell.word .Z r ∈ (i.operand 2).gotRegister ∧
    ∃ j < n, Cell.word .Z r ∈ b.cells j
  · obtain ⟨r, hr, j, hj, hmem⟩ := hreg
    obtain ⟨limit, start, rfl, rfl⟩ := elems_of_register hmem
    refine ⟨fun f => i.store.setWord (.elem .Z) (start + j) (f j),
      fun u hu k _ => get_of_register hr hu, fun hall => ⟨fun _ _ => rfl, ?_⟩, ?_⟩
    · intro r' hr' j' hmem' k hk hlt
      rw [(WordOperand.mem_gotRegister hr).2] at hr'
      obtain rfl : r' = start + j := by injection mem_singleton.mp hr'
      obtain rfl : j' = j := by
        injection mem_singleton.mp hmem' with _ hplace
        omega
      obtain ⟨v, hv, hkept⟩ := hall k hk
      simp only [written, if_pos hlt] at hv
      exact hv.trans (congrArg ok hkept)
    · rintro ⟨-, hindex⟩ k hk
      refine ⟨x k, ?_, rfl⟩
      by_cases hlt : j < n - m + k
      · simp only [written, if_pos hlt]
        exact hindex _ hr j hmem k hk hlt
      · have hsame : i.store.setWord (.elem .Z) (start + j) (i.store.word .Z (start + j)) =
            i.store := by
          simp only [Store.setWord, update_eq_self]
        simp only [written, if_neg hlt]
        exact (congrArg ((i.operand 2).get k) hsame).trans (h.src k hk)
  · refine ⟨fun _ => i.store, fun u hu k hk => ?_, fun hall => ⟨fun k hk => ?_, ?_⟩, ?_⟩
    · refine WordOperand.get_of_agree (fun c hc => hu.cells c ?_) fun c hc => hu.cells c ?_
      · obtain ⟨⟨r, rfl⟩, -⟩ := WordOperand.mem_gotRegister hc
        exact fun hhas => hreg ⟨r, hc, hhas⟩
      · rintro ⟨j, hj, hmem⟩
        exact h.apart k hk j hj c hmem hc
    · obtain ⟨v, hv, hkept⟩ := hall k hk
      rw [h.src k hk] at hv
      rw [← ok.inj hv] at hkept
      exact hkept
    · intro r hr j hmem k hk hlt
      exact absurd ⟨r, hr, j, by omega, hmem⟩ hreg
    · rintro ⟨hkept, -⟩ k hk
      exact ⟨x k, h.src k hk, hkept k hk⟩

/-- Where a pass of `WSFR` saves, and that it has a single word. -/
theorem wsfrMove_place : (wsfrMove i n m t).dst = i.pc + 6 ∧ (wsfrMove i n m t).off = t ∧
    ∀ u xs, (wsfrMove i n m t).read u = .ok xs → ∃ y, xs = [y] := by
  rw [wsfrMove]
  split
  · exact ⟨rfl, rfl, fun u xs hread => length_eq_one_iff.mp (length_words hread)⟩
  · exact ⟨rfl, rfl, fun u xs hread => length_eq_one_iff.mp (length_words hread)⟩

/-- If the block cannot be saved, the shift does not pass. -/
theorem wsfr_fails (h : WordShift i b n m x) (hn : 0 < n)
    (hno : ∀ e, (i.operand 6).block i.store = some e → ¬ e.Fits n) :
    (runMoves i.saveWords ((range n).map (wsfrMove i n m)) i.store).1 ≠ .ok () := by
  obtain ⟨inv, hs, hkeep, hfail⟩ := save_fails h.dest hn (h.fits hn) hno
  have hlast : wsfrMove i n m (n - 1) ∈ (range n).map (wsfrMove i n m) :=
    List.mem_map_of_mem (mem_range.mpr (sub_lt hn Nat.one_pos))
  refine runMoves_ne_ok hlast (fun u xs hu hread => ?_) (fun move hmove u xs hu => ?_) hs
  · obtain ⟨hdst, hoff, hone⟩ := wsfrMove_place (i := i) (n := n) (m := m) (t := n - 1)
    obtain ⟨y, rfl⟩ := hone u xs hread
    rw [hdst, hoff]
    exact hfail y u hu
  · obtain ⟨t, -, rfl⟩ := List.mem_map.mp hmove
    rw [(wsfrMove_place (i := i) (n := n) (m := m) (t := t)).1]
    exact hkeep _ xs u hu

/-- What a pass of `WSFR` saves, as the block says and the source, with an index register that may
lie in the block. -/
def wsfrValue (i : BodyInput) (index : (Nat → BitVec 16) → Store) (n m t : Nat)
    (f : Nat → BitVec 16) : Option (BitVec 16) :=
  if t < n - m then some (f (t + m)) else ((i.operand 2).get (t - (n - m)) (index f)).toOption

theorem wsfrValue_right_iff {index : (Nat → BitVec 16) → Store} (hle : m ≤ n) :
    (∀ t < n, ∃ v, wsfrValue i index n m t (written (shiftedDown (fun k => b.read k s) x n m)
        (fun k => b.read k s) t) = some v ∧
        b.kept v = shiftedDown (fun k => b.read k s) x n m t) ↔
      ∀ k < m, ∃ v, (i.operand 2).get k (index (written (shiftedDown (fun k => b.read k s) x n m)
        (fun k => b.read k s) (n - m + k))) = .ok v ∧ b.kept v = x k := by
  constructor
  · intro hall k hk
    obtain ⟨v, hv, hkept⟩ := hall (n - m + k) (by omega)
    rw [wsfrValue, if_neg (by omega), Nat.add_sub_cancel_left] at hv
    rw [shiftedDown, if_neg (by omega), Nat.add_sub_cancel_left] at hkept
    exact ⟨v, eq_ok_of_toOption hv, hkept⟩
  · intro hall t ht
    by_cases hlt : t < n - m
    · refine ⟨b.read (t + m) s, ?_, ?_⟩
      · rw [wsfrValue, if_pos hlt, written, if_neg (by omega)]
      · rw [WordBlock.kept_read, shiftedDown, if_pos hlt, Nat.add_comm]
    · obtain ⟨k, rfl⟩ := Nat.exists_eq_add_of_le (Nat.not_lt.mp hlt)
      obtain ⟨v, hv, hkept⟩ := hall k (by omega)
      refine ⟨v, ?_, ?_⟩
      · rw [wsfrValue, if_neg hlt, Nat.add_sub_cancel_left, hv]
        rfl
      · rw [shiftedDown, if_neg hlt, Nat.add_sub_cancel_left, hkept]

theorem wsfr_plain_iff (h : WordShift i b n m x) (he : (i.operand 6).block i.store = some e)
    (hfits : e.Fits n) (hv : (i.operand 6).type ≠ some .v) :
    ShiftsWords i b n ((b.words n i.store).drop m ++ (range m).map x) (runCiWsfrIns i) ↔
      (∀ k < m, b.kept (x k) = x k) ∧ IndexHolds i b n m x := by
  have hblock : (i.operand 6).HasBlock e n i.store := ⟨he, hv, hfits⟩
  obtain ⟨b', hgot, halike⟩ := WordOperand.gotBlock_alike he hv
  obtain rfl : b' = b := some.inj (hgot.symm.trans h.dest)
  obtain ⟨index, hindex, hsource⟩ := exists_index h
  have hsave := savesBlock_words hblock halike
  have hmove (t : Nat) (ht : t < n) : (wsfrMove i n m t).dst = i.pc + 6 ∧
      (wsfrMove i n m t).off = t ∧ ∀ u, ChangesOnly (b'.Has n) i.store u →
        ((wsfrMove i n m t).read u).toOption =
          (wsfrValue i index n m t fun k => b'.read k u).map fun x => [x] := by
    refine ⟨wsfrMove_place.1, wsfrMove_place.2.1, fun u hu => ?_⟩
    rw [wsfrMove, wsfrValue]
    split
    · have hthere : (i.operand 6).HasBlock e n u := hblock.of_has (halike.has ▸ hu)
      rw [toOption_words, hthere.get (by omega), halike.read]
      rfl
    · change (i.words 2 (t - (n - m)) 1 u).toOption = _
      rw [toOption_words, hindex u hu _ (by omega)]
  obtain ⟨hothers, hright⟩ :=
    runMoves_ascending_iff (wsfrValue i index n m) hsave changesOnly_refl hmove
  rw [← hsource, ← wsfrValue_right_iff h.le, ← hright, ShiftsWords, wsfr_run h,
    words_shifted_iff h.le]
  exact and_congr_right fun _ => and_iff_left hothers

/-- A plain `V` operand has the words that are to come, and keeps them. -/
theorem wsfr_v_iff (h : WordShift i b n m x) (hn : 0 < n) (hv : (i.operand 6).type = some .v) :
    ShiftsWords i b n ((b.words n i.store).drop m ++ (range m).map x) (runCiWsfrIns i) ↔
      b.words n i.store = (b.words n i.store).drop m ++ (range m).map x ∧
        ((i.operand 6).savedV i.store).words n i.store =
          (b.words n i.store).drop m ++ (range m).map x := by
  have hfits := h.fits hn
  obtain rfl : (i.operand 6).gotV i.store = b :=
    some.inj ((WordOperand.block_v hv i.store).2.symm.trans h.dest)
  have hsave := savesBlock_v hv (s := i.store) hfits
  have hmove (t : Nat) (ht : t < n) : (wsfrMove i n m t).dst = i.pc + 6 ∧
      (wsfrMove i n m t).off = t ∧
        ∀ u, ChangesOnly (((i.operand 6).savedV i.store).Has n) i.store u →
          ((wsfrMove i n m t).read u).toOption = (some (shiftedDown
            (fun k => ((i.operand 6).gotV i.store).read k i.store) x n m t)).map fun x => [x] := by
    refine ⟨wsfrMove_place.1, wsfrMove_place.2.1, fun u hu => ?_⟩
    rw [wsfrMove, shiftedDown]
    split
    · have hlt : t + m < n := by omega
      have hread : ((i.operand 6).gotV i.store).read (t + m) u =
          ((i.operand 6).gotV i.store).read (t + m) i.store :=
        WordBlock.read_of_changes hu fun c hc => savedV_apart hfits hlt hc
      rw [toOption_words, get_of_gotBlock (WordOperand.block_v hv u).2 hfits hlt, Nat.add_comm m]
      exact congrArg (fun x => some [x]) hread
    · have hk : t - (n - m) < m := by omega
      have hsource : (i.operand 2).get (t - (n - m)) u = .ok (x (t - (n - m))) := by
        rw [WordOperand.get_of_agree (fun c hc => hu.cells c ?_) fun c hc => hu.cells c ?_,
          h.src _ hk]
        · obtain ⟨⟨r, rfl⟩, -⟩ := WordOperand.mem_gotRegister hc
          rintro ⟨j, -, hmem⟩
          cases mem_singleton.mp hmem
        · rintro ⟨j, -, hmem⟩
          obtain rfl := mem_singleton.mp hmem
          have hlayer := WordOperand.layer_of_gotCells hc
          exact absurd hlayer (Nat.not_lt.mpr (Nat.le_add_right _ _))
      rw [toOption_words, hsource]
      rfl
  obtain ⟨hothers, hright⟩ := runMoves_ascending_iff
    (g := shiftedDown (fun k => ((i.operand 6).gotV i.store).read k i.store) x n m)
    (fun t _ => some (shiftedDown _ x n m t)) hsave changesOnly_refl hmove
  obtain ⟨hpass, hsaved⟩ := hright.mpr fun t _ => ⟨_, rfl, rfl⟩
  rw [wsfr_run h]
  have hgot : ((i.operand 6).gotV i.store).words n
      (runMoves i.saveWords ((range n).map (wsfrMove i n m)) i.store).2 =
      ((i.operand 6).gotV i.store).words n i.store := by
    refine map_congr_left fun k hk => WordBlock.read_of_changes hothers fun c hc => ?_
    exact savedV_apart hfits (mem_range.mp hk) hc
  constructor
  · rintro ⟨-, hwords, hrest⟩
    refine ⟨hgot.symm.trans hwords, (words_shifted_iff h.le).mpr fun k hk => ?_⟩
    rw [← hsaved k hk]
    refine (WordBlock.read_of_changes hrest fun c hc => ?_).symm
    rintro ⟨j, hj, hmem⟩
    exact savedV_apart hfits hj hmem ⟨k, hk, hc⟩
  · rintro ⟨hwords, hsame⟩
    refine ⟨hpass, hgot.trans hwords, fun c hc => ?_, hothers.rest⟩
    by_cases hhas : ((i.operand 6).savedV i.store).Has n c
    · obtain ⟨k, hk, hmem⟩ := hhas
      obtain rfl := mem_singleton.mp hmem
      have hread := (hsaved k hk).trans ((words_shifted_iff h.le).mp hsame k hk).symm
      exact congrArg (setWidth 32) hread
    · exact hothers.cells c hhas

theorem wsfr_right_iff (h : WordShift i b n m x) :
    ShiftsWords i b n ((b.words n i.store).drop m ++ (range m).map x) (runCiWsfrIns i) ↔
      WordsHold i b n m x := by
  rcases Nat.eq_zero_or_pos n with rfl | hn
  · obtain rfl : m = 0 := le_zero.mp h.le
    refine iff_of_true ?_ (.inl rfl)
    rw [wsfr_run h]
    exact ⟨rfl, rfl, changesOnly_refl⟩
  · by_cases hsaved : ∃ e, (i.operand 6).block i.store = some e ∧ e.Fits n
    · obtain ⟨e, he, hfits⟩ := hsaved
      have hhold : WordsHold i b n m x ↔ if (i.operand 6).type = some .v then
          b.words n i.store = (b.words n i.store).drop m ++ (range m).map x ∧
            e.words n i.store = (b.words n i.store).drop m ++ (range m).map x
          else (∀ k < m, b.kept (x k) = x k) ∧ IndexHolds i b n m x := by
        constructor
        · rintro (hzero | ⟨e', he', -, hwords⟩)
          · exact absurd hzero (Nat.ne_of_gt hn)
          · obtain rfl : e' = e := some.inj (he'.symm.trans he)
            exact hwords
        · exact fun hwords => .inr ⟨e, he, hfits, hwords⟩
      rw [hhold]
      split
      · rename_i hv
        obtain rfl : (i.operand 6).savedV i.store = e :=
          some.inj ((WordOperand.block_v hv i.store).1.symm.trans he)
        exact wsfr_v_iff h hn hv
      · rename_i hv
        exact wsfr_plain_iff h he hfits hv
    · refine iff_of_false (fun hright => ?_) ?_
      · rw [wsfr_run h] at hright
        exact wsfr_fails h hn (fun e he hfits => hsaved ⟨e, he, hfits⟩) hright.1
      · rintro (hzero | ⟨e, he, hfits, -⟩)
        · exact absurd hzero (Nat.ne_of_gt hn)
        · exact hsaved ⟨e, he, hfits⟩

/-- `WSFL` passes only if nothing of the block is to stay. -/
theorem eq_of_wsfl_passes (h : WordShift i b n m x) (hpass : (runCiWsflIns i).1 = .ok ()) :
    m = n := by
  refine (Nat.lt_or_eq_of_le h.le).resolve_left fun hlt => ?_
  have hmoves : wsflMoves i = .ok ((wsflCounter n m).map (wsflMove i m) ++
      (range m).map fun k => ⟨i.words 2 k 1, i.pc + 6, k⟩) := by
    simp only [wsflMoves, wordShift_eq h]
    rfl
  rw [runCiWsflIns, runChecked_eq h.power hmoves] at hpass
  obtain ⟨l, inv, hinv, hl, hc, hne, hlong⟩ := wsflLoop_endless (s := i.store) hlt h.lt
  let never : Move (BitVec 16) := ⟨fun _ => .error .operands, i.pc + 6, 0⟩
  have hrun : (runMoves i.saveWords ((wsflCounter n m).map (wsflMove i m) ++ [never]) i.store).1 =
      .ok () := by
    rw [runMoves_endless hl hc hinv hne hlong,
      ← runMoves_endless hl hc hinv hne hlong]
    exact hpass
  have hfail (s : Store) (xs : List (BitVec 16)) (_ : True) (hread : never.read s = .ok xs) :
      (i.saveWords never.dst never.off xs s).1 ≠ .ok () := by
    cases hread
  exact runMoves_ne_ok (mem_append_right _ mem_cons_self) hfail
    (fun _ _ _ _ _ => trivial) trivial hrun

/-- Then it does what `WSFR` does. -/
theorem wsfl_eq_wsfr (h : WordShift i b n n x) : runCiWsflIns i = runCiWsfrIns i := by
  have hmoves : wsflMoves i = wsfrMoves i := by
    simp only [wsflMoves, wsfrMoves, wordShift_eq h, bind, Except.bind, wsflCounter,
      if_neg (Nat.lt_irrefl n), Nat.sub_self, range_zero, map_nil, Nat.add_zero]
  rw [runCiWsflIns, runCiWsfrIns, hmoves]

theorem wsfl_right_iff (h : WordShift i b n m x) :
    ShiftsWords i b n ((range m).map x ++ (b.words n i.store).take (n - m))
      (runCiWsflIns i) ↔ m = n ∧ WordsHold i b n m x := by
  have hall (h : WordShift i b n n x) :
      ShiftsWords i b n ((range n).map x ++ (b.words n i.store).take (n - n))
        (runCiWsflIns i) ↔ WordsHold i b n n x := by
    have hlength : (b.words n i.store).length = n := by
      rw [WordBlock.words, length_map, length_range]
    have hdrop : (b.words n i.store).drop n = [] :=
      drop_eq_nil_of_le (Nat.le_of_eq hlength)
    rw [← wsfr_right_iff h, wsfl_eq_wsfr h, hdrop, Nat.sub_self, take_zero, append_nil,
      nil_append]
  constructor
  · intro hright
    obtain rfl := eq_of_wsfl_passes h hright.1
    exact ⟨rfl, (hall h).mp hright⟩
  · rintro ⟨rfl, hwords⟩
    exact (hall h).mpr hwords

end

/-! ## Blocks of bits -/

/-- Where the bits of an operand lie. -/
structure BitBlock where
  area : BitArea
  start : Nat
deriving DecidableEq, Repr

namespace BitBlock

def cell (d : BitBlock) (k : Nat) : Cell := d.area.cell (d.start + k)

def read (d : BitBlock) (k : Nat) (s : Store) : Bool := s.getBit d.area (d.start + k)

def bits (d : BitBlock) (n : Nat) (s : Store) : List Bool := (range n).map fun k => d.read k s

def Has (d : BitBlock) (n : Nat) (c : Cell) : Prop := ∃ k < n, c = d.cell k

/-- The first `n` bits lie in their class. -/
def Fits (d : BitBlock) (n : Nat) : Prop := d.start + n ≤ d.area.rang

/-- One of the first `m` bits is one of the first `n` bits of the other block. -/
def Overlap (a d : BitBlock) (m n : Nat) : Prop := ∃ j < m, ∃ k < n, a.cell j = d.cell k

instance decidableOverlap (a d : BitBlock) (m n : Nat) : Decidable (a.Overlap d m n) :=
  inferInstanceAs (Decidable (∃ j < m, ∃ k < n, a.cell j = d.cell k))

end BitBlock

def WordOperand.bitBlock (o : WordOperand) (s : Store) : Option BitBlock :=
  (o.type.bind (getCharTable o.level)).map fun form =>
    ⟨form.1, blockStart o.ucode o.addr s form.2 0⟩

def WordOperand.SavesBits (o : WordOperand) : Prop := o.type.bind (saveCharTable o.level) ≠ none

instance decidableSavesBits (o : WordOperand) : Decidable o.SavesBits :=
  inferInstanceAs (Decidable (_ ≠ _))

section

variable {i : BodyInput} {o : WordOperand} {a d : BitBlock} {q n m k : Nat} {s u : Store}
variable {x : Bool} {xs : List Bool}

/-- Changes of bits change no index register. -/
theorem word_of_bits (hu : ChangesOnly (d.Has n) s u) : u.word .Z = s.word .Z := by
  funext r
  refine setWidth_inj (hu.cells (.word .Z r) ?_)
  rintro ⟨k, -, heq⟩
  rw [BitBlock.cell] at heq
  cases harea : d.area <;> rw [harea] at heq <;> cases heq

theorem bitBlock_of_bits (hu : ChangesOnly (d.Has n) s u) : o.bitBlock u = o.bitBlock s := by
  have hstart (z : Bool) : blockStart o.ucode o.addr u z 0 = blockStart o.ucode o.addr s z 0 := by
    rw [blockStart, blockStart, operandStart_congr fun _ => word_of_bits hu]
  simp only [WordOperand.bitBlock, hstart]

theorem bit_place (hd : o.bitBlock s = some d) :
    ∃ z, o.type.bind (getCharTable o.level) = some (d.area, z) ∧
      ∀ k, d.start + k < 65536 →
        elementIndex (operandStart o.ucode o.addr s z + k) = d.start + k := by
  obtain ⟨⟨area, z⟩, hform, rfl⟩ := map_eq_some_iff.mp hd
  refine ⟨z, hform, fun k hk => ?_⟩
  rw [← elementIndex_of_lt hk]
  exact (elementIndex_mod (operandStart o.ucode o.addr s z + 0) k).symm

theorem chars_of_bitBlock (hd : (i.operand q).bitBlock s = some d) (hfits : d.Fits n)
    (hk : k < n) : i.chars q k 1 s = .ok [d.read k s] := by
  have hrang := d.area.rang_le
  change d.start + n ≤ d.area.rang at hfits
  obtain ⟨z, hform, hplace⟩ := bit_place hd
  have hstart : elementIndex (operandStart i.ucode (i.pc + q) s z + k) = d.start + k :=
    hplace k (by omega)
  have hblock : InBlock d.area.rang 1 (d.start + k) 1 := fun j hj => by omega
  rw [WordOperand.type] at hform
  have hget : getChar i.ucode (i.pc + q) s i.level k 1 =
      (.ok (), (range 1).map fun j => s.getBit d.area (d.start + k + 1 * j)) := by
    rw [← getLoop_of_inBlock (by omega) hblock, ← hstart]
    simp only [BodyInput.operand] at hform
    simp only [getChar, hform]
  rw [BodyInput.chars, hget]
  rfl

theorem saveCharTable_of_get {l : Nat} {type : AddrType} {f g : BitArea × Bool}
    (hget : getCharTable l type = some f) (hsave : saveCharTable l type = some g) : g = f := by
  cases type <;> cases hsave <;> cases hget <;> rfl

theorem savesBlock_bits (hd : (i.operand q).bitBlock s = some d) (hfits : d.Fits n)
    (hsaves : (i.operand q).SavesBits) :
    SavesBlock (i.saveChars (i.pc + q)) (fun k u => d.read k u) id n
      (ChangesOnly (d.Has n) s) := by
  have hrang := d.area.rang_le
  have hsave (k : Nat) (hk : k < n) (x : Bool) (u : Store) (hu : ChangesOnly (d.Has n) s u) :
      i.saveChars (i.pc + q) k [x] u = (.ok (), u.setBit d.area (d.start + k) x) := by
    change d.start + n ≤ d.area.rang at hfits
    obtain ⟨z, hform, hplace⟩ := bit_place ((bitBlock_of_bits hu).trans hd)
    obtain ⟨type, htype, hget⟩ := bind_eq_some_iff.mp hform
    obtain ⟨g, hg⟩ := ne_none_iff_exists'.mp hsaves
    obtain ⟨type', htype', htable⟩ := bind_eq_some_iff.mp hg
    obtain rfl : type' = type := some.inj (htype'.symm.trans htype)
    obtain rfl := saveCharTable_of_get hget htable
    have hstart : elementIndex (operandStart i.ucode (i.pc + q) u z + k) = d.start + k :=
      hplace k (by omega)
    rw [WordOperand.type] at hg
    simp only [BodyInput.operand] at hg
    simp only [BodyInput.saveChars, saveChar, hg, hstart, saveLoop]
    rw [if_pos (by omega)]
  refine ⟨fun k hk x u hu => by rw [hsave k hk x u hu], fun k hk x u hu => ?_,
    fun k hk x u hu => ?_, fun k hk x u hu j hj => ?_⟩
  · rw [hsave k hk x u hu]
    refine hu.trans ⟨fun c hc => ?_, rest_setBit⟩
    exact read_setBit (fun heq => hc ⟨k, hk, heq⟩) x
  · rw [hsave k hk x u hu]
    exact getBit_setBit_self d.area _ x
  · rw [hsave k hk x u hu]
    exact getBit_setBit_of_ne (fun heq => hj (Nat.add_left_cancel heq)) x

end

/-! ## Shifts of bits -/

/-- A bit shift with power flow: a block `d` of `n` bits, and a block `a` of `m` source bits. -/
structure BitShift (i : BodyInput) (a d : BitBlock) (n m : Nat) : Prop where
  power : getPowerFlow i.inPF = true
  destLen : (i.operand 10).get 0 i.store = .ok (BitVec.ofNat 16 n)
  srcLen : (i.operand 14).get 0 i.store = .ok (BitVec.ofNat 16 m)
  le : m ≤ n
  lt : n ≤ 1024
  src : (i.operand 2).bitBlock i.store = some a
  srcFits : 0 < m → a.Fits m
  dest : (i.operand 6).bitBlock i.store = some d
  destFits : 0 < n → d.Fits n

section

variable (i : BodyInput) (a d : BitBlock) (n m : Nat)

/-- A shift passes, its block is what it is to be, and no other cell is changed. -/
def ShiftsBits (ys : List Bool) (r : BodyResult) : Prop :=
  r.1 = .ok () ∧ d.bits n r.2.2 = ys ∧ ChangesOnly (d.Has n) i.store r.2.2

/-- A shift refuses its operands just if the blocks overlap, and else it is right. -/
def BitShiftRight (ys : List Bool) (r : BodyResult) : Prop :=
  (r.1 = .error .operands ↔ a.Overlap d m n) ∧
    (¬ a.Overlap d m n → ShiftsBits i d n ys r)

/-- The operands have the same type and index register. -/
def SameElements : Prop := i.ucode.getPU16 (i.pc + 2) = i.ucode.getPU16 (i.pc + 6)

/-- The source ends where the block begins, or no bit of it is shifted in and it begins in the
block. -/
def Touching : Prop :=
  let src := i.ucode.getPU16 (i.pc + 4)
  let dst := i.ucode.getPU16 (i.pc + 8)
  src + m = dst ∧ 0 < n ∨ m = 0 ∧ dst ≤ src ∧ src < dst + n

instance decidableTouching : Decidable (Touching i n m) := inferInstanceAs (Decidable (_ ∨ _))

/-- Blocks that overlap are those of operands with the same type and index register, whose numbers
run over 65536 both or not at all. Operands of that kind do not touch. And if there are bits to be
shifted, they can be saved. -/
def BitsHold : Prop :=
  (a.Overlap d m n → SameElements i ∧
    a.start + i.ucode.getPU16 (i.pc + 8) = d.start + i.ucode.getPU16 (i.pc + 4)) ∧
  ¬ (SameElements i ∧ Touching i n m) ∧
  (¬ a.Overlap d m n → n = 0 ∨ (i.operand 6).SavesBits)

end

section

variable {i : BodyInput} {a d : BitBlock} {n m q k : Nat} {s u : Store} {xs : List Bool}

theorem bitShift_eq (h : BitShift i a d n m) :
    bitShift i = if BitsOverlap i n m then .error .operands else .ok (n, m) := by
  have hdest := h.destLen
  have hsrc := h.srcLen
  have hle := h.le
  have hn : n < 32768 := Nat.lt_of_le_of_lt h.lt (by decide)
  have hm : m < 32768 := Nat.lt_of_le_of_lt h.le hn
  have hlt := h.lt
  change i.word 10 0 i.store = _ at hdest
  change i.word 14 0 i.store = _ at hsrc
  simp only [bitShift, hdest, hsrc, bind, Except.bind, toInt_ofNat_count hn, toInt_ofNat_count hm,
    toNat_ofNat_count hn, toNat_ofNat_count hm]
  rw [if_neg (by omega)]
  rfl

theorem same_places (h : BitShift i a d n m) (hsame : SameElements i) :
    a.area = d.area ∧ ∃ r < 65536, a.start = (r + i.ucode.getPU16 (i.pc + 4)) % 65536 ∧
      d.start = (r + i.ucode.getPU16 (i.pc + 8)) % 65536 := by
  have hlo := Ucode.getPU8_lt (u := i.ucode) (p := i.pc + 2)
  have hlo' := Ucode.getPU8_lt (u := i.ucode) (p := i.pc + 6)
  rw [SameElements, Ucode.getPU16, Ucode.getPU16] at hsame
  have hsub : i.ucode.getPU8 (i.pc + 2) = i.ucode.getPU8 (i.pc + 6) := by omega
  have hcode : i.ucode.getPU8 (i.pc + 2 + 1) = i.ucode.getPU8 (i.pc + 6 + 1) := by omega
  obtain ⟨form, hform, rfl⟩ := map_eq_some_iff.mp h.src
  obtain ⟨form', hform', rfl⟩ := map_eq_some_iff.mp h.dest
  have hforms : (i.operand 2).type.bind (getCharTable i.level) =
      (i.operand 6).type.bind (getCharTable i.level) := by
    rw [WordOperand.type, WordOperand.type]
    simp only [BodyInput.operand, hcode]
  obtain rfl : form = form' := some.inj (hform.symm.trans (hforms.trans hform'))
  refine ⟨rfl, if form.2 then (i.store.word .Z (i.ucode.getPU8 (i.pc + 2))).toNat else 0,
    ?_, ?_, ?_⟩
  · split
    · exact isLt _
    · decide
  · rfl
  · rw [hsub]
    rfl

theorem overlap_iff (harea : a.area = d.area) : a.Overlap d m n ↔
    0 < m ∧ 0 < n ∧ a.start < d.start + n ∧ d.start < a.start + m := by
  have hcell (j k : Nat) : a.cell j = d.cell k ↔ a.start + j = d.start + k := by
    rw [BitBlock.cell, harea]
    exact ⟨BitArea.cell_inj, congrArg d.area.cell⟩
  simp only [BitBlock.Overlap, hcell]
  constructor
  · rintro ⟨j, hj, k, hk, heq⟩
    omega
  · rintro ⟨hm, hn, hlt, hlt'⟩
    rcases Nat.le_total a.start d.start with hle | hle
    · exact ⟨d.start - a.start, by omega, 0, hn, by omega⟩
    · exact ⟨0, hm, a.start - d.start, by omega, by omega⟩

/-- Which overlaps the comparison of the operands finds. -/
theorem overlap_found_iff (h : BitShift i a d n m) :
    (BitsOverlap i n m ↔ a.Overlap d m n) ↔
      (a.Overlap d m n → SameElements i ∧
        a.start + i.ucode.getPU16 (i.pc + 8) = d.start + i.ucode.getPU16 (i.pc + 4)) ∧
      ¬ (SameElements i ∧ Touching i n m) := by
  by_cases hsame : SameElements i
  · obtain ⟨harea, r, hr, hsrc, hdst⟩ := same_places h hsame
    have hrang := d.area.rang_le
    have hsrcFits := h.srcFits
    have hdestFits := h.destFits
    have hle := h.le
    simp only [BitBlock.Fits, harea] at hsrcFits hdestFits
    rw [SameElements] at hsame
    simp only [overlap_iff harea, BitsOverlap, Touching, SameElements, hsame, true_and]
    generalize i.ucode.getPU16 (i.pc + 4) = src at *
    generalize i.ucode.getPU16 (i.pc + 8) = dst at *
    generalize a.start = first at *
    generalize d.start = first' at *
    omega
  · have hmissed : ¬ BitsOverlap i n m := fun hfound => hsame hfound.1
    constructor
    · intro hiff
      exact ⟨fun hover => absurd (hiff.mpr hover) hmissed, fun htouch => hsame htouch.1⟩
    · rintro ⟨hover, -⟩
      exact iff_of_false hmissed fun ho => hsame (hover ho).1

theorem getLoop_ne_operands {α : Type} {read : Nat → α} {limit stride l : Nat} :
    (getLoop read limit stride l k).1 ≠ .error .operands := by
  induction l generalizing k with
  | zero =>
    intro h
    cases h
  | succ l ih =>
    rw [getLoop]
    split
    · exact ih
    · intro h
      cases h

theorem saveLoop_ne_operands {α : Type} {write : Nat → α → Store → Store} {limit stride : Nat}
    {xs : List α} : (saveLoop write limit stride xs k s).1 ≠ .error .operands := by
  induction xs generalizing k s with
  | nil =>
    intro h
    cases h
  | cons x xs ih =>
    rw [saveLoop]
    split
    · exact ih
    · intro h
      cases h

theorem chars_ne_operands : i.chars q k n s ≠ .error .operands := by
  intro h
  have hget : (getChar i.ucode (i.pc + q) s i.level k n).1 = .error .operands := by
    rw [BodyInput.chars] at h
    rcases hget : getChar i.ucode (i.pc + q) s i.level k n with ⟨e | ok, ys⟩
    · rw [hget] at h
      injection h with he
      rw [he]
    · rw [hget] at h
      cases h
  rw [getChar] at hget
  split at hget
  · exact getLoop_ne_operands hget
  · cases hget

theorem saveChars_ne_operands : (i.saveChars q k xs s).1 ≠ .error .operands := by
  rw [BodyInput.saveChars, saveChar]
  split
  · exact saveLoop_ne_operands
  · intro h
    cases h

/-- A loop over bits does not return what the checks do. -/
theorem runMoves_ne_operands {ms : List (Move Bool)}
    (hread : ∀ move ∈ ms, ∃ q k, move.read = i.chars q k 1) :
    (runMoves i.saveChars ms s).1 ≠ .error .operands := by
  induction ms generalizing s with
  | nil =>
    intro h
    cases h
  | cons move ms ih =>
    obtain ⟨⟨q, k, hfirst⟩, hread⟩ := forall_mem_cons.mp hread
    rw [runMoves, hfirst]
    split
    · rename_i e herror
      intro h
      injection h with he
      exact chars_ne_operands (he ▸ herror)
    · split
      · exact ih hread
      · rename_i e s' hsave
        intro h
        injection h with he
        exact saveChars_ne_operands (he ▸ congrArg Prod.fst hsave)

/-- Where no bit can be saved, a loop does not pass. -/
theorem runMoves_ne_ok_of_bits {ms : List (Move Bool)} (hne : ms ≠ [])
    (hdst : ∀ move ∈ ms, move.dst = i.pc + 6) (hsaves : ¬ (i.operand 6).SavesBits) :
    (runMoves i.saveChars ms s).1 ≠ .ok () := by
  obtain ⟨move, ms, rfl⟩ := exists_cons_of_ne_nil hne
  have hform : (AddrType.ofCode (i.ucode.getPU8 (i.pc + 6 + 1))).bind (saveCharTable i.level) =
      none := not_not.mp hsaves
  have hfail (u : Store) (xs : List Bool) (_ : True) (_ : move.read u = .ok xs) :
      (i.saveChars move.dst move.off xs u).1 ≠ .ok () := by
    rw [hdst move mem_cons_self, BodyInput.saveChars]
    simp only [saveChar, hform]
    intro h
    cases h
  exact runMoves_ne_ok mem_cons_self hfail (fun _ _ _ _ _ => trivial) trivial

/-- A shift whose loop is right where the blocks do not overlap, and the bits can be saved. -/
theorem bitShift_right_iff {moves : Nat × Nat → List (Move Bool)} {ys : List Bool}
    (h : BitShift i a d n m) (hdst : ∀ move ∈ moves (n, m), move.dst = i.pc + 6)
    (hread : ∀ move ∈ moves (n, m), ∃ q k, move.read = i.chars q k 1)
    (hne : n ≠ 0 → moves (n, m) ≠ [])
    (hshift : ¬ a.Overlap d m n → n = 0 ∨ (i.operand 6).SavesBits →
      ShiftsBits i d n ys ((runMoves i.saveChars (moves (n, m)) i.store).1, i.inPF,
        (runMoves i.saveChars (moves (n, m)) i.store).2)) :
    BitShiftRight i a d n m ys
        (runChecked i ((bitShift i).map moves) (runMoves i.saveChars)) ↔
      BitsHold i a d n m := by
  rw [BitsHold, ← and_assoc, ← overlap_found_iff h]
  by_cases hfound : BitsOverlap i n m
  · have hrun : runChecked i ((bitShift i).map moves) (runMoves i.saveChars) =
        (.error .operands, i.inPF, i.store) := by
      simp only [runChecked, h.power, if_true, bitShift_eq h, if_pos hfound, Except.map]
    rw [hrun]
    constructor
    · rintro ⟨hrefused, -⟩
      have hover := hrefused.mp rfl
      exact ⟨iff_of_true hfound hover, fun hno => absurd hover hno⟩
    · rintro ⟨hiff, -⟩
      have hover := hiff.mp hfound
      exact ⟨iff_of_true rfl hover, fun hno => absurd hover hno⟩
  · have hmoves : (bitShift i).map moves = .ok (moves (n, m)) := by
      rw [bitShift_eq h, if_neg hfound]
      rfl
    rw [runChecked_eq h.power hmoves]
    constructor
    · rintro ⟨hrefused, hright⟩
      have hno : ¬ a.Overlap d m n := fun hover =>
        runMoves_ne_operands hread (hrefused.mpr hover)
      refine ⟨iff_of_false hfound hno, fun _ => ?_⟩
      by_contra hsaves
      rw [not_or] at hsaves
      exact runMoves_ne_ok_of_bits (hne hsaves.1) hdst hsaves.2 (hright hno).1
    · rintro ⟨hiff, hsaves⟩
      have hno : ¬ a.Overlap d m n := fun hover => hfound (hiff.mpr hover)
      exact ⟨iff_of_false (runMoves_ne_operands hread) hno, fun _ => hshift hno (hsaves hno)⟩

/-- The bits of the source stay as they are while others change. -/
theorem source_bit (h : BitShift i a d n m) (hno : ¬ a.Overlap d m n)
    (hu : ChangesOnly (d.Has n) i.store u) (hk : k < m) :
    i.chars 2 k 1 u = .ok [a.read k i.store] := by
  have hread : a.read k u = a.read k i.store :=
    BitArea.getBit_of_agree (hu.cells _ fun hhas => hno ⟨k, hk, hhas⟩)
  rw [chars_of_bitBlock ((bitBlock_of_bits hu).trans h.src) (h.srcFits (zero_lt_of_lt hk)) hk,
    hread]

theorem dest_bit (h : BitShift i a d n m) (hu : ChangesOnly (d.Has n) i.store u) (hk : k < n) :
    i.chars 6 k 1 u = .ok [d.read k u] :=
  chars_of_bitBlock ((bitBlock_of_bits hu).trans h.dest) (h.destFits (zero_lt_of_lt hk)) hk

def sftrLoop (i : BodyInput) (lens : Nat × Nat) : List (Move Bool) :=
  (range (lens.1 - lens.2)).map (fun k => ⟨i.chars 6 (lens.2 + k) 1, i.pc + 6, k⟩) ++
    (range lens.2).map fun k => ⟨i.chars 2 k 1, i.pc + 6, lens.1 - lens.2 + k⟩

/-- The pass of `SFTR` that saves a bit. -/
def sftrMove (i : BodyInput) (n m t : Nat) : Move Bool :=
  if t < n - m then ⟨i.chars 6 (m + t) 1, i.pc + 6, t⟩
  else ⟨i.chars 2 (t - (n - m)) 1, i.pc + 6, t⟩

theorem sftrMoves_eq : sftrMoves i = (bitShift i).map (sftrLoop i) := by
  rw [sftrMoves]
  cases bitShift i <;> rfl

theorem sftrLoop_eq (hle : m ≤ n) : sftrLoop i (n, m) = (range n).map (sftrMove i n m) := by
  rw [sftrLoop, map_range_of_le _ (sub_le n m), Nat.sub_sub_self hle]
  congr 1
  · refine map_congr_left fun k hk => ?_
    rw [sftrMove, if_pos (mem_range.mp hk)]
  · refine map_congr_left fun k _ => ?_
    rw [sftrMove, if_neg (by omega), Nat.add_sub_cancel_left]

theorem sftr_right_iff (h : BitShift i a d n m) :
    BitShiftRight i a d n m ((d.bits n i.store).drop m ++ a.bits m i.store) (runCiSftrIns i) ↔
      BitsHold i a d n m := by
  rw [runCiSftrIns, sftrMoves_eq]
  refine bitShift_right_iff h (fun move hmove => ?_) (fun move hmove => ?_) (fun hn hnil => ?_)
    fun hno hsaves => ?_ <;> rw [sftrLoop_eq h.le] at *
  · obtain ⟨t, -, rfl⟩ := List.mem_map.mp hmove
    rw [sftrMove]
    split <;> rfl
  · obtain ⟨t, -, rfl⟩ := List.mem_map.mp hmove
    rw [sftrMove]
    split
    · exact ⟨_, _, rfl⟩
    · exact ⟨_, _, rfl⟩
  · exact hn (range_eq_nil.mp (map_eq_nil_iff.mp hnil))
  · rcases Nat.eq_zero_or_pos n with rfl | hn
    · obtain rfl : m = 0 := le_zero.mp h.le
      exact ⟨rfl, rfl, changesOnly_refl⟩
    · have hsave := savesBlock_bits h.dest (h.destFits hn)
        (hsaves.resolve_left (Nat.ne_of_gt hn))
      have hmove (t : Nat) (ht : t < n) : (sftrMove i n m t).dst = i.pc + 6 ∧
          (sftrMove i n m t).off = t ∧ ∀ u, ChangesOnly (d.Has n) i.store u →
            ((sftrMove i n m t).read u).toOption = (if t < n - m then some (d.read (m + t) u)
              else some (a.read (t - (n - m)) i.store)).map fun x => [x] := by
        rw [sftrMove]
        split
        · refine ⟨rfl, rfl, fun u hu => ?_⟩
          change (i.chars 6 (m + t) 1 u).toOption = _
          rw [dest_bit h hu (by omega)]
          rfl
        · refine ⟨rfl, rfl, fun u hu => ?_⟩
          change (i.chars 2 (t - (n - m)) 1 u).toOption = _
          rw [source_bit h hno hu (by omega)]
          rfl
      obtain ⟨hothers, hright⟩ := runMoves_ascending_iff
        (g := shiftedDown (fun k => d.read k i.store) (fun k => a.read k i.store) n m)
        (fun t f => if t < n - m then some (f (m + t)) else some (a.read (t - (n - m)) i.store))
        hsave changesOnly_refl hmove
      obtain ⟨hpass, hbits⟩ := hright.mpr fun t ht => by
        by_cases hlt : t < n - m
        · refine ⟨d.read (m + t) i.store, ?_, ?_⟩
          · rw [if_pos hlt, written, if_neg (by omega)]
          · rw [shiftedDown, if_pos hlt, id]
        · refine ⟨a.read (t - (n - m)) i.store, if_neg hlt, ?_⟩
          rw [shiftedDown, if_neg hlt, id]
      exact ⟨hpass, (map_eq_shiftedDown_iff h.le).mpr hbits, hothers⟩

def sftlLoop (i : BodyInput) (lens : Nat × Nat) : List (Move Bool) :=
  (range (lens.1 - lens.2)).map
      (fun k => ⟨i.chars 6 (lens.1 - lens.2 - 1 - k) 1, i.pc + 6, lens.1 - 1 - k⟩) ++
    (range lens.2).map fun k => ⟨i.chars 2 k 1, i.pc + 6, k⟩

theorem sftlMoves_eq : sftlMoves i = (bitShift i).map (sftlLoop i) := by
  rw [sftlMoves]
  cases bitShift i <;> rfl

/-- What they copy: bits of the block from the last place down, and then those of the source. -/
def sftlCopies (x : Nat → Bool) (n m : Nat) : List (Copy Nat Bool) :=
  (range (n - m)).map (fun k => (fun f => some (f (n - m - 1 - k)), n - 1 - k)) ++
    (range m).map fun k => (fun _ => some (x k), k)

theorem sftlCopies_places {x : Nat → Bool} (hle : m ≤ n) :
    ((sftlCopies x n m).map Prod.snd).Perm (range n) := by
  rw [sftlCopies, map_append, List.map_map, List.map_map]
  refine (perm_ext_iff_of_nodup ?_ nodup_range).mpr fun t => ?_
  · refine nodup_append.mpr ⟨?_, nodup_range.map_on fun _ _ _ _ h => h, ?_⟩
    · refine nodup_range.map_on fun j hj k hk heq => ?_
      have hj := mem_range.mp hj
      have hk := mem_range.mp hk
      dsimp only [comp] at heq
      omega
    · intro p hp p' hp'
      obtain ⟨j, hj, rfl⟩ := List.mem_map.mp hp
      obtain ⟨k, hk, rfl⟩ := List.mem_map.mp hp'
      have hj := mem_range.mp hj
      have hk := mem_range.mp hk
      dsimp only [comp]
      omega
  · rw [mem_append, mem_range]
    constructor
    · rintro (ht | ht)
      · obtain ⟨k, hk, rfl⟩ := List.mem_map.mp ht
        have hk := mem_range.mp hk
        dsimp only [comp]
        omega
      · obtain ⟨k, hk, rfl⟩ := List.mem_map.mp ht
        exact Nat.lt_of_lt_of_le (mem_range.mp hk) hle
    · intro ht
      rcases Nat.lt_or_ge t m with htm | htm
      · exact .inr (List.mem_map.mpr ⟨t, mem_range.mpr htm, rfl⟩)
      · refine .inl (List.mem_map.mpr ⟨n - 1 - t, mem_range.mpr (by omega), ?_⟩)
        dsimp only [comp]
        omega

theorem sftlCopies_readsFirst {x : Nat → Bool} (hle : m ≤ n) : ReadsFirst (sftlCopies x n m) := by
  refine pairwise_append.mpr ⟨?_, ?_, ?_⟩
  · refine pairwise_map.mpr (pairwise_lt_range.imp_of_mem fun {j k} hj hk hjk f v => ?_)
    have hk := mem_range.mp hk
    dsimp only
    rw [update_of_ne (by omega)]
  · exact pairwise_map.mpr (pairwise_lt_range.imp fun _ _ _ => rfl)
  · intro c _ e he f v
    obtain ⟨k, -, rfl⟩ := List.mem_map.mp he
    rfl

theorem sftlCopies_right {x f : Nat → Bool} (hle : m ≤ n) :
    CopiesRight id (shiftedUp f x m) (sftlCopies x n m) f := by
  refine (copiesRight_iff_of_readsFirst (sftlCopies_readsFirst hle)).mpr fun c hc => ?_
  rcases mem_append.mp hc with hc | hc
  · obtain ⟨k, hk, rfl⟩ := List.mem_map.mp hc
    have hk := mem_range.mp hk
    refine ⟨f (n - m - 1 - k), rfl, ?_⟩
    rw [shiftedUp, if_neg (by omega), show n - 1 - k - m = n - m - 1 - k by omega, id]
  · obtain ⟨k, hk, rfl⟩ := List.mem_map.mp hc
    exact ⟨x k, rfl, (if_pos (mem_range.mp hk)).symm⟩

theorem sftl_right_iff (h : BitShift i a d n m) :
    BitShiftRight i a d n m (a.bits m i.store ++ (d.bits n i.store).take (n - m))
      (runCiSftlIns i) ↔ BitsHold i a d n m := by
  have hle := h.le
  rw [runCiSftlIns, sftlMoves_eq]
  refine bitShift_right_iff h (fun move hmove => ?_) (fun move hmove => ?_) (fun hn hnil => ?_)
    fun hno hsaves => ?_
  · rcases mem_append.mp hmove with hmove | hmove
    · obtain ⟨k, -, rfl⟩ := List.mem_map.mp hmove
      rfl
    · obtain ⟨k, -, rfl⟩ := List.mem_map.mp hmove
      rfl
  · rcases mem_append.mp hmove with hmove | hmove
    · obtain ⟨k, -, rfl⟩ := List.mem_map.mp hmove
      exact ⟨_, _, rfl⟩
    · obtain ⟨k, -, rfl⟩ := List.mem_map.mp hmove
      exact ⟨_, _, rfl⟩
  · have hlength := congrArg length hnil
    rw [sftlLoop, length_append, length_map, length_map, length_range,
      length_range, length_nil] at hlength
    omega
  · rcases Nat.eq_zero_or_pos n with rfl | hn
    · obtain rfl : m = 0 := le_zero.mp h.le
      exact ⟨rfl, rfl, changesOnly_refl⟩
    · have hsave := savesBlock_bits h.dest (h.destFits hn)
        (hsaves.resolve_left (Nat.ne_of_gt hn))
      have hcopies : Forall₂ (Move.Copies (i.pc + 6) n (fun k u => d.read k u)
          (ChangesOnly (d.Has n) i.store)) (sftlLoop i (n, m))
          (sftlCopies (fun k => a.read k i.store) n m) := by
        refine rel_append ?_ ?_ <;>
          rw [forall₂_map_left_iff, forall₂_map_right_iff, forall₂_same]
        · intro k hk
          refine ⟨rfl, rfl, (by omega : n - 1 - k < n), fun u hu => ?_⟩
          change (i.chars 6 (n - m - 1 - k) 1 u).toOption = _
          rw [dest_bit h hu (by omega)]
          rfl
        · intro k hk
          have hk := mem_range.mp hk
          refine ⟨rfl, rfl, Nat.lt_of_lt_of_le hk hle, fun u hu => ?_⟩
          change (i.chars 2 k 1 u).toOption = _
          rw [source_bit h hno hu hk]
          rfl
      obtain ⟨hpass, hbits⟩ := (runMoves_right_iff hsave hcopies changesOnly_refl
        (sftlCopies_places h.le)).mpr (sftlCopies_right h.le)
      exact ⟨hpass, (map_eq_shiftedUp_iff h.le).mpr hbits,
        (runMoves_copies hsave hcopies changesOnly_refl).1⟩

end

/-! ## The four shifts -/

section

variable {i i' : BodyInput} {b : WordBlock} {a d : BitBlock} {n m n' m' : Nat}
variable {x : Nat → BitVec 16}

/-- When the four instructions shift their blocks. -/
theorem shifts_right_iff (hw : WordShift i b n m x) (hb : BitShift i' a d n' m') :
    (ShiftsWords i b n ((range m).map x ++ (b.words n i.store).take (n - m))
      (runCiWsflIns i) ↔ m = n ∧ WordsHold i b n m x) ∧
    (ShiftsWords i b n ((b.words n i.store).drop m ++ (range m).map x)
      (runCiWsfrIns i) ↔ WordsHold i b n m x) ∧
    (BitShiftRight i' a d n' m' (a.bits m' i'.store ++ (d.bits n' i'.store).take (n' - m'))
      (runCiSftlIns i') ↔ BitsHold i' a d n' m') ∧
    (BitShiftRight i' a d n' m' ((d.bits n' i'.store).drop m' ++ a.bits m' i'.store)
      (runCiSftrIns i') ↔ BitsHold i' a d n' m') :=
  ⟨wsfl_right_iff hw, wsfr_right_iff hw, sftl_right_iff hb, sftr_right_iff hb⟩

end

/-- A shift from the first element of a type to number ten, with literal lengths. -/
def shiftToTen (type n m : UInt8) (s : Store) : BodyInput where
  ucode := [0x00, 0x00, 0x00, type, 0x00, 0x00, 0x00, type, 0x0A, 0x00,
    0x00, 0xFF, n, 0x00, 0x00, 0xFF, m, 0x00]
  pc := 0
  level := 0
  now := 0
  inPF := 1
  sfc := Plc.off.sfc
  store := s

theorem wordShift_d10 (n : UInt8) (hpos : 1 ≤ n.toNat) (hn : n.toNat ≤ 100) :
    WordShift (shiftToTen 0x11 n 1 (Store.off.setWord (.elem .D) 0 5))
      (.elems (.elem .D) 8000 10) n.toNat 1 (fun _ => 5) where
  power := getPowerFlow_one
  destLen := rfl
  srcLen := rfl
  le := hpos
  lt := by omega
  dest := rfl
  fits := fun _ => by
    change 10 + n.toNat ≤ 8000
    omega
  src := fun k hk => by
    obtain rfl := lt_one_iff.mp hk
    rfl
  apart := fun k hk j _ c hc hmem => by
    obtain rfl := lt_one_iff.mp hk
    have hsource : c = .word .D 0 := mem_singleton.mp hmem
    have hdest : c = .word .D (10 + j) := mem_singleton.mp hc
    injection hsource.symm.trans hdest with _ hplace
    omega

theorem bitShift_m10 : BitShift (shiftToTen 0x05 2 1 (Store.off.setBit (.elem .M) 0 true))
    ⟨.elem .M, 0⟩ ⟨.elem .M, 10⟩ 2 1 where
  power := getPowerFlow_one
  destLen := rfl
  srcLen := rfl
  le := by decide
  lt := by decide
  src := rfl
  srcFits := fun _ => by
    change 0 + 1 ≤ 16384
    decide
  dest := rfl
  destFits := fun _ => by
    change 10 + 2 ≤ 16384
    decide

/-- A block of one word gets the five of the source, and one of two bits gets its bit at the front
or at the end. -/
theorem shifts_right_d10 :
    let i := shiftToTen 0x11 1 1 (Store.off.setWord (.elem .D) 0 5)
    let i' := shiftToTen 0x05 2 1 (Store.off.setBit (.elem .M) 0 true)
    ShiftsWords i (.elems (.elem .D) 8000 10) 1 [5] (runCiWsflIns i) ∧
    ShiftsWords i (.elems (.elem .D) 8000 10) 1 [5] (runCiWsfrIns i) ∧
    BitShiftRight i' ⟨.elem .M, 0⟩ ⟨.elem .M, 10⟩ 2 1 [true, false] (runCiSftlIns i') ∧
    BitShiftRight i' ⟨.elem .M, 0⟩ ⟨.elem .M, 10⟩ 2 1 [false, true] (runCiSftrIns i') := by
  intro i i'
  have hwords : WordsHold i (.elems (.elem .D) 8000 10) 1 1 (fun _ => 5) := by
    refine .inr ⟨.elems (.elem .D) 8000 10, rfl, by decide, ?_⟩
    rw [if_neg (by decide)]
    refine ⟨fun _ _ => rfl, fun r hr => ?_⟩
    cases hr
  have hbits : BitsHold i' ⟨.elem .M, 0⟩ ⟨.elem .M, 10⟩ 2 1 := by
    refine ⟨fun hover => absurd hover (by decide), ?_, fun _ => .inr (by decide)⟩
    rintro ⟨-, htouch⟩
    exact absurd htouch (by decide)
  obtain ⟨hwsfl, hwsfr, hsftl, hsftr⟩ :=
    shifts_right_iff (wordShift_d10 1 (by decide) (by decide)) bitShift_m10
  exact ⟨hwsfl.mpr ⟨rfl, hwords⟩, hwsfr.mpr hwords, hsftl.mpr hbits, hsftr.mpr hbits⟩

/-- A word that is shifted left into a block of two does not pass. -/
theorem wsfl_not_right : ¬ ∀ (i : BodyInput) (b : WordBlock) (n m : Nat) (x : Nat → BitVec 16),
    WordShift i b n m x → ShiftsWords i b n
      ((range m).map x ++ (b.words n i.store).take (n - m)) (runCiWsflIns i) := by
  intro h
  have hshift := wordShift_d10 2 (by decide) (by decide)
  have hlens := eq_of_wsfl_passes hshift (h _ _ _ _ _ hshift).1
  exact absurd hlens (by decide)

end Kalyke
