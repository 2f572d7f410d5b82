-- SUMMARY: Words that are got and saved several at a time, as they are one by one.
import Kalyke.Exec.Bytes

/-!
# Groups of Words

A loop may save several words in a pass. If a block takes each of its words, it takes them in groups
too. In the same way, the words that are got at once are those that are got one by one.
-/

namespace Kalyke

open List Nat

/-! ## Saving -/

section

variable {i : BodyInput} {dst off g n m : Nat} {inv : Store → Prop} {s : Store}
variable {view : Nat → Store → BitVec 16} {kept : BitVec 16 → BitVec 16} {x : BitVec 16}
variable {xs : List (BitVec 16)}

theorem saveWords_view (hsave : SavesBlock (i.saveWords dst) view kept n inv)
    (hfits : off + (x :: xs).length ≤ n) (hs : inv s) :
    (i.saveWords dst off (x :: xs) s).1 = .ok () ∧ inv (i.saveWords dst off (x :: xs) s).2 ∧
      ∀ k, view k (i.saveWords dst off (x :: xs) s).2 =
        if off ≤ k ∧ k < off + (x :: xs).length then kept ((x :: xs).getD (k - off) 0)
        else view k s := by
  induction xs generalizing x off s with
  | nil =>
    have hoff : off < n := hfits
    refine ⟨hsave.passes off hoff x s hs, hsave.keeps off hoff x s hs, fun k => ?_⟩
    rcases eq_or_ne k off with rfl | hk
    · rw [hsave.self k hoff x s hs, if_pos ⟨le_rfl, lt_succ_self k⟩, Nat.sub_self]
      rfl
    · rw [hsave.other off hoff x s hs k hk, if_neg]
      rintro ⟨hle, hlt⟩
      change k < off + 1 at hlt
      omega
  | cons y ys ih =>
    rw [length_cons] at hfits
    have hoff : off < n := by omega
    have hfirst : i.saveWords dst off [x] s = (.ok (), (i.saveWords dst off [x] s).2) :=
      Prod.ext (hsave.passes off hoff x s hs) rfl
    have hview (k : Nat) : view k (i.saveWords dst off [x] s).2 =
        if k = off then kept x else view k s := by
      split
      · rename_i hk
        rw [hk]
        exact hsave.self off hoff x s hs
      · rename_i hk
        exact hsave.other off hoff x s hs k hk
    obtain ⟨hpass, hinv, hrest⟩ := ih (x := y) (show off + 1 + _ ≤ n by omega)
      (hsave.keeps off hoff x s hs)
    rw [saveWords_cons hfirst]
    refine ⟨hpass, hinv, fun k => (hrest k).trans ?_⟩
    rw [hview]
    have hlen : (x :: y :: ys).length = (y :: ys).length + 1 := rfl
    by_cases hk : off + 1 ≤ k ∧ k < off + 1 + (y :: ys).length
    · have hplace : k - off = k - (off + 1) + 1 := by omega
      rw [if_pos hk, if_pos (by omega), hplace, getD_cons_succ]
    · rw [if_neg hk]
      split
      · rename_i heq
        rw [if_pos (by omega), heq, Nat.sub_self]
        rfl
      · rw [if_neg (by omega)]

def BodyInput.saveGroups (i : BodyInput) (g dst off : Nat) (fs : List (Fin g → BitVec 16))
    (s : Store) : Except PlcErr Unit × Store :=
  i.saveWords dst (g * off) (fs.flatMap ofFn) s

theorem saveGroup_view (hsave : SavesBlock (i.saveWords dst) view kept (g * m) inv) (hg : 0 < g)
    {k : Nat} (hk : k < m) (f : Fin g → BitVec 16) (hs : inv s) :
    (i.saveGroups g dst k [f] s).1 = .ok () ∧ inv (i.saveGroups g dst k [f] s).2 ∧
      ∀ l, view l (i.saveGroups g dst k [f] s).2 =
        if g * k ≤ l ∧ l < g * k + g then kept ((ofFn f).getD (l - g * k) 0)
        else view l s := by
  have hlen : (ofFn f).length = g := length_ofFn
  have hfits : g * k + g ≤ g * m := by
    rw [← mul_succ]
    exact Nat.mul_le_mul_left g hk
  have hword : [f].flatMap ofFn = ofFn f := append_nil _
  rw [BodyInput.saveGroups, hword]
  rcases hlist : ofFn f with _ | ⟨x, xs⟩
  · rw [hlist] at hlen
    exact absurd hlen.symm (Nat.pos_iff_ne_zero.mp hg)
  · rw [hlist] at hlen
    have hview := saveWords_view hsave (show g * k + (x :: xs).length ≤ g * m by omega) hs
    rwa [hlen] at hview

theorem fillsBlock_groups (hfill : FillsBlock (i.saveWords dst) view kept (g * m) inv)
    (hg : 0 < g) :
    FillsBlock (i.saveGroups g dst) (fun k u (j : Fin g) => view (g * k + j) u)
      (fun f j => kept (f j)) m inv where
  passes := fun k hk f s hs => (saveGroup_view hfill.toSavesBlock hg hk f hs).1
  keeps := fun k hk f s hs => (saveGroup_view hfill.toSavesBlock hg hk f hs).2.1
  self := fun k hk f s hs => by
    funext j
    have hj := j.isLt
    rw [(saveGroup_view hfill.toSavesBlock hg hk f hs).2.2, if_pos (by omega),
      Nat.add_sub_cancel_left, getD_eq_getElem?_getD, List.getElem?_ofFn, dif_pos hj]
    rfl
  other := fun k hk f s hs l hl => by
    funext j
    have hj := j.isLt
    rw [(saveGroup_view hfill.toSavesBlock hg hk f hs).2.2, if_neg]
    rintro ⟨hle, hlt⟩
    rcases Nat.lt_or_gt_of_ne hl with hless | hmore
    · have hmul : g * l + g ≤ g * k := Nat.mul_le_mul_left g hless
      omega
    · have hmul : g * k + g ≤ g * l := Nat.mul_le_mul_left g hmore
      omega
  kept_view := fun k hk s => by
    funext j
    have hj := j.isLt
    have hmul : g * k + g ≤ g * m := Nat.mul_le_mul_left g hk
    exact hfill.kept_view _ (by omega) s
  ext := fun u v hu hv h => by
    refine hfill.ext u v hu hv fun k hk => ?_
    have hgroup := congrFun (h (k / g) (Nat.div_lt_of_lt_mul hk)) ⟨k % g, mod_lt k hg⟩
    have hplace : g * (k / g) + k % g = k := div_add_mod k g
    rwa [hplace] at hgroup

end

section

variable {α : Type} {save : Nat → Nat → List α → Store → Except PlcErr Unit × Store}
variable {ms : List (Move α)} {inv : Store → Prop} {s : Store}

/-- A loop that goes on after a failed save is one that returns, if no save fails. -/
theorem runMovesOn_eq (hms : ∀ m ∈ ms, ∀ u xs, inv u → m.read u = .ok xs →
      (save m.dst m.off xs u).1 = .ok () ∧ inv (save m.dst m.off xs u).2) (hs : inv s) :
    runMovesOn save ms (.ok ()) s = runMoves save ms s := by
  induction ms generalizing s with
  | nil => rfl
  | cons m ms ih =>
    obtain ⟨hfirst, hrest⟩ := forall_mem_cons.mp hms
    rw [runMovesOn, runMoves]
    split
    · rfl
    · rename_i xs hread
      obtain ⟨hpass, hinv⟩ := hfirst s xs hs hread
      have hsaved : save m.dst m.off xs s = (.ok (), (save m.dst m.off xs s).2) :=
        Prod.ext hpass rfl
      rw [hsaved]
      exact ih hrest hinv

/-- Such a loop passes just if all its values are got, if that does not depend on what is saved. -/
theorem runMovesOn_ok_iff {P : Move α → Prop} (hms : ∀ m ∈ ms, ∀ u xs, inv u → m.read u = .ok xs →
      (save m.dst m.off xs u).1 = .ok () ∧ inv (save m.dst m.off xs u).2)
    (hread : ∀ m ∈ ms, ∀ u, inv u → ((∃ xs, m.read u = .ok xs) ↔ P m)) (hs : inv s) :
    (runMovesOn save ms (.ok ()) s).1 = .ok () ↔ ∀ m ∈ ms, P m := by
  induction ms generalizing s with
  | nil => exact iff_of_true rfl fun m hm => by cases hm
  | cons m ms ih =>
    obtain ⟨hfirst, hrest⟩ := forall_mem_cons.mp hms
    obtain ⟨hgot, hgots⟩ := forall_mem_cons.mp hread
    rw [forall_mem_cons, runMovesOn, ← hgot s hs]
    rcases hxs : m.read s with e | xs
    · refine iff_of_false (fun h => by cases h) ?_
      rintro ⟨⟨xs, h⟩, -⟩
      cases h
    · obtain ⟨hpass, hinv⟩ := hfirst s xs hs hxs
      simp only [hpass]
      rw [ih hrest hgots hinv]
      exact (and_iff_right ⟨xs, rfl⟩).symm

end

/-! ## Getting -/

section

variable {α : Type} {w : Nat} {i : BodyInput} {q off n k a limit width start : Nat} {s : Store}
variable {ws : List (BitVec 16)} {x : BitVec 16}

/-- Elements are got at once if each of them is there. -/
theorem getLoop_passes_iff {read : Nat → α} :
    (getLoop read limit 1 n (elementIndex a)).1 = .ok () ↔
      ∀ k < n, elementIndex (a + k) < limit := by
  induction n generalizing a with
  | zero => exact iff_of_true rfl fun k hk => by cases hk
  | succ n ih =>
    rw [getLoop, elementIndex_mod]
    split
    · rename_i hlt
      rw [ih]
      constructor
      · intro h k hk
        cases k with
        | zero => exact hlt
        | succ k =>
          have hnext := h k (lt_of_succ_lt_succ hk)
          rwa [Nat.add_right_comm] at hnext
      · intro h k hk
        rw [Nat.add_right_comm]
        exact h (k + 1) (succ_lt_succ hk)
    · rename_i hge
      refine iff_of_false (fun h => by cases h) fun h => hge (h 0 (succ_pos n))

/-- Joined bits are got at once if they are got one by one. -/
theorem getKnLoop_passes_iff {read : Nat → Bool} :
    (getKnLoop w read limit width start n off).1 = .ok () ↔
      ∀ k < n, (getKnLoop w read limit width start 1 (off + k)).1 = .ok () := by
  induction n generalizing off with
  | zero => exact iff_of_true rfl fun k hk => by cases hk
  | succ n ih =>
    have hfirst : (getKnLoop w read limit width start 1 off).1 = .ok () ↔
        (getKn read limit (start + off * width) width (0 : BitVec w)).1 = .ok () := by
      simp only [getKnLoop]
      split <;> rename_i heq <;> rw [heq]
    have hstep : (getKnLoop w read limit width start (n + 1) off).1 = .ok () ↔
        (getKn read limit (start + off * width) width (0 : BitVec w)).1 = .ok () ∧
          (getKnLoop w read limit width start n (off + 1)).1 = .ok () := by
      rw [getKnLoop, getKnLoop_elementIndex]
      split <;> rename_i heq <;> rw [heq]
      · exact (and_iff_right rfl).symm
      · exact iff_of_false (fun h => by cases h) fun h => by cases h.1
    rw [hstep, ih, ← hfirst]
    constructor
    · rintro ⟨hhere, hrest⟩ k hk
      cases k with
      | zero => exact hhere
      | succ k =>
        have hnext := hrest k (lt_of_succ_lt_succ hk)
        rwa [Nat.add_right_comm] at hnext
    · intro h
      refine ⟨h 0 (succ_pos n), fun k hk => ?_⟩
      rw [Nat.add_right_comm]
      exact h (k + 1) (succ_lt_succ hk)

theorem outcome_ok_iff {r : Except PlcErr Unit × α} : (∃ x, outcome r = .ok x) ↔ r.1 = .ok () := by
  obtain ⟨e | _, x⟩ := r
  · refine iff_of_false ?_ fun h => by cases h
    rintro ⟨y, h⟩
    cases h
  · exact iff_of_true ⟨x, rfl⟩ rfl

theorem word_ok_iff : (∃ x, i.word q off s = .ok x) ↔
    (getWord i.ucode (i.pc + q) s i.level off 1).1 = .ok () := by
  rw [← outcome_ok_iff]
  change (∃ x, (outcome _).map _ = .ok x) ↔ _
  rcases outcome (getWord i.ucode (i.pc + q) s i.level off 1) with e | xs
  · constructor <;> rintro ⟨x, h⟩ <;> cases h
  · exact iff_of_true ⟨_, rfl⟩ ⟨_, rfl⟩

/-- Some words are got at once if and only if each of them is. -/
theorem words_ok_iff (hn : 0 < n) : (∃ ws, i.words q off n s = .ok ws) ↔
    ∀ k < n, ∃ x, i.word q (off + k) s = .ok x := by
  have hall : (∃ ws, i.words q off n s = .ok ws) ↔
      (getWord i.ucode (i.pc + q) s i.level off n).1 = .ok () := outcome_ok_iff
  rw [hall]
  simp only [word_ok_iff]
  rcases hform : (AddrType.ofCode (i.ucode.getPU8 (i.pc + q + 1))).bind (getWordTable i.level) with
    _ | _ | ⟨area, z⟩ | ⟨area, z, limit⟩ <;> simp only [getWord, hform]
  · exact iff_of_false (fun h => by cases h) fun h => by cases h 0 hn
  · exact ⟨fun h _ _ => h, fun h => h 0 hn⟩
  · split
    · exact iff_of_false (fun h => by cases h) fun h => by cases h 0 hn
    · exact getKnLoop_passes_iff
  · rw [getLoop_passes_iff]
    refine forall₂_congr fun k _ => ?_
    rw [getLoop_passes_iff]
    constructor
    · intro h m hm
      rw [lt_one_iff.mp hm, ← Nat.add_assoc]
      exact h
    · intro h
      have hfirst := h 0 Nat.one_pos
      rwa [← Nat.add_assoc] at hfirst

/-- A word that is got with others is the one that is got alone. A literal is got once only. -/
theorem words_getElem (hws : i.words q off n s = .ok ws) (hk : k < n)
    (hsrc : k = 0 ∨ ElementOperand i.ucode (i.pc + q)) (hx : i.word q (off + k) s = .ok x) :
    ws[k]? = some x := by
  have hmany := outcome_eq_ok hws
  obtain ⟨ys, hys, hhead⟩ : ∃ ys, i.words q (off + k) 1 s = .ok ys ∧ ys.headD 0 = x := by
    change (i.words q (off + k) 1 s).map _ = _ at hx
    rcases hys : i.words q (off + k) 1 s with e | ys <;> rw [hys] at hx
    · cases hx
    · exact ⟨ys, rfl, Except.ok.inj hx⟩
  have hone := outcome_eq_ok hys
  have hlen := length_words hys
  by_cases hop : ElementOperand i.ucode (i.pc + q)
  · have hsingle := (getWord_splits hop).single hmany hk hone
    rcases hget : ws[k]? with _ | y <;> rw [hget] at hsingle
    · rw [hsingle] at hlen
      cases hlen
    · rw [hsingle] at hhead
      exact congrArg some hhead
  · obtain rfl := hsrc.resolve_right hop
    have hconst := not_not.mp hop
    have hform : (AddrType.ofCode (i.ucode.getPU8 (i.pc + q + 1))).bind (getWordTable i.level) =
        some .const := by
      rw [hconst]
      rfl
    simp only [getWord, hform] at hmany hone
    split at hmany
    · cases hmany
    · rename_i hkind
      rw [if_neg hkind] at hone
      cases hmany
      cases hone
      exact congrArg some hhead

theorem length_words_of_element (hop : ElementOperand i.ucode (i.pc + q))
    (h : i.words q off n s = .ok ws) : ws.length = n := by
  have hget := outcome_eq_ok h
  rcases hform : (AddrType.ofCode (i.ucode.getPU8 (i.pc + q + 1))).bind (getWordTable i.level) with
    _ | _ | ⟨area, z⟩ | ⟨area, z, limit⟩
  · simp only [getWord, hform] at hget
    cases hget
  · obtain ⟨a, ha, htable⟩ := Option.bind_eq_some_iff.mp hform
    rw [getWordTable_const htable] at ha
    exact absurd ha hop
  · simp only [getWord, hform] at hget
    split at hget
    · cases hget
    · have hlen := length_getKnLoop (congrArg Prod.fst hget)
      rwa [hget] at hlen
  · simp only [getWord, hform] at hget
    have hlen := length_getLoop (congrArg Prod.fst hget)
    rwa [hget] at hlen

theorem words_zero (hop : ElementOperand i.ucode (i.pc + q)) (hx : i.word q a s = .ok x) :
    i.words q off 0 s = .ok [] := by
  have hword := word_ok_iff.mp ⟨x, hx⟩
  rw [BodyInput.words]
  rcases hform : (AddrType.ofCode (i.ucode.getPU8 (i.pc + q + 1))).bind (getWordTable i.level) with
    _ | _ | ⟨area, z⟩ | ⟨area, z, limit⟩ <;> simp only [getWord, hform] at hword ⊢
  · cases hword
  · obtain ⟨b, hb, htable⟩ := Option.bind_eq_some_iff.mp hform
    rw [getWordTable_const htable] at hb
    exact absurd hb hop
  · split at hword
    · cases hword
    · rename_i hkn
      rw [if_neg hkn]
      rfl
  · rfl

end

end Kalyke
