-- SUMMARY: Which elements are restored after the power was lost, in runs of saves and configurations.
import Kalyke.Lib.Runs
import Kalyke.SysManage.PlsdData

/-!
# Retention

Over a run, the groups of elements to be kept may be configured anew, the elements are saved when
the power goes, and all that was saved may be erased. A restore is to bring back exactly the
elements of the groups, each class of them only if it was saved since it was configured.

There is one mark for the areas of all classes, and the values of counters are copied in one width.
-/

namespace Kalyke

open List Option

/-- The configuration, the flash memory, and the elements at the last save of each class since the
configuration was set; none if there was no such save. -/
structure PlsdState where
  info : PlsdInfo
  flash : PlsdFlash
  saved : Plsd → Option PlsdElements

/-- A new configuration is set, the elements are saved, all is erased, or the elements are
restored. -/
inductive PlsdEvent where
  | configure (info : PlsdInfo)
  | save (e : PlsdElements)
  | eraseAll
  | restore

namespace PlsdState

/-- A run starts with a configuration and any contents of the flash memory. -/
def init (info : PlsdInfo) (flash : PlsdFlash) : PlsdState := ⟨info, flash, fun _ => none⟩

def next (s : PlsdState) : PlsdEvent → PlsdState
  | .configure info => { s with info := info, saved := fun _ => none }
  | .save e =>
    { s with
      flash := s.flash.plsdSaveData s.info e
      saved := fun c => if s.info.Includes c then some e else s.saved c }
  | .eraseAll => { s with flash := s.flash.plsdEraseAll, saved := fun _ => none }
  | .restore => s

/-- What an element is to be after a restore, from what was saved and from what it is before. -/
def kept (s : PlsdState) (e : PlsdElements) (c : Plsd) (i : Nat) : ElementValue :=
  match s.saved c with
  | some x => if s.info.Keeps c i then x.element c i else e.element c i
  | none => e.element c i

/-- The groups of counters that are copied as counters of 32 bits have the counter, or a group that
begins with a counter of 16 bits is long enough for both halves of it. -/
def RestoresCounter (s : PlsdState) (i : Nat) : Prop :=
  ∃ g ∈ [s.info.group1 .C, s.info.group2 .C], g.Contains i ∧
    (cElement16BitCnt ≤ g.startElement ∨ c32Index i + 1 < g.startElement + g.length)

instance (s : PlsdState) (i : Nat) : Decidable (s.RestoresCounter i) :=
  inferInstanceAs (Decidable (∃ g ∈ [s.info.group1 .C, s.info.group2 .C], g.Contains i ∧
    (cElement16BitCnt ≤ g.startElement ∨ c32Index i + 1 < g.startElement + g.length)))

end PlsdState

/-- Whatever the elements are, a restore brings back those that are to be kept and no others. -/
def PlsdEvent.Right (s : PlsdState) : PlsdEvent → Prop
  | .restore => ∀ e c i, i < Plsd.rang c →
      (s.flash.plsdRestoreData s.info e).element c i = s.kept e c i
  | _ => True

/-- If something was ever saved, a restore comes only when each class in the configuration was saved
since, and when its groups bring back both halves of each counter of 32 bits in them. -/
def PlsdEvent.Complete (s : PlsdState) : PlsdEvent → Prop
  | .restore => s.flash.magicNum ≠ erasedMagic →
      (∀ c, s.info.Includes c → (s.saved c).isSome) ∧
      ∀ i, cElement16BitCnt ≤ i → s.info.Keeps .C i → s.RestoresCounter i
  | _ => True

/-! ## What Is Restored -/

namespace PlsdState

variable {s : PlsdState} {e : PlsdElements} {c : Plsd} {i : Nat}

/-- What was saved lies in its area, and the mark is set. -/
structure Inv (s : PlsdState) : Prop where
  area : ∀ c x, s.saved c = some x → ∀ i, s.flash.area.element c i = x.element c i
  marked : ∀ c, (s.saved c).isSome → s.flash.magicNum ≠ erasedMagic

theorem includes_of_keeps {info : PlsdInfo} (h : info.Keeps c i) : info.Includes c := by
  rintro ⟨h₁, h₂⟩
  rcases h with ⟨hlo, hhi⟩ | ⟨hlo, hhi⟩ <;> omega

/-- A restore of the elements of another class than the counters. -/
theorem element_restore (hc : c ≠ .C) (hmark : s.flash.magicNum ≠ erasedMagic) :
    (s.flash.plsdRestoreData s.info e).element c i =
      if s.info.Keeps c i then s.flash.area.element c i else e.element c i := by
  rw [PlsdFlash.plsdRestoreData, if_neg hmark, PlsdFlash.element_foldl hc]
  have hmem : c ∈ Plsd.all := by cases c <;> decide
  simp only [hmem, true_and]

/-- The halfwords of a counter's value that are restored. -/
theorem covers_iff_of_lt (hi : i < cElement16BitCnt) :
    (s.info.group1 .C).Covers i ∨ (s.info.group2 .C).Covers i ↔ s.info.Keeps .C i := by
  refine or_congr ?_ ?_ <;>
  · unfold PlsdItem.Covers PlsdItem.Contains c32Index
    split <;> omega

theorem covers_high_iff (hi : cElement16BitCnt ≤ i) :
    (s.info.group1 .C).Covers (c32Index i + 1) ∨ (s.info.group2 .C).Covers (c32Index i + 1) ↔
      s.RestoresCounter i := by
  have hgroup (g : PlsdItem .C) : g.Covers (c32Index i + 1) ↔
      g.Contains i ∧
        (cElement16BitCnt ≤ g.startElement ∨ c32Index i + 1 < g.startElement + g.length) := by
    unfold PlsdItem.Covers PlsdItem.Contains c32Index
    split <;> omega
  simp only [RestoresCounter, mem_cons, not_mem_nil, or_false, exists_eq_or_imp,
    exists_eq_left, hgroup]

theorem covers_low_of_high (g : PlsdItem .C)
    (h : g.Covers (c32Index i + 1)) : g.Covers (c32Index i) := by
  unfold PlsdItem.Covers PlsdItem.Contains c32Index at h ⊢
  split at h <;> rename_i hstart
  · rw [if_pos hstart]
    omega
  · rw [if_neg hstart]
    omega

theorem keeps_of_covers_low (hi : cElement16BitCnt ≤ i) (g : PlsdItem .C)
    (h : g.Covers (c32Index i)) : g.Contains i := by
  unfold PlsdItem.Covers PlsdItem.Contains c32Index at h
  unfold PlsdItem.Contains
  split at h <;> omega

theorem element_restore_counter32 (hmark : s.flash.magicNum ≠ erasedMagic)
    (hi : cElement16BitCnt ≤ i) : (s.flash.plsdRestoreData s.info e).element .C i =
      .counter32
        (if s.info.Keeps .C i then bitAt s.flash.area.cElement.bitElement i
          else bitAt e.cElement.bitElement i)
        (if (s.info.group1 .C).Covers (c32Index i) ∨ (s.info.group2 .C).Covers (c32Index i)
          then s.flash.area.cElement.value (c32Index i) else e.cElement.value (c32Index i))
        (if s.RestoresCounter i then s.flash.area.cElement.value (c32Index i + 1)
          else e.cElement.value (c32Index i + 1))
        (if s.info.Keeps .C i then s.flash.area.cElement.statusInfo i
          else e.cElement.statusInfo i) := by
  obtain ⟨hbit, hstatus, hlow⟩ := PlsdFlash.cElement_foldl (f := s.flash) (e := e) (i := i)
    (j := c32Index i) s.info Plsd.all
  obtain ⟨-, -, hhigh⟩ := PlsdFlash.cElement_foldl (f := s.flash) (e := e) (i := i)
    (j := c32Index i + 1) s.info Plsd.all
  have hmem : Plsd.C ∈ Plsd.all := by decide
  simp only [hmem, true_and, covers_high_iff hi] at hbit hstatus hlow hhigh
  rw [PlsdFlash.plsdRestoreData, if_neg hmark, PlsdElements.element, if_neg (by omega), hbit,
    hstatus, hlow, hhigh]

theorem element_restore_counter16 (hmark : s.flash.magicNum ≠ erasedMagic)
    (hi : i < cElement16BitCnt) : (s.flash.plsdRestoreData s.info e).element .C i =
      if s.info.Keeps .C i then s.flash.area.element .C i else e.element .C i := by
  obtain ⟨hbit, hstatus, hvalue⟩ := PlsdFlash.cElement_foldl (f := s.flash) (e := e) (i := i)
    (j := i) s.info Plsd.all
  have hmem : Plsd.C ∈ Plsd.all := by decide
  simp only [hmem, true_and, covers_iff_of_lt hi] at hbit hstatus hvalue
  rw [PlsdFlash.plsdRestoreData, if_neg hmark, PlsdElements.element, if_pos hi, hbit, hstatus,
    hvalue]
  simp only [PlsdElements.element]
  split <;> rfl

/-- A restore that brings back both halves of the counters. -/
theorem element_restore_complete (hmark : s.flash.magicNum ≠ erasedMagic)
    (hcounters : ∀ i, cElement16BitCnt ≤ i → s.info.Keeps .C i → s.RestoresCounter i) :
    (s.flash.plsdRestoreData s.info e).element c i =
      if s.info.Keeps c i then s.flash.area.element c i else e.element c i := by
  by_cases hc : c = .C
  · subst hc
    by_cases hi : i < cElement16BitCnt
    · exact element_restore_counter16 hmark hi
    · have hle : cElement16BitCnt ≤ i := by omega
      rw [element_restore_counter32 hmark hle]
      by_cases hkeeps : s.info.Keeps .C i
      · have hhigh := hcounters i hle hkeeps
        have hlow := ((covers_high_iff hle).mpr hhigh).imp (covers_low_of_high _)
          (covers_low_of_high _)
        simp only [if_pos hkeeps, if_pos hhigh, if_pos hlow, PlsdElements.element, if_neg hi]
      · have hlow : ¬ ((s.info.group1 .C).Covers (c32Index i) ∨
            (s.info.group2 .C).Covers (c32Index i)) := fun hlow =>
          hkeeps (hlow.imp (keeps_of_covers_low hle _) (keeps_of_covers_low hle _))
        have hhigh : ¬ s.RestoresCounter i := fun hhigh =>
          hlow (((covers_high_iff hle).mpr hhigh).imp (covers_low_of_high _)
            (covers_low_of_high _))
        simp only [if_neg hkeeps, if_neg hhigh, if_neg hlow, PlsdElements.element, if_neg hi]
  · exact element_restore hc hmark

theorem Inv.restore_complete (h : s.Inv) (hx : PlsdEvent.restore.Complete s) :
    PlsdEvent.restore.Right s := by
  intro e c i _
  by_cases hmark : s.flash.magicNum = erasedMagic
  · have hsaved : s.saved c = none := by
      by_contra hsome
      exact h.marked c (isSome_iff_ne_none.mpr hsome) hmark
    rw [PlsdFlash.plsdRestoreData, if_pos hmark, kept, hsaved]
  · obtain ⟨hall, hcounters⟩ := hx hmark
    rw [element_restore_complete hmark hcounters, kept]
    cases hsaved : s.saved c with
    | none =>
      refine if_neg fun hkeeps => ?_
      have hsome := hall c (includes_of_keeps hkeeps)
      rw [hsaved] at hsome
      cases hsome
    | some x =>
      rw [h.area c x hsaved i]

/-! ## What Is Not -/

/-- An element of a group comes from its area, complete or not. -/
theorem flag_restore (hmark : s.flash.magicNum ≠ erasedMagic) (hkeeps : s.info.Keeps c i) :
    ((s.flash.plsdRestoreData s.info e).element c i).flag = (s.flash.area.element c i).flag := by
  by_cases hc : c = .C
  · subst hc
    by_cases hi : i < cElement16BitCnt
    · rw [element_restore_counter16 hmark hi, if_pos hkeeps]
    · rw [element_restore_counter32 hmark (by omega), if_pos hkeeps, PlsdElements.element,
        if_neg hi]
      rfl
  · rw [element_restore hc hmark, if_pos hkeeps]

theorem keeps_lt (hkeeps : s.info.Keeps c i) : i < c.rang := by
  have h₁ := (s.info.group1 c).inRang
  have h₂ := (s.info.group2 c).inRang
  rcases hkeeps with ⟨-, hhi⟩ | ⟨-, hhi⟩ <;> omega

theorem exists_keeps {info : PlsdInfo} (h : info.Includes c) : ∃ i, info.Keeps c i := by
  by_cases h₁ : (info.group1 c).length = 0
  · have h₂ : (info.group2 c).length ≠ 0 := fun h₂ => h ⟨h₁, h₂⟩
    exact ⟨(info.group2 c).startElement, .inr ⟨Nat.le_refl _, by omega⟩⟩
  · exact ⟨(info.group1 c).startElement, .inl ⟨Nat.le_refl _, by omega⟩⟩

/-- A class that was not saved since it was configured is restored all the same. -/
theorem saved_of_right (hmark : s.flash.magicNum ≠ erasedMagic)
    (hright : PlsdEvent.restore.Right s) (hc : s.info.Includes c) : (s.saved c).isSome := by
  by_contra hnone
  obtain ⟨i, hkeeps⟩ := exists_keeps hc
  have heq := hright s.flash.area.compl c i (keeps_lt hkeeps)
  rw [kept, not_isSome_iff_eq_none.mp hnone] at heq
  have hflag := congrArg ElementValue.flag heq
  rw [flag_restore hmark hkeeps, PlsdElements.flag_compl] at hflag
  cases hb : (s.flash.area.element c i).flag <;> rw [hb] at hflag <;> cases hflag

/-- The upper half of a counter's value that no group brings back. -/
theorem Inv.restores_of_right (h : s.Inv) (hmark : s.flash.magicNum ≠ erasedMagic)
    (hright : PlsdEvent.restore.Right s) (hi : cElement16BitCnt ≤ i)
    (hkeeps : s.info.Keeps .C i) : s.RestoresCounter i := by
  by_contra hlost
  have hsome := saved_of_right hmark hright (includes_of_keeps hkeeps)
  obtain ⟨x, hsaved⟩ := isSome_iff_exists.mp hsome
  have heq := hright s.flash.area.compl .C i (keeps_lt hkeeps)
  rw [kept, hsaved] at heq
  dsimp only at heq
  rw [if_pos hkeeps, ← h.area .C x hsaved i, element_restore_counter32 hmark hi, if_neg hlost,
    PlsdElements.element, if_neg (Nat.not_lt.mpr hi)] at heq
  have hhigh := (ElementValue.counter32.inj heq).2.2.1
  have hbit := congrArg (fun w => w.getLsbD 0) hhigh
  simp [PlsdElements.compl] at hbit

theorem Inv.restore_iff (h : s.Inv) :
    PlsdEvent.restore.Right s ↔ PlsdEvent.restore.Complete s :=
  ⟨fun hright hmark => ⟨fun _ hc => saved_of_right hmark hright hc,
    fun _ hi hkeeps => h.restores_of_right hmark hright hi hkeeps⟩, h.restore_complete⟩

/-! ## Runs -/

theorem Inv.init (info : PlsdInfo) (flash : PlsdFlash) : (PlsdState.init info flash).Inv :=
  ⟨(fun _ _ h => by cases h), (fun _ h => by cases h)⟩

/-- The area of a class after its arrays were written. -/
theorem element_saveArea (area x : PlsdElements) (c d : Plsd) (i : Nat) :
    (area.saveArea x d).element c i = if c = d then x.element c i else area.element c i := by
  cases d <;> cases c <;> rfl

theorem element_save (area x : PlsdElements) (info : PlsdInfo) (l : List Plsd) :
    (l.foldl (fun area c => if info.Includes c then area.saveArea x c else area) area).element c i =
      if c ∈ l ∧ info.Includes c then x.element c i else area.element c i := by
  induction l generalizing area with
  | nil => simp
  | cons d l ih =>
    rw [foldl_cons, ih]
    by_cases hd : c = d
    · subst hd
      by_cases hc : info.Includes c <;> simp [hc, element_saveArea]
    · by_cases hc : info.Includes d <;> simp [hc, hd, element_saveArea]

theorem Inv.save (h : s.Inv) (x : PlsdElements) : (s.next (.save x)).Inv := by
  refine ⟨fun c y hsaved i => ?_, fun c hsome => ?_⟩
  · have hmem : c ∈ Plsd.all := by cases c <;> decide
    have helem := element_save (c := c) (i := i) s.flash.area x s.info Plsd.all
    simp only [next, PlsdFlash.plsdSaveData] at hsaved ⊢
    rw [helem]
    simp only [hmem, true_and]
    split at hsaved
    · rename_i hc
      obtain rfl := some.inj hsaved
      rw [if_pos hc]
    · rename_i hc
      rw [if_neg hc, h.area c y hsaved i]
  · simp only [next, PlsdFlash.plsdSaveData] at hsome ⊢
    by_cases hany : ∃ c ∈ Plsd.all, s.info.Includes c
    · rw [if_pos hany]
      split
      · decide
      · rename_i hmagic
        rw [not_not.mp hmagic]
        decide
    · rw [if_neg hany]
      have hmem : c ∈ Plsd.all := by cases c <;> decide
      rw [if_neg fun hc => hany ⟨c, hmem, hc⟩] at hsome
      exact h.marked c hsome

theorem Inv.next (h : s.Inv) (x : PlsdEvent) : (s.next x).Inv := by
  cases x with
  | configure info => exact Inv.init _ _
  | save e => exact h.save e
  | eraseAll => exact Inv.init s.info _
  | restore => exact h

end PlsdState

/-- In a run from any configuration and contents of the flash memory, every restore brings back
exactly what is to be kept just if it comes when the classes were saved and the counters are
complete. -/
theorem plsd_restores_iff (info : PlsdInfo) (flash : PlsdFlash) (xs : List PlsdEvent) :
    Each PlsdState.next (fun s x => x.Right s) (.init info flash) xs ↔
      Each PlsdState.next (fun s x => x.Complete s) (.init info flash) xs := by
  refine Each.iff_of_invariant (I := PlsdState.Inv) (L := fun _ _ => True)
    (PlsdState.Inv.init info flash) (fun _ _ _ _ => trivial) ?_ ?_
  · intro s x h _
    cases x with
    | restore => exact h.restore_iff
    | _ => exact Iff.rfl
  · intro s x h _ _
    exact h.next x

def mixedCounters : PlsdInfo where
  group1
    | .C => ⟨196, 8, by decide⟩
    | _ => ⟨0, 0, Nat.zero_le _⟩
  group2 _ := ⟨0, 0, Nat.zero_le _⟩

def zeroElements : PlsdElements where
  mElement _ := 0
  sElement _ := 0
  cElement := ⟨fun _ => 0, fun _ => 0, fun _ => 0⟩
  tElement := ⟨fun _ => 0, fun _ => 0, fun _ => 0, fun _ => 0, fun _ => 0⟩
  dElement _ := 0

/-- A group with counters of both widths is saved and restored. The values of `C202` and `C203` are
not brought back. -/
theorem c202_not_restored : ¬ ∀ (info : PlsdInfo) (flash : PlsdFlash) (xs : List PlsdEvent),
    Each PlsdState.next (fun s x => x.Right s) (.init info flash) xs := by
  intro h
  let s := (PlsdState.init mixedCounters ⟨erasedMagic, zeroElements⟩).next (.save zeroElements)
  have hinv : s.Inv := (PlsdState.Inv.init _ _).save zeroElements
  have hright : PlsdEvent.restore.Right s :=
    h mixedCounters ⟨erasedMagic, zeroElements⟩ [.save zeroElements, .restore] [.save zeroElements]
      .restore [] rfl
  have hmark : s.flash.magicNum ≠ erasedMagic := by decide
  have hcounter := (hinv.restore_iff.mp hright hmark).2 202 (by decide) (by decide)
  revert hcounter
  decide

end Kalyke
