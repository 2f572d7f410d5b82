-- SUMMARY: The compile loop's walk over the instruction boundaries, apart from tables and memory.
import Kalyke.Compiler.Compile

/-!
# The Walk over the Boundaries

Where the compile loop goes next depends on the file alone; the tables it fills and the memory it
allocates decide only whether it stops early. `Walk` is that path, as a relation on the file, and
the lemmas of this module tie it to the loop: what the loop reaches lies on the walk, and with
enough memory the loop reaches all of it.
-/

namespace Kalyke

variable {alloc : Nat → Bool} {u : Ucode} {p q : Nat} {s s' : CompState} {ps : List Nat}

/-- An allocator that never fails. -/
def enoughMemory : Nat → Bool := fun _ => true

/-- The pointer after the instruction at `p`, none if the compiler has no such instruction. -/
def nextPtr (u : Ucode) (p : Nat) : Option Nat :=
  (compilerIns enoughMemory u p .start).1.toOption

/-- The compile pointer comes to `p` after passing over the instructions at `ps`. -/
inductive Walk (u : Ucode) : List Nat → Nat → Prop where
  | start : Walk u [] ucodeStart
  | next {ps : List Nat} {p q : Nat} (hwalk : Walk u ps p) (hend : BeforeEnd u p)
      (hnext : nextPtr u p = some q)
      (hpast : ¬ PastEnd u q) : Walk u (ps ++ [p]) q

/-- The loop of the compiler visits the instruction boundary `p`. -/
def Visited (u : Ucode) (p : Nat) : Prop := ∃ ps, Walk u ps p ∧ BeforeEnd u p

/-! ## Where an instruction takes the pointer -/

/-- An operation failed because a call of `pvPortMalloc` did. -/
def OutOfMemory {α : Type} (alloc : Nat → Bool) (r : Except PlcErr α) : Prop :=
  r = .error .noFreeMemory ∧ ∃ n, alloc n = false

theorem not_outOfMemory {α : Type} {r : Except PlcErr α} : ¬ OutOfMemory enoughMemory r := by
  rintro ⟨-, n, hn⟩
  exact absurd hn (by simp [enoughMemory])

theorem addEntry_fst (alloc : Nat → Bool) (f : CompState → CompState) (s : CompState) :
    (s.addEntry alloc f).1 = .ok () ∨ OutOfMemory alloc (s.addEntry alloc f).1 := by
  unfold CompState.addEntry
  split
  · exact .inl rfl
  · rename_i hfail
    exact .inr ⟨rfl, s.mallocs, by simpa using hfail⟩

theorem addEntryMc_fst (f : InsList → InsList) (n i : Nat) (s : CompState) :
    (s.addEntryMc alloc f n i).1 = .ok () ∨ OutOfMemory alloc (s.addEntryMc alloc f n i).1 := by
  induction n generalizing i s with
  | zero => exact .inl rfl
  | succ n ih =>
    have hadd := addEntry_fst alloc (·.modifyMc i f) s
    rw [CompState.addEntryMc]
    split
    · exact ih _ _
    · rename_i e s' heq
      exact .inr (by simpa [heq] using hadd)

/-- Recording an instruction can fail for want of memory only. -/
theorem addIns_fst (f : InsList → InsList) (b : Bool) (s : CompState) :
    (s.addIns alloc f b).1 = .ok () ∨ OutOfMemory alloc (s.addIns alloc f b).1 := by
  unfold CompState.addIns
  split
  · split
    · exact addEntry_fst _ _ _
    · exact .inl rfl
  · exact addEntryMc_fst _ _ _ _
  · split
    · exact addEntry_fst _ _ _
    · exact .inl rfl
  · exact .inl rfl

theorem addSimple_fst (alloc : Nat → Bool) (u : Ucode) (p : Nat) (s : CompState) :
    (plcAddInsToSimpleList alloc u p s).1 = .ok () ∨
      OutOfMemory alloc (plcAddInsToSimpleList alloc u p s).1 := by
  unfold plcAddInsToSimpleList
  split
  · split
    · exact addIns_fst _ _ _
    · exact .inl rfl
  · exact .inl rfl

theorem addComplex_fst (alloc : Nat → Bool) (u : Ucode) (p : Nat) (s : CompState) :
    (plcAddInsToComplexList alloc u p s).1 = .ok () ∨
      OutOfMemory alloc (plcAddInsToComplexList alloc u p s).1 := by
  unfold plcAddInsToComplexList
  split
  · split
    · exact addIns_fst _ _ _
    · exact .inl rfl
  · exact .inl rfl

/-- Filling the tables fails for want of memory, or for a number out of range, which does not depend
on the tables. -/
theorem fillTables_fst (alloc : Nat → Bool) (u : Ucode) (p : Nat) (i : ComplexIns)
    (s s' : CompState) :
    (i.fillTables alloc u p s).1 = (i.fillTables enoughMemory u p s').1 ∨
      OutOfMemory alloc (i.fillTables alloc u p s).1 := by
  cases i with
  | mc =>
    simp only [ComplexIns.fillTables]
    rw [if_pos (show enoughMemory s'.mallocs = true from rfl)]
    split
    · exact .inl rfl
    · rename_i hfail
      exact .inr ⟨rfl, s.mallocs, by simpa using hfail⟩
  | sbr =>
    simp only [ComplexIns.fillTables]
    split <;> exact .inl rfl
  | intr =>
    simp only [ComplexIns.fillTables]
    split <;> exact .inl rfl
  | _ => exact .inl rfl

/-- The move over a complex instruction does not depend on the tables, and on the memory only in
that it may fail. -/
theorem moveComplex_fst (s s' : CompState) :
    (plcMoveUcodePtrFromComplexIns alloc u p s).1 =
        (plcMoveUcodePtrFromComplexIns enoughMemory u p s').1 ∨
      OutOfMemory alloc (plcMoveUcodePtrFromComplexIns alloc u p s).1 := by
  unfold plcMoveUcodePtrFromComplexIns
  split
  · exact .inl rfl
  · rename_i i hdec
    split
    · exact .inl rfl
    · have hfill := fillTables_fst alloc u p i s s'
      rcases heq : i.fillTables alloc u p s with ⟨_ | _, t⟩ <;>
        rcases heq' : i.fillTables enoughMemory u p s' with ⟨_ | _, t'⟩ <;>
        simp_all [OutOfMemory]

/-- Where the loop goes from an instruction does not depend on the tables, and on the memory only in
that it may stop there. -/
theorem compilerIns_fst (alloc : Nat → Bool) (u : Ucode) (p : Nat) (s s' : CompState) :
    (compilerIns alloc u p s).1 = (compilerIns enoughMemory u p s').1 ∨
      OutOfMemory alloc (compilerIns alloc u p s).1 := by
  unfold compilerIns
  split
  · have hmem := (addSimple_fst enoughMemory u p s').resolve_right not_outOfMemory
    rcases hadd' : plcAddInsToSimpleList enoughMemory u p s' with ⟨r', t'⟩
    rw [hadd'] at hmem
    subst hmem
    have hadd := addSimple_fst alloc u p s
    rcases heq : plcAddInsToSimpleList alloc u p s with ⟨_ | _, t⟩
    · exact .inr (by simpa [heq, OutOfMemory] using hadd)
    · exact .inl rfl
  · have hmem := (addComplex_fst enoughMemory u p s').resolve_right not_outOfMemory
    rcases hadd' : plcAddInsToComplexList enoughMemory u p s' with ⟨r', t'⟩
    rw [hadd'] at hmem
    subst hmem
    have hadd := addComplex_fst alloc u p s
    rcases heq : plcAddInsToComplexList alloc u p s with ⟨_ | _, t⟩
    · exact .inr (by simpa [heq, OutOfMemory] using hadd)
    · exact moveComplex_fst _ _

theorem nextPtr_simple (h : IsSimple u p) :
    nextPtr u p = (SimpleIns.ofCode (u.getPU8 (p + 1))).map (p + ·.moveLength) := by
  have hadd := (addSimple_fst enoughMemory u p .start).resolve_right not_outOfMemory
  rcases heq : plcAddInsToSimpleList enoughMemory u p .start with ⟨r, t⟩
  rw [heq] at hadd
  subst hadd
  simp only [nextPtr, compilerIns, h, heq, plcMoveUcodePtrFromSimpleIns]
  cases SimpleIns.ofCode (u.getPU8 (p + 1)) <;> rfl

theorem nextPtr_complex (h : ¬ IsSimple u p) (s : CompState) :
    nextPtr u p = (plcMoveUcodePtrFromComplexIns enoughMemory u p s).1.toOption := by
  have hadd := (addComplex_fst enoughMemory u p .start).resolve_right not_outOfMemory
  rcases heq : plcAddInsToComplexList enoughMemory u p .start with ⟨r, t⟩
  rw [heq] at hadd
  subst hadd
  simp only [nextPtr, compilerIns, h, if_false, heq]
  rw [(moveComplex_fst t s).resolve_right not_outOfMemory]

/-- A complex instruction the compiler moves over is one it has a length for. -/
theorem exists_of_nextPtr_complex (h : ¬ IsSimple u p) (hnext : nextPtr u p = some q) :
    ∃ i n, ComplexIns.ofCode (u.getPU16 p) = some i ∧ i.moveLength u p = some n ∧ q = p + n := by
  rw [nextPtr_complex h .start, plcMoveUcodePtrFromComplexIns] at hnext
  split at hnext
  · cases hnext
  · rename_i i hdec
    split at hnext
    · cases hnext
    · rename_i n hlen
      split at hnext
      · exact ⟨i, n, hdec, hlen, (Option.some.inj hnext).symm⟩
      · cases hnext

/-- A simple instruction the compiler moves over. -/
theorem exists_of_nextPtr_simple (h : IsSimple u p) (hnext : nextPtr u p = some q) :
    ∃ i, SimpleIns.ofCode (u.getPU8 (p + 1)) = some i ∧ q = p + i.moveLength := by
  rw [nextPtr_simple h] at hnext
  obtain ⟨i, hdec, rfl⟩ := Option.map_eq_some_iff.mp hnext
  exact ⟨i, hdec, rfl⟩

theorem nextPtr_of_compilerIns (h : compilerIns alloc u p s = (.ok q, s')) :
    nextPtr u p = some q := by
  rcases compilerIns_fst alloc u p s .start with heq | ⟨herr, -⟩
  · rw [nextPtr, ← heq, h]
    rfl
  · rw [h] at herr
    cases herr

theorem compilerIns_of_nextPtr (h : nextPtr u p = some q) (s : CompState) :
    ∃ s', compilerIns enoughMemory u p s = (.ok q, s') := by
  have heq := (compilerIns_fst enoughMemory u p s .start).resolve_right not_outOfMemory
  unfold nextPtr at h
  rw [← heq] at h
  rcases hres : compilerIns enoughMemory u p s with ⟨e | q', s'⟩
  · simp [hres, Except.toOption] at h
  · exact ⟨s', by simpa [hres, Except.toOption] using h⟩

/-! ## The walk and the loop -/

/-- The tables after passing over the instructions at `ps`. -/
def tablesAfter (alloc : Nat → Bool) (u : Ucode) (ps : List Nat) : CompState :=
  ps.foldl (fun s p => (compilerIns alloc u p s).2) .start

@[simp] theorem tablesAfter_snoc :
    tablesAfter alloc u (ps ++ [p]) = (compilerIns alloc u p (tablesAfter alloc u ps)).2 := by
  simp [tablesAfter]

/-- One pass that goes on: the pointer moves over an instruction and stays inside the file. -/
theorem step_iff : (compilerLoop alloc u).Step (p, s) (q, s') ↔
    BeforeEnd u p ∧ compilerIns alloc u p s = (.ok q, s') ∧ ¬ PastEnd u q := by
  simp only [WhileLoop.Step, compilerLoop]
  constructor
  · intro h
    split at h
    · rename_i hend
      split at h
      · rename_i q' t heq
        split at h
        · cases h
        · rename_i hpast
          cases h
          exact ⟨hend, heq, hpast⟩
      · split at h <;> cases h
    · cases h
  · rintro ⟨hend, heq, hpast⟩
    simp [hend, heq, hpast]

/-- Induction along a run of the compile loop, with the path walked so far at hand. -/
theorem CompilerReaches.induction {P : List Nat → CompState → Prop}
    (h : CompilerReaches alloc u p s) (start : P [] .start)
    (next : ∀ ps p s q s', Walk u ps p → CompilerReaches alloc u p s → BeforeEnd u p →
      compilerIns alloc u p s = (.ok q, s') → P ps s → P (ps ++ [p]) s') :
    ∃ ps, Walk u ps p ∧ P ps s := by
  suffices hinv : ∀ c, (compilerLoop alloc u).Reaches (ucodeStart, .start) c →
      ∃ ps, Walk u ps c.1 ∧ P ps c.2 from hinv (p, s) h
  intro c hc
  induction hc with
  | refl => exact ⟨[], .start, start⟩
  | @tail b c hreach hstep ih =>
    obtain ⟨ps, hwalk, hP⟩ := ih
    obtain ⟨hend, heq, hpast⟩ := step_iff.mp hstep
    exact ⟨ps ++ [b.1], .next hwalk hend (nextPtr_of_compilerIns heq) hpast,
      next ps b.1 b.2 c.1 c.2 hwalk hreach hend heq hP⟩

/-- What the compile loop reaches lies on the walk. -/
theorem CompilerReaches.walk (h : CompilerReaches alloc u p s) : ∃ ps, Walk u ps p := by
  obtain ⟨ps, hwalk, -⟩ := h.induction (P := fun _ _ => True) trivial (by intros; trivial)
  exact ⟨ps, hwalk⟩

/-- With enough memory the compile loop reaches every point of the walk. -/
theorem Walk.compilerReaches (h : Walk u ps p) :
    CompilerReaches enoughMemory u p (tablesAfter enoughMemory u ps) := by
  induction h with
  | start => exact .refl
  | next hwalk hend hnext hpast ih =>
    obtain ⟨s', hins⟩ := compilerIns_of_nextPtr hnext (tablesAfter enoughMemory u _)
    rw [tablesAfter_snoc, hins]
    exact ih.tail (step_iff.mpr ⟨hend, hins, hpast⟩)

end Kalyke
