-- SUMMARY: The block structure of a file, and when every table index of the compiler is in range.
import Kalyke.Compiler.Walk

/-!
# The Compiler's Tables

The tables are filled at the delimiters of blocks and at calls only. `Mark` tells these
instructions apart, so that what one pass of the loop does to the tables is one application of a
mark. None of the indices is checked by the source: the module ends with the exact condition on a
file under which all of them are in range.
-/

namespace Kalyke

open List

variable {alloc : Nat → Bool} {u : Ucode} {p q : Nat} {s s' t : CompState} {ps : List Nat}

/-- What an instruction means for the tables. -/
inductive Mark where
  | call | sbr (n : Nat) | sret | intr (n : Nat) | mc | mcr | stl (n : Nat) | merge | ret
  | plain
deriving DecidableEq, Repr

/-- The mark of a complex instruction. Consecutive steps merge branches and open no step. -/
def ComplexIns.mark (u : Ucode) (p : Nat) : ComplexIns → Mark
  | call => .call
  | sbr => (sbrNumber u p).elim .plain .sbr
  | sret => .sret
  | intr => (intrNumber u p).elim .plain .intr
  | mc => .mc
  | mcr => .mcr
  | stl => if stlRun u p = 1 then .stl (stlNumber u p) else .merge
  | ret => .ret
  | _ => .plain

def mark (u : Ucode) (p : Nat) : Mark :=
  if IsSimple u p then .plain else (ComplexIns.ofCode (u.getPU16 p)).elim .plain (·.mark u p)

/-- What the compiler does to its tables at a mark. -/
def CompState.applyMark (s : CompState) (p : Nat) : Mark → CompState
  | .call => s.recordCall p
  | .sbr n => s.enterSbr n p
  | .sret => s.leaveSbr
  | .intr n => s.recordIntr n p
  | .mc => s.enterMc p
  | .mcr => s.leaveMc
  | .stl n => s.enterStl n
  | .merge | .ret => s.leaveStl
  | .plain => s

/-- The tables after the instruction at `p` is recorded in the clean-up lists. -/
def recorded (alloc : Nat → Bool) (u : Ucode) (p : Nat) (s : CompState) : CompState :=
  if IsSimple u p then (plcAddInsToSimpleList alloc u p s).2
  else (plcAddInsToComplexList alloc u p s).2

/-! ## One pass -/

theorem fillTables_ok {i : ComplexIns} (h : i.fillTables alloc u p s = (.ok (), s')) :
    s' = s.applyMark p (i.mark u p) := by
  cases i with
  | sbr =>
    simp only [ComplexIns.fillTables] at h
    simp only [ComplexIns.mark]
    split at h
    · rename_i n hn
      rw [hn]
      exact (Prod.mk.inj h).2.symm
    · cases h
  | intr =>
    simp only [ComplexIns.fillTables] at h
    simp only [ComplexIns.mark]
    split at h
    · rename_i n hn
      rw [hn]
      exact (Prod.mk.inj h).2.symm
    · cases h
  | mc =>
    simp only [ComplexIns.fillTables] at h
    split at h
    · exact (Prod.mk.inj h).2.symm
    · cases h
  | stl =>
    simp only [ComplexIns.fillTables, Prod.mk.injEq, true_and] at h
    simp only [ComplexIns.mark]
    split at h <;> simp_all [CompState.applyMark]
  | _ => exact (Prod.mk.inj h).2.symm

theorem fillTables_error {i : ComplexIns} {e : PlcErr}
    (h : i.fillTables alloc u p s = (.error e, s')) :
    s' = s ∨ (i = .mc ∧ s' = s.storeMc) := by
  cases i with
  | sbr =>
    simp only [ComplexIns.fillTables] at h
    split at h
    · cases h
    · exact .inl (Prod.mk.inj h).2.symm
  | intr =>
    simp only [ComplexIns.fillTables] at h
    split at h
    · cases h
    · exact .inl (Prod.mk.inj h).2.symm
  | mc =>
    simp only [ComplexIns.fillTables] at h
    split at h
    · cases h
    · exact .inr ⟨rfl, (Prod.mk.inj h).2.symm⟩
  | _ => cases h

/-- A pass that moves on has recorded the instruction and applied its mark. -/
theorem compilerIns_ok (h : compilerIns alloc u p s = (.ok q, s')) :
    s' = (recorded alloc u p s).applyMark p (mark u p) := by
  unfold compilerIns at h
  unfold recorded mark
  split at h
  · rename_i hs
    rw [if_pos hs, if_pos hs]
    split at h
    · rename_i t heq
      rw [heq]
      exact (Prod.mk.inj h).2.symm
    · cases h
  · rename_i hs
    rw [if_neg hs, if_neg hs]
    split at h
    · rename_i t heq
      rw [heq]
      unfold plcMoveUcodePtrFromComplexIns at h
      split at h
      · cases h
      · rename_i i hdec
        split at h
        · cases h
        · split at h
          · rename_i hfill
            rw [hdec, ← (Prod.mk.inj h).2]
            exact fillTables_ok hfill
          · cases h
    · cases h

/-- Whatever a pass ends in, it leaves the tables as recorded, or has gone on to its mark. -/
theorem compilerIns_snd (alloc : Nat → Bool) (u : Ucode) (p : Nat) (s : CompState) :
    (compilerIns alloc u p s).2 = recorded alloc u p s ∨
      (mark u p = .mc ∧ (compilerIns alloc u p s).2 = (recorded alloc u p s).storeMc) ∨
      (compilerIns alloc u p s).2 = (recorded alloc u p s).applyMark p (mark u p) := by
  rcases hres : compilerIns alloc u p s with ⟨e | q, s'⟩
  · unfold compilerIns at hres
    unfold recorded mark
    split at hres
    · rename_i hs
      rw [if_pos hs]
      split at hres <;> rename_i heq <;> rw [heq] <;> exact .inl (Prod.mk.inj hres).2.symm
    · rename_i hs
      rw [if_neg hs, if_neg hs]
      split at hres
      · rename_i t heq
        rw [heq]
        unfold plcMoveUcodePtrFromComplexIns at hres
        split at hres
        · exact .inl (Prod.mk.inj hres).2.symm
        · rename_i i hdec
          split at hres
          · exact .inl (Prod.mk.inj hres).2.symm
          · split at hres
            · cases hres
            · rename_i hfill
              rw [hdec, ← (Prod.mk.inj hres).2]
              rcases fillTables_error hfill with h | ⟨rfl, h⟩
              · exact .inl h
              · exact .inr (.inl ⟨rfl, h⟩)
      · rename_i heq
        rw [heq]
        exact .inl (Prod.mk.inj hres).2.symm
  · exact .inr (.inr (compilerIns_ok hres))

/-! ## Recording leaves the other tables alone -/

/-- The two states differ in the clean-up lists and the count of allocations only. -/
def OnlyLists (s t : CompState) : Prop :=
  ∃ sbrList stlList mcBlocks mallocs,
    t = { s with sbrList := sbrList, stlList := stlList, mcBlocks := mcBlocks, mallocs := mallocs }

theorem OnlyLists.refl (s : CompState) : OnlyLists s s := ⟨_, _, _, _, rfl⟩

theorem OnlyLists.trans (h : OnlyLists s s') (h' : OnlyLists s' t) : OnlyLists s t := by
  obtain ⟨_, _, _, _, rfl⟩ := h
  obtain ⟨_, _, _, _, rfl⟩ := h'
  exact ⟨_, _, _, _, rfl⟩

theorem addEntry_onlyLists (alloc : Nat → Bool) {f : CompState → CompState}
    (hf : ∀ s, OnlyLists s (f s)) (s : CompState) : OnlyLists s (s.addEntry alloc f).2 := by
  have hcount : OnlyLists s { s with mallocs := s.mallocs + 1 } := ⟨_, _, _, _, rfl⟩
  unfold CompState.addEntry
  split
  · exact hcount.trans (hf _)
  · exact hcount

theorem addEntryMc_onlyLists (f : InsList → InsList) (n i : Nat) (s : CompState) :
    OnlyLists s (s.addEntryMc alloc f n i).2 := by
  induction n generalizing i s with
  | zero => exact .refl s
  | succ n ih =>
    have hadd := addEntry_onlyLists alloc (f := (·.modifyMc i f))
      (fun _ => ⟨_, _, _, _, rfl⟩) s
    rw [CompState.addEntryMc]
    split
    · rename_i heq
      rw [heq] at hadd
      exact hadd.trans (ih _ _)
    · rename_i heq
      rwa [heq] at hadd

theorem addIns_onlyLists (f : InsList → InsList) (b : Bool) (s : CompState) :
    OnlyLists s (s.addIns alloc f b).2 := by
  unfold CompState.addIns
  split
  · split
    · exact addEntry_onlyLists alloc (fun _ => ⟨_, _, _, _, rfl⟩) s
    · exact .refl s
  · exact addEntryMc_onlyLists _ _ _ _
  · split
    · exact addEntry_onlyLists alloc (fun _ => ⟨_, _, _, _, rfl⟩) s
    · exact .refl s
  · exact .refl s

theorem recorded_onlyLists (alloc : Nat → Bool) (u : Ucode) (p : Nat) (s : CompState) :
    OnlyLists s (recorded alloc u p s) := by
  unfold recorded plcAddInsToSimpleList plcAddInsToComplexList
  split
  · split
    · split
      · exact addIns_onlyLists _ _ _
      · exact .refl s
    · exact .refl s
  · split
    · split
      · exact addIns_onlyLists _ _ _
      · exact .refl s
    · exact .refl s

/-! ## Indices -/

/-- The number of calls among the instructions at `ps`. -/
def callsIn (u : Ucode) (ps : List Nat) : Nat := ps.countP fun p => mark u p = .call

/-- The nesting level of master-control blocks that one more instruction leads to. -/
def mcLevelStep (u : Ucode) (level p : Nat) : Nat :=
  match mark u p with
  | .mc => level + 1
  | .mcr => level - 1
  | _ => level

/-- The number of master-control blocks open after the instructions at `ps`. -/
def mcLevel (u : Ucode) (ps : List Nat) : Nat := ps.foldl (mcLevelStep u) 0

def storeAt (u : Ucode) (ps : List Nat) (p : Nat) : Option TableStore :=
  match mark u p with
  | .call => some (.call (callsIn u ps))
  | .sbr n => some (.sbr n)
  | .intr n => some (.intr n)
  | .mc => some (.mc (mcLevel u ps))
  | .stl n => some (.stl n)
  | _ => none

@[simp] theorem callsIn_snoc :
    callsIn u (ps ++ [p]) = callsIn u ps + if mark u p = .call then 1 else 0 := by
  simp [callsIn]

@[simp] theorem mcLevel_snoc : mcLevel u (ps ++ [p]) = mcLevelStep u (mcLevel u ps) p := by
  simp [mcLevel]

/-- The counters of the compiler agree with the counts on the file. -/
structure InStep (u : Ucode) (ps : List Nat) (s : CompState) : Prop where
  useNum : s.useNum = callsIn u ps
  level : s.nestedLevel = mcLevel u ps

theorem InStep.recorded (h : InStep u ps s) : InStep u ps (recorded alloc u p s) := by
  obtain ⟨_, _, _, _, heq⟩ := recorded_onlyLists alloc u p s
  rw [heq]
  exact ⟨h.useNum, h.level⟩

/-- The counters stay in step as long as the nesting level fits its byte. -/
theorem InStep.applyMark (h : InStep u ps s) (hmc : mark u p = .mc → mcLevel u ps < 255) :
    InStep u (ps ++ [p]) (s.applyMark p (mark u p)) := by
  obtain ⟨huse, hlevel⟩ := h
  constructor
  · rw [callsIn_snoc, ← huse]
    cases mark u p <;> rfl
  · rw [mcLevel_snoc, ← hlevel, mcLevelStep]
    cases hm : mark u p with
    | mc => exact Nat.mod_eq_of_lt (by have := hmc hm; omega)
    | _ => rfl

theorem applyMark_stores (h : InStep u ps s) :
    (s.applyMark p (mark u p)).stores = s.stores ++ (storeAt u ps p).toList := by
  rw [storeAt, ← h.useNum, ← h.level]
  cases mark u p with
  | sret | mcr | merge | ret | plain => exact (append_nil _).symm
  | _ => rfl

theorem recorded_stores : (recorded alloc u p s).stores = s.stores := by
  obtain ⟨_, _, _, _, heq⟩ := recorded_onlyLists alloc u p s
  rw [heq]

/-- A pass makes no other store than the one the file calls for. -/
theorem mem_stores_of_pass (h : InStep u ps s) {x : TableStore}
    (hx : x ∈ (compilerIns alloc u p s).2.stores) : x ∈ s.stores ∨ storeAt u ps p = some x := by
  rcases compilerIns_snd alloc u p s with heq | ⟨hmark, heq⟩ | heq
  · rw [heq, recorded_stores] at hx
    exact .inl hx
  · rw [heq] at hx
    have hsync : InStep u ps (recorded alloc u p s) := h.recorded
    have hstores : (recorded alloc u p s).storeMc.stores = s.stores ++ [.mc (mcLevel u ps)] := by
      simp [CompState.storeMc, recorded_stores, hsync.level]
    rw [hstores, mem_append, mem_singleton] at hx
    exact hx.imp_right fun hx => by simp [storeAt, hmark, hx]
  · rw [heq, applyMark_stores h.recorded, recorded_stores, mem_append] at hx
    exact hx.imp_right fun hx => by simpa using hx

/-- Every store the file calls for on the way to `p` is in range. -/
def IndicesInRange (u : Ucode) : Prop :=
  ∀ ps p, Walk u ps p → BeforeEnd u p → ∀ x, storeAt u ps p = some x → x.InTable

/-- Every store the compiler makes, in any of its passes and with any memory, is in range. -/
def StoresInRange (u : Ucode) : Prop :=
  ∀ alloc p s, CompilerReaches alloc u p s → BeforeEnd u p →
    ∀ x ∈ (compilerIns alloc u p s).2.stores, x.InTable

/-- A store the file calls for at a nesting level out of range is no store in range. -/
theorem mcLevel_lt_of_inTable (h : ∀ x, storeAt u ps p = some x → x.InTable)
    (hmc : mark u p = .mc) : mcLevel u ps < maxMcMcrBlockNumber :=
  h (.mc (mcLevel u ps)) (by rw [storeAt, hmc])

/-- The delimiters and calls are instructions the compiler moves over. -/
theorem nextPtr_isSome_of_mark (h : mark u p ≠ .plain) : (nextPtr u p).isSome := by
  unfold mark at h
  split at h
  · exact absurd rfl h
  · rename_i hs
    rw [nextPtr_complex hs .start, plcMoveUcodePtrFromComplexIns]
    cases hdec : ComplexIns.ofCode (u.getPU16 p) with
    | none => exact absurd (by rw [hdec]; rfl) h
    | some i =>
      rw [hdec] at h
      cases i with
      | sbr =>
        cases hn : sbrNumber u p with
        | none => exact absurd (by simp [ComplexIns.mark, hn]) h
        | some n => simp [ComplexIns.moveLength, ComplexIns.fillTables, hn, Except.toOption]
      | intr =>
        cases hn : intrNumber u p with
        | none => exact absurd (by simp [ComplexIns.mark, hn]) h
        | some n => simp [ComplexIns.moveLength, ComplexIns.fillTables, hn, Except.toOption]
      | call | sret | mc | mcr | stl | ret => rfl
      | _ => exact absurd rfl h

theorem StoresInRange.indicesInRange (hstores : StoresInRange u) : IndicesInRange u := by
  -- a pass that moves on makes exactly the store that the file calls for
  have hpass : ∀ {ps p q}, Walk u ps p → BeforeEnd u p → nextPtr u p = some q →
      InStep u ps (tablesAfter enoughMemory u ps) →
      ∀ x, storeAt u ps p = some x → x.InTable := by
    intro ps p q hwalk hend hnext hsync x hx
    obtain ⟨s', hins⟩ := compilerIns_of_nextPtr hnext (tablesAfter enoughMemory u ps)
    refine hstores enoughMemory p _ hwalk.compilerReaches hend x ?_
    rw [hins, compilerIns_ok hins, applyMark_stores hsync.recorded, hx]
    simp
  have hsync : ∀ ps p, Walk u ps p → InStep u ps (tablesAfter enoughMemory u ps) := by
    intro ps p hwalk
    induction hwalk with
    | start => exact ⟨rfl, rfl⟩
    | next hwalk hend hnext hpast ih =>
      obtain ⟨s', hins⟩ := compilerIns_of_nextPtr hnext (tablesAfter enoughMemory u _)
      rw [tablesAfter_snoc, hins, compilerIns_ok hins]
      refine ih.recorded.applyMark fun hmc => ?_
      have := mcLevel_lt_of_inTable (hpass hwalk hend hnext ih) hmc
      unfold maxMcMcrBlockNumber at this
      omega
  intro ps p hwalk hend x hx
  have hmark : mark u p ≠ .plain := fun hplain => by simp [storeAt, hplain] at hx
  obtain ⟨q, hnext⟩ := Option.isSome_iff_exists.mp (nextPtr_isSome_of_mark hmark)
  exact hpass hwalk hend hnext (hsync ps p hwalk) x hx

theorem IndicesInRange.inStep (hindices : IndicesInRange u) (hreach : CompilerReaches alloc u p s) :
    ∃ ps, Walk u ps p ∧ InStep u ps s ∧ ∀ x ∈ s.stores, x.InTable := by
  refine hreach.induction (P := fun ps s => InStep u ps s ∧ ∀ x ∈ s.stores, x.InTable)
    ⟨⟨rfl, rfl⟩, by simp [CompState.start]⟩ ?_
  rintro ps p s q s' hwalk - hend hins ⟨hsync, hrange⟩
  have hat := hindices ps p hwalk hend
  refine ⟨?_, fun x hx => ?_⟩
  · rw [compilerIns_ok hins]
    refine hsync.recorded.applyMark fun hmc => ?_
    have := mcLevel_lt_of_inTable hat hmc
    unfold maxMcMcrBlockNumber at this
    omega
  · exact (mem_stores_of_pass hsync (by rw [hins]; exact hx)).elim (hrange x) (hat x)

theorem IndicesInRange.storesInRange (hindices : IndicesInRange u) : StoresInRange u := by
  intro alloc p s hreach hend x hx
  obtain ⟨ps, hwalk, hsync, hrange⟩ := hindices.inStep hreach
  exact (mem_stores_of_pass hsync hx).elim (hrange x) (hindices ps p hwalk hend x)

/-- The compiler stores inside its tables on every file exactly if the file calls for no index out
of range: at most 256 calls, subroutine numbers below 64, interrupt numbers below 60, at most eight
master-control blocks open at a time, and step numbers below 4096. -/
theorem storesInRange_iff (u : Ucode) : StoresInRange u ↔ IndicesInRange u :=
  ⟨StoresInRange.indicesInRange, IndicesInRange.storesInRange⟩

/-- A file with the subroutine number 64, behind which the table of entry points ends. -/
def sbr64File : Ucode :=
  [0, 0, 0, 0, 0, 0, 38, 0, 0, 0] ++ replicate 18 0 ++
    [0x01, 0xF0, 0x40, 0x01, 0x23, 0xF0] ++ replicate 4 0

/-- The compiler accepts `sbr64File`, and on the way it stores past the end of the table. -/
theorem sbr64File_stores_out_of_range :
    (∃ s, Accepts enoughMemory sbr64File s) ∧ ¬ StoresInRange sbr64File := by
  constructor
  · exact ⟨_, 3, rfl⟩
  · intro h
    have := h.indicesInRange [] ucodeStart .start (by decide) (.sbr 64) (by decide)
    exact absurd this (by decide)

end Kalyke
