-- SUMMARY: Which instructions the compiler records, and what recording one does to the lists.
import Kalyke.Compiler.Blocks

/-!
# Recording

The lists that the mode flag leads to, as collections from the program text, and the effect of one
call of the functions that add to them.
-/

namespace Kalyke

open Function Option History

variable {alloc : Nat → Bool} {u : Ucode} {p q a n : Nat} {s s' t : CompState} {ps : List Nat}
  {k : BlockKind} {R : List Nat → Nat → Bool}

/-! ## What is recorded -/

/-- The compiler records the instruction at `p` in steps and master-control blocks. -/
def recordable (u : Ucode) (p : Nat) : Bool :=
  insTest u SimpleIns.cleanable ComplexIns.cleanable p

/-- The compiler records the instruction at `p` in a kind of numbered block. -/
def recordableIn (u : Ucode) : BlockKind → Nat → Bool
  | .sub, p => insTest u SimpleIns.cleanableInSub ComplexIns.cleanable p
  | .step, p => recordable u p

/-- What the compiler records for the numbered block opened at `a`. -/
def recordedList (u : Ucode) (k : BlockKind) (ps : List Nat) (a : Nat) : InsList :=
  collect u (fun pre q => inBlock u k a pre && (flagAfter u pre == k.flag) && recordableIn u k q) ps

/-- What the compiler records for the master-control block opened at `a`. -/
def recordedMcList (u : Ucode) (ps : List Nat) (a : Nat) : InsList :=
  collect u (fun pre q => inMc u a pre && (flagAfter u pre == .mcMcr) && recordable u q) ps

def lastOpened (u : Ucode) (k : BlockKind) (n : Nat) (ps : List Nat) : Option Nat :=
  (ps.filter fun a => k.opens (mark u a) = some n).getLast?

/-- The `MC` instructions of a program. -/
def mcOpeners (u : Ucode) (ps : List Nat) : List Nat := ps.filter (mark u · = .mc)

/-- The pointer to the lists of the open block of a kind. -/
def CompState.ptrOf (s : CompState) : BlockKind → Option Nat
  | .sub => s.sbrListPtr
  | .step => s.stlListPtr

theorem insTest_congr {f f' : SimpleIns → Bool} {g g' : ComplexIns → Bool} (hf : ∀ i, f i = f' i)
    (hg : ∀ i, g i = g' i) : insTest u f g p = insTest u f' g' p := by
  rw [funext hf, funext hg]

theorem insTest_and_not {f f' : SimpleIns → Bool} {g g' : ComplexIns → Bool} :
    (insTest u f g p && !insTest u f' g' p) =
      insTest u (fun i => f i && !f' i) (fun i => g i && !g' i) p := by
  unfold insTest
  split
  · cases SimpleIns.ofCode (u.getPU8 (p + 1)) <;> simp
  · cases ComplexIns.ofCode (u.getPU16 p) <;> simp

theorem ComplexIns.cleanable_eq_cleaned (i : ComplexIns) : i.cleanable = i.cleaned := by
  cases i with
  | data d => cases d <;> rfl
  | _ => rfl

/-- The compiler records what the clean functions handle, but for outputs to local elements. -/
theorem recordable_eq : recordable u p = (clearable u p && !isOutLm u p) := by
  rw [recordable, clearable, isOutLm, insTest_and_not]
  refine insTest_congr (fun i => ?_) fun i => by simp [ComplexIns.cleanable_eq_cleaned]
  cases i with
  | coil c e ext => cases c <;> rfl
  | coilLm c => cases c <;> rfl
  | _ => rfl

theorem recordableIn_eq : recordableIn u k p = (clearableIn u k p && !isOutLm u p) := by
  cases k with
  | step => exact recordable_eq
  | sub =>
    rw [clearableIn, isOutLm, insTest_and_not]
    refine insTest_congr (fun i => ?_) fun i => by simp [ComplexIns.cleanable_eq_cleaned]
    cases i <;> rfl

theorem recordable_of_sub (h : recordableIn u .sub p = true) : recordable u p = true := by
  simp only [recordableIn, insTest] at h
  simp only [recordable, insTest]
  split at h
  · rename_i hs
    rw [if_pos hs]
    cases hdec : SimpleIns.ofCode (u.getPU8 (p + 1)) with
    | none => simp [hdec] at h
    | some i => cases i <;> simp_all [SimpleIns.cleanableInSub, SimpleIns.cleanable]
  · rename_i hs
    rwa [if_neg hs]

/-! ## Collecting -/

theorem collect_snoc (hps : (ps ++ [p]).Pairwise (· < ·)) :
    collect u R (ps ++ [p]) = if R ps p then (collect u R ps).add u p else collect u R ps := by
  unfold collect InsList.add
  rw [select_snoc hps, select_snoc hps]
  by_cases hs : IsSimple u p <;> cases hR : R ps p <;>
    simp [hs, InsList.addSimp, InsList.addComp]

theorem collect_eq_init_iff :
    collect u R ps = .init ↔ ∀ q ∈ ps, R (before ps q) q = false := by
  unfold collect InsList.init
  rw [InsList.mk.injEq, select_eq_nil_iff, select_eq_nil_iff]
  constructor
  · rintro ⟨hsimp, hcomp⟩ q hq
    by_cases hs : IsSimple u q
    · simpa [hs] using hsimp q hq
    · simpa [hs] using hcomp q hq
  · intro h
    exact ⟨fun q hq => by simp [h q hq], fun q hq => by simp [h q hq]⟩

theorem collect_eq_iff {R' : List Nat → Nat → Bool}
    (himp : ∀ pre q, R pre q = true → R' pre q = true) :
    collect u R ps = collect u R' ps ↔
      ∀ q ∈ ps, R' (before ps q) q = true → R (before ps q) q = true := by
  unfold collect
  rw [InsList.mk.injEq, select_eq_iff, select_eq_iff]
  · constructor
    · rintro ⟨hsimp, hcomp⟩ q hq hR'
      by_cases hs : IsSimple u q
      · simpa [hs, hR'] using hsimp q hq
      · simpa [hs, hR'] using hcomp q hq
    · intro h
      refine ⟨fun q hq => ?_, fun q hq => ?_⟩ <;>
      · simp only [Bool.and_eq_true]
        exact fun hq' => ⟨hq'.1, h q hq hq'.2⟩
  · intro pre q
    simp only [Bool.and_eq_true]
    exact fun h => ⟨h.1, himp pre q h.2⟩
  · intro pre q
    simp only [Bool.and_eq_true]
    exact fun h => ⟨h.1, himp pre q h.2⟩

theorem mem_collect : q ∈ (collect u R ps).simp ∨ q ∈ (collect u R ps).comp ↔
    q ∈ ps ∧ R (before ps q) q = true := by
  by_cases hs : IsSimple u q <;> simp [collect, hs]

/-- Two collections without a common instruction are equal only if both are empty. -/
theorem collect_eq_init_of_disjoint {R' : List Nat → Nat → Bool}
    (heq : collect u R ps = collect u R' ps)
    (hdisj : ∀ pre q, R pre q = true → R' pre q = false) : collect u R ps = .init := by
  rw [collect_eq_init_iff]
  intro q hq
  by_contra hR
  have hR : R (before ps q) q = true := by simpa using hR
  have hmem := mem_collect (u := u) |>.mpr ⟨hq, hR⟩
  rw [heq, mem_collect, hdisj _ _ hR] at hmem
  cases hmem.2

/-! ## Recording one instruction -/

theorem addEntry_ok {f : CompState → CompState} (h : s.addEntry alloc f = (.ok (), t)) :
    t = f { s with mallocs := s.mallocs + 1 } := by
  unfold CompState.addEntry at h
  split at h
  · exact (Prod.mk.inj h).2.symm
  · cases h

/-- The loop over the open master-control blocks changes the block of each level once. -/
theorem addEntryMc_ok {f : InsList → InsList} {m i : Nat}
    (h : s.addEntryMc alloc f m i = (.ok (), t))
    (hinj : ∀ x y, x < i + m → y < i + m → s.mcListPtr x = s.mcListPtr y → x = y) :
    (∀ k n, t.listOf k n = s.listOf k n) ∧
    ∀ j : Nat, t.mcBlocks[j]? = s.mcBlocks[j]?.map fun b =>
      if ∃ x, x < i + m ∧ i ≤ x ∧ s.mcListPtr x = j then { b with ins := f b.ins } else b := by
  induction m generalizing i s with
  | zero =>
    obtain rfl : s = t := (Prod.mk.inj h).2
    refine ⟨fun _ _ => rfl, fun j => ?_⟩
    have : ¬ ∃ x, x < i + 0 ∧ i ≤ x ∧ s.mcListPtr x = j := by
      rintro ⟨x, hx, hx', -⟩
      omega
    simp only [this, if_false, map_id']
  | succ m ih =>
    rw [CompState.addEntryMc] at h
    split at h
    · rename_i s₁ hadd
      have hs₁ := addEntry_ok hadd
      obtain ⟨hlists, hblocks⟩ := ih h (by
        rw [hs₁]
        exact fun x y hx hy => hinj x y (by omega) (by omega))
      refine ⟨fun k n => ?_, fun j => ?_⟩
      · rw [hlists, hs₁]
        cases k <;> rfl
      · have hptr : s₁.mcListPtr = s.mcListPtr := by rw [hs₁]; rfl
        have hmod : s₁.mcBlocks[j]? = s.mcBlocks[j]?.map fun b =>
            if s.mcListPtr i = j then { b with ins := f b.ins } else b := by
          rw [hs₁]
          exact List.getElem?_modify _ _ _ _
        rw [hblocks j, hmod, map_map, hptr]
        refine congrArg (Option.map · _) (funext fun b => ?_)
        by_cases hj : s.mcListPtr i = j
        · have hlater : ¬ ∃ x, x < i + 1 + m ∧ i + 1 ≤ x ∧ s.mcListPtr x = j := by
            rintro ⟨x, hx, hx', hxj⟩
            have := hinj x i (by omega) (by omega) (hxj.trans hj.symm)
            omega
          have hnow : ∃ x, x < i + (m + 1) ∧ i ≤ x ∧ s.mcListPtr x = j :=
            ⟨i, by omega, le_rfl, hj⟩
          rw [comp_apply, if_pos hj, if_neg hlater, if_pos hnow]
        · have hiff : (∃ x, x < i + 1 + m ∧ i + 1 ≤ x ∧ s.mcListPtr x = j) ↔
              ∃ x, x < i + (m + 1) ∧ i ≤ x ∧ s.mcListPtr x = j := by
            constructor
            · rintro ⟨x, hx, hx', hxj⟩
              exact ⟨x, by omega, by omega, hxj⟩
            · rintro ⟨x, hx, hx', hxj⟩
              have : x ≠ i := fun h => hj (h ▸ hxj)
              exact ⟨x, by omega, by omega, hxj⟩
          rw [comp_apply, if_neg hj]
          exact ite_congr (propext hiff) (fun _ => rfl) fun _ => rfl
    · cases h

/-- What a successful recording does, in terms of the flag and the pointers. -/
theorem addIns_ok {f : InsList → InsList} {b : Bool} (h : s.addIns alloc f b = (.ok (), t))
    (hinj : ∀ x y, x < s.nestedLevel → y < s.nestedLevel →
      s.mcListPtr x = s.mcListPtr y → x = y) :
    (∀ k n, t.listOf k n =
      if s.flag = k.flag ∧ (k = .sub → b = true) ∧ s.ptrOf k = some n then f (s.listOf k n)
      else s.listOf k n) ∧
    ∀ j : Nat, t.mcBlocks[j]? = s.mcBlocks[j]?.map fun m =>
      if s.flag = .mcMcr ∧ ∃ x, x < s.nestedLevel ∧ s.mcListPtr x = j
      then { m with ins := f m.ins } else m := by
  unfold CompState.addIns at h
  cases hflag : s.flag with
  | normal =>
    rw [hflag] at h
    obtain rfl : s = t := (Prod.mk.inj h).2
    exact ⟨fun k n => by cases k <;> simp [BlockKind.flag], fun j => by simp⟩
  | mcMcr =>
    rw [hflag] at h
    obtain ⟨hlists, hblocks⟩ := addEntryMc_ok (i := 0) h (by simpa using hinj)
    exact ⟨fun k n => by rw [hlists]; cases k <;> simp [BlockKind.flag],
      fun j => by simpa using hblocks j⟩
  | stl =>
    rw [hflag] at h
    dsimp only at h
    split at h
    · rename_i m hm
      have ht := addEntry_ok h
      refine ⟨fun k n => ?_, fun j => by simp [ht, CompState.modifyStl]⟩
      cases k with
      | sub => simp [ht, BlockKind.flag, CompState.listOf, CompState.modifyStl]
      | step =>
        simp only [ht, BlockKind.flag, CompState.listOf, CompState.modifyStl, CompState.ptrOf, hm,
          update_apply, some.injEq, reduceCtorEq, false_implies, true_and]
        by_cases hn : n = m
        · simp [hn]
        · rw [if_neg hn, if_neg (Ne.symm hn)]
    · rename_i hm
      obtain rfl : s = t := (Prod.mk.inj h).2
      exact ⟨fun k n => by cases k <;> simp [BlockKind.flag, CompState.ptrOf, hm], fun j => by simp⟩
  | sub =>
    rw [hflag] at h
    dsimp only at h
    split at h
    · rename_i m hm
      have ht := addEntry_ok h
      refine ⟨fun k n => ?_, fun j => by simp [ht, CompState.modifySbr]⟩
      cases k with
      | step => simp [ht, BlockKind.flag, CompState.listOf, CompState.modifySbr]
      | sub =>
        simp only [ht, BlockKind.flag, CompState.listOf, CompState.modifySbr, CompState.ptrOf, hm,
          update_apply, some.injEq, implies_true, true_and]
        by_cases hn : n = m
        · simp [hn]
        · rw [if_neg hn, if_neg (Ne.symm hn)]
    · rename_i hno
      obtain rfl : s = t := (Prod.mk.inj h).2
      refine ⟨fun k n => ?_, fun j => by simp⟩
      cases k with
      | step => simp [BlockKind.flag]
      | sub =>
        rw [if_neg]
        rintro ⟨-, hb, hptr⟩
        exact hno n (hb rfl) hptr

theorem InsList.add_simple (h : IsSimple u p) : InsList.add u p = (·.addSimp p) :=
  funext fun _ => if_pos h

theorem InsList.add_complex (h : ¬ IsSimple u p) : InsList.add u p = (·.addComp p) :=
  funext fun _ => if_neg h

/-- A pass that moves on has recorded the instruction, if it is one to record. -/
theorem recorded_of_ok (h : compilerIns alloc u p s = (.ok q, s')) :
    (recordable u p = true → s.addIns alloc (InsList.add u p) (recordableIn u .sub p) =
      (.ok (), recorded alloc u p s)) ∧
    (recordable u p = false → recorded alloc u p s = s) := by
  unfold compilerIns at h
  simp only [recorded, recordable, recordableIn, insTest]
  by_cases hs : IsSimple u p
  · rw [if_pos hs] at h
    simp only [hs, if_true, InsList.add_simple]
    unfold plcAddInsToSimpleList at h ⊢
    cases hdec : SimpleIns.ofCode (u.getPU8 (p + 1)) with
    | none => simp
    | some i =>
      simp only [hdec, any_some] at h ⊢
      cases hc : i.cleanable with
      | false => simp
      | true =>
        simp only [hc, if_true] at h ⊢
        rcases hadd : s.addIns alloc (·.addSimp p) i.cleanableInSub with ⟨_ | _, t⟩
        · simp [hadd] at h
        · simp
  · rw [if_neg hs] at h
    simp only [hs, if_false, InsList.add_complex, not_false_eq_true]
    unfold plcAddInsToComplexList at h ⊢
    cases hdec : ComplexIns.ofCode (u.getPU16 p) with
    | none => simp
    | some i =>
      simp only [hdec, any_some] at h ⊢
      cases hc : i.cleanable with
      | false => simp
      | true =>
        simp only [hc, if_true] at h ⊢
        rcases hadd : s.addIns alloc (·.addComp p) true with ⟨_ | _, t⟩
        · simp [hadd] at h
        · simp

/-- What a pass that moves on records, in terms of the flag and the pointers. -/
theorem recorded_spec (h : compilerIns alloc u p s = (.ok q, s'))
    (hinj : ∀ x y, x < s.nestedLevel → y < s.nestedLevel →
      s.mcListPtr x = s.mcListPtr y → x = y) :
    (∀ k n, (recorded alloc u p s).listOf k n =
      if s.flag = k.flag ∧ recordableIn u k p = true ∧ s.ptrOf k = some n
      then (s.listOf k n).add u p else s.listOf k n) ∧
    ∀ j : Nat, (recorded alloc u p s).mcBlocks[j]? = s.mcBlocks[j]?.map fun m =>
      if s.flag = .mcMcr ∧ recordable u p = true ∧ ∃ x, x < s.nestedLevel ∧ s.mcListPtr x = j
      then { m with ins := m.ins.add u p } else m := by
  obtain ⟨hrec, hno⟩ := recorded_of_ok h
  cases hr : recordable u p with
  | false =>
    have hk : ∀ k, recordableIn u k p = false := by
      intro k
      cases k with
      | step => exact hr
      | sub => exact Bool.eq_false_iff.mpr fun hsub => by simp [recordable_of_sub hsub] at hr
    rw [hno hr]
    exact ⟨fun k n => by simp [hk k], fun j => by simp⟩
  | true =>
    obtain ⟨hlists, hblocks⟩ := addIns_ok (hrec hr) hinj
    refine ⟨fun k n => ?_, fun j => by rw [hblocks j]; simp⟩
    rw [hlists k n]
    refine if_congr ?_ rfl rfl
    cases k with
    | sub => simp
    | step => simp [recordableIn, hr]

end Kalyke
