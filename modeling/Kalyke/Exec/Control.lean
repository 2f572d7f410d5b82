-- SUMMARY: What instructions and clean-ups do to the call level and the loop stacks.
import Kalyke.Exec.Steps

/-!
# Call Level and Loop Stacks

Of all instructions only `FOR`, `NEXT` and `CJ` touch a loop stack, that of the current call level,
and only `FOR` makes it longer. The call level changes in a `CALL` that enters its subroutine, and
during a clean-up, which puts it back.
-/

namespace Kalyke

open List Function

variable {out : Outside} {t : CompState} {u : Ucode} {now : BitVec 32} {env : RunEnv} {plc : Plc}
variable {p : Nat} {r : InsResult}

/-- The call level, the return addresses and the loop stacks are those of `plc`. -/
structure Plc.SameControl (plc plc' : Plc) : Prop where
  forNext : plc'.forNext = plc.forNext
  sbrNestedNum : plc'.sbrNestedNum = plc.sbrNestedNum
  retPc : plc'.retPc = plc.retPc

namespace Plc.SameControl

variable {plc' plc'' : Plc}

theorem refl (plc : Plc) : plc.SameControl plc := ⟨rfl, rfl, rfl⟩

theorem onStore (f : Store → Store) : plc.SameControl (plc.onStore f) := ⟨rfl, rfl, rfl⟩

theorem trans (h : plc.SameControl plc') (h' : plc'.SameControl plc'') : plc.SameControl plc'' :=
  ⟨h'.forNext.trans h.forNext, h'.sbrNestedNum.trans h.sbrNestedNum, h'.retPc.trans h.retPc⟩

theorem loops (h : plc.SameControl plc') : plc'.loops = plc.loops := by
  rw [Plc.loops, h.forNext, h.sbrNestedNum, Plc.loops]

end Plc.SameControl

/-! ## Clean-ups -/

/-- A clean-up puts the call level back. -/
theorem cleanRelation_sameControl : CleanRelation Plc.SameControl where
  trans := .trans
  store := fun _ s => .onStore fun _ => s
  call := fun _ _ _ h => ⟨h.forNext, congrArg (· - 1) h.sbrNestedNum, h.retPc⟩

/-! ## Instructions -/

/-- `run_ci_for_ins` is executed and stores into the loop stack: the instruction is a `FOR` and its
operand can be read. -/
def StoresLoop (u : Ucode) (env : RunEnv) (plc : Plc) : Prop :=
  ComplexIns.ofCode (u.getPU16 env.pc) = some .for_ ∧
    ∃ xs, getWord u (env.pc + 2) plc.store plc.sbrNestedNum 0 1 = (.ok (), xs)

def ReadsLoops (u : Ucode) (env : RunEnv) : Prop :=
  ComplexIns.ofCode (u.getPU16 env.pc) = some .next ∨
    ComplexIns.ofCode (u.getPU16 env.pc) = some .cj ∧ getPowerFlow env.inPF = true

/-- What an executed instruction does to the control state: the loop stack of the current level does
not grow but by a `FOR`, and everything else stays as it is. -/
structure ControlChange (u : Ucode) (env : RunEnv) (plc plc' : Plc) : Prop where
  sbrNestedNum : plc'.sbrNestedNum = plc.sbrNestedNum
  retPc : plc'.retPc = plc.retPc
  others : ∀ k, k ≠ plc.sbrNestedNum → plc'.forNext k = plc.forNext k
  nestedNum : plc'.loops.nestedNum ≤ plc.loops.nestedNum ∨
    StoresLoop u env plc ∧ plc'.loops.nestedNum = plc.loops.nestedNum + 1

theorem Plc.SameControl.change {plc' : Plc} (h : plc.SameControl plc') :
    ControlChange u env plc plc' where
  sbrNestedNum := h.sbrNestedNum
  retPc := h.retPc
  others := fun k _ => by rw [h.forNext]
  nestedNum := .inl (Nat.le_of_eq (by rw [h.loops]))

/-- Only the loop stack of the current level is replaced. -/
theorem ControlChange.of_setLoops {l : ForNextIns}
    (h : l.nestedNum ≤ plc.loops.nestedNum ∨
      StoresLoop u env plc ∧ l.nestedNum = plc.loops.nestedNum + 1) :
    ControlChange u env plc (plc.setLoops l) where
  sbrNestedNum := rfl
  retPc := rfl
  others := fun k hk => update_of_ne hk _ _
  nestedNum := by rw [Plc.loops_setLoops]; exact h

theorem runCiForIns_change (hfor : ComplexIns.ofCode (u.getPU16 env.pc) = some .for_) :
    ControlChange u env plc (runCiForIns u env plc).plc := by
  unfold runCiForIns
  split
  · exact (Plc.SameControl.refl plc).change
  · rename_i xs hget
    dsimp only
    split
    · exact .of_setLoops (.inr ⟨⟨hfor, xs, hget⟩, rfl⟩)
    · exact .of_setLoops (.inl (Nat.le_refl _))

theorem nextTop_change {l : ForNextIns} (h : l.nestedNum ≤ plc.loops.nestedNum) :
    ControlChange u env plc (nextTop env plc l).plc := by
  unfold nextTop
  split <;> exact .of_setLoops (.inl h)

theorem runCiNextIns_change : ControlChange u env plc (runCiNextIns env plc).plc := by
  unfold runCiNextIns
  dsimp only
  split
  · exact (Plc.SameControl.refl plc).change
  · split
    · split
      · exact .of_setLoops (.inl (Nat.sub_le _ _))
      · exact nextTop_change (Nat.sub_le _ _)
    · exact nextTop_change (Nat.le_refl _)

theorem loopsKept_le (l : ForNextIns) (src dst n : Nat) : loopsKept l src dst n ≤ n := by
  induction n with
  | zero => exact Nat.le_refl _
  | succ n ih =>
    rw [loopsKept]
    split
    · exact Nat.le_succ_of_le ih
    · exact Nat.le_refl _

theorem runCiCjIns_change : ControlChange u env plc (runCiCjIns u env plc).plc := by
  unfold runCiCjIns
  split
  · exact .of_setLoops (.inl (loopsKept_le _ _ _ _))
  · exact (Plc.SameControl.refl plc).change

theorem runCiMcIns_sameControl : plc.SameControl (runCiMcIns out t u now env plc).plc := by
  have hclean (plc' : Plc) : plc'.SameControl (plcMcInsCleanElement out t u now env.pc plc').2 :=
    cleanRelation_sameControl.plcMcInsCleanElement env.pc plc'
  unfold runCiMcIns
  dsimp only
  split
  · exact ⟨rfl, rfl, rfl⟩
  · split
    · split <;> rename_i heq
      all_goals
        have h := hclean (plc.onStore (·.setEdge (u.getPU16 (env.pc + 6)) false))
        rw [heq] at h
        exact ⟨h.forNext, h.sbrNestedNum, h.retPc⟩
    · exact ⟨rfl, rfl, rfl⟩

theorem stlSingle_sameControl : plc.SameControl (stlSingle out t u now env plc).plc := by
  have hclean (step : Nat) (f : Store → Store) :
      plc.SameControl (plcStlInsCleanElement out t u now step (plc.onStore f)).2 :=
    (Plc.SameControl.onStore f).trans (cleanRelation_sameControl.plcStlInsCleanElement step _)
  unfold stlSingle
  dsimp only
  split
  · split
    · have h := hclean (u.getPU16 (env.pc + 4) % 256) (·.rstEdgeInit (u.getPU16 (env.pc + 6)))
      exact ⟨h.forNext, h.sbrNestedNum, h.retPc⟩
    · exact ⟨rfl, rfl, rfl⟩
  · split
    · exact hclean _ _
    · exact .refl plc

theorem runCiStlIns_sameControl : plc.SameControl (runCiStlIns out t u now env plc).plc := by
  unfold runCiStlIns
  dsimp only
  split
  · unfold stlSeries
    split <;> exact ⟨rfl, rfl, rfl⟩
  · have h {plc' : Plc} : plc'.SameControl (stlSingle out t u now env plc').plc :=
      stlSingle_sameControl
    exact ⟨h.forNext, h.sbrNestedNum, h.retPc⟩

theorem callWithoutPower_sameControl (id : Nat) :
    plc.SameControl (callWithoutPower out t u now env plc id).plc := by
  have hclean (room sbr : Nat) (plc' : Plc) :
      plc'.SameControl (plcCallInsCleanElement out t u now room sbr plc').2 :=
    cleanRelation_sameControl.plcCallInsCleanElement room sbr plc'
  unfold callWithoutPower
  dsimp only
  split
  · split <;> rename_i heq
    all_goals
      have h := hclean (maxSbrNestedLayer - plc.sbrNestedNum) (callSbrNumber u env.pc)
        { plc with isExec := update plc.isExec id false }
      rw [heq] at h
      exact ⟨h.forNext, h.sbrNestedNum, h.retPc⟩
  · exact .refl plc

theorem execDataIns_sameControl (d : DataIns) :
    plc.SameControl (execDataIns out u now env plc d).plc := by
  unfold execDataIns
  split
  · exact .refl plc
  · dsimp only
    split
    · exact .refl plc
    · split <;> exact ⟨rfl, rfl, rfl⟩

theorem execSimpleIns_sameControl (out : Outside) (u : Ucode) (env : RunEnv) (plc : Plc) :
    plc.SameControl (execSimpleIns out u env plc).plc := by
  unfold execSimpleIns
  split <;> exact ⟨rfl, rfl, rfl⟩

theorem execCompareIns_plc {w : CmpWidth} {k : CmpConn} {x : CmpRel} :
    (execCompareIns out u env plc w k x).plc = plc := by
  unfold execCompareIns
  split
  · split <;> rfl
  · rfl

/-- A `CALL` that does not enter its subroutine leaves the control state alone. -/
theorem runCiCallIns_done (h : runCiCallIns out t u now env plc = .done r) :
    plc.SameControl r.plc := by
  unfold runCiCallIns at h
  split at h
  · cases h
    exact .refl plc
  · rename_i id _
    split at h
    · cases h
      exact .refl plc
    · split at h
      · unfold callWithPower at h
        dsimp only at h
        split at h
        · split at h <;> cases h
          exact ⟨rfl, rfl, rfl⟩
        · cases h
          exact ⟨rfl, rfl, rfl⟩
      · cases h
        exact callWithoutPower_sameControl id

/-- A `CALL` that enters its subroutine goes one level up. -/
theorem runCiCallIns_call {entry : Nat} {cnt : ParaCnt} {plc' : Plc}
    (h : runCiCallIns out t u now env plc = .call entry cnt plc') :
    plc.sbrNestedNum < maxSbrNestedLayer ∧ plc'.sbrNestedNum = plc.sbrNestedNum + 1 ∧
      plc'.forNext = plc.forNext ∧
      plc'.retPc = update plc.retPc plc.sbrNestedNum env.pc := by
  unfold runCiCallIns at h
  split at h
  · cases h
  · split at h
    · cases h
    · rename_i hlevel
      split at h
      · unfold callWithPower at h
        dsimp only at h
        split at h
        · split at h <;> cases h
          exact ⟨Nat.lt_of_not_le hlevel, rfl, rfl, rfl⟩
        · cases h
      · cases h

/-- The instructions other than `FOR`, `NEXT` and `CJ` leave the control state alone. -/
theorem ComplexIns.exec_sameControl {i : ComplexIns} (h : i.exec out t u now env plc = .done r)
    (hi : i ≠ .for_ ∧ i ≠ .next ∧ i ≠ .cj) : plc.SameControl r.plc := by
  cases i with
  | for_ => exact absurd rfl hi.1
  | next => exact absurd rfl hi.2.1
  | cj => exact absurd rfl hi.2.2
  | mc => cases h; exact runCiMcIns_sameControl
  | stl => cases h; exact runCiStlIns_sameControl
  | call => exact runCiCallIns_done h
  | compare w k x => cases h; rw [execCompareIns_plc]; exact .refl plc
  | data d => cases h; exact execDataIns_sameControl d
  | csret => cases h; split <;> exact .refl plc
  | stop =>
    cases h
    unfold returnWithPower
    split <;> exact ⟨rfl, rfl, rfl⟩
  | _ => cases h; exact ⟨rfl, rfl, rfl⟩

theorem ComplexIns.exec_change {i : ComplexIns} (hi : ComplexIns.ofCode (u.getPU16 env.pc) = some i)
    (h : i.exec out t u now env plc = .done r) : ControlChange u env plc r.plc := by
  by_cases hloop : i ≠ .for_ ∧ i ≠ .next ∧ i ≠ .cj
  · exact (exec_sameControl h hloop).change
  · obtain rfl | rfl | rfl : i = .for_ ∨ i = .next ∨ i = .cj := by
      by_contra hne
      simp only [not_or] at hne
      exact hloop hne
    · cases h; exact runCiForIns_change hi
    · cases h; exact runCiNextIns_change
    · cases h; exact runCiCjIns_change

/-- What an instruction that is done does to the control state. -/
theorem execIns_change (h : execIns out t u now env plc = .done r) :
    ControlChange u env plc r.plc := by
  unfold execIns at h
  split at h
  · cases h
    exact (execSimpleIns_sameControl out u env plc).change
  · unfold execComplexIns at h
    split at h
    · rename_i i hi
      exact ComplexIns.exec_change hi h
    · cases h
      exact (Plc.SameControl.refl plc).change

/-- Only `CALL` enters a subroutine. -/
theorem execIns_call {entry : Nat} {cnt : ParaCnt} {plc' : Plc}
    (h : execIns out t u now env plc = .call entry cnt plc') :
    ComplexIns.ofCode (u.getPU16 env.pc) = some .call ∧
      runCiCallIns out t u now env plc = .call entry cnt plc' := by
  unfold execIns at h
  split at h
  · cases h
  · unfold execComplexIns at h
    split at h
    · rename_i i hi
      cases i <;> first | exact ⟨hi, h⟩ | cases h
    · cases h

/-- An instruction that does not access the loop stack leaves the control state alone. -/
theorem execIns_sameControl (h : execIns out t u now env plc = .done r)
    (hstores : ¬ StoresLoop u env plc) (hreads : ¬ ReadsLoops u env) : plc.SameControl r.plc := by
  unfold execIns at h
  split at h
  · cases h
    exact execSimpleIns_sameControl out u env plc
  · unfold execComplexIns at h
    split at h
    · rename_i i hi
      by_cases hloop : i ≠ .for_ ∧ i ≠ .next ∧ i ≠ .cj
      · exact ComplexIns.exec_sameControl h hloop
      · obtain rfl | rfl | rfl : i = .for_ ∨ i = .next ∨ i = .cj := by
          by_contra hne
          simp only [not_or] at hne
          exact hloop hne
        · cases h
          unfold runCiForIns
          split
          · exact .refl plc
          · rename_i xs hget
            exact absurd ⟨hi, xs, hget⟩ hstores
        · exact absurd (.inl hi) hreads
        · cases h
          unfold runCiCjIns
          split
          · rename_i hpower
            exact absurd (.inr ⟨hi, hpower⟩) hreads
          · exact .refl plc
    · cases h
      exact .refl plc

/-! ## Completed instructions -/

/-- The activations above that of `c` are at higher levels and leave its loop stack alone. -/
structure Above (c a : Config) : Prop where
  deeper : c.frames.length < a.frames.length
  level : a.plc.sbrNestedNum + c.frames.length = c.plc.sbrNestedNum + a.frames.length
  loops : a.plc.forNext c.plc.sbrNestedNum = c.plc.forNext c.plc.sbrNestedNum

/-- What a step from an activation above comes to, above or back in the activation of `c`. -/
theorem Above.step {c a b : Config} (h : Above c a) (hstep : step out t u now a = .inl b) :
    b.plc.sbrNestedNum + c.frames.length = c.plc.sbrNestedNum + b.frames.length ∧
      b.plc.forNext c.plc.sbrNestedNum = c.plc.forNext c.plc.sbrNestedNum := by
  have hdeeper := h.deeper
  have hlevel := h.level
  cases step_cases hstep with
  | ins r s hexec hret hstore hnext =>
    have hchange := execIns_change hexec
    subst hnext
    refine ⟨?_, (hchange.others _ (by omega)).trans h.loops⟩
    show r.plc.sbrNestedNum + _ = _
    rw [hchange.sbrNestedNum]
    exact hlevel
  | call entry cnt plc hexec hnext =>
    obtain ⟨-, hup, hloops, -⟩ := runCiCallIns_call (execIns_call hexec).2
    subst hnext
    refine ⟨?_, ?_⟩
    · show plc.sbrNestedNum + _ = _ + (a.frames.length + 1)
      omega
    · show update plc.forNext _ _ _ = _
      rw [update_of_ne (by omega), hloops, h.loops]
  | ret f fs r s hexec hret hframes hnext =>
    have hchange := execIns_change hexec
    subst hnext
    rw [hframes, length_cons] at hlevel hdeeper
    refine ⟨?_, (hchange.others _ (by omega)).trans h.loops⟩
    show r.plc.sbrNestedNum - 1 + _ = _ + fs.length
    rw [hchange.sbrNestedNum]
    omega

theorem above_of_enter {c a : Config} {f : Frame} (h : step out t u now c = .inl a)
    (hframes : a.frames = f :: c.frames) : Above c a := by
  obtain ⟨-, entry, cnt, plc, hexec⟩ := frame_of_call h hframes
  obtain ⟨-, hup, hloops, -⟩ := runCiCallIns_call (execIns_call hexec).2
  rw [Kalyke.step, hexec] at h
  obtain rfl := Sum.inl.inj h
  refine ⟨Nat.lt_succ_self _, ?_, ?_⟩
  · show plc.sbrNestedNum + _ = _ + (c.frames.length + 1)
    omega
  · show update plc.forNext _ _ _ = _
    rw [update_of_ne (by omega), hloops]

/-- As long as the activation entered is not left, the run stays above. -/
theorem above_of_run {c a b : Config} {f : Frame} (henter : step out t u now c = .inl a)
    (hframes : a.frames = f :: c.frames)
    (hrun : Relation.ReflTransGen
      (fun x y => Step out t u x y ∧ (f :: c.frames) <:+ y.frames) a b) : Above c b := by
  induction hrun with
  | refl => exact above_of_enter henter hframes
  | tail _ hlast ih =>
    obtain ⟨⟨now, hstep⟩, hsuffix⟩ := hlast
    obtain ⟨hlevel, hloops⟩ := ih.step hstep
    exact ⟨hsuffix.length_le, hlevel, hloops⟩

/-- An executed instruction leaves the call level as it was, and the loop stack too if it does not
access it. -/
theorem Completes.control {c c' : Config} (h : Completes out t u c c') :
    c'.plc.sbrNestedNum = c.plc.sbrNestedNum ∧
      (¬ StoresLoop u c.env c.plc → ¬ ReadsLoops u c.env → c'.plc.loops = c.plc.loops) := by
  cases h with
  | one hstep hframes =>
    obtain ⟨now, hstep⟩ := hstep
    cases step_cases hstep with
    | ins r s hexec hret hstore hnext =>
      subst hnext
      refine ⟨(execIns_change hexec).sbrNestedNum, fun hstores hreads => ?_⟩
      exact (execIns_sameControl hexec hstores hreads).loops
    | call entry cnt plc hexec hnext =>
      subst hnext
      exact absurd hframes (cons_ne_self _ _)
    | ret f fs r s hexec hret hfs hnext =>
      subst hnext
      rw [hfs] at hframes
      exact absurd hframes.symm (cons_ne_self _ _)
  | call f a b henter hf hrun hreturn hframes =>
    obtain ⟨now, henter⟩ := henter
    obtain ⟨now', hreturn⟩ := hreturn
    obtain ⟨hlevel, hloops⟩ := (above_of_run henter hf hrun).step hreturn
    rw [hframes] at hlevel
    have hsame : c'.plc.sbrNestedNum = c.plc.sbrNestedNum := by omega
    refine ⟨hsame, fun _ _ => ?_⟩
    rw [Plc.loops, hsame, hloops, Plc.loops]

end Kalyke
