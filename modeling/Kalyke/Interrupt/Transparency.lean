-- SUMMARY: What an interrupt program leaves of the program that it interrupts.
import Kalyke.Exec.LoopStack
import Kalyke.Exec.Sequence

/-!
# Interrupt Programs

`interrupt_task` runs an interrupt program by another call of `plc_run_user_program`, between two
instructions of the program that it interrupts. The registers of that call are its own. The call
level, the loop stacks, the return addresses, the step status and the local elements are those of
the interrupted program, and the first thing the call does is to empty the loop stack of its level.
-/

namespace Kalyke

open List Function

variable {out : Outside} {t : CompState} {u : Ucode} {now : BitVec 32}

/-! ## The Bookkeeping of the Interrupted Program -/

/-- The local elements of the layers up to a call level. -/
structure Store.SameLocals (n : Nat) (s s' : Store) : Prop where
  lm : ∀ i < lmRang * (n + 1), s'.lm i = s.lm i
  v : ∀ i < vRang * (n + 1), s'.v i = s.v i

/-- The entries in use of two loop stacks. -/
structure ForNextIns.SameEntries (l l' : ForNextIns) : Prop where
  nestedNum : l'.nestedNum = l.nestedNum
  entries : ∀ i < l.nestedNum, l'.loopCnt i = l.loopCnt i ∧
    l'.startUcodeAddr i = l.startUcodeAddr i ∧ l'.endUcodeAddr i = l.endUcodeAddr i

/-- A program resumes with the bookkeeping that it was interrupted with. -/
structure Plc.SameBookkeeping (plc plc' : Plc) : Prop where
  sbrNestedNum : plc'.sbrNestedNum = plc.sbrNestedNum
  forNext : ∀ k ≤ plc.sbrNestedNum, (plc.forNext k).SameEntries (plc'.forNext k)
  retPc : ∀ k < plc.sbrNestedNum, plc'.retPc k = plc.retPc k
  sfc : plc'.sfc = plc.sfc
  locals : plc.store.SameLocals plc.sbrNestedNum plc'.store

/-- An instruction of an interrupt program at the call level `n` does not touch what is not its own:
the step status, and local elements of the layers in use. -/
structure KeepsOff (u : Ucode) (n : Nat) (a : Config) (plc : Plc) : Prop where
  stl : ComplexIns.ofCode (u.getPU16 a.env.pc) ≠ some .stl
  ret : ComplexIns.ofCode (u.getPU16 a.env.pc) = some .ret → a.plc.sfc.sfcEnable = false
  locals : a.plc.store.SameLocals n plc.store

/-! ## Instructions -/

section

variable {a : Config}

/-- Only `STL` and `RET` change the step status. -/
theorem interruptedIns_sfc (hstl : ComplexIns.ofCode (u.getPU16 a.env.pc) ≠ some .stl)
    (hret : ComplexIns.ofCode (u.getPU16 a.env.pc) = some .ret → a.plc.sfc.sfcEnable = false) :
    (execIns out t u now a.env a.plc).plc.sfc = a.plc.sfc := by
  by_cases hcode : ComplexIns.ofCode (u.getPU16 a.env.pc) = some .ret
  · have hoff := hret hcode
    unfold execIns
    split
    · exact execSimpleIns_sfc
    · unfold execComplexIns
      rw [hcode]
      show { a.plc.sfc with sfcEnable := false } = a.plc.sfc
      rw [← hoff]
  · exact execIns_sfc fun h => h.elim hstl hcode

end

/-! ## The Interrupt Program -/

/-- What holds while an interrupt program runs at the call level of the interrupted program. -/
structure Interrupting (plc : Plc) (a : Config) : Prop where
  level : a.plc.sbrNestedNum = plc.sbrNestedNum + a.frames.length
  forNext : ∀ k < plc.sbrNestedNum, a.plc.forNext k = plc.forNext k
  retPc : ∀ k < plc.sbrNestedNum, a.plc.retPc k = plc.retPc k
  sfc : a.plc.sfc = plc.sfc
  locals : plc.store.SameLocals plc.sbrNestedNum a.plc.store

namespace Interrupting

variable {plc : Plc} {a b : Config}

theorem start (plc : Plc) (entry : Nat) : Interrupting plc (enterProgram entry [] plc) where
  level := rfl
  forNext _ hk := update_of_ne (Nat.ne_of_lt hk) _ _
  retPc _ _ := rfl
  sfc := rfl
  locals := ⟨fun _ _ => rfl, fun _ _ => rfl⟩

theorem step (h : Interrupting plc a) (hstep : Kalyke.step out t u now a = .inl b)
    (hkeeps : KeepsOff u plc.sbrNestedNum a b.plc) : Interrupting plc b := by
  have hlevel := h.level
  have hlocals : plc.store.SameLocals plc.sbrNestedNum b.plc.store :=
    ⟨fun i hi => (hkeeps.locals.lm i hi).trans (h.locals.lm i hi),
      fun i hi => (hkeeps.locals.v i hi).trans (h.locals.v i hi)⟩
  cases step_cases hstep with
  | ins r s hexec hret hstore hnext =>
    have hchange := execIns_change hexec
    have hsfc : r.plc.sfc = a.plc.sfc := by
      have hkept : (execIns out t u now a.env a.plc).plc.sfc = a.plc.sfc :=
        interruptedIns_sfc hkeeps.stl hkeeps.ret
      rwa [hexec] at hkept
    subst hnext
    refine ⟨hchange.sbrNestedNum.trans hlevel, fun k hk => ?_, fun k hk => ?_, hsfc.trans h.sfc,
      hlocals⟩
    · exact (hchange.others k (by omega)).trans (h.forNext k hk)
    · exact (congrFun hchange.retPc k).trans (h.retPc k hk)
  | call entry cnt plc' hexec hnext =>
    have hcall := (execIns_call hexec).2
    obtain ⟨-, hup, hloops, hback⟩ := runCiCallIns_call hcall
    have hsfc : plc'.sfc = a.plc.sfc := by
      have hkept : (execIns out t u now a.env a.plc).plc.sfc = a.plc.sfc :=
        interruptedIns_sfc hkeeps.stl hkeeps.ret
      rwa [hexec] at hkept
    subst hnext
    refine ⟨?_, fun k hk => ?_, fun k hk => ?_, hsfc.trans h.sfc, hlocals⟩
    · show plc'.sbrNestedNum = plc.sbrNestedNum + (a.frames.length + 1)
      omega
    · show update plc'.forNext plc'.sbrNestedNum _ k = plc.forNext k
      rw [update_of_ne (by omega), hloops, h.forNext k hk]
    · show plc'.retPc k = plc.retPc k
      rw [hback, update_of_ne (by omega), h.retPc k hk]
  | ret f fs r s hexec hret hframes hnext =>
    have hchange := execIns_change hexec
    have hsfc : r.plc.sfc = a.plc.sfc := by
      have hkept : (execIns out t u now a.env a.plc).plc.sfc = a.plc.sfc :=
        interruptedIns_sfc hkeeps.stl hkeeps.ret
      rwa [hexec] at hkept
    rw [hframes, length_cons] at hlevel
    subst hnext
    refine ⟨?_, fun k hk => ?_, fun k hk => ?_, hsfc.trans h.sfc, hlocals⟩
    · show r.plc.sbrNestedNum - 1 = _ + fs.length
      rw [hchange.sbrNestedNum]
      omega
    · exact (hchange.others k (by omega)).trans (h.forNext k hk)
    · exact (congrFun hchange.retPc k).trans (h.retPc k hk)

theorem run (h : Interrupting plc a)
    (hrun : Relation.ReflTransGen
      (fun a b => Step out t u a b ∧ KeepsOff u plc.sbrNestedNum a b.plc) a b) :
    Interrupting plc b := by
  induction hrun with
  | refl => exact h
  | tail _ hlast ih =>
    obtain ⟨⟨now, hstep⟩, hkeeps⟩ := hlast
    exact ih.step hstep hkeeps

end Interrupting

/-- The last instruction of an activation for which no `CALL` waits. -/
theorem exec_of_ends {a : Config} {f : Finish} (h : step out t u now a = .inr f)
    (hframes : a.frames = []) :
    ∃ r s, execIns out t u now a.env a.plc = .done r ∧ f.plc = { r.plc with store := s } := by
  unfold step at h
  split at h
  · rename_i r hexec
    rw [hframes] at h
    refine ⟨r, f.plc.store, hexec, ?_⟩
    unfold afterIns at h
    split at h
    · obtain rfl := Sum.inr.inj h
      rfl
    · split at h
      · cases h
      · dsimp only at h
        split at h
        · obtain rfl := Sum.inr.inj h
          rfl
        · cases h
  · cases h

/-- An interrupt program that keeps off the step status and the local elements of the interrupted
program, that comes back from all its subroutines and leaves no loop of its own on the stack, is
transparent just if the interrupted program is in no loop. -/
theorem interrupt_transparent_iff {c a : Config} {f : Finish} (entry : Nat)
    (hrun : Relation.ReflTransGen
      (fun a b => Step out t u a b ∧ KeepsOff u c.plc.sbrNestedNum a b.plc)
      (enterProgram entry [] c.plc) a)
    (hend : Ends out t u a f) (hlast : KeepsOff u c.plc.sbrNestedNum a f.plc)
    (hframes : a.frames = [])
    (hloops : a.plc.loops.nestedNum = 0 ∧ ¬ StoresLoop u a.env a.plc) :
    c.plc.SameBookkeeping f.plc ↔ c.plc.loops.nestedNum = 0 := by
  have h := (Interrupting.start c.plc entry).run hrun
  obtain ⟨now, hend⟩ := hend
  obtain ⟨r, s, hexec, hplc⟩ := exec_of_ends hend hframes
  have hchange := execIns_change hexec
  have hlevel : f.plc.sbrNestedNum = c.plc.sbrNestedNum := by
    rw [hplc]
    rw [hchange.sbrNestedNum, h.level, hframes]
    rfl
  have hempty : (f.plc.forNext c.plc.sbrNestedNum).nestedNum = 0 := by
    have hle := hchange.nestedNum.resolve_right fun hstores => hloops.2 hstores.1
    rw [hloops.1] at hle
    rw [← hlevel, hplc]
    exact Nat.le_zero.mp hle
  constructor
  · intro hsame
    rw [Plc.loops, ← (hsame.forNext _ (Nat.le_refl _)).nestedNum, hempty]
  · intro hno
    refine ⟨hlevel, fun k hk => ?_, fun k hk => ?_, ?_, ?_⟩
    · rcases Nat.lt_or_eq_of_le hk with hk | rfl
      · have hforNext : f.plc.forNext k = c.plc.forNext k := by
          rw [hplc]
          have hbase := h.level
          exact (hchange.others k (by omega)).trans (h.forNext k hk)
        rw [hforNext]
        exact ⟨rfl, fun _ _ => ⟨rfl, rfl, rfl⟩⟩
      · have hno : (c.plc.forNext c.plc.sbrNestedNum).nestedNum = 0 := hno
        refine ⟨hempty.trans hno.symm, fun i hi => ?_⟩
        rw [hno] at hi
        cases hi
    · rw [hplc]
      exact (congrFun hchange.retPc k).trans (h.retPc k hk)
    · rw [hplc]
      have hkept : (execIns out t u now a.env a.plc).plc.sfc = a.plc.sfc :=
        interruptedIns_sfc hlast.stl hlast.ret
      rw [hexec] at hkept
      exact hkept.trans h.sfc
    · exact ⟨fun i hi => (hlast.locals.lm i hi).trans (h.locals.lm i hi),
        fun i hi => (hlast.locals.v i hi).trans (h.locals.v i hi)⟩

/-- `LDI X0; FOR K1; NEXT; FEND; INT 0; IRET`. -/
def interruptFile : Ucode :=
  [0, 0, 0, 0, 0, 0, 54, 0, 0, 0] ++ replicate 18 0 ++ [0x00, 0x20] ++ oneLoop ++
    [0x2B, 0xF0] ++ [0x02, 0xF0, 0x00, 0x02] ++ [0x25, 0xF0] ++ replicate 4 0

/-- Before the loop, the interrupt program is transparent. -/
theorem interrupt_transparent_before_loop : ∃ a f,
    Step .idle (tablesOf interruptFile 7) interruptFile (enterProgram 44 [] (scanStart .off).plc) a ∧
      Ends .idle (tablesOf interruptFile 7) interruptFile a f ∧
      (scanStart .off).plc.SameBookkeeping f.plc := by
  have hrun : ∃ a, step .idle (tablesOf interruptFile 7) interruptFile 0
        (enterProgram 44 [] (scanStart .off).plc) = .inl a ∧
      KeepsOff interruptFile 0 (enterProgram 44 [] (scanStart .off).plc) a.plc ∧ a.frames = [] ∧
      (a.plc.loops.nestedNum = 0 ∧ ¬ StoresLoop interruptFile a.env a.plc) ∧
      ∃ f, step .idle (tablesOf interruptFile 7) interruptFile 0 a = .inr f ∧
        KeepsOff interruptFile 0 a f.plc :=
    ⟨_, rfl, ⟨by decide, by decide, ⟨fun _ _ => rfl, fun _ _ => rfl⟩⟩, rfl,
      ⟨rfl, fun hstores => absurd hstores.1 (by decide)⟩, _, rfl,
      ⟨by decide, by decide, ⟨fun _ _ => rfl, fun _ _ => rfl⟩⟩⟩
  obtain ⟨a, hstep, hkeeps, hframes, hloops, f, hend, hlast⟩ := hrun
  refine ⟨a, f, ⟨0, hstep⟩, ⟨0, hend⟩, ?_⟩
  exact (interrupt_transparent_iff (c := scanStart .off) 44 (.single ⟨⟨0, hstep⟩, hkeeps⟩)
    ⟨0, hend⟩ hlast hframes hloops).mpr rfl

/-- In the loop, the interrupt program takes the loop off the stack. -/
theorem loop_lost_in_interrupt : ¬ ∀ (out : Outside) (t : CompState) (u : Ucode),
    Accepts enoughMemory u t → ∀ c, Reachable out t u c → ∀ n entry, t.intPara n = some entry →
      ∀ a f, Relation.ReflTransGen (Step out t u) (enterProgram entry [] c.plc) a →
        Ends out t u a f → c.plc.SameBookkeeping f.plc := by
  intro h
  have hrun : ∃ c, runFor .idle (tablesOf interruptFile 7) interruptFile 2 (scanStart .off) = some c ∧
      c.plc.sbrNestedNum = 0 ∧ (c.plc.forNext 0).nestedNum = 1 ∧
      ∃ a, step .idle (tablesOf interruptFile 7) interruptFile 0 (enterProgram 44 [] c.plc) =
        .inl a ∧ ∃ f, step .idle (tablesOf interruptFile 7) interruptFile 0 a = .inr f ∧
        (f.plc.forNext 0).nestedNum = 0 :=
    ⟨_, rfl, rfl, rfl, _, rfl, _, rfl, rfl⟩
  obtain ⟨c, hc, hlevel, hloop, a, hstep, f, hend, hlost⟩ := hrun
  have hsame := h .idle (tablesOf interruptFile 7) interruptFile (accepts_tablesOf ⟨_, rfl⟩) c
    ⟨.off, reaches_of_runFor hc⟩ 0 44 rfl a f (.single ⟨0, hstep⟩) ⟨0, hend⟩
  have hnested := (hsame.forNext 0 (Nat.zero_le _)).nestedNum
  rw [hloop, hlost] at hnested
  cases hnested

end Kalyke
