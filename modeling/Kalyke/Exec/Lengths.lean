-- SUMMARY: When the interpreter advances over every instruction as the compiler did.
import Kalyke.Compiler.Accepted
import Kalyke.Exec.Run

/-!
# Interpreter and Compiler

The compiler and the interpreter find the length of an instruction in two switches of their own. In
an accepted file the interpreter stays on the compiler's instruction boundaries exactly if the
program is free of the instructions on which the two disagree, and does not run off its end.
-/

namespace Kalyke

open List Option

variable {alloc : Nat → Bool} {out : Outside} {t : CompState} {u : Ucode} {now : BitVec 32}
variable {env : RunEnv} {plc : Plc} {p q n : Nat} {r : InsResult}

/-- The interpreter has a case for a complex instruction. -/
def ComplexIns.hasCase : ComplexIns → Bool
  | data d => d.execLength.isSome
  | _ => true

/-- The interpreter has a case for the opcode at `p`. -/
def HasCase (u : Ucode) (p : Nat) : Prop :=
  if RunsSimple u p then
    ∃ i, SimpleIns.ofCode (u.getPU8 (p + 1)) = some i ∧ i.execLength.isSome
  else ∃ i, ComplexIns.ofCode (u.getPU16 p) = some i ∧ i.hasCase

/-- In some state the instruction at `p` falls through and advances by `n`: it is done, neither
returning nor jumping, at once or when its subroutine has come back. -/
inductive FallsThrough (t : CompState) (u : Ucode) (p n : Nat) : Prop where
  | done (out : Outside) (now : BitVec 32) (env : RunEnv) (plc : Plc) (r : InsResult)
      (hpc : env.pc = p) (hexec : execIns out t u now env plc = .done r)
      (hret : r.ret.leaves = false) (hflow : r.flow = .next n)
  | call (out : Outside) (now : BitVec 32) (env : RunEnv) (plc plc' plc'' : Plc) (entry : Nat)
      (c : ParaCnt) (hpc : env.pc = p) (hexec : execIns out t u now env plc = .call entry c plc')
      (hflow : (callReturn u env plc'' c).flow = .next n)

def StraightLine (t : CompState) (u : Ucode) : Nat → Nat → Prop :=
  Relation.ReflTransGen fun p q => ∃ n, FallsThrough t u p n ∧ q = p + n

/-- At every boundary the compile loop visits, the interpreter has a case for the opcode and falls
through by the length the compiler moved, and straight-line execution stays on these boundaries. -/
structure FollowsCompiler (t : CompState) (u : Ucode) : Prop where
  hasCase : ∀ p, Visited u p → HasCase u p
  length : ∀ p, Visited u p → ∀ n, FallsThrough t u p n → nextPtr u p = some (p + n)
  straight : ∀ p q, p = ucodeStart ∨ Visited u p → StraightLine t u p q → Visited u q

/-- The instructions on which the compiler and the interpreter disagree: the interpreter has no case
for some, it finds string literals by other bytes, and it takes a run of steps to be two. -/
def ComplexIns.Drifts (u : Ucode) (p : Nat) : ComplexIns → Prop
  | data d => d.execLength = none
  | stradd => straddMoveLength u p ≠ straddExecLength u p
  | strinstr => strinstrMoveLength u p ≠ strinstrExecLength u p
  | stl => 3 ≤ stlRun u p
  | _ => False

/-- The instruction at `p` is one on which the two disagree. -/
def Drifts (u : Ucode) (p : Nat) : Prop :=
  if IsSimple u p then SimpleIns.ofCode (u.getPU8 (p + 1)) = some (.coilLm .out)
  else u.getPU16 p = ciEnd ∨ ∃ i, ComplexIns.ofCode (u.getPU16 p) = some i ∧ i.Drifts u p

/-- A complex instruction that never falls through: a return, a loop whose count is zero in every
state, or a loading comparison with an operand that no state accepts. -/
def ComplexIns.NeverPasses (u : Ucode) (p : Nat) : ComplexIns → Prop
  | fend | sret | iret => True
  | for_ => ∀ s n, ∃ xs, getWord u (p + 2) s n 0 1 = (.ok (), xs) ∧ xs.headD 0 = 0
  | compare w .ld r => ∀ out env plc, env.pc = p →
      ∃ e, compareClosed out u env plc .ld r w = .error e
  | _ => False

/-- The instruction at `p` never falls through. -/
def NeverPasses (u : Ucode) (p : Nat) : Prop :=
  ∃ i, ComplexIns.ofCode (u.getPU16 p) = some i ∧ i.NeverPasses u p

/-! ## How far instructions advance -/

theorem DataIns.execLength_eq (d : DataIns) :
    d.execLength = none ∨ d.execLength = some d.moveLength := by
  cases d <;> first | exact .inr rfl | exact .inl rfl

theorem SimpleIns.execLength_eq (i : SimpleIns) :
    i = .coilLm .out ∧ i.execLength = none ∨ i.execLength = some i.moveLength := by
  cases i with
  | coilLm k => cases k <;> first | exact .inr rfl | exact .inl ⟨rfl, rfl⟩
  | _ => exact .inr rfl

theorem runCiForIns_next (h : (runCiForIns u env plc).flow = .next n) : n = 10 := by
  unfold runCiForIns at h
  split at h
  · cases h
    rfl
  · dsimp only at h
    split at h
    · cases h
      rfl
    · cases h

theorem nextTop_next {l : ForNextIns} (h : (nextTop env plc l).flow = .next n) : n = 2 := by
  unfold nextTop at h
  split at h
  · cases h
    rfl
  · cases h

theorem runCiNextIns_next (h : (runCiNextIns env plc).flow = .next n) : n = 2 := by
  unfold runCiNextIns at h
  dsimp only at h
  split at h
  · cases h
    rfl
  · split at h
    · split at h
      · cases h
        rfl
      · exact nextTop_next h
    · exact nextTop_next h

theorem runCiCjIns_next (h : (runCiCjIns u env plc).flow = .next n) : n = 10 := by
  unfold runCiCjIns at h
  split at h
  · cases h
  · cases h
    rfl

theorem runCiMcIns_next (h : (runCiMcIns out t u now env plc).flow = .next n) : n = 10 := by
  unfold runCiMcIns at h
  dsimp only at h
  split at h
  · cases h
    rfl
  · split at h
    · split at h <;> cases h
    · cases h

theorem stlSingle_next (h : (stlSingle out t u now env plc).flow = .next n) : n = 10 := by
  unfold stlSingle at h
  dsimp only at h
  split at h
  · cases h
    rfl
  · split at h <;> cases h

theorem stlSeries_next (h : (stlSeries u env plc).flow = .next n) :
    n = 10 * plc.sfc.seriesStlCnt := by
  unfold stlSeries at h
  split at h
  · cases h
    rfl
  · cases h

theorem runCiStlIns_next (h : (runCiStlIns out t u now env plc).flow = .next n) :
    n = if u.getPU16 (env.pc + 10) = ComplexIns.code .stl then 20 else 10 := by
  unfold runCiStlIns plcStlBusMeetAnalyse at h
  dsimp only at h
  split at h <;> rename_i hstl
  · exact (stlSeries_next h).trans (by simp [hstl])
  · exact (stlSingle_next h).trans (by simp [hstl])

theorem callWithPower_next {id : Nat} (h : callWithPower out t u env plc id = .done r)
    (hflow : r.flow = .next n) : n = plcCallInstructionLength u env.pc := by
  unfold callWithPower at h
  dsimp only at h
  split at h
  · split at h
    · cases h
      cases hflow
      rfl
    · cases h
  · cases h
    cases hflow
    rfl

theorem callWithoutPower_flow (id : Nat) :
    (callWithoutPower out t u now env plc id).flow = .next (plcCallInstructionLength u env.pc) := by
  unfold callWithoutPower
  dsimp only
  split
  · split <;> rfl
  · rfl

theorem runCiCallIns_next (h : runCiCallIns out t u now env plc = .done r)
    (hflow : r.flow = .next n) : n = plcCallInstructionLength u env.pc := by
  unfold runCiCallIns at h
  split at h
  · cases h
    cases hflow
  · split at h
    · cases h
      cases hflow
      rfl
    · split at h
      · exact callWithPower_next h hflow
      · cases h
        rw [callWithoutPower_flow] at hflow
        exact (Flow.next.inj hflow).symm

theorem execDataIns_next {d : DataIns} (h : (execDataIns out u now env plc d).flow = .next n) :
    d.execLength = some n := by
  unfold execDataIns at h
  split at h
  · cases h
  · rename_i m hm
    rw [hm]
    dsimp only at h
    split at h
    · cases h
      rfl
    · split at h <;> (cases h; rfl)

theorem execCompareIns_next {w : CmpWidth} {k : CmpConn} {x : CmpRel}
    (h : (execCompareIns out u env plc w k x).flow = .next n) : n = w.execLength := by
  unfold execCompareIns at h
  split at h
  · split at h <;> cases h
    rfl
  · cases h
    rfl

/-- Without a disagreement, a complex instruction falls through by the compiler's length. -/
theorem ComplexIns.exec_next {i : ComplexIns} (h : i.exec out t u now env plc = .done r)
    (hret : r.ret.leaves = false) (hflow : r.flow = .next n) (hdrift : ¬ i.Drifts u env.pc)
    (hcode : u.getPU16 env.pc = i.code) : i.moveLength u env.pc = some n := by
  cases i with
  | stl =>
    cases h
    have hrun : stlRun u env.pc = 1 ∨ stlRun u env.pc = 2 := by
      have hpos := stlRun_pos (u := u) (p := env.pc)
      simp only [ComplexIns.Drifts] at hdrift
      omega
    rw [runCiStlIns_next hflow, ComplexIns.moveLength]
    rcases hrun with hrun | hrun
    · have hstop := stlRun_stops (u := u) (p := env.pc)
      rw [hrun] at hstop
      rw [if_neg hstop, hrun]
    · have hlt : 1 < stlRun u env.pc := by omega
      rw [if_pos (stlScan_steps Nat.one_pos hlt), hrun]
  | mc =>
    cases h
    rw [runCiMcIns_next hflow, ComplexIns.moveLength]
  | cj =>
    cases h
    rw [runCiCjIns_next hflow, ComplexIns.moveLength]
  | for_ =>
    cases h
    rw [runCiForIns_next hflow, ComplexIns.moveLength]
  | next =>
    cases h
    rw [runCiNextIns_next hflow, ComplexIns.moveLength]
  | call => rw [runCiCallIns_next h hflow, ComplexIns.moveLength]
  | csret =>
    cases h
    split at hflow
    · cases hflow
    · cases hflow
      rfl
  | stradd =>
    cases h
    cases hflow
    exact congrArg some (not_not.mp hdrift)
  | strinstr =>
    cases h
    cases hflow
    exact congrArg some (not_not.mp hdrift)
  | compare w k x =>
    cases h
    rw [execCompareIns_next hflow, ComplexIns.moveLength]
    cases w <;> rfl
  | data d =>
    cases h
    have hlen := execDataIns_next hflow
    rcases d.execLength_eq with hnone | hsome
    · rw [hnone] at hlen
      cases hlen
    · rw [ComplexIns.moveLength, ← hsome, hlen]
  | fend | sret | iret =>
    cases h
    cases hret
  | continue_ | break_ =>
    cases h
    cases hflow
  | _ =>
    cases h
    cases hflow
    rfl

theorem runsSimple_of_isSimple (h : IsSimple u p) : RunsSimple u p := by
  have hdiv := Ucode.getPU16_div (u := u) (p := p)
  unfold IsSimple siMaxIns at h
  unfold RunsSimple
  omega

theorem not_runsSimple_of_ofCode {i : ComplexIns} (h : ComplexIns.ofCode (u.getPU16 p) = some i) :
    ¬ RunsSimple u p := by
  have hcode := ComplexIns.code_of_ofCode h
  have hle := i.le_code
  unfold RunsSimple
  omega

theorem execIns_complex {i : ComplexIns} (hi : ComplexIns.ofCode (u.getPU16 env.pc) = some i) :
    execIns out t u now env plc = i.exec out t u now env plc := by
  rw [execIns, if_neg (not_runsSimple_of_ofCode hi), execComplexIns, hi]

theorem execSimpleIns_next (h : (execSimpleIns out u env plc).flow = .next n) :
    ∃ i, SimpleIns.ofCode (u.getPU8 (env.pc + 1)) = some i ∧ i.execLength = some n := by
  unfold execSimpleIns at h
  split at h
  · rename_i i m hdec
    obtain ⟨j, hj, hlen⟩ := bind_eq_some_iff.mp hdec
    obtain ⟨k, hk, hpair⟩ := map_eq_some_iff.mp hlen
    cases hpair
    cases h
    exact ⟨i, hj, hk⟩
  · cases h

/-- The length rule: where the two agree, falling through leads where the compiler went. -/
theorem FallsThrough.nextPtr_eq (h : FallsThrough t u p n) (hdrift : ¬ Drifts u p)
    (hnext : nextPtr u p = some q) : q = p + n := by
  unfold Drifts at hdrift
  by_cases hs : IsSimple u p
  · have hruns := runsSimple_of_isSimple hs
    rw [if_pos hs] at hdrift
    cases h with
    | done out now env plc r hpc hexec hret hflow =>
      subst hpc
      rw [execIns, if_pos hruns] at hexec
      cases hexec
      obtain ⟨i, hi, hlen⟩ := execSimpleIns_next hflow
      rw [nextPtr_simple hs, hi] at hnext
      rcases i.execLength_eq with ⟨hout, -⟩ | hsome
      · rw [hi, hout] at hdrift
        exact absurd rfl hdrift
      · rw [hlen] at hsome
        rw [some.inj hsome]
        exact (some.inj hnext).symm
    | call out now env plc plc' plc'' entry c hpc hexec hflow =>
      subst hpc
      rw [execIns, if_pos hruns] at hexec
      cases hexec
  · rw [if_neg hs] at hdrift
    obtain ⟨i, m, hi, hlen, rfl⟩ := exists_of_nextPtr_complex hs hnext
    have hdrift' : ¬ i.Drifts u p := fun hd => hdrift (.inr ⟨i, hi, hd⟩)
    have hcode := ComplexIns.code_of_ofCode hi
    cases h with
    | done out now env plc r hpc hexec hret hflow =>
      subst hpc
      rw [execIns, if_neg (not_runsSimple_of_ofCode hi), execComplexIns, hi] at hexec
      have := ComplexIns.exec_next hexec hret hflow hdrift' hcode.symm
      rw [hlen] at this
      rw [some.inj this]
    | call out now env plc plc' plc'' entry c hpc hexec hflow =>
      subst hpc
      rw [execIns, if_neg (not_runsSimple_of_ofCode hi), execComplexIns, hi] at hexec
      cases i with
      | call =>
        cases hflow
        rw [ComplexIns.moveLength] at hlen
        rw [← some.inj hlen]
      | _ => cases hexec

/-! ## Which instructions fall through -/

theorem RetValue.leaves_ofExcept (x : Except PlcErr Unit) :
    (RetValue.ofExcept x).leaves = false := by
  cases x <;> rfl

theorem execDataIns_leaves (d : DataIns) :
    (execDataIns out u now env plc d).ret.leaves = false := by
  unfold execDataIns
  split
  · rfl
  · dsimp only
    split
    · rfl
    · split <;> first | rfl | exact RetValue.leaves_ofExcept _

theorem execDataIns_flow {d : DataIns} (h : d.execLength = some n) :
    (execDataIns out u now env plc d).flow = .next n := by
  unfold execDataIns
  rw [h]
  dsimp only
  split
  · rfl
  · split <;> rfl

def stepsOn : Plc := { Plc.off with store := { Store.off with bit := fun _ _ => true } }

theorem plcGetCallInsId_isSome {i : Nat} (hi : i < t.useNum) (ha : t.ucodeAddr i = p) :
    ∃ id, plcGetCallInsId t p = some id := by
  refine isSome_iff_exists.mp ?_
  rw [plcGetCallInsId, find?_isSome]
  exact ⟨i, mem_range.mpr hi, by simp [ha]⟩

/-- A complex instruction that falls through in some state does so without a subroutine. -/
theorem ComplexIns.fallsThrough_of_done {i : ComplexIns} (out : Outside) (now : BitVec 32)
    (env : RunEnv) (plc : Plc) (hi : ComplexIns.ofCode (u.getPU16 env.pc) = some i)
    (h : i.exec out t u now env plc = .done r) (hret : r.ret.leaves = false)
    (hflow : r.flow = .next n) : FallsThrough t u env.pc n := by
  refine .done out now env plc r rfl ?_ hret hflow
  rw [execIns, if_neg (not_runsSimple_of_ofCode hi), execComplexIns, hi]
  exact h

/-- A loop whose count is not zero in every state can fall through. -/
theorem fallsThrough_for (hi : ComplexIns.ofCode (u.getPU16 p) = some .for_)
    (h : ¬ ComplexIns.NeverPasses u p .for_) : FallsThrough t u p 10 := by
  simp only [ComplexIns.NeverPasses, not_forall, not_exists, not_and] at h
  obtain ⟨s, level, hcnt⟩ := h
  let plc : Plc := { Plc.off with store := s, sbrNestedNum := level }
  refine ComplexIns.fallsThrough_of_done .idle 0 ⟨1, 0, p⟩ plc hi rfl ?_ ?_
  all_goals
    unfold runCiForIns
    split
    · rfl
    · rename_i xs hxs
      have hne : 0 < (xs.headD 0).toNat := by
        have := hcnt xs hxs
        contrapose! this
        exact BitVec.eq_of_toNat_eq (by simpa using this)
      rw [if_pos ⟨getPowerFlow_one, hne⟩]
      rfl

/-- A loading comparison whose operands are accepted in some state can fall through. -/
theorem fallsThrough_compareLd {w : CmpWidth} {x : CmpRel}
    (hi : ComplexIns.ofCode (u.getPU16 p) = some (.compare w .ld x))
    (h : ¬ ComplexIns.NeverPasses u p (.compare w .ld x)) :
    FallsThrough t u p w.execLength := by
  simp only [ComplexIns.NeverPasses, not_forall, not_exists] at h
  obtain ⟨out, env, plc, rfl, hok⟩ := h
  have hclosed : ∃ b, compareClosed out u env plc .ld x w = .ok b := by
    cases hres : compareClosed out u env plc .ld x w with
    | ok b => exact ⟨b, rfl⟩
    | error e => exact absurd hres (hok e)
  obtain ⟨b, hb⟩ := hclosed
  refine ComplexIns.fallsThrough_of_done out 0 env plc hi rfl ?_ ?_
  all_goals
    simp [execCompareIns, CmpConn.evaluates, hb, RetValue.leaves]

theorem fallsThrough_stl (hi : ComplexIns.ofCode (u.getPU16 p) = some .stl) :
    FallsThrough t u p (if u.getPU16 (p + 10) = ComplexIns.code .stl then 20 else 10) := by
  refine ComplexIns.fallsThrough_of_done .idle 0 ⟨0, 0, p⟩ stepsOn hi rfl ?_ ?_
  all_goals
    simp only [runCiStlIns, plcStlBusMeetAnalyse]
    split <;> rfl

/-- Every complex instruction with a case falls through in some state, but for the ones that never
do. -/
theorem ComplexIns.exists_fallsThrough {i : ComplexIns}
    (hi : ComplexIns.ofCode (u.getPU16 p) = some i) (hcase : i.hasCase)
    (hlen : (i.moveLength u p).isSome)
    (hcall : i = .call → ∃ id, plcGetCallInsId t p = some id) (hpass : ¬ i.NeverPasses u p) :
    ∃ n, FallsThrough t u p n := by
  have hfalls (pf : BitVec 32) (plc : Plc) (n : Nat)
      (h : ∃ r, i.exec .idle t u 0 ⟨pf, 0, p⟩ plc = .done r ∧ r.ret.leaves = false ∧
        r.flow = .next n) : ∃ n, FallsThrough t u p n := by
    obtain ⟨r, hr, hret, hflow⟩ := h
    exact ⟨n, ComplexIns.fallsThrough_of_done _ _ ⟨pf, 0, p⟩ _ hi hr hret hflow⟩
  cases i with
  | fend | sret | iret => exact absurd trivial hpass
  | continue_ | break_ => cases hlen
  | for_ => exact ⟨10, fallsThrough_for hi hpass⟩
  | compare w k x =>
    cases k with
    | ld => exact ⟨_, fallsThrough_compareLd hi hpass⟩
    | and =>
      refine hfalls 0 .off w.execLength ⟨_, rfl, ?_, ?_⟩
      · simp [execCompareIns, CmpConn.evaluates, RunEnv.done, RetValue.leaves]
      · simp [execCompareIns, CmpConn.evaluates, RunEnv.done]
    | or =>
      refine hfalls 1 .off w.execLength ⟨_, rfl, ?_, ?_⟩
      · simp [execCompareIns, CmpConn.evaluates, RunEnv.done, RetValue.leaves]
      · simp [execCompareIns, CmpConn.evaluates, RunEnv.done]
  | data d =>
    obtain ⟨n, hn⟩ := isSome_iff_exists.mp hcase
    exact hfalls 0 .off n ⟨_, rfl, execDataIns_leaves d, execDataIns_flow hn⟩
  | call =>
    obtain ⟨id, hid⟩ := hcall rfl
    refine hfalls 0 .off _ ⟨callWithoutPower .idle t u 0 ⟨0, 0, p⟩ .off id, ?_, rfl,
      callWithoutPower_flow id⟩
    simp [ComplexIns.exec, runCiCallIns, hid, Plc.off, maxSbrNestedLayer]
  | stl => exact ⟨_, fallsThrough_stl hi⟩
  | mc => exact hfalls 1 .off 10 ⟨_, rfl, by simp [runCiMcIns, RunEnv.done, RetValue.leaves],
      by simp [runCiMcIns, RunEnv.done]⟩
  | cj => exact hfalls 0 .off 10 ⟨_, rfl, by simp [runCiCjIns, RunEnv.done, RetValue.leaves],
      by simp [runCiCjIns, RunEnv.done]⟩
  | csret => exact hfalls 0 .off 2 ⟨_, rfl, by simp [RunEnv.done, RetValue.leaves],
      by simp [RunEnv.done]⟩
  | ciret | stop | cfend => exact hfalls 0 .off 2 ⟨_, rfl,
      by simp [returnWithPower, RunEnv.done, RetValue.leaves], rfl⟩
  | _ => exact hfalls 0 .off _ ⟨_, rfl, rfl, rfl⟩

theorem NeverPasses.not_fallsThrough (h : NeverPasses u p) : ¬ FallsThrough t u p n := by
  obtain ⟨i, hi, hnever⟩ := h
  have hsimple := not_runsSimple_of_ofCode hi
  rintro (⟨out, now, env, plc, r, rfl, hexec, hret, hflow⟩ |
    ⟨out, now, env, plc, plc', plc'', entry, c, rfl, hexec, hflow⟩)
  · rw [execIns, if_neg hsimple, execComplexIns, hi] at hexec
    cases i with
    | fend | sret | iret =>
      cases hexec
      cases hret
    | for_ =>
      cases hexec
      obtain ⟨xs, hxs, hzero⟩ := hnever plc.store plc.sbrNestedNum
      rw [runCiForIns, hxs] at hflow
      dsimp only at hflow
      rw [hzero, if_neg (by simp)] at hflow
      cases hflow
    | compare w k x =>
      cases k with
      | ld =>
        cases hexec
        obtain ⟨e, he⟩ := hnever out env plc rfl
        simp [execCompareIns, CmpConn.evaluates, he, RunEnv.done] at hflow
      | _ => exact hnever
    | _ => exact hnever
  · rw [execIns, if_neg hsimple, execComplexIns, hi] at hexec
    cases i with
    | call => exact hnever
    | _ => cases hexec

/-- An instruction of an accepted file that has a case falls through in some state, but for the ones
that never do. -/
theorem Accepts.exists_fallsThrough (h : Accepts alloc u t) (hp : p ∈ boundaries u)
    (hcase : HasCase u p) (hpass : ¬ NeverPasses u p) : ∃ n, FallsThrough t u p n := by
  obtain ⟨q, hnext, -⟩ := h.nextPtr_of_mem hp
  by_cases hs : IsSimple u p
  · have hruns := runsSimple_of_isSimple hs
    rw [HasCase, if_pos hruns] at hcase
    obtain ⟨i, hi, hlen⟩ := hcase
    obtain ⟨n, hn⟩ := isSome_iff_exists.mp hlen
    refine ⟨n, .done .idle 0 ⟨0, 0, p⟩ .off _ rfl (by rw [execIns, if_pos hruns]) ?_ ?_⟩ <;>
      simp [execSimpleIns, hi, hn, RetValue.leaves]
  · obtain ⟨i, m, hi, hlen, rfl⟩ := exists_of_nextPtr_complex hs hnext
    rw [HasCase, if_neg (not_runsSimple_of_ofCode hi)] at hcase
    obtain ⟨j, hj, hcase⟩ := hcase
    rw [hi] at hj
    cases hj
    refine ComplexIns.exists_fallsThrough hi hcase (by simp [hlen]) ?_ fun hn => hpass ⟨i, hi, hn⟩
    rintro rfl
    obtain ⟨k, hk, ha⟩ := h.call_mem hp (ComplexIns.code_of_ofCode hi).symm
    exact plcGetCallInsId_isSome hk ha

/-! ## Staying on the boundaries -/

/-- The instructions on which the two do not agree lead off the compiler's boundaries. -/
theorem FollowsCompiler.not_drifts (hf : FollowsCompiler t u) (h : Accepts alloc u t)
    (hp : Visited u p) : ¬ Drifts u p := by
  have hcase := hf.hasCase p hp
  intro hdrift
  unfold Drifts at hdrift
  by_cases hs : IsSimple u p
  · rw [HasCase, if_pos (runsSimple_of_isSimple hs)] at hcase
    rw [if_pos hs] at hdrift
    obtain ⟨i, hi, hlen⟩ := hcase
    rw [hdrift] at hi
    cases hi
    cases hlen
  · rw [if_neg hs] at hdrift
    have hend : u.getPU16 p ≠ ciEnd := by
      intro hend
      have hruns : ¬ RunsSimple u p := by rw [RunsSimple, hend]; decide
      rw [HasCase, if_neg hruns, hend] at hcase
      obtain ⟨i, hi, -⟩ := hcase
      cases hi
    obtain ⟨i, hi, hdrift⟩ := hdrift.resolve_left hend
    obtain ⟨q, hnext, -⟩ := h.nextPtr_of_mem ((h.mem_or_ciEnd hp).resolve_right hend)
    obtain ⟨j, m, hj, hlen, rfl⟩ := exists_of_nextPtr_complex hs hnext
    rw [hi] at hj
    cases hj
    -- an instruction that falls through by `n` has the compiler's length `m`
    have hlength {n : Nat} (hfalls : FallsThrough t u p n) : m = n := by
      have heq := hf.length p hp n hfalls
      rw [hnext] at heq
      exact Nat.add_left_cancel (some.inj heq)
    have hbody {n : Nat} (hr : i.exec .idle t u 0 ⟨0, 0, p⟩ .off =
        .done (runBody .idle u 0 ⟨0, 0, p⟩ .off i n)) : m = n :=
      hlength (ComplexIns.fallsThrough_of_done _ _ ⟨0, 0, p⟩ _ hi hr rfl rfl)
    cases i with
    | data d =>
      rw [HasCase, if_neg (not_runsSimple_of_ofCode hi)] at hcase
      obtain ⟨j, hj, hcase⟩ := hcase
      rw [hi] at hj
      cases hj
      rw [ComplexIns.Drifts] at hdrift
      rw [ComplexIns.hasCase, hdrift] at hcase
      cases hcase
    | stradd => exact hdrift ((some.inj hlen).trans (hbody rfl))
    | strinstr => exact hdrift ((some.inj hlen).trans (hbody rfl))
    | stl =>
      have hm : 10 * stlRun u p = m := some.inj hlen
      have hn := hlength (fallsThrough_stl hi)
      simp only [ComplexIns.Drifts] at hdrift
      split at hn <;> omega
    | _ => exact hdrift

/-- An accepted file is free of the disagreements of the two switches, and ends with an instruction
that does not fall through. -/
structure Agrees (u : Ucode) : Prop where
  nonempty : BeforeEnd u ucodeStart
  noDrift : ∀ p, Visited u p → ¬ Drifts u p
  last : ∀ p, Visited u p → ∀ q, nextPtr u p = some q → ¬ BeforeEnd u q → NeverPasses u p

theorem Agrees.hasCase (ha : Agrees u) (h : Accepts alloc u t) (hp : Visited u p) :
    HasCase u p := by
  have hdrift := ha.noDrift p hp
  unfold Drifts at hdrift
  by_cases hs : IsSimple u p
  · rw [if_pos hs] at hdrift
    have hend : u.getPU16 p ≠ ciEnd := by
      intro hend
      have := runsSimple_of_isSimple hs
      rw [RunsSimple, hend] at this
      exact absurd this (by decide)
    obtain ⟨q, hnext, -⟩ := h.nextPtr_of_mem ((h.mem_or_ciEnd hp).resolve_right hend)
    obtain ⟨i, hi, -⟩ := exists_of_nextPtr_simple hs hnext
    rw [HasCase, if_pos (runsSimple_of_isSimple hs)]
    refine ⟨i, hi, ?_⟩
    rcases i.execLength_eq with ⟨hout, -⟩ | hsome
    · rw [hi, hout] at hdrift
      exact absurd rfl hdrift
    · rw [hsome]
      rfl
  · rw [if_neg hs, not_or] at hdrift
    obtain ⟨q, hnext, -⟩ := h.nextPtr_of_mem ((h.mem_or_ciEnd hp).resolve_right hdrift.1)
    obtain ⟨i, m, hi, hlen, -⟩ := exists_of_nextPtr_complex hs hnext
    rw [HasCase, if_neg (not_runsSimple_of_ofCode hi)]
    refine ⟨i, hi, ?_⟩
    cases i with
    | data d => exact ne_none_iff_isSome.mp fun hnone => hdrift.2 ⟨_, hi, hnone⟩
    | _ => rfl

theorem Agrees.mem_boundaries (ha : Agrees u) (h : Accepts alloc u t) (hp : Visited u p) :
    p ∈ boundaries u := by
  refine (h.mem_or_ciEnd hp).resolve_right fun hend => ha.noDrift p hp ?_
  have hs : ¬ IsSimple u p := not_isSimple_of_le (by rw [hend]; decide)
  rw [Drifts, if_neg hs]
  exact .inl hend

theorem Agrees.length (ha : Agrees u) (h : Accepts alloc u t) (hp : Visited u p)
    (hfalls : FallsThrough t u p n) : nextPtr u p = some (p + n) := by
  obtain ⟨q, hnext, -⟩ := h.nextPtr_of_mem (ha.mem_boundaries h hp)
  rw [hnext, hfalls.nextPtr_eq (ha.noDrift p hp) hnext]

/-- One step of straight-line execution stays on the boundaries. -/
theorem Agrees.visited_next (ha : Agrees u) (h : Accepts alloc u t) (hp : Visited u p)
    (hfalls : FallsThrough t u p n) : Visited u (p + n) := by
  have hlen := ha.length h hp hfalls
  obtain ⟨q, hnext, hvisited⟩ := h.nextPtr_of_mem (ha.mem_boundaries h hp)
  rw [hlen] at hnext
  cases hnext
  by_cases hq : BeforeEnd u (p + n)
  · exact hvisited hq
  · exact absurd hfalls (ha.last p hp _ hlen hq).not_fallsThrough

/-- In an accepted file the interpreter follows the compiler exactly if the file is free of the
instructions on which the two disagree and does not run off its end. -/
theorem followsCompiler_iff (h : Accepts alloc u t) : FollowsCompiler t u ↔ Agrees u := by
  constructor
  · intro hf
    obtain ⟨-, -, hstart⟩ := hf.straight ucodeStart ucodeStart (.inl rfl) .refl
    refine ⟨hstart, fun p hp => hf.not_drifts h hp, fun p hp q hnext hend => ?_⟩
    by_contra hpass
    have hmem : p ∈ boundaries u := by
      refine (h.mem_or_ciEnd hp).resolve_right fun hcode => ?_
      rw [nextPtr_ciEnd hcode] at hnext
      cases hnext
    obtain ⟨n, hn⟩ := h.exists_fallsThrough hmem (hf.hasCase p hp) hpass
    have hlen := hf.length p hp n hn
    rw [hnext] at hlen
    obtain ⟨-, -, hbefore⟩ := hf.straight p (p + n) (.inr hp) (.single ⟨n, hn, rfl⟩)
    exact hend (some.inj hlen ▸ hbefore)
  · intro ha
    refine ⟨fun p hp => ha.hasCase h hp, fun p hp n hn => ha.length h hp hn, ?_⟩
    intro p q hp hline
    have hvisited : Visited u p := by
      rcases hp with rfl | hp
      · exact ⟨[], .start, ha.nonempty⟩
      · exact hp
    induction hline with
    | refl => exact hvisited
    | tail _ hstep ih =>
      obtain ⟨n, hn, rfl⟩ := hstep
      exact ha.visited_next h ih hn

/-- The program `LD X0; OUT LM0; FEND`. -/
def outLmFile : Ucode :=
  [0, 0, 0, 0, 0, 0, 38, 0, 0, 0] ++ replicate 18 0 ++
    [0x00, 0x10] ++ [0x00, 0x77] ++ [0x2B, 0xF0] ++ replicate 4 0

/-- The compiler moves over the output to `LM`, and the interpreter has no case for it. -/
theorem outLmFile_has_no_case :
    ∃ s, Accepts enoughMemory outLmFile s ∧ ¬ FollowsCompiler s outLmFile := by
  refine ⟨_, ⟨4, rfl⟩, fun h => ?_⟩
  have hvisited : Visited outLmFile 30 :=
    ⟨[28], .next .start (by decide) (by decide) (by decide), by decide⟩
  have hcase := h.hasCase 30 hvisited
  rw [HasCase, if_pos (by decide)] at hcase
  obtain ⟨i, hi, hlen⟩ := hcase
  obtain rfl : SimpleIns.coilLm .out = i := some.inj (.trans (by decide) hi)
  cases hlen

/-- The equivalence at a file that is accepted. -/
theorem followsCompiler_iff_outLmFile :
    ∃ s, Accepts enoughMemory outLmFile s ∧ (FollowsCompiler s outLmFile ↔ Agrees outLmFile) := by
  have hacc : ∃ s, Accepts enoughMemory outLmFile s := ⟨_, 4, rfl⟩
  obtain ⟨s, hs⟩ := hacc
  exact ⟨s, hs, followsCompiler_iff hs⟩

end Kalyke
