-- SUMMARY: What one step of the interpreter can do, and the completion of an instruction.
import Kalyke.Exec.Run

/-!
# Steps

A step either is done with an instruction of the current activation, enters a subroutine, or comes
back from one. A subroutine comes back only by `EXEC_FLAG_SRET`, to the `CALL` that entered it; with
every other value all activations are left and the scan is over.
-/

namespace Kalyke

open List

variable {out : Outside} {t : CompState} {u : Ucode} {now : BitVec 32} {c c' : Config}

/-- What the step from `c` to `c'` does. The store of the result may be changed by the report of an
error and the watchdog. -/
inductive StepKind (out : Outside) (t : CompState) (u : Ucode) (now : BitVec 32) (c c' : Config) :
    Prop where
  | ins (r : InsResult) (s : Store) (hexec : execIns out t u now c.env c.plc = .done r)
      (hret : r.ret.leaves = false) (hstore : s = r.plc.store ∨ s.errorStatusStop = false)
      (hnext : c' = ⟨r.env c.env.pc, c.frames, { r.plc with store := s }⟩)
  | call (entry : Nat) (cnt : ParaCnt) (plc : Plc)
      (hexec : execIns out t u now c.env c.plc = .call entry cnt plc)
      (hnext : c' = enterProgram entry (⟨c.env, cnt⟩ :: c.frames) plc)
  | ret (f : Frame) (fs : List Frame) (r : InsResult) (s : Store)
      (hexec : execIns out t u now c.env c.plc = .done r) (hret : r.ret = .sret)
      (hframes : c.frames = f :: fs)
      (hnext : c' = ⟨(callReturn u f.env r.plc f.cnt).env f.env.pc, fs,
        { (callReturn u f.env r.plc f.cnt).plc with store := s }⟩)

theorem RetValue.ofExcept_leaves (x : Except PlcErr Unit) :
    (RetValue.ofExcept x).leaves = false := by
  cases x <;> rfl

theorem afterIns_inl {leave : RetValue → Plc → Config ⊕ Finish} {frames : List Frame} {p : Nat}
    {simple : Bool} {r : InsResult} (h : afterIns u now leave frames p simple r = .inl c') :
    (r.ret.leaves = true ∧ leave r.ret r.plc = .inl c') ∨
    (r.ret.leaves = false ∧ ∃ s, (s = r.plc.store ∨ s.errorStatusStop = false) ∧
      c' = ⟨r.env p, frames, { r.plc with store := s }⟩) ∨
    (r.ret.leaves = false ∧ ∃ plc, leave .stop plc = .inl c') := by
  unfold afterIns at h
  split at h
  · exact .inl ⟨‹_›, h⟩
  have hret : r.ret.leaves = false := Bool.eq_false_iff.mpr ‹_›
  split at h
  · exact .inr (.inl ⟨hret, r.plc.store, .inl rfl, (Sum.inl.inj h).symm⟩)
  · simp only at h
    split at h
    · exact .inr (.inr ⟨hret, _, h⟩)
    · rename_i hrun
      exact .inr (.inl ⟨hret, _, .inr (Bool.eq_false_iff.mpr hrun), (Sum.inl.inj h).symm⟩)

/-- Only `EXEC_FLAG_SRET` comes back to a `CALL`. -/
theorem leaveProgram_inl {frames : List Frame} {ret : RetValue} {plc : Plc}
    (h : leaveProgram u now frames ret plc = .inl c') :
    ret = .sret ∧ ∃ f fs s, frames = f :: fs ∧
      c' = ⟨(callReturn u f.env plc f.cnt).env f.env.pc, fs,
        { (callReturn u f.env plc f.cnt).plc with store := s }⟩ := by
  induction frames generalizing ret plc with
  | nil => cases ret <;> cases h
  | cons f fs ih =>
    cases ret with
    | sret =>
      rcases afterIns_inl h with ⟨hret, -⟩ | ⟨-, s, -, hc'⟩ | ⟨-, plc', hleave⟩
      · rw [show (callReturn u f.env plc f.cnt).ret.leaves = false from
          RetValue.ofExcept_leaves _] at hret
        cases hret
      · exact ⟨rfl, f, fs, s, rfl, hc'⟩
      · exact absurd (ih hleave).1 (by simp)
    | pass | fend | iret | stop | err =>
      rw [leaveProgram] at h
      all_goals exact absurd (ih h).1 (by simp)

theorem step_cases (h : step out t u now c = .inl c') : StepKind out t u now c c' := by
  unfold step at h
  split at h
  · rename_i r hexec
    rcases afterIns_inl h with ⟨-, hleave⟩ | ⟨hret, s, hstore, hc'⟩ | ⟨-, plc, hleave⟩
    · obtain ⟨hret, f, fs, s, hframes, hc'⟩ := leaveProgram_inl hleave
      exact .ret f fs r s hexec hret hframes hc'
    · exact .ins r s hexec hret hstore hc'
    · exact absurd (leaveProgram_inl hleave).1 (by simp)
  · rename_i entry cnt plc hexec
    exact .call entry cnt plc hexec (Sum.inl.inj h).symm

/-! ## Reports -/

/-- `s'` is `s` but for the `SM` elements and whatever else the report of an error and the watchdog
write. -/
structure SameButReports (s s' : Store) : Prop where
  bit : ∀ e, e ≠ .SM → s'.bit e = s.bit e
  edgeValue : s'.edgeValue = s.edgeValue
  edgeInit : s'.edgeInit = s.edgeInit

namespace SameButReports

variable {s s' s'' : Store}

theorem refl (s : Store) : SameButReports s s := ⟨fun _ _ => rfl, rfl, rfl⟩

theorem trans (h : SameButReports s s') (h' : SameButReports s' s'') : SameButReports s s'' :=
  ⟨fun e he => (h'.bit e he).trans (h.bit e he), h'.edgeValue.trans h.edgeValue,
    h'.edgeInit.trans h.edgeInit⟩

theorem setSm (s : Store) (i : Nat) (b : Bool) : SameButReports s (s.setBit (.elem .SM) i b) :=
  ⟨fun _ he => Function.update_of_ne he _ s.bit, rfl, rfl⟩

theorem plcRefreshErrorMsg (e : PlcErr) (s : Store) :
    SameButReports s (plcRefreshErrorMsg e s) := by
  have hcodes (s : Store) : SameButReports s (if s.word .SD 20 = BitVec.ofNat 16 e.code then s
      else
        ([24, 23, 22, 21].foldl (fun s i => s.setWord (.elem .SD) i (s.word .SD (i - 1))) s).setWord
        (.elem .SD) 20 (BitVec.ofNat 16 e.code)) := by
    split
    · exact refl s
    · exact ⟨fun _ _ => rfl, rfl, rfl⟩
  have hflag := setSm s 20 true
  refine .trans ?_ (hcodes _)
  split
  · exact ⟨hflag.bit, rfl, rfl⟩
  · split
    · exact hflag.trans (setSm _ 22 true)
    · exact hflag.trans (setSm _ 22 true)
    · exact hflag.trans (setSm _ 21 true)
    · exact hflag

theorem plcJudgeRunOverTime (s : Store) : SameButReports s (plcJudgeRunOverTime now s) := by
  unfold Kalyke.plcJudgeRunOverTime
  split
  · exact plcRefreshErrorMsg _ s
  · exact refl s

theorem reportResult (simple : Bool) (ret : RetValue) (s : Store) :
    SameButReports s (reportResult simple ret s) := by
  unfold Kalyke.reportResult
  split
  · exact plcRefreshErrorMsg _ s
  · split
    · exact refl s
    · exact ((setSm s 20 false).trans (setSm _ 21 false)).trans (setSm _ 22 false)

end SameButReports

/-- A step whose instruction passes goes on where the instruction says, with what the instruction
has left. -/
theorem step_pass {r : InsResult} (h : step out t u now c = .inl c')
    (hexec : execIns out t u now c.env c.plc = .done r) (hret : r.ret = .pass) :
    c'.env = r.env c.env.pc ∧ c'.frames = c.frames ∧ SameButReports r.plc.store c'.plc.store := by
  rw [step, hexec] at h
  dsimp only at h
  unfold afterIns at h
  rw [hret, if_neg (by decide)] at h
  split at h
  · obtain rfl := Sum.inl.inj h
    exact ⟨rfl, rfl, .refl _⟩
  · dsimp only at h
    split at h
    · exact absurd (leaveProgram_inl h).1 nofun
    · obtain rfl := Sum.inl.inj h
      exact ⟨rfl, rfl, (SameButReports.reportResult _ _ _).trans (.plcJudgeRunOverTime _)⟩

/-- Stopping changes no element on the way out of the activations. -/
theorem leaveProgram_stop {frames : List Frame} {plc : Plc} {f : Finish}
    (h : leaveProgram u now frames .stop plc = .inr f) : SameButReports plc.store f.plc.store := by
  induction frames generalizing plc with
  | nil =>
    obtain rfl := Sum.inr.inj h
    exact .refl _
  | cons g gs ih =>
    rw [leaveProgram] at h
    have hflag : SameButReports plc.store { plc.store with cmdStop := true } :=
      ⟨fun _ _ => rfl, rfl, rfl⟩
    exact hflag.trans (ih h)

/-- A scan that ends with an instruction that passes has stopped after it. -/
theorem end_pass {r : InsResult} {f : Finish} (h : step out t u now c = .inr f)
    (hexec : execIns out t u now c.env c.plc = .done r) (hret : r.ret = .pass) :
    SameButReports r.plc.store f.plc.store := by
  rw [step, hexec] at h
  dsimp only at h
  unfold afterIns at h
  rw [hret, if_neg (by decide)] at h
  split at h
  · cases h
  · dsimp only at h
    split at h
    · exact .trans (.trans (.reportResult _ _ _) (.plcJudgeRunOverTime _)) (leaveProgram_stop h)
    · cases h

/-! ## Runs of a given length -/

/-- What `n` steps at the tick count zero come to, none if the scan ends before. -/
def runFor (out : Outside) (t : CompState) (u : Ucode) : Nat → Config → Option Config
  | 0, c => some c
  | n + 1, c =>
    match step out t u 0 c with
    | .inl c' => runFor out t u n c'
    | .inr _ => none

theorem reaches_of_runFor {n : Nat} (h : runFor out t u n c = some c') :
    Relation.ReflTransGen (RunStep out t u) c c' := by
  induction n generalizing c with
  | zero =>
    obtain rfl := Option.some.inj h
    exact .refl
  | succ n ih =>
    rw [runFor] at h
    split at h
    · rename_i d hstep
      exact .head (.step ⟨0, hstep⟩) (ih h)
    · cases h

/-! ## Completed instructions -/

/-- The instruction at `c` has been executed and its activation goes on with `c'`: after one step,
or, for a `CALL`, when the activation entered has come back. -/
inductive Completes (out : Outside) (t : CompState) (u : Ucode) (c c' : Config) : Prop where
  | one (h : Step out t u c c') (hframes : c'.frames = c.frames)
  | call (f : Frame) (a b : Config) (henter : Step out t u c a) (hf : a.frames = f :: c.frames)
      (hrun : Relation.ReflTransGen
        (fun x y => Step out t u x y ∧ (f :: c.frames) <:+ y.frames) a b)
      (hreturn : Step out t u b c') (hframes : c'.frames = c.frames)

/-- A `CALL` goes on behind itself. -/
theorem pc_of_return {f : Frame} {fs : List Frame} (h : step out t u now c = .inl c')
    (hsuffix : (f :: fs) <:+ c.frames) (hframes : c'.frames = fs) :
    c'.env.pc = f.env.pc + plcCallInstructionLength u f.env.pc := by
  have hlen := hsuffix.length_le
  simp only [length_cons] at hlen
  cases step_cases h with
  | ins r s hexec hret hstore hnext =>
    subst hnext
    rw [hframes] at hlen
    omega
  | call entry cnt plc hexec hnext =>
    subst hnext
    simp only [enterProgram] at hframes
    rw [← hframes] at hlen
    simp only [length_cons] at hlen
    omega
  | ret g gs r s hexec hret hgs hnext =>
    subst hnext
    subst hframes
    rw [hgs] at hsuffix
    obtain ⟨rfl, -⟩ := cons.inj (hsuffix.eq_of_length (by simp))
    rfl

/-- The frame of an activation that waits in a `CALL` holds its registers. -/
theorem frame_of_call {f : Frame} (h : step out t u now c = .inl c')
    (hframes : c'.frames = f :: c.frames) :
    f.env = c.env ∧ ∃ entry cnt plc, execIns out t u now c.env c.plc = .call entry cnt plc := by
  cases step_cases h with
  | ins r s hexec hret hstore hnext =>
    subst hnext
    exact absurd hframes.symm (cons_ne_self _ _)
  | call entry cnt plc hexec hnext =>
    subst hnext
    obtain ⟨rfl, -⟩ := cons.inj hframes
    exact ⟨rfl, entry, cnt, plc, hexec⟩
  | ret g gs r s hexec hret hgs hnext =>
    subst hnext
    have hlen := congrArg length hframes
    rw [hgs] at hlen
    simp only [length_cons] at hlen
    omega

end Kalyke
