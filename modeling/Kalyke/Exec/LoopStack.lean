-- SUMMARY: The bound of the loop stacks over whole runs.
import Kalyke.Compiler.Accepted
import Kalyke.Exec.Control

/-!
# Bounds of the Loop Stack

`run_ci_for_ins` stores into the arrays of a loop stack without a look at their size. A loop that
has come to its end stays on the stack until a later `NEXT` removes it, so that loops executed one
after another fill the stack although they are not nested. The stack of a level stays within its
arrays in every run in which the loops left over never take the room a `FOR` needs for its own
nesting.
-/

namespace Kalyke

open List

variable {out : Outside} {t : CompState} {u : Ucode} {c c' : Config}

/-- The `FOR` instructions whose loop `p` lies in. -/
def enclosingLoops (u : Ucode) (p : Nat) : List Nat :=
  (boundaries u).filter fun q =>
    u.getPU16 q = ComplexIns.code .for_ ∧ q < p ∧ p < forTarget u q

/-- The static nesting depth of a `FOR` at `p`, itself included. -/
def nestingDepth (u : Ucode) (p : Nat) : Nat := (enclosingLoops u p).length + 1

/-- The loop of the `FOR` at `q` is on the stack. -/
def ForNextIns.holds (l : ForNextIns) (q : Nat) : Bool :=
  (range l.nestedNum).any fun i => l.startUcodeAddr i == q

/-- The entries of a loop stack that are not loops around `p`: loops that have come to their end and
loops that were left by a jump. -/
def leftover (u : Ucode) (l : ForNextIns) (p : Nat) : Nat :=
  l.nestedNum - ((enclosingLoops u p).filter l.holds).length

/-- Where a `FOR` is executed, the entries left over leave enough room for its nesting depth. -/
def LeavesRoom (u : Ucode) (c : Config) : Prop :=
  StoresLoop u c.env c.plc →
    leftover u c.plc.loops c.env.pc + nestingDepth u c.env.pc ≤ maxForNextNestedNum

/-- The instruction at `c` accesses the loop stack inside its arrays. -/
structure LoopStackInRange (u : Ucode) (c : Config) : Prop where
  stores : StoresLoop u c.env c.plc → c.plc.loops.nestedNum < maxForNextNestedNum
  reads : ReadsLoops u c.env → c.plc.loops.nestedNum ≤ maxForNextNestedNum

theorem LeavesRoom.nestedNum_lt (h : LeavesRoom u c) (hstores : StoresLoop u c.env c.plc) :
    c.plc.loops.nestedNum < maxForNextNestedNum := by
  have hroom := h hstores
  have hopen : ((enclosingLoops u c.env.pc).filter c.plc.loops.holds).length ≤
      (enclosingLoops u c.env.pc).length := length_filter_le _ _
  unfold leftover nestingDepth at hroom
  omega

/-! ## The invariant -/

/-- The call level is the number of activations that wait, and the stacks of the levels in use do
not exceed their arrays. -/
structure LoopInv (c : Config) : Prop where
  level : c.plc.sbrNestedNum = c.frames.length
  bound : ∀ k ≤ c.plc.sbrNestedNum, (c.plc.forNext k).nestedNum ≤ maxForNextNestedNum

theorem loopInv_scanStart (plc : Plc) : LoopInv (scanStart plc) := by
  refine ⟨rfl, fun k hk => ?_⟩
  obtain rfl : k = 0 := Nat.le_zero.mp hk
  exact Nat.zero_le _

theorem ControlChange.bound {env : RunEnv} {plc plc' : Plc} (h : ControlChange u env plc plc')
    (hbound : ∀ k ≤ plc.sbrNestedNum, (plc.forNext k).nestedNum ≤ maxForNextNestedNum)
    (hroom : StoresLoop u env plc → plc.loops.nestedNum < maxForNextNestedNum) :
    ∀ k ≤ plc.sbrNestedNum, (plc'.forNext k).nestedNum ≤ maxForNextNestedNum := by
  intro k hk
  by_cases hlevel : k = plc.sbrNestedNum
  · have htop : plc.loops.nestedNum ≤ maxForNextNestedNum := hbound _ (Nat.le_refl _)
    rw [hlevel, ← h.sbrNestedNum]
    rcases h.nestedNum with hle | ⟨hstores, hpush⟩
    · exact Nat.le_trans hle htop
    · exact hpush ▸ hroom hstores
  · rw [h.others k hlevel]
    exact hbound k hk

/-- One step keeps the invariant if a `FOR` has room. -/
theorem LoopInv.step {now : BitVec 32} (h : LoopInv c)
    (hroom : StoresLoop u c.env c.plc → c.plc.loops.nestedNum < maxForNextNestedNum)
    (hstep : step out t u now c = .inl c') : LoopInv c' := by
  cases step_cases hstep with
  | ins r s hexec hret hstore hnext =>
    have hchange := execIns_change hexec
    subst hnext
    refine ⟨hchange.sbrNestedNum.trans h.level, ?_⟩
    exact fun k hk =>
      hchange.bound h.bound hroom k (Nat.le_trans hk (Nat.le_of_eq hchange.sbrNestedNum))
  | call entry cnt plc hexec hnext =>
    obtain ⟨-, hlevel, hloops, -⟩ := runCiCallIns_call (execIns_call hexec).2
    subst hnext
    refine ⟨by simpa [enterProgram, Plc.setLoops, hlevel] using h.level, fun k hk => ?_⟩
    by_cases htop : k = plc.sbrNestedNum
    · simp [enterProgram, Plc.setLoops, htop]
    · have hk : k ≤ plc.sbrNestedNum := hk
      simp only [enterProgram, Plc.setLoops, Function.update_of_ne htop, hloops]
      exact h.bound k (by omega)
  | ret f fs r s hexec hret hframes hnext =>
    have hchange := execIns_change hexec
    have hlevel := h.level
    rw [hframes, length_cons] at hlevel
    subst hnext
    have hdown : r.plc.sbrNestedNum - 1 = fs.length := by rw [hchange.sbrNestedNum]; omega
    refine ⟨hdown, fun k hk => ?_⟩
    have hk : k ≤ r.plc.sbrNestedNum - 1 := hk
    exact hchange.bound h.bound hroom k (by omega)

theorem LoopInv.runStep (h : LoopInv c) (hroom : LeavesRoom u c) (hstep : RunStep out t u c c') :
    LoopInv c' := by
  cases hstep with
  | step hstep =>
    obtain ⟨now, hstep⟩ := hstep
    exact h.step hroom.nestedNum_lt hstep
  | scan _ s => exact loopInv_scanStart _

/-- `FOR K1; NEXT`. -/
def oneLoop : List UInt8 :=
  [0x1F, 0xF0] ++ [0x00, 0xFF, 0x01, 0x00] ++ [0x0C, 0x00, 0x00, 0x00] ++ [0x20, 0xF0]

/-- The program `LDI X0`, nine times `FOR K1; NEXT`, `FEND`. -/
def nineLoopsFile : Ucode :=
  [0, 0, 0, 0, 0, 0, 144, 0, 0, 0] ++ replicate 18 0 ++ [0x00, 0x20] ++
    (replicate 9 oneLoop).flatten ++ [0x2B, 0xF0] ++ replicate 4 0

end Kalyke
