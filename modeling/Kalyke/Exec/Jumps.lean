-- SUMMARY: Jumps out of loops: when exactly the loops around the destination stay on the stack.
import Kalyke.Exec.Loops
import Mathlib.Data.List.DropRight

/-!
# Jumps and Loops

`run_ci_cj_ins` takes loops off the stack from the innermost on, until it comes to one that the jump
does not leave. A loop that has come to its end may still lie above those that the jump leaves, and
then none of them is taken off.
-/

namespace Kalyke

open List

/-- A loop on the stack: the address of its `FOR`, that behind its `NEXT`, and its count. -/
structure LoopEntry where
  start : Nat
  stop : Nat
  cnt : Nat
deriving DecidableEq, Repr

namespace LoopEntry

variable (e : LoopEntry) (src dst : Nat)

/-- The test of `run_ci_cj_ins`. -/
def LeftBy : Prop := e.start < src ∧ src < e.stop ∧ (dst < e.start ∨ e.stop < dst)

/-- A loop that has not come to its end, around a destination. -/
def Around : Prop := e.cnt ≠ 0 ∧ e.start ≤ dst ∧ dst < e.stop

instance : Decidable (e.LeftBy src dst) := inferInstanceAs (Decidable (_ ∧ _))

instance : Decidable (e.Around dst) := inferInstanceAs (Decidable (_ ∧ _))

theorem LeftBy.not_around {e : LoopEntry} {src dst : Nat} (h : e.LeftBy src dst) :
    ¬ e.Around dst := by
  rintro ⟨-, hstart, hstop⟩
  rcases h.2.2 with hdst | hdst
  · omega
  · omega

end LoopEntry

def ForNextIns.loopAt (l : ForNextIns) (i : Nat) : LoopEntry :=
  ⟨l.startUcodeAddr i, l.endUcodeAddr i, l.loopCnt i⟩

/-- The loops on a stack, the outermost first. -/
def ForNextIns.loopList (l : ForNextIns) : List LoopEntry := (range l.nestedNum).map l.loopAt

/-- After a jump the stack holds the loops around the destination that have not come to their end,
as they were, and a `NEXT` sees no other. -/
structure CjRight (u : Ucode) (env : RunEnv) (plc : Plc) : Prop where
  loops : (runCiCjIns u env plc).plc.loops.loopList =
    plc.loops.loopList.filter (LoopEntry.Around · (jumpTarget env.pc (u.getPU32 (env.pc + 6))))
  next : ∀ env', (runCiNextIns env' (runCiCjIns u env plc).plc).loopState env'.pc =
    LazyLoops.next plcFormat env'.pc
      ((plc.loops.loopList.filter
        (LoopEntry.Around · (jumpTarget env.pc (u.getPU32 (env.pc + 6))))).map
          fun e => (e.start, e.cnt)).reverse

/-- A jump leaves the loops that lie on top of the stack, and stays in the others, none of which has
come to its end. -/
def LeavesTop (src dst : Nat) (l : ForNextIns) : Prop :=
  ∃ kept left, l.loopList = kept ++ left ∧ (∀ e ∈ kept, e.Around dst) ∧ ∀ e ∈ left, e.LeftBy src dst

variable {u : Ucode} {env : RunEnv} {plc : Plc} {l : ForNextIns} {src dst : Nat}

theorem loopsKept_succ (l : ForNextIns) (src dst n : Nat) :
    loopsKept l src dst (n + 1) =
      if (l.loopAt n).LeftBy src dst then loopsKept l src dst n else n + 1 := rfl

/-- The loop of `run_ci_cj_ins` drops the last entries as long as the jump leaves them. -/
theorem map_loopsKept (l : ForNextIns) (src dst n : Nat) :
    (range (loopsKept l src dst n)).map l.loopAt =
      ((range n).map l.loopAt).rdropWhile (LoopEntry.LeftBy · src dst) := by
  induction n with
  | zero => rfl
  | succ n ih =>
    rw [loopsKept_succ, range_succ, map_append, map_singleton,
      rdropWhile_concat]
    by_cases hleft : (l.loopAt n).LeftBy src dst
    · rw [if_pos hleft, ih, if_pos (decide_eq_true hleft)]
    · rw [if_neg hleft, if_neg (by simpa using hleft), range_succ, map_append,
        map_singleton]

/-- The stack after a jump. -/
theorem loopList_runCiCjIns (hpower : getPowerFlow env.inPF = true) :
    (runCiCjIns u env plc).plc.loops.loopList =
      plc.loops.loopList.rdropWhile
        (LoopEntry.LeftBy · env.pc (jumpTarget env.pc (u.getPU32 (env.pc + 6)))) := by
  rw [runCiCjIns, if_pos hpower]
  simp only [RunEnv.done, Plc.loops_setLoops]
  exact map_loopsKept plc.loops env.pc _ plc.loops.nestedNum

/-- The loops without their ends are those of the abstract machine. -/
theorem stack_eq_loopList (l : ForNextIns) :
    l.stack = (l.loopList.map fun e => (e.start, e.cnt)).reverse := by
  have hentries (n : Nat) : l.entries n =
      (((range n).map l.loopAt).map fun e => (e.start, e.cnt)).reverse := by
    induction n with
    | zero => rfl
    | succ n ih =>
      rw [ForNextIns.entries, ih, range_succ, map_append, map_append,
        reverse_append]
      rfl
  exact hentries l.nestedNum

/-- Dropping the last elements with one property gives those with another, which excludes the first,
exactly if these come first and there are no others. -/
theorem rdropWhile_eq_filter_iff {α : Type*} {p q : α → Prop} [DecidablePred p] [DecidablePred q]
    (hpq : ∀ x, p x → ¬ q x) (xs : List α) :
    xs.rdropWhile (p ·) = xs.filter (q ·) ↔
      ∃ kept left, xs = kept ++ left ∧ (∀ x ∈ kept, q x) ∧ ∀ x ∈ left, p x := by
  constructor
  · intro heq
    refine ⟨xs.rdropWhile (p ·), xs.rtakeWhile (p ·), rdropWhile_append_rtakeWhile.symm,
      fun x hx => ?_, fun x hx => by simpa using mem_rtakeWhile_imp hx⟩
    rw [heq] at hx
    simpa using (mem_filter.mp hx).2
  · rintro ⟨kept, left, rfl, hkept, hleft⟩
    have hdrop : (kept ++ left).rdropWhile (p ·) = kept := by
      induction left using reverseRecOn with
      | nil =>
        rw [append_nil, rdropWhile_eq_self_iff]
        intro hne hlast
        exact hpq _ (of_decide_eq_true hlast) (hkept _ (getLast_mem hne))
      | append_singleton left x ih =>
        obtain ⟨hleft, hx⟩ := forall_mem_append.mp hleft
        have hx := decide_eq_true (forall_mem_singleton.mp hx)
        rw [← append_assoc, rdropWhile_concat_pos (p ·) _ x hx]
        exact ih hleft
    rw [hdrop, filter_append, filter_eq_self.mpr (by simpa using hkept),
      filter_eq_nil_iff.mpr (by simpa using fun x hx => hpq x (hleft x hx)), append_nil]

/-- A jump is right exactly if it leaves the loops on top of the stack. -/
theorem cj_right_iff (u : Ucode) (env : RunEnv) (plc : Plc)
    (hpower : getPowerFlow env.inPF = true) :
    CjRight u env plc ↔
      LeavesTop env.pc (jumpTarget env.pc (u.getPU32 (env.pc + 6))) plc.loops := by
  rw [LeavesTop, ← rdropWhile_eq_filter_iff fun _ => LoopEntry.LeftBy.not_around]
  constructor
  · intro h
    rw [← loopList_runCiCjIns hpower]
    exact h.loops
  · intro h
    have hloops : (runCiCjIns u env plc).plc.loops.loopList = _ :=
      (loopList_runCiCjIns hpower).trans h
    refine ⟨hloops, fun env' => ?_⟩
    rw [runCiNextIns_loopState, stack_eq_loopList, hloops]

/-- The program `LDI X0; FOR K2; FOR K1; NEXT; CJ; NEXT; LDI X0; FEND` with a jump to its end. -/
def leftLoopFile : Ucode :=
  [0, 0, 0, 0, 0, 0, 72, 0, 0, 0] ++ replicate 18 0 ++ [0x00, 0x20] ++
    [0x1F, 0xF0, 0x00, 0xFF, 0x02, 0x00, 0x22, 0x00, 0x00, 0x00] ++ oneLoop ++
    [0x1E, 0xF0, 0x00, 0x00, 0x00, 0x00, 0x0E, 0x00, 0x00, 0x00] ++ [0x20, 0xF0] ++ [0x00, 0x20] ++
    [0x2B, 0xF0] ++ replicate 4 0

/-- The jump before the end of the outer loop, with nothing above that loop on the stack. -/
theorem cj_right_leftLoopFile :
    CjRight leftLoopFile ⟨1, 0, 52⟩
      (Plc.off.setLoops ⟨fun _ => 2, fun _ => 30, fun _ => 64, 1⟩) := by
  refine (cj_right_iff leftLoopFile ⟨1, 0, 52⟩ _ rfl).mpr ⟨[], [⟨30, 64, 2⟩], rfl, ?_, ?_⟩
  · exact forall_mem_nil _
  · exact forall_mem_singleton.mpr (by decide)

/-- The loop that is left stays on the stack, as the one in it has come to its end and lies above
it. -/
theorem cj_keeps_left_loop : ¬ ∀ (out : Outside) (s : CompState) (u : Ucode) (c : Config),
    Accepts enoughMemory u s → Reachable out s u c →
      ComplexIns.ofCode (u.getPU16 c.env.pc) = some .cj → getPowerFlow c.env.inPF = true →
        CjRight u c.env c.plc := by
  intro h
  have hrun : (runFor .idle (tablesOf leftLoopFile 9) leftLoopFile 4 (scanStart .off)).map
      (fun c => (c.env.pc, c.env.inPF, c.plc.loops.loopList)) =
        some (52, 1, [⟨30, 64, 2⟩, ⟨40, 52, 0⟩]) := by decide +kernel
  obtain ⟨c, hrun, hc⟩ := Option.map_eq_some_iff.mp hrun
  obtain ⟨hpc, hc⟩ := Prod.mk.inj hc
  obtain ⟨hpower, hloops⟩ := Prod.mk.inj hc
  have hright := h .idle _ leftLoopFile c (accepts_tablesOf ⟨_, rfl⟩) ⟨.off, reaches_of_runFor hrun⟩
    (by rw [hpc]; decide) (by rw [hpower]; decide)
  have hkeeps := hright.loops
  rw [loopList_runCiCjIns (by rw [hpower]; decide), hloops, hpc] at hkeeps
  exact absurd hkeeps (by decide)

end Kalyke
