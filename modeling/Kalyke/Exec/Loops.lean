-- SUMMARY: The loops of the interpreter, as a machine with a lazily popped stack.
import Kalyke.Exec.LoopStack
import Kalyke.Exec.Progress
import Kalyke.Lib.LazyLoops

/-!
# FOR and NEXT

The loop stack of a call level is that of a machine with lazily popped loops. A structured program
without jumps, with power flow at its `FOR` instructions and counts that do not change, is executed
as written exactly if that machine does so.
-/

namespace Kalyke

open List Function Option

variable {out : Outside} {t : CompState} {u : Ucode} {now : BitVec 32} {env : RunEnv} {plc : Plc}
variable {c c' : Config}

/-- The lengths of `FOR` and `NEXT`, the counters of 16 bits, and the size of the arrays. -/
def plcFormat : LazyLoops.Format where
  enterLen := 10
  nextLen := 2
  modulus := 65536
  room := maxForNextNestedNum
  enterLen_pos := by decide
  nextLen_pos := by decide

/-- The lowest `n` entries of a loop stack, the last one first. -/
def ForNextIns.entries (l : ForNextIns) : Nat → List (Nat × Nat)
  | 0 => []
  | n + 1 => (l.startUcodeAddr n, l.loopCnt n) :: l.entries n

/-- The entries in use. -/
def ForNextIns.stack (l : ForNextIns) : List (Nat × Nat) := l.entries l.nestedNum

/-- The state of the abstract machine. -/
def Config.loopState (c : Config) : LazyLoops.State := ⟨c.env.pc, c.plc.loops.stack⟩

/-- The program is executed over the instructions at the given addresses, with the loop stack
accessed inside its arrays. -/
inductive Executes (out : Outside) (t : CompState) (u : Ucode) :
    Config → List Nat → Config → Prop where
  | nil (c : Config) : Executes out t u c [] c
  | cons {c a c' : Config} {tr : List Nat} (hrange : LoopStackInRange u c)
      (hins : Completes out t u c a) (hrest : Executes out t u a tr c') :
      Executes out t u c (c.env.pc :: tr) c'

/-- From `c` on the program is executed as structured loops: every time a `FOR` is reached its body
is executed as often as its count says, and then the program goes on behind its `NEXT`. -/
def ExecutesStructured (out : Outside) (t : CompState) (u : Ucode) (c : Config)
    (prog : LazyLoops.Prog) : Prop :=
  ∃ c', Executes out t u c (prog.trace plcFormat c.env.pc) c' ∧
    c'.env.pc = c.env.pc + prog.size plcFormat

/-- The states `I` are those of a run without jumps over the instructions in `code`: the PLC runs,
the other instructions fall through, and at each `FOR` there is power flow and the count given. -/
structure Steady (out : Outside) (t : CompState) (u : Ucode) (I : Config → Prop)
    (code : Nat → Option LazyLoops.Ins) : Prop where
  keeps : ∀ c c', I c → (code c.env.pc).isSome → Completes out t u c c' → I c'
  running : ∀ c, I c → c.plc.store.errorStatusStop = false
  line : ∀ c len, I c → code c.env.pc = some (.line len) →
    ¬ StoresLoop u c.env c.plc ∧ ¬ ReadsLoops u c.env ∧ (∃ c', Completes out t u c c') ∧
      ∀ c', Completes out t u c c' → c'.env.pc = c.env.pc + len
  enter : ∀ c cnt target, I c → code c.env.pc = some (.enter cnt target) →
    ComplexIns.ofCode (u.getPU16 c.env.pc) = some .for_ ∧ forTarget u c.env.pc = target ∧
      getPowerFlow c.env.inPF = true ∧
      ∃ x, getWord u (c.env.pc + 2) c.plc.store c.plc.sbrNestedNum 0 1 = (.ok (), [x]) ∧
        x.toNat = cnt
  next : ∀ c, I c → code c.env.pc = some .next →
    ComplexIns.ofCode (u.getPU16 c.env.pc) = some .next

/-! ## The loop stack -/

namespace ForNextIns

variable {l l' : ForNextIns} {n : Nat}

theorem length_entries (l : ForNextIns) (n : Nat) : (l.entries n).length = n := by
  induction n with
  | zero => rfl
  | succ n ih => rw [entries, length_cons, ih]

theorem length_stack (l : ForNextIns) : l.stack.length = l.nestedNum := l.length_entries _

theorem entries_congr (h : ∀ i < n, l.startUcodeAddr i = l'.startUcodeAddr i ∧
    l.loopCnt i = l'.loopCnt i) : l.entries n = l'.entries n := by
  induction n with
  | zero => rfl
  | succ n ih =>
    obtain ⟨hstart, hcnt⟩ := h n (Nat.lt_succ_self n)
    rw [entries, entries, hstart, hcnt, ih fun i hi => h i (Nat.lt_succ_of_lt hi)]

/-- The addresses stored by a `FOR` lie above the entries in use. -/
theorem stack_setAddr (l : ForNextIns) (p : Nat) : (l.setAddr u p).stack = l.stack :=
  entries_congr fun _ hi => ⟨update_of_ne (Nat.ne_of_lt hi) _ _, rfl⟩

theorem stack_push (l : ForNextIns) (p cnt : Nat) :
    ((l.setAddr u p).push cnt).stack = (p, cnt) :: l.stack := by
  show (update l.startUcodeAddr l.nestedNum p l.nestedNum,
    update l.loopCnt l.nestedNum cnt l.nestedNum) :: _ = _
  rw [update_self, update_self]
  refine congrArg _ (entries_congr fun i hi => ?_)
  exact ⟨update_of_ne (Nat.ne_of_lt hi) _ _, update_of_ne (Nat.ne_of_lt hi) _ _⟩

theorem stack_setTop (h : l.nestedNum = n + 1) (cnt : Nat) :
    (l.setTop cnt).stack = (l.startUcodeAddr n, cnt) :: l.entries n := by
  show (l.setTop cnt).entries l.nestedNum = _
  rw [h]
  show (l.startUcodeAddr n, update l.loopCnt (l.nestedNum - 1) cnt n) :: _ = _
  rw [h, Nat.add_sub_cancel, update_self]
  refine congrArg _ (entries_congr fun i hi => ⟨rfl, ?_⟩)
  show update l.loopCnt (l.nestedNum - 1) cnt i = _
  rw [h, Nat.add_sub_cancel, update_of_ne (Nat.ne_of_lt hi)]

end ForNextIns

/-- What an instruction makes of the state of the abstract machine. -/
def InsResult.loopState (r : InsResult) (p : Nat) : LazyLoops.State :=
  ⟨r.flow.apply p, r.plc.loops.stack⟩

theorem nextTop_loopState {l : ForNextIns} {n : Nat} (h : l.nestedNum = n + 1) :
    (nextTop env plc l).loopState env.pc =
      LazyLoops.nextTop plcFormat env.pc (l.startUcodeAddr n, l.loopCnt n) (l.entries n) := by
  unfold nextTop LazyLoops.nextTop
  rw [h, Nat.add_sub_cancel]
  split
  · simp only [InsResult.loopState, RunEnv.done, Flow.apply, Plc.loops_setLoops,
      ForNextIns.stack_setTop h]
    rfl
  · simp only [InsResult.loopState, RunEnv.done, Flow.apply, Plc.loops_setLoops,
      ForNextIns.stack_setTop h]
    rfl

theorem runCiNextIns_loopState :
    (runCiNextIns env plc).loopState env.pc =
      LazyLoops.next plcFormat env.pc plc.loops.stack := by
  unfold runCiNextIns ForNextIns.stack
  dsimp only
  cases hn : plc.loops.nestedNum with
  | zero =>
    simp only [↓reduceIte, InsResult.loopState, RunEnv.done, Flow.apply, ForNextIns.stack, hn]
    rfl
  | succ n =>
    simp only [Nat.add_one_ne_zero, ↓reduceIte, Nat.add_sub_cancel, ForNextIns.entries,
      LazyLoops.next]
    split
    · cases n with
      | zero =>
        simp only [↓reduceIte, InsResult.loopState, RunEnv.done, Flow.apply, Plc.loops_setLoops]
        rfl
      | succ n =>
        let popped : ForNextIns := { plc.loops with nestedNum := n + 1 }
        have hentries : popped.entries n = plc.loops.entries n :=
          ForNextIns.entries_congr fun _ _ => ⟨rfl, rfl⟩
        exact (nextTop_loopState (l := popped) rfl).trans (by rw [hentries]; rfl)
    · exact nextTop_loopState hn

/-- An instruction passes and changes neither the elements nor the power flow. -/
structure InsResult.Passes (r : InsResult) (env : RunEnv) (plc : Plc) : Prop where
  ret : r.ret = .pass
  inPF : r.inPF = env.inPF
  store : r.plc.store = plc.store

theorem runCiNextIns_passes (env : RunEnv) (plc : Plc) : (runCiNextIns env plc).Passes env plc := by
  have htop (l : ForNextIns) : (nextTop env plc l).Passes env plc := by
    unfold nextTop
    split <;> exact ⟨rfl, rfl, rfl⟩
  unfold runCiNextIns
  dsimp only
  split
  · exact ⟨rfl, rfl, rfl⟩
  · split
    · split
      · exact ⟨rfl, rfl, rfl⟩
      · exact htop _
    · exact htop _

theorem runCiForIns_loopState {x : BitVec 16} (hpower : getPowerFlow env.inPF = true)
    (hget : getWord u (env.pc + 2) plc.store plc.sbrNestedNum 0 1 = (.ok (), [x])) :
    (runCiForIns u env plc).Passes env plc ∧ (runCiForIns u env plc).loopState env.pc =
      if 0 < x.toNat then ⟨env.pc + 10, (env.pc, x.toNat) :: plc.loops.stack⟩
      else ⟨forTarget u env.pc, plc.loops.stack⟩ := by
  simp only [runCiForIns, hget, hpower, true_and, headD_cons]
  split
  · refine ⟨⟨rfl, rfl, rfl⟩, ?_⟩
    simp [InsResult.loopState, RunEnv.done, Flow.apply, ForNextIns.stack_push]
  · refine ⟨⟨rfl, rfl, rfl⟩, ?_⟩
    simp [InsResult.loopState, RunEnv.done, Flow.apply, ForNextIns.stack_setAddr]

/-! ## Simulation -/

theorem plcJudgeRunOverTime_pass {s : Store} (simple : Bool) :
    (plcJudgeRunOverTime now (reportResult simple .pass s)).errorStatusStop = false ↔
      s.errorStatusStop = false ∧ ¬ OverTime now s := by
  cases simple <;> simp [reportResult, plcJudgeRunOverTime_stop]

/-- An instruction that passes can be executed while the PLC runs: at the tick count of the last
reset the watchdog has not run out. -/
theorem InsResult.Passes.exists_completes {r : InsResult} (h : r.Passes c.env c.plc)
    (hexec : ∀ now, execIns out t u now c.env c.plc = .done r)
    (hrun : c.plc.store.errorStatusStop = false) : ∃ c', Completes out t u c c' := by
  suffices h : ∃ now s,
      step out t u now c = .inl ⟨r.env c.env.pc, c.frames, { r.plc with store := s }⟩ by
    obtain ⟨now, s, h⟩ := h
    exact ⟨_, .one ⟨now, h⟩ rfl⟩
  refine ⟨r.plc.store.watchDogTime, ?_⟩
  rw [step, hexec]
  rw [← h.store] at hrun
  simp only [afterIns, h.ret, RetValue.leaves, Bool.false_eq_true, ↓reduceIte]
  split
  · exact ⟨r.plc.store, rfl⟩
  · have htime : ¬ OverTime r.plc.store.watchDogTime r.plc.store := by simp [OverTime]
    have hreport := (plcJudgeRunOverTime_pass (decide (RunsSimple u c.env.pc))).mpr ⟨hrun, htime⟩
    rw [if_neg (by simp only [Plc.onStore, hreport, Bool.false_eq_true, not_false_eq_true])]
    exact ⟨_, rfl⟩

/-- What a single instruction that does not enter a subroutine comes to. -/
theorem Completes.of_done {r : InsResult} (h : Completes out t u c c')
    (hexec : ∀ now, execIns out t u now c.env c.plc = .done r) :
    ∃ s, (s = r.plc.store ∨ s.errorStatusStop = false) ∧
      c' = ⟨r.env c.env.pc, c.frames, { r.plc with store := s }⟩ := by
  cases h with
  | one hstep hframes =>
    obtain ⟨now, hstep⟩ := hstep
    cases step_cases hstep with
    | ins r' s hexec' hret hstore hnext =>
      obtain rfl := InsOutcome.done.inj ((hexec now).symm.trans hexec')
      exact ⟨s, hstore, hnext⟩
    | call entry cnt plc hexec' hnext => exact absurd ((hexec now).symm.trans hexec') (by simp)
    | ret f fs r' s hexec' hret hfs hnext =>
      rw [hnext, hfs] at hframes
      exact absurd hframes.symm (cons_ne_self _ _)
  | call f a b henter hf hrun hreturn hframes =>
    obtain ⟨now, henter⟩ := henter
    obtain ⟨-, entry, cnt, plc, hexec'⟩ := frame_of_call henter hf
    exact absurd ((hexec now).symm.trans hexec') (by simp)

theorem Completes.loopState_of_done {r : InsResult} (h : Completes out t u c c')
    (hexec : ∀ now, execIns out t u now c.env c.plc = .done r) :
    c'.loopState = r.loopState c.env.pc := by
  obtain ⟨s, -, rfl⟩ := h.of_done hexec
  rfl

section

variable {I : Config → Prop} {code : Nat → Option LazyLoops.Ins}

theorem loopStackInRange_of_for (hi : ComplexIns.ofCode (u.getPU16 c.env.pc) = some .for_)
    {xs : List (BitVec 16)}
    (hget : getWord u (c.env.pc + 2) c.plc.store c.plc.sbrNestedNum 0 1 = (.ok (), xs)) :
    LoopStackInRange u c ↔ c.loopState.stack.length < plcFormat.room := by
  rw [Config.loopState, ForNextIns.length_stack]
  refine ⟨fun h => h.stores ⟨hi, xs, hget⟩, fun h => ⟨fun _ => h, ?_⟩⟩
  rintro (hnext | ⟨hcj, -⟩)
  · exact absurd (hi.symm.trans hnext) (by simp)
  · exact absurd (hi.symm.trans hcj) (by simp)

theorem loopStackInRange_of_next (hi : ComplexIns.ofCode (u.getPU16 c.env.pc) = some .next) :
    LoopStackInRange u c ↔ c.loopState.stack.length ≤ plcFormat.room := by
  rw [Config.loopState, ForNextIns.length_stack]
  refine ⟨fun h => h.reads (.inl hi), fun h => ⟨fun hstores => ?_, fun _ => h⟩⟩
  exact absurd (hi.symm.trans hstores.1) (by simp)

/-- The abstract machine does what an executed instruction does. -/
theorem Steady.step_of_completes (hs : Steady out t u I code) (hc : I c)
    (hcode : (code c.env.pc).isSome) (hrange : LoopStackInRange u c)
    (h : Completes out t u c c') :
    LazyLoops.step plcFormat code c.loopState = some c'.loopState := by
  obtain ⟨ins, hins⟩ := isSome_iff_exists.mp hcode
  have hpc : code c.loopState.pc = some ins := hins
  rw [LazyLoops.step, hpc]
  cases ins with
  | line len =>
    obtain ⟨hstores, hreads, -, hnext⟩ := hs.line c len hc hins
    simp only [Config.loopState, hnext c' h, h.control.2 hstores hreads]
  | enter cnt target =>
    obtain ⟨hi, htarget, hpower, x, hget, hx⟩ := hs.enter c cnt target hc hins
    obtain ⟨-, hstate⟩ := runCiForIns_loopState hpower hget
    have hc' := h.loopState_of_done fun now => execIns_complex hi
    simp only [if_pos ((loopStackInRange_of_for hi hget).mp hrange), hc', hstate, hx, htarget]
    rfl
  | next =>
    have hi := hs.next c hc hins
    have hc' := h.loopState_of_done fun now => execIns_complex hi
    simp only [if_pos ((loopStackInRange_of_next hi).mp hrange), hc', runCiNextIns_loopState]
    rfl

/-- An instruction can be executed, inside the arrays, if the abstract machine has a step. -/
theorem Steady.completes_of_step (hs : Steady out t u I code) (hc : I c) {a : LazyLoops.State}
    (hstep : LazyLoops.step plcFormat code c.loopState = some a) :
    LoopStackInRange u c ∧ ∃ c', Completes out t u c c' := by
  unfold LazyLoops.step at hstep
  split at hstep
  · rename_i len hins
    obtain ⟨hstores, hreads, hexists, -⟩ := hs.line c len hc hins
    exact ⟨⟨fun h => absurd h hstores, fun h => absurd h hreads⟩, hexists⟩
  · rename_i cnt target hins
    obtain ⟨hi, -, hpower, x, hget, -⟩ := hs.enter c cnt target hc hins
    obtain ⟨hpasses, -⟩ := runCiForIns_loopState hpower hget
    split at hstep
    · rename_i hroom
      refine ⟨(loopStackInRange_of_for hi hget).mpr hroom, ?_⟩
      exact hpasses.exists_completes (fun now => execIns_complex hi) (hs.running c hc)
    · cases hstep
  · rename_i hins
    have hi := hs.next c hc hins
    split at hstep
    · rename_i hroom
      refine ⟨(loopStackInRange_of_next hi).mpr hroom, ?_⟩
      exact (runCiNextIns_passes c.env c.plc).exists_completes (fun now => execIns_complex hi)
        (hs.running c hc)
    · cases hstep
  · cases hstep

/-- The run of the interpreter is one of the abstract machine. -/
theorem Steady.follows_of_executes (hs : Steady out t u I code) {tr : List Nat} (hc : I c)
    (hcode : ∀ p ∈ tr, (code p).isSome) (h : Executes out t u c tr c') :
    LazyLoops.Follows plcFormat code c.loopState tr c'.loopState := by
  induction h with
  | nil c => exact .nil _
  | cons hrange hins hrest ih =>
    have hsome := hcode _ (mem_cons_self ..)
    refine .cons (hs.step_of_completes hc hsome hrange hins) ?_
    exact ih (hs.keeps _ _ hc hsome hins) fun p hp => hcode p (mem_cons_of_mem _ hp)

/-- The run of the abstract machine is one of the interpreter. -/
theorem Steady.executes_of_follows (hs : Steady out t u I code) {tr : List Nat}
    {s a : LazyLoops.State} (hc : I c) (hstate : c.loopState = s)
    (h : LazyLoops.Follows plcFormat code s tr a) :
    ∃ c', Executes out t u c tr c' ∧ c'.loopState = a := by
  induction h generalizing c with
  | nil s => exact ⟨c, .nil c, hstate⟩
  | @cons s b a tr hstep hrest ih =>
    subst hstate
    have hsome : (code c.env.pc).isSome := by
      by_contra hnone
      rw [not_isSome_iff_eq_none] at hnone
      rw [LazyLoops.step, show code c.loopState.pc = none from hnone] at hstep
      cases hstep
    obtain ⟨hrange, d, hins⟩ := hs.completes_of_step hc hstep
    have hd : d.loopState = b :=
      some.inj ((hs.step_of_completes hc hsome hrange hins).symm.trans hstep)
    obtain ⟨c', hexec, hc'⟩ := ih (hs.keeps c d hc hsome hins) hd
    exact ⟨c', .cons hrange hins hexec, hc'⟩

/-- A structured program is executed as written if and only if the abstract machine does so. -/
theorem Steady.executesStructured_iff (hs : Steady out t u I code) {prog : LazyLoops.Prog}
    (hplaced : prog.Placed plcFormat code c.env.pc) (hc : I c) :
    ExecutesStructured out t u c prog ↔ prog.Fits plcFormat c.plc.loops.nestedNum := by
  rw [← ForNextIns.length_stack, ← prog.reaches_iff hplaced]
  constructor
  · rintro ⟨c', hexec, hpc⟩
    exact ⟨c'.loopState, hs.follows_of_executes hc (prog.code_of_mem_trace hplaced) hexec, hpc⟩
  · rintro ⟨a, hfollows, hpc⟩
    obtain ⟨c', hexec, rfl⟩ := hs.executes_of_follows hc rfl hfollows
    exact ⟨c', hexec, hpc⟩

/-- A structured program that is started with an empty loop stack, without jumps, with power flow at
its `FOR` instructions and counts that stay the same, is executed as written if and only if it
fits. -/
theorem executesStructured_iff_fits (hs : Steady out t u I code) {prog : LazyLoops.Prog}
    (hplaced : prog.Placed plcFormat code c.env.pc) (hc : I c)
    (hempty : c.plc.loops.nestedNum = 0) :
    ExecutesStructured out t u c prog ↔ prog.Fits plcFormat 0 := by
  rw [hs.executesStructured_iff hplaced hc, hempty]

end

/-! ## Loops with constant counts -/

def Powered (c : Config) : Prop :=
  getPowerFlow c.env.inPF = true ∧ c.plc.store.errorStatusStop = false

/-- The loops of a file whose counts are literals. -/
def constLoops (u : Ucode) (p : Nat) : Option LazyLoops.Ins :=
  match ComplexIns.ofCode (u.getPU16 p) with
  | some .for_ =>
    if u.getPU8 (p + 2) < 2 ∧ u.getPU8 (p + 3) = AddrType.code .const then
      some (.enter (u.getPU16 (p + 4)) (forTarget u p))
    else none
  | some .next => some .next
  | _ => none

theorem constLoops_ne_line {p len : Nat} : constLoops u p ≠ some (.line len) := by
  unfold constLoops
  split
  · split <;> simp
  · simp
  · simp

theorem getWord_const {p : Nat} (s : Store) (n : Nat) (hsub : u.getPU8 p < 2)
    (htype : u.getPU8 (p + 1) = AddrType.code .const) :
    getWord u p s n 0 1 = (.ok (), [BitVec.ofNat 16 (u.getPU16 (p + 2))]) := by
  simp [getWord, htype, AddrType.ofCode_code, getWordTable, Nat.not_le_of_lt hsub]

theorem constLoops_enter {p cnt target : Nat} (h : constLoops u p = some (.enter cnt target))
    (s : Store) (n : Nat) :
    ComplexIns.ofCode (u.getPU16 p) = some .for_ ∧ forTarget u p = target ∧
      ∃ x, getWord u (p + 2) s n 0 1 = (.ok (), [x]) ∧ x.toNat = cnt := by
  unfold constLoops at h
  split at h
  · rename_i hi
    split at h
    · rename_i hconst
      cases h
      refine ⟨hi, rfl, _, getWord_const s n hconst.1 hconst.2, ?_⟩
      exact (BitVec.toNat_ofNat _ _).trans (Nat.mod_eq_of_lt Ucode.getPU16_lt)
    · cases h
  · cases h
  · cases h

theorem constLoops_next {p : Nat} (h : constLoops u p = some .next) :
    ComplexIns.ofCode (u.getPU16 p) = some .next := by
  unfold constLoops at h
  split at h
  · split at h <;> cases h
  · assumption
  · cases h

theorem InsResult.Passes.powered {r : InsResult} (h : r.Passes c.env c.plc) (hc : Powered c)
    (hexec : ∀ now, execIns out t u now c.env c.plc = .done r) (hins : Completes out t u c c') :
    Powered c' := by
  obtain ⟨s, hstore, rfl⟩ := hins.of_done hexec
  refine ⟨(congrArg getPowerFlow h.inPF).trans hc.1, ?_⟩
  rcases hstore with rfl | hrun
  · exact (congrArg Store.errorStatusStop h.store).trans hc.2
  · exact hrun

/-- Loops with literals as counts keep their power flow and their counts. -/
theorem steady_constLoops (out : Outside) (t : CompState) (u : Ucode) :
    Steady out t u Powered (constLoops u) where
  keeps := by
    intro c c' hc hsome hins
    obtain ⟨ins, hpc⟩ := isSome_iff_exists.mp hsome
    cases ins with
    | line len => exact absurd hpc constLoops_ne_line
    | enter cnt target =>
      obtain ⟨hi, -, x, hget, -⟩ := constLoops_enter hpc c.plc.store c.plc.sbrNestedNum
      obtain ⟨hpasses, -⟩ := runCiForIns_loopState hc.1 hget
      exact hpasses.powered hc (fun now => execIns_complex hi) hins
    | next =>
      exact (runCiNextIns_passes c.env c.plc).powered hc
        (fun now => execIns_complex (constLoops_next hpc)) hins
  running := fun c hc => hc.2
  line := fun c len _ hpc => absurd hpc constLoops_ne_line
  enter := by
    intro c cnt target hc hpc
    obtain ⟨hi, htarget, hget⟩ := constLoops_enter hpc c.plc.store c.plc.sbrNestedNum
    exact ⟨hi, htarget, hc.1, hget⟩
  next := fun c _ hpc => constLoops_next hpc

/-- The program `LDI X0; FOR K2; FOR K3; NEXT; NEXT; FEND`. -/
def nestedLoopsFile : Ucode :=
  [0, 0, 0, 0, 0, 0, 60, 0, 0, 0] ++ replicate 18 0 ++ [0x00, 0x20] ++
    [0x1F, 0xF0, 0x00, 0xFF, 0x02, 0x00, 0x18, 0x00, 0x00, 0x00] ++
    [0x1F, 0xF0, 0x00, 0xFF, 0x03, 0x00, 0x0C, 0x00, 0x00, 0x00] ++ [0x20, 0xF0] ++ [0x20, 0xF0] ++
    [0x2B, 0xF0] ++ replicate 4 0

/-- A loop in a loop is executed as written. -/
theorem nestedLoopsFile_structured : ∃ c,
    Reachable .idle (tablesOf nestedLoopsFile 7) nestedLoopsFile c ∧
    c.env.pc = 30 ∧
    ExecutesStructured .idle (tablesOf nestedLoopsFile 7) nestedLoopsFile c
      (.loop 2 (.loop 3 .nil .nil) .nil) := by
  have hrun : ∃ c,
      runFor .idle (tablesOf nestedLoopsFile 7) nestedLoopsFile 1 (scanStart .off) = some c ∧
      c.env.pc = 30 ∧ Powered c ∧ c.plc.loops.nestedNum = 0 := ⟨_, rfl, rfl, ⟨rfl, rfl⟩, rfl⟩
  obtain ⟨c, hrun, hpc, hpowered, hempty⟩ := hrun
  refine ⟨c, ⟨.off, reaches_of_runFor hrun⟩, hpc, ?_⟩
  refine (executesStructured_iff_fits (steady_constLoops _ _ _) ?_ hpowered hempty).mpr (by decide)
  rw [hpc]
  exact ⟨by decide, by decide, ⟨by decide, by decide, trivial, by decide, trivial⟩, by decide,
    trivial⟩

/-- The program `LDI X0; FOR K1; FOR K1; NEXT; FOR K1; NEXT; NEXT; FEND`. -/
def siblingLoopsFile : Ucode :=
  [0, 0, 0, 0, 0, 0, 72, 0, 0, 0] ++ replicate 18 0 ++ [0x00, 0x20] ++
    [0x1F, 0xF0, 0x00, 0xFF, 0x01, 0x00, 0x24, 0x00, 0x00, 0x00] ++ oneLoop ++ oneLoop ++
    [0x20, 0xF0] ++ [0x2B, 0xF0] ++ replicate 4 0

/-- The `NEXT` of the outer loop finds the first of the two inner loops with the count zero, and
goes back into it. -/
theorem siblingLoopsFile_not_structured : ∃ s, Accepts enoughMemory siblingLoopsFile s ∧
    ∃ c, Reachable .idle s siblingLoopsFile c ∧ c.env.pc = 30 ∧
      LazyLoops.Prog.Placed plcFormat (constLoops siblingLoopsFile) 30
        (.loop 1 (.loop 1 .nil (.loop 1 .nil .nil)) .nil) ∧
      ¬ ExecutesStructured .idle s siblingLoopsFile c
        (.loop 1 (.loop 1 .nil (.loop 1 .nil .nil)) .nil) := by
  have hplaced : LazyLoops.Prog.Placed plcFormat (constLoops siblingLoopsFile) 30
      (.loop 1 (.loop 1 .nil (.loop 1 .nil .nil)) .nil) :=
    ⟨by decide, by decide, ⟨by decide, by decide, trivial, by decide,
      ⟨by decide, by decide, trivial, by decide, trivial⟩⟩, by decide, trivial⟩
  have hrun : ∃ c,
      runFor .idle (tablesOf siblingLoopsFile 9) siblingLoopsFile 1 (scanStart .off) = some c ∧
      c.env.pc = 30 ∧ Powered c ∧ c.plc.loops.nestedNum = 0 := ⟨_, rfl, rfl, ⟨rfl, rfl⟩, rfl⟩
  obtain ⟨c, hrun, hpc, hpowered, hempty⟩ := hrun
  refine ⟨_, accepts_tablesOf ⟨_, rfl⟩, c, ⟨.off, reaches_of_runFor hrun⟩, hpc, hplaced, ?_⟩
  rw [(steady_constLoops _ _ _).executesStructured_iff (hpc ▸ hplaced) hpowered, hempty]
  decide

end Kalyke
