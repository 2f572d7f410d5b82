-- SUMMARY: When an executed instruction leaves the program counter where it was.
import Kalyke.Compiler.Accepted
import Kalyke.Exec.Control
import Kalyke.Exec.Lengths

/-!
# Progress

After an error that does not stop the run the interpreter goes on at the program counter, so an
instruction that reports such an error before it has moved the counter is executed again, and a jump
onto itself is executed for ever. At the boundaries of an accepted file these are the only
instructions after which the program counter is what it was.
-/

namespace Kalyke

open List Option

variable {alloc : Nat → Bool} {out : Outside} {t : CompState} {u : Ucode} {now : BitVec 32}
variable {env : RunEnv} {plc : Plc} {p n : Nat} {r : InsResult}

/-- The watchdog has run out at the tick count `now`. -/
def OverTime (now : BitVec 32) (s : Store) : Prop :=
  s.isOnlineProgram = false ∧ (s.word .SD 34).setWidth 32 < now - s.watchDogTime

/-- An error found with the elements `s` is reported and does not stop the run. -/
structure GoesOn (now : BitVec 32) (e : PlcErr) (s : Store) : Prop where
  nonStop : e.stops = false
  running : s.errorStatusStop = false
  inTime : ¬ OverTime now s

/-- The loop `run_ci_next_ins` goes back to, after the innermost one is removed if it has come to
its end. -/
def ForNextIns.repeats (l : ForNextIns) : Option Nat :=
  let top (i : Nat) := if l.loopCnt i = 1 then none else some i
  match l.nestedNum with
  | 0 => none
  | i + 1 =>
    if l.loopCnt i = 0 then (match i with | 0 => none | j + 1 => top j) else top i

section

variable (out : Outside) (t : CompState) (u : Ucode) (now : BitVec 32) (env : RunEnv) (plc : Plc)

/-- The comparison contact at the program counter is evaluated, and an operand is in an error that
does not stop the run. -/
def CompareFails (w : CmpWidth) (k : CmpConn) (x : CmpRel) : Prop :=
  k.evaluates env.inPF = true ∧
    ∃ e, compareClosed out u env plc k x w = .error e ∧ GoesOn now e plc.store

/-- The `MC` at the program counter loses its power flow, and the clean-up of its block ends in an
error that does not stop the run. -/
def McFails : Prop :=
  getPowerFlow env.inPF = false ∧ plc.store.edgeValue (u.getPU16 (env.pc + 6)) = true ∧
    ∃ e plc', plcMcInsCleanElement out t u now env.pc
      (plc.onStore (·.setEdge (u.getPU16 (env.pc + 6)) false)) = (.error e, plc') ∧
      GoesOn now e plc'.store

/-- The `MC` at the program counter passes over a block of length zero. -/
def McCircles : Prop :=
  getPowerFlow env.inPF = false ∧ u.getPU16 (env.pc + 8) = 0 ∧
    (plc.store.edgeValue (u.getPU16 (env.pc + 6)) = true →
      ∃ plc', plcMcInsCleanElement out t u now env.pc
        (plc.onStore (·.setEdge (u.getPU16 (env.pc + 6)) false)) = (.ok (), plc'))

/-- The single `STL` at the program counter passes over a block of length zero. -/
def StlCircles : Prop :=
  u.getPU16 (env.pc + 10) ≠ ComplexIns.code .stl ∧
    plc.store.bit .S (u.getPU16 (env.pc + 4) % 256) = false ∧ u.getPU16 (env.pc + 8) = 0

/-- The `FOR` at the program counter passes over its loop and ends up at itself. -/
def ForCircles : Prop :=
  ∃ xs, getWord u (env.pc + 2) plc.store plc.sbrNestedNum 0 1 = (.ok (), xs) ∧
    ¬ (getPowerFlow env.inPF = true ∧ 0 < (xs.headD 0).toNat) ∧ forTarget u env.pc = env.pc

/-- The instruction is one that is executed and leaves the program counter where it was: it reports
an error before it has moved the counter, or jumps onto itself. -/
def ComplexIns.Sticks : ComplexIns → Prop
  | compare w k x => CompareFails out u now env plc w k x
  | mc => McFails out t u now env plc ∨ McCircles out t u now env plc
  | stl => StlCircles u env plc
  | for_ => ForCircles u env plc
  | next => ∃ i, plc.loops.repeats = some i ∧ plc.loops.startUcodeAddr i + 10 = env.pc
  | cj => getPowerFlow env.inPF = true ∧ jumpTarget env.pc (u.getPU32 (env.pc + 6)) = env.pc
  | _ => False

/-- The instruction at the program counter is such a one. -/
def Sticks : Prop :=
  ∃ i, ComplexIns.ofCode (u.getPU16 env.pc) = some i ∧ i.Sticks out t u now env plc

end

/-! ## Reports -/

@[simp] theorem errorStatusStop_setBit (s : Store) (a : BitArea) (i : Nat) (b : Bool) :
    (s.setBit a i b).errorStatusStop = s.errorStatusStop := by
  cases a <;> rfl

@[simp] theorem errorStatusStop_setWord (s : Store) (a : WordArea) (i : Nat) (x : BitVec 16) :
    (s.setWord a i x).errorStatusStop = s.errorStatusStop := by
  cases a <;> rfl

@[simp] theorem overTime_setBit (s : Store) (a : BitArea) (i : Nat) (b : Bool) :
    OverTime now (s.setBit a i b) ↔ OverTime now s := by
  cases a <;> exact Iff.rfl

theorem overTime_setWord (s : Store) {i : Nat} (hi : i ≠ 34) (x : BitVec 16) :
    OverTime now (s.setWord (.elem .SD) i x) ↔ OverTime now s := by
  simp [OverTime, Store.setWord, Function.update_of_ne hi.symm]

theorem plcRefreshErrorMsg_stop (e : PlcErr) (s : Store) :
    (plcRefreshErrorMsg e s).errorStatusStop = (e.stops || s.errorStatusStop) := by
  cases e <;> simp [plcRefreshErrorMsg, PlcErr.stops] <;> split <;> simp

theorem overTime_plcRefreshErrorMsg (e : PlcErr) (s : Store) :
    OverTime now (plcRefreshErrorMsg e s) ↔ OverTime now s := by
  have hflag (s : Store) : OverTime now { s with errorStatusStop := true } ↔ OverTime now s :=
    Iff.rfl
  cases e <;> simp [plcRefreshErrorMsg, PlcErr.stops] <;> split <;> simp [hflag, overTime_setWord]

theorem plcJudgeRunOverTime_stop (s : Store) :
    (plcJudgeRunOverTime now s).errorStatusStop = false ↔
      s.errorStatusStop = false ∧ ¬ OverTime now s := by
  unfold plcJudgeRunOverTime
  split
  · rename_i hover
    have hstop := plcRefreshErrorMsg_stop .execOverTime s
    exact ⟨fun h => absurd (hstop.symm.trans h) (by simp [PlcErr.stops]), fun h => absurd hover h.2⟩
  · rename_i hover
    exact ⟨fun h => ⟨h, hover⟩, fun h => h.1⟩

theorem reportResult_goesOn_iff {e : PlcErr} {s : Store} (simple : Bool) :
    (plcJudgeRunOverTime now (reportResult simple (.err e) s)).errorStatusStop = false ↔
      GoesOn now e s := by
  rw [plcJudgeRunOverTime_stop, reportResult, plcRefreshErrorMsg_stop, overTime_plcRefreshErrorMsg,
    Bool.or_eq_false_iff]
  exact ⟨fun ⟨⟨h₁, h₂⟩, h₃⟩ => ⟨h₁, h₂, h₃⟩, fun ⟨h₁, h₂, h₃⟩ => ⟨⟨h₁, h₂⟩, h₃⟩⟩

/-! ## One instruction -/

/-- How an instruction at `p` ends, where `S` says that the program counter stays and the run goes
on. -/
inductive Ending (now : BitVec 32) (p : Nat) (S : Prop) (r : InsResult) : Prop where
  | moves (hpc : r.flow.apply p ≠ p) (hS : ¬ S)
  | leaves (hret : r.ret.leaves = true) (hS : ¬ S)
  | circles (hret : r.ret = .pass) (hpc : r.flow.apply p = p) (hS : S)
  | fails (e : PlcErr) (hret : r.ret = .err e) (hpc : r.flow.apply p = p)
      (hS : S ↔ GoesOn now e r.plc.store)

/-- A step keeps the activation and the program counter exactly if `S` holds. -/
theorem Ending.step_iff {S : Prop} {c : Config} (h : Ending now c.env.pc S r)
    (hexec : execIns out t u now c.env c.plc = .done r)
    (hcomplex : S → 0xF000 ≤ u.getPU16 c.env.pc) :
    (∃ c', step out t u now c = .inl c' ∧ c'.frames = c.frames ∧ c'.env.pc = c.env.pc) ↔ S := by
  have hstep : step out t u now c = afterIns u now (leaveProgram u now c.frames) c.frames c.env.pc
      (RunsSimple u c.env.pc) r := by
    rw [step, hexec]
  -- the activation goes on only if the instruction does not leave it
  have hins : ∀ c', step out t u now c = .inl c' → c'.frames = c.frames →
      r.ret.leaves = false ∧ c'.env.pc = r.flow.apply c.env.pc := by
    intro c' hc' hframes
    cases step_cases hc' with
    | ins r' s hexec' hret hstore hnext =>
      obtain rfl := InsOutcome.done.inj (hexec.symm.trans hexec')
      exact ⟨hret, hnext ▸ rfl⟩
    | call entry cnt plc hexec' hnext => exact absurd (hexec.symm.trans hexec') (by simp)
    | ret f fs r' s hexec' hret hfs hnext =>
      rw [hnext, hfs] at hframes
      exact absurd hframes.symm (cons_ne_self _ _)
  cases h with
  | moves hpc hS =>
    refine ⟨?_, fun h => absurd h hS⟩
    rintro ⟨c', hc', hframes, hsame⟩
    exact absurd ((hins c' hc' hframes).2.symm.trans hsame) hpc
  | leaves hret hS =>
    refine ⟨?_, fun h => absurd h hS⟩
    rintro ⟨c', hc', hframes, -⟩
    exact absurd (hret.symm.trans (hins c' hc' hframes).1) (by simp)
  | circles hret hpc hS =>
    refine ⟨fun _ => hS, fun _ => ⟨⟨r.env c.env.pc, c.frames, r.plc⟩, ?_, rfl, hpc⟩⟩
    have hcode := hcomplex hS
    have hsimple : ¬ RunsSimple u c.env.pc := by unfold RunsSimple; omega
    rw [hstep, afterIns, hret, if_neg (by simp [RetValue.leaves]), hpc,
      if_pos ⟨rfl, by simpa [hsimple] using hcode⟩]
  | fails e hret hpc hS =>
    rw [hS, ← reportResult_goesOn_iff (decide (RunsSimple u c.env.pc)), hstep, afterIns, hret,
      if_neg (by simp [RetValue.leaves]), if_neg (by simp [StaysInBatch])]
    constructor
    · rintro ⟨c', hc', -, -⟩
      by_contra hstop
      rw [Bool.not_eq_false] at hstop
      dsimp only [Plc.onStore] at hc'
      rw [if_pos hstop] at hc'
      exact absurd (leaveProgram_inl hc').1 (by simp)
    · intro hrun
      exact ⟨_, if_neg (by simpa [Plc.onStore] using hrun), rfl, hpc⟩

theorem Ending.of_next {S : Prop} (hflow : r.flow = .next n) (hpos : 0 < n) (hS : ¬ S) :
    Ending now p S r := by
  refine .moves ?_ hS
  rw [hflow]
  simp only [Flow.apply]
  omega

/-- A jump circles exactly if its target is the instruction itself. -/
theorem Ending.of_jump {S : Prop} {q : Nat} (hret : r.ret = .pass) (hflow : r.flow = .jump q)
    (hS : S ↔ q = p) : Ending now p S r := by
  by_cases hq : q = p
  · exact .circles hret (by rw [hflow]; exact hq) (hS.mpr hq)
  · exact .moves (by rw [hflow]; exact hq) (mt hS.mp hq)

theorem runCiForIns_ending : Ending now env.pc (ForCircles u env plc) (runCiForIns u env plc) := by
  unfold runCiForIns
  split
  · rename_i e xs hget
    refine .of_next rfl (by decide) ?_
    rintro ⟨ys, hys, -⟩
    exact absurd (hget.symm.trans hys) (by simp)
  · rename_i xs hget
    have hiff (h : ¬ (getPowerFlow env.inPF = true ∧ 0 < (xs.headD 0).toNat)) :
        ForCircles u env plc ↔ forTarget u env.pc = env.pc :=
      ⟨fun ⟨_, _, _, htarget⟩ => htarget, fun htarget => ⟨xs, hget, h, htarget⟩⟩
    dsimp only
    split
    · rename_i hruns
      refine .of_next rfl (by decide) ?_
      rintro ⟨ys, hys, hnot, -⟩
      obtain rfl : xs = ys := by simpa using hget.symm.trans hys
      exact hnot hruns
    · rename_i hnot
      exact .of_jump rfl rfl (hiff hnot)

theorem nextTop_ending {l : ForNextIns} {S : Prop}
    (hS : S ↔ l.loopCnt (l.nestedNum - 1) ≠ 1 ∧
      l.startUcodeAddr (l.nestedNum - 1) + 10 = env.pc) :
    Ending now env.pc S (nextTop env plc l) := by
  unfold nextTop
  split
  · rename_i hone
    exact .of_next rfl (by decide) fun h => (hS.mp h).1 hone
  · rename_i hne
    exact .of_jump rfl rfl (hS.trans (and_iff_right hne))

theorem ForNextIns.repeats_top_iff {l : ForNextIns} {i : Nat} (p : Nat)
    (h : l.repeats = if l.loopCnt i = 1 then none else some i) :
    (∃ j, l.repeats = some j ∧ l.startUcodeAddr j + 10 = p) ↔
      l.loopCnt i ≠ 1 ∧ l.startUcodeAddr i + 10 = p := by
  rw [h]
  by_cases hone : l.loopCnt i = 1
  · simp [hone]
  · simp [hone]

theorem runCiNextIns_ending :
    Ending now env.pc (∃ i, plc.loops.repeats = some i ∧ plc.loops.startUcodeAddr i + 10 = env.pc)
      (runCiNextIns env plc) := by
  unfold runCiNextIns
  dsimp only
  cases hn : plc.loops.nestedNum with
  | zero =>
    refine .of_next rfl (by decide) ?_
    simp [ForNextIns.repeats, hn]
  | succ i =>
    simp only [Nat.add_one_ne_zero, ↓reduceIte, Nat.add_one_sub_one]
    split
    · rename_i hzero
      cases i with
      | zero =>
        refine .of_next rfl (by decide) ?_
        simp [ForNextIns.repeats, hn, hzero]
      | succ j =>
        simp only [Nat.add_one_ne_zero, ↓reduceIte]
        refine nextTop_ending (ForNextIns.repeats_top_iff env.pc ?_)
        simp [ForNextIns.repeats, hn, hzero]
    · rename_i hne
      refine nextTop_ending (ForNextIns.repeats_top_iff env.pc ?_)
      simp [ForNextIns.repeats, hn, hne]

theorem runCiCjIns_ending :
    Ending now env.pc
      (getPowerFlow env.inPF = true ∧ jumpTarget env.pc (u.getPU32 (env.pc + 6)) = env.pc)
      (runCiCjIns u env plc) := by
  unfold runCiCjIns
  split
  · rename_i hpower
    exact .of_jump rfl rfl (and_iff_right hpower)
  · rename_i hpower
    exact .of_next rfl (by decide) fun h => hpower h.1

theorem runCiMcIns_ending :
    Ending now env.pc (McFails out t u now env plc ∨ McCircles out t u now env plc)
      (runCiMcIns out t u now env plc) := by
  unfold runCiMcIns
  dsimp only
  split
  · rename_i hpower
    refine .of_next rfl (by decide) ?_
    rintro (⟨hoff, -⟩ | ⟨hoff, -⟩) <;> exact absurd (hpower.symm.trans hoff) (by simp)
  · rename_i hpower
    have hoff : getPowerFlow env.inPF = false := by simpa using hpower
    split
    · rename_i hedge
      split
      · rename_i plc' hclean
        refine .of_jump rfl rfl ?_
        constructor
        · rintro (⟨-, -, e, plc'', herr, -⟩ | ⟨-, hzero, -⟩)
          · exact absurd (hclean.symm.trans herr) (by simp)
          · rw [hzero, Nat.add_zero]
        · intro htarget
          exact .inr ⟨hoff, by omega, fun _ => ⟨plc', hclean⟩⟩
      · rename_i e plc' hclean
        refine .fails e rfl rfl ?_
        constructor
        · rintro (⟨-, -, e', plc'', herr, hgo⟩ | ⟨-, -, hok⟩)
          · obtain ⟨rfl, rfl⟩ : e = e' ∧ plc' = plc'' := by simpa using hclean.symm.trans herr
            exact hgo
          · obtain ⟨plc'', hok⟩ := hok hedge
            exact absurd (hclean.symm.trans hok) (by simp)
        · intro hgo
          exact .inl ⟨hoff, hedge, e, plc', hclean, hgo⟩
    · rename_i hedge
      refine .of_jump rfl rfl ?_
      constructor
      · rintro (⟨-, hon, -⟩ | ⟨-, hzero, -⟩)
        · exact absurd hon hedge
        · rw [hzero, Nat.add_zero]
      · intro htarget
        exact .inr ⟨hoff, by omega, fun hon => absurd hon hedge⟩

theorem stlSeries_ending {S : Prop} (hS : ¬ S) (hcnt : 0 < plc.sfc.seriesStlCnt) :
    Ending now env.pc S (stlSeries u env plc) := by
  unfold stlSeries
  split
  · exact .of_next rfl (by omega) hS
  · refine .moves ?_ hS
    show env.pc + _ + _ ≠ env.pc
    omega

theorem stlSingle_ending {S : Prop}
    (hS : S ↔ plc.store.bit .S (u.getPU16 (env.pc + 4) % 256) = false ∧
      u.getPU16 (env.pc + 8) = 0) :
    Ending now env.pc S (stlSingle out t u now env plc) := by
  have hskip : plc.store.bit .S (u.getPU16 (env.pc + 4) % 256) = false →
      (S ↔ env.pc + u.getPU16 (env.pc + 8) = env.pc) := by
    intro hoff
    rw [hS, and_iff_right hoff]
    omega
  unfold stlSingle
  dsimp only
  split
  · rename_i hon
    exact .of_next rfl (by decide) fun h => absurd (hon.symm.trans (hS.mp h).1) (by simp)
  · rename_i hoff
    split <;> exact .of_jump rfl rfl (hskip (by simpa using hoff))

theorem runCiStlIns_ending :
    Ending now env.pc (StlCircles u env plc) (runCiStlIns out t u now env plc) := by
  unfold runCiStlIns plcStlBusMeetAnalyse
  dsimp only
  split <;> rename_i hstl
  · exact stlSeries_ending (fun h => h.1 hstl) Nat.two_pos
  · exact stlSingle_ending (and_iff_right hstl)

theorem execCompareIns_ending {w : CmpWidth} {k : CmpConn} {x : CmpRel} :
    Ending now env.pc (CompareFails out u now env plc w k x)
      (execCompareIns out u env plc w k x) := by
  have hpos : 0 < w.execLength := by cases w <;> decide
  unfold execCompareIns
  split
  · rename_i heval
    split
    · rename_i e herr
      refine .fails e rfl rfl ⟨?_, fun hgo => ⟨heval, e, herr, hgo⟩⟩
      rintro ⟨-, e', herr', hgo⟩
      obtain rfl : e = e' := by simpa using herr.symm.trans herr'
      exact hgo
    · rename_i closed hok
      refine .of_next rfl hpos ?_
      rintro ⟨-, e, herr, -⟩
      exact absurd (hok.symm.trans herr) (by simp)
  · rename_i heval
    exact .of_next rfl hpos fun h => heval h.1

theorem execDataIns_ending (d : DataIns) :
    Ending now env.pc False (execDataIns out u now env plc d) := by
  cases hlen : d.execLength with
  | none =>
    refine .fails .illegalInstrction (by simp [execDataIns, hlen, RunEnv.done]) ?_ ?_
    · simp [execDataIns, hlen, RunEnv.done, Flow.apply]
    · exact ⟨False.elim, fun h => absurd h.nonStop (by decide)⟩
  | some n =>
    have hpos : 0 < n := by
      rcases d.execLength_eq with h | h
      · rw [hlen] at h
        cases h
      · obtain rfl := some.inj (hlen.symm.trans h)
        exact d.moveLength_pos
    exact .of_next (execDataIns_flow hlen) hpos id

theorem runCiCallIns_flow {id : Nat} (hid : plcGetCallInsId t env.pc = some id)
    (h : runCiCallIns out t u now env plc = .done r) :
    r.flow = .next (plcCallInstructionLength u env.pc) := by
  simp only [runCiCallIns, hid] at h
  split at h
  · cases h
    rfl
  split at h
  · simp only [callWithPower] at h
    split at h
    · split at h <;> cases h
      rfl
    · cases h
      rfl
  · cases h
    unfold callWithoutPower
    dsimp only
    split
    · split <;> rfl
    · rfl

theorem returnWithPower_ending (ret : RetValue) :
    Ending now env.pc False (returnWithPower env plc ret) := .of_next rfl (by decide) id

theorem ComplexIns.exec_ending {i : ComplexIns} (h : i.exec out t u now env plc = .done r)
    (hlen : (i.moveLength u env.pc).isSome)
    (hcall : i = .call → (∃ id, plcGetCallInsId t env.pc = some id) ∧
      0 < plcCallInstructionLength u env.pc) :
    Ending now env.pc (i.Sticks out t u now env plc) r := by
  cases i with
  | compare w k x => cases h; exact execCompareIns_ending
  | data d => cases h; exact execDataIns_ending d
  | stl => cases h; exact runCiStlIns_ending
  | mc => cases h; exact runCiMcIns_ending
  | for_ => cases h; exact runCiForIns_ending
  | next => cases h; exact runCiNextIns_ending
  | cj => cases h; exact runCiCjIns_ending
  | call =>
    obtain ⟨⟨id, hid⟩, hpos⟩ := hcall rfl
    exact .of_next (runCiCallIns_flow hid h) hpos False.elim
  | continue_ | break_ => cases hlen
  | sret | iret | fend => cases h; exact .leaves rfl False.elim
  | csret =>
    cases h
    split
    · exact .leaves rfl False.elim
    · exact .of_next rfl (by decide) False.elim
  | ciret | cfend | stop => cases h; exact returnWithPower_ending _
  | lbl | sbr | intr | ret | mcr => cases h; exact .of_next rfl (by decide) False.elim
  | stradd =>
    cases h
    refine .of_next rfl ?_ False.elim
    unfold straddExecLength
    dsimp only
    split <;> split <;> omega
  | strinstr =>
    cases h
    exact .of_next rfl (by unfold strinstrExecLength; split <;> omega) False.elim
  | strmov =>
    cases h
    exact .of_next rfl (by unfold strmovExecLength; split <;> omega) False.elim

theorem execSimpleIns_ending (out : Outside) (env : RunEnv) (plc : Plc) :
    Ending now env.pc False (execSimpleIns out u env plc) := by
  unfold execSimpleIns
  split
  · rename_i i n hi
    obtain ⟨j, -, hj⟩ := bind_eq_some_iff.mp hi
    obtain ⟨m, hm, hpair⟩ := map_eq_some_iff.mp hj
    cases hpair
    refine .of_next rfl ?_ id
    rcases i.execLength_eq with ⟨-, h⟩ | h
    · rw [h] at hm
      cases hm
    · obtain rfl := some.inj (hm.symm.trans h)
      exact i.moveLength_pos
  · exact .fails .illegalInstrction rfl rfl ⟨False.elim, fun h => absurd h.nonStop (by decide)⟩

theorem Ending.congr {S S' : Prop} (h : Ending now p S r) (hS : S ↔ S') : Ending now p S' r :=
  propext hS ▸ h

theorem not_sticks_of_ofCode_eq_none (h : ComplexIns.ofCode (u.getPU16 env.pc) = none) :
    ¬ Sticks out t u now env plc := by
  rintro ⟨i, hi, -⟩
  exact absurd (h.symm.trans hi) (by simp)

theorem sticks_iff {i : ComplexIns} (h : ComplexIns.ofCode (u.getPU16 env.pc) = some i) :
    Sticks out t u now env plc ↔ i.Sticks out t u now env plc := by
  constructor
  · rintro ⟨j, hj, hsticks⟩
    obtain rfl := some.inj (h.symm.trans hj)
    exact hsticks
  · exact fun hsticks => ⟨i, h, hsticks⟩

theorem Accepts.call_length_pos (h : Accepts alloc u t) (hp : p ∈ boundaries u)
    (hcode : u.getPU16 p = ComplexIns.code .call) : 0 < plcCallInstructionLength u p := by
  obtain ⟨-, -, -, hzero⟩ := h.walk
  exact Nat.pos_of_ne_zero fun hlen => hzero p hp ⟨hcode, hlen⟩

/-- How the instructions at the boundaries of an accepted file end. -/
theorem Accepts.ending (h : Accepts alloc u t) (hp : Visited u env.pc)
    (hexec : execIns out t u now env plc = .done r) :
    Ending now env.pc (Sticks out t u now env plc) r := by
  by_cases hruns : RunsSimple u env.pc
  · rw [execIns, if_pos hruns] at hexec
    cases hexec
    have hnone : ComplexIns.ofCode (u.getPU16 env.pc) = none := by
      rw [eq_none_iff_forall_ne_some]
      exact fun i hi => not_runsSimple_of_ofCode hi hruns
    exact (execSimpleIns_ending out env plc).congr
      (iff_of_false id (not_sticks_of_ofCode_eq_none hnone))
  rw [execIns, if_neg hruns, execComplexIns] at hexec
  split at hexec
  · rename_i i hi
    have hcode := (ComplexIns.code_of_ofCode hi).symm
    have hmem : env.pc ∈ boundaries u := by
      refine (h.mem_or_ciEnd hp).resolve_right fun hend => ?_
      rw [hend] at hi
      cases hi
    obtain ⟨q, hnext, -⟩ := h.nextPtr_of_mem hmem
    obtain ⟨j, n, hj, hlen, -⟩ := exists_of_nextPtr_complex (not_isSimple_of_code hcode) hnext
    obtain rfl := some.inj (hi.symm.trans hj)
    refine (ComplexIns.exec_ending hexec (by rw [hlen]; rfl) ?_).congr (sticks_iff hi).symm
    rintro rfl
    obtain ⟨k, hk, haddr⟩ := h.call_mem hmem hcode
    exact ⟨plcGetCallInsId_isSome hk haddr, h.call_length_pos hmem hcode⟩
  · rename_i hnone
    cases hexec
    refine .fails .illegalInstrction rfl rfl (iff_of_false (not_sticks_of_ofCode_eq_none hnone) ?_)
    exact fun hgo => absurd hgo.nonStop (by decide)

/-! ## Runs -/

/-- A step at a boundary keeps the program counter exactly if the instruction sticks. -/
theorem Accepts.step_iff {c : Config} (h : Accepts alloc u t) (hp : Visited u c.env.pc) :
    (∃ c', step out t u now c = .inl c' ∧ c'.frames = c.frames ∧ c'.env.pc = c.env.pc) ↔
      Sticks out t u now c.env c.plc := by
  cases hexec : execIns out t u now c.env c.plc with
  | done r =>
    refine (h.ending hp hexec).step_iff hexec fun ⟨i, hi, _⟩ => ?_
    rw [← ComplexIns.code_of_ofCode hi]
    exact i.le_code
  | call entry cnt plc =>
    refine iff_of_false ?_ ?_
    · rintro ⟨c', hc', hframes, -⟩
      rw [step, hexec] at hc'
      obtain rfl := Sum.inl.inj hc'
      exact cons_ne_self _ _ hframes
    · rw [sticks_iff (execIns_call hexec).1]
      exact id

/-- A `CALL` at a boundary moves the program counter. -/
theorem Accepts.pc_ne_of_call {c c' : Config} (h : Accepts alloc u t) (hp : Visited u c.env.pc)
    {f : Frame} {a b : Config} (henter : Step out t u c a) (hf : a.frames = f :: c.frames)
    (hrun : Relation.ReflTransGen (fun x y => Step out t u x y ∧ (f :: c.frames) <:+ y.frames) a b)
    (hreturn : Step out t u b c') (hframes : c'.frames = c.frames) :
    c'.env.pc ≠ c.env.pc := by
  obtain ⟨now, henter⟩ := henter
  obtain ⟨now', hreturn⟩ := hreturn
  obtain ⟨henv, entry, cnt, plc, hexec⟩ := frame_of_call henter hf
  have hsuffix : (f :: c.frames) <:+ b.frames := by
    rcases Relation.ReflTransGen.cases_tail hrun with rfl | ⟨d, -, -, hlast⟩
    · exact hf ▸ suffix_rfl
    · exact hlast
  have hcode := ComplexIns.code_of_ofCode (execIns_call hexec).1
  have hmem : c.env.pc ∈ boundaries u := by
    refine (h.mem_or_ciEnd hp).resolve_right fun hend => ?_
    rw [← hcode] at hend
    cases hend
  have hpos := h.call_length_pos hmem hcode.symm
  rw [pc_of_return hreturn hsuffix hframes, henv]
  omega

/-- In every run of an accepted file every executed instruction changes the program counter, unless
the activation is left or the PLC stopped, if and only if no state the run comes to is one in which
an instruction sticks. -/
theorem pc_changes_iff (h : Accepts alloc u t) :
    (∀ c, Reachable out t u c → Visited u c.env.pc →
      ∀ c', Completes out t u c c' → c'.env.pc ≠ c.env.pc) ↔
    ∀ c, Reachable out t u c → Visited u c.env.pc → ∀ now, ¬ Sticks out t u now c.env c.plc := by
  constructor
  · intro hmoves c hc hp now hsticks
    obtain ⟨c', hstep, hframes, hpc⟩ := (h.step_iff hp).mpr hsticks
    exact hmoves c hc hp c' (.one ⟨now, hstep⟩ hframes) hpc
  · intro hnot c hc hp c' hcompletes hpc
    cases hcompletes with
    | one hstep hframes =>
      obtain ⟨now, hstep⟩ := hstep
      exact hnot c hc hp now ((h.step_iff hp).mp ⟨c', hstep, hframes, hpc⟩)
    | call f a b henter hf hrun hreturn hframes =>
      exact h.pc_ne_of_call hp henter hf hrun hreturn hframes hpc

/-- The program `LD X0; OUT Y0; FEND`. -/
def coilFile : Ucode :=
  [0, 0, 0, 0, 0, 0, 38, 0, 0, 0] ++ replicate 18 0 ++
    [0x00, 0x10] ++ [0x00, 0x71] ++ [0x2B, 0xF0] ++ replicate 4 0

theorem pc_changes_in_coilFile : ∃ s, Accepts enoughMemory coilFile s ∧
    ∀ c, Reachable .idle s coilFile c → Visited coilFile c.env.pc →
      ∀ c', Completes .idle s coilFile c c' → c'.env.pc ≠ c.env.pc := by
  have hacc : ∃ s, Accepts enoughMemory coilFile s := ⟨_, 4, rfl⟩
  obtain ⟨s, hs⟩ := hacc
  refine ⟨s, hs, (pc_changes_iff hs).mpr ?_⟩
  rintro c - hp now ⟨i, hi, hsticks⟩
  rcases hs.mem_or_ciEnd hp with hmem | hend
  · rw [show boundaries coilFile = [28, 30, 32] by decide] at hmem
    simp only [mem_cons, not_mem_nil, or_false] at hmem
    rcases hmem with hpc | hpc | hpc <;> rw [hpc] at hi
    · cases hi
    · cases hi
    · obtain rfl : ComplexIns.fend = i := some.inj (.trans (by decide) hi)
      exact hsticks
  · rw [hend] at hi
    cases hi

/-- The program `LD= D9000 D0; FEND`. -/
def badCompareFile : Ucode :=
  [0, 0, 0, 0, 0, 0, 44, 0, 0, 0] ++ replicate 18 0 ++
    [0x39, 0xF0] ++ [0x00, 0x11, 0x28, 0x23] ++ [0x00, 0x11, 0x00, 0x00] ++ [0x2B, 0xF0] ++
    replicate 4 0

/-- The comparison reports `ERR_OVER_ELEMENT_RANG`, and the interpreter goes on with the same
comparison. -/
theorem badCompareFile_sticks : ∃ s, Accepts enoughMemory badCompareFile s ∧
    ¬ ∀ c, Reachable .idle s badCompareFile c → Visited badCompareFile c.env.pc →
      ∀ c', Completes .idle s badCompareFile c c' → c'.env.pc ≠ c.env.pc := by
  have hacc : ∃ s, Accepts enoughMemory badCompareFile s := ⟨_, 3, rfl⟩
  obtain ⟨s, hs⟩ := hacc
  refine ⟨s, hs, fun hmoves => ?_⟩
  have hp : Visited badCompareFile 28 := ⟨[], .start, by decide⟩
  have hsticks : Sticks .idle s badCompareFile 0 (scanStart .off).env (scanStart .off).plc :=
    ⟨.compare .word .ld .e, by decide, rfl, .overElementRang, by rfl, rfl, rfl,
      fun h => absurd h.2 (by decide)⟩
  obtain ⟨c', hstep, hframes, hpc⟩ := (hs.step_iff (c := scanStart .off) hp).mpr hsticks
  exact hmoves (scanStart .off) ⟨.off, .refl⟩ hp c' (.one ⟨0, hstep⟩ hframes) hpc

end Kalyke
