-- SUMMARY: What STL instructions are for, alone and in groups that converge, and which of them do it.
import Kalyke.Compiler.Accepted
import Kalyke.Exec.Steps

/-!
# Steps of a Sequence

A `STL` instruction stands before the instructions of a step and lets the power flow into them as
long as its `S` element is on. Several `STL` in a row stand for a convergence: the power flows if
all of their steps are on. Otherwise the branch offset of the last one leads past the instructions
of the step.
-/

namespace Kalyke

def stlStep (u : Ucode) (p i : Nat) : Nat := u.getPU16 (p + 10 * i + 4)

/-- At `p` begin `k` `STL` instructions in a row and no more, whose steps exist. -/
structure StlGroup (u : Ucode) (p k : Nat) : Prop where
  pos : 1 ≤ k
  le : k ≤ maxSfcSeriesStlNum
  stl : ∀ i < k, u.getPU16 (p + 10 * i) = ComplexIns.code .stl
  ends : u.getPU16 (p + 10 * k) ≠ ComplexIns.code .stl
  range : ∀ i < k, stlStep u p i < BitElement.rang .S

/-- All steps of a group are on. -/
def AllStepsOn (u : Ucode) (p k : Nat) (s : Store) : Prop :=
  ∀ i < k, s.bit .S (stlStep u p i) = true

/-- The address that the branch offset of the last `STL` of a group gives. -/
def stlSkip (u : Ucode) (p k : Nat) : Nat :=
  p + 10 * (k - 1) + u.getPU16 (p + 10 * (k - 1) + 8)

section

variable (out : Outside) (t : CompState) (u : Ucode)

/-- What `STL` is to do to the elements for a step that is examined: instructions of the step are
cleaned up when it is run for the first time and when it is no longer on. -/
def stepStore (now : BitVec 32) (plc : Plc) (step edge : Nat) : Store :=
  if plc.store.bit .S step then
    if plc.store.edgeInit edge then
      (plcStlInsCleanElement out t u now step
        (plc.onStore (·.rstEdgeInit edge))).2.store.setEdge edge true
    else plc.store.setEdge edge true
  else if plc.store.edgeValue edge then
    (plcStlInsCleanElement out t u now step (plc.onStore (·.setEdge edge false))).2.store
  else plc.store

/-- The group of `k` `STL` instructions at `p` does in every state what it is for: if all steps are
on, the power flows and the run goes on behind the group, else the run goes on at the branch
address, with the power flow as it was. A single `STL` examines and cleans up the step it names. -/
structure RunsStl (p k : Nat) : Prop where
  on : ∀ now env (plc : Plc), env.pc = p → AllStepsOn u p k plc.store →
    (runCiStlIns out t u now env plc).ret = .pass ∧
      (runCiStlIns out t u now env plc).flow.apply p = p + 10 * k ∧
      (runCiStlIns out t u now env plc).inPF = setPowerFlow env.inPF
  off : ∀ now env (plc : Plc), env.pc = p → ¬ AllStepsOn u p k plc.store →
    (runCiStlIns out t u now env plc).ret = .pass ∧
      (runCiStlIns out t u now env plc).flow.apply p = stlSkip u p k ∧
      (runCiStlIns out t u now env plc).inPF = env.inPF
  named : k = 1 → ∀ now env (plc : Plc), env.pc = p →
    (runCiStlIns out t u now env plc).plc.store =
      stepStore out t u now
        { plc with sfc := (runCiStlIns out t u now env plc).plc.sfc } (stlStep u p 0)
        (u.getPU16 (p + 6))

end

/-! ## The analysis of the bus -/

section

variable {out : Outside} {t : CompState} {u : Ucode} {p k : Nat}

theorem stlNumbers_of_lt {fuel i j : Nat} {f : Nat → Nat} (h : j < i) :
    stlNumbers u p fuel i f j = f j := by
  induction fuel generalizing i f with
  | zero => rfl
  | succ fuel ih =>
    rw [stlNumbers]
    split
    · rw [ih (by omega), Function.update_of_ne (by omega)]
    · rfl

theorem plcStlBusMeetAnalyse_one (h : u.getPU16 (p + 10) ≠ ComplexIns.code .stl) (sfc : SfcStatus) :
    plcStlBusMeetAnalyse u p sfc =
      (false, { sfc with stlNum := Function.update sfc.stlNum 0 (stlStep u p 0),
                         seriesStlCnt := 1 }) := by
  rw [plcStlBusMeetAnalyse, if_neg h]
  rfl

/-- Of every group of more than one `STL` the first two are counted. -/
theorem plcStlBusMeetAnalyse_many (h : u.getPU16 (p + 10) = ComplexIns.code .stl)
    (sfc : SfcStatus) :
    ∃ sfc', plcStlBusMeetAnalyse u p sfc = (true, sfc') ∧ sfc'.seriesStlCnt = 2 ∧
      sfc'.sfcEnable = sfc.sfcEnable ∧ sfc'.stlNum 0 = stlStep u p 0 ∧
      sfc'.stlNum 1 = stlStep u p 1 := by
  rw [plcStlBusMeetAnalyse, if_pos h]
  have hfirst : stlNumbers u p 15 1 (Function.update sfc.stlNum 0 (stlStep u p 0)) 0 =
      stlStep u p 0 := by
    rw [stlNumbers_of_lt Nat.one_pos, Function.update_self]
  have hsecond : stlNumbers u p 15 1 (Function.update sfc.stlNum 0 (stlStep u p 0)) 1 =
      stlStep u p 1 := by
    rw [stlNumbers, if_pos h, stlNumbers_of_lt (Nat.lt_succ_self 1)]
    rfl
  exact ⟨_, rfl, rfl, rfl, hfirst, hsecond⟩

end

/-! ## The status of the sequence -/

section

variable {out : Outside} {t : CompState} {u : Ucode} {now : BitVec 32} {env : RunEnv} {plc : Plc}

/-- A clean-up leaves the status as it is. -/
theorem cleanRelation_sfc : CleanRelation fun plc plc' => plc'.sfc = plc.sfc where
  trans := fun h h' => h'.trans h
  store := fun _ _ => rfl
  call := fun _ _ _ h => h

theorem stlSingle_sfc : (stlSingle out t u now env plc).plc.sfc = plc.sfc := by
  unfold stlSingle
  dsimp only
  split
  · split
    · exact cleanRelation_sfc.plcStlInsCleanElement _ _
    · rfl
  · split
    · exact cleanRelation_sfc.plcStlInsCleanElement _ _
    · rfl

theorem stlSeries_sfc : (stlSeries u env plc).plc.sfc = plc.sfc := by
  unfold stlSeries
  split <;> rfl

end

/-! ## Single steps -/

section

variable {out : Outside} {t : CompState} {u : Ucode} {now : BitVec 32} {env : RunEnv} {plc : Plc}
variable {p k : Nat}

/-- The status that `STL` leaves is that of its analysis. -/
theorem runCiStlIns_sfc : (runCiStlIns out t u now env plc).plc.sfc =
    (plcStlBusMeetAnalyse u env.pc { plc.sfc with seriesStlCnt := 0, sfcEnable := true }).2 := by
  unfold runCiStlIns
  dsimp only
  split
  · exact stlSeries_sfc
  · exact stlSingle_sfc

theorem runCiStlIns_one (h : u.getPU16 (env.pc + 10) ≠ ComplexIns.code .stl) :
    runCiStlIns out t u now env plc = stlSingle out t u now env
      { plc with sfc := (runCiStlIns out t u now env plc).plc.sfc } := by
  rw [runCiStlIns_sfc, runCiStlIns, plcStlBusMeetAnalyse_one h]
  rfl

theorem stlSingle_inPF : (stlSingle out t u now env plc).inPF =
    if plc.store.bit .S (u.getPU16 (env.pc + 4) % 256) then setPowerFlow env.inPF
    else env.inPF := by
  unfold stlSingle
  dsimp only
  split
  · rfl
  · split <;> rfl

/-- What `STL` does for a step with the number in its low byte. -/
theorem stlSingle_eq (hstep : stlStep u env.pc 0 < 256) :
    (stlSingle out t u now env plc).ret = .pass ∧
    (stlSingle out t u now env plc).flow.apply env.pc =
      (if plc.store.bit .S (stlStep u env.pc 0) then env.pc + 10 else stlSkip u env.pc 1) ∧
    (stlSingle out t u now env plc).inPF =
      (if plc.store.bit .S (stlStep u env.pc 0) then setPowerFlow env.inPF else env.inPF) ∧
    (stlSingle out t u now env plc).plc.store =
      stepStore out t u now plc (stlStep u env.pc 0) (u.getPU16 (env.pc + 6)) := by
  have hmod : u.getPU16 (env.pc + 4) % 256 = stlStep u env.pc 0 := Nat.mod_eq_of_lt hstep
  unfold stlSingle stepStore
  simp only [hmod]
  split
  · split <;> exact ⟨rfl, rfl, rfl, rfl⟩
  · split <;> exact ⟨rfl, rfl, rfl, rfl⟩

theorem runCiStlIns_single (h : u.getPU16 (env.pc + 10) ≠ ComplexIns.code .stl)
    (hstep : stlStep u env.pc 0 < 256) :
    (runCiStlIns out t u now env plc).ret = .pass ∧
    (runCiStlIns out t u now env plc).flow.apply env.pc =
      (if plc.store.bit .S (stlStep u env.pc 0) then env.pc + 10 else stlSkip u env.pc 1) ∧
    (runCiStlIns out t u now env plc).inPF =
      (if plc.store.bit .S (stlStep u env.pc 0) then setPowerFlow env.inPF else env.inPF) ∧
    (runCiStlIns out t u now env plc).plc.store =
      stepStore out t u now { plc with sfc := (runCiStlIns out t u now env plc).plc.sfc }
        (stlStep u env.pc 0) (u.getPU16 (env.pc + 6)) := by
  obtain ⟨sfc, hsfc⟩ : ∃ sfc, (runCiStlIns out t u now env plc).plc.sfc = sfc := ⟨_, rfl⟩
  have hrun : runCiStlIns out t u now env plc = stlSingle out t u now env
      { plc with sfc := (runCiStlIns out t u now env plc).plc.sfc } := runCiStlIns_one h
  rw [hsfc] at hrun
  rw [hsfc, hrun]
  exact stlSingle_eq hstep

/-! ## Convergences -/

def FirstTwoOn (u : Ucode) (p : Nat) (s : Store) : Prop :=
  s.bit .S (stlStep u p 0) = true ∧ s.bit .S (stlStep u p 1) = true

instance (u : Ucode) (p : Nat) (s : Store) : Decidable (FirstTwoOn u p s) :=
  inferInstanceAs (Decidable (_ ∧ _))

/-- A group of more than one `STL` is run as if it had two, and the branch offset is taken from
behind them. -/
theorem runCiStlIns_many (h : u.getPU16 (env.pc + 10) = ComplexIns.code .stl) :
    (runCiStlIns out t u now env plc).ret = .pass ∧
    (runCiStlIns out t u now env plc).flow.apply env.pc =
      (if FirstTwoOn u env.pc plc.store then env.pc + 20
        else env.pc + 20 + u.getPU16 (env.pc + 28)) ∧
    (runCiStlIns out t u now env plc).inPF =
      (if FirstTwoOn u env.pc plc.store then setPowerFlow env.inPF else env.inPF) := by
  obtain ⟨sfc, hbus, hcnt, -, hfirst, hsecond⟩ :=
    plcStlBusMeetAnalyse_many h { plc.sfc with seriesStlCnt := 0, sfcEnable := true }
  have hall : plcStlIsAllOn sfc plc.store = true ↔ FirstTwoOn u env.pc plc.store := by
    simp [plcStlIsAllOn, hcnt, List.range_succ, hfirst, hsecond, FirstTwoOn]
  simp only [runCiStlIns, hbus, if_true, stlSeries, hcnt, hall]
  split <;> exact ⟨rfl, rfl, rfl⟩

/-! ## The groups that do what they are for -/

theorem allStepsOn_one {s : Store} : AllStepsOn u p 1 s ↔ s.bit .S (stlStep u p 0) = true :=
  ⟨fun h => h 0 Nat.one_pos, fun h i hi => by rwa [Nat.lt_one_iff.mp hi]⟩

theorem allStepsOn_two {s : Store} : AllStepsOn u p 2 s ↔ FirstTwoOn u p s := by
  refine ⟨fun h => ⟨h 0 Nat.two_pos, h 1 Nat.one_lt_two⟩, fun h i hi => ?_⟩
  rcases i with _ | _ | i
  · exact h.1
  · exact h.2
  · omega

theorem runsStl_one (hgroup : StlGroup u p 1) (hstep : stlStep u p 0 < 256) :
    RunsStl out t u p 1 := by
  constructor
  · rintro now env plc rfl hon
    obtain ⟨hret, hflow, hpf, -⟩ := runCiStlIns_single hgroup.ends hstep
    rw [hret, hflow, hpf, if_pos (allStepsOn_one.mp hon), if_pos (allStepsOn_one.mp hon)]
    exact ⟨rfl, rfl, rfl⟩
  · rintro now env plc rfl hoff
    obtain ⟨hret, hflow, hpf, -⟩ := runCiStlIns_single hgroup.ends hstep
    have hstepOff := mt allStepsOn_one.mpr hoff
    rw [hret, hflow, hpf, if_neg hstepOff, if_neg hstepOff]
    exact ⟨rfl, rfl, rfl⟩
  · rintro - now env plc rfl
    exact (runCiStlIns_single hgroup.ends hstep).2.2.2

theorem runsStl_two (hgroup : StlGroup u p 2)
    (hskip : 10 + u.getPU16 (p + 28) = u.getPU16 (p + 18)) : RunsStl out t u p 2 := by
  have hsecond : u.getPU16 (p + 10) = ComplexIns.code .stl := hgroup.stl 1 Nat.one_lt_two
  constructor
  · rintro now env plc rfl hon
    obtain ⟨hret, hflow, hpf⟩ := runCiStlIns_many hsecond
    rw [hret, hflow, hpf, if_pos (allStepsOn_two.mp hon), if_pos (allStepsOn_two.mp hon)]
    exact ⟨rfl, rfl, rfl⟩
  · rintro now env plc rfl hoff
    obtain ⟨hret, hflow, hpf⟩ := runCiStlIns_many hsecond
    have htwoOff := mt allStepsOn_two.mpr hoff
    rw [hret, hflow, hpf, if_neg htwoOff, if_neg htwoOff]
    refine ⟨rfl, ?_, rfl⟩
    show env.pc + 20 + _ = env.pc + 10 + u.getPU16 (env.pc + 18)
    omega
  · intro h
    omega

/-- A state in which only the given steps are on. -/
def stepsOnly (on : Nat → Bool) : Plc :=
  { Plc.off with store := { Store.off with bit := fun e i => e == .S && on i } }

theorem step_lt_of_runsStl (hgroup : StlGroup u p 1) (h : RunsStl out t u p 1) :
    stlStep u p 0 < 256 := by
  by_contra hge
  -- The step named is on, but that of its low byte is not.
  let plc := stepsOnly (· == stlStep u p 0)
  have hon : AllStepsOn u p 1 plc.store := by
    rw [allStepsOn_one]
    simp [plc, stepsOnly]
  have hlow : plc.store.bit .S (u.getPU16 (p + 4) % 256) = false := by
    have hne : u.getPU16 (p + 4) % 256 ≠ stlStep u p 0 := fun heq => by omega
    simp [plc, stepsOnly, hne]
  obtain ⟨-, -, hpf⟩ := h.on 0 ⟨0, 0, p⟩ plc rfl hon
  rw [runCiStlIns_one hgroup.ends, stlSingle_inPF] at hpf
  simp only [hlow] at hpf
  exact absurd hpf (by decide)

theorem skip_of_runsStl (hgroup : StlGroup u p 2) (h : RunsStl out t u p 2) :
    10 + u.getPU16 (p + 28) = u.getPU16 (p + 18) := by
  let plc := stepsOnly fun _ => false
  have hoff : ¬ FirstTwoOn u p plc.store := by
    simp [FirstTwoOn, plc, stepsOnly]
  obtain ⟨-, hflow, -⟩ := h.off 0 ⟨0, 0, p⟩ plc rfl (mt allStepsOn_two.mp hoff)
  have hrun : Flow.apply p (runCiStlIns out t u 0 ⟨0, 0, p⟩ plc).flow = _ :=
    (runCiStlIns_many (hgroup.stl 1 Nat.one_lt_two)).2.1
  rw [hflow] at hrun
  have haddr : p + 10 + u.getPU16 (p + 18) = p + 20 + u.getPU16 (p + 28) := hrun
  omega

theorem le_two_of_runsStl (hgroup : StlGroup u p k) (h : RunsStl out t u p k) : k ≤ 2 := by
  by_contra hthree
  let plc := stepsOnly fun _ => true
  have hon : AllStepsOn u p k plc.store := fun i _ => rfl
  obtain ⟨-, hflow, -⟩ := h.on 0 ⟨0, 0, p⟩ plc rfl hon
  have hrun : Flow.apply p (runCiStlIns out t u 0 ⟨0, 0, p⟩ plc).flow = _ :=
    (runCiStlIns_many (hgroup.stl 1 (by omega))).2.1
  rw [hflow] at hrun
  have haddr : p + 10 * k = p + 20 := hrun
  omega

/-- A group of `STL` instructions does what it is for just if it is a single one with a step number
below 256, or consists of two and the halfword 8 bytes behind them happens to lead to the branch
address of the second. -/
theorem runsStl_iff (hgroup : StlGroup u p k) :
    RunsStl out t u p k ↔
      k = 1 ∧ stlStep u p 0 < 256 ∨ k = 2 ∧ 10 + u.getPU16 (p + 28) = u.getPU16 (p + 18) := by
  constructor
  · intro h
    have hpos := hgroup.pos
    have hle := le_two_of_runsStl hgroup h
    obtain rfl | rfl : k = 1 ∨ k = 2 := by omega
    · exact .inl ⟨rfl, step_lt_of_runsStl hgroup h⟩
    · exact .inr ⟨rfl, skip_of_runsStl hgroup h⟩
  · rintro (⟨rfl, hstep⟩ | ⟨rfl, hskip⟩)
    · exact runsStl_one hgroup hstep
    · exact runsStl_two hgroup hskip

end

/-- `STL` for a step, `OUT Y0`, `RET` and `FEND`. -/
def stlFile (step : List UInt8) : Ucode :=
  [0, 0, 0, 0, 0, 0, 48, 0, 0, 0] ++ List.replicate 18 0 ++
    ([0x0E, 0xF0, 0x00, 0x01] ++ step ++ [0x00, 0x00, 0x0C, 0x00]) ++ [0x00, 0x71] ++
    [0x12, 0xF0] ++ [0x2B, 0xF0] ++ List.replicate 4 0

/-- `STL S5` examines step 5. -/
theorem runsStl_s5 : StlGroup (stlFile [5, 0]) 28 1 ∧
    RunsStl .idle (tablesOf (stlFile [5, 0]) 6) (stlFile [5, 0]) 28 1 :=
  have hgroup : StlGroup (stlFile [5, 0]) 28 1 :=
    ⟨by decide, by decide, by decide +kernel, by decide +kernel, by decide +kernel⟩
  ⟨hgroup, (runsStl_iff hgroup).mpr (.inl ⟨rfl, by decide +kernel⟩)⟩

/-- `STL S256` examines step 0. -/
theorem not_runsStl_s256 : ∃ s, Accepts enoughMemory (stlFile [0, 1]) s ∧
    StlGroup (stlFile [0, 1]) 28 1 ∧ ¬ RunsStl .idle s (stlFile [0, 1]) 28 1 := by
  have hgroup : StlGroup (stlFile [0, 1]) 28 1 :=
    ⟨by decide, by decide, by decide +kernel, by decide +kernel, by decide +kernel⟩
  refine ⟨tablesOf (stlFile [0, 1]) 6, accepts_tablesOf ⟨_, rfl⟩, hgroup, fun h => ?_⟩
  exact absurd (step_lt_of_runsStl hgroup h) (by decide +kernel)

end Kalyke
