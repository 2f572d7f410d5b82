-- SUMMARY: Transitions between the steps of a sequence, and the one active step of a single sequence.
import Kalyke.Exec.Control
import Kalyke.Exec.Lengths
import Kalyke.Exec.Stl

/-!
# Transitions

`SET S`, `OUT S` and `RST S` inside a step leave the steps the run is in. These are remembered in
the status that the last `STL` has set, and nothing but `STL` and `RET` changes that. A transition
of a single sequence therefore moves its one active step.
-/

namespace Kalyke

/-! ## Inside a step -/

/-- The instruction at `c` changes the status of the sequence. -/
def ChangesStatus (u : Ucode) (c : Config) : Prop :=
  ComplexIns.ofCode (u.getPU16 c.env.pc) = some .stl ∨
    ComplexIns.ofCode (u.getPU16 c.env.pc) = some .ret

/-- A step that executes a `STL` of the group at `p`. -/
def GroupStep (out : Outside) (t : CompState) (u : Ucode) (p k : Nat) (c c' : Config) : Prop :=
  Step out t u c c' ∧ ∃ i < k, c.env.pc = p + 10 * i

/-- A step of an activation, or of a subroutine called from it, that stays inside the step of the
sequence. -/
def InnerStep (out : Outside) (t : CompState) (u : Ucode) (frames : List Frame) (c c' : Config) :
    Prop :=
  Step out t u c c' ∧ frames <:+ c.frames ∧ (c.frames = frames → ¬ ChangesStatus u c)

/-- From the group of `STL` instructions at `p`, which the run came to in `c₀` with all steps on, it
has gone on behind the group and has come to `c` without leaving the step. Subroutines may have been
called on the way. -/
structure Inside (out : Outside) (t : CompState) (u : Ucode) (p k : Nat) (c₀ c : Config) :
    Prop where
  group : StlGroup u p k
  start : c₀.env.pc = p
  on : AllStepsOn u p k c₀.plc.store
  run : ∃ c₁, Relation.TransGen (GroupStep out t u p k) c₀ c₁ ∧ c₁.env.pc = p + 10 * k ∧
    Relation.ReflTransGen (InnerStep out t u c₀.frames) c₁ c

/-- No subroutine called from the step that is entered in `c₀` executes a `STL` or a `RET`. -/
def CallsKeepStatus (out : Outside) (t : CompState) (u : Ucode) (p k : Nat) (c₀ : Config) : Prop :=
  ∀ c, Inside out t u p k c₀ c → c.frames ≠ c₀.frames → ¬ ChangesStatus u c

/-- The step named by `SET S`, `OUT S` or `RST S`. -/
def targetStep (u : Ucode) (c : Config) : Nat := u.getPU16 (c.env.pc + 4)

def IsTransition (u : Ucode) (c : Config) : Prop :=
  (ComplexIns.ofCode (u.getPU16 c.env.pc) = some (.data .setS) ∨
    ComplexIns.ofCode (u.getPU16 c.env.pc) = some (.data .outS)) ∧
  getPowerFlow c.env.inPF = true

def IsReset (u : Ucode) (c : Config) : Prop :=
  ComplexIns.ofCode (u.getPU16 c.env.pc) = some (.data .rstS) ∧ getPowerFlow c.env.inPF = true

def IsSource (u : Ucode) (p k j : Nat) : Prop := ∃ i < k, stlStep u p i = j

/-- The transitions from a group of `STL` entered in `c₀` switch off its steps and switch on their
target, resets switch off both, and no other step changes. -/
def TransitionsExact (out : Outside) (t : CompState) (u : Ucode) (p k : Nat) (c₀ : Config) : Prop :=
  ∀ c c', Inside out t u p k c₀ c → c.frames = c₀.frames → Step out t u c c' →
    (IsTransition u c → ∀ j,
      c'.plc.store.bit .S j = true ↔
        j = targetStep u c ∨ c.plc.store.bit .S j = true ∧ ¬ IsSource u p k j) ∧
    (IsReset u c → ∀ j,
      c'.plc.store.bit .S j = true ↔
        c.plc.store.bit .S j = true ∧ ¬ IsSource u p k j ∧ j ≠ targetStep u c)

/-! ## The status -/

section

variable {out : Outside} {t : CompState} {u : Ucode} {now : BitVec 32} {c c' c₀ : Config}

theorem runCiNextIns_sfc {env : RunEnv} {plc : Plc} : (runCiNextIns env plc).plc.sfc = plc.sfc := by
  have htop (l : ForNextIns) : (nextTop env plc l).plc.sfc = plc.sfc := by
    unfold nextTop
    split <;> rfl
  unfold runCiNextIns
  dsimp only
  split
  · rfl
  · split
    · split
      · rfl
      · exact htop _
    · exact htop _

theorem runCiMcIns_sfc {env : RunEnv} {plc : Plc} :
    (runCiMcIns out t u now env plc).plc.sfc = plc.sfc := by
  unfold runCiMcIns
  dsimp only
  split
  · rfl
  · split
    · split <;> rename_i heq
      all_goals
        have h : (plcMcInsCleanElement out t u now env.pc
          (plc.onStore (·.setEdge (u.getPU16 (env.pc + 6)) false))).2.sfc = plc.sfc :=
          cleanRelation_sfc.plcMcInsCleanElement _ _
        rw [heq] at h
        exact h
    · rfl

theorem callWithoutPower_sfc {env : RunEnv} {plc : Plc} (id : Nat) :
    (callWithoutPower out t u now env plc id).plc.sfc = plc.sfc := by
  unfold callWithoutPower
  dsimp only
  split
  · split <;> rename_i heq
    all_goals
      have h : (plcCallInsCleanElement out t u now (maxSbrNestedLayer - plc.sbrNestedNum)
        (callSbrNumber u env.pc) { plc with isExec := Function.update plc.isExec id false }).2.sfc =
        plc.sfc := cleanRelation_sfc.plcCallInsCleanElement _ _ _
      rw [heq] at h
      exact h
  · rfl

theorem execDataIns_sfc {env : RunEnv} {plc : Plc} (d : DataIns) :
    (execDataIns out u now env plc d).plc.sfc = plc.sfc := by
  unfold execDataIns
  split
  · rfl
  · dsimp only
    split
    · rfl
    · split <;> rfl

theorem execSimpleIns_sfc {env : RunEnv} {plc : Plc} :
    (execSimpleIns out u env plc).plc.sfc = plc.sfc := by
  unfold execSimpleIns
  split <;> rfl

/-- The state that an instruction leaves, whether it is done or enters a subroutine. -/
def InsOutcome.plc : InsOutcome → Plc
  | .done r => r.plc
  | .call _ _ plc => plc

theorem runCiCallIns_sfc {env : RunEnv} {plc : Plc} :
    (runCiCallIns out t u now env plc).plc.sfc = plc.sfc := by
  unfold runCiCallIns
  split
  · rfl
  · split
    · rfl
    · split
      · unfold callWithPower
        dsimp only
        split
        · split <;> rfl
        · rfl
      · exact callWithoutPower_sfc _

theorem ComplexIns.exec_sfc {env : RunEnv} {plc : Plc} {i : ComplexIns} (hstl : i ≠ .stl)
    (hret : i ≠ .ret) : (i.exec out t u now env plc).plc.sfc = plc.sfc := by
  cases i with
  | stl => exact absurd rfl hstl
  | ret => exact absurd rfl hret
  | for_ =>
    show (runCiForIns u env plc).plc.sfc = plc.sfc
    unfold runCiForIns
    split
    · rfl
    · dsimp only
      split <;> rfl
  | next => exact runCiNextIns_sfc
  | cj =>
    show (runCiCjIns u env plc).plc.sfc = plc.sfc
    unfold runCiCjIns
    split <;> rfl
  | mc => exact runCiMcIns_sfc
  | call => exact runCiCallIns_sfc
  | compare w k x => exact congrArg Plc.sfc execCompareIns_plc
  | data d => exact execDataIns_sfc d
  | csret =>
    show (if getPowerFlow env.inPF then env.done .sret .stay plc
      else env.done .pass (.next 2) plc).plc.sfc = plc.sfc
    split <;> rfl
  | stop =>
    show (if getPowerFlow env.inPF then plc.onStore fun s => { s with cmdStop := true }
      else plc).sfc = plc.sfc
    split <;> rfl
  | _ => rfl

/-- The status stays as it is but in `STL` and `RET`. -/
theorem execIns_sfc (h : ¬ ChangesStatus u c) :
    (execIns out t u now c.env c.plc).plc.sfc = c.plc.sfc := by
  unfold execIns
  split
  · exact execSimpleIns_sfc
  · unfold execComplexIns
    split
    · rename_i i hi
      apply ComplexIns.exec_sfc
      · intro hstl
        exact h (.inl (hstl ▸ hi))
      · intro hret
        exact h (.inr (hret ▸ hi))
    · rfl

/-- A step leaves the status that its instruction leaves. -/
theorem step_sfc (h : step out t u now c = .inl c') :
    c'.plc.sfc = (execIns out t u now c.env c.plc).plc.sfc := by
  cases step_cases h with
  | ins r s hexec hret hstore hnext =>
    rw [hexec, hnext]
    rfl
  | call entry cnt plc hexec hnext =>
    rw [hexec, hnext]
    rfl
  | ret f fs r s hexec hret hframes hnext =>
    rw [hexec, hnext]
    rfl

/-! ## The steps that are remembered -/

/-- The status names the steps of the group at `p`. -/
structure StatusOf (u : Ucode) (p k : Nat) (sfc : SfcStatus) : Prop where
  enable : sfc.sfcEnable = true
  cnt : sfc.seriesStlCnt = k
  num : ∀ i < k, sfc.stlNum i = stlStep u p i

variable {p k : Nat}

/-- The analysis of a group of at most two `STL` remembers all of its steps. -/
theorem StlGroup.statusOf (hgroup : StlGroup u p k) (hk : k ≤ 2) (sfc : SfcStatus) :
    StatusOf u p k
      (plcStlBusMeetAnalyse u p { sfc with seriesStlCnt := 0, sfcEnable := true }).2 := by
  have hpos := hgroup.pos
  obtain rfl | rfl : k = 1 ∨ k = 2 := by omega
  · rw [plcStlBusMeetAnalyse_one hgroup.ends]
    refine ⟨rfl, rfl, fun i hi => ?_⟩
    rw [Nat.lt_one_iff.mp hi]
    exact Function.update_self 0 _ sfc.stlNum
  · obtain ⟨sfc', heq, hcnt, henable, hfirst, hsecond⟩ :=
      plcStlBusMeetAnalyse_many (hgroup.stl 1 Nat.one_lt_two)
        { sfc with seriesStlCnt := 0, sfcEnable := true }
    rw [heq]
    refine ⟨henable, hcnt, fun i hi => ?_⟩
    obtain rfl | rfl : i = 0 ∨ i = 1 := by omega
    · exact hfirst
    · exact hsecond

theorem execIns_stl {env : RunEnv} {plc : Plc} (h : u.getPU16 env.pc = ComplexIns.code .stl) :
    execIns out t u now env plc = .done (runCiStlIns out t u now env plc) :=
  execIns_complex (by rw [h]; rfl)

/-- The status after a `STL`. -/
theorem step_sfc_of_stl (hstl : u.getPU16 c.env.pc = ComplexIns.code .stl)
    (h : step out t u now c = .inl c') :
    c'.plc.sfc = (plcStlBusMeetAnalyse u c.env.pc
      { c.plc.sfc with seriesStlCnt := 0, sfcEnable := true }).2 := by
  rw [step_sfc h, execIns_stl hstl]
  exact runCiStlIns_sfc

theorem pc_of_two_on (hgroup : StlGroup u p 2) (hstart : c.env.pc = p)
    (hon : AllStepsOn u p 2 c.plc.store) (h : step out t u now c = .inl c') :
    c'.env.pc = p + 20 := by
  subst hstart
  have hexec : execIns out t u now c.env c.plc = .done (runCiStlIns out t u now c.env c.plc) :=
    execIns_stl (hgroup.stl 0 Nat.two_pos)
  obtain ⟨hret, hflow, -⟩ : _ ∧ Flow.apply _ (runCiStlIns out t u now c.env c.plc).flow = _ ∧ _ :=
    runCiStlIns_many (hgroup.stl 1 Nat.one_lt_two)
  rw [if_pos (allStepsOn_two.mp hon)] at hflow
  rw [(step_pass h hexec hret).1]
  exact hflow

theorem statusOf_of_entered (hgroup : StlGroup u p k) (hk : k ≤ 2) (hstart : c₀.env.pc = p)
    (hon : AllStepsOn u p k c₀.plc.store) (hrun : Relation.TransGen (GroupStep out t u p k) c₀ c) :
    StatusOf u p k c.plc.sfc := by
  have hpos := hgroup.pos
  have hlast {b : Config} (hb : b.env.pc = p) (hstep : Step out t u b c) :
      StatusOf u p k c.plc.sfc := by
    obtain ⟨now, hstep⟩ := hstep
    have hstl : u.getPU16 b.env.pc = ComplexIns.code .stl := by
      rw [hb]
      exact hgroup.stl 0 hpos
    rw [step_sfc_of_stl hstl hstep, hb]
    exact hgroup.statusOf hk _
  obtain rfl | rfl : k = 1 ∨ k = 2 := by omega
  · obtain ⟨b, -, hstep, i, hi, hb⟩ := Relation.TransGen.tail'_iff.mp hrun
    rw [Nat.lt_one_iff.mp hi] at hb
    exact hlast hb hstep
  · -- The first step passes both and is the only one that executes a `STL` of the group.
    obtain ⟨d, hfirst, hrest⟩ := Relation.TransGen.head'_iff.mp hrun
    obtain ⟨now, hstep⟩ := hfirst.1
    have hd : d.env.pc = p + 20 := pc_of_two_on hgroup hstart hon hstep
    rcases hrest.cases_head with rfl | ⟨d', ⟨-, i, hi, hpc⟩, -⟩
    · exact hlast hstart hfirst.1
    · omega

theorem Inside.statusOf (h : Inside out t u p k c₀ c) (hk : k ≤ 2)
    (hcalls : CallsKeepStatus out t u p k c₀) : StatusOf u p k c.plc.sfc := by
  obtain ⟨hgroup, hstart, hon, c₁, henter, hpc, hrun⟩ := h
  induction hrun with
  | refl => exact statusOf_of_entered hgroup hk hstart hon henter
  | tail hrun hlast ih =>
    rename_i b d
    obtain ⟨⟨now, hstep⟩, -, hown⟩ := hlast
    have hkeeps : ¬ ChangesStatus u b := by
      by_cases hframes : b.frames = c₀.frames
      · exact hown hframes
      · exact hcalls b ⟨hgroup, hstart, hon, c₁, henter, hpc, hrun⟩ hframes
    rw [step_sfc hstep, execIns_sfc hkeeps]
    exact ih

/-! ## Transitions -/

theorem setStep_bit (s : Store) (n j : Nat) (b : Bool) :
    (s.setBit (.elem .S) n b).bit .S j = if j = n then b else s.bit .S j := by
  simp [Store.setBit, Function.update_apply]

theorem resetSteps_bit (f : Nat → Nat) (l : List Nat) (s : Store) (j : Nat) :
    (l.foldl (fun s k => s.setBit (.elem .S) (f k) false) s).bit .S j = true ↔
      s.bit .S j = true ∧ ¬ ∃ i ∈ l, f i = j := by
  induction l generalizing s with
  | nil => simp
  | cons i l ih =>
    rw [List.foldl_cons, ih, setStep_bit]
    by_cases hj : j = f i
    · simp [hj]
    · simp [hj, Ne.symm hj]

/-- Leaving the steps that the status names switches off just these. -/
theorem leaveSteps_bit {i : BodyInput} (h : StatusOf u p k i.sfc) (j : Nat) :
    (leaveSteps i).bit .S j = true ↔ i.store.bit .S j = true ∧ ¬ IsSource u p k j := by
  have hsource : (∃ n ∈ List.range i.sfc.seriesStlCnt, i.sfc.stlNum n = j) ↔ IsSource u p k j := by
    simp only [List.mem_range, h.cnt]
    refine exists_congr fun n => and_congr_right fun hn => ?_
    rw [h.num n hn]
  rw [leaveSteps, if_pos h.enable, resetSteps_bit, hsource]

/-- What the instructions on steps do to a step. -/
theorem step_of_data {d : DataIns} {f : BodyInput → Store}
    (hi : ComplexIns.ofCode (u.getPU16 c.env.pc) = some (.data d))
    (hbody : execDataIns out u now c.env c.plc d =
      c.env.done .pass (.next 6) { c.plc with store := f (bodyInput u now c.env c.plc) })
    (h : step out t u now c = .inl c') :
    c'.plc.store.bit .S = (f (bodyInput u now c.env c.plc)).bit .S := by
  have hexec : execIns out t u now c.env c.plc = .done (execDataIns out u now c.env c.plc d) :=
    execIns_complex hi
  rw [hbody] at hexec
  exact (step_pass h hexec rfl).2.2.bit .S nofun

theorem IsTransition.bit (htrans : IsTransition u c) (hstatus : StatusOf u p k c.plc.sfc)
    (h : step out t u now c = .inl c') (j : Nat) :
    c'.plc.store.bit .S j = true ↔
      j = targetStep u c ∨ c.plc.store.bit .S j = true ∧ ¬ IsSource u p k j := by
  obtain ⟨hcode, hpower⟩ := htrans
  have hbit : c'.plc.store.bit .S = ((leaveSteps (bodyInput u now c.env c.plc)).setBit (.elem .S)
      (targetStep u c) true).bit .S := by
    rcases hcode with hset | hout
    · have hbody : runCiSetSIns (bodyInput u now c.env c.plc) = _ := if_pos hpower
      rw [step_of_data (f := runCiSetSIns) hset rfl h, hbody]
      rfl
    · have hbody : runCiOutSIns (bodyInput u now c.env c.plc) = _ := if_pos hpower
      rw [step_of_data (f := runCiOutSIns) hout rfl h, hbody]
      rfl
  rw [hbit, setStep_bit]
  split
  · simp [*]
  · rw [leaveSteps_bit hstatus]
    simp [*, bodyInput]

theorem IsReset.bit (hreset : IsReset u c) (hstatus : StatusOf u p k c.plc.sfc)
    (h : step out t u now c = .inl c') (j : Nat) :
    c'.plc.store.bit .S j = true ↔
      c.plc.store.bit .S j = true ∧ ¬ IsSource u p k j ∧ j ≠ targetStep u c := by
  obtain ⟨hcode, hpower⟩ := hreset
  have hbit : c'.plc.store.bit .S = ((leaveSteps (bodyInput u now c.env c.plc)).setBit (.elem .S)
      (targetStep u c) false).bit .S := by
    have hbody : runCiRstSIns (bodyInput u now c.env c.plc) = _ := if_pos hpower
    rw [step_of_data (f := runCiRstSIns) hcode rfl h, hbody]
    rfl
  rw [hbit, setStep_bit]
  split
  · simp [*]
  · rw [leaveSteps_bit hstatus]
    simp [*, bodyInput]

theorem transitionsExact_of_le_two (hk : k ≤ 2) (hcalls : CallsKeepStatus out t u p k c₀) :
    TransitionsExact out t u p k c₀ := by
  intro c c' hinside _ hstep
  obtain ⟨now, hstep⟩ := hstep
  have hstatus := hinside.statusOf hk hcalls
  exact ⟨fun htrans => htrans.bit hstatus hstep, fun hreset => hreset.bit hstatus hstep⟩

/-- A step at an instruction other than `CALL` does not enter a subroutine. -/
theorem frames_of_not_call (hcall : ComplexIns.ofCode (u.getPU16 c.env.pc) ≠ some .call)
    (hframes : c.frames = []) (h : Step out t u c c') : c'.frames = [] := by
  obtain ⟨now, h⟩ := h
  cases step_cases h with
  | ins r s hexec hret hstore hnext =>
    rw [hnext]
    exact hframes
  | call entry cnt plc hexec hnext => exact absurd (execIns_call hexec).1 hcall
  | ret f fs r s hexec hret hfs hnext =>
    rw [hframes] at hfs
    cases hfs

/-- In a file without `CALL` the main program keeps its status. -/
theorem callsKeepStatus_of_noCall
    (hno : ∀ q, ComplexIns.ofCode (u.getPU16 q) ≠ some .call) (hframes : c₀.frames = []) :
    CallsKeepStatus out t u p k c₀ := by
  intro c hinside hdeeper
  obtain ⟨c₁, henter, -, hrun⟩ := hinside.run
  have hentered : c₁.frames = [] := by
    clear hrun
    induction henter with
    | single h => exact frames_of_not_call (hno _) hframes h.1
    | tail _ h ih => exact frames_of_not_call (hno _) ih h.1
  have hinner : c.frames = [] := by
    clear hinside hdeeper
    induction hrun with
    | refl => exact hentered
    | tail _ h ih => exact frames_of_not_call (hno _) ih h.1
  exact absurd (hinner.trans hframes.symm) hdeeper

/-! ## Single sequences -/

/-- Just one step of `G` is on. -/
def ActiveOne (G : Nat → Prop) (s : Store) : Prop := ∃! j, G j ∧ s.bit .S j = true

/-- A transition from steps of `G` that are on to a step of `G`, from within a group of at most two
`STL`. -/
structure SequenceTransition (out : Outside) (t : CompState) (u : Ucode) (G : Nat → Prop)
    (p k : Nat) (c₀ c c' : Config) : Prop where
  step : Step out t u c c'
  inside : Inside out t u p k c₀ c
  own : c.frames = c₀.frames
  few : k ≤ 2
  calls : CallsKeepStatus out t u p k c₀
  transition : IsTransition u c
  target : G (targetStep u c)
  sources : ∀ j, IsSource u p k j → G j ∧ c.plc.store.bit .S j = true

/-- What a single sequence does: transitions of its own, and steps that leave its steps alone. -/
inductive SequenceStep (out : Outside) (t : CompState) (u : Ucode) (G : Nat → Prop) :
    Config → Config → Prop where
  | other {c c' : Config} (h : RunStep out t u c c')
      (hsame : ∀ j, G j → c'.plc.store.bit .S j = c.plc.store.bit .S j) :
      SequenceStep out t u G c c'
  | transition {p k : Nat} {c₀ c c' : Config} (h : SequenceTransition out t u G p k c₀ c c') :
      SequenceStep out t u G c c'

theorem SequenceTransition.activeOne {G : Nat → Prop}
    (h : SequenceTransition out t u G p k c₀ c c') (hone : ActiveOne G c.plc.store) :
    ActiveOne G c'.plc.store := by
  have hexact :=
    (transitionsExact_of_le_two h.few h.calls c c' h.inside h.own h.step).1 h.transition
  obtain ⟨a, -, honly⟩ := hone
  have hsource : IsSource u p k a := by
    have hfirst : IsSource u p k (stlStep u p 0) := ⟨0, h.inside.group.pos, rfl⟩
    exact honly _ (h.sources _ hfirst) ▸ hfirst
  refine ⟨targetStep u c, ⟨h.target, (hexact _).mpr (.inl rfl)⟩, fun j hj => ?_⟩
  rcases (hexact j).mp hj.2 with htarget | ⟨hon, hother⟩
  · exact htarget
  · exact absurd (honly j ⟨hj.1, hon⟩ ▸ hsource) hother

theorem SequenceStep.activeOne {G : Nat → Prop} (h : SequenceStep out t u G c c')
    (hone : ActiveOne G c.plc.store) : ActiveOne G c'.plc.store := by
  cases h with
  | transition h => exact h.activeOne hone
  | other _ hsame =>
    obtain ⟨a, ⟨hG, hon⟩, honly⟩ := hone
    refine ⟨a, ⟨hG, by rw [hsame a hG, hon]⟩, fun j hj => ?_⟩
    exact honly j ⟨hj.1, hsame j hj.1 ▸ hj.2⟩

end

/-- Transitions out of a single step, or out of two that meet, are exact as long as no subroutine
called on the way runs a sequence of its own; and along every run of a single sequence just one step
is on. -/
theorem transitions_exact (out : Outside) (t : CompState) (u : Ucode) :
    (∀ p k c₀, k ≤ 2 → CallsKeepStatus out t u p k c₀ → TransitionsExact out t u p k c₀) ∧
    ∀ G c c', ActiveOne G c.plc.store → Relation.ReflTransGen (SequenceStep out t u G) c c' →
      ActiveOne G c'.plc.store := by
  refine ⟨fun p k c₀ hk hcalls => transitionsExact_of_le_two hk hcalls, fun G c c' hone hrun => ?_⟩
  induction hrun with
  | refl => exact hone
  | tail _ hlast ih => exact hlast.activeOne ih

/-- `STL S0`, `SET S1`, `RET` and `FEND`. -/
def transitionFile : Ucode :=
  [0, 0, 0, 0, 0, 0, 52, 0, 0, 0] ++ List.replicate 18 0 ++
    [0x0E, 0xF0, 0x00, 0x01, 0x00, 0x00, 0x00, 0x00, 0x10, 0x00] ++
    [0x10, 0xF0, 0x00, 0x01, 0x01, 0x00] ++ [0x12, 0xF0] ++ [0x2B, 0xF0] ++ List.replicate 4 0

/-- `STL S0`, `STL S1`, `STL S2`, `SET S3`, `RET` and `FEND`. -/
def threeStlFile : Ucode :=
  [0, 0, 0, 0, 0, 0, 72, 0, 0, 0] ++ List.replicate 18 0 ++
    [0x0E, 0xF0, 0x00, 0x01, 0x00, 0x00, 0x00, 0x00, 0x24, 0x00] ++
    [0x0E, 0xF0, 0x00, 0x01, 0x01, 0x00, 0x01, 0x00, 0x1A, 0x00] ++
    [0x0E, 0xF0, 0x00, 0x01, 0x02, 0x00, 0x02, 0x00, 0x10, 0x00] ++
    [0x10, 0xF0, 0x00, 0x01, 0x03, 0x00] ++ [0x12, 0xF0] ++ [0x2B, 0xF0] ++ List.replicate 4 0

def firstStepsOn (n : Nat) : Config := scanStart (stepsOnly (· < n))

/-- A transition out of the single step of `transitionFile`. -/
theorem transitionFile_exact : ∃ c c',
    Inside .idle (tablesOf transitionFile 6) transitionFile 28 1 (firstStepsOn 1) c ∧
    CallsKeepStatus .idle (tablesOf transitionFile 6) transitionFile 28 1 (firstStepsOn 1) ∧
    IsTransition transitionFile c ∧ Step .idle (tablesOf transitionFile 6) transitionFile c c' ∧
    ∀ j, c'.plc.store.bit .S j = true ↔ j = targetStep transitionFile c ∨
      c.plc.store.bit .S j = true ∧ ¬ IsSource transitionFile 28 1 j := by
  have hgroup : StlGroup transitionFile 28 1 :=
    ⟨by decide, by decide, by decide +kernel, by decide +kernel, by decide +kernel⟩
  obtain ⟨c, c', hstl, hpc, hframes, hset, hcode, hpower⟩ : ∃ c c',
      step .idle (tablesOf transitionFile 6) transitionFile 0 (firstStepsOn 1) = .inl c ∧
      c.env.pc = 38 ∧ c.frames = [] ∧
      step .idle (tablesOf transitionFile 6) transitionFile 0 c = .inl c' ∧
      ComplexIns.ofCode (transitionFile.getPU16 c.env.pc) = some (.data .setS) ∧
      getPowerFlow c.env.inPF = true := ⟨_, _, rfl, rfl, rfl, rfl, rfl, rfl⟩
  have hinside : Inside .idle (tablesOf transitionFile 6) transitionFile 28 1 (firstStepsOn 1) c :=
    ⟨hgroup, rfl, by unfold AllStepsOn; decide +kernel, c,
      .single ⟨⟨0, hstl⟩, 0, Nat.one_pos, rfl⟩, hpc, .refl⟩
  have hcalls : CallsKeepStatus .idle (tablesOf transitionFile 6) transitionFile 28 1
      (firstStepsOn 1) := by
    refine callsKeepStatus_of_noCall (fun q hcall => ?_) rfl
    have hcode := ComplexIns.code_of_ofCode hcall
    have hq : q < 52 := Ucode.lt_length_of_getPU16_ne_zero (by rw [← hcode]; decide)
    exact absurd hcode ((by decide +kernel :
      ∀ q < 52, ComplexIns.code .call ≠ transitionFile.getPU16 q) q hq)
  have hexact := (transitions_exact _ _ _).1 28 1 (firstStepsOn 1) (by decide) hcalls
  have htrans : IsTransition transitionFile c := ⟨.inl hcode, hpower⟩
  exact ⟨c, c', hinside, hcalls, htrans, ⟨0, hset⟩,
    (hexact c c' hinside hframes ⟨0, hset⟩).1 htrans⟩

/-- After a convergence of three steps the first of them stays on. -/
theorem threeStlFile_keeps_first : ∃ s, Accepts enoughMemory threeStlFile s ∧
    ¬ TransitionsExact .idle s threeStlFile 28 3 (firstStepsOn 3) := by
  refine ⟨tablesOf threeStlFile 8, accepts_tablesOf ⟨_, rfl⟩, fun h => ?_⟩
  obtain ⟨c₁, c, c', hfirst, hpc₁, hthird, hpc, hframes, hset, hcode, hpower, hon⟩ : ∃ c₁ c c',
      step .idle (tablesOf threeStlFile 8) threeStlFile 0 (firstStepsOn 3) = .inl c₁ ∧
      c₁.env.pc = 48 ∧ step .idle (tablesOf threeStlFile 8) threeStlFile 0 c₁ = .inl c ∧
      c.env.pc = 58 ∧ c.frames = [] ∧
      step .idle (tablesOf threeStlFile 8) threeStlFile 0 c = .inl c' ∧
      ComplexIns.ofCode (threeStlFile.getPU16 c.env.pc) = some (.data .setS) ∧
      getPowerFlow c.env.inPF = true ∧ c'.plc.store.bit .S 0 = true :=
    ⟨_, _, _, rfl, rfl, rfl, rfl, rfl, rfl, rfl, rfl, rfl⟩
  have hgroup : StlGroup threeStlFile 28 3 :=
    ⟨by decide, by decide, by decide +kernel, by decide +kernel, by decide +kernel⟩
  have hinside : Inside .idle (tablesOf threeStlFile 8) threeStlFile 28 3 (firstStepsOn 3) c :=
    ⟨hgroup, rfl, by unfold AllStepsOn; decide +kernel, c,
      .tail (.single ⟨⟨0, hfirst⟩, 0, by decide, rfl⟩) ⟨⟨0, hthird⟩, 2, by decide, hpc₁⟩, hpc,
      .refl⟩
  obtain htarget | ⟨-, hother⟩ :=
    ((h c c' hinside hframes ⟨0, hset⟩).1 ⟨.inl hcode, hpower⟩ 0).mp hon
  · rw [targetStep, hpc] at htarget
    exact absurd htarget (by decide +kernel)
  · exact hother ⟨0, by decide, rfl⟩

end Kalyke
