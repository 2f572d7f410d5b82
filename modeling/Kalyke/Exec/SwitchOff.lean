-- SUMMARY: What is off after a master-control block or a step of a sequence has been switched off.
import Kalyke.Exec.CleanUp
import Kalyke.Exec.Lengths
import Kalyke.Exec.Stl

/-!
# Switching Blocks Off

`MC` and `STL` are gates: as long as they are on, the instructions of the block behind them are run.
A gate notes in its edge memory that it was on. When the run comes to it again and it is off, the
outputs, timers and edges of its block are to be cleaned up. Whether they are depends on what the
run, the compiler's lists and the bodies of the instructions have done to this plan.
-/

namespace Kalyke

open List Function Option History

/-! ## Gates -/

/-- The instructions that switch a block on and off. -/
inductive Gate where
  | mc | stl
deriving DecidableEq, Repr

/-- The number of the edge memory of the gate at `p`. -/
def gateEdge (u : Ucode) (p : Nat) : Nat := u.getPU16 (p + 6)

namespace Gate

def At (u : Ucode) (p : Nat) : Gate → Prop
  | mc => complexAt u p = some .mc
  | stl => complexAt u p = some .stl

/-- The instruction at `q` lies in the block behind the gate at `p`: in a master-control block, or
between a `STL` and the next `STL` or `RET`. -/
def Inside (u : Ucode) (ps : List Nat) (p q : Nat) : Gate → Prop
  | mc => p ∈ openMc u (before ps q)
  | stl => p ∈ before ps q ∧
      ∀ d ∈ before ps q, p < d → complexAt u d ≠ some .stl ∧ complexAt u d ≠ some .ret

def On (u : Ucode) (c : Config) : Gate → Prop
  | mc => getPowerFlow c.env.inPF = true
  | stl => AllStepsOn u c.env.pc (stlRun u c.env.pc) c.plc.store

/-- What the gate that the run has come to does. -/
def run (out : Outside) (t : CompState) (u : Ucode) (now : BitVec 32) (c : Config) :
    Gate → InsResult
  | mc => runCiMcIns out t u now c.env c.plc
  | stl => runCiStlIns out t u now c.env c.plc

end Gate

/-- A block is switched off: from the state `s` to the state `s'`, at call level `n`, the targets of
its instructions are switched off, and nothing else is changed but the edge memory of the gate. -/
structure SwitchedOff (u : Ucode) (ps : List Nat) (now : BitVec 32) (g : Gate) (p n : Nat)
    (s s' : Store) : Prop where
  off : ∀ q ∈ ps, g.Inside u ps p q → ∀ x ∈ targets u n s q true, x.Off now s'
  kept : SwitchesOff now (fun x => x = .edge (gateEdge u p) ∨
    ∃ q ∈ ps, g.Inside u ps p q ∧ CleanTarget u ps s true n q x) s s'

/-! ## Runs -/

/-- In a run of `R`-steps, the gate at `p` was on when it was last executed, and is off now that the
run has come to it again. -/
structure GoesOff (R : Config → Config → Prop) (u : Ucode) (g : Gate) (p : Nat) (c : Config) :
    Prop where
  place : c.env.pc = p
  off : ¬ g.On u c
  last : ∃ plc c₀ c₁, Relation.ReflTransGen R (scanStart plc) c₀ ∧ c₀.env.pc = p ∧ g.On u c₀ ∧
    R c₀ c₁ ∧ Relation.ReflTransGen (fun a b => a.env.pc ≠ p ∧ R a b) c₁ c

/-- A step of a run in which nothing but the instruction at `p` changes the edge memory `e`: no
other instruction, and no other task between two scans. -/
inductive KeepStep (out : Outside) (t : CompState) (u : Ucode) (p e : Nat) :
    Config → Config → Prop where
  | step {a b : Config} (h : Step out t u a b)
      (hkeep : a.env.pc ≠ p → b.plc.store.edgeValue e = a.plc.store.edgeValue e) :
      KeepStep out t u p e a b
  | scan {a : Config} {f : Finish} (h : Ends out t u a f) (s : Store)
      (hkeep : a.env.pc ≠ p → f.plc.store.edgeValue e = a.plc.store.edgeValue e)
      (hs : s.edgeValue e = f.plc.store.edgeValue e) :
      KeepStep out t u p e a (scanStart { f.plc with store := s })

def Outside.withBout (out : Outside) : Outside :=
  { out with body := update out.body (.data .bout) runCiBoutIns }

theorem Outside.withBout_body (out : Outside) : out.withBout.body (.data .bout) = runCiBoutIns := by
  show update out.body (.data .bout) runCiBoutIns (.data .bout) = runCiBoutIns
  exact update_self ..

/-! ## The condition -/

/-- The flag of the compiler stands for the block behind the gate at `p` when it comes to `q`. -/
def Gate.FlagStands (u : Ucode) (ps : List Nat) (p q : Nat) : Gate → Prop
  | mc => ∃ a ∈ before ps q, mark u a = .mc ∧ FlagKept u ps a q
  | stl => FlagKept u ps p q

/-- The condition on a program, and on the state in which the run comes to a gate that is off. The
tables of the compiler are large enough; a `STL` stands alone, has a step number of one byte, and no
later one has the same; the clearable instructions of the block are on its list; the bit of each
`BOUT` is off already or is that of another instruction of the block; and the calls in the block can
be cleaned up. -/
structure CleansExactly (t : CompState) (u : Ucode) (ps : List Nat) (g : Gate) (p : Nat)
    (c : Config) : Prop where
  indices : IndicesInRange u
  single : g = .stl → stlRun u p = 1 ∧ stlNumber u p < 256 ∧
    ∀ b ∈ ps, mark u b = .stl (stlNumber u p) → b ≤ p
  listed : ∀ q ∈ ps, g.Inside u ps p q → clearable u q = true →
    g.FlagStands u ps p q ∧ isOutLm u q = false
  bout : ∀ q ∈ ps, g.Inside u ps p q → complexAt u q = some (.data .bout) →
    ∀ a k, boutTarget u c.plc.sbrNestedNum c.plc.store q = some (.bit a k) →
      (a.read c.plc.store).getLsbD k = false ∨
      ∃ q' ∈ ps, g.Inside u ps p q' ∧ complexAt u q' ≠ some (.data .bout) ∧
        ∃ y ∈ targets u c.plc.sbrNestedNum c.plc.store q' true, y.Covers a k
  calls : ∀ q ∈ ps, g.Inside u ps p q →
    CallFits t u c.plc.isExec (maxSbrNestedLayer - c.plc.sbrNestedNum) q

/-! ## Blocks and lists -/

section

variable {u : Ucode} {ps : List Nat} {t : CompState} {g : Gate} {p q n : Nat} {s : Store}

theorem not_isSimple_of_complexAt {i : ComplexIns} (h : complexAt u p = some i) :
    ¬ IsSimple u p := by
  intro hs
  rw [complexAt, if_pos hs] at h
  cases h

theorem ofCode_of_complexAt {i : ComplexIns} (h : complexAt u p = some i) :
    ComplexIns.ofCode (u.getPU16 p) = some i := by
  rwa [complexAt, if_neg (not_isSimple_of_complexAt h)] at h

theorem mark_of_complexAt {i : ComplexIns} (h : complexAt u p = some i) :
    mark u p = i.mark u p := by
  rw [mark, if_neg (not_isSimple_of_complexAt h), ofCode_of_complexAt h]
  rfl

/-- The instructions between which a step lies are the `STL` and `RET`. -/
theorem endsStep_iff : (BlockKind.step.opens (mark u p) = none ∧
    BlockKind.step.closes (mark u p) = false) ↔
      complexAt u p ≠ some .stl ∧ complexAt u p ≠ some .ret := by
  cases h : complexAt u p with
  | none =>
    have hmark : mark u p = .plain := by
      unfold complexAt at h
      unfold mark
      split at h
      · rename_i hs
        rw [if_pos hs]
      · rename_i hs
        rw [if_neg hs, h]
        rfl
    rw [hmark]
    simp [BlockKind.opens, BlockKind.closes]
  | some i =>
    rw [mark_of_complexAt h]
    cases i with
    | stl =>
      rw [ComplexIns.mark]
      split <;> simp [BlockKind.opens, BlockKind.closes]
    | sbr =>
      rw [ComplexIns.mark]
      cases sbrNumber u p <;> simp [BlockKind.opens, BlockKind.closes]
    | intr =>
      rw [ComplexIns.mark]
      cases intrNumber u p <;> simp [BlockKind.opens, BlockKind.closes]
    | _ => simp [ComplexIns.mark, BlockKind.opens, BlockKind.closes]

theorem openBlock_step_iff (hps : ps.Pairwise (· < ·)) (hmark : mark u p = .stl n) :
    openBlock u .step ps = some (p, n) ↔
      p ∈ ps ∧ ∀ d ∈ ps, p < d → complexAt u d ≠ some .stl ∧ complexAt u d ≠ some .ret := by
  constructor
  · intro h
    obtain ⟨hmem, -, hsince⟩ := openBlock_spec hps h
    exact ⟨hmem, fun d hd hpd => endsStep_iff.mp (hsince d hd hpd)⟩
  · rintro ⟨hmem, hsince⟩
    induction ps using reverseRecOn with
    | nil => cases hmem
    | append_singleton ps d ih =>
      have hopens : BlockKind.step.opens (mark u p) = some n := by
        rw [hmark]
        rfl
      rw [openBlock_snoc, openStep]
      rcases mem_append.mp hmem with hmem | hmem
      · obtain ⟨hnone, hcloses⟩ := endsStep_iff.mpr
          (hsince d (by simp) (lt_of_pairwise_snoc hps p hmem))
        rw [hnone, hcloses]
        exact ih (pairwise_of_snoc hps) hmem fun d hd => hsince d (mem_append_left _ hd)
      · rw [← mem_singleton.mp hmem, hopens]

theorem mark_of_single (hat : Gate.stl.At u p) (hone : stlRun u p = 1) :
    mark u p = .stl (stlNumber u p) := by
  rw [mark_of_complexAt hat, ComplexIns.mark, if_pos hone]

/-- The list the compiler has made for the block of a gate. -/
def gateList (u : Ucode) (ps : List Nat) (p : Nat) : Gate → InsList
  | .mc => recordedMcList u ps p
  | .stl => recordedList u .step ps p

theorem gateList_split : (gateList u ps p g).Split u := by
  cases g <;> exact collect_split

theorem has_gateList_iff (hps : ps.Pairwise (· < ·)) (hat : g.At u p)
    (hsingle : g = .stl → stlRun u p = 1) : (gateList u ps p g).Has q ↔
      q ∈ ps ∧ g.Inside u ps p q ∧ g.FlagStands u ps p q ∧ clearable u q = true ∧
        isOutLm u q = false := by
  cases g with
  | mc =>
    show q ∈ (recordedMcList u ps p).simp ∨ q ∈ (recordedMcList u ps p).comp ↔ _
    rw [recordedMcList, mem_collect, recordable_eq, Bool.and_eq_true, Bool.and_eq_true,
      Bool.and_eq_true, Bool.not_eq_true', beq_iff_eq, mcFlagKept_iff hps, inMc,
      contains_iff_mem]
    simp only [Gate.FlagStands]
    tauto
  | stl =>
    have hmark := mark_of_single hat (hsingle rfl)
    have hinside : inBlock u .step p (before ps q) = true ↔ Gate.stl.Inside u ps p q := by
      rw [inBlock_iff, Gate.Inside, ← openBlock_step_iff (pairwise_before hps) hmark]
      constructor
      · rintro ⟨n, hopen⟩
        have hn := (openBlock_spec (pairwise_before hps) hopen).2.1
        rw [hmark] at hn
        cases hn
        exact hopen
      · exact fun hopen => ⟨_, hopen⟩
    show q ∈ (recordedList u .step ps p).simp ∨ q ∈ (recordedList u .step ps p).comp ↔ _
    rw [recordedList, mem_collect, recordableIn_eq, Bool.and_eq_true, Bool.and_eq_true,
      Bool.and_eq_true, Bool.not_eq_true', beq_iff_eq, hinside]
    constructor
    · rintro ⟨hq, ⟨hin, hflag⟩, hclear, hlm⟩
      have hopen := (openBlock_step_iff (pairwise_before hps) hmark).mpr hin
      exact ⟨hq, hin, (flagKept_iff hps hopen).mp hflag, hclear, hlm⟩
    · rintro ⟨hq, hin, hflag, hclear, hlm⟩
      have hopen := (openBlock_step_iff (pairwise_before hps) hmark).mpr hin
      exact ⟨hq, ⟨hin, (flagKept_iff hps hopen).mpr hflag⟩, hclear, hlm⟩

/-- Instructions with targets are those that the clean functions handle. -/
theorem clearable_of_mem_targets {x : Target} (hx : x ∈ targets u n s q true) :
    clearable u q = true := by
  unfold clearable insTest
  split
  · rename_i hs
    rw [targets_simple hs] at hx
    cases hi : SimpleIns.ofCode (u.getPU8 (q + 1)) with
    | none =>
      rw [hi] at hx
      cases hx
    | some i =>
      rw [hi, elim_some] at hx
      unfold SimpleIns.targets at hx
      split at hx
      · rfl
      · rfl
      · rfl
      · rfl
      · rfl
      · cases hx
  · rename_i hs
    rw [targets_complex hs] at hx
    cases hi : ComplexIns.ofCode (u.getPU16 q) with
    | none =>
      rw [hi] at hx
      cases hx
    | some i =>
      rw [hi, elim_some] at hx
      unfold ComplexIns.targets at hx
      split at hx
      · rfl
      · rfl
      · rfl
      · rfl
      · cases hx

theorem Follows.find_mcBlock (h : Follows u ps t) (hp : p ∈ ps) (hat : Gate.mc.At u p) :
    (t.mcBlocks.find? fun b => b.pc == p) = some ⟨p, recordedMcList u ps p⟩ := by
  have hopener : p ∈ mcOpeners u ps :=
    mem_filter.mpr ⟨hp, decide_eq_true (mark_of_complexAt hat)⟩
  have hmem : ⟨p, recordedMcList u ps p⟩ ∈ t.mcBlocks := by
    rw [h.mcBlocks]
    exact List.mem_map_of_mem hopener
  cases hfind : t.mcBlocks.find? fun b => b.pc == p with
  | none =>
    have hne := find?_eq_none.mp hfind _ hmem
    exact absurd (beq_self_eq_true p) hne
  | some b =>
    have hpc := find?_some hfind
    have hb := mem_of_find?_eq_some hfind
    rw [h.mcBlocks] at hb
    obtain ⟨a, -, rfl⟩ := List.mem_map.mp hb
    rw [show a = p from beq_iff_eq.mp hpc]

theorem Follows.stlList_eq (h : Follows u ps t) (hps : ps.Pairwise (· < ·)) (hp : p ∈ ps)
    (hmark : mark u p = .stl n) (hlast : ∀ b ∈ ps, mark u b = .stl n → b ≤ p) :
    t.stlList n = recordedList u .step ps p := by
  have hopens : BlockKind.step.opens (mark u p) = some n := by
    rw [hmark]
    rfl
  have hmem : p ∈ ps.filter fun a => BlockKind.step.opens (mark u a) = some n :=
    mem_filter.mpr ⟨hp, decide_eq_true hopens⟩
  have hlist : t.stlList n = _ := h.lists .step n
  obtain ⟨a, ha⟩ : ∃ a, lastOpened u .step n ps = some a :=
    isSome_iff_exists.mp (by simpa [lastOpened] using ⟨p, hp, hopens⟩)
  obtain ⟨hmem', hopens'⟩ := lastOpened_spec ha
  have hmark' : mark u a = .stl n := by
    cases hm : mark u a with
    | stl m =>
      rw [hm] at hopens'
      cases hopens'
      rfl
    | _ =>
      rw [hm] at hopens'
      cases hopens'
  have hle : p ≤ a := le_getLast (hps.sublist filter_sublist) ha p hmem
  rw [hlist, ha, elim_some, le_antisymm (hlast a hmem' hmark') hle]

end

/-! ## What a gate does -/

section

variable {out : Outside} {t : CompState} {u : Ucode} {now : BitVec 32} {ps : List Nat}
variable {g : Gate} {p e : Nat} {c c' : Config}

theorem not_stl_of_single (hone : stlRun u p = 1) : u.getPU16 (p + 10) ≠ ComplexIns.code .stl := by
  have hstop := stlRun_stops (u := u) (p := p)
  rwa [hone] at hstop

theorem Gate.run_on (hsingle : g = .stl → stlRun u c.env.pc = 1 ∧ stlNumber u c.env.pc < 256)
    (hon : g.On u c) : (g.run out t u now c).ret = .pass ∧
      (g.run out t u now c).plc.store.edgeValue (gateEdge u c.env.pc) = true := by
  cases g with
  | mc =>
    have hrun : runCiMcIns out t u now c.env c.plc = c.env.done .pass (.next 10)
        (c.plc.onStore (·.setEdge (gateEdge u c.env.pc) true)) := if_pos hon
    rw [Gate.run, hrun]
    exact ⟨rfl, update_self ..⟩
  | stl =>
    obtain ⟨hone, hnumber⟩ := hsingle rfl
    obtain ⟨hret, -, -, hstore⟩ :
        (runCiStlIns out t u now c.env c.plc).ret = .pass ∧ _ ∧ _ ∧ _ :=
      runCiStlIns_single (not_stl_of_single hone) hnumber
    have hstep : c.plc.store.bit .S (stlStep u c.env.pc 0) = true := by
      rw [Gate.On, hone] at hon
      exact allStepsOn_one.mp hon
    refine ⟨hret, ?_⟩
    rw [Gate.run, hstore, stepStore, if_pos hstep]
    split <;> exact update_self ..

theorem Gate.run_off (h : Follows u ps t) (hps : ps.Pairwise (· < ·)) (hp : c.env.pc ∈ ps)
    (hat : g.At u c.env.pc)
    (hsingle : g = .stl → stlRun u c.env.pc = 1 ∧ stlNumber u c.env.pc < 256 ∧
      ∀ b ∈ ps, mark u b = .stl (stlNumber u c.env.pc) → b ≤ c.env.pc)
    (hoff : ¬ g.On u c) (hedge : c.plc.store.edgeValue (gateEdge u c.env.pc) = true) :
    ∃ plc : Plc, plc.store = c.plc.store.setEdge (gateEdge u c.env.pc) false ∧
      plc.sbrNestedNum = c.plc.sbrNestedNum ∧ plc.isExec = c.plc.isExec ∧
      (g.run out t u now c).plc.store = (cleanLists out t u now true (cleanSub out t u now plc)
        (gateList u ps c.env.pc g) plc).2.store := by
  cases g with
  | mc =>
    refine ⟨c.plc.onStore (·.setEdge (gateEdge u c.env.pc) false), rfl, rfl, rfl, ?_⟩
    have hrun : (runCiMcIns out t u now c.env c.plc).plc =
        (plcMcInsCleanElement out t u now c.env.pc
          (c.plc.onStore (·.setEdge (gateEdge u c.env.pc) false))).2 := by
      have hpf : ¬ getPowerFlow c.env.inPF = true := hoff
      have hvalue : c.plc.store.edgeValue (u.getPU16 (c.env.pc + 6)) = true := hedge
      unfold runCiMcIns
      rw [if_neg hpf, if_pos hvalue]
      split <;> rename_i heq
      all_goals exact (congrArg Prod.snd heq).symm
    rw [Gate.run, hrun, plcMcInsCleanElement, h.find_mcBlock hp hat]
    rfl
  | stl =>
    obtain ⟨hone, hnumber, hlast⟩ := hsingle rfl
    obtain ⟨-, -, -, hstore⟩ : _ ∧ _ ∧ _ ∧ (runCiStlIns out t u now c.env c.plc).plc.store = _ :=
      runCiStlIns_single (not_stl_of_single hone) hnumber
    have hstep : ¬ c.plc.store.bit .S (stlStep u c.env.pc 0) = true := by
      intro hon
      apply hoff
      rw [Gate.On, hone]
      exact allStepsOn_one.mpr hon
    have hrange : ¬ sRang < stlStep u c.env.pc 0 := by
      have hsame : stlStep u c.env.pc 0 = stlNumber u c.env.pc := rfl
      unfold sRang
      omega
    have hlist : t.stlList (stlStep u c.env.pc 0) = recordedList u .step ps c.env.pc :=
      h.stlList_eq hps hp (mark_of_single hat hone) hlast
    refine ⟨Plc.onStore { c.plc with sfc := (runCiStlIns out t u now c.env c.plc).plc.sfc }
      (·.setEdge (gateEdge u c.env.pc) false), rfl, rfl, rfl, ?_⟩
    have hvalue : c.plc.store.edgeValue (u.getPU16 (c.env.pc + 6)) = true := hedge
    rw [Gate.run, hstore, stepStore, if_neg hstep, if_pos hvalue, plcStlInsCleanElement,
      if_neg hrange, hlist]
    rfl

/-- The instruction that a gate is. -/
theorem Gate.exec (hat : g.At u c.env.pc) :
    execIns out t u now c.env c.plc = .done (g.run out t u now c) := by
  cases g with
  | mc => exact execIns_complex (ofCode_of_complexAt hat)
  | stl => exact execIns_complex (ofCode_of_complexAt hat)

theorem KeepStep.edge_on (h : KeepStep out t u c.env.pc (gateEdge u c.env.pc) c c')
    (hat : g.At u c.env.pc)
    (hsingle : g = .stl → stlRun u c.env.pc = 1 ∧ stlNumber u c.env.pc < 256)
    (hon : g.On u c) : c'.plc.store.edgeValue (gateEdge u c.env.pc) = true := by
  cases h with
  | step h hkeep =>
    obtain ⟨now, hstep⟩ := h
    obtain ⟨hret, hedge⟩ : (g.run out t u now c).ret = .pass ∧ _ := Gate.run_on hsingle hon
    rw [(step_pass hstep (Gate.exec hat) hret).2.2.edgeValue]
    exact hedge
  | scan h s hkeep hs =>
    obtain ⟨now, hstep⟩ := h
    obtain ⟨hret, hedge⟩ : (g.run out t u now c).ret = .pass ∧ _ := Gate.run_on hsingle hon
    show s.edgeValue (gateEdge u c.env.pc) = true
    rw [hs, (end_pass hstep (Gate.exec hat) hret).edgeValue]
    exact hedge

/-- A step from elsewhere leaves it as it is. -/
theorem KeepStep.edge_kept (h : KeepStep out t u p e c c') (hpc : c.env.pc ≠ p) :
    c'.plc.store.edgeValue e = c.plc.store.edgeValue e := by
  cases h with
  | step h hkeep => exact hkeep hpc
  | scan h s hkeep hs => exact hs.trans (hkeep hpc)

/-- When the run comes back to a gate, its edge memory says that it was on. -/
theorem GoesOff.edge_on (h : GoesOff (KeepStep out t u p (gateEdge u p)) u g p c)
    (hat : g.At u p) (hsingle : g = .stl → stlRun u p = 1 ∧ stlNumber u p < 256) :
    c.plc.store.edgeValue (gateEdge u p) = true := by
  obtain ⟨-, -, plc, c₀, c₁, -, rfl, hon, hfirst, hrun⟩ := h
  induction hrun with
  | refl => exact hfirst.edge_on hat hsingle hon
  | tail hrun hlast ih => rw [hlast.2.edge_kept hlast.1, ih]

end

/-! ## Switching off -/

theorem boutTarget_bit {u : Ucode} {n q : Nat} {s : Store} {x : Target}
    (h : boutTarget u n s q = some x) : ∃ a k, x = .bit a k := by
  unfold boutTarget at h
  split at h
  · exact ⟨_, _, (some.inj h).symm⟩
  · split at h
    · exact ⟨_, _, (some.inj h).symm⟩
    · cases h
  · cases h

section

variable {alloc : Nat → Bool} {out : Outside} {t : CompState} {u : Ucode} {now : BitVec 32}
variable {g : Gate} {p : Nat} {c : Config} {plc : Plc}

/-- Under the condition the clean-up of the list of a block comes to its end. -/
theorem CleansExactly.clean_ok (hcond : CleansExactly t u (boundaries u) g p c)
    (hacc : Accepts alloc u t) (hat : g.At u p) (hlevel : plc.sbrNestedNum = c.plc.sbrNestedNum)
    (hexec : plc.isExec = c.plc.isExec) :
    (cleanLists out t u now true (cleanSub out t u now plc) (gateList u (boundaries u) p g)
      plc).1 = .ok () := by
  obtain ⟨hps, hfollows⟩ := hacc.follows hcond.indices
  have hmem (q : Nat) (hq : q ∈ (gateList u (boundaries u) p g).comp) :
      q ∈ boundaries u ∧ g.Inside u (boundaries u) p q :=
    have hhas := (has_gateList_iff hps hat fun hg => (hcond.single hg).1).mp (.inr hq)
    ⟨hhas.1, hhas.2.1⟩
  apply cleanLists_ok hacc.callsKnown (hfollows.sbrListsWithin hps)
  · exact fun q hq => (hmem q hq).1
  · intro q hq
    rw [hexec, hlevel]
    exact hcond.calls q (hmem q hq).1 (hmem q hq).2

/-- What it switches off are targets of the instructions of the block. -/
theorem CleansExactly.clean_switchesOff (hcond : CleansExactly t u (boundaries u) g p c)
    (hacc : Accepts alloc u t) (hat : g.At u p) (hlevel : plc.sbrNestedNum = c.plc.sbrNestedNum) :
    SwitchesOff now (fun x => ∃ q ∈ boundaries u, g.Inside u (boundaries u) p q ∧
        CleanTarget u (boundaries u) c.plc.store true c.plc.sbrNestedNum q x) plc.store
      (cleanLists out.withBout t u now true (cleanSub out.withBout t u now plc)
        (gateList u (boundaries u) p g) plc).2.store := by
  obtain ⟨hps, hfollows⟩ := hacc.follows hcond.indices
  have hbout := out.withBout_body
  have hclean : SwitchesOff now (fun x => ∃ q, (gateList u (boundaries u) p g).Has q ∧
      CleanTarget u (boundaries u) c.plc.store true c.plc.sbrNestedNum q x) plc.store
      (cleanLists out.withBout t u now true (cleanSub out.withBout t u now plc)
        (gateList u (boundaries u) p g) plc).2.store :=
    cleanLists_switchesOff hbout
      (plcCallInsCleanElement_cleansSubs hbout (hfollows.sbrListsWithin hps) _ _)
      gateList_split plc hlevel
  apply hclean.mono
  intro x ⟨q, hq, hx⟩
  obtain ⟨hmem, hin, -⟩ := (has_gateList_iff hps hat fun hg => (hcond.single hg).1).mp hq
  exact ⟨q, hmem, hin, hx⟩

/-- The targets of all instructions of the block but `BOUT` are off afterwards. -/
theorem CleansExactly.clean_off (hcond : CleansExactly t u (boundaries u) g p c)
    (hacc : Accepts alloc u t) (hat : g.At u p) (hlevel : plc.sbrNestedNum = c.plc.sbrNestedNum)
    (hexec : plc.isExec = c.plc.isExec) {q : Nat} (hq : q ∈ boundaries u)
    (hin : g.Inside u (boundaries u) p q) (hnot : complexAt u q ≠ some (.data .bout)) {x : Target}
    (hx : x ∈ targets u c.plc.sbrNestedNum c.plc.store q true) :
    x.Off now (cleanLists out.withBout t u now true (cleanSub out.withBout t u now plc)
      (gateList u (boundaries u) p g) plc).2.store := by
  obtain ⟨hps, hfollows⟩ := hacc.follows hcond.indices
  have hbout := out.withBout_body
  have hclear := clearable_of_mem_targets hx
  obtain ⟨hflag, hlm⟩ := hcond.listed q hq hin hclear
  have hhas : (gateList u (boundaries u) p g).Has q :=
    (has_gateList_iff hps hat fun hg => (hcond.single hg).1).mpr ⟨hq, hin, hflag, hclear, hlm⟩
  exact cleanLists_off hbout
    (plcCallInsCleanElement_cleansSubs hbout (hfollows.sbrListsWithin hps) _ _) gateList_split
    plc hlevel (hcond.clean_ok hacc hat hlevel hexec) q hhas hnot x hx

/-- In every run in which nothing else uses the edge memory of a gate, a block that goes off under
the condition is switched off. -/
theorem switchedOff_of_run (hacc : Accepts alloc u t) (hp : p ∈ boundaries u) (hat : g.At u p)
    (hrun : GoesOff (KeepStep out.withBout t u p (gateEdge u p)) u g p c)
    (hcond : CleansExactly t u (boundaries u) g p c) (now : BitVec 32) :
    SwitchedOff u (boundaries u) now g p c.plc.sbrNestedNum c.plc.store
      (g.run out.withBout t u now c).plc.store := by
  obtain ⟨hps, hfollows⟩ := hacc.follows hcond.indices
  have hsingle : g = .stl → stlRun u p = 1 ∧ stlNumber u p < 256 := fun hg =>
    ⟨(hcond.single hg).1, (hcond.single hg).2.1⟩
  have hedge := hrun.edge_on hat hsingle
  obtain rfl := hrun.place
  obtain ⟨plc, hstore, hlevel, hexec, hend⟩ : ∃ plc : Plc, _ ∧ _ ∧ _ ∧
      (g.run out.withBout t u now c).plc.store = _ :=
    Gate.run_off hfollows hps hp hat hcond.single hrun.off hedge
  have hkept : SwitchesOff now (fun x => x = .edge (gateEdge u c.env.pc) ∨
      ∃ q ∈ boundaries u, g.Inside u (boundaries u) c.env.pc q ∧
        CleanTarget u (boundaries u) c.plc.store true c.plc.sbrNestedNum q x) c.plc.store
      (g.run out.withBout t u now c).plc.store := by
    have hclean : SwitchesOff now _ plc.store (cleanLists out.withBout t u now true
        (cleanSub out.withBout t u now plc) (gateList u (boundaries u) c.env.pc g) plc).2.store :=
      hcond.clean_switchesOff hacc hat hlevel
    rw [hend]
    rw [hstore] at hclean
    exact (setEdge_switchesOff (.inl rfl)).trans (hclean.mono fun x hx => .inr hx)
  have hoff : ∀ q ∈ boundaries u, g.Inside u (boundaries u) c.env.pc q →
      complexAt u q ≠ some (.data .bout) →
      ∀ x ∈ targets u c.plc.sbrNestedNum c.plc.store q true,
        x.Off now (g.run out.withBout t u now c).plc.store := by
    intro q hq hin hnot x hx
    rw [hend]
    exact hcond.clean_off hacc hat hlevel hexec hq hin hnot hx
  refine ⟨fun q hq hin x hx => ?_, hkept⟩
  by_cases hnot : complexAt u q = some (.data .bout)
  · -- `BOUT` itself does nothing: its bit is off already, or somebody else's.
    have hx' : boutTarget u c.plc.sbrNestedNum c.plc.store q = some x := by
      have hs := not_isSimple_of_complexAt hnot
      rw [targets_complex hs, ofCode_of_complexAt hnot] at hx
      exact mem_toList.mp hx
    obtain ⟨a, k, rfl⟩ := boutTarget_bit hx'
    rcases hcond.bout q hq hin hnot a k hx' with hbefore | ⟨q', hq', hin', hnot', y, hy, hcover⟩
    · have hbit : (Target.bit a k).Off now c.plc.store := hbefore
      exact hbit.keep hkept
    · exact (hoff q' hq' hin' hnot' y hy).covered hcover
  · exact hoff q hq hin hnot x hx

end

/-- `LDI X0` and a master-control block with edge number 0. -/
def mcFile (len skip : UInt8) (body : List UInt8) : Ucode :=
  [0, 0, 0, 0, 0, 0, len, 0, 0, 0] ++ replicate 18 0 ++ [0x00, 0x20] ++
    [0x1C, 0xF0, 0, 0, 0, 0, 0, 0, skip, 0] ++ body ++ [0x1D, 0xF0, 0, 0, 0, 0] ++ [0x2B, 0xF0] ++
    replicate 4 0

/-- The block holds `OUT Y0`. -/
def outInMcFile : Ucode := mcFile 54 12 [0x00, 0x71]

/-- The block holds `BOUT D0 K3`. -/
def boutInMcFile : Ucode :=
  mcFile 62 20 [0xF2, 0xF0, 0x00, 0x11, 0x00, 0x00, 0x00, 0xFF, 0x03, 0x00]

/-- `outInMcFile` meets the condition of the clean-up in every state at call level zero in which no
`CALL` is marked as executed. -/
theorem outInMcFile_cleans {t : CompState} {c : Config}
    (hacc : Accepts enoughMemory outInMcFile t) :
    CleansExactly t outInMcFile (boundaries outInMcFile) .mc 30 c where
  indices := hacc.indicesInRange (by decide +kernel)
  single := nofun
  listed := by
    have honly : ∀ q ∈ boundaries outInMcFile, clearable outInMcFile q = true →
        q = 40 ∧ isOutLm outInMcFile q = false := by decide +kernel
    have hkept : ∀ d ∈ flagSetters outInMcFile (boundaries outInMcFile), 30 < d → 40 ≤ d := by
      decide +kernel
    intro q hq _ hclear
    obtain ⟨rfl, hlm⟩ := honly q hq hclear
    exact ⟨⟨30, by decide +kernel, by decide +kernel, hkept⟩, hlm⟩
  bout := by
    have hnone : ∀ q ∈ boundaries outInMcFile,
        complexAt outInMcFile q ≠ some (.data .bout) := by decide +kernel
    exact fun q hq _ hcode => absurd hcode (hnone q hq)
  calls := by
    intro q hq _
    have hnone : ∀ q ∈ boundaries outInMcFile,
        ComplexIns.ofCode (outInMcFile.getPU16 q) ≠ some .call := by decide +kernel
    cases maxSbrNestedLayer - c.plc.sbrNestedNum with
    | zero => exact hnone q hq
    | succ room => exact fun hcall => absurd hcall (hnone q hq)

/-- `OUT Y0` in a block that was run in the first scan and is not run in the second. -/
theorem outInMcFile_goesOff : ∃ c,
    GoesOff (KeepStep Outside.idle.withBout (tablesOf outInMcFile 6) outInMcFile 30 0) outInMcFile
      .mc 30 c ∧ c.plc.store.bit .Y 0 = true := by
  obtain ⟨c₀, c₁, a, b, f, c, hldi, hmc, hout, hmcr, hend, hldi', hpcs, hkept, hon, hpc, hoff,
      hbit⟩ : ∃ c₀ c₁ a b f c,
      step Outside.idle.withBout (tablesOf outInMcFile 6) outInMcFile 0 (scanStart .off) =
        .inl c₀ ∧
      step Outside.idle.withBout (tablesOf outInMcFile 6) outInMcFile 0 c₀ = .inl c₁ ∧
      step Outside.idle.withBout (tablesOf outInMcFile 6) outInMcFile 0 c₁ = .inl a ∧
      step Outside.idle.withBout (tablesOf outInMcFile 6) outInMcFile 0 a = .inl b ∧
      step Outside.idle.withBout (tablesOf outInMcFile 6) outInMcFile 0 b = .inr f ∧
      step Outside.idle.withBout (tablesOf outInMcFile 6) outInMcFile 0
        (scanStart { f.plc with store := f.plc.store.setBit (.elem .X) 0 true }) = .inl c ∧
      (c₀.env.pc = 30 ∧ c₁.env.pc = 40 ∧ a.env.pc = 42 ∧ b.env.pc = 48) ∧
      (c₀.plc.store.edgeValue 0 = false ∧ c₁.plc.store.edgeValue 0 = true ∧
        a.plc.store.edgeValue 0 = true ∧ b.plc.store.edgeValue 0 = true ∧
        f.plc.store.edgeValue 0 = true ∧ c.plc.store.edgeValue 0 = true) ∧
      getPowerFlow c₀.env.inPF = true ∧ c.env.pc = 30 ∧ getPowerFlow c.env.inPF = false ∧
      c.plc.store.bit .Y 0 = true :=
    ⟨_, _, _, _, _, _, rfl, rfl, rfl, rfl, rfl, rfl, ⟨rfl, rfl, rfl, rfl⟩,
      ⟨rfl, rfl, rfl, rfl, rfl, rfl⟩, rfl, rfl, rfl, rfl⟩
  obtain ⟨hpc₀, hpc₁, hpca, hpcb⟩ := hpcs
  obtain ⟨hedge₀, hedge₁, hedgea, hedgeb, hedgef, hedgec⟩ := hkept
  have hset : (f.plc.store.setBit (.elem .X) 0 true).edgeValue 0 = true := hedgef
  refine ⟨c, ⟨hpc, by rw [Gate.On, hoff]; nofun, .off, c₀, c₁, ?_, hpc₀, hon, ?_, ?_⟩, hbit⟩
  · exact .single (.step ⟨0, hldi⟩ fun _ => hedge₀)
  · exact .step ⟨0, hmc⟩ fun h => absurd hpc₀ h
  · refine .head ⟨by omega, .step ⟨0, hout⟩ fun _ => hedgea.trans hedge₁.symm⟩ ?_
    refine .head ⟨by omega, .step ⟨0, hmcr⟩ fun _ => hedgeb.trans hedgea.symm⟩ ?_
    refine .head ⟨by omega, .scan ⟨0, hend⟩ _ (fun _ => hedgef.trans hedgeb.symm)
      (hset.trans hedgef.symm)⟩ ?_
    exact .single ⟨(by decide : ucodeStart ≠ 30), .step ⟨0, hldi'⟩ fun _ => hedgec.trans hset.symm⟩

/-- `Y0` is switched off. -/
theorem outInMcFile_switchedOff : ∃ c, c.plc.store.bit .Y 0 = true ∧
    SwitchedOff outInMcFile (boundaries outInMcFile) 0 .mc 30 c.plc.sbrNestedNum c.plc.store
      (Gate.mc.run Outside.idle.withBout (tablesOf outInMcFile 6) outInMcFile 0 c).plc.store := by
  have hacc : Accepts enoughMemory outInMcFile (tablesOf outInMcFile 6) :=
    accepts_tablesOf ⟨_, rfl⟩
  obtain ⟨c, hrun, hbit⟩ := outInMcFile_goesOff
  have hat : Gate.mc.At outInMcFile 30 := by
    show complexAt outInMcFile 30 = some .mc
    decide +kernel
  exact ⟨c, hbit, switchedOff_of_run hacc (by decide +kernel) hat hrun (outInMcFile_cleans hacc) 0⟩

/-- `BOUT` leaves its bit on when the block is switched off. -/
theorem boutInMcFile_stays_on : ∃ t c, Accepts enoughMemory boutInMcFile t ∧
    GoesOff (RunStep Outside.idle.withBout t boutInMcFile) boutInMcFile .mc 30 c ∧
    ¬ SwitchedOff boutInMcFile (boundaries boutInMcFile) 0 .mc 30 c.plc.sbrNestedNum c.plc.store
      (Gate.mc.run Outside.idle.withBout t boutInMcFile 0 c).plc.store := by
  obtain ⟨c₀, c₁, a, b, f, c, hldi, hmc, hbout, hmcr, hend, hldi', hpcs, hon, hpc, hoff, hlevel,
      htarget, hbit⟩ : ∃ c₀ c₁ a b f c,
      step Outside.idle.withBout (tablesOf boutInMcFile 6) boutInMcFile 0 (scanStart .off) =
        .inl c₀ ∧
      step Outside.idle.withBout (tablesOf boutInMcFile 6) boutInMcFile 0 c₀ = .inl c₁ ∧
      step Outside.idle.withBout (tablesOf boutInMcFile 6) boutInMcFile 0 c₁ = .inl a ∧
      step Outside.idle.withBout (tablesOf boutInMcFile 6) boutInMcFile 0 a = .inl b ∧
      step Outside.idle.withBout (tablesOf boutInMcFile 6) boutInMcFile 0 b = .inr f ∧
      step Outside.idle.withBout (tablesOf boutInMcFile 6) boutInMcFile 0
        (scanStart { f.plc with store := f.plc.store.setBit (.elem .X) 0 true }) = .inl c ∧
      (c₀.env.pc = 30 ∧ c₁.env.pc = 40 ∧ a.env.pc = 50 ∧ b.env.pc = 56) ∧
      getPowerFlow c₀.env.inPF = true ∧ c.env.pc = 30 ∧ getPowerFlow c.env.inPF = false ∧
      c.plc.sbrNestedNum = 0 ∧
      boutTarget boutInMcFile 0 c.plc.store 40 = some (.bit (.word .D 0) 3) ∧
      ((Cell.word .D 0).read (Gate.mc.run Outside.idle.withBout (tablesOf boutInMcFile 6)
        boutInMcFile 0 c).plc.store).getLsbD 3 = true :=
    ⟨_, _, _, _, _, _, rfl, rfl, rfl, rfl, rfl, rfl, ⟨rfl, rfl, rfl, rfl⟩, rfl, rfl, rfl, rfl, rfl,
      rfl⟩
  obtain ⟨hpc₀, hpc₁, hpca, hpcb⟩ := hpcs
  have hacc : Accepts enoughMemory boutInMcFile (tablesOf boutInMcFile 6) :=
    accepts_tablesOf ⟨_, rfl⟩
  refine ⟨tablesOf boutInMcFile 6, c, hacc,
    ⟨hpc, by rw [Gate.On, hoff]; nofun, .off, c₀, c₁, ?_, hpc₀, hon, ?_, ?_⟩, fun h => ?_⟩
  · exact .single (.step ⟨0, hldi⟩)
  · exact .step ⟨0, hmc⟩
  · refine .head ⟨by omega, .step ⟨0, hbout⟩⟩ ?_
    refine .head ⟨by omega, .step ⟨0, hmcr⟩⟩ ?_
    refine .head ⟨by omega, .scan ⟨0, hend⟩ (f.plc.store.setBit (.elem .X) 0 true)⟩ ?_
    exact .single ⟨(by decide : ucodeStart ≠ 30), .step ⟨0, hldi'⟩⟩
  · have hinside : Gate.mc.Inside boutInMcFile (boundaries boutInMcFile) 30 40 := by
      show 30 ∈ openMc boutInMcFile (before (boundaries boutInMcFile) 40)
      decide +kernel
    have hmem : Target.bit (.word .D 0) 3 ∈ targets boutInMcFile c.plc.sbrNestedNum c.plc.store 40
        true := by
      exact mem_toList.mpr htarget
    have hclean : ((Cell.word .D 0).read (Gate.mc.run Outside.idle.withBout
        (tablesOf boutInMcFile 6) boutInMcFile 0 c).plc.store).getLsbD 3 = false :=
      h.off 40 (by decide +kernel) hinside _ hmem
    rw [hbit] at hclean
    cases hclean

end Kalyke
