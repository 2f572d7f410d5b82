-- SUMMARY: The call levels an instruction uses, and the call level over whole runs.
import Kalyke.Compiler.Accepted
import Kalyke.Exec.LoopStack

/-!
# Call Levels

The local elements, the loop stacks and the return addresses are kept in arrays with one entry for
each call level. An instruction uses its own level and, for the parameters of a subroutine and some
operands, the one above it; a clean-up may go further up. `CALL` checks its own level only, and it
puts the level back only if the subroutine comes back by `SRET`.
-/

namespace Kalyke

open List

variable {out : Outside} {t : CompState} {u : Ucode} {now : BitVec 32} {env : RunEnv} {plc : Plc}
variable {p n l : Nat}

/-! ## Operands -/

def BitArea.levels : BitArea → List Nat
  | lm layer => [layer]
  | elem _ => []

def WordArea.levels : WordArea → List Nat
  | v layer => [layer]
  | elem _ => []

def WordForm.levels : WordForm → List Nat
  | const => []
  | kn area _ => area.levels
  | cells area _ _ => area.levels

def DwordForm.levels : DwordForm → List Nat
  | const | counter _ _ _ => []
  | kn area _ => area.levels
  | cells low high _ _ => low.levels ++ high.levels

/-- The levels an operand at `p` names, by the table of the function that accesses it. -/
def operandLevels {α : Type} (table : AddrType → Option α) (levels : α → List Nat) (u : Ucode)
    (p : Nat) : List Nat :=
  match (AddrType.ofCode (u.getPU8 (p + 1))).bind table with
  | some form => levels form
  | none => []

section

variable (u : Ucode) (p n : Nat)

def getCharLevels : List Nat := operandLevels (getCharTable n) (·.1.levels) u p

def saveCharLevels : List Nat := operandLevels (saveCharTable n) (·.1.levels) u p

def getWordLevels : List Nat := operandLevels (getWordTable n) WordForm.levels u p

def saveWordLevels : List Nat := operandLevels (saveWordTable n) WordForm.levels u p

def getDwordLevels : List Nat := operandLevels (getDwordTable n) DwordForm.levels u p

def saveDwordLevels : List Nat := operandLevels (saveDwordTable n) DwordForm.levels u p

def floatLevels : List Nat := operandLevels (floatTable n) DwordForm.levels u p

end

/-! ## Parameters -/

/-- The parameters in the `limit` bytes from `ptr` on, of which `temp` have been passed, with the
place of each one. -/
def parameters (u : Ucode) (limit : Nat) : Nat → Nat → Nat → List (Nat × ParaType)
  | 0, _, _ => []
  | fuel + 1, ptr, temp =>
    if temp < limit then
      match ParaType.ofCode (u.getPU16 ptr) with
      | some t => (ptr, t) :: parameters u limit fuel (ptr + t.size) ((temp + t.size) % 65536)
      | none => []
    else []

/-- The parameters that `CALL` at `p` loads. -/
def inParameters (u : Ucode) (p : Nat) : List (Nat × ParaType) :=
  parameters u ((u.getPU16 (p + 4) + u.getPU16 (p + 6)) % 65536) (u.length + 1) (p + 10) 0

/-- The parameters that `CALL` at `p` stores. -/
def outParameters (u : Ucode) (p : Nat) : List (Nat × ParaType) :=
  parameters u ((u.getPU16 (p + 6) + u.getPU16 (p + 8)) % 65536) (u.length + 1)
    (p + 10 + u.getPU16 (p + 4)) 0

/-- The levels the operand of a loaded parameter names. -/
def loadLevels (u : Ucode) (n : Nat) : Nat × ParaType → List Nat
  | (ptr, .bool) => getCharLevels u (ptr + 2) n
  | (ptr, .word) | (ptr, .int) => getWordLevels u (ptr + 2) n
  | (ptr, .dword) | (ptr, .dint) => getDwordLevels u (ptr + 2) n
  | (ptr, .real) => floatLevels u (ptr + 2) n

/-- The levels the operand of a stored parameter names. -/
def storeLevels (u : Ucode) (n : Nat) : Nat × ParaType → List Nat
  | (ptr, .bool) => saveCharLevels u (ptr + 2) n
  | (ptr, .word) | (ptr, .int) => saveWordLevels u (ptr + 2) n
  | (ptr, .dword) | (ptr, .dint) => saveDwordLevels u (ptr + 2) n
  | (ptr, .real) => floatLevels u (ptr + 2) n

/-- The levels a `CALL` with power flow uses: its own for the return address, that of the subroutine
for the local elements and the loop stack, and those of the operands. -/
def callLevels (u : Ucode) (p n : Nat) : List Nat :=
  [n, n + 1] ++ (inParameters u p).flatMap (loadLevels u n) ++
    (outParameters u p).flatMap (storeLevels u n)

/-! ## Clean-ups -/

section

variable (out : Outside) (t : CompState) (u : Ucode) (now : BitVec 32)

/-- The levels used by the clean-up of a recorded simple instruction. -/
def cleanSimpleLevels (outputs : Bool) (n p : Nat) : List Nat :=
  match SimpleIns.ofCode (u.getPU8 (p + 1)) with
  | some (.coilLm .out) => if outputs then [n] else []
  | _ => []

/-- The levels used by the clean-up of a recorded complex instruction, where `sub` gives those of a
subroutine. -/
def cleanComplexLevels (sub : Nat → Plc → List Nat) (plc : Plc) (p : Nat) : List Nat :=
  match ComplexIns.ofCode (u.getPU16 p) with
  | some (.data .outLm) => [plc.sbrNestedNum]
  | some (.data .bout) => out.layers (.data .bout) u p plc.sbrNestedNum
  | some .call =>
    match plcGetCallInsId t p with
    | none => []
    | some id =>
      if maxSbrNestedLayer ≤ plc.sbrNestedNum then []
      else if plc.isExec id then
        sub (callSbrNumber u p)
          { plc with isExec := Function.update plc.isExec id false,
                     sbrNestedNum := plc.sbrNestedNum + 1 }
      else []
  | _ => []

/-- The levels used by the loop over the recorded complex instructions. -/
def cleanComplexListLevels (sub : Nat → Plc → Except PlcErr Unit × Plc)
    (subLevels : Nat → Plc → List Nat) : List Nat → Plc → List Nat
  | [], _ => []
  | p :: ps, plc =>
    cleanComplexLevels out t u subLevels plc p ++
      match cleanComplexIns out t u now sub plc p with
      | (.ok (), plc') => cleanComplexListLevels sub subLevels ps plc'
      | (.error _, _) => []

/-- The levels used by the clean-up of both lists of a block. -/
def cleanListsLevels (outputs : Bool) (sub : Nat → Plc → Except PlcErr Unit × Plc)
    (subLevels : Nat → Plc → List Nat) (l : InsList) (plc : Plc) : List Nat :=
  l.simp.flatMap (cleanSimpleLevels u outputs plc.sbrNestedNum) ++
    cleanComplexListLevels out t u now sub subLevels l.comp
      (plc.onStore fun s => l.simp.foldl (cleanSimpleIns u outputs plc.sbrNestedNum) s)

/-- The levels used by the clean-up of a subroutine. -/
def cleanSubLevels : Nat → Nat → Plc → List Nat
  | 0, id, plc =>
    if maxSbrCount < id then []
    else cleanListsLevels out t u now false (fun _ plc => (.error .overSbrStack, plc))
      (fun _ _ => []) (t.sbrList id) plc
  | room + 1, id, plc =>
    if maxSbrCount < id then []
    else cleanListsLevels out t u now false (plcCallInsCleanElement out t u now room)
      (cleanSubLevels room) (t.sbrList id) plc

/-- The levels used when the `CALL` at the program counter loses its power flow. -/
def callCleanLevels (env : RunEnv) (plc : Plc) : List Nat :=
  match plcGetCallInsId t env.pc with
  | none => []
  | some id =>
    if maxSbrNestedLayer ≤ plc.sbrNestedNum ∨ getPowerFlow env.inPF then []
    else if plc.isExec id then
      cleanSubLevels out t u now (maxSbrNestedLayer - plc.sbrNestedNum) (callSbrNumber u env.pc)
        { plc with isExec := Function.update plc.isExec id false }
    else []

/-- The levels used when the `MC` at the program counter loses its power flow. -/
def mcCleanLevels (env : RunEnv) (plc : Plc) : List Nat :=
  let edge := u.getPU16 (env.pc + 6)
  let off := plc.onStore (·.setEdge edge false)
  if getPowerFlow env.inPF = false ∧ plc.store.edgeValue edge then
    match t.mcBlocks.find? fun b => b.pc == env.pc with
    | some b => cleanListsLevels out t u now true (cleanSub out t u now off)
        (cleanSubLevels out t u now (maxSbrNestedLayer - plc.sbrNestedNum - 1)) b.ins off
    | none => []
  else []

/-- The levels used by the clean-up of a step. -/
def stepCleanLevels (step : Nat) (plc : Plc) : List Nat :=
  if sRang < step then []
  else cleanListsLevels out t u now true (cleanSub out t u now plc)
    (cleanSubLevels out t u now (maxSbrNestedLayer - plc.sbrNestedNum - 1)) (t.stlList step) plc

/-- The levels used when the `STL` at the program counter is run first or no longer. -/
def stlCleanLevels (env : RunEnv) (plc : Plc) : List Nat :=
  let (series, sfc) := plcStlBusMeetAnalyse u env.pc
    { plc.sfc with seriesStlCnt := 0, sfcEnable := true }
  let plc := { plc with sfc := sfc }
  let step := u.getPU16 (env.pc + 4) % 256
  let edge := u.getPU16 (env.pc + 6)
  if series then []
  else if plc.store.bit .S step then
    if plc.store.edgeInit edge then
      stepCleanLevels out t u now step (plc.onStore (·.rstEdgeInit edge))
    else []
  else if plc.store.edgeValue edge then
    stepCleanLevels out t u now step (plc.onStore (·.setEdge edge false))
  else []

/-- The levels used by the clean-up that the instruction at the program counter makes. -/
def cleanLevels (env : RunEnv) (plc : Plc) : List Nat :=
  match ComplexIns.ofCode (u.getPU16 env.pc) with
  | some .call => callCleanLevels out t u now env plc
  | some .mc => mcCleanLevels out t u now env plc
  | some .stl => stlCleanLevels out t u now env plc
  | _ => []

end

/-! ## Instructions -/

/-- The levels a simple instruction uses. -/
def SimpleIns.levels (u : Ucode) (p n : Nat) : SimpleIns → List Nat
  | contactLm _ | coilLm .set | coilLm .rst => [n]
  | pulse _ => (simpleInsArea u p n).elim [] BitArea.levels
  | _ => []

/-- The levels a data instruction uses. -/
def DataIns.levels (out : Outside) (u : Ucode) (p n : Nat) (d : DataIns) : List Nat :=
  if d.execLength = none ∨ d.unsupported then []
  else match d with
    | .setS | .outS | .rstS | .wdt => []
    | _ => out.layers (.data d) u p n

/-- The levels a complex instruction uses, apart from clean-ups. -/
def ComplexIns.levels (out : Outside) (t : CompState) (u : Ucode) (env : RunEnv) (plc : Plc) :
    ComplexIns → List Nat
  | for_ => plc.sbrNestedNum :: getWordLevels u (env.pc + 2) plc.sbrNestedNum
  | next => [plc.sbrNestedNum]
  | cj => if getPowerFlow env.inPF then [plc.sbrNestedNum] else []
  | call =>
    match plcGetCallInsId t env.pc with
    | none => []
    | some _ =>
      if maxSbrNestedLayer ≤ plc.sbrNestedNum then []
      else if getPowerFlow env.inPF ∧ IsSbrEntry t u (callSbrNumber u env.pc) then
        callLevels u env.pc plc.sbrNestedNum
      else []
  | compare w k _ =>
    if k.evaluates env.inPF then
      match w with
      | .word => getWordLevels u (env.pc + 2) plc.sbrNestedNum ++
          getWordLevels u (env.pc + 6) plc.sbrNestedNum
      | .dword => getDwordLevels u (env.pc + 2) plc.sbrNestedNum ++
          getDwordLevels u (env.pc + 8) plc.sbrNestedNum
      | .real => floatLevels u (env.pc + 2) plc.sbrNestedNum ++
          floatLevels u (env.pc + 8) plc.sbrNestedNum
    else []
  | data d => d.levels out u env.pc plc.sbrNestedNum
  | stradd => out.layers .stradd u env.pc plc.sbrNestedNum
  | strinstr => out.layers .strinstr u env.pc plc.sbrNestedNum
  | strmov => out.layers .strmov u env.pc plc.sbrNestedNum
  | _ => []

/-- The levels the instruction at the program counter uses, apart from clean-ups. -/
def ownLevels (out : Outside) (t : CompState) (u : Ucode) (env : RunEnv) (plc : Plc) : List Nat :=
  if RunsSimple u env.pc then
    (SimpleIns.ofCode (u.getPU8 (env.pc + 1))).elim [] (·.levels u env.pc plc.sbrNestedNum)
  else (ComplexIns.ofCode (u.getPU16 env.pc)).elim [] (·.levels out t u env plc)

/-- All levels the instruction at the program counter uses. -/
def usedLevels (out : Outside) (t : CompState) (u : Ucode) (now : BitVec 32) (env : RunEnv)
    (plc : Plc) : List Nat :=
  ownLevels out t u env plc ++ cleanLevels out t u now env plc

/-! ## Bounds -/

theorem operandLevels_le {α : Type} {table : AddrType → Option α} {levels : α → List Nat}
    (h : ∀ a form, table a = some form → ∀ l ∈ levels form, l ≤ n + 1) :
    ∀ l ∈ operandLevels table levels u p, l ≤ n + 1 := by
  unfold operandLevels
  split
  · rename_i form hform
    obtain ⟨a, -, ha⟩ := Option.bind_eq_some_iff.mp hform
    exact h a form ha
  · simp

theorem getCharLevels_le : ∀ l ∈ getCharLevels u p n, l ≤ n + 1 := by
  refine operandLevels_le fun a form ha => ?_
  cases a <;> cases ha <;> simp [BitArea.levels]

theorem saveCharLevels_le : ∀ l ∈ saveCharLevels u p n, l ≤ n + 1 := by
  refine operandLevels_le fun a form ha => ?_
  cases a <;> cases ha <;> simp [BitArea.levels]

theorem getWordLevels_le : ∀ l ∈ getWordLevels u p n, l ≤ n + 1 := by
  refine operandLevels_le fun a form ha => ?_
  cases a <;> cases ha <;> simp [WordForm.of, WordForm.levels, BitArea.levels, WordArea.levels]

theorem saveWordLevels_le : ∀ l ∈ saveWordLevels u p n, l ≤ n + 1 := by
  refine operandLevels_le fun a form ha => ?_
  cases a <;> cases ha <;> simp [WordForm.of, WordForm.levels, BitArea.levels, WordArea.levels]

theorem getDwordLevels_le : ∀ l ∈ getDwordLevels u p n, l ≤ n + 1 := by
  refine operandLevels_le fun a form ha => ?_
  cases a <;> cases ha <;> simp [DwordForm.of, DwordForm.levels, BitArea.levels, WordArea.levels]

theorem saveDwordLevels_le : ∀ l ∈ saveDwordLevels u p n, l ≤ n + 1 := by
  refine operandLevels_le fun a form ha => ?_
  cases a <;> cases ha <;> simp [DwordForm.of, DwordForm.levels, BitArea.levels, WordArea.levels]

theorem floatLevels_le : ∀ l ∈ floatLevels u p n, l ≤ n + 1 := by
  refine operandLevels_le fun a form ha => ?_
  cases a <;> cases ha <;> simp [DwordForm.of, DwordForm.levels, WordArea.levels]

theorem loadLevels_le (x : Nat × ParaType) : ∀ l ∈ loadLevels u n x, l ≤ n + 1 := by
  obtain ⟨ptr, type⟩ := x
  cases type with
  | bool => exact getCharLevels_le
  | word | int => exact getWordLevels_le
  | dword | dint => exact getDwordLevels_le
  | real => exact floatLevels_le

theorem storeLevels_le (x : Nat × ParaType) : ∀ l ∈ storeLevels u n x, l ≤ n + 1 := by
  obtain ⟨ptr, type⟩ := x
  cases type with
  | bool => exact saveCharLevels_le
  | word | int => exact saveWordLevels_le
  | dword | dint => exact saveDwordLevels_le
  | real => exact floatLevels_le

theorem callLevels_le : ∀ l ∈ callLevels u p n, l ≤ n + 1 := by
  intro l hl
  simp only [callLevels, mem_append, mem_cons, not_mem_nil, or_false,
    mem_flatMap] at hl
  rcases hl with ((rfl | rfl) | ⟨x, -, hx⟩) | ⟨x, -, hx⟩
  · exact Nat.le_succ _
  · exact Nat.le_refl _
  · exact loadLevels_le x l hx
  · exact storeLevels_le x l hx

theorem simpleInsArea_le {area : BitArea} (h : simpleInsArea u p n = some area) :
    ∀ l ∈ area.levels, l ≤ n + 1 := by
  unfold simpleInsArea at h
  split at h <;> cases h <;> simp [BitArea.levels]

theorem SimpleIns.levels_le (i : SimpleIns) : ∀ l ∈ i.levels u p n, l ≤ n + 1 := by
  cases i with
  | pulse k =>
    rw [levels]
    cases h : simpleInsArea u p n with
    | none => simp
    | some area => exact simpleInsArea_le h
  | coilLm k => cases k <;> simp [levels]
  | _ => simp [levels]

theorem DataIns.levels_le (d : DataIns) : ∀ l ∈ d.levels out u p n, l ≤ n + 1 := by
  unfold levels
  split
  · simp
  · split <;> first | exact out.layers_le _ _ _ _ | simp

theorem ComplexIns.levels_le (i : ComplexIns) :
    ∀ l ∈ i.levels out t u env plc, l ≤ plc.sbrNestedNum + 1 := by
  have happend {xs ys : List Nat} (hx : ∀ l ∈ xs, l ≤ plc.sbrNestedNum + 1)
      (hy : ∀ l ∈ ys, l ≤ plc.sbrNestedNum + 1) : ∀ l ∈ xs ++ ys, l ≤ plc.sbrNestedNum + 1 :=
    fun l hl => (mem_append.mp hl).elim (hx l) (hy l)
  cases i with
  | for_ =>
    intro l hl
    rcases mem_cons.mp hl with rfl | hl
    · exact Nat.le_succ _
    · exact getWordLevels_le l hl
  | next => simp [levels]
  | cj => simp only [levels]; split <;> simp
  | call =>
    simp only [levels]
    split
    · simp
    · split
      · simp
      · split
        · exact callLevels_le
        · simp
  | compare w k x =>
    simp only [levels]
    split
    · cases w with
      | word => exact happend getWordLevels_le getWordLevels_le
      | dword => exact happend getDwordLevels_le getDwordLevels_le
      | real => exact happend floatLevels_le floatLevels_le
    · simp
  | data d => exact d.levels_le
  | stradd | strinstr | strmov => exact out.layers_le _ _ _ _
  | _ => simp [levels]

/-- Apart from clean-ups an instruction uses no level above the next. -/
theorem ownLevels_le : ∀ l ∈ ownLevels out t u env plc, l ≤ plc.sbrNestedNum + 1 := by
  unfold ownLevels
  split
  · cases SimpleIns.ofCode (u.getPU8 (env.pc + 1)) with
    | none => simp
    | some i => exact i.levels_le
  · cases ComplexIns.ofCode (u.getPU16 env.pc) with
    | none => simp
    | some i => exact i.levels_le

/-! ## Runs -/

/-- A step at a tick count that `K` allows. -/
def AllowedStep (out : Outside) (t : CompState) (u : Ucode) (K : BitVec 32 → Config → Prop)
    (a b : Config) : Prop := ∃ now, K now a ∧ step out t u now a = .inl b

/-- A step or the start of the next scan, at a tick count that `K` allows. -/
inductive AllowedRunStep (out : Outside) (t : CompState) (u : Ucode)
    (K : BitVec 32 → Config → Prop) : Config → Config → Prop where
  | step {a b : Config} (h : AllowedStep out t u K a b) : AllowedRunStep out t u K a b
  | scan {a : Config} (now : BitVec 32) (f : Finish) (hK : K now a)
      (h : step out t u now a = .inr f) (s : Store) :
      AllowedRunStep out t u K a (scanStart { f.plc with store := s })

/-- The run from `c` comes to `b` with the subroutine that the `CALL` at `c` entered still under
way. -/
def Under (out : Outside) (t : CompState) (u : Ucode) (K : BitVec 32 → Config → Prop)
    (c b : Config) : Prop :=
  ∃ f a, AllowedStep out t u K c a ∧ a.frames = f :: c.frames ∧
    Relation.ReflTransGen (fun x y => AllowedStep out t u K x y ∧ (f :: c.frames) <:+ y.frames) a b

/-- `run_ci_call_ins`, executed at `c`, returns and leaves the state `plc'`: without entering the
subroutine, when the subroutine has come back, or because all activations are left. -/
inductive CallReturns (out : Outside) (t : CompState) (u : Ucode) (K : BitVec 32 → Config → Prop)
    (c : Config) : Plc → Prop where
  | done (now : BitVec 32) (r : InsResult) (hK : K now c)
      (h : runCiCallIns out t u now c.env c.plc = .done r) : CallReturns out t u K c r.plc
  | back (b c' : Config) (hunder : Under out t u K c b) (h : AllowedStep out t u K b c')
      (hframes : c'.frames = c.frames) : CallReturns out t u K c c'.plc
  | left (b : Config) (now : BitVec 32) (f : Finish) (hunder : Under out t u K c b) (hK : K now b)
      (h : step out t u now b = .inr f) : CallReturns out t u K c f.plc

/-- In the runs that `K` allows, the `CALL` at `c` puts the call level back on every return, and the
instruction at `c` uses only levels inside the arrays. -/
structure CallSafe (out : Outside) (t : CompState) (u : Ucode) (K : BitVec 32 → Config → Prop)
    (c : Config) : Prop where
  returns : ∀ plc', CallReturns out t u K c plc' → plc'.sbrNestedNum = c.plc.sbrNestedNum
  used : ∀ now, K now c → ∀ l ∈ usedLevels out t u now c.env c.plc, l < maxSbrNestedLayer

/-- The conditions on a step under which the levels are kept: at the last level the instruction does
not use the level above it, clean-ups stay inside the arrays, and the scan does not end in a
subroutine. -/
structure KeepsLevel (out : Outside) (t : CompState) (u : Ucode) (now : BitVec 32) (c : Config) :
    Prop where
  own : c.plc.sbrNestedNum + 1 = maxSbrNestedLayer →
    c.plc.sbrNestedNum + 1 ∉ ownLevels out t u c.env c.plc
  clean : ∀ l ∈ cleanLevels out t u now c.env c.plc, l < maxSbrNestedLayer
  ends : ∀ f, step out t u now c = .inr f → c.frames = [] ∨
    (∃ g, c.frames = [g]) ∧ ∃ r, execIns out t u now c.env c.plc = .done r ∧ r.ret = .sret

theorem Under.above {K : BitVec 32 → Config → Prop} {b c : Config} (h : Under out t u K c b) :
    Above c b ∧ ∃ f, (f :: c.frames) <:+ b.frames := by
  obtain ⟨f, a, ⟨now, -, henter⟩, hf, hrun⟩ := h
  induction hrun with
  | refl => exact ⟨above_of_enter henter hf, f, hf ▸ suffix_rfl⟩
  | tail _ hlast ih =>
    obtain ⟨⟨now, -, hstep⟩, hsuffix⟩ := hlast
    obtain ⟨hlevel, hloops⟩ := ih.1.step hstep
    exact ⟨⟨hsuffix.length_le, hlevel, hloops⟩, f, hsuffix⟩

theorem afterIns_inr_level {p : Nat} {simple : Bool} {r : InsResult} {f : Finish}
    (h : afterIns u now (leaveProgram u now []) [] p simple r = .inr f) :
    f.plc.sbrNestedNum = r.plc.sbrNestedNum := by
  unfold afterIns at h
  split at h
  · cases h
    rfl
  split at h
  · cases h
  dsimp only at h
  split at h <;> cases h
  rfl

/-- An activation left by `SRET` with a single `CALL` waiting puts the level back, even if the scan
ends with that. -/
theorem level_of_last_sret {c : Config} {g : Frame} {r : InsResult} {f : Finish}
    (h : step out t u now c = .inr f) (hg : c.frames = [g])
    (hexec : execIns out t u now c.env c.plc = .done r) (hret : r.ret = .sret) :
    f.plc.sbrNestedNum = c.plc.sbrNestedNum - 1 := by
  rw [step, hexec, hg] at h
  simp only [afterIns, hret] at h
  rw [← (execIns_change hexec).sbrNestedNum]
  exact afterIns_inr_level h

theorem CallReturns.level {c : Config} {plc' : Plc}
    (h : CallReturns out t u (KeepsLevel out t u) c plc') :
    plc'.sbrNestedNum = c.plc.sbrNestedNum := by
  cases h with
  | done now r hK h => exact (runCiCallIns_done h).sbrNestedNum
  | back b c' hunder h hframes =>
    obtain ⟨habove, -⟩ := hunder.above
    obtain ⟨now, -, hstep⟩ := h
    obtain ⟨hlevel, -⟩ := habove.step hstep
    rw [hframes] at hlevel
    omega
  | left b now f hunder hK h =>
    obtain ⟨habove, g, hsuffix⟩ := hunder.above
    have hlength := hsuffix.length_le
    rcases hK.ends f h with hnil | ⟨⟨g', hg'⟩, r, hexec, hret⟩
    · simp [hnil] at hlength
    · have hlevel := habove.level
      simp only [hg', length_cons, length_nil] at hlength hlevel
      rw [level_of_last_sret h hg' hexec hret]
      omega

/-- A `CALL` that enters its subroutine uses the level above. -/
theorem succ_mem_ownLevels_of_call {entry : Nat} {cnt : ParaCnt} {plc' : Plc}
    (h : execIns out t u now env plc = .call entry cnt plc') :
    plc.sbrNestedNum + 1 ∈ ownLevels out t u env plc := by
  obtain ⟨hcode, hcall⟩ := execIns_call h
  have hsimple : ¬ RunsSimple u env.pc := by
    intro hruns
    rw [execIns, if_pos hruns] at h
    cases h
  rw [ownLevels, if_neg hsimple, hcode]
  unfold runCiCallIns at hcall
  simp only [Option.elim_some, ComplexIns.levels]
  cases hid : plcGetCallInsId t env.pc with
  | none =>
    rw [hid] at hcall
    cases hcall
  | some id =>
    simp only [hid] at hcall ⊢
    split at hcall
    · cases hcall
    · rename_i hlevel
      split at hcall
      · rename_i hpower
        unfold callWithPower at hcall
        dsimp only at hcall
        split at hcall
        · rename_i hentry
          simp [hlevel, hpower, hentry, callLevels]
        · cases hcall
      · cases hcall

/-- The levels stay below the last one with room above it. -/
theorem level_lt_of_allowedRunStep {a b : Config} (h : a.plc.sbrNestedNum < maxSbrNestedLayer)
    (hstep : AllowedRunStep out t u (KeepsLevel out t u) a b) :
    b.plc.sbrNestedNum < maxSbrNestedLayer := by
  cases hstep with
  | scan => exact (by decide : 0 < maxSbrNestedLayer)
  | step hstep =>
    obtain ⟨now, hK, hstep⟩ := hstep
    cases step_cases hstep with
    | ins r s hexec hret hstore hnext =>
      rw [hnext]
      exact (execIns_change hexec).sbrNestedNum ▸ h
    | call entry cnt plc hexec hnext =>
      obtain ⟨-, hup, -, -⟩ := runCiCallIns_call (execIns_call hexec).2
      have hmem := succ_mem_ownLevels_of_call hexec
      have hlast : a.plc.sbrNestedNum + 1 ≠ maxSbrNestedLayer := fun hlast => hK.own hlast hmem
      rw [hnext]
      show plc.sbrNestedNum < _
      omega
    | ret f fs r s hexec hret hframes hnext =>
      have hsame := (execIns_change hexec).sbrNestedNum
      rw [hnext]
      show r.plc.sbrNestedNum - 1 < _
      omega

/-- `LDI X0; CALL SBR0; FEND; SBR 0`, followed by the last instruction of the subroutine. -/
def sbrFile (last : List UInt8) : Ucode :=
  [0, 0, 0, 0, 0, 0, 52, 0, 0, 0] ++ replicate 18 0 ++ [0x00, 0x20] ++
    [0x21, 0xF0, 0x00, 0x01, 0x00, 0x00, 0x00, 0x00, 0x00, 0x00] ++ [0x2B, 0xF0] ++
    [0x01, 0xF0, 0x00, 0x01] ++ last ++ replicate 4 0

/-- The subroutine that ends with `SRET`. -/
def sretFile : Ucode := sbrFile [0x23, 0xF0]

/-- The subroutine that ends with `FEND`. -/
def fendInSbrFile : Ucode := sbrFile [0x2B, 0xF0]

end Kalyke
