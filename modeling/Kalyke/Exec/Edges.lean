-- SUMMARY: Edge contacts over the scans: which pulses they give, and in which scans they look at their operand.
import Kalyke.Compiler.Accepted
import Kalyke.Exec.Ladder
import Kalyke.Exec.Steps

/-!
# Edges

An edge instruction compares its operand with what it has seen of it before, kept in an edge memory
of its own. `EU`, `ED` and the loading contacts look at their operand in every scan. The serial and
the parallel ones do so only in the scans in which the power flow before them leaves the question
open, and what happens to the operand in the other scans is not seen.
-/

namespace Kalyke

/-! ## Edge instructions -/

/-- How an edge instruction joins its pulse to the power flow before it. `flow` is the place of `EU`
and `ED`, whose operand is that power flow itself. -/
inductive EdgeConn where
  | flow | ld | and | or
deriving DecidableEq, Repr

/-- The power flow behind an edge instruction, from that before it and its pulse. -/
def EdgeConn.combine (pf pulse : Bool) : EdgeConn → Bool
  | flow | ld => pulse
  | and => pf && pulse
  | or => pf || pulse

/-- The operand is looked at with this power flow. -/
def EdgeConn.looks (pf : Bool) : EdgeConn → Bool
  | flow | ld => true
  | and => pf
  | or => !pf

/-- The edge instructions without the coils, for rising and for falling edges. -/
structure EdgeIns where
  conn : EdgeConn
  rising : Bool
deriving DecidableEq, Repr

namespace EdgeIns

def toIns : EdgeIns → SimpleIns
  | ⟨.flow, true⟩ => .eu
  | ⟨.flow, false⟩ => .ed
  | ⟨.ld, true⟩ => .pulse .ldp
  | ⟨.ld, false⟩ => .pulse .ldf
  | ⟨.and, true⟩ => .pulse .andp
  | ⟨.and, false⟩ => .pulse .andf
  | ⟨.or, true⟩ => .pulse .orp
  | ⟨.or, false⟩ => .pulse .orf

/-- The number of the edge memory that the instruction at `p` uses. -/
def number (e : EdgeIns) (u : Ucode) (p : Nat) : Nat :=
  match e.conn with
  | .flow => u.getPU16 (p + 2)
  | _ => u.getPU16 (p + 4)

/-- The value of the operand in a state before the instruction. -/
def operand (e : EdgeIns) (out : Outside) (u : Ucode) (c : Config) : Bool :=
  match e.conn with
  | .flow => getPowerFlow c.env.inPF
  | _ => (getCharInSimpleIns u c.env.pc c.plc.store c.plc.sbrNestedNum).getD out.stale

/-- There is an edge from the value seen before, if any, to the present one. -/
def fires (e : EdgeIns) (before : Option Bool) (now : Bool) : Bool :=
  before == some !e.rising && now == e.rising

end EdgeIns

/-- What an edge memory says about the operand: nothing after initialisation. -/
def edgeMemory (n : Nat) (s : Store) : Option Bool :=
  if s.edgeInit n then none else some (s.edgeValue n)

/-! ## One execution -/

section

variable {out : Outside} {t : CompState} {u : Ucode} {p n : Nat} {pf : BitVec 32} {s : Store}

theorem getPowerFlow_put {b : Bool} : getPowerFlow (putPowerFlow pf b) = b :=
  getLsbD_putPowerFlow_low

theorem getPowerFlow_rst : getPowerFlow (rstPowerFlow pf) = false :=
  getLsbD_putPowerFlow_low (b := false)

theorem edgeMemory_set {b : Bool} (h : s.edgeInit n = false) :
    edgeMemory n (s.setEdge n b) = some b := by
  simp [edgeMemory, Store.setEdge, h]

theorem edgeMemory_first {b : Bool} : edgeMemory n ((s.rstEdgeInit n).setEdge n b) = some b := by
  simp [edgeMemory, Store.setEdge, Store.rstEdgeInit]

theorem runEuPIns_spec (b : Bool) :
    getPowerFlow (runEuPIns n b pf s).1 = EdgeIns.fires ⟨.ld, true⟩ (edgeMemory n s) b ∧
      edgeMemory n (runEuPIns n b pf s).2 = some b := by
  unfold runEuPIns
  split
  · rename_i hinit
    refine ⟨?_, edgeMemory_first⟩
    rw [getPowerFlow_rst]
    simp [EdgeIns.fires, edgeMemory, hinit]
  · rename_i hinit
    refine ⟨?_, edgeMemory_set (by simpa using hinit)⟩
    rw [getPowerFlow_put]
    cases hvalue : s.edgeValue n <;> simp [EdgeIns.fires, edgeMemory, hinit, hvalue]

theorem runEdFIns_spec (b : Bool) :
    getPowerFlow (runEdFIns n b pf s).1 = EdgeIns.fires ⟨.ld, false⟩ (edgeMemory n s) b ∧
      edgeMemory n (runEdFIns n b pf s).2 = some b := by
  unfold runEdFIns
  split
  · rename_i hinit
    refine ⟨?_, edgeMemory_first⟩
    rw [getPowerFlow_rst]
    simp [EdgeIns.fires, edgeMemory, hinit]
  · rename_i hinit
    refine ⟨?_, edgeMemory_set (by simpa using hinit)⟩
    rw [getPowerFlow_put]
    cases hvalue : s.edgeValue n <;> simp [EdgeIns.fires, edgeMemory, hinit, hvalue]

/-- `EU` is the loading form with the power flow as its operand. -/
theorem runEuIns_spec :
    getPowerFlow (runEuIns n pf s).1 =
        EdgeIns.fires ⟨.ld, true⟩ (edgeMemory n s) (getPowerFlow pf) ∧
      edgeMemory n (runEuIns n pf s).2 = some (getPowerFlow pf) := by
  have hsame : runEuIns n pf s = runEuPIns n (getPowerFlow pf) pf s := by
    unfold runEuIns runEuPIns
    cases getPowerFlow pf <;> simp [putPowerFlow]
  rw [hsame]
  exact runEuPIns_spec _

theorem runEdIns_spec :
    getPowerFlow (runEdIns n pf s).1 =
        EdgeIns.fires ⟨.ld, false⟩ (edgeMemory n s) (getPowerFlow pf) ∧
      edgeMemory n (runEdIns n pf s).2 = some (getPowerFlow pf) := by
  have hsame : runEdIns n pf s = runEdFIns n (getPowerFlow pf) pf s := by
    unfold runEdIns runEdFIns
    cases getPowerFlow pf <;> simp [putPowerFlow]
  rw [hsame]
  exact runEdFIns_spec _

/-- What a serial form does, from what its loading form does. -/
theorem ite_series {e : EdgeIns} {b : Bool} {x : BitVec 32 × Store} (he : e.conn = .and)
    (h : getPowerFlow x.1 = e.fires (edgeMemory n s) b ∧ edgeMemory n x.2 = some b) :
    getPowerFlow (if getPowerFlow pf then x else (pf, s)).1 =
        e.conn.combine (getPowerFlow pf) (e.fires (edgeMemory n s) b) ∧
      edgeMemory n (if getPowerFlow pf then x else (pf, s)).2 =
        if e.conn.looks (getPowerFlow pf) then some b else edgeMemory n s := by
  rw [he]
  cases hpf : getPowerFlow pf
  · exact ⟨hpf, rfl⟩
  · exact ⟨h.1, h.2⟩

theorem ite_parallel {e : EdgeIns} {b : Bool} {x : BitVec 32 × Store} (he : e.conn = .or)
    (h : getPowerFlow x.1 = e.fires (edgeMemory n s) b ∧ edgeMemory n x.2 = some b) :
    getPowerFlow (if getPowerFlow pf then (pf, s) else x).1 =
        e.conn.combine (getPowerFlow pf) (e.fires (edgeMemory n s) b) ∧
      edgeMemory n (if getPowerFlow pf then (pf, s) else x).2 =
        if e.conn.looks (getPowerFlow pf) then some b else edgeMemory n s := by
  rw [he]
  cases hpf : getPowerFlow pf
  · exact ⟨h.1, h.2⟩
  · exact ⟨hpf, rfl⟩

/-- What the instruction does to the power flow and to its memory. -/
theorem EdgeIns.run_spec (e : EdgeIns) (c : Config) :
    getPowerFlow (e.toIns.run u c.env.pc out.stale c.plc.sbrNestedNum c.env.inPF c.env.outPF
        c.plc.store).1 =
      e.conn.combine (getPowerFlow c.env.inPF)
        (e.fires (edgeMemory (e.number u c.env.pc) c.plc.store) (e.operand out u c)) ∧
    edgeMemory (e.number u c.env.pc) (e.toIns.run u c.env.pc out.stale c.plc.sbrNestedNum
        c.env.inPF c.env.outPF c.plc.store).2.2 =
      if e.conn.looks (getPowerFlow c.env.inPF) then some (e.operand out u c)
      else edgeMemory (e.number u c.env.pc) c.plc.store := by
  obtain ⟨conn, rising⟩ := e
  cases conn with
  | flow =>
    cases rising
    · exact runEdIns_spec
    · exact runEuIns_spec
  | ld =>
    cases rising
    · exact runEdFIns_spec _
    · exact runEuPIns_spec _
  | and =>
    cases rising
    · exact ite_series rfl (runEdFIns_spec _)
    · exact ite_series rfl (runEuPIns_spec _)
  | or =>
    cases rising
    · exact ite_parallel rfl (runEdFIns_spec _)
    · exact ite_parallel rfl (runEuPIns_spec _)

/-- What a step over the instruction does to the power flow and to its memory. -/
theorem EdgeIns.step_spec {e : EdgeIns} {c c' : Config}
    (hcode : u.getPU8 (c.env.pc + 1) = e.toIns.code) (h : Step out t u c c') :
    getPowerFlow c'.env.inPF = e.conn.combine (getPowerFlow c.env.inPF)
        (e.fires (edgeMemory (e.number u c.env.pc) c.plc.store) (e.operand out u c)) ∧
    edgeMemory (e.number u c.env.pc) c'.plc.store =
      if e.conn.looks (getPowerFlow c.env.inPF) then some (e.operand out u c)
      else edgeMemory (e.number u c.env.pc) c.plc.store := by
  obtain ⟨now, h⟩ := h
  obtain ⟨m, hlen⟩ : ∃ m, e.toIns.execLength = some m := by
    obtain ⟨conn, rising⟩ := e
    cases conn <;> cases rising <;> exact ⟨_, rfl⟩
  obtain ⟨x, hx⟩ : ∃ x, e.toIns.run u c.env.pc out.stale c.plc.sbrNestedNum c.env.inPF c.env.outPF
      c.plc.store = x := ⟨_, rfl⟩
  have hexec : execIns out t u now c.env c.plc =
      .done ⟨.pass, .next m, x.1, x.2.1, { c.plc with store := x.2.2 }⟩ := by
    rw [execIns, if_pos (runsSimple_of_code hcode)]
    simp [execSimpleIns, hcode, SimpleIns.ofCode_code, hlen, hx]
  obtain ⟨henv, -, hstore⟩ := step_pass h hexec rfl
  have hrun : getPowerFlow (e.toIns.run u c.env.pc out.stale c.plc.sbrNestedNum c.env.inPF
      c.env.outPF c.plc.store).1 = _ ∧ _ := e.run_spec c
  rw [hx] at hrun
  have hmemory : edgeMemory (e.number u c.env.pc) c'.plc.store =
      edgeMemory (e.number u c.env.pc) x.2.2 := by
    rw [edgeMemory, hstore.edgeInit, hstore.edgeValue, edgeMemory]
  rw [henv, hmemory]
  exact hrun

end

/-! ## Scans -/

/-- `N` scans of a run, in each of which the instruction at `p` is executed once, from `c k` to
`c' k`. The edge memory is initialised before the first, and nothing else uses its number. -/
structure EdgeScans (out : Outside) (t : CompState) (u : Ucode) (e : EdgeIns) (p N : Nat)
    (c c' : Nat → Config) : Prop where
  code : u.getPU8 (p + 1) = e.toIns.code
  place : ∀ k < N, (c k).env.pc = p
  step : ∀ k < N, Step out t u (c k) (c' k)
  between : ∀ k, k + 1 < N → Relation.ReflTransGen (RunStep out t u) (c' k) (c (k + 1))
  init : (c 0).plc.store.edgeInit (e.number u p) = true
  keptInit : ∀ k, k + 1 < N → (c (k + 1)).plc.store.edgeInit (e.number u p) =
    (c' k).plc.store.edgeInit (e.number u p)
  keptValue : ∀ k, k + 1 < N → (c (k + 1)).plc.store.edgeValue (e.number u p) =
    (c' k).plc.store.edgeValue (e.number u p)

/-- The value in the scan before scan `k`, none for the first. -/
def previous (x : Nat → Bool) : Nat → Option Bool
  | 0 => none
  | k + 1 => some (x k)

/-- The value in the last scan before scan `k` in which it was looked at, if any. -/
def lastSeen (looks x : Nat → Bool) : Nat → Option Bool
  | 0 => none
  | k + 1 => if looks k then some (x k) else lastSeen looks x k

/-- In every scan the instruction contributes a pulse just if there is an edge of its operand from
the scan before. -/
def PulsesExact (out : Outside) (u : Ucode) (e : EdgeIns) (N : Nat) (c c' : Nat → Config) : Prop :=
  ∀ k < N, getPowerFlow (c' k).env.inPF = e.conn.combine (getPowerFlow (c k).env.inPF)
    (e.fires (previous (fun k => e.operand out u (c k)) k) (e.operand out u (c k)))

/-- In scan `k` the instruction looks at its operand. -/
def EdgeIns.looksIn (e : EdgeIns) (c : Nat → Config) (k : Nat) : Bool :=
  e.conn.looks (getPowerFlow (c k).env.inPF)

section

variable {out : Outside} {t : CompState} {u : Ucode} {e : EdgeIns} {p N : Nat} {c c' : Nat → Config}

theorem EdgeScans.memory (h : EdgeScans out t u e p N c c') {k : Nat} (hk : k < N) :
    edgeMemory (e.number u p) (c k).plc.store =
      lastSeen (e.looksIn c) (fun k => e.operand out u (c k)) k := by
  induction k with
  | zero =>
    rw [edgeMemory, if_pos h.init]
    rfl
  | succ k ih =>
    have hk' : k < N := Nat.lt_of_succ_lt hk
    have hplace := h.place k hk'
    have hstep := (EdgeIns.step_spec (by rw [hplace]; exact h.code) (h.step k hk')).2
    rw [hplace, ih hk'] at hstep
    rw [edgeMemory, h.keptInit k hk, h.keptValue k hk]
    exact hstep

/-- The pulses that the instruction contributes. -/
theorem EdgeScans.pulse (h : EdgeScans out t u e p N c c') {k : Nat} (hk : k < N) :
    getPowerFlow (c' k).env.inPF = e.conn.combine (getPowerFlow (c k).env.inPF)
      (e.fires (lastSeen (e.looksIn c) (fun k => e.operand out u (c k)) k)
        (e.operand out u (c k))) := by
  have hplace := h.place k hk
  have hstep := (EdgeIns.step_spec (by rw [hplace]; exact h.code) (h.step k hk)).1
  rwa [hplace, h.memory hk] at hstep

/-- A pulse matters just if the operand is looked at. -/
theorem EdgeConn.combine_eq_iff (conn : EdgeConn) {pf a b : Bool} :
    conn.combine pf a = conn.combine pf b ↔ (conn.looks pf = true → a = b) := by
  cases conn <;> cases pf <;> simp [EdgeConn.combine, EdgeConn.looks]

theorem EdgeIns.fires_eq_iff (e : EdgeIns) {before before' : Option Bool} {now : Bool} :
    e.fires before now = e.fires before' now ↔
      (now = e.rising → (before = some (!e.rising) ↔ before' = some (!e.rising))) := by
  unfold EdgeIns.fires
  by_cases hnow : now = e.rising
  · simp only [hnow, beq_self_eq_true, Bool.and_true, forall_const]
    rw [Bool.eq_iff_iff, beq_iff_eq, beq_iff_eq]
  · have hno : (now == e.rising) = false := beq_false_of_ne hnow
    rw [hno]
    simp [hnow]

/-- An edge instruction gives the pulses it is to give just if, in each scan in which it looks at
its operand and this has the value after the edge, it had the opposite value when last looked at if
and only if it had so in the scan before. -/
theorem pulsesExact_iff (h : EdgeScans out t u e p N c c') :
    PulsesExact out u e N c c' ↔
      ∀ k < N, e.looksIn c k = true → e.operand out u (c k) = e.rising →
        (lastSeen (e.looksIn c) (fun k => e.operand out u (c k)) k = some (!e.rising) ↔
          previous (fun k => e.operand out u (c k)) k = some (!e.rising)) := by
  refine forall_congr' fun k => forall_congr' fun hk => ?_
  rw [h.pulse hk, EdgeConn.combine_eq_iff, EdgeIns.fires_eq_iff]
  rfl

end

/-- `LD X1`, `ANDP X0` with edge number 0, `OUT Y0` and `FEND`. -/
def andpFile : Ucode :=
  [0, 0, 0, 0, 0, 0, 44, 0, 0, 0] ++ List.replicate 18 0 ++
    [0x01, 0x10] ++ [0x00, 0xB2, 0x00, 0x00, 0x00, 0x00] ++ [0x00, 0x71] ++ [0x2B, 0xF0] ++
    List.replicate 4 0

def setInputs (x1 x0 : Bool) (s : Store) : Store :=
  { s with bit := Function.update s.bit .X fun i => if i = 0 then x0 else x1 }

/-- The state before the first scan of `andpFile`, with initialised edge memories. -/
def beforeScans : Plc :=
  { Plc.off with store := setInputs true false { Store.off with edgeInit := fun _ => true } }

theorem andpFile_scans : ∃ c c',
    EdgeScans .idle (tablesOf andpFile 6) andpFile ⟨.and, true⟩ 30 3 c c' ∧
    EdgeIns.operand ⟨.and, true⟩ .idle andpFile (c 1) = true ∧
    getPowerFlow (c' 2).env.inPF = true := by
  obtain ⟨a₀, b₀, d₀, f₀, a₁, b₁, d₁, f₁, a₂, b₂, hld₀, hp₀, hout₀, hend₀, hld₁, hp₁, hout₁, hend₁,
      hld₂, hp₂, hpc, hkept, hseen, hpulse⟩ : ∃ a₀ b₀ d₀ f₀ a₁ b₁ d₁ f₁ a₂ b₂,
      step .idle (tablesOf andpFile 6) andpFile 0 (scanStart beforeScans) = .inl a₀ ∧
      step .idle (tablesOf andpFile 6) andpFile 0 a₀ = .inl b₀ ∧
      step .idle (tablesOf andpFile 6) andpFile 0 b₀ = .inl d₀ ∧
      step .idle (tablesOf andpFile 6) andpFile 0 d₀ = .inr f₀ ∧
      step .idle (tablesOf andpFile 6) andpFile 0
        (scanStart { f₀.plc with store := setInputs false true f₀.plc.store }) = .inl a₁ ∧
      step .idle (tablesOf andpFile 6) andpFile 0 a₁ = .inl b₁ ∧
      step .idle (tablesOf andpFile 6) andpFile 0 b₁ = .inl d₁ ∧
      step .idle (tablesOf andpFile 6) andpFile 0 d₁ = .inr f₁ ∧
      step .idle (tablesOf andpFile 6) andpFile 0
        (scanStart { f₁.plc with store := setInputs true true f₁.plc.store }) = .inl a₂ ∧
      step .idle (tablesOf andpFile 6) andpFile 0 a₂ = .inl b₂ ∧
      (a₀.env.pc = 30 ∧ a₁.env.pc = 30 ∧ a₂.env.pc = 30) ∧
      (a₀.plc.store.edgeInit 0 = true ∧
        a₁.plc.store.edgeInit 0 = b₀.plc.store.edgeInit 0 ∧
        a₁.plc.store.edgeValue 0 = b₀.plc.store.edgeValue 0 ∧
        a₂.plc.store.edgeInit 0 = b₁.plc.store.edgeInit 0 ∧
        a₂.plc.store.edgeValue 0 = b₁.plc.store.edgeValue 0) ∧
      EdgeIns.operand ⟨.and, true⟩ .idle andpFile a₁ = true ∧ getPowerFlow b₂.env.inPF = true :=
    ⟨_, _, _, _, _, _, _, _, _, _, rfl, rfl, rfl, rfl, rfl, rfl, rfl, rfl, rfl, rfl,
      ⟨rfl, rfl, rfl⟩,
      ⟨rfl, rfl, rfl, rfl, rfl⟩, rfl, rfl⟩
  refine ⟨fun | 0 => a₀ | 1 => a₁ | _ => a₂, fun | 0 => b₀ | 1 => b₁ | _ => b₂, ?_, hseen, hpulse⟩
  constructor
  · rfl
  · intro k hk
    match k, hk with
    | 0, _ => exact hpc.1
    | 1, _ => exact hpc.2.1
    | 2, _ => exact hpc.2.2
  · intro k hk
    match k, hk with
    | 0, _ => exact ⟨0, hp₀⟩
    | 1, _ => exact ⟨0, hp₁⟩
    | 2, _ => exact ⟨0, hp₂⟩
  · intro k hk
    match k, hk with
    | 0, _ =>
      exact .head (.step ⟨0, hout₀⟩) (.head (.scan ⟨0, hend₀⟩ _) (.single (.step ⟨0, hld₁⟩)))
    | 1, _ =>
      exact .head (.step ⟨0, hout₁⟩) (.head (.scan ⟨0, hend₁⟩ _) (.single (.step ⟨0, hld₂⟩)))
  · exact hkept.1
  · intro k hk
    match k, hk with
    | 0, _ => exact hkept.2.1
    | 1, _ => exact hkept.2.2.2.1
  · intro k hk
    match k, hk with
    | 0, _ => exact hkept.2.2.1
    | 1, _ => exact hkept.2.2.2.2

/-- The equivalence at three scans of `andpFile`. -/
theorem pulsesExact_iff_andpFile : ∃ c c',
    EdgeScans .idle (tablesOf andpFile 6) andpFile ⟨.and, true⟩ 30 3 c c' ∧
    (PulsesExact .idle andpFile ⟨.and, true⟩ 3 c c' ↔
      ∀ k < 3, EdgeIns.looksIn ⟨.and, true⟩ c k = true →
        EdgeIns.operand ⟨.and, true⟩ .idle andpFile (c k) = true →
        (lastSeen (EdgeIns.looksIn ⟨.and, true⟩ c)
            (fun k => EdgeIns.operand ⟨.and, true⟩ .idle andpFile (c k)) k = some false ↔
          previous (fun k => EdgeIns.operand ⟨.and, true⟩ .idle andpFile (c k)) k =
            some false)) := by
  obtain ⟨c, c', hscans, -⟩ := andpFile_scans
  exact ⟨c, c', hscans, pulsesExact_iff hscans⟩

/-- `ANDP X0` gives a pulse in the third scan although `X0` was on in the second. -/
theorem andpFile_late_pulse : ∃ s c c', Accepts enoughMemory andpFile s ∧
    EdgeScans .idle s andpFile ⟨.and, true⟩ 30 3 c c' ∧
    ¬ PulsesExact .idle andpFile ⟨.and, true⟩ 3 c c' := by
  obtain ⟨c, c', hscans, hseen, hpulse⟩ := andpFile_scans
  refine ⟨_, c, c', accepts_tablesOf ⟨_, rfl⟩, hscans, fun h => ?_⟩
  have hthird := h 2 (by decide)
  rw [hpulse, previous, hseen] at hthird
  simp [EdgeIns.fires, EdgeConn.combine] at hthird

end Kalyke
