-- SUMMARY: Ladder networks: their code, their value, and their run by the simple instructions.
import Kalyke.Exec.Run
import Kalyke.Lib.ShiftStack
import Kalyke.Lib.WhileLoop

/-!
# Ladder Networks

A network is a tree of contacts, block connections, inversions, outputs and branch points. Its code
is the tree in post-order. The interpreter evaluates it on the two shift registers of the power
flow: the low bits of `mlv_InPF` are a stack with one entry for each open block, those of
`mlv_OutPF` one with an entry for each open branch point.
-/

namespace Kalyke

open List BitVec ShiftStack Ucode

/-- The operand of a contact: a global element in the short or the extended form, or a local one. -/
inductive BitOperand where
  | short (e : BitElement) (lo : UInt8)
  | extended (e : BitElement) (lo : UInt8) (hi : UInt16)
  | lm (lo : UInt8)
deriving DecidableEq, Repr

/-- The operand of an output. -/
inductive CoilOperand where
  | short (e : CoilElement) (lo : UInt8)
  | extended (e : CoilElement) (lo : UInt8) (hi : UInt16)
  | lm (lo : UInt8)
deriving DecidableEq, Repr

mutual

/-- A network. An open one continues the power flow of a branch point, a closed one starts with a
load of its own. -/
inductive Net : Bool → Type where
  | input : Net true
  | load (neg : Bool) (x : BitOperand) : Net false
  | series {o : Bool} (e : Net o) (neg : Bool) (x : BitOperand) : Net o
  | parallel {o : Bool} (e : Net o) (neg : Bool) (x : BitOperand) : Net o
  | inv {o : Bool} (e : Net o) : Net o
  | anb {o : Bool} (e : Net o) (block : Net false) : Net o
  | orb {o : Bool} (e : Net o) (block : Net false) : Net o
  | out {o : Bool} (e : Net o) (y : CoilOperand) : Net o
  | branch {o : Bool} (e : Net o) (first : Net true) (rest : Branches) : Net o

/-- The branches of a branch point after the first one. -/
inductive Branches : Type where
  | last (e : Net true)
  | more (e : Net true) (rest : Branches)

end

/-! ## Code -/

namespace BitOperand

def ins (k : Contact) : BitOperand → SimpleIns
  | short e _ => .contact k e false
  | extended e _ _ => .contact k e true
  | lm _ => .contactLm k

def bytes (k : Contact) (x : BitOperand) : List UInt8 :=
  match x with
  | short _ lo => [lo, .ofNat (x.ins k).code]
  | extended _ lo hi => [lo, .ofNat (x.ins k).code, hi.toUInt8, (hi >>> 8).toUInt8]
  | lm lo => [lo, .ofNat (x.ins k).code]

/-- The area of the operand at call level `n`. -/
def area (n : Nat) : BitOperand → BitArea
  | short e _ | extended e _ _ => .elem e
  | lm _ => .lm n

/-- The number of the element. The extended form adds its parts without regard for carries past 16
bits. -/
def number : BitOperand → Nat
  | short _ lo | lm lo => lo.toNat
  | extended _ lo hi => (16 * hi.toNat + lo.toNat) % 65536

end BitOperand

namespace CoilOperand

/-- The instruction of an output to the operand. -/
def ins : CoilOperand → SimpleIns
  | short e _ => .coil .out e false
  | extended e _ _ => .coil .out e true
  | lm _ => .coilLm .out

def bytes (y : CoilOperand) : List UInt8 :=
  match y with
  | short _ lo => [lo, .ofNat y.ins.code]
  | extended _ lo hi => [lo, .ofNat y.ins.code, hi.toUInt8, (hi >>> 8).toUInt8]
  | lm lo => [lo, .ofNat y.ins.code]

/-- The area of the operand at call level `n`. -/
def area (n : Nat) : CoilOperand → BitArea
  | short e _ | extended e _ _ => .elem e.toBitElement
  | lm _ => .lm n

/-- The number of the element. -/
def number : CoilOperand → Nat
  | short _ lo | lm lo => lo.toNat
  | extended _ lo hi => (16 * hi.toNat + lo.toNat) % 65536

/-- The elements after an output of `b` at call level `n`. -/
def put (y : CoilOperand) (n : Nat) (b : Bool) (s : Store) : Store :=
  s.setBit (y.area n) y.number b

/-- The operand is a local element. -/
def isLm : CoilOperand → Bool
  | lm _ => true
  | _ => false

end CoilOperand

/-- The bytes of a simple instruction without an operand. -/
def SimpleIns.bare (i : SimpleIns) : List UInt8 := [0, .ofNat i.code]

mutual

/-- The code of a network, in post-order. -/
def Net.code {o : Bool} : Net o → List UInt8
  | .input => []
  | .load neg x => x.bytes (if neg then .ldi else .ld)
  | .series e neg x => e.code ++ x.bytes (if neg then .ani else .and)
  | .parallel e neg x => e.code ++ x.bytes (if neg then .ori else .or)
  | .inv e => e.code ++ SimpleIns.inv.bare
  | .anb e block => e.code ++ (block.code ++ SimpleIns.anb.bare)
  | .orb e block => e.code ++ (block.code ++ SimpleIns.orb.bare)
  | .out e y => e.code ++ y.bytes
  | .branch e first rest => e.code ++ (SimpleIns.mps.bare ++ (first.code ++ rest.code))

def Branches.code : Branches → List UInt8
  | .last e => SimpleIns.mpp.bare ++ e.code
  | .more e rest => SimpleIns.mrd.bare ++ (e.code ++ rest.code)

end

/-! ## Value -/

mutual

/-- The value of a network at call level `n`, given the power flow it continues, and the elements
after its outputs. Contacts read the elements as the outputs before them have left them. -/
def Net.eval {o : Bool} (n : Nat) (input : Bool) (s : Store) : Net o → Bool × Store
  | .input => (input, s)
  | .load neg x => (xor neg (s.getBit (x.area n) x.number), s)
  | .series e neg x =>
    let r := e.eval n input s
    (r.1 && xor neg (r.2.getBit (x.area n) x.number), r.2)
  | .parallel e neg x =>
    let r := e.eval n input s
    (r.1 || xor neg (r.2.getBit (x.area n) x.number), r.2)
  | .inv e =>
    let r := e.eval n input s
    (!r.1, r.2)
  | .anb e block =>
    let r := e.eval n input s
    let r' := block.eval n input r.2
    (r.1 && r'.1, r'.2)
  | .orb e block =>
    let r := e.eval n input s
    let r' := block.eval n input r.2
    (r.1 || r'.1, r'.2)
  | .out e y =>
    let r := e.eval n input s
    (r.1, y.put n r.1 r.2)
  | .branch e first rest =>
    let r := e.eval n input s
    rest.eval n r.1 (first.eval n r.1 r.2).2

/-- The value of the last branch, after the outputs of all of them. -/
def Branches.eval (n : Nat) (input : Bool) (s : Store) : Branches → Bool × Store
  | .last e => e.eval n input s
  | .more e rest => rest.eval n input (e.eval n input s).2

end

/-! ## Depth -/

mutual

/-- The entries a network needs on the stack of the blocks, its own value included. -/
def Net.inDepth {o : Bool} : Net o → Nat
  | .input | .load _ _ => 1
  | .series e _ _ | .parallel e _ _ | .inv e | .out e _ => e.inDepth
  | .anb e block | .orb e block => max e.inDepth (block.inDepth + 1)
  | .branch e first rest => max e.inDepth (max first.inDepth rest.inDepth)

def Branches.inDepth : Branches → Nat
  | .last e => e.inDepth
  | .more e rest => max e.inDepth rest.inDepth

end

mutual

/-- The entries a network needs on the stack of the branch points. -/
def Net.outDepth {o : Bool} : Net o → Nat
  | .input | .load _ _ => 0
  | .series e _ _ | .parallel e _ _ | .inv e | .out e _ => e.outDepth
  | .anb e block | .orb e block => max e.outDepth block.outDepth
  | .branch e first rest => max e.outDepth (max (first.outDepth + 1) rest.outDepth)

/-- The entry of the branch point itself is on the stack up to the last branch. -/
def Branches.outDepth : Branches → Nat
  | .last e => max 1 e.outDepth
  | .more e rest => max (e.outDepth + 1) rest.outDepth

end

theorem Branches.one_le_outDepth : (bs : Branches) → 1 ≤ bs.outDepth
  | .last _ => Nat.le_max_left _ _
  | .more _ rest => Nat.le_trans rest.one_le_outDepth (Nat.le_max_right _ _)

mutual

/-- The network has an output to a local element. -/
def Net.hasOutLm {o : Bool} : Net o → Bool
  | .input | .load _ _ => false
  | .series e _ _ | .parallel e _ _ | .inv e => e.hasOutLm
  | .anb e block | .orb e block => e.hasOutLm || block.hasOutLm
  | .out e y => e.hasOutLm || y.isLm
  | .branch e first rest => e.hasOutLm || (first.hasOutLm || rest.hasOutLm)

def Branches.hasOutLm : Branches → Bool
  | .last e => e.hasOutLm
  | .more e rest => e.hasOutLm || rest.hasOutLm

end

/-! ## The registers as stacks -/

section

variable {pf : BitVec 32} {a b v : Bool} {l : List Bool}

theorem getLsbD_one_rest {i : Nat} (hi : i + 1 < 32) : (1 : BitVec 32).getLsbD (i + 1) = false := by
  have hall : ∀ j < 31, (1 : BitVec 32).getLsbD (j + 1) = false := by decide
  exact hall i (by omega)

theorem getLsbD_putPowerFlow_low : (putPowerFlow pf b).getLsbD 0 = b := by
  cases b
  · simp [putPowerFlow, rstPowerFlow]
  · simp [putPowerFlow, setPowerFlow]

theorem getLsbD_putPowerFlow_rest {i : Nat} (hi : i + 1 < 32) :
    (putPowerFlow pf b).getLsbD (i + 1) = pf.getLsbD (i + 1) := by
  cases b
  · have hmask : ∀ j < 31, (0xFFFFFFFE : BitVec 32).getLsbD (j + 1) = true := by decide
    show (pf &&& 0xFFFFFFFE).getLsbD (i + 1) = _
    rw [getLsbD_and, hmask i (by omega), Bool.and_true]
  · simp [putPowerFlow, setPowerFlow]

theorem holds_put (h : Holds pf (a :: l)) : Holds (putPowerFlow pf b) (b :: l) :=
  h.replace getLsbD_putPowerFlow_low fun _ hi => getLsbD_putPowerFlow_rest hi

theorem holds_load (h : Holds pf l) (hroom : l.length < 32) (neg : Bool) :
    Holds ((if neg then Contact.ldi else .ld).run b pf) ((xor neg b) :: l) := by
  have hrun :
      (if neg then Contact.ldi else .ld).run b pf = putPowerFlow (pf <<< 1) (xor neg b) := by
    cases neg <;> simp [Contact.run]
  rw [hrun]
  refine h.push hroom getLsbD_putPowerFlow_low fun i hi => ?_
  rw [getLsbD_putPowerFlow_rest hi, getLsbD_shiftLeft]
  simp [hi]

/-- A serial contact joins its value to the top, although it is looked at only with power flow. -/
theorem holds_series (h : Holds pf (a :: l)) (neg : Bool) :
    Holds ((if neg then Contact.ani else .and).run b pf) ((a && xor neg b) :: l) := by
  have htop : getPowerFlow pf = a := h.top
  have hrst : Holds (rstPowerFlow pf) (false :: l) := holds_put (b := false) h
  cases neg <;> cases a <;> cases b <;> simpa [Contact.run, htop]

theorem holds_parallel (h : Holds pf (a :: l)) (neg : Bool) :
    Holds ((if neg then Contact.ori else .or).run b pf) ((a || xor neg b) :: l) := by
  have htop : getPowerFlow pf = a := h.top
  have hset : Holds (setPowerFlow pf) (true :: l) := holds_put (b := true) h
  cases neg <;> cases a <;> cases b <;> simpa [Contact.run, htop]

theorem holds_inv (h : Holds pf (a :: l)) : Holds (pf ^^^ 1) ((!a) :: l) := by
  refine h.replace ?_ fun i hi => ?_
  · rw [getLsbD_xor, h.top, show (1 : BitVec 32).getLsbD 0 = true by decide, Bool.xor_true]
  · rw [getLsbD_xor, getLsbD_one_rest hi, Bool.xor_false]

/-- The two lowest bits decide a comparison under the mask `3`. -/
theorem and_three_eq_iff {m : BitVec 32} (hm : m &&& 3 = m) :
    pf &&& 3 = m ↔ pf.getLsbD 0 = m.getLsbD 0 ∧ pf.getLsbD 1 = m.getLsbD 1 := by
  have hmask : ∀ i < 30, (3 : BitVec 32).getLsbD (i + 2) = false := by decide
  have hzero {i : Nat} (hi : i + 2 < 32) (x : BitVec 32) : (x &&& 3).getLsbD (i + 2) = false := by
    rw [getLsbD_and, hmask i (by omega), Bool.and_false]
  constructor
  · rintro rfl
    simp
  · rintro ⟨h0, h1⟩
    rw [← hm]
    refine eq_of_getLsbD_eq fun i hi => ?_
    match i with
    | 0 => rw [getLsbD_and, getLsbD_and, h0]
    | 1 => rw [getLsbD_and, getLsbD_and, h1]
    | i + 2 => rw [hzero hi, hzero hi]

/-- `SI_ANB` replaces the two topmost entries by their conjunction. -/
theorem holds_anb (h : Holds pf (b :: a :: l)) : Holds (anb pf) ((a && b) :: l) := by
  have hsecond : pf.getLsbD 1 = a := h.entry 1 (by simp)
  unfold anb
  split
  · rename_i hne
    rw [ne_eq, and_three_eq_iff (by decide), h.top] at hne
    refine Holds.pop (a := false) ⟨h.length_le, fun i hi => ?_⟩
    have hmask : ∀ j < 30, (0xFFFFFFFC : BitVec 32).getLsbD (j + 2) = true := by decide
    match i with
    | 0 => simp
    | 1 => cases a <;> cases b <;> simp_all
    | i + 2 =>
      have hlt := h.length_le
      simp only [length_cons] at hi hlt
      rw [getLsbD_and, hmask i (by omega), Bool.and_true,
        h.entry (i + 2) (by simpa using hi)]
      rfl
  · rename_i heq
    rw [ne_eq, and_three_eq_iff (by decide), h.top, hsecond] at heq
    obtain ⟨rfl, rfl⟩ : b = true ∧ a = true := by simpa using heq
    exact h.pop

/-- `SI_ORB` replaces the two topmost entries by their disjunction. -/
theorem holds_orb (h : Holds pf (b :: a :: l)) : Holds (orb pf) ((a || b) :: l) := by
  have hsecond : pf.getLsbD 1 = a := h.entry 1 (by simp)
  unfold orb
  split
  · rename_i hne
    rw [ne_eq, and_three_eq_iff (by decide), h.top] at hne
    refine Holds.pop (a := b) ⟨h.length_le, fun i hi => ?_⟩
    have hmask : ∀ j < 30, (2 : BitVec 32).getLsbD (j + 2) = false := by decide
    match i with
    | 0 => simpa using h.top
    | 1 => cases a <;> cases b <;> simp_all
    | i + 2 =>
      have hlt := h.length_le
      simp only [length_cons] at hi hlt
      rw [getLsbD_or, hmask i (by omega), Bool.or_false, h.entry (i + 2) (by simpa using hi)]
      rfl
  · rename_i heq
    rw [ne_eq, and_three_eq_iff (by decide), h.top, hsecond] at heq
    obtain ⟨rfl, rfl⟩ : b = false ∧ a = false := by simpa using heq
    exact h.pop

/-- `SI_MPS` pushes the power flow on the stack of the branch points. -/
theorem holds_mps {outPF : BitVec 32} (h : Holds outPF l) (hroom : l.length < 32)
    (hv : getPowerFlow pf = v) : Holds (mps pf outPF) (v :: l) := by
  refine h.push hroom ?_ fun i hi => ?_
  · simpa [mps, getLsbD_or, getLsbD_and, getPowerFlow] using hv
  · rw [mps, getLsbD_or, getLsbD_and, getLsbD_one_rest hi, getLsbD_shiftLeft]
    simp [hi]

end

/-! ## The loop of the simple instructions -/

def simpleLoop (out : Outside) (u : Ucode) : WhileLoop (RunEnv × Plc) (RetValue × RunEnv × Plc)
  | (env, plc) =>
    if RunsSimple u env.pc then
      let r := execSimpleIns out u env plc
      if r.ret = .pass then .inl (r.env env.pc, r.plc) else .inr (r.ret, r.env env.pc, r.plc)
    else .inr (.pass, env, plc)

variable {out : Outside} {u : Ucode} {p n : Nat} {inPF outPF : BitVec 32} {plc : Plc}

theorem runsSimple_of_code {i : SimpleIns} (h : u.getPU8 (p + 1) = i.code) : RunsSimple u p := by
  have hdiv := Ucode.getPU16_div (u := u) (p := p)
  have hlt := i.code_lt
  unfold siMaxIns at hlt
  unfold RunsSimple
  omega

/-- One pass over an instruction that has a case. -/
theorem simpleLoop_step {i : SimpleIns} {x : BitVec 32 × BitVec 32 × Store}
    (hcode : u.getPU8 (p + 1) = i.code) (hlen : i.execLength = some n)
    (hrun : i.run u p out.stale plc.sbrNestedNum inPF outPF plc.store = x) :
    (simpleLoop out u).Step (⟨inPF, outPF, p⟩, plc)
      (⟨x.1, x.2.1, p + n⟩, { plc with store := x.2.2 }) := by
  have hexec : execSimpleIns out u ⟨inPF, outPF, p⟩ plc =
      ⟨.pass, .next n, x.1, x.2.1, { plc with store := x.2.2 }⟩ := by
    simp [execSimpleIns, hcode, SimpleIns.ofCode_code, hlen, hrun]
  simp [WhileLoop.Step, simpleLoop, runsSimple_of_code hcode, hexec, InsResult.env, Flow.apply]

/-- One pass over `SI_OUT_LM`, which has no case. -/
theorem simpleLoop_outLm (hcode : u.getPU8 (p + 1) = (SimpleIns.coilLm .out).code) :
    simpleLoop out u (⟨inPF, outPF, p⟩, plc) =
      .inr (.err .illegalInstrction, ⟨inPF, outPF, p⟩, plc) := by
  have hexec : execSimpleIns out u ⟨inPF, outPF, p⟩ plc =
      ⟨.err .illegalInstrction, .stay, inPF, outPF, plc⟩ := by
    simp [execSimpleIns, hcode, SimpleIns.ofCode_code, SimpleIns.execLength, RunEnv.done]
  simp [simpleLoop, runsSimple_of_code hcode, hexec, InsResult.env, Flow.apply]

theorem toNat_code (i : SimpleIns) : (UInt8.ofNat i.code).toNat = i.code := by
  have hlt := i.code_lt
  unfold siMaxIns at hlt
  simp [UInt8.toNat_ofNat']
  omega

theorem getPU8_bare {i : SimpleIns} (h : u.CodeAt p i.bare) : u.getPU8 (p + 1) = i.code := by
  rw [h.getPU8 (i := 1) (by simp [SimpleIns.bare])]
  exact toNat_code i

theorem getPU16_extended {lo op : UInt8} {hi : UInt16}
    (h : u.CodeAt p [lo, op, hi.toUInt8, (hi >>> 8).toUInt8]) : u.getPU16 (p + 2) = hi.toNat := by
  rw [h.getPU16 (i := 2) (by simp)]
  have hlt := hi.toNat_lt
  simp
  omega

/-- One pass over a contact. -/
theorem BitOperand.step {k : Contact} {x : BitOperand} (h : u.CodeAt p (x.bytes k)) :
    (simpleLoop out u).Step (⟨inPF, outPF, p⟩, plc)
      (⟨k.run (plc.store.getBit (x.area plc.sbrNestedNum) x.number) inPF, outPF,
        p + (x.bytes k).length⟩, plc) := by
  have hop : u.getPU8 (p + 1) = (x.ins k).code := by
    rw [h.getPU8 (i := 1) (by cases x <;> simp [bytes])]
    cases x <;> exact toNat_code _
  have hlo : u.getPU8 p = ((x.bytes k).getD 0 0).toNat :=
    h.getPU8 (i := 0) (by cases x <;> simp [bytes])
  have hlen : (x.ins k).execLength = some (x.bytes k).length := by cases x <;> rfl
  refine simpleLoop_step (x := (k.run _ inPF, outPF, plc.store)) hop hlen ?_
  cases x with
  | short e lo => simp [SimpleIns.run, ins, bytes, elementNumber, hlo, area, number]
  | extended e lo hi =>
    simp [SimpleIns.run, ins, bytes, elementNumber, hlo, getPU16_extended h, area, number]
  | lm lo => simp [SimpleIns.run, ins, bytes, hlo, area, number]

/-- One pass over an output to a global element. -/
theorem CoilOperand.step {y : CoilOperand} (h : u.CodeAt p y.bytes) (hy : y.isLm = false) :
    (simpleLoop out u).Step (⟨inPF, outPF, p⟩, plc)
      (⟨inPF, outPF, p + y.bytes.length⟩,
        plc.onStore (y.put plc.sbrNestedNum (getPowerFlow inPF))) := by
  have hop : u.getPU8 (p + 1) = y.ins.code := by
    rw [h.getPU8 (i := 1) (by cases y <;> simp [bytes])]
    cases y <;> exact toNat_code _
  have hlo : u.getPU8 p = (y.bytes.getD 0 0).toNat :=
    h.getPU8 (i := 0) (by cases y <;> simp [bytes])
  have hlen : y.ins.execLength = some y.bytes.length := by cases y <;> first | rfl | cases hy
  refine simpleLoop_step (x := (inPF, outPF, y.put _ _ plc.store)) hop hlen ?_
  cases y with
  | short e lo => simp [SimpleIns.run, ins, bytes, Coil.run, elementNumber, hlo, put, area, number]
  | extended e lo hi =>
    simp [SimpleIns.run, ins, bytes, Coil.run, elementNumber, hlo, getPU16_extended h, put, area,
      number]
  | lm lo => cases hy

/-- One pass over an instruction without an operand. -/
theorem step_bare {i : SimpleIns} {x : BitVec 32 × BitVec 32 × Store} (h : u.CodeAt p i.bare)
    (hlen : i.execLength = some 2)
    (hrun : i.run u p out.stale plc.sbrNestedNum inPF outPF plc.store = x) :
    (simpleLoop out u).Step (⟨inPF, outPF, p⟩, plc)
      (⟨x.1, x.2.1, p + i.bare.length⟩, { plc with store := x.2.2 }) :=
  simpleLoop_step (getPU8_bare h) hlen hrun

theorem execSimpleIns_pc_le (env : RunEnv) (plc : Plc) :
    env.pc ≤ (execSimpleIns out u env plc).flow.apply env.pc := by
  unfold execSimpleIns
  split
  · exact Nat.le_add_right _ _
  · exact Nat.le_refl _

/-- The program counter never goes back. -/
theorem pc_le_of_step {c c' : RunEnv × Plc} (h : (simpleLoop out u).Step c c') :
    c.1.pc ≤ c'.1.pc := by
  obtain ⟨env, plc⟩ := c
  simp only [WhileLoop.Step, simpleLoop] at h
  split_ifs at h
  obtain rfl := Sum.inl.inj h
  exact execSimpleIns_pc_le env plc

theorem pc_le_of_reaches {c c' : RunEnv × Plc} (h : (simpleLoop out u).Reaches c c') :
    c.1.pc ≤ c'.1.pc :=
  WhileLoop.Reaches.invariant (I := fun d => c.1.pc ≤ d.1.pc)
    (fun _ _ hle hstep => Nat.le_trans hle (pc_le_of_step hstep)) h (Nat.le_refl _)

/-! ## Simulation -/

/-- What the run over a piece of code that ends at `q` comes to: its end, in a state with `post`, or
an instruction before it at which the loop is left. -/
inductive Outcome (out : Outside) (u : Ucode) (c : RunEnv × Plc) (q : Nat)
    (post : RunEnv × Plc → Prop) : Bool → Prop where
  | done {c' : RunEnv × Plc} (hreach : (simpleLoop out u).Reaches c c') (hpc : c'.1.pc = q)
      (hpost : post c') : Outcome out u c q post false
  | stuck {c' : RunEnv × Plc} {r : RetValue × RunEnv × Plc}
      (hreach : (simpleLoop out u).Reaches c c') (hpc : c'.1.pc < q)
      (hexit : simpleLoop out u c' = .inr r) : Outcome out u c q post true

namespace Outcome

variable {c c' : RunEnv × Plc} {q q' : Nat} {post post' : RunEnv × Plc → Prop} {b b' : Bool}

theorem of_step (h : (simpleLoop out u).Step c c') (hpc : c'.1.pc = q) (hpost : post c') :
    Outcome out u c q post false := .done (.single h) hpc hpost

/-- Code that follows on other code. -/
theorem bind (h : Outcome out u c q post b) (hle : q ≤ q')
    (hnext : ∀ d, d.1.pc = q → post d → Outcome out u d q' post' b') :
    Outcome out u c q' post' (b || b') := by
  cases h with
  | done hreach hpc hpost =>
    cases hnext _ hpc hpost with
    | done hreach' hpc' hpost' => exact .done (hreach.trans hreach') hpc' hpost'
    | stuck hreach' hpc' hexit => exact .stuck (hreach.trans hreach') hpc' hexit
  | stuck hreach hpc hexit => exact .stuck hreach (Nat.lt_of_lt_of_le hpc hle) hexit

/-- The run gets to the end of the code if and only if no instruction stops it before. -/
theorem reaches_iff (h : Outcome out u c q post b) :
    (∃ c', (simpleLoop out u).Reaches c c' ∧ c'.1.pc = q ∧ post c') ↔ b = false := by
  cases h with
  | done hreach hpc hpost => exact ⟨fun _ => rfl, fun _ => ⟨_, hreach, hpc, hpost⟩⟩
  | @stuck d r hreach hpc hexit =>
    refine ⟨?_, fun hfalse => nomatch hfalse⟩
    rintro ⟨c', hreach', hpc', -⟩
    have hdet : Relator.RightUnique (simpleLoop out u).Step :=
      fun _ _ _ h₁ h₂ => Sum.inl.inj (h₁.symm.trans h₂)
    rcases Relation.ReflTransGen.total_of_right_unique hdet hreach hreach' with hdc | hcd
    · -- nothing follows on the state the loop is left in
      rcases Relation.ReflTransGen.cases_head hdc with rfl | ⟨d', hstep, -⟩
      · omega
      · exact absurd (hexit.symm.trans hstep) (by simp)
    · have := pc_le_of_reaches hcd
      omega

end Outcome

/-- What a network leaves behind: its value on top of the entries below, the branch points as they
were, and the elements `s`. -/
def After (l k : List Bool) (v : Bool) (plc : Plc) (s : Store) (c : RunEnv × Plc) : Prop :=
  Holds c.1.inPF (v :: l) ∧ Holds c.1.outPF k ∧ c.2 = { plc with store := s }

/-- Code that follows on a network. -/
theorem Outcome.after {c : RunEnv × Plc} {q q' : Nat} {l k : List Bool} {v b b' : Bool} {s : Store}
    {post : RunEnv × Plc → Prop} (h : Outcome out u c q (After l k v plc s) b) (hle : q ≤ q')
    (hnext : ∀ inPF outPF, Holds inPF (v :: l) → Holds outPF k →
      Outcome out u (⟨inPF, outPF, q⟩, { plc with store := s }) q' post b') :
    Outcome out u c q' post (b || b') := by
  refine h.bind hle ?_
  rintro ⟨⟨inPF, outPF, pc⟩, plc'⟩ rfl ⟨hin, hout, rfl⟩
  exact hnext inPF outPF hin hout

/-- A network followed by a single instruction. -/
theorem Outcome.after_step {c : RunEnv × Plc} {q q' : Nat} {l k l' k' : List Bool} {v v' b : Bool}
    {s : Store} (h : Outcome out u c q (After l k v plc s) b) (hle : q ≤ q')
    (hnext : ∀ inPF outPF, Holds inPF (v :: l) → Holds outPF k →
      ∃ inPF' outPF', (simpleLoop out u).Step (⟨inPF, outPF, q⟩, { plc with store := s })
        (⟨inPF', outPF', q'⟩, { plc with store := s }) ∧ Holds inPF' (v' :: l') ∧
        Holds outPF' k') :
    Outcome out u c q' (After l' k' v' plc s) b := by
  rw [← Bool.or_false b]
  refine h.after hle fun inPF outPF hin hout => ?_
  obtain ⟨inPF', outPF', hstep, hin', hout'⟩ := hnext inPF outPF hin hout
  exact .of_step hstep rfl ⟨hin', hout', rfl⟩

/-- An output changes its element, or stops the run if that is a local one. -/
theorem CoilOperand.sim {y : CoilOperand} {v : Bool} {l k : List Bool} (hcode : u.CodeAt p y.bytes)
    (hin : Holds inPF (v :: l)) (hout : Holds outPF k) :
    Outcome out u (⟨inPF, outPF, p⟩, plc) (p + y.bytes.length)
      (After l k v plc (y.put plc.sbrNestedNum v plc.store)) y.isLm := by
  cases hy : y.isLm with
  | false =>
    have htop : getPowerFlow inPF = v := hin.top
    refine .of_step (CoilOperand.step hcode hy) rfl ⟨hin, hout, ?_⟩
    rw [htop]
    rfl
  | true =>
    cases y with
    | short e lo => cases hy
    | extended e lo hi => cases hy
    | lm lo =>
      refine .stuck .refl (by simp [bytes]) (simpleLoop_outLm ?_)
      rw [hcode.getPU8 (i := 1) (by simp [bytes])]
      exact toNat_code _

/-- The entries a network starts from: an open one continues the topmost. -/
def Net.start (o input : Bool) (l : List Bool) : List Bool := if o then input :: l else l

mutual

/-- A network leaves its value and the elements its outputs have changed. By induction on the tree;
the entries `l` and `k` below those of the network grow with every open block and branch point. -/
theorem Net.sim {o : Bool} : (e : Net o) → ∀ (input : Bool) {p : Nat} {inPF outPF : BitVec 32}
    {plc : Plc} {l k : List Bool}, u.CodeAt p e.code → Holds inPF (Net.start o input l) →
    Holds outPF k → l.length + e.inDepth ≤ 32 → k.length + e.outDepth ≤ 32 →
    Outcome out u (⟨inPF, outPF, p⟩, plc) (p + e.code.length)
      (After l k (e.eval plc.sbrNestedNum input plc.store).1 plc
        (e.eval plc.sbrNestedNum input plc.store).2) e.hasOutLm
  | .input, input, p, inPF, outPF, plc, l, k, _, hin, hout, _, _ => .done .refl rfl ⟨hin, hout, rfl⟩
  | .load neg x, input, p, inPF, outPF, plc, l, k, hcode, hin, hout, hl, _ => by
    have hroom : l.length < 32 := Nat.lt_of_succ_le hl
    have hx : u.CodeAt p (x.bytes (if neg then .ldi else .ld)) := hcode
    refine .of_step (BitOperand.step hx) rfl ⟨?_, hout, rfl⟩
    exact holds_load hin hroom neg
  | .series e neg x, input, p, inPF, outPF, plc, l, k, hcode, hin, hout, hl, hk => by
    obtain ⟨hcode, hx⟩ := Ucode.codeAt_append.mp hcode
    rw [Net.code, length_append, ← Nat.add_assoc]
    refine (Net.sim e input hcode hin hout hl hk).after_step (Nat.le_add_right _ _)
      fun _ _ hin hout => ?_
    exact ⟨_, _, BitOperand.step hx, holds_series hin neg, hout⟩
  | .parallel e neg x, input, p, inPF, outPF, plc, l, k, hcode, hin, hout, hl, hk => by
    obtain ⟨hcode, hx⟩ := Ucode.codeAt_append.mp hcode
    rw [Net.code, length_append, ← Nat.add_assoc]
    refine (Net.sim e input hcode hin hout hl hk).after_step (Nat.le_add_right _ _)
      fun _ _ hin hout => ?_
    exact ⟨_, _, BitOperand.step hx, holds_parallel hin neg, hout⟩
  | .inv e, input, p, inPF, outPF, plc, l, k, hcode, hin, hout, hl, hk => by
    obtain ⟨hcode, hx⟩ := Ucode.codeAt_append.mp hcode
    rw [Net.code, length_append, ← Nat.add_assoc]
    refine (Net.sim e input hcode hin hout hl hk).after_step (Nat.le_add_right _ _)
      fun _ _ hin hout => ?_
    exact ⟨_, _, step_bare hx rfl rfl, holds_inv hin, hout⟩
  | .anb e block, input, p, inPF, outPF, plc, l, k, hcode, hin, hout, hl, hk => by
    obtain ⟨hcode, hblock⟩ := Ucode.codeAt_append.mp hcode
    obtain ⟨hblock, hx⟩ := Ucode.codeAt_append.mp hblock
    simp only [Net.inDepth, Net.outDepth] at hl hk
    rw [Net.code, length_append, length_append, ← Nat.add_assoc, ← Nat.add_assoc]
    refine (Net.sim e input hcode hin hout (by omega) (by omega)).after (by omega)
      fun _ _ hin hout => ?_
    have hdepth : l.length + 1 + block.inDepth ≤ 32 := by omega
    refine (Net.sim block input hblock hin hout hdepth (by omega)).after_step
      (Nat.le_add_right _ _) fun _ _ hin hout => ?_
    exact ⟨_, _, step_bare hx rfl rfl, holds_anb hin, hout⟩
  | .orb e block, input, p, inPF, outPF, plc, l, k, hcode, hin, hout, hl, hk => by
    obtain ⟨hcode, hblock⟩ := Ucode.codeAt_append.mp hcode
    obtain ⟨hblock, hx⟩ := Ucode.codeAt_append.mp hblock
    simp only [Net.inDepth, Net.outDepth] at hl hk
    rw [Net.code, length_append, length_append, ← Nat.add_assoc, ← Nat.add_assoc]
    refine (Net.sim e input hcode hin hout (by omega) (by omega)).after (by omega)
      fun _ _ hin hout => ?_
    have hdepth : l.length + 1 + block.inDepth ≤ 32 := by omega
    refine (Net.sim block input hblock hin hout hdepth (by omega)).after_step
      (Nat.le_add_right _ _) fun _ _ hin hout => ?_
    exact ⟨_, _, step_bare hx rfl rfl, holds_orb hin, hout⟩
  | .out e y, input, p, inPF, outPF, plc, l, k, hcode, hin, hout, hl, hk => by
    obtain ⟨hcode, hy⟩ := Ucode.codeAt_append.mp hcode
    rw [Net.code, length_append, ← Nat.add_assoc]
    refine (Net.sim e input hcode hin hout hl hk).after (Nat.le_add_right _ _)
      fun _ _ hin hout => ?_
    exact CoilOperand.sim hy hin hout
  | .branch e first rest, input, p, inPF, outPF, plc, l, k, hcode, hin, hout, hl, hk => by
    obtain ⟨hcode, hbranches⟩ := Ucode.codeAt_append.mp hcode
    obtain ⟨hx, hbranches⟩ := Ucode.codeAt_append.mp hbranches
    obtain ⟨hfirst, hrest⟩ := Ucode.codeAt_append.mp hbranches
    have hpos : 1 ≤ rest.outDepth := rest.one_le_outDepth
    simp only [Net.inDepth, Net.outDepth] at hl hk
    rw [Net.code, length_append, length_append, length_append, ← Nat.add_assoc,
      ← Nat.add_assoc, ← Nat.add_assoc]
    refine Outcome.after (Outcome.after_step (Net.sim e input hcode hin hout (by omega) (by omega))
      (Nat.le_add_right _ _) fun _ _ hin hout =>
        ⟨_, _, step_bare hx rfl rfl, hin, holds_mps hout (by omega) hin.top⟩)
      (by omega) fun _ _ hin hout => ?_
    have hdepth : k.length + 1 + first.outDepth ≤ 32 := by omega
    refine (Net.sim first _ hfirst hin hout (by omega) hdepth).after (by omega)
      fun _ _ hin hout => ?_
    exact Branches.sim rest hrest hin hout (by omega) (by omega)

theorem Branches.sim : (bs : Branches) → ∀ {p : Nat} {inPF outPF : BitVec 32} {plc : Plc}
    {a input : Bool} {l k : List Bool}, u.CodeAt p bs.code → Holds inPF (a :: l) →
    Holds outPF (input :: k) → l.length + bs.inDepth ≤ 32 → k.length + bs.outDepth ≤ 32 →
    Outcome out u (⟨inPF, outPF, p⟩, plc) (p + bs.code.length)
      (After l k (bs.eval plc.sbrNestedNum input plc.store).1 plc
        (bs.eval plc.sbrNestedNum input plc.store).2) bs.hasOutLm
  | .last e, p, inPF, outPF, plc, a, input, l, k, hcode, hin, hout, hl, hk => by
    obtain ⟨hx, hcode⟩ := Ucode.codeAt_append.mp hcode
    simp only [Branches.outDepth] at hl hk
    have htop : getPowerFlow outPF = input := hout.top
    have hread : Outcome out u (⟨inPF, outPF, p⟩, plc) (p + SimpleIns.mpp.bare.length)
        (After l k input plc plc.store) false :=
      .of_step (step_bare hx rfl rfl) rfl ⟨htop ▸ holds_put hin, hout.pop, rfl⟩
    rw [Branches.code, length_append, ← Nat.add_assoc]
    exact hread.after (Nat.le_add_right _ _) fun _ _ hin hout =>
      Net.sim e input hcode hin hout hl (by omega)
  | .more e rest, p, inPF, outPF, plc, a, input, l, k, hcode, hin, hout, hl, hk => by
    obtain ⟨hx, hcode⟩ := Ucode.codeAt_append.mp hcode
    obtain ⟨hcode, hrest⟩ := Ucode.codeAt_append.mp hcode
    simp only [Branches.inDepth, Branches.outDepth] at hl hk
    have htop : getPowerFlow outPF = input := hout.top
    have hread : Outcome out u (⟨inPF, outPF, p⟩, plc) (p + SimpleIns.mrd.bare.length)
        (After l (input :: k) input plc plc.store) false :=
      .of_step (step_bare hx rfl rfl) rfl ⟨htop ▸ holds_put hin, hout, rfl⟩
    rw [Branches.code, length_append, length_append, ← Nat.add_assoc, ← Nat.add_assoc]
    have hdepth : k.length + 1 + e.outDepth ≤ 32 := by omega
    refine hread.after (by omega) fun _ _ hin hout => ?_
    refine (Net.sim e input hcode hin hout (by omega) hdepth).after (by omega)
      fun _ _ hin hout => ?_
    exact Branches.sim rest hrest hin hout (by omega) (by omega)

end

/-- The value of a closed network at call level `n` and the elements after its outputs. It has no
power flow to continue. -/
def Net.value (n : Nat) (s : Store) (e : Net false) : Bool × Store := e.eval n false s

/-- The run over the code of a network comes to its end, leaves its value on top of the stack as it
was before and its outputs in their elements, if and only if no output goes to a local element. -/
theorem Net.run_iff (e : Net false) {l k : List Bool} (hcode : u.CodeAt p e.code)
    (hin : Holds inPF l) (hout : Holds outPF k) (hl : l.length + e.inDepth ≤ 32)
    (hk : k.length + e.outDepth ≤ 32) :
    (∃ c, (simpleLoop out u).Reaches (⟨inPF, outPF, p⟩, plc) c ∧ c.1.pc = p + e.code.length ∧
      After l k (e.value plc.sbrNestedNum plc.store).1 plc
        (e.value plc.sbrNestedNum plc.store).2 c) ↔ e.hasOutLm = false :=
  (Net.sim e false hcode hin hout hl hk).reaches_iff

/-- The network `(X0 ∧ ¬X1) ∨ LM3`, whose value goes on to `Y0` in series with `X2`, and negated to
the extended `Y16`. -/
def sampleNet : Net false :=
  .branch (.orb (.series (.load false (.short .X 0)) true (.short .X 1)) (.load false (.lm 3)))
    (.out (.series .input false (.short .X 2)) (.short .Y 0))
    (.last (.out (.inv .input) (.extended .Y 0 1)))

theorem sampleNet_run : ∃ c, (simpleLoop .idle sampleNet.code).Reaches (⟨0, 0, 0⟩, .off) c ∧
    c.1.pc = 0 + sampleNet.code.length ∧
    After [] [] (sampleNet.value 0 .off).1 .off (sampleNet.value 0 .off).2 c :=
  (Net.run_iff sampleNet codeAt_self holds_nil holds_nil (by decide) (by decide)).mpr (by decide)

def outLmNet : Net false := .out (.load false (.short .X 0)) (.lm 0)

theorem outLmNet_not_run : ¬ ∃ c, (simpleLoop .idle outLmNet.code).Reaches (⟨0, 0, 0⟩, .off) c ∧
    c.1.pc = 0 + outLmNet.code.length ∧
    After [] [] (outLmNet.value 0 .off).1 .off (outLmNet.value 0 .off).2 c := by
  intro h
  have hlm : outLmNet.hasOutLm = false :=
    (Net.sim outLmNet false codeAt_self holds_nil holds_nil (by decide)
      (by decide)).reaches_iff.mp h
  exact absurd hlm (by decide)

/-! ## Several Networks -/

theorem Net.sim_all (es : List (Net false)) {p : Nat} {inPF outPF : BitVec 32} {plc : Plc}
    (hcode : u.CodeAt p (es.flatMap Net.code))
    (hdepth : ∀ e ∈ es, e.inDepth ≤ 32 ∧ e.outDepth ≤ 32) :
    Outcome out u (⟨inPF, outPF, p⟩, plc) (p + (es.flatMap Net.code).length)
      (fun c => c.2 = { plc with
        store := es.foldl (fun s e => (e.value plc.sbrNestedNum s).2) plc.store })
      (es.any Net.hasOutLm) := by
  induction es generalizing p inPF outPF plc with
  | nil => exact .done .refl rfl rfl
  | cons e es ih =>
    obtain ⟨hfirst, hrest⟩ := Ucode.codeAt_append.mp hcode
    obtain ⟨⟨hin, hout⟩, hdepth⟩ := forall_mem_cons.mp hdepth
    rw [flatMap_cons, length_append, ← Nat.add_assoc]
    exact (Net.sim e false (l := []) (k := []) hfirst holds_nil holds_nil (by simpa)
      (by simpa)).after (Nat.le_add_right _ _) fun _ _ _ _ => ih hrest hdepth

/-- The run over the code of several networks comes to its end, with the outputs of each as they
follow from the elements after those before it, if and only if none goes to a local element. -/
theorem Net.run_all_iff (es : List (Net false)) (hcode : u.CodeAt p (es.flatMap Net.code))
    (hdepth : ∀ e ∈ es, e.inDepth ≤ 32 ∧ e.outDepth ≤ 32) :
    (∃ c, (simpleLoop out u).Reaches (⟨inPF, outPF, p⟩, plc) c ∧
      c.1.pc = p + (es.flatMap Net.code).length ∧ c.2 = { plc with
        store := es.foldl (fun s e => (e.value plc.sbrNestedNum s).2) plc.store }) ↔
      es.any Net.hasOutLm = false :=
  (Net.sim_all es hcode hdepth).reaches_iff

theorem sampleNets_run : let code := [sampleNet, sampleNet].flatMap Net.code
    ∃ c, (simpleLoop .idle code).Reaches (⟨0, 0, 0⟩, .off) c ∧ c.1.pc = 0 + code.length :=
  ((Net.run_all_iff [sampleNet, sampleNet] codeAt_self (by decide)).mpr (by decide)).imp
    fun _ h => ⟨h.1, h.2.1⟩

end Kalyke
