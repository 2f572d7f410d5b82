-- SUMMARY: What the instructions of a block drive, and what a clean-up does to it.
import Kalyke.Compiler.CleanLists
import Kalyke.Exec.Control
import Kalyke.Exec.DataProcessing
import Kalyke.Exec.Frames

/-!
# Clean-ups

An output drives a bit, a timer instruction its timer, an edge instruction its edge memory. A
clean-up works on these targets only, and whatever it does to one of them is to switch it off. So
what one part of a clean-up has switched off stays off in the parts that follow.
-/

namespace Kalyke

open List BitVec Function History

/-! ## Targets -/

/-- What an instruction drives: a bit of a cell, a timer, or an edge memory. -/
inductive Target where
  | bit (c : Cell) (k : Nat)
  | timer (n : Nat)
  | edge (n : Nat)
deriving DecidableEq, Repr

namespace Target

/-- The bits of the elements that belong to a target. A timer has its contact and its current
value. -/
def Covers : Target → Cell → Nat → Prop
  | bit c k, c', k' => c' = c ∧ k' = k
  | timer n, c, _ => c = .bit .T n ∨ c = .word .T n
  | edge _, _, _ => False

/-- A target is switched off, at the tick count `now`: the bit is off, the timer is reset, or the
edge memory is initialised. -/
def Off (now : BitVec 32) (s : Store) : Target → Prop
  | bit c k => (c.read s).getLsbD k = false
  | timer n => s.timer n = resetTimer now ∧ s.bit .T n = false ∧ s.word .T n = 0
  | edge n => s.edgeValue n = false ∧ s.edgeInit n = false

end Target

def simpleAt (u : Ucode) (p : Nat) : Option SimpleIns :=
  if IsSimple u p then SimpleIns.ofCode (u.getPU8 (p + 1)) else none

def complexAt (u : Ucode) (p : Nat) : Option ComplexIns :=
  if IsSimple u p then none else ComplexIns.ofCode (u.getPU16 p)

section

variable (u : Ucode) (n : Nat) (s : Store) (q : Nat)

/-- The number of the bit that `BOUT` at `q` writes. -/
def boutNumber : Option Nat :=
  match getWord u (q + 6) s n 0 1 with
  | (.ok (), [x]) => if x.toInt < 0 ∨ 15 < x.toInt then none else some x.toNat
  | _ => none

/-- The bit that `BOUT` at `q` writes: one of a word, or one of the joined bit elements. -/
def boutTarget : Option Target :=
  match boutNumber u n s q, wordPlace u (q + 2) s (saveWordTable n) with
  | some k, some (.word area i) => some (.bit (area.cell i) k)
  | some k, some (.bits area i width) =>
    if k < width then some (.bit (area.cell (i + k)) 0) else none
  | _, _ => none

/-- The targets of the simple instructions that are cleaned up, the outputs among them or not. -/
def SimpleIns.targets (outputs : Bool) : SimpleIns → List Target
  | coil .out e ext =>
    if outputs then [.bit ((BitArea.elem e.toBitElement).cell (elementNumber u q ext)) 0] else []
  | coilLm .out => if outputs then [.bit ((BitArea.lm n).cell (u.getPU8 q)) 0] else []
  | eu | ed => [.edge (u.getPU16 (q + 2))]
  | pulse _ => [.edge (u.getPU16 (q + 4))]
  | _ => []

/-- The targets of the complex instructions that are cleaned up. -/
def ComplexIns.targets : ComplexIns → List Target
  | data .ton | data .tof => [.timer (u.getPU16 (q + 4))]
  | data .outLm => [.bit ((BitArea.lm n).cell (u.getPU16 (q + 4))) 0]
  | data .bout => (boutTarget u n s q).toList
  | _ => []

/-- The targets of the instruction at `q`, at call level `n`. -/
def targets (outputs : Bool) : List Target :=
  (simpleAt u q).elim [] (·.targets u n q outputs) ++ (complexAt u q).elim [] (·.targets u n s q)

end

/-- What the clean-up of the instruction at `q` may switch off, at call level `n`: its targets, the
timer of a `TONR`, and for a `CALL` what the instructions of its subroutine drive, but for their
outputs. -/
inductive CleanTarget (u : Ucode) (ps : List Nat) (s : Store) :
    Bool → Nat → Nat → Target → Prop where
  | own {outputs : Bool} {n q : Nat} {x : Target} (h : x ∈ targets u n s q outputs) :
      CleanTarget u ps s outputs n q x
  | tonr {outputs : Bool} {n q : Nat} (h : complexAt u q = some (.data .tonr)) :
      CleanTarget u ps s outputs n q (.timer (u.getPU16 (q + 4)))
  | call {outputs : Bool} {n q a q' : Nat} {x : Target} (h : complexAt u q = some .call)
      (hq' : q' ∈ ps) (hsub : openBlock u .sub (before ps q') = some (a, callSbrNumber u q))
      (hx : CleanTarget u ps s false (n + 1) q' x) : CleanTarget u ps s outputs n q x

/-! ## Switching off -/

section

variable {s : Store} {e : BitElement} {w : WordElement} {i : Nat}

theorem read_bit_eq_zero_iff : (Cell.bit e i).read s = 0 ↔ s.bit e i = false := by
  rw [Cell.read]
  cases s.bit e i <;> decide

theorem read_word_eq_zero_iff : (Cell.word w i).read s = 0 ↔ s.word w i = 0 := by
  constructor
  · intro h
    exact setWidth_inj h
  · intro h
    rw [Cell.read, h]
    rfl

end

/-- `s'` is `s` with some of the targets in `X` switched off, and the same in all else. A timer may
also be no more than disabled. -/
structure SwitchesOff (now : BitVec 32) (X : Target → Prop) (s s' : Store) : Prop where
  cells : ∀ (c : Cell) (k : Nat), (c.read s').getLsbD k = true → (c.read s).getLsbD k = true
  others : ∀ (c : Cell) (k : Nat), (∀ x, X x → ¬ x.Covers c k) →
    (c.read s').getLsbD k = (c.read s).getLsbD k
  timer : ∀ n, s'.timer n = s.timer n ∨ X (.timer n) ∧
    (s'.timer n = resetTimer now ∨ s'.timer n = { s.timer n with enable := false })
  edgeValue : ∀ n, s'.edgeValue n = s.edgeValue n ∨ X (.edge n) ∧ s'.edgeValue n = false
  edgeInit : ∀ n, s'.edgeInit n = s.edgeInit n ∨ X (.edge n) ∧ s'.edgeInit n = false
  flags : s'.errorStatusStop = s.errorStatusStop ∧ s'.cmdStop = s.cmdStop ∧
    s'.watchDogTime = s.watchDogTime ∧ s'.isOnlineProgram = s.isOnlineProgram

section

variable {now : BitVec 32} {X Y : Target → Prop} {s s' s'' : Store} {n : Nat}

namespace SwitchesOff

theorem refl (s : Store) : SwitchesOff now X s s :=
  ⟨fun _ _ h => h, fun _ _ _ => rfl, fun _ => .inl rfl, fun _ => .inl rfl, fun _ => .inl rfl,
    rfl, rfl, rfl, rfl⟩

theorem mono (h : SwitchesOff now X s s') (hXY : ∀ x, X x → Y x) : SwitchesOff now Y s s' where
  cells := h.cells
  others := fun c k hY => h.others c k fun x hx => hY x (hXY x hx)
  timer := fun n => (h.timer n).imp_right fun ht => ⟨hXY _ ht.1, ht.2⟩
  edgeValue := fun n => (h.edgeValue n).imp_right fun he => ⟨hXY _ he.1, he.2⟩
  edgeInit := fun n => (h.edgeInit n).imp_right fun he => ⟨hXY _ he.1, he.2⟩
  flags := h.flags

theorem trans (h : SwitchesOff now X s s') (h' : SwitchesOff now X s' s'') :
    SwitchesOff now X s s'' where
  cells := fun c k hbit => h.cells c k (h'.cells c k hbit)
  others := fun c k hX => (h'.others c k hX).trans (h.others c k hX)
  timer := by
    intro n
    rcases h'.timer n with hsame' | ⟨hX, hreset' | hoff'⟩
    · rw [hsame']
      exact h.timer n
    · exact .inr ⟨hX, .inl hreset'⟩
    · -- A timer that is reset is disabled already.
      rcases h.timer n with hsame | ⟨-, hreset | hoff⟩
      · rw [hsame] at hoff'
        exact .inr ⟨hX, .inr hoff'⟩
      · rw [hreset] at hoff'
        exact .inr ⟨hX, .inl hoff'⟩
      · rw [hoff] at hoff'
        exact .inr ⟨hX, .inr hoff'⟩
  edgeValue := by
    intro n
    rcases h'.edgeValue n with hsame' | hoff'
    · rw [hsame']
      exact h.edgeValue n
    · exact .inr hoff'
  edgeInit := by
    intro n
    rcases h'.edgeInit n with hsame' | hoff'
    · rw [hsame']
      exact h.edgeInit n
    · exact .inr hoff'
  flags := by
    obtain ⟨hstop, hcmd, htime, honline⟩ := h.flags
    obtain ⟨hstop', hcmd', htime', honline'⟩ := h'.flags
    exact ⟨hstop'.trans hstop, hcmd'.trans hcmd, htime'.trans htime, honline'.trans honline⟩

/-- A cell that is zero stays so. -/
theorem read_eq_zero {c : Cell} (h : SwitchesOff now X s s') (hc : c.read s = 0) :
    c.read s' = 0 := by
  have hzero (k : Nat) : (0 : BitVec 32).getLsbD k = false := getLsbD_zero
  apply eq_of_getLsbD_eq
  intro k _
  rw [hzero]
  apply Bool.eq_false_iff.mpr
  intro hon
  have hbefore := h.cells c k hon
  rw [hc, hzero] at hbefore
  cases hbefore

end SwitchesOff

theorem Target.Off.covered {x : Target} {c : Cell} {k : Nat} (h : x.Off now s)
    (hc : x.Covers c k) : (c.read s).getLsbD k = false := by
  have hzero : (0 : BitVec 32).getLsbD k = false := getLsbD_zero
  cases x with
  | bit c' k' =>
    obtain ⟨rfl, rfl⟩ := hc
    exact h
  | timer n =>
    obtain ⟨-, hbit, hword⟩ := h
    rcases hc with rfl | rfl
    · rw [read_bit_eq_zero_iff.mpr hbit, hzero]
    · rw [read_word_eq_zero_iff.mpr hword, hzero]
  | edge n => cases hc

/-- What is off stays off. -/
theorem Target.Off.keep {x : Target} (h : x.Off now s) (hs : SwitchesOff now X s s') :
    x.Off now s' := by
  cases x with
  | bit c k =>
    apply Bool.eq_false_iff.mpr
    intro hon
    have hoff : (c.read s).getLsbD k = false := h
    rw [hs.cells c k hon] at hoff
    cases hoff
  | timer n =>
    obtain ⟨htimer, hbit, hword⟩ := h
    refine ⟨?_, ?_, ?_⟩
    · rcases hs.timer n with hsame | ⟨-, hreset | hoff⟩
      · rw [hsame, htimer]
      · exact hreset
      · rw [hoff, htimer]
        rfl
    · exact read_bit_eq_zero_iff.mp (hs.read_eq_zero (read_bit_eq_zero_iff.mpr hbit))
    · exact read_word_eq_zero_iff.mp (hs.read_eq_zero (read_word_eq_zero_iff.mpr hword))
  | edge n =>
    obtain ⟨hvalue, hinit⟩ := h
    constructor
    · rcases hs.edgeValue n with hsame | ⟨-, hoff⟩
      · rw [hsame, hvalue]
      · exact hoff
    · rcases hs.edgeInit n with hsame | ⟨-, hoff⟩
      · rw [hsame, hinit]
      · exact hoff

/-! ## The actions of a clean-up -/

theorem getLsbD_bool (b : Bool) (k : Nat) :
    (BitVec.ofNat 32 b.toNat).getLsbD k = (decide (k = 0) && b) := by
  cases b with
  | false => simp
  | true => cases k <;> simp [getLsbD_one]

theorem setBit_switchesOff {area : BitArea} {i : Nat} (hX : X (.bit (area.cell i) 0)) :
    SwitchesOff now X s (s.setBit area i false) := by
  have hoff (k : Nat) : ((area.cell i).read (s.setBit area i false)).getLsbD k = false := by
    rw [BitArea.read_cell, getBit_setBit_self, getLsbD_bool, Bool.and_false]
  constructor
  · intro c k hon
    by_cases hc : c = area.cell i
    · rw [hc, hoff] at hon
      cases hon
    · rwa [read_setBit hc] at hon
  · intro c k hother
    by_cases hc : c = area.cell i
    · have hk : k ≠ 0 := fun hk => hother _ hX ⟨hc, hk⟩
      rw [hc, hoff, BitArea.read_cell, getLsbD_bool, decide_eq_false hk, Bool.false_and]
    · rw [read_setBit hc]
  all_goals cases area
  · exact fun _ => .inl rfl
  · exact fun _ => .inl rfl
  · exact fun _ => .inl rfl
  · exact fun _ => .inl rfl
  · exact fun _ => .inl rfl
  · exact fun _ => .inl rfl
  · exact ⟨rfl, rfl, rfl, rfl⟩
  · exact ⟨rfl, rfl, rfl, rfl⟩

theorem setBit_off (s : Store) (area : BitArea) (i : Nat) :
    (Target.bit (area.cell i) 0).Off now (s.setBit area i false) := by
  show ((area.cell i).read (s.setBit area i false)).getLsbD 0 = false
  rw [BitArea.read_cell, getBit_setBit_self, getLsbD_bool, Bool.and_false]

theorem setEdge_switchesOff (hX : X (.edge n)) : SwitchesOff now X s (s.setEdge n false) := by
  refine ⟨fun c k h => ?_, fun c k _ => ?_, fun _ => .inl rfl, fun m => ?_, fun _ => .inl rfl,
    rfl, rfl, rfl, rfl⟩
  · cases c <;> exact h
  · cases c <;> rfl
  · by_cases hm : m = n
    · rw [hm]
      exact .inr ⟨hX, update_self ..⟩
    · exact .inl (update_of_ne hm ..)

theorem rstEdgeInit_switchesOff (hX : X (.edge n)) : SwitchesOff now X s (s.rstEdgeInit n) := by
  refine ⟨fun c k h => ?_, fun c k _ => ?_, fun _ => .inl rfl, fun _ => .inl rfl, fun m => ?_,
    rfl, rfl, rfl, rfl⟩
  · cases c <;> exact h
  · cases c <;> rfl
  · by_cases hm : m = n
    · rw [hm]
      exact .inr ⟨hX, update_self ..⟩
    · exact .inl (update_of_ne hm ..)

theorem cleanEdge_switchesOff (hX : X (.edge n)) : SwitchesOff now X s (s.cleanEdge n) :=
  (setEdge_switchesOff hX).trans (rstEdgeInit_switchesOff hX)

theorem cleanEdge_off : (Target.edge n).Off now (s.cleanEdge n) :=
  ⟨update_self .., update_self ..⟩

theorem disableTimer_switchesOff (hX : X (.timer n)) :
    SwitchesOff now X s (s.disableTimer n) := by
  refine ⟨fun c k h => ?_, fun c k _ => ?_, fun m => ?_, fun _ => .inl rfl, fun _ => .inl rfl,
    rfl, rfl, rfl, rfl⟩
  · cases c <;> exact h
  · cases c <;> rfl
  · by_cases hm : m = n
    · rw [hm]
      exact .inr ⟨hX, .inr (update_self ..)⟩
    · exact .inl (update_of_ne hm ..)

theorem plcResetOneTimer_off : (Target.timer n).Off now (s.plcResetOneTimer now n) := by
  refine ⟨update_self .., ?_, ?_⟩
  · simp [Store.plcResetOneTimer, Store.setBit, Store.setWord]
  · simp [Store.plcResetOneTimer, Store.setWord]

theorem plcResetOneTimer_switchesOff (hX : X (.timer n)) :
    SwitchesOff now X s (s.plcResetOneTimer now n) := by
  have hoff : (Target.timer n).Off now (s.plcResetOneTimer now n) := plcResetOneTimer_off
  obtain ⟨-, hbit, hword⟩ := hoff
  have hcell (c : Cell) (hb : c ≠ .bit .T n) (hw : c ≠ .word .T n) :
      c.read (s.plcResetOneTimer now n) = c.read s := by
    have hsame : c.read (s.plcResetOneTimer now n) =
        c.read ((s.setBit (.elem .T) n false).setWord (.elem .T) n 0) := by
      cases c <;> rfl
    have hword : c.read ((s.setBit (.elem .T) n false).setWord (.elem .T) n 0) =
        c.read (s.setBit (.elem .T) n false) := read_setWord hw 0
    have hbit : c.read (s.setBit (.elem .T) n false) = c.read s := read_setBit hb false
    rw [hsame, hword, hbit]
  have hzero (k : Nat) : (0 : BitVec 32).getLsbD k = false := getLsbD_zero
  refine ⟨fun c k hon => ?_, fun c k hother => ?_, fun m => ?_, fun _ => .inl rfl,
    fun _ => .inl rfl, rfl, rfl, rfl, rfl⟩
  · by_cases hb : c = .bit .T n
    · rw [hb, read_bit_eq_zero_iff.mpr hbit, hzero] at hon
      cases hon
    · by_cases hw : c = .word .T n
      · rw [hw, read_word_eq_zero_iff.mpr hword, hzero] at hon
        cases hon
      · rwa [hcell c hb hw] at hon
  · have hb : c ≠ .bit .T n := fun hb => hother _ hX (.inl hb)
    have hw : c ≠ .word .T n := fun hw => hother _ hX (.inr hw)
    rw [hcell c hb hw]
  · by_cases hm : m = n
    · rw [hm]
      exact .inr ⟨hX, .inl (update_self ..)⟩
    · exact .inl (update_of_ne hm ..)

end

/-! ## BOUT -/

/-- Without power flow `BOUT` leaves all elements as they are. -/
theorem runCiBoutIns_idle (i : BodyInput) (h : i.inPF = 0) :
    (runCiBoutIns i).2.2 = i.store := by
  have hidle : ¬ getPowerFlow i.inPF = true := by simp [h]
  have hrun : runCiBoutIns i = (.ok (), i.inPF, i.store) := if_neg hidle
  rw [hrun]

/-! ## Instructions -/

section

variable {out : Outside} {t : CompState} {u : Ucode} {now : BitVec 32} {ps l : List Nat}
variable {s s₀ : Store} {outputs : Bool} {n q : Nat} {sub : Nat → Plc → Except PlcErr Unit × Plc}

theorem targets_simple (hq : IsSimple u q) : targets u n s₀ q outputs =
    (SimpleIns.ofCode (u.getPU8 (q + 1))).elim [] (·.targets u n q outputs) := by
  rw [targets, simpleAt, complexAt, if_pos hq, if_pos hq]
  exact append_nil _

theorem targets_complex (hq : ¬ IsSimple u q) : targets u n s₀ q outputs =
    (ComplexIns.ofCode (u.getPU16 q)).elim [] (·.targets u n s₀ q) := by
  rw [targets, simpleAt, complexAt, if_neg hq, if_neg hq]
  exact nil_append _

theorem complexAt_of_not_simple (hq : ¬ IsSimple u q) :
    complexAt u q = ComplexIns.ofCode (u.getPU16 q) := if_neg hq

theorem cleanSimpleIns_spec (hq : IsSimple u q) (s : Store) :
    SwitchesOff now (· ∈ targets u n s₀ q outputs) s (cleanSimpleIns u outputs n s q) ∧
      ∀ x ∈ targets u n s₀ q outputs, x.Off now (cleanSimpleIns u outputs n s q) := by
  rw [targets_simple hq]
  unfold cleanSimpleIns
  cases hi : SimpleIns.ofCode (u.getPU8 (q + 1)) with
  | none => exact ⟨.refl s, fun x hx => nomatch hx⟩
  | some i =>
    cases i with
    | coil c e ext =>
      cases c with
      | out =>
        cases outputs with
        | true =>
          refine ⟨setBit_switchesOff (mem_singleton.mpr rfl), fun x hx => ?_⟩
          rw [mem_singleton.mp hx]
          exact setBit_off s (.elem e.toBitElement) (elementNumber u q ext)
        | false => exact ⟨.refl s, fun x hx => nomatch hx⟩
      | set | rst => exact ⟨.refl s, fun x hx => nomatch hx⟩
    | coilLm c =>
      cases c with
      | out =>
        cases outputs with
        | true =>
          refine ⟨setBit_switchesOff (mem_singleton.mpr rfl), fun x hx => ?_⟩
          rw [mem_singleton.mp hx]
          exact setBit_off s (.lm n) (u.getPU8 q)
        | false => exact ⟨.refl s, fun x hx => nomatch hx⟩
      | set | rst => exact ⟨.refl s, fun x hx => nomatch hx⟩
    | eu | ed | pulse =>
      refine ⟨cleanEdge_switchesOff (mem_singleton.mpr rfl), fun x hx => ?_⟩
      rw [mem_singleton.mp hx]
      exact cleanEdge_off
    | _ => exact ⟨.refl s, fun x hx => nomatch hx⟩

theorem cleanSimpleList_spec (hl : ∀ q ∈ l, IsSimple u q) (s : Store) :
    SwitchesOff now (fun x => ∃ q ∈ l, x ∈ targets u n s₀ q outputs) s
        (l.foldl (cleanSimpleIns u outputs n) s) ∧
      ∀ q ∈ l, ∀ x ∈ targets u n s₀ q outputs,
        x.Off now (l.foldl (cleanSimpleIns u outputs n) s) := by
  induction l generalizing s with
  | nil => exact ⟨.refl s, fun q hq => nomatch hq⟩
  | cons p l ih =>
    have hspec : SwitchesOff now (· ∈ targets u n s₀ p outputs) s
        (cleanSimpleIns u outputs n s p) ∧ _ := cleanSimpleIns_spec (hl p mem_cons_self) s
    obtain ⟨hfirst, hoff⟩ := hspec
    obtain ⟨hrest, hoffs⟩ := ih (fun q hq => hl q (mem_cons_of_mem p hq))
      (cleanSimpleIns u outputs n s p)
    constructor
    · apply SwitchesOff.trans
      · exact hfirst.mono fun x hx => ⟨p, mem_cons_self, hx⟩
      · exact hrest.mono fun x ⟨q, hq, hx⟩ => ⟨q, mem_cons_of_mem p hq, hx⟩
    · intro q hq x hx
      rcases mem_cons.mp hq with rfl | hq
      · exact (hoff x hx).keep hrest
      · exact hoffs q hq x hx

/-- What the clean-up of the subroutine `id` at call level `n` may switch off. -/
def SubTarget (u : Ucode) (ps : List Nat) (s₀ : Store) (n id : Nat) (x : Target) : Prop :=
  ∃ q ∈ ps, (∃ a, openBlock u .sub (before ps q) = some (a, id)) ∧
    CleanTarget u ps s₀ false n q x

/-- The clean-up of a complex instruction, if that of a subroutine keeps to what it may switch
off. -/
theorem cleanComplexIns_switchesOff (hbout : out.body (.data .bout) = runCiBoutIns)
    (hsub : ∀ id (plc : Plc), plc.sbrNestedNum = n + 1 →
      SwitchesOff now (SubTarget u ps s₀ (n + 1) id) plc.store (sub id plc).2.store)
    (hq : ¬ IsSimple u q) (plc : Plc) (hn : plc.sbrNestedNum = n) :
    SwitchesOff now (CleanTarget u ps s₀ outputs n q) plc.store
      (cleanComplexIns out t u now sub plc q).2.store := by
  have hcode : complexAt u q = ComplexIns.ofCode (u.getPU16 q) := complexAt_of_not_simple hq
  have hown {x : Target} {i : ComplexIns} (hi : ComplexIns.ofCode (u.getPU16 q) = some i)
      (hx : x ∈ i.targets u n s₀ q) : CleanTarget u ps s₀ outputs n q x := by
    apply CleanTarget.own
    rw [targets_complex hq, hi]
    exact hx
  unfold cleanComplexIns
  split
  · rename_i hi
    exact plcResetOneTimer_switchesOff (hown hi (mem_singleton.mpr rfl))
  · rename_i hi
    exact plcResetOneTimer_switchesOff (hown hi (mem_singleton.mpr rfl))
  · rename_i hi
    exact disableTimer_switchesOff (.tonr (hcode.trans hi))
  · rename_i hi
    rw [hn]
    exact setBit_switchesOff (hown hi (mem_singleton.mpr rfl))
  · dsimp only
    rw [hbout, runCiBoutIns_idle _ rfl]
    exact .refl _
  · rename_i hi
    unfold cleanCall
    split
    · exact .refl _
    · rename_i id hid
      split
      · exact .refl _
      · split
        · have hcall := hsub (callSbrNumber u q)
            { plc with isExec := update plc.isExec id false,
                       sbrNestedNum := plc.sbrNestedNum + 1 } (congrArg (· + 1) hn)
          apply hcall.mono
          intro x ⟨q', hq', ⟨a, ha⟩, hx⟩
          exact .call (hcode.trans hi) hq' ha hx
        · exact .refl _
  · exact .refl _

theorem cleanComplexIns_off (hq : ¬ IsSimple u q) (hout : complexAt u q ≠ some (.data .bout))
    (plc : Plc) (hn : plc.sbrNestedNum = n) :
    ∀ x ∈ targets u n s₀ q outputs,
      x.Off now (cleanComplexIns out t u now sub plc q).2.store := by
  intro x hx
  rw [targets_complex hq] at hx
  rw [complexAt_of_not_simple hq] at hout
  unfold cleanComplexIns
  cases hi : ComplexIns.ofCode (u.getPU16 q) with
  | none =>
    rw [hi] at hx
    cases hx
  | some i =>
    rw [hi, Option.elim_some] at hx
    unfold ComplexIns.targets at hx
    split at hx
    · rw [mem_singleton.mp hx]
      exact plcResetOneTimer_off
    · rw [mem_singleton.mp hx]
      exact plcResetOneTimer_off
    · rw [mem_singleton.mp hx]
      rw [hn]
      exact setBit_off _ (.lm n) (u.getPU16 (q + 4))
    · exact absurd hi hout
    · cases hx

/-! ## Lists -/

/-- The clean-up of the subroutines called from call level `n` puts the level back and keeps to what
it may switch off. -/
structure CleansSubs (u : Ucode) (now : BitVec 32) (ps : List Nat) (s₀ : Store) (n : Nat)
    (sub : Nat → Plc → Except PlcErr Unit × Plc) : Prop where
  control : ∀ id (plc : Plc), plc.SameControl (sub id plc).2
  off : ∀ id (plc : Plc), plc.sbrNestedNum = n + 1 →
    SwitchesOff now (SubTarget u ps s₀ (n + 1) id) plc.store (sub id plc).2.store

theorem cleanComplexList_switchesOff (hbout : out.body (.data .bout) = runCiBoutIns)
    (hsub : CleansSubs u now ps s₀ n sub) (hl : ∀ q ∈ l, ¬ IsSimple u q) (plc : Plc)
    (hn : plc.sbrNestedNum = n) :
    SwitchesOff now (fun x => ∃ q ∈ l, CleanTarget u ps s₀ outputs n q x) plc.store
      (cleanComplexList out t u now sub l plc).2.store := by
  induction l generalizing plc with
  | nil => exact .refl _
  | cons p l ih =>
    have hfirst : SwitchesOff now (CleanTarget u ps s₀ outputs n p) plc.store
        (cleanComplexIns out t u now sub plc p).2.store :=
      cleanComplexIns_switchesOff hbout hsub.off (hl p mem_cons_self) plc hn
    have hlevel : (cleanComplexIns out t u now sub plc p).2.sbrNestedNum = n :=
      (cleanRelation_sameControl.cleanComplexIns hsub.control plc p).sbrNestedNum.trans hn
    replace hfirst : SwitchesOff now (fun x => ∃ q ∈ p :: l, CleanTarget u ps s₀ outputs n q x)
        plc.store (cleanComplexIns out t u now sub plc p).2.store :=
      hfirst.mono fun x hx => ⟨p, mem_cons_self, hx⟩
    rw [cleanComplexList]
    split
    · rename_i plc' heq
      rw [heq] at hfirst hlevel
      have hrest := ih (fun q hq => hl q (mem_cons_of_mem p hq)) plc' hlevel
      apply hfirst.trans
      apply hrest.mono
      rintro x ⟨q, hq, hx⟩
      exact ⟨q, mem_cons_of_mem p hq, hx⟩
    · rename_i e plc' heq
      rw [heq] at hfirst
      exact hfirst

/-- If the loop comes to the end of its list, all targets but those of `BOUT` are off. -/
theorem cleanComplexList_off (hbout : out.body (.data .bout) = runCiBoutIns)
    (hsub : CleansSubs u now ps s₀ n sub) (hl : ∀ q ∈ l, ¬ IsSimple u q) (plc : Plc)
    (hn : plc.sbrNestedNum = n) (hok : (cleanComplexList out t u now sub l plc).1 = .ok ()) :
    ∀ q ∈ l, complexAt u q ≠ some (.data .bout) → ∀ x ∈ targets u n s₀ q outputs,
      x.Off now (cleanComplexList out t u now sub l plc).2.store := by
  induction l generalizing plc with
  | nil => exact fun q hq => nomatch hq
  | cons p l ih =>
    have hoff (hout : complexAt u p ≠ some (.data .bout)) : ∀ x ∈ targets u n s₀ p outputs,
        x.Off now (cleanComplexIns out t u now sub plc p).2.store :=
      cleanComplexIns_off (hl p mem_cons_self) hout plc hn
    have hlevel : (cleanComplexIns out t u now sub plc p).2.sbrNestedNum = n :=
      (cleanRelation_sameControl.cleanComplexIns hsub.control plc p).sbrNestedNum.trans hn
    have hl' : ∀ q ∈ l, ¬ IsSimple u q := fun q hq => hl q (mem_cons_of_mem p hq)
    rw [cleanComplexList] at hok ⊢
    split at hok
    · rename_i plc' heq
      intro q hq hout x hx
      rw [heq] at hlevel
      have hrest : SwitchesOff now (fun x => ∃ q ∈ l, CleanTarget u ps s₀ outputs n q x) plc'.store
          (cleanComplexList out t u now sub l plc').2.store :=
        cleanComplexList_switchesOff hbout hsub hl' plc' hlevel
      rcases mem_cons.mp hq with rfl | hq
      · have hown := hoff hout x hx
        rw [heq] at hown
        exact hown.keep hrest
      · exact ih hl' plc' hlevel hok q hq hout x hx
    · cases hok

/-- The simple instructions of a list are simple, the complex ones are not. -/
structure InsList.Split (u : Ucode) (l : InsList) : Prop where
  simp : ∀ q ∈ l.simp, IsSimple u q
  comp : ∀ q ∈ l.comp, ¬ IsSimple u q

theorem collect_split {R : List Nat → Nat → Bool} : (collect u R ps).Split u := by
  constructor
  · intro q hq
    have hmem : q ∈ select (fun pre q => IsSimple u q && R pre q) ps := hq
    have hR := (mem_select.mp hmem).2
    rw [Bool.and_eq_true, decide_eq_true_eq] at hR
    exact hR.1
  · intro q hq
    have hmem : q ∈ select (fun pre q => !IsSimple u q && R pre q) ps := hq
    have hR := (mem_select.mp hmem).2
    rw [Bool.and_eq_true, Bool.not_eq_true', decide_eq_false_iff_not] at hR
    exact hR.1

/-- The instruction at `q` is on a clean-up list. -/
def InsList.Has (l : InsList) (q : Nat) : Prop := q ∈ l.simp ∨ q ∈ l.comp

/-- The complex instructions of a block are cleaned up after the simple ones, at the same level. -/
theorem cleanLists_eq {l : InsList} (plc : Plc) (hn : plc.sbrNestedNum = n) :
    ∃ plc' : Plc, plc'.store = l.simp.foldl (cleanSimpleIns u outputs n) plc.store ∧
      plc'.sbrNestedNum = n ∧ plc'.isExec = plc.isExec ∧
      cleanLists out t u now outputs sub l plc = cleanComplexList out t u now sub l.comp plc' := by
  refine ⟨plc.onStore fun s => l.simp.foldl (cleanSimpleIns u outputs plc.sbrNestedNum) s, ?_, ?_,
    rfl, rfl⟩
  · rw [← hn]
    rfl
  · exact hn

theorem cleanLists_switchesOff {l : InsList} (hbout : out.body (.data .bout) = runCiBoutIns)
    (hsub : CleansSubs u now ps s₀ n sub) (hl : l.Split u) (plc : Plc)
    (hn : plc.sbrNestedNum = n) :
    SwitchesOff now (fun x => ∃ q, l.Has q ∧ CleanTarget u ps s₀ outputs n q x) plc.store
      (cleanLists out t u now outputs sub l plc).2.store := by
  have hsimp : SwitchesOff now (fun x => ∃ q ∈ l.simp, x ∈ targets u n s₀ q outputs) plc.store
      (l.simp.foldl (cleanSimpleIns u outputs n) plc.store) :=
    (cleanSimpleList_spec hl.simp plc.store).1
  obtain ⟨plc', hstore, hlevel, -, heq⟩ := cleanLists_eq (l := l) plc hn
  have hcomp : SwitchesOff now (fun x => ∃ q ∈ l.comp, CleanTarget u ps s₀ outputs n q x)
      plc'.store (cleanComplexList out t u now sub l.comp plc').2.store :=
    cleanComplexList_switchesOff hbout hsub hl.comp plc' hlevel
  rw [heq]
  rw [← hstore] at hsimp
  apply SwitchesOff.trans
  · exact hsimp.mono fun x ⟨q, hq, hx⟩ => ⟨q, .inl hq, .own hx⟩
  · exact hcomp.mono fun x ⟨q, hq, hx⟩ => ⟨q, .inr hq, hx⟩

theorem cleanLists_off {l : InsList} (hbout : out.body (.data .bout) = runCiBoutIns)
    (hsub : CleansSubs u now ps s₀ n sub) (hl : l.Split u) (plc : Plc)
    (hn : plc.sbrNestedNum = n) (hok : (cleanLists out t u now outputs sub l plc).1 = .ok ()) :
    ∀ q, l.Has q → complexAt u q ≠ some (.data .bout) → ∀ x ∈ targets u n s₀ q outputs,
      x.Off now (cleanLists out t u now outputs sub l plc).2.store := by
  intro q hq hout x hx
  obtain ⟨plc', hstore, hlevel, -, heq⟩ := cleanLists_eq (l := l) plc hn
  rw [heq] at hok ⊢
  rcases hq with hq | hq
  · have hsimp : x.Off now (l.simp.foldl (cleanSimpleIns u outputs n) plc.store) :=
      (cleanSimpleList_spec hl.simp plc.store).2 q hq x hx
    have hcomp : SwitchesOff now (fun x => ∃ q ∈ l.comp, CleanTarget u ps s₀ outputs n q x)
        plc'.store (cleanComplexList out t u now sub l.comp plc').2.store :=
      cleanComplexList_switchesOff hbout hsub hl.comp plc' hlevel
    rw [← hstore] at hsimp
    exact hsimp.keep hcomp
  · exact cleanComplexList_off hbout hsub hl.comp plc' hlevel hok q hq hout x hx

/-! ## Subroutines -/

/-- The clean-up list of each subroutine holds instructions of a block with that number. -/
structure SbrListsWithin (u : Ucode) (ps : List Nat) (t : CompState) : Prop where
  split : ∀ id, (t.sbrList id).Split u
  inside : ∀ id q, (t.sbrList id).Has q →
    q ∈ ps ∧ ∃ a, openBlock u .sub (before ps q) = some (a, id)

theorem plcCallInsCleanElement_cleansSubs (hbout : out.body (.data .bout) = runCiBoutIns)
    (ht : SbrListsWithin u ps t) (room n : Nat) :
    CleansSubs u now ps s₀ n (plcCallInsCleanElement out t u now room) := by
  have hlist (sub : Nat → Plc → Except PlcErr Unit × Plc) (n id : Nat)
      (hsub : CleansSubs u now ps s₀ (n + 1) sub) (plc : Plc) (hn : plc.sbrNestedNum = n + 1) :
      SwitchesOff now (SubTarget u ps s₀ (n + 1) id) plc.store
        (cleanLists out t u now false sub (t.sbrList id) plc).2.store := by
    have hclean : SwitchesOff now (fun x => ∃ q, (t.sbrList id).Has q ∧
        CleanTarget u ps s₀ false (n + 1) q x) plc.store
        (cleanLists out t u now false sub (t.sbrList id) plc).2.store :=
      cleanLists_switchesOff hbout hsub (ht.split id) plc hn
    apply hclean.mono
    intro x ⟨q, hq, hx⟩
    obtain ⟨hmem, ha⟩ := ht.inside id q hq
    exact ⟨q, hmem, ha, hx⟩
  induction room generalizing n with
  | zero =>
    refine ⟨fun id plc => cleanRelation_sameControl.plcCallInsCleanElement 0 id plc,
      fun id plc hn => ?_⟩
    rw [plcCallInsCleanElement]
    split
    · exact .refl _
    · exact hlist _ n id ⟨fun _ plc => .refl plc, fun _ _ _ => .refl _⟩ plc hn
  | succ room ih =>
    refine ⟨?_, fun id plc hn => ?_⟩
    · exact cleanRelation_sameControl.plcCallInsCleanElement (room + 1)
    rw [plcCallInsCleanElement]
    split
    · exact .refl _
    · exact hlist _ n id (ih (n + 1)) plc hn

/-- The lists of an accepted program do. -/
theorem Follows.sbrListsWithin (h : Follows u ps t) (hps : ps.Pairwise (· < ·)) :
    SbrListsWithin u ps t := by
  constructor
  · intro id
    have hlist : t.sbrList id = _ := h.lists .sub id
    rw [hlist]
    cases lastOpened u .sub id ps with
    | none => exact ⟨fun q hq => (nomatch hq), fun q hq => (nomatch hq)⟩
    | some a => exact collect_split
  · intro id q hq
    have hlist : t.sbrList id = _ := h.lists .sub id
    rw [hlist] at hq
    cases hlast : lastOpened u .sub id ps with
    | none =>
      rw [hlast] at hq
      rcases hq with hq | hq <;> cases hq
    | some a =>
      rw [hlast] at hq
      obtain ⟨hmem, hR⟩ := mem_collect.mp hq
      simp only [Bool.and_eq_true] at hR
      obtain ⟨m, hopen⟩ := inBlock_iff.mp hR.1.1
      have hm := (openBlock_spec (pairwise_before hps) hopen).2.1
      rw [(lastOpened_spec hlast).2] at hm
      cases hm
      exact ⟨hmem, a, hopen⟩

/-! ## Calls that can be cleaned up -/

/-- If there is a `CALL` at `q`, it can be cleaned up with `room` call levels left: there is one
left at least, and if the `CALL` is marked as executed its subroutine has a number in range and the
calls on its list can be cleaned up one level further up. -/
def CallFits (t : CompState) (u : Ucode) (isExec : Nat → Bool) : Nat → Nat → Prop
  | 0, q => ComplexIns.ofCode (u.getPU16 q) ≠ some .call
  | room + 1, q => ComplexIns.ofCode (u.getPU16 q) = some .call →
    ∀ id, plcGetCallInsId t q = some id → isExec id = true → callSbrNumber u q ≤ maxSbrCount ∧
      ∀ q' ∈ (t.sbrList (callSbrNumber u q)).comp, CallFits t u isExec room q'

/-- The compiler knows the calls of a program. -/
def CallsKnown (t : CompState) (u : Ucode) (ps : List Nat) : Prop :=
  ∀ q ∈ ps, ComplexIns.ofCode (u.getPU16 q) = some .call → ∃ id, plcGetCallInsId t q = some id

theorem Accepts.callsKnown {alloc : Nat → Bool} (h : Accepts alloc u t) :
    CallsKnown t u (boundaries u) := by
  intro q hq hcode
  obtain ⟨i, hi, haddr⟩ := h.call_mem hq (ComplexIns.code_of_ofCode hcode).symm
  apply Option.isSome_iff_exists.mp
  rw [plcGetCallInsId, find?_isSome]
  exact ⟨i, mem_range.mpr hi, beq_iff_eq.mpr haddr⟩

theorem CallFits.mono {isExec isExec' : Nat → Bool} {room : Nat} (h : CallFits t u isExec room q)
    (hle : ∀ id, isExec' id = true → isExec id = true) : CallFits t u isExec' room q := by
  induction room generalizing q with
  | zero => exact h
  | succ room ih =>
    intro hcall id hid hon
    obtain ⟨hcount, hsub⟩ := h hcall id hid (hle id hon)
    exact ⟨hcount, fun q' hq' => ih (hsub q' hq')⟩

/-- A clean-up marks no `CALL` as executed. -/
theorem cleanRelation_isExec :
    CleanRelation fun plc plc' => ∀ id, plc'.isExec id = true → plc.isExec id = true where
  trans := fun h h' id hon => h id (h' id hon)
  store := fun _ _ _ hon => hon
  call := by
    intro plc plc' id h id' hon
    have hbefore : update plc.isExec id false id' = true := h id' hon
    by_cases hid : id' = id
    · rw [hid, update_self] at hbefore
      cases hbefore
    · rwa [update_of_ne hid] at hbefore

/-- The clean-up of the subroutines called with `room` levels left passes if their calls fit. -/
def SubsPass (t : CompState) (u : Ucode) (room : Nat)
    (sub : Nat → Plc → Except PlcErr Unit × Plc) : Prop :=
  ∀ id (plc : Plc), maxSbrNestedLayer - plc.sbrNestedNum + 1 = room → id ≤ maxSbrCount →
    (∀ q ∈ (t.sbrList id).comp, CallFits t u plc.isExec (maxSbrNestedLayer - plc.sbrNestedNum) q) →
    (sub id plc).1 = .ok ()

theorem cleanCall_ok {room : Nat} (hsub : SubsPass t u room sub) (plc : Plc)
    (hroom : room = maxSbrNestedLayer - plc.sbrNestedNum)
    (hcall : ComplexIns.ofCode (u.getPU16 q) = some .call)
    (hknown : ∃ id, plcGetCallInsId t q = some id) (hfits : CallFits t u plc.isExec room q) :
    (cleanCall t u sub plc q).1 = .ok () := by
  cases room with
  | zero => exact absurd hcall hfits
  | succ r =>
    obtain ⟨id, hid⟩ := hknown
    have hlevel : ¬ maxSbrNestedLayer ≤ plc.sbrNestedNum := by omega
    rw [cleanCall, hid]
    dsimp only
    rw [if_neg hlevel]
    split
    · rename_i hon
      obtain ⟨hcount, hcomp⟩ := hfits hcall id hid hon
      apply hsub
      · show maxSbrNestedLayer - (plc.sbrNestedNum + 1) + 1 = r + 1
        omega
      · exact hcount
      · intro q' hq'
        have hnext : maxSbrNestedLayer - (plc.sbrNestedNum + 1) = r := by omega
        show CallFits t u (update plc.isExec id false)
          (maxSbrNestedLayer - (plc.sbrNestedNum + 1)) q'
        rw [hnext]
        apply (hcomp q' hq').mono
        intro id' hon'
        by_cases hid' : id' = id
        · rw [hid']
          exact hon
        · rwa [update_of_ne hid'] at hon'
    · rfl

theorem cleanComplexList_ok {room : Nat} (hknown : CallsKnown t u ps) (hl : ∀ q ∈ l, q ∈ ps)
    (hsub : SubsPass t u room sub)
    (hcontrol : ∀ id (plc : Plc), plc.SameControl (sub id plc).2)
    (hexec : ∀ id (plc : Plc) i, (sub id plc).2.isExec i = true → plc.isExec i = true) (plc : Plc)
    (hroom : room = maxSbrNestedLayer - plc.sbrNestedNum)
    (hfits : ∀ q ∈ l, CallFits t u plc.isExec room q) :
    (cleanComplexList out t u now sub l plc).1 = .ok () := by
  induction l generalizing plc with
  | nil => rfl
  | cons p l ih =>
    have hfirst : (cleanComplexIns out t u now sub plc p).1 = .ok () := by
      unfold cleanComplexIns
      split
      · rfl
      · rfl
      · rfl
      · rfl
      · rfl
      · rename_i hcall
        exact cleanCall_ok hsub plc hroom hcall (hknown p (hl p mem_cons_self) hcall)
          (hfits p mem_cons_self)
      · rfl
    have hlevel : (cleanComplexIns out t u now sub plc p).2.sbrNestedNum = plc.sbrNestedNum :=
      (cleanRelation_sameControl.cleanComplexIns hcontrol plc p).sbrNestedNum
    have hless : ∀ i, (cleanComplexIns out t u now sub plc p).2.isExec i = true →
        plc.isExec i = true := cleanRelation_isExec.cleanComplexIns hexec plc p
    rw [cleanComplexList]
    split
    · rename_i plc' heq
      rw [heq] at hlevel hless
      apply ih (fun q hq => hl q (mem_cons_of_mem p hq)) plc'
      · rw [hlevel, hroom]
      · intro q hq
        exact (hfits q (mem_cons_of_mem p hq)).mono hless
    · rename_i e plc' heq
      rw [heq] at hfirst
      cases hfirst

theorem plcCallInsCleanElement_ok (hknown : CallsKnown t u ps) (ht : SbrListsWithin u ps t)
    (room : Nat) :
    SubsPass t u (room + 1) (plcCallInsCleanElement out t u now room) := by
  induction room with
  | zero =>
    intro id plc hlevel hid hfits
    rw [plcCallInsCleanElement, if_neg (Nat.not_lt.mpr hid)]
    have hzero : maxSbrNestedLayer - plc.sbrNestedNum = 0 := by omega
    rw [hzero] at hfits
    have hnone : SubsPass t u 0 fun _ plc => (.error .overSbrStack, plc) := by
      intro id plc hlevel
      omega
    refine cleanComplexList_ok hknown (fun q hq => (ht.inside id q (.inr hq)).1) hnone ?_ ?_ _
      hzero.symm hfits
    · exact fun _ plc => .refl plc
    · exact fun _ _ _ hon => hon
  | succ room ih =>
    intro id plc hlevel hid hfits
    rw [plcCallInsCleanElement, if_neg (Nat.not_lt.mpr hid)]
    have hroom : maxSbrNestedLayer - plc.sbrNestedNum = room + 1 := by omega
    rw [hroom] at hfits
    refine cleanComplexList_ok hknown (fun q hq => (ht.inside id q (.inr hq)).1) ih ?_ ?_ _
      hroom.symm hfits
    · exact cleanRelation_sameControl.plcCallInsCleanElement room
    · exact cleanRelation_isExec.plcCallInsCleanElement room

theorem cleanLists_ok {l : InsList} (hknown : CallsKnown t u ps) (ht : SbrListsWithin u ps t)
    (plc : Plc) (hl : ∀ q ∈ l.comp, q ∈ ps)
    (hfits : ∀ q ∈ l.comp,
      CallFits t u plc.isExec (maxSbrNestedLayer - plc.sbrNestedNum) q) :
    (cleanLists out t u now outputs (cleanSub out t u now plc) l plc).1 = .ok () := by
  obtain ⟨plc', -, hlevel, hexec, heq⟩ := cleanLists_eq (l := l) plc rfl
  rw [heq]
  have hsub : SubsPass t u (maxSbrNestedLayer - plc.sbrNestedNum) (cleanSub out t u now plc) := by
    cases hroom : maxSbrNestedLayer - plc.sbrNestedNum with
    | zero =>
      intro id plc hlevel
      omega
    | succ room =>
      rw [cleanSub, hroom]
      exact plcCallInsCleanElement_ok hknown ht room
  refine cleanComplexList_ok hknown hl hsub ?_ ?_ plc' ?_ ?_
  · exact cleanRelation_sameControl.plcCallInsCleanElement _
  · exact cleanRelation_isExec.plcCallInsCleanElement _
  · rw [hlevel]
  · rw [hexec]
    exact hfits

end

end Kalyke
