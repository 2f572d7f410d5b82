-- SUMMARY: When the compile loop ends, and how far past the end of the file it can get.
import Kalyke.Compiler.Walk

/-!
# Termination of the Compiler

Every pass of the compile loop moves its pointer forward, with one exception: the length of a `CALL`
is a sum taken modulo `2 ^ 16`, and a call whose length comes out as zero keeps the loop where it
is. The scan for consecutive steps always ends, but it does not look at the end of the file.
-/

namespace Kalyke

open Option

variable {alloc : Nat → Bool} {u : Ucode} {p q : Nat} {s s' : CompState} {ps : List Nat}

/-- A `CALL` whose length comes out as zero. -/
def ZeroLengthCall (u : Ucode) (p : Nat) : Prop :=
  u.getPU16 p = ComplexIns.call.code ∧ plcCallInstructionLength u p = 0

/-- The words at `p`, `p + 10`, …, `p + 10 * k` are all step instructions. -/
def StlChain (u : Ucode) (p k : Nat) : Prop :=
  ∀ i, i ≤ k → u.getPU16 (p + 10 * i) = ComplexIns.stl.code

/-- The length of the last single instruction of what one pass moves over: consecutive steps are
moved over together, ten bytes each. -/
def lastInsLength (u : Ucode) (p q : Nat) : Nat :=
  if u.getPU16 p = ComplexIns.stl.code then 10 else q - p

/-! ## The scan over consecutive steps -/

theorem stlScan_pos (fuel p : Nat) : 0 < stlScan u fuel p := by
  cases fuel with
  | zero => exact Nat.one_pos
  | succ fuel => rw [stlScan]; split <;> omega

/-- The scan goes over step instructions only. -/
theorem stlScan_steps {fuel i : Nat} (hpos : 0 < i) (hi : i < stlScan u fuel p) :
    u.getPU16 (p + 10 * i) = ComplexIns.stl.code := by
  induction fuel generalizing p i with
  | zero => simp only [stlScan] at hi; omega
  | succ fuel ih =>
    rw [stlScan] at hi
    split at hi
    · rename_i hstl
      obtain rfl | hlt : i = 1 ∨ 1 < i := by omega
      · simpa using hstl
      · have := ih (p := p + 10) (i := i - 1) (by omega) (by omega)
        rwa [show p + 10 + 10 * (i - 1) = p + 10 * i by omega] at this
    · omega

/-- The scan stops at a word that is no step, if the memory is not longer than its fuel. -/
theorem stlScan_stops {fuel : Nat} (hfuel : u.length ≤ fuel + p) :
    u.getPU16 (p + 10 * stlScan u fuel p) ≠ ComplexIns.stl.code := by
  induction fuel generalizing p with
  | zero =>
    intro h
    have hne : u.getPU16 (p + 10 * stlScan u 0 p) ≠ 0 := by rw [h]; decide
    have := Ucode.lt_length_of_getPU16_ne_zero hne
    simp only [stlScan] at this
    omega
  | succ fuel ih =>
    rw [stlScan]
    split
    · have := ih (p := p + 10) (by omega)
      rwa [show p + 10 + 10 * stlScan u fuel (p + 10) = p + 10 * (stlScan u fuel (p + 10) + 1) by
        omega] at this
    · rename_i hstl
      simpa using hstl

theorem stlRun_pos : 0 < stlRun u p := stlScan_pos _ _

/-- The inner loop ends at the first word that is no step instruction. -/
theorem stlRun_stops : u.getPU16 (p + 10 * stlRun u p) ≠ ComplexIns.stl.code :=
  stlScan_stops (by omega)

theorem stlChain_iff (hstl : u.getPU16 p = ComplexIns.stl.code) {k : Nat} :
    StlChain u p k ↔ k < stlRun u p := by
  constructor
  · intro hchain
    by_contra hge
    exact stlRun_stops (hchain (stlRun u p) (by omega))
  · intro hk i hi
    obtain rfl | hpos := Nat.eq_zero_or_pos i
    · simpa using hstl
    · exact stlScan_steps hpos (by omega : i < stlRun u p)

/-! ## One instruction -/

theorem not_isSimple_of_le (h : 0xF000 ≤ u.getPU16 p) : ¬ IsSimple u p := by
  have := Ucode.getPU16_div (u := u) (p := p)
  unfold IsSimple siMaxIns
  omega

theorem not_isSimple_of_code {i : ComplexIns} (h : u.getPU16 p = i.code) : ¬ IsSimple u p :=
  not_isSimple_of_le (h ▸ i.le_code)

theorem SimpleIns.moveLength_pos (i : SimpleIns) : 0 < i.moveLength := by
  cases i <;> simp only [SimpleIns.moveLength] <;> (try split) <;> omega

theorem DataIns.moveLength_pos (d : DataIns) : 0 < d.moveLength := by
  cases d <;> decide

theorem CmpWidth.moveLength_pos (w : CmpWidth) : 0 < w.moveLength := by
  cases w <;> decide

theorem straddMoveLength_pos : 0 < straddMoveLength u p := by
  unfold straddMoveLength
  dsimp only
  split <;> split <;> omega

theorem strinstrMoveLength_pos : 0 < strinstrMoveLength u p := by
  unfold strinstrMoveLength
  split <;> omega

theorem strmovMoveLength_pos : 0 < strmovMoveLength u p := by
  unfold strmovMoveLength
  split <;> omega

theorem nextPtr_call (h : u.getPU16 p = ComplexIns.call.code) :
    nextPtr u p = some (p + plcCallInstructionLength u p) := by
  rw [nextPtr_complex (not_isSimple_of_code h) .start, plcMoveUcodePtrFromComplexIns, h]
  rfl

theorem nextPtr_stl (h : u.getPU16 p = ComplexIns.stl.code) :
    nextPtr u p = some (p + 10 * stlRun u p) := by
  rw [nextPtr_complex (not_isSimple_of_code h) .start, plcMoveUcodePtrFromComplexIns, h]
  rfl

theorem ComplexIns.moveLength_pos {i : ComplexIns} {n : Nat} (h : i.moveLength u p = some n)
    (hcall : i = call → plcCallInstructionLength u p ≠ 0) : 0 < n := by
  cases i with
  | call =>
    have := hcall rfl
    simp only [moveLength, some.injEq] at h
    omega
  | stl =>
    have := stlRun_pos (u := u) (p := p)
    simp only [moveLength, some.injEq] at h
    omega
  | compare w k r => exact some.inj h ▸ w.moveLength_pos
  | data d => exact some.inj h ▸ d.moveLength_pos
  | stradd => exact some.inj h ▸ straddMoveLength_pos
  | strinstr => exact some.inj h ▸ strinstrMoveLength_pos
  | strmov => exact some.inj h ▸ strmovMoveLength_pos
  | continue_ | break_ => cases h
  | _ => exact some.inj h ▸ by decide

/-- Every instruction moves the pointer forward, but for a call of length zero. -/
theorem lt_of_nextPtr (hnext : nextPtr u p = some q) (hcall : ¬ ZeroLengthCall u p) : p < q := by
  by_cases hs : IsSimple u p
  · obtain ⟨i, -, rfl⟩ := exists_of_nextPtr_simple hs hnext
    have := i.moveLength_pos
    omega
  · obtain ⟨i, n, hdec, hlen, rfl⟩ := exists_of_nextPtr_complex hs hnext
    have hpos : 0 < n := by
      refine ComplexIns.moveLength_pos hlen ?_
      rintro rfl hzero
      exact hcall ⟨(ComplexIns.code_of_ofCode hdec).symm, hzero⟩
    omega

/-- Apart from consecutive steps, one pass goes over one instruction only. -/
theorem overshoot_iff (hend : BeforeEnd u p) (hnext : nextPtr u p = some q) :
    q + 4 ≤ fileLength u + lastInsLength u p q ↔
      ∀ k, StlChain u p k → ¬ PastEnd u (p + 10 * k) := by
  unfold BeforeEnd at hend
  unfold PastEnd lastInsLength
  split
  · rename_i hstl
    obtain rfl : p + 10 * stlRun u p = q := some.inj ((nextPtr_stl hstl).symm.trans hnext)
    have hpos := stlRun_pos (u := u) (p := p)
    constructor
    · intro hle k hchain
      have hk := (stlChain_iff hstl).mp hchain
      omega
    · intro hall
      have := hall (stlRun u p - 1) ((stlChain_iff hstl).mpr (by omega))
      omega
  · rename_i hstl
    constructor
    · intro _ k hchain
      exact absurd (hchain 0 (Nat.zero_le k)) hstl
    · intro _
      omega

/-! ## The loop -/

/-- What the termination of `plc_compiler_ucode` comes to: the loop and its inner scan end, every
pass that goes on moves the pointer forward, and no pass moves it past the end of the file by more
than one instruction. -/
structure Terminating (alloc : Nat → Bool) (u : Ucode) : Prop where
  ends : (compilerLoop alloc u).Terminates (ucodeStart, .start)
  scanEnds : ∀ p, u.getPU16 (p + 10 * stlRun u p) ≠ ComplexIns.stl.code
  forward : ∀ p s q s', CompilerReaches alloc u p s →
    (compilerLoop alloc u).Step (p, s) (q, s') → p < q
  overshoot : ∀ p s q s', CompilerReaches alloc u p s → BeforeEnd u p →
    compilerIns alloc u p s = (.ok q, s') → q + 4 ≤ fileLength u + lastInsLength u p q

theorem forward_of_no_zeroLengthCall (hcall : ∀ p, Visited u p → ¬ ZeroLengthCall u p)
    (hreach : CompilerReaches alloc u p s) (hstep : (compilerLoop alloc u).Step (p, s) (q, s')) :
    p < q ∧ ¬ PastEnd u q := by
  obtain ⟨ps, hwalk⟩ := hreach.walk
  obtain ⟨hend, heq, hpast⟩ := step_iff.mp hstep
  exact ⟨lt_of_nextPtr (nextPtr_of_compilerIns heq) (hcall p ⟨ps, hwalk, hend⟩), hpast⟩

/-- The compiler terminates on a file in the sense of `Terminating`, however much memory there is,
exactly if no visited call has length zero and no visited run of steps goes on past the end. -/
theorem compiler_terminating_iff (u : Ucode) :
    (∀ alloc, Terminating alloc u) ↔
      ∀ p, Visited u p →
        ¬ ZeroLengthCall u p ∧ ∀ k, StlChain u p k → ¬ PastEnd u (p + 10 * k) := by
  constructor
  · rintro hterm p ⟨ps, hwalk, hend⟩
    have hreach := hwalk.compilerReaches
    have ht := hterm enoughMemory
    constructor
    · rintro ⟨hcode, hzero⟩
      have hnext := nextPtr_call hcode
      rw [hzero, Nat.add_zero] at hnext
      have hpast : ¬ PastEnd u p := by
        unfold BeforeEnd at hend
        unfold PastEnd
        omega
      obtain ⟨s', hins⟩ := compilerIns_of_nextPtr hnext (tablesAfter enoughMemory u ps)
      have hstep := step_iff.mpr ⟨hend, hins, hpast⟩
      exact absurd (ht.forward _ _ _ _ hreach hstep) (Nat.lt_irrefl p)
    · intro k hchain
      have hnext := nextPtr_stl (hchain 0 (Nat.zero_le k))
      obtain ⟨s', hins⟩ := compilerIns_of_nextPtr hnext (tablesAfter enoughMemory u ps)
      have hover := ht.overshoot _ _ _ _ hreach hend hins
      exact (overshoot_iff hend hnext).mp hover k hchain
  · intro hcond alloc
    have hcall : ∀ p, Visited u p → ¬ ZeroLengthCall u p := fun p hp => (hcond p hp).1
    refine ⟨?_, fun p => stlRun_stops, ?_, ?_⟩
    · -- the distance to the end of the file goes down with every pass
      refine WhileLoop.terminates_of_measure (fun c => fileLength u - c.1) ?_
      rintro ⟨p, s⟩ ⟨q, s'⟩ hreach hstep
      obtain ⟨hlt, hpast⟩ := forward_of_no_zeroLengthCall hcall hreach hstep
      unfold PastEnd at hpast
      dsimp only
      omega
    · intro p s q s' hreach hstep
      exact (forward_of_no_zeroLengthCall hcall hreach hstep).1
    · intro p s q s' hreach hend hins
      obtain ⟨ps, hwalk⟩ := hreach.walk
      refine (overshoot_iff hend (nextPtr_of_compilerIns hins)).mpr ?_
      exact (hcond p ⟨ps, hwalk, hend⟩).2

/-- A file with one `CALL`, whose three section lengths add up to `2 ^ 16 - 10`. -/
def zeroCallFile : Ucode :=
  [0, 0, 0, 0, 0, 0, 42, 0, 0, 0] ++ List.replicate 18 0 ++
    [0x21, 0xF0, 0, 1, 0xF6, 0xFF, 0, 0, 0, 0] ++ List.replicate 4 0

/-- The compile loop never ends on `zeroCallFile`: it passes over the call again and again. -/
theorem compiler_diverges_on_zeroCallFile :
    ¬ (compilerLoop enoughMemory zeroCallFile).Terminates (ucodeStart, .start) := by
  refine WhileLoop.not_terminates_of_trap (T := fun c => c.1 = ucodeStart) ?_ .refl rfl
  rintro ⟨p, s⟩ rfl
  have hnext : nextPtr zeroCallFile ucodeStart = some ucodeStart :=
    nextPtr_call (by decide)
  obtain ⟨s', hins⟩ := compilerIns_of_nextPtr hnext s
  exact ⟨(ucodeStart, s'), step_iff.mpr ⟨by decide, hins, by decide⟩, rfl⟩

end Kalyke
