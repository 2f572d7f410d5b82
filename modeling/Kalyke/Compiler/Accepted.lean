-- SUMMARY: The files the compiler accepts, and their instruction boundaries as a list.
import Kalyke.Compiler.Tables
import Kalyke.Compiler.Termination
import Kalyke.Lib.History

/-!
# Accepted Files

A file the compiler accepts has been walked over from its first instruction to its end mark or the
end of the file, without a call of length zero on the way. Its instruction boundaries then are an
increasing list that depends on the file alone.
-/

namespace Kalyke

open List Option History

variable {alloc : Nat → Bool} {u : Ucode} {p q : Nat} {s : CompState} {ps : List Nat}

def boundariesFrom (u : Ucode) : Nat → Nat → List Nat
  | 0, _ => []
  | fuel + 1, p =>
    if BeforeEnd u p then
      match nextPtr u p with
      | some q => p :: boundariesFrom u fuel q
      | none => []
    else []

/-- The addresses of the instructions the compiler moves over. -/
def boundaries (u : Ucode) : List Nat := boundariesFrom u (fileLength u) ucodeStart

/-- The walk has come to the end of the program: the end of the file or the mark `CI_END`. -/
def AtEnd (u : Ucode) (p : Nat) : Prop := ¬ BeforeEnd u p ∨ u.getPU16 p = ciEnd

/-! ## The walk as a list -/

theorem nextPtr_ciEnd (h : u.getPU16 p = ciEnd) : nextPtr u p = none := by
  have hs : ¬ IsSimple u p := not_isSimple_of_le (by rw [h]; decide)
  rw [nextPtr_complex hs .start, plcMoveUcodePtrFromComplexIns, h]
  rfl

theorem boundariesFrom_of_atEnd (h : AtEnd u p) (fuel : Nat) : boundariesFrom u fuel p = [] := by
  cases fuel with
  | zero => rfl
  | succ fuel =>
    rw [boundariesFrom]
    rcases h with h | h
    · rw [if_neg h]
    · rw [nextPtr_ciEnd h]
      split <;> rfl

theorem Walk.boundariesFrom_eq (h : Walk u ps p) (fuel : Nat) :
    boundariesFrom u (fuel + ps.length) ucodeStart = ps ++ boundariesFrom u fuel p := by
  induction h generalizing fuel with
  | start => rfl
  | @next ps p q hwalk hend hnext hpast ih =>
    rw [length_append, length_singleton, show fuel + (ps.length + 1) =
      (fuel + 1) + ps.length by omega, ih, boundariesFrom, if_pos hend, hnext]
    simp

/-- Without calls of length zero the boundaries passed are increasing, and all before the
pointer. -/
theorem Walk.pairwise (h : Walk u ps p) (hcall : ∀ q ∈ ps, ¬ ZeroLengthCall u q) :
    ps.Pairwise (· < ·) ∧ ∀ q ∈ ps, q < p := by
  induction h with
  | start => simp
  | @next ps p q hwalk hend hnext hpast ih =>
    obtain ⟨hps, hlt⟩ := ih fun r hr => hcall r (by simp [hr])
    have hpq := lt_of_nextPtr hnext (hcall p (by simp))
    refine ⟨pairwise_snoc hps hlt, fun r hr => ?_⟩
    rcases mem_append.mp hr with hr | hr
    · exact (hlt r hr).trans hpq
    · rwa [mem_singleton.mp hr]

theorem Walk.length_le (h : Walk u ps p) (hcall : ∀ q ∈ ps, ¬ ZeroLengthCall u q) :
    ps.length + ucodeStart ≤ p ∧ (ps ≠ [] → ¬ PastEnd u p) := by
  induction h with
  | start => simp
  | @next ps p q hwalk hend hnext hpast ih =>
    obtain ⟨hlen, -⟩ := ih fun r hr => hcall r (by simp [hr])
    have hpq := lt_of_nextPtr hnext (hcall p (by simp))
    refine ⟨?_, fun _ => hpast⟩
    rw [length_append, length_singleton]
    omega

theorem Walk.boundaries_eq (h : Walk u ps p) (hcall : ∀ q ∈ ps, ¬ ZeroLengthCall u q)
    (hend : AtEnd u p) : boundaries u = ps := by
  obtain ⟨hlen, hpast⟩ := h.length_le hcall
  have hle : ps.length ≤ fileLength u := by
    by_cases hnil : ps = []
    · simp [hnil]
    · have := hpast hnil
      unfold PastEnd at this
      omega
  have := h.boundariesFrom_eq (fileLength u - ps.length)
  rwa [boundariesFrom_of_atEnd hend, append_nil, Nat.sub_add_cancel hle] at this

/-! ## Accepted runs -/

theorem compilerIns_ciEnd (alloc : Nat → Bool) (h : u.getPU16 p = ciEnd) (s : CompState) :
    (compilerIns alloc u p s).2 = s := by
  have hs : ¬ IsSimple u p := not_isSimple_of_le (by rw [h]; decide)
  have hdec : ComplexIns.ofCode (u.getPU16 p) = none := by rw [h]; decide
  simp [compilerIns, hs, plcAddInsToComplexList, plcMoveUcodePtrFromComplexIns, hdec]

/-- A pass that leaves with acceptance has come to the end and changes nothing. -/
theorem exit_accepted_iff {t : CompState} :
    compilerLoop alloc u (p, t) = .inr (.accepted s) ↔ AtEnd u p ∧ t = s := by
  constructor
  · intro h
    simp only [compilerLoop] at h
    split at h
    · split at h
      · split at h <;> cases h
      · rename_i e s' heq
        split at h
        · rename_i hcode
          cases h
          exact ⟨.inr hcode.2, by rw [← compilerIns_ciEnd alloc hcode.2 t, heq]⟩
        · cases h
    · rename_i hend
      cases h
      exact ⟨.inl hend, rfl⟩
  · rintro ⟨hend, rfl⟩
    simp only [compilerLoop]
    split
    · rename_i hbefore
      have hcode := hend.resolve_left (not_not.mpr hbefore)
      have hs : ¬ IsSimple u p := not_isSimple_of_le (by rw [hcode]; decide)
      rcases hres : compilerIns alloc u p t with ⟨e | q, t'⟩
      · obtain rfl : t' = t := by
          rw [← compilerIns_ciEnd alloc hcode t, hres]
        simp [hs, hcode]
      · have hnext := nextPtr_of_compilerIns hres
        rw [nextPtr_ciEnd hcode] at hnext
        cases hnext
    · rfl

/-- The tables of a file that is accepted after at most `fuel` passes. -/
def tablesOf (u : Ucode) (fuel : Nat) : CompState :=
  match plcCompilerUcode enoughMemory u fuel with
  | some (.accepted s) => s
  | _ => .start

theorem accepts_tablesOf {fuel : Nat}
    (h : ∃ s, plcCompilerUcode enoughMemory u fuel = some (.accepted s)) :
    Accepts enoughMemory u (tablesOf u fuel) := by
  obtain ⟨s, hs⟩ := h
  rw [tablesOf, hs]
  exact ⟨fuel, hs⟩

theorem Accepts.reaches (h : Accepts alloc u s) : ∃ p, CompilerReaches alloc u p s ∧ AtEnd u p := by
  obtain ⟨⟨p, t⟩, hreach, hexit⟩ := WhileLoop.returns_iff.mp h
  obtain ⟨hend, rfl⟩ := exit_accepted_iff.mp hexit
  exact ⟨p, hreach, hend⟩

theorem Accepts.not_zeroLengthCall {t : CompState} (h : Accepts alloc u s)
    (hreach : CompilerReaches alloc u q t) (hend : BeforeEnd u q) : ¬ ZeroLengthCall u q := by
  rintro ⟨hcode, hzero⟩
  have hnext := nextPtr_call hcode
  rw [hzero, Nat.add_zero] at hnext
  obtain ⟨⟨p, t'⟩, hreach', hexit⟩ :=
    WhileLoop.returns_iff.mp ((WhileLoop.returns_iff_of_reaches hreach).mp h)
  have hp : p = q := by
    refine WhileLoop.Reaches.invariant (I := fun c => c.1 = q) ?_ hreach' rfl
    rintro ⟨p, s⟩ ⟨r, s'⟩ rfl hstep
    obtain ⟨-, hins, -⟩ := step_iff.mp hstep
    exact (some.inj ((nextPtr_of_compilerIns hins).symm.trans hnext))
  subst hp
  obtain ⟨hat, -⟩ := exit_accepted_iff.mp hexit
  rcases hat with hat | hat
  · exact hat hend
  · rw [hcode] at hat
    cases hat

/-- Induction along an accepted run, over the boundaries of its file. -/
theorem Accepts.induction {P : List Nat → CompState → Prop} (h : Accepts alloc u s)
    (start : P [] .start)
    (next : ∀ ps p s q s', (ps ++ [p]).Pairwise (· < ·) → Walk u ps p → BeforeEnd u p →
      compilerIns alloc u p s = (.ok q, s') → P ps s → P (ps ++ [p]) s') :
    (boundaries u).Pairwise (· < ·) ∧ P (boundaries u) s := by
  obtain ⟨p, hreach, hend⟩ := h.reaches
  obtain ⟨ps, hwalk, hcall, hP⟩ := hreach.induction
    (P := fun ps s => (∀ q ∈ ps, ¬ ZeroLengthCall u q) ∧ P ps s) ⟨by simp, start⟩ <| by
      rintro ps p s q s' hwalk hreach hend hins ⟨hcall, hP⟩
      have hcall' : ∀ q ∈ ps ++ [p], ¬ ZeroLengthCall u q := by
        intro q hq
        rcases mem_append.mp hq with hq | hq
        · exact hcall q hq
        · rw [mem_singleton.mp hq]
          exact h.not_zeroLengthCall hreach hend
      obtain ⟨hps, hlt⟩ := hwalk.pairwise hcall
      exact ⟨hcall', next ps p s q s' (pairwise_snoc hps hlt) hwalk hend hins hP⟩
  rw [hwalk.boundaries_eq hcall hend]
  exact ⟨(hwalk.pairwise hcall).1, hP⟩

/-! ## Visited boundaries -/

theorem Walk.start_eq_or_mem (h : Walk u ps p) : ucodeStart = p ∨ ucodeStart ∈ ps := by
  induction h with
  | start => exact .inl rfl
  | next hwalk hend hnext hpast ih =>
    refine .inr (mem_append.mpr ?_)
    rcases ih with rfl | ih
    · exact .inr (by simp)
    · exact .inl ih

theorem Walk.next_eq_or_mem (h : Walk u ps p) {a b : Nat} (ha : a ∈ ps)
    (hnext : nextPtr u a = some b) : b = p ∨ b ∈ ps := by
  induction h with
  | start => cases ha
  | @next ps p q hwalk hend hnext' hpast ih =>
    rcases mem_append.mp ha with ha | ha
    · refine .inr (mem_append.mpr ?_)
      rcases ih ha with rfl | hb
      · exact .inr (by simp)
      · exact .inl hb
    · rw [mem_singleton.mp ha, hnext'] at hnext
      exact .inl (some.inj hnext).symm

/-- A walk that has come to the end has met every point a walk can come to. -/
theorem Walk.eq_or_mem {e : Nat} {qs : List Nat} (h : Walk u ps p) (he : Walk u qs e)
    (hend : AtEnd u e) : p = e ∨ p ∈ qs := by
  induction h with
  | start => exact he.start_eq_or_mem
  | @next ps p q hwalk hbefore hnext hpast ih =>
    rcases ih with rfl | hmem
    · rcases hend with hend | hend
      · exact absurd hbefore hend
      · rw [nextPtr_ciEnd hend] at hnext
        cases hnext
    · exact he.next_eq_or_mem hmem hnext

theorem Walk.visited_of_mem (h : Walk u ps p) : ∀ q ∈ ps, Visited u q ∧
    ∃ r, nextPtr u q = some r ∧ ¬ PastEnd u r := by
  induction h with
  | start => simp
  | @next ps p q hwalk hend hnext hpast ih =>
    intro r hr
    rcases mem_append.mp hr with hr | hr
    · exact ih r hr
    · rw [mem_singleton.mp hr]
      exact ⟨⟨ps, hwalk, hend⟩, q, hnext, hpast⟩

theorem Accepts.walk (h : Accepts alloc u s) : ∃ e, Walk u (boundaries u) e ∧ AtEnd u e ∧
    ∀ q ∈ boundaries u, ¬ ZeroLengthCall u q := by
  obtain ⟨e, hreach, hend⟩ := h.reaches
  obtain ⟨ps, hwalk, hcall⟩ := hreach.induction
    (P := fun ps _ => ∀ q ∈ ps, ¬ ZeroLengthCall u q) (by simp) <| by
      intro ps p s q s' hwalk hreach hend hins hcall q hq
      rcases mem_append.mp hq with hq | hq
      · exact hcall q hq
      · rw [mem_singleton.mp hq]
        exact h.not_zeroLengthCall hreach hend
  rw [hwalk.boundaries_eq hcall hend]
  exact ⟨e, hwalk, hend, hcall⟩

/-- In an accepted file a visited boundary holds the end mark or an instruction the compiler moved
over. -/
theorem Accepts.mem_or_ciEnd (h : Accepts alloc u s) (hp : Visited u p) :
    p ∈ boundaries u ∨ u.getPU16 p = ciEnd := by
  obtain ⟨e, hwalk, hend, -⟩ := h.walk
  obtain ⟨ps, hp, hbefore⟩ := hp
  rcases hp.eq_or_mem hwalk hend with rfl | hmem
  · exact .inr (hend.resolve_left (not_not.mpr hbefore))
  · exact .inl hmem

/-- From a boundary of an accepted file the compiler goes on, and to a visited boundary unless the
file ends there. -/
theorem Accepts.nextPtr_of_mem (h : Accepts alloc u s) (hp : p ∈ boundaries u) :
    ∃ q, nextPtr u p = some q ∧ (BeforeEnd u q → Visited u q) := by
  obtain ⟨e, hwalk, -, -⟩ := h.walk
  obtain ⟨⟨ps, hps, hbefore⟩, q, hnext, hpast⟩ := hwalk.visited_of_mem p hp
  exact ⟨q, hnext, fun hq => ⟨ps ++ [p], .next hps hbefore hnext hpast, hq⟩⟩

theorem Accepts.indicesInRange (h : Accepts alloc u s)
    (hall : ∀ p ∈ boundaries u, ∀ x,
      storeAt u (before (boundaries u) p) p = some x → x.InTable) : IndicesInRange u := by
  intro ps p hwalk hbefore x hx
  obtain ⟨e, hlast, hend, hcall⟩ := h.walk
  have hmark : mark u p ≠ .plain := by
    intro hplain
    rw [storeAt, hplain] at hx
    cases hx
  obtain ⟨q, hnext⟩ := isSome_iff_exists.mp (nextPtr_isSome_of_mark hmark)
  -- The walk to the end goes through `p`.
  have hsplit : boundaries u = ps ++ boundariesFrom u ((boundaries u).length + 1) p := by
    have hfirst := hwalk.boundariesFrom_eq ((boundaries u).length + 1)
    have hwhole := hlast.boundariesFrom_eq (ps.length + 1)
    rw [boundariesFrom_of_atEnd hend, append_nil] at hwhole
    have hsame : (boundaries u).length + 1 + ps.length = ps.length + 1 + (boundaries u).length := by
      omega
    rw [← hfirst, hsame, hwhole]
  rw [boundariesFrom, if_pos hbefore, hnext] at hsplit
  have hlt : ∀ y ∈ ps, y < p := by
    have hpairs := (hlast.pairwise hcall).1
    rw [hsplit] at hpairs
    exact fun y hy => (pairwise_append.mp hpairs).2.2 y hy p mem_cons_self
  have hpast : before (boundaries u) p = ps := by
    rw [hsplit, before, takeWhile_append_of_pos (by simpa using hlt)]
    simp
  refine hall p ?_ x ?_
  · rw [hsplit]
    exact mem_append_right _ mem_cons_self
  · rw [hpast]
    exact hx

/-! ## Calls -/

theorem applyMark_ucodeAddr {m : Mark} {i a : Nat} (hi : i < s.useNum) (ha : s.ucodeAddr i = a) :
    i < (s.applyMark p m).useNum ∧ (s.applyMark p m).ucodeAddr i = a := by
  cases m with
  | call =>
    refine ⟨Nat.lt_succ_of_lt hi, ?_⟩
    exact (Function.update_of_ne (Nat.ne_of_lt hi) _ _).trans ha
  | _ => exact ⟨hi, ha⟩

/-- Every call of an accepted file is in the table of calls. -/
theorem Accepts.call_mem (h : Accepts alloc u s) (hp : p ∈ boundaries u)
    (hcode : u.getPU16 p = ComplexIns.code .call) : ∃ i < s.useNum, s.ucodeAddr i = p := by
  suffices hall : ∀ q ∈ boundaries u, mark u q = .call → ∃ i < s.useNum, s.ucodeAddr i = q by
    refine hall p hp ?_
    rw [mark, if_neg (not_isSimple_of_code hcode), hcode]
    rfl
  refine (h.induction (P := fun ps s => ∀ q ∈ ps, mark u q = .call →
    ∃ i < s.useNum, s.ucodeAddr i = q) (by simp) ?_).2
  intro ps p s q s' hps hwalk hend hins ih r hr hmark
  obtain ⟨_, _, _, _, hrec⟩ := recorded_onlyLists alloc u p s
  rw [compilerIns_ok hins, hrec]
  rcases mem_append.mp hr with hr | hr
  · obtain ⟨i, hi, ha⟩ := ih r hr hmark
    exact ⟨i, applyMark_ucodeAddr hi ha⟩
  · rw [mem_singleton.mp hr] at hmark ⊢
    rw [hmark]
    exact ⟨s.useNum, Nat.lt_succ_self _, Function.update_self _ _ _⟩

end Kalyke
