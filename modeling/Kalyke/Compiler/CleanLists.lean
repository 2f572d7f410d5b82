-- SUMMARY: The invariant of the clean-up lists, and the condition under which they are right.
import Kalyke.Compiler.Accepted
import Kalyke.Compiler.Recording
import Mathlib.Data.List.Nodup

/-!
# The Clean-up Lists

`Follows` is the invariant of the compile loop: which instructions stand in which list, as a
reading of the program passed so far. Comparing it with the lists that the blocks ought to have
leaves the condition `FlagFollowsBlocks` on the program.
-/

namespace Kalyke

open List Function Option History

variable {alloc : Nat → Bool} {u : Ucode} {p q a n : Nat} {s s' t : CompState} {ps : List Nat}
  {k : BlockKind}

/-- The compiler's variables and lists, as a reading of the instructions at `ps`. -/
structure Follows (u : Ucode) (ps : List Nat) (s : CompState) : Prop where
  level : s.nestedLevel = (openMc u ps).length
  flag : s.flag = flagAfter u ps
  ptr : ∀ k, s.ptrOf k = (openBlock u k ps).map Prod.snd
  lists : ∀ k n, s.listOf k n = (lastOpened u k n ps).elim .init (recordedList u k ps)
  mcPtr : ∀ i, i < (openMc u ps).length →
    (mcOpeners u ps)[s.mcListPtr i]? = (openMc u ps).reverse[i]?
  mcBlocks : s.mcBlocks = (mcOpeners u ps).map fun a => ⟨a, recordedMcList u ps a⟩

/-! ## The open blocks in the text -/

theorem lastOpened_snoc : lastOpened u k n (ps ++ [p]) =
    if k.opens (mark u p) = some n then some p else lastOpened u k n ps := by
  unfold lastOpened
  by_cases h : k.opens (mark u p) = some n <;> simp [h]

theorem lastOpened_of_openBlock (h : openBlock u k ps = some (a, n)) :
    lastOpened u k n ps = some a := by
  induction ps using reverseRecOn with
  | nil => cases h
  | append_singleton ps p ih =>
    rw [openBlock_snoc, openStep] at h
    rw [lastOpened_snoc]
    split at h
    · rename_i m hm
      cases h
      rw [if_pos hm]
    · rename_i hm
      split at h
      · cases h
      · rw [if_neg (by simp [hm]), ih h]

theorem lastOpened_spec (h : lastOpened u k n ps = some a) :
    a ∈ ps ∧ k.opens (mark u a) = some n := by
  have := mem_of_getLast? h
  simpa using this

theorem inBlock_iff {pre : List Nat} :
    inBlock u k a pre = true ↔ ∃ n, openBlock u k pre = some (a, n) := by
  unfold inBlock
  cases openBlock u k pre with
  | none => simp
  | some b =>
    obtain ⟨a', n⟩ := b
    simp only [any_some, beq_iff_eq, some.injEq, Prod.mk.injEq, exists_and_left,
      exists_eq', and_true]

/-- The open master-control blocks are among the `MC` instructions, later ones first. -/
theorem openMc_spec (hps : ps.Pairwise (· < ·)) :
    (openMc u ps).Pairwise (· > ·) ∧ ∀ a ∈ openMc u ps, a ∈ mcOpeners u ps := by
  induction ps using reverseRecOn with
  | nil => simp
  | append_singleton ps p ih =>
    obtain ⟨hpair, hmem⟩ := ih (pairwise_of_snoc hps)
    have hlt := lt_of_pairwise_snoc hps
    have hsub : ∀ a ∈ mcOpeners u ps, a ∈ mcOpeners u (ps ++ [p]) := by
      intro a ha
      simp only [mcOpeners, mem_filter, mem_append] at ha ⊢
      exact ⟨.inl ha.1, ha.2⟩
    rw [openMc_snoc, openMcStep]
    split
    · rename_i hm
      refine ⟨pairwise_cons.mpr ⟨fun a ha => ?_, hpair⟩, fun a ha => ?_⟩
      · exact hlt a (mem_filter.mp (hmem a ha)).1
      · rcases mem_cons.mp ha with rfl | ha
        · simp [mcOpeners, hm]
        · exact hsub a (hmem a ha)
    · exact ⟨hpair.tail, fun a ha => hsub a (hmem a (mem_of_mem_tail ha))⟩
    · exact ⟨hpair, fun a ha => hsub a (hmem a ha)⟩

theorem mcOpeners_snoc : mcOpeners u (ps ++ [p]) =
    mcOpeners u ps ++ if mark u p = .mc then [p] else [] := by
  unfold mcOpeners
  by_cases h : mark u p = .mc <;> simp [h]

theorem mcLevel_eq_length : mcLevel u ps = (openMc u ps).length := by
  induction ps using reverseRecOn with
  | nil => rfl
  | append_singleton ps p ih =>
    rw [mcLevel_snoc, openMc_snoc, ih, mcLevelStep, openMcStep]
    cases mark u p <;> simp

theorem recordedList_self (hps : (ps ++ [p]).Pairwise (· < ·)) :
    recordedList u k (ps ++ [p]) p = .init := by
  refine collect_eq_init_iff.mpr fun q hq => ?_
  have hno : inBlock u k p (before (ps ++ [p]) q) = false := by
    refine Bool.eq_false_iff.mpr fun hin => ?_
    obtain ⟨n, hn⟩ := inBlock_iff.mp hin
    have hmem := (mem_before hps).mp (openBlock_spec (pairwise_before hps) hn).1
    rcases mem_append.mp hq with hq | hq
    · exact lt_asymm hmem.2 (lt_of_pairwise_snoc hps q hq)
    · exact lt_irrefl _ (mem_singleton.mp hq ▸ hmem.2)
  simp [hno]

theorem recordedMcList_self (hps : (ps ++ [p]).Pairwise (· < ·)) :
    recordedMcList u (ps ++ [p]) p = .init := by
  refine collect_eq_init_iff.mpr fun q hq => ?_
  have hno : inMc u p (before (ps ++ [p]) q) = false := by
    refine Bool.eq_false_iff.mpr fun hin => ?_
    have hin : p ∈ openMc u (before (ps ++ [p]) q) := by simpa [inMc] using hin
    have hmem := (mem_before hps).mp
      (mem_filter.mp ((openMc_spec (pairwise_before hps)).2 p hin)).1
    rcases mem_append.mp hq with hq | hq
    · exact lt_asymm hmem.2 (lt_of_pairwise_snoc hps q hq)
    · exact lt_irrefl _ (mem_singleton.mp hq ▸ hmem.2)
  simp [hno]

/-! ## The invariant over one instruction -/

/-- The pointers to the open master-control blocks lead to different blocks. -/
theorem Follows.mcPtr_inj (h : Follows u ps s) (hps : ps.Pairwise (· < ·)) {x y : Nat}
    (hx : x < s.nestedLevel) (hy : y < s.nestedLevel) (hxy : s.mcListPtr x = s.mcListPtr y) :
    x = y := by
  rw [h.level] at hx hy
  have hnodup : (openMc u ps).reverse.Nodup :=
    nodup_reverse.mpr ((openMc_spec hps).1.imp fun hab => ne_of_gt hab)
  refine (getElem?_inj (by simpa using hx) hnodup).mp ?_
  rw [← h.mcPtr x hx, ← h.mcPtr y hy, hxy]

/-- A pointer leads to the `j`-th block exactly if that block is open. -/
theorem Follows.mcPtr_iff (h : Follows u ps s) (hps : ps.Pairwise (· < ·)) {j : Nat}
    (hj : (mcOpeners u ps)[j]? = some a) :
    (∃ x, x < s.nestedLevel ∧ s.mcListPtr x = j) ↔ a ∈ openMc u ps := by
  rw [h.level]
  constructor
  · rintro ⟨x, hx, rfl⟩
    rw [h.mcPtr x hx] at hj
    exact mem_reverse.mp (mem_of_getElem? hj)
  · intro ha
    obtain ⟨x, hx⟩ := mem_iff_getElem?.mp (mem_reverse.mpr ha)
    have hlt : x < (openMc u ps).length := by
      simpa using (List.getElem?_eq_some_iff.mp hx).1
    have hnodup : (mcOpeners u ps).Nodup :=
      (hps.sublist filter_sublist).imp fun hab => ne_of_lt hab
    have hptr := h.mcPtr x hlt
    refine ⟨x, hlt, (getElem?_inj ?_ hnodup).mp (by rw [hptr, hx, hj])⟩
    exact (List.getElem?_eq_some_iff.mp (hptr.trans hx)).1

/-- Recording the next instruction brings the lists up to date with it. -/
theorem Follows.recorded_lists (h : Follows u ps s) (hps : (ps ++ [p]).Pairwise (· < ·))
    (hins : compilerIns alloc u p s = (.ok q, s')) (k : BlockKind) (n : Nat) :
    (recorded alloc u p s).listOf k n =
      (lastOpened u k n ps).elim .init (recordedList u k (ps ++ [p])) := by
  have hps' := pairwise_of_snoc hps
  rw [(recorded_spec hins fun x y => h.mcPtr_inj hps').1 k n, h.flag, h.ptr k, h.lists k n]
  cases hlast : lastOpened u k n ps with
  | none =>
    -- a block that is open was opened
    refine if_neg ?_
    rintro ⟨-, -, hptr⟩
    obtain ⟨⟨a, m⟩, hopen, rfl⟩ := map_eq_some_iff.mp hptr
    rw [lastOpened_of_openBlock hopen] at hlast
    cases hlast
  | some a =>
    have hin : (openBlock u k ps).map Prod.snd = some n ↔ inBlock u k a ps = true := by
      rw [inBlock_iff]
      constructor
      · intro hptr
        obtain ⟨⟨b, m⟩, hopen, rfl⟩ := map_eq_some_iff.mp hptr
        rw [lastOpened_of_openBlock hopen] at hlast
        exact ⟨m, some.inj hlast ▸ hopen⟩
      · rintro ⟨m, hopen⟩
        have hm := (openBlock_spec hps' hopen).2.1
        rw [(lastOpened_spec hlast).2] at hm
        rw [hopen, map_some, hm]
    simp only [elim_some, recordedList]
    rw [collect_snoc hps]
    refine if_congr ?_ rfl rfl
    rw [hin, Bool.and_eq_true, Bool.and_eq_true, beq_iff_eq]
    tauto

theorem Follows.recorded_mcBlocks (h : Follows u ps s) (hps : (ps ++ [p]).Pairwise (· < ·))
    (hins : compilerIns alloc u p s = (.ok q, s')) :
    (recorded alloc u p s).mcBlocks =
      (mcOpeners u ps).map fun a => ⟨a, recordedMcList u (ps ++ [p]) a⟩ := by
  have hps' := pairwise_of_snoc hps
  refine ext_getElem? fun j => ?_
  rw [(recorded_spec hins fun x y => h.mcPtr_inj hps').2 j, h.mcBlocks, getElem?_map,
    getElem?_map]
  cases hj : (mcOpeners u ps)[j]? with
  | none => rfl
  | some a =>
    simp only [map_some, some.injEq, h.mcPtr_iff hps' hj, h.flag, recordedMcList]
    rw [collect_snoc hps]
    have hcond : (flagAfter u ps = .mcMcr ∧ recordable u p = true ∧ a ∈ openMc u ps) ↔
        (inMc u a ps && (flagAfter u ps == .mcMcr) && recordable u p) = true := by
      rw [Bool.and_eq_true, Bool.and_eq_true, beq_iff_eq, inMc, contains_iff_mem]
      tauto
    by_cases hc : flagAfter u ps = .mcMcr ∧ recordable u p = true ∧ a ∈ openMc u ps
    · rw [if_pos hc, if_pos (hcond.mp hc)]
    · rw [if_neg hc, if_neg fun h => hc (hcond.mpr h)]

theorem applyMark_listOf (m : Mark) : (s.applyMark p m).listOf k n =
    if k.opens m = some n then .init else s.listOf k n := by
  cases k <;> cases m <;>
    simp [CompState.applyMark, CompState.listOf, BlockKind.opens, CompState.recordCall,
      CompState.enterSbr, CompState.leaveSbr, CompState.recordIntr, CompState.enterMc,
      CompState.storeMc, CompState.leaveMc, CompState.enterStl, CompState.leaveStl,
      update_apply, eq_comm]

theorem applyMark_ptrOf (m : Mark) : (s.applyMark p m).ptrOf k =
    match k.opens m with
    | some n => some n
    | none => if k.closes m then none else s.ptrOf k := by
  cases k <;> cases m <;> rfl

theorem applyMark_mcBlocks (m : Mark) : (s.applyMark p m).mcBlocks =
    s.mcBlocks ++ if m = .mc then [⟨p, .init⟩] else [] := by
  cases m <;> simp [CompState.applyMark, CompState.recordCall, CompState.enterSbr,
    CompState.leaveSbr, CompState.recordIntr, CompState.enterMc, CompState.leaveMc,
    CompState.enterStl, CompState.leaveStl]

theorem applyMark_flag (hlevel : s.nestedLevel = (openMc u ps).length) :
    (s.applyMark p (mark u p)).flag =
      if setsFlag u ps p then (mark u p).flag else s.flag := by
  unfold setsFlag
  cases hm : mark u p with
  | mcr =>
    simp only [CompState.applyMark, CompState.leaveMc, Mark.flag, decide_eq_true_eq]
    by_cases hle : (openMc u ps).length ≤ 1
    · rw [if_pos hle, if_pos (by omega)]
    · rw [if_neg hle, if_neg (by omega)]
  | _ => rfl

/-- The pointers to the lists of the open master-control blocks after an instruction: `MC` adds one
at the end, `MCR` gives the last one up. -/
theorem Follows.mcPtr_next (h : Follows u ps s) {r : CompState}
    (hlevel : r.nestedLevel = (openMc u ps).length) (hptr : r.mcListPtr = s.mcListPtr)
    (hblocks : r.mcBlocks.length = (mcOpeners u ps).length) {i : Nat}
    (hi : i < (openMc u (ps ++ [p])).length) :
    (mcOpeners u (ps ++ [p]))[(r.applyMark p (mark u p)).mcListPtr i]? =
      (openMc u (ps ++ [p])).reverse[i]? := by
  rw [mcOpeners_snoc]
  rw [openMc_snoc, openMcStep] at hi ⊢
  have hold : ∀ i, i < (openMc u ps).length →
      (mcOpeners u ps ++ if mark u p = .mc then [p] else [])[s.mcListPtr i]? =
        (openMc u ps).reverse[i]? := by
    intro i hi
    have hi' := h.mcPtr i hi
    have hrev : i < (openMc u ps).reverse.length := by simpa using hi
    rw [getElem?_eq_getElem hrev] at hi' ⊢
    rw [getElem?_append_left (List.getElem?_eq_some_iff.mp hi').1, hi']
  cases hm : mark u p with
  | mc =>
    simp only [hm, if_true, CompState.applyMark, CompState.enterMc, hlevel, hptr, hblocks,
      reverse_cons, length_cons] at hi hold ⊢
    obtain hlt | rfl : i < (openMc u ps).length ∨ i = (openMc u ps).length := by omega
    · rw [update_of_ne (by omega), hold i hlt,
        getElem?_append_left (by simpa using hlt)]
    · rw [update_self, getElem?_append_right le_rfl,
        getElem?_append_right (by simp)]
      simp
  | mcr =>
    rw [hm] at hold
    simp only [hm, length_tail] at hi
    have hlt : i < (openMc u ps).length := by omega
    have hrev : (openMc u ps).tail.reverse = (openMc u ps).reverse.dropLast := by simp
    have hkept : (r.applyMark p .mcr).mcListPtr i = s.mcListPtr i := by
      rw [← hptr]
      rfl
    rw [hkept, hold i hlt, hrev, getElem?_dropLast]
    simp [hi]
  | _ =>
    rw [hm] at hi hold
    rw [← hold i hi, ← hptr]
    rfl

/-- The invariant holds on after every instruction, as long as the nesting level fits its byte. -/
theorem Follows.next (h : Follows u ps s) (hps : (ps ++ [p]).Pairwise (· < ·))
    (hins : compilerIns alloc u p s = (.ok q, s'))
    (hmc : mark u p = .mc → (openMc u ps).length < 255) : Follows u (ps ++ [p]) s' := by
  have hlists := h.recorded_lists hps hins
  have hblocks := h.recorded_mcBlocks hps hins
  obtain ⟨_, _, _, _, ht⟩ := recorded_onlyLists alloc u p s
  have hlevel : (recorded alloc u p s).nestedLevel = (openMc u ps).length := by
    rw [ht]
    exact h.level
  have hflag : (recorded alloc u p s).flag = flagAfter u ps := by
    rw [ht]
    exact h.flag
  have hptr : ∀ k, (recorded alloc u p s).ptrOf k = (openBlock u k ps).map Prod.snd := by
    intro k
    rw [ht, ← h.ptr k]
    cases k <;> rfl
  have hmcPtr : (recorded alloc u p s).mcListPtr = s.mcListPtr := by rw [ht]
  rw [compilerIns_ok hins]
  refine ⟨?_, ?_, fun k => ?_, fun k n => ?_, fun i hi => ?_, ?_⟩
  · rw [openMc_snoc, openMcStep]
    cases hm : mark u p with
    | mc =>
      have := hmc hm
      simp only [CompState.applyMark, CompState.enterMc, hlevel, length_cons]
      omega
    | mcr => simp [CompState.applyMark, CompState.leaveMc, hlevel]
    | _ => exact hlevel
  · rw [applyMark_flag hlevel, flagAfter_snoc hps, hflag]
  · rw [applyMark_ptrOf, openBlock_snoc, openStep, hptr k]
    cases k.opens (mark u p) with
    | some n => rfl
    | none => cases k.closes (mark u p) <;> rfl
  · rw [applyMark_listOf, lastOpened_snoc, hlists k n]
    split
    · rw [elim_some, recordedList_self hps]
    · rfl
  · exact h.mcPtr_next hlevel hmcPtr (by rw [hblocks, length_map]) hi
  · rw [applyMark_mcBlocks, mcOpeners_snoc, hblocks, map_append]
    split
    · rw [map_singleton, recordedMcList_self hps]
    · rfl

/-! ## The lists of an accepted program -/

theorem Accepts.follows (h : Accepts alloc u s) (hindices : IndicesInRange u) :
    (boundaries u).Pairwise (· < ·) ∧ Follows u (boundaries u) s := by
  refine h.induction ⟨rfl, rfl, fun k => by cases k <;> rfl, fun k n => by cases k <;> rfl,
    fun i hi => absurd hi (by simp), rfl⟩ ?_
  intro ps p s q s' hps hwalk hend hins hfollows
  refine hfollows.next hps hins fun hm => ?_
  have := mcLevel_lt_of_inTable (hindices ps p hwalk hend) hm
  rw [mcLevel_eq_length] at this
  unfold maxMcMcrBlockNumber at this
  omega

/-- At an instruction inside a block, the flag stands for the block exactly if no delimiter in
between has set it. -/
theorem flagKept_iff (hps : ps.Pairwise (· < ·))
    (hopen : openBlock u k (before ps q) = some (a, n)) :
    flagAfter u (before ps q) = k.flag ↔ FlagKept u ps a q := by
  rw [flagAfter_eq_iff (pairwise_before hps) hopen]
  constructor
  · intro h d hd had
    by_contra hdq
    have := h d ((mem_select_before hps).mpr ⟨hd, not_le.mp hdq⟩)
    omega
  · intro h d hd
    obtain ⟨hd, hdq⟩ := (mem_select_before hps).mp hd
    by_contra hda
    have := h d hd (not_le.mp hda)
    omega

theorem mcFlagKept_iff (hps : ps.Pairwise (· < ·)) :
    flagAfter u (before ps q) = .mcMcr ↔
      ∃ a ∈ before ps q, mark u a = .mc ∧ FlagKept u ps a q := by
  rw [flagAfter_eq_mcMcr_iff (pairwise_before hps)]
  refine exists_congr fun a => and_congr_right fun _ => and_congr_right fun _ => ?_
  constructor
  · intro h d hd had
    by_contra hdq
    have := h d ((mem_select_before hps).mpr ⟨hd, not_le.mp hdq⟩)
    omega
  · intro h d hd
    obtain ⟨hd, hdq⟩ := (mem_select_before hps).mp hd
    by_contra hda
    have := h d hd (not_le.mp hda)
    omega

/-- The lists of a numbered block are right exactly if the flag stands for the block at every
clearable instruction in it, and none of these is an output to a local element. -/
theorem recordedList_eq_iff (hps : ps.Pairwise (· < ·)) :
    recordedList u k ps a = blockList u k ps a ↔
      ∀ n, ∀ q ∈ ps, openBlock u k (before ps q) = some (a, n) → clearableIn u k q = true →
        FlagKept u ps a q ∧ isOutLm u q = false := by
  unfold recordedList blockList
  rw [collect_eq_iff]
  · simp only [recordableIn_eq, Bool.and_eq_true, beq_iff_eq, Bool.not_eq_true', and_imp,
      inBlock_iff, forall_exists_index]
    constructor
    · intro h n q hq hopen hclear
      obtain ⟨⟨-, hflag⟩, -, hlm⟩ := h q hq n hopen hclear
      exact ⟨(flagKept_iff hps hopen).mp hflag, hlm⟩
    · intro h q hq n hopen hclear
      obtain ⟨hkept, hlm⟩ := h n q hq hopen hclear
      exact ⟨⟨⟨n, hopen⟩, (flagKept_iff hps hopen).mpr hkept⟩, hclear, hlm⟩
  · intro pre q
    simp only [recordableIn_eq, Bool.and_eq_true]
    exact fun h => ⟨h.1.1, h.2.1⟩

theorem recordedMcList_eq_iff (hps : ps.Pairwise (· < ·)) :
    recordedMcList u ps a = mcList u ps a ↔
      ∀ q ∈ ps, a ∈ openMc u (before ps q) → clearable u q = true →
        (∃ b ∈ before ps q, mark u b = .mc ∧ FlagKept u ps b q) ∧ isOutLm u q = false := by
  unfold recordedMcList mcList
  rw [collect_eq_iff]
  · simp only [recordable_eq, Bool.and_eq_true, beq_iff_eq, Bool.not_eq_true', and_imp, inMc,
      contains_iff_mem]
    constructor
    · intro h q hq hopen hclear
      obtain ⟨⟨-, hflag⟩, -, hlm⟩ := h q hq hopen hclear
      exact ⟨(mcFlagKept_iff hps).mp hflag, hlm⟩
    · intro h q hq hopen hclear
      obtain ⟨hkept, hlm⟩ := h q hq hopen hclear
      exact ⟨⟨hopen, (mcFlagKept_iff hps).mpr hkept⟩, hclear, hlm⟩
  · intro pre q
    simp only [recordable_eq, Bool.and_eq_true]
    exact fun h => ⟨h.1.1, h.2.1⟩

/-- Nothing lies in two blocks of one kind. -/
theorem blockList_disjoint {b : Nat} (hab : a ≠ b)
    (heq : blockList u k ps a = blockList u k ps b) : blockList u k ps a = .init := by
  refine collect_eq_init_of_disjoint heq fun pre q hq => ?_
  simp only [Bool.and_eq_true] at hq
  obtain ⟨n, hn⟩ := inBlock_iff.mp hq.1
  have hno : inBlock u k b pre = false := by
    refine Bool.eq_false_iff.mpr fun hin => ?_
    obtain ⟨m, hm⟩ := inBlock_iff.mp hin
    rw [hn] at hm
    cases hm
    exact hab rfl
  simp [hno]

theorem blockList_eq_init_iff (hps : ps.Pairwise (· < ·)) (ha : k.opens (mark u a) = some n) :
    blockList u k ps a = .init ↔
      ∀ q ∈ ps, openBlock u k (before ps q) = some (a, n) → clearableIn u k q = false := by
  unfold blockList
  rw [collect_eq_init_iff]
  constructor
  · intro h q hq hopen
    have hin := inBlock_iff.mpr ⟨n, hopen⟩
    simpa [hin] using h q hq
  · intro h q hq
    cases hin : inBlock u k a (before ps q) with
    | false => rfl
    | true =>
      obtain ⟨m, hm⟩ := inBlock_iff.mp hin
      have hopens := (openBlock_spec (pairwise_before hps) hm).2.1
      rw [ha] at hopens
      cases hopens
      simp [h q hq hm]

theorem Follows.numbered_iff (h : Follows u ps s) (hps : ps.Pairwise (· < ·)) :
    (∀ k, ∀ a ∈ ps, ∀ n, k.opens (mark u a) = some n → s.listOf k n = blockList u k ps a) ↔
      (∀ k a n, ∀ q ∈ ps, openBlock u k (before ps q) = some (a, n) → clearableIn u k q = true →
        FlagKept u ps a q ∧ isOutLm u q = false) ∧
      ∀ k n, ∀ a ∈ ps, ∀ b ∈ ps, k.opens (mark u a) = some n → k.opens (mark u b) = some n →
        a ≠ b → ∀ q ∈ ps, openBlock u k (before ps q) = some (a, n) →
          clearableIn u k q = false := by
  have hlast : ∀ k n, ∀ a ∈ ps, k.opens (mark u a) = some n →
      ∃ b, lastOpened u k n ps = some b := by
    intro k n a ha hopens
    refine isSome_iff_exists.mp ?_
    simpa [lastOpened] using ⟨a, ha, hopens⟩
  constructor
  · intro hexact
    have honce : ∀ k n, ∀ a ∈ ps, ∀ b ∈ ps, k.opens (mark u a) = some n →
        k.opens (mark u b) = some n → a ≠ b → blockList u k ps a = .init := by
      intro k n a ha b hb hopena hopenb hab
      exact blockList_disjoint hab
        ((hexact k a ha n hopena).symm.trans (hexact k b hb n hopenb))
    refine ⟨fun k a n q hq hopen hclear => ?_, fun k n a ha b hb hopena hopenb hab =>
      (blockList_eq_init_iff hps hopena).mp (honce k n a ha b hb hopena hopenb hab)⟩
    obtain ⟨hbefore, hopens, -⟩ := openBlock_spec (pairwise_before hps) hopen
    have ha := ((mem_before hps).mp hbefore).1
    obtain ⟨b, hb⟩ := hlast k n a ha hopens
    obtain ⟨hbmem, hbopens⟩ := lastOpened_spec hb
    by_cases hab : a = b
    · subst hab
      have hlist := h.lists k n
      rw [hb, elim_some, hexact k a ha n hopens] at hlist
      exact (recordedList_eq_iff hps).mp hlist.symm n q hq hopen hclear
    · -- a block whose number is used again is empty
      have hnil := honce k n a ha b hbmem hopens hbopens hab
      rw [(blockList_eq_init_iff hps hopens).mp hnil q hq hopen] at hclear
      cases hclear
  · rintro ⟨hkept, honce⟩ k a ha n hopens
    obtain ⟨b, hb⟩ := hlast k n a ha hopens
    obtain ⟨hbmem, hbopens⟩ := lastOpened_spec hb
    rw [h.lists k n, hb, elim_some, (recordedList_eq_iff hps).mpr (hkept k b)]
    by_cases hab : a = b
    · rw [hab]
    · rw [(blockList_eq_init_iff hps hbopens).mpr
          (honce k n b hbmem a ha hbopens hopens (Ne.symm hab)),
        (blockList_eq_init_iff hps hopens).mpr (honce k n a ha b hbmem hopens hbopens hab)]

theorem Follows.mc_iff (h : Follows u ps s) (hps : ps.Pairwise (· < ·)) :
    s.mcBlocks = (mcOpeners u ps).map (fun a => ⟨a, mcList u ps a⟩) ↔
      ∀ q ∈ ps, openMc u (before ps q) ≠ [] → clearable u q = true →
        (∃ a ∈ before ps q, mark u a = .mc ∧ FlagKept u ps a q) ∧ isOutLm u q = false := by
  rw [h.mcBlocks, map_inj_left]
  simp only [McBlock.mk.injEq, true_and, recordedMcList_eq_iff hps]
  constructor
  · intro hall q hq hne hclear
    obtain ⟨a, ha⟩ := exists_mem_of_ne_nil _ hne
    obtain ⟨hmem, hmark⟩ := mem_filter.mp ((openMc_spec (pairwise_before hps)).2 a ha)
    have hopener : a ∈ mcOpeners u ps :=
      mem_filter.mpr ⟨((mem_before hps).mp hmem).1, hmark⟩
    exact hall a hopener q hq ha hclear
  · intro hall a _ q hq ha hclear
    exact hall q hq (ne_nil_of_mem ha) hclear

/-- The clean-up lists of an accepted program are in their tables and are those of its blocks
exactly if the table indices are in range and the one mode flag follows the blocks. -/
theorem cleanLists_exact_iff (hacc : Accepts alloc u s) :
    StoresInRange u ∧ ListsExact u (boundaries u) s ↔
      IndicesInRange u ∧ FlagFollowsBlocks u (boundaries u) := by
  constructor
  · rintro ⟨hstores, hexact⟩
    have hindices := hstores.indicesInRange
    obtain ⟨hps, hfollows⟩ := hacc.follows hindices
    obtain ⟨hkept, honce⟩ := (hfollows.numbered_iff hps).mp hexact.numbered
    exact ⟨hindices, hkept, (hfollows.mc_iff hps).mp hexact.mc, honce⟩
  · rintro ⟨hindices, hkept, hmc, honce⟩
    obtain ⟨hps, hfollows⟩ := hacc.follows hindices
    refine ⟨hindices.storesInRange, ?_, (hfollows.mc_iff hps).mpr hmc⟩
    exact (hfollows.numbered_iff hps).mpr ⟨hkept, honce⟩

/-- A subroutine with an empty master-control block and an `EU` after it. -/
def mcInSbrFile : Ucode :=
  [0, 0, 0, 0, 0, 0, 58, 0, 0, 0] ++ replicate 18 0 ++
    [0x01, 0xF0, 0x00, 0x01] ++ [0x1C, 0xF0, 0, 0, 0, 0, 0, 0, 16, 0] ++
    [0x1D, 0xF0, 0, 0, 0, 0] ++ [0x00, 0xA7, 1, 0] ++ [0x23, 0xF0] ++ replicate 4 0

/-- On `mcInSbrFile` the `MCR` resets the flag inside the subroutine, and the `EU` is lost. -/
theorem mcInSbrFile_loses_edge :
    ∃ s, Accepts enoughMemory mcInSbrFile s ∧
      ¬ ListsExact mcInSbrFile (boundaries mcInSbrFile) s := by
  refine ⟨_, ⟨6, rfl⟩, fun h => ?_⟩
  have hlist := h.numbered .sub 28 (by decide) 0 (by decide)
  revert hlist
  decide

/-- The equivalence at a file that is accepted. -/
theorem cleanLists_exact_iff_mcInSbrFile :
    ∃ s, Accepts enoughMemory mcInSbrFile s ∧
      (StoresInRange mcInSbrFile ∧ ListsExact mcInSbrFile (boundaries mcInSbrFile) s ↔
        IndicesInRange mcInSbrFile ∧ FlagFollowsBlocks mcInSbrFile (boundaries mcInSbrFile)) := by
  have hacc : ∃ s, Accepts enoughMemory mcInSbrFile s := ⟨_, 6, rfl⟩
  obtain ⟨s, hs⟩ := hacc
  exact ⟨s, hs, cleanLists_exact_iff hs⟩

end Kalyke
