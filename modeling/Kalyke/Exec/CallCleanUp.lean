-- SUMMARY: The clean-up of subroutines along executed calls: it ends, and leaves no call behind.
import Kalyke.Exec.SwitchOff

/-!
# Clean-ups along Calls

`plc_call_ins_clean_element` follows the `CALL`s of a subroutine that were executed. It takes the
mark of a `CALL` away before it goes into the subroutine, so that it comes to an end on cyclic calls
too, and no `CALL` is followed twice. If it passes, the calls that were executed have been followed
wherever they lead.
-/

namespace Kalyke

open List Function

/-! ## The law -/

section

variable (out : Outside) (t : CompState) (u : Ucode) (now : BitVec 32)

/-- The body of `plc_call_ins_clean_element`, with what it calls. -/
def cleanBody (sub : Nat → Plc → Except PlcErr Unit × Plc) (id : Nat) (plc : Plc) :
    Except PlcErr Unit × Plc :=
  if maxSbrCount < id then (.error .overSbrStack, plc)
  else cleanLists out t u now false sub (t.sbrList id) plc

/-- The recursion down to a depth, below which anything may happen. -/
def cleanDepth (bottom : Nat → Plc → Except PlcErr Unit × Plc) :
    Nat → Nat → Plc → Except PlcErr Unit × Plc
  | 0 => bottom
  | depth + 1 => cleanBody out t u now (cleanDepth bottom depth)

def ExecutedCall (isExec : Nat → Bool) (id q : Nat) : Prop :=
  q ∈ (t.sbrList id).comp ∧ ComplexIns.ofCode (u.getPU16 q) = some .call ∧
    ∃ cid, plcGetCallInsId t q = some cid ∧ isExec cid = true

/-- The subroutines that are reached from one at call level `n` through calls that were executed,
with their call levels. -/
inductive ReachedSbr (isExec : Nat → Bool) (n id : Nat) : Nat → Nat → Prop where
  | start : ReachedSbr isExec n id n id
  | call {m k q : Nat} (h : ReachedSbr isExec n id m k) (hq : ExecutedCall t u isExec k q) :
      ReachedSbr isExec n id (m + 1) (callSbrNumber u q)

/-- A recorded simple instruction after a clean-up: its edge is reset. -/
def CleanedSimple (s : Store) (q : Nat) : Prop :=
  match SimpleIns.ofCode (u.getPU8 (q + 1)) with
  | some .eu | some .ed => (Target.edge (u.getPU16 (q + 2))).Off now s
  | some (.pulse _) => (Target.edge (u.getPU16 (q + 4))).Off now s
  | _ => True

/-- A recorded complex instruction after a clean-up at call level `n`: its timer is reset or, if it
is retentive, stopped, and its local bit is off. -/
def CleanedComplex (n : Nat) (s : Store) (q : Nat) : Prop :=
  match ComplexIns.ofCode (u.getPU16 q) with
  | some (.data .ton) | some (.data .tof) => (Target.timer (u.getPU16 (q + 4))).Off now s
  | some (.data .tonr) => (s.timer (u.getPU16 (q + 4))).enable = false
  | some (.data .outLm) => (Target.bit ((BitArea.lm n).cell (u.getPU16 (q + 4))) 0).Off now s
  | _ => True

/-- The instructions of a subroutine are as a clean-up at call level `n` leaves them. -/
structure SbrCleaned (n : Nat) (s : Store) (id : Nat) : Prop where
  simp : ∀ q ∈ (t.sbrList id).simp, CleanedSimple u now s q
  comp : ∀ q ∈ (t.sbrList id).comp, CleanedComplex u now n s q

/-- No `CALL` of a subroutine is marked as executed. -/
def CallsCleared (isExec : Nat → Bool) (id : Nat) : Prop :=
  ∀ q ∈ (t.sbrList id).comp, ComplexIns.ofCode (u.getPU16 q) = some .call →
    ∃ cid, plcGetCallInsId t q = some cid ∧ isExec cid = false

/-- Between two states of a clean-up of what `V` says is reached: each `CALL` whose mark is taken
away has been followed. -/
structure Swept (V : Nat → Nat → Prop) (plc plc' : Plc) : Prop where
  store : SwitchesOff now (fun _ => True) plc.store plc'.store
  fewer : ∀ cid, plc'.isExec cid = true → plc.isExec cid = true
  calls : ∀ q cid, plcGetCallInsId t q = some cid → plc.isExec cid = true →
    plc'.isExec cid = false → CallsCleared t u plc'.isExec (callSbrNumber u q) ∧
      ∃ n, V n (callSbrNumber u q) ∧ SbrCleaned t u now n plc'.store (callSbrNumber u q)

end

variable {V : Nat → Nat → Prop} {isExec₀ : Nat → Bool} {n₀ id₀ : Nat}
variable {out : Outside} {t : CompState} {u : Ucode} {now : BitVec 32} {plc plc' plc'' : Plc}
variable {s s' : Store} {n id q : Nat} {sub sub' : Nat → Plc → Except PlcErr Unit × Plc}

/-! ## What stays -/

section

variable {X : Target → Prop}

theorem CleanedSimple.keep (h : CleanedSimple u now s q) (hs : SwitchesOff now X s s') :
    CleanedSimple u now s' q := by
  revert h
  unfold CleanedSimple
  split
  · exact fun h => h.keep hs
  · exact fun h => h.keep hs
  · exact fun h => h.keep hs
  · exact id

/-- A timer that is stopped stays so. -/
theorem SwitchesOff.enable {m : Nat} (hs : SwitchesOff now X s s')
    (h : (s.timer m).enable = false) : (s'.timer m).enable = false := by
  rcases hs.timer m with hsame | ⟨-, hreset | hoff⟩
  · rw [hsame, h]
  · rw [hreset]
    rfl
  · rw [hoff]

theorem CleanedComplex.keep (h : CleanedComplex u now n s q) (hs : SwitchesOff now X s s') :
    CleanedComplex u now n s' q := by
  revert h
  unfold CleanedComplex
  split
  · exact fun h => h.keep hs
  · exact fun h => h.keep hs
  · exact hs.enable
  · exact fun h => h.keep hs
  · exact id

theorem SbrCleaned.keep (h : SbrCleaned t u now n s id) (hs : SwitchesOff now X s s') :
    SbrCleaned t u now n s' id :=
  ⟨fun q hq => (h.simp q hq).keep hs, fun q hq => (h.comp q hq).keep hs⟩

end

theorem CallsCleared.mono {isExec isExec' : Nat → Bool} (h : CallsCleared t u isExec id)
    (hless : ∀ cid, isExec' cid = true → isExec cid = true) : CallsCleared t u isExec' id := by
  intro q hq hcall
  obtain ⟨cid, hcid, hoff⟩ := h q hq hcall
  refine ⟨cid, hcid, Bool.eq_false_iff.mpr fun hon => ?_⟩
  rw [hless cid hon] at hoff
  cases hoff

namespace Swept

theorem of_store (hs : SwitchesOff now (fun _ => True) plc.store s) :
    Swept t u now V plc { plc with store := s } where
  store := hs
  fewer := fun _ hon => hon
  calls := by
    intro q cid _ hon hoff
    exact absurd (hon.symm.trans hoff) (by decide)

theorem refl (plc : Plc) : Swept t u now V plc plc := of_store (.refl _)

theorem trans (h : Swept t u now V plc plc') (h' : Swept t u now V plc' plc'') :
    Swept t u now V plc plc'' where
  store := h.store.trans h'.store
  fewer := fun cid hon => h.fewer cid (h'.fewer cid hon)
  calls := by
    intro q cid hcid hon hoff
    cases hmid : plc'.isExec cid with
    | true => exact h'.calls q cid hcid hmid hoff
    | false =>
      obtain ⟨hcleared, m, hreached, hcleaned⟩ := h.calls q cid hcid hon hmid
      exact ⟨hcleared.mono h'.fewer, m, hreached, hcleaned.keep h'.store⟩

end Swept

/-! ## Instructions -/

/-- The clean-up of a recorded simple instruction of a subroutine. -/
theorem cleanSimpleIns_cleaned (u : Ucode) (now : BitVec 32) (n : Nat) (s : Store) (q : Nat) :
    SwitchesOff now (fun _ => True) s (cleanSimpleIns u false n s q) ∧
      CleanedSimple u now (cleanSimpleIns u false n s q) q := by
  unfold cleanSimpleIns CleanedSimple
  cases SimpleIns.ofCode (u.getPU8 (q + 1)) with
  | none => exact ⟨.refl s, trivial⟩
  | some i =>
    cases i with
    | eu | ed | pulse => exact ⟨cleanEdge_switchesOff trivial, cleanEdge_off⟩
    | coil c e ext => cases c <;> exact ⟨.refl s, trivial⟩
    | coilLm c => cases c <;> exact ⟨.refl s, trivial⟩
    | _ => exact ⟨.refl s, trivial⟩

theorem foldl_cleanSimpleIns_cleaned (u : Ucode) (now : BitVec 32) (n : Nat) (l : List Nat)
    (s : Store) :
    SwitchesOff now (fun _ => True) s (l.foldl (cleanSimpleIns u false n) s) ∧
      ∀ q ∈ l, CleanedSimple u now (l.foldl (cleanSimpleIns u false n) s) q := by
  induction l generalizing s with
  | nil => exact ⟨.refl s, fun q hq => nomatch hq⟩
  | cons p l ih =>
    obtain ⟨hfirst, hcleaned⟩ := cleanSimpleIns_cleaned u now n s p
    obtain ⟨hrest, hall⟩ := ih (cleanSimpleIns u false n s p)
    refine ⟨hfirst.trans hrest, forall_mem_cons.mpr ⟨hcleaned.keep hrest, hall⟩⟩

theorem enable_disableTimer (s : Store) (m : Nat) :
    ((s.disableTimer m).timer m).enable = false := by
  simp only [Store.disableTimer, update_self]

/-- What the clean-up of the subroutines that are reached is to do. -/
structure SweepsSubs (t : CompState) (u : Ucode) (now : BitVec 32) (isExec₀ : Nat → Bool)
    (n₀ id₀ : Nat) (sub : Nat → Plc → Except PlcErr Unit × Plc) : Prop where
  control : ∀ id (plc : Plc), plc.SameControl (sub id plc).2
  swept : ∀ id plc plc', ReachedSbr t u isExec₀ n₀ id₀ plc.sbrNestedNum id →
    (∀ cid, plc.isExec cid = true → isExec₀ cid = true) → sub id plc = (.ok (), plc') →
      Swept t u now (ReachedSbr t u isExec₀ n₀ id₀) plc plc' ∧ CallsCleared t u plc'.isExec id ∧
        SbrCleaned t u now plc.sbrNestedNum plc'.store id

/-- A `CALL` has one number. -/
theorem ucodeAddr_of_plcGetCallInsId {cid : Nat} (h : plcGetCallInsId t q = some cid) :
    t.ucodeAddr cid = q := by
  have hfound := find?_some h
  exact beq_iff_eq.mp hfound

/-- A `CALL` is followed if it was executed. -/
theorem cleanCall_swept (hsub : SweepsSubs t u now isExec₀ n₀ id₀ sub)
    (hid : ReachedSbr t u isExec₀ n₀ id₀ plc.sbrNestedNum id)
    (hless : ∀ cid, plc.isExec cid = true → isExec₀ cid = true) (hq : q ∈ (t.sbrList id).comp)
    (hcall : ComplexIns.ofCode (u.getPU16 q) = some .call)
    (hok : cleanCall t u sub plc q = (.ok (), plc')) :
    Swept t u now (ReachedSbr t u isExec₀ n₀ id₀) plc plc' ∧
      ∃ cid, plcGetCallInsId t q = some cid ∧ plc'.isExec cid = false := by
  unfold cleanCall at hok
  split at hok
  · cases hok
  rename_i cid hcid
  split at hok
  · cases hok
  split at hok
  · rename_i hon
    obtain ⟨hret, rfl⟩ := Prod.mk.inj hok
    have hreached := hid.call ⟨hq, hcall, cid, hcid, hless cid hon⟩
    have hless' (c : Nat) (hc : update plc.isExec cid false c = true) :
        isExec₀ c = true := by
      by_cases heq : c = cid
      · rw [heq, update_self] at hc
        cases hc
      · rw [update_of_ne heq] at hc
        exact hless c hc
    obtain ⟨hswept, hcleared, hcleaned⟩ :=
      hsub.swept _ _ _ hreached hless' (Prod.ext hret rfl)
    have hmarked (c : Nat) (hc : c ≠ cid) :
        update plc.isExec cid false c = plc.isExec c := update_of_ne hc _ _
    have hoff : ∀ c, c = cid → (sub (callSbrNumber u q)
        { plc with isExec := update plc.isExec cid false,
                   sbrNestedNum := plc.sbrNestedNum + 1 }).2.isExec c = false := by
      rintro c rfl
      refine Bool.eq_false_iff.mpr fun hon' => ?_
      have hbefore : update plc.isExec c false c = true := hswept.fewer c hon'
      rw [update_self] at hbefore
      cases hbefore
    refine ⟨⟨hswept.store, fun c hon' => ?_, fun q' c hc hon' hoff' => ?_⟩, cid, hcid,
      hoff cid rfl⟩
    · have hbefore : update plc.isExec cid false c = true := hswept.fewer c hon'
      by_cases hc : c = cid
      · rw [hc, hon]
      · rwa [hmarked c hc] at hbefore
    · by_cases heq : c = cid
      · have hq : q' = q := by
          rw [← ucodeAddr_of_plcGetCallInsId hc, heq, ucodeAddr_of_plcGetCallInsId hcid]
        rw [hq]
        exact ⟨hcleared, _, hreached, hcleaned⟩
      · exact hswept.calls q' c hc ((hmarked c heq).trans hon') hoff'
  · rename_i hoff
    obtain ⟨-, rfl⟩ := Prod.mk.inj hok
    exact ⟨.refl plc, cid, hcid, Bool.eq_false_iff.mpr hoff⟩

/-- The clean-up of a recorded complex instruction. -/
theorem cleanComplexIns_swept (hbout : out.body (.data .bout) = runCiBoutIns)
    (hsub : SweepsSubs t u now isExec₀ n₀ id₀ sub)
    (hid : ReachedSbr t u isExec₀ n₀ id₀ plc.sbrNestedNum id)
    (hless : ∀ cid, plc.isExec cid = true → isExec₀ cid = true) (hq : q ∈ (t.sbrList id).comp)
    (hok : cleanComplexIns out t u now sub plc q = (.ok (), plc')) :
    Swept t u now (ReachedSbr t u isExec₀ n₀ id₀) plc plc' ∧
      CleanedComplex u now plc.sbrNestedNum plc'.store q ∧
      (ComplexIns.ofCode (u.getPU16 q) = some .call →
        ∃ cid, plcGetCallInsId t q = some cid ∧ plc'.isExec cid = false) := by
  unfold cleanComplexIns at hok
  unfold CleanedComplex
  split at hok
  · rename_i hi
    obtain rfl := (Prod.mk.inj hok).2
    rw [hi]
    exact ⟨.of_store (plcResetOneTimer_switchesOff trivial), plcResetOneTimer_off, nofun⟩
  · rename_i hi
    obtain rfl := (Prod.mk.inj hok).2
    rw [hi]
    exact ⟨.of_store (plcResetOneTimer_switchesOff trivial), plcResetOneTimer_off, nofun⟩
  · rename_i hi
    obtain rfl := (Prod.mk.inj hok).2
    rw [hi]
    exact ⟨.of_store (disableTimer_switchesOff trivial),
      enable_disableTimer plc.store (u.getPU16 (q + 4)), nofun⟩
  · rename_i hi
    obtain rfl := (Prod.mk.inj hok).2
    rw [hi]
    have hoff : (Target.bit ((BitArea.lm plc.sbrNestedNum).cell (u.getPU16 (q + 4))) 0).Off now
        (plc.store.setBit (.lm plc.sbrNestedNum) (u.getPU16 (q + 4)) false) :=
      setBit_off plc.store (.lm plc.sbrNestedNum) (u.getPU16 (q + 4))
    exact ⟨.of_store (setBit_switchesOff trivial), hoff, nofun⟩
  · rename_i hi
    obtain rfl := (Prod.mk.inj hok).2
    rw [hi, hbout, runCiBoutIns_idle _ rfl]
    exact ⟨.of_store (.refl plc.store), trivial, nofun⟩
  · rename_i hi
    obtain ⟨hswept, hcleared⟩ := cleanCall_swept hsub hid hless hq hi hok
    rw [hi]
    exact ⟨hswept, trivial, fun _ => hcleared⟩
  · rename_i hton htof htonr hlm _ hcall
    obtain rfl := (Prod.mk.inj hok).2
    refine ⟨.refl plc, ?_, fun hi => (hcall hi).elim⟩
    split
    · exact (hton ‹_›).elim
    · exact (htof ‹_›).elim
    · exact (htonr ‹_›).elim
    · exact (hlm ‹_›).elim
    · trivial

/-! ## Lists -/

/-- The clean-up of the recorded complex instructions of a subroutine. -/
theorem cleanComplexList_swept (hbout : out.body (.data .bout) = runCiBoutIns)
    (hsub : SweepsSubs t u now isExec₀ n₀ id₀ sub)
    (hid : ReachedSbr t u isExec₀ n₀ id₀ plc.sbrNestedNum id)
    (hless : ∀ cid, plc.isExec cid = true → isExec₀ cid = true) {l : List Nat}
    (hl : ∀ q ∈ l, q ∈ (t.sbrList id).comp)
    (hok : cleanComplexList out t u now sub l plc = (.ok (), plc')) :
    Swept t u now (ReachedSbr t u isExec₀ n₀ id₀) plc plc' ∧
      ∀ q ∈ l, CleanedComplex u now plc.sbrNestedNum plc'.store q ∧
      (ComplexIns.ofCode (u.getPU16 q) = some .call →
        ∃ cid, plcGetCallInsId t q = some cid ∧ plc'.isExec cid = false) := by
  induction l generalizing plc with
  | nil =>
    obtain rfl := (Prod.mk.inj hok).2
    exact ⟨.refl plc, fun q hq => nomatch hq⟩
  | cons p l ih =>
    have hlevel : (cleanComplexIns out t u now sub plc p).2.sbrNestedNum = plc.sbrNestedNum :=
      (cleanRelation_sameControl.cleanComplexIns hsub.control plc p).sbrNestedNum
    rw [cleanComplexList] at hok
    split at hok
    · rename_i mid heq
      rw [heq] at hlevel
      obtain ⟨hp, hl⟩ := forall_mem_cons.mp hl
      obtain ⟨hfirst, hcleaned, hcleared⟩ := cleanComplexIns_swept hbout hsub hid hless hp heq
      obtain ⟨hrest, hall⟩ := ih (hlevel ▸ hid) (fun cid hon => hless cid (hfirst.fewer cid hon)) hl
        hok
      rw [hlevel] at hall
      refine ⟨hfirst.trans hrest, forall_mem_cons.mpr ⟨⟨hcleaned.keep hrest.store, ?_⟩, hall⟩⟩
      intro hcall
      obtain ⟨cid, hcid, hoff⟩ := hcleared hcall
      refine ⟨cid, hcid, Bool.eq_false_iff.mpr fun hon => ?_⟩
      rw [hrest.fewer cid hon] at hoff
      cases hoff
    · cases hok

theorem cleanBody_swept (hbout : out.body (.data .bout) = runCiBoutIns)
    (hsub : SweepsSubs t u now isExec₀ n₀ id₀ sub)
    (hid : ReachedSbr t u isExec₀ n₀ id₀ plc.sbrNestedNum id)
    (hless : ∀ cid, plc.isExec cid = true → isExec₀ cid = true)
    (hok : cleanBody out t u now sub id plc = (.ok (), plc')) :
    Swept t u now (ReachedSbr t u isExec₀ n₀ id₀) plc plc' ∧ CallsCleared t u plc'.isExec id ∧
      SbrCleaned t u now plc.sbrNestedNum plc'.store id := by
  unfold cleanBody at hok
  split at hok
  · cases hok
  obtain ⟨hsimp, hedges⟩ := foldl_cleanSimpleIns_cleaned u now plc.sbrNestedNum
    (t.sbrList id).simp plc.store
  let mid : Plc :=
    plc.onStore fun s => (t.sbrList id).simp.foldl (cleanSimpleIns u false plc.sbrNestedNum) s
  have hmid : ReachedSbr t u isExec₀ n₀ id₀ mid.sbrNestedNum id := hid
  obtain ⟨hswept, hall⟩ := cleanComplexList_swept hbout hsub hmid hless (fun _ hq => hq) hok
  refine ⟨(Swept.of_store hsimp).trans hswept, fun q hq => (hall q hq).2, fun q hq => ?_,
    fun q hq => (hall q hq).1⟩
  exact (hedges q hq).keep hswept.store

theorem plcCallInsCleanElement_sweeps (hbout : out.body (.data .bout) = runCiBoutIns)
    (isExec₀ : Nat → Bool) (n₀ id₀ room : Nat) :
    SweepsSubs t u now isExec₀ n₀ id₀ (plcCallInsCleanElement out t u now room) := by
  induction room with
  | zero =>
    refine ⟨cleanRelation_sameControl.plcCallInsCleanElement 0,
      fun id plc plc' hid hless hok => ?_⟩
    have hnone : SweepsSubs t u now isExec₀ n₀ id₀ fun _ plc => (.error .overSbrStack, plc) :=
      ⟨fun _ plc => .refl plc, fun _ _ _ _ _ hok => by cases hok⟩
    exact cleanBody_swept hbout hnone hid hless hok
  | succ room ih =>
    refine ⟨cleanRelation_sameControl.plcCallInsCleanElement (room + 1),
      fun id plc plc' hid hless hok => ?_⟩
    exact cleanBody_swept hbout ih hid hless hok

/-! ## Depth -/

/-- Two clean-ups are the same if they go into subroutines in the same way. -/
theorem cleanComplexList_congr (hcontrol : ∀ id (plc : Plc), plc.SameControl (sub' id plc).2)
    (hsub : ∀ id (plc' : Plc), plc'.sbrNestedNum = n + 1 → n < maxSbrNestedLayer →
      sub id plc' = sub' id plc') (l : List Nat) (hn : plc.sbrNestedNum = n) :
    cleanComplexList out t u now sub l plc = cleanComplexList out t u now sub' l plc := by
  induction l generalizing plc with
  | nil => rfl
  | cons p l ih =>
    have hfirst : cleanComplexIns out t u now sub plc p =
        cleanComplexIns out t u now sub' plc p := by
      unfold cleanComplexIns
      split
      case h_6 =>
        unfold cleanCall
        split
        · rfl
        split
        · rfl
        rename_i hlevel
        rw [hsub _ _ (congrArg (· + 1) hn) (hn ▸ Nat.lt_of_not_le hlevel)]
      all_goals rfl
    have hlevel : (cleanComplexIns out t u now sub' plc p).2.sbrNestedNum = n :=
      (cleanRelation_sameControl.cleanComplexIns hcontrol plc p).sbrNestedNum.trans hn
    rw [cleanComplexList, cleanComplexList, hfirst]
    split
    · rename_i plc' heq
      rw [heq] at hlevel
      exact ih hlevel
    · rfl

theorem cleanBody_congr (hcontrol : ∀ id (plc : Plc), plc.SameControl (sub' id plc).2)
    (hsub : ∀ id (plc' : Plc), plc'.sbrNestedNum = plc.sbrNestedNum + 1 →
      plc.sbrNestedNum < maxSbrNestedLayer → sub id plc' = sub' id plc') (id : Nat) :
    cleanBody out t u now sub id plc = cleanBody out t u now sub' id plc := by
  unfold cleanBody
  split
  · rfl
  · exact cleanComplexList_congr hcontrol hsub _ rfl

/-- The recursion does not go deeper than the call levels that are left. -/
theorem cleanDepth_eq (bottom : Nat → Plc → Except PlcErr Unit × Plc) {depth : Nat}
    (hdepth : maxSbrNestedLayer - plc.sbrNestedNum ≤ depth) :
    cleanDepth out t u now bottom (depth + 1) id plc =
      plcCallInsCleanElement out t u now (maxSbrNestedLayer - plc.sbrNestedNum) id plc := by
  induction depth generalizing id plc with
  | zero =>
    rw [Nat.le_zero.mp hdepth]
    refine cleanBody_congr (fun _ plc => .refl plc) (fun id plc' _ hlt => ?_) id
    omega
  | succ depth ih =>
    cases hroom : maxSbrNestedLayer - plc.sbrNestedNum with
    | zero =>
      refine cleanBody_congr (fun _ plc => .refl plc) (fun id plc' _ hlt => ?_) id
      omega
    | succ room =>
      refine cleanBody_congr (cleanRelation_sameControl.plcCallInsCleanElement room)
        (fun id plc' hlevel hlt => ?_) id
      have hnext : maxSbrNestedLayer - plc'.sbrNestedNum = room := by omega
      rw [← hnext]
      exact ih (by omega)

/-! ## Runs -/

/-- A `CALL` has been followed: its mark is taken away, and its subroutine is clean at a call level
at which it is reached. -/
def Followed (t : CompState) (u : Ucode) (now : BitVec 32) (V : Nat → Nat → Prop) (plc : Plc)
    (q : Nat) : Prop :=
  (∃ cid, plcGetCallInsId t q = some cid ∧ plc.isExec cid = false) ∧
    ∃ n, V n (callSbrNumber u q) ∧ SbrCleaned t u now n plc.store (callSbrNumber u q)

/-- A clean-up that passes has followed the executed `CALL`s of a subroutine whose `CALL`s are not
marked any more, and takes the marks of those behind them away. -/
theorem Swept.followed (h : Swept t u now V plc plc') (hcalls : CallsCleared t u plc'.isExec id)
    (hq : ExecutedCall t u plc.isExec id q) :
    Followed t u now V plc' q ∧ CallsCleared t u plc'.isExec (callSbrNumber u q) := by
  obtain ⟨hmem, hcall, cid, hcid, hon⟩ := hq
  obtain ⟨cid', hcid', hoff⟩ := hcalls q hmem hcall
  cases hcid.symm.trans hcid'
  obtain ⟨hcleared, hcleaned⟩ := h.calls q cid hcid hon hoff
  exact ⟨⟨⟨cid, hcid, hoff⟩, hcleaned⟩, hcleared⟩

theorem ReachedSbr.cleared {m k : Nat} (h : Swept t u now V plc plc')
    (hcalls : CallsCleared t u plc'.isExec id) (hk : ReachedSbr t u plc.isExec n id m k) :
    CallsCleared t u plc'.isExec k := by
  induction hk with
  | start => exact hcalls
  | call _ hq ih => exact (h.followed ih hq).2

/-- `CALL` of the subroutine 1, and `TONR T0`. -/
def callTonrFile : Ucode :=
  [0x21, 0xF0, 0x01, 0x00, 0x00, 0x00, 0x00, 0x00, 0x00, 0x00] ++
    [0x16, 0xF0, 0x00, 0x00, 0x00, 0x00, 0x00, 0x00, 0x00, 0x00]

end Kalyke
