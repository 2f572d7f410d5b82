-- SUMMARY: What the refresh of forced elements leaves behind, for every arrangement of the lists.
import Kalyke.Modbus.ForceLists

/-!
# Forced Values

Before each scan the forced elements get their values. An entry for a counter of 32 bits is one half
of it, and the refresh takes the entry behind it for the other half. That is right only where the
entry with the low half comes first and the one with the high half directly behind it: at the end of
the list the refresh looks at the head instead, an entry of no counter makes it leave the first
unset, and any other entry of a counter is taken for the high half.
-/

namespace Kalyke

open List Function Option

/-! ## What an Entry Forces -/

namespace ListedElement

/-- The halfword an entry forces. The first address of a counter is its low half. -/
def half (e : ListedElement) : AddrKind → Option Half
  | .bit => e.elementType.bit?.map fun t => .bit t e.elementAddr
  | .word =>
    if e.OfC32 then
      some (if (e.elementAddr - c16Rang) % 2 = 0 then .low (c32RealAddr e.elementAddr)
        else .high (c32RealAddr e.elementAddr))
    else e.elementType.word?.map fun t => .word t e.elementAddr

def forced (e : ListedElement) : AddrKind → BitVec 16
  | .bit => (loByte e.elementValue).setWidth 16
  | .word => e.elementValue

def LowHigh (e e' : ListedElement) : Prop :=
  e.half .word = some (.low (c32RealAddr e.elementAddr)) ∧
    e'.half .word = some (.high (c32RealAddr e.elementAddr))

end ListedElement

/-- No halfword is forced by two entries. -/
def Distinct (kind : AddrKind) (es : List ListedElement) : Prop :=
  es.Pairwise fun e e' => ∀ h, e.half kind = some h → e'.half kind ≠ some h

/-- From the front on, the entries of counters of 32 bits come in pairs of the low and the high
half of one counter. -/
def Paired : List ListedElement → Prop
  | [] => True
  | [e] => ¬ e.OfC32
  | e :: e' :: es => if e.OfC32 then e.LowHigh e' ∧ Paired es else Paired (e' :: es)

/-- The traversal of the words comes to an entry of a counter with nothing behind it, and reads the
head of the list as an entry. -/
def ReadsHead : List ListedElement → Prop
  | [] => False
  | [e] => e.OfC32
  | e :: e' :: es =>
    if e.OfC32 then if e'.elementType = .wordC then ReadsHead es else ReadsHead (e' :: es)
    else ReadsHead (e' :: es)

/-! ## The Refresh as Writes -/

/-- The writes of the values that the entries of a list force. -/
def forcedWrites (kind : AddrKind) (es : List ListedElement) : List (Half × BitVec 16) :=
  es.filterMap fun e => (e.half kind).map (·, e.forced kind)

/-- The writes of the refresh to words. An entry of a counter sets its low half, and that behind it
the high half. -/
def wordWrites : List ListedElement → List (Half × BitVec 16)
  | [] => []
  | [e] => if e.OfC32 then [] else forcedWrites .word [e]
  | e :: e' :: es =>
    if e.OfC32 then
      if e'.elementType = .wordC then
        (.high (c32RealAddr e.elementAddr), e'.elementValue) ::
          (.low (c32RealAddr e.elementAddr), e.elementValue) :: wordWrites es
      else wordWrites (e' :: es)
    else forcedWrites .word [e] ++ wordWrites (e' :: es)

theorem Half.setAll_append (ws ws' : List (Half × BitVec 16)) (st : Store) :
    Half.setAll (ws ++ ws') st = Half.setAll ws' (Half.setAll ws st) := by
  rw [Half.setAll, map_append, CellWrite.run_append]
  rfl

theorem setWidth_byte_ne_zero (x : Byte) : (x.setWidth 16 != 0) = (x != 0) := by
  revert x
  decide

theorem forcedWrites_cons (kind : AddrKind) (e : ListedElement) (es : List ListedElement) :
    forcedWrites kind (e :: es) = forcedWrites kind [e] ++ forcedWrites kind es := by
  rw [forcedWrites, forcedWrites, forcedWrites, ← filterMap_append, singleton_append]

theorem forcedWrites_of_half {kind : AddrKind} {e : ListedElement} {h : Half}
    (hh : e.half kind = some h) : forcedWrites kind [e] = [(h, e.forced kind)] := by
  simp [forcedWrites, hh]

theorem forceBit_eq (e : ListedElement) (st : Store) :
    e.forceBit st = Half.setAll (forcedWrites .bit [e]) st := by
  unfold ListedElement.forceBit
  cases hbit : e.elementType.bit? with
  | none => simp [forcedWrites, ListedElement.half, hbit, Half.setAll]
  | some t =>
    have hhalf : e.half .bit = some (.bit t e.elementAddr) := by
      rw [ListedElement.half, hbit]
      rfl
    have hset : Half.setAll [(.bit t e.elementAddr, e.forced .bit)] st =
        st.setBit (.elem t) e.elementAddr (e.forced .bit != 0) := rfl
    rw [forcedWrites_of_half hhalf, hset, ListedElement.forced, setWidth_byte_ne_zero]

theorem foldl_forceBit (es : List ListedElement) (st : Store) :
    es.foldl ListedElement.forceBit st = Half.setAll (forcedWrites .bit es) st := by
  induction es generalizing st with
  | nil => rfl
  | cons e es ih =>
    rw [foldl_cons, ih, forceBit_eq, forcedWrites_cons .bit e es, Half.setAll_append]

theorem half_word_of_not_ofC32 {e : ListedElement} (hc32 : ¬ e.OfC32) :
    e.half .word = e.elementType.word?.map fun t => .word t e.elementAddr := if_neg hc32

theorem forceWord_eq {e : ListedElement} (hc32 : ¬ e.OfC32) (st : Store) :
    e.forceWord st = Half.setAll (forcedWrites .word [e]) st := by
  have hhalf := half_word_of_not_ofC32 hc32
  unfold ListedElement.forceWord
  cases hword : e.elementType.word? with
  | none =>
    rw [hword] at hhalf
    simp [forcedWrites, hhalf, Half.setAll]
  | some t =>
    rw [hword] at hhalf
    rw [forcedWrites_of_half hhalf]
    rfl

/-- Unless it reads the head, the refresh of forced words ends and makes these writes. -/
theorem forceWords_eq {headIsC : Bool} {es : List ListedElement} (h : ¬ ReadsHead es) (st : Store) :
    forceWords headIsC es st = some (Half.setAll (wordWrites es) st) := by
  fun_induction forceWords headIsC es st with
  | case1 st => rfl
  | case2 e st hc32 => exact absurd hc32 h
  | case3 e st hc32 => exact absurd hc32 h
  | case4 e st hc32 => rw [wordWrites, if_neg hc32, forceWord_eq hc32]
  | case5 e e' es st hc32 he' ih =>
    rw [ReadsHead, if_pos hc32, if_pos he'] at h
    rw [ih h, wordWrites, if_pos hc32, if_pos he', Half.setAll_cons, Half.setAll_cons,
      Half.set_low_set_high]
  | case6 e e' es st hc32 he' ih =>
    rw [ReadsHead, if_pos hc32, if_neg he'] at h
    rw [ih h, wordWrites, if_pos hc32, if_neg he']
  | case7 e e' es st hc32 ih =>
    rw [ReadsHead, if_neg hc32] at h
    rw [ih h, wordWrites, if_neg hc32, Half.setAll_append, forceWord_eq hc32]

/-! ## Pairs -/

theorem half_word_of_ofC32 {e : ListedElement} (hc32 : e.OfC32) :
    e.half .word = some (.low (c32RealAddr e.elementAddr)) ∨
      e.half .word = some (.high (c32RealAddr e.elementAddr)) := by
  rw [ListedElement.half, if_pos hc32]
  split
  · exact .inl rfl
  · exact .inr rfl

theorem ofC32_of_half_high {e : ListedElement} {n : Nat} (h : e.half .word = some (.high n)) :
    e.OfC32 := by
  by_contra hc32
  rw [half_word_of_not_ofC32 hc32] at h
  obtain ⟨t, -, ht⟩ := map_eq_some_iff.mp h
  cases ht

theorem ListedElement.LowHigh.wordC {e e' : ListedElement} (h : e.LowHigh e') :
    e'.elementType = .wordC := (ofC32_of_half_high h.2).1

theorem Paired.not_readsHead {es : List ListedElement} (h : Paired es) : ¬ ReadsHead es := by
  fun_induction Paired es with
  | case1 => exact id
  | case2 e => exact h
  | case3 e e' es hc32 ih =>
    rw [ReadsHead, if_pos hc32, if_pos h.1.wordC]
    exact ih h.2
  | case4 e e' es hc32 ih =>
    rw [ReadsHead, if_neg hc32]
    exact ih h

/-- Where the counters come in pairs, each entry makes the write of its own value. -/
theorem Paired.wordWrites_perm {es : List ListedElement} (h : Paired es) :
    (wordWrites es).Perm (forcedWrites .word es) := by
  fun_induction Paired es with
  | case1 => exact .refl _
  | case2 e =>
    rw [wordWrites, if_neg h]
  | case3 e e' es hc32 ih =>
    obtain ⟨hpair, hrest⟩ := h
    rw [wordWrites, if_pos hc32, if_pos hpair.wordC, forcedWrites_cons, forcedWrites_cons .word e',
      forcedWrites_of_half hpair.1, forcedWrites_of_half hpair.2]
    exact (Perm.swap _ _ _).trans (((ih hrest).cons _).cons _)
  | case4 e e' es hc32 ih =>
    rw [wordWrites, if_neg hc32, forcedWrites_cons .word e (e' :: es)]
    exact (ih h).append_left _

/-! ## Each Write is Read Back -/

theorem Half.read_setAll_of_nodup {ws : List (Half × BitVec 16)} (h : (ws.map Prod.fst).Nodup)
    {w : Half × BitVec 16} (hw : w ∈ ws) (st : Store) :
    w.1.read (Half.setAll ws st) = w.1.kept w.2 := by
  have hkeys : (ws.map Half.toCellWrite).Pairwise fun w w' => w.key ≠ w'.key :=
    pairwise_map.mpr (pairwise_map.mp h)
  exact CellWrite.read_run_of_pairwise hkeys (List.mem_map_of_mem hw) st

theorem Half.read_setAll_of_not_mem {ws : List (Half × BitVec 16)} {h : Half}
    (hnot : h ∉ ws.map Prod.fst) (st : Store) : h.read (Half.setAll ws st) = h.read st := by
  refine CellWrite.read_run_of_forall_ne (fun w hw hkey => ?_) st
  obtain ⟨x, hx, rfl⟩ := List.mem_map.mp hw
  exact hnot (List.mem_map.mpr ⟨x, hx, hkey.symm⟩)

theorem map_fst_forcedWrites (kind : AddrKind) (es : List ListedElement) :
    (forcedWrites kind es).map Prod.fst = es.filterMap fun e => e.half kind := by
  rw [forcedWrites, map_filterMap]
  refine filterMap_congr fun e _ => ?_
  cases e.half kind <;> rfl

theorem Distinct.nodup {kind : AddrKind} {es : List ListedElement} (h : Distinct kind es) :
    ((forcedWrites kind es).map Prod.fst).Nodup := by
  rw [map_fst_forcedWrites]
  refine pairwise_filterMap.mpr (h.imp fun hne x hx y hy hxy => ?_)
  exact hne x hx (hxy ▸ hy)

theorem half_bit_ne_half_word {e e' : ListedElement} {h : Half} (hbit : e.half .bit = some h) :
    e'.half .word ≠ some h := by
  obtain ⟨t, -, rfl⟩ := map_eq_some_iff.mp hbit
  intro hword
  by_cases hc32 : e'.OfC32
  · rcases half_word_of_ofC32 hc32 with heq | heq <;> cases heq.symm.trans hword
  · rw [half_word_of_not_ofC32 hc32] at hword
    obtain ⟨t', -, ht'⟩ := map_eq_some_iff.mp hword
    cases ht'

/-! ## Right Refreshes -/

variable {headIsC : Bool} {force : AddrKind → List ListedElement}

/-- The forced elements have their values, and everything else is as before. -/
structure Refreshed (force : AddrKind → List ListedElement) (st st' : Store) : Prop where
  forced : ∀ kind, ∀ e ∈ force kind, ∀ h, e.half kind = some h → h.read st' = h.kept (e.forced kind)
  others : ∀ h : Half, (∀ kind, ∀ e ∈ force kind, e.half kind ≠ some h) → h.read st' = h.read st
  rest : ∀ c : Cell, (∀ h : Half, h.cell ≠ c) → c.read st' = c.read st

/-- The refresh takes no head of a list for an entry, ends, and does what it is to do. -/
def RefreshRight (headIsC : Bool) (force : AddrKind → List ListedElement) (st : Store) : Prop :=
  ¬ ReadsHead (force .word) ∧
    ∃ st', plcRefreshForceElementValue headIsC force st = some st' ∧ Refreshed force st st'

/-- What the refresh leaves behind. -/
def refreshed (force : AddrKind → List ListedElement) (st : Store) : Store :=
  Half.setAll (wordWrites (force .word)) (Half.setAll (forcedWrites .bit (force .bit)) st)

theorem refresh_eq (h : ¬ ReadsHead (force .word)) (st : Store) :
    plcRefreshForceElementValue headIsC force st = some (refreshed force st) := by
  rw [plcRefreshForceElementValue, forceWords_eq h, foldl_forceBit, refreshed]

theorem cell_of_listed {kind : AddrKind} {e : ListedElement} {c : Cell} (h : e.cell kind = some c) :
    ∃ h : Half, h.cell = c := by
  cases kind with
  | bit =>
    obtain ⟨t, -, rfl⟩ := map_eq_some_iff.mp h
    exact ⟨.bit t e.elementAddr, rfl⟩
  | word =>
    by_cases hc32 : e.OfC32
    · rw [cell_of_ofC32 hc32] at h
      cases h
      exact ⟨.low _, rfl⟩
    · rw [cell_of_not_ofC32 hc32] at h
      obtain ⟨t, -, rfl⟩ := map_eq_some_iff.mp h
      exact ⟨.word t e.elementAddr, rfl⟩

/-- The writes of both lists go to different halfwords. -/
theorem nodup_writes (hdistinct : ∀ kind, Distinct kind (force kind))
    (hpaired : Paired (force .word)) :
    ((forcedWrites .bit (force .bit) ++ wordWrites (force .word)).map Prod.fst).Nodup := by
  have hperm := (hpaired.wordWrites_perm.append_left (forcedWrites .bit (force .bit))).map Prod.fst
  rw [hperm.nodup_iff, map_append, nodup_append]
  refine ⟨(hdistinct .bit).nodup, (hdistinct .word).nodup, fun h hbit h' hword heq => ?_⟩
  rw [map_fst_forcedWrites] at hbit hword
  obtain ⟨e, -, he⟩ := mem_filterMap.mp hbit
  obtain ⟨e', -, he'⟩ := mem_filterMap.mp hword
  exact half_bit_ne_half_word he (heq ▸ he')

/-- The refresh is right where no halfword is forced twice and the counters come in pairs. -/
theorem refreshRight_of_paired (hdistinct : ∀ kind, Distinct kind (force kind))
    (hpaired : Paired (force .word)) (st : Store) : RefreshRight headIsC force st := by
  have hnodup := nodup_writes hdistinct hpaired
  have hmem (w : Half × BitVec 16) :
      w ∈ forcedWrites .bit (force .bit) ++ wordWrites (force .word) ↔
        ∃ kind, w ∈ forcedWrites kind (force kind) := by
    rw [mem_append, hpaired.wordWrites_perm.mem_iff]
    exact ⟨fun h => h.elim (⟨.bit, ·⟩) (⟨.word, ·⟩),
      fun ⟨kind, h⟩ => by cases kind <;> [exact .inl h; exact .inr h]⟩
  refine ⟨hpaired.not_readsHead, _, refresh_eq hpaired.not_readsHead st, ?_, ?_, ?_⟩
  · intro kind e he h hh
    have hw : (h, e.forced kind) ∈ forcedWrites kind (force kind) :=
      mem_filterMap.mpr ⟨e, he, by rw [hh]; rfl⟩
    rw [refreshed, ← Half.setAll_append]
    exact Half.read_setAll_of_nodup hnodup ((hmem _).mpr ⟨kind, hw⟩) st
  · intro h hnot
    rw [refreshed, ← Half.setAll_append]
    refine Half.read_setAll_of_not_mem (fun hin => ?_) st
    obtain ⟨w, hw, rfl⟩ := List.mem_map.mp hin
    obtain ⟨kind, hw⟩ := (hmem w).mp hw
    have hfst := List.mem_map_of_mem (f := Prod.fst) hw
    rw [map_fst_forcedWrites] at hfst
    obtain ⟨e, he, hh⟩ := mem_filterMap.mp hfst
    exact hnot kind e he hh
  · intro c hc
    have hrun : plcRefreshForceElementValue headIsC force st = some (refreshed force st) :=
      refresh_eq hpaired.not_readsHead st
    refine refresh_read (fun kind e _ hcell => ?_) hrun
    obtain ⟨h, hh⟩ := cell_of_listed hcell
    exact hc h hh

/-! ## Arrangements -/

/-- Two entries force the same halfword, to any values. -/
def ListedElement.SamePlace (e e' : ListedElement) : Prop :=
  e'.elementType = e.elementType ∧ e'.elementAddr = e.elementAddr

/-- The refresh is right for an arrangement of the lists: whatever the values are that they force,
and whatever the elements hold. -/
def RefreshesRight (headIsC : Bool) (force : AddrKind → List ListedElement) : Prop :=
  ∀ force' : AddrKind → List ListedElement,
    (∀ kind, Forall₂ ListedElement.SamePlace (force kind) (force' kind)) →
      ∀ st, RefreshRight headIsC force' st

namespace ListedElement

/-- An entry with another value. -/
def withValue (x : BitVec 16) (e : ListedElement) : ListedElement := { e with elementValue := x }

theorem samePlace_withValue (x : BitVec 16) (e : ListedElement) : e.SamePlace (e.withValue x) :=
  ⟨rfl, rfl⟩

theorem SamePlace.rfl {e : ListedElement} : e.SamePlace e := ⟨Eq.refl _, Eq.refl _⟩

theorem SamePlace.half {e e' : ListedElement} (h : e.SamePlace e') (kind : AddrKind) :
    e'.half kind = e.half kind := by
  obtain ⟨t, n, a, x⟩ := e
  obtain ⟨t', n', a', x'⟩ := e'
  obtain ⟨rfl, rfl⟩ : t' = t ∧ n' = n := h
  cases kind <;> rfl

theorem half_withValue (x : BitVec 16) (e : ListedElement) (kind : AddrKind) :
    (e.withValue x).half kind = e.half kind := (samePlace_withValue x e).half kind

end ListedElement

theorem Half.kept_zero_ne_one (h : Half) : h.kept 0 ≠ h.kept 1 := by
  cases h <;> simp [Half.kept]

/-- What a halfword holds after some writes depends on what it held before at most. -/
theorem Half.read_setAll_congr {ws : List (Half × BitVec 16)} {k : Half} {st st' : Store}
    (h : k.read st = k.read st') : k.read (Half.setAll ws st) = k.read (Half.setAll ws st') := by
  induction ws generalizing st st' with
  | nil => exact h
  | cons w ws ih =>
    rw [Half.setAll_cons, Half.setAll_cons]
    refine ih ?_
    by_cases hk : k = w.1
    · rw [hk, Half.read_set_self, Half.read_set_self]
    · rw [Half.read_set_of_ne hk, Half.read_set_of_ne hk, h]

/-- Setting a halfword of a word list to what it holds changes nothing. -/
theorem setAll_forcedWrites_read {e : ListedElement} (hc32 : ¬ e.OfC32) (st : Store) :
    ∃ x, Half.setAll (forcedWrites .word [e.withValue x]) st = st := by
  have hhalf := half_word_of_not_ofC32 hc32
  cases hword : e.elementType.word? with
  | none =>
    rw [hword] at hhalf
    refine ⟨0, ?_⟩
    simp [forcedWrites, ListedElement.half_withValue, hhalf, Half.setAll]
  | some t =>
    rw [hword] at hhalf
    refine ⟨st.word t e.elementAddr, ?_⟩
    rw [forcedWrites_of_half ((ListedElement.half_withValue _ e .word).trans hhalf)]
    simp [Half.setAll, Half.toCellWrite, Half.set, Store.setWord, ListedElement.forced,
      ListedElement.withValue]

theorem setC32_self (st : Store) (n : Nat) :
    st.setC32 n ((st.c32 n).extractLsb' 16 16 ++ (st.c32 n).extractLsb' 0 16) = st := by
  have hvalue : (st.c32 n).extractLsb' 16 16 ++ (st.c32 n).extractLsb' 0 16 = st.c32 n := by
    have hjoin : (st.c32 n).extractLsb' 16 16 ++ (st.c32 n).extractLsb' 0 16 =
        (st.c32 n).extractLsb' 0 32 := BitVec.extractLsb'_append_extractLsb'_eq_extractLsb' rfl
    rw [hjoin]
    exact BitVec.extractLsb'_eq_self
  rw [hvalue]
  simp [Store.setC32]

/-- The entries of a word list are held, whatever their values are and whatever was there before. -/
def WordsInForce (es : List ListedElement) : Prop :=
  ∀ es', Forall₂ ListedElement.SamePlace es es' → ∀ st, ∀ e ∈ es', ∀ k, e.half .word = some k →
    k.read (Half.setAll (wordWrites es') st) = k.kept e.elementValue

/-- An entry that is held is written. -/
theorem not_held_of_const {e : ListedElement} {k : Half} (f : BitVec 16 → BitVec 16)
    (hconst : f 0 = f 1) (h : ∀ x, f x = k.kept (e.withValue x).elementValue) : False :=
  k.kept_zero_ne_one ((h 0).symm.trans (hconst.trans (h 1)))

theorem forall₂_refl (es : List ListedElement) : Forall₂ ListedElement.SamePlace es es :=
  forall₂_same.mpr fun _ _ => .rfl

section

variable {e e' : ListedElement} {es : List ListedElement}

theorem wordWrites_pair (hc32 : e.OfC32) (he' : e'.elementType = .wordC) (x y : BitVec 16)
    (rest : List ListedElement) (st : Store) :
    Half.setAll (wordWrites (e.withValue x :: e'.withValue y :: rest)) st =
      Half.setAll (wordWrites rest) (st.setC32 (c32RealAddr e.elementAddr) (y ++ x)) := by
  have hc32' : (e.withValue x).OfC32 := hc32
  have hwordC : (e'.withValue y).elementType = .wordC := he'
  rw [wordWrites, if_pos hc32', if_pos hwordC, Half.setAll_cons, Half.setAll_cons,
    Half.set_low_set_high]
  rfl

/-- An entry of a counter is not followed by one of no counter, which would leave it unset. -/
theorem WordsInForce.wordC (h : WordsInForce (e :: e' :: es)) (hc32 : e.OfC32) :
    e'.elementType = .wordC := by
  by_contra he'
  obtain ⟨k, hk⟩ : ∃ k, e.half .word = some k :=
    (half_word_of_ofC32 hc32).elim (⟨_, ·⟩) (⟨_, ·⟩)
  refine not_held_of_const (e := e) (k := k)
    (fun _ => k.read (Half.setAll (wordWrites (e' :: es)) Store.off)) rfl fun x => ?_
  have hc32' : (e.withValue x).OfC32 := hc32
  have hheld := h (e.withValue x :: e' :: es)
    (.cons (e.samePlace_withValue x) (forall₂_refl _)) Store.off (e.withValue x) mem_cons_self
    k ((e.half_withValue x .word).trans hk)
  rwa [wordWrites, if_pos hc32', if_neg he'] at hheld

/-- An entry behind one of a counter forces the high half of that, which is what it is taken for. -/
theorem WordsInForce.high (h : WordsInForce (e :: e' :: es)) (hc32 : e.OfC32) :
    e'.half .word = some (.high (c32RealAddr e.elementAddr)) := by
  have he' : e'.elementType = .wordC := h.wordC hc32
  obtain ⟨k, hk⟩ : ∃ k, e'.half .word = some k := by
    by_cases hc32' : e'.OfC32
    · exact (half_word_of_ofC32 hc32').elim (⟨_, ·⟩) (⟨_, ·⟩)
    · rw [half_word_of_not_ofC32 hc32', he']
      exact ⟨_, rfl⟩
  rw [hk, some_inj]
  by_contra hne
  refine not_held_of_const (e := e') (k := k) (fun y => k.read (Half.setAll (wordWrites es)
    (Store.off.setC32 (c32RealAddr e.elementAddr) (y ++ (0 : BitVec 16))))) ?_ fun y => ?_
  · refine Half.read_setAll_congr ?_
    -- The high half alone is different.
    rw [← Half.set_low_set_high, ← Half.set_low_set_high]
    by_cases hlow : k = .low (c32RealAddr e.elementAddr)
    · rw [hlow, Half.read_set_self, Half.read_set_self]
    · rw [Half.read_set_of_ne hlow, Half.read_set_of_ne hne, Half.read_set_of_ne hlow,
        Half.read_set_of_ne hne]
  · have hheld := h (e.withValue 0 :: e'.withValue y :: es)
      (.cons (e.samePlace_withValue 0) (.cons (e'.samePlace_withValue y) (forall₂_refl _)))
      Store.off (e'.withValue y) (mem_cons_of_mem _ mem_cons_self) k
      ((e'.half_withValue y .word).trans hk)
    rwa [wordWrites_pair hc32 he'] at hheld

/-- What is behind a pair is held on its own, as the pair may hold what is there already. -/
theorem WordsInForce.behind_pair (h : WordsInForce (e :: e' :: es)) (hc32 : e.OfC32) :
    WordsInForce es := by
  intro es' hplaces st a ha k hk
  have hheld := h (e.withValue ((st.c32 (c32RealAddr e.elementAddr)).extractLsb' 0 16) ::
      e'.withValue ((st.c32 (c32RealAddr e.elementAddr)).extractLsb' 16 16) :: es')
    (.cons (e.samePlace_withValue _) (.cons (e'.samePlace_withValue _) hplaces)) st a
    (mem_cons_of_mem _ (mem_cons_of_mem _ ha)) k hk
  rwa [wordWrites_pair hc32 (h.wordC hc32), setC32_self] at hheld

theorem WordsInForce.behind_word (h : WordsInForce (e :: e' :: es)) (hc32 : ¬ e.OfC32) :
    WordsInForce (e' :: es) := by
  intro es' hplaces st a ha k hk
  obtain ⟨x, hx⟩ := setAll_forcedWrites_read hc32 st
  have hheld := h (e.withValue x :: es') (.cons (e.samePlace_withValue x) hplaces) st a
    (mem_cons_of_mem _ ha) k hk
  obtain ⟨b, rest, -, -, rfl⟩ := forall₂_cons_left_iff.mp hplaces
  have hc32' : ¬ (e.withValue x).OfC32 := hc32
  rwa [wordWrites, if_neg hc32', Half.setAll_append, hx] at hheld

end

/-- Entries that are held come in pairs. -/
theorem WordsInForce.paired {es : List ListedElement} (h : WordsInForce es)
    (hdistinct : Distinct .word es) (hhead : ¬ ReadsHead es) : Paired es := by
  induction es using Paired.induct with
  | case1 => trivial
  | case2 e => exact hhead
  | case3 e e' es hc32 ih =>
    have hhigh := h.high hc32
    have hlow : e.half .word = some (.low (c32RealAddr e.elementAddr)) := by
      refine (half_word_of_ofC32 hc32).resolve_right fun heq => ?_
      exact (pairwise_cons.mp hdistinct).1 e' mem_cons_self _ heq hhigh
    rw [ReadsHead, if_pos hc32, if_pos (h.wordC hc32)] at hhead
    rw [Paired, if_pos hc32]
    exact ⟨⟨hlow, hhigh⟩, ih (h.behind_pair hc32) hdistinct.tail.tail hhead⟩
  | case4 e e' es hc32 ih =>
    rw [ReadsHead, if_neg hc32] at hhead
    rw [Paired, if_neg hc32]
    exact ih (h.behind_word hc32) hdistinct.tail hhead

/-! ## Which Arrangements are Right -/

/-- What a right refresh holds after it. -/
theorem RefreshRight.held {st : Store} (h : RefreshRight headIsC force st) {kind : AddrKind}
    {e : ListedElement} (he : e ∈ force kind) {k : Half} (hk : e.half kind = some k) :
    k.read (refreshed force st) = k.kept (e.forced kind) := by
  obtain ⟨hhead, st', hrun, hright⟩ := h
  rw [refresh_eq hhead, some_inj] at hrun
  rw [hrun]
  exact hright.forced kind e he k hk

theorem RefreshesRight.wordsInForce (h : RefreshesRight headIsC force) :
    WordsInForce (force .word) := by
  intro es' hplaces st e he k hk
  let force' : AddrKind → List ListedElement := update force .word es'
  have hbit : force' .bit = force .bit := update_of_ne (by decide) _ _
  have hword : force' .word = es' := update_self _ _ _
  have hright : RefreshRight headIsC force' st := by
    refine h force' (fun kind => ?_) st
    cases kind with
    | bit => exact hbit ▸ forall₂_refl _
    | word => exact hword ▸ hplaces
  have hheld := hright.held (hword ▸ he) hk
  refine Eq.trans (Half.read_setAll_congr ?_) hheld
  -- The refresh of the bits before leaves words alone.
  refine (Half.read_setAll_of_not_mem (fun hin => ?_) st).symm
  rw [map_fst_forcedWrites] at hin
  obtain ⟨e₀, -, he₀⟩ := mem_filterMap.mp hin
  exact half_bit_ne_half_word he₀ hk

/-- The entries of a list, with 1 for the value of one and 0 for that of the others. -/
def oneAt (i : Nat) (es : List ListedElement) : List ListedElement :=
  es.mapIdx fun j e => e.withValue (if j = i then 1 else 0)

theorem forall₂_oneAt (i : Nat) (es : List ListedElement) :
    Forall₂ ListedElement.SamePlace es (oneAt i es) := by
  refine forall₂_iff_get.mpr ⟨(length_mapIdx).symm, fun j hj hj' => ?_⟩
  simp only [get_eq_getElem, oneAt, getElem_mapIdx]
  exact ListedElement.samePlace_withValue _ _

theorem forced_withValue (kind : AddrKind) (e : ListedElement) :
    (e.withValue 0).forced kind = 0 ∧ (e.withValue 1).forced kind = 1 := by
  cases kind <;> exact ⟨rfl, rfl⟩

theorem RefreshesRight.distinct (h : RefreshesRight headIsC force) (kind : AddrKind) :
    Distinct kind (force kind) := by
  rw [Distinct, pairwise_iff_getElem]
  intro i j hi hj hij k hk hk'
  let force' : AddrKind → List ListedElement := fun kind => oneAt j (force kind)
  have hright : RefreshRight headIsC force' Store.off :=
    h force' (fun kind => forall₂_oneAt j _) Store.off
  have hmem (l : Nat) (hl : l < (force kind).length) :
      ((force kind)[l]).withValue (if l = j then 1 else 0) ∈ force' kind := by
    refine mem_iff_getElem.mpr ⟨l, by simpa [force', oneAt] using hl, ?_⟩
    simp [force', oneAt]
  have hfirst := hright.held (hmem i hi) ((ListedElement.half_withValue _ _ kind).trans hk)
  have hsecond := hright.held (hmem j hj) ((ListedElement.half_withValue _ _ kind).trans hk')
  rw [if_neg (Nat.ne_of_lt hij), (forced_withValue kind _).1] at hfirst
  rw [if_pos rfl, (forced_withValue kind _).2] at hsecond
  exact k.kept_zero_ne_one (hfirst.symm.trans hsecond)

section

variable {es es' : List ListedElement}

theorem map_half_of_samePlace (h : Forall₂ ListedElement.SamePlace es es')
    (kind : AddrKind) : es'.map (·.half kind) = es.map (·.half kind) := by
  induction h with
  | nil => rfl
  | cons hplace _ ih => rw [map_cons, map_cons, hplace.half kind, ih]

theorem distinct_iff_map (kind : AddrKind) (es : List ListedElement) :
    Distinct kind es ↔
      (es.map (·.half kind)).Pairwise fun a b => ∀ h, a = some h → b ≠ some h := by
  rw [pairwise_map]
  exact Iff.rfl

theorem Distinct.of_samePlace {kind : AddrKind} (h : Forall₂ ListedElement.SamePlace es es')
    (hdistinct : Distinct kind es) : Distinct kind es' := by
  rw [distinct_iff_map, map_half_of_samePlace h, ← distinct_iff_map]
  exact hdistinct

theorem ListedElement.SamePlace.ofC32 {e e' : ListedElement} (h : e.SamePlace e') :
    e'.OfC32 ↔ e.OfC32 := by
  rw [ListedElement.OfC32, ListedElement.OfC32, h.1, h.2]

theorem Paired.of_samePlace (hpaired : Paired es)
    (h : Forall₂ ListedElement.SamePlace es es') : Paired es' := by
  induction es using Paired.induct generalizing es' with
  | case1 =>
    cases h
    trivial
  | case2 e =>
    obtain ⟨b, bs, hb, hbs, rfl⟩ := forall₂_cons_left_iff.mp h
    cases hbs
    exact fun hc32 => hpaired (hb.ofC32.mp hc32)
  | case3 e e' es hc32 ih =>
    obtain ⟨b, bs, hb, hbs, rfl⟩ := forall₂_cons_left_iff.mp h
    obtain ⟨b', bs', hb', hbs', rfl⟩ := forall₂_cons_left_iff.mp hbs
    rw [Paired, if_pos hc32] at hpaired
    rw [Paired, if_pos (hb.ofC32.mpr hc32)]
    refine ⟨?_, ih hpaired.2 hbs'⟩
    rw [ListedElement.LowHigh, hb.half, hb'.half, hb.2]
    exact hpaired.1
  | case4 e e' es hc32 ih =>
    obtain ⟨b, bs, hb, hbs, rfl⟩ := forall₂_cons_left_iff.mp h
    obtain ⟨b', bs', hb', hbs', rfl⟩ := forall₂_cons_left_iff.mp hbs
    rw [Paired, if_neg hc32] at hpaired
    rw [Paired, if_neg fun hb32 => hc32 (hb.ofC32.mp hb32)]
    exact ih hpaired hbs

end

/-- The refresh is right for an arrangement of the lists just if no halfword is forced twice, and
each entry of the low half of a counter is directly followed by that of its high half, which comes
nowhere else. -/
theorem refreshesRight_iff :
    RefreshesRight headIsC force ↔ (∀ kind, Distinct kind (force kind)) ∧ Paired (force .word) := by
  constructor
  · intro h
    have hhead : ¬ ReadsHead (force .word) := (h force (fun kind => forall₂_refl _) Store.off).1
    exact ⟨h.distinct, h.wordsInForce.paired (h.distinct .word) hhead⟩
  · rintro ⟨hdistinct, hpaired⟩ force' hplaces st
    exact refreshRight_of_paired (fun kind => (hdistinct kind).of_samePlace (hplaces kind))
      (hpaired.of_samePlace (hplaces .word)) st

/-- The entry of the first address of `C200` alone: the head of the list is read as an entry. -/
theorem c200_half_alone :
    ¬ ∀ (headIsC : Bool) (force : AddrKind → List ListedElement) (st : Store),
      RefreshRight headIsC force st := by
  intro h
  obtain ⟨hhead, -⟩ := h false (fun
    | .bit => []
    | .word => [⟨.wordC, 200, 9700, 1⟩]) Store.off
  have hread : ReadsHead [⟨.wordC, 200, 9700, 1⟩] := by
    unfold ReadsHead
    decide
  exact hhead hread

end Kalyke
