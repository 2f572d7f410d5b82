-- SUMMARY: The lists of forced elements: what is put into them, and when nothing changes.
import Kalyke.Lib.Writes
import Kalyke.Modbus.Plans

/-!
# Forced Elements

A list of forced elements is read by address. A request to force plans what it puts into the list;
the functions put it there up to the first entry that is refused.
-/

namespace Kalyke

open List Function Option

/-! ## Lists -/

def listedValue (es : List ListedElement) (a : BitVec 16) : Option (BitVec 16) :=
  (es.find? fun e => e.modbusAddr = a).map (·.elementValue)

def putListed (e : ListedElement) (es : List ListedElement) : List ListedElement :=
  if es.any (·.modbusAddr = e.modbusAddr) then
    Slave.replaceValue e.modbusAddr e.elementValue es
  else es ++ [e]

theorem listedValue_isSome {es : List ListedElement} {a : BitVec 16} :
    (listedValue es a).isSome ↔ ∃ e ∈ es, e.modbusAddr = a := by
  simp [listedValue]

theorem any_listed {es : List ListedElement} {a : BitVec 16} :
    es.any (·.modbusAddr = a) = true ↔ ∃ e ∈ es, e.modbusAddr = a := by simp

theorem listedValue_replaceValue {es : List ListedElement} {a k x : BitVec 16}
    (h : ∃ e ∈ es, e.modbusAddr = a) :
    listedValue (Slave.replaceValue a x es) k = if k = a then some x else listedValue es k := by
  induction es with
  | nil =>
    obtain ⟨e, he, -⟩ := h
    cases he
  | cons e es ih =>
    by_cases hea : e.modbusAddr = a
    · by_cases hka : k = a
      · simp [Slave.replaceValue, listedValue, hea, hka]
      · simp [Slave.replaceValue, listedValue, hea, hka, Ne.symm hka]
    · have hes : ∃ e ∈ es, e.modbusAddr = a := by simpa [hea] using h
      have ih := ih hes
      simp only [listedValue] at ih
      by_cases hek : e.modbusAddr = k
      · have hka : ¬ k = a := fun h => hea (hek.trans h)
        simp [Slave.replaceValue, listedValue, hek, hka]
      · simp [Slave.replaceValue, listedValue, hea, hek, ih]

theorem listedValue_putListed (e : ListedElement) (es : List ListedElement) (k : BitVec 16) :
    listedValue (putListed e es) k =
      if k = e.modbusAddr then some e.elementValue else listedValue es k := by
  unfold putListed
  split_ifs with hany hk hk
  · rw [listedValue_replaceValue (any_listed.mp hany), if_pos hk]
  · rw [listedValue_replaceValue (any_listed.mp hany), if_neg hk]
  · subst hk
    have hnone : es.find? (fun e' => e'.modbusAddr = e.modbusAddr) = none := by
      rw [find?_eq_none]
      intro e' he' heq
      exact hany (any_listed.mpr ⟨e', he', by simpa using heq⟩)
    simp [listedValue, hnone]
  · have hne : ¬ e.modbusAddr = k := Ne.symm hk
    simp [listedValue, hne]

def ListedElement.toCellWrite (e : ListedElement) : CellWrite listedValue where
  key := e.modbusAddr
  value := some e.elementValue
  act := putListed e
  read_self es := by rw [listedValue_putListed, if_pos rfl]
  read_other es k hk := by rw [listedValue_putListed, if_neg hk]

/-- Elements put into a list one after the other. -/
def putAllListed (ws es : List ListedElement) : List ListedElement :=
  ws.foldl (fun es e => putListed e es) es

theorem putAllListed_eq_run (ws es : List ListedElement) :
    putAllListed ws es = CellWrite.run (ws.map ListedElement.toCellWrite) es := by
  rw [CellWrite.run, foldl_map]
  rfl

/-- The last value put for each address is the value the list has. -/
def ForceSettled (es ws : List ListedElement) : Prop :=
  ∀ l e r, ws = l ++ e :: r → (∀ e' ∈ r, e.modbusAddr ≠ e'.modbusAddr) →
    listedValue es e.modbusAddr = some e.elementValue

theorem forceSettled_iff {es ws : List ListedElement} :
    CellWrite.Settled es (ws.map ListedElement.toCellWrite) ↔ ForceSettled es ws :=
  CellWrite.settled_map_iff ListedElement.toCellWrite

/-- A list whose elements have other values, but for those whose address was seen before. -/
inductive Revalued : List (BitVec 16) → List ListedElement → List ListedElement → Prop
  | nil (seen : List (BitVec 16)) : Revalued seen [] []
  | cons {seen : List (BitVec 16)} {e e' : ListedElement} {es es' : List ListedElement}
      (hsame : e' = { e with elementValue := e'.elementValue })
      (hseen : e.modbusAddr ∈ seen → e' = e) (h : Revalued (e.modbusAddr :: seen) es es') :
      Revalued seen (e :: es) (e' :: es')

theorem Revalued.refl (seen : List (BitVec 16)) (es : List ListedElement) :
    Revalued seen es es := by
  induction es generalizing seen with
  | nil => exact .nil seen
  | cons e es ih => exact .cons rfl (fun _ => rfl) (ih _)

theorem Revalued.replaceValue {seen : List (BitVec 16)} {es es' : List ListedElement}
    (h : Revalued seen es es') {a : BitVec 16} (ha : a ∉ seen) (x : BitVec 16) :
    Revalued seen es (Slave.replaceValue a x es') := by
  induction h with
  | nil seen => exact .nil seen
  | @cons seen e e' es es' hsame hseen h ih =>
    have haddr : e'.modbusAddr = e.modbusAddr := by rw [hsame]
    rw [Slave.replaceValue]
    split_ifs with hea
    · have hmem : e.modbusAddr ∉ seen := by rwa [← haddr, hea]
      refine .cons ?_ (fun h => absurd h hmem) h
      rw [hsame]
    · refine .cons hsame hseen (ih ?_)
      rw [mem_cons, not_or]
      exact ⟨fun h => hea (haddr.trans h.symm), ha⟩

/-- A list with other values that has the same value for every address is the same list. -/
theorem Revalued.eq {seen : List (BitVec 16)} {es es' : List ListedElement}
    (h : Revalued seen es es')
    (hvalue : ∀ a, a ∉ seen → listedValue es' a = listedValue es a) : es' = es := by
  induction h with
  | nil seen => rfl
  | @cons seen e e' es es' hsame hseen h ih =>
    have haddr : e'.modbusAddr = e.modbusAddr := by rw [hsame]
    have he : e' = e := by
      by_cases hmem : e.modbusAddr ∈ seen
      · exact hseen hmem
      · have hv := hvalue _ hmem
        simp only [listedValue, find?_cons, haddr, decide_true, map_some,
          some_inj] at hv
        rw [hsame, hv]
    subst he
    rw [ih fun a ha => ?_]
    rw [mem_cons, not_or] at ha
    have hv := hvalue a ha.2
    have hne : ¬ e'.modbusAddr = a := Ne.symm ha.1
    simpa [listedValue, hne] using hv

theorem putAllListed_eq_iff {es ws : List ListedElement} :
    putAllListed ws es = es ↔ ForceSettled es ws := by
  rw [← forceSettled_iff, ← CellWrite.reads_run_iff, ← putAllListed_eq_run]
  constructor
  · intro h a
    rw [h]
  · intro h
    -- every address is in the list, so values are set and nothing is appended
    have hlisted : ∀ e ∈ ws, ∃ e' ∈ es, e'.modbusAddr = e.modbusAddr := by
      intro e he
      have hin : ∃ w ∈ ws.map ListedElement.toCellWrite, e.modbusAddr = w.key :=
        ⟨e.toCellWrite, List.mem_map_of_mem he, rfl⟩
      obtain ⟨l, w, r, heq, hkey, hlast⟩ := CellWrite.exists_last hin
      have hread : listedValue (putAllListed ws es) e.modbusAddr = w.value := by
        rw [putAllListed_eq_run, heq, hkey]
        exact CellWrite.read_run_last (hkey ▸ hlast) es
      obtain ⟨v, -, hv⟩ := List.mem_map.mp (show w ∈ ws.map ListedElement.toCellWrite by
        rw [heq]; simp)
      rw [h, ← hv] at hread
      exact listedValue_isSome.mp (by rw [hread]; rfl)
    have hrevalued : ∀ (us : List ListedElement), (∀ e ∈ us, e ∈ ws) →
        ∀ es', Revalued [] es es' → (∀ a, (listedValue es a).isSome → (listedValue es' a).isSome) →
          Revalued [] es (putAllListed us es') := by
      intro us
      induction us with
      | nil => exact fun _ es' hes' _ => hes'
      | cons e us ih =>
        intro hus es' hes' hkeep
        have hany : es'.any (·.modbusAddr = e.modbusAddr) = true :=
          any_listed.mpr (listedValue_isSome.mp (hkeep _ (listedValue_isSome.mpr
            (hlisted e (hus e mem_cons_self)))))
        refine ih (fun e' he' => hus e' (mem_cons_of_mem e he')) (putListed e es') ?_ ?_
        · rw [putListed, if_pos hany]
          exact hes'.replaceValue (by simp) _
        · intro a ha
          rw [listedValue_putListed]
          split_ifs
          · rfl
          · exact hkeep a ha
    exact (hrevalued ws (fun _ h => h) es (.refl [] es) fun _ h => h).eq fun a _ => h a

/-! ## Requests to Force -/

variable {ω : Type}

namespace Slave

/-- What an entry to force puts into the list. An address that is not mapped can be in the list. -/
def forcePlan (s : Slave ω) (kind : AddrKind) (i : Nat) : Option (ListedElement × Bool) :=
  let a := s.forceAddr kind i
  let x := s.forceValue kind i
  match mbSlaveConvertElementInfo kind a.toNat with
  | some (t, n) => some (⟨t, n, a, x⟩, false)
  | none => ((s.force kind).find? (·.modbusAddr = a)).map fun e =>
      ({ e with elementValue := x }, false)

/-- What a request to force puts into the list. -/
def forcePlanned (s : Slave ω) (kind : AddrKind) : List ListedElement × Bool :=
  planned (s.forcePlan kind) (range (s.receiveBuff 3).toNat) false

/-- The list with the elements put into it. An empty list is not searched. -/
def forcedList (s : Slave ω) (kind : AddrKind) (ws : List ListedElement) : List ListedElement :=
  if s.force kind = [] then ws else putAllListed ws (s.force kind)

variable {s t : Slave ω} {kind : AddrKind}

theorem setForce_self (t : Slave ω) (kind : AddrKind) : t.setForce kind (t.force kind) = t := by
  rw [setForce, update_eq_self]

theorem setForce_setForce (t : Slave ω) (kind : AddrKind) (es es' : List ListedElement) :
    (t.setForce kind es).setForce kind es' = t.setForce kind es' := by
  simp only [setForce, update_idem]

@[simp] theorem force_setForce (t : Slave ω) (kind : AddrKind) (es : List ListedElement) :
    (t.setForce kind es).force kind = es := update_self ..

theorem forceEntry_puts (i : Nat) (ht : ForceKept kind s t) :
    forceEntry kind true i t = match s.forcePlan kind i with
      | none => (t, .error .iliegalData)
      | some (e, skip) => (t.setForce kind (putListed e (t.force kind)), .ok skip) := by
  have haddr : t.forceAddr kind i = s.forceAddr kind i := by
    rw [forceAddr, forceAddr, ht.receiveBuff]
  have hvalue : t.forceValue kind i = s.forceValue kind i := by
    cases kind <;> simp only [forceValue, ht.receiveBuff]
  simp only [forceEntry, forcePlan, haddr, hvalue, true_and]
  cases hconv : mbSlaveConvertElementInfo kind (s.forceAddr kind i).toNat with
  | some x =>
    obtain ⟨u, n⟩ := x
    simp only [putListed]
    split_ifs <;> rfl
  | none =>
    have hmap : ¬ Mapped kind (s.forceAddr kind i) := fun h => h hconv
    have hlisted : (t.force kind).any (·.modbusAddr = s.forceAddr kind i) = true ↔
        ∃ e ∈ s.force kind, e.modbusAddr = s.forceAddr kind i :=
      any_listed.trans (ht.listed _ hmap)
    cases hfind : (s.force kind).find? (·.modbusAddr = s.forceAddr kind i) with
    | none =>
      rw [if_neg]
      · rfl
      · rw [hlisted]
        rintro ⟨e, he, hea⟩
        exact find?_eq_none.mp hfind e he (by simpa using hea)
    | some e =>
      have hea : e.modbusAddr = s.forceAddr kind i := by simpa using find?_some hfind
      have hany := hlisted.mpr ⟨e, mem_of_find?_eq_some hfind, hea⟩
      simp only [map_some, putListed, hea, hany, if_true]

/-- No entry to force uses the next. -/
theorem forcePlan_skip {i : Nat} {e : ListedElement} {skip : Bool}
    (h : s.forcePlan kind i = some (e, skip)) : skip = false := by
  unfold forcePlan at h
  dsimp only at h
  split at h
  · cases h
    rfl
  · obtain ⟨e', -, he'⟩ := map_eq_some_iff.mp h
    cases he'
    rfl

/-- A list that is searched gets the elements planned. -/
theorem forceLoop_puts (is : List Nat) (ht : ForceKept kind s t) (hne : s.force kind ≠ []) :
    entryLoop (forceEntry kind true) is false t =
      (t.setForce kind (putAllListed (planned (s.forcePlan kind) is false).1 (t.force kind)),
        if (planned (s.forcePlan kind) is false).2 then none else some .iliegalData) := by
  induction is generalizing t with
  | nil => simp [entryLoop, planned, putAllListed, setForce_self]
  | cons i is ih =>
    have hkept := (forceEntry_step s kind i t ht).1
    rw [decide_eq_true hne, forceEntry_puts i ht] at hkept
    rw [entryLoop, forceEntry_puts i ht, planned]
    cases hplan : s.forcePlan kind i with
    | none => simp [putAllListed, setForce_self]
    | some x =>
      obtain ⟨e, skip⟩ := x
      cases forcePlan_skip hplan
      rw [hplan] at hkept
      simp only [ih hkept, setForce_setForce, force_setForce, putAllListed, foldl_cons]

/-- A list that is not searched gets the elements planned behind its own. -/
theorem forceLoop_appends (is : List Nat) (ht : t.receiveBuff = s.receiveBuff)
    (hnil : s.force kind = []) :
    entryLoop (forceEntry kind false) is false t =
      (t.setForce kind (t.force kind ++ (planned (s.forcePlan kind) is false).1),
        if (planned (s.forcePlan kind) is false).2 then none else some .iliegalData) := by
  induction is generalizing t with
  | nil => simp [entryLoop, planned, setForce_self]
  | cons i is ih =>
    have haddr : t.forceAddr kind i = s.forceAddr kind i := by rw [forceAddr, forceAddr, ht]
    have hvalue : t.forceValue kind i = s.forceValue kind i := by
      cases kind <;> simp only [forceValue, ht]
    have hentry : forceEntry kind false i t = match s.forcePlan kind i with
        | none => (t, .error .iliegalData)
        | some (e, skip) => (t.setForce kind (t.force kind ++ [e]), .ok skip) := by
      simp only [forceEntry, forcePlan, haddr, hvalue, hnil]
      cases mbSlaveConvertElementInfo kind (s.forceAddr kind i).toNat <;> rfl
    rw [entryLoop, hentry, planned]
    cases hplan : s.forcePlan kind i with
    | none => simp [setForce_self]
    | some x =>
      obtain ⟨e, skip⟩ := x
      cases forcePlan_skip hplan
      have ih := ih (t := t.setForce kind (t.force kind ++ [e])) ht
      simp only [ih, setForce_setForce, force_setForce, append_assoc, singleton_append]

theorem forcedList_eq_iff {ws : List ListedElement} :
    s.forcedList kind ws = s.force kind ↔ ForceSettled (s.force kind) ws := by
  unfold forcedList
  split_ifs with hnil
  · rw [hnil]
    constructor
    · rintro rfl l e r h
      exact absurd h (by simp)
    · intro h
      rcases eq_nil_or_concat ws with rfl | ⟨l, e, rfl⟩
      · rfl
      · exact absurd (h l e [] (by simp) (by simp)) (by simp [listedValue])
  · exact putAllListed_eq_iff

/-- A request to force was carried out up to the first entry that was refused. -/
structure Forced (s t : Slave ω) (kind : AddrKind) (p : List ListedElement × Bool) : Prop where
  store : t.store = s.store
  force : t.force = update s.force kind (s.forcedList kind p.1)
  accepted : p.2 = true → t.errorCode = s.errorCode ∧ ∃ frame, t.sent = s.sent ++ [.normal frame]
  refused : p.2 = false → t.errorCode ≠ none

theorem ctrlCase_forced (b : Board ω) (s : Slave ω) (m : MsgPack) (kind : AddrKind) :
    s.Forced (s.ctrlCase b m (some (.force kind))) kind (s.forcePlanned kind) := by
  have hloop : entryLoop (forceEntry kind (s.force kind ≠ [])) (range (s.receiveBuff 3).toNat)
      false s = (s.setForce kind (s.forcedList kind (s.forcePlanned kind).1),
        if (s.forcePlanned kind).2 then none else some .iliegalData) := by
    unfold forcedList forcePlanned
    by_cases hnil : s.force kind = []
    · rw [if_pos hnil, decide_eq_false (not_not.mpr hnil), forceLoop_appends _ rfl hnil, hnil,
        nil_append]
    · rw [if_neg hnil, decide_eq_true hnil, forceLoop_puts _ ⟨rfl, fun _ _ => Iff.rfl⟩ hnil]
  have hcase : s.ctrlCase b m (some (.force kind)) = (s.force_ m kind).thenRespond m := by
    cases kind <;> rfl
  rw [hcase, force_, hloop]
  generalize s.forcePlanned kind = p
  obtain ⟨ws, all⟩ := p
  cases all with
  | true =>
    refine ⟨rfl, rfl, fun _ => ⟨rfl, respond_normal _ m 3 []⟩, fun h => ?_⟩
    cases h
  | false =>
    refine ⟨mbSlaveErrorResp_store _ m _, mbSlaveErrorResp_force _ m _, fun h => ?_, fun _ => ?_⟩
    · cases h
    · exact (mbSlaveErrorResp_errorCode _ m _).symm ▸ some_ne_none _

end Slave

end Kalyke
