-- SUMMARY: What the parameters of CALL are for, and when the two passes over them do it.
import Kalyke.Compiler.Accepted
import Kalyke.Exec.Control
import Kalyke.Exec.Lengths
import Kalyke.Exec.Operands

/-!
# Parameter Passing

The parameters of a `CALL` are numbered through its three sections: each bit has the next `LM`
element and each word the next `V` element of the layer above the caller's. The subroutine is to
find there what the operands hold, and the operands of the last two sections are to get what it
leaves there. This holds where the get and save functions access the places that the operands
name.
-/

namespace Kalyke

open List Nat Function Option

/-! ## Numbered parameters -/

def paraBytes (ts : List ParaType) : Nat := (ts.map ParaType.size).sum

/-- The `LM` elements of a list of parameters. -/
def paraBits (ts : List ParaType) : Nat := (ts.map ParaType.bits).sum

/-- The `V` elements of a list of parameters. -/
def paraWords (ts : List ParaType) : Nat := (ts.map ParaType.words).sum

/-- The next elements after a list of parameters. -/
def ParaCnt.after (c : ParaCnt) (ts : List ParaType) : ParaCnt :=
  ⟨c.bit + paraBits ts, c.word + paraWords ts⟩

/-- A parameter, with its address and the local elements it has. -/
structure Parameter where
  ptr : Nat
  cnt : ParaCnt
  type : ParaType
deriving DecidableEq, Repr

/-- Where a subroutine at level `l` finds a parameter. -/
def ParaType.slot (l : Nat) (c : ParaCnt) : ParaType → Place
  | bool => .bit (.lm l) c.bit
  | word | int => .word (.v l) c.word
  | dword | dint | real => .dword (.v l) (.v l) c.word

/-- Where a subroutine at level `l` finds a parameter. -/
def Parameter.slot (l : Nat) (q : Parameter) : Place := q.type.slot l q.cnt

/-- Parameters of the given types, from an address and local elements on. -/
def numbered : Nat → ParaCnt → List ParaType → List Parameter
  | _, _, [] => []
  | ptr, c, t :: ts => ⟨ptr, c, t⟩ :: numbered (ptr + t.size) (c.after [t]) ts

/-- Parameters of the given types stand in memory from an address on. -/
def ParametersAt (u : Ucode) : Nat → List ParaType → Prop
  | _, [] => True
  | ptr, t :: ts => ParaType.ofCode (u.getPU16 ptr) = some t ∧ ParametersAt u (ptr + t.size) ts

instance decidableParametersAt (u : Ucode) : ∀ ptr ts, Decidable (ParametersAt u ptr ts)
  | _, [] => .isTrue trivial
  | ptr, t :: ts =>
    have := decidableParametersAt u (ptr + t.size) ts
    inferInstanceAs (Decidable (_ ∧ _))

section

variable {u : Ucode} {ptr : Nat} {c : ParaCnt} {t : ParaType} {ts xs ys : List ParaType}

@[simp] theorem paraBytes_cons : paraBytes (t :: ts) = t.size + paraBytes ts := by
  simp [paraBytes]

@[simp] theorem paraBits_cons : paraBits (t :: ts) = t.bits + paraBits ts := by
  simp [paraBits]

@[simp] theorem paraWords_cons : paraWords (t :: ts) = t.words + paraWords ts := by
  simp [paraWords]

@[simp] theorem paraBytes_append : paraBytes (xs ++ ys) = paraBytes xs + paraBytes ys := by
  simp [paraBytes]

@[simp] theorem paraBits_append : paraBits (xs ++ ys) = paraBits xs + paraBits ys := by
  simp [paraBits]

@[simp] theorem paraWords_append : paraWords (xs ++ ys) = paraWords xs + paraWords ys := by
  simp [paraWords]

@[simp] theorem ParaCnt.after_nil : c.after [] = c := rfl

theorem ParaCnt.after_cons : c.after (t :: ts) = (c.after [t]).after ts := by
  simp [ParaCnt.after, paraBits, paraWords, Nat.add_assoc]

theorem ParaType.size_pos : 0 < t.size := by
  cases t <;> decide

/-- As long as they fit into a layer, the counters do not overflow. -/
theorem ParaCnt.add_eq (hbit : (c.after [t]).bit ≤ lmRang) (hword : (c.after [t]).word ≤ vRang) :
    c.add t = c.after [t] := by
  simp only [ParaCnt.after, paraBits, paraWords, map_cons, sum_cons, lmRang,
    vRang] at hbit hword
  simp only [ParaCnt.add, ParaCnt.after, paraBits, paraWords, map_cons, map_nil,
    sum_cons, sum_nil, Nat.add_zero]
  rw [mod_eq_of_lt (by omega), mod_eq_of_lt (by omega)]

theorem numbered_append :
    numbered ptr c (xs ++ ys) =
      numbered ptr c xs ++ numbered (ptr + paraBytes xs) (c.after xs) ys := by
  induction xs generalizing ptr c with
  | nil => simp [numbered, paraBytes]
  | cons t xs ih =>
    rw [cons_append, numbered, numbered, ih, cons_append, paraBytes_cons,
      ← ParaCnt.after_cons, Nat.add_assoc]

@[simp] theorem numbered_length : (numbered ptr c ts).length = ts.length := by
  induction ts generalizing ptr c with
  | nil => rfl
  | cons t ts ih => rw [numbered, length_cons, length_cons, ih]

theorem parametersAt_append :
    ParametersAt u ptr (xs ++ ys) ↔
      ParametersAt u ptr xs ∧ ParametersAt u (ptr + paraBytes xs) ys := by
  induction xs generalizing ptr with
  | nil => simp [ParametersAt, paraBytes]
  | cons t xs ih => rw [cons_append, ParametersAt, ParametersAt, ih, paraBytes_cons,
      Nat.add_assoc, and_assoc]

/-- Parameters lie inside the memory, so that there are fewer of them than bytes. -/
theorem ParametersAt.length_lt (h : ParametersAt u ptr ts) : ts.length < u.length + 1 := by
  suffices hle : ts ≠ [] → ptr + ts.length ≤ u.length by
    cases ts with
    | nil => exact succ_pos _
    | cons t ts =>
      have := hle (cons_ne_nil t ts)
      omega
  induction ts generalizing ptr with
  | nil => exact fun hne => absurd rfl hne
  | cons t ts ih =>
    intro _
    have hne : u.getPU16 ptr ≠ 0 := by
      intro hzero
      have := h.1
      rw [hzero] at this
      cases this
    have hlt := Ucode.lt_length_of_getPU16_ne_zero hne
    have hpos := t.size_pos
    cases ts with
    | nil => exact succ_le_of_lt hlt
    | cons t' ts =>
      have := ih h.2 (cons_ne_nil t' ts)
      simp only [length_cons] at this ⊢
      omega

end

/-! ## Slots -/

/-- A value has no bits that a parameter could not hold. -/
def ParaType.Fits (x : BitVec 32) : ParaType → Prop
  | bool => ∃ b : Bool, x = BitVec.ofNat 32 b.toNat
  | word | int => ∃ y : BitVec 16, x = y.setWidth 32
  | dword | dint | real => True

/-- The slot of a parameter lies inside the layer. -/
def ParaType.InLayer (c : ParaCnt) (type : ParaType) : Prop :=
  c.bit + type.bits ≤ lmRang ∧ c.word + type.words ≤ vRang

/-- The slot of one parameter ends before that of another begins. -/
def ParaType.Before (c : ParaCnt) (type : ParaType) (c' : ParaCnt) : Prop :=
  c.bit + type.bits ≤ c'.bit ∧ c.word + type.words ≤ c'.word

section

variable {c c' : ParaCnt} {t : ParaType} {ts : List ParaType} {temp limit : Nat}

/-- The slot of a parameter ends where the counters are after it. -/
theorem ParaType.before_iff :
    t.Before c c' ↔ (c.after [t]).bit ≤ c'.bit ∧ (c.after [t]).word ≤ c'.word := by
  simp [Before, ParaCnt.after, paraBits, paraWords]

theorem ParaType.inLayer_iff :
    t.InLayer c ↔ (c.after [t]).bit ≤ lmRang ∧ (c.after [t]).word ≤ vRang := by
  simp [InLayer, ParaCnt.after, paraBits, paraWords]

/-- If all parameters of a section fit into the layer, so does the first of them. -/
theorem ParaType.inLayer_of_cons (hbit : (c.after (t :: ts)).bit ≤ lmRang)
    (hword : (c.after (t :: ts)).word ≤ vRang) : t.InLayer c := by
  rw [ParaCnt.after_cons] at hbit hword
  exact inLayer_iff.mpr
    ⟨Nat.le_trans (Nat.le_add_right _ _) hbit, Nat.le_trans (Nat.le_add_right _ _) hword⟩

/-- A loop over a section ends behind its last parameter. -/
theorem not_lt_of_section_nil (htemp : temp + paraBytes [] = limit) : ¬ temp < limit :=
  Nat.not_lt_of_le (Nat.le_of_eq htemp.symm)

/-- Before that, it goes on to the next parameter, without an overflow of its counter. -/
theorem lt_of_section_cons (htemp : temp + paraBytes (t :: ts) = limit) (hlimit : limit < 65536) :
    temp < limit ∧ (temp + t.size) % 65536 = temp + t.size ∧
      temp + t.size + paraBytes ts = limit := by
  rw [paraBytes_cons] at htemp
  have hpos := t.size_pos
  exact ⟨by omega, mod_eq_of_lt (by omega), by omega⟩

end

section

variable {u : Ucode} {n l ptr : Nat} {c c' : ParaCnt} {type type' : ParaType} {s s' : Store}
  {pl : Place} {x : BitVec 32}

theorem setWidth_setWidth_word (y : BitVec 16) : (y.setWidth 32).setWidth 16 = y := by
  simp

theorem ofNat_toNat_getLsbD (b : Bool) : (BitVec.ofNat 32 b.toNat).getLsbD 0 = b := by
  cases b <;> rfl

theorem setWord_slot (y : BitVec 16) (s : Store) :
    s.setWord (.v l) c.word y = (Place.word (.v l) c.word).write (y.setWidth 32) s := by
  rw [Place.write, setWidth_setWidth_word]

theorem slot_read_write_self (hfits : type.Fits x) :
    (type.slot l c).read ((type.slot l c).write x s) = x := by
  cases type with
  | bool =>
    obtain ⟨b, rfl⟩ := hfits
    simp only [ParaType.slot, Place.read, Place.write, Store.getBit, Store.setBit,
      update_self, ofNat_toNat_getLsbD]
  | word | int =>
    obtain ⟨y, rfl⟩ := hfits
    simp [ParaType.slot, Place.read, Place.write, Store.getWord, Store.setWord]
  | dword | dint | real =>
    have hne : vRang * l + c.word ≠ vRang * l + (c.word + 1) := by omega
    simp only [ParaType.slot, Place.read, Place.write, setDword, Store.getWord, Store.setWord,
      update_self, update_of_ne hne]
    exact append_halves x

/-- Writing a slot changes no other bits. -/
theorem slot_write_lm {j : Nat}
    (h : j < lmRang * l + c.bit ∨ lmRang * l + (c.bit + type.bits) ≤ j) :
    ((type.slot l c).write x s).lm j = s.lm j := by
  cases type with
  | bool =>
    simp only [ParaType.bits] at h
    exact update_of_ne (by omega) _ _
  | word | int | dword | dint | real => rfl

/-- Writing a slot changes no other words. -/
theorem slot_write_v {j : Nat}
    (h : j < vRang * l + c.word ∨ vRang * l + (c.word + type.words) ≤ j) :
    ((type.slot l c).write x s).v j = s.v j := by
  cases type with
  | bool => rfl
  | word | int =>
    simp only [ParaType.words] at h
    exact update_of_ne (by omega) _ _
  | dword | dint | real =>
    simp only [ParaType.words] at h
    have hhigh : j ≠ vRang * l + (c.word + 1) := by omega
    have hlow : j ≠ vRang * l + c.word := by omega
    exact (update_of_ne hhigh _ _).trans (update_of_ne hlow _ _)

/-- The value of a slot depends on its own elements only. -/
theorem slot_read_congr
    (hlm : ∀ i < c.bit + type.bits, c.bit ≤ i → s'.lm (lmRang * l + i) = s.lm (lmRang * l + i))
    (hv : ∀ i < c.word + type.words, c.word ≤ i → s'.v (vRang * l + i) = s.v (vRang * l + i)) :
    (type.slot l c).read s' = (type.slot l c).read s := by
  cases type with
  | bool =>
    have hbit := hlm c.bit (lt_succ_self _) (Nat.le_refl _)
    simp only [ParaType.slot, Place.read, Store.getBit, hbit]
  | word | int =>
    have hword := hv c.word (lt_succ_self _) (Nat.le_refl _)
    simp only [ParaType.slot, Place.read, Store.getWord, hword]
  | dword | dint | real =>
    have hlow := hv c.word (Nat.lt_add_of_pos_right Nat.two_pos) (Nat.le_refl _)
    have hhigh := hv (c.word + 1) (lt_succ_self _) (le_succ _)
    simp only [ParaType.slot, Place.read, Store.getWord, hlow, hhigh]

/-- Writing a slot leaves the slots before and behind it alone. -/
theorem slot_read_write (h : type.Before c c' ∨ type'.Before c' c) :
    (type'.slot l c').read ((type.slot l c).write x s) = (type'.slot l c').read s := by
  unfold ParaType.Before at h
  apply slot_read_congr
  · intro i hlt hle
    exact slot_write_lm (by omega)
  · intro i hlt hle
    exact slot_write_v (by omega)

/-- Writing a slot changes nothing outside its layer. -/
theorem slot_write_sameOutside (h : type.InLayer c) :
    SameOutside l s ((type.slot l c).write x s) := by
  have hcell {r j k : Nat} (hk : k ≤ r) (hj : j / r ≠ l) : j < r * l ∨ r * l + k ≤ j := by
    by_contra hmem
    have hlt : j - r * l < r := by omega
    have hdiv : (r * l + (j - r * l)) / r = l := layer_div hlt
    rw [show r * l + (j - r * l) = j by omega] at hdiv
    exact hj hdiv
  refine ⟨?_, fun j hj => slot_write_lm ?_, fun j hj => slot_write_v ?_⟩
  · cases type <;> rfl
  · have := hcell h.1 hj
    omega
  · have := hcell h.2 hj
    omega

theorem SameLayer.slot_read (h : SameLayer l s s') (hin : type.InLayer c) :
    (type.slot l c).read s' = (type.slot l c).read s := by
  obtain ⟨hbit, hword⟩ := hin
  apply slot_read_congr
  · intro i hlt hle
    exact h.lm _ (layer_div (by omega))
  · intro i hlt hle
    exact h.v _ (layer_div (by omega))

/-! ## One parameter -/

theorem loadParameter_of_place (h : loadPlace u n s ptr type = some pl) (stale : Bool) :
    type.Fits (pl.read s) ∧
      loadParameter u ptr n c s stale type =
        (.ok (), (type.slot (n + 1) c).write (pl.read s) s) := by
  cases type with
  | bool =>
    obtain ⟨b, hget, hread⟩ := getChar_of_place h
    refine ⟨⟨b, hread⟩, ?_⟩
    simp only [loadParameter, hget, hread, ParaType.slot, Place.write, ofNat_toNat_getLsbD]
    rfl
  | word | int =>
    obtain ⟨y, hget, hread⟩ := getWord_of_place h
    refine ⟨⟨y, hread⟩, ?_⟩
    simp only [loadParameter, hget, hread, Place.write, setWidth_setWidth_word]
    rfl
  | dword | dint =>
    refine ⟨trivial, ?_⟩
    simp only [loadParameter, getDword_of_place h]
    rfl
  | real =>
    refine ⟨trivial, ?_⟩
    simp only [loadParameter, getFloat_of_place h]
    rfl

/-- Storing a parameter copies the slot into the place that is written. The slot may be changed by
it. -/
theorem storeParameter_of_place (h : storePlace u n s ptr type = some pl) :
    ∃ s', storeParameter u ptr n c s type = (.ok (), s') ∧
      (s' = pl.write ((type.slot (n + 1) c).read s) s ∨
        ∃ y, s' = (type.slot (n + 1) c).write y (pl.write ((type.slot (n + 1) c).read s) s)) := by
  cases type with
  | bool => exact ⟨_, saveChar_of_place h _, .inl rfl⟩
  | word | int =>
    obtain ⟨y, hsave⟩ := saveWord_of_place h (s.getWord (.v (n + 1)) c.word)
    refine ⟨_, ?_, .inr ⟨y.setWidth 32, setWord_slot y _⟩⟩
    rw [storeParameter, hsave]
    rfl
  | dword | dint =>
    obtain ⟨y, hsave⟩ := saveDword_of_place h
      (s.getWord (.v (n + 1)) (c.word + 1) ++ s.getWord (.v (n + 1)) c.word)
    refine ⟨_, ?_, .inr ⟨y, rfl⟩⟩
    simp only [storeParameter, hsave]
    rfl
  | real => exact ⟨_, saveFloat_of_place h _, .inl rfl⟩

end

/-! ## The pass over the input -/

/-- The subroutine finds in the slots what the operands of its caller at level `n` hold, and nothing
outside its layer has changed. -/
structure SeesOperands (u : Ucode) (n : Nat) (qs : List Parameter) (s s' : Store) : Prop where
  slots : ∀ q ∈ qs, ∃ pl, namedPlace u n s q.ptr q.type = some pl ∧
    (q.slot (n + 1)).read s' = pl.read s
  frame : SameOutside (n + 1) s s'

def LoadsNamed (u : Ucode) (n : Nat) (s : Store) (q : Parameter) : Prop :=
  ∃ pl, namedPlace u n s q.ptr q.type = some pl ∧
    ∀ a, operandType u q.ptr = some a → LoadsOwn a pl q.type

/-- The counters that the input pass writes back. -/
def keptAfter (inCnt : Nat) : Nat → ParaCnt → ParaCnt → List ParaType → ParaCnt
  | _, _, kept, [] => kept
  | temp, c, kept, t :: ts =>
    keptAfter inCnt (temp + t.size) (c.after [t])
      (if temp + t.size = inCnt then c.after [t] else kept) ts

section

variable {u : Ucode} {n ptr temp limit fuel inCnt : Nat} {c kept : ParaCnt} {t : ParaType}
  {ts xs ys : List ParaType} {s₀ s : Store} {pl : Place}

theorem operandType_of_named (h : namedPlace u n s ptr t = some pl) :
    ∃ a, operandType u ptr = some a := by
  unfold operandType
  cases ha : AddrType.ofCode (u.getPU8 (ptr + 2 + 1)) with
  | some a => exact ⟨a, rfl⟩
  | none =>
    cases t <;>
      simp [namedPlace, bitPlace, wordPlace, dwordPlace, ha] at h

theorem keptAfter_of_le (h : inCnt ≤ temp) : keptAfter inCnt temp c kept ts = kept := by
  induction ts generalizing temp c kept with
  | nil => rfl
  | cons t ts ih =>
    have hpos := t.size_pos
    have hne : temp + t.size ≠ inCnt := by omega
    rw [keptAfter, if_neg hne]
    exact ih (by omega)

theorem keptAfter_append (hxs : xs ≠ []) (h : temp + paraBytes xs = inCnt) :
    keptAfter inCnt temp c kept (xs ++ ys) = c.after xs := by
  induction xs generalizing temp c kept with
  | nil => exact absurd rfl hxs
  | cons t xs ih =>
    rw [paraBytes_cons] at h
    rw [cons_append, keptAfter]
    cases xs with
    | nil =>
      have hlast : temp + t.size = inCnt := h
      rw [if_pos hlast]
      exact keptAfter_of_le (Nat.le_of_eq hlast.symm)
    | cons t' xs =>
      have hrest : temp + t.size + paraBytes (t' :: xs) = inCnt := by omega
      exact (ih (cons_ne_nil t' xs) hrest).trans ParaCnt.after_cons.symm

/-- The counters kept are those behind the input section. -/
theorem keptAfter_sections (h : paraBytes xs = inCnt) :
    keptAfter inCnt 0 ⟨0, 0⟩ ⟨0, 0⟩ (xs ++ ys) = ParaCnt.after ⟨0, 0⟩ xs := by
  cases xs with
  | nil => exact keptAfter_of_le (Nat.le_of_eq h.symm)
  | cons t xs => exact keptAfter_append (cons_ne_nil t xs) (by omega)

/-- The loop of the input pass fills the slots of its parameters. It does not touch the slots before
them. -/
theorem inParameterLoop_eq (stale : Bool) (inCnt : Nat) (kept : ParaCnt)
    (hat : ParametersAt u ptr ts) (htemp : temp + paraBytes ts = limit) (hlimit : limit < 65536)
    (hfuel : ts.length < fuel) (hbit : (c.after ts).bit ≤ lmRang)
    (hword : (c.after ts).word ≤ vRang) (hloads : ∀ q ∈ numbered ptr c ts, LoadsNamed u n s₀ q)
    (hs : SameOutside (n + 1) s₀ s) :
    ∃ s', inParameterLoop stale u n inCnt limit fuel ptr temp c kept s =
        (.ok (), keptAfter inCnt temp c kept ts, s') ∧
      SeesOperands u n (numbered ptr c ts) s₀ s' ∧
      ∀ type c', ParaType.Before c' type c →
        (type.slot (n + 1) c').read s' = (type.slot (n + 1) c').read s := by
  induction ts generalizing ptr temp c kept s fuel with
  | nil =>
    obtain ⟨fuel, rfl⟩ := exists_eq_add_one_of_ne_zero (Nat.ne_zero_of_lt hfuel)
    refine ⟨s, ?_, ⟨by simp [numbered], hs⟩, fun _ _ _ => rfl⟩
    rw [inParameterLoop, if_neg (not_lt_of_section_nil htemp), keptAfter]
  | cons t ts ih =>
    obtain ⟨fuel, rfl⟩ := exists_eq_add_one_of_ne_zero (Nat.ne_zero_of_lt hfuel)
    obtain ⟨hmore, hmod, htemp'⟩ := lt_of_section_cons htemp hlimit
    have hin : t.InLayer c := ParaType.inLayer_of_cons hbit hword
    obtain ⟨hbit', hword'⟩ := ParaType.inLayer_iff.mp hin
    rw [ParaCnt.after_cons] at hbit hword
    have hnext : t.Before c (c.after [t]) :=
      ParaType.before_iff.mpr ⟨Nat.le_refl _, Nat.le_refl _⟩
    obtain ⟨pl, hpl, hown⟩ := hloads ⟨ptr, c, t⟩ mem_cons_self
    obtain ⟨a, ha⟩ := operandType_of_named hpl
    have hplace : loadPlace u n s ptr t = some pl := by
      refine loadPlace_of_named ?_ ha (hown a ha)
      rw [namedPlace_congr hs.word]
      exact hpl
    have hread : pl.read s = pl.read s₀ := hs.read (by omega) (namedPlace_within hpl)
    obtain ⟨hfits, hload⟩ := loadParameter_of_place (c := c) hplace stale
    have hs' : SameOutside (n + 1) s₀ ((t.slot (n + 1) c).write (pl.read s) s) :=
      hs.trans (slot_write_sameOutside hin)
    obtain ⟨s', hloop, hsees, hbefore⟩ := ih (if temp + t.size = inCnt then c.after [t] else kept)
      hat.2 htemp' (lt_of_succ_lt_succ hfuel) hbit hword
      (fun q hq => hloads q (mem_cons_of_mem _ hq)) hs'
    refine ⟨s', ?_, ⟨?_, hsees.frame⟩, ?_⟩
    · rw [inParameterLoop, if_pos hmore, hat.1]
      simp only [hload, hmod, ParaCnt.add_eq hbit' hword']
      exact hloop
    · intro q hq
      rcases mem_cons.mp hq with rfl | hq
      · refine ⟨pl, hpl, ?_⟩
        rw [Parameter.slot, hbefore t c hnext, slot_read_write_self hfits, hread]
      · exact hsees.slots q hq
    · intro type c' hc'
      have hc'' : type.Before c' (c.after [t]) :=
        ⟨Nat.le_trans hc'.1 (Nat.le_add_right _ _), Nat.le_trans hc'.2 (Nat.le_add_right _ _)⟩
      rw [hbefore type c' hc'', slot_read_write (.inr hc')]

end

/-! ## The pass over the output -/

/-- Assign to the operands of a list of parameters, one after the other, what their slots hold in
`s₀`. None if an operand names no place. -/
def assignAll (u : Ucode) (n : Nat) (s₀ : Store) : List Parameter → Store → Option Store
  | [], s => some s
  | q :: qs, s =>
    match namedPlace u n s q.ptr q.type with
    | some pl => assignAll u n s₀ qs (pl.write ((q.slot (n + 1)).read s₀) s)
    | none => none

/-- Along these assignments, the place an operand names is the one stored to. -/
def StoresNamed (u : Ucode) (n : Nat) (s₀ : Store) : List Parameter → Store → Prop
  | [], _ => True
  | q :: qs, s =>
    ∀ a pl, operandType u q.ptr = some a → namedPlace u n s q.ptr q.type = some pl →
      StoresOwn a pl q.type ∧ StoresNamed u n s₀ qs (pl.write ((q.slot (n + 1)).read s₀) s)

section

variable {u : Ucode} {n ptr temp limit fuel : Nat} {c : ParaCnt} {t : ParaType}
  {ts : List ParaType} {s₀ s s' r : Store}

/-- The loop of the output pass makes the assignments, as far as the elements outside the layer of
the subroutine are concerned. The slots still to come are as the subroutine has left them. -/
theorem outParameterLoop_eq (hat : ParametersAt u ptr ts) (htemp : temp + paraBytes ts = limit)
    (hlimit : limit < 65536) (hfuel : ts.length < fuel) (hbit : (c.after ts).bit ≤ lmRang)
    (hword : (c.after ts).word ≤ vRang) (hstores : StoresNamed u n s₀ (numbered ptr c ts) s)
    (hassign : assignAll u n s₀ (numbered ptr c ts) s = some r) (hs : SameOutside (n + 1) s s')
    (hslots : ∀ (type : ParaType) c', c.bit ≤ c'.bit → c.word ≤ c'.word → type.InLayer c' →
      (type.slot (n + 1) c').read s' = (type.slot (n + 1) c').read s₀) :
    ∃ r', outParameterLoop u n limit fuel ptr temp c s' = (.ok (), r') ∧
      SameOutside (n + 1) r r' := by
  induction ts generalizing ptr temp c s s' fuel with
  | nil =>
    obtain ⟨fuel, rfl⟩ := exists_eq_add_one_of_ne_zero (Nat.ne_zero_of_lt hfuel)
    obtain rfl := some.inj hassign
    refine ⟨s', ?_, hs⟩
    rw [outParameterLoop, if_neg (not_lt_of_section_nil htemp)]
  | cons t ts ih =>
    obtain ⟨fuel, rfl⟩ := exists_eq_add_one_of_ne_zero (Nat.ne_zero_of_lt hfuel)
    obtain ⟨hmore, hmod, htemp'⟩ := lt_of_section_cons htemp hlimit
    have hin : t.InLayer c := ParaType.inLayer_of_cons hbit hword
    obtain ⟨hbit', hword'⟩ := ParaType.inLayer_iff.mp hin
    rw [ParaCnt.after_cons] at hbit hword
    rw [numbered, assignAll] at hassign
    split at hassign
    swap
    · cases hassign
    rename_i pl hpl
    obtain ⟨a, ha⟩ := operandType_of_named hpl
    obtain ⟨hown, hrest⟩ := hstores a pl ha hpl
    have hplace : storePlace u n s' ptr t = some pl := by
      refine storePlace_of_named ?_ ha hown
      rw [namedPlace_congr hs.word]
      exact hpl
    have hvalue := hslots t c (Nat.le_refl _) (Nat.le_refl _) hin
    obtain ⟨s₁, hstore, hs₁⟩ := storeParameter_of_place (c := c) hplace
    rw [hvalue] at hs₁
    have hwrite := hs.write ((t.slot (n + 1) c).read s₀) pl
    have hlayer : SameLayer (n + 1) s' (pl.write ((t.slot (n + 1) c).read s₀) s') :=
      .of_write (namedPlace_within hpl) (by omega) _
    have hs' : SameOutside (n + 1) (pl.write ((t.slot (n + 1) c).read s₀) s) s₁ := by
      rcases hs₁ with rfl | ⟨y, rfl⟩
      · exact hwrite
      · exact hwrite.trans (slot_write_sameOutside hin)
    have hslots' : ∀ (type : ParaType) c', (c.after [t]).bit ≤ c'.bit →
        (c.after [t]).word ≤ c'.word → type.InLayer c' →
        (type.slot (n + 1) c').read s₁ = (type.slot (n + 1) c').read s₀ := by
      intro type c' hle hle' hin'
      have hnext : t.Before c c' := ParaType.before_iff.mpr ⟨hle, hle'⟩
      have hkeep := (hlayer.slot_read hin').trans (hslots type c'
        (Nat.le_trans (Nat.le_add_right _ _) hle) (Nat.le_trans (Nat.le_add_right _ _) hle') hin')
      rcases hs₁ with rfl | ⟨y, rfl⟩
      · exact hkeep
      · rw [slot_read_write (.inl hnext)]
        exact hkeep
    obtain ⟨r', hloop, hr'⟩ := ih hat.2 htemp' (lt_of_succ_lt_succ hfuel) hbit hword hrest
      hassign hs' hslots'
    refine ⟨r', ?_, hr'⟩
    rw [outParameterLoop, if_pos hmore, hat.1]
    simp only [hstore, hmod, ParaCnt.add_eq hbit' hword']
    exact hloop

end

/-! ## The sections of a call -/

/-- The types of the parameters in the three sections of a `CALL`. -/
structure Sections where
  ins : List ParaType
  inOuts : List ParaType
  outs : List ParaType

namespace Sections

def all (x : Sections) : List ParaType := x.ins ++ x.inOuts ++ x.outs

/-- The `CALL` at `p` has these sections, with no more bits and words than a layer. -/
structure At (x : Sections) (u : Ucode) (p : Nat) : Prop where
  inLen : u.getPU16 (p + 4) = paraBytes x.ins
  inOutLen : u.getPU16 (p + 6) = paraBytes x.inOuts
  outLen : u.getPU16 (p + 8) = paraBytes x.outs
  types : ParametersAt u (p + 10) x.all
  bits : paraBits x.all ≤ lmRang
  words : paraWords x.all ≤ vRang

/-- All parameters of the `CALL` at `p`, with the local elements of the subroutine. -/
def parameters (x : Sections) (p : Nat) : List Parameter := numbered (p + 10) ⟨0, 0⟩ x.all

/-- The parameters that are passed to the subroutine. -/
def loaded (x : Sections) (p : Nat) : List Parameter :=
  (x.parameters p).take (x.ins ++ x.inOuts).length

/-- The parameters that are passed back. -/
def stored (x : Sections) (p : Nat) : List Parameter := (x.parameters p).drop x.ins.length

end Sections

section

variable {u : Ucode} {n p : Nat} {x : Sections} {s s₀ r : Store} {ts : List ParaType}

theorem paraBytes_le : paraBytes ts ≤ 6 * (paraBits ts + paraWords ts) := by
  induction ts with
  | nil => simp [paraBytes]
  | cons t ts ih =>
    have ht : t.size ≤ 6 * (t.bits + t.words) := by
      cases t <;> decide
    simp only [paraBytes_cons, paraBits_cons, paraWords_cons]
    omega

theorem Sections.loaded_eq : x.loaded p = numbered (p + 10) ⟨0, 0⟩ (x.ins ++ x.inOuts) := by
  rw [loaded, parameters, all, numbered_append, take_left']
  exact numbered_length

theorem Sections.stored_eq :
    x.stored p = numbered (p + 10 + paraBytes x.ins) (ParaCnt.after ⟨0, 0⟩ x.ins)
      (x.inOuts ++ x.outs) := by
  rw [stored, parameters, all, append_assoc, numbered_append, drop_left']
  exact numbered_length

theorem Sections.At.bytes_lt (h : x.At u p) : paraBytes x.all < 65536 := by
  have hle : paraBytes x.all ≤ _ := paraBytes_le
  have hbits := h.bits
  have hwords := h.words
  simp only [lmRang, vRang] at hbits hwords
  omega

theorem clearLayer_sameOutside (l : Nat) (s : Store) : SameOutside l s (clearLayer l s) := by
  have hcell {i j : Nat} (hi : i ∈ range lmRang) (hj : j / lmRang ≠ l) :
      j ≠ lmRang * l + i := by
    rintro rfl
    exact hj (layer_div (mem_range.mp hi))
  suffices h : ∀ is : List Nat, (∀ i ∈ is, i ∈ range lmRang) → SameOutside l s (is.foldl
      (fun s i => (s.setBit (.lm l) i false).setWord (.v l) i 0) s) from h _ fun _ hi => hi
  intro is his
  induction is generalizing s with
  | nil => exact .refl s
  | cons i is ih =>
    have hi := his i mem_cons_self
    refine SameOutside.trans ⟨rfl, fun j hj => ?_, fun j hj => ?_⟩
      (ih _ fun j hj => his j (mem_cons_of_mem i hj))
    · exact update_of_ne (hcell hi hj) _ _
    · exact update_of_ne (hcell hi hj) _ _

/-- The input pass of a `CALL`. -/
theorem plcCallInsInParameterParse_eq (h : x.At u p) (stale : Bool)
    (hloads : ∀ q ∈ x.loaded p, LoadsNamed u n s q) :
    ∃ s', plcCallInsInParameterParse stale u p n s =
        (.ok (), ParaCnt.after ⟨0, 0⟩ x.ins, s') ∧ SeesOperands u n (x.loaded p) s s' := by
  have hbytes := h.bytes_lt
  have hbits := h.bits
  have hwords := h.words
  have htypes := h.types
  rw [Sections.all, parametersAt_append] at htypes
  simp only [Sections.all, paraBytes_append, paraBits_append, paraWords_append]
    at hbytes hbits hwords
  have hlimit :
      (u.getPU16 (p + 4) + u.getPU16 (p + 6)) % 65536 = paraBytes (x.ins ++ x.inOuts) := by
    rw [h.inLen, h.inOutLen, paraBytes_append, mod_eq_of_lt (by omega)]
  rw [Sections.loaded_eq] at hloads ⊢
  obtain ⟨s', hloop, hsees, -⟩ := inParameterLoop_eq stale (paraBytes x.ins) ⟨0, 0⟩
    htypes.1 (Nat.zero_add _) (by rw [paraBytes_append]; omega) htypes.1.length_lt
    (by simp only [ParaCnt.after, paraBits_append]; omega)
    (by simp only [ParaCnt.after, paraWords_append]; omega) hloads
    (clearLayer_sameOutside (n + 1) s)
  refine ⟨s', ?_, hsees⟩
  rw [plcCallInsInParameterParse, hlimit, h.inLen, hloop, keptAfter_sections rfl]

/-- The output pass of a `CALL`. -/
theorem plcCallInsOutParameterParse_eq (h : x.At u p)
    (hstores : StoresNamed u n s (x.stored p) s)
    (hassign : assignAll u n s (x.stored p) s = some r) :
    ∃ r', plcCallInsOutParameterParse u p n (ParaCnt.after ⟨0, 0⟩ x.ins) s = (.ok (), r') ∧
      SameOutside (n + 1) r r' := by
  have hbytes := h.bytes_lt
  have hbits := h.bits
  have hwords := h.words
  have htypes := h.types
  rw [Sections.all, append_assoc, parametersAt_append] at htypes
  simp only [Sections.all, paraBytes_append, paraBits_append, paraWords_append]
    at hbytes hbits hwords
  have hlimit :
      (u.getPU16 (p + 6) + u.getPU16 (p + 8)) % 65536 = paraBytes (x.inOuts ++ x.outs) := by
    rw [h.inOutLen, h.outLen, paraBytes_append, mod_eq_of_lt (by omega)]
  rw [Sections.stored_eq] at hstores hassign
  rw [plcCallInsOutParameterParse, hlimit, h.inLen]
  exact outParameterLoop_eq htypes.2 (Nat.zero_add _) (by rw [paraBytes_append]; omega)
    htypes.2.length_lt (by simp only [ParaCnt.after, paraBits_append]; omega)
    (by simp only [ParaCnt.after, paraWords_append]; omega) hstores hassign (.refl s)
    (fun _ _ _ _ _ => rfl)

end

/-! ## Calls -/

/-- The instruction at `c` is a `CALL` with these sections that is to be executed: it has power
flow, stands in the table, calls a subroutine that is there, and is not nested too deeply. -/
structure Calls (t : CompState) (u : Ucode) (x : Sections) (c : Config) : Prop where
  ins : ComplexIns.ofCode (u.getPU16 c.env.pc) = some .call
  sections : x.At u c.env.pc
  listed : (plcGetCallInsId t c.env.pc).isSome
  level : c.plc.sbrNestedNum < maxSbrNestedLayer
  power : getPowerFlow c.env.inPF = true
  entry : IsSbrEntry t u (callSbrNumber u c.env.pc)

/-- The `CALL` at `c` passes its parameters: the subroutine sees what the operands hold, and
whenever it comes to its end, after any run and in a state whose elements meet `K`, and the operands
to assign to exist, then they get what the subroutine has left in the slots, and nothing else
changes outside the layer of the subroutine. -/
def PassesParameters (out : Outside) (t : CompState) (u : Ucode) (K : Store → Prop) (x : Sections)
    (now : BitVec 32) (c : Config) : Prop :=
  ∃ a cnt, step out t u now c = .inl a ∧ a.frames = ⟨c.env, cnt⟩ :: c.frames ∧
    SeesOperands u c.plc.sbrNestedNum (x.loaded c.env.pc) c.plc.store a.plc.store ∧
    ∀ b now' r, Relation.ReflTransGen
        (fun x y => Step out t u x y ∧ (⟨c.env, cnt⟩ :: c.frames) <:+ y.frames) a b →
      b.frames = ⟨c.env, cnt⟩ :: c.frames → execIns out t u now' b.env b.plc = .done r →
      r.ret = .sret → K r.plc.store →
      ∀ s, assignAll u c.plc.sbrNestedNum r.plc.store (x.stored c.env.pc) r.plc.store = some s →
        (callReturn u c.env r.plc cnt).ret = .pass ∧
          SameOutside (c.plc.sbrNestedNum + 1) s (callReturn u c.env r.plc cnt).plc.store

def OperandsExist (u : Ucode) (x : Sections) (c : Config) : Prop :=
  ∀ q ∈ x.loaded c.env.pc, (namedPlace u c.plc.sbrNestedNum c.plc.store q.ptr q.type).isSome

/-- The subroutine has a layer, and the operands are loaded from the places they name. -/
structure LoadsOwnPlaces (u : Ucode) (x : Sections) (c : Config) : Prop where
  layer : c.plc.sbrNestedNum + 1 < maxSbrNestedLayer
  loads : ∀ q ∈ x.loaded c.env.pc, ∀ a pl, operandType u q.ptr = some a →
    namedPlace u c.plc.sbrNestedNum c.plc.store q.ptr q.type = some pl → LoadsOwn a pl q.type

/-- The operands are stored to the places they name, if the subroutine ends with the elements
`s`. -/
def StoresOwnPlaces (u : Ucode) (x : Sections) (c : Config) (s : Store) : Prop :=
  StoresNamed u c.plc.sbrNestedNum s (x.stored c.env.pc) s

section

variable {out : Outside} {t : CompState} {u : Ucode} {now : BitVec 32} {x : Sections} {c : Config}

theorem execIns_of_calls (out : Outside) (now : BitVec 32) (h : Calls t u x c)
    (hexist : OperandsExist u x c)
    (hown : LoadsOwnPlaces u x c) :
    ∃ entry plc, execIns out t u now c.env c.plc =
        .call entry (ParaCnt.after ⟨0, 0⟩ x.ins) plc ∧
      SeesOperands u c.plc.sbrNestedNum (x.loaded c.env.pc) c.plc.store plc.store := by
  have hloads : ∀ q ∈ x.loaded c.env.pc, LoadsNamed u c.plc.sbrNestedNum c.plc.store q := by
    intro q hq
    obtain ⟨pl, hpl⟩ := isSome_iff_exists.mp (hexist q hq)
    exact ⟨pl, hpl, fun a ha => hown.loads q hq a pl ha hpl⟩
  obtain ⟨id, hid⟩ := isSome_iff_exists.mp h.listed
  obtain ⟨s, hpass, hsees⟩ := plcCallInsInParameterParse_eq h.sections out.stale hloads
  rw [execIns_complex h.ins]
  simp only [ComplexIns.exec, runCiCallIns, hid, if_neg (Nat.not_le.mpr h.level), h.power,
    callWithPower, if_pos h.entry, hpass]
  exact ⟨_, _, rfl, hsees⟩

/-- A `CALL` passes its parameters, as long as they are loaded from and stored to the places that
the operands name. -/
theorem passesParameters_of_ownPlaces (h : Calls t u x c) (hexist : OperandsExist u x c)
    (hown : LoadsOwnPlaces u x c) :
    PassesParameters out t u (StoresOwnPlaces u x c) x now c := by
  obtain ⟨entry, plc, hexec, hsees⟩ := execIns_of_calls out now h hexist hown
  have henter : step out t u now c = .inl (enterProgram entry
      (⟨c.env, ParaCnt.after ⟨0, 0⟩ x.ins⟩ :: c.frames) plc) := by
    rw [step, hexec]
  refine ⟨_, _, henter, rfl, hsees, fun b now' r hrun hframes hsret hret hstores s hassign => ?_⟩
  -- The run between leaves the call level at one above that of the `CALL`.
  have hlevel : r.plc.sbrNestedNum - 1 = c.plc.sbrNestedNum := by
    have habove := (above_of_run henter rfl hrun).level
    rw [hframes, length_cons] at habove
    rw [(execIns_change hsret).sbrNestedNum]
    omega
  obtain ⟨s', hpass, hsame⟩ := plcCallInsOutParameterParse_eq h.sections hstores hassign
  simp only [callReturn, hlevel, hpass]
  exact ⟨rfl, hsame⟩

end

/-- `LDI X0; CALL SBR0; FEND; SBR 0; SRET`, with the lengths of the sections and the parameters of
the `CALL`. -/
def callFile (length : UInt8) (lengths parameters : List UInt8) : Ucode :=
  [0, 0, 0, 0, 0, 0, length, 0, 0, 0] ++ replicate 18 0 ++ [0x00, 0x20] ++
    [0x21, 0xF0, 0x00, 0x01] ++ lengths ++ parameters ++ [0x2B, 0xF0] ++
    [0x01, 0xF0, 0x00, 0x01] ++ [0x23, 0xF0] ++ replicate 4 0

/-- A `CALL` with the inputs `M0` and `D0`, `D2` as a double word in both directions, and the
outputs `Y0` and `K1M8`. -/
def mixedCallFile : Ucode :=
  callFile 84 [12, 0, 8, 0, 12, 0]
    ([0x01, 0x00, 0x00, 0x05, 0x00, 0x00] ++ [0x02, 0x00, 0x00, 0x11, 0x00, 0x00] ++
     [0x08, 0x00, 0x00, 0x11, 0x02, 0x00, 0x00, 0x00] ++
     [0x01, 0x00, 0x00, 0x01, 0x00, 0x00] ++ [0x02, 0x00, 0x01, 0x0E, 0x08, 0x00])

/-- The sections of the `CALL` in `mixedCallFile`. -/
def mixedSections : Sections := ⟨[.bool, .word], [.dword], [.bool, .word]⟩

/-- The state before the `CALL` of a `callFile`, with the given elements. -/
def beforeCall (u : Ucode) (s : Store) : Config :=
  ((runFor .idle (tablesOf u 6) u 1 (scanStart { Plc.off with store := s })).getD
    (scanStart .off))

/-- The `CALL` in `mixedCallFile` passes its parameters. -/
theorem mixedCallFile_passes :
    Calls (tablesOf mixedCallFile 6) mixedCallFile mixedSections (beforeCall mixedCallFile .off) ∧
    OperandsExist mixedCallFile mixedSections (beforeCall mixedCallFile .off) ∧
    LoadsOwnPlaces mixedCallFile mixedSections (beforeCall mixedCallFile .off) ∧
    PassesParameters .idle (tablesOf mixedCallFile 6) mixedCallFile
      (StoresOwnPlaces mixedCallFile mixedSections (beforeCall mixedCallFile .off)) mixedSections 0
      (beforeCall mixedCallFile .off) := by
  have hcalls : Calls (tablesOf mixedCallFile 6) mixedCallFile mixedSections
      (beforeCall mixedCallFile .off) :=
    ⟨by decide +kernel, ⟨by decide +kernel, by decide +kernel, by decide +kernel,
      by decide +kernel, by decide, by decide⟩, by decide +kernel, by decide +kernel,
      by decide +kernel, by decide +kernel⟩
  have hloaded : mixedSections.loaded (beforeCall mixedCallFile .off).env.pc =
      [⟨40, ⟨0, 0⟩, .bool⟩, ⟨46, ⟨1, 0⟩, .word⟩, ⟨52, ⟨1, 1⟩, .dword⟩] := by
    decide +kernel
  have hexist : OperandsExist mixedCallFile mixedSections (beforeCall mixedCallFile .off) := by
    rw [OperandsExist]
    decide +kernel
  have hown : LoadsOwnPlaces mixedCallFile mixedSections (beforeCall mixedCallFile .off) := by
    refine ⟨by decide +kernel, ?_⟩
    have hm : operandType mixedCallFile 40 = some .m := by decide +kernel
    have hd : operandType mixedCallFile 52 = some .d := by decide +kernel
    have hd2 : namedPlace mixedCallFile (beforeCall mixedCallFile .off).plc.sbrNestedNum
        (beforeCall mixedCallFile .off).plc.store 52 .dword =
        some (.dword (.elem .D) (.elem .D) 2) := by decide +kernel
    rw [hloaded]
    simp only [forall_mem_cons]
    refine ⟨?_, fun _ _ _ _ => trivial, ?_, fun _ hq => absurd hq (by simp)⟩
    · intro a pl ha hpl
      obtain rfl := some.inj (hm.symm.trans ha)
      simp [LoadsOwn]
    · intro a pl ha hpl
      obtain rfl := some.inj (hd.symm.trans ha)
      obtain rfl := some.inj (hd2.symm.trans hpl)
      simp [LoadsOwn]
  exact ⟨hcalls, hexist, hown, passesParameters_of_ownPlaces hcalls hexist hown⟩

def lmCallFile : Ucode := callFile 58 [6, 0, 0, 0, 0, 0] [0x01, 0x00, 0x00, 0x07, 0x00, 0x00]

/-- `LM0` of the main program is on, and nothing else. -/
def lmOn : Store := { Store.off with lm := fun i => i == 0 }

/-- A subroutine does not see the local bit that it is given: the bit is looked for in the layer of
the subroutine itself. -/
theorem lmCallFile_not_passes : ∃ s, Accepts enoughMemory lmCallFile s ∧
    ∃ c, Reachable .idle s lmCallFile c ∧ Calls s lmCallFile ⟨[.bool], [], []⟩ c ∧
      OperandsExist lmCallFile ⟨[.bool], [], []⟩ c ∧ c.plc.sbrNestedNum = 0 ∧
      ¬ PassesParameters .idle s lmCallFile (fun _ => True) ⟨[.bool], [], []⟩ 0 c := by
  have hrun : ∃ c, runFor .idle (tablesOf lmCallFile 6) lmCallFile 1
      (scanStart { Plc.off with store := lmOn }) = some c ∧ c.env.pc = 30 ∧
      c.plc.sbrNestedNum = 0 ∧ c.plc.store.lm 0 = true ∧
      Calls (tablesOf lmCallFile 6) lmCallFile ⟨[.bool], [], []⟩ c ∧
      namedPlace lmCallFile 0 c.plc.store 40 .bool = some (.bit (.lm 0) 0) ∧
      ∃ a, step .idle (tablesOf lmCallFile 6) lmCallFile 0 c = .inl a ∧
        a.plc.store.lm 64 = false := by
    refine ⟨_, rfl, rfl, rfl, rfl, ?_, by decide +kernel, _, rfl, by decide +kernel⟩
    exact ⟨by decide +kernel, ⟨by decide +kernel, by decide +kernel, by decide +kernel,
      by decide +kernel, by decide, by decide⟩, by decide +kernel, by decide +kernel,
      by decide +kernel, by decide +kernel⟩
  obtain ⟨c, hc, hpc, hlevel, hon, hcalls, hplace, a, hstep, hoff⟩ := hrun
  have hloaded : Sections.loaded ⟨[.bool], [], []⟩ c.env.pc = [⟨40, ⟨0, 0⟩, .bool⟩] := by
    rw [hpc]
    rfl
  refine ⟨_, accepts_tablesOf ⟨_, rfl⟩, c, ⟨_, reaches_of_runFor hc⟩, hcalls, ?_, hlevel, ?_⟩
  · intro q hq
    rw [hloaded, mem_singleton] at hq
    rw [hq]
    rfl
  · rintro ⟨a', cnt, hstep', -, hsees, -⟩
    obtain rfl := Sum.inl.inj (hstep.symm.trans hstep')
    obtain ⟨pl, hpl, hread⟩ := hsees.slots ⟨40, ⟨0, 0⟩, .bool⟩ (by rw [hloaded]; simp)
    rw [hlevel] at hpl hread
    obtain rfl := some.inj (hplace.symm.trans hpl)
    have hslot : BitVec.ofNat 32 (a.plc.store.lm 64).toNat =
        BitVec.ofNat 32 (c.plc.store.lm 0).toNat := hread
    rw [hon, hoff] at hslot
    exact absurd hslot (by decide)

end Kalyke
