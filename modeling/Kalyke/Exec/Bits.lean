-- SUMMARY: The paths on which bit elements are read and written, and the classes on which they agree.
import Kalyke.Exec.DataProcessing
import Kalyke.Exec.RoundTrip

/-!
# Paths to a Bit

A bit element is read by contacts, by the operands of edge contacts, by `get_char` and as part of
joined bits by `get_word`; it is written by coils, by the operands of edge coils, by `save_char` and
as part of joined bits by `save_word`. Each path computes on its own where the bit is stored. For a
global element all of them come to the same bit. For a local one some go to the layer of the call
level and some to the one above.
-/

namespace Kalyke

open Option

/-- The classes of bit elements. -/
inductive BitClass where
  | elem (e : BitElement)
  | lm
deriving DecidableEq, Repr

/-- The class of the bit elements that an operand type names. -/
def AddrType.bitClass : AddrType → Option BitClass
  | .x | .xz | .knX | .knXz => some (.elem .X)
  | .y | .yz | .knY | .knYz => some (.elem .Y)
  | .bC | .bCz | .c | .cz => some (.elem .C)
  | .bT | .bTz | .t | .tz => some (.elem .T)
  | .sm | .knSm => some (.elem .SM)
  | .m | .mz | .knM | .knMz => some (.elem .M)
  | .s | .sz | .knS | .knSz => some (.elem .S)
  | .lm | .lmz | .knLm | .knLmz => some .lm
  | _ => none

/-- The class of the bit elements that a type byte names. -/
def classAt (u : Ucode) (p : Nat) : Option BitClass :=
  (AddrType.ofCode (u.getPU8 p)).bind AddrType.bitClass

/-- The `Kn` forms of a type, plain or indexed. -/
def AddrType.knIndexed : AddrType → Option Bool
  | .knX | .knY | .knM | .knS | .knLm | .knSm => some false
  | .knXz | .knYz | .knMz | .knSz | .knLmz => some true
  | _ => none

/-- The bit operand at `p` is indexed by a `Z` register. -/
def AddrType.indexed : AddrType → Bool
  | .xz | .yz | .mz | .sz | .lmz | .bTz | .bCz | .tz | .cz => true
  | _ => false

/-- What a coil writes with the power flow given, if anything. -/
def Coil.drives : Coil → Bool → Option Bool
  | out, pf => some pf
  | set, true => some true
  | rst, true => some false
  | _, false => none

def stepCoilBody : Coil → BodyInput → Store
  | .out => runCiOutSIns
  | .set => runCiSetSIns
  | .rst => runCiRstSIns

section

variable (u : Ucode) (n : Nat)

/-- On some path the bit `b` is read, at call level `n`, for the element with number `i` of a
class. -/
inductive ReadsBit (s : Store) : BitClass → Nat → Bool → Prop where
  | contact (p : Nat) (k : Contact) (e : BitElement) (ext b : Bool)
      (h : ∀ stale pf outPF,
        ((SimpleIns.contact k e ext).run u p stale n pf outPF s).1 = k.run b pf) :
      ReadsBit s (.elem e) (elementNumber u p ext) b
  | contactLm (p : Nat) (k : Contact) (b : Bool)
      (h : ∀ stale pf outPF, ((SimpleIns.contactLm k).run u p stale n pf outPF s).1 = k.run b pf) :
      ReadsBit s .lm (u.getPU8 p) b
  | lmContact (p : Nat) (k : Contact) (b : Bool)
      (h : ∀ now pf sfc, (lmContactBody k ⟨u, p, n, now, pf, sfc, s⟩).2.1 = k.run b pf) :
      ReadsBit s .lm (u.getPU16 (p + 4)) b
  | simpleIns (p : Nat) (C : BitClass) (b : Bool) (hC : classAt u p = some C)
      (h : getCharInSimpleIns u p s n = some b) : ReadsBit s C (u.getPU16 (p + 2)) b
  | char (p off cnt j : Nat) (C : BitClass) (a : AddrType) (xs : List Bool) (b : Bool)
      (ha : AddrType.ofCode (u.getPU8 (p + 1)) = some a) (hC : a.bitClass = some C)
      (h : getChar u p s n off cnt = (.ok (), xs)) (hb : xs[j]? = some b) :
      ReadsBit s C (blockStart u p s a.indexed off + j) b
  | kn (p off cnt j m : Nat) (C : BitClass) (a : AddrType) (z : Bool) (xs : List (BitVec 16))
      (x : BitVec 16) (ha : AddrType.ofCode (u.getPU8 (p + 1)) = some a)
      (hC : a.bitClass = some C) (hz : a.knIndexed = some z)
      (h : getWord u p s n off cnt = (.ok (), xs)) (hx : xs[j]? = some x)
      (hm : m < 4 * operandKn u p z) :
      ReadsBit s C
        (knBase (operandKnStart u p s z) off (4 * operandKn u p z) + 4 * operandKn u p z * j + m)
        (x.getLsbD m)

/-- On some path the bit `b` is written, at call level `n`, to the element with number `i` of a
class. Outside a sequence a step is a bit like any other; inside one, `OUT S` without power flow
leaves it alone. -/
inductive WritesBit (s : Store) : Store → BitClass → Nat → Bool → Prop where
  | coil (p : Nat) (k : Coil) (e : CoilElement) (ext stale b : Bool) (pf outPF : BitVec 32)
      (hb : k.drives (getPowerFlow pf) = some b) :
      WritesBit s ((SimpleIns.coil k e ext).run u p stale n pf outPF s).2.2
        (.elem e.toBitElement) (elementNumber u p ext) b
  | coilLm (p : Nat) (k : Coil) (stale b : Bool) (pf outPF : BitVec 32)
      (hcase : (SimpleIns.coilLm k).execLength ≠ none) (hb : k.drives (getPowerFlow pf) = some b) :
      WritesBit s ((SimpleIns.coilLm k).run u p stale n pf outPF s).2.2 .lm (u.getPU8 p) b
  | lmCoil (p : Nat) (k : Coil) (b : Bool) (now pf : BitVec 32) (sfc : SfcStatus)
      (hb : k.drives (getPowerFlow pf) = some b) :
      WritesBit s (lmCoilBody k ⟨u, p, n, now, pf, sfc, s⟩).2.2 .lm (u.getPU16 (p + 4)) b
  | stepCoil (p : Nat) (k : Coil) (b : Bool) (now pf : BitVec 32) (sfc : SfcStatus)
      (hb : k.drives (getPowerFlow pf) = some b)
      (hsfc : getPowerFlow pf = false → sfc.sfcEnable = false) :
      WritesBit s (stepCoilBody k ⟨u, p, n, now, pf, sfc, s⟩) (.elem .S) (u.getPU16 (p + 4)) b
  | simpleIns (p : Nat) (C : BitClass) (b : Bool) (hC : classAt u p = some C)
      (harea : simpleInsArea u p n ≠ none) :
      WritesBit s (saveCharInSimpleIns u p s n b) C (u.getPU16 (p + 2)) b
  | char (p off j : Nat) (C : BitClass) (a : AddrType) (xs : List Bool) (b : Bool) (s' : Store)
      (ha : AddrType.ofCode (u.getPU8 (p + 1)) = some a) (hC : a.bitClass = some C)
      (h : saveChar u p s n off xs = (.ok (), s')) (hb : xs[j]? = some b) :
      WritesBit s s' C (blockStart u p s a.indexed off + j) b
  | kn (p off j m : Nat) (C : BitClass) (a : AddrType) (z : Bool) (xs buf : List (BitVec 16))
      (x : BitVec 16) (s' : Store) (ha : AddrType.ofCode (u.getPU8 (p + 1)) = some a)
      (hC : a.bitClass = some C) (hz : a.knIndexed = some z)
      (h : saveWord u p s n off xs = (.ok (), buf, s')) (hx : xs[j]? = some x)
      (hm : m < 4 * operandKn u p z) :
      WritesBit s s' C
        (knBase (operandKnStart u p s z) off (4 * operandKn u p z) + 4 * operandKn u p z * j + m)
        (x.getLsbD m)

end

/-- On all paths the elements of a class stand for the same bits at call level `n`: what one path
reads the others read, and what one path has written all paths read. -/
structure BitPathsAgree (C : BitClass) (n : Nat) : Prop where
  read : ∀ u u' s i b b', ReadsBit u n s C i b → ReadsBit u' n s C i b' → b = b'
  write : ∀ u u' s s' i b b', WritesBit u n s s' C i b → ReadsBit u' n s' C i b' → b' = b

/-! ## The tables -/

section

variable {n : Nat} {a : AddrType} {area : BitArea} {z : Bool} {e : BitElement}

theorem getCharTable_class (h : getCharTable n a = some (area, z))
    (hC : a.bitClass = some (.elem e)) : a.indexed = z ∧ area = .elem e := by
  cases a <;> cases h <;> cases hC <;> exact ⟨rfl, rfl⟩

theorem saveCharTable_class (h : saveCharTable n a = some (area, z))
    (hC : a.bitClass = some (.elem e)) : a.indexed = z ∧ area = .elem e := by
  cases a <;> cases h <;> cases hC <;> exact ⟨rfl, rfl⟩

theorem getWordTable_class (hz : a.knIndexed = some z) (hC : a.bitClass = some (.elem e)) :
    getWordTable n a = some (.kn (.elem e) z) := by
  cases a <;> cases hz <;> cases hC <;> rfl

theorem saveWordTable_class {form : WordForm} (h : saveWordTable n a = some form)
    (hz : a.knIndexed = some z) (hC : a.bitClass = some (.elem e)) : form = .kn (.elem e) z := by
  cases a <;> cases hz <;> cases h <;> cases hC <;> rfl

theorem simpleInsArea_class {u : Ucode} {p : Nat} (h : simpleInsArea u p n = some area)
    (hC : classAt u p = some (.elem e)) : area = .elem e := by
  unfold simpleInsArea at h
  unfold classAt at hC
  split at h <;> rename_i ha <;> cases h
  all_goals
    rw [ha] at hC
    cases hC
  all_goals rfl

end

/-! ## Global bits -/

theorem Contact.eq_of_run {k : Contact} {b b' : Bool} (h : ∀ pf, k.run b pf = k.run b' pf) :
    b = b' := by
  have hoff := h 0
  have hon := h 1
  revert hoff hon
  cases k <;> cases b <;> cases b' <;> decide

section

variable {u : Ucode} {n i : Nat} {s s' : Store} {e : BitElement} {b : Bool}

theorem getElem?_map_range {α : Type} {f : Nat → α} {m j : Nat} {x : α}
    (h : ((List.range m).map f)[j]? = some x) : f j = x := by
  rw [List.getElem?_map] at h
  obtain ⟨k, hk, rfl⟩ := map_eq_some_iff.mp h
  rw [List.getElem?_eq_some_iff] at hk
  obtain ⟨_, rfl⟩ := hk
  simp

theorem testBit_joinBits (f : Nat → Bool) {width m : Nat} (hm : m < width) :
    (joinBits f width).testBit m = f m := by
  induction width with
  | zero => cases hm
  | succ k ih =>
    rw [joinBits, Nat.add_comm, Nat.mul_comm, Nat.testBit_two_pow_mul_add _ (joinBits_lt f k)]
    split
    · rename_i hlt
      exact ih hlt
    · obtain rfl : m = k := by omega
      cases hf : f m <;> simp

/-- Every path reads a global bit where it is stored. -/
theorem ReadsBit.elem (h : ReadsBit u n s (.elem e) i b) : b = s.bit e i := by
  cases h with
  | contact p k e ext b h => exact Contact.eq_of_run fun pf => (h false pf 0).symm
  | simpleIns p C b hC h =>
    obtain ⟨area, harea, rfl⟩ := map_eq_some_iff.mp h
    rw [simpleInsArea_class harea hC]
    rfl
  | char p off cnt j C a xs b ha hC h hb =>
    have hrang := (BitArea.elem e).rang_le
    unfold getChar at h
    rw [ha] at h
    split at h
    · rename_i area z htable
      obtain ⟨rfl, rfl⟩ := getCharTable_class htable hC
      have hblock := (getLoop_ok_iff (by omega)).mp (congrArg Prod.fst h)
      rw [getLoop_of_inBlock (by omega) hblock] at h
      cases h
      rw [← getElem?_map_range hb, Nat.one_mul]
      rfl
    · cases h
  | kn p off cnt j m C a z xs x ha hC hz h hx hm =>
    have hrang := (BitArea.elem e).rang_le
    unfold getWord at h
    rw [ha, bind_some, getWordTable_class hz hC] at h
    dsimp only at h
    split at h
    · cases h
    · have hbits := (getKnLoop_ok_iff (by omega) (by omega)).mp (congrArg Prod.fst h)
      rw [getKnLoop_of_inBits hbits] at h
      cases h
      rw [← getElem?_map_range hx, BitVec.getLsbD_ofNat, testBit_joinBits _ hm]
      simp only [show m < 16 by omega]
      rfl

/-- What a coil writes is stored. -/
theorem Coil.run_getBit {area : BitArea} {k : Coil} {pf : BitVec 32}
    (h : k.drives (getPowerFlow pf) = some b) : (k.run area i pf s).getBit area i = b := by
  cases k with
  | out =>
    cases h
    exact getBit_setBit_self area i _
  | set =>
    cases hpf : getPowerFlow pf <;> rw [hpf] at h <;> cases h
    rw [Coil.run, if_pos hpf]
    exact getBit_setBit_self area i _
  | rst =>
    cases hpf : getPowerFlow pf <;> rw [hpf] at h <;> cases h
    rw [Coil.run, if_pos hpf]
    exact getBit_setBit_self area i _

theorem stepCoilBody_getBit {k : Coil} {x : BodyInput}
    (h : k.drives (getPowerFlow x.inPF) = some b)
    (hsfc : getPowerFlow x.inPF = false → x.sfc.sfcEnable = false) :
    (stepCoilBody k x).getBit (.elem .S) (x.ucode.getPU16 (x.pc + 4)) = b := by
  cases hpf : getPowerFlow x.inPF <;> cases k <;> rw [hpf] at h <;> cases h
  · show (runCiOutSIns x).getBit _ _ = _
    rw [runCiOutSIns, hpf, if_neg nofun, hsfc hpf, if_neg nofun]
    exact getBit_setBit_self _ _ _
  · show (runCiOutSIns x).getBit _ _ = _
    rw [runCiOutSIns, if_pos hpf]
    exact getBit_setBit_self _ _ _
  · show (runCiSetSIns x).getBit _ _ = _
    rw [runCiSetSIns, if_pos hpf]
    exact getBit_setBit_self _ _ _
  · show (runCiRstSIns x).getBit _ _ = _
    rw [runCiRstSIns, if_pos hpf]
    exact getBit_setBit_self _ _ _

theorem get_of_getElem? {α : Type} {xs : List α} {j : Nat} {x : α} (h : xs[j]? = some x) :
    ∃ hj, xs.get ⟨j, hj⟩ = x := by
  obtain ⟨hj, hx⟩ := List.getElem?_eq_some_iff.mp h
  exact ⟨hj, hx⟩

/-- Every path writes a global bit where it is stored. -/
theorem WritesBit.elem (h : WritesBit u n s s' (.elem e) i b) : s'.getBit (.elem e) i = b := by
  cases h with
  | coil p k e ext stale b pf outPF hb => exact Coil.run_getBit hb
  | stepCoil p k b now pf sfc hb hsfc => exact stepCoilBody_getBit hb hsfc
  | simpleIns p C b hC harea =>
    obtain ⟨area, hsome⟩ := ne_none_iff_exists'.mp harea
    rw [saveCharInSimpleIns, hsome, simpleInsArea_class hsome hC]
    exact getBit_setBit_self _ _ _
  | char p off j C a xs b s' ha hC h hb =>
    have hrang := (BitArea.elem e).rang_le
    obtain ⟨hj, rfl⟩ := get_of_getElem? hb
    unfold saveChar at h
    rw [ha] at h
    split at h
    · rename_i area z htable
      obtain ⟨rfl, rfl⟩ := saveCharTable_class htable hC
      have hblock := (saveLoop_ok_iff (by omega)).mp (congrArg Prod.fst h)
      obtain rfl : _ = s' := congrArg Prod.snd h
      have hread := saveLoop_read (fun s i => s.getBit (.elem e) i) id (s := s) (by omega)
        (fun k x s => getBit_setBit_self _ k x)
        (fun k l hkl x s => getBit_setBit_of_ne (by omega) x) j hj (hblock j hj)
      rw [Nat.one_mul] at hread
      exact hread
    · cases h
  | kn p off j m C a z xs buf x s' ha hC hz h hx hm =>
    obtain ⟨hj, rfl⟩ := get_of_getElem? hx
    unfold saveWord at h
    rw [ha] at h
    split at h
    · rename_i area z' htable
      cases saveWordTable_class htable hz hC
      split at h
      · cases h
      · have hbits := (saveKnLoop_ok_iff (by omega)).mp (congrArg Prod.fst h)
        obtain rfl : _ = s' := congrArg (·.2.2) h
        exact saveKnLoop_read (by omega) j hj hm (hbits.bit_lt hj hm)
    · rename_i area z' limit htable
      cases saveWordTable_class htable hz hC
    · cases h

end

/-! ## Local bits -/

/-- The first local bit of a layer is on, and nothing else. -/
def lmOnly (layer : Nat) : Store := { Store.off with lm := fun i => i == lmRang * layer }

/-- `LD LM0` reads the layer of the call level. -/
theorem readsBit_ldLm (n : Nat) : ReadsBit [0x00, 0x17] n (lmOnly n) .lm 0 true := by
  have hbit : (lmOnly n).getBit (.lm n) 0 = true := by simp [lmOnly, Store.getBit]
  refine .contactLm 0 .ld true fun stale pf outPF => ?_
  show Contact.run .ld ((lmOnly n).getBit (.lm n) 0) pf = _
  rw [hbit]

theorem readsBit_char (n : Nat) : ReadsBit [0x00, 0x07, 0x00, 0x00] n (lmOnly n) .lm 0 false := by
  have hbit : (lmOnly n).getBit (.lm (n + 1)) 0 = false := by
    simp [lmOnly, Store.getBit, lmRang]
  refine .char 0 0 1 0 .lm .lm [false] false rfl rfl ?_ rfl
  show getLoop ((lmOnly n).getBit (.lm (n + 1))) lmRang 1 1 0 = _
  rw [getLoop_one (by decide), hbit]

theorem not_bitPathsAgree_lm (n : Nat) : ¬ BitPathsAgree .lm n := by
  intro h
  exact absurd (h.read _ _ _ _ _ _ (readsBit_ldLm n) (readsBit_char n)) nofun

/-- The paths to a bit agree for all classes but that of the local elements. -/
theorem bitPathsAgree_iff (C : BitClass) (n : Nat) : BitPathsAgree C n ↔ C ≠ .lm := by
  constructor
  · rintro h rfl
    exact not_bitPathsAgree_lm n h
  · intro hC
    cases C with
    | lm => exact absurd rfl hC
    | elem e =>
      refine ⟨fun u u' s i b b' h h' => h.elem.trans h'.elem.symm, ?_⟩
      intro u u' s s' i b b' hwrite hread
      exact hread.elem.trans hwrite.elem

/-- In the main program `LD LM0` and `get_char` do not read the same bit. -/
theorem lm0_paths_differ : ∃ s, ReadsBit [0x00, 0x17] 0 s .lm 0 true ∧
    ReadsBit [0x00, 0x07, 0x00, 0x00] 0 s .lm 0 false ∧ ¬ BitPathsAgree .lm 0 :=
  ⟨lmOnly 0, readsBit_ldLm 0, readsBit_char 0, not_bitPathsAgree_lm 0⟩

end Kalyke
