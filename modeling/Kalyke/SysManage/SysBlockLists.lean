-- SUMMARY: When the lists of the system block are walked inside the file and their tables.
import Kalyke.SysManage.SysBlockConfig

/-!
# Walks over the Lists

A list of the system block is walked by the count that stands before it. For each list, where its
entries lie is a function of the file, and the walk keeps inside just if these entries do.
-/

namespace Kalyke

open Nat Option Traced SysBlock

variable {b : SysBlock} {c e i k n p q v : Nat}

/-! ## Rules for the Primitives -/

section

variable {c : SysCell} {r : Region}

@[simp] theorem sat_getU8 {Q : Nat → Prop} :
    Sat (Touch.Inside e) (b.getU8 p) Q ↔ p + 1 ≤ e ∧ Q (b.file.getPU8 p) := by
  unfold SysBlock.getU8
  rw [sat_bind, sat_note, sat_pure]
  rfl

@[simp] theorem sat_getU16 {Q : Nat → Prop} :
    Sat (Touch.Inside e) (b.getU16 p) Q ↔ p + 2 ≤ e ∧ Q (b.file.getPU16 p) := by
  unfold SysBlock.getU16
  rw [sat_bind, sat_note, sat_pure]
  rfl

@[simp] theorem sat_setCell {Q : Unit → Prop} :
    Sat (Touch.Inside e) (setCell c v) Q ↔ c.Inside ∧ Q () := sat_note

@[simp] theorem sat_storeCell {Q : Unit → Prop} :
    Sat (Touch.Inside e) (storeCell n i c v) Q ↔ i < n ∧ Q () := sat_note

@[simp] theorem sat_clearRegion {Q : Unit → Prop} :
    Sat (Touch.Inside e) (clearRegion r) Q ↔ Q () :=
  sat_note.trans (and_iff_right trivial)

/-- An allocated block has room for its entries just if it was served. -/
theorem SysBlock.lt_room_iff {blk : HeapBlock} (h : i < n) :
    i < b.room p blk n ↔ b.malloc p blk = true := by
  unfold SysBlock.room
  split <;> rename_i hserved
  · exact iff_of_true h hserved
  · exact iff_of_false (Nat.not_lt_zero _) hserved

end

/-- The entries of `c` bytes from `q` on end before `e` just if the last one does. -/
theorem forall_entry_le_iff (hq : q ≤ e) : (∀ k < n, q + c * k + c ≤ e) ↔ q + c * n ≤ e := by
  constructor
  · intro h
    cases n with
    | zero => exact hq
    | succ n =>
      have hlast := h n (lt_succ_self n)
      rw [mul_succ]
      omega
  · intro h k hk
    have hle : c * (k + 1) ≤ c * n := Nat.mul_le_mul_left c hk
    rw [mul_succ] at hle
    omega

/-! ## Bus Configuration -/

/-- The index of a service data object is one that sets a field. -/
def KnownSdo (bfmIdx : Nat) : Prop := (sdoField bfmIdx).isSome = true

instance (bfmIdx : Nat) : Decidable (KnownSdo bfmIdx) := by unfold KnownSdo; infer_instance

/-- A walk over service data objects that may not give up. -/
theorem sat_parseBusSdos {Q : Option Nat → Prop} (hQ : ¬ Q none) (hq : q ≤ b.fileLen) :
    Sat (Touch.Inside b.fileLen) (b.parseBusSdos n (q + 1)) Q ↔
      ((∀ k < n, KnownSdo (b.file.getPU16 (q + 1 + 6 * k))) ∧ q + 6 * n ≤ b.fileLen) ∧
        Q (some (q + 6 * n)) := by
  induction n generalizing q with
  | zero =>
    unfold SysBlock.parseBusSdos
    simp [hq]
  | succ n ih =>
    unfold SysBlock.parseBusSdos
    simp only [sat_bind, sat_getU16]
    cases hf : sdoField (b.file.getPU16 (q + 1)) with
    | none =>
      simp only [sat_pure, hQ, and_false, false_iff]
      rintro ⟨⟨hknown, -⟩, -⟩
      have hzero := hknown 0 (succ_pos n)
      unfold KnownSdo at hzero
      rw [Nat.mul_zero, Nat.add_zero, hf] at hzero
      cases hzero
    | some f =>
      have hcells : Sat (Touch.Inside b.fileLen) (do
          let v ← b.getU16 (q + 1 + 3)
          if f = .nBfm608A then do
            let v := if v < 1 then 1 else v
            setCell (.bus f) v
            setCell (.sd 233) v
          else setCell (.bus f) v
          b.parseBusSdos n (q + 1 + 6)) Q ↔
          q + 6 ≤ b.fileLen ∧ Sat (Touch.Inside b.fileLen) (b.parseBusSdos n (q + 6 + 1)) Q := by
        simp only [sat_bind, sat_getU16, sat_ite, sat_setCell, SysCell.Inside, true_and]
        by_cases hfield : f = .nBfm608A <;> simp [hfield, Nat.add_right_comm]
      have hknown : KnownSdo (b.file.getPU16 (q + 1)) := by
        unfold KnownSdo
        rw [hf]
        rfl
      dsimp only
      rw [hcells]
      by_cases hsix : q + 6 ≤ b.fileLen
      · have hindex (m : Nat) : q + 1 + 6 * (m + 1) = q + 6 + 1 + 6 * m := by omega
        rw [ih hsix, forall_lt_succ_left, and_iff_right hsix, Nat.mul_zero, Nat.add_zero,
          and_iff_right hknown, show q + 6 * (n + 1) = q + 6 + 6 * n by omega]
        simp only [hindex]
        exact and_iff_right (by omega)
      · refine iff_of_false (fun h => hsix h.2.1) fun h => hsix ?_
        have hend := h.1.2
        omega

/-- Where the loop over process data objects is after `k` rounds. -/
def SysBlock.pdoPos (b : SysBlock) (q : Nat) : Nat → PdoPos
  | 0 => ⟨q, 0, 0⟩
  | k + 1 =>
    let s := b.pdoPos q k
    if b.file.getPU8 s.ptr = pdo1B then ⟨s.ptr + 7, s.ia, s.ib + 1⟩ else ⟨s.ptr + 7, s.ia + 1, s.ib⟩

theorem pdoPos_bounds : (b.pdoPos q k).ptr = q + 7 * k ∧ (b.pdoPos q k).ia ≤ k ∧
    (b.pdoPos q k).ib ≤ k := by
  induction k with
  | zero => exact ⟨rfl, Nat.le_refl 0, Nat.le_refl 0⟩
  | succ k ih =>
    obtain ⟨hptr, hia, hib⟩ := ih
    unfold SysBlock.pdoPos
    dsimp only
    split <;> refine ⟨?_, ?_, ?_⟩ <;> dsimp only <;> omega

/-- A list of `n` process data objects of seven bytes fits, and so do the lists they are put
into. -/
structure SysBlock.PdosFit (b : SysBlock) (p : Nat) (ext : Bool) (n q : Nat) : Prop where
  inside : q + 7 * n ≤ b.fileLen
  served : ∀ k < n, b.malloc p (.pdo ext (decide (b.file.getPU8 (q + 7 * k) = pdo1B))) = true

theorem sat_pdoLoop {ext : Bool} {f g : BusField} {Q : PdoPos → Prop} (hq : q ≤ b.fileLen) :
    Sat (Touch.Inside b.fileLen) (loop (fun _ s => b.parsePdoEntry p ext f g n s) n ⟨q, 0, 0⟩) Q ↔
      b.PdosFit p ext n q ∧ Q (b.pdoPos q n) := by
  have hround : ∀ k < n, ∀ Q : PdoPos → Prop,
      Sat (Touch.Inside b.fileLen) (b.parsePdoEntry p ext f g n (b.pdoPos q k)) Q ↔
        (q + 7 * k + 7 ≤ b.fileLen ∧
          b.malloc p (.pdo ext (decide (b.file.getPU8 (q + 7 * k) = pdo1B))) = true) ∧
        Q (b.pdoPos q (k + 1)) := by
    intro k hk Q
    obtain ⟨hptr, hia, hib⟩ := pdoPos_bounds (b := b) (q := q) (k := k)
    have hroom (rx : Bool) : (if rx = true then (b.pdoPos q k).ib else (b.pdoPos q k).ia) <
        b.room p (.pdo ext rx) n ↔ b.malloc p (.pdo ext rx) = true :=
      lt_room_iff (by split <;> omega)
    conv_rhs => rw [SysBlock.pdoPos]
    unfold SysBlock.parsePdoEntry
    rw [hptr]
    simp only [sat_bind, sat_getU8, sat_getU16, sat_setCell, sat_storeCell, sat_pure, SysCell.Inside,
      true_and, hroom]
    by_cases hserved : b.malloc p (.pdo ext (decide (b.file.getPU8 (q + 7 * k) = pdo1B))) = true
    · simp only [hserved, true_and, and_true, ← and_assoc]
      refine and_congr (by omega) ?_
      by_cases hrx : b.file.getPU8 (q + 7 * k) = pdo1B <;> simp [hrx]
    · simp only [hserved, false_and, and_false, Bool.false_eq_true]
  rw [show (⟨q, 0, 0⟩ : PdoPos) = b.pdoPos q 0 from rfl, sat_loop_forall hround]
  refine and_congr_left fun _ => ?_
  constructor
  · intro h
    exact ⟨(forall_entry_le_iff hq).mp fun k hk => (h k hk).1, fun k hk => (h k hk).2⟩
  · intro h k hk
    exact ⟨(forall_entry_le_iff hq).mpr h.inside k hk, h.served k hk⟩

theorem sat_parseExtPDO {Q : Nat → Prop} (hq : q ≤ b.fileLen) :
    Sat (Touch.Inside b.fileLen) (b.parseExtPDO p n q) Q ↔
      b.PdosFit p true n q ∧ Q (q + 7 * n) := by
  unfold SysBlock.parseExtPDO
  rw [sat_bind, sat_pdoLoop hq]
  simp only [sat_pure, pdoPos_bounds.1]

theorem sat_parseSlavePDO {Q : Nat → Prop} (hq : q ≤ b.fileLen) :
    Sat (Touch.Inside b.fileLen) (b.parseSlavePDO p n q) Q ↔
      b.PdosFit p false n q ∧ Q (q + 7 * n) := by
  unfold SysBlock.parseSlavePDO
  rw [sat_bind, sat_pdoLoop hq]
  simp only [sat_pure, pdoPos_bounds.1]

/-- Where the substations lie, the first one at `q`. -/
def SysBlock.stationAt (b : SysBlock) (q : Nat) : Nat → Nat
  | 0 => q
  | k + 1 => b.stationAt q k + b.stationLen (b.stationAt q k)

/-- Where the loop over the substations is after `k` rounds. -/
def SysBlock.stationPos (b : SysBlock) (q : Nat) : Nat → StationPos
  | 0 => ⟨q, 0, 0⟩
  | k + 1 =>
    let s := b.stationPos q k
    let sNumExt := b.file.getPU8 s.ptr
    let sNum := b.file.getPU8 (s.ptr + 1)
    ⟨s.ptr + b.stationLen s.ptr, if sNum ≠ 0 ∧ sNumExt = 0 then s.slaves + 1 else s.slaves,
      if sNum = 0 ∧ sNumExt ≠ 0 then s.masterExts + 1 else s.masterExts⟩

theorem stationPos_ptr : (b.stationPos q k).ptr = b.stationAt q k := by
  induction k with
  | zero => rfl
  | succ k ih =>
    unfold SysBlock.stationPos SysBlock.stationAt
    rw [← ih]

/-- The substation `i`, which lies at `q`, fits into the file and its copy into the heap. -/
structure SysBlock.StationFits (b : SysBlock) (p i q : Nat) : Prop where
  head : q + 4 ≤ b.fileLen
  inside : q + b.stationLen q ≤ b.fileLen
  served : 0 < b.stationLen q → b.malloc p (.subStation i) = true

theorem sat_parseStation {Q : StationPos → Prop} :
    Sat (Touch.Inside b.fileLen) (b.parseStation p k (b.stationPos q k)) Q ↔
      (k < maxSubStationItem ∧ b.StationFits p k (b.stationAt q k)) ∧
        Q (b.stationPos q (k + 1)) := by
  conv_rhs => rw [SysBlock.stationPos, ← stationPos_ptr]
  generalize b.stationPos q k = s
  have hcopy (Q : Unit → Prop) :
      Sat (Touch.Inside b.fileLen) (loop (fun j _ => do
        let v ← b.getU8 (s.ptr + j)
        storeCell (b.room p (.subStation k) (b.stationLen s.ptr + 8)) j (.subStationBuf k j) v)
        (b.stationLen s.ptr) ()) Q ↔
      (∀ j < b.stationLen s.ptr, s.ptr + j + 1 ≤ b.fileLen ∧
        b.malloc p (.subStation k) = true) ∧ Q () := by
    refine sat_loop_forall (s := fun _ => ()) fun j hj Q => ?_
    simp only [sat_bind, sat_getU8, sat_storeCell,
      lt_room_iff (show j < b.stationLen s.ptr + 8 by omega), and_assoc]
  have hfits : (s.ptr + 1 ≤ b.fileLen ∧ k < maxSubStationItem ∧ s.ptr + 1 + 1 ≤ b.fileLen ∧
      k < maxSubStationItem ∧ s.ptr + 2 + 2 ≤ b.fileLen ∧ k < maxSubStationItem ∧
      ∀ j < b.stationLen s.ptr, s.ptr + j + 1 ≤ b.fileLen ∧ b.malloc p (.subStation k) = true) ↔
      k < maxSubStationItem ∧ b.StationFits p k s.ptr := by
    constructor
    · rintro ⟨-, hk, -, -, hhead, -, hall⟩
      refine ⟨hk, by omega, ?_, fun hpos => (hall 0 hpos).2⟩
      rcases Nat.eq_zero_or_pos (b.stationLen s.ptr) with hzero | hpos
      · omega
      · have hlast := (hall (b.stationLen s.ptr - 1) (by omega)).1
        omega
    · rintro ⟨hk, hhead, hend, hserved⟩
      exact ⟨by omega, hk, by omega, hk, by omega, hk, fun j hj => ⟨by omega, hserved (by omega)⟩⟩
  have hlen : (b.file.getPU16 (s.ptr + 2) + 4) % 65536 = b.stationLen s.ptr := rfl
  unfold SysBlock.parseStation
  simp only [sat_bind, sat_getU8, sat_getU16, sat_setCell, sat_ite, sat_pure, SysCell.Inside, true_and,
    hlen, hcopy]
  rw [← hfits]
  simp only [and_assoc]
  by_cases hnum : b.file.getPU8 (s.ptr + 1) = 0 <;> by_cases hext : b.file.getPU8 s.ptr = 0 <;>
    simp [hnum, hext]

/-- Where the list of the extension modules of the master begins with its sizes. -/
def SysBlock.extPdos (b : SysBlock) (p : Nat) : Nat := p + 6 + 6 * b.file.getPU16 (p + 4)

/-- Where the list of the slaves begins with its sizes. -/
def SysBlock.slavePdos (b : SysBlock) (p : Nat) : Nat :=
  b.extPdos p + 4 + 7 * b.file.getPU16 (b.extPdos p + 2)

/-- Where the list of the substations begins with its length. -/
def SysBlock.stations (b : SysBlock) (p : Nat) : Nat :=
  b.slavePdos p + 4 + 7 * b.file.getPU16 (b.slavePdos p + 2)

/-- The bus configuration at `p` sets known fields only, and its lists fit. -/
structure SysBlock.BusFits (b : SysBlock) (p : Nat) : Prop where
  known : ∀ k < b.file.getPU16 (p + 4), KnownSdo (b.file.getPU16 (p + 7 + 6 * k))
  ext : b.PdosFit p true (b.file.getPU16 (b.extPdos p + 2)) (b.extPdos p + 4)
  slave : b.PdosFit p false (b.file.getPU16 (b.slavePdos p + 2)) (b.slavePdos p + 4)
  head : b.stations p + 2 ≤ b.fileLen
  count : b.file.getPU16 (b.stations p) ≤ maxSubStationItem
  station : ∀ i < b.file.getPU16 (b.stations p), b.StationFits p i (b.stationAt (b.stations p + 2) i)

theorem sat_unlessNone {x : Parse Nat} {C : Prop} {Q : Nat → Prop}
    (hx : Sat (Touch.Inside e) x Q ↔ C ∧ Q (q + 7 * n)) (hzero : n = 0 → C) :
    Sat (Touch.Inside e) (unlessNone n q x) Q ↔ C ∧ Q (q + 7 * n) := by
  unfold unlessNone
  by_cases hn : n = 0
  · rw [if_pos hn, sat_pure, hn, Nat.mul_zero, Nat.add_zero]
    exact (and_iff_right (hzero hn)).symm
  · rw [if_neg hn]
    exact hx

theorem PdosFit.zero {ext : Bool} (hq : q ≤ b.fileLen) (hn : n = 0) : b.PdosFit p ext n q := by
  subst hn
  exact ⟨hq, fun k hk => absurd hk (Nat.not_lt_zero k)⟩

theorem sat_parseBusConfig {Q : Nat → Prop} (hQ : ¬ Q 0) (hp : p + 4 < b.fileLen) :
    Sat (Touch.Inside b.fileLen) (b.parseBusConfig p) Q ↔ b.BusFits p ∧ Q (b.sectionLen p) := by
  have hext {Q : Nat → Prop} (h : b.extPdos p + 4 ≤ b.fileLen) := sat_unlessNone (Q := Q)
    (sat_parseExtPDO (b := b) (p := p) (n := b.file.getPU16 (b.extPdos p + 2)) h) (PdosFit.zero h)
  have hslave {Q : Nat → Prop} (h : b.slavePdos p + 4 ≤ b.fileLen) := sat_unlessNone (Q := Q)
    (sat_parseSlavePDO (b := b) (p := p) (n := b.file.getPU16 (b.slavePdos p + 2)) h)
    (PdosFit.zero h)
  have hstations {Q : StationPos → Prop} := sat_loop_forall (n := b.file.getPU16 (b.stations p))
    (Q := Q) fun i _ Q => sat_parseStation (b := b) (p := p) (k := i) (q := b.stations p + 2) (Q := Q)
  have hextEnd : b.extPdos p + 4 + 7 * b.file.getPU16 (b.extPdos p + 2) = b.slavePdos p := rfl
  have hslaveEnd : b.slavePdos p + 4 + 7 * b.file.getPU16 (b.slavePdos p + 2) = b.stations p := rfl
  have hstart : (⟨b.stations p + 2, 0, 0⟩ : StationPos) = b.stationPos (b.stations p + 2) 0 := rfl
  unfold SysBlock.parseBusConfig
  simp only [sat_bind, sat_getU16, sat_setCell, sat_clearRegion, SysCell.Inside, true_and]
  rw [and_iff_right (show p + 2 + 2 ≤ b.fileLen by omega)]
  by_cases hsix : p + 6 ≤ b.fileLen
  · rw [and_iff_right (show p + 4 + 2 ≤ b.fileLen by omega), show p + 7 = p + 6 + 1 from rfl,
      sat_parseBusSdos (by simpa using hQ) hsix]
    simp only [sat_bind, sat_getU16, sat_setCell, SysCell.Inside, true_and, sat_pure]
    rw [show p + 6 + 6 * b.file.getPU16 (p + 4) = b.extPdos p from rfl]
    constructor
    · rintro ⟨⟨hknown, -⟩, -, hfour, hrest⟩
      rw [hext hfour, hextEnd] at hrest
      obtain ⟨hextFit, -, hfour', hrest⟩ := hrest
      rw [hslave hfour', hslaveEnd] at hrest
      obtain ⟨hslaveFit, htwo, hrest⟩ := hrest
      rw [hstart, hstations] at hrest
      obtain ⟨hfits, hlen⟩ := hrest
      refine ⟨⟨hknown, hextFit, hslaveFit, htwo, ?_, fun i hi => (hfits i hi).2⟩, hlen⟩
      by_contra hcount
      have hlast := (hfits maxSubStationItem (by omega)).1
      omega
    · rintro ⟨⟨hknown, hextFit, hslaveFit, htwo, hcount, hfits⟩, hlen⟩
      have hin := hextFit.inside
      have hin' := hslaveFit.inside
      rw [hextEnd] at hin
      rw [hslaveEnd] at hin'
      have hle : b.extPdos p + 4 ≤ b.slavePdos p := by omega
      have hle' : b.slavePdos p + 4 ≤ b.stations p := by omega
      refine ⟨⟨hknown, by omega⟩, by omega, by omega, ?_⟩
      rw [hext (by omega), hextEnd]
      refine ⟨hextFit, by omega, by omega, ?_⟩
      rw [hslave (by omega), hslaveEnd]
      refine ⟨hslaveFit, htwo, ?_⟩
      rw [hstart, hstations]
      exact ⟨fun i hi => ⟨by omega, hfits i hi⟩, hlen⟩
  · refine iff_of_false (fun h => hsix (by omega)) fun h => hsix ?_
    have hhead := h.1.head
    have hle : p + 6 ≤ b.stations p := by
      unfold SysBlock.stations SysBlock.slavePdos SysBlock.extPdos
      omega
    omega

/-! ## EtherCAT Configuration -/

/-- Where the service data objects of the slave at `q` lie. -/
def SysBlock.soemSdoAt (b : SysBlock) (q : Nat) : Nat → Nat
  | 0 => q + 8
  | k + 1 => b.soemSdoAt q k + 4 + soemValueBytes (b.file.getPU8 (b.soemSdoAt q k + 3))

theorem le_soemSdoAt : q + 8 + 5 * k ≤ b.soemSdoAt q k := by
  induction k with
  | zero => exact Nat.le_refl _
  | succ k ih =>
    unfold SysBlock.soemSdoAt soemValueBytes
    split_ifs <;> omega

theorem soemSdoAt_mono (h : i ≤ k) : b.soemSdoAt q i ≤ b.soemSdoAt q k := by
  induction h with
  | refl => exact Nat.le_refl _
  | step _ ih =>
    refine Nat.le_trans ih ?_
    conv_rhs => unfold SysBlock.soemSdoAt
    omega

theorem sat_parseSoemSdo {Q : Nat → Prop} (hk : k < n) :
    Sat (Touch.Inside b.fileLen) (b.parseSoemSdo p i n k (b.soemSdoAt q k)) Q ↔
      (b.malloc p (.slaveSdo i) = true ∧ b.soemSdoAt q (k + 1) ≤ b.fileLen) ∧
        Q (b.soemSdoAt q (k + 1)) := by
  have hroom : k < b.room p (.slaveSdo i) n ↔ b.malloc p (.slaveSdo i) = true := lt_room_iff hk
  conv_rhs => unfold SysBlock.soemSdoAt
  generalize b.soemSdoAt q k = s
  unfold SysBlock.parseSoemSdo
  simp only [sat_bind, sat_getU8, sat_getU16, sat_storeCell, sat_ite, sat_pure, hroom]
  by_cases hserved : b.malloc p (.slaveSdo i) = true
  · simp only [hserved, true_and]
    unfold soemValueBytes
    by_cases hbyte : b.file.getPU8 (s + 3) = 0x08
    · simp only [hbyte, if_true, true_imp_iff, not_true_eq_false, false_imp_iff, and_true, ← and_assoc]
      exact and_congr_left fun _ => by omega
    · by_cases hword : b.file.getPU8 (s + 3) = 0x10
      · simp only [hword, if_true, true_imp_iff, not_true_eq_false, false_imp_iff, and_true,
          show ¬ (0x10 = 0x08) by omega, if_false, not_false_eq_true, true_and, ← and_assoc]
        exact and_congr_left fun _ => by omega
      · simp only [hbyte, hword, if_false, not_false_eq_true, true_imp_iff, false_imp_iff, true_and,
          ← and_assoc]
        exact and_congr_left fun _ => by omega
  · simp only [hserved, false_and, and_false, Bool.false_eq_true]

/-- How many of the first `k` process data objects from `q` on have the direction. -/
def SysBlock.soemSeen (b : SysBlock) (q : Nat) (rx : Bool) : Nat → Nat
  | 0 => 0
  | k + 1 => b.soemSeen q rx k + if isRxPDO (b.file.getPU16 (q + 11 * k)) = rx then 1 else 0

theorem soemSeen_succ {rx : Bool} : b.soemSeen q rx (k + 1) =
    b.soemSeen q rx k + if isRxPDO (b.file.getPU16 (q + 11 * k)) = rx then 1 else 0 := rfl

theorem soemSeen_mono {rx : Bool} (h : i ≤ k) : b.soemSeen q rx i ≤ b.soemSeen q rx k := by
  induction h with
  | refl => exact Nat.le_refl _
  | step _ ih => exact Nat.le_trans ih (Nat.le_add_right _ _)

/-- An object of the direction is counted later. -/
theorem soemSeen_lt {rx : Bool} (hk : k < n) (hdir : isRxPDO (b.file.getPU16 (q + 11 * k)) = rx) :
    b.soemSeen q rx k < b.soemSeen q rx n := by
  have hmore : b.soemSeen q rx (k + 1) ≤ b.soemSeen q rx n := soemSeen_mono hk
  rw [soemSeen_succ, if_pos hdir] at hmore
  omega

theorem sat_countSoemPdo {slaves : Nat} {Q : PdoCount → Prop} (hi : i < slaves) :
    Sat (Touch.Inside b.fileLen)
        (b.countSoemPdo slaves i ⟨q + 11 * k, b.soemSeen q true k, b.soemSeen q false k⟩) Q ↔
      q + 11 * k + 2 ≤ b.fileLen ∧
        Q ⟨q + 11 * (k + 1), b.soemSeen q true (k + 1), b.soemSeen q false (k + 1)⟩ := by
  unfold SysBlock.countSoemPdo
  simp only [sat_bind, sat_getU16, sat_storeCell, sat_ite, sat_pure, hi, true_and, soemSeen_succ]
  cases isRxPDO (b.file.getPU16 (q + 11 * k)) <;> simp [mul_succ, Nat.add_assoc]

/-- What the end of a round makes of an index and of the first place in the frame. -/
def closed (count x addr offset : Nat) : Nat × Nat :=
  (if x = count then 0xFFFF else x, if x = 1 then offset else addr)

theorem sat_closePdo {slaves count x addr offset len : Nat} {size : SlaveField}
    {Q : Nat × Nat → Prop} (hi : i < slaves) :
    Sat (Touch.Inside b.fileLen) (closePdo slaves i size count x addr offset len) Q ↔
      Q (closed count x addr offset) := by
  unfold closePdo closed
  simp only [sat_bind, sat_storeCell, sat_ite, hi]
  by_cases hx : x = count <;> simp [hx]

/-- Where the loop over the process data objects from `q` on is after `k` rounds. -/
def SysBlock.soemPdoPos (b : SysBlock) (rxCount txCount q : Nat) : Nat → SoemPdoPos
  | 0 => ⟨q, 0, 0, 0, 0⟩
  | k + 1 =>
    let s := b.soemPdoPos rxCount txCount q k
    let rx := isRxPDO (b.file.getPU16 s.ptr)
    let offset := b.file.getPU16 (s.ptr + 9)
    let rNext := closed rxCount (if rx then s.r + 1 else s.r) s.rAddr offset
    let tNext := closed txCount (if rx then s.t else s.t + 1) s.tAddr offset
    ⟨s.ptr + 11, rNext.1, tNext.1, rNext.2, tNext.2⟩

/-- An index counts the objects of its direction, until there are no more of them. -/
def Counts (x seen count : Nat) : Prop := x = seen ∨ seen = count

theorem Counts.closed {x seen count addr offset : Nat} (h : Counts x seen count) :
    Counts (closed count x addr offset).1 seen count := by
  unfold Kalyke.closed Counts at *
  split <;> omega

theorem soemPdoPos_counts {rxCount txCount : Nat}
    (hrx : rxCount = b.soemSeen q true n) (htx : txCount = b.soemSeen q false n) (hk : k ≤ n) :
    (b.soemPdoPos rxCount txCount q k).ptr = q + 11 * k ∧
      Counts (b.soemPdoPos rxCount txCount q k).r (b.soemSeen q true k) rxCount ∧
      Counts (b.soemPdoPos rxCount txCount q k).t (b.soemSeen q false k) txCount := by
  induction k with
  | zero => exact ⟨rfl, .inl rfl, .inl rfl⟩
  | succ k ih =>
    obtain ⟨hptr, hr, ht⟩ := ih (by omega)
    unfold SysBlock.soemPdoPos
    dsimp only
    rw [hptr, soemSeen_succ, soemSeen_succ]
    refine ⟨by omega, Counts.closed ?_, Counts.closed ?_⟩
    · unfold Counts at *
      cases hdir : isRxPDO (b.file.getPU16 (q + 11 * k))
      · simpa using hr
      · have hmore := soemSeen_lt hk hdir
        simp only [if_true]
        omega
    · unfold Counts at *
      cases hdir : isRxPDO (b.file.getPU16 (q + 11 * k))
      · have hmore := soemSeen_lt hk hdir
        simp only [if_true, Bool.false_eq_true, if_false]
        omega
      · simpa using ht

/-- Where the next slave lies behind the one at `q`. -/
def SysBlock.slaveEnd (b : SysBlock) (q : Nat) : Nat :=
  b.soemSdoAt q (b.file.getPU16 (q + 4)) + 11 * b.file.getPU16 (q + 6)

theorem sat_parseSoemPdo {slaves rxCount txCount : Nat} {Q : SoemPdoPos → Prop} (hi : i < slaves)
    (hrx : rxCount = b.soemSeen q true n) (htx : txCount = b.soemSeen q false n) (hk : k < n) :
    Sat (Touch.Inside b.fileLen)
        (b.parseSoemPdo p slaves i rxCount txCount (b.soemPdoPos rxCount txCount q k)) Q ↔
      (q + 11 * k + 11 ≤ b.fileLen ∧
        b.malloc p (.slavePdo i (isRxPDO (b.file.getPU16 (q + 11 * k)))) = true) ∧
      Q (b.soemPdoPos rxCount txCount q (k + 1)) := by
  obtain ⟨hptr, hr, ht⟩ := soemPdoPos_counts hrx htx (Nat.le_of_lt hk)
  have hroom : (if isRxPDO (b.file.getPU16 (q + 11 * k)) = true then
      (b.soemPdoPos rxCount txCount q k).r else (b.soemPdoPos rxCount txCount q k).t) <
      b.room p (.slavePdo i (isRxPDO (b.file.getPU16 (q + 11 * k))))
        (if isRxPDO (b.file.getPU16 (q + 11 * k)) = true then rxCount else txCount) ↔
      b.malloc p (.slavePdo i (isRxPDO (b.file.getPU16 (q + 11 * k)))) = true := by
    refine lt_room_iff ?_
    unfold Counts at hr ht
    cases hdir : isRxPDO (b.file.getPU16 (q + 11 * k))
    · have hmore := soemSeen_lt hk hdir
      simp only [Bool.false_eq_true, if_false]
      omega
    · have hmore := soemSeen_lt hk hdir
      simp only [if_true]
      omega
  conv_rhs => rw [SysBlock.soemPdoPos]
  unfold SysBlock.parseSoemPdo
  rw [hptr]
  simp only [sat_bind, sat_getU8, sat_getU16, sat_storeCell, sat_closePdo hi, sat_pure, hroom]
  by_cases hserved :
      b.malloc p (.slavePdo i (isRxPDO (b.file.getPU16 (q + 11 * k)))) = true
  · simp only [hserved, true_and, and_true, ← and_assoc]
    exact and_congr_left fun _ => by omega
  · simp only [hserved, false_and, and_false, Bool.false_eq_true]

/-- The slave `i`, which lies at `q`, fits into the file and its lists into the heap. -/
structure SysBlock.SlaveFits (b : SysBlock) (p i q : Nat) : Prop where
  inside : b.slaveEnd q ≤ b.fileLen
  sdos : b.file.getPU16 (q + 4) ≠ 0 → b.malloc p (.slaveSdo i) = true
  pdos : ∀ k < b.file.getPU16 (q + 6), b.malloc p (.slavePdo i
    (isRxPDO (b.file.getPU16 (b.soemSdoAt q (b.file.getPU16 (q + 4)) + 11 * k)))) = true

theorem sat_parseSlave {slaves : Nat} {Q : Nat → Prop} (hi : i < slaves) :
    Sat (Touch.Inside b.fileLen) (b.parseSlave p slaves i q) Q ↔
      b.SlaveFits p i q ∧ Q (b.slaveEnd q) := by
  have hsdos {Q : Nat → Prop} := sat_loop_forall (n := b.file.getPU16 (q + 4)) (Q := Q)
    (s := b.soemSdoAt q) fun k hk Q => sat_parseSoemSdo (p := p) (i := i) (Q := Q) hk
  have hend : b.soemSdoAt q (b.file.getPU16 (q + 4)) + 11 * b.file.getPU16 (q + 6) =
    b.slaveEnd q := rfl
  have hhead : q + 8 ≤ b.soemSdoAt q (b.file.getPU16 (q + 4)) :=
    Nat.le_trans (Nat.le_add_right _ _) le_soemSdoAt
  have hzero : q + 8 = b.soemSdoAt q 0 := rfl
  unfold SysBlock.parseSlave
  simp only [sat_bind, sat_getU16, sat_storeCell, hi, true_and, sat_pure]
  rw [hzero, hsdos]
  generalize hr : b.soemSdoAt q (b.file.getPU16 (q + 4)) = r at *
  have hcount {Q : PdoCount → Prop} := sat_loop_forall (n := b.file.getPU16 (q + 6)) (Q := Q)
    (s := fun k => ⟨r + 11 * k, b.soemSeen r true k, b.soemSeen r false k⟩)
    fun k _ Q => sat_countSoemPdo (b := b) (q := r) (k := k) (Q := Q) hi
  have hpdos {Q : SoemPdoPos → Prop} := sat_loop_forall (n := b.file.getPU16 (q + 6)) (Q := Q)
    (s := b.soemPdoPos (b.soemSeen r true (b.file.getPU16 (q + 6)))
      (b.soemSeen r false (b.file.getPU16 (q + 6))) r)
    fun k hk Q => sat_parseSoemPdo (p := p) (Q := Q) hi rfl rfl hk
  rw [show (⟨r, 0, 0⟩ : PdoCount) =
      ⟨r + 11 * 0, b.soemSeen r true 0, b.soemSeen r false 0⟩ from rfl, hcount]
  rw [show (⟨r, 0, 0, 0, 0⟩ : SoemPdoPos) = b.soemPdoPos (b.soemSeen r true
    (b.file.getPU16 (q + 6))) (b.soemSeen r false (b.file.getPU16 (q + 6))) r 0 from rfl, hpdos]
  rw [(soemPdoPos_counts rfl rfl (Nat.le_refl _)).1, hend]
  constructor
  · rintro ⟨-, hfirst, hall, -, hpdos, hQ⟩
    have hr' : r ≤ b.fileLen := by
      rw [← hr]
      cases hn : b.file.getPU16 (q + 4) with
      | zero => exact hfirst
      | succ n => exact (hall n (by omega)).2
    refine ⟨⟨?_, fun hne => (hall 0 (Nat.pos_of_ne_zero hne)).1, fun k hk => ?_⟩, hQ⟩
    · rw [← hend]
      exact (forall_entry_le_iff hr').mp fun k hk => (hpdos k hk).1
    · rw [hr]
      exact (hpdos k hk).2
  · rintro ⟨⟨hinside, hsdo, hpdo⟩, hQ⟩
    rw [← hend] at hinside
    rw [hr] at hpdo
    have hr' : r ≤ b.fileLen := by omega
    have hrounds := (forall_entry_le_iff hr').mpr hinside
    refine ⟨by omega, by rw [← hzero]; omega, fun k hk => ⟨hsdo (by omega), ?_⟩, fun k hk => ?_,
      fun k hk => ⟨hrounds k hk, hpdo k hk⟩, hQ⟩
    · have hle := soemSdoAt_mono (b := b) (q := q) (show k + 1 ≤ b.file.getPU16 (q + 4) by omega)
      omega
    · have hround := hrounds k hk
      omega

/-- Where the slaves of the section at `p` lie. -/
def SysBlock.slaveAt (b : SysBlock) (p : Nat) : Nat → Nat
  | 0 => p + 8
  | i + 1 => b.slaveEnd (b.slaveAt p i)

/-- The EtherCAT configuration at `p` fits. -/
structure SysBlock.SoemFits (b : SysBlock) (p : Nat) : Prop where
  head : p + 8 ≤ b.fileLen
  served : b.file.getPU16 (p + 6) ≠ 0 → b.malloc p .slaves = true
  slave : ∀ i < b.file.getPU16 (p + 6), b.SlaveFits p i (b.slaveAt p i)

theorem sat_parseEthercatConfig {Q : Nat → Prop} (hp : p + 4 < b.fileLen) :
    Sat (Touch.Inside b.fileLen) (b.parseEthercatConfig p) Q ↔
      b.SoemFits p ∧ Q (b.sectionLen p) := by
  unfold SysBlock.parseEthercatConfig
  simp only [sat_bind, sat_getU16, sat_setCell, sat_clearRegion, SysCell.Inside, true_and, sat_ite,
    sat_pure]
  rw [and_iff_right (show p + 2 + 2 ≤ b.fileLen by omega)]
  by_cases hcount : b.file.getPU16 (p + 6) = 0
  · simp only [hcount, true_imp_iff, not_true_eq_false, false_imp_iff, and_true]
    constructor
    · rintro ⟨-, hhead, hlen⟩
      refine ⟨⟨by omega, fun h => absurd hcount h, fun i hi => ?_⟩, hlen⟩
      rw [hcount] at hi
      cases hi
    · rintro ⟨⟨hhead, -, -⟩, hlen⟩
      exact ⟨by omega, by omega, hlen⟩
  · simp only [hcount, false_imp_iff, not_false_eq_true, true_imp_iff, true_and]
    by_cases hserved : b.malloc p .slaves = true
    · have hroom : b.room p .slaves (b.file.getPU16 (p + 6)) = b.file.getPU16 (p + 6) := by
        unfold SysBlock.room
        rw [if_pos hserved]
      have hstart : p + 8 = b.slaveAt p 0 := rfl
      rw [hroom, hstart, sat_loop_forall fun i hi Q => sat_parseSlave hi]
      constructor
      · rintro ⟨-, hhead, hfits, hlen⟩
        exact ⟨⟨by omega, fun _ => hserved, hfits⟩, hlen⟩
      · rintro ⟨⟨hhead, -, hfits⟩, hlen⟩
        exact ⟨by omega, by omega, hfits, hlen⟩
    · -- the first slave is stored where nothing was allocated
      have hroom : b.room p .slaves (b.file.getPU16 (p + 6)) = 0 := by
        unfold SysBlock.room
        rw [if_neg hserved]
      refine iff_of_false ?_ fun h => hserved (h.1.served hcount)
      rintro ⟨-, -, hloop⟩
      obtain ⟨n, hn⟩ := exists_eq_succ_of_ne_zero hcount
      rw [hroom, hn] at hloop
      have hfirst := sat_bind.mp hloop
      unfold SysBlock.parseSlave at hfirst
      simp only [sat_bind, sat_getU16, sat_storeCell, Nat.not_lt_zero, false_and, and_false] at hfirst

/-! ## Sheets -/

theorem sat_parseTcpItem {Q : Nat → Prop} :
    Sat (Touch.Inside b.fileLen) (b.parseTcpItem i q) Q ↔
      (i < maxTcpConfigItem ∧ q + 20 ≤ b.fileLen) ∧ Q (q + 18) := by
  have hname {Q : Unit → Prop} := sat_loop_forall (P := Touch.Inside b.fileLen) (n := 8) (Q := Q)
    (s := fun _ => ()) (g := fun k _ => do
      let v ← b.getU8 (q + 2 + k)
      setCell (.tcpName i k) v) (C := fun k => q + 3 + k ≤ b.fileLen ∧ i < maxTcpConfigItem)
    fun k _ Q => by
      simp only [sat_bind, sat_getU8, sat_setCell, SysCell.Inside, ← and_assoc]
      refine and_congr_left fun _ => and_congr_left fun _ => ?_
      omega
  unfold SysBlock.parseTcpItem
  simp only [sat_bind, hname, sat_getU8, sat_getU16, sat_setCell, SysCell.Inside, sat_pure]
  by_cases hi : i < maxTcpConfigItem
  · simp only [hi, true_and, and_true, ← and_assoc]
    refine and_congr_left fun _ => ⟨fun h => by omega, fun h => ?_⟩
    refine ⟨⟨⟨⟨⟨⟨fun k hk => ?_, ?_⟩, ?_⟩, ?_⟩, ?_⟩, ?_⟩, ?_⟩ <;> omega
  · simp only [hi, false_and, and_false]

/-- The configuration of the TCP clients at `p` fits. -/
structure SysBlock.TcpFits (b : SysBlock) (p : Nat) : Prop where
  count : b.file.getPU16 (p + 4) ≤ maxTcpConfigItem
  inside : p + 6 + 18 * b.file.getPU16 (p + 4) ≤ b.fileLen

theorem sat_parseModbusTcpClient {Q : Nat → Prop} (hp : p + 4 < b.fileLen) :
    Sat (Touch.Inside b.fileLen) (b.parseModbusTcpClient p) Q ↔
      b.TcpFits p ∧ Q (b.sectionLen p) := by
  have hitems {Q : Nat → Prop} := sat_loop_forall (n := b.file.getPU16 (p + 4)) (Q := Q)
    (s := fun i => p + 4 + 18 * i) fun i _ Q => sat_parseTcpItem (b := b) (i := i) (Q := Q)
  simp only [Nat.mul_zero, Nat.add_zero] at hitems
  unfold SysBlock.parseModbusTcpClient
  simp only [sat_bind, sat_getU16, sat_setCell, sat_clearRegion, SysCell.Inside, true_and, sat_pure,
    hitems]
  constructor
  · rintro ⟨-, hhead, hall, hlen⟩
    refine ⟨⟨?_, ?_⟩, hlen⟩
    · by_contra hcount
      have hlast := (hall maxTcpConfigItem (by omega)).1
      omega
    · refine (forall_entry_le_iff (by omega)).mp fun i hi => ?_
      have hitem := (hall i hi).2
      omega
  · rintro ⟨⟨hcount, hinside⟩, hlen⟩
    refine ⟨by omega, by omega, fun i hi => ⟨by omega, ?_⟩, hlen⟩
    have hitem := (forall_entry_le_iff (by omega)).mpr hinside i hi
    omega

/-- The entry of a sheet that lies at `q` names elements for its data and its result. -/
def SysBlock.SheetItemOk (b : SysBlock) (q : Nat) : Prop :=
  (sheetElement (b.file.getPU16 (q + 10))).isSome = true ∧
    (sheetElement (b.file.getPU16 (q + 12))).isSome = true

/-- The entry of a sheet that lies at `q` fits as far as it is read. -/
def SysBlock.SheetItemFits (b : SysBlock) (q : Nat) : Prop :=
  q + 12 ≤ b.fileLen ∧
    ((sheetElement (b.file.getPU16 (q + 10))).isSome = true → q + 14 ≤ b.fileLen)

theorem sat_parseSheetItem {Q : Nat → Prop} (hserved : b.malloc p (.sheet i) = true) (hk : k < n) :
    Sat (Touch.Inside b.fileLen) (b.parseSheetItem p i n k q) Q ↔
      b.SheetItemFits q ∧ (b.SheetItemOk q → Q (q + 14)) := by
  have hroom : k < b.room p (.sheet i) n := (lt_room_iff hk).mpr hserved
  unfold SysBlock.parseSheetItem SysBlock.SheetItemFits SysBlock.SheetItemOk
  simp only [sat_bind, sat_getU8, sat_getU16, sat_storeCell, hroom, true_and]
  cases hdata : sheetElement (b.file.getPU16 (q + 10)) with
  | none =>
    simp only [sat_giveUp, isSome_none, Bool.false_eq_true, false_imp_iff, false_and, and_true]
    omega
  | some data =>
    simp only [sat_bind, sat_getU16, sat_storeCell, hroom, true_and, isSome_some, true_imp_iff]
    cases hresult : sheetElement (b.file.getPU16 (q + 12)) with
    | none =>
      simp only [sat_giveUp, isSome_none, Bool.false_eq_true, false_imp_iff, and_true]
      omega
    | some result =>
      simp only [sat_bind, sat_storeCell, hroom, true_and, sat_pure, isSome_some,
        true_imp_iff, ← and_assoc]
      exact and_congr_left fun _ => by omega

/-- The number of entries of the sheet at `q`. -/
def SysBlock.insListNum (b : SysBlock) (q : Nat) : Nat := b.file.getPU16 (q + 10) % 256

/-- The sheet `i`, which lies at `q`, is accepted. -/
structure SysBlock.SheetOk (b : SysBlock) (p i q : Nat) : Prop where
  served : b.malloc p (.sheet i) = true
  item : ∀ j < b.insListNum q, b.SheetItemOk (q + 12 + 14 * j)

/-- The sheet `i`, which lies at `q`, fits as far as it is read. -/
structure SysBlock.SheetFits (b : SysBlock) (p i q : Nat) : Prop where
  count : i < maxModlinkSheetNum
  head : q + 12 ≤ b.fileLen
  item : b.malloc p (.sheet i) = true → ∀ j < b.insListNum q,
    (∀ l < j, b.SheetItemOk (q + 12 + 14 * l)) → b.SheetItemFits (q + 12 + 14 * j)

theorem sat_parseSheet {Q : Nat → Prop} :
    Sat (Touch.Inside b.fileLen) (b.parseSheet p i q) Q ↔
      b.SheetFits p i q ∧ (b.SheetOk p i q → Q (q + 12 + 14 * b.insListNum q)) := by
  have hname {Q : Unit → Prop} := sat_loop_forall (P := Touch.Inside b.fileLen)
    (n := maxModlinkSheetNameLen) (Q := Q) (s := fun _ => ()) (g := fun k _ => do
      let v ← b.getU8 (q + k)
      setCell (.sheetName i k) v) (C := fun k => q + k + 1 ≤ b.fileLen ∧ i < maxModlinkSheetNum)
    fun k _ Q => by simp only [sat_bind, sat_getU8, sat_setCell, SysCell.Inside, and_assoc]
  unfold SysBlock.parseSheet
  simp only [sat_bind, hname, sat_getU16, sat_setCell, SysCell.Inside, sat_ite, sat_giveUp, implies_true,
    and_true]
  have hfirst : (∀ k < maxModlinkSheetNameLen, q + k + 1 ≤ b.fileLen ∧ i < maxModlinkSheetNum) →
      i < maxModlinkSheetNum := fun h => (h 0 (by decide)).2
  by_cases hserved : b.malloc p (.sheet i) = true
  · have hitems {Q : Nat → Prop} := sat_loop (n := b.insListNum q) (Q := Q)
      (s := fun j => q + 12 + 14 * j) (G := fun j => b.SheetItemOk (q + 12 + 14 * j))
      fun j hj Q => sat_parseSheetItem (q := q + 12 + 14 * j) (Q := Q) hserved hj
    simp only [Nat.mul_zero, Nat.add_zero] at hitems
    simp only [hserved, true_imp_iff]
    rw [show b.file.getPU16 (q + 10) % 256 = b.insListNum q from rfl, hitems]
    constructor
    · rintro ⟨hname, -, -, hhead, hcount, hfits, hQ⟩
      exact ⟨⟨hcount, by omega, fun _ => hfits⟩, fun hok => hQ hok.item⟩
    · rintro ⟨⟨hcount, hhead, hfits⟩, hQ⟩
      refine ⟨fun k hk => ⟨?_, hcount⟩, by omega, hcount, by omega, hcount, hfits hserved, fun hok =>
        hQ ⟨hserved, hok⟩⟩
      unfold maxModlinkSheetNameLen at hk
      omega
  · simp only [hserved, Bool.false_eq_true, false_imp_iff, and_true]
    constructor
    · rintro ⟨-, -, -, hhead, hcount⟩
      exact ⟨⟨hcount, by omega, fun h => absurd h hserved⟩, fun hok => absurd hok.served hserved⟩
    · rintro ⟨⟨hcount, hhead, -⟩, -⟩
      refine ⟨fun k hk => ⟨?_, hcount⟩, by omega, hcount, by omega, hcount⟩
      unfold maxModlinkSheetNameLen at hk
      omega

/-- Where the sheets of the section at `p` lie. -/
def SysBlock.sheetAt (b : SysBlock) (p : Nat) : Nat → Nat
  | 0 => p + 6
  | i + 1 => b.sheetAt p i + 12 + 14 * b.insListNum (b.sheetAt p i)

/-- The number of sheets of the section at `p`. -/
def SysBlock.sheetNum (b : SysBlock) (p : Nat) : Nat := b.file.getPU16 (p + 4) % 256

def SysBlock.ModlinkOk (b : SysBlock) (p : Nat) : Prop :=
  ∀ i < b.sheetNum p, b.SheetOk p i (b.sheetAt p i)

/-- The sheets at `p` fit as far as they are read. -/
structure SysBlock.ModlinkFits (b : SysBlock) (p : Nat) : Prop where
  head : p + 6 ≤ b.fileLen
  sheet : ∀ i < b.sheetNum p, (∀ j < i, b.SheetOk p j (b.sheetAt p j)) →
    b.SheetFits p i (b.sheetAt p i)

theorem sat_plcParseSysblkModlinkConfig {Q : Unit → Prop} :
    Sat (Touch.Inside b.fileLen) (b.plcParseSysblkModlinkConfig p) Q ↔
      b.ModlinkFits p ∧ (b.ModlinkOk p → Q ()) := by
  have hsheets {Q : Nat → Prop} := sat_loop (n := b.sheetNum p) (Q := Q) (s := b.sheetAt p)
    (G := fun i => b.SheetOk p i (b.sheetAt p i))
    fun i _ Q => sat_parseSheet (b := b) (p := p) (i := i) (q := b.sheetAt p i) (Q := Q)
  have hstart : p + 6 = b.sheetAt p 0 := rfl
  have hnum : b.file.getPU16 (p + 4) % 256 = b.sheetNum p := rfl
  unfold SysBlock.plcParseSysblkModlinkConfig
  simp only [sat_bind, sat_clearRegion, sat_getU16, sat_pure]
  rw [hstart, hnum, hsheets]
  constructor
  · rintro ⟨hhead, hfits, hQ⟩
    exact ⟨⟨by omega, hfits⟩, hQ⟩
  · rintro ⟨⟨hhead, hfits⟩, hQ⟩
    exact ⟨by omega, hfits, hQ⟩

end Kalyke
