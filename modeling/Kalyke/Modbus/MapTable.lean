-- SUMMARY: The table that maps Modbus addresses to elements, and the lookup in it.
import Kalyke.Exec.Elements
import Mathlib.Tactic.SplitIfs

/-!
# Address Table

A Modbus address names a bit or a word. The table has one row for each section of an element class:
a window of addresses, the element its first address stands for, and the number of elements. The
lookup takes the first row whose window holds the address.
-/

namespace Kalyke

open List

/-- The two kinds of addresses: `MB_BIT_ELEMENT` and `MB_WORD_ELEMENT`. -/
inductive AddrKind where
  | bit | word
deriving DecidableEq, Repr

/-- `C16_RANG`: the counters from this number on have 32 bits. -/
def c16Rang : Nat := 200

/-- The classes of elements a Modbus address can name. -/
inductive MbElement where
  | bitY | bitX | bitM | bitSM | bitS | bitT | bitC
  | wordD | wordSD | wordZ | wordT | wordC | wordR
deriving DecidableEq, Repr

namespace MbElement

/-- The kind of the addresses that name elements of the class. -/
def kind : MbElement → AddrKind
  | bitY | bitX | bitM | bitSM | bitS | bitT | bitC => .bit
  | wordD | wordSD | wordZ | wordT | wordC | wordR => .word

def bit? : MbElement → Option BitElement
  | bitY => some .Y
  | bitX => some .X
  | bitM => some .M
  | bitSM => some .SM
  | bitS => some .S
  | bitT => some .T
  | bitC => some .C
  | _ => none

/-- The word elements of the class; for counters those of 16 bits. -/
def word? : MbElement → Option WordElement
  | wordD => some .D
  | wordSD => some .SD
  | wordZ => some .Z
  | wordT => some .T
  | wordC => some .C
  | wordR => some .R
  | _ => none

end MbElement

/-- `mb_element_map_table_info`, without the number of the section, which nothing reads. -/
structure MapRow where
  addrType : AddrKind
  elementType : MbElement
  startAddr : Nat
  endAddr : Nat
  startElement : Nat
  maxNum : Nat
deriving DecidableEq, Repr

/-- The rows of `stv_ModbusMapTable` for bits. -/
def bitRows : List MapRow :=
  [⟨.bit, .bitY, 0, 1199, 0, 256⟩,
   ⟨.bit, .bitY, 10000, 11999, 256, 1792⟩,
   ⟨.bit, .bitX, 1200, 1999, 0, 256⟩,
   ⟨.bit, .bitX, 12000, 13999, 256, 1792⟩,
   ⟨.bit, .bitM, 2000, 4399, 0, 2048⟩,
   ⟨.bit, .bitM, 34000, 53999, 2048, 14336⟩,
   ⟨.bit, .bitSM, 4400, 5999, 0, 256⟩,
   ⟨.bit, .bitSM, 14000, 17999, 256, 3840⟩,
   ⟨.bit, .bitS, 6000, 7999, 0, 1024⟩,
   ⟨.bit, .bitS, 18000, 25999, 1024, 7168⟩,
   ⟨.bit, .bitT, 8000, 9199, 0, 256⟩,
   ⟨.bit, .bitT, 26000, 29999, 256, 256⟩,
   ⟨.bit, .bitC, 9200, 10000, 0, 256⟩,
   ⟨.bit, .bitC, 30000, 33999, 256, 256⟩]

/-- The rows of `stv_ModbusMapTable` for words. -/
def wordRows : List MapRow :=
  [⟨.word, .wordD, 0, 7999, 0, 8000⟩,
   ⟨.word, .wordSD, 8000, 8499, 0, 256⟩,
   ⟨.word, .wordSD, 46000, 49999, 256, 3840⟩,
   ⟨.word, .wordZ, 8500, 8999, 0, 16⟩,
   ⟨.word, .wordZ, 10000, 11999, 16, 0⟩,
   ⟨.word, .wordT, 9000, 9499, 0, 256⟩,
   ⟨.word, .wordT, 50000, 53999, 256, 256⟩,
   ⟨.word, .wordC, 9500, 9699, 0, 200⟩,
   -- a counter of 32 bits is read as two words, so the number of elements is doubled
   ⟨.word, .wordC, 9700, 9811, 200, 56 * 2⟩,
   ⟨.word, .wordC, 54000, 61999, 256, 256 * 2⟩,
   ⟨.word, .wordR, 13000, 45999, 0, 32768⟩]

/-- `stv_ModbusMapTable`, without the row that marks its end. -/
def modbusMapTable : List MapRow := bitRows ++ wordRows

/-- The loop of the lookup over the rows that are left. The first window that holds the address
decides; the element number is then compared with the start of the *addresses* plus the number of
elements. -/
def searchRows (kind : AddrKind) (addr : Nat) : List MapRow → Option (MbElement × Nat)
  | [] => none
  | r :: rows =>
    if r.addrType ≠ kind then searchRows kind addr rows
    else if r.startAddr ≤ addr ∧ addr ≤ r.endAddr then
      let element := addr - r.startAddr + r.startElement
      if r.startAddr + r.maxNum ≤ element then none else some (r.elementType, element)
    else searchRows kind addr rows

def mbSlaveConvertElementInfo (kind : AddrKind) (addr : Nat) : Option (MbElement × Nat) :=
  match kind with
  | .bit => searchRows .bit addr modbusMapTable
  | .word => searchRows .word addr (modbusMapTable.drop 14)

/-! ## What the Lookup Accepts -/

/-- The window of a row holds the address. -/
def MapRow.Holds (r : MapRow) (a : Nat) : Prop := r.startAddr ≤ a ∧ a ≤ r.endAddr

/-- Two rows of one kind share no address. -/
def MapRow.Apart (r q : MapRow) : Prop :=
  r.addrType = q.addrType → r.endAddr < q.startAddr ∨ q.endAddr < r.startAddr

instance (r q : MapRow) : Decidable (r.Apart q) := by unfold MapRow.Apart; infer_instance

section Search

variable {kind : AddrKind} {a : Nat} {r : MapRow} {rows : List MapRow}

theorem searchRows_hit (hk : r.addrType = kind) (h : r.Holds a) :
    searchRows kind a (r :: rows) =
      if r.startAddr + r.maxNum ≤ a - r.startAddr + r.startElement then none
      else some (r.elementType, a - r.startAddr + r.startElement) := by
  rw [searchRows, if_neg (not_not.mpr hk)]
  exact if_pos h

theorem searchRows_miss (h : r.addrType = kind → ¬ r.Holds a) :
    searchRows kind a (r :: rows) = searchRows kind a rows := by
  rw [searchRows]
  by_cases hk : r.addrType = kind
  · rw [if_neg (not_not.mpr hk)]
    exact if_neg (h hk)
  · rw [if_pos hk]

/-- Where no two windows hold the address, the search accepts what one of its rows accepts. -/
theorem searchRows_eq_some_iff {x : MbElement × Nat}
    (hrows : rows.Pairwise fun r q => r.addrType = q.addrType → r.Holds a → ¬ q.Holds a) :
    searchRows kind a rows = some x ↔ ∃ r ∈ rows, r.addrType = kind ∧ r.Holds a ∧
      a - r.startAddr + r.startElement < r.startAddr + r.maxNum ∧
      x = (r.elementType, a - r.startAddr + r.startElement) := by
  induction rows with
  | nil => simp [searchRows]
  | cons r rows ih =>
    obtain ⟨hr, hrows⟩ := pairwise_cons.mp hrows
    by_cases hhit : r.addrType = kind ∧ r.Holds a
    · have hrest : ∀ q ∈ rows, ¬ (q.addrType = kind ∧ q.Holds a) := by
        rintro q hq ⟨hk, hqa⟩
        exact hr q hq (hhit.1.trans hk.symm) hhit.2 hqa
      rw [searchRows_hit hhit.1 hhit.2]
      constructor
      · intro h
        split_ifs at h with hlt
        exact ⟨r, mem_cons_self, hhit.1, hhit.2, Nat.not_le.mp hlt, (Option.some.inj h).symm⟩
      · rintro ⟨q, hq, hk, hqa, hlt, rfl⟩
        rcases mem_cons.mp hq with rfl | hq
        · exact if_neg (Nat.not_le.mpr hlt)
        · exact absurd ⟨hk, hqa⟩ (hrest q hq)
    · rw [searchRows_miss fun hk h => hhit ⟨hk, h⟩, ih hrows]
      constructor
      · rintro ⟨q, hq, h⟩
        exact ⟨q, mem_cons_of_mem r hq, h⟩
      · rintro ⟨q, hq, hk, hqa, h⟩
        rcases mem_cons.mp hq with rfl | hq
        · exact absurd ⟨hk, hqa⟩ hhit
        · exact ⟨q, hq, hk, hqa, h⟩

end Search

/-- The only two windows of one kind that meet are the second of `Y` and the first of `C`. -/
theorem rows_apart : modbusMapTable.Pairwise fun r q =>
    r.Apart q ∨ r = ⟨.bit, .bitY, 10000, 11999, 256, 1792⟩ ∧ q = ⟨.bit, .bitC, 9200, 10000, 0, 256⟩ := by
  decide

theorem rows_apart_at {a : Nat} (ha : a ≠ 10000) : modbusMapTable.Pairwise fun r q =>
    r.addrType = q.addrType → r.Holds a → ¬ q.Holds a := by
  refine rows_apart.imp ?_
  rintro r q (hapart | ⟨rfl, rfl⟩) hk ⟨hr, hr'⟩ ⟨hq, hq'⟩
  · have := hapart hk
    omega
  · have hle : a ≤ 10000 := hq'
    have hge : 10000 ≤ a := hr
    omega

/-- A window of addresses, by its first and last address and the element of the first. -/
structure AddrWindow where
  start : Nat
  stop : Nat
  first : Nat
deriving DecidableEq, Repr

/-- The address lies in the window and stands for the element. -/
def AddrWindow.Maps (w : AddrWindow) (a n : Nat) : Prop :=
  w.start ≤ a ∧ a ≤ w.stop ∧ n = a - w.start + w.first

/-- The addresses a row accepts. -/
def MapRow.window (r : MapRow) : AddrWindow where
  start := r.startAddr
  stop := min r.endAddr (2 * r.startAddr + r.maxNum - r.startElement - 1)
  first := r.startElement

theorem MapRow.window_maps_iff {r : MapRow} (hr : r ∈ modbusMapTable) {a n : Nat} :
    r.window.Maps a n ↔ r.Holds a ∧ a - r.startAddr + r.startElement < r.startAddr + r.maxNum ∧
      n = a - r.startAddr + r.startElement := by
  have hpos : ∀ r ∈ modbusMapTable, r.startElement < 2 * r.startAddr + r.maxNum := by decide
  have := hpos r hr
  simp only [AddrWindow.Maps, window, Holds]
  omega

/-- The addresses the lookup accepts for a class, window by window. -/
def MbElement.windows : MbElement → List AddrWindow
  | bitY => [⟨0, 255, 0⟩, ⟨10000, 11999, 256⟩]
  | bitX => [⟨1200, 1999, 0⟩, ⟨12000, 13999, 256⟩]
  | bitM => [⟨2000, 4399, 0⟩, ⟨34000, 53999, 2048⟩]
  | bitSM => [⟨4400, 5999, 0⟩, ⟨14000, 17999, 256⟩]
  | bitS => [⟨6000, 7999, 0⟩, ⟨18000, 25999, 1024⟩]
  | bitT => [⟨8000, 9199, 0⟩, ⟨26000, 29999, 256⟩]
  | bitC => [⟨9200, 9999, 0⟩, ⟨30000, 33999, 256⟩]
  | wordD => [⟨0, 7999, 0⟩]
  | wordSD => [⟨8000, 8499, 0⟩, ⟨46000, 49999, 256⟩]
  | wordZ => [⟨8500, 8999, 0⟩, ⟨10000, 11999, 16⟩]
  | wordT => [⟨9000, 9499, 0⟩, ⟨50000, 53999, 256⟩]
  | wordC => [⟨9500, 9699, 0⟩, ⟨9700, 9811, 200⟩, ⟨54000, 61999, 256⟩]
  | wordR => [⟨13000, 45999, 0⟩]

def MbElement.rowWindows (t : MbElement) : List AddrWindow :=
  (modbusMapTable.filter (·.elementType = t)).map MapRow.window

theorem MbElement.rowWindows_eq {t : MbElement} (ht : t ≠ .bitC) : t.rowWindows = t.windows := by
  cases t <;> first | decide | exact absurd rfl ht

/-- Off the address where two windows meet, the windows of the rows are the windows in force. -/
theorem MbElement.rowWindows_maps_iff {t : MbElement} {a n : Nat} (ha : a ≠ 10000) :
    (∃ w ∈ t.rowWindows, w.Maps a n) ↔ ∃ w ∈ t.windows, w.Maps a n := by
  by_cases ht : t = .bitC
  · have hrows : MbElement.bitC.rowWindows = [⟨9200, 10000, 0⟩, ⟨30000, 33999, 256⟩] := by decide
    subst ht
    simp only [hrows, windows, mem_cons, not_mem_nil, or_false, exists_eq_or_imp,
      exists_eq_left, AddrWindow.Maps]
    omega
  · rw [rowWindows_eq ht]

/-- The search through the rows of one kind, off the address where two windows meet. -/
theorem searchRows_kind_iff {kind : AddrKind} {rows : List MapRow} {a n : Nat} {t : MbElement}
    (hrows : ∀ r, r ∈ rows ∧ r.addrType = kind ↔ r ∈ modbusMapTable ∧ r.addrType = kind)
    (hapart : rows.Pairwise fun r q => r.addrType = q.addrType → r.Holds a → ¬ q.Holds a)
    (ha : a ≠ 10000) :
    searchRows kind a rows = some (t, n) ↔ t.kind = kind ∧ ∃ w ∈ t.windows, w.Maps a n := by
  have hkind : ∀ r ∈ modbusMapTable, r.addrType = r.elementType.kind := by decide
  rw [searchRows_eq_some_iff hapart, ← MbElement.rowWindows_maps_iff ha]
  constructor
  · rintro ⟨r, hr, hk, hhold, hlt, hx⟩
    obtain ⟨rfl, rfl⟩ := Prod.mk.inj hx
    have hmem := ((hrows r).mp ⟨hr, hk⟩).1
    refine ⟨(hkind r hmem).symm.trans hk, r.window, ?_, ?_⟩
    · exact mem_map_of_mem (mem_filter.mpr ⟨hmem, by simp⟩)
    · exact (MapRow.window_maps_iff hmem).mpr ⟨hhold, hlt, rfl⟩
  · rintro ⟨hk, w, hw, hmaps⟩
    obtain ⟨r, hr, rfl⟩ := mem_map.mp hw
    obtain ⟨hmem, ht⟩ := mem_filter.mp hr
    have ht : r.elementType = t := by simpa using ht
    obtain ⟨hhold, hlt, rfl⟩ := (MapRow.window_maps_iff hmem).mp hmaps
    have hrk : r.addrType = kind := by rw [hkind r hmem, ht, hk]
    exact ⟨r, ((hrows r).mpr ⟨hmem, hrk⟩).1, hrk, hhold, hlt, by rw [ht]⟩

/-- What an accepted address stands for. -/
theorem convert_eq_some_iff {kind : AddrKind} {a n : Nat} {t : MbElement} :
    mbSlaveConvertElementInfo kind a = some (t, n) ↔
      t.kind = kind ∧ ∃ w ∈ t.windows, w.Maps a n := by
  by_cases ha : a = 10000
  · have hbit : mbSlaveConvertElementInfo .bit 10000 = some (.bitY, 256) := by decide
    have hword : mbSlaveConvertElementInfo .word 10000 = some (.wordZ, 16) := by decide
    subst ha
    cases kind <;> simp only [hbit, hword] <;> cases t <;>
      simp [MbElement.kind, MbElement.windows, AddrWindow.Maps, eq_comm]
  · cases kind with
    | bit => exact searchRows_kind_iff (fun r => Iff.rfl) (rows_apart_at ha) ha
    | word =>
      have hwords : ∀ r ∈ modbusMapTable, r.addrType = .word → r ∈ wordRows := by decide
      refine searchRows_kind_iff (fun r => ⟨?_, ?_⟩) ((rows_apart_at ha).sublist ?_) ha
      · rintro ⟨hr, hk⟩
        exact ⟨mem_append_right _ hr, hk⟩
      · rintro ⟨hr, hk⟩
        exact ⟨hwords r hr hk, hk⟩
      · exact sublist_append_right _ _

end Kalyke
