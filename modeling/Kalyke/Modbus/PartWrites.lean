-- SUMMARY: Writing parts of the flash memory: what keeps to its part, and what a part holds after it.
import Kalyke.Modbus.Programme

/-!
# Parts that Are Written

A part that is erased in whole sectors and written within what is erased is touched alone. What it
holds in the end is what was written to it last, and blank behind that.
-/

namespace Kalyke

open List FlashOp

variable {p : FlashBoard} {w : PartWrite} {f : DlFile} {a : Nat}

/-- A byte of the flash memory that is erased. -/
def blankByte : Byte := 0xFF

/-- The flash memory after parts were written. -/
def runParts (p : FlashBoard) (ws : List PartWrite) (mem : Nat → Byte) : Nat → Byte :=
  FlashOp.run sectorSize blankByte (ws.flatMap (PartWrite.ops p)) mem

theorem runParts_append (l r : List PartWrite) (mem : Nat → Byte) :
    runParts p (l ++ r) mem = runParts p r (runParts p l mem) := by
  unfold runParts
  rw [flatMap_append, FlashOp.run_append]

theorem DlFile.sectorSize_dvd_startAddr (p : FlashBoard) (f : DlFile) :
    sectorSize ∣ f.startAddr p := by
  cases f with
  | sysUpgrade =>
    simp only [startAddr, sectorSize]
    split_ifs <;> omega
  | _ =>
    simp only [startAddr, sectorSize]
    omega

theorem DlFile.sectorSize_dvd_partSize (f : DlFile) : sectorSize ∣ f.partSize := by
  cases f <;> decide

theorem DlFile.dataOffset_le (f : DlFile) : f.dataOffset ≤ f.partSize := by
  cases f <;> decide

theorem DlFile.partSize_pos (f : DlFile) : 0 < f.partSize := by
  cases f <;> decide

namespace PartWrite

/-- Whole sectors of the part are erased, and written within. -/
structure Fits (w : PartWrite) : Prop where
  sectors : sectorSize ∣ w.erased
  erased : w.erased ≤ w.part.partSize
  written : w.part.dataOffset + w.data.length ≤ w.erased

/-- No operation leaves the part. -/
def Within (p : FlashBoard) (w : PartWrite) : Prop :=
  ∀ op ∈ w.ops p, (flashLayout p).Within sectorSize w.part op

theorem mem_ops {op : FlashOp Byte} (h : op ∈ w.ops p) :
    op = .erase (w.part.startAddr p) w.erased ∨
      op = .write (w.part.startAddr p + w.part.dataOffset) w.data ∨
      w.part = .sysUpgrade ∧ op = .write (w.part.startAddr p) p.flashConfig := by
  unfold ops at h
  dsimp only at h
  by_cases hpart : w.part = .sysUpgrade
  · rw [if_pos hpart] at h
    simp only [mem_cons, not_mem_nil, or_false] at h
    rcases h with h | h | h
    · exact .inl h
    · exact .inr (.inr ⟨hpart, h⟩)
    · exact .inr (.inl h)
  · rw [if_neg hpart] at h
    simp only [mem_cons, not_mem_nil, or_false] at h
    rcases h with h | h
    · exact .inl h
    · rw [DlFile.dataOffset, if_neg hpart]
      exact .inr (.inl h)

theorem erase_mem_ops (p : FlashBoard) (w : PartWrite) :
    .erase (w.part.startAddr p) w.erased ∈ w.ops p := by
  unfold ops
  split_ifs <;> exact mem_cons_self

theorem write_mem_ops (p : FlashBoard) (w : PartWrite) :
    .write (w.part.startAddr p + w.part.dataOffset) w.data ∈ w.ops p := by
  unfold ops
  by_cases hpart : w.part = .sysUpgrade
  · rw [if_pos hpart]
    simp
  · rw [if_neg hpart, DlFile.dataOffset, if_neg hpart]
    simp

theorem erases_iff (p : FlashBoard) (hsectors : sectorSize ∣ w.erased) :
    (.erase (w.part.startAddr p) w.erased : FlashOp Byte).Erases sectorSize a ↔
      w.part.startAddr p ≤ a ∧ a < w.part.startAddr p + w.erased := by
  obtain ⟨n, hn⟩ := hsectors
  rw [hn]
  exact erases_aligned (by decide) (w.part.sectorSize_dvd_startAddr p)

theorem configSize_le (p : FlashBoard) (h : w.part = .sysUpgrade) (hfits : w.Fits) :
    p.flashConfig.length ≤ w.erased := by
  have hwritten := hfits.written
  rw [h, DlFile.dataOffset, if_pos rfl] at hwritten
  rw [p.length]
  omega

theorem Fits.within (h : w.Fits) (p : FlashBoard) : w.Within p := by
  have herased := h.erased
  have hwritten := h.written
  intro op hop a ha
  change w.part.startAddr p ≤ a ∧ a < w.part.startAddr p + w.part.partSize
  rcases mem_ops hop with rfl | rfl | ⟨hpart, rfl⟩
  · rcases ha with ha | ha
    · have hrange := (erases_iff p h.sectors).mp ha
      omega
    · exact absurd ha id
  · rcases ha with ha | ⟨hlo, hhi⟩
    · exact absurd ha id
    · omega
  · have hconfig := configSize_le p hpart h
    rcases ha with ha | ⟨hlo, hhi⟩
    · exact absurd ha id
    · omega

theorem Fits.erasedFirst (h : w.Fits) (p : FlashBoard) : ErasedFirst sectorSize (w.ops p) := by
  have hwritten := h.written
  have hrange : ∀ op ∈ w.ops p, ∀ a, op.Writes a →
      (.erase (w.part.startAddr p) w.erased : FlashOp Byte).Erases sectorSize a := by
    intro op hop a ha
    rw [erases_iff p h.sectors]
    rcases mem_ops hop with rfl | rfl | ⟨hpart, rfl⟩
    · exact absurd ha id
    · obtain ⟨hlo, hhi⟩ := ha
      omega
    · have hconfig := configSize_le p hpart h
      obtain ⟨hlo, hhi⟩ := ha
      omega
  unfold ops at hrange ⊢
  dsimp only at hrange ⊢
  split_ifs at hrange ⊢ <;>
    exact .erase_cons fun op hop => hrange op (mem_cons_of_mem _ hop)

/-- Where a part is not left, no more of it is erased, and its end not written over. -/
theorem Within.le_partSize (h : w.Within p) (hsectors : sectorSize ∣ w.erased) :
    w.erased ≤ w.part.partSize ∧ w.part.dataOffset + w.data.length ≤ w.part.partSize := by
  constructor
  · by_contra hlt
    have hlast := h _ (w.erase_mem_ops p) (w.part.startAddr p + w.part.partSize)
      (.inl ((erases_iff p hsectors).mpr (by omega)))
    have hend := hlast.2
    change _ < w.part.startAddr p + w.part.partSize at hend
    omega
  · by_contra hlt
    have hoffset := w.part.dataOffset_le
    have hlast := h _ (w.write_mem_ops p) (w.part.startAddr p + w.part.partSize)
      (.inr ⟨by omega, by omega⟩)
    have hend := hlast.2
    change _ < w.part.startAddr p + w.part.partSize at hend
    omega

/-- What a part holds after it was written. -/
theorem run_ops (h : w.Fits) (hpart : w.part ≠ .sysUpgrade) (mem : Nat → Byte) {i : Nat}
    (hi : i < w.erased) :
    FlashOp.run sectorSize blankByte (w.ops p) mem (w.part.startAddr p + i) =
      w.data.getD i blankByte := by
  have herases : (.erase (w.part.startAddr p) w.erased : FlashOp Byte).Erases sectorSize
      (w.part.startAddr p + i) := (erases_iff p h.sectors).mpr ⟨by omega, by omega⟩
  rw [ops, if_neg hpart, run_cons, run_cons, run_nil, act_write, act_erase herases]

/-- Where the bytes of a file are after its part was written. -/
theorem run_ops_data (p : FlashBoard) (w : PartWrite) (mem : Nat → Byte) {i : Nat}
    (hi : i < w.data.length) :
    FlashOp.run sectorSize blankByte (w.ops p) mem
      (w.part.startAddr p + w.part.dataOffset + i) = w.data[i] := by
  have hlast : ∀ mem : Nat → Byte, act sectorSize blankByte mem
      (.write (w.part.startAddr p + w.part.dataOffset) w.data)
      (w.part.startAddr p + w.part.dataOffset + i) = w.data[i] := by
    intro mem
    rw [act_write, getD_eq_getElem _ _ hi]
  unfold ops
  dsimp only
  by_cases hpart : w.part = .sysUpgrade
  · rw [if_pos hpart]
    exact hlast _
  · have hoffset : w.part.dataOffset = 0 := if_neg hpart
    rw [if_neg hpart]
    rw [hoffset, Nat.add_zero] at hlast ⊢
    exact hlast _

end PartWrite

/-! ## Several Parts -/

/-- Writing other parts leaves a part. -/
theorem runParts_of_ne {ws : List PartWrite} (hwithin : ∀ w ∈ ws, w.Within p)
    (hne : ∀ w ∈ ws, f ≠ w.part) (ha : (flashLayout p).Contains f a) (mem : Nat → Byte) :
    runParts p ws mem a = mem a := by
  refine run_of_not_touches (fun op hop => ?_) mem
  obtain ⟨w, hw, hop⟩ := mem_flatMap.mp hop
  exact (hwithin w hw op hop).not_touches ha (hne w hw)

/-- The last write to a part decides what it holds. -/
theorem runParts_last {l r : List PartWrite} (h : w.Fits) (hpart : w.part ≠ .sysUpgrade)
    (hwithin : ∀ v ∈ r, v.Within p) (hne : ∀ v ∈ r, w.part ≠ v.part) (mem : Nat → Byte) {i : Nat}
    (hi : i < w.erased) :
    runParts p (l ++ w :: r) mem (w.part.startAddr p + i) = w.data.getD i blankByte := by
  have herased := h.erased
  have hcontains : (flashLayout p).Contains w.part (w.part.startAddr p + i) :=
    ⟨Nat.le_add_right _ _, Nat.add_lt_add_left (Nat.lt_of_lt_of_le hi herased) _⟩
  rw [← singleton_append, runParts_append, runParts_append,
    runParts_of_ne hwithin hne hcontains]
  change FlashOp.run sectorSize blankByte ([w].flatMap (PartWrite.ops p)) _ _ = _
  rw [flatMap_singleton, PartWrite.run_ops h hpart _ hi]

/-- The bytes of a file that was the last to be written to its part are there. -/
theorem runParts_data {l r : List PartWrite} (h : w.Fits)
    (hwithin : ∀ v ∈ r, v.Within p) (hne : ∀ v ∈ r, w.part ≠ v.part) (mem : Nat → Byte) {i : Nat}
    (hi : i < w.data.length) :
    runParts p (l ++ w :: r) mem (w.part.startAddr p + w.part.dataOffset + i) = w.data[i] := by
  have herased := h.erased
  have hwritten := h.written
  have hcontains : (flashLayout p).Contains w.part
      (w.part.startAddr p + w.part.dataOffset + i) := by
    change w.part.startAddr p ≤ _ ∧ _ < w.part.startAddr p + w.part.partSize
    omega
  rw [← singleton_append, runParts_append, runParts_append,
    runParts_of_ne hwithin hne hcontains]
  change FlashOp.run sectorSize blankByte ([w].flatMap (PartWrite.ops p)) _ _ = _
  rw [flatMap_singleton, PartWrite.run_ops_data p w _ hi]

theorem length_le_erased {l r : List PartWrite} (hsectors : sectorSize ∣ w.erased)
    (hpart : w.part ≠ .sysUpgrade) (hlen : w.data.length ≤ w.part.partSize)
    (hwithin : ∀ v ∈ l, v.Within p) (hne : ∀ v ∈ l, w.part ≠ v.part)
    (hfirst : ErasedFirst sectorSize ((l ++ w :: r).flatMap (PartWrite.ops p))) :
    w.data.length ≤ w.erased := by
  by_contra hlt
  -- the first byte that is written behind what was erased
  have hops : (l ++ w :: r).flatMap (PartWrite.ops p) =
      (l.flatMap (PartWrite.ops p) ++ [.erase (w.part.startAddr p) w.erased]) ++
        .write (w.part.startAddr p) w.data :: r.flatMap (PartWrite.ops p) := by
    simp [PartWrite.ops, hpart]
  obtain ⟨op, hop, herases⟩ := hfirst _ _ _ hops (w.part.startAddr p + w.erased)
    ⟨Nat.le_add_right _ _, by omega⟩
  rcases mem_append.mp hop with hop | hop
  · obtain ⟨v, hv, hop⟩ := mem_flatMap.mp hop
    have hcontains : (flashLayout p).Contains w.part (w.part.startAddr p + w.erased) := by
      change w.part.startAddr p ≤ _ ∧ _ < w.part.startAddr p + w.part.partSize
      omega
    exact (hwithin v hv op hop).not_touches hcontains (hne v hv) (.inl herases)
  · obtain rfl := mem_singleton.mp hop
    have hrange := (PartWrite.erases_iff p hsectors).mp herases
    omega

end Kalyke
