-- SUMMARY: Installing the sections of a CBIN: all of them, none, or, by mistake, some.
import Kalyke.Modbus.PartWrites
import Mathlib.Data.List.TakeWhile

/-!
# Installing a CBIN

A `CBIN` holds eight sections, each with its length before it. The programme command checks a
length, erases the part of the flash memory and writes the section before it looks at the next
length.
-/

namespace Kalyke

open List FlashOp

variable {p : FlashBoard} {file : Buff} {fs : List (DlFile × Bool)} {pos : Nat}

/-! ## The Sections -/

/-- The sections of a `CBIN` that are left, with the parts of the flash memory they are for. -/
def cbinSections (file : Buff) : List (DlFile × Bool) → Nat → List (DlFile × List Byte)
  | [], _ => []
  | (f, encrypted) :: fs, pos =>
    (f, cbinData file encrypted pos) ::
      cbinSections file fs (pos + 4 + (file.nativePU32 pos).toNat)

def FileTrans.sections (t : FileTrans) : List (DlFile × List Byte) :=
  cbinSections t.fileHandler Slave.cbinFiles 26

def sectionsSize (xs : List (DlFile × List Byte)) : Nat := (xs.map fun x => 4 + x.2.length).sum

/-- A section is not longer than its part. -/
abbrev FitsPart (x : DlFile × List Byte) : Prop := x.2.length ≤ x.1.partSize

/-- A section as it is written: the whole part is erased. -/
def sectionWrite (x : DlFile × List Byte) : PartWrite := ⟨x.1, x.1.partSize, x.2⟩

@[simp] theorem length_cbinData (file : Buff) (encrypted : Bool) (pos : Nat) :
    (cbinData file encrypted pos).length = (file.nativePU32 pos).toNat := by
  unfold cbinData
  split_ifs <;> simp [Slave.descryptCbin, Buff.slice]

@[simp] theorem sectionsSize_cons (x : DlFile × List Byte) (xs : List (DlFile × List Byte)) :
    sectionsSize (x :: xs) = 4 + x.2.length + sectionsSize xs := by
  simp [sectionsSize]

theorem map_fst_cbinSections (file : Buff) (fs : List (DlFile × Bool)) (pos : Nat) :
    (cbinSections file fs pos).map Prod.fst = fs.map Prod.fst := by
  induction fs generalizing pos with
  | nil => rfl
  | cons x fs ih => rw [cbinSections, map_cons, map_cons, ih]

/-- The sections are written up to the first that is too long, which is an error. -/
theorem cbinWrites_eq (file : Buff) (fs : List (DlFile × Bool)) (pos : Nat) :
    cbinWrites file fs pos =
      (((cbinSections file fs pos).takeWhile fun x => FitsPart x).map sectionWrite,
        if ∀ x ∈ cbinSections file fs pos, FitsPart x then none else some .iliegalData) := by
  induction fs generalizing pos with
  | nil => rfl
  | cons x fs ih =>
    obtain ⟨f, encrypted⟩ := x
    unfold cbinWrites cbinSections
    dsimp only
    by_cases hlen : f.partSize < (file.nativePU32 pos).toNat
    · have hlong : ¬ FitsPart (f, cbinData file encrypted pos) := by
        simpa using hlen
      rw [if_pos hlen, takeWhile_cons_of_neg (by simpa using hlen), map_nil,
        if_neg fun hall => hlong (hall _ mem_cons_self)]
    · have hfits : FitsPart (f, cbinData file encrypted pos) := by
        simpa using hlen
      rw [if_neg hlen, ih, takeWhile_cons_of_pos (by simpa using hlen), map_cons]
      simp only [forall_mem_cons, hfits, true_and]
      rfl

/-- Where all sections fit, all are written. -/
theorem cbinWrites_of_fit (h : ∀ x ∈ cbinSections file fs pos, FitsPart x) :
    cbinWrites file fs pos = ((cbinSections file fs pos).map sectionWrite, none) := by
  rw [cbinWrites_eq, if_pos h, takeWhile_eq_self_iff.mpr (by simpa using h)]

theorem sectionWrite_fits {x : DlFile × List Byte} (h : FitsPart x) (hpart : x.1 ≠ .sysUpgrade) :
    (sectionWrite x).Fits where
  sectors := x.1.sectorSize_dvd_partSize
  erased := le_refl _
  written := by
    change x.1.dataOffset + x.2.length ≤ x.1.partSize
    rw [DlFile.dataOffset, if_neg hpart, Nat.zero_add]
    exact h

/-- The sections that are written keep to their parts, of which none comes twice. -/
theorem cbinWrites_spec (file : Buff) (pos : Nat) (hpart : ∀ x ∈ fs, x.1 ≠ .sysUpgrade) (hnodup : (fs.map Prod.fst).Nodup) :
    (∀ w ∈ (cbinWrites file fs pos).1, w.Fits ∧ w.part ∈ fs.map Prod.fst ∧
      w.erased = w.part.partSize) ∧
    ((cbinWrites file fs pos).1.map PartWrite.part).Nodup := by
  have hparts : ((cbinWrites file fs pos).1.map PartWrite.part).Sublist (fs.map Prod.fst) := by
    rw [cbinWrites_eq, map_map, ← map_fst_cbinSections file fs pos]
    exact (takeWhile_sublist _).map _
  refine ⟨fun w hw => ?_, hparts.nodup hnodup⟩
  have hmem : w.part ∈ fs.map Prod.fst := hparts.subset (mem_map_of_mem hw)
  rw [cbinWrites_eq] at hw
  obtain ⟨x, hx, rfl⟩ := mem_map.mp hw
  obtain ⟨y, hy, hyx⟩ := mem_map.mp hmem
  have hfits : FitsPart x := by simpa using mem_takeWhile_imp hx
  have hne : x.1 ≠ .sysUpgrade := by
    have hne := hpart y hy
    rwa [hyx] at hne
  exact ⟨sectionWrite_fits hfits hne, hmem, rfl⟩

/-! ## What Is Read -/

/-- The places and lengths of what is read for the sections that are left. -/
def cbinSectionReads (file : Buff) : List (DlFile × Bool) → Nat → List (Nat × Nat)
  | [], _ => []
  | (f, _) :: fs, pos =>
    let len := (file.nativePU32 pos).toNat
    if f.partSize < len then [(pos, 4)]
    else (pos, 4) :: (pos + 4, len) :: cbinSectionReads file fs (pos + 4 + len)

/-- The places and lengths of what is read of a `CBIN`: the version, the number of the product,
which is compared after the first length was read, and the sections. -/
def cbinReads (deviceTypeId : BitVec 32) (t : FileTrans) : List (Nat × Nat) :=
  (8, 4) :: (12, 2) ::
    if deviceTypeId ≠ (t.fileHandler.nativePU16 12).setWidth 32 then [(26, 4)]
    else cbinSectionReads t.fileHandler Slave.cbinFiles 26

theorem le_of_mem_cbinSectionReads {r : Nat × Nat} (h : r ∈ cbinSectionReads file fs pos) :
    r.1 + r.2 ≤ pos + sectionsSize (cbinSections file fs pos) := by
  induction fs generalizing pos with
  | nil => simp [cbinSectionReads] at h
  | cons x fs ih =>
    obtain ⟨f, encrypted⟩ := x
    rw [cbinSections, sectionsSize_cons, length_cbinData]
    unfold cbinSectionReads at h
    dsimp only at h
    split_ifs at h
    · obtain rfl := mem_singleton.mp h
      omega
    · rcases mem_cons.mp h with rfl | h
      · dsimp only
        omega
      rcases mem_cons.mp h with rfl | h
      · dsimp only
        omega
      · have hrest := ih h
        omega

theorem sectionsSize_le_of_reads {n : Nat} (hfit : ∀ x ∈ cbinSections file fs pos, FitsPart x)
    (hpos : pos ≤ n) (hreads : ∀ r ∈ cbinSectionReads file fs pos, ∀ i < r.2, r.1 + i < n) :
    pos + sectionsSize (cbinSections file fs pos) ≤ n := by
  induction fs generalizing pos with
  | nil => exact hpos
  | cons x fs ih =>
    obtain ⟨f, encrypted⟩ := x
    rw [cbinSections, forall_mem_cons] at hfit
    obtain ⟨hfirst, hrest⟩ := hfit
    have hlen : ¬ f.partSize < (file.nativePU32 pos).toNat := by
      simpa using hfirst
    unfold cbinSectionReads at hreads
    dsimp only at hreads
    rw [if_neg hlen] at hreads
    have hlength := hreads (pos, 4) (by simp) 3 (Nat.lt_succ_self 3)
    dsimp only at hlength
    -- the last byte of the section, if it has one
    have hdata : pos + 4 + (file.nativePU32 pos).toNat ≤ n := by
      rcases Nat.eq_zero_or_pos (file.nativePU32 pos).toNat with hzero | hlast
      · omega
      · have hread := hreads (pos + 4, (file.nativePU32 pos).toNat) (by simp)
          ((file.nativePU32 pos).toNat - 1) (Nat.sub_lt hlast Nat.one_pos)
        dsimp only at hread
        omega
    have hend := ih hrest hdata fun r hr => hreads r (by simp [hr])
    rw [cbinSections, sectionsSize_cons, length_cbinData]
    omega

/-! ## All or Nothing -/

/-- Each part holds its section, and nothing behind it. -/
def Installed (p : FlashBoard) (t : FileTrans) (mem : Nat → Byte) : Prop :=
  ∀ x ∈ t.sections, FitsPart x ∧
    ∀ i < x.1.partSize, mem (x.1.startAddr p + i) = x.2.getD i blankByte

/-- A `CBIN` is installed as a whole or leaves every part of the flash memory, whatever that held,
and nothing behind its last byte is read. -/
def InstallsOrLeaves (p : FlashBoard) (deviceTypeId : BitVec 32) (t : FileTrans) : Prop :=
  (∀ mem : Nat → Byte,
    let mem' := runParts p (fileWrites deviceTypeId .plcCbin t).1 mem
    Installed p t mem' ∨
      ∀ f : DlFile, ∀ i < f.partSize, mem' (f.startAddr p + i) = mem (f.startAddr p + i)) ∧
  ∀ r ∈ cbinReads deviceTypeId t, ∀ i < r.2, r.1 + i < t.fileLen.toNat

theorem cbinFiles_fst : (Slave.cbinFiles.map Prod.fst).Nodup := by decide

theorem cbinFiles_ne : ∀ x ∈ Slave.cbinFiles, x.1 ≠ .sysUpgrade := by decide

theorem cbin_fits {t : FileTrans} {w : PartWrite}
    (hw : w ∈ (cbinWrites t.fileHandler Slave.cbinFiles 26).1) : w.Fits :=
  ((cbinWrites_spec _ _ cbinFiles_ne cbinFiles_fst).1 w hw).1

theorem installed_of_fit {t : FileTrans} (hfit : ∀ x ∈ t.sections, FitsPart x)
    (mem : Nat → Byte) :
    Installed p t (runParts p (cbinWrites t.fileHandler Slave.cbinFiles 26).1 mem) := by
  have hspec := cbinWrites_spec t.fileHandler 26 cbinFiles_ne cbinFiles_fst
  rw [cbinWrites_of_fit hfit] at hspec ⊢
  obtain ⟨hwrites, hnodup⟩ := hspec
  intro x hx
  refine ⟨hfit x hx, fun i hi => ?_⟩
  obtain ⟨l, r, hsplit⟩ := append_of_mem hx
  change cbinSections _ _ _ = _ at hsplit
  rw [hsplit, map_append, map_cons] at hwrites hnodup ⊢
  rw [map_append, map_cons] at hnodup
  have hlater : ∀ w ∈ r.map sectionWrite, (sectionWrite x).part ≠ w.part := fun w hw heq =>
    (nodup_cons.mp (nodup_append.mp hnodup).2.1).1 (heq ▸ mem_map_of_mem hw)
  have hx := hwrites (sectionWrite x) (by simp)
  have hpart : (sectionWrite x).part ≠ .sysUpgrade := by
    obtain ⟨y, hy, hyx⟩ := mem_map.mp hx.2.1
    rw [← hyx]
    exact cbinFiles_ne y hy
  exact runParts_last hx.1 hpart
    (fun w hw => (hwrites w (by simp [hw])).1.within p) hlater mem hi

/-- The first section of a `CBIN` is written even where a later one does not fit. -/
theorem cbin_writes_ucode {t : FileTrans}
    (hlen : ¬ DlFile.ucode.partSize < (t.fileHandler.nativePU32 26).toNat) :
    ∃ v : Byte, ∀ mem : Nat → Byte,
      runParts p (cbinWrites t.fileHandler Slave.cbinFiles 26).1 mem
        (DlFile.ucode.startAddr p + 0) = v := by
  have hspec := cbinWrites_spec t.fileHandler 26 cbinFiles_ne cbinFiles_fst
  obtain ⟨ws, hws⟩ : ∃ ws, (cbinWrites t.fileHandler Slave.cbinFiles 26).1 =
      sectionWrite (.ucode, cbinData t.fileHandler true 26) :: ws := by
    unfold Slave.cbinFiles cbinWrites
    rw [if_neg hlen]
    exact ⟨_, rfl⟩
  rw [hws] at hspec ⊢
  obtain ⟨hwrites, hnodup⟩ := hspec
  have hfirst := hwrites _ mem_cons_self
  have hlater : ∀ w ∈ ws, DlFile.ucode ≠ w.part := by
    intro w hw heq
    have hmem : w.part ∈ ws.map PartWrite.part := mem_map_of_mem hw
    rw [← heq] at hmem
    exact (nodup_cons.mp hnodup).1 hmem
  have hpart : DlFile.ucode ≠ .sysUpgrade := by decide
  refine ⟨(cbinData t.fileHandler true 26).getD 0 blankByte, fun mem => ?_⟩
  exact runParts_last (l := []) hfirst.1 hpart
    (fun w hw => (hwrites w (mem_cons_of_mem _ hw)).1.within p) hlater mem
    DlFile.ucode.partSize_pos

/-- A `CBIN` is installed as a whole, or leaves the flash memory, without reading behind its end, if
and only if it has its header and the first length, and it is refused for the number of the product
or the length of its `UCODE`, or every section fits its part and the last ends within the file. -/
theorem cbin_installsOrLeaves_iff (p : FlashBoard) (deviceTypeId : BitVec 32) (t : FileTrans) :
    InstallsOrLeaves p deviceTypeId t ↔
      30 ≤ t.fileLen.toNat ∧
        (deviceTypeId ≠ (t.fileHandler.nativePU16 12).setWidth 32 ∨
          DlFile.ucode.partSize < (t.fileHandler.nativePU32 26).toNat ∨
          (∀ x ∈ t.sections, FitsPart x) ∧ 26 + sectionsSize t.sections ≤ t.fileLen.toNat) := by
  have hsecond : ∀ r, r ∈ cbinSectionReads t.fileHandler Slave.cbinFiles 26 →
      r ∈ (8, 4) :: (12, 2) :: cbinSectionReads t.fileHandler Slave.cbinFiles 26 := by
    intro r hr
    simp [hr]
  unfold InstallsOrLeaves
  constructor
  · rintro ⟨hinstalls, hreads⟩
    have hheader : 30 ≤ t.fileLen.toNat := by
      have hmem : (26, 4) ∈ cbinReads deviceTypeId t := by
        unfold cbinReads
        split_ifs
        · simp
        · unfold Slave.cbinFiles cbinSectionReads
          dsimp only
          split_ifs <;> simp
      have hread := hreads _ hmem 3 (Nat.lt_succ_self 3)
      omega
    refine ⟨hheader, ?_⟩
    by_cases htype : deviceTypeId ≠ (t.fileHandler.nativePU16 12).setWidth 32
    · exact .inl htype
    by_cases hlen : DlFile.ucode.partSize < (t.fileHandler.nativePU32 26).toNat
    · exact .inr (.inl hlen)
    have hfit : ∀ x ∈ t.sections, FitsPart x := by
      -- a memory with another first byte of the `UCODE` shows that something was written
      obtain ⟨v, hv⟩ := cbin_writes_ucode (p := p) hlen
      have hcase := hinstalls fun _ => v + 1
      unfold fileWrites at hcase
      dsimp only at hcase
      rw [if_neg htype] at hcase
      rcases hcase with hinstalled | hleft
      · exact fun x hx => (hinstalled x hx).1
      · have hucode := hleft .ucode 0 DlFile.ucode.partSize_pos
        rw [hv] at hucode
        exact absurd hucode (by bv_omega)
    refine .inr (.inr ⟨hfit, ?_⟩)
    rw [cbinReads, if_neg htype] at hreads
    exact sectionsSize_le_of_reads hfit (by omega) fun r hr => hreads r (hsecond r hr)
  · rintro ⟨hheader, hcase⟩
    have hhead : ∀ r ∈ [(8, 4), (12, 2), (26, 4)], ∀ i < r.2, r.1 + i < t.fileLen.toNat := by
      intro r hr i hi
      have hends : ∀ r ∈ [((8 : Nat), (4 : Nat)), (12, 2), (26, 4)], r.1 + r.2 ≤ 30 := by decide
      have hend := hends r hr
      omega
    by_cases htype : deviceTypeId ≠ (t.fileHandler.nativePU16 12).setWidth 32
    · rw [fileWrites, cbinReads, if_pos htype, if_pos htype]
      exact ⟨fun mem => .inr fun _ _ _ => rfl, hhead⟩
    rw [fileWrites, cbinReads, if_neg htype, if_neg htype]
    rcases hcase with h | hlen | ⟨hfit, hend⟩
    · exact absurd h htype
    · have hwrites : cbinWrites t.fileHandler Slave.cbinFiles 26 = ([], some .iliegalData) := by
        unfold Slave.cbinFiles cbinWrites
        exact if_pos hlen
      have hreads : cbinSectionReads t.fileHandler Slave.cbinFiles 26 = [(26, 4)] := by
        unfold Slave.cbinFiles cbinSectionReads
        exact if_pos hlen
      rw [hwrites, hreads]
      exact ⟨fun mem => .inr fun _ _ _ => rfl, hhead⟩
    · refine ⟨fun mem => .inl (installed_of_fit hfit mem), fun r hr i hi => ?_⟩
      rcases mem_cons.mp hr with rfl | hr
      · exact hhead _ (by simp) i hi
      rcases mem_cons.mp hr with rfl | hr
      · exact hhead _ (by simp) i hi
      · have hle := le_of_mem_cbinSectionReads hr
        change _ ≤ 26 + sectionsSize t.sections at hle
        omega

theorem pouLength_le_of_fit {t : FileTrans} (hfit : ∀ x ∈ t.sections, FitsPart x) :
    (t.fileHandler.nativePU32 (26 + 4 + (t.fileHandler.nativePU32 26).toNat)).toNat ≤
      DlFile.pouInfo.partSize := by
  have hfits := hfit _ (mem_cons_of_mem _ mem_cons_self)
  rwa [FitsPart, length_cbinData] at hfits

/-- A `CBIN` with one byte of `UCODE` and a length of its next section that is too long. -/
def longPouCbin : FileTrans where
  frameCnt := 0xFE
  preFrame := 0xFE
  flag := 0x03
  fileLen := 64
  fileHandler := fun i => if i = 26 then 1 else if i = 33 then 1 else 0
  room := 128 * 1024

/-- The `UCODE` of a `CBIN` is replaced before the next section is found to be too long. -/
theorem longPouCbin_installs_some :
    ¬ ∀ (p : FlashBoard) (deviceTypeId : BitVec 32) (t : FileTrans),
      InstallsOrLeaves p deviceTypeId t := by
  intro h
  have hlen : ¬ DlFile.ucode.partSize < (longPouCbin.fileHandler.nativePU32 26).toNat := by decide
  have htype : ¬ (0 : BitVec 32) ≠ (longPouCbin.fileHandler.nativePU16 12).setWidth 32 := by decide
  have hpou : ¬ (longPouCbin.fileHandler.nativePU32 (26 + 4 +
      (longPouCbin.fileHandler.nativePU32 26).toNat)).toNat ≤ DlFile.pouInfo.partSize := by decide
  have hcase := (h ⟨0, replicate 512 0, length_replicate⟩ 0 longPouCbin).1
  rw [fileWrites, if_neg htype] at hcase
  obtain ⟨v, hv⟩ := cbin_writes_ucode hlen
  rcases hcase fun _ => v + 1 with hinstalled | hleft
  · exact hpou (pouLength_le_of_fit fun x hx => (hinstalled x hx).1)
  · have hucode := hleft .ucode 0 DlFile.ucode.partSize_pos
    rw [hv] at hucode
    exact absurd hucode (by bv_omega)

end Kalyke
