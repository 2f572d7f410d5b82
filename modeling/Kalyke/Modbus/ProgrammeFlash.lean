-- SUMMARY: When the programme command keeps to the parts of the flash memory and stores what it got.
import Kalyke.Modbus.CbinInstall

/-!
# What the Programme Command Leaves

The length in a file's header decides whether the file is refused and how much is erased, with a
sector more than it takes; the number of received bytes decides how much is written. Only where the
two agree with the part does the command stay in it.
-/

namespace Kalyke

open List Option FlashOp

variable {p : FlashBoard} {dt : BitVec 32} {files : DlFile → Option FileTrans} {f g : DlFile}
  {t : FileTrans} {fs l r : List DlFile} {w : PartWrite}

def completeFile (files : DlFile → Option FileTrans) (f : DlFile) : Option FileTrans :=
  (files f).filter FileTrans.complete

/-- The length of a file that is compared with its part: of a firmware what was received, of other
files what the header says. -/
def checkedLen (f : DlFile) (t : FileTrans) : Nat :=
  if f = .sysUpgrade then t.fileLen.toNat else t.fileHandler.fileLength.toNat

/-- A complete file does not end the command. -/
def Accepted (deviceTypeId : BitVec 32) (f : DlFile) (t : FileTrans) : Prop :=
  if f = .plcCbin then
    deviceTypeId = (t.fileHandler.nativePU16 12).setWidth 32 ∧ ∀ x ∈ t.sections, FitsPart x
  else checkedLen f t ≤ f.partSize

def AllAccepted (deviceTypeId : BitVec 32) (files : DlFile → Option FileTrans)
    (fs : List DlFile) : Prop :=
  ∀ f ∈ fs, ∀ t ∈ completeFile files f, Accepted deviceTypeId f t

/-- The command comes to a file: the ones before it are accepted. -/
def Reached (deviceTypeId : BitVec 32) (files : DlFile → Option FileTrans) (f : DlFile) : Prop :=
  ∃ l r, Slave.dlFiles = l ++ f :: r ∧ AllAccepted deviceTypeId files l

/-! ## The Writes of One File -/

/-- How a file that is not a `CBIN` is written. -/
def fileWrite (f : DlFile) (t : FileTrans) : PartWrite :=
  ⟨f, if f = .sysUpgrade then f.partSize else erasedSize t.fileHandler, t.fileBytes⟩

theorem length_fileBytes (t : FileTrans) : t.fileBytes.length = t.fileLen.toNat := by
  simp [FileTrans.fileBytes, Buff.slice]

theorem getD_fileBytes {i : Nat} (hi : i < t.fileLen.toNat) :
    t.fileBytes.getD i blankByte = t.fileHandler i := by
  rw [getD_eq_getElem _ _ (by rwa [length_fileBytes])]
  simp [FileTrans.fileBytes, Buff.slice]

theorem fileWrites_refused (dt : BitVec 32) (hcbin : f ≠ .plcCbin) (hlen : f.partSize < checkedLen f t) :
    ∃ e, fileWrites dt f t = ([], some e) := by
  cases f with
  | plcCbin => exact absurd rfl hcbin
  | _ => exact ⟨_, if_pos hlen⟩

theorem fileWrites_accepted (hcbin : f ≠ .plcCbin) (hlen : ¬ f.partSize < checkedLen f t) :
    fileWrites dt f t = ([fileWrite f t], none) := by
  cases f with
  | plcCbin => exact absurd rfl hcbin
  | _ => exact if_neg hlen

theorem fileWrites_none_iff : (fileWrites dt f t).2 = none ↔ Accepted dt f t := by
  unfold Accepted
  by_cases hcbin : f = .plcCbin
  · subst hcbin
    rw [if_pos rfl]
    unfold fileWrites
    dsimp only
    by_cases htype : dt ≠ (t.fileHandler.nativePU16 12).setWidth 32
    · rw [if_pos htype]
      simp [htype]
    · rw [if_neg htype, cbinWrites_eq]
      have heq : dt = (t.fileHandler.nativePU16 12).setWidth 32 := not_not.mp htype
      dsimp only
      split_ifs with hfit
      · simp only [true_iff]
        exact ⟨heq, hfit⟩
      · simp only [false_iff]
        exact fun h => hfit h.2
  · rw [if_neg hcbin]
    by_cases hlen : f.partSize < checkedLen f t
    · obtain ⟨e, he⟩ := fileWrites_refused dt hcbin hlen
      rw [he]
      simp [hlen]
    · rw [fileWrites_accepted hcbin hlen]
      simpa using hlen

/-- What is written for a file is the file in its own part or a section of a `CBIN`. -/
theorem mem_fileWrites (hw : w ∈ (fileWrites dt f t).1) :
    f ≠ .plcCbin ∧ ¬ f.partSize < checkedLen f t ∧ w = fileWrite f t ∨
      f = .plcCbin ∧ w ∈ (cbinWrites t.fileHandler Slave.cbinFiles 26).1 := by
  by_cases hcbin : f = .plcCbin
  · subst hcbin
    refine .inr ⟨rfl, ?_⟩
    unfold fileWrites at hw
    dsimp only at hw
    split_ifs at hw
    · exact absurd hw not_mem_nil
    · exact hw
  · by_cases hlen : f.partSize < checkedLen f t
    · obtain ⟨e, he⟩ := fileWrites_refused dt hcbin hlen
      rw [he] at hw
      exact absurd hw not_mem_nil
    · rw [fileWrites_accepted hcbin hlen] at hw
      exact .inl ⟨hcbin, hlen, mem_singleton.mp hw⟩

/-! ## Files that Fit -/

/-- A file that is not refused fits its part, header and received bytes alike. -/
def FileFits (f : DlFile) (t : FileTrans) : Prop :=
  f = .plcCbin ∨ f.partSize < checkedLen f t ∨
    if f = .sysUpgrade then 0x1000 + t.fileLen.toNat ≤ f.partSize
    else t.fileHandler.fileLength.toNat < f.partSize ∧
      t.fileLen.toNat ≤ erasedSize t.fileHandler

theorem sectorSize_dvd_erased (f : DlFile) (t : FileTrans) : sectorSize ∣ (fileWrite f t).erased := by
  unfold fileWrite
  split_ifs
  · exact f.sectorSize_dvd_partSize
  · exact Nat.dvd_mul_right _ _

/-- A length below the size of a part is rounded up within the part. -/
theorem erasedSize_le_iff (f : DlFile) (file : Buff) :
    erasedSize file ≤ f.partSize ↔ file.fileLength.toNat < f.partSize := by
  obtain ⟨n, hn⟩ := f.sectorSize_dvd_partSize
  rw [hn, erasedSize]
  generalize file.fileLength.toNat = len
  have hsector : 0 < sectorSize := by decide
  rw [Nat.mul_le_mul_left_iff hsector, Nat.add_one_le_iff, Nat.div_lt_iff_lt_mul hsector,
    Nat.mul_comm]

theorem fileWrite_fits_iff (hcbin : f ≠ .plcCbin) (hlen : ¬ f.partSize < checkedLen f t) :
    (fileWrite f t).Fits ↔ FileFits f t := by
  unfold FileFits
  rw [or_iff_right hcbin, or_iff_right hlen]
  by_cases hfirmware : f = .sysUpgrade
  · subst hfirmware
    rw [if_pos rfl, ← length_fileBytes]
    exact ⟨fun h => h.written, fun h => ⟨sectorSize_dvd_erased _ t, le_refl _, h⟩⟩
  · rw [if_neg hfirmware, ← erasedSize_le_iff, ← length_fileBytes]
    have herased : (fileWrite f t).erased = erasedSize t.fileHandler := if_neg hfirmware
    have hoffset : f.dataOffset = 0 := if_neg hfirmware
    constructor
    · intro h
      have hwritten := h.written
      change f.dataOffset + t.fileBytes.length ≤ _ at hwritten
      rw [hoffset, herased, Nat.zero_add] at hwritten
      exact ⟨herased ▸ h.erased, hwritten⟩
    · rintro ⟨hpart, hwritten⟩
      refine ⟨sectorSize_dvd_erased f t, herased ▸ hpart, ?_⟩
      change f.dataOffset + t.fileBytes.length ≤ _
      rw [hoffset, herased, Nat.zero_add]
      exact hwritten

/-! ## The Loop -/

theorem programmeWrites_cons_none (h : completeFile files f = none) :
    programmeWrites dt files (f :: fs) = programmeWrites dt files fs := by
  unfold completeFile at h
  rw [programmeWrites, h]

theorem programmeWrites_cons_accepted (h : completeFile files f = some t) (ha : Accepted dt f t) :
    programmeWrites dt files (f :: fs) =
      (((fileWrites dt f t).1.map fun w => (f, w)) ++ (programmeWrites dt files fs).1,
        (programmeWrites dt files fs).2) := by
  unfold completeFile at h
  have hnone := fileWrites_none_iff.mpr ha
  rw [programmeWrites, h]
  dsimp only
  generalize fileWrites dt f t = x at hnone ⊢
  obtain ⟨ws, e⟩ := x
  subst hnone
  rfl

theorem programmeWrites_cons_refused (h : completeFile files f = some t) (ha : ¬ Accepted dt f t) :
    (programmeWrites dt files (f :: fs)).1 = (fileWrites dt f t).1.map (fun w => (f, w)) ∧
      (programmeWrites dt files (f :: fs)).2 ≠ none := by
  unfold completeFile at h
  have hsome : (fileWrites dt f t).2 ≠ none := fun hnone => ha (fileWrites_none_iff.mp hnone)
  rw [programmeWrites, h]
  dsimp only
  generalize fileWrites dt f t = x at hsome ⊢
  obtain ⟨ws, _ | e⟩ := x
  · exact absurd rfl hsome
  · exact ⟨rfl, some_ne_none e⟩

/-- The command ends well if and only if every complete file is accepted. -/
theorem programmeWrites_none_iff :
    (programmeWrites dt files fs).2 = none ↔ AllAccepted dt files fs := by
  induction fs with
  | nil => simp [programmeWrites, AllAccepted]
  | cons f fs ih =>
    unfold AllAccepted at ih ⊢
    rw [forall_mem_cons]
    rcases hfile : completeFile files f with _ | t
    · rw [programmeWrites_cons_none hfile, ih]
      simp
    · by_cases ha : Accepted dt f t
      · rw [programmeWrites_cons_accepted hfile ha, ih]
        simp [ha]
      · simp only [(programmeWrites_cons_refused hfile ha).2, false_iff]
        exact fun h => ha (h.1 t rfl)

/-- Files that are accepted are written before the ones that follow. -/
theorem programmeWrites_append (h : AllAccepted dt files l) :
    (programmeWrites dt files (l ++ r)).1 =
      (programmeWrites dt files l).1 ++ (programmeWrites dt files r).1 := by
  induction l with
  | nil => rfl
  | cons f l ih =>
    unfold AllAccepted at ih h
    rw [forall_mem_cons] at h
    rw [cons_append]
    rcases hfile : completeFile files f with _ | t
    · rw [programmeWrites_cons_none hfile, programmeWrites_cons_none hfile, ih h.2]
    · have ha := h.1 t hfile
      rw [programmeWrites_cons_accepted hfile ha, programmeWrites_cons_accepted hfile ha,
        ih h.2, append_assoc]

/-- What is written is written for a complete file that the command comes to. -/
theorem mem_programmeWrites (hw : (f, w) ∈ (programmeWrites dt files fs).1) :
    ∃ l r t, fs = l ++ f :: r ∧ AllAccepted dt files l ∧ completeFile files f = some t ∧
      w ∈ (fileWrites dt f t).1 := by
  induction fs with
  | nil => exact absurd hw not_mem_nil
  | cons g fs ih =>
    have hhere : ∀ t, completeFile files g = some t →
        (f, w) ∈ (fileWrites dt g t).1.map (fun w => (g, w)) →
        ∃ l r t, g :: fs = l ++ f :: r ∧ AllAccepted dt files l ∧ completeFile files f = some t ∧
          w ∈ (fileWrites dt f t).1 := by
      intro t hfile hmem
      obtain ⟨v, hv, heq⟩ := List.mem_map.mp hmem
      obtain ⟨rfl, rfl⟩ := Prod.mk.inj heq
      exact ⟨[], fs, t, rfl, fun _ h => absurd h not_mem_nil, hfile, hv⟩
    have hthere : (∀ t ∈ completeFile files g, Accepted dt g t) →
        (f, w) ∈ (programmeWrites dt files fs).1 →
        ∃ l r t, g :: fs = l ++ f :: r ∧ AllAccepted dt files l ∧ completeFile files f = some t ∧
          w ∈ (fileWrites dt f t).1 := by
      intro ha hmem
      obtain ⟨l, r, t, rfl, hl, hrest⟩ := ih hmem
      exact ⟨g :: l, r, t, rfl, forall_mem_cons.mpr ⟨ha, hl⟩, hrest⟩
    rcases hfile : completeFile files g with _ | t
    · rw [programmeWrites_cons_none hfile] at hw
      exact hthere (by simp [hfile]) hw
    · by_cases ha : Accepted dt g t
      · rw [programmeWrites_cons_accepted hfile ha] at hw
        rcases mem_append.mp hw with hw | hw
        · exact hhere t hfile hw
        · refine hthere (fun t' ht' => ?_) hw
          rw [hfile] at ht'
          exact some.inj ht' ▸ ha
      · rw [(programmeWrites_cons_refused hfile ha).1] at hw
        exact hhere t hfile hw

/-- A file that is reached is written after the ones before it. -/
theorem programmeWrites_reached (hsplit : Slave.dlFiles = l ++ f :: r)
    (hl : AllAccepted dt files l) (hfile : completeFile files f = some t) :
    ∃ ws, (programmeWrites dt files Slave.dlFiles).1 =
      (programmeWrites dt files l).1 ++ ((fileWrites dt f t).1.map fun w => (f, w)) ++ ws := by
  rw [hsplit, programmeWrites_append hl]
  by_cases ha : Accepted dt f t
  · rw [programmeWrites_cons_accepted hfile ha, ← append_assoc]
    exact ⟨_, rfl⟩
  · rw [(programmeWrites_cons_refused hfile ha).1]
    exact ⟨[], (append_nil _).symm⟩

/-! ## The Flash Memory after the Command -/

/-- The parts that the command writes, one after the other. -/
def partWrites (deviceTypeId : BitVec 32) (files : DlFile → Option FileTrans) : List PartWrite :=
  (programmeWrites deviceTypeId files Slave.dlFiles).1.map Prod.snd

/-- A file is too long for its part, by its header or as it was received. -/
def Exceeds (f : DlFile) (t : FileTrans) : Prop :=
  f.partSize < checkedLen f t ∨ f.partSize < t.fileLen.toNat

/-- The programme command touches nothing but the parts of the files, writes only what it erased,
refuses what is too long, and if it ends well each part holds its file or the section of the
`CBIN`. -/
structure ProgrammesSafely (p : FlashBoard) (deviceTypeId : BitVec 32)
    (files : DlFile → Option FileTrans) (mem : Nat → Byte) : Prop where
  within : ∀ w ∈ partWrites deviceTypeId files, w.Within p
  erasedFirst : ErasedFirst sectorSize ((partWrites deviceTypeId files).flatMap (PartWrite.ops p))
  stored : (programmeWrites deviceTypeId files Slave.dlFiles).2 = none →
    ∀ f, f ≠ .plcCbin → ∀ t ∈ completeFile files f, ∀ i < t.fileLen.toNat,
      runParts p (partWrites deviceTypeId files) mem (f.startAddr p + f.dataOffset + i) =
        t.fileHandler i
  storedCbin : (programmeWrites deviceTypeId files Slave.dlFiles).2 = none →
    ∀ t ∈ completeFile files .plcCbin, ∀ x ∈ t.sections, ∀ i < x.2.length,
      runParts p (partWrites deviceTypeId files) mem (x.1.startAddr p + i) = x.2.getD i blankByte
  refused : ∀ f, f ≠ .plcCbin → ∀ t ∈ completeFile files f, Exceeds f t →
    (programmeWrites deviceTypeId files Slave.dlFiles).2 ≠ none ∧
      ∀ w ∈ (programmeWrites deviceTypeId files Slave.dlFiles).1, w.1 ≠ f

/-- Bytes that are written to the same place later, with blank ones behind, are the same. -/
def Overlays (later earlier : List Byte) : Prop :=
  ∀ i < earlier.length, later.getD i blankByte = earlier.getD i blankByte

/-- Every file that the command comes to fits its part, and where a `CBIN` comes with files for the
same parts, of which only the `PID` parameters come after it, they have the same bytes. -/
structure FilesFit (deviceTypeId : BitVec 32) (files : DlFile → Option FileTrans) : Prop where
  fits : ∀ f, Reached deviceTypeId files f → ∀ t ∈ completeFile files f, FileFits f t
  agree : AllAccepted deviceTypeId files Slave.dlFiles →
    ∀ c ∈ completeFile files .plcCbin, ∀ x ∈ c.sections, ∀ t ∈ completeFile files x.1,
      if x.1 = .pid1 ∨ x.1 = .pid2 then Overlays t.fileBytes x.2 else Overlays x.2 t.fileBytes

theorem dlFiles_nodup : Slave.dlFiles.Nodup := by decide

theorem mem_dlFiles (f : DlFile) : f ∈ Slave.dlFiles := by cases f <;> decide

theorem dlFiles_cbin : Slave.dlFiles =
    [.ucode, .sysBlock, .dataBlock, .pouInfo, .gvt, .netcfg, .sysUpgrade] ++
      .plcCbin :: [.pid1, .pid2] := rfl

theorem section_ne {x : DlFile × List Byte} (hx : x ∈ t.sections) :
    x.1 ≠ .sysUpgrade ∧ x.1 ≠ .plcCbin := by
  have hmem : x.1 ∈ t.sections.map Prod.fst := List.mem_map_of_mem hx
  have hall : ∀ f ∈ Slave.cbinFiles.map Prod.fst, f ≠ .sysUpgrade ∧ f ≠ .plcCbin := by decide
  exact hall _ hmem

theorem exists_section (hw : w ∈ (cbinWrites t.fileHandler Slave.cbinFiles 26).1) :
    ∃ x ∈ t.sections, w = sectionWrite x := by
  rw [cbinWrites_eq] at hw
  obtain ⟨x, hx, rfl⟩ := List.mem_map.mp hw
  exact ⟨x, (takeWhile_sublist _).subset hx, rfl⟩

/-- Only the `PID` parameters come after a `CBIN`. -/
theorem eq_pid_of_split (hsplit : Slave.dlFiles = l ++ f :: r) (hcbin : .plcCbin ∈ l) :
    f = .pid1 ∨ f = .pid2 := by
  have hsub : [DlFile.plcCbin, f].Sublist Slave.dlFiles := by
    rw [hsplit]
    exact (singleton_sublist.mpr hcbin).append (singleton_sublist.mpr mem_cons_self)
  have hall : ∀ f ∈ Slave.dlFiles, [DlFile.plcCbin, f].Sublist Slave.dlFiles →
      f = .pid1 ∨ f = .pid2 := by decide
  exact hall f (mem_dlFiles f) hsub

/-- A part that is written again after its file is written for a `CBIN`. -/
theorem later_section (hsplit : Slave.dlFiles = l ++ f :: r) {v : DlFile × PartWrite}
    (hv : v ∈ (programmeWrites dt files r).1) (hpart : f = v.2.part) :
    .plcCbin ∈ r ∧ ∃ c ∈ completeFile files .plcCbin, ∃ x ∈ c.sections, x.1 = f := by
  obtain ⟨g, w⟩ := v
  obtain ⟨l', r', t, hr, -, hfile, hw⟩ := mem_programmeWrites hv
  have hg : g ∈ r := by simp [hr]
  rcases mem_fileWrites hw with ⟨-, -, rfl⟩ | ⟨rfl, hsection⟩
  · have hnodup := dlFiles_nodup
    rw [hsplit] at hnodup
    have hf : f = g := hpart
    exact absurd (hf ▸ hg) (nodup_cons.mp (nodup_append.mp hnodup).2.1).1
  · obtain ⟨x, hx, rfl⟩ := exists_section hsection
    exact ⟨hg, t, hfile, x, hx, hpart.symm⟩

/-- The parts that are written, with a file that is reached. -/
theorem partWrites_split (hsplit : Slave.dlFiles = l ++ f :: r)
    (hall : AllAccepted dt files Slave.dlFiles) (hfile : completeFile files f = some t)
    (hcbin : f ≠ .plcCbin) :
    partWrites dt files = (programmeWrites dt files l).1.map Prod.snd ++
      fileWrite f t :: (programmeWrites dt files r).1.map Prod.snd := by
  rw [hsplit] at hall
  have hl : AllAccepted dt files l := fun g hg => hall g (by simp [hg])
  have ha : Accepted dt f t := hall f (by simp) t hfile
  have hlen : ¬ f.partSize < checkedLen f t := by
    rw [Accepted, if_neg hcbin] at ha
    omega
  rw [partWrites, hsplit, programmeWrites_append hl, programmeWrites_cons_accepted hfile ha,
    fileWrites_accepted hcbin hlen]
  simp

/-- What the part of a section holds in the end, unless it was written again. -/
theorem runParts_section (hfits : ∀ w ∈ partWrites dt files, w.Fits)
    (hall : AllAccepted dt files Slave.dlFiles) (hfile : completeFile files .plcCbin = some t)
    {x : DlFile × List Byte} (hx : x ∈ t.sections)
    (hlater : ∀ v ∈ (programmeWrites dt files [.pid1, .pid2]).1, x.1 ≠ v.2.part)
    (mem : Nat → Byte) {i : Nat} (hi : i < x.1.partSize) :
    runParts p (partWrites dt files) mem (x.1.startAddr p + i) = x.2.getD i blankByte := by
  have ha : Accepted dt .plcCbin t := hall _ (mem_dlFiles _) t hfile
  obtain ⟨htype, hfit⟩ : dt = (t.fileHandler.nativePU16 12).setWidth 32 ∧
      ∀ x ∈ t.sections, FitsPart x := by rwa [Accepted, if_pos rfl] at ha
  have hwrites : (fileWrites dt .plcCbin t).1 = t.sections.map sectionWrite := by
    rw [fileWrites, if_neg (not_not.mpr htype), cbinWrites_of_fit hfit]
    rfl
  obtain ⟨la, lb, hsections⟩ := append_of_mem hx
  have hnodup : (t.sections.map Prod.fst).Nodup := by
    rw [FileTrans.sections, map_fst_cbinSections]
    exact cbinFiles_fst
  rw [hsections, map_append, map_cons] at hnodup
  have hsame : ∀ y ∈ lb, x.1 ≠ y.1 := fun y hy heq =>
    (nodup_cons.mp (nodup_append.mp hnodup).2.1).1 (heq ▸ List.mem_map_of_mem hy)
  obtain ⟨before, hsplit⟩ : ∃ before, partWrites dt files = before ++ sectionWrite x ::
      (lb.map sectionWrite ++ (programmeWrites dt files [.pid1, .pid2]).1.map Prod.snd) := by
    have hl : AllAccepted dt files
        [.ucode, .sysBlock, .dataBlock, .pouInfo, .gvt, .netcfg, .sysUpgrade] :=
      fun g _ => hall g (mem_dlFiles g)
    rw [partWrites, dlFiles_cbin, programmeWrites_append hl, programmeWrites_cons_accepted hfile ha,
      hwrites, hsections]
    refine ⟨(programmeWrites dt files
      [.ucode, .sysBlock, .dataBlock, .pouInfo, .gvt, .netcfg, .sysUpgrade]).1.map Prod.snd ++
        la.map sectionWrite, ?_⟩
    simp [Function.comp_def]
  rw [hsplit] at hfits ⊢
  refine runParts_last (hfits _ (by simp)) (section_ne hx).1
    (fun v hv => (hfits v (mem_append_right _ (mem_cons_of_mem _ hv))).within p)
    (fun v hv => ?_) mem hi
  rcases mem_append.mp hv with hv | hv
  · obtain ⟨y, hy, rfl⟩ := List.mem_map.mp hv
    exact hsame y hy
  · obtain ⟨v', hv', rfl⟩ := List.mem_map.mp hv
    exact hlater v' hv'

/-- What the part of a file holds in the end, unless it was written again. -/
theorem runParts_file (hfits : ∀ w ∈ partWrites dt files, w.Fits)
    (hsplit : Slave.dlFiles = l ++ f :: r) (hall : AllAccepted dt files Slave.dlFiles)
    (hfile : completeFile files f = some t) (hcbin : f ≠ .plcCbin)
    (hlater : ∀ v ∈ (programmeWrites dt files r).1, f ≠ v.2.part) (mem : Nat → Byte) :
    (∀ i < t.fileLen.toNat, runParts p (partWrites dt files) mem
      (f.startAddr p + f.dataOffset + i) = t.fileHandler i) ∧
    (f ≠ .sysUpgrade → ∀ i < (fileWrite f t).erased, runParts p (partWrites dt files) mem
      (f.startAddr p + i) = t.fileBytes.getD i blankByte) := by
  rw [partWrites_split hsplit hall hfile hcbin] at hfits ⊢
  have hwithin : ∀ w ∈ (programmeWrites dt files r).1.map Prod.snd, w.Within p := fun w hw =>
    (hfits w (mem_append_right _ (mem_cons_of_mem _ hw))).within p
  have hother : ∀ w ∈ (programmeWrites dt files r).1.map Prod.snd, f ≠ w.part := by
    intro w hw
    obtain ⟨v, hv, rfl⟩ := List.mem_map.mp hw
    exact hlater v hv
  have hfit := hfits (fileWrite f t) (by simp)
  constructor
  · intro i hi
    have hlength : i < (fileWrite f t).data.length := by
      rwa [fileWrite, length_fileBytes]
    have hbyte : (fileWrite f t).data[i] = t.fileHandler i :=
      (getD_eq_getElem _ blankByte hlength).symm.trans (getD_fileBytes hi)
    rw [← hbyte]
    exact runParts_data hfit hwithin hother mem hlength
  · intro hpart i hi
    exact runParts_last hfit hpart hwithin hother mem hi

/-! ## When It Is Safe -/

theorem FilesFit.fits_writes
    (h : ∀ f, Reached dt files f → ∀ t ∈ completeFile files f, FileFits f t) :
    ∀ w ∈ partWrites dt files, w.Fits := by
  intro w hw
  obtain ⟨v, hv, rfl⟩ := List.mem_map.mp hw
  obtain ⟨l, r, t, hsplit, hl, hfile, hw⟩ := mem_programmeWrites hv
  rcases mem_fileWrites hw with ⟨hcbin, hlen, heq⟩ | ⟨-, hsection⟩
  · rw [heq]
    exact (fileWrite_fits_iff hcbin hlen).mpr (h v.1 ⟨l, r, hsplit, hl⟩ t hfile)
  · exact cbin_fits hsection

theorem PartWrite.Fits.fileLen_le (h : (fileWrite f t).Fits) : t.fileLen.toNat ≤ f.partSize := by
  have hwritten := h.written
  have herased := h.erased
  change _ + t.fileBytes.length ≤ _ at hwritten
  rw [length_fileBytes] at hwritten
  change _ ≤ f.partSize at herased
  omega

theorem fileLen_le_partSize (hfits : ∀ w ∈ partWrites dt files, w.Fits)
    (hall : AllAccepted dt files Slave.dlFiles) (hfile : completeFile files f = some t)
    (hcbin : f ≠ .plcCbin) : t.fileLen.toNat ≤ f.partSize := by
  obtain ⟨l, r, hsplit⟩ := append_of_mem (mem_dlFiles f)
  rw [partWrites_split hsplit hall hfile hcbin] at hfits
  exact (hfits (fileWrite f t) (by simp)).fileLen_le

/-- What comes after the `PID` parameters is not a `CBIN`. -/
theorem cbin_not_mem_of_pid (hsplit : Slave.dlFiles = l ++ f :: r) (hpid : f = .pid1 ∨ f = .pid2) :
    .plcCbin ∉ r := by
  intro hr
  have hsub : [f, DlFile.plcCbin].Sublist Slave.dlFiles := by
    rw [hsplit]
    exact ((singleton_sublist.mpr hr).cons_cons f).trans (sublist_append_right l _)
  have hnone : ∀ f : DlFile, f = .pid1 ∨ f = .pid2 → ¬ [f, .plcCbin].Sublist Slave.dlFiles := by
    rintro f (rfl | rfl) <;> decide
  exact hnone f hpid hsub

theorem pid_of_later {v : DlFile × PartWrite}
    (hv : v ∈ (programmeWrites dt files [.pid1, .pid2]).1) (hpart : f = v.2.part) :
    (f = .pid1 ∨ f = .pid2) ∧ ∃ t, completeFile files f = some t := by
  obtain ⟨g, w⟩ := v
  obtain ⟨l', r', t, hr, -, hfile, hw⟩ := mem_programmeWrites hv
  have hg : g ∈ [DlFile.pid1, .pid2] := by simp [hr]
  have hpid : g = .pid1 ∨ g = .pid2 := by simpa using hg
  rcases mem_fileWrites hw with ⟨-, -, rfl⟩ | ⟨rfl, -⟩
  · have hf : f = g := hpart
    subst hf
    exact ⟨hpid, t, hfile⟩
  · rcases hpid with h | h <;> cases h

/-- A file for which no `CBIN` has a section, or that comes after it, is not written over. -/
theorem FilesFit.stored (h : FilesFit dt files) (hall : AllAccepted dt files Slave.dlFiles)
    (hcbin : f ≠ .plcCbin) (hfile : completeFile files f = some t) (mem : Nat → Byte) {i : Nat}
    (hi : i < t.fileLen.toNat) :
    runParts p (partWrites dt files) mem (f.startAddr p + f.dataOffset + i) = t.fileHandler i := by
  have hfits := fits_writes h.fits
  obtain ⟨l, r, hsplit⟩ := append_of_mem (mem_dlFiles f)
  by_cases hlater : ∃ v ∈ (programmeWrites dt files r).1, f = v.2.part
  · obtain ⟨v, hv, hpart⟩ := hlater
    obtain ⟨hr, c, hc, x, hx, rfl⟩ := later_section hsplit hv hpart
    have hpid : ¬ (x.1 = .pid1 ∨ x.1 = .pid2) := fun hpid => cbin_not_mem_of_pid hsplit hpid hr
    have hagree := h.agree hall c hc x hx t hfile
    rw [if_neg hpid] at hagree
    have hsize := Nat.lt_of_lt_of_le hi (fileLen_le_partSize hfits hall hfile hcbin)
    have hnone : ∀ v ∈ (programmeWrites dt files [.pid1, .pid2]).1, x.1 ≠ v.2.part :=
      fun v hv hpart => hpid (pid_of_later hv hpart).1
    rw [DlFile.dataOffset, if_neg (section_ne hx).1, Nat.add_zero,
      runParts_section hfits hall hc hx hnone mem hsize,
      hagree i (by rwa [length_fileBytes]), getD_fileBytes hi]
  · have hlater : ∀ v ∈ (programmeWrites dt files r).1, f ≠ v.2.part :=
      fun v hv hpart => hlater ⟨v, hv, hpart⟩
    exact (runParts_file hfits hsplit hall hfile hcbin hlater mem).1 i hi

theorem partSize_le_erased (hpid : f = .pid1 ∨ f = .pid2) (t : FileTrans) :
    f.partSize ≤ (fileWrite f t).erased := by
  have hone : ∀ n, sectorSize ≤ sectorSize * (n + 1) := fun n =>
    Nat.le_mul_of_pos_right _ (Nat.succ_pos n)
  rcases hpid with rfl | rfl <;> exact hone _

/-- What a `CBIN` and, in its parts, the `PID` parameters leave. -/
theorem runParts_pid (hfits : ∀ w ∈ partWrites dt files, w.Fits)
    (hall : AllAccepted dt files Slave.dlFiles) (hpid : f = .pid1 ∨ f = .pid2)
    (hfile : completeFile files f = some t) (mem : Nat → Byte) {i : Nat} (hi : i < f.partSize) :
    runParts p (partWrites dt files) mem (f.startAddr p + i) = t.fileBytes.getD i blankByte := by
  obtain ⟨l, r, hsplit⟩ := append_of_mem (mem_dlFiles f)
  have hne : f ≠ .plcCbin ∧ f ≠ .sysUpgrade := by
    rcases hpid with rfl | rfl <;> decide
  have hlater : ∀ v ∈ (programmeWrites dt files r).1, f ≠ v.2.part := fun v hv hpart =>
    cbin_not_mem_of_pid hsplit hpid (later_section hsplit hv hpart).1
  exact (runParts_file hfits hsplit hall hfile hne.1 hlater mem).2 hne.2 i
    (Nat.lt_of_lt_of_le hi (partSize_le_erased hpid t))

/-- The sections of a `CBIN` are not written over with other bytes. -/
theorem FilesFit.storedCbin (h : FilesFit dt files) (hall : AllAccepted dt files Slave.dlFiles)
    (hfile : completeFile files .plcCbin = some t) {x : DlFile × List Byte} (hx : x ∈ t.sections)
    (mem : Nat → Byte) {i : Nat} (hi : i < x.2.length) :
    runParts p (partWrites dt files) mem (x.1.startAddr p + i) = x.2.getD i blankByte := by
  have hfits := fits_writes h.fits
  have hfit : FitsPart x := by
    have ha : Accepted dt .plcCbin t := hall _ (mem_dlFiles _) t hfile
    rw [Accepted, if_pos rfl] at ha
    exact ha.2 x hx
  have hsize : i < x.1.partSize := Nat.lt_of_lt_of_le hi hfit
  by_cases hlater : ∃ v ∈ (programmeWrites dt files [.pid1, .pid2]).1, x.1 = v.2.part
  · obtain ⟨v, hv, hpart⟩ := hlater
    obtain ⟨hpid, t', hfile'⟩ := pid_of_later hv hpart
    have hagree := h.agree hall t hfile x hx t' hfile'
    rw [if_pos hpid] at hagree
    rw [runParts_pid hfits hall hpid hfile' mem hsize, hagree i hi]
  · exact runParts_section hfits hall hfile hx (fun v hv hpart => hlater ⟨v, hv, hpart⟩) mem hsize

theorem FileFits.not_exceeds (h : FileFits f t) (hcbin : f ≠ .plcCbin)
    (hlen : ¬ f.partSize < checkedLen f t) : ¬ Exceeds f t := by
  have hreceived := ((fileWrite_fits_iff hcbin hlen).mpr h).fileLen_le
  rintro (hchecked | hexceeds)
  · exact hlen hchecked
  · omega

/-- A file that is too long is refused or not come to, and not written. -/
theorem FilesFit.refused (h : FilesFit dt files) (hcbin : f ≠ .plcCbin)
    (hfile : completeFile files f = some t) (hexceeds : Exceeds f t) :
    (programmeWrites dt files Slave.dlFiles).2 ≠ none ∧
      ∀ w ∈ (programmeWrites dt files Slave.dlFiles).1, w.1 ≠ f := by
  have hlong : Reached dt files f → f.partSize < checkedLen f t := by
    intro hreached
    by_contra hlen
    exact (h.fits f hreached t hfile).not_exceeds hcbin hlen hexceeds
  constructor
  · intro hnone
    have hall := programmeWrites_none_iff.mp hnone
    obtain ⟨l, r, hsplit⟩ := append_of_mem (mem_dlFiles f)
    have hlen := hlong ⟨l, r, hsplit, fun g _ => hall g (mem_dlFiles g)⟩
    have ha := hall f (mem_dlFiles f) t hfile
    rw [Accepted, if_neg hcbin] at ha
    omega
  · rintro ⟨g, w⟩ hmem rfl
    obtain ⟨l, r, t', hsplit, hl, hfile', hw⟩ := mem_programmeWrites hmem
    rw [hfile] at hfile'
    obtain rfl := some.inj hfile'
    rcases mem_fileWrites hw with ⟨-, hlen, -⟩ | ⟨hc, -⟩
    · exact hlen (hlong ⟨l, r, hsplit, hl⟩)
    · exact hcbin hc

theorem ProgrammesSafely.fits {mem : Nat → Byte} (h : ProgrammesSafely p dt files mem)
    (hreached : Reached dt files f) (hfile : completeFile files f = some t) : FileFits f t := by
  by_cases hcbin : f = .plcCbin
  · exact .inl hcbin
  by_cases hlen : f.partSize < checkedLen f t
  · exact .inr (.inl hlen)
  rw [← fileWrite_fits_iff hcbin hlen]
  obtain ⟨l, r, hsplit, hl⟩ := hreached
  obtain ⟨ws, hws⟩ := programmeWrites_reached hsplit hl hfile
  rw [fileWrites_accepted hcbin hlen] at hws
  have hparts : partWrites dt files = (programmeWrites dt files l).1.map Prod.snd ++
      fileWrite f t :: ws.map Prod.snd := by
    rw [partWrites, hws]
    simp
  have hwithin := h.within
  have hfirst := h.erasedFirst
  rw [hparts] at hwithin hfirst
  obtain ⟨herased, hwritten⟩ :=
    (hwithin (fileWrite f t) (by simp)).le_partSize (sectorSize_dvd_erased f t)
  refine ⟨sectorSize_dvd_erased f t, herased, ?_⟩
  by_cases hfirmware : f = .sysUpgrade
  · have hwhole : (fileWrite f t).erased = f.partSize := if_pos hfirmware
    rw [hwhole]
    exact hwritten
  have hoffset : (fileWrite f t).part.dataOffset = 0 := if_neg hfirmware
  rw [hoffset, Nat.zero_add] at hwritten ⊢
  by_cases hpid : f = .pid1 ∨ f = .pid2
  · exact Nat.le_trans hwritten (partSize_le_erased hpid t)
  -- what was written before is in other parts, as the `CBIN` comes later
  have hother : ∀ v ∈ (programmeWrites dt files l).1.map Prod.snd, f ≠ v.part := by
    intro v hv heq
    obtain ⟨⟨g, w⟩, hmem, rfl⟩ := List.mem_map.mp hv
    obtain ⟨l', r', t', hl', -, -, hw⟩ := mem_programmeWrites hmem
    have hg : g ∈ l := by simp [hl']
    rcases mem_fileWrites hw with ⟨-, -, rfl⟩ | ⟨rfl, -⟩
    · have hf : f = g := heq
      have hnodup := dlFiles_nodup
      rw [hsplit] at hnodup
      exact (nodup_append.mp hnodup).2.2 g hg f mem_cons_self hf.symm
    · exact hpid (eq_pid_of_split hsplit hg)
  exact length_le_erased (sectorSize_dvd_erased f t) hfirmware hwritten
    (fun v hv => hwithin v (mem_append_left _ hv)) hother hfirst

/-- The programme command keeps to the parts of the files and stores them if and only if every file
that it comes to fits its part, header and received bytes alike, and no `CBIN` writes over them. -/
theorem programmesSafely_iff (p : FlashBoard) (deviceTypeId : BitVec 32)
    (files : DlFile → Option FileTrans) :
    (∀ mem, ProgrammesSafely p deviceTypeId files mem) ↔ FilesFit deviceTypeId files := by
  constructor
  · intro hsafe
    have h := hsafe fun _ => 0
    have hfit : ∀ f, Reached deviceTypeId files f → ∀ t ∈ completeFile files f, FileFits f t :=
      fun f hreached t hfile => h.fits hreached hfile
    have hfits := FilesFit.fits_writes hfit
    refine ⟨hfit, fun hall c hc x hx t hfile => ?_⟩
    have hnone := programmeWrites_none_iff.mpr hall
    have hsection : FitsPart x := by
      have ha : Accepted deviceTypeId .plcCbin c := hall _ (mem_dlFiles _) c hc
      rw [Accepted, if_pos rfl] at ha
      exact ha.2 x hx
    obtain ⟨hfirmware, hcbin⟩ := section_ne hx
    split_ifs with hpid
    · intro i hi
      rw [← h.storedCbin hnone c hc x hx i hi,
        runParts_pid hfits hall hpid hfile _ (Nat.lt_of_lt_of_le hi hsection)]
    · intro i hi
      rw [length_fileBytes] at hi
      have hstored := h.stored hnone x.1 hcbin t hfile i hi
      have hlater : ∀ v ∈ (programmeWrites deviceTypeId files [.pid1, .pid2]).1,
          x.1 ≠ v.2.part := fun v hv hpart => hpid (pid_of_later hv hpart).1
      have hsize := Nat.lt_of_lt_of_le hi (fileLen_le_partSize hfits hall hfile hcbin)
      rw [DlFile.dataOffset, if_neg hfirmware, Nat.add_zero,
        runParts_section hfits hall hc hx hlater _ hsize] at hstored
      rw [getD_fileBytes hi]
      exact hstored
  · intro h mem
    have hfits := FilesFit.fits_writes h.fits
    refine ⟨fun w hw => (hfits w hw).within p, .flatMap fun w hw => (hfits w hw).erasedFirst p,
      fun hnone f hcbin t hfile i hi => ?_, fun hnone t hfile x hx i hi => ?_,
      fun f hcbin t hfile => h.refused hcbin hfile⟩
    · exact h.stored (programmeWrites_none_iff.mp hnone) hcbin hfile mem hi
    · exact h.storedCbin (programmeWrites_none_iff.mp hnone) hfile hx mem hi

/-- A file of `PID` parameters that is as long as its part. -/
def fullPid1 : FileTrans where
  frameCnt := 0xFE
  preFrame := 0xFE
  flag := 0x03
  fileLen := 0x1000
  fileHandler := fun i => if i = 7 then 0x10 else 0
  room := 4 * 1024

/-- A file that fills its part has the first sector of the next part erased. -/
theorem fullPid1_erases_pid2 :
    ¬ ∀ (p : FlashBoard) (deviceTypeId : BitVec 32) (files : DlFile → Option FileTrans)
      (mem : Nat → Byte), ProgrammesSafely p deviceTypeId files mem := by
  intro h
  have hsafe := h ⟨0, replicate 512 0, length_replicate⟩ 0
    (fun f => if f = .pid1 then some fullPid1 else none) fun _ => 0
  have hwrites : partWrites 0 (fun f => if f = .pid1 then some fullPid1 else none) =
      [fileWrite .pid1 fullPid1] := rfl
  have hwithin := hsafe.within
  rw [hwrites] at hwithin
  have hle := ((hwithin _ mem_cons_self).le_partSize (sectorSize_dvd_erased _ _)).1
  have herased : (fileWrite .pid1 fullPid1).erased = 0x2000 := by decide
  rw [herased] at hle
  exact absurd hle (by decide)

end Kalyke
