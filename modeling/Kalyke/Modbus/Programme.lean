-- SUMMARY: What the programme command erases and writes in the flash memory, address by address.
import Kalyke.Lib.Flash
import Kalyke.Modbus.Directions

/-!
# Programming the Flash Memory

The programme command erases parts of the flash memory and writes the complete files to them. Here
its loop is followed with the addresses and sizes it uses.
-/

namespace Kalyke

open List

/-! ## The Parts of the Flash Memory -/

def sectorSize : Nat := 0x1000

/-- What decides where a firmware goes and what is put before it. -/
structure FlashBoard where
  /-- `ota_get_image_idx`: the firmware that was started. -/
  imageIdx : BitVec 32
  /-- `qspiflash_config`, which `bsp_write_m_flash_config` writes. -/
  flashConfig : List Byte
  length : flashConfig.length = 512

/-- `ltv_FlashPartInfo`: where the part for a file starts. There are two parts for a firmware; the
one that was not started is used. -/
def DlFile.startAddr (p : FlashBoard) : DlFile → Nat
  | ucode => 0x60220000
  | sysBlock => 0x601A0000
  | dataBlock => 0x60210000
  | pouInfo => 0x60208000
  | gvt => 0x6020C000
  | netcfg => 0x601C0000
  | sysUpgrade => if p.imageIdx = 0 then 0x60080000 else 0x60000000
  | plcCbin => 0x60260000
  | pid1 => 0x602FE000
  | pid2 => 0x602FF000

/-- Where in its part a file starts. A firmware lies behind the configuration of the flash
memory. -/
def DlFile.dataOffset (f : DlFile) : Nat := if f = .sysUpgrade then 0x1000 else 0

theorem DlFile.disjoint (p : FlashBoard) (f g : DlFile) (h : f ≠ g) :
    f.startAddr p + f.partSize ≤ g.startAddr p ∨ g.startAddr p + g.partSize ≤ f.startAddr p := by
  have hfirmware : DlFile.sysUpgrade.startAddr p = 0x60080000 ∨
      DlFile.sysUpgrade.startAddr p = 0x60000000 := by
    unfold startAddr
    split_ifs
    · exact .inl rfl
    · exact .inr rfl
  generalize hx : DlFile.sysUpgrade.startAddr p = x at hfirmware
  cases f <;> cases g <;> first | exact absurd rfl h | skip
  all_goals first | rw [hx] | skip
  all_goals simp only [startAddr, partSize]; omega

def flashLayout (p : FlashBoard) : FlashLayout DlFile where
  start := DlFile.startAddr p
  size := DlFile.partSize
  disjoint := DlFile.disjoint p

/-! ## The Loop -/

/-- A part of the flash memory that is erased and written. -/
structure PartWrite where
  part : DlFile
  /-- The size that is erased. -/
  erased : Nat
  data : List Byte
deriving DecidableEq, Repr

namespace PartWrite

/-- The operations on the flash memory. The number of the firmware to start, which is kept
elsewhere, is not among them. -/
def ops (p : FlashBoard) (w : PartWrite) : List (FlashOp Byte) :=
  let start := w.part.startAddr p
  if w.part = .sysUpgrade then
    [.erase start w.erased, .write start p.flashConfig, .write (start + w.part.dataOffset) w.data]
  else [.erase start w.erased, .write start w.data]

/-- What the slave has the firmware do. -/
def acts (w : PartWrite) : List Act :=
  if w.part = .sysUpgrade then [.writeImage w.data]
  else [.eraseFile w.part, .writeFile w.part w.data]

end PartWrite

/-- A section of a `CBIN`, which begins with its length, as it is written. -/
def cbinData (file : Buff) (encrypted : Bool) (pos : Nat) : List Byte :=
  let data := file.slice (pos + 4) (file.nativePU32 pos).toNat
  if encrypted then Slave.descryptCbin data else data

/-- The sections of a `CBIN` that are left. One that is too long ends it. -/
def cbinWrites (file : Buff) : List (DlFile × Bool) → Nat → List PartWrite × Option MbError
  | [], _ => ([], none)
  | (f, encrypted) :: fs, pos =>
    let len := (file.nativePU32 pos).toNat
    if f.partSize < len then ([], some .iliegalData)
    else
      let (ws, e) := cbinWrites file fs (pos + 4 + len)
      (⟨f, f.partSize, cbinData file encrypted pos⟩ :: ws, e)

def erasedSize (file : Buff) : Nat := sectorSize * (file.fileLength.toNat / sectorSize + 1)

def FileTrans.fileBytes (t : FileTrans) : List Byte := t.fileHandler.slice 0 t.fileLen.toNat

/-- What `mb_slave_ctrl_programme_cmd` writes of one complete file, on a device of a type. -/
def fileWrites (deviceTypeId : BitVec 32) (f : DlFile) (t : FileTrans) :
    List PartWrite × Option MbError :=
  match f with
  | .sysUpgrade =>
    if f.partSize < t.fileLen.toNat then ([], some .errorFrame)
    else ([⟨f, f.partSize, t.fileBytes⟩], none)
  | .plcCbin =>
    if deviceTypeId ≠ (t.fileHandler.nativePU16 12).setWidth 32 then ([], some .iliegalData)
    else cbinWrites t.fileHandler Slave.cbinFiles 26
  | f =>
    if f.partSize < t.fileHandler.fileLength.toNat then ([], some .iliegalData)
    else ([⟨f, erasedSize t.fileHandler, t.fileBytes⟩], none)

/-- The loop over the files that are left, with the file that each part is written for. -/
def programmeWrites (deviceTypeId : BitVec 32) (files : DlFile → Option FileTrans) :
    List DlFile → List (DlFile × PartWrite) × Option MbError
  | [] => ([], none)
  | f :: fs =>
    match (files f).filter FileTrans.complete with
    | none => programmeWrites deviceTypeId files fs
    | some t =>
      match fileWrites deviceTypeId f t with
      | (ws, some e) => (ws.map fun w => (f, w), some e)
      | (ws, none) =>
        let (ws', e) := programmeWrites deviceTypeId files fs
        ((ws.map fun w => (f, w)) ++ ws', e)

/-! ## The Slave -/

namespace Slave

variable {ω : Type} {b : Board ω}

theorem acts_append (s : Slave ω) (l r : List Act) :
    s.acts b (l ++ r) = (s.acts b l).acts b r :=
  foldl_append

theorem acts_files (s : Slave ω) (as : List Act) : (s.acts b as).files = s.files := by
  induction as generalizing s with
  | nil => rfl
  | cons a as ih => exact ih (s.act b a)

theorem acts_setFile (s : Slave ω) (as : List Act) (f : DlFile) (t : Option FileTrans) :
    (s.setFile f t).acts b as = (s.acts b as).setFile f t := by
  induction as generalizing s with
  | nil => rfl
  | cons a as ih => exact ih (s.act b a)

theorem acts_devInfo (hdev : ∀ a x, b.devInfo (b.act a x).2 = b.devInfo x.2) (s : Slave ω)
    (as : List Act) : b.devInfo (s.acts b as).world = b.devInfo s.world := by
  induction as generalizing s with
  | nil => rfl
  | cons a as ih => exact (ih (s.act b a)).trans (hdev a (s.store, s.world))

theorem writeCbin_eq (file : Buff) (fs : List (DlFile × Bool)) (pos : Nat) (s : Slave ω)
    (hfs : ∀ x ∈ fs, x.1 ≠ .sysUpgrade) :
    writeCbin b file fs pos s =
      (s.acts b ((cbinWrites file fs pos).1.flatMap PartWrite.acts),
        (cbinWrites file fs pos).2) := by
  induction fs generalizing pos s with
  | nil => rfl
  | cons x fs ih =>
    obtain ⟨f, encrypted⟩ := x
    unfold writeCbin cbinWrites
    by_cases hlen : f.partSize < (file.nativePU32 pos).toNat
    · rw [if_pos hlen, if_pos hlen]
      rfl
    · rw [if_neg hlen, if_neg hlen, ih _ _ fun x hx => hfs x (mem_cons_of_mem _ hx),
        flatMap_cons, acts_append, PartWrite.acts,
        if_neg (hfs _ mem_cons_self)]
      rfl

/-- What is done with one complete file. -/
theorem programmeFile_eq (s : Slave ω) (f : DlFile) (t : FileTrans) :
    s.programmeFile b f t =
      (s.acts b ((fileWrites (b.devInfo s.world).deviceTypeId f t).1.flatMap PartWrite.acts),
        (fileWrites (b.devInfo s.world).deviceTypeId f t).2) := by
  unfold programmeFile fileWrites
  have hcbin : ∀ x ∈ cbinFiles, x.1 ≠ .sysUpgrade := by decide
  cases f <;> dsimp only <;> split_ifs <;> first | rfl | exact writeCbin_eq _ _ _ _ hcbin

/-- The loop has the firmware write the parts, as long as this leaves the type of the device. -/
theorem programmeFiles_eq (hdev : ∀ a x, b.devInfo (b.act a x).2 = b.devInfo x.2) {fs : List DlFile}
    (hnodup : fs.Nodup) (files : DlFile → Option FileTrans) (s : Slave ω)
    (hfiles : ∀ f ∈ fs, s.files f = files f) :
    ∃ left, programmeFiles b fs s =
      ({ s.acts b ((programmeWrites (b.devInfo s.world).deviceTypeId files fs).1.flatMap
          fun w => w.2.acts) with files := left },
        (programmeWrites (b.devInfo s.world).deviceTypeId files fs).2) := by
  induction fs generalizing s with
  | nil => exact ⟨s.files, rfl⟩
  | cons f fs ih =>
    obtain ⟨hf, hnodup⟩ := nodup_cons.mp hnodup
    have hlater : ∀ g ∈ fs, s.files g = files g := fun g hg =>
      hfiles g (mem_cons_of_mem f hg)
    unfold programmeFiles programmeWrites
    rw [hfiles f mem_cons_self]
    cases (files f).filter FileTrans.complete with
    | none => exact ih hnodup s hlater
    | some t =>
      dsimp only
      rw [programmeFile_eq]
      generalize fileWrites (b.devInfo s.world).deviceTypeId f t = r
      obtain ⟨ws, e⟩ := r
      have hacts : (ws.map fun w => (f, w)).flatMap (fun w => w.2.acts) =
          ws.flatMap PartWrite.acts := by
        rw [flatMap_map]
      cases e with
      | some e =>
        refine ⟨((s.acts b (ws.flatMap PartWrite.acts)).setFile f none).files, ?_⟩
        rw [hacts]
        rfl
      | none =>
        dsimp only
        obtain ⟨left, hrest⟩ := ih hnodup ((s.acts b (ws.flatMap PartWrite.acts)).setFile f none)
          fun g hg => by
            have hne : g ≠ f := fun h => hf (h ▸ hg)
            have hkept : ((s.acts b (ws.flatMap PartWrite.acts)).setFile f none).files g =
                (s.acts b (ws.flatMap PartWrite.acts)).files g := Function.update_of_ne hne _ _
            rw [hkept, acts_files]
            exact hlater g hg
        have hworld : b.devInfo ((s.acts b (ws.flatMap PartWrite.acts)).setFile f none).world =
            b.devInfo s.world := acts_devInfo hdev s _
        rw [hworld] at hrest
        refine ⟨left, ?_⟩
        rw [hrest, flatMap_append, hacts, acts_append, acts_setFile]
        rfl

end Slave

end Kalyke
