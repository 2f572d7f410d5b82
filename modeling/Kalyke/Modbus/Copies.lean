-- SUMMARY: Where the data of download frames is copied to, and when it stays in the buffer.
import Kalyke.Lib.Runs
import Kalyke.Modbus.Transfer

/-!
# Copies

The data of a frame is copied behind what a transfer has of its file. Nothing compares the end with
the size of the buffer, and the number of bytes is a difference of 16 bits. So the copies stay in
the buffer only where the host keeps to its size: what it has sent is counted here by the numbers
and the lengths of its frames alone.
-/

namespace Kalyke

open BitVec Function Option

/-- A frame that is stored, by the number of the last one that was. -/
def TakesNumber : Option Byte → Byte → Prop
  | none, n => n = 0x01 ∨ n = 0xFE
  | some p, n => n ≠ p ∧ (n = 0xFE ∨ n.toNat = p.toNat + 1 ∨ n = 0x01 ∧ p = 0xFD)

instance (p : Option Byte) (n : Byte) : Decidable (TakesNumber p n) := by
  cases p <;> unfold TakesNumber <;> infer_instance

/-- The number of the last frame a transfer has stored. -/
def FileTrans.last? (t : FileTrans) : Option Byte := if t.started then some t.preFrame else none

/-- A copy of the data of a frame: where in the buffer it starts, its number of bytes, the size of
the buffer, and the number of bytes of data that were received. -/
structure Copy where
  start : Nat
  cnt : Nat
  room : Nat
  payload : Nat
deriving DecidableEq, Repr

/-- A copy that stays in the buffer and takes the data that was received. -/
def Copy.InBuffer (c : Copy) : Prop := c.start + c.cnt ≤ c.room ∧ c.cnt = c.payload

instance (c : Copy) : Decidable c.InBuffer := by unfold Copy.InBuffer; infer_instance

/-- The bytes of data in a frame. -/
def FileFrame.payload (x : FileFrame) : Nat := x.pack.len - 6

variable {ω : Type}

/-- The copy that `mb_slave_download_file` makes for a frame. -/
def Slave.copy? (b : Board ω) (f : DlFile) (s : Slave ω) (x : FileFrame) : Option Copy :=
  let t := ((s.hand x).openFile b f).1
  if TakesNumber t.last? x.num then
    some ⟨t.fileLen.toNat, (x.pack.receiveLen - 6).toNat, t.room, x.payload⟩
  else none

/-! ## Runs of Downloads -/

/-- What happens to the transfers: a frame of a file comes, a transfer is ended by the programme
command, or something else happens to the slave. -/
inductive DownloadEvent (ω : Type) where
  | frame (f : DlFile) (x : FileFrame)
  | ended (f : DlFile)
  | other (t : Slave ω)

namespace DownloadEvent

def step (b : Board ω) (s : Slave ω) : DownloadEvent ω → Slave ω
  | frame f x => (s.download b f x).2
  | ended f => s.setFile f none
  | other t => t

/-- A frame has five bytes at least, and other events leave the transfers alone. -/
def Legal (s : Slave ω) : DownloadEvent ω → Prop
  | frame _ x => 5 ≤ x.pack.len
  | ended _ => True
  | other t => t.files = s.files

/-- What is copied for an event stays in its buffer. -/
def CopiesInBuffer (b : Board ω) (s : Slave ω) : DownloadEvent ω → Prop
  | frame f x => ∀ c, s.copy? b f x = some c → c.InBuffer
  | _ => True

end DownloadEvent

/-! ## What the Host Has Sent -/

/-- What the frames of a transfer have come to: the number of the last that counts, whether the last
of the file was among them, their bytes of data, and the size of the buffer. -/
structure Ledger where
  last : Option Byte
  whole : Bool
  total : Nat
  room : Nat
deriving DecidableEq, Repr

namespace Ledger

/-- A frame keeps to the buffer: it has its header and checksum, and its data fits. -/
def Admits (l : Ledger) (x : FileFrame) : Prop :=
  TakesNumber l.last x.num → 6 ≤ x.pack.len ∧ l.total + x.payload ≤ l.room

instance (l : Ledger) (x : FileFrame) : Decidable (l.Admits x) := by
  unfold Admits; infer_instance

def count (l : Ledger) (x : FileFrame) : Ledger :=
  if TakesNumber l.last x.num then
    ⟨some x.num, l.whole || x.num = 0xFE, l.total + x.payload, l.room⟩
  else l

end Ledger

/-- What has been sent of every file. -/
abbrev Ledgers := DlFile → Option Ledger

namespace Ledgers

/-- The transfer that a frame belongs to: the one under way, or a new one. -/
def opened (l : Ledgers) (f : DlFile) (room : Nat) : Ledger :=
  ((l f).filter fun g => !(f.restarts && g.whole)).getD ⟨none, false, 0, room⟩

def step (b : Board ω) (s : Slave ω) (l : Ledgers) : DownloadEvent ω → Ledgers
  | .frame f x => update l f (some ((l.opened f ((s.hand x).allocated b f)).count x))
  | .ended f => update l f none
  | .other _ => l

/-- An event keeps to the buffers. -/
def Admits (b : Board ω) (s : Slave ω) (l : Ledgers) : DownloadEvent ω → Prop
  | .frame f x => (l.opened f ((s.hand x).allocated b f)).Admits x
  | _ => True

instance (b : Board ω) (s : Slave ω) (l : Ledgers) (e : DownloadEvent ω) :
    Decidable (l.Admits b s e) := by
  cases e <;> unfold Admits <;> infer_instance

end Ledgers

/-- A slave, and what it was sent. -/
abbrev Counted (ω : Type) := Slave ω × Ledgers

namespace Counted

def step (b : Board ω) (c : Counted ω) (e : DownloadEvent ω) : Counted ω :=
  (e.step b c.1, c.2.step b c.1 e)

/-- Nothing was sent. -/
def start (s : Slave ω) : Counted ω := (s, fun _ => none)

end Counted

/-! ## One Frame -/

namespace FileTrans

variable {t u : FileTrans} {num : Byte}

/-- A transfer that a frame is appended to, as the code has prepared it. -/
structure Prepared (t u : FileTrans) : Prop where
  fileLen : u.fileLen = t.fileLen
  room : u.room = t.room
  fileHandler : u.fileHandler = t.fileHandler
  started : u.started
  complete : u.complete = t.complete

theorem prepared_first (t : FileTrans) :
    t.Prepared { t with frameCnt := 1, flag := t.flag ||| 0x01 } where
  fileLen := rfl
  room := rfl
  fileHandler := rfl
  started := by
    have hflag : ∀ x : Byte, (x ||| 0x01) &&& 0x01 ≠ 0 := by decide
    exact decide_eq_true (hflag t.flag)
  complete := by
    have hflag : ∀ x : Byte, (x ||| 0x01) &&& 0x02 = x &&& 0x02 := by decide
    simp only [FileTrans.complete, hflag]

theorem prepared_next (h : t.started) : t.Prepared { t with frameCnt := t.frameCnt + 1 } where
  fileLen := rfl
  room := rfl
  fileHandler := rfl
  started := h
  complete := rfl

theorem prepared_turn (h : t.started) :
    t.Prepared { t with frameCnt := t.frameCnt + 1 }.countTurn where
  fileLen := rfl
  room := rfl
  fileHandler := rfl
  started := (countTurn_started _).trans h
  complete := countTurn_complete _

theorem receive_of_takes (data : List Byte) (h : TakesNumber t.last? num) :
    ∃ u, t.receive num data = .done (u.append num data) ∧ t.Prepared u := by
  by_cases hstarted : t.started
  · rw [last?, if_pos hstarted] at h
    obtain ⟨hpre, hnext⟩ := h
    rw [receive, if_pos hstarted, if_neg hpre]
    by_cases hnum : num = 0xFE ∨ num.toNat = t.preFrame.toNat + 1
    · rw [if_pos hnum]
      exact ⟨_, rfl, prepared_next hstarted⟩
    · have hturn : num = 0x01 ∧ t.preFrame = 0xFD := by
        rcases hnext with h | h | h
        · exact absurd (.inl h) hnum
        · exact absurd (.inr h) hnum
        · exact h
      rw [if_neg hnum, if_pos hturn]
      exact ⟨_, rfl, prepared_turn hstarted⟩
  · rw [last?, if_neg hstarted] at h
    have hfirst : num = 0x01 ∨ num = 0xFE := h
    rw [receive, if_neg hstarted, if_pos hfirst]
    exact ⟨_, rfl, prepared_first t⟩

/-- A frame that is not taken leaves the transfer as it is. -/
theorem receive_of_not_takes (data : List Byte) (h : ¬ TakesNumber t.last? num) :
    t.receive num data = .refused ∨ t.receive num data = .again ∨ t.receive num data = .done t := by
  by_cases hstarted : t.started
  · rw [last?, if_pos hstarted] at h
    rw [receive, if_pos hstarted]
    by_cases hpre : num = t.preFrame
    · rw [if_pos hpre]
      exact .inr (.inl rfl)
    · have hnext : ¬ (num = 0xFE ∨ num.toNat = t.preFrame.toNat + 1) :=
        fun hnum => h ⟨hpre, hnum.imp id .inl⟩
      have hturn : ¬ (num = 0x01 ∧ t.preFrame = 0xFD) :=
        fun hnum => h ⟨hpre, .inr (.inr hnum)⟩
      rw [if_neg hpre, if_neg hnext, if_neg hturn]
      exact .inl rfl
  · rw [last?, if_neg hstarted] at h
    have hfirst : ¬ (num = 0x01 ∨ num = 0xFE) := h
    rw [receive, if_neg hstarted, if_neg hfirst]
    exact .inr (.inr rfl)

/-- What appending to a prepared transfer leaves. -/
theorem Prepared.append (h : t.Prepared u) (num : Byte) (data : List Byte) :
    (u.append num data).last? = some num ∧
      (u.append num data).complete = (t.complete || num = 0xFE) ∧
      (u.append num data).fileLen = t.fileLen + BitVec.ofNat 32 data.length ∧
      (u.append num data).room = t.room ∧
      (u.append num data).fileHandler = t.fileHandler.putList t.fileLen.toNat data := by
  have hstarted : (u.append num data).started := by
    have hu := h.started
    simp only [FileTrans.started, FileTrans.append] at hu ⊢
    split_ifs
    · simpa using (flag_last u.flag).1.mpr (by simpa using hu)
    · exact hu
  refine ⟨if_pos hstarted, ?_, ?_, h.room, ?_⟩
  · rw [← h.complete]
    simp only [FileTrans.complete, FileTrans.append]
    split_ifs with hnum
    · simpa [hnum] using (flag_last u.flag).2
    · rw [decide_eq_false hnum, Bool.or_false]
  · rw [← h.fileLen]
    rfl
  · rw [← h.fileLen, ← h.fileHandler]
    rfl

end FileTrans

namespace FileTrans

/-- The transfer after a frame. -/
def after (t : FileTrans) (x : FileFrame) : FileTrans :=
  match t.receive x.num x.data with
  | .done t' => t'
  | _ => t

theorem after_of_takes {t : FileTrans} {x : FileFrame} (h : TakesNumber t.last? x.num) :
    ∃ u, t.after x = u.append x.num x.data ∧ t.Prepared u := by
  obtain ⟨u, hu, hprepared⟩ := receive_of_takes x.data h
  exact ⟨u, by rw [after, hu], hprepared⟩

theorem after_of_not_takes {t : FileTrans} {x : FileFrame} (h : ¬ TakesNumber t.last? x.num) :
    t.after x = t := by
  rcases receive_of_not_takes x.data h with hr | hr | hr <;> rw [after, hr]

end FileTrans

namespace Slave

variable {b : Board ω} {f : DlFile} {s : Slave ω} {x : FileFrame} {t : FileTrans}

/-- What a frame leaves of the transfers. -/
theorem download_files (b : Board ω) (f : DlFile) (s : Slave ω) (x : FileFrame) :
    (s.download b f x).2.files =
      update s.files f (some (((s.hand x).openFile b f).1.after x)) := by
  have hopen : ((s.hand x).openFile b f).2.files =
      update s.files f (some ((s.hand x).openFile b f).1) := by
    cases hunder : (s.hand x).underWay f with
    | some t =>
      obtain ⟨hfile, -⟩ := filter_eq_some_iff.mp hunder
      rw [openFile_of_some hunder]
      have hfile : s.files f = some t := hfile
      rw [← hfile, update_eq_self]
      rfl
    | none =>
      unfold openFile
      have hnone : (((s.hand x).files f).filter fun t => !(f.restarts && t.complete)) = none :=
        hunder
      rw [hnone]
      split_ifs <;> rfl
  have hbuff : ((s.hand x).openFile b f).2.receiveBuff = x.buff := by
    cases hunder : (s.hand x).underWay f with
    | some t =>
      rw [openFile_of_some hunder]
      rfl
    | none => exact (openFile_of_none hunder).2
  have hnum : ((s.hand x).openFile b f).2.frameNum = x.num := by
    rw [frameNum, hbuff]
    rfl
  have hdata : ((s.hand x).openFile b f).2.frameData x.pack = x.data := by
    rw [frameData, hbuff]
    rfl
  simp only [download, mbSlaveDownloadFile, hnum, hdata, FileTrans.after]
  cases ((s.hand x).openFile b f).1.receive x.num x.data with
  | refused => exact hopen
  | again => exact hopen
  | done t => simp only [onlineProgram_files, setFile, hopen, update_idem]

end Slave

/-! ## Counting -/

/-- A transfer is as it was counted. -/
structure FileTrans.Matches (t : FileTrans) (g : Ledger) : Prop where
  last : t.last? = g.last
  whole : t.complete = g.whole
  total : t.fileLen.toNat = g.total
  room : t.room = g.room
  bounded : t.room < 2 ^ 32

/-- A transfer, or none, is as it was counted. -/
inductive SameTransfer : Option FileTrans → Option Ledger → Prop
  | none : SameTransfer none none
  | some {t : FileTrans} {g : Ledger} (h : t.Matches g) : SameTransfer (some t) (some g)

def Counted.Agrees (c : Counted ω) : Prop := ∀ f, SameTransfer (c.1.files f) (c.2 f)

section Count

variable {b : Board ω} {c : Counted ω} {f : DlFile} {x : FileFrame}

theorem Counted.agrees_start {s : Slave ω} (h : ∀ f, s.files f = none) :
    (Counted.start s).Agrees := by
  intro f
  rw [show (Counted.start s).1.files f = none from h f]
  exact .none

theorem partSize_lt (f : DlFile) : f.partSize < 2 ^ 32 := by
  cases f <;> dsimp only [DlFile.partSize] <;> omega

/-- The sizes of the buffers are numbers of 32 bits. -/
theorem allocated_lt (hheap : ∀ w, b.freeHeapSize w < 2 ^ 32) (s : Slave ω) (f : DlFile) :
    s.allocated b f < 2 ^ 32 := by
  cases f with
  | plcCbin => exact (s.receiveBuff.nativePU32 8).isLt
  | sysUpgrade => exact Nat.lt_of_le_of_lt (Nat.sub_le _ _) (hheap s.world)
  | _ =>
    unfold Slave.allocated
    exact partSize_lt _

/-- The transfer a frame belongs to is as it was counted. -/
theorem openFile_matches (hheap : ∀ w, b.freeHeapSize w < 2 ^ 32) (h : c.Agrees) (f : DlFile)
    (x : FileFrame) :
    ((c.1.hand x).openFile b f).1.Matches (c.2.opened f ((c.1.hand x).allocated b f)) := by
  have hnew : (FileTrans.init (b.malloc (c.1.hand x).world) ((c.1.hand x).allocated b f)).Matches
      ⟨none, false, 0, (c.1.hand x).allocated b f⟩ :=
    ⟨by simp [FileTrans.last?, FileTrans.started, FileTrans.init],
      by simp [FileTrans.complete, FileTrans.init], rfl, rfl, allocated_lt hheap _ f⟩
  have hf := h f
  unfold Ledgers.opened
  cases hunder : (c.1.hand x).underWay f with
  | some t =>
    obtain ⟨hfile, hkeep⟩ := filter_eq_some_iff.mp hunder
    rw [show c.1.files f = some t from hfile] at hf
    cases hl : c.2 f with
    | none =>
      rw [hl] at hf
      cases hf
    | some g =>
      rw [hl] at hf
      cases hf with
      | some hmatch =>
        rw [hmatch.whole] at hkeep
        rw [Slave.openFile_of_some hunder, filter_some, if_pos hkeep]
        exact hmatch
  | none =>
    rw [(Slave.openFile_of_none hunder).1]
    cases hl : c.2 f with
    | none => exact hnew
    | some g =>
      rw [hl] at hf
      generalize hfile : c.1.files f = o at hf
      cases hf with
      | some hmatch =>
        obtain ⟨hrestarts, hcomplete⟩ := Slave.underWay_eq_none_iff.mp hunder _ hfile
        rw [hmatch.whole] at hcomplete
        simpa [filter_some, hrestarts, hcomplete] using hnew

/-- A frame has its data exactly if it has its header and checksum. -/
theorem cnt_eq_payload_iff (hlen : 5 ≤ x.pack.len) :
    (x.pack.receiveLen - 6).toNat = x.payload ↔ 6 ≤ x.pack.len := by
  unfold FileFrame.payload
  unfold MsgPack.len at hlen ⊢
  rw [toNat_sub]
  simp only [reduceToNat]
  omega

theorem copiesInBuffer_iff (hheap : ∀ w, b.freeHeapSize w < 2 ^ 32) (h : c.Agrees)
    {e : DownloadEvent ω} (hlegal : e.Legal c.1) :
    e.CopiesInBuffer b c.1 ↔ c.2.Admits b c.1 e := by
  cases e with
  | ended f => exact Iff.rfl
  | other t => exact Iff.rfl
  | frame f x =>
    have hmatch := openFile_matches hheap h f x
    have hpayload := cnt_eq_payload_iff hlegal
    unfold DownloadEvent.CopiesInBuffer Ledgers.Admits Ledger.Admits Slave.copy?
    dsimp only
    rw [← hmatch.last, ← hmatch.total, ← hmatch.room]
    by_cases htakes : TakesNumber ((c.1.hand x).openFile b f).1.last? x.num
    · rw [if_pos htakes]
      simp only [some_inj, forall_eq', Copy.InBuffer, htakes, true_implies]
      rw [hpayload]
      constructor
      · rintro ⟨hfits, hlen⟩
        rw [hpayload.mpr hlen] at hfits
        exact ⟨hlen, hfits⟩
      · rintro ⟨hlen, hfits⟩
        rw [hpayload.mpr hlen]
        exact ⟨hfits, hlen⟩
    · simp [htakes]

/-- The transfer after a frame that keeps to its buffer is counted right. -/
theorem after_matches {t : FileTrans} {g : Ledger} (h : t.Matches g) (hlen : 5 ≤ x.pack.len)
    (hadmits : g.Admits x) : (t.after x).Matches (g.count x) := by
  by_cases htakes : TakesNumber t.last? x.num
  · obtain ⟨u, hafter, hprepared⟩ := FileTrans.after_of_takes htakes
    obtain ⟨hlast, hwhole, htotal, hroom, -⟩ := hprepared.append x.num x.data
    rw [h.last] at htakes
    obtain ⟨hlong, hfits⟩ := hadmits htakes
    have hdata : x.data.length = x.payload := by
      rw [FileFrame.data, Buff.slice, List.length_map, List.length_range]
      exact (cnt_eq_payload_iff hlen).mpr hlong
    have hbounded := h.bounded
    rw [← h.room, ← h.total] at hfits
    rw [hafter, Ledger.count, if_pos htakes]
    refine ⟨hlast, hwhole.trans (by rw [h.whole]), ?_, hroom.trans h.room, by rwa [hroom]⟩
    dsimp only
    rw [htotal, toNat_add, toNat_ofNat, ← h.total]
    omega
  · rw [FileTrans.after_of_not_takes htakes, Ledger.count]
    rw [h.last] at htakes
    rw [if_neg htakes]
    exact h

/-- A frame that keeps to its buffer is counted right. -/
theorem agrees_step (hheap : ∀ w, b.freeHeapSize w < 2 ^ 32) (h : c.Agrees) {e : DownloadEvent ω}
    (hlegal : e.Legal c.1) (hadmits : c.2.Admits b c.1 e) : (c.step b e).Agrees := by
  intro f'
  cases e with
  | ended f =>
    simp only [Counted.step, DownloadEvent.step, Ledgers.step, Slave.setFile]
    by_cases hf : f' = f
    · subst hf
      rw [update_self, update_self]
      exact .none
    · rw [update_of_ne hf, update_of_ne hf]
      exact h f'
  | other t =>
    have hfiles : t.files = c.1.files := hlegal
    simp only [Counted.step, DownloadEvent.step, hfiles]
    exact h f'
  | frame f x =>
    simp only [Counted.step, DownloadEvent.step, Ledgers.step, Slave.download_files]
    by_cases hf : f' = f
    · subst hf
      rw [update_self, update_self]
      exact .some (after_matches (openFile_matches hheap h f' x) hlegal hadmits)
    · rw [update_of_ne hf, update_of_ne hf]
      exact h f'

end Count

/-! ## Runs -/

/-- In a run from a slave without transfers every copy stays in its buffer and takes what was
received, exactly if every frame that is stored has its header and checksum and the host keeps to
the sizes of the buffers. -/
theorem copiesInBuffer_run_iff {b : Board ω} (hheap : ∀ w, b.freeHeapSize w < 2 ^ 32) {s : Slave ω}
    (hnew : ∀ f, s.files f = none) {es : List (DownloadEvent ω)}
    (hlegal : Each (DownloadEvent.step b) DownloadEvent.Legal s es) :
    Each (DownloadEvent.step b) (DownloadEvent.CopiesInBuffer b) s es ↔
      Each (Counted.step b) (fun c e => c.2.Admits b c.1 e) (.start s) es := by
  have hview (c : Counted ω) (e : DownloadEvent ω) : (c.step b e).1 = e.step b c.1 := rfl
  have hcounted := (Each.view_iff (t := Counted.start s) Prod.fst hview).mp hlegal
  rw [show s = (Counted.start s).1 from rfl, Each.view_iff Prod.fst hview]
  exact Each.iff_of_invariant (Counted.agrees_start hnew) hcounted
    (fun c e h => copiesInBuffer_iff hheap h) fun c e h => agrees_step hheap h

/-- The two frames of a short file keep to the buffer. -/
theorem pid1_copiesInBuffer :
    Each (DownloadEvent.step idleBoard) (DownloadEvent.CopiesInBuffer idleBoard) (Slave.idle [])
      [.frame .pid1 (Slave.dataFrame 0x6C 1 0xAA),
        .frame .pid1 (Slave.dataFrame 0x6C 0xFE 0xBB)] := by
  have hlegal : Each (DownloadEvent.step idleBoard) DownloadEvent.Legal (Slave.idle [])
      [.frame .pid1 (Slave.dataFrame 0x6C 1 0xAA),
        .frame .pid1 (Slave.dataFrame 0x6C 0xFE 0xBB)] := by
    have hfirst : 5 ≤ (Slave.dataFrame 0x6C 1 0xAA).pack.len := by decide
    have hlast : 5 ≤ (Slave.dataFrame 0x6C 0xFE 0xBB).pack.len := by decide
    rw [Each.cons_iff, Each.cons_iff]
    exact ⟨hfirst, hlast, Each.nil⟩
  refine (copiesInBuffer_run_iff (fun _ => Nat.two_pow_pos 32) (fun _ => rfl) hlegal).mpr ?_
  rw [Each.cons_iff, Each.cons_iff]
  exact ⟨by decide, by decide, Each.nil⟩

/-- The first frame of a `CBIN` that says its length is one byte. -/
def shortCbinFrame : FileFrame where
  pack := comMsg 14
  buff i :=
    [1, 0x68, 0x6A, 1, 0x43, 0x53, 0x52, 0x46, 1, 0, 0, 0, 0xC1, 0x0F].getD i 0

/-- Eight bytes of the frame are copied to a buffer of one byte. -/
theorem shortCbinFrame_overflows : ¬ ∀ es : List (DownloadEvent Unit),
    Each (DownloadEvent.step idleBoard) DownloadEvent.Legal (Slave.idle []) es →
      Each (DownloadEvent.step idleBoard) (DownloadEvent.CopiesInBuffer idleBoard)
        (Slave.idle []) es := by
  intro h
  have hlen : 5 ≤ shortCbinFrame.pack.len := by decide
  have hlegal : Each (DownloadEvent.step idleBoard) DownloadEvent.Legal (Slave.idle [])
      [.frame .plcCbin shortCbinFrame] := Each.cons_iff.mpr ⟨hlen, Each.nil⟩
  have hcopy := (Each.cons_iff.mp (h _ hlegal)).1 ⟨0, 8, 1, 8⟩ (by decide)
  exact absurd hcopy (by decide)

end Kalyke
