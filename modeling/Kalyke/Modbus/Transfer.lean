-- SUMMARY: A file sent in numbered frames arrives whole, in runs of regular frames.
import Kalyke.Lib.NumberedFrames
import Kalyke.Lib.Runs
import Kalyke.Modbus.Handler

/-!
# Transfers

What should be kept of a file is what a receiver of numbered frames keeps. `mb_slave_download_file`
keeps it as long as the frames are regular. Others are acknowledged and not stored, or begin a
second file that holds the last frame alone.
-/

namespace Kalyke

open List BitVec Option

open NumberedFrames (Received Repeats)

def frameNumbers : NumberedFrames.Numbering Byte where
  first := 0x01
  next k := if k = 0xFD then 0x01 else k + 1
  last := 0xFE
  next_ne := by decide
  first_ne_last := by decide
  next_ne_last := by decide

/-- A message with a frame of a file, as a task received it. -/
structure FileFrame where
  pack : MsgPack
  buff : Buff

namespace FileFrame

/-- The number of the frame. -/
def num (x : FileFrame) : Byte := x.buff 3

def data (x : FileFrame) : List Byte := x.buff.slice 4 (x.pack.receiveLen - 6).toNat

def frame (x : FileFrame) : Byte × List Byte := (x.num, x.data)

end FileFrame

namespace FileTrans

/-- What a transfer has of its file. -/
def received (t : FileTrans) : Option (Received Byte Byte) :=
  if t.started then some ⟨t.preFrame, t.fileHandler.bytes t.fileLen.toNat⟩ else none

/-- The transfer holds a whole file. -/
structure Holds (t : FileTrans) (xs : List Byte) : Prop where
  complete : t.complete
  fileLen : t.fileLen.toNat = xs.length
  fits : xs.length ≤ t.room
  content : t.fileHandler.bytes xs.length = xs

/-- A transfer as regular frames leave it. -/
structure Kept (t : FileTrans) : Prop where
  started : t.started
  complete : t.complete ↔ t.preFrame = 0xFE
  preFrame : t.preFrame ≠ 0xFF
  fits : t.fileLen.toNat ≤ t.room

end FileTrans

variable {ω : Type}

namespace Slave

/-- A frame has been received. -/
def hand (s : Slave ω) (x : FileFrame) : Slave ω := { s with receiveBuff := x.buff }

/-- Hand a frame to `mb_slave_download_file`: whether it is acknowledged, and the state it
leaves. -/
def download (b : Board ω) (f : DlFile) (s : Slave ω) (x : FileFrame) : Bool × Slave ω :=
  (s.hand x).mbSlaveDownloadFile b x.pack f

/-- The transfer the next frame belongs to, if it does not begin one. -/
def underWay (s : Slave ω) (f : DlFile) : Option FileTrans :=
  (s.files f).filter fun t => !(f.restarts && t.complete)

def received (s : Slave ω) (f : DlFile) : Option (Received Byte Byte) :=
  (s.files f).bind FileTrans.received

/-- What a frame should come to. -/
def verdict (s : Slave ω) (f : DlFile) (x : FileFrame) : NumberedFrames.Outcome Byte Byte :=
  NumberedFrames.receive frameNumbers f.restarts (s.received f) x.num x.data

/-- The bytes there are for the file a frame belongs to. -/
def space (b : Board ω) (f : DlFile) (s : Slave ω) (x : FileFrame) : Nat :=
  match s.underWay f with
  | some t => t.room
  | none => (s.hand x).allocated b f

/-- A frame that is handled as it should be: a transfer begins with frame 1 or with a single frame
where no whole file is kept, no frame `0xFF` follows the last, and what is stored fits. -/
def Regular (b : Board ω) (f : DlFile) (s : Slave ω) (x : FileFrame) : Prop :=
  (match s.underWay f with
    | none => x.num = 0x01 ∨ x.num = 0xFE ∧ (s.files f).isNone
    | some t => ¬ (t.preFrame = 0xFE ∧ x.num = 0xFF)) ∧
  match s.verdict f x with
  | .stored r => r.content.length ≤ s.space b f x ∧ r.content.length < 2 ^ 32
  | _ => True

instance (b : Board ω) (f : DlFile) (s : Slave ω) (x : FileFrame) : Decidable (s.Regular b f x) :=
  @instDecidableAnd _ _
    (match s.underWay f with
      | none => inferInstanceAs (Decidable (_ ∨ _))
      | some _ => inferInstanceAs (Decidable (¬ _)))
    (match s.verdict f x with
      | .stored _ => inferInstanceAs (Decidable (_ ∧ _))
      | .again => inferInstanceAs (Decidable True)
      | .refused => inferInstanceAs (Decidable True))

/-- A frame is stored once, acknowledged as the one before once more, or refused with nothing
changed. -/
def Sound (b : Board ω) (f : DlFile) (s : Slave ω) (x : FileFrame) : Prop :=
  match s.verdict f x with
  | .stored r => (s.download b f x).2.received f = some r
  | .again => s.download b f x = (true, s.hand x)
  | .refused => s.download b f x = (false, s.hand x)

/-- Frames of a file handed over one after the other, each of which meets a condition. Between them
anything may happen that leaves the transfer as it is. -/
def DownloadRun (b : Board ω) (f : DlFile) (P : Slave ω → FileFrame → Prop) :
    Slave ω → List FileFrame → Slave ω → Prop :=
  EventRun (fun t t' => t'.files f = t.files f) (fun t x => (t.download b f x).2) P

/-- What the frames from one state to another did to a file: where they are those of a list of
payloads, sent from the start and each as often as needed, the payloads are there, and the next
frame is handled as it should be. -/
structure Downloaded (b : Board ω) (f : DlFile) (P : Slave ω → FileFrame → Prop) (s : Slave ω)
    (xs : List FileFrame) (s' : Slave ω) : Prop where
  whole : s.underWay f = none → ∀ ps : List (List Byte), ps ≠ [] →
    Repeats (NumberedFrames.number frameNumbers frameNumbers.first ps) (xs.map FileFrame.frame) →
      ∃ t, s'.files f = some t ∧ t.Holds ps.flatten
  next : ∀ x, P s' x → s'.Sound b f x

end Slave

/-! ## One Frame -/

namespace FileTrans

/-- What a frame comes to is what it should come to. -/
def Receipt.Matches : Receipt → NumberedFrames.Outcome Byte Byte → Prop
  | .refused, .refused => True
  | .again, .again => True
  | .done t, .stored r => t.Kept ∧ t.received = some r
  | _, _ => False

theorem Receipt.Matches.cases {c : Receipt} {o : NumberedFrames.Outcome Byte Byte}
    (h : c.Matches o) :
    c = .refused ∧ o = .refused ∨ c = .again ∧ o = .again ∨
      ∃ t r, c = .done t ∧ o = .stored r ∧ t.Kept ∧ t.received = some r := by
  cases c <;> cases o <;> simp_all [Matches]

theorem received_of_started {t : FileTrans} (h : t.started) :
    t.received = some ⟨t.preFrame, t.fileHandler.bytes t.fileLen.toNat⟩ := if_pos h

/-- The bits of the flags that say whether a transfer is under way and complete. -/
theorem flag_last : ∀ x : Byte,
    ((x ||| 0x02) &&& 0x01 ≠ 0 ↔ x &&& 0x01 ≠ 0) ∧ (x ||| 0x02) &&& 0x02 ≠ 0 := by
  decide

theorem flag_turn : ∀ x : Byte,
    ((x &&& 0xE3 ||| (((x &&& 0x1A) >>> 2) + 1) <<< 2) &&& 0x01 ≠ 0 ↔ x &&& 0x01 ≠ 0) ∧
      ((x &&& 0xE3 ||| (((x &&& 0x1A) >>> 2) + 1) <<< 2) &&& 0x02 ≠ 0 ↔ x &&& 0x02 ≠ 0) := by
  decide

theorem countTurn_started (t : FileTrans) : t.countTurn.started = t.started := by
  simp only [countTurn, started, (flag_turn t.flag).1]

theorem countTurn_complete (t : FileTrans) : t.countTurn.complete = t.complete := by
  simp only [countTurn, complete, (flag_turn t.flag).2]

theorem append_matches {t : FileTrans} {num : Byte} {data : List Byte} {r : Received Byte Byte}
    (hstarted : t.started) (hcomplete : ¬ t.complete) (hnum : num ≠ 0xFF)
    (hr : r = ⟨num, t.fileHandler.bytes t.fileLen.toNat ++ data⟩)
    (hfits : r.content.length ≤ t.room ∧ r.content.length < 2 ^ 32) :
    Receipt.Matches (.done (t.append num data)) (.stored r) := by
  subst hr
  simp only [length_append, Buff.length_bytes] at hfits
  have hlen : (t.append num data).fileLen.toNat = t.fileLen.toNat + data.length := by
    simp only [append, toNat_add, toNat_ofNat]
    omega
  have hstarted' : (t.append num data).started := by
    simp only [started, append] at hstarted ⊢
    split_ifs
    · simpa using (flag_last t.flag).1.mpr (by simpa using hstarted)
    · exact hstarted
  refine ⟨⟨hstarted', ?_, hnum, by rw [hlen]; exact hfits.1⟩, ?_⟩
  · simp only [complete, append] at hcomplete ⊢
    split_ifs with h
    · simpa [h] using (flag_last t.flag).2
    · exact iff_of_false hcomplete h
  · rw [received_of_started hstarted', hlen]
    simp only [append, Buff.bytes_putList]

/-- The first frame of a transfer. -/
def begun (handler : Buff) (room : Nat) : FileTrans :=
  { init handler room with frameCnt := 1, flag := (init handler room).flag ||| 0x01 }

theorem receive_init (handler : Buff) (room : Nat) {num : Byte} (data : List Byte)
    (hnum : num = 0x01 ∨ num = 0xFE) :
    (init handler room).receive num data = .done ((begun handler room).append num data) := by
  rw [receive, if_neg (by simp [started, init]), if_pos hnum]
  rfl

theorem begin_matches (handler : Buff) {room : Nat} {num : Byte} {data : List Byte}
    (hnum : num ≠ 0xFF) (hfits : data.length ≤ room ∧ data.length < 2 ^ 32) :
    Receipt.Matches (.done ((begun handler room).append num data)) (.stored ⟨num, data⟩) :=
  append_matches (by simp [started, begun, init]) (by simp [complete, begun, init]) hnum
    (by simp [begun, init, Buff.bytes]) hfits

/-- A frame of a transfer that is under way. -/
theorem receive_matches {t : FileTrans} (ht : t.Kept) {restart : Bool}
    (hrestart : ¬ (restart ∧ t.complete)) {num : Byte} {data : List Byte}
    (hnum : ¬ (t.preFrame = 0xFE ∧ num = 0xFF))
    (hfits : ∀ r, NumberedFrames.receive frameNumbers restart t.received num data = .stored r →
      r.content.length ≤ t.room ∧ r.content.length < 2 ^ 32) :
    (t.receive num data).Matches
      (NumberedFrames.receive frameNumbers restart t.received num data) := by
  rw [received_of_started ht.started] at hfits ⊢
  rw [receive, if_pos ht.started]
  simp only [NumberedFrames.receive] at hfits ⊢
  by_cases hpre : num = t.preFrame
  · rw [if_pos hpre, if_pos hpre]
    trivial
  rw [if_neg hpre] at hfits ⊢
  rw [if_neg hpre]
  by_cases hlast : t.preFrame = frameNumbers.last
  · have hcomplete := ht.complete.mpr hlast
    have hpre' : t.preFrame = 0xFE := hlast
    have hff : num.toNat ≠ t.preFrame.toNat + 1 := by
      intro h
      refine hnum ⟨hpre', eq_of_toNat_eq ?_⟩
      rw [h, hpre']
      rfl
    have hbegin : ¬ (restart ∧ num = frameNumbers.first) := fun h => hrestart ⟨h.1, hcomplete⟩
    have hnext : ¬ (num = 0xFE ∨ num.toNat = t.preFrame.toNat + 1) := by
      rintro (h | h)
      · exact hpre (h.trans hpre'.symm)
      · exact hff h
    have hturn : ¬ (num = 0x01 ∧ t.preFrame = 0xFD) := by
      rw [hpre']
      exact fun h => absurd h.2 (by decide)
    rw [if_pos hlast, if_neg hbegin, if_neg hnext, if_neg hturn]
    trivial
  · have hcomplete : ¬ t.complete := fun h => hlast (ht.complete.mp h)
    rw [if_neg hlast] at hfits ⊢
    by_cases hturn : t.preFrame = 0xFD
    · by_cases hfe : num = 0xFE
      · rw [if_pos (.inl hfe)] at hfits ⊢
        rw [if_pos (.inl hfe)]
        exact append_matches (t := { t with frameCnt := t.frameCnt + 1 }) ht.started hcomplete
          (by rw [hfe]; decide) rfl (hfits _ rfl)
      · have hnext : ¬ num.toNat = t.preFrame.toNat + 1 := by
          rw [hturn]
          intro h
          exact hfe (eq_of_toNat_eq h)
        rw [if_neg (not_or.mpr ⟨hfe, hnext⟩)]
        have hiff : (num = frameNumbers.last ∨ num = frameNumbers.next t.preFrame) ↔
            num = 0x01 ∧ t.preFrame = 0xFD := by
          rw [hturn]
          exact ⟨fun h => ⟨h.resolve_left hfe, rfl⟩, fun h => .inr h.1⟩
        by_cases hone : num = 0x01
        · rw [if_pos (hiff.mpr ⟨hone, hturn⟩)] at hfits ⊢
          rw [if_pos ⟨hone, hturn⟩]
          exact append_matches (t := { t with frameCnt := t.frameCnt + 1 }.countTurn)
            ((countTurn_started _).trans ht.started) (by rw [countTurn_complete]; exact hcomplete)
            (by rw [hone]; decide) rfl (hfits _ rfl)
        · rw [if_neg (fun h => hone (hiff.mp h).1), if_neg (fun h => hone h.1)]
          trivial
    · have hiff : (num = frameNumbers.last ∨ num = frameNumbers.next t.preFrame) ↔
          num = 0xFE ∨ num.toNat = t.preFrame.toNat + 1 := by
        refine or_congr_right ?_
        simp only [frameNumbers, if_neg hturn]
        have hlt : t.preFrame.toNat + 1 < 256 := by
          have hne : t.preFrame.toNat ≠ 255 := fun h => ht.preFrame (eq_of_toNat_eq h)
          have := t.preFrame.isLt
          omega
        rw [← toNat_inj, toNat_add]
        simp only [reduceToNat]
        rw [Nat.mod_eq_of_lt hlt]
      by_cases hnext : num = 0xFE ∨ num.toNat = t.preFrame.toNat + 1
      · rw [if_pos (hiff.mpr hnext)] at hfits ⊢
        rw [if_pos hnext]
        refine append_matches (t := { t with frameCnt := t.frameCnt + 1 }) ht.started hcomplete ?_
          rfl (hfits _ rfl)
        rintro rfl
        rcases hnext with h | h
        · exact absurd h (by decide)
        · exact hlast (eq_of_toNat_eq (by simp [frameNumbers]; simp at h; omega))
      · rw [if_neg (fun h => hnext (hiff.mp h)), if_neg hnext, if_neg (fun h => hturn h.2)]
        trivial

end FileTrans

namespace Slave

variable {b : Board ω} {f : DlFile} {s s' : Slave ω} {x : FileFrame} {t : FileTrans}

theorem Regular.fits (h : s.Regular b f x) {r : Received Byte Byte}
    (hr : s.verdict f x = .stored r) :
    r.content.length ≤ s.space b f x ∧ r.content.length < 2 ^ 32 := by
  have := h.2
  rwa [hr] at this

theorem openFile_of_some (h : s.underWay f = some t) : s.openFile b f = (t, s) := by
  unfold openFile
  rw [show ((s.files f).filter fun t => !(f.restarts && t.complete)) = some t from h]

theorem openFile_of_none (h : s.underWay f = none) :
    (s.openFile b f).1 = FileTrans.init (b.malloc s.world) (s.allocated b f) ∧
      (s.openFile b f).2.receiveBuff = s.receiveBuff := by
  unfold openFile
  rw [show ((s.files f).filter fun t => !(f.restarts && t.complete)) = none from h]
  refine ⟨rfl, ?_⟩
  split_ifs <;> rfl

theorem onlineProgram_files (s : Slave ω) (t : FileTrans) :
    (s.onlineProgram b f t).2.files = s.files := by
  unfold onlineProgram
  split_ifs
  · cases f <;> try rfl
    · dsimp only
      split <;> rfl
  · rfl

/-- A frame that is stored leaves the transfer it was stored in. -/
theorem download_of_done
    (h : ((s.hand x).openFile b f).1.receive x.num x.data = .done t)
    (hbuff : ((s.hand x).openFile b f).2.receiveBuff = x.buff) :
    (s.download b f x).2.files f = some t := by
  have hnum : ((s.hand x).openFile b f).2.frameNum = x.num := by
    rw [frameNum, hbuff]
    rfl
  have hdata : ((s.hand x).openFile b f).2.frameData x.pack = x.data := by
    rw [frameData, hbuff]
    rfl
  simp only [download, mbSlaveDownloadFile, hnum, hdata, h, onlineProgram_files, setFile,
    Function.update_self]

/-- A transfer that is not under way is none, or a whole file that the next frame ends. -/
theorem underWay_eq_none_iff :
    s.underWay f = none ↔ ∀ t, s.files f = some t → f.restarts ∧ t.complete := by
  unfold underWay
  cases s.files f <;> simp

theorem begins_sound (hkept : ∀ t, s.files f = some t → t.Kept) (hx : s.Regular b f x)
    (hnone : s.underWay f = none) :
    s.Sound b f x ∧ ∀ t, (s.download b f x).2.files f = some t → t.Kept := by
  have hbegins : x.num = 0x01 ∨ x.num = 0xFE ∧ (s.files f).isNone := by
    have := hx.1
    rwa [hnone] at this
  have hverdict : s.verdict f x = .stored ⟨x.num, x.data⟩ := by
    unfold verdict
    cases hfile : s.files f with
    | none =>
      have hfirst : x.num = frameNumbers.first ∨ x.num = frameNumbers.last :=
        hbegins.imp id fun h => h.1
      simp [received, hfile, NumberedFrames.receive, hfirst]
    | some t =>
      obtain ⟨hrestarts, hcomplete⟩ := underWay_eq_none_iff.mp hnone t hfile
      have hone : x.num = frameNumbers.first := hbegins.resolve_right (by simp [hfile])
      have ht := hkept t hfile
      have hlast : t.preFrame = frameNumbers.last := ht.complete.mp hcomplete
      simp [received, hfile, FileTrans.received_of_started ht.started, NumberedFrames.receive,
        hlast, hone, hrestarts, frameNumbers.first_ne_last]
  have hfits := hx.fits hverdict
  have hspace : s.space b f x = (s.hand x).allocated b f := by
    rw [space, hnone]
  rw [hspace] at hfits
  obtain ⟨hinit, hbuff⟩ := openFile_of_none (b := b) (s := s.hand x) hnone
  have hnum : x.num ≠ 0xFF := by
    rcases hbegins with h | ⟨h, -⟩ <;> rw [h] <;> decide
  have hmatch := FileTrans.begin_matches (b.malloc s.world) hnum hfits
  have hfile := download_of_done (by
    rw [hinit]
    exact FileTrans.receive_init _ _ x.data (hbegins.imp id fun h => h.1)) hbuff
  refine ⟨?_, fun t ht => ?_⟩
  · rw [Sound, hverdict]
    simp only [received, hfile]
    exact hmatch.2
  · cases hfile.symm.trans ht
    exact hmatch.1

theorem continues_sound (hkept : ∀ t, s.files f = some t → t.Kept) (hx : s.Regular b f x)
    (hunder : s.underWay f = some t) :
    s.Sound b f x ∧ ∀ t, (s.download b f x).2.files f = some t → t.Kept := by
  obtain ⟨hfile, hrestart⟩ := filter_eq_some_iff.mp hunder
  have hends : ¬ (t.preFrame = 0xFE ∧ x.num = 0xFF) := by
    have := hx.1
    rwa [hunder] at this
  have hreceived : s.received f = t.received := by rw [received, hfile, bind_some]
  have hrestart : ¬ (f.restarts ∧ t.complete) := fun h => by simp [h.1, h.2] at hrestart
  have hfits (r : Received Byte Byte)
      (hr : NumberedFrames.receive frameNumbers f.restarts t.received x.num x.data = .stored r) :
      r.content.length ≤ t.room ∧ r.content.length < 2 ^ 32 := by
    have := hx.fits (r := r) (by rw [verdict, hreceived]; exact hr)
    rwa [space, hunder] at this
  have hmatch := FileTrans.receive_matches (hkept t hfile) hrestart hends hfits
  have hopen : (s.hand x).openFile b f = (t, s.hand x) :=
    openFile_of_some hunder
  rw [← hreceived] at hmatch
  unfold Sound
  obtain ⟨hr, hv⟩ | ⟨hr, hv⟩ | ⟨t', r, hr, hv, ht', hreceived'⟩ := hmatch.cases
  · have hdown : s.download b f x = (false, s.hand x) := by
      unfold download mbSlaveDownloadFile
      simp only [hopen]
      rw [show t.receive (s.hand x).frameNum ((s.hand x).frameData x.pack) = .refused from hr]
    rw [show s.verdict f x = .refused from hv, hdown]
    exact ⟨rfl, hkept⟩
  · have hdown : s.download b f x = (true, s.hand x) := by
      unfold download mbSlaveDownloadFile
      simp only [hopen]
      rw [show t.receive (s.hand x).frameNum ((s.hand x).frameData x.pack) = .again from hr]
    rw [show s.verdict f x = .again from hv, hdown]
    exact ⟨rfl, hkept⟩
  · have hfile' := download_of_done (s := s) (x := x) (b := b) (f := f) (t := t')
      (by rw [hopen]; exact hr) (by rw [hopen]; rfl)
    rw [show s.verdict f x = .stored r from hv]
    refine ⟨by simp only [received, hfile']; exact hreceived', fun t'' ht'' => ?_⟩
    cases hfile'.symm.trans ht''
    exact ht'

/-! ## Whole Files -/

theorem Sound.received (h : s.Sound b f x) :
    (s.download b f x).2.received f =
      NumberedFrames.step frameNumbers f.restarts (s.received f) x.frame := by
  change _ = (s.verdict f x).after (s.received f)
  unfold Sound at h
  cases hv : s.verdict f x with
  | refused =>
    rw [hv] at h
    rw [show s.download b f x = _ from h]
    rfl
  | again =>
    rw [hv] at h
    rw [show s.download b f x = _ from h]
    rfl
  | stored r =>
    rw [hv] at h
    exact h

theorem sound_of_regular (hkept : ∀ t, s.files f = some t → t.Kept) (hx : s.Regular b f x) :
    s.Sound b f x ∧ ∀ t, (s.download b f x).2.files f = some t → t.Kept := by
  cases hunder : s.underWay f with
  | none => exact begins_sound hkept hx hunder
  | some t => exact continues_sound hkept hx hunder

theorem DownloadRun.kept {xs : List FileFrame} (hrun : DownloadRun b f (Regular b f) s xs s')
    (hkept : ∀ t, s.files f = some t → t.Kept) :
    (∀ t, s'.files f = some t → t.Kept) ∧ s'.received f =
      NumberedFrames.run frameNumbers f.restarts (s.received f) (xs.map FileFrame.frame) := by
  rw [NumberedFrames.run, foldl_map]
  refine EventRun.simulates hrun (I := fun s => ∀ t, s.files f = some t → t.Kept)
    (fun s => s.received f) _ hkept ?_ ?_
  · intro t t' ht hfile
    exact ⟨by rwa [hfile], by simp only [Slave.received, hfile]⟩
  · intro t x ht hx
    obtain ⟨hsound, hkept'⟩ := sound_of_regular ht hx
    exact ⟨hkept', hsound.received⟩

/-- What a transfer that has a whole file holds. -/
theorem holds_of_received {xs : List Byte} (hkept : t.Kept)
    (h : t.received = some ⟨0xFE, xs⟩) : t.Holds xs := by
  rw [FileTrans.received_of_started hkept.started, some_inj] at h
  obtain ⟨hnum, hcontent⟩ := Received.mk.inj h
  have hlen : t.fileLen.toNat = xs.length := by rw [← hcontent, Buff.length_bytes]
  exact ⟨hkept.complete.mpr hnum, hlen, hlen ▸ hkept.fits, hlen ▸ hcontent⟩

/-- A file arrives whole, and every frame is stored once, recognized or refused, as long as all
frames are regular. -/
theorem downloaded_of_regular {s₀ : Slave ω} {ys xs : List FileFrame} (hnew : s₀.files f = none)
    (hbefore : DownloadRun b f (Regular b f) s₀ ys s) (hrun : DownloadRun b f (Regular b f) s xs s') :
    Downloaded b f (Regular b f) s xs s' := by
  obtain ⟨hkept, -⟩ := hbefore.kept (by simp [hnew])
  obtain ⟨hkept', hreceived⟩ := hrun.kept hkept
  refine ⟨fun hidle ps hps hsent => ?_, fun x hx => (sound_of_regular hkept' hx).1⟩
  have hready : s.received f = none ∨ f.restarts ∧ 2 ≤ ps.length ∧
      (s.received f).map (·.num) = some frameNumbers.last := by
    cases hfile : s.files f with
    | none => exact .inl (by rw [Slave.received, hfile]; rfl)
    | some t =>
      obtain ⟨hrestarts, hcomplete⟩ := underWay_eq_none_iff.mp hidle t hfile
      have ht := hkept t hfile
      have hlast : t.preFrame = frameNumbers.last := ht.complete.mp hcomplete
      refine .inr ⟨hrestarts, ?_, ?_⟩
      · match ps with
        | [p] =>
          -- a single frame behind a whole file is not regular
          have hhead : (xs.map FileFrame.frame).head? = some (0xFE, p) := hsent.head?
          rw [head?_map] at hhead
          obtain ⟨x, hx, hframe⟩ := map_eq_some_iff.mp hhead
          have hnum : x.num = 0xFE := congrArg Prod.fst hframe
          obtain ⟨u, hu, hregular⟩ := (EventRun.head hrun (fun s => s.files f) fun _ _ h => h).2 x hx
          have hunder : u.underWay f = none := by
            rw [underWay, hu]
            exact hidle
          have := hregular.1
          rw [hunder, hu, hfile, hnum] at this
          simp at this
        | _ :: _ :: ps => simp
      · rw [Slave.received, hfile, bind_some, FileTrans.received_of_started ht.started]
        exact congrArg some hlast
  rw [NumberedFrames.run_repeats hsent, NumberedFrames.run_number ps hps hready] at hreceived
  obtain ⟨t, hfile, ht⟩ := bind_eq_some_iff.mp hreceived
  exact ⟨t, hfile, holds_of_received (hkept' t hfile) ht⟩

def dataFrame (subCode num x : Byte) : FileFrame where
  pack := comMsg 7
  buff i := [1, 0x68, subCode, num, x].getD i 0

/-- Two frames of a file, both sent twice, arrive. -/
theorem downloaded_pid1 :
    let s := [dataFrame 0x6C 1 0xAA, dataFrame 0x6C 1 0xAA, dataFrame 0x6C 0xFE 0xBB,
      dataFrame 0x6C 0xFE 0xBB].foldl (fun s x => (s.download idleBoard .pid1 x).2) (idle [])
    ∃ t, s.files .pid1 = some t ∧ t.Holds [0xAA, 0xBB] := by
  intro s
  have hstart : DownloadRun idleBoard .pid1 (Regular idleBoard .pid1) (idle []) [] (idle []) :=
    .start
  have h₁ := hstart.event (dataFrame 0x6C 1 0xAA) (by decide)
  have h₂ := h₁.event (dataFrame 0x6C 1 0xAA) (by decide)
  have h₃ := h₂.event (dataFrame 0x6C 0xFE 0xBB) (by decide)
  have h₄ := h₃.event (dataFrame 0x6C 0xFE 0xBB) (by decide)
  have hdown := downloaded_of_regular rfl hstart h₄
  exact hdown.whole rfl [[0xAA], [0xBB]] (by simp) (.again (.once _ (.again (.once _ .nil))))

/-- When the last frame of a program is sent again, the program is lost but for that frame. -/
theorem ucode_restarted : ¬ ∀ (f : DlFile) (s₀ s s' : Slave Unit) (ys xs : List FileFrame),
    s₀.files f = none → DownloadRun idleBoard f (fun _ _ => True) s₀ ys s →
      DownloadRun idleBoard f (fun _ _ => True) s xs s' →
        Downloaded idleBoard f (fun _ _ => True) s xs s' := by
  intro h
  have hstart : DownloadRun idleBoard .ucode (fun _ _ => True) (idle []) [] (idle []) := .start
  have h₁ := hstart.event (dataFrame 0x5D 1 0xAA) trivial
  have h₂ := h₁.event (dataFrame 0x5D 0xFE 0xBB) trivial
  have h₃ := h₂.event (dataFrame 0x5D 0xFE 0xBB) trivial
  have hdown := h .ucode _ _ _ _ _ rfl hstart h₃
  obtain ⟨t, hfile, ht⟩ := hdown.whole rfl [[0xAA], [0xBB]] (by simp)
    (.once _ (.again (.once _ .nil)))
  have hlen := ht.fileLen
  cases hfile
  exact absurd hlen (by decide)

end Slave

end Kalyke
