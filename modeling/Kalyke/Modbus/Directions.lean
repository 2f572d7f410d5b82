-- SUMMARY: Downloads and uploads share a record, and mix where one starts before the other ends.
import Kalyke.Modbus.Copies
import Kalyke.Modbus.UploadRuns

/-!
# Directions

A file that is downloaded and a file that is uploaded have the same record. Nothing in it says which
way the file goes: where the file of an upload lies in the flash memory, a download has a buffer of
its own. Here the way is noted beside the slave when a record is opened.
-/

namespace Kalyke

open Function Option

/-- Which way a file goes. -/
inductive Direction where
  | download | upload
deriving DecidableEq, Repr

/-- The numbers of requests that get a piece, by the number of the last one that did. -/
def AsksNumber : Option Byte → Byte → Prop
  | none, n => n = 0x01 ∨ n = 0xFE
  | some p, n => n = p ∨ n = 0xFE ∨ n.toNat = p.toNat + 1 ∨ n = 0x01 ∧ p = 0xFD

/-- What happens to the records: a frame of a download comes, a request of an upload, the programme
command, or something else happens to the slave. -/
inductive TransferEvent (ω : Type) where
  | download (f : DlFile) (x : FileFrame)
  | upload (f : DlFile) (x : FileFrame)
  | programme (m : MsgPack)
  | other (t : Slave ω)

variable {ω : Type}

/-- What a request for a piece of a file comes to. -/
def Slave.uploadReply (b : Board ω) (f : DlFile) (s : Slave ω) (x : FileFrame) : Reply :=
  (requested (s.storedFile b f) (s.files f) x.num).1

namespace TransferEvent

def step (b : Board ω) (s : Slave ω) : TransferEvent ω → Slave ω
  | download f x => (s.download b f x).2
  | upload f x => s.upload b f x
  | programme m => s.mbSlaveCtrlProgrammeCmd b m
  | other t => t

/-- Other events leave the records alone. -/
def Legal (s : Slave ω) : TransferEvent ω → Prop
  | other t => t.files = s.files
  | _ => True

def opens (s : Slave ω) : TransferEvent ω → DlFile → Option Direction
  | download f _, g => if g = f ∧ s.underWay f = none then some .download else none
  | upload f _, g => if g = f ∧ s.files f = none then some .upload else none
  | _, _ => none

end TransferEvent

/-- A slave, and which way the files of its records go. -/
abbrev Directed (ω : Type) := Slave ω × (DlFile → Option Direction)

namespace Directed

/-- An event is handled, and the ways of the records noted. -/
def step (b : Board ω) (c : Directed ω) (e : TransferEvent ω) : Directed ω :=
  let s := e.step b c.1
  (s, fun f => (s.files f).bind fun _ => (e.opens c.1 f).or (c.2 f))

/-- There are no records. -/
def start (s : Slave ω) : Directed ω := (s, fun _ => none)

/-- The directions are not mixed: a frame of a download leaves the record of an upload as it is, a
request of an upload gets nothing of a download that has not ended and leaves its record as it is,
and what the programme command finds complete, which it writes, was downloaded. -/
def Unmixed (b : Board ω) (c : Directed ω) : TransferEvent ω → Prop
  | .download f x => c.2 f = some .upload → (c.1.download b f x).2.files f = c.1.files f
  | .upload f x => c.2 f = some .download → (∀ t ∈ c.1.files f, ¬ t.complete) →
      (∀ n d, c.1.uploadReply b f x ≠ .piece n d) ∧ (c.1.upload b f x).files f = c.1.files f
  | .programme _ => ∀ f, ∀ t ∈ c.1.files f, t.complete → c.2 f = some .download
  | .other _ => True

/-- One direction keeps away from the other: a record that was opened for an upload is not sent a
frame with a number that a download would store, and a record of a download that has not ended no
request with a number that an upload would answer. -/
def Apart (c : Directed ω) : TransferEvent ω → Prop
  | .download f x => c.2 f = some .upload → ∀ t ∈ c.1.files f, ¬ TakesNumber t.last? x.num
  | .upload f x => c.2 f = some .download → ∀ t ∈ c.1.files f, ¬ t.complete →
      ¬ AsksNumber t.last? x.num
  | _ => True

/-- A way is noted of every record, and what was opened for an upload is not complete. -/
structure Noted (c : Directed ω) : Prop where
  isSome (f : DlFile) : (c.2 f).isSome = (c.1.files f).isSome
  incomplete (f : DlFile) : c.2 f = some .upload → ∀ t ∈ c.1.files f, ¬ t.complete

end Directed

/-! ## One Request -/

namespace FileTrans

variable {t : FileTrans} {num : Byte}

theorem piece_fst (t : FileTrans) (num : Byte) (offset : Nat) :
    ∃ n d, (t.piece num offset).1 = .piece n d := ⟨_, _, rfl⟩

/-- A request gets a piece by its number. -/
theorem reply_of_asks (h : AsksNumber t.last? num) : ∃ n d, (t.reply num).1 = .piece n d := by
  unfold reply
  by_cases hstarted : t.started
  · rw [last?, if_pos hstarted] at h
    rw [if_pos (started_iff.mp hstarted)]
    split_ifs with hnext hpre hturn
    · exact piece_fst _ _ _
    · exact piece_fst _ _ _
    · exact piece_fst _ _ _
    · rcases h with h | h | h | h
      · exact absurd h hpre
      · exact absurd (.inr h) hnext
      · exact absurd (.inl h) hnext
      · exact absurd h hturn
  · rw [last?, if_neg hstarted] at h
    have hfirst : num = 0x01 ∨ num = 0xFE := h
    rw [if_neg fun hflag => hstarted (started_iff.mpr hflag), if_pos hfirst]
    exact piece_fst _ _ _

/-- Another gets none, and leaves the transfer as it is. -/
theorem reply_of_not_asks (h : ¬ AsksNumber t.last? num) :
    (∀ n d, (t.reply num).1 ≠ .piece n d) ∧ (t.reply num).2 = some t := by
  unfold reply
  by_cases hstarted : t.started
  · rw [last?, if_pos hstarted] at h
    have hnext : ¬ (num.toNat = t.preFrame.toNat + 1 ∨ num = 0xFE) := by
      rintro (hnum | hnum)
      · exact h (.inr (.inr (.inl hnum)))
      · exact h (.inr (.inl hnum))
    rw [if_pos (started_iff.mp hstarted), if_neg hnext, if_neg fun hnum => h (.inl hnum),
      if_neg fun hnum => h (.inr (.inr (.inr hnum)))]
    exact ⟨fun n d hpiece => (by cases hpiece), rfl⟩
  · rw [last?, if_neg hstarted] at h
    have hfirst : ¬ (num = 0x01 ∨ num = 0xFE) := h
    rw [if_neg fun hflag => hstarted (started_iff.mpr hflag), if_neg hfirst]
    exact ⟨fun n d hpiece => (by cases hpiece), rfl⟩

theorem piece_complete (t : FileTrans) (num : Byte) (offset : Nat) :
    ∀ u ∈ (t.piece num offset).2, u.complete = t.complete := by
  intro u hu
  unfold piece at hu
  dsimp only at hu
  split_ifs at hu <;> cases hu <;> rfl

/-- A request does not complete a transfer. -/
theorem reply_complete (t : FileTrans) (num : Byte) :
    ∀ u ∈ (t.reply num).2, u.complete = t.complete := by
  have hkeep : ∀ u ∈ some t, u.complete = t.complete := by
    intro u hu
    cases hu
    rfl
  unfold reply
  split_ifs
  · exact piece_complete { t with preFrame := num, frameCnt := t.frameCnt + 1 } num _
  · exact piece_complete t num _
  · intro u hu
    rw [piece_complete _ num _ u hu]
    exact countTurn_complete _
  · exact hkeep
  · intro u hu
    rw [piece_complete _ num _ u hu]
    exact (prepared_first { t with preFrame := num }).complete
  · exact hkeep

end FileTrans

namespace Slave

variable {b : Board ω} {f : DlFile} {s : Slave ω} {x : FileFrame} {t : FileTrans}

/-- A frame for a record that is not complete leaves it as it is just if it is not stored. -/
theorem download_files_eq_iff (hfile : s.files f = some t) (ht : ¬ t.complete) :
    (s.download b f x).2.files f = s.files f ↔ ¬ TakesNumber t.last? x.num := by
  have hunder : (s.hand x).underWay f = some t := by
    refine filter_eq_some_iff.mpr ⟨hfile, ?_⟩
    simp [ht]
  rw [download_files, update_self, openFile_of_some hunder, hfile, some_inj]
  constructor
  · intro heq htakes
    obtain ⟨u, hafter, hprepared⟩ := FileTrans.after_of_takes htakes
    obtain ⟨hlast, -⟩ := hprepared.append x.num x.data
    rw [← hafter, heq] at hlast
    rw [hlast] at htakes
    exact htakes.1 rfl
  · exact FileTrans.after_of_not_takes

/-- A request gets nothing and leaves the record as it is just if its number is not answered. -/
theorem upload_files_eq_iff (hfile : s.files f = some t) :
    ((∀ n d, s.uploadReply b f x ≠ .piece n d) ∧ (s.upload b f x).files f = s.files f) ↔
      ¬ AsksNumber t.last? x.num := by
  rw [(upload_gives s x).2, uploadReply, hfile]
  constructor
  · rintro ⟨hpiece, -⟩ hasks
    obtain ⟨n, d, h⟩ := FileTrans.reply_of_asks hasks
    exact hpiece n d h
  · exact FileTrans.reply_of_not_asks

/-- A request changes no other record. -/
theorem upload_files_of_ne {g : DlFile} (hg : g ≠ f) :
    (s.upload b f x).files g = s.files g := by
  have hopen : ((s.hand x).openUpload b f).2.files g = s.files g := by
    unfold openUpload
    cases (s.hand x).files f with
    | some t => rfl
    | none =>
      dsimp only
      rw [update_of_ne hg]
      split_ifs <;> rfl
  have hpiece : ∀ (u : Slave ω) (t : FileTrans) (offset : Nat),
      (u.sendPiece x.pack f t offset).files g = u.files g := by
    intro u t offset
    unfold sendPiece
    dsimp only
    split_ifs <;>
      simp [mbSlaveVerifyRespMsg, copyRequest, putResp, freeUpload, update_of_ne hg]
  unfold upload mbSlaveUploadFile
  generalize (s.hand x).openUpload b f = opened at hopen ⊢
  obtain ⟨t, u⟩ := opened
  dsimp only at hopen ⊢
  split_ifs
  · rw [hpiece, hopen]
  · rw [hpiece, hopen]
  · rw [hpiece, hopen]
  · unfold mbSlaveErrorResp
    split_ifs <;> exact hopen
  · rw [hpiece, hopen]
  · exact hopen

theorem writeCbin_files (file : Buff) (fs : List (DlFile × Bool)) (pos : Nat) (s : Slave ω) :
    (writeCbin b file fs pos s).1.files = s.files := by
  induction fs generalizing pos s with
  | nil => rfl
  | cons y fs ih =>
    unfold writeCbin
    by_cases hlen : y.1.partSize < (file.nativePU32 pos).toNat
    · rw [if_pos hlen]
    · rw [if_neg hlen, ih]
      rfl

theorem programmeFile_files (s : Slave ω) (g : DlFile) (t : FileTrans) :
    (s.programmeFile b g t).1.files = s.files := by
  unfold programmeFile
  cases g <;> dsimp only <;> split_ifs <;> first | rfl | exact writeCbin_files _ _ _ _

/-- What the programme command leaves of the records: each is as it was or ended. -/
theorem programmeFiles_files (fs : List DlFile) (s : Slave ω) (f : DlFile) :
    (programmeFiles b fs s).1.files f = s.files f ∨ (programmeFiles b fs s).1.files f = none := by
  induction fs generalizing s with
  | nil => exact .inl rfl
  | cons g fs ih =>
    have hend : ∀ u : Slave ω, u.files = s.files →
        (u.setFile g none).files f = s.files f ∨ (u.setFile g none).files f = none := by
      intro u hu
      by_cases hg : f = g
      · subst hg
        exact .inr (update_self _ _ _)
      · exact .inl ((update_of_ne hg _ _).trans (congrFun hu f))
    unfold programmeFiles
    cases (s.files g).filter FileTrans.complete with
    | none => exact ih s
    | some t =>
      have hwritten := programmeFile_files (b := b) s g t
      dsimp only
      generalize s.programmeFile b g t = r at hwritten ⊢
      obtain ⟨u, _ | e⟩ := r
      · rcases ih (u.setFile g none) with h | h
        · rw [h]
          exact hend u hwritten
        · exact .inr h
      · exact hend u hwritten

theorem programme_files (s : Slave ω) (m : MsgPack) (f : DlFile) :
    (s.mbSlaveCtrlProgrammeCmd b m).files f = s.files f ∨
      (s.mbSlaveCtrlProgrammeCmd b m).files f = none := by
  have hfiles := programmeFiles_files (b := b) dlFiles s f
  unfold mbSlaveCtrlProgrammeCmd finishList
  generalize programmeFiles b dlFiles s = r at hfiles ⊢
  obtain ⟨u, _ | e⟩ := r
  · exact hfiles
  · dsimp only
    unfold mbSlaveErrorResp
    split_ifs <;> exact hfiles

end Slave

namespace Directed

variable {b : Board ω} {c : Directed ω} {e : TransferEvent ω}

/-- The directions are not mixed by an event just if it keeps away from the other direction. -/
theorem unmixed_iff (h : c.Noted) : c.Unmixed b e ↔ c.Apart e := by
  cases e with
  | download f x =>
    refine forall_congr' fun hway => ?_
    have hsome := h.isSome f
    rw [hway, isSome_some, eq_comm, isSome_iff_exists] at hsome
    obtain ⟨t, ht⟩ := hsome
    rw [Slave.download_files_eq_iff ht (h.incomplete f hway t ht), ht]
    simp
  | upload f x =>
    refine forall_congr' fun hway => ?_
    have hsome := h.isSome f
    rw [hway, isSome_some, eq_comm, isSome_iff_exists] at hsome
    obtain ⟨t, ht⟩ := hsome
    rw [Slave.upload_files_eq_iff ht, ht]
    simp
  | programme m =>
    refine iff_of_true (fun f t ht hcomplete => ?_) trivial
    have hsome := h.isSome f
    rw [ht, isSome_some, isSome_iff_exists] at hsome
    obtain ⟨way, hway⟩ := hsome
    cases way with
    | download => exact hway
    | upload => exact absurd hcomplete (h.incomplete f hway t ht)
  | other t => exact Iff.rfl

/-- What is to be shown of an event for its ways to be noted: a record that it did not open was
there, and one of an upload is not complete afterwards. -/
theorem noted_of (h : c.Noted)
    (hopens : ∀ f, e.opens c.1 f = none → (c.step b e).1.files f ≠ none → c.1.files f ≠ none)
    (hupload : ∀ f, (e.opens c.1 f).or (c.2 f) = some .upload →
      ∀ t ∈ (c.step b e).1.files f, ¬ t.complete) : (c.step b e).Noted where
  isSome f := by
    have hsome := h.isSome f
    have hopen := hopens f
    change (((c.step b e).1.files f).bind fun _ => (e.opens c.1 f).or (c.2 f)).isSome = _
    cases hnew : (c.step b e).1.files f with
    | none => rfl
    | some t =>
      cases hway : e.opens c.1 f with
      | some way => rfl
      | none =>
        rw [hnew] at hopen
        have hold := isSome_iff_ne_none.mpr (hopen hway (some_ne_none t))
        rw [bind_some, none_or, hsome, hold, isSome_some]
  incomplete f hway t ht := by
    change (((c.step b e).1.files f).bind fun _ => (e.opens c.1 f).or (c.2 f)) = _ at hway
    rw [mem_def.mp ht] at hway
    exact hupload f hway t ht

/-- A frame of a download that keeps away does not complete the record of an upload. -/
theorem incomplete_download {f : DlFile} {x : FileFrame} (h : c.Noted)
    (hapart : c.Apart (.download f x))
    (hway : (TransferEvent.opens c.1 (.download f x) f).or (c.2 f) = some .upload) :
    ∀ t ∈ (c.step b (.download f x)).1.files f, ¬ t.complete := by
  intro t ht
  cases hunder : c.1.underWay f with
  | none =>
    rw [TransferEvent.opens, if_pos ⟨rfl, hunder⟩] at hway
    cases hway
  | some u =>
    obtain ⟨hfile, -⟩ := filter_eq_some_iff.mp hunder
    rw [TransferEvent.opens, hunder, if_neg (by simp)] at hway
    have hsame := (Slave.download_files_eq_iff (b := b) hfile (h.incomplete f hway u hfile)).mpr
      (hapart hway u hfile)
    rw [step, TransferEvent.step, hsame] at ht
    exact h.incomplete f hway t ht

/-- Nor does a request of an upload. -/
theorem incomplete_upload {f : DlFile} {x : FileFrame} (h : c.Noted)
    (hway : (TransferEvent.opens c.1 (.upload f x) f).or (c.2 f) = some .upload) :
    ∀ t ∈ (c.step b (.upload f x)).1.files f, ¬ t.complete := by
  intro t ht
  rw [step, TransferEvent.step, (Slave.upload_gives c.1 x).2] at ht
  rw [FileTrans.reply_complete _ _ t ht]
  cases hfile : c.1.files f with
  | none => simp [FileTrans.opened, FileTrans.complete]
  | some u =>
    rw [TransferEvent.opens, hfile, if_neg (by simp)] at hway
    exact h.incomplete f hway u hfile

/-- The ways are noted of the records after an event that keeps away from the other direction. -/
theorem noted_step (h : c.Noted) (hlegal : e.Legal c.1) (hapart : c.Apart e) :
    (c.step b e).Noted := by
  refine noted_of h (fun g hopens hnew => ?_) fun g hway t ht => ?_
  · cases e with
    | download f x =>
      by_cases hg : g = f
      · subst hg
        have hunder : c.1.underWay g ≠ none := fun hnone => by
          rw [TransferEvent.opens, if_pos ⟨rfl, hnone⟩] at hopens
          cases hopens
        exact fun hnone => hunder (by rw [Slave.underWay, hnone]; rfl)
      · rwa [step, TransferEvent.step, Slave.download_files, update_of_ne hg] at hnew
    | upload f x =>
      by_cases hg : g = f
      · subst hg
        intro hnone
        rw [TransferEvent.opens, if_pos ⟨rfl, hnone⟩] at hopens
        cases hopens
      · rwa [step, TransferEvent.step, Slave.upload_files_of_ne hg] at hnew
    | programme m =>
      rcases Slave.programme_files (b := b) c.1 m g with hfile | hfile
      · rwa [← hfile]
      · exact absurd hfile hnew
    | other t =>
      have hfiles : t.files = c.1.files := hlegal
      rwa [← hfiles]
  · cases e with
    | download f x =>
      by_cases hg : g = f
      · subst hg
        exact incomplete_download h hapart hway t ht
      · rw [step, TransferEvent.step, Slave.download_files, update_of_ne hg] at ht
        rw [TransferEvent.opens, if_neg fun hopens => hg hopens.1] at hway
        exact h.incomplete g hway t ht
    | upload f x =>
      by_cases hg : g = f
      · subst hg
        exact incomplete_upload h hway t ht
      · rw [step, TransferEvent.step, Slave.upload_files_of_ne hg] at ht
        rw [TransferEvent.opens, if_neg fun hopens => hg hopens.1] at hway
        exact h.incomplete g hway t ht
    | programme m =>
      rcases Slave.programme_files (b := b) c.1 m g with hfile | hfile
      · exact h.incomplete g hway t (hfile ▸ ht)
      · rw [step, TransferEvent.step, hfile] at ht
        cases ht
    | other u =>
      have hfiles : u.files = c.1.files := hlegal
      exact h.incomplete g hway t (hfiles ▸ ht)

theorem noted_start {s : Slave ω} (hnew : ∀ f, s.files f = none) : (start s).Noted where
  isSome f := by
    rw [show (start s).1.files f = none from hnew f]
    rfl
  incomplete f hway := by cases hway

end Directed

/-! ## Runs -/

/-- In a run from a slave without records, with requests of any hosts in any order, the directions
are never mixed exactly if each keeps away from the other. -/
theorem unmixed_run_iff {b : Board ω} {s : Slave ω} (hnew : ∀ f, s.files f = none)
    {es : List (TransferEvent ω)} (hlegal : Each (TransferEvent.step b) TransferEvent.Legal s es) :
    Each (Directed.step b) (Directed.Unmixed b) (.start s) es ↔
      Each (Directed.step b) Directed.Apart (.start s) es := by
  have hview (c : Directed ω) (e : TransferEvent ω) : (c.step b e).1 = e.step b c.1 := rfl
  have hdirected := (Each.view_iff (t := Directed.start s) Prod.fst hview).mp hlegal
  exact Each.iff_of_invariant (Directed.noted_start hnew) hdirected
    (fun c e h _ => Directed.unmixed_iff h) fun c e h => Directed.noted_step h

/-- A file of two frames is uploaded, and then its download begins. -/
theorem uploadThenDownload_unmixed :
    Each (Directed.step twoFrameBoard) (Directed.Unmixed twoFrameBoard) (.start (Slave.idle []))
      [.upload .gvt (Slave.request 0x01 0x67 1), .upload .gvt (Slave.request 0x01 0x67 2),
        .download .gvt (Slave.dataFrame 0x61 1 0xAA)] := by
  have hlegal : Each (TransferEvent.step twoFrameBoard) TransferEvent.Legal (Slave.idle [])
      [.upload .gvt (Slave.request 0x01 0x67 1), .upload .gvt (Slave.request 0x01 0x67 2),
        .download .gvt (Slave.dataFrame 0x61 1 0xAA)] := by
    rw [Each.cons_iff, Each.cons_iff, Each.cons_iff]
    exact ⟨trivial, trivial, trivial, Each.nil⟩
  refine (unmixed_run_iff (fun _ => rfl) hlegal).mpr ?_
  rw [Each.cons_iff, Each.cons_iff, Each.cons_iff]
  refine ⟨fun hway => ?_, fun hway => ?_, fun hway => ?_, Each.nil⟩
  · exact absurd hway (by decide)
  · exact absurd hway (by decide)
  · exact absurd hway (by decide)

/-- A host requests the first frame of a file, and another downloads a second frame. -/
theorem downloadDuringUpload_mixes : ¬ ∀ es : List (TransferEvent Unit),
    Each (TransferEvent.step twoFrameBoard) TransferEvent.Legal (Slave.idle []) es →
      Each (Directed.step twoFrameBoard) (Directed.Unmixed twoFrameBoard)
        (.start (Slave.idle [])) es := by
  intro h
  have hlegal : Each (TransferEvent.step twoFrameBoard) TransferEvent.Legal (Slave.idle [])
      [.upload .gvt (Slave.request 0x01 0x67 1), .download .gvt (Slave.dataFrame 0x61 2 0xAA)] := by
    rw [Each.cons_iff, Each.cons_iff]
    exact ⟨trivial, trivial, Each.nil⟩
  have hall := h _ hlegal
  rw [Each.cons_iff, Each.cons_iff] at hall
  have hsame := hall.2.1 (by decide)
  have hcnt := congrArg (Option.map FileTrans.frameCnt) hsame
  exact absurd hcnt (by decide)

end Kalyke
