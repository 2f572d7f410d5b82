-- SUMMARY: A file requested frame by frame is delivered, with repeated requests, up to 256 frames.
import Mathlib.Data.List.Iterate
import Kalyke.Lib.Runs
import Kalyke.Modbus.Transfer

/-!
# Uploads Frame by Frame

A host requests the frames 1 to `0xFD` of a file over and over until a response has the number
`0xFE`, and requests a frame again where the response was lost. `mb_slave_upload_file` counts the
frames in 8 bits, finds a repeated frame by its number alone, and forgets the transfer with the last
frame. What it answers is a function of the transfer and of the number requested.
-/

namespace Kalyke

open List Function Option
open BitVec (toNat_add reduceToNat eq_of_toNat_eq toNat_sub)

/-! ## What a Request Comes To -/

/-- What a request comes to: a piece of the file with a number, an error, or as many bytes of the
buffer as a variable says that was never set. -/
inductive Reply where
  | piece (num : Byte) (data : List Byte)
  | refused
  | unset
deriving DecidableEq

namespace FileTrans

/-- The transfer that an upload of a stored file opens. -/
def opened (file : Buff) : FileTrans := ⟨0, 0, 0, file.fileLength, file, 0⟩

/-- The piece of the file at an offset, and the transfer that is left: none behind the last one. -/
def piece (t : FileTrans) (num : Byte) (offset : Nat) : Reply × Option FileTrans :=
  let (cnt, last) := Slave.pieceLen t offset
  let num := if last then 0xFE else num
  (.piece num (t.fileHandler.slice offset cnt.toNat), if num = 0xFE then none else some t)

/-- `mb_slave_upload_file`, on the transfer alone. -/
def reply (t : FileTrans) (num : Byte) : Reply × Option FileTrans :=
  let next := { t with preFrame := num, frameCnt := t.frameCnt + 1 }
  let offset := t.frameCnt.toNat * maxUploadFileLength
  if t.flag &&& 0x01 ≠ 0 then
    if num.toNat = t.preFrame.toNat + 1 ∨ num = 0xFE then next.piece num offset
    else if num = t.preFrame then t.piece num ((num - 1).toNat * maxUploadFileLength)
    else if num = 0x01 ∧ t.preFrame = 0xFD then next.countTurn.piece num offset
    else (.refused, some t)
  else if num = 0x01 ∨ num = 0xFE then
    { t with flag := t.flag ||| 0x01, preFrame := num, frameCnt := 1 }.piece num 0
  else (.unset, some t)

end FileTrans

/-- A request for a frame of a stored file comes. -/
def requested (file : Buff) (t : Option FileTrans) (num : Byte) : Reply × Option FileTrans :=
  (t.getD (FileTrans.opened file)).reply num

/-- What some requests come to. -/
def replies (file : Buff) (t : Option FileTrans) (nums : List Byte) : List Reply :=
  outputs (fun t n => (requested file t n).2) (fun t n => (requested file t n).1) t nums

/-- The response with a piece to a request that begins with three given bytes. -/
def pieceResp (heading : List Byte) (x : Byte × List Byte) : Resp :=
  .normal (withCrc (heading ++ x.1 :: x.2))

/-- The responses that a reply allows. -/
def Reply.Gives (x : FileFrame) (s : Stack) : Reply → List Resp → Prop
  | piece num data, rs => rs = [pieceResp (x.buff.bytes 3) (num, data)]
  | refused, rs => ∀ xs, rs ≠ [.normal xs]
  | unset, rs => ∃ xs, rs = [.normal xs] ∧
      (s.cnt.toNat + 6 < 2 ^ 16 → xs.length = s.cnt.toNat + 6)

variable {ω : Type}

namespace Slave

/-- Where the file lies that an upload finds. -/
def storedFile (b : Board ω) (f : DlFile) (s : Slave ω) : Buff :=
  b.userFile f
    (if f = .ucode ∨ f = .pid1 ∨ f = .pid2 then s.act b (.useFlashFile f) else s).world

def upload (b : Board ω) (f : DlFile) (s : Slave ω) (x : FileFrame) : Slave ω :=
  (s.hand x).mbSlaveUploadFile b x.pack f

/-- What is answered to a request. -/
def uploadAnswer (b : Board ω) (f : DlFile) (s : Slave ω) (x : FileFrame) : List Resp :=
  (s.upload b f x).sent.drop s.sent.length

/-- Requests for a file with their answers. Between them anything may happen that leaves the
transfer as it is; at each of them the file is the given one. -/
def UploadRun (b : Board ω) (f : DlFile) (file : Buff) :
    Slave ω → List (FileFrame × List Resp) → Slave ω → Prop :=
  EventRun (fun t t' => t'.files f = t.files f) (fun t y => t.upload b f y.1)
    (fun t y => t.storedFile b f = file ∧ t.uploadAnswer b f y.1 = y.2)

/-- No transfer of a file is under way, or one that has come to its first frame. -/
def UploadReady (b : Board ω) (f : DlFile) (s : Slave ω) : Prop :=
  ∀ t ∈ s.files f, t.fileHandler = s.storedFile b f ∧
    t.fileLen = (s.storedFile b f).fileLength ∧
    (t.started → t.preFrame = 0x01 ∧ t.frameCnt = 1)

/-- A host that requests the frames in order, each as often as a pattern says, gets the pieces of
the file: they are numbered 1 to `0xFD` over and over, the last has the number `0xFE`, one behind
the other they are the file, and to a request that is repeated the same piece comes again. -/
def Delivers (b : Board ω) (f : DlFile) (s : Slave ω) (addr sub : Byte) (r : Nat → Nat) : Prop :=
  ∃ ps : List (List Byte), ps ≠ [] ∧
    ps.flatten = (s.storedFile b f).bytes (s.storedFile b f).fileLength.toNat ∧
    ∀ ys s', UploadRun b f (s.storedFile b f) s ys s' →
      ys.map (fun y => y.1.buff.bytes 4) =
        (NumberedFrames.repeated r 0
          (iterate frameNumbers.next frameNumbers.first ps.length)).map
            ([addr, 0x69, sub, ·]) →
      ys.map Prod.snd =
        (NumberedFrames.repeated r 0
          (NumberedFrames.number frameNumbers frameNumbers.first ps)).map
            fun x => [pieceResp [addr, 0x69, sub] x]

end Slave

/-! ## The Function on the Transfer -/

namespace Slave

variable {b : Board ω} {f : DlFile}

/-- What an upload opens, and what that leaves. -/
theorem openUpload_eq (s : Slave ω) :
    (s.openUpload b f).1 = (s.files f).getD (FileTrans.opened (s.storedFile b f)) ∧
      (s.openUpload b f).2.files f = some (s.openUpload b f).1 ∧
      (s.openUpload b f).2.receiveBuff = s.receiveBuff ∧
      (s.openUpload b f).2.sent = s.sent ∧ (s.openUpload b f).2.stack = s.stack := by
  unfold openUpload
  cases h : s.files f with
  | some t => exact ⟨rfl, h, rfl, rfl, rfl⟩
  | none =>
    refine ⟨rfl, by simp, ?_⟩
    split_ifs <;> exact ⟨rfl, rfl, rfl⟩

theorem pieceLen_le (t : FileTrans) (offset : Nat) :
    (pieceLen t offset).1.toNat ≤ maxUploadFileLength := by
  unfold pieceLen
  dsimp only
  split_ifs with h
  · simp [maxUploadFileLength]
  · simp only [not_lt] at h
    exact (Nat.mod_le _ _).trans h

/-- A heading copied in front of data that is there already. -/
theorem bytes_copy_putList (resp src : Buff) (n : Nat) (data : List Byte) :
    ((resp.putList n data).copy src 0 n).bytes (n + data.length) = src.bytes n ++ data := by
  have hcomm : (resp.putList n data).copy src 0 n = (resp.copy src 0 n).putList n data := by
    funext k
    simp only [Buff.copy, Buff.putList]
    by_cases hk : n ≤ k
    · simp [show ¬ k < n by omega]
    · simp [hk]
  rw [hcomm, Buff.bytes_putList, Buff.bytes_copy]

/-- The number in the heading of a piece. -/
theorem bytes_mark (recv : Buff) (last : Bool) :
    Buff.bytes (if last then recv.put 3 0xFE else recv) 4 =
      recv.bytes 3 ++ [if last then 0xFE else recv 3] := by
  cases last <;> simp [Buff.bytes, range_succ, Buff.put, update]

theorem sendPiece_sent (s : Slave ω) (m : MsgPack) (t : FileTrans) (offset : Nat) :
    (s.sendPiece m f t offset).sent =
      s.sent ++ [pieceResp (s.receiveBuff.bytes 3)
        (if (pieceLen t offset).2 then 0xFE else s.frameNum,
          t.fileHandler.slice offset (pieceLen t offset).1.toNat)] := by
  have hle := pieceLen_le t offset
  unfold sendPiece
  generalize pieceLen t offset = piece at hle ⊢
  obtain ⟨cnt, last⟩ := piece
  dsimp only [maxUploadFileLength] at hle
  have hcnt : (cnt + 4).toNat = 4 + cnt.toNat := by
    simp only [toNat_add, reduceToNat]
    omega
  have hdata : (t.fileHandler.slice offset cnt.toNat).length = cnt.toNat := by
    simp [Buff.slice]
  have hbytes := bytes_copy_putList s.respBuff (if last then s.receiveBuff.put 3 0xFE
    else s.receiveBuff) 4 (t.fileHandler.slice offset cnt.toNat)
  rw [hdata, bytes_mark] at hbytes
  rw [mbSlaveVerifyRespMsg_sent _ _ (by rw [hcnt]; omega), hcnt]
  simp only [pieceResp, frameNum, append_assoc, cons_append, nil_append] at hbytes ⊢
  rw [← hbytes]
  cases last <;> simp only [Bool.false_eq_true, if_true, if_false] <;> split <;> rfl

theorem sendPiece_files (s : Slave ω) (m : MsgPack) (t : FileTrans) (offset : Nat) :
    (s.sendPiece m f t offset).files f = (t.piece s.frameNum offset).2 := by
  unfold sendPiece FileTrans.piece
  generalize pieceLen t offset = piece
  obtain ⟨cnt, last⟩ := piece
  cases last
  · simp only [Bool.false_eq_true, if_false]
    split_ifs with h h' h'
    · simp [mbSlaveVerifyRespMsg, copyRequest, freeUpload]
    · exact absurd h h'
    · exact absurd h' h
    · simp [mbSlaveVerifyRespMsg, copyRequest, putResp]
  · simp only [if_true]
    rw [if_pos (by simp [frameNum, Buff.put])]
    simp [mbSlaveVerifyRespMsg, copyRequest, freeUpload]

/-- The length of a response of any bytes. -/
theorem verify_length (s : Slave ω) (m : MsgPack) (respLen : BitVec 16) :
    ∃ xs, (s.mbSlaveVerifyRespMsg m respLen).sent = s.sent ++ [.normal xs] ∧
      xs.length = (respLen + 2).toNat := by
  simp only [mbSlaveVerifyRespMsg, MsgPack.callRespFuncs_eq]
  exact ⟨_, rfl, Buff.length_bytes _ _⟩

/-- A transfer's piece is sent as the transfer says. -/
theorem sendPiece_gives (s : Slave ω) (x : FileFrame) (stack : Stack) (t : FileTrans) (offset : Nat)
    (hs : s.receiveBuff = x.buff) :
    ∃ rs, (s.sendPiece x.pack f t offset).sent = s.sent ++ rs ∧
      (t.piece x.num offset).1.Gives x stack rs ∧
      (s.sendPiece x.pack f t offset).files f = (t.piece x.num offset).2 := by
  have hnum : s.frameNum = x.num := congrFun hs 3
  refine ⟨_, sendPiece_sent s x.pack t offset, ?_, hnum ▸ sendPiece_files s x.pack t offset⟩
  rw [hs, hnum]
  rfl

/-- What a request comes to, and what it leaves of the transfer. -/
theorem upload_gives (s : Slave ω) (x : FileFrame) :
    (requested (s.storedFile b f) (s.files f) x.num).1.Gives x s.stack (s.uploadAnswer b f x) ∧
      (s.upload b f x).files f = (requested (s.storedFile b f) (s.files f) x.num).2 := by
  have hopen := openUpload_eq (b := b) (f := f) (s.hand x)
  suffices h : ∃ rs, (s.upload b f x).sent = s.sent ++ rs ∧
      (requested (s.storedFile b f) (s.files f) x.num).1.Gives x s.stack rs ∧
      (s.upload b f x).files f = (requested (s.storedFile b f) (s.files f) x.num).2 by
    obtain ⟨rs, hsent, hgives, hfiles⟩ := h
    rw [uploadAnswer, hsent, drop_left]
    exact ⟨hgives, hfiles⟩
  have hstored : (s.hand x).storedFile b f = s.storedFile b f := by
    unfold storedFile
    split_ifs <;> rfl
  rw [hstored] at hopen
  unfold upload mbSlaveUploadFile requested
  change (_ = (s.files f).getD _ ∧ _) at hopen
  generalize ((s.hand x).openUpload b f) = opened at hopen ⊢
  obtain ⟨t, s'⟩ := opened
  obtain ⟨rfl, hfiles, hrecv, hsent, hstack⟩ := hopen
  have hnum : s'.frameNum = x.num := congrFun hrecv 3
  have hrecv' : s'.receiveBuff = x.buff := hrecv
  have hsent' : s'.sent = s.sent := hsent
  have hstack' : s'.stack = s.stack := hstack
  dsimp only
  unfold FileTrans.reply
  rw [hnum, ← hsent', ← hstack']
  split_ifs
  · exact sendPiece_gives s' x _ _ _ hrecv'
  · exact sendPiece_gives s' x _ _ _ hrecv'
  · exact sendPiece_gives s' x _ _ _ hrecv'
  · refine ⟨_, mbSlaveErrorResp_sent s' x.pack _, fun xs h => ?_, ?_⟩
    · split_ifs at h
      simp at h
    · unfold mbSlaveErrorResp
      split_ifs <;> exact hfiles
  · exact sendPiece_gives s' x _ _ _ hrecv'
  · obtain ⟨xs, hxs, hlen⟩ := verify_length (s'.copyRequest 4) x.pack (s'.stack.cnt + 4)
    refine ⟨_, hxs, ⟨xs, rfl, fun hcnt => ?_⟩, hfiles⟩
    rw [hlen]
    simp only [toNat_add, reduceToNat]
    omega

/-! ## Runs on the Transfer -/

/-- The first bytes of a request. -/
theorem heading_eq {x : FileFrame} {addr sub num : Byte}
    (h : x.buff.bytes 4 = [addr, 0x69, sub, num]) :
    x.buff.bytes 3 = [addr, 0x69, sub] ∧ x.num = num := by
  simp only [Buff.bytes, range_succ, range_zero, nil_append, cons_append,
    map_cons, map_nil, cons.injEq, and_true] at h ⊢
  exact ⟨⟨h.1, h.2.1, h.2.2.1⟩, h.2.2.2⟩

def request (addr sub num : Byte) : FileFrame :=
  ⟨comMsg 6, fun i => [addr, 0x69, sub, num].getD i 0⟩

theorem bytes_request (addr sub num : Byte) :
    (request addr sub num).buff.bytes 4 = [addr, 0x69, sub, num] := rfl

theorem withCrc_injective : Injective withCrc := by
  intro xs ys h
  exact (append_inj' h rfl).1

theorem pieceResp_injective (heading : List Byte) : Injective (pieceResp heading) := by
  rintro ⟨n, xs⟩ ⟨k, ys⟩ h
  have hframe : withCrc (heading ++ n :: xs) = withCrc (heading ++ k :: ys) := by
    simpa [pieceResp] using h
  have := append_cancel_left (withCrc_injective hframe)
  simpa using this

section Runs

variable {file : Buff} {s s' s₀ : Slave ω} {addr sub : Byte}

/-- The numbers of requests, from their first bytes. -/
theorem nums_of_headings {xs : List FileFrame} {nums : List Byte}
    (h : xs.map (fun x => x.buff.bytes 4) = nums.map ([addr, 0x69, sub, ·])) :
    xs.map FileFrame.num = nums ∧ ∀ x ∈ xs, x.buff.bytes 3 = [addr, 0x69, sub] := by
  induction xs generalizing nums with
  | nil =>
    rw [map_nil, eq_comm, map_eq_nil_iff] at h
    subst h
    exact ⟨rfl, by simp⟩
  | cons x xs ih =>
    obtain _ | ⟨num, nums⟩ := nums
    · simp at h
    rw [map_cons, map_cons, cons.injEq] at h
    obtain ⟨hheading, hnum⟩ := heading_eq h.1
    obtain ⟨hnums, hmem⟩ := ih h.2
    refine ⟨by rw [map_cons, hnum, hnums], fun y hy => ?_⟩
    rcases mem_cons.mp hy with rfl | hy
    · exact hheading
    · exact hmem y hy

/-- Where every request comes to a piece, the pieces are the answers of every run. -/
theorem UploadRun.answers {ys : List (FileFrame × List Resp)} {nums : List Byte}
    {es : List (Byte × List Byte)} (h : UploadRun b f file s ys s')
    (hnums : ys.map (fun y => y.1.buff.bytes 4) = nums.map ([addr, 0x69, sub, ·]))
    (hes : replies file (s.files f) nums = es.map fun x => .piece x.1 x.2) :
    ys.map Prod.snd = es.map fun x => [pieceResp [addr, 0x69, sub] x] := by
  obtain ⟨-, hgives⟩ := EventRun.answers (fun t x => (requested file t x.num).2)
    (fun t x => (requested file t x.num).1) h (fun t => t.files f)
    (fun x o rs => ∃ st : Stack, o.Gives x st rs) (fun _ _ ht => ht) (by
      rintro t y ⟨hfile, hy⟩
      obtain ⟨hgives, hfiles⟩ := upload_gives (b := b) (f := f) t y.1
      rw [hfile] at hgives hfiles
      exact ⟨⟨_, hy ▸ hgives⟩, hfiles⟩)
  have hheadings : (ys.map Prod.fst).map (fun x => x.buff.bytes 4) =
      nums.map ([addr, 0x69, sub, ·]) := by rwa [List.map_map]
  obtain ⟨hnum, hheading⟩ := nums_of_headings hheadings
  rw [outputs_map (fun t n => (requested file t n).2) (fun t n => (requested file t n).1)
    FileFrame.num, hnum] at hgives
  change Forall₂ _ ys (replies file (s.files f) nums) at hgives
  rw [hes, forall₂_map_right_iff] at hgives
  clear hes hnum hnums hheadings h
  induction hgives with
  | nil => rfl
  | @cons y e ys es hy _ ih =>
    obtain ⟨_, hy⟩ := hy
    rw [map_cons, map_cons, ih fun x hx => hheading x (mem_cons_of_mem _ hx)]
    rw [Reply.Gives, hheading y.1 (by simp)] at hy
    rw [hy]

/-- A run with one request, before which the local variables hold anything. -/
theorem exists_run (hs : s₀.storedFile b f = file) (st : Stack) (x : FileFrame) :
    ∃ rs u, UploadRun b f file s [(x, rs)] u ∧
      (requested file (s.files f) x.num).1.Gives x st rs ∧
      u.files f = (requested file (s.files f) x.num).2 := by
  have hfile : ({ s₀ with files := s.files, stack := st } : Slave ω).storedFile b f = file := by
    rw [← hs]
    unfold storedFile
    split_ifs <;> rfl
  obtain ⟨hgives, hfiles⟩ :=
    upload_gives (b := b) (f := f) { s₀ with files := s.files, stack := st } x
  rw [hfile] at hgives hfiles
  refine ⟨_, _, ?_, hgives, hfiles⟩
  have hidle : UploadRun b f file s [] { s₀ with files := s.files, stack := st } :=
    .idle .start rfl
  exact .event (x, _) hidle ⟨hfile, rfl⟩

theorem exists_runs (hs : s₀.storedFile b f = file) (st : Stack) (xs : List FileFrame) :
    ∃ ys u, UploadRun b f file s ys u ∧ ys.map Prod.fst = xs := by
  induction xs generalizing s with
  | nil => exact ⟨[], s, .start, rfl⟩
  | cons x xs ih =>
    obtain ⟨rs, t, hrun, -⟩ := exists_run (b := b) (f := f) (s := s) hs st x
    obtain ⟨ys, u, hruns, rfl⟩ := ih (s := t)
    exact ⟨_, u, EventRun.trans hrun hruns, rfl⟩

/-- Where some pieces are the answers of every run, every request comes to its piece. -/
theorem replies_of_answers (hs : s₀.storedFile b f = file) {nums : List Byte}
    {es : List (Byte × List Byte)}
    (h : ∀ ys s', UploadRun b f file s ys s' →
      ys.map (fun y => y.1.buff.bytes 4) = nums.map ([addr, 0x69, sub, ·]) →
      ys.map Prod.snd = es.map fun x => [pieceResp [addr, 0x69, sub] x]) :
    replies file (s.files f) nums = es.map fun x => .piece x.1 x.2 := by
  induction nums generalizing s es with
  | nil =>
    have hnil := h [] s .start rfl
    rw [map_nil, eq_comm, map_eq_nil_iff] at hnil
    rw [hnil]
    rfl
  | cons n nums ih =>
    -- A run answers the request in some way, goes on with the others, and so has these answers.
    have hany : ∀ st : Stack, ∃ u, UploadRun b f file s [(request addr sub n,
          ((es.map fun x => [pieceResp [addr, 0x69, sub] x]).headD []))] u ∧ es ≠ [] ∧
        (requested file (s.files f) n).1.Gives (request addr sub n) st
          ((es.map fun x => [pieceResp [addr, 0x69, sub] x]).headD []) ∧
        u.files f = (requested file (s.files f) n).2 := by
      intro st
      obtain ⟨rs, u, hrun, hgives, hfiles⟩ :=
        exists_run (b := b) (f := f) (s := s) hs st (request addr sub n)
      obtain ⟨ys, t, hruns, hys⟩ :=
        exists_runs (b := b) (f := f) (s := u) hs st (nums.map (request addr sub))
      have hall := h _ _ (EventRun.trans hrun hruns) (by
        rw [cons_append, nil_append, map_cons]
        have hmap : ys.map (fun y => y.1.buff.bytes 4) =
            (ys.map Prod.fst).map fun x => x.buff.bytes 4 := by
          rw [List.map_map]
          rfl
        rw [hmap, hys, List.map_map]
        rfl)
      obtain _ | ⟨e, es⟩ := es
      · simp at hall
      · rw [cons_append, map_cons, map_cons, cons.injEq] at hall
        obtain ⟨rfl, -⟩ := hall
        exact ⟨u, hrun, cons_ne_nil _ _, hgives, hfiles⟩
    obtain _ | ⟨e, es⟩ := es
    · obtain ⟨-, -, hne, -⟩ := hany ⟨0, 0, 0, 0, 0⟩
      exact absurd rfl hne
    simp only [map_cons, headD_cons] at hany
    have hhead : (requested file (s.files f) n).1 = .piece e.1 e.2 := by
      cases ho : (requested file (s.files f) n).1 with
      | piece num data =>
        obtain ⟨-, -, -, hgives, -⟩ := hany ⟨0, 0, 0, 0, 0⟩
        rw [ho, Reply.Gives, cons.injEq] at hgives
        have heq : e = (num, data) := pieceResp_injective _ hgives.1
        rw [heq]
      | refused =>
        obtain ⟨-, -, -, hgives, -⟩ := hany ⟨0, 0, 0, 0, 0⟩
        rw [ho] at hgives
        exact absurd rfl (hgives _)
      | unset =>
        -- The variable that was never set may hold another number than that of the piece.
        obtain ⟨-, -, -, hgives, -⟩ := hany ⟨0, 0, 0, 0, if e.2 = [] then 1 else 0⟩
        rw [ho] at hgives
        obtain ⟨xs, hxs, hlen⟩ := hgives
        have hframe : withCrc ([addr, 0x69, sub] ++ e.1 :: e.2) = xs := by
          simpa [pieceResp] using hxs
        rw [← hframe] at hlen
        by_cases hnil : e.2 = []
        · simp [hnil, withCrc] at hlen
        · simp [hnil, withCrc] at hlen
    obtain ⟨u, hrun, -, -, hfiles⟩ := hany ⟨0, 0, 0, 0, 0⟩
    have htail := @ih u es (fun ys s' hys hnums => by
      have hall := h _ _ (EventRun.trans hrun hys) (by
        rw [cons_append, nil_append, map_cons, map_cons, bytes_request, hnums])
      rw [cons_append, map_cons, map_cons, cons.injEq] at hall
      exact hall.2)
    rw [hfiles] at htail
    calc replies file (s.files f) (n :: nums)
        = (requested file (s.files f) n).1 ::
            replies file (requested file (s.files f) n).2 nums := rfl
      _ = (e :: es).map fun x => .piece x.1 x.2 := by rw [hhead, htail]; rfl

end Runs

end Slave

/-! ## The Frames of a File -/

/-- The number of frames of a file; of an empty one there is one. -/
def frameTotal (file : Buff) : Nat :=
  max 1 ((file.fileLength.toNat + (maxUploadFileLength - 1)) / maxUploadFileLength)

def frameNumber (k : Nat) : Byte := frameNumbers.next^[k] frameNumbers.first

theorem frameNumber_succ (k : Nat) : frameNumber (k + 1) = frameNumbers.next (frameNumber k) :=
  iterate_succ_apply' _ _ _

theorem toNat_frameNumber (k : Nat) : (frameNumber k).toNat = k % 253 + 1 := by
  induction k with
  | zero => rfl
  | succ k ih =>
    rw [frameNumber_succ]
    simp only [frameNumbers]
    split_ifs with h
    · rw [h] at ih
      simp only [reduceToNat] at ih ⊢
      omega
    · have hne : (frameNumber k).toNat ≠ 253 := fun h' => h (eq_of_toNat_eq h')
      rw [toNat_add]
      simp only [reduceToNat]
      omega

theorem frameNumber_ne_last (k : Nat) : frameNumber k ≠ 0xFE := by
  intro h
  have := toNat_frameNumber k
  rw [h] at this
  simp only [reduceToNat] at this
  omega

namespace FileTrans

/-- A transfer uploads a stored file. -/
def Uploads (file : Buff) (t : FileTrans) : Prop :=
  t.fileHandler = file ∧ t.fileLen = file.fileLength

/-- The frame at `k` is the last that was sent of a file. -/
structure Sent (file : Buff) (k : Nat) (t : FileTrans) : Prop where
  uploads : t.Uploads file
  started : t.started
  preFrame : t.preFrame = frameNumber k
  frameCnt : t.frameCnt.toNat = (k + 1) % 256

/-- The frame at `k` is the next of a file, or, where it is the first, was sent already. -/
def Before (file : Buff) (k : Nat) (o : Option FileTrans) : Prop :=
  match k with
  | 0 => ∀ t ∈ o, t.Uploads file ∧ (t.started → t.preFrame = 0x01 ∧ t.frameCnt = 1)
  | k + 1 => ∃ t, o = some t ∧ t.Sent file k

theorem uploads_opened (file : Buff) : (opened file).Uploads file := ⟨rfl, rfl⟩

variable {file : Buff} {t : FileTrans} {num : Byte} {offset k : Nat}

theorem Uploads.rest (ht : t.Uploads file) (hle : offset ≤ file.fileLength.toNat) :
    (t.fileLen - BitVec.ofNat 32 offset).toNat = file.fileLength.toNat - offset := by
  rw [ht.2, toNat_sub, BitVec.toNat_ofNat]
  omega

theorem Uploads.piece_middle (ht : t.Uploads file)
    (h : offset + maxUploadFileLength < file.fileLength.toNat) :
    t.piece num offset = (.piece num (file.slice offset maxUploadFileLength),
      if num = 0xFE then none else some t) := by
  have hpiece : Slave.pieceLen t offset = (BitVec.ofNat 16 maxUploadFileLength, false) :=
    if_pos (by rw [ht.rest (by omega)]; omega)
  unfold piece
  rw [hpiece, ht.1]
  rfl

theorem Uploads.piece_last (ht : t.Uploads file) (hle : offset ≤ file.fileLength.toNat)
    (h : file.fileLength.toNat ≤ offset + maxUploadFileLength) :
    t.piece num offset =
      (.piece 0xFE (file.slice offset (file.fileLength.toNat - offset)), none) := by
  have hrest := ht.rest hle
  have hpiece : Slave.pieceLen t offset =
      ((t.fileLen - BitVec.ofNat 32 offset).setWidth 16, true) := if_neg (by rw [hrest]; omega)
  unfold piece
  rw [hpiece, ht.1]
  dsimp only [maxUploadFileLength] at h
  simp only [if_true, BitVec.toNat_setWidth, hrest]
  rw [Nat.mod_eq_of_lt (by omega)]

theorem flag_first : ∀ x : Byte, (x ||| 0x01) &&& 0x01 ≠ 0 := by decide

theorem started_iff : t.started ↔ t.flag &&& 0x01 ≠ 0 := decide_eq_true_iff

theorem Sent.requested (h : t.Sent file k) :
    requested file (some t) (frameNumber k) =
      t.piece (frameNumber k) (k % 253 * maxUploadFileLength) := by
  have hnum := toNat_frameNumber k
  have hoffset : (frameNumber k - 1).toNat = k % 253 := by
    rw [toNat_sub]
    simp only [reduceToNat]
    omega
  have hflag := started_iff.mp h.started
  have hnext : ¬ ((frameNumber k).toNat = t.preFrame.toNat + 1 ∨ frameNumber k = 0xFE) := by
    rw [h.preFrame]
    rintro (h | h)
    · omega
    · exact frameNumber_ne_last k h
  rw [Kalyke.requested, getD_some, reply, if_pos hflag, if_neg hnext,
    if_pos h.preFrame.symm, hoffset]

/-- The frame that is next. -/
theorem Before.requested {o : Option FileTrans} (h : Before file k o) (hk : k ≤ 255) :
    ∃ u : FileTrans, u.Sent file k ∧ Kalyke.requested file o (frameNumber k) =
      u.piece (frameNumber k) (k * maxUploadFileLength) := by
  cases k with
  | zero =>
    have hup : (o.getD (opened file)).Uploads file := by
      cases o with
      | none => exact uploads_opened file
      | some t => exact (h t rfl).1
    by_cases hstarted : (o.getD (opened file)).started
    · obtain ⟨t, rfl⟩ : ∃ t, o = some t := by
        cases o with
        | none => simp [opened, started] at hstarted
        | some t => exact ⟨t, rfl⟩
      obtain ⟨-, hpre⟩ := h t rfl
      obtain ⟨hpreFrame, hcnt⟩ := hpre hstarted
      have hsent : t.Sent file 0 := ⟨hup, hstarted, hpreFrame, by rw [hcnt]; rfl⟩
      exact ⟨t, hsent, hsent.requested⟩
    · generalize ht : o.getD (opened file) = t at hup hstarted
      refine ⟨{ t with flag := t.flag ||| 0x01, preFrame := 0x01, frameCnt := 1 },
        ⟨hup, started_iff.mpr (flag_first t.flag), rfl, rfl⟩, ?_⟩
      · rw [Kalyke.requested, ht, reply, if_neg (fun h => hstarted (started_iff.mpr h)),
          if_pos (.inl rfl)]
        rfl
  | succ k =>
    obtain ⟨t, rfl, ht⟩ := h
    have hnum := toNat_frameNumber k
    have hnum' := toNat_frameNumber (k + 1)
    have hcnt : t.frameCnt.toNat = k + 1 := by rw [ht.frameCnt]; omega
    have hcnt' : (t.frameCnt + 1).toNat = (k + 2) % 256 := by
      rw [toNat_add, hcnt]
      rfl
    rw [Kalyke.requested, getD_some, reply, if_pos (started_iff.mp ht.started), hcnt]
    by_cases hturn : k % 253 = 252
    · have hone : frameNumber (k + 1) = 0x01 := eq_of_toNat_eq (by rw [hnum']; simp; omega)
      have hfd : t.preFrame = 0xFD := eq_of_toNat_eq (by rw [ht.preFrame, hnum, hturn]; rfl)
      rw [hone, if_neg (by rw [hfd]; decide), if_neg (by rw [hfd]; decide), if_pos ⟨rfl, hfd⟩]
      exact ⟨FileTrans.countTurn { t with preFrame := 0x01, frameCnt := t.frameCnt + 1 },
        ⟨ht.uploads, (countTurn_started _).trans ht.started, hone.symm, hcnt'⟩, rfl⟩
    · rw [if_pos (.inl (by rw [ht.preFrame]; omega))]
      exact ⟨{ t with preFrame := frameNumber (k + 1), frameCnt := t.frameCnt + 1 },
        ⟨ht.uploads, ht.started, rfl, hcnt'⟩, rfl⟩

/-! ## A Frame and its Repetitions -/

/-- A frame before the last: what its requests come to, and the transfer they leave. -/
theorem Before.middle {o : Option FileTrans} (h : Before file k o) (hk : k ≤ 255)
    (hlen : (k + 1) * maxUploadFileLength < file.fileLength.toNat) (n : Nat) :
    ∃ u : FileTrans, u.Sent file k ∧
      replies file o (replicate (n + 1) (frameNumber k)) =
        .piece (frameNumber k) (file.slice (k * maxUploadFileLength) maxUploadFileLength) ::
          replicate n (.piece (frameNumber k)
            (file.slice (k % 253 * maxUploadFileLength) maxUploadFileLength)) ∧
      (replicate (n + 1) (frameNumber k)).foldl (fun t n => (Kalyke.requested file t n).2) o =
        some u := by
  obtain ⟨u, hu, hreq⟩ := h.requested hk
  have hagain := hu.requested
  dsimp only [maxUploadFileLength] at hlen
  rw [hu.uploads.piece_middle (by dsimp only [maxUploadFileLength]; omega),
    if_neg (frameNumber_ne_last k)] at hreq hagain
  obtain ⟨hrest, hleft⟩ := outputs_replicate (fun t n => (Kalyke.requested file t n).2)
    (fun t n => (Kalyke.requested file t n).1) (a := some u) (x := frameNumber k)
    (by rw [hagain]) n
  refine ⟨u, hu, ?_, ?_⟩
  · rw [replicate_succ, replies, outputs, hreq, hrest, hagain]
  · rw [replicate_succ, foldl_cons, hreq, hleft]

/-- The last frame: behind it there is no transfer. -/
theorem Before.last {o : Option FileTrans} (h : Before file k o) (hk : k ≤ 255)
    (hle : k * maxUploadFileLength ≤ file.fileLength.toNat)
    (hlen : file.fileLength.toNat ≤ (k + 1) * maxUploadFileLength) :
    Kalyke.requested file o (frameNumber k) =
      (.piece 0xFE (file.slice (k * maxUploadFileLength)
        (file.fileLength.toNat - k * maxUploadFileLength)), none) := by
  obtain ⟨u, hu, hreq⟩ := h.requested hk
  rw [hreq, hu.uploads.piece_last hle]
  dsimp only [maxUploadFileLength] at hlen ⊢
  omega

/-- A file with several frames that is not under way: what a request comes to does not have the
number of a last frame. -/
theorem requested_none (hlen : maxUploadFileLength < file.fileLength.toNat) (hnum : num ≠ 0xFE)
    (data : List Byte) : (Kalyke.requested file none num).1 ≠ .piece 0xFE data := by
  rw [Kalyke.requested, getD_none, reply, if_neg (by simp [opened])]
  split_ifs with h
  · obtain rfl := h.resolve_right hnum
    have hup : Uploads file { opened file with
        flag := (opened file).flag ||| 0x01, preFrame := 0x01, frameCnt := 1 } := ⟨rfl, rfl⟩
    rw [hup.piece_middle (by omega)]
    simp
  · simp

/-- The offset of every frame is a small number, so of a large file no frame is the last. -/
theorem Uploads.reply_long (ht : t.Uploads file)
    (hlen : 256 * maxUploadFileLength < file.fileLength.toNat) (hnum : num ≠ 0xFE) :
    (∀ data, (t.reply num).1 ≠ .piece 0xFE data) ∧
      ∀ u ∈ (t.reply num).2, u.Uploads file := by
  have hpiece : ∀ (u : FileTrans) (c : Byte), u.Uploads file →
      (∀ data, (u.piece num (c.toNat * maxUploadFileLength)).1 ≠ .piece 0xFE data) ∧
        ∀ v ∈ (u.piece num (c.toNat * maxUploadFileLength)).2, v.Uploads file := by
    intro u c hu
    dsimp only [maxUploadFileLength] at hlen
    rw [hu.piece_middle (by dsimp only [maxUploadFileLength]; omega), if_neg hnum]
    refine ⟨fun data h => ?_, fun v hv => ?_⟩
    · simp only [Reply.piece.injEq] at h
      exact hnum h.1
    · obtain rfl := mem_some_iff.mp hv
      exact hu
  have hkeep : ∀ u ∈ some t, u.Uploads file := by
    intro u hu
    obtain rfl := mem_some_iff.mp hu
    exact ht
  unfold reply
  split_ifs
  · exact hpiece _ _ ht
  · exact hpiece _ _ ht
  · exact hpiece _ _ ht
  · exact ⟨fun data h => by simp at h, hkeep⟩
  · have := hpiece { t with flag := t.flag ||| 0x01, preFrame := num, frameCnt := 1 } 0 ht
    simpa using this
  · exact ⟨fun data h => by simp at h, hkeep⟩

end FileTrans

/-! ## When the File is Delivered -/

/-- The rest of a file from a frame on is delivered, on the transfer alone. -/
def DeliversFrom (file : Buff) (r : Nat → Nat) (k : Nat) (o : Option FileTrans) : Prop :=
  ∃ ps : List (List Byte), ps ≠ [] ∧
    ps.flatten = file.slice (k * maxUploadFileLength)
      (file.fileLength.toNat - k * maxUploadFileLength) ∧
    replies file o (NumberedFrames.repeated r k
      (iterate frameNumbers.next (frameNumber k) ps.length)) =
      (NumberedFrames.repeated r k (NumberedFrames.number frameNumbers (frameNumber k) ps)).map
        fun x => .piece x.1 x.2

/-- The repetitions of a frame are answered with the same piece: the last is not repeated, and where
the numbers have come to be used again the piece with the number was the same. -/
def Repeatable (file : Buff) (r : Nat → Nat) (k : Nat) : Prop :=
  0 < r k →
    if k + 1 = frameTotal file then k = 0
    else file.slice (k * maxUploadFileLength) maxUploadFileLength =
      file.slice (k % 253 * maxUploadFileLength) maxUploadFileLength

section Delivered

variable {file : Buff} {r : Nat → Nat} {k : Nat} {o : Option FileTrans}

theorem slice_append (xs : Buff) (i m n : Nat) :
    xs.slice i m ++ xs.slice (i + m) n = xs.slice i (m + n) := by
  simp only [Buff.slice, range_add, map_append, List.map_map, comp_def,
    Nat.add_assoc]

theorem replies_append (xs ys : List Byte) :
    replies file o (xs ++ ys) =
      replies file o xs ++ replies file (xs.foldl (fun t n => (requested file t n).2) o) ys :=
  outputs_append xs ys

theorem replies_cons (num : Byte) (nums : List Byte) :
    replies file o (num :: nums) =
      (requested file o num).1 :: replies file (requested file o num).2 nums := rfl

/-- Where a frame lies, by the number of frames. -/
theorem last_bounds (hlast : k + 1 = frameTotal file) :
    k * maxUploadFileLength ≤ file.fileLength.toNat ∧
      file.fileLength.toNat ≤ (k + 1) * maxUploadFileLength ∧
      (k ≠ 0 → maxUploadFileLength < file.fileLength.toNat) := by
  dsimp only [frameTotal, maxUploadFileLength] at hlast ⊢
  omega

theorem middle_bounds (h : k + 1 < frameTotal file) :
    (k + 1) * maxUploadFileLength < file.fileLength.toNat := by
  dsimp only [frameTotal, maxUploadFileLength] at h ⊢
  omega

/-- The first frame of some that are requested. -/
theorem repeated_cons {β : Type} (x : β) (xs : List β) :
    NumberedFrames.repeated r k (x :: xs) =
      x :: (replicate (r k) x ++ NumberedFrames.repeated r (k + 1) xs) := by
  rw [NumberedFrames.repeated, replicate_succ, cons_append]

theorem deliversFrom_last (h : FileTrans.Before file k o) (hk : k ≤ 255)
    (hlast : k + 1 = frameTotal file) : DeliversFrom file r k o ↔ Repeatable file r k := by
  obtain ⟨hle, hlen, hfile⟩ := last_bounds hlast
  have hreq := h.last hk hle hlen
  rw [Repeatable, if_pos hlast]
  constructor
  · rintro ⟨ps, hps, -, hreplies⟩ hr
    by_contra hne
    obtain ⟨n, hn⟩ := Nat.exists_eq_succ_of_ne_zero hr.ne'
    obtain _ | ⟨p, _ | ⟨q, ps⟩⟩ := ps
    · exact hps rfl
    · -- The transfer is gone, and what comes in its place has another number.
      simp only [length_cons, iterate, NumberedFrames.number, repeated_cons, hn,
        replicate_succ, cons_append, replies_cons, hreq, map_cons,
        cons.injEq] at hreplies
      exact FileTrans.requested_none (hfile hne) (frameNumber_ne_last k) p hreplies.2.1
    · simp only [length_cons, iterate, NumberedFrames.number, repeated_cons, replies_cons,
        hreq, map_cons, cons.injEq, Reply.piece.injEq] at hreplies
      exact frameNumber_ne_last k hreplies.1.1.symm
  · intro hrep
    have hagain : replies file none (replicate (r k) (frameNumber k)) =
        replicate (r k) (.piece 0xFE (file.slice (k * maxUploadFileLength)
          (file.fileLength.toNat - k * maxUploadFileLength))) := by
      rcases Nat.eq_zero_or_pos (r k) with hzero | hpos
      · rw [hzero]
        rfl
      · obtain rfl := hrep hpos
        have hnone : FileTrans.Before file 0 none := by simp [FileTrans.Before]
        have hreq := hnone.last hk hle hlen
        rw [replies, (outputs_replicate _ _ (by rw [hreq]) _).1, hreq]
    refine ⟨[_], cons_ne_nil _ _, flatten_singleton, ?_⟩
    rw [length_singleton, iterate, iterate, NumberedFrames.number, repeated_cons,
      repeated_cons, replies_cons, hreq, NumberedFrames.repeated, NumberedFrames.repeated,
      append_nil, append_nil, hagain, map_cons, map_replicate]
    rfl

/-- The file from a frame on is that frame and what follows. -/
theorem slice_middle (h : (k + 1) * maxUploadFileLength < file.fileLength.toNat) :
    file.slice (k * maxUploadFileLength) (file.fileLength.toNat - k * maxUploadFileLength) =
      file.slice (k * maxUploadFileLength) maxUploadFileLength ++
        file.slice ((k + 1) * maxUploadFileLength)
          (file.fileLength.toNat - (k + 1) * maxUploadFileLength) := by
  generalize maxUploadFileLength = m at h ⊢
  rw [Nat.add_mul, Nat.one_mul] at h ⊢
  rw [slice_append]
  congr 1
  omega

/-- What the requests for a frame come to is its piece each time, where its repetitions do. -/
theorem repeated_pieces_iff {num : Byte} {p d d' : List Byte} (n : Nat) :
    Reply.piece num d :: replicate n (.piece num d') =
        replicate (n + 1) (.piece num p) ↔ d = p ∧ (0 < n → d' = p) := by
  rw [replicate_succ, cons.injEq, replicate_inj]
  simp only [true_and, Reply.piece.injEq, Nat.pos_iff_ne_zero]
  exact and_congr_right fun _ => or_iff_not_imp_left

theorem deliversFrom_middle (h : FileTrans.Before file k o) (hk : k ≤ 255)
    (hlast : k + 1 < frameTotal file) :
    ∃ u, FileTrans.Before file (k + 1) u ∧
      (DeliversFrom file r k o ↔ Repeatable file r k ∧ DeliversFrom file r (k + 1) u) := by
  have hlen := middle_bounds hlast
  obtain ⟨u, hu, hreps, hleft⟩ := h.middle hk hlen (r k)
  have hslice := slice_middle hlen
  refine ⟨some u, ⟨u, rfl, hu⟩, ?_⟩
  rw [Repeatable, if_neg (by omega)]
  generalize file.slice (k * maxUploadFileLength) maxUploadFileLength = d at hreps hslice ⊢
  generalize file.slice (k % 253 * maxUploadFileLength) maxUploadFileLength = d' at hreps ⊢
  rw [DeliversFrom, hslice]
  -- The requests for the frame are split off.
  have hsplit : ∀ n, replies file o (NumberedFrames.repeated r k
      (iterate frameNumbers.next (frameNumber k) (n + 1))) = _ := fun n => by
    rw [iterate, NumberedFrames.repeated, replies_append, hreps, hleft]
  constructor
  · rintro ⟨ps, hps, hflat, hreplies⟩
    obtain _ | ⟨p, _ | ⟨q, ps⟩⟩ := ps
    · exact absurd rfl hps
    · rw [length_singleton, hsplit] at hreplies
      simp only [NumberedFrames.number, repeated_cons, cons_append, map_cons,
        cons.injEq, Reply.piece.injEq] at hreplies
      exact absurd hreplies.1.1 (frameNumber_ne_last k)
    · rw [length_cons, hsplit, NumberedFrames.number, NumberedFrames.repeated,
        map_append, map_replicate] at hreplies
      obtain ⟨hframe, hrest⟩ := List.append_inj hreplies (by simp)
      obtain ⟨rfl, hagain⟩ := (repeated_pieces_iff (r k)).mp hframe
      rw [← frameNumber_succ] at hrest
      exact ⟨fun hr => (hagain hr).symm, q :: ps, cons_ne_nil _ _,
        append_cancel_left hflat, hrest⟩
  · rintro ⟨hrep, ps, hps, hflat, hreplies⟩
    obtain _ | ⟨q, ps⟩ := ps
    · exact absurd rfl hps
    refine ⟨d :: q :: ps, cons_ne_nil _ _, ?_, ?_⟩
    · rw [flatten_cons, hflat]
    · rw [length_cons, hsplit, NumberedFrames.number, NumberedFrames.repeated,
        map_append, map_replicate, ← frameNumber_succ, ← hreplies]
      congr 1
      exact (repeated_pieces_iff (r k)).mpr ⟨rfl, fun hr => (hrep hr).symm⟩

/-- The rest of a file is delivered where the repetitions of all its frames are answered alike. -/
theorem deliversFrom_iff (h : FileTrans.Before file k o) (hk : k < frameTotal file)
    (htotal : frameTotal file ≤ 256) :
    DeliversFrom file r k o ↔ ∀ i, k ≤ i → i < frameTotal file → Repeatable file r i := by
  obtain ⟨n, hn⟩ := Nat.exists_eq_add_of_lt hk
  induction n generalizing k o with
  | zero =>
    rw [deliversFrom_last h (by omega) (by omega)]
    refine ⟨fun hrep i hki hi => ?_, fun hall => hall k le_rfl hk⟩
    obtain rfl : i = k := by omega
    exact hrep
  | succ n ih =>
    obtain ⟨u, hu, hiff⟩ := deliversFrom_middle (r := r) h (by omega) (by omega)
    rw [hiff, ih hu (by omega) (by omega)]
    constructor
    · rintro ⟨hrep, hall⟩ i hki hi
      rcases Nat.eq_or_lt_of_le hki with rfl | hlt
      · exact hrep
      · exact hall i hlt hi
    · exact fun hall => ⟨hall k le_rfl hk, fun i hki hi => hall i (by omega) hi⟩

/-- No request for a frame of a longer file comes to a last piece. -/
theorem replies_long (h : ∀ t ∈ o, FileTrans.Uploads file t) (htotal : 256 < frameTotal file)
    {nums : List Byte} (hnums : ∀ n ∈ nums, n ≠ 0xFE) (data : List Byte) :
    Reply.piece 0xFE data ∉ replies file o nums := by
  have hlen : 256 * maxUploadFileLength < file.fileLength.toNat := by
    dsimp only [frameTotal, maxUploadFileLength] at htotal ⊢
    omega
  induction nums generalizing o with
  | nil => simp [replies, outputs]
  | cons n nums ih =>
    have hup : FileTrans.Uploads file (o.getD (FileTrans.opened file)) := by
      cases o with
      | none => exact FileTrans.uploads_opened file
      | some t => exact h t rfl
    obtain ⟨hpiece, hkeep⟩ := hup.reply_long hlen (hnums n (by simp))
    rw [replies_cons, mem_cons, not_or]
    exact ⟨fun heq => hpiece data heq.symm,
      ih hkeep fun m hm => hnums m (mem_cons_of_mem _ hm)⟩

theorem not_deliversFrom_long (h : ∀ t ∈ o, FileTrans.Uploads file t)
    (htotal : 256 < frameTotal file) : ¬ DeliversFrom file r 0 o := by
  rintro ⟨ps, hps, -, hreplies⟩
  obtain ⟨p, hp⟩ := NumberedFrames.exists_last_mem_number (N := frameNumbers) (frameNumber 0) hps
  have hmem : Reply.piece 0xFE p ∈ replies file o (NumberedFrames.repeated r 0
      (iterate frameNumbers.next (frameNumber 0) ps.length)) := by
    rw [hreplies]
    exact List.mem_map.mpr ⟨_, NumberedFrames.mem_repeated.mpr hp, rfl⟩
  refine replies_long h htotal (fun n hn => ?_) p hmem
  obtain ⟨m, -, rfl⟩ := mem_iterate.mp (NumberedFrames.mem_repeated.mp hn)
  exact frameNumber_ne_last m

/-- A file is delivered where it has no more frames than can be counted and the repetitions of all
of them are answered alike. -/
theorem deliversFrom_zero_iff (h : FileTrans.Before file 0 o) :
    DeliversFrom file r 0 o ↔
      frameTotal file ≤ 256 ∧ ∀ k < frameTotal file, Repeatable file r k := by
  by_cases htotal : frameTotal file ≤ 256
  · rw [deliversFrom_iff h (by dsimp only [frameTotal]; omega) htotal]
    simp [htotal]
  · exact iff_of_false (not_deliversFrom_long (fun t ht => (h t ht).1) (by omega))
      fun hall => htotal hall.1

end Delivered

namespace Slave

/-- A file is delivered where the requests come to its pieces. -/
theorem delivers_iff_deliversFrom (b : Board ω) (f : DlFile) (s : Slave ω) (addr sub : Byte)
    (r : Nat → Nat) :
    s.Delivers b f addr sub r ↔ DeliversFrom (s.storedFile b f) r 0 (s.files f) := by
  have hall : (s.storedFile b f).bytes (s.storedFile b f).fileLength.toNat =
      (s.storedFile b f).slice (0 * maxUploadFileLength)
        ((s.storedFile b f).fileLength.toNat - 0 * maxUploadFileLength) := by
    simp [Buff.bytes, Buff.slice]
  rw [Delivers, hall]
  refine exists_congr fun ps => and_congr_right fun _ => and_congr_right fun _ => ?_
  constructor
  · exact fun h => replies_of_answers rfl h
  · exact fun h ys s' hrun hnums => UploadRun.answers hrun hnums h

end Slave

/-- A file that is requested frame by frame, every frame as often as a response was lost, is
delivered exactly if it has at most 256 frames and no repetition goes wrong: the last frame is not
repeated, unless it is the only one, and a frame whose number was used before only where the piece
with that number was the same. -/
theorem upload_delivers_iff (b : Board ω) (f : DlFile) (s : Slave ω) (addr sub : Byte)
    (r : Nat → Nat) (h : s.UploadReady b f) :
    s.Delivers b f addr sub r ↔
      frameTotal (s.storedFile b f) ≤ 256 ∧
        ∀ k < frameTotal (s.storedFile b f), Repeatable (s.storedFile b f) r k := by
  rw [Slave.delivers_iff_deliversFrom]
  refine deliversFrom_zero_iff fun t ht => ?_
  obtain ⟨hhandler, hlen, hstarted⟩ := h t ht
  exact ⟨⟨hhandler, hlen⟩, hstarted⟩

/-- A board on which every file has 1024 bytes, which are two frames. -/
def twoFrameBoard : Board Unit := { idleBoard with userFile := fun _ _ i => if i = 7 then 4 else 0 }

/-- The first frame is requested three times. -/
theorem twoFrames_delivered :
    (Slave.idle []).Delivers twoFrameBoard .gvt 0x01 0x67 (fun k => if k = 0 then 2 else 0) :=
  (upload_delivers_iff twoFrameBoard .gvt (Slave.idle []) 0x01 0x67 _ (by
    intro t ht
    simp [Slave.idle] at ht)).mpr ⟨by decide, fun k _ hr => by
      obtain rfl : k = 0 := by
        by_contra hne
        simp [hne] at hr
      rw [if_neg (by decide)]⟩

/-- The response with the last frame is lost, and the frame requested once more. -/
theorem lastFrame_not_delivered_again :
    ¬ (Slave.idle []).Delivers twoFrameBoard .gvt 0x01 0x67 (fun k => if k = 1 then 1 else 0) := by
  rw [Slave.delivers_iff_deliversFrom]
  refine fun h => absurd ((deliversFrom_zero_iff ?_).mp h).2 ?_
  · intro t ht
    simp [Slave.idle] at ht
  · intro hall
    have hlast := hall 1 (by decide) (by decide)
    exact absurd hlast (by decide)

end Kalyke
