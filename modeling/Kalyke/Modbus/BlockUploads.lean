-- SUMMARY: The upload of a block of `D` elements in frames, and which of it arrives.
import Kalyke.Modbus.Reads
import Kalyke.Modbus.UploadRuns

/-!
# Uploads of Data Blocks

`mb_slave_upload_gen_data_block_from_ram` sends up to 125 words in a frame, but counts those behind
the first in steps of 120 and starts them one element too early. So a block that does not fit the
first frame arrives with elements repeated. The numbers of the frames are not checked, and one that
is large enough gets elements behind the block.
-/

namespace Kalyke

open List BitVec

/-! ## Frames -/

/-- The data of a response: the mark, the number of words that is announced, and the words. -/
structure BlockFrame where
  mark : Byte
  announced : BitVec 16
  words : List (BitVec 16)
deriving DecidableEq, Repr

/-- The bytes of the data, high bytes first. -/
def BlockFrame.bytes (f : BlockFrame) : List Byte :=
  f.mark :: hiByte f.announced :: loByte f.announced :: f.words.flatMap Slave.bigBytes

theorem bigBytes_injective : Function.Injective Slave.bigBytes := by
  intro x y h
  simp only [Slave.bigBytes, cons.injEq, and_true] at h
  have hjoin (z : BitVec 16) : hiByte z ++ loByte z = z := by
    have hall : hiByte z ++ loByte z = z.extractLsb' 0 16 :=
      extractLsb'_append_extractLsb'_eq_extractLsb' rfl
    exact hall.trans extractLsb'_eq_self
  rw [← hjoin x, ← hjoin y, h.1, h.2]

theorem flatMap_bigBytes_injective {xs ys : List (BitVec 16)}
    (h : xs.flatMap Slave.bigBytes = ys.flatMap Slave.bigBytes) : xs = ys := by
  induction xs generalizing ys with
  | nil =>
    cases ys with
    | nil => rfl
    | cons y ys => cases h
  | cons x xs ih =>
    cases ys with
    | nil => cases h
    | cons y ys =>
      obtain ⟨hfirst, hrest⟩ := List.append_inj h rfl
      rw [bigBytes_injective hfirst, ih hrest]

theorem BlockFrame.bytes_injective : Function.Injective BlockFrame.bytes := by
  rintro ⟨mark, announced, words⟩ ⟨mark', announced', words'⟩ h
  simp only [bytes, cons.injEq] at h
  obtain ⟨rfl, hhigh, hlow, hwords⟩ := h
  have hannounced : Slave.bigBytes announced = Slave.bigBytes announced' := by
    rw [Slave.bigBytes, Slave.bigBytes, hhigh, hlow]
  rw [bigBytes_injective hannounced, flatMap_bigBytes_injective hwords]

/-- The elements from a number on. -/
def dWords (st : Store) (start cnt : Nat) : List (BitVec 16) :=
  (range cnt).map fun i => st.word .D (start + i)

@[simp] theorem length_dWords (st : Store) (start cnt : Nat) :
    (dWords st start cnt).length = cnt := by
  simp [dWords]

variable {ω : Type}

namespace Slave

variable {s : Slave ω} {m : MsgPack}

/-- The number of elements a request for a block asks for. -/
def blockCnt (s : Slave ω) : BitVec 16 := s.receiveBuff.bigPU16 4

/-- The first element a request for a block asks for. -/
def blockStart (s : Slave ω) : BitVec 16 := s.receiveBuff.bigPU16 6

/-- The same request for a frame with the number `k`. -/
def asking (s : Slave ω) (k : Byte) : Slave ω := { s with receiveBuff := s.receiveBuff.put 3 k }

/-- The elements that the frames before the one with the number `k` are counted for. -/
def preSendCnt (k : Byte) : BitVec 16 := BitVec.ofInt 16 ((k.toNat - 1 : Int) * mbMaxWWordNum)

/-- The data of the frame with the number `k`. -/
def blockFrame (s : Slave ω) (k : Byte) : BlockFrame :=
  if k = 1 then
    if s.blockCnt.toNat < mbMaxRWordNum then
      ⟨0xFE, s.blockCnt, dWords s.store s.blockStart.toNat s.blockCnt.toNat⟩
    else ⟨1, 0x7D, dWords s.store s.blockStart.toNat mbMaxRWordNum⟩
  else if (s.blockCnt - preSendCnt k).toNat < mbMaxWWordNum then
    ⟨0xFE, s.blockCnt - preSendCnt k,
      dWords s.store (s.blockStart + preSendCnt k - 1).toNat (s.blockCnt - preSendCnt k).toNat⟩
  else ⟨k, 0x7D, dWords s.store (s.blockStart + preSendCnt k - 1).toNat mbMaxRWordNum⟩

/-- A request is answered with a frame. -/
def Sends (s s' : Slave ω) (f : BlockFrame) : Prop :=
  s'.sent = s.sent ++ [.normal (withCrc (s.receiveBuff.bytes 3 ++ f.bytes))]

theorem dataBytes_eq (s : Slave ω) (start cnt : Nat) :
    s.dataBytes start cnt = (dWords s.store start cnt).flatMap bigBytes := by
  rw [dWords, flatMap_map]
  rfl

theorem length_dataBytes (s : Slave ω) (start cnt : Nat) :
    (s.dataBytes start cnt).length = 2 * cnt := length_registers (.word .D) s.store start cnt

/-- Every frame carries few words. -/
theorem respond_block (s : Slave ω) (k mark : Byte) (announced : BitVec 16) {start cnt : Nat}
    (hcnt : cnt ≤ mbMaxRWordNum) :
    s.Sends ((s.asking k).respond m 3 (mark :: hiByte announced :: loByte announced ::
      s.dataBytes start cnt)) ⟨mark, announced, dWords s.store start cnt⟩ := by
  have hmax : mbMaxRWordNum = 125 := rfl
  have hlen := s.length_dataBytes start cnt
  rw [Sends, respond_sent, dataBytes_eq]
  · rfl
  · simp only [length_cons]
    omega

/-- A full frame behind the first has the number of the request. -/
theorem respond_full_block (s : Slave ω) (k : Byte) (announced : BitVec 16) (start : Nat) :
    s.Sends ((s.asking k).respond m 4 (hiByte announced :: loByte announced ::
      s.dataBytes start mbMaxRWordNum)) ⟨k, announced, dWords s.store start mbMaxRWordNum⟩ := by
  have hmax : mbMaxRWordNum = 125 := rfl
  have hlen := s.length_dataBytes start mbMaxRWordNum
  rw [Sends, respond_sent, dataBytes_eq]
  · rfl
  · simp only [length_cons]
    omega

/-- What the function answers. -/
theorem genDataBlock_sends (hrang : s.blockStart.toNat + s.blockCnt.toNat ≤ WordElement.rang .D)
    (k : Byte) :
    s.Sends ((s.asking k).mbSlaveUploadGenDataBlockFromRam m) (s.blockFrame k) := by
  have hw : mbMaxWWordNum ≤ mbMaxRWordNum := by decide
  have hcases : (s.asking k).mbSlaveUploadGenDataBlockFromRam m =
      if k = 1 then
        if WordElement.rang .D < s.blockStart.toNat + s.blockCnt.toNat then
          (s.asking k).mbSlaveErrorResp m .iliegalAddr
        else if s.blockCnt.toNat < mbMaxRWordNum then
          (s.asking k).respond m 3 (0xFE :: hiByte s.blockCnt :: loByte s.blockCnt ::
            s.dataBytes s.blockStart.toNat s.blockCnt.toNat)
        else (s.asking k).respond m 3 (0x01 :: 0 :: 0x7D ::
          s.dataBytes s.blockStart.toNat mbMaxRWordNum)
      else if (s.blockCnt - preSendCnt k).toNat < mbMaxWWordNum then
        (s.asking k).respond m 3 (0xFE :: hiByte (s.blockCnt - preSendCnt k) ::
          loByte (s.blockCnt - preSendCnt k) ::
          s.dataBytes (s.blockStart + preSendCnt k - 1).toNat (s.blockCnt - preSendCnt k).toNat)
      else (s.asking k).respond m 4 (0 :: 0x7D ::
        s.dataBytes (s.blockStart + preSendCnt k - 1).toNat mbMaxRWordNum) := rfl
  rw [hcases, blockFrame]
  split
  · rw [if_neg (Nat.not_lt.mpr hrang)]
    split
    · exact s.respond_block k 0xFE s.blockCnt (Nat.le_of_lt ‹_›)
    · exact s.respond_block k 1 0x7D (Nat.le_refl _)
  · split
    · exact s.respond_block k 0xFE _ (Nat.le_trans (Nat.le_of_lt ‹_›) hw)
    · exact s.respond_full_block k 0x7D _

/-! ## What Arrives -/

/-- The frames with the numbers 1, 2, and so on up to the first with the mark of the last, and what
they carry: just the elements asked for. -/
structure Delivery (s : Slave ω) (m : MsgPack) (n : Nat) (frames : Nat → BlockFrame) : Prop where
  pos : 0 < n
  sent : ∀ i < n, s.Sends
    ((s.asking (BitVec.ofNat 8 (i + 1))).mbSlaveUploadGenDataBlockFromRam m) (frames i)
  marked : ∀ i < n, (frames i).mark = 0xFE ↔ i + 1 = n
  announced : ∀ i < n, (frames i).announced.toNat = (frames i).words.length
  words : (range n).flatMap (fun i => (frames i).words) =
    dWords s.store s.blockStart.toNat s.blockCnt.toNat

def DeliversBlock (s : Slave ω) (m : MsgPack) : Prop := ∃ n frames, s.Delivery m n frames

/-- No frame, whatever its number, depends on an element outside the block. -/
def ReadsInside (s : Slave ω) (m : MsgPack) : Prop :=
  ∀ (k : Byte) (i : Nat) (x : BitVec 16),
    ¬ (s.blockStart.toNat ≤ i ∧ i < s.blockStart.toNat + s.blockCnt.toNat) →
    ((asking { s with store := s.store.setWord (.elem .D) i x } k
      ).mbSlaveUploadGenDataBlockFromRam m).sent =
      ((s.asking k).mbSlaveUploadGenDataBlockFromRam m).sent

def UploadsBlock (s : Slave ω) (m : MsgPack) : Prop := s.DeliversBlock m ∧ s.ReadsInside m

theorem Sends.unique {s' : Slave ω} {f g : BlockFrame} (hf : s.Sends s' f) (hg : s.Sends s' g) :
    f = g := by
  have hsent := append_cancel_left (hf.symm.trans hg)
  have hframe := Resp.normal.inj (singleton_inj.mp hsent)
  exact BlockFrame.bytes_injective (append_cancel_left (withCrc_injective hframe))

/-! ## Frames Behind the First -/

/-- The first frame of a block that it does not hold. -/
theorem blockFrame_one (hcnt : mbMaxRWordNum ≤ s.blockCnt.toNat) :
    (s.blockFrame 1).mark ≠ 0xFE ∧ (s.blockFrame 1).words.length = mbMaxRWordNum := by
  rw [blockFrame, if_neg (Nat.not_lt.mpr hcnt)]
  exact ⟨(by decide : (1 : Byte) ≠ 0xFE), length_dWords _ _ _⟩

theorem toNat_preSendCnt {i : Nat} (hi : i < 255) :
    (preSendCnt (BitVec.ofNat 8 (i + 1))).toNat = 120 * i := by
  have hw : mbMaxWWordNum = 120 := rfl
  have hk : (BitVec.ofNat 8 (i + 1)).toNat = i + 1 := by
    rw [toNat_ofNat]
    omega
  rw [preSendCnt, toNat_ofInt, hw]
  omega

/-- The frame that is counted for `120 * i` elements before it. -/
theorem blockFrame_behind {i : Nat} (hpos : 1 ≤ i) (hi : i < 250)
    (hle : 120 * i ≤ s.blockCnt.toNat) :
    if s.blockCnt.toNat - 120 * i < 120 then
      (s.blockFrame (BitVec.ofNat 8 (i + 1))).mark = 0xFE ∧
        (s.blockFrame (BitVec.ofNat 8 (i + 1))).words.length = s.blockCnt.toNat - 120 * i
    else
      (s.blockFrame (BitVec.ofNat 8 (i + 1))).mark ≠ 0xFE ∧
        (s.blockFrame (BitVec.ofNat 8 (i + 1))).words.length = mbMaxRWordNum := by
  have hk (c : Byte) (hc : c.toNat ≠ i + 1) : BitVec.ofNat 8 (i + 1) ≠ c := by
    rintro rfl
    rw [toNat_ofNat] at hc
    omega
  have hpre := toNat_preSendCnt (i := i) (by omega)
  have hremain : (s.blockCnt - preSendCnt (BitVec.ofNat 8 (i + 1))).toNat =
      s.blockCnt.toNat - 120 * i := by
    rw [toNat_sub]
    omega
  have hw : mbMaxWWordNum = 120 := rfl
  rw [blockFrame, if_neg (hk 1 (by simp; omega)), hremain, hw]
  split
  · exact ⟨rfl, length_dWords _ _ _⟩
  · exact ⟨hk 0xFE (by simp; omega), length_dWords _ _ _⟩

/-! ## Blocks -/

theorem length_flatMap_range {α : Type} {f : Nat → List α} {n c : Nat}
    (h : ∀ i < n, (f i).length = c) : ((range n).flatMap f).length = c * n := by
  induction n with
  | zero => rfl
  | succ n ih =>
    rw [range_succ, flatMap_append, length_append,
      ih fun i hi => h i (Nat.lt_succ_of_lt hi), flatMap_singleton,
      h n (Nat.lt_succ_self n), Nat.mul_succ]

/-- The frames of a block that does not fit the first one carry more words than it has. -/
theorem Delivery.lt_max {n : Nat} {frames : Nat → BlockFrame} (h : s.Delivery m n frames)
    (hrang : s.blockStart.toNat + s.blockCnt.toNat ≤ WordElement.rang .D) :
    s.blockCnt.toNat < mbMaxRWordNum := by
  by_contra hcnt
  have hr : mbMaxRWordNum = 125 := rfl
  have hd : WordElement.rang .D = 8000 := rfl
  have hframe (i : Nat) (hi : i < n) : frames i = s.blockFrame (BitVec.ofNat 8 (i + 1)) :=
    (h.sent i hi).unique (genDataBlock_sends hrang _)
  obtain ⟨q, hq⟩ : ∃ q, q = s.blockCnt.toNat / 120 := ⟨_, rfl⟩
  have hfull (i : Nat) (hi : i < n) (hiq : i < q) :
      (frames i).mark ≠ 0xFE ∧ (frames i).words.length = mbMaxRWordNum := by
    rw [hframe i hi]
    rcases Nat.eq_zero_or_pos i with rfl | hpos
    · exact blockFrame_one (by omega)
    · have hbehind := blockFrame_behind (s := s) hpos (by omega) (by omega)
      rwa [if_neg (by omega)] at hbehind
  have hlast (hqn : q < n) :
      (frames q).mark = 0xFE ∧ (frames q).words.length = s.blockCnt.toNat - 120 * q := by
    have hbehind := blockFrame_behind (s := s) (i := q) (by omega) (by omega) (by omega)
    rw [if_pos (by omega)] at hbehind
    rw [hframe q hqn]
    exact hbehind
  have hpos := h.pos
  have hn : n = q + 1 := by
    rcases Nat.lt_or_ge q n with hqn | hnq
    · exact ((h.marked q hqn).mp (hlast hqn).1).symm
    · have hmark := (h.marked (n - 1) (by omega)).mpr (by omega)
      exact absurd hmark (hfull (n - 1) (by omega) (by omega)).1
  have hlen := congrArg length h.words
  rw [hn, range_succ, flatMap_append, length_append, flatMap_singleton,
    length_dWords, length_flatMap_range fun i hi => (hfull i (by omega) hi).2, hr] at hlen
  omega

theorem deliversBlock_iff
    (hrang : s.blockStart.toNat + s.blockCnt.toNat ≤ WordElement.rang .D) :
    s.DeliversBlock m ↔ s.blockCnt.toNat < mbMaxRWordNum := by
  constructor
  · rintro ⟨n, frames, h⟩
    exact h.lt_max hrang
  · intro hcnt
    have hframe : s.blockFrame 1 =
        ⟨0xFE, s.blockCnt, dWords s.store s.blockStart.toNat s.blockCnt.toNat⟩ := by
      rw [blockFrame, if_pos rfl, if_pos hcnt]
    refine ⟨1, fun _ => s.blockFrame 1, ⟨Nat.one_pos, ?_, ?_, ?_, ?_⟩⟩
    · intro i hi
      obtain rfl : i = 0 := by omega
      exact genDataBlock_sends hrang 1
    · intro i hi
      rw [hframe]
      exact iff_of_true rfl (by omega)
    · intro i _
      rw [hframe, length_dWords]
    · rw [hframe, range_one, flatMap_singleton]

/-- The frame with the number 255 is taken from far behind the block. -/
theorem not_readsInside (hrang : s.blockStart.toNat + s.blockCnt.toNat ≤ WordElement.rang .D) :
    ¬ s.ReadsInside m := by
  intro h
  have hr : mbMaxRWordNum = 125 := rfl
  have hw : mbMaxWWordNum = 120 := rfl
  have hd : WordElement.rang .D = 8000 := rfl
  have hpre : (preSendCnt 0xFF).toNat = 30480 := by decide
  have hframe (t : Slave ω) (hstart : t.blockStart = s.blockStart) (hcnt : t.blockCnt = s.blockCnt) :
      t.blockFrame 0xFF =
        ⟨0xFF, 0x7D, dWords t.store (s.blockStart.toNat + 30479) mbMaxRWordNum⟩ := by
    have hremain : (s.blockCnt - preSendCnt 0xFF).toNat = s.blockCnt.toNat + 35056 := by
      rw [toNat_sub]
      omega
    have hfirst : (s.blockStart + preSendCnt 0xFF - 1).toNat = s.blockStart.toNat + 30479 := by
      have hone : (1 : BitVec 16).toNat = 1 := rfl
      rw [toNat_sub, toNat_add, hone]
      omega
    rw [blockFrame, if_neg (by decide), hcnt, hstart, hfirst, if_neg (by omega)]
  let x : BitVec 16 := s.store.word .D (s.blockStart.toNat + 30479) + 1
  let s' : Slave ω :=
    { s with store := s.store.setWord (.elem .D) (s.blockStart.toNat + 30479) x }
  have hsame := h 0xFF (s.blockStart.toNat + 30479) x (by omega)
  have hsends : s.Sends ((s.asking 0xFF).mbSlaveUploadGenDataBlockFromRam m) (s'.blockFrame 0xFF) :=
    hsame.symm.trans (genDataBlock_sends (s := s') hrang 0xFF)
  have hframes := (genDataBlock_sends hrang 0xFF).unique hsends
  rw [hframe s rfl rfl, hframe s' rfl rfl] at hframes
  have hwords := congrArg (fun f => f.words[0]?) hframes
  simp [dWords, hr, s', x, Store.setWord] at hwords

/-- The upload of a block is never right: some number of a frame gets elements behind the block. The
block arrives just if it fits the first frame. -/
theorem uploadsBlock_iff
    (hrang : s.blockStart.toNat + s.blockCnt.toNat ≤ WordElement.rang .D) :
    ¬ s.UploadsBlock m ∧ (s.DeliversBlock m ↔ s.blockCnt.toNat < mbMaxRWordNum) :=
  ⟨fun h => not_readsInside hrang h.2, deliversBlock_iff hrang⟩

/-- The request for `D0` to `D124`. -/
theorem uploadsBlock_d0 :
    ¬ (idle [1, 0x69, 0x46, 1, 0, 0x7D, 0, 0]).UploadsBlock (comMsg 10) ∧
      ((idle [1, 0x69, 0x46, 1, 0, 0x7D, 0, 0]).DeliversBlock (comMsg 10) ↔
        (idle [1, 0x69, 0x46, 1, 0, 0x7D, 0, 0]).blockCnt.toNat < mbMaxRWordNum) :=
  uploadsBlock_iff (by decide)

/-- The 125 words from `D0` on arrive with `D119` to `D123` behind them once more. -/
theorem d0_delivered_twice : ¬ ∀ (s : Slave Unit) (m : MsgPack),
    s.blockStart.toNat + s.blockCnt.toNat ≤ WordElement.rang .D → s.UploadsBlock m := by
  intro h
  have hright := h (idle [1, 0x69, 0x46, 1, 0, 0x7D, 0, 0]) (comMsg 10) (by decide)
  have hlt := (deliversBlock_iff (by decide)).mp hright.1
  exact absurd hlt (by decide)

end Slave

end Kalyke
