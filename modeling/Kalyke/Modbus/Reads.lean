-- SUMMARY: The data bytes of the functions that read: packed bits and entries of lists.
import Mathlib.Data.List.GetD
import Kalyke.Modbus.Answers

/-!
# Data of Reads

The loops that read pack bits or store entry by entry. Here the bytes they leave are given in closed
form: the bits as bytes of eight, the entries of a list as the halfwords that they stand for.
-/

namespace Kalyke

open List Nat BitVec Option

/-! ## Packed Bits -/

/-- A byte that the first bits of a function are packed into. With `shift`, the byte is shifted once
more after each bit. -/
def packByte (shift : Bool) (f : Nat → Bool) : Nat → Byte
  | 0 => 0
  | n + 1 =>
    let value := packByte shift f n + (ofBool (f n)).setWidth 8 <<< n
    if shift then value <<< 1 else value

theorem getLsbD_packByte (f : Nat → Bool) {n i : Nat} (hi : i < 8) :
    (packByte false f n).getLsbD i = (decide (i < n) && f i) := by
  induction n generalizing i with
  | zero => simp [packByte]
  | succ n ih =>
    have hbit {j : Nat} (hj : j < 8) : ((ofBool (f n)).setWidth 8 <<< n).getLsbD j =
        (decide (j = n) && f n) := by
      by_cases hjn : j = n
      · subst hjn
        simp [hj]
      · simp [hj, hjn]
        omega
    -- the bits below are left, so nothing is carried
    have hdisjoint : packByte false f n &&& (ofBool (f n)).setWidth 8 <<< n = 0 := by
      ext j hj
      rw [← getLsbD_eq_getElem, getLsbD_and, ih hj, hbit hj]
      by_cases hjn : j = n
      · simp [hjn]
      · simp [hjn]
    rw [packByte, add_eq_or_of_and_eq_zero _ _ hdisjoint]
    simp only [Bool.false_eq_true, if_false, getLsbD_or, ih hi, hbit hi]
    by_cases hin : i = n
    · simp [hin]
    · have hlt : i < n + 1 ↔ i < n := by omega
      simp [hin, hlt]

/-- The state of the loop that packs bits, after one bit and some more. -/
theorem packStep_foldl (shift : Bool) (f : Nat → Bool) (cnt : Nat) :
    ((range (cnt + 1)).map f).foldl (packStep shift) ([], 0, 0) =
      ((range (cnt / 8)).map fun j => packByte shift (fun i => f (8 * j + i)) 8,
        packByte shift (fun i => f (8 * (cnt / 8) + i)) (cnt % 8 + 1), cnt % 8 + 1) := by
  induction cnt with
  | zero => simp [packStep, packByte]
  | succ cnt ih =>
    rw [range_succ, map_append, foldl_append, ih]
    simp only [map_cons, foldl_cons, packStep]
    by_cases hfull : cnt % 8 = 7
    · have hq : (cnt + 1) / 8 = cnt / 8 + 1 := by omega
      have hr : (cnt + 1) % 8 = 0 := by omega
      have hi : 8 * (cnt / 8 + 1) = cnt + 1 := by omega
      rw [hq, hr, range_succ, hfull]
      simp [packByte, hi]
    · have hq : (cnt + 1) / 8 = cnt / 8 := by omega
      have hr : (cnt + 1) % 8 = cnt % 8 + 1 := by omega
      have hi : 8 * (cnt / 8) + (cnt % 8 + 1) = cnt + 1 := by omega
      rw [if_neg (by omega), hq, hr]
      simp [packByte, hi]

/-- Bits are packed into a byte for each eight begun. -/
theorem packBits_eq (shift : Bool) (f : Nat → Bool) {cnt : Nat} (h : 0 < cnt) :
    packBits shift ((range cnt).map f) = (range ((cnt + 7) / 8)).map fun j =>
      packByte shift (fun i => f (8 * j + i)) (min 8 (cnt - 8 * j)) := by
  obtain ⟨n, rfl⟩ := exists_eq_succ_of_ne_zero h.ne'
  have hlen : (n + 1 + 7) / 8 = n / 8 + 1 := by omega
  unfold packBits
  rw [packStep_foldl shift f n, hlen, range_succ, map_append]
  dsimp only
  congr 1
  · refine map_congr_left fun j hj => ?_
    have hj := mem_range.mp hj
    rw [show min 8 (n + 1 - 8 * j) = 8 by omega]
  · rw [map_singleton, show min 8 (n + 1 - 8 * (n / 8)) = n % 8 + 1 by omega]

@[simp] theorem length_packBits (shift : Bool) (f : Nat → Bool) {cnt : Nat} (h : 0 < cnt) :
    (packBits shift ((range cnt).map f)).length = (cnt + 7) / 8 := by
  simp [packBits_eq shift f h]

/-! ## Halfwords -/

/-- What an entry of a list stands for: a bit, a word, or one half of a counter of 32 bits. -/
inductive Half where
  | bit (e : BitElement) (n : Nat)
  | word (e : WordElement) (n : Nat)
  | high (n : Nat)
  | low (n : Nat)
deriving DecidableEq, Repr

namespace Half

/-- The value of a halfword. -/
def read (st : Store) : Half → BitVec 16
  | bit e n => BitVec.ofNat 16 (st.bit e n).toNat
  | word e n => st.word e n
  | high n => (st.c32 n).extractLsb' 16 16
  | low n => (st.c32 n).extractLsb' 0 16

/-- The halfword an address stands for, and the one the next entry then stands for. -/
def start (kind : AddrKind) (a : Nat) : Option (Half × Option Half) :=
  match cellAt kind a with
  | some (.bit e n) => some (bit e n, none)
  | some (.word e n) => some (word e n, none)
  | some (.c32 n) => some (high n, some (low n))
  | _ => none

/-- The halfwords that `n` entries from `k` on stand for. With `next`, the first stands for that.
What the last leaves for an entry behind it is the last. An entry that stands for nothing ends the
list. -/
def entries (startAt : Nat → Option (Half × Option Half)) : Nat → Nat → Option Half → List Half
  | 0, _, none => []
  | 0, _, some h => [h]
  | n + 1, k, some h => h :: entries startAt n (k + 1) none
  | n + 1, k, none =>
    match startAt k with
    | none => []
    | some (h, next) => h :: entries startAt n (k + 1) next

end Half

/-- The bytes of a halfword in the answer of a list. -/
def valueBytes : AddrKind → BitVec 16 → List Byte
  | .bit, x => [loByte x]
  | .word, x => Slave.nativeBytes x

/-! ## Buffers -/

@[simp] theorem hiByte_append (x y : Byte) : hiByte (x ++ y) = x :=
  extractLsb'_append_eq_left

@[simp] theorem loByte_append (x y : Byte) : loByte (x ++ y) = y :=
  extractLsb'_append_eq_right

namespace Buff

theorem slice_add (b : Buff) (i m n : Nat) : b.slice i (m + n) = b.slice i m ++ b.slice (i + m) n := by
  simp [slice, range_add, Nat.add_assoc]

theorem slice_congr {b b' : Buff} {i n : Nat} (h : ∀ k, i ≤ k → k < i + n → b' k = b k) :
    b'.slice i n = b.slice i n := by
  refine map_congr_left fun k hk => h (i + k) (by omega) ?_
  have := mem_range.mp hk
  omega

theorem bytes_eq_slice (b : Buff) (n : Nat) : b.bytes n = b.slice 0 n := by
  simp [bytes, slice]

/-- Bytes that were stored are there. -/
theorem slice_putList (b : Buff) (i : Nat) (xs : List Byte) :
    (b.putList i xs).slice i xs.length = xs := by
  refine ext_getElem (by simp [slice]) fun k h₁ h₂ => ?_
  simp [slice, putList, h₂]

/-- Bytes before those stored are kept. -/
theorem putList_of_lt (b : Buff) {i k : Nat} (xs : List Byte) (h : k < i) : b.putList i xs k = b k :=
  if_neg (Nat.not_le.mpr h)

/-- Bytes stored one behind the other. -/
theorem putList_putList (b : Buff) (i : Nat) (xs ys : List Byte) :
    (b.putList i xs).putList (i + xs.length) ys = b.putList i (xs ++ ys) := by
  funext k
  simp only [putList]
  by_cases h : i + xs.length ≤ k
  · have hi : i ≤ k := by omega
    rw [if_pos h, if_pos hi, if_pos hi, getD_append_right _ _ _ _ (by omega),
      getD_eq_default xs _ (by omega)]
    congr 1
    omega
  · rw [if_neg h]
    by_cases hi : i ≤ k
    · rw [if_pos hi, if_pos hi, getD_append _ _ _ _ (by omega)]
    · rw [if_neg hi, if_neg hi]

end Buff

/-! ## Lists -/

variable {ω : Type}

namespace Slave

/-- The bytes of an entry of an answer: its address in the request, and its value. -/
def entryBytes (s : Slave ω) (kind : AddrKind) (i : Nat) (h : Half) : List Byte :=
  [s.receiveBuff (3 + 2 * i), s.receiveBuff (4 + 2 * i)] ++ valueBytes kind (h.read s.store)

/-- The halfwords a request to read a list asks for. -/
def asked (s : Slave ω) (kind : AddrKind) : Nat → Nat → Option Half → List Half :=
  Half.entries fun i => Half.start kind (s.entryAddr (3 + 2 * i))

/-- The data of the answer to a request to read a list. -/
def listData (s : Slave ω) (kind : AddrKind) : List Byte :=
  ((range s.listCnt).zip (s.asked kind s.listCnt 0 none)).flatMap fun x =>
    s.entryBytes kind x.1 x.2

/-- What an entry that is read leaves as it is, and what it stores. -/
structure EntryRead (kind : AddrKind) (i : Nat) (h : Half) (next : Option Half) (s t : Slave ω) :
    Prop where
  receiveBuff : t.receiveBuff = s.receiveBuff
  store : t.store = s.store
  sent : t.sent = s.sent
  before : ∀ j < 3 + forceWidth kind * i, t.respBuff j = s.respBuff j
  stored : t.respBuff.slice (3 + forceWidth kind * i) (forceWidth kind) = s.entryBytes kind i h
  storedNext : ∀ h', next = some h' →
    t.respBuff.slice (3 + forceWidth kind * (i + 1)) (forceWidth kind) =
      s.entryBytes kind (i + 1) h'

/-- An entry that stands for a halfword is stored, and the next as well where it stands for the
other half. -/
def ReadsEntries (kind : AddrKind) (step : Nat → Slave ω → EntryResult ω) : Prop :=
  ∀ i s, match Half.start kind (s.entryAddr (3 + 2 * i)) with
    | none => (step i s).2 = .error .iliegalAddr
    | some (h, next) => (step i s).2 = .ok next.isSome ∧ EntryRead kind i h next s (step i s).1

theorem putWordEntry_respBuff (s : Slave ω) (i : Nat) (x : BitVec 16) :
    (s.putWordEntry i x).respBuff = s.respBuff.putList (3 + 4 * i)
      ([s.receiveBuff (3 + 2 * i), s.receiveBuff (4 + 2 * i)] ++ nativeBytes x) := by
  rw [← Buff.putList_putList, show 3 + 4 * i + _ = 5 + 4 * i by simp; omega]
  rfl

theorem readBitEntry_reads : ReadsEntries .bit (@readBitEntry ω) := by
  intro i s
  rcases readBitEntry_cases i s with ⟨hnone, h⟩ | ⟨e, n, hat, h⟩
  · simp [Half.start, cellAt, hnone, h]
  · simp only [Half.start, cellAt_bit hat, h]
    have hresp : (s.respBuff.putList (3 + 3 * i)
        [s.receiveBuff (3 + 2 * i), s.receiveBuff (4 + 2 * i)]).putList (5 + 3 * i)
          [(ofBool (s.store.bit e n)).setWidth 8] =
        s.respBuff.putList (3 + 3 * i) (s.entryBytes .bit i (.bit e n)) := by
      have hvalue : [(ofBool (s.store.bit e n)).setWidth 8] =
          valueBytes .bit ((Half.bit e n).read s.store) := by
        simp only [Half.read]
        cases s.store.bit e n <;> decide
      rw [hvalue, entryBytes, ← Buff.putList_putList, show 3 + 3 * i + _ = 5 + 3 * i by simp; omega]
    refine ⟨rfl, rfl, rfl, rfl, fun j hj => ?_, ?_, fun h' hh' => by cases hh'⟩
    · exact (congrFun hresp j).trans (Buff.putList_of_lt _ _ hj)
    · exact (congrArg (fun b : Buff => b.slice (3 + 3 * i) 3) hresp).trans (Buff.slice_putList ..)

theorem readWordEntry_reads : ReadsEntries .word (@readWordEntry ω) := by
  intro i s
  rcases readWordEntry_cases i s with ⟨hnone, h⟩ | ⟨e, n, hat, h⟩ | ⟨n, hat, h⟩
  · simp [Half.start, cellAt, hnone, h]
  · simp only [Half.start, cellAt_word hat, h]
    have hresp : ((s.access [.word e n]).putWordEntry i (s.store.word e n)).respBuff =
        s.respBuff.putList (3 + 4 * i) (s.entryBytes .word i (.word e n)) :=
      putWordEntry_respBuff ..
    refine ⟨rfl, rfl, rfl, rfl, fun j hj => ?_, ?_, fun h' hh' => by cases hh'⟩
    · exact (congrFun hresp j).trans (Buff.putList_of_lt _ _ hj)
    · exact (congrArg (fun b : Buff => b.slice (3 + 4 * i) 4) hresp).trans (Buff.slice_putList ..)
  · simp only [Half.start, cellAt_c32 hat, h]
    let s₁ := (s.access [.c32 (c32RealAddr n)]).putWordEntry i
      ((s.store.c32 (c32RealAddr n)).extractLsb' 16 16)
    have hhigh : s₁.respBuff =
        s.respBuff.putList (3 + 4 * i) (s.entryBytes .word i (.high (c32RealAddr n))) :=
      putWordEntry_respBuff ..
    have hlow : (s₁.putWordEntry (i + 1)
        ((s.store.c32 (c32RealAddr n)).extractLsb' 0 16)).respBuff =
        s₁.respBuff.putList (3 + 4 * (i + 1))
          (s.entryBytes .word (i + 1) (.low (c32RealAddr n))) :=
      putWordEntry_respBuff ..
    refine ⟨rfl, rfl, rfl, rfl, fun j hj => ?_, ?_, fun h' hh' => ?_⟩
    · have hj : j < 3 + 4 * i := hj
      refine (congrFun hlow j).trans ((Buff.putList_of_lt _ _ (by omega)).trans ?_)
      exact (congrFun hhigh j).trans (Buff.putList_of_lt _ _ hj)
    · refine Eq.trans ?_ (Buff.slice_putList s.respBuff (3 + 4 * i)
        (s.entryBytes .word i (.high (c32RealAddr n))))
      refine Buff.slice_congr fun j hj hj' => ?_
      have hj' : j < 3 + 4 * i + 4 := hj'
      exact (congrFun hlow j).trans ((Buff.putList_of_lt _ _ (by omega)).trans (congrFun hhigh j))
    · cases hh'
      exact (congrArg (fun b : Buff => b.slice (3 + 4 * (i + 1)) 4) hlow).trans
        (Buff.slice_putList ..)

variable {kind : AddrKind} {step : Nat → Slave ω → EntryResult ω} {m : MsgPack}

theorem asked_congr {s t : Slave ω} (h : t.receiveBuff = s.receiveBuff) :
    t.asked kind = s.asked kind := by
  unfold asked entryAddr
  rw [h]

/-- A list whose entries all stand for halfwords is read to its end. -/
theorem readLoop_stores (hstep : ReadsEntries kind step) {n k : Nat} (next : Option Half)
    {s : Slave ω} (hnext : ∀ h, next = some h →
      s.respBuff.slice (3 + forceWidth kind * k) (forceWidth kind) = s.entryBytes kind k h)
    (hall : n ≤ (s.asked kind n k next).length) :
    ∃ t, entryLoop step (range' k n) next.isSome s = (t, none) ∧
      t.receiveBuff = s.receiveBuff ∧ t.sent = s.sent ∧
      (∀ j < 3 + forceWidth kind * k, t.respBuff j = s.respBuff j) ∧
      t.respBuff.slice (3 + forceWidth kind * k) (forceWidth kind * n) =
        ((range' k n).zip (s.asked kind n k next)).flatMap fun x =>
          s.entryBytes kind x.1 x.2 := by
  induction n generalizing k next s with
  | zero =>
    refine ⟨s, ?_, rfl, rfl, fun _ _ => rfl, by simp [Buff.slice]⟩
    cases next <;> rfl
  | succ n ih =>
    -- what is stored for this entry stays, and the entries behind it follow
    have hcons {t₁ : Slave ω} {h : Half} {next' : Option Half} (hrecv : t₁.receiveBuff = s.receiveBuff)
        (hstore : t₁.store = s.store) (hsent : t₁.sent = s.sent)
        (hbefore : ∀ j < 3 + forceWidth kind * k, t₁.respBuff j = s.respBuff j)
        (hstored : t₁.respBuff.slice (3 + forceWidth kind * k) (forceWidth kind) =
          s.entryBytes kind k h)
        (hnext' : ∀ h', next' = some h' →
          t₁.respBuff.slice (3 + forceWidth kind * (k + 1)) (forceWidth kind) =
            s.entryBytes kind (k + 1) h')
        (hall' : n ≤ (s.asked kind n (k + 1) next').length) :
        ∃ t, entryLoop step (range' (k + 1) n) next'.isSome t₁ = (t, none) ∧
          t.receiveBuff = s.receiveBuff ∧ t.sent = s.sent ∧
          (∀ j < 3 + forceWidth kind * k, t.respBuff j = s.respBuff j) ∧
          t.respBuff.slice (3 + forceWidth kind * k) (forceWidth kind * (n + 1)) =
            ((k :: range' (k + 1) n).zip (h :: s.asked kind n (k + 1) next')).flatMap fun x =>
              s.entryBytes kind x.1 x.2 := by
      have hbytes : t₁.entryBytes kind = s.entryBytes kind := by
        funext i h
        simp only [entryBytes, hrecv, hstore]
      obtain ⟨t, hloop, hr, hs, hb, hslice⟩ := ih (k := k + 1) next' (s := t₁)
        (by rw [hbytes]; exact hnext') (by rw [asked_congr hrecv]; exact hall')
      rw [hbytes, asked_congr hrecv] at hslice
      have hpos : 3 + forceWidth kind * (k + 1) = 3 + forceWidth kind * k + forceWidth kind := by
        rw [Nat.mul_succ, Nat.add_assoc]
      refine ⟨t, hloop, hr.trans hrecv, hs.trans hsent, fun j hj => ?_, ?_⟩
      · exact (hb j (by omega)).trans (hbefore j hj)
      · have hkept : t.respBuff.slice (3 + forceWidth kind * k) (forceWidth kind) =
            t₁.respBuff.slice (3 + forceWidth kind * k) (forceWidth kind) :=
          Buff.slice_congr fun j _ hj => hb j (by omega)
        rw [show forceWidth kind * (n + 1) = forceWidth kind + forceWidth kind * n by
          rw [Nat.mul_succ, Nat.add_comm], Buff.slice_add, ← hpos, hslice, hkept, hstored]
        rfl
    rw [range'_succ]
    cases next with
    | some h =>
      exact hcons rfl rfl rfl (fun _ _ => rfl) (hnext h rfl) (fun h' hh' => by cases hh')
        (le_of_succ_le_succ hall)
    | none =>
      have hread := hstep k s
      simp only [asked, Half.entries] at hall ⊢
      cases hstart : Half.start kind (s.entryAddr (3 + 2 * k)) with
      | none =>
        rw [hstart] at hall
        simp at hall
      | some x =>
        obtain ⟨h, next'⟩ := x
        rw [hstart] at hall hread
        obtain ⟨hok, hr, hst, hse, hbe, hsd, hsn⟩ := hread
        have hloop : entryLoop step (k :: range' (k + 1) n) (none : Option Half).isSome s =
            entryLoop step (range' (k + 1) n) next'.isSome (step k s).1 := by
          rw [isSome_none, entryLoop, ← Prod.eta (step k s), hok]
        rw [hloop]
        exact hcons hr hst hse hbe hsd hsn (le_of_succ_le_succ hall)

theorem readLoop_refuses (hstep : ReadsEntries kind step) {n k : Nat} (next : Option Half)
    {s : Slave ω} (hall : ¬ n ≤ (s.asked kind n k next).length) :
    (entryLoop step (range' k n) next.isSome s).2 = some .iliegalAddr := by
  induction n generalizing k next s with
  | zero => exact absurd (Nat.zero_le _) hall
  | succ n ih =>
    rw [range'_succ]
    cases next with
    | some h =>
      refine ih none fun h => hall ?_
      exact succ_le_succ h
    | none =>
      have hread := hstep k s
      simp only [asked, Half.entries] at hall
      cases hstart : Half.start kind (s.entryAddr (3 + 2 * k)) with
      | none =>
        rw [hstart] at hread
        rw [isSome_none, entryLoop, ← Prod.eta (step k s), hread]
      | some x =>
        obtain ⟨h, next'⟩ := x
        rw [hstart] at hall hread
        obtain ⟨hok, hr, -⟩ := hread
        rw [isSome_none, entryLoop, ← Prod.eta (step k s), hok]
        refine ih _ fun h => hall ?_
        rw [asked_congr hr] at h
        exact succ_le_succ h

/-- The exception response to a frame. -/
def exceptionResp (s : Slave ω) (e : MbError) : Resp :=
  .exception (withCrc [s.receiveBuff 0, s.receiveBuff 1 + 0x80, e.code])

/-- The answer to a request to read a list, of a limited number of entries. -/
def listResp (s : Slave ω) (kind : AddrKind) (limit : Nat) : Resp :=
  if limit < s.listCnt then s.exceptionResp .iliegalData
  else if s.listCnt ≤ (s.asked kind s.listCnt 0 none).length then
    .normal (withCrc (s.receiveBuff.bytes 3 ++ s.listData kind))
  else s.exceptionResp .iliegalAddr

theorem mbSlaveErrorResp_sent_one {s : Slave ω} (hb : ¬ m.isBroadcastInfo) (e : MbError) :
    (s.mbSlaveErrorResp m e).sent = s.sent ++ [s.exceptionResp e] := by
  rw [mbSlaveErrorResp_sent, if_neg hb, exceptionResp]

/-- The bytes in front of the entries are those of the request. -/
theorem bytes_copyRequest (s : Slave ω) (n k : Nat) :
    (s.copyRequest n).respBuff.bytes (n + k) = s.receiveBuff.bytes n ++ s.respBuff.slice n k := by
  rw [Buff.bytes_eq_slice, Buff.slice_add, Nat.zero_add, ← Buff.bytes_eq_slice]
  congr 1
  · exact Buff.bytes_copy s.respBuff s.receiveBuff n
  · refine Buff.slice_congr fun j hj _ => ?_
    simp [copyRequest, Buff.copy]
    omega

theorem readList_sent (hstep : ReadsEntries kind step) (htouch : TouchesEntry kind 2 step)
    (s : Slave ω) (limit : Nat) (len : Nat) (hb : ¬ m.isBroadcastInfo)
    (hlen : len = 3 + forceWidth kind * s.listCnt)
    (hlimit : forceWidth kind * limit < 2 ^ 15) :
    (if m.isBroadcastInfo then s
      else if limit < s.listCnt then s.mbSlaveErrorResp m .iliegalData
      else finishList m (fun t => (t.copyRequest 3).mbSlaveVerifyRespMsg m (BitVec.ofNat 16 len))
        (entryLoop step (range s.listCnt) false s)).sent =
      s.sent ++ [s.listResp kind limit] := by
  rw [if_neg hb, listResp]
  by_cases hcnt : limit < s.listCnt
  · rw [if_pos hcnt, if_pos hcnt, mbSlaveErrorResp_sent_one hb]
  rw [if_neg hcnt, if_neg hcnt, range_eq_range']
  by_cases hall : s.listCnt ≤ (s.asked kind s.listCnt 0 none).length
  · obtain ⟨t, hloop, hr, hs, -, hslice⟩ := readLoop_stores hstep (n := s.listCnt) (k := 0)
      none (s := s) (fun h hh => by cases hh) hall
    have hle : forceWidth kind * s.listCnt ≤ forceWidth kind * limit :=
      Nat.mul_le_mul_left _ (Nat.not_lt.mp hcnt)
    have hnat : (BitVec.ofNat 16 len).toNat = 3 + forceWidth kind * s.listCnt := by
      rw [hlen]
      exact mod_eq_of_lt (by omega)
    have hloop : entryLoop step (range' 0 s.listCnt) false s = (t, none) := hloop
    rw [if_pos hall, hloop, finishList, mbSlaveVerifyRespMsg_sent _ _ (by omega), hnat,
      bytes_copyRequest, hr]
    rw [Nat.mul_zero, ← range_eq_range'] at hslice
    rw [hslice]
    exact congrArg (· ++ [_]) hs
  · have hrefused : (entryLoop step (range' 0 s.listCnt) false s).2 = some .iliegalAddr :=
      readLoop_refuses hstep none hall
    obtain ⟨hsent, hrecv, -⟩ := entryLoop_touches htouch (range' 0 s.listCnt) false s
    rw [if_neg hall]
    generalize entryLoop step (range' 0 s.listCnt) false s = r at hrefused hsent hrecv
    obtain ⟨t, x⟩ := r
    cases hrefused
    rw [finishList, mbSlaveErrorResp_sent_one hb, hsent, exceptionResp, hrecv]
    rfl

theorem readMultipleBitElement_sent (s : Slave ω) (hb : ¬ m.isBroadcastInfo) :
    (s.mbSlaveReadMultipleBitElement m).sent = s.sent ++ [s.listResp .bit 0x50] :=
  readList_sent readBitEntry_reads readBitEntry_touches s 0x50 _ hb
    (by simp only [forceWidth]; omega) (by decide)

theorem readMultipleWordElement_sent (s : Slave ω) (hb : ¬ m.isBroadcastInfo) :
    (s.mbSlaveReadMultipleWordElement m).sent = s.sent ++ [s.listResp .word 0x3C] :=
  readList_sent readWordEntry_reads readWordEntry_touches s 0x3C _ hb
    (by simp only [forceWidth]; omega) (by decide)

/-! ## Blocks -/

/-- The answer to a request to read a block of bits. -/
def bitsResp (s : Slave ω) (m : MsgPack) (base : BitElement → BitElement) (shift : Bool) : Resp :=
  match s.readBitsRequest m base with
  | .error e => s.exceptionResp e
  | .ok (e, addr, cnt) =>
    let data := packBits shift ((range cnt).map fun i => s.store.bit e (addr + i))
    .normal (withCrc (s.receiveBuff.bytes 2 ++ BitVec.ofNat 8 data.length :: data))

/-- The answer to a request to read a block of registers. -/
def registersResp (s : Slave ω) (m : MsgPack) : Resp :=
  match s.readRegistersRequest m with
  | .error e => s.exceptionResp e
  | .ok (r, addr, cnt) =>
    let data := (range cnt).flatMap fun i => r.read s.store (addr + i)
    .normal (withCrc (s.receiveBuff.bytes 2 ++ BitVec.ofNat 8 data.length :: data))

/-- Bits are packed into few bytes. -/
theorem length_packBits_le (shift : Bool) (f : Nat → Bool) (cnt : Nat) :
    (packBits shift ((range cnt).map f)).length ≤ cnt / 8 + 1 := by
  rcases Nat.eq_zero_or_pos cnt with rfl | hpos
  · simp [packBits]
  · rw [length_packBits shift f hpos]
    omega

theorem length_registers (r : Register) (st : Store) (addr cnt : Nat) :
    ((range cnt).flatMap fun i => r.read st (addr + i)).length =
      r.width * cnt := by
  simp [Nat.mul_comm]

theorem readBits_sent (s : Slave ω) (hb : ¬ m.isBroadcastInfo) (base : BitElement → BitElement)
    (shift : Bool) : (s.readBits m base shift).sent = s.sent ++ [s.bitsResp m base shift] := by
  rw [readBits, if_neg hb, bitsResp]
  cases h : s.readBitsRequest m base with
  | error e => exact mbSlaveErrorResp_sent_one hb e
  | ok x =>
    obtain ⟨e, addr, cnt⟩ := x
    obtain ⟨-, hcnt, rfl, -⟩ := readBitsRequest_eq_ok_iff.mp h
    have hlen := length_packBits_le shift (fun i => s.store.bit e (addr + i)) s.reqCnt
    have hmax : mbMaxRBitNum = 2000 := rfl
    rw [respond_sent]
    · rfl
    · simp only [length_cons]
      change 2 + ((packBits shift ((range s.reqCnt).map fun i =>
        s.store.bit e (addr + i))).length + 1) + 2 < _
      omega

theorem readHoldingRegister_sent (s : Slave ω) (hb : ¬ m.isBroadcastInfo) :
    (s.mbSlaveReadHoldingRegister m).sent = s.sent ++ [s.registersResp m] := by
  rw [mbSlaveReadHoldingRegister, if_neg hb, registersResp]
  cases h : s.readRegistersRequest m with
  | error e => exact mbSlaveErrorResp_sent_one hb e
  | ok x =>
    obtain ⟨r, addr, cnt⟩ := x
    obtain ⟨-, hcnt, rfl, -⟩ := readRegistersRequest_eq_ok_iff.mp h
    have hlen := length_registers r s.store addr s.reqCnt
    have hmax : mbMaxRWordNum = 125 := rfl
    rw [respond_sent]
    · rfl
    · simp only [length_cons]
      change 2 + (((range s.reqCnt).flatMap fun i => r.read s.store (addr + i)).length + 1) + 2 < _
      rw [hlen]
      cases r <;> simp only [Register.width] <;> omega

end Slave

end Kalyke
