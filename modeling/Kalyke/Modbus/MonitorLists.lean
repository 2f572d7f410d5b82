-- SUMMARY: The lists of monitored elements with their lengths, over runs of downloads and uploads.
import Mathlib.Data.List.TakeWhile
import Kalyke.Modbus.AddressMap
import Kalyke.Modbus.ListenOnly
import Kalyke.Modbus.Reads

/-!
# Runs of Requests to Monitor

A list of monitored elements is downloaded whole, and each upload of it takes the values anew. A
download with the number of the first frame or of the last frees the old list before it looks at the
new one, so one that is refused leaves what comes before the address it stopped at. Another download
is acknowledged and changes nothing.
-/

namespace Kalyke

open List Nat BitVec Function

/-! ## Addresses and Values -/

/-- An address of an element to monitor, with its kind. -/
abbrev MonitorAddr := AddrKind × BitVec 16

/-- The value of what an address denotes. -/
def Denoted.value (st : Store) : Denoted → BitVec 16
  | element t n =>
    match t.bit?, t.word? with
    | some e, _ => (ofBool (st.bit e n)).setWidth 16
    | none, some e => st.word e n
    | none, none => 0
  | half c second => if second then (st.c32 c).extractLsb' 16 16 else (st.c32 c).extractLsb' 0 16

namespace MonitorAddr

def mapped (a : MonitorAddr) : Bool := (mbSlaveConvertElementInfo a.1 a.2.toNat).isSome

def value (st : Store) (a : MonitorAddr) : BitVec 16 :=
  ((denotes a.1 a.2.toNat).map (Denoted.value st)).getD 0

/-- An address and its value in a response: of a bit one byte, of a word two. -/
def bytes (st : Store) (a : MonitorAddr) : List Byte :=
  match a.1 with
  | .bit => [hiByte a.2, loByte a.2, loByte (a.value st)]
  | .word => [hiByte a.2, loByte a.2, hiByte (a.value st), loByte (a.value st)]

/-- The bytes that an address takes in a response. -/
def width (a : MonitorAddr) : Nat :=
  match a.1 with
  | .bit => 3
  | .word => 4

end MonitorAddr

/-- Some addresses of a request, one behind the other. -/
def Buff.monitorAddrs (b : Buff) (kind : AddrKind) (start cnt : Nat) : List MonitorAddr :=
  (range cnt).map fun i => (kind, b.bigPU16 (start + 2 * i))

namespace Monitor

/-- The addresses that a download gives. -/
def requested (b : Buff) : Monitor → List MonitorAddr
  | bits => b.monitorAddrs .bit 7 (b 6).toNat
  | words => b.monitorAddrs .word 7 (b 6).toNat
  | bitsWords =>
    b.monitorAddrs .bit 8 (b 4).toNat ++ b.monitorAddrs .word (8 + 2 * (b 4).toNat) (b 5).toNat

def Fits : Monitor → List MonitorAddr → Prop
  | bits, as | words, as => as.length ≤ 250
  | bitsWords, as => 6 + (as.map MonitorAddr.width).sum < 1000

/-- The numbers of elements in a response. -/
def counts : Monitor → List MonitorAddr → List Nat
  | bits, as | words, as => [as.length]
  | bitsWords, as => [as.countP (·.1 = .bit), as.countP (·.1 = .word)]

end Monitor

/-! ## Lists -/

/-- `mb_monitor_element_head_t`. -/
structure MonitorList where
  listLen : BitVec 16
  head : List ListedElement
deriving DecidableEq, Repr

namespace MonitorList

/-- The list as `plc_sysinit` leaves it, and as a download clears it. -/
def init : MonitorList := ⟨0, []⟩

/-- Append an element and count it. -/
def addTail (l : MonitorList) (e : ListedElement) : MonitorList := ⟨l.listLen + 1, l.head ++ [e]⟩

/-- The entries up to the first that is refused, and whether none is. -/
def addEntries : List MonitorAddr → MonitorList → MonitorList × Bool
  | [], l => (l, true)
  | a :: as, l =>
    match mbSlaveConvertElementInfo a.1 a.2.toNat with
    | none => (l, false)
    | some (t, addr) => addEntries as (l.addTail ⟨t, addr, a.2, 0⟩)

/-- `mb_slave_download_monitor_bits` and its siblings, and whether the download is acknowledged. -/
def download (num : Byte) (as : List MonitorAddr) (l : MonitorList) : MonitorList × Bool :=
  if num = 0x01 ∨ num = 0xFE then addEntries as init else (l, true)

end MonitorList

def ListedElement.monitorAddr (e : ListedElement) : MonitorAddr :=
  (e.elementType.kind, e.modbusAddr)

/-- The addresses of a list. -/
def MonitorList.addrs (l : MonitorList) : List MonitorAddr := l.head.map ListedElement.monitorAddr

variable {ω : Type}

/-! ## Runs -/

/-- The slave with the lengths of its lists, and the addresses that it last acknowledged. -/
structure Monitored (ω : Type) where
  slave : Slave ω
  listLen : Monitor → BitVec 16
  given : Monitor → List MonitorAddr

/-- What happens to the slave: a download of a list, an upload, or all else. -/
inductive MonitorEvent (ω : Type) where
  | download (k : Monitor) (x : Message)
  | upload (k : Monitor) (x : Message)
  | other (s : Slave ω)

/-- Something was answered that is not an exception. -/
def Slave.acknowledged (s s' : Slave ω) : Bool := (s'.sent.drop s.sent.length).any Resp.isNormal

/-- An upload is answered with the values of some addresses, as they are now. -/
def Slave.ReturnsList (s s' : Slave ω) (x : Message) (k : Monitor) (as : List MonitorAddr) : Prop :=
  ∃ cnts : List Byte, cnts.map BitVec.toNat = k.counts as ∧
    s'.sent = s.sent ++ [.normal (withCrc (x.receiveBuff.bytes 3 ++
      0xFE :: cnts ++ as.flatMap (MonitorAddr.bytes s.store)))]

namespace Monitored

/-- A slave after it was switched on. -/
structure PowerUp (t : Monitored ω) : Prop where
  monitor : ∀ k, t.slave.monitor k = []
  listLen : ∀ k, t.listLen k = 0
  given : ∀ k, t.given k = []

/-- A list with its length. -/
def list (t : Monitored ω) (k : Monitor) : MonitorList := ⟨t.listLen k, t.slave.monitor k⟩

/-- A list but for the values, which are taken when it is sent. -/
def inForce (t : Monitored ω) (k : Monitor) : List ListedElement :=
  (t.slave.monitor k).map fun e => { e with elementValue := 0 }

def download (t : Monitored ω) (k : Monitor) (x : Message) : Monitored ω :=
  let s := (t.slave.take x).downloadMonitor x.pack k
  let as := k.requested x.receiveBuff
  { slave := s
    listLen := update t.listLen k
      (MonitorList.download (x.receiveBuff 3) as (t.list k)).1.listLen
    given := if t.slave.acknowledged s then update t.given k as else t.given }

def upload (t : Monitored ω) (k : Monitor) (x : Message) : Monitored ω :=
  { t with slave := (t.slave.take x).uploadMonitor x.pack k }

/-- What an event does. -/
def step (t : Monitored ω) : MonitorEvent ω → Monitored ω
  | .download k x => t.download k x
  | .upload k x => t.upload k x
  | .other s => { t with slave := s }

/-- All else leaves the lists alone. -/
def Legal (t : Monitored ω) : MonitorEvent ω → Prop
  | .other s => s.monitor = t.slave.monitor
  | _ => True

/-- An upload of the first frame gets the list that was acknowledged if that fits. A download that
is refused leaves the lists as they are. -/
def Right (t : Monitored ω) : MonitorEvent ω → Prop
  | .download k x =>
    if t.slave.acknowledged (t.download k x).slave then
      k.Fits (k.requested x.receiveBuff) →
        ((t.download k x).listLen k).toNat = (k.requested x.receiveBuff).length
    else (t.download k x).inForce = t.inForce ∧ (t.download k x).listLen = t.listLen
  | .upload k x => x.receiveBuff 3 = 0x01 → k.Fits (t.given k) →
      t.slave.ReturnsList (t.upload k x).slave x k (t.given k) ∧
        (t.listLen k).toNat = (t.given k).length
  | .other _ => True

/-- A download has the number of the first frame or of the last, and all its addresses are mapped or
those before the first that is not are the ones in the list. Or it has another number and the
addresses in the list already. -/
def Settled (t : Monitored ω) : MonitorEvent ω → Prop
  | .download k x =>
    let as := k.requested x.receiveBuff
    if x.receiveBuff 3 = 0x01 ∨ x.receiveBuff 3 = 0xFE then
      (∀ a ∈ as, a.mapped) ∨ as.takeWhile MonitorAddr.mapped = (t.list k).addrs
    else k.Fits as → as = (t.list k).addrs
  | _ => True

end Monitored

/-! ## One List -/

namespace MonitorList

variable {l : MonitorList}

/-- A list of mapped elements, and its length. -/
structure Inv (l : MonitorList) : Prop where
  mapped : ∀ e ∈ l.head,
    mbSlaveConvertElementInfo e.elementType.kind e.modbusAddr.toNat =
      some (e.elementType, e.elementAddr)
  counted : l.listLen.toNat = l.head.length

theorem inv_init : init.Inv where
  mapped e he := by cases he
  counted := rfl

theorem Inv.addTail (h : l.Inv) {e : ListedElement} (hlen : l.head.length + 1 < 2 ^ 16)
    (he : mbSlaveConvertElementInfo e.elementType.kind e.modbusAddr.toNat =
      some (e.elementType, e.elementAddr)) : (l.addTail e).Inv where
  mapped e' he' := by
    rcases mem_append.mp he' with he' | he'
    · exact h.mapped e' he'
    · rw [mem_singleton.mp he', he]
  counted := by
    have hhead : (l.addTail e).head.length = l.head.length + 1 := length_append
    rw [hhead, MonitorList.addTail, toNat_add, h.counted]
    exact mod_eq_of_lt hlen

theorem addEntries_append (as bs : List MonitorAddr) (l : MonitorList) :
    addEntries (as ++ bs) l =
      if (addEntries as l).2 then addEntries bs (addEntries as l).1 else addEntries as l := by
  induction as generalizing l with
  | nil => rfl
  | cons a as ih =>
    rw [List.cons_append, addEntries, addEntries]
    cases mbSlaveConvertElementInfo a.1 a.2.toNat with
    | none => rfl
    | some x => exact ih _

/-- The entries are those before the first address that is not mapped. -/
theorem addEntries_spec (as : List MonitorAddr) (h : l.Inv)
    (hlen : l.head.length + as.length < 2 ^ 16) :
    (addEntries as l).1.Inv ∧
      (addEntries as l).1.addrs = l.addrs ++ as.takeWhile MonitorAddr.mapped ∧
      ((addEntries as l).2 = true ↔ ∀ a ∈ as, a.mapped) := by
  induction as generalizing l with
  | nil => exact ⟨h, (append_nil _).symm, by simp [addEntries]⟩
  | cons a as ih =>
    obtain ⟨kind, addr⟩ := a
    rw [length_cons] at hlen
    rw [addEntries, forall_mem_cons]
    cases hconv : mbSlaveConvertElementInfo kind addr.toNat with
    | none =>
      have hno : MonitorAddr.mapped (kind, addr) = false := by
        rw [MonitorAddr.mapped, hconv]
        rfl
      rw [takeWhile_cons_of_neg (by rw [hno]; exact Bool.false_ne_true), append_nil, hno]
      exact ⟨h, rfl, by simp⟩
    | some x =>
      obtain ⟨t, n⟩ := x
      have hyes : MonitorAddr.mapped (kind, addr) = true := by
        rw [MonitorAddr.mapped, hconv]
        rfl
      have hkind : t.kind = kind := (convert_eq_some_iff.mp hconv).1
      have hadd : (l.addTail ⟨t, n, addr, 0⟩).Inv := by
        refine h.addTail (by omega) ?_
        rw [hkind]
        exact hconv
      have hlast : (l.addTail ⟨t, n, addr, 0⟩).head.length = l.head.length + 1 :=
        length_append
      obtain ⟨hinv, haddrs, hall⟩ := ih hadd (by omega)
      refine ⟨hinv, ?_, ?_⟩
      · dsimp only
        rw [haddrs, takeWhile_cons_of_pos hyes, addrs, MonitorList.addTail, map_append,
          List.append_assoc, ← hkind]
        rfl
      · dsimp only
        rw [hall, hyes]
        exact (and_iff_right rfl).symm

end MonitorList

/-! ## Downloads -/

namespace Slave

variable {s t : Slave ω} {m : MsgPack} {k : Monitor} {l : MonitorList}

theorem setMonitor_self (t : Slave ω) (k : Monitor) : t.setMonitor k (t.monitor k) = t := by
  rw [setMonitor, update_eq_self]

theorem setMonitor_setMonitor (t : Slave ω) (k : Monitor) (es es' : List ListedElement) :
    (t.setMonitor k es).setMonitor k es' = t.setMonitor k es' := by
  simp only [setMonitor, update_idem]

@[simp] theorem monitor_setMonitor (t : Slave ω) (k : Monitor) (es : List ListedElement) :
    (t.setMonitor k es).monitor k = es := update_self ..

@[simp] theorem mbSlaveErrorResp_monitor (s : Slave ω) (m : MsgPack) (e : MbError) :
    (s.mbSlaveErrorResp m e).monitor = s.monitor := by
  unfold mbSlaveErrorResp
  split <;> rfl

theorem monitorEntries_eq (kind : AddrKind) (start cnt : Nat) (hl : t.monitor k = l.head) :
    monitorEntries k kind start cnt t =
      (t.setMonitor k (l.addEntries (t.receiveBuff.monitorAddrs kind start cnt)).1.head,
        if (l.addEntries (t.receiveBuff.monitorAddrs kind start cnt)).2 then none
        else some .iliegalData) := by
  suffices h : ∀ (is : List Nat) (u : Slave ω) (l : MonitorList),
      u.receiveBuff = t.receiveBuff → u.monitor k = l.head →
      entryLoop (monitorEntry k kind start) is false u =
        (u.setMonitor k (l.addEntries
          (is.map fun i => (kind, t.receiveBuff.bigPU16 (start + 2 * i)))).1.head,
          if (l.addEntries (is.map fun i => (kind, t.receiveBuff.bigPU16 (start + 2 * i)))).2
          then none else some .iliegalData) from h _ t l rfl hl
  intro is
  induction is with
  | nil =>
    intro u l _ hl
    rw [map_nil, MonitorList.addEntries, ← hl, setMonitor_self]
    rfl
  | cons i is ih =>
    intro u l hu hl
    rw [entryLoop, monitorEntry, hu, map_cons, MonitorList.addEntries]
    cases mbSlaveConvertElementInfo kind (t.receiveBuff.bigPU16 (start + 2 * i)).toNat with
    | none =>
      rw [← hl, setMonitor_self]
      rfl
    | some x =>
      let l' := l.addTail ⟨x.1, x.2, t.receiveBuff.bigPU16 (start + 2 * i), 0⟩
      have hrest := ih (u.setMonitor k l'.head) l' hu (monitor_setMonitor u k _)
      rw [setMonitor_setMonitor] at hrest
      rw [hl]
      exact hrest

theorem downloadMonitor_eq (hl : s.monitor k = l.head) :
    s.downloadMonitor m k = finishList m (fun s => s.respond m 4 [])
      (s.setMonitor k (l.download s.frameNum (k.requested s.receiveBuff)).1.head,
        if (l.download s.frameNum (k.requested s.receiveBuff)).2 then none
        else some .iliegalData) := by
  unfold downloadMonitor MonitorList.download
  by_cases hnum : s.frameNum = 0x01 ∨ s.frameNum = 0xFE
  · dsimp only
    rw [if_pos hnum, if_pos hnum]
    have hnil : (s.setMonitor k []).monitor k = MonitorList.init.head := monitor_setMonitor s k []
    cases k with
    | bits =>
      rw [monitorEntries_eq .bit 7 _ hnil, setMonitor_setMonitor]
      rfl
    | words =>
      rw [monitorEntries_eq .word 7 _ hnil, setMonitor_setMonitor]
      rfl
    | bitsWords =>
      rw [monitorEntries_eq .bit 8 _ hnil, setMonitor_setMonitor, Monitor.requested,
        MonitorList.addEntries_append]
      have hbuff : (s.setMonitor .bitsWords []).receiveBuff = s.receiveBuff := rfl
      rw [hbuff]
      obtain ⟨bits, all⟩ := MonitorList.init.addEntries
        (s.receiveBuff.monitorAddrs .bit 8 (s.receiveBuff 4).toNat)
      cases all with
      | true =>
        rw [if_pos rfl]
        dsimp only
        rw [monitorEntries_eq .word _ _ (monitor_setMonitor s .bitsWords _), setMonitor_setMonitor]
        rfl
      | false => rfl
  · dsimp only
    rw [if_neg hnum, if_neg hnum, ← hl, setMonitor_self]
    rfl

end Slave

/-! ## Uploads -/

theorem monitorValue_eq (st : Store) (t : MbElement) (n : Nat) :
    monitorValue st t n = (t.denoted n).value st := by
  unfold MbElement.denoted monitorValue
  by_cases hc : t = .wordC ∧ c16Rang ≤ n
  · rw [if_pos hc, MbElement.register?, if_pos hc, hc.1]
    simp only [MbElement.bit?, Denoted.value, c32RealAddr, decide_eq_true_eq]
    rcases mod_two_eq_zero_or_one (n - c16Rang) with h | h
    · rw [if_neg (not_not.mpr h), if_neg (by rw [h]; exact Nat.zero_ne_one)]
    · rw [if_pos (by rw [h]; exact Nat.one_ne_zero), if_pos h]
  · rw [if_neg hc, MbElement.register?, if_neg hc]
    cases t <;> rfl

/-- The bytes of an element whose value was taken are those of its address. -/
theorem bytes_refresh {st : Store} {e : ListedElement}
    (h : mbSlaveConvertElementInfo e.elementType.kind e.modbusAddr.toNat =
      some (e.elementType, e.elementAddr)) : (e.refresh st).bytes = e.monitorAddr.bytes st := by
  have hvalue : (e.refresh st).elementValue = e.monitorAddr.value st := by
    rw [MonitorAddr.value, ListedElement.monitorAddr, denotes, h]
    exact monitorValue_eq st e.elementType e.elementAddr
  rw [ListedElement.bytes, ListedElement.bitBytes, ListedElement.wordBytes, hvalue]
  rfl

theorem length_monitorBytes (st : Store) (as : List MonitorAddr) :
    (as.flatMap (MonitorAddr.bytes st)).length = (as.map MonitorAddr.width).sum := by
  rw [length_flatMap]
  congr 1
  refine map_congr_left fun a _ => ?_
  rw [MonitorAddr.bytes, MonitorAddr.width]
  cases a.1 <;> rfl

theorem sum_width {kind : AddrKind} {as : List MonitorAddr} (h : ∀ a ∈ as, a.1 = kind) :
    (as.map MonitorAddr.width).sum = as.length * MonitorAddr.width (kind, 0) := by
  have hall : as.map MonitorAddr.width =
      List.replicate as.length (MonitorAddr.width (kind, 0)) := by
    refine map_eq_replicate_iff.mpr fun a ha => ?_
    rw [MonitorAddr.width, MonitorAddr.width, h a ha]
  rw [hall, sum_replicate_nat]

/-- A mixed list that fits is sent whole. -/
theorem takeFrame_eq (st : Store) (es : List ListedElement) (n : Nat)
    (h : n + ((es.map ListedElement.monitorAddr).map MonitorAddr.width).sum < 1000) :
    takeFrame n (es.map (ListedElement.refresh st)) = es.map (ListedElement.refresh st) := by
  induction es generalizing n with
  | nil => rfl
  | cons e es ih =>
    rw [map_cons, map_cons, sum_cons] at h
    have hwidth : (if (e.refresh st).elementType.kind = .bit then 3 else 4) =
        e.monitorAddr.width := by
      rw [ListedElement.monitorAddr, ListedElement.refresh]
      cases e.elementType.kind <;> rfl
    rw [map_cons, takeFrame, if_neg (by omega), ih _ (by omega)]

/-- What a request can name. -/
def Monitor.Names : Monitor → List MonitorAddr → Prop
  | bits, as => ∀ a ∈ as, a.1 = .bit
  | words, as => ∀ a ∈ as, a.1 = .word
  | bitsWords, as => as.countP (·.1 = .bit) < 2 ^ 8 ∧ as.countP (·.1 = .word) < 2 ^ 8

namespace Slave

variable {s : Slave ω} {k : Monitor} {l : MonitorList}

/-- A response of some bytes of the request, some in front of the data, and the data. -/
theorem framed_sent (s : Slave ω) (m : MsgPack) (n : Nat) (head data : List Byte)
    (hn : 3 + head.length = n) {len : BitVec 16} (hlen : len.toNat = n + data.length)
    (hshort : n + data.length + 2 < 2 ^ 16) :
    ((((s.putResp n data).copyRequest 3).putResp 3 head).mbSlaveVerifyRespMsg m len).sent =
      s.sent ++ [.normal (withCrc (s.receiveBuff.bytes 3 ++ head ++ data))] := by
  rw [mbSlaveVerifyRespMsg_sent _ _ (by rw [hlen]; exact hshort), hlen]
  have hdata : (((s.putResp n data).copyRequest 3).putResp 3 head).respBuff.slice n data.length =
      data := by
    refine (Buff.slice_congr fun i hi _ => ?_).trans (s.respBuff.slice_putList n data)
    have hhead : head.length ≤ i - 3 := by omega
    simp only [putResp, copyRequest]
    rw [Buff.putList, if_pos (by omega), getD_eq_default _ _ hhead, Buff.copy,
      if_neg (by omega)]
  rw [Buff.bytes_eq_slice, Buff.slice_add, Nat.zero_add, hdata, ← Buff.bytes_eq_slice, ← hn]
  simp only [putResp, copyRequest, Buff.bytes_putList, Buff.bytes_copy]

theorem toNat_loByte {n : Nat} (h : n < 2 ^ 8) : (loByte (BitVec.ofNat 16 n)).toNat = n := by
  rw [loByte, extractLsb'_toNat, toNat_ofNat, shiftRight_zero,
    mod_eq_of_lt (h.trans (by decide)), mod_eq_of_lt h]

theorem uploadMonitor_returns (s : Slave ω) {x : Message} (hnum : x.receiveBuff 3 = 0x01)
    (hl : s.monitor k = l.head) (hinv : l.Inv) (hnames : k.Names l.addrs) (hfits : k.Fits l.addrs) :
    s.ReturnsList ((s.take x).uploadMonitor x.pack k) x k l.addrs := by
  let t := (s.take x).refreshMonitor k
  have hfirst : t.frameNum = 0x01 := hnum
  have hlist : t.monitor k = l.head.map (ListedElement.refresh s.store) := by
    rw [← hl]
    exact update_self ..
  have hlen : (l.head.map (ListedElement.refresh s.store)).length = l.addrs.length := by
    rw [MonitorList.addrs, length_map, length_map]
  have hdata : (l.head.map (ListedElement.refresh s.store)).flatMap ListedElement.bytes =
      l.addrs.flatMap (MonitorAddr.bytes s.store) := by
    rw [MonitorList.addrs, flatMap_map, flatMap_map]
    exact flatMap_congr fun e he => bytes_refresh (hinv.mapped e he)
  have hwidth := length_monitorBytes s.store l.addrs
  have hkinds (kind : AddrKind) (hk : ∀ a ∈ l.addrs, a.1 = kind) :
      ∀ e ∈ l.head.map (ListedElement.refresh s.store), e.elementType.kind = kind := by
    intro e he
    obtain ⟨e', he', rfl⟩ := mem_map.mp he
    exact hk _ (mem_map_of_mem he')
  cases k with
  | bits =>
    have hbytes : (l.head.map (ListedElement.refresh s.store)).flatMap ListedElement.bitBytes =
        l.addrs.flatMap (MonitorAddr.bytes s.store) := by
      rw [← hdata]
      refine flatMap_congr fun e he => ?_
      rw [ListedElement.bytes, hkinds .bit hnames e he]
    have hfits : l.addrs.length ≤ 250 := hfits
    have hthree : (l.addrs.map MonitorAddr.width).sum = l.addrs.length * 3 := sum_width hnames
    have hlast : (5 + BitVec.ofNat 16 l.addrs.length * 3).toNat =
        5 + (l.addrs.flatMap (MonitorAddr.bytes s.store)).length := by
      have hfive : (5 : BitVec 16).toNat = 5 := rfl
      have hthree : (3 : BitVec 16).toNat = 3 := rfl
      rw [toNat_add, toNat_mul, toNat_ofNat, hthree]
      omega
    refine ⟨[loByte (BitVec.ofNat 16 l.addrs.length)], ?_, ?_⟩
    · rw [map_singleton, toNat_loByte (by omega)]
      rfl
    · simp only [uploadMonitor, mbSlaveUploadMonitorBits]
      rw [if_pos hfirst, hlist, take_of_length_le (by omega), hbytes, hlen]
      exact t.framed_sent x.pack 5 [0xFE, loByte (BitVec.ofNat 16 l.addrs.length)] _ rfl hlast
        (by omega)
  | words =>
    have hbytes : (l.head.map (ListedElement.refresh s.store)).flatMap ListedElement.wordBytes =
        l.addrs.flatMap (MonitorAddr.bytes s.store) := by
      rw [← hdata]
      refine flatMap_congr fun e he => ?_
      rw [ListedElement.bytes, hkinds .word hnames e he]
    have hfits : l.addrs.length ≤ 250 := hfits
    have hfour : (l.addrs.map MonitorAddr.width).sum = l.addrs.length * 4 := sum_width hnames
    have hlast : (BitVec.ofNat 16 (5 + 4 * l.addrs.length)).toNat =
        5 + (l.addrs.flatMap (MonitorAddr.bytes s.store)).length := by
      rw [toNat_ofNat]
      omega
    refine ⟨[loByte (BitVec.ofNat 16 l.addrs.length)], ?_, ?_⟩
    · rw [map_singleton, toNat_loByte (by omega)]
      rfl
    · simp only [uploadMonitor, mbSlaveUploadMonitorWords]
      rw [if_pos hfirst, hlist, take_of_length_le (by omega), hbytes, hlen]
      exact t.framed_sent x.pack 5 [0xFE, loByte (BitVec.ofNat 16 l.addrs.length)] _ rfl hlast
        (by omega)
  | bitsWords =>
    have hfits : 6 + (l.addrs.map MonitorAddr.width).sum < 1000 := hfits
    have hall : takeFrame 6 (l.head.map (ListedElement.refresh s.store)) =
        l.head.map (ListedElement.refresh s.store) := takeFrame_eq s.store l.head 6 hfits
    have hbits : (l.head.map (ListedElement.refresh s.store)).countP (·.elementType.kind = .bit) =
        l.addrs.countP (·.1 = .bit) := by
      rw [MonitorList.addrs, countP_map, countP_map]
      rfl
    have hwords : (l.head.map (ListedElement.refresh s.store)).length -
        l.addrs.countP (·.1 = .bit) = l.addrs.countP (·.1 = .word) := by
      have hsplit := length_eq_countP_add_countP (fun a : MonitorAddr => decide (a.1 = .bit))
        (l := l.addrs)
      have hword : (fun a : MonitorAddr => decide (¬ decide (a.1 = .bit) = true)) =
          fun a => decide (a.1 = .word) := by
        funext a
        rcases a with ⟨kind, addr⟩
        cases kind <;> rfl
      rw [hword] at hsplit
      omega
    have hlast :
        (BitVec.ofNat 16 (6 + (l.addrs.flatMap (MonitorAddr.bytes s.store)).length)).toNat =
        6 + (l.addrs.flatMap (MonitorAddr.bytes s.store)).length := by
      rw [toNat_ofNat]
      omega
    refine ⟨[BitVec.ofNat 8 (l.addrs.countP (·.1 = .bit)),
      BitVec.ofNat 8 (l.addrs.countP (·.1 = .word))], ?_, ?_⟩
    · rw [map_cons, map_singleton, toNat_ofNat, toNat_ofNat,
        mod_eq_of_lt hnames.1, mod_eq_of_lt hnames.2]
      rfl
    · simp only [uploadMonitor, mbSlaveUploadMonitorBitsWords]
      rw [if_pos hfirst, hlist, hall, hbits, hwords, hdata]
      have hsent := t.framed_sent x.pack 6 [0xFE, BitVec.ofNat 8 (l.addrs.countP (·.1 = .bit)),
        BitVec.ofNat 8 (l.addrs.countP (·.1 = .word))] _ rfl hlast (by omega)
      exact hsent

end Slave

/-! ## What a Request Names -/

namespace Monitor

theorem countP_monitorAddrs_le (b : Buff) (kind : AddrKind) (start cnt : Nat)
    (p : MonitorAddr → Bool) : (b.monitorAddrs kind start cnt).countP p ≤ cnt := by
  refine countP_le_length.trans (Nat.le_of_eq ?_)
  rw [Buff.monitorAddrs, length_map, length_range]

theorem kind_monitorAddrs {b : Buff} {kind : AddrKind} {start cnt : Nat} :
    ∀ a ∈ b.monitorAddrs kind start cnt, a.1 = kind := by
  intro a ha
  obtain ⟨i, -, rfl⟩ := mem_map.mp ha
  rfl

theorem countP_kind_monitorAddrs {b : Buff} {kind kind' : AddrKind} {start cnt : Nat}
    (h : kind ≠ kind') : (b.monitorAddrs kind start cnt).countP (·.1 = kind') = 0 := by
  refine countP_eq_zero.mpr fun a ha => ?_
  rw [kind_monitorAddrs a ha]
  exact mt of_decide_eq_true h

theorem names_requested (k : Monitor) (b : Buff) : k.Names (k.requested b) := by
  cases k with
  | bits => exact kind_monitorAddrs
  | words => exact kind_monitorAddrs
  | bitsWords =>
    rw [requested, Names, countP_append, countP_append,
      countP_kind_monitorAddrs (by decide : AddrKind.word ≠ .bit),
      countP_kind_monitorAddrs (by decide : AddrKind.bit ≠ .word), Nat.zero_add]
    exact ⟨(countP_monitorAddrs_le b _ _ _ _).trans_lt (b 4).isLt,
      (countP_monitorAddrs_le b _ _ _ _).trans_lt (b 5).isLt⟩

/-- A part of what a request can name. -/
theorem Names.sublist {k : Monitor} {as bs : List MonitorAddr} (h : k.Names bs)
    (hsub : as.Sublist bs) : k.Names as := by
  cases k with
  | bits => exact fun a ha => h a (hsub.subset ha)
  | words => exact fun a ha => h a (hsub.subset ha)
  | bitsWords => exact ⟨hsub.countP_le.trans_lt h.1, hsub.countP_le.trans_lt h.2⟩

/-- The length of a list of the slave fits its field. -/
theorem length_requested (k : Monitor) (b : Buff) : (k.requested b).length < 2 ^ 16 := by
  have hlen (kind : AddrKind) (start cnt : Nat) :
      (b.monitorAddrs kind start cnt).length = cnt := by
    rw [Buff.monitorAddrs, length_map, length_range]
  cases k with
  | bits => rw [requested, hlen]; omega
  | words => rw [requested, hlen]; omega
  | bitsWords => rw [requested, length_append, hlen, hlen]; omega

end Monitor

/-! ## Steps -/

/-- What was answered behind what had been sent before. -/
theorem Slave.acknowledged_eq {s s' : Slave ω} {rs : List Resp} (h : s'.sent = s.sent ++ rs) :
    s.acknowledged s' = rs.any Resp.isNormal := by
  rw [Slave.acknowledged, h, drop_left]

namespace Monitored

variable {t : Monitored ω} {k : Monitor} {x : Message}

/-- The list that a download makes of another, and whether it is acknowledged. -/
def downloaded (t : Monitored ω) (k : Monitor) (x : Message) : MonitorList × Bool :=
  (t.list k).download (x.receiveBuff 3) (k.requested x.receiveBuff)

/-- What a download does. -/
theorem download_spec (t : Monitored ω) (k : Monitor) (x : Message) :
    (t.download k x).list = update t.list k (t.downloaded k x).1 ∧
      t.slave.acknowledged (t.download k x).slave = (t.downloaded k x).2 := by
  have hslave : (t.download k x).slave = Slave.finishList x.pack (fun s => s.respond x.pack 4 [])
      ((t.slave.take x).setMonitor k (t.downloaded k x).1.head,
        if (t.downloaded k x).2 then none else some .iliegalData) :=
    Slave.downloadMonitor_eq (l := t.list k) rfl
  have hmonitor : (t.download k x).slave.monitor =
      update t.slave.monitor k (t.downloaded k x).1.head ∧
        t.slave.acknowledged (t.download k x).slave = (t.downloaded k x).2 := by
    rw [hslave]
    cases (t.downloaded k x).2 with
    | true =>
      obtain ⟨frame, hframe⟩ := Slave.respond_normal
        ((t.slave.take x).setMonitor k (t.downloaded k x).1.head) x.pack 4 []
      exact ⟨rfl, Slave.acknowledged_eq hframe⟩
    | false =>
      refine ⟨Slave.mbSlaveErrorResp_monitor _ _ _, ?_⟩
      have hsent := Slave.mbSlaveErrorResp_sent
        ((t.slave.take x).setMonitor k (t.downloaded k x).1.head) x.pack .iliegalData
      refine (Slave.acknowledged_eq (s := t.slave) hsent).trans ?_
      cases x.pack.isBroadcastInfo <;> rfl
  refine ⟨?_, hmonitor.2⟩
  funext k'
  rw [list, hmonitor.1]
  rcases eq_or_ne k' k with rfl | hk
  · rw [update_self, update_self]
    exact congrArg₂ MonitorList.mk (update_self ..) rfl
  · rw [update_of_ne hk, update_of_ne hk]
    exact congrArg₂ MonitorList.mk (update_of_ne hk ..) rfl

/-- The lists hold mapped elements, as few as a request can name, with their lengths. What was
acknowledged is in them if it fits. -/
structure Inv (t : Monitored ω) : Prop where
  list : ∀ k, (t.list k).Inv
  names : ∀ k : Monitor, k.Names (t.list k).addrs
  given : ∀ k : Monitor, k.Fits (t.given k) → t.given k = (t.list k).addrs

theorem PowerUp.inv (h : t.PowerUp) : t.Inv := by
  have hlist (k : Monitor) : t.list k = .init :=
    congrArg₂ MonitorList.mk (h.listLen k) (h.monitor k)
  refine ⟨fun k => ?_, fun k => ?_, fun k _ => ?_⟩
  · rw [hlist]
    exact MonitorList.inv_init
  · rw [hlist]
    cases k with
    | bits => exact fun a ha => absurd ha not_mem_nil
    | words => exact fun a ha => absurd ha not_mem_nil
    | bitsWords => exact ⟨Nat.two_pow_pos 8, Nat.two_pow_pos 8⟩
  · rw [hlist, h.given]
    rfl

/-- The list that is built, and when it is acknowledged. -/
theorem downloaded_first (hnum : x.receiveBuff 3 = 0x01 ∨ x.receiveBuff 3 = 0xFE) :
    (t.downloaded k x).1.Inv ∧
      (t.downloaded k x).1.addrs =
        (k.requested x.receiveBuff).takeWhile MonitorAddr.mapped ∧
      ((t.downloaded k x).2 = true ↔ ∀ a ∈ k.requested x.receiveBuff, a.mapped) := by
  rw [downloaded, MonitorList.download, if_pos hnum]
  refine MonitorList.addEntries_spec _ MonitorList.inv_init ?_
  rw [MonitorList.init, length_nil, Nat.zero_add]
  exact k.length_requested x.receiveBuff

theorem downloaded_other (hnum : ¬ (x.receiveBuff 3 = 0x01 ∨ x.receiveBuff 3 = 0xFE)) :
    t.downloaded k x = (t.list k, true) := by
  rw [downloaded, MonitorList.download, if_neg hnum]

/-- Elements of the same addresses are the same but for their values. -/
theorem head_eq {l l' : MonitorList} (h : l.Inv) (h' : l'.Inv) (haddrs : l'.addrs = l.addrs) :
    l'.head.map (fun e => { e with elementValue := 0 }) =
      l.head.map (fun e => { e with elementValue := 0 }) := by
  let entry (a : MonitorAddr) : Option ListedElement :=
    (mbSlaveConvertElementInfo a.1 a.2.toNat).map fun y => ⟨y.1, y.2, a.2, 0⟩
  have hentries {l : MonitorList} (h : l.Inv) :
      (l.head.map fun e => { e with elementValue := 0 }).map some = l.addrs.map entry := by
    rw [MonitorList.addrs, map_map, map_map]
    refine map_congr_left fun e he => ?_
    simp only [comp_apply, entry, ListedElement.monitorAddr, h.mapped e he,
      Option.map_some]
  refine map_injective_iff.mpr (Option.some_injective _) ?_
  rw [hentries h, hentries h', haddrs]

theorem right_of_acknowledged (h : t.Inv) (hacc : (t.downloaded k x).2 = true)
    (hlist : (t.downloaded k x).1.Inv) (hnames : k.Names (t.downloaded k x).1.addrs)
    (hgiven : k.Fits (k.requested x.receiveBuff) →
      k.requested x.receiveBuff = (t.downloaded k x).1.addrs) :
    t.Right (.download k x) ∧ (t.download k x).Inv := by
  obtain ⟨hspec, hanswer⟩ := download_spec t k x
  rw [hacc] at hanswer
  have hat : (t.download k x).list k = (t.downloaded k x).1 := by rw [hspec, update_self]
  have hof {k' : Monitor} (hk : k' ≠ k) : (t.download k x).list k' = t.list k' := by
    rw [hspec, update_of_ne hk]
  have hgot : (t.download k x).given = update t.given k (k.requested x.receiveBuff) :=
    if_pos hanswer
  refine ⟨?_, fun k' => ?_, fun k' => ?_, fun k' hfits => ?_⟩
  · rw [Right, if_pos hanswer]
    intro hfits
    have hlen : (t.download k x).listLen k = (t.downloaded k x).1.listLen :=
      congrArg MonitorList.listLen hat
    rw [hlen, hlist.counted, hgiven hfits, MonitorList.addrs, length_map]
  · rcases eq_or_ne k' k with rfl | hk
    · rw [hat]
      exact hlist
    · rw [hof hk]
      exact h.list k'
  · rcases eq_or_ne k' k with rfl | hk
    · rw [hat]
      exact hnames
    · rw [hof hk]
      exact h.names k'
  · rw [hgot] at hfits ⊢
    rcases eq_or_ne k' k with rfl | hk
    · rw [update_self] at hfits ⊢
      rw [hat]
      exact hgiven hfits
    · rw [update_of_ne hk] at hfits ⊢
      rw [hof hk]
      exact h.given k' hfits

/-- A download that is refused where it would build the addresses that are in the list. -/
theorem right_of_refused (h : t.Inv) (hacc : (t.downloaded k x).2 = false)
    (hlist : (t.downloaded k x).1.Inv)
    (haddrs : (t.downloaded k x).1.addrs = (t.list k).addrs) :
    t.Right (.download k x) ∧ (t.download k x).Inv := by
  obtain ⟨hspec, hanswer⟩ := download_spec t k x
  rw [hacc] at hanswer
  have hno : ¬ t.slave.acknowledged (t.download k x).slave = true := by
    rw [hanswer]
    exact Bool.false_ne_true
  have hgot : (t.download k x).given = t.given := if_neg hno
  have hsame (k' : Monitor) : ((t.download k x).list k').Inv ∧
      ((t.download k x).list k').addrs = (t.list k').addrs := by
    rw [hspec]
    rcases eq_or_ne k' k with rfl | hk
    · rw [update_self]
      exact ⟨hlist, haddrs⟩
    · rw [update_of_ne hk]
      exact ⟨h.list k', rfl⟩
  refine ⟨?_, fun k' => (hsame k').1, fun k' => ?_, fun k' hfits => ?_⟩
  · rw [Right, if_neg hno]
    refine ⟨funext fun k' => head_eq (h.list k') (hsame k').1 (hsame k').2, funext fun k' => ?_⟩
    have hlen := congrArg length (hsame k').2
    rw [MonitorList.addrs, MonitorList.addrs, length_map, length_map,
      ← (hsame k').1.counted, ← (h.list k').counted] at hlen
    exact eq_of_toNat_eq hlen
  · rw [(hsame k').2]
    exact h.names k'
  · rw [hgot] at hfits ⊢
    rw [(hsame k').2]
    exact h.given k' hfits

/-- A download that meets the condition. -/
theorem right_download (h : t.Inv) (hset : t.Settled (.download k x)) :
    t.Right (.download k x) ∧ (t.download k x).Inv := by
  rw [Settled] at hset
  split at hset
  case isTrue hnum =>
    obtain ⟨hlist, haddrs, hall⟩ := downloaded_first (t := t) (k := k) hnum
    by_cases hmapped : ∀ a ∈ k.requested x.receiveBuff, a.mapped
    · refine right_of_acknowledged h (hall.mpr hmapped) hlist ?_ fun _ => ?_
      · rw [haddrs]
        exact (k.names_requested x.receiveBuff).sublist (takeWhile_sublist _)
      · rw [haddrs, takeWhile_eq_self_iff.mpr hmapped]
    · refine right_of_refused h (Bool.eq_false_iff.mpr (mt hall.mp hmapped)) hlist ?_
      rw [haddrs]
      exact hset.resolve_left hmapped
  case isFalse hnum =>
    have hother := downloaded_other (t := t) (k := k) hnum
    refine right_of_acknowledged h (by rw [hother]) ?_ ?_ fun hfits => ?_
    · rw [hother]
      exact h.list k
    · rw [hother]
      exact h.names k
    · rw [hother]
      exact hset hfits

/-- Where a first or last frame is refused, the condition is exact. -/
theorem right_refused_iff (h : t.Inv) (hnum : x.receiveBuff 3 = 0x01 ∨ x.receiveBuff 3 = 0xFE)
    (hmapped : ¬ ∀ a ∈ k.requested x.receiveBuff, a.mapped) :
    t.Right (.download k x) ↔ t.Settled (.download k x) := by
  refine ⟨fun hright => ?_, fun hset => (right_download h hset).1⟩
  obtain ⟨hlist, haddrs, hall⟩ := downloaded_first (t := t) (k := k) hnum
  obtain ⟨hspec, hanswer⟩ := download_spec t k x
  have hno : ¬ t.slave.acknowledged (t.download k x).slave = true := by
    rw [hanswer]
    exact mt hall.mp hmapped
  rw [Right, if_neg hno] at hright
  rw [Settled, if_pos hnum, ← haddrs]
  right
  have hforce (t' : Monitored ω) :
      (t'.inForce k).map ListedElement.monitorAddr = (t'.list k).addrs := map_map
  have hat : (t.download k x).list k = (t.downloaded k x).1 := by rw [hspec, update_self]
  rw [← hat, ← hforce, ← hforce, hright.1]

/-- An upload changes the values of a list alone. -/
theorem upload_spec (t : Monitored ω) (k : Monitor) (x : Message) :
    (t.upload k x).list = update t.list k
      ⟨t.listLen k, (t.slave.monitor k).map (ListedElement.refresh t.slave.store)⟩ := by
  have hmonitor : (t.upload k x).slave.monitor = update t.slave.monitor k
      ((t.slave.monitor k).map (ListedElement.refresh t.slave.store)) := by
    rw [upload]
    cases k with
    | bits =>
      simp only [Slave.uploadMonitor, Slave.mbSlaveUploadMonitorBits]
      split <;> rfl
    | words =>
      simp only [Slave.uploadMonitor, Slave.mbSlaveUploadMonitorWords]
      split <;> rfl
    | bitsWords =>
      simp only [Slave.uploadMonitor, Slave.mbSlaveUploadMonitorBitsWords]
      split <;> rfl
  funext k'
  rw [list, hmonitor]
  rcases eq_or_ne k' k with rfl | hk
  · rw [update_self, update_self]
    rfl
  · rw [update_of_ne hk, update_of_ne hk]
    rfl

theorem inv_upload (h : t.Inv) : (t.upload k x).Inv := by
  have hspec := upload_spec t k x
  have haddrs (k' : Monitor) : ((t.upload k x).list k').addrs = (t.list k').addrs := by
    rw [hspec]
    rcases eq_or_ne k' k with rfl | hk
    · rw [update_self]
      exact map_map
    · rw [update_of_ne hk]
  refine ⟨fun k' => ?_, fun k' => ?_, fun k' hfits => ?_⟩
  · rw [hspec]
    rcases eq_or_ne k' k with rfl | hk
    · rw [update_self]
      refine ⟨fun e he => ?_, ?_⟩
      · obtain ⟨e', he', rfl⟩ := mem_map.mp he
        exact (h.list k').mapped e' he'
      · rw [length_map]
        exact (h.list k').counted
    · rw [update_of_ne hk]
      exact h.list k'
  · rw [haddrs]
    exact h.names k'
  · rw [haddrs]
    exact h.given k' hfits

theorem right_upload (h : t.Inv) : t.Right (.upload k x) := by
  intro hnum hfits
  have hgiven := h.given k hfits
  rw [hgiven] at hfits ⊢
  refine ⟨Slave.uploadMonitor_returns t.slave hnum rfl (h.list k) (h.names k) hfits, ?_⟩
  rw [MonitorList.addrs, length_map]
  exact (h.list k).counted

theorem step_right {e : MonitorEvent ω} (h : t.Inv) (he : t.Legal e ∧ t.Settled e) :
    t.Right e ∧ (t.step e).Inv := by
  cases e with
  | download k x => exact right_download h he.2
  | upload k x => exact ⟨right_upload h, inv_upload h⟩
  | other s =>
    have hlist (k : Monitor) : (t.step (.other s)).list k = t.list k :=
      congrArg (MonitorList.mk (t.listLen k)) (congrFun he.1 k)
    refine ⟨trivial, fun k => ?_, fun k => ?_, fun k hfits => ?_⟩
    · rw [hlist]
      exact h.list k
    · rw [hlist]
      exact h.names k
    · rw [hlist]
      exact h.given k hfits

/-! ## Runs of Requests -/

/-- From power up on, uploads get the lists that were acknowledged and refused downloads change
nothing, in every run of downloads that meet the condition, with uploads and all else between. -/
theorem monitorLists_right (t : Monitored ω) (es : List (MonitorEvent ω)) (hstart : t.PowerUp)
    (hsteps : Each step (fun t e => t.Legal e ∧ t.Settled e) t es) : Each step Right t es :=
  Each.of_invariant hstart.inv hsteps fun _ _ => step_right

/-- A slave after it was switched on. -/
def powerUp : Monitored Unit := ⟨Slave.idle [], fun _ => 0, fun _ => []⟩

theorem powerUp_starts : powerUp.PowerUp := ⟨fun _ => rfl, fun _ => rfl, fun _ => rfl⟩

def bitDownload (a : BitVec 16) : MonitorEvent Unit :=
  .download .bits (comMessage [1, 0x68, 6, 1, 0, 0, 1, hiByte a, loByte a])

/-- `Y0` is downloaded, and its value is asked for. -/
theorem monitorLists_right_y0 :
    Each step Right powerUp [bitDownload 0, .upload .bits (comMessage [1, 0x69, 6, 1])] :=
  monitorLists_right powerUp _ powerUp_starts
    (Each.cons_iff.mpr ⟨⟨trivial, .inl (by decide)⟩,
      Each.cons_iff.mpr ⟨⟨trivial, trivial⟩, Each.nil⟩⟩)

/-- `Y0` is no longer in the list after the download of an address that is not mapped. -/
theorem y0_lost : ¬ ∀ (t : Monitored Unit) (es : List (MonitorEvent Unit)), t.PowerUp →
    Each step Legal t es → Each step Right t es := by
  intro h
  have hright := h powerUp [bitDownload 0, bitDownload 0xFFFF] powerUp_starts
    (Each.cons_iff.mpr ⟨trivial, Each.cons_iff.mpr ⟨trivial, Each.nil⟩⟩)
  have hfirst := right_download (x := comMessage [1, 0x68, 6, 1, 0, 0, 1, 0, 0]) (k := .bits)
    powerUp_starts.inv (.inl (by decide))
  have hsecond := (Each.cons_iff.mp (Each.cons_iff.mp hright).2).1
  have hsettled := (right_refused_iff hfirst.2 (.inl rfl) (by decide)).mp hsecond
  rcases hsettled with hmapped | haddrs
  · exact absurd hmapped (by decide)
  · have hlist := congrFun (download_spec powerUp .bits
      (comMessage [1, 0x68, 6, 1, 0, 0, 1, 0, 0])).1 .bits
    exact absurd haddrs (by decide)

end Monitored

end Kalyke
