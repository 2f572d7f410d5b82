-- SUMMARY: Slaves that differ in what is left in their buffers and locals, and what they answer.
import Kalyke.Modbus.Account
import Kalyke.Modbus.Plans
import Kalyke.Modbus.Reads

/-!
# Slaves That Look Alike

All responses are made in one buffer, which keeps what earlier ones left. Here two slaves are
compared that agree on the first bytes received and on everything but their buffers and locals.
-/

namespace Kalyke

namespace Buff

/-- What was stored is there, and what was there before the bytes stored. -/
theorem putList_congr {b b' : Buff} {n : Nat} (xs : List Byte) (h : ∀ i < n, b i = b' i) :
    ∀ i < n + xs.length, b.putList n xs i = b'.putList n xs i := by
  intro i hi
  by_cases hn : n ≤ i
  · have hlt : i - n < xs.length := by omega
    simp [putList, hn, hlt]
  · rw [putList_of_lt _ _ (Nat.not_le.mp hn), putList_of_lt _ _ (Nat.not_le.mp hn)]
    exact h i (Nat.not_le.mp hn)

end Buff

variable {ω : Type}

namespace Slave

/-- Other bytes in the buffers, and other locals. -/
def refill (s : Slave ω) (q r : Buff) (l : Stack) : Slave ω :=
  { s with receiveBuff := q, respBuff := r, stack := l }

/-- Slaves that agree on the first bytes received and on all but their buffers and locals. -/
def Alike (n : Nat) (s s' : Slave ω) : Prop :=
  ∃ q r l, (∀ i < n, q i = s.receiveBuff i) ∧ s' = s.refill q r l

namespace Alike

variable {n : Nat} {s s' : Slave ω} {m : MsgPack}

theorem byte (h : Alike n s s') {i : Nat} (hi : i < n) : s'.receiveBuff i = s.receiveBuff i := by
  obtain ⟨q, r, l, hq, rfl⟩ := h
  exact hq i hi

theorem bigPU16 (h : Alike n s s') {i : Nat} (hi : i + 2 ≤ n) :
    s'.receiveBuff.bigPU16 i = s.receiveBuff.bigPU16 i := by
  rw [Buff.bigPU16, h.byte (by omega), h.byte (by omega)]
  rfl

theorem nativePU32 (h : Alike n s s') {i : Nat} (hi : i + 4 ≤ n) :
    s'.receiveBuff.nativePU32 i = s.receiveBuff.nativePU32 i := by
  simp only [Buff.nativePU32, Buff.nativePU16]
  rw [h.byte (by omega), h.byte (by omega), h.byte (by omega), h.byte (by omega)]

theorem slice (h : Alike n s s') {i k : Nat} (hk : i + k ≤ n) :
    s'.receiveBuff.slice i k = s.receiveBuff.slice i k :=
  Buff.slice_congr fun _ _ hj => h.byte (by omega)

theorem bytes (h : Alike n s s') {k : Nat} (hk : k ≤ n) :
    s'.receiveBuff.bytes k = s.receiveBuff.bytes k :=
  Buff.bytes_congr fun _ hi => h.byte (by omega)

theorem sent (h : Alike n s s') : s'.sent = s.sent := by
  obtain ⟨q, r, l, hq, rfl⟩ := h
  rfl

theorem store (h : Alike n s s') : s'.store = s.store := by
  obtain ⟨q, r, l, hq, rfl⟩ := h
  rfl

theorem world (h : Alike n s s') : s'.world = s.world := by
  obtain ⟨q, r, l, hq, rfl⟩ := h
  rfl

theorem files (h : Alike n s s') : s'.files = s.files := by
  obtain ⟨q, r, l, hq, rfl⟩ := h
  rfl

theorem diag (h : Alike n s s') : s'.diag = s.diag := by
  obtain ⟨q, r, l, hq, rfl⟩ := h
  rfl

/-- Something is done that has nothing to do with the buffers. -/
theorem map (h : Alike n s s') (g : Slave ω → Slave ω)
    (hg : ∀ q r l, g (s.refill q r l) = (g s).refill q r l)
    (hr : (g s).receiveBuff = s.receiveBuff) : Alike n (g s) (g s') := by
  obtain ⟨q, r, l, hq, rfl⟩ := h
  exact ⟨q, r, l, fun i hi => (hq i hi).trans (congrFun hr i).symm, hg q r l⟩

/-! ## Answers -/

/-- A response is the same where the buffers agree on its bytes. -/
theorem verifyRespMsg (h : Alike n s s') {len : BitVec 16}
    (hresp : ∀ i < len.toNat, s'.respBuff i = s.respBuff i) :
    Alike n (s.mbSlaveVerifyRespMsg m len) (s'.mbSlaveVerifyRespMsg m len) := by
  obtain ⟨q, r, l, hq, rfl⟩ := h
  have hcrc : r.bytes len.toNat = s.respBuff.bytes len.toNat := Buff.bytes_congr hresp
  have hend : (len + 2).toNat ≤ len.toNat + 2 := by
    exact Nat.mod_le _ _
  have hsent (x y : Byte) : ((r.put len.toNat x).put (len.toNat + 1) y).bytes (len + 2).toNat =
      ((s.respBuff.put len.toNat x).put (len.toNat + 1) y).bytes (len + 2).toNat := by
    refine Buff.bytes_congr fun i hi => ?_
    by_cases h1 : i = len.toNat + 1
    · simp [Buff.put, h1]
    by_cases h0 : i = len.toNat
    · simp [Buff.put, h0]
    simp only [Buff.put, Function.update, h1, h0]
    exact hresp i (by omega)
  refine ⟨q, ((s.refill q r l).mbSlaveVerifyRespMsg m len).respBuff, l, hq, ?_⟩
  simp only [mbSlaveVerifyRespMsg, refill, hcrc, hsent]

theorem putResp (h : Alike n s s') (i : Nat) (xs : List Byte) :
    Alike n (s.putResp i xs) (s'.putResp i xs) := by
  obtain ⟨q, r, l, hq, rfl⟩ := h
  exact ⟨q, _, l, hq, rfl⟩

theorem putReceive (h : Alike n s s') (i : Nat) (x : Byte) :
    Alike n { s with receiveBuff := s.receiveBuff.put i x }
      { s' with receiveBuff := s'.receiveBuff.put i x } := by
  obtain ⟨q, r, l, hq, rfl⟩ := h
  refine ⟨q.put i x, r, l, fun j hj => ?_, rfl⟩
  by_cases hij : j = i
  · simp [Buff.put, hij]
  · simp [Buff.put, Function.update, hq j hj]

theorem copyRequest (h : Alike n s s') (k : Nat) :
    Alike n (s.copyRequest k) (s'.copyRequest k) := by
  obtain ⟨q, r, l, hq, rfl⟩ := h
  exact ⟨q, _, l, hq, rfl⟩

theorem copied (h : Alike n s s') {k : Nat} (hk : k ≤ n) :
    ∀ i < k, (s'.copyRequest k).respBuff i = (s.copyRequest k).respBuff i := by
  intro i hi
  simp only [Slave.copyRequest, Buff.copy, hi]
  exact h.byte (by omega)

theorem respond (h : Alike n s s') {k : Nat} (hk : k ≤ n) (data : List Byte) :
    Alike n (s.respond m k data) (s'.respond m k data) := by
  have hlen : (BitVec.ofNat 16 (k + data.length)).toNat ≤ k + data.length := by
    exact Nat.mod_le _ _
  refine ((h.copyRequest k).putResp k data).verifyRespMsg fun i hi => ?_
  exact Buff.putList_congr data (h.copied hk) i (by omega)

/-- A response that begins with bytes of the request. -/
theorem copiedResp (h : Alike n s s') {k : Nat} (hk : k ≤ n) {len : BitVec 16}
    (hresp : ∀ i, k ≤ i → i < len.toNat → s'.respBuff i = s.respBuff i) :
    Alike n ((s.copyRequest k).mbSlaveVerifyRespMsg m len)
      ((s'.copyRequest k).mbSlaveVerifyRespMsg m len) := by
  refine (h.copyRequest k).verifyRespMsg fun i hi => ?_
  by_cases hik : i < k
  · exact h.copied hk i hik
  · simp only [Slave.copyRequest, Buff.copy, hik, and_false, if_false]
    exact hresp i (Nat.not_lt.mp hik) hi

/-- A response that begins with bytes of the request and some more, put in front of its data. -/
theorem headedResp (h : Alike n s s') {k : Nat} (hk : k ≤ n) (head : List Byte) {len : BitVec 16}
    (hresp : ∀ i, k + head.length ≤ i → i < len.toNat → s'.respBuff i = s.respBuff i) :
    Alike n (((s.copyRequest k).putResp k head).mbSlaveVerifyRespMsg m len)
      (((s'.copyRequest k).putResp k head).mbSlaveVerifyRespMsg m len) := by
  refine ((h.copyRequest k).putResp k head).verifyRespMsg fun i hi => ?_
  by_cases hik : i < k + head.length
  · exact Buff.putList_congr head (h.copied hk) i hik
  · have hk : k ≤ i := by omega
    have hhead : head.length ≤ i - k := by omega
    simp only [Slave.putResp, Slave.copyRequest, Buff.putList, Buff.copy]
    rw [if_pos hk, if_pos hk, List.getD_eq_default _ _ hhead, List.getD_eq_default _ _ hhead,
      if_neg (by omega), if_neg (by omega)]
    exact hresp i (Nat.not_lt.mp hik) hi

/-- The request is sent back. -/
theorem echo (h : Alike n s s') (hlen : m.len ≤ n) (h2 : 2 ≤ m.len) :
    Alike n (s.echo m) (s'.echo m) := by
  have hnat : (m.receiveLen - 2).toNat = m.len - 2 := by
    rw [BitVec.toNat_sub_of_le (by simpa [BitVec.le_def, MsgPack.len] using h2)]
    rfl
  refine (h.copyRequest _).verifyRespMsg fun i hi => h.copied (by omega) i ?_
  rwa [hnat] at hi

theorem errorResp (h : Alike n s s') (hn : 2 ≤ n) (e : MbError) :
    Alike n (s.mbSlaveErrorResp m e) (s'.mbSlaveErrorResp m e) := by
  have heq (t : Slave ω) : t.mbSlaveErrorResp m e = { t with
      errorCode := some e, respBuff := (t.mbSlaveErrorResp m e).respBuff
      sent := (t.mbSlaveErrorResp m e).sent } := by
    unfold mbSlaveErrorResp
    split <;> rfl
  have hsent : (s'.mbSlaveErrorResp m e).sent = (s.mbSlaveErrorResp m e).sent := by
    rw [mbSlaveErrorResp_sent, mbSlaveErrorResp_sent, h.sent, h.byte (by omega), h.byte (by omega)]
  obtain ⟨q, r, l, hq, rfl⟩ := h
  rw [heq s, heq (s.refill q r l), hsent]
  exact ⟨q, _, l, hq, rfl⟩

end Alike

end Slave

end Kalyke
