-- SUMMARY: What a cycle of the extension bus exchanges: items are copied as they were, all else stays.
import Kalyke.Daisy.Cycle
import Kalyke.Exec.Accesses

/-!
# Exchange

An item is copied through the bytes of its place in the frame. What fills it in writes the bytes of
its value, the upper ones first, and what takes it reads these bytes, wherever the frame has been in
between. The places do not meet, so each of them still holds what was filled in.
-/

namespace Kalyke

open List Nat Function Option

/-! ## Items and their bytes -/

namespace Pdo

variable (p : Pdo)

/-- The bytes that an item takes up. -/
def byteCount : Nat :=
  match p.eType.bits, p.eType.daisyWord with
  | some _, _ => 1
  | none, some w => if w = .D ∧ p.len = 4 then 4 else 2
  | none, none => 0

def value (s : Store) (k : Nat) : Bool :=
  match p.eType.bits, p.eType.daisyWord with
  | some b, _ => s.bit b (p.eAddr + k)
  | none, some w => (s.word w (p.eAddr + k / 16)).getLsbD (k % 16)
  | none, none => false

/-- The cells of an item. -/
def Has (c : Cell) : Prop :=
  match p.eType.bits, p.eType.daisyWord with
  | some b, _ => ∃ k < 8, c = .bit b (p.eAddr + k)
  | none, some w => ∃ k < p.byteCount / 2, c = .word w (p.eAddr + k)
  | none, none => False

/-- An item of a type that is exchanged, with elements that there are. Double words are of `D`. -/
def Legal : Prop :=
  match p.eType.bits, p.eType.daisyWord with
  | some b, _ => p.eAddr + 8 ≤ b.rang
  | none, some w => (p.len = 4 → w = .D) ∧ p.eAddr + p.byteCount / 2 ≤ w.rang
  | none, none => False

/-- All eight bits lie in the word of the first. -/
def ReadsWhole : Prop := p.eType.bits ≠ none → p.eAddr % 16 ≤ 8

/-- The eight bits are the lower or the upper half of a word. -/
def WritesWhole : Prop := p.eType.bits ≠ none → 8 ∣ p.eAddr

/-- Two items have the same place in the frame. -/
def SamePlace (q : Pdo) : Prop := p.offset = q.offset ∧ p.byteCount = q.byteCount

/-- The places of two items do not meet. -/
def ApartIn (q : Pdo) : Prop :=
  p.offset + p.byteCount ≤ q.offset ∨ q.offset + q.byteCount ≤ p.offset

/-- The bytes that are filled in for an item. -/
def bytes (s : Store) : List (BitVec 8) :=
  match p.eType.bits, p.eType.daisyWord with
  | some b, _ => [daisyGet8bitElementValue s b p.eAddr]
  | none, some w =>
    if w = .D ∧ p.len = 4 then
      Image.bigBytes (s.word w (p.eAddr + 1)) ++ Image.bigBytes (s.word w p.eAddr)
    else Image.bigBytes (s.word w p.eAddr)
  | none, none => []

/-- What is written for an item that is taken. -/
def takePatch (pData : Nat) (frame : Image) : Patch Cell (BitVec 32) :=
  match p.eType.bits, p.eType.daisyWord with
  | some b, _ => octetPatch b (octetStart p.eAddr) (frame (pData + p.offset))
  | none, some w =>
    if w = .D ∧ p.len = 4 then
      (wordPatch w p.eAddr (frame.bigWord (pData + p.offset + 2))).andThen
        (wordPatch w (p.eAddr + 1) (frame.bigWord (pData + p.offset)))
    else wordPatch w p.eAddr (frame.bigWord (pData + p.offset))
  | none, none => fun _ => none

variable {p} {s : Store} {pData : Nat} {frame : Image} {k : Nat} {c : Cell}

theorem cases (p : Pdo) :
    (∃ b, p.eType.bits = some b) ∨ (∃ w, p.eType.bits = none ∧ p.eType.daisyWord = some w) ∨
      (p.eType.bits = none ∧ p.eType.daisyWord = none) := by
  cases hb : p.eType.bits with
  | some b => exact .inl ⟨b, rfl⟩
  | none => cases hw : p.eType.daisyWord with
    | some w => exact .inr (.inl ⟨w, rfl, rfl⟩)
    | none => exact .inr (.inr ⟨rfl, rfl⟩)

theorem length_bytes : (p.bytes s).length = p.byteCount := by
  rw [bytes, byteCount]
  split
  · rfl
  · split <;> rfl
  · rfl

theorem fillItem_eq : fillItem s pData frame p = frame.put (pData + p.offset) (p.bytes s) := by
  rcases p.cases with ⟨b, hb⟩ | ⟨w, hb, hw⟩ | ⟨hb, hw⟩
  · simp only [fillItem, bytes, hb]
  · simp only [fillItem, bytes, hb, hw]
    split <;> rfl
  · simp only [fillItem, bytes, hb, hw]
    rfl

theorem read_takeItem :
    (fun c => Cell.read (takeItem pData frame s p) c) =
      (p.takePatch pData frame).apply fun c => c.read s := by
  rcases p.cases with ⟨b, hb⟩ | ⟨w, hb, hw⟩ | ⟨hb, hw⟩
  · simp only [takeItem, takePatch, hb]
    exact read_set8bit_eq _ _ _
  · simp only [takeItem, takePatch, hb, hw]
    split
    · rw [read_setWord_eq, read_setWord_eq, Patch.andThen_apply]
    · exact read_setWord_eq _ _ _
  · simp only [takeItem, takePatch, hb, hw]
    rfl

theorem rest_takeItem : (takeItem pData frame s p).rest = s.rest := by
  rw [takeItem]
  split
  · rfl
  · split
    · rw [rest_setWord, rest_setWord]
    · rw [rest_setWord]
  · rfl

/-- The bits of an item lie in its bytes, the upper ones first. -/
theorem getLsbD_bytes (hwhole : p.ReadsWhole) (hk : k < 8 * p.byteCount) :
    ((p.bytes s).getD (p.byteCount - 1 - k / 8) 0).getLsbD (k % 8) = p.value s k := by
  rcases p.cases with ⟨b, hb⟩ | ⟨w, hb, hw⟩ | ⟨hb, hw⟩
  · simp only [byteCount, hb] at hk
    simp only [bytes, byteCount, value, hb]
    have hdiv : k / 8 = 0 := by omega
    have hmod : k % 8 = k := by omega
    have hfirst : p.eAddr % 16 ≤ 8 := hwhole (by rw [hb]; exact some_ne_none b)
    rw [hdiv, hmod]
    exact getLsbD_daisyGet8bitElementValue (by omega) (by omega)
  · simp only [byteCount, hb, hw] at hk
    simp only [bytes, byteCount, value, hb, hw]
    split
    · rename_i hdouble
      rw [if_pos hdouble] at hk
      rcases Nat.lt_or_ge k 16 with h | h
      · have hplace : 4 - 1 - k / 8 = (1 - k / 8) + 2 := by omega
        have hdiv : k / 16 = 0 := by omega
        rw [hplace, getD_append_right _ _ _ _ (by rw [Image.length_bigBytes]; omega),
          Image.length_bigBytes, Nat.add_sub_cancel, Image.getLsbD_bigBytes h, hdiv,
          mod_eq_of_lt h, Nat.add_zero]
      · have hplace : 4 - 1 - k / 8 = 1 - (k - 16) / 8 := by omega
        have hmod : k % 8 = (k - 16) % 8 := by omega
        have hdiv : k / 16 = 1 := by omega
        have hmod' : k % 16 = k - 16 := by omega
        rw [hplace, hmod, getD_append _ _ _ _ (by rw [Image.length_bigBytes]; omega),
          Image.getLsbD_bigBytes (by omega), hdiv, hmod']
    · rename_i hword
      rw [if_neg hword] at hk
      have hdiv : k / 16 = 0 := by omega
      have hmod : k % 16 = k := by omega
      rw [hdiv, hmod]
      exact Image.getLsbD_bigBytes (by omega)
  · simp only [byteCount, hb, hw] at hk
    omega

/-- What is taken for an item has the bits of its bytes. -/
theorem takePatch_cell (pData : Nat) (frame : Image) (hwhole : p.WritesWhole)
    (hk : k < 8 * p.byteCount) :
    ∃ c y, p.Has c ∧ p.takePatch pData frame c = some y ∧ ∀ t, c.read t = y →
      p.value t k = (frame (pData + p.offset + (p.byteCount - 1 - k / 8))).getLsbD (k % 8) := by
  rcases p.cases with ⟨b, hb⟩ | ⟨w, hb, hw⟩ | ⟨hb, hw⟩
  · simp only [byteCount, hb] at hk
    have hdvd : 8 ∣ p.eAddr := hwhole (by rw [hb]; exact some_ne_none b)
    have hstart : octetStart p.eAddr = p.eAddr := by
      rw [octetStart]
      split <;> omega
    have hin : inOctet (octetStart p.eAddr) (frame (pData + p.offset)) (p.eAddr + k) =
        some ((frame (pData + p.offset)).getLsbD k) := by
      rw [hstart, inOctet, if_pos (by omega), Nat.add_sub_cancel_left]
    refine ⟨.bit b (p.eAddr + k),
      BitVec.ofNat 32 ((frame (pData + p.offset)).getLsbD k).toNat, ?_, ?_, fun t ht => ?_⟩
    · simp only [Has, hb]
      exact ⟨k, by omega, rfl⟩
    · simp only [takePatch, hb, octetPatch, if_true, hin]
      rfl
    · have hdiv : k / 8 = 0 := by omega
      simp only [value, byteCount, hb, hdiv, mod_eq_of_lt (show k < 8 by omega)]
      exact ofNat_toNat_inj ht
  · have hword {j : Nat} {x : BitVec 16} (m : Nat) (hm : m < 16) (t : Store)
        (h : (Cell.word w j).read t = x.setWidth 32) : (t.word w j).getLsbD m = x.getLsbD m :=
      congrArg (BitVec.getLsbD · m) (setWidth_inj h)
    simp only [byteCount, hb, hw] at hk
    simp only [Has, takePatch, value, byteCount, hb, hw]
    split
    · rename_i hdouble
      rw [if_pos hdouble] at hk
      rcases Nat.lt_or_ge k 16 with h | h
      · refine ⟨.word w p.eAddr, (frame.bigWord (pData + p.offset + 2)).setWidth 32,
          ⟨0, by omega, rfl⟩, ?_, fun t ht => ?_⟩
        · rw [Patch.andThen, wordPatch, if_neg (by simp), wordPatch, if_pos rfl]
          rfl
        · have hdiv : k / 16 = 0 := by omega
          have hplace : 2 + (1 - k / 8) = 4 - 1 - k / 8 := by omega
          rw [hdiv, Nat.add_zero, mod_eq_of_lt h, hword k h t ht, Image.getLsbD_bigWord h,
            Nat.add_assoc, hplace]
      · refine ⟨.word w (p.eAddr + 1), (frame.bigWord (pData + p.offset)).setWidth 32,
          ⟨1, by omega, rfl⟩, ?_, fun t ht => ?_⟩
        · rw [Patch.andThen, wordPatch, if_pos rfl]
          rfl
        · have hdiv : k / 16 = 1 := by omega
          have hmod : k % 8 = k % 16 % 8 := by omega
          have hplace : 1 - k % 16 / 8 = 4 - 1 - k / 8 := by omega
          rw [hdiv, hword _ (by omega) t ht, Image.getLsbD_bigWord (by omega), hplace, hmod]
    · rename_i hsingle
      rw [if_neg hsingle] at hk
      refine ⟨.word w p.eAddr, (frame.bigWord (pData + p.offset)).setWidth 32,
        ⟨0, by omega, rfl⟩, ?_, fun t ht => ?_⟩
      · rw [wordPatch, if_pos rfl]
      · have hdiv : k / 16 = 0 := by omega
        have hmod : k % 16 = k := by omega
        rw [hdiv, hmod, Nat.add_zero, hword k (by omega) t ht, Image.getLsbD_bigWord (by omega)]
  · simp only [byteCount, hb, hw] at hk
    omega

/-- An item that is taken writes its own cells. -/
theorem takePatch_of_not_has (hwhole : p.WritesWhole) (hc : ¬ p.Has c) :
    p.takePatch pData frame c = none := by
  rcases p.cases with ⟨b, hb⟩ | ⟨w, hb, hw⟩ | ⟨hb, hw⟩
  · have hdvd : 8 ∣ p.eAddr := hwhole (by rw [hb]; exact some_ne_none b)
    have hstart : octetStart p.eAddr = p.eAddr := by
      rw [octetStart]
      split <;> omega
    simp only [Has, hb] at hc
    simp only [takePatch, hb]
    cases hp : octetPatch b (octetStart p.eAddr) (frame (pData + p.offset)) c with
    | none => rfl
    | some y =>
      obtain ⟨i, v, rfl, hv, -⟩ := octetPatch_eq_some hp
      rw [hstart, inOctet] at hv
      split at hv
      · rename_i hin
        exact absurd ⟨i - p.eAddr, by omega, by rw [Nat.add_sub_cancel' hin.1]⟩ hc
      · cases hv
  · have hother {j : Nat} (x : BitVec 16) (hj : j < p.byteCount / 2) :
        wordPatch w (p.eAddr + j) x c = none := by
      refine if_neg fun heq => hc ?_
      simp only [Has, hb, hw]
      exact ⟨j, hj, heq⟩
    simp only [byteCount, hb, hw] at hother
    simp only [takePatch, hb, hw]
    split
    · rename_i hdouble
      rw [if_pos hdouble] at hother
      rw [Patch.andThen, hother _ (by omega)]
      exact hother (j := 0) _ (by omega)
    · rename_i hsingle
      rw [if_neg hsingle] at hother
      exact hother (j := 0) _ (by omega)
  · simp only [takePatch, hb, hw]

end Pdo

/-! ## The frame -/

section

variable {xs : List (Store × Pdo)} {x : Store × Pdo} {frame : Image} {q j : Nat}

/-- What an item with its elements puts into the frame. -/
def fillPatch (x : Store × Pdo) : Patch Nat (BitVec 8) :=
  Image.putPatch (4 + x.2.offset) (x.2.bytes x.1)

def fillAll (xs : List (Store × Pdo)) (frame : Image) : Image :=
  xs.foldl (fun frame x => fillItem x.1 4 frame x.2) frame

theorem fillAll_eq : fillAll xs frame = Patch.run (xs.map fillPatch) frame := by
  refine Patch.view_foldl (fun frame : Image => frame) fillPatch (fun x _ frame => ?_) frame
  rw [Pdo.fillItem_eq, Image.put_eq_apply]
  rfl

theorem fillPatch_of_lt (hj : j < x.2.byteCount) :
    fillPatch x (4 + x.2.offset + j) = some ((x.2.bytes x.1).getD j 0) := by
  have hlen : j < (x.2.bytes x.1).length := Pdo.length_bytes ▸ hj
  rw [fillPatch, Image.putPatch, if_pos (by omega), Nat.add_sub_cancel_left,
    getElem?_eq_getElem hlen, getD_eq_getElem _ _ hlen]

theorem fillPatch_ne_none (h : fillPatch x q ≠ none) :
    4 + x.2.offset ≤ q ∧ q < 4 + x.2.offset + x.2.byteCount := by
  rw [fillPatch, Image.putPatch] at h
  split at h
  · rename_i hle
    have hlt : q - (4 + x.2.offset) < (x.2.bytes x.1).length :=
      Nat.lt_of_not_le fun hge => h (getElem?_eq_none hge)
    rw [Pdo.length_bytes] at hlt
    omega
  · exact absurd rfl h

/-- What lies before the data stays. -/
theorem fillAll_of_lt (hq : q < 4) : fillAll xs frame q = frame q := by
  rw [fillAll_eq]
  refine Patch.run_of_none (List.forall_mem_map.mpr fun x _ => ?_)
  by_contra hne
  have hplace := fillPatch_ne_none hne
  omega

theorem fillAll_item (hapart : (xs.map Prod.snd).Pairwise Pdo.ApartIn) (hx : x ∈ xs)
    (hj : j < x.2.byteCount) :
    fillAll xs frame (4 + x.2.offset + j) = (x.2.bytes x.1).getD j 0 := by
  rw [fillAll_eq]
  refine Patch.run_apart ?_ hx (fillPatch_of_lt hj)
  refine (pairwise_map.mp hapart).imp fun {y z} hyz k hk => ?_
  have hplace := fillPatch_ne_none hk
  by_contra hne
  have hplace' := fillPatch_ne_none hne
  rcases hyz with h | h <;> omega

end

/-! ## Items that are taken -/

section

variable {ps : List Pdo} {p : Pdo} {frame : Image} {s : Store} {c : Cell} {k : Nat}

theorem read_takeAll : (fun c => Cell.read (ps.foldl (takeItem 4 frame) s) c) =
    Patch.run (ps.map fun p : Pdo => p.takePatch 4 frame) fun c => c.read s :=
  Patch.view_foldl (fun s c => Cell.read s c) (fun p : Pdo => p.takePatch 4 frame)
    (fun _ _ _ => Pdo.read_takeItem) s

theorem rest_takeAll : (ps.foldl (takeItem 4 frame) s).rest = s.rest :=
  foldlRecOn ps (takeItem 4 frame) (motive := fun t : Store => t.rest = s.rest) rfl
    fun _ ht _ _ => Pdo.rest_takeItem.trans ht

/-- Items whose cells do not meet. -/
def ApartItems (ps : List Pdo) : Prop := ps.Pairwise fun p q => ∀ c, p.Has c → ¬ q.Has c

/-- Each item that is taken has the value of its bytes. -/
theorem value_takeAll (hwhole : ∀ p ∈ ps, p.WritesWhole) (hapart : ApartItems ps) (hp : p ∈ ps)
    (hk : k < 8 * p.byteCount) : p.value (ps.foldl (takeItem 4 frame) s) k =
      (frame (4 + p.offset + (p.byteCount - 1 - k / 8))).getLsbD (k % 8) := by
  obtain ⟨c, y, -, hy, hvalue⟩ := Pdo.takePatch_cell 4 frame (hwhole p hp) hk
  refine hvalue _ ((congrFun read_takeAll c).trans (Patch.run_apart ?_ hp hy))
  refine hapart.imp_of_mem fun {q r} hq hr hqr c hc => ?_
  refine Pdo.takePatch_of_not_has (hwhole r hr) (hqr c ?_)
  by_contra hhas
  exact hc (Pdo.takePatch_of_not_has (hwhole q hq) hhas)

theorem takeAll_changesOnly (hwhole : ∀ p ∈ ps, p.WritesWhole) :
    ChangesOnly (fun c => ∃ p ∈ ps, p.Has c) s (ps.foldl (takeItem 4 frame) s) where
  cells c hc := by
    refine (congrFun read_takeAll c).trans (Patch.run_of_none (List.forall_mem_map.mpr ?_))
    exact fun p hp => Pdo.takePatch_of_not_has (hwhole p hp) fun hhas => hc ⟨p, hp, hhas⟩
  rest := rest_takeAll

end

/-! ## The law -/

/-- Configurations of a master and a chain: octets that are read lie in one word, octets that are
written are halves of words, no two items that are filled in have a byte in common, none that one
party takes a cell, and the master takes nothing into the registers of the bus. -/
structure Configured (cfg : BusConfig) (chain : List SmartDevice) : Prop where
  filled : ∀ p ∈ cfg.pdo1B ++ chain.flatMap SmartDevice.pdo1ASmart, p.Legal ∧ p.ReadsWhole
  places : (cfg.pdo1B ++ chain.flatMap SmartDevice.pdo1ASmart).Pairwise Pdo.ApartIn
  taken : ∀ ps ∈ cfg.pdo1A :: chain.map SmartDevice.pdo1BSmart,
    (∀ p ∈ ps, p.Legal ∧ p.WritesWhole) ∧ ApartItems ps
  registers : ∀ p ∈ cfg.pdo1A, ∀ i ∈ [236, 238, 243, 244, 245], ¬ p.Has (.word .SD i)

/-- The registers that a cycle without an error sets: its time, the longest time, no error. -/
def BusRegister (c : Cell) : Prop := ∃ i ∈ [236, 238, 243, 244, 245], c = .word .SD i

/-- The elements in which an error of the bus is noted. -/
def ErrorCell (c : Cell) : Prop :=
  c = .bit .SM 20 ∨ ∃ i ∈ [20, 21, 22, 23, 24, 243, 244, 245, 248, 249, 250, 251, 252, 253, 254,
    255, 256, 257], c = .word .SD i

/-- What a device has after a cycle: the outputs of the master in its items, else what it had. -/
structure DeviceRight (cfg : BusConfig) (s : Store) (d d' : SmartDevice) : Prop where
  outputs : ∀ m ∈ cfg.pdo1B, ∀ p ∈ d.pdo1BSmart, m.SamePlace p → ∀ k < 8 * p.byteCount,
    p.value d'.store k = m.value s k
  others : ChangesOnly (fun c => ∃ p ∈ d.pdo1BSmart, p.Has c) d.store d'.store

/-- What the master has after a cycle: the inputs of the devices in its items, else what it had,
the registers of the bus apart. -/
structure MasterRight (cfg : BusConfig) (chain : List SmartDevice) (s s' : Store) : Prop where
  inputs : ∀ d ∈ chain, ∀ p ∈ d.pdo1ASmart, ∀ m ∈ cfg.pdo1A, p.SamePlace m →
    ∀ k < 8 * m.byteCount, m.value s' k = p.value d.store k
  others : ChangesOnly (fun c => (∃ m ∈ cfg.pdo1A, m.Has c) ∨ BusRegister c) s s'

/-! ## The chain -/

section

variable {cfg : BusConfig} {chain l r : List SmartDevice} {d : SmartDevice} {s : Store}
variable {pbufLoop pBuf : Image} {p q : Pdo} {k : Nat}

/-- What the master and some devices fill in. -/
def sources (cfg : BusConfig) (s : Store) (chain : List SmartDevice) : List (Store × Pdo) :=
  cfg.pdo1B.map (fun p => (s, p)) ++ chain.flatMap fun d => d.pdo1ASmart.map fun p => (d.store, p)

/-- The frame that is sent, before anything is filled in. -/
def emptied (pbufLoop : Image) : Image := update (update pbufLoop 3 0) 2 0

theorem fillAll_append (xs ys : List (Store × Pdo)) (frame : Image) :
    fillAll (xs ++ ys) frame = fillAll ys (fillAll xs frame) := foldl_append

theorem fillAll_map (t : Store) (ps : List Pdo) (frame : Image) :
    fillAll (ps.map fun p => (t, p)) frame = ps.foldl (fillItem t 4) frame := foldl_map

/-- The frame of the master. -/
theorem daisyFillLoop_eq :
    daisyFillLoop cfg s pbufLoop = fillAll (sources cfg s []) (emptied pbufLoop) := by
  rw [sources, flatMap_nil, append_nil, fillAll_map]
  rfl

/-- The frame once one more device has filled its items in. -/
theorem fillAll_sources_concat {frame : Image} : fillAll (sources cfg s (l ++ [d])) frame =
    d.pdo1ASmart.foldl (fillItem d.store 4) (fillAll (sources cfg s l) frame) := by
  rw [← fillAll_map, ← fillAll_append, sources, sources, flatMap_append,
    flatMap_singleton, append_assoc]

/-- The frame that comes back has all that was filled in. -/
theorem alongChain_frame : (alongChain r (fillAll (sources cfg s l) pBuf)).2 =
    fillAll (sources cfg s (l ++ r)) pBuf := by
  induction r generalizing l with
  | nil => rw [append_nil, alongChain]
  | cons d ds ih =>
    rw [alongChain, daisyHandleData, ← fillAll_sources_concat]
    simp only [ih, append_assoc, singleton_append]

theorem map_snd_sources : (sources cfg s chain).map Prod.snd =
    cfg.pdo1B ++ chain.flatMap SmartDevice.pdo1ASmart := by
  simp [sources, map_flatMap]

/-- An item is taken as it was filled in, by whoever takes it while the frame is on its way. -/
theorem value_exchanged {x : Store × Pdo} {ps : List Pdo} {t : Store}
    (h : Configured cfg (l ++ r)) (hx : x ∈ sources cfg s l)
    (hps : (∀ p ∈ ps, p.Legal ∧ p.WritesWhole) ∧ ApartItems ps) (hp : p ∈ ps)
    (hplace : x.2.SamePlace p) (hk : k < 8 * p.byteCount) :
    p.value (ps.foldl (takeItem 4 (fillAll (sources cfg s l) pBuf)) t) k = x.2.value x.1 k := by
  have hsub : (cfg.pdo1B ++ l.flatMap SmartDevice.pdo1ASmart).Sublist
      (cfg.pdo1B ++ (l ++ r).flatMap SmartDevice.pdo1ASmart) := by
    rw [flatMap_append, ← append_assoc]
    exact sublist_append_left _ _
  have hmem : x.2 ∈ cfg.pdo1B ++ l.flatMap SmartDevice.pdo1ASmart := by
    rw [← map_snd_sources (s := s)]
    exact List.mem_map_of_mem hx
  have hbytes : p.byteCount = x.2.byteCount := hplace.2.symm
  rw [value_takeAll (fun p hp => (hps.1 p hp).2) hps.2 hp hk, ← hplace.1, hbytes,
    fillAll_item (by rw [map_snd_sources]; exact h.places.sublist hsub) hx (by omega)]
  exact Pdo.getLsbD_bytes (h.filled x.2 (hsub.subset hmem)).2 (by omega)

theorem alongChain_right (h : Configured cfg (l ++ r)) :
    Forall₂ (DeviceRight cfg s) r (alongChain r (fillAll (sources cfg s l) pBuf)).1 := by
  induction r generalizing l with
  | nil => exact .nil
  | cons d ds ih =>
    have hsplit : l ++ d :: ds = l ++ [d] ++ ds := by rw [append_assoc, singleton_append]
    have htaken := h.taken d.pdo1BSmart
      (mem_cons_of_mem _ (List.mem_map_of_mem (mem_append_right l mem_cons_self)))
    rw [hsplit] at h
    rw [alongChain, daisyHandleData, ← fillAll_sources_concat]
    refine .cons ⟨fun m hm p hp hplace k hk => ?_, ?_⟩ (ih h)
    · have hsource : (s, m) ∈ sources cfg s (l ++ [d]) :=
        mem_append_left _ (List.mem_map_of_mem hm)
      exact value_exchanged h hsource htaken hp hplace hk
    · exact takeAll_changesOnly fun p hp => (htaken.1 p hp).2

end

/-! ## The registers of the master -/

section

variable {A : Cell → Prop} {s : Store} {m : BusMaster} {i : Nat} {v : BitVec 16}

theorem setSd_changesOnly (h : A (.word .SD i)) (s : Store) (v : BitVec 16) :
    ChangesOnly A s (s.setWord (.elem .SD) i v) where
  cells c hc := by
    have hne : c ≠ (WordArea.elem .SD).cell i := fun heq => hc (by rw [heq]; exact h)
    exact read_setWord hne v
  rest := rest_setWord

theorem pushRegisters_changesOnly {head : Nat} (hhead : A (.word .SD head)) (later : List Nat)
    (hlater : ∀ i ∈ later, A (.word .SD i)) (s : Store) (v : BitVec 16) :
    ChangesOnly A s (pushRegisters head later v s) := by
  rw [pushRegisters]
  split
  · exact changesOnly_refl
  · refine ChangesOnly.trans ?_ (setSd_changesOnly hhead _ v)
    refine foldlRecOn later _ (motive := fun t : Store => ChangesOnly A s t) changesOnly_refl
      fun t ht i hi => ht.trans (setSd_changesOnly (hlater i hi) t _)

theorem daisySetError_changesOnly {errCode errAddr errContent : BitVec 16} :
    ChangesOnly ErrorCell m.store (daisySetError errCode errAddr errContent m).store := by
  have hcell (i : Nat) (h : i ∈ [20, 21, 22, 23, 24, 243, 244, 245, 248, 249, 250, 251, 252, 253,
      254, 255, 256, 257]) : ErrorCell (.word .SD i) := .inr ⟨i, h, rfl⟩
  have hsm (s : Store) : ChangesOnly ErrorCell s (s.setBit (.elem .SM) 20 true) :=
    ⟨fun c hc => read_setBit (fun heq : c = (BitArea.elem .SM).cell 20 => hc (.inl heq)) true,
      rest_setBit⟩
  have hnoted := (((setSd_changesOnly (hcell 243 (by decide)) m.store errCode).trans
    (pushRegisters_changesOnly (hcell 248 (by decide))
      [257, 256, 255, 254, 253, 252, 251, 250, 249]
      (fun i hi => hcell i (by revert i; decide)) _ errCode)).trans
    (setSd_changesOnly (hcell 244 (by decide)) _ errAddr)).trans
    (setSd_changesOnly (hcell 245 (by decide)) _ errContent)
  exact (hnoted.trans (hsm _)).trans (pushRegisters_changesOnly (hcell 20 (by decide))
    [24, 23, 22, 21] (fun i hi => hcell i (by revert i; decide)) _ 201)

/-- A frame that is accepted. -/
theorem loopSlaveHandle3333_accepted (cfg : BusConfig) (m : BusMaster) {pBuf : Image} {len : Nat}
    (hlen : 4 ≤ len) (hcmd : pBuf.word 0 = 0x3333) (hwkc : pBuf.word 2 = cfg.slaveExtMoudles) :
    loopSlaveHandle3333 cfg pBuf len m =
      daisyClearError { m with store := cfg.pdo1A.foldl (takeItem 4 pBuf) m.store } := by
  rw [loopSlaveHandle3333, if_neg (Nat.not_lt.mpr hlen), if_neg (not_not.mpr hcmd),
    if_neg (not_not.mpr hwkc)]

/-- A frame with a wrong command or a wrong working counter changes nothing else. -/
theorem loopSlaveHandle3333_refused {cfg : BusConfig} {pBuf : Image} {len : Nat}
    (h : pBuf.word 0 ≠ 0x3333 ∨ pBuf.word 2 ≠ cfg.slaveExtMoudles) :
    ChangesOnly ErrorCell m.store (loopSlaveHandle3333 cfg pBuf len m).store := by
  rw [loopSlaveHandle3333]
  split
  · exact daisySetError_changesOnly
  split
  · split
    · exact daisySetError_changesOnly
    · exact daisySetError_changesOnly
  rename_i hcmd
  rw [if_pos (h.resolve_left hcmd)]
  exact daisySetError_changesOnly

/-- What comes after the items have been taken sets the registers of the bus. -/
theorem after_changesOnly (cfg : BusConfig) (now : BitVec 32) (m : BusMaster) :
    ChangesOnly BusRegister m.store
      (daisyLoopDelay now (daisyLoopReceived cfg true (daisyClearError m))).store := by
  have hsd (i : Nat) (h : i ∈ [236, 238, 243, 244, 245]) (s : Store) (v : BitVec 16) :
      ChangesOnly BusRegister s (s.setWord (.elem .SD) i v) := setSd_changesOnly ⟨i, h, rfl⟩ s v
  have hclear : ChangesOnly BusRegister m.store (daisyClearError m).store :=
    ((hsd 243 (by decide) m.store 0).trans (hsd 244 (by decide) _ 0)).trans
      (hsd 245 (by decide) _ 0)
  have hflag : (daisyClearError m).daisyErrFlag = false := rfl
  refine hclear.trans ?_
  rw [daisyLoopReceived, if_pos (by rw [hflag]; rfl), daisyLoopDelay]
  split
  · exact changesOnly_refl
  · refine ChangesOnly.trans (hsd 236 (by decide) (daisyClearError m).store
      ((now - m.msTickStart).setWidth 16)) ?_
    simp only
    split
    · exact hsd 238 (by decide) _ _
    · exact changesOnly_refl

end

/-! ## The cycle -/

section

variable {cfg : BusConfig} {chain : List SmartDevice} {s : Store} {pbufLoop : Image}

/-- The command of a frame comes back. -/
theorem word_frame (pbufLoop : Image) (xs : List (Store × Pdo)) :
    (fillAll xs (emptied pbufLoop)).word 0 = pbufLoop.word 0 ∧
      (fillAll xs (emptied pbufLoop)).word 2 = 0 := by
  refine ⟨?_, ?_⟩
  · rw [Image.word, fillAll_of_lt (by decide), fillAll_of_lt (by decide)]
    rfl
  · have hlow : emptied pbufLoop 2 = 0 := update_self ..
    have hhigh : emptied pbufLoop 3 = 0 := by
      rw [emptied, update_of_ne (by decide), update_self]
    rw [Image.word, fillAll_of_lt (by decide), fillAll_of_lt (by decide), hlow, hhigh]
    rfl

/-- Items that no register of the bus is part of keep their values. -/
theorem Pdo.value_of_changes {p : Pdo} {A : Cell → Prop} {t t' : Store} {k : Nat}
    (h : ChangesOnly A t t') (hA : ∀ c, p.Has c → ¬ A c) (hk : k < 8 * p.byteCount) :
    p.value t' k = p.value t k := by
  rcases p.cases with ⟨b, hb⟩ | ⟨w, hb, hw⟩ | ⟨hb, hw⟩
  · simp only [byteCount, hb] at hk
    simp only [Has, hb] at hA
    simp only [value, hb]
    exact ofNat_toNat_inj (h.cells _ (hA _ ⟨k, by omega, rfl⟩))
  · have hlt : k / 16 < p.byteCount / 2 := by
      have heven : p.byteCount % 2 = 0 := by
        simp only [byteCount, hb, hw]
        split <;> rfl
      omega
    simp only [Has, hb, hw] at hA
    simp only [value, hb, hw]
    rw [setWidth_inj (h.cells _ (hA _ ⟨k / 16, hlt, rfl⟩))]
  · simp only [byteCount, hb, hw] at hk
    omega

end

/-- A frame with nothing but its command. -/
def loopFrame : Image := fun i => if i < 2 then 0x33 else 0

end Kalyke
