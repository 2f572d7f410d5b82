-- SUMMARY: What a refused system block leaves of the configuration that was in force.
import Kalyke.SysManage.SysBlockSafety

/-!
# Refused Blocks

Each section is applied as it is met, so a block that is refused at a later section has already
changed the configuration. It leaves the configuration as it was just if the sections before, and
the entries before the failing one in its own section, last set every cell to what it held.
-/

namespace Kalyke

open List Option Traced SysBlock

variable {b : SysBlock} {p q n i k v : Nat}

/-! ## How Sections End -/

@[simp] theorem result_getU8 : (b.getU8 p).result = some (b.file.getPU8 p) := rfl

@[simp] theorem result_getU16 : (b.getU16 p).result = some (b.file.getPU16 p) := rfl

@[simp] theorem result_setCell {c : SysCell} : (setCell c v).result = some () := rfl

@[simp] theorem result_storeCell {c : SysCell} : (storeCell n i c v).result = some () := rfl

@[simp] theorem result_clearRegion {r : Region} : (clearRegion r).result = some () := rfl

/-- A section of the bus configuration that is parsed knows the indices it sets. -/
def SysBlock.Knows (b : SysBlock) (p : Nat) : SysCode → Prop
  | .busConfig => b.flag = 1 → ∀ i < b.file.getPU16 (p + 4), KnownSdo (b.file.getPU16 (p + 7 + 6 * i))
  | _ => True

/-- How the section at `p` ends: it leads to `q`, or the block is refused. -/
structure SysBlock.Ends (b : SysBlock) (p : Nat) (k : SysCode) (result : Option Nat) : Prop where
  accepts : b.Accepts p k → b.Knows p k → result = some (p + b.sectionLen p)
  stays : b.Accepts p k → ¬ b.Knows p k → result = some p
  refuses : ¬ b.Accepts p k → result = none

theorem ofLength_ends {body : Parse Unit} {c : SysCode} (hbody : body.result = some ())
    (haccepts : b.Accepts p c ↔ b.sectionLen p = n) (hknows : b.Knows p c) :
    b.Ends p c (b.ofLength n p body).result := by
  unfold SysBlock.ofLength
  unfold SysBlock.sectionLen at haccepts
  refine ⟨fun h _ => ?_, fun _ h => absurd hknows h, fun h => ?_⟩
  · have hlen := haccepts.mp h
    simp [hlen, hbody, SysBlock.sectionLen]
  · have hlen : b.file.getPU16 (p + 2) ≠ n := fun heq => h (haccepts.mpr heq)
    simp [hlen]

theorem refusedPriority_iff : 1 < v ∧ v ≠ 0xFF ↔ ¬ ValidPriority v := by
  unfold ValidPriority
  omega

theorem parsePriority_result : (b.parsePriority p i).result =
    if ValidPriority (b.file.getPU8 (p + 6 + i)) then some () else none := by
  unfold SysBlock.parsePriority
  simp only [refusedPriority_iff]
  by_cases hv : ValidPriority (b.file.getPU8 (p + 6 + i)) <;> simp [hv]

theorem intPriority_ends : b.Ends p .intPriority (b.intPriority p).result := by
  unfold SysBlock.intPriority
  refine ⟨fun h _ => ?_, fun _ h => absurd trivial h, fun h => ?_⟩
  · have hloop := loop_result (n := b.file.getPU16 (p + 4)) (s := fun _ => ())
      (g := fun i _ => b.parsePriority p i) fun i hi => parsePriority_result.trans (if_pos (h.2 i hi))
    have hcount : ¬ maxSysIntNum < b.file.getPU16 (p + 4) := Nat.not_lt.mpr h.1
    simp [hcount, hloop, SysBlock.sectionLen]
  · by_cases hcount : maxSysIntNum < b.file.getPU16 (p + 4)
    · simp [hcount]
    · have hloop := loop_gives_up_of (n := b.file.getPU16 (p + 4)) (s := fun _ => ())
        (g := fun i _ => b.parsePriority p i) (G := fun i => ValidPriority (b.file.getPU8 (p + 6 + i)))
        (fun i _ hv => parsePriority_result.trans (if_pos hv)) (fun i _ hv => parsePriority_result.trans (if_neg hv))
        fun hall => h ⟨Nat.not_lt.mp hcount, hall⟩
      simp [hcount, hloop]

/-- The walk over service data objects returns, and gives up at an index it does not know. -/
theorem parseBusSdos_result :
    ((∀ i < n, KnownSdo (b.file.getPU16 (q + 6 * i))) →
        ∃ r, (b.parseBusSdos n q).result = some (some r)) ∧
      ((¬ ∀ i < n, KnownSdo (b.file.getPU16 (q + 6 * i))) →
        (b.parseBusSdos n q).result = some none) := by
  induction n generalizing q with
  | zero => exact ⟨fun _ => ⟨q - 1, rfl⟩, fun h => absurd (fun i hi => absurd hi (Nat.not_lt_zero i)) h⟩
  | succ n ih =>
    have hindex (m : Nat) : q + 6 * (m + 1) = q + 6 + 6 * m := by omega
    rw [Nat.forall_lt_succ_left, Nat.mul_zero, Nat.add_zero]
    simp only [hindex]
    have hstep : (b.parseBusSdos (n + 1) q).result =
        if KnownSdo (b.file.getPU16 q) then (b.parseBusSdos n (q + 6)).result else some none := by
      conv_lhs => unfold SysBlock.parseBusSdos
      cases hf : sdoField (b.file.getPU16 q) with
      | none =>
        have hno : ¬ KnownSdo (b.file.getPU16 q) := by simp [KnownSdo, hf]
        simp [hf, hno]
      | some f =>
        have hyes : KnownSdo (b.file.getPU16 q) := by simp [KnownSdo, hf]
        by_cases hfield : f = .nBfm608A <;> simp [hf, hfield, hyes]
    rw [hstep]
    by_cases hknown : KnownSdo (b.file.getPU16 q)
    · rw [if_pos hknown]
      simp only [hknown, true_and]
      exact ih
    · rw [if_neg hknown]
      exact ⟨fun h => absurd h.1 hknown, fun _ => rfl⟩

theorem pdoLoop_returns {ext : Bool} {f g : BusField} {s : PdoPos} :
    (loop (fun _ s => b.parsePdoEntry p ext f g n s) k s).result.isSome = true :=
  loop_returns fun i t => by simp [SysBlock.parsePdoEntry]

theorem parseExtPDO_returns : (b.parseExtPDO p n q).result.isSome = true := by
  have hloop : (loop (fun _ s => b.parsePdoEntry p true .pdo1ACountExt .pdo1BCountExt n s) n
      ⟨q, 0, 0⟩).result.isSome = true := pdoLoop_returns
  obtain ⟨s, hs⟩ := isSome_iff_exists.mp hloop
  unfold SysBlock.parseExtPDO
  simp [hs]

theorem parseSlavePDO_returns : (b.parseSlavePDO p n q).result.isSome = true := by
  have hloop : (loop (fun _ s => b.parsePdoEntry p false .pdo1ACount .pdo1BCount n s) n
      ⟨q, 0, 0⟩).result.isSome = true := pdoLoop_returns
  obtain ⟨s, hs⟩ := isSome_iff_exists.mp hloop
  unfold SysBlock.parseSlavePDO
  simp [hs]

theorem unlessNone_returns {x : Parse Nat} (hx : x.result.isSome = true) :
    (unlessNone n q x).result.isSome = true := by
  unfold unlessNone
  split
  · rfl
  · exact hx

theorem parseStation_returns {s : StationPos} : (b.parseStation p i s).result.isSome = true := by
  have hcopy : (loop (fun k _ => do
      let v ← b.getU8 (s.ptr + k)
      storeCell (b.room p (.subStation i) ((b.file.getPU16 (s.ptr + 2) + 4) % 65536 + 8)) k
        (.subStationBuf i k) v : Nat → Unit → Parse Unit)
      ((b.file.getPU16 (s.ptr + 2) + 4) % 65536) ()).result = some () :=
    loop_result (s := fun _ => ()) fun j _ => by simp
  unfold SysBlock.parseStation
  simp only [result_bind, result_getU8, result_getU16, result_setCell, bind_some, hcopy]
  split_ifs <;> simp

/-- The bus configuration never gives up, and returns zero just if it does not know an index. -/
theorem parseBusConfig_result :
    ((∀ i < b.file.getPU16 (p + 4), KnownSdo (b.file.getPU16 (p + 7 + 6 * i))) →
        (b.parseBusConfig p).result = some (b.sectionLen p)) ∧
      ((¬ ∀ i < b.file.getPU16 (p + 4), KnownSdo (b.file.getPU16 (p + 7 + 6 * i))) →
        (b.parseBusConfig p).result = some 0) := by
  obtain ⟨hknown, hunknown⟩ :=
    parseBusSdos_result (b := b) (n := b.file.getPU16 (p + 4)) (q := p + 7)
  constructor
  · intro h
    obtain ⟨r, hr⟩ := hknown h
    obtain ⟨ext, hext⟩ := isSome_iff_exists.mp (unlessNone_returns (n := b.file.getPU16 (r + 2))
      (q := r + 4) (x := b.parseExtPDO p (b.file.getPU16 (r + 2)) (r + 4)) parseExtPDO_returns)
    obtain ⟨slave, hslave⟩ := isSome_iff_exists.mp (unlessNone_returns
      (n := b.file.getPU16 (ext + 2)) (q := ext + 4)
      (x := b.parseSlavePDO p (b.file.getPU16 (ext + 2)) (ext + 4)) parseSlavePDO_returns)
    obtain ⟨last, hlast⟩ := isSome_iff_exists.mp (loop_returns (n := b.file.getPU16 slave)
      (g := fun i s => b.parseStation p i s) (t := ⟨slave + 2, 0, 0⟩) fun i s => parseStation_returns)
    unfold SysBlock.parseBusConfig
    simp [hr, hext, hslave, hlast, SysBlock.sectionLen]
  · intro h
    unfold SysBlock.parseBusConfig
    simp [hunknown h]

theorem parseSlave_returns {slaves : Nat} :
    (b.parseSlave p slaves i q).result.isSome = true := by
  obtain ⟨r, hr⟩ := isSome_iff_exists.mp (loop_returns (n := b.file.getPU16 (q + 4))
    (g := fun k ptr => b.parseSoemSdo p i (b.file.getPU16 (q + 4)) k ptr) (t := q + 8)
    fun k ptr => by
      unfold SysBlock.parseSoemSdo
      simp only [result_bind, result_getU8, result_getU16, result_storeCell, bind_some]
      split_ifs <;> simp)
  obtain ⟨c, hc⟩ := isSome_iff_exists.mp (loop_returns (n := b.file.getPU16 (q + 6))
    (g := fun _ s => b.countSoemPdo slaves i s) (t := ⟨r, 0, 0⟩) fun k s => by
      unfold SysBlock.countSoemPdo
      simp only [result_bind, result_getU16, bind_some]
      split <;> simp)
  have hclose {size : SlaveField} {count x addr offset len : Nat} :
      (closePdo slaves i size count x addr offset len).result =
        some (closed count x addr offset) := by
    unfold closePdo closed
    by_cases hx : x = count <;> simp [hx]
  obtain ⟨l, hl⟩ := isSome_iff_exists.mp (loop_returns (n := b.file.getPU16 (q + 6))
    (g := fun _ s => b.parseSoemPdo p slaves i c.rx c.tx s) (t := ⟨r, 0, 0, 0, 0⟩) fun k s => by
      unfold SysBlock.parseSoemPdo
      simp [hclose])
  unfold SysBlock.parseSlave
  simp [hr, hc, hl]

theorem parseEthercatConfig_result : (b.parseEthercatConfig p).result = some (b.sectionLen p) := by
  obtain ⟨l, hl⟩ := isSome_iff_exists.mp (loop_returns (n := b.file.getPU16 (p + 6))
    (g := fun i ptr => b.parseSlave p (b.room p .slaves (b.file.getPU16 (p + 6))) i ptr) (t := p + 8)
    fun i ptr => parseSlave_returns)
  unfold SysBlock.parseEthercatConfig SysBlock.sectionLen
  by_cases hcount : b.file.getPU16 (p + 6) = 0
  · simp [hcount]
  · simp [hcount, hl]

theorem parseModbusTcpClient_result :
    (b.parseModbusTcpClient p).result = some (b.sectionLen p) := by
  obtain ⟨l, hl⟩ := isSome_iff_exists.mp (loop_returns (n := b.file.getPU16 (p + 4))
    (g := fun i ptr => b.parseTcpItem i ptr) (t := p + 4) fun i ptr => by
      obtain ⟨x, hx⟩ := isSome_iff_exists.mp (loop_returns (n := 8) (t := ())
        (g := (fun k _ => do
          let v ← b.getU8 (ptr + 2 + k)
          setCell (.tcpName i k) v : Nat → Unit → Parse Unit)) fun k _ => by simp)
      unfold SysBlock.parseTcpItem
      simp [hx])
  unfold SysBlock.parseModbusTcpClient SysBlock.sectionLen
  simp [hl]

theorem parseSheetItem_result :
    (b.SheetItemOk q → (b.parseSheetItem p i n k q).result = some (q + 14)) ∧
      (¬ b.SheetItemOk q → (b.parseSheetItem p i n k q).result = none) := by
  unfold SysBlock.parseSheetItem SysBlock.SheetItemOk
  cases hdata : sheetElement (b.file.getPU16 (q + 10)) with
  | none => simp [hdata]
  | some data =>
    cases hresult : sheetElement (b.file.getPU16 (q + 12)) with
    | none => simp [hdata, hresult]
    | some result => simp [hdata, hresult]

theorem parseSheet_result :
    (b.SheetOk p i q → (b.parseSheet p i q).result = some (q + 12 + 14 * b.insListNum q)) ∧
      (¬ b.SheetOk p i q → (b.parseSheet p i q).result = none) := by
  obtain ⟨x, hx⟩ := isSome_iff_exists.mp (loop_returns (n := maxModlinkSheetNameLen) (t := ())
    (g := (fun k _ => do
      let v ← b.getU8 (q + k)
      setCell (.sheetName i k) v : Nat → Unit → Parse Unit)) fun k _ => by simp)
  have hnum : b.file.getPU16 (q + 10) % 256 = b.insListNum q := rfl
  have hitem (j : Nat) := parseSheetItem_result (b := b) (p := p) (i := i) (n := b.insListNum q)
    (k := j) (q := q + 12 + 14 * j)
  unfold SysBlock.parseSheet
  by_cases hserved : b.malloc p (.sheet i) = true
  · constructor
    · intro hok
      have hloop := loop_result (n := b.insListNum q) (s := fun j => q + 12 + 14 * j)
        (g := fun j ptr => b.parseSheetItem p i (b.insListNum q) j ptr)
        fun j hj => (hitem j).1 (hok.item j hj)
      simp only [Nat.mul_zero, Nat.add_zero] at hloop
      simp [hx, hserved, hnum, hloop]
    · intro hno
      have hloop := loop_gives_up_of (n := b.insListNum q) (s := fun j => q + 12 + 14 * j)
        (g := fun j ptr => b.parseSheetItem p i (b.insListNum q) j ptr)
        (fun j _ => (hitem j).1) (fun j _ => (hitem j).2) fun hall => hno ⟨hserved, hall⟩
      simp only [Nat.mul_zero, Nat.add_zero] at hloop
      simp [hx, hserved, hnum, hloop]
  · refine ⟨fun hok => absurd hok.served hserved, fun _ => ?_⟩
    simp [hx, hserved]

theorem plcParseSysblkModlinkConfig_result :
    (b.ModlinkOk p → (b.plcParseSysblkModlinkConfig p).result = some ()) ∧
      (¬ b.ModlinkOk p → (b.plcParseSysblkModlinkConfig p).result = none) := by
  have hsheet (i : Nat) := parseSheet_result (b := b) (p := p) (i := i) (q := b.sheetAt p i)
  have hnum : b.file.getPU16 (p + 4) % 256 = b.sheetNum p := rfl
  have hstart : b.sheetAt p 0 = p + 6 := rfl
  unfold SysBlock.plcParseSysblkModlinkConfig
  constructor
  · intro hok
    have hloop := loop_result (n := b.sheetNum p) (s := b.sheetAt p)
      (g := fun i ptr => b.parseSheet p i ptr) fun i hi => (hsheet i).1 (hok i hi)
    rw [hstart] at hloop
    simp [hnum, hloop]
  · intro hno
    have hloop := loop_gives_up_of (n := b.sheetNum p) (s := b.sheetAt p)
      (g := fun i ptr => b.parseSheet p i ptr) (fun i _ => (hsheet i).1) (fun i _ => (hsheet i).2) hno
    rw [hstart] at hloop
    simp [hnum, hloop]

theorem plcParseSysblkPlsdConfig_result : (b.plcParseSysblkPlsdConfig p).result = some () := by
  unfold SysBlock.plcParseSysblkPlsdConfig
  split
  · exact loop_result (s := fun _ => ()) fun i _ => by
      simp [SysBlock.plcParseSysblkPlsdDataProcessing]
  · rfl

theorem parseCode_ends (k : SysCode) : b.Ends p k (b.parseCode p k).result := by
  have hskip : (b.skip p).result = some (p + b.sectionLen p) := rfl
  have hstep {x : Parse Nat} {n : Nat} (hx : x.result = some n) : (stepBy p x).result = some (p + n) := by
    unfold stepBy
    simp [hx]
  have hgoes {k : SysCode} {r : Option Nat} (hok : b.Accepts p k) (hknows : b.Knows p k)
      (hr : r = some (p + b.sectionLen p)) : b.Ends p k r :=
    ⟨fun _ _ => hr, fun _ hno => absurd hknows hno, fun hno => absurd hok hno⟩
  cases k with
  | batterySave => exact ofLength_ends plcParseSysblkPlsdConfig_result Iff.rfl trivial
  | outputPoint =>
    refine ofLength_ends ?_ Iff.rfl trivial
    have hloop := loop_result (n := 8) (s := fun _ => ()) (g := fun i _ => b.parseOutValue p i)
      fun i _ => by simp [SysBlock.parseOutValue]
    simp [hloop]
  | watchDogTime => exact ofLength_ends (by simp) Iff.rfl trivial
  | losePowerCheckTime => exact ofLength_ends (by simp) Iff.rfl trivial
  | fexlinkCycleTime => exact ofLength_ends (by simp) Iff.rfl trivial
  | scanTime =>
    refine ofLength_ends ?_ Iff.rfl trivial
    by_cases hw : b.file.getPU16 (p + 4) = 0 <;> simp [hw]
  | digitFilterTime => exact ofLength_ends (by simp) Iff.rfl trivial
  | digitFilterTime1 => exact ofLength_ends (by simp) Iff.rfl trivial
  | advancedSetting => exact ofLength_ends (by simp) Iff.rfl trivial
  | runInputPoint =>
    refine ofLength_ends ?_ Iff.rfl trivial
    by_cases hw : b.file.getPU16 (p + 4) = 0 <;> simp [hw]
  | intPriority => exact intPriority_ends
  | modlink =>
    show b.Ends p .modlink (b.modlink p).result
    have hlen : b.file.getPU16 (p + 2) = b.sectionLen p := rfl
    obtain ⟨hok, hno⟩ := plcParseSysblkModlinkConfig_result (b := b) (p := p)
    unfold SysBlock.modlink
    by_cases hsheet : b.modbusTcpSheet = true
    · rw [if_pos hsheet]
      exact hgoes (.inl hsheet) trivial hskip
    · rw [if_neg hsheet]
      by_cases hsix : b.sectionLen p = 6
      · refine hgoes (.inr (.inl hsix)) trivial ?_
        simp [hlen, hsix]
      · by_cases hsheets : b.ModlinkOk p
        · refine hgoes (.inr (.inr hsheets)) trivial ?_
          simp [hlen, hsix, hok hsheets]
        · have hrefused : ¬ b.Accepts p .modlink := fun h =>
            h.elim hsheet fun h => h.elim hsix hsheets
          refine ⟨fun h => absurd h hrefused, fun h => absurd h hrefused, fun _ => ?_⟩
          simp [hlen, hsix, hno hsheets]
  | modbusTcpClient =>
    refine hgoes trivial trivial ?_
    show (b.modbusTcpClient p).result = _
    unfold SysBlock.modbusTcpClient
    split
    · exact hskip
    · exact hstep parseModbusTcpClient_result
  | busConfig =>
    show b.Ends p .busConfig (b.busConfig p).result
    obtain ⟨hknown, hunknown⟩ := parseBusConfig_result (b := b) (p := p)
    unfold SysBlock.busConfig
    by_cases hflag : b.flag = 1
    · rw [if_pos hflag]
      refine ⟨fun _ hknows => hstep (hknown (hknows hflag)), fun _ hno => ?_,
        fun hno => absurd trivial hno⟩
      exact hstep (hunknown fun hall => hno fun _ => hall)
    · rw [if_neg hflag]
      exact hgoes trivial (fun h => absurd h hflag) hskip
  | ethercatConfig =>
    refine hgoes trivial trivial ?_
    show (b.ethercatConfig p).result = _
    unfold SysBlock.ethercatConfig
    split
    · exact hstep parseEthercatConfig_result
    · exact hskip
  | ethercatMaster => exact hgoes trivial trivial (hstep (by simp [SysBlock.parseEthercatMaster]; rfl))
  | plcRole => exact ofLength_ends (by simp) Iff.rfl trivial
  | skipped => exact hgoes trivial trivial hskip

/-! ## What Sections Set -/

def Touch.isWrite : Touch → Bool
  | .read _ _ => false
  | _ => true

/-- What a part of the parser writes. -/
def writes {α : Type} (x : Parse α) : List Touch := x.notes.filter Touch.isWrite

def lastGiven : List Touch → SysCell → Option Nat
  | [], _ => none
  | t :: ts, c => (lastGiven ts c).or (t.gives c)

section

variable {α β : Type} {c : SysCell} {ts us : List Touch} {g : SysConfig}

@[simp] theorem writes_pure {a : α} : writes (pure a : Parse α) = [] := rfl

@[simp] theorem writes_giveUp : writes (giveUp : Parse α) = [] := rfl

@[simp] theorem writes_getU8 : writes (b.getU8 p) = [] := rfl

@[simp] theorem writes_getU16 : writes (b.getU16 p) = [] := rfl

@[simp] theorem writes_setCell : writes (setCell c v) = [.set c v] := rfl

@[simp] theorem writes_bind {x : Parse α} {f : α → Parse β} :
    writes (x >>= f) = writes x ++ x.result.elim [] fun a => writes (f a) := by
  unfold writes
  rw [notes_bind, filter_append]
  cases x.result <;> rfl

theorem writes_ofLength {body : Parse Unit} :
    writes (b.ofLength n p body) = if b.sectionLen p = n then writes body else [] := by
  unfold SysBlock.ofLength SysBlock.sectionLen
  by_cases hlen : b.file.getPU16 (p + 2) = n
  · cases hbody : body.result <;> simp [hlen, hbody]
  · simp [hlen]

theorem writes_stepBy {x : Parse Nat} : writes (stepBy p x) = writes x := by
  unfold stepBy
  cases hx : x.result <;> simp [hx]

theorem writes_loop {f : Nat → Unit → Parse Unit} (h : ∀ i < n, (f i ()).result = some ()) :
    writes (loop f n ()) = (range n).flatMap fun i => writes (f i ()) := by
  unfold writes
  rw [loop_notes (s := fun _ => ()) h, filter_flatMap]

theorem writes_priorities : writes (loop (fun i _ => b.parsePriority p i) n ()) =
    ((range n).takeWhile fun i => ValidPriority (b.file.getPU8 (p + 6 + i))).map
      fun i => .set (.priority i) (b.file.getPU8 (p + 6 + i)) := by
  suffices hfrom : ∀ n i, writes (loopFrom (fun i _ => b.parsePriority p i) i n ()) =
      ((range' i n).takeWhile fun i => ValidPriority (b.file.getPU8 (p + 6 + i))).map
        fun i => .set (.priority i) (b.file.getPU8 (p + 6 + i)) by
    rw [range_eq_range']
    exact hfrom n 0
  intro n
  induction n with
  | zero => exact fun i => rfl
  | succ n ih =>
    intro i
    show writes (b.parsePriority p i >>= loopFrom (fun i _ => b.parsePriority p i) (i + 1) n) = _
    rw [writes_bind, parsePriority_result, range'_succ]
    by_cases hv : ValidPriority (b.file.getPU8 (p + 6 + i))
    · have hset : writes (b.parsePriority p i) = [.set (.priority i) (b.file.getPU8 (p + 6 + i))] := by
        unfold SysBlock.parsePriority
        simp [refusedPriority_iff, hv]
      rw [if_pos hv, takeWhile_cons_of_pos (by simpa using hv), map_cons, hset]
      exact congrArg _ (ih (i + 1))
    · have hset : writes (b.parsePriority p i) = [] := by
        unfold SysBlock.parsePriority
        simp [refusedPriority_iff, hv]
      rw [if_neg hv, takeWhile_cons_of_neg (by simpa using hv), hset]
      rfl

theorem writes_limited {lo hi : Nat} (h : lo ≤ hi) : writes (b.limited n lo hi p) =
    if b.sectionLen p = 6 then [.set (.sd n) (max lo (min hi (b.file.getPU16 (p + 4))))] else [] := by
  have hlimit (w : Nat) : (if w < lo then lo else if hi < w then hi else w) = max lo (min hi w) := by
    split_ifs <;> omega
  unfold SysBlock.limited
  rw [writes_ofLength]
  simp [hlimit]

theorem lastGiven_writes {x : Parse α} : lastGiven (writes x) c = lastGiven x.notes c := by
  unfold writes
  induction x.notes with
  | nil => rfl
  | cons t ts ih =>
    cases t <;> simp [filter_cons, Touch.isWrite, lastGiven, ih, Touch.gives]

/-- A cell holds what it was given last. -/
theorem applyTouches_eq : applyTouches ts g c = (lastGiven ts c).getD (g c) := by
  unfold applyTouches
  induction ts generalizing g with
  | nil => rfl
  | cons t ts ih =>
    rw [foldl_cons, ih, lastGiven, Touch.apply]
    cases lastGiven ts c <;> simp

theorem applyTouches_append : applyTouches (ts ++ us) g = applyTouches us (applyTouches ts g) :=
  foldl_append

/-- Nothing has changed just if every cell was last given what it held. -/
theorem applyTouches_eq_self_iff :
    applyTouches ts g = g ↔ ∀ c v, lastGiven ts c = some v → g c = v := by
  constructor
  · intro h c v hv
    rw [← h, applyTouches_eq, hv]
    rfl
  · intro h
    funext c
    rw [applyTouches_eq]
    cases hv : lastGiven ts c with
    | none => rfl
    | some v => exact (h c v hv).symm

end

/-- What the section at `p` sets, in order. The lists of the bus, of EtherCAT and of the sheets set
what their parsers write. -/
def SysBlock.settings (b : SysBlock) (p : Nat) : SysCode → List Touch
  | .batterySave =>
    if b.sectionLen p = 44 ∧ b.isSupportPlsd = true then
      (range 5).flatMap fun i =>
        [.set (.plsd 1 i .startElement) (b.file.getPU16 (p + 4 + 8 * i)),
         .set (.plsd 1 i .length) (b.file.getPU16 (p + 4 + 8 * i + 2)),
         .set (.plsd 2 i .startElement) (b.file.getPU16 (p + 4 + 8 * i + 4)),
         .set (.plsd 2 i .length) (b.file.getPU16 (p + 4 + 8 * i + 6))]
    else []
  | .outputPoint =>
    if b.sectionLen p = 22 then
      .set .outStatus (b.file.getPU16 (p + 4) % 256) ::
        (range 8).map fun i => .set (.outValue i) (b.file.getPU16 (p + 6 + 2 * i))
    else []
  | .watchDogTime =>
    if b.sectionLen p = 6 then [.set (.sd 34) (max 100 (min 1000 (b.file.getPU16 (p + 4))))] else []
  | .scanTime =>
    if b.sectionLen p = 6 then
      .set (.sd 33) (b.file.getPU16 (p + 4)) ::
        if b.file.getPU16 (p + 4) = 0 then [] else [.set (.sm 8) 1]
    else []
  | .losePowerCheckTime =>
    if b.sectionLen p = 6 then [.set (.sd 5) (max 10 (min 100 (b.file.getPU16 (p + 4))))] else []
  | .fexlinkCycleTime =>
    if b.sectionLen p = 6 then [.set (.sd 234) (min 2000 (b.file.getPU16 (p + 4)))] else []
  | .digitFilterTime =>
    if b.sectionLen p = 8 then
      [.set (.sd 35) (b.file.getPU16 (p + 4)), .set (.sd 36) (b.file.getPU16 (p + 6))]
    else []
  | .advancedSetting =>
    if b.sectionLen p = 6 then
      [.set .adSetting (b.file.getPU16 (p + 4)), .set (.sm 7) (b.file.getPU16 (p + 4) % 2)]
    else []
  | .runInputPoint =>
    if b.sectionLen p = 6 then
      if b.file.getPU16 (p + 4) = 0 then [.set (.sm 9) 0, .set (.sd 9) 0]
      else [.set (.sm 9) 1, .set (.sd 9) (lowestBit (b.file.getPU16 (p + 4)))]
    else []
  | .intPriority =>
    if b.file.getPU16 (p + 4) ≤ maxSysIntNum then
      ((range (b.file.getPU16 (p + 4))).takeWhile
        fun i => ValidPriority (b.file.getPU8 (p + 6 + i))).map
          fun i => .set (.priority i) (b.file.getPU8 (p + 6 + i))
    else []
  | .plcRole =>
    if b.sectionLen p = 10 then
      [.set .plcRunAs (b.file.getPU8 (p + 4)), .set .leftModules (b.file.getPU8 (p + 5))]
    else []
  | .ethercatMaster =>
    [.set (.sd 301) (b.file.getPU16 (p + 4)), .set (.sd 300) (max 1 (b.file.getPU16 (p + 6))),
     .set (.sd 302) (b.file.getPU8 (p + 8)), .set (.sd 303) (b.file.getPU8 (p + 9))]
  | .busConfig => if b.flag = 1 then writes (b.parseBusConfig p) else []
  | .ethercatConfig => if b.flag = 1 then writes (b.parseEthercatConfig p) else []
  | .modbusTcpClient => if b.modbusTcpSheet then [] else writes (b.parseModbusTcpClient p)
  | .modlink =>
    if b.modbusTcpSheet then []
    else if b.sectionLen p = 6 then [] else writes (b.plcParseSysblkModlinkConfig p)
  | .digitFilterTime1 | .skipped => []

theorem writes_parseCode (k : SysCode) : writes (b.parseCode p k) = b.settings p k := by
  cases k with
  | batterySave =>
    show writes (b.ofLength 44 p (b.plcParseSysblkPlsdConfig p)) = _
    rw [writes_ofLength]
    unfold SysBlock.settings SysBlock.plcParseSysblkPlsdConfig
    cases hplsd : b.isSupportPlsd
    · simp
    · rw [if_pos rfl, writes_loop fun i _ => by simp [SysBlock.plcParseSysblkPlsdDataProcessing]]
      simp [SysBlock.plcParseSysblkPlsdDataProcessing]
  | outputPoint =>
    show writes (b.ofLength 22 p _) = _
    rw [writes_ofLength]
    unfold SysBlock.settings
    simp only [writes_bind, writes_getU16, writes_setCell, result_getU16, result_setCell,
      elim_some]
    rw [writes_loop fun i _ => by simp [SysBlock.parseOutValue]]
    simp [SysBlock.parseOutValue, map_eq_flatMap]
  | watchDogTime => exact writes_limited (by omega)
  | losePowerCheckTime => exact writes_limited (by omega)
  | fexlinkCycleTime =>
    have hlimit (w : Nat) : (if w ≤ 0 then 0 else if 2000 < w then 2000 else w) = min 2000 w := by
      split_ifs <;> omega
    show writes (b.ofLength 6 p _) = _
    rw [writes_ofLength]
    simp [SysBlock.settings, ← hlimit]
  | scanTime =>
    show writes (b.ofLength 6 p _) = _
    rw [writes_ofLength]
    by_cases hw : b.file.getPU16 (p + 4) = 0 <;> simp [SysBlock.settings, hw]
  | digitFilterTime =>
    show writes (b.ofLength 8 p _) = _
    rw [writes_ofLength]
    simp [SysBlock.settings]
  | digitFilterTime1 =>
    show writes (b.ofLength 20 p _) = _
    rw [writes_ofLength]
    simp [SysBlock.settings]
  | advancedSetting =>
    show writes (b.ofLength 6 p _) = _
    rw [writes_ofLength]
    simp [SysBlock.settings]
  | runInputPoint =>
    show writes (b.ofLength 6 p _) = _
    rw [writes_ofLength]
    by_cases hw : b.file.getPU16 (p + 4) = 0 <;> simp [SysBlock.settings, hw]
  | intPriority =>
    show writes (b.intPriority p) = _
    unfold SysBlock.intPriority SysBlock.settings
    by_cases hcount : maxSysIntNum < b.file.getPU16 (p + 4)
    · simp [hcount, Nat.not_le.mpr hcount]
    · cases hloop : (loop (fun i _ => b.parsePriority p i) (b.file.getPU16 (p + 4)) ()).result <;>
        simp [hcount, hloop, Nat.not_lt.mp hcount, writes_priorities]
  | modlink =>
    show writes (b.modlink p) = _
    unfold SysBlock.modlink SysBlock.settings
    cases b.modbusTcpSheet
    · by_cases hsix : b.sectionLen p = 6
      · have hlen : b.file.getPU16 (p + 2) = 6 := hsix
        simp [hsix, hlen]
      · have hlen : ¬ b.file.getPU16 (p + 2) = 6 := hsix
        cases hsheets : (b.plcParseSysblkModlinkConfig p).result <;> simp [hsix, hlen, hsheets]
    · simp [SysBlock.skip]
  | modbusTcpClient =>
    show writes (b.modbusTcpClient p) = _
    unfold SysBlock.modbusTcpClient SysBlock.settings
    cases b.modbusTcpSheet <;> simp [SysBlock.skip, writes_stepBy]
  | busConfig =>
    show writes (b.busConfig p) = _
    unfold SysBlock.busConfig SysBlock.settings
    by_cases hflag : b.flag = 1
    · simp only [if_pos hflag, writes_stepBy]
    · simp only [if_neg hflag]
      rfl
  | ethercatConfig =>
    show writes (b.ethercatConfig p) = _
    unfold SysBlock.ethercatConfig SysBlock.settings
    by_cases hflag : b.flag = 1
    · simp only [if_pos hflag, writes_stepBy]
    · simp only [if_neg hflag]
      rfl
  | ethercatMaster =>
    have hone (w : Nat) : (if w = 0 then 1 else w) = max 1 w := by
      split_ifs <;> omega
    show writes (stepBy p (b.parseEthercatMaster p)) = _
    rw [writes_stepBy]
    simp [SysBlock.parseEthercatMaster, SysBlock.settings, hone]
  | plcRole =>
    show writes (b.ofLength 10 p _) = _
    rw [writes_ofLength]
    simp [SysBlock.settings]
  | skipped => rfl

/-! ## Runs That Refuse the Block -/

/-- What the section at `p` sets, whatever its code. -/
def SysBlock.sectionSettings (b : SysBlock) (p : Nat) : List Touch :=
  match sysCode (b.file.getPU16 p) with
  | some k => b.settings p k
  | none => []

/-- From `p` on, the loop steps over the sections of the list, and the last one is refused. -/
inductive SysBlock.RefusedVia (b : SysBlock) : Nat → List Nat → Prop where
  | here (p : Nat) : p < b.sectionsEnd →
      (∀ k, sysCode (b.file.getPU16 p) = some k → ¬ b.Accepts p k) → b.RefusedVia p [p]
  | next (p : Nat) (k : SysCode) (ps : List Nat) : p < b.sectionsEnd →
      sysCode (b.file.getPU16 p) = some k → b.Accepts p k → b.Knows p k →
      b.RefusedVia (p + b.sectionLen p) ps → b.RefusedVia p (p :: ps)

/-- The configuration is the one before the call whenever the call fails. -/
def SysBlock.RefusalKeeps (b : SysBlock) (s : SysBlockState) : Prop :=
  ∀ n s', b.plcParseSystemBlock n s = some (false, s') → s'.config = s.config

section

variable {s s' : SysBlockState} {ps : List Nat} {g : SysConfig}

theorem writes_parseSection : writes (b.parseSection p) = b.sectionSettings p := by
  unfold SysBlock.parseSection SysBlock.sectionSettings
  cases hcode : sysCode (b.file.getPU16 p) with
  | none => simp [hcode]
  | some k => simp [hcode, writes_parseCode]

theorem applyTouches_section :
    applyTouches (b.parseSection p).notes g = applyTouches (b.sectionSettings p) g := by
  funext c
  rw [applyTouches_eq, applyTouches_eq, ← writes_parseSection, lastGiven_writes]

theorem parseSection_refuses (h : ∀ k, sysCode (b.file.getPU16 p) = some k → ¬ b.Accepts p k) :
    (b.parseSection p).result = none := by
  unfold SysBlock.parseSection
  cases hcode : sysCode (b.file.getPU16 p) with
  | none => simp [hcode]
  | some k => simp [hcode, (parseCode_ends k).refuses (h k hcode)]

theorem parseSection_ends {k : SysCode} (hcode : sysCode (b.file.getPU16 p) = some k) :
    b.Ends p k (b.parseSection p).result := by
  have hresult : (b.parseSection p).result = (b.parseCode p k).result := by
    unfold SysBlock.parseSection
    simp [hcode]
  rw [hresult]
  exact parseCode_ends k

/-- A section that does not know an index of the bus configuration keeps the loop where it is. -/
theorem not_refusedVia_of_not_knows {k : SysCode} (hcode : sysCode (b.file.getPU16 p) = some k)
    (hok : b.Accepts p k) (hknows : ¬ b.Knows p k) : ¬ b.RefusedVia p ps := by
  intro h
  cases h with
  | here _ _ hno => exact hno k hcode hok
  | next _ k' _ _ hcode' _ hknows' _ =>
    rw [hcode] at hcode'
    cases hcode'
    exact hknows hknows'

theorem refusedVia_of_run (h : b.sectionLoop.run n (p, s) = some (false, s')) :
    ∃ ps, b.RefusedVia p ps ∧ s'.config = applyTouches (ps.flatMap b.sectionSettings) s.config := by
  induction n generalizing p s with
  | zero => cases h
  | succ n ih =>
    unfold WhileLoop.run SysBlock.sectionLoop at h
    dsimp only at h
    by_cases hlt : p < b.sectionsEnd
    · rw [if_pos hlt] at h
      cases hresult : (b.parseSection p).result with
      | none =>
        rw [hresult] at h
        cases h
        refine ⟨[p], .here p hlt fun k hk hok => ?_, ?_⟩
        · have hends := parseSection_ends hk
          rw [hresult] at hends
          by_cases hknows : b.Knows p k
          · cases hends.accepts hok hknows
          · cases hends.stays hok hknows
        · rw [flatMap_singleton]
          exact applyTouches_section
      | some q =>
        rw [hresult] at h
        obtain ⟨ps, hvia, hconfig⟩ := ih h
        cases hcode : sysCode (b.file.getPU16 p) with
        | none =>
          rw [parseSection_refuses fun k hk => by rw [hcode] at hk; cases hk] at hresult
          cases hresult
        | some k =>
          have hends := parseSection_ends hcode
          rw [hresult] at hends
          have hok : b.Accepts p k := by
            by_contra hno
            cases hends.refuses hno
          by_cases hknows : b.Knows p k
          · cases hends.accepts hok hknows
            refine ⟨p :: ps, .next p k ps hlt hcode hok hknows hvia, ?_⟩
            rw [hconfig, flatMap_cons, applyTouches_append]
            exact congrArg _ applyTouches_section
          · cases hends.stays hok hknows
            exact absurd hvia (not_refusedVia_of_not_knows hcode hok hknows)
    · rw [if_neg hlt] at h
      cases h

theorem run_of_refusedVia (h : b.RefusedVia p ps) (s : SysBlockState) :
    ∃ n s', b.sectionLoop.run n (p, s) = some (false, s') ∧
      s'.config = applyTouches (ps.flatMap b.sectionSettings) s.config := by
  induction h generalizing s with
  | here p hlt hno =>
    refine ⟨1, ⟨applyTouches (b.parseSection p).notes s.config, true, true⟩, ?_, ?_⟩
    · simp [WhileLoop.run, SysBlock.sectionLoop, hlt, parseSection_refuses hno]
    · rw [flatMap_singleton]
      exact applyTouches_section
  | next p k ps hlt hcode hok hknows _ ih =>
    obtain ⟨n, s', hrun, hconfig⟩ :=
      ih { s with config := applyTouches (b.parseSection p).notes s.config }
    refine ⟨n + 1, s', ?_, ?_⟩
    · rw [← hrun]
      simp [WhileLoop.run, SysBlock.sectionLoop, hlt, (parseSection_ends hcode).accepts hok hknows]
    · rw [hconfig, flatMap_cons, applyTouches_append]
      exact congrArg _ applyTouches_section

end

/-- A refused block leaves the configuration as it was just if, on the way to the refusal, every
cell was last set to what it held. -/
theorem refusal_keeps_iff (b : SysBlock) (s : SysBlockState) :
    b.RefusalKeeps s ↔ (s.sysblockErr = false → ∀ ps, b.RefusedVia firstSection ps →
      ∀ c v, lastGiven (ps.flatMap b.sectionSettings) c = some v → s.config c = v) := by
  unfold SysBlock.RefusalKeeps SysBlock.plcParseSystemBlock
  cases hs : s.sysblockErr with
  | true =>
    refine iff_of_true (fun n s' h => ?_) fun h => by cases h
    rw [if_pos rfl] at h
    cases h
    rfl
  | false =>
    simp only [Bool.false_eq_true, if_false, true_imp_iff]
    constructor
    · intro h ps hvia
      obtain ⟨n, s', hrun, hconfig⟩ := run_of_refusedVia hvia s
      rw [h n s' hrun] at hconfig
      exact applyTouches_eq_self_iff.mp hconfig.symm
    · intro h n s' hrun
      obtain ⟨ps, hvia, hconfig⟩ := refusedVia_of_run hrun
      rw [hconfig]
      exact applyTouches_eq_self_iff.mpr (h ps hvia)

/-- A block with a watchdog time of 200 ms and then a code that is not known: `03 AA 06 00 C8 00`
and `0B AA`. -/
def lateFailureBlock : SysBlock where
  file := [0, 0, 0, 0, 0, 0, 38, 0, 0, 0] ++ replicate 14 0 ++
    [0x03, 0xAA, 6, 0, 200, 0, 0x0B, 0xAA, 4, 0, 0, 0, 0, 0]
  flag := 1
  isSupportPlsd := true
  modbusTcpSheet := true
  malloc := fun _ _ => true

/-- The watchdog time of the refused block is in force. -/
theorem refused_watchdog_in_force : ¬ ∀ (b : SysBlock) (s : SysBlockState), b.RefusalKeeps s := by
  intro h
  let before : SysBlockState := ⟨fun _ => 100, false, false⟩
  have hlen : lateFailureBlock.sectionLen 24 = 6 := by decide
  have hvia : lateFailureBlock.RefusedVia firstSection [24, 30] := by
    refine .next 24 .watchDogTime [30] (by decide) (by decide) hlen trivial ?_
    rw [hlen]
    refine .here 30 (by decide) fun k hk => ?_
    have hunknown : sysCode (lateFailureBlock.file.getPU16 30) = none := by decide
    rw [hunknown] at hk
    cases hk
  obtain ⟨n, s', hrun, hconfig⟩ := run_of_refusedVia hvia before
  have hwatchdog : s'.config (.sd 34) = 200 := by
    rw [hconfig, applyTouches_eq]
    decide
  rw [h lateFailureBlock before n s' hrun] at hwatchdog
  cases hwatchdog

end Kalyke
