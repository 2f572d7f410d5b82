-- SUMMARY: The parts of the system block that are lists of lists, and the parser of the whole block.
import Kalyke.SysManage.SysBlock

/-!
# Lists of the System Block

The bus configuration, that of EtherCAT, the sheets of `MODLINK` and those of `MODBUS_TCP_CLIENT`
are lists whose lengths stand in the file, some with lists inside. Each sub-parser walks its lists
by these counts alone and returns the length that the section says it has.
-/

namespace Kalyke

namespace SysBlock

variable (b : SysBlock)

/-! ## Bus Configuration -/

/-- Where the loop over the process data objects is: the next entry, and how many of each list there
have been. -/
structure PdoPos where
  ptr : Nat
  ia : Nat
  ib : Nat

/-- The type of the entries that go into the list of `pPDO1B`. -/
def pdo1B : Nat := 0x1B

/-- One round of `parse_ExtPDO` and `parse_SlavePDO`: an entry of seven bytes. -/
def parsePdoEntry (p : Nat) (ext : Bool) (count1A count1B : BusField) (n : Nat) (s : PdoPos) :
    Parse PdoPos := do
  let sType ← b.getU8 s.ptr
  let rx := decide (sType = pdo1B)
  let i := if rx then s.ib else s.ia
  setCell (.bus (if rx then count1B else count1A)) (i + 1)
  let put (f : PdoField) (v : Nat) : Parse Unit :=
    storeCell (b.room p (.pdo ext rx) n) i (.busPdo ext rx i f) v
  put .sType sType
  let eAddr ← b.getU16 (s.ptr + 1)
  put .eAddr eAddr
  let eType ← b.getU8 (s.ptr + 3)
  put .eType eType
  let len ← b.getU8 (s.ptr + 4)
  put .len len
  let offset ← b.getU16 (s.ptr + 5)
  put .offset offset
  pure ⟨s.ptr + 7, if rx then s.ia else s.ia + 1, if rx then s.ib + 1 else s.ib⟩

/-- `parse_ExtPDO`: it returns where its entries end. -/
def parseExtPDO (p n ptr : Nat) : Parse Nat := do
  let s ← Traced.loop (fun _ s => b.parsePdoEntry p true .pdo1ACountExt .pdo1BCountExt n s) n
    ⟨ptr, 0, 0⟩
  pure s.ptr

/-- `parse_SlavePDO`: it returns where its entries end. -/
def parseSlavePDO (p n ptr : Nat) : Parse Nat := do
  let s ← Traced.loop (fun _ s => b.parsePdoEntry p false .pdo1ACount .pdo1BCount n s) n ⟨ptr, 0, 0⟩
  pure s.ptr

/-- A list that a count of zero leaves out. -/
def unlessNone (n ptr : Nat) (x : Parse Nat) : Parse Nat := if n = 0 then pure ptr else x

/-- The field that an index of a service data object sets. -/
def sdoField (bfmIdx : Nat) : Option BusField :=
  if bfmIdx = 0x6084 then some .nBfm6084
  else if bfmIdx = 0x6085 then some .nBfm6085
  else if bfmIdx = 0x6086 then some .nBfm6086
  else if bfmIdx = 0x6087 then some .nBfm6087
  else if bfmIdx = 0x608A then some .nBfm608A
  else none

/-- The loop of `parse_bus_config` over the service data objects, with `ptr` behind the first byte
of one. It returns where they end, and nothing when it meets an index it does not know. -/
def parseBusSdos : Nat → Nat → Parse (Option Nat)
  | 0, ptr => pure (some (ptr - 1))
  | n + 1, ptr => do
    let bfmIdx ← b.getU16 ptr
    match sdoField bfmIdx with
    | none => pure none
    | some f => do
      let v ← b.getU16 (ptr + 3)
      if f = .nBfm608A then do
        let v := if v < 1 then 1 else v
        setCell (.bus f) v
        setCell (.sd 233) v
      else setCell (.bus f) v
      parseBusSdos n (ptr + 6)

/-- The length of a substation with its head, a halfword in the file. -/
def stationLen (ptr : Nat) : Nat := (b.file.getPU16 (ptr + 2) + 4) % 65536

/-- Where the loop over the substations is: the next one, and how many slaves and extension modules
of the master there have been. -/
structure StationPos where
  ptr : Nat
  slaves : Nat
  masterExts : Nat

/-- One round of the loop of `parse_bus_config` over the substations. -/
def parseStation (p i : Nat) (s : StationPos) : Parse StationPos := do
  let sNumExt ← b.getU8 s.ptr
  setCell (.subStation i .sNumExt) sNumExt
  let sNum ← b.getU8 (s.ptr + 1)
  setCell (.subStation i .sNum) sNum
  let raw ← b.getU16 (s.ptr + 2)
  let len := (raw + 4) % 65536
  setCell (.subStation i .len) len
  Traced.loop (fun k _ => do
    let v ← b.getU8 (s.ptr + k)
    storeCell (b.room p (.subStation i) (len + 8)) k (.subStationBuf i k) v) len ()
  if sNum = 0 ∧ sNumExt ≠ 0 then do
    setCell (.bus .nMasterExtCount) (s.masterExts + 1)
    pure ⟨s.ptr + len, s.slaves, s.masterExts + 1⟩
  else if sNum ≠ 0 ∧ sNumExt = 0 then do
    setCell (.bus .nSlaveCount) (s.slaves + 1)
    pure ⟨s.ptr + len, s.slaves + 1, s.masterExts⟩
  else pure ⟨s.ptr + len, s.slaves, s.masterExts⟩

/-- `parse_bus_config`: it returns the length of the section, and zero when it gives up. -/
def parseBusConfig (p : Nat) : Parse Nat := do
  setCell (.sd 233) 20
  let length ← b.getU16 (p + 2)
  clearRegion .bus
  let nSdoCount ← b.getU16 (p + 4)
  setCell (.bus .nSdoCount) nSdoCount
  match ← b.parseBusSdos nSdoCount (p + 7) with
  | none => pure 0
  | some ptr => do
    let nPdoBytesExt ← b.getU16 ptr
    setCell (.bus .nPdoBytesExt) nPdoBytesExt
    let nPdoCountExt ← b.getU16 (ptr + 2)
    setCell (.bus .nPdoCountExt) nPdoCountExt
    let ptr ← unlessNone nPdoCountExt (ptr + 4) (b.parseExtPDO p nPdoCountExt (ptr + 4))
    let nPdoBytes ← b.getU16 ptr
    setCell (.bus .nPdoBytes) nPdoBytes
    setCell (.bus .nSynBuffLen) nPdoBytes
    let nPdoCount ← b.getU16 (ptr + 2)
    setCell (.bus .nPdoCount) nPdoCount
    let ptr ← unlessNone nPdoCount (ptr + 4) (b.parseSlavePDO p nPdoCount (ptr + 4))
    let nSubStationCount ← b.getU16 ptr
    setCell (.bus .nSubStationCount) nSubStationCount
    let _ ← Traced.loop (fun i s => b.parseStation p i s) nSubStationCount ⟨ptr + 2, 0, 0⟩
    pure length

/-! ## EtherCAT Configuration -/

def isRxPDO (idx : Nat) : Bool := decide (0x1600 ≤ idx ∧ idx ≤ 0x16FF)

/-- The number of bytes of the value of a service data object, by the length it is given with. -/
def soemValueBytes (len : Nat) : Nat := if len = 0x08 then 1 else if len = 0x10 then 2 else 4

/-- One round of the loop of `parse_ethercat_config` over the service data objects of a slave. -/
def parseSoemSdo (p i n k ptr : Nat) : Parse Nat := do
  let put (f : SoemSdoField) (v : Nat) : Parse Unit :=
    storeCell (b.room p (.slaveSdo i) n) k (.soemSdo i k f) v
  let idx ← b.getU16 ptr
  put .idx idx
  let subIdx ← b.getU8 (ptr + 2)
  put .subIdx subIdx
  let len ← b.getU8 (ptr + 3)
  put .len len
  if len = 0x08 then do
    let v ← b.getU8 (ptr + 4)
    put .val v
  else if len = 0x10 then do
    let v ← b.getU16 (ptr + 4)
    put .val v
  else do
    let lo ← b.getU16 (ptr + 4)
    let hi ← b.getU16 (ptr + 6)
    put .val (lo + 65536 * hi)
  pure (ptr + 4 + soemValueBytes len)

/-- Where the loop that counts the process data objects of a slave is. -/
structure PdoCount where
  ptr : Nat
  rx : Nat
  tx : Nat

/-- One round of the loop that counts the process data objects of the slave `i` of `slaves`. -/
def countSoemPdo (slaves i : Nat) (s : PdoCount) : Parse PdoCount := do
  let cIdx ← b.getU16 s.ptr
  if isRxPDO cIdx then do
    storeCell slaves i (.soemSlave i .pdoRxCount) (s.rx + 1)
    pure ⟨s.ptr + 11, s.rx + 1, s.tx⟩
  else do
    storeCell slaves i (.soemSlave i .pdoTxCount) (s.tx + 1)
    pure ⟨s.ptr + 11, s.rx, s.tx + 1⟩

/-- Where the loop that takes the process data objects of a slave is: the indices `r` and `t` of the
next ones, which become 65535 behind the last, and where the first one lies in the frame. -/
structure SoemPdoPos where
  ptr : Nat
  r : Nat
  t : Nat
  rAddr : Nat
  tAddr : Nat

/-- The end of a round for one direction, with `size` the field for the number of bytes. -/
def closePdo (slaves i : Nat) (size : SlaveField) (count x addr offset len : Nat) :
    Parse (Nat × Nat) := do
  let addr := if x = 1 then offset else addr
  if x = count then do
    storeCell slaves i (.soemSlave i size)
      (if x = 0 then 0 else (offset + len + 65536 - addr) % 65536)
    pure (0xFFFF, addr)
  else pure (x, addr)

/-- One round of the loop that takes the process data objects of a slave. -/
def parseSoemPdo (p slaves i rxCount txCount : Nat) (s : SoemPdoPos) : Parse SoemPdoPos := do
  let cIdx ← b.getU16 s.ptr
  let rx := isRxPDO cIdx
  let k := if rx then s.r else s.t
  let put (f : SoemPdoField) (v : Nat) : Parse Unit :=
    storeCell (b.room p (.slavePdo i rx) (if rx then rxCount else txCount)) k (.soemPdo i rx k f) v
  put .cIdx cIdx
  let sIdx ← b.getU16 (s.ptr + 2)
  put .sIdx sIdx
  let sub ← b.getU8 (s.ptr + 4)
  put .sIdx (256 * sIdx + sub)
  let eAddr ← b.getU16 (s.ptr + 5)
  put .eAddr eAddr
  let eType ← b.getU8 (s.ptr + 7)
  put .eType eType
  let len ← b.getU8 (s.ptr + 8)
  put .len len
  put .sIdx (256 * (256 * sIdx + sub) + len)
  let offset ← b.getU16 (s.ptr + 9)
  put .offset offset
  let rNext ← closePdo slaves i .outSize rxCount (if rx then s.r + 1 else s.r) s.rAddr offset len
  let tNext ← closePdo slaves i .inSize txCount (if rx then s.t else s.t + 1) s.tAddr offset len
  pure ⟨s.ptr + 11, rNext.1, tNext.1, rNext.2, tNext.2⟩

/-- One round of the loop of `parse_ethercat_config` over the slaves. -/
def parseSlave (p slaves i ptr : Nat) : Parse Nat := do
  let nSdoCount ← b.getU16 (ptr + 4)
  storeCell slaves i (.soemSlave i .nSdoCount) nSdoCount
  let nPdoCount ← b.getU16 (ptr + 6)
  storeCell slaves i (.soemSlave i .nPdoCount) nPdoCount
  let ptr ← Traced.loop (fun k ptr => b.parseSoemSdo p i nSdoCount k ptr) nSdoCount (ptr + 8)
  let count ← Traced.loop (fun _ s => b.countSoemPdo slaves i s) nPdoCount ⟨ptr, 0, 0⟩
  let last ← Traced.loop (fun _ s => b.parseSoemPdo p slaves i count.rx count.tx s) nPdoCount
    ⟨ptr, 0, 0, 0, 0⟩
  pure last.ptr

def parseEthercatConfig (p : Nat) : Parse Nat := do
  let length ← b.getU16 (p + 2)
  clearRegion .soem
  let nSynBuffLen ← b.getU16 (p + 4)
  setCell (.soem .nSynBuffLen) nSynBuffLen
  let nSubStationCount ← b.getU16 (p + 6)
  setCell (.soem .nSubStationCount) nSubStationCount
  if nSubStationCount = 0 then pure length
  else do
    let _ ← Traced.loop (fun i ptr => b.parseSlave p (b.room p .slaves nSubStationCount) i ptr)
      nSubStationCount (p + 8)
    pure length

/-! ## Sheets -/

/-- One round of the loop of `parse_modbus_tcp_client`. The local port is read where the next round
begins. -/
def parseTcpItem (i ptr : Nat) : Parse Nat := do
  Traced.loop (fun k _ => do
    let v ← b.getU8 (ptr + 2 + k)
    setCell (.tcpName i k) v) 8 ()
  let connectMark ← b.getU8 (ptr + 10)
  setCell (.tcpItem i .connectMark) connectMark
  let connectType ← b.getU8 (ptr + 11)
  setCell (.tcpItem i .connectType) connectType
  let lo ← b.getU16 (ptr + 12)
  let hi ← b.getU16 (ptr + 14)
  setCell (.tcpItem i .ipTarget) (lo + 65536 * hi)
  let portTarget ← b.getU16 (ptr + 16)
  setCell (.tcpItem i .portTarget) portTarget
  let portLocal ← b.getU16 (ptr + 18)
  setCell (.tcpItem i .portLocal) portLocal
  pure (ptr + 18)

def parseModbusTcpClient (p : Nat) : Parse Nat := do
  let length ← b.getU16 (p + 2)
  clearRegion .tcp
  let count ← b.getU16 (p + 4)
  setCell .tcpCount count
  let _ ← Traced.loop (fun i ptr => b.parseTcpItem i ptr) count (p + 4)
  pure length

/-- What an entry of a sheet points to: a `D` or an `R` element. -/
def sheetElement (addr : Nat) : Option (WordElement × Nat) :=
  match mbSlaveConvertElementInfo .word addr with
  | some (.wordD, a) => some (.D, a)
  | some (.wordR, a) => some (.R, a)
  | _ => none

/-- A pointer as a number: the `D` elements lie before the `R` elements. -/
def elementPtr (w : WordElement) (a : Nat) : Nat := if w = .R then WordElement.D.rang + a else a

/-- One round of the loop of `plc_parse_sysblk_modlink_config` over the list of a sheet. -/
def parseSheetItem (p i n j ptr : Nat) : Parse Nat := do
  let put (f : SheetItemField) (v : Nat) : Parse Unit :=
    storeCell (b.room p (.sheet i) n) j (.sheetItem i j f) v
  let stopFlagIndex ← b.getU16 (ptr + 2)
  put .stopFlagIndex stopFlagIndex
  let slaveAddr ← b.getU8 (ptr + 4)
  put .slaveAddr slaveAddr
  let mbFunc ← b.getU8 (ptr + 5)
  put .mbFunc mbFunc
  let startAddr ← b.getU16 (ptr + 6)
  put .startAddr startAddr
  let elementCnt ← b.getU16 (ptr + 8)
  put .elementCnt elementCnt
  let mbRwAddr ← b.getU16 (ptr + 10)
  match sheetElement mbRwAddr with
  | none => Traced.giveUp
  | some data => do
    put .resultData (elementPtr data.1 data.2)
    put .maxResultData (elementPtr data.1 (data.1.rang - 1))
    let mbRwAddr ← b.getU16 (ptr + 12)
    match sheetElement mbRwAddr with
    | none => Traced.giveUp
    | some result => do
      put .execResult (elementPtr result.1 result.2)
      put .isExec 0
      pure (ptr + 14)

/-- One round of the loop of `plc_parse_sysblk_modlink_config` over the sheets. -/
def parseSheet (p i ptr : Nat) : Parse Nat := do
  Traced.loop (fun k _ => do
    let v ← b.getU8 (ptr + k)
    setCell (.sheetName i k) v) maxModlinkSheetNameLen ()
  let tableType ← b.getU16 (ptr + 8)
  -- a big-endian halfword in a byte
  setCell (.sheet i .tableType) (tableType / 256)
  let insListNum ← b.getU16 (ptr + 10)
  setCell (.sheet i .insListNum) (insListNum % 256)
  let n := insListNum % 256
  if b.malloc p (.sheet i) then
    Traced.loop (fun j ptr => b.parseSheetItem p i n j ptr) n (ptr + 12)
  else Traced.giveUp

def plcParseSysblkModlinkConfig (p : Nat) : Parse Unit := do
  clearRegion .sheets
  let sheetNum ← b.getU16 (p + 4)
  let _ ← Traced.loop (fun i ptr => b.parseSheet p i ptr) (sheetNum % 256) (p + 6)
  pure ()

/-! ## The Whole Block -/

/-- What is done with a section. -/
inductive SysCode where
  | batterySave | outputPoint | watchDogTime | scanTime | losePowerCheckTime | fexlinkCycleTime
  | digitFilterTime | digitFilterTime1 | advancedSetting | runInputPoint | intPriority
  | modlink | modbusTcpClient | busConfig | ethercatConfig | ethercatMaster | plcRole
  -- a configuration that the editor keeps for itself, or that is not supported yet
  | skipped
deriving DecidableEq

def sysCodes : List (Nat × SysCode) :=
  [(0xAA01, .batterySave), (0xAA02, .outputPoint), (0xAA03, .watchDogTime), (0xAA04, .scanTime),
   (0xAA05, .losePowerCheckTime), (0xAA52, .fexlinkCycleTime), (0xAA06, .digitFilterTime),
   (0xAA16, .digitFilterTime1), (0xAA07, .advancedSetting), (0xAA08, .runInputPoint),
   (0xAA0D, .intPriority), (0xAA20, .modlink), (0xAA55, .modbusTcpClient), (0xAA51, .busConfig),
   (0xAA54, .ethercatConfig), (0xAA56, .ethercatMaster), (0xAA58, .plcRole)] ++
  [0xAA0E, 0xAA0F, 0xAA11, 0xAA12, 0xAA13, 0xAA09, 0xAA0A, 0xAA10, 0xAA19, 0xAA1A, 0xAA1B, 0xAA1C,
   0xAA21, 0xAA30, 0xAA31, 0xAA32, 0xAA33, 0xAA50, 0xAA53, 0xAA57, 0xAA59, 0xAA5A, 0xAA5B].map
    fun code => (code, .skipped)

/-- The case of the switch that a code is taken by. -/
def sysCode (code : Nat) : Option SysCode := (sysCodes.find? fun x => x.1 = code).map (·.2)

/-- Step on by the length that a sub-parser returns. -/
def stepBy (p : Nat) (x : Parse Nat) : Parse Nat := do
  let len ← x
  pure (p + len)

/-- A section of `MODLINK`: one of the length 6 has no sheets. -/
def modlink (p : Nat) : Parse Nat :=
  if b.modbusTcpSheet then b.skip p
  else do
    let len ← b.getU16 (p + 2)
    if len ≠ 6 then do
      b.plcParseSysblkModlinkConfig p
      pure (p + len)
    else pure (p + len)

def modbusTcpClient (p : Nat) : Parse Nat :=
  if b.modbusTcpSheet then b.skip p else stepBy p (b.parseModbusTcpClient p)

/-- A section of the bus configuration, which is parsed for the flag 1 only. -/
def busConfig (p : Nat) : Parse Nat :=
  if b.flag = 1 then stepBy p (b.parseBusConfig p) else b.skip p

/-- A section of the EtherCAT configuration, which is parsed for the flag 1 only. -/
def ethercatConfig (p : Nat) : Parse Nat :=
  if b.flag = 1 then stepBy p (b.parseEthercatConfig p) else b.skip p

/-- The case of the switch for a section at `p`. It gives up where the block is refused. -/
def parseCode (p : Nat) : SysCode → Parse Nat
  | .batterySave => b.batterySave p
  | .outputPoint => b.outputPoint p
  | .watchDogTime => b.watchDogTime p
  | .scanTime => b.scanTime p
  | .losePowerCheckTime => b.losePowerCheckTime p
  | .fexlinkCycleTime => b.fexlinkCycleTime p
  | .digitFilterTime => b.digitFilterTime p
  | .digitFilterTime1 => b.digitFilterTime1 p
  | .advancedSetting => b.advancedSetting p
  | .runInputPoint => b.runInputPoint p
  | .intPriority => b.intPriority p
  | .modlink => b.modlink p
  | .modbusTcpClient => b.modbusTcpClient p
  | .busConfig => b.busConfig p
  | .ethercatConfig => b.ethercatConfig p
  | .ethercatMaster => stepBy p (b.parseEthercatMaster p)
  | .plcRole => b.plcRole p
  | .skipped => b.skip p

/-- One round of the section loop: where the next section is. -/
def parseSection (p : Nat) : Parse Nat := do
  let code ← b.getU16 p
  match sysCode code with
  | none => Traced.giveUp
  | some k => b.parseCode p k

/-- The length of the file that its head gives. -/
def fileLen : Nat := b.file.getPU32 6

/-- Where the section loop ends. -/
def sectionsEnd : Nat := b.fileLen - 4

/-- Where the first section lies. -/
def firstSection : Nat := 22 + 2

end SysBlock

/-- What the parser changes: the configuration, the error flag, and whether the block in use is the
default one. -/
structure SysBlockState where
  config : SysConfig
  sysblockErr : Bool
  isDefault : Bool

/-- What the notes of the parser make of the configuration. -/
def applyTouches (ts : List Touch) (g : SysConfig) : SysConfig := ts.foldl (fun g t => t.apply g) g

namespace SysBlock

variable (b : SysBlock)

/-- The section loop. It leaves with `true` for `pdPASS` and with `false` for `pdFAIL`. -/
def sectionLoop : WhileLoop (Nat × SysBlockState) (Bool × SysBlockState) := fun s =>
  if s.1 < b.sectionsEnd then
    let x := b.parseSection s.1
    let config := applyTouches x.notes s.2.config
    match x.result with
    | some p => .inl (p, { s.2 with config })
    | none => .inr (false, ⟨config, true, true⟩)
  else .inr (true, s.2)

def plcParseSystemBlock (n : Nat) (s : SysBlockState) : Option (Bool × SysBlockState) :=
  if s.sysblockErr then some (false, s) else b.sectionLoop.run n (firstSection, s)

end SysBlock

end Kalyke
