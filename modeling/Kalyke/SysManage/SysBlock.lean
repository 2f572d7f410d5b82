-- SUMMARY: The parser of the system block: what it reads, what it sets, and how it goes on.
import Mathlib.Order.Basic
import Kalyke.Compiler.State
import Kalyke.Exec.Elements
import Kalyke.Lib.Traced
import Kalyke.Lib.WhileLoop
import Kalyke.Modbus.MapTable
import Kalyke.Ucode.Memory

/-!
# System Block

A system block is a file of sections, each a configuration code, a length and the settings of that
code. `plc_parse_system_block` goes from section to section and applies each one as it meets it. The
parser notes what it reads of the file and what it sets, so that both can be stated of a whole run.
The sheets of `MODLINK` and `MODBUS_TCP_CLIENT` are parsed only in builds without
`KALYKE_MODBUS_TCP_SHEET`.
-/

namespace Kalyke

/-! ## The Configuration -/

/-- The fields of `plc_plsd_item_st`. -/
inductive PlsdField where
  | startElement | length
deriving DecidableEq

/-- The fields of `bus_config_st`, but for its lists. -/
inductive BusField where
  | nSynBuffLen | nSdoCount | nBfm6084 | nBfm6085 | nBfm6086 | nBfm6087 | nBfm608A
  | nPdoBytesExt | nPdoCountExt | pdo1ACountExt | pdo1BCountExt
  | nPdoBytes | nPdoCount | pdo1ACount | pdo1BCount
  | nSubStationCount | nSlaveCount | nMasterExtCount
deriving DecidableEq

/-- The fields of `pdo_st`. -/
inductive PdoField where
  | sType | len | eType | eAddr | offset
deriving DecidableEq

/-- The fields of `sub_station_item_st`, but for its buffer. -/
inductive StationField where
  | sNumExt | sNum | len
deriving DecidableEq

/-- The fields of `soem_config_st`, but for its slaves. -/
inductive SoemField where
  | nSynBuffLen | nSubStationCount
deriving DecidableEq

/-- The fields of `soem_slave_st`, but for its lists. -/
inductive SlaveField where
  | nSdoCount | nPdoCount | pdoRxCount | pdoTxCount | outSize | inSize
deriving DecidableEq

/-- The fields of `soem_sdo_st`. -/
inductive SoemSdoField where
  | idx | subIdx | len | val
deriving DecidableEq

/-- The fields of `soem_pdo_st`. -/
inductive SoemPdoField where
  | cIdx | sIdx | len | eType | eAddr | offset
deriving DecidableEq

/-- The fields of `modbus_tcp_config_item_st`, but for its name. -/
inductive TcpField where
  | connectMark | connectType | ipTarget | portTarget | portLocal
deriving DecidableEq

/-- The fields of `plc_modlink_head_st`, but for its name and its list. -/
inductive SheetField where
  | tableType | insListNum | listIndex
deriving DecidableEq

/-- The fields of `plc_modlink_ins_item_st`. -/
inductive SheetItemField where
  | stopFlagIndex | slaveAddr | mbFunc | startAddr | elementCnt | resultData | maxResultData
  | execResult | isExec
deriving DecidableEq

/-- A cell of the configuration. The lists that pointers lead to count with what points to them. -/
inductive SysCell where
  | plsd (group element : Nat) (f : PlsdField)
  | outStatus
  | outValue (i : Nat)
  | sd (n : Nat)
  | sm (n : Nat)
  | adSetting
  | priority (i : Nat)
  | plcRunAs
  | leftModules
  | bus (f : BusField)
  | busPdo (ext rx : Bool) (i : Nat) (f : PdoField)
  | subStation (i : Nat) (f : StationField)
  | subStationBuf (i k : Nat)
  | soem (f : SoemField)
  | soemSlave (i : Nat) (f : SlaveField)
  | soemSdo (i k : Nat) (f : SoemSdoField)
  | soemPdo (i : Nat) (rx : Bool) (k : Nat) (f : SoemPdoField)
  | tcpCount
  | tcpName (i k : Nat)
  | tcpItem (i : Nat) (f : TcpField)
  | sheetName (i k : Nat)
  | sheet (i : Nat) (f : SheetField)
  | sheetItem (i j : Nat) (f : SheetItemField)
deriving DecidableEq

/-- What is set to zero at once. -/
inductive Region where
  | bus | soem | tcp | sheets
deriving DecidableEq

def SysCell.region : SysCell → Option Region
  | .bus _ | .busPdo .. | .subStation .. | .subStationBuf .. => some .bus
  | .soem _ | .soemSlave .. | .soemSdo .. | .soemPdo .. => some .soem
  | .tcpCount | .tcpName .. | .tcpItem .. => some .tcp
  | .sheetName .. | .sheet .. | .sheetItem .. => some .sheets
  | _ => none

/-- What every cell of the configuration holds. -/
abbrev SysConfig := SysCell → Nat

def maxSubStationItem : Nat := 200

def maxTcpConfigItem : Nat := 3

def maxModlinkSheetNum : Nat := 32

def maxModlinkSheetNameLen : Nat := 8

/-- The cell lies in its table. -/
def SysCell.Inside : SysCell → Prop
  | .priority i => i < maxSysIntNum
  | .subStation i _ => i < maxSubStationItem
  | .tcpName i _ | .tcpItem i _ => i < maxTcpConfigItem
  | .sheetName i _ | .sheet i _ => i < maxModlinkSheetNum
  | _ => True

/-- What the parser does to the memory: it reads `n` bytes of the file from `p` on, sets a cell of a
table, sets a cell in the entry `i` of an allocated block of `n` entries, or clears a region. -/
inductive Touch where
  | read (p n : Nat)
  | set (c : SysCell) (v : Nat)
  | store (n i : Nat) (c : SysCell) (v : Nat)
  | clear (r : Region)
deriving DecidableEq

namespace Touch

/-- Nothing is read at `e` or behind it, and nothing written outside of its table or block. -/
def Inside (e : Nat) : Touch → Prop
  | read p n => p + n ≤ e
  | set c _ => c.Inside
  | store n i _ _ => i < n
  | clear _ => True

/-- The value that a cell is given. -/
def gives (t : Touch) (c : SysCell) : Option Nat :=
  match t with
  | read _ _ => none
  | set c' v | store _ _ c' v => if c = c' then some v else none
  | clear r => if c.region = some r then some 0 else none

/-- What the configuration becomes. -/
def apply (t : Touch) (g : SysConfig) : SysConfig := fun c => (t.gives c).getD (g c)

end Touch

/-! ## Reading and Setting -/

/-- The blocks that the parser allocates for a section. -/
inductive HeapBlock where
  | pdo (ext rx : Bool)
  | subStation (i : Nat)
  | slaves
  | slaveSdo (i : Nat)
  | slavePdo (i : Nat) (rx : Bool)
  | sheet (i : Nat)
deriving DecidableEq

/-- What the parser works on: the memory from the first byte of the block on, its argument, and
the options of the device and the build. Whether `pvPortMalloc` serves a request for a block of the
section at `p` is up to the heap. -/
structure SysBlock where
  file : Ucode
  flag : BitVec 8
  isSupportPlsd : Bool
  modbusTcpSheet : Bool
  malloc : Nat → HeapBlock → Bool

/-- A part of the parser. -/
abbrev Parse := Traced Touch

def setCell (c : SysCell) (v : Nat) : Parse Unit := Traced.note (.set c v)

/-- Set a cell in the entry `i` of an allocated block of `n` entries. -/
def storeCell (n i : Nat) (c : SysCell) (v : Nat) : Parse Unit := Traced.note (.store n i c v)

/-- `memset` with zero. -/
def clearRegion (r : Region) : Parse Unit := Traced.note (.clear r)

namespace SysBlock

variable (b : SysBlock)

def getU8 (p : Nat) : Parse Nat := do
  Traced.note (.read p 1)
  pure (b.file.getPU8 p)

def getU16 (p : Nat) : Parse Nat := do
  Traced.note (.read p 2)
  pure (b.file.getPU16 p)

/-- The number of entries that the block allocated for `n` entries really has. -/
def room (p : Nat) (blk : HeapBlock) (n : Nat) : Nat := if b.malloc p blk then n else 0

/-- The length that a section says it has. -/
def sectionLen (p : Nat) : Nat := b.file.getPU16 (p + 2)

/-! ## Sections of a Fixed Length -/

/-- A section that is refused unless it has the length `n`. -/
def ofLength (n p : Nat) (body : Parse Unit) : Parse Nat := do
  let len ← b.getU16 (p + 2)
  if len ≠ n then Traced.giveUp
  else do
    body
    pure (p + len)

def plcParseSysblkPlsdDataProcessing (data element : Nat) : Parse Unit := do
  let start1 ← b.getU16 data
  let len1 ← b.getU16 (data + 2)
  let start2 ← b.getU16 (data + 4)
  let len2 ← b.getU16 (data + 6)
  setCell (.plsd 1 element .startElement) start1
  setCell (.plsd 1 element .length) len1
  setCell (.plsd 2 element .startElement) start2
  setCell (.plsd 2 element .length) len2

/-- `plc_parse_sysblk_plsd_config`: both groups of the five classes of elements. -/
def plcParseSysblkPlsdConfig (p : Nat) : Parse Unit :=
  if b.isSupportPlsd then
    Traced.loop (fun i _ => b.plcParseSysblkPlsdDataProcessing (p + 4 + 8 * i) i) 5 ()
  else pure ()

/-- `SYS_BLK_CFG_BATTERY_SAVE`. -/
def batterySave (p : Nat) : Parse Nat := b.ofLength 44 p (b.plcParseSysblkPlsdConfig p)

/-- One round of the loop over the output values. -/
def parseOutValue (p i : Nat) : Parse Unit := do
  let v ← b.getU16 (p + 6 + 2 * i)
  setCell (.outValue i) v

/-- `SYS_BLK_CFG_OUTPUT_POINT`. -/
def outputPoint (p : Nat) : Parse Nat := b.ofLength 22 p do
  let status ← b.getU16 (p + 4)
  setCell .outStatus (status % 256)
  Traced.loop (fun i _ => b.parseOutValue p i) 8 ()

/-- A section with one word that is kept between two bounds. -/
def limited (n lo hi p : Nat) : Parse Nat := b.ofLength 6 p do
  let w ← b.getU16 (p + 4)
  setCell (.sd n) (if w < lo then lo else if hi < w then hi else w)

/-- `SYS_BLK_CFG_WATCH_DOG_TIME`. -/
def watchDogTime (p : Nat) : Parse Nat := b.limited 34 100 1000 p

/-- `SYS_BLK_CFG_LOSE_POWER_CHECK_TIME`. -/
def losePowerCheckTime (p : Nat) : Parse Nat := b.limited 5 10 100 p

/-- `SYS_BLK_CFG_FEXLINK_CYCLE_TIME`. -/
def fexlinkCycleTime (p : Nat) : Parse Nat := b.ofLength 6 p do
  let w ← b.getU16 (p + 4)
  setCell (.sd 234) (if w ≤ 0 then 0 else if 2000 < w then 2000 else w)

/-- `SYS_BLK_CFG_SCAN_TIME`: `SM8` is switched on, but never off. -/
def scanTime (p : Nat) : Parse Nat := b.ofLength 6 p do
  let w ← b.getU16 (p + 4)
  setCell (.sd 33) w
  if w ≠ 0 then setCell (.sm 8) 1 else pure ()

/-- `SYS_BLK_CFG_DIGIT_FILTER_TIME`. -/
def digitFilterTime (p : Nat) : Parse Nat := b.ofLength 8 p do
  let x ← b.getU16 (p + 4)
  setCell (.sd 35) x
  let y ← b.getU16 (p + 6)
  setCell (.sd 36) y

/-- `SYS_BLK_CFG_DIGIT_FILTER_TIME1`. -/
def digitFilterTime1 (p : Nat) : Parse Nat := b.ofLength 20 p (pure ())

/-- `SYS_BLK_CFG_ADVANCED_SETTING`: the lowest bit is `no_battery_mode`. -/
def advancedSetting (p : Nat) : Parse Nat := b.ofLength 6 p do
  let setting ← b.getU16 (p + 4)
  setCell .adSetting setting
  setCell (.sm 7) (setting % 2)

/-- The number of the lowest bit that is set. -/
def lowestBit (w : Nat) : Nat := ((List.range 16).find? fun i => w.testBit i).getD 0

/-- `SYS_BLK_CFG_RUN_INPUT_POINT`. -/
def runInputPoint (p : Nat) : Parse Nat := b.ofLength 6 p do
  let w ← b.getU16 (p + 4)
  if w = 0 then do
    setCell (.sm 9) 0
    setCell (.sd 9) 0
  else do
    setCell (.sm 9) 1
    setCell (.sd 9) (lowestBit w)

def plcRole (p : Nat) : Parse Nat := b.ofLength 10 p do
  let role ← b.getU8 (p + 4)
  setCell .plcRunAs role
  let left ← b.getU8 (p + 5)
  setCell .leftModules left

/-! ## Sections of Any Length -/

/-- A section that is stepped over. -/
def skip (p : Nat) : Parse Nat := do
  let len ← b.getU16 (p + 2)
  pure (p + len)

/-- A priority is low, high or left open. -/
def ValidPriority (v : Nat) : Prop := v ≤ 1 ∨ v = 0xFF

instance (v : Nat) : Decidable (ValidPriority v) := by unfold ValidPriority; infer_instance

/-- One round of the loop over the priorities. -/
def parsePriority (p i : Nat) : Parse Unit := do
  let v ← b.getU8 (p + 6 + i)
  if 1 < v ∧ v ≠ 0xFF then Traced.giveUp
  else setCell (.priority i) v

/-- `SYS_BLK_CFG_INT_PRIORITY`. -/
def intPriority (p : Nat) : Parse Nat := do
  let len ← b.getU16 (p + 2)
  let count ← b.getU16 (p + 4)
  if maxSysIntNum < count then Traced.giveUp
  else do
    Traced.loop (fun i _ => b.parsePriority p i) count ()
    pure (p + len)

def parseEthercatMaster (p : Nat) : Parse Nat := do
  let len ← b.getU16 (p + 2)
  let slaveStartWait ← b.getU16 (p + 4)
  setCell (.sd 301) slaveStartWait
  let loopTime ← b.getU16 (p + 6)
  setCell (.sd 300) (if loopTime = 0 then 1 else loopTime)
  let stop ← b.getU8 (p + 8)
  setCell (.sd 302) stop
  let tryTimes ← b.getU8 (p + 9)
  setCell (.sd 303) tryTimes
  pure len

end SysBlock

end Kalyke
